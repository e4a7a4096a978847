/-
Module: Mimi.Lib.Dialogue
Purpose: Computations that ask questions, run against a stateful respondent or evaluated against an oracle of growing
  depth, and the transfer of answers from the one to the other.
Trusted boundary: none
-/
import Mathlib

namespace Mimi.Lib

/-- A computation that asks questions of type `Q`, each answered by an `A`. -/
inductive Dialogue (Q A : Type) (α : Type) : Type where
  | done (a : α) : Dialogue Q A α
  | ask (q : Q) (next : A → Dialogue Q A α) : Dialogue Q A α

namespace Dialogue

variable {Q A α β σ : Type}

protected def bind : Dialogue Q A α → (α → Dialogue Q A β) → Dialogue Q A β
  | done a, f => f a
  | ask q next, f => ask q fun a => (next a).bind f

instance : Monad (Dialogue Q A) where
  pure := done
  bind := Dialogue.bind

/-- Put one question. -/
def put (q : Q) : Dialogue Q A A := ask q done

/-- Run against a respondent with a state; `none` is a respondent that does not answer. -/
def run (answer : Q → σ → Option (A × σ)) : Dialogue Q A α → σ → Option (α × σ)
  | done a, s => some (a, s)
  | ask q next, s => (answer q s).bind fun r => (next r.1).run answer r.2

/-- Evaluate against an oracle. -/
def eval (oracle : Q → Option A) : Dialogue Q A α → Option α
  | done a => some a
  | ask q next => (oracle q).bind fun a => (next a).eval oracle

/-- An oracle that answers more does not change the value. -/
theorem eval_mono {oracle oracle' : Q → Option A}
    (hmono : ∀ q a, oracle q = some a → oracle' q = some a) :
    ∀ {d : Dialogue Q A α} {r : α}, d.eval oracle = some r → d.eval oracle' = some r := by
  intro d
  induction d with
  | done a => exact fun h => h
  | ask q next ih =>
      intro r h
      simp only [eval, Option.bind_eq_some_iff] at h ⊢
      obtain ⟨a, ha, hr⟩ := h
      exact ⟨a, hmono q a ha, ih a hr⟩

section Respondent

variable {answer : Q → σ → Option (A × σ)}

/-- A respondent that answers in every state it can be in answers whole dialogues. -/
theorem run_total (Ready : σ → Prop)
    (hanswer : ∀ q s, Ready s → ∃ a s', answer q s = some (a, s') ∧ Ready s') :
    ∀ (d : Dialogue Q A α) s, Ready s → ∃ r s', d.run answer s = some (r, s') ∧ Ready s' := by
  intro d
  induction d with
  | done a => exact fun s hs => ⟨a, s, rfl, hs⟩
  | ask q next ih =>
      intro s hs
      obtain ⟨a, s₁, ha, hs₁⟩ := hanswer q s hs
      obtain ⟨r, s₂, hr, hs₂⟩ := ih a s₁ hs₁
      exact ⟨r, s₂, by simp [run, ha, hr], hs₂⟩

/-- What each answer keeps, whole dialogues keep. -/
theorem run_keeps {P : σ → Prop} (hanswer : ∀ q s a s', answer q s = some (a, s') → P s → P s') :
    ∀ {d : Dialogue Q A α} {s : σ} {r : α} {s' : σ}, d.run answer s = some (r, s') → P s → P s' := by
  intro d
  induction d with
  | done a =>
      intro s r s' h hs
      simp only [run, Option.some.injEq, Prod.mk.injEq] at h
      exact h.2 ▸ hs
  | ask q next ih =>
      intro s r s' h hs
      simp only [run, Option.bind_eq_some_iff] at h
      obtain ⟨⟨a, s₁⟩, ha, hr⟩ := h
      exact ih a hr (hanswer q s a s₁ ha hs)

/-- When every answer that leads to a good state is one that the oracle gives at some depth, so is the value of a whole
dialogue that leads to a good state. -/
theorem run_faithful (oracle : Nat → Q → Option A) (Inv Good : σ → Prop)
    (hdeeper : ∀ m n q a, m ≤ n → oracle m q = some a → oracle n q = some a)
    (hgood : ∀ q s a s', answer q s = some (a, s') → Good s' → Good s)
    (hanswer : ∀ q s a s', Inv s → answer q s = some (a, s') → Good s' →
      Inv s' ∧ ∃ n, oracle n q = some a) :
    ∀ {d : Dialogue Q A α} {s : σ} {r : α} {s' : σ}, Inv s → d.run answer s = some (r, s') → Good s' →
      Inv s' ∧ ∃ n, d.eval (oracle n) = some r := by
  intro d
  induction d with
  | done a =>
      intro s r s' hs h _
      simp only [run, Option.some.injEq, Prod.mk.injEq] at h
      obtain ⟨rfl, rfl⟩ := h
      exact ⟨hs, 0, rfl⟩
  | ask q next ih =>
      intro s r s' hs h hs'
      simp only [run, Option.bind_eq_some_iff] at h
      obtain ⟨⟨a, s₁⟩, ha, hr⟩ := h
      -- Badness only grows, so the state between the first answer and the rest is good as well.
      have hs₁ : Good s₁ := by
        by_contra hbad
        exact run_keeps (P := fun t => ¬ Good t)
          (fun q t b t' hb ht ht' => ht (hgood q t b t' hb ht')) hr hbad hs'
      obtain ⟨hinv, m, hm⟩ := hanswer q s a s₁ hs ha hs₁
      obtain ⟨hinv', n, hn⟩ := ih a hinv hr hs'
      refine ⟨hinv', max m n, ?_⟩
      simp only [eval, hdeeper m _ q a (le_max_left m n) hm, Option.bind_some]
      exact eval_mono (fun q b => hdeeper n _ q b (le_max_right m n)) hn

end Respondent

end Dialogue

end Mimi.Lib
