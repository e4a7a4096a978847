/-
Module: Mimi.Proofs.UnifierSteps
Purpose: What the arms of the unifier mean for two types as terms, and the equations that are left to be solved.
Trusted boundary: none
-/
import Mimi.Proofs.InferenceAcyclicity

namespace Mimi.Core

open Mimi.Lib Ty Table

/-! ### One step of the unifier -/

/-- What a step means for two types. -/
def StepSound (a b : Ty) : UnifyStep → Prop
  | .union _ _ | .bind _ _ => True
  | .accept => a.term = b.term
  | .reject _ => ∀ σ : Nat → TypeTerm, a.term.subst σ ≠ b.term.subst σ
  | .bareContainer => False
  | .parts pairs => ∃ f, a.term = .app f (pairs.map fun pair => pair.1.term) ∧
      b.term = .app f (pairs.map fun pair => pair.2.term)

theorem dualArms_sound {a b : Ty} {step : UnifyStep} (h : dualArms a b = some step) :
    StepSound a b step := by
  unfold dualArms at h
  split at h <;> cases h
  · exact ⟨.name "Option", rfl, rfl⟩
  · exact ⟨.name "Option", rfl, rfl⟩
  · exact ⟨.name "Result", rfl, rfl⟩
  · exact ⟨.name "Result", rfl, rfl⟩

theorem terms_zip {as bs : List Ty} (length : as.length = bs.length) :
    Ty.terms as = (as.zip bs).map (fun pair => pair.1.term) ∧
      Ty.terms bs = (as.zip bs).map (fun pair => pair.2.term) := by
  have left : (as.zip bs).map Prod.fst = as := List.map_fst_zip length.le
  have right : (as.zip bs).map Prod.snd = bs := List.map_snd_zip length.ge
  constructor
  · conv_lhs => rw [← left, Ty.terms_eq_map, List.map_map]
    rfl
  · conv_lhs => rw [← right, Ty.terms_eq_map, List.map_map]
    rfl

/-- Applications of different arity have no unifier. -/
theorem not_unifies_of_length {f : Head} {as bs : List TypeTerm} (h : as.length ≠ bs.length)
    (σ : Nat → TypeTerm) : (Term.app f as).subst σ ≠ (Term.app f bs).subst σ := by
  intro unifies
  simp only [Term.subst_app, Term.app.injEq, true_and] at unifies
  exact h (by simpa using congrArg List.length unifies)

theorem functionStep_sound {f : Head} {as bs : List Ty} {r q a b : Ty}
    (ha : a.term = .app f (Ty.terms as ++ [r.term]))
    (hb : b.term = .app f (Ty.terms bs ++ [q.term])) : StepSound a b (functionStep as r bs q) := by
  unfold functionStep
  split_ifs with arity
  · intro σ
    rw [ha, hb]
    exact not_unifies_of_length (by simpa [Ty.terms_eq_map] using arity) σ
  · obtain ⟨left, right⟩ := terms_zip (not_not.mp arity)
    exact ⟨f, by simp [ha, left], by simp [hb, right]⟩

theorem structuralArms_sound {a b : Ty} {step : UnifyStep}
    (h : structuralArms a b = some step) : StepSound a b step := by
  unfold structuralArms at h
  split at h <;> try split_ifs at h with eq
  all_goals cases h
  all_goals first
    | exact functionStep_sound rfl rfl
    | (obtain ⟨left, right⟩ := terms_zip eq
       exact ⟨.tuple, by rw [Ty.term, left], by rw [Ty.term, right]⟩)
    | exact ⟨_, rfl, rfl⟩
    | (subst eq; exact ⟨_, rfl, rfl⟩)

/-! ### The unifier -/

/-- Equations between type terms. -/
abbrev Equations := List (TypeTerm × TypeTerm)

/-- The variables a solved form leaves in equations. -/
def Equations.vars (τ : Nat → TypeTerm) (eqs : Equations) : Finset Nat :=
  (eqs.flatMap fun e => (e.1.subst τ).vars ++ (e.2.subst τ).vars).toFinset

theorem Equations.mem_vars {τ : Nat → TypeTerm} {eqs : Equations} {v : Nat} :
    v ∈ Equations.vars τ eqs ↔
      ∃ e ∈ eqs, v ∈ (e.1.subst τ).vars ∨ v ∈ (e.2.subst τ).vars := by
  simp [Equations.vars]

/-- A step of narrowing takes a variable out of the equations, if it is not idle. -/
theorem Equations.vars_of_narrows {among : Finset Nat} {τ τ' : Nat → TypeTerm}
    (narrows : Narrows among τ τ') (eqs : Equations) :
    τ' = τ ∨ ∃ r ∈ among, eqs.vars τ' ⊆ (eqs.vars τ ∪ among).erase r := by
  refine narrows.imp_right fun ⟨r, hr, narrow⟩ => ⟨r, hr, fun v hv => ?_⟩
  obtain ⟨e, he, hv⟩ := Equations.mem_vars.mp hv
  have side (t : TypeTerm) (left : ∀ w ∈ (t.subst τ).vars, w ∈ eqs.vars τ)
      (ht : v ∈ (t.subst τ').vars) : v ∈ (eqs.vars τ ∪ among).erase r := by
    have := narrow t (List.mem_toFinset.mpr ht)
    simp only [Finset.mem_erase, Finset.mem_union, List.mem_toFinset] at this ⊢
    exact ⟨this.1, this.2.imp_left (left v)⟩
  rcases hv with hv | hv
  · exact side e.1 (fun w hw => Equations.mem_vars.mpr ⟨e, he, .inl hw⟩) hv
  · exact side e.2 (fun w hw => Equations.mem_vars.mpr ⟨e, he, .inr hw⟩) hv

/-- Narrowing in two goes. -/
theorem narrows_append {τ τ' τ'' : Nat → TypeTerm} {first second : Equations}
    (h₁ : Narrows (first.vars τ) τ τ') (h₂ : Narrows (second.vars τ') τ' τ'') :
    Narrows (Equations.vars τ (first ++ second)) τ τ'' := by
  refine Narrows.trans (h₁.mono ?_) h₂ ?_
  · intro v hv
    obtain ⟨e, he, hv⟩ := Equations.mem_vars.mp hv
    exact Equations.mem_vars.mpr ⟨e, List.mem_append_left _ he, hv⟩
  · intro w hw
    obtain ⟨e, he, hw⟩ := Equations.mem_vars.mp hw
    have among (t : TypeTerm) (ht : t = e.1 ∨ t = e.2) :
        (t.subst τ).vars.toFinset ⊆ Equations.vars τ (first ++ second) := by
      intro v hv
      rw [List.mem_toFinset] at hv
      refine Equations.mem_vars.mpr ⟨e, List.mem_append_right _ he, ?_⟩
      rcases ht with rfl | rfl
      · exact .inl hv
      · exact .inr hv
    rcases hw with hw | hw
    · exact ⟨e.1, hw, among _ (.inl rfl)⟩
    · exact ⟨e.2, hw, among _ (.inr rfl)⟩

/-- The terms of pairs of types. -/
def pairTerms (pairs : List (Ty × Ty)) : Equations :=
  pairs.map fun pair => (pair.1.term, pair.2.term)

end Mimi.Core
