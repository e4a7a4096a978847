/-
Module: Mimi.Lib.Sweeps
Purpose: Updates of a state at the elements of a list in turn, over and over until a whole sweep changes
  nothing.  An invariant of the updates is kept, the sweeps end where every update uses up some of a
  measure, and behind them no update changes anything.
Trusted boundary: none
-/
import Mathlib

namespace Mimi.Lib

variable {σ α : Type} (update : α → σ → Option σ)

/-- One sweep; an update without a result changes nothing.  Tells whether anything changed. -/
def sweep : List α → σ → σ × Bool
  | [], s => (s, false)
  | a :: as, s =>
      match update a s with
      | none => sweep as s
      | some s' => ((sweep as s').1, true)

/-- Sweeps until nothing changes. -/
def sweeps : Nat → List α → σ → Option σ
  | 0, _, _ => none
  | fuel + 1, as, s =>
      match sweep update as s with
      | (s', true) => sweeps fuel as s'
      | (s', false) => some s'

variable {update}

attribute [local simp] sweep sweeps

theorem sweep_invariant {I : σ → Prop} {as : List α} (keeps : ∀ a ∈ as, ∀ s s', I s → update a s = some s' → I s')
    {s : σ} (started : I s) : I (sweep update as s).1 := by
  induction as generalizing s with
  | nil => exact started
  | cons a as ih =>
      have later := @ih fun b member => keeps b (List.mem_cons_of_mem a member)
      rw [sweep]
      cases changed : update a s with
      | none => exact later started
      | some s' => exact later (keeps a List.mem_cons_self s s' started changed)

theorem sweeps_invariant {I : σ → Prop} {as : List α} (keeps : ∀ a ∈ as, ∀ s s', I s → update a s = some s' → I s')
    {fuel : Nat} {s s' : σ} (started : I s) (ended : sweeps update fuel as s = some s') : I s' := by
  induction fuel generalizing s with
  | zero => cases ended
  | succ fuel ih =>
      have kept := sweep_invariant keeps started
      rw [sweeps] at ended
      generalize sweep update as s = swept at ended kept
      obtain ⟨next, changed⟩ := swept
      cases changed with
      | true => exact ih kept ended
      | false => exact Option.some.inj ended ▸ kept

/-- A sweep that changes nothing found nothing to change. -/
theorem sweep_settled {as : List α} {s s' : σ} (same : sweep update as s = (s', false)) :
    s' = s ∧ ∀ a ∈ as, update a s = none := by
  induction as with
  | nil => exact ⟨(congrArg Prod.fst same).symm, nofun⟩
  | cons a as ih =>
      rw [sweep] at same
      cases changed : update a s with
      | none =>
          rw [changed] at same
          obtain ⟨eq, rest⟩ := ih same
          refine ⟨eq, fun b member => ?_⟩
          rcases List.mem_cons.mp member with rfl | later
          · exact changed
          · exact rest b later
      | some next =>
          rw [changed] at same
          cases congrArg Prod.snd same

theorem sweeps_settled {fuel : Nat} {as : List α} {s s' : σ} (ended : sweeps update fuel as s = some s') :
    ∀ a ∈ as, update a s' = none := by
  induction fuel generalizing s with
  | zero => cases ended
  | succ fuel ih =>
      rw [sweeps] at ended
      cases swept : sweep update as s with
      | mk next changed =>
          rw [swept] at ended
          cases changed with
          | true => exact ih ended
          | false =>
              obtain ⟨rfl, settled⟩ := sweep_settled swept
              exact Option.some.inj ended ▸ settled

/-- A sweep uses up some of the measure, or changes nothing. -/
theorem sweep_measure {I : σ → Prop} {size : σ → Nat} {as : List α}
    (keeps : ∀ a ∈ as, ∀ s s', I s → update a s = some s' → I s')
    (shrinks : ∀ a ∈ as, ∀ s s', I s → update a s = some s' → size s' < size s) {s : σ} (started : I s) :
    size (sweep update as s).1 + (sweep update as s).2.toNat ≤ size s := by
  induction as generalizing s with
  | nil => exact Nat.le_refl _
  | cons a as ih =>
      have later := @ih (fun b member => keeps b (List.mem_cons_of_mem a member))
        fun b member => shrinks b (List.mem_cons_of_mem a member)
      rw [sweep]
      cases changed : update a s with
      | none => exact later started
      | some s' =>
          have less := shrinks a List.mem_cons_self s s' started changed
          have rest := later (keeps a List.mem_cons_self s s' started changed)
          show size (sweep update as s').1 + 1 ≤ size s
          omega

/-- Sweeps end where every update uses up some of a measure. -/
theorem sweeps_end {I : σ → Prop} (size : σ → Nat) {as : List α}
    (keeps : ∀ a ∈ as, ∀ s s', I s → update a s = some s' → I s')
    (shrinks : ∀ a ∈ as, ∀ s s', I s → update a s = some s' → size s' < size s) {fuel : Nat} {s : σ}
    (started : I s) (enough : size s < fuel) : ∃ s', sweeps update fuel as s = some s' := by
  induction fuel generalizing s with
  | zero => cases enough
  | succ fuel ih =>
      have used := sweep_measure keeps shrinks started
      have kept := sweep_invariant keeps started
      rw [sweeps]
      generalize sweep update as s = swept at used kept
      obtain ⟨next, changed⟩ := swept
      cases changed with
      | true =>
          refine ih kept ?_
          have less : size next + 1 ≤ size s := used
          omega
      | false => exact ⟨next, rfl⟩

end Mimi.Lib
