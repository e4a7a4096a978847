/-
Module: Mimi.Lib.Inevitable
Purpose: States from which every run of a step relation ends in a goal: no run goes on forever, and none stops
  elsewhere.
Trusted boundary: none
-/
import Mathlib

namespace Mimi.Lib

open Relation (ReflTransGen)

/-- Every run from the state comes to a goal. -/
inductive Inevitable {S : Type} (step : S → S → Prop) (goal : S → Prop) : S → Prop where
  | here {s : S} : goal s → Inevitable step goal s
  | later {s : S} : (∃ t, step s t) → (∀ t, step s t → Inevitable step goal t) → Inevitable step goal s

namespace Inevitable

variable {S : Type} {step : S → S → Prop} {goal : S → Prop} {s : S}

/-- A state with one step, which leads to a state from which the goal is inevitable. -/
theorem only {t : S} (can : step s t) (one : ∀ u, step s u → u = t) (next : Inevitable step goal t) :
    Inevitable step goal s :=
  .later ⟨t, can⟩ fun u steps => (one u steps).symm ▸ next

/-- From a state with one step the goal is inevitable just if it is so behind the step. -/
theorem iff_of_only {t : S} (can : step s t) (one : ∀ u, step s u → u = t) (open_ : ¬goal s) :
    Inevitable step goal s ↔ Inevitable step goal t := by
  refine ⟨fun h => ?_, only can one⟩
  cases h with
  | here reached => exact absurd reached open_
  | later _ next => exact next t can

/-- A run that has not come to a goal can go on. -/
theorem goes_on (h : Inevitable step goal s) : goal s ∨ ∃ t, step s t := by
  cases h with
  | here reached => exact .inl reached
  | later can _ => exact .inr can

/-- Where no step leaves a goal, the goal stays inevitable along a run. -/
theorem always (final : ∀ s t, goal s → ¬step s t) (h : Inevitable step goal s) {t : S}
    (run : ReflTransGen step s t) : Inevitable step goal t := by
  induction run with
  | refl => exact h
  | tail _ one ih =>
      cases ih with
      | here reached => exact absurd one (final _ _ reached)
      | later _ next => exact next _ one

/-- Where no step leaves a goal, no run goes on forever. -/
theorem not_forever (final : ∀ s t, goal s → ¬step s t) (h : Inevitable step goal s) :
    ¬∃ run : Nat → S, run 0 = s ∧ ∀ n, step (run n) (run (n + 1)) := by
  induction h with
  | here reached =>
      rintro ⟨run, rfl, on⟩
      exact final _ _ reached (on 0)
  | later _ _ ih =>
      rintro ⟨run, rfl, on⟩
      exact ih (run 1) (on 0) ⟨fun n => run (n + 1), rfl, fun n => on (n + 1)⟩

/-- Where no run goes on forever and none stops outside of the goal, the goal is inevitable. -/
theorem of_finite (finite : ¬∃ run : Nat → S, run 0 = s ∧ ∀ n, step (run n) (run (n + 1)))
    (stops : ∀ t, ReflTransGen step s t → (∀ u, ¬step t u) → goal t) : Inevitable step goal s := by
  by_contra avoided
  -- a state from which the goal can be avoided has a step to another one
  have onward (t : {t // ReflTransGen step s t ∧ ¬Inevitable step goal t}) :
      ∃ u, step t.1 u ∧ ¬Inevitable step goal u := by
    obtain ⟨t, reached, avoided⟩ := t
    by_contra none_
    push Not at none_
    by_cases can : ∃ u, step t u
    · exact avoided (.later can none_)
    · exact avoided (.here (stops t reached (not_exists.mp can)))
  choose next steps avoids using onward
  let follow (t : {t // ReflTransGen step s t ∧ ¬Inevitable step goal t}) :
      {t // ReflTransGen step s t ∧ ¬Inevitable step goal t} := ⟨next t, t.2.1.tail (steps t), avoids t⟩
  refine finite ⟨fun n => (follow^[n] ⟨s, .refl, avoided⟩).1, rfl, fun n => ?_⟩
  dsimp only
  rw [Function.iterate_succ_apply']
  exact steps _

end Inevitable

end Mimi.Lib
