/-
Module: Mimi.Lib.Machine
Purpose: Machines that answer one operation after another, their runs with the trace of operations
  and answers, and the invariant rule for runs whose operations are allowed where they happen.
Trusted boundary: none
-/
import Mathlib

namespace Mimi.Lib

/-- A machine over states `S` that answers operations of `O` by `R`.  An operation that stops the
program has no answer and no next state. -/
structure Machine (S O R : Type) where
  init : S
  step : O → S → Option (R × S)

namespace Machine

variable {S O R : Type}

/-- The runs of a machine.  The trace holds what was asked and answered, most recent first;
`allowed` says which operations may be asked in which state. -/
inductive Runs (m : Machine S O R) (allowed : O → S → Prop) : List (O × R) → S → Prop where
  | init : Runs m allowed [] m.init
  | step {trace : List (O × R)} {s s' : S} {op : O} {answer : R} (run : Runs m allowed trace s)
      (may : allowed op s) (steps : m.step op s = some (answer, s')) :
      Runs m allowed ((op, answer) :: trace) s'

variable {m : Machine S O R} {allowed : O → S → Prop}

variable {trace : List (O × R)}

/-- What holds at the start and is kept by every allowed step holds after every run. -/
theorem Runs.invariant {I : List (O × R) → S → Prop} (start : I [] m.init)
    (keep : ∀ {trace s op answer s'}, I trace s → allowed op s → m.step op s = some (answer, s') →
      I ((op, answer) :: trace) s') {s : S} (run : Runs m allowed trace s) : I trace s := by
  induction run with
  | init => exact start
  | step _ may steps ih => exact keep ih may steps

/-- A run stays a run when more is allowed. -/
theorem Runs.weaken {allowed' : O → S → Prop} (more : ∀ op s, allowed op s → allowed' op s)
    {s : S} (run : Runs m allowed trace s) : Runs m allowed' trace s := by
  induction run with
  | init => exact .init
  | step _ may steps ih => exact .step ih (more _ _ may) steps

/-- A run whose operations are all of one kind is a run in which no other is allowed. -/
theorem Runs.restrict {kind : O → Prop} {s : S} (run : Runs m allowed trace s) (all : ∀ entry ∈ trace, kind entry.1) :
    Runs m (fun op _ => kind op) trace s := by
  induction run with
  | init => exact .init
  | step _ _ steps ih =>
      exact .step (ih fun entry member => all entry (List.mem_cons_of_mem _ member))
        (all _ List.mem_cons_self) steps

/-- One more operation. -/
theorem Runs.next {s s' : S} (run : Runs m allowed trace s) (op : O)
    (may : allowed op s) {answer : R} (steps : m.step op s = some (answer, s')) :
    Runs m allowed ((op, answer) :: trace) s' := run.step may steps

/-- Ask operations one after another, from a state with a trace. -/
def play (m : Machine S O R) : List O → List (O × R) → S → Option (List (O × R) × S)
  | [], trace, s => some (trace, s)
  | op :: ops, trace, s => do
      let next ← m.step op s
      play m ops ((op, next.1) :: trace) next.2

theorem Runs.play {trace trace' : List (O × R)} {s s' : S} {ops : List O}
    (run : Runs m (fun _ _ => True) trace s) (played : m.play ops trace s = some (trace', s')) :
    Runs m (fun _ _ => True) trace' s' := by
  induction ops generalizing trace s with
  | nil =>
      obtain ⟨rfl, rfl⟩ := Prod.mk.inj (Option.some.inj played)
      exact run
  | cons op ops ih =>
      rw [Machine.play, Option.bind_eq_bind, Option.bind_eq_some_iff] at played
      obtain ⟨⟨answer, s₁⟩, steps, played⟩ := played
      exact ih (run.step trivial steps) played

/-- The machine that answers what a check lets through. -/
def guarded (m : Machine S O R) (check : O → S → Bool) : Machine S O R :=
  ⟨m.init, fun op s => if check op s then m.step op s else none⟩

/-- A check that lets only allowed operations through finds runs. -/
theorem Runs.guarded {check : O → S → Bool} (sound : ∀ op s, check op s = true → allowed op s)
    {trace' : List (O × R)} {s s' : S} {ops : List O} (run : Runs m allowed trace s)
    (played : (m.guarded check).play ops trace s = some (trace', s')) : Runs m allowed trace' s' := by
  induction ops generalizing trace s with
  | nil =>
      obtain ⟨rfl, rfl⟩ := Prod.mk.inj (Option.some.inj played)
      exact run
  | cons op ops ih =>
      rw [Machine.play, Option.bind_eq_bind, Option.bind_eq_some_iff] at played
      obtain ⟨⟨answer, s₁⟩, steps, played⟩ := played
      rw [Machine.guarded] at steps
      dsimp only at steps
      split_ifs at steps with checked
      exact ih (run.step (sound op s checked) steps) played

end Machine

end Mimi.Lib
