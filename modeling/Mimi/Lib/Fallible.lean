/-
Module: Mimi.Lib.Fallible
Purpose: Computations that stop at the first error: when a sequence, a check or a loop of checks
  succeeds.
Trusted boundary: none
-/
import Mathlib

namespace Mimi.Lib

theorem pure_eq_ok {ε β : Type} {a b : β} : (pure a : Except ε β) = .ok b ↔ a = b :=
  ⟨fun h => Except.ok.inj h, fun h => congrArg Except.ok h⟩

/-- Stop with an error when something is wrong. -/
def reject {ε : Type} (wrong : Bool) (error : ε) : Except ε Unit :=
  if wrong then .error error else .ok ()

theorem reject_eq_ok {ε : Type} {wrong : Bool} {error : ε} :
    reject wrong error = .ok () ↔ wrong = false := by
  cases wrong with
  | false => exact ⟨fun _ => rfl, fun _ => rfl⟩
  | true => exact ⟨fun impossible => (by cases impossible), fun impossible => (by cases impossible)⟩

/-- A value that must be there. -/
def orError {ε α : Type} (value : Option α) (error : ε) : Except ε α :=
  match value with
  | some a => .ok a
  | none => .error error

theorem orError_eq_ok {ε α : Type} {value : Option α} {error : ε} {a : α} :
    orError value error = .ok a ↔ value = some a := by
  cases value with
  | none => exact ⟨fun impossible => (by cases impossible), fun impossible => (by cases impossible)⟩
  | some b => exact ⟨fun h => congrArg some (Except.ok.inj h), fun h => congrArg Except.ok (Option.some.inj h)⟩

theorem bind_eq_ok {ε α β : Type} {first : Except ε α} {next : α → Except ε β} {b : β} :
    (first >>= next) = .ok b ↔ ∃ a, first = .ok a ∧ next a = .ok b := by
  cases first with
  | error e =>
      refine ⟨fun impossible => (by cases impossible), fun steps => ?_⟩
      obtain ⟨a, impossible, -⟩ := steps
      cases impossible
  | ok a =>
      refine ⟨fun last => ⟨a, rfl, last⟩, fun steps => ?_⟩
      obtain ⟨a', same, last⟩ := steps
      obtain rfl := Except.ok.inj same
      exact last

/-- A result under another form of the error. -/
theorem mapError_eq_ok {ε ε' α : Type} {result : Except ε α} {f : ε → ε'} {a : α}
    (h : result.mapError f = .ok a) : result = .ok a := by
  cases result with
  | error => cases h
  | ok => exact congrArg Except.ok (Except.ok.inj h)

variable {ε α β γ δ ζ : Type}

variable {first : Except ε α}

/-- A result that is put together from one step. -/
theorem step_eq_ok {result : α → δ} {d : δ} :
    (first >>= fun a => pure (result a)) = .ok d ↔ ∃ a, first = .ok a ∧ result a = d := by
  simp only [bind_eq_ok, pure_eq_ok]

variable {second : α → Except ε β}

/-- A result that is put together from two steps. -/
theorem step₂_eq_ok {result : α → β → δ} {d : δ} :
    (first >>= fun a => second a >>= fun b => pure (result a b)) = .ok d ↔
      ∃ a, first = .ok a ∧ ∃ b, second a = .ok b ∧ result a b = d := by
  simp only [bind_eq_ok, pure_eq_ok]

/-- A result that is put together from three steps. -/
theorem step₃_eq_ok {third : α → β → Except ε γ} {result : α → β → γ → δ} {d : δ} :
    (first >>= fun a => second a >>= fun b => third a b >>= fun c => pure (result a b c)) = .ok d ↔
      ∃ a, first = .ok a ∧ ∃ b, second a = .ok b ∧ ∃ c, third a b = .ok c ∧ result a b c = d := by
  simp only [bind_eq_ok, pure_eq_ok]

/-- A result that is put together from four steps. -/
theorem step₄_eq_ok {third : α → β → Except ε γ}
    {fourth : α → β → γ → Except ε ζ} {result : α → β → γ → ζ → δ} {d : δ} :
    (first >>= fun a => second a >>= fun b => third a b >>= fun c => fourth a b c >>= fun z =>
      pure (result a b c z)) = .ok d ↔
      ∃ a, first = .ok a ∧ ∃ b, second a = .ok b ∧ ∃ c, third a b = .ok c ∧
        ∃ z, fourth a b c = .ok z ∧ result a b c z = d := by
  simp only [bind_eq_ok, pure_eq_ok]

/-- A check comes before the rest. -/
theorem check_eq_ok {ε β : Type} {check : Except ε Unit} {next : Except ε β} {b : β} :
    (check >>= fun _ => next) = .ok b ↔ check = .ok () ∧ next = .ok b := by
  rw [bind_eq_ok]
  refine ⟨fun steps => ?_, fun both => ⟨(), both⟩⟩
  obtain ⟨u, passed, last⟩ := steps
  exact ⟨passed, last⟩

/-- A loop of checks passes when each of them does. -/
theorem forM_eq_ok {ε α : Type} {check : α → Except ε Unit} {values : List α} :
    values.forM check = .ok () ↔ ∀ value ∈ values, check value = .ok () := by
  induction values with
  | nil => exact ⟨fun _ value member => (List.not_mem_nil member).elim, fun _ => rfl⟩
  | cons value values ih =>
      rw [List.forM, List.forall_mem_cons, ← ih]
      cases check value with
      | error e => exact ⟨fun impossible => (by cases impossible), fun both => (by cases both.1)⟩
      | ok u => exact ⟨fun rest => ⟨rfl, rest⟩, fun both => both.2⟩

end Mimi.Lib
