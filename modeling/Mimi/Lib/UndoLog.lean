/-
Module: Mimi.Lib.UndoLog
Purpose: A store with a log of undo entries, most recent first, and the rollback to a checkpoint.
Trusted boundary: none
-/
import Mathlib

namespace Mimi.Lib.UndoLog

variable {σ ε : Type}

/-- Pop and undo entries while the log is longer than the checkpoint. -/
def rollback (undo : ε → σ → σ) (checkpoint : Nat) : List ε → σ → List ε × σ
  | [], s => ([], s)
  | entry :: rest, s =>
      if checkpoint < (entry :: rest).length then rollback undo checkpoint rest (undo entry s)
      else (entry :: rest, s)

/-- The second log and store are ahead of the first, and undoing what was logged since leads back
to the first store. -/
def Extends (undo : ε → σ → σ) (old new : List ε × σ) : Prop :=
  ∃ entries, new.1 = entries ++ old.1 ∧
    entries.foldl (fun s entry => undo entry s) new.2 = old.2

variable {undo : ε → σ → σ}

theorem Extends.refl (l : List ε × σ) : Extends undo l l := ⟨[], rfl, rfl⟩

theorem Extends.trans {l₁ l₂ l₃ : List ε × σ} (h₁ : Extends undo l₁ l₂) (h₂ : Extends undo l₂ l₃) :
    Extends undo l₁ l₃ := by
  obtain ⟨first, log₁, store₁⟩ := h₁
  obtain ⟨second, log₂, store₂⟩ := h₂
  refine ⟨second ++ first, by rw [log₂, log₁, List.append_assoc], ?_⟩
  rw [List.foldl_append, store₂, store₁]

/-- A change of the store logged with an entry that takes it back. -/
theorem Extends.record {log : List ε} {s s' : σ} {entry : ε} (takesBack : undo entry s' = s) :
    Extends undo (log, s) (entry :: log, s') :=
  ⟨[entry], rfl, takesBack⟩

theorem rollback_append (entries log : List ε) (s : σ) :
    rollback undo log.length (entries ++ log) s
      = (log, entries.foldl (fun s entry => undo entry s) s) := by
  induction entries generalizing s with
  | nil => cases log <;> simp [rollback]
  | cons entry entries ih =>
      have longer : log.length < (entry :: (entries ++ log)).length := by
        simp only [List.length_cons, List.length_append]
        omega
      simp only [List.cons_append, rollback, if_pos longer, ih, List.foldl_cons]

/-- Rolling back to the length of an earlier log restores that log and its store. -/
theorem rollback_of_extends {old new : List ε × σ} (h : Extends undo old new) :
    rollback undo old.1.length new.1 new.2 = old := by
  obtain ⟨entries, log, store⟩ := h
  rw [log, rollback_append, store]

end Mimi.Lib.UndoLog
