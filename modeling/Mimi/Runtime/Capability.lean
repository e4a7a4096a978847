/-
Module: Mimi.Runtime.Capability
Purpose: The capability tokens of runtime/capability.rs.  Every thread has a table of its own, and all
  threads share the registry of owners.  A thread is in one call at a time, and each locked section of
  a call is a step of its own, so that the calls of several threads interleave.
Trusted boundary: human-reviewed translation; the lossy reading of a name that is not UTF-8 comes with
  the name
-/
import Mimi.Lib.Machine

namespace Mimi.Runtime

open Mimi.Lib

abbrev ThreadId := Nat

/-- The name that a call brings: a null pointer, UTF-8 text, or other bytes with their lossy reading. -/
inductive CapName where
  | null
  | text (s : String)
  | malformed (lossy : String)
deriving DecidableEq, Repr

/-- The name as `mimi_cap_register` reads it. -/
def CapName.cstr_to_string : CapName → String
  | .null => ""
  | .text s => s
  | .malformed lossy => lossy

/-- The name as `mimi_cap_check` and `mimi_cap_consume` read it. -/
def CapName.to_str : CapName → String
  | .null => ""
  | .text s => s
  | .malformed _ => ""

/-- A null pointer stands for the empty name. -/
def CapName.own : CapName → CapName
  | .null => .text ""
  | name => name

/-- The names that `mimi_cap_register` reads like the other calls. -/
def CapName.readable : CapName → Bool
  | .malformed _ => false
  | _ => true

theorem CapName.own_of_readable {name : CapName} (readable : name.readable = true) :
    name.own = .text name.cstr_to_string ∧ name.own = .text name.to_str := by
  cases name with
  | malformed lossy => cases readable
  | _ => exact ⟨rfl, rfl⟩

structure CapEntry where
  id : Int64
  name : String
  consumed : Bool
deriving DecidableEq, Repr

structure CapTableData where
  next_id : Int64
  entries : List CapEntry
deriving DecidableEq, Repr

/-- `CAP_TABLE` of a thread that has not used it. -/
def CapTableData.new : CapTableData := ⟨1, []⟩

inductive CapCall where
  | register (name : CapName)
  | drop (cap : Int64)
  | check (cap : Int64) (name : CapName)
  | consume (cap : Int64) (name : CapName)
deriving DecidableEq, Repr

def CapCall.readable : CapCall → Bool
  | .register name | .check _ name | .consume _ name => name.readable
  | .drop _ => true

/-- A call with what it has still to do. -/
inductive CapPending where
  /-- The section that locks the table of the thread. -/
  | table (call : CapCall)
  /-- The entry is in the table, its owner not in the registry. -/
  | registerOwner (name : CapName) (id : Int64)
  /-- The entry is out of the table, its owner still in the registry. -/
  | dropOwner (cap : Int64)
  /-- The call has failed with this result, and looks for another owner to warn of. -/
  | warn (call : CapCall) (cap : Int64)
deriving DecidableEq, Repr

/-- What a call returns; a failed one also tells which other owner it has warned of. -/
inductive CapResult where
  | registered (id : Int64)
  | dropped
  | checked
  | consumed
  | failed (warned : Option ThreadId)
deriving DecidableEq, Repr

structure CapState where
  tables : ThreadId → CapTableData
  /-- `CAP_OWNERSHIP`. -/
  ownership : Int64 → Option (List ThreadId)
  calls : ThreadId → Option CapPending
  ended : ThreadId → Bool

def CapState.new : CapState := ⟨fun _ => .new, fun _ => none, fun _ => none, fun _ => false⟩

/-- The owners that the registry lists for an id. -/
def CapState.owners (s : CapState) (cap : Int64) : List ThreadId := (s.ownership cap).getD []

/-- A new entry under the next id, which wraps around. -/
def CapTableData.register (state : CapTableData) (name : String) : Int64 × CapTableData :=
  (state.next_id, ⟨state.next_id + 1, state.entries ++ [⟨state.next_id, name, false⟩]⟩)

def CapTableData.drop (state : CapTableData) (cap : Int64) : CapTableData :=
  { state with entries := state.entries.filter fun e => e.id ≠ cap }

def CapTableData.check (state : CapTableData) (cap : Int64) (name : String) : Bool :=
  state.entries.any fun e => e.id = cap && !e.consumed && e.name = name

/-- The first entry of the id that is not consumed decides; it is consumed under its name only. -/
def consumeFirst (cap : Int64) (name : String) : List CapEntry → Option (List CapEntry)
  | [] => none
  | e :: entries =>
      if e.id = cap && !e.consumed then
        if e.name = name then some ({ e with consumed := true } :: entries) else none
      else (consumeFirst cap name entries).map (e :: ·)

/-- One more record of a thread under an id. -/
def recordOwner (ownership : Int64 → Option (List ThreadId)) (cap : Int64) (here : ThreadId) :
    Int64 → Option (List ThreadId) :=
  Function.update ownership cap (some ((ownership cap).getD [] ++ [here]))

/-- The records of a thread under an id go, and the id with the last record. -/
def releaseOwner (ownership : Int64 → Option (List ThreadId)) (cap : Int64) (here : ThreadId) :
    Int64 → Option (List ThreadId) :=
  match ownership cap with
  | none => ownership
  | some owners =>
      let kept := owners.filter fun owner => owner ≠ here
      Function.update ownership cap (if kept.isEmpty then none else some kept)

/-- What a step lets its caller see: the call that has returned, with its result. -/
abbrev CapAnswer := Option (CapCall × CapResult)

/-- The next step of a call of a thread: what the caller sees, what the call has still to do, and the
table and the registry. -/
def capAdvance (here : ThreadId) (pending : CapPending) (s : CapState) :
    CapAnswer × Option CapPending × CapTableData × (Int64 → Option (List ThreadId)) :=
  match pending with
  | .table (.register name) =>
      let (id, table) := (s.tables here).register name.cstr_to_string
      (none, some (.registerOwner name id), table, s.ownership)
  | .registerOwner name id =>
      (some (.register name, .registered id), none, s.tables here, recordOwner s.ownership id here)
  | .table (.drop cap) =>
      let table := (s.tables here).drop cap
      if table.entries.length ≠ (s.tables here).entries.length then
        (none, some (.dropOwner cap), table, s.ownership)
      else (none, some (.warn (.drop cap) cap), table, s.ownership)
  | .dropOwner cap =>
      (some (.drop cap, .dropped), none, s.tables here, releaseOwner s.ownership cap here)
  | .table (.check cap name) =>
      if (s.tables here).check cap name.to_str then
        (some (.check cap name, .checked), none, s.tables here, s.ownership)
      else (none, some (.warn (.check cap name) cap), s.tables here, s.ownership)
  | .table (.consume cap name) =>
      match consumeFirst cap name.to_str (s.tables here).entries with
      | some entries =>
          (some (.consume cap name, .consumed), none, { s.tables here with entries := entries },
            s.ownership)
      | none => (none, some (.warn (.consume cap name) cap), s.tables here, s.ownership)
  | .warn call cap =>
      (some (call, .failed ((s.owners cap).find? fun owner => owner ≠ here)), none, s.tables here,
        s.ownership)

inductive CapOp where
  /-- A thread makes a call. -/
  | enter (thread : ThreadId) (call : CapCall)
  /-- A thread takes the next step of its call. -/
  | advance (thread : ThreadId)
  /-- A thread ends, and its table with it. -/
  | finish (thread : ThreadId)
deriving DecidableEq, Repr

def capStep (op : CapOp) (s : CapState) : Option (CapAnswer × CapState) :=
  match op with
  | .enter thread call =>
      if (s.calls thread).isNone && !s.ended thread then
        some (none, { s with calls := Function.update s.calls thread (some (.table call)) })
      else none
  | .advance thread => do
      let pending ← s.calls thread
      let (answer, next, table, ownership) := capAdvance thread pending s
      return (answer, ⟨Function.update s.tables thread table, ownership,
        Function.update s.calls thread next, s.ended⟩)
  | .finish thread =>
      if (s.calls thread).isNone then
        some (none, { s with
          tables := Function.update s.tables thread { s.tables thread with entries := [] }
          ended := Function.update s.ended thread true })
      else none

def CapMachine : Machine CapState CapOp CapAnswer := ⟨.new, capStep⟩

end Mimi.Runtime
