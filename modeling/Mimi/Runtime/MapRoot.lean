/-
Module: Mimi.Runtime.MapRoot
Purpose: The entries of a Map root and the payloads it owns, with the operations of runtime/handle.rs
  that set, set with an owner, and remove.  Each of them works on the slot that its handle names, under
  one lock of the table.
Trusted boundary: human-reviewed translation; a payload is known by its value handle, since every owner
  is a tagged Any string of the handle it is stored under
-/
import Mimi.Runtime.Handle

namespace Mimi.Runtime

open Mimi.Lib

abbrev ValueHandle := BitVec 64

structure MimiMap where
  inner : AList fun _ : String => ValueHandle
  /-- The values with an owner. -/
  owned : Finset ValueHandle
deriving DecidableEq

def MimiMap.new : MimiMap := ⟨∅, ∅⟩

/-- `map_root_set` on the map of a slot: the owner of a value that is written over stays. -/
def MimiMap.set (map : MimiMap) (key : String) (value : ValueHandle) : MimiMap :=
  { map with inner := map.inner.insert key value }

/-- `map_root_set_owned_any_string` on the map of a slot, with the value whose owner it detaches. -/
def MimiMap.set_owned_any_string (map : MimiMap) (key : String) (value : ValueHandle) :
    Except HandleError (Option ValueHandle × MimiMap) :=
  if value ∈ map.owned then .error .invalid
  else
    let owned := insert value map.owned
    let inner := map.inner.insert key value
    match map.inner.lookup key with
    | none => .ok (none, ⟨inner, owned⟩)
    | some old_value =>
        if old_value ≠ value ∧ old_value ∈ owned then
          .ok (some old_value, ⟨inner, owned.erase old_value⟩)
        else .ok (none, ⟨inner, owned⟩)

/-- `map_root_remove` on the map of a slot, with the value whose owner it detaches. -/
def MimiMap.remove (map : MimiMap) (key : String) : Option ValueHandle × MimiMap :=
  match map.inner.lookup key with
  | none => (none, map)
  | some removed_value =>
      let inner := map.inner.erase key
      if inner.entries.any fun entry => entry.2 = removed_value then (none, ⟨inner, map.owned⟩)
      else if removed_value ∈ map.owned then
        (some removed_value, ⟨inner, map.owned.erase removed_value⟩)
      else (none, ⟨inner, map.owned⟩)

inductive MapAct where
  | set (key : String) (value : ValueHandle)
  | setOwned (key : String) (value : ValueHandle)
  | remove (key : String)
deriving DecidableEq

/-- What an operation makes of the map, and the payload it releases. -/
def MimiMap.apply (map : MimiMap) : MapAct → Except HandleError (Option ValueHandle × MimiMap)
  | .set key value => .ok (none, map.set key value)
  | .setOwned key value => map.set_owned_any_string key value
  | .remove key => .ok (map.remove key)

/-- The slot of a root: live, and neither leased nor pinned. -/
def validate_map_root_slot (t : Table MimiMap) (handle : BitVec 64) :
    Except HandleError (Nat × Slot MimiMap) := do
  let named ← slotOf t handle
  if named.2.retired || named.2.obj.isNone then .error .destroyed
  else if named.2.leases ≠ 0 || named.2.pins ≠ 0 || named.2.active_owner.isSome then
    .error .reentrant
  else .ok named

/-- One of the three operations on the root that a handle names. -/
def mapRootAct (handle : BitVec 64) (act : MapAct) (t : Table MimiMap) :
    Except HandleError (Option ValueHandle × Table MimiMap) := do
  let (index, slot) ← validate_map_root_slot t handle
  match slot.obj with
  | none => .error .destroyed
  | some map =>
      let (released, map) ← map.apply act
      return (released, t.setSlot index { slot with obj := some map })

def map_root_set (handle : BitVec 64) (key : String) (value : ValueHandle) (t : Table MimiMap) :=
  mapRootAct handle (.set key value) t

def map_root_set_owned_any_string (handle : BitVec 64) (key : String) (value : ValueHandle)
    (t : Table MimiMap) :=
  mapRootAct handle (.setOwned key value) t

def map_root_remove (handle : BitVec 64) (key : String) (t : Table MimiMap) :=
  mapRootAct handle (.remove key) t

structure RootOp where
  handle : BitVec 64
  act : MapAct
deriving DecidableEq

def RootOp.run (op : RootOp) (t : Table MimiMap) :
    Except HandleError (Option ValueHandle × Table MimiMap) :=
  match op.act with
  | .set key value => map_root_set op.handle key value t
  | .setOwned key value => map_root_set_owned_any_string op.handle key value t
  | .remove key => map_root_remove op.handle key t

abbrev RootAnswer := Except HandleError (Option ValueHandle)

/-- An operation that fails leaves the table as it was. -/
def rootStep (op : RootOp) (t : Table MimiMap) : Option (RootAnswer × Table MimiMap) :=
  match op.run t with
  | .error e => some (.error e, t)
  | .ok (released, t') => some (.ok released, t')

/-- The operations on roots, from a table. -/
def RootMachine (t : Table MimiMap) : Machine (Table MimiMap) RootOp RootAnswer := ⟨t, rootStep⟩

end Mimi.Runtime
