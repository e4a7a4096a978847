/-
Module: Mimi.Runtime.Handle
Purpose: The Map and Set handle tables of runtime/handle.rs: generations, operation leases, lifetime
  pins, two-phase destruction and the compaction of an empty Map table, as machines that take one
  step for each section under the table lock.
Trusted boundary: none
-/
import Mimi.Lib.Machine
import Mimi.Lib.PackedWord

namespace Mimi.Runtime

open Mimi.Lib

/-- `u32::MAX`, the last generation. -/
def lastGeneration : Nat := 4294967295

/-- `i64::MAX`. -/
def i64Max : Nat := 9223372036854775807

inductive HandleError where
  | invalid
  | staleGeneration
  | destroyed
  | reentrant
deriving Repr, DecidableEq

/-- Which of the two tables: the one of Maps compacts itself and keeps a generation floor. -/
inductive ContainerKind where
  | map
  | set
deriving Repr, DecidableEq

/-- A slot holds the object of type `T` that its handle was made for.  `leases` and `pins` are `i64`
that never go below 0, `active_owner` is a thread identity. -/
structure Slot (T : Type) where
  generation : Nat
  leases : Nat
  active_owner : Option Nat
  pins : Nat
  retired : Bool
  pending_free : Bool
  obj : Option T
deriving Repr, DecidableEq

/-- `free` is a stack: its head is the last element of the source's vector. -/
structure Table (T : Type) where
  slots : List (Slot T)
  free : List Nat
  generation_floor : Nat
  generation_exhausted : Bool
deriving Repr, DecidableEq

variable {T : Type}

/-- The slot at the reserved index 0. -/
def reservedSlot : Slot T := ⟨0, 0, none, 0, true, false, none⟩

def Table.new : Table T := ⟨[reservedSlot], [], 1, false⟩

/-- Write a slot through the reference that was looked up at the index. -/
def Table.setSlot (t : Table T) (index : Nat) (slot : Slot T) : Table T :=
  { t with slots := t.slots.set index slot }

def packHandle (index gen : Nat) : BitVec 64 :=
  packWord (BitVec.ofNat 32 index) (BitVec.ofNat 32 gen)

def unpackHandle (handle : BitVec 64) : Except HandleError (Nat × Nat) :=
  if handle = 0 then .error .invalid
  else
    let index := lowWord handle
    let gen := highWord handle
    if index = 0 then .error .invalid else .ok (index.toNat, gen.toNat)

def checked_slot_index (slot_count : Nat) : Option Nat :=
  if slot_count ≤ lastGeneration ∧ slot_count ≠ 0 then some slot_count else none

/-- Put an object into a free slot or a new one and mint its handle; 0 when no index is left.
Indexing outside the slots panics. -/
def alloc_slot (t : Table T) (obj : T) : Option (BitVec 64 × Table T) :=
  let gen := t.generation_floor
  let t := if t.slots.isEmpty then { t with slots := [reservedSlot] } else t
  match t.free with
  | idx :: free =>
      match t.slots[idx]? with
      | none => none
      | some slot =>
          let g := max slot.generation gen
          some (packHandle idx g,
            { t with free := free }.setSlot idx ⟨g, 0, none, 0, false, false, some obj⟩)
  | [] =>
      match checked_slot_index t.slots.length with
      | none => some (0, t)
      | some idx =>
          some (packHandle idx gen,
            { t with slots := t.slots ++ [⟨gen, 0, none, 0, false, false, some obj⟩] })

/-- The slot a handle names: its index is in the table and its generation is the current one. -/
def slotOf (t : Table T) (handle : BitVec 64) : Except HandleError (Nat × Slot T) := do
  let (index, gen) ← unpackHandle handle
  match t.slots[index]? with
  | none => .error .invalid
  | some slot => if slot.generation ≠ gen then .error .staleGeneration else .ok (index, slot)

/-- What an attempt at the operation lease comes to. -/
inductive Attempt (T : Type) where
  | leased (obj : T)
  | waiting
  | failed (e : HandleError)
deriving Repr, DecidableEq

/-- One round of `map_acquire` and `set_acquire`.  A thread that has to wait for another one gives
the lock back and tries again when it is woken. -/
def acquire (current : Nat) (handle : BitVec 64) (t : Table T) : Attempt T × Table T :=
  match slotOf t handle with
  | .error e => (.failed e, t)
  | .ok (index, slot) =>
      if slot.retired then (.failed .destroyed, t)
      else
        match slot.obj with
        | none => (.failed .destroyed, t)
        | some obj =>
            match slot.active_owner with
            | some owner => (if owner = current then .failed .reentrant else .waiting, t)
            | none =>
                (.leased obj, t.setSlot index { slot with active_owner := some current, leases := 1 })

/-- Slots from index 1 on are unoccupied and reusable. -/
def tableIsEmpty (t : Table T) : Bool :=
  (t.slots.drop 1).all fun slot => slot.obj.isNone && !slot.retired

def compact_empty_map_table (t : Table T) : Table T :=
  if t.generation_exhausted || !tableIsEmpty t then t
  else { t with slots := [], free := [] }

/-- Take the object out of the slot and end its generation; a slot of the last generation is never
used again.  Indexing outside the slots panics. -/
def finish_map_free (t : Table T) (index : Nat) : Option (Option T × Table T) :=
  match t.slots[index]? with
  | none => none
  | some slot =>
      if slot.generation + 1 ≤ lastGeneration then
        let next := slot.generation + 1
        let t := { t with generation_floor := max t.generation_floor next }
        let t := t.setSlot index ⟨next, 0, none, 0, false, false, none⟩
        some (slot.obj, compact_empty_map_table { t with free := index :: t.free })
      else
        let t := { t with generation_exhausted := true }
        let t := t.setSlot index ⟨slot.generation, 0, none, 0, true, false, none⟩
        some (slot.obj, compact_empty_map_table t)

/-- As for a Map, without a floor and without compaction. -/
def finish_set_free (t : Table T) (index : Nat) : Option (Option T × Table T) :=
  match t.slots[index]? with
  | none => none
  | some slot =>
      if slot.generation + 1 ≤ lastGeneration then
        let t := t.setSlot index ⟨slot.generation + 1, 0, none, 0, false, false, none⟩
        some (slot.obj, { t with free := index :: t.free })
      else some (slot.obj, t.setSlot index ⟨slot.generation, 0, none, 0, true, false, none⟩)

def finish_free : ContainerKind → Table T → Nat → Option (Option T × Table T)
  | .map => finish_map_free
  | .set => finish_set_free

/-- What an operation answers: the number it returns, and the object it freed. -/
inductive Answer (T : Type) where
  | ok (value : Nat) (freed : Option T)
  | failed (e : HandleError)
deriving Repr, DecidableEq

/-- Free the slot if nothing holds it any more, and answer. -/
def freeIf (kind : ContainerKind) (should_free : Bool) (value : Nat) (t : Table T) (index : Nat) :
    Option (Answer T × Table T) :=
  if should_free then (finish_free kind t index).map fun (freed, t) => (.ok value freed, t)
  else some (.ok value none, t)

/-- `map_release` and `set_release`, the drop of a lease. -/
def release (kind : ContainerKind) (current : Nat) (handle : BitVec 64) (t : Table T) :
    Option (Answer T × Table T) :=
  match slotOf t handle with
  | .error e => some (.failed e, t)
  | .ok (index, slot) =>
      if slot.active_owner ≠ some current ∨ slot.leases ≠ 1 then some (.failed .invalid, t)
      else
        let remaining := slot.pins
        freeIf kind (remaining == 0 && slot.pending_free) remaining
          (t.setSlot index { slot with active_owner := none, leases := 0 }) index

/-- `map_pin` and `set_pin`. -/
def pin (handle : BitVec 64) (t : Table T) : Answer T × Table T :=
  match slotOf t handle with
  | .error e => (.failed e, t)
  | .ok (index, slot) =>
      if slot.retired || slot.obj.isNone then (.failed .destroyed, t)
      else if slot.pins + 1 ≤ i64Max then
        (.ok (min (slot.leases + (slot.pins + 1)) i64Max) none,
          t.setSlot index { slot with pins := slot.pins + 1 })
      else (.failed .invalid, t)

/-- `map_unpin` and `set_unpin`. -/
def unpin (kind : ContainerKind) (handle : BitVec 64) (t : Table T) :
    Option (Answer T × Table T) :=
  match slotOf t handle with
  | .error e => some (.failed e, t)
  | .ok (index, slot) =>
      if slot.pins = 0 then some (.failed .invalid, t)
      else
        let remaining := min (slot.pins - 1 + slot.leases) i64Max
        freeIf kind (remaining == 0 && slot.pending_free) remaining
          (t.setSlot index { slot with pins := slot.pins - 1 }) index

/-- `map_begin_destroy` and `set_begin_destroy`: stop new leases and pins. -/
def begin_destroy (handle : BitVec 64) (t : Table T) : Answer T × Table T :=
  match slotOf t handle with
  | .error e => (.failed e, t)
  | .ok (index, slot) =>
      if slot.obj.isNone then (.failed .destroyed, t)
      else (.ok 0 none, t.setSlot index { slot with retired := true })

/-- `map_finish_destroy` and `set_finish_destroy`: free now, or leave it to the last holder. -/
def finish_destroy (kind : ContainerKind) (handle : BitVec 64) (t : Table T) :
    Option (Answer T × Table T) :=
  match slotOf t handle with
  | .error e => some (.failed e, t)
  | .ok (index, slot) =>
      if slot.obj.isNone then some (.ok 0 none, t)
      else if slot.leases = 0 ∧ slot.pins = 0 then
        freeIf kind true 0 (t.setSlot index { slot with retired := true }) index
      else some (.ok 0 none, t.setSlot index { slot with retired := true, pending_free := true })

/-- `map_destroy` and `set_destroy`: both phases, the second one's error dropped. -/
def destroy (kind : ContainerKind) (handle : BitVec 64) (t : Table T) :
    Option (Answer T × Table T) :=
  if handle = 0 then some (.ok 0 none, t)
  else
    match begin_destroy handle t with
    | (.ok _ _, t) =>
        match finish_destroy kind handle t with
        | some (.failed _, t) => some (.ok 0 none, t)
        | other => other
    | (.failed .staleGeneration, t) => some (.ok 0 none, t)
    | (.failed .destroyed, t) => some (.ok 0 none, t)
    | (.failed e, t) => some (.failed e, t)

/-- `map_generation` and `set_generation`. -/
def generation (handle : BitVec 64) (t : Table T) : Answer T :=
  match slotOf t handle with
  | .error e => .failed e
  | .ok (_, slot) => if slot.obj.isNone then .failed .destroyed else .ok slot.generation none

/-- `map_lease_count` and `set_lease_count`. -/
def lease_count (handle : BitVec 64) (t : Table T) : Answer T :=
  match slotOf t handle with
  | .error e => .failed e
  | .ok (_, slot) => .ok (min (slot.leases + slot.pins) i64Max) none

/-- The slot a MapRoot operation works on, under the table lock and without a lease. -/
def mapRootSlot (handle : BitVec 64) (t : Table T) : Except HandleError (Nat × Slot T × T) := do
  let (index, slot) ← slotOf t handle
  if slot.retired then .error .destroyed
  else
    match slot.obj with
    | none => .error .destroyed
    | some obj =>
        if slot.leases ≠ 0 ∨ slot.pins ≠ 0 ∨ slot.active_owner.isSome then .error .reentrant
        else .ok (index, slot, obj)

/-- `map_root_drop`. -/
def map_root_drop (handle : BitVec 64) (t : Table T) : Option (Answer T × Table T) :=
  match mapRootSlot handle t with
  | .error e => some (.failed e, t)
  | .ok (index, _, _) => freeIf .map true 0 t index

/-- The sections under a table's lock.  `map_root` stands for the operations that `map_root_set`,
`map_root_set_owned_any_string`, `map_root_remove`, `map_root_contains` and `map_root_size` do on the
Map of a handle. -/
inductive TableOp (T : Type) where
  | create (obj : T)
  | acquire (current : Nat) (handle : BitVec 64)
  | release (current : Nat) (handle : BitVec 64)
  | pin (handle : BitVec 64)
  | unpin (handle : BitVec 64)
  | begin_destroy (handle : BitVec 64)
  | finish_destroy (handle : BitVec 64)
  | destroy (handle : BitVec 64)
  | generation (handle : BitVec 64)
  | lease_count (handle : BitVec 64)
  | map_root (handle : BitVec 64)
  | map_root_drop (handle : BitVec 64)
deriving Repr, DecidableEq

/-- The handle an operation is asked on. -/
def TableOp.handle : TableOp T → Option (BitVec 64)
  | .create _ => none
  | .acquire _ handle => some handle
  | .release _ handle => some handle
  | .pin handle => some handle
  | .unpin handle => some handle
  | .begin_destroy handle => some handle
  | .finish_destroy handle => some handle
  | .destroy handle => some handle
  | .generation handle => some handle
  | .lease_count handle => some handle
  | .map_root handle => some handle
  | .map_root_drop handle => some handle

/-- What a section answers. -/
inductive TableAnswer (T : Type) where
  | minted (handle : BitVec 64)
  | attempt (outcome : Attempt T)
  | accessed (obj : T)
  | answer (a : Answer T)
deriving Repr, DecidableEq

/-- One section under the lock.  The MapRoot operations are there for Maps only. -/
def HandleTable.step (kind : ContainerKind) (op : TableOp T) (t : Table T) :
    Option (TableAnswer T × Table T) :=
  match op with
  | .create obj => (alloc_slot t obj).map (Prod.map .minted id)
  | .acquire current handle => some (Prod.map .attempt id (acquire current handle t))
  | .release current handle => (release kind current handle t).map (Prod.map .answer id)
  | .pin handle => some (Prod.map .answer id (pin handle t))
  | .unpin handle => (unpin kind handle t).map (Prod.map .answer id)
  | .begin_destroy handle => some (Prod.map .answer id (begin_destroy handle t))
  | .finish_destroy handle => (finish_destroy kind handle t).map (Prod.map .answer id)
  | .destroy handle => (destroy kind handle t).map (Prod.map .answer id)
  | .generation handle => some (.answer (generation handle t), t)
  | .lease_count handle => some (.answer (lease_count handle t), t)
  | .map_root handle =>
      match kind, mapRootSlot handle t with
      | .set, _ => none
      | .map, .error e => some (.answer (.failed e), t)
      | .map, .ok (_, _, obj) => some (.accessed obj, t)
  | .map_root_drop handle =>
      match kind with
      | .set => none
      | .map => (map_root_drop handle t).map (Prod.map .answer id)

/-- The table of one kind of container. -/
def HandleTable (kind : ContainerKind) (T : Type) :
    Machine (Table T) (TableOp T) (TableAnswer T) where
  init := .new
  step := HandleTable.step kind

end Mimi.Runtime
