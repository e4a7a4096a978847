/-
Module: Mimi.Component.Handle
Purpose: The registry of generational handles that component/handle.rs keeps behind one lock:
  slots, free list and the operations on handles, and the registry as a machine.
Trusted boundary: none
-/
import Mimi.Component.Wire
import Mimi.Lib.Machine

namespace Mimi.Component

open Mimi.Lib

/-- The resource family a handle names. -/
inductive HandleKind where
  | list
  | map
  | set
  | buffer
  | task
  | subscription
  | foreign
deriving Repr, DecidableEq

/-- The runtime that owns the slot behind a handle. -/
inductive RuntimeId where
  | interp
  | native
deriving Repr, DecidableEq

/-- A nominal generational handle; `index` and `generation` are `u32`. -/
structure Handle where
  kind : HandleKind
  runtime : RuntimeId
  index : Nat
  generation : Nat
deriving Repr, DecidableEq

/-- Reasons a handle operation can fail.  A lock is poisoned only by a panic of its holder, which
`HandleRegistry` has as a step without an answer. -/
inductive HandleError where
  | unknownSlot
  | staleGeneration (expected got : Nat)
  | wrongKind (expected got : HandleKind)
  | wrongRuntime (expected got : RuntimeId)
  | leasesOutstanding (leases : Nat)
  | noLease
  | registryFull
  | leaseOverflow
  | generationWrap
deriving Repr, DecidableEq

/-- A registry slot; when it is free, `generation` is the one its next occupant is minted with. -/
structure Slot where
  kind : Option HandleKind
  runtime : RuntimeId
  generation : Nat
  leases : Nat
deriving Repr, DecidableEq

/-- `free` is a stack: its head is the last element of the source's vector. -/
structure RegistryInner where
  slots : List Slot
  free : List Nat
deriving Repr, DecidableEq

namespace RegistryInner

def new : RegistryInner := ⟨[], []⟩

/-- Write a slot through the reference that was looked up at the index. -/
def setSlot (inner : RegistryInner) (index : Nat) (slot : Slot) : RegistryInner :=
  { inner with slots := inner.slots.set index slot }

end RegistryInner

/-- Take a slot for a resource of the kind and mint its handle, with one lease.  The free list
indexes the slots, which panics outside them. -/
def acquire (runtime : RuntimeId) (kind : HandleKind) (inner : RegistryInner) :
    Option (Except HandleError Handle × RegistryInner) :=
  match inner.free with
  | index :: free =>
      match inner.slots[index]? with
      | none => none
      | some slot =>
          let slot := { slot with kind := some kind, runtime := runtime, leases := 1 }
          some (.ok ⟨kind, runtime, index, slot.generation⟩,
            { inner with free := free }.setSlot index slot)
  | [] =>
      let index := inner.slots.length
      if index ≤ u32Max then
        some (.ok ⟨kind, runtime, index, 0⟩,
          { inner with slots := inner.slots ++ [⟨some kind, runtime, 0, 1⟩] })
      else some (.error .registryFull, inner)

/-- Validate a handle against its slot. -/
def resolve (inner : RegistryInner) (h : Handle) : Except HandleError Slot :=
  match inner.slots[h.index]? with
  | none => .error .unknownSlot
  | some slot =>
      match slot.kind with
      | none => .error .unknownSlot
      | some kind =>
          if slot.generation ≠ h.generation then
            .error (.staleGeneration slot.generation h.generation)
          else if kind ≠ h.kind then .error (.wrongKind kind h.kind)
          else if slot.runtime ≠ h.runtime then .error (.wrongRuntime slot.runtime h.runtime)
          else .ok slot

/-- Take an additional lease on a live handle. -/
def lease (inner : RegistryInner) (h : Handle) : Except HandleError Unit × RegistryInner :=
  match resolve inner h with
  | .error e => (.error e, inner)
  | .ok slot =>
      if slot.leases + 1 ≤ u32Max then
        (.ok (), inner.setSlot h.index { slot with leases := slot.leases + 1 })
      else (.error .leaseOverflow, inner)

/-- Release one lease and answer how many remain. -/
def release_lease (inner : RegistryInner) (h : Handle) : Except HandleError Nat × RegistryInner :=
  match resolve inner h with
  | .error e => (.error e, inner)
  | .ok slot =>
      if slot.leases = 0 then (.error .noLease, inner)
      else (.ok (slot.leases - 1), inner.setSlot h.index { slot with leases := slot.leases - 1 })

/-- Number of outstanding leases on a handle's slot. -/
def lease_count (inner : RegistryInner) (h : Handle) : Except HandleError Nat :=
  (resolve inner h).map Slot.leases

/-- Whether the handle is still live. -/
def is_live (inner : RegistryInner) (h : Handle) : Bool := (resolve inner h).isOk

/-- Destroy the slot behind a handle.  The kind is cleared before the generation is advanced, so it
is gone also where the generation would wrap. -/
def destroy (inner : RegistryInner) (h : Handle) : Except HandleError Unit × RegistryInner :=
  match resolve inner h with
  | .error e => (.error e, inner)
  | .ok slot =>
      if slot.leases ≠ 0 then (.error (.leasesOutstanding slot.leases), inner)
      else if slot.generation + 1 ≤ u32Max then
        (.ok (), { inner.setSlot h.index
            { slot with kind := none, generation := slot.generation + 1 } with
          free := h.index :: inner.free })
      else (.error .generationWrap, inner.setSlot h.index { slot with kind := none })

/-- Number of occupied slots. -/
def live_count (inner : RegistryInner) : Nat := inner.slots.countP fun slot => slot.kind.isSome

/-- The operations of a registry. -/
inductive HandleOp where
  | acquire (kind : HandleKind)
  | resolve (h : Handle)
  | lease (h : Handle)
  | release_lease (h : Handle)
  | lease_count (h : Handle)
  | is_live (h : Handle)
  | destroy (h : Handle)
  | live_count
deriving Repr, DecidableEq

/-- What the operations answer; a resolved slot answers nothing but that it was found. -/
inductive HandleAnswer where
  | minted (h : Handle)
  | done
  | count (n : Nat)
  | flag (b : Bool)
  | failed (e : HandleError)
deriving Repr, DecidableEq

def HandleAnswer.of {α : Type} (ok : α → HandleAnswer) : Except HandleError α → HandleAnswer
  | .ok a => ok a
  | .error e => .failed e

/-- One operation under the lock. -/
def HandleRegistry.step (runtime : RuntimeId) (op : HandleOp) (inner : RegistryInner) :
    Option (HandleAnswer × RegistryInner) :=
  match op with
  | .acquire kind => (acquire runtime kind inner).map (Prod.map (.of .minted) id)
  | .resolve h => some (.of (fun _ => .done) (Component.resolve inner h), inner)
  | .lease h => some (Prod.map (.of fun _ => .done) id (Component.lease inner h))
  | .release_lease h => some (Prod.map (.of .count) id (Component.release_lease inner h))
  | .lease_count h => some (.of .count (Component.lease_count inner h), inner)
  | .is_live h => some (.flag (Component.is_live inner h), inner)
  | .destroy h => some (Prod.map (.of fun _ => .done) id (Component.destroy inner h))
  | .live_count => some (.count (Component.live_count inner), inner)

/-- The registry a runtime owns. -/
def HandleRegistry (runtime : RuntimeId) : Machine RegistryInner HandleOp HandleAnswer where
  init := .new
  step := HandleRegistry.step runtime

end Mimi.Component
