/-
Module: Mimi.Runtime.Epoch
Purpose: The table of packed Flow values of runtime/epoch.rs and its operations, as a machine.
Trusted boundary: none
-/
import Mimi.Lib.Machine
import Mimi.Lib.PackedWord

namespace Mimi.Runtime

open Mimi.Lib

/-- Initial epoch assigned at first pack. -/
def EPOCH_INITIAL : Nat := 1

inductive EpochError where
  | invalid
  | stale
  | bareRecord
deriving Repr, DecidableEq

def EPOCH_OK : Nat := 0
def EPOCH_ERR_INVALID : Nat := 1
def EPOCH_ERR_STALE : Nat := 2
def EPOCH_ERR_BARE_RECORD : Nat := 3

def EpochError.code : EpochError → Nat
  | .invalid => EPOCH_ERR_INVALID
  | .stale => EPOCH_ERR_STALE
  | .bareRecord => EPOCH_ERR_BARE_RECORD

/-- A slot of the table; `epoch` is a `u64`, `payload` an `i64`. -/
structure FlowSlot where
  epoch : Nat
  payload : BitVec 64
  live : Bool
deriving Repr, DecidableEq

/-- `free` is a stack: its head is the last element of the source's vector. -/
structure FlowTable where
  slots : List FlowSlot
  free : List (BitVec 32)
deriving Repr, DecidableEq

/-- Index 0 is reserved. -/
def FlowTable.new : FlowTable := ⟨[⟨0, 0, false⟩], []⟩

/-- Write a slot through the reference that was looked up at the index. -/
def FlowTable.setSlot (tbl : FlowTable) (index : Nat) (slot : FlowSlot) : FlowTable :=
  { tbl with slots := tbl.slots.set index slot }

/-- `u64::saturating_add(1)`. -/
def saturatingSucc (epoch : Nat) : Nat := min (epoch + 1) 18446744073709551615

/-- The low 32 bits of the epoch are the tag over the index. -/
def pack (index : BitVec 32) (epoch : Nat) : BitVec 64 := packWord index (BitVec.ofNat 32 epoch)

def unpack (handle : BitVec 64) : Except EpochError (BitVec 32 × BitVec 32) :=
  if handle = 0 then .error .invalid
  else
    let index := lowWord handle
    let tag := highWord handle
    if index = 0 then .error .invalid else .ok (index, tag)

/-- The slot a handle names, if the handle is of its current epoch. -/
def lookup (tbl : FlowTable) (handle : BitVec 64) : Except EpochError (BitVec 32 × FlowSlot) := do
  let (index, tag) ← unpack handle
  match tbl.slots[index.toNat]? with
  | none => .error .invalid
  | some slot =>
      if !slot.live then .error .stale
      else if BitVec.ofNat 32 slot.epoch ≠ tag then .error .stale
      else .ok (index, slot)

/-- What a call returns, and what it leaves in the error cell of its thread.  Every call clears the
cell first, so the cell depends on the call alone. -/
structure FlowAnswer where
  value : BitVec 64
  last_error : Nat
deriving Repr, DecidableEq

/-- A call that fails with 0. -/
def FlowAnswer.failed (e : EpochError) : FlowAnswer := ⟨0, e.code⟩

/-- A call that fails with the error's code. -/
def FlowAnswer.rejected (e : EpochError) : FlowAnswer := ⟨BitVec.ofNat 64 e.code, e.code⟩

/-- The index a pack takes: the top of the free list, else the length of the table as a `u32` after
a slot was added for it. -/
def takeSlot (tbl : FlowTable) : BitVec 32 × FlowTable :=
  match tbl.free with
  | index :: free => (index, { tbl with free := free })
  | [] => (BitVec.ofNat 32 tbl.slots.length, { tbl with slots := tbl.slots ++ [⟨0, 0, false⟩] })

/-- Pack a payload in a slot started at the initial epoch; indexing outside the table panics. -/
def mimi_flow_pack (payload : BitVec 64) (tbl : FlowTable) : Option (FlowAnswer × FlowTable) :=
  let (index, tbl) := takeSlot tbl
  match tbl.slots[index.toNat]? with
  | none => none
  | some _ =>
      some (⟨pack index EPOCH_INITIAL, EPOCH_OK⟩,
        tbl.setSlot index.toNat ⟨EPOCH_INITIAL, payload, true⟩)

/-- Current epoch of a packed Flow. -/
def mimi_flow_epoch (handle : BitVec 64) (tbl : FlowTable) : FlowAnswer :=
  match lookup tbl handle with
  | .ok (_, slot) => ⟨BitVec.ofNat 64 slot.epoch, EPOCH_OK⟩
  | .error e => .failed e

/-- Accept a packed Flow only if the expected epoch, as a `u64`, is the live one. -/
def mimi_flow_check_epoch (handle expected : BitVec 64) (tbl : FlowTable) : FlowAnswer :=
  match lookup tbl handle with
  | .ok (_, slot) =>
      if slot.epoch ≠ expected.toNat then .rejected .stale else ⟨0, EPOCH_OK⟩
  | .error e => .rejected e

/-- Consume the current epoch and publish the next one. -/
def mimi_flow_bump_epoch (handle : BitVec 64) (tbl : FlowTable) : FlowAnswer × FlowTable :=
  match lookup tbl handle with
  | .ok (index, slot) =>
      let epoch := saturatingSucc slot.epoch
      (⟨pack index epoch, EPOCH_OK⟩, tbl.setSlot index.toNat { slot with epoch := epoch })
  | .error e => (.failed e, tbl)

/-- Read the payload. -/
def mimi_flow_unpack (handle : BitVec 64) (tbl : FlowTable) : FlowAnswer :=
  match lookup tbl handle with
  | .ok (_, slot) => ⟨slot.payload, EPOCH_OK⟩
  | .error e => .failed e

/-- Drop a packed Flow: its epoch is advanced and its slot goes to the free list. -/
def mimi_flow_drop (handle : BitVec 64) (tbl : FlowTable) : FlowAnswer × FlowTable :=
  match lookup tbl handle with
  | .ok (index, slot) =>
      (⟨0, EPOCH_OK⟩,
        { tbl.setSlot index.toNat ⟨saturatingSucc slot.epoch, 0, false⟩ with
          free := index :: tbl.free })
  | .error e => (.rejected e, tbl)

/-- The calls on the table. -/
inductive FlowOp where
  | pack (payload : BitVec 64)
  | epoch (handle : BitVec 64)
  | check_epoch (handle expected : BitVec 64)
  | bump_epoch (handle : BitVec 64)
  | unpack (handle : BitVec 64)
  | drop (handle : BitVec 64)
deriving Repr, DecidableEq

/-- The handle a call is made on. -/
def FlowOp.handle : FlowOp → Option (BitVec 64)
  | .pack _ => none
  | .epoch handle => some handle
  | .check_epoch handle _ => some handle
  | .bump_epoch handle => some handle
  | .unpack handle => some handle
  | .drop handle => some handle

/-- One call under the lock. -/
def FlowMachine.step (op : FlowOp) (tbl : FlowTable) : Option (FlowAnswer × FlowTable) :=
  match op with
  | .pack payload => mimi_flow_pack payload tbl
  | .epoch handle => some (mimi_flow_epoch handle tbl, tbl)
  | .check_epoch handle expected => some (mimi_flow_check_epoch handle expected tbl, tbl)
  | .bump_epoch handle => some (mimi_flow_bump_epoch handle tbl)
  | .unpack handle => some (mimi_flow_unpack handle tbl, tbl)
  | .drop handle => some (mimi_flow_drop handle tbl)

/-- The Flow table of a process. -/
def FlowMachine : Machine FlowTable FlowOp FlowAnswer where
  init := .new
  step := FlowMachine.step

end Mimi.Runtime
