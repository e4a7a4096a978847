/-
Module: Mimi.Bytecode.Transfer
Purpose: The instructions with which the canonical adapter tests values, transfers them between registers,
  takes variants and tuples apart and releases them, and their execution in a frame.
Trusted boundary: human-reviewed translation of `src/interp/bytecode/vm.rs`.  Operands that index the pool
  of constants are the constants themselves; a frame has all registers that the emitter allocates, so the
  range checks of the machine do not fail; `released` is a ghost field.  A jump that waits for the address of
  its block carries the block.
-/
import Mimi.Bytecode.Value

namespace Mimi.Bytecode

open Mimi.Core Mimi.Mir

abbrev Reg := Nat

structure VariantShape where
  nominal : NominalTypeId
  variant : NodeId
  tag : String
  discriminant : Nat
  arity : Nat
deriving DecidableEq, Repr

inductive Op where
  | mov (rd rs : Reg)
  | move (rd rs : Reg)
  | drop (ra : Reg)
  | dropAggregate (ra : Reg) (arity : Nat)
  | dropVariant (ra : Reg) (shapes : List VariantShape)
  | destructureVariantMove (ra base : Reg) (arity : Nat) (variantTag : String)
      (shapes : List VariantShape)
  | destructureTupleMove (ra base : Reg) (arity : Nat) (elementTys : List ResolvedTypeId)
  | isVariant (rd ra : Reg) (tag : String)
  | variantGet (rd ra : Reg) (idx : Nat) (variantTag : String) (shapes : List VariantShape)
  | loadConst (rd : Reg) (value : Int)
  | loadTrue (rd : Reg)
  | loadFalse (rd : Reg)
  | eqInt (rd ra rb : Reg)
  | eq (rd ra rb : Reg)
  /-- The offset counts from the next instruction; the adapter only jumps forward. -/
  | jmpIfNot (offset : Nat) (ra : Reg)
  | jmp (target : MirBlockId)
  | trap (message : String)
  | ret (ra : Reg)
  | retUnit
deriving DecidableEq, Repr

/-- What stops the machine. -/
inductive Trap where
  | mapRoot
  | aggregateShape
  | notVariant
  | tag
  | absentTag
  | identity
  | payload
  | notTuple
  | tupleShape
  | fieldIndex
  | message (text : String)
deriving DecidableEq, Repr

structure Frame where
  regs : Reg → Value
  /-- The values that drop instructions have released. -/
  released : List Value

namespace Frame

def set (frame : Frame) (rd : Reg) (value : Value) : Frame :=
  { frame with regs := Function.update frame.regs rd value }

/-- Take the value out of a register. -/
def take (frame : Frame) (ra : Reg) : Frame := frame.set ra .unit

/-- Note that a value is released. -/
def release (frame : Frame) (value : Value) : Frame :=
  { frame with released := frame.released ++ [value] }

/-- Put values into the registers from a base on. -/
def setAll (frame : Frame) (base : Reg) : List Value → Frame
  | [] => frame
  | value :: values => setAll (frame.set base value) (base + 1) values

end Frame

/-- The payload of a variant that agrees with a table of shapes. -/
def checkedPayload (shapes : List VariantShape) (value : Value) :
    Except Trap (String × List Value × VariantShape) :=
  match value.variantParts with
  | none => .error .notVariant
  | some (tag, payload, identity) =>
      match shapes.find? fun shape => shape.tag = tag with
      | none => .error .absentTag
      | some shape =>
          if identity.any fun id => id.1 ≠ shape.nominal || id.2 ≠ shape.variant then .error .identity
          else if payload.length ≠ shape.arity then .error .payload
          else .ok (tag, payload, shape)

/-- The tag is compared before the table is consulted. -/
def taggedPayload (variantTag : String) (shapes : List VariantShape) (value : Value) :
    Except Trap (List Value × VariantShape) :=
  match value.variantParts with
  | none => .error .notVariant
  | some (tag, _, _) =>
      if tag ≠ variantTag then .error .tag
      else (checkedPayload shapes value).map fun checked => (checked.2.1, checked.2.2)

def hasTag (tag : String) : Value → Bool
  | .variant name _ => name = tag
  | .canonicalVariant _ _ name _ => name = tag
  | .record (some name) _ => name = tag
  | _ => false

/-- One instruction that does not jump. -/
def step (op : Op) (frame : Frame) : Except Trap Frame :=
  match op with
  | .mov rd rs =>
      if (frame.regs rs).isMapRoot then .error .mapRoot
      else if rd = rs then .ok frame
      else .ok (frame.set rd (frame.regs rs))
  | .move rd rs =>
      if (frame.regs rs).isMapRoot then .error .mapRoot
      else if rd = rs then .ok frame
      else .ok ((frame.take rs).set rd (frame.regs rs))
  | .drop ra =>
      if (frame.regs ra).isMapRoot then .error .mapRoot
      else .ok ((frame.take ra).release (frame.regs ra))
  | .dropAggregate ra arity =>
      match frame.regs ra with
      | .tuple items =>
          if items.length = arity then .ok ((frame.take ra).release (.tuple items))
          else .error .aggregateShape
      | .record name fields =>
          if fields.length = arity then .ok ((frame.take ra).release (.record name fields))
          else .error .aggregateShape
      | _ => .error .aggregateShape
  | .dropVariant ra shapes =>
      match checkedPayload shapes (frame.regs ra) with
      | .error trap => .error trap
      | .ok _ => .ok ((frame.take ra).release (frame.regs ra))
  | .destructureVariantMove ra base arity variantTag shapes =>
      match taggedPayload variantTag shapes (frame.regs ra) with
      | .error trap => .error trap
      | .ok (payload, shape) =>
          if shape.arity ≠ arity then .error .payload
          else .ok ((frame.take ra).setAll base payload)
  | .destructureTupleMove ra base arity elementTys =>
      if elementTys.length ≠ arity then .error .tupleShape
      else
        match frame.regs ra with
        | .tuple items =>
            if items.length ≠ arity then .error .tupleShape
            else .ok ((frame.take ra).setAll base items)
        | _ => .error .notTuple
  | .isVariant rd ra tag => .ok (frame.set rd (.bool (hasTag tag (frame.regs ra))))
  | .variantGet rd ra idx variantTag shapes =>
      match taggedPayload variantTag shapes (frame.regs ra) with
      | .error trap => .error trap
      | .ok (payload, _) =>
          match payload[idx]? with
          | none => .error .fieldIndex
          | some value => .ok (frame.set rd value)
  | .loadConst rd value => .ok (frame.set rd (.int value))
  | .loadTrue rd => .ok (frame.set rd (.bool true))
  | .loadFalse rd => .ok (frame.set rd (.bool false))
  | .eqInt rd ra rb | .eq rd ra rb =>
      .ok (frame.set rd (.bool (values_equal (frame.regs ra) (frame.regs rb))))
  | .trap message => .error (.message message)
  | .jmpIfNot _ _ | .jmp _ | .ret _ | .retUnit => .ok frame

/-- How the code of a block is left. -/
inductive Exit where
  | jump (target : MirBlockId) (frame : Frame)
  | return_ (value : Value)
  | trap (reason : Trap)
  /-- Control runs off the end of the code. -/
  | fallsThrough (frame : Frame)

/-- Execute code that only jumps forward; the number counts the instructions still to be skipped. -/
def run : List Op → Nat → Frame → Exit
  | [], _, frame => .fallsThrough frame
  | _ :: code, skip + 1, frame => run code skip frame
  | op :: code, 0, frame =>
      match op with
      | .jmp target => .jump target frame
      | .ret ra => .return_ (frame.regs ra)
      | .retUnit => .return_ .unit
      | .jmpIfNot offset ra => run code (if is_truthy (frame.regs ra) then 0 else offset) frame
      | op =>
          match step op frame with
          | .error trap => .trap trap
          | .ok frame => run code 0 frame

end Mimi.Bytecode
