/-
Module: Mimi.Bytecode.ConstPool
Purpose: The constant pool of a function prototype: the insertions that share equal numbers and strings, the raw
  ones and their checked variants, as the operations of one machine.
Trusted boundary: human-reviewed translation of the pool functions of `FunctionProto` in `src/interp/bytecode/instr.rs`;
  the payloads of the other kinds of constants, which no insertion compares, are a parameter
-/
import Mimi.Bytecode.Value
import Mimi.Lib.Machine

namespace Mimi.Bytecode

open Mimi.Lib

/-- Compile-time constant values stored in the constant pool.  Numbers are their bits. -/
inductive ConstValue (ω : Type) where
  | int (value : BitVec 64)
  | float (bits : BitVec 64)
  | bool (value : Bool)
  | str (value : String)
  | unit
  | other (value : ω)
deriving Repr, DecidableEq

/-- A function prototype, of which only the constant pool matters here. -/
structure FunctionProto (ω : Type) where
  constants : List (ConstValue ω)
deriving Repr, DecidableEq

variable {ω : Type}

/-- The comparison under which an insertion returns an earlier entry. -/
def ConstValue.dedup : ConstValue ω → ConstValue ω → Bool
  | .int a, .int b => a = b
  | .str a, .str b => a = b
  | .float a, .float b => floatsEqual a.toNat b.toNat
  | _, _ => false

/-- `as ConstIdx`: an index is cut to 32 bits. -/
def constIdx (index : Nat) : Nat := index % 2 ^ 32

def checked_const_idx (len : Nat) : Except String Nat :=
  if len < 2 ^ 32 then .ok len else .error "constant pool index exceeds u32 ABI"

/-- Add a constant to the pool, returning its index. -/
def add_const (proto : FunctionProto ω) (val : ConstValue ω) : Nat × FunctionProto ω :=
  match proto.constants.findIdx? fun existing => existing.dedup val with
  | some i => (constIdx i, proto)
  | none => (constIdx proto.constants.length, ⟨proto.constants ++ [val]⟩)

/-- Checked constant-pool insertion used by canonical emitters. -/
def try_add_const (proto : FunctionProto ω) (val : ConstValue ω) : Except String Nat × FunctionProto ω :=
  match proto.constants.findIdx? fun existing => existing.dedup val with
  | some i => (checked_const_idx i, proto)
  | none =>
      match checked_const_idx proto.constants.length with
      | .ok index => (.ok index, ⟨proto.constants ++ [val]⟩)
      | .error e => (.error e, proto)

/-- Add a constant without deduplication. -/
def add_const_raw (proto : FunctionProto ω) (val : ConstValue ω) : Nat × FunctionProto ω :=
  (constIdx proto.constants.length, ⟨proto.constants ++ [val]⟩)

/-- Checked constant-pool insertion without deduplication. -/
def try_add_const_raw (proto : FunctionProto ω) (val : ConstValue ω) : Except String Nat × FunctionProto ω :=
  match checked_const_idx proto.constants.length with
  | .ok index => (.ok index, ⟨proto.constants ++ [val]⟩)
  | .error e => (.error e, proto)

/-- The insertions into a pool. -/
inductive PoolCall where
  | add_const
  | try_add_const
  | add_const_raw
  | try_add_const_raw
deriving Repr, DecidableEq

/-- An insertion with the constant that is added. -/
structure PoolOp (ω : Type) where
  call : PoolCall
  val : ConstValue ω
deriving Repr, DecidableEq

def PoolOp.perform (op : PoolOp ω) (proto : FunctionProto ω) : Except String Nat × FunctionProto ω :=
  match op.call with
  | .add_const => Prod.map .ok id (Bytecode.add_const proto op.val)
  | .try_add_const => Bytecode.try_add_const proto op.val
  | .add_const_raw => Prod.map .ok id (Bytecode.add_const_raw proto op.val)
  | .try_add_const_raw => Bytecode.try_add_const_raw proto op.val

/-- The pool of a new prototype under insertions. -/
def ConstPool (ω : Type) : Machine (FunctionProto ω) (PoolOp ω) (Except String Nat) where
  init := ⟨[]⟩
  step op proto := some (op.perform proto)

end Mimi.Bytecode
