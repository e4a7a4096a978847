/-
Module: Mimi.Component.Checkpoint
Purpose: The layout probe: the faults it reports for the declared sizes, alignments and offsets of the structs of a
  serialized ABI.
Trusted boundary: human-reviewed translation of `LayoutFault`, `type_size`, `field_align` and `probe_layout` of
  component/checkpoint.rs
-/
import Mimi.Component.Abi

namespace Mimi.Component

/-- A structural problem discovered by the layout probe. -/
inductive LayoutFault where
  | offsetOutOfBounds (struct_name field : String) (offset size : Nat)
  | fieldOverflowsStruct (struct_name field : String) (offset field_size size : Nat)
  | fieldMisaligned (struct_name field : String) (offset align : Nat)
  | offsetsNotMonotonic (struct_name field : String)
  | sizeNotAligned (struct_name : String) (size align : Nat)
  | alignNotPow2 (struct_name : String) (align : Nat)
deriving Repr, DecidableEq

/-- Byte size of a serialized type reference, when statically known. -/
def type_size : MimiAbiTypeRef → Option Nat
  | .primitive name =>
      if name ∈ ["I8", "U8", "Bool"] then some 1
      else if name ∈ ["I16", "U16"] then some 2
      else if name ∈ ["I32", "U32", "F32"] then some 4
      else if name ∈ ["I64", "U64", "F64", "IntPtr", "UIntPtr"] then some 8
      else none
  | .pointer _ | .opaque_ _ | .named _ => some 8
  | .slice _ => some 16
  | .fatPointer _ has_capacity => some (if has_capacity then 24 else 16)
  | .void => some 0

/-- Natural alignment of a field with the given size. -/
def field_align (field_size : Nat) : Nat :=
  match field_size with
  | 0 | 1 => 1
  | 2 => 2
  | 4 => 4
  | _ => 8

/-- `usize::checked_add`. -/
def usize_add (a b : Nat) : Option Nat := if a + b < 2 ^ 64 then some (a + b) else none

/-- The checks of the declared alignment and size. -/
def probe_align (struct_name : String) (size align : Option Nat) : List LayoutFault :=
  match align with
  | none => []
  | some align =>
      (if align = 0 ∨ align &&& (align - 1) ≠ 0 then [.alignNotPow2 struct_name align] else []) ++
        match size with
        | none => []
        | some size => if align ≠ 0 ∧ size % align ≠ 0 then [.sizeNotAligned struct_name size align] else []

/-- The check of a field against the end of the struct. -/
def probe_bounds (struct_name : String) (size : Option Nat) (field : MimiAbiField) (offset : Nat) : List LayoutFault :=
  match size with
  | none => []
  | some size =>
      if offset ≥ size then [.offsetOutOfBounds struct_name field.name offset size]
      else
        match type_size field.ty with
        | none => []
        | some fsize =>
            if (usize_add offset fsize).all fun stop => stop > size then
              [.fieldOverflowsStruct struct_name field.name offset fsize size]
            else []

/-- The alignment that a field of a size has in a struct of a declared alignment. -/
def struct_field_align (align : Option Nat) (fsize : Nat) : Nat := min (field_align fsize) (align.getD 8)

/-- The check of a field against its alignment. -/
def probe_field_align (struct_name : String) (align : Option Nat) (field : MimiAbiField) (offset : Nat) :
    List LayoutFault :=
  match type_size field.ty with
  | none => []
  | some fsize =>
      let falign := struct_field_align align fsize
      if falign > 1 ∧ offset % falign ≠ 0 then [.fieldMisaligned struct_name field.name offset falign] else []

/-- The check of a field against the one before it. -/
def probe_order (struct_name : String) (prev : Option Nat) (field : MimiAbiField) (offset : Nat) :
    List LayoutFault :=
  match prev with
  | none => []
  | some p => if offset ≤ p then [.offsetsNotMonotonic struct_name field.name] else []

/-- The pass over the fields; those without an offset are passed over. -/
def probe_fields (struct_name : String) (size align : Option Nat) : Option Nat → List MimiAbiField → List LayoutFault
  | _, [] => []
  | prev, field :: fields =>
      match field.offset with
      | none => probe_fields struct_name size align prev fields
      | some offset =>
          probe_bounds struct_name size field offset ++ probe_field_align struct_name align field offset ++
            probe_order struct_name prev field offset ++ probe_fields struct_name size align (some offset) fields

def probe_struct (struct_name : String) (fields : List MimiAbiField) (size align : Option Nat) : List LayoutFault :=
  probe_align struct_name size align ++ probe_fields struct_name size align none fields

/-- Probe every struct type of an ABI for layout consistency. -/
def probe_layout (abi : MimiAbi) : List LayoutFault :=
  abi.types.flatMap fun ty =>
    match ty with
    | .struct name fields size align => probe_struct name fields size align
    | _ => []

end Mimi.Component
