/-
Module: Mimi.Component.Wire
Purpose: The cross-component wire format: its type language, the encoding helpers and the
  type-driven decoder.  Byte buffers are lists; lengths and offsets are natural numbers, since the
  decoder never moves its offset past the end of its buffer and so no addition overflows.
Trusted boundary: human-reviewed translation of `src/component/wire.rs`
-/
import Mimi.Lib.LittleEndian

namespace Mimi.Component

open Mimi.Lib

/-- The type system for wire serialization. -/
inductive WireType where
  | bool | i8 | i16 | i32 | i64 | u8 | u16 | u32 | u64 | f32 | f64
  | string
  | bytes
  | array (elem : WireType)
  | map (key value : WireType)
  | handle
  | optional (inner : WireType)
  | result (ok err : WireType)
  | unit
deriving DecidableEq, Repr

/-- The length error of the encoding helpers. -/
inductive WireError where
  | lengthOverflow (max got : Nat)
deriving DecidableEq, Repr

def u32Max : Nat := 4294967295

/-- Nesting limit of the decoder. -/
def maxNesting : Nat := 128

namespace WireType

/-- Fixed size in bytes; `none` for the variable-length types. -/
def fixedSize : WireType → Option Nat
  | bool | i8 | u8 => some 1
  | i16 | u16 => some 2
  | i32 | u32 | f32 => some 4
  | i64 | u64 | f64 | handle => some 8
  | unit => some 0
  | string | bytes | array _ | map _ _ | optional _ | result _ _ => none

/-- Encode a primitive value.  The casts to the signed and floating types keep the bit pattern, so
each case is the low-order bytes of the value. -/
def encodePrimitive (ty : WireType) (value : UInt64) : Option (List UInt8) :=
  match ty with
  | bool => some [if value ≠ 0 then 1 else 0]
  | i8 | u8 => some (leBytes 1 value.toNat)
  | i16 | u16 => some (leBytes 2 value.toNat)
  | i32 | u32 | f32 => some (leBytes 4 value.toNat)
  | i64 | u64 | f64 | handle => some (leBytes 8 value.toNat)
  | unit => some []
  | _ => none

/-- Encode a byte array behind its `u32` length. -/
def encodeBytes (data : List UInt8) : Except WireError (List UInt8) :=
  if data.length ≤ u32Max then .ok (leBytes 4 data.length ++ data)
  else .error (.lengthOverflow u32Max data.length)

/-- Encode a UTF-8 string behind its `u32` byte length. -/
def encodeString (s : String) : Except WireError (List UInt8) :=
  let data := s.toByteArray.data.toList
  if data.length ≤ u32Max then .ok (leBytes 4 data.length ++ data)
  else .error (.lengthOverflow u32Max data.length)

/-- Decode a byte array, with the number of bytes consumed. -/
def decodeBytes (data : List UInt8) : Option (List UInt8 × Nat) :=
  if data.length < 4 then none
  else
    let total := 4 + ofLeBytes (data.take 4)
    if data.length < total then none
    else some ((data.take total).drop 4, total)

/-- Decode a UTF-8 string, with the number of bytes consumed. -/
def decodeString (data : List UInt8) : Option (String × Nat) :=
  if data.length < 4 then none
  else
    let total := 4 + ofLeBytes (data.take 4)
    if data.length < total then none
    else do
      let s ← String.fromUTF8? ⟨((data.take total).drop 4).toArray⟩
      some (s, total)

/-- Encode an optional value: a tag byte, then the value when present. -/
def encodeOptional : Option (List UInt8) → List UInt8
  | none => [0]
  | some value => 1 :: value

/-- Encode an array header (`u32` element count). -/
def encodeArrayHeader (count : Nat) : List UInt8 := leBytes 4 count

/-- Decode an array header, with the number of bytes consumed. -/
def decodeArrayHeader (data : List UInt8) : Option (Nat × Nat) :=
  if data.length < 4 then none else some (ofLeBytes (data.take 4), 4)

/-- Encode a map header (`u32` pair count). -/
def encodeMapHeader (count : Nat) : List UInt8 := leBytes 4 count

/-- Decode a map header: the same wire format as an array header. -/
def decodeMapHeader (data : List UInt8) : Option (Nat × Nat) := decodeArrayHeader data

/-- Encode a result tag (0 is Ok, 1 is Err). -/
def encodeResultTag (isErr : Bool) : List UInt8 := [if isErr then 1 else 0]

/-- Decode a result tag, with the number of bytes consumed. -/
def decodeResultTag : List UInt8 → Option (Bool × Nat)
  | [] => none
  | tag :: _ => if tag = 0 then some (false, 1) else if tag = 1 then some (true, 1) else none

/-- One step of the element loops: decode a value at `consumed` and advance past it.  A value of
zero bytes is refused, or the loop would spin without consuming input. -/
def decodeStep (decode : List UInt8 → Option (List UInt8 × Nat)) (data : List UInt8)
    (consumed : Nat) : Option Nat := do
  if consumed > data.length then none
  let (_, n) ← decode (data.drop consumed)
  if n = 0 then none
  some (consumed + n)

/-- The loop body run `count` times. -/
def decodeLoop (step : Nat → Option Nat) : Nat → Nat → Option Nat
  | 0, consumed => some consumed
  | count + 1, consumed => do decodeLoop step count (← step consumed)

/-- `decode_optional_depth`, over the decoder of the inner type. -/
def decodeOptionalWith (decode : List UInt8 → Nat → Option (List UInt8 × Nat))
    (data : List UInt8) (depth : Nat) : Option (Option (List UInt8) × Nat) :=
  if depth > maxNesting then none
  else
    match data with
    | [] => none
    | tag :: rest =>
        if tag = 0 then some (none, 1)
        else if tag = 1 then do
          let (value, consumed) ← decode rest (depth + 1)
          some (some value, consumed + 1)
        else none

/-- `decode_result_depth`, over the decoders of the two payload types. -/
def decodeResultWith (decodeOk decodeErr : List UInt8 → Nat → Option (List UInt8 × Nat))
    (data : List UInt8) (depth : Nat) :
    Option (Except (List UInt8) (List UInt8) × Nat) :=
  if depth > maxNesting then none
  else do
    let (isErr, tagConsumed) ← decodeResultTag data
    let decodePayload := if isErr then decodeErr else decodeOk
    let (payload, payloadConsumed) ← decodePayload (data.drop tagConsumed) (depth + 1)
    some (if isErr then .error payload else .ok payload, tagConsumed + payloadConsumed)

/-- Decode one self-delimiting value from the head of `data` at nesting `depth`, with the number of
bytes consumed. -/
def decodeValueDepth : WireType → List UInt8 → Nat → Option (List UInt8 × Nat)
  | ty, data, depth =>
    if depth > maxNesting then none
    else
      match ty with
      | unit => some ([], 0)
      | string => do
          let (_, consumed) ← decodeString data
          some (data.take consumed, consumed)
      | bytes => do
          let (_, consumed) ← decodeBytes data
          some (data.take consumed, consumed)
      | array elem => do
          let (count, start) ← decodeArrayHeader data
          let step := decodeStep (fun rest => elem.decodeValueDepth rest (depth + 1)) data
          let consumed ← decodeLoop step count start
          some (data.take consumed, consumed)
      | map key value => do
          let (count, start) ← decodeMapHeader data
          let keyStep := decodeStep (fun rest => key.decodeValueDepth rest (depth + 1)) data
          let valueStep := decodeStep (fun rest => value.decodeValueDepth rest (depth + 1)) data
          let consumed ← decodeLoop (fun at' => do valueStep (← keyStep at')) count start
          some (data.take consumed, consumed)
      | optional inner => do
          let (_, consumed) ← decodeOptionalWith inner.decodeValueDepth data (depth + 1)
          some (data.take consumed, consumed)
      | result ok err => do
          let (_, consumed) ←
            decodeResultWith ok.decodeValueDepth err.decodeValueDepth data (depth + 1)
          some (data.take consumed, consumed)
      | prim =>
          let n := prim.fixedSize.getD 0
          if data.length < n then none else some (data.take n, n)

/-- Decode one value from the head of `data`. -/
def decodeValue (ty : WireType) (data : List UInt8) : Option (List UInt8 × Nat) :=
  ty.decodeValueDepth data 0

/-- Decode an optional value given its inner type. -/
def decodeOptional (inner : WireType) (data : List UInt8) :
    Option (Option (List UInt8) × Nat) :=
  decodeOptionalWith inner.decodeValueDepth data 0

/-- Decode a full result value given both payload types. -/
def decodeResult (ok err : WireType) (data : List UInt8) :
    Option (Except (List UInt8) (List UInt8) × Nat) :=
  decodeResultWith ok.decodeValueDepth err.decodeValueDepth data 0

end WireType

end Mimi.Component
