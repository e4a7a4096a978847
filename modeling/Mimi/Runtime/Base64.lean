/-
Module: Mimi.Runtime.Base64
Purpose: The Base64 functions of the runtime: bytes to letters in groups of three, and letters back to bytes
  in groups of four.
Trusted boundary: human-reviewed translation of `base64_encode_bytes` and `base64_decode_str` of
  `runtime/crypto.rs`; words are natural numbers, none of which overflows
-/
import Mimi.Lib.BitGroups
import Mimi.Lib.Text

namespace Mimi.Runtime

open Mimi.Lib

namespace Base64

def TABLE : List Char := "ABCDEFGHIJKLMNOPQRSTUVWXYZabcdefghijklmnopqrstuvwxyz0123456789+/".toList

/-- The letter of six bits. -/
def letter (value : Nat) : Char := TABLE.getD (value &&& 0x3F) '\x00'

/-- The bits of a chunk, as if it were whole. -/
def triple (chunk : List UInt8) : Nat :=
  let b0 := (chunk.getD 0 0).toNat
  let b1 := if 1 < chunk.length then (chunk.getD 1 0).toNat else 0
  let b2 := if 2 < chunk.length then (chunk.getD 2 0).toNat else 0
  (b0 <<< 16) ||| (b1 <<< 8) ||| b2

/-- The four characters of a chunk. -/
def encode_chunk (chunk : List UInt8) : List Char :=
  [letter (triple chunk >>> 18), letter (triple chunk >>> 12),
    if 1 < chunk.length then letter (triple chunk >>> 6) else '=',
    if 2 < chunk.length then letter (triple chunk) else '=']

def base64_encode_bytes (data : List UInt8) : String := String.ofList ((chunks 3 data).flatMap encode_chunk)

/-- The values of the letters, by their codes. -/
def REV : List Int :=
  let table := List.replicate 128 (-1)
  let table := (List.range' 0 26).foldl (fun table i => table.set (65 + i) i) table
  let table := (List.range' 26 26).foldl (fun table i => table.set (97 + i - 26) i) table
  let table := (List.range' 52 10).foldl (fun table i => table.set (48 + i - 52) i) table
  (table.set 43 62).set 47 63

/-- `u8::is_ascii_whitespace`. -/
def is_ascii_whitespace (b : UInt8) : Bool := b = 32 || b = 9 || b = 10 || b = 12 || b = 13

/-- Neither padding nor white space. -/
def is_kept (b : UInt8) : Bool := b ≠ 61 && !is_ascii_whitespace b

def clean (input : String) : List UInt8 := (utf8Bytes input).filter is_kept

/-- The value of a letter, where it has one. -/
def value_of (b : UInt8) : Except Unit Nat :=
  if 128 ≤ b.toNat ∨ REV.getD b.toNat (-1) < 0 then .error () else .ok (REV.getD b.toNat (-1)).toNat

/-- The letters of a chunk are shifted into a buffer. -/
def fill (buf : Nat) : List UInt8 → Except Unit Nat
  | [] => .ok buf
  | b :: chunk => do
      let value ← value_of b
      fill ((buf <<< 6) ||| value) chunk

/-- The bytes at the front of a number of bits, as long as there are eight. -/
def drain (buf : Nat) : Nat → List UInt8
  | bits + 8 => UInt8.ofNat (buf >>> bits) :: drain buf bits
  | _ => []

def decode_chunk (chunk : List UInt8) : Except Unit (List UInt8) := do
  let buf ← fill 0 chunk
  pure (drain buf (6 * chunk.length))

def base64_decode_str (input : String) : Except Unit String := do
  let output ← (chunks 4 (clean input)).mapM decode_chunk
  (String.fromUTF8? ⟨output.flatten.toArray⟩).elim (.error ()) .ok

end Base64

end Mimi.Runtime
