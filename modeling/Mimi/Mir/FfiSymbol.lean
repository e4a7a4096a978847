/-
Module: Mimi.Mir.FfiSymbol
Purpose: The check that a foreign symbol is the one that the identity of its extern callee encodes.
Trusted boundary: human-reviewed translation of `validate_ffi_symbol_matches_callee`, `canonical_stable_id_fragment`
  and `hex_value` of `core/mir/mod.rs`
-/
import Mimi.Core.Ownership
import Mimi.Lexer.Scan
import Mimi.Lib.Text

namespace Mimi.Mir

open Mimi.Core Mimi.Lib

/-- `u8::is_ascii_alphanumeric`, or one of `.`, `_`, `-` and `:`. -/
def stands_for_itself (byte : UInt8) : Bool :=
  (48 ≤ byte && byte ≤ 57) || (65 ≤ byte && byte ≤ 90) || (97 ≤ byte && byte ≤ 122) ||
    byte = 46 || byte = 95 || byte = 45 || byte = 58

/-- A byte of a name: itself, or `%` and its two lower-case hexadecimal digits. -/
def escape_byte (byte : UInt8) : List Char :=
  if stands_for_itself byte then [Char.ofNat byte.toNat]
  else ['%', Nat.digitChar (byte.toNat / 16), Nat.digitChar (byte.toNat % 16)]

def canonical_stable_id_fragment (value : String) : String := String.ofList ((utf8Bytes value).flatMap escape_byte)

def hex_value (byte : UInt8) : Option UInt8 :=
  if 48 ≤ byte ∧ byte ≤ 57 then some (byte - 48)
  else if 97 ≤ byte ∧ byte ≤ 102 then some (byte - 97 + 10)
  else if 65 ≤ byte ∧ byte ≤ 70 then some (byte - 65 + 10)
  else none

/-- The loop over the bytes of an encoded name: `%` and two digits stand for a byte. -/
def decode_fragment : List UInt8 → Option (List UInt8)
  | [] => some []
  | marker :: encoded =>
      if marker = 37 then
        match encoded with
        | high_byte :: low_byte :: encoded => do
            let high ← hex_value high_byte
            let low ← hex_value low_byte
            let decoded ← decode_fragment encoded
            some (((high <<< 4) ||| low) :: decoded)
        | _ => none
      else do
        let decoded ← decode_fragment encoded
        some (marker :: decoded)

/-- Validate that a checker-owned C symbol still names the extern callable encoded by the canonical callee owner. -/
def validate_ffi_symbol_matches_callee (callee : NodeId) (symbol : String) : Except String Unit :=
  let not_canonical := "extern callee '" ++ callee.val ++ "' is not a canonical extern function identity"
  if ¬"extern:C:".toList <+: callee.val.toList then
    .error ("extern callee '" ++ callee.val ++ "' is outside the canonical C ABI")
  else
    match rsplit_once "/function:" callee.val with
    | none => .error not_canonical
    | some (_, owner_tail) =>
        match rsplit_once ":" owner_tail with
        | none => .error not_canonical
        | some (encoded_name, signature_hash) =>
            if encoded_name = "" ∨ (utf8Bytes signature_hash).length ≠ 16 ∨
                signature_hash.toList.all Lexer.is_ascii_hexdigit = false then .error not_canonical
            else
              match decode_fragment (utf8Bytes encoded_name) with
              | none => .error not_canonical
              | some decoded =>
                  match String.fromUTF8? ⟨decoded.toArray⟩ with
                  | none => .error not_canonical
                  | some decoded_name =>
                      if canonical_stable_id_fragment decoded_name ≠ encoded_name then .error not_canonical
                      else if decoded_name ≠ symbol then
                        .error ("extern call FFI symbol disagrees with canonical extern callee: receipt '" ++ symbol ++
                          "' vs '" ++ callee.val ++ "'")
                      else .ok ()

end Mimi.Mir
