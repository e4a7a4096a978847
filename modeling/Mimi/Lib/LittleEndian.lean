/-
Module: Mimi.Lib.LittleEndian
Purpose: Fixed-width little-endian byte strings and their numeric reading.
Trusted boundary: none
-/
import Mathlib

namespace Mimi.Lib

/-- The `width` low-order bytes of `value`, least significant first. -/
def leBytes : Nat → Nat → List UInt8
  | 0, _ => []
  | width + 1, value => UInt8.ofNat value :: leBytes width (value / 256)

/-- The number a little-endian byte string denotes. -/
def ofLeBytes : List UInt8 → Nat
  | [] => 0
  | byte :: rest => byte.toNat + 256 * ofLeBytes rest

@[simp] theorem length_leBytes (width value : Nat) :
    (leBytes width value).length = width := by
  induction width generalizing value with
  | zero => rfl
  | succ width ih => simp [leBytes, ih]

/-- Reading back `width` bytes recovers the value modulo `256 ^ width`. -/
theorem ofLeBytes_leBytes (width value : Nat) :
    ofLeBytes (leBytes width value) = value % 256 ^ width := by
  induction width generalizing value with
  | zero => simp [leBytes, ofLeBytes, Nat.mod_one]
  | succ width ih =>
      have split : value % 256 ^ (width + 1)
          = value % 256 + 256 * (value / 256 % 256 ^ width) := by
        rw [pow_succ', Nat.mod_mul]
      simp [leBytes, ofLeBytes, ih, split]

/-- A value that fits its width survives the round trip unchanged. -/
theorem ofLeBytes_leBytes_of_lt {width value : Nat} (fits : value < 256 ^ width) :
    ofLeBytes (leBytes width value) = value := by
  rw [ofLeBytes_leBytes, Nat.mod_eq_of_lt fits]

theorem ofLeBytes_lt (bytes : List UInt8) : ofLeBytes bytes < 256 ^ bytes.length := by
  induction bytes with
  | nil => simp [ofLeBytes]
  | cons byte rest ih =>
      have small : byte.toNat < 256 := byte.toNat_lt
      simp only [ofLeBytes, List.length_cons, pow_succ']
      omega

/-- Every byte string is the encoding of the number it denotes. -/
theorem leBytes_ofLeBytes (bytes : List UInt8) :
    leBytes bytes.length (ofLeBytes bytes) = bytes := by
  induction bytes with
  | nil => rfl
  | cons byte rest ih =>
      have small : byte.toNat < 256 := byte.toNat_lt
      have low : UInt8.ofNat (byte.toNat + 256 * ofLeBytes rest) = byte := by
        apply UInt8.toNat_inj.mp
        rw [UInt8.toNat_ofNat']
        omega
      have high : (byte.toNat + 256 * ofLeBytes rest) / 256 = ofLeBytes rest := by omega
      simp [leBytes, ofLeBytes, low, high, ih]

end Mimi.Lib
