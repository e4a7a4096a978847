/-
Module: Mimi.Lib.PackedWord
Purpose: Two 32-bit words packed into one of 64 bits, the low one read back by truncation and the
  high one by an arithmetic shift.
Trusted boundary: none
-/
import Mathlib

namespace Mimi.Lib

def packWord (low high : BitVec 32) : BitVec 64 := (high.setWidth 64 <<< 32) ||| low.setWidth 64

def lowWord (word : BitVec 64) : BitVec 32 := word.setWidth 32

def highWord (word : BitVec 64) : BitVec 32 := (word.sshiftRight 32).setWidth 32

@[simp] theorem lowWord_packWord (low high : BitVec 32) : lowWord (packWord low high) = low := by
  apply BitVec.eq_of_getLsbD_eq
  intro i inside
  simp [lowWord, packWord, inside]

theorem getLsbD_highWord (word : BitVec 64) {i : Nat} (inside : i < 32) :
    (highWord word).getLsbD i = word.getLsbD (32 + i) := by
  have within : 32 + i < 64 := by omega
  have half : ¬64 ≤ i := by omega
  rw [highWord, BitVec.getLsbD_setWidth, BitVec.getLsbD_sshiftRight, if_pos within]
  simp [inside, half]

@[simp] theorem highWord_packWord (low high : BitVec 32) :
    highWord (packWord low high) = high := by
  apply BitVec.eq_of_getLsbD_eq
  intro i inside
  have within : 32 + i < 64 := by omega
  rw [getLsbD_highWord _ inside]
  simp [packWord, inside, within]

/-- A packed word is its two halves. -/
theorem packWord_ext {w w' : BitVec 64} (low : lowWord w = lowWord w')
    (high : highWord w = highWord w') : w = w' := by
  apply BitVec.eq_of_getLsbD_eq
  intro i within
  by_cases inside : i < 32
  · have bit := congrArg (fun v => v.getLsbD i) low
    simpa [lowWord, inside] using bit
  · have bit := congrArg (fun v => v.getLsbD (i - 32)) high
    have back : 32 + (i - 32) = i := by omega
    simpa only [getLsbD_highWord _ (show i - 32 < 32 by omega), back] using bit

end Mimi.Lib
