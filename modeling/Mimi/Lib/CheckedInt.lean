/-
Module: Mimi.Lib.CheckedInt
Purpose: Checked arithmetic on signed machine integers: an operation has no result when the exact result does not
  fit, or when it divides by zero.
Trusted boundary: none
-/
import Mathlib

namespace Mimi.Lib

/-- An integer fits a signed number of bits. -/
def Fits (bits : Nat) (v : Int) : Prop := -(2 ^ (bits - 1) : Int) ≤ v ∧ v < 2 ^ (bits - 1)

instance (bits : Nat) (v : Int) : Decidable (Fits bits v) := inferInstanceAs (Decidable (_ ∧ _))

/-- The exact result, if it fits. -/
def checked (bits : Nat) (v : Int) : Option Int := if Fits bits v then some v else none

def checked_neg (bits : Nat) (a : Int) : Option Int := checked bits (-a)

def checked_add (bits : Nat) (a b : Int) : Option Int := checked bits (a + b)

def checked_sub (bits : Nat) (a b : Int) : Option Int := checked bits (a - b)

def checked_mul (bits : Nat) (a b : Int) : Option Int := checked bits (a * b)

/-- Division rounds toward zero. -/
def checked_div (bits : Nat) (a b : Int) : Option Int :=
  if b = 0 then none else checked bits (a.tdiv b)

/-- The remainder has the sign of the dividend; it has no result where the quotient does not fit. -/
def checked_rem (bits : Nat) (a b : Int) : Option Int :=
  if b = 0 then none else (checked bits (a.tdiv b)).map fun _ => a.tmod b

end Mimi.Lib
