/-
Module: Mimi.Bytecode.Value
Purpose: The runtime values of the bytecode machine, their truth and their equality.
Trusted boundary: human-reviewed translation of `src/interp/value.rs`; the values that the modelled
  instructions only pass around (closures, references, futures, actors) are one constructor
-/
import Mimi.Mir.Receipts

namespace Mimi.Bytecode

open Mimi.Core Mimi.Mir

/-- Floating-point numbers are their bits; the fields of a record are in no particular order. -/
inductive Value where
  | int (value : Int)
  | float (bits : Nat)
  | bool (value : Bool)
  | string (value : String)
  | unit
  | list (items : List Value)
  | set (items : List Value)
  | tuple (items : List Value)
  | variant (tag : String) (payload : List Value)
  /-- A variant of the canonical path, with its semantic identity. -/
  | canonicalVariant (nominal : NominalTypeId) (variant : NodeId) (tag : String) (payload : List Value)
  | canonicalMapRoot (root : Nat)
  | record (name : Option String) (fields : List (String × Value))
  | newtype (name : String) (inner : Value)
  | other (id : Nat)
deriving Repr

namespace Value

def isMapRoot : Value → Bool
  | canonicalMapRoot _ => true
  | _ => false

/-- The tag, the payload and the semantic identity of a variant. -/
def variantParts : Value → Option (String × List Value × Option (NominalTypeId × NodeId))
  | variant tag payload => some (tag, payload, none)
  | canonicalVariant nominal id tag payload => some (tag, payload, some (nominal, id))
  | _ => none

end Value

/-! ### Floating-point numbers of 64 bits -/

def floatIsNan (bits : Nat) : Bool := 2047 * 2 ^ 52 < bits % 2 ^ 63

def floatIsZero (bits : Nat) : Bool := bits % 2 ^ 63 = 0

def floatsEqual (a b : Nat) : Bool :=
  !floatIsNan a && !floatIsNan b && (a = b || (floatIsZero a && floatIsZero b))

/-- The bits of the number nearest to a natural number; ties go to the even one. -/
def floatOfNat (n : Nat) : Nat :=
  if n = 0 then 0
  else
    let e := Nat.log2 n
    let significand :=
      if e ≤ 52 then n * 2 ^ (52 - e)
      else
        let unit := 2 ^ (e - 52)
        let q := n / unit
        let r := n % unit
        if unit < 2 * r ∨ (unit = 2 * r ∧ q % 2 = 1) then q + 1 else q
    (e + 1022) * 2 ^ 52 + significand

/-- `as f64`. -/
def floatOfInt (n : Int) : Nat :=
  if n < 0 then 2 ^ 63 + floatOfNat n.natAbs else floatOfNat n.natAbs

/-! ### Truth and equality -/

def is_truthy : Value → Bool
  | .bool b => b
  | .int n => n ≠ 0
  | .float x => !floatIsZero x && !floatIsNan x
  | .string s => !s.isEmpty
  | .list l => !l.isEmpty
  | .set s => !s.isEmpty
  | .unit => false
  | .newtype _ inner => is_truthy inner
  | _ => true

/-- The number counts the levels that are left before two values are taken to differ. -/
def values_equal_depth : Nat → Value → Value → Bool
  | 0, _, _ => false
  | levels + 1, a, b =>
      let all (xs ys : List Value) : Bool :=
        xs.length = ys.length && (xs.zip ys).all fun pair => values_equal_depth levels pair.1 pair.2
      match a, b with
      | .int a, .int b => a = b
      | .int a, .float b | .float b, .int a => floatsEqual (floatOfInt a) b
      | .float a, .float b => floatsEqual a b
      | .bool a, .bool b => a = b
      | .string a, .string b => a = b
      | .unit, .unit => true
      | .list a, .list b => all a b
      | .set a, .set b =>
          a.length = b.length && a.all fun x => b.any fun y => values_equal_depth levels x y
      | .tuple a, .tuple b => all a b
      | .variant a as, .variant b bs => a = b && all as bs
      | .canonicalVariant an ai a as, .canonicalVariant bn bi b bs =>
          an = bn && ai = bi && a = b && all as bs
      | .canonicalMapRoot a, .canonicalMapRoot b => a = b
      | .record _ a, .record _ b =>
          a.length = b.length && a.all fun field =>
            (b.find? fun other => other.1 = field.1).any fun other =>
              values_equal_depth levels field.2 other.2
      | .newtype _ a, .newtype _ b => values_equal_depth levels a b
      | _, _ => false

def values_equal (a b : Value) : Bool := values_equal_depth 257 a b

end Mimi.Bytecode
