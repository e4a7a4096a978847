/-
Module: Mimi.Lib.BitGroups
Purpose: Numbers as groups of bits of a width, most significant bit first, and lists cut into chunks.  One
  string of bits is read as groups of several widths.
Trusted boundary: none
-/
import Mathlib

namespace Mimi.Lib

/-! ### Bits of a number -/

/-- The low bits of a number, the most significant first. -/
def bitsOf : Nat → Nat → List Bool
  | 0, _ => []
  | width + 1, n => n.testBit width :: bitsOf width n

@[simp] theorem length_bitsOf (width n : Nat) : (bitsOf width n).length = width := by
  induction width with
  | zero => rfl
  | succ width ih => exact congrArg (· + 1) ih

theorem bitsOf_congr {width n m : Nat} (same : ∀ i < width, n.testBit i = m.testBit i) :
    bitsOf width n = bitsOf width m := by
  induction width with
  | zero => rfl
  | succ width ih =>
      rw [bitsOf, bitsOf, same width (Nat.lt_succ_self width), ih fun i below => same i (Nat.lt_succ_of_lt below)]

theorem testBit_of_bitsOf_eq {width n m : Nat} (same : bitsOf width n = bitsOf width m) :
    ∀ i < width, n.testBit i = m.testBit i := by
  induction width with
  | zero => exact fun i below => absurd below (Nat.not_lt_zero i)
  | succ width ih =>
      obtain ⟨top, rest⟩ := List.cons.inj same
      intro i below
      rcases Nat.lt_succ_iff_lt_or_eq.mp below with below | rfl
      · exact ih rest i below
      · exact top

theorem bitsOf_injective {width n m : Nat} (fits : n < 2 ^ width) (fits' : m < 2 ^ width)
    (same : bitsOf width n = bitsOf width m) : n = m := by
  refine Nat.eq_of_testBit_eq fun i => ?_
  rcases Nat.lt_or_ge i width with below | past
  · exact testBit_of_bitsOf_eq same i below
  · have wide : 2 ^ width ≤ 2 ^ i := Nat.pow_le_pow_right Nat.two_pos past
    rw [Nat.testBit_lt_two_pow (fits.trans_le wide), Nat.testBit_lt_two_pow (fits'.trans_le wide)]

theorem bitsOf_mod (width n : Nat) : bitsOf width (n % 2 ^ width) = bitsOf width n := by
  refine bitsOf_congr fun i below => ?_
  rw [Nat.testBit_mod_two_pow, decide_eq_true below, Bool.true_and]

/-- The high bits stand in front of the low ones. -/
theorem bitsOf_add (high low n : Nat) : bitsOf (high + low) n = bitsOf high (n / 2 ^ low) ++ bitsOf low n := by
  induction high with
  | zero => rw [Nat.zero_add, bitsOf, List.nil_append]
  | succ high ih =>
      rw [Nat.succ_add, bitsOf, ih, bitsOf, Nat.testBit_div_two_pow, List.cons_append]

/-- A number put behind another. -/
theorem bitsOf_shift (high low n m : Nat) (fits : m < 2 ^ low) :
    bitsOf (high + low) (n * 2 ^ low + m) = bitsOf high n ++ bitsOf low m := by
  have upper : (n * 2 ^ low + m) / 2 ^ low = n := by
    rw [Nat.add_comm, Nat.add_mul_div_right _ _ (Nat.two_pow_pos low), Nat.div_eq_of_lt fits, Nat.zero_add]
  rw [bitsOf_add, upper, ← bitsOf_mod low (n * 2 ^ low + m), Nat.mul_add_mod_self_right, bitsOf_mod]

theorem bitsOf_zero (width : Nat) : bitsOf width 0 = List.replicate width false := by
  induction width with
  | zero => rfl
  | succ width ih => rw [bitsOf, ih, Nat.zero_testBit, List.replicate_succ]

/-! ### Groups -/

/-- The bits of numbers of a width. -/
def groupBits (width : Nat) (values : List Nat) : List Bool := values.flatMap (bitsOf width)

@[simp] theorem groupBits_nil (width : Nat) : groupBits width [] = [] := rfl

theorem groupBits_cons (width n : Nat) (values : List Nat) :
    groupBits width (n :: values) = bitsOf width n ++ groupBits width values := List.flatMap_cons

theorem groupBits_append (width : Nat) (values values' : List Nat) :
    groupBits width (values ++ values') = groupBits width values ++ groupBits width values' :=
  List.flatMap_append

theorem length_groupBits (width : Nat) (values : List Nat) :
    (groupBits width values).length = width * values.length := by
  induction values with
  | nil => rfl
  | cons n values ih =>
      rw [groupBits_cons, List.length_append, length_bitsOf, ih, List.length_cons, Nat.mul_succ, Nat.add_comm]

theorem groupBits_injective {width : Nat} (some_ : 0 < width) {values values' : List Nat}
    (fit : ∀ n ∈ values, n < 2 ^ width) (fit' : ∀ n ∈ values', n < 2 ^ width)
    (same : groupBits width values = groupBits width values') : values = values' := by
  induction values generalizing values' with
  | nil =>
      have none_ := congrArg List.length same
      rw [length_groupBits, length_groupBits, List.length_nil, Nat.mul_zero, eq_comm, Nat.mul_eq_zero] at none_
      exact (List.length_eq_zero_iff.mp (none_.resolve_left some_.ne')).symm
  | cons n values ih =>
      cases values' with
      | nil =>
          have none_ := congrArg List.length same
          rw [length_groupBits, length_groupBits, List.length_nil, Nat.mul_zero, Nat.mul_eq_zero] at none_
          exact absurd (none_.resolve_left some_.ne') (Nat.succ_ne_zero _)
      | cons m values' =>
          rw [groupBits_cons, groupBits_cons] at same
          obtain ⟨head, tail⟩ := List.append_inj same (by rw [length_bitsOf, length_bitsOf])
          obtain ⟨fits, fit⟩ := List.forall_mem_cons.mp fit
          obtain ⟨fits', fit'⟩ := List.forall_mem_cons.mp fit'
          rw [bitsOf_injective fits fits' head, ih fit fit' tail]

/-! ### Chunks -/

variable {α : Type}

/-- The chunks of a list, all of one size but the last. -/
def chunks (size : Nat) (data : List α) : List (List α) :=
  (List.range ((data.length + (size - 1)) / size)).map fun i => (data.drop (i * size)).take size

theorem chunks_append {size : Nat} (some_ : 0 < size) (front : List α) (full : front.length = size)
    (back : List α) : chunks size (front ++ back) = front :: chunks size back := by
  have more : ((front ++ back).length + (size - 1)) / size = (back.length + (size - 1)) / size + 1 := by
    rw [List.length_append, full, Nat.add_assoc, Nat.add_comm size, Nat.add_div_right _ some_]
  have first : ((front ++ back).drop (0 * size)).take size = front := by
    rw [Nat.zero_mul, List.drop_zero, ← full, List.take_left]
  rw [chunks, more, List.range_succ_eq_map, List.map_cons, first, List.map_map]
  refine congrArg (front :: ·) (List.map_congr_left fun i _ => ?_)
  rw [Function.comp_apply, Nat.succ_mul, Nat.add_comm, ← List.drop_drop, ← full, List.drop_left]

theorem chunks_short {size : Nat} {data : List α} (some_ : data ≠ []) (short : data.length ≤ size) :
    chunks size data = [data] := by
  have positive : 0 < data.length := List.length_pos_iff.mpr some_
  have one : (data.length + (size - 1)) / size = 1 := by
    refine Nat.div_eq_of_lt_le ?_ ?_ <;> omega
  rw [chunks, one]
  show [((data.drop (0 * size)).take size)] = _
  rw [Nat.zero_mul, List.drop_zero, List.take_of_length_le short]

end Mimi.Lib
