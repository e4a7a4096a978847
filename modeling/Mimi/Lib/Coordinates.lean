/-
Module: Mimi.Lib.Coordinates
Purpose: Coordinates in a text whose items have a width of their own in each coordinate: the extent of a piece
  of the text, the loop that walks a text in one coordinate and counts in another, and cutting a text at a
  place of a coordinate.
Trusted boundary: none
-/
import Mathlib

namespace Mimi.Lib

variable {α : Type} {width from_ to_ : α → Nat}

/-- How far a text reaches in a coordinate. -/
def extent (width : α → Nat) (text : List α) : Nat := (text.map width).sum

@[simp] theorem extent_nil : extent width [] = 0 := rfl

@[simp] theorem extent_cons (c : α) (text : List α) :
    extent width (c :: text) = width c + extent width text := List.sum_cons

@[simp] theorem extent_append (before after : List α) :
    extent width (before ++ after) = extent width before + extent width after := by
  rw [extent, List.map_append, List.sum_append]
  rfl

theorem extent_mono {before text : List α} (initial : before <+: text) :
    extent width before ≤ extent width text := by
  obtain ⟨after, rfl⟩ := initial
  rw [extent_append]
  exact Nat.le_add_right _ _

/-! ### From one coordinate to another -/

/-- Walk a text up to a place of one coordinate and count in another. -/
def convert (from_ to_ : α → Nat) (limit : Nat) : List α → Nat → Nat → Nat
  | [], _, count => count
  | c :: text, seen, count =>
      if limit ≤ seen then count else convert from_ to_ limit text (seen + from_ c) (count + to_ c)

/-- The counters may start at zero. -/
theorem convert_counters (limit : Nat) (text : List α) (seen count : Nat) :
    convert from_ to_ limit text seen count = count + convert from_ to_ (limit - seen) text 0 0 := by
  induction text generalizing limit seen count with
  | nil => rfl
  | cons c text ih =>
      rw [convert, convert]
      by_cases stops : limit ≤ seen
      · rw [if_pos stops, if_pos (Nat.sub_eq_zero_of_le stops).le, Nat.add_zero]
      · rw [if_neg stops, if_neg fun none_ => stops (Nat.le_of_sub_eq_zero (Nat.le_zero.mp none_)), ih,
          ih (limit - seen) (0 + from_ c), Nat.zero_add, Nat.zero_add, Nat.sub_add_eq, Nat.add_assoc]

theorem convert_cons (limit : Nat) (c : α) (text : List α) :
    convert from_ to_ limit (c :: text) 0 0 =
      if limit = 0 then 0 else to_ c + convert from_ to_ (limit - from_ c) text 0 0 := by
  rw [convert, convert_counters]
  simp only [Nat.le_zero, Nat.zero_add]

/-- The place behind a piece of the text is found in the other coordinate. -/
theorem convert_extent (positive : ∀ c, 0 < from_ c) (before after : List α) :
    convert from_ to_ (extent from_ before) (before ++ after) 0 0 = extent to_ before := by
  induction before with
  | nil =>
      cases after with
      | nil => rfl
      | cons c after => rfl
  | cons c before ih =>
      have moved : extent from_ (c :: before) ≠ 0 := by
        rw [extent_cons]
        exact (Nat.add_pos_left (positive c) _).ne'
      rw [List.cons_append, convert_cons, if_neg moved, extent_cons, Nat.add_sub_cancel_left, ih, extent_cons]

theorem convert_mono {limit limit' : Nat} (le : limit ≤ limit') (text : List α) :
    convert from_ to_ limit text 0 0 ≤ convert from_ to_ limit' text 0 0 := by
  induction text generalizing limit limit' with
  | nil => exact le_rfl
  | cons c text ih =>
      rw [convert_cons, convert_cons]
      by_cases start : limit = 0
      · rw [if_pos start]
        exact Nat.zero_le _
      · rw [if_neg start, if_neg (Nat.pos_of_ne_zero start |>.trans_le le).ne']
        exact Nat.add_le_add_left (ih (Nat.sub_le_sub_right le _)) _

theorem convert_le (limit : Nat) (text : List α) : convert from_ to_ limit text 0 0 ≤ extent to_ text := by
  induction text generalizing limit with
  | nil => exact le_rfl
  | cons c text ih =>
      rw [convert_cons, extent_cons]
      split
      · exact Nat.zero_le _
      · exact Nat.add_le_add_left (ih _) _

/-! ### Cutting a text -/

/-- The two sides of a place of a coordinate, unless the place is inside an item. -/
def cutAt (width : α → Nat) : Nat → List α → Option (List α × List α)
  | 0, text => some ([], text)
  | _ + 1, [] => none
  | n + 1, c :: text =>
      if width c ≤ n + 1 then
        (cutAt width (n + 1 - width c) text).map fun cut => (c :: cut.1, cut.2)
      else none

theorem cutAt_extent (positive : ∀ c, 0 < width c) (before after : List α) :
    cutAt width (extent width before) (before ++ after) = some (before, after) := by
  induction before with
  | nil =>
      rw [extent_nil, cutAt]
      rfl
  | cons c before ih =>
      obtain ⟨n, moved⟩ := Nat.exists_eq_succ_of_ne_zero (Nat.add_pos_left (positive c)
        (extent width before)).ne'
      have fits : width c ≤ n + 1 := (Nat.le_add_right _ _).trans moved.le
      have left_ : n + 1 - width c = extent width before := by omega
      rw [extent_cons, List.cons_append, moved, Nat.succ_eq_add_one, cutAt, if_pos fits, left_, ih]
      rfl

/-- The piece between two places. -/
protected def slice (width : α → Nat) (text : List α) (start stop : Nat) : Option (List α) :=
  if start ≤ stop then
    (cutAt width start text).bind fun cut => (cutAt width (stop - start) cut.2).map Prod.fst
  else none

theorem slice_extent (positive : ∀ c, 0 < width c) (before piece after : List α) :
    Lib.slice width (before ++ piece ++ after) (extent width before) (extent width (before ++ piece)) = some piece := by
  have ordered : extent width before ≤ extent width (before ++ piece) := extent_mono ⟨piece, rfl⟩
  rw [Lib.slice, if_pos ordered, List.append_assoc, cutAt_extent positive, Option.bind_some, extent_append,
    Nat.add_sub_cancel_left, cutAt_extent positive]
  rfl

end Mimi.Lib
