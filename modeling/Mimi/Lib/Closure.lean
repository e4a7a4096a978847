/-
Module: Mimi.Lib.Closure
Purpose: The closure of a list under a successor function, computed on a vector that grows behind a
  cursor.  It holds what is reachable from its first elements, and nothing else.
Trusted boundary: none
-/
import Mathlib

namespace Mimi.Lib

variable {α : Type} [DecidableEq α]

/-- Append the elements that are not there yet. -/
def appendNew (l : List α) (more : List α) : List α :=
  more.foldl (fun l x => if x ∈ l then l else l ++ [x]) l

theorem mem_appendNew {l more : List α} {x : α} : x ∈ appendNew l more ↔ x ∈ l ∨ x ∈ more := by
  induction more generalizing l with
  | nil => simp [appendNew]
  | cons y more ih =>
      rw [appendNew, List.foldl_cons]
      refine ih.trans ?_
      split_ifs with there
      · rw [List.mem_cons]
        constructor
        · rintro (old | new)
          · exact .inl old
          · exact .inr (.inr new)
        · rintro (old | rfl | new)
          · exact .inl old
          · exact .inl there
          · exact .inr new
      · rw [List.mem_append, List.mem_singleton, List.mem_cons, or_assoc]

theorem prefix_appendNew (l more : List α) : l <+: appendNew l more := by
  induction more generalizing l with
  | nil => exact List.prefix_refl l
  | cons y more ih =>
      rw [appendNew, List.foldl_cons]
      split_ifs
      · exact ih l
      · exact (List.prefix_append l [y]).trans (ih _)

theorem nodup_appendNew {l : List α} (distinct : l.Nodup) (more : List α) :
    (appendNew l more).Nodup := by
  induction more generalizing l with
  | nil => exact distinct
  | cons y more ih =>
      rw [appendNew, List.foldl_cons]
      split_ifs with there
      · exact ih distinct
      · refine ih (List.nodup_append.mpr ⟨distinct, List.nodup_singleton y, ?_⟩)
        intro x member z last same
        rw [List.mem_singleton] at last
        exact there (last ▸ same ▸ member)

variable (next : α → List α)

/-- Append the successors of the element at the cursor, and go on with the element behind it. -/
def closeFrom : Nat → Nat → List α → List α
  | 0, _, l => l
  | fuel + 1, cursor, l =>
      match l[cursor]? with
      | none => l
      | some x => closeFrom fuel (cursor + 1) (appendNew l (next x))

/-- One step of a successor function. -/
def Successor (x y : α) : Prop := y ∈ next x

/-- What a growing vector keeps: its elements are distinct and reachable, and the successors of those
before the cursor are in it. -/
structure Growing (start : α) (cursor : Nat) (l : List α) : Prop where
  distinct : l.Nodup
  started : start ∈ l
  reached : ∀ x ∈ l, Relation.ReflTransGen (Successor next) start x
  expanded : ∀ i < cursor, ∀ x, l[i]? = some x → ∀ y ∈ next x, y ∈ l

variable {next}

omit [DecidableEq α] in
theorem growing_start (start : α) : Growing next start 0 [start] where
  distinct := List.nodup_singleton start
  started := List.mem_singleton_self start
  reached x member := by
    rw [List.mem_singleton.mp member]
  expanded i below := absurd below (Nat.not_lt_zero i)

theorem Growing.step {start : α} {cursor : Nat} {l : List α} (grows : Growing next start cursor l)
    {x : α} (here : l[cursor]? = some x) :
    Growing next start (cursor + 1) (appendNew l (next x)) where
  distinct := nodup_appendNew grows.distinct _
  started := mem_appendNew.mpr (.inl grows.started)
  reached y member := by
    rcases mem_appendNew.mp member with old | new
    · exact grows.reached y old
    · exact (grows.reached x (List.mem_of_getElem? here)).tail new
  expanded i below z place y successor := by
    have inside : i < l.length := by
      have bound := (List.getElem?_eq_some_iff.mp here).1
      omega
    have same : l[i]? = some z := by
      obtain ⟨added, eq⟩ := prefix_appendNew l (next x)
      rw [← place, ← eq, List.getElem?_append_left inside]
    rcases Nat.lt_succ_iff_lt_or_eq.mp below with before | rfl
    · exact mem_appendNew.mpr (.inl (grows.expanded i before z same y successor))
    · obtain rfl := Option.some.inj (here.symm.trans same)
      exact mem_appendNew.mpr (.inr successor)

omit [DecidableEq α] in
/-- A vector that the cursor has passed is closed. -/
theorem Growing.complete {start : α} {cursor : Nat} {l : List α}
    (grows : Growing next start cursor l) (passed : l.length ≤ cursor) {x : α} :
    x ∈ l ↔ Relation.ReflTransGen (Successor next) start x := by
  refine ⟨grows.reached x, fun path => ?_⟩
  induction path with
  | refl => exact grows.started
  | tail _ successor ih =>
      obtain ⟨i, place⟩ := List.mem_iff_getElem?.mp ih
      have inside := (List.getElem?_eq_some_iff.mp place).1
      exact grows.expanded i (inside.trans_le passed) _ place _ successor

/-- With fuel for all elements there can be, the vector is closed. -/
theorem mem_closeFrom {start : α} {all : List α} (within : ∀ x, ∀ y ∈ next x, y ∈ all)
    {x : α} : x ∈ closeFrom next (all.length + 2) 0 [start] ↔
      Relation.ReflTransGen (Successor next) start x := by
  suffices general : ∀ fuel cursor l, Growing next start cursor l →
      (∀ y ∈ l, y = start ∨ y ∈ all) → all.length + 2 ≤ fuel + cursor →
      (x ∈ closeFrom next fuel cursor l ↔ Relation.ReflTransGen (Successor next) start x) by
    exact general _ 0 [start] (growing_start start)
      (fun y member => .inl (List.mem_singleton.mp member)) (Nat.le_refl _)
  intro fuel
  induction fuel with
  | zero =>
      intro cursor l grows inside enough
      refine grows.complete ?_
      have sub : l ⊆ start :: all := fun y member => by
        rw [List.mem_cons]
        exact inside y member
      have short := (List.subperm_of_subset grows.distinct sub).length_le
      rw [List.length_cons] at short
      omega
  | succ fuel ih =>
      intro cursor l grows inside enough
      rw [closeFrom]
      cases here : l[cursor]? with
      | none => exact grows.complete (List.getElem?_eq_none_iff.mp here)
      | some z =>
          refine ih (cursor + 1) _ (grows.step here) (fun y member => ?_) (by omega)
          rcases mem_appendNew.mp member with old | new
          · exact inside y old
          · exact .inr (within z y new)

end Mimi.Lib
