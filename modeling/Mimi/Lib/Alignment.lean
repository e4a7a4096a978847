/-
Module: Mimi.Lib.Alignment
Purpose: What a list collects of the entries of another one stands at the positions of these entries
  exactly when the entries that are collected come before all others.
Trusted boundary: none
-/
import Mathlib

namespace Mimi.Lib

variable {α β : Type}

/-- The entries that give something come before those that do not. -/
def Leading (f : α → Option β) (l : List α) : Prop :=
  ∀ (i j : Nat) (b : β), i ≤ j → (l[j]?).bind f = some b → ∃ a, (l[i]?).bind f = some a

/-- What has been collected stands where the entries stand that it comes from. -/
def Aligned (f : α → Option β) (l : List α) (collected : List β) : Prop :=
  ∀ (k : Nat) (b : β), collected[k]? = some b ↔ (l[k]?).bind f = some b

theorem leading_nil (f : α → Option β) : Leading f [] := by
  intro i j b _ eq
  cases eq

variable {f : α → Option β}

theorem leading_cons_of_some {x : α} {b : β} (here : f x = some b) (l : List α) :
    Leading f (x :: l) ↔ Leading f l := by
  constructor
  · intro leading i j c le eq
    obtain ⟨a, found⟩ := leading (i + 1) (j + 1) c (Nat.succ_le_succ le) eq
    exact ⟨a, found⟩
  · intro leading i j c le eq
    cases i with
    | zero => exact ⟨b, here⟩
    | succ i =>
        cases j with
        | zero => cases le
        | succ j => exact leading i j c (Nat.le_of_succ_le_succ le) eq

/-- After an entry that gives nothing there is none that does. -/
theorem leading_cons_of_none {x : α} (here : f x = none) (l : List α) :
    Leading f (x :: l) ↔ l.filterMap f = [] := by
  rw [List.filterMap_eq_nil_iff]
  constructor
  · intro leading y member
    obtain ⟨j, at_⟩ := List.mem_iff_getElem?.mp member
    cases gives : f y with
    | none => rfl
    | some b =>
        have found : ((x :: l)[j + 1]?).bind f = some b := by
          rw [List.getElem?_cons_succ, at_]
          exact gives
        obtain ⟨a, first⟩ := leading 0 (j + 1) b (Nat.zero_le _) found
        exact absurd (here.symm.trans first) nofun
  · intro rest i j b _ eq
    cases j with
    | zero => exact absurd (here.symm.trans eq) nofun
    | succ j =>
        obtain ⟨y, at_, gives⟩ := Option.bind_eq_some_iff.mp eq
        exact absurd ((rest y (List.mem_of_getElem? at_)).symm.trans gives) nofun

theorem aligned_nil (f : α → Option β) (l : List α) : Aligned f l [] ↔ l.filterMap f = [] := by
  rw [List.filterMap_eq_nil_iff]
  constructor
  · intro aligned x member
    obtain ⟨k, at_⟩ := List.mem_iff_getElem?.mp member
    cases gives : f x with
    | none => rfl
    | some b =>
        have found : (l[k]?).bind f = some b := by
          rw [at_]
          exact gives
        exact absurd ((aligned k b).mpr found) nofun
  · intro none_ k b
    refine ⟨nofun, fun eq => ?_⟩
    obtain ⟨x, at_, gives⟩ := Option.bind_eq_some_iff.mp eq
    exact absurd ((none_ x (List.mem_of_getElem? at_)).symm.trans gives) nofun

/-- The entries are collected in their order; they keep their positions when nothing is skipped before
them. -/
theorem aligned_iff_leading (f : α → Option β) (l : List α) :
    Aligned f l (l.filterMap f) ↔ Leading f l := by
  induction l with
  | nil => exact ⟨fun _ => leading_nil f, fun _ => (aligned_nil f []).mpr rfl⟩
  | cons x l ih =>
      cases here : f x with
      | none =>
          rw [List.filterMap_cons_none here, leading_cons_of_none here]
          constructor
          · intro aligned
            cases collected : l.filterMap f with
            | nil => rfl
            | cons b rest =>
                -- the first one would stand at the position of an entry that gives nothing
                have first := (aligned 0 b).mp (by rw [collected]; rfl)
                exact absurd (here.symm.trans first) nofun
          · intro none_
            rw [none_, aligned_nil, List.filterMap_cons_none here, none_]
      | some b =>
          rw [List.filterMap_cons_some here, leading_cons_of_some here, ← ih]
          constructor
          · intro aligned k c
            exact aligned (k + 1) c
          · intro aligned k c
            cases k with
            | zero => exact Eq.to_iff (congrArg (fun given => given = some c) here.symm)
            | succ k => exact aligned k c

variable {l : List α}

/-- A list that is aligned has been collected. -/
theorem Aligned.eq_filterMap {collected : List β} (aligned : Aligned f l collected) :
    collected = l.filterMap f := by
  have leading : Leading f l := by
    intro i j b le eq
    obtain ⟨inside, -⟩ := List.getElem?_eq_some_iff.mp ((aligned j b).mpr eq)
    exact ⟨_, (aligned i _).mp (List.getElem?_eq_getElem (le.trans_lt inside))⟩
  have collects := (aligned_iff_leading f l).mpr leading
  exact List.ext_getElem? fun k => Option.ext fun b => (aligned k b).trans (collects k b).symm

theorem length_filterMap_le {g : α → Option β} (less : ∀ x ∈ l, ∀ b, f x = some b → g x = some b) :
    (l.filterMap f).length ≤ (l.filterMap g).length := by
  induction l with
  | nil => exact Nat.le_refl _
  | cons x l ih =>
      have rest := ih fun y member => less y (List.mem_cons_of_mem _ member)
      cases gives : f x with
      | none =>
          rw [List.filterMap_cons_none gives]
          exact rest.trans ((List.sublist_cons_self x l).filterMap g).length_le
      | some b =>
          rw [List.filterMap_cons_some gives, List.filterMap_cons_some (less x List.mem_cons_self b gives)]
          exact Nat.succ_le_succ rest

/-- What gives less collects the same only if it gives the same. -/
theorem filterMap_eq_iff {g : α → Option β} (less : ∀ x ∈ l, ∀ b, f x = some b → g x = some b) :
    l.filterMap f = l.filterMap g ↔ ∀ x ∈ l, f x = g x := by
  refine ⟨fun same => ?_, List.filterMap_congr⟩
  induction l with
  | nil => exact List.forall_mem_nil _
  | cons x l ih =>
      have less' : ∀ y ∈ l, ∀ b, f y = some b → g y = some b := fun y member => less y (List.mem_cons_of_mem _ member)
      cases gives : f x with
      | some b =>
          have gives' := less x List.mem_cons_self b gives
          rw [List.filterMap_cons_some gives, List.filterMap_cons_some gives', List.cons.injEq] at same
          exact List.forall_mem_cons.mpr ⟨gives.trans gives'.symm, ih less' same.2⟩
      | none =>
          rw [List.filterMap_cons_none gives] at same
          cases gives' : g x with
          | none =>
              rw [List.filterMap_cons_none gives'] at same
              exact List.forall_mem_cons.mpr ⟨gives.trans gives'.symm, ih less' same⟩
          | some b =>
              have shorter := length_filterMap_le less'
              rw [same, List.filterMap_cons_some gives', List.length_cons] at shorter
              omega

/-- When every entry gives something, what is collected stands where the entries stand. -/
theorem getElem?_filterMap_of_isSome
    (all : ∀ a ∈ l, (f a).isSome = true) (k : Nat) : (l.filterMap f)[k]? = (l[k]?).bind f := by
  induction l generalizing k with
  | nil => rfl
  | cons a l ih =>
      obtain ⟨b, gives⟩ := Option.isSome_iff_exists.mp (all a List.mem_cons_self)
      rw [List.filterMap_cons_some gives]
      cases k with
      | zero => exact gives.symm
      | succ k => exact ih (fun a member => all a (List.mem_cons_of_mem _ member)) k

end Mimi.Lib
