/-
Module: Mimi.Lib.ParallelMove
Purpose: Transfers between the places of a store, done one after another.  A transfer copies the value of its
  source, or takes it and leaves a hole.  When no transfer writes where another one reads or writes, a
  sequence of them acts like one parallel assignment.
Trusted boundary: none
-/
import Mathlib

namespace Mimi.Lib

structure Transfer (P : Type) where
  dst : P
  src : P
  takes : Bool
deriving DecidableEq, Repr

variable {P V : Type} [DecidableEq P] (hole : V)

/-- A transfer from a place to itself does nothing. -/
def Transfer.apply (t : Transfer P) (store : P → V) : P → V :=
  if t.dst = t.src then store
  else Function.update (if t.takes then Function.update store t.src hole else store) t.dst (store t.src)

def transferAll : List (Transfer P) → (P → V) → P → V
  | [], store => store
  | t :: ts, store => transferAll ts (t.apply hole store)

/-- The places that are written are distinct, and none of them is read. -/
structure Apart (ts : List (Transfer P)) : Prop where
  writes : (ts.map Transfer.dst).Nodup
  reads : ∀ t ∈ ts, ∀ u ∈ ts, t.dst ≠ u.src

/-- A source that is taken is not read again. -/
def Once (ts : List (Transfer P)) : Prop :=
  ts.Pairwise fun t u => t.src = u.src → t.takes = false

/-- The places whose values are taken. -/
def taken (ts : List (Transfer P)) : List P := (ts.filter Transfer.takes).map Transfer.src

variable {ts : List (Transfer P)}

omit [DecidableEq P] in
theorem mem_taken {p : P} :
    p ∈ taken ts ↔ ∃ t ∈ ts, t.takes = true ∧ t.src = p := by
  simp only [taken, List.mem_map, List.mem_filter, and_assoc]

omit [DecidableEq P] in
theorem Apart.tail {t : Transfer P} (apart : Apart (t :: ts)) : Apart ts where
  writes := (List.nodup_cons.mp apart.writes).2
  reads u member w member' :=
    apart.reads u (List.mem_cons_of_mem _ member) w (List.mem_cons_of_mem _ member')

namespace Transfer

variable {hole} {t : Transfer P} {store : P → V}

theorem apply_dst (apart : t.dst ≠ t.src) : t.apply hole store t.dst = store t.src := by
  rw [apply, if_neg apart]
  exact Function.update_self _ _ _

theorem apply_src (apart : t.dst ≠ t.src) :
    t.apply hole store t.src = if t.takes then hole else store t.src := by
  rw [apply, if_neg apart, Function.update_of_ne apart.symm]
  cases t.takes with
  | false => rfl
  | true => exact Function.update_self _ _ _

theorem apply_other {p : P} (notWritten : p ≠ t.dst) (notTaken : p = t.src → t.takes = false) :
    t.apply hole store p = store p := by
  rw [apply]
  by_cases same : t.dst = t.src
  · rw [if_pos same]
  · rw [if_neg same, Function.update_of_ne notWritten]
    cases takes : t.takes with
    | false => rfl
    | true =>
        refine Function.update_of_ne (fun here => ?_) _ _
        rw [notTaken here] at takes
        cases takes

end Transfer

variable {hole}

/-- What is neither written nor taken keeps its value. -/
theorem transferAll_other {store : P → V} {p : P} (notWritten : p ∉ ts.map Transfer.dst) (notTaken : p ∉ taken ts) :
    transferAll hole ts store p = store p := by
  induction ts generalizing store with
  | nil => rfl
  | cons t ts ih =>
      rw [List.map_cons, List.mem_cons, not_or] at notWritten
      have kept : p ∉ taken ts := fun later => by
        obtain ⟨u, member, takes, here⟩ := mem_taken.mp later
        exact notTaken (mem_taken.mpr ⟨u, List.mem_cons_of_mem _ member, takes, here⟩)
      have first : t.apply hole store p = store p := by
        refine Transfer.apply_other notWritten.1 fun here => ?_
        cases takes : t.takes with
        | false => rfl
        | true =>
            exact absurd (mem_taken.mpr ⟨t, List.mem_cons_self, takes, here.symm⟩) notTaken
      exact (ih notWritten.2 kept).trans first

/-- What is taken and not written ends as a hole. -/
theorem transferAll_source (apart : Apart ts) {store : P → V} {p : P}
    (source : p ∈ taken ts ∨ store p = hole) (notWritten : p ∉ ts.map Transfer.dst) :
    transferAll hole ts store p = hole := by
  induction ts generalizing store with
  | nil =>
      rcases source with impossible | empty
      · cases impossible
      · exact empty
  | cons t ts ih =>
      rw [List.map_cons, List.mem_cons, not_or] at notWritten
      have distinct : t.dst ≠ t.src := apart.reads t List.mem_cons_self t List.mem_cons_self
      refine ih apart.tail ?_ notWritten.2
      by_cases here : p = t.src
      · subst here
        rw [Transfer.apply_src distinct]
        cases takes : t.takes with
        | true => exact .inr rfl
        | false =>
            rcases source with later | empty
            · obtain ⟨u, member, takes', same⟩ := mem_taken.mp later
              rcases List.mem_cons.mp member with rfl | member
              · rw [takes] at takes'
                cases takes'
              · exact .inl (mem_taken.mpr ⟨u, member, takes', same⟩)
            · exact .inr empty
      · rw [Transfer.apply_other notWritten.1 fun same => absurd same here]
        rcases source with later | empty
        · obtain ⟨u, member, takes', same⟩ := mem_taken.mp later
          rcases List.mem_cons.mp member with rfl | member
          · exact absurd same.symm here
          · exact .inl (mem_taken.mpr ⟨u, member, takes', same⟩)
        · exact .inr empty

/-- Where nothing is read after it has been taken, each transfer brings what its source held at first. -/
theorem transferAll_dst (apart : Apart ts) (once : Once ts) {store : P → V}
    {t : Transfer P} (member : t ∈ ts) : transferAll hole ts store t.dst = store t.src := by
  induction ts generalizing store with
  | nil => cases member
  | cons u ts ih =>
      have distinct : u.dst ≠ u.src := apart.reads u List.mem_cons_self u List.mem_cons_self
      obtain ⟨first, rest⟩ := List.pairwise_cons.mp once
      rcases List.mem_cons.mp member with rfl | later
      · have notWritten : t.dst ∉ ts.map Transfer.dst := (List.nodup_cons.mp apart.writes).1
        have notTaken : t.dst ∉ taken ts := fun source => by
          obtain ⟨u, member, -, here⟩ := mem_taken.mp source
          exact apart.reads t List.mem_cons_self u (List.mem_cons_of_mem _ member) here.symm
        exact (transferAll_other notWritten notTaken).trans (Transfer.apply_dst distinct)
      · refine (ih apart.tail rest later).trans (Transfer.apply_other ?_ fun same => ?_)
        · exact (apart.reads u List.mem_cons_self t member).symm
        · exact first t later same.symm

/-- What has been taken is read as a hole. -/
theorem transferAll_again (apart : Apart ts) {store : P → V} {u : Transfer P}
    (empty : store u.src = hole) (member : u ∈ ts) : transferAll hole ts store u.dst = hole := by
  induction ts generalizing store with
  | nil => cases member
  | cons t ts ih =>
      have distinct : t.dst ≠ t.src := apart.reads t List.mem_cons_self t List.mem_cons_self
      rcases List.mem_cons.mp member with rfl | later
      · have notWritten : u.dst ∉ ts.map Transfer.dst := (List.nodup_cons.mp apart.writes).1
        have notTaken : u.dst ∉ taken ts := fun source => by
          obtain ⟨w, member, -, here⟩ := mem_taken.mp source
          exact apart.reads u List.mem_cons_self w (List.mem_cons_of_mem _ member) here.symm
        exact (transferAll_other notWritten notTaken).trans ((Transfer.apply_dst distinct).trans empty)
      · refine ih apart.tail ?_ later
        by_cases same : u.src = t.src
        · rw [same, Transfer.apply_src distinct]
          cases t.takes with
          | true => rfl
          | false => exact same ▸ empty
        · rw [Transfer.apply_other (apart.reads t List.mem_cons_self u member).symm fun here =>
            absurd here same]
          exact empty

/-- A destination receives what its source held at first, or a hole. -/
theorem transferAll_dst_or_hole (apart : Apart ts) {store : P → V} {u : Transfer P} (member : u ∈ ts) :
    transferAll hole ts store u.dst = store u.src ∨ transferAll hole ts store u.dst = hole := by
  induction ts generalizing store with
  | nil => cases member
  | cons t ts ih =>
      have distinct : t.dst ≠ t.src := apart.reads t List.mem_cons_self t List.mem_cons_self
      rcases List.mem_cons.mp member with rfl | later
      · have notWritten : u.dst ∉ ts.map Transfer.dst := (List.nodup_cons.mp apart.writes).1
        have notTaken : u.dst ∉ taken ts := fun source => by
          obtain ⟨w, member, -, here⟩ := mem_taken.mp source
          exact apart.reads u List.mem_cons_self w (List.mem_cons_of_mem _ member) here.symm
        exact .inl ((transferAll_other notWritten notTaken).trans (Transfer.apply_dst distinct))
      · by_cases empty : t.src = u.src ∧ t.takes = true
        · refine .inr (transferAll_again apart.tail ?_ later)
          rw [← empty.1, Transfer.apply_src distinct, if_pos empty.2]
        · have kept : t.apply hole store u.src = store u.src := by
            refine Transfer.apply_other (apart.reads t List.mem_cons_self u member).symm fun here => ?_
            cases takes : t.takes with
            | false => rfl
            | true => exact absurd ⟨here.symm, takes⟩ empty
          rw [← kept]
          exact ih apart.tail later

/-- A source that is read after it has been taken leaves a hole in a destination. -/
theorem transferAll_of_not_once (apart : Apart ts) {store : P → V}
    (twice : ¬Once ts) : ∃ u ∈ ts, u.src ∈ taken ts ∧ transferAll hole ts store u.dst = hole := by
  induction ts generalizing store with
  | nil => exact absurd List.Pairwise.nil twice
  | cons t ts ih =>
      have distinct : t.dst ≠ t.src := apart.reads t List.mem_cons_self t List.mem_cons_self
      by_cases first : ∀ u ∈ ts, t.src = u.src → t.takes = false
      · have rest : ¬Once ts := fun once => twice (List.pairwise_cons.mpr ⟨first, once⟩)
        obtain ⟨u, member, source, empty⟩ : ∃ u ∈ ts, u.src ∈ taken ts ∧
            transferAll hole ts (t.apply hole store) u.dst = hole := ih apart.tail rest
        obtain ⟨w, member', takes, same⟩ := mem_taken.mp source
        exact ⟨u, List.mem_cons_of_mem _ member,
          mem_taken.mpr ⟨w, List.mem_cons_of_mem _ member', takes, same⟩, empty⟩
      · push Not at first
        obtain ⟨u, member, same, takes⟩ := first
        rw [ne_eq, Bool.not_eq_false] at takes
        refine ⟨u, List.mem_cons_of_mem _ member,
          mem_taken.mpr ⟨t, List.mem_cons_self, takes, same⟩, ?_⟩
        refine transferAll_again apart.tail ?_ member
        rw [← same, Transfer.apply_src distinct, if_pos takes]

end Mimi.Lib
