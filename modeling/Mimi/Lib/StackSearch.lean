/-
Module: Mimi.Lib.StackSearch
Purpose: The nodes that can be reached from a node, found with a stack of nodes that are still to be looked
  at.  The search returns, and finds exactly what can be reached.
Trusted boundary: none
-/
import Mimi.Lib.SortedMap

namespace Mimi.Lib.StackSearch

open Relation (ReflTransGen)

variable {α : Type} [DecidableEq α] [LT α] [DecidableLT α]

/-- The search; `next` gives what goes on top of the stack behind a node. -/
def search (next : α → List α) : Nat → List α → SortedSet α → Option (SortedSet α)
  | 0, _, _ => none
  | _ + 1, [], found => some found
  | fuel + 1, v :: pending, found =>
      if v ∈ found then search next fuel pending found
      else search next fuel (next v ++ pending) (found.insert v)

variable {next : α → List α}

/-- A bound on the nodes that are still to be taken from the stack. -/
def remaining (next : α → List α) (nodes : Finset α) (pending : List α) (found : SortedSet α) : Nat :=
  pending.length + ∑ v ∈ nodes.filter (· ∉ found), (next v).length

variable {pending : List α}

/-- A node that is found first no longer counts. -/
theorem remaining_insert {nodes : Finset α} {v : α} {found : SortedSet α} (new : v ∉ found)
    (within : next v ≠ [] → v ∈ nodes) :
    remaining next nodes (next v ++ pending) (found.insert v) < remaining next nodes (v :: pending) found := by
  have split : (nodes.filter (· ∉ found.insert v)) = (nodes.filter (· ∉ found)).erase v := by
    ext w
    simp only [Finset.mem_filter, Finset.mem_erase, SortedSet.mem_insert, not_or]
    tauto
  have counted : (next v).length + ∑ w ∈ (nodes.filter (· ∉ found)).erase v, (next w).length ≤
      ∑ w ∈ nodes.filter (· ∉ found), (next w).length := by
    by_cases leaf : next v = []
    · rw [leaf, List.length_nil, Nat.zero_add]
      exact Finset.sum_le_sum_of_subset (Finset.erase_subset _ _)
    · have member : v ∈ nodes.filter (· ∉ found) := Finset.mem_filter.mpr ⟨within leaf, new⟩
      exact (Finset.add_sum_erase _ (fun w => (next w).length) member).le
  rw [remaining, remaining, split, List.length_append, List.length_cons]
  omega

/-- With enough fuel, the search returns. -/
theorem search_returns (nodes : Finset α) (within : ∀ v, next v ≠ [] → v ∈ nodes) {fuel : Nat}
    {found : SortedSet α} (enough : remaining next nodes pending found < fuel) :
    ∃ result, search next fuel pending found = some result := by
  induction fuel generalizing pending found with
  | zero => cases enough
  | succ fuel ih =>
      cases pending with
      | nil => exact ⟨found, rfl⟩
      | cons v pending =>
          rw [search]
          by_cases old : v ∈ found
          · rw [if_pos old]
            refine ih ?_
            rw [remaining, List.length_cons] at enough
            rw [remaining]
            omega
          · rw [if_neg old]
            exact ih ((remaining_insert old (within v)).trans_le (Nat.le_of_lt_succ enough))

/-- What holds between rounds: the search has found what can be reached, and where it has been it has found or
still looks at what comes next. -/
structure Searching (next : α → List α) (start : α) (pending : List α) (found : SortedSet α) : Prop where
  started : start ∈ found ∨ start ∈ pending
  reaches_pending : ∀ v ∈ pending, ReflTransGen (fun v w => w ∈ next v) start v
  reaches_found : ∀ v ∈ found, ReflTransGen (fun v w => w ∈ next v) start v
  closed : ∀ v ∈ found, ∀ w ∈ next v, w ∈ found ∨ w ∈ pending

omit [DecidableEq α] [LT α] [DecidableLT α] in
theorem Searching.skip {start v : α} {found : SortedSet α}
    (now : Searching next start (v :: pending) found) (old : v ∈ found) : Searching next start pending found := by
  have later {w : α} (there : w ∈ found ∨ w ∈ v :: pending) : w ∈ found ∨ w ∈ pending := by
    rcases there with inside | queued
    · exact .inl inside
    · rcases List.mem_cons.mp queued with rfl | queued
      · exact .inl old
      · exact .inr queued
  exact ⟨later now.started, fun w member => now.reaches_pending w (List.mem_cons_of_mem v member), now.reaches_found,
    fun w inside u edge => later (now.closed w inside u edge)⟩

theorem Searching.push {start v : α} {found : SortedSet α} (now : Searching next start (v :: pending) found) :
    Searching next start (next v ++ pending) (found.insert v) := by
  have here := now.reaches_pending v List.mem_cons_self
  have later {w : α} (there : w ∈ found ∨ w ∈ v :: pending) : w ∈ found.insert v ∨ w ∈ next v ++ pending := by
    rcases there with inside | queued
    · exact .inl (SortedSet.mem_insert.mpr (.inr inside))
    · rcases List.mem_cons.mp queued with rfl | queued
      · exact .inl (SortedSet.mem_insert.mpr (.inl rfl))
      · exact .inr (List.mem_append_right _ queued)
  refine ⟨later now.started, fun w member => ?_, fun w member => ?_, fun w member u edge => ?_⟩
  · rcases List.mem_append.mp member with edge | queued
    · exact here.tail edge
    · exact now.reaches_pending w (List.mem_cons_of_mem v queued)
  · rcases SortedSet.mem_insert.mp member with rfl | inside
    · exact here
    · exact now.reaches_found w inside
  · rcases SortedSet.mem_insert.mp member with rfl | inside
    · exact .inr (List.mem_append_left _ edge)
    · exact later (now.closed w inside u edge)

/-- What the search finds is what can be reached. -/
theorem search_exact {fuel : Nat} {start : α} {found result : SortedSet α}
    (now : Searching next start pending found) (ended : search next fuel pending found = some result) (v : α) :
    v ∈ result ↔ ReflTransGen (fun v w => w ∈ next v) start v := by
  induction fuel generalizing pending found with
  | zero => cases ended
  | succ fuel ih =>
      cases pending with
      | nil =>
          obtain rfl := Option.some.inj ended
          clear ih
          refine ⟨now.reaches_found v, fun path => ?_⟩
          induction path with
          | refl => exact now.started.resolve_right List.not_mem_nil
          | tail _ edge inside => exact (now.closed _ inside _ edge).resolve_right List.not_mem_nil
      | cons w pending =>
          rw [search] at ended
          by_cases old : w ∈ found
          · rw [if_pos old] at ended
            exact ih (now.skip old) ended
          · rw [if_neg old] at ended
            exact ih now.push ended

theorem search_sorted [IsStrictTotalOrder α (· < ·)] {fuel : Nat} {found result : SortedSet α}
    (sorted : found.Sorted) (ended : search next fuel pending found = some result) : result.Sorted := by
  induction fuel generalizing pending found with
  | zero => cases ended
  | succ fuel ih =>
      cases pending with
      | nil => exact Option.some.inj ended ▸ sorted
      | cons v pending =>
          rw [search] at ended
          split_ifs at ended
          · exact ih sorted ended
          · exact ih (sorted.insert v) ended

end Mimi.Lib.StackSearch
