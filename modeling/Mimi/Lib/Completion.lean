/-
Module: Mimi.Lib.Completion
Purpose: A keyed list completed by candidates whose keys it lacks, and the update of the first
  element that has a property.
Trusted boundary: none
-/
import Mathlib

namespace Mimi.Lib

section

variable {α κ : Type} [DecidableEq κ] (key : α → κ)

/-- The candidates whose key no entry has. -/
def added (entries candidates : List α) : List α :=
  candidates.filter fun c => decide (key c ∉ entries.map key)

/-- The entries, and after them the candidates whose key no entry has. -/
def complete (entries candidates : List α) : List α :=
  entries ++ added key entries candidates

variable {key} {entries candidates : List α}

theorem mem_added {c : α} : c ∈ added key entries candidates ↔
    c ∈ candidates ∧ key c ∉ entries.map key := by
  rw [added, List.mem_filter, decide_eq_true_iff]

/-- Another test for the missing keys. -/
theorem added_eq_filter (lacks : α → Bool)
    (test : ∀ c ∈ candidates, lacks c = true ↔ key c ∉ entries.map key) :
    added key entries candidates = candidates.filter lacks :=
  List.filter_congr fun c member => by
    rw [Bool.eq_iff_iff, decide_eq_true_iff, test c member]

/-- Nothing is added when every key is there already. -/
theorem complete_of_covered (covered : ∀ c ∈ candidates, key c ∈ entries.map key) :
    complete key entries candidates = entries := by
  have nothing : added key entries candidates = [] :=
    List.filter_eq_nil_iff.mpr fun c member lacks =>
      of_decide_eq_true lacks (covered c member)
  rw [complete, nothing, List.append_nil]

/-- Afterwards every key is there. -/
theorem covered_complete {c : α} (member : c ∈ candidates) :
    key c ∈ (complete key entries candidates).map key := by
  rw [complete, List.map_append, List.mem_append]
  by_cases there : key c ∈ entries.map key
  · exact .inl there
  · exact .inr (List.mem_map_of_mem (mem_added.mpr ⟨member, there⟩))

theorem key_mem_complete {k : κ} (there : k ∈ entries.map key) :
    k ∈ (complete key entries candidates).map key := by
  rw [complete, List.map_append, List.mem_append]
  exact .inl there

/-- What is added has a new key each. -/
theorem nodup_added (distinct : (candidates.map key).Nodup) :
    ((added key entries candidates).map key).Nodup :=
  distinct.sublist (List.filter_sublist.map key)

/-- A key that no other element has finds its element. -/
theorem find?_of_nodup {l : List α} (distinct : (l.map key).Nodup) {a : α}
   (member : a ∈ l) : (l.find? fun x => key x = key a) = some a := by
  induction l with
  | nil => cases member
  | cons b l ih =>
      obtain ⟨first, rest⟩ := List.nodup_cons.mp distinct
      by_cases same : key b = key a
      · rcases List.mem_cons.mp member with rfl | later
        · exact List.find?_cons_of_pos (decide_eq_true same)
        · exact absurd (same ▸ List.mem_map_of_mem later) first
      · rw [List.find?_cons_of_neg (by rw [decide_eq_true_eq]; exact same)]
        rcases List.mem_cons.mp member with rfl | later
        · exact absurd rfl same
        · exact ih rest later

/-- Two completions whose candidates share no key are one. -/
theorem complete_complete {candidates' : List α}
    (apart : ∀ c ∈ candidates', key c ∉ candidates.map key) :
    complete key (complete key entries candidates) candidates' =
      complete key entries (candidates ++ candidates') := by
  have later : added key (complete key entries candidates) candidates' =
      added key entries candidates' := by
    refine List.filter_congr fun c member => decide_eq_decide.mpr (not_congr ?_)
    rw [complete, List.map_append, List.mem_append, or_iff_left]
    intro there
    exact apart c member ((List.filter_sublist.map key).subset there)
  rw [complete, later, complete, complete, List.append_assoc]
  exact congrArg (entries ++ ·) (List.filter_append _ _).symm

/-- An entry that is not there comes from the candidates. -/
theorem find?_complete {k : κ} (lacks : k ∉ entries.map key) :
    (complete key entries candidates).find? (fun e => decide (key e = k)) =
      candidates.find? fun c => decide (key c = k) := by
  have none_there : entries.find? (fun e => decide (key e = k)) = none := by
    rw [List.find?_eq_none]
    intro e member same
    exact lacks (of_decide_eq_true same ▸ List.mem_map_of_mem member)
  rw [complete, List.find?_append, none_there, Option.none_or, added, List.find?_filter]
  refine congrArg (candidates.find? ·) (funext fun c => ?_)
  by_cases same : key c = k
  · simp only [same, lacks, not_false_eq_true, decide_true, and_self]
  · simp only [same, decide_false, Bool.false_eq_true, and_false]

end

section

variable {α β : Type}

/-- Update of the first element that has the property. -/
def modifyFirst (p : α → Bool) (f : α → α) : List α → List α
  | [] => []
  | a :: rest => if p a then f a :: rest else a :: modifyFirst p f rest

variable {p : α → Bool} {f : α → α}

/-- What the update preserves, it preserves everywhere. -/
theorem map_modifyFirst {g : α → β} (keeps : ∀ a, p a = true → g (f a) = g a) (l : List α) :
    (modifyFirst p f l).map g = l.map g := by
  induction l with
  | nil => rfl
  | cons a rest ih =>
      rw [modifyFirst]
      split_ifs with first
      · rw [List.map_cons, List.map_cons, keeps a first]
      · rw [List.map_cons, List.map_cons, ih]

/-- An update that changes nothing where it applies. -/
theorem modifyFirst_eq_self {l : List α} (same : ∀ a, l.find? p = some a → f a = a) :
    modifyFirst p f l = l := by
  induction l with
  | nil => rfl
  | cons a rest ih =>
      rw [modifyFirst]
      split_ifs with first
      · rw [same a (List.find?_cons_of_pos first)]
      · rw [ih fun b found => same b ((List.find?_cons_of_neg first).trans found)]

/-- The first element after the update is the updated one. -/
theorem find?_modifyFirst (keeps : ∀ a, p a = true → p (f a) = true) (l : List α) :
    (modifyFirst p f l).find? p = (l.find? p).map f := by
  induction l with
  | nil => rfl
  | cons a rest ih =>
      rw [modifyFirst]
      split_ifs with first
      · rw [List.find?_cons_of_pos (keeps a first), List.find?_cons_of_pos first]
        rfl
      · rw [List.find?_cons_of_neg first, List.find?_cons_of_neg first, ih]

theorem mem_modifyFirst_of_not {l : List α} {a : α} (member : a ∈ l) (other : ¬ p a = true) :
    a ∈ modifyFirst p f l := by
  induction l with
  | nil => exact member
  | cons b rest ih =>
      rw [modifyFirst]
      rcases List.mem_cons.mp member with rfl | later
      · rw [if_neg other]
        exact List.mem_cons_self
      · split_ifs
        · exact List.mem_cons_of_mem _ later
        · exact List.mem_cons_of_mem _ (ih later)

end

end Mimi.Lib
