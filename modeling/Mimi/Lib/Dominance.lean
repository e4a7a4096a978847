/-
Module: Mimi.Lib.Dominance
Purpose: Dominance in a graph with an entry, stated over all ways from there, and the two halves of its
  characterisation as a greatest fixed point: what satisfies the local rule at every edge dominates, and
  what dominates satisfies it.
Trusted boundary: none
-/
import Mathlib

namespace Mimi.Lib

variable {α : Type} (edge : α → α → Prop) (entry : α)

/-- The nodes on a way from the entry to a node. -/
inductive Way : List α → α → Prop where
  | start : Way [entry] entry
  | step {path : List α} {b c : α} (way : Way path b) (next : edge b c) : Way (path ++ [c]) c

/-- Every way from the entry to the node passes the other one. -/
def Dominates (d b : α) : Prop := ∀ path, Way edge entry path b → d ∈ path

variable {edge entry}

theorem Way.reaches {path : List α} {b : α} (way : Way edge entry path b) :
    Relation.ReflTransGen edge entry b := by
  induction way with
  | start => exact .refl
  | step _ next ih => exact ih.tail next

theorem exists_way {b : α} (reached : Relation.ReflTransGen edge entry b) : ∃ path, Way edge entry path b := by
  induction reached with
  | refl => exact ⟨_, .start⟩
  | tail _ next ih =>
      obtain ⟨path, way⟩ := ih
      exact ⟨_, way.step next⟩

/-- What lies on a way can be reached. -/
theorem Way.reaches_of_mem {path : List α} {b d : α} (way : Way edge entry path b) (member : d ∈ path) :
    Relation.ReflTransGen edge entry d := by
  induction way with
  | start => exact List.mem_singleton.mp member ▸ .refl
  | step way next ih =>
      rcases List.mem_append.mp member with before | last
      · exact ih before
      · exact List.mem_singleton.mp last ▸ way.reaches.tail next

theorem Dominates.entry_eq {d : α} (dominates : Dominates edge entry d entry) : d = entry :=
  List.mem_singleton.mp (dominates _ .start)

/-- What dominates a node but is another one dominates the nodes in front of it. -/
theorem Dominates.before {d b c : α} (dominates : Dominates edge entry d c) (other : d ≠ c) (next : edge b c) :
    Dominates edge entry d b := by
  intro path way
  rcases List.mem_append.mp (dominates _ (way.step next)) with before | last
  · exact before
  · exact absurd (List.mem_singleton.mp last) other

/-- What satisfies the rule of dominance at the entry and at every edge that can be reached dominates. -/
theorem dominates_of_local (dom : α → α → Prop) (at_entry : ∀ d, dom entry d → d = entry)
    (along : ∀ b c d, Relation.ReflTransGen edge entry b → edge b c → c ≠ entry → dom c d → d = c ∨ dom b d)
    {d b : α} (holds : dom b d) : Dominates edge entry d b := by
  intro path way
  induction way generalizing d with
  | start => exact List.mem_singleton.mpr (at_entry d holds)
  | @step path b c way next ih =>
      have last : c ∈ path ++ [c] := List.mem_append_right _ (List.mem_singleton_self c)
      by_cases same : c = entry
      · subst same
        exact (at_entry d holds) ▸ last
      · rcases along b c d way.reaches next same holds with rfl | before
        · exact last
        · exact List.mem_append_left _ (ih before)

end Mimi.Lib
