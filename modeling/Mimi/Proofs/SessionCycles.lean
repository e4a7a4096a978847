/-
Module: Mimi.Proofs.SessionCycles
Purpose: The search for circular session declarations against the graph of references: in every order of
  iteration it ends, it finds a cycle exactly when there is one, and the path it returns is a cycle.
Trusted boundary: none
-/
import Mimi.Session

namespace Mimi.SessionType

open Mimi.Lib.ThreeColors
open Relation (TransGen)

/-- A name occurs in a session type. -/
inductive Mentions (n : String) : SessionType → Prop where
  | located {session} : Mentions n session → Mentions n (located session)
  | send {payload cont} : Mentions n cont → Mentions n (send payload cont)
  | recv {payload cont} : Mentions n cont → Mentions n (recv payload cont)
  | dual {inner} : Mentions n inner → Mentions n (dual inner)
  | name : Mentions n (name n)

/-- The declaration of a name mentions another declared name. -/
def Refers (env : List (String × SessionType)) (n m : String) : Prop :=
  ∃ body, env.lookup n = some body ∧ Mentions m body ∧ ∃ other, env.lookup m = some other

variable {env : List (String × SessionType)} {n m : String}

theorem mem_referenced_names {s : SessionType} {out : List String} :
    n ∈ s.referenced_names out ↔ Mentions n s ∨ n ∈ out := by
  induction s with
  | located session ih =>
      rw [referenced_names, ih]
      exact or_congr_left ⟨.located, fun | .located inner => inner⟩
  | send payload cont ih =>
      rw [referenced_names, ih]
      exact or_congr_left ⟨.send, fun | .send inner => inner⟩
  | recv payload cont ih =>
      rw [referenced_names, ih]
      exact or_congr_left ⟨.recv, fun | .recv inner => inner⟩
  | dual inner ih =>
      rw [referenced_names, ih]
      exact or_congr_left ⟨.dual, fun | .dual inner => inner⟩
  | name m =>
      rw [referenced_names, List.mem_insert_iff]
      exact or_congr_left ⟨fun same => same ▸ .name, fun | .name => rfl⟩
  | end_ => exact ⟨.inr, fun either => either.resolve_left nofun⟩

theorem mem_references : m ∈ references env n ↔ Refers env n m := by
  cases found : env.lookup n with
  | none => simp [references, Refers, found]
  | some body =>
      simp [references, Refers, found, mem_referenced_names, Option.isSome_iff_exists]

variable (visits : Visits env)

theorem Visits.mem_refs : m ∈ visits.refs n ↔ Refers env n m :=
  (visits.refs_perm n).mem_iff.trans mem_references

/-- The edges the search follows are the references. -/
theorem Visits.edge_eq : Edge visits.refs = Refers env := by
  funext n m
  exact propext visits.mem_refs

theorem Visits.mem_starts : n ∈ visits.starts ↔ ∃ body, env.lookup n = some body := by
  rw [visits.starts_perm.mem_iff, ← Option.isSome_iff_exists, List.lookup_isSome_iff, List.mem_map]
  simp

/-- In every order of iteration the search ends; it finds nothing exactly when no declared name leads back to itself,
and a path it returns is a cycle of references. -/
theorem cycle_detection_exact :
    (∃ fuel result, detect_session_cycle visits fuel = some result) ∧
      ∀ fuel result, detect_session_cycle visits fuel = some result →
        (result = none ↔ ¬∃ n, TransGen (Refers env) n n) ∧
          ∀ path, result = some path → IsCycle (Refers env) path := by
  have closed : ∀ n, ∀ m ∈ visits.refs n, m ∈ visits.starts.toFinset := by
    intro n m edge
    obtain ⟨-, -, -, declared⟩ := visits.mem_refs.mp edge
    exact List.mem_toFinset.mpr (visits.mem_starts.mpr declared)
  refine ⟨⟨_, detect_returns closed (fun n => List.mem_toFinset.mpr) (Nat.lt_succ_self _)⟩,
    fun fuel result ended => ?_⟩
  have covered : ∀ n, visits.refs n ≠ [] → n ∈ visits.starts := by
    intro n some_edge
    obtain ⟨m, edge⟩ := List.exists_mem_of_ne_nil _ some_edge
    obtain ⟨body, declared, -⟩ := visits.mem_refs.mp edge
    exact visits.mem_starts.mpr ⟨body, declared⟩
  rw [← visits.edge_eq]
  exact detect_exact covered ended

example : detect_session_cycle
    (.declared [("A", .send (.name "i32" []) (.name "B")), ("B", .dual (.name "A"))]) 9 = some (some ["A", "B", "A"]) := by
  decide

end Mimi.SessionType
