/-
Module: Mimi.Proofs.NamedSubstitution
Purpose: The substitution of named parameters comes to an end for every mapping, and without a cycle no
  mapped name is left.  A replacement is put under the quantifiers around its place as it is, so the
  result is that of a substitution exactly when none of them binds a free name of the replacement.
Trusted boundary: none
-/
import Mimi.Proofs.TypeScopes

namespace Mimi.Core

open Mimi.Lib
open Mimi.Lib.Scoped (occs free graft graftAll nameless link chain Acyclic Hygienic Resolves)

/-- What each name is mapped to. -/
def replacements (mapping : List (String × Ty)) (n : String) : Option (Scoped String TyLabel) :=
  (mapping.lookup n).map named.view

namespace NamedSubstitutionFolder

variable (mapping : List (String × Ty))

def enter (xs : List String) : Substituting Unit := modify fun s => { s with shadowed := xs :: s.shadowed }

def exit : Substituting Unit := modify fun s => { s with shadowed := s.shadowed.tail }

/-- How the folder goes on in a replacement. -/
def again : Nat → Ty → Substituting Ty
  | 0, _ => failure
  | fuel + 1, ty => walk_type (folder mapping fuel) ty

def visit (fuel : Nat) (n : String) : Substituting (Scoped String TyLabel) :=
  named.view <$> fold_name mapping (again mapping fuel) n []

theorem visits (fuel : Nat) :
    Visits named (folder mapping fuel) enter (visit mapping fuel) where
  enter _ := by cases fuel <;> rfl
  bare _ := by cases fuel <;> rfl
  name n arg args := by
    funext s
    cases fuel <;> rfl
  var _ := by cases fuel <;> rfl
  leaf ty other := by cases fuel <;> rfl

theorem exit_forall (fuel : Nat) : (folder mapping fuel).exit_forall = exit := by cases fuel <;> rfl

/-- A traversal that leaves the state as it was is a graft. -/
theorem traverse_graft {visit : String → Substituting (Scoped String TyLabel)}
    {on : List String → String → Option (Scoped String TyLabel)} {busy : Finset String}
    (visited : ∀ n shadowed, visit n ⟨shadowed, busy⟩ =
      (if n ∈ shadowed.flatten then some (.ref n) else on shadowed.flatten n).map (·, ⟨shadowed, busy⟩))
    (t : Scoped String TyLabel) (shadowed : List (List String)) :
    t.traverse enter exit visit ⟨shadowed, busy⟩ =
      (graft on shadowed.flatten t).map (·, ⟨shadowed, busy⟩) := by
  induction t generalizing shadowed with
  | ref n => rw [Scoped.traverse, graft, visited]
  | node label parts ih =>
      have all : Scoped.traverseAll enter exit visit parts ⟨shadowed, busy⟩ =
          (graftAll on shadowed.flatten parts).map (·, ⟨shadowed, busy⟩) := by
        induction parts with
        | nil => rfl
        | cons part parts rest =>
            have here := ih part List.mem_cons_self shadowed
            have there := rest fun part inside => ih part (List.mem_cons_of_mem _ inside)
            simp only [Scoped.traverseAll, Bind.bind, StateT.bind, here, graftAll]
            cases graft on shadowed.flatten part with
            | none => rfl
            | some part' =>
                simp only [Option.map_some, Option.bind_some, there]
                cases graftAll on shadowed.flatten parts <;> rfl
      simp only [Scoped.traverse, Bind.bind, StateT.bind, all, graft]
      cases graftAll on shadowed.flatten parts <;> rfl
  | bind label xs body ih =>
      have inner := ih (xs :: shadowed)
      have opened : enter xs ⟨shadowed, busy⟩ = some ((), ⟨xs :: shadowed, busy⟩) := rfl
      rw [List.flatten_cons] at inner
      simp only [Scoped.traverse, Bind.bind, StateT.bind, opened, Option.bind_some, inner, graft]
      cases graft on (xs ++ shadowed.flatten) body <;> rfl

theorem visit_eq {fuel : Nat} {onward : List String → Scoped String TyLabel → Option (Scoped String TyLabel)}
    {busy : Finset String} {n : String} {shadowed : List (List String)}
    (walked : n ∉ busy → ∀ ty, (named.view <$> again mapping fuel ty) ⟨shadowed, insert n busy⟩ =
      (onward shadowed.flatten (named.view ty)).map (·, ⟨shadowed, insert n busy⟩)) :
    visit mapping fuel n ⟨shadowed, busy⟩ =
      (if n ∈ shadowed.flatten then some (.ref n)
        else link (replacements mapping) busy onward shadowed.flatten n).map (·, ⟨shadowed, busy⟩) := by
  have folded : fold_name mapping (again mapping fuel) n [] ⟨shadowed, busy⟩ =
      if (!(shadowed.any fun scope => scope.contains n)) && n ∉ busy then
        (mapping.lookup n).elim (some (.name n [], ⟨shadowed, busy⟩)) fun replacement =>
          (again mapping fuel replacement ⟨shadowed, insert n busy⟩).bind fun r =>
            some (r.1, { r.2 with substituting := r.2.substituting.erase n })
      else some (.name n [], ⟨shadowed, busy⟩) := by
    simp only [fold_name, Bind.bind, StateT.bind, get, getThe, MonadStateOf.get, StateT.get,
      List.isEmpty_nil, Bool.true_and, pure, Option.bind_some]
    split_ifs
    · cases mapping.lookup n <;> rfl
    · rfl
  have viewed : visit mapping fuel n ⟨shadowed, busy⟩ =
      (fold_name mapping (again mapping fuel) n [] ⟨shadowed, busy⟩).map fun r => (named.view r.1, r.2) := by
    simp only [visit, Functor.map, StateT.map]
    cases fold_name mapping (again mapping fuel) n [] ⟨shadowed, busy⟩ <;> rfl
  rw [viewed, folded, any_shadowed]
  by_cases bound : n ∈ shadowed.flatten
  · simp [bound, Reading.view, named]
  · by_cases active : n ∈ busy
    · simp [bound, active, link, Reading.view, named]
    · rw [if_pos (by simp [bound, active]), if_neg bound]
      cases known : mapping.lookup n with
      | none =>
          rw [Scoped.link_unmapped (by rw [replacements, known]; rfl)]
          rfl
      | some replacement =>
          rw [Scoped.link_mapped active (by rw [replacements, known]; rfl), Option.elim_some]
          have inner := walked active replacement
          simp only [Functor.map, StateT.map] at inner
          cases there : again mapping fuel replacement ⟨shadowed, insert n busy⟩ with
          | none =>
              rw [there] at inner
              rw [Option.map_eq_none_iff.mp inner.symm]
              rfl
          | some r =>
              rw [there] at inner
              obtain ⟨u, is, same⟩ := Option.map_eq_some_iff.mp inner.symm
              obtain ⟨rfl, here⟩ := Prod.mk.inj same
              rw [is, Option.bind_some, ← here]
              simp [Finset.erase_insert active]

theorem walk_chain (fuel : Nat) (ty : Ty) (shadowed : List (List String)) (busy : Finset String) :
    (named.view <$> walk_type (folder mapping fuel) ty) ⟨shadowed, busy⟩ =
      (chain (replacements mapping) fuel busy shadowed.flatten (named.view ty)).map
        (·, ⟨shadowed, busy⟩) := by
  induction fuel generalizing ty shadowed busy with
  | zero =>
      rw [walk_type_view (visits mapping 0), exit_forall]
      exact traverse_graft (fun n shadowed => visit_eq mapping fun _ ty => rfl) _ _
  | succ fuel ih =>
      rw [walk_type_view (visits mapping (fuel + 1)), exit_forall]
      refine traverse_graft (fun n shadowed => ?_) _ _
      exact visit_eq mapping fun _ ty => ih ty shadowed (insert n busy)

end NamedSubstitutionFolder

theorem substituteNames_chain (mapping : List (String × Ty)) (fuel : Nat) (ty : Ty) :
    (substituteNames mapping fuel ty).map named.view =
      chain (replacements mapping) fuel ∅ [] (named.view ty) := by
  have walked := NamedSubstitutionFolder.walk_chain mapping fuel ty [] ∅
  have ends := congrArg (Option.map Prod.fst) walked
  rw [Option.map_map] at ends
  refine Eq.trans ?_ (ends.trans (congrFun Option.map_id _))
  rw [substituteNames]
  simp only [Functor.map, StateT.map]
  cases walk_type (NamedSubstitutionFolder.folder mapping fuel) ty ⟨[], ∅⟩ <;> rfl

theorem substituteNames_eq_some {mapping : List (String × Ty)} {fuel : Nat} {ty r : Ty} :
    substituteNames mapping fuel ty = some r ↔
      chain (replacements mapping) fuel ∅ [] (named.view ty) = some (named.view r) := by
  rw [← substituteNames_chain]
  constructor
  · intro is
    rw [is]
    rfl
  · intro is
    obtain ⟨r', is, same⟩ := Option.map_eq_some_iff.mp is
    exact view_injective same ▸ is

theorem mem_keys {mapping : List (String × Ty)} {n : String} (known : (replacements mapping n).isSome) :
    n ∈ (mapping.map Prod.fst).toFinset := by
  rw [replacements, Option.isSome_map] at known
  obtain ⟨pair, member, same⟩ := List.lookup_isSome_iff.mp known
  rw [List.mem_toFinset, eq_of_beq same]
  exact List.mem_map_of_mem member

/-- The walk comes to an end, cyclic or not: no replacement is walked within itself. -/
theorem substituteNames_total (mapping : List (String × Ty)) (ty : Ty) :
    ∃ r, ∀ fuel, mapping.length ≤ fuel → substituteNames mapping fuel ty = some r := by
  have size : ((mapping.map Prod.fst).toFinset \ ∅).card ≤ mapping.length := by
    rw [Finset.sdiff_empty]
    exact (List.toFinset_card_le _).trans_eq (List.length_map _)
  have ends : (substituteNames mapping mapping.length ty).isSome := by
    rw [← Option.isSome_map (f := named.view), substituteNames_chain]
    exact Scoped.chain_isSome (fun n known => mem_keys known) size
  obtain ⟨r, is⟩ := Option.isSome_iff_exists.mp ends
  refine ⟨r, fun fuel enough => ?_⟩
  induction fuel, enough using Nat.le_induction with
  | base => exact is
  | succ fuel _ ih => exact substituteNames_eq_some.mpr (Scoped.chain_mono (substituteNames_eq_some.mp ih))

/-- What a substitution without a cycle promises: no free bare name is mapped, substituting again changes
nothing, and the result is that of the substitution, so that no free name of a replacement is bound. -/
structure Substituted (mapping : List (String × Ty)) (ty r : Ty) : Prop where
  gone : ∀ n ∈ free [] (named.view r), mapping.lookup n = none
  unchanged : ∀ fuel, substituteNames mapping fuel r = some r
  proper : ∃ R, Resolves (replacements mapping) R ∧
    nameless [] (named.view r) = (nameless [] (named.view ty)).subst R

theorem substituted_iff {mapping : List (String × Ty)} (acyclic : Acyclic (replacements mapping))
    {fuel : Nat} {ty r : Ty} (is : substituteNames mapping fuel ty = some r) :
    Substituted mapping ty r ↔ Hygienic (replacements mapping) [] (named.view ty) := by
  have chained := substituteNames_eq_some.mp is
  have ends := acyclic.wellFounded fun n known => mem_keys known
  have exact_ (R) (resolves : Resolves (replacements mapping) R) :=
    Scoped.chain_nameless_iff (resolves.closed ends) resolves acyclic Scoped.leadsTo_empty chained
  have unmapped := Scoped.chain_refs acyclic Scoped.leadsTo_empty chained
  constructor
  · rintro ⟨-, -, R, resolves, proper⟩
    exact (exact_ R resolves).mp proper
  · intro hygienic
    have resolves := Scoped.resolves_resolve ends
    refine ⟨fun n member => Option.map_eq_none_iff.mp (unmapped n member), fun fuel => ?_,
      _, resolves, (exact_ _ resolves).mpr hygienic⟩
    exact substituteNames_eq_some.mpr (Scoped.chain_idem unmapped)

/-- Substitution comes to an end for every mapping; without a cycle it keeps its promise exactly when no
quantifier around a place binds a free name of what is put there, chains included. -/
theorem substitution_respects_binders (mapping : List (String × Ty)) (ty : Ty) :
    (∃ r, (∀ fuel, mapping.length ≤ fuel → substituteNames mapping fuel ty = some r) ∧
      (Acyclic (replacements mapping) → Substituted mapping ty r)) ↔
      (Acyclic (replacements mapping) → Hygienic (replacements mapping) [] (named.view ty)) := by
  obtain ⟨r, ends⟩ := substituteNames_total mapping ty
  constructor
  · rintro ⟨r', ends', promised⟩ acyclic
    exact (substituted_iff acyclic (ends' _ le_rfl)).mp (promised acyclic)
  · intro hygienic
    exact ⟨r, ends, fun acyclic => (substituted_iff acyclic (ends _ le_rfl)).mpr (hygienic acyclic)⟩

/-- A quantifier over the name that a parameter is mapped to. -/
theorem substitution_captures :
    Acyclic (replacements [("T", .name "U" [])]) ∧
    (∀ fuel, 1 ≤ fuel → substituteNames [("T", .name "U" [])] fuel (.forAll ["U"] (.name "T" [])) =
      some (.forAll ["U"] (.name "U" []))) ∧
    ¬Substituted [("T", .name "U" [])] (.forAll ["U"] (.name "T" [])) (.forAll ["U"] (.name "U" [])) := by
  have uses : ∀ x y, Scoped.Uses (replacements [("T", .name "U" [])]) x y → x = "T" ∧ y = "U" := by
    rintro x y ⟨t, mapped, member⟩
    obtain ⟨ty, known, rfl⟩ := Option.map_eq_some_iff.mp mapped
    obtain ⟨before, after, split, -⟩ := List.lookup_eq_some_iff.mp known
    have pair : (x, ty) ∈ [("T", Ty.name "U" [])] := split ▸ List.mem_append_right _ List.mem_cons_self
    obtain ⟨rfl, rfl⟩ := Prod.mk.inj (List.mem_singleton.mp pair)
    exact ⟨rfl, List.mem_singleton.mp member⟩
  have acyclic : Acyclic (replacements [("T", .name "U" [])]) := by
    intro x cycle
    obtain ⟨y, first, -⟩ := Relation.TransGen.head'_iff.mp cycle
    obtain ⟨z, -, last⟩ := Relation.TransGen.tail'_iff.mp cycle
    exact absurd ((uses _ _ first).1.symm.trans (uses _ _ last).2) (by decide)
  have captured : substituteNames [("T", .name "U" [])] 1 (.forAll ["U"] (.name "T" [])) =
      some (.forAll ["U"] (.name "U" [])) := rfl
  obtain ⟨r, total⟩ := substituteNames_total [("T", .name "U" [])] (.forAll ["U"] (.name "T" []))
  obtain rfl := Option.some.inj ((total 1 le_rfl).symm.trans captured)
  refine ⟨acyclic, total, fun promised => ?_⟩
  have hygienic := Scoped.hygienic_iff.mp ((substituted_iff acyclic captured).mp promised)
  have inside := (hygienic ("T", ["U"]) List.mem_cons_self).2 _ rfl
  exact (Scoped.hygienic_iff.mp inside ("U", []) List.mem_cons_self).1 List.mem_cons_self

end Mimi.Core
