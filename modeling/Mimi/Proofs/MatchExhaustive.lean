/-
Module: Mimi.Proofs.MatchExhaustive
Purpose: A match that the exhaustiveness check accepts has an arm for every value of its subject exactly when, under each
  head that the check counts as covered, the sub-patterns of the arms are complete.
Trusted boundary: none
-/
import Mimi.Checker.MatchCoverage

namespace Mimi.Checker

open Mimi.Ast
open Mimi.Lib (HeadTree Pat)
open Mimi.Lib.PatternMatrix

namespace MatchChecker

variable (checker : MatchChecker)

/-- The patterns of the unguarded arms, one to a row. -/
def armRows (subject_ty : Ty) (arms : List MatchArm) : List (List (Pat Head)) :=
  (unguarded arms).map fun arm => [checker.patternOf arm.pat subject_ty]

/-- The name under which the check counts a head. -/
def head_name : Head → Option String
  | .bool true => some "true"
  | .bool false => some "false"
  | .variant name => some name
  | _ => none

/-- The check counts a head as covered: it found a catch-all, or the name of the head. -/
def counted (subject_ty : Ty) (arms : List MatchArm) (h : Head) : Bool :=
  checker.has_catchall subject_ty arms || (head_name h).any (checker.covered_variants subject_ty arms).contains

variable {checker}

/-! ### The heads of a type and its variants -/

theorem all_variants_of_ne_nil {ty : Ty} (hvariants : checker.get_enum_variants ty ≠ []) :
    checker.all_variants ty = checker.get_enum_variants ty := by
  have hempty : (checker.get_enum_variants ty).isEmpty = false := by simpa using hvariants
  simp [all_variants, hempty]

section Unlocated

attribute [local simp] Ty.unlocated get_enum_variants option_content result_content

theorem unlocated_eq_self {ty : Ty} (hty : ∀ info inner, ty = .located info inner → False) : ty.unlocated = ty := by
  rw [Ty.unlocated]
  exact hty

/-- An annotation is taken off; every other type stays. -/
theorem unlocated_induct {P : Ty → Prop} (located : ∀ info ty, P ty → P (.located info ty))
    (other : ∀ ty, (∀ info inner, ty = .located info inner → False) → P ty) : ∀ ty, P ty :=
  Ty.unlocated.induct P located other

theorem unlocated_ne_located (ty : Ty) (info : AstNodeMeta) (inner : Ty) : ty.unlocated ≠ .located info inner := by
  induction ty using unlocated_induct with
  | located _ ty ih => rw [Ty.unlocated]; exact ih
  | other ty hty =>
      rw [unlocated_eq_self hty]
      exact hty info inner

theorem get_enum_variants_unlocated (ty : Ty) :
    checker.get_enum_variants ty.unlocated = checker.get_enum_variants ty := by
  induction ty using unlocated_induct with
  | located info ty ih => rw [Ty.unlocated, get_enum_variants, ih]
  | other ty hty => rw [unlocated_eq_self hty]

theorem unlocated_unlocated (ty : Ty) : ty.unlocated.unlocated = ty.unlocated := by
  induction ty using unlocated_induct with
  | located info ty ih => rw [Ty.unlocated, ih]
  | other ty hty => rw [unlocated_eq_self hty, unlocated_eq_self hty]

theorem option_content_unlocated (ty : Ty) : option_content ty.unlocated = option_content ty := by
  induction ty using unlocated_induct with
  | located info ty ih => rw [Ty.unlocated, option_content, ih]
  | other ty hty => rw [unlocated_eq_self hty]

theorem result_content_unlocated (ty : Ty) : result_content ty.unlocated = result_content ty := by
  induction ty using unlocated_induct with
  | located info ty ih => rw [Ty.unlocated, result_content, ih]
  | other ty hty => rw [unlocated_eq_self hty]

theorem all_variants_unlocated (ty : Ty) : checker.all_variants ty.unlocated = checker.all_variants ty := by
  rw [all_variants, all_variants, get_enum_variants_unlocated, unlocated_unlocated]

end Unlocated

/-- The builtin variants of a type that has no others. -/
theorem builtin_fields_mem {ty : Ty} {variant : String} {fields : List (String × Ty)}
    (hvariants : ∀ n args, ty.unlocated = .name n args → checker.get_enum_variants ty = [])
    (hfields : builtin_fields ty variant = some fields) : variant ∈ checker.all_variants ty := by
  rw [builtin_fields, ← option_content_unlocated, ← result_content_unlocated] at hfields
  rw [← all_variants_unlocated]
  cases hty : ty.unlocated with
  | option content =>
      simp only [hty, option_content, beq_iff_eq] at hfields
      split at hfields
      · simp_all [all_variants, get_enum_variants]
      · split at hfields <;> simp_all [all_variants, get_enum_variants]
  | result ok err =>
      simp only [hty, option_content, result_content, beq_iff_eq] at hfields
      split at hfields
      · simp_all [all_variants, get_enum_variants]
      · split at hfields <;> simp_all [all_variants, get_enum_variants]
  | name n args =>
      have hnone : checker.get_enum_variants (.name n args) = [] := by
        rw [← hty, get_enum_variants_unlocated]
        exact hvariants n args hty
      rw [hty] at hfields
      rw [all_variants, hnone]
      match args with
      | [content] =>
          by_cases hoption : n = "Option"
          · subst hoption
            simp only [option_content, beq_self_eq_true, if_true, beq_iff_eq] at hfields
            split at hfields
            · simp_all [Ty.unlocated]
            · split at hfields <;> simp_all [Ty.unlocated]
          · simp [option_content, result_content, hoption] at hfields
      | [ok, err] =>
          by_cases hresult : n = "Result"
          · subst hresult
            simp only [option_content, result_content, beq_self_eq_true, if_true, beq_iff_eq] at hfields
            split at hfields
            · simp_all [Ty.unlocated]
            · split at hfields <;> simp_all [Ty.unlocated]
          · simp [option_content, result_content, hresult] at hfields
      | [] => simp [option_content, result_content] at hfields
      | _ :: _ :: _ :: _ => simp [option_content, result_content] at hfields
  | located info inner => exact absurd hty (unlocated_ne_located ty info inner)
  | _ => simp [hty, option_content, result_content] at hfields

/-- A variant with fields is one of the type's variants. -/
theorem variant_fields_mem {ty : Ty} {variant : String} {fields : List (String × Ty)}
    (hfields : checker.variant_fields ty variant = some fields) : variant ∈ checker.all_variants ty := by
  rw [variant_fields] at hfields
  cases hty : ty.unlocated with
  | name n args =>
      simp only [hty] at hfields
      split at hfields
      · cases hfields
      · rename_i hbool
        split at hfields
        · rename_i variants hkind
          obtain ⟨v, hfind, -⟩ := Option.map_eq_some_iff.mp hfields
          have hmem : variant ∈ checker.get_enum_variants ty := by
            rw [← get_enum_variants_unlocated, hty, get_enum_variants, if_neg hbool]
            simp only [hkind]
            have hname : v.name = variant := by simpa using List.find?_some hfind
            exact hname ▸ List.mem_map_of_mem (List.mem_of_find?_eq_some hfind)
          rw [all_variants_of_ne_nil (List.ne_nil_of_mem hmem)]
          exact hmem
        · rename_i hkind
          refine builtin_fields_mem (fun m args' hm => ?_) hfields
          obtain ⟨rfl, rfl⟩ := Ty.name.inj (hty.symm.trans hm)
          rw [← get_enum_variants_unlocated, hty, get_enum_variants, if_neg hbool]
          split
          · rename_i variants henum
            exact absurd henum (hkind variants)
          · rfl
  | _ =>
      simp only [hty] at hfields
      refine builtin_fields_mem (fun m args' hm => ?_) hfields
      rw [hty] at hm
      cases hm

/-- Under a type with variants stand only heads that are named by them. -/
theorem head_mem_variants {scalar : Ty → Scalar → Prop} {ty : Ty} {h : Head} {ts : List Ty}
    (hshape : checker.ValueShape scalar ty h ts) (hvariants : checker.all_variants ty ≠ []) :
    ∃ name, head_name h = some name ∧ name ∈ checker.all_variants ty := by
  cases hshape with
  | @bool _ args b hbool =>
      have hall : checker.all_variants ty = ["true", "false"] := by
        rw [← all_variants_unlocated, hbool]
        rfl
      rw [hall]
      cases b <;> simp [head_name]
  | @variant _ name fields hfields => exact ⟨name, rfl, variant_fields_mem hfields⟩
  | newtype hnone => exact absurd hnone hvariants
  | tuple hnone => exact absurd hnone hvariants
  | list_nil hnone => exact absurd hnone hvariants
  | list_cons hnone => exact absurd hnone hvariants
  | array_nil harray | array_cons harray =>
      refine absurd ?_ hvariants
      rw [← all_variants_unlocated, harray]
      rfl
  | slice_nil hslice | slice_cons hslice =>
      refine absurd ?_ hvariants
      rw [← all_variants_unlocated, hslice]
      rfl
  | scalar hplain =>
      simp only [plain, Bool.and_eq_true] at hplain
      exact absurd (List.isEmpty_iff.mp hplain.1.1.1) hvariants

/-- In an accepted match every head of the subject is counted as covered. -/
theorem counted_of_accepted {scalar : Ty → Scalar → Prop} {subject_ty : Ty} {arms : List MatchArm} {h : Head}
    {ts : List Ty} (hknown : exempt subject_ty = false)
    (haccepted : checker.exhaustiveness_diagnostics subject_ty [] arms = [])
    (hshape : checker.ValueShape scalar subject_ty h ts) : checker.counted subject_ty arms h = true := by
  rw [exhaustiveness_diagnostics] at haccepted
  split at haccepted
  · cases haccepted
  · simp only [List.isEmpty_nil, if_true] at haccepted
    rw [counted, Bool.or_eq_true]
    split at haccepted
    · rename_i hcatchall
      exact .inl hcatchall
    · split at haccepted
      · rw [if_neg (by simp [hknown])] at haccepted
        cases haccepted
      · rename_i hvariants
        obtain ⟨name, hname, hmem⟩ := head_mem_variants hshape (by simpa using hvariants)
        rw [List.map_eq_nil_iff, List.filter_eq_nil_iff] at haccepted
        refine .inr ?_
        rw [hname, Option.any_some]
        simpa using haccepted name hmem

/-! ### The exact condition -/

theorem covers_armRows {subject_ty : Ty} {arms : List MatchArm} {v : MatchValue} :
    Covers (checker.armRows subject_ty arms) [v] ↔
      ∃ arm ∈ unguarded arms, Accepts (checker.patternOf arm.pat subject_ty) v := by
  constructor
  · rintro ⟨row, hrow, haccepts⟩
    obtain ⟨arm, harm, rfl⟩ := List.mem_map.mp hrow
    exact ⟨arm, harm, haccepts.1⟩
  · rintro ⟨arm, harm, haccepts⟩
    exact ⟨_, List.mem_map_of_mem harm, haccepts, trivial⟩

/-- In an accepted match every value of the subject's type is accepted by an unguarded arm if and only if, under every
head of the type that the check counts as covered, what the unguarded patterns say of the content is complete.
Acceptance counts every head (`counted_of_accepted`). -/
theorem accepted_match_iff (checker : MatchChecker) (scalar : Ty → Scalar → Prop) (subject_ty : Ty)
    (arms : List MatchArm) (hknown : exempt subject_ty = false)
    (haccepted : checker.exhaustiveness_diagnostics subject_ty [] arms = []) :
    (∀ v, Shaped (checker.ValueShape scalar) v subject_ty →
        ∃ arm ∈ unguarded arms, Accepts (checker.patternOf arm.pat subject_ty) v) ↔
      ∀ h ts, checker.ValueShape scalar subject_ty h ts → checker.counted subject_ty arms h = true →
        Complete (checker.ValueShape scalar) (specialise h ts.length (checker.armRows subject_ty arms)) ts := by
  constructor
  · intro hmatched h ts hshape _
    rw [complete_iff]
    intro vs hvs
    have hcovers : Covers (checker.armRows subject_ty arms) [.node h vs] :=
      covers_armRows.mpr (hmatched (.node h vs) ⟨ts, hshape, hvs⟩)
    have hsplit := specialise_covers.mpr hcovers
    rwa [List.append_nil, hvs.length_eq] at hsplit
  · intro hcomplete v hv
    match v, hv with
    | .node h vs, ⟨ts, hshape, hvs⟩ =>
        have hcovers := complete_iff.mp (hcomplete h ts hshape (counted_of_accepted hknown haccepted hshape)) vs hvs
        refine covers_armRows.mp (specialise_covers.mp ?_)
        rwa [List.append_nil, hvs.length_eq]

end MatchChecker

/-! ### Accepted matches -/

/-- An arm without a guard. -/
def plainArm (kind : PatternKind) : MatchArm :=
  ⟨⟨.unknown, .user, .none⟩, ⟨⟨.unknown, .user, .none⟩, kind⟩, none, .literal .unit⟩

/-- A constructor pattern with one literal in it. -/
def literalIn (name : String) (value : Lit) : PatternKind :=
  .constructor name [("_0", ⟨⟨.unknown, .user, .none⟩, .literal value⟩)]

/-- A file without type definitions. -/
def bareChecker : MatchChecker where
  types := fun _ => none
  flow_state_type_names := []
  member_type := fun _ ty => ty
  span := .unknown

/-- The arms `Some(true)`, `Some(false)` and `None` of a match on an `Option<bool>`. -/
def optionBoolArms : List MatchArm :=
  [plainArm (literalIn "Some" (.bool true)), plainArm (literalIn "Some" (.bool false)), plainArm (.variable_ "None")]

theorem accepted_match_iff_option_bool :
    (∀ v, Shaped (bareChecker.ValueShape fun _ _ => False) v (.option (.name "bool" [])) →
        ∃ arm ∈ MatchChecker.unguarded optionBoolArms,
          Accepts (bareChecker.patternOf arm.pat (.option (.name "bool" []))) v) ↔
      ∀ h ts, bareChecker.ValueShape (fun _ _ => False) (.option (.name "bool" [])) h ts →
        bareChecker.counted (.option (.name "bool" [])) optionBoolArms h = true →
        Complete (bareChecker.ValueShape fun _ _ => False)
          (specialise h ts.length (bareChecker.armRows (.option (.name "bool" [])) optionBoolArms)) ts :=
  MatchChecker.accepted_match_iff bareChecker (fun _ _ => False) (.option (.name "bool" [])) optionBoolArms rfl
    (by decide)

/-- The integers of the type `i32`. -/
def i32Values (ty : Ty) (value : Scalar) : Prop :=
  ty = .name "i32" [] ∧ ∃ n : Int, value = .int n ∧ -2147483648 ≤ n ∧ n ≤ 2147483647

/-- The value `2`. -/
def two : MatchValue := .node (.scalar (.int 2)) []

/-- `match o { Some(1) => .., None => .. }` is accepted for an `Option<i32>`, `match u { UserId(1) => .. }` for a newtype
of `i32`, and `match o { None => .. }` for an option in its surface spelling; none has an arm for `2` or `Some(2)`. -/
theorem accepted_matches_leave_values :
    (bareChecker.exhaustiveness_diagnostics (.option (.name "i32" [])) []
        [plainArm (literalIn "Some" (.int 1)), plainArm (.variable_ "None")] = [] ∧
      Shaped (bareChecker.ValueShape i32Values) (.node (.variant "Some") [two]) (.option (.name "i32" [])) ∧
      ∀ arm ∈ [plainArm (literalIn "Some" (.int 1)), plainArm (.variable_ "None")],
        ¬ Accepts (bareChecker.patternOf arm.pat (.option (.name "i32" []))) (.node (.variant "Some") [two])) ∧
    (bareChecker.exhaustiveness_diagnostics (.newtype "UserId" (.name "i32" [])) []
        [plainArm (literalIn "UserId" (.int 1))] = [] ∧
      Shaped (bareChecker.ValueShape i32Values) two (.newtype "UserId" (.name "i32" [])) ∧
      ∀ arm ∈ [plainArm (literalIn "UserId" (.int 1))],
        ¬ Accepts (bareChecker.patternOf arm.pat (.newtype "UserId" (.name "i32" []))) two) ∧
    (bareChecker.exhaustiveness_diagnostics (.name "Option" [.name "i32" []]) [] [plainArm (.variable_ "None")] = [] ∧
      Shaped (bareChecker.ValueShape i32Values) (.node (.variant "Some") [two]) (.name "Option" [.name "i32" []]) ∧
      ∀ arm ∈ [plainArm (.variable_ "None")],
        ¬ Accepts (bareChecker.patternOf arm.pat (.name "Option" [.name "i32" []])) (.node (.variant "Some") [two])) := by
  have hint : bareChecker.ValueShape i32Values (.name "i32" []) (.scalar (.int 2)) [] :=
    .scalar (by decide) ⟨rfl, 2, rfl, by decide, by decide⟩
  have htwo : Shaped (bareChecker.ValueShape i32Values) two (.name "i32" []) := ⟨[], hint, trivial⟩
  have hsome : bareChecker.ValueShape i32Values (.option (.name "i32" [])) (.variant "Some") [.name "i32" []] :=
    @MatchChecker.ValueShape.variant bareChecker i32Values (.option (.name "i32" [])) "Some" [("_0", .name "i32" [])] rfl
  have hsurface :
      bareChecker.ValueShape i32Values (.name "Option" [.name "i32" []]) (.variant "Some") [.name "i32" []] :=
    @MatchChecker.ValueShape.variant bareChecker i32Values (.name "Option" [.name "i32" []]) "Some"
      [("_0", .name "i32" [])] rfl
  refine ⟨⟨by decide, ⟨_, hsome, htwo, trivial⟩, ?_⟩,
    ⟨by decide, ⟨[], .newtype rfl rfl hint, trivial⟩, ?_⟩,
    by decide, ⟨_, hsurface, htwo, trivial⟩, ?_⟩
  · intro arm harm
    fin_cases harm
    · exact fun haccepts => absurd haccepts.2.1.1 (by decide)
    · exact fun haccepts => absurd haccepts.1 (by decide)
  · intro arm harm
    fin_cases harm
    exact fun haccepts => absurd haccepts.1 (by decide)
  · intro arm harm
    fin_cases harm
    exact fun haccepts => absurd haccepts.1 (by decide)

end Mimi.Checker
