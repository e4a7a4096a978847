/-
Module: Mimi.Checker.MatchCoverage
Purpose: The exhaustiveness check of match expressions by variant names, and what the patterns of the arms accept among
  the values of the subject's type.
Trusted boundary: human-reviewed translation of the coverage part of `src/core/infer/match_.rs` and of
  `get_enum_variants`; a pattern means what the subject's type makes of it, as `src/core/checker/pattern.rs` and
  `src/core/ir/lower.rs` resolve constructors
-/
import Mimi.Checker.Names
import Mimi.Lib.PatternMatrix

namespace Mimi.Checker

open Mimi.Ast
open Mimi.Core (Span Diagnostic)
open Mimi.Lib (HeadTree Pat)

/-- What the check reads of the checker.  `member_type owner ty` is the declared type `ty` of a member of `owner`,
resolved and with the arguments of `owner` for the parameters of its definition. -/
structure MatchChecker where
  types : String → Option TypeDef
  flow_state_type_names : List String
  member_type : Ty → Ty → Ty
  span : Span

/-! ### Coverage by variant names -/

namespace MatchChecker

variable (checker : MatchChecker)

def get_enum_variants : Ty → List String
  | .located _ ty => get_enum_variants ty
  | .result _ _ => ["Ok", "Err"]
  | .option _ => ["Some", "None"]
  | .name name _ =>
      if name == "bool" then ["true", "false"]
      else
        match (checker.types name).map TypeDef.kind with
        | some (.enum variants) => variants.map Variant.name
        | _ => []
  | _ => []

/-- The variants of the subject; the surface spellings of options and results have theirs as well. -/
def all_variants (subject_ty : Ty) : List String :=
  let variants := checker.get_enum_variants subject_ty
  if variants.isEmpty then
    match subject_ty.unlocated with
    | .name n args =>
        if n == "Option" && args.length == 1 then ["Some", "None"]
        else if n == "Result" && args.length == 2 then ["Ok", "Err"]
        else []
    | _ => []
  else variants

/-- The names that a literal covers. -/
def literal_covers : Lit → List String
  | .bool true => ["true"]
  | .bool false => ["false"]
  | .int n => [s!"int:{n}"]
  | .string s => ["str:" ++ s]
  | _ => []

/-- A constructor names the subject's own nominal type. -/
def self_covering (name : String) (subject_ty : Ty) : Bool :=
  match subject_ty.unlocated with
  | .name sname _ => sname == name && checker.flow_state_type_names.contains name
  | .newtype sname _ => sname == name
  | _ => false

/-- The element types of a tuple type. -/
def tuple_types : Ty → Option (List Ty)
  | .located _ ty => tuple_types ty
  | .tuple ts => some ts
  | .name n args => if n == "Tuple" then some args else none
  | _ => none

mutual

/-- The variants a pattern covers, and whether it is taken to catch everything. -/
def pattern_covers_variants : Pattern → Ty → List String × Bool
  | ⟨_, kind⟩, subject_ty => kind_covers_variants kind subject_ty

def kind_covers_variants : PatternKind → Ty → List String × Bool
  | .wildcard, subject_ty => (checker.get_enum_variants subject_ty, true)
  | .variable_ name, subject_ty =>
      let all := checker.get_enum_variants subject_ty
      if all.contains name then ([name], false) else (all, true)
  | .literal value, _ => (literal_covers value, false)
  | .constructor name _, subject_ty => ([name], checker.self_covering name subject_ty)
  | .tuple pats, subject_ty =>
      match tuple_types subject_ty with
      | some elem_types =>
          let (covered, all_catchall) := patterns_cover_variants pats elem_types
          (covered, pats.length == elem_types.length && all_catchall)
      | none => ([], false)
  | .array _, _ | .slice _ _, _ => ([], false)

/-- What the elements of a tuple pattern cover together, and whether each of them catches everything. -/
def patterns_cover_variants : List Pattern → List Ty → List String × Bool
  | p :: pats, ty :: tys =>
      let (vars, sub_catchall) := pattern_covers_variants p ty
      let (covered, all_catchall) := patterns_cover_variants pats tys
      (vars ++ covered, sub_catchall && all_catchall)
  | _, _ => ([], true)

end

/-- The arms without a guard. -/
def unguarded (arms : List MatchArm) : List MatchArm := arms.filter fun arm => arm.guard.isNone

def covered_variants (subject_ty : Ty) (arms : List MatchArm) : List String :=
  (unguarded arms).flatMap fun arm => (checker.pattern_covers_variants arm.pat subject_ty).1

def has_catchall (subject_ty : Ty) (arms : List MatchArm) : Bool :=
  (unguarded arms).any fun arm => (checker.pattern_covers_variants arm.pat subject_ty).2

/-- Types on which nothing is reported before inference has settled them. -/
def exempt (subject_ty : Ty) : Bool :=
  match subject_ty.unlocated with
  | .typeVar _ | .infer | .tyErr => true
  | .name n _ => n == "unknown"
  | _ => false

def missing_variant (subject_ty : Ty) (variant : String) : Diagnostic :=
  (Diagnostic.errorCode "E0215"
    s!"match expression is not exhaustive: missing variant '{variant}' of '{Core.fmtType subject_ty.erase}'"
    checker.span).withHelp s!"add an arm for '{variant}' or a wildcard '_ => ...' arm"

def missing_wildcard (subject_ty : Ty) : Diagnostic :=
  (Diagnostic.errorCode "E0215"
    s!"match on {Core.fmtType subject_ty.erase} type without wildcard '_ => ...' arm may be non-exhaustive"
    checker.span).withHelp "add a wildcard '_ => ...' arm to handle unmatched values"

/-- The reports of `infer_match_expr` about missing arms.  `multi_target_states` are the states that a transition may
have led to, when the subject is its result. -/
def exhaustiveness_diagnostics (subject_ty : Ty) (multi_target_states : List String) (arms : List MatchArm) :
    List Diagnostic :=
  if arms.isEmpty then [.errorCode "E0213" "match expression must have at least one arm" checker.span]
  else
    let effective_variants :=
      if multi_target_states.isEmpty then checker.all_variants subject_ty else multi_target_states
    if checker.has_catchall subject_ty arms then []
    else if effective_variants.isEmpty then
      if exempt subject_ty then [] else [checker.missing_wildcard subject_ty]
    else
      (effective_variants.filter fun variant => !(checker.covered_variants subject_ty arms).contains variant).map
        (checker.missing_variant subject_ty)

end MatchChecker

/-! ### Values and what patterns accept -/

/-- A value that patterns compare as a whole. -/
inductive Scalar where
  | int (value : Int)
  | float (bits : UInt64)
  | string (value : String)
  | unit
  | other (id : Nat)
deriving DecidableEq, Repr

/-- What a value shows to a pattern.  A list is nil or an element before a list; newtypes are their content. -/
inductive Head where
  | scalar (value : Scalar)
  | bool (value : Bool)
  | tuple
  | nil
  | cons
  | variant (name : String)
deriving DecidableEq, Repr

abbrev MatchValue := HeadTree Head

/-- The content of an option type, in either spelling. -/
def option_content : Ty → Option Ty
  | .located _ ty => option_content ty
  | .option ty => some ty
  | .name n [ty] => if n == "Option" then some ty else none
  | _ => none

def result_content : Ty → Option (Ty × Ty)
  | .located _ ty => result_content ty
  | .result ok err => some (ok, err)
  | .name n [ok, err] => if n == "Result" then some (ok, err) else none
  | _ => none

/-- The type of the elements of a sequence. -/
def element_type : Ty → Option Ty
  | .located _ ty => element_type ty
  | .array ty _ | .slice ty => some ty
  | .name n [ty] => if n == "List" then some ty else none
  | _ => none

/-- The fields of a payload; those of a tuple are named by their positions. -/
def payload_fields : Option VariantPayload → List (String × Ty)
  | none => []
  | some (.tuple types) => (types.zipIdx).map fun (ty, i) => (s!"_{i}", ty)
  | some (.record fields) => fields.map fun field => (field.name, field.ty)

/-- The fields of a variant of an option or a result. -/
def builtin_fields (ty : Ty) (variant : String) : Option (List (String × Ty)) :=
  match option_content ty, result_content ty with
  | some content, _ =>
      if variant == "Some" then some [("_0", content)] else if variant == "None" then some [] else none
  | none, some (ok, err) =>
      if variant == "Ok" then some [("_0", ok)] else if variant == "Err" then some [("_0", err)] else none
  | none, none => none

namespace MatchChecker

variable (checker : MatchChecker)

/-- The fields of a variant of the subject's type, with their types. -/
def variant_fields (ty : Ty) (variant : String) : Option (List (String × Ty)) :=
  match ty.unlocated with
  | .name n _ =>
      if n == "bool" then none
      else
        match (checker.types n).map TypeDef.kind with
        | some (.enum variants) =>
            (variants.find? fun v => v.name == variant).map fun v =>
              (payload_fields v.payload).map fun field => (field.1, checker.member_type ty field.2)
        | _ => builtin_fields ty variant
  | _ => builtin_fields ty variant

/-- The content of a newtype, with the name of its constructor. -/
def newtype_content (ty : Ty) : Option (String × Ty) :=
  match ty.unlocated with
  | .newtype n inner => some (n, inner)
  | .name n _ =>
      match (checker.types n).map TypeDef.kind with
      | some (.newtype inner) => some (n, checker.member_type ty inner)
      | _ => none
  | _ => none

/-- A type whose values are scalars: it has no variants, no content, no elements. -/
def plain (ty : Ty) : Bool :=
  (checker.all_variants ty).isEmpty && (checker.newtype_content ty).isNone && (tuple_types ty).isNone &&
    (element_type ty).isNone

/-- The heads of the values of a type, with the types of what stands under them.  `scalar` says which scalars the plain
types have. -/
inductive ValueShape (scalar : Ty → Scalar → Prop) : Ty → Head → List Ty → Prop where
  | bool {ty : Ty} {args : List Ty} (b : Bool) (hbool : ty.unlocated = .name "bool" args) :
      ValueShape scalar ty (.bool b) []
  | variant {ty : Ty} {name : String} {fields : List (String × Ty)}
      (hfields : checker.variant_fields ty name = some fields) :
      ValueShape scalar ty (.variant name) (fields.map Prod.snd)
  | newtype {ty inner : Ty} {name : String} {h : Head} {ts : List Ty} (hvariants : checker.all_variants ty = [])
      (hcontent : checker.newtype_content ty = some (name, inner)) (hinner : ValueShape scalar inner h ts) :
      ValueShape scalar ty h ts
  | tuple {ty : Ty} {ts : List Ty} (hvariants : checker.all_variants ty = []) (htuple : tuple_types ty = some ts) :
      ValueShape scalar ty .tuple ts
  | array_nil {ty elem : Ty} (harray : ty.unlocated = .array elem 0) : ValueShape scalar ty .nil []
  | array_cons {ty elem : Ty} {len : Nat} (harray : ty.unlocated = .array elem (len + 1)) :
      ValueShape scalar ty .cons [elem, .array elem len]
  | slice_nil {ty elem : Ty} (hslice : ty.unlocated = .slice elem) : ValueShape scalar ty .nil []
  | slice_cons {ty elem : Ty} (hslice : ty.unlocated = .slice elem) : ValueShape scalar ty .cons [elem, ty]
  | list_nil {ty elem : Ty} (hvariants : checker.all_variants ty = []) (hlist : ty.unlocated = .name "List" [elem]) :
      ValueShape scalar ty .nil []
  | list_cons {ty elem : Ty} (hvariants : checker.all_variants ty = []) (hlist : ty.unlocated = .name "List" [elem]) :
      ValueShape scalar ty .cons [elem, ty]
  | scalar {ty : Ty} {value : Scalar} (hplain : checker.plain ty = true) (hscalar : scalar ty value) :
      ValueShape scalar ty (.scalar value) []

/-- A literal pattern compares; the parser makes no pattern of an f-string. -/
def literalPat : Lit → Pat Head
  | .int value => .head (.scalar (.int value)) []
  | .float bits => .head (.scalar (.float bits)) []
  | .bool value => .head (.bool value) []
  | .string value => .head (.scalar (.string value)) []
  | .unit => .head (.scalar .unit) []
  | .fString _ => .never

/-- A constructor pattern gives each field of the variant its pattern, by name. -/
def variantPat (name : String) (fields : List (String × Ty)) (subs : List (String × Pat Head)) : Pat Head :=
  if subs.length == fields.length then
    .head (.variant name) (fields.map fun field => (subs.lookup field.1).getD .never)
  else .never

/-- The elements of a sequence pattern, before what it says of the rest. -/
def sequencePat : List (Pat Head) → Pat Head → Pat Head
  | [], rest => rest
  | p :: ps, rest => .head .cons [p, sequencePat ps rest]

mutual

/-- What a pattern accepts among the values of a type; a pattern that does not fit the type accepts none. -/
def patternOf : Pattern → Ty → Pat Head
  | ⟨_, kind⟩, ty => kindOf kind ty

def kindOf : PatternKind → Ty → Pat Head
  | .wildcard, _ => .any
  -- A bare name is a variant of the subject's type, whatever its payload, or binds.
  | .variable_ name, ty =>
      match checker.variant_fields ty name with
      | some fields => .head (.variant name) (List.replicate fields.length .any)
      | none => .any
  | .literal value, _ => literalPat value
  | .constructor name subs, ty =>
      match checker.newtype_content ty with
      | some (newtype, inner) => if newtype == name then contentOf subs inner else .never
      | none =>
          match checker.variant_fields ty name with
          | some fields => variantPat name fields (fieldsOf subs fields)
          | none => .never
  | .tuple pats, ty =>
      match tuple_types ty with
      | some ts => if pats.length == ts.length then .head .tuple (patternsOf pats ts) else .never
      | none => .never
  | .array pats, ty =>
      match element_type ty with
      | some elem => sequencePat (elementsOf pats elem) (.head .nil [])
      | none => .never
  | .slice pats rest, ty =>
      match element_type ty with
      | some elem => sequencePat (elementsOf pats elem) (restOf rest (.name "List" [elem]))
      | none => .never

/-- A newtype pattern looks at the content. -/
def contentOf : List (String × Pattern) → Ty → Pat Head
  | [(_, pat)], inner => patternOf pat inner
  | _, _ => .never

def fieldsOf : List (String × Pattern) → List (String × Ty) → List (String × Pat Head)
  | [], _ => []
  | (name, pat) :: subs, fields =>
      (name, match fields.lookup name with
        | some ty => patternOf pat ty
        | none => .never) :: fieldsOf subs fields

def patternsOf : List Pattern → List Ty → List (Pat Head)
  | p :: ps, ty :: tys => patternOf p ty :: patternsOf ps tys
  | _, _ => []

def elementsOf : List Pattern → Ty → List (Pat Head)
  | [], _ => []
  | p :: ps, elem => patternOf p elem :: elementsOf ps elem

def restOf : Option Pattern → Ty → Pat Head
  | none, _ => .any
  | some p, ty => patternOf p ty

end

end MatchChecker

end Mimi.Checker
