/-
Module: Mimi.Proofs.DefaultTyping
Purpose: When the default value of a type has the type.  The default of a scalar that the code does not
  list is unit, and so is that of a record eight levels down; a record under a name for which the code
  has a literal gets the literal.  The default of `f32` is an `f64`, that of a map is a `Record`, and the
  default of an `i64` in a tuple is an `i32`.  Everywhere else the default is right.
Trusted boundary: the scalar names are those of `PrimitiveType::from_language_name` in
  `src/core/ir/types.rs`; the types of expressions are those of `check_expr` and `infer_expr` in
  `src/core/infer_expr.rs`
-/
import Mimi.Flow.Matrix

namespace Mimi.Flow

open Mimi.Ast

/-! ### Types of generated expressions -/

/-- The integer types that a literal takes from its context, with their least and greatest values. -/
def integerRanges : List (String × Int × Int) :=
  [("i8", -2 ^ 7, 2 ^ 7 - 1), ("i16", -2 ^ 15, 2 ^ 15 - 1), ("i32", -2 ^ 31, 2 ^ 31 - 1),
    ("i64", -2 ^ 63, 2 ^ 63 - 1), ("i128", -2 ^ 127, 2 ^ 127 - 1),
    ("u8", 0, 2 ^ 8 - 1), ("u16", 0, 2 ^ 16 - 1), ("u32", 0, 2 ^ 32 - 1), ("u64", 0, 2 ^ 64 - 1),
    ("u128", 0, 2 ^ 128 - 1)]

/-- The scalar types of the language. -/
def scalarNames : List String :=
  integerRanges.map Prod.fst ++ ["isize", "usize", "f32", "f64", "bool", "char", "unit"]

/-- How an expression is typed: against the type that its place expects (`check_expr`), or on its own
(`infer_expr`), after which the type found has to be the expected one. -/
inductive Mode where
  | check
  | infer
deriving DecidableEq

/-- The type of an integer literal on its own. -/
def literalInteger (value : Int) : String := if -2 ^ 31 ≤ value ∧ value < 2 ^ 31 then "i32" else "i64"

/-- The types of literals, collections and calls that name a built-in, and of record literals.  A name is
that of a record if it has a shape, and else a built-in one.  The elements of a tuple are typed on their own, the
fields of a record against its shape, and the payload of a `Result` as the `Result` is.  A call of `map_new` is an
erased `Record` and has no other type. -/
inductive HasType (shapes : Shapes) : Mode → Expr → Ty → Prop where
  | located {mode : Mode} {info : AstNodeMeta} {e : Expr} {ty : Ty} (typed : HasType shapes mode e ty) :
      HasType shapes mode e (.located info ty)
  | coerced {n : String} {least most value : Int} (plain : shapes n = none)
      (integer : (n, least, most) ∈ integerRanges) (above : least ≤ value) (below : value ≤ most) :
      HasType shapes .check (.literal (.int value)) (.name n [])
  | int {mode : Mode} {value : Int} (plain : shapes (literalInteger value) = none) :
      HasType shapes mode (.literal (.int value)) (.name (literalInteger value) [])
  | float {mode : Mode} {bits : UInt64} (plain : shapes "f64" = none) :
      HasType shapes mode (.literal (.float bits)) (.name "f64" [])
  | bool {mode : Mode} {value : Bool} (plain : shapes "bool" = none) :
      HasType shapes mode (.literal (.bool value)) (.name "bool" [])
  | unit {mode : Mode} (plain : shapes "unit" = none) : HasType shapes mode (.literal .unit) (.name "unit" [])
  | string {mode : Mode} {value : String} (plain : shapes "string" = none) :
      HasType shapes mode (.literal (.string value)) (.name "string" [])
  | none {mode : Mode} {ty : Ty} (plain : shapes "Option" = none) :
      HasType shapes mode (.ident "None") (.name "Option" [ty])
  | err {mode : Mode} {e : Expr} {ok err : Ty} (plain : shapes "Result" = none)
      (typed : HasType shapes mode e err) :
      HasType shapes mode (.call (.ident "Err") [e]) (.name "Result" [ok, err])
  | set {mode : Mode} {ty : Ty} (plain : shapes "Set" = none) :
      HasType shapes mode (.setLiteral []) (.name "Set" [ty])
  | list {mode : Mode} {ty : Ty} (plain : shapes "List" = none) :
      HasType shapes mode (.list []) (.name "List" [ty])
  | tuple {mode : Mode} {es : List Expr} {tys : List Ty} (typed : List.Forall₂ (HasType shapes .infer) es tys) :
      HasType shapes mode (.tuple es) (.tuple tys)
  | record {mode : Mode} {n : String} {shape : List Field} {fields : List RecordFieldExpr}
      (shaped : shapes n = some shape)
      (names : fields.map RecordFieldExpr.name = shape.map Field.name)
      (typed : List.Forall₂ (HasType shapes .check) (fields.map RecordFieldExpr.value) (shape.map Field.ty)) :
      HasType shapes mode (.record (some n) fields none) (.name n [])

/-- The types that are made of scalars, strings, collections, tuples and records that do not contain
themselves. -/
inductive Constructed (shapes : Shapes) : Ty → Prop where
  | located (info : AstNodeMeta) {ty : Ty} (inner : Constructed shapes ty) :
      Constructed shapes (.located info ty)
  | scalar {n : String} (plain : shapes n = none) (scalar : n ∈ scalarNames) :
      Constructed shapes (.name n [])
  | string (plain : shapes "string" = none) : Constructed shapes (.name "string" [])
  | list {ty : Ty} (plain : shapes "List" = none) (inner : Constructed shapes ty) :
      Constructed shapes (.name "List" [ty])
  | option {ty : Ty} (plain : shapes "Option" = none) (inner : Constructed shapes ty) :
      Constructed shapes (.name "Option" [ty])
  | result {ok err : Ty} (plain : shapes "Result" = none) (ok_ : Constructed shapes ok)
      (err_ : Constructed shapes err) : Constructed shapes (.name "Result" [ok, err])
  | map {key value : Ty} (plain : shapes "Map" = none) (key_ : Constructed shapes key)
      (value_ : Constructed shapes value) : Constructed shapes (.name "Map" [key, value])
  | set {ty : Ty} (plain : shapes "Set" = none) (inner : Constructed shapes ty) :
      Constructed shapes (.name "Set" [ty])
  | tuple {elems : List Ty} (inner : ∀ ty ∈ elems, Constructed shapes ty) :
      Constructed shapes (.tuple elems)
  | record {n : String} {shape : List Field} (shaped : shapes n = some shape)
      (inner : ∀ f ∈ shape, Constructed shapes f.ty) : Constructed shapes (.name n [])

/-! ### What the default of a type visits -/

/-- A place of a type in another one: how what stands there is typed, the type, and the depth. -/
abbrev Place := Mode × Ty × Nat

/-- The types whose defaults stand in the default of a type. -/
inductive Visits (shapes : Shapes) : Place → Place → Prop where
  | located {mode : Mode} {info : AstNodeMeta} {ty : Ty} {depth : Nat} :
      Visits shapes (mode, .located info ty, depth) (mode, ty, depth)
  | field {mode : Mode} {n : String} {args : List Ty} {shape : List Field} {f : Field} {depth : Nat}
      (shaped : shapes n = some shape) (other : n ≠ "SystemTrace") (member : f ∈ shape) :
      Visits shapes (mode, .name n args, depth) (.check, f.ty, depth + 1)
  | error {mode : Mode} {ok err : Ty} {depth : Nat} (plain : shapes "Result" = none) :
      Visits shapes (mode, .name "Result" [ok, err], depth) (mode, err, depth + 1)
  | elem {mode : Mode} {elems : List Ty} {ty : Ty} {depth : Nat} (member : ty ∈ elems) :
      Visits shapes (mode, .tuple elems, depth) (.infer, ty, depth + 1)

/-- The names that have a literal as their default, whatever their shape. -/
def literalNames : List String :=
  ["string", "String", "i32", "i64", "Int", "f32", "f64", "Float", "bool", "Bool"]

/-- The shapes of the trace and of the records in it are those of the trace that the code writes. -/
def TraceShaped (shapes : Shapes) : Prop :=
  HasType shapes .check (system_trace_expr "" "" "") (.name "SystemTrace" [])

/-- The scalars whose default is right; an integer that is typed on its own is an `i32`. -/
def rightScalars : Mode → List String
  | .check => ["i32", "i64", "f64", "bool", "unit"]
  | .infer => ["i32", "f64", "bool", "unit"]

/-- The code has the right default at a place: a scalar is one that it has right, there is no map, and a record is not
too far down and not under a name that stands for something else. -/
def Handled (shapes : Shapes) : Place → Prop
  | (mode, .name n _, depth) =>
      if (shapes n).isSome then
        if n = "SystemTrace" then TraceShaped shapes
        else n ∉ literalNames ∧ depth < MAX_DEFAULT_NESTING
      else n ∈ "Map" :: scalarNames → n ∈ rightScalars mode
  | _ => True

/-- Everything that a default visits is handled. -/
def Throughout (shapes : Shapes) (at_ : Place) : Prop :=
  ∀ place, Relation.ReflTransGen (Visits shapes) at_ place → Handled shapes place

theorem throughout_iff {shapes : Shapes} {at_ : Place} : Throughout shapes at_ ↔
    Handled shapes at_ ∧ ∀ next, Visits shapes at_ next → Throughout shapes next := by
  constructor
  · exact fun all => ⟨all at_ .refl, fun next visits place reached => all place (.head visits reached)⟩
  · rintro ⟨here, onward⟩ place reached
    rcases Relation.ReflTransGen.cases_head reached with rfl | ⟨next, visits, reached⟩
    · exact here
    · exact onward next visits place reached

variable {n : String}

theorem visits_record {shapes : Shapes} {mode : Mode} {depth : Nat} {next : Place}
    (visits : Visits shapes (mode, .name n [], depth) next) : ∃ shape f, shapes n = some shape ∧
      n ≠ "SystemTrace" ∧ f ∈ shape ∧ next = (.check, f.ty, depth + 1) := by
  cases visits with
  | field shaped other member => exact ⟨_, _, shaped, other, member, rfl⟩

/-! ### The defaults -/

section

variable {shapes : Shapes} {mode : Mode} {depth : Nat}

theorem default_values_eq_map (elems : List Ty) :
    default_values shapes depth elems = elems.map (default_type_value_depth shapes depth) := by
  induction elems with
  | nil => rw [default_values]; rfl
  | cons ty elems ih => rw [default_values, ih, List.map_cons]

theorem default_fields_name (fields : List Field) :
    (default_fields shapes depth fields).map RecordFieldExpr.name = fields.map Field.name := by
  induction fields with
  | nil => rw [default_fields]; rfl
  | cons f fields ih => rw [default_fields, List.map_cons, List.map_cons, ih]

theorem default_fields_value (fields : List Field) :
    (default_fields shapes depth fields).map RecordFieldExpr.value =
      fields.map fun f => default_type_value_depth shapes depth f.ty := by
  induction fields with
  | nil => rw [default_fields]; rfl
  | cons f fields ih => rw [default_fields, List.map_cons, List.map_cons, ih]

variable {args : List Ty}

/-- The default under a name that is neither a record nor one of the listed scalars. -/
theorem default_plain (plain : shapes n = none) (unlisted : n ∉ literalNames) (other : n ≠ "SystemTrace") :
    default_type_value_depth shapes depth (.name n args) =
      if n = "List" ∨ n = "list" then .list []
      else if n = "Option" ∨ n = "option" then .ident "None"
      else if n = "Result" ∨ n = "result" then
        .call (.ident "Err") [default_error shapes (depth + 1) args]
      else if n = "Map" ∨ n = "map" then .call (.ident "map_new") []
      else if n = "Set" ∨ n = "set" then .setLiteral []
      else .literal .unit := by
  simp only [literalNames, List.mem_cons, List.not_mem_nil, or_false, not_or] at unlisted
  obtain ⟨s, s', i, i', i'', f, f', f'', b, b'⟩ := unlisted
  rw [default_type_value_depth, if_neg (not_or.mpr ⟨s, s'⟩),
    if_neg (not_or.mpr ⟨i, not_or.mpr ⟨i', i''⟩⟩), if_neg (not_or.mpr ⟨f, not_or.mpr ⟨f', f''⟩⟩),
    if_neg (not_or.mpr ⟨b, b'⟩), if_neg other, plain, if_neg (by decide)]

variable {shape : List Field}

/-- The default under the name of a record. -/
theorem default_record (shaped : shapes n = some shape) (unlisted : n ∉ literalNames) (other : n ≠ "SystemTrace") :
    default_type_value_depth shapes depth (.name n args) =
      if depth ≥ MAX_DEFAULT_NESTING then .literal .unit
      else .record (some n) (default_fields shapes (depth + 1) shape) none := by
  simp only [literalNames, List.mem_cons, List.not_mem_nil, or_false, not_or] at unlisted
  obtain ⟨s, s', i, i', i'', f, f', f'', b, b'⟩ := unlisted
  rw [default_type_value_depth, if_neg (not_or.mpr ⟨s, s'⟩),
    if_neg (not_or.mpr ⟨i, not_or.mpr ⟨i', i''⟩⟩), if_neg (not_or.mpr ⟨f, not_or.mpr ⟨f', f''⟩⟩),
    if_neg (not_or.mpr ⟨b, b'⟩), if_neg other, shaped, if_pos (by rfl),
    Option.getD_some]

variable {e : Expr}

/-- No literal has the type of a record. -/
theorem plain_of_literal {ty : Ty} {value : Lit}
    (typed : HasType shapes mode e ty) (literal : e = .literal value) (name : ty = .name n args) :
    shapes n = none := by
  cases typed with
  | coerced plain | int plain | float plain | bool plain | unit plain | string plain =>
      obtain ⟨rfl, -⟩ := Ty.name.inj name
      exact plain
  | located | tuple => cases name
  | none | err | set | list | record => cases literal

theorem default_literal (listed : n ∈ literalNames) :
    ∃ value, default_type_value_depth shapes depth (.name n args) = .literal value := by
  rw [default_type_value_depth]
  simp only [literalNames, List.mem_cons, List.not_mem_nil, or_false] at listed
  rcases listed with rfl | rfl | rfl | rfl | rfl | rfl | rfl | rfl | rfl | rfl <;> exact ⟨_, rfl⟩

theorem typed_located {info : AstNodeMeta} {ty : Ty} :
    HasType shapes mode e (.located info ty) ↔ HasType shapes mode e ty :=
  ⟨fun typed => by cases typed; assumption, .located⟩

theorem typed_tuple {es : List Expr} {tys : List Ty} :
    HasType shapes mode (.tuple es) (.tuple tys) ↔ List.Forall₂ (HasType shapes .infer) es tys :=
  ⟨fun typed => by cases typed; assumption, .tuple⟩

theorem typed_of_err {payload : Expr} {ty ok err : Ty} (typed : HasType shapes mode e ty)
    (call : e = .call (.ident "Err") [payload]) (name : ty = .name "Result" [ok, err]) :
    HasType shapes mode payload err := by
  cases typed with
  | err _ typed =>
      obtain ⟨-, same⟩ := Expr.call.inj call
      obtain ⟨-, same'⟩ := Ty.name.inj name
      obtain ⟨rfl, -⟩ := List.cons.inj same
      obtain ⟨rfl, -⟩ := List.cons.inj (List.cons.inj same').2
      exact typed
  | located | tuple => cases name
  | coerced | int | float | bool | unit | string | none | set | list | record => cases call

theorem typed_err {ok err : Ty} (plain : shapes "Result" = none) :
    HasType shapes mode (.call (.ident "Err") [e]) (.name "Result" [ok, err]) ↔ HasType shapes mode e err :=
  ⟨fun typed => typed_of_err typed rfl rfl, .err plain⟩

/-- A call of `map_new` is no map. -/
theorem not_typed_map_new {ty : Ty} (typed : HasType shapes mode e ty)
    (call : e = .call (.ident "map_new") []) (name : ty = .name n args) : False := by
  cases typed with
  | err => cases (Expr.call.inj call).2
  | located | tuple => cases name
  | coerced | int | float | bool | unit | string | none | set | list | record => cases call

theorem typed_record (shaped : shapes n = some shape) {fields : List RecordFieldExpr}
    (names : fields.map RecordFieldExpr.name = shape.map Field.name) :
    HasType shapes mode (.record (some n) fields none) (.name n []) ↔
      List.Forall₂ (HasType shapes .check) (fields.map RecordFieldExpr.value) (shape.map Field.ty) := by
  constructor
  · intro typed
    cases typed with
    | record shaped' _ typed =>
        obtain rfl := Option.some.inj (shaped.symm.trans shaped')
        exact typed
  · exact .record shaped names

/-- A record literal is typed alike in both ways. -/
theorem typed_record_check {fields : List RecordFieldExpr} :
    HasType shapes mode (.record (some n) fields none) (.name n []) ↔
      HasType shapes .check (.record (some n) fields none) (.name n []) := by
  constructor
  · rintro (_ | _ | _ | _ | _ | _ | _ | _ | _ | _ | _ | _ | ⟨shaped, names, typed⟩)
    exact .record shaped names typed
  · rintro (_ | _ | _ | _ | _ | _ | _ | _ | _ | _ | _ | _ | ⟨shaped, names, typed⟩)
    exact .record shaped names typed

theorem forall₂_map_iff {α : Type} {R : Expr → Ty → Prop} {l : List α} {f : α → Expr} {g : α → Ty} :
    List.Forall₂ R (l.map f) (l.map g) ↔ ∀ a ∈ l, R (f a) (g a) := by
  rw [List.forall₂_map_left_iff, List.forall₂_map_right_iff]
  exact List.forall₂_same

/-- The types of a literal that is no integer. -/
theorem type_of_literal {ty : Ty} {value : Lit}
    (typed : HasType shapes mode e ty) (literal : e = .literal value) (name : ty = .name n args)
    (noInt : ∀ i, value ≠ .int i) : n ∈ ["f64", "bool", "unit", "string"] ∧
      (value = .unit → n = "unit") ∧ ((∃ bits, value = .float bits) → n = "f64") := by
  cases typed with
  | coerced | int =>
      obtain rfl := Expr.literal.inj literal
      exact absurd rfl (noInt _)
  | float | bool | unit | string =>
      obtain ⟨rfl, -⟩ := Ty.name.inj name
      obtain rfl := Expr.literal.inj literal
      simp
  | located | tuple => cases name
  | none | err | set | list | record => cases literal

/-- The type of an integer literal that is typed on its own. -/
theorem type_of_integer {ty : Ty} {value : Int}
    (typed : HasType shapes .infer e ty) (literal : e = .literal (.int value)) (name : ty = .name n args) :
    n = literalInteger value := by
  cases typed with
  | int plain =>
      obtain ⟨rfl, -⟩ := Ty.name.inj name
      obtain rfl := Lit.int.inj (Expr.literal.inj literal)
      rfl
  | float | bool | unit | string => cases Expr.literal.inj literal
  | located | tuple => cases name
  | none | err | set | list | record => cases literal

theorem throughout_plain (plain : shapes n = none) (other : n ≠ "Result") :
    Throughout shapes (mode, .name n args, depth) ↔ (n ∈ "Map" :: scalarNames → n ∈ rightScalars mode) := by
  have handled : Handled shapes (mode, .name n args, depth) ↔
      (n ∈ "Map" :: scalarNames → n ∈ rightScalars mode) := by
    rw [Handled, plain, if_neg (by decide)]
  refine throughout_iff.trans ((and_iff_left fun next visits => ?_).trans handled)
  cases visits with
  | field shaped => cases plain.symm.trans shaped
  | error => exact absurd rfl other

/-- A scalar that the code does not list is given unit. -/
theorem default_scalar (plain : shapes n = none) (scalar : n ∈ scalarNames) (unlisted : n ∉ literalNames) :
    default_type_value_depth shapes depth (.name n []) = .literal .unit := by
  have other : n ∉ ["SystemTrace", "List", "list", "Option", "option", "Result", "result", "Map", "map",
      "Set", "set"] := by
    intro member
    have apart : ∀ m ∈ scalarNames, m ∉ ["SystemTrace", "List", "list", "Option", "option", "Result",
      "result", "Map", "map", "Set", "set"] := by decide
    exact apart n scalar member
  simp only [List.mem_cons, List.not_mem_nil, or_false, not_or] at other
  obtain ⟨trace, l, l', o, o', r, r', m, m', s, s'⟩ := other
  rw [default_plain plain unlisted trace, if_neg (not_or.mpr ⟨l, l'⟩), if_neg (not_or.mpr ⟨o, o'⟩),
    if_neg (not_or.mpr ⟨r, r'⟩), if_neg (not_or.mpr ⟨m, m'⟩), if_neg (not_or.mpr ⟨s, s'⟩)]

/-- The default of a scalar has its type exactly when it is one of those that the code has right. -/
theorem typed_scalar (plain : shapes n = none) (scalar : n ∈ scalarNames) :
    HasType shapes mode (default_type_value_depth shapes depth (.name n [])) (.name n []) ↔
      n ∈ rightScalars mode := by
  constructor
  · intro typed
    by_cases listed : n ∈ literalNames
    · have few : ∀ m ∈ scalarNames, m ∈ literalNames → m ∈ ["i32", "i64", "f32", "f64", "bool"] := by decide
      have which := few n scalar listed
      simp only [List.mem_cons, List.not_mem_nil, or_false] at which
      rcases which with rfl | rfl | rfl | rfl | rfl
      · cases mode <;> decide
      · cases mode with
        | check => decide
        | infer =>
            rw [default_type_value_depth] at typed
            exact absurd (type_of_integer typed rfl rfl) (by decide)
      · rw [default_type_value_depth] at typed
        exact absurd ((type_of_literal typed rfl rfl fun _ same => by cases same).2.2 ⟨_, rfl⟩) (by decide)
      · cases mode <;> decide
      · cases mode <;> decide
    · rw [default_scalar plain scalar listed] at typed
      rw [(type_of_literal typed rfl rfl fun _ same => by cases same).2.1 rfl]
      cases mode <;> decide
  · intro listed
    have few : n ∈ ["i32", "i64", "f64", "bool", "unit"] ∧ (mode = .infer → n ≠ "i64") := by
      cases mode with
      | check => exact ⟨listed, fun same => by cases same⟩
      | infer =>
          have apart : ∀ m ∈ rightScalars .infer, m ∈ ["i32", "i64", "f64", "bool", "unit"] ∧ m ≠ "i64" := by decide
          exact ⟨(apart n listed).1, fun _ => (apart n listed).2⟩
    obtain ⟨which, notWide⟩ := few
    simp only [List.mem_cons, List.not_mem_nil, or_false] at which
    rcases which with rfl | rfl | rfl | rfl | rfl
    · rw [default_type_value_depth]
      exact @HasType.int _ mode 0 plain
    · cases mode with
      | check =>
          rw [default_type_value_depth]
          exact @HasType.coerced _ _ (-2 ^ 63) (2 ^ 63 - 1) 0 plain (by decide) (by decide) (by decide)
      | infer => exact absurd rfl (notWide rfl)
    · rw [default_type_value_depth]
      exact .float plain
    · rw [default_type_value_depth]
      exact .bool plain
    · rw [default_scalar plain scalar (by decide)]
      exact .unit plain

/-- The default of a record has its type exactly when the record is handled and the defaults of the
fields have theirs. -/
theorem typed_default_record (shaped : shapes n = some shape) (other : n ≠ "SystemTrace") :
    HasType shapes mode (default_type_value_depth shapes depth (.name n [])) (.name n []) ↔
      Handled shapes (mode, .name n [], depth) ∧
        ∀ f ∈ shape, HasType shapes .check (default_type_value_depth shapes (depth + 1) f.ty) f.ty := by
  have handled : Handled shapes (mode, .name n [], depth) ↔
      n ∉ literalNames ∧ depth < MAX_DEFAULT_NESTING := by
    rw [Handled, shaped, if_pos (by rfl), if_neg other]
  rw [handled]
  by_cases listed : n ∈ literalNames
  · obtain ⟨value, is⟩ : ∃ value, default_type_value_depth shapes depth (.name n []) = .literal value :=
      default_literal listed
    refine iff_of_false (fun typed => ?_) fun all => all.1.1 listed
    cases shaped.symm.trans (plain_of_literal typed is rfl)
  · rw [default_record shaped listed other]
    by_cases deep : depth ≥ MAX_DEFAULT_NESTING
    · rw [if_pos deep]
      refine iff_of_false (fun typed => ?_) fun all => absurd deep (Nat.not_le.mpr all.1.2)
      cases shaped.symm.trans (plain_of_literal typed rfl rfl)
    · rw [if_neg deep, typed_record shaped (default_fields_name shape), default_fields_value,
        forall₂_map_iff]
      exact (and_iff_right ⟨listed, Nat.not_le.mp deep⟩).symm

/-- The default of a constructed type has the type exactly when everything it visits is handled. -/
theorem default_typed {ty : Ty} (constructed : Constructed shapes ty) (mode : Mode) (depth : Nat) :
    HasType shapes mode (default_type_value_depth shapes depth ty) ty ↔ Throughout shapes (mode, ty, depth) := by
  induction constructed generalizing mode depth with
  | @located info ty _ ih =>
      rw [default_type_value_depth, typed_located, ih]
      refine Iff.trans ?_ throughout_iff.symm
      constructor
      · intro all
        refine ⟨trivial, fun next visits => ?_⟩
        cases visits
        exact all
      · exact fun all => all.2 _ .located
  | @scalar n plain scalar =>
      have other : n ≠ "Result" := fun same => absurd (same ▸ scalar) (by decide)
      rw [typed_scalar plain scalar, throughout_plain plain other]
      exact ⟨fun listed _ => listed, fun listed => listed (List.mem_cons_of_mem _ scalar)⟩
  | string plain =>
      refine iff_of_true ?_ ((throughout_plain plain (by decide)).mpr fun scalar => absurd scalar (by decide))
      rw [default_type_value_depth]
      exact .string plain
  | list plain _ _ =>
      refine iff_of_true ?_ ((throughout_plain plain (by decide)).mpr fun scalar => absurd scalar (by decide))
      rw [default_plain plain (by decide) (by decide)]
      exact .list plain
  | option plain _ _ =>
      refine iff_of_true ?_ ((throughout_plain plain (by decide)).mpr fun scalar => absurd scalar (by decide))
      rw [default_plain plain (by decide) (by decide)]
      exact .none plain
  | @result ok err plain _ _ _ ih =>
      rw [default_plain plain (by decide) (by decide)]
      refine Iff.trans (typed_err plain) ?_
      rw [default_error, ih]
      refine Iff.trans ?_ throughout_iff.symm
      have handled : Handled shapes (mode, .name "Result" [ok, err], depth) := by
        rw [Handled, plain, if_neg (by decide)]
        exact fun scalar => absurd scalar (by decide)
      rw [and_iff_right handled]
      constructor
      · intro all next visits
        cases visits with
        | error => exact all
        | field shaped => cases plain.symm.trans shaped
      · exact fun all => all _ (.error plain)
  | map plain _ _ _ _ =>
      rw [default_plain plain (by decide) (by decide), throughout_plain plain (by decide)]
      refine iff_of_false (fun typed => not_typed_map_new typed rfl rfl) fun right => ?_
      exact absurd (right List.mem_cons_self) (by cases mode <;> decide)
  | set plain _ _ =>
      refine iff_of_true ?_ ((throughout_plain plain (by decide)).mpr fun scalar => absurd scalar (by decide))
      rw [default_plain plain (by decide) (by decide)]
      exact .set plain
  | @tuple elems _ ih =>
      rw [default_type_value_depth, default_values_eq_map, typed_tuple, List.forall₂_map_left_iff,
        List.forall₂_same, throughout_iff]
      constructor
      · intro all
        refine ⟨trivial, fun next visits => ?_⟩
        cases visits with
        | elem member => exact (ih _ member _ _).mp (all _ member)
      · exact fun all ty member => (ih ty member _ _).mpr (all.2 _ (.elem member))
  | @record n shape shaped _ ih =>
      by_cases trace : n = "SystemTrace"
      · subst trace
        have handled : Handled shapes (mode, .name "SystemTrace" [], depth) ↔ TraceShaped shapes := by
          rw [Handled, shaped, if_pos (by rfl), if_pos rfl]
        have default : default_type_value_depth shapes depth (.name "SystemTrace" []) =
            system_trace_expr "" "" "" := by
          rw [default_type_value_depth]
          rfl
        rw [default]
        refine Iff.trans (typed_record_check.trans handled.symm)
          (Iff.trans (and_iff_left fun next visits => ?_).symm throughout_iff.symm)
        obtain ⟨_, _, _, other, _⟩ := visits_record visits
        exact absurd rfl other
      · rw [typed_default_record shaped trace, throughout_iff]
        refine and_congr_right fun _ => ?_
        constructor
        · intro all next visits
          obtain ⟨shape', f, shaped', -, member, rfl⟩ := visits_record visits
          obtain rfl := Option.some.inj (shaped.symm.trans shaped')
          exact (ih f member _ _).mp (all f member)
        · exact fun all f member => (ih f member _ _).mpr (all _ (.field shaped trace member))

/-- The default of a constructed type has the type exactly when at every place that it visits a scalar is one that
the code has right, there is no map, and a record stands less than eight levels down and not under a name with a
literal. -/
theorem default_typed_iff {ty : Ty} (constructed : Constructed shapes ty) :
    HasType shapes .check (default_type_value ty shapes) ty ↔ Throughout shapes (.check, ty, 0) :=
  default_typed constructed .check 0

end

/-- A field of a generated record. -/
def plainField (name : String) (ty : Ty) : Field := ⟨generated_record_meta name, name, ty⟩

/-- A record of a scalar and a record of a scalar and a tuple. -/
def pairShapes : Shapes := fun n =>
  if n = "Pair" then some [plainField "left" (.name "i64" []), plainField "right" (.name "Inner" [])]
  else if n = "Inner" then
    some [plainField "name" (.name "string" []), plainField "both" (.tuple [.name "i32" [], .name "f64" []])]
  else none

theorem default_typed_iff_pair :
    HasType pairShapes .check (default_type_value (.name "Pair" []) pairShapes) (.name "Pair" []) := by
  have inner : Constructed pairShapes (.name "Inner" []) := by
    refine .record rfl (List.forall_mem_cons.mpr ⟨.string rfl, List.forall_mem_singleton.mpr (.tuple ?_)⟩)
    exact List.forall_mem_cons.mpr ⟨.scalar rfl (by decide), List.forall_mem_singleton.mpr (.scalar rfl (by decide))⟩
  have constructed : Constructed pairShapes (.name "Pair" []) :=
    .record rfl (List.forall_mem_cons.mpr ⟨.scalar rfl (by decide), List.forall_mem_singleton.mpr inner⟩)
  refine (default_typed_iff constructed).mpr (throughout_iff.mpr ⟨⟨by decide, by decide⟩, ?_⟩)
  intro next visits
  obtain ⟨shape, f, shaped, -, member, rfl⟩ := visits_record visits
  obtain rfl := Option.some.inj shaped
  simp only [List.mem_cons, List.not_mem_nil, or_false] at member
  rcases member with rfl | rfl
  · exact (throughout_plain rfl (by decide)).mpr fun _ => by decide
  refine throughout_iff.mpr ⟨⟨by decide, by decide⟩, fun next visits => ?_⟩
  obtain ⟨shape, f, shaped, -, member, rfl⟩ := visits_record visits
  obtain rfl := Option.some.inj shaped
  simp only [List.mem_cons, List.not_mem_nil, or_false] at member
  rcases member with rfl | rfl
  · exact (throughout_plain rfl (by decide)).mpr fun scalar => absurd scalar (by decide)
  refine throughout_iff.mpr ⟨trivial, fun next visits => ?_⟩
  cases visits with
  | elem member =>
      simp only [List.mem_cons, List.not_mem_nil, or_false] at member
      rcases member with rfl | rfl <;> exact (throughout_plain rfl (by decide)).mpr fun _ => by decide

/-- A record of an `f32`, a map and a pair of `i64`. -/
def sampleShapes : Shapes := fun n =>
  ([("Rate", [plainField "rate" (.name "f32" [])]),
    ("Index", [plainField "byName" (.name "Map" [.name "string" [], .name "i32" []])]),
    ("Span", [plainField "ends" (.tuple [.name "i64" [], .name "i64" []])])] : List (String × List Field)).lookup n

/-- A record made of the types of the language whose default has another type. -/
def DefaultIllTyped (n : String) : Prop := Constructed sampleShapes (.name n []) ∧
  ¬HasType sampleShapes .check (default_type_value (.name n []) sampleShapes) (.name n [])

/-- The default of an `f32` is an `f64`, that of a map is no map, and in a tuple that of an `i64` is an `i32`. -/
theorem defaults_ill_typed : DefaultIllTyped "Rate" ∧ DefaultIllTyped "Index" ∧ DefaultIllTyped "Span" := by
  have scalar {n : String} (plain : sampleShapes n = none) (scalar : n ∈ scalarNames) :
      Constructed sampleShapes (.name n []) := .scalar plain scalar
  have field {n name : String} {ty : Ty} (shaped : sampleShapes n = some [plainField name ty])
      (inner : Constructed sampleShapes ty) (other : n ≠ "SystemTrace")
      (wrong : ¬Throughout sampleShapes (.check, ty, 1)) : DefaultIllTyped n := by
    have constructed : Constructed sampleShapes (.name n []) := .record shaped (List.forall_mem_singleton.mpr inner)
    refine ⟨constructed, fun typed => wrong ?_⟩
    exact (throughout_iff.mp ((default_typed constructed .check 0).mp typed)).2 _
      (.field shaped other List.mem_cons_self)
  have float : ¬Throughout sampleShapes (.check, .name "f32" [], 1) := fun all =>
    absurd ((throughout_plain rfl (by decide)).mp all (by decide)) (by decide)
  have map : ¬Throughout sampleShapes (.check, .name "Map" [.name "string" [], .name "i32" []], 1) := fun all =>
    absurd ((throughout_plain rfl (by decide)).mp all List.mem_cons_self) (by decide)
  have wide : ¬Throughout sampleShapes (.check, .tuple [.name "i64" [], .name "i64" []], 1) := fun all =>
    absurd ((throughout_plain rfl (by decide)).mp ((throughout_iff.mp all).2 _ (.elem List.mem_cons_self)) (by decide))
      (by decide)
  refine ⟨field rfl (scalar rfl (by decide)) (by decide) float,
    field rfl (.map rfl (.string rfl) (scalar rfl (by decide))) (by decide) map,
    field rfl (.tuple ?_) (by decide) wide⟩
  exact List.forall_mem_cons.mpr ⟨scalar rfl (by decide), List.forall_mem_singleton.mpr (scalar rfl (by decide))⟩

end Mimi.Flow
