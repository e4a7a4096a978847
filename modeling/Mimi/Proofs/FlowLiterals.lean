/-
Module: Mimi.Proofs.FlowLiterals
Purpose: The record literals of injected bodies: which fields of `self` they read, and that every
  literal of a state in them lists the fields of the state.
Trusted boundary: none
-/
import Mimi.Flow.Matrix

namespace Mimi.Flow

open Mimi.Ast Mimi.Lib
open Mimi.Core (Span)

/-- Expressions made of scalar literals, names other than `self`, applications of a name, collections,
field reads `self.<n>` with `reads n`, and record literals whose fields are as `shaped` asks. -/
inductive Built (reads : String → Prop) (shaped : String → List String → Prop) : Expr → Prop
  | located {info : AstNodeMeta} {e : Expr} : Built reads shaped e → Built reads shaped (.located info e)
  | int (value : Int) : Built reads shaped (.literal (.int value))
  | float (bits : UInt64) : Built reads shaped (.literal (.float bits))
  | bool (value : Bool) : Built reads shaped (.literal (.bool value))
  | string (value : String) : Built reads shaped (.literal (.string value))
  | unit : Built reads shaped (.literal .unit)
  | ident {n : String} : n ≠ "self" → Built reads shaped (.ident n)
  | selfField {target : Expr} {n : String} :
      target.unlocated = .ident "self" → reads n → Built reads shaped (.field target n)
  | call {callee : Expr} {n : String} {args : List Expr} :
      callee.unlocated = .ident n → (∀ a ∈ args, Built reads shaped a) →
        Built reads shaped (.call callee args)
  | tuple {items : List Expr} : (∀ e ∈ items, Built reads shaped e) → Built reads shaped (.tuple items)
  | list {items : List Expr} : (∀ e ∈ items, Built reads shaped e) → Built reads shaped (.list items)
  | setLiteral {items : List Expr} :
      (∀ e ∈ items, Built reads shaped e) → Built reads shaped (.setLiteral items)
  | record {n : String} {fields : List RecordFieldExpr} :
      shaped n (fields.map RecordFieldExpr.name) → (∀ f ∈ fields, Built reads shaped f.value) →
        Built reads shaped (.record (some n) fields none)

/-! ### Generated nodes -/

section

variable (origin : AstOrigin) (span : Span)

theorem generated_exprs_eq_map (es : List Expr) :
    generated_exprs origin span es = es.map (generated_expr origin span) := by
  induction es with
  | nil => rfl
  | cons e es ih => rw [generated_exprs, ih, List.map_cons]

theorem generated_fields_eq_map (fields : List RecordFieldExpr) :
    generated_fields origin span fields = fields.map fun f =>
      ⟨.inherited span origin, f.name, generated_expr origin span f.value⟩ := by
  induction fields with
  | nil => rfl
  | cons f fields ih =>
      obtain ⟨info, name, value⟩ := f
      rw [generated_fields, ih, List.map_cons]

/-- A name stays the name it is. -/
theorem generated_expr_ident {n : String} : ∀ {e : Expr}, e.unlocated = .ident n →
    (generated_expr origin span e).unlocated = .ident n := by
  intro e
  induction e using Expr.unlocated.induct with
  | case1 info e ih =>
      intro name
      rw [generated_expr]
      exact ih name
  | case2 e plain =>
      intro name
      cases e with
      | located info e => exact absurd rfl (plain info e)
      | ident m => exact name
      | _ => cases name

variable {reads : String → Prop} {shaped : String → List String → Prop}

theorem generated_expr_built {e : Expr} (built : Built reads shaped e) :
    Built reads shaped (generated_expr origin span e) := by
  have all : ∀ {items : List Expr}, (∀ e ∈ items, Built reads shaped (generated_expr origin span e)) →
      ∀ e ∈ generated_exprs origin span items, Built reads shaped e := by
    intro items each e member
    rw [generated_exprs_eq_map] at member
    obtain ⟨item, there, rfl⟩ := List.mem_map.mp member
    exact each item there
  induction built with
  | located _ ih => exact ih
  | int value => exact .located (.int value)
  | float bits => exact .located (.float bits)
  | bool value => exact .located (.bool value)
  | string value => exact .located (.string value)
  | unit => exact .located .unit
  | ident other => exact .located (.ident other)
  | selfField self allowed => exact .located (.selfField (generated_expr_ident origin span self) allowed)
  | call name _ ih => exact .located (.call (generated_expr_ident origin span name) (all ih))
  | tuple _ ih => exact .located (.tuple (all ih))
  | list _ ih => exact .located (.list (all ih))
  | setLiteral _ ih => exact .located (.setLiteral (all ih))
  | @record n fields names values ih =>
      refine .located ?_
      rw [generated_rest, generated_fields_eq_map]
      refine .record ?_ fun f member => ?_
      · rw [List.map_map]
        exact names
      · obtain ⟨g, there, rfl⟩ := List.mem_map.mp member
        exact ih g there

end

/-! ### Default values -/

/-- The records of a fault trace, which are no states. -/
def systemRecords : List String := ["SystemTrace", "MemoryDump", "PanicPayload"]

theorem default_fields_names (shapes : Shapes) (depth : Nat) (fields : List Field) :
    (default_fields shapes depth fields).map RecordFieldExpr.name = fields.map Field.name := by
  induction fields with
  | nil => rw [default_fields]; rfl
  | cons f fields ih => rw [default_fields, List.map_cons, List.map_cons, ih]

section

variable {reads : String → Prop} {shaped : String → List String → Prop} {shapes : Shapes}

theorem built_ite {c : Prop} [Decidable c] {e e' : Expr} (then_ : c → Built reads shaped e)
    (else_ : ¬c → Built reads shaped e') : Built reads shaped (if c then e else e') := by
  split_ifs with h
  · exact then_ h
  · exact else_ h

variable (system : ∀ n ∈ systemRecords, ∀ names, shaped n names)

include system

theorem memory_dump_built : Built reads shaped memory_dump_expr := by
  refine .record (system _ (by decide) _) fun f member => ?_
  rcases List.mem_pair.mp member with rfl | rfl
  · exact .string _
  · exact .int _

theorem panic_payload_built (event snapshot : String) :
    Built reads shaped (panic_payload_expr event snapshot) := by
  refine .record (system _ (by decide) _) fun f member => ?_
  simp only [List.mem_cons, List.not_mem_nil, or_false] at member
  rcases member with rfl | rfl | rfl | rfl
  · exact .string _
  · exact .string _
  · exact .int _
  · exact .string _

theorem system_trace_built (from_state event snapshot : String) :
    Built reads shaped (system_trace_expr from_state event snapshot) := by
  refine .record (system _ (by decide) _) fun f member => ?_
  simp only [List.mem_cons, List.not_mem_nil, or_false] at member
  rcases member with rfl | rfl | rfl | rfl | rfl
  · exact .string _
  · exact .string _
  · exact .string _
  · exact memory_dump_built system
  · exact panic_payload_built system event snapshot

variable (known : ∀ n fields, shapes n = some fields → shaped n (fields.map Field.name))

include known

-- the hypotheses go through the recursion
set_option linter.unusedSectionVars false in
mutual

theorem default_type_value_depth_built (depth : Nat) (ty : Ty) :
    Built reads shaped (default_type_value_depth shapes depth ty) := by
  cases ty with
  | located info ty =>
      rw [default_type_value_depth]
      exact default_type_value_depth_built depth ty
  | name n args =>
      rw [default_type_value_depth]
      refine built_ite (fun _ => .string _) fun _ => ?_
      refine built_ite (fun _ => .int _) fun _ => ?_
      refine built_ite (fun _ => .float _) fun _ => ?_
      refine built_ite (fun _ => .bool _) fun _ => ?_
      refine built_ite (fun _ => system_trace_built system _ _ _) fun _ => ?_
      refine built_ite (fun shape => built_ite (fun _ => .unit) fun deep => ?_) fun _ => ?_
      · obtain ⟨fields, shape⟩ := Option.isSome_iff_exists.mp shape
        have names := known n fields shape
        rw [shape]
        refine .record ?_ (default_fields_built (depth + 1) fields)
        rwa [Option.getD_some, default_fields_names]
      refine built_ite (fun _ => .list fun e member => absurd member List.not_mem_nil) fun _ => ?_
      refine built_ite (fun _ => .ident (by decide)) fun _ => ?_
      refine built_ite (fun _ => .call rfl fun e member => ?_) fun _ => ?_
      · rw [List.mem_singleton.mp member]
        exact default_error_built (depth + 1) args
      refine built_ite (fun _ => .call rfl fun e member => absurd member List.not_mem_nil) fun _ => ?_
      exact built_ite (fun _ => .setLiteral fun e member => absurd member List.not_mem_nil)
        fun _ => .unit
  | tuple elems =>
      rw [default_type_value_depth]
      exact .tuple (default_values_built (depth + 1) elems)
  | _ =>
      rw [default_type_value_depth]
      exact .unit
      all_goals simp
termination_by (MAX_DEFAULT_NESTING - depth, sizeOf ty)
decreasing_by
  all_goals
    simp_wf
    rw [Prod.lex_def]
    simp only [true_and]
    omega

theorem default_fields_built (depth : Nat) (fields : List Field) :
    ∀ f ∈ default_fields shapes depth fields, Built reads shaped f.value := by
  cases fields with
  | nil =>
      intro f member
      rw [default_fields] at member
      exact absurd member List.not_mem_nil
  | cons field fields =>
      intro f member
      obtain ⟨info, name, ty⟩ := field
      rw [default_fields] at member
      rcases List.mem_cons.mp member with rfl | later
      · exact default_type_value_depth_built depth ty
      · exact default_fields_built depth fields f later
termination_by (MAX_DEFAULT_NESTING - depth, sizeOf fields)

theorem default_error_built (depth : Nat) (args : List Ty) :
    Built reads shaped (default_error shapes depth args) := by
  match args with
  | _ :: ty :: _ =>
      rw [default_error]
      exact default_type_value_depth_built depth ty
  | [] =>
      unfold default_error
      exact .string _
  | [_] =>
      unfold default_error
      exact .string _
termination_by (MAX_DEFAULT_NESTING - depth, sizeOf args)

theorem default_values_built (depth : Nat) (elems : List Ty) :
    ∀ e ∈ default_values shapes depth elems, Built reads shaped e := by
  cases elems with
  | nil =>
      intro e member
      rw [default_values] at member
      exact absurd member List.not_mem_nil
  | cons ty elems =>
      intro e member
      rw [default_values] at member
      rcases List.mem_cons.mp member with rfl | later
      · exact default_type_value_depth_built depth ty
      · exact default_values_built depth elems e later
termination_by (MAX_DEFAULT_NESTING - depth, sizeOf elems)

end

theorem default_type_value_built (ty : Ty) : Built reads shaped (default_type_value ty shapes) :=
  default_type_value_depth_built system known 0 ty

theorem default_field_value_built (field : String) (ty : Ty) (from_state event snapshot : String) :
    Built reads shaped (default_field_value field ty from_state event snapshot shapes) := by
  have nothing : ∀ e ∈ ([] : List Expr), Built reads shaped e :=
    fun e member => absurd member List.not_mem_nil
  refine built_ite (fun _ => built_ite (fun _ => .call rfl nothing) fun _ => .string _) fun _ => ?_
  refine built_ite (fun _ => built_ite (fun _ => ?_) fun _ => .string _) fun _ => ?_
  · cases panicCode event with
    | none => exact .call rfl nothing
    | some code =>
        refine .call rfl fun e member => ?_
        rw [List.mem_singleton.mp member]
        exact .string _
  refine built_ite (fun _ => .string _) fun _ => ?_
  refine built_ite (fun _ => built_ite (fun _ => system_trace_built system _ _ _) fun _ => .string _)
    fun _ => ?_
  refine built_ite (fun _ => memory_dump_built system) fun _ => ?_
  refine built_ite (fun _ => panic_payload_built system _ _) fun _ => ?_
  exact default_type_value_built system known ty

end

/-! ### The literals of the transitions -/

/-- The fields of the Fault state include the persistent ones. -/
def Shadowed (flow : FlowDef) : Prop :=
  ∀ name ∈ flow.persistent_fields, name ∈ (fieldsOf flow "Fault").map Field.name

section

variable {flow : FlowDef} {shaped : String → List String → Prop} {shapes : Shapes}
  (system : ∀ n ∈ systemRecords, ∀ names, shaped n names)
  (known : ∀ n fields, shapes n = some fields → shaped n (fields.map Field.name))

include system known

/-- A fault is built from defaults and from fields that the faulting state has. -/
theorem fault_field_value_built (from_state event : String) {f : Field}
    (member : f ∈ fieldsOf flow "Fault") :
    Built (· ∈ (fieldsOf flow from_state).map Field.name) shaped
      (fault_field_value flow from_state event shapes f) := by
  refine built_ite (fun kept => ?_) fun _ => built_ite (fun fault => ?_) fun _ => ?_
  · exact .selfField rfl (List.contains_iff_mem.mp (Bool.and_eq_true_iff.mp kept).2)
  · have same : from_state = "Fault" := beq_iff_eq.mp (Bool.and_eq_true_iff.mp fault).1
    exact .selfField rfl (same ▸ List.mem_map_of_mem member)
  · exact default_field_value_built system known _ _ _ _ _

/-- The root is built from defaults and from the shadows in the fault. -/
theorem rebuild_field_built (shadowed : Shadowed flow) (keep_persistent : Bool) (f : Field) :
    Built (· ∈ (fieldsOf flow "Fault").map Field.name) shaped
      (if keep_persistent && flow.persistent_fields.contains f.name then selfField f.name
      else default_type_value f.ty shapes) := by
  refine built_ite (fun kept => ?_) fun _ => default_type_value_built system known f.ty
  exact .selfField rfl (shadowed f.name (List.contains_iff_mem.mp (Bool.and_eq_true_iff.mp kept).2))

end

end Mimi.Flow
