/-
Module: Mimi.Flow.Matrix
Purpose: The expansion of a flow with its system states and verbs in flow_matrix.rs: the Fault state
  and its shadows, reset and recover, the peer fault cascade and the transitions of a pinned state.
Trusted boundary: human-reviewed translation of `src/flow_matrix.rs`; the record shapes are a
  function of the name; the warnings on stderr are left out
-/
import Mimi.Ast
import Mimi.Checker.Names
import Mimi.Lib.Completion

namespace Mimi.Ast

open Mimi.Core (Span)

/-- Metadata of a node: what is not the user's has its structural parent around it. -/
def AstNodeMeta.new (span : Span) (origin : AstOrigin) : AstNodeMeta where
  span := span
  origin := origin
  parent :=
    match origin with
    | .user => .none
    | .desugared _ => .enclosing
    | .prototypeFallback _ => .enclosing
    | .runtimeSystem _ => .enclosing

def AstNodeMeta.synthetic (origin : AstOrigin) : AstNodeMeta := .new .unknown origin

/-- Metadata of a generated child whose anchor is the construct that triggered it. -/
def AstNodeMeta.inherited (span : Span) (origin : AstOrigin) : AstNodeMeta := .new span origin

mutual

/-- The type with the metadata of every node replaced. -/
def Ty.deep_reorigin (info : AstNodeMeta) : Ty → Ty
  | .located _ ty => ty.deep_reorigin info
  | .name n args => .located info (.name n (Ty.deep_reoriginAll info args))
  | .ref lifetime ty => .located info (.ref lifetime (ty.deep_reorigin info))
  | .refMut lifetime ty => .located info (.refMut lifetime (ty.deep_reorigin info))
  | .option ty => .located info (.option (ty.deep_reorigin info))
  | .result ok err => .located info (.result (ok.deep_reorigin info) (err.deep_reorigin info))
  | .tuple elems => .located info (.tuple (Ty.deep_reoriginAll info elems))
  | .func params ret =>
      .located info (.func (Ty.deep_reoriginAll info params) (ret.deep_reorigin info))
  | .externFunc params ret =>
      .located info (.externFunc (Ty.deep_reoriginAll info params) (ret.deep_reorigin info))
  | .cBuffer ty => .located info (.cBuffer (ty.deep_reorigin info))
  | .cap n => .located info (.cap n)
  | .capAtom n => .located info (.capAtom n)
  | .shared ty => .located info (.shared (ty.deep_reorigin info))
  | .weak ty => .located info (.weak (ty.deep_reorigin info))
  | .newtype n ty => .located info (.newtype n (ty.deep_reorigin info))
  | .array ty len => .located info (.array (ty.deep_reorigin info) len)
  | .slice ty => .located info (.slice (ty.deep_reorigin info))
  | .implTrait traits => .located info (.implTrait traits)
  | .dynTrait traits => .located info (.dynTrait traits)
  | .rawPtr ty => .located info (.rawPtr (ty.deep_reorigin info))
  | .rawPtrMut ty => .located info (.rawPtrMut (ty.deep_reorigin info))
  | .nothing => .located info .nothing
  | .infer => .located info .infer
  | .typeVar id => .located info (.typeVar id)
  | .forAll params body => .located info (.forAll params (body.deep_reorigin info))
  | .tyErr => .located info .tyErr

def Ty.deep_reoriginAll (info : AstNodeMeta) : List Ty → List Ty
  | [] => []
  | ty :: tys => ty.deep_reorigin info :: Ty.deep_reoriginAll info tys

end

/-- The fields of a state; a state without a payload has none. -/
def StateDef.fields (state : StateDef) : List Field := state.payload.getD []

/-- The names of the fields of a state. -/
def StateDef.fieldNames (state : StateDef) : List String := state.fields.map Field.name

end Mimi.Ast

namespace Mimi.Flow

open Mimi.Ast Mimi.Lib
open Mimi.Core (Span)

/-! ### Generated nodes -/

def flow_generated_meta (flow : FlowDef) (origin : AstOrigin) : AstNodeMeta :=
  .inherited flow.info.span origin

def generated_record_meta (rule : String) : AstNodeMeta :=
  .synthetic (.runtimeSystem rule)

mutual

/-- The expression with the metadata of the generated nodes in it replaced; below an expression of
another kind nothing is replaced. -/
def generated_expr (origin : AstOrigin) (span : Span) : Expr → Expr
  | .located _ e => generated_expr origin span e
  | .field target n => .located (.new span origin) (.field (generated_expr origin span target) n)
  | .record ty fields rest =>
      .located (.new span origin)
        (.record ty (generated_fields origin span fields) (generated_rest origin span rest))
  | .call callee args =>
      .located (.new span origin)
        (.call (generated_expr origin span callee) (generated_exprs origin span args))
  | .tuple items => .located (.new span origin) (.tuple (generated_exprs origin span items))
  | .list items => .located (.new span origin) (.list (generated_exprs origin span items))
  | .setLiteral items =>
      .located (.new span origin) (.setLiteral (generated_exprs origin span items))
  | e => .located (.new span origin) e

def generated_exprs (origin : AstOrigin) (span : Span) : List Expr → List Expr
  | [] => []
  | e :: es => generated_expr origin span e :: generated_exprs origin span es

def generated_fields (origin : AstOrigin) (span : Span) :
    List RecordFieldExpr → List RecordFieldExpr
  | [] => []
  | ⟨_, name, value⟩ :: fields =>
      ⟨.inherited span origin, name, generated_expr origin span value⟩ ::
        generated_fields origin span fields

def generated_rest (origin : AstOrigin) (span : Span) : Option Expr → Option Expr
  | none => none
  | some e => some (generated_expr origin span e)

end

def generated_stmt (stmt : Stmt) (origin : AstOrigin) (span : Span) : Stmt :=
  .located (.new span origin)
    (match stmt.unlocated with
    | .return_ value => .return_ (value.map (generated_expr origin span))
    | stmt => stmt)

/-! ### Default values -/

/-- The fields of the records and states whose shape is known. -/
abbrev Shapes := String → Option (List Field)

def MAX_DEFAULT_NESTING : Nat := 8

def emptyString : Expr := .literal (.string "")

def memory_dump_expr : Expr :=
  .record (some "MemoryDump")
    [{ info := generated_record_meta "flow.memory_dump.fields", name := "fields"
       value := emptyString },
     { info := generated_record_meta "flow.memory_dump.count", name := "count"
       value := .literal (.int 0) }]
    none

def panic_payload_expr (event snapshot : String) : Expr :=
  .record (some "PanicPayload")
    [{ info := generated_record_meta "flow.panic_payload.error_type", name := "error_type"
       value := .literal (.string event) },
     { info := generated_record_meta "flow.panic_payload.file", name := "file"
       value := emptyString },
     { info := generated_record_meta "flow.panic_payload.line", name := "line"
       value := .literal (.int 0) },
     { info := generated_record_meta "flow.panic_payload.stack", name := "stack"
       value := .literal (.string snapshot) }]
    none

/-- The trace of a fault: the state and the event, a summary, and two structured records. -/
def system_trace_expr (from_state event snapshot : String) : Expr :=
  .record (some "SystemTrace")
    [{ info := generated_record_meta "flow.system_trace.last_state", name := "last_state_name"
       value := .literal (.string from_state) },
     { info := generated_record_meta "flow.system_trace.unexpected_event"
       name := "unexpected_event", value := .literal (.string event) },
     { info := generated_record_meta "flow.system_trace.snapshot", name := "snapshot"
       value := .literal (.string snapshot) },
     { info := generated_record_meta "flow.system_trace.memory_dump", name := "memory_dump"
       value := memory_dump_expr },
     { info := generated_record_meta "flow.system_trace.panic_payload", name := "panic_payload"
       value := panic_payload_expr event snapshot }]
    none

mutual

/-- The default value of a type, at a depth of nesting. -/
def default_type_value_depth (shapes : Shapes) (depth : Nat) : Ty → Expr
  | .located _ ty => default_type_value_depth shapes depth ty
  | .name n args =>
      if n = "string" ∨ n = "String" then emptyString
      else if n = "i32" ∨ n = "i64" ∨ n = "Int" then .literal (.int 0)
      else if n = "f32" ∨ n = "f64" ∨ n = "Float" then .literal (.float 0)
      else if n = "bool" ∨ n = "Bool" then .literal (.bool false)
      else if n = "SystemTrace" then system_trace_expr "" "" ""
      else if (shapes n).isSome then
        -- a cycle of shapes ends in unit
        if depth ≥ MAX_DEFAULT_NESTING then .literal .unit
        else .record (some n) (default_fields shapes (depth + 1) ((shapes n).getD [])) none
      else if n = "List" ∨ n = "list" then .list []
      else if n = "Option" ∨ n = "option" then .ident "None"
      else if n = "Result" ∨ n = "result" then
        .call (.ident "Err") [default_error shapes (depth + 1) args]
      else if n = "Map" ∨ n = "map" then .call (.ident "map_new") []
      else if n = "Set" ∨ n = "set" then .setLiteral []
      else .literal .unit
  | .tuple elems => .tuple (default_values shapes (depth + 1) elems)
  | _ => .literal .unit
termination_by ty => (MAX_DEFAULT_NESTING - depth, sizeOf ty)
decreasing_by
  all_goals
    simp_wf
    rw [Prod.lex_def]
    simp only [true_and]
    omega

def default_fields (shapes : Shapes) (depth : Nat) : List Field → List RecordFieldExpr
  | [] => []
  | ⟨_, name, ty⟩ :: fields =>
      { info := generated_record_meta "flow.default.record_field", name := name
        value := default_type_value_depth shapes depth ty } :: default_fields shapes depth fields
termination_by fields => (MAX_DEFAULT_NESTING - depth, sizeOf fields)

/-- The payload of a default error: the second type argument. -/
def default_error (shapes : Shapes) (depth : Nat) : List Ty → Expr
  | _ :: ty :: _ => default_type_value_depth shapes depth ty
  | _ => emptyString
termination_by args => (MAX_DEFAULT_NESTING - depth, sizeOf args)

def default_values (shapes : Shapes) (depth : Nat) : List Ty → List Expr
  | [] => []
  | ty :: tys => default_type_value_depth shapes depth ty :: default_values shapes depth tys
termination_by elems => (MAX_DEFAULT_NESTING - depth, sizeOf elems)

end

/-- Default expression for a type in injected bodies. -/
def default_type_value (ty : Ty) (shapes : Shapes) : Expr :=
  default_type_value_depth shapes 0 ty

/-! ### The body of a generated transition -/

/-- The type is a name with the property. -/
def namedSuch (p : String → Bool) (ty : Ty) : Bool :=
  match ty.unlocated with
  | .name n _ => p n
  | _ => false

/-- `n` ends with the text. -/
def endsWith (n text : String) : Bool := text.toList.isSuffixOf n.toList

/-- What follows `panic:` in an event. -/
def panicCode (event : String) : Option String :=
  if "panic:".toList.isPrefixOf event.toList then some (String.ofList (event.toList.drop 6))
  else none

/-- The default of a field; the well-known fields of a fault say where it comes from. -/
def default_field_value (field : String) (ty : Ty) (from_state event snapshot : String)
    (shapes : Shapes) : Expr :=
  if field = "last_state" ∨ field = "last_state_name" then
    if namedSuch (endsWith · "::StateId") ty then .call (.ident from_state) []
    else .literal (.string from_state)
  else if field = "unexpected_event" then
    if namedSuch (endsWith · "::EventId") ty then
      match panicCode event with
      | some code => .call (.ident "Panic") [.literal (.string code)]
      | none => .call (.ident event) []
    else .literal (.string event)
  else if field = "snapshot" then .literal (.string snapshot)
  else if field = "trace" then
    if namedSuch (· == "SystemTrace") ty then system_trace_expr from_state event snapshot
    else .literal (.string snapshot)
  else if field = "memory_dump" ∧ namedSuch (· == "MemoryDump") ty then memory_dump_expr
  else if field = "panic_payload" ∧ namedSuch (· == "PanicPayload") ty then
    panic_payload_expr event snapshot
  else default_type_value ty shapes

/-- `self.<name>`. -/
def selfField (name : String) : Expr := .field (.ident "self") name

/-- The first declared state of a name. -/
def findState (flow : FlowDef) (name : String) : Option StateDef :=
  flow.states.find? fun s => s.name == name

/-- The fields of the first declared state of a name. -/
def fieldsOf (flow : FlowDef) (name : String) : List Field :=
  ((findState flow name).map StateDef.fields).getD []

/-- `return <target> \x7b ... \x7d`, a value for each field of the target. -/
def return_record (flow : FlowDef) (target : String) (value : Field → Expr) (origin : AstOrigin) :
    Block :=
  let fields := (fieldsOf flow target).map fun f =>
    { info := flow_generated_meta flow origin, name := f.name, value := value f }
  [generated_stmt (.return_ (some (.record (some target) fields none))) origin flow.info.span]

/-- Root (initial) state of a flow: first non-Fault declared state. -/
def root_state_name (flow : FlowDef) : Option String :=
  (flow.states.find? fun s => s.name != "Fault").map StateDef.name

/-- The root state from defaults; `keep_persistent` takes the surviving values off the fault. -/
def rebuild_root_body (flow : FlowDef) (root : String) (keep_persistent : Bool) (shapes : Shapes)
    (origin : AstOrigin) : Block :=
  return_record flow root
    (fun f =>
      if keep_persistent && flow.persistent_fields.contains f.name then selfField f.name
      else default_type_value f.ty shapes)
    origin

/-- What a field of the fault is set to when `event` arrives in `from_state`. -/
def fault_field_value (flow : FlowDef) (from_state event : String) (shapes : Shapes) (f : Field) :
    Expr :=
  let is_fault_to_fault := from_state == "Fault"
  let snapshot := "undefined transition " ++ event ++ "(" ++ from_state ++ ")"
  let from_fields := (fieldsOf flow from_state).map Field.name
  if flow.persistent_fields.contains f.name && from_fields.contains f.name then selfField f.name
  else if is_fault_to_fault &&
      ["trace", "last_state", "unexpected_event", "snapshot"].contains f.name then
    -- a fault in the fault state keeps the trace of the first one
    selfField f.name
  else default_field_value f.name f.ty from_state event snapshot shapes

/-- `return Fault \x7b ... \x7d` in the shape of the Fault state. -/
def fault_return_body (flow : FlowDef) (from_state event : String) (shapes : Shapes)
    (origin : AstOrigin) : Block :=
  return_record flow "Fault" (fault_field_value flow from_state event shapes) origin

/-! ### The Fault state -/

/-- The type of a persistent field, from any state that declares it. -/
def persistentType (flow : FlowDef) (name : String) : Ty :=
  (((flow.states.flatMap StateDef.fields).find? fun f => f.name == name).map Field.ty).getD
    (.name "unit" [])

/-- A shadow of a persistent field, if the payload has no field of the name. -/
def addShadow (flow : FlowDef) (fault_span : Span) (payload : List Field) (name : String) :
    List Field :=
  if payload.any (·.name == name) then payload
  else
    let info : AstNodeMeta := .inherited fault_span (.runtimeSystem "flow.persistent_shadow")
    payload ++ [{ info, name, ty := (persistentType flow name).deep_reorigin info }]

/-- Add each persistent field onto the Fault payload if missing. -/
def attach_persistent_shadows (flow : FlowDef) : FlowDef :=
  if flow.persistent_fields.isEmpty then flow
  else
    { flow with
      states := modifyFirst (fun s => s.name == "Fault")
        (fun fault =>
          { fault with
            payload := some
              (flow.persistent_fields.foldl (addShadow flow fault.info.span) fault.fields) })
        flow.states }

/-- The injected Fault state. -/
def generatedFault (flow : FlowDef) (module : String) : StateDef :=
  let info := flow_generated_meta flow (.runtimeSystem "flow.fault_state")
  let qualified_flow := if module.isEmpty then flow.name else module ++ "::" ++ flow.name
  let named (n : String) : Ty := (Ty.name n []).deep_reorigin info
  { info
    name := "Fault"
    payload := some
      ([{ info, name := "last_state", ty := named ("flow::" ++ qualified_flow ++ "::StateId") },
        { info, name := "unexpected_event"
          ty := named ("flow::" ++ qualified_flow ++ "::EventId") },
        { info, name := "snapshot", ty := named "string" },
        { info, name := "trace", ty := named "SystemTrace" }] ++
        (flow.fault_type.toList.map fun fault_ty =>
          { info, name := "error", ty := fault_ty.deep_reorigin info })) }

/-- Ensure a `Fault` state exists, with the shadows of the persistent fields. -/
def ensure_fault_state (flow : FlowDef) (module : String) : FlowDef :=
  attach_persistent_shadows
    (if flow.states.any (fun s => s.name == "Fault") then flow
    else { flow with states := flow.states ++ [generatedFault flow module] })

/-! ### The system verbs -/

def has_transition (flow : FlowDef) (name from_state : String) : Bool :=
  flow.transitions.any fun t => t.name == name && t.from_state == from_state

/-- A transition without parameters that is not the user's. -/
def generated_transition (flow : FlowDef) (name from_state to_state : String) (body : Block)
    (rule : String) (is_fallback is_ffi_pinned : Bool) : TransitionDef where
  info := flow_generated_meta flow (.runtimeSystem rule)
  name := name
  from_state := from_state
  params := []
  to_states := [to_state]
  fails := none
  body := some body
  is_fallback := is_fallback
  is_ffi_pinned := is_ffi_pinned

def reset_transition (flow : FlowDef) (root : String) (shapes : Shapes) : TransitionDef :=
  generated_transition flow "reset" "Fault" root
    (rebuild_root_body flow root false shapes (.runtimeSystem "flow.reset"))
    "flow.reset" true false

def recover_transition (flow : FlowDef) (root : String) (shapes : Shapes) : TransitionDef :=
  generated_transition flow "recover" "Fault" root
    (rebuild_root_body flow root (!flow.persistent_fields.isEmpty) shapes
      (.runtimeSystem "flow.recover"))
    "flow.recover" true false

/-- One more transition, unless it is there. -/
def push_unless (present : Bool) (t : TransitionDef) (flow : FlowDef) : FlowDef :=
  if present then flow else { flow with transitions := flow.transitions ++ [t] }

/-- `reset` and `recover` from Fault to the root state. -/
def inject_system_verbs (flow : FlowDef) (shapes : Shapes) : FlowDef :=
  match root_state_name flow with
  | none => flow
  | some root =>
      let has_reset := has_transition flow "reset" "Fault"
      let has_recover := has_transition flow "recover" "Fault"
      push_unless has_recover (recover_transition flow root shapes)
        (push_unless has_reset (reset_transition flow root shapes) flow)

def peer_fault_transition (flow : FlowDef) (shapes : Shapes) (state : String) : TransitionDef :=
  generated_transition flow "peer_fault" state "Fault"
    (fault_return_body flow state "peer_fault" shapes (.runtimeSystem "flow.peer_fault"))
    "flow.peer_fault" true false

/-- `peer_fault` to Fault from every state that does not handle it, and last from Fault itself. -/
def inject_peer_fault_verbs (flow : FlowDef) (shapes : Shapes) : FlowDef :=
  let states := (flow.states.filter fun s => s.name != "Fault").map StateDef.name
  let defined := (flow.transitions.filter fun t => t.name == "peer_fault").map
    TransitionDef.from_state
  let injected := (states.filter fun state => !defined.contains state).map
    (peer_fault_transition flow shapes)
  let injected_fault :=
    if !defined.contains "Fault" && flow.states.any (fun s => s.name == "Fault") then
      [peer_fault_transition flow shapes "Fault"]
    else []
  { flow with transitions := flow.transitions ++ (injected ++ injected_fault) }

/-- `return <target> \x7b field: self.field, ... \x7d`. -/
def passthrough_body (flow : FlowDef) (target : String) (origin : AstOrigin) : Block :=
  return_record flow target (fun f => selfField f.name) origin

def enter_ffi_transition (flow : FlowDef) (active : String) : TransitionDef :=
  generated_transition flow "enter_ffi" active "FFI_Pinned"
    (passthrough_body flow "FFI_Pinned" (.runtimeSystem "flow.ffi.enter"))
    "flow.ffi.enter" false true

def exit_ffi_transition (flow : FlowDef) (active : String) : TransitionDef :=
  generated_transition flow "exit_ffi" "FFI_Pinned" active
    (passthrough_body flow active (.runtimeSystem "flow.ffi.exit"))
    "flow.ffi.exit" false true

def ffi_crash_transition (flow : FlowDef) (shapes : Shapes) : TransitionDef :=
  generated_transition flow "ffi_crash" "FFI_Pinned" "Fault"
    (fault_return_body flow "FFI_Pinned" "ffi_crash" shapes (.runtimeSystem "flow.ffi.crash"))
    "flow.ffi.crash" true true

/-- The first state that is neither Fault nor pinned. -/
def active_state_name (flow : FlowDef) : Option String :=
  (flow.states.find? fun s => s.name != "Fault" && s.name != "FFI_Pinned").map StateDef.name

/-- The active state and the pinned state have the same fields. -/
def payloads_compatible (flow : FlowDef) (active : String) : Bool :=
  (fieldsOf flow active).map Field.name == (fieldsOf flow "FFI_Pinned").map Field.name

/-- The transitions of an explicitly declared `FFI_Pinned` state. -/
def inject_ffi_pinned_transitions (flow : FlowDef) (shapes : Shapes) : FlowDef :=
  if flow.states.any (fun s => s.name == "FFI_Pinned") then
    match active_state_name flow with
    | none => flow
    | some active =>
        let compatible := payloads_compatible flow active
        let entered := push_unless (has_transition flow "enter_ffi" active || !compatible)
          (enter_ffi_transition flow active) flow
        let left := push_unless (has_transition entered "exit_ffi" "FFI_Pinned" || !compatible)
          (exit_ffi_transition entered active) entered
        push_unless (has_transition left "ffi_crash" "FFI_Pinned")
          (ffi_crash_transition left shapes) left
  else flow

/-! ### The expansion -/

/-- The expansion of one flow, where the shapes of the whole file are known. -/
def expand_flow_with_shapes (flow : FlowDef) (shapes : Shapes) (module : String) : FlowDef :=
  let flow := ensure_fault_state flow module
  let flow := inject_system_verbs flow shapes
  let flow := inject_peer_fault_verbs flow shapes
  inject_ffi_pinned_transitions flow shapes

/-- The shapes of the states of one flow; the first declaration of a name counts. -/
def flowShapes (flow : FlowDef) : Shapes := fun n =>
  (flow.states.find? fun s => s.name != "Fault" && s.name == n).map StateDef.fields

/-- Expand a single flow: only its own states are known. -/
def expand_flow (flow : FlowDef) : FlowDef :=
  expand_flow_with_shapes flow (flowShapes flow) ""

end Mimi.Flow
