/-
Module: Mimi.Loader.Remap
Purpose: The traversal of loader/flow.rs that rewrites the source identities of the spans of a file,
  child by child as the source visits them.
Trusted boundary: none
-/
import Mimi.Ast
import Mimi.Source

namespace Mimi.Loader

open Mimi.Ast Mimi.Source
open Mimi.Core (Span)

variable (remap : SourceIdRemap)

def remap_span_source (span : Span) : Except String Span :=
  match remap.remap span.sourceId with
  | .error error => .error s!"cannot remap AST span: {error.display}"
  | .ok id => .ok { span with sourceId := id }

def remap_meta (info : AstNodeMeta) : Except String AstNodeMeta := do
  return { info with span := ← remap_span_source remap info.span }

def remap_imports_spans (imports : List Import) : Except String (List Import) :=
  imports.mapM fun import_ => do return { import_ with info := ← remap_meta remap import_.info }

def remap_generic_params_spans (params : List GenericParam) : Except String (List GenericParam) :=
  params.mapM fun param => do return { param with info := ← remap_meta remap param.info }

/-- Visit a child that may be missing. -/
def onSome {α : Type} (visit : α → Except String α) : Option α → Except String (Option α)
  | none => .ok none
  | some child => do return some (← visit child)

/-! ### Types -/

mutual

def remap_type_spans : Ty → Except String Ty
  | .located info ty => do
      return .located (← remap_meta remap info) (← remap_type_spans ty)
  | .name n args => do return .name n (← remap_types_spans args)
  | .tuple args => do return .tuple (← remap_types_spans args)
  | .ref lifetime inner => do return .ref lifetime (← remap_type_spans inner)
  | .refMut lifetime inner => do return .refMut lifetime (← remap_type_spans inner)
  | .option inner => do return .option (← remap_type_spans inner)
  | .cBuffer inner => do return .cBuffer (← remap_type_spans inner)
  | .shared inner => do return .shared (← remap_type_spans inner)
  | .weak inner => do return .weak (← remap_type_spans inner)
  | .newtype n inner => do return .newtype n (← remap_type_spans inner)
  | .array inner len => do return .array (← remap_type_spans inner) len
  | .slice inner => do return .slice (← remap_type_spans inner)
  | .rawPtr inner => do return .rawPtr (← remap_type_spans inner)
  | .rawPtrMut inner => do return .rawPtrMut (← remap_type_spans inner)
  | .forAll params inner => do return .forAll params (← remap_type_spans inner)
  | .result ok err => do return .result (← remap_type_spans ok) (← remap_type_spans err)
  | .func params ret => do return .func (← remap_types_spans params) (← remap_type_spans ret)
  | .externFunc params ret => do
      return .externFunc (← remap_types_spans params) (← remap_type_spans ret)
  | .cap n => .ok (.cap n)
  | .capAtom n => .ok (.capAtom n)
  | .nothing => .ok .nothing
  | .implTrait traits => .ok (.implTrait traits)
  | .dynTrait traits => .ok (.dynTrait traits)
  | .infer => .ok .infer
  | .tyErr => .ok .tyErr
  | .typeVar id => .ok (.typeVar id)

/-- The loop over a list of types. -/
def remap_types_spans : List Ty → Except String (List Ty)
  | [] => .ok []
  | ty :: tys => do return (← remap_type_spans ty) :: (← remap_types_spans tys)

end

def remap_session_type_spans : Ast.SessionType → Except String Ast.SessionType
  | .located info session => do
      return .located (← remap_meta remap info) (← remap_session_type_spans session)
  | .send ty cont => do
      return .send (← remap_type_spans remap ty) (← remap_session_type_spans cont)
  | .recv ty cont => do
      return .recv (← remap_type_spans remap ty) (← remap_session_type_spans cont)
  | .dual inner => do return .dual (← remap_session_type_spans inner)
  | .name n => .ok (.name n)
  | .end_ => .ok .end_

/-! ### Patterns -/

mutual

def remap_pattern_spans : Pattern → Except String Pattern
  | ⟨info, kind⟩ => do return ⟨← remap_meta remap info, ← remap_pattern_kind kind⟩

/-- A literal is left as it is, with what an f-string in it interpolates. -/
def remap_pattern_kind : PatternKind → Except String PatternKind
  | .constructor n fields => do return .constructor n (← remap_pattern_fields fields)
  | .tuple patterns => do return .tuple (← remap_patterns patterns)
  | .array patterns => do return .array (← remap_patterns patterns)
  | .slice patterns rest => do
      return .slice (← remap_patterns patterns) (← remap_rest_pattern rest)
  | .wildcard => .ok .wildcard
  | .variable_ n => .ok (.variable_ n)
  | .literal value => .ok (.literal value)

def remap_patterns : List Pattern → Except String (List Pattern)
  | [] => .ok []
  | pattern :: patterns => do
      return (← remap_pattern_spans pattern) :: (← remap_patterns patterns)

def remap_pattern_fields : List (String × Pattern) → Except String (List (String × Pattern))
  | [] => .ok []
  | (n, pattern) :: fields => do
      return (n, ← remap_pattern_spans pattern) :: (← remap_pattern_fields fields)

def remap_rest_pattern : Option Pattern → Except String (Option Pattern)
  | none => .ok none
  | some pattern => do return some (← remap_pattern_spans pattern)

end

/-! ### Expressions and statements -/

mutual

def remap_expr_spans : Expr → Except String Expr
  | .located info e => do return .located (← remap_meta remap info) (← remap_expr_spans e)
  | .literal value => do return .literal (← remap_literal value)
  | .ident n => .ok (.ident n)
  | .typeInfo ty => do return .typeInfo (← remap_type_spans remap ty)
  | .binary op left right => do
      return .binary op (← remap_expr_spans left) (← remap_expr_spans right)
  | .index value at_ => do return .index (← remap_expr_spans value) (← remap_expr_spans at_)
  | .unary op value => do return .unary op (← remap_expr_spans value)
  | .try_ value => do return .try_ (← remap_expr_spans value)
  | .spawn value => do return .spawn (← remap_expr_spans value)
  | .await value => do return .await (← remap_expr_spans value)
  | .quoteInterpolate value => do return .quoteInterpolate (← remap_expr_spans value)
  | .typeOf value => do return .typeOf (← remap_expr_spans value)
  | .old value => do return .old (← remap_expr_spans value)
  | .tupleIndex value idx => do return .tupleIndex (← remap_expr_spans value) idx
  | .namedArg n value => do return .namedArg n (← remap_expr_spans value)
  | .cast value ty => do return .cast (← remap_expr_spans value) (← remap_type_spans remap ty)
  | .call callee args => do return .call (← remap_expr_spans callee) (← remap_exprs args)
  | .field value n => do return .field (← remap_expr_spans value) n
  | .optionalChain value n => do return .optionalChain (← remap_expr_spans value) n
  | .tuple values => do return .tuple (← remap_exprs values)
  | .list values => do return .list (← remap_exprs values)
  | .setLiteral values => do return .setLiteral (← remap_exprs values)
  | .comprehension e var iter guard => do
      return .comprehension (← remap_expr_spans e) var (← remap_expr_spans iter)
        (← remap_opt_expr guard)
  | .match_ value arms => do return .match_ (← remap_expr_spans value) (← remap_arms arms)
  -- the rest expression is not visited
  | .record ty fields rest => do return .record ty (← remap_record_fields fields) rest
  | .block body => do return .block (← remap_block_spans body)
  | .quote body => do return .quote (← remap_block_spans body)
  | .comptime body => do return .comptime (← remap_block_spans body)
  | .arena body => do return .arena (← remap_block_spans body)
  | .if_ cond then_ else_ => do
      return .if_ (← remap_expr_spans cond) (← remap_block_spans then_) (← remap_opt_block else_)
  | .lambda params ret body => do
      return .lambda (← remap_params_spans params) (← onSome (remap_type_spans remap) ret)
        (← remap_block_spans body)
  | .sliceExpr target start end_ => do
      return .sliceExpr (← remap_expr_spans target) (← remap_opt_expr start)
        (← remap_opt_expr end_)
  | .turbofish n type_args args => do
      return .turbofish n (← remap_types_spans remap type_args) (← remap_exprs args)
  | .mapLiteral entries => do return .mapLiteral (← remap_entries entries)

def remap_literal : Lit → Except String Lit
  | .fString parts => do return .fString (← remap_parts parts)
  | .int value => .ok (.int value)
  | .float bits => .ok (.float bits)
  | .bool value => .ok (.bool value)
  | .string value => .ok (.string value)
  | .unit => .ok .unit

def remap_parts : List FStringPart → Except String (List FStringPart)
  | [] => .ok []
  | .text value :: parts => do return .text value :: (← remap_parts parts)
  | .interp e :: parts => do return .interp (← remap_expr_spans e) :: (← remap_parts parts)

def remap_exprs : List Expr → Except String (List Expr)
  | [] => .ok []
  | e :: es => do return (← remap_expr_spans e) :: (← remap_exprs es)

def remap_opt_expr : Option Expr → Except String (Option Expr)
  | none => .ok none
  | some e => do return some (← remap_expr_spans e)

def remap_arms : List MatchArm → Except String (List MatchArm)
  | [] => .ok []
  | ⟨info, pat, guard, body⟩ :: arms => do
      return ⟨← remap_meta remap info, ← remap_pattern_spans remap pat, ← remap_opt_expr guard,
        ← remap_expr_spans body⟩ :: (← remap_arms arms)

def remap_record_fields : List RecordFieldExpr → Except String (List RecordFieldExpr)
  | [] => .ok []
  | ⟨info, n, value⟩ :: fields => do
      return ⟨← remap_meta remap info, n, ← remap_expr_spans value⟩ ::
        (← remap_record_fields fields)

def remap_entries : List (Expr × Expr) → Except String (List (Expr × Expr))
  | [] => .ok []
  | (key, value) :: entries => do
      return (← remap_expr_spans key, ← remap_expr_spans value) :: (← remap_entries entries)

def remap_params_spans : List Param → Except String (List Param)
  | [] => .ok []
  | ⟨info, n, ty, mut_, default_value, borrow⟩ :: params => do
      return ⟨← remap_meta remap info, n, ← remap_type_spans remap ty, mut_,
        ← remap_opt_expr default_value, borrow⟩ :: (← remap_params_spans params)

def remap_func_spans : FuncDef → Except String FuncDef
  | ⟨info, n, pub_, params, ret, body, where_clause, generics, effects, is_comptime, is_async,
      extern_abi, has_requires, has_ensures, has_mutate_params⟩ => do
    let info ← remap_meta remap info
    let generics ← remap_generic_params_spans remap generics
    let where_clause ← where_clause.mapM fun clause => do
      return { clause with info := ← remap_meta remap clause.info }
    let params ← remap_params_spans params
    let ret ← onSome (remap_type_spans remap) ret
    let body ← remap_block_spans body
    return ⟨info, n, pub_, params, ret, body, where_clause, generics, effects, is_comptime,
      is_async, extern_abi, has_requires, has_ensures, has_mutate_params⟩

def remap_block_spans : List Stmt → Except String (List Stmt)
  | [] => .ok []
  | stmt :: stmts => do return (← remap_stmt_spans stmt) :: (← remap_block_spans stmts)

def remap_opt_block : Option (List Stmt) → Except String (Option (List Stmt))
  | none => .ok none
  | some block => do return some (← remap_block_spans block)

def remap_stmt_spans : Stmt → Except String Stmt
  | .located info stmt => do
      return .located (← remap_meta remap info) (← remap_stmt_spans stmt)
  | .let_ pat ty init mut_ ref_ => do
      return .let_ (← remap_pattern_spans remap pat) (← onSome (remap_type_spans remap) ty)
        (← remap_opt_expr init) mut_ ref_
  | .return_ value => do return .return_ (← remap_opt_expr value)
  | .break_ value => do return .break_ (← remap_opt_expr value)
  | .continue_ => .ok .continue_
  | .ellipsis => .ok .ellipsis
  | .expr e => do return .expr (← remap_expr_spans e)
  | .drop e => do return .drop (← remap_expr_spans e)
  | .if_ cond then_ else_ => do
      return .if_ (← remap_expr_spans cond) (← remap_block_spans then_) (← remap_opt_block else_)
  | .ifLet pat init then_ else_ => do
      return .ifLet (← remap_pattern_spans remap pat) (← remap_expr_spans init)
        (← remap_block_spans then_) (← remap_opt_block else_)
  | .while_ cond body => do return .while_ (← remap_expr_spans cond) (← remap_block_spans body)
  | .whileLet pat init body => do
      return .whileLet (← remap_pattern_spans remap pat) (← remap_expr_spans init)
        (← remap_block_spans body)
  | .loop body => do return .loop (← remap_block_spans body)
  | .block body => do return .block (← remap_block_spans body)
  | .arena body => do return .arena (← remap_block_spans body)
  | .unsafe_ body => do return .unsafe_ (← remap_block_spans body)
  | .ieeeFloat body => do return .ieeeFloat (← remap_block_spans body)
  | .onFailure body => do return .onFailure (← remap_block_spans body)
  | .parasteps body => do return .parasteps (← remap_block_spans body)
  | .defer body => do return .defer (← remap_block_spans body)
  -- the variable pattern is not visited
  | .for_ var iterable body => do
      return .for_ var (← remap_expr_spans iterable) (← remap_block_spans body)
  | .requires e span => do
      let span ← remap_span_source remap span
      return .requires (← remap_expr_spans e) span
  | .ensures e span => do
      let span ← remap_span_source remap span
      return .ensures (← remap_expr_spans e) span
  | .invariant e span => do
      let span ← remap_span_source remap span
      return .invariant (← remap_expr_spans e) span
  | .math exprs => do return .math (← remap_exprs exprs)
  | .assign target value => do
      return .assign (← remap_expr_spans target) (← remap_expr_spans value)
  | .sharedLet kind n ty init => do
      return .sharedLet kind n (← onSome (remap_type_spans remap) ty) (← remap_expr_spans init)
  | .pinned e var body => do
      return .pinned (← remap_expr_spans e) var (← remap_block_spans body)
  | .func function => do return .func (← remap_func_spans function)

end

/-! ### Items -/

def remap_fields_spans (fields : List Field) : Except String (List Field) :=
  fields.mapM fun field => do
    return { field with info := ← remap_meta remap field.info, ty := ← remap_type_spans remap field.ty }

def remap_payload_spans : VariantPayload → Except String VariantPayload
  | .tuple types => do return .tuple (← remap_types_spans remap types)
  | .record fields => do return .record (← remap_fields_spans remap fields)

def remap_variant_spans (variant : Variant) : Except String Variant := do
  return { variant with
    info := ← remap_meta remap variant.info
    payload := ← onSome (remap_payload_spans remap) variant.payload }

def remap_type_def_kind : TypeDefKind → Except String TypeDefKind
  | .alias_ ty => do return .alias_ (← remap_type_spans remap ty)
  | .newtype ty => do return .newtype (← remap_type_spans remap ty)
  | .record fields => do return .record (← remap_fields_spans remap fields)
  | .union fields => do return .union (← remap_fields_spans remap fields)
  | .enum variants => do return .enum (← variants.mapM (remap_variant_spans remap))

def remap_type_def_spans (type_def : TypeDef) : Except String TypeDef := do
  return { type_def with
    info := ← remap_meta remap type_def.info
    generics := ← remap_generic_params_spans remap type_def.generics
    kind := ← remap_type_def_kind remap type_def.kind }

def remap_session_spans (session : SessionDef) : Except String SessionDef := do
  return { session with
    info := ← remap_meta remap session.info
    body := ← remap_session_type_spans remap session.body }

def remap_actor_field_spans (field : ActorField) : Except String ActorField := do
  return { field with
    info := ← remap_meta remap field.info
    ty := ← remap_type_spans remap field.ty
    init := ← remap_opt_expr remap field.init }

def remap_actor_spans (actor : ActorDef) : Except String ActorDef := do
  return { actor with
    info := ← remap_meta remap actor.info
    fields := ← actor.fields.mapM (remap_actor_field_spans remap)
    methods := ← actor.methods.mapM (remap_func_spans remap) }

def remap_trait_method_spans (method : TraitMethod) : Except String TraitMethod := do
  return { method with
    info := ← remap_meta remap method.info
    generics := ← remap_generic_params_spans remap method.generics
    params := ← remap_params_spans remap method.params
    ret := ← onSome (remap_type_spans remap) method.ret }

def remap_trait_spans (trait_def : TraitDef) : Except String TraitDef := do
  return { trait_def with
    info := ← remap_meta remap trait_def.info
    generics := ← remap_generic_params_spans remap trait_def.generics
    methods := ← trait_def.methods.mapM (remap_trait_method_spans remap) }

def remap_impl_spans (impl_def : ImplDef) : Except String ImplDef := do
  return { impl_def with
    info := ← remap_meta remap impl_def.info
    generics := ← remap_generic_params_spans remap impl_def.generics
    trait_args := ← remap_types_spans remap impl_def.trait_args
    type_args := ← remap_types_spans remap impl_def.type_args
    methods := ← impl_def.methods.mapM (remap_func_spans remap) }

def remap_extern_param_spans (param : ExternParam) : Except String ExternParam := do
  return { param with
    info := ← remap_meta remap param.info
    ty := ← remap_type_spans remap param.ty }

def remap_extern_func_spans (function : ExternFunc) : Except String ExternFunc := do
  return { function with
    info := ← remap_meta remap function.info
    params := ← function.params.mapM (remap_extern_param_spans remap)
    ret := ← onSome (remap_type_spans remap) function.ret
    requires := ← remap_opt_expr remap function.requires
    ensures := ← remap_opt_expr remap function.ensures }

def remap_extern_block_spans (block : ExternBlock) : Except String ExternBlock := do
  return { block with
    info := ← remap_meta remap block.info
    funcs := ← block.funcs.mapM (remap_extern_func_spans remap) }

def remap_const_spans (const : ConstDef) : Except String ConstDef := do
  return { const with
    info := ← remap_meta remap const.info
    ty := ← onSome (remap_type_spans remap) const.ty
    value := ← remap_expr_spans remap const.value }

def remap_state_spans (state : StateDef) : Except String StateDef := do
  return { state with
    info := ← remap_meta remap state.info
    payload := ← onSome (remap_fields_spans remap) state.payload }

/-- The type behind `fails` is not visited. -/
def remap_transition_spans (transition : TransitionDef) : Except String TransitionDef := do
  return { transition with
    info := ← remap_meta remap transition.info
    params := ← remap_params_spans remap transition.params
    body := ← remap_opt_block remap transition.body }

/-- The fault type is not visited. -/
def remap_flow_spans (flow : FlowDef) : Except String FlowDef := do
  return { flow with
    info := ← remap_meta remap flow.info
    generics := ← remap_generic_params_spans remap flow.generics
    annotations := ← flow.annotations.mapM fun note => do
      return { note with info := ← remap_meta remap note.info }
    states := ← flow.states.mapM (remap_state_spans remap)
    transitions := ← flow.transitions.mapM (remap_transition_spans remap) }

def remap_item_spans : Item → Except String Item
  | .func function => do return .func (← remap_func_spans remap function)
  | .type type_def => do return .type (← remap_type_def_spans remap type_def)
  | .cap cap => do return .cap { cap with info := ← remap_meta remap cap.info }
  | .session session => do return .session (← remap_session_spans remap session)
  | .actor actor => do return .actor (← remap_actor_spans remap actor)
  | .trait trait_def => do return .trait (← remap_trait_spans remap trait_def)
  | .impl impl_def => do return .impl (← remap_impl_spans remap impl_def)
  | .externBlock block => do return .externBlock (← remap_extern_block_spans remap block)
  | .const const => do return .const (← remap_const_spans remap const)
  | .flow flow => do return .flow (← remap_flow_spans remap flow)

end Mimi.Loader
