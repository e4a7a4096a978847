/-
Module: Mimi.Proofs.RemapTraversal
Purpose: What the traversal of loader/flow.rs does to the spans of a piece of syntax: each span it
  reaches is translated, each span under a child it leaves out stays, and none is lost or added.
Trusted boundary: none
-/
import Mimi.Lib.Fallible
import Mimi.Loader.Remap
import Mimi.Loader.Spots

namespace Mimi.Loader

open Mimi.Ast Mimi.Source Mimi.Lib
open Mimi.Core (Span)

/-- A span after the traversal: translated if the traversal gets to it, else the same. -/
structure Moved (remap : SourceIdRemap) (before after : Spot) : Prop where
  reached : after.reached = before.reached
  translated : before.reached = true → remap_span_source remap before.span = .ok after.span
  same : before.reached = false → after.span = before.span

variable {remap : SourceIdRemap} {α : Type}

/-- The spans of a piece of syntax are moved one by one. -/
def Moves (remap : SourceIdRemap) (before after : List Spot) : Prop :=
  List.Forall₂ (Moved remap) before after

/-- The spans of what a traversal gives back are those of what it got, moved one by one. -/
def Follows (remap : SourceIdRemap) (visit : α → Except String α) (spots : α → List Spot) : Prop :=
  ∀ x x', visit x = .ok x' → Moves remap (spots x) (spots x')

theorem Moves.nil : Moves remap [] [] := List.Forall₂.nil

theorem Moves.append {l l' m m' : List Spot} (first : Moves remap l l') (second : Moves remap m m') :
    Moves remap (l ++ m) (l' ++ m') := List.rel_append first second

/-- Nothing moves under a child that is left out. -/
theorem moves_leftOut (spots : List Spot) : Moves remap (leftOut spots) (leftOut spots) := by
  refine List.forall₂_same.mpr fun spot member => ?_
  obtain ⟨spot', -, rfl⟩ := List.mem_map.mp member
  exact ⟨rfl, fun impossible => (by cases impossible), fun _ => rfl⟩

theorem span_moves {span span' : Span} (h : remap_span_source remap span = .ok span') :
    Moves remap (visited span) (visited span') :=
  .cons ⟨rfl, fun _ => h, fun impossible => by cases impossible⟩ .nil

theorem meta_moves {info info' : AstNodeMeta} (h : remap_meta remap info = .ok info') :
    Moves remap (metaSpots info) (metaSpots info') := by
  obtain ⟨span, translated, rfl⟩ := step_eq_ok.mp h
  exact span_moves translated

theorem Follows.mapM {visit : α → Except String α} {spots : α → List Spot}
    (follows : Follows remap visit spots) :
    Follows remap (List.mapM visit) (fun xs => xs.flatMap spots) := by
  intro xs
  induction xs with
  | nil =>
      intro xs' h
      rw [List.mapM_nil, pure_eq_ok] at h
      subst h
      exact Moves.nil
  | cons x xs ih =>
      intro xs' h
      simp only [List.mapM_cons, bind_eq_ok, pure_eq_ok] at h
      obtain ⟨x', head, tail, rest, rfl⟩ := h
      exact (follows x x' head).append (ih tail rest)

theorem Follows.onSome {visit : α → Except String α} {spots : α → List Spot}
    (follows : Follows remap visit spots) :
    Follows remap (onSome visit) (onSomeSpots spots) := by
  intro x x' h
  cases x with
  | none =>
      obtain rfl := Except.ok.inj h
      exact Moves.nil
  | some child =>
      obtain ⟨child', inner, rfl⟩ := step_eq_ok.mp h
      exact follows child child' inner

/-! ### Types -/

mutual

theorem type_follows (ty : Ty) : ∀ ty', remap_type_spans remap ty = .ok ty' →
    Moves remap (typeSpots ty) (typeSpots ty') := by
  intro ty' h
  cases ty with
  | located info ty =>
      obtain ⟨info', here, inner, under, rfl⟩ := step₂_eq_ok.mp h
      exact (meta_moves here).append (type_follows ty inner under)
  | name n args | tuple args =>
      obtain ⟨args', under, rfl⟩ := step_eq_ok.mp h
      exact types_follow args args' under
  | ref _ inner | refMut _ inner | option inner | cBuffer inner | shared inner | weak inner
  | newtype _ inner | array inner _ | slice inner | rawPtr inner | rawPtrMut inner
  | forAll _ inner =>
      obtain ⟨inner', under, rfl⟩ := step_eq_ok.mp h
      exact type_follows inner inner' under
  | result ok err =>
      obtain ⟨ok', left, err', right, rfl⟩ := step₂_eq_ok.mp h
      exact (type_follows ok ok' left).append (type_follows err err' right)
  | func params ret | externFunc params ret =>
      obtain ⟨params', left, ret', right, rfl⟩ := step₂_eq_ok.mp h
      exact (types_follow params params' left).append (type_follows ret ret' right)
  | cap _ | capAtom _ | nothing | implTrait _ | dynTrait _ | infer | tyErr | typeVar _ =>
      obtain rfl := Except.ok.inj h
      exact Moves.nil
termination_by structural ty

theorem types_follow (tys : List Ty) : ∀ tys', remap_types_spans remap tys = .ok tys' →
    Moves remap (typesSpots tys) (typesSpots tys') := by
  intro tys' h
  cases tys with
  | nil =>
      obtain rfl := Except.ok.inj h
      exact Moves.nil
  | cons ty tys =>
      obtain ⟨ty', head, rest, tail, rfl⟩ := step₂_eq_ok.mp h
      exact (type_follows ty ty' head).append (types_follow tys rest tail)
termination_by structural tys

end

theorem session_follows (session : Ast.SessionType) : ∀ session',
    remap_session_type_spans remap session = .ok session' →
      Moves remap (sessionSpots session) (sessionSpots session') := by
  induction session with
  | located info session ih =>
      intro session' h
      obtain ⟨info', here, inner, under, rfl⟩ := step₂_eq_ok.mp h
      exact (meta_moves here).append (ih inner under)
  | send ty cont ih | recv ty cont ih =>
      intro session' h
      obtain ⟨ty', payload, cont', later, rfl⟩ := step₂_eq_ok.mp h
      exact (type_follows ty ty' payload).append (ih cont' later)
  | dual inner ih =>
      intro session' h
      obtain ⟨inner', under, rfl⟩ := step_eq_ok.mp h
      exact ih inner' under
  | name _ | end_ =>
      intro session' h
      obtain rfl := Except.ok.inj h
      exact Moves.nil

/-! ### Patterns -/

mutual

theorem pattern_follows (pattern : Pattern) : ∀ pattern',
    remap_pattern_spans remap pattern = .ok pattern' →
      Moves remap (patternSpots pattern) (patternSpots pattern') := by
  intro pattern' h
  cases pattern with
  | mk info kind =>
      obtain ⟨info', here, kind', under, rfl⟩ := step₂_eq_ok.mp h
      exact (meta_moves here).append (kind_follows kind kind' under)
termination_by structural pattern

theorem kind_follows (kind : PatternKind) : ∀ kind', remap_pattern_kind remap kind = .ok kind' →
    Moves remap (kindSpots kind) (kindSpots kind') := by
  intro kind' h
  cases kind with
  | wildcard | variable_ _ =>
      obtain rfl := Except.ok.inj h
      exact Moves.nil
  | literal value =>
      obtain rfl := Except.ok.inj h
      exact moves_leftOut _
  | constructor n fields =>
      obtain ⟨fields', under, rfl⟩ := step_eq_ok.mp h
      exact pattern_fields_follow fields fields' under
  | tuple patterns | array patterns =>
      obtain ⟨patterns', under, rfl⟩ := step_eq_ok.mp h
      exact patterns_follow patterns patterns' under
  | slice patterns rest =>
      obtain ⟨patterns', under, rest', behind, rfl⟩ := step₂_eq_ok.mp h
      exact (patterns_follow patterns patterns' under).append (rest_follows rest rest' behind)
termination_by structural kind

theorem patterns_follow (patterns : List Pattern) : ∀ patterns',
    remap_patterns remap patterns = .ok patterns' →
      Moves remap (patternsSpots patterns) (patternsSpots patterns') := by
  intro patterns' h
  cases patterns with
  | nil =>
      obtain rfl := Except.ok.inj h
      exact Moves.nil
  | cons pattern patterns =>
      obtain ⟨pattern', head, rest, tail, rfl⟩ := step₂_eq_ok.mp h
      exact (pattern_follows pattern pattern' head).append (patterns_follow patterns rest tail)
termination_by structural patterns

theorem pattern_fields_follow (fields : List (String × Pattern)) : ∀ fields',
    remap_pattern_fields remap fields = .ok fields' →
      Moves remap (patternFieldSpots fields) (patternFieldSpots fields') := by
  intro fields' h
  cases fields with
  | nil =>
      obtain rfl := Except.ok.inj h
      exact Moves.nil
  | cons field fields =>
      obtain ⟨n, pattern⟩ := field
      obtain ⟨pattern', head, rest, tail, rfl⟩ := step₂_eq_ok.mp h
      exact (pattern_follows pattern pattern' head).append (pattern_fields_follow fields rest tail)
termination_by structural fields

theorem rest_follows (rest : Option Pattern) : ∀ rest', remap_rest_pattern remap rest = .ok rest' →
    Moves remap (restSpots rest) (restSpots rest') := by
  intro rest' h
  cases rest with
  | none =>
      obtain rfl := Except.ok.inj h
      exact Moves.nil
  | some pattern =>
      obtain ⟨pattern', under, rfl⟩ := step_eq_ok.mp h
      exact pattern_follows pattern pattern' under
termination_by structural rest

end

/-! ### Expressions and statements -/

theorem generics_follow :
    Follows remap (remap_generic_params_spans remap) (fun params => params.flatMap genericSpots) := by
  refine Follows.mapM fun param param' h => ?_
  obtain ⟨info, here, rfl⟩ := step_eq_ok.mp h
  exact meta_moves here

theorem where_follow : Follows remap
    (List.mapM fun clause => do return { clause with info := ← remap_meta remap clause.info })
    (fun clauses => clauses.flatMap whereSpots) := by
  refine Follows.mapM fun clause clause' h => ?_
  obtain ⟨info, here, rfl⟩ := step_eq_ok.mp h
  exact meta_moves here

mutual

theorem expr_follows (e : Expr) : ∀ e', remap_expr_spans remap e = .ok e' →
    Moves remap (exprSpots e) (exprSpots e') := by
  intro e' h
  cases e with
  | located info e =>
      obtain ⟨info', here, inner, under, rfl⟩ := step₂_eq_ok.mp h
      exact (meta_moves here).append (expr_follows e inner under)
  | literal value =>
      obtain ⟨value', under, rfl⟩ := step_eq_ok.mp h
      exact literal_follows value value' under
  | ident _ =>
      obtain rfl := Except.ok.inj h
      exact Moves.nil
  | typeInfo ty =>
      obtain ⟨ty', under, rfl⟩ := step_eq_ok.mp h
      exact type_follows ty ty' under
  | binary _ left right | index left right =>
      obtain ⟨left', first, right', second, rfl⟩ := step₂_eq_ok.mp h
      exact (expr_follows left left' first).append (expr_follows right right' second)
  | unary _ value | try_ value | spawn value | await value | quoteInterpolate value | typeOf value
  | old value | tupleIndex value _ | namedArg _ value | field value _ | optionalChain value _ =>
      obtain ⟨value', under, rfl⟩ := step_eq_ok.mp h
      exact expr_follows value value' under
  | cast value ty =>
      obtain ⟨value', first, ty', second, rfl⟩ := step₂_eq_ok.mp h
      exact (expr_follows value value' first).append (type_follows ty ty' second)
  | call callee args =>
      obtain ⟨callee', first, args', second, rfl⟩ := step₂_eq_ok.mp h
      exact (expr_follows callee callee' first).append (exprs_follow args args' second)
  | tuple values | list values | setLiteral values =>
      obtain ⟨values', under, rfl⟩ := step_eq_ok.mp h
      exact exprs_follow values values' under
  | comprehension e _ iter guard =>
      obtain ⟨e', first, iter', second, guard', third, rfl⟩ := step₃_eq_ok.mp h
      exact ((expr_follows e e' first).append (expr_follows iter iter' second)).append
        (opt_expr_follows guard guard' third)
  | match_ value arms =>
      obtain ⟨value', first, arms', second, rfl⟩ := step₂_eq_ok.mp h
      exact (expr_follows value value' first).append (arms_follow arms arms' second)
  | record ty fields rest =>
      obtain ⟨fields', under, rfl⟩ := step_eq_ok.mp h
      exact (record_fields_follow fields fields' under).append (moves_leftOut _)
  | block body | quote body | comptime body | arena body =>
      obtain ⟨body', under, rfl⟩ := step_eq_ok.mp h
      exact block_follows body body' under
  | if_ cond then_ else_ =>
      obtain ⟨cond', first, then', second, else', third, rfl⟩ := step₃_eq_ok.mp h
      exact ((expr_follows cond cond' first).append (block_follows then_ then' second)).append
        (opt_block_follows else_ else' third)
  | lambda params ret body =>
      obtain ⟨params', first, ret', second, body', third, rfl⟩ := step₃_eq_ok.mp h
      exact ((params_follow params params' first).append
        (Follows.onSome type_follows ret ret' second)).append (block_follows body body' third)
  | sliceExpr target start end_ =>
      obtain ⟨target', first, start', second, end', third, rfl⟩ := step₃_eq_ok.mp h
      exact ((expr_follows target target' first).append (opt_expr_follows start start' second)).append
        (opt_expr_follows end_ end' third)
  | turbofish _ type_args args =>
      obtain ⟨type_args', first, args', second, rfl⟩ := step₂_eq_ok.mp h
      exact (types_follow type_args type_args' first).append (exprs_follow args args' second)
  | mapLiteral entries =>
      obtain ⟨entries', under, rfl⟩ := step_eq_ok.mp h
      exact entries_follow entries entries' under
termination_by structural e

theorem literal_follows (value : Lit) : ∀ value', remap_literal remap value = .ok value' →
    Moves remap (literalSpots value) (literalSpots value') := by
  intro value' h
  cases value with
  | fString parts =>
      obtain ⟨parts', under, rfl⟩ := step_eq_ok.mp h
      exact parts_follow parts parts' under
  | int _ | float _ | bool _ | string _ | unit =>
      obtain rfl := Except.ok.inj h
      exact Moves.nil
termination_by structural value

theorem parts_follow (parts : List FStringPart) : ∀ parts', remap_parts remap parts = .ok parts' →
    Moves remap (partsSpots parts) (partsSpots parts') := by
  intro parts' h
  cases parts with
  | nil =>
      obtain rfl := Except.ok.inj h
      exact Moves.nil
  | cons part parts =>
      cases part with
      | text value =>
          obtain ⟨rest, tail, rfl⟩ := step_eq_ok.mp h
          exact parts_follow parts rest tail
      | interp e =>
          obtain ⟨e', head, rest, tail, rfl⟩ := step₂_eq_ok.mp h
          exact (expr_follows e e' head).append (parts_follow parts rest tail)
termination_by structural parts

theorem exprs_follow (es : List Expr) : ∀ es', remap_exprs remap es = .ok es' →
    Moves remap (exprsSpots es) (exprsSpots es') := by
  intro es' h
  cases es with
  | nil =>
      obtain rfl := Except.ok.inj h
      exact Moves.nil
  | cons e es =>
      obtain ⟨e', head, rest, tail, rfl⟩ := step₂_eq_ok.mp h
      exact (expr_follows e e' head).append (exprs_follow es rest tail)
termination_by structural es

theorem opt_expr_follows (e : Option Expr) : ∀ e', remap_opt_expr remap e = .ok e' →
    Moves remap (optExprSpots e) (optExprSpots e') := by
  intro e' h
  cases e with
  | none =>
      obtain rfl := Except.ok.inj h
      exact Moves.nil
  | some e =>
      obtain ⟨inner, under, rfl⟩ := step_eq_ok.mp h
      exact expr_follows e inner under
termination_by structural e

theorem arms_follow (arms : List MatchArm) : ∀ arms', remap_arms remap arms = .ok arms' →
    Moves remap (armsSpots arms) (armsSpots arms') := by
  intro arms' h
  cases arms with
  | nil =>
      obtain rfl := Except.ok.inj h
      exact Moves.nil
  | cons arm arms =>
      obtain ⟨info, pat, guard, body⟩ := arm
      simp only [remap_arms, bind_eq_ok, pure_eq_ok] at h
      obtain ⟨info', first, pat', second, guard', third, body', fourth, rest, tail, rfl⟩ := h
      exact ((((meta_moves first).append (pattern_follows pat pat' second)).append
        (opt_expr_follows guard guard' third)).append (expr_follows body body' fourth)).append
          (arms_follow arms rest tail)
termination_by structural arms

theorem record_fields_follow (fields : List RecordFieldExpr) : ∀ fields', remap_record_fields remap fields = .ok fields' →
    Moves remap (recordFieldSpots fields) (recordFieldSpots fields') := by
  intro fields' h
  cases fields with
  | nil =>
      obtain rfl := Except.ok.inj h
      exact Moves.nil
  | cons field fields =>
      obtain ⟨info, n, value⟩ := field
      obtain ⟨info', first, value', second, rest, tail, rfl⟩ := step₃_eq_ok.mp h
      exact ((meta_moves first).append (expr_follows value value' second)).append
        (record_fields_follow fields rest tail)
termination_by structural fields

theorem entries_follow (entries : List (Expr × Expr)) : ∀ entries', remap_entries remap entries = .ok entries' →
    Moves remap (entriesSpots entries) (entriesSpots entries') := by
  intro entries' h
  cases entries with
  | nil =>
      obtain rfl := Except.ok.inj h
      exact Moves.nil
  | cons entry entries =>
      obtain ⟨key, value⟩ := entry
      obtain ⟨key', first, value', second, rest, tail, rfl⟩ := step₃_eq_ok.mp h
      exact ((expr_follows key key' first).append (expr_follows value value' second)).append
        (entries_follow entries rest tail)
termination_by structural entries

theorem params_follow (params : List Param) : ∀ params', remap_params_spans remap params = .ok params' →
    Moves remap (paramsSpots params) (paramsSpots params') := by
  intro params' h
  cases params with
  | nil =>
      obtain rfl := Except.ok.inj h
      exact Moves.nil
  | cons param params =>
      obtain ⟨info, n, ty, mut_, default_value, borrow⟩ := param
      obtain ⟨info', first, ty', second, default', third, rest, tail, rfl⟩ := step₄_eq_ok.mp h
      exact (((meta_moves first).append (type_follows ty ty' second)).append
        (opt_expr_follows default_value default' third)).append (params_follow params rest tail)
termination_by structural params

theorem func_follows (function : FuncDef) : ∀ function', remap_func_spans remap function = .ok function' →
    Moves remap (funcSpots function) (funcSpots function') := by
  intro function' h
  cases function with
  | mk info n pub_ params ret body where_clause generics effects is_comptime is_async extern_abi
      has_requires has_ensures has_mutate_params =>
      simp only [remap_func_spans, bind_eq_ok, pure_eq_ok] at h
      obtain ⟨info', first, generics', second, clauses, third, params', fourth, ret', fifth, body',
        sixth, rfl⟩ := h
      exact (((((meta_moves first).append (generics_follow generics generics' second)).append
        (where_follow where_clause clauses third)).append
          (params_follow params params' fourth)).append
            (Follows.onSome type_follows ret ret' fifth)).append (block_follows body body' sixth)
termination_by structural function

theorem block_follows (stmts : List Stmt) : ∀ stmts', remap_block_spans remap stmts = .ok stmts' →
    Moves remap (blockSpots stmts) (blockSpots stmts') := by
  intro stmts' h
  cases stmts with
  | nil =>
      obtain rfl := Except.ok.inj h
      exact Moves.nil
  | cons stmt stmts =>
      obtain ⟨stmt', head, rest, tail, rfl⟩ := step₂_eq_ok.mp h
      exact (stmt_follows stmt stmt' head).append (block_follows stmts rest tail)
termination_by structural stmts

theorem opt_block_follows (block : Option (List Stmt)) : ∀ block', remap_opt_block remap block = .ok block' →
    Moves remap (optBlockSpots block) (optBlockSpots block') := by
  intro block' h
  cases block with
  | none =>
      obtain rfl := Except.ok.inj h
      exact Moves.nil
  | some block =>
      obtain ⟨inner, under, rfl⟩ := step_eq_ok.mp h
      exact block_follows block inner under
termination_by structural block

theorem stmt_follows (stmt : Stmt) : ∀ stmt', remap_stmt_spans remap stmt = .ok stmt' →
    Moves remap (stmtSpots stmt) (stmtSpots stmt') := by
  intro stmt' h
  cases stmt with
  | located info stmt =>
      obtain ⟨info', here, inner, under, rfl⟩ := step₂_eq_ok.mp h
      exact (meta_moves here).append (stmt_follows stmt inner under)
  | let_ pat ty init _ _ =>
      obtain ⟨pat', first, ty', second, init', third, rfl⟩ := step₃_eq_ok.mp h
      exact ((pattern_follows pat pat' first).append
        (Follows.onSome type_follows ty ty' second)).append (opt_expr_follows init init' third)
  | return_ value | break_ value =>
      obtain ⟨value', under, rfl⟩ := step_eq_ok.mp h
      exact opt_expr_follows value value' under
  | continue_ | ellipsis =>
      obtain rfl := Except.ok.inj h
      exact Moves.nil
  | expr e | drop e =>
      obtain ⟨e', under, rfl⟩ := step_eq_ok.mp h
      exact expr_follows e e' under
  | if_ cond then_ else_ =>
      obtain ⟨cond', first, then', second, else', third, rfl⟩ := step₃_eq_ok.mp h
      exact ((expr_follows cond cond' first).append (block_follows then_ then' second)).append
        (opt_block_follows else_ else' third)
  | ifLet pat init then_ else_ =>
      obtain ⟨pat', first, init', second, then', third, else', fourth, rfl⟩ := step₄_eq_ok.mp h
      exact (((pattern_follows pat pat' first).append (expr_follows init init' second)).append
        (block_follows then_ then' third)).append (opt_block_follows else_ else' fourth)
  | while_ cond body | pinned cond _ body =>
      obtain ⟨cond', first, body', second, rfl⟩ := step₂_eq_ok.mp h
      exact (expr_follows cond cond' first).append (block_follows body body' second)
  | whileLet pat init body =>
      obtain ⟨pat', first, init', second, body', third, rfl⟩ := step₃_eq_ok.mp h
      exact ((pattern_follows pat pat' first).append (expr_follows init init' second)).append
        (block_follows body body' third)
  | loop body | block body | arena body | unsafe_ body | ieeeFloat body | onFailure body
  | parasteps body | defer body =>
      obtain ⟨body', under, rfl⟩ := step_eq_ok.mp h
      exact block_follows body body' under
  | for_ var iterable body =>
      obtain ⟨iterable', first, body', second, rfl⟩ := step₂_eq_ok.mp h
      exact ((moves_leftOut _).append (expr_follows iterable iterable' first)).append
        (block_follows body body' second)
  | requires e span | ensures e span | invariant e span =>
      obtain ⟨span', here, e', under, rfl⟩ := step₂_eq_ok.mp h
      exact (span_moves here).append (expr_follows e e' under)
  | math exprs =>
      obtain ⟨exprs', under, rfl⟩ := step_eq_ok.mp h
      exact exprs_follow exprs exprs' under
  | assign target value =>
      obtain ⟨target', first, value', second, rfl⟩ := step₂_eq_ok.mp h
      exact (expr_follows target target' first).append (expr_follows value value' second)
  | sharedLet _ _ ty init =>
      obtain ⟨ty', first, init', second, rfl⟩ := step₂_eq_ok.mp h
      exact (Follows.onSome type_follows ty ty' first).append (expr_follows init init' second)
  | func function =>
      obtain ⟨function', under, rfl⟩ := step_eq_ok.mp h
      exact func_follows function function' under
termination_by structural stmt

end

/-! ### Items -/

theorem field_follows : Follows remap (fun field : Field => do
    return { field with info := ← remap_meta remap field.info,
                        ty := ← remap_type_spans remap field.ty }) fieldSpots := by
  intro field field' h
  obtain ⟨info, first, ty, second, rfl⟩ := step₂_eq_ok.mp h
  exact (meta_moves first).append (type_follows _ _ second)

theorem fields_follow :
    Follows remap (remap_fields_spans remap) (fun fields => fields.flatMap fieldSpots) :=
  Follows.mapM field_follows

theorem payload_follows : Follows remap (remap_payload_spans remap) payloadSpots := by
  intro payload payload' h
  cases payload with
  | tuple types =>
      obtain ⟨types', under, rfl⟩ := step_eq_ok.mp h
      exact types_follow types types' under
  | record fields =>
      obtain ⟨fields', under, rfl⟩ := step_eq_ok.mp h
      exact fields_follow fields fields' under

theorem variant_follows : Follows remap (remap_variant_spans remap) variantSpots := by
  intro variant variant' h
  obtain ⟨info, first, payload, second, rfl⟩ := step₂_eq_ok.mp h
  exact (meta_moves first).append (Follows.onSome payload_follows _ _ second)

theorem type_def_kind_follows : Follows remap (remap_type_def_kind remap) typeDefKindSpots := by
  intro kind kind' h
  cases kind with
  | alias_ ty | newtype ty =>
      obtain ⟨ty', under, rfl⟩ := step_eq_ok.mp h
      exact type_follows ty ty' under
  | record fields | union fields =>
      obtain ⟨fields', under, rfl⟩ := step_eq_ok.mp h
      exact fields_follow fields fields' under
  | enum variants =>
      obtain ⟨variants', under, rfl⟩ := step_eq_ok.mp h
      exact Follows.mapM variant_follows variants variants' under

theorem type_def_follows : Follows remap (remap_type_def_spans remap) typeDefSpots := by
  intro type_def type_def' h
  obtain ⟨info, first, generics, second, kind, third, rfl⟩ := step₃_eq_ok.mp h
  exact ((meta_moves first).append (generics_follow _ _ second)).append
    (type_def_kind_follows _ _ third)

theorem session_def_follows : Follows remap (remap_session_spans remap)
    (fun session => metaSpots session.info ++ sessionSpots session.body) := by
  intro session session' h
  obtain ⟨info, first, body, second, rfl⟩ := step₂_eq_ok.mp h
  exact (meta_moves first).append (session_follows _ _ second)

theorem actor_field_follows : Follows remap (remap_actor_field_spans remap) actorFieldSpots := by
  intro field field' h
  obtain ⟨info, first, ty, second, init, third, rfl⟩ := step₃_eq_ok.mp h
  exact ((meta_moves first).append (type_follows _ _ second)).append (opt_expr_follows _ _ third)

theorem actor_follows : Follows remap (remap_actor_spans remap) actorSpots := by
  intro actor actor' h
  obtain ⟨info, first, fields, second, methods, third, rfl⟩ := step₃_eq_ok.mp h
  exact ((meta_moves first).append (Follows.mapM actor_field_follows _ _ second)).append
    (Follows.mapM func_follows _ _ third)

theorem trait_method_follows : Follows remap (remap_trait_method_spans remap) traitMethodSpots := by
  intro method method' h
  obtain ⟨info, first, generics, second, params, third, ret, fourth, rfl⟩ := step₄_eq_ok.mp h
  exact (((meta_moves first).append (generics_follow _ _ second)).append
    (params_follow _ _ third)).append (Follows.onSome type_follows _ _ fourth)

theorem trait_follows : Follows remap (remap_trait_spans remap) traitSpots := by
  intro trait_def trait_def' h
  obtain ⟨info, first, generics, second, methods, third, rfl⟩ := step₃_eq_ok.mp h
  exact ((meta_moves first).append (generics_follow _ _ second)).append
    (Follows.mapM trait_method_follows _ _ third)

theorem impl_follows : Follows remap (remap_impl_spans remap) implSpots := by
  intro impl_def impl_def' h
  simp only [remap_impl_spans, bind_eq_ok, pure_eq_ok] at h
  obtain ⟨info, first, generics, second, trait_args, third, type_args, fourth, methods, fifth,
    rfl⟩ := h
  exact ((((meta_moves first).append (generics_follow _ _ second)).append
    (types_follow _ _ third)).append (types_follow _ _ fourth)).append
      (Follows.mapM func_follows _ _ fifth)

theorem extern_param_follows : Follows remap (remap_extern_param_spans remap) externParamSpots := by
  intro param param' h
  obtain ⟨info, first, ty, second, rfl⟩ := step₂_eq_ok.mp h
  exact (meta_moves first).append (type_follows _ _ second)

theorem extern_func_follows : Follows remap (remap_extern_func_spans remap) externFuncSpots := by
  intro function function' h
  simp only [remap_extern_func_spans, bind_eq_ok, pure_eq_ok] at h
  obtain ⟨info, first, params, second, ret, third, requires, fourth, ensures, fifth, rfl⟩ := h
  exact ((((meta_moves first).append (Follows.mapM extern_param_follows _ _ second)).append
    (Follows.onSome type_follows _ _ third)).append (opt_expr_follows _ _ fourth)).append
      (opt_expr_follows _ _ fifth)

theorem extern_block_follows : Follows remap (remap_extern_block_spans remap) externBlockSpots := by
  intro block block' h
  obtain ⟨info, first, funcs, second, rfl⟩ := step₂_eq_ok.mp h
  exact (meta_moves first).append (Follows.mapM extern_func_follows _ _ second)

theorem const_follows : Follows remap (remap_const_spans remap) constSpots := by
  intro const const' h
  obtain ⟨info, first, ty, second, value, third, rfl⟩ := step₃_eq_ok.mp h
  exact ((meta_moves first).append (Follows.onSome type_follows _ _ second)).append
    (expr_follows _ _ third)

theorem annotation_follows : Follows remap (fun annotation : FlowAnnotation => do
    return { annotation with info := ← remap_meta remap annotation.info }) annotationSpots := by
  intro annotation annotation' h
  obtain ⟨info, first, rfl⟩ := step_eq_ok.mp h
  exact meta_moves first

theorem state_follows : Follows remap (remap_state_spans remap) stateSpots := by
  intro state state' h
  obtain ⟨info, first, payload, second, rfl⟩ := step₂_eq_ok.mp h
  exact (meta_moves first).append (Follows.onSome fields_follow _ _ second)

theorem transition_follows : Follows remap (remap_transition_spans remap) transitionSpots := by
  intro transition transition' h
  obtain ⟨info, first, params, second, body, third, rfl⟩ := step₃_eq_ok.mp h
  exact (((meta_moves first).append (params_follow _ _ second)).append
    (opt_block_follows _ _ third)).append (moves_leftOut _)

theorem flow_follows : Follows remap (remap_flow_spans remap) flowSpots := by
  intro flow flow' h
  simp only [remap_flow_spans, bind_eq_ok, pure_eq_ok] at h
  obtain ⟨info, first, generics, second, annotations, third, states, fourth, transitions, fifth,
    rfl⟩ := h
  exact (((((meta_moves first).append (generics_follow _ _ second)).append
    (Follows.mapM annotation_follows _ _ third)).append
      (Follows.mapM state_follows _ _ fourth)).append
        (Follows.mapM transition_follows _ _ fifth)).append (moves_leftOut _)

theorem item_follows : Follows remap (remap_item_spans remap) itemSpots := by
  intro item item' h
  cases item with
  | func function =>
      obtain ⟨function', under, rfl⟩ := step_eq_ok.mp h
      exact func_follows function function' under
  | type type_def =>
      obtain ⟨type_def', under, rfl⟩ := step_eq_ok.mp h
      exact type_def_follows type_def type_def' under
  | cap cap =>
      obtain ⟨info, first, rfl⟩ := step_eq_ok.mp h
      exact meta_moves first
  | session session =>
      obtain ⟨session', under, rfl⟩ := step_eq_ok.mp h
      exact session_def_follows session session' under
  | actor actor =>
      obtain ⟨actor', under, rfl⟩ := step_eq_ok.mp h
      exact actor_follows actor actor' under
  | trait trait_def =>
      obtain ⟨trait_def', under, rfl⟩ := step_eq_ok.mp h
      exact trait_follows trait_def trait_def' under
  | impl impl_def =>
      obtain ⟨impl_def', under, rfl⟩ := step_eq_ok.mp h
      exact impl_follows impl_def impl_def' under
  | externBlock block =>
      obtain ⟨block', under, rfl⟩ := step_eq_ok.mp h
      exact extern_block_follows block block' under
  | const const =>
      obtain ⟨const', under, rfl⟩ := step_eq_ok.mp h
      exact const_follows const const' under
  | flow flow =>
      obtain ⟨flow', under, rfl⟩ := step_eq_ok.mp h
      exact flow_follows flow flow' under

theorem import_follows : Follows remap (fun import_ : Import => do
    return { import_ with info := ← remap_meta remap import_.info }) importSpots := by
  intro import_ import' h
  obtain ⟨info, first, rfl⟩ := step_eq_ok.mp h
  exact meta_moves first

end Mimi.Loader
