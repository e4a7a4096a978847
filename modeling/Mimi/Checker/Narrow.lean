/-
Module: Mimi.Checker.Narrow
Purpose: The checks that view, mutate and reference values stay inside their task, at spawn expressions, channels and
  actor mailboxes.
Trusted boundary: human-reviewed translation of `src/core/checker/narrow.rs`; the checker is the part of it that these
  checks read
-/
import Mimi.Checker.Names

namespace Mimi.Checker

open Mimi.Ast
open Mimi.Core (Span Diagnostic)

/-- Permission a value carries when it is about to leave the current task. -/
inductive TaskBoundaryKind where
  | owned
  | view
  | mutate
  | ref
deriving DecidableEq, Repr

namespace TaskBoundaryKind

/-- Owned values may cross. -/
def may_cross_task_boundary (kind : TaskBoundaryKind) : Bool := kind = .owned

def label : TaskBoundaryKind → String
  | owned => "owned"
  | view => "view"
  | mutate => "mutate"
  | ref => "ref"

end TaskBoundaryKind

/-- The types of the locals of a scope. -/
abbrev Scope := String → Option Ty

/-- What the checks read of the checker. -/
structure NarrowChecker where
  view_params : List String
  mutate_params : List String
  nested_func_params : String → Option (List Param)
  items : List Item
  span : Span

def kind_of_type : Ty → TaskBoundaryKind
  | .located _ ty => kind_of_type ty
  | .ref _ _ | .refMut _ _ | .slice _ => .ref
  | .option inner | .shared inner | .weak inner => kind_of_type inner
  | _ => .owned

/-- The type of a name, in the innermost scope that has it. -/
def scopeType (name : String) (scopes : List Scope) : Option Ty :=
  scopes.reverse.findSome? fun scope => scope name

variable (checker : NarrowChecker)

namespace NarrowChecker

def kind_of_ident (name : String) (scopes : List Scope) : TaskBoundaryKind :=
  if name ∈ checker.view_params then .view
  else if name ∈ checker.mutate_params then .mutate
  else
    match scopeType name scopes with
    | some ty => kind_of_type ty
    | none => .owned

def kind_of_expr (scopes : List Scope) : Expr → TaskBoundaryKind
  | .located _ e => kind_of_expr scopes e
  | .ident name => checker.kind_of_ident name scopes
  | .unary .ref _ | .unary .refMut _ => .ref
  | .unary _ inner | .await inner | .try_ inner | .cast inner _ => kind_of_expr scopes inner
  | _ => .owned

def lookup_func_params (name : String) : Option (List Param) :=
  checker.nested_func_params name <|>
    checker.items.findSome? fun item =>
      match item with
      | .func f => if f.name = name then some f.params else none
      | _ => none

/-- The errors of a value that crosses a boundary. -/
def reject_kind_across (kind : TaskBoundaryKind) (boundary detail : String) : List Diagnostic :=
  if kind.may_cross_task_boundary then []
  else
    [.errorCode "E0442" s!"{kind.label} cannot cross task boundary ({boundary}){detail}" checker.span]

end NarrowChecker

/-- The kind of a parameter. -/
def paramKind (p : Param) : TaskBoundaryKind :=
  match p.borrow with
  | some .view => .view
  | some .mutate => .mutate
  | none => kind_of_type p.ty

namespace NarrowChecker

/-- Only the first parameter that may not cross is reported. -/
def reject_callee_borrow_params (boundary name : String) : List Diagnostic :=
  match checker.lookup_func_params name with
  | none => []
  | some params =>
      match params.find? fun p => !(paramKind p).may_cross_task_boundary with
      | none => []
      | some p =>
          checker.reject_kind_across (paramKind p) boundary
            s!": callee '{name}' takes a {(paramKind p).label} parameter"

mutual

/-- Every identifier that the walk gets to. -/
def walk_idents_across (boundary : String) (scopes : List Scope) : Expr → List Diagnostic
  | .located _ e => walk_idents_across boundary scopes e
  | .ident name => checker.reject_kind_across (checker.kind_of_ident name scopes) boundary ""
  | .unary _ inner | .field inner _ | .await inner | .spawn inner | .try_ inner | .cast inner _ | .old inner
  | .typeOf inner | .tupleIndex inner _ | .optionalChain inner _ => walk_idents_across boundary scopes inner
  | .binary _ l r | .index l r =>
      walk_idents_across boundary scopes l ++ walk_idents_across boundary scopes r
  | .call callee args => walk_idents_across boundary scopes callee ++ walk_exprs_across boundary scopes args
  | .tuple elems | .list elems => walk_exprs_across boundary scopes elems
  | .block block | .arena block => walk_block_across boundary scopes block
  | .if_ cond then_ else_ =>
      walk_idents_across boundary scopes cond ++ walk_block_across boundary scopes then_ ++
        walk_else_across boundary scopes else_
  | _ => []

def walk_exprs_across (boundary : String) (scopes : List Scope) : List Expr → List Diagnostic
  | [] => []
  | e :: es => walk_idents_across boundary scopes e ++ walk_exprs_across boundary scopes es

/-- Of the statements of a block only the expressions are walked. -/
def walk_stmt_across (boundary : String) (scopes : List Scope) : Stmt → List Diagnostic
  | .located _ stmt => walk_stmt_across boundary scopes stmt
  | .expr e => walk_idents_across boundary scopes e
  | _ => []

def walk_block_across (boundary : String) (scopes : List Scope) : List Stmt → List Diagnostic
  | [] => []
  | stmt :: stmts => walk_stmt_across boundary scopes stmt ++ walk_block_across boundary scopes stmts

def walk_else_across (boundary : String) (scopes : List Scope) : Option (List Stmt) → List Diagnostic
  | none => []
  | some block => walk_block_across boundary scopes block

end

/-- The call at the root of a spawned expression, with the name it calls. -/
def spawnedCall (inner : Expr) : Option (Option String × List Expr) :=
  match inner.unlocated with
  | .call callee args =>
      match callee.unlocated with
      | .ident name => some (some name, args)
      | _ => some (none, args)
  | _ => none

def reject_narrow_across_spawn (inner : Expr) (scopes : List Scope) : List Diagnostic :=
  (match spawnedCall inner with
    | none => []
    | some (callee, args) =>
        callee.toList.flatMap (checker.reject_callee_borrow_params "spawn") ++
          args.flatMap fun arg => checker.reject_kind_across (checker.kind_of_expr scopes arg) "spawn" "") ++
    checker.walk_idents_across "spawn" scopes inner

/-- Channel element: `Channel<T>`. -/
def reject_narrow_channel_element (ty : Ty) : List Diagnostic :=
  checker.reject_kind_across (kind_of_type ty) "Channel" ""

def reject_narrow_across_channel_send (value : Expr) (scopes : List Scope) : List Diagnostic :=
  checker.reject_kind_across (checker.kind_of_expr scopes value) "Channel" ""

/-- Actor mailbox: method parameters travel as messages. -/
def reject_narrow_mailbox_params (params : List Param) (actor method : String) : List Diagnostic :=
  (params.filter fun p => p.name ≠ "self").flatMap fun p =>
    checker.reject_kind_across (paramKind p) "mailbox"
      s!": actor '{actor}::{method}' parameter '{p.name}' is {(paramKind p).label}"

def reject_narrow_across_mailbox_arg (arg : Expr) (scopes : List Scope) : List Diagnostic :=
  checker.reject_kind_across (checker.kind_of_expr scopes arg) "mailbox" ""

end NarrowChecker

end Mimi.Checker
