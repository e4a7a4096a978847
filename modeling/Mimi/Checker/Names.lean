/-
Module: Mimi.Checker.Names
Purpose: The names that occur free in expressions, statements and blocks, at any nesting and under the binders of the
  language.
Trusted boundary: human-reviewed reading of the binders of `src/ast.rs`
-/
import Mathlib
import Mimi.Ast

namespace Mimi.Ast

/-! ### Source annotations -/

/-- The type without annotations at its root. -/
def Ty.unlocated : Ty → Ty
  | .located _ ty => ty.unlocated
  | ty => ty

def Expr.unlocated : Expr → Expr
  | .located _ e => e.unlocated
  | e => e

def Stmt.unlocated : Stmt → Stmt
  | .located _ stmt => stmt.unlocated
  | stmt => stmt

end Mimi.Ast

namespace Mimi.Checker

open Mimi.Ast

/-! ### Binders -/

mutual

/-- A pattern binds a name. -/
def patternBinds (x : String) : Pattern → Bool
  | ⟨_, kind⟩ => kindBinds x kind

def kindBinds (x : String) : PatternKind → Bool
  | .variable_ n => n == x
  | .constructor _ fields => fieldsBind x fields
  | .tuple patterns | .array patterns => patternsBind x patterns
  | .slice patterns rest => patternsBind x patterns || restBinds x rest
  | .wildcard | .literal _ => false

def patternsBind (x : String) : List Pattern → Bool
  | [] => false
  | pattern :: patterns => patternBinds x pattern || patternsBind x patterns

def fieldsBind (x : String) : List (String × Pattern) → Bool
  | [] => false
  | (_, pattern) :: fields => patternBinds x pattern || fieldsBind x fields

def restBinds (x : String) : Option Pattern → Bool
  | none => false
  | some pattern => patternBinds x pattern

end

/-- A statement binds a name in the statements behind it. -/
def stmtBinds (x : String) : Stmt → Bool
  | .located _ stmt => stmtBinds x stmt
  | .let_ pat _ _ _ _ => patternBinds x pat
  | .sharedLet _ n _ _ => n == x
  | .func function => function.name == x
  | _ => false

/-! ### Occurrences -/

mutual

/-- A name occurs free in an expression. -/
def freeIn (x : String) : Expr → Bool
  | .located _ e => freeIn x e
  | .literal value => freeInLit x value
  | .ident n => n == x
  | .binary _ left right | .index left right => freeIn x left || freeIn x right
  | .unary _ value | .try_ value | .spawn value | .await value | .quoteInterpolate value | .typeOf value
  | .old value => freeIn x value
  | .field value _ | .optionalChain value _ | .tupleIndex value _ | .namedArg _ value | .cast value _ =>
      freeIn x value
  | .call callee args => freeIn x callee || freeInExprs x args
  | .tuple values | .list values | .setLiteral values => freeInExprs x values
  | .comprehension e var iter guard => freeIn x iter || var != x && (freeIn x e || freeInOpt x guard)
  | .match_ value arms => freeIn x value || freeInArms x arms
  | .record _ fields rest => freeInFields x fields || freeInOpt x rest
  | .block body | .quote body | .comptime body | .arena body => freeInBlock x body
  | .typeInfo _ => false
  | .if_ cond then_ else_ => freeIn x cond || freeInBlock x then_ || freeInElse x else_
  | .lambda params _ body =>
      freeInDefaults x params || !(params.any fun param => param.name == x) && freeInBlock x body
  | .sliceExpr target start end_ => freeIn x target || freeInOpt x start || freeInOpt x end_
  | .turbofish n _ args => n == x || freeInExprs x args
  | .mapLiteral entries => freeInEntries x entries

/-- An f-string reads what it interpolates. -/
def freeInLit (x : String) : Lit → Bool
  | .fString parts => freeInParts x parts
  | _ => false

def freeInParts (x : String) : List FStringPart → Bool
  | [] => false
  | .text _ :: parts => freeInParts x parts
  | .interp e :: parts => freeIn x e || freeInParts x parts

def freeInExprs (x : String) : List Expr → Bool
  | [] => false
  | e :: es => freeIn x e || freeInExprs x es

def freeInOpt (x : String) : Option Expr → Bool
  | none => false
  | some e => freeIn x e

/-- The pattern of an arm binds in its guard and its body. -/
def freeInArms (x : String) : List MatchArm → Bool
  | [] => false
  | ⟨_, pat, guard, body⟩ :: arms =>
      !patternBinds x pat && (freeInOpt x guard || freeIn x body) || freeInArms x arms

def freeInFields (x : String) : List RecordFieldExpr → Bool
  | [] => false
  | ⟨_, _, value⟩ :: fields => freeIn x value || freeInFields x fields

def freeInEntries (x : String) : List (Expr × Expr) → Bool
  | [] => false
  | (key, value) :: entries => freeIn x key || freeIn x value || freeInEntries x entries

def freeInDefaults (x : String) : List Param → Bool
  | [] => false
  | ⟨_, _, _, _, default_value, _⟩ :: params => freeInOpt x default_value || freeInDefaults x params

def freeInElse (x : String) : Option (List Stmt) → Bool
  | none => false
  | some body => freeInBlock x body

def freeInStmt (x : String) : Stmt → Bool
  | .located _ stmt => freeInStmt x stmt
  | .let_ _ _ init _ _ => freeInOpt x init
  | .return_ value | .break_ value => freeInOpt x value
  | .expr e | .requires e _ | .ensures e _ | .invariant e _ | .drop e => freeIn x e
  | .if_ cond then_ else_ => freeIn x cond || freeInBlock x then_ || freeInElse x else_
  | .ifLet pat init then_ else_ =>
      freeIn x init || !patternBinds x pat && freeInBlock x then_ || freeInElse x else_
  | .while_ cond body => freeIn x cond || freeInBlock x body
  | .whileLet pat init body | .for_ pat init body =>
      freeIn x init || !patternBinds x pat && freeInBlock x body
  | .loop body | .block body | .arena body | .unsafe_ body | .ieeeFloat body | .defer body | .onFailure body
  | .parasteps body => freeInBlock x body
  | .math exprs => freeInExprs x exprs
  | .assign target value => freeIn x target || freeIn x value
  | .sharedLet _ _ _ init => freeIn x init
  | .pinned e var body => freeIn x e || var != some x && freeInBlock x body
  | .func function => freeInFunc x function
  | .continue_ | .ellipsis => false

def freeInFunc (x : String) : FuncDef → Bool
  | ⟨_, name, _, params, _, body, _, _, _, _, _, _, _, _, _⟩ =>
      name != x && (freeInDefaults x params ||
        !(params.any fun param => param.name == x) && freeInBlock x body)

/-- A name that a statement binds is bound in the statements behind it. -/
def freeInBlock (x : String) : List Stmt → Bool
  | [] => false
  | stmt :: stmts => freeInStmt x stmt || !stmtBinds x stmt && freeInBlock x stmts

end

end Mimi.Checker
