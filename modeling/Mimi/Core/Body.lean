/-
Module: Mimi.Core.Body
Purpose: Resolved callable bodies: the typed statements and expressions that control flow is lowered
  from, with the identities and places in them.  Types, conversions, effects and what a call
  resolves to are left out: lowering reads none of them.
Trusted boundary: human-reviewed translation of `src/core/ir/body.rs`
-/
import Mimi.Core.Ownership
import Mimi.Lib.SortedMap

namespace Mimi.Core

open Mimi.Lib

structure ResolvedLocalId where
  node : NodeId
deriving DecidableEq, Repr

instance : LT ResolvedLocalId := ⟨fun a b => a.node < b.node⟩

instance : DecidableLT ResolvedLocalId :=
  fun a b => inferInstanceAs (Decidable (a.node < b.node))

structure ResolvedLocal where
  displayName : String
deriving DecidableEq, Repr

inductive ResolvedIndex where
  | constant (index : Int)
  /-- The value of the typed place input with this identity. -/
  | dynamic (input : NodeId)
deriving DecidableEq, Repr

inductive ResolvedProjection where
  | field (field : NodeId) (name : String)
  | tuple (index : Nat)
  | index (index : ResolvedIndex)
  | deref
deriving DecidableEq, Repr

structure ResolvedPlace where
  base : ResolvedLocalId
  projections : List ResolvedProjection
deriving DecidableEq, Repr

inductive ResolvedLiteral where
  | int (value : Int)
  | floatBits (bits : UInt64)
  | bool (value : Bool)
  | string (value : String)
  | unit
deriving DecidableEq, Repr

inductive ResolvedUnaryOp where
  | negate
  | not
  | borrowShared
  | borrowMutable
  | dereference
deriving DecidableEq, Repr

def ResolvedUnaryOp.borrows : ResolvedUnaryOp → Bool
  | borrowShared | borrowMutable => true
  | negate | not | dereference => false

mutual

structure ResolvedPattern where
  nodeId : NodeId
  origin : Origin
  kind : ResolvedPatternKind

inductive ResolvedPatternKind where
  | wildcard
  | binding (local_ : ResolvedLocalId)
  | literal (value : ResolvedLiteral)
  | constructor (variant : NodeId) (fields : List (NodeId × ResolvedPattern))
  | tuple (patterns : List ResolvedPattern)
  | array (patterns : List ResolvedPattern)
  | slice (front : List ResolvedPattern) (rest : Option ResolvedPattern)

end

mutual

structure ResolvedExpr where
  nodeId : NodeId
  origin : Origin
  kind : ResolvedExprKind

inductive ResolvedExprKind where
  | literal (value : ResolvedLiteral)
  | fstring (parts : List ResolvedFStringPart)
  | load (place : ResolvedPlace)
  | constant (node : NodeId)
  /-- A callable used as a first-class value. -/
  | callable
  | project (value : ResolvedExpr) (projection : ResolvedValueProjection)
  | defaultArgument (callable : NodeId)
  | binary (left right : ResolvedExpr)
  | unary (op : ResolvedUnaryOp) (operand : ResolvedExpr)
  /-- A call with its argument values, in the order of the parameters. -/
  | call (arguments : List ResolvedExpr)
  | tuple (values : List ResolvedExpr)
  | list (values : List ResolvedExpr)
  | map (entries : List (ResolvedExpr × ResolvedExpr))
  | set (values : List ResolvedExpr)
  | comprehension (pattern : ResolvedPattern) (value iterable : ResolvedExpr)
      (guard : Option ResolvedExpr)
  | optionalChain (receiver : ResolvedExpr) (field : NodeId)
  | typeOf (operand : ResolvedExpr)
  | old (operand : ResolvedExpr)
  | record (fields : List (NodeId × ResolvedExpr)) (rest : Option ResolvedExpr)
  | block (body : ResolvedBlock)
  | scope (body : ResolvedBlock)
  | comptime (body : ResolvedBlock)
  | if_ (condition : ResolvedExpr) (thenBlock elseBlock : ResolvedBlock)
  | match_ (scrutinee : ResolvedExpr) (arms : List MatchArm)
  | try_ (value : ResolvedExpr) (propagationTarget : NodeId)
  | range (start end_ : ResolvedExpr)
  | slice (target : ResolvedExpr) (start end_ : Option ResolvedExpr)
  | cast (value : ResolvedExpr)
  | spawn (operand : ResolvedExpr)
  | await (operand : ResolvedExpr)
  | lambda (captures : List ResolvedLocalId)
  | comptimeValue (node : NodeId)
  | quote (body : ResolvedBlock)
  | typeValue

inductive ResolvedFStringPart where
  | text (text : String)
  | interpolation (value : ResolvedExpr)

inductive ResolvedValueProjection where
  | field (field : NodeId)
  | tuple (index : Nat)
  | index (index : ResolvedExpr)
  | dereference

structure MatchArm where
  nodeId : NodeId
  origin : Origin
  pattern : ResolvedPattern
  guard : Option ResolvedExpr
  body : ResolvedExpr

structure ResolvedStmt where
  nodeId : NodeId
  origin : Origin
  kind : ResolvedStmtKind

inductive ResolvedStmtKind where
  | bind (pattern : ResolvedPattern) (initializer : Option ResolvedExpr)
  | assign (target : ResolvedPlace) (value : ResolvedExpr)
  | return_ (value : Option ResolvedExpr)
  | break_ (value : Option ResolvedExpr)
  | continue_
  | expr (expression : ResolvedExpr)
  | while_ (condition : ResolvedExpr) (body : ResolvedBlock)
  | whileLet (pattern : ResolvedPattern) (initializer : ResolvedExpr) (body : ResolvedBlock)
  | ifLet (pattern : ResolvedPattern) (initializer : ResolvedExpr) (thenBlock : ResolvedBlock)
      (elseBlock : Option ResolvedBlock)
  | loop (body : ResolvedBlock)
  | for_ (pattern : ResolvedPattern) (iterable : ResolvedExpr) (body : ResolvedBlock)
  | drop (places : List ResolvedPlace)
  | contract (condition : ResolvedExpr)
  | math (expressions : List ResolvedExpr)
  | scope (body : ResolvedBlock)
  | pinned (value : ResolvedExpr) (binding : Option ResolvedLocalId) (body : ResolvedBlock)
  | nestedCallable (node : NodeId)

structure ResolvedBlock where
  nodeId : NodeId
  origin : Origin
  statements : List ResolvedStmt
  result : Option ResolvedExpr

end

/-- The body of a callable. -/
structure ResolvedBody where
  owner : NodeId
  locals : SortedMap ResolvedLocalId ResolvedLocal
  /-- Typed expressions evaluated to compute structured places. -/
  placeInputs : SortedMap NodeId ResolvedExpr
  root : ResolvedBlock

end Mimi.Core
