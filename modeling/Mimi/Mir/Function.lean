/-
Module: Mimi.Mir.Function
Purpose: Functions of the middle-level representation: instructions, terminators, blocks with
  parameters, and the ownership facts of the checker that a function carries.
Trusted boundary: human-reviewed translation of the data types of `src/core/mir/mod.rs` and
  `src/core/mir/contracts.rs`, and of `MapRootActionKind` in `src/core/ownership.rs`
-/
import Mimi.Mir.Receipts
import Mimi.Lib.SortedMap

namespace Mimi.Mir

open Mimi.Core Mimi.Lib

structure MirValue where
  id : MirValueId
  ty : ResolvedTypeId
deriving DecidableEq, Repr

/-- Block parameters are the canonical join-value form. -/
structure MirBlockParameter where
  value : MirValueId
deriving DecidableEq, Repr

inductive MirProjection where
  | field (id : NodeId)
  | tuple (index : Nat)
  | index (value : MirValueId)
  | dereference
  | readPath (receipt : MirReadProjectionContract)
deriving DecidableEq, Repr

inductive MirAggregateKind where
  | tuple
  | record (nominal : NominalTypeId) (fields : List NodeId)
deriving DecidableEq, Repr

inductive MirInstructionKind where
  | mapRootNew (result : MirValueId)
  | mapRootSet (result source : MirValueId) (key : String) (value : MirValueId)
  | mapRootRemove (result source : MirValueId) (key : String)
  | mapRootSize (result root : MirValueId)
  | mapRootContains (result root : MirValueId) (key : String)
  | mapRootDrop (root : MirValueId)
  | const (result : MirValueId) (literal : ResolvedLiteral)
  | load (result : MirValueId) (place : ResolvedPlace)
  | copy (result source : MirValueId)
  | move (result source : MirValueId)
  | clone (result source : MirValueId)
  | drop (value : MirValueId)
  | borrow (loan point : NodeId) (checkerResource checkerSource : Option String)
      (result source : MirValueId) (isMutable : Bool)
  | endBorrow (borrow : MirValueId)
  | project (result base : MirValueId) (projection : MirProjection)
      (listIndexContract : Option MirListIndexProjectionContract)
  | moveProject (result base : MirValueId) (projection : MirProjection)
  | moveProjectDrop (result base : MirValueId) (projection : MirProjection)
      (contract : Option MirRecordMoveProjectionDropContract)
  | variantProject (result base : MirValueId) (contract : Option MirVariantProjectionTrapContract)
  | variantProjectOr (result base fallback : MirValueId)
      (contract : Option MirVariantProjectionFallbackContract)
  | variantProjectMove (result base : MirValueId)
      (contract : Option MirVariantProjectionTrapContract)
  | construct (result : MirValueId) (kind : MirAggregateKind) (fields : List MirValueId)
  | constructList (result : MirValueId) (elements : List MirValueId)
      (listConstructContract : Option MirListConstructContract)
  | listOp (result : MirValueId) (operation : MirListOperation) (list : MirValueId)
      (argument : Option MirValueId) (listOperationContract : Option MirListOperationContract)
  | variantPredicate (result : MirValueId) (predicate : MirVariantPredicate) (variant : MirValueId)
      (contract : Option MirVariantPredicateContract)
  | constructSet (result : MirValueId) (elements : List MirValueId)
  | setOp (result : MirValueId) (operation : MirSetOperation) (set : MirValueId)
      (argument : Option MirValueId)
  | constructVariant (result : MirValueId) (nominal : NominalTypeId) (variant : NodeId)
      (fields : List (NodeId × MirValueId))
  | constructVariantMove (result : MirValueId) (nominal : NominalTypeId) (variant : NodeId)
      (fields : List (NodeId × MirValueId))
  | updateRecord (result base : MirValueId) (kind : MirAggregateKind) (fields : List MirValueId)
      (recordUpdateContract : Option MirRecordUpdateContract)
      (recordUpdateMoveContract : Option MirRecordUpdateMoveContract)
  | binary (result : MirValueId) (op : ResolvedBinaryOp) (left right : MirValueId)
  | unary (result : MirValueId) (op : ResolvedUnaryOp) (operand : MirValueId)
  | call (result : Option MirValueId) (callee : ResolvedCallee)
      (typeArguments : List ResolvedTypeId) (arguments : List MirValueId)
      (effectReceipts : List MirCallEffectContract)
      (variantCallContract : Option MirVariantCallAbiContract)
  | flowTransition (result : MirValueId) (transition : NodeId) (arguments : List MirValueId)
      (effectReceipt : Option MirFlowEffectReceipt)
  | builtinCall (result : MirValueId) (kind : MirBuiltinKind) (arguments : List MirValueId)
      (stringFieldContract : Option MirStringFieldBorrowContract)
  | sessionCall (result : MirValueId) (operation : MirSessionOperation) (endpoint : MirValueId)
      (payload : Option MirValueId) (contract : Option MirSessionCallContract)
  | sessionPairBind (lo hi : MirValueId) (contract : Option MirSessionPairBindContract)
  | convert (result source : MirValueId)
  | nop
deriving DecidableEq, Repr

structure MirInstruction where
  id : MirInstructionId
  kind : MirInstructionKind
deriving DecidableEq, Repr

inductive MirSwitchCase where
  | literal (literal : ResolvedLiteral)
  | variant (id : NodeId)
  | default
deriving DecidableEq, Repr

def MirSwitchCase.isVariant : MirSwitchCase → Bool
  | variant _ => true
  | _ => false

def MirSwitchCase.isLiteral : MirSwitchCase → Bool
  | literal _ => true
  | _ => false

structure MirSwitchBinding where
  parameter : MirValueId
  projection : MirVariantProjectionContract
  /-- Second-stage tuple projection of a consuming destructure. -/
  nestedTuple : Option MirTupleProjectionContract
deriving DecidableEq, Repr

structure MirSwitchArm where
  edge : MirEdgeId
  target : MirBlockId
  arguments : List MirValueId
  /-- Payloads projected from the selected variant into target block parameters. -/
  bindings : List MirSwitchBinding
  case : MirSwitchCase
deriving DecidableEq, Repr

inductive MirTerminator where
  | goto (edge : MirEdgeId) (target : MirBlockId) (arguments : List MirValueId)
  | branch (condition : MirValueId)
      (thenEdge : MirEdgeId) (thenTarget : MirBlockId) (thenArguments : List MirValueId)
      (elseEdge : MirEdgeId) (elseTarget : MirBlockId) (elseArguments : List MirValueId)
  | switch (scrutinee : MirValueId) (arms : List MirSwitchArm)
  | switchMove (scrutinee : MirValueId) (arms : List MirSwitchArm)
  | return_ (value : Option MirValueId)
  | trap (code : String)
  | fault (value : Option MirValueId)
  | unreachable
deriving DecidableEq, Repr

def MirTerminator.successors : MirTerminator → List MirBlockId
  | goto _ target _ => [target]
  | branch _ _ thenTarget _ _ elseTarget _ => [thenTarget, elseTarget]
  | switch _ arms | switchMove _ arms => arms.map MirSwitchArm.target
  | return_ _ | trap _ | fault _ | unreachable => []

structure MirBlock where
  id : MirBlockId
  parameters : List MirBlockParameter
  instructions : List MirInstruction
  terminator : MirTerminator
deriving DecidableEq, Repr

/-! ### Contracts -/

inductive MirContractKind where
  | requires
  | ensures
  | invariant
deriving DecidableEq, Repr

inductive MirContractUnaryOp where
  | negate
  | not
deriving DecidableEq, Repr

inductive MirContractBinaryOp where
  | add
  | subtract
  | multiply
  | divide
  | remainder
  | equal
  | notEqual
  | less
  | greater
  | lessEqual
  | greaterEqual
  | logicalAnd
  | logicalOr
deriving DecidableEq, Repr

/-- A scalar contract expression whose leaves are canonical identities. -/
inductive MirContractExpr where
  | value (id : MirValueId)
  | result
  | old (id : MirValueId)
  | project (base : MirContractExpr) (projection : MirProjection)
  | int (value : Int)
  | bool (value : Bool)
  | float (bits : Nat)
  | unary (op : MirContractUnaryOp) (operand : MirContractExpr)
  | binary (op : MirContractBinaryOp) (left right : MirContractExpr)
deriving DecidableEq, Repr

structure MirContract where
  id : NodeId
  kind : MirContractKind
  condition : MirContractExpr
  expressionTypes : SortedMap (List Nat) ResolvedTypeId
deriving DecidableEq, Repr

/-! ### Ownership facts of the checker -/

inductive MirOwnershipEventKind where
  | read
  | write
  | introduce
  | move
  | drop
  | return_
  | transferSession
  | transferChild
  | borrowShared
  | borrowMut
  | borrowEnd
deriving DecidableEq, Repr

structure MirOwnershipEvent where
  kind : MirOwnershipEventKind
  resource : String
  value : Option MirValueId
  source : Option String
  target : Option String
  point : NodeId
  loan : Option NodeId
  checkerBlock : Option NodeId
  checkerEdge : Option NodeId
deriving DecidableEq, Repr

structure MirCheckerLoanLocation where
  block : NodeId
  point : NodeId
  edge : Option NodeId
deriving DecidableEq, Repr

structure MirCheckerLoanEndSite where
  location : MirCheckerLoanLocation
  resource : String
  value : Option MirValueId
  source : Option String
deriving DecidableEq, Repr

structure MirCheckerLoanContract where
  loan : NodeId
  isMutable : Bool
  resource : String
  value : Option MirValueId
  place : Place
  start : MirCheckerLoanLocation
  ends : List MirCheckerLoanEndSite
deriving DecidableEq, Repr

inductive MapRootActionKind where
  | new
  | set
  | remove
  | size
  | contains
  | drop
deriving DecidableEq, Repr

structure MirCheckerMapRootAction where
  kind : MapRootActionKind
  point : NodeId
  local_ : MirValueId
  result : Option MirValueId
  root : String
  key : Option String
  value : Option MirValueId
  valueType : Option ResolvedTypeId
  sourceLocal : Option MirValueId
  source : Option String
  instruction : MirInstructionId
deriving DecidableEq, Repr

/-- Checker ownership facts projected into a function. -/
structure MirOwnershipSummary where
  events : List MirOwnershipEvent
  checkerLoans : SortedMap NodeId MirCheckerLoanContract
  checkerMapRoots : List MirCheckerMapRootAction
deriving DecidableEq, Repr

/-- A concrete callable after resolution and before a backend is selected. -/
structure MirFunction where
  owner : NodeId
  parameters : List MirValueId
  /-- Parameter directions in declaration order; `none` for fixtures without a signature. -/
  parameterPermissions : Option (List (Option Permission))
  result : ResolvedTypeId
  entry : MirBlockId
  values : SortedMap MirValueId MirValue
  blocks : SortedMap MirBlockId MirBlock
  contracts : List MirContract
  ownership : MirOwnershipSummary
deriving DecidableEq, Repr

/-! ### Control flow -/

namespace MirFunction

variable (self : MirFunction)

/-- Control can go from a block of the function to a target of its terminator. -/
def Edge (block target : MirBlockId) : Prop :=
  ∃ found, self.blocks.find? block = some found ∧ target ∈ found.terminator.successors

/-- Control can come from a block to a block. -/
def Reaches : MirBlockId → MirBlockId → Prop := Relation.ReflTransGen self.Edge

end MirFunction

end Mimi.Mir
