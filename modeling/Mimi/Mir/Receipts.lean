/-
Module: Mimi.Mir.Receipts
Purpose: The identities of the middle-level representation and the receipts that its instructions
  carry: what the checker has proved about a projection, a construction, a call or a session
  operation.
Trusted boundary: human-reviewed translation of the receipt types of `src/core/mir/types.rs`, of the
  identities of `src/core/mir/mod.rs`, `src/core/ir/body.rs` and `src/core/ir/types.rs`, and of
  `TransitionId` in `src/core/resolved/mod.rs`
-/
import Mimi.Core.Ownership

namespace Mimi.Mir

open Mimi.Core

/-! ### Identities -/

/-- What an identity is of. -/
inductive IdKind where
  | block
  | edge
  | value
  | instruction
  | builtin
  | method
  | sessionResidual
  | nominalType
deriving DecidableEq, Repr

/-- An identity of a kind.  It is never blank: the constructors of the source refuse that. -/
structure StableId (kind : IdKind) where
  val : String
  nonblank : isBlank val = false
deriving DecidableEq, Repr

namespace StableId

variable {kind : IdKind}

/-- The identity with a spelling, unless that is blank. -/
def new (value : String) : Option (StableId kind) :=
  if h : isBlank value = false then some ⟨value, h⟩ else none

instance : LT (StableId kind) := ⟨fun a b => a.val < b.val⟩

instance : DecidableLT (StableId kind) := fun a b => inferInstanceAs (Decidable (a.val < b.val))

end StableId

abbrev MirBlockId := StableId .block
abbrev MirEdgeId := StableId .edge
abbrev MirValueId := StableId .value
abbrev MirInstructionId := StableId .instruction
abbrev BuiltinId := StableId .builtin
abbrev MethodId := StableId .method
abbrev SessionResidualId := StableId .sessionResidual
abbrev NominalTypeId := StableId .nominalType

/-- Structural identity of a canonical type. -/
structure ResolvedTypeId where
  val : String
deriving DecidableEq, Repr

structure ResolvedLocalId where
  node : NodeId
deriving DecidableEq, Repr

structure StateId where
  flow : String
  name : String
deriving DecidableEq, Repr

structure TransitionId where
  flow : String
  event : String
  source : StateId
deriving DecidableEq, Repr

/-! ### Parts of resolved bodies -/

inductive ResolvedLiteral where
  | int (value : Int)
  | floatBits (bits : Nat)
  | bool (value : Bool)
  | string (value : String)
  | unit
deriving DecidableEq, Repr

inductive ResolvedIndex where
  | constant (value : Int)
  | dynamic (node : NodeId)
deriving DecidableEq, Repr

inductive ResolvedProjection where
  | field (field : NodeId) (name : String) (ty : ResolvedTypeId)
  | tuple (index : Nat) (ty : ResolvedTypeId)
  | index (index : ResolvedIndex) (ty : ResolvedTypeId)
  | deref (ty : ResolvedTypeId)
deriving DecidableEq, Repr

structure ResolvedPlace where
  base : ResolvedLocalId
  projections : List ResolvedProjection
deriving DecidableEq, Repr

inductive Permission where
  | view
  | mutate
  | consume
deriving DecidableEq, Repr

inductive ResolvedCallee where
  | function (id : NodeId)
  | constructor (id : NodeId)
  | extern_ (id : NodeId)
  | builtin (id : BuiltinId)
  | localClosure (id : ResolvedLocalId)
  | actorMethod (actor : NodeId) (method : MethodId)
  | protocolMethod (protocol : NodeId) (method : MethodId)
  | transition (id : TransitionId)
deriving DecidableEq, Repr

inductive ResolvedBinaryOp where
  | add
  | subtract
  | multiply
  | divide
  | remainder
  | power
  | equal
  | notEqual
  | less
  | greater
  | lessEqual
  | greaterEqual
  | logicalAnd
  | logicalOr
  | bitAnd
  | bitOr
  | bitXor
  | shiftLeft
  | shiftRight
deriving DecidableEq, Repr

inductive ResolvedUnaryOp where
  | negate
  | not
  | borrowShared
  | borrowMutable
  | dereference
deriving DecidableEq, Repr

/-! ### Operations -/

inductive MirOwnership where
  | copy
  | move
  | linear
  | sharedBorrow
  | weakBorrow
deriving DecidableEq, Repr

inductive MirGlueKind where
  | noop
  | ownedString
  | list
  | set
  | mapRoot
  | aggregate
  | session
  | unsupported
deriving DecidableEq, Repr

inductive MirBuiltinKind where
  | abs
  | min
  | max
  | printlnBool
  | printlnInt
  | printlnFloat
  | printlnString
  | sessionOpen
  | sessionPair
deriving DecidableEq, Repr

inductive MirSetOperation where
  | size
  | isEmpty
  | contains
  | insert
  | remove
  | toList
deriving DecidableEq, Repr

inductive MirListOperation where
  | len
  | reverse
  | concat
deriving DecidableEq, Repr

inductive MirVariantPredicate where
  | isSome
  | isNone
  | isOk
  | isErr
deriving DecidableEq, Repr

inductive MirSessionOperation where
  | close
  | send
  | recv
deriving DecidableEq, Repr

inductive MirCallEffectKind where
  | transferSession
deriving DecidableEq, Repr

inductive MirListIndexProjectionMode where
  | copyScalar
  | cloneNestedList
deriving DecidableEq, Repr

inductive MirListOperationMode where
  | scalar
  | nested
deriving DecidableEq, Repr

inductive MirVariantCallAbiMode where
  | flatCopy
  | moveOwned
  | recoverableAggregate
deriving DecidableEq, Repr

inductive MirVariantCallReturnMode where
  | flatCopyMerge
  | ownershipPathExclusiveMerge
  | aggregateEnvelopeMerge
deriving DecidableEq, Repr

/-! ### Receipts -/

structure MirSessionCallContract where
  operation : MirSessionOperation
  endpointTy : ResolvedTypeId
  resultTy : ResolvedTypeId
  payloadTy : Option ResolvedTypeId
  before : SessionResidualId
  after : SessionResidualId
  terminal : Bool
deriving DecidableEq, Repr

structure MirSessionPairBindContract where
  pairTy : ResolvedTypeId
  loTy : ResolvedTypeId
  hiTy : ResolvedTypeId
  loProtocol : ResolvedTypeId
  hiProtocol : ResolvedTypeId
deriving DecidableEq, Repr

structure MirCallEffectContract where
  kind : MirCallEffectKind
  argumentIndex : Nat
  argumentTy : ResolvedTypeId
deriving DecidableEq, Repr

structure MirVariantProjectionContract where
  nominal : NominalTypeId
  variant : NodeId
  field : NodeId
  fieldIndex : Nat
  arity : Nat
  fieldTy : ResolvedTypeId
  ownership : MirOwnership
  moveOutGlue : MirGlueKind
deriving DecidableEq, Repr

structure MirVariantProjectionTrapContract where
  sourceTy : ResolvedTypeId
  resultTy : ResolvedTypeId
  projection : MirVariantProjectionContract
  variantName : String
  discriminant : Nat
  trapCode : String
deriving DecidableEq, Repr

structure MirVariantProjectionFallbackContract where
  sourceTy : ResolvedTypeId
  resultTy : ResolvedTypeId
  fallbackTy : ResolvedTypeId
  projection : MirVariantProjectionContract
  variantName : String
  discriminant : Nat
  fallbackVariant : NodeId
  fallbackVariantName : String
  fallbackDiscriminant : Nat
  fallbackArity : Nat
deriving DecidableEq, Repr

structure MirRecordProjectionContract where
  nominal : NominalTypeId
  field : NodeId
  name : String
  fieldIndex : Nat
  arity : Nat
  fieldTy : ResolvedTypeId
deriving DecidableEq, Repr

structure MirStringFieldBorrowContract where
  sourceTy : ResolvedTypeId
  projection : MirRecordProjectionContract
deriving DecidableEq, Repr

structure MirFlowEffectReceipt where
  transition : NodeId
  source : ResolvedTypeId
  parameters : List ResolvedTypeId
  result : ResolvedTypeId
  target : ResolvedTypeId
deriving DecidableEq, Repr

structure MirRecordUpdateContract where
  sourceTy : ResolvedTypeId
  resultTy : ResolvedTypeId
  nominal : NominalTypeId
  arity : Nat
  fields : List MirRecordProjectionContract
deriving DecidableEq, Repr

structure MirRecordUpdateMoveField where
  projection : MirRecordProjectionContract
  oldDrop : MirGlueKind
  newMove : MirGlueKind
deriving DecidableEq, Repr

structure MirRecordResidualMove where
  id : NodeId
  name : String
  index : Nat
  ty : ResolvedTypeId
  glue : MirGlueKind
deriving DecidableEq, Repr

structure MirRecordUpdateMoveContract where
  sourceTy : ResolvedTypeId
  resultTy : ResolvedTypeId
  nominal : NominalTypeId
  arity : Nat
  updates : List MirRecordUpdateMoveField
  residual : List MirRecordResidualMove
deriving DecidableEq, Repr

structure MirTupleProjectionContract where
  tupleTy : ResolvedTypeId
  fieldIndex : Nat
  arity : Nat
  fieldTy : ResolvedTypeId
deriving DecidableEq, Repr

inductive MirReadProjectionKind where
  | field (id : NodeId)
  | tuple (index : Nat)
deriving DecidableEq, Repr

structure MirReadProjectionStep where
  baseTy : ResolvedTypeId
  resultTy : ResolvedTypeId
  projection : MirReadProjectionKind
deriving DecidableEq, Repr

structure MirReadProjectionContract where
  sourceTy : ResolvedTypeId
  resultTy : ResolvedTypeId
  steps : List MirReadProjectionStep
deriving DecidableEq, Repr

structure MirListIndexProjectionContract where
  listTy : ResolvedTypeId
  elementTy : ResolvedTypeId
  indexTy : ResolvedTypeId
  resultTy : ResolvedTypeId
  mode : MirListIndexProjectionMode
deriving DecidableEq, Repr

structure MirListOperationContract where
  listTy : ResolvedTypeId
  elementTy : ResolvedTypeId
  resultTy : ResolvedTypeId
  argumentTy : Option ResolvedTypeId
  operation : MirListOperation
  mode : MirListOperationMode
deriving DecidableEq, Repr

structure MirListConstructContract where
  listTy : ResolvedTypeId
  elementTy : ResolvedTypeId
  resultTy : ResolvedTypeId
  elementCount : Nat
deriving DecidableEq, Repr

structure MirVariantPredicateContract where
  variantTy : ResolvedTypeId
  resultTy : ResolvedTypeId
  nominal : NominalTypeId
  variant : NodeId
  variantName : String
  alternateVariant : NodeId
  alternateVariantName : String
  predicate : MirVariantPredicate
  discriminant : Nat
deriving DecidableEq, Repr

structure MirVariantCallVariant where
  id : NodeId
  name : String
  discriminant : Nat
  payloadField : Option NodeId
  payloadArity : Nat
deriving DecidableEq, Repr

structure MirVariantCallAbiContract where
  callee : NodeId
  typeArguments : List ResolvedTypeId
  parameterTypes : List ResolvedTypeId
  resultTy : ResolvedTypeId
  mode : MirVariantCallAbiMode
  returnMode : MirVariantCallReturnMode
  payloadTy : ResolvedTypeId
  payloadTypes : List ResolvedTypeId
  nominal : NominalTypeId
  variants : List MirVariantCallVariant
deriving DecidableEq, Repr

structure MirRecordResidualDrop where
  id : NodeId
  name : String
  index : Nat
  ty : ResolvedTypeId
  glue : MirGlueKind
deriving DecidableEq, Repr

structure MirRecordMoveProjectionDropContract where
  sourceTy : ResolvedTypeId
  resultTy : ResolvedTypeId
  projection : MirRecordProjectionContract
  residual : List MirRecordResidualDrop
deriving DecidableEq, Repr

end Mimi.Mir
