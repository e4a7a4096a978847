/-
Module: Mimi.Bytecode.Edge
Purpose: What a control-flow edge means, apart from its code: which edge a terminator takes, the values that
  the edge passes, and the parallel assignment and the releases that it stands for.
Trusted boundary: the purpose of edges as the representation states it
-/
import Mimi.Bytecode.EdgeEmitter
import Mimi.Bytecode.Typing
import Mimi.Mir.Validator

namespace Mimi.Bytecode

open Mimi.Core Mimi.Mir Mimi.Lib

/-- An edge of a terminator, with the scrutinee of the switch that it belongs to. -/
structure Edge where
  target : MirBlockId
  arguments : List MirValueId
  bindings : List MirSwitchBinding
  scrutinee : Option MirValueId
  /-- The switch consumes its scrutinee. -/
  consumes : Bool
deriving DecidableEq, Repr

/-- The edge of an arm of a switch. -/
def edgeOf (scrutinee : MirValueId) (consumes : Bool) (arm : MirSwitchArm) : Edge where
  target := arm.target
  arguments := arm.arguments
  bindings := arm.bindings
  scrutinee := some scrutinee
  consumes := consumes

/-! ### Values -/

/-- The payload of a variant. -/
def payloadOf (value : Value) : List Value := (value.variantParts.map fun parts => parts.2.1).getD []

def tupleItems : Value → List Value
  | .tuple items => items
  | _ => []

/-- The part of the scrutinee that a binding names. -/
def boundPart (value : Value) (binding : MirSwitchBinding) : Option Value :=
  match binding.nestedTuple with
  | none => (payloadOf value)[binding.projection.fieldIndex]?
  | some nested =>
      (payloadOf value)[binding.projection.fieldIndex]?.bind fun part =>
        (tupleItems part)[nested.fieldIndex]?

/-- The variant of a family that a value belongs to. -/
def variantOf (catalog : MirTypeCatalog) (ty : ResolvedTypeId) (value : Value) : Option MirVariantDesc :=
  (catalog.variant_layout ty).bind fun family =>
    value.variantParts.bind fun parts => family.2.find? fun variant => variant.name = parts.1

namespace Emitter

variable (emitter : Emitter)

/-- The register of a value that has one. -/
def regOf (value : MirValueId) : Reg := (emitter.registers value).getD 0

def typeOf (value : MirValueId) : Option ResolvedTypeId := emitter.function.typeOf value

/-- What a frame holds for a value. -/
def valueIn (frame : Frame) (value : MirValueId) : Option Value := (emitter.registers value).map frame.regs

/-- Values of the type have an owner: they are moved, not copied. -/
def movesType (ty : ResolvedTypeId) : Bool :=
  (emitter.catalog.get ty).any fun descriptor => descriptor.ownership ≠ .copy

def moves (value : MirValueId) : Bool := (emitter.typeOf value).any emitter.movesType

/-- Values of the type hold something that has to be released. -/
def releasesType (ty : ResolvedTypeId) : Bool :=
  (emitter.catalog.get ty).any fun descriptor => descriptor.ownership ≠ .copy && descriptor.glue.drop ≠ .noop

/-! ### The edge that is taken -/

/-- The case of an arm agrees with the scrutinee. -/
def caseMatches (ty : ResolvedTypeId) (value : Value) : MirSwitchCase → Bool
  | .default => true
  | .literal (.int n) => match value with
      | .int m => m = n
      | _ => false
  | .literal (.bool b) => match value with
      | .bool b' => b' = b
      | _ => false
  | .literal _ => false
  | .variant id => (variantOf emitter.catalog ty value).any fun variant => variant.id = id

/-- The first arm whose case agrees. -/
def selectedArm (frame : Frame) (scrutinee : MirValueId) (arms : List MirSwitchArm) :
    Option MirSwitchArm :=
  (emitter.typeOf scrutinee).bind fun ty => (emitter.valueIn frame scrutinee).bind fun value =>
    arms.find? fun arm => emitter.caseMatches ty value arm.case

/-- The edge that a terminator takes. -/
def selectedEdge (frame : Frame) : MirTerminator → Option Edge
  | .goto _ target arguments => some ⟨target, arguments, [], none, false⟩
  | .branch condition _ then_target then_arguments _ else_target else_arguments =>
      (emitter.valueIn frame condition).map fun value =>
        if is_truthy value then ⟨then_target, then_arguments, [], none, false⟩
        else ⟨else_target, else_arguments, [], none, false⟩
  | .switch scrutinee arms =>
      (emitter.selectedArm frame scrutinee arms).map (edgeOf scrutinee false)
  | .switchMove scrutinee arms =>
      (emitter.selectedArm frame scrutinee arms).map (edgeOf scrutinee true)
  | .return_ _ | .trap _ | .fault _ | .unreachable => none

/-! ### What the edge does -/

/-- The values that an edge passes: its arguments, and the payloads that it binds. -/
def passed (edge : Edge) (frame : Frame) : List (Option Value) :=
  edge.arguments.map (emitter.valueIn frame) ++ edge.bindings.map fun binding =>
    (edge.scrutinee.bind (emitter.valueIn frame)).bind fun value => boundPart value binding

/-- A field that nothing binds, when it holds something. -/
def unboundField (bindings : List MirSwitchBinding) (entry : MirFieldDesc × Value) : Option Value :=
  if !(bindings.any fun binding => binding.projection.field = entry.1.id) && emitter.releasesType entry.1.ty
  then some entry.2
  else none

/-- The parts of a consumed value that nothing binds, the last one first; all of it when nothing is bound. -/
def unboundParts (ty : ResolvedTypeId) (bindings : List MirSwitchBinding) (value : Value) : List Value :=
  if bindings.isEmpty then [value]
  else
    match variantOf emitter.catalog ty value with
    | none => []
    | some variant => ((variant.fields.zip (payloadOf value)).filterMap (emitter.unboundField bindings)).reverse

/-- The parts of the scrutinee that the edge releases. -/
def releasedParts (edge : Edge) (frame : Frame) : List Value :=
  if edge.consumes then
    ((edge.scrutinee.bind fun scrutinee => (emitter.typeOf scrutinee).bind fun ty =>
      (emitter.valueIn frame scrutinee).map (emitter.unboundParts ty edge.bindings))).getD []
  else []

/-- The edge takes the value away from its register. -/
def consumed (edge : Edge) (value : MirValueId) : Prop :=
  value ∈ edge.arguments.filter emitter.moves ∨ (edge.consumes = true ∧ edge.scrutinee = some value)

/-- The effect of an edge: a parallel assignment to the parameters of its target. -/
structure Transferred (edge : Edge) (block : MirBlock) (frame frame' : Frame) : Prop where
  receives : block.parameters.map (fun parameter => emitter.valueIn frame' parameter.value) =
    emitter.passed edge frame
  gone : ∀ value, value ∉ block.parameters.map MirBlockParameter.value → emitter.consumed edge value →
    ∀ v, emitter.valueIn frame' value = some v → v = .unit
  kept : ∀ value, value ∉ block.parameters.map MirBlockParameter.value → ¬emitter.consumed edge value →
    emitter.valueIn frame' value = emitter.valueIn frame value
  released : frame'.released = frame.released ++ emitter.releasedParts edge frame

/-- The value that a frame holds has the type of the catalog. -/
def TypedIn (frame : Frame) (value : MirValueId) : Prop :=
  ∀ ty v, emitter.typeOf value = some ty → emitter.valueIn frame value = some v →
    HasType emitter.catalog v ty

/-- The values that an edge takes have their types. -/
structure TypedEdge (edge : Edge) (frame : Frame) : Prop where
  arguments : ∀ argument ∈ edge.arguments, emitter.TypedIn frame argument
  scrutinee : ∀ scrutinee, edge.scrutinee = some scrutinee → emitter.TypedIn frame scrutinee

/-- No value is moved twice by the edge, and a scrutinee that is taken apart or released behind the arguments is
neither moved nor written before. -/
structure EdgeSound (edge : Edge) (block : MirBlock) : Prop where
  once : (edge.arguments.filter emitter.moves).Nodup
  apart : ∀ scrutinee, edge.scrutinee = some scrutinee → edge.consumes = true ∨ edge.bindings ≠ [] →
    scrutinee ∉ edge.arguments.filter emitter.moves
  unwritten : ∀ scrutinee, edge.scrutinee = some scrutinee → edge.consumes = true → edge.bindings = [] →
    scrutinee ∉ block.parameters.map MirBlockParameter.value

/-- The effect of an edge only depends on the values before it. -/
theorem Transferred.congr {emitter : Emitter} {edge : Edge} {block : MirBlock} {start frame frame' : Frame}
    (same : ∀ value, emitter.valueIn start value = emitter.valueIn frame value)
    (released : start.released = frame.released) :
    emitter.Transferred edge block start frame' ↔ emitter.Transferred edge block frame frame' := by
  have values : emitter.valueIn start = emitter.valueIn frame := funext same
  have passes : emitter.passed edge start = emitter.passed edge frame := by
    unfold passed
    rw [values]
  have releases : emitter.releasedParts edge start = emitter.releasedParts edge frame := by
    unfold releasedParts
    rw [values]
  refine ⟨fun h => ?_, fun h => ?_⟩
  · exact {
      receives := h.receives.trans passes
      gone := h.gone
      kept := fun value new untouched => (h.kept value new untouched).trans (same value)
      released := by rw [h.released, released, releases] }
  · exact {
      receives := h.receives.trans passes.symm
      gone := h.gone
      kept := fun value new untouched => (h.kept value new untouched).trans (same value).symm
      released := by rw [h.released, released, releases] }

end Emitter

end Mimi.Bytecode
