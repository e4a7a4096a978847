/-
Module: Mimi.Mir.Execution
Purpose: The executions of a function over values of any kind: constants, copies, moves and clones, and the control
  flow with the values that edges pass.  A move, an edge or a return takes a value away whose type is not Copy.  The
  clones made so far are counted.
Trusted boundary: human-reviewed translation of `execute_function`, of the arms `Const`, `Copy`, `Move` and `Clone`
  of `execute_instruction` and of `take_transfer_value` in `src/core/mir/reference.rs`, without the limit on steps; no
  other instruction has a step, and a branch may take every side that its condition allows
-/
import Mimi.Mir.Definitions
import Mimi.Mir.TypeDesc

namespace Mimi.Mir

open Mimi.Core Mimi.Lib

/-- What constants and clones are, and which sides a branch can take on a value. -/
structure Semantics (V : Type) where
  literal : ResolvedLiteral → V
  clone : V → V
  takes : V → Bool → Prop
  decides : ∀ value, ∃ side, takes value side

/-- The values that are defined and have not been taken away. -/
abbrev Values (V : Type) := MirValueId → Option V

inductive Execution (V : Type) where
  | running (instructions : List MirInstruction) (terminator : MirTerminator) (values : Values V) (clones : Nat)
  /-- On an edge, with the arguments still to be taken. -/
  | crossing (target : MirBlockId) (arguments : List MirValueId) (values : Values V) (clones : Nat)
  | returned (value : V) (clones : Nat)

namespace Execution

variable {V : Type} (function : MirFunction) (catalog : MirTypeCatalog)

/-- A value, and what is left when it is taken away or read only. -/
def take (values : Values V) (source : MirValueId) (removes : Bool) : Option (V × Values V) :=
  (values source).map fun value => (value, if removes then Function.update values source none else values)

/-- A move reads its source if the catalog has it as Copy, and else takes it away. -/
def move_removes (source : MirValueId) : Bool :=
  !((function.values.find? source).bind fun info => catalog.get info.ty).any fun descriptor =>
    decide (descriptor.ownership = .copy)

/-- Whether `take_transfer_value` takes a value away, unless it fails whatever the values are. -/
def transfer_removes (source : MirValueId) : Option Bool :=
  match function.values.find? source with
  | none => none
  | some info =>
      match catalog.get info.ty with
      -- a program without a catalog
      | none => some false
      | some descriptor =>
          if descriptor.ownership = .copy then
            match catalog.validate_copy_value info.ty with
            | .ok () => some false
            | .error _ => none
          else some true

def take_transfer_value (values : Values V) (source : MirValueId) : Option (V × Values V) :=
  match transfer_removes function catalog source with
  | none => none
  | some removes => take values source removes

def take_transfer_values (values : Values V) : List MirValueId → Option (List V × Values V)
  | [] => some ([], values)
  | source :: rest =>
      match take_transfer_value function catalog values source with
      | none => none
      | some (value, left) =>
          match take_transfer_values left rest with
          | none => none
          | some (incoming, left) => some (value :: incoming, left)

/-- The parameters of a block get the values that come in. -/
def receive (values : Values V) : List (MirBlockParameter × V) → Values V
  | [] => values
  | (parameter, value) :: rest => receive (Function.update values parameter.value (some value)) rest

variable (semantics : Semantics V)

inductive Step : Execution V → Execution V → Prop where
  | const (id : MirInstructionId) (result : MirValueId) (literal : ResolvedLiteral) (rest : List MirInstruction)
      (terminator : MirTerminator) (values : Values V) (clones : Nat) :
      Step (.running (⟨id, .const result literal⟩ :: rest) terminator values clones)
        (.running rest terminator (Function.update values result (some (semantics.literal literal))) clones)
  | copy (id : MirInstructionId) (result source : MirValueId) (rest : List MirInstruction)
      (terminator : MirTerminator) (values : Values V) (clones : Nat) (value : V)
      (read : values source = some value) :
      Step (.running (⟨id, .copy result source⟩ :: rest) terminator values clones)
        (.running rest terminator (Function.update values result (some value)) clones)
  | move (id : MirInstructionId) (result source : MirValueId) (rest : List MirInstruction)
      (terminator : MirTerminator) (values : Values V) (clones : Nat) (value : V) (left : Values V)
      (taken : take values source (move_removes function catalog source) = some (value, left)) :
      Step (.running (⟨id, .move result source⟩ :: rest) terminator values clones)
        (.running rest terminator (Function.update left result (some value)) clones)
  | clone (id : MirInstructionId) (result source : MirValueId) (rest : List MirInstruction)
      (terminator : MirTerminator) (values : Values V) (clones : Nat) (value : V)
      (read : values source = some value) :
      Step (.running (⟨id, .clone result source⟩ :: rest) terminator values clones)
        (.running rest terminator (Function.update values result (some (semantics.clone value))) (clones + 1))
  | goto (edge : MirEdgeId) (target : MirBlockId) (arguments : List MirValueId) (values : Values V) (clones : Nat) :
      Step (.running [] (.goto edge target arguments) values clones) (.crossing target arguments values clones)
  | branch (condition : MirValueId) (thenEdge : MirEdgeId) (thenTarget : MirBlockId)
      (thenArguments : List MirValueId) (elseEdge : MirEdgeId) (elseTarget : MirBlockId)
      (elseArguments : List MirValueId) (values : Values V) (clones : Nat) (value : V) (side : Bool)
      (read : values condition = some value) (taken : semantics.takes value side) :
      Step (.running [] (.branch condition thenEdge thenTarget thenArguments elseEdge elseTarget elseArguments)
        values clones)
        (.crossing (if side then thenTarget else elseTarget) (if side then thenArguments else elseArguments)
          values clones)
  | cross (target : MirBlockId) (arguments : List MirValueId) (values : Values V) (clones : Nat) (block : MirBlock)
      (incoming : List V) (left : Values V)
      (taken : take_transfer_values function catalog values arguments = some (incoming, left))
      (found : function.blocks.find? target = some block) (arity : block.parameters.length = incoming.length) :
      Step (.crossing target arguments values clones)
        (.running block.instructions block.terminator (receive left (block.parameters.zip incoming)) clones)
  | return_ (result : MirValueId) (values : Values V) (clones : Nat) (value : V) (left : Values V)
      (taken : take_transfer_value function catalog values result = some (value, left)) :
      Step (.running [] (.return_ (some result)) values clones) (.returned value clones)

/-- The parameters of the function have the arguments of the call. -/
def called (arguments : List V) : Values V :=
  fun value => (function.parameters.zip arguments).lookup value

/-- Where an execution starts: in front of the first instruction of the entry block. -/
def start (arguments : List V) : Option (Execution V) :=
  (function.blocks.find? function.entry).map fun block =>
    .running block.instructions block.terminator (called function arguments) 0

end Execution

end Mimi.Mir
