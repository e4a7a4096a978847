/-
Module: Mimi.Mir.Definitions
Purpose: The values that a function defines: its parameters, the parameters of its blocks and the results of its
  instructions; and the values that instructions read and consume.
Trusted boundary: human-reviewed translation of the calls of `define_at` and `result_at` in `check_function_header`,
  `check_blocks` and `check_instruction` of `MirValidator`, of `mir_instruction_value_uses` and
  `mir_terminator_value_uses` in `src/core/mir/mod.rs`, and of `consumed_sources` in `src/core/mir/reference.rs`
-/
import Mimi.Mir.Function

namespace Mimi.Mir

open Mimi.Core Mimi.Lib

/-- The values that an instruction defines. -/
def MirInstructionKind.results : MirInstructionKind → List MirValueId
  | mapRootNew result | mapRootSet result _ _ _ | mapRootRemove result _ _ | mapRootSize result _
  | mapRootContains result _ _ | const result _ | load result _ | copy result _ | move result _ | clone result _
  | borrow _ _ _ _ result _ _ | project result _ _ _ | moveProject result _ _ | moveProjectDrop result _ _ _
  | variantProject result _ _ | variantProjectOr result _ _ _ | variantProjectMove result _ _
  | construct result _ _ | constructList result _ _ | listOp result _ _ _ _ | variantPredicate result _ _ _
  | constructSet result _ | setOp result _ _ _ | constructVariant result _ _ _
  | constructVariantMove result _ _ _ | updateRecord result _ _ _ _ _ | binary result _ _ _ | unary result _ _
  | flowTransition result _ _ _ | builtinCall result _ _ _ | sessionCall result _ _ _ _
  | convert result _ => [result]
  | call result _ _ _ _ _ => result.toList
  | sessionPairBind lo hi _ => [lo, hi]
  | mapRootDrop _ | drop _ | endBorrow _ | nop => []

/-- The local that a load reads. -/
def ResolvedPlace.localValue (place : ResolvedPlace) : List MirValueId :=
  (StableId.new ("local:" ++ place.base.node.val)).toList

/-- The value that the index of a projection is. -/
def MirProjection.uses : MirProjection → List MirValueId
  | index value => [value]
  | _ => []

/-- `mir_instruction_value_uses`. -/
def MirInstructionKind.uses : MirInstructionKind → List MirValueId
  | const _ _ | nop | mapRootNew _ | sessionPairBind _ _ _ => []
  | mapRootSet _ source _ value => [source, value]
  | mapRootRemove _ source _ => [source]
  | mapRootSize _ root | mapRootContains _ root _ | mapRootDrop root => [root]
  | load _ place => place.localValue
  | copy _ source | move _ source | clone _ source | convert _ source => [source]
  | drop value | endBorrow value => [value]
  | borrow _ _ _ _ _ source _ => [source]
  | project _ base projection _ | moveProject _ base projection | moveProjectDrop _ base projection _ =>
      base :: projection.uses
  | variantProject _ base _ | variantProjectMove _ base _ => [base]
  | variantProjectOr _ base fallback _ => [base, fallback]
  | construct _ _ fields | constructSet _ fields => fields
  | constructList _ elements _ => elements
  | listOp _ _ list argument _ | setOp _ _ list argument => list :: argument.toList
  | variantPredicate _ _ variant _ => [variant]
  | constructVariant _ _ _ fields | constructVariantMove _ _ _ fields => fields.map Prod.snd
  | updateRecord _ base _ fields _ _ => base :: fields
  | binary _ _ left right => [left, right]
  | unary _ _ operand => [operand]
  | call _ _ _ arguments _ _ | flowTransition _ _ arguments _ | builtinCall _ _ arguments _ => arguments
  | sessionCall _ _ endpoint payload _ => endpoint :: payload.toList

/-- `mir_terminator_value_uses`. -/
def MirTerminator.uses : MirTerminator → List MirValueId
  | goto _ _ arguments => arguments
  | branch condition _ _ thenArguments _ _ elseArguments => condition :: (thenArguments ++ elseArguments)
  | switch scrutinee arms | switchMove scrutinee arms => scrutinee :: arms.flatMap MirSwitchArm.arguments
  | return_ value | fault value => value.toList
  | trap _ | unreachable => []

/-- `consumed_sources`: the values whose owner an instruction takes the place of. -/
def MirInstructionKind.consumed : MirInstructionKind → List MirValueId
  | move _ source | drop source | moveProject _ source _ | moveProjectDrop _ source _ _
  | variantProjectMove _ source _ => [source]
  | call _ _ _ arguments _ _ | flowTransition _ _ arguments _ | construct _ _ arguments => arguments
  | builtinCall _ _ arguments none => arguments
  | sessionCall _ operation endpoint payload _ =>
      -- A send or a receive advances its endpoint in place.
      (match operation with
        | .send | .recv => []
        | .close => [endpoint]) ++ payload.toList
  | constructList _ elements _ | constructSet _ elements => elements
  | listOp _ .concat list (some argument) _ => [list, argument]
  | setOp _ .insert set argument | setOp _ .remove set argument => set :: argument.toList
  | constructVariant _ _ _ fields | constructVariantMove _ _ _ fields => fields.map Prod.snd
  | updateRecord _ base _ arguments _ _ => base :: arguments
  | _ => []

/-- Each value that the instructions read is among those that are defined in front of them. -/
def usesDefined : List MirValueId → List MirInstruction → Bool
  | _, [] => true
  | defined, instruction :: rest =>
      instruction.kind.uses.all (· ∈ defined) && usesDefined (defined ++ instruction.kind.results) rest

/-- The values that a block defines, in order. -/
def MirBlock.definitions (block : MirBlock) : List MirValueId :=
  block.parameters.map MirBlockParameter.value ++ block.instructions.flatMap fun instruction =>
    instruction.kind.results

namespace MirFunction

variable (self : MirFunction)

/-- The values that the function defines, in the order in which the validator meets them. -/
def definitions : List MirValueId :=
  self.parameters ++ self.blocks.values.flatMap MirBlock.definitions

/-- No value is defined more than once.  The other checks of the validator only reject more functions. -/
def SingleDefinitions : Prop := self.definitions.Nodup

instance : Decidable self.SingleDefinitions := inferInstanceAs (Decidable (List.Nodup _))

variable {self}

/-- No block defines a parameter of the function again. -/
theorem SingleDefinitions.parameter_not_redefined (single : self.SingleDefinitions) {parameter : MirValueId}
    (member : parameter ∈ self.parameters) {id : MirBlockId} {block : MirBlock}
    (found : self.blocks.find? id = some block) : parameter ∉ block.definitions := by
  have apart := (List.nodup_append'.mp single).2.2
  have listed : block ∈ self.blocks.values := List.mem_map_of_mem (SortedMap.mem_of_find? found)
  exact fun again => apart member (List.mem_flatMap.mpr ⟨block, listed, again⟩)

/-- The parameters of the function and the definitions of one block. -/
theorem SingleDefinitions.nodup_block (single : self.SingleDefinitions) {block : MirBlock}
    (listed : block ∈ self.blocks.values) : (self.parameters ++ block.definitions).Nodup := by
  obtain ⟨front, back, split⟩ := List.append_of_mem listed
  rw [SingleDefinitions, definitions, split, List.flatMap_append, List.flatMap_cons] at single
  exact single.sublist (((List.sublist_append_left ..).trans (List.sublist_append_right ..)).append_left _)

end MirFunction

end Mimi.Mir
