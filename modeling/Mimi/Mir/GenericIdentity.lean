/-
Module: Mimi.Mir.GenericIdentity
Purpose: The check of the body of a generic identity: a walk along the ways through its blocks that tracks which
  values are the parameter and which are its clone.
Trusted boundary: human-reviewed translation of `validate_generic_identity_shape` and
  `validate_single_block_generic_identity` in `src/core/mir/mod.rs`; the depth of the recursion is a parameter
-/
import Mimi.Lib.ActiveSearch
import Mimi.Mir.Function

namespace Mimi.Mir.GenericIdentity

open Mimi.Core Mimi.Lib
open Mimi.Lib.ActiveSearch (Marks)

/-- Where a value comes from. -/
inductive Origin where
  | parameter
  | clone
  | other
deriving DecidableEq, Repr

structure PathState where
  origins : SortedMap MirValueId Origin
  clone_count : Nat
deriving DecidableEq, Repr

variable (function : MirFunction)

/-- The origins of the parameters of a block, in turn; the origins of arguments are those in front of the edge. -/
def pass (state : PathState) : List (MirBlockParameter × MirValueId) → PathState → Except String PathState
  | [], next => .ok next
  | (parameter, argument) :: rest, next =>
      match state.origins.find? argument with
      | none => .error s!"generic MIR identity branch edge argument '{argument.val}' is not defined"
      | some origin => pass state rest { next with origins := next.origins.insert parameter.value origin }

def edge_state (state : PathState) (target : MirBlockId) (arguments : List MirValueId) :
    Except String PathState :=
  match function.blocks.find? target with
  | none => .error s!"generic MIR identity target block '{target.val}' is absent"
  | some block =>
      if block.parameters.length ≠ arguments.length then
        .error "generic MIR identity branch edge arguments disagree with block parameters"
      else pass state (block.parameters.zip arguments) state

variable (parameter : MirValueId) (expected_type : ResolvedTypeId)

/-- Whether a value is in the catalog with a type. -/
def hasType (value : MirValueId) : Bool :=
  match function.values.find? value with
  | some found => decide (found.ty = expected_type)
  | none => false

def visit_instruction (state : PathState) : MirInstructionKind → Except String PathState
  | .const result literal =>
      match literal with
      | .bool _ => .ok { state with origins := state.origins.insert result .other }
      | _ => .error "generic MIR identity branch body may only use boolean constants"
  | .clone result source =>
      if source ≠ parameter ∨ hasType function expected_type result = false ∨ state.clone_count ≠ 0 then
        .error "generic MIR identity branch must Clone its parameter exactly once"
      else .ok ⟨state.origins.insert result .clone, state.clone_count + 1⟩
  | .copy result source | .move result source =>
      match state.origins.find? source with
      | none => .error s!"generic MIR identity branch value '{source.val}' is not defined"
      | some origin => .ok { state with origins := state.origins.insert result origin }
  | _ => .error "generic MIR identity branch body may only contain Const/Clone/Copy/Move"

def visit_instructions : List MirInstruction → PathState → Except String PathState
  | [], state => .ok state
  | instruction :: rest, state =>
      match visit_instruction function parameter expected_type state instruction.kind with
      | .error message => .error message
      | .ok state => visit_instructions rest state

/-- Run a walk with a copy of the active blocks. -/
def withActiveClone (walk : Run (Marks MirBlockId) String Unit) : Run (Marks MirBlockId) String Unit := do
  let active ← Run.gets Marks.active
  walk
  Run.modify fun marks => { marks with active := active }

/-- What the walk does at the terminator of a block. -/
def visit_terminator (visit : MirBlockId → PathState → Run (Marks MirBlockId) String Unit) (state : PathState) :
    MirTerminator → Run (Marks MirBlockId) String Unit
  | .goto _ target arguments =>
      match edge_state function state target arguments with
      | .error message => Run.throw message
      | .ok next => visit target next
  | .branch condition _ then_target then_arguments _ else_target else_arguments =>
      if state.origins.contains condition = false then
        Run.throw s!"generic MIR identity branch condition '{condition.val}' is not defined"
      else
        match edge_state function state then_target then_arguments with
        | .error message => Run.throw message
        | .ok then_state => do
            withActiveClone (visit then_target then_state)
            match edge_state function state else_target else_arguments with
            | .error message => Run.throw message
            | .ok else_state => withActiveClone (visit else_target else_state)
  | .return_ (some value) =>
      if state.clone_count ≠ 1 ∨ state.origins.find? value ≠ some .clone then
        Run.throw "generic MIR identity branch must return its exactly-once Clone result"
      else pure ()
  | .return_ none => Run.throw "generic MIR identity branch must return a value"
  | .switch _ _ | .switchMove _ _ => Run.throw "generic MIR identity branch body only admits Goto/Branch CFG"
  | .trap _ | .fault _ | .unreachable =>
      Run.throw "generic MIR identity branch body requires total non-trapping returns"

/-- The walk from a block. -/
def visit : Nat → MirBlockId → PathState → Run (Marks MirBlockId) String Unit
  | 0, _, _ => Run.diverge
  | fuel + 1, block_id, state => do
      let active ← Run.gets Marks.active
      Run.modify fun marks => { marks with active := insert block_id marks.active }
      if block_id ∈ active then
        Run.throw "generic MIR identity body does not admit cyclic CFG"
      else do
        Run.modify fun marks => { marks with visited := insert block_id marks.visited }
        match function.blocks.find? block_id with
        | none => Run.throw s!"generic MIR identity block '{block_id.val}' is absent"
        | some block =>
            match visit_instructions function parameter expected_type block.instructions state with
            | .error message => Run.throw message
            | .ok state => do
                visit_terminator function (visit fuel) state block.terminator
                Run.modify fun marks => { marks with active := marks.active.erase block_id }

def validate_single_block_generic_identity : Except String Unit :=
  match function.blocks.find? function.entry with
  | none => .error "generic MIR identity entry block is absent"
  | some block =>
      match block.instructions with
      | [instruction] =>
          match instruction.kind with
          | .clone result source =>
              if source ≠ parameter ∨ hasType function expected_type result = false then
                .error "generic MIR identity Clone must copy the canonical parameter"
              else if block.terminator ≠ .return_ (some result) then
                .error "generic MIR identity body must return the Clone result"
              else .ok ()
          | _ => .error "generic MIR identity body must use canonical Clone from its parameter"
      | _ => .error "generic MIR identity body must contain exactly one Clone instruction"

def validate_generic_identity_shape (fuel : Nat) : Option (Except String Unit) :=
  match function.parameters with
  | [parameter] =>
      if function.result ≠ expected_type ∨ hasType function expected_type parameter = false then
        some (.error "generic MIR identity body must preserve one canonical parameter and result")
      else if function.blocks.entries.length = 1 then
        some (validate_single_block_generic_identity function parameter expected_type)
      else
        let origins := SortedMap.empty.insert parameter .parameter
        match visit function parameter expected_type fuel function.entry ⟨origins, 0⟩ ⟨∅, ∅⟩ with
        | none => none
        | some (.error message, _) => some (.error message)
        | some (.ok (), marks) =>
            if marks.visited.card ≠ function.blocks.entries.length then
              some (.error "generic MIR identity body contains unreachable blocks")
            else some (.ok ())
  | _ => some (.error "generic MIR identity body must have exactly one parameter")

end Mimi.Mir.GenericIdentity
