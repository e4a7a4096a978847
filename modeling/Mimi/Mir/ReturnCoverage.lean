/-
Module: Mimi.Mir.ReturnCoverage
Purpose: The check of the control flow of a function that is called for a variant: a search through its
  blocks that admits jumps and branches, and returns of a value of the type of the result.
Trusted boundary: human-reviewed translation of `validate_variant_call_return_coverage` in
  `src/core/mir/mod.rs`; the depth of its recursion is a parameter
-/
import Mimi.Lib.ActiveSearch
import Mimi.Mir.Function

namespace Mimi.Mir.MirFunction

open Mimi.Lib
open Mimi.Lib.ActiveSearch (Marks)

variable (function : MirFunction)

/-- What the search does at the terminator of a block. -/
def visit_terminator (visit : MirBlockId → Run (Marks MirBlockId) String Unit) :
    MirTerminator → Run (Marks MirBlockId) String Unit
  | .goto _ target _ => visit target
  | .branch _ _ then_target _ _ else_target _ => do
      visit then_target
      visit else_target
  | .return_ (some value) =>
      match function.values.find? value with
      | none => Run.throw s!"MIR variant call return value '{value.val}' is absent from the value catalog"
      | some value_info =>
          if value_info.ty ≠ function.result then
            Run.throw "MIR variant call return value disagrees with the function result TypeDesc"
          else pure ()
  | .return_ none => Run.throw "MIR variant call return merge requires value returns"
  | .switch _ _ | .switchMove _ _ =>
      Run.throw "MIR verifier direct variant call return merge only admits Goto/Branch CFG"
  | .trap _ | .unreachable | .fault _ =>
      Run.throw "MIR variant call return merge requires total non-trapping returns"

/-- The search from a block. -/
def visit : Nat → MirBlockId → Run (Marks MirBlockId) String Unit
  | 0, _ => Run.diverge
  | fuel + 1, block_id => do
      let active ← Run.gets Marks.active
      Run.modify fun marks => { marks with active := insert block_id marks.active }
      if block_id ∈ active then
        Run.throw "MIR variant call return merge does not admit cyclic canonical MIR CFG"
      else do
        let visited ← Run.gets Marks.visited
        Run.modify fun marks => { marks with visited := insert block_id marks.visited }
        if block_id ∈ visited then
          Run.modify fun marks => { marks with active := marks.active.erase block_id }
        else
          match function.blocks.find? block_id with
          | none => Run.throw s!"MIR variant call return block '{block_id.val}' is absent"
          | some block => do
              function.visit_terminator (visit fuel) block.terminator
              Run.modify fun marks => { marks with active := marks.active.erase block_id }

def validate_variant_call_return_coverage (fuel : Nat) : Option (Except String Unit) :=
  (function.visit fuel function.entry ⟨∅, ∅⟩).map Prod.fst

end Mimi.Mir.MirFunction
