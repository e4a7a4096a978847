/-
Module: Mimi.Mir.Dominance
Purpose: The blocks of a function that can be reached from its entry, their predecessors, and the sets of
  blocks that dominate them, found by sweeps from above until nothing changes.
Trusted boundary: human-reviewed translation of `reachable_blocks`, `predecessors` and the computation of
  `dominators` in `check_dominance` of `MirValidator` in `src/core/mir/mod.rs`; the uses that are then
  checked against them are left out
-/
import Mimi.Lib.StackSearch
import Mimi.Lib.Sweeps
import Mimi.Mir.Function

namespace Mimi.Mir

open Mimi.Core Mimi.Lib

instance {kind : IdKind} : IsStrictTotalOrder (StableId kind) (· < ·) :=
  isStrictTotalOrder_of_name StableId.val (fun _ _ => Iff.rfl) fun a b same => by
    obtain ⟨a, _⟩ := a
    obtain ⟨b, _⟩ := b
    obtain rfl : a = b := same
    rfl

namespace MirFunction

variable (self : MirFunction)

/-- The successors of a block that exist; the last one comes on top of the stack. -/
def pending_successors (block_id : MirBlockId) : List MirBlockId :=
  match self.blocks.find? block_id with
  | none => []
  | some block => (block.terminator.successors.filter self.blocks.contains).reverse

def reachable_blocks (fuel : Nat) : Option (SortedSet MirBlockId) :=
  StackSearch.search self.pending_successors fuel [self.entry] .empty

/-- Note a block as a predecessor of a successor, if that is among the keys. -/
def add_predecessor (block_id : MirBlockId) (predecessors : SortedMap MirBlockId (SortedSet MirBlockId))
    (successor : MirBlockId) : SortedMap MirBlockId (SortedSet MirBlockId) :=
  match predecessors.find? successor with
  | none => predecessors
  | some preds => predecessors.insert successor (preds.insert block_id)

/-- Note a block that can be reached as a predecessor of its successors. -/
def add_predecessors (reachable : SortedSet MirBlockId)
    (predecessors : SortedMap MirBlockId (SortedSet MirBlockId)) (block_id : MirBlockId) :
    SortedMap MirBlockId (SortedSet MirBlockId) :=
  match self.blocks.find? block_id with
  | none => predecessors
  | some block =>
      if block_id ∉ reachable then predecessors
      else block.terminator.successors.foldl (add_predecessor block_id) predecessors

def predecessors (reachable : SortedSet MirBlockId) : SortedMap MirBlockId (SortedSet MirBlockId) :=
  self.blocks.keys.foldl (self.add_predecessors reachable)
    (reachable.elems.foldl (fun map block => map.insert block .empty) .empty)

/-- The sets before the first sweep: the entry is dominated by itself, and the others by all blocks. -/
def initial_dominators (reachable : SortedSet MirBlockId) : SortedMap MirBlockId (SortedSet MirBlockId) :=
  reachable.elems.foldl (fun map block =>
    map.insert block (if block = self.entry then ⟨[block]⟩ else reachable)) .empty

/-- What dominates all predecessors, and the block itself. -/
def next_dominators (reachable : SortedSet MirBlockId) (dominators : SortedMap MirBlockId (SortedSet MirBlockId))
    (preds : SortedSet MirBlockId) (block : MirBlockId) : SortedSet MirBlockId :=
  (preds.elems.foldl (fun next predecessor =>
    match dominators.find? predecessor with
    | none => next
    | some pred_dominators => next.filter (· ∈ pred_dominators)) reachable).insert block

/-- The update of a sweep at a block; no result when nothing changes. -/
def update_dominators (reachable : SortedSet MirBlockId) (predecessors : SortedMap MirBlockId (SortedSet MirBlockId))
    (block : MirBlockId) (dominators : SortedMap MirBlockId (SortedSet MirBlockId)) :
    Option (SortedMap MirBlockId (SortedSet MirBlockId)) :=
  match predecessors.find? block with
  | none => none
  | some preds =>
      if preds.elems = [] then none
      else
        let next := next_dominators reachable dominators preds block
        if dominators.find? block ≠ some next then some (dominators.insert block next) else none

/-- The sets of dominators when nothing changes any more. -/
def dominators (fuel : Nat) (reachable : SortedSet MirBlockId) :
    Option (SortedMap MirBlockId (SortedSet MirBlockId)) :=
  sweeps (update_dominators reachable (self.predecessors reachable)) fuel
    (reachable.elems.filter (· ≠ self.entry)) (self.initial_dominators reachable)

end MirFunction

end Mimi.Mir
