/-
Module: Mimi.Cfg.Graph
Purpose: Control-flow graphs of callables and their validation.  The adjacency indexes of the source
  are built once from the edge table; here they are read off that table.
Trusted boundary: human-reviewed translation of `src/core/cfg/mod.rs` and `src/core/cfg/validate.rs`
-/
import Mimi.Core.Ownership
import Mimi.Lib.SortedMap

namespace Mimi.Cfg

open Mimi.Core Mimi.Lib

structure CfgSource where
  node : NodeId
  span : Span
  origin : Origin
deriving DecidableEq, Repr

/-- A program point of a block. -/
structure CfgPoint where
  source : CfgSource
  /-- Root binding names used by backwards liveness. -/
  uses : List String
  /-- Root binding names defined by this point. -/
  defs : List String
  /-- Canonical typed places read at this point. -/
  readPlaces : List Place
  /-- Canonical typed places written at this point. -/
  writePlaces : List Place
deriving DecidableEq, Repr

inductive EdgeKind where
  | fallthrough
  | then_
  | else_
  | matchArm
  | loopBody
  | loopExit
  | backedge
  | break_
  | continue_
deriving DecidableEq, Repr

/-- Back edges and the edges of `continue` lead from a loop body to its header. -/
def EdgeKind.loopCarried : EdgeKind → Bool
  | backedge | continue_ => true
  | _ => false

structure CfgEdge where
  id : EdgeId
  from_ : BasicBlockId
  to_ : BasicBlockId
  kind : EdgeKind
  source : CfgSource
deriving DecidableEq, Repr

inductive Terminator where
  | goto (edge : EdgeId)
  | branch (condition : NodeId) (thenEdge elseEdge : EdgeId)
  | match_ (scrutinee : NodeId) (arms : List EdgeId)
  | return_ (value : Option NodeId) (implicit : Bool)
  | break_ (edge : EdgeId)
  | continue_ (edge : EdgeId)
  | diverge
  | unreachable
deriving DecidableEq, Repr

def Terminator.outgoingEdges : Terminator → List EdgeId
  | goto edge | break_ edge | continue_ edge => [edge]
  | branch _ thenEdge elseEdge => [thenEdge, elseEdge]
  | match_ _ arms => arms
  | return_ _ _ | diverge | unreachable => []

def Terminator.isReturn : Terminator → Bool
  | return_ _ _ => true
  | _ => false

structure BasicBlock where
  id : BasicBlockId
  source : CfgSource
  points : List CfgPoint
  terminator : Terminator
deriving DecidableEq, Repr

structure CallableCfg where
  owner : NodeId
  entry : BasicBlockId
  blocks : SortedMap BasicBlockId BasicBlock
  edges : SortedMap EdgeId CfgEdge
  reachable : SortedSet BasicBlockId
deriving DecidableEq, Repr

namespace CallableCfg

def block (cfg : CallableCfg) (id : BasicBlockId) : Option BasicBlock := cfg.blocks.find? id

def edge (cfg : CallableCfg) (id : EdgeId) : Option CfgEdge := cfg.edges.find? id

/-- The edges to a block, by their ids; `predecessor_index` of a lowered graph has them by the blocks that they
come from (`WellFormed.predecessors`). -/
def predecessors (cfg : CallableCfg) (block : BasicBlockId) : List CfgEdge :=
  cfg.edges.values.filter fun edge => edge.to_ = block

def successors (cfg : CallableCfg) (block : BasicBlockId) : List CfgEdge :=
  cfg.edges.values.filter fun edge => edge.from_ = block

end CallableCfg

/-- The blocks a queue leads to, breadth first. -/
def searchBlocks (cfg : CallableCfg) :
    Nat → List BasicBlockId → SortedSet BasicBlockId → Option (SortedSet BasicBlockId)
  | 0, _, _ => none
  | _ + 1, [], visited => some visited
  | fuel + 1, block :: queue, visited =>
      if block ∈ visited then searchBlocks cfg fuel queue visited
      else
        searchBlocks cfg fuel (queue ++ (cfg.successors block).map CfgEdge.to_)
          (visited.insert block)

/-- The blocks that can be reached from a block, itself included. -/
def reachableFrom (fuel : Nat) (cfg : CallableCfg) (start : BasicBlockId) :
    Option (SortedSet BasicBlockId) := searchBlocks cfg fuel [start] .empty

/-! ### Validation -/

def validateSource (owner : NodeId) (role : String) (source : CfgSource) : List Diagnostic :=
  (if isBlank source.node.val then
    [.error ("CFG " ++ role ++ " for '" ++ owner.val ++ "' has an empty source NodeId") source.span]
  else []) ++
  if source.span ≠ source.origin.userSpan then
    [.error ("CFG " ++ role ++ " source '" ++ source.node.val
      ++ "' disagrees with its owned Origin span") source.span]
  else []

/-- Check the points of a block; `pointNodes` holds the nodes of the points before. -/
def validatePoints (owner : NodeId) : List CfgPoint → SortedSet NodeId →
    List Diagnostic × SortedSet NodeId
  | [], pointNodes => ([], pointNodes)
  | point :: points, pointNodes =>
      let errors := validateSource owner "point" point.source ++
        if point.source.node ∈ pointNodes then
          [.error ("CFG point source '" ++ point.source.node.val
            ++ "' occurs more than once in callable '" ++ owner.val ++ "'") point.source.span]
        else []
      let (rest, pointNodes) := validatePoints owner points (pointNodes.insert point.source.node)
      (errors ++ rest, pointNodes)

def validateBlocks (cfg : CallableCfg) : List (BasicBlockId × BasicBlock) → SortedSet NodeId →
    List Diagnostic × SortedSet NodeId
  | [], pointNodes => ([], pointNodes)
  | (id, block) :: blocks, pointNodes =>
      let declared := SortedSet.empty.insertAll block.terminator.outgoingEdges
      let actual := SortedSet.empty.insertAll ((cfg.successors id).map CfgEdge.id)
      let errors := validateSource cfg.owner "block" block.source ++
        (if id ≠ block.id then
          [.error ("CFG block key does not match block id '" ++ id.node.val ++ "': owner "
            ++ cfg.owner.val) block.source.span]
        else []) ++
        if declared ≠ actual then
          [.error ("CFG block '" ++ id.node.val ++ "' terminator edges do not match edge table")
            block.source.span]
        else []
      let (points, pointNodes) := validatePoints cfg.owner block.points pointNodes
      let (rest, pointNodes) := validateBlocks cfg blocks pointNodes
      (errors ++ points ++ rest, pointNodes)

/-- The node a terminator refers to, with its role. -/
def terminatorNode : Terminator → Option (NodeId × String)
  | .branch condition _ _ => some (condition, "branch condition")
  | .match_ scrutinee _ => some (scrutinee, "match scrutinee")
  | .return_ (some value) _ => some (value, "return value")
  | _ => none

def validateEdge (cfg : CallableCfg) (id : EdgeId) (edge : CfgEdge) : List Diagnostic :=
  validateSource cfg.owner "edge" edge.source ++
  (if id ≠ edge.id then
    [.error ("CFG edge key does not match edge id '" ++ id.node.val ++ "'") edge.source.span]
  else []) ++
  if ¬ cfg.blocks.contains edge.from_ ∨ ¬ cfg.blocks.contains edge.to_ then
    [.error ("CFG edge '" ++ edge.id.node.val ++ "' references a missing block") edge.source.span]
  else []

def validateTerminatorNode (pointNodes : SortedSet NodeId) (block : BasicBlock) : List Diagnostic :=
  match terminatorNode block.terminator with
  | none => []
  | some (node, role) =>
      if node ∈ pointNodes then []
      else
        [.error ("CFG " ++ role ++ " '" ++ node.val ++ "' does not reference a callable point")
          block.source.span]

def validateCfg (fuel : Nat) (cfg : CallableCfg) : Option (Except (List Diagnostic) Unit) := do
  let owner : List Diagnostic :=
    if isBlank cfg.owner.val then [.error "CFG callable owner is empty" .unknown] else []
  let entry : List Diagnostic :=
    if cfg.blocks.contains cfg.entry then []
    else [.error ("CFG owner '" ++ cfg.owner.val ++ "' has no entry block") .unknown]
  let (blocks, pointNodes) := validateBlocks cfg cfg.blocks.entries .empty
  let edges := cfg.edges.entries.flatMap fun (id, edge) => validateEdge cfg id edge
  let terminators := cfg.blocks.values.flatMap (validateTerminatorNode pointNodes)
  let reachable ← reachableFrom fuel cfg cfg.entry
  let stale : List Diagnostic :=
    if reachable ≠ cfg.reachable then
      [.error ("CFG owner '" ++ cfg.owner.val ++ "' has a stale reachable-block catalog")
        (((cfg.block cfg.entry).map fun block => block.source.span).getD .unknown)]
    else []
  match owner ++ entry ++ blocks ++ edges ++ terminators ++ stale with
  | [] => some (.ok ())
  | errors => some (.error errors)

/-! ### What validation gives -/

/-- The search visits its queue and everything an edge leads to from what it visits. -/
theorem searchBlocks_closed {cfg : CallableCfg} {fuel : Nat} {queue : List BasicBlockId}
    {visited found : SortedSet BasicBlockId}
    (closed : ∀ edge ∈ cfg.edges.values, edge.from_ ∈ visited →
      edge.to_ ∈ visited ∨ edge.to_ ∈ queue)
    (result : searchBlocks cfg fuel queue visited = some found) :
    (∀ block, block ∈ visited ∨ block ∈ queue → block ∈ found) ∧
      ∀ edge ∈ cfg.edges.values, edge.from_ ∈ found → edge.to_ ∈ found := by
  induction fuel generalizing queue visited with
  | zero => simp [searchBlocks] at result
  | succ fuel ih =>
      cases queue with
      | nil =>
          obtain rfl : visited = found := by simpa [searchBlocks] using result
          exact ⟨by simp, fun edge h inside => by simpa using closed edge h inside⟩
      | cons block queue =>
          rw [searchBlocks] at result
          split_ifs at result with seen
          · have closed' (edge : CfgEdge) (h : edge ∈ cfg.edges.values)
                (inside : edge.from_ ∈ visited) : edge.to_ ∈ visited ∨ edge.to_ ∈ queue := by
              rcases closed edge h inside with h | h
              · exact .inl h
              · rcases List.mem_cons.mp h with same | h
                · exact .inl (same ▸ seen)
                · exact .inr h
            obtain ⟨covers, next⟩ := ih closed' result
            refine ⟨fun b hb => covers b ?_, next⟩
            rcases hb with hb | hb
            · exact .inl hb
            · rcases List.mem_cons.mp hb with rfl | hb
              · exact .inl seen
              · exact .inr hb
          · have closed' (edge : CfgEdge) (h : edge ∈ cfg.edges.values)
                (inside : edge.from_ ∈ visited.insert block) : edge.to_ ∈ visited.insert block ∨
                  edge.to_ ∈ queue ++ (cfg.successors block).map CfgEdge.to_ := by
              rcases SortedSet.mem_insert.mp inside with same | inside
              · refine .inr (List.mem_append_right _ (List.mem_map.mpr ⟨edge, ?_, rfl⟩))
                exact List.mem_filter.mpr ⟨h, by simpa using same⟩
              · rcases closed edge h inside with h | h
                · exact .inl (SortedSet.mem_insert.mpr (.inr h))
                · rcases List.mem_cons.mp h with same | h
                  · exact .inl (SortedSet.mem_insert.mpr (.inl same))
                  · exact .inr (List.mem_append_left _ h)
            obtain ⟨covers, next⟩ := ih closed' result
            refine ⟨fun b hb => covers b ?_, next⟩
            rcases hb with hb | hb
            · exact .inl (SortedSet.mem_insert.mpr (.inr hb))
            · rcases List.mem_cons.mp hb with rfl | hb
              · exact .inl (SortedSet.mem_insert.mpr (.inl rfl))
              · exact .inr (List.mem_append_left _ hb)

/-- The reachable blocks of a start contain it and are closed under edges. -/
theorem reachableFrom_closed {cfg : CallableCfg} {fuel : Nat} {start : BasicBlockId}
    {found : SortedSet BasicBlockId} (result : reachableFrom fuel cfg start = some found) :
    start ∈ found ∧ ∀ edge ∈ cfg.edges.values, edge.from_ ∈ found → edge.to_ ∈ found := by
  obtain ⟨covers, closed⟩ := searchBlocks_closed (by simp) result
  exact ⟨covers start (.inr (List.mem_singleton.mpr rfl)), closed⟩

theorem validateCfg_ok {fuel : Nat} {cfg : CallableCfg} (valid : validateCfg fuel cfg = some (.ok ())) :
    cfg.entry ∈ cfg.reachable ∧
      ∀ edge ∈ cfg.edges.values, edge.from_ ∈ cfg.reachable → edge.to_ ∈ cfg.reachable := by
  simp only [validateCfg, Option.bind_eq_bind, Option.bind_eq_some_iff] at valid
  obtain ⟨reachable, search, checked⟩ := valid
  split at checked
  · rename_i none_
    have fresh : reachable = cfg.reachable := by
      by_contra stale
      simp [stale] at none_
    exact fresh ▸ reachableFrom_closed search
  · simp at checked

end Mimi.Cfg
