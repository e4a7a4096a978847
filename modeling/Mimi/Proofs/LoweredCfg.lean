/-
Module: Mimi.Proofs.LoweredCfg
Purpose: The graphs that lowering gives out are well formed.
Trusted boundary: none
-/
import Mimi.Cfg.Lower
import Mimi.Lib.Commands

namespace Mimi.Cfg

open Mimi.Core Mimi.Lib

/-! ### What lowering does to the graph under construction -/

/-- One update: a block is written, an edge is written, or both tables stay as they are. -/
inductive Update (s : Lowerer) : Lowerer → Prop where
  | blocks (id : BasicBlockId) (draft : DraftBlock) :
      Update s { s with blocks := s.blocks.insert id draft }
  | edges (id : EdgeId) (edge : CfgEdge) : Update s { s with edges := s.edges.insert id edge }
  | rest (loops : List LoopContext) (orphanRoots : SortedSet BasicBlockId)
      (errors : List Diagnostic) : Update s ⟨s.blocks, s.edges, loops, orphanRoots, errors⟩

theorem report_leads (message : String) (span : Span) : Leads Update (report message span) :=
  leads_modify fun s => .rest s.loops s.orphanRoots _

theorem addBlock_leads (block : DraftBlock) : Leads Update (addBlock block) :=
  leads_modify fun _ => .blocks block.id block

theorem newBlock_leads (node : NodeId) (origin : Origin) (role : String) :
    Leads Update (newBlock node origin role) := by
  refine leads_bind leads_get fun s => ?_
  dsimp only
  split_ifs
  · exact leads_bind (report_leads _ _) fun _ => leads_bind (addBlock_leads _) fun _ => leads_pure _
  · exact leads_bind (addBlock_leads _) fun _ => leads_pure _

theorem point_leads (block : BasicBlockId) (node : NodeId) (origin : Origin)
    (accesses : PointAccesses) : Leads Update (point block node origin accesses) := by
  refine leads_bind leads_get fun s => ?_
  cases s.blocks.find? block with
  | none => exact report_leads _ _
  | some draft => exact leads_modify fun _ => .blocks block _

theorem edge_leads (source target : BasicBlockId) (kind : EdgeKind) (node : NodeId)
    (origin : Origin) (role : String) : Leads Update (edge source target kind node origin role) := by
  have write (id : EdgeId) (edge : CfgEdge) : Leads Update (do
      modify fun lowerer : Lowerer => { lowerer with edges := lowerer.edges.insert id edge }
      return id : Draft EdgeId) :=
    leads_bind (leads_modify fun _ => .edges id edge) fun _ => leads_pure _
  refine leads_bind leads_get fun s => ?_
  dsimp only
  split_ifs
  · exact leads_bind (report_leads _ _) fun _ => write _ _
  · exact write _ _

variable (body : ResolvedBody)

theorem terminate_leads (block : BasicBlockId) (terminator : Terminator) :
    Leads Update (terminate body block terminator) := by
  refine leads_bind leads_get fun s => ?_
  cases s.blocks.find? block with
  | none => exact report_leads _ _
  | some draft =>
      refine leads_bind (leads_modify fun _ => .blocks block _) fun _ => ?_
      split_ifs
      · exact report_leads _ _
      · exact leads_pure _

theorem goto_leads (source target : BasicBlockId) (kind : EdgeKind) (node : NodeId)
    (origin : Origin) (role : String) :
    Leads Update (goto body source target kind node origin role) :=
  leads_bind (edge_leads _ _ _ _ _ _) fun _ => terminate_leads body _ _

theorem ensureCurrent_leads (current : Option BasicBlockId) (node : NodeId) (origin : Origin) :
    Leads Update (ensureCurrent current node origin) := by
  cases current with
  | some block => exact leads_pure _
  | none =>
      refine leads_bind (newBlock_leads _ _ _) fun block => ?_
      exact leads_bind (leads_modify fun s => .rest s.loops _ s.errors) fun _ => leads_pure _

theorem pushLoop_leads (breakTarget continueTarget : BasicBlockId) :
    Leads Update (pushLoop breakTarget continueTarget) :=
  leads_modify fun s => .rest _ s.orphanRoots s.errors

theorem popLoop_leads : Leads Update popLoop :=
  leads_bind leads_get fun _ =>
    leads_bind (leads_modify fun s => .rest _ s.orphanRoots s.errors) fun _ => leads_pure _

theorem markBreak_leads : Leads Update markBreak :=
  leads_modify fun s => .rest _ s.orphanRoots s.errors

/-! ### Runs of lowering -/

/-- The functions that lowering starts over from only update the graph. -/
structure Updates (sub : Lowerings) : Prop where
  block : ∀ block current, Proceeds Update (sub.block block current)
  expr : ∀ expression current, Proceeds Update (sub.expr expression current)

section Constructs

variable {sub : Lowerings} (updates : Updates sub)

theorem attempt_proceeds {α : Type} {command : Lower α} (proceeds : Proceeds Update command) :
    Proceeds Update (attempt command) := proceeds_lift proceeds

include updates

theorem lowerOptional_proceeds (expression : Option ResolvedExpr) (current : BasicBlockId) :
    Proceeds Update (lowerOptional sub expression current) := by
  cases expression with
  | none => exact proceeds_pure _
  | some expression => exact updates.expr expression current

theorem lowerAll_proceeds (expressions : List ResolvedExpr) (current : BasicBlockId) :
    Proceeds Update (lowerAll sub expressions current) :=
  proceeds_foldlM (fun current expression => updates.expr expression current) _ _

theorem lowerPlaceInputs_proceeds (place : ResolvedPlace) (current : BasicBlockId) :
    Proceeds Update (lowerPlaceInputs body sub place current) := by
  refine proceeds_foldlM (fun current projection => ?_) _ _
  cases projection with
  | field field name => exact proceeds_pure _
  | tuple index => exact proceeds_pure _
  | deref => exact proceeds_pure _
  | index index =>
      cases index with
      | constant index => exact proceeds_pure _
      | dynamic node =>
          dsimp only
          cases body.placeInputs.find? node with
          | some input => exact updates.expr input current
          | none => exact proceeds_bind (proceeds_lift (report_leads _ _)) fun _ => proceeds_failure

theorem lowerBorrowPlaceInputs_proceeds (expression : ResolvedExpr) (current : BasicBlockId) :
    Proceeds Update (lowerBorrowPlaceInputs body sub expression current) := by
  induction expression, current using lowerBorrowPlaceInputs.induct with
  | case1 node origin place current => exact lowerPlaceInputs_proceeds body updates place current
  | case2 node origin value index current ih =>
      exact proceeds_bind ih fun current => updates.expr index current
  | case3 current expression notLoad notIndex =>
      rw [lowerBorrowPlaceInputs]
      · exact proceeds_failure
      · exact notLoad
      · exact notIndex

omit updates in
theorem gotoFrom_leads (end_ : Option BasicBlockId) (join : BasicBlockId) (node : NodeId)
    (origin : Origin) (role : String) :
    Leads Update (lowerIf.gotoFrom body end_ join node origin role) := by
  cases end_ with
  | none => exact leads_pure _
  | some end_ => exact goto_leads body _ _ _ _ _ _

omit updates in
theorem bindPattern_leads (block : BasicBlockId) (pattern : Option ResolvedPattern) :
    Leads Update (bindPattern body block pattern) := by
  cases pattern with
  | none => exact leads_pure _
  | some pattern => exact point_leads _ _ _ _

theorem lowerIf_proceeds (expression condition : ResolvedExpr) (thenBlock elseBlock : ResolvedBlock)
    (current : BasicBlockId) :
    Proceeds Update (lowerIf body sub expression condition thenBlock elseBlock current) := by
  refine proceeds_bind (updates.expr condition current) fun conditionEnd => ?_
  refine proceeds_bind (proceeds_lift (newBlock_leads _ _ _)) fun thenEntry => ?_
  refine proceeds_bind (proceeds_lift (newBlock_leads _ _ _)) fun elseEntry => ?_
  refine proceeds_bind (proceeds_lift (newBlock_leads _ _ _)) fun join => ?_
  refine proceeds_bind (proceeds_lift (edge_leads _ _ _ _ _ _)) fun thenEdge => ?_
  refine proceeds_bind (proceeds_lift (edge_leads _ _ _ _ _ _)) fun elseEdge => ?_
  refine proceeds_bind (proceeds_lift (terminate_leads body _ _)) fun _ => ?_
  refine proceeds_bind (attempt_proceeds (updates.block _ _)) fun thenEnd => ?_
  refine proceeds_bind (attempt_proceeds (updates.block _ _)) fun elseEnd => ?_
  refine proceeds_bind (proceeds_lift (gotoFrom_leads body _ _ _ _ _)) fun _ => ?_
  refine proceeds_bind (proceeds_lift (gotoFrom_leads body _ _ _ _ _)) fun _ => ?_
  split_ifs
  · exact proceeds_failure
  · exact proceeds_bind (proceeds_lift (point_leads _ _ _ _)) fun _ => proceeds_pure _

theorem lowerArm_proceeds (dispatch join : BasicBlockId) (arm : MatchArm) :
    Proceeds Update (lowerArm body sub dispatch join arm) := by
  refine proceeds_bind (proceeds_lift (newBlock_leads _ _ _)) fun armEntry => ?_
  refine proceeds_bind (proceeds_lift (edge_leads _ _ _ _ _ _)) fun edge => ?_
  refine proceeds_bind (proceeds_lift (point_leads _ _ _ _)) fun _ => ?_
  have inside : Proceeds Update (do
      let block ← lowerOptional sub arm.guard armEntry
      sub.expr arm.body block) :=
    proceeds_bind (lowerOptional_proceeds updates _ _) fun block => updates.expr _ _
  refine proceeds_bind (attempt_proceeds inside) fun armEnd => ?_
  cases armEnd with
  | none => exact proceeds_pure _
  | some end_ =>
      exact proceeds_bind (proceeds_lift (goto_leads body _ _ _ _ _ _)) fun _ => proceeds_pure _

theorem lowerMatch_proceeds (expression scrutinee : ResolvedExpr) (arms : List MatchArm)
    (current : BasicBlockId) :
    Proceeds Update (lowerMatch body sub expression scrutinee arms current) := by
  refine proceeds_bind (updates.expr scrutinee current) fun dispatch => ?_
  refine proceeds_bind (proceeds_lift (newBlock_leads _ _ _)) fun join => ?_
  refine proceeds_bind
    (proceeds_mapM (fun arm => lowerArm_proceeds body updates dispatch join arm) arms)
    fun lowered => ?_
  split_ifs
  · exact proceeds_bind (proceeds_lift (terminate_leads body _ _)) fun _ => proceeds_failure
  · refine proceeds_bind (proceeds_lift (terminate_leads body _ _)) fun _ => ?_
    exact proceeds_bind (proceeds_lift (point_leads _ _ _ _)) fun _ => proceeds_pure _
  · exact proceeds_bind (proceeds_lift (terminate_leads body _ _)) fun _ => proceeds_failure

theorem lowerTry_proceeds (expression value : ResolvedExpr) (current : BasicBlockId) :
    Proceeds Update (lowerTry body sub expression value current) := by
  refine proceeds_bind (updates.expr value current) fun valueEnd => ?_
  refine proceeds_bind (proceeds_lift (point_leads _ _ _ _)) fun _ => ?_
  refine proceeds_bind (proceeds_lift (newBlock_leads _ _ _)) fun okBlock => ?_
  refine proceeds_bind (proceeds_lift (newBlock_leads _ _ _)) fun errBlock => ?_
  refine proceeds_bind (proceeds_lift (edge_leads _ _ _ _ _ _)) fun okEdge => ?_
  refine proceeds_bind (proceeds_lift (edge_leads _ _ _ _ _ _)) fun errEdge => ?_
  refine proceeds_bind (proceeds_lift (terminate_leads body _ _)) fun _ => ?_
  exact proceeds_bind (proceeds_lift (terminate_leads body _ _)) fun _ => proceeds_pure _

theorem lowerHeader_proceeds (condition : ResolvedExpr) (header : BasicBlockId)
    (hoistInitializer : Bool) :
    Proceeds Update (lowerHeader sub condition header hoistInitializer) := by
  cases hoistInitializer with
  | true => exact proceeds_bind (proceeds_lift (point_leads _ _ _ _)) fun _ => proceeds_pure _
  | false => exact proceeds_bind (updates.expr _ _) fun _ => proceeds_pure _

theorem hoist_proceeds (condition : ResolvedExpr) (statement : ResolvedStmt)
    (hoistInitializer : Bool) (current : BasicBlockId) :
    Proceeds Update (hoist sub condition statement hoistInitializer current) := by
  cases hoistInitializer with
  | true =>
      refine proceeds_bind (updates.expr _ _) fun _ => ?_
      exact proceeds_bind (proceeds_lift (point_leads _ _ _ _)) fun _ => proceeds_pure _
  | false => exact proceeds_pure _

theorem lowerConditionalLoop_proceeds (condition : ResolvedExpr) (loopBody : ResolvedBlock)
    (pattern : Option ResolvedPattern) (current : BasicBlockId) (statement : ResolvedStmt)
    (role : String) (hoistInitializer : Bool) :
    Proceeds Update (lowerConditionalLoop body sub condition loopBody pattern current statement role
      hoistInitializer) := by
  refine proceeds_bind (hoist_proceeds updates _ _ _ _) fun current => ?_
  refine proceeds_bind (proceeds_lift (newBlock_leads _ _ _)) fun header => ?_
  refine proceeds_bind (proceeds_lift (newBlock_leads _ _ _)) fun bodyEntry => ?_
  refine proceeds_bind (proceeds_lift (newBlock_leads _ _ _)) fun exit => ?_
  refine proceeds_bind (proceeds_lift (goto_leads body _ _ _ _ _ _)) fun _ => ?_
  refine proceeds_bind (lowerHeader_proceeds updates _ _ _) fun decides => ?_
  refine proceeds_bind (proceeds_lift (edge_leads _ _ _ _ _ _)) fun bodyEdge => ?_
  refine proceeds_bind (proceeds_lift (edge_leads _ _ _ _ _ _)) fun exitEdge => ?_
  refine proceeds_bind (proceeds_lift (terminate_leads body _ _)) fun _ => ?_
  refine proceeds_bind (proceeds_lift (bindPattern_leads body _ _)) fun _ => ?_
  refine proceeds_bind (proceeds_lift (pushLoop_leads _ _)) fun _ => ?_
  refine proceeds_bind (attempt_proceeds (updates.block _ _)) fun bodyEnd => ?_
  refine proceeds_bind (proceeds_lift popLoop_leads) fun _ => ?_
  cases bodyEnd with
  | none => exact proceeds_pure _
  | some end_ =>
      exact proceeds_bind (proceeds_lift (goto_leads body _ _ _ _ _ _)) fun _ => proceeds_pure _

theorem lowerConditionalIf_proceeds (initializer : ResolvedExpr) (pattern : Option ResolvedPattern)
    (thenBlock : ResolvedBlock) (elseBlock : Option ResolvedBlock) (current : BasicBlockId)
    (statement : ResolvedStmt) :
    Proceeds Update (lowerConditionalIf body sub initializer pattern thenBlock elseBlock current
      statement) := by
  refine proceeds_bind (proceeds_lift (newBlock_leads _ _ _)) fun thenEntry => ?_
  refine proceeds_bind (proceeds_lift (newBlock_leads _ _ _)) fun elseEntry => ?_
  refine proceeds_bind (proceeds_lift (newBlock_leads _ _ _)) fun join => ?_
  refine proceeds_bind (updates.expr _ _) fun conditionEnd => ?_
  refine proceeds_bind (proceeds_lift (edge_leads _ _ _ _ _ _)) fun thenEdge => ?_
  refine proceeds_bind (proceeds_lift (edge_leads _ _ _ _ _ _)) fun elseEdge => ?_
  refine proceeds_bind (proceeds_lift (terminate_leads body _ _)) fun _ => ?_
  refine proceeds_bind (proceeds_lift (bindPattern_leads body _ _)) fun _ => ?_
  refine proceeds_bind (attempt_proceeds (updates.block _ _)) fun thenEnd => ?_
  refine proceeds_bind (proceeds_lift (gotoFrom_leads body _ _ _ _ _)) fun _ => ?_
  have joins (elseEnd : Option BasicBlockId) : Proceeds Update (do
      lowerIf.gotoFrom body elseEnd join statement.nodeId statement.origin "iflet-join-else"
      if thenEnd.isNone && elseEnd.isNone then failure else return join : Lower BasicBlockId) := by
    refine proceeds_bind (proceeds_lift (gotoFrom_leads body _ _ _ _ _)) fun _ => ?_
    split_ifs
    · exact proceeds_failure
    · exact proceeds_pure _
  cases elseBlock with
  | some elseBlock => exact proceeds_bind (attempt_proceeds (updates.block _ _)) joins
  | none => exact proceeds_bind (proceeds_pure _) joins

theorem lowerInfiniteLoop_proceeds (loopBody : ResolvedBlock) (current : BasicBlockId)
    (statement : ResolvedStmt) :
    Proceeds Update (lowerInfiniteLoop body sub loopBody current statement) := by
  refine proceeds_bind (proceeds_lift (newBlock_leads _ _ _)) fun header => ?_
  refine proceeds_bind (proceeds_lift (newBlock_leads _ _ _)) fun exit => ?_
  refine proceeds_bind (proceeds_lift (goto_leads body _ _ _ _ _ _)) fun _ => ?_
  refine proceeds_bind (proceeds_lift (pushLoop_leads _ _)) fun _ => ?_
  refine proceeds_bind (attempt_proceeds (updates.block _ _)) fun bodyEnd => ?_
  refine proceeds_bind (proceeds_lift popLoop_leads) fun breakSeen => ?_
  have leaves : Proceeds Update (if breakSeen then return exit else failure : Lower BasicBlockId) := by
    split_ifs
    · exact proceeds_pure _
    · exact proceeds_failure
  cases bodyEnd with
  | none => exact leaves
  | some end_ =>
      refine proceeds_bind (proceeds_lift (goto_leads body _ _ _ _ _ _)) fun _ => ?_
      exact leaves

omit updates in
theorem lowerJump_leads (current : BasicBlockId) (statement : ResolvedStmt)
    (target : LoopContext → BasicBlockId) (kind : EdgeKind) (role : String)
    (leave : EdgeId → Terminator) :
    Leads Update (lowerJump body current statement target kind role leave) := by
  refine leads_bind leads_get fun s => ?_
  cases s.loops.head? with
  | none => exact terminate_leads body _ _
  | some loop => exact leads_bind (edge_leads _ _ _ _ _ _) fun _ => terminate_leads body _ _

theorem lowerStmt_proceeds (statement : ResolvedStmt) (current : BasicBlockId) :
    Proceeds Update (lowerStmt body sub statement current) := by
  obtain ⟨node, origin, kind⟩ := statement
  cases kind with
  | bind pattern initializer =>
      refine proceeds_bind (lowerOptional_proceeds updates _ _) fun _ => ?_
      exact proceeds_bind (proceeds_lift (point_leads _ _ _ _)) fun _ => proceeds_pure _
  | assign target value =>
      refine proceeds_bind (updates.expr _ _) fun _ => ?_
      refine proceeds_bind (lowerPlaceInputs_proceeds body updates _ _) fun _ => ?_
      exact proceeds_bind (proceeds_lift (point_leads _ _ _ _)) fun _ => proceeds_pure _
  | return_ value =>
      refine proceeds_bind (lowerOptional_proceeds updates _ _) fun _ => ?_
      refine proceeds_bind (proceeds_lift (point_leads _ _ _ _)) fun _ => ?_
      exact proceeds_bind (proceeds_lift (terminate_leads body _ _)) fun _ => proceeds_failure
  | break_ value =>
      refine proceeds_bind (lowerOptional_proceeds updates _ _) fun _ => ?_
      refine proceeds_bind (proceeds_lift (point_leads _ _ _ _)) fun _ => ?_
      refine proceeds_bind (proceeds_lift markBreak_leads) fun _ => ?_
      exact proceeds_bind (proceeds_lift (lowerJump_leads body _ _ _ _ _ _)) fun _ =>
        proceeds_failure
  | continue_ =>
      refine proceeds_bind (proceeds_lift (point_leads _ _ _ _)) fun _ => ?_
      exact proceeds_bind (proceeds_lift (lowerJump_leads body _ _ _ _ _ _)) fun _ =>
        proceeds_failure
  | expr expression =>
      refine proceeds_bind (updates.expr _ _) fun _ => ?_
      exact proceeds_bind (proceeds_lift (point_leads _ _ _ _)) fun _ => proceeds_pure _
  | while_ condition loopBody =>
      exact lowerConditionalLoop_proceeds body updates _ _ _ _ _ _ _
  | whileLet pattern initializer loopBody =>
      exact lowerConditionalLoop_proceeds body updates _ _ _ _ _ _ _
  | ifLet pattern initializer thenBlock elseBlock =>
      exact lowerConditionalIf_proceeds body updates _ _ _ _ _ _
  | loop loopBody => exact lowerInfiniteLoop_proceeds body updates _ _ _
  | for_ pattern iterable loopBody =>
      exact lowerConditionalLoop_proceeds body updates _ _ _ _ _ _ _
  | drop places =>
      refine proceeds_bind (proceeds_foldlM (fun current place =>
        lowerPlaceInputs_proceeds body updates place current) _ _) fun _ => ?_
      exact proceeds_bind (proceeds_lift (point_leads _ _ _ _)) fun _ => proceeds_pure _
  | contract condition => exact updates.expr _ _
  | math expressions =>
      refine proceeds_bind (proceeds_foldlM (fun current expression => ?_) _ _) fun current => ?_
      · refine proceeds_bind (proceeds_lift (ensureCurrent_leads _ _ _)) fun block => ?_
        exact attempt_proceeds (updates.expr _ _)
      · exact leads_pure _
  | scope inner => exact updates.block _ _
  | pinned value binding inner =>
      refine proceeds_bind (updates.expr _ _) fun current => ?_
      cases binding with
      | none => exact updates.block _ _
      | some binding =>
          exact proceeds_bind (proceeds_lift (point_leads _ _ _ _)) fun _ => updates.block _ _
  | nestedCallable node =>
      exact proceeds_bind (proceeds_lift (point_leads _ _ _ _)) fun _ => proceeds_pure _

theorem lowerBlock_proceeds (block : ResolvedBlock) (current : Option BasicBlockId) :
    Proceeds Update (lowerBlock body sub block current) := by
  refine proceeds_bind (proceeds_foldlM (fun current statement => ?_) _ _) fun current => ?_
  · refine proceeds_bind (proceeds_lift (ensureCurrent_leads _ _ _)) fun blockId => ?_
    exact attempt_proceeds (lowerStmt_proceeds body updates _ _)
  · cases block.result with
    | none => exact leads_pure _
    | some result =>
        refine proceeds_bind (proceeds_lift (ensureCurrent_leads _ _ _)) fun blockId => ?_
        exact updates.expr _ _

theorem lowerExprChildren_proceeds (expression : ResolvedExpr) (current : BasicBlockId) :
    Proceeds Update (lowerExprChildren body sub expression current) := by
  obtain ⟨node, origin, kind⟩ := expression
  cases kind with
  | fstring parts => exact lowerAll_proceeds updates _ _
  | load place => exact lowerPlaceInputs_proceeds body updates _ _
  | project value projection =>
      cases projection with
      | index index => exact lowerAll_proceeds updates _ _
      | field _ | tuple _ | dereference => exact updates.expr _ _
  | unary op operand =>
      rw [lowerExprChildren]
      dsimp only
      split_ifs
      · cases borrowPlace body operand with
        | some place =>
            refine proceeds_bind (lowerBorrowPlaceInputs_proceeds body updates _ _) fun _ => ?_
            exact proceeds_bind (proceeds_lift (point_leads _ _ _ _)) fun _ => proceeds_pure _
        | none => exact updates.expr _ _
      · exact updates.expr _ _
  | typeOf _ | old _ | cast _ | spawn _ | await _ | optionalChain _ _ => exact updates.expr _ _
  | binary _ _ | call _ | tuple _ | list _ | set _ | map _ | comprehension _ _ _ _ | record _ _
  | range _ _ | slice _ _ _ => exact lowerAll_proceeds updates _ _
  | literal _ | constant _ | callable | defaultArgument _ | lambda _ | comptimeValue _ | typeValue
  | block _ | scope _ | comptime _ | if_ _ _ _ | match_ _ _ | try_ _ _ | quote _ =>
      exact proceeds_pure _

theorem lowerExpr_proceeds (expression : ResolvedExpr) (current : BasicBlockId) :
    Proceeds Update (lowerExpr body sub expression current) := by
  have inner (block : ResolvedBlock) : Proceeds Update (do
      let current ← sub.block block (some current)
      point current expression.nodeId expression.origin {}
      return current : Lower BasicBlockId) :=
    proceeds_bind (updates.block _ _) fun _ =>
      proceeds_bind (proceeds_lift (point_leads _ _ _ _)) fun _ => proceeds_pure _
  have operands : Proceeds Update (do
      let current ← lowerExprChildren body sub expression current
      point current expression.nodeId expression.origin (directAccesses body expression)
      return current : Lower BasicBlockId) :=
    proceeds_bind (lowerExprChildren_proceeds body updates _ _) fun _ =>
      proceeds_bind (proceeds_lift (point_leads _ _ _ _)) fun _ => proceeds_pure _
  rw [lowerExpr]
  split
  · exact lowerIf_proceeds body updates _ _ _ _ _
  · exact lowerMatch_proceeds body updates _ _ _ _
  · exact lowerTry_proceeds body updates _ _ _
  · exact inner _
  · exact inner _
  · exact inner _
  · exact inner _
  · exact operands

end Constructs

/-- However deep it nests, lowering only updates the graph. -/
theorem lowerings_update (fuel : Nat) : Updates (lowerings body fuel) := by
  induction fuel with
  | zero => exact ⟨fun _ _ => leads_stuck, fun _ _ => leads_stuck⟩
  | succ fuel ih => exact ⟨lowerBlock_proceeds body ih, lowerExpr_proceeds body ih⟩

theorem terminateOpen_leads (block : BasicBlockId) (terminator : Terminator) :
    Leads Update (terminateOpen body block terminator) := by
  refine leads_bind leads_get fun s => ?_
  cases s.blocks.find? block with
  | none => exact leads_pure _
  | some draft =>
      dsimp only
      split_ifs
      · exact terminate_leads body _ _
      · exact leads_pure _

theorem closeBlocks_leads (current : Option BasicBlockId) :
    Leads Update (closeBlocks body current) := by
  have orphans : Leads Update (do
      let lowerer ← get
      lowerer.orphanRoots.elems.forM fun orphan => terminateOpen body orphan .unreachable
        : Draft Unit) :=
    leads_bind leads_get fun _ => leads_forM (fun _ => terminateOpen_leads body _ _) _
  cases current with
  | none => exact orphans
  | some current => exact leads_bind (terminateOpen_leads body _ _) fun _ => orphans

theorem lowerRoot_leads (fuel : Nat) : Leads Update (lowerRoot body fuel) := by
  refine leads_bind (newBlock_leads _ _ _) fun entry => ?_
  refine leads_bind ((lowerings_update body fuel).block _ _) fun current => ?_
  exact leads_bind (closeBlocks_leads body _) fun _ => leads_pure _

/-! ### The tables of the graph -/

/-- Each identity has one block and one edge at most. -/
structure Tables (s : Lowerer) : Prop where
  blocks : s.blocks.Sorted
  edges : s.edges.Sorted

theorem Update.tables {s s' : Lowerer} (update : Update s s') (tables : Tables s) : Tables s' := by
  cases update with
  | blocks id draft => exact ⟨tables.blocks.insert id draft, tables.edges⟩
  | edges id edge => exact ⟨tables.blocks, tables.edges.insert id edge⟩
  | rest loops orphanRoots errors => exact ⟨tables.blocks, tables.edges⟩

variable {entry : BasicBlockId}

variable {body} in
theorem lowerRoot_tables {fuel : Nat} {s : Lowerer}
    (run : lowerRoot body fuel Lowerer.new = some (entry, s)) : Tables s :=
  (lowerRoot_leads body fuel).keeps (fun _ _ => Update.tables) run
    ⟨SortedMap.sorted_empty, SortedMap.sorted_empty⟩

/-! ### The adjacency indexes -/

section Indexes

variable {edges : SortedMap EdgeId CfgEdge} (keyed : ∀ entry ∈ edges.entries, entry.1 = entry.2.id)

include keyed

/-- The successor index lists the edges that leave a block. -/
theorem listed_successorIndex (block : BasicBlockId) :
    (buildSuccessorIndex edges).listed block =
      (edges.values.filter fun edge => edge.from_ = block).map CfgEdge.id := by
  rw [buildSuccessorIndex, SortedMap.listed_foldl_push, SortedMap.values, List.filter_map,
    List.map_map]
  exact List.map_congr_left fun entry member => keyed entry (List.mem_filter.mp member).1

variable (sorted : edges.Sorted)

include sorted

omit keyed in
/-- The predecessor index lists the edges that lead to a block. -/
theorem listed_predecessorIndex (block : BasicBlockId) :
    ((buildPredecessorIndex edges (buildSuccessorIndex edges)).listed block).Perm
      ((edges.values.filter fun edge => edge.to_ = block).map CfgEdge.id) := by
  rw [buildPredecessorIndex, SortedMap.listed_foldl_push]
  have listed : (buildSuccessorIndex edges).values.flatten.Perm edges.keys := by
    have all := SortedMap.sorted_empty.foldl_push (fun entry : EdgeId × CfgEdge => entry.2.from_)
      Prod.fst edges.entries
    have nothing : (SortedMap.empty : EdgeIndex).values.flatten = [] := rfl
    rwa [nothing, List.append_nil] at all
  have found : ((buildSuccessorIndex edges).values.flatten.filterMap edges.find?).Perm
      edges.values := by
    rw [← sorted.filterMap_find?]
    exact listed.filterMap edges.find?
  exact (found.filter _).map _

end Indexes

/-! ### What validation has checked -/

/-- Control can get from one block to another along an edge. -/
def CallableCfg.Edge (cfg : CallableCfg) (block next : BasicBlockId) : Prop :=
  ∃ edge ∈ cfg.edges.values, edge.from_ = block ∧ edge.to_ = next

variable {cfg : CallableCfg}

/-- The search visits nothing but what its queue leads to. -/
theorem searchBlocks_sound {fuel : Nat} {queue : List BasicBlockId}
    {visited found : SortedSet BasicBlockId} {start : BasicBlockId}
    (led : ∀ block, block ∈ visited ∨ block ∈ queue → Relation.ReflTransGen cfg.Edge start block)
    (result : searchBlocks cfg fuel queue visited = some found) :
    ∀ block ∈ found, Relation.ReflTransGen cfg.Edge start block := by
  induction fuel generalizing queue visited with
  | zero => cases result
  | succ fuel ih =>
      cases queue with
      | nil =>
          obtain rfl := Option.some.inj result
          exact fun block member => led block (.inl member)
      | cons next queue =>
          rw [searchBlocks] at result
          split_ifs at result
          · refine ih (fun block inside => led block ?_) result
            exact inside.imp_right (List.mem_cons_of_mem _)
          · refine ih (fun block inside => ?_) result
            rcases inside with inside | inside
            · rcases SortedSet.mem_insert.mp inside with rfl | inside
              · exact led block (.inr List.mem_cons_self)
              · exact led block (.inl inside)
            · rcases List.mem_append.mp inside with inside | inside
              · exact led block (.inr (List.mem_cons_of_mem _ inside))
              · obtain ⟨edge, leaves, rfl⟩ := List.mem_map.mp inside
                obtain ⟨member, source⟩ := List.mem_filter.mp leaves
                have step : cfg.Edge next edge.to_ :=
                  ⟨edge, member, by simpa using source, rfl⟩
                exact (led next (.inr List.mem_cons_self)).tail step

/-- What the checks of one block say. -/
structure BlockChecked (cfg : CallableCfg) (id : BasicBlockId) (block : BasicBlock) : Prop where
  keyed : id = block.id
  declared : ∀ edge, edge ∈ block.terminator.outgoingEdges ↔
    ∃ e ∈ cfg.edges.values, e.from_ = id ∧ e.id = edge

theorem validateBlocks_checked {blocks : List (BasicBlockId × BasicBlock)}
    {pointNodes : SortedSet NodeId} (none_ : (validateBlocks cfg blocks pointNodes).1 = []) :
    ∀ entry ∈ blocks, BlockChecked cfg entry.1 entry.2 := by
  induction blocks generalizing pointNodes with
  | nil => exact fun entry member => nomatch member
  | cons entry blocks ih =>
      obtain ⟨id, block⟩ := entry
      rw [validateBlocks] at none_
      simp only [List.append_eq_nil_iff, ite_eq_right_iff, reduceCtorEq, imp_false,
        Decidable.not_not] at none_
      obtain ⟨⟨⟨⟨-, keyed⟩, declared⟩, -⟩, rest⟩ := none_
      intro entry member
      rcases List.mem_cons.mp member with rfl | member
      · refine ⟨keyed, fun edge => ?_⟩
        have both : edge ∈ SortedSet.empty.insertAll block.terminator.outgoingEdges ↔
            edge ∈ SortedSet.empty.insertAll ((cfg.successors id).map CfgEdge.id) := by
          rw [declared]
        simpa [CallableCfg.successors, and_assoc] using both
      · exact ih rest entry member

structure Validated (cfg : CallableCfg) : Prop where
  blocks : ∀ entry ∈ cfg.blocks.entries, BlockChecked cfg entry.1 entry.2
  edges : ∀ entry ∈ cfg.edges.entries, entry.1 = entry.2.id ∧
    cfg.blocks.contains entry.2.from_ = true ∧ cfg.blocks.contains entry.2.to_ = true
  reachable : ∀ block, block ∈ cfg.reachable ↔ Relation.ReflTransGen cfg.Edge cfg.entry block

theorem validateCfg_validated {fuel : Nat} (valid : validateCfg fuel cfg = some (.ok ())) : Validated cfg := by
  simp only [validateCfg, Option.bind_eq_bind, Option.bind_eq_some_iff] at valid
  obtain ⟨reachable, search, checked⟩ := valid
  split at checked
  case h_2 => cases checked
  case h_1 none_ =>
    simp only [List.append_eq_nil_iff, List.flatMap_eq_nil_iff] at none_
    obtain ⟨⟨⟨⟨-, blocks⟩, edges⟩, -⟩, stale⟩ := none_
    have fresh : reachable = cfg.reachable := by
      by_contra different
      rw [if_pos different] at stale
      cases stale
    subst fresh
    refine ⟨validateBlocks_checked blocks, fun entry member => ?_, fun block => ⟨fun inside => ?_,
      fun path => ?_⟩⟩
    · have clean := edges entry member
      simp only [validateEdge, List.append_eq_nil_iff, ite_eq_right_iff, reduceCtorEq, imp_false,
        Decidable.not_not, not_or] at clean
      exact ⟨clean.1.2, clean.2⟩
    · refine searchBlocks_sound (fun block queued => ?_) search block inside
      rcases queued with impossible | queued
      · exact absurd impossible (SortedSet.not_mem_empty block)
      · rw [List.mem_singleton.mp queued]
    · obtain ⟨start, closed⟩ := reachableFrom_closed search
      induction path with
      | refl => exact start
      | tail _ step ih =>
          obtain ⟨edge, member, rfl, rfl⟩ := step
          exact closed edge member ih

/-- Validation never fails without an error. -/
theorem validateCfg_error_ne_nil {fuel : Nat} {errors : List Diagnostic}
    (invalid : validateCfg fuel cfg = some (.error errors)) : errors ≠ [] := by
  simp only [validateCfg, Option.bind_eq_bind, Option.bind_eq_some_iff] at invalid
  obtain ⟨reachable, -, checked⟩ := invalid
  split at checked
  case h_1 => cases checked
  case h_2 errors' some_ =>
    obtain rfl := Except.error.inj (Option.some.inj checked)
    exact some_

/-! ### Well-formed graphs -/

/-- A graph as analyses rely on it. -/
structure WellFormed (cfg : LoweredCfg) : Prop where
  /-- Every check of validation holds. -/
  validated : ∃ fuel, validateCfg fuel cfg.toCallableCfg = some (.ok ())
  /-- An identity has one block, so one terminator, and the block carries it. -/
  oneTerminator : cfg.blocks.keys.Nodup ∧ ∀ id block, cfg.block id = some block → block.id = id
  /-- A terminator names exactly the edges that leave its block. -/
  declared : ∀ id block, cfg.block id = some block → ∀ edge,
    edge ∈ block.terminator.outgoingEdges ↔ ∃ e, cfg.edge edge = some e ∧ e.from_ = id
  /-- An edge carries its identity and connects blocks of the graph. -/
  between : ∀ id edge, cfg.edge id = some edge → edge.id = id ∧
    (cfg.block edge.from_).isSome ∧ (cfg.block edge.to_).isSome
  /-- Each edge is in the successor index at its source, once. -/
  successors : ∀ block,
    cfg.successorIndex.listed block = (cfg.successors block).map CfgEdge.id
  /-- Each edge is in the predecessor index at its target, once. -/
  predecessors : ∀ block,
    (cfg.predecessorIndex.listed block).Perm ((cfg.predecessors block).map CfgEdge.id)
  /-- The blocks marked reachable are those a path leads to. -/
  reachable : ∀ block, block ∈ cfg.reachable ↔ Relation.ReflTransGen cfg.Edge cfg.entry block

variable {body}

/-- What `finish` gives out is what it has assembled, and validation accepts it. -/
theorem finish_ok {fuel : Nat} {lowerer : Lowerer} {cfg : LoweredCfg}
    (given : finish body fuel entry lowerer = some (.ok cfg)) :
    assemble body fuel entry lowerer = some cfg ∧
      validateCfg fuel cfg.toCallableCfg = some (.ok ()) := by
  simp only [finish, Option.bind_eq_bind, Option.bind_eq_some_iff, Option.pure_def,
    Option.some.injEq] at given
  obtain ⟨cfg', assembled, validated, checks, result⟩ := given
  split_ifs at result with clean
  obtain rfl := Except.ok.inj result
  refine ⟨assembled, ?_⟩
  cases validated with
  | ok _ => exact checks
  | error errors =>
      exfalso
      rw [List.isEmpty_iff, List.append_eq_nil_iff] at clean
      exact validateCfg_error_ne_nil checks clean.2

theorem assemble_eq {fuel : Nat} {lowerer : Lowerer} {cfg : LoweredCfg}
    (assembled : assemble body fuel entry lowerer = some cfg) :
    cfg.blocks.keys = lowerer.blocks.keys ∧ cfg.edges = lowerer.edges ∧
      cfg.successorIndex = buildSuccessorIndex lowerer.edges ∧
      cfg.predecessorIndex =
        buildPredecessorIndex lowerer.edges (buildSuccessorIndex lowerer.edges) := by
  simp only [assemble, Option.bind_eq_bind, Option.bind_eq_some_iff, Option.pure_def,
    Option.some.injEq] at assembled
  obtain ⟨reachable, -, rfl⟩ := assembled
  refine ⟨?_, rfl, rfl, rfl⟩
  rw [SortedMap.keys, SortedMap.keys, List.map_map]
  rfl

/-- The graph that lowering a body gives out is well formed, however its statements nest. -/
theorem lowerBody_wellFormed (body : ResolvedBody) (fuel : Nat) (cfg : LoweredCfg)
    (lowered : lowerBody body fuel = some (.ok cfg)) : WellFormed cfg := by
  rw [lowerBody, Option.bind_eq_bind, Option.bind_eq_some_iff] at lowered
  obtain ⟨⟨entry, lowerer⟩, run, finished⟩ := lowered
  obtain ⟨assembled, valid⟩ := finish_ok finished
  obtain ⟨keys, edges, successorIndex, predecessorIndex⟩ := assemble_eq assembled
  have tables := lowerRoot_tables run
  have blocksSorted : cfg.blocks.Sorted := by
    rw [SortedMap.Sorted, keys]
    exact tables.blocks
  have edgesSorted : cfg.edges.Sorted := edges ▸ tables.edges
  have checks := validateCfg_validated valid
  have keyed : ∀ entry ∈ cfg.edges.entries, entry.1 = entry.2.id :=
    fun entry member => (checks.edges entry member).1
  constructor
  · exact ⟨fuel, valid⟩
  · refine ⟨blocksSorted.nodup, fun id block found => ?_⟩
    exact (checks.blocks _ (SortedMap.mem_of_find? found)).keyed.symm
  · intro id block found edge
    rw [(checks.blocks _ (SortedMap.mem_of_find? found)).declared]
    constructor
    · rintro ⟨e, member, source, rfl⟩
      obtain ⟨entry', member', rfl⟩ := List.mem_map.mp member
      refine ⟨entry'.2, ?_, source⟩
      rw [← keyed entry' member']
      exact edgesSorted.find?_of_mem member'
    · rintro ⟨e, found', source⟩
      have member := SortedMap.mem_of_find? found'
      exact ⟨e, List.mem_map.mpr ⟨_, member, rfl⟩, source, (keyed _ member).symm⟩
  · intro id edge found
    obtain ⟨same, ends⟩ := checks.edges _ (SortedMap.mem_of_find? found)
    exact ⟨same.symm, ends⟩
  · intro block
    rw [successorIndex, ← edges, listed_successorIndex keyed]
    rfl
  · intro block
    rw [predecessorIndex, ← edges]
    exact listed_predecessorIndex edgesSorted block
  · exact checks.reachable

/-- `loop { break }`. -/
def loopOnce : ResolvedBody :=
  let origin : Origin := .user .unknown
  ⟨⟨"main"⟩, .empty, .empty, ⟨⟨"body"⟩, origin, [⟨⟨"loop"⟩, origin, .loop ⟨⟨"inner"⟩, origin,
    [⟨⟨"leave"⟩, origin, .break_ none⟩], none⟩⟩], none⟩⟩

theorem lowerBody_wellFormed_loopOnce :
    ∃ cfg, lowerBody loopOnce 8 = some (.ok cfg) ∧ WellFormed cfg :=
  ⟨_, rfl, lowerBody_wellFormed loopOnce 8 _ rfl⟩

end Mimi.Cfg
