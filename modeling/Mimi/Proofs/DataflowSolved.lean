/-
Module: Mimi.Proofs.DataflowSolved
Purpose: What the loops of the resource analysis end with.  The evaluations depend only on what the
  neighbours of a block hand over, so the fixed-point rules of worklist solvers apply; an analysis
  that reports nothing has states that evaluate to themselves without errors, for every reachable
  block of a graph whose cycles are closed by loop-carried edges.
Trusted boundary: none
-/
import Mimi.Cfg.Dataflow

namespace Mimi.Cfg

open Mimi.Core Mimi.Lib

/-- Paths along edges. -/
inductive Path (cfg : CallableCfg) (start : BasicBlockId) : List CfgEdge → BasicBlockId → Prop where
  | start : Path cfg start [] start
  | step {edges : List CfgEdge} {edge : CfgEdge} (path : Path cfg start edges edge.from_)
      (member : edge ∈ cfg.edges.values) : Path cfg start (edges ++ [edge]) edge.to_

theorem Path.reachable {cfg : CallableCfg} {start block : BasicBlockId} {edges : List CfgEdge}
    (path : Path cfg start edges block)
    (closed : ∀ edge ∈ cfg.edges.values, edge.from_ ∈ cfg.reachable → edge.to_ ∈ cfg.reachable)
    (inside : start ∈ cfg.reachable) : block ∈ cfg.reachable := by
  induction path with
  | start => exact inside
  | step _ member ih => exact closed _ member ih

/-- Graphs of structured code: nothing leads back to the entry; the edges that are not carried by a
loop have no cycle, and one of them leads into every reachable block but the entry. -/
structure LoopStructured (cfg : CallableCfg) : Prop where
  entry : ∀ edge ∈ cfg.edges.values, edge.from_ ∈ cfg.reachable → edge.to_ ≠ cfg.entry
  acyclic : ∃ rank : BasicBlockId → Nat, ∀ edge ∈ cfg.edges.values, edge.from_ ∈ cfg.reachable →
    edge.kind.loopCarried = false → rank edge.from_ < rank edge.to_
  covered : ∀ block ∈ cfg.reachable, block ≠ cfg.entry → ∃ edge ∈ cfg.edges.values,
    edge.to_ = block ∧ edge.from_ ∈ cfg.reachable ∧ edge.kind.loopCarried = false

/-! ### Evaluations are local -/

section Local

variable {cfg : CallableCfg}
  (closed : ∀ edge ∈ cfg.edges.values, edge.from_ ∈ cfg.reachable → edge.to_ ∈ cfg.reachable)

theorem mem_predecessors {block : BasicBlockId} {edge : CfgEdge} :
    edge ∈ cfg.predecessors block ↔ edge ∈ cfg.edges.values ∧ edge.to_ = block := by
  simp [CallableCfg.predecessors]

theorem mem_successors {block : BasicBlockId} {edge : CfgEdge} :
    edge ∈ cfg.successors block ↔ edge ∈ cfg.edges.values ∧ edge.from_ = block := by
  simp [CallableCfg.successors]

include closed in
/-- A block is a dependent of its reachable predecessors. -/
theorem mem_dependents {actions : List CanonicalResourceAction} {loans : LoanCatalog}
    {edge : CfgEdge} (member : edge ∈ cfg.edges.values) (inside : edge.from_ ∈ cfg.reachable) :
    edge.to_ ∈ (resourceSolver cfg actions loans).dependents edge.from_ := by
  simp only [resourceSolver, List.mem_map, List.mem_filter, decide_eq_true_eq]
  exact ⟨edge, ⟨mem_successors.mpr ⟨member, rfl⟩, closed edge member inside⟩, rfl⟩

theorem predecessorStates_congr {actions : List CanonicalResourceAction} {block : BasicBlockId}
    {f g : BasicBlockId → Option FlowState}
    (same : ∀ edge ∈ cfg.predecessors block, edge.from_ ∈ cfg.reachable →
      f edge.from_ = g edge.from_) :
    predecessorStates cfg block f actions = predecessorStates cfg block g actions := by
  refine List.filterMap_congr fun edge member => ?_
  obtain ⟨member, inside⟩ := List.mem_filter.mp member
  rw [same edge member (by simpa using inside)]

theorem predecessorsReady_iff {block : BasicBlockId} {f : BasicBlockId → Option FlowState} :
    predecessorsReady cfg block f = true ↔
      ∀ edge ∈ cfg.predecessors block, edge.from_ ∈ cfg.reachable →
        edge.kind.loopCarried = false → (f edge.from_).isSome := by
  simp only [predecessorsReady, List.all_eq_true, List.mem_filter, decide_eq_true_eq]
  constructor
  · exact fun h edge member inside carried => h edge ⟨⟨member, inside⟩, by simp [carried]⟩
  · rintro h edge ⟨⟨member, inside⟩, carried⟩
    exact h edge member inside (by simpa using carried)

include closed in
theorem resourceSolver_local (actions : List CanonicalResourceAction) (loans : LoanCatalog) :
    (resourceSolver cfg actions loans).Local (· ∈ cfg.reachable) where
  dependents m n h := by
    simp only [resourceSolver, List.mem_map, List.mem_filter, decide_eq_true_eq] at h
    obtain ⟨edge, ⟨-, inside⟩, rfl⟩ := h
    exact inside
  eval f g block _ same := by
    have states : predecessorStates cfg block (fun b => (f b).map BlockFlow.outgoing) actions
        = predecessorStates cfg block (fun b => (g b).map BlockFlow.outgoing) actions := by
      refine predecessorStates_congr fun edge member inside => ?_
      obtain ⟨inTable, rfl⟩ := mem_predecessors.mp member
      exact same edge.from_ (mem_dependents closed inTable inside)
    show evalBlock cfg actions loans _ block = evalBlock cfg actions loans _ block
    unfold evalBlock joinPredecessors
    rw [states]
  ready f g block _ same := by
    have ready : predecessorsReady cfg block (fun b => (f b).map BlockFlow.outgoing)
        = predecessorsReady cfg block fun b => (g b).map BlockFlow.outgoing := by
      rw [Bool.eq_iff_iff, predecessorsReady_iff, predecessorsReady_iff]
      refine forall_congr' fun edge => forall₃_congr fun member inside _ => ?_
      obtain ⟨inTable, rfl⟩ := mem_predecessors.mp member
      have view := same edge.from_ (mem_dependents closed inTable inside)
      exact Eq.to_iff (congrArg (fun o : Option FlowState => o.isSome = true) view)
    simp only [resourceSolver, ready]
  mono f g block grows ready := by
    simp only [resourceSolver, Bool.or_eq_true, predecessorsReady_iff] at ready ⊢
    refine ready.imp_right fun h edge member inside carried => ?_
    have known := h edge member inside carried
    simp only [Option.isSome_map] at known ⊢
    exact grows edge.from_ known

theorem liveAlong_congr {f g : Liveness} {edges : List CfgEdge}
    (same : ∀ edge ∈ edges, (f edge.to_).map LiveSets.liveIn = (g edge.to_).map LiveSets.liveIn) :
    liveAlong f edges = liveAlong g edges := by
  unfold liveAlong
  generalize SortedSet.empty = out
  induction edges generalizing out with
  | nil => rfl
  | cons edge edges ih =>
      have head := same edge (by simp)
      rw [List.foldl_cons, List.foldl_cons, ih fun e h => same e (by simp [h])]
      congr 1
      cases hf : f edge.to_ <;> cases hg : g edge.to_ <;> simp_all

theorem livenessSolver_local : (livenessSolver cfg).Local (· ∈ cfg.reachable) where
  dependents m n h := by
    simp only [livenessSolver, List.mem_map, List.mem_filter, decide_eq_true_eq] at h
    obtain ⟨edge, ⟨-, inside⟩, rfl⟩ := h
    exact inside
  eval f g block inside same := by
    have live : liveAlong f ((cfg.successors block).filter fun edge => edge.to_ ∈ cfg.reachable)
        = liveAlong g ((cfg.successors block).filter fun edge => edge.to_ ∈ cfg.reachable) := by
      refine liveAlong_congr fun edge member => same edge.to_ ?_
      obtain ⟨inTable, rfl⟩ := mem_successors.mp (List.mem_filter.mp member).1
      simp only [livenessSolver, List.mem_map, List.mem_filter, decide_eq_true_eq]
      exact ⟨edge, ⟨mem_predecessors.mpr ⟨inTable, rfl⟩, inside⟩, rfl⟩
    simp only [livenessSolver, live]
  ready _ _ _ _ _ := rfl
  mono _ _ _ _ _ := rfl

end Local

/-! ### Joins -/

/-- The second fact is known of every resource that the first is known of, or of more. -/
inductive Widens : Option ResourceFact → Option ResourceFact → Prop where
  | none (fact : Option ResourceFact) : Widens none fact
  | same {fact fact' : ResourceFact} (h : fact'.availability = fact.availability) :
      Widens (some fact) (some fact')
  | maybe (fact : ResourceFact) {fact' : ResourceFact} (h : fact'.availability = .maybeConsumed) :
      Widens (some fact) (some fact')

theorem Widens.refl (fact : Option ResourceFact) : Widens fact fact := by
  cases fact with
  | none => exact .none _
  | some fact => exact .same rfl

theorem Widens.trans {f g h : Option ResourceFact} (first : Widens f g) (second : Widens g h) :
    Widens f h := by
  cases first with
  | none => exact .none h
  | same eq =>
      cases second with
      | same eq' => exact .same (eq'.trans eq)
      | maybe _ eq' => exact .maybe _ eq'
  | maybe _ eq =>
      cases second with
      | same eq' => exact .maybe _ (eq'.trans eq)
      | maybe _ eq' => exact .maybe _ eq'

section Join

variable (cfg : CallableCfg) (block : BasicBlockId)

theorem joinFact_widens (resource : ResourceId) (left right : Option ResourceFact) :
    Widens left (joinFact cfg block resource left right).1 ∧
      Widens right (joinFact cfg block resource left right).1 := by
  have onlySide (fact : ResourceFact) :
      Widens (some fact) (joinFact cfg block resource (some fact) none).1 := by
    unfold joinFact
    refine .same ?_
    cases h : fact.availability <;> rfl
  cases left with
  | none =>
      cases right with
      | none => exact ⟨.none _, .none _⟩
      | some right => exact ⟨.none _, onlySide right⟩
  | some left =>
      cases right with
      | none => exact ⟨onlySide left, .none _⟩
      | some right =>
          by_cases same : left = right
          · simp only [joinFact, if_pos same]
            exact ⟨.refl _, same ▸ .refl _⟩
          · simp only [joinFact, if_neg same]
            exact ⟨.maybe _ rfl, .maybe _ rfl⟩

theorem joinResources_widens (right : SortedMap ResourceId ResourceFact) (ids : List ResourceId) :
    ∀ joined : SortedMap ResourceId ResourceFact,
      (∀ r, Widens (joined.find? r) ((joinResources cfg block right ids joined).1.find? r)) ∧
        ∀ r ∈ ids, Widens (right.find? r) ((joinResources cfg block right ids joined).1.find? r) := by
  induction ids with
  | nil => intro joined; exact ⟨fun r => .refl _, by simp⟩
  | cons id ids ih =>
      intro joined
      obtain ⟨fact, errors, value⟩ : ∃ fact errors,
          joinFact cfg block id (joined.find? id) (right.find? id) = (fact, errors) := ⟨_, _, rfl⟩
      have widens := joinFact_widens cfg block id (joined.find? id) (right.find? id)
      rw [value] at widens
      have rest (next : SortedMap ResourceId ResourceFact)
          (unfolded : (joinResources cfg block right (id :: ids) joined).1
            = (joinResources cfg block right ids next).1)
          (atId : Widens fact (next.find? id))
          (others : ∀ r, r ≠ id → next.find? r = joined.find? r) :
          (∀ r, Widens (joined.find? r)
            ((joinResources cfg block right (id :: ids) joined).1.find? r)) ∧
          ∀ r ∈ id :: ids, Widens (right.find? r)
            ((joinResources cfg block right (id :: ids) joined).1.find? r) := by
        obtain ⟨keeps, covers⟩ := ih next
        rw [unfolded]
        refine ⟨fun r => ?_, fun r member => ?_⟩
        · by_cases same : r = id
          · subst same
            exact (widens.1.trans atId).trans (keeps r)
          · exact others r same ▸ keeps r
        · rcases List.mem_cons.mp member with rfl | member
          · exact (widens.2.trans atId).trans (keeps r)
          · exact covers r member
      cases fact with
      | none =>
          exact rest joined (by simp only [joinResources, value]) (.none _) fun r _ => rfl
      | some fact =>
          refine rest (joined.insert id fact) (by simp only [joinResources, value]) ?_ ?_
          · simpa using Widens.refl _
          · exact fun r other => by simp [other]

/-- What a join has of one of the states it joins. -/
structure Absorbs (joined state : FlowState) : Prop where
  facts : ∀ r, Widens (state.resources.find? r) (joined.resources.find? r)
  loans : ∀ loan ∈ state.activeLoans, loan ∈ joined.activeLoans

theorem Absorbs.refl (state : FlowState) : Absorbs state state := ⟨fun _ => .refl _, fun _ h => h⟩

theorem Absorbs.trans {s₁ s₂ s₃ : FlowState} (first : Absorbs s₂ s₁) (second : Absorbs s₃ s₂) :
    Absorbs s₃ s₁ :=
  ⟨fun r => (first.facts r).trans (second.facts r), fun l h => second.loans l (first.loans l h)⟩

theorem joinStates_absorbs (joined state : FlowState) :
    Absorbs (joinStates cfg block joined state).1 joined ∧
      Absorbs (joinStates cfg block joined state).1 state := by
  simp only [joinStates]
  generalize listed : (SortedSet.empty.insertAll (joined.resources.keys ++ state.resources.keys))
    = ids
  obtain ⟨keeps, covers⟩ := joinResources_widens cfg block state.resources ids.elems joined.resources
  refine ⟨⟨keeps, fun l h => SortedSet.mem_union.mpr (.inl h)⟩,
    ⟨fun r => ?_, fun l h => SortedSet.mem_union.mpr (.inr h)⟩⟩
  cases known : state.resources.find? r with
  | none => exact .none _
  | some fact =>
      have member : r ∈ ids := by
        rw [← listed, SortedSet.mem_insertAll, List.mem_append, SortedMap.mem_keys_iff,
          SortedMap.mem_keys_iff, known]
        exact .inr (.inr rfl)
      exact known ▸ covers r member

theorem joinAll_absorbs (states : List FlowState) : ∀ joined : FlowState,
    ∀ state ∈ joined :: states, Absorbs (joinAll cfg block states joined).1 state := by
  induction states with
  | nil =>
      intro joined state member
      obtain rfl := List.mem_singleton.mp member
      exact .refl _
  | cons next states ih =>
      intro joined state member
      have step := joinStates_absorbs cfg block joined next
      have unfolded : (joinAll cfg block (next :: states) joined).1
          = (joinAll cfg block states (joinStates cfg block joined next).1).1 := by
        simp only [joinAll]
      rw [unfolded]
      have first := ih (joinStates cfg block joined next).1 _ List.mem_cons_self
      rcases List.mem_cons.mp member with rfl | member
      · exact step.1.trans first
      · rcases List.mem_cons.mp member with rfl | member
        · exact step.2.trans first
        · exact ih _ state (List.mem_cons_of_mem _ member)

theorem joinPredecessors_absorbs {actions : List CanonicalResourceAction}
    {out : BasicBlockId → Option FlowState} {state : FlowState}
    (member : state ∈ predecessorStates cfg block out actions) :
    Absorbs (joinPredecessors cfg block out actions).1 state := by
  unfold joinPredecessors
  cases states : predecessorStates cfg block out actions with
  | nil => rw [states] at member; simp at member
  | cons first rest => exact joinAll_absorbs cfg block rest first state (states ▸ member)

end Join

/-! ### Analyses that report nothing -/

theorem dedupErrors_eq_nil {errors : List Diagnostic} (h : dedupErrors errors = []) :
    errors = [] := by
  have keeps (errors kept : List Diagnostic) (nonempty : kept ≠ []) :
      errors.foldl (fun kept error =>
        if kept.any fun other => other.code = error.code ∧ other.message = error.message ∧
            other.span.startLine = error.span.startLine ∧ other.span.startCol = error.span.startCol
        then kept else kept ++ [error]) kept ≠ [] := by
    induction errors generalizing kept with
    | nil => exact nonempty
    | cons error errors ih =>
        rw [List.foldl_cons]
        split_ifs
        · exact ih kept nonempty
        · exact ih _ (by simp)
  cases errors with
  | nil => rfl
  | cons error errors => exact absurd h (keeps errors [error] (by simp))

/-- The outgoing states of blocks. -/
def outgoing (flows : BasicBlockId → Option BlockFlow) (block : BasicBlockId) : Option FlowState :=
  (flows block).map BlockFlow.outgoing

/-- What an analysis without errors ends with. -/
structure Analyzed (cfg : CallableCfg) (actions : List CanonicalResourceAction)
    (loans : LoanCatalog) (droppable : SortedSet ResourceId)
    (flows : BasicBlockId → Option BlockFlow) : Prop where
  closed : ∀ edge ∈ cfg.edges.values, edge.from_ ∈ cfg.reachable → edge.to_ ∈ cfg.reachable
  settled : ∀ block flow, flows block = some flow →
    evalBlock cfg actions loans (outgoing flows) block = (flow, [])
  entry : (flows cfg.entry).isSome
  notified : ∀ edge ∈ cfg.edges.values, edge.from_ ∈ cfg.reachable → (flows edge.from_).isSome →
    (flows edge.to_).isSome ∨ predecessorsReady cfg edge.to_ (outgoing flows) = false
  returns : validateReturnResources cfg (outgoing flows) droppable = []

theorem analyzed_of_ok {fuel : Nat} {cfg : CallableCfg} {actions : List CanonicalResourceAction}
    {loans : List Loan} {fallbackEnds : SortedMap String (List CfgLocation)}
    {droppable : SortedSet ResourceId} {analysis : ResourceAnalysis} {fuel' : Nat}
    (valid : validateCfg fuel' cfg = some (.ok ()))
    (result : analyzeCanonical fuel cfg actions loans fallbackEnds droppable = some (.ok analysis)) :
    prepareActions fuel cfg actions loans fallbackEnds = some (analysis.actions, analysis.loans) ∧
      ∃ flows, Analyzed cfg analysis.actions (loanCatalog analysis.loans) droppable flows := by
  obtain ⟨entry, closed⟩ := validateCfg_ok valid
  simp only [analyzeCanonical, Option.bind_eq_bind, Option.bind_eq_some_iff] at result
  obtain ⟨⟨actions', loans'⟩, prepared, solution, run, checked⟩ := result
  split at checked
  · rename_i clean
    obtain ⟨logged, returned⟩ := List.append_eq_nil_iff.mp (dedupErrors_eq_nil clean)
    obtain rfl := Except.ok.inj (Option.some.inj checked)
    have solved := Solver.run_solved (resourceSolver_local closed actions' (loanCatalog loans'))
      (by simpa using entry) run
    refine ⟨prepared, solution.values, closed, ?_, ?_, ?_, returned⟩
    · intro block flow value
      obtain ⟨errors, evaluated, among⟩ := solved.settled block flow value
      rw [logged, List.subset_nil] at among
      exact among ▸ evaluated
    · exact (solved.seeded cfg.entry (by simp)).resolve_right (by simp [resourceSolver])
    · intro edge member inside known
      refine (solved.notified edge.from_ edge.to_ known
        (mem_dependents closed member inside)).imp_right fun notReady => ?_
      simp only [resourceSolver, Bool.or_eq_false_iff] at notReady
      exact notReady.2
  · simp at checked

namespace Analyzed

variable {cfg : CallableCfg} {actions : List CanonicalResourceAction} {loans : LoanCatalog}
  {droppable : SortedSet ResourceId} {flows : BasicBlockId → Option BlockFlow}

/-- In structured graphs every reachable block is evaluated: along the edges that no loop carries,
each block waits for blocks of smaller rank only. -/
theorem evaluated (analyzed : Analyzed cfg actions loans droppable flows)
    (structured : LoopStructured cfg) {block : BasicBlockId} (inside : block ∈ cfg.reachable) :
    (flows block).isSome := by
  obtain ⟨rank, increases⟩ := structured.acyclic
  generalize size : rank block = n
  induction n using Nat.strong_induction_on generalizing block with
  | _ n ih =>
      by_cases atEntry : block = cfg.entry
      · exact atEntry ▸ analyzed.entry
      · obtain ⟨edge, member, rfl, from_, carried⟩ := structured.covered block inside atEntry
        have before : (flows edge.from_).isSome :=
          ih _ (size ▸ increases edge member from_ carried) from_ rfl
        refine (analyzed.notified edge member from_ before).resolve_right fun notReady => ?_
        rw [Bool.eq_false_iff, ne_eq, predecessorsReady_iff] at notReady
        refine notReady fun other otherInto from' carried' => ?_
        obtain ⟨inTable, into⟩ := mem_predecessors.mp otherInto
        have smaller := increases other inTable from' carried'
        rw [into, size] at smaller
        rw [outgoing, Option.isSome_map]
        exact ih _ smaller from' rfl

/-- The entry starts with nothing known. -/
theorem entry_flow (analyzed : Analyzed cfg actions loans droppable flows) :
    ∃ flow, flows cfg.entry = some flow ∧ flow.incoming = .default ∧
      transferAll loans (blockActions cfg actions cfg.entry) .default = (flow.outgoing, []) := by
  obtain ⟨flow, value⟩ := Option.isSome_iff_exists.mp analyzed.entry
  have evaluated := analyzed.settled _ flow value
  simp only [evalBlock, if_true, Prod.mk.injEq, List.append_eq_nil_iff] at evaluated
  obtain ⟨rfl, ⟨-, clean⟩, -⟩ := evaluated
  exact ⟨_, value, rfl, Prod.ext rfl clean⟩

/-- Across an edge: what the block before hands over is absorbed by the block after, whose actions
find no error. -/
theorem step (analyzed : Analyzed cfg actions loans droppable flows) {edge : CfgEdge}
    (member : edge ∈ cfg.edges.values) (inside : edge.from_ ∈ cfg.reachable)
    (notEntry : edge.to_ ≠ cfg.entry) {before after : BlockFlow}
    (valueBefore : flows edge.from_ = some before) (valueAfter : flows edge.to_ = some after) :
    Absorbs after.incoming (alongEdge actions edge before.outgoing) ∧
      transferAll loans (blockActions cfg actions edge.to_) after.incoming = (after.outgoing, []) := by
  have evaluated := analyzed.settled _ after valueAfter
  simp only [evalBlock, if_neg notEntry, Prod.mk.injEq, List.append_eq_nil_iff] at evaluated
  obtain ⟨rfl, ⟨-, clean⟩, -⟩ := evaluated
  refine ⟨joinPredecessors_absorbs cfg edge.to_ ?_, Prod.ext rfl clean⟩
  refine List.mem_filterMap.mpr ⟨edge, ?_, ?_⟩
  · exact List.mem_filter.mpr ⟨mem_predecessors.mpr ⟨member, rfl⟩, by simpa using inside⟩
  · simp [outgoing, valueBefore]

end Analyzed

end Mimi.Cfg
