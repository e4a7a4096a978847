/-
Module: Mimi.Proofs.ResourceFlow
Purpose: Soundness of the resource analysis on paths.  The actions of a path run on a table that says
  of each resource whether the path has introduced or consumed it; the facts of the analysis stand
  for such statuses, each action keeps that, and so does each edge of a path.  When the analysis
  reports nothing, no path consumes a resource twice, and at a return nothing is left over.
Trusted boundary: none
-/
import Mimi.Proofs.DataflowSolved

namespace Mimi.Cfg

open Mimi.Core Mimi.Lib

/-! ### Running the actions of a path -/

/-- What a path has done with a resource. -/
inductive Status where
  | untouched
  | available
  | consumed
deriving DecidableEq, Repr

/-- What a path has done with each resource. -/
abbrev Holdings := ResourceId → Status

/-- Run an action; it is stuck if it consumes a resource that the path has consumed already.  A move
to a target hands the resource on and keeps it available. -/
def execAction (action : CanonicalResourceAction) (holdings : Holdings) : Option Holdings :=
  let become (status : Status) : Holdings := Function.update holdings action.resource status
  match action.kind with
  | .introduce => some (become .available)
  | .move =>
      if holdings action.resource = .consumed then none
      else some (become (if action.target.isSome then .available else .consumed))
  | .drop | .return_ | .transferChild =>
      if holdings action.resource = .consumed then none else some (become .consumed)
  | _ => some holdings

def exec : List CanonicalResourceAction → Holdings → Option Holdings
  | [], holdings => some holdings
  | action :: actions, holdings => (execAction action holdings).bind (exec actions)

theorem exec_append (first second : List CanonicalResourceAction) (holdings : Holdings) :
    exec (first ++ second) holdings = (exec first holdings).bind (exec second) := by
  induction first generalizing holdings with
  | nil => rfl
  | cons action first ih =>
      simp only [List.cons_append, exec]
      cases execAction action holdings with
      | none => rfl
      | some next => exact ih next

/-- The actions that concern the availability of resources. -/
def isResourceAction (action : CanonicalResourceAction) : Bool :=
  match action.kind with
  | .introduce | .move | .drop | .return_ | .transferChild => true
  | _ => false

variable {action : CanonicalResourceAction}

theorem execAction_of_not_resource (h : isResourceAction action = false) (holdings : Holdings) :
    execAction action holdings = some holdings := by
  unfold isResourceAction at h
  unfold execAction
  cases kind : action.kind <;> simp_all

/-- Other actions leave no trace. -/
theorem exec_filter (actions : List CanonicalResourceAction) (holdings : Holdings) :
    exec (actions.filter isResourceAction) holdings = exec actions holdings := by
  induction actions generalizing holdings with
  | nil => rfl
  | cons action actions ih =>
      rw [List.filter_cons]
      cases h : isResourceAction action with
      | true =>
          simp only [if_true, exec]
          exact congrArg _ (funext ih)
      | false =>
          simp only [Bool.false_eq_true, if_false, exec, execAction_of_not_resource h, ih]
          rfl

/-- The actions of the blocks of a path, each block's in their order. -/
def pathActions (cfg : CallableCfg) (actions : List CanonicalResourceAction)
    (start : BasicBlockId) (edges : List CfgEdge) : List CanonicalResourceAction :=
  (start :: edges.map CfgEdge.to_).flatMap (blockActions cfg actions)

theorem pathActions_step (cfg : CallableCfg) (actions : List CanonicalResourceAction)
    (start : BasicBlockId) (edges : List CfgEdge) (edge : CfgEdge) :
    pathActions cfg actions start (edges ++ [edge])
      = pathActions cfg actions start edges ++ blockActions cfg actions edge.to_ := by
  simp [pathActions]

/-! ### Sorting and filtering -/

section StableSort

variable {α : Type} {r : α → α → Prop} [DecidableRel r] (p : α → Bool)

theorem filter_orderedInsert_of_not {a : α} (h : p a = false) (l : List α) :
    (l.orderedInsert r a).filter p = l.filter p := by
  induction l with
  | nil => simp [h]
  | cons b l ih =>
      rw [List.orderedInsert_cons]
      split_ifs
      · simp [h]
      · rw [List.filter_cons, List.filter_cons, ih]

theorem filter_orderedInsert [IsTrans α r] {a : α} (h : p a = true) {l : List α}
    (sorted : l.Pairwise r) : (l.orderedInsert r a).filter p = (l.filter p).orderedInsert r a := by
  induction l with
  | nil => simp [h]
  | cons b l ih =>
      obtain ⟨below, sorted⟩ := List.pairwise_cons.mp sorted
      rw [List.orderedInsert_cons]
      split_ifs with before
      · have first : ∀ c ∈ (b :: l).filter p, r a c := by
          intro c hc
          rcases List.mem_cons.mp (List.mem_filter.mp hc).1 with rfl | hc
          · exact before
          · exact IsTrans.trans _ _ _ before (below c hc)
        rw [List.filter_cons_of_pos h]
        cases rest : (b :: l).filter p with
        | nil => rfl
        | cons c rest' =>
            rw [List.orderedInsert_cons, if_pos (first c (rest ▸ List.mem_cons_self))]
      · rw [List.filter_cons, List.filter_cons, ih sorted]
        split_ifs
        · rw [List.orderedInsert_cons, if_neg before]
        · rfl

/-- A stable sort keeps the order of what a filter keeps. -/
theorem filter_insertionSort [Std.Total r] [IsTrans α r] (l : List α) :
    (l.insertionSort r).filter p = (l.filter p).insertionSort r := by
  induction l with
  | nil => rfl
  | cons a l ih =>
      rw [List.insertionSort_cons]
      cases h : p a with
      | true =>
          rw [filter_orderedInsert p h (List.pairwise_insertionSort r l), List.filter_cons_of_pos h,
            List.insertionSort_cons, ih]
      | false =>
          rw [filter_orderedInsert_of_not p h, List.filter_cons_of_neg (by simp [h]), ih]

end StableSort

instance (cfg : CallableCfg) (block : BasicBlockId) : Std.Total (actionLe cfg block) where
  total a b := by
    unfold actionLe
    omega

instance (cfg : CallableCfg) (block : BasicBlockId) :
    IsTrans CanonicalResourceAction (actionLe cfg block) where
  trans a b c := by
    unfold actionLe
    omega

variable {cfg : CallableCfg}

/-- The actions that the analysis adds are no resource actions, so a path runs the same with them. -/
theorem exec_blockActions_append {actions added : List CanonicalResourceAction}
    (others : ∀ action ∈ added, isResourceAction action = false) (block : BasicBlockId) (holdings : Holdings) :
    exec (blockActions cfg (actions ++ added) block) holdings
      = exec (blockActions cfg actions block) holdings := by
  have kept : added.filter (fun action => isResourceAction action &&
      decide (action.location.block = block ∧ action.location.edge = none)) = [] := by
    rw [List.filter_eq_nil_iff]
    intro action member
    simp [others action member]
  rw [← exec_filter, ← exec_filter (blockActions cfg actions block)]
  simp only [blockActions, filter_insertionSort, List.filter_filter, List.filter_append, kept,
    List.append_nil]

/-! ### What the facts of the analysis stand for -/

/-- The statuses an availability stands for. -/
def Allows : Availability → Status → Prop
  | .available, status => status ≠ .consumed
  | .consumed, status => status ≠ .available
  | .maybeConsumed, _ => True

theorem allows_untouched (availability : Availability) : Allows availability .untouched := by
  cases availability <;> simp [Allows]

/-- The statuses a fact stands for.  A resource without a fact is untouched on every path. -/
def Stands : Option ResourceFact → Status → Prop
  | none, status => status = .untouched
  | some fact, status => Allows fact.availability status

variable {status : Status}

@[simp] theorem stands_none : Stands none status ↔ status = .untouched := Iff.rfl

@[simp] theorem stands_some {fact : ResourceFact} :
    Stands (some fact) status ↔ Allows fact.availability status := Iff.rfl

theorem Stands.widen {fact fact' : Option ResourceFact} (h : Stands fact status)
    (widens : Widens fact fact') : Stands fact' status := by
  cases widens with
  | none =>
      obtain rfl := stands_none.mp h
      cases fact' with
      | none => rfl
      | some fact' => exact allows_untouched _
  | same eq => rwa [stands_some, eq]
  | maybe _ eq => rw [stands_some, eq]; trivial

/-- The facts of a state stand for the holdings. -/
def Sound (state : FlowState) (holdings : Holdings) : Prop :=
  ∀ r, Stands (state.resources.find? r) (holdings r)

variable {state : FlowState} {holdings : Holdings}

theorem Sound.absorb {joined : FlowState} (h : Sound state holdings)
    (absorbs : Absorbs joined state) : Sound joined holdings :=
  fun r => (h r).widen (absorbs.facts r)

theorem Sound.insert {state : FlowState} {holdings : Holdings} (h : Sound state holdings)
    {resource : ResourceId} {fact : ResourceFact} {status : Status}
    (stands : Stands (some fact) status) :
    Sound { state with resources := state.resources.insert resource fact }
      (Function.update holdings resource status) := by
  intro r
  by_cases same : r = resource
  · subst same
    simpa using stands
  · simpa [same] using h r

variable {state' : FlowState} {loans : LoanCatalog}

/-- An action that consumes a resource and finds no error finds it not consumed. -/
theorem consume_sound {message : String} {target : Option Place} (sound : Sound state holdings)
    (result : consume action state loans message target = (state', [])) :
    holdings action.resource ≠ .consumed ∧
      Sound state' (Function.update holdings action.resource
        (if target.isSome then .available else .consumed)) := by
  simp only [consume, Prod.mk.injEq, List.append_eq_nil_iff, ite_eq_right_iff,
    List.cons_ne_self, imp_false, ne_eq, not_not] at result
  obtain ⟨rfl, -, available⟩ := result
  constructor
  · have stands := sound action.resource
    cases known : state.resources.find? action.resource with
    | none =>
        rw [known, stands_none] at stands
        simp [stands]
    | some fact =>
        have same : fact.availability = .available := by
          rw [← available, factOf, known]
          simp only [Option.getD_some]
          split_ifs <;> rfl
        rw [known, stands_some, same] at stands
        exact stands
  · refine sound.insert ?_
    cases target <;> simp [Allows]

/-- Other actions leave the facts of resources alone. -/
theorem transfer_resources (other : isResourceAction action = false) (loans : LoanCatalog) (state : FlowState) :
    (transfer loans action state).1.resources = state.resources := by
  unfold isResourceAction at other
  unfold transfer
  cases kind : action.kind <;> rw [kind] at other
  case introduce | move | drop | return_ | transferChild => cases other
  case borrowShared | borrowMut =>
    dsimp only
    split <;> try split
    all_goals rfl
  case borrowEnd =>
    dsimp only
    split <;> try split
    all_goals rfl

/-- An action that finds no error runs, and the facts after it stand for the holdings after it. -/
theorem transfer_sound (sound : Sound state holdings) (result : transfer loans action state = (state', [])) :
    ∃ holdings', execAction action holdings = some holdings' ∧ Sound state' holdings' := by
  cases other : isResourceAction action with
  | false =>
      refine ⟨holdings, execAction_of_not_resource other holdings, fun r => ?_⟩
      have same := transfer_resources other loans state
      rw [result] at same
      exact same ▸ sound r
  | true =>
      unfold isResourceAction at other
      unfold transfer at result
      unfold execAction
      cases kind : action.kind <;> rw [kind] at other result
      case introduce =>
        obtain ⟨rfl, -⟩ := Prod.mk.inj result
        exact ⟨_, rfl, sound.insert (by simp [Allows])⟩
      case move =>
        obtain ⟨available, sound'⟩ := consume_sound sound result
        exact ⟨_, by simp only [if_neg available], sound'⟩
      case drop | return_ | transferChild =>
        obtain ⟨available, sound'⟩ := consume_sound sound result
        exact ⟨_, by simp only [if_neg available]; rfl, sound'⟩
      all_goals cases other

theorem transferAll_sound {actions : List CanonicalResourceAction} (sound : Sound state holdings)
    (result : transferAll loans actions state = (state', [])) :
    ∃ holdings', exec actions holdings = some holdings' ∧ Sound state' holdings' := by
  induction actions generalizing state holdings with
  | nil =>
      obtain ⟨rfl, -⟩ := Prod.mk.inj result
      exact ⟨holdings, rfl, sound⟩
  | cons action actions ih =>
      obtain ⟨next, errors, first⟩ : ∃ next errors, transfer loans action state = (next, errors) :=
        ⟨_, _, rfl⟩
      obtain ⟨last, rest, second⟩ : ∃ last rest, transferAll loans actions next = (last, rest) :=
        ⟨_, _, rfl⟩
      simp only [transferAll, first, second, Prod.mk.injEq, List.append_eq_nil_iff] at result
      obtain ⟨rfl, rfl, rfl⟩ := result
      obtain ⟨middle, runs, sound'⟩ := transfer_sound sound first
      obtain ⟨final, runs', sound''⟩ := ih sound' second
      exact ⟨final, by rw [exec, runs]; exact runs', sound''⟩

/-! ### Paths -/

/-- Nothing is held at the entry. -/
def noHoldings : Holdings := fun _ => .untouched

/-- Along every path from the entry the actions run, and the facts at its end stand for what it has
done. -/
theorem Analyzed.path_sound {actions : List CanonicalResourceAction} {droppable : SortedSet ResourceId}
    {flows : BasicBlockId → Option BlockFlow} (analyzed : Analyzed cfg actions loans droppable flows)
    (structured : LoopStructured cfg) (entry : cfg.entry ∈ cfg.reachable) {edges : List CfgEdge}
    {block : BasicBlockId} (path : Path cfg cfg.entry edges block) :
    ∃ flow holdings, flows block = some flow ∧
      exec (pathActions cfg actions cfg.entry edges) noHoldings = some holdings ∧
      Sound flow.outgoing holdings := by
  induction path with
  | start =>
      obtain ⟨flow, value, -, runs⟩ := analyzed.entry_flow
      have start : Sound .default noHoldings := fun r => rfl
      obtain ⟨holdings, ran, sound⟩ := transferAll_sound start runs
      exact ⟨flow, holdings, value, by simpa [pathActions] using ran, sound⟩
  | @step edges edge path member ih =>
      obtain ⟨before, holdings, valueBefore, ran, sound⟩ := ih
      have inside : edge.from_ ∈ cfg.reachable := path.reachable analyzed.closed entry
      obtain ⟨after, valueAfter⟩ := Option.isSome_iff_exists.mp
        (analyzed.evaluated structured (analyzed.closed edge member inside))
      obtain ⟨absorbs, runs⟩ := analyzed.step member inside
        (structured.entry edge member inside) valueBefore valueAfter
      have handed : Sound (alongEdge actions edge before.outgoing) holdings := sound
      obtain ⟨holdings', ran', sound'⟩ := transferAll_sound (handed.absorb absorbs) runs
      refine ⟨after, holdings', valueAfter, ?_, sound'⟩
      rw [pathActions_step, exec_append, ran]
      exact ran'

/-- At a return block the holdings of resources that cannot be dropped are consumed or untouched. -/
theorem Analyzed.return_sound {actions : List CanonicalResourceAction} {droppable : SortedSet ResourceId}
    {flows : BasicBlockId → Option BlockFlow} (analyzed : Analyzed cfg actions loans droppable flows)
    {blockId : BasicBlockId} (inside : blockId ∈ cfg.reachable) {block : BasicBlock}
    (found : cfg.block blockId = some block) (returns : block.terminator.isReturn = true)
    {flow : BlockFlow} (value : flows blockId = some flow)
    (sound : Sound flow.outgoing holdings) {r : ResourceId} (obliged : r ∉ droppable) :
    holdings r ≠ .available := by
  have checked := List.flatMap_eq_nil_iff.mp analyzed.returns _ (SortedMap.mem_of_find? found)
  simp only [validateReturnBlock, inside, not_true_eq_false, if_false, returns, false_and, outgoing,
    value, Option.map_some] at checked
  have stands := sound r
  cases known : flow.outgoing.resources.find? r with
  | none =>
      rw [known, stands_none] at stands
      simp [stands]
  | some fact =>
      have clean := List.flatMap_eq_nil_iff.mp checked _ (SortedMap.mem_of_find? known)
      simp only [if_neg obliged] at clean
      have consumed : fact.availability = .consumed := by
        unfold returnError at clean
        cases availability : fact.availability <;> simp [availability] at clean ⊢
      rw [known, stands_some, consumed] at stands
      exact stands

/-! ### The actions that the analysis adds -/

theorem endLoans_actions {fuel : Nat} {live : Liveness}
    {fallbackEnds : SortedMap String (List CfgLocation)} {resources : SortedMap LoanId ResourceId}
    {loans loans' : List Loan} {ends : List CanonicalResourceAction}
    (result : endLoans fuel cfg live fallbackEnds resources loans = some (loans', ends)) :
    ∀ action ∈ ends, action.kind = .borrowEnd := by
  induction loans generalizing loans' ends with
  | nil =>
      obtain ⟨-, rfl⟩ := Prod.mk.inj (Option.some.inj result)
      simp
  | cons loan loans ih =>
      simp only [endLoans, Option.bind_eq_bind, Option.bind_eq_some_iff] at result
      obtain ⟨locations, -, ⟨rest, actions⟩, others, eq⟩ := result
      obtain ⟨-, rfl⟩ := Prod.mk.inj (Option.some.inj eq)
      intro action member
      rcases List.mem_append.mp member with h | h
      · obtain ⟨location, -, rfl⟩ := List.mem_map.mp h
        rfl
      · exact ih others action h

/-- The analysis adds reads, writes and the ends of loans. -/
theorem prepareActions_added {fuel : Nat} {actions actions' : List CanonicalResourceAction} {loans loans' : List Loan}
    {fallbackEnds : SortedMap String (List CfgLocation)}
    (result : prepareActions fuel cfg actions loans fallbackEnds = some (actions', loans')) :
    ∃ added, actions' = actions ++ added ∧ ∀ action ∈ added, isResourceAction action = false := by
  simp only [prepareActions, Option.bind_eq_bind, Option.bind_eq_some_iff] at result
  obtain ⟨live, -, ⟨ended, ends⟩, endResult, eq⟩ := result
  obtain ⟨rfl, -⟩ := Prod.mk.inj (Option.some.inj eq)
  rw [List.append_assoc]
  refine ⟨_, rfl, fun action member => ?_⟩
  rcases List.mem_append.mp member with h | h
  · simp [isResourceAction, endLoans_actions endResult action h]
  · obtain ⟨entry, -, h⟩ := List.mem_flatMap.mp h
    obtain ⟨point, -, h⟩ := List.mem_flatMap.mp h
    rcases List.mem_append.mp h with h | h
    · obtain ⟨place, -, h⟩ := List.mem_filterMap.mp h
      obtain ⟨resource, -, rfl⟩ := Option.map_eq_some_iff.mp h
      rfl
    · obtain ⟨place, -, h⟩ := List.mem_filterMap.mp h
      obtain ⟨resource, -, rfl⟩ := Option.map_eq_some_iff.mp h
      rfl

theorem exec_pathActions_append {actions added : List CanonicalResourceAction}
    (others : ∀ action ∈ added, isResourceAction action = false) (start : BasicBlockId)
    (edges : List CfgEdge) (holdings : Holdings) :
    exec (pathActions cfg (actions ++ added) start edges) holdings
      = exec (pathActions cfg actions start edges) holdings := by
  unfold pathActions
  generalize start :: edges.map CfgEdge.to_ = blocks
  induction blocks generalizing holdings with
  | nil => rfl
  | cons block blocks ih =>
      rw [List.flatMap_cons, List.flatMap_cons, exec_append, exec_append,
        exec_blockActions_append others]
      exact congrArg _ (funext ih)

/-! ### One consumption for each introduction -/

def introduces (r : ResourceId) (action : CanonicalResourceAction) : Bool :=
  action.kind = .introduce ∧ action.resource = r

/-- The action ends the availability of the resource; a move to a target does not. -/
def discharges (r : ResourceId) (action : CanonicalResourceAction) : Bool :=
  action.resource = r ∧
    (action.kind = .drop ∨ action.kind = .return_ ∨ action.kind = .transferChild ∨
      action.kind = .move ∧ action.target = none)

variable {holdings' : Holdings}

/-- What one action does to a resource that it does not introduce. -/
theorem execAction_cases {r : ResourceId} (old : introduces r action = false)
    (ran : execAction action holdings = some holdings') :
    (discharges r action = true ∧ holdings r ≠ .consumed ∧ holdings' r = .consumed) ∨
      (discharges r action = false ∧
        (holdings r ≠ .untouched → holdings' r = holdings r)) := by
  by_cases same : action.resource = r
  · subst same
    unfold execAction at ran
    cases kind : action.kind <;>
      simp only [introduces, discharges, kind, reduceCtorEq, decide_eq_false_iff_not,
        decide_eq_true_eq, and_true, true_and, false_and, or_false, false_or, or_true,
        not_true_eq_false, not_false_eq_true] at old ran ⊢
    case move =>
      split_ifs at ran with used kept
      · obtain rfl := Option.some.inj ran
        have target : action.target ≠ none := Option.isSome_iff_ne_none.mp kept
        refine .inr ⟨target, fun touched => ?_⟩
        rw [Function.update_self]
        cases status : holdings action.resource <;> simp_all
      · obtain rfl := Option.some.inj ran
        have target : action.target = none := Option.not_isSome_iff_eq_none.mp kept
        exact .inl ⟨target, used, Function.update_self ..⟩
    case drop | return_ | transferChild =>
      split_ifs at ran with used
      obtain rfl := Option.some.inj ran
      exact ⟨used, by simp⟩
    all_goals
      obtain rfl := Option.some.inj ran
      exact fun _ => rfl
  · refine .inr ⟨by simp [discharges, same], fun _ => ?_⟩
    unfold execAction at ran
    have other : ∀ status, Function.update holdings action.resource status r = holdings r :=
      fun status => Function.update_of_ne (Ne.symm same) _ _
    cases kind : action.kind <;> simp only [kind] at ran <;> try split_ifs at ran
    all_goals
      obtain rfl := Option.some.inj ran
      first | rfl | exact other _

/-- An available resource that is not introduced again ends available and never discharged, or
consumed and discharged once. -/
theorem exec_discharges {r : ResourceId} {actions : List CanonicalResourceAction}
    (old : ∀ action ∈ actions, introduces r action = false) (ran : exec actions holdings = some holdings') :
    (holdings r = .consumed → holdings' r = .consumed ∧ actions.countP (discharges r) = 0) ∧
      (holdings r = .available →
        holdings' r = .available ∧ actions.countP (discharges r) = 0 ∨
          holdings' r = .consumed ∧ actions.countP (discharges r) = 1) := by
  induction actions generalizing holdings with
  | nil =>
      obtain rfl := Option.some.inj ran
      exact ⟨fun h => ⟨h, rfl⟩, fun h => .inl ⟨h, rfl⟩⟩
  | cons action actions ih =>
      obtain ⟨next, first, rest⟩ := Option.bind_eq_some_iff.mp ran
      obtain ⟨consumed, available⟩ := ih (fun a h => old a (by simp [h])) rest
      rcases execAction_cases (old action (by simp)) first with ⟨hit, usable, now⟩ | ⟨miss, keeps⟩
      · refine ⟨fun h => absurd h usable, fun _ => .inr ?_⟩
        obtain ⟨last, count⟩ := consumed now
        exact ⟨last, by rw [List.countP_cons_of_pos hit, count]⟩
      · rw [List.countP_cons_of_neg (by simp [miss])]
        refine ⟨fun h => consumed ?_, fun h => available ?_⟩
        · rw [keeps (by simp [h]), h]
        · rw [keeps (by simp [h]), h]

/-- Between an introduction and a moment when the resource is not available, not introduced again, it
is discharged exactly once. -/
theorem discharged_once {r : ResourceId} {before between : List CanonicalResourceAction}
    (introduced : introduces r action = true) (old : ∀ a ∈ between, introduces r a = false)
    (ran : exec (before ++ action :: between) holdings = some holdings')
    (gone : holdings' r ≠ .available) : between.countP (discharges r) = 1 := by
  rw [exec_append] at ran
  obtain ⟨middle, -, ran⟩ := Option.bind_eq_some_iff.mp ran
  obtain ⟨next, first, rest⟩ := Option.bind_eq_some_iff.mp ran
  obtain ⟨kind, rfl⟩ : action.kind = .introduce ∧ action.resource = r := by
    simpa [introduces] using introduced
  have available : next action.resource = .available := by
    simp only [execAction, kind, Option.some.injEq] at first
    simp [← first]
  rcases (exec_discharges old rest).2 available with ⟨still, -⟩ | ⟨-, once⟩
  · exact absurd still gone
  · exact once

/-- If the analysis of a validated, structured graph reports nothing, then along every path from the
entry to a return the actions never consume a resource that the path has consumed and not introduced
again; at the end no resource that cannot be dropped is available; and each introduction, unless the
resource is introduced again while it is available, is discharged exactly once. -/
theorem analyzed_paths_consume_once {fuel fuel' : Nat} {cfg : CallableCfg}
    {actions : List CanonicalResourceAction} {loans : List Loan}
    {fallbackEnds : SortedMap String (List CfgLocation)} {droppable : SortedSet ResourceId}
    {analysis : ResourceAnalysis} (valid : validateCfg fuel' cfg = some (.ok ()))
    (structured : LoopStructured cfg)
    (result : analyzeCanonical fuel cfg actions loans fallbackEnds droppable = some (.ok analysis))
    {edges : List CfgEdge} {blockId : BasicBlockId} {block : BasicBlock}
    (path : Path cfg cfg.entry edges blockId) (found : cfg.block blockId = some block)
    (returns : block.terminator.isReturn = true) :
    ∃ holdings, exec (pathActions cfg actions cfg.entry edges) noHoldings = some holdings ∧
      (∀ r, r ∉ droppable → holdings r ≠ .available) ∧
      ∀ r before action between after,
        pathActions cfg actions cfg.entry edges = before ++ action :: (between ++ after) →
        introduces r action = true → (∀ a ∈ between, introduces r a = false) →
        (after = [] ∧ r ∉ droppable ∨
          ∃ then_, exec (before ++ action :: between) noHoldings = some then_ ∧
            then_ r ≠ .available) →
        between.countP (discharges r) = 1 := by
  obtain ⟨entry, closed⟩ := validateCfg_ok valid
  obtain ⟨prepared, flows, analyzed⟩ := analyzed_of_ok valid result
  obtain ⟨added, all, others⟩ := prepareActions_added prepared
  obtain ⟨flow, holdings, value, ran, sound⟩ := analyzed.path_sound structured entry path
  rw [all, exec_pathActions_append others] at ran
  have settled (r : ResourceId) (obliged : r ∉ droppable) : holdings r ≠ .available :=
    analyzed.return_sound (path.reachable closed entry) found returns value sound obliged
  refine ⟨holdings, ran, settled, ?_⟩
  intro r before action between after split introduced old ends
  rcases ends with ⟨rfl, obliged⟩ | ⟨then_, ran', gone⟩
  · rw [split, List.append_nil] at ran
    exact discharged_once introduced old ran (settled r obliged)
  · exact discharged_once introduced old ran' gone

/-! ### Sample graphs -/

/-- A source whose node has the given name. -/
def namedSource (name : String) : CfgSource := ⟨⟨name⟩, .unknown, .user .unknown⟩

/-- A block with one point, which is named like the block with a dot behind. -/
def namedBlock (name : String) (terminator : Terminator) : BasicBlockId × BasicBlock :=
  (⟨⟨name⟩⟩,
    ⟨⟨⟨name⟩⟩, namedSource name, [⟨namedSource (name ++ "."), [], [], [], []⟩], terminator⟩)

def namedEdge (name source target : String) (kind : EdgeKind) : EdgeId × CfgEdge :=
  (⟨⟨name⟩⟩, ⟨⟨⟨name⟩⟩, ⟨⟨source⟩⟩, ⟨⟨target⟩⟩, kind, namedSource name⟩)

def file : ResourceId := ⟨⟨"file"⟩⟩

/-- An action on the resource `file` at the point of a block or on an edge that leaves it. -/
def fileAction (kind : CanonicalActionKind) (block : String) (target : Option Place)
    (edge : Option EdgeId) : CanonicalResourceAction :=
  ⟨kind, file, none, target, none, ⟨⟨⟨block⟩⟩, ⟨block ++ "."⟩, edge⟩, .unknown, .user .unknown⟩

/-- Where a list of edges leads. -/
def walk (cfg : CallableCfg) : BasicBlockId → List CfgEdge → Option BasicBlockId
  | block, [] => some block
  | block, edge :: edges =>
      if edge ∈ cfg.edges.values ∧ edge.from_ = block then walk cfg edge.to_ edges else none

theorem Path.walk {cfg : CallableCfg} {start block last : BasicBlockId} {before edges : List CfgEdge}
    (path : Path cfg start before block) (leads : walk cfg block edges = some last) :
    Path cfg start (before ++ edges) last := by
  induction edges generalizing before block with
  | nil =>
      obtain rfl := Option.some.inj leads
      rwa [List.append_nil]
  | cons edge edges ih =>
      rw [Cfg.walk] at leads
      split_ifs at leads with step
      obtain ⟨member, rfl⟩ := step
      have longer := ih (.step path member) leads
      rwa [List.append_assoc] at longer

theorem path_of_walk {start block : BasicBlockId} {edges : List CfgEdge}
    (leads : walk cfg start edges = some block) : Path cfg start edges block :=
  Path.walk .start leads

/-- The graph is valid and the analysis of the actions on it reports nothing. -/
def Accepted (cfg : CallableCfg) (actions : List CanonicalResourceAction) : Prop :=
  validateCfg 20 cfg = some (.ok ()) ∧
    (analyzeCanonical 20 cfg actions [] .empty .empty).map Except.isOk = some true

instance (cfg : CallableCfg) (actions : List CanonicalResourceAction) :
    Decidable (Accepted cfg actions) := inferInstanceAs (Decidable (_ ∧ _))

/-- Along the named edges a path leads from the entry to a return, on which the accepted actions run
as given. -/
def AcceptedRun (cfg : CallableCfg) (actions : List CanonicalResourceAction) (names : List String)
    (run : List CanonicalResourceAction) : Prop :=
  let edges := names.filterMap fun name => cfg.edge ⟨⟨name⟩⟩
  Accepted cfg actions ∧
    ((walk cfg cfg.entry edges).bind cfg.block).any (fun block => block.terminator.isReturn) ∧
    pathActions cfg actions cfg.entry edges = run

instance (cfg : CallableCfg) (actions : List CanonicalResourceAction) (names : List String)
    (run : List CanonicalResourceAction) : Decidable (AcceptedRun cfg actions names run) :=
  inferInstanceAs (Decidable (_ ∧ _ ∧ _))

/-- A loop whose body opens and closes a file. -/
def fileLoop : CallableCfg where
  owner := ⟨"main"⟩
  entry := ⟨⟨"a"⟩⟩
  blocks := ⟨[namedBlock "a" (.goto ⟨⟨"ah"⟩⟩), namedBlock "b" (.goto ⟨⟨"bh"⟩⟩),
    namedBlock "h" (.branch ⟨"h."⟩ ⟨⟨"hb"⟩⟩ ⟨⟨"hr"⟩⟩), namedBlock "r" (.return_ none true)]⟩
  edges := ⟨[namedEdge "ah" "a" "h" .fallthrough, namedEdge "bh" "b" "h" .backedge,
    namedEdge "hb" "h" "b" .loopBody, namedEdge "hr" "h" "r" .loopExit]⟩
  reachable := ⟨[⟨⟨"a"⟩⟩, ⟨⟨"b"⟩⟩, ⟨⟨"h"⟩⟩, ⟨⟨"r"⟩⟩]⟩

def fileLoopActions : List CanonicalResourceAction :=
  [fileAction .introduce "b" none none, fileAction .drop "b" none none]

theorem fileLoop_structured : LoopStructured fileLoop where
  entry := by decide
  acyclic := ⟨fun block => if block = ⟨⟨"a"⟩⟩ then 0 else if block = ⟨⟨"h"⟩⟩ then 1 else 2, by decide⟩
  covered := by decide

theorem analyzed_paths_consume_once_loop :
    ∃ holdings,
      exec (pathActions fileLoop fileLoopActions fileLoop.entry
        (["ah", "hb", "bh", "hr"].filterMap fun name => fileLoop.edge ⟨⟨name⟩⟩)) noHoldings
          = some holdings ∧
      (∀ r, holdings r ≠ .available) ∧
      [fileAction .drop "b" none none].countP (discharges file) = 1 := by
  have accepted : Accepted fileLoop fileLoopActions := by decide
  obtain ⟨result, analyzed, ok⟩ := Option.map_eq_some_iff.mp accepted.2
  cases result with
  | error errors => cases ok
  | ok analysis =>
      have path : Path fileLoop fileLoop.entry
          (["ah", "hb", "bh", "hr"].filterMap fun name => fileLoop.edge ⟨⟨name⟩⟩) ⟨⟨"r"⟩⟩ :=
        path_of_walk (by decide)
      have found : fileLoop.block ⟨⟨"r"⟩⟩ = some (namedBlock "r" (.return_ none true)).2 := rfl
      obtain ⟨holdings, ran, settled, once⟩ := analyzed_paths_consume_once accepted.1
        fileLoop_structured analyzed path found rfl
      refine ⟨holdings, ran, fun r => settled r (SortedSet.not_mem_empty r), ?_⟩
      exact once file [] (fileAction .introduce "b" none none) _ [] (by decide) (by decide)
        (by decide) (.inl ⟨rfl, SortedSet.not_mem_empty _⟩)

/-- A callable of one block that returns. -/
def oneBlock : CallableCfg where
  owner := ⟨"main"⟩
  entry := ⟨⟨"a"⟩⟩
  blocks := ⟨[namedBlock "a" (.return_ none true)]⟩
  edges := ⟨[]⟩
  reachable := ⟨[⟨⟨"a"⟩⟩]⟩

/-- The entry is the header of a loop. -/
def loopEntry : CallableCfg where
  owner := ⟨"main"⟩
  entry := ⟨⟨"a"⟩⟩
  blocks := ⟨[namedBlock "a" (.branch ⟨"a."⟩ ⟨⟨"aa"⟩⟩ ⟨⟨"ar"⟩⟩), namedBlock "r" (.return_ none true)]⟩
  edges := ⟨[namedEdge "aa" "a" "a" .backedge, namedEdge "ar" "a" "r" .fallthrough]⟩
  reachable := ⟨[⟨⟨"a"⟩⟩, ⟨⟨"r"⟩⟩]⟩

/-- The block `b` waits for `c`, which is reached from `b` alone, over an edge of the given kind. -/
def waiting (kind : EdgeKind) : CallableCfg where
  owner := ⟨"main"⟩
  entry := ⟨⟨"a"⟩⟩
  blocks := ⟨[namedBlock "a" (.branch ⟨"a."⟩ ⟨⟨"ab"⟩⟩ ⟨⟨"ar"⟩⟩),
    namedBlock "b" (.match_ ⟨"b."⟩ [⟨⟨"bc"⟩⟩, ⟨⟨"bd"⟩⟩, ⟨⟨"br"⟩⟩]),
    namedBlock "c" (.goto ⟨⟨"cb"⟩⟩), namedBlock "d" .unreachable,
    namedBlock "r" (.return_ none true)]⟩
  edges := ⟨[namedEdge "ab" "a" "b" .then_, namedEdge "ar" "a" "r" .else_,
    namedEdge "bc" "b" "c" kind, namedEdge "bd" "b" "d" .matchArm,
    namedEdge "br" "b" "r" .continue_, namedEdge "cb" "c" "b" .fallthrough]⟩
  reachable := ⟨[⟨⟨"a"⟩⟩, ⟨⟨"b"⟩⟩, ⟨⟨"c"⟩⟩, ⟨⟨"d"⟩⟩, ⟨⟨"r"⟩⟩]⟩

/-- What the analysis accepts: a drop of a file that nobody opened; a second drop after a move to a
target; a second drop after one on an edge; two drops around a loop whose header is the entry; a file
left open in a block that is never evaluated, because it waits for itself or because it waits for a
block that is reached from it over a loop-carried edge alone. -/
theorem analysis_accepts :
    AcceptedRun oneBlock [fileAction .drop "a" none none] [] [fileAction .drop "a" none none] ∧
    (∃ place, AcceptedRun oneBlock
      [fileAction .introduce "a" none none, fileAction .move "a" (some place) none,
        fileAction .drop "a" none none] []
      [fileAction .introduce "a" none none, fileAction .move "a" (some place) none,
        fileAction .drop "a" none none]) ∧
    AcceptedRun loopEntry
      [fileAction .introduce "a" none none, fileAction .drop "a" none (some ⟨⟨"ar"⟩⟩),
        fileAction .drop "r" none none] ["ar"]
      [fileAction .introduce "a" none none, fileAction .drop "r" none none] ∧
    AcceptedRun loopEntry [fileAction .drop "a" none none] ["aa", "ar"]
      [fileAction .drop "a" none none, fileAction .drop "a" none none] ∧
    ∀ kind ∈ [EdgeKind.fallthrough, .backedge],
      AcceptedRun (waiting kind) [fileAction .introduce "b" none none] ["ab", "br"]
        [fileAction .introduce "b" none none] := by
  refine ⟨?_, ⟨⟨⟨⟨"f"⟩⟩, "f", []⟩, ?_⟩, ?_, ?_, ?_⟩
  all_goals decide

end Mimi.Cfg
