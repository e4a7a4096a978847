/-
Module: Mimi.Proofs.JoinDiagnostics
Purpose: When the join of the states of the predecessors of a block reports a resource.  It compares whole
  facts, the span of the introduction included, so it also reports a resource of which the states say the
  same but for where it was introduced.
Trusted boundary: none
-/
import Mimi.Lib.ChaoticIteration
import Mimi.Proofs.ResourceFlow

namespace Mimi.Cfg

open Mimi.Core Mimi.Lib

variable (cfg : CallableCfg) (block : BasicBlockId)

/-! ### The reports of a join, with their resources -/

/-- What a join of the facts of the given resources reports, each with its resource. -/
def resourceReports (right : SortedMap ResourceId ResourceFact) :
    List ResourceId → SortedMap ResourceId ResourceFact → List (ResourceId × Diagnostic)
  | [], _ => []
  | id :: ids, joined =>
      let (fact, errors) := joinFact cfg block id (joined.find? id) (right.find? id)
      let joined := match fact with
        | some fact => joined.insert id fact
        | none => joined
      errors.map (id, ·) ++ resourceReports right ids joined

def stateReports (joined state : FlowState) : List (ResourceId × Diagnostic) :=
  let ids := SortedSet.empty.insertAll (joined.resources.keys ++ state.resources.keys)
  resourceReports cfg block state.resources ids.elems joined.resources

def allReports : List FlowState → FlowState → List (ResourceId × Diagnostic)
  | [], _ => []
  | state :: states, joined =>
      stateReports cfg block joined state ++ allReports states (joinStates cfg block joined state).1

/-- What the join of the predecessors of a block reports, each with its resource. -/
def joinReports (out : BasicBlockId → Option FlowState) (actions : List CanonicalResourceAction) :
    List (ResourceId × Diagnostic) :=
  match predecessorStates cfg block out actions with
  | [] => []
  | first :: rest => allReports cfg block rest first

theorem joinResources_reports (right : SortedMap ResourceId ResourceFact) (ids : List ResourceId)
    (joined : SortedMap ResourceId ResourceFact) :
    (joinResources cfg block right ids joined).2 = (resourceReports cfg block right ids joined).map Prod.snd := by
  induction ids generalizing joined with
  | nil => rfl
  | cons id ids ih =>
      simp only [joinResources, resourceReports, List.map_append, List.map_map, ih]
      exact congrArg (· ++ _) (List.map_id _).symm

theorem joinAll_reports (states : List FlowState) (joined : FlowState) :
    (joinAll cfg block states joined).2 = (allReports cfg block states joined).map Prod.snd := by
  induction states generalizing joined with
  | nil => rfl
  | cons state states ih =>
      simp only [joinAll, allReports, List.map_append, ih]
      exact congrArg (· ++ _) (joinResources_reports cfg block _ _ _)

/-- The diagnostics of a join are those of its reports. -/
theorem joinPredecessors_reports (out : BasicBlockId → Option FlowState) (actions : List CanonicalResourceAction) :
    (joinPredecessors cfg block out actions).2 = (joinReports cfg block out actions).map Prod.snd := by
  rw [joinPredecessors, joinReports]
  cases predecessorStates cfg block out actions with
  | nil => rfl
  | cons first rest => exact joinAll_reports cfg block rest first

variable {cfg block}

/-! ### States of the analysis -/

/-- A resource that is consumed has no owner. -/
def TidyFact (fact : ResourceFact) : Prop := fact.availability = .consumed → fact.owner = none

def Tidy (state : FlowState) : Prop := ∀ r fact, state.resources.find? r = some fact → TidyFact fact

theorem tidy_default : Tidy .default := fun _ _ known => by cases known

variable {state : FlowState}

theorem Tidy.insert (tidy : Tidy state) {id : ResourceId} {fact : ResourceFact}
    (new : TidyFact fact) {loans : SortedSet LoanId} : Tidy ⟨state.resources.insert id fact, loans⟩ := by
  intro r found known
  rw [SortedMap.find?_insert] at known
  split_ifs at known
  · exact Option.some.inj known ▸ new
  · exact tidy r found known

theorem tidy_consume (tidy : Tidy state) (action : CanonicalResourceAction) (loans : LoanCatalog)
    (message : String) (target : Option Place) : Tidy (consume action state loans message target).1 := by
  refine tidy.insert ?_
  cases target with
  | none => exact fun _ => rfl
  | some place => exact fun consumed => by cases consumed

theorem tidy_transfer (tidy : Tidy state) (loans : LoanCatalog)
    (action : CanonicalResourceAction) : Tidy (transfer loans action state).1 := by
  rw [transfer]
  cases action.kind with
  | read | write | transferSession => exact tidy
  | introduce => exact tidy.insert fun consumed => by cases consumed
  | move | drop | return_ | transferChild => exact tidy_consume tidy action loans _ _
  | borrowShared | borrowMut =>
      dsimp only
      split
      · exact tidy
      · split
        · exact tidy
        · exact tidy
  | borrowEnd =>
      dsimp only
      split
      · exact tidy
      · split
        · exact tidy
        · exact tidy

theorem tidy_transferAll (tidy : Tidy state) (loans : LoanCatalog)
    (actions : List CanonicalResourceAction) : Tidy (transferAll loans actions state).1 := by
  induction actions generalizing state with
  | nil => exact tidy
  | cons action actions ih => exact ih (tidy_transfer tidy loans action)

variable {resource : ResourceId}

/-- A fact of one side alone stays as it is. -/
theorem joinFact_one_side {fact : ResourceFact} (tidy : TidyFact fact) :
    joinFact cfg block resource (some fact) none = (some fact, []) ∧
      joinFact cfg block resource none (some fact) = (some fact, []) := by
  obtain ⟨availability, owner, span⟩ := fact
  cases availability with
  | available | maybeConsumed => exact ⟨rfl, rfl⟩
  | consumed =>
      obtain rfl : owner = none := tidy rfl
      exact ⟨rfl, rfl⟩

/-- Two facts that differ are reported. -/
theorem joinFact_differ {left right : ResourceFact} (differ : left ≠ right) :
    joinFact cfg block resource (some left) (some right) =
      (some ⟨.maybeConsumed, if left.owner = right.owner then left.owner else none,
        left.introducedSpan.or right.introducedSpan⟩, [incompatibleJoin cfg block resource left right]) := by
  rw [joinFact, if_neg differ]

theorem joinFact_same (fact : ResourceFact) :
    joinFact cfg block resource (some fact) (some fact) = (some fact, []) := by
  rw [joinFact, if_pos rfl]

theorem joinFact_eq_none {left right : Option ResourceFact}
    (none_ : (joinFact cfg block resource left right).1 = none) : left = none := by
  cases left with
  | none => rfl
  | some left =>
      cases right with
      | none => cases none_
      | some right =>
          rw [joinFact] at none_
          split_ifs at none_

/-- The facts after the join of one resource. -/
def joinOne (cfg : CallableCfg) (block : BasicBlockId) (right joined : SortedMap ResourceId ResourceFact)
    (id : ResourceId) : SortedMap ResourceId ResourceFact :=
  match (joinFact cfg block id (joined.find? id) (right.find? id)).1 with
  | some fact => joined.insert id fact
  | none => joined

theorem find?_joinOne (right joined : SortedMap ResourceId ResourceFact) (id r : ResourceId) :
    (joinOne cfg block right joined id).find? r =
      if r = id then (joinFact cfg block id (joined.find? id) (right.find? id)).1 else joined.find? r := by
  rw [joinOne]
  cases fact : (joinFact cfg block id (joined.find? id) (right.find? id)).1 with
  | none =>
      by_cases same : r = id
      · rw [if_pos same, same]
        exact joinFact_eq_none fact
      · rw [if_neg same]
  | some fact => exact SortedMap.find?_insert ..

theorem joinResources_cons (right joined : SortedMap ResourceId ResourceFact) (id : ResourceId)
    (ids : List ResourceId) : (joinResources cfg block right (id :: ids) joined).1 =
      (joinResources cfg block right ids (joinOne cfg block right joined id)).1 := rfl

theorem resourceReports_cons (right joined : SortedMap ResourceId ResourceFact) (id : ResourceId)
    (ids : List ResourceId) : resourceReports cfg block right (id :: ids) joined =
      (joinFact cfg block id (joined.find? id) (right.find? id)).2.map (id, ·) ++
        resourceReports cfg block right ids (joinOne cfg block right joined id) := rfl

/-- The fact of a resource after a join. -/
theorem find?_joinResources {right : SortedMap ResourceId ResourceFact} {ids : List ResourceId} (nodup : ids.Nodup)
    (joined : SortedMap ResourceId ResourceFact) (r : ResourceId) :
    (joinResources cfg block right ids joined).1.find? r =
      if r ∈ ids then (joinFact cfg block r (joined.find? r) (right.find? r)).1 else joined.find? r := by
  induction ids generalizing joined with
  | nil => rfl
  | cons id ids ih =>
      obtain ⟨fresh, nodup⟩ := List.nodup_cons.mp nodup
      rw [joinResources_cons, ih nodup, find?_joinOne]
      by_cases same : r = id
      · subst same
        rw [if_neg fresh, if_pos rfl, if_pos List.mem_cons_self]
      · rw [if_neg same]
        simp [same]

/-- A resource is reported when its facts are. -/
theorem mem_resourceReports {right : SortedMap ResourceId ResourceFact} {ids : List ResourceId} (nodup : ids.Nodup)
    (joined : SortedMap ResourceId ResourceFact) (r : ResourceId) :
    r ∈ (resourceReports cfg block right ids joined).map Prod.fst ↔
      r ∈ ids ∧ (joinFact cfg block r (joined.find? r) (right.find? r)).2 ≠ [] := by
  induction ids generalizing joined with
  | nil => simp [resourceReports]
  | cons id ids ih =>
      obtain ⟨fresh, nodup⟩ := List.nodup_cons.mp nodup
      rw [resourceReports_cons, List.map_append, List.mem_append, ih nodup, find?_joinOne, List.mem_cons]
      have first : r ∈ ((joinFact cfg block id (joined.find? id) (right.find? id)).2.map (id, ·)).map Prod.fst ↔
          r = id ∧ (joinFact cfg block id (joined.find? id) (right.find? id)).2 ≠ [] := by
        cases (joinFact cfg block id (joined.find? id) (right.find? id)).2 with
        | nil => simp
        | cons error errors =>
            simp only [List.map_cons, List.mem_cons, List.mem_map, ne_eq, reduceCtorEq, not_false_eq_true,
              and_true]
            constructor
            · rintro (here | ⟨_, ⟨_, -, rfl⟩, here⟩)
              · exact here
              · exact here.symm
            · exact .inl
      rw [first]
      by_cases same : r = id
      · subst same
        simp [fresh]
      · simp [same]

/-! ### The facts of a resource -/

/-- What the states know of a resource. -/
def factsOf (states : List FlowState) (r : ResourceId) : List ResourceFact :=
  states.filterMap fun state => state.resources.find? r

theorem joinIds_nodup (joined state : FlowState) :
    (SortedSet.empty.insertAll (joined.resources.keys ++ state.resources.keys)).elems.Nodup :=
  (SortedSet.sorted_empty.insertAll _).nodup

variable {joined : FlowState} {r : ResourceId}

/-- A resource that neither side knows is not listed. -/
theorem mem_joinIds :
    r ∈ (SortedSet.empty.insertAll (joined.resources.keys ++ state.resources.keys)).elems ↔
      (joined.resources.find? r).isSome ∨ (state.resources.find? r).isSome := by
  rw [← SortedSet.mem_def, SortedSet.mem_insertAll, List.mem_append, SortedMap.mem_keys_iff, SortedMap.mem_keys_iff]
  simp

theorem find?_joinStates (joined state : FlowState) (r : ResourceId) :
    (joinStates cfg block joined state).1.resources.find? r =
      (joinFact cfg block r (joined.resources.find? r) (state.resources.find? r)).1 := by
  refine (find?_joinResources (joinIds_nodup joined state) joined.resources r).trans ?_
  split_ifs with listed
  · rfl
  · rw [mem_joinIds, not_or, Option.not_isSome_iff_eq_none, Option.not_isSome_iff_eq_none] at listed
    rw [listed.1, listed.2]
    rfl

theorem mem_stateReports :
    r ∈ (stateReports cfg block joined state).map Prod.fst ↔
      (joinFact cfg block r (joined.resources.find? r) (state.resources.find? r)).2 ≠ [] := by
  refine (mem_resourceReports (joinIds_nodup joined state) joined.resources r).trans ?_
  refine and_iff_right_of_imp fun some_ => mem_joinIds.mpr ?_
  by_contra unknown
  rw [not_or, Option.not_isSome_iff_eq_none, Option.not_isSome_iff_eq_none] at unknown
  rw [unknown.1, unknown.2] at some_
  exact some_ rfl

/-- A join of tidy states is tidy. -/
theorem tidy_joinStates (tidy : Tidy joined) (tidy' : Tidy state) :
    Tidy (joinStates cfg block joined state).1 := by
  intro r fact known
  rw [find?_joinStates] at known
  cases left : joined.resources.find? r with
  | none =>
      cases right : state.resources.find? r with
      | none =>
          rw [left, right] at known
          cases known
      | some g =>
          rw [left, right, (joinFact_one_side (tidy' r g right)).2] at known
          exact Option.some.inj known ▸ tidy' r g right
  | some f =>
      cases right : state.resources.find? r with
      | none =>
          rw [left, right, (joinFact_one_side (tidy r f left)).1] at known
          exact Option.some.inj known ▸ tidy r f left
      | some g =>
          rw [left, right] at known
          by_cases same : f = g
          · rw [same, joinFact_same] at known
            exact Option.some.inj known ▸ tidy' r g right
          · rw [joinFact_differ same] at known
            exact Option.some.inj known ▸ fun consumed => by cases consumed

variable {states : List FlowState}

theorem tidy_joinAll (tidy : Tidy joined)
    (all : ∀ state ∈ states, Tidy state) : Tidy (joinAll cfg block states joined).1 := by
  induction states generalizing joined with
  | nil => exact tidy
  | cons state states ih =>
      exact ih (tidy_joinStates tidy (all state List.mem_cons_self)) fun s member =>
        all s (List.mem_cons_of_mem state member)

theorem factsOf_cons (state : FlowState) (states : List FlowState) (r : ResourceId) :
    factsOf (state :: states) r = (state.resources.find? r).toList ++ factsOf states r := by
  rw [factsOf, List.filterMap_cons]
  cases state.resources.find? r <;> rfl

/-- A resource is reported exactly when the facts of tidy states are not all the same. -/
theorem mem_allReports (tidy : Tidy joined) (all : ∀ state ∈ states, Tidy state) (r : ResourceId) :
    r ∈ (allReports cfg block states joined).map Prod.fst ↔
      ∃ f ∈ factsOf (joined :: states) r, ∃ g ∈ factsOf (joined :: states) r, f ≠ g := by
  induction states generalizing joined with
  | nil =>
      refine iff_of_false List.not_mem_nil ?_
      rintro ⟨f, known, g, known', differ⟩
      simp only [factsOf, List.mem_filterMap, List.mem_singleton, exists_eq_left] at known known'
      exact differ (Option.some.inj (known.symm.trans known'))
  | cons state states ih =>
      have here := all state List.mem_cons_self
      have next : Tidy (joinStates cfg block joined state).1 := tidy_joinStates tidy here
      have rest := ih next fun s member => all s (List.mem_cons_of_mem state member)
      rw [allReports, List.map_append, List.mem_append, mem_stateReports, rest]
      simp only [factsOf_cons, find?_joinStates]
      cases left : joined.resources.find? r with
      | none =>
          cases right : state.resources.find? r with
          | none => exact or_iff_right (not_not.mpr rfl)
          | some g =>
              rw [(joinFact_one_side (here r g right)).2]
              exact or_iff_right (not_not.mpr rfl)
      | some f =>
          cases right : state.resources.find? r with
          | none =>
              rw [(joinFact_one_side (tidy r f left)).1]
              exact or_iff_right (not_not.mpr rfl)
          | some g =>
              by_cases same : f = g
              · subst same
                rw [joinFact_same]
                refine (or_iff_right (not_not.mpr rfl)).trans ?_
                simp
              · rw [joinFact_differ same]
                refine iff_of_true (.inl (List.cons_ne_nil _ _)) ⟨f, ?_, g, ?_, same⟩ <;> simp

/-! ### Runs of the analysis -/

variable {out : BasicBlockId → Option FlowState}

section Run

variable {actions : List CanonicalResourceAction} {loans : LoanCatalog}

theorem tidy_predecessorStates (tidy : ∀ id state, out id = some state → Tidy state) :
    ∀ state ∈ predecessorStates cfg block out actions, Tidy state := by
  intro state member
  obtain ⟨edge, -, along⟩ := List.mem_filterMap.mp member
  obtain ⟨before, known, rfl⟩ := Option.map_eq_some_iff.mp along
  exact tidy edge.from_ before known

theorem tidy_joinPredecessors
    (tidy : ∀ id state, out id = some state → Tidy state) : Tidy (joinPredecessors cfg block out actions).1 := by
  have all : ∀ state ∈ predecessorStates cfg block out actions, Tidy state := tidy_predecessorStates tidy
  rw [joinPredecessors]
  cases states : predecessorStates cfg block out actions with
  | nil => exact tidy_default
  | cons first rest =>
      rw [states] at all
      exact tidy_joinAll (all first List.mem_cons_self) fun state member => all state (List.mem_cons_of_mem first member)

theorem tidy_evalBlock (tidy : ∀ id state, out id = some state → Tidy state) :
    Tidy (evalBlock cfg actions loans out block).1.outgoing := by
  have incoming : Tidy (if block = cfg.entry then (FlowState.default, [])
      else joinPredecessors cfg block out actions).1 := by
    split_ifs
    · exact tidy_default
    · exact tidy_joinPredecessors tidy
  exact tidy_transferAll incoming loans (blockActions cfg actions block)

/-- All states that the analysis has at any time are tidy. -/
theorem rounds_tidy {k : Nat} {start s : Solver.State BasicBlockId BlockFlow Diagnostic}
    (rounds : Solver.Rounds (resourceSolver cfg actions loans) k start s) (fresh : ∀ id, start.values id = none) :
    ∀ id state, outgoing s.values id = some state → Tidy state := by
  induction rounds with
  | zero => exact fun id state known => by simp [outgoing, fresh] at known
  | @succ k start s' s before round ih =>
      have tidy := ih fresh
      obtain @⟨front, n, back, queue⟩ := round
      by_cases ready : (resourceSolver cfg actions loans).ready s'.values n = true
      · rw [Solver.visit_ready ready]
        intro id state known
        by_cases same : id = n
        · subst same
          simp only [outgoing, Function.update_self] at known
          exact Option.some.inj known ▸ tidy_evalBlock tidy
        · simp only [outgoing, Function.update_of_ne same] at known
          exact tidy id state known
      · rw [Solver.visit_notReady ready]
        exact tidy

end Run

/-! ### When the join is exact -/

/-- The join of the predecessors reports the resource. -/
def Reported (cfg : CallableCfg) (block : BasicBlockId) (out : BasicBlockId → Option FlowState)
    (actions : List CanonicalResourceAction) (r : ResourceId) : Prop :=
  r ∈ (joinReports cfg block out actions).map Prod.fst

/-- Two states disagree on whether the resource is available, or on who owns it. -/
def Disagree (states : List FlowState) (r : ResourceId) : Prop :=
  ∃ f ∈ factsOf states r, ∃ g ∈ factsOf states r, f.availability ≠ g.availability ∨ f.owner ≠ g.owner

/-- The states agree on where the resource was introduced. -/
def SameIntroduction (states : List FlowState) (r : ResourceId) : Prop :=
  ∀ f ∈ factsOf states r, ∀ g ∈ factsOf states r, f.introducedSpan = g.introducedSpan

/-- What is reported is what the states say different things of. -/
theorem reported_iff_differ {actions : List CanonicalResourceAction}
    (tidy : ∀ id state, out id = some state → Tidy state) (r : ResourceId) :
    Reported cfg block out actions r ↔
      ∃ f ∈ factsOf (predecessorStates cfg block out actions) r,
        ∃ g ∈ factsOf (predecessorStates cfg block out actions) r, f ≠ g := by
  have all : ∀ state ∈ predecessorStates cfg block out actions, Tidy state := tidy_predecessorStates tidy
  rw [Reported, joinReports]
  cases states : predecessorStates cfg block out actions with
  | nil => simp [factsOf]
  | cons first rest =>
      rw [states] at all
      exact mem_allReports (all first List.mem_cons_self)
        (fun state member => all state (List.mem_cons_of_mem first member)) r

theorem Disagree.differ (disagree : Disagree states r) :
    ∃ f ∈ factsOf states r, ∃ g ∈ factsOf states r, f ≠ g := by
  obtain ⟨f, known, g, known', apart⟩ := disagree
  refine ⟨f, known, g, known', fun same => ?_⟩
  subst same
  exact apart.elim (fun h => h rfl) fun h => h rfl

/-- At every time of the analysis, for every block and every resource: the join reports the resource exactly when
two states disagree on it, if and only if two of them do or all agree on where it was introduced. -/
theorem joins_exact_iff {cfg : CallableCfg} {actions : List CanonicalResourceAction} {loans : LoanCatalog}
    {k : Nat} {s : Solver.State BasicBlockId BlockFlow Diagnostic}
    (rounds : Solver.Rounds (resourceSolver cfg actions loans) k ⟨fun _ => none, [cfg.entry], []⟩ s)
    (block : BasicBlockId) (r : ResourceId) :
    (Reported cfg block (outgoing s.values) actions r ↔
      Disagree (predecessorStates cfg block (outgoing s.values) actions) r) ↔
    Disagree (predecessorStates cfg block (outgoing s.values) actions) r ∨
      SameIntroduction (predecessorStates cfg block (outgoing s.values) actions) r := by
  rw [reported_iff_differ (rounds_tidy rounds fun _ => rfl)]
  generalize predecessorStates cfg block (outgoing s.values) actions = states
  constructor
  · intro exact_
    by_cases disagree : Disagree states r
    · exact .inl disagree
    · refine .inr fun f known g known' => ?_
      by_contra apart
      exact disagree (exact_.mp ⟨f, known, g, known', fun same => apart (congrArg _ same)⟩)
  · rintro (disagree | same)
    · exact iff_of_true disagree.differ disagree
    · refine ⟨?_, Disagree.differ⟩
      rintro ⟨f, known, g, known', differ⟩
      refine ⟨f, known, g, known', ?_⟩
      by_contra agree
      rw [not_or, not_not, not_not] at agree
      have span := same f known g known'
      obtain ⟨availability, owner, _⟩ := f
      obtain ⟨availability', owner', _⟩ := g
      obtain ⟨rfl, rfl⟩ := agree
      exact differ (congrArg _ span)

/-! ### A branch that drops a file on both sides -/

/-- Two arms, and what comes behind them. -/
def diamond : CallableCfg where
  owner := ⟨"main"⟩
  entry := ⟨⟨"a"⟩⟩
  blocks := ⟨[namedBlock "a" (.branch ⟨"a."⟩ ⟨⟨"at"⟩⟩ ⟨⟨"ae"⟩⟩), namedBlock "e" (.goto ⟨⟨"er"⟩⟩),
    namedBlock "r" (.return_ none true), namedBlock "t" (.goto ⟨⟨"tr"⟩⟩)]⟩
  edges := ⟨[namedEdge "ae" "a" "e" .else_, namedEdge "at" "a" "t" .then_,
    namedEdge "er" "e" "r" .fallthrough, namedEdge "tr" "t" "r" .fallthrough]⟩
  reachable := ⟨[⟨⟨"a"⟩⟩, ⟨⟨"e"⟩⟩, ⟨⟨"r"⟩⟩, ⟨⟨"t"⟩⟩]⟩

/-- A drop of the file in a block, on a line. -/
def dropOn (block : String) (line : Nat) : CanonicalResourceAction :=
  { fileAction .drop block none none with span := ⟨0, line, 5, line, 12⟩ }

/-- Both arms drop a file that no action introduced. -/
def dropBoth : List CanonicalResourceAction := [dropOn "t" 2, dropOn "e" 4]

instance (states : List FlowState) (r : ResourceId) : Decidable (Disagree states r) :=
  inferInstanceAs (Decidable (∃ f ∈ factsOf states r, ∃ g ∈ factsOf states r,
    f.availability ≠ g.availability ∨ f.owner ≠ g.owner))

instance (cfg : CallableCfg) (block : BasicBlockId) (out : BasicBlockId → Option FlowState)
    (actions : List CanonicalResourceAction) (r : ResourceId) : Decidable (Reported cfg block out actions r) :=
  inferInstanceAs (Decidable (r ∈ (joinReports cfg block out actions).map Prod.fst))

/-- The states of the arms agree on the file, and are reported. -/
theorem joins_not_exact : ∃ k s,
    Solver.Rounds (resourceSolver diamond dropBoth .empty) k ⟨fun _ => none, [diamond.entry], []⟩ s ∧
    validateCfg 20 diamond = some (.ok ()) ∧ (⟨⟨"r"⟩⟩ : BasicBlockId) ∈ diamond.reachable ∧
    (predecessorStates diamond ⟨⟨"r"⟩⟩ (outgoing s.values) dropBoth).length = 2 ∧
    ¬(Reported diamond ⟨⟨"r"⟩⟩ (outgoing s.values) dropBoth file ↔
      Disagree (predecessorStates diamond ⟨⟨"r"⟩⟩ (outgoing s.values) dropBoth) file) := by
  have seen : ((resourceSolver diamond dropBoth .empty).run 20 ⟨fun _ => none, [diamond.entry], []⟩).map
      (fun s => decide ((predecessorStates diamond ⟨⟨"r"⟩⟩ (outgoing s.values) dropBoth).length = 2 ∧
        ¬(Reported diamond ⟨⟨"r"⟩⟩ (outgoing s.values) dropBoth file ↔
          Disagree (predecessorStates diamond ⟨⟨"r"⟩⟩ (outgoing s.values) dropBoth) file))) = some true := by
    decide
  obtain ⟨s, ran, holds⟩ := Option.map_eq_some_iff.mp seen
  obtain ⟨⟨k, rounds⟩, -⟩ := Solver.rounds_of_run ran
  obtain ⟨both, differs⟩ := of_decide_eq_true holds
  exact ⟨k, s, rounds, by decide, by decide, both, differs⟩

theorem joins_exact_iff_diamond : ∃ k s,
    Solver.Rounds (resourceSolver diamond dropBoth .empty) k ⟨fun _ => none, [diamond.entry], []⟩ s ∧
    (predecessorStates diamond ⟨⟨"r"⟩⟩ (outgoing s.values) dropBoth).length = 2 ∧
    ((Reported diamond ⟨⟨"r"⟩⟩ (outgoing s.values) dropBoth file ↔
        Disagree (predecessorStates diamond ⟨⟨"r"⟩⟩ (outgoing s.values) dropBoth) file) ↔
      Disagree (predecessorStates diamond ⟨⟨"r"⟩⟩ (outgoing s.values) dropBoth) file ∨
        SameIntroduction (predecessorStates diamond ⟨⟨"r"⟩⟩ (outgoing s.values) dropBoth) file) := by
  have seen : ((resourceSolver diamond dropBoth .empty).run 20 ⟨fun _ => none, [diamond.entry], []⟩).map
      (fun s => (predecessorStates diamond ⟨⟨"r"⟩⟩ (outgoing s.values) dropBoth).length) = some 2 := by
    decide
  obtain ⟨s, ran, both⟩ := Option.map_eq_some_iff.mp seen
  obtain ⟨⟨k, rounds⟩, -⟩ := Solver.rounds_of_run ran
  exact ⟨k, s, rounds, both, joins_exact_iff rounds ⟨⟨"r"⟩⟩ file⟩

end Mimi.Cfg
