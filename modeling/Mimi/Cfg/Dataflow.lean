/-
Module: Mimi.Cfg.Dataflow
Purpose: The resource analysis of a callable: backward liveness of binding names, the points and edges
  where loans end, and the forward analysis of resources and active loans with its checks.  The two
  worklist loops take a fuel; running out of it is not returning.
Trusted boundary: human-reviewed translation of `src/core/cfg/dataflow.rs`
-/
import Mimi.Cfg.Graph
import Mimi.Lib.Worklist

namespace Mimi.Cfg

open Mimi.Core Mimi.Lib

/-! ### Liveness -/

/-- The live names at the start and at the end of a block. -/
structure LiveSets where
  liveIn : SortedSet String
  liveOut : SortedSet String
deriving DecidableEq, Repr

/-- What the blocks have live, as far as it is known. -/
abbrev Liveness := BasicBlockId → Option LiveSets

/-- The names live before a point, from those live after it. -/
def livePoint (point : CfgPoint) (after : SortedSet String) : SortedSet String :=
  (after.filter fun name => name ∉ point.defs).insertAll point.uses

def liveTransfer (cfg : CallableCfg) (block : BasicBlockId) (out : SortedSet String) :
    SortedSet String :=
  match cfg.block block with
  | none => out
  | some block => block.points.foldr livePoint out

/-- The names live at the start of the blocks that edges lead to. -/
def liveAlong (live : Liveness) (edges : List CfgEdge) : SortedSet String :=
  edges.foldl (fun out edge =>
    match live edge.to_ with
    | none => out
    | some sets => out.union sets.liveIn) .empty

def livenessSolver (cfg : CallableCfg) : Solver BasicBlockId LiveSets (SortedSet String) Empty where
  ready _ _ := true
  eval live block :=
    let liveOut := liveAlong live
      ((cfg.successors block).filter fun edge => edge.to_ ∈ cfg.reachable)
    (⟨liveTransfer cfg block liveOut, liveOut⟩, [])
  view := LiveSets.liveIn
  dependents block :=
    ((cfg.predecessors block).filter fun edge => edge.from_ ∈ cfg.reachable).map CfgEdge.from_

def computeLiveness (fuel : Nat) (cfg : CallableCfg) : Option Liveness :=
  ((livenessSolver cfg).run fuel ⟨fun _ => none, cfg.reachable.elems.reverse, []⟩).map
    Solver.State.values

/-! ### Ends of loans -/

/-- The last point that uses a name, and the points after it. -/
def lastUse (reference : String) : List CfgPoint → Option (CfgPoint × List CfgPoint)
  | [] => none
  | point :: points =>
      match lastUse reference points with
      | some found => some found
      | none => if reference ∈ point.uses then some (point, points) else none

/-- The loan of a reference ends at the last use in a block from whose end the name is not live. -/
def blockEnd (live : Liveness) (reference : String) (blockId : BasicBlockId) (block : BasicBlock) :
    Option CfgLocation :=
  match lastUse reference block.points with
  | none => none
  | some (point, laterPoints) =>
      let afterLastUse := laterPoints.any fun later =>
        reference ∈ later.uses || reference ∈ later.defs
      if ¬ afterLastUse ∧ ¬ (live blockId).any (fun sets => reference ∈ sets.liveOut) then
        some ⟨blockId, point.source.node, none⟩
      else none

/-- It ends on an edge from where the name is live to where it is not. -/
def edgeEnd (cfg : CallableCfg) (live : Liveness) (reference : String)
    (reachableFromStart : SortedSet BasicBlockId) (edge : CfgEdge) : Option CfgLocation :=
  if edge.from_ ∉ reachableFromStart ∨ edge.to_ ∉ cfg.reachable then none
  else
    let sourceLive := (live edge.from_).any fun sets => reference ∈ sets.liveOut
    let targetLive := (live edge.to_).any fun sets => reference ∈ sets.liveIn
    if sourceLive ∧ ¬ targetLive then
      let point := ((cfg.block edge.from_).bind fun block => block.points.getLast?).map
        fun point => point.source.node
      some ⟨edge.from_, point.getD edge.source.node, some edge.id⟩
    else none

/-- A reference that is never used: the loan ends where it is bound. -/
def bindingEnd (cfg : CallableCfg) (reference : String) (start : CfgLocation) : Option CfgLocation :=
  ((cfg.block start.block).bind fun block =>
    (block.points.dropWhile fun point => point.source.node ≠ start.point).find? fun point =>
      reference ∈ point.defs).map fun point => ⟨start.block, point.source.node, none⟩

def livenessEndLocations (fuel : Nat) (cfg : CallableCfg) (reference : String)
    (start : CfgLocation) (live : Liveness) : Option (List CfgLocation) := do
  let reachableFromStart ← reachableFrom fuel cfg start.block
  let atBlocks := reachableFromStart.elems.filterMap fun blockId =>
    (cfg.block blockId).bind (blockEnd live reference blockId)
  let onEdges := cfg.edges.values.filterMap (edgeEnd cfg live reference reachableFromStart)
  let locations := (atBlocks ++ onEdges).foldl
    (fun seen location => if location ∈ seen then seen else seen ++ [location]) []
  some (if locations = [] then (bindingEnd cfg reference start).toList else locations)

/-- The source text of a location. -/
def locationSource (cfg : CallableCfg) (location : CfgLocation) : Span × Origin :=
  match location.edge.bind cfg.edge with
  | some edge => (edge.source.span, edge.source.origin)
  | none =>
      match (cfg.block location.block).bind fun block =>
          block.points.find? fun point => point.source.node = location.point with
      | some point => (point.source.span, point.source.origin)
      | none => (.unknown, .user .unknown)

/-! ### Resources -/

structure FlowState where
  resources : SortedMap ResourceId ResourceFact
  activeLoans : SortedSet LoanId
deriving DecidableEq, Repr

def FlowState.default : FlowState := ⟨.empty, .empty⟩

abbrev LoanCatalog := SortedMap LoanId Loan

def addIntroductionNote (diagnostic : Diagnostic) (fact : ResourceFact) (name : String) :
    Diagnostic :=
  match fact.introducedSpan with
  | some span => diagnostic.withNote ("resource '" ++ name ++ "' introduced here") span
  | none => diagnostic

/-- An action on an available resource names its current owner. -/
def validateActionOwner (action : CanonicalResourceAction) (fact : ResourceFact) :
    List Diagnostic :=
  match fact.availability, fact.owner, action.source with
  | .available, some owner, some source =>
      if owner.base = source.base then []
      else
        [addIntroductionNote
          ((Diagnostic.errorCode "E0304" ("resource '" ++ source.display
            ++ "' cannot be used after it was moved to '" ++ owner.display ++ "'")
            action.span).withHelp "use the binding that currently owns the resource")
          fact source.display]
  | _, _, _ => []

def rejectReadConflicts (action : CanonicalResourceAction) (state : FlowState)
    (loans : LoanCatalog) : List Diagnostic :=
  match action.source with
  | none => []
  | some place =>
      (state.activeLoans.elems.filter fun active => (loans.find? active).any fun loan =>
        loan.kind = .mutable ∧ loan.place.conflictsWith place).map fun _ =>
        .errorCode "E0415" ("cannot read '" ++ place.display ++ "' while it is mutably borrowed")
          action.span

def rejectConflictingLoans (action : CanonicalResourceAction) (state : FlowState)
    (loans : LoanCatalog) : List Diagnostic :=
  match action.source with
  | none => []
  | some place =>
      let operation := if action.kind = .write then "write" else "move or drop"
      (state.activeLoans.elems.filter fun active => (loans.find? active).any fun loan =>
        loan.place.conflictsWith place).map fun _ =>
        .errorCode "E0415" ("cannot " ++ operation ++ " '" ++ place.display
          ++ "' while it is borrowed") action.span

/-- The spelling of the resource that an action consumes. -/
def actionName (action : CanonicalResourceAction) : String :=
  (action.source.map Place.display).getD action.resource.node.val

/-- The fact an action finds: a resource without one is taken to be available. -/
def factOf (action : CanonicalResourceAction) (state : FlowState) : ResourceFact :=
  let fact := (state.resources.find? action.resource).getD
    ⟨.available, action.source, some action.span⟩
  if fact.introducedSpan = none then { fact with introducedSpan := some action.span } else fact

/-- The common part of the arms that consume a resource; `message` is the error for one that is not
available. -/
def consume (action : CanonicalResourceAction) (state : FlowState) (loans : LoanCatalog)
    (message : String) (target : Option Place) : FlowState × List Diagnostic :=
  let fact := factOf action state
  let errors := rejectConflictingLoans action state loans ++
    ((state.resources.find? action.resource).map (validateActionOwner action)).getD [] ++
    if fact.availability ≠ .available then
      [addIntroductionNote (.errorCode "E0304" message action.span) fact (actionName action)]
    else []
  let fact := match target with
    | some place => { fact with availability := .available, owner := some place }
    | none => { fact with availability := .consumed, owner := none }
  ({ state with resources := state.resources.insert action.resource fact }, errors)

/-- The conflict of a new loan with an active one. -/
def borrowConflict (action : CanonicalResourceAction) (newLoan : Loan) (activeId : LoanId)
    (active : Loan) : List Diagnostic :=
  let conflict (code qualifier existing : String) : List Diagnostic :=
    [.errorCode code ("cannot borrow '" ++ newLoan.place.display ++ "' as " ++ qualifier
      ++ " because it is already " ++ existing ++ " borrowed") action.span]
  if newLoan.place.conflictsWith active.place ∧ newLoan.parent ≠ some activeId then
    match newLoan.kind, active.kind with
    | .mutable, .shared => conflict "E0300" "mutable" "immutably"
    | .mutable, .mutable => conflict "E0301" "mutable" "mutably"
    | .shared, .mutable => conflict "E0302" "immutable" "mutably"
    | .shared, .shared => []
  else []

/-- The effect of one action on the facts, with the errors it finds. -/
def transfer (loans : LoanCatalog) (action : CanonicalResourceAction) (state : FlowState) :
    FlowState × List Diagnostic :=
  match action.kind with
  | .read => (state, rejectReadConflicts action state loans)
  | .write => (state, rejectConflictingLoans action state loans)
  | .introduce =>
      let fact := ⟨.available, action.target.or action.source, some action.span⟩
      ({ state with resources := state.resources.insert action.resource fact }, [])
  | .move =>
      consume action state loans
        ("resource '" ++ actionName action ++ "' is moved after it was consumed") action.target
  | .drop | .return_ | .transferChild =>
      consume action state loans
        ("resource '" ++ actionName action ++ "' is consumed more than once on this CFG path") none
  | .transferSession => (state, rejectConflictingLoans action state loans)
  | .borrowShared | .borrowMut =>
      match action.loan with
      | none => (state, [])
      | some newId =>
          match loans.find? newId with
          | none => (state, [])
          | some newLoan =>
              ({ state with activeLoans := state.activeLoans.insert newId },
                state.activeLoans.elems.flatMap fun activeId =>
                  match loans.find? activeId with
                  | none => []
                  | some active => borrowConflict action newLoan activeId active)
  | .borrowEnd =>
      match action.loan with
      | some loan => ({ state with activeLoans := state.activeLoans.erase loan }, [])
      | none =>
          match action.source with
          | none => (state, [])
          | some place =>
              ({ state with activeLoans := state.activeLoans.filter fun loanId =>
                  match loans.find? loanId with
                  | none => true
                  | some loan => ¬ loan.place.conflictsWith place }, [])

/-- The actions of a block one after the other. -/
def transferAll (loans : LoanCatalog) :
    List CanonicalResourceAction → FlowState → FlowState × List Diagnostic
  | [], state => (state, [])
  | action :: actions, state =>
      let (state, errors) := transfer loans action state
      let (state, rest) := transferAll loans actions state
      (state, errors ++ rest)

/-- The place of a point in its block; the block itself comes first. -/
def pointOrder (cfg : CallableCfg) (block : BasicBlockId) (point : NodeId) : Nat :=
  match cfg.block block with
  | none => 2 ^ 64 - 1
  | some block =>
      if block.source.node = point then 0
      else
        match block.points.findIdx? fun candidate => candidate.source.node = point with
        | some position => position + 1
        | none => 2 ^ 64 - 1

def actionRank : CanonicalActionKind → Nat
  | .read => 0
  | .write => 1
  | .borrowEnd => 2
  | .introduce => 3
  | .borrowShared | .borrowMut => 4
  | .move | .drop | .return_ | .transferSession | .transferChild => 5

/-- The order of actions inside a block: by point, then by rank. -/
def actionLe (cfg : CallableCfg) (block : BasicBlockId) (a b : CanonicalResourceAction) : Prop :=
  pointOrder cfg block a.location.point < pointOrder cfg block b.location.point ∨
    pointOrder cfg block a.location.point = pointOrder cfg block b.location.point ∧
      actionRank a.kind ≤ actionRank b.kind

instance (cfg : CallableCfg) (block : BasicBlockId) : DecidableRel (actionLe cfg block) :=
  fun _ _ => inferInstanceAs (Decidable (_ ∨ _))

/-- The actions at the points of a block, in order; the sort is stable. -/
def blockActions (cfg : CallableCfg) (actions : List CanonicalResourceAction)
    (block : BasicBlockId) : List CanonicalResourceAction :=
  (actions.filter fun action => action.location.block = block ∧ action.location.edge = none)
    |>.insertionSort (actionLe cfg block)

/-! ### Joins -/

def incompatibleJoin (cfg : CallableCfg) (block : BasicBlockId) (resource : ResourceId)
    (left right : ResourceFact) : Diagnostic :=
  let name := ((left.owner.or right.owner).map Place.display).getD resource.node.val
  let message :=
    if left.owner ≠ right.owner ∧ left.availability = .available ∧ right.availability = .available
    then "resource '" ++ name ++ "' is moved to incompatible places at a CFG join"
    else "resource '" ++ name ++ "' is consumed on only some reachable CFG paths"
  (Diagnostic.errorCode "E0304" message
    (((cfg.block block).map fun block => block.source.span).getD .unknown)).withHelp
    "move, return, transfer, or drop the resource on every reachable path, or on none"

/-- The fact of a resource after a join, from the facts before; a fact of one side alone stays. -/
def joinFact (cfg : CallableCfg) (block : BasicBlockId) (resource : ResourceId) :
    Option ResourceFact → Option ResourceFact → Option ResourceFact × List Diagnostic
  | some left, some right =>
      if left = right then (some left, [])
      else
        (some ⟨.maybeConsumed, if left.owner = right.owner then left.owner else none,
          left.introducedSpan.or right.introducedSpan⟩,
          [incompatibleJoin cfg block resource left right])
  | some fact, none | none, some fact =>
      (some (match fact.availability with
        | .available => ⟨.available, fact.owner, fact.introducedSpan⟩
        | .consumed => ⟨.consumed, none, fact.introducedSpan⟩
        | .maybeConsumed => ⟨.maybeConsumed, fact.owner, fact.introducedSpan⟩), [])
  | none, none => (none, [])

/-- Join the facts of the given resources. -/
def joinResources (cfg : CallableCfg) (block : BasicBlockId) (right : SortedMap ResourceId ResourceFact) :
    List ResourceId → SortedMap ResourceId ResourceFact →
      SortedMap ResourceId ResourceFact × List Diagnostic
  | [], joined => (joined, [])
  | id :: ids, joined =>
      let (fact, errors) := joinFact cfg block id (joined.find? id) (right.find? id)
      let joined := match fact with
        | some fact => joined.insert id fact
        | none => joined
      let (joined, rest) := joinResources cfg block right ids joined
      (joined, errors ++ rest)

def joinStates (cfg : CallableCfg) (block : BasicBlockId) (joined state : FlowState) :
    FlowState × List Diagnostic :=
  let ids := SortedSet.empty.insertAll (joined.resources.keys ++ state.resources.keys)
  let (resources, errors) := joinResources cfg block state.resources ids.elems joined.resources
  (⟨resources, joined.activeLoans.union state.activeLoans⟩, errors)

def joinAll (cfg : CallableCfg) (block : BasicBlockId) :
    List FlowState → FlowState → FlowState × List Diagnostic
  | [], joined => (joined, [])
  | state :: states, joined =>
      let (joined, errors) := joinStates cfg block joined state
      let (joined, rest) := joinAll cfg block states joined
      (joined, errors ++ rest)

/-- The state at the end of an edge: the loans that end on it are gone. -/
def alongEdge (actions : List CanonicalResourceAction) (edge : CfgEdge) (state : FlowState) :
    FlowState :=
  let ended := actions.filterMap fun action =>
    if action.kind = .borrowEnd ∧ action.location.edge = some edge.id then action.loan else none
  { state with activeLoans := ended.foldl SortedSet.erase state.activeLoans }

/-- The states that predecessors hand to a block, as far as they are known. -/
def predecessorStates (cfg : CallableCfg) (block : BasicBlockId)
    (out : BasicBlockId → Option FlowState) (actions : List CanonicalResourceAction) :
    List FlowState :=
  ((cfg.predecessors block).filter fun edge => edge.from_ ∈ cfg.reachable).filterMap fun edge =>
    (out edge.from_).map (alongEdge actions edge)

def joinPredecessors (cfg : CallableCfg) (block : BasicBlockId)
    (out : BasicBlockId → Option FlowState) (actions : List CanonicalResourceAction) :
    FlowState × List Diagnostic :=
  match predecessorStates cfg block out actions with
  | [] => (.default, [])
  | first :: rest => joinAll cfg block rest first

/-! ### The analysis -/

/-- A block waits for its predecessors, those over loop-carried edges excepted. -/
def predecessorsReady (cfg : CallableCfg) (block : BasicBlockId)
    (out : BasicBlockId → Option FlowState) : Bool :=
  (((cfg.predecessors block).filter fun edge => edge.from_ ∈ cfg.reachable).filter fun edge =>
    ¬ edge.kind.loopCarried).all fun edge => (out edge.from_).isSome

/-- The states at the start and at the end of a block. -/
structure BlockFlow where
  incoming : FlowState
  outgoing : FlowState
deriving DecidableEq, Repr

/-- Evaluate a block: join, run its actions and check the loop-carried edges that leave it. -/
def evalBlock (cfg : CallableCfg) (actions : List CanonicalResourceAction) (loans : LoanCatalog)
    (out : BasicBlockId → Option FlowState) (block : BasicBlockId) :
    BlockFlow × List Diagnostic :=
  let (incoming, joinErrors) :=
    if block = cfg.entry then (.default, []) else joinPredecessors cfg block out actions
  let (outgoing, errors) := transferAll loans (blockActions cfg actions block) incoming
  let loopErrors := ((cfg.successors block).filter fun edge =>
      edge.kind.loopCarried ∧ outgoing.activeLoans.elems ≠ []).map fun edge =>
    (Diagnostic.errorCode "E0415" "borrow remains live across a loop back-edge"
      edge.source.span).withHelp "end the borrow before the next loop iteration"
  (⟨incoming, outgoing⟩, joinErrors ++ errors ++ loopErrors)

def resourceSolver (cfg : CallableCfg) (actions : List CanonicalResourceAction)
    (loans : LoanCatalog) : Solver BasicBlockId BlockFlow FlowState Diagnostic where
  ready flows block :=
    block = cfg.entry || predecessorsReady cfg block fun b => (flows b).map BlockFlow.outgoing
  eval flows block := evalBlock cfg actions loans (fun b => (flows b).map BlockFlow.outgoing) block
  view := BlockFlow.outgoing
  dependents block :=
    ((cfg.successors block).filter fun edge => edge.to_ ∈ cfg.reachable).map CfgEdge.to_

/-- The unconsumed resource at the end of a path. -/
def returnError (pathNoun : String) (span : Span) (resource : ResourceId) (fact : ResourceFact) :
    List Diagnostic :=
  let name := (fact.owner.map Place.display).getD resource.node.val
  match fact.availability with
  | .available =>
      [addIntroductionNote ((Diagnostic.errorCode "E0256" ("linear resource '" ++ name
        ++ "' must be consumed " ++ pathNoun) span).withHelp
        "move, return, transfer, or drop the resource before returning") fact name]
  | .maybeConsumed =>
      [addIntroductionNote ((Diagnostic.errorCode "E0256" ("linear resource '" ++ name
        ++ "' is possibly unconsumed on some paths") span).withHelp
        "move, return, transfer, or drop the resource on every reachable path") fact name]
  | .consumed => []

/-- A block from which control only loops or diverges. -/
def isDivergingSink (cfg : CallableCfg) (blockId : BasicBlockId) (block : BasicBlock) : Bool :=
  block.terminator = .diverge ||
    (!(cfg.successors blockId).isEmpty &&
      (cfg.successors blockId).all fun edge => edge.kind.loopCarried)

def validateReturnBlock (cfg : CallableCfg) (out : BasicBlockId → Option FlowState)
    (droppable : SortedSet ResourceId) (blockId : BasicBlockId) (block : BasicBlock) :
    List Diagnostic :=
  if blockId ∉ cfg.reachable then []
  else if ¬ block.terminator.isReturn ∧ ¬ isDivergingSink cfg blockId block then []
  else
    match out blockId with
    | none =>
        [.error ("resource analysis did not reach return block '" ++ blockId.node.val ++ "'")
          block.source.span]
    | some state =>
        let source := (block.points.getLast?.map CfgPoint.source).getD block.source
        let pathNoun :=
          if block.terminator.isReturn then "before this return path" else "on this diverging path"
        state.resources.entries.flatMap fun (resource, fact) =>
          if resource ∈ droppable then [] else returnError pathNoun source.span resource fact

def validateReturnResources (cfg : CallableCfg) (out : BasicBlockId → Option FlowState)
    (droppable : SortedSet ResourceId) : List Diagnostic :=
  cfg.blocks.entries.flatMap fun (blockId, block) =>
    validateReturnBlock cfg out droppable blockId block

/-- Errors that differ in code, text or start are kept. -/
def dedupErrors (errors : List Diagnostic) : List Diagnostic :=
  errors.foldl (fun kept error =>
    if kept.any fun other => other.code = error.code ∧ other.message = error.message ∧
        other.span.startLine = error.span.startLine ∧ other.span.startCol = error.span.startCol
    then kept else kept ++ [error]) []

structure ResourceAnalysis where
  owner : NodeId
  actions : List CanonicalResourceAction
  loans : List Loan
  inStates : BasicBlockId → Option (SortedMap ResourceId ResourceFact)
  outStates : BasicBlockId → Option (SortedMap ResourceId ResourceFact)

/-- The resources that actions say their loans are of. -/
def loanResources (actions : List CanonicalResourceAction) : SortedMap LoanId ResourceId :=
  actions.foldl (fun resources action =>
    match action.loan with
    | some loan => resources.insert loan action.resource
    | none => resources) .empty

/-- The resource a loan is of. -/
def loanResource (resources : SortedMap LoanId ResourceId) (loan : Loan) : ResourceId :=
  (resources.find? loan.id).getD ⟨loan.place.base.node⟩

/-- Where a loan ends: by liveness of its reference, else where its place is said to end. -/
def loanEnds (fuel : Nat) (cfg : CallableCfg) (live : Liveness)
    (fallbackEnds : SortedMap String (List CfgLocation)) (loan : Loan) :
    Option (List CfgLocation) := do
  let locations ← match loan.referenceName with
    | some reference => livenessEndLocations fuel cfg reference loan.start live
    | none => some []
  some (if locations = [] then (fallbackEnds.find? loan.place.display).getD [] else locations)

/-- The action that ends a loan at a location. -/
def endAction (cfg : CallableCfg) (resources : SortedMap LoanId ResourceId) (loan : Loan)
    (location : CfgLocation) : CanonicalResourceAction :=
  let (span, origin) := locationSource cfg location
  { kind := .borrowEnd, resource := loanResource resources loan, source := some loan.place
    target := none, loan := some loan.id, location, span, origin }

/-- The loans with the edges they end on, and the actions that end them. -/
def endLoans (fuel : Nat) (cfg : CallableCfg) (live : Liveness)
    (fallbackEnds : SortedMap String (List CfgLocation)) (resources : SortedMap LoanId ResourceId) :
    List Loan → Option (List Loan × List CanonicalResourceAction)
  | [] => some ([], [])
  | loan :: loans => do
      let locations ← loanEnds fuel cfg live fallbackEnds loan
      let loan := { loan with endEdges := locations.filterMap CfgLocation.edge }
      let (loans, actions) ← endLoans fuel cfg live fallbackEnds resources loans
      some (loan :: loans, locations.map (endAction cfg resources loan) ++ actions)

/-- A read or a write of a place whose local is borrowed somewhere. -/
def accessAction (roots : SortedMap LocalId ResourceId) (kind : CanonicalActionKind)
    (blockId : BasicBlockId) (point : CfgPoint) (place : Place) : Option CanonicalResourceAction :=
  (roots.find? place.base).map fun resource =>
    { kind, resource, source := some place, target := none, loan := none
      location := ⟨blockId, point.source.node, none⟩
      span := point.source.span, origin := point.source.origin }

def accessActions (cfg : CallableCfg) (roots : SortedMap LocalId ResourceId) :
    List CanonicalResourceAction :=
  (cfg.blocks.entries.filter fun (blockId, _) => blockId ∈ cfg.reachable).flatMap
    fun (blockId, block) => block.points.flatMap fun point =>
      point.readPlaces.filterMap (accessAction roots .read blockId point) ++
        point.writePlaces.filterMap (accessAction roots .write blockId point)

/-- The actions and loans that the forward analysis works on. -/
def prepareActions (fuel : Nat) (cfg : CallableCfg) (actions : List CanonicalResourceAction)
    (loans : List Loan) (fallbackEnds : SortedMap String (List CfgLocation)) :
    Option (List CanonicalResourceAction × List Loan) := do
  let live ← computeLiveness fuel cfg
  let resources := loanResources actions
  let (loans, ends) ← endLoans fuel cfg live fallbackEnds resources loans
  let borrowedRoots := loans.foldl
    (fun roots loan => roots.insert loan.place.base (loanResource resources loan)) .empty
  some (actions ++ ends ++ accessActions cfg borrowedRoots, loans)

def loanCatalog (loans : List Loan) : LoanCatalog :=
  loans.foldl (fun catalog loan => catalog.insert loan.id loan) .empty

def analyzeCanonical (fuel : Nat) (cfg : CallableCfg) (actions : List CanonicalResourceAction)
    (loans : List Loan) (fallbackEnds : SortedMap String (List CfgLocation))
    (droppable : SortedSet ResourceId) :
    Option (Except (List Diagnostic) ResourceAnalysis) := do
  let (actions, loans) ← prepareActions fuel cfg actions loans fallbackEnds
  let solution ← (resourceSolver cfg actions (loanCatalog loans)).run fuel
    ⟨fun _ => none, [cfg.entry], []⟩
  let out (block : BasicBlockId) := (solution.values block).map BlockFlow.outgoing
  match dedupErrors (solution.log ++ validateReturnResources cfg out droppable) with
  | [] =>
      some (.ok {
        owner := cfg.owner
        actions
        loans
        inStates block := (solution.values block).map fun flow => flow.incoming.resources
        outStates block := (solution.values block).map fun flow => flow.outgoing.resources })
  | errors => some (.error errors)

end Mimi.Cfg
