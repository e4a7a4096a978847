/-
Module: Mimi.Cfg.Lower
Purpose: Lowering of resolved bodies to control-flow graphs.  `Lower` is a command on the graph
  under construction that answers the block control falls through to, if it does.  Place inputs are
  looked up by identity, so that the recursion is not bounded by the body: it takes a number of calls
  that it may nest, and the two functions it starts over from are parameters of the others.  The kind
  and the display spellings of points are left out.
Trusted boundary: human-reviewed translation of `src/core/cfg/resolved_lower.rs`
-/
import Mimi.Cfg.Graph
import Mimi.Core.Body

namespace Mimi.Cfg

open Mimi.Core Mimi.Lib

/-! ### Places in order -/

/-- The order of projections: by constructor, then by content. -/
def projectionLT : PlaceProjection → PlaceProjection → Bool
  | .field field name, .field field' name' =>
      field < field' || (field = field' && name < name')
  | .field _ _, _ => true
  | .tuple _, .field _ _ => false
  | .tuple index, .tuple index' => index < index'
  | .tuple _, _ => true
  | .index (.constant index), .index (.constant index') => index < index'
  | .index (.constant _), .index .dynamic => true
  | .index _, .deref => true
  | _, _ => false

def projectionsLT : List PlaceProjection → List PlaceProjection → Bool
  | [], [] => false
  | [], _ :: _ => true
  | _ :: _, [] => false
  | p :: ps, q :: qs => projectionLT p q || (p = q && projectionsLT ps qs)

def placeLT (p q : Place) : Bool :=
  p.base < q.base || (p.base = q.base &&
    (p.baseName < q.baseName || (p.baseName = q.baseName &&
      projectionsLT p.projections q.projections)))

instance : LT Place := ⟨fun p q => placeLT p q = true⟩

instance : DecidableLT Place := fun p q => inferInstanceAs (Decidable (placeLT p q = true))

/-! ### The graph under construction -/

structure DraftBlock where
  id : BasicBlockId
  source : CfgSource
  points : List CfgPoint
  terminator : Option Terminator
deriving DecidableEq, Repr

structure LoopContext where
  breakTarget : BasicBlockId
  continueTarget : BasicBlockId
  breakSeen : Bool
deriving DecidableEq, Repr

structure PointAccesses where
  uses : List String := []
  defs : List String := []
  readPlaces : List Place := []
  writePlaces : List Place := []
deriving DecidableEq, Repr

structure Lowerer where
  blocks : SortedMap BasicBlockId DraftBlock
  edges : SortedMap EdgeId CfgEdge
  /-- The loops around the current statement, innermost first. -/
  loops : List LoopContext
  orphanRoots : SortedSet BasicBlockId
  errors : List Diagnostic
deriving DecidableEq, Repr

def Lowerer.new : Lowerer := ⟨.empty, .empty, [], .empty, []⟩

/-- A command on the graph; `none` when the calls are used up. -/
abbrev Draft := StateT Lowerer Option

/-- A command that may stop short of an answer, with what it has done to the graph. -/
abbrev Lower := OptionT Draft

def cfgSource (node : NodeId) (origin : Origin) : CfgSource := ⟨node, origin.userSpan, origin⟩

def derivedId (node : NodeId) (category role : String) : NodeId :=
  ⟨node.val ++ "/cfg:" ++ category ++ ":" ++ role⟩

def report (message : String) (span : Span) : Draft Unit :=
  modify fun lowerer => { lowerer with errors := lowerer.errors ++ [.error message span] }

def addBlock (block : DraftBlock) : Draft Unit :=
  modify fun lowerer => { lowerer with blocks := lowerer.blocks.insert block.id block }

def newBlock (node : NodeId) (origin : Origin) (role : String) : Draft BasicBlockId := do
  let id : BasicBlockId := ⟨derivedId node "block" role⟩
  let source := cfgSource node origin
  let lowerer ← get
  if lowerer.blocks.contains id then
    report ("duplicate CFG block identity '" ++ id.node.val ++ "'") source.span
  addBlock ⟨id, source, [], none⟩
  return id

/-- Append a point to a block, its accesses sorted and without duplicates. -/
def point (block : BasicBlockId) (node : NodeId) (origin : Origin) (accesses : PointAccesses) :
    Draft Unit := do
  let lowerer ← get
  match lowerer.blocks.find? block with
  | none => report "attempted to append a point to a missing CFG block" origin.userSpan
  | some draft =>
      let sorted : CfgPoint := {
        source := cfgSource node origin
        uses := (SortedSet.empty.insertAll accesses.uses).elems
        defs := (SortedSet.empty.insertAll accesses.defs).elems
        readPlaces := (SortedSet.empty.insertAll accesses.readPlaces).elems
        writePlaces := (SortedSet.empty.insertAll accesses.writePlaces).elems }
      modify fun lowerer => { lowerer with
        blocks := lowerer.blocks.insert block { draft with points := draft.points ++ [sorted] } }

def edge (source target : BasicBlockId) (kind : EdgeKind) (node : NodeId) (origin : Origin)
    (role : String) : Draft EdgeId := do
  let id : EdgeId := ⟨derivedId node "edge" role⟩
  let lowerer ← get
  if lowerer.edges.contains id then
    report ("duplicate CFG edge identity '" ++ id.node.val ++ "'") origin.userSpan
  modify fun lowerer => { lowerer with
    edges := lowerer.edges.insert id ⟨id, source, target, kind, cfgSource node origin⟩ }
  return id

variable (body : ResolvedBody)

def terminate (block : BasicBlockId) (terminator : Terminator) : Draft Unit := do
  let lowerer ← get
  match lowerer.blocks.find? block with
  | none => report "attempted to terminate a missing CFG block" body.root.origin.userSpan
  | some draft => do
      modify fun lowerer => { lowerer with
        blocks := lowerer.blocks.insert block { draft with terminator := some terminator } }
      if draft.terminator.isSome then
        report ("CFG block '" ++ draft.id.node.val ++ "' received more than one terminator")
          draft.source.span

def goto (source target : BasicBlockId) (kind : EdgeKind) (node : NodeId) (origin : Origin)
    (role : String) : Draft Unit := do
  let edge ← edge source target kind node origin role
  terminate body source (.goto edge)

def addOrphan (block : BasicBlockId) : Draft Unit :=
  modify fun lowerer => { lowerer with orphanRoots := lowerer.orphanRoots.insert block }

/-- The current block, or a new one that nothing leads to. -/
def ensureCurrent (current : Option BasicBlockId) (node : NodeId) (origin : Origin) :
    Draft BasicBlockId :=
  match current with
  | some block => return block
  | none => do
      let block ← newBlock node origin "unreachable"
      addOrphan block
      return block

def pushLoop (breakTarget continueTarget : BasicBlockId) : Draft Unit :=
  modify fun lowerer => { lowerer with
    loops := ⟨breakTarget, continueTarget, false⟩ :: lowerer.loops }

/-- Leave the innermost loop; whether it was broken out of. -/
def popLoop : Draft Bool := do
  let lowerer ← get
  modify fun lowerer => { lowerer with loops := lowerer.loops.tail }
  return (lowerer.loops.head?.map LoopContext.breakSeen).getD false

/-- The innermost loop was broken out of. -/
def markBreak : Draft Unit :=
  modify fun lowerer => { lowerer with
    loops := match lowerer.loops with
      | [] => []
      | loop :: loops => { loop with breakSeen := true } :: loops }

/-! ### Names and places -/

def localName (local_ : ResolvedLocalId) : String :=
  ((body.locals.find? local_).map ResolvedLocal.displayName).getD local_.node.val

mutual

/-- The names a pattern binds. -/
def patternNames : ResolvedPattern → List String
  | ⟨_, _, kind⟩ => patternKindNames kind

def patternKindNames : ResolvedPatternKind → List String
  | .binding local_ => [localName body local_]
  | .constructor _ fields => fieldPatternNames fields
  | .tuple patterns | .array patterns => patternListNames patterns
  | .slice front rest => patternListNames front ++ restPatternNames rest
  | .wildcard | .literal _ => []

def patternListNames : List ResolvedPattern → List String
  | [] => []
  | pattern :: patterns => patternNames pattern ++ patternListNames patterns

def fieldPatternNames : List (NodeId × ResolvedPattern) → List String
  | [] => []
  | (_, pattern) :: fields => patternNames pattern ++ fieldPatternNames fields

def restPatternNames : Option ResolvedPattern → List String
  | none => []
  | some pattern => patternNames pattern

end

def canonicalProjection : ResolvedProjection → PlaceProjection
  | .field field name => .field field name
  | .tuple index => .tuple index
  | .index (.constant index) => .index (.constant index)
  | .index (.dynamic _) => .index .dynamic
  | .deref => .deref

def canonicalPlace (place : ResolvedPlace) : Place :=
  ⟨⟨place.base.node⟩, localName body place.base, place.projections.map canonicalProjection⟩

/-- The stable place borrowed by a value projection. -/
def borrowPlace : ResolvedExpr → Option Place
  | ⟨_, _, .load place⟩ => some (canonicalPlace body place)
  | ⟨_, _, .project value (.index index)⟩ => do
      let place ← borrowPlace value
      let index : IndexProjection := match index.kind with
        | .literal (.int index) => .constant index
        | _ => .dynamic
      some { place with projections := place.projections ++ [.index index] }
  | _ => none

/-- The uses and the places an expression reads by itself. -/
def directAccesses (expression : ResolvedExpr) : PointAccesses :=
  match expression.kind with
  | .load place => { uses := [localName body place.base], readPlaces := [canonicalPlace body place] }
  | .lambda captures => { uses := captures.map (localName body) }
  | _ => {}

/-! ### Lowering -/

/-- The two functions that lowering starts over from. -/
structure Lowerings where
  block : ResolvedBlock → Option BasicBlockId → Lower BasicBlockId
  expr : ResolvedExpr → BasicBlockId → Lower BasicBlockId

variable (sub : Lowerings)

/-- What a command comes to, also where it stops short. -/
def attempt {α : Type} (command : Lower α) : Lower (Option α) := OptionT.lift command.run

def lowerOptional (expression : Option ResolvedExpr) (current : BasicBlockId) :
    Lower BasicBlockId :=
  match expression with
  | none => return current
  | some expression => sub.expr expression current

def lowerAll (expressions : List ResolvedExpr) (current : BasicBlockId) : Lower BasicBlockId :=
  expressions.foldlM (fun current expression => sub.expr expression current) current

/-- Lower the inputs of the dynamic indices of a place. -/
def lowerPlaceInputs (place : ResolvedPlace) (current : BasicBlockId) : Lower BasicBlockId :=
  place.projections.foldlM (fun current projection =>
    match projection with
    | .index (.dynamic node) =>
        match body.placeInputs.find? node with
        | some input => sub.expr input current
        | none => do
            report ("dynamic place input '" ++ node.val ++ "' is absent from ResolvedBody")
              body.root.origin.userSpan
            failure
    | _ => return current) current

def lowerBorrowPlaceInputs : ResolvedExpr → BasicBlockId → Lower BasicBlockId
  | ⟨_, _, .load place⟩, current => lowerPlaceInputs body sub place current
  | ⟨_, _, .project value (.index index)⟩, current => do
      let current ← lowerBorrowPlaceInputs value current
      sub.expr index current
  | _, _ => failure

def lowerIf (expression condition : ResolvedExpr) (thenBlock elseBlock : ResolvedBlock)
    (current : BasicBlockId) : Lower BasicBlockId := do
  let conditionEnd ← sub.expr condition current
  let thenEntry ← newBlock thenBlock.nodeId thenBlock.origin "if-then"
  let elseEntry ← newBlock elseBlock.nodeId elseBlock.origin "if-else"
  let join ← newBlock expression.nodeId expression.origin "if-join"
  let thenEdge ← edge conditionEnd thenEntry .then_ expression.nodeId expression.origin "if-then"
  let elseEdge ← edge conditionEnd elseEntry .else_ expression.nodeId expression.origin "if-else"
  terminate body conditionEnd (.branch condition.nodeId thenEdge elseEdge)
  let thenEnd ← attempt (sub.block thenBlock (some thenEntry))
  let elseEnd ← attempt (sub.block elseBlock (some elseEntry))
  gotoFrom thenEnd join thenBlock.nodeId thenBlock.origin "if-then-join"
  gotoFrom elseEnd join elseBlock.nodeId elseBlock.origin "if-else-join"
  if thenEnd.isNone && elseEnd.isNone then failure
  else do
    point join expression.nodeId expression.origin {}
    return join
where
  /-- Control that ends somewhere falls through to the join. -/
  gotoFrom (end_ : Option BasicBlockId) (join : BasicBlockId) (node : NodeId) (origin : Origin)
      (role : String) : Draft Unit :=
    match end_ with
    | none => return ()
    | some end_ => goto body end_ join .fallthrough node origin role

/-- Lower an arm from the dispatching block: its edge, and whether it falls through to the join. -/
def lowerArm (dispatch join : BasicBlockId) (arm : MatchArm) : Lower (EdgeId × Bool) := do
  let armEntry ← newBlock arm.nodeId arm.origin "match-arm"
  let edge ← edge dispatch armEntry .matchArm arm.nodeId arm.origin "match-arm"
  point armEntry arm.pattern.nodeId arm.pattern.origin { defs := patternNames body arm.pattern }
  -- the guard stays on the arm's own path: there is no edge for the case that it is false
  let armEnd ← attempt do
    let block ← lowerOptional sub arm.guard armEntry
    sub.expr arm.body block
  match armEnd with
  | none => return (edge, false)
  | some end_ => do
      goto body end_ join .fallthrough arm.nodeId arm.origin "match-arm-join"
      return (edge, true)

def lowerMatch (expression scrutinee : ResolvedExpr) (arms : List MatchArm)
    (current : BasicBlockId) : Lower BasicBlockId := do
  let dispatch ← sub.expr scrutinee current
  let join ← newBlock expression.nodeId expression.origin "match-join"
  let lowered ← arms.mapM (lowerArm body sub dispatch join)
  if arms.isEmpty then do
    terminate body dispatch .diverge
    failure
  else do
    terminate body dispatch (.match_ scrutinee.nodeId (lowered.map Prod.fst))
    if lowered.any Prod.snd then do
      point join expression.nodeId expression.origin {}
      return join
    else failure

/-- `?` continues with the value on one edge and returns on the other. -/
def lowerTry (expression value : ResolvedExpr) (current : BasicBlockId) : Lower BasicBlockId := do
  let valueEnd ← sub.expr value current
  point valueEnd expression.nodeId expression.origin {}
  let okBlock ← newBlock expression.nodeId expression.origin "try-ok"
  let errBlock ← newBlock expression.nodeId expression.origin "try-err-return"
  let okEdge ← edge valueEnd okBlock .then_ expression.nodeId expression.origin "try-ok"
  let errEdge ← edge valueEnd errBlock .else_ expression.nodeId expression.origin "try-err"
  terminate body valueEnd (.branch value.nodeId okEdge errEdge)
  terminate body errBlock (.return_ none true)
  return okBlock

/-- The block that decides on another round and the node of its condition.  The initializer of a
`for` or a `while let` is evaluated before the loop, and the header has a point of its own. -/
def lowerHeader (condition : ResolvedExpr) (header : BasicBlockId) (hoistInitializer : Bool) :
    Lower (BasicBlockId × NodeId) :=
  if hoistInitializer then do
    let recheck : NodeId := ⟨condition.nodeId.val ++ "/loop-recheck"⟩
    point header recheck condition.origin {}
    return (header, recheck)
  else do
    let end_ ← sub.expr condition header
    return (end_, condition.nodeId)

def bindPattern (block : BasicBlockId) (pattern : Option ResolvedPattern) : Draft Unit :=
  match pattern with
  | none => return ()
  | some pattern =>
      point block pattern.nodeId pattern.origin { defs := patternNames body pattern }

def hoist (condition : ResolvedExpr) (statement : ResolvedStmt) (hoistInitializer : Bool)
    (current : BasicBlockId) : Lower BasicBlockId :=
  if hoistInitializer then do
    let current ← sub.expr condition current
    point current statement.nodeId statement.origin {}
    return current
  else return current

def lowerConditionalLoop (condition : ResolvedExpr) (loopBody : ResolvedBlock)
    (pattern : Option ResolvedPattern) (current : BasicBlockId) (statement : ResolvedStmt)
    (role : String) (hoistInitializer : Bool) : Lower BasicBlockId := do
  let current ← hoist sub condition statement hoistInitializer current
  let header ← newBlock condition.nodeId condition.origin (role ++ "-header")
  let bodyEntry ← newBlock loopBody.nodeId loopBody.origin (role ++ "-body")
  let exit ← newBlock statement.nodeId statement.origin (role ++ "-exit")
  goto body current header .fallthrough statement.nodeId statement.origin (role ++ "-enter")
  let (conditionEnd, conditionNode) ← lowerHeader sub condition header hoistInitializer
  let bodyEdge ←
    edge conditionEnd bodyEntry .loopBody statement.nodeId statement.origin (role ++ "-body")
  let exitEdge ←
    edge conditionEnd exit .loopExit statement.nodeId statement.origin (role ++ "-exit")
  terminate body conditionEnd (.branch conditionNode bodyEdge exitEdge)
  bindPattern body bodyEntry pattern
  pushLoop exit header
  let bodyEnd ← attempt (sub.block loopBody (some bodyEntry))
  let _ ← popLoop
  match bodyEnd with
  | none => return exit
  | some end_ => do
      goto body end_ header .backedge statement.nodeId statement.origin (role ++ "-backedge")
      return exit

def lowerConditionalIf (initializer : ResolvedExpr) (pattern : Option ResolvedPattern)
    (thenBlock : ResolvedBlock) (elseBlock : Option ResolvedBlock) (current : BasicBlockId)
    (statement : ResolvedStmt) : Lower BasicBlockId := do
  let thenEntry ← newBlock thenBlock.nodeId thenBlock.origin "iflet-then"
  let elseEntry ← newBlock statement.nodeId statement.origin "iflet-else"
  let join ← newBlock statement.nodeId statement.origin "iflet-join"
  let conditionEnd ← sub.expr initializer current
  let thenEdge ← edge conditionEnd thenEntry .then_ statement.nodeId statement.origin "iflet-then"
  let elseEdge ← edge conditionEnd elseEntry .else_ statement.nodeId statement.origin "iflet-else"
  terminate body conditionEnd (.branch initializer.nodeId thenEdge elseEdge)
  bindPattern body thenEntry pattern
  let thenEnd ← attempt (sub.block thenBlock (some thenEntry))
  lowerIf.gotoFrom body thenEnd join statement.nodeId statement.origin "iflet-join-then"
  -- without an `else` the other path falls through at once
  let elseEnd ← match elseBlock with
    | some elseBlock => attempt (sub.block elseBlock (some elseEntry))
    | none => pure (some elseEntry)
  lowerIf.gotoFrom body elseEnd join statement.nodeId statement.origin "iflet-join-else"
  if thenEnd.isNone && elseEnd.isNone then failure else return join

def lowerInfiniteLoop (loopBody : ResolvedBlock) (current : BasicBlockId)
    (statement : ResolvedStmt) : Lower BasicBlockId := do
  let header ← newBlock loopBody.nodeId loopBody.origin "loop-header"
  let exit ← newBlock statement.nodeId statement.origin "loop-exit"
  goto body current header .fallthrough statement.nodeId statement.origin "loop-enter"
  pushLoop exit header
  let bodyEnd ← attempt (sub.block loopBody (some header))
  let breakSeen ← popLoop
  match bodyEnd with
  | none => pure ()
  | some end_ =>
      goto body end_ header .backedge statement.nodeId statement.origin "loop-backedge"
  if breakSeen then return exit else failure

/-- `break` and `continue` leave for a target of the innermost loop; outside of one they diverge. -/
def lowerJump (current : BasicBlockId) (statement : ResolvedStmt)
    (target : LoopContext → BasicBlockId) (kind : EdgeKind) (role : String)
    (leave : EdgeId → Terminator) : Draft Unit := do
  let lowerer ← get
  match lowerer.loops.head? with
  | none => terminate body current .diverge
  | some loop => do
      let edge ← edge current (target loop) kind statement.nodeId statement.origin role
      terminate body current (leave edge)

def lowerStmt (statement : ResolvedStmt) (current : BasicBlockId) : Lower BasicBlockId :=
  match statement.kind with
  | .bind pattern initializer => do
      let current ← lowerOptional sub initializer current
      point current statement.nodeId statement.origin { defs := patternNames body pattern }
      return current
  | .assign target value => do
      let current ← sub.expr value current
      let current ← lowerPlaceInputs body sub target current
      point current statement.nodeId statement.origin {
        uses := [localName body target.base]
        defs := if target.projections.isEmpty then [localName body target.base] else []
        writePlaces := [canonicalPlace body target] }
      return current
  | .return_ value => do
      let current ← lowerOptional sub value current
      point current statement.nodeId statement.origin {}
      terminate body current (.return_ (value.map ResolvedExpr.nodeId) false)
      failure
  | .break_ value => do
      let current ← lowerOptional sub value current
      point current statement.nodeId statement.origin {}
      markBreak
      lowerJump body current statement LoopContext.breakTarget .break_ "break" .break_
      failure
  | .continue_ => do
      point current statement.nodeId statement.origin {}
      lowerJump body current statement LoopContext.continueTarget .continue_ "continue" .continue_
      failure
  | .expr expression => do
      let current ← sub.expr expression current
      -- temporaries of the statement end at this point
      point current statement.nodeId statement.origin {}
      return current
  | .while_ condition loopBody =>
      lowerConditionalLoop body sub condition loopBody none current statement "while" false
  | .whileLet pattern initializer loopBody =>
      lowerConditionalLoop body sub initializer loopBody (some pattern) current statement
        "while-let" true
  | .ifLet pattern initializer thenBlock elseBlock =>
      lowerConditionalIf body sub initializer (some pattern) thenBlock elseBlock current statement
  | .for_ pattern iterable loopBody =>
      lowerConditionalLoop body sub iterable loopBody (some pattern) current statement "for" true
  | .loop loopBody => lowerInfiniteLoop body sub loopBody current statement
  | .drop places => do
      let current ← places.foldlM (fun current place => lowerPlaceInputs body sub place current)
        current
      point current statement.nodeId statement.origin {
        readPlaces := places.map (canonicalPlace body) }
      return current
  | .contract condition => sub.expr condition current
  | .math expressions => do
      let current ← expressions.foldlM (fun current expression => do
        let block ← ensureCurrent current expression.nodeId expression.origin
        attempt (sub.expr expression block)) (some current)
      OptionT.mk (pure current)
  | .scope inner => sub.block inner (some current)
  | .pinned value binding inner => do
      let current ← sub.expr value current
      match binding with
      | none => pure ()
      | some binding =>
          point current statement.nodeId statement.origin { defs := [localName body binding] }
      sub.block inner (some current)
  | .nestedCallable _ => do
      point current statement.nodeId statement.origin {}
      return current

def lowerBlock (block : ResolvedBlock) (current : Option BasicBlockId) : Lower BasicBlockId := do
  let current ← block.statements.foldlM (fun current statement => do
    let blockId ← ensureCurrent current statement.nodeId statement.origin
    attempt (lowerStmt body sub statement blockId)) current
  match block.result with
  | some result => do
      let blockId ← ensureCurrent current result.nodeId result.origin
      sub.expr result blockId
  | none => OptionT.mk (pure current)

def interpolations : List ResolvedFStringPart → List ResolvedExpr
  | [] => []
  | .text _ :: parts => interpolations parts
  | .interpolation value :: parts => value :: interpolations parts

/-- Lower the operands of an expression in the order of their evaluation.  Control expressions are
lowered before this dispatcher. -/
def lowerExprChildren (expression : ResolvedExpr) (current : BasicBlockId) : Lower BasicBlockId :=
  match expression.kind with
  | .fstring parts => lowerAll sub (interpolations parts) current
  | .load place => lowerPlaceInputs body sub place current
  | .project value (.index index) => lowerAll sub [value, index] current
  | .project value _ => sub.expr value current
  | .binary left right => lowerAll sub [left, right] current
  | .unary op operand =>
      if op.borrows then
        match borrowPlace body operand with
        | some place => do
            let current ← lowerBorrowPlaceInputs body sub operand current
            -- borrowing uses the root of the place but reads nothing
            point current operand.nodeId operand.origin { uses := [place.baseName] }
            return current
        | none => sub.expr operand current
      else sub.expr operand current
  | .typeOf operand | .old operand | .cast operand | .spawn operand | .await operand =>
      sub.expr operand current
  | .call arguments => lowerAll sub arguments current
  | .tuple values | .list values | .set values => lowerAll sub values current
  | .map entries => lowerAll sub (entries.flatMap fun entry => [entry.1, entry.2]) current
  | .comprehension _ value iterable guard =>
      lowerAll sub (iterable :: guard.toList ++ [value]) current
  | .optionalChain receiver _ => sub.expr receiver current
  | .record fields _ => lowerAll sub (fields.map Prod.snd) current
  | .range start end_ => lowerAll sub [start, end_] current
  | .slice target start end_ => lowerAll sub (target :: start.toList ++ end_.toList) current
  | .literal _ | .constant _ | .callable | .defaultArgument _ | .lambda _ | .comptimeValue _
  | .typeValue => return current
  | .block _ | .scope _ | .comptime _ | .if_ _ _ _ | .match_ _ _ | .try_ _ _ | .quote _ =>
      return current

def lowerExpr (expression : ResolvedExpr) (current : BasicBlockId) : Lower BasicBlockId :=
  match expression.kind with
  | .if_ condition thenBlock elseBlock =>
      lowerIf body sub expression condition thenBlock elseBlock current
  | .match_ scrutinee arms => lowerMatch body sub expression scrutinee arms current
  | .try_ value _ => lowerTry body sub expression value current
  | .block inner | .scope inner | .comptime inner | .quote inner => do
      let current ← sub.block inner (some current)
      point current expression.nodeId expression.origin {}
      return current
  | _ => do
      let current ← lowerExprChildren body sub expression current
      point current expression.nodeId expression.origin (directAccesses body expression)
      return current

/-- Lowering with a number of calls that it may nest. -/
def lowerings : Nat → Lowerings
  | 0 => ⟨fun _ _ => OptionT.mk fun _ => none, fun _ _ => OptionT.mk fun _ => none⟩
  | fuel + 1 => ⟨lowerBlock body (lowerings fuel), lowerExpr body (lowerings fuel)⟩

/-! ### The finished graph -/

/-- The edges at each block, in the order of their identities. -/
abbrev EdgeIndex := SortedMap BasicBlockId (List EdgeId)

/-- A graph with its adjacency indexes. -/
structure LoweredCfg extends CallableCfg where
  successorIndex : EdgeIndex
  predecessorIndex : EdgeIndex
deriving DecidableEq, Repr

def buildSuccessorIndex (edges : SortedMap EdgeId CfgEdge) : EdgeIndex :=
  edges.entries.foldl (fun index entry => index.push entry.2.from_ entry.1) .empty

/-- The predecessors follow the successors: block by block, then edge by edge. -/
def buildPredecessorIndex (edges : SortedMap EdgeId CfgEdge) (successorIndex : EdgeIndex) :
    EdgeIndex :=
  (successorIndex.values.flatten.filterMap edges.find?).foldl
    (fun index edge => index.push edge.to_ edge.id) .empty

/-- The edges that an index lists at a block. -/
def adjacent (edges : SortedMap EdgeId CfgEdge) (block : BasicBlockId) (index : EdgeIndex) :
    List CfgEdge :=
  (index.listed block).filterMap edges.find?

/-- The blocks a queue leads to by an index, breadth first. -/
def searchIndex (edges : SortedMap EdgeId CfgEdge) (index : EdgeIndex) :
    Nat → List BasicBlockId → SortedSet BasicBlockId → Option (SortedSet BasicBlockId)
  | 0, _, _ => none
  | _ + 1, [], visited => some visited
  | fuel + 1, block :: queue, visited =>
      if block ∈ visited then searchIndex edges index fuel queue visited
      else
        searchIndex edges index fuel (queue ++ (adjacent edges block index).map CfgEdge.to_)
          (visited.insert block)

def DraftBlock.open_ (block : DraftBlock) : Bool := block.terminator.isNone

/-- A block with its terminator; one that control does not leave is unreachable. -/
def DraftBlock.seal (block : DraftBlock) : BasicBlock :=
  ⟨block.id, block.source, block.points, block.terminator.getD .unreachable⟩

def terminateOpen (block : BasicBlockId) (terminator : Terminator) : Draft Unit := do
  let lowerer ← get
  match lowerer.blocks.find? block with
  | none => return ()
  | some draft => if draft.open_ then terminate body block terminator

/-- Control that reaches the end of the body returns its result; blocks nothing leads to end
there. -/
def closeBlocks (current : Option BasicBlockId) : Draft Unit := do
  match current with
  | none => pure ()
  | some current =>
      terminateOpen body current (.return_ (body.root.result.map ResolvedExpr.nodeId) true)
  let lowerer ← get
  lowerer.orphanRoots.elems.forM fun orphan => terminateOpen body orphan .unreachable

/-- The graph that a finished lowering stands for. -/
def assemble (fuel : Nat) (entry : BasicBlockId) (lowerer : Lowerer) : Option LoweredCfg := do
  let successorIndex := buildSuccessorIndex lowerer.edges
  let reachable ← searchIndex lowerer.edges successorIndex fuel [entry] .empty
  return {
    owner := body.owner
    entry
    blocks := ⟨lowerer.blocks.entries.map fun entry => (entry.1, entry.2.seal)⟩
    edges := lowerer.edges
    reachable
    successorIndex
    predecessorIndex := buildPredecessorIndex lowerer.edges successorIndex }

/-- Validate the graph; it is given out when neither lowering nor validation found an error. -/
def finish (fuel : Nat) (entry : BasicBlockId) (lowerer : Lowerer) :
    Option (Except (List Diagnostic) LoweredCfg) := do
  let cfg ← assemble body fuel entry lowerer
  let validated ← validateCfg fuel cfg.toCallableCfg
  let errors := match validated with
    | .ok _ => lowerer.errors
    | .error errors => lowerer.errors ++ errors
  return if errors.isEmpty then .ok cfg else .error errors

/-- Lower the root block from an entry block and close what is left open. -/
def lowerRoot (fuel : Nat) : Draft BasicBlockId := do
  let entry ← newBlock body.root.nodeId body.root.origin "entry"
  let current : Option BasicBlockId ←
    OptionT.run ((lowerings body fuel).block body.root (some entry))
  closeBlocks body current
  return entry

def lowerBody (fuel : Nat) : Option (Except (List Diagnostic) LoweredCfg) := do
  let (entry, lowerer) ← lowerRoot body fuel Lowerer.new
  finish body fuel entry lowerer

end Mimi.Cfg
