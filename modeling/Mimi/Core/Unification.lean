/-
Module: Mimi.Core.Unification
Purpose: The inference engine: the union-find table with its bindings and undo trail, resolution
  with path and binding compression, the unifier and its transactions.  The hash maps are partial
  functions, so that equality of tables is equality of their contents.  The loops of `find` and the
  recursion of the unifier take a fuel; running out of it is not returning.
Trusted boundary: human-reviewed translation of `src/core/unification.rs` and of `types_compatible` in
  `src/core/helpers.rs`
-/
import Mimi.Lib.Run
import Mimi.Lib.UndoLog
import Mimi.Core.Type

namespace Mimi.Core

open Mimi.Lib Ty

/-- Error produced when a type cannot be fully resolved. -/
inductive ResolveError where
  | depthOverflow (ty : String)
  | unboundVar (id : Nat)
  | bindingCycle (id : Nat)
  | residualType (msg : String)
  | escapeHatch (msg : String)
deriving DecidableEq, Repr

/-- Error produced when two types cannot be unified. -/
inductive UnifyError where
  | mismatch (msg : String)
  | occurCheck (var : Nat) (ty : String)
  | resolve (error : ResolveError)
  | linearContainerEscape (msg : String)
deriving DecidableEq, Repr

/-- What an entry of the trail restores. -/
inductive Undo where
  | parent (id : Nat) (previous : Option Nat)
  | binding (id : Nat) (previous : Option Ty)
  | nextVar (previous : Nat)

/-- The part of the table that transactions restore. -/
structure Store where
  /-- Parent links; a variable without one is a root. -/
  parent : Nat → Option Nat
  /-- Resolved bindings of root variables. -/
  binding : Nat → Option Ty
  nextVar : Nat

/-- Union-find based unification table for type inference variables. -/
structure Table extends Store where
  /-- Undo trail shared by nested transactions, the last entry first. -/
  trail : List Undo
  transactionDepth : Nat
  /-- Flow-state type names seeded by the checker. -/
  linearTypeNames : List String

/-- Overwrite one entry of a map. -/
def insertAt {α : Type} (f : Nat → Option α) (id : Nat) (value : Option α) : Nat → Option α :=
  fun i => if i = id then value else f i

/-- Put one overwritten entry back. -/
def Undo.apply : Undo → Store → Store
  | .parent id previous, s => { s with parent := insertAt s.parent id previous }
  | .binding id previous, s => { s with binding := insertAt s.binding id previous }
  | .nextVar previous, s => { s with nextVar := previous }

/-- Inference computations. -/
abbrev Infer (α : Type) := Run Table UnifyError α

/-- Resolution computations. -/
abbrev Resolve (α : Type) := Run Table ResolveError α

namespace Table

def new : Table where
  parent _ := none
  binding _ := none
  nextVar := 0
  trail := []
  transactionDepth := 0
  linearTypeNames := []

/-- Seed a flow-state type name. -/
def noteLinearTypeName (s : Table) (name : String) : Table :=
  { s with linearTypeNames := name :: s.linearTypeNames }

/-- Reset the table for a new function check. -/
def reset (s : Table) : Table := { new with linearTypeNames := s.linearTypeNames }

/-- Push an undo entry while a transaction is open. -/
def record (s : Table) (entry : Undo) : Table :=
  if s.transactionDepth > 0 then { s with trail := entry :: s.trail } else s

def setParent (s : Table) (id parent : Nat) : Table :=
  if s.parent id = some parent then s
  else
    { s.record (.parent id (s.parent id)) with parent := insertAt s.parent id (some parent) }

/-- Write a binding unless the same type is already there. -/
def setBinding (s : Table) (id : Nat) (ty : Ty) : Table :=
  if (s.binding id).any fun bound => bound.sameType ty then s
  else
    { s.record (.binding id (s.binding id)) with binding := insertAt s.binding id (some ty) }

/-- Allocate a fresh type variable; running out of `u32` identifiers is a panic. -/
def freshVar (s : Table) : Option (Nat × Table) :=
  let id := s.nextVar
  let s := s.record (.nextVar s.nextVar)
  if id + 1 < 2 ^ 32 then some (id, { s with nextVar := id + 1 }.setParent id id) else none

/-- First phase of `find`: walk to the root. -/
def walk (parent : Nat → Option Nat) : Nat → Nat → Option Nat
  | 0, _ => none
  | fuel + 1, current =>
      let next := (parent current).getD current
      if next = current then some current else walk parent fuel next

/-- Second phase of `find`: point every node on the path to the root. -/
def compress (root : Nat) : Nat → Nat → Table → Option Table
  | 0, _, _ => none
  | fuel + 1, current, s =>
      if current = root then some s
      else
        let parent := (s.parent current).getD current
        compress root fuel parent (s.setParent current root)

/-- Find the root of a variable, with path compression. -/
def find {ε : Type} (fuel id : Nat) : Run Table ε Nat := fun s => do
  let root ← walk s.parent fuel id
  let s ← compress root fuel id s
  some (.ok root, s)

/-- Undo the trail down to a checkpoint. -/
def rollbackTo (s : Table) (checkpoint : Nat) : Table :=
  let (trail, store) := UndoLog.rollback Undo.apply checkpoint s.trail s.toStore
  { s with toStore := store, trail }

end Table

/-! ### Resolution -/

/-- The arms of resolution that rebuild a node from its parts, in the order of the source.  A
quantified type is not entered: its bound variables share the identifiers of inference variables. -/
def mapPartsM (f : Ty → Resolve Ty) : Ty → Resolve Ty
  | option inner => do pure (option (← f inner))
  | result ok err => do
      let ok ← f ok
      let err ← f err
      pure (result ok err)
  | tuple elems => do pure (tuple (← Run.mapM f elems))
  | func args ret => do
      let args ← Run.mapM f args
      let ret ← f ret
      pure (func args ret)
  | externFunc args ret => do
      let args ← Run.mapM f args
      let ret ← f ret
      pure (externFunc args ret)
  | ref lt inner => do pure (ref lt (← f inner))
  | refMut lt inner => do pure (refMut lt (← f inner))
  | shared inner => do pure (shared (← f inner))
  | weak inner => do pure (weak (← f inner))
  | rawPtr inner => do pure (rawPtr (← f inner))
  | rawPtrMut inner => do pure (rawPtrMut (← f inner))
  | cBuffer inner => do pure (cBuffer (← f inner))
  | array inner n => do pure (array (← f inner) n)
  | slice inner => do pure (slice (← f inner))
  | newtype n inner => do pure (newtype n (← f inner))
  | name n args => do pure (name n (← Run.mapM f args))
  | ty => pure ty

/-- Nesting limit of resolution. -/
def maxResolveDepth : Nat := 64

/-- Resolve a type, with `remaining = maxResolveDepth - depth` levels to go.  `resolving` holds the
variables whose bindings are being resolved: the source inserts one before it enters a binding and
takes it out again after. -/
def resolveWithDepth (fuel : Nat) : Nat → List Nat → Ty → Resolve Ty
  | 0, _, ty => Run.throw (.depthOverflow (fmtType ty))
  | next + 1, resolving, ty =>
      match ty with
      | located ty => do pure (withMeta (← resolveWithDepth fuel next resolving ty))
      | typeVar id => do
          let root ← Table.find fuel id
          match ← Run.gets (fun s => s.binding root) with
          | some bound =>
              if root ∈ resolving then Run.throw (.bindingCycle root)
              else do
                let resolved ← resolveWithDepth fuel next (root :: resolving) bound
                Run.modify fun s => s.setBinding root resolved
                pure resolved
          | none => pure (typeVar root)
      | ty => mapPartsM (resolveWithDepth fuel next resolving) ty

/-- Resolve a type for inference while preserving unbound variables. -/
def resolveInfer (fuel : Nat) (ty : Ty) : Resolve Ty :=
  resolveWithDepth fuel maxResolveDepth [] ty

mutual

/-- Scan a type for residual inference artifacts. -/
def scanResidual : Ty → Except ResolveError Unit
  | typeVar id => .error (.unboundVar id)
  | forAll _ _ => .error (.residualType "unresolved ForAll quantifier")
  | infer => .error (.escapeHatch "Infer placeholder")
  | tyErr => .error (.residualType "TyErr poison type in finalized output")
  | name n args =>
      if n = "_" ∨ n = "unknown" then
        .error (.escapeHatch ("non-final type name '" ++ n ++ "'"))
      else scanResiduals args
  | tuple elems => scanResiduals elems
  | result ok err => do scanResidual ok; scanResidual err
  | func args ret => do scanResiduals args; scanResidual ret
  | externFunc args ret => do scanResiduals args; scanResidual ret
  | located inner | option inner | ref _ inner | refMut _ inner | shared inner | weak inner
  | rawPtr inner | rawPtrMut inner | cBuffer inner | array inner _ | slice inner
  | newtype _ inner => scanResidual inner
  | cap _ | capAtom _ | nothing | implTrait _ | dynTrait _ => .ok ()

def scanResiduals : List Ty → Except ResolveError Unit
  | [] => .ok ()
  | ty :: tys => do scanResidual ty; scanResiduals tys

end

/-- Resolve all variables of a type and reject residual inference artifacts. -/
def zonk (fuel : Nat) (ty : Ty) : Resolve Ty := do
  let resolved ← resolveInfer fuel ty
  match scanResidual resolved with
  | .ok () => pure resolved
  | .error e => Run.throw e

/-! ### The unifier -/

/-- Whether a variable occurs in a type. -/
def occursIn (var : Nat) (ty : Ty) : Bool :=
  typeAny (fun t => match t with | typeVar id => id == var | _ => false) ty

/-- Types that checked unification rejects. -/
def isEscapeType (ty : Ty) : Bool :=
  typeAny (fun t =>
    match t with
    | infer => true
    | forAll _ _ => true
    | name n _ => n == "_" || n == "unknown"
    | _ => false) ty

mutual

/-- Conservative deep linearity predicate of the bare-container arm. -/
def containsLinearSurface (linearTypeNames : List String) : Ty → Bool
  | cap _ | capAtom _ => true
  | name n args =>
      linearTypeNames.contains n || ((n == "SessionChan" || n == "session_chan") && !args.isEmpty) ||
        containLinearSurface linearTypeNames args
  | option inner | cBuffer inner | slice inner | newtype _ inner | array inner _ | located inner =>
      containsLinearSurface linearTypeNames inner
  | result ok err =>
      containsLinearSurface linearTypeNames ok || containsLinearSurface linearTypeNames err
  | tuple items => containLinearSurface linearTypeNames items
  | _ => false

/-- Some type of a list contains a linear one. -/
def containLinearSurface (linearTypeNames : List String) : List Ty → Bool
  | [] => false
  | ty :: tys =>
      containsLinearSurface linearTypeNames ty || containLinearSurface linearTypeNames tys

end

/-- What one level of the unifier does with two resolved types. -/
inductive UnifyStep where
  /-- Unite two variables. -/
  | union (a b : Nat)
  /-- Bind a variable to the other type. -/
  | bind (id : Nat) (ty : Ty)
  | accept
  | reject (error : UnifyError)
  /-- A bare `List`, `Set` or `Map` meets a container of the same name. -/
  | bareContainer
  /-- Unify the parts, in order. -/
  | parts (pairs : List (Ty × Ty))

/-- The arms for type variables. -/
def variableArms (a b aResolved bResolved : Ty) : Option UnifyStep :=
  match a, b with
  | typeVar a, typeVar b => some (.union a b)
  | typeVar id, _ =>
      if occursIn id bResolved then some (.reject (.occurCheck id (fmtType bResolved)))
      else some (.bind id bResolved)
  | _, typeVar id =>
      if occursIn id aResolved then some (.reject (.occurCheck id (fmtType aResolved)))
      else some (.bind id aResolved)
  | _, _ => none

/-- The type escape hatches `_`, `Any` (which flows down into any type), the poison type, `unknown`
(which only meets itself) and `Infer`. -/
def escapeArms (a b : Ty) : Option UnifyStep :=
  match a, b with
  | name "_" _, _ => some .accept
  | _, name "_" _ => some .accept
  | name "Any" _, _ => some .accept
  | infer, name "Any" _ => some .accept
  | tyErr, _ => some .accept
  | _, tyErr => some .accept
  | name na _, name nb _ =>
      if na = "unknown" ∧ nb ≠ "unknown" then
        some (.reject (.mismatch ("cannot unify unknown with " ++ nb)))
      else if nb = "unknown" ∧ na ≠ "unknown" then
        some (.reject (.mismatch ("cannot unify " ++ na ++ " with unknown")))
      else none
  | infer, _ => some .accept
  | _, infer => some .accept
  | _, _ => none

/-- The two spellings of `Option` and of `Result`. -/
def dualArms (a b : Ty) : Option UnifyStep :=
  match a, b with
  | name "Option" [arg], option inner => some (.parts [(arg, inner)])
  | option inner, name "Option" [arg] => some (.parts [(inner, arg)])
  | name "Result" [argOk, argErr], result ok err => some (.parts [(argOk, ok), (argErr, err)])
  | result ok err, name "Result" [argOk, argErr] => some (.parts [(ok, argOk), (err, argErr)])
  | _, _ => none

/-- The two arms for nominal types of one name. -/
def nameArms (a b : Ty) : Option UnifyStep :=
  match a, b with
  | name na aa, name nb ab =>
      if na = nb ∧ (aa.isEmpty ∨ ab.isEmpty) ∧ na ∈ ["List", "Set", "Map"] then some .bareContainer
      else if na = nb ∧ aa.length = ab.length then some (.parts (aa.zip ab))
      else none
  | _, _ => none

/-- The arms that compare functions: a difference in arity is an error of its own. -/
def functionStep (aArgs : List Ty) (aRet : Ty) (bArgs : List Ty) (bRet : Ty) : UnifyStep :=
  if aArgs.length ≠ bArgs.length then
    .reject (.mismatch ("function arity mismatch: " ++ toString aArgs.length ++ " vs "
      ++ toString bArgs.length))
  else .parts (aArgs.zip bArgs ++ [(aRet, bRet)])

/-- The arms for two nodes of the same constructor. -/
def structuralArms (a b : Ty) : Option UnifyStep :=
  match a, b with
  | option a, option b => some (.parts [(a, b)])
  | result a₁ a₂, result b₁ b₂ => some (.parts [(a₁, b₁), (a₂, b₂)])
  | tuple as, tuple bs => if as.length = bs.length then some (.parts (as.zip bs)) else none
  | func aArgs aRet, func bArgs bRet => some (functionStep aArgs aRet bArgs bRet)
  | externFunc aArgs aRet, externFunc bArgs bRet => some (functionStep aArgs aRet bArgs bRet)
  | ref _ a, ref _ b => some (.parts [(a, b)])
  | refMut _ a, refMut _ b => some (.parts [(a, b)])
  | shared a, shared b => some (.parts [(a, b)])
  | weak a, weak b => some (.parts [(a, b)])
  | rawPtr a, rawPtr b => some (.parts [(a, b)])
  | rawPtrMut a, rawPtrMut b => some (.parts [(a, b)])
  | cBuffer a, cBuffer b => some (.parts [(a, b)])
  | slice a, slice b => some (.parts [(a, b)])
  | array a na, array b nb => if na = nb then some (.parts [(a, b)]) else none
  | newtype na a, newtype nb b => if na = nb then some (.parts [(a, b)]) else none
  | _, _ => none

/-- A newtype is transparent when it meets a type that is not one. -/
def newtypeArms (a b : Ty) : Option UnifyStep :=
  match a, b with
  | newtype _ _, newtype _ _ => none
  | newtype _ inner, other => some (.parts [(inner, other)])
  | other, newtype _ inner => some (.parts [(inner, other)])
  | _, _ => none

/-- The arms for types without parts. -/
def leafArms (a b : Ty) : Option UnifyStep :=
  let traits (a b : List String) : UnifyStep :=
    if a = b then .accept
    else .reject (.mismatch ("trait mismatch: " ++ ", ".intercalate a ++ " vs "
      ++ ", ".intercalate b))
  let capability (a b : String) : UnifyStep :=
    if a = b then .accept
    else .reject (.mismatch ("capability mismatch: " ++ a ++ " vs " ++ b))
  match a, b with
  | implTrait a, implTrait b => some (traits a b)
  | dynTrait a, dynTrait b => some (traits a b)
  | cap a, cap b => some (capability a b)
  | capAtom a, capAtom b => some (capability a b)
  | capAtom a, cap b => some (capability a b)
  | cap a, capAtom b => some (capability a b)
  | _, _ => none

/-- The case analysis of the unifier on two resolved types: the groups of arms in the order of the
source, the mismatch last. -/
def unifyStep (aResolved bResolved : Ty) : UnifyStep :=
  let a := aResolved.unlocated
  let b := bResolved.unlocated
  (variableArms a b aResolved bResolved
    <|> escapeArms a b
    <|> dualArms a b
    <|> nameArms a b
    <|> structuralArms a b
    <|> newtypeArms a b
    <|> leafArms a b).getD
    (.reject (.mismatch ("cannot unify " ++ fmtType aResolved ++ " with " ++ fmtType bResolved)))

/-- The bare-container arm: a container with a linear element does not pass. -/
def bareContainerArm (aResolved bResolved : Ty) : Infer Unit := do
  let linear ← Run.gets fun s : Table => s.linearTypeNames
  if containsLinearSurface linear aResolved || containsLinearSurface linear bResolved then
    let bareName :=
      match aResolved.unlocated with
      | name n _ => n
      | _ => ""
    Run.throw (.linearContainerEscape
      ("linear elements cannot flow through bare container annotation '" ++ bareName ++ "' ('"
        ++ fmtType aResolved ++ "' vs '" ++ fmtType bResolved
        ++ "'); bare containers are not linearly tracked"))
  else pure ()

/-- Perform a step on two resolved types; `recurse` unifies a pair of parts. -/
def performStep (fuel : Nat) (recurse : Ty × Ty → Infer Unit) (aResolved bResolved : Ty) :
    UnifyStep → Infer Unit
  | .union a b => do
      let aRoot ← Table.find fuel a
      let bRoot ← Table.find fuel b
      if aRoot ≠ bRoot then Run.modify fun s => s.setParent aRoot bRoot else pure ()
  | .bind id ty => do
      let root ← Table.find fuel id
      Run.modify fun s => s.setBinding root ty
  | .accept => pure ()
  | .reject e => Run.throw e
  | .bareContainer => bareContainerArm aResolved bResolved
  | .parts pairs => Run.forEach recurse pairs

def unifyInferenceInner : Nat → Ty → Ty → Infer Unit
  | 0, _, _ => Run.diverge
  | fuel + 1, a, b => do
      let aResolved ← Run.mapError .resolve (resolveInfer fuel a)
      let bResolved ← Run.mapError .resolve (resolveInfer fuel b)
      performStep fuel (fun pair => unifyInferenceInner fuel pair.1 pair.2) aResolved bResolved
        (unifyStep aResolved bResolved)

/-! ### Transactions -/

/-- Open a transaction: the checkpoint is the length of the trail. -/
def Table.enter (s : Table) : Table := { s with transactionDepth := s.transactionDepth + 1 }

/-- Close a transaction.  The trail is kept until the outermost one ends. -/
def Table.leave (s : Table) (checkpoint : Nat) (failed : Bool) : Table :=
  let s := { s with transactionDepth := s.transactionDepth - 1 }
  let s := if failed then s.rollbackTo checkpoint else s
  if s.transactionDepth = 0 then { s with trail := [] } else s

/-- Run an operation atomically. -/
def transaction (operation : Infer Unit) : Infer Unit := fun s =>
  match operation s.enter with
  | none => none
  | some (.ok (), s') => some (.ok (), s'.leave s.trail.length false)
  | some (.error e, s') => some (.error e, s'.leave s.trail.length true)

/-- The operation of a checked constraint. -/
def checkedUnify (fuel : Nat) (a b : Ty) : Infer Unit := do
  let aResolved ← Run.mapError .resolve (resolveInfer fuel a)
  let bResolved ← Run.mapError .resolve (resolveInfer fuel b)
  if isEscapeType aResolved || isEscapeType bResolved then
    Run.throw (.mismatch ("checked unification rejects escape types " ++ fmtType aResolved
      ++ " and " ++ fmtType bResolved))
  else unifyInferenceInner fuel aResolved bResolved

/-- Canonical checked constraint operation. -/
def constrain (fuel : Nat) (a b : Ty) : Infer Unit := transaction (checkedUnify fuel a b)

/-- Permissive unification for explicit local inference boundaries only. -/
def unifyInference (fuel : Nat) (a b : Ty) : Infer Unit :=
  transaction (unifyInferenceInner fuel a b)

/-- Compatibility probe: the constraint is always rolled back. -/
def probeCompatible (fuel : Nat) (a b : Ty) (s : Table) : Option (Bool × Table) := do
  let checkpoint := s.trail.length
  let (outcome, s') ← constrain fuel a b s.enter
  let compatible := match outcome with
    | .ok () => true
    | .error _ => false
  some (compatible, s'.leave checkpoint true)

/-- Side-effect-free compatibility query: checked unification in a table of its own. -/
def typesCompatible (fuel : Nat) (a b : Ty) : Option Bool := do
  let (outcome, _) ← constrain fuel a b Table.new
  match outcome with
  | .ok () => some true
  | .error _ => some false

end Mimi.Core
