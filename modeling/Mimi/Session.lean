/-
Module: Mimi.Session
Purpose: Session types: dualization, name resolution, the search for circular declarations and the
  order checker of channel endpoints.
  The declared sessions are an association list.  An order error carries the offending residual
  itself, which the source renders for the diagnostic.
Trusted boundary: human-reviewed translation of `src/session.rs` and `enum SessionType` in
  `src/ast.rs`
-/
import Mimi.Core.Unification
import Mimi.Lib.ThreeColors

namespace Mimi

open Mimi.Core

/-- A session type expression: `!T.S`, `?T.S`, `dual(S)`, a session name, or `end`. -/
inductive SessionType where
  | located (session : SessionType)
  | send (payload : Ty) (cont : SessionType)
  | recv (payload : Ty) (cont : SessionType)
  | dual (inner : SessionType)
  | name (n : String)
  | end_
deriving Repr, Inhabited

namespace SessionType

def unlocated : SessionType → SessionType
  | located session => session.unlocated
  | session => session

mutual

/-- Compute the dual of a session type.  A name is kept symbolic until it is resolved. -/
def dualize : SessionType → SessionType
  | located session => session.dualize
  | send payload cont => recv payload cont.dualize
  | recv payload cont => send payload cont.dualize
  | end_ => end_
  | dual inner => inner.dualizeDual
  | name n => dual (name n)

/-- The arm of `dual` on `Dual(inner)`: nested duals collapse, a single one is taken off. -/
def dualizeDual : SessionType → SessionType
  | located session => session.dualizeDual
  | dual inner => inner.dualize
  | other => other

end

/-- The declarations that are not being expanded. -/
def unvisited (env : List (String × SessionType)) (visiting : List String) :
    List (String × SessionType) :=
  env.filter fun entry => entry.1 ∉ visiting

theorem unvisited_cons_lt {env : List (String × SessionType)} {visiting : List String} {n : String}
    {body : SessionType} (fresh : n ∉ visiting) (declared : env.lookup n = some body) :
    (unvisited env (n :: visiting)).length < (unvisited env visiting).length := by
  have entry : (n, body) ∈ env := by
    obtain ⟨before, after, rfl, -⟩ := List.lookup_eq_some_iff.mp declared
    simp
  have shrinks : unvisited env (n :: visiting)
      = (unvisited env visiting).filter fun entry => entry.1 ≠ n := by
    simp [unvisited, List.filter_filter]
  rw [shrinks]
  exact List.length_filter_lt_length_iff_exists.mpr
    ⟨(n, body), by simp [unvisited, entry, fresh], by simp⟩

/-- Resolve names and expand `dual(...)`.  The set of names being expanded is a path: a name is
taken off it again once its body is done, so the recursion passes it down. -/
def resolveInner (env : List (String × SessionType)) (visiting : List String) :
    SessionType → Option SessionType
  | located session => resolveInner env visiting session
  | send payload cont => do
      let c ← resolveInner env visiting cont
      some (send payload c)
  | recv payload cont => do
      let c ← resolveInner env visiting cont
      some (recv payload c)
  | end_ => some end_
  | name n =>
      if _fresh : n ∉ visiting then
        match _declared : env.lookup n with
        | some body => resolveInner env (n :: visiting) body
        | none => none
      else none
  | dual inner => do
      let r ← resolveInner env visiting inner
      some r.dualize
termination_by session => ((unvisited env visiting).length, sizeOf session)
decreasing_by
  all_goals simp_wf
  all_goals first
    | exact Prod.Lex.right _ (by omega)
    | exact Prod.Lex.left _ _ (unvisited_cons_lt ‹_› ‹_›)

/-- A declared name that is not being expanded resolves to its body. -/
theorem resolveInner_name {env : List (String × SessionType)} {visiting : List String} {n : String}
    {body : SessionType} (fresh : n ∉ visiting) (declared : env.lookup n = some body) :
    resolveInner env visiting (name n) = resolveInner env (n :: visiting) body := by
  rw [resolveInner, dif_pos fresh]
  split <;> simp_all

/-- Resolve a session type; `none` for an unknown name or a circular definition. -/
def resolve (env : List (String × SessionType)) (s : SessionType) : Option SessionType :=
  resolveInner env [] s

/-- Collect every session name referenced anywhere inside a session type into a list without
duplicates, which stands for the hash set. -/
def referenced_names : SessionType → List String → List String
  | located session, out => session.referenced_names out
  | send _ cont, out => cont.referenced_names out
  | recv _ cont, out => cont.referenced_names out
  | dual inner, out => inner.referenced_names out
  | name n, out => out.insert n
  | end_, out => out

/-- The names referenced by the declaration of a name that are declared themselves. -/
def references (env : List (String × SessionType)) (n : String) : List String :=
  match env.lookup n with
  | some body => (body.referenced_names []).filter fun m => (env.lookup m).isSome
  | none => []

/-- An order in which the hash map of the declarations and the hash sets of references are iterated. -/
structure Visits (env : List (String × SessionType)) where
  starts : List String
  refs : String → List String
  starts_perm : starts.Perm (env.map Prod.fst)
  refs_perm : ∀ n, (refs n).Perm (references env n)

/-- The order of the declarations. -/
def Visits.declared (env : List (String × SessionType)) : Visits env where
  starts := env.map Prod.fst
  refs := references env
  starts_perm := .rfl
  refs_perm _ := .rfl

/-- Detect a circular session definition: one offending cycle as a name path whose first and last
elements are equal.  The search has three colors; its loop ends when the fuel is used up. -/
def detect_session_cycle {env : List (String × SessionType)} (visits : Visits env) (fuel : Nat) :
    Option (Option (List String)) :=
  Lib.ThreeColors.detect visits.refs fuel visits.starts

/-- Structural equality of session types after dual-normalization.  The fuel bounds the calls; a comparison that uses
it up does not return. -/
def session_eq : Nat → SessionType → SessionType → Option Bool
  | 0, _, _ => none
  | fuel + 1, a, b =>
      match a.unlocated, b.unlocated with
      | end_, end_ => some true
      | send ta ca, send tb cb | recv ta ca, recv tb cb => do
          if ← typesCompatible fuel ta tb then session_eq fuel ca cb else some false
      | name a, name b => some (a == b)
      | dual a, dual b => session_eq fuel a b
      | dual a, b => session_eq fuel a.dualize b
      | a, dual b => session_eq fuel a b.dualize
      | _, _ => some false

end SessionType

/-- Action performed on a session endpoint. -/
inductive SessionAction where
  | send
  | recv
  | close
deriving DecidableEq, Repr

/-- Error from applying an action to a residual session type, which is kept as it is and not as the text of
`fmt_session`. -/
inductive SessionOrderError where
  | expectedSend (residual : SessionType)
  | expectedRecv (residual : SessionType)
  | expectedEnd (residual : SessionType)
  | alreadyEnded
deriving Repr

/-- Take the wrappers off a residual: source annotations and an outer `dual(...)`. -/
def SessionType.normalize (residual : SessionType) : SessionType :=
  match residual.unlocated with
  | dual inner => inner.dualize
  | other => other

open SessionType in
/-- Apply an action to a residual protocol: the new residual, with the payload type of a send or a
receive. -/
def applyAction (residual : SessionType) (action : SessionAction) :
    Except SessionOrderError (SessionType × Option Ty) :=
  match action, residual.normalize with
  | .send, send t cont => .ok (cont, some t)
  | .send, end_ => .error .alreadyEnded
  | .send, other => .error (.expectedSend other)
  | .recv, recv t cont => .ok (cont, some t)
  | .recv, end_ => .error .alreadyEnded
  | .recv, other => .error (.expectedRecv other)
  | .close, end_ => .ok (end_, none)
  | .close, other => .error (.expectedEnd other)

end Mimi
