/-
Module: Mimi.Runtime.Actor
Purpose: The registry of live actors of runtime/actor.rs with the calls that spawn, drop and kill
  actors.  A thread is in one call at a time, and every locked section and every atomic access of a
  call is a step of its own, so that the calls of several threads interleave.
Trusted boundary: human-reviewed translation; the address of a new actor and whether the system starts
  its thread are inputs of a step
-/
import Mimi.Lib.Closure
import Mimi.Lib.Machine

namespace Mimi.Runtime

open Mimi.Lib

/-- What `MimiActorRepr` records of an actor. -/
structure Actor where
  id : Nat
  /-- The actor on whose worker it was spawned. -/
  parent_id : Option Nat
  /-- Detached actors are excluded from the cascades of their parent. -/
  detached : Bool
deriving DecidableEq, Repr

/-- What a call of `mimi_actor_spawn` or `mimi_actor_spawn_detached` brings; `current` is
`CURRENT_ACTOR_ID` of its thread, 0 outside of the workers. -/
structure SpawnRequest where
  fields_null : Bool
  dispatch_null : Bool
  fields_size : Int
  detached : Bool
  current : Nat
deriving DecidableEq, Repr

/-- A call with what it has still to do. -/
inductive Call where
  | spawn (request : SpawnRequest)
  /-- The quota has been read, and is not 0. -/
  | spawnQuota (request : SpawnRequest) (max : Nat)
  | spawnDraw (request : SpawnRequest)
  /-- The worker has been started. -/
  | spawnInsert (actor : Actor)
  | spawnCount (handle : Nat)
  | drop (handle : Nat)
  | dropAll
  | dropCount (removed : Nat)
  | systemKill (handle : Nat)
  /-- The victims have been removed; those listed have still to be shut down. -/
  | killStop (root : Nat) (victims : List Actor) (removed : Nat)
deriving DecidableEq, Repr

/-- The calls a thread can make. -/
def Call.isEntry : Call → Bool
  | .spawn _ | .drop _ | .dropAll | .systemKill _ => true
  | _ => false

abbrev Thread := Nat

structure ActorRuntime where
  /-- `LIVE_ACTORS`: the actors under their handles, in the order in which the map is walked. -/
  live : List (Nat × Actor)
  /-- How many identities `ACTOR_ID_COUNTER` has handed out. -/
  drawn : Nat
  spawn_max : Nat
  spawn_count : Nat
  /-- The actors whose mailbox has been closed by a kill. -/
  stopped : List Nat
  calls : Thread → Option Call
  /-- Every actor that has ever been registered with its handle, latest first; nothing reads it. -/
  born : List (Nat × Actor)

def ActorRuntime.new : ActorRuntime := ⟨[], 0, 0, 0, [], fun _ => none, []⟩

/-- What a step lets its caller see. -/
inductive ActorAnswer where
  | running
  | spawned (handle : Nat)
  | dropped
  /-- The kill has returned; the actor that the handle stood for. -/
  | killed (root : Option Nat)
  | configured
deriving DecidableEq, Repr

/-- `fetch_add` on a `u64`. -/
def wrapping (n : Nat) : Nat := n % 2 ^ 64

/-- The attached children among some actors. -/
def childIds (actors : List Actor) (parent : Nat) : List Nat :=
  (actors.filter fun actor => actor.parent_id = some parent && !actor.detached).map Actor.id

/-- The identities that a kill collects below its root. -/
def killIds (actors : List Actor) (root : Nat) : List Nat :=
  closeFrom (childIds actors) (actors.length + 2) 0 [root]

/-- What the environment decides in a step: the address of a new actor, and whether its worker
starts. -/
structure Chance where
  raw : Nat
  starts : Bool
deriving DecidableEq, Repr

/-- The next step of a call: what the caller sees, what the call has still to do, and the state.  A step
that cannot be taken has no result. -/
def advance (chance : Chance) (call : Call) (s : ActorRuntime) :
    Option (ActorAnswer × Option Call × ActorRuntime) :=
  match call with
  | .spawn request =>
      if request.fields_null || request.dispatch_null then some (.spawned 0, none, s)
      else if s.spawn_max = 0 then some (.running, some (.spawnDraw request), s)
      else some (.running, some (.spawnQuota request s.spawn_max), s)
  | .spawnQuota request max =>
      if max ≤ s.spawn_count then some (.spawned 0, none, s)
      else some (.running, some (.spawnDraw request), s)
  | .spawnDraw request =>
      let id := wrapping (s.drawn + 1)
      let parent_id :=
        if request.detached || request.current = 0 then none else some request.current
      let s := { s with drawn := s.drawn + 1 }
      if request.fields_size < 0 || 2 ^ 30 < request.fields_size then some (.spawned 0, none, s)
      else if chance.starts then
        some (.running, some (.spawnInsert ⟨id, parent_id, request.detached⟩), s)
      else some (.spawned 0, none, s)
  | .spawnInsert actor =>
      -- a new allocation shares its address with no actor that is still registered
      if chance.raw = 0 || s.live.any (fun entry => entry.1 = chance.raw) then none
      else if actor.parent_id.all fun parent => s.live.any fun entry => entry.2.id = parent then
        some (.running, some (.spawnCount chance.raw),
          { s with live := s.live ++ [(chance.raw, actor)]
                   born := (chance.raw, actor) :: s.born })
      else some (.spawned 0, none, s)
  | .spawnCount handle =>
      some (.spawned handle, none, { s with spawn_count := wrapping (s.spawn_count + 1) })
  | .drop handle =>
      if handle = 0 then some (.dropped, none, s)
      else
        match s.live.lookup handle with
        | none => some (.dropped, none, s)
        | some _ =>
            some (.running, some (.dropCount 1),
              { s with live := s.live.filter fun entry => entry.1 ≠ handle })
  | .dropAll =>
      if s.live.isEmpty then some (.dropped, none, s)
      else some (.running, some (.dropCount s.live.length), { s with live := [] })
  | .dropCount removed =>
      some (.dropped, none, { s with spawn_count := s.spawn_count - removed })
  | .systemKill handle =>
      if handle = 0 then some (.killed none, none, s)
      else
        match s.live.lookup handle with
        | none => some (.killed ((s.born.lookup handle).map Actor.id), none, s)
        | some root =>
            let ids := killIds (s.live.map Prod.snd) root.id
            let victims := s.live.filter fun entry => entry.2.id ∈ ids
            some (.running, some (.killStop root.id (victims.map Prod.snd) victims.length),
              { s with live := s.live.filter fun entry => entry.2.id ∉ ids })
  | .killStop root (actor :: victims) removed =>
      some (.running, some (.killStop root victims removed),
        { s with stopped := actor.id :: s.stopped })
  | .killStop root [] removed =>
      some (.killed (some root), none, { s with spawn_count := s.spawn_count - removed })

inductive ActorOp where
  /-- A thread makes a call. -/
  | enter (thread : Thread) (call : Call)
  /-- A thread takes the next step of its call. -/
  | advance (thread : Thread) (chance : Chance)
  | setMaxChildren (max : Int)
deriving DecidableEq, Repr

def actorStep (op : ActorOp) (s : ActorRuntime) : Option (ActorAnswer × ActorRuntime) :=
  match op with
  | .enter thread call =>
      if call.isEntry && (s.calls thread).isNone then
        some (.running, { s with calls := Function.update s.calls thread (some call) })
      else none
  | .advance thread chance => do
      let call ← s.calls thread
      let next ← advance chance call s
      return (next.1, { next.2.2 with calls := Function.update s.calls thread next.2.1 })
  | .setMaxChildren max => some (.configured, { s with spawn_max := max.toNat })

def ActorMachine : Machine ActorRuntime ActorOp ActorAnswer := ⟨.new, actorStep⟩

end Mimi.Runtime
