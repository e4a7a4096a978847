/-
Module: Mimi.Runtime.Future
Purpose: The futures of runtime/future.rs with the calls that allocate, free, complete, query, spawn and await them.
  A thread is in one call at a time, a worker in one poll; every atomic access and every section under a lock is a
  step of its own, so that the calls of several threads interleave.
Trusted boundary: human-reviewed translation for a 64-bit target; the address of an allocation, whether the pool
  takes a job, and what a poll function calls are inputs of a step.  Threads for nested spawns take their job from
  the same list as the workers of the pool
-/
import Mimi.Lib.Machine

namespace Mimi.Runtime.Future

open Mimi.Lib

abbrev Address := Nat

abbrev Thread := Nat

/-- The field `completed`: 0, 1 and -1. -/
inductive Completed where
  | pending
  | ready
  | freed
deriving DecidableEq, Repr

structure MimiFutureHeader where
  completed : Completed
  refs : Int
  data_capacity : Nat
deriving DecidableEq, Repr

def FUTURE_HEADER_SIZE : Nat := 16

def FUTURE_MIN_DATA_CAPACITY : Nat := 64

def FUTURE_ALIGN : Nat := 8

/-- The size of an allocation with a data region, unless the region is too small or the size is no size. -/
def future_layout (data_capacity : Nat) : Option Nat :=
  if data_capacity < FUTURE_MIN_DATA_CAPACITY then none
  else if 2 ^ 63 - FUTURE_ALIGN < FUTURE_HEADER_SIZE + data_capacity then none
  else some (FUTURE_HEADER_SIZE + data_capacity)

/-- Arithmetic on an `AtomicI32`. -/
def wrapping (n : Int) : Int := n.bmod (2 ^ 32)

theorem wrapping_small {n : Int} (low : 0 ≤ n) (high : n < 2 ^ 31) : wrapping n = n := by
  rw [wrapping, Int.bmod_eq_of_le] <;> omega

/-- The functions that begin with `future_retain_registered`. -/
inductive Entry where
  | free
  | setCompleted
  | isCompleted
  | spawn
  | await
deriving DecidableEq, Repr

/-- What a function returns for a null pointer and for a future that is released. -/
def Entry.rejected : Entry → Option Int
  | free | setCompleted | await => none
  | isCompleted => some 1
  | spawn => some 0

/-- The places inside of the functions behind the retain. -/
inductive Site where
  /-- `free`, in front of the store of the freed mark. -/
  | store
  /-- `set_completed`, in front of the lock. -/
  | lock
  | exchange
  | notify
  /-- `is_completed`. -/
  | load
  /-- `spawn_future`, in front of the send. -/
  | send
  /-- `await_future`, in front of the fast path. -/
  | check
  /-- In front of the lock, for the first time or behind a wake-up. -/
  | acquire
  /-- Under the lock, in front of the condition of the loop. -/
  | recheck
  /-- Under the lock, in the loop, in front of the wait. -/
  | wait
  /-- In the wait, with the lock given up. -/
  | blocked
  /-- Under the lock, behind the loop. -/
  | drop
deriving DecidableEq, Repr

/-- The stages of `future_release`. -/
inductive Release where
  | sub
  | unregister
  | dealloc (data_capacity : Nat)
deriving DecidableEq, Repr

/-- What follows a release. -/
inductive After where
  /-- The release of the reference of the owner. -/
  | owner
  /-- The end of the section under the lock. -/
  | unlock
  | return_ (value : Option Int)
deriving DecidableEq, Repr

/-- A call with what it has still to do. -/
inductive Call where
  /-- `alloc`, with the header written. -/
  | register (future : Address)
  | retain (entry : Entry) (future : Address)
  | body (site : Site) (future : Address)
  | release (stage : Release) (future : Address) (after : After)
  | unlock
deriving DecidableEq, Repr

/-- The place of a function behind its retain. -/
def Entry.site : Entry → Site
  | free => .store
  | setCompleted => .lock
  | isCompleted => .load
  | spawn => .send
  | await => .check

/-- What a thread is doing; a job is the future whose poll function it runs. -/
inductive Activity where
  | calling (job : Option Address) (call : Call)
  | polling (job : Address)
deriving DecidableEq, Repr

structure State where
  /-- The allocations. -/
  heap : Address → Option MimiFutureHeader
  /-- `LIVE_FUTURES`. -/
  live : Address → Bool
  /-- Who holds `AWAIT_LOCK`. -/
  await_lock : Option Thread
  /-- The jobs that no worker has taken. -/
  jobs : List Address
  threads : Thread → Option Activity
  /-- The futures whose owner has not freed them; nothing reads it but the rule that an owner frees once. -/
  owned : Address → Bool
  /-- How often an address was allocated and released; nothing reads them. -/
  allocated : Address → Nat
  released : Address → Nat
  aborted : Bool

def State.new : State where
  heap _ := none
  live _ := false
  await_lock := none
  jobs := []
  threads _ := none
  owned _ := false
  allocated _ := 0
  released _ := 0
  aborted := false

def State.write (s : State) (future : Address) (header : MimiFutureHeader) : State :=
  { s with heap := Function.update s.heap future (some header) }

/-- What a step lets its caller see. -/
inductive Answer where
  | running
  | returned (value : Option Int)
  | aborted
deriving DecidableEq, Repr

/-- Behind a release. -/
def leave (future : Address) (s : State) : After → Answer × Option Call × State
  | .owner => (.running, some (.release .sub future (.return_ none)), s)
  | .unlock => (.running, some .unlock, s)
  | .return_ value => (.returned value, none, s)

/-- A thread in the wait goes on to take the lock again. -/
def Activity.wake : Activity → Activity
  | calling job (.body .blocked future) => calling job (.body .acquire future)
  | activity => activity

/-- The next step of a call: what the caller sees, what the call has still to do, and the state.  A step that would
touch memory that is not allocated, take a lock that is held, or leave the wait by itself has no result. -/
def advance (thread : Thread) (accepted : Bool) (call : Call) (s : State) :
    Option (Answer × Option Call × State) :=
  match call with
  | .register future =>
      some (.returned (some future), none,
        { s with live := Function.update s.live future true, owned := Function.update s.owned future true })
  | .retain entry future =>
      if s.live future then do
        let header ← s.heap future
        if header.refs ≤ 0 then some (.returned entry.rejected, none, s)
        else
          some (.running, some (.body entry.site future),
            s.write future { header with refs := wrapping (header.refs + 1) })
      else some (.returned entry.rejected, none, s)
  | .body .store future => do
      let header ← s.heap future
      some (.running, some (.release .sub future .owner), s.write future { header with completed := .freed })
  | .body .lock future =>
      if s.await_lock = none then
        some (.running, some (.body .exchange future), { s with await_lock := some thread })
      else none
  | .body .exchange future => do
      let header ← s.heap future
      if header.completed = .pending then
        some (.running, some (.body .notify future), s.write future { header with completed := .ready })
      else some (.running, some (.release .sub future .unlock), s)
  | .body .notify future =>
      some (.running, some (.release .sub future .unlock),
        { s with threads := fun other => (s.threads other).map Activity.wake })
  | .body .load future => do
      let header ← s.heap future
      let value : Int := if header.completed = .pending then 0 else 1
      some (.running, some (.release .sub future (.return_ (some value))), s)
  | .body .send future =>
      if accepted then some (.returned (some future), none, { s with jobs := s.jobs ++ [future] })
      else some (.running, some (.release .sub future (.return_ (some 0))), s)
  | .body .check future => do
      let header ← s.heap future
      if header.completed = .pending then some (.running, some (.body .acquire future), s)
      else some (.running, some (.release .sub future (.return_ none)), s)
  | .body .acquire future =>
      if s.await_lock = none then
        some (.running, some (.body .recheck future), { s with await_lock := some thread })
      else none
  | .body .recheck future => do
      let header ← s.heap future
      if header.completed = .pending then some (.running, some (.body .wait future), s)
      else some (.running, some (.body .drop future), s)
  | .body .wait future => some (.running, some (.body .blocked future), { s with await_lock := none })
  | .body .blocked _ => none
  | .body .drop future =>
      some (.running, some (.release .sub future (.return_ none)), { s with await_lock := none })
  | .release .sub future after => do
      let header ← s.heap future
      let s := s.write future { header with refs := wrapping (header.refs - 1) }
      if header.refs = 1 then some (.running, some (.release .unregister future after), s)
      else some (leave future s after)
  | .release .unregister future after => do
      let header ← s.heap future
      some (.running, some (.release (.dealloc header.data_capacity) future after),
        { s with live := Function.update s.live future false })
  | .release (.dealloc data_capacity) future after =>
      match future_layout data_capacity with
      | none => some (.aborted, none, { s with aborted := true })
      | some _ =>
          some (leave future { s with heap := Function.update s.heap future none
                                      released := Function.update s.released future (s.released future + 1) } after)
  | .unlock => some (.returned none, none, { s with await_lock := none })

/-- What a thread does between calls. -/
def rest : Option Address → Option Activity
  | none => none
  | some job => some (.polling job)

/-- The job of a thread that is not in a call. -/
def resting (s : State) (thread : Thread) : Option (Option Address) :=
  match s.threads thread with
  | none => some none
  | some (.polling job) => some (some job)
  | some (.calling _ _) => none

inductive FutureOp where
  /-- `alloc`, where the allocator returns an address that is not in use, or null. -/
  | alloc (thread : Thread) (result_size : Nat) (future : Address)
  | enter (thread : Thread) (entry : Entry) (future : Address)
  /-- A thread takes the next step of its call. -/
  | advance (thread : Thread) (accepted : Bool)
  /-- A wait ends though nobody has notified. -/
  | wake (thread : Thread)
  /-- A worker takes a job. -/
  | take (thread : Thread) (index : Nat)
  /-- The poll function of a worker returns. -/
  | finish (thread : Thread)
deriving DecidableEq, Repr

def futureStep (op : FutureOp) (s : State) : Option (Answer × State) :=
  if s.aborted then none
  else
    match op with
    | .alloc thread result_size future => do
        let job ← resting s thread
        let data_capacity := max result_size FUTURE_MIN_DATA_CAPACITY
        if future_layout data_capacity = none ∨ future = 0 then some (.returned (some 0), s)
        else if s.heap future = none then
          some (.running,
            { s.write future ⟨.pending, 1, data_capacity⟩ with
              allocated := Function.update s.allocated future (s.allocated future + 1)
              threads := Function.update s.threads thread (some (.calling job (.register future))) })
        else none
    | .enter thread entry future => do
        let job ← resting s thread
        if future = 0 then some (.returned entry.rejected, s)
        else if entry = .free then
          if s.owned future then
            some (.running,
              { s with
                owned := Function.update s.owned future false
                threads := Function.update s.threads thread (some (.calling job (.retain .free future))) })
          else none
        else
          some (.running,
            { s with threads := Function.update s.threads thread (some (.calling job (.retain entry future))) })
    | .advance thread accepted =>
        match s.threads thread with
        | some (.calling job call) => do
            let next ← advance thread accepted call s
            let activity := (next.2.1.map (Activity.calling job)).or (rest job)
            some (next.1, { next.2.2 with threads := Function.update next.2.2.threads thread activity })
        | _ => none
    | .wake thread =>
        match s.threads thread with
        | some (.calling job (.body .blocked future)) =>
            some (.running,
              { s with threads := Function.update s.threads thread (some (.calling job (.body .acquire future))) })
        | _ => none
    | .take thread index => do
        let job ← s.jobs[index]?
        if s.threads thread = none then
          some (.running,
            { s with
              jobs := s.jobs.eraseIdx index
              threads := Function.update s.threads thread (some (.polling job)) })
        else none
    | .finish thread =>
        match s.threads thread with
        | some (.polling job) =>
            some (.running,
              { s with
                threads := Function.update s.threads thread
                  (some (.calling none (.release .sub job (.return_ none)))) })
        | _ => none

def FutureMachine : Machine State FutureOp Answer := ⟨.new, futureStep⟩

end Mimi.Runtime.Future
