/-
Module: Mimi.Runtime.Executor
Purpose: The executor of runtime/future.rs: the queue, `mimi_executor_spawn`, the loop of `mimi_executor_run`, and the
  calls that the program makes around it and a poll function makes inside of it.
Trusted boundary: human-reviewed translation for one thread; futures are numbered as they are allocated, and no number
  is used twice.  What a poll function calls and when it returns are operations of the machine
-/
import Mimi.Runtime.Future

namespace Mimi.Runtime.Executor

open Mimi.Lib
open Future (Completed MimiFutureHeader FUTURE_MIN_DATA_CAPACITY future_layout)

/-! ### The calls on a future -/

/-- The allocations, and `LIVE_FUTURES`. -/
structure Memory where
  heap : Nat → Option MimiFutureHeader
  live : Nat → Bool

def Memory.write (memory : Memory) (future : Nat) (header : MimiFutureHeader) : Memory :=
  { memory with heap := Function.update memory.heap future (some header) }

def Memory.dealloc (memory : Memory) (future : Nat) : Memory where
  heap := Function.update memory.heap future none
  live := Function.update memory.live future false

/-- A call that would touch memory that is not allocated has no result. -/
def future_retain_registered (future : Nat) (memory : Memory) : Option (Bool × Memory) :=
  if memory.live future then do
    let header ← memory.heap future
    if header.refs ≤ 0 then some (false, memory)
    else some (true, memory.write future { header with refs := Future.wrapping (header.refs + 1) })
  else some (false, memory)

def future_release (future : Nat) (memory : Memory) : Option Memory := do
  let header ← memory.heap future
  if header.refs = 1 then do
    -- A corrupt capacity aborts.
    let _ ← future_layout header.data_capacity
    some (memory.dealloc future)
  else some (memory.write future { header with refs := Future.wrapping (header.refs - 1) })

/-- For the future number `next`, when the allocator does not return null. -/
def mimi_future_alloc (result_size next : Nat) (granted : Bool) (memory : Memory) : Option Memory :=
  let data_capacity := max result_size FUTURE_MIN_DATA_CAPACITY
  if future_layout data_capacity = none ∨ granted = false then none
  else
    some { memory.write next ⟨.pending, 1, data_capacity⟩ with live := Function.update memory.live next true }

def mimi_future_free (future : Nat) (memory : Memory) : Option Memory := do
  let (retained, memory) ← future_retain_registered future memory
  if retained then do
    let header ← memory.heap future
    let memory ← future_release future (memory.write future { header with completed := .freed })
    future_release future memory
  else some memory

def mimi_future_set_completed (future : Nat) (memory : Memory) : Option Memory := do
  let (retained, memory) ← future_retain_registered future memory
  if retained then do
    let header ← memory.heap future
    if header.completed = .pending then
      future_release future (memory.write future { header with completed := .ready })
    else future_release future memory
  else some memory

/-- What the scan of the queue reads; a future that is freed counts as completed. -/
def is_pending (future : Nat) (memory : Memory) : Option (Bool × Memory) := do
  let (retained, memory) ← future_retain_registered future memory
  if retained then do
    let header ← memory.heap future
    let memory ← future_release future memory
    some (decide (header.completed = .pending), memory)
  else some (false, memory)

/-! ### The queue -/

abbrev PollFn := Nat

/-- A poll function and its future.  The ticket says which push this is; nothing reads it. -/
structure ExecutorEntry where
  ticket : Nat
  poll_fn : PollFn
  future : Nat
deriving DecidableEq, Repr

structure State where
  memory : Memory
  /-- The number of the next allocation. -/
  next : Nat
  /-- `EXECUTOR_QUEUE`. -/
  queue : List ExecutorEntry
  /-- The entry that `mimi_executor_run` has taken out of the queue and polls. -/
  polling : Option ExecutorEntry
  /-- The futures whose owner has not freed them; nothing reads it but the rule that an owner frees once. -/
  owned : Nat → Bool
  /-- How many entries were pushed, the tickets of those whose reference is released, and the futures that were ever in
  the queue; nothing reads them. -/
  issued : Nat
  given : List Nat
  ever : List Nat

def State.new : State where
  memory := ⟨fun _ => none, fun _ => false⟩
  next := 1
  queue := []
  polling := none
  owned _ := false
  issued := 0
  given := []
  ever := []

/-- `Vec::swap_remove`: the last element takes the place of the one that goes. -/
def swap_remove {α : Type} (queue : List α) (i : Nat) : List α :=
  match queue.getLast? with
  | none => []
  | some last => (queue.set i last).dropLast

def mimi_executor_spawn (future : Nat) (poll_fn : PollFn) (s : State) : Option State := do
  if future = 0 then some s
  else
    let (retained, memory) ← future_retain_registered future s.memory
    if retained then
      if s.queue.any fun entry => entry.future = future then do
        let memory ← future_release future memory
        some { s with memory }
      else
        some { s with
          memory
          queue := s.queue ++ [⟨s.issued, poll_fn, future⟩]
          issued := s.issued + 1
          ever := future :: s.ever }
    else some { s with memory }

/-- The first entry that is pending. -/
def find_pending : List ExecutorEntry → Memory → Option (Option Nat × Memory)
  | [], memory => some (none, memory)
  | entry :: rest, memory => do
      let (pending, memory) ← is_pending entry.future memory
      if pending then some (some 0, memory)
      else
        let (found, memory) ← find_pending rest memory
        some (found.map (· + 1), memory)

/-- The release of the references of a queue that is drained. -/
def release_all : List ExecutorEntry → Memory → Option Memory
  | [], memory => some memory
  | entry :: rest, memory => do
      let memory ← future_release entry.future memory
      release_all rest memory

/-- What a call lets its caller see. -/
inductive Answer where
  | unit
  | future (number : Nat)
  /-- `mimi_executor_run` calls a poll function. -/
  | polls (poll_fn : PollFn) (future : Nat)
  /-- `mimi_executor_run` returns. -/
  | returned
deriving DecidableEq, Repr

/-- The section of the loop under the lock of the queue. -/
def round (s : State) : Option (Answer × State) := do
  if s.queue.isEmpty then some (.returned, s)
  else
    let (found, memory) ← find_pending s.queue s.memory
    match found with
    | some i => do
        let entry ← s.queue[i]?
        some (.polls entry.poll_fn entry.future,
          { s with memory, queue := swap_remove s.queue i, polling := some entry })
    | none => do
        let memory ← release_all s.queue memory
        some (.returned, { s with memory, queue := [], given := s.queue.map ExecutorEntry.ticket ++ s.given })

inductive ExecutorOp where
  | alloc (result_size : Nat) (granted : Bool)
  | free (future : Nat)
  | set_completed (future : Nat)
  | spawn (future : Nat) (poll_fn : PollFn)
  | run
  /-- The poll function returns. -/
  | finish
deriving DecidableEq, Repr

/-- The calls of the program outside of `mimi_executor_run`, and of the poll function inside of it. -/
def executorStep (op : ExecutorOp) (s : State) : Option (Answer × State) :=
  match op with
  | .alloc result_size granted =>
      match mimi_future_alloc result_size s.next granted s.memory with
      | none => some (.future 0, s)
      | some memory =>
          some (.future s.next,
            { s with memory, next := s.next + 1, owned := Function.update s.owned s.next true })
  | .free future =>
      if future = 0 then some (.unit, s)
      else if s.owned future then do
        let memory ← mimi_future_free future s.memory
        some (.unit, { s with memory, owned := Function.update s.owned future false })
      else none
  | .set_completed future =>
      if future = 0 then some (.unit, s)
      else do
        let memory ← mimi_future_set_completed future s.memory
        some (.unit, { s with memory })
  | .spawn future poll_fn => do
      let s ← mimi_executor_spawn future poll_fn s
      some (.unit, s)
  | .run =>
      match s.polling with
      | none => round s
      | some _ => none
  | .finish =>
      match s.polling with
      | none => none
      | some entry => do
          let memory ← future_release entry.future s.memory
          round { s with memory, polling := none, given := entry.ticket :: s.given }

def ExecutorMachine : Machine State ExecutorOp Answer := ⟨.new, executorStep⟩

end Mimi.Runtime.Executor
