/-
Module: Mimi.Proofs.ActorAccounting
Purpose: What the spawn count says about the registry.  A call on its way owes the count what it has done
  to the registry; while no subtraction is cut off at zero these debts balance, and once no call is on
  its way the count is exact.  The quota is kept while no spawn passes it on a count that has not caught
  up with those before it.
Trusted boundary: none
-/
import Mimi.Runtime.Actor
import Mimi.Lib.Tally
import Mimi.Proofs.KillSafety

namespace Mimi.Runtime

open Mimi.Lib

/-- No call is in progress. -/
def Idle (s : ActorRuntime) : Prop := ∀ thread, s.calls thread = none

/-- The actors that a call has registered and not counted. -/
def uncounted : Call → Nat
  | .spawnCount _ => 1
  | _ => 0

/-- The actors that a call has removed and not yet taken off the count. -/
def owed : Call → Nat
  | .dropCount removed | .killStop _ _ removed => removed
  | _ => 0

/-- The actors that a call is past the quota with and has not registered. -/
def starting : Call → Nat
  | .spawnDraw _ | .spawnInsert _ => 1
  | _ => 0

/-- The count does not wrap around, and no subtraction from it is cut off at zero. -/
def KeepsCount (op : ActorOp) (s : ActorRuntime) : Prop :=
  match op with
  | .advance thread _ =>
      match s.calls thread with
      | some (.spawnCount _) => s.spawn_count + 1 < 2 ^ 64
      | some (.dropCount removed) | some (.killStop _ [] removed) => removed ≤ s.spawn_count
      | _ => True
  | _ => True

/-- An operation that leaves the maximum alone. -/
def ActorOp.leavesMax : ActorOp → Bool
  | .setMaxChildren _ => false
  | _ => true

/-- The maximum is left alone, and a spawn that passes the quota finds room beside the live actors and
those on their way into the registry. -/
def KeepsQuota (op : ActorOp) (s : ActorRuntime) : Prop :=
  match op with
  | .advance thread _ =>
      match s.calls thread with
      | some (.spawnQuota _ max) =>
          s.spawn_count < max → s.live.length + total starting s.calls < max
      | _ => True
  | .setMaxChildren _ => False
  | _ => True

/-- The actors of a process whose maximum has been set. -/
def FixedMachine (max : Nat) : Machine ActorRuntime ActorOp ActorAnswer :=
  ⟨{ ActorRuntime.new with spawn_max := max }, actorStep⟩

/-- Handles are the keys of a map. -/
def KeysApart (live : List (Nat × Actor)) : Prop := (live.map Prod.fst).Nodup

theorem KeysApart.filter {live : List (Nat × Actor)} (keys : KeysApart live)
    (keep : Nat × Actor → Bool) : KeysApart (live.filter keep) :=
  keys.sublist (List.filter_sublist.map _)

/-- Taking one handle out removes one actor. -/
theorem length_remove {live : List (Nat × Actor)} (keys : KeysApart live) {handle : Nat}
    {actor : Actor} (found : live.lookup handle = some actor) :
    (live.filter fun entry => entry.1 ≠ handle).length + 1 = live.length := by
  induction live with
  | nil => cases found
  | cons entry live ih =>
      obtain ⟨key, value⟩ := entry
      rw [KeysApart, List.map_cons, List.nodup_cons] at keys
      by_cases same : handle = key
      · subst same
        have others : live.filter (fun entry => entry.1 ≠ handle) = live := by
          refine List.filter_eq_self.mpr fun entry member => decide_eq_true fun eq => ?_
          exact keys.1 (List.mem_map.mpr ⟨entry, member, eq⟩)
        rw [List.filter_cons_of_neg (by simp), others, List.length_cons]
      · have rest : live.lookup handle = some actor := by
          rwa [List.lookup_cons, beq_false_of_ne same] at found
        rw [List.filter_cons_of_pos (by simpa using Ne.symm same), List.length_cons,
          List.length_cons, ih keys.2 rest]

/-- What is removed and what is kept. -/
theorem length_split (live : List (Nat × Actor)) (ids : List Nat) :
    (live.filter fun entry => entry.2.id ∈ ids).length +
      (live.filter fun entry => entry.2.id ∉ ids).length = live.length := by
  have parts := List.length_eq_length_filter_add (l := live) fun entry => decide (entry.2.id ∈ ids)
  simpa only [decide_not] using parts.symm

/-- What a step does to the books: what the count and the debts of the call change by is what the
registry changes by. -/
structure Booked (s : ActorRuntime) (call : Call) (next : Option Call) (s' : ActorRuntime) : Prop where
  keys : KeysApart s'.live
  calls : s'.calls = s.calls
  balance : s'.spawn_count + weighed uncounted next + (s.live.length + owed call) =
    s.spawn_count + uncounted call + (s'.live.length + weighed owed next)

variable {s : ActorRuntime} {call : Call}

theorem Booked.still {next : Option Call} (keys : KeysApart s.live)
    (counted : weighed uncounted next = uncounted call) (debts : weighed owed next = owed call) :
    Booked s call next s := by
  refine ⟨keys, rfl, ?_⟩
  rw [counted, debts]

variable {s' : ActorRuntime} {answer : ActorAnswer}

theorem advance_booked {thread : Thread} {chance : Chance} {next : Option Call} (keys : KeysApart s.live)
    (here : s.calls thread = some call) (may : KeepsCount (.advance thread chance) s)
    (steps : advance chance call s = some (answer, next, s')) : Booked s call next s' := by
  rw [KeepsCount, here] at may
  cases call with
  | spawn request =>
      rw [advance] at steps
      split_ifs at steps <;> obtain ⟨-, rfl, rfl⟩ := eq_of_some steps <;> exact .still keys rfl rfl
  | spawnQuota request max =>
      rw [advance] at steps
      split_ifs at steps <;> obtain ⟨-, rfl, rfl⟩ := eq_of_some steps <;> exact .still keys rfl rfl
  | spawnDraw request =>
      simp only [advance] at steps
      split_ifs at steps <;> obtain ⟨-, rfl, rfl⟩ := eq_of_some steps <;> exact ⟨keys, rfl, rfl⟩
  | spawnInsert actor =>
      rw [advance] at steps
      split_ifs at steps with taken parent <;> obtain ⟨-, rfl, rfl⟩ := eq_of_some steps
      · refine ⟨?_, rfl, ?_⟩
        · rw [Bool.or_eq_true, not_or, Bool.not_eq_true, Bool.not_eq_true, List.any_eq_false] at taken
          rw [KeysApart, List.map_append, List.map_singleton, List.nodup_append]
          refine ⟨keys, List.nodup_singleton _, fun key member raw last eq => ?_⟩
          obtain ⟨entry, known, rfl⟩ := List.mem_map.mp member
          exact taken.2 entry known (decide_eq_true (eq.trans (List.mem_singleton.mp last)))
        · simp only [weighed_some, uncounted, owed, List.length_append, List.length_singleton]
          omega
      · exact .still keys rfl rfl
  | spawnCount handle =>
      obtain ⟨-, rfl, rfl⟩ := eq_of_some steps
      refine ⟨keys, rfl, ?_⟩
      have fits : wrapping (s.spawn_count + 1) = s.spawn_count + 1 := Nat.mod_eq_of_lt may
      simp only [fits, weighed_none, uncounted, owed]
  | drop handle =>
      rw [advance] at steps
      split_ifs at steps with null
      · obtain ⟨-, rfl, rfl⟩ := eq_of_some steps
        exact .still keys rfl rfl
      · cases found : s.live.lookup handle with
        | none =>
            rw [found] at steps
            obtain ⟨-, rfl, rfl⟩ := eq_of_some steps
            exact .still keys rfl rfl
        | some actor =>
            rw [found] at steps
            obtain ⟨-, rfl, rfl⟩ := eq_of_some steps
            refine ⟨keys.filter _, rfl, ?_⟩
            have one := length_remove keys found
            simp only [weighed_some, uncounted, owed]
            omega
  | dropAll =>
      rw [advance] at steps
      split_ifs at steps with none_ <;> obtain ⟨-, rfl, rfl⟩ := eq_of_some steps
      · exact .still keys rfl rfl
      · refine ⟨List.nodup_nil, rfl, ?_⟩
        simp only [weighed_some, uncounted, owed, List.length_nil]
        omega
  | dropCount removed =>
      obtain ⟨-, rfl, rfl⟩ := eq_of_some steps
      refine ⟨keys, rfl, ?_⟩
      have enough : removed ≤ s.spawn_count := may
      simp only [weighed_none, uncounted, owed]
      omega
  | systemKill handle =>
      rw [advance] at steps
      split_ifs at steps with null
      · obtain ⟨-, rfl, rfl⟩ := eq_of_some steps
        exact .still keys rfl rfl
      · cases found : s.live.lookup handle with
        | none =>
            rw [found] at steps
            obtain ⟨-, rfl, rfl⟩ := eq_of_some steps
            exact .still keys rfl rfl
        | some root =>
            rw [found] at steps
            obtain ⟨-, rfl, rfl⟩ := eq_of_some steps
            refine ⟨keys.filter _, rfl, ?_⟩
            have parts := length_split s.live (killIds (s.live.map Prod.snd) root.id)
            simp only [weighed_some, uncounted, owed]
            omega
  | killStop root victims removed =>
      cases victims with
      | nil =>
          obtain ⟨-, rfl, rfl⟩ := eq_of_some steps
          refine ⟨keys, rfl, ?_⟩
          have enough : removed ≤ s.spawn_count := may
          simp only [weighed_none, uncounted, owed]
          omega
      | cons actor victims =>
          obtain ⟨-, rfl, rfl⟩ := eq_of_some steps
          exact ⟨keys, rfl, rfl⟩

/-! ### The count -/

/-- The books balance: what the count says and what it has still to be told is what the registry holds
and what has still to be taken off. -/
structure Balanced (s : ActorRuntime) : Prop where
  busy : Busy s.calls
  keys : KeysApart s.live
  balance : s.spawn_count + total uncounted s.calls = s.live.length + total owed s.calls

theorem balanced_init : Balanced ActorMachine.init where
  busy := busy_idle
  keys := List.nodup_nil
  balance := by
    have idle : ∀ thread, ActorMachine.init.calls thread = none := fun _ => rfl
    rw [total_idle _ idle, total_idle _ idle]
    rfl

theorem Balanced.enter (balanced : Balanced s) {thread : Thread}
    (entry : call.isEntry = true) (free : s.calls thread = none) :
    Balanced { s with calls := Function.update s.calls thread (some call) } where
  busy := balanced.busy.update _ _
  keys := balanced.keys
  balance := by
    have counts := total_update uncounted balanced.busy thread (some call)
    have debts := total_update owed balanced.busy thread (some call)
    have old := balanced.balance
    have none_ : uncounted call = 0 ∧ owed call = 0 := by
      cases call <;> first | exact ⟨rfl, rfl⟩ | cases entry
    rw [free, weighed_none, weighed_some, none_.1] at counts
    rw [free, weighed_none, weighed_some, none_.2] at debts
    show s.spawn_count + total uncounted (Function.update s.calls thread (some call)) =
      s.live.length + total owed (Function.update s.calls thread (some call))
    omega

theorem Balanced.advance (balanced : Balanced s) {thread : Thread}
    {next : Option Call} (here : s.calls thread = some call) (booked : Booked s call next s') :
    Balanced { s' with calls := Function.update s.calls thread next } where
  busy := balanced.busy.update _ _
  keys := booked.keys
  balance := by
    have counts := total_update uncounted balanced.busy thread next
    have debts := total_update owed balanced.busy thread next
    have old := balanced.balance
    have local_ := booked.balance
    rw [here, weighed_some] at counts debts
    show s'.spawn_count + total uncounted (Function.update s.calls thread next) =
      s'.live.length + total owed (Function.update s.calls thread next)
    omega

theorem balanced_step {op : ActorOp}
    (balanced : Balanced s) (may : KeepsCount op s) (steps : actorStep op s = some (answer, s')) :
    Balanced s' := by
  cases op with
  | enter thread call =>
      rw [actorStep] at steps
      split_ifs at steps with entry
      obtain ⟨rfl, rfl⟩ := Prod.mk.inj (Option.some.inj steps)
      rw [Bool.and_eq_true, Option.isNone_iff_eq_none] at entry
      exact balanced.enter entry.1 entry.2
  | advance thread chance =>
      simp only [actorStep, Option.bind_eq_bind, Option.bind_eq_some_iff, Option.pure_def,
        Option.some.injEq, Prod.mk.injEq] at steps
      obtain ⟨call, here, ⟨answer, next, after⟩, taken, rfl, rfl⟩ := steps
      exact balanced.advance here (advance_booked balanced.keys here may taken)
  | setMaxChildren max =>
      obtain ⟨rfl, rfl⟩ := Prod.mk.inj (Option.some.inj steps)
      exact ⟨balanced.busy, balanced.keys, balanced.balance⟩

/-- Between calls there are no debts. -/
theorem Balanced.exact (balanced : Balanced s) (idle : Idle s) :
    s.spawn_count = s.live.length := by
  have balance := balanced.balance
  rwa [total_idle _ idle, total_idle _ idle] at balance

/-! ### The quota -/

/-- The actors that are live or on their way into the registry are within the maximum, which is what a
spawn has read. -/
structure Quota (max : Nat) (s : ActorRuntime) : Prop where
  busy : Busy s.calls
  fixed : s.spawn_max = max
  read : ∀ thread request read, s.calls thread = some (.spawnQuota request read) → read = max
  room : s.live.length + total starting s.calls ≤ max

theorem quota_init (max : Nat) : Quota max (FixedMachine max).init where
  busy := busy_idle
  fixed := rfl
  read _ _ _ eq := by cases eq
  room := by
    have idle : ∀ thread, (FixedMachine max).init.calls thread = none := fun _ => rfl
    rw [total_idle _ idle]
    exact Nat.zero_le _

/-- A step that goes on with a spawn only where there is room for it. -/
structure Admits (s : ActorRuntime) (call : Call) (next : Option Call) (s' : ActorRuntime) : Prop where
  fixed : s'.spawn_max = s.spawn_max
  read : ∀ request read, next = some (.spawnQuota request read) → read = s.spawn_max
  room : s'.live.length + weighed starting next ≤ s.live.length + starting call ∨
    s.live.length + total starting s.calls < s.spawn_max ∧
      s'.live.length + weighed starting next ≤ s.live.length + starting call + 1

/-- A step that registers nobody and goes on with no spawn. -/
theorem Admits.still {next : Option Call} (fixed : s'.spawn_max = s.spawn_max) (live : s'.live.length ≤ s.live.length)
    (elsewhere : ∀ request read, next ≠ some (.spawnQuota request read))
    (weighs : weighed starting next ≤ starting call) : Admits s call next s' :=
  ⟨fixed, fun request read eq => absurd eq (elsewhere request read),
    .inl (Nat.add_le_add live weighs)⟩

theorem advance_admits {thread : Thread} {chance : Chance} {next : Option Call} (positive : 0 < s.spawn_max)
    (read : ∀ request read, call = .spawnQuota request read → read = s.spawn_max)
    (here : s.calls thread = some call) (may : KeepsQuota (.advance thread chance) s)
    (steps : advance chance call s = some (answer, next, s')) : Admits s call next s' := by
  rw [KeepsQuota, here] at may
  cases call with
  | spawn request =>
      rw [advance] at steps
      split_ifs at steps with null unlimited <;> obtain ⟨-, rfl, rfl⟩ := eq_of_some steps
      · exact .still rfl le_rfl (by simp) le_rfl
      · exact absurd unlimited positive.ne'
      · refine ⟨rfl, fun request' read eq => ?_, .inl le_rfl⟩
        exact (Call.spawnQuota.inj (Option.some.inj eq)).2.symm
  | spawnQuota request max =>
      obtain rfl := read request max rfl
      rw [advance] at steps
      split_ifs at steps with full <;> obtain ⟨-, rfl, rfl⟩ := eq_of_some steps
      · exact .still rfl le_rfl (by simp) le_rfl
      · exact ⟨rfl, by simp, .inr ⟨may (Nat.lt_of_not_le full), le_rfl⟩⟩
  | spawnDraw request =>
      simp only [advance] at steps
      by_cases size : (request.fields_size < 0 || 2 ^ 30 < request.fields_size) = true
      · rw [if_pos size] at steps
        obtain ⟨-, rfl, rfl⟩ := eq_of_some steps
        exact .still rfl le_rfl (by simp) (Nat.zero_le _)
      · rw [if_neg size] at steps
        by_cases starts : chance.starts = true
        · rw [if_pos starts] at steps
          obtain ⟨-, rfl, rfl⟩ := eq_of_some steps
          exact .still rfl le_rfl (by simp) le_rfl
        · rw [if_neg starts] at steps
          obtain ⟨-, rfl, rfl⟩ := eq_of_some steps
          exact .still rfl le_rfl (by simp) (Nat.zero_le _)
  | spawnInsert actor =>
      rw [advance] at steps
      split_ifs at steps with taken parent <;> obtain ⟨-, rfl, rfl⟩ := eq_of_some steps
      · refine ⟨rfl, by simp, .inl (Nat.le_of_eq ?_)⟩
        simp only [weighed_some, starting, List.length_append, List.length_singleton]
      · exact .still rfl le_rfl (by simp) (Nat.zero_le _)
  | spawnCount handle =>
      obtain ⟨-, rfl, rfl⟩ := eq_of_some steps
      exact .still rfl le_rfl (by simp) le_rfl
  | drop handle =>
      rw [advance] at steps
      split_ifs at steps with null
      · obtain ⟨-, rfl, rfl⟩ := eq_of_some steps
        exact .still rfl le_rfl (by simp) le_rfl
      · cases found : s.live.lookup handle with
        | none =>
            rw [found] at steps
            obtain ⟨-, rfl, rfl⟩ := eq_of_some steps
            exact .still rfl le_rfl (by simp) le_rfl
        | some actor =>
            rw [found] at steps
            obtain ⟨-, rfl, rfl⟩ := eq_of_some steps
            exact .still rfl (List.length_filter_le _ _) (by simp) le_rfl
  | dropAll =>
      rw [advance] at steps
      split_ifs at steps with none_ <;> obtain ⟨-, rfl, rfl⟩ := eq_of_some steps
      · exact .still rfl le_rfl (by simp) le_rfl
      · exact .still rfl (Nat.zero_le _) (by simp) le_rfl
  | dropCount removed =>
      obtain ⟨-, rfl, rfl⟩ := eq_of_some steps
      exact .still rfl le_rfl (by simp) le_rfl
  | systemKill handle =>
      rw [advance] at steps
      split_ifs at steps with null
      · obtain ⟨-, rfl, rfl⟩ := eq_of_some steps
        exact .still rfl le_rfl (by simp) le_rfl
      · cases found : s.live.lookup handle with
        | none =>
            rw [found] at steps
            obtain ⟨-, rfl, rfl⟩ := eq_of_some steps
            exact .still rfl le_rfl (by simp) le_rfl
        | some root =>
            rw [found] at steps
            obtain ⟨-, rfl, rfl⟩ := eq_of_some steps
            exact .still rfl (List.length_filter_le _ _) (by simp) le_rfl
  | killStop root victims removed =>
      cases victims with
      | nil =>
          obtain ⟨-, rfl, rfl⟩ := eq_of_some steps
          exact .still rfl le_rfl (by simp) le_rfl
      | cons actor victims =>
          obtain ⟨-, rfl, rfl⟩ := eq_of_some steps
          exact .still rfl le_rfl (by simp) le_rfl

theorem quota_step {max : Nat} (positive : 0 < max) {op : ActorOp} (quota : Quota max s) (may : KeepsQuota op s)
    (steps : actorStep op s = some (answer, s')) : Quota max s' := by
  cases op with
  | enter thread call =>
      rw [actorStep] at steps
      split_ifs at steps with entry
      obtain ⟨rfl, rfl⟩ := Prod.mk.inj (Option.some.inj steps)
      rw [Bool.and_eq_true, Option.isNone_iff_eq_none] at entry
      have starts := total_update starting quota.busy thread (some call)
      have none_ : starting call = 0 := by
        cases call <;> first | rfl | cases entry.1
      rw [entry.2, weighed_none, weighed_some, none_, Nat.add_zero, Nat.add_zero] at starts
      refine ⟨quota.busy.update _ _, quota.fixed, fun thread' request read eq => ?_, ?_⟩
      · rcases update_eq_some eq with ⟨-, goes⟩ | ⟨-, there⟩
        · cases goes
          cases entry.1
        · exact quota.read thread' request read there
      · rw [starts]
        exact quota.room
  | advance thread chance =>
      simp only [actorStep, Option.bind_eq_bind, Option.bind_eq_some_iff, Option.pure_def,
        Option.some.injEq, Prod.mk.injEq] at steps
      obtain ⟨call, here, ⟨answer, next, after⟩, taken, rfl, rfl⟩ := steps
      have read : ∀ request read, call = .spawnQuota request read → read = s.spawn_max := by
        rintro request read rfl
        rw [quota.fixed]
        exact quota.read thread request read here
      have admits := advance_admits (quota.fixed.symm ▸ positive) read here may taken
      have starts := total_update starting quota.busy thread next
      have room := quota.room
      have grows := admits.room
      rw [here, weighed_some] at starts
      rw [quota.fixed] at grows
      refine ⟨quota.busy.update _ _, admits.fixed.trans quota.fixed,
        fun thread' request read eq => ?_, ?_⟩
      · rcases update_eq_some eq with ⟨-, goes⟩ | ⟨-, there⟩
        · rw [admits.read request read goes, quota.fixed]
        · exact quota.read thread' request read there
      · show after.live.length + total starting (Function.update s.calls thread next) ≤ max
        omega
  | setMaxChildren max => exact may.elim

/-! ### Runs -/

/-- In every run in which the count is neither cut off nor wraps, the count is exact whenever no call is
in progress; in every run under a fixed positive maximum in which a spawn passes the quota only where
there is room, the live actors are within it. -/
theorem actor_accounting (trace : List (ActorOp × ActorAnswer)) (s : ActorRuntime) :
    (ActorMachine.Runs KeepsCount trace s → Idle s → s.spawn_count = s.live.length) ∧
      ∀ max, 0 < max → (FixedMachine max).Runs KeepsQuota trace s → s.live.length ≤ max := by
  constructor
  · intro run idle
    have balanced : Balanced s := run.invariant (I := fun _ s => Balanced s) balanced_init
      fun balanced may steps => balanced_step balanced may steps
    exact balanced.exact idle
  · intro max positive run
    have quota : Quota max s := run.invariant (I := fun _ s => Quota max s) (quota_init max)
      fun quota may steps => quota_step positive quota may steps
    exact (Nat.le_add_right _ _).trans quota.room

/-- There is room where there is room for the actors that the first two threads are starting, and no other thread does
anything. -/
theorem room_of_two {max : Nat} (idle : ∀ thread, s.calls (thread + 2) = none)
    (room : s.live.length + (weighed starting (s.calls 0) + weighed starting (s.calls 1)) < max) :
    s.live.length + total starting s.calls < max := by
  have among : ∀ thread, s.calls thread ≠ none → thread ∈ ({0, 1} : Finset Nat) := by
    intro thread active
    match thread with
    | 0 | 1 => decide
    | thread + 2 => exact absurd (idle thread) active
  rw [total_eq_sum starting among, Finset.sum_pair Nat.zero_ne_one]
  exact room

/-- Two threads spawn at the same time, and one of the actors is dropped; and two threads spawn under a maximum of
two. -/
theorem actor_accounting_interleaved :
    (∃ trace s, ActorMachine.Runs KeepsCount trace s ∧ trace.length = 13 ∧ s.live = [(8, ⟨2, none, false⟩)] ∧
      s.spawn_count = s.live.length) ∧
      ∃ trace s, (FixedMachine 2).Runs KeepsQuota trace s ∧ trace.length = 12 ∧
        s.live = [(8, ⟨1, none, false⟩), (16, ⟨2, none, false⟩)] ∧ s.live.length ≤ 2 := by
  constructor
  · have start : ActorMachine.Runs KeepsCount [] ActorMachine.init := .init
    have drawn := (((((start.next
      (.enter 0 (spawnFrom 0)) trivial rfl).next
      (.enter 1 (spawnFrom 0)) trivial rfl).next
      (.advance 0 ⟨0, true⟩) trivial rfl).next
      (.advance 1 ⟨0, true⟩) trivial rfl).next
      (.advance 1 ⟨0, true⟩) trivial rfl).next
      (.advance 0 ⟨0, true⟩) trivial rfl
    have spawned := (((drawn.next
      (.advance 0 ⟨8, true⟩) trivial rfl).next
      (.advance 1 ⟨16, true⟩) trivial rfl).next
      (.advance 1 ⟨0, true⟩) (show 0 + 1 < 2 ^ 64 by decide) rfl).next
      (.advance 0 ⟨0, true⟩) (show 1 + 1 < 2 ^ 64 by decide) rfl
    have dropped := ((spawned.next
      (.enter 0 (.drop 16)) trivial rfl).next
      (.advance 0 ⟨0, true⟩) trivial rfl).next
      (.advance 0 ⟨0, true⟩) (show 1 ≤ 2 by decide) rfl
    refine ⟨_, _, dropped, rfl, rfl, (actor_accounting _ _).1 dropped fun thread => ?_⟩
    match thread with
    | 0 => rfl
    | 1 => rfl
    | thread + 2 => rfl
  · have start : (FixedMachine 2).Runs KeepsQuota [] (FixedMachine 2).init := .init
    have checked := (((start.next
      (.enter 0 (spawnFrom 0)) trivial rfl).next
      (.enter 1 (spawnFrom 0)) trivial rfl).next
      (.advance 0 ⟨0, true⟩) trivial rfl).next
      (.advance 1 ⟨0, true⟩) trivial rfl
    have first := (((checked.next
      (.advance 0 ⟨0, true⟩) ?_ rfl).next
      (.advance 0 ⟨0, true⟩) trivial rfl).next
      (.advance 0 ⟨8, true⟩) trivial rfl).next
      (.advance 0 ⟨0, true⟩) trivial rfl
    have second := (((first.next
      (.advance 1 ⟨0, true⟩) ?_ rfl).next
      (.advance 1 ⟨0, true⟩) trivial rfl).next
      (.advance 1 ⟨16, true⟩) trivial rfl).next
      (.advance 1 ⟨0, true⟩) trivial rfl
    · exact ⟨_, _, second, rfl, rfl, (actor_accounting _ _).2 2 Nat.two_pos second⟩
    · exact fun _ => room_of_two (fun _ => rfl) (by decide)
    · exact fun _ => room_of_two (fun _ => rfl) (by decide)

/-- A thread registers an actor, another one drops all actors, and then the first one counts its own. -/
def driftOps : List ActorOp :=
  perform 0 (spawnFrom 0) [0, 0, 8] ++ perform 1 .dropAll [0, 0] ++ [.advance 0 ⟨0, true⟩]

/-- Two threads pass the quota before either of them registers its actor. -/
def crowdOps : List ActorOp :=
  perform 0 (spawnFrom 0) [0, 0] ++ perform 1 (spawnFrom 0) [0, 0] ++
    [.advance 0 ⟨0, true⟩, .advance 0 ⟨8, true⟩, .advance 1 ⟨0, true⟩, .advance 1 ⟨16, true⟩]

/-- The count stays at one without an actor, and two actors live under a maximum of one. -/
theorem accounting_drifts :
    (¬∀ trace s, ActorMachine.Runs (fun _ _ => True) trace s → Idle s →
      s.spawn_count = s.live.length) ∧
      ¬∀ max trace s, 0 < max → (FixedMachine max).Runs (fun op _ => op.leavesMax = true) trace s →
        s.live.length ≤ max := by
  constructor
  · intro exact_
    obtain ⟨⟨trace, s⟩, played⟩ : ∃ result, ActorMachine.play driftOps [] .new = some result :=
      ⟨_, rfl⟩
    have drifted : s.spawn_count = 1 ∧ s.live = [] ∧ Idle s := by
      obtain ⟨rfl, rfl⟩ := Prod.mk.inj (Option.some.inj played)
      refine ⟨rfl, rfl, fun thread => ?_⟩
      by_cases zero : thread = 0
      · subst zero
        rfl
      · by_cases one : thread = 1
        · subst one
          rfl
        · simp [Function.update, zero, one, ActorRuntime.new]
    obtain ⟨count, live, idle⟩ := drifted
    have same := exact_ trace s (Machine.Runs.init.play played) idle
    rw [count, live] at same
    cases same
  · intro within
    obtain ⟨⟨trace, s⟩, played⟩ : ∃ result,
        (FixedMachine 1).play crowdOps [] (FixedMachine 1).init = some result := ⟨_, rfl⟩
    have crowded : s.live.length = 2 ∧ ∀ entry ∈ trace, entry.1.leavesMax = true := by
      obtain ⟨rfl, rfl⟩ := Prod.mk.inj (Option.some.inj played)
      exact ⟨rfl, by decide⟩
    obtain ⟨two, fixed⟩ := crowded
    have one := within 1 trace s Nat.one_pos ((Machine.Runs.init.play played).restrict fixed)
    omega

end Mimi.Runtime
