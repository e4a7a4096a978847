/-
Module: Mimi.Proofs.FutureWakeups
Purpose: A thread that awaits a future is woken when it is completed, and when it is freed unless the thread had seen
  it pending: a free neither takes the lock of the waiters nor notifies them.  A call on a future that was released is
  turned away unless its address has been handed out again: the registry holds addresses.
Trusted boundary: none
-/
import Mimi.Proofs.FutureReferences

namespace Mimi.Runtime.Future

open Mimi.Lib

variable {s s' : State} {future f : Address} {after : After}

/-! ### The lock and the marks -/

/-- The calls that hold `AWAIT_LOCK`. -/
def Call.locked : Call → Bool
  | .body .exchange _ | .body .notify _ | .body .recheck _ | .body .wait _ | .body .drop _ | .unlock => true
  | .release _ _ after => after = .unlock
  | _ => false

/-- What a step of a call does with the lock. -/
inductive Hands (thread : Thread) (before after : Option Thread) (call : Call) (next : Option Call) : Prop where
  | keeps : after = before → (∀ later, next = some later → later.locked = call.locked) →
      (next = none → call.locked = false) → Hands thread before after call next
  | takes (later : Call) : before = none → after = some thread → call.locked = false → next = some later →
      later.locked = true → Hands thread before after call next
  | gives : after = none → call.locked = true → (∀ later, next = some later → later.locked = false) →
      Hands thread before after call next

theorem leave_hands {thread : Thread} {before : Option Thread} {stage : Release} (state : State) :
    Hands thread before before (.release stage f after) (leave f state after).2.1 := by
  cases after with
  | owner => exact .keeps rfl (fun later is => by cases is; rfl) nofun
  | unlock => exact .keeps rfl (fun later is => by cases is; rfl) nofun
  | return_ value => exact .keeps rfl nofun fun _ => rfl

variable {call : Call}

theorem Move.hands {thread : Thread} {next : Option Call} (move : Move thread s call next s')
    (sized : call.Sized) : Hands thread s.await_lock s'.await_lock call next := by
  cases move with
  | register f => exact .keeps rfl (by rintro _ ⟨⟩) fun _ => rfl
  | refuse entry f refused => exact .keeps rfl (by rintro _ ⟨⟩) fun _ => rfl
  | retain entry f header found live left =>
      refine .keeps rfl (fun later is => ?_) (by rintro ⟨⟩)
      cases is
      cases entry <;> rfl
  | lock f free => exact .takes _ free rfl rfl rfl rfl
  | acquire f free => exact .takes _ free rfl rfl rfl rfl
  | send f => exact .keeps rfl (by rintro _ ⟨⟩) fun _ => rfl
  | wait f => exact .gives rfl rfl fun later is => by cases is; rfl
  | drop f => exact .gives rfl rfl fun later is => by cases is; rfl
  | sub f after header found more state => exact leave_hands state
  | dealloc data_capacity f after state => exact leave_hands state
  | abort data_capacity f after corrupt =>
      rw [Call.Sized, corrupt] at sized
      cases sized
  | unlock => exact .gives rfl rfl (by rintro _ ⟨⟩)
  | _ => exact .keeps rfl (fun later is => by cases is; rfl) (by rintro ⟨⟩)

/-- What a step of a call does to the marks of futures. -/
theorem Move.marks {thread : Thread} {next : Option Call} (move : Move thread s call next s')
    {header' : MimiFutureHeader} (found' : s'.heap f = some header') :
    (∃ header, s.heap f = some header ∧ header'.completed = header.completed) ∨
      (call = .body .store f ∧ (s.heap f).isSome) ∨
      (call = .body .exchange f ∧ next = some (.body .notify f)) := by
  -- a write of another future is not seen, and one of this keeps the mark or sets it
  have written {g : Address} {header : MimiFutureHeader} (found : s.heap g = some header)
      (new : MimiFutureHeader) (is : (s.write g new).heap f = some header') :
      s.heap f = some header' ∨ (g = f ∧ s.heap f = some header ∧ header' = new) := by
    by_cases same : f = g
    · subst same
      have read : (s.write f new).heap f = some new := Function.update_self ..
      exact .inr ⟨rfl, found, Option.some.inj (is.symm.trans read)⟩
    · exact .inl ((Function.update_of_ne same ..).symm.trans is)
  cases move with
  | retain entry g header found live left =>
      rcases written found _ found' with kept | ⟨rfl, here, rfl⟩
      · exact .inl ⟨header', kept, rfl⟩
      · exact .inl ⟨header, here, rfl⟩
  | store g header found =>
      rcases written found _ found' with kept | ⟨rfl, here, rfl⟩
      · exact .inl ⟨header', kept, rfl⟩
      · exact .inr (.inl ⟨rfl, by rw [here]; rfl⟩)
  | complete g header found =>
      rcases written found _ found' with kept | ⟨rfl, here, rfl⟩
      · exact .inl ⟨header', kept, rfl⟩
      · exact .inr (.inr ⟨rfl, rfl⟩)
  | sub g after header found more state =>
      rcases written found _ found' with kept | ⟨rfl, here, rfl⟩
      · exact .inl ⟨header', kept, rfl⟩
      · exact .inl ⟨header, here, rfl⟩
  | last g after header found last =>
      rcases written found _ found' with kept | ⟨rfl, here, rfl⟩
      · exact .inl ⟨header', kept, rfl⟩
      · exact .inl ⟨header, here, rfl⟩
  | dealloc data_capacity g after state =>
      by_cases same : f = g
      · subst same
        cases (Function.update_self ..).symm.trans found'
      · exact .inl ⟨header', (Function.update_of_ne same ..).symm.trans found', rfl⟩
  | _ => exact .inl ⟨header', found', rfl⟩

theorem leave_site {site : Site} (state : State) : (leave f state after).2.1 ≠ some (.body site future) := by
  cases after <;> nofun

/-- A call comes to the wait only with the future pending, and into it only from there. -/
theorem Move.waits {thread : Thread} {next : Option Call} (move : Move thread s call next s') :
    (next = some (.body .wait f) → ∃ header, s'.heap f = some header ∧ header.completed = .pending) ∧
      (next = some (.body .blocked f) → call = .body .wait f ∧ s'.heap = s.heap) := by
  cases move with
  | retain entry g header found live left => cases entry <;> exact ⟨nofun, nofun⟩
  | stay g header found pending =>
      refine ⟨fun is => ?_, nofun⟩
      cases is
      exact ⟨header, found, pending⟩
  | wait g =>
      refine ⟨nofun, fun is => ?_⟩
      cases is
      exact ⟨rfl, rfl⟩
  | sub g after header found more state =>
      exact ⟨fun is => absurd is (leave_site state), fun is => absurd is (leave_site state)⟩
  | dealloc data_capacity g after state =>
      exact ⟨fun is => absurd is (leave_site state), fun is => absurd is (leave_site state)⟩
  | _ => exact ⟨nofun, nofun⟩

/-- A thread is at a place inside of a function. -/
def At (s : State) (thread : Thread) (site : Site) (future : Address) : Prop :=
  ∃ job, s.threads thread = some (.calling job (.body site future))

/-- Somebody is about to notify. -/
def Notifying (s : State) : Prop := ∃ thread future, At s thread .notify future

/-- The future is neither completed nor freed. -/
def Pending (s : State) (future : Address) : Prop :=
  ∀ header, s.heap future = some header → header.completed = .pending

/-- Who holds the lock is in a section under it, and who waits for a future waits for one that is pending, or is
about to be notified. -/
structure Awake (s : State) : Prop where
  lock : ∀ thread, s.await_lock = some thread ↔
    ∃ job call, s.threads thread = some (.calling job call) ∧ call.locked = true
  watching : ∀ thread future, At s thread .wait future → Pending s future
  asleep : ∀ thread future, At s thread .blocked future → Pending s future ∨ Notifying s

theorem awake_new : Awake State.new where
  lock thread := by
    constructor
    · nofun
    · rintro ⟨job, call, here, -⟩
      cases here
  watching thread future := by
    rintro ⟨job, here⟩
    cases here
  asleep thread future := by
    rintro ⟨job, here⟩
    cases here

/-- A future is freed only where it is not pending, or where no thread has seen it pending in the loop of await. -/
def FreesUnwatched (op : FutureOp) (s : State) : Prop :=
  match op with
  | .advance thread _ => ∀ future header, At s thread .store future → s.heap future = some header →
      header.completed = .pending → ∀ other, ¬At s other .wait future ∧ ¬At s other .blocked future
  | _ => True

variable {job job' : Option Address}

/-- Two threads are not both in a section under the lock. -/
theorem Awake.alone (awake : Awake s) {thread other : Thread} {call' : Call}
    (here : s.threads thread = some (.calling job call)) (locked : call.locked = true)
    (there : s.threads other = some (.calling job' call')) (locked' : call'.locked = true) : other = thread := by
  have mine := (awake.lock thread).mpr ⟨job, call, here, locked⟩
  have theirs := (awake.lock other).mpr ⟨job', call', there, locked'⟩
  exact Option.some.inj (theirs.symm.trans mine)

theorem activity_calling {next : Option Call}
    (is : (next.map (Activity.calling job)).or (rest job) = some (.calling job' call)) : next = some call := by
  cases next with
  | some later =>
      cases is
      rfl
  | none => cases job <;> cases is

/-- What a thread does that a step of another has left alone or woken, unless it was woken just now. -/
theorem Move.apart {thread : Thread} {next : Option Call} (move : Move thread s call next s')
    {other : Thread} {call' : Call} (there : s'.threads other = some (.calling job call')) :
    s.threads other = some (.calling job call') ∨ ∃ f, call' = .body .acquire f := by
  rcases move.threads with same | ⟨-, woken⟩
  · exact .inl (same ▸ there)
  · rw [woken] at there
    dsimp only at there
    cases found : s.threads other with
    | none => simp [found] at there
    | some activity =>
        rw [found, Option.map_some, Option.some.injEq] at there
        obtain same | ⟨job', f, -, woken⟩ := wake_cases activity
        · exact .inl (congrArg some (same.symm.trans there))
        · rw [woken] at there
          cases there
          exact .inr ⟨f, rfl⟩

/-- Nobody sleeps behind a notification. -/
theorem Move.no_sleeper {thread other : Thread} {next : Option Call}
    (move : Move thread s (.body .notify f) next s') :
    s'.threads other ≠ some (.calling job (.body .blocked future)) := by
  cases move with
  | notify =>
      dsimp only
      intro there
      cases found : s.threads other with
      | none => simp [found] at there
      | some activity =>
          rw [found, Option.map_some, Option.some.injEq] at there
          obtain same | ⟨job', g, -, woken⟩ := wake_cases activity
          · -- what the wake-up leaves alone is not asleep
            rw [same] at there
            rw [there] at same
            cases same
          · rw [woken] at there
            cases there

/-- A thread in a section under the lock is not woken. -/
theorem Move.keeps_locked {thread : Thread} {next : Option Call} (move : Move thread s call next s')
    {other : Thread} {call' : Call} (there : s.threads other = some (.calling job call'))
    (locked : call'.locked = true) : s'.threads other = some (.calling job call') := by
  rcases move.threads with same | ⟨-, woken⟩
  · exact same ▸ there
  · rw [woken]
    dsimp only
    rw [there, Option.map_some]
    obtain same | ⟨job', f, is, -⟩ := wake_cases (.calling job call')
    · rw [same]
    · cases is
      cases locked

/-- The state behind a step of a call. -/
def State.goes_on (s : State) (thread : Thread) (job : Option Address) (next : Option Call) : State :=
  { s with threads := Function.update s.threads thread ((next.map (Activity.calling job)).or (rest job)) }

theorem goes_on_self (thread : Thread) (job : Option Address) (next : Option Call) :
    (s.goes_on thread job next).threads thread = (next.map (Activity.calling job)).or (rest job) :=
  Function.update_self ..

theorem goes_on_other {thread other : Thread} (apart : other ≠ thread) (job : Option Address) (next : Option Call) :
    (s.goes_on thread job next).threads other = s.threads other := Function.update_of_ne apart ..

theorem at_goes_on {thread other : Thread} {next : Option Call} {site : Site}
    (there : At (s.goes_on thread job next) other site f) :
    (other = thread ∧ next = some (.body site f)) ∨ (other ≠ thread ∧ At s other site f) := by
  obtain ⟨job', is⟩ := there
  by_cases same : other = thread
  · subst same
    rw [goes_on_self] at is
    exact .inl ⟨rfl, activity_calling is⟩
  · rw [goes_on_other same] at is
    exact .inr ⟨same, job', is⟩

theorem Awake.lock_goes_on {thread : Thread} {next : Option Call}
    (awake : Awake s) (here : s.threads thread = some (.calling job call)) (move : Move thread s call next s')
    (sized : call.Sized) (other : Thread) : s'.await_lock = some other ↔ ∃ job' call',
      (s'.goes_on thread job next).threads other = some (.calling job' call') ∧ call'.locked = true := by
  by_cases same : other = thread
  · subst same
    have there : (∃ job' call', (s'.goes_on other job next).threads other = some (.calling job' call') ∧
        call'.locked = true) ↔ ∃ later, next = some later ∧ later.locked = true := by
      simp only [goes_on_self]
      constructor
      · rintro ⟨job', call', is, locked⟩
        exact ⟨call', activity_calling is, locked⟩
      · rintro ⟨later, rfl, locked⟩
        exact ⟨job, later, rfl, locked⟩
    rw [there]
    cases move.hands sized with
    | keeps kept goes_on ends =>
        rw [kept, awake.lock other]
        constructor
        · rintro ⟨job', call', is, locked⟩
          obtain ⟨-, rfl⟩ := Activity.calling.inj (Option.some.inj (here.symm.trans is))
          cases next with
          | none => exact absurd locked (by rw [ends rfl]; exact Bool.false_ne_true)
          | some later => exact ⟨later, rfl, (goes_on later rfl).trans locked⟩
        · rintro ⟨later, is, locked⟩
          exact ⟨job, call, here, (goes_on later is).symm.trans locked⟩
    | takes later free taken unlocked is locked => exact iff_of_true taken ⟨later, is, locked⟩
    | gives given locked goes_on =>
        rw [given]
        refine iff_of_false nofun ?_
        rintro ⟨later, is, locked'⟩
        rw [goes_on later is] at locked'
        cases locked'
  · have there : (∃ job' call', (s'.goes_on thread job next).threads other = some (.calling job' call') ∧
        call'.locked = true) ↔ ∃ job' call', s.threads other = some (.calling job' call') ∧ call'.locked = true := by
      simp only [goes_on_other same]
      constructor
      · rintro ⟨job', call', is, locked⟩
        rcases move.apart is with before | ⟨f, rfl⟩
        · exact ⟨job', call', before, locked⟩
        · cases locked
      · rintro ⟨job', call', is, locked⟩
        exact ⟨job', call', move.keeps_locked is locked, locked⟩
    rw [there, ← awake.lock other]
    cases move.hands sized with
    | keeps kept goes_on ends => rw [kept]
    | takes later free taken unlocked is locked =>
        rw [taken, free]
        exact iff_of_false (fun is => same (Option.some.inj is).symm) nofun
    | gives given locked goes_on =>
        have mine := (awake.lock thread).mpr ⟨job, call, here, locked⟩
        rw [given, mine]
        exact iff_of_false nofun (fun is => same (Option.some.inj is).symm)

/-- A mark that is set is set by a free that nobody watches, or by a completion. -/
theorem Awake.advance {thread : Thread} {next : Option Call}
    (awake : Awake s) (here : s.threads thread = some (.calling job call)) (move : Move thread s call next s')
    (sized : call.Sized)
    (unwatched : ∀ future header, call = .body .store future → s.heap future = some header →
      header.completed = .pending → ∀ other, ¬At s other .wait future ∧ ¬At s other .blocked future) :
    Awake (s'.goes_on thread job next) where
  lock := awake.lock_goes_on here move sized
  watching other future there := by
    rcases at_goes_on there with ⟨-, is⟩ | ⟨apart, job', there⟩
    · obtain ⟨header, found, pending⟩ := move.waits.1 is
      intro header' found'
      obtain rfl := Option.some.inj (found.symm.trans found')
      exact pending
    · rcases move.apart there with before | ⟨_, impossible⟩
      · intro header' found'
        rcases move.marks found' with ⟨header, found, same⟩ | ⟨store, some_⟩ | ⟨exchange, -⟩
        · exact same.trans (awake.watching other future ⟨job', before⟩ header found)
        · obtain ⟨header, found⟩ := Option.isSome_iff_exists.mp some_
          have pending := awake.watching other future ⟨job', before⟩ header found
          exact absurd ⟨job', before⟩ (unwatched future header store found pending other).1
        · -- the completion holds the lock, and so does the thread in front of its wait
          subst exchange
          exact absurd (awake.alone here rfl before rfl) apart
      · cases impossible
  asleep other future there := by
    rcases at_goes_on there with ⟨-, is⟩ | ⟨apart, job', there⟩
    · obtain ⟨waiting, same⟩ := move.waits.2 is
      subst waiting
      refine .inl fun header found => awake.watching thread future ⟨job, here⟩ header ?_
      exact same ▸ found
    · rcases move.apart there with before | ⟨_, impossible⟩
      · have not_notify : ∀ f, call ≠ .body .notify f := by
          rintro f rfl
          exact move.no_sleeper there
        have notified (notifying : Notifying s) : Notifying (s'.goes_on thread job next) := by
          obtain ⟨third, f, job'', is⟩ := notifying
          have another : third ≠ thread := by
            rintro rfl
            obtain ⟨-, rfl⟩ := Activity.calling.inj (Option.some.inj (here.symm.trans is))
            exact not_notify f rfl
          refine ⟨third, f, job'', ?_⟩
          rw [goes_on_other another]
          exact move.keeps_locked is rfl
        rcases awake.asleep other future ⟨job', before⟩ with pending | notifying
        · by_cases still : Pending (s'.goes_on thread job next) future
          · exact .inl still
          · refine .inr ?_
            rw [Pending] at still
            push Not at still
            obtain ⟨header', found', marked⟩ := still
            rcases move.marks found' with ⟨header, found, same⟩ | ⟨store, some_⟩ | ⟨-, notify⟩
            · exact absurd (same.trans (pending header found)) marked
            · obtain ⟨header, found⟩ := Option.isSome_iff_exists.mp some_
              exact absurd ⟨job', before⟩ (unwatched future header store found (pending header found) other).2
            · subst notify
              exact ⟨thread, future, job, goes_on_self ..⟩
        · exact .inr (notified notifying)
      · cases impossible

/-- A step of a thread that is in no section under the lock, and comes to none. -/
theorem Awake.moves {state : State} {thread : Thread} {activity : Option Activity} (awake : Awake s)
    (threads : state.threads = Function.update s.threads thread activity) (lock : state.await_lock = s.await_lock)
    (heap : ∀ future, Pending s future → Pending state future)
    (before : ∀ job call, s.threads thread = some (.calling job call) → call.locked = false)
    (behind : ∀ job call, activity = some (.calling job call) →
      call.locked = false ∧ ∀ future, call ≠ .body .blocked future) : Awake state := by
  have at_ {other : Thread} {site : Site} {future : Address} (there : At state other site future) :
      (other = thread ∧ ∃ job, activity = some (.calling job (.body site future))) ∨ At s other site future := by
    obtain ⟨job, is⟩ := there
    rw [threads] at is
    by_cases same : other = thread
    · subst same
      rw [Function.update_self] at is
      exact .inl ⟨rfl, job, is⟩
    · rw [Function.update_of_ne same] at is
      exact .inr ⟨job, is⟩
  refine ⟨fun other => ?_, fun other future there => ?_, fun other future there => ?_⟩
  · rw [lock, awake.lock other, threads]
    by_cases same : other = thread
    · subst same
      rw [Function.update_self]
      refine iff_of_false ?_ ?_
      · rintro ⟨job, call, is, locked⟩
        exact absurd locked (by rw [before job call is]; exact Bool.false_ne_true)
      · rintro ⟨job, call, is, locked⟩
        exact absurd locked (by rw [(behind job call is).1]; exact Bool.false_ne_true)
    · rw [Function.update_of_ne same]
  · rcases at_ there with ⟨-, job, is⟩ | there
    · exact absurd (behind job _ is).1 nofun
    · exact heap future (awake.watching other future there)
  · rcases at_ there with ⟨-, job, is⟩ | there
    · exact absurd rfl ((behind job _ is).2 future)
    · refine (awake.asleep other future there).imp (heap future) ?_
      rintro ⟨third, f, job, is⟩
      refine ⟨third, f, job, ?_⟩
      have apart : third ≠ thread := by
        rintro rfl
        exact absurd (before job _ is) nofun
      rw [threads, Function.update_of_ne apart, is]

theorem resting_unlocked {thread : Thread}
    (at_rest : resting s thread = some job) (here : s.threads thread = some (.calling job' call)) :
    call.locked = false := by
  rw [resting, here] at at_rest
  cases at_rest

/-- A step keeps that whoever sleeps on a finished future is about to be notified. -/
theorem awake_step {op : FutureOp} {answer : Answer} (balanced : Balanced s) (awake : Awake s)
    (unwatched : FreesUnwatched op s) (steps : futureStep op s = some (answer, s')) : Awake s' := by
  unfold futureStep at steps
  rw [if_neg (by rw [balanced.running]; exact Bool.false_ne_true)] at steps
  cases op with
  | alloc thread result_size f =>
      obtain ⟨job, at_rest, rest⟩ := Option.bind_eq_some_iff.mp steps
      dsimp only at rest
      split_ifs at rest
      · cases rest
        exact awake
      · cases rest
        refine awake.moves rfl rfl ?_ (fun _ _ => resting_unlocked at_rest) fun _ _ is => by
          cases is
          exact ⟨rfl, nofun⟩
        intro future pending header found
        by_cases same : future = f
        · subst same
          obtain rfl := Option.some.inj (found.symm.trans (Function.update_self ..))
          rfl
        · exact pending header ((Function.update_of_ne same ..).symm.trans found)
  | enter thread entry f =>
      obtain ⟨job, at_rest, rest⟩ := Option.bind_eq_some_iff.mp steps
      split_ifs at rest
      · cases rest
        exact awake
      · cases rest
        exact awake.moves rfl rfl (fun _ pending => pending) (fun _ _ => resting_unlocked at_rest) fun _ _ is => by
          cases is
          exact ⟨rfl, nofun⟩
      · cases rest
        exact awake.moves rfl rfl (fun _ pending => pending) (fun _ _ => resting_unlocked at_rest) fun _ _ is => by
          cases is
          exact ⟨rfl, nofun⟩
  | advance thread accepted =>
      dsimp only at steps
      split at steps
      · rename_i job call here
        obtain ⟨⟨answer', next, state⟩, taken, rest⟩ := Option.bind_eq_some_iff.mp steps
        cases rest
        refine awake.advance here (advance_move taken) (balanced.sized thread job call here) ?_
        rintro future header rfl found pending other
        exact unwatched future header ⟨job, here⟩ found pending other
      · cases steps
  | wake thread =>
      dsimp only at steps
      split at steps
      · rename_i job f here
        cases steps
        refine awake.moves rfl rfl (fun _ pending => pending) ?_ fun _ _ is => by
          cases is
          exact ⟨rfl, nofun⟩
        intro job' call' here'
        cases here.symm.trans here'
        rfl
      · cases steps
  | take thread index =>
      obtain ⟨job, found, rest⟩ := Option.bind_eq_some_iff.mp steps
      split_ifs at rest with idle
      cases rest
      refine awake.moves rfl rfl (fun _ pending => pending) ?_ nofun
      intro job' call' here'
      cases idle.symm.trans here'
  | finish thread =>
      dsimp only at steps
      split at steps
      · rename_i job here
        cases steps
        refine awake.moves rfl rfl (fun _ pending => pending) ?_ fun _ _ is => by
          cases is
          exact ⟨rfl, nofun⟩
        intro job' call' here'
        cases here.symm.trans here'
      · cases steps

/-! ### What holds of every run -/

/-- A thread is blocked in await on a future that is completed, freed or released, and nobody is about to notify. -/
def Lost (s : State) (thread : Thread) (future : Address) : Prop :=
  At s thread .blocked future ∧ (∀ header, s.heap future = some header → header.completed ≠ .pending) ∧ ¬Notifying s

/-- In an awake state no thread sleeps on a finished future without a notification. -/
theorem not_lost (awake : Awake s) (balanced : Balanced s) (thread : Thread) : ¬Lost s thread future := by
  rintro ⟨⟨job, here⟩, finished, silent⟩
  rcases awake.asleep thread future ⟨job, here⟩ with pending | notifying
  · have held := weighed_le_total (Activity.held future) balanced.busy thread
    cases found : s.heap future with
    | none =>
        have none_held : total (Activity.held future) s.threads = 0 := ((balanced.books future).absent found).held
        have inner : Site.blocked ≠ .store := nofun
        rw [here, weighed_some, none_held, Activity.held, Call.held, if_pos rfl, if_neg inner] at held
        omega
    | some header => exact finished header found (pending header found)
  · exact silent notifying

/-- An allocation gets an address that no other had before. -/
def AddressNew (op : FutureOp) (s : State) : Prop :=
  match op with
  | .alloc _ _ future => s.allocated future = 0
  | _ => True

/-- A call on a future that was released is turned away, and touches nothing. -/
def StaleRejected (s : State) : Prop :=
  ∀ thread job entry future accepted, s.threads thread = some (.calling job (.retain entry future)) →
    0 < s.released future → futureStep (.advance thread accepted) s =
      some (.returned entry.rejected, { s with threads := Function.update s.threads thread (rest job) })

theorem Move.allocated {thread : Thread} {next : Option Call} (move : Move thread s call next s') :
    s'.allocated = s.allocated := by
  cases move <;> rfl

/-- Only an allocation counts one. -/
theorem allocated_step {op : FutureOp} {answer : Answer} (steps : futureStep op s = some (answer, s')) :
    s'.allocated = s.allocated ∨ ∃ thread size f, op = .alloc thread size f ∧
      s'.allocated = Function.update s.allocated f (s.allocated f + 1) := by
  unfold futureStep at steps
  split_ifs at steps
  cases op with
  | alloc thread result_size f =>
      obtain ⟨job, -, rest⟩ := Option.bind_eq_some_iff.mp steps
      dsimp only at rest
      split_ifs at rest <;> cases rest
      · exact .inl rfl
      · exact .inr ⟨thread, result_size, f, rfl, rfl⟩
  | enter thread entry f =>
      obtain ⟨job, -, rest⟩ := Option.bind_eq_some_iff.mp steps
      split_ifs at rest <;> cases rest <;> exact .inl rfl
  | advance thread accepted =>
      dsimp only at steps
      split at steps
      · obtain ⟨⟨answer', next, state⟩, taken, rest⟩ := Option.bind_eq_some_iff.mp steps
        cases rest
        exact .inl (advance_move taken).allocated
      · cases steps
  | wake thread | finish thread =>
      dsimp only at steps
      split at steps <;> cases steps
      exact .inl rfl
  | take thread index =>
      obtain ⟨job, -, rest⟩ := Option.bind_eq_some_iff.mp steps
      split_ifs at rest
      cases rest
      exact .inl rfl

theorem allocated_once (run : FutureMachine.Runs (fun op s => CountsFit op s ∧ AddressNew op s) trace s)
    (f : Address) : s.allocated f ≤ 1 := by
  refine run.invariant (I := fun _ s => ∀ f, s.allocated f ≤ 1) (fun f => Nat.zero_le 1) (fun once may steps f => ?_) f
  rcases allocated_step steps with same | ⟨thread, size, g, rfl, one_more⟩
  · rw [same]
    exact once f
  · rw [one_more]
    by_cases here : f = g
    · subst here
      rw [Function.update_self, show _ = 0 from may.2]
    · rw [Function.update_of_ne here]
      exact once f

/-- What was released stays away when its address is handed out to no other. -/
theorem RefsSafe.stale (safe : RefsSafe s) (once : ∀ f, s.allocated f ≤ 1) : StaleRejected s := by
  intro thread job entry future accepted here released
  refine safe.rejected thread job entry future accepted here ?_
  by_contra there
  have counted := safe.once future
  rw [if_pos (Option.isSome_iff_ne_none.mpr there)] at counted
  have few := once future
  omega

/-- In every run whose reference counts stay in range the references are safe; in every such run that hands no address
out twice, no call on a future that was released touches anything; and in every such run whose frees are unwatched, no
wake-up is lost. -/
theorem futures_safe (run : FutureMachine.Runs CountsFit trace s) :
    RefsSafe s ∧
      (FutureMachine.Runs (fun op s => CountsFit op s ∧ AddressNew op s) trace s → StaleRejected s) ∧
      (FutureMachine.Runs (fun op s => CountsFit op s ∧ FreesUnwatched op s) trace s →
        ∀ thread future, ¬Lost s thread future) := by
  have safe := (balanced_run run).refs_safe
  refine ⟨safe, fun run => safe.stale (allocated_once run), fun run => ?_⟩
  have both := run.invariant (I := fun _ s => Balanced s ∧ Awake s) ⟨balanced_new, awake_new⟩
    fun here may steps => ⟨balanced_step here.1 may.1 steps, awake_step here.1 here.2 may.2 steps⟩
  exact fun thread future => not_lost both.2 both.1 thread

/-- A check of a step: a retain finds few references, a free finds its future no longer pending, and an allocation gets
a new address. -/
def quiet (op : FutureOp) (s : State) : Bool :=
  match op with
  | .alloc _ _ future => s.allocated future = 0
  | .advance thread _ =>
      match s.threads thread with
      | some (.calling _ (.retain _ future)) => (s.heap future).all fun header => header.refs < 2 ^ 31 - 1
      | some (.calling _ (.body .store future)) => (s.heap future).all fun header => header.completed ≠ .pending
      | _ => true
  | _ => true

theorem quiet_allowed (op : FutureOp) (s : State) (checked : quiet op s = true) :
    CountsFit op s ∧ FreesUnwatched op s ∧ AddressNew op s := by
  cases op with
  | alloc thread result_size f => exact ⟨trivial, trivial, (of_decide_eq_true checked : s.allocated f = 0)⟩
  | advance thread accepted =>
      refine ⟨fun job call here => ?_, ?_, trivial⟩
      · cases call with
        | retain entry f =>
            intro header found
            rw [quiet, here] at checked
            simpa [found] using checked
        | _ => trivial
      · rintro f header ⟨job, here⟩ found pending
        rw [quiet, here] at checked
        simp [found, pending] at checked
  | _ => exact ⟨trivial, trivial, trivial⟩

/-- Thread 1 awaits the future of thread 0 until thread 2 completes it; thread 0 frees it, and thread 3 asks for it. -/
def awaited_then_freed : List FutureOp :=
  let goOn (thread : Thread) (steps : Nat) : List FutureOp := List.replicate steps (.advance thread true)
  List.flatten [[.alloc 0 8 64], goOn 0 1, [.enter 1 .await 64], goOn 1 5, [.enter 2 .setCompleted 64], goOn 2 6, goOn 1 4,
    [.enter 0 .free 64], goOn 0 6, [.enter 3 .isCompleted 64]]

theorem futures_safe_awaited : ∃ trace s,
    FutureMachine.Runs (fun op s => CountsFit op s ∧ FreesUnwatched op s ∧ AddressNew op s) trace s ∧
      s.released 64 = 1 ∧ s.threads 1 = none ∧ RefsSafe s ∧ (∀ thread future, ¬Lost s thread future) ∧
      ∃ s', futureStep (.advance 3 true) s = some (.returned (some 1), s') := by
  have seen : ((FutureMachine.guarded quiet).play awaited_then_freed [] State.new).map (fun r =>
      (r.2.released 64, r.2.threads 1, r.2.threads 3)) =
        some (1, none, some (.calling none (.retain .isCompleted 64))) := by decide
  obtain ⟨⟨trace, s⟩, played, is⟩ := Option.map_eq_some_iff.mp seen
  obtain ⟨released, idle, asking⟩ : s.released 64 = 1 ∧ s.threads 1 = none ∧
      s.threads 3 = some (.calling none (.retain .isCompleted 64)) := by simpa using is
  have run := Machine.Runs.init.guarded quiet_allowed played
  obtain ⟨safe, stale, awake⟩ := futures_safe (run.weaken fun _ _ may => may.1)
  have rejected := stale (run.weaken fun _ _ may => ⟨may.1, may.2.2⟩) 3 none .isCompleted 64 true asking
    (released ▸ Nat.one_pos)
  exact ⟨trace, s, run, released, idle, safe, awake (run.weaken fun _ _ may => ⟨may.1, may.2.1⟩), _, rejected⟩

/-! ### A wake-up that is lost -/

def FutureOp.thread : FutureOp → Thread
  | .alloc thread _ _ | .enter thread _ _ | .advance thread _ | .wake thread | .take thread _ | .finish thread => thread

/-- A step leaves the threads idle that do not take it. -/
theorem step_idle {op : FutureOp} {answer : Answer} {other : Thread} (apart : other ≠ op.thread)
    (idle : s.threads other = none) (steps : futureStep op s = some (answer, s')) : s'.threads other = none := by
  unfold futureStep at steps
  split_ifs at steps
  cases op with
  | alloc thread result_size f =>
      obtain ⟨job, -, rest⟩ := Option.bind_eq_some_iff.mp steps
      dsimp only at rest
      split_ifs at rest <;> cases rest
      · exact idle
      · exact (Function.update_of_ne apart ..).trans idle
  | enter thread entry f =>
      obtain ⟨job, -, rest⟩ := Option.bind_eq_some_iff.mp steps
      split_ifs at rest <;> cases rest
      · exact idle
      · exact (Function.update_of_ne apart ..).trans idle
      · exact (Function.update_of_ne apart ..).trans idle
  | advance thread accepted =>
      dsimp only at steps
      split at steps
      · obtain ⟨⟨answer', next, state⟩, taken, rest⟩ := Option.bind_eq_some_iff.mp steps
        cases rest
        refine (Function.update_of_ne apart ..).trans ?_
        rcases (advance_move taken).threads with same | ⟨-, woken⟩
        · exact same ▸ idle
        · rw [woken]
          dsimp only
          rw [idle]
          rfl
      · cases steps
  | wake thread =>
      dsimp only at steps
      split at steps <;> cases steps
      exact (Function.update_of_ne apart ..).trans idle
  | take thread index =>
      obtain ⟨job, -, rest⟩ := Option.bind_eq_some_iff.mp steps
      split_ifs at rest
      cases rest
      exact (Function.update_of_ne apart ..).trans idle
  | finish thread =>
      dsimp only at steps
      split at steps <;> cases steps
      exact (Function.update_of_ne apart ..).trans idle

theorem play_idle {ops : List FutureOp} {trace trace' : List (FutureOp × Answer)} {other : Thread}
    (apart : ∀ op ∈ ops, other ≠ op.thread) (idle : s.threads other = none)
    (played : FutureMachine.play ops trace s = some (trace', s')) : s'.threads other = none := by
  induction ops generalizing trace s with
  | nil =>
      cases played
      exact idle
  | cons op ops ih =>
      obtain ⟨⟨answer, s₁⟩, steps, rest⟩ := Option.bind_eq_some_iff.mp played
      exact ih (fun later member => apart later (List.mem_cons_of_mem _ member))
        (step_idle (apart op List.mem_cons_self) idle steps) rest

/-- Thread 0 allocates a future and thread 1 awaits it; thread 0 frees it when thread 1 has gone to sleep. -/
def freed_while_awaited : List FutureOp :=
  [.alloc 0 8 64, .advance 0 true, .enter 1 .await 64, .advance 1 true, .advance 1 true, .advance 1 true,
    .advance 1 true, .advance 1 true, .enter 0 .free 64, .advance 0 true, .advance 0 true, .advance 0 true,
    .advance 0 true]

theorem wakeup_lost : ¬∀ trace s, FutureMachine.Runs (fun _ _ => True) trace s →
    ∀ thread future, ¬Lost s thread future := by
  intro claim
  have seen : (FutureMachine.play freed_while_awaited [] State.new).map (fun r =>
      (r.2.threads 0, r.2.threads 1, (r.2.heap 64).map MimiFutureHeader.completed)) =
        some (none, some (.calling none (.body .blocked 64)), some .freed) := by decide
  obtain ⟨⟨trace, s⟩, played, is⟩ := Option.map_eq_some_iff.mp seen
  obtain ⟨first, second, mark⟩ : s.threads 0 = none ∧ s.threads 1 = some (.calling none (.body .blocked 64)) ∧
      (s.heap 64).map MimiFutureHeader.completed = some .freed := by simpa using is
  refine claim trace s (Machine.Runs.init.play played) 1 64 ⟨⟨none, second⟩, fun header found => ?_, ?_⟩
  · rw [found] at mark
    rw [Option.some.inj mark]
    nofun
  · rintro ⟨thread, future, job, here⟩
    by_cases zero : thread = 0
    · rw [zero, first] at here
      cases here
    by_cases one : thread = 1
    · rw [one, second] at here
      cases here
    have two : ∀ op ∈ freed_while_awaited, op.thread = 0 ∨ op.thread = 1 := by decide
    have apart : ∀ op ∈ freed_while_awaited, thread ≠ op.thread := by
      intro op member same
      rcases two op member with is | is
      · exact zero (same.trans is)
      · exact one (same.trans is)
    rw [play_idle apart rfl played] at here
    cases here

end Mimi.Runtime.Future
