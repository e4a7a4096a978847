/-
Module: Mimi.Proofs.CapabilitySafety
Purpose: What the calls of a thread have issued and used, and what its table and the registry say of
  it, in every interleaving of calls with readable names, as long as no thread ends with a capability.
  The invariant speaks of one thread at a time: a step changes what it says of the thread that takes
  it, and leaves alone what it says of the others.
Trusted boundary: none
-/
import Mimi.Runtime.Capability

namespace Mimi.Runtime

open Mimi.Lib

/-- The registration that an answer completes, by its id and its name. -/
def issued : CapAnswer → List (Int64 × CapName)
  | some (.register name, .registered id) => [(id, name.own)]
  | _ => []

/-- The registration that an answer reports as used. -/
def used : CapAnswer → List (Int64 × CapName)
  | some (.consume cap name, .consumed) => [(cap, name.own)]
  | _ => []

/-- What a thread has registered, latest first. -/
def issues (thread : ThreadId) (trace : List (CapOp × CapAnswer)) : List (Int64 × CapName) :=
  trace.flatMap fun entry => if entry.1 = .advance thread then issued entry.2 else []

/-- What a thread has consumed successfully, latest first. -/
def uses (thread : ThreadId) (trace : List (CapOp × CapAnswer)) : List (Int64 × CapName) :=
  trace.flatMap fun entry => if entry.1 = .advance thread then used entry.2 else []

/-- The ids a table holds. -/
def CapTableData.held (table : CapTableData) : List Int64 := table.entries.map CapEntry.id

/-- What can still be consumed of an entry. -/
def CapEntry.token (e : CapEntry) : Option (Int64 × CapName) :=
  if e.consumed then none else some (e.id, .text e.name)

/-- What can still be consumed of a table. -/
def CapTableData.unused (table : CapTableData) : List (Int64 × CapName) :=
  table.entries.filterMap CapEntry.token

/-- The registration that is on its way into the registry. -/
def arriving : Option CapPending → List (Int64 × CapName)
  | some (.registerOwner name id) => [(id, name.own)]
  | _ => []

/-- The ids that a table has given out, latest first. -/
def numbered : Nat → List Int64
  | 0 => []
  | n + 1 => .ofNat (n + 1) :: numbered n

/-- The books of one thread: what it has used and issued, its table, its call and how often the registry
lists it under each id. -/
structure Kept (used issued : List (Int64 × CapName)) (table : CapTableData)
    (pending : Option CapPending) (listed : Int64 → Nat) : Prop where
  tokens : ∀ token, used.count token + table.unused.count token ≤
    issued.count token + (arriving pending).count token
  waiting : ∀ token, (arriving pending).count token ≤ table.unused.count token
  ids : ∃ n, (arriving pending ++ issued).map Prod.fst = numbered n ∧
    table.next_id = .ofNat (n + 1)
  dropping : ∀ id, pending = some (.dropOwner id) → id ∉ table.held
  records : ∀ id, pending ≠ some (.dropOwner id) →
    listed id + ((arriving pending).map Prod.fst).count id = table.held.count id
  readable : ∀ call, pending = some (.table call) → call.readable = true

theorem Kept.init : Kept [] [] .new none fun _ => 0 where
  tokens _ := le_rfl
  waiting _ := le_rfl
  ids := ⟨0, rfl, rfl⟩
  dropping _ eq := absurd eq nofun
  records _ _ := rfl
  readable _ eq := absurd eq nofun

/-! ### What the sections of a call do -/

theorem register_held (table : CapTableData) (name : String) :
    (table.register name).2.held = table.held ++ [table.next_id] := by
  rw [CapTableData.held, CapTableData.register, List.map_append]
  rfl

theorem register_unused (table : CapTableData) (name : String) :
    (table.register name).2.unused = table.unused ++ [(table.next_id, .text name)] := by
  rw [CapTableData.unused, CapTableData.register, List.filterMap_append]
  rfl

theorem drop_held (table : CapTableData) (cap : Int64) :
    (table.drop cap).held = table.held.filter fun id => id ≠ cap := by
  rw [CapTableData.held, CapTableData.held, CapTableData.drop, List.filter_map]
  rfl

theorem drop_unused (table : CapTableData) (cap : Int64) (token : Int64 × CapName) :
    (table.drop cap).unused.count token ≤ table.unused.count token :=
  (List.filter_sublist.filterMap _).count_le token

variable {cap : Int64}

/-- What consuming does: one entry that can be used gives way to one that has been, of the same id. -/
theorem consumeFirst_spec {name : String} {entries entries' : List CapEntry}
    (consumed : consumeFirst cap name entries = some entries') :
    entries'.map CapEntry.id = entries.map CapEntry.id ∧ ∀ token : Int64 × CapName,
      [(cap, .text name)].count token + (entries'.filterMap CapEntry.token).count token =
        (entries.filterMap CapEntry.token).count token := by
  induction entries generalizing entries' with
  | nil => cases consumed
  | cons e entries ih =>
      rw [consumeFirst] at consumed
      split_ifs at consumed with this_ own
      · obtain rfl := Option.some.inj consumed
        rw [Bool.and_eq_true, decide_eq_true_eq, Bool.not_eq_true'] at this_
        have before : e.token = some (cap, .text name) := by
          rw [CapEntry.token, this_.2, this_.1, own]
          rfl
        refine ⟨rfl, fun token => ?_⟩
        rw [List.filterMap_cons_none rfl, List.filterMap_cons_some before]
        simp only [List.count_cons, List.count_nil]
        omega
      · obtain ⟨rest, found, rfl⟩ := Option.map_eq_some_iff.mp consumed
        obtain ⟨same, counts⟩ := ih found
        refine ⟨congrArg (e.id :: ·) same, fun token => ?_⟩
        have tail := counts token
        cases one : e.token with
        | none =>
            rw [List.filterMap_cons_none one, List.filterMap_cons_none one]
            exact tail
        | some kept =>
            rw [List.filterMap_cons_some one, List.filterMap_cons_some one]
            simp only [List.count_cons, List.count_nil] at tail ⊢
            omega

/-- How often a registry lists a thread under an id. -/
def listed (ownership : Int64 → Option (List ThreadId)) (thread : ThreadId) (id : Int64) : Nat :=
  ((ownership id).getD []).count thread

theorem listed_record (ownership : Int64 → Option (List ThreadId)) (cap : Int64)
    (here thread : ThreadId) (id : Int64) :
    listed (recordOwner ownership cap here) thread id =
      listed ownership thread id + if here = thread ∧ cap = id then 1 else 0 := by
  rw [listed, listed, recordOwner]
  by_cases same : id = cap
  · subst same
    rw [Function.update_self, Option.getD_some, List.count_append, List.count_singleton]
    simp
  · rw [Function.update_of_ne same, if_neg (fun both => same both.2.symm), Nat.add_zero]

theorem listed_release (ownership : Int64 → Option (List ThreadId)) (cap : Int64)
    (here thread : ThreadId) (id : Int64) :
    listed (releaseOwner ownership cap here) thread id =
      if here = thread ∧ cap = id then 0 else listed ownership thread id := by
  have kept : ∀ owners : List ThreadId, (owners.filter fun owner => owner ≠ here).count thread =
      if here = thread then 0 else owners.count thread := by
    intro owners
    split_ifs with same
    · rw [List.count_eq_zero, same]
      simp
    · rw [List.count_filter]
      simpa using Ne.symm same
  rw [listed, listed, releaseOwner]
  cases found : ownership cap with
  | none =>
      split_ifs with both
      · obtain ⟨-, rfl⟩ := both
        exact congrArg (fun owners : Option (List ThreadId) => (owners.getD []).count thread) found
      · rfl
  | some owners =>
      by_cases same : id = cap
      · subst same
        have all : ((if (owners.filter fun owner => owner ≠ here).isEmpty then none
            else some (owners.filter fun owner => owner ≠ here)).getD [] : List ThreadId) =
            owners.filter fun owner => owner ≠ here := by
          split_ifs with none_
          · exact (List.isEmpty_iff.mp none_).symm
          · rfl
        simp only [Function.update_self, all, kept, found, Option.getD_some, and_true]
      · simp only [Function.update_of_ne same, Ne.symm same, and_false, if_false]

/-! ### What a step does to the books -/

theorem mem_held_of_dropped {table : CapTableData} :
    cap ∉ (table.drop cap).held := by
  rw [drop_held]
  simp

/-- Dropping what a table does not hold leaves it as it is. -/
theorem drop_of_length {table : CapTableData}
    (same : (table.drop cap).entries.length = table.entries.length) : table.drop cap = table := by
  have all := List.filter_sublist.eq_of_length same
  exact congrArg (CapTableData.mk table.next_id) all

variable {u i : List (Int64 × CapName)} {call : CapCall} {lists : Int64 → Nat}

/-- A registration takes the next id of the thread; its record is still to be made. -/
theorem kept_register {table : CapTableData} {name : CapName}
    (kept : Kept u i table (some (.table (.register name))) lists) :
    Kept u i (table.register name.cstr_to_string).2
      (some (.registerOwner name (table.register name.cstr_to_string).1)) lists where
  tokens token := by
    rw [register_unused, ← (CapName.own_of_readable (kept.readable _ rfl)).1, List.count_append, ← Nat.add_assoc]
    exact Nat.add_le_add_right (kept.tokens token) _
  waiting token := by
    rw [register_unused, ← (CapName.own_of_readable (kept.readable _ rfl)).1, List.count_append]
    exact Nat.le_add_left _ _
  ids := by
    obtain ⟨n, same, next⟩ := kept.ids
    refine ⟨n + 1, ?_, ?_⟩
    · rw [arriving, List.singleton_append, List.map_cons, numbered]
      exact congr (congrArg List.cons next) same
    · show table.next_id + 1 = _
      rw [next]
      exact (Int64.ofNat_add (n + 1) 1).symm
  dropping _ eq := absurd eq nofun
  records id _ := by
    rw [register_held, List.count_append, ← kept.records id nofun]
    rfl
  readable _ eq := absurd eq nofun

/-- The record of a registration is made. -/
theorem kept_recorded {table : CapTableData} {name : CapName} {lists' : Int64 → Nat}
    (kept : Kept u i table (some (.registerOwner name cap)) lists)
    (more : ∀ id, lists' id = lists id + if cap = id then 1 else 0) :
    Kept u ((cap, name.own) :: i) table none lists' where
  tokens token := by
    have before := kept.tokens token
    rw [List.count_cons]
    simp only [arriving, List.count_cons, List.count_nil] at before ⊢
    omega
  waiting _ := Nat.zero_le _
  ids := kept.ids
  dropping _ eq := absurd eq nofun
  records id _ := by
    rw [← kept.records id nofun, more id]
    simp [arriving, List.count_singleton]
  readable _ eq := absurd eq nofun

/-- A drop takes the id out of the table; its record is still to be removed. -/
theorem kept_dropped {table : CapTableData} (kept : Kept u i table (some (.table call)) lists) (cap : Int64) :
    Kept u i (table.drop cap) (some (.dropOwner cap)) lists where
  tokens token := (Nat.add_le_add_left (drop_unused table cap token) _).trans (kept.tokens token)
  waiting _ := Nat.zero_le _
  ids := kept.ids
  dropping id eq := by
    obtain rfl := CapPending.dropOwner.inj (Option.some.inj eq)
    exact mem_held_of_dropped
  records id other := by
    have apart : id ≠ cap := fun same => other (same ▸ rfl)
    rw [drop_held, List.count_filter (p := fun id => decide (id ≠ cap)) (decide_eq_true apart)]
    exact kept.records id nofun
  readable _ eq := absurd eq nofun

/-- The record of a dropped id is removed, and no record of another thread. -/
theorem kept_released {table : CapTableData}
    {lists' : Int64 → Nat} (kept : Kept u i table (some (.dropOwner cap)) lists)
    (fewer : ∀ id, lists' id = if cap = id then 0 else lists id) : Kept u i table none lists' where
  tokens := kept.tokens
  waiting _ := Nat.zero_le _
  ids := kept.ids
  dropping _ eq := absurd eq nofun
  records id _ := by
    rw [fewer id]
    split_ifs with same
    · subst same
      exact (List.count_eq_zero.mpr (kept.dropping cap rfl)).symm
    · exact kept.records id fun eq => same (CapPending.dropOwner.inj (Option.some.inj eq))
  readable _ eq := absurd eq nofun

/-- A use takes a registration that was not used before, under its name. -/
theorem kept_consumed {table : CapTableData} {name : CapName}
    (kept : Kept u i table (some (.table (.consume cap name))) lists)
    {entries : List CapEntry} (consumed : consumeFirst cap name.to_str table.entries = some entries) :
    Kept ((cap, name.own) :: u) i { table with entries := entries } none lists := by
  obtain ⟨same, counts⟩ := consumeFirst_spec consumed
  rw [← (CapName.own_of_readable (kept.readable _ rfl)).2] at counts
  refine ⟨fun token => ?_, fun _ => Nat.zero_le _, kept.ids, fun _ eq => absurd eq nofun, fun id _ => ?_,
    fun _ eq => absurd eq nofun⟩
  · have before := kept.tokens token
    have after := counts token
    rw [CapTableData.unused] at before ⊢
    rw [← after] at before
    simp only [arriving, List.count_cons, List.count_nil] at before ⊢
    omega
  · rw [CapTableData.held, same]
    exact kept.records id nofun

/-- A step that neither registers nor drops leaves the books alone. -/
theorem Kept.still {table : CapTableData} {pending next : Option CapPending} (kept : Kept u i table pending lists)
    (none_ : arriving pending = []) (none_' : arriving next = [])
    (stays : ∀ id, pending ≠ some (.dropOwner id)) (stays' : ∀ id, next ≠ some (.dropOwner id))
    (readable : ∀ call, next = some (.table call) → call.readable = true) : Kept u i table next lists where
  tokens := none_'.trans none_.symm ▸ kept.tokens
  waiting := none_'.trans none_.symm ▸ kept.waiting
  ids := none_'.trans none_.symm ▸ kept.ids
  dropping id eq := absurd eq (stays' id)
  records id _ := none_'.trans none_.symm ▸ kept.records id (stays id)
  readable := readable

variable {s : CapState} {answer : CapAnswer}

/-- The step of a call in the books of its own thread. -/
theorem kept_advance {here : ThreadId} {pending : CapPending} {next : Option CapPending} {table : CapTableData}
    {ownership : Int64 → Option (List ThreadId)}
    (kept : Kept u i (s.tables here) (some pending) (listed s.ownership here))
    (steps : capAdvance here pending s = (answer, next, table, ownership)) :
    Kept (used answer ++ u) (issued answer ++ i) table next (listed ownership here) := by
  cases pending with
  | table call =>
      cases call with
      | register name =>
          obtain ⟨rfl, rfl, rfl, rfl⟩ := steps
          exact kept_register kept
      | drop cap =>
          simp only [capAdvance] at steps
          split_ifs at steps with same <;> obtain ⟨rfl, rfl, rfl, rfl⟩ := steps
          · exact kept_dropped kept cap
          · rw [drop_of_length (not_not.mp same)]
            exact kept.still rfl rfl nofun nofun nofun
      | check cap name =>
          simp only [capAdvance] at steps
          split_ifs at steps <;> obtain ⟨rfl, rfl, rfl, rfl⟩ := steps <;>
            exact kept.still rfl rfl nofun nofun nofun
      | consume cap name =>
          simp only [capAdvance] at steps
          cases found : consumeFirst cap name.to_str (s.tables here).entries with
          | some entries =>
              rw [found] at steps
              obtain ⟨rfl, rfl, rfl, rfl⟩ := steps
              exact kept_consumed kept found
          | none =>
              rw [found] at steps
              obtain ⟨rfl, rfl, rfl, rfl⟩ := steps
              exact kept.still rfl rfl nofun nofun nofun
  | registerOwner name id =>
      obtain ⟨rfl, rfl, rfl, rfl⟩ := steps
      refine kept_recorded kept fun id' => ?_
      rw [listed_record]
      simp only [true_and]
  | dropOwner cap =>
      obtain ⟨rfl, rfl, rfl, rfl⟩ := steps
      refine kept_released kept fun id => ?_
      rw [listed_release]
      simp only [true_and]
  | warn call cap =>
      obtain ⟨rfl, rfl, rfl, rfl⟩ := steps
      have none_ : ∀ warned, used (some (call, .failed warned)) = [] ∧
          issued (some (call, .failed warned)) = [] := by
        intro warned
        cases call <;> exact ⟨rfl, rfl⟩
      rw [(none_ _).1, (none_ _).2]
      exact kept.still rfl rfl nofun nofun nofun

/-- The registry's records of the other threads stay. -/
theorem listed_advance {here thread : ThreadId} (other : thread ≠ here) {pending : CapPending}
    {next : Option CapPending} {table : CapTableData} {ownership : Int64 → Option (List ThreadId)}
    (steps : capAdvance here pending s = (answer, next, table, ownership)) :
    listed ownership thread = listed s.ownership thread := by
  have apart : ∀ p : Prop, ¬(here = thread ∧ p) := fun p both => other both.1.symm
  cases pending with
  | table call =>
      cases call with
      | register name =>
          obtain ⟨rfl, rfl, rfl, rfl⟩ := steps
          rfl
      | drop cap =>
          simp only [capAdvance] at steps
          split_ifs at steps <;> obtain ⟨rfl, rfl, rfl, rfl⟩ := steps <;> rfl
      | check cap name =>
          simp only [capAdvance] at steps
          split_ifs at steps <;> obtain ⟨rfl, rfl, rfl, rfl⟩ := steps <;> rfl
      | consume cap name =>
          simp only [capAdvance] at steps
          cases found : consumeFirst cap name.to_str (s.tables here).entries <;>
            rw [found] at steps <;> obtain ⟨rfl, rfl, rfl, rfl⟩ := steps <;> rfl
  | registerOwner name id =>
      obtain ⟨rfl, rfl, rfl, rfl⟩ := steps
      funext id'
      rw [listed_record, if_neg (apart _), Nat.add_zero]
  | dropOwner cap =>
      obtain ⟨rfl, rfl, rfl, rfl⟩ := steps
      funext id
      rw [listed_release, if_neg (apart _)]
  | warn call cap =>
      obtain ⟨rfl, rfl, rfl, rfl⟩ := steps
      rfl

/-! ### Runs -/

/-- The books of every thread are in order. -/
def AllKept (trace : List (CapOp × CapAnswer)) (s : CapState) : Prop :=
  ∀ thread, Kept (uses thread trace) (issues thread trace) (s.tables thread) (s.calls thread)
    (listed s.ownership thread)

/-- Every call brings a readable name, and a thread that ends holds no capability. -/
def Orderly (op : CapOp) (s : CapState) : Prop :=
  match op with
  | .enter _ call => call.readable = true
  | .advance _ => True
  | .finish thread => (s.tables thread).entries = []

/-- One step of any thread keeps the account of every thread: the others' tables and records stay as they are. -/
theorem allKept_step {trace : List (CapOp × CapAnswer)} {s' : CapState} {op : CapOp}
    (kept : AllKept trace s) (orderly : Orderly op s) (steps : capStep op s = some (answer, s')) :
    AllKept ((op, answer) :: trace) s' := by
  intro thread
  cases op with
  | enter here call =>
      rw [capStep] at steps
      split_ifs at steps with idle
      obtain ⟨rfl, rfl⟩ := Prod.mk.inj (Option.some.inj steps)
      rw [uses, issues, List.flatMap_cons, List.flatMap_cons, if_neg nofun, if_neg nofun]
      by_cases same : thread = here
      · subst same
        have before := kept thread
        rw [Option.isNone_iff_eq_none.mp (Bool.and_eq_true_iff.mp idle).1] at before
        simp only [Function.update_self]
        refine before.still rfl rfl nofun nofun fun call' is => ?_
        obtain rfl := CapPending.table.inj (Option.some.inj is)
        exact orderly
      · simp only [Function.update_of_ne same]
        exact kept thread
  | advance here =>
      rw [capStep, Option.bind_eq_bind, Option.bind_eq_some_iff] at steps
      obtain ⟨pending, calls, steps⟩ := steps
      cases stepped : capAdvance here pending s with
      | mk answer_ rest =>
          obtain ⟨next, table, ownership⟩ := rest
          rw [stepped] at steps
          obtain ⟨rfl, rfl⟩ := Prod.mk.inj (Option.some.inj steps)
          rw [uses, issues, List.flatMap_cons, List.flatMap_cons]
          by_cases same : thread = here
          · subst same
            have before := kept thread
            rw [calls] at before
            rw [if_pos rfl, if_pos rfl]
            simp only [Function.update_self]
            exact kept_advance before stepped
          · have apart : CapOp.advance here ≠ .advance thread := fun eq =>
              same (CapOp.advance.inj eq).symm
            rw [if_neg apart, if_neg apart]
            simp only [Function.update_of_ne same, listed_advance same stepped]
            exact kept thread
  | finish here =>
      rw [capStep] at steps
      split_ifs at steps
      obtain ⟨rfl, rfl⟩ := Prod.mk.inj (Option.some.inj steps)
      rw [uses, issues, List.flatMap_cons, List.flatMap_cons, if_neg nofun, if_neg nofun]
      -- what is gone with the thread was nothing
      have nothing : { s.tables here with entries := [] } = s.tables here := by
        rw [← show (s.tables here).entries = [] from orderly]
      rw [nothing, Function.update_eq_self]
      exact kept thread

/-- The account is kept along a run, by induction on its steps. -/
theorem kept_of_run {trace : List (CapOp × CapAnswer)} (run : CapMachine.Runs Orderly trace s) : AllKept trace s := by
  have start : AllKept [] CapMachine.init := fun _ => Kept.init
  exact run.invariant start fun kept may steps => allKept_step kept may steps

theorem length_numbered (n : Nat) : (numbered n).length = n := by
  induction n with
  | zero => rfl
  | succ n ih => rw [numbered, List.length_cons, ih]

/-- What is left of the ids without the latest ones are the ids given out before. -/
theorem numbered_of_append {latest before : List Int64} {n : Nat}
    (all : latest ++ before = numbered n) : before = numbered before.length := by
  induction latest generalizing n with
  | nil =>
      rw [List.nil_append] at all
      rw [all, length_numbered]
  | cons id latest ih =>
      cases n with
      | zero => cases all
      | succ n => exact ih (List.cons.inj all).2

/-- The ids that a table gives out differ until the counter has gone around. -/
theorem numbered_nodup {n : Nat} (few : n ≤ 2 ^ 64) : (numbered n).Nodup := by
  have upTo : ∀ n, numbered n = (List.range' 1 n).reverse.map Int64.ofNat := by
    intro n
    induction n with
    | zero => rfl
    | succ n ih =>
        rw [numbered, ih, List.range'_1_concat, List.reverse_append, Nat.add_comm 1 n]
        rfl
  rw [upTo, List.map_reverse, List.nodup_reverse]
  refine List.Nodup.map_on (fun a first b second same => ?_) List.nodup_range'
  have bounds := And.intro (List.mem_range'_1.mp first) (List.mem_range'_1.mp second)
  have words := congrArg Int64.toBitVec same
  rw [Int64.toBitVec_ofNat', Int64.toBitVec_ofNat'] at words
  have rests := congrArg BitVec.toNat words
  rw [BitVec.toNat_ofNat, BitVec.toNat_ofNat] at rests
  omega

/-- The registrations that a thread has consumed are among its own, each of them once and under its own
name; an id stands for one registration of a thread until its counter has gone around; and while no call is
in progress the registry lists under an id exactly the threads whose table holds it. -/
structure Once (trace : List (CapOp × CapAnswer)) (s : CapState) : Prop where
  among : ∀ thread, (uses thread trace).Subperm (issues thread trace)
  distinct : ∀ thread, (issues thread trace).length ≤ 2 ^ 64 →
    ((issues thread trace).map Prod.fst).Nodup ∧ ((uses thread trace).map Prod.fst).Nodup
  recorded : (∀ thread, s.calls thread = none) →
    ∀ id thread, thread ∈ s.owners id ↔ ∃ e ∈ (s.tables thread).entries, e.id = id

/-- In every run whose names are readable and whose threads end without capabilities, every registration is consumed at
most once, on its own thread and under its own name, and the registry is exact while no call is in progress. -/
theorem capabilities_once (trace : List (CapOp × CapAnswer)) (s : CapState)
    (run : CapMachine.Runs Orderly trace s) : Once trace s := by
  have kept := kept_of_run run
  have among : ∀ thread, (uses thread trace).Subperm (issues thread trace) := by
    intro thread
    refine List.subperm_iff_count.mpr fun token => ?_
    have tokens := (kept thread).tokens token
    have waiting := (kept thread).waiting token
    have fewer : (uses thread trace).count token ≤ (issues thread trace).count token := by omega
    convert fewer
  refine ⟨among, fun thread few => ?_, fun quiet id thread => ?_⟩
  · have distinct : ((issues thread trace).map Prod.fst).Nodup := by
      obtain ⟨n, all, -⟩ := (kept thread).ids
      rw [List.map_append] at all
      rw [numbered_of_append all, List.length_map]
      exact numbered_nodup few
    obtain ⟨some_, same, within⟩ := among thread
    exact ⟨distinct, ((same.map Prod.fst).nodup_iff.mp (distinct.sublist (within.map Prod.fst)))⟩
  · have records := (kept thread).records id (by rw [quiet]; nofun)
    rw [quiet] at records
    have counts : (s.owners id).count thread = (s.tables thread).held.count id := records
    rw [← List.count_pos_iff, counts, List.count_pos_iff, CapTableData.held, List.mem_map]

/-- A call of a thread from its entry to its return. -/
def callOf (thread : ThreadId) (call : CapCall) (steps : Nat) : List CapOp :=
  .enter thread call :: List.replicate steps (.advance thread)

/-- `Orderly`, computed. -/
def orderly (op : CapOp) (s : CapState) : Bool :=
  match op with
  | .enter _ call => call.readable
  | .advance _ => true
  | .finish thread => (s.tables thread).entries.isEmpty

theorem orderly_allowed (op : CapOp) (s : CapState) (checked : orderly op s = true) : Orderly op s := by
  cases op with
  | enter thread call => exact checked
  | advance thread => trivial
  | finish thread => exact List.isEmpty_iff.mp checked

/-- Two threads register under the same id; one of them consumes its registration, drops it and ends. -/
theorem capabilities_once_collision : ∃ trace s,
    CapMachine.Runs Orderly trace s ∧ issues 0 trace = issues 1 trace ∧ uses 0 trace = [(1, .text "net")] ∧
      s.ended 0 = true ∧ Once trace s := by
  obtain ⟨⟨trace, s⟩, played⟩ : ∃ result, (CapMachine.guarded orderly).play
      (callOf 0 (.register (.text "net")) 2 ++ callOf 1 (.register (.text "net")) 2 ++
        callOf 0 (.consume 1 (.text "net")) 1 ++ callOf 0 (.drop 1) 2 ++ [.finish 0]) [] .new = some result :=
    ⟨_, rfl⟩
  have run := Machine.Runs.init.guarded orderly_allowed played
  have once := capabilities_once trace s run
  obtain ⟨rfl, rfl⟩ := Prod.mk.inj (Option.some.inj played)
  exact ⟨_, _, run, rfl, rfl, rfl, once⟩

/-- A name that is not UTF-8 is registered in its lossy reading, and consumed under the text that this is; and the
records of a thread stay behind when it ends. -/
theorem capabilities_mixed : (¬∀ trace s, CapMachine.Runs (fun op _ => ∀ thread, op ≠ .finish thread) trace s →
      Once trace s) ∧
    ¬∀ trace s, CapMachine.Runs (fun op _ => ∀ thread call, op = .enter thread call → call.readable = true) trace s →
      Once trace s := by
  constructor
  · intro claim
    have start : CapMachine.Runs (fun op _ => ∀ thread, op ≠ .finish thread) [] CapMachine.init := .init
    have run := ((((start.next
      (.enter 0 (.register (.malformed "\uFFFD"))) nofun rfl).next
      (.advance 0) nofun rfl).next
      (.advance 0) nofun rfl).next
      (.enter 0 (.consume 1 (.text "\uFFFD"))) nofun rfl).next
      (.advance 0) nofun rfl
    have used_ := ((claim _ _ run).among 0).subset (show ((1 : Int64), CapName.text "\uFFFD") ∈ _ from List.mem_cons_self)
    exact absurd used_ (by decide)
  · intro claim
    have start : CapMachine.Runs (fun op _ => ∀ thread call, op = .enter thread call → call.readable = true) []
        CapMachine.init := .init
    have run := (((start.next
      (.enter 0 (.register (.text "net"))) (by rintro _ _ ⟨⟩; rfl) rfl).next
      (.advance 0) nofun rfl).next
      (.advance 0) nofun rfl).next
      (.finish 0) nofun rfl
    obtain ⟨e, listed, -⟩ := ((claim _ _ run).recorded (fun thread => match thread with | 0 => rfl | _ + 1 => rfl) 1 0).mp
      List.mem_cons_self
    exact absurd listed List.not_mem_nil

end Mimi.Runtime
