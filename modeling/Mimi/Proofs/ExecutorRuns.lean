/-
Module: Mimi.Proofs.ExecutorRuns
Purpose: What is left when `mimi_executor_run` returns: the references of the queue are released, each once, whatever
  the poll functions do.  A future that its poll function leaves pending is not put back into the queue; where that
  never happens, every future that was ever in the queue is completed or freed.
Trusted boundary: none
-/
import Mimi.Runtime.Executor

namespace Mimi.Runtime.Executor

open Mimi.Lib
open Future (Completed MimiFutureHeader FUTURE_MIN_DATA_CAPACITY future_layout wrapping_small)

variable {memory memory' : Memory} {claims claims' : Nat → Nat} {future : Nat} {header : MimiFutureHeader}

/-! ### The calls on a future -/

/-- The references of every future are the claims on it, and a future without claims is not allocated. -/
structure Account (claims : Nat → Nat) (memory : Memory) : Prop where
  absent : ∀ {f}, memory.heap f = none → memory.live f = false ∧ claims f = 0
  refs : ∀ {f header}, memory.heap f = some header → header.refs = claims f
  held : ∀ {f header}, memory.heap f = some header → 0 < claims f
  live : ∀ {f header}, memory.heap f = some header → memory.live f = true
  sized : ∀ {f header}, memory.heap f = some header → (future_layout header.data_capacity).isSome

/-- Nothing is pending that was not. -/
def Later (memory memory' : Memory) : Prop :=
  ∀ f header', memory'.heap f = some header' → header'.completed = .pending →
    ∃ header, memory.heap f = some header ∧ header.completed = .pending

/-- A future that is completed, marked as freed, or released. -/
def Finished (memory : Memory) (future : Nat) : Prop :=
  ∀ header, memory.heap future = some header → header.completed ≠ .pending

theorem Later.refl (memory : Memory) : Later memory memory := fun _ header' found pending => ⟨header', found, pending⟩

theorem Later.trans {memory'' : Memory} (first : Later memory memory') (second : Later memory' memory'') :
    Later memory memory'' := by
  intro f header found pending
  obtain ⟨header', found', pending'⟩ := second f header found pending
  exact first f header' found' pending'

theorem Finished.later (finished : Finished memory future) (later : Later memory memory') :
    Finished memory' future := by
  intro header found pending
  obtain ⟨header', found', pending'⟩ := later future header found pending
  exact finished header' found' pending'

theorem Later.write (found : memory.heap future = some header) {header' : MimiFutureHeader}
    (mark : header'.completed = .pending → header.completed = .pending) :
    Later memory (memory.write future header') := by
  intro f found' is pending
  by_cases same : f = future
  · subst same
    obtain rfl : header' = found' := by simpa [Memory.write] using is
    exact ⟨header, found, mark pending⟩
  · exact ⟨found', (Function.update_of_ne same _ _).symm.trans is, pending⟩

theorem Later.dealloc : Later memory (memory.dealloc future) := by
  intro f found is pending
  by_cases same : f = future
  · subst same
    simp [Memory.dealloc] at is
  · exact ⟨found, (Function.update_of_ne same _ _).symm.trans is, pending⟩

theorem Account.present (account : Account claims memory) (claimed : 0 < claims future) :
    ∃ header, memory.heap future = some header := by
  cases found : memory.heap future with
  | none => exact absurd (account.absent found).2 (by omega)
  | some header => exact ⟨header, rfl⟩

theorem Account.write (account : Account claims memory) (found : memory.heap future = some header)
    {header' : MimiFutureHeader} (capacity : header'.data_capacity = header.data_capacity)
    (refs : header'.refs = claims' future) (held : 0 < claims' future)
    (others : ∀ f, f ≠ future → claims' f = claims f) : Account claims' (memory.write future header') := by
  have elsewhere : ∀ f, f ≠ future → (memory.write future header').heap f = memory.heap f :=
    fun f apart => Function.update_of_ne apart _ _
  have here : (memory.write future header').heap future = some header' := Function.update_self ..
  constructor
  · intro f none_
    by_cases same : f = future
    · rw [same, here] at none_
      cases none_
    · rw [elsewhere f same] at none_
      rw [others f same]
      exact account.absent none_
  all_goals
    intro f header'' is
    by_cases same : f = future
    · subst same
      obtain rfl : header' = header'' := Option.some.inj (here.symm.trans is)
      first | exact refs | exact held | exact account.live found | exact capacity ▸ account.sized found
    · rw [elsewhere f same] at is
      first
        | exact (account.refs is).trans (by rw [others f same])
        | exact others f same ▸ account.held is
        | exact account.live is
        | exact account.sized is

theorem Account.dealloc (account : Account claims memory) (none_ : claims' future = 0)
    (others : ∀ f, f ≠ future → claims' f = claims f) : Account claims' (memory.dealloc future) := by
  have elsewhere : ∀ f, f ≠ future → (memory.dealloc future).heap f = memory.heap f :=
    fun f apart => Function.update_of_ne apart _ _
  have live : ∀ f, f ≠ future → (memory.dealloc future).live f = memory.live f :=
    fun f apart => Function.update_of_ne apart _ _
  have here : (memory.dealloc future).heap future = none := Function.update_self ..
  constructor
  · intro f is
    by_cases same : f = future
    · subst same
      exact ⟨Function.update_self .., none_⟩
    · rw [elsewhere f same] at is
      rw [others f same, live f same]
      exact account.absent is
  all_goals
    intro f header is
    by_cases same : f = future
    · rw [same, here] at is
      cases is
    · rw [elsewhere f same] at is
      first
        | exact (account.refs is).trans (by rw [others f same])
        | exact others f same ▸ account.held is
        | exact (live f same).trans (account.live is)
        | exact account.sized is

/-- The claims of the program are far from the bounds of the counter. -/
def Small (claims : Nat → Nat) : Prop := ∀ f, claims f < 2 ^ 31 - 1

theorem retain_absent (account : Account claims memory) (absent : memory.heap future = none) :
    future_retain_registered future memory = some (false, memory) := by
  simp [future_retain_registered, (account.absent absent).1]

theorem retain_present (account : Account claims memory) (small : Small claims)
    (found : memory.heap future = some header) :
    future_retain_registered future memory =
      some (true, memory.write future { header with refs := header.refs + 1 }) := by
  have refs := account.refs found
  have held := account.held found
  have fits := small future
  have positive : ¬header.refs ≤ 0 := by omega
  have exact_ : Future.wrapping (header.refs + 1) = header.refs + 1 := wrapping_small (by omega) (by omega)
  simp [future_retain_registered, account.live found, found, positive, exact_]

/-- A release with another claim left. -/
theorem release_shared (found : memory.heap future = some header) (shared : 1 < header.refs)
    (fits : header.refs < 2 ^ 31) :
    future_release future memory = some (memory.write future { header with refs := header.refs - 1 }) := by
  have exact_ : Future.wrapping (header.refs - 1) = header.refs - 1 := wrapping_small (by omega) (by omega)
  have several : header.refs ≠ 1 := by omega
  simp [future_release, found, several, exact_]

theorem release_last (found : memory.heap future = some header) (last : header.refs = 1)
    (sized : (future_layout header.data_capacity).isSome) :
    future_release future memory = some (memory.dealloc future) := by
  obtain ⟨size, is⟩ := Option.isSome_iff_exists.mp sized
  simp [future_release, found, last, is]

@[simp] theorem write_heap : (memory.write future header).heap future = some header := Function.update_self ..

@[simp] theorem write_write {header' : MimiFutureHeader} :
    (memory.write future header).write future header' = memory.write future header' := by
  simp [Memory.write]

theorem write_found (found : memory.heap future = some header) : memory.write future header = memory := by
  rw [Memory.write, ← found, Function.update_eq_self]

/-- The release of a claim. -/
theorem release (account : Account claims memory) (small : Small claims) (claimed : 0 < claims future)
    (fewer : claims' future + 1 = claims future) (others : ∀ f, f ≠ future → claims' f = claims f) :
    ∃ memory', future_release future memory = some memory' ∧ Account claims' memory' ∧ Later memory memory' := by
  obtain ⟨header, found⟩ := account.present claimed
  have refs := account.refs found
  have fits := small future
  by_cases last : header.refs = 1
  · exact ⟨_, release_last found last (account.sized found), account.dealloc (by omega) others, Later.dealloc⟩
  · refine ⟨_, release_shared found (by omega) (by omega), ?_, Later.write found id⟩
    exact account.write found rfl (by dsimp only; omega) (by omega) others

/-- A retain and the release of what it took. -/
theorem retain_release (account : Account claims memory) (small : Small claims)
    (found : memory.heap future = some header) :
    future_release future (memory.write future { header with refs := header.refs + 1 }) = some memory := by
  have refs := account.refs found
  have held := account.held found
  have fits := small future
  rw [release_shared write_heap (by dsimp only; omega) (by dsimp only; omega), write_write]
  dsimp only
  rw [add_sub_cancel_right, write_found found]

theorem alloc_spec {result_size : Nat} {granted : Bool} (account : Account claims memory)
    (allocated : mimi_future_alloc result_size future granted memory = some memory')
    (fresh : claims future = 0) (one : claims' future = 1) (others : ∀ f, f ≠ future → claims' f = claims f) :
    Account claims' memory' ∧ (∀ f, f ≠ future → memory'.heap f = memory.heap f) := by
  rw [mimi_future_alloc] at allocated
  dsimp only at allocated
  split_ifs at allocated with rejected
  rw [not_or] at rejected
  cases allocated
  have elsewhere : ∀ {f : Nat}, f ≠ future → ∀ header live, ({ memory.write future header with live } : Memory).heap f =
      memory.heap f := fun apart _ _ => Function.update_of_ne apart _ _
  refine ⟨?_, fun f apart => elsewhere apart _ _⟩
  constructor
  · intro f none_
    by_cases same : f = future
    · subst same
      rw [show _ = some _ from write_heap] at none_
      cases none_
    · rw [elsewhere same] at none_
      rw [others f same]
      exact ⟨(Function.update_of_ne same _ _).trans (account.absent none_).1, (account.absent none_).2⟩
  all_goals
    intro f header is
    by_cases same : f = future
    · subst same
      obtain rfl : _ = header := Option.some.inj (write_heap.symm.trans is)
      first
        | rw [one]; rfl
        | rw [one]; exact Nat.one_pos
        | exact Function.update_self ..
        | exact Option.isSome_iff_ne_none.mpr rejected.1
    · rw [elsewhere same] at is
      first
        | exact (account.refs is).trans (by rw [others f same])
        | exact others f same ▸ account.held is
        | exact (Function.update_of_ne same _ _).trans (account.live is)
        | exact account.sized is

/-- A future is retained and released by the scan. -/
theorem is_pending_eq (account : Account claims memory) (small : Small claims) :
    ∃ pending, is_pending future memory = some (pending, memory) ∧
      (pending = false → Finished memory future) ∧ (pending = true → ∃ header, memory.heap future = some header) := by
  cases found : memory.heap future with
  | none =>
      refine ⟨false, by simp [is_pending, retain_absent account found], fun _ header is => ?_, nofun⟩
      rw [found] at is
      cases is
  | some header =>
      refine ⟨decide (header.completed = .pending), ?_, fun done header' is => ?_, fun _ => ⟨header, rfl⟩⟩
      · simp [is_pending, retain_present account small found, retain_release account small found]
      · obtain rfl : header = header' := Option.some.inj (found.symm.trans is)
        exact of_decide_eq_false done

theorem set_completed_spec (account : Account claims memory) (small : Small claims) :
    ∃ memory', mimi_future_set_completed future memory = some memory' ∧ Account claims memory' ∧
      Later memory memory' := by
  cases found : memory.heap future with
  | none => exact ⟨memory, by simp [mimi_future_set_completed, retain_absent account found], account, .refl _⟩
  | some header =>
      have refs := account.refs found
      have held := account.held found
      have fits := small future
      by_cases pending : header.completed = .pending
      · have written : (memory.write future { header with completed := .ready, refs := header.refs + 1 }).heap future =
            some { header with completed := .ready, refs := header.refs + 1 } := write_heap
        have back := release_shared written (by dsimp only; omega) (by dsimp only; omega)
        refine ⟨memory.write future { header with completed := .ready }, ?_, ?_, Later.write found nofun⟩
        · simp [mimi_future_set_completed, retain_present account small found, pending, back]
        · exact account.write found rfl refs held fun _ _ => rfl
      · refine ⟨memory, ?_, account, .refl _⟩
        simp [mimi_future_set_completed, retain_present account small found, pending,
          retain_release account small found]

/-- The owner gives up its claim. -/
theorem free_spec (account : Account claims memory) (small : Small claims) (claimed : 0 < claims future)
    (fewer : claims' future + 1 = claims future) (others : ∀ f, f ≠ future → claims' f = claims f) :
    ∃ memory', mimi_future_free future memory = some memory' ∧ Account claims' memory' ∧ Later memory memory' := by
  obtain ⟨header, found⟩ := account.present claimed
  have refs := account.refs found
  have fits := small future
  have written : (memory.write future { header with completed := .freed, refs := header.refs + 1 }).heap future =
      some { header with completed := .freed, refs := header.refs + 1 } := write_heap
  have back := release_shared written (by dsimp only; omega) (by dsimp only; omega)
  have marked : Account claims (memory.write future { header with completed := .freed }) :=
    account.write found rfl refs claimed fun _ _ => rfl
  obtain ⟨memory', released, account', later⟩ := release marked small claimed fewer others
  refine ⟨memory', ?_, account', (Later.write found (fun is => by cases is)).trans later⟩
  simp [mimi_future_free, retain_present account small found, back, released]

/-! ### The queue -/

theorem swap_remove_perm {α : Type} {queue : List α} {i : Nat} {entry : α} (at_ : queue[i]? = some entry) :
    (entry :: swap_remove queue i).Perm queue := by
  obtain ⟨init, last, rfl⟩ : ∃ init last, queue = init ++ [last] := by
    cases queue using List.reverseRecOn with
    | nil => simp at at_
    | append_singleton init last => exact ⟨init, last, rfl⟩
  rw [swap_remove, List.getLast?_concat]
  dsimp only
  by_cases inside : i < init.length
  · obtain ⟨front, back, rfl, rfl⟩ : ∃ front back, init = front ++ entry :: back ∧ i = front.length := by
      rw [List.getElem?_append_left inside] at at_
      obtain ⟨_, rfl⟩ := List.getElem?_eq_some_iff.mp at_
      exact ⟨init.take i, init.drop (i + 1), by simp, by simp; omega⟩
    have set_ : (front ++ entry :: back ++ [last]).set front.length last = (front ++ last :: back) ++ [last] := by
      simp
    rw [set_, List.dropLast_concat, List.append_assoc]
    have shifted : (last :: (front ++ back)).Perm (front ++ (back ++ [last])) := by
      rw [← List.append_assoc]
      exact (List.perm_append_singleton ..).symm
    exact ((List.perm_middle.trans shifted).cons entry).trans List.perm_middle.symm
  · have length : i = init.length := by
      have bound := (List.getElem?_eq_some_iff.mp at_).1
      rw [List.length_append, List.length_singleton] at bound
      omega
    subst length
    obtain rfl : last = entry := by simpa using at_
    have set_ : (init ++ [last]).set init.length last = init ++ [last] := by simp
    rw [set_, List.dropLast_concat]
    exact (List.perm_append_singleton ..).symm

theorem find_pending_eq (account : Account claims memory) (small : Small claims) (queue : List ExecutorEntry) :
    ∃ found, find_pending queue memory = some (found, memory) ∧
      (found = none → ∀ entry ∈ queue, Finished memory entry.future) ∧
      ∀ i, found = some i → ∃ entry, queue[i]? = some entry := by
  induction queue with
  | nil => exact ⟨none, rfl, nofun, nofun⟩
  | cons entry rest ih =>
      obtain ⟨pending, is, finished, -⟩ : ∃ pending, is_pending entry.future memory = some (pending, memory) ∧
          (pending = false → Finished memory entry.future) ∧ _ := is_pending_eq account small
      cases pending with
      | true =>
          refine ⟨some 0, by simp [find_pending, is], nofun, fun i first => ?_⟩
          obtain rfl := Option.some.inj first
          exact ⟨entry, rfl⟩
      | false =>
          obtain ⟨found, scanned, none_, some_⟩ := ih
          refine ⟨found.map (· + 1), by simp [find_pending, is, scanned], fun all => ?_, fun i at_ => ?_⟩
          · rw [Option.map_eq_none_iff] at all
            rintro e (_ | ⟨_, member⟩)
            · exact finished rfl
            · exact none_ all e member
          · obtain ⟨j, before, rfl⟩ := Option.map_eq_some_iff.mp at_
            exact some_ j before

/-- The claims of a queue are given up, one for each entry. -/
theorem release_all_spec (small : Small claims) {queue : List ExecutorEntry}
    (account : Account claims memory)
    (more : ∀ f, claims f = claims' f + (queue.map ExecutorEntry.future).count f) :
    ∃ memory', release_all queue memory = some memory' ∧ Account claims' memory' ∧ Later memory memory' := by
  induction queue generalizing claims memory with
  | nil =>
      obtain rfl : claims = claims' := funext fun f => by simpa using more f
      exact ⟨memory, rfl, account, .refl _⟩
  | cons entry rest ih =>
      have counted : ∀ f, claims f = claims' f + (rest.map ExecutorEntry.future).count f +
          if entry.future = f then 1 else 0 := by
        intro f
        rw [more f, List.map_cons, List.count_cons]
        simp [add_assoc]
      let left := fun f => claims' f + (rest.map ExecutorEntry.future).count f
      have here : claims entry.future = left entry.future + 1 := by rw [counted entry.future, if_pos rfl]
      have others : ∀ f, f ≠ entry.future → left f = claims f := fun f apart => by
        rw [counted f, if_neg apart.symm, add_zero]
      obtain ⟨memory₁, released, account₁, later₁⟩ := release account small (by omega) here.symm others
      have small₁ : Small left := by
        intro f
        have fits := small f
        have is := counted f
        dsimp only [left]
        omega
      obtain ⟨memory₂, rest_, account₂, later₂⟩ := ih small₁ account₁ fun f => rfl
      exact ⟨memory₂, by simp [release_all, released, rest_], account₂, later₁.trans later₂⟩

/-! ### The invariant -/

/-- The entries whose reference is not released. -/
def State.entries (s : State) : List ExecutorEntry := s.polling.toList ++ s.queue

def State.futures (s : State) : List Nat := s.entries.map ExecutorEntry.future

/-- The owner has one claim on its future, and every entry has one. -/
def State.claimed (s : State) (future : Nat) : Nat := (s.owned future).toNat + s.futures.count future

structure Kept (s : State) : Prop where
  account : Account s.claimed s.memory
  distinct : (s.queue.map ExecutorEntry.future).Nodup
  fresh : ∀ f, s.next ≤ f → s.claimed f = 0
  null : s.claimed 0 = 0
  started : 0 < s.next
  known : ∀ f ∈ s.ever, f < s.next
  tickets : (s.entries.map ExecutorEntry.ticket ++ s.given).Perm (List.range s.issued)

variable {s s' : State} {op : ExecutorOp} {answer : Answer}

theorem Kept.small (kept : Kept s) : Small s.claimed := by
  intro f
  have owner : (s.owned f).toNat ≤ 1 := by cases s.owned f <;> decide
  have queued : (s.queue.map ExecutorEntry.future).count f ≤ 1 := List.nodup_iff_count_le_one.mp kept.distinct f
  have polled : (s.polling.toList.map ExecutorEntry.future).count f ≤ 1 := by
    refine List.count_le_length.trans ?_
    cases s.polling <;> simp
  rw [State.claimed, State.futures, State.entries, List.map_append, List.count_append]
  omega

theorem kept_new : Kept State.new where
  account := ⟨fun _ => ⟨rfl, rfl⟩, nofun, nofun, nofun, nofun⟩
  distinct := .nil
  fresh _ _ := rfl
  null := rfl
  started := by decide
  known := nofun
  tickets := .nil

/-- What an operation keeps of the futures that are on their way. -/
structure Carries (op : ExecutorOp) (s s' : State) : Prop where
  later : ∀ f < s.next, Finished s.memory f → Finished s'.memory f
  ever : ∀ f ∈ s'.ever, f ∈ s.ever ∨ f ∈ s'.futures
  queued : ∀ entry ∈ s.queue, entry.future ∈ s'.futures ∨ Finished s'.memory entry.future
  polled : op ≠ .finish → ∀ entry, s.polling = some entry → entry.future ∈ s'.futures

theorem Kept.with_memory (kept : Kept s) (account : Account s.claimed memory) : Kept { s with memory } :=
  ⟨account, kept.distinct, kept.fresh, kept.null, kept.started, kept.known, kept.tickets⟩

theorem carries_memory (later : Later s.memory memory) : Carries op s { s with memory } where
  later _ _ finished := finished.later later
  ever _ member := .inl member
  queued entry member := .inl (List.mem_map_of_mem (List.mem_append_right _ member))
  polled _ entry held := List.mem_map_of_mem (List.mem_append_left _ (by simp [held]))

/-- What the lock section of the loop does: it takes the first pending entry out of the queue, or it drains it. -/
theorem round_spec (kept : Kept s) (idle : s.polling = none) :
    ∃ answer s', round s = some (answer, s') ∧ Kept s' ∧ Carries .run s s' ∧ s'.ever = s.ever ∧
      (answer = .returned → s'.entries = []) := by
  have entries : s.entries = s.queue := by simp [State.entries, idle]
  by_cases empty : s.queue = []
  · refine ⟨.returned, s, by simp [round, empty], kept, carries_memory (.refl _), rfl, fun _ => ?_⟩
    rw [entries, empty]
  obtain ⟨found, scanned, none_, some_⟩ := find_pending_eq kept.account kept.small s.queue
  cases found with
  | none =>
      have more : ∀ f, s.claimed f = (fun f => (s.owned f).toNat) f + (s.queue.map ExecutorEntry.future).count f :=
        fun f => by rw [State.claimed, State.futures, entries]
      obtain ⟨memory, released, account, later⟩ := release_all_spec kept.small kept.account more
      let s' : State := { s with memory, queue := [], given := s.queue.map ExecutorEntry.ticket ++ s.given }
      have empty' : s'.entries = [] := by simp [s', State.entries, idle]
      have claims' : s'.claimed = fun f => (s.owned f).toNat := by
        funext f
        rw [State.claimed, State.futures, empty']
        rfl
      refine ⟨.returned, s', by simp [round, empty, scanned, released, s'],
        ⟨?_, .nil, ?_, ?_, kept.started, kept.known, ?_⟩,
        ⟨fun f _ finished => finished.later later, fun f member => .inl member,
          fun entry member => .inr ((none_ rfl entry member).later later), ?_⟩,
        rfl, fun _ => empty'⟩
      · rw [claims']
        exact account
      · intro f above
        have none_ := kept.fresh f above
        rw [State.claimed] at none_
        rw [claims']
        dsimp only
        omega
      · have none_ := kept.null
        rw [State.claimed] at none_
        rw [claims']
        dsimp only
        omega
      · rw [empty']
        have tickets := kept.tickets
        rwa [entries] at tickets
      · intro _ entry held
        rw [idle] at held
        cases held
  | some i =>
      obtain ⟨entry, at_⟩ := some_ i rfl
      let s' : State := { s with queue := swap_remove s.queue i, polling := some entry }
      have perm : s'.entries.Perm s.entries := entries ▸ swap_remove_perm at_
      have futures : s'.futures.Perm s.futures := perm.map _
      have claims' : s'.claimed = s.claimed := by
        funext f
        rw [State.claimed, State.claimed, futures.count_eq]
      have members : ∀ f ∈ s.futures, f ∈ s'.futures := fun f member => futures.mem_iff.mpr member
      refine ⟨.polls entry.poll_fn entry.future, s', by simp [round, empty, scanned, at_, s'], ⟨?_, ?_, ?_, ?_,
        kept.started, kept.known, ?_⟩, ⟨fun f _ finished => finished, fun f member => .inl member,
          fun e member => .inl (members _ ?_), ?_⟩, rfl, nofun⟩
      · rw [claims']
        exact kept.account
      · have all : (s.entries.map ExecutorEntry.future).Nodup := entries ▸ kept.distinct
        have all' : (s'.entries.map ExecutorEntry.future).Nodup := (perm.map _).nodup_iff.mpr all
        exact all'.of_cons
      · rw [claims']
        exact kept.fresh
      · rw [claims']
        exact kept.null
      · exact ((perm.map _).append_right _).trans kept.tickets
      · rw [State.futures, entries]
        exact List.mem_map_of_mem member
      · intro _ e held
        rw [idle] at held
        cases held

/-- The calls that a program may make: an owner frees its future once, and the loop runs once at a time. -/
def Permitted (op : ExecutorOp) (s : State) : Prop :=
  match op with
  | .free future => future = 0 ∨ s.owned future = true
  | .run => s.polling = none
  | .finish => s.polling ≠ none
  | .alloc _ _ | .set_completed _ | .spawn _ _ => True

theorem executorStep_permitted (steps : executorStep op s = some (answer, s')) : Permitted op s := by
  cases op with
  | alloc _ _ | set_completed _ | spawn _ _ => trivial
  | free future =>
      dsimp only [executorStep] at steps
      split_ifs at steps with null owned
      · exact .inl null
      · exact .inr owned
  | run =>
      dsimp only [executorStep] at steps
      split at steps
      next idle => exact idle
      next => cases steps
  | finish =>
      dsimp only [executorStep] at steps
      split at steps
      next => cases steps
      next entry held => exact fun idle => nomatch held.symm.trans idle

/-- A step that the invariant allows. -/
def Spec (op : ExecutorOp) (s : State) : Prop :=
  ∃ answer s', executorStep op s = some (answer, s') ∧ Kept s' ∧ Carries op s s' ∧
    (answer = .returned → s'.entries = [])

theorem Spec.stay (kept : Kept s) (steps : executorStep op s = some (.unit, s)) : Spec op s :=
  ⟨.unit, s, steps, kept, carries_memory (.refl _), nofun⟩

theorem spec_alloc (kept : Kept s) (result_size : Nat) (granted : Bool) : Spec (.alloc result_size granted) s := by
  cases allocated : mimi_future_alloc result_size s.next granted s.memory with
  | none => exact ⟨.future 0, s, by simp [executorStep, allocated], kept, carries_memory (.refl _), nofun⟩
  | some memory =>
      let s' : State := { s with memory, next := s.next + 1, owned := Function.update s.owned s.next true }
      have none_ := kept.fresh s.next (Nat.le_refl _)
      have here : s'.claimed s.next = 1 := by
        rw [State.claimed] at none_ ⊢
        have owned : s'.owned s.next = true := Function.update_self ..
        have same : s'.futures = s.futures := rfl
        rw [owned, same, Bool.toNat_true]
        omega
      have others : ∀ f, f ≠ s.next → s'.claimed f = s.claimed f := by
        intro f apart
        have owned : s'.owned f = s.owned f := Function.update_of_ne apart ..
        rw [State.claimed, State.claimed, owned]
        rfl
      obtain ⟨account, elsewhere⟩ := alloc_spec kept.account allocated none_ here others
      refine ⟨.future s.next, s', by simp [executorStep, allocated, s'], ⟨account, kept.distinct, ?_, ?_, ?_,
        ?_, kept.tickets⟩, ⟨?_, fun f member => .inl member, fun entry member => .inl ?_, fun _ entry held => ?_⟩, nofun⟩
      · intro f above
        have later : s.next + 1 ≤ f := above
        rw [others f (by omega)]
        exact kept.fresh f (by omega)
      · rw [others 0 kept.started.ne]
        exact kept.null
      · exact Nat.succ_pos _
      · exact fun f member => Nat.lt_succ_of_lt (kept.known f member)
      · intro f below finished header is
        exact finished header ((elsewhere f below.ne).symm.trans is)
      · exact List.mem_map_of_mem (List.mem_append_right _ member)
      · exact List.mem_map_of_mem (List.mem_append_left _ (by simp [s', held]))

theorem spec_free (kept : Kept s) (future : Nat) (may : Permitted (.free future) s) : Spec (.free future) s := by
  by_cases null : future = 0
  · exact .stay kept (by simp [executorStep, null])
  have owned : s.owned future = true := may.resolve_left null
  let s' : State := { s with owned := Function.update s.owned future false }
  have fewer : s'.claimed future + 1 = s.claimed future := by
    have gone : s'.owned future = false := Function.update_self ..
    have same : s'.futures = s.futures := rfl
    rw [State.claimed, State.claimed, gone, owned, same, Bool.toNat_true, Bool.toNat_false]
    omega
  have others : ∀ f, f ≠ future → s'.claimed f = s.claimed f := by
    intro f apart
    have same : s'.owned f = s.owned f := Function.update_of_ne apart ..
    rw [State.claimed, State.claimed, same]
    rfl
  have less : ∀ f, s'.claimed f ≤ s.claimed f := by
    intro f
    by_cases same : f = future
    · subst same
      omega
    · exact (others f same).le
  obtain ⟨memory, freed, account, later⟩ := free_spec kept.account kept.small (by omega) fewer others
  refine ⟨.unit, { s' with memory }, by simp [executorStep, null, owned, freed, s'], ⟨account, kept.distinct, ?_, ?_,
    kept.started, kept.known, kept.tickets⟩, ⟨fun f _ finished => finished.later later, fun f member => .inl member,
    fun entry member => .inl ?_, fun _ entry held => ?_⟩, nofun⟩
  · exact fun f above => Nat.eq_zero_of_le_zero ((less f).trans (kept.fresh f above).le)
  · exact Nat.eq_zero_of_le_zero ((less 0).trans kept.null.le)
  · exact List.mem_map_of_mem (List.mem_append_right _ member)
  · exact List.mem_map_of_mem (List.mem_append_left _ (by simp [s', held]))

theorem spec_set_completed (kept : Kept s) (future : Nat) : Spec (.set_completed future) s := by
  by_cases null : future = 0
  · exact .stay kept (by simp [executorStep, null])
  obtain ⟨memory, completed, account, later⟩ : ∃ memory, mimi_future_set_completed future s.memory = some memory ∧ _ :=
    set_completed_spec kept.account kept.small
  exact ⟨.unit, { s with memory }, by simp [executorStep, null, completed], kept.with_memory account,
    carries_memory later, nofun⟩

theorem spec_spawn (kept : Kept s) (future : Nat) (poll_fn : PollFn) : Spec (.spawn future poll_fn) s := by
  by_cases null : future = 0
  · exact .stay kept (by simp [executorStep, mimi_executor_spawn, null])
  cases found : s.memory.heap future with
  | none =>
      have rejected := retain_absent kept.account found
      exact .stay kept (by simp [executorStep, mimi_executor_spawn, null, rejected])
  | some header =>
      have retained := retain_present kept.account kept.small found
      by_cases queued : ∃ entry ∈ s.queue, entry.future = future
      · have back := retain_release kept.account kept.small found
        exact .stay kept (by simp [executorStep, mimi_executor_spawn, null, retained, queued, back])
      let entry : ExecutorEntry := ⟨s.issued, poll_fn, future⟩
      let memory := s.memory.write future { header with refs := header.refs + 1 }
      let s' : State :=
        { s with memory, queue := s.queue ++ [entry], issued := s.issued + 1, ever := future :: s.ever }
      have entries : s'.entries = s.entries ++ [entry] := (List.append_assoc ..).symm
      have futures : s'.futures = s.futures ++ [future] := by
        rw [State.futures, State.futures, entries, List.map_append]
        rfl
      have members : ∀ f ∈ s.futures, f ∈ s'.futures := by
        intro f member
        rw [futures]
        exact List.mem_append_left _ member
      have here : s'.claimed future = s.claimed future + 1 := by
        rw [State.claimed, State.claimed, futures, List.count_append, List.count_singleton_self]
        rfl
      have others : ∀ f, f ≠ future → s'.claimed f = s.claimed f := by
        intro f apart
        have none_ : [future].count f = 0 := List.count_eq_zero.mpr fun member => apart (List.mem_singleton.mp member)
        rw [State.claimed, State.claimed, futures, List.count_append, none_]
        rfl
      have held := kept.account.held found
      have below : future < s.next := by
        by_contra above
        exact held.ne' (kept.fresh future (by omega))
      have refs := kept.account.refs found
      refine ⟨.unit, s', by simp [executorStep, mimi_executor_spawn, null, retained, queued, s', memory, entry],
        ⟨kept.account.write found rfl (by dsimp only; omega) (by omega) others, ?_, ?_, ?_, kept.started, ?_, ?_⟩,
        ⟨fun f _ finished => finished.later (Later.write found id), ?_, fun e member => .inl (members _ ?_),
          fun _ e held => members _ ?_⟩, nofun⟩
      · rw [List.map_append, List.map_singleton]
        refine List.nodup_append.mpr ⟨kept.distinct, List.nodup_singleton _, fun f member g other same => ?_⟩
        obtain ⟨e, queued_, rfl⟩ := List.mem_map.mp member
        exact queued ⟨e, queued_, same.trans (List.mem_singleton.mp other)⟩
      · intro f above
        have above : s.next ≤ f := above
        have apart : f ≠ future := by omega
        rw [others f apart]
        exact kept.fresh f above
      · rw [others 0 (Ne.symm null)]
        exact kept.null
      · rintro f (_ | ⟨_, member⟩)
        · exact below
        · exact kept.known f member
      · rw [entries, List.map_append, List.map_singleton, List.range_succ, List.append_assoc]
        have moved {l : List Nat} : ([s.issued] ++ l).Perm (l ++ [s.issued]) := List.perm_append_comm
        exact (moved.append_left _).trans
          (by rw [← List.append_assoc]; exact kept.tickets.append_right _)
      · rintro f (_ | ⟨_, member⟩)
        · rw [futures]
          exact .inr (List.mem_append_right _ (List.mem_singleton_self _))
        · exact .inl member
      · exact List.mem_map_of_mem (List.mem_append_right _ member)
      · exact List.mem_map_of_mem (List.mem_append_left _ (by simp [held]))

/-- The reference of the entry that was polled is released before the loop goes on. -/
theorem spec_finish (kept : Kept s) (may : Permitted .finish s) : Spec .finish s := by
  obtain ⟨entry, polling⟩ := Option.ne_none_iff_exists'.mp may
  let s₁ : State := { s with polling := none, given := entry.ticket :: s.given }
  have entries : s.entries = entry :: s₁.entries := by simp [State.entries, polling, s₁]
  have counted : ∀ f, s.claimed f = s₁.claimed f + if entry.future = f then 1 else 0 := by
    intro f
    rw [State.claimed, State.claimed, State.futures, entries, List.map_cons, List.count_cons, ← add_assoc]
    simp [State.futures, s₁]
  have here : s.claimed entry.future = s₁.claimed entry.future + 1 := by rw [counted entry.future, if_pos rfl]
  have others : ∀ f, f ≠ entry.future → s₁.claimed f = s.claimed f := fun f apart => by
    rw [counted f, if_neg apart.symm, add_zero]
  obtain ⟨memory, released, account, later⟩ := release kept.account kept.small (by omega) here.symm others
  have kept₁ : Kept { s₁ with memory } := by
    refine ⟨account, kept.distinct, fun f above => ?_, ?_, kept.started, kept.known, ?_⟩
    · have none_ := kept.fresh f above
      have is := counted f
      change s₁.claimed f = 0
      omega
    · have none_ := kept.null
      have is := counted 0
      change s₁.claimed 0 = 0
      omega
    · have tickets := kept.tickets
      rw [entries] at tickets
      exact List.perm_middle.trans tickets
  obtain ⟨answer, s', is, kept', carries, ever, returned⟩ := round_spec kept₁ rfl
  refine ⟨answer, s', by simp [executorStep, polling, released, ← is, s₁], kept', ⟨?_, ?_, carries.queued, ?_⟩,
    returned⟩
  · exact fun f below finished => carries.later f below (finished.later later)
  · exact fun f member => .inl (ever ▸ member)
  · exact fun other => absurd rfl other

/-- Every call that the program may make has a result: none of them touches memory that is not allocated. -/
theorem step_spec (kept : Kept s) (may : Permitted op s) : Spec op s := by
  cases op with
  | alloc result_size granted => exact spec_alloc kept result_size granted
  | free future => exact spec_free kept future may
  | set_completed future => exact spec_set_completed kept future
  | spawn future poll_fn => exact spec_spawn kept future poll_fn
  | run =>
      obtain ⟨answer, s', is, kept', carries, -, returned⟩ := round_spec kept may
      have idle : s.polling = none := may
      exact ⟨answer, s', by simp [executorStep, idle, is], kept', carries, returned⟩
  | finish => exact spec_finish kept may

theorem kept_step (kept : Kept s) (steps : executorStep op s = some (answer, s')) :
    Kept s' ∧ Carries op s s' ∧ (answer = .returned → s'.entries = []) := by
  obtain ⟨answer', s'', is, kept', carries, returned⟩ := step_spec kept (executorStep_permitted steps)
  obtain ⟨rfl, rfl⟩ := Prod.mk.inj (Option.some.inj (is.symm.trans steps))
  exact ⟨kept', carries, returned⟩

/-! ### Runs -/

theorem kept_run {trace : List (ExecutorOp × Answer)} {allowed : ExecutorOp → State → Prop}
    (run : ExecutorMachine.Runs allowed trace s) : Kept s :=
  run.invariant (I := fun _ s => Kept s) kept_new fun kept _ steps => (kept_step kept steps).1

/-- Behind a poll, the future is completed, freed or released, or the poll function has submitted it again. -/
def Resolved (op : ExecutorOp) (s : State) : Prop :=
  op = .finish → ∀ entry, s.polling = some entry →
    Finished s.memory entry.future ∨ ∃ other ∈ s.queue, other.future = entry.future

/-- No future is lost on the way. -/
def Covered (s : State) : Prop := ∀ f ∈ s.ever, Finished s.memory f ∨ f ∈ s.futures

theorem covered_step (kept : Kept s) (covered : Covered s) (resolved : Resolved op s)
    (steps : executorStep op s = some (answer, s')) : Covered s' := by
  obtain ⟨-, carries, -⟩ := kept_step kept steps
  intro f member
  rcases carries.ever f member with before | now
  · rcases covered f before with finished | onWay
    · exact .inl (carries.later f (kept.known f before) finished)
    · obtain ⟨entry, there, rfl⟩ := List.mem_map.mp onWay
      rcases List.mem_append.mp there with polled | queued
      · have held : s.polling = some entry := Option.mem_toList.mp polled
        by_cases finish : op = .finish
        · rcases resolved finish entry held with finished | ⟨other, queued, same⟩
          · exact .inl (carries.later _ (kept.known _ before) finished)
          · exact same ▸ (carries.queued other queued).symm
        · exact .inr (carries.polled finish entry held)
      · exact (carries.queued entry queued).symm
  · exact .inr now

/-- The last call was `mimi_executor_run`, or the end of a poll inside of it, and `mimi_executor_run` has returned. -/
def Returned (trace : List (ExecutorOp × Answer)) : Prop := ∃ op rest, trace = (op, .returned) :: rest

theorem returned_run {trace : List (ExecutorOp × Answer)} {allowed : ExecutorOp → State → Prop}
    (run : ExecutorMachine.Runs allowed trace s) (returned : Returned trace) : s.entries = [] := by
  obtain ⟨op, rest, is⟩ := returned
  cases run with
  | init => cases is
  | step run may steps =>
      obtain ⟨head, -⟩ := List.cons.inj is
      obtain ⟨rfl, rfl⟩ := Prod.mk.inj head
      exact (kept_step (kept_run run) steps).2.2 rfl

/-- Whatever the poll functions do, no call touches memory that is not allocated, and when the loop returns each
reference that the queue has taken was released once and nobody but an owner has one.  Where behind every poll the
future is settled or queued again, every future that was ever in the queue is settled when the loop returns. -/
theorem executor_loses_none (run : ExecutorMachine.Runs (fun _ _ => True) trace s) :
    (∀ op, Permitted op s → ∃ answer s', executorStep op s = some (answer, s')) ∧
      (Returned trace → s.queue = [] ∧ s.given.Perm (List.range s.issued) ∧
        ∀ f header, s.memory.heap f = some header → header.refs = (s.owned f).toNat) ∧
      (ExecutorMachine.Runs Resolved trace s → Returned trace → ∀ f ∈ s.ever, Finished s.memory f) := by
  refine ⟨fun op may => ?_, fun returned => ?_, fun run returned f member => ?_⟩
  · obtain ⟨answer, s', steps, -⟩ := step_spec (kept_run run) may
    exact ⟨answer, s', steps⟩
  · have kept := kept_run run
    have empty := returned_run run returned
    refine ⟨(List.append_eq_nil_iff.mp empty).2, ?_, fun f header found => ?_⟩
    · have tickets := kept.tickets
      rwa [empty] at tickets
    · rw [kept.account.refs found, State.claimed, State.futures, empty]
      rfl
  · have covered : Kept s ∧ Covered s :=
      run.invariant (I := fun _ s => Kept s ∧ Covered s)
        ⟨kept_new, fun _ member => absurd member List.not_mem_nil⟩
        fun ⟨kept, covered⟩ resolved steps => ⟨(kept_step kept steps).1, covered_step kept covered resolved steps⟩
    refine (covered.2 f member).resolve_right fun onWay => ?_
    rw [State.futures, returned_run run returned] at onWay
    cases onWay

/-- A poll function that completes its future. -/
def completes : List ExecutorOp := [.alloc 8 true, .spawn 1 7, .run, .set_completed 1]

theorem executor_loses_none_completes :
    ∃ trace s, ExecutorMachine.Runs Resolved ((.finish, .returned) :: trace) s ∧ s.ever = [1] ∧
      ∀ f ∈ s.ever, Finished s.memory f := by
  have seen : (ExecutorMachine.play completes [] State.new).map (fun r =>
      (r.1.map Prod.fst, r.2.polling, (r.2.memory.heap 1).map MimiFutureHeader.completed)) =
        some (completes.reverse, some ⟨0, 7, 1⟩, some .ready) := by decide
  have last : (ExecutorMachine.play completes [] State.new).bind (fun r =>
      (executorStep .finish r.2).map fun last => (last.1, last.2.ever)) = some (.returned, [1]) := by decide
  obtain ⟨⟨trace, s⟩, played, is⟩ := Option.map_eq_some_iff.mp seen
  obtain ⟨ops, polling, mark⟩ : trace.map Prod.fst = completes.reverse ∧ s.polling = some ⟨0, 7, 1⟩ ∧
      (s.memory.heap 1).map MimiFutureHeader.completed = some .ready := by simpa using is
  rw [played, Option.bind_some] at last
  obtain ⟨⟨answer, s'⟩, steps, same⟩ := Option.map_eq_some_iff.mp last
  obtain ⟨rfl, ever⟩ := Prod.mk.inj same
  have none_finish : ∀ entry ∈ trace, entry.1 ≠ ExecutorOp.finish := by
    intro entry member
    have listed : entry.1 ∈ completes.reverse := ops ▸ List.mem_map_of_mem member
    exact (by decide : ∀ op ∈ completes.reverse, op ≠ .finish) _ listed
  have others : ExecutorMachine.Runs (fun op _ => op ≠ .finish) trace s :=
    (Machine.Runs.init.play played).restrict none_finish
  have before : ExecutorMachine.Runs Resolved trace s := others.weaken fun _ _ other finish => absurd finish other
  have resolved : Resolved .finish s := by
    intro _ entry held
    obtain rfl : ⟨0, 7, 1⟩ = entry := Option.some.inj (polling.symm.trans held)
    refine .inl fun header found => ?_
    rw [show s.memory.heap 1 = some header from found] at mark
    rw [Option.some.inj mark]
    nofun
  have run := before.step resolved steps
  exact ⟨_, s', run, ever, (executor_loses_none (run.weaken fun _ _ _ => trivial)).2.2 run ⟨_, _, rfl⟩⟩

/-- A poll function that leaves its future pending, as one that waits for another event does. -/
def left_pending : List ExecutorOp := [.alloc 8 true, .spawn 1 7, .run, .finish]

theorem pending_future_lost :
    ¬∀ trace s, ExecutorMachine.Runs (fun _ _ => True) trace s → Returned trace →
      ∀ f ∈ s.ever, Finished s.memory f := by
  intro claim
  have seen : (ExecutorMachine.play left_pending [] State.new).map (fun r =>
      (r.1.head?, r.2.ever, (r.2.memory.heap 1).map MimiFutureHeader.completed)) =
        some (some (.finish, .returned), [1], some .pending) := by decide
  obtain ⟨⟨trace, s⟩, played, is⟩ := Option.map_eq_some_iff.mp seen
  obtain ⟨last, ever, mark⟩ : trace.head? = some (.finish, .returned) ∧ s.ever = [1] ∧
      (s.memory.heap 1).map MimiFutureHeader.completed = some .pending := by simpa using is
  obtain ⟨rest, rfl⟩ := List.head?_eq_some_iff.mp last
  obtain ⟨header, found, pending⟩ := Option.map_eq_some_iff.mp mark
  have finished := claim _ s (Machine.Runs.init.play played) ⟨_, _, rfl⟩ 1 (by simp [ever])
  exact finished header found pending

end Mimi.Runtime.Executor
