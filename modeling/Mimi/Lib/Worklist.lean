/-
Module: Mimi.Lib.Worklist
Purpose: Worklist solvers over a graph.  A round takes a node from the queue; if the node is ready it
  is evaluated from the values of the nodes it depends on, its value is stored, and its dependents
  are queued when what they see of the value has changed.  When the queue is empty, every node with
  a value is a fixed point of its evaluation, and a node whose value is missing was never ready.
Trusted boundary: none
-/
import Mathlib

namespace Mimi.Lib

/-- A worklist solver for nodes `N` with values `V`, of which dependents see a part `W`.  An
evaluation may log entries `E`. -/
structure Solver (N V W E : Type) where
  /-- Whether a node can be evaluated; otherwise a round drops it. -/
  ready : (N → Option V) → N → Bool
  eval : (N → Option V) → N → V × List E
  view : V → W
  dependents : N → List N

namespace Solver

variable {N V W E : Type} [DecidableEq N] [DecidableEq W]

/-- The state of a solver. -/
structure State (N V E : Type) where
  values : N → Option V
  queue : List N
  log : List E

/-- Append the nodes that are not queued yet. -/
def enqueue (queue : List N) : List N → List N
  | [] => queue
  | n :: ns => enqueue (if n ∈ queue then queue else queue ++ [n]) ns

theorem mem_enqueue {queue ns : List N} {n : N} : n ∈ enqueue queue ns ↔ n ∈ queue ∨ n ∈ ns := by
  induction ns generalizing queue with
  | nil => simp [enqueue]
  | cons m ns ih =>
      rw [enqueue, ih]
      split_ifs with queued
      · constructor
        · rintro (h | h)
          · exact .inl h
          · exact .inr (List.mem_cons_of_mem _ h)
        · rintro (h | h)
          · exact .inl h
          · rcases List.mem_cons.mp h with rfl | h
            · exact .inl queued
            · exact .inr h
      · simp [or_assoc]

/-- One round, for the node at the head of the queue. -/
def visit (A : Solver N V W E) (s : State N V E) (n : N) (rest : List N) : State N V E :=
  if A.ready s.values n then
    let (v, entries) := A.eval s.values n
    { values := Function.update s.values n (some v)
      queue :=
        if (s.values n).map A.view = some (A.view v) then rest
        else enqueue rest (A.dependents n)
      log := s.log ++ entries }
  else { s with queue := rest }

/-- Rounds until the queue is empty. -/
def run (A : Solver N V W E) : Nat → State N V E → Option (State N V E)
  | 0, _ => none
  | fuel + 1, s =>
      match s.queue with
      | [] => some s
      | n :: rest => run A fuel (A.visit s n rest)

/-- Dependents are in play; evaluation and readiness of a node in play depend on what it sees of the
nodes it is a dependent of; and a node stays ready when more values are known. -/
structure Local (A : Solver N V W E) (inPlay : N → Prop) : Prop where
  dependents : ∀ m n, n ∈ A.dependents m → inPlay n
  eval : ∀ f g n, inPlay n →
    (∀ m, n ∈ A.dependents m → (f m).map A.view = (g m).map A.view) → A.eval f n = A.eval g n
  ready : ∀ f g n, inPlay n →
    (∀ m, n ∈ A.dependents m → (f m).map A.view = (g m).map A.view) → A.ready f n = A.ready g n
  mono : ∀ f g n, (∀ m, (f m).isSome → (g m).isSome) → A.ready f n = true → A.ready g n = true

/-- What holds between rounds, for a run that started with the queue `seeds`. -/
structure Invariant (A : Solver N V W E) (inPlay : N → Prop) (seeds : List N) (s : State N V E) :
    Prop where
  queued : ∀ n ∈ s.queue, inPlay n
  valued : ∀ n, (s.values n).isSome → inPlay n
  settled : ∀ n v, s.values n = some v →
    n ∈ s.queue ∨ ∃ entries, A.eval s.values n = (v, entries) ∧ entries ⊆ s.log
  wasReady : ∀ n, (s.values n).isSome → A.ready s.values n = true
  seeded : ∀ n ∈ seeds, n ∈ s.queue ∨ (s.values n).isSome ∨ A.ready s.values n = false
  notified : ∀ m n, (s.values m).isSome → n ∈ A.dependents m →
    n ∈ s.queue ∨ (s.values n).isSome ∨ A.ready s.values n = false

variable {inPlay : N → Prop} {seeds : List N}

omit [DecidableEq N] [DecidableEq W] in
theorem invariant_init (A : Solver N V W E)
    (started : ∀ n ∈ seeds, inPlay n) : Invariant A inPlay seeds ⟨fun _ => none, seeds, []⟩ where
  queued := started
  valued := by simp
  settled := by simp
  wasReady := by simp
  seeded n h := .inl h
  notified := by simp

variable {A : Solver N V W E} {s : State N V E}

omit [DecidableEq N] [DecidableEq W] in
/-- A round that drops its node. -/
theorem invariant_drop {n : N} {rest : List N} (queue : s.queue = n :: rest)
    (notReady : A.ready s.values n = false) (inv : Invariant A inPlay seeds s) :
    Invariant A inPlay seeds { s with queue := rest } := by
  have later {m : N} (h : m ∈ s.queue ∨ (s.values m).isSome ∨ A.ready s.values m = false) :
      m ∈ rest ∨ (s.values m).isSome ∨ A.ready s.values m = false := by
    rcases h with h | h
    · rw [queue] at h
      rcases List.mem_cons.mp h with rfl | h
      · exact .inr (.inr notReady)
      · exact .inl h
    · exact .inr h
  refine ⟨fun m h => inv.queued m (by rw [queue]; exact List.mem_cons_of_mem _ h), inv.valued,
    fun m v value => ?_, inv.wasReady, fun m h => later (inv.seeded m h),
    fun m k value h => later (inv.notified m k value h)⟩
  replace value : s.values m = some v := value
  rcases inv.settled m v value with h | h
  · rw [queue] at h
    rcases List.mem_cons.mp h with rfl | h
    · have ready := inv.wasReady m (by rw [value]; rfl)
      rw [notReady] at ready
      cases ready
    · exact .inl h
  · exact .inr h

/-- A round that evaluates its node. -/
theorem invariant_evaluate (isLocal : Local A inPlay) (started : ∀ n ∈ seeds, inPlay n) {n : N} {rest : List N}
    (queue : s.queue = n :: rest) (ready : A.ready s.values n = true)
    (inv : Invariant A inPlay seeds s) : Invariant A inPlay seeds (A.visit s n rest) := by
  obtain ⟨v, entries, value⟩ : ∃ v entries, A.eval s.values n = (v, entries) := ⟨_, _, rfl⟩
  have next : A.visit s n rest =
      { values := Function.update s.values n (some v)
        queue := if (s.values n).map A.view = some (A.view v) then rest
          else enqueue rest (A.dependents n)
        log := s.log ++ entries } := by
    rw [visit, if_pos ready, value]
  rw [next]
  generalize stored : Function.update s.values n (some v) = values'
  generalize queued : (if (s.values n).map A.view = some (A.view v) then rest
    else enqueue rest (A.dependents n)) = queue'
  have self : values' n = some v := by rw [← stored, Function.update_self]
  have other {m : N} (h : m ≠ n) : values' m = s.values m := by
    rw [← stored, Function.update_of_ne h]
  have grows (m : N) (h : (s.values m).isSome) : (values' m).isSome := by
    by_cases same : m = n
    · simp [same, self]
    · rwa [other same]
  have keeps {m : N} (h : m ∈ rest) : m ∈ queue' := by
    rw [← queued]
    split_ifs
    · exact h
    · exact mem_enqueue.mpr (.inl h)
  have current : inPlay n := inv.queued n (by rw [queue]; exact List.mem_cons_self)
  have valued' (m : N) (h : (values' m).isSome) : inPlay m := by
    by_cases same : m = n
    · exact same ▸ current
    · exact inv.valued m (by rwa [other same] at h)
  -- a node that is not queued by this round sees what it saw before
  have sees (m : N) : m ∈ queue' ∨
      ∀ k, m ∈ A.dependents k → (s.values k).map A.view = (values' k).map A.view := by
    by_cases seen : (s.values n).map A.view = some (A.view v)
    · refine .inr fun k _ => ?_
      by_cases same : k = n
      · rw [same, seen, self]; rfl
      · rw [other same]
    · by_cases dependent : m ∈ A.dependents n
      · refine .inl ?_
        rw [← queued, if_neg seen]
        exact mem_enqueue.mpr (.inr dependent)
      · refine .inr fun k h => ?_
        have different : k ≠ n := fun same => dependent (same ▸ h)
        rw [other different]
  have later {m : N} (inside : inPlay m)
      (h : m ∈ s.queue ∨ (s.values m).isSome ∨ A.ready s.values m = false) :
      m ∈ queue' ∨ (values' m).isSome ∨ A.ready values' m = false := by
    rcases h with h | h | h
    · rw [queue] at h
      rcases List.mem_cons.mp h with rfl | h
      · exact .inr (.inl (by simp [self]))
      · exact .inl (keeps h)
    · exact .inr (.inl (grows m h))
    · rcases sees m with h' | same
      · exact .inl h'
      · exact .inr (.inr (by rw [← isLocal.ready _ _ m inside same]; exact h))
  refine ⟨fun m h => ?_, valued', fun m w stores => ?_, fun m stores => ?_,
    fun m h => later (started m h) (inv.seeded m h), fun m k stores h => ?_⟩
  · replace h : m ∈ queue' := h
    rw [← queued] at h
    split_ifs at h
    · exact inv.queued m (by rw [queue]; exact List.mem_cons_of_mem _ h)
    · rcases mem_enqueue.mp h with h | h
      · exact inv.queued m (by rw [queue]; exact List.mem_cons_of_mem _ h)
      · exact isLocal.dependents n m h
  · replace stores : values' m = some w := stores
    have inside : inPlay m := valued' m (by rw [stores]; rfl)
    rcases sees m with h | same
    · exact .inl h
    · by_cases eq : m = n
      · subst eq
        obtain rfl : v = w := by simpa [self] using stores
        exact .inr ⟨entries, by rw [← isLocal.eval _ _ m inside same, value], by simp⟩
      · have stores' : s.values m = some w := by rwa [other eq] at stores
        rcases inv.settled m w stores' with h | ⟨entries', value', logged⟩
        · rw [queue] at h
          exact .inl (keeps ((List.mem_cons.mp h).resolve_left eq))
        · exact .inr ⟨entries', by rw [← isLocal.eval _ _ m inside same, value'],
            fun e he => List.mem_append_left _ (logged he)⟩
  · replace stores : (values' m).isSome := stores
    by_cases eq : m = n
    · exact isLocal.mono _ _ m grows (eq ▸ ready)
    · exact isLocal.mono _ _ m grows (inv.wasReady m (by rwa [other eq] at stores))
  · replace stores : (values' m).isSome := stores
    by_cases eq : m = n
    · by_cases seen : (s.values n).map A.view = some (A.view v)
      · refine later (isLocal.dependents m k h) (inv.notified n k ?_ (eq ▸ h))
        cases old : s.values n with
        | none => simp [old] at seen
        | some w => rfl
      · refine .inl ?_
        show k ∈ queue'
        rw [← queued, if_neg seen]
        exact mem_enqueue.mpr (.inr (eq ▸ h))
    · exact later (isLocal.dependents m k h) (inv.notified m k (by rwa [other eq] at stores) h)

theorem invariant_visit (isLocal : Local A inPlay) (started : ∀ n ∈ seeds, inPlay n) {n : N} {rest : List N}
    (queue : s.queue = n :: rest) (inv : Invariant A inPlay seeds s) :
    Invariant A inPlay seeds (A.visit s n rest) := by
  cases ready : A.ready s.values n with
  | true => exact invariant_evaluate isLocal started queue ready inv
  | false =>
      rw [visit, ready, if_neg (by simp)]
      exact invariant_drop queue ready inv

/-- The values a solver ends with. -/
structure Solved (A : Solver N V W E) (seeds : List N) (s : State N V E) : Prop where
  settled : ∀ n v, s.values n = some v → ∃ entries, A.eval s.values n = (v, entries) ∧ entries ⊆ s.log
  seeded : ∀ n ∈ seeds, (s.values n).isSome ∨ A.ready s.values n = false
  notified : ∀ m n, (s.values m).isSome → n ∈ A.dependents m →
    (s.values n).isSome ∨ A.ready s.values n = false

theorem solved_of_run (isLocal : Local A inPlay) (started : ∀ n ∈ seeds, inPlay n) {fuel : Nat} {s' : State N V E}
    (inv : Invariant A inPlay seeds s) (result : A.run fuel s = some s') :
    Solved A seeds s' := by
  induction fuel generalizing s with
  | zero => simp [run] at result
  | succ fuel ih =>
      rw [run] at result
      cases queue : s.queue with
      | nil =>
          rw [queue] at result
          obtain rfl : s = s' := by simpa using result
          refine ⟨fun n v h => ?_, fun n h => ?_, fun m n h h' => ?_⟩
          · simpa [queue] using inv.settled n v h
          · simpa [queue] using inv.seeded n h
          · simpa [queue] using inv.notified m n h h'
      | cons n rest =>
          rw [queue] at result
          exact ih (invariant_visit isLocal started queue inv) result

/-- A run from the empty assignment ends in a solution. -/
theorem run_solved (isLocal : Local A inPlay) (started : ∀ n ∈ seeds, inPlay n) {fuel : Nat}
    (result : A.run fuel ⟨fun _ => none, seeds, []⟩ = some s) : Solved A seeds s :=
  solved_of_run isLocal started (invariant_init A started) result

end Solver

end Mimi.Lib
