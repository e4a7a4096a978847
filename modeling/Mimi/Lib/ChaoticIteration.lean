/-
Module: Mimi.Lib.ChaoticIteration
Purpose: Worklist solvers that take the queued nodes in any order.  Where evaluations are monotone and
  values climb to a bound, every run of rounds ends.
Trusted boundary: none
-/
import Mimi.Lib.Worklist

namespace Mimi.Lib

namespace Solver

variable {N V W E ι : Type} [DecidableEq N] [DecidableEq W]

/-! ### Rounds in any order -/

/-- A round that takes any of the queued nodes. -/
inductive Round (A : Solver N V W E) (s : State N V E) : State N V E → Prop where
  | visit {front : List N} {n : N} {back : List N} (queue : s.queue = front ++ n :: back) :
      Round A s (A.visit s n (front ++ back))

/-- So many rounds. -/
inductive Rounds (A : Solver N V W E) : Nat → State N V E → State N V E → Prop where
  | zero (s : State N V E) : Rounds A 0 s s
  | succ {k : Nat} {s s' s'' : State N V E} (rounds : Rounds A k s s') (round : Round A s' s'') :
      Rounds A (k + 1) s s''

variable {s : State N V E}

theorem Rounds.cons {A : Solver N V W E} {k : Nat} {s' s'' : State N V E} (round : Round A s s')
    (rounds : Rounds A k s' s'') : Rounds A (k + 1) s s'' := by
  induction rounds with
  | zero => exact .succ (.zero s) round
  | succ _ last ih => exact .succ (ih round) last

/-- The run that takes the first node each time is one of them. -/
theorem rounds_of_run {A : Solver N V W E} {fuel : Nat} {s' : State N V E}
    (result : A.run fuel s = some s') : (∃ k, Rounds A k s s') ∧ s'.queue = [] := by
  induction fuel generalizing s with
  | zero => cases result
  | succ fuel ih =>
      rw [run] at result
      cases queue : s.queue with
      | nil =>
          rw [queue] at result
          obtain rfl := Option.some.inj result
          exact ⟨⟨0, .zero s⟩, queue⟩
      | cons n rest =>
          rw [queue] at result
          obtain ⟨⟨k, rounds⟩, empty⟩ := ih result
          exact ⟨⟨k + 1, .cons (@Round.visit _ _ _ _ _ _ A s [] n rest queue) rounds⟩, empty⟩

theorem visit_ready {A : Solver N V W E} {n : N} (ready : A.ready s.values n = true)
    (rest : List N) : A.visit s n rest =
      { values := Function.update s.values n (some (A.eval s.values n).1)
        queue :=
          if (s.values n).map A.view = some (A.view (A.eval s.values n).1) then rest
          else enqueue rest (A.dependents n)
        log := s.log ++ (A.eval s.values n).2 } := by
  rw [visit, if_pos ready]

theorem visit_notReady {A : Solver N V W E} {n : N} (ready : ¬A.ready s.values n = true)
    (rest : List N) : A.visit s n rest = { s with queue := rest } := by
  rw [visit, if_neg ready]

/-! ### Climbing values -/

/-- A node is asked for: it is a seed or a dependent of a node with a value. -/
def Asked (A : Solver N V W E) (seeds : List N) (f : N → Option V) (n : N) : Prop :=
  n ∈ seeds ∨ ∃ m, (f m).isSome ∧ n ∈ A.dependents m

/-- All values are fit for their nodes. -/
def Fitting (fits : N → V → Prop) (f : N → Option V) : Prop := ∀ n v, f n = some v → fits n v

/-- Every value has one above it. -/
def Below (le : V → V → Prop) (f g : N → Option V) : Prop :=
  ∀ n v, f n = some v → ∃ w, g n = some w ∧ le v w

omit [DecidableEq N] in
theorem Below.isSome {le : V → V → Prop} {f g : N → Option V} (below : Below le f g) (n : N)
    (value : (f n).isSome) : (g n).isSome := by
  obtain ⟨v, is⟩ := Option.isSome_iff_exists.mp value
  obtain ⟨w, is', -⟩ := below n v is
  rw [is']
  rfl

/-- A family of solvers over finitely many nodes with monotone evaluations: the values that are fit climb,
in what dependents see of them, to a bound. -/
structure Climbs (A : ι → Solver N V W E) (seeds nodes : List N) (view : V → W) (fits : N → V → Prop)
    (le : V → V → Prop) (rank : W → Nat) (most : Nat) : Prop where
  viewed : ∀ i, (A i).view = view
  seeded : ∀ n ∈ seeds, n ∈ nodes
  nodup : seeds.Nodup
  dependents : ∀ i m n, n ∈ (A i).dependents m → n ∈ nodes
  same : ∀ i j m n, n ∈ (A i).dependents m → n ∈ (A j).dependents m
  ready : ∀ i j f g n, (∀ m, (f m).isSome → (g m).isSome) → (A i).ready f n = true →
    (A j).ready g n = true
  refl : ∀ v, le v v
  trans : ∀ u v w, le u v → le v w → le u w
  keeps : ∀ i f n, Fitting fits f → Asked (A i) seeds f n → (A i).ready f n = true →
    fits n ((A i).eval f n).1
  mono : ∀ i j f g n, Fitting fits f → Fitting fits g → Below le f g → Asked (A i) seeds f n →
    (A i).ready f n = true → le ((A i).eval f n).1 ((A j).eval g n).1
  bounded : ∀ n v, fits n v → rank (view v) ≤ most
  climbs : ∀ n v w, fits n v → fits n w → le v w → view v ≠ view w → rank (view v) < rank (view w)

section Climb

variable {A : ι → Solver N V W E} {seeds nodes : List N} {view : V → W} {fits : N → V → Prop}
  {le : V → V → Prop} {rank : W → Nat} {most : Nat} {i j : ι}

/-- What holds between rounds of solvers whose values climb: a value is below what its node evaluates to
again. -/
structure Climbing (A : Solver N V W E) (seeds nodes : List N) (fits : N → V → Prop) (le : V → V → Prop)
    (s : State N V E) : Prop where
  fits : Fitting fits s.values
  asked : ∀ n, n ∈ s.queue ∨ (s.values n).isSome → Asked A seeds s.values n
  ready : ∀ n, (s.values n).isSome → A.ready s.values n = true
  rises : ∀ n v, s.values n = some v → le v (A.eval s.values n).1
  nodup : s.queue.Nodup
  inside : ∀ n ∈ s.queue, n ∈ nodes

omit [DecidableEq N] [DecidableEq W] in
theorem Climbs.climbing_init (climbs : Climbs A seeds nodes view fits le rank most) (i : ι) :
    Climbing (A i) seeds nodes fits le ⟨fun _ => none, seeds, []⟩ where
  fits _ _ value := by cases value
  asked n member := .inl (member.resolve_right Bool.false_ne_true)
  ready _ value := by cases value
  rises _ _ value := by cases value
  nodup := climbs.nodup
  inside := climbs.seeded

omit [DecidableEq W] in
theorem nodup_enqueue {queue : List N} (ns : List N) (nodup : queue.Nodup) : (enqueue queue ns).Nodup := by
  induction ns generalizing queue with
  | nil => exact nodup
  | cons n ns ih =>
      rw [enqueue]
      refine ih ?_
      split_ifs with queued
      · exact nodup
      · exact List.nodup_append.mpr ⟨nodup, List.nodup_singleton n, fun a there b here => by
          rw [List.mem_singleton.mp here]
          exact fun same => queued (same ▸ there)⟩

variable {f : N → Option V}

omit [DecidableEq W] in
/-- What holds of all values holds after one more. -/
theorem forall_update {n : N} {v : V} {P : N → V → Prop}
    (old : ∀ m u, f m = some u → P m u) (new : P n v) (m : N) (u : V)
    (value : Function.update f n (some v) m = some u) : P m u := by
  by_cases same : m = n
  · subst same
    rw [Function.update_self] at value
    exact Option.some.inj value ▸ new
  · rw [Function.update_of_ne same] at value
    exact old m u value

variable {s : State N V E}

omit [DecidableEq W] in
/-- The values after a round are above those before it. -/
theorem Climbing.below_visit (climbs : Climbs A seeds nodes view fits le rank most)
    (inv : Climbing (A i) seeds nodes fits le s) (n : N) :
    Below le s.values (Function.update s.values n (some ((A i).eval s.values n).1)) := by
  intro m v value
  by_cases same : m = n
  · subst same
    exact ⟨_, Function.update_self .., inv.rises m v value⟩
  · exact ⟨v, by rw [Function.update_of_ne same, value], climbs.refl v⟩

omit [DecidableEq N] [DecidableEq W] in
theorem Climbing.keep_queue {rest : List N}
    (inv : Climbing (A i) seeds nodes fits le s) (sub : rest.Sublist s.queue) :
    Climbing (A i) seeds nodes fits le { s with queue := rest } where
  fits := inv.fits
  asked n member := inv.asked n (member.imp_left (sub.subset ·))
  ready := inv.ready
  rises := inv.rises
  nodup := inv.nodup.sublist sub
  inside n member := inv.inside n (sub.subset member)

omit [DecidableEq N] [DecidableEq W] in
theorem Asked.grow {A : Solver N V W E} {g : N → Option V} (grows : ∀ m, (f m).isSome → (g m).isSome) {n : N}
    (asked : Asked A seeds f n) : Asked A seeds g n :=
  asked.imp_right fun ⟨m, value, dependent⟩ => ⟨m, grows m value, dependent⟩

omit [DecidableEq W] in
/-- An evaluation keeps what holds between rounds, whichever dependents are queued. -/
theorem Climbing.evaluate (climbs : Climbs A seeds nodes view fits le rank most) {n : N}
    (inv : Climbing (A i) seeds nodes fits le s) (asked : Asked (A i) seeds s.values n)
    (ready : (A i).ready s.values n = true) {queue : List N} (log : List E)
    (nodup : queue.Nodup) (among : ∀ m ∈ queue, m ∈ s.queue ∨ m ∈ (A i).dependents n) :
    Climbing (A i) seeds nodes fits le
      ⟨Function.update s.values n (some ((A i).eval s.values n).1), queue, log⟩ := by
  have below := inv.below_visit climbs n
  have grows := fun m => Below.isSome below m
  have fitting : Fitting fits (Function.update s.values n (some ((A i).eval s.values n).1)) :=
    forall_update inv.fits (climbs.keeps i s.values n inv.fits asked ready)
  have known (m : N) (value : ((Function.update s.values n (some ((A i).eval s.values n).1)) m).isSome) :
      Asked (A i) seeds s.values m ∧ (A i).ready s.values m = true := by
    by_cases same : m = n
    · exact same ▸ ⟨asked, ready⟩
    · rw [Function.update_of_ne same] at value
      exact ⟨inv.asked m (.inr value), inv.ready m value⟩
  generalize stored : Function.update s.values n (some ((A i).eval s.values n).1) = values at *
  have self : values n = some ((A i).eval s.values n).1 := by rw [← stored, Function.update_self]
  have other {m : N} (apart : m ≠ n) : values m = s.values m := by
    rw [← stored, Function.update_of_ne apart]
  refine ⟨fitting, fun m member => ?_, fun m value => ?_, fun m v value => ?_, nodup, fun m member => ?_⟩
  · rcases member with member | value
    · rcases among m member with queued | dependent
      · exact (inv.asked m (.inl queued)).grow grows
      · exact .inr ⟨n, Option.isSome_iff_exists.mpr ⟨_, self⟩, dependent⟩
    · exact (known m value).1.grow grows
  · exact climbs.ready i i _ _ m grows (known m value).2
  · have here := known m (Option.isSome_iff_exists.mpr ⟨v, value⟩)
    have higher := climbs.mono i i _ _ m inv.fits fitting below here.1 here.2
    by_cases same : m = n
    · subst same
      obtain rfl := Option.some.inj (self.symm.trans value)
      exact higher
    · exact climbs.trans _ _ _ (inv.rises m v ((other same).symm.trans value)) higher
  · rcases among m member with queued | dependent
    · exact inv.inside m queued
    · exact climbs.dependents i n m dependent

omit [DecidableEq N] in
theorem sublist_middle (front back : List N) (n : N) : (front ++ back).Sublist (front ++ n :: back) :=
  (List.sublist_cons_self n back).append_left front

theorem Climbing.round (climbs : Climbs A seeds nodes view fits le rank most) {s s' : State N V E}
    (round : Round (A i) s s') (inv : Climbing (A i) seeds nodes fits le s) :
    Climbing (A i) seeds nodes fits le s' := by
  obtain @⟨front, n, back, queue⟩ := round
  have sub : (front ++ back).Sublist s.queue := queue ▸ sublist_middle front back n
  by_cases ready : (A i).ready s.values n = true
  · rw [visit_ready ready]
    have here : n ∈ s.queue := by rw [queue]; simp
    refine inv.evaluate climbs (inv.asked n (.inl here)) ready _ ?_ fun m member => ?_
    · split_ifs
      · exact inv.nodup.sublist sub
      · exact nodup_enqueue _ (inv.nodup.sublist sub)
    · split_ifs at member
      · exact .inl (sub.subset member)
      · exact (mem_enqueue.mp member).imp_left (sub.subset ·)
  · rw [visit_notReady ready]
    exact inv.keep_queue sub

theorem Climbing.rounds (climbs : Climbs A seeds nodes view fits le rank most) {k : Nat}
    {s s' : State N V E} (rounds : Rounds (A i) k s s') (inv : Climbing (A i) seeds nodes fits le s) :
    Climbing (A i) seeds nodes fits le s' := by
  induction rounds with
  | zero => exact inv
  | succ _ round ih => exact (ih inv).round climbs round

/-! ### Every run ends -/

/-- How far the values can still climb. -/
def slack (nodes : List N) (view : V → W) (rank : W → Nat) (most : Nat) (f : N → Option V) : Nat :=
  (nodes.map fun n => (f n).elim (most + 1) fun v => most - rank (view v)).sum

/-- A bound on the rounds that are left. -/
def potential (nodes : List N) (view : V → W) (rank : W → Nat) (most : Nat) (s : State N V E) : Nat :=
  slack nodes view rank most s.values * (nodes.length + 1) + s.queue.length

omit [DecidableEq N] [DecidableEq W] in
theorem Climbing.length_queue (inv : Climbing (A i) seeds nodes fits le s) :
    s.queue.length ≤ nodes.length :=
  (List.subperm_of_subset inv.nodup inv.inside).length_le

omit [DecidableEq W] in
theorem slack_update_of_view {n : N} {v : V} (seen : (f n).map view = some (view v)) :
    slack nodes view rank most (Function.update f n (some v)) = slack nodes view rank most f := by
  refine congrArg List.sum (List.map_congr_left fun m _ => ?_)
  by_cases same : m = n
  · subst same
    obtain ⟨u, is, views⟩ := Option.map_eq_some_iff.mp seen
    rw [Function.update_self, is, Option.elim_some, Option.elim_some, views]
  · rw [Function.update_of_ne same]

omit [DecidableEq W] in
theorem Climbing.slack_lt (climbs : Climbs A seeds nodes view fits le rank most) {n : N}
    (inv : Climbing (A i) seeds nodes fits le s) (member : n ∈ nodes) (asked : Asked (A i) seeds s.values n)
    (ready : (A i).ready s.values n = true) (unseen : (s.values n).map view ≠ some (view ((A i).eval s.values n).1)) :
    slack nodes view rank most (Function.update s.values n (some ((A i).eval s.values n).1)) <
      slack nodes view rank most s.values := by
  have fits' := climbs.keeps i s.values n inv.fits asked ready
  have bounded := climbs.bounded n _ fits'
  have here : most - rank (view ((A i).eval s.values n).1) <
      (s.values n).elim (most + 1) fun v => most - rank (view v) := by
    cases value : s.values n with
    | none => exact Nat.lt_succ_of_le (Nat.sub_le _ _)
    | some v =>
        have apart : view v ≠ view ((A i).eval s.values n).1 := fun same =>
          unseen (by rw [value, Option.map_some, same])
        have less := climbs.climbs n v _ (inv.fits n v value) fits' (inv.rises n v value) apart
        rw [Option.elim_some]
        omega
  refine List.sum_lt_sum _ _ (fun m _ => ?_) ⟨n, member, ?_⟩
  · by_cases same : m = n
    · subst same
      rw [Function.update_self]
      exact here.le
    · rw [Function.update_of_ne same]
  · rw [Function.update_self]
    exact here

/-- A round uses up some of the bound. -/
theorem Climbing.potential_lt (climbs : Climbs A seeds nodes view fits le rank most) {s' : State N V E}
    (round : Round (A i) s s') (inv : Climbing (A i) seeds nodes fits le s) :
    potential nodes view rank most s' < potential nodes view rank most s := by
  have short := (inv.round climbs round).length_queue
  obtain @⟨front, n, back, queue⟩ := round
  have here : n ∈ s.queue := by rw [queue]; simp
  have shorter : (front ++ back).length < s.queue.length := by
    rw [queue, List.length_append, List.length_append, List.length_cons]
    omega
  rw [potential, potential]
  by_cases ready : (A i).ready s.values n = true
  · rw [visit_ready ready] at short ⊢
    simp only [climbs.viewed i] at short ⊢
    by_cases seen : (s.values n).map view = some (view ((A i).eval s.values n).1)
    · rw [if_pos seen, slack_update_of_view seen]
      exact Nat.add_lt_add_left shorter _
    · rw [if_neg seen] at short ⊢
      have less := inv.slack_lt climbs (inv.inside n here) (inv.asked n (.inl here)) ready seen
      have product := Nat.mul_le_mul_right (nodes.length + 1) (Nat.succ_le_of_lt less)
      rw [Nat.succ_mul] at product
      omega
  · rw [visit_notReady ready]
    exact Nat.add_lt_add_left shorter _

/-- With enough fuel, a run ends. -/
theorem Climbs.run_ends (climbs : Climbs A seeds nodes view fits le rank most) (fuel : Nat)
    (s : State N V E) (inv : Climbing (A i) seeds nodes fits le s)
    (enough : potential nodes view rank most s < fuel) : ∃ s', (A i).run fuel s = some s' := by
  induction fuel generalizing s with
  | zero => cases enough
  | succ fuel ih =>
      rw [run]
      cases queue : s.queue with
      | nil => exact ⟨s, rfl⟩
      | cons n rest =>
          have round : Round (A i) s ((A i).visit s n rest) := @Round.visit _ _ _ _ _ _ (A i) s [] n rest queue
          have less := inv.potential_lt climbs round
          exact ih _ (inv.round climbs round) (by omega)

end Climb

end Solver

end Mimi.Lib
