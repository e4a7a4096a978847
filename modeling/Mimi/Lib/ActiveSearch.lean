/-
Module: Mimi.Lib.ActiveSearch
Purpose: Depth-first search by recursion, with the nodes on the way to the current one marked active and
  all nodes met so far marked visited.  A node may fail by itself, and a way back to an active node fails.
  The search succeeds exactly when no node that can be reached fails and no cycle can be reached.
Trusted boundary: none
-/
import Mimi.Lib.DepthFirst
import Mimi.Lib.Run

namespace Mimi.Lib.ActiveSearch

open Relation (ReflTransGen TransGen)

variable {α ε : Type} [DecidableEq α]

/-- The marks of a search. -/
structure Marks (α : Type) where
  active : Finset α
  visited : Finset α

/-- The marks inside a node. -/
def Marks.enter (marks : Marks α) (v : α) : Marks α := ⟨insert v marks.active, insert v marks.visited⟩

/-- The marks behind a node. -/
def Marks.leave (marks : Marks α) (v : α) : Marks α := { marks with active := marks.active.erase v }

/-- The search from a node; `targets` are its edges, or why it fails. -/
def visit (targets : α → Except ε (List α)) (cyclic : ε) : Nat → α → Run (Marks α) ε Unit
  | 0, _ => Run.diverge
  | fuel + 1, v => fun marks =>
      if v ∈ marks.active then some (.error cyclic, marks)
      else if v ∈ marks.visited then some (.ok (), marks)
      else
        match targets v with
        | .error e => some (.error e, marks.enter v)
        | .ok ws =>
            (Run.forEach (visit targets cyclic fuel) ws >>= fun _ => Run.modify fun marks => marks.leave v)
              (marks.enter v)

/-- The edges of a node that does not fail. -/
def edges (targets : α → Except ε (List α)) (v : α) : List α := (targets v).toOption.getD []

def Edge (targets : α → Except ε (List α)) (v w : α) : Prop := w ∈ edges targets v

/-- A node that fails, or can be reached again from itself. -/
def Faulty (targets : α → Except ε (List α)) (v : α) : Prop :=
  (∃ e, targets v = .error e) ∨ TransGen (Edge targets) v v

variable {targets : α → Except ε (List α)} {cyclic : ε}

variable {v : α} {ws : List α}

omit [DecidableEq α] in
theorem edge_of_ok {w : α} (ok : targets v = .ok ws) (member : w ∈ ws) : Edge targets v w := by
  rw [Edge, edges, ok]
  exact member

omit [DecidableEq α] in
theorem edgeOutside_nil : EdgeOutside (edges targets) [] = Edge targets := by
  funext v w
  simp [EdgeOutside, Edge]

theorem visit_succ (fuel : Nat) (v : α) (marks : Marks α) : visit targets cyclic (fuel + 1) v marks =
    if v ∈ marks.active then some (.error cyclic, marks)
    else if v ∈ marks.visited then some (.ok (), marks)
    else
      match targets v with
      | .error e => some (.error e, marks.enter v)
      | .ok ws =>
          (Run.forEach (visit targets cyclic fuel) ws >>= fun _ => Run.modify fun marks => marks.leave v)
            (marks.enter v) := rfl

variable {fuel : Nat} {marks' : Marks α}

/-- The ways a search succeeds. -/
theorem visit_ok {marks : Marks α} (ran : visit targets cyclic (fuel + 1) v marks = some (.ok (), marks')) :
    v ∉ marks.active ∧ ((v ∈ marks.visited ∧ marks' = marks) ∨
      ∃ ws marks₁, targets v = .ok ws ∧ marks' = marks₁.leave v ∧
        Run.forEach (visit targets cyclic fuel) ws (marks.enter v) = some (.ok (), marks₁)) := by
  rw [visit_succ] at ran
  by_cases active : v ∈ marks.active
  · rw [if_pos active] at ran
    cases ran
  rw [if_neg active] at ran
  refine ⟨active, ?_⟩
  by_cases visited : v ∈ marks.visited
  · rw [if_pos visited] at ran
    obtain ⟨-, rfl⟩ := Prod.mk.inj (Option.some.inj ran)
    exact .inl ⟨visited, rfl⟩
  rw [if_neg visited] at ran
  cases ok : targets v with
  | error e =>
      rw [ok] at ran
      cases ran
  | ok ws =>
      rw [ok] at ran
      obtain ⟨⟨⟩, marks₁, inner, last⟩ := Run.bind_eq_ok.mp ran
      obtain ⟨-, rfl⟩ := Prod.mk.inj (Option.some.inj last)
      exact .inr ⟨ws, marks₁, rfl, rfl, inner⟩

/-- The ways a search fails. -/
theorem visit_error {marks : Marks α} {e : ε}
    (ran : visit targets cyclic (fuel + 1) v marks = some (.error e, marks')) :
    v ∈ marks.active ∨ targets v = .error e ∨
      ∃ ws, targets v = .ok ws ∧
        Run.forEach (visit targets cyclic fuel) ws (marks.enter v) = some (.error e, marks') := by
  rw [visit_succ] at ran
  by_cases active : v ∈ marks.active
  · exact .inl active
  rw [if_neg active] at ran
  by_cases visited : v ∈ marks.visited
  · rw [if_pos visited] at ran
    cases ran
  rw [if_neg visited] at ran
  cases ok : targets v with
  | error e' =>
      rw [ok] at ran
      obtain ⟨same, -⟩ := Prod.mk.inj (Option.some.inj ran)
      exact .inr (.inl (congrArg Except.error (Except.error.inj same)))
  | ok ws =>
      rw [ok] at ran
      obtain ⟨e', marks₁, inner, same⟩ | ⟨⟨⟩, marks₁, -, last⟩ := Run.bind_eq_some.mp ran
      · exact .inr (.inr ⟨ws, rfl, by rw [inner, same]⟩)
      · cases last

/-! ### The search returns -/

/-- The marks are those of before but for more visited nodes. -/
def Restored (marks marks' : Marks α) : Prop := marks'.active = marks.active

variable {f : α → Run (Marks α) ε Unit}

omit [DecidableEq α] in
theorem forEach_restores (each : ∀ w marks marks', f w marks = some (.ok (), marks') → Restored marks marks')
    {marks : Marks α} (ran : Run.forEach f ws marks = some (.ok (), marks')) : Restored marks marks' := by
  induction ws generalizing marks with
  | nil =>
      obtain ⟨-, rfl⟩ := Prod.mk.inj (Option.some.inj ran)
      rfl
  | cons w ws ih =>
      obtain ⟨⟨⟩, marks₁, first, rest⟩ := Run.bind_eq_ok.mp ran
      exact (ih rest).trans (each w marks marks₁ first)

/-- A search that succeeds leaves no node active that was not. -/
theorem visit_restores {marks : Marks α}
    (ran : visit targets cyclic fuel v marks = some (.ok (), marks')) : Restored marks marks' := by
  induction fuel generalizing v marks marks' with
  | zero => cases ran
  | succ fuel ih =>
      obtain ⟨active, ⟨-, rfl⟩ | ⟨ws, marks₁, -, rfl, inner⟩⟩ := visit_ok ran
      · rfl
      · have same : marks₁.active = insert v marks.active := forEach_restores (fun _ _ _ => ih) inner
        rw [Restored, Marks.leave, same, Finset.erase_insert active]

omit [DecidableEq α] in
theorem forEach_returns {active : Finset α}
    (restores : ∀ w marks marks', f w marks = some (.ok (), marks') → Restored marks marks')
    (each : ∀ w marks, marks.active = active → (f w marks).isSome) {marks : Marks α}
    (started : marks.active = active) : (Run.forEach f ws marks).isSome := by
  induction ws generalizing marks with
  | nil => rfl
  | cons w ws ih =>
      obtain ⟨⟨outcome, marks₁⟩, ran⟩ := Option.isSome_iff_exists.mp (each w marks started)
      cases outcome with
      | error e => rw [Run.forEach, Run.bind_error ran]; rfl
      | ok =>
          rw [Run.forEach, Run.bind_ok ran]
          exact ih ((restores w marks marks₁ ran).trans started)

/-- With fuel for the nodes that are not active, the search returns. -/
theorem visit_returns {nodes : Finset α} (within : ∀ v ws, targets v = .ok ws → v ∈ nodes)
    {marks : Marks α} (enough : (nodes \ marks.active).card < fuel) :
    (visit targets cyclic fuel v marks).isSome := by
  induction fuel generalizing v marks with
  | zero => cases enough
  | succ fuel ih =>
      rw [visit_succ]
      by_cases active : v ∈ marks.active
      · rw [if_pos active]; rfl
      rw [if_neg active]
      by_cases visited : v ∈ marks.visited
      · rw [if_pos visited]; rfl
      rw [if_neg visited]
      cases ok : targets v with
      | error e => rfl
      | ok ws =>
          -- the node is one of those that were not active, and is active below
          have fewer : (nodes \ insert v marks.active).card < (nodes \ marks.active).card := by
            refine Finset.card_lt_card (Finset.ssubset_iff_of_subset ?_ |>.mpr ⟨v, ?_, ?_⟩)
            · exact Finset.sdiff_subset_sdiff (Finset.Subset.refl _) (Finset.subset_insert v _)
            · exact Finset.mem_sdiff.mpr ⟨within v ws ok, active⟩
            · simp
          have inner : (Run.forEach (visit targets cyclic fuel) ws (marks.enter v)).isSome :=
            forEach_returns (fun _ _ _ => visit_restores)
              (fun w marks₁ same => ih (same ▸ fewer.trans_le (Nat.le_of_lt_succ enough))) rfl
          obtain ⟨⟨outcome, marks₁⟩, ran⟩ := Option.isSome_iff_exists.mp inner
          cases outcome with
          | error e => simp only [Run.bind_error ran]; rfl
          | ok => simp only [Run.bind_ok ran]; rfl

/-! ### What success means -/

/-- The visited nodes that are not active are done: none fails, and their edges lead to nodes done before. -/
structure Done (targets : α → Except ε (List α)) (marks : Marks α) (done : List α) : Prop where
  seen : ∀ v, v ∈ marks.visited ↔ v ∈ marks.active ∨ v ∈ done
  settled : Settled (edges targets) [] done
  fine : ∀ v ∈ done, ∃ ws, targets v = .ok ws

variable {done : List α}

omit [DecidableEq α] in
theorem forEach_done
    (each : ∀ w marks marks' done, Done targets marks done → f w marks = some (.ok (), marks') →
      ∃ done', Done targets marks' done' ∧ (∀ u ∈ done, u ∈ done') ∧ w ∈ done')
    {marks : Marks α} (before : Done targets marks done) (ran : Run.forEach f ws marks = some (.ok (), marks')) :
    ∃ done', Done targets marks' done' ∧ (∀ u ∈ done, u ∈ done') ∧ ∀ w ∈ ws, w ∈ done' := by
  induction ws generalizing marks done with
  | nil =>
      obtain ⟨-, rfl⟩ := Prod.mk.inj (Option.some.inj ran)
      exact ⟨done, before, fun _ member => member, nofun⟩
  | cons w ws ih =>
      obtain ⟨⟨⟩, marks₁, first, rest⟩ := Run.bind_eq_ok.mp ran
      obtain ⟨done₁, after, more, here⟩ := each w marks marks₁ done before first
      obtain ⟨done', after', more', there⟩ := ih after rest
      refine ⟨done', after', fun u member => more' u (more u member), fun u member => ?_⟩
      rcases List.mem_cons.mp member with rfl | later
      · exact more' u here
      · exact there u later

/-- A search that succeeds is done with its node. -/
theorem visit_done {marks : Marks α}
    (before : Done targets marks done) (ran : visit targets cyclic fuel v marks = some (.ok (), marks')) :
    ∃ done', Done targets marks' done' ∧ (∀ u ∈ done, u ∈ done') ∧ v ∈ done' := by
  induction fuel generalizing v marks marks' done with
  | zero => cases ran
  | succ fuel ih =>
      obtain ⟨active, ⟨visited, rfl⟩ | ⟨ws, marks₁, ok, rfl, inner⟩⟩ := visit_ok ran
      · exact ⟨done, before, fun _ member => member, ((before.seen v).mp visited).resolve_left active⟩
      have entered : Done targets (marks.enter v) done := by
        refine ⟨fun u => ?_, before.settled, before.fine⟩
        rw [Marks.enter, Finset.mem_insert, Finset.mem_insert, before.seen u, or_assoc]
      obtain ⟨done₁, after, more, covered⟩ := forEach_done (fun _ _ _ _ => ih) entered inner
      have same : marks₁.active = insert v marks.active := forEach_restores (fun _ _ _ => visit_restores) inner
      refine ⟨v :: done₁, ⟨fun u => ?_, ⟨fun w member => ?_, after.settled⟩, fun u member => ?_⟩,
        fun u member => List.mem_cons_of_mem v (more u member), List.mem_cons_self⟩
      · rw [Marks.leave, after.seen u, same, Finset.erase_insert active, Finset.mem_insert, List.mem_cons]
        tauto
      · rw [edges, ok] at member
        exact .inl (covered w member)
      · rcases List.mem_cons.mp member with rfl | later
        · exact ⟨ws, ok⟩
        · exact after.fine u later

omit [DecidableEq α] in
/-- From a node that is done, no faulty node can be reached. -/
theorem Done.faultless {marks : Marks α} (all : Done targets marks done) {w : α}
    (member : v ∈ done) (path : ReflTransGen (Edge targets) v w) : ¬Faulty targets w := by
  rw [← edgeOutside_nil] at path
  have there : w ∈ done := (all.settled.closed (.inl member) path).resolve_right List.not_mem_nil
  rintro (⟨e, fails⟩ | cycle)
  · obtain ⟨ws, ok⟩ := all.fine w there
    rw [fails] at ok
    cases ok
  · rw [← edgeOutside_nil] at cycle
    exact all.settled.acyclic there cycle

/-! ### What failure means -/

/-- A faulty node can be reached, or one that is active. -/
def Trouble (targets : α → Except ε (List α)) (active : Finset α) (v : α) : Prop :=
  ∃ w, ReflTransGen (Edge targets) v w ∧ (w ∈ active ∨ Faulty targets w)

omit [DecidableEq α] in
theorem forEach_trouble {active : Finset α}
    (restores : ∀ w marks marks', f w marks = some (.ok (), marks') → Restored marks marks')
    (each : ∀ w marks marks' e, marks.active = active → f w marks = some (.error e, marks') →
      Trouble targets active w) {marks : Marks α} {e : ε} (started : marks.active = active)
    (ran : Run.forEach f ws marks = some (.error e, marks')) : ∃ w ∈ ws, Trouble targets active w := by
  induction ws generalizing marks with
  | nil => cases ran
  | cons w ws ih =>
      obtain ⟨e', marks₁, first, -⟩ | ⟨⟨⟩, marks₁, first, rest⟩ := Run.bind_eq_some.mp ran
      · exact ⟨w, List.mem_cons_self, each w marks marks₁ e' started first⟩
      · obtain ⟨w', member, trouble⟩ := ih ((restores w marks marks₁ first).trans started) rest
        exact ⟨w', List.mem_cons_of_mem w member, trouble⟩

/-- A search that fails has a reason. -/
theorem visit_trouble {marks : Marks α} {e : ε}
    (ran : visit targets cyclic fuel v marks = some (.error e, marks')) : Trouble targets marks.active v := by
  induction fuel generalizing v marks marks' e with
  | zero => cases ran
  | succ fuel ih =>
      rcases visit_error ran with active | fails | ⟨ws, ok, inner⟩
      · exact ⟨v, .refl, .inl active⟩
      · exact ⟨v, .refl, .inr (.inl ⟨e, fails⟩)⟩
      obtain ⟨w, member, u, path, reason⟩ :=
        forEach_trouble (fun _ _ _ => visit_restores) (fun _ _ _ _ same ran => same ▸ ih ran) rfl inner
      have step := edge_of_ok ok member
      rcases reason with back | fault
      · rcases Finset.mem_insert.mp back with rfl | before
        · -- the way leads back to the node itself
          exact ⟨u, .refl, .inr (.inr (.head' step path))⟩
        · exact ⟨u, .head step path, .inl before⟩
      · exact ⟨u, .head step path, .inr fault⟩

/-! ### The search is exact -/

/-- A search from a node returns, and succeeds exactly when no faulty node can be reached. -/
theorem search_exact {nodes : Finset α} (within : ∀ v ws, targets v = .ok ws → v ∈ nodes) (start : α)
    (enough : nodes.card < fuel) :
    ∃ outcome marks, visit targets cyclic fuel start ⟨∅, ∅⟩ = some (outcome, marks) ∧
      (outcome = .ok () ↔ ∀ v, ReflTransGen (Edge targets) start v → ¬Faulty targets v) := by
  have returns : (visit targets cyclic fuel start ⟨∅, ∅⟩).isSome :=
    visit_returns within (by rwa [Finset.sdiff_empty])
  obtain ⟨⟨outcome, marks⟩, ran⟩ := Option.isSome_iff_exists.mp returns
  refine ⟨outcome, marks, ran, ?_⟩
  cases outcome with
  | ok =>
      have empty : Done targets (⟨∅, ∅⟩ : Marks α) [] := ⟨by simp, trivial, nofun⟩
      obtain ⟨done, all, -, here⟩ := visit_done empty ran
      exact iff_of_true rfl fun v path => all.faultless here path
  | error e =>
      obtain ⟨w, path, reason⟩ := visit_trouble ran
      refine iff_of_false nofun fun fine => fine w path ?_
      exact reason.resolve_left (Finset.notMem_empty w)

end Mimi.Lib.ActiveSearch
