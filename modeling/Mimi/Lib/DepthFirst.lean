/-
Module: Mimi.Lib.DepthFirst
Purpose: Depth-first search with an explicit stack.  An entry of the stack holds a node with the chain of
  nodes that led to it, and the search fails when a node has an edge into its own chain.  It fails exactly
  when a cycle can be reached, and otherwise visits what can be reached.  Some nodes may have been visited
  before: the search does not look behind them.
Trusted boundary: none
-/
import Mathlib

namespace Mimi.Lib

open Relation (ReflTransGen TransGen)

/-! ### Reachability -/

variable {α : Type} (edges : α → List α) (before : List α)

/-- An edge whose source had not been visited before the search. -/
def EdgeOutside (v w : α) : Prop := w ∈ edges v ∧ v ∉ before

/-- Every node has its edges into nodes behind it in the list, or into nodes visited before. -/
def Settled : List α → Prop
  | [] => True
  | v :: l => (∀ w ∈ edges v, w ∈ l ∨ w ∈ before) ∧ Settled l

/-- A cycle that can be reached from a node. -/
def CycleFrom (start : α) : Prop :=
  ∃ v, ReflTransGen (EdgeOutside edges before) start v ∧ TransGen (EdgeOutside edges before) v v

variable {edges before}

/-- Nothing outside can be reached from settled nodes. -/
theorem Settled.closed {l : List α} (settled : Settled edges before l) {v w : α}
    (inside : v ∈ l ∨ v ∈ before) (path : ReflTransGen (EdgeOutside edges before) v w) :
    w ∈ l ∨ w ∈ before := by
  induction path with
  | refl => exact inside
  | tail _ edge ih =>
      rcases ih with there | there
      · clear inside
        induction l with
        | nil => cases there
        | cons x l step =>
            rcases List.mem_cons.mp there with rfl | later
            · rcases settled.1 _ edge.1 with next | next
              · exact .inl (List.mem_cons_of_mem _ next)
              · exact .inr next
            · rcases step settled.2 later with next | next
              · exact .inl (List.mem_cons_of_mem _ next)
              · exact .inr next
      · exact absurd there edge.2

/-- No settled node is on a cycle. -/
theorem Settled.acyclic {l : List α} (settled : Settled edges before l) {v : α} (member : v ∈ l) :
    ¬TransGen (EdgeOutside edges before) v v := by
  induction l generalizing v with
  | nil => cases member
  | cons x l ih =>
      intro cycle
      -- from `x` the way leads behind it, and does not come back unless `x` is there as well
      have behind : v ∈ l := by
        rcases List.mem_cons.mp member with rfl | behind
        · obtain ⟨w, edge, back⟩ := TransGen.head'_iff.mp cycle
          rcases settled.2.closed (settled.1 w edge.1) back with there | there
          · exact there
          · exact absurd there edge.2
        · exact behind
      exact ih settled.2 behind cycle

/-- From settled nodes no cycle can be reached. -/
theorem Settled.no_cycle {l : List α} (settled : Settled edges before l) {v : α}
    (inside : v ∈ l ∨ v ∈ before) : ¬CycleFrom edges before v := by
  rintro ⟨w, path, cycle⟩
  rcases settled.closed inside path with there | there
  · exact settled.acyclic there cycle
  · obtain ⟨_, edge, -⟩ := TransGen.head'_iff.mp cycle
    exact edge.2 there

/-! ### The search -/

variable [DecidableEq α] (edges)

/-- Push the targets that have not been visited, each with its chain; the last one comes on top. -/
def expand (visited chain : List α) : List α → List (α × List α) → Except α (List (α × List α))
  | [], stack => .ok stack
  | w :: ws, stack =>
      if w ∈ chain then .error w
      else expand visited chain ws
        (if w ∈ visited then stack else (w, chain ++ [w]) :: stack)

/-- The search; an error is the target of an edge into its own chain. -/
def explore : Nat → List (α × List α) → List α → Option (Except α (List α))
  | 0, _, _ => none
  | _ + 1, [], visited => some (.ok visited)
  | fuel + 1, (v, chain) :: stack, visited =>
      if v ∈ visited then explore fuel stack visited
      else
        match expand visited chain (edges v) stack with
        | .error w => some (.error w)
        | .ok stack => explore fuel stack (v :: visited)

variable {edges}

variable {stack : List (α × List α)}

/-- What a node pushes goes on top of the stack. -/
theorem expand_ok {visited chain ws : List α} {stack' : List (α × List α)}
    (h : expand visited chain ws stack = .ok stack') :
    (∀ w ∈ ws, w ∉ chain) ∧ ∃ pushed, stack' = pushed ++ stack ∧
      (∀ entry ∈ pushed, entry.1 ∈ ws ∧ entry.2 = chain ++ [entry.1]) ∧
      ∀ w ∈ ws, w ∈ visited ∨ ∃ entry ∈ pushed, entry.1 = w := by
  induction ws generalizing stack with
  | nil =>
      obtain rfl := Except.ok.inj h
      exact ⟨nofun, [], rfl, nofun, nofun⟩
  | cons w ws ih =>
      rw [expand] at h
      by_cases back : w ∈ chain
      · rw [if_pos back] at h
        cases h
      rw [if_neg back] at h
      obtain ⟨forward, pushed, rfl, shape, covered⟩ := ih h
      refine ⟨fun w' member => ?_, ?_⟩
      · rcases List.mem_cons.mp member with rfl | later
        · exact back
        · exact forward w' later
      · by_cases seen : w ∈ visited
        · refine ⟨pushed, by rw [if_pos seen], fun entry member => ?_, fun w' member => ?_⟩
          · exact ⟨List.mem_cons_of_mem _ (shape entry member).1, (shape entry member).2⟩
          · rcases List.mem_cons.mp member with rfl | later
            · exact .inl seen
            · exact covered w' later
        · refine ⟨pushed ++ [(w, chain ++ [w])], ?_, fun entry member => ?_, fun w' member => ?_⟩
          · rw [if_neg seen, List.append_assoc, List.singleton_append]
          · rcases List.mem_append.mp member with old | new
            · exact ⟨List.mem_cons_of_mem _ (shape entry old).1, (shape entry old).2⟩
            · rw [List.mem_singleton.mp new]
              exact ⟨List.mem_cons_self, rfl⟩
          · rcases List.mem_cons.mp member with rfl | later
            · exact .inr ⟨_, List.mem_append_right _ (List.mem_singleton_self _), rfl⟩
            · rcases covered w' later with seen' | ⟨entry, member', same⟩
              · exact .inl seen'
              · exact .inr ⟨entry, List.mem_append_left _ member', same⟩

theorem expand_error {visited chain ws : List α} {w : α}
    (h : expand visited chain ws stack = .error w) : w ∈ ws ∧ w ∈ chain := by
  induction ws generalizing stack with
  | nil => cases h
  | cons w' ws ih =>
      rw [expand] at h
      by_cases back : w' ∈ chain
      · rw [if_pos back] at h
        obtain rfl := Except.error.inj h
        exact ⟨List.mem_cons_self, back⟩
      · rw [if_neg back] at h
        exact ⟨List.mem_cons_of_mem _ (ih h).1, (ih h).2⟩

theorem expand_length {visited chain ws : List α} {stack' : List (α × List α)}
    (h : expand visited chain ws stack = .ok stack') :
    stack'.length ≤ stack.length + ws.length := by
  induction ws generalizing stack with
  | nil =>
      obtain rfl := Except.ok.inj h
      exact Nat.le_refl _
  | cons w ws ih =>
      rw [expand] at h
      split_ifs at h
      all_goals
        have bound := ih h
        simp only [List.length_cons] at bound ⊢
        omega

/-- Where a search that started at a node stands: the chain on top, and the nodes that are done. -/
structure Searching (edges : α → List α) (before : List α) (start : α) (chain : List α)
    (top : List (α × List α)) (visited done : List α) : Prop where
  seen : ∀ v, v ∈ visited ↔ v ∈ chain ∨ v ∈ done ∨ v ∈ before
  settled : Settled edges before done
  outside : ∀ v ∈ chain, v ∉ before
  started : ∀ v ∈ chain, ReflTransGen (EdgeOutside edges before) start v
  shape : ∀ entry ∈ top, entry.2 = chain ++ [entry.1]
  reached : ∀ entry ∈ top, ReflTransGen (EdgeOutside edges before) start entry.1
  below : ∀ v ∈ chain, ∀ entry ∈ top, TransGen (EdgeOutside edges before) v entry.1
  fresh : ∀ entry ∈ top, entry.1 ∉ chain

/-- What is done when the top of the stack has been worked off. -/
structure WorkedOff (edges : α → List α) (before : List α) (start : α) (chain : List α)
    (top : List (α × List α)) (done : List α) (visited' done' : List α) : Prop where
  seen : ∀ v, v ∈ visited' ↔ v ∈ chain ∨ v ∈ done' ∨ v ∈ before
  settled : Settled edges before done'
  more : ∀ v ∈ done, v ∈ done'
  covered : ∀ entry ∈ top, entry.1 ∈ done' ∨ entry.1 ∈ before
  found : ∀ v ∈ done', v ∈ done ∨ ReflTransGen (EdgeOutside edges before) start v

variable {fuel : Nat}

/-- The entries on top of the stack are worked off before those below, or the search fails on a cycle. -/
theorem explore_top {start : α} {chain : List α} {top rest : List (α × List α)}
    {visited done : List α} {result : Except α (List α)}
    (searching : Searching edges before start chain top visited done)
    (h : explore edges fuel (top ++ rest) visited = some result) :
    ((∃ w, result = .error w) ∧ CycleFrom edges before start) ∨
      ∃ fuel' ≤ fuel, ∃ visited' done', explore edges fuel' rest visited' = some result ∧
        WorkedOff edges before start chain top done visited' done' := by
  induction fuel using Nat.strong_induction_on generalizing chain top rest visited done with
  | _ fuel ih =>
      cases top with
      | nil =>
          exact .inr ⟨fuel, Nat.le_refl _, visited, done, h, searching.seen, searching.settled,
            fun _ member => member, nofun, fun _ member => .inl member⟩
      | cons entry top =>
          obtain ⟨v, chain'⟩ := entry
          obtain rfl : chain' = chain ++ [v] := searching.shape _ List.mem_cons_self
          have reached := searching.reached _ List.mem_cons_self
          have fresh := searching.fresh _ List.mem_cons_self
          -- what holds for the entries below the first one
          have later : ∀ {entry}, entry ∈ top → entry ∈ (v, chain ++ [v]) :: top :=
            fun member => List.mem_cons_of_mem _ member
          cases fuel with
          | zero => cases h
          | succ fuel =>
              rw [List.cons_append, explore] at h
              by_cases old : v ∈ visited
              · rw [if_pos old] at h
                have done_ : v ∈ done ∨ v ∈ before :=
                  ((searching.seen v).mp old).resolve_left fresh
                rcases ih fuel (Nat.lt_succ_self _) ⟨searching.seen, searching.settled,
                  searching.outside, searching.started, fun e m => searching.shape e (later m),
                  fun e m => searching.reached e (later m),
                  fun u on e m => searching.below u on e (later m),
                  fun e m => searching.fresh e (later m)⟩ h with cycle | ⟨fuel', le, visited', done', h', off⟩
                · exact .inl cycle
                · refine .inr ⟨fuel', le.trans (Nat.le_succ _), visited', done', h', off.seen,
                    off.settled, off.more, fun e member => ?_, off.found⟩
                  rcases List.mem_cons.mp member with rfl | member
                  · exact done_.imp_left (off.more v)
                  · exact off.covered e member
              · rw [if_neg old] at h
                have outside : v ∉ before := fun there => old ((searching.seen v).mpr (.inr (.inr there)))
                have toward : ∀ u ∈ chain ++ [v], ReflTransGen (EdgeOutside edges before) u v := by
                  intro u on
                  rcases List.mem_append.mp on with on | on
                  · exact (searching.below u on _ List.mem_cons_self).to_reflTransGen
                  · rw [List.mem_singleton.mp on]
                cases pushes : expand visited (chain ++ [v]) (edges v) (top ++ rest) with
                | error w =>
                    rw [pushes] at h
                    obtain rfl := Option.some.inj h
                    obtain ⟨edge, back⟩ := expand_error pushes
                    refine .inl ⟨⟨w, rfl⟩, v, reached, ?_⟩
                    exact .head' ⟨edge, outside⟩ (toward w back)
                | ok stack =>
                    rw [pushes] at h
                    obtain ⟨forward, pushed, rfl, shape, covered⟩ := expand_ok pushes
                    have step {e : α × List α} (member : e ∈ pushed) :
                        EdgeOutside edges before v e.1 := ⟨(shape e member).1, outside⟩
                    have inner : Searching edges before start (chain ++ [v]) pushed (v :: visited) done := {
                      seen := fun u => by
                        simp only [List.mem_cons, List.mem_append, searching.seen u,
                          List.not_mem_nil, or_false]
                        tauto
                      settled := searching.settled
                      outside := fun u on => by
                        rcases List.mem_append.mp on with on | on
                        · exact searching.outside u on
                        · rw [List.mem_singleton.mp on]
                          exact outside
                      started := fun u on => by
                        rcases List.mem_append.mp on with on | on
                        · exact searching.started u on
                        · rw [List.mem_singleton.mp on]
                          exact reached
                      shape := fun e member => (shape e member).2
                      reached := fun e member => reached.tail (step member)
                      below := fun u on e member =>
                        .tail' (toward u on) (step member)
                      fresh := fun e member => forward e.1 (shape e member).1 }
                    rcases ih fuel (Nat.lt_succ_self _) inner h with
                      cycle | ⟨fuel₁, le₁, visited₁, done₁, h₁, off₁⟩
                    · exact .inl cycle
                    · -- the subtree of `v` is done, and `v` with it
                      have settled₁ : Settled edges before (v :: done₁) := by
                        refine ⟨fun w edge => ?_, off₁.settled⟩
                        rcases covered w edge with seen | ⟨e, member, rfl⟩
                        · rcases (searching.seen w).mp seen with on | inside
                          · exact absurd (List.mem_append_left _ on) (forward w edge)
                          · exact inside.imp_left (off₁.more w)
                        · exact off₁.covered e member
                      have outer : Searching edges before start chain top visited₁ (v :: done₁) := {
                        seen := fun u => by
                          rw [off₁.seen u, List.mem_append, List.mem_singleton, List.mem_cons]
                          tauto
                        settled := settled₁
                        outside := searching.outside
                        started := searching.started
                        shape := fun e m => searching.shape e (later m)
                        reached := fun e m => searching.reached e (later m)
                        below := fun u on e m => searching.below u on e (later m)
                        fresh := fun e m => searching.fresh e (later m) }
                      rcases ih fuel₁ (Nat.lt_succ_of_le le₁) outer h₁ with
                        cycle | ⟨fuel₂, le₂, visited₂, done₂, h₂, off₂⟩
                      · exact .inl cycle
                      · refine .inr ⟨fuel₂, (le₂.trans le₁).trans (Nat.le_succ _), visited₂, done₂, h₂,
                          off₂.seen, off₂.settled,
                          fun u member => off₂.more u (List.mem_cons_of_mem _ (off₁.more u member)),
                          fun e member => ?_, fun u member => ?_⟩
                        · rcases List.mem_cons.mp member with rfl | member
                          · exact .inl (off₂.more v List.mem_cons_self)
                          · exact off₂.covered e member
                        · rcases off₂.found u member with old | new
                          · rcases List.mem_cons.mp old with rfl | old
                            · exact .inr reached
                            · exact off₁.found u old
                          · exact .inr new

/-- A search from one node, when the nodes visited so far are settled. -/
theorem explore_from {start : α} {visited done : List α}
    {result : Except α (List α)} (settled : Settled edges before done)
    (seen : ∀ v, v ∈ visited ↔ v ∈ done ∨ v ∈ before)
    (h : explore edges fuel [(start, [start])] visited = some result) :
    ((∃ w, result = .error w) ∧ CycleFrom edges before start) ∨
      ∃ visited' done', result = .ok visited' ∧
        WorkedOff edges before start [] [(start, [start])] done visited' done' := by
  have single {P : α × List α → Prop} (holds : P (start, [start])) :
      ∀ entry ∈ [(start, [start])], P entry :=
    fun entry member => List.mem_singleton.mp member ▸ holds
  have searching : Searching edges before start [] [(start, [start])] visited done := {
    seen := fun v => by rw [seen v, or_iff_right (List.not_mem_nil)]
    settled := settled
    outside := nofun
    started := nofun
    shape := single rfl
    reached := single .refl
    below := nofun
    fresh := single List.not_mem_nil }
  rw [← List.append_nil [(start, [start])]] at h
  rcases explore_top searching h with cycle | ⟨fuel', -, visited', done', ends, off⟩
  · exact .inl cycle
  · cases fuel' with
    | zero => cases ends
    | succ fuel' =>
        obtain rfl := Option.some.inj ends
        exact .inr ⟨visited', done', rfl, off⟩

/-! ### Termination -/

/-- The edges of the nodes that have not been visited. -/
def remaining (edges : α → List α) (all visited : List α) : Nat :=
  ((all.filter fun v => v ∉ visited).map fun v => (edges v).length).sum

theorem remaining_visit {all visited : List α} {v : α} (member : v ∈ all) (new : v ∉ visited) :
    remaining edges all (v :: visited) + (edges v).length ≤ remaining edges all visited := by
  have shrinks (l : List α) : remaining edges l (v :: visited) ≤ remaining edges l visited := by
    refine List.Sublist.sum_le_sum (List.Sublist.map _ ?_) fun _ _ => Nat.zero_le _
    refine List.monotone_filter_right l fun w keep => ?_
    simp only [List.mem_cons, not_or, decide_eq_true_eq] at keep ⊢
    exact keep.2
  induction all with
  | nil => cases member
  | cons w all ih =>
      by_cases same : w = v
      · subst same
        rw [remaining, remaining, List.filter_cons_of_neg (by simp),
          List.filter_cons_of_pos (by simpa using new), List.map_cons, List.sum_cons, Nat.add_comm]
        exact Nat.add_le_add_left (shrinks all) _
      · have ih' := ih ((List.mem_cons.mp member).resolve_left (Ne.symm same))
        by_cases old : w ∈ visited
        · rw [remaining, remaining, List.filter_cons_of_neg (by simp [old]),
            List.filter_cons_of_neg (by simp [old])]
          exact ih'
        · rw [remaining, remaining, List.filter_cons_of_pos (by simp [old, same]),
            List.filter_cons_of_pos (by simp [old]), List.map_cons, List.sum_cons, List.map_cons,
            List.sum_cons, Nat.add_assoc]
          exact Nat.add_le_add_left ih' _

/-- A search that succeeds has visited its whole stack. -/
theorem explore_visits {visited visited' : List α} (h : explore edges fuel stack visited = some (.ok visited')) :
    (∀ v ∈ visited, v ∈ visited') ∧ ∀ entry ∈ stack, entry.1 ∈ visited' := by
  induction fuel generalizing stack visited with
  | zero => cases h
  | succ fuel ih =>
      cases stack with
      | nil =>
          obtain rfl := Except.ok.inj (Option.some.inj h)
          exact ⟨fun _ member => member, nofun⟩
      | cons entry stack =>
          obtain ⟨v, chain⟩ := entry
          rw [explore] at h
          by_cases old : v ∈ visited
          · rw [if_pos old] at h
            obtain ⟨more, rest⟩ := ih h
            refine ⟨more, fun entry member => ?_⟩
            rcases List.mem_cons.mp member with rfl | later
            · exact more v old
            · exact rest entry later
          · rw [if_neg old] at h
            cases pushes : expand visited chain (edges v) stack with
            | error w =>
                rw [pushes] at h
                cases h
            | ok stack' =>
                rw [pushes] at h
                obtain ⟨-, pushed, rfl, -, -⟩ := expand_ok pushes
                obtain ⟨more, rest⟩ := ih h
                refine ⟨fun u member => more u (List.mem_cons_of_mem _ member), fun entry member => ?_⟩
                rcases List.mem_cons.mp member with rfl | later
                · exact more v List.mem_cons_self
                · exact rest entry (List.mem_append_right _ later)

/-- On a finite graph the search ends. -/
theorem explore_ends {all : List α} (closed : ∀ v ∈ all, ∀ w ∈ edges v, w ∈ all)
    {visited : List α} (inside : ∀ entry ∈ stack, entry.1 ∈ all)
    (enough : stack.length + remaining edges all visited < fuel) :
    ∃ result, explore edges fuel stack visited = some result := by
  induction fuel generalizing stack visited with
  | zero => exact absurd enough (Nat.not_lt_zero _)
  | succ fuel ih =>
      cases stack with
      | nil => exact ⟨_, rfl⟩
      | cons entry stack =>
          obtain ⟨v, chain⟩ := entry
          have here : v ∈ all := inside _ List.mem_cons_self
          have below : ∀ entry ∈ stack, entry.1 ∈ all :=
            fun entry member => inside entry (List.mem_cons_of_mem _ member)
          rw [List.length_cons] at enough
          rw [explore]
          by_cases old : v ∈ visited
          · rw [if_pos old]
            exact ih below (by omega)
          · rw [if_neg old]
            cases pushes : expand visited chain (edges v) stack with
            | error w => exact ⟨_, rfl⟩
            | ok stack' =>
                have length := expand_length pushes
                have less : remaining edges all (v :: visited) + (edges v).length ≤ remaining edges all visited :=
                  remaining_visit here old
                obtain ⟨-, pushed, rfl, shape, -⟩ := expand_ok pushes
                refine ih (fun entry member => ?_) (by omega)
                rcases List.mem_append.mp member with new | old
                · exact closed v here _ (shape entry new).1
                · exact below entry old

end Mimi.Lib
