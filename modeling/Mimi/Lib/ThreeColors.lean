/-
Module: Mimi.Lib.ThreeColors
Purpose: Depth-first search with a stack of nodes and counters of their edges.  The nodes of the path are gray, a
  node is black when all its edges have been followed, and an edge back to a gray node closes a cycle, which the
  search returns.  Started at every node with edges, it finds a cycle exactly when there is one.
Trusted boundary: none
-/
import Mimi.Lib.DepthFirst

namespace Mimi.Lib.ThreeColors

open Relation (TransGen)

/-- A node that has not been visited, one on the current path, and one that is done. -/
inductive Color where
  | white
  | gray
  | black
deriving DecidableEq, Repr

/-- The stack has the nodes of the path, the last one first, each with the number of its edges that were followed. -/
structure State (α : Type) where
  color : α → Color
  stack : List (α × Nat)
  path : List α

variable {α : Type} [DecidableEq α] (edges : α → List α)

/-- The loop of the search from one node.  An error is what the whole search returns at once. -/
def explore : Nat → State α → Option (Except (Option (List α)) (α → Color))
  | 0, _ => none
  | fuel + 1, s =>
      match s.stack with
      | [] => some (.ok s.color)
      | (node, idx) :: below =>
          match (edges node)[idx]? with
          | some next =>
              match s.color next with
              | .white =>
                  explore fuel
                    ⟨Function.update s.color next .gray, (next, 0) :: (node, idx + 1) :: below, s.path ++ [next]⟩
              | .gray =>
                  match s.path.findIdx? fun n => n = next with
                  | some pos => some (.error (some (s.path.drop pos ++ [next])))
                  | none => some (.error none)
              | .black => explore fuel ⟨s.color, (node, idx + 1) :: below, s.path⟩
          | none => explore fuel ⟨Function.update s.color node .black, below, s.path.dropLast⟩

/-- The search from each node that is white when its turn comes. -/
def search (fuel : Nat) : List α → (α → Color) → Option (Except (Option (List α)) (α → Color))
  | [], color => some (.ok color)
  | start :: starts, color =>
      if color start ≠ .white then search fuel starts color
      else do
        match ← explore edges fuel ⟨Function.update color start .gray, [(start, 0)], [start]⟩ with
        | .error found => some (.error found)
        | .ok color => search fuel starts color

/-- What the search returns: a cycle, or nothing. -/
def detect (fuel : Nat) (starts : List α) : Option (Option (List α)) := do
  match ← search edges fuel starts fun _ => .white with
  | .error found => some found
  | .ok _ => some none

/-- A path along edges that ends where it begins. -/
def IsCycle (edge : α → α → Prop) (path : List α) : Prop :=
  ∃ v rest, path = v :: (rest ++ [v]) ∧ path.IsChain edge

/-- An edge from a node to the next. -/
def Edge (v w : α) : Prop := w ∈ edges v

variable {edges}

omit [DecidableEq α] in
theorem edgeOutside_nil_eq : EdgeOutside edges [] = Edge edges := by
  funext v w
  simp [EdgeOutside, Edge]

omit [DecidableEq α] in
/-- A cycle leads from its first node back to it. -/
theorem IsCycle.transGen {edge : α → α → Prop} {path : List α} (cycle : IsCycle edge path) :
    ∃ v, TransGen edge v v := by
  obtain ⟨v, rest, rfl, chain⟩ := cycle
  have leads : ∀ (nodes : List α) (u : α), (u :: (nodes ++ [v])).IsChain edge → TransGen edge u v := by
    intro nodes
    induction nodes with
    | nil => exact fun u chain => .single (List.isChain_cons_cons.mp chain).1
    | cons w nodes ih =>
        intro u chain
        obtain ⟨edge, rest⟩ := List.isChain_cons_cons.mp chain
        exact .head edge (ih w rest)
  exact ⟨v, leads rest v chain⟩

/-! ### The invariant -/

/-- The entries of a stack under a node, or under none: the edges that were followed lead to black nodes, but for the
one to the node above. -/
def Explored (edges : α → List α) (color : α → Color) : Option α → List (α × Nat) → Prop
  | _, [] => True
  | above, (v, idx) :: below =>
      (∀ w, above = some w → w ∈ edges v) ∧
        (∀ w ∈ (edges v).take idx, color w = .black ∨ above = some w) ∧ Explored edges color (some v) below

/-- The black nodes can be put in an order in which every edge from them goes backwards. -/
def Done (edges : α → List α) (color : α → Color) : Prop :=
  ∃ done, (∀ v, color v = .black ↔ v ∈ done) ∧ Settled edges [] done

structure Searching (edges : α → List α) (s : State α) : Prop where
  gray : ∀ v, s.color v = .gray ↔ v ∈ s.path
  path : s.path = (s.stack.map Prod.fst).reverse
  once : s.path.Nodup
  explored : Explored edges s.color none s.stack
  done : Done edges s.color

/-- Between two searches no node is gray. -/
structure Rested (edges : α → List α) (color : α → Color) : Prop where
  noGray : ∀ v, color v ≠ .gray
  done : Done edges color

omit [DecidableEq α] in
theorem Explored.mono {color color' : α → Color} {above : Option α} {stack : List (α × Nat)}
    (explored : Explored edges color above stack) (keeps : ∀ v, color v = .black → color' v = .black) :
    Explored edges color' above stack := by
  induction stack generalizing above with
  | nil => trivial
  | cons entry below ih =>
      obtain ⟨edge, followed, rest⟩ := explored
      exact ⟨edge, fun w member => (followed w member).imp_left (keeps w), ih rest⟩

omit [DecidableEq α] in
/-- A node on top that is black is taken off. -/
theorem Explored.pop {color : α → Color} {v : α} {stack : List (α × Nat)}
    (explored : Explored edges color (some v) stack) (black : color v = .black) : Explored edges color none stack := by
  cases stack with
  | nil => trivial
  | cons entry below =>
      obtain ⟨-, followed, rest⟩ := explored
      refine ⟨nofun, fun w member => .inl ?_, rest⟩
      rcases followed w member with before | same
      · exact before
      · exact Option.some.inj same ▸ black

omit [DecidableEq α] in
/-- The nodes of a stack are a path. -/
theorem Explored.chain {color : α → Color} {above : Option α} {stack : List (α × Nat)}
    (explored : Explored edges color above stack) :
    ((stack.map Prod.fst).reverse ++ above.toList).IsChain (Edge edges) := by
  induction stack generalizing above with
  | nil => cases above <;> simp
  | cons entry below ih =>
      obtain ⟨edge, -, rest⟩ := explored
      have chain := ih rest
      rw [List.map_cons, List.reverse_cons]
      cases above with
      | none => simpa using chain
      | some w =>
          have last : Edge edges entry.1 w := edge w rfl
          simp only [Option.toList_some, List.append_assoc, List.cons_append, List.nil_append] at chain ⊢
          exact List.isChain_append_cons_cons.mpr ⟨chain, last, List.isChain_singleton _⟩

variable {s : State α} {v next : α} {idx : Nat} {below : List (α × Nat)}

omit [DecidableEq α] in
/-- Following an edge of the node on top. -/
theorem Explored.follow {color color' : α → Color} (explored : Explored edges color none ((v, idx) :: below))
    (edge : (edges v)[idx]? = some next) (keeps : ∀ w, color w = .black → color' w = .black) {above : Option α}
    (there : color' next = .black ∨ above = some next) (only : ∀ w, above = some w → w = next) :
    Explored edges color' above ((v, idx + 1) :: below) := by
  obtain ⟨-, followed, rest⟩ := explored
  refine ⟨fun w is => only w is ▸ List.mem_of_getElem? edge, fun w member => ?_, rest.mono keeps⟩
  rw [List.take_add_one, edge, Option.toList_some, List.mem_append, List.mem_singleton] at member
  rcases member with before | rfl
  · exact .inl (keeps w ((followed w before).resolve_right nofun))
  · exact there

theorem Searching.enter (now : Searching edges s) (top : s.stack = (v, idx) :: below)
    (edge : (edges v)[idx]? = some next) (white : s.color next = .white) :
    Searching edges
      ⟨Function.update s.color next .gray, (next, 0) :: (v, idx + 1) :: below, s.path ++ [next]⟩ := by
  have outside : next ∉ s.path := by
    intro inside
    have gray := (now.gray next).mpr inside
    rw [white] at gray
    cases gray
  have black : ∀ w, Function.update s.color next .gray w = .black ↔ s.color w = .black := by
    intro w
    by_cases same : w = next
    · simp [same, white]
    · simp [same]
  have explored := now.explored
  rw [top] at explored
  constructor
  · intro w
    by_cases same : w = next
    · simp [same]
    · simp [same, now.gray w]
  · rw [now.path, top]
    simp
  · exact List.nodup_append.mpr ⟨now.once, List.nodup_singleton _, fun a inside b is same =>
      outside (List.mem_singleton.mp is ▸ same ▸ inside)⟩
  · refine ⟨nofun, nofun, explored.follow edge (fun w => (black w).mpr) (.inr rfl) fun w is => (Option.some.inj is).symm⟩
  · obtain ⟨done, members, settled⟩ := now.done
    exact ⟨done, fun w => (black w).trans (members w), settled⟩

omit [DecidableEq α] in
theorem Searching.skip (now : Searching edges s) (top : s.stack = (v, idx) :: below)
    (edge : (edges v)[idx]? = some next) (black : s.color next = .black) :
    Searching edges ⟨s.color, (v, idx + 1) :: below, s.path⟩ := by
  have explored := now.explored
  rw [top] at explored
  refine ⟨now.gray, ?_, now.once, explored.follow edge (fun _ => id) (.inl black) nofun, now.done⟩
  rw [now.path, top]
  rfl

/-- All edges of the node on top have been followed. -/
theorem Searching.leave (now : Searching edges s) (top : s.stack = (v, idx) :: below)
    (all : (edges v)[idx]? = none) :
    Searching edges ⟨Function.update s.color v .black, below, s.path.dropLast⟩ := by
  have path : s.path = (below.map Prod.fst).reverse ++ [v] := by rw [now.path, top, List.map_cons, List.reverse_cons]
  have once := now.once
  rw [path] at once
  have apart : v ∉ (below.map Prod.fst).reverse := fun inside =>
    (List.nodup_append.mp once).2.2 v inside v (List.mem_singleton_self v) rfl
  obtain ⟨-, followed, rest⟩ : Explored edges s.color none ((v, idx) :: below) := top ▸ now.explored
  rw [List.take_of_length_le (List.getElem?_eq_none_iff.mp all)] at followed
  have keeps : ∀ w, s.color w = .black → Function.update s.color v .black w = .black := by
    intro w is
    by_cases same : w = v
    · simp [same]
    · simpa [same] using is
  rw [path, List.dropLast_concat]
  constructor
  · intro w
    by_cases same : w = v
    · simp only [same, Function.update_self, reduceCtorEq, false_iff]
      exact apart
    · simp [same, now.gray w, path]
  · rfl
  · exact (List.nodup_append.mp once).1
  · exact (rest.mono keeps).pop (Function.update_self ..)
  · obtain ⟨done, members, settled⟩ := now.done
    refine ⟨v :: done, fun w => ?_, fun w edge => .inl ((members w).mp ((followed w edge).resolve_right nofun)), settled⟩
    by_cases same : w = v
    · simp [same]
    · simp [same, members w]

/-- An edge back to the path closes a cycle. -/
theorem Searching.closes (now : Searching edges s) (top : s.stack = (v, idx) :: below)
    (edge : (edges v)[idx]? = some next) (gray : s.color next = .gray) :
    ∃ pos, s.path.findIdx? (fun n => n = next) = some pos ∧ IsCycle (Edge edges) (s.path.drop pos ++ [next]) := by
  have inside := (now.gray next).mp gray
  have found : (s.path.findIdx? fun n => n = next).isSome := by
    rw [List.findIdx?_isSome, List.any_eq_true]
    exact ⟨next, inside, decide_eq_true rfl⟩
  obtain ⟨pos, found⟩ := Option.isSome_iff_exists.mp found
  obtain ⟨within, is, -⟩ := List.findIdx?_eq_some_iff_getElem.mp found
  have is := of_decide_eq_true is
  obtain ⟨-, followed, rest⟩ : Explored edges s.color none ((v, idx) :: below) := top ▸ now.explored
  have along : Explored edges s.color (some next) s.stack := by
    rw [top]
    exact ⟨fun w same => Option.some.inj same ▸ List.mem_of_getElem? edge,
      fun w member => .inl ((followed w member).resolve_right nofun), rest⟩
  have chain : (s.path ++ [next]).IsChain (Edge edges) := now.path ▸ along.chain
  refine ⟨pos, found, next, s.path.drop (pos + 1), ?_, ?_⟩
  · rw [List.drop_eq_getElem_cons within, is, List.cons_append]
  · rw [← List.drop_append_of_le_length within.le]
    exact chain.drop pos

/-! ### What the search returns -/

theorem explore_result {fuel : Nat} {result : Except (Option (List α)) (α → Color)} (now : Searching edges s)
    (ended : explore edges fuel s = some result) :
    (∃ cycle, result = .error (some cycle) ∧ IsCycle (Edge edges) cycle) ∨
      ∃ color, result = .ok color ∧ Rested edges color ∧ ∀ v, s.color v ≠ .white → color v ≠ .white := by
  induction fuel generalizing s with
  | zero => cases ended
  | succ fuel ih =>
      rw [explore] at ended
      split at ended
      · rename_i top
        obtain rfl := Option.some.inj ended
        have noGray : ∀ v, s.color v ≠ .gray := fun v is => by
          have inside := (now.gray v).mp is
          rw [now.path, top] at inside
          cases inside
        exact .inr ⟨s.color, rfl, ⟨noGray, now.done⟩, fun _ => id⟩
      · rename_i node idx below top
        split at ended
        · rename_i next edge
          split at ended
          · rename_i white
            rcases ih (now.enter top edge white) ended with cycle | ⟨color, rfl, rested, visited⟩
            · exact .inl cycle
            · refine .inr ⟨color, rfl, rested, fun w other => visited w ?_⟩
              have differ : w ≠ next := fun same => other (same ▸ white)
              simpa [differ] using other
          · rename_i gray
            obtain ⟨pos, found, cycle⟩ := now.closes top edge gray
            rw [found] at ended
            exact .inl ⟨_, (Option.some.inj ended).symm, cycle⟩
          · rename_i black
            have skipped := ih (now.skip top edge black) ended
            exact skipped
        · rename_i all
          rcases ih (now.leave top all) ended with cycle | ⟨color, rfl, rested, visited⟩
          · exact .inl cycle
          · refine .inr ⟨color, rfl, rested, fun w other => visited w ?_⟩
            by_cases same : w = node
            · simp [same]
            · simpa [same] using other

/-- A search begins at a white node. -/
theorem Rested.start {color : α → Color} (rested : Rested edges color) {start : α} (white : color start = .white) :
    Searching edges ⟨Function.update color start .gray, [(start, 0)], [start]⟩ := by
  have black : ∀ w, Function.update color start .gray w = .black ↔ color w = .black := by
    intro w
    by_cases same : w = start
    · simp [same, white]
    · simp [same]
  obtain ⟨done, members, settled⟩ := rested.done
  refine ⟨fun w => ?_, rfl, List.nodup_singleton _, ⟨nofun, nofun, trivial⟩,
    ⟨done, fun w => (black w).trans (members w), settled⟩⟩
  by_cases same : w = start
  · simp [same]
  · simp [same, rested.noGray w]

theorem search_result {fuel : Nat} {starts : List α} {color : α → Color}
    {result : Except (Option (List α)) (α → Color)} (rested : Rested edges color)
    (ended : search edges fuel starts color = some result) :
    (∃ cycle, result = .error (some cycle) ∧ IsCycle (Edge edges) cycle) ∨
      ∃ color', result = .ok color' ∧ Rested edges color' ∧ (∀ v, color v ≠ .white → color' v ≠ .white) ∧
        ∀ v ∈ starts, color' v ≠ .white := by
  induction starts generalizing color with
  | nil =>
      obtain rfl := Option.some.inj ended
      exact .inr ⟨color, rfl, rested, fun _ => id, nofun⟩
  | cons start starts ih =>
      rw [search] at ended
      by_cases white : color start = .white
      · rw [if_neg (not_not.mpr white), Option.bind_eq_bind, Option.bind_eq_some_iff] at ended
        obtain ⟨first, explored, ended⟩ := ended
        rcases explore_result (rested.start white) explored with ⟨cycle, rfl, is⟩ | ⟨color₁, rfl, rested₁, visited₁⟩
        · exact .inl ⟨cycle, (Option.some.inj ended).symm, is⟩
        · have here : color₁ start ≠ .white := visited₁ start (by simp)
          have kept : ∀ v, color v ≠ .white → color₁ v ≠ .white := by
            refine fun v other => visited₁ v ?_
            have differ : v ≠ start := fun same => other (same ▸ white)
            simpa [differ] using other
          rcases ih rested₁ ended with cycle | ⟨color', rfl, rested', kept', all⟩
          · exact .inl cycle
          · refine .inr ⟨color', rfl, rested', fun v other => kept' v (kept v other), fun v member => ?_⟩
            rcases List.mem_cons.mp member with rfl | later
            · exact kept' v here
            · exact all v later
      · rw [if_pos white] at ended
        rcases ih rested ended with cycle | ⟨color', rfl, rested', kept', all⟩
        · exact .inl cycle
        · refine .inr ⟨color', rfl, rested', kept', fun v member => ?_⟩
          rcases List.mem_cons.mp member with rfl | later
          · exact kept' v white
          · exact all v later

/-- Started at every node with edges, the search finds nothing exactly when there is no cycle, and what it finds is
one. -/
theorem detect_exact {fuel : Nat} {starts : List α} {result : Option (List α)}
    (covered : ∀ v, edges v ≠ [] → v ∈ starts) (ended : detect edges fuel starts = some result) :
    (result = none ↔ ¬∃ v, TransGen (Edge edges) v v) ∧
      ∀ cycle, result = some cycle → IsCycle (Edge edges) cycle := by
  have rested : Rested edges fun _ : α => Color.white := ⟨nofun, [], by simp, trivial⟩
  rw [detect, Option.bind_eq_bind, Option.bind_eq_some_iff] at ended
  obtain ⟨found, searched, ended⟩ := ended
  rcases search_result rested searched with ⟨cycle, rfl, is⟩ | ⟨color, rfl, ⟨noGray, done, members, settled⟩, -, all⟩
  · obtain rfl := Option.some.inj ended
    refine ⟨iff_of_false nofun (not_not.mpr is.transGen), ?_⟩
    rintro _ ⟨⟩
    exact is
  · obtain rfl := Option.some.inj ended
    refine ⟨iff_of_true rfl ?_, nofun⟩
    rintro ⟨v, cycle⟩
    obtain ⟨w, edge, -⟩ := TransGen.head'_iff.mp cycle
    have visited := all v (covered v (List.ne_nil_of_mem edge))
    have black : color v = .black := by
      cases is : color v with
      | white => exact absurd is visited
      | gray => exact absurd is (noGray v)
      | black => rfl
    exact settled.acyclic ((members v).mp black) (edgeOutside_nil_eq ▸ cycle)

/-! ### Termination -/

variable {nodes : Finset α}

/-- The rounds that are left: one for each edge that was not followed, and one to leave each node. -/
def remaining (edges : α → List α) (nodes : Finset α) (color : α → Color) (stack : List (α × Nat)) : Nat :=
  (∑ v ∈ nodes.filter fun v => color v = .white, ((edges v).length + 1)) +
    (stack.map fun entry => (edges entry.1).length - entry.2 + 1).sum

/-- A white node that becomes gray moves from the nodes to the stack. -/
theorem remaining_enter {color : α → Color} {stack : List (α × Nat)} (member : next ∈ nodes)
    (white : color next = .white) :
    remaining edges nodes (Function.update color next .gray) ((next, 0) :: stack) = remaining edges nodes color stack := by
  have fewer : (nodes.filter fun v => Function.update color next .gray v = .white) =
      (nodes.filter fun v => color v = .white).erase next := by
    ext w
    by_cases same : w = next
    · simp [same]
    · simp [same]
  have there : next ∈ nodes.filter fun v => color v = .white := Finset.mem_filter.mpr ⟨member, white⟩
  have taken := Finset.add_sum_erase _ (fun v => (edges v).length + 1) there
  rw [remaining, remaining, fewer, ← taken, List.map_cons, List.sum_cons]
  dsimp only
  omega

theorem remaining_leave (color : α → Color) (stack : List (α × Nat)) :
    remaining edges nodes (Function.update color v .black) stack ≤ remaining edges nodes color stack := by
  refine Nat.add_le_add_right (Finset.sum_le_sum_of_subset fun w member => ?_) _
  obtain ⟨inside, white⟩ := Finset.mem_filter.mp member
  by_cases same : w = v
  · simp [same] at white
  · exact Finset.mem_filter.mpr ⟨inside, by simpa [same] using white⟩

theorem explore_returns (closed : ∀ v, ∀ w ∈ edges v, w ∈ nodes) {fuel : Nat}
    (enough : remaining edges nodes s.color s.stack < fuel) : ∃ result, explore edges fuel s = some result := by
  induction fuel generalizing s with
  | zero => cases enough
  | succ fuel ih =>
      rw [explore]
      split
      · exact ⟨_, rfl⟩
      · rename_i node idx below top
        rw [top, remaining, List.map_cons, List.sum_cons] at enough
        dsimp only at enough
        split
        · rename_i next edge
          have within : idx < (edges node).length := (List.getElem?_eq_some_iff.mp edge).1
          have stepped : remaining edges nodes s.color ((node, idx + 1) :: below) < fuel := by
            rw [remaining, List.map_cons, List.sum_cons]
            dsimp only
            omega
          split
          · rename_i white
            exact ih (by rw [remaining_enter (closed node next (List.mem_of_getElem? edge)) white]; exact stepped)
          · split
            · exact ⟨_, rfl⟩
            · exact ⟨_, rfl⟩
          · exact ih stepped
        · have less : remaining edges nodes s.color below < fuel := by
            rw [remaining]
            omega
          exact ih ((remaining_leave s.color below).trans_lt less)

theorem search_returns (closed : ∀ v, ∀ w ∈ edges v, w ∈ nodes) {starts : List α} (among : ∀ v ∈ starts, v ∈ nodes)
    {fuel : Nat} (enough : ∑ v ∈ nodes, ((edges v).length + 1) < fuel) (color : α → Color) :
    ∃ result, search edges fuel starts color = some result := by
  induction starts generalizing color with
  | nil => exact ⟨_, rfl⟩
  | cons start starts ih =>
      have later := ih fun v member => among v (List.mem_cons_of_mem start member)
      rw [search]
      by_cases white : color start = .white
      · have few : remaining edges nodes color [] < fuel := by
          rw [remaining, List.map_nil, List.sum_nil, Nat.add_zero]
          exact (Finset.sum_le_sum_of_subset (Finset.filter_subset _ _)).trans_lt enough
        obtain ⟨first, explored⟩ := @explore_returns _ _ edges ⟨Function.update color start .gray, [(start, 0)], [start]⟩
          nodes closed fuel (by rw [remaining_enter (among start List.mem_cons_self) white]; exact few)
        rw [if_neg (not_not.mpr white), explored]
        cases first with
        | error found => exact ⟨_, rfl⟩
        | ok color₁ => exact later color₁
      · rw [if_pos white]
        exact later color

theorem detect_returns (closed : ∀ v, ∀ w ∈ edges v, w ∈ nodes) {starts : List α} (among : ∀ v ∈ starts, v ∈ nodes)
    {fuel : Nat} (enough : ∑ v ∈ nodes, ((edges v).length + 1) < fuel) :
    ∃ result, detect edges fuel starts = some result := by
  obtain ⟨found, searched⟩ := search_returns closed among enough fun _ => Color.white
  rw [detect, searched]
  cases found with
  | error cycle => exact ⟨_, rfl⟩
  | ok color => exact ⟨_, rfl⟩

end Mimi.Lib.ThreeColors
