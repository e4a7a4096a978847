/-
Module: Mimi.Proofs.DominatorsExact
Purpose: The sets of dominators of a function whose targets exist: the sweeps end, and behind them a block is
  in the set of a block that can be reached exactly when every way from the entry passes it.
Trusted boundary: none
-/
import Mimi.Lib.Dominance
import Mimi.Mir.Dominance

namespace Mimi.Mir.MirFunction

open Mimi.Core Mimi.Lib

variable {function : MirFunction} {reachable : SortedSet MirBlockId}

/-- The targets of all blocks exist. -/
def TargetsExist (function : MirFunction) : Prop :=
  ∀ id target, function.Edge id target → (function.blocks.find? target).isSome

/-! ### The blocks that can be reached -/

theorem mem_pending_successors {id target : MirBlockId} : target ∈ function.pending_successors id ↔
    function.Edge id target ∧ (function.blocks.find? target).isSome := by
  rw [pending_successors, Edge]
  cases found : function.blocks.find? id with
  | none => simp
  | some block => simp [SortedMap.contains]

theorem reachable_blocks_returns (function : MirFunction) : ∃ bound, ∀ fuel, bound < fuel →
    ∃ reachable, function.reachable_blocks fuel = some reachable := by
  refine ⟨_, fun fuel enough => StackSearch.search_returns function.blocks.keys.toFinset
    (fun id some_ => ?_) enough⟩
  rw [List.mem_toFinset, SortedMap.mem_keys_iff]
  cases found : function.blocks.find? id with
  | none => simp [pending_successors, found] at some_
  | some block => rfl

theorem mem_reachable_blocks (exist : function.TargetsExist) {fuel : Nat}
    (found : function.reachable_blocks fuel = some reachable) (id : MirBlockId) :
    id ∈ reachable ↔ function.Reaches function.entry id := by
  have started : StackSearch.Searching function.pending_successors function.entry [function.entry] .empty :=
    ⟨.inr (List.mem_singleton_self _), fun v member => List.mem_singleton.mp member ▸ .refl,
      fun v member => absurd member (SortedSet.not_mem_empty v),
      fun v member => absurd member (SortedSet.not_mem_empty v)⟩
  have same : (fun v w => w ∈ function.pending_successors v) = function.Edge := by
    funext id target
    exact propext (mem_pending_successors.trans ⟨And.left, fun edge => ⟨edge, exist id target edge⟩⟩)
  rw [StackSearch.search_exact started found, same]
  rfl

/-! ### Predecessors -/

theorem find?_add_predecessor {id successor target : MirBlockId}
    {predecessors : SortedMap MirBlockId (SortedSet MirBlockId)} :
    (add_predecessor id predecessors successor).find? target =
      (predecessors.find? target).map fun preds => if target = successor then preds.insert id else preds := by
  rw [add_predecessor]
  cases known : predecessors.find? successor with
  | none =>
      by_cases same : target = successor
      · rw [same, known]
        rfl
      · simp [same]
  | some preds =>
      by_cases same : target = successor
      · simp [same, known]
      · simp [same]

theorem mem_foldl_add_predecessor {id target : MirBlockId} (successors : List MirBlockId)
    {predecessors : SortedMap MirBlockId (SortedSet MirBlockId)} {preds : SortedSet MirBlockId}
    (known : predecessors.find? target = some preds) :
    ∃ preds', (successors.foldl (add_predecessor id) predecessors).find? target = some preds' ∧
      ∀ p, p ∈ preds' ↔ p ∈ preds ∨ p = id ∧ target ∈ successors := by
  induction successors generalizing predecessors preds with
  | nil => exact ⟨preds, known, by simp⟩
  | cons successor successors ih =>
      have first : (add_predecessor id predecessors successor).find? target =
          some (if target = successor then preds.insert id else preds) := by
        rw [find?_add_predecessor, known]
        rfl
      obtain ⟨preds', last, members⟩ := ih first
      refine ⟨preds', last, fun p => ?_⟩
      rw [members p, List.mem_cons]
      split_ifs with same
      · rw [SortedSet.mem_insert]
        tauto
      · tauto

variable (function reachable) in
theorem mem_add_predecessors (id : MirBlockId) {target : MirBlockId} {predecessors : SortedMap MirBlockId (SortedSet MirBlockId)}
    {preds : SortedSet MirBlockId} (known : predecessors.find? target = some preds) :
    ∃ preds', (function.add_predecessors reachable predecessors id).find? target = some preds' ∧
      ∀ p, p ∈ preds' ↔ p ∈ preds ∨ p = id ∧ id ∈ reachable ∧ function.Edge id target := by
  rw [add_predecessors, Edge]
  cases found : function.blocks.find? id with
  | none => exact ⟨preds, known, by simp⟩
  | some block =>
      by_cases inside : id ∈ reachable
      · obtain ⟨preds', last, members⟩ := @mem_foldl_add_predecessor id _ block.terminator.successors _ _ known
        refine ⟨preds', by simpa [inside] using last, fun p => (members p).trans ?_⟩
        simp [inside]
      · exact ⟨preds, by simpa [inside] using known, by simp [inside]⟩

variable (function reachable) in
theorem mem_foldl_add_predecessors {target : MirBlockId} (keys : List MirBlockId)
    {predecessors : SortedMap MirBlockId (SortedSet MirBlockId)} {preds : SortedSet MirBlockId}
    (known : predecessors.find? target = some preds) :
    ∃ preds', (keys.foldl (function.add_predecessors reachable) predecessors).find? target = some preds' ∧
      ∀ p, p ∈ preds' ↔ p ∈ preds ∨ p ∈ keys ∧ p ∈ reachable ∧ function.Edge p target := by
  induction keys generalizing predecessors preds with
  | nil => exact ⟨preds, known, by simp⟩
  | cons key keys ih =>
      obtain ⟨preds₁, first, members⟩ := mem_add_predecessors function reachable key known
      obtain ⟨preds', last, members'⟩ := ih first
      refine ⟨preds', last, fun p => ?_⟩
      rw [members' p, members p, List.mem_cons]
      constructor
      · rintro ((old | ⟨rfl, here⟩) | ⟨later, here⟩)
        · exact .inl old
        · exact .inr ⟨.inl rfl, here⟩
        · exact .inr ⟨.inr later, here⟩
      · rintro (old | ⟨rfl | later, here⟩)
        · exact .inl (.inl old)
        · exact .inl (.inr ⟨rfl, here⟩)
        · exact .inr ⟨later, here⟩

variable (function) in
/-- The predecessors of a block that can be reached. -/
theorem mem_predecessors {target : MirBlockId} (inside : target ∈ reachable) :
    ∃ preds, (function.predecessors reachable).find? target = some preds ∧
      ∀ p, p ∈ preds ↔ p ∈ reachable ∧ function.Edge p target := by
  have empty : (reachable.elems.foldl (fun map block => map.insert block SortedSet.empty)
      (SortedMap.empty : SortedMap MirBlockId (SortedSet MirBlockId))).find? target = some .empty := by
    rw [SortedMap.find?_foldl_insert fun _ => SortedSet.empty, if_pos (SortedSet.mem_def.mp inside)]
  obtain ⟨preds, last, members⟩ := mem_foldl_add_predecessors function reachable
    function.blocks.keys empty
  refine ⟨preds, last, fun p => (members p).trans ?_⟩
  constructor
  · rintro (none_ | ⟨-, here⟩)
    · exact absurd none_ (SortedSet.not_mem_empty p)
    · exact here
  · rintro ⟨inside, edge⟩
    have ⟨block, found, _⟩ := edge
    exact .inr ⟨SortedMap.mem_keys_iff.mpr (by rw [found]; rfl), inside, edge⟩

/-! ### One update -/

theorem mem_next_dominators {dominators : SortedMap MirBlockId (SortedSet MirBlockId)}
    {preds : SortedSet MirBlockId} {block d : MirBlockId} :
    d ∈ next_dominators reachable dominators preds block ↔
      d = block ∨ d ∈ reachable ∧ ∀ p ∈ preds, ∀ s, dominators.find? p = some s → d ∈ s := by
  rw [next_dominators, SortedSet.mem_insert]
  refine or_congr_right ?_
  obtain ⟨preds⟩ := preds
  show _ ↔ _ ∧ ∀ p ∈ preds, _
  induction preds generalizing reachable with
  | nil => simp
  | cons p preds ih =>
      rw [List.foldl_cons, ih]
      cases known : dominators.find? p with
      | none => simp [known]
      | some s =>
          simp [known]
          tauto

theorem sorted_next_dominators (sorted : reachable.Sorted)
    (dominators : SortedMap MirBlockId (SortedSet MirBlockId)) (preds : SortedSet MirBlockId) (block : MirBlockId) :
    (next_dominators reachable dominators preds block).Sorted := by
  refine SortedSet.Sorted.insert ?_ block
  obtain ⟨preds⟩ := preds
  induction preds generalizing reachable with
  | nil => exact sorted
  | cons p preds ih =>
      rw [List.foldl_cons]
      cases dominators.find? p with
      | none => exact ih sorted
      | some s => exact ih (sorted.filter _)

/-! ### The sweeps -/

/-- What holds between updates: the sets hold all dominators, and only get smaller. -/
structure Falling (function : MirFunction) (reachable : SortedSet MirBlockId)
    (dominators : SortedMap MirBlockId (SortedSet MirBlockId)) : Prop where
  keyed : ∀ block ∈ reachable, (dominators.find? block).isSome
  sorted : ∀ block s, dominators.find? block = some s → s.Sorted
  entry : dominators.find? function.entry = some ⟨[function.entry]⟩
  holds : ∀ block ∈ reachable, ∀ s, dominators.find? block = some s →
    ∀ d, Dominates function.Edge function.entry d block → d ∈ s
  falls : ∀ block ∈ reachable, block ≠ function.entry → ∀ s preds, dominators.find? block = some s →
    (function.predecessors reachable).find? block = some preds →
    ∀ d ∈ next_dominators reachable dominators preds block, d ∈ s

theorem find?_initial_dominators {block : MirBlockId} (inside : block ∈ reachable) :
    (function.initial_dominators reachable).find? block =
      some (if block = function.entry then ⟨[block]⟩ else reachable) := by
  rw [initial_dominators, SortedMap.find?_foldl_insert fun block => if block = function.entry then ⟨[block]⟩ else reachable,
    if_pos (SortedSet.mem_def.mp inside)]

/-- The blocks that can be reached, as the search has found them. -/
structure Found (function : MirFunction) (reachable : SortedSet MirBlockId) : Prop where
  sorted : reachable.Sorted
  exact_ : ∀ id, id ∈ reachable ↔ function.Reaches function.entry id

theorem found_of_search (exist : function.TargetsExist) {fuel : Nat}
    (searched : function.reachable_blocks fuel = some reachable) : function.Found reachable :=
  ⟨StackSearch.search_sorted SortedSet.sorted_empty searched, mem_reachable_blocks exist searched⟩

theorem Found.entry_mem (found : function.Found reachable) : function.entry ∈ reachable := (found.exact_ _).mpr .refl

theorem Found.falling_initial (found : function.Found reachable) :
    function.Falling reachable (function.initial_dominators reachable) where
  keyed block inside := by
    rw [find?_initial_dominators inside]
    rfl
  sorted block s known := by
    rw [initial_dominators,
      SortedMap.find?_foldl_insert fun block => if block = function.entry then ⟨[block]⟩ else reachable] at known
    split_ifs at known
    · exact Option.some.inj known ▸ List.pairwise_singleton _ _
    · exact Option.some.inj known ▸ found.sorted
    · cases known
  entry := by
    rw [find?_initial_dominators found.entry_mem, if_pos rfl]
  holds block inside s known d dominates := by
    rw [find?_initial_dominators inside] at known
    split_ifs at known with same
    · subst same
      obtain rfl := Option.some.inj known
      exact List.mem_singleton.mpr dominates.entry_eq
    · obtain ⟨path, way⟩ := exists_way ((found.exact_ block).mp inside)
      exact Option.some.inj known ▸ (found.exact_ d).mpr (way.reaches_of_mem (dominates path way))
  falls block inside other s preds known _ d member := by
    rw [find?_initial_dominators inside, if_neg other] at known
    obtain rfl := Option.some.inj known
    rcases mem_next_dominators.mp member with rfl | ⟨there, -⟩
    · exact inside
    · exact there

/-- What an update changes. -/
theorem update_dominators_eq_some {block : MirBlockId}
    {predecessors dominators dominators' : SortedMap MirBlockId (SortedSet MirBlockId)}
    (changed : update_dominators reachable predecessors block dominators = some dominators') :
    ∃ preds, predecessors.find? block = some preds ∧
      dominators.find? block ≠ some (next_dominators reachable dominators preds block) ∧
      dominators' = dominators.insert block (next_dominators reachable dominators preds block) := by
  rw [update_dominators] at changed
  cases known : predecessors.find? block with
  | none =>
      rw [known] at changed
      cases changed
  | some preds =>
      simp only [known] at changed
      split_ifs at changed with _ differs
      exact ⟨preds, rfl, differs, (Option.some.inj changed).symm⟩

theorem Falling.update (found : function.Found reachable) {block : MirBlockId} (inside : block ∈ reachable)
    (other : block ≠ function.entry) {dominators dominators' : SortedMap MirBlockId (SortedSet MirBlockId)}
    (falling : function.Falling reachable dominators)
    (changed : update_dominators reachable (function.predecessors reachable) block dominators = some dominators') :
    function.Falling reachable dominators' := by
  obtain ⟨preds, known, -, rfl⟩ := update_dominators_eq_some changed
  obtain ⟨old, before⟩ := Option.isSome_iff_exists.mp (falling.keyed block inside)
  generalize next_eq : next_dominators reachable dominators preds block = next
  have smaller : ∀ d ∈ next, d ∈ old := fun d member =>
    falling.falls block inside other old preds before known d (next_eq ▸ member)
  -- with smaller sets, fewer blocks dominate all predecessors
  have fewer (block' : MirBlockId) (preds' : SortedSet MirBlockId) (d : MirBlockId)
      (member : d ∈ next_dominators reachable (dominators.insert block next) preds' block') :
      d ∈ next_dominators reachable dominators preds' block' := by
    refine mem_next_dominators.mpr ((mem_next_dominators.mp member).imp_right fun ⟨there, all⟩ => ⟨there, ?_⟩)
    intro p among s found_s
    by_cases same : p = block
    · subst same
      obtain rfl := Option.some.inj (before.symm.trans found_s)
      exact smaller d (all p among next (by rw [SortedMap.find?_insert, if_pos rfl]))
    · exact all p among s (by rw [SortedMap.find?_insert, if_neg same, found_s])
  refine ⟨fun block' there => ?_, fun block' s is => ?_, ?_, fun block' there s is d dominates => ?_,
    fun block' there other' s preds' is known' d member => ?_⟩
  · rw [SortedMap.find?_insert]
    split_ifs
    · rfl
    · exact falling.keyed block' there
  · rw [SortedMap.find?_insert] at is
    split_ifs at is
    · exact Option.some.inj is ▸ next_eq ▸ sorted_next_dominators found.sorted dominators preds block
    · exact falling.sorted block' s is
  · rw [SortedMap.find?_insert, if_neg (Ne.symm other)]
    exact falling.entry
  · rw [SortedMap.find?_insert] at is
    split_ifs at is with same
    · subst same
      obtain rfl := Option.some.inj is
      rw [← next_eq, mem_next_dominators]
      by_cases self_ : d = block'
      · exact .inl self_
      obtain ⟨path, way⟩ := exists_way ((found.exact_ block').mp there)
      refine .inr ⟨(found.exact_ d).mpr (way.reaches_of_mem (dominates path way)), fun p member t is_t => ?_⟩
      obtain ⟨preds₁, known₁, members⟩ := mem_predecessors function inside
      obtain rfl := Option.some.inj (known.symm.trans known₁)
      obtain ⟨inside_p, edge⟩ := (members p).mp member
      exact falling.holds p inside_p t is_t d (dominates.before self_ edge)
    · exact falling.holds block' there s is d dominates
  · rw [SortedMap.find?_insert] at is
    have member' := fewer block' preds' d member
    split_ifs at is with same
    · subst same
      obtain rfl := Option.some.inj is
      obtain rfl := Option.some.inj (known.symm.trans known')
      exact next_eq ▸ member'
    · exact falling.falls block' there other' s preds' is known' d member'

/-- The sizes of all sets together. -/
def size (reachable : SortedSet MirBlockId) (dominators : SortedMap MirBlockId (SortedSet MirBlockId)) : Nat :=
  (reachable.elems.map fun block => ((dominators.find? block).map fun s => s.elems.length).getD 0).sum

theorem Falling.size_lt (found : function.Found reachable) {block : MirBlockId} (inside : block ∈ reachable)
    (other : block ≠ function.entry) {dominators dominators' : SortedMap MirBlockId (SortedSet MirBlockId)}
    (falling : function.Falling reachable dominators)
    (changed : update_dominators reachable (function.predecessors reachable) block dominators = some dominators') :
    size reachable dominators' < size reachable dominators := by
  obtain ⟨preds, known, differs, rfl⟩ := update_dominators_eq_some changed
  obtain ⟨old, before⟩ := Option.isSome_iff_exists.mp (falling.keyed block inside)
  have fewer : (next_dominators reachable dominators preds block).elems.length < old.elems.length := by
    refine (sorted_next_dominators found.sorted dominators preds block).length_lt
      (falling.sorted block old before) (falling.falls block inside other old preds before known) ?_
    exact fun same => differs (before.trans (congrArg some same.symm))
  have here : ((dominators.insert block (next_dominators reachable dominators preds block)).find? block) =
      some (next_dominators reachable dominators preds block) := by
    rw [SortedMap.find?_insert, if_pos rfl]
  refine List.sum_lt_sum _ _ (fun b _ => ?_) ⟨block, inside, ?_⟩
  · by_cases same : b = block
    · subst same
      rw [here, before]
      exact fewer.le
    · rw [SortedMap.find?_insert, if_neg same]
  · rw [here, before]
    exact fewer

/-- Where an update changes nothing, a block with a predecessor has the set of the rule. -/
theorem settled_eq {block p : MirBlockId} {predecessors dominators : SortedMap MirBlockId (SortedSet MirBlockId)}
    {preds : SortedSet MirBlockId} (settled : update_dominators reachable predecessors block dominators = none)
    (known : predecessors.find? block = some preds) (member : p ∈ preds) :
    dominators.find? block = some (next_dominators reachable dominators preds block) := by
  have some_ : preds.elems ≠ [] := List.ne_nil_of_mem member
  simp only [update_dominators, known, if_neg some_] at settled
  split_ifs at settled with differs
  exact not_not.mp differs

/-! ### The sets of dominators -/

/-- With enough fuel the blocks that can be reached and their sets of dominators are found, and a block is in the
set of another exactly when every way from the entry passes it. -/
theorem dominators_exact (function : MirFunction) (exist : function.TargetsExist) : ∃ bound, ∀ fuel, bound ≤ fuel →
    ∃ reachable dominators, function.reachable_blocks fuel = some reachable ∧
      function.dominators fuel reachable = some dominators ∧
      (∀ b, b ∈ reachable ↔ function.Reaches function.entry b) ∧
      ∀ b, function.Reaches function.entry b → ∃ set, dominators.find? b = some set ∧
        ∀ d, d ∈ set ↔ Dominates function.Edge function.entry d b := by
  obtain ⟨bound, returns⟩ := reachable_blocks_returns function
  obtain ⟨reachable, searched⟩ := returns (bound + 1) (Nat.lt_succ_self bound)
  have found := found_of_search exist searched
  refine ⟨max (bound + 1) (size reachable (function.initial_dominators reachable) + 1), fun fuel enough => ?_⟩
  obtain ⟨reachable', searched'⟩ := returns fuel ((le_max_left ..).trans enough)
  have found' := found_of_search exist searched'
  obtain rfl : reachable = reachable' :=
    found.sorted.ext found'.sorted fun id => (found.exact_ id).trans (found'.exact_ id).symm
  have among {block : MirBlockId} (member : block ∈ reachable.elems.filter (· ≠ function.entry)) :
      block ∈ reachable ∧ block ≠ function.entry := by simpa [SortedSet.mem_def] using List.mem_filter.mp member
  have keeps : ∀ block ∈ reachable.elems.filter (· ≠ function.entry), ∀ dominators dominators',
      function.Falling reachable dominators →
      update_dominators reachable (function.predecessors reachable) block dominators = some dominators' →
      function.Falling reachable dominators' :=
    fun block member _ _ falling => falling.update found (among member).1 (among member).2
  obtain ⟨dominators, ended⟩ := sweeps_end (size reachable) keeps
    (fun block member _ _ falling => falling.size_lt found (among member).1 (among member).2)
    found.falling_initial ((le_max_right ..).trans enough)
  have falling := sweeps_invariant keeps found.falling_initial ended
  refine ⟨reachable, dominators, searched', ended, found.exact_, fun b reached => ?_⟩
  have inside := (found.exact_ b).mpr reached
  obtain ⟨set, known⟩ := Option.isSome_iff_exists.mp (falling.keyed b inside)
  refine ⟨set, known, fun d => ⟨fun member => ?_, falling.holds b inside set known d⟩⟩
  -- what no sweep changes satisfies the rule of dominance
  refine dominates_of_local (fun b d => ∃ s, dominators.find? b = some s ∧ d ∈ s) ?_ ?_ ⟨set, known, member⟩
  · rintro d ⟨s, is, member⟩
    obtain rfl := Option.some.inj (falling.entry.symm.trans is)
    exact List.mem_singleton.mp member
  · rintro p c d reached edge other ⟨s, is, member⟩
    have inside_c : c ∈ reachable := (found.exact_ c).mpr (reached.tail edge)
    have settled := sweeps_settled ended c (List.mem_filter.mpr ⟨inside_c, by simpa using other⟩)
    obtain ⟨preds, known, members⟩ := mem_predecessors function inside_c
    obtain rfl := Option.some.inj (is.symm.trans (settled_eq settled known ((members p).mpr
      ⟨(found.exact_ p).mpr reached, edge⟩)))
    refine (mem_next_dominators.mp member).imp_right fun ⟨_, all⟩ => ?_
    obtain ⟨t, is_t⟩ := Option.isSome_iff_exists.mp (falling.keyed p ((found.exact_ p).mpr reached))
    exact ⟨t, is_t, all p ((members p).mpr ⟨(found.exact_ p).mpr reached, edge⟩) t is_t⟩

/-- A loop: the entry branches to the body, which jumps back, and to the end. -/
def loop : MirFunction :=
  let head : MirBlockId := ⟨"block:head", rfl⟩
  let body : MirBlockId := ⟨"block:body", rfl⟩
  let exit : MirBlockId := ⟨"block:exit", rfl⟩
  let condition : MirValueId := ⟨"value:more", rfl⟩
  { owner := ⟨"function:loop"⟩
    parameters := [condition]
    parameterPermissions := none
    result := ⟨"unit"⟩
    entry := head
    values := ⟨[(condition, ⟨condition, ⟨"bool"⟩⟩)]⟩
    blocks := ⟨[(body, ⟨body, [], [], .goto ⟨"edge:back", rfl⟩ head []⟩), (exit, ⟨exit, [], [], .return_ none⟩),
      (head, ⟨head, [], [], .branch condition ⟨"edge:in", rfl⟩ body [] ⟨"edge:out", rfl⟩ exit []⟩)]⟩
    contracts := []
    ownership := ⟨[], .empty, []⟩ }

theorem targetsExist_loop : loop.TargetsExist := by
  rintro id target ⟨block, found, member⟩
  have all : ∀ entry ∈ loop.blocks.entries, ∀ target ∈ entry.2.terminator.successors,
      (loop.blocks.find? target).isSome := by decide
  exact all (id, block) (SortedMap.mem_of_find? found) target member

theorem dominators_exact_loop : loop.TargetsExist ∧ ∃ bound, ∀ fuel, bound ≤ fuel →
    ∃ reachable dominators, loop.reachable_blocks fuel = some reachable ∧
      loop.dominators fuel reachable = some dominators ∧
      (∀ b, b ∈ reachable ↔ loop.Reaches loop.entry b) ∧
      ∀ b, loop.Reaches loop.entry b → ∃ set, dominators.find? b = some set ∧
        ∀ d, d ∈ set ↔ Dominates loop.Edge loop.entry d b :=
  ⟨targetsExist_loop, dominators_exact loop targetsExist_loop⟩

end Mimi.Mir.MirFunction
