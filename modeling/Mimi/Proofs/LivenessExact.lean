/-
Module: Mimi.Proofs.LivenessExact
Purpose: The names live at the start of a block are those that some path from there uses before it defines
  them: the worklist ends, and its fixed point is exact.
Trusted boundary: none
-/
import Mimi.Lib.ChaoticIteration
import Mimi.Proofs.ResourceFlow

namespace Mimi.Cfg

open Mimi.Core Mimi.Lib

variable {cfg : CallableCfg}

/-! ### Paths -/

def pointsOf (cfg : CallableCfg) (block : BasicBlockId) : List CfgPoint :=
  ((cfg.block block).map BasicBlock.points).getD []

/-- The points of the blocks along a path. -/
def pathPoints (cfg : CallableCfg) (start : BasicBlockId) (edges : List CfgEdge) : List CfgPoint :=
  pointsOf cfg start ++ edges.flatMap fun edge => pointsOf cfg edge.to_

/-- A point uses the name, and none before it defines it. -/
def UsedBeforeDefined (name : String) (points : List CfgPoint) : Prop :=
  ∃ before point after, points = before ++ point :: after ∧ name ∈ point.uses ∧
    ∀ earlier ∈ before, name ∉ earlier.defs

/-- Some path from the start of a block uses the name before it defines it. -/
def LiveAt (cfg : CallableCfg) (block : BasicBlockId) (name : String) : Prop :=
  ∃ edges last, Path cfg block edges last ∧ UsedBeforeDefined name (pathPoints cfg block edges)

theorem Path.cons {edge : CfgEdge} (member : edge ∈ cfg.edges.values) {edges : List CfgEdge} {last : BasicBlockId}
    (path : Path cfg edge.to_ edges last) : Path cfg edge.from_ (edge :: edges) last := by
  induction path with
  | start => exact .step .start member
  | step _ member' ih => exact .step ih member'

theorem Path.eq_start {start last : BasicBlockId} (path : Path cfg start [] last) : last = start := by
  generalize listed : ([] : List CfgEdge) = edges at path
  cases path with
  | start => rfl
  | step path member => simp at listed

/-- The first edge of a path. -/
theorem Path.uncons {start last : BasicBlockId} {edge : CfgEdge} {edges : List CfgEdge}
    (path : Path cfg start (edge :: edges) last) :
    edge ∈ cfg.edges.values ∧ edge.from_ = start ∧ Path cfg edge.to_ edges last := by
  generalize listed : edge :: edges = all at path
  induction path generalizing edges with
  | start => cases listed
  | @step before final path member ih =>
      cases before with
      | nil =>
          obtain ⟨rfl, rfl⟩ := List.cons.inj listed
          exact ⟨member, path.eq_start, .start⟩
      | cons first before =>
          obtain ⟨rfl, rfl⟩ := List.cons.inj listed
          obtain ⟨inside, from_, rest⟩ := ih rfl
          exact ⟨inside, from_, .step rest member⟩

theorem usedBeforeDefined_append {name : String} {front back : List CfgPoint} :
    UsedBeforeDefined name (front ++ back) ↔
      UsedBeforeDefined name front ∨
        (∀ point ∈ front, name ∉ point.defs) ∧ UsedBeforeDefined name back := by
  constructor
  · rintro ⟨before, point, after, split, used, free⟩
    rcases List.append_eq_append_iff.mp split with ⟨middle, rfl, rfl⟩ | ⟨middle, rfl, rest⟩
    · refine .inr ⟨fun p member => free p (List.mem_append_left _ member), middle, point, after, rfl, used, ?_⟩
      exact fun p member => free p (List.mem_append_right _ member)
    · cases middle with
      | nil =>
          refine .inr ⟨fun p member => free p (by simpa using member), [], point, after, rest.symm, used, nofun⟩
      | cons p middle =>
          obtain ⟨rfl, -⟩ := List.cons.inj rest
          exact .inl ⟨before, point, middle, rfl, used, free⟩
  · rintro (⟨before, point, after, rfl, used, free⟩ | ⟨clean, before, point, after, rfl, used, free⟩)
    · exact ⟨before, point, after ++ back, by simp, used, free⟩
    · refine ⟨front ++ before, point, after, by simp, used, fun p member => ?_⟩
      exact (List.mem_append.mp member).elim (clean p) (free p)

/-! ### One block -/

theorem mem_livePoint {name : String} {point : CfgPoint} {after : SortedSet String} :
    name ∈ livePoint point after ↔ name ∈ point.uses ∨ name ∈ after ∧ name ∉ point.defs := by
  rw [livePoint, SortedSet.mem_insertAll, SortedSet.mem_filter, decide_eq_true_eq]
  exact or_comm

variable {out : SortedSet String}

theorem mem_foldr_livePoint {name : String} {points : List CfgPoint} :
    name ∈ points.foldr livePoint out ↔
      UsedBeforeDefined name points ∨ name ∈ out ∧ ∀ point ∈ points, name ∉ point.defs := by
  induction points with
  | nil => simp [UsedBeforeDefined]
  | cons point points ih =>
      have one : UsedBeforeDefined name [point] ↔ name ∈ point.uses := by
        constructor
        · rintro ⟨before, p, after, split, used, -⟩
          cases before with
          | nil => exact (List.cons.inj split).1 ▸ used
          | cons _ before => cases before <;> cases (List.cons.inj split).2
        · exact fun used => ⟨[], point, [], rfl, used, nofun⟩
      rw [List.foldr_cons, mem_livePoint, ih, ← List.singleton_append, usedBeforeDefined_append, one]
      simp only [List.mem_singleton, List.mem_append, forall_eq, or_imp, forall_and]
      tauto

theorem mem_liveTransfer {name : String} {block : BasicBlockId} :
    name ∈ liveTransfer cfg block out ↔
      UsedBeforeDefined name (pointsOf cfg block) ∨
        name ∈ out ∧ ∀ point ∈ pointsOf cfg block, name ∉ point.defs := by
  rw [liveTransfer, pointsOf]
  cases cfg.block block with
  | none => simp [UsedBeforeDefined]
  | some found => exact mem_foldr_livePoint

theorem mem_liveAlong {name : String} {live : Liveness} {edges : List CfgEdge} :
    name ∈ liveAlong live edges ↔ ∃ edge ∈ edges, ∃ sets, live edge.to_ = some sets ∧ name ∈ sets.liveIn := by
  rw [liveAlong]
  refine Iff.trans ?_ (or_iff_right (SortedSet.not_mem_empty name))
  generalize SortedSet.empty = out
  induction edges generalizing out with
  | nil => simp
  | cons edge edges ih =>
      rw [List.foldl_cons, ih]
      cases known : live edge.to_ with
      | none => simp [known]
      | some sets => simp [known, or_assoc]

/-- A name is live at a block that uses it, or at the end of an edge from a block that does not define it. -/
theorem liveAt_iff {block : BasicBlockId} {name : String} : LiveAt cfg block name ↔
    UsedBeforeDefined name (pointsOf cfg block) ∨
      (∃ edge ∈ cfg.successors block, LiveAt cfg edge.to_ name) ∧
        ∀ point ∈ pointsOf cfg block, name ∉ point.defs := by
  constructor
  · rintro ⟨edges, last, path, used⟩
    rw [pathPoints, usedBeforeDefined_append] at used
    rcases used with here | ⟨free, there⟩
    · exact .inl here
    · cases edges with
      | nil =>
          obtain ⟨before, point, after, split, -⟩ := there
          cases before <;> cases split
      | cons edge edges =>
          obtain ⟨member, from_, rest⟩ := path.uncons
          exact .inr ⟨⟨edge, mem_successors.mpr ⟨member, from_⟩, edges, last, rest, there⟩, free⟩
  · rintro (here | ⟨⟨edge, leaves, edges, last, path, used⟩, free⟩)
    · exact ⟨[], block, .start, usedBeforeDefined_append.mpr (.inl here)⟩
    · obtain ⟨member, rfl⟩ := mem_successors.mp leaves
      exact ⟨edge :: edges, last, path.cons member, usedBeforeDefined_append.mpr (.inr ⟨free, used⟩)⟩

/-! ### The worklist -/

/-- The names that are used anywhere. -/
def usedNames (cfg : CallableCfg) : List String :=
  cfg.blocks.entries.flatMap fun entry => entry.2.points.flatMap CfgPoint.uses

theorem LiveAt.used {block : BasicBlockId} {name : String} (live : LiveAt cfg block name) :
    name ∈ usedNames cfg := by
  obtain ⟨edges, last, -, before, point, after, split, used, -⟩ := live
  have among : point ∈ pathPoints cfg block edges := by
    rw [split]
    exact List.mem_append_right _ List.mem_cons_self
  have inside {id : BasicBlockId} (member : point ∈ pointsOf cfg id) : name ∈ usedNames cfg := by
    rw [pointsOf] at member
    cases found : cfg.block id with
    | none =>
        rw [found] at member
        cases member
    | some block =>
        rw [found] at member
        refine List.mem_flatMap.mpr ⟨(id, block), SortedMap.mem_of_find? found, ?_⟩
        exact List.mem_flatMap.mpr ⟨point, member, used⟩
  rcases List.mem_append.mp among with first | later
  · exact inside first
  · obtain ⟨edge, -, member⟩ := List.mem_flatMap.mp later
    exact inside member

theorem sorted_liveTransfer (block : BasicBlockId) (sorted : out.Sorted) :
    (liveTransfer cfg block out).Sorted := by
  rw [liveTransfer]
  cases cfg.block block with
  | none => exact sorted
  | some found =>
      show (found.points.foldr livePoint out).Sorted
      induction found.points with
      | nil => exact sorted
      | cons point points ih => exact (ih.filter _).insertAll _

theorem sorted_liveAlong (live : Liveness) (edges : List CfgEdge) : (liveAlong live edges).Sorted := by
  have started : (SortedSet.empty : SortedSet String).Sorted := SortedSet.sorted_empty
  rw [liveAlong]
  generalize SortedSet.empty = out at started
  induction edges generalizing out with
  | nil => exact started
  | cons edge edges ih =>
      rw [List.foldl_cons]
      cases live edge.to_ with
      | none => exact ih _ started
      | some sets => exact ih _ started.union

theorem searchBlocks_sorted {fuel : Nat} {queue : List BasicBlockId} {visited found : SortedSet BasicBlockId}
    (sorted : visited.Sorted) (result : searchBlocks cfg fuel queue visited = some found) : found.Sorted := by
  induction fuel generalizing queue visited with
  | zero => cases result
  | succ fuel ih =>
      cases queue with
      | nil => exact Option.some.inj result ▸ sorted
      | cons block queue =>
          rw [searchBlocks] at result
          split_ifs at result
          · exact ih sorted result
          · exact ih (sorted.insert block) result

theorem validateCfg_sorted {fuel : Nat} (valid : validateCfg fuel cfg = some (.ok ())) : cfg.reachable.Sorted := by
  simp only [validateCfg, Option.bind_eq_bind, Option.bind_eq_some_iff] at valid
  obtain ⟨reachable, search, checked⟩ := valid
  split at checked
  · rename_i none_
    have fresh : reachable = cfg.reachable := by
      by_contra stale
      simp [stale] at none_
    exact fresh ▸ searchBlocks_sorted SortedSet.sorted_empty search
  · simp at checked

/-- What the worklist keeps of the sets of a block: the live names are in order, and live by a path. -/
structure Justified (cfg : CallableCfg) (block : BasicBlockId) (sets : LiveSets) : Prop where
  sorted : sets.liveIn.Sorted
  live : ∀ name ∈ sets.liveIn, LiveAt cfg block name

/-- The live names of a block climb to those that are live by a path. -/
theorem livenessSolver_climbs (sorted : cfg.reachable.Sorted) :
    Solver.Climbs (fun _ : Unit => livenessSolver cfg) cfg.reachable.elems.reverse cfg.reachable.elems
      LiveSets.liveIn (Justified cfg) (fun v w => ∀ name ∈ v.liveIn, name ∈ w.liveIn)
      (fun names => names.elems.length) (usedNames cfg).length where
  viewed _ := rfl
  seeded n member := List.mem_reverse.mp member
  nodup := List.nodup_reverse.mpr sorted.nodup
  dependents _ m n member := by
    simp only [livenessSolver, List.mem_map, List.mem_filter, decide_eq_true_eq] at member
    obtain ⟨edge, ⟨-, inside⟩, rfl⟩ := member
    exact inside
  same _ _ _ _ member := member
  ready _ _ _ _ _ _ _ := rfl
  refl _ _ member := member
  trans _ _ _ first second name member := second name (first name member)
  keeps _ f n fitting _ _ := by
    refine ⟨sorted_liveTransfer n (sorted_liveAlong f _), fun name member => liveAt_iff.mpr ?_⟩
    refine (mem_liveTransfer.mp member).imp_right fun taken => ⟨?_, taken.2⟩
    obtain ⟨edge, leaves, sets, known, inside⟩ := mem_liveAlong.mp taken.1
    exact ⟨edge, (List.mem_filter.mp leaves).1, (fitting edge.to_ sets known).live name inside⟩
  mono _ _ f g n _ _ below _ _ name member := by
    refine mem_liveTransfer.mpr ((mem_liveTransfer.mp member).imp_right fun taken => ⟨?_, taken.2⟩)
    obtain ⟨edge, leaves, sets, known, inside⟩ := mem_liveAlong.mp taken.1
    obtain ⟨sets', known', more⟩ := below edge.to_ sets known
    exact mem_liveAlong.mpr ⟨edge, leaves, sets', known', more name inside⟩
  bounded n v fits :=
    (List.subperm_of_subset fits.sorted.nodup fun name member => (fits.live name member).used).length_le
  climbs n v w fits fits' le differs := fits.sorted.length_lt fits'.sorted le differs

/-- Where the worklist starts. -/
def livenessStart (cfg : CallableCfg) : Solver.State BasicBlockId LiveSets Empty :=
  ⟨fun _ => none, cfg.reachable.elems.reverse, []⟩

/-! ### The live names -/

/-- In a fixed point the names that are live by a path are live. -/
theorem mem_liveIn_of_path (closed : ∀ edge ∈ cfg.edges.values, edge.from_ ∈ cfg.reachable → edge.to_ ∈ cfg.reachable)
    {live : Liveness} (settled : ∀ block ∈ cfg.reachable, ∃ sets, live block = some sets ∧
      sets.liveIn = liveTransfer cfg block (liveAlong live ((cfg.successors block).filter fun edge =>
        edge.to_ ∈ cfg.reachable))) {edges : List CfgEdge} {block last : BasicBlockId} {name : String}
    (inside : block ∈ cfg.reachable) (path : Path cfg block edges last)
    (used : UsedBeforeDefined name (pathPoints cfg block edges)) {sets : LiveSets} (known : live block = some sets) :
    name ∈ sets.liveIn := by
  induction edges generalizing block sets with
  | nil =>
      obtain ⟨sets', known', eq⟩ := settled block inside
      obtain rfl := Option.some.inj (known.symm.trans known')
      rw [pathPoints, List.flatMap_nil, List.append_nil] at used
      rw [eq]
      exact mem_liveTransfer.mpr (.inl used)
  | cons edge edges ih =>
      obtain ⟨sets', known', eq⟩ := settled block inside
      obtain rfl := Option.some.inj (known.symm.trans known')
      obtain ⟨member, rfl, rest⟩ := path.uncons
      rw [pathPoints, usedBeforeDefined_append] at used
      rw [eq]
      refine mem_liveTransfer.mpr (used.imp_right fun ⟨free, there⟩ => ⟨?_, free⟩)
      have next := closed edge member inside
      obtain ⟨sets'', known'', -⟩ := settled edge.to_ next
      have leaves : edge ∈ (cfg.successors edge.from_).filter fun edge => edge.to_ ∈ cfg.reachable :=
        List.mem_filter.mpr ⟨mem_successors.mpr ⟨member, rfl⟩, by simpa using next⟩
      exact mem_liveAlong.mpr ⟨edge, leaves, sets'', known'', ih next rest there known''⟩

/-- With enough fuel the worklist of a validated graph ends, and every reachable block has the names as live at
its start that some path from there uses before it defines them. -/
theorem liveness_exact {cfg : CallableCfg} {fuel' : Nat} (valid : validateCfg fuel' cfg = some (.ok ())) :
    ∃ bound, ∀ fuel, bound ≤ fuel → ∃ live, computeLiveness fuel cfg = some live ∧
      ∀ block ∈ cfg.reachable, ∃ sets, live block = some sets ∧
        ∀ name, name ∈ sets.liveIn ↔ LiveAt cfg block name := by
  have climbs := livenessSolver_climbs (validateCfg_sorted valid)
  obtain ⟨-, closed⟩ := validateCfg_ok valid
  refine ⟨Solver.potential cfg.reachable.elems LiveSets.liveIn (fun names => names.elems.length)
    (usedNames cfg).length (livenessStart cfg) + 1, fun fuel enough => ?_⟩
  obtain ⟨final, ran⟩ := Solver.Climbs.run_ends (i := ()) climbs fuel _ (climbs.climbing_init ()) enough
  obtain ⟨⟨k, rounds⟩, -⟩ := Solver.rounds_of_run ran
  have justified := (Solver.Climbing.rounds (i := ()) climbs rounds (climbs.climbing_init ())).fits
  have solved := Solver.run_solved livenessSolver_local (fun n member => List.mem_reverse.mp member) ran
  have settled (block : BasicBlockId) (inside : block ∈ cfg.reachable) : ∃ sets, final.values block = some sets ∧
      sets.liveIn = liveTransfer cfg block (liveAlong final.values ((cfg.successors block).filter fun edge =>
        edge.to_ ∈ cfg.reachable)) := by
    have seeded := (solved.seeded block (List.mem_reverse.mpr inside)).resolve_right nofun
    obtain ⟨sets, known⟩ := Option.isSome_iff_exists.mp seeded
    obtain ⟨entries, evaluates, -⟩ := solved.settled block sets known
    exact ⟨sets, known, congrArg LiveSets.liveIn (congrArg Prod.fst evaluates).symm⟩
  refine ⟨final.values, by rw [computeLiveness, ran]; rfl, fun block inside => ?_⟩
  obtain ⟨sets, known, -⟩ := settled block inside
  refine ⟨sets, known, fun name => ⟨(justified block sets known).live name, ?_⟩⟩
  rintro ⟨edges, last, path, used⟩
  exact mem_liveIn_of_path closed settled inside path used known

/-- A loop that counts: the name is defined before it, and used in its condition and its body. -/
def counting : CallableCfg where
  owner := ⟨"main"⟩
  entry := ⟨⟨"a"⟩⟩
  blocks := ⟨[
    (⟨⟨"a"⟩⟩, ⟨⟨⟨"a"⟩⟩, namedSource "a", [⟨namedSource "a.", [], ["i"], [], []⟩], .goto ⟨⟨"ah"⟩⟩⟩),
    (⟨⟨"b"⟩⟩, ⟨⟨⟨"b"⟩⟩, namedSource "b", [⟨namedSource "b.", ["i"], ["i"], [], []⟩], .goto ⟨⟨"bh"⟩⟩⟩),
    (⟨⟨"h"⟩⟩, ⟨⟨⟨"h"⟩⟩, namedSource "h", [⟨namedSource "h.", ["i"], [], [], []⟩],
      .branch ⟨"h."⟩ ⟨⟨"hb"⟩⟩ ⟨⟨"hr"⟩⟩⟩),
    namedBlock "r" (.return_ none true)]⟩
  edges := fileLoop.edges
  reachable := fileLoop.reachable

theorem liveness_exact_counting : validateCfg 20 counting = some (.ok ()) ∧
    ∃ bound, ∀ fuel, bound ≤ fuel → ∃ live, computeLiveness fuel counting = some live ∧
      ∀ block ∈ counting.reachable, ∃ sets, live block = some sets ∧
        ∀ name, name ∈ sets.liveIn ↔ LiveAt counting block name :=
  have valid : validateCfg 20 counting = some (.ok ()) := by decide
  ⟨valid, liveness_exact valid⟩

end Mimi.Cfg
