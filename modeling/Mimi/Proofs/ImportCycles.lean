/-
Module: Mimi.Proofs.ImportCycles
Purpose: Loading a file is exact over every finite import graph: it ends, it reports a circular dependency when a
  cycle can be reached, and otherwise it loads what can be reached, each file parsed once.  The registry of
  sources may also refuse a file; then two files have one identity, or there are more files than identities.
Trusted boundary: the front end parses every file of the graph, and every import resolves
-/
import Mimi.Loader.SourceKey
import Mimi.Proofs.LoadAgreement

namespace Mimi.Loader

open Mimi.Ast Mimi.Source Mimi.Lib
open Relation (ReflTransGen TransGen)

/-! ### Graphs of files -/

/-- A finite import graph: its files parse, and their imports resolve to files of the graph. -/
structure FileGraph (env : LoadEnvironment) where
  files : List Path
  imports : Path → List (List String)
  target : Path → List String → Path
  canonical : ∀ p ∈ files, env.canonicalize p = some p
  parses : ∀ p ∈ files, ∀ id registry, ∃ file, env.parse p id registry = .ok file ∧
    file.imports.map Import.path = imports p
  resolves : ∀ p ∈ files, ∀ path ∈ imports p, ∃ found, env.resolve_import_path p path = .ok found ∧
    env.canonicalize found = some (target p path)
  closed : ∀ p ∈ files, ∀ path ∈ imports p, target p path ∈ files

variable {env : LoadEnvironment}

namespace FileGraph

variable (graph : FileGraph env)

def edges (p : Path) : List Path := (graph.imports p).map (graph.target p)

/-- One file imports another. -/
def Imports (p q : Path) : Prop := q ∈ graph.edges p

/-- What a file imports, directly or not, with the file itself. -/
def Reaches : Path → Path → Prop := ReflTransGen graph.Imports

/-- A cycle of imports can be reached. -/
def HasCycle (main : Path) : Prop := ∃ p, graph.Reaches main p ∧ TransGen graph.Imports p p

/-- The files that can be reached have identities of their own, and there are enough of these. -/
structure Identified (main : Path) : Prop where
  apart : ∀ p q, graph.Reaches main p → graph.Reaches main q →
    env.source_key p = env.source_key q ∨ env.source_file_uri p = env.source_file_uri q → p = q
  few : ∀ files : List Path, files.Nodup → (∀ p ∈ files, graph.Reaches main p) → files.length ≤ lastSourceId

/-- A walk has parsed exactly the files that can be reached, each of them once. -/
structure ParsesOnce (main : Path) (parsed : List (Path × File)) : Prop where
  once : (parsed.map Prod.fst).Nodup
  reached : ∀ p, p ∈ parsed.map Prod.fst ↔ graph.Reaches main p

/-- What has been loaded from a file is what can be reached from it. -/
structure LoadsReachable (main : Path) (acc : Acc) (module : LoadedModule) : Prop where
  main_module : acc.loaded main = some module ∧ module.path = main
  loaded : ∀ p, (acc.loaded p).isSome = true ↔ graph.Reaches main p
  parsed : ∃ walk fuel₀, (∀ fuel, fuel₀ ≤ fuel →
    walkFiles env fuel [(main, [main])] ⟨.new, [], []⟩ = some (.ok walk)) ∧
      graph.ParsesOnce main walk.parsed

/-- Import cycles are detected exactly. -/
structure LoadsExactly (path main : Path) : Prop where
  ends : ∃ result, Settles (flow_load_file env · .new path) result
  circular : (∃ p, Settles (flow_load_file env · .new path) (.error (.circular p))) ↔ graph.HasCycle main
  loads : ¬graph.HasCycle main → ∃ acc module,
    Settles (flow_load_file env · .new path) (.ok (acc, module)) ∧ graph.LoadsReachable main acc module

/-- How loading may end, whatever the identities of the files are. -/
inductive EndsSoundly (main : Path) : Except LoadError (Acc × LoadedModule) → Prop where
  | circular (cycle : graph.HasCycle main) (p : Path) : EndsSoundly main (.error (.circular p))
  | refused (unidentified : ¬graph.Identified main) (error : SourceRegistryError) :
      EndsSoundly main (.error (.source error))
  | loaded (acyclic : ¬graph.HasCycle main) {acc : Acc} {module : LoadedModule}
      (loads : graph.LoadsReachable main acc module) : EndsSoundly main (.ok (acc, module))

variable {graph}

theorem edges_inside (p : Path) (file : p ∈ graph.files) (q : Path) (edge : q ∈ graph.edges p) :
    q ∈ graph.files := by
  obtain ⟨path, member, rfl⟩ := List.mem_map.mp edge
  exact graph.closed p file path member

theorem edgeOutside_none : EdgeOutside graph.edges [] = graph.Imports := by
  funext p q
  exact propext ⟨fun edge => edge.1, fun edge => ⟨edge, List.not_mem_nil⟩⟩

theorem reaches_inside {main p : Path} (here : main ∈ graph.files) (reaches : graph.Reaches main p) :
    p ∈ graph.files := by
  induction reaches with
  | refl => exact here
  | tail _ edge ih => exact edges_inside _ ih _ edge

/-- It is enough that all files of the graph have identities of their own. -/
theorem identified_of_files {main : Path} (here : main ∈ graph.files)
    (apart : ∀ p ∈ graph.files, ∀ q ∈ graph.files,
      env.source_key p = env.source_key q ∨ env.source_file_uri p = env.source_file_uri q → p = q)
    (few : graph.files.length ≤ lastSourceId) : graph.Identified main where
  apart p q reached reached' := apart p (reaches_inside here reached) q (reaches_inside here reached')
  few _ once reached :=
    (List.subperm_of_subset once fun p member => reaches_inside here (reached p member)).length_le.trans few

end FileGraph

/-! ### Registration -/

/-- A record that is on no registered path is put behind the others, or it is refused: its key or its URI is
taken, or there is no identity left. -/
theorem register_cases (canonicalize : Path → Option Path) {registry : SourceRegistry}
    (record : SourceRecord) {path : Path} {uri : String} (disk : record.disk_path = some path)
    (named : record.canonical_uri = some uri)
    (elsewhere : ∀ other ∈ registry.records, ∃ path', other.disk_path = some path' ∧
      paths_equivalent canonicalize path' path = false) :
    (∃ error, registry.register canonicalize record = .error error ∧
      ((∃ other ∈ registry.records, other.key = record.key ∨ other.canonical_uri = some uri) ∨
        lastSourceId < registry.records.length + 1)) ∨
    ∃ registry', registry.register canonicalize record = .ok (registry.records.length + 1, registry') ∧
      registry'.records = registry.records ++ [{ record with id := registry.records.length + 1 }] := by
  by_cases good : (∀ other ∈ registry.records, other.key ≠ record.key ∧ other.canonical_uri ≠ some uri) ∧
      registry.records.length + 1 ≤ lastSourceId
  · refine .inr (register_new canonicalize record disk named (fun other member => ?_) good.2)
    obtain ⟨own, at_, different⟩ := elsewhere other member
    refine ⟨(good.1 other member).1, fun path' at' => ?_, (good.1 other member).2⟩
    obtain rfl := Option.some.inj (at_.symm.trans at')
    exact different
  · have reason : (∃ other ∈ registry.records, other.key = record.key ∨ other.canonical_uri = some uri) ∨
        lastSourceId < registry.records.length + 1 := by
      by_contra none_
      rw [not_or] at none_
      refine good ⟨fun other member => ⟨fun same => ?_, fun same => ?_⟩, Nat.not_lt.mp none_.2⟩
      · exact none_.1 ⟨other, member, .inl same⟩
      · exact none_.1 ⟨other, member, .inr same⟩
    suffices refuses : ∃ error, registry.register canonicalize record = .error error by
      obtain ⟨error, eq⟩ := refuses
      exact .inl ⟨error, eq, reason⟩
    have path_ : pathOwner canonicalize registry.records record = none := by
      rw [pathOwner, disk]
      dsimp only
      rw [Option.map_eq_none_iff, List.find?_eq_none]
      intro other member
      obtain ⟨own, at_, different⟩ := elsewhere other member
      rw [at_, Bool.and_eq_true]
      exact fun owns => Bool.false_ne_true (different.symm.trans owns.2)
    rw [SourceRegistry.register, path_]
    dsimp only
    cases uri_ : uriOwner registry.records record with
    | some owner => exact ⟨_, rfl⟩
    | none =>
        have unowned : ∀ other ∈ registry.records, other.canonical_uri = some uri → other.key = record.key := by
          intro other member same
          rw [uriOwner, named] at uri_
          have missed := List.find?_eq_none.mp (Option.map_eq_none_iff.mp uri_) other member
          by_contra differ
          exact missed (Bool.and_eq_true_iff.mpr ⟨bne_iff_ne.mpr differ, beq_iff_eq.mpr same⟩)
        dsimp only
        split
        · rename_i id found
          split
          · rename_i missing
            exact absurd (registry.indexed.at_key found) (by simp [missing])
          · rename_i existing here
            obtain ⟨own, at_, different⟩ := elsewhere existing (List.mem_of_getElem? here)
            have clash : conflicts canonicalize existing record = true := by
              have apart : sameDiskSource canonicalize existing record = false := by
                rw [sameDiskSource, at_, disk]
                exact different
              rw [conflicts, apart, at_, disk]
              simp
            rw [if_pos clash]
            exact ⟨_, rfl⟩
        · rename_i missing
          have full : ¬registry.records.length + 1 ≤ lastSourceId := by
            intro room
            rcases reason with ⟨other, member, taken⟩ | more
            · have key : other.key = record.key := taken.elim id (unowned other member)
              obtain ⟨i, here⟩ := List.mem_iff_getElem?.mp member
              have found := (registry.indexed.keyed record.key (i + 1)).mpr ⟨i, other, rfl, here, key⟩
              rw [missing] at found
              cases found
            · exact absurd room (Nat.not_le.mpr more)
          exact ⟨_, if_neg full⟩

/-! ### The walk -/

variable {graph : FileGraph env} {main : Path}

/-- Where a walk that started with nothing loaded stands, after some files have been visited. -/
structure Gathers (graph : FileGraph env) (main : Path) (walk : Walk) (visited : List Path) : Prop where
  unloaded : ∀ p, walk.acc.loaded p = none
  parsed : walk.parsed.map Prod.fst = visited.reverse
  unknown : ∀ p, p ∉ visited → walk.acc.source_ids p = none
  records : ∀ record ∈ walk.acc.source_registry.records, ∃ p ∈ visited, record.disk_path = some p ∧
    record.key = env.source_key p ∧ record.canonical_uri = some (env.source_file_uri p)
  count : walk.acc.source_registry.records.length = visited.length
  once : visited.Nodup
  files : ∀ p ∈ visited, p ∈ graph.files ∧ graph.Reaches main p

theorem Gathers.seen {walk : Walk} {visited : List Path} (gathers : Gathers graph main walk visited) (p : Path) :
    walk.visited p = true ↔ p ∈ visited := by
  rw [Walk.visited, gathers.unloaded, Option.isSome_none, Bool.or_false, List.any_eq_true,
    ← List.mem_reverse, ← gathers.parsed, List.mem_map]
  simp only [decide_eq_true_eq]

/-- A file that has not been visited gets a source of its own, or it is refused: its identity is that of a file
visited before, or there is none left. -/
theorem source_id_for_cases {walk : Walk} {visited : List Path} (gathers : Gathers graph main walk visited)
    {p : Path} (file : p ∈ graph.files) (new : p ∉ visited) :
    (∃ error, source_id_for env walk.acc p .disk = .error error ∧
      ((∃ q ∈ visited, env.source_key q = env.source_key p ∨ env.source_file_uri q = env.source_file_uri p) ∨
        lastSourceId < visited.length + 1)) ∨
    ∃ acc id, source_id_for env walk.acc p .disk = .ok (acc, id) ∧ acc.loaded = walk.acc.loaded ∧
      (∀ q, q ∉ p :: visited → acc.source_ids q = none) ∧
      acc.source_registry.records =
        walk.acc.source_registry.records ++ [{ pathRecord env p .disk with id := id }] := by
  have normal := normalize_of_canonical (graph.canonical p file)
  have elsewhere : ∀ other ∈ walk.acc.source_registry.records, ∃ path, other.disk_path = some path ∧
      paths_equivalent env.canonicalize path p = false := by
    intro other member
    obtain ⟨q, old, disk, -⟩ := gathers.records other member
    refine ⟨q, disk, ?_⟩
    rw [paths_equivalent, graph.canonical q (gathers.files q old).1, graph.canonical p file]
    have differ : q ≠ p := fun same => new (same ▸ old)
    simpa using differ
  have nowhere : id_for_disk_path env walk.acc.source_registry p = none := by
    rw [id_for_disk_path, Option.map_eq_none_iff, List.find?_eq_none]
    intro other member
    obtain ⟨path, at_, different⟩ := elsewhere other member
    rw [at_, Option.any_some, different]
    exact Bool.false_ne_true
  rw [source_id_for, normal]
  dsimp only
  rw [gathers.unknown p new]
  dsimp only
  rw [nowhere]
  dsimp only
  rcases register_cases env.canonicalize (pathRecord env p .disk) rfl rfl elsewhere with
    ⟨error, refused, reason⟩ | ⟨registry, registers, records⟩
  · rw [refused]
    refine .inl ⟨error, rfl, ?_⟩
    rcases reason with ⟨other, member, taken⟩ | full
    · obtain ⟨q, old, -, key, uri⟩ := gathers.records other member
      refine .inl ⟨q, old, taken.imp (fun same => key.symm.trans same) fun same => ?_⟩
      exact Option.some.inj (uri.symm.trans same)
    · exact .inr (gathers.count ▸ full)
  · rw [registers]
    refine .inr ⟨_, _, rfl, rfl, fun q other => ?_, records⟩
    rw [List.mem_cons, not_or] at other
    exact (Function.update_of_ne other.1 _ _).trans (gathers.unknown q other.2)

/-- A file that can be reached is registered, parsed, and its edges are pushed, or its source is refused. -/
theorem visitFile_cases {walk : Walk} {visited : List Path} (gathers : Gathers graph main walk visited)
    {p : Path} (file : p ∈ graph.files) (reached : graph.Reaches main p) (new : p ∉ visited)
    (chain : List Path) (stack : List Entry) :
    (∃ error, visitFile env walk p chain stack = .error (.source error) ∧ ¬graph.Identified main) ∨
    (∀ w, expand visited chain (graph.edges p) stack = .error w →
      visitFile env walk p chain stack = .error (.circular w)) ∧
    ∀ stack', expand visited chain (graph.edges p) stack = .ok stack' →
      ∃ walk', visitFile env walk p chain stack = .ok (walk', stack') ∧
        Gathers graph main walk' (p :: visited) := by
  rw [visitFile]
  rcases source_id_for_cases gathers file new with
    ⟨error, refused, reason⟩ | ⟨acc, id, identified, kept, unknown, records⟩
  · rw [refused]
    refine .inl ⟨error, rfl, fun identified => ?_⟩
    rcases reason with ⟨q, old, same⟩ | full
    · exact new (identified.apart q p (gathers.files q old).2 reached same ▸ old)
    · refine absurd (identified.few (p :: visited) (List.nodup_cons.mpr ⟨new, gathers.once⟩) ?_)
        (Nat.not_le.mpr full)
      exact List.forall_mem_cons.mpr ⟨reached, fun q old => (gathers.files q old).2⟩
  · obtain ⟨parsed, parses, imports⟩ := graph.parses p file id acc.source_registry
    have edges : graph.edges p = parsed.imports.map fun i => graph.target p i.path := by
      rw [FileGraph.edges, ← imports, List.map_map]
      rfl
    have resolves : ∀ i ∈ parsed.imports, ∃ found, env.resolve_import_path p i.path = .ok found ∧
        env.canonicalize found = some (graph.target p i.path) := by
      intro i member
      exact graph.resolves p file i.path (imports ▸ List.mem_map_of_mem member)
    have resolve := resolveImports_expand gathers.seen chain resolves [] stack
    rw [edges, identified]
    dsimp only
    rw [parses]
    dsimp only
    refine .inr ⟨fun w h => by rw [resolve.1 w h], fun stack' h => ?_⟩
    obtain ⟨resolved, eq⟩ := resolve.2 stack' h
    rw [eq]
    refine ⟨_, rfl, ?_⟩
    exact {
      unloaded := fun q => (congrFun kept q).trans (gathers.unloaded q)
      parsed := by
        dsimp only
        rw [List.map_append, gathers.parsed, List.reverse_cons]
        rfl
      unknown := unknown
      records := fun record among => by
        dsimp only at among
        rw [records] at among
        rcases List.mem_append.mp among with old | last
        · obtain ⟨q, seen, facts⟩ := gathers.records record old
          exact ⟨q, List.mem_cons_of_mem _ seen, facts⟩
        · rw [List.mem_singleton.mp last]
          exact ⟨p, List.mem_cons_self, rfl, rfl, rfl⟩
      count := by
        dsimp only
        rw [records, List.length_append, gathers.count]
        rfl
      once := List.nodup_cons.mpr ⟨new, gathers.once⟩
      files := List.forall_mem_cons.mpr ⟨⟨file, reached⟩, gathers.files⟩ }

/-- The loop is the search of the graph, unless a source is refused. -/
theorem walkFiles_cases {fuel : Nat} {stack : List Entry} {walk : Walk} {visited : List Path}
    (gathers : Gathers graph main walk visited)
    (inside : ∀ entry ∈ stack, entry.1 ∈ graph.files ∧ graph.Reaches main entry.1)
    {result : Except Path (List Path)} (h : explore graph.edges fuel stack visited = some result) :
    (∃ error, walkFiles env fuel stack walk = some (.error (.source error)) ∧ ¬graph.Identified main) ∨
    (∃ w, result = .error w ∧ walkFiles env fuel stack walk = some (.error (.circular w))) ∨
    ∃ visited' walk', result = .ok visited' ∧ walkFiles env fuel stack walk = some (.ok walk') ∧
      Gathers graph main walk' visited' := by
  induction fuel generalizing stack walk visited with
  | zero => cases h
  | succ fuel ih =>
      cases stack with
      | nil =>
          obtain rfl := Option.some.inj h
          exact .inr (.inr ⟨visited, walk, rfl, rfl, gathers⟩)
      | cons entry stack =>
          obtain ⟨p, chain⟩ := entry
          obtain ⟨file, reached⟩ := inside _ List.mem_cons_self
          have below : ∀ entry ∈ stack, entry.1 ∈ graph.files ∧ graph.Reaches main entry.1 :=
            fun entry member => inside entry (List.mem_cons_of_mem _ member)
          rw [explore] at h
          rw [walkFiles]
          by_cases old : p ∈ visited
          · rw [if_pos old] at h
            rw [if_pos ((gathers.seen p).mpr old)]
            exact ih gathers below h
          · rw [if_neg old] at h
            rw [if_neg fun seen => old ((gathers.seen p).mp seen)]
            rcases visitFile_cases gathers file reached old chain stack with ⟨error, refused, why⟩ | visit
            · rw [refused]
              exact .inl ⟨error, rfl, why⟩
            cases pushes : expand visited chain (graph.edges p) stack with
            | error w =>
                rw [pushes] at h
                obtain rfl := Option.some.inj h
                rw [visit.1 w pushes]
                exact .inr (.inl ⟨w, rfl, rfl⟩)
            | ok stack' =>
                rw [pushes] at h
                obtain ⟨walk', eq, gathers'⟩ := visit.2 stack' pushes
                rw [eq]
                refine ih gathers' (fun entry member => ?_) h
                obtain ⟨-, pushed, rfl, shape, -⟩ := expand_ok pushes
                rcases List.mem_append.mp member with new | old'
                · have edge := (shape entry new).1
                  exact ⟨FileGraph.edges_inside p file _ edge, reached.tail edge⟩
                · exact below entry old'

/-- What has been visited is loaded. -/
theorem registerFiles_loaded {walk : Walk} {visited : List Path} (gathers : Gathers graph main walk visited)
    (p : Path) :
    (p ∈ visited ∧ ∃ module, (registerFiles env walk).loaded p = some module ∧ module.path = p) ∨
      p ∉ visited ∧ (registerFiles env walk).loaded p = none := by
  have imports := registerImports_loaded env
    (walk.import_edges.flatMap fun edge => edge.2.map Prod.snd)
    ((walk.parsed.map fun entry => (entry.1, { entry.2 with sources := walk.acc.source_registry })).foldl
      (registerModule env) walk.acc)
  have listed : ∀ q, q ∈ visited ↔ q ∈ walk.parsed.map Prod.fst := by
    intro q
    rw [gathers.parsed, List.mem_reverse]
  rw [registerFiles, imports.1]
  rcases registerModules_loaded env
    (walk.parsed.map fun entry => (entry.1, { entry.2 with sources := walk.acc.source_registry })) walk.acc p with
    ⟨same, other⟩ | ⟨entry, member, rfl, last⟩
  · refine .inr ⟨fun old => ?_, same.trans (gathers.unloaded p)⟩
    obtain ⟨entry, member, rfl⟩ := List.mem_map.mp ((listed p).mp old)
    have mapped := List.mem_map_of_mem (f := fun entry : Path × File =>
      (entry.1, { entry.2 with sources := walk.acc.source_registry })) member
    exact other _ mapped rfl
  · obtain ⟨entry', member', rfl⟩ := List.mem_map.mp member
    exact .inl ⟨(listed _).mpr (List.mem_map.mpr ⟨entry', member', rfl⟩), _, last, rfl⟩

/-! ### Loading a file -/

/-- The fuel that suffices to search from any one file. -/
def FileGraph.fuel (graph : FileGraph env) : Nat :=
  (graph.files.map fun p => (graph.edges p).length).sum + 2

theorem FileGraph.explore_ends_at {p : Path} (file : p ∈ graph.files) {fuel : Nat} (enough : graph.fuel ≤ fuel) :
    ∃ result, explore graph.edges fuel [(p, [p])] [] = some result := by
  refine explore_ends edges_inside (fun entry member => List.mem_singleton.mp member ▸ file) ?_
  have bound : remaining graph.edges graph.files [] ≤
      (graph.files.map fun p => (graph.edges p).length).sum :=
    List.Sublist.sum_le_sum (List.Sublist.map _ List.filter_sublist) fun _ _ => Nat.zero_le _
  rw [FileGraph.fuel] at enough
  rw [List.length_singleton]
  omega

theorem gathers_nothing : Gathers graph main ⟨.new, [], []⟩ [] where
  unloaded _ := rfl
  parsed := rfl
  unknown _ _ := rfl
  records _ member := absurd member List.not_mem_nil
  count := rfl
  once := List.nodup_nil
  files _ member := absurd member List.not_mem_nil

theorem flow_load_file_new_error {path : Path} (canonical : env.canonicalize path = some main) {fuel : Nat}
    {error : LoadError} (walked : walkFiles env fuel [(main, [main])] ⟨.new, [], []⟩ = some (.error error)) :
    flow_load_file env fuel .new path = some (.error error) := by
  rw [flow_load_file, normalize_of_canonical canonical]
  dsimp only [Acc.new] at walked ⊢
  rw [walked]
  rfl

theorem flow_load_file_new_ok {path : Path} (canonical : env.canonicalize path = some main) {fuel : Nat}
    {walk : Walk} (walked : walkFiles env fuel [(main, [main])] ⟨.new, [], []⟩ = some (.ok walk))
    {module : LoadedModule} (loaded : (registerFiles env walk).loaded main = some module) :
    flow_load_file env fuel .new path = some (.ok (registerFiles env walk, module)) := by
  rw [flow_load_file, normalize_of_canonical canonical]
  dsimp only [Acc.new] at walked ⊢
  rw [walked, Option.map_some]
  dsimp only [bind, Except.bind]
  rw [loaded]
  rfl

/-- Loading a file from nothing ends, and it ends soundly. -/
theorem flow_load_file_ends {path : Path} (here : main ∈ graph.files)
    (canonical : env.canonicalize path = some main) :
    ∃ result, Settles (flow_load_file env · .new path) result ∧ graph.EndsSoundly main result := by
  obtain ⟨searched, search⟩ := FileGraph.explore_ends_at here (Nat.le_refl graph.fuel)
  have settles {result : Except LoadError (Acc × LoadedModule)}
      (h : flow_load_file env graph.fuel .new path = some result) :
      Settles (flow_load_file env · .new path) result :=
    ⟨graph.fuel, fun fuel le => flow_load_file_more le h⟩
  have inside : ∀ entry ∈ [(main, [main])], entry.1 ∈ graph.files ∧ graph.Reaches main entry.1 :=
    fun entry member => List.mem_singleton.mp member ▸ ⟨here, .refl⟩
  have start : Settled graph.edges [] ([] : List Path) := trivial
  have outcome := explore_from start (fun p => by rw [or_self]) search
  rcases walkFiles_cases gathers_nothing inside search with
    ⟨error, refused, why⟩ | ⟨w, rfl, circular⟩ | ⟨visited, walk, rfl, walked, gathers⟩
  · exact ⟨_, settles (flow_load_file_new_error canonical refused), .refused why error⟩
  · rcases outcome with ⟨-, cycle⟩ | ⟨_, _, ends, -⟩
    · rw [CycleFrom, FileGraph.edgeOutside_none] at cycle
      exact ⟨_, settles (flow_load_file_new_error canonical circular), .circular cycle w⟩
    · cases ends
  · rcases outcome with ⟨⟨w, fails⟩, -⟩ | ⟨visited', done, ends, off⟩
    · cases fails
    obtain rfl := Except.ok.inj ends
    have seen : ∀ p, p ∈ visited ↔ p ∈ done := by
      intro p
      rw [off.seen p, or_iff_right List.not_mem_nil, or_iff_left List.not_mem_nil]
    have member : main ∈ done :=
      (off.covered _ (List.mem_singleton_self _)).resolve_right List.not_mem_nil
    have acyclic := off.settled.no_cycle (.inl member)
    rw [CycleFrom, FileGraph.edgeOutside_none] at acyclic
    have reached : ∀ p, p ∈ visited ↔ graph.Reaches main p := by
      intro p
      rw [seen p, FileGraph.Reaches, ← FileGraph.edgeOutside_none]
      constructor
      · exact fun done_ => (off.found p done_).resolve_left List.not_mem_nil
      · exact fun way => (off.settled.closed (.inl member) way).resolve_right List.not_mem_nil
    rcases registerFiles_loaded gathers main with ⟨-, module, loaded, named⟩ | ⟨absent, -⟩
    · refine ⟨_, settles (flow_load_file_new_ok canonical walked loaded), .loaded acyclic ?_⟩
      exact {
        main_module := ⟨loaded, named⟩
        loaded := fun p => by
          rw [← reached p]
          rcases registerFiles_loaded gathers p with ⟨old, other, known, -⟩ | ⟨new, unknown⟩
          · rw [known]
            exact ⟨fun _ => old, fun _ => rfl⟩
          · rw [unknown]
            exact ⟨fun impossible => (by cases impossible), fun old => absurd old new⟩
        parsed := ⟨walk, graph.fuel, fun fuel le => walkFiles_more le walked, {
          once := by
            rw [gathers.parsed, List.nodup_reverse]
            exact gathers.once
          reached := fun p => by rw [gathers.parsed, List.mem_reverse, reached p] }⟩ }
    · exact absurd ((seen main).mpr member) absent

/-- Import cycles are detected exactly where the files have identities, and loading is sound everywhere: it ends,
a circular dependency is reported only for a cycle that can be reached, and what is loaded from an acyclic graph
is what can be reached, each file parsed once. -/
theorem imports_load_exactly (graph : FileGraph env) {path main : Path} (here : main ∈ graph.files)
    (canonical : env.canonicalize path = some main) :
    (graph.Identified main → graph.LoadsExactly path main) ∧
      ∃ result, Settles (flow_load_file env · .new path) result ∧ graph.EndsSoundly main result := by
  obtain ⟨result, settles, ends⟩ := flow_load_file_ends here canonical
  refine ⟨fun identified => ?_, result, settles, ends⟩
  cases ends with
  | circular cycle p =>
      exact {
        ends := ⟨_, settles⟩
        circular := ⟨fun _ => cycle, fun _ => ⟨p, settles⟩⟩
        loads := fun acyclic => absurd cycle acyclic }
  | refused unidentified error => exact absurd identified unidentified
  | loaded acyclic loads =>
      refine {
        ends := ⟨_, settles⟩
        circular := ⟨fun fails => ?_, fun cycle => absurd cycle acyclic⟩
        loads := fun _ => ⟨_, _, settles, loads⟩ }
      obtain ⟨p, fails⟩ := fails
      cases settles.unique fails

/-- The graph of the file `a`, which imports `b`. -/
def chainFiles : FileGraph (namedFiles chainImports) where
  files := chainGraph.files
  imports := chainGraph.imports
  target := chainGraph.target
  canonical := chainGraph.canonical
  parses p file id registry := by
    obtain ⟨parsed, parses, -, imports⟩ := chainGraph.parses p file id registry
    exact ⟨parsed, parses, imports⟩
  resolves := chainGraph.resolves
  closed := chainGraph.closed

theorem imports_load_exactly_chain :
    chainFiles.Identified ⟨["a"]⟩ ∧ chainFiles.LoadsExactly ⟨["a"]⟩ ⟨["a"]⟩ := by
  have here : (⟨["a"]⟩ : Source.Path) ∈ chainFiles.files := by decide
  have identified : chainFiles.Identified ⟨["a"]⟩ :=
    FileGraph.identified_of_files here chainGraph.identified chainGraph.few
  exact ⟨identified, (imports_load_exactly chainFiles here rfl).1 identified⟩

/-! ### Two dependencies of one identity -/

/-- A workspace with two dependencies inside it that have no manifest of their own, so that both take the identity
of the workspace. -/
def workspaceRoots : SourceRoots where
  std_root := none
  dep_paths := [("a", ⟨["p", "libs", "a"]⟩), ("b", ⟨["p", "libs", "b"]⟩)]
  dependency_identities _ := some "p@1.0"
  lock_entries _ := none
  deps_root := ⟨["p", ".mimi", "deps"]⟩
  workspace_root := some ⟨["p"]⟩
  external_uri uri := ⟨uri⟩

def mainOf : Source.Path := ⟨["p", "main.mimi"]⟩

/-- The file of a dependency. -/
def utilOf (name : String) : Source.Path := ⟨["p", "libs", name, "util.mimi"]⟩

/-- The main file says `use a::util; use b::util;`. -/
def workspaceFiles : LoadEnvironment where
  canonicalize := some
  stdlib_dir := none
  absolute := id
  source_key p := workspaceRoots.source_key p p.display
  source_file_uri p := p.display
  module_key p := p.display
  resolve_import_path _ path := .ok (utilOf (path.headD ""))
  parse p id registry :=
    .ok ⟨registry, (if p = mainOf then ["a", "b"] else []).map fun name =>
      { importOf id name with path := [name, "util"] }, [], false⟩

/-- The graph of these three files. -/
def workspaceGraph : FileGraph workspaceFiles where
  files := [mainOf, utilOf "a", utilOf "b"]
  imports p := (if p = mainOf then ["a", "b"] else []).map fun name => [name, "util"]
  target _ path := utilOf (path.headD "")
  canonical _ _ := rfl
  parses p _ id registry := by
    refine ⟨_, rfl, ?_⟩
    dsimp only
    rw [List.map_map]
    rfl
  resolves _ _ path _ := ⟨_, rfl, rfl⟩
  closed p _ path member := by
    obtain ⟨name, among, rfl⟩ := List.mem_map.mp member
    by_cases main : p = mainOf
    · rw [if_pos main] at among
      rcases List.mem_cons.mp among with rfl | second
      · decide
      · rw [List.mem_singleton.mp second]
        decide
    · rw [if_neg main] at among
      cases among

/-- The registry refuses the second dependency, although no file imports itself. -/
theorem one_identity_refused :
    flow_load_file workspaceFiles 5 .new mainOf =
        some (.error (.source (.conflictingRecord ⟨"package:p@1.0:util.mimi"⟩))) ∧
      ¬workspaceGraph.HasCycle mainOf ∧ ¬workspaceGraph.LoadsExactly mainOf mainOf := by
  have refused : flow_load_file workspaceFiles 5 .new mainOf =
      some (.error (.source (.conflictingRecord ⟨"package:p@1.0:util.mimi"⟩))) := rfl
  have acyclic : ¬workspaceGraph.HasCycle mainOf := by
    rintro ⟨p, -, cycle⟩
    -- only the main file imports, and nothing imports it
    obtain ⟨q, first, -⟩ := TransGen.head'_iff.mp cycle
    obtain ⟨r, -, last⟩ := TransGen.tail'_iff.mp cycle
    obtain ⟨path, member, -⟩ := List.mem_map.mp first
    obtain ⟨path', -, target⟩ := List.mem_map.mp last
    obtain ⟨name, among, -⟩ := List.mem_map.mp member
    by_cases main : p = mainOf
    · have lengths := congrArg (fun p : Source.Path => p.components.length) (target.trans main)
      cases lengths
    · rw [if_neg main] at among
      cases among
  refine ⟨refused, acyclic, fun exactly => ?_⟩
  obtain ⟨acc, module, ⟨fuel₀, settles⟩, -⟩ := exactly.loads acyclic
  have fails := flow_load_file_more (Nat.le_max_right fuel₀ 5) refused
  cases fails.symm.trans (settles (max fuel₀ 5) (Nat.le_max_left _ _))

end Mimi.Loader
