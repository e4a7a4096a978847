/-
Module: Mimi.Proofs.LoadAgreement
Purpose: Loading a main file from disk against loading it from memory, over finite import graphs.  Both
  are depth-first searches of the graph; the second one counts the main file as visited from the start,
  and so does not see the cycles that lead through it.
Trusted boundary: the front end parses every file of the graph, and every import resolves
-/
import Mimi.Lib.DepthFirst
import Mimi.Lib.Fallible
import Mimi.Loader.Load

namespace Mimi.Loader

open Mimi.Ast Mimi.Source Mimi.Lib
open Relation (ReflTransGen TransGen)

/-! ### Registration -/

/-- No two records have the same key. -/
theorem keys_nodup (registry : SourceRegistry) : registry.keys.Nodup := by
  rw [SourceRegistry.keys, List.nodup_iff_getElem?_ne_getElem?]
  intro i j less bound same
  rw [List.length_map] at bound
  obtain ⟨record, here⟩ : ∃ record, registry.records[j]? = some record :=
    ⟨_, List.getElem?_eq_getElem bound⟩
  rw [List.getElem?_map, List.getElem?_map, here] at same
  obtain ⟨record', here', key⟩ := Option.map_eq_some_iff.mp same
  have first := (registry.indexed.keyed record.key (i + 1)).mpr ⟨i, record', rfl, here', key⟩
  have second := (registry.indexed.keyed record.key (j + 1)).mpr ⟨j, record, rfl, here, rfl⟩
  have eq : i = j := Nat.succ.inj (Option.some.inj (first.symm.trans second))
  exact absurd eq (Nat.ne_of_lt less)

variable {path : Path}

/-- A record that shares nothing with those registered is put behind them. -/
theorem register_new (canonicalize : Path → Option Path) {registry : SourceRegistry}
    (record : SourceRecord) {uri : String} (disk : record.disk_path = some path)
    (named : record.canonical_uri = some uri)
    (apart : ∀ other ∈ registry.records, other.key ≠ record.key ∧
      (∀ path', other.disk_path = some path' → paths_equivalent canonicalize path' path = false) ∧
      other.canonical_uri ≠ some uri) (room : registry.records.length + 1 ≤ lastSourceId) :
    ∃ registry', registry.register canonicalize record =
        .ok (registry.records.length + 1, registry') ∧
      registry'.records = registry.records ++ [{ record with id := registry.records.length + 1 }] := by
  have path_ : pathOwner canonicalize registry.records record = none := by
    rw [pathOwner, disk]
    dsimp only
    rw [Option.map_eq_none_iff, List.find?_eq_none]
    intro other member
    rw [Bool.and_eq_true]
    rintro ⟨-, owns⟩
    cases at_ : other.disk_path with
    | none =>
        rw [at_] at owns
        cases owns
    | some path' =>
        rw [at_] at owns
        exact Bool.false_ne_true (((apart other member).2.1 path' at_).symm.trans owns)
  have uri_ : uriOwner registry.records record = none := by
    rw [uriOwner, named]
    dsimp only
    rw [Option.map_eq_none_iff, List.find?_eq_none]
    intro other member
    rw [Bool.and_eq_true, beq_iff_eq]
    exact fun owns => (apart other member).2.2 owns.2
  have key_ : registry.by_key.find? record.key = none := by
    cases found : registry.by_key.find? record.key with
    | none => rfl
    | some id =>
        obtain ⟨i, other, -, here, same⟩ := (registry.indexed.keyed record.key id).mp found
        exact absurd same (apart other (List.mem_of_getElem? here)).1
  rw [SourceRegistry.register, path_]
  dsimp only
  rw [uri_]
  dsimp only
  split
  case h_1 id found => exact absurd (key_.symm.trans found) nofun
  case h_2 => exact ⟨_, if_pos room, rfl⟩

/-! ### Import graphs -/

/-- The files of a finite import graph: each is on the disk under the name that the graph knows it by, it
parses, and its imports resolve to files of the graph by a fixed rule. -/
structure ImportGraph (env : LoadEnvironment) where
  files : List Path
  imports : Path → List (List String)
  target : Path → List String → Path
  canonical : ∀ p ∈ files, env.canonicalize p = some p
  /-- The front end reads the same imports whatever the file is parsed for. -/
  parses : ∀ p ∈ files, ∀ id registry, ∃ file, env.parse p id registry = .ok file ∧
    file.sources = registry ∧ file.imports.map Import.path = imports p
  /-- A span of a parsed file has the source that the file was parsed for, or none; so translations of
  these can be carried out on the file, one after the other. -/
  spans : ∀ p ∈ files, ∀ id registry file, env.parse p id registry = .ok file →
    ∀ remaps : List SourceIdRemap,
      (∃ id', remaps.foldlM (fun id remap => remap.remap id) 0 = .ok id') →
      (∃ id', remaps.foldlM (fun id remap => remap.remap id) id = .ok id') →
      ∃ file', remaps.foldlM (fun file remap => remap_file_spans remap file) file = .ok file'
  resolves : ∀ p ∈ files, ∀ path ∈ imports p, ∃ found, env.resolve_import_path p path = .ok found ∧
    env.canonicalize found = some (target p path)
  closed : ∀ p ∈ files, ∀ path ∈ imports p, target p path ∈ files
  /-- Different files are different sources. -/
  identified : ∀ p ∈ files, ∀ q ∈ files,
    env.source_key p = env.source_key q ∨ env.source_file_uri p = env.source_file_uri q → p = q
  few : files.length ≤ lastSourceId

variable {env : LoadEnvironment}

/-- The files that a file imports, in the order of its imports. -/
def ImportGraph.edges (graph : ImportGraph env) (p : Path) : List Path :=
  (graph.imports p).map (graph.target p)

variable (graph : ImportGraph env)

variable {p : Path}

theorem normalize_of_canonical (canonical : env.canonicalize path = some p) :
    normalize_source_path env path = p := by
  rw [normalize_source_path, canonical]
  rfl

theorem edges_closed (p : Path) (file : p ∈ graph.files) (q : Path) (edge : q ∈ graph.edges p) :
    q ∈ graph.files := by
  obtain ⟨path, member, rfl⟩ := List.mem_map.mp edge
  exact graph.closed p file path member

/-- The sources of an accumulator are those of the files visited so far. -/
structure Tracks (acc : Acc) (visited : List Path) : Prop where
  inside : ∀ p ∈ visited, p ∈ graph.files
  unknown : ∀ p, p ∉ visited → acc.source_ids p = none
  records : ∀ record ∈ acc.source_registry.records, ∃ p ∈ visited, record.disk_path = some p ∧
    record.key = env.source_key p ∧ record.canonical_uri = some (env.source_file_uri p)

variable {graph}

/-- The registry of a graph's sources has room for another file. -/
theorem Tracks.room {acc : Acc} {visited : List Path} (tracks : Tracks graph acc visited)
    (file : p ∈ graph.files) (new : p ∉ visited) :
    acc.source_registry.records.length + 1 ≤ lastSourceId := by
  have fresh : env.source_key p ∉ acc.source_registry.keys := by
    intro member
    obtain ⟨record, among, same⟩ := List.mem_map.mp member
    obtain ⟨q, old, -, key, -⟩ := tracks.records record among
    obtain rfl := graph.identified p file q (tracks.inside q old) (.inl (same.symm.trans key))
    exact new old
  have distinct : (env.source_key p :: acc.source_registry.keys).Nodup :=
    List.nodup_cons.mpr ⟨fresh, keys_nodup _⟩
  have within : env.source_key p :: acc.source_registry.keys ⊆ graph.files.map env.source_key := by
    intro key member
    rcases List.mem_cons.mp member with rfl | old
    · exact List.mem_map_of_mem file
    · obtain ⟨record, among, rfl⟩ := List.mem_map.mp old
      obtain ⟨q, seen, -, key, -⟩ := tracks.records record among
      rw [key]
      exact List.mem_map_of_mem (tracks.inside q seen)
  have short := (List.subperm_of_subset distinct within).length_le
  rw [List.length_cons, SourceRegistry.keys, List.length_map, List.length_map] at short
  exact short.trans graph.few

/-- A file shares nothing with the sources of other files. -/
theorem Tracks.apart {acc : Acc} {visited : List Path} (tracks : Tracks graph acc visited)
    (file : p ∈ graph.files) (new : p ∉ visited) {record : SourceRecord}
    (among : record ∈ acc.source_registry.records) :
    record.key ≠ env.source_key p ∧
      (∀ path, record.disk_path = some path → paths_equivalent env.canonicalize path p = false) ∧
      record.canonical_uri ≠ some (env.source_file_uri p) := by
  obtain ⟨q, old, disk, key, uri⟩ := tracks.records record among
  have known := tracks.inside q old
  have other : q ≠ p := fun same => new (same ▸ old)
  refine ⟨fun same => ?_, fun path at_ => ?_, fun same => ?_⟩
  · exact other (graph.identified q known p file (.inl (key.symm.trans same)))
  · obtain rfl := Option.some.inj (disk.symm.trans at_)
    rw [paths_equivalent, graph.canonical q known, graph.canonical p file]
    simpa using other
  · rw [uri] at same
    exact other (graph.identified q known p file (.inr (Option.some.inj same)))

/-- A file that has not been visited gets a source of its own. -/
theorem source_id_for_new {acc : Acc} {visited : List Path} (tracks : Tracks graph acc visited)
    (file : p ∈ graph.files) (new : p ∉ visited) (origin : SourceTextOrigin) :
    ∃ acc' id, source_id_for env acc p origin = .ok (acc', id) ∧ acc'.loaded = acc.loaded ∧
      Tracks graph acc' (p :: visited) ∧ id = acc.source_registry.records.length + 1 ∧
      acc'.source_registry.records =
        acc.source_registry.records ++ [{ pathRecord env p origin with id := id }] := by
  have normal := normalize_of_canonical (graph.canonical p file)
  have apart : ∀ record ∈ acc.source_registry.records, record.key ≠ env.source_key p ∧
      (∀ path, record.disk_path = some path → paths_equivalent env.canonicalize path p = false) ∧
      record.canonical_uri ≠ some (env.source_file_uri p) :=
    fun record among => tracks.apart file new among
  obtain ⟨registry, registers, records⟩ := register_new env.canonicalize (pathRecord env p origin)
    rfl rfl apart (tracks.room file new)
  have nowhere : id_for_disk_path env acc.source_registry p = none := by
    rw [id_for_disk_path, Option.map_eq_none_iff, List.find?_eq_none]
    intro record among
    cases at_ : record.disk_path with
    | none => exact Bool.false_ne_true
    | some path =>
        rw [Option.any_some, (apart record among).2.1 path at_]
        exact Bool.false_ne_true
  refine ⟨{ acc with
    source_registry := registry
    source_ids := Function.update acc.source_ids p (some (acc.source_registry.records.length + 1)) },
    acc.source_registry.records.length + 1, ?_, rfl, ?_, rfl, records⟩
  · rw [source_id_for, normal]
    dsimp only
    rw [tracks.unknown p new]
    dsimp only
    rw [nowhere]
    dsimp only
    rw [registers]
  · refine ⟨fun q member => ?_, fun q other => ?_, fun record among => ?_⟩
    · rcases List.mem_cons.mp member with rfl | old
      · exact file
      · exact tracks.inside q old
    · rw [List.mem_cons, not_or] at other
      exact (Function.update_of_ne other.1 _ _).trans (tracks.unknown q other.2)
    · rw [records] at among
      rcases List.mem_append.mp among with old | last
      · obtain ⟨q, seen, facts⟩ := tracks.records record old
        exact ⟨q, List.mem_cons_of_mem _ seen, facts⟩
      · rw [List.mem_singleton.mp last]
        exact ⟨p, List.mem_cons_self, rfl, rfl, rfl⟩

/-! ### The loop over the worklist -/

/-- Where the loop stands, after some files have been visited. -/
structure Walks (graph : ImportGraph env) (loaded : Path → Option LoadedModule) (walk : Walk)
    (visited : List Path) : Prop where
  tracks : Tracks graph walk.acc visited
  seen : ∀ p, walk.visited p = true ↔ p ∈ visited
  kept : walk.acc.loaded = loaded
  parsed : ∀ entry ∈ walk.parsed, entry.1 ∈ graph.files ∧
    ∃ id registry, env.parse entry.1 id registry = .ok entry.2

variable {imports : List Import}

/-- Resolving the imports of a file is pushing its edges. -/
theorem resolveImports_expand {target : List String → Path} {seen : Path → Bool}
    {visited : List Path} (same : ∀ q, seen q = true ↔ q ∈ visited) (chain : List Path)
    (resolves : ∀ i ∈ imports, ∃ found, env.resolve_import_path p i.path = .ok found ∧
      env.canonicalize found = some (target i.path)) (resolved : List (List String × Path)) (stack : List Entry) :
    (∀ w, expand visited chain (imports.map fun i => target i.path) stack = .error w →
      resolveImports env p chain seen imports resolved stack = .error (.circular w)) ∧
    ∀ stack', expand visited chain (imports.map fun i => target i.path) stack = .ok stack' →
      ∃ resolved', resolveImports env p chain seen imports resolved stack =
        .ok (resolved', stack') := by
  induction imports generalizing resolved stack with
  | nil =>
      refine ⟨fun w h => (by cases h), fun stack' h => ?_⟩
      obtain rfl := Except.ok.inj h
      exact ⟨resolved, rfl⟩
  | cons i imports ih =>
      obtain ⟨found, found_eq, canonical⟩ := resolves i List.mem_cons_self
      have normal := normalize_of_canonical canonical
      have later := ih fun i' member => resolves i' (List.mem_cons_of_mem _ member)
      rw [List.map_cons, expand, resolveImports, found_eq]
      dsimp only
      rw [normal]
      by_cases back : target i.path ∈ chain
      · rw [if_pos back, if_pos back]
        refine ⟨fun w h => ?_, fun stack' h => (by cases h)⟩
        obtain rfl := Except.error.inj h
        rfl
      · rw [if_neg back, if_neg back]
        by_cases old : target i.path ∈ visited
        · rw [if_pos old, if_pos ((same _).mpr old)]
          exact later _ _
        · rw [if_neg old, if_neg fun seen => old ((same _).mp seen)]
          exact later _ _

variable {walk : Walk}

/-- A file that is visited is registered and parsed, and its edges are pushed. -/
theorem visitFile_eq {loaded : Path → Option LoadedModule} {visited : List Path}
    (walks : Walks graph loaded walk visited) (file : p ∈ graph.files)
    (new : p ∉ visited) (chain : List Path) (stack : List Entry) :
    (∀ w, expand visited chain (graph.edges p) stack = .error w →
      visitFile env walk p chain stack = .error (.circular w)) ∧
    ∀ stack', expand visited chain (graph.edges p) stack = .ok stack' →
      ∃ walk', visitFile env walk p chain stack = .ok (walk', stack') ∧
        Walks graph loaded walk' (p :: visited) := by
  obtain ⟨acc, id, identified, kept, tracks, -, -⟩ := source_id_for_new walks.tracks file new .disk
  obtain ⟨parsed, parses, -, imports⟩ := graph.parses p file id acc.source_registry
  have among : ∀ i ∈ parsed.imports, i.path ∈ graph.imports p :=
    fun i member => imports ▸ List.mem_map_of_mem member
  have edges : graph.edges p = parsed.imports.map fun i => graph.target p i.path := by
    rw [ImportGraph.edges, ← imports, List.map_map]
    rfl
  have resolve := resolveImports_expand walks.seen chain
    (fun i member => graph.resolves p file i.path (among i member)) [] stack
  rw [edges, visitFile, identified]
  dsimp only
  rw [parses]
  dsimp only
  refine ⟨fun w h => by rw [resolve.1 w h], fun stack' h => ?_⟩
  obtain ⟨resolved, eq⟩ := resolve.2 stack' h
  rw [eq]
  refine ⟨_, rfl, tracks, fun q => ?_, kept.trans walks.kept, fun entry member => ?_⟩
  · have before := walks.seen q
    rw [Walk.visited, Bool.or_eq_true, List.any_eq_true] at before ⊢
    rw [List.mem_cons, ← before, kept]
    simp only [List.mem_append, List.mem_singleton, decide_eq_true_eq]
    constructor
    · rintro (⟨entry, old | rfl, rfl⟩ | known)
      · exact .inr (.inl ⟨entry, old, rfl⟩)
      · exact .inl rfl
      · exact .inr (.inr known)
    · rintro (rfl | ⟨entry, old, rfl⟩ | known)
      · exact .inl ⟨_, .inr rfl, rfl⟩
      · exact .inl ⟨entry, .inl old, rfl⟩
      · exact .inr known
  · rcases List.mem_append.mp member with old | last
    · exact walks.parsed entry old
    · rw [List.mem_singleton.mp last]
      exact ⟨file, id, acc.source_registry, parses⟩

/-- The loop is the search of the graph. -/
theorem walkFiles_eq {loaded : Path → Option LoadedModule} {fuel : Nat} {stack : List Entry}
    {visited : List Path} (walks : Walks graph loaded walk visited)
    (inside : ∀ entry ∈ stack, entry.1 ∈ graph.files) {result : Except Path (List Path)}
    (h : explore graph.edges fuel stack visited = some result) :
    (∃ w, result = .error w ∧ walkFiles env fuel stack walk = some (.error (.circular w))) ∨
      ∃ visited' walk', result = .ok visited' ∧ walkFiles env fuel stack walk = some (.ok walk') ∧
        Walks graph loaded walk' visited' := by
  induction fuel generalizing stack walk visited with
  | zero => cases h
  | succ fuel ih =>
      cases stack with
      | nil =>
          obtain rfl := Option.some.inj h
          exact .inr ⟨visited, walk, rfl, rfl, walks⟩
      | cons entry stack =>
          obtain ⟨p, chain⟩ := entry
          have file := inside _ List.mem_cons_self
          have below : ∀ entry ∈ stack, entry.1 ∈ graph.files :=
            fun entry member => inside entry (List.mem_cons_of_mem _ member)
          rw [explore] at h
          rw [walkFiles]
          by_cases old : p ∈ visited
          · rw [if_pos old] at h
            rw [if_pos ((walks.seen p).mpr old)]
            exact ih walks below h
          · rw [if_neg old] at h
            rw [if_neg fun seen => old ((walks.seen p).mp seen)]
            have visit := visitFile_eq walks file old chain stack
            cases pushes : expand visited chain (graph.edges p) stack with
            | error w =>
                rw [pushes] at h
                obtain rfl := Option.some.inj h
                rw [visit.1 w pushes]
                exact .inl ⟨w, rfl, rfl⟩
            | ok stack' =>
                rw [pushes] at h
                obtain ⟨walk', eq, walks'⟩ := visit.2 stack' pushes
                rw [eq]
                refine ih walks' (fun entry member => ?_) h
                obtain ⟨-, pushed, rfl, shape, -⟩ := expand_ok pushes
                rcases List.mem_append.mp member with new | old'
                · exact edges_closed graph p file _ (shape entry new).1
                · exact below entry old'

/-! ### Loading a file -/

/-- An observation of files that does not look at the identities of sources. -/
structure Observes (graph : ImportGraph env) {C : Type} (content : File → C) : Prop where
  parse : ∀ p ∈ graph.files, ∀ id registry file id' registry' file',
    env.parse p id registry = .ok file → env.parse p id' registry' = .ok file' →
      content file = content file'
  remap : ∀ remap file file', remap_file_spans remap file = .ok file' → content file' = content file
  sources : ∀ (file : File) registry, content { file with sources := registry } = content file

/-- A module that holds what the file on the disk holds. -/
def HoldsFile (env : LoadEnvironment) {C : Type} (content : File → C) (p : Path)
    (module : LoadedModule) : Prop :=
  module.path = p ∧ ∀ id registry file, env.parse p id registry = .ok file →
    content module.file = content file

/-- The accumulator between two files: the files visited are loaded, each as it is on the disk. -/
structure Session (graph : ImportGraph env) (acc : Acc) (visited : List Path) : Prop where
  tracks : Tracks graph acc visited
  known : ∀ p, (acc.loaded p).isSome = true ↔ p ∈ visited
  holds : ∀ {C : Type} (content : File → C), Observes graph content →
    ∀ p module, acc.loaded p = some module → HoldsFile env content p module

theorem registerModules_loaded (env : LoadEnvironment) (entries : List (Path × File)) (acc : Acc) (p : Path) :
    ((entries.foldl (registerModule env) acc).loaded p = acc.loaded p ∧
      ∀ entry ∈ entries, entry.1 ≠ p) ∨
    ∃ entry ∈ entries, entry.1 = p ∧
      (entries.foldl (registerModule env) acc).loaded p = some ⟨entry.1, entry.2⟩ := by
  induction entries generalizing acc with
  | nil => exact .inl ⟨rfl, nofun⟩
  | cons entry entries ih =>
      rw [List.foldl_cons]
      rcases ih (registerModule env acc entry) with ⟨same, none_⟩ | ⟨entry', member, rfl, last⟩
      · by_cases here : entry.1 = p
        · subst here
          refine .inr ⟨entry, List.mem_cons_self, rfl, same.trans ?_⟩
          exact Function.update_self _ _ _
        · refine .inl ⟨same.trans (Function.update_of_ne (Ne.symm here) _ _), fun entry' member => ?_⟩
          rcases List.mem_cons.mp member with rfl | later
          · exact here
          · exact none_ entry' later
      · exact .inr ⟨entry', List.mem_cons_of_mem _ member, rfl, last⟩

theorem registerImports_loaded (env : LoadEnvironment) (paths : List Path) (acc : Acc) :
    (paths.foldl (registerImport env) acc).loaded = acc.loaded ∧
      (paths.foldl (registerImport env) acc).source_ids = acc.source_ids ∧
      (paths.foldl (registerImport env) acc).source_registry = acc.source_registry := by
  induction paths generalizing acc with
  | nil => exact ⟨rfl, rfl, rfl⟩
  | cons path paths ih =>
      rw [List.foldl_cons]
      have one : (registerImport env acc path).loaded = acc.loaded ∧
          (registerImport env acc path).source_ids = acc.source_ids ∧
          (registerImport env acc path).source_registry = acc.source_registry := by
        rw [registerImport]
        split <;> exact ⟨rfl, rfl, rfl⟩
      obtain ⟨loaded, ids, registry⟩ := ih (registerImport env acc path)
      exact ⟨loaded.trans one.1, ids.trans one.2.1, registry.trans one.2.2⟩

theorem registerModules_sources (env : LoadEnvironment) (entries : List (Path × File)) (acc : Acc) :
    (entries.foldl (registerModule env) acc).source_ids = acc.source_ids ∧
      (entries.foldl (registerModule env) acc).source_registry = acc.source_registry := by
  induction entries generalizing acc with
  | nil => exact ⟨rfl, rfl⟩
  | cons entry entries ih => exact ih (registerModule env acc entry)

/-- The files that the loop has parsed are registered as they are on the disk. -/
theorem registerFiles_session {acc : Acc} {visited visited' : List Path}
    (session : Session graph acc visited) (walks : Walks graph acc.loaded walk visited') :
    Session graph (registerFiles env walk) visited' := by
  have imports := registerImports_loaded env
    (walk.import_edges.flatMap fun edge => edge.2.map Prod.snd)
    ((walk.parsed.map fun entry => (entry.1, { entry.2 with sources := walk.acc.source_registry })).foldl
      (registerModule env) walk.acc)
  have sources := registerModules_sources env
    (walk.parsed.map fun entry => (entry.1, { entry.2 with sources := walk.acc.source_registry }))
    walk.acc
  have modules (p : Path) := registerModules_loaded env
    (walk.parsed.map fun entry => (entry.1, { entry.2 with sources := walk.acc.source_registry }))
    walk.acc p
  have seen (p : Path) := walks.seen p
  refine ⟨⟨walks.tracks.inside, fun p new => ?_, fun record among => ?_⟩, fun p => ?_,
    fun content observes p module at_ => ?_⟩
  · rw [registerFiles, imports.2.1, sources.1]
    exact walks.tracks.unknown p new
  · rw [registerFiles, imports.2.2, sources.2] at among
    exact walks.tracks.records record among
  · rw [registerFiles, imports.1, ← seen p, Walk.visited, Bool.or_eq_true, List.any_eq_true]
    rcases modules p with ⟨same, none_⟩ | ⟨entry, member, rfl, last⟩
    · rw [same]
      refine ⟨.inr, ?_⟩
      rintro (⟨entry, member, here⟩ | known)
      · have listed := List.mem_map_of_mem (f := fun entry : Path × File =>
          (entry.1, { entry.2 with sources := walk.acc.source_registry })) member
        have other := none_ _ listed
        exact absurd (of_decide_eq_true here) other
      · exact known
    · rw [last]
      obtain ⟨entry', member', rfl⟩ := List.mem_map.mp member
      exact ⟨fun _ => .inl ⟨entry', member', decide_eq_true rfl⟩, fun _ => rfl⟩
  · rw [registerFiles, imports.1] at at_
    rcases modules p with ⟨same, -⟩ | ⟨entry, member, rfl, last⟩
    · rw [same, walks.kept] at at_
      exact session.holds content observes p module at_
    · obtain rfl := Option.some.inj (last.symm.trans at_)
      obtain ⟨entry', member', rfl⟩ := List.mem_map.mp member
      obtain ⟨file, id, registry, parses⟩ := walks.parsed entry' member'
      refine ⟨rfl, fun id' registry' file' parses' => ?_⟩
      exact (observes.sources _ _).trans (observes.parse _ file _ _ _ _ _ _ parses parses')

/-- Loading a file is searching the graph from it. -/
theorem flow_load_file_eq {acc : Acc} {visited : List Path} (session : Session graph acc visited)
    (canonical : normalize_source_path env path = p) (file : p ∈ graph.files) {fuel : Nat}
    {result : Except Path (List Path)} (h : explore graph.edges fuel [(p, [p])] visited = some result) :
    (∃ w, result = .error w ∧ flow_load_file env fuel acc path = some (.error (.circular w))) ∨
      ∃ visited' acc' module, result = .ok visited' ∧
        flow_load_file env fuel acc path = some (.ok (acc', module)) ∧
        Session graph acc' visited' ∧ acc'.loaded p = some module := by
  rw [flow_load_file, canonical]
  cases cached : acc.loaded p with
  | some module =>
      have old : p ∈ visited := (session.known p).mp (by rw [cached]; rfl)
      have ends : explore graph.edges fuel [(p, [p])] visited = some (.ok visited) := by
        cases fuel with
        | zero => cases h
        | succ fuel =>
            rw [explore, if_pos old] at h ⊢
            cases fuel with
            | zero => cases h
            | succ fuel => rfl
      rw [ends] at h
      obtain rfl := Option.some.inj h
      exact .inr ⟨visited, acc, module, rfl, rfl, session, cached⟩
  | none =>
      have walks : Walks graph acc.loaded ⟨acc, [], []⟩ visited :=
        ⟨session.tracks, session.known, rfl, fun _ member => absurd member List.not_mem_nil⟩
      have inside : ∀ entry ∈ [(p, [p])], entry.1 ∈ graph.files :=
        fun entry member => List.mem_singleton.mp member ▸ file
      rcases walkFiles_eq walks inside h with ⟨w, rfl, eq⟩ | ⟨visited', walk', rfl, eq, walks'⟩
      · dsimp only
        rw [eq]
        exact .inl ⟨w, rfl, rfl⟩
      · have session' := registerFiles_session session walks'
        have here : p ∈ visited' := (explore_visits h).2 _ (List.mem_singleton_self _)
        obtain ⟨module, loaded⟩ := Option.isSome_iff_exists.mp ((session'.known p).mpr here)
        dsimp only
        rw [eq]
        refine .inr ⟨visited', registerFiles env walk', module, rfl, ?_, session', loaded⟩
        rw [Option.map_some]
        dsimp only [bind, Except.bind]
        rw [loaded]
        rfl

/-! ### The main file -/

/-- The parse of the main file's own text: without a registry, or for the registry in which an entry
point registers it. -/
inductive OwnParse (env : LoadEnvironment) (main : Path) (file : File) : Prop where
  | bare (parses : env.parse main 0 .empty = .ok file)
  | registered {id : SourceId} {registry : SourceRegistry}
      (context : source_context_for_path env main = .ok (id, registry))
      (parses : env.parse main id registry = .ok file)

theorem session_new (graph : ImportGraph env) : Session graph .new [] where
  tracks := ⟨nofun, fun _ _ => rfl, nofun⟩
  known _ := ⟨nofun, nofun⟩
  holds _ _ _ _ := nofun

theorem map_of_mapM {α β : Type} {visit : α → Except String α} {g : α → β}
    (keeps : ∀ x x', visit x = .ok x' → g x' = g x) {xs xs' : List α}
    (h : xs.mapM visit = .ok xs') : xs'.map g = xs.map g := by
  induction xs generalizing xs' with
  | nil =>
      obtain rfl := pure_eq_ok.mp h
      rfl
  | cons x xs ih =>
      rw [List.mapM_cons] at h
      obtain ⟨x', first, xs'', rest, rfl⟩ := step₂_eq_ok.mp h
      rw [List.map_cons, List.map_cons, keeps x x' first, ih rest]

theorem remap_imports {remap : SourceIdRemap} {file file' : File}
    (h : remap_file_spans remap file = .ok file') :
    file'.imports.map Import.path = file.imports.map Import.path := by
  obtain ⟨imports, first, items, -, rfl⟩ := step₂_eq_ok.mp h
  refine map_of_mapM (fun i i' h => ?_) first
  obtain ⟨info, -, rfl⟩ := step_eq_ok.mp h
  rfl

variable {main : Path}

/-- The main file is taken over as it is, under a source of its own. -/
theorem adoptMain_eq (here : main ∈ graph.files) {file : File} (own : OwnParse env main file) : ∃ acc file' id,
    adoptMain env .new main file = .ok (acc, file', id) ∧ acc.loaded = Acc.new.loaded ∧
      Tracks graph acc [main] ∧ file'.imports.map Import.path = graph.imports main ∧
      ∀ {C : Type} (content : File → C), Observes graph content →
        ∀ id registry parsed, env.parse main id registry = .ok parsed →
          content file' = content parsed := by
  cases own with
  | bare parses =>
      obtain ⟨parsed, parses', sources, imports⟩ := graph.parses main here 0 .empty
      obtain rfl := Except.ok.inj (parses.symm.trans parses')
      obtain ⟨acc, id, identified, kept, tracks, -, -⟩ :=
        source_id_for_new (session_new graph).tracks here List.not_mem_nil .memory
      obtain ⟨file₂, both⟩ := graph.spans main here 0 .empty file parses
        [SourceIdRemap.default, SourceIdRemap.attach_unknown_to id] ⟨id, rfl⟩ ⟨id, rfl⟩
      rw [List.foldlM_cons] at both
      obtain ⟨file₁, first, rest⟩ := bind_eq_ok.mp both
      rw [List.foldlM_cons] at rest
      obtain ⟨file₂', second, last⟩ := bind_eq_ok.mp rest
      obtain rfl := pure_eq_ok.mp last
      refine ⟨acc, { file₂' with sources := acc.source_registry }, id, ?_, kept, tracks, ?_, ?_⟩
      · have none_ : incomingSource env file main = .ok none := by
          rw [incomingSource, sources]
          rfl
        simp only [adoptMain, none_, first, identified, second, bind, Except.bind, Except.mapError,
          pure, Except.pure]
      · exact (remap_imports second).trans ((remap_imports first).trans imports)
      · intro C content observes id' registry' parsed parses'
        rw [observes.sources, observes.remap _ _ _ second, observes.remap _ _ _ first]
        exact observes.parse main here _ _ _ _ _ _ parses parses'
  | @registered id registry context parses =>
      obtain ⟨acc, id', identified, -, -, first, records⟩ :=
        source_id_for_new (session_new graph).tracks here List.not_mem_nil .disk
      obtain rfl : id' = 1 := first
      have records : acc.source_registry.records = [{ pathRecord env main .disk with id := 1 }] :=
        records
      obtain ⟨rfl, rfl⟩ : id = 1 ∧ registry = acc.source_registry := by
        have known : (acc.source_registry.record 1).isNone = false := by
          rw [SourceRegistry.record, records]
          rfl
        simp only [source_context_for_path, identified, bind, Except.bind, known] at context
        obtain ⟨rfl, rfl⟩ := Prod.mk.inj (Except.ok.inj context)
        exact ⟨rfl, rfl⟩
      obtain ⟨parsed, parses', sources, imports⟩ := graph.parses main here 1 acc.source_registry
      obtain rfl := Except.ok.inj (parses.symm.trans parses')
      obtain ⟨merged, registers, records'⟩ := register_new env.canonicalize
        { pathRecord env main .disk with id := 1 } rfl rfl
        (show ∀ other ∈ SourceRegistry.empty.records, _ from nofun) (by decide)
      have merges : SourceRegistry.empty.merge_from env.canonicalize acc.source_registry =
          (.ok ⟨SortedMap.insert .empty 1 1, none⟩, merged) := by
        rw [SourceRegistry.merge_from, records, SourceRegistry.mergeRecords]
        dsimp only
        rw [if_neg Nat.one_ne_zero, registers]
        rfl
      have incoming : incomingSource env file main = .ok (some 1) := by
        have equivalent : paths_equivalent env.canonicalize main main = true := by
          rw [paths_equivalent, decide_eq_true rfl, Bool.true_or]
        have found : id_for_disk_path env file.sources main = some 1 := by
          rw [sources, id_for_disk_path, records, List.find?_cons_of_pos (by exact equivalent)]
          rfl
        have some_ : file.sources.records.isEmpty = false := by
          rw [sources, records]
          rfl
        rw [incomingSource, some_, if_neg Bool.false_ne_true, found]
        rfl
      obtain ⟨file', translated⟩ := graph.spans main here 1 _ file parses
        [⟨SortedMap.insert .empty 1 1, none⟩] ⟨0, rfl⟩ ⟨1, rfl⟩
      rw [List.foldlM_cons] at translated
      obtain ⟨file₁, remapped, last⟩ := bind_eq_ok.mp translated
      obtain rfl := pure_eq_ok.mp last
      refine ⟨{ Acc.new with source_registry := merged }, { file₁ with sources := merged }, 1, ?_, rfl,
        ?_, ?_, ?_⟩
      · have source : SourceIdRemap.remap ⟨SortedMap.insert .empty 1 1, none⟩ 1 = .ok 1 := rfl
        have fresh : Acc.new.source_registry = .empty := rfl
        simp only [adoptMain, incoming, sources, fresh, merges, remapped, source, bind, Except.bind,
          Except.mapError, pure, Except.pure]
      · refine ⟨fun p member => List.mem_singleton.mp member ▸ here, fun _ _ => rfl,
          fun record among => ⟨main, List.mem_singleton_self main, ?_⟩⟩
        rw [records'] at among
        rw [List.mem_singleton.mp among]
        exact ⟨rfl, rfl, rfl⟩
      · exact (remap_imports remapped).trans imports
      · intro C content observes id' registry' parsed parses'
        rw [observes.sources, observes.remap _ _ _ remapped]
        exact observes.parse main here _ _ _ _ _ _ parses parses'

/-! ### The two searches -/

/-- What loading the imports of the main file comes to. -/
inductive ImportsLoaded (graph : ImportGraph env) (main : Path) (paths : List Path)
    (done : List Path) : Except LoadError Acc → Prop where
  | circular {p : Path} (member : p ∈ paths) (cycle : CycleFrom graph.edges [main] p) (w : Path) :
      ImportsLoaded graph main paths done (.error (.circular w))
  | loaded {acc : Acc} {visited done' : List Path} (session : Session graph acc visited)
      (settled : Settled graph.edges [main] done')
      (seen : ∀ p, p ∈ visited ↔ p ∈ done' ∨ p ∈ [main])
      (more : ∀ p ∈ done, p ∈ done') (covered : ∀ p ∈ paths, p ∈ done' ∨ p ∈ [main])
      (found : ∀ p ∈ done', p ∈ done ∨
        ∃ q ∈ paths, ReflTransGen (EdgeOutside graph.edges [main]) q p) :
      ImportsLoaded graph main paths done (.ok acc)

/-- The fuel that suffices to search from any one file. -/
def ImportGraph.fuel (graph : ImportGraph env) : Nat :=
  (graph.files.map fun p => (graph.edges p).length).sum + 2

theorem explore_fuel (file : p ∈ graph.files) (visited : List Path) {fuel : Nat} (enough : graph.fuel ≤ fuel) :
    ∃ result, explore graph.edges fuel [(p, [p])] visited = some result := by
  refine explore_ends (edges_closed graph)
    (fun entry member => List.mem_singleton.mp member ▸ file) ?_
  have bound : remaining graph.edges graph.files visited ≤
      (graph.files.map fun p => (graph.edges p).length).sum := by
    refine List.Sublist.sum_le_sum (List.Sublist.map _ List.filter_sublist) fun _ _ => Nat.zero_le _
  rw [ImportGraph.fuel] at enough
  rw [List.length_singleton]
  omega

theorem loadImports_eq (here : main ∈ graph.files) {fuel : Nat} (enough : graph.fuel ≤ fuel)
    (among : ∀ i ∈ imports, i.path ∈ graph.imports main) {acc : Acc} {visited done : List Path}
    (session : Session graph acc visited) (settled : Settled graph.edges [main] done)
    (seen : ∀ p, p ∈ visited ↔ p ∈ done ∨ p ∈ [main]) :
    ∃ result, loadImports env fuel main imports acc = some result ∧
      ImportsLoaded graph main (imports.map fun i => graph.target main i.path) done result := by
  induction imports generalizing acc visited done with
  | nil =>
      exact ⟨.ok acc, rfl, .loaded session settled seen (fun _ member => member) nofun
        fun _ member => .inl member⟩
  | cons i imports ih =>
      obtain ⟨path, resolves, canonical⟩ :=
        graph.resolves main here i.path (among i List.mem_cons_self)
      have normal := normalize_of_canonical canonical
      have file := graph.closed main here i.path (among i List.mem_cons_self)
      have later : ∀ i' ∈ imports, i'.path ∈ graph.imports main :=
        fun i' member => among i' (List.mem_cons_of_mem _ member)
      obtain ⟨searched, search⟩ := explore_fuel file visited enough
      rw [loadImports, resolves]
      dsimp only
      rcases flow_load_file_eq session normal file search with
        ⟨w, rfl, eq⟩ | ⟨visited', acc', module, rfl, eq, session', -⟩
      · rw [eq]
        rcases explore_from settled seen search with ⟨-, cycle⟩ | ⟨_, _, ends, -⟩
        · exact ⟨_, rfl, .circular List.mem_cons_self cycle w⟩
        · cases ends
      · rw [eq]
        rcases explore_from settled seen search with ⟨⟨w, fails⟩, -⟩ | ⟨visited'', done', ends, off⟩
        · cases fails
        · obtain rfl := Except.ok.inj ends
          have seen' : ∀ p, p ∈ visited' ↔ p ∈ done' ∨ p ∈ [main] := by
            intro p
            rw [off.seen p, or_iff_right List.not_mem_nil]
          obtain ⟨result, loads, outcome⟩ := ih later session' off.settled seen'
          refine ⟨result, loads, ?_⟩
          cases outcome with
          | circular member cycle w => exact .circular (List.mem_cons_of_mem _ member) cycle w
          | loaded session₂ settled₂ seen₂ more covered found =>
              refine .loaded session₂ settled₂ seen₂ (fun p member => more p (off.more p member))
                (fun p member => ?_) fun p member => ?_
              · rcases List.mem_cons.mp member with rfl | member
                · exact (off.covered _ (List.mem_singleton_self _)).imp_left (more _)
                · exact covered p member
              · rcases found p member with old | ⟨q, listed, path⟩
                · rcases off.found p old with older | path
                  · exact .inl older
                  · exact .inr ⟨_, List.mem_cons_self, path⟩
                · exact .inr ⟨q, List.mem_cons_of_mem _ listed, path⟩

/-- One file imports another. -/
def Imports (graph : ImportGraph env) (p q : Path) : Prop := q ∈ graph.edges p

/-- A cycle of imports can be reached from the main file. -/
def HasCycle (graph : ImportGraph env) (main : Path) : Prop :=
  ∃ p, ReflTransGen (Imports graph) main p ∧ TransGen (Imports graph) p p

/-- A cycle that does not lead through the main file can be reached from it. -/
def HasOtherCycle (graph : ImportGraph env) (main : Path) : Prop :=
  ∃ p, ReflTransGen (Imports graph) main p ∧
    TransGen (fun a b => Imports graph a b ∧ a ≠ main) p p

theorem edgeOutside_nil : EdgeOutside graph.edges [] = Imports graph := by
  funext a b
  exact propext ⟨fun edge => edge.1, fun edge => ⟨edge, List.not_mem_nil⟩⟩

theorem edgeOutside_main (main : Path) :
    EdgeOutside graph.edges [main] = fun a b => Imports graph a b ∧ a ≠ main := by
  funext a b
  rw [EdgeOutside, List.mem_singleton]
  rfl

theorem forget_main :
    (fun a b => Imports graph a b ∧ a ≠ main) ≤ Imports graph := fun _ _ edge => edge.1

/-- A way from the main file to another one goes through one of its imports, and not through it. -/
theorem through_import (path : ReflTransGen (Imports graph) main p) (other : p ≠ main) : ∃ q, Imports graph main q ∧
      ReflTransGen (fun a b => Imports graph a b ∧ a ≠ main) q p := by
  induction path with
  | refl => exact absurd rfl other
  | @tail a b _ edge ih =>
      by_cases same : a = main
      · exact ⟨b, same ▸ edge, .refl⟩
      · obtain ⟨q, first, path⟩ := ih same
        exact ⟨q, first, path.tail ⟨edge, same⟩⟩

/-- The search around the main file fails on the cycles that do not lead through it. -/
theorem cycleFrom_import : (∃ q, Imports graph main q ∧
    CycleFrom graph.edges [main] q) ↔ HasOtherCycle graph main := by
  rw [HasOtherCycle]
  simp only [CycleFrom, edgeOutside_main]
  constructor
  · rintro ⟨q, first, p, path, cycle⟩
    exact ⟨p, .head first (ReflTransGen.mono forget_main _ _ path), cycle⟩
  · rintro ⟨p, path, cycle⟩
    obtain ⟨_, edge, -⟩ := TransGen.head'_iff.mp cycle
    obtain ⟨q, first, path'⟩ := through_import path edge.2
    exact ⟨q, first, p, path', cycle⟩

/-- Where the main file is on no cycle, no cycle leads through it. -/
theorem hasOtherCycle_of_not (off : ¬TransGen (Imports graph) main main)
    (some_ : HasCycle graph main) : HasOtherCycle graph main := by
  obtain ⟨p, path, cycle⟩ := some_
  have avoids : ∀ q, TransGen (Imports graph) p q → ReflTransGen (Imports graph) q p →
      TransGen (fun a b => Imports graph a b ∧ a ≠ main) p q := by
    intro q there
    induction there with
    | single edge =>
        intro back
        refine .single ⟨edge, ?_⟩
        rintro rfl
        exact off cycle
    | @tail a b there edge ih =>
        intro back
        refine (ih (.head edge back)).tail ⟨edge, ?_⟩
        rintro rfl
        exact off (.head' edge (back.trans there.to_reflTransGen))
  exact ⟨p, path, avoids p cycle .refl⟩

/-! ### Fuel -/

/-- With enough fuel, a loader comes to a result. -/
def Settles (run : Nat → Option (Except LoadError (Acc × LoadedModule)))
    (result : Except LoadError (Acc × LoadedModule)) : Prop :=
  ∃ fuel₀, ∀ fuel, fuel₀ ≤ fuel → run fuel = some result

variable {result : Except LoadError (Acc × LoadedModule)}

theorem Settles.unique {run : Nat → Option (Except LoadError (Acc × LoadedModule))}
    {result' : Except LoadError (Acc × LoadedModule)} (settles : Settles run result)
    (settles' : Settles run result') : result = result' := by
  obtain ⟨fuel, h⟩ := settles
  obtain ⟨fuel', h'⟩ := settles'
  have eq := h (max fuel fuel') (Nat.le_max_left _ _)
  rw [h' _ (Nat.le_max_right _ _)] at eq
  exact (Option.some.inj eq).symm

theorem walkFiles_more {fuel fuel' : Nat} (le : fuel ≤ fuel') {stack : List Entry}
    {result : Except LoadError Walk} (h : walkFiles env fuel stack walk = some result) :
    walkFiles env fuel' stack walk = some result := by
  induction fuel generalizing fuel' stack walk with
  | zero => cases h
  | succ fuel ih =>
      obtain ⟨fuel', rfl⟩ : ∃ n, fuel' = n + 1 := ⟨fuel' - 1, by omega⟩
      have le' := Nat.le_of_succ_le_succ le
      cases stack with
      | nil => exact h
      | cons entry stack =>
          obtain ⟨p, chain⟩ := entry
          rw [walkFiles] at h ⊢
          by_cases old : walk.visited p = true
          · rw [if_pos old] at h ⊢
            exact ih le' h
          · rw [if_neg old] at h ⊢
            cases visit : visitFile env walk p chain stack with
            | error error =>
                rw [visit] at h
                exact h
            | ok next =>
                obtain ⟨walk', stack'⟩ := next
                rw [visit] at h
                exact ih le' h

theorem flow_load_file_more {fuel fuel' : Nat} (le : fuel ≤ fuel') {acc : Acc}
    (h : flow_load_file env fuel acc path = some result) :
    flow_load_file env fuel' acc path = some result := by
  rw [flow_load_file] at h ⊢
  dsimp only at h ⊢
  cases cached : acc.loaded (normalize_source_path env path) with
  | some module =>
      rw [cached] at h
      exact h
  | none =>
      rw [cached] at h
      dsimp only at h ⊢
      obtain ⟨walked, walks, eq⟩ := Option.map_eq_some_iff.mp h
      exact Option.map_eq_some_iff.mpr ⟨walked, walkFiles_more le walks, eq⟩

theorem loadImports_more {fuel fuel' : Nat} (le : fuel ≤ fuel') {acc : Acc} {result : Except LoadError Acc}
    (h : loadImports env fuel main imports acc = some result) :
    loadImports env fuel' main imports acc = some result := by
  induction imports generalizing acc with
  | nil => exact h
  | cons i imports ih =>
      rw [loadImports] at h ⊢
      cases resolves : env.resolve_import_path main i.path with
      | error error =>
          rw [resolves] at h
          exact h
      | ok path =>
          rw [resolves] at h
          dsimp only at h ⊢
          cases loads : flow_load_file env fuel acc path with
          | none =>
              rw [loads] at h
              cases h
          | some loaded =>
              rw [loads] at h
              rw [flow_load_file_more le loads]
              cases loaded with
              | error error => exact h
              | ok next =>
                  obtain ⟨acc', module⟩ := next
                  exact ih h

theorem flow_load_main_with_file_settles_of {fuel : Nat} {acc : Acc} {file : File}
    (h : flow_load_main_with_file env fuel acc path file = some result) :
    Settles (flow_load_main_with_file env · acc path file) result := by
  refine ⟨fuel, fun fuel' le => ?_⟩
  rw [flow_load_main_with_file] at h
  dsimp only at h ⊢
  rw [flow_load_main_with_file]
  dsimp only
  cases adopts : adoptMain env acc (normalize_source_path env path) file with
  | error error =>
      rw [adopts] at h
      exact h
  | ok adopted =>
      rw [adopts] at h
      dsimp only at h ⊢
      obtain ⟨loaded, loads, eq⟩ := Option.map_eq_some_iff.mp h
      exact Option.map_eq_some_iff.mpr ⟨loaded, loadImports_more le loads, eq⟩

/-! ### The agreement -/

/-- An accumulator in which exactly what can be reached from the main file is loaded, as it is on the
disk. -/
def LoadsFrom (graph : ImportGraph env) (main : Path) (loaded : Acc × LoadedModule) : Prop :=
  loaded.1.loaded main = some loaded.2 ∧
    ∃ visited, Session graph loaded.1 visited ∧ ∀ p, p ∈ visited ↔ ReflTransGen (Imports graph) main p

theorem no_cycle_of_settled {done : List Path}
    (settled : Settled graph.edges [] done) (member : main ∈ done) : ¬HasCycle graph main := by
  have none_ := settled.no_cycle (.inl member)
  rw [CycleFrom, edgeOutside_nil] at none_
  exact none_

/-- Loading from disk fails on the cycles that can be reached, and loads everything otherwise. -/
theorem flow_load_main_settles (here : main ∈ graph.files) (canonical : env.canonicalize path = some main) :
    (HasCycle graph main ∧
      ∃ w, Settles (flow_load_main env · .new path) (.error (.circular w))) ∨
    (¬HasCycle graph main ∧
      ∃ loaded, Settles (flow_load_main env · .new path) (.ok loaded) ∧
        LoadsFrom graph main loaded) := by
  obtain ⟨searched, search⟩ := explore_fuel here [] (Nat.le_refl graph.fuel)
  have normal := normalize_of_canonical (graph.canonical main here)
  have settles {result : Except LoadError (Acc × LoadedModule)}
      (h : flow_load_file env graph.fuel .new main = some result) :
      Settles (flow_load_main env · .new path) result := by
    refine ⟨graph.fuel, fun fuel le => ?_⟩
    dsimp only
    rw [flow_load_main, canonical]
    exact flow_load_file_more le h
  have start : Settled graph.edges [] ([] : List Path) := trivial
  have outcome := explore_from start (fun p => by rw [or_self]) search
  rcases flow_load_file_eq (session_new graph) normal here search with
    ⟨w, rfl, eq⟩ | ⟨visited, acc, module, rfl, eq, session, loaded⟩
  · rcases outcome with ⟨-, cycle⟩ | ⟨_, _, ends, -⟩
    · rw [CycleFrom, edgeOutside_nil] at cycle
      exact .inl ⟨cycle, w, settles eq⟩
    · cases ends
  · rcases outcome with ⟨⟨w, fails⟩, -⟩ | ⟨visited', done, ends, off⟩
    · cases fails
    · obtain rfl := Except.ok.inj ends
      have seen : ∀ p, p ∈ visited ↔ p ∈ done := by
        intro p
        rw [off.seen p, or_iff_right List.not_mem_nil, or_iff_left List.not_mem_nil]
      have member : main ∈ done :=
        (off.covered _ (List.mem_singleton_self _)).resolve_right List.not_mem_nil
      refine .inr ⟨no_cycle_of_settled off.settled member, (acc, module), settles eq, loaded, visited,
        session, fun p => ?_⟩
      rw [seen p, ← edgeOutside_nil]
      constructor
      · exact fun done_ => (off.found p done_).resolve_left List.not_mem_nil
      · exact fun way => (off.settled.closed (.inl member) way).resolve_right List.not_mem_nil

/-- The session shares its registry with every module that is loaded. -/
theorem shareRegistry_session {acc : Acc} {visited : List Path} (session : Session graph acc visited) :
    Session graph (shareRegistry acc) visited := by
  refine ⟨⟨session.tracks.inside, session.tracks.unknown, session.tracks.records⟩, fun p => ?_,
    fun content observes p module at_ => ?_⟩
  · rw [shareRegistry, Option.isSome_map]
    exact session.known p
  · obtain ⟨module', before, rfl⟩ := Option.map_eq_some_iff.mp at_
    obtain ⟨same, holds⟩ := session.holds content observes p module' before
    exact ⟨same, fun id registry file parses =>
      (observes.sources _ _).trans (holds id registry file parses)⟩

/-- The session in which only the main file is loaded, from memory. -/
theorem adopted_session {acc : Acc} {file : File}
    (fresh : acc.loaded = Acc.new.loaded) (tracks : Tracks graph acc [main])
    (same : ∀ {C : Type} (content : File → C), Observes graph content →
      ∀ id registry parsed, env.parse main id registry = .ok parsed → content file = content parsed)
    (id : SourceId) (modules : String → Option LoadedModule) :
    Session graph { acc with
      source_ids := Function.update acc.source_ids main (some id)
      modules := modules
      loaded := Function.update acc.loaded main (some ⟨main, file⟩) } [main] := by
  refine ⟨⟨tracks.inside, fun p new => ?_, tracks.records⟩, fun p => ?_,
    fun content observes p module at_ => ?_⟩
  · rw [List.mem_singleton] at new
    exact (Function.update_of_ne new _ _).trans
      (tracks.unknown p fun member => new (List.mem_singleton.mp member))
  · rw [List.mem_singleton]
    by_cases here : p = main
    · subst here
      dsimp only
      rw [Function.update_self]
      exact ⟨fun _ => rfl, fun _ => rfl⟩
    · dsimp only
      rw [Function.update_of_ne here, fresh]
      exact ⟨nofun, fun same => absurd same here⟩
  · by_cases here : p = main
    · subst here
      dsimp only at at_
      rw [Function.update_self] at at_
      obtain rfl := Option.some.inj at_
      exact ⟨rfl, fun id registry parsed parses => same content observes id registry parsed parses⟩
    · dsimp only at at_
      rw [Function.update_of_ne here, fresh] at at_
      cases at_

/-- Loading from memory fails on the cycles that do not lead through the main file, and loads everything
otherwise. -/
theorem flow_load_main_with_file_settles (here : main ∈ graph.files)
    (canonical : env.canonicalize path = some main) {file : File} (own : OwnParse env main file) :
    (HasOtherCycle graph main ∧
      ∃ w, Settles (flow_load_main_with_file env · .new path file) (.error (.circular w))) ∨
    (¬HasOtherCycle graph main ∧
      ∃ loaded, Settles (flow_load_main_with_file env · .new path file) (.ok loaded) ∧
        LoadsFrom graph main loaded) := by
  obtain ⟨acc, file', id, adopts, fresh, tracks, imports, same⟩ := adoptMain_eq here own
  have session := adopted_session fresh tracks same id
    (Function.update acc.modules (env.module_key main) (some ⟨main, file'⟩))
  have among : ∀ i ∈ file'.imports, i.path ∈ graph.imports main :=
    fun i member => imports ▸ List.mem_map_of_mem member
  have edges : (file'.imports.map fun i => graph.target main i.path) = graph.edges main := by
    rw [ImportGraph.edges, ← imports, List.map_map]
    rfl
  have start : Settled graph.edges [main] ([] : List Path) := trivial
  obtain ⟨result, loads, outcome⟩ := loadImports_eq here (Nat.le_refl graph.fuel) among session start
    (fun p => by rw [or_iff_right List.not_mem_nil])
  rw [edges] at outcome
  have run : flow_load_main_with_file env graph.fuel .new path file = some (do
      let acc ← result
      let acc := shareRegistry acc
      return (acc, (acc.loaded main).getD ⟨main, file'⟩)) := by
    rw [flow_load_main_with_file, normalize_of_canonical canonical]
    dsimp only
    rw [adopts]
    dsimp only
    rw [loads]
    rfl
  cases outcome with
  | circular member cycle w =>
      exact .inl ⟨cycleFrom_import.mp ⟨_, member, cycle⟩, w,
        flow_load_main_with_file_settles_of run⟩
  | @loaded acc' visited done session' settled seen _ covered found =>
      have shared := shareRegistry_session session'
      have member : main ∈ visited := (seen main).mpr (.inr (List.mem_singleton_self main))
      obtain ⟨module, at_⟩ := Option.isSome_iff_exists.mp ((shared.known main).mpr member)
      refine .inr ⟨fun cycle => ?_, (shareRegistry acc', module),
        flow_load_main_with_file_settles_of (run.trans ?_), at_, visited, shared, fun p => ?_⟩
      · obtain ⟨q, first, cycle⟩ := cycleFrom_import.mpr cycle
        exact settled.no_cycle (covered q first) cycle
      · dsimp only [bind, Except.bind, pure, Except.pure]
        rw [at_]
        rfl
      · rw [seen p, List.mem_singleton]
        constructor
        · rintro (done_ | rfl)
          · obtain ⟨q, first, way⟩ := (found p done_).resolve_left List.not_mem_nil
            rw [edgeOutside_main] at way
            exact .head first (ReflTransGen.mono forget_main _ _ way)
          · exact .refl
        · intro way
          by_cases root : p = main
          · exact .inr root
          · obtain ⟨q, first, way⟩ := through_import way root
            rw [← edgeOutside_main] at way
            exact (settled.closed (covered q first) way).imp_right List.mem_singleton.mp

/-- Both have loaded the same files with the same contents, and return the same main module. -/
def SameModules (graph : ImportGraph env) (disk memory : Acc × LoadedModule) : Prop :=
  (∀ p, (disk.1.loaded p).isSome = (memory.1.loaded p).isSome) ∧
    ∀ {C : Type} (content : File → C), Observes graph content →
      (∀ p module module', disk.1.loaded p = some module → memory.1.loaded p = some module' →
        module.path = module'.path ∧ content module.file = content module'.file) ∧
      disk.2.path = memory.2.path ∧ content disk.2.file = content memory.2.file

theorem LoadsFrom.same {disk memory : Acc × LoadedModule}
    (disk_ : LoadsFrom graph main disk) (memory_ : LoadsFrom graph main memory) :
    SameModules graph disk memory := by
  obtain ⟨main₁, visited₁, session₁, reach₁⟩ := disk_
  obtain ⟨main₂, visited₂, session₂, reach₂⟩ := memory_
  refine ⟨fun p => ?_, fun content observes => ?_⟩
  · rw [Bool.eq_iff_iff, session₁.known p, session₂.known p, reach₁ p, reach₂ p]
  · have files : ∀ p module module', disk.1.loaded p = some module →
        memory.1.loaded p = some module' →
        module.path = module'.path ∧ content module.file = content module'.file := by
      intro p module module' at₁ at₂
      have known : p ∈ visited₁ := (session₁.known p).mp (by rw [at₁]; rfl)
      obtain ⟨file, parses, -⟩ := graph.parses p (session₁.tracks.inside p known) 0 .empty
      obtain ⟨path₁, holds₁⟩ := session₁.holds content observes p module at₁
      obtain ⟨path₂, holds₂⟩ := session₂.holds content observes p module' at₂
      exact ⟨path₁.trans path₂.symm,
        (holds₁ 0 .empty file parses).trans (holds₂ 0 .empty file parses).symm⟩
    exact ⟨files, files main disk.2 memory.2 main₁ main₂⟩

/-- The two entry points agree on a main file: both succeed or neither does, what they load is the same,
and both report a circular dependency exactly when a cycle can be reached. -/
def LoadersAgree (graph : ImportGraph env) (main path : Path) (file : File) : Prop :=
  ∃ disk memory, Settles (flow_load_main env · .new path) disk ∧
    Settles (flow_load_main_with_file env · .new path file) memory ∧
    ((∃ loaded, disk = .ok loaded) ↔ ∃ loaded, memory = .ok loaded) ∧
    (∀ loaded loaded', disk = .ok loaded → memory = .ok loaded' →
      SameModules graph loaded loaded') ∧
    ((∃ p, disk = .error (.circular p)) ↔ HasCycle graph main) ∧
    ((∃ p, memory = .error (.circular p)) ↔ HasCycle graph main)

theorem HasOtherCycle.hasCycle (cycle : HasOtherCycle graph main) :
    HasCycle graph main := by
  obtain ⟨p, way, cycle⟩ := cycle
  exact ⟨p, way, TransGen.mono forget_main _ _ cycle⟩

/-- The loaders agree unless the only cycles that can be reached lead through the main file. -/
theorem loaders_agree_iff (graph : ImportGraph env) {main path : Path} (here : main ∈ graph.files)
    (canonical : env.canonicalize path = some main) {file : File} (own : OwnParse env main file) :
    LoadersAgree graph main path file ↔
      ¬TransGen (Imports graph) main main ∨ HasOtherCycle graph main := by
  constructor
  · rintro ⟨disk, memory, -, settles, -, -, -, circular⟩
    rcases flow_load_main_with_file_settles here canonical own with
      ⟨other, -⟩ | ⟨-, loaded, settles', -⟩
    · exact .inr other
    · refine .inl fun cycle => ?_
      obtain ⟨p, fails⟩ := circular.mpr ⟨main, .refl, cycle⟩
      rw [settles.unique settles'] at fails
      cases fails
  · intro condition
    have other (cycle : HasCycle graph main) : HasOtherCycle graph main :=
      condition.elim (hasOtherCycle_of_not · cycle) id
    rcases flow_load_main_settles here canonical with
      ⟨cycle, w, disk⟩ | ⟨acyclic, loaded, disk, loads⟩
    · rcases flow_load_main_with_file_settles here canonical own with
        ⟨-, w', memory⟩ | ⟨none_, -⟩
      · refine ⟨_, _, disk, memory, ⟨nofun, nofun⟩, nofun, ?_, ?_⟩
        · exact ⟨fun _ => cycle, fun _ => ⟨w, rfl⟩⟩
        · exact ⟨fun _ => cycle, fun _ => ⟨w', rfl⟩⟩
      · exact absurd (other cycle) none_
    · rcases flow_load_main_with_file_settles here canonical own with
        ⟨cycle, -⟩ | ⟨-, loaded', memory, loads'⟩
      · exact absurd cycle.hasCycle acyclic
      · refine ⟨_, _, disk, memory, ⟨fun _ => ⟨loaded', rfl⟩, fun _ => ⟨loaded, rfl⟩⟩, ?_, ?_, ?_⟩
        · intro first second eq₁ eq₂
          obtain rfl := Except.ok.inj eq₁
          obtain rfl := Except.ok.inj eq₂
          exact loads.same loads'
        · exact ⟨nofun, fun cycle => absurd cycle acyclic⟩
        · exact ⟨nofun, fun cycle => absurd cycle acyclic⟩

/-! ### Files that only import -/

/-- The import of a file by its name, with a span of a source. -/
def importOf (id : SourceId) (name : String) : Import :=
  ⟨⟨⟨id, 1, 1, 1, 2⟩, .user, .none⟩, [name], none⟩

/-- A file with nothing but imports. -/
def importing (id : SourceId) (registry : SourceRegistry) (names : List String) : File :=
  ⟨registry, names.map (importOf id), [], false⟩

/-- A file system in which every name is the name of such a file. -/
def namedFiles (imports : String → List String) : LoadEnvironment where
  canonicalize := some
  stdlib_dir := none
  absolute := id
  source_key p := ⟨p.components.headD ""⟩
  source_file_uri p := p.components.headD ""
  module_key p := p.components.headD ""
  resolve_import_path _ path := .ok ⟨path⟩
  parse p id registry := .ok (importing id registry (imports (p.components.headD "")))

theorem remap_importing {remap : SourceIdRemap} {id id' : SourceId} (registry : SourceRegistry)
    (names : List String) (h : remap.remap id = .ok id') :
    remap_file_spans remap (importing id registry names) = .ok (importing id' registry names) := by
  have imports : remap_imports_spans remap (names.map (importOf id)) =
      .ok (names.map (importOf id')) := by
    induction names with
    | nil => rfl
    | cons name names ih =>
        rw [remap_imports_spans] at ih
        have first : remap_meta remap (importOf id name).info = .ok (importOf id' name).info := by
          simp only [remap_meta, remap_span_source, importOf, h, bind, Except.bind, pure, Except.pure]
        rw [remap_imports_spans, List.map_cons, List.mapM_cons, first, ih]
        rfl
  rw [remap_file_spans, importing, imports]
  rfl

theorem remaps_importing {remaps : List SourceIdRemap} {id id' : SourceId}
    (registry : SourceRegistry) (names : List String)
    (h : remaps.foldlM (fun id remap => remap.remap id) id = .ok id') :
    remaps.foldlM (fun file remap => remap_file_spans remap file) (importing id registry names) =
      .ok (importing id' registry names) := by
  induction remaps generalizing id with
  | nil =>
      obtain rfl := pure_eq_ok.mp h
      rfl
  | cons remap remaps ih =>
      rw [List.foldlM_cons] at h ⊢
      obtain ⟨next, first, rest⟩ := bind_eq_ok.mp h
      rw [remap_importing registry names first]
      exact ih rest

/-- The graph of finitely many such files. -/
def namedGraph (imports : String → List String) (names : List String)
    (closed : ∀ name ∈ names, ∀ other ∈ imports name, other ∈ names)
    (few : names.length ≤ lastSourceId) : ImportGraph (namedFiles imports) where
  files := names.map fun name => ⟨[name]⟩
  imports p := (imports (p.components.headD "")).map fun name => [name]
  target _ path := ⟨path⟩
  canonical _ _ := rfl
  parses p _ id registry := by
    refine ⟨_, rfl, rfl, ?_⟩
    rw [importing, List.map_map]
    rfl
  spans p _ id registry file parses remaps _ defined := by
    obtain rfl := Except.ok.inj parses
    obtain ⟨id', defined⟩ := defined
    exact ⟨_, remaps_importing registry _ defined⟩
  resolves _ _ path _ := ⟨⟨path⟩, rfl, rfl⟩
  closed p file path member := by
    obtain ⟨name, among, rfl⟩ := List.mem_map.mp file
    obtain ⟨other, imported, rfl⟩ := List.mem_map.mp member
    exact List.mem_map_of_mem (closed name among other imported)
  identified p file q file' same := by
    obtain ⟨name, -, rfl⟩ := List.mem_map.mp file
    obtain ⟨name', -, rfl⟩ := List.mem_map.mp file'
    have eq : name = name' := by
      rcases same with same | same
      · exact SourceKey.mk.inj same
      · exact same
    rw [eq]
  few := by
    rw [List.length_map]
    exact few

/-- The file `a` imports `b`. -/
def chainImports (name : String) : List String := if name = "a" then ["b"] else []

def chainGraph : ImportGraph (namedFiles chainImports) :=
  namedGraph chainImports ["a", "b"] (by decide) (by decide)

theorem loaders_agree_iff_chain :
    LoadersAgree chainGraph ⟨["a"]⟩ ⟨["a"]⟩ (importing 0 .empty ["b"]) := by
  refine (loaders_agree_iff chainGraph (by decide) rfl (.bare rfl)).mpr (.inl fun cycle => ?_)
  obtain ⟨⟨names⟩, -, last⟩ := TransGen.tail'_iff.mp cycle
  obtain ⟨path, member, same⟩ := List.mem_map.mp last
  obtain ⟨name, among, rfl⟩ := List.mem_map.mp member
  rw [chainImports] at among
  split_ifs at among
  · obtain rfl := List.mem_singleton.mp among
    have eq : (⟨["b"]⟩ : Source.Path) = ⟨["a"]⟩ := same
    exact absurd eq (by decide)
  · cases among

/-- The files `a` and `b` import each other. -/
def ringImports (name : String) : List String :=
  if name = "a" then ["b"] else if name = "b" then ["a"] else []

def ringGraph : ImportGraph (namedFiles ringImports) :=
  namedGraph ringImports ["a", "b"] (by decide) (by decide)

/-- From disk the ring is a circular dependency, from memory it is loaded. -/
theorem loaders_disagree_root_cycle :
    OwnParse (namedFiles ringImports) ⟨["a"]⟩ (importing 0 .empty ["b"]) ∧
    HasCycle ringGraph ⟨["a"]⟩ ∧
    flow_load_main (namedFiles ringImports) 5 .new ⟨["a"]⟩ =
      some (.error (.circular ⟨["a"]⟩)) ∧
    (∃ loaded, flow_load_main_with_file (namedFiles ringImports) 5 .new ⟨["a"]⟩
      (importing 0 .empty ["b"]) = some (.ok loaded)) ∧
    ¬LoadersAgree ringGraph ⟨["a"]⟩ ⟨["a"]⟩ (importing 0 .empty ["b"]) := by
  have there : Imports ringGraph ⟨["a"]⟩ ⟨["b"]⟩ := List.mem_singleton_self _
  have back : Imports ringGraph ⟨["b"]⟩ ⟨["a"]⟩ := List.mem_singleton_self _
  have cycle : HasCycle ringGraph ⟨["a"]⟩ := ⟨_, .refl, .head there (.single back)⟩
  have loads : ∃ loaded, flow_load_main_with_file (namedFiles ringImports) 5 .new ⟨["a"]⟩
      (importing 0 .empty ["b"]) = some (.ok loaded) := ⟨_, rfl⟩
  refine ⟨.bare rfl, cycle, rfl, loads, ?_⟩
  rintro ⟨_, memory, -, settles, -, -, -, circular⟩
  obtain ⟨loaded, loads⟩ := loads
  obtain ⟨p, fails⟩ := circular.mpr cycle
  rw [settles.unique (flow_load_main_with_file_settles_of loads)] at fails
  cases fails

end Mimi.Loader
