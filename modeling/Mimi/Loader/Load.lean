/-
Module: Mimi.Loader.Load
Purpose: The loading of a main file with everything it imports, loader/flow.rs: from disk, and from a
  file that has been parsed in memory.
Trusted boundary: the file system, the front end (reading, lexing and parsing a file) and the lookups in
  manifests and lockfiles (source keys, module keys, import resolution) come from the environment
-/
import Mimi.Loader.Merge

namespace Mimi.Loader

open Mimi.Ast Mimi.Source Mimi.Lib

inductive LoadError where
  | noMain (path : Path)
  | unidentified (main : Path)
  | merge (error : SourceRegistryError)
  | spans (error : String)
  | mainSource (error : SourceRegistryError)
  | source (error : SourceRegistryError)
  /-- The file cannot be read, lexed or parsed. -/
  | file (error : String)
  | unresolved (error : String)
  | circular (path : Path)
  | notLoaded
deriving DecidableEq, Repr

/-- The text of the diagnostic; that of the system is left out where a path cannot be resolved. -/
def LoadError.message : LoadError → String
  | .noMain path => s!"cannot resolve path {path.display}"
  | .unidentified main =>
      s!"in-memory AST source registry does not identify main file '{main.display}' by disk path, " ++
        "URI, or SourceKey; refusing to guess from registry order"
  | .merge error => s!"cannot merge in-memory source registry: {error.display}"
  | .spans error => error
  | .mainSource error => s!"cannot remap in-memory main source: {error.display}"
  | .source error => error.display
  | .file error => error
  | .unresolved error => error
  | .circular path => s!"circular dependency detected: {path.display} imports itself"
  | .notLoaded => "main file was not loaded"

/-- What the loader asks of its environment. -/
structure LoadEnvironment extends Environment where
  /-- The lexical normalisation of a path that cannot be canonicalised. -/
  absolute : Path → Path
  source_key : Path → SourceKey
  source_file_uri : Path → String
  module_key : Path → String
  resolve_import_path : Path → List String → Except String Path
  /-- Read, lex and parse a file for a source of a registry. -/
  parse : Path → SourceId → SourceRegistry → Except String File

/-- The part of `Acc` that loading changes; its maps are functions. -/
structure Acc where
  loaded : Path → Option LoadedModule
  modules : String → Option LoadedModule
  source_ids : Path → Option SourceId
  source_registry : SourceRegistry

/-- A fresh accumulator. -/
def Acc.new : Acc := ⟨fun _ => none, fun _ => none, fun _ => none, .empty⟩

variable (env : LoadEnvironment)

def normalize_source_path (path : Path) : Path := (env.canonicalize path).getD (env.absolute path)

def source_origin (path : Path) (requested : SourceTextOrigin) : SourceTextOrigin :=
  if requested = .memory then requested
  else if env.stdlib_dir.any fun root => root.components.isPrefixOf path.components then .builtin
  else requested

def id_for_disk_path (self : SourceRegistry) (path : Path) : Option SourceId :=
  (self.records.find? fun record =>
    record.disk_path.any fun candidate => paths_equivalent env.canonicalize candidate path).map
      SourceRecord.id

def id_for_uri (self : SourceRegistry) (uri : String) : Option SourceId :=
  (self.records.find? fun record => record.canonical_uri = some uri).map SourceRecord.id

def id_for_key (self : SourceRegistry) (key : SourceKey) : Option SourceId := self.by_key.find? key

/-- The record under which a path is registered; the registry numbers it. -/
def pathRecord (path : Path) (requested : SourceTextOrigin) : SourceRecord where
  id := 0
  key := env.source_key path
  canonical_uri := some (env.source_file_uri path)
  disk_path := some path
  text_origin := source_origin env path requested

def source_id_for (acc : Acc) (path : Path) (text_origin : SourceTextOrigin) :
    Except SourceRegistryError (Acc × SourceId) :=
  let path := normalize_source_path env path
  let known (acc : Acc) (id : SourceId) : Acc :=
    { acc with source_ids := Function.update acc.source_ids path (some id) }
  match acc.source_ids path with
  | some id => .ok (acc, id)
  | none =>
    match id_for_disk_path env acc.source_registry path with
    | some id => .ok (known acc id, id)
    | none =>
      match acc.source_registry.register env.canonicalize (pathRecord env path text_origin) with
      | .error error => .error error
      | .ok (id, registry) => .ok (known { acc with source_registry := registry } id, id)

/-- The registry that an entry point parses a file for, and the source of the file in it. -/
def source_context_for_path (path : Path) :
    Except SourceRegistryError (SourceId × SourceRegistry) := do
  let (acc, source_id) ← source_id_for env .new path .disk
  if source_id = 0 || (acc.source_registry.record source_id).isNone then
    .error (.unmappedSource source_id)
  else return (source_id, acc.source_registry)

/-! ### Loading from disk -/

/-- An entry of the worklist: a file with the files that led to it, itself last. -/
abbrev Entry := Path × List Path

/-- Resolve the imports of a file: where they lead, and the worklist with those to be visited on top. -/
def resolveImports (file_path : Path) (ancestors : List Path) (visited : Path → Bool) :
    List Import → List (List String × Path) → List Entry →
      Except LoadError (List (List String × Path) × List Entry)
  | [], resolved, worklist => .ok (resolved, worklist)
  | import_ :: imports, resolved, worklist =>
      match env.resolve_import_path file_path import_.path with
      | .error error => .error (.unresolved error)
      | .ok path =>
          let import_path := normalize_source_path env path
          if import_path ∈ ancestors then .error (.circular import_path)
          else
            resolveImports file_path ancestors visited imports
              (resolved ++ [(import_.path, import_path)])
              (if visited import_path then worklist
                else (import_path, ancestors ++ [import_path]) :: worklist)

/-- What the loop over the worklist has gathered; the files are in the order in which they were
parsed. -/
structure Walk where
  acc : Acc
  parsed : List (Path × File)
  import_edges : List (Path × List (List String × Path))

def Walk.visited (walk : Walk) (path : Path) : Bool :=
  walk.parsed.any (fun entry => entry.1 = path) || (walk.acc.loaded path).isSome

/-- One file: register it, parse it and resolve its imports. -/
def visitFile (walk : Walk) (file_path : Path) (ancestors : List Path) (worklist : List Entry) :
    Except LoadError (Walk × List Entry) :=
  match source_id_for env walk.acc file_path .disk with
  | .error error => .error (.source error)
  | .ok (acc, source_id) =>
    match env.parse file_path source_id acc.source_registry with
    | .error error => .error (.file error)
    | .ok file =>
      match resolveImports env file_path ancestors walk.visited file.imports [] worklist with
      | .error error => .error error
      | .ok (resolved, worklist) =>
          .ok (⟨acc, walk.parsed ++ [(file_path, file)],
            walk.import_edges ++ [(file_path, resolved)]⟩, worklist)

/-- The loop over the worklist; without fuel there is no result. -/
def walkFiles : Nat → List Entry → Walk → Option (Except LoadError Walk)
  | 0, _, _ => none
  | _ + 1, [], walk => some (.ok walk)
  | fuel + 1, (file_path, ancestors) :: worklist, walk =>
      if walk.visited file_path then walkFiles fuel worklist walk
      else
        match visitFile env walk file_path ancestors worklist with
        | .error error => some (.error error)
        | .ok (walk, worklist) => walkFiles fuel worklist walk

/-- Register a parsed file as a loaded module. -/
def registerModule (acc : Acc) (entry : Path × File) : Acc :=
  let loaded : LoadedModule := ⟨entry.1, entry.2⟩
  { acc with
    modules := Function.update acc.modules (env.module_key entry.1) (some loaded)
    loaded := Function.update acc.loaded entry.1 (some loaded) }

/-- Make sure that the module of an import is known under its key. -/
def registerImport (acc : Acc) (import_file_path : Path) : Acc :=
  let dep_key := env.module_key import_file_path
  match acc.modules dep_key, acc.loaded import_file_path with
  | none, some dep => { acc with modules := Function.update acc.modules dep_key (some dep) }
  | _, _ => acc

/-- What happens to the files that have been parsed. -/
def registerFiles (walk : Walk) : Acc :=
  let registry := walk.acc.source_registry
  let acc := (walk.parsed.map fun entry => (entry.1, { entry.2 with sources := registry })).foldl
    (registerModule env) walk.acc
  (walk.import_edges.flatMap fun edge => edge.2.map Prod.snd).foldl (registerImport env) acc

/-- Load a file, from the cache or with everything it imports. -/
def flow_load_file (fuel : Nat) (acc : Acc) (path : Path) :
    Option (Except LoadError (Acc × LoadedModule)) :=
  let path := normalize_source_path env path
  match acc.loaded path with
  | some module => some (.ok (acc, module))
  | none =>
      (walkFiles env fuel [(path, [path])] ⟨acc, [], []⟩).map fun result => do
        let walk ← result
        let acc := registerFiles env walk
        match acc.loaded path with
        | some module => return (acc, module)
        | none => throw .notLoaded

def flow_load_main (fuel : Nat) (acc : Acc) (path : Path) :
    Option (Except LoadError (Acc × LoadedModule)) :=
  match env.canonicalize path with
  | none => some (.error (.noMain path))
  | some canonical => flow_load_file env fuel acc canonical

/-! ### Loading around a file in memory -/

/-- The source of a file that brings its registry; `none` for a file without one. -/
def incomingSource (file : File) (canonical : Path) : Except LoadError (Option SourceId) :=
  if file.sources.records.isEmpty then .ok none
  else
    match (id_for_disk_path env file.sources canonical <|>
      id_for_uri file.sources (env.source_file_uri canonical) <|>
      id_for_key file.sources (env.source_key canonical)) with
    | none => .error (.unidentified canonical)
    | some id => .ok (some id)

/-- The translation that is only defined on spans without a source, and keeps them. -/
def SourceIdRemap.default : SourceIdRemap := ⟨.empty, none⟩

def SourceIdRemap.attach_unknown_to (source_id : SourceId) : SourceIdRemap :=
  ⟨.empty, some source_id⟩

/-- Take the main file over into the registry of the session. -/
def adoptMain (acc : Acc) (canonical : Path) (file : File) :
    Except LoadError (Acc × File × SourceId) := do
  match ← incomingSource env file canonical with
  | some incoming =>
      match acc.source_registry.merge_from env.canonicalize file.sources with
      | (.error error, _) => throw (.merge error)
      | (.ok remap, registry) => do
          let file ← (remap_file_spans remap file).mapError .spans
          let source_id ← (remap.remap incoming).mapError .mainSource
          return ({ acc with source_registry := registry },
            { file with sources := registry }, source_id)
  | none =>
      let file ← (remap_file_spans SourceIdRemap.default file).mapError .spans
      let (acc, source_id) ← (source_id_for env acc canonical .memory).mapError .source
      let file ← (remap_file_spans (SourceIdRemap.attach_unknown_to source_id) file).mapError .spans
      return (acc, { file with sources := acc.source_registry }, source_id)

/-- Load the imports of the main file one after another. -/
def loadImports (fuel : Nat) (canonical : Path) :
    List Import → Acc → Option (Except LoadError Acc)
  | [], acc => some (.ok acc)
  | import_ :: imports, acc =>
      match env.resolve_import_path canonical import_.path with
      | .error error => some (.error (.unresolved error))
      | .ok import_path =>
          match flow_load_file env fuel acc import_path with
          | none => none
          | some (.error error) => some (.error error)
          | some (.ok (acc, _)) => loadImports fuel canonical imports acc

/-- Give every module the registry of the session. -/
def shareRegistry (acc : Acc) : Acc :=
  let share (module : LoadedModule) : LoadedModule :=
    { module with file := { module.file with sources := acc.source_registry } }
  { acc with
    loaded := fun path => (acc.loaded path).map share
    modules := fun key => (acc.modules key).map share }

def flow_load_main_with_file (fuel : Nat) (acc : Acc) (path : Path) (file : File) :
    Option (Except LoadError (Acc × LoadedModule)) :=
  let canonical := normalize_source_path env path
  match adoptMain env acc canonical file with
  | .error error => some (.error error)
  | .ok (acc, file, source_id) =>
      let loaded : LoadedModule := ⟨canonical, file⟩
      let acc := { acc with
        source_ids := Function.update acc.source_ids canonical (some source_id)
        modules := Function.update acc.modules (env.module_key canonical) (some loaded)
        loaded := Function.update acc.loaded canonical (some loaded) }
      (loadImports env fuel canonical file.imports acc).map fun result => do
        let acc ← result
        let acc := shareRegistry acc
        return (acc, (acc.loaded canonical).getD loaded)

end Mimi.Loader
