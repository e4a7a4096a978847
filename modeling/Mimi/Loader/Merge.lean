/-
Module: Mimi.Loader.Merge
Purpose: The merge of loaded modules into one file, loader/flow.rs: every file is normalised into one
  registry, then the items and the imports are collected.
Trusted boundary: the standard library's directory and the canonicalisation of paths come from the
  environment
-/
import Mimi.Lib.Text
import Mimi.Loader.Remap

namespace Mimi.Loader

open Mimi.Ast Mimi.Source Mimi.Lib

structure File where
  sources : SourceRegistry
  imports : List Import
  items : List Item
  implicit_single : Bool

structure LoadedModule where
  path : Path
  file : File

/-- What the merge asks of its environment. -/
structure Environment where
  canonicalize : Path → Option Path
  stdlib_dir : Option Path

variable (env : Environment)

def remap_file_spans (remap : SourceIdRemap) (file : File) : Except String File := do
  let imports ← remap_imports_spans remap file.imports
  let items ← file.items.mapM (remap_item_spans remap)
  return { file with imports := imports, items := items }

/-- The file in terms of the target registry, and the registry with the file's sources. -/
def remap_file_into_registry (file : File) (target : SourceRegistry) :
    Except String (File × SourceRegistry) :=
  match target.merge_from env.canonicalize file.sources with
  | (.error error, _) => .error s!"cannot merge source registries: {error.display}"
  | (.ok remap, target) => do
      let file ← remap_file_spans remap file
      return ({ file with sources := target }, target)

/-- Under the standard library, or in the package cache. -/
def module_is_dependency (path : Path) : Bool :=
  (match env.stdlib_dir with
    | none => false
    | some std_dir => std_dir.components.isPrefixOf path.components) ||
  (path.components.zip path.components.tail).any fun w => w.1 == ".mimi" && w.2 == "deps"

def item_is_pub : Item → Bool
  | .func f => f.pub_
  | .type td => td.pub_
  | .actor a => a.pub_
  | .const c => c.pub_
  | .flow f => f.pub_
  | .session s => s.pub_
  | .trait _ => true
  | .impl _ => true
  | .externBlock _ => true
  | .cap _ => true

def item_name : Item → Option String
  | .func f => some f.name
  | .type t => some t.name
  | .actor a => some a.name
  | .cap c => some c.name
  | .trait t => some t.name
  | .impl i =>
      let trait_args := join ',' (i.trait_args.map fun ty => Core.fmtType ty.erase)
      some s!"impl:{i.trait_name}:{trait_args}:{i.type_name}"
  | .externBlock _ => none
  | .const c => some c.name
  | .flow f => some f.name
  | .session s => some s.name

/-- Modules in the order of their names. -/
def orderedModules (modules : List (String × LoadedModule)) : List (String × LoadedModule) :=
  modules.insertionSort fun left right => ¬ right.1 < left.1

/-- Every file in terms of one registry, behind its module. -/
def normalizeModules : List (String × LoadedModule) → SourceRegistry →
    Except String (List (LoadedModule × File) × SourceRegistry)
  | [], sources => .ok ([], sources)
  | (_, module) :: modules, sources => do
      let (file, sources) ← remap_file_into_registry env module.file sources
      let (normalized, sources) ← normalizeModules modules sources
      return ((module, file) :: normalized, sources)

/-- The message about an item that several modules have. -/
def duplicateItem (modules : List (String × LoadedModule)) (name : String) : String :=
  let dup_modules := (modules.filter fun entry =>
    entry.2.file.items.any fun item => item_name item == some name).map fun entry =>
      entry.2.path.display
  let sorted := dup_modules.insertionSort fun left right => ¬ right < left
  s!"duplicate item '{name}' found in modules: " ++ ", ".intercalate sorted

/-- The items that one file adds. -/
def collectItems (modules : List (String × LoadedModule)) (is_dep : Bool) :
    List Item → List String → List Item → Except String (List String × List Item)
  | [], seen_names, all_items => .ok (seen_names, all_items)
  | item :: items, seen_names, all_items =>
      if is_dep && !item_is_pub item then collectItems modules is_dep items seen_names all_items
      else
        match item_name item with
        | none => collectItems modules is_dep items seen_names (all_items ++ [item])
        | some name =>
            if name ∈ seen_names then .error (duplicateItem modules name)
            else collectItems modules is_dep items (name :: seen_names) (all_items ++ [item])

/-- What two imports share when the second one is dropped: the path and the effective alias. -/
def importBinding (import_ : Import) : List String × Option String :=
  (import_.path, match import_.alias_ with
    | some name => some name
    | none => import_.path.head?)

/-- The imports that one file adds. -/
def collectImports : List Import → List (List String × Option String) → List Import →
    List (List String × Option String) × List Import
  | [], seen_imports, all_imports => (seen_imports, all_imports)
  | import_ :: imports, seen_imports, all_imports =>
      if importBinding import_ ∈ seen_imports then collectImports imports seen_imports all_imports
      else
        collectImports imports (importBinding import_ :: seen_imports) (all_imports ++ [import_])

/-- What has been collected from the files so far. -/
structure Collected where
  seen_names : List String
  all_items : List Item
  seen_imports : List (List String × Option String)
  all_imports : List Import

def collectFiles (modules : List (String × LoadedModule)) :
    List (LoadedModule × File) → Collected → Except String Collected
  | [], collected => .ok collected
  | (module, file) :: files, collected =>
      match collectItems modules (module_is_dependency env module.path) file.items
          collected.seen_names collected.all_items with
      | .error error => .error error
      | .ok (seen_names, all_items) =>
          let (seen_imports, all_imports) :=
            collectImports file.imports collected.seen_imports collected.all_imports
          collectFiles modules files ⟨seen_names, all_items, seen_imports, all_imports⟩

def flow_merge_all (modules : List (String × LoadedModule)) : Except String File :=
  match normalizeModules env (orderedModules modules) .empty with
  | .error error => .error error
  | .ok (normalized, sources) =>
      match collectFiles env modules normalized ⟨[], [], [], []⟩ with
      | .error error => .error error
      | .ok collected => .ok ⟨sources, collected.all_imports, collected.all_items, false⟩

end Mimi.Loader
