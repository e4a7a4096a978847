/-
Module: Mimi.Loader.SourceKey
Purpose: The key under which a file is registered as a source, `Acc::source_key` of loader/flow.rs: by the standard
  library, the dependency or the workspace that the file belongs to.
Trusted boundary: the roots come from the manifest and the lockfile, and the hash of a URI is a parameter
-/
import Mimi.Source

namespace Mimi.Loader

open Mimi.Source

/-- The path behind a prefix. -/
def strip_prefix (path root : Path) : Option Path :=
  if root.components.isPrefixOf path.components then some ⟨path.components.drop root.components.length⟩
  else none

def source_relative_path (path : Path) : String :=
  let value := String.ofList (path.display.toList.map fun c => if c = '\\' then '/' else c)
  if value.isEmpty then "<root>" else value

/-- What the accumulator knows about the places of files. -/
structure SourceRoots where
  std_root : Option Path
  /-- The dependencies with a path, in the order of their names. -/
  dep_paths : List (String × Path)
  dependency_identities : String → Option String
  /-- The version of a package in the lockfile. -/
  lock_entries : String → Option String
  /-- The directory of cached dependencies. -/
  deps_root : Path
  workspace_root : Option Path
  external_uri : String → SourceKey

variable (roots : SourceRoots)

namespace SourceRoots

/-- The identity of a dependency with a path. -/
def identity (name : String) : String :=
  (roots.dependency_identities name <|>
    (roots.lock_entries name).map fun version => s!"{name}@{version}").getD name

def stdlibKey (path : Path) : Option SourceKey := do
  let relative ← strip_prefix path (← roots.std_root)
  return ⟨s!"stdlib:{source_relative_path relative}"⟩

/-- The first dependency that the file lies in. -/
def dependencyKey (path : Path) : Option SourceKey :=
  roots.dep_paths.findSome? fun dependency => do
    let relative ← strip_prefix path dependency.2
    return ⟨s!"package:{roots.identity dependency.1}:{source_relative_path relative}"⟩

def cachedKey (path : Path) : Option SourceKey := do
  let relative ← strip_prefix path roots.deps_root
  match relative.components with
  | [] => none
  | package :: module =>
      let version := ((roots.lock_entries package).map fun version => s!"@{version}").getD ""
      return ⟨s!"package:{package}{version}:{source_relative_path ⟨module⟩}"⟩

def workspaceKey (path : Path) : Option SourceKey := do
  let relative ← strip_prefix path (← roots.workspace_root)
  return ⟨s!"workspace:{source_relative_path relative}"⟩

/-- The key of a normalised path with its URI. -/
def source_key (path : Path) (uri : String) : SourceKey :=
  (roots.stdlibKey path <|> roots.dependencyKey path <|> roots.cachedKey path <|>
    roots.workspaceKey path).getD (roots.external_uri uri)

end SourceRoots

end Mimi.Loader
