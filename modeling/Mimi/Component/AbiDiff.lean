/-
Module: Mimi.Component.AbiDiff
Purpose: The comparison of two versions of a component ABI in component/diff.rs, for any order in
  which its hash maps are visited.
Trusted boundary: the characters that the standard library prints as they are
-/
import Mimi.Component.Abi

namespace Mimi.Component

/-- A single ABI change between two versions. -/
inductive AbiChange where
  | addedExport (name : String)
  | removedExport (name : String)
  | changedExport (name detail : String)
  | addedImport (name : String)
  | removedImport (name : String)
  | changedImport (name detail : String)
  | addedType (name : String)
  | removedType (name : String)
  | changedType (name detail : String)
  | versionBumped (old new : Nat)
deriving Repr, DecidableEq

/-- True if this change requires recompilation. -/
def AbiChange.is_breaking : AbiChange → Bool
  | .removedExport _ => true
  | .changedExport _ _ => true
  | .removedImport _ => true
  | .changedImport _ _ => true
  | .removedType _ => true
  | .changedType _ _ => true
  | _ => false

/-- All detected changes. -/
structure AbiDiff where
  changes : List AbiChange
deriving Repr, DecidableEq

def AbiDiff.has_breaking_changes (diff : AbiDiff) : Bool := diff.changes.any AbiChange.is_breaking

/-- The order in which a hash map is visited: some order of its entries. -/
structure HashOrder where
  visit : ∀ {α : Type}, List (String × α) → List (String × α)
  perm : ∀ {α : Type} (entries : List (String × α)), (visit entries).Perm entries

/-- The entries of a hash map collected from a list; a later entry replaces an earlier one of the
same key. -/
def collect {α : Type} : List (String × α) → List (String × α)
  | [] => []
  | entry :: rest =>
      if (rest.map Prod.fst).contains entry.1 then collect rest else entry :: collect rest

/-- A symbol list as a map from names. -/
def symbolMap (syms : List MimiAbiSymbol) : List (String × MimiAbiSymbol) :=
  collect (syms.map fun s => (s.name, s))

/-- Extract the name from a type definition. -/
def type_name : MimiAbiType → String
  | .struct name _ _ _ => name
  | .enum name _ _ => name
  | .alias_ name _ => name
  | .opaque_ name _ => name

/-- A type list as a map from names. -/
def typeMap (types : List MimiAbiType) : List (String × MimiAbiType) :=
  collect (types.map fun t => (type_name t, t))

section

variable (table : CharTable)

/-- The text of a type in a detail message. -/
def showType (ty : MimiAbiTypeRef) : String := String.ofList (ty.debug table)

/-- The changes between the parameters at equal positions. -/
def paramChanges (make_changed : String → String → AbiChange) (name : String) :
    Nat → List MimiAbiParam → List MimiAbiParam → List AbiChange
  | i, op :: olds, np :: news =>
      let ot := showType table op.ty
      let nt := showType table np.ty
      (if ot ≠ nt then
        [make_changed name ("param " ++ toString i ++ " type " ++ ot ++ " → " ++ nt)] else []) ++
        paramChanges make_changed name (i + 1) olds news
  | _, _, _ => []

/-- The changes of a symbol that both lists have. -/
def signatureChanges (make_changed : String → String → AbiChange) (name : String)
    (old_sym new_sym : MimiAbiSymbol) : List AbiChange :=
  let ort := showType table old_sym.ret
  let nrt := showType table new_sym.ret
  (if old_sym.params.length ≠ new_sym.params.length then
    [make_changed name ("param count " ++ toString old_sym.params.length ++ " → " ++
      toString new_sym.params.length)]
  else paramChanges table make_changed name 0 old_sym.params new_sym.params) ++
    if ort ≠ nrt then [make_changed name ("return type " ++ ort ++ " → " ++ nrt)] else []

/-- The changes of an old symbol, given the new symbol of its name. -/
def symbolChanges (make_removed : String → AbiChange) (make_changed : String → String → AbiChange)
    (name : String) (old_sym : MimiAbiSymbol) : Option MimiAbiSymbol → List AbiChange
  | none => [make_removed name]
  | some new_sym => signatureChanges table make_changed name old_sym new_sym

/-- Compare two symbol lists. -/
def diff_symbols (oldOrder newOrder : HashOrder) (old_syms new_syms : List MimiAbiSymbol)
    (make_added make_removed : String → AbiChange)
    (make_changed : String → String → AbiChange) : List AbiChange :=
  let old_map := symbolMap old_syms
  let new_map := symbolMap new_syms
  ((oldOrder.visit old_map).flatMap fun entry =>
    symbolChanges table make_removed make_changed entry.1 entry.2 (new_map.lookup entry.1)) ++
  ((newOrder.visit new_map).filter fun entry => (old_map.lookup entry.1).isNone).map
    fun entry => make_added entry.1

/-- The change of an old type definition, given the new one of its name: the `Debug` texts are
compared. -/
def typeChanges (name : String) (old_ty : MimiAbiType) : Option MimiAbiType → List AbiChange
  | none => [.removedType name]
  | some new_ty =>
      if old_ty.debug table ≠ new_ty.debug table then
        [.changedType name "definition changed"] else []

/-- Compare two type lists. -/
def diff_types (oldOrder newOrder : HashOrder) (old_tys new_tys : List MimiAbiType) :
    List AbiChange :=
  let old_types := typeMap old_tys
  let new_types := typeMap new_tys
  ((oldOrder.visit old_types).flatMap fun entry =>
    typeChanges table entry.1 entry.2 (new_types.lookup entry.1)) ++
  ((newOrder.visit new_types).filter fun entry => (old_types.lookup entry.1).isNone).map
    fun entry => .addedType entry.1

/-- Compare two versions of an ABI.  Each of the six hash maps has an order of its own. -/
def diff_abi (orders : Fin 6 → HashOrder) (old new : MimiAbi) : AbiDiff where
  changes :=
    (if old.identity.abi_version ≠ new.identity.abi_version then
      [.versionBumped old.identity.abi_version new.identity.abi_version] else []) ++
    diff_symbols table (orders 0) (orders 1) old.exports new.exports .addedExport .removedExport
      .changedExport ++
    diff_symbols table (orders 2) (orders 3) old.imports new.imports .addedImport .removedImport
      .changedImport ++
    diff_types table (orders 4) (orders 5) old.types new.types

end

end Mimi.Component
