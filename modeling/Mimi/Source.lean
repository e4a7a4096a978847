/-
Module: Mimi.Source
Purpose: The source registry of span.rs: records with dense identities, registration, and the merge
  of one registry into another with the translation of identities that it returns.
Trusted boundary: canonicalisation of paths is the file system's, a parameter
-/
import Mimi.Lib.SortedMap

namespace Mimi.Source

open Mimi.Lib

/-- 0 is the unknown source. -/
abbrev SourceId := Nat

/-- A path is known by its components, which is what `==` and `starts_with` look at. -/
structure Path where
  components : List String
deriving Repr, DecidableEq

def Path.display (path : Path) : String := "/".intercalate path.components

/-- Stable identity of a source, independent of the order of allocation. -/
structure SourceKey where
  val : String
deriving Repr, DecidableEq

instance : LT SourceKey := ⟨fun a b => a.val < b.val⟩

instance : DecidableLT SourceKey := fun a b => inferInstanceAs (Decidable (a.val < b.val))

inductive SourceTextOrigin where
  | disk | memory | builtin | generated
deriving Repr, DecidableEq

structure SourceRecord where
  id : SourceId
  key : SourceKey
  canonical_uri : Option String
  disk_path : Option Path
  text_origin : SourceTextOrigin
deriving Repr, DecidableEq

inductive SourceRegistryError where
  | exhausted
  | conflictingRecord (key : SourceKey)
  | conflictingPath (path : Path) (existing incoming : SourceKey)
  | conflictingUri (uri : String) (existing incoming : SourceKey)
  | unmappedSource (id : SourceId)
deriving Repr, DecidableEq

def SourceRegistryError.display : SourceRegistryError → String
  | .exhausted => "source registry exhausted u32 SourceId space"
  | .conflictingRecord key => s!"conflicting source record for key '{key.val}'"
  | .conflictingPath path existing incoming =>
      s!"source path '{path.display}' is registered under both '{existing.val}' and '" ++
        incoming.val ++ "'"
  | .conflictingUri uri existing incoming =>
      s!"source URI '{uri}' is registered under both '{existing.val}' and '{incoming.val}'"
  | .unmappedSource id => s!"source id {id} is not present in the registry being merged"

/-- The records of a registry and the index of their keys belong together: a record knows its
place, and a key is indexed at the record that has it. -/
structure Indexed (records : List SourceRecord) (by_key : SortedMap SourceKey SourceId) :
    Prop where
  dense : ∀ i record, records[i]? = some record → record.id = i + 1
  keyed : ∀ key id, by_key.find? key = some id ↔
    ∃ i record, id = i + 1 ∧ records[i]? = some record ∧ record.key = key

/-- Both fields are private in the source: a registry is only built by the operations below. -/
structure SourceRegistry where
  records : List SourceRecord
  by_key : SortedMap SourceKey SourceId
  indexed : Indexed records by_key

namespace SourceRegistry

theorem Indexed.empty : Indexed [] .empty where
  dense i record h := by cases h
  keyed key id := by
    constructor
    · intro h
      cases h
    · rintro ⟨i, record, -, h, -⟩
      cases h

def empty : SourceRegistry := ⟨[], .empty, Indexed.empty⟩

def record (self : SourceRegistry) (id : SourceId) : Option SourceRecord :=
  if id = 0 then none else self.records[id - 1]?

def key (self : SourceRegistry) (id : SourceId) : Option SourceKey :=
  (self.record id).map SourceRecord.key

/-- The keys of the records, in the order of their identities. -/
def keys (self : SourceRegistry) : List SourceKey := self.records.map SourceRecord.key

end SourceRegistry

/-- `canonicalize` stands for the file system. -/
def paths_equivalent (canonicalize : Path → Option Path) (left right : Path) : Bool :=
  left = right ||
    match canonicalize left, canonicalize right with
    | some left, some right => left = right
    | _, _ => false

variable {records : List SourceRecord} {by_key : SortedMap SourceKey SourceId}

/-- A record may change but for its identity and its key. -/
theorem Indexed.set (indexed : Indexed records by_key) {i : Nat} {old new : SourceRecord}
    (here : records[i]? = some old) (id : new.id = old.id) (key : new.key = old.key) :
    Indexed (records.set i new) by_key where
  dense j record h := by
    rw [List.getElem?_set] at h
    split_ifs at h with same bound
    · obtain rfl := Option.some.inj h
      rw [id, ← same]
      exact indexed.dense i old here
    · exact indexed.dense j record h
  keyed k id' := by
    rw [indexed.keyed]
    have bound : i < records.length := (List.getElem?_eq_some_iff.mp here).1
    constructor
    · rintro ⟨j, record, rfl, h, rfl⟩
      by_cases same : i = j
      · obtain rfl : record = old := Option.some.inj (h.symm.trans (same ▸ here))
        exact ⟨j, new, rfl, by rw [List.getElem?_set, if_pos same, if_pos bound], key⟩
      · exact ⟨j, record, rfl, by rw [List.getElem?_set, if_neg same, h], rfl⟩
    · rintro ⟨j, record, rfl, h, rfl⟩
      rw [List.getElem?_set] at h
      split_ifs at h with same
      · obtain rfl := Option.some.inj h
        exact ⟨j, old, rfl, same ▸ here, key.symm⟩
      · exact ⟨j, record, rfl, h, rfl⟩

/-- A record with a new key is put behind the others. -/
theorem Indexed.push (indexed : Indexed records by_key) (record : SourceRecord)
    (new : by_key.find? record.key = none) (id : record.id = records.length + 1) :
    Indexed (records ++ [record]) (by_key.insert record.key (records.length + 1)) where
  dense j other h := by
    rcases Nat.lt_trichotomy j records.length with less | rfl | more
    · rw [List.getElem?_append_left less] at h
      exact indexed.dense j other h
    · rw [List.getElem?_append_right (Nat.le_refl _), Nat.sub_self] at h
      obtain rfl := Option.some.inj h
      exact id
    · rw [List.getElem?_eq_none (by simp; omega)] at h
      cases h
  keyed k id' := by
    rw [SortedMap.find?_insert]
    have last : (records ++ [record])[records.length]? = some record := by
      rw [List.getElem?_append_right (Nat.le_refl _), Nat.sub_self]
      rfl
    split_ifs with same
    · constructor
      · intro h
        obtain rfl := Option.some.inj h
        exact ⟨records.length, record, rfl, last, same.symm⟩
      · rintro ⟨j, other, rfl, h, rfl⟩
        rcases Nat.lt_trichotomy j records.length with less | rfl | more
        · rw [List.getElem?_append_left less] at h
          have found := (indexed.keyed other.key (j + 1)).mpr ⟨j, other, rfl, h, rfl⟩
          rw [same, new] at found
          cases found
        · rfl
        · rw [List.getElem?_eq_none (by simp; omega)] at h
          cases h
    · rw [indexed.keyed]
      constructor
      · rintro ⟨j, other, rfl, h, rfl⟩
        have less : j < records.length := (List.getElem?_eq_some_iff.mp h).1
        exact ⟨j, other, rfl, by rw [List.getElem?_append_left less, h], rfl⟩
      · rintro ⟨j, other, rfl, h, rfl⟩
        rcases Nat.lt_trichotomy j records.length with less | rfl | more
        · rw [List.getElem?_append_left less] at h
          exact ⟨j, other, rfl, h, rfl⟩
        · rw [last] at h
          obtain rfl := Option.some.inj h
          exact absurd rfl same
        · rw [List.getElem?_eq_none (by simp; omega)] at h
          cases h

/-- Where the index points there is the record of the key. -/
theorem Indexed.at_key (indexed : Indexed records by_key) {key : SourceKey} {id : SourceId}
    (found : by_key.find? key = some id) :
    ∃ record, records[id - 1]? = some record ∧ record.key = key ∧ record.id = id ∧ id ≠ 0 := by
  obtain ⟨i, record, rfl, here, same⟩ := (indexed.keyed key id).mp found
  exact ⟨record, here, same, indexed.dense i record here, Nat.succ_ne_zero i⟩

/-- `u32::MAX`. -/
def lastSourceId : Nat := 4294967295

section

variable (canonicalize : Path → Option Path)

/-- Two records of a key agree on where the source comes from. -/
def sameDiskSource (existing record : SourceRecord) : Bool :=
  match existing.disk_path, record.disk_path with
  | some left, some right => paths_equivalent canonicalize left right
  | _, _ => false

def conflicts (existing record : SourceRecord) : Bool :=
  let same_disk_source := sameDiskSource canonicalize existing record
  let uri_conflicts := existing.canonical_uri.isSome && record.canonical_uri.isSome
    && existing.canonical_uri != record.canonical_uri && !same_disk_source
  let path_conflicts :=
    existing.disk_path.isSome && record.disk_path.isSome && !same_disk_source
  let origins_compatible := existing.text_origin == record.text_origin
    || (existing.text_origin == .disk && record.text_origin == .memory)
    || (existing.text_origin == .memory && record.text_origin == .disk)
  uri_conflicts || path_conflicts || !origins_compatible

/-- What an existing record takes over from a new one of its key. -/
def updated (existing record : SourceRecord) : SourceRecord where
  id := existing.id
  key := existing.key
  canonical_uri :=
    if existing.canonical_uri.isNone then record.canonical_uri
    else if sameDiskSource canonicalize existing record && record.canonical_uri.isSome then
      record.canonical_uri
    else existing.canonical_uri
  disk_path := if existing.disk_path.isNone then record.disk_path else existing.disk_path
  text_origin := if record.text_origin = .memory then .memory else existing.text_origin

/-- Another key that owns the path of the record. -/
def pathOwner (records : List SourceRecord) (record : SourceRecord) :
    Option (Path × SourceRecord) :=
  match record.disk_path with
  | none => none
  | some path =>
      (records.find? fun existing => existing.key != record.key &&
        match existing.disk_path with
        | none => false
        | some other => paths_equivalent canonicalize other path).map (path, ·)

/-- Another key that owns the URI of the record. -/
def uriOwner (records : List SourceRecord) (record : SourceRecord) :
    Option (String × SourceRecord) :=
  match record.canonical_uri with
  | none => none
  | some uri =>
      (records.find? fun existing => existing.key != record.key &&
        existing.canonical_uri == some uri).map (uri, ·)

namespace SourceRegistry

def register (self : SourceRegistry) (record : SourceRecord) :
    Except SourceRegistryError (SourceId × SourceRegistry) :=
  match pathOwner canonicalize self.records record with
  | some (path, existing) => .error (.conflictingPath path existing.key record.key)
  | none =>
    match uriOwner self.records record with
    | some (uri, existing) => .error (.conflictingUri uri existing.key record.key)
    | none =>
      match found : self.by_key.find? record.key with
      | some id =>
        match here : self.records[id - 1]? with
        | none => absurd (self.indexed.at_key found) (by simp [here])
        | some existing =>
          if conflicts canonicalize existing record then .error (.conflictingRecord record.key)
          else
            .ok (id, ⟨self.records.set (id - 1) (updated canonicalize existing record), self.by_key,
              self.indexed.set here rfl rfl⟩)
      | none =>
        let id := self.records.length + 1
        if id ≤ lastSourceId then
          .ok (id, ⟨self.records ++ [{ record with id := id }], self.by_key.insert record.key id,
            self.indexed.push { record with id := id } found rfl⟩)
        else .error .exhausted

end SourceRegistry

end

/-- The translation that a merge returns. -/
structure SourceIdRemap where
  ids : SortedMap SourceId SourceId
  unknown_target : Option SourceId
deriving Repr, DecidableEq

def SourceIdRemap.remap (self : SourceIdRemap) (source_id : SourceId) :
    Except SourceRegistryError SourceId :=
  if source_id = 0 then .ok (self.unknown_target.getD 0)
  else
    match self.ids.find? source_id with
    | some id => .ok id
    | none => .error (.unmappedSource source_id)

namespace SourceRegistry

variable (canonicalize : Path → Option Path)

/-- Register the records one after the other, and note what each identity becomes. -/
def mergeRecords : List SourceRecord → SourceRegistry → SortedMap SourceId SourceId →
    Except SourceRegistryError (SourceRegistry × SortedMap SourceId SourceId)
  | [], merged, ids => .ok (merged, ids)
  | record :: records, merged, ids =>
      if record.id = 0 then .error (.unmappedSource record.id)
      else
        match merged.register canonicalize record with
        | .error error => .error error
        | .ok (new_id, merged) => mergeRecords records merged (ids.insert record.id new_id)

/-- The answer, and the registry as the call leaves it. -/
def merge_from (self other : SourceRegistry) :
    Except SourceRegistryError SourceIdRemap × SourceRegistry :=
  match mergeRecords canonicalize other.records self .empty with
  | .error error => (.error error, self)
  | .ok (merged, ids) => (.ok ⟨ids, none⟩, merged)

end SourceRegistry

end Mimi.Source
