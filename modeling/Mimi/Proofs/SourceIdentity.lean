/-
Module: Mimi.Proofs.SourceIdentity
Purpose: Sources under a merge: registration and merging keep the keys of a registry, and the spans of
  a merged file name the sources they named before, but for those the traversal leaves out.
Trusted boundary: none
-/
import Mimi.Loader.Merge
import Mimi.Proofs.RemapTraversal

namespace Mimi.Source

open Mimi.Lib

variable {canonicalize : Path → Option Path} {self merged merged' other : SourceRegistry}
  {record : SourceRecord} {id : SourceId}

/-! ### Registration -/

/-- Add a key behind the others unless it is among them. -/
def addKey (keys : List SourceKey) (key : SourceKey) : List SourceKey :=
  if key ∈ keys then keys else keys ++ [key]

/-- The key at an identity in a list of keys. -/
def keyAt (keys : List SourceKey) (id : SourceId) : Option SourceKey :=
  if id = 0 then none else keys[id - 1]?

theorem key_eq_keyAt : self.key id = keyAt self.keys id := by
  rw [SourceRegistry.key, SourceRegistry.record, keyAt, SourceRegistry.keys]
  split_ifs
  · rfl
  · rw [List.getElem?_map]

theorem keyAt_addKey {keys : List SourceKey} {key key' : SourceKey}
    (here : keyAt keys id = some key) : keyAt (addKey keys key') id = some key := by
  rw [keyAt] at here ⊢
  split_ifs at here ⊢ with unknown
  rw [addKey]
  split_ifs
  · exact here
  · rw [List.getElem?_append_left (List.getElem?_eq_some_iff.mp here).1, here]

theorem mem_keys_iff {key : SourceKey} :
    key ∈ self.keys ↔ ∃ id, self.by_key.find? key = some id := by
  constructor
  · intro member
    obtain ⟨record, among, rfl⟩ := List.mem_map.mp member
    obtain ⟨i, here⟩ := List.mem_iff_getElem?.mp among
    exact ⟨i + 1, (self.indexed.keyed _ _).mpr ⟨i, record, rfl, here, rfl⟩⟩
  · rintro ⟨id, found⟩
    obtain ⟨record, here, rfl, -⟩ := self.indexed.at_key found
    exact List.mem_map_of_mem (List.mem_of_getElem? here)

/-- Registration gives an identity to the key, and the other keys stay where they are. -/
theorem register_ok (h : self.register canonicalize record = .ok (id, merged)) :
    merged.key id = some record.key ∧ merged.keys = addKey self.keys record.key := by
  rw [SourceRegistry.register] at h
  split at h
  · cases h
  split at h
  · cases h
  split at h
  case h_1 id' found =>
    split at h
    case h_1 here => exact absurd (self.indexed.at_key found) (by simp [here])
    case h_2 existing here =>
      split_ifs at h
      obtain ⟨rfl, rfl⟩ := Prod.mk.inj (Except.ok.inj h)
      obtain ⟨record', here', same, -, known⟩ := self.indexed.at_key found
      obtain rfl : existing = record' := Option.some.inj (here.symm.trans here')
      have keys : (self.records.set (id' - 1) (updated canonicalize existing record)).map
          SourceRecord.key = self.keys := by
        refine List.ext_getElem? fun j => ?_
        rw [SourceRegistry.keys, List.getElem?_map, List.getElem?_map, List.getElem?_set]
        split_ifs with at_ bound
        · rw [← at_, here]
          rfl
        · exact absurd (List.getElem?_eq_some_iff.mp here).1 (at_ ▸ bound)
        · rfl
      have member : record.key ∈ self.keys := mem_keys_iff.mpr ⟨id', found⟩
      refine ⟨?_, ?_⟩
      · rw [key_eq_keyAt, SourceRegistry.keys, keys, keyAt, if_neg known, SourceRegistry.keys,
          List.getElem?_map, here, ← same]
        rfl
      · rw [SourceRegistry.keys, keys, addKey, if_pos member]
  case h_2 found =>
    simp only at h
    split_ifs at h
    obtain ⟨rfl, rfl⟩ := Prod.mk.inj (Except.ok.inj h)
    have fresh : record.key ∉ self.keys := by
      intro member
      obtain ⟨id', found'⟩ := mem_keys_iff.mp member
      rw [found] at found'
      cases found'
    refine ⟨?_, ?_⟩
    · rw [key_eq_keyAt, SourceRegistry.keys, keyAt, if_neg (Nat.succ_ne_zero _)]
      simp
    · rw [addKey, if_neg fresh, SourceRegistry.keys, List.map_append]
      rfl

/-! ### Merging -/

/-- The keys of a registry after those of another one have been added. -/
def addKeys (keys more : List SourceKey) : List SourceKey := more.foldl addKey keys

theorem keyAt_addKeys {keys more : List SourceKey} {key : SourceKey}
    (here : keyAt keys id = some key) : keyAt (addKeys keys more) id = some key := by
  induction more generalizing keys with
  | nil => exact here
  | cons key' more ih => exact ih (keyAt_addKey here)

/-- The identities of one registry are translated to those of their keys in the other. -/
def Translates (own merged : SourceRegistry) (ids : SortedMap SourceId SourceId) : Prop :=
  ∀ i j, ids.find? i = some j → ∃ key, own.key i = some key ∧ merged.key j = some key

theorem mergeRecords_ok {records : List SourceRecord} {ids ids' : SortedMap SourceId SourceId}
    (h : SourceRegistry.mergeRecords canonicalize records merged ids = .ok (merged', ids'))
    (among : ∀ record ∈ records, record ∈ other.records) (translates : Translates other merged ids) :
    merged'.keys = addKeys merged.keys (records.map SourceRecord.key) ∧
      Translates other merged' ids' := by
  induction records generalizing merged ids with
  | nil =>
      obtain ⟨rfl, rfl⟩ := Prod.mk.inj (Except.ok.inj h)
      exact ⟨rfl, translates⟩
  | cons record records ih =>
      obtain ⟨member, rest⟩ := List.forall_mem_cons.mp among
      rw [SourceRegistry.mergeRecords] at h
      split_ifs at h with unknown
      split at h
      case h_1 => cases h
      case h_2 new_id merged₁ registers =>
        obtain ⟨keyed, keys⟩ := register_ok registers
        have grown : ∀ j key, merged.key j = some key → merged₁.key j = some key := by
          intro j key here
          rw [key_eq_keyAt] at here ⊢
          rw [keys]
          exact keyAt_addKey here
        have own : other.key record.id = some record.key := by
          obtain ⟨i, here⟩ := List.mem_iff_getElem?.mp member
          rw [key_eq_keyAt, keyAt, if_neg unknown, other.indexed.dense i record here,
            Nat.add_sub_cancel, SourceRegistry.keys, List.getElem?_map, here]
          rfl
        obtain ⟨keys', translates'⟩ := ih h rest (by
          intro i j found
          rw [SortedMap.find?_insert] at found
          split_ifs at found with same
          · obtain rfl := Option.some.inj found
            exact ⟨record.key, same ▸ own, keyed⟩
          · obtain ⟨key, here, there⟩ := translates i j found
            exact ⟨key, here, grown j key there⟩)
        exact ⟨by rw [keys', keys]; rfl, translates'⟩

/-- A merge adds the keys of the other registry and translates its identities. -/
theorem merge_from_ok {remap : SourceIdRemap}
    (h : self.merge_from canonicalize other = (.ok remap, merged)) :
    merged.keys = addKeys self.keys other.keys ∧ Translates other merged remap.ids ∧
      remap.unknown_target = none := by
  rw [SourceRegistry.merge_from] at h
  split at h
  case h_1 => cases (Prod.mk.inj h).1
  case h_2 merged₁ ids merges =>
    obtain ⟨first, rfl⟩ := Prod.mk.inj h
    obtain rfl := Except.ok.inj first
    have start : Translates other self .empty := fun i j found => by
      rw [SortedMap.find?_empty] at found
      cases found
    obtain ⟨keys, translates⟩ := mergeRecords_ok merges (fun _ member => member) start
    exact ⟨keys, translates, rfl⟩

/-- A merge that fails leaves the registry as it was. -/
theorem merge_from_error {error : SourceRegistryError}
    (h : (self.merge_from canonicalize other).1 = .error error) :
    (self.merge_from canonicalize other).2 = self := by
  rw [SourceRegistry.merge_from] at h ⊢
  split at h
  case h_1 => rfl
  case h_2 => cases h

end Mimi.Source

namespace Mimi.Loader

open Mimi.Ast Mimi.Source Mimi.Lib
open Mimi.Core (Span)

variable {env : Environment} {own merged : SourceRegistry} {remap : SourceIdRemap}

/-! ### What the merged file takes from each module -/

section

variable {α β : Type} [DecidableEq β]

/-- The first element of every tag that has not been seen. -/
def keepFirst (tag : α → β) : List α → List β → List α
  | [], _ => []
  | x :: xs, seen =>
      if tag x ∈ seen then keepFirst tag xs seen else x :: keepFirst tag xs (tag x :: seen)

/-- The tags that have been seen after a list. -/
def seenAfter (tag : α → β) : List α → List β → List β
  | [], seen => seen
  | x :: xs, seen => if tag x ∈ seen then seenAfter tag xs seen else seenAfter tag xs (tag x :: seen)

theorem keepFirst_append {tag : α → β} {xs ys : List α} {seen : List β} :
    keepFirst tag (xs ++ ys) seen =
      keepFirst tag xs seen ++ keepFirst tag ys (seenAfter tag xs seen) := by
  induction xs generalizing seen with
  | nil => rfl
  | cons x xs ih =>
      rw [List.cons_append, keepFirst, keepFirst, seenAfter]
      split_ifs with before
      · exact ih
      · rw [ih, List.cons_append]

theorem keepFirst_forall₂ {α' : Type} {tag : α → β} {tag' : α' → β} {R : α → α' → Prop}
    {xs : List α} {xs' : List α'} {seen : List β} (related : List.Forall₂ R xs xs')
    (same : ∀ x x', R x x' → tag' x' = tag x) :
    List.Forall₂ R (keepFirst tag xs seen) (keepFirst tag' xs' seen) := by
  induction related generalizing seen with
  | nil => exact .nil
  | cons head tail ih =>
      rw [keepFirst, keepFirst, same _ _ head]
      split_ifs with before
      · exact ih
      · exact .cons head ih

end

/-- The items that a module contributes. -/
def contributedItems (env : Environment) (module : LoadedModule) (items : List Item) : List Item :=
  items.filter fun item => !(module_is_dependency env module.path && !item_is_pub item)

/-- The items of the merged file, each with the module it comes from. -/
def contributed (env : Environment) (modules : List (String × LoadedModule)) :
    List (LoadedModule × Item) :=
  (orderedModules modules).flatMap fun entry =>
    (contributedItems env entry.2 entry.2.file.items).map (entry.2, ·)

/-- The first import of every binding, each with the module it comes from. -/
def contributedImports (modules : List (String × LoadedModule)) : List (LoadedModule × Import) :=
  keepFirst (fun origin => importBinding origin.2)
    ((orderedModules modules).flatMap fun entry => entry.2.file.imports.map (entry.2, ·)) []

/-! ### The identity of sources -/

/-- After the merge a span names the source it named in its own module, and an unknown source is
still unknown. -/
structure SameSource (own merged : SourceRegistry) (before after : Spot) : Prop where
  key : merged.key after.span.sourceId = own.key before.span.sourceId
  unknown : before.span.sourceId = 0 → after.span.sourceId = 0

/-- Every span of every node of the merged file names the source it named in its own module. -/
structure SourceIdentityKept (env : Environment) (modules : List (String × LoadedModule))
    (file : File) : Prop where
  items : List.Forall₂ (fun origin item => List.Forall₂
    (SameSource origin.1.file.sources file.sources) (itemSpots origin.2) (itemSpots item))
      (contributed env modules) file.items
  imports : List.Forall₂ (fun origin import_ => List.Forall₂
    (SameSource origin.1.file.sources file.sources) (importSpots origin.2) (importSpots import_))
      (contributedImports modules) file.imports

/-- The distinct keys of all modules, in the order of the modules' names. -/
def distinctKeys (modules : List (String × LoadedModule)) : List SourceKey :=
  addKeys [] ((orderedModules modules).flatMap fun entry => entry.2.file.sources.keys)

/-- The number of every span that the traversal leaves out has, in the list of all keys, the key
that it has in the module of the span. -/
def LeftOutAgree (env : Environment) (modules : List (String × LoadedModule)) : Prop :=
  ∀ origin ∈ contributed env modules, ∀ spot ∈ itemSpots origin.2, spot.reached = false →
    keyAt (distinctKeys modules) spot.span.sourceId = origin.1.file.sources.key spot.span.sourceId

/-! ### One file -/

/-- The other registry has every key where the one has it. -/
def Grows (merged merged' : SourceRegistry) : Prop :=
  ∀ id key, merged.key id = some key → merged'.key id = some key

theorem grows_of_keys {merged' : SourceRegistry} {more : List SourceKey}
    (keys : merged'.keys = addKeys merged.keys more) : Grows merged merged' := by
  intro id key here
  rw [key_eq_keyAt] at here ⊢
  rw [keys]
  exact keyAt_addKeys here

/-- A span before and after a translation between registries. -/
structure Relocated (own merged : SourceRegistry) (before after : Spot) : Prop where
  translated : before.reached = true →
    (before.span.sourceId = 0 ∧ after.span.sourceId = 0) ∨
      ∃ key, own.key before.span.sourceId = some key ∧ merged.key after.span.sourceId = some key
  same : before.reached = false → after.span = before.span

theorem Moved.relocated {before after : Spot} (moved : Moved remap before after)
    (translates : Translates own merged remap.ids) (unknown : remap.unknown_target = none) :
    Relocated own merged before after where
  same := moved.same
  translated reached := by
    have moves := moved.translated reached
    rw [remap_span_source, SourceIdRemap.remap, unknown] at moves
    by_cases zero : before.span.sourceId = 0
    · rw [if_pos zero] at moves
      exact .inl ⟨zero, congrArg Span.sourceId (Except.ok.inj moves).symm⟩
    · rw [if_neg zero] at moves
      cases found : remap.ids.find? before.span.sourceId with
      | none => rw [found] at moves; cases moves
      | some id =>
          rw [found] at moves
          have after_id := congrArg Span.sourceId (Except.ok.inj moves)
          obtain ⟨key, here, there⟩ := translates _ _ found
          exact .inr ⟨key, here, after_id ▸ there⟩

theorem Relocated.grow {before after : Spot} {merged' : SourceRegistry}
    (relocated : Relocated own merged before after) (grows : Grows merged merged') :
    Relocated own merged' before after where
  same := relocated.same
  translated reached := (relocated.translated reached).imp_right fun ⟨key, here, there⟩ =>
    ⟨key, here, grows _ _ there⟩

/-- A span keeps its source when the traversal reaches it, or else when its number has its key in
the other registry. -/
theorem Relocated.sameSource_iff {before after : Spot}
    (relocated : Relocated own merged before after) :
    SameSource own merged before after ↔
      (before.reached = false → merged.key before.span.sourceId = own.key before.span.sourceId) := by
  cases reached : before.reached with
  | false =>
      rw [← relocated.same reached]
      exact ⟨fun same _ => relocated.same reached ▸ same.key, fun agrees =>
        ⟨relocated.same reached ▸ agrees rfl, fun zero => relocated.same reached ▸ zero⟩⟩
  | true =>
      refine iff_of_true ?_ fun impossible => by cases impossible
      rcases relocated.translated reached with ⟨zero, zero'⟩ | ⟨key, here, there⟩
      · exact ⟨by rw [zero, zero']; rfl, fun _ => zero'⟩
      · refine ⟨there.trans here.symm, fun zero => ?_⟩
        rw [zero] at here
        cases here

/-- A node of a file and what the merge makes of it. -/
structure Normal (own merged : SourceRegistry) {α β : Type} (spots : α → List Spot) (tag : α → β)
    (before after : α) : Prop where
  tag : tag after = tag before
  spots : List.Forall₂ (Relocated own merged) (spots before) (spots after)

theorem Normal.grow {α β : Type} {spots : α → List Spot} {tag : α → β} {before after : α}
    {merged' : SourceRegistry} (normal : Normal own merged spots tag before after)
    (grows : Grows merged merged') : Normal own merged' spots tag before after where
  tag := normal.tag
  spots := normal.spots.imp fun _ _ relocated => relocated.grow grows

theorem item_is_pub_remap {item item' : Item} (h : remap_item_spans remap item = .ok item') :
    item_is_pub item' = item_is_pub item := by
  cases item with
  | func function =>
      obtain ⟨function', under, rfl⟩ := step_eq_ok.mp h
      cases function
      simp only [remap_func_spans, bind_eq_ok, pure_eq_ok] at under
      obtain ⟨_, -, _, -, _, -, _, -, _, -, _, -, rfl⟩ := under
      rfl
  | type type_def =>
      obtain ⟨type_def', under, rfl⟩ := step_eq_ok.mp h
      obtain ⟨_, -, _, -, _, -, rfl⟩ := step₃_eq_ok.mp under
      rfl
  | session session =>
      obtain ⟨session', under, rfl⟩ := step_eq_ok.mp h
      obtain ⟨_, -, _, -, rfl⟩ := step₂_eq_ok.mp under
      rfl
  | actor actor =>
      obtain ⟨actor', under, rfl⟩ := step_eq_ok.mp h
      obtain ⟨_, -, _, -, _, -, rfl⟩ := step₃_eq_ok.mp under
      rfl
  | const const =>
      obtain ⟨const', under, rfl⟩ := step_eq_ok.mp h
      obtain ⟨_, -, _, -, _, -, rfl⟩ := step₃_eq_ok.mp under
      rfl
  | flow flow =>
      obtain ⟨flow', under, rfl⟩ := step_eq_ok.mp h
      simp only [remap_flow_spans, bind_eq_ok, pure_eq_ok] at under
      obtain ⟨_, -, _, -, _, -, _, -, _, -, rfl⟩ := under
      rfl
  | cap _ | trait _ | impl _ | externBlock _ =>
      obtain ⟨_, -, rfl⟩ := step_eq_ok.mp h
      rfl

theorem forall₂_of_mapM {α : Type} {visit : α → Except String α} {xs xs' : List α}
    (h : xs.mapM visit = .ok xs') : List.Forall₂ (fun x x' => visit x = .ok x') xs xs' := by
  induction xs generalizing xs' with
  | nil =>
      rw [List.mapM_nil, pure_eq_ok] at h
      subst h
      exact .nil
  | cons x xs ih =>
      rw [List.mapM_cons] at h
      obtain ⟨x', head, rest, tail, rfl⟩ := step₂_eq_ok.mp h
      exact .cons head (ih tail)

/-- A file before and after it is put into terms of the merged registry. -/
structure NormalFile (merged : SourceRegistry) (before after : File) : Prop where
  items : List.Forall₂ (Normal before.sources merged itemSpots item_is_pub) before.items after.items
  imports : List.Forall₂ (Normal before.sources merged importSpots importBinding) before.imports
    after.imports

theorem NormalFile.grow {before after : File} {merged' : SourceRegistry}
    (normal : NormalFile merged before after) (grows : Grows merged merged') :
    NormalFile merged' before after where
  items := normal.items.imp fun _ _ normal => normal.grow grows
  imports := normal.imports.imp fun _ _ normal => normal.grow grows

theorem remap_file_into_registry_ok {file file' : File} {target target' : SourceRegistry}
    (h : remap_file_into_registry env file target = .ok (file', target')) :
    target'.keys = addKeys target.keys file.sources.keys ∧ NormalFile target' file file' := by
  rw [remap_file_into_registry] at h
  split at h
  case h_1 => cases h
  case h_2 remap merged merges =>
    obtain ⟨keys, translates, unknown⟩ := merge_from_ok merges
    obtain ⟨file₁, remaps, same⟩ := step_eq_ok.mp h
    obtain ⟨rfl, rfl⟩ := Prod.mk.inj same
    obtain ⟨imports, importsOk, items, itemsOk, rfl⟩ := step₂_eq_ok.mp remaps
    have moved : ∀ {before after : List Spot}, Moves remap before after →
        List.Forall₂ (Relocated file.sources merged) before after := fun moves =>
      moves.imp fun _ _ moved => moved.relocated translates unknown
    refine ⟨keys, ?_, ?_⟩
    · exact (forall₂_of_mapM itemsOk).imp fun item item' visits =>
        ⟨item_is_pub_remap visits, moved (item_follows item item' visits)⟩
    · refine (forall₂_of_mapM importsOk).imp fun import_ import' visits => ?_
      refine ⟨?_, moved (import_follows import_ import' visits)⟩
      obtain ⟨_, -, rfl⟩ := step_eq_ok.mp visits
      rfl

/-! ### All files -/

variable {modules : List (String × LoadedModule)}

theorem normalizeModules_ok {sources merged : SourceRegistry} {normalized : List (LoadedModule × File)}
    (h : normalizeModules env modules sources = .ok (normalized, merged)) :
    merged.keys = addKeys sources.keys (modules.flatMap fun entry => entry.2.file.sources.keys) ∧
      List.Forall₂ (fun entry p => p.1 = entry.2 ∧ NormalFile merged entry.2.file p.2) modules
        normalized := by
  induction modules generalizing sources normalized with
  | nil =>
      obtain ⟨rfl, rfl⟩ := Prod.mk.inj (Except.ok.inj h)
      exact ⟨rfl, .nil⟩
  | cons entry modules ih =>
      obtain ⟨name, module⟩ := entry
      rw [normalizeModules] at h
      obtain ⟨⟨file, sources₁⟩, fileOk, rest⟩ := bind_eq_ok.mp h
      obtain ⟨⟨normalized₁, merged₁⟩, restOk, same⟩ := step_eq_ok.mp rest
      obtain ⟨rfl, rfl⟩ := Prod.mk.inj same
      obtain ⟨keys, normal⟩ := remap_file_into_registry_ok fileOk
      obtain ⟨keys', normals⟩ := ih restOk
      refine ⟨?_, .cons ⟨rfl, normal.grow (grows_of_keys keys')⟩ normals⟩
      rw [keys', keys, List.flatMap_cons, addKeys, addKeys, addKeys, List.foldl_append]

theorem collectItems_ok {is_dep : Bool} {items all : List Item} {seen seen' : List String} {all' : List Item}
    (h : collectItems modules is_dep items seen all = .ok (seen', all')) :
    all' = all ++ items.filter fun item => !(is_dep && !item_is_pub item) := by
  induction items generalizing seen all with
  | nil =>
      obtain ⟨-, rfl⟩ := Prod.mk.inj (Except.ok.inj h)
      rw [List.filter_nil, List.append_nil]
  | cons item items ih =>
      rw [collectItems] at h
      cases drops : is_dep && !item_is_pub item with
      | true =>
          rw [if_pos drops] at h
          rw [ih h, List.filter_cons_of_neg (by rw [drops]; exact Bool.false_ne_true)]
      | false =>
          rw [if_neg (by rw [drops]; exact Bool.false_ne_true)] at h
          rw [List.filter_cons_of_pos (by rw [drops]; rfl)]
          cases named : item_name item with
          | none =>
              rw [named] at h
              rw [ih h, List.append_assoc, List.singleton_append]
          | some name =>
              rw [named] at h
              simp only at h
              split_ifs at h
              rw [ih h, List.append_assoc, List.singleton_append]

theorem collectImports_eq {imports all : List Import}
    {seen : List (List String × Option String)} :
    collectImports imports seen all =
      (seenAfter importBinding imports seen, all ++ keepFirst importBinding imports seen) := by
  induction imports generalizing seen all with
  | nil => rw [collectImports, seenAfter, keepFirst, List.append_nil]
  | cons import_ imports ih =>
      rw [collectImports, seenAfter, keepFirst]
      split_ifs with before
      · exact ih
      · rw [ih, List.append_assoc, List.singleton_append]

/-- The merged file consists of the contributions of the files, in their order. -/
theorem collectFiles_ok {files : List (LoadedModule × File)} {collected collected' : Collected}
    (h : collectFiles env modules files collected = .ok collected') :
    collected'.all_items = collected.all_items ++
        files.flatMap (fun p => contributedItems env p.1 p.2.items) ∧
      collected'.all_imports = collected.all_imports ++
        keepFirst importBinding (files.flatMap fun p => p.2.imports) collected.seen_imports := by
  induction files generalizing collected with
  | nil =>
      obtain rfl := Except.ok.inj h
      simp only [List.flatMap_nil, keepFirst, List.append_nil, and_self]
  | cons p files ih =>
      obtain ⟨module, file⟩ := p
      rw [collectFiles] at h
      split at h
      case h_1 => cases h
      case h_2 seen_names all_items itemsOk =>
        obtain rfl := collectItems_ok itemsOk
        rw [collectImports_eq] at h
        obtain ⟨items, imports⟩ := ih h
        refine ⟨?_, ?_⟩
        · rw [items, List.flatMap_cons, List.append_assoc]
          rfl
        · rw [imports, List.flatMap_cons, keepFirst_append, List.append_assoc]

/-- Where the nodes of the merged file come from. -/
theorem flow_merge_all_ok {file : File} (merges : flow_merge_all env modules = .ok file) :
    file.sources.keys = distinctKeys modules ∧
      List.Forall₂ (fun origin item => Normal origin.1.file.sources file.sources itemSpots
        item_is_pub origin.2 item) (contributed env modules) file.items ∧
      List.Forall₂ (fun origin import_ => Normal origin.1.file.sources file.sources importSpots
        importBinding origin.2 import_) (contributedImports modules) file.imports := by
  rw [flow_merge_all] at merges
  split at merges
  case h_1 => cases merges
  case h_2 normalized sources normalizes =>
    split at merges
    case h_1 => cases merges
    case h_2 collected collects =>
      obtain rfl := Except.ok.inj merges
      obtain ⟨keys, normals⟩ := normalizeModules_ok normalizes
      obtain ⟨items, imports⟩ := collectFiles_ok collects
      rw [List.nil_append] at items imports
      refine ⟨keys, ?_, ?_⟩
      · rw [items]
        refine List.rel_flatMap normals fun entry p normal => ?_
        obtain ⟨same, normalFile⟩ := normal
        rw [contributedItems, contributedItems, same, List.forall₂_map_left_iff]
        refine List.rel_filter (fun item item' paired => ?_) normalFile.items
        simp only [paired.tag]
      · rw [imports]
        refine keepFirst_forall₂ (List.rel_flatMap normals fun entry p normal => ?_)
          fun origin import_ normal => normal.tag
        rw [List.forall₂_map_left_iff]
        exact normal.2.imports

/-! ### Every span -/

theorem forall₂_sameSource_iff {before after : List Spot}
    (relocated : List.Forall₂ (Relocated own merged) before after) :
    List.Forall₂ (SameSource own merged) before after ↔
      ∀ spot ∈ before, spot.reached = false →
        merged.key spot.span.sourceId = own.key spot.span.sourceId := by
  induction relocated with
  | nil => exact ⟨fun _ spot member => (List.not_mem_nil member).elim, fun _ => .nil⟩
  | cons head tail ih =>
      rw [List.forall₂_cons, List.forall_mem_cons, ih, head.sameSource_iff]

/-- A list of nodes whose spans are relocated keeps its sources when every span that is left out
agrees. -/
theorem forall₂_kept_iff {α β γ : Type} {origins : List γ} {nodes : List α} {node : γ → α}
    {sources : γ → SourceRegistry} {spots : α → List Spot} {tag : α → β}
    (normal : List.Forall₂ (fun origin after => Normal (sources origin) merged spots tag
      (node origin) after) origins nodes) :
    List.Forall₂ (fun origin after => List.Forall₂ (SameSource (sources origin) merged)
      (spots (node origin)) (spots after)) origins nodes ↔
        ∀ origin ∈ origins, ∀ spot ∈ spots (node origin), spot.reached = false →
          merged.key spot.span.sourceId = (sources origin).key spot.span.sourceId := by
  induction normal with
  | nil => exact ⟨fun _ origin member => (List.not_mem_nil member).elim, fun _ => .nil⟩
  | cons head tail ih =>
      rw [List.forall₂_cons, List.forall_mem_cons, ih, forall₂_sameSource_iff head.spots]

/-! ### Two modules with the same number -/

/-- A registry of one source. -/
def oneSource (key : String) : SourceRegistry :=
  let record : SourceRecord := ⟨1, ⟨key⟩, none, none, .disk⟩
  ⟨[record], SortedMap.empty.insert ⟨key⟩ 1, Indexed.push SourceRegistry.Indexed.empty record rfl rfl⟩

/-- A position in the first source of a registry. -/
def firstSource : AstNodeMeta := ⟨⟨1, 2, 9, 2, 10⟩, .user, .none⟩

/-- A function whose body is one loop over the elements of a list. -/
def loopFunction (name : String) : FuncDef :=
  ⟨firstSource, name, false, [], none,
    [.for_ ⟨firstSource, .variable_ "x"⟩ (.ident "xs") []], [], [], [], false, false, none, false,
    false, false⟩

/-- Two modules whose registries both gave the number 1 to their only source. -/
def collidingModules : List (String × LoadedModule) :=
  [("a", ⟨⟨["a.mimi"]⟩, ⟨oneSource "workspace:a.mimi", [], [], false⟩⟩),
    ("b", ⟨⟨["b.mimi"]⟩, ⟨oneSource "workspace:b.mimi", [], [.func (loopFunction "b")], false⟩⟩)]

def noEnvironment : Environment := ⟨fun _ => none, none⟩

/-- When a merge succeeds, every span of the merged file names the source it named in its own module
just when the spans that the traversal leaves out carry numbers with the right keys.  A merge of
registries that fails changes nothing. -/
theorem merged_sources_kept_iff (env : Environment) (modules : List (String × LoadedModule))
    (file : File) (merges : flow_merge_all env modules = .ok file) :
    (SourceIdentityKept env modules file ∧
      ∀ (self other : SourceRegistry) (error : SourceRegistryError),
        (self.merge_from env.canonicalize other).1 = .error error →
          (self.merge_from env.canonicalize other).2 = self) ↔ LeftOutAgree env modules := by
  obtain ⟨keys, items, imports⟩ := flow_merge_all_ok merges
  have key : ∀ id, file.sources.key id = keyAt (distinctKeys modules) id := fun id => by
    rw [key_eq_keyAt, keys]
  have itemsKept := forall₂_kept_iff items
  simp only [key] at itemsKept
  constructor
  · rintro ⟨kept, -⟩
    exact itemsKept.mp kept.items
  · intro agree
    refine ⟨⟨itemsKept.mpr agree, (forall₂_kept_iff imports).mpr ?_⟩, fun _ _ _ => merge_from_error⟩
    intro origin _ spot member impossible
    obtain rfl := List.mem_singleton.mp member
    cases impossible

/-- A function that returns a name. -/
def nameFunction (name : String) : FuncDef :=
  { loopFunction name with
    body := [.located firstSource (.return_ (some (.located firstSource (.ident "x"))))] }

/-- Two such modules without a loop. -/
def siblingModules : List (String × LoadedModule) :=
  [("a", ⟨⟨["a.mimi"]⟩, ⟨oneSource "workspace:a.mimi", [], [.func (nameFunction "a")], false⟩⟩),
    ("b", ⟨⟨["b.mimi"]⟩, ⟨oneSource "workspace:b.mimi", [], [.func (nameFunction "b")], false⟩⟩)]

theorem merged_sources_kept_iff_siblings : ∃ file,
    flow_merge_all noEnvironment siblingModules = .ok file ∧ file.sources.keys.length = 2 ∧
      SourceIdentityKept noEnvironment siblingModules file := by
  have agree : LeftOutAgree noEnvironment siblingModules := by
    unfold LeftOutAgree
    decide
  exact ⟨_, rfl, rfl, ((merged_sources_kept_iff noEnvironment siblingModules _ rfl).mpr agree).1⟩

/-- The variable of a `for` in the second module names the source of the first one after the
merge. -/
theorem loop_variable_changes_source : ∃ file,
    flow_merge_all noEnvironment collidingModules = .ok file ∧
      ¬ SourceIdentityKept noEnvironment collidingModules file := by
  refine ⟨_, rfl, fun kept => ?_⟩
  obtain ⟨function, -⟩ := List.forall₂_cons.mp kept.items
  obtain ⟨-, later⟩ := List.forall₂_cons.mp function
  obtain ⟨loopVariable, -⟩ := List.forall₂_cons.mp later
  exact absurd loopVariable.key (by decide)

end Mimi.Loader
