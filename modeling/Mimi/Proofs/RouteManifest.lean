/-
Module: Mimi.Proofs.RouteManifest
Purpose: Route receipts and their manifests: what both validators accept, the lines of a manifest,
  the round trip in both directions, and the framed identity.
Trusted boundary: none
-/
import Mimi.Lib.PrefixFree
import Mimi.Mir.RouteReceipt

namespace Mimi.Mir

open Mimi.Core Mimi.Lib

namespace CanonicalMirRouteReceipt

/-! ### What both validators accept -/

/-- The values of the rows and the owners they list are acceptable. -/
structure Admissible (value : String → String) (owners : List NodeId) : Prop where
  schema : value "schema" = routeReceiptSchema
  profile : manifest_atom_is_safe (value "profile") false = true
  digests : ∀ field ∈ digestFields, isDigest (value field) = true
  safe : ∀ owner ∈ owners, manifest_atom_is_safe owner.val true = true
  sorted : anyUnsorted owners = false

/-- The value that the manifest of a receipt has in a row. -/
def value (r : CanonicalMirRouteReceipt) (field : String) : String :=
  (r.manifest_value field).getD ""

/-- The lines of the manifest of a receipt. -/
def manifestLines (r : CanonicalMirRouteReceipt) : List String :=
  manifestHeader :: manifestFields.map fun field => manifestRow field (r.value field)

variable {r : CanonicalMirRouteReceipt} {values : String → String} {owners : List NodeId}
  {text : String} {entries : SortedMap String String}

variable {field : String}

theorem manifest_value_eq_some (known : field ∈ manifestFields) :
    r.manifest_value field = some (r.value field) := by
  simp only [manifestFields, List.mem_cons, List.not_mem_nil, or_false] at known
  rcases known with rfl | rfl | rfl | rfl | rfl | rfl | rfl | rfl | rfl <;> rfl

theorem checkDigest_eq_ok {field : String × String} :
    checkDigest field = .ok () ↔ isDigest field.2 = true := by
  rw [checkDigest, reject_eq_ok, Bool.not_eq_false']

theorem validate_eq_ok : r.validate = .ok () ↔ Admissible r.value r.root_owners := by
  have rows : [("mir_digest", r.mir_digest), ("type_desc_digest", r.type_desc_digest),
      ("abi_digest", r.abi_digest), ("ffi_digest", r.ffi_digest),
      ("ownership_digest", r.ownership_digest),
      ("flow_transition_digest", r.flow_transition_digest)] =
        digestFields.map fun field => (field, r.value field) := rfl
  rw [validate, rows]
  simp only [check_eq_ok, reject_eq_ok, forM_eq_ok, checkDigest_eq_ok, decide_eq_false_iff_not,
    not_not, Bool.not_eq_false', List.any_eq_false, Bool.not_eq_true, List.forall_mem_map]
  constructor
  · rintro ⟨schema, profile, digests, safe, sorted⟩
    exact ⟨schema, profile, digests, safe, sorted⟩
  · intro ok
    exact ⟨ok.schema, ok.profile, ok.digests, ok.safe, ok.sorted⟩

/-- The owners of a row that is not empty. -/
theorem mapM_checkManifestOwner {atoms : List String} {owners : List NodeId} :
    atoms.mapM checkManifestOwner = .ok owners ↔
      owners = atoms.map NodeId.mk ∧ ∀ owner ∈ owners, manifest_atom_is_safe owner.val true = true := by
  induction atoms generalizing owners with
  | nil =>
      rw [List.mapM_nil, List.map_nil]
      constructor
      · intro same
        obtain rfl := Except.ok.inj same
        exact ⟨rfl, fun owner member => (List.not_mem_nil member).elim⟩
      · rintro ⟨rfl, -⟩
        rfl
  | cons atom atoms ih =>
      rw [List.mapM_cons]
      simp only [bind_eq_ok, ih, checkManifestOwner]
      constructor
      · rintro ⟨owner, head, rest, ⟨rfl, safe⟩, last⟩
        split_ifs at head with safeHead
        obtain rfl := Except.ok.inj head
        obtain rfl := Except.ok.inj last
        exact ⟨rfl, List.forall_mem_cons.mpr ⟨safeHead, safe⟩⟩
      · rintro ⟨rfl, safe⟩
        obtain ⟨safeHead, safe⟩ := List.forall_mem_cons.mp safe
        exact ⟨⟨atom⟩, if_pos safeHead, _, ⟨rfl, safe⟩, rfl⟩

theorem requireEntry_eq_ok {value : String} :
    requireEntry entries field = .ok value ↔ entries.find? field = some value := by
  rw [requireEntry]
  cases entries.find? field with
  | none => exact ⟨fun impossible => (by cases impossible), fun impossible => (by cases impossible)⟩
  | some v => exact ⟨fun same => congrArg some (Except.ok.inj same),
      fun same => congrArg Except.ok (Option.some.inj same)⟩

/-- An atom is not empty and holds no separator of the manifest. -/
theorem plain_of_safe {atom : String} {comma : Bool}
    (safe : manifest_atom_is_safe atom comma = true) :
    atom ≠ "" ∧ (∀ c ∈ atom.toList, isControl c = false ∧ isWhitespace c = false ∧ c ≠ '=') ∧
      (comma = true → ',' ∉ atom.toList) := by
  rw [manifest_atom_is_safe, Bool.and_eq_true, Bool.not_eq_true', Bool.not_eq_true',
    List.any_eq_false] at safe
  obtain ⟨notBlank, clean⟩ := safe
  simp only [Bool.or_eq_true, Bool.and_eq_true, beq_iff_eq, not_or, Bool.not_eq_true,
    not_and] at clean
  refine ⟨?_, fun c member => ?_, fun rejects member => ?_⟩
  · rintro rfl
    cases notBlank
  · obtain ⟨⟨⟨control, space⟩, equals⟩, -⟩ := clean c member
    exact ⟨control, space, equals⟩
  · exact (clean ',' member).2 rejects rfl

theorem join_owners_eq_empty (safe : ∀ owner ∈ owners, manifest_atom_is_safe owner.val true = true) :
    join ',' (owners.map NodeId.val) = "" ↔ owners = [] := by
  constructor
  · intro empty
    cases owners with
    | nil => rfl
    | cons owner owners =>
        obtain ⟨nonempty, -⟩ := plain_of_safe (safe owner List.mem_cons_self)
        rw [join, ← String.toList_inj, String.toList_ofList, List.map_cons, List.map_cons] at empty
        refine absurd (String.toList_inj.mp ?_) nonempty
        cases others : (owners.map NodeId.val).map String.toList with
        | nil => rw [others] at empty; simpa using empty
        | cons other others' => rw [others, List.intercalate_cons_cons] at empty; simp at empty
  · rintro rfl
    rfl

theorem split_owners (safe : ∀ owner ∈ owners, manifest_atom_is_safe owner.val true = true)
    (some_ : owners ≠ []) : split ',' (join ',' (owners.map NodeId.val)) = owners.map NodeId.val := by
  refine split_join (fun none => some_ (List.map_eq_nil_iff.mp none)) fun atom member => ?_
  obtain ⟨owner, among, rfl⟩ := List.mem_map.mp member
  exact (plain_of_safe (safe owner among)).2.2 rfl

theorem manifestOwners_eq_ok {atoms : String} : manifestOwners atoms = .ok owners ↔
    atoms = join ',' (owners.map NodeId.val) ∧
      ∀ owner ∈ owners, manifest_atom_is_safe owner.val true = true := by
  rw [manifestOwners]
  constructor
  · intro reads
    split_ifs at reads with empty
    · obtain rfl := Except.ok.inj reads
      exact ⟨empty, fun owner member => (List.not_mem_nil member).elim⟩
    · obtain ⟨rfl, safe⟩ := mapM_checkManifestOwner.mp reads
      have same : ((split ',' atoms).map NodeId.mk).map NodeId.val = split ',' atoms := by
        rw [List.map_map]
        exact List.map_id _
      exact ⟨by rw [same, join_split], safe⟩
  · rintro ⟨rfl, safe⟩
    split_ifs with empty
    · rw [(join_owners_eq_empty safe).mp empty]
    · rw [split_owners safe fun none => empty ((join_owners_eq_empty safe).mpr none)]
      refine mapM_checkManifestOwner.mpr ⟨?_, safe⟩
      rw [List.map_map]
      exact (List.map_id _).symm

theorem validate_manifest_values_eq_ok
    (all : ∀ field ∈ manifestFields, entries.find? field = some (values field)) :
    validate_manifest_values entries = .ok () ↔ ∃ owners, Admissible values owners ∧
      values "root_owners" = join ',' (owners.map NodeId.val) := by
  have entry : ∀ field ∈ manifestFields, requireEntry entries field = .ok (values field) :=
    fun field known => requireEntry_eq_ok.mpr (all field known)
  have digest : ∀ field ∈ digestFields, (checkManifestDigest entries field = .ok () ↔
      isDigest (values field) = true) := by
    intro field known
    have known' : field ∈ manifestFields := by
      revert field
      decide
    rw [checkManifestDigest, entry field known']
    exact reject_eq_ok.trans (iff_of_eq (Bool.not_eq_false' _))
  have start : ∀ {β : Type} (a : String) (f : String → Except String β),
      (Except.ok a >>= f) = f a := fun a f => rfl
  rw [validate_manifest_values, entry "schema" (by decide), start, check_eq_ok, reject_eq_ok,
    entry "profile" (by decide), start, check_eq_ok, reject_eq_ok, check_eq_ok, forM_eq_ok,
    forall₂_congr digest, entry "root_owners" (by decide), start, bind_eq_ok]
  simp only [reject_eq_ok, manifestOwners_eq_ok, decide_eq_false_iff_not, not_not,
    Bool.not_eq_false']
  constructor
  · rintro ⟨schema, profile, digests, owners, ⟨row, safe⟩, sorted⟩
    exact ⟨owners, ⟨schema, profile, digests, safe, sorted⟩, row⟩
  · rintro ⟨owners, ok, row⟩
    exact ⟨ok.schema, ok.profile, ok.digests, owners, ⟨row, ok.safe⟩, ok.sorted⟩

/-! ### The rows of a manifest -/

theorem plain_manifestFields : ∀ field ∈ manifestFields, '=' ∉ field.toList := by
  decide

theorem manifestFields_nodup : manifestFields.Nodup := by
  decide

theorem split_once_manifestRow {value line : String} (known : field ∈ manifestFields) :
    split_once '=' line = some (field, value) ↔ line = manifestRow field value := by
  rw [split_once_eq_some]
  exact and_iff_right (plain_manifestFields field known)

/-- The entries of a list of rows. -/
def entriesOf (fields : List String) (values : String → String)
    (entries : SortedMap String String) : SortedMap String String :=
  fields.foldl (fun entries field => entries.insert field (values field)) entries

variable {fields : List String}

theorem find?_entriesOf (field : String) :
    (entriesOf fields values entries).find? field =
      if field ∈ fields then some (values field) else entries.find? field := by
  induction fields generalizing entries with
  | nil => rw [entriesOf, List.foldl_nil, if_neg List.not_mem_nil]
  | cons first fields ih =>
      rw [entriesOf, List.foldl_cons]
      rw [← entriesOf, ih, SortedMap.find?_insert]
      by_cases later : field ∈ fields
      · rw [if_pos later, if_pos (List.mem_cons_of_mem _ later)]
      · by_cases same : field = first
        · rw [if_neg later, if_pos same, if_pos (List.mem_cons.mpr (.inl same)), same]
        · rw [if_neg later, if_neg same, if_neg fun among => (List.mem_cons.mp among).elim same later]

theorem entriesOf_congr {values' : String → String} (same : ∀ field ∈ fields, values field = values' field) :
    entriesOf fields values entries = entriesOf fields values' entries :=
  List.foldl_ext _ _ _ fun e field member => by rw [same field member]

/-- Reading succeeds on the rows of the expected fields, in their order. -/
theorem parseRows_eq_ok {rows rest : List String} {row : Nat}
    {entries entries' : SortedMap String String} {seen : SortedSet String}
    (distinct : fields.Nodup) (known : ∀ field ∈ fields, field ∈ manifestFields)
    (new : ∀ field ∈ fields, field ∉ seen) :
    parseRows fields row rows entries seen = .ok (entries', rest) ↔ ∃ values : String → String,
      rows = (fields.map fun field => manifestRow field (values field)) ++ rest ∧
        entries' = entriesOf fields values entries := by
  induction fields generalizing row rows entries seen with
  | nil =>
      rw [parseRows]
      constructor
      · intro same
        obtain ⟨rfl, rfl⟩ := Prod.mk.inj (Except.ok.inj same)
        exact ⟨fun _ => "", rfl, rfl⟩
      · rintro ⟨_, rfl, rfl⟩
        rfl
  | cons field fields ih =>
      obtain ⟨fresh, distinctTail⟩ := List.nodup_cons.mp distinct
      obtain ⟨knownHead, knownTail⟩ := List.forall_mem_cons.mp known
      obtain ⟨newHead, newTail⟩ := List.forall_mem_cons.mp new
      have rest_new : ∀ f ∈ fields, f ∉ seen.insert field := by
        intro f member among
        rcases SortedSet.mem_insert.mp among with rfl | before
        · exact fresh member
        · exact newTail f member before
      cases rows with
      | nil =>
          constructor
          · intro impossible
            cases impossible
          · rintro ⟨_, impossible, -⟩
            cases impossible
      | cons line rows =>
          rw [parseRows]
          constructor
          · intro reads
            cases splits : split_once '=' line with
            | none => rw [splits] at reads; cases reads
            | some parts =>
                obtain ⟨field', value⟩ := parts
                rw [splits] at reads
                simp only at reads
                split_ifs at reads with unknown duplicate other
                obtain rfl : field' = field := not_not.mp other
                obtain rfl := (split_once_manifestRow knownHead).mp splits
                obtain ⟨values, rfl, rfl⟩ := (ih distinctTail knownTail rest_new).mp reads
                have away : ∀ f ∈ fields, values f = Function.update values field' value f :=
                  by
                  intro f member
                  refine (Function.update_of_ne ?_ _ _).symm
                  rintro rfl
                  exact fresh member
                refine ⟨Function.update values field' value, ?_, ?_⟩
                · rw [List.map_cons, Function.update_self, List.cons_append]
                  congr 2
                  exact List.map_congr_left fun f member => by rw [away f member]
                · rw [entriesOf_congr away, entriesOf, entriesOf, List.foldl_cons,
                    Function.update_self]
          · rintro ⟨values, same, rfl⟩
            obtain ⟨rfl, rfl⟩ := List.cons.inj same
            rw [(split_once_manifestRow knownHead).mpr rfl]
            simp only
            rw [if_neg (not_not.mpr knownHead), if_neg newHead, if_neg (not_not.mpr rfl)]
            exact (ih distinctTail knownTail rest_new).mpr ⟨values, rfl, rfl⟩

theorem validate_manifest_field_schema_ok : validate_manifest_field_schema = .ok () := by
  decide

/-- A manifest is read when it has the header, one row for each field and nothing else, and its
values are acceptable. -/
theorem parse_manifest_eq_ok : parse_manifest text = .ok entries ↔ ∃ values : String → String,
    lines text = manifestHeader :: manifestFields.map (fun field => manifestRow field (values field))
      ∧ entries = entriesOf manifestFields values .empty
      ∧ validate_manifest_values entries = .ok () := by
  rw [parse_manifest, validate_manifest_field_schema_ok]
  have reads : ∀ {rows rest entries'}, parseRows manifestFields 0 rows .empty .empty =
      .ok (entries', rest) ↔ ∃ values : String → String,
        rows = (manifestFields.map fun field => manifestRow field (values field)) ++ rest ∧
          entries' = entriesOf manifestFields values .empty :=
    parseRows_eq_ok manifestFields_nodup (fun _ known => known)
      fun field _ => SortedSet.not_mem_empty field
  simp only
  constructor
  · intro parses
    cases all : lines text with
    | nil => rw [all] at parses; cases parses
    | cons header rows =>
        rw [all] at parses
        simp only at parses
        split_ifs at parses with other
        obtain rfl := not_not.mp other
        obtain ⟨⟨entries', rest⟩, rowsOk, last⟩ := bind_eq_ok.mp parses
        obtain ⟨values, rfl, rfl⟩ := reads.mp rowsOk
        cases rest with
        | cons line rest =>
            simp only at last
            split_ifs at last
        | nil =>
            obtain ⟨valid, same⟩ := check_eq_ok.mp last
            obtain rfl := Except.ok.inj same
            exact ⟨values, by rw [List.append_nil], rfl, valid⟩
  · rintro ⟨values, all, rfl, valid⟩
    rw [all]
    simp only [ne_eq, not_true_eq_false, if_false]
    refine bind_eq_ok.mpr ⟨(entriesOf manifestFields values .empty, []), ?_, ?_⟩
    · exact reads.mpr ⟨values, (List.append_nil _).symm, rfl⟩
    · exact check_eq_ok.mpr ⟨valid, rfl⟩

/-! ### Receipts and their manifests -/

/-- The receipt that is put together from the values of the rows. -/
def receiptOf (values : String → String) : CanonicalMirRouteReceipt where
  schema := routeReceiptSchema
  profile := values "profile"
  mir_digest := values "mir_digest"
  type_desc_digest := values "type_desc_digest"
  abi_digest := values "abi_digest"
  ffi_digest := values "ffi_digest"
  ownership_digest := values "ownership_digest"
  flow_transition_digest := values "flow_transition_digest"
  root_owners := ((split ',' (values "root_owners")).filter (· ≠ "")).map NodeId.mk

/-- The owners are read back from the row that lists them. -/
theorem receiptOf_root_owners (ok : Admissible values owners)
    (row : values "root_owners" = join ',' (owners.map NodeId.val)) :
    (receiptOf values).root_owners = owners := by
  have back : (owners.map NodeId.val).map NodeId.mk = owners := by
    rw [List.map_map]
    exact List.map_id _
  rw [receiptOf, row]
  by_cases none : owners = []
  · have nothing : (split ',' (join ',' [])).filter (· ≠ "") = [] := by decide
    rw [none, List.map_nil, nothing, List.map_nil]
  · rw [split_owners ok.safe none, List.filter_eq_self.mpr, back]
    intro atom member
    obtain ⟨owner, among, rfl⟩ := List.mem_map.mp member
    exact decide_eq_true (plain_of_safe (ok.safe owner among)).1

theorem value_receiptOf (ok : Admissible values owners)
    (row : values "root_owners" = join ',' (owners.map NodeId.val)) :
    ∀ field ∈ manifestFields, (receiptOf values).value field = values field := by
  intro field known
  simp only [manifestFields, List.mem_cons, List.not_mem_nil, or_false] at known
  rcases known with rfl | rfl | rfl | rfl | rfl | rfl | rfl | rfl | rfl
  case inr.inr.inr.inr.inr.inr.inr.inr =>
    rw [row, ← receiptOf_root_owners ok row]
    rfl
  case inl => exact ok.schema.symm
  all_goals rfl

theorem Admissible.congr {values' : String → String} (ok : Admissible values owners)
    (same : ∀ field ∈ manifestFields, values' field = values field) : Admissible values' owners where
  schema := (same _ (by decide)).trans ok.schema
  profile := same "profile" (by decide) ▸ ok.profile
  digests field known := by
    have known' : field ∈ manifestFields := by
      clear ok same
      revert field
      decide
    rw [same field known']
    exact ok.digests field known
  safe := ok.safe
  sorted := ok.sorted

theorem receiptOf_value (schema : r.schema = routeReceiptSchema)
    (owners : (receiptOf r.value).root_owners = r.root_owners) : receiptOf r.value = r := by
  cases r
  subst schema
  exact congrArg (CanonicalMirRouteReceipt.mk _ _ _ _ _ _ _ _) owners

/-- A manifest is read as a receipt when the receipt is valid and its lines are those of the
manifest. -/
theorem from_manifest_eq_ok : from_manifest text = .ok r ↔
    r.validate = .ok () ∧ lines text = r.manifestLines := by
  have all : ∀ values : String → String, ∀ field ∈ manifestFields,
      requireEntry (entriesOf manifestFields values .empty) field = .ok (values field) :=
    fun values field known => requireEntry_eq_ok.mpr ((find?_entriesOf field).trans (if_pos known))
  have build : ∀ values : String → String,
      parse_manifest text = .ok (entriesOf manifestFields values .empty) →
        from_manifest text = .ok (receiptOf values) := by
    intro values parses
    rw [from_manifest, parses]
    have start : ∀ {α β : Type} (a : α) (f : α → Except String β), (Except.ok a >>= f) = f a :=
      fun a f => rfl
    rw [start, all values "profile" (by decide), start, all values "root_owners" (by decide), start,
      all values "mir_digest" (by decide), start, all values "type_desc_digest" (by decide), start,
      all values "abi_digest" (by decide), start, all values "ffi_digest" (by decide), start,
      all values "ownership_digest" (by decide), start,
      all values "flow_transition_digest" (by decide), start]
    rfl
  have valid_iff : ∀ values : String → String,
      validate_manifest_values (entriesOf manifestFields values .empty) = .ok () ↔
        ∃ owners, Admissible values owners ∧
          values "root_owners" = join ',' (owners.map NodeId.val) := fun values =>
    validate_manifest_values_eq_ok fun field known => (find?_entriesOf field).trans (if_pos known)
  constructor
  · intro reads
    obtain ⟨entries, parses, -⟩ := bind_eq_ok.mp reads
    obtain ⟨values, rows, rfl, valid⟩ := parse_manifest_eq_ok.mp parses
    obtain ⟨owners, ok, row⟩ := (valid_iff values).mp valid
    obtain rfl := Except.ok.inj (reads.symm.trans (build values parses))
    have same := value_receiptOf ok row
    refine ⟨validate_eq_ok.mpr ?_, rows.trans ?_⟩
    · rw [receiptOf_root_owners ok row]
      exact ok.congr same
    · exact congrArg (manifestHeader :: ·)
        (List.map_congr_left fun field known => by rw [same field known])
  · rintro ⟨valid, rows⟩
    have ok := validate_eq_ok.mp valid
    have row : r.value "root_owners" = join ',' (r.root_owners.map NodeId.val) := rfl
    have parses : parse_manifest text = .ok (entriesOf manifestFields r.value .empty) :=
      parse_manifest_eq_ok.mpr ⟨r.value, rows, rfl, (valid_iff r.value).mpr ⟨_, ok, row⟩⟩
    rw [build r.value parses, receiptOf_value ok.schema (receiptOf_root_owners ok row)]

theorem unlines_cons (row : String) (rows : List String) :
    unlines (row :: rows) = row ++ "\n" ++ unlines rows := by
  refine String.toList_inj.mp ?_
  simp only [unlines, String.toList_append, String.toList_ofList, List.flatMap_cons]
  rfl

theorem writeRows_eq_ok (known : ∀ field ∈ fields, field ∈ manifestFields) :
    r.writeRows fields text = .ok (text ++
      unlines (fields.map fun field => manifestRow field (r.value field))) := by
  induction fields generalizing text with
  | nil =>
      have nothing : unlines [] = "" := rfl
      rw [writeRows, List.map_nil, nothing, String.append_empty]
  | cons field fields ih =>
      obtain ⟨head, tail⟩ := List.forall_mem_cons.mp known
      rw [writeRows, manifest_value_eq_some head, List.map_cons, unlines_cons]
      simp only
      rw [ih tail]
      simp only [String.append_assoc]

/-- The manifest of a valid receipt. -/
theorem manifest_text_eq_ok (valid : r.validate = .ok ()) :
    r.manifest_text = .ok (unlines r.manifestLines) := by
  rw [manifest_text, validate_manifest_field_schema_ok]
  simp only [valid]
  rw [writeRows_eq_ok fun _ known => known, manifestLines, unlines_cons]

/-- No letter breaks a line. -/
def Unbroken (s : String) : Prop := '\n' ∉ s.toList ∧ '\r' ∉ s.toList

instance (s : String) : Decidable (Unbroken s) :=
  inferInstanceAs (Decidable ('\n' ∉ s.toList ∧ '\r' ∉ s.toList))

theorem unbroken_routeReceiptSchema : Unbroken routeReceiptSchema := by
  decide

theorem unbroken_manifestHeader : Unbroken manifestHeader := by
  decide

theorem unbroken_manifestFields : ∀ field ∈ manifestFields, Unbroken field := by
  decide

theorem unbroken_of_safe {atom : String} {comma : Bool}
    (safe : manifest_atom_is_safe atom comma = true) : Unbroken atom := by
  have control : ∀ c ∈ atom.toList, isControl c = false := fun c member =>
    ((plain_of_safe safe).2.1 c member).1
  constructor
  · exact fun member => absurd (control _ member) (by decide)
  · exact fun member => absurd (control _ member) (by decide)

theorem unbroken_of_digest {digest : String} (ok : isDigest digest = true) : Unbroken digest := by
  rw [isDigest, Bool.not_eq_true', Bool.or_eq_false_iff, Bool.not_eq_false', List.all_eq_true] at ok
  have hex : ∀ c ∈ digest.toList, ∀ byte ∈ String.utf8EncodeChar c, isLowerHex byte = true :=
    fun c member byte among => ok.2 byte (List.mem_flatMap.mpr ⟨c, member, among⟩)
  constructor
  · exact fun member => absurd (hex _ member 10 (by decide)) (by decide)
  · exact fun member => absurd (hex _ member 13 (by decide)) (by decide)

theorem unbroken_owners (safe : ∀ owner ∈ owners, manifest_atom_is_safe owner.val true = true) :
    Unbroken (join ',' (owners.map NodeId.val)) := by
  have atoms : ∀ atom ∈ owners.map NodeId.val, Unbroken atom := by
    intro atom among
    obtain ⟨owner, listed, rfl⟩ := List.mem_map.mp among
    exact unbroken_of_safe (safe owner listed)
  constructor
  · intro member
    rcases mem_join member with separator | ⟨atom, among, inside⟩
    · cases separator
    · exact (atoms atom among).1 inside
  · intro member
    rcases mem_join member with separator | ⟨atom, among, inside⟩
    · cases separator
    · exact (atoms atom among).2 inside

theorem Unbroken.row {value : String} (inField : Unbroken field) (inValue : Unbroken value) :
    Unbroken (manifestRow field value) := by
  simp only [Unbroken, manifestRow, String.toList_append, List.mem_append, not_or]
  exact ⟨⟨⟨inField.1, by decide⟩, inValue.1⟩, ⟨⟨inField.2, by decide⟩, inValue.2⟩⟩

/-- The lines of the manifest of a valid receipt can be told apart. -/
theorem plain_manifestLines (ok : Admissible r.value r.root_owners) :
    ∀ line ∈ r.manifestLines, '\n' ∉ line.toList ∧ line.toList.getLast? ≠ some '\r' := by
  have values : ∀ field ∈ manifestFields, Unbroken (r.value field) := by
    intro field known
    by_cases digest : field ∈ digestFields
    · exact unbroken_of_digest (ok.digests field digest)
    · have others : ∀ field ∈ manifestFields, field ∉ digestFields →
          field = "schema" ∨ field = "profile" ∨ field = "root_owners" := by decide
      rcases others field known digest with rfl | rfl | rfl
      · rw [ok.schema]
        exact unbroken_routeReceiptSchema
      · exact unbroken_of_safe ok.profile
      · exact unbroken_owners ok.safe
  have lines : ∀ line ∈ r.manifestLines, Unbroken line := by
    refine List.forall_mem_cons.mpr ⟨unbroken_manifestHeader, ?_⟩
    intro line member
    obtain ⟨field, known, rfl⟩ := List.mem_map.mp member
    exact (unbroken_manifestFields field known).row (values field known)
  intro line member
  exact ⟨(lines line member).1, fun ends => (lines line member).2 (List.mem_of_getLast? ends)⟩

/-! ### The framed identity -/

theorem prefixFree_frame : PrefixFree frame := by
  have header : PrefixFree fun n : Nat => '\n' :: (Nat.toDigits 10 n ++ [':']) := by
    have digits : PrefixFree fun n : Nat => Nat.toDigits 10 n ++ [':'] :=
      prefixFree_terminated (toDigits_injective (by decide) (by decide))
        fun n => not_mem_toDigits (by decide) (by decide) n
    have padded := digits.between ['\n'] []
    simpa only [List.append_nil, List.singleton_append] using padded
  have framed : PrefixFree fun text : List Char =>
      ('\n' :: (Nat.toDigits 10 (text.map Char.utf8Size).sum ++ [':'])) ++ text :=
    prefixFree_framed Char.utf8Size_pos header
  have free := framed.comp fun s t same => String.toList_inj.mp same
  have same : frame = fun value : String =>
      ('\n' :: (Nat.toDigits 10 (value.toList.map Char.utf8Size).sum ++ [':'])) ++ value.toList := by
    funext value
    have bytes : (utf8Bytes value).length = (value.toList.map Char.utf8Size).sum := by
      simp only [utf8Bytes, List.length_flatMap, String.length_utf8EncodeChar]
    rw [frame, bytes, List.cons_append, List.append_assoc, List.singleton_append]
  rw [same]
  exact free

/-- The framed values of a receipt, one after the other. -/
def framedValues (r : CanonicalMirRouteReceipt) : List String :=
  [r.schema, r.mir_digest, r.type_desc_digest, r.abi_digest, r.ffi_digest, r.ownership_digest,
    r.flow_transition_digest] ++ r.root_owners.map NodeId.val

theorem semantic_identity_framed_eq : r.semantic_identity_framed =
    routeCacheTag.toList ++ r.framedValues.flatMap frame := by
  simp only [semantic_identity_framed, framedValues, List.flatMap_append, List.flatMap_cons,
    List.flatMap_nil, List.append_nil, List.flatMap_map, List.append_assoc]

theorem framedValues_inj {r' : CanonicalMirRouteReceipt} :
    r.framedValues = r'.framedValues ↔ r.same_semantic_identity r' = true := by
  have owners : ∀ {os os' : List NodeId}, os.map NodeId.val = os'.map NodeId.val ↔ os = os' :=
    List.map_inj_right fun a b same => by
      cases a
      cases b
      exact congrArg NodeId.mk same
  simp only [framedValues, same_semantic_identity, List.cons_append, List.nil_append,
    List.cons.injEq, owners, Bool.and_eq_true, beq_iff_eq]
  constructor
  · rintro ⟨schema, mir, typeDesc, abi, ffi, ownership, flow, owners⟩
    exact ⟨⟨⟨⟨⟨⟨⟨schema, mir⟩, typeDesc⟩, abi⟩, ffi⟩, ownership⟩, flow⟩, owners⟩
  · rintro ⟨⟨⟨⟨⟨⟨⟨schema, mir⟩, typeDesc⟩, abi⟩, ffi⟩, ownership⟩, flow⟩, owners⟩
    exact ⟨schema, mir, typeDesc, abi, ffi, ownership, flow, owners⟩

/-- The framed texts of two receipts are the same just when their identities are. -/
theorem semantic_identity_framed_inj {r' : CanonicalMirRouteReceipt} :
    r.semantic_identity_framed = r'.semantic_identity_framed ↔
      r.same_semantic_identity r' = true := by
  have framed : Function.Injective fun values : List String => values.flatMap frame :=
    prefixFree_frame.flatMap_injective fun value => List.cons_ne_nil _ _
  rw [semantic_identity_framed_eq, semantic_identity_framed_eq, List.append_cancel_left_eq,
    framed.eq_iff, framedValues_inj]

/-! ### Receipts survive their manifests -/

/-- A valid receipt is read back from its manifest; a text that is read as a receipt has the lines
of the manifest of that receipt, which is valid; and the framed texts of two receipts agree just
when their identities do. -/
theorem route_receipt_faithful :
    (∀ r : CanonicalMirRouteReceipt, r.validate = .ok () →
      ∃ text, r.manifest_text = .ok text ∧ from_manifest text = .ok r) ∧
    (∀ (text : String) (r : CanonicalMirRouteReceipt), from_manifest text = .ok r →
      r.validate = .ok () ∧ ∃ text', r.manifest_text = .ok text' ∧ lines text' = lines text) ∧
    (∀ r r' : CanonicalMirRouteReceipt,
      r.semantic_identity_framed = r'.semantic_identity_framed ↔
        r.same_semantic_identity r' = true) := by
  have reread : ∀ {r : CanonicalMirRouteReceipt}, r.validate = .ok () →
      lines (unlines r.manifestLines) = r.manifestLines := fun valid =>
    lines_unlines (plain_manifestLines (validate_eq_ok.mp valid))
  refine ⟨fun r valid => ?_, fun text r reads => ?_, fun r r' => semantic_identity_framed_inj⟩
  · exact ⟨_, manifest_text_eq_ok valid, from_manifest_eq_ok.mpr ⟨valid, reread valid⟩⟩
  · obtain ⟨valid, rows⟩ := from_manifest_eq_ok.mp reads
    exact ⟨valid, _, manifest_text_eq_ok valid, (reread valid).trans rows.symm⟩

/-- A receipt of two owners. -/
def twoOwners : CanonicalMirRouteReceipt :=
  let digest := String.ofList (List.replicate 64 'a')
  ⟨routeReceiptSchema, "native,direct", digest, digest, digest, digest, digest, digest,
    [⟨"flow:a"⟩, ⟨"flow:b"⟩]⟩

/-- A receipt of two owners is read back from its manifest. -/
theorem route_receipt_faithful_two :
    ∃ text, twoOwners.manifest_text = .ok text ∧ from_manifest text = .ok twoOwners :=
  route_receipt_faithful.1 _ (validate_eq_ok.mpr
    ⟨rfl, by decide, by decide, by decide, by decide⟩)

end CanonicalMirRouteReceipt

end Mimi.Mir
