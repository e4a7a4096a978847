/-
Module: Mimi.Mir.RouteReceipt
Purpose: The route receipts of core/mir/receipt.rs: their identity, their checks, and the manifest
  text they are written to and read from.
Trusted boundary: none
-/
import Mimi.Core.Ownership
import Mimi.Lib.Fallible
import Mimi.Lib.SortedMap
import Mimi.Lib.Text

namespace Mimi.Mir

open Mimi.Core Mimi.Lib

/-- `MIR_ROUTE_RECEIPT_SCHEMA`. -/
def routeReceiptSchema : String := "mimi-mir-route-receipt-v1"

/-- `MIR_ROUTE_RECEIPT_MANIFEST_HEADER`. -/
def manifestHeader : String := "mimi-mir-route-manifest-v1"

/-- `MIR_ROUTE_RECEIPT_MANIFEST_FIELDS`, in the order of the rows. -/
def manifestFields : List String :=
  ["schema", "profile", "mir_digest", "type_desc_digest", "abi_digest", "ffi_digest",
    "ownership_digest", "flow_transition_digest", "root_owners"]

/-- The rows that hold a digest. -/
def digestFields : List String :=
  ["mir_digest", "type_desc_digest", "abi_digest", "ffi_digest", "ownership_digest",
    "flow_transition_digest"]

structure CanonicalMirRouteReceipt where
  schema : String
  profile : String
  mir_digest : String
  type_desc_digest : String
  abi_digest : String
  ffi_digest : String
  ownership_digest : String
  flow_transition_digest : String
  root_owners : List NodeId
deriving Repr, DecidableEq

/-! ### Checks -/

/-- `char::is_control`. -/
def isControl (c : Char) : Bool := c.toNat < 0x20 || (0x7F ≤ c.toNat && c.toNat ≤ 0x9F)

def manifest_atom_is_safe (value : String) (reject_comma : Bool) : Bool :=
  !isBlank value && !value.toList.any fun character =>
    isControl character || isWhitespace character || character == '='
      || (reject_comma && character == ',')

/-- `is_ascii_hexdigit` and not `is_ascii_uppercase`. -/
def isLowerHex (byte : UInt8) : Bool :=
  (48 ≤ byte && byte ≤ 57) || (97 ≤ byte && byte ≤ 102)

/-- The test that both validators make on a digest. -/
def isDigest (value : String) : Bool :=
  !((utf8Bytes value).length != 64 || !(utf8Bytes value).all isLowerHex)

/-- Two neighbours are out of order. -/
def anyUnsorted (owners : List NodeId) : Bool :=
  (owners.zip owners.tail).any fun window => !decide (window.1 < window.2)

def validate_manifest_field_schema : Except String Unit :=
  go manifestFields .empty
where
  go : List String → SortedSet String → Except String Unit
    | [], _ => .ok ()
    | field :: fields, seen =>
        if isBlank field || field.toList.any fun character => isControl character || character == '='
        then .error s!"manifest field '{field}' is empty or not manifest-safe"
        else if field ∈ seen then .error s!"manifest field '{field}' is duplicated"
        else go fields (seen.insert field)

namespace CanonicalMirRouteReceipt

def same_semantic_identity (self other : CanonicalMirRouteReceipt) : Bool :=
  self.schema == other.schema
    && self.mir_digest == other.mir_digest
    && self.type_desc_digest == other.type_desc_digest
    && self.abi_digest == other.abi_digest
    && self.ffi_digest == other.ffi_digest
    && self.ownership_digest == other.ownership_digest
    && self.flow_transition_digest == other.flow_transition_digest
    && self.root_owners == other.root_owners

/-- What the framed text of an identity starts with. -/
def routeCacheTag : String := "mimi-proof-mir-route-cache-v1"

/-- A value behind its length in bytes. -/
def frame (value : String) : List Char :=
  '\n' :: (Nat.toDigits 10 (utf8Bytes value).length ++ ':' :: value.toList)

/-- The text that `semantic_identity_digest` hashes. -/
def semantic_identity_framed (self : CanonicalMirRouteReceipt) : List Char :=
  routeCacheTag.toList ++ frame self.schema ++ frame self.mir_digest ++
    frame self.type_desc_digest ++ frame self.abi_digest ++ frame self.ffi_digest ++
    frame self.ownership_digest ++ frame self.flow_transition_digest ++
    self.root_owners.flatMap fun owner => frame owner.val

/-- One digest of a receipt passes. -/
def checkDigest (field : String × String) : Except String Unit :=
  reject (!isDigest field.2)
    s!"route receipt {field.1} must be a 64-character lowercase hex digest"

def validate (self : CanonicalMirRouteReceipt) : Except String Unit := do
  reject (self.schema ≠ routeReceiptSchema)
    s!"unexpected route receipt schema '{self.schema}', expected '{routeReceiptSchema}'"
  reject (!manifest_atom_is_safe self.profile false)
    "route receipt profile is empty or not manifest-safe"
  [("mir_digest", self.mir_digest), ("type_desc_digest", self.type_desc_digest),
    ("abi_digest", self.abi_digest), ("ffi_digest", self.ffi_digest),
    ("ownership_digest", self.ownership_digest),
    ("flow_transition_digest", self.flow_transition_digest)].forM checkDigest
  reject (self.root_owners.any fun owner => !manifest_atom_is_safe owner.val true)
    "route receipt root owner is empty or not manifest-safe"
  reject (anyUnsorted self.root_owners) "route receipt root owners must be strictly sorted"

/-! ### Writing a manifest -/

def manifest_value (self : CanonicalMirRouteReceipt) (field : String) : Option String :=
  if field = "schema" then some self.schema
  else if field = "profile" then some self.profile
  else if field = "mir_digest" then some self.mir_digest
  else if field = "type_desc_digest" then some self.type_desc_digest
  else if field = "abi_digest" then some self.abi_digest
  else if field = "ffi_digest" then some self.ffi_digest
  else if field = "ownership_digest" then some self.ownership_digest
  else if field = "flow_transition_digest" then some self.flow_transition_digest
  else if field = "root_owners" then some (join ',' (self.root_owners.map NodeId.val))
  else none

/-- One row of a manifest. -/
def manifestRow (field value : String) : String := field ++ "=" ++ value

/-- The rows of the fields, behind the text so far. -/
def writeRows (self : CanonicalMirRouteReceipt) :
    List String → String → Except String String
  | [], text => .ok text
  | field :: fields, text =>
      match self.manifest_value field with
      | none => .error s!"invalid MIR route receipt: unknown manifest field '{field}'"
      | some value => self.writeRows fields (text ++ manifestRow field value ++ "\n")

def manifest_text (self : CanonicalMirRouteReceipt) : Except String String :=
  match validate_manifest_field_schema with
  | .error error => .error s!"invalid MIR route receipt: {error}"
  | .ok () =>
      match self.validate with
      | .error error => .error s!"invalid MIR route receipt: {error}"
      | .ok () => self.writeRows manifestFields (manifestHeader ++ "\n")

/-! ### Reading a manifest -/

/-- The rows of the expected fields, and the lines behind them. -/
def parseRows : List String → Nat → List String → SortedMap String String → SortedSet String →
    Except String (SortedMap String String × List String)
  | [], _, lines, entries, _ => .ok (entries, lines)
  | expected_field :: _, _, [], _, _ =>
      .error s!"invalid MIR route manifest: missing field '{expected_field}'"
  | expected_field :: fields, row, line :: lines, entries, seen =>
      match split_once '=' line with
      | none => .error s!"invalid MIR route manifest: row {row} is missing '='"
      | some (field, value) =>
          if field ∉ manifestFields then
            .error s!"invalid MIR route manifest: unknown field '{field}' at row {row}"
          else if field ∈ seen then
            .error s!"invalid MIR route manifest: duplicate field '{field}' at row {row}"
          else if field ≠ expected_field then
            .error (s!"invalid MIR route manifest: field '{field}' at row {row}, expected " ++
              s!"'{expected_field}'")
          else parseRows fields (row + 1) lines (entries.insert field value) (seen.insert field)

/-- An entry that has to be there. -/
def requireEntry (entries : SortedMap String String) (field : String) : Except String String :=
  match entries.find? field with
  | none => .error s!"invalid MIR route manifest: missing field '{field}'"
  | some value => .ok value

def checkManifestDigest (entries : SortedMap String String) (field : String) :
    Except String Unit := do
  let value ← requireEntry entries field
  reject (!isDigest value)
    (s!"invalid MIR route manifest: field '{field}' must be a 64-character lowercase hex " ++
      "digest")

def checkManifestOwner (owner : String) : Except String NodeId :=
  if manifest_atom_is_safe owner true then .ok ⟨owner⟩
  else .error "invalid MIR route manifest: root owner is empty or not manifest-safe"

/-- The owners that the last row lists. -/
def manifestOwners (owners : String) : Except String (List NodeId) :=
  if owners = "" then .ok [] else (split ',' owners).mapM checkManifestOwner

def validate_manifest_values (entries : SortedMap String String) : Except String Unit := do
  let schema ← requireEntry entries "schema"
  reject (schema ≠ routeReceiptSchema)
    s!"invalid MIR route manifest: field 'schema' has unexpected value '{schema}'"
  let profile ← requireEntry entries "profile"
  reject (!manifest_atom_is_safe profile false)
    "invalid MIR route manifest: field 'profile' is empty or not manifest-safe"
  digestFields.forM (checkManifestDigest entries)
  let owners ← requireEntry entries "root_owners"
  let owners ← manifestOwners owners
  reject (anyUnsorted owners) "invalid MIR route manifest: root owners must be strictly sorted"

def parse_manifest (text : String) : Except String (SortedMap String String) :=
  match validate_manifest_field_schema with
  | .error error => .error s!"invalid MIR route manifest: {error}"
  | .ok () =>
      match lines text with
      | [] => .error s!"invalid MIR route manifest: expected header '{manifestHeader}'"
      | header :: rows =>
          if header ≠ manifestHeader then
            .error s!"invalid MIR route manifest: expected header '{manifestHeader}'"
          else do
            let (entries, rest) ← parseRows manifestFields 0 rows .empty .empty
            match rest with
            | line :: _ =>
                let field := match split_once '=' line with
                  | none => line
                  | some (field, _) => field
                if field ∈ manifestFields then
                  .error (s!"invalid MIR route manifest: duplicate field '{field}' at row " ++
                    s!"{manifestFields.length}")
                else
                  .error (s!"invalid MIR route manifest: unknown field '{field}' at row " ++
                    s!"{manifestFields.length}")
            | [] =>
                validate_manifest_values entries
                .ok entries

def from_manifest (text : String) : Except String CanonicalMirRouteReceipt := do
  let entries ← parse_manifest text
  let profile ← requireEntry entries "profile"
  let owners ← requireEntry entries "root_owners"
  let root_owners := ((split ',' owners).filter (· ≠ "")).map NodeId.mk
  .ok {
    schema := routeReceiptSchema
    profile := profile
    mir_digest := ← requireEntry entries "mir_digest"
    type_desc_digest := ← requireEntry entries "type_desc_digest"
    abi_digest := ← requireEntry entries "abi_digest"
    ffi_digest := ← requireEntry entries "ffi_digest"
    ownership_digest := ← requireEntry entries "ownership_digest"
    flow_transition_digest := ← requireEntry entries "flow_transition_digest"
    root_owners := root_owners }

end CanonicalMirRouteReceipt

end Mimi.Mir
