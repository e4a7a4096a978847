/-
Module: Mimi.Mir.MapRootReceipts
Purpose: The check of the checker's receipts for map roots: each dedicated operation has its receipt, the receipts
  consume and create roots one after another, and no root is read by anything else; and what executing a block does
  with roots.
Trusted boundary: human-reviewed translation of `validate_map_root_action_receipts` and
  `validate_map_root_string_payload_lifetime` in `src/core/mir/mod.rs` and of the identities of types in
  `src/core/ir/types.rs`.  The execution follows the arms of `execute_instruction` in `src/core/mir/reference.rs` for
  the operations on roots; an operation that stops the program with an error (a NUL in a key, an overflow) is left out
-/
import Mimi.Lib.Holdings
import Mimi.Mir.Definitions
import Mimi.Mir.Validator

namespace Mimi.Mir

open Mimi.Core Mimi.Lib

local instance lawful_uses : LawfulBEq MirValueId := inferInstance

/-! ### Identities of types -/

def stable_hash (bytes : List UInt8) (offset : UInt64) : UInt64 :=
  bytes.foldl (fun hash byte => (hash ^^^ byte.toUInt64) * 0x00000100000001b3) offset

/-- `{hash:016x}`. -/
def hex16 (hash : UInt64) : String := String.ofList ((Nat.toDigits 16 hash.toNat).leftpad 16 '0')

def ResolvedTypeId.from_canonical (canonical : String) : ResolvedTypeId :=
  let bytes := canonical.toUTF8.toList
  ⟨"rt:" ++ hex16 (stable_hash bytes 0xcbf29ce484222325) ++ hex16 (stable_hash bytes 0x84222325cbf29ce4)⟩

/-- The identity of the primitive type with a tag. -/
def primitive_type_id (tag : String) : ResolvedTypeId :=
  .from_canonical s!"9:primitive:{tag.utf8ByteSize}:{tag};"

def map_root_type_id : ResolvedTypeId :=
  .from_canonical "mimi-resolved-type-1:synthetic:mimi-mir:MapRoot:v1"

def MapRootActionKind.role : MapRootActionKind → String
  | .new => "map_root_new"
  | .set => "map_root_set"
  | .remove => "map_root_remove"
  | .size => "map_root_size"
  | .contains => "map_root_contains"
  | .drop => "map_root_drop"

/-! ### Payloads -/

namespace MirFunction

variable (function : MirFunction)

/-- Whether a value is in the catalog with a type. -/
def has_type (value : MirValueId) (ty : ResolvedTypeId) : Bool := function.typeOf value = some ty

/-- Whether an instruction makes an owned string of a value: a literal, or a clone of a local. -/
def defines_owned_string (value : MirValueId) : MirInstructionKind → Bool
  | .const result (.string _) => result = value
  | .clone result source =>
      result = value && "local:".toList.isPrefixOf source.val.toList &&
        function.has_type source (primitive_type_id "string")
  | _ => false

/-- The first block with an instruction of an identity, and its place there. -/
def position_of (id : MirInstructionId) : Option (MirBlock × Nat) :=
  function.blocks.values.findSome? fun block =>
    (block.instructions.findIdx? fun instruction => instruction.id = id).map fun index => (block, index)

/-- The identities of the instructions that read a value. -/
def use_positions (value : MirValueId) : List MirInstructionId :=
  ((function.blocks.values.flatMap MirBlock.instructions).filter fun instruction =>
    value ∈ instruction.kind.uses).map MirInstruction.id

def validate_map_root_string_payload_lifetime (set_instruction : MirInstructionId) (value : MirValueId) : Bool :=
  match function.position_of set_instruction with
  | none => false
  | some (block, set_index) =>
      match block.instructions[set_index]?, block.instructions[set_index + 1]? with
      | some ⟨set, .mapRootSet _ _ _ set_value⟩, some ⟨drop, .drop dropped⟩ =>
          set_value = value && dropped = value &&
            ((block.instructions.take set_index).any fun instruction =>
              function.defines_owned_string value instruction.kind) &&
            function.has_type value (primitive_type_id "string") &&
            (function.use_positions value).length = 2 &&
            (function.use_positions value).toFinset = {set, drop} &&
            !(function.blocks.values.any fun block => value ∈ block.terminator.uses)
      | _, _ => false

/-! ### Operations and receipts -/

def is_map_root_operation : MirInstructionKind → Bool
  | .mapRootNew _ | .mapRootSet _ _ _ _ | .mapRootRemove _ _ _ | .mapRootSize _ _ | .mapRootContains _ _ _
  | .mapRootDrop _ => true
  | _ => false

/-- The dedicated operations, each with its place. -/
def observed : List (Nat × MirInstruction) :=
  function.blocks.values.zipIdx.flatMap fun (block, block_order) =>
    (block.instructions.zipIdx.filter fun (instruction, _) => is_map_root_operation instruction.kind).map
      fun (instruction, index) => (block_order * 1000000 + index, instruction)

/-- Whether a receipt is about an operation. -/
def receipt_expected (receipt : MirCheckerMapRootAction) (kind : MirInstructionKind) : Bool :=
  match receipt.kind, kind with
  | .new, .mapRootNew result =>
      result = receipt.local_ && receipt.result = some result && receipt.key = none && receipt.value = none &&
        receipt.valueType = none && receipt.sourceLocal = none && receipt.source = none
  | .set, .mapRootSet result source key value =>
      result = receipt.local_ && receipt.result = some result && some source = receipt.sourceLocal &&
        receipt.key = some key && receipt.value = some value &&
        receipt.valueType.any (function.has_type value) &&
        (receipt.valueType ≠ some (primitive_type_id "string") ||
          function.validate_map_root_string_payload_lifetime receipt.instruction value) &&
        receipt.source.isSome && source ≠ result
  | .remove, .mapRootRemove result source key =>
      result = receipt.local_ && receipt.result = some result && some source = receipt.sourceLocal &&
        receipt.key = some key && receipt.value = none && receipt.valueType = none && receipt.source.isSome &&
        source ≠ result
  | .size, .mapRootSize result root =>
      root = receipt.local_ && receipt.result = some result && receipt.key = none && receipt.value = none &&
        receipt.valueType = none && receipt.sourceLocal = none && receipt.source = none
  | .contains, .mapRootContains result root key =>
      root = receipt.local_ && receipt.result = some result && function.has_type result (primitive_type_id "bool") &&
        receipt.key = some key && '\x00' ∉ key.toList && receipt.value = none && receipt.valueType = none &&
        receipt.sourceLocal = none && receipt.source = none
  | .drop, .mapRootDrop root =>
      root = receipt.local_ && receipt.result = none && receipt.key = none && receipt.value = none &&
        receipt.valueType = none && receipt.sourceLocal = none && receipt.source = none
  | _, _ => false

/-- Whether a receipt names a point, and the root that its local stands for. -/
def receipt_named (receipt : MirCheckerMapRootAction) : Bool :=
  !isBlank receipt.point.val && !isBlank receipt.root && receipt.local_.val = "local:" ++ receipt.root

/-- An error where something is wrong. -/
def errorIf (wrong : Bool) (subject message : String) : List MirValidationError :=
  if wrong then [⟨subject, message⟩] else []

/-- The receipts in turn, with the instructions that had one and the place of the operation before. -/
def check_receipts : List MirCheckerMapRootAction → Finset MirInstructionId → Option Nat → List MirValidationError
  | [], _, _ => []
  | receipt :: rest, seen, previous_order =>
      let named := receipt_named receipt
      let subject := receipt.instruction.val
      let next := if named then insert receipt.instruction seen else seen
      errorIf (!named || receipt.instruction ∈ seen) subject
        "MapRoot checker receipt has an invalid root/local identity or duplicate instruction" ++
      errorIf (subject ≠ s!"inst:{receipt.kind.role}:{receipt.local_.val}:{receipt.point.val}") subject
        "MapRoot checker receipt instruction identity is forged" ++
      match function.observed.find? fun (_, instruction) => instruction.id = receipt.instruction with
      | none =>
          ⟨subject, "MapRoot checker receipt has no unique dedicated instruction"⟩ ::
            check_receipts rest next previous_order
      | some (order, instruction) =>
          errorIf (previous_order.any fun previous => order ≤ previous) subject
            "MapRoot operations disagree with Checker point order" ++
          errorIf (!function.receipt_expected receipt instruction.kind) subject
            "MapRoot operation disagrees with its private Checker root/type/key receipt" ++
          errorIf ((function.typeOf receipt.local_).any fun ty => ty ≠ map_root_type_id) receipt.local_.val
            "MapRoot action local does not have the canonical MapRoot TypeDesc identity" ++
          check_receipts rest next (some order)

/-! ### The roots that are live -/

structure RootLedger where
  /-- The local of each root. -/
  live_roots : SortedMap String MirValueId
  live_payload_types : SortedMap String (Option ResolvedTypeId)

/-- The source of a receipt leaves the ledger; with the type of its payloads. -/
def consume_root (receipt : MirCheckerMapRootAction) (ledger : RootLedger) (message : String) :
    RootLedger × Option ResolvedTypeId × List MirValidationError :=
  let current := receipt.source.bind ledger.live_roots.find?
  let live_roots :=
    match receipt.source with
    | some source_root =>
        if current = receipt.sourceLocal then ledger.live_roots.erase source_root else ledger.live_roots
    | none => ledger.live_roots
  match receipt.source with
  | none => (⟨live_roots, ledger.live_payload_types⟩, none,
      errorIf (current ≠ receipt.sourceLocal) receipt.instruction.val message)
  | some source_root =>
      (⟨live_roots, ledger.live_payload_types.erase source_root⟩,
        (ledger.live_payload_types.find? source_root).join,
        errorIf (current ≠ receipt.sourceLocal) receipt.instruction.val message)

/-- The root of a receipt enters the ledger. -/
def create_root (receipt : MirCheckerMapRootAction) (payload_type : Option ResolvedTypeId) (ledger : RootLedger)
    (message : String) : RootLedger × List MirValidationError :=
  if ledger.live_roots.contains receipt.root || receipt.local_ ∈ ledger.live_roots.values then
    (ledger, [⟨receipt.instruction.val, message⟩])
  else
    (⟨ledger.live_roots.insert receipt.root receipt.local_, ledger.live_payload_types.insert receipt.root payload_type⟩,
      [])

/-- What a receipt does to the roots that are live. -/
def root_step (receipt : MirCheckerMapRootAction) (ledger : RootLedger) : RootLedger × List MirValidationError :=
  match receipt.kind with
  | .new => create_root receipt none ledger "MapRoot root identity or live local is duplicated"
  | .set =>
      let (ledger, inherited_payload_type, errors) := consume_root receipt ledger
        "MapRoot Set source resource identity does not match the consumed root"
      let changed := match inherited_payload_type, receipt.valueType with
        | some previous, some next => previous ≠ next
        | _, _ => false
      let (ledger, created) := create_root receipt (receipt.valueType.or inherited_payload_type) ledger
        "MapRoot Set result root identity is duplicated"
      (ledger, errors ++ errorIf changed receipt.instruction.val
        "MapRoot Set changes the Checker-owned payload TypeDesc" ++ created)
  | .remove =>
      let (ledger, inherited_payload_type, errors) := consume_root receipt ledger
        "MapRoot Remove source resource identity does not match the consumed root"
      let (ledger, created) := create_root receipt inherited_payload_type ledger
        "MapRoot Remove result root identity is duplicated"
      (ledger, errors ++ created)
  | .size | .contains =>
      (ledger, errorIf (ledger.live_roots.find? receipt.root ≠ some receipt.local_) receipt.instruction.val
        "MapRoot read/drop resource identity does not match the current root")
  | .drop =>
      (⟨ledger.live_roots.erase receipt.root, ledger.live_payload_types.erase receipt.root⟩,
        errorIf (ledger.live_roots.find? receipt.root ≠ some receipt.local_) receipt.instruction.val
          "MapRoot Drop resource identity does not match a live root")

def root_steps : List MirCheckerMapRootAction → RootLedger → RootLedger × List MirValidationError
  | [], ledger => (ledger, [])
  | receipt :: rest, ledger =>
      let (ledger, errors) := root_step receipt ledger
      let (ledger, later) := root_steps rest ledger
      (ledger, errors ++ later)

/-! ### The function -/

def expected_root_values : Finset MirValueId :=
  (function.ownership.checkerMapRoots.flatMap fun receipt => receipt.local_ :: receipt.sourceLocal.toList).toFinset

def actual_root_values : Finset MirValueId :=
  ((function.values.values.filter fun value => value.ty = map_root_type_id).map MirValue.id).toFinset

def dedicated_root_use : MirInstructionKind → Bool
  | .mapRootSet _ source _ value => source ∈ function.actual_root_values && value ∉ function.actual_root_values
  | .mapRootRemove _ source _ => source ∈ function.actual_root_values
  | .mapRootSize _ root | .mapRootContains _ root _ | .mapRootDrop root => root ∈ function.actual_root_values
  | .mapRootNew _ => true
  | _ => false

/-- The generic operations that a root must not have. -/
def generic_root_operation : MirInstructionKind → Bool
  | .drop value | .clone _ value => function.has_type value map_root_type_id
  | _ => false

def profile_errors : List MirValidationError :=
  errorIf (!function.ownership.checkerMapRoots.isEmpty && (function.blocks.values.length ≠ 1 ||
      function.blocks.values.any fun block => !block.parameters.isEmpty ||
        !(match block.terminator with | .return_ _ => true | _ => false)))
    function.owner.val "MapRoot receipts require the Checker-owned single-block, return-only profile"

def block_errors (block : MirBlock) : List MirValidationError :=
  (block.parameters.flatMap fun parameter =>
    errorIf (function.has_type parameter.value map_root_type_id) parameter.value.val
      "MapRoot cannot enter this profile through a block parameter") ++
  (block.instructions.flatMap fun instruction =>
    errorIf (!function.dedicated_root_use instruction.kind &&
        instruction.kind.uses.any (· ∈ function.actual_root_values)) instruction.id.val
      "MapRoot local is used outside its dedicated Checker-receipted operation") ++
  errorIf (block.terminator.uses.any (· ∈ function.actual_root_values)) block.id.val
    "MapRoot cannot escape through a MIR terminator or control-flow edge"

def validate_map_root_action_receipts : List MirValidationError :=
  let receipts := function.ownership.checkerMapRoots
  let (ledger, ledger_errors) := root_steps receipts ⟨.empty, .empty⟩
  function.profile_errors ++
  ((function.blocks.values.flatMap MirBlock.instructions).flatMap fun instruction =>
    errorIf (function.generic_root_operation instruction.kind) instruction.id.val
      "MapRoot requires its checker-receipted dedicated operation") ++
  errorIf (receipts.length ≠ function.observed.length) function.owner.val
    (s!"MapRoot checker receipt count {receipts.length} disagrees with dedicated operation count " ++
      s!"{function.observed.length}") ++
  function.check_receipts receipts ∅ none ++
  ledger_errors ++
  errorIf (function.actual_root_values ≠ function.expected_root_values) function.owner.val
    "MapRoot values must match exactly the Checker-receipted local roots" ++
  errorIf (function.parameters.any fun parameter => function.has_type parameter map_root_type_id) function.owner.val
    "MapRoot cannot enter this profile through a function parameter" ++
  function.blocks.values.flatMap function.block_errors ++
  errorIf (function.result = map_root_type_id) function.owner.val
    "MapRoot cannot escape through a function result in this closed profile" ++
  errorIf (!ledger.live_roots.entries.isEmpty) function.owner.val
    "MapRoot Checker receipt leaves live root obligations"

/-! ### Execution -/

/-- The roots that an operation reads or takes, whatever their type. -/
def root_operands : MirInstructionKind → List MirValueId
  | .mapRootSet _ source _ _ | .mapRootRemove _ source _ => [source]
  | .mapRootSize _ root | .mapRootContains _ root _ | .mapRootDrop root => [root]
  | _ => []

def roots_taken : MirInstructionKind → List MirValueId
  | .mapRootSet _ source _ _ | .mapRootRemove _ source _ => [source]
  | .mapRootDrop root => [root]
  | _ => []

def roots_created : MirInstructionKind → List MirValueId
  | .mapRootNew result | .mapRootSet result _ _ _ | .mapRootRemove result _ _ => [result]
  | _ => []

/-- What an instruction does with roots: those it reads must be there, those it takes are consumed, and a value that it
defines is written over what was there. -/
def rootStep (kind : MirInstructionKind) (s : Holdings MirValueId) : Option (Holdings MirValueId) :=
  if (root_operands kind ++ kind.uses.filter (· ∈ function.actual_root_values)).all s.holds then do
    let s ← Holdings.finishAll (roots_taken kind) s
    some ((s.lose kind.results).makeAll (roots_created kind))
  else none

def rootSteps : List MirInstruction → Holdings MirValueId → Option (Holdings MirValueId)
  | [], s => some s
  | instruction :: rest, s => do
      let s ← function.rootStep instruction.kind s
      rootSteps rest s

/-- Each block runs from no live root to no live root, and its terminator reads none; every root that it creates is
consumed, once, and none is read behind that. -/
def RootsConsumed : Prop :=
  ∀ block ∈ function.blocks.values, (∀ value ∈ block.terminator.uses, value ∉ function.actual_root_values) ∧
    ∃ s, function.rootSteps block.instructions .empty = some s ∧ s.held = [] ∧ s.ended.Perm (List.range s.made)

/-- Whether the drop of a payload comes before the release of the map, which a root stands for. -/
def released_before_map (payload : MirValueId) : MirValueId → List MirInstruction → Bool
  | _, [] => false
  | root, instruction :: rest =>
      match instruction.kind with
      | .drop value => value = payload || released_before_map payload root rest
      | .mapRootSet result source _ _ | .mapRootRemove result source _ =>
          released_before_map payload (if source = root then result else root) rest
      | .mapRootDrop dropped => dropped ≠ root && released_before_map payload root rest
      | _ => released_before_map payload root rest

/-- The map that a string is put into is released before the string. -/
def PayloadsOutliveMaps : Prop :=
  ∀ block ∈ function.blocks.values, ∀ front rest id result source key value,
    block.instructions = front ++ ⟨id, .mapRootSet result source key value⟩ :: rest →
      function.has_type value (primitive_type_id "string") = true → released_before_map value result rest = false

/-- A string that is put into a map is a literal or a clone of a local, made in front; the drop directly behind the
`Set` releases it, and nothing else reads it. -/
def PayloadsCopied : Prop :=
  ∀ block ∈ function.blocks.values, ∀ front rest id result source key value,
    block.instructions = front ++ ⟨id, .mapRootSet result source key value⟩ :: rest →
      function.has_type value (primitive_type_id "string") = true →
      (∃ instruction ∈ front, function.defines_owned_string value instruction.kind = true) ∧
      (∃ drop later, rest = ⟨drop, .drop value⟩ :: later ∧
        ∀ instruction ∈ front ++ later, value ∉ instruction.kind.uses) ∧
      (∀ other ∈ function.blocks.values, value ∉ other.terminator.uses) ∧
      ∀ other ∈ function.blocks.values,
        other = block ∨ ∀ instruction ∈ other.instructions, value ∉ instruction.kind.uses

end MirFunction

end Mimi.Mir
