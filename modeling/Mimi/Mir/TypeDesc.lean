/-
Module: Mimi.Mir.TypeDesc
Purpose: The type descriptors of the middle-level representation, as far as switches and control-flow edges
  look at them, and the contracts of the catalog for switches.
Trusted boundary: human-reviewed translation of `MirTypeDesc` and of the switch contracts of
  `src/core/mir/types.rs`; the contracts that only reject (glue plans, copy values, supported types) are
  fields of the catalog
-/
import Mimi.Lib.Fallible
import Mimi.Mir.Function

namespace Mimi.Mir

open Mimi.Core Mimi.Lib

/-! ### Descriptors -/

/-- The kinds of types that the contracts below ask for. -/
inductive MirTypeKind where
  | nominal
  | option
  | result
  | other
deriving DecidableEq, Repr

inductive MirAbiClass where
  | unit
  | integer (bits : Nat) (signed : Bool)
  | float (bits : Nat)
  | bool
  | char
  | stringHandle
  | setHandle
  | opaqueHandle
  | pointer
  | aggregate
  | functionPointer
deriving DecidableEq, Repr

structure MirGlueContract where
  moveOut : MirGlueKind
  clone : MirGlueKind
  drop : MirGlueKind
deriving DecidableEq, Repr

inductive MirGlueOperation where
  | moveOut
  | clone
  | drop
deriving DecidableEq, Repr

structure MirFieldDesc where
  id : NodeId
  name : String
  ty : ResolvedTypeId
deriving DecidableEq, Repr

/-- A variant; the identities of its fields are those of their declarations. -/
structure MirVariantDesc where
  id : NodeId
  name : String
  discriminant : Nat
  fields : List MirFieldDesc
  declared : (fields.map MirFieldDesc.id).Nodup
deriving DecidableEq, Repr

inductive MirLayout where
  | unit
  | scalar
  | handle
  | pointer (target : Option ResolvedTypeId)
  | tuple (elements : List ResolvedTypeId)
  | option (inner : ResolvedTypeId) (variants : List MirVariantDesc)
  | result (ok error : ResolvedTypeId) (variants : List MirVariantDesc)
  | enum (nominal : NominalTypeId) (variants : List MirVariantDesc)
  | array (element : ResolvedTypeId) (length : Nat)
  | newtype (nominal : NominalTypeId) (inner : ResolvedTypeId)
  | record (nominal : NominalTypeId) (fields : List MirFieldDesc)
  | list (element : ResolvedTypeId)
  | set (element : ResolvedTypeId)
  | mapRoot
  | opaque_
deriving DecidableEq, Repr

/-- What a switch or an edge reads of a type descriptor. -/
structure MirTypeDesc where
  kind : MirTypeKind
  layout : MirLayout
  ownership : MirOwnership
  abi : MirAbiClass
  glue : MirGlueContract
deriving DecidableEq, Repr

/-- The type catalog of a program. -/
structure MirTypeCatalog where
  get : ResolvedTypeId → Option MirTypeDesc
  validate_glue : ResolvedTypeId → MirGlueOperation → Except String Unit
  validate_variant_glue : ResolvedTypeId → MirGlueOperation → Except String Unit
  validate_copy_value : ResolvedTypeId → Except String Unit
  validate_flat_copy_variant : ResolvedTypeId → Except String Unit
  validate_recoverable_source_result_variant : ResolvedTypeId → Except String Unit
  /-- Whether the adapter to bytecode has a representation for a type. -/
  supported_type : ResolvedTypeId → Except String Unit

namespace MirTypeCatalog

variable (self : MirTypeCatalog)

/-! ### Variants -/

/-- The nominal label of a family of variants, and the family. -/
def variant_layout (ty : ResolvedTypeId) : Option (String × List MirVariantDesc) :=
  match self.get ty with
  | none => none
  | some descriptor =>
      match descriptor.layout with
      | .option _ variants => some ("builtin:type:Option", variants)
      | .result _ _ variants => some ("builtin:type:Result", variants)
      | .enum nominal variants => some (nominal.val, variants)
      | _ => none

def validated_variant_switch_case (scrutinee_ty : ResolvedTypeId) (variant_id : NodeId) :
    Except String (String × MirVariantDesc) := do
  let layout ← orError (self.variant_layout scrutinee_ty)
    s!"switch scrutinee type '{scrutinee_ty.val}' has no canonical variant layout"
  let variant ← orError (layout.2.find? fun candidate => candidate.id = variant_id)
    s!"variant switch case '{variant_id.val}' is absent from TypeDesc"
  return (layout.1, variant)

/-- A field of a variant with its position. -/
def fieldOf (variant : MirVariantDesc) (field_id : NodeId) : Option (Nat × MirFieldDesc) :=
  (variant.fields.zipIdx.find? fun entry => entry.1.id = field_id).map fun entry => (entry.2, entry.1)

def validated_variant_payload_projection_contract (scrutinee_ty : ResolvedTypeId)
    (variant_id field_id : NodeId) (result_ty : ResolvedTypeId) :
    Except String MirVariantProjectionContract := do
  reject (self.get result_ty).isNone
    s!"variant payload projection result type '{result_ty.val}' is absent"
  let case_ ← self.validated_variant_switch_case scrutinee_ty variant_id
  let nominal ← orError (StableId.new case_.1)
    s!"variant payload projection nominal '{case_.1}' has invalid identity"
  let entry ← orError (fieldOf case_.2 field_id)
    (s!"variant payload projection field '{field_id.val}' is absent from variant '{case_.2.name}'")
  reject (entry.2.ty ≠ result_ty)
    (s!"variant payload projection field '{field_id.val}' type '{entry.2.ty.val}' disagrees with " ++
      s!"result type '{result_ty.val}'")
  let field_desc ← orError (self.get entry.2.ty)
    s!"variant payload projection field type '{entry.2.ty.val}' is absent from TypeDesc"
  return {
    nominal := nominal
    variant := case_.2.id
    field := entry.2.id
    fieldIndex := entry.1
    arity := case_.2.fields.length
    fieldTy := entry.2.ty
    ownership := field_desc.ownership
    moveOutGlue := field_desc.glue.moveOut }

def validate_variant_payload_projection_receipt (scrutinee_ty : ResolvedTypeId) (variant_id : NodeId)
    (result_ty : ResolvedTypeId) (receipt : MirVariantProjectionContract) : Except String Unit := do
  let expected ←
    self.validated_variant_payload_projection_contract scrutinee_ty variant_id receipt.field result_ty
  reject (receipt ≠ expected)
    s!"variant payload projection receipt for field '{receipt.field.val}' disagrees with TypeDesc"

/-- The elements of a tuple. -/
def tupleElements (descriptor : MirTypeDesc) : Option (List ResolvedTypeId) :=
  match descriptor.layout with
  | .tuple elements => some elements
  | _ => none

def validated_tuple_field_projection_contract (base_ty : ResolvedTypeId) (field_index : Nat)
    (result_ty : ResolvedTypeId) : Except String MirTupleProjectionContract := do
  let descriptor ← orError (self.get base_ty) s!"tuple projection base type '{base_ty.val}' is absent"
  reject (self.get result_ty).isNone s!"tuple projection result type '{result_ty.val}' is absent"
  let elements ← orError (tupleElements descriptor)
    s!"tuple projection base type '{base_ty.val}' has no canonical tuple layout"
  let field_ty ← orError elements[field_index]? s!"tuple projection index {field_index} is out of bounds"
  reject (field_ty ≠ result_ty)
    (s!"tuple projection result type '{result_ty.val}' disagrees with layout type '{field_ty.val}'")
  return { tupleTy := base_ty, fieldIndex := field_index, arity := elements.length, fieldTy := field_ty }

def validate_variant_nested_tuple_payload_projection_receipt (scrutinee_ty : ResolvedTypeId)
    (variant_id : NodeId) (parameter_ty : ResolvedTypeId) (projection : MirVariantProjectionContract)
    (nested : MirTupleProjectionContract) : Except String Unit := do
  let is_option := (self.get scrutinee_ty).any fun descriptor => descriptor.kind = .option
  let is_recoverable_result := ((self.get scrutinee_ty).any fun descriptor => descriptor.kind = .result) &&
    (self.validate_recoverable_source_result_variant scrutinee_ty).isOk
  reject (!is_option && !is_recoverable_result)
    "nested consuming tuple payload binding requires canonical Option or recoverable Flow Result variants"
  self.validate_variant_payload_projection_receipt scrutinee_ty variant_id nested.tupleTy projection
  let tuple ← orError (self.get nested.tupleTy)
    s!"nested tuple payload type '{nested.tupleTy.val}' is absent from TypeDesc"
  reject (tuple.ownership = .copy)
    "nested consuming tuple payload must be non-Copy so its elements have one move boundary"
  self.validate_glue nested.tupleTy .moveOut
  self.validate_glue nested.tupleTy .drop
  let expected ←
    self.validated_tuple_field_projection_contract nested.tupleTy nested.fieldIndex parameter_ty
  reject (nested ≠ expected) "nested tuple projection receipt disagrees with TypeDesc"

/-! ### Switches -/

/-- The checks of a binding of a variant switch. -/
def validate_variant_switch_binding (scrutinee_ty : ResolvedTypeId) (allow_move_owned_payload : Bool)
    (variant : NodeId) (binding : MirSwitchBinding) : Except String Unit := do
  self.validate_variant_payload_projection_receipt scrutinee_ty variant binding.projection.fieldTy
    binding.projection
  reject (!allow_move_owned_payload && binding.projection.ownership ≠ .copy)
    (s!"read-only variant payload projection field '{binding.projection.field.val}' requires Copy " ++
      "TypeDesc ownership")
  match binding.nestedTuple with
  | none => return
  | some nested => do
      reject (!allow_move_owned_payload)
        "read-only variant switch cannot destructure an owned nested tuple payload"
      self.validate_variant_nested_tuple_payload_projection_receipt scrutinee_ty variant nested.fieldTy
        binding.projection nested

/-- The checks of one arm of a variant switch, and what has been seen after it. -/
def validate_variant_switch_arm (scrutinee_ty : ResolvedTypeId) (allow_move_owned_payload : Bool)
    (last : Bool) (seen : List NodeId) (has_default : Bool) (arm : MirSwitchArm) :
    Except String (List NodeId × Bool) :=
  match arm.case with
  | .variant variant => do
      reject has_default "variant switch has an arm after its default"
      let _ ← self.validated_variant_switch_case scrutinee_ty variant
      reject (variant ∈ seen) s!"variant switch case '{variant.val}' is repeated"
      arm.bindings.forM
        (self.validate_variant_switch_binding scrutinee_ty allow_move_owned_payload variant)
      return (variant :: seen, has_default)
  | .default => do
      reject has_default "variant switch has more than one default arm"
      reject (!last) "variant switch default arm must be last"
      reject (!arm.bindings.isEmpty) "variant switch default arm cannot bind a payload"
      return (seen, true)
  | .literal _ => .error "variant switch cannot use a literal case"

/-- The arms of a variant switch in turn. -/
def validate_variant_switch_arms (scrutinee_ty : ResolvedTypeId) (allow_move_owned_payload : Bool) :
    List MirSwitchArm → List NodeId → Bool → Except String (List NodeId × Bool)
  | [], seen, has_default => .ok (seen, has_default)
  | arm :: arms, seen, has_default => do
      let state ← self.validate_variant_switch_arm scrutinee_ty allow_move_owned_payload arms.isEmpty seen
        has_default arm
      validate_variant_switch_arms scrutinee_ty allow_move_owned_payload arms state.1 state.2

def validate_variant_switch_cases (scrutinee_ty : ResolvedTypeId) (arms : List MirSwitchArm)
    (allow_move_owned_payload : Bool) : Except String Unit :=
  match self.variant_layout scrutinee_ty with
  | none =>
      reject (arms.any fun arm => arm.case.isVariant)
        s!"switch scrutinee type '{scrutinee_ty.val}' has no canonical variant layout"
  | some (_, variants) => do
      reject arms.isEmpty "variant switch has no arms"
      let state ← self.validate_variant_switch_arms scrutinee_ty allow_move_owned_payload arms [] false
      reject (!state.2 && state.1.length ≠ variants.length)
        ("variant switch is not exhaustive; missing: " ++ ", ".intercalate
          ((variants.filter fun candidate => candidate.id ∉ state.1).map MirVariantDesc.name))

/-- A surface enumeration that is copied. -/
def isCopyEnum (descriptor : MirTypeDesc) : Bool :=
  match descriptor.layout with
  | .enum _ _ => descriptor.kind = .nominal && descriptor.ownership = .copy
  | _ => false

def validate_switch (scrutinee_ty : ResolvedTypeId) (arms : List MirSwitchArm) :
    Except String Unit := do
  if (self.get scrutinee_ty).any isCopyEnum then
    self.validate_flat_copy_variant scrutinee_ty
  self.validate_variant_switch_cases scrutinee_ty arms false

/-- Note that a field is bound: directly, or an element of the tuple that it holds. -/
def bindField (bound : SortedMap NodeId (Option (Finset Nat))) (field : NodeId)
    (nested : Option MirTupleProjectionContract) :
    Except String (SortedMap NodeId (Option (Finset Nat))) :=
  match nested with
  | some nested =>
      match (bound.find? field).getD (some ∅) with
      | none =>
          .error s!"switch-move binding field '{field.val}' mixes direct and nested tuple projections"
      | some indices =>
          if nested.fieldIndex ∈ indices then
            .error (s!"switch-move nested tuple index {nested.fieldIndex} is repeated for field '" ++
              s!"{field.val}'")
          else .ok (bound.insert field (some (insert nested.fieldIndex indices)))
  | none =>
      if (bound.find? field).isSome then
        .error s!"switch-move binding field '{field.val}' is repeated"
      else .ok (bound.insert field none)

/-- A field whose tuple is bound element by element has all elements bound. -/
def checkNestedField (variant : MirVariantDesc) (field_id : NodeId) (indices : Option (Finset Nat)) :
    Except String Unit :=
  match indices with
  | none => .ok ()
  | some indices => do
      let field ← orError (variant.fields.find? fun field => field.id = field_id)
        s!"switch-move nested tuple field '{field_id.val}' disappeared from variant '{variant.name}'"
      let tuple ← orError (self.get field.ty)
        s!"nested tuple payload field '{field.name}' type '{field.ty.val}' is absent from TypeDesc"
      let elements ← orError (tupleElements tuple)
        s!"nested tuple payload field '{field.name}' has no tuple layout"
      reject (indices ≠ Finset.range elements.length)
        s!"nested tuple payload field '{field.name}' must bind every element exactly once"

/-- The first field whose tuple is bound element by element. -/
def checkNestedOuter (outer : Option NodeId) (binding : MirSwitchBinding) :
    Except String (Option NodeId) :=
  match binding.nestedTuple with
  | none => .ok outer
  | some _ => do
      reject (outer.getD binding.projection.field ≠ binding.projection.field)
        "switch-move nested tuple bindings may consume only one outer variant field"
      return some (outer.getD binding.projection.field)

/-- The bindings of an arm of a consuming switch. -/
def validate_move_bindings (variant : MirVariantDesc) :
    List MirSwitchBinding → SortedMap NodeId (Option (Finset Nat)) → Option NodeId →
      Except String (SortedMap NodeId (Option (Finset Nat)))
  | [], bound, _ => .ok bound
  | binding :: bindings, bound, outer => do
      reject (!variant.fields.any fun field => field.id = binding.projection.field)
        (s!"switch-move binding field '{binding.projection.field.val}' is absent from variant '" ++
          s!"{variant.name}'")
      let outer ← checkNestedOuter outer binding
      let bound ← bindField bound binding.projection.field binding.nestedTuple
      validate_move_bindings variant bindings bound outer

def validate_switch_move_arm (scrutinee_ty : ResolvedTypeId) (arm : MirSwitchArm) : Except String Unit :=
  match arm.case with
  | .variant variant_id => do
      let case_ ← self.validated_variant_switch_case scrutinee_ty variant_id
      let bound ← validate_move_bindings case_.2 arm.bindings .empty none
      bound.entries.forM fun entry => self.checkNestedField case_.2 entry.1 entry.2
  | _ => .ok ()

def validate_switch_move (scrutinee_ty : ResolvedTypeId) (arms : List MirSwitchArm) :
    Except String Unit := do
  let descriptor ← orError (self.get scrutinee_ty)
    s!"switch-move scrutinee type '{scrutinee_ty.val}' is absent from TypeDesc"
  reject (descriptor.ownership = .copy)
    s!"switch-move scrutinee type '{scrutinee_ty.val}' is Copy; use Switch"
  reject (self.variant_layout scrutinee_ty).isNone
    s!"switch-move scrutinee type '{scrutinee_ty.val}' has no canonical tagged-variant layout"
  self.validate_glue scrutinee_ty .moveOut
  self.validate_glue scrutinee_ty .drop
  self.validate_variant_switch_cases scrutinee_ty arms true
  arms.forM (self.validate_switch_move_arm scrutinee_ty)

/-- The receipt of a binding of a consuming switch. -/
def validate_move_receipt (scrutinee_ty : ResolvedTypeId) (variant_id : NodeId)
    (binding : MirSwitchBinding) : Except String Unit :=
  match binding.nestedTuple with
  | some nested =>
      self.validate_variant_nested_tuple_payload_projection_receipt scrutinee_ty variant_id
        nested.fieldTy binding.projection nested
  | none =>
      self.validate_variant_payload_projection_receipt scrutinee_ty variant_id
        binding.projection.fieldTy binding.projection

/-- The receipts of the bindings of an arm of a consuming switch. -/
def validate_move_receipts (scrutinee_ty : ResolvedTypeId) (variant_id : NodeId)
    (variant : MirVariantDesc) :
    List MirSwitchBinding → SortedMap NodeId (Option (Finset Nat)) →
      Except String (SortedMap NodeId (Option (Finset Nat)))
  | [], bound => .ok bound
  | binding :: bindings, bound => do
      let field ← orError variant.fields[binding.projection.fieldIndex]?
        (s!"switch-move binding field '{binding.projection.field.val}' is outside variant '" ++
          s!"{variant.name}'")
      self.validate_move_receipt scrutinee_ty variant_id binding
      let bound ← bindField bound field.id binding.nestedTuple
      (self.validate_glue field.ty .moveOut).mapError fun message =>
        s!"switch-move bound field '{field.id.val}' has no canonical MoveOut glue: {message}"
      validate_move_receipts scrutinee_ty variant_id variant bindings bound

def validate_switch_move_receipts (scrutinee_ty : ResolvedTypeId) (arm : MirSwitchArm) :
    Except String Unit :=
  match arm.case with
  | .variant variant_id => do
      let case_ ← self.validated_variant_switch_case scrutinee_ty variant_id
      let bound ← self.validate_move_receipts scrutinee_ty variant_id case_.2 arm.bindings .empty
      bound.entries.forM fun entry => self.checkNestedField case_.2 entry.1 entry.2
  | _ => .ok ()

def validate_variant_switch_move_contract (scrutinee_ty : ResolvedTypeId) (arms : List MirSwitchArm) :
    Except String Unit := do
  self.validate_switch_move scrutinee_ty arms
  arms.forM (self.validate_switch_move_receipts scrutinee_ty)

/-- The number of bits of the integers that a scalar switch takes. -/
def switchBits : MirAbiClass → Option Nat
  | .integer bits signed => if (bits = 32 ∨ bits = 64) ∧ signed then some bits else none
  | _ => none

/-- The literal of an arm fits the scrutinee. -/
def validate_scalar_case (abi : MirAbiClass) : ResolvedLiteral → Except String Unit
  | .bool _ => reject (abi ≠ .bool) "scalar switch case is outside the scrutinee ABI"
  | .int value => do
      let bits ← orError (switchBits abi) "scalar switch case is outside the scrutinee ABI"
      reject (bits = 32 && !(-2147483648 ≤ value && value ≤ 2147483647))
        s!"scalar switch case {value} is outside the i32 scrutinee range"
  | _ => .error "scalar switch case is outside the scrutinee ABI"

/-- The literals of a scalar switch; the default arm comes last. -/
def validate_scalar_arms (abi : MirAbiClass) :
    List MirSwitchArm → List ResolvedLiteral → Bool → Except String (List ResolvedLiteral × Bool)
  | [], seen, has_default => .ok (seen, has_default)
  | arm :: arms, seen, has_default => do
      reject (!arm.bindings.isEmpty) "scalar switch arm cannot bind a payload"
      match arm.case with
      | .literal literal => do
          reject has_default "scalar switch has an arm after its default"
          validate_scalar_case abi literal
          reject (literal ∈ seen) "scalar switch case is repeated"
          validate_scalar_arms abi arms (literal :: seen) has_default
      | .default => do
          reject has_default "scalar switch has more than one default arm"
          reject (!arms.isEmpty) "scalar switch default arm must be last"
          validate_scalar_arms abi arms seen true
      | .variant _ => .error "scalar switch cannot use a variant case"

def validate_scalar_switch (scrutinee_ty : ResolvedTypeId) (arms : List MirSwitchArm) :
    Except String Unit := do
  let descriptor ← orError (self.get scrutinee_ty)
    s!"type '{scrutinee_ty.val}' is absent from MIR type catalog"
  reject (descriptor.layout ≠ .scalar)
    s!"scalar switch scrutinee type '{scrutinee_ty.val}' layout is outside the scalar switch contract"
  reject (descriptor.abi ≠ .bool && (switchBits descriptor.abi).isNone)
    s!"scalar switch scrutinee type '{scrutinee_ty.val}' ABI is outside the scalar switch contract"
  reject arms.isEmpty "scalar switch has no arms"
  let state ← validate_scalar_arms descriptor.abi arms [] false
  reject (descriptor.abi = .bool && !state.2 && !(.bool false ∈ state.1 && .bool true ∈ state.1))
    "bool scalar switch must cover true and false or carry a default"
  reject (descriptor.abi ≠ .bool && !state.2) "integer scalar switch must carry a default arm"

/-! ### Shape tables -/

def validate_variant_table (ty : ResolvedTypeId) :
    List MirVariantDesc → List MirVariantDesc → Except String Unit
  | [], _ => .ok ()
  | variant :: variants, seen => do
      reject variant.id.val.isEmpty s!"type '{ty.val}' has a variant with an empty canonical identity"
      reject (seen.any fun other => other.id = variant.id)
        s!"type '{ty.val}' has duplicate canonical variant identity '{variant.id.val}'"
      reject (seen.any fun other => other.name = variant.name)
        s!"type '{ty.val}' has duplicate variant tag '{variant.name}'"
      reject (seen.any fun other => other.discriminant = variant.discriminant)
        s!"type '{ty.val}' has duplicate variant discriminant {variant.discriminant}"
      validate_variant_table ty variants (variant :: seen)

def validated_variant_shape_table (ty : ResolvedTypeId) :
    Except String (String × List MirVariantDesc) := do
  let table ← orError (self.variant_layout ty)
    s!"type '{ty.val}' has no canonical tagged-variant layout"
  reject table.2.isEmpty s!"type '{ty.val}' has an empty canonical variant table"
  validate_variant_table ty table.2 []
  return table

def validated_variant_drop_contract_table (ty : ResolvedTypeId) :
    Except String (String × List MirVariantDesc) := do
  let table ← self.validated_variant_shape_table ty
  self.validate_variant_glue ty .drop
  return table

end MirTypeCatalog

end Mimi.Mir
