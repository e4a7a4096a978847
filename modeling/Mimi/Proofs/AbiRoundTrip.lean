/-
Module: Mimi.Proofs.AbiRoundTrip
Purpose: What survives serialization: a Component IR comes back exactly when all its structs are
  `repr(C)`, the serialized form of a consistent IR is accepted, and what is accepted comes back.
Trusted boundary: none
-/
import Mimi.Component.Serialize

namespace Mimi.Component

open Mimi.Lib

/-! ### From the Component IR and back -/

@[simp] theorem parse_primitive_debug (p : AbiPrimitive) : parse_primitive p.debug = p :=
  primitiveSpelling.readOr_text _ p

@[simp] theorem parse_symbol_kind_debug (kind : AbiSymbolKind) :
    parse_symbol_kind kind.debug = kind :=
  symbolKindSpelling.readOr_text _ kind

@[simp] theorem parse_call_conv_debug (conv : AbiCallConv) : parse_call_conv conv.debug = conv :=
  callConvSpelling.readOr_text _ conv

@[simp] theorem parse_callback_category_debug (category : AbiCallbackCategory) :
    parse_callback_category category.debug = category :=
  callbackCategorySpelling.readOr_text _ category

@[simp] theorem typeRef_fromMimi_fromAbi (ty : AbiTypeRef) :
    AbiTypeRef.fromMimi (.fromAbi ty) = ty := by
  induction ty with
  | primitive p => simp [MimiAbiTypeRef.fromAbi, AbiTypeRef.fromMimi]
  | named name => rfl
  | pointer inner ih => simp [MimiAbiTypeRef.fromAbi, AbiTypeRef.fromMimi, ih]
  | slice inner ih => simp [MimiAbiTypeRef.fromAbi, AbiTypeRef.fromMimi, ih]
  | opaque_ name => rfl
  | fatPointer element has_capacity ih =>
      simp [MimiAbiTypeRef.fromAbi, AbiTypeRef.fromMimi, ih]
  | void => rfl

@[simp] theorem param_fromMimi_fromAbi (p : AbiParam) : AbiParam.fromMimi (.fromAbi p) = p := by
  simp [MimiAbiParam.fromAbi, AbiParam.fromMimi]

@[simp] theorem field_fromMimi_fromAbi (f : AbiField) : AbiField.fromMimi (.fromAbi f) = f := by
  simp [MimiAbiField.fromAbi, AbiField.fromMimi]

/-- A list comes back when each of its elements does. -/
theorem map_map_eq_self_iff {α β : Type} {there : α → β} {back : β → α} {l : List α} :
    (l.map there).map back = l ↔ ∀ a ∈ l, back (there a) = a := by
  calc (l.map there).map back = l ↔ l.map (back ∘ there) = l.map id := by
        rw [List.map_map, List.map_id]
    _ ↔ ∀ a ∈ l, back (there a) = a := List.map_inj_left

theorem map_map_eq_self {α β : Type} {there : α → β} {back : β → α}
    (comes : ∀ a, back (there a) = a) (l : List α) : (l.map there).map back = l :=
  map_map_eq_self_iff.mpr fun a _ => comes a

@[simp] theorem symbol_fromMimi_fromAbi (sym : AbiSymbol) :
    AbiSymbol.fromMimi (.fromAbi sym) = sym := by
  have params := map_map_eq_self param_fromMimi_fromAbi sym.params
  have category : (sym.callback_category.map AbiCallbackCategory.debug).map
      parse_callback_category = sym.callback_category := by
    cases sym.callback_category <;> simp
  simp only [MimiAbiSymbol.fromAbi, AbiSymbol.fromMimi, params, category,
    parse_symbol_kind_debug, parse_call_conv_debug, typeRef_fromMimi_fromAbi]

/-- A struct is marked `repr(C)`; the other definitions have no such mark. -/
def AbiTypeDef.ReprC : AbiTypeDef → Prop
  | .struct s => s.is_repr_c = true
  | .enum _ => True
  | .alias_ _ => True
  | .opaque_ _ => True

instance (def_ : AbiTypeDef) : Decidable def_.ReprC := by
  cases def_ <;> unfold AbiTypeDef.ReprC <;> infer_instance

/-- Every struct of the Component IR is marked `repr(C)`. -/
def ComponentIr.AllReprC (ir : ComponentIr) : Prop :=
  ∀ ty ∈ ir.types, ty.ReprC

theorem typeDef_fromMimi_fromAbi {ty : AbiTypeDef} :
    AbiTypeDef.fromMimi (.fromAbi ty) = ty ↔ ty.ReprC := by
  cases ty with
  | struct s =>
      have fields := map_map_eq_self field_fromMimi_fromAbi s.fields
      simp only [MimiAbiType.fromAbi, AbiTypeDef.fromMimi, AbiTypeDef.ReprC, fields]
      constructor
      · intro same
        rw [← AbiTypeDef.struct.inj same]
      · intro repr_c
        rw [← repr_c]
  | enum e => simp [MimiAbiType.fromAbi, AbiTypeDef.fromMimi, AbiTypeDef.ReprC]
  | alias_ a => simp [MimiAbiType.fromAbi, AbiTypeDef.fromMimi, AbiTypeDef.ReprC]
  | opaque_ o => simp [MimiAbiType.fromAbi, AbiTypeDef.fromMimi, AbiTypeDef.ReprC]

theorem to_from_component_ir_iff {ir : ComponentIr} :
    (MimiAbi.from_component_ir ir).to_component_ir = ir ↔ ir.AllReprC := by
  have exported := map_map_eq_self symbol_fromMimi_fromAbi ir.exports
  have imported := map_map_eq_self symbol_fromMimi_fromAbi ir.imports
  obtain ⟨identity, exports, imports, types⟩ := ir
  simp only [MimiAbi.from_component_ir, MimiAbi.to_component_ir, exported, imported,
    MimiAbiIdentity.fromAbi, ComponentIr.mk.injEq, true_and, map_map_eq_self_iff,
    typeDef_fromMimi_fromAbi, ComponentIr.AllReprC]

/-! ### Names in an accepted `.mimiabi` -/

/-- Every primitive in the reference is known. -/
def MimiAbiTypeRef.Known : MimiAbiTypeRef → Prop
  | .primitive name => primitiveSpelling.Known name
  | .named _ => True
  | .pointer inner => inner.Known
  | .slice inner => inner.Known
  | .opaque_ _ => True
  | .fatPointer element _ => element.Known
  | .void => True

structure MimiAbiSymbol.Known (sym : MimiAbiSymbol) : Prop where
  kind : symbolKindSpelling.Known sym.kind
  call_conv : callConvSpelling.Known sym.call_conv
  category : ∀ cat ∈ sym.callback_category, callbackCategorySpelling.Known cat
  ret : sym.ret.Known
  params : ∀ param ∈ sym.params, param.ty.Known

def MimiAbiType.Known : MimiAbiType → Prop
  | .struct _ fields _ _ => ∀ field ∈ fields, field.ty.Known
  | .enum _ _ repr => primitiveSpelling.Known repr
  | .alias_ _ target => target.Known
  | .opaque_ _ _ => True

/-- What an accepted `.mimiabi` is: the current version, known names, and a consistent Component
IR. -/
structure MimiAbi.Valid (order : SetOrder) (abi : MimiAbi) : Prop where
  version : abi.format_version = FORMAT_VERSION
  exports : ∀ sym ∈ abi.exports, sym.Known
  imports : ∀ sym ∈ abi.imports, sym.Known
  types : ∀ ty ∈ abi.types, ty.Known
  consistent : abi.to_component_ir.validate order = []

theorem reject_unknown {α : Type} (spelling : Spelling α) {name : String} {error : MimiAbiError} :
    reject (spelling.read name).isNone error = .ok () ↔ spelling.Known name := by
  rw [reject_eq_ok, Spelling.Known]
  cases spelling.read name <;> simp

theorem validate_type_ref_iff {ty : MimiAbiTypeRef} :
    validate_type_ref ty = .ok () ↔ ty.Known := by
  induction ty with
  | primitive name => exact reject_unknown primitiveSpelling
  | named name => exact iff_of_true rfl trivial
  | pointer inner ih => exact ih
  | slice inner ih => exact ih
  | opaque_ name => exact iff_of_true rfl trivial
  | fatPointer element has_capacity ih => exact ih
  | void => exact iff_of_true rfl trivial

theorem validate_symbol_iff {sym : MimiAbiSymbol} : validate_symbol sym = .ok () ↔ sym.Known := by
  have kind : reject (try_parse_symbol_kind sym.kind).isNone
      (MimiAbiError.unknownSymbolKind sym.kind) = .ok () ↔ symbolKindSpelling.Known sym.kind :=
    reject_unknown symbolKindSpelling
  have conv : reject (try_parse_call_conv sym.call_conv).isNone
      (MimiAbiError.unknownCallConv sym.call_conv) = .ok () ↔
        callConvSpelling.Known sym.call_conv :=
    reject_unknown callConvSpelling
  have category : ∀ cat, reject (try_parse_callback_category cat).isNone
      (MimiAbiError.unknownCallbackCategory cat) = .ok () ↔ callbackCategorySpelling.Known cat :=
    fun cat => reject_unknown callbackCategorySpelling
  simp only [validate_symbol, check_eq_ok, forM_eq_ok, Option.mem_toList, kind, conv, category,
    validate_type_ref_iff]
  constructor
  · rintro ⟨knownKind, knownConv, knownCategory, knownRet, knownParams⟩
    exact ⟨knownKind, knownConv, knownCategory, knownRet, knownParams⟩
  · intro known
    exact ⟨known.kind, known.call_conv, known.category, known.ret, known.params⟩

theorem validate_type_iff {ty : MimiAbiType} : validate_type ty = .ok () ↔ ty.Known := by
  cases ty with
  | struct name fields size align =>
      simp only [validate_type, forM_eq_ok, validate_type_ref_iff, MimiAbiType.Known]
  | enum name variants repr => exact reject_unknown primitiveSpelling
  | alias_ name target => exact validate_type_ref_iff
  | opaque_ name description => exact iff_of_true rfl trivial

theorem validate_deserialized_iff {table : CharTable} {order : SetOrder} {abi : MimiAbi} :
    abi.validate_deserialized table order = .ok () ↔ abi.Valid order := by
  simp only [MimiAbi.validate_deserialized, check_eq_ok, reject_eq_ok, forM_eq_ok,
    validate_symbol_iff, validate_type_iff, List.mem_append, or_imp, forall_and, bne_eq_false_iff_eq]
  constructor
  · rintro ⟨version, ⟨exports, imports⟩, types, consistent⟩
    refine ⟨version, exports, imports, types, ?_⟩
    split at consistent
    · assumption
    · cases consistent
  · intro valid
    refine ⟨valid.version, ⟨valid.exports, valid.imports⟩, valid.types, ?_⟩
    rw [valid.consistent]

/-! ### From an accepted `.mimiabi` and back -/

theorem typeRef_fromAbi_fromMimi {ty : MimiAbiTypeRef} (known : ty.Known) :
    MimiAbiTypeRef.fromAbi (.fromMimi ty) = ty := by
  induction ty with
  | primitive name => exact congrArg _ (primitiveSpelling.text_readOr known)
  | named name => rfl
  | pointer inner ih => exact congrArg _ (ih known)
  | slice inner ih => exact congrArg _ (ih known)
  | opaque_ name => rfl
  | fatPointer element has_capacity ih =>
      exact congrArg (MimiAbiTypeRef.fatPointer · has_capacity) (ih known)
  | void => rfl

theorem param_fromAbi_fromMimi {p : MimiAbiParam} (known : p.ty.Known) :
    MimiAbiParam.fromAbi (.fromMimi p) = p := by
  rw [AbiParam.fromMimi, MimiAbiParam.fromAbi, typeRef_fromAbi_fromMimi known]

theorem field_fromAbi_fromMimi {f : MimiAbiField} (known : f.ty.Known) :
    MimiAbiField.fromAbi (.fromMimi f) = f := by
  rw [AbiField.fromMimi, MimiAbiField.fromAbi, typeRef_fromAbi_fromMimi known]

theorem symbol_fromAbi_fromMimi {sym : MimiAbiSymbol} (known : sym.Known) :
    MimiAbiSymbol.fromAbi (.fromMimi sym) = sym := by
  have kind : (parse_symbol_kind sym.kind).debug = sym.kind :=
    symbolKindSpelling.text_readOr known.kind
  have conv : (parse_call_conv sym.call_conv).debug = sym.call_conv :=
    callConvSpelling.text_readOr known.call_conv
  have category : (sym.callback_category.map parse_callback_category).map
      AbiCallbackCategory.debug = sym.callback_category := by
    rcases same : sym.callback_category with _ | cat
    · rfl
    · exact congrArg some (callbackCategorySpelling.text_readOr (known.category cat same))
  have params : (sym.params.map .fromMimi).map .fromAbi = sym.params :=
    map_map_eq_self_iff.mpr fun p member => param_fromAbi_fromMimi (known.params p member)
  rw [AbiSymbol.fromMimi, MimiAbiSymbol.fromAbi]
  simp only [kind, conv, category, params, typeRef_fromAbi_fromMimi known.ret]

theorem type_fromAbi_fromMimi {ty : MimiAbiType} (known : ty.Known) :
    MimiAbiType.fromAbi (.fromMimi ty) = ty := by
  cases ty with
  | struct name fields size align =>
      have same : (fields.map .fromMimi).map .fromAbi = fields :=
        map_map_eq_self_iff.mpr fun f member => field_fromAbi_fromMimi (known f member)
      rw [AbiTypeDef.fromMimi, MimiAbiType.fromAbi, same]
  | enum name variants repr => exact congrArg _ (primitiveSpelling.text_readOr known)
  | alias_ name target => exact congrArg _ (typeRef_fromAbi_fromMimi known)
  | opaque_ name description => rfl

theorem from_to_component_ir {order : SetOrder} {abi : MimiAbi} (valid : abi.Valid order) :
    MimiAbi.from_component_ir abi.to_component_ir = abi := by
  have exported : (abi.exports.map .fromMimi).map .fromAbi = abi.exports :=
    map_map_eq_self_iff.mpr fun sym member => symbol_fromAbi_fromMimi (valid.exports sym member)
  have imported : (abi.imports.map .fromMimi).map .fromAbi = abi.imports :=
    map_map_eq_self_iff.mpr fun sym member => symbol_fromAbi_fromMimi (valid.imports sym member)
  have defined : (abi.types.map .fromMimi).map .fromAbi = abi.types :=
    map_map_eq_self_iff.mpr fun ty member => type_fromAbi_fromMimi (valid.types ty member)
  rw [MimiAbi.from_component_ir, MimiAbi.to_component_ir]
  simp only [exported, imported, defined, MimiAbiIdentity.fromAbi, ← valid.version]

/-! ### The serialized form of a Component IR is accepted -/

theorem typeRef_fromAbi_known (ty : AbiTypeRef) : (MimiAbiTypeRef.fromAbi ty).Known := by
  induction ty with
  | primitive p => exact primitiveSpelling.known_text p
  | named name => trivial
  | pointer inner ih => exact ih
  | slice inner ih => exact ih
  | opaque_ name => trivial
  | fatPointer element has_capacity ih => exact ih
  | void => trivial

theorem symbol_fromAbi_known (sym : AbiSymbol) : (MimiAbiSymbol.fromAbi sym).Known where
  kind := symbolKindSpelling.known_text sym.kind
  call_conv := callConvSpelling.known_text sym.call_conv
  category := by
    intro cat member
    obtain ⟨category, -, rfl⟩ := Option.map_eq_some_iff.mp member
    exact callbackCategorySpelling.known_text category
  ret := typeRef_fromAbi_known sym.ret
  params := by
    intro param member
    obtain ⟨p, -, rfl⟩ := List.mem_map.mp member
    exact typeRef_fromAbi_known p.ty

theorem type_fromAbi_known (ty : AbiTypeDef) : (MimiAbiType.fromAbi ty).Known := by
  cases ty with
  | struct s =>
      intro field member
      obtain ⟨f, -, rfl⟩ := List.mem_map.mp member
      exact typeRef_fromAbi_known f.ty
  | enum e => exact primitiveSpelling.known_text e.repr
  | alias_ a => exact typeRef_fromAbi_known a.target
  | opaque_ o => trivial

/-- The consistency check does not look at what the serialized form drops. -/
theorem validate_to_from (order : SetOrder) (ir : ComponentIr) :
    (MimiAbi.from_component_ir ir).to_component_ir.validate order = ir.validate order := by
  have exported := map_map_eq_self symbol_fromMimi_fromAbi ir.exports
  have imported := map_map_eq_self symbol_fromMimi_fromAbi ir.imports
  have defined : ((ir.types.map .fromAbi).map .fromMimi).map AbiTypeDef.name =
      ir.types.map AbiTypeDef.name := by
    rw [List.map_map, List.map_map]
    refine List.map_congr_left fun ty _ => ?_
    cases ty <;> rfl
  simp only [ComponentIr.validate, MimiAbi.from_component_ir, MimiAbi.to_component_ir, exported,
    imported, defined]

/-- Serialization produces an acceptable file exactly from a consistent Component IR. -/
theorem serialized_valid_iff {table : CharTable} {order : SetOrder} {ir : ComponentIr} :
    (MimiAbi.from_component_ir ir).validate_deserialized table order = .ok () ↔ ir.validate order = [] := by
  rw [validate_deserialized_iff, ← validate_to_from]
  refine ⟨fun valid => valid.consistent, fun consistent => ⟨rfl, ?_, ?_, ?_, consistent⟩⟩
  · intro sym member
    obtain ⟨s, -, rfl⟩ := List.mem_map.mp member
    exact symbol_fromAbi_known s
  · intro sym member
    obtain ⟨s, -, rfl⟩ := List.mem_map.mp member
    exact symbol_fromAbi_known s
  · intro ty member
    obtain ⟨t, -, rfl⟩ := List.mem_map.mp member
    exact type_fromAbi_known t

/-! ### Losslessness -/

/-- The serialized form of a Component IR gives the IR back exactly when all its structs are
`repr(C)`, and every accepted `.mimiabi` is given back by its IR. -/
theorem lossless_iff (table : CharTable) (order : SetOrder) :
    (∀ ir : ComponentIr, (MimiAbi.from_component_ir ir).to_component_ir = ir ↔ ir.AllReprC) ∧
      ∀ abi : MimiAbi, abi.validate_deserialized table order = .ok () →
        MimiAbi.from_component_ir abi.to_component_ir = abi :=
  ⟨fun _ => to_from_component_ir_iff,
    fun _ accepted => from_to_component_ir (validate_deserialized_iff.mp accepted)⟩

/-- A record type that the source does not mark `repr(C)`, as `mimi abi emit` collects it. -/
def plainRecordIr : ComponentIr where
  identity := { name := "shapes", version := "1", abi_version := 1 }
  exports := []
  imports := []
  types :=
    [.struct
      { name := "Point"
        fields := [{ name := "x", ty := .primitive .i32, offset := none }]
        is_repr_c := false
        size := none
        align := none }]

/-- Sets that come out in the order of insertion. -/
def SetOrder.inserted : SetOrder where
  walk := id
  perm := List.Perm.refl

/-- The consistent IR of a plain record is not given back. -/
theorem plain_record_not_lossless : plainRecordIr.validate .inserted = [] ∧
    (MimiAbi.from_component_ir plainRecordIr).to_component_ir ≠ plainRecordIr := by
  decide

/-- The serialized form of that record is accepted and given back by its IR. -/
theorem lossless_iff_plain_record :
    (¬ (MimiAbi.from_component_ir plainRecordIr).to_component_ir = plainRecordIr) ∧
      MimiAbi.from_component_ir
          (MimiAbi.from_component_ir plainRecordIr).to_component_ir =
        MimiAbi.from_component_ir plainRecordIr :=
  ⟨mt ((lossless_iff ⟨fun _ => true⟩ .inserted).1 plainRecordIr).mp (by unfold ComponentIr.AllReprC; decide),
    (lossless_iff ⟨fun _ => true⟩ .inserted).2 _ rfl⟩

end Mimi.Component
