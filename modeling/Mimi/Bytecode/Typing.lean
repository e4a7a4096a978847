/-
Module: Mimi.Bytecode.Typing
Purpose: What it means for a runtime value to belong to a type of the catalog.
Trusted boundary: the shapes of the values are those that the machine gives to the layouts of the catalog
-/
import Mimi.Bytecode.Value
import Mimi.Mir.TypeDesc

namespace Mimi.Bytecode

open Mimi.Core Mimi.Mir

/-- Tuples, records and variants are made of other values. -/
def isAggregate : MirLayout → Bool
  | .tuple _ | .record _ _ | .option _ _ | .result _ _ _ | .enum _ _ => true
  | _ => false

/-- Only values without an owner are units, and a map root has the glue of map roots. -/
structure PlainValue (descriptor : MirTypeDesc) (value : Value) : Prop where
  owned : descriptor.ownership ≠ .copy → value ≠ .unit
  root : value.isMapRoot = true →
    descriptor.ownership ≠ .copy ∧ descriptor.glue.moveOut = .mapRoot ∧ descriptor.glue.drop = .mapRoot
  bool : descriptor.layout = .scalar → descriptor.abi = .bool → ∃ b, value = .bool b
  int : descriptor.layout = .scalar → ∀ bits signed, descriptor.abi = .integer bits signed →
    ∃ n, value = .int n

inductive HasType (catalog : MirTypeCatalog) : Value → ResolvedTypeId → Prop
  | plain {value : Value} {ty : ResolvedTypeId} {descriptor : MirTypeDesc}
      (known : catalog.get ty = some descriptor) (layout : isAggregate descriptor.layout = false)
      (plain : PlainValue descriptor value) : HasType catalog value ty
  | tuple {items : List Value} {ty : ResolvedTypeId} {descriptor : MirTypeDesc}
      {elements : List ResolvedTypeId}
      (known : catalog.get ty = some descriptor) (layout : descriptor.layout = .tuple elements)
      (arity : items.length = elements.length)
      (children : ∀ (i : Nat) (item : Value) (element : ResolvedTypeId), items[i]? = some item →
        elements[i]? = some element → HasType catalog item element) :
      HasType catalog (.tuple items) ty
  | record {name : Option String} {values : List (String × Value)} {ty : ResolvedTypeId}
      {descriptor : MirTypeDesc} {nominal : NominalTypeId} {fields : List MirFieldDesc}
      (known : catalog.get ty = some descriptor) (layout : descriptor.layout = .record nominal fields)
      (names : (values.map Prod.fst).Perm (fields.map MirFieldDesc.name))
      (children : ∀ field ∈ fields, ∀ value, (field.name, value) ∈ values →
        HasType catalog value field.ty) :
      HasType catalog (.record name values) ty
  | variant {value : Value} {ty : ResolvedTypeId} {nominal : String} {variants : List MirVariantDesc}
      {variant : MirVariantDesc} {payload : List Value} {identity : Option (NominalTypeId × NodeId)}
      (layout : catalog.variant_layout ty = some (nominal, variants)) (declared : variant ∈ variants)
      (parts : value.variantParts = some (variant.name, payload, identity))
      (identified : ∀ id, identity = some id → id.1.val = nominal ∧ id.2 = variant.id)
      (arity : payload.length = variant.fields.length)
      (children : ∀ (i : Nat) (item : Value) (field : MirFieldDesc), payload[i]? = some item →
        variant.fields[i]? = some field → HasType catalog item field.ty) :
      HasType catalog value ty

variable {catalog : MirTypeCatalog} {value : Value} {ty : ResolvedTypeId} {descriptor : MirTypeDesc}

theorem variant_layout_isAggregate {family : String × List MirVariantDesc}
    (known : catalog.get ty = some descriptor) (layout : catalog.variant_layout ty = some family) :
    isAggregate descriptor.layout = true ∧ (∀ elements, descriptor.layout ≠ .tuple elements) ∧
      ∀ nominal fields, descriptor.layout ≠ .record nominal fields := by
  unfold MirTypeCatalog.variant_layout at layout
  rw [known] at layout
  dsimp only at layout
  cases shape : descriptor.layout with
  | option | result | enum => exact ⟨rfl, fun _ h => (by cases h), fun _ _ h => (by cases h)⟩
  | _ =>
      rw [shape] at layout
      cases layout

/-- What a value of a family of variants consists of. -/
structure VariantValue (catalog : MirTypeCatalog) (nominal : String) (variants : List MirVariantDesc)
    (value : Value) where
  variant : MirVariantDesc
  payload : List Value
  identity : Option (NominalTypeId × NodeId)
  declared : variant ∈ variants
  parts : value.variantParts = some (variant.name, payload, identity)
  identified : ∀ id, identity = some id → id.1.val = nominal ∧ id.2 = variant.id
  arity : payload.length = variant.fields.length
  children : ∀ (i : Nat) (item : Value) (field : MirFieldDesc), payload[i]? = some item →
    variant.fields[i]? = some field → HasType catalog item field.ty

theorem HasType.variant_inv {nominal : String} {variants : List MirVariantDesc}
    (typed : HasType catalog value ty) (layout : catalog.variant_layout ty = some (nominal, variants)) :
    Nonempty (VariantValue catalog nominal variants value) := by
  cases typed with
  | plain known plain =>
      rw [(variant_layout_isAggregate known layout).1] at plain
      cases plain
  | tuple known shape => exact absurd shape ((variant_layout_isAggregate known layout).2.1 _)
  | record known shape => exact absurd shape ((variant_layout_isAggregate known layout).2.2 _ _)
  | variant layout' declared parts identified arity children =>
      rw [layout] at layout'
      obtain ⟨rfl, rfl⟩ := Prod.mk.inj (Option.some.inj layout')
      exact ⟨⟨_, _, _, declared, parts, identified, arity, children⟩⟩

theorem HasType.tuple_inv {elements : List ResolvedTypeId} (typed : HasType catalog value ty)
    (known : catalog.get ty = some descriptor) (layout : descriptor.layout = .tuple elements) :
    ∃ items, value = .tuple items ∧ items.length = elements.length ∧
      ∀ (i : Nat) (item : Value) (element : ResolvedTypeId), items[i]? = some item →
        elements[i]? = some element → HasType catalog item element := by
  cases typed with
  | plain known' plain =>
      obtain rfl := Option.some.inj (known.symm.trans known')
      rw [layout] at plain
      cases plain
  | tuple known' shape arity children =>
      obtain rfl := Option.some.inj (known.symm.trans known')
      rw [layout] at shape
      cases shape
      exact ⟨_, rfl, arity, children⟩
  | record known' shape =>
      obtain rfl := Option.some.inj (known.symm.trans known')
      rw [layout] at shape
      cases shape
  | variant layout' => exact absurd layout ((variant_layout_isAggregate known layout').2.1 _)

theorem HasType.record_inv {nominal : NominalTypeId} {fields : List MirFieldDesc}
    (typed : HasType catalog value ty) (known : catalog.get ty = some descriptor)
    (layout : descriptor.layout = .record nominal fields) :
    ∃ name values, value = .record name values ∧ values.length = fields.length := by
  cases typed with
  | plain known' plain =>
      obtain rfl := Option.some.inj (known.symm.trans known')
      rw [layout] at plain
      cases plain
  | tuple known' shape =>
      obtain rfl := Option.some.inj (known.symm.trans known')
      rw [layout] at shape
      cases shape
  | record known' shape names =>
      obtain rfl := Option.some.inj (known.symm.trans known')
      rw [layout] at shape
      cases shape
      refine ⟨_, _, rfl, ?_⟩
      have same := names.length_eq
      rwa [List.length_map, List.length_map] at same
  | variant layout' => exact absurd layout ((variant_layout_isAggregate known layout').2.2 _ _)

theorem HasType.plain_inv (typed : HasType catalog value ty) (known : catalog.get ty = some descriptor)
    (layout : isAggregate descriptor.layout = false) : PlainValue descriptor value := by
  cases typed with
  | plain known' _ plain =>
      obtain rfl := Option.some.inj (known.symm.trans known')
      exact plain
  | tuple known' shape =>
      obtain rfl := Option.some.inj (known.symm.trans known')
      rw [shape] at layout
      cases layout
  | record known' shape =>
      obtain rfl := Option.some.inj (known.symm.trans known')
      rw [shape] at layout
      cases layout
  | variant layout' =>
      rw [(variant_layout_isAggregate known layout').1] at layout
      cases layout

/-- A value with an owner is not a unit. -/
theorem HasType.ne_unit (typed : HasType catalog value ty) (known : catalog.get ty = some descriptor)
    (owned : descriptor.ownership ≠ .copy) : value ≠ .unit := by
  cases typed with
  | plain known' _ plain =>
      obtain rfl := Option.some.inj (known.symm.trans known')
      exact plain.owned owned
  | tuple | record => exact fun h => (by cases h)
  | variant _ _ parts =>
      intro empty
      rw [empty] at parts
      cases parts

theorem HasType.root_glue (typed : HasType catalog value ty) (known : catalog.get ty = some descriptor)
    (root : value.isMapRoot = true) :
    descriptor.ownership ≠ .copy ∧ descriptor.glue.moveOut = .mapRoot ∧
      descriptor.glue.drop = .mapRoot := by
  cases typed with
  | plain known' _ plain =>
      obtain rfl := Option.some.inj (known.symm.trans known')
      exact plain.root root
  | tuple | record => cases root
  | variant _ _ parts =>
      cases value with
      | canonicalMapRoot => cases parts
      | _ => cases root

end Mimi.Bytecode
