/-
Module: Mimi.Proofs.SwitchContract
Purpose: What the contracts of the catalog for switches say of the arms: which parts of the scrutinee the
  bindings name, and that no two bindings of a consuming switch name the same part.
Trusted boundary: none
-/
import Mimi.Proofs.PayloadCode

namespace Mimi.Bytecode

open Mimi.Core Mimi.Mir Mimi.Lib

variable {catalog : MirTypeCatalog} {ty : ResolvedTypeId} {arms : List MirSwitchArm} {allow : Bool}

/-! ### Variant switches -/

/-- An arm of a variant switch that has passed its checks. -/
inductive CheckedArm (catalog : MirTypeCatalog) (ty : ResolvedTypeId) (allow : Bool) (arm : MirSwitchArm) :
    Prop
  | variant (id : NodeId) (case_eq : arm.case = .variant id)
      (bindings : ∀ binding ∈ arm.bindings,
        catalog.validate_variant_switch_binding ty allow id binding = .ok ())
  | default (case_eq : arm.case = .default) (bindings : arm.bindings = [])

theorem checked_arm {last has_default : Bool} {seen : List NodeId} {arm : MirSwitchArm}
    {state : List NodeId × Bool}
    (h : catalog.validate_variant_switch_arm ty allow last seen has_default arm = .ok state) :
    CheckedArm catalog ty allow arm := by
  unfold MirTypeCatalog.validate_variant_switch_arm at h
  cases case_eq : arm.case with
  | variant id =>
      rw [case_eq] at h
      obtain ⟨-, afterDefault⟩ := check_eq_ok.mp h
      obtain ⟨found, -, afterCase⟩ := bind_eq_ok.mp afterDefault
      obtain ⟨-, afterSeen⟩ := check_eq_ok.mp afterCase
      obtain ⟨bindings, -⟩ := check_eq_ok.mp afterSeen
      exact .variant id case_eq (forM_eq_ok.mp bindings)
  | default =>
      rw [case_eq] at h
      obtain ⟨-, afterDefault⟩ := check_eq_ok.mp h
      obtain ⟨-, afterLast⟩ := check_eq_ok.mp afterDefault
      obtain ⟨empty, -⟩ := check_eq_ok.mp afterLast
      refine .default case_eq (List.isEmpty_iff.mp ?_)
      have filled := reject_eq_ok.mp empty
      rwa [Bool.not_eq_false'] at filled
  | literal literal =>
      rw [case_eq] at h
      cases h

theorem arms_ok {seen : List NodeId} {has_default : Bool} {state : List NodeId × Bool}
    (h : catalog.validate_variant_switch_arms ty allow arms seen has_default = .ok state) :
    ∀ arm ∈ arms, CheckedArm catalog ty allow arm := by
  induction arms generalizing seen has_default with
  | nil => exact fun _ member => absurd member List.not_mem_nil
  | cons arm arms ih =>
      obtain ⟨mid, first, rest⟩ := bind_eq_ok.mp h
      exact List.forall_mem_cons.mpr ⟨checked_arm first, ih rest⟩

variable {family : String × List MirVariantDesc}

theorem switch_cases_ok (layout : catalog.variant_layout ty = some family)
    (h : catalog.validate_variant_switch_cases ty arms allow = .ok ()) :
    ∀ arm ∈ arms, CheckedArm catalog ty allow arm := by
  unfold MirTypeCatalog.validate_variant_switch_cases at h
  rw [layout] at h
  obtain ⟨-, rest⟩ := check_eq_ok.mp h
  obtain ⟨state, checked, -⟩ := bind_eq_ok.mp rest
  exact arms_ok checked

/-- The arms of a reading switch. -/
theorem reading_arms
    (layout : catalog.variant_layout ty = some family) (h : catalog.validate_switch ty arms = .ok ()) :
    ∀ arm ∈ arms, CheckedArm catalog ty false arm := by
  unfold MirTypeCatalog.validate_switch at h
  by_cases copied : (catalog.get ty).any MirTypeCatalog.isCopyEnum = true
  · rw [if_pos copied] at h
    obtain ⟨-, rest⟩ := check_eq_ok.mp h
    exact switch_cases_ok layout rest
  · rw [if_neg copied] at h
    exact switch_cases_ok layout h

variable {bindings : List MirSwitchBinding}

/-- The bindings of a reading switch name fields of the variant. -/
theorem reading_bindings {id : NodeId} {case_ : String × MirVariantDesc}
    (known : catalog.validated_variant_switch_case ty id = .ok case_)
    (checked : ∀ binding ∈ bindings, catalog.validate_variant_switch_binding ty false id binding = .ok ()) :
    ∀ binding ∈ bindings, binding.nestedTuple = none ∧ ∃ field, FieldOf case_.2 binding field := by
  intro binding member
  obtain ⟨receipt, rest⟩ := check_eq_ok.mp (checked binding member)
  obtain ⟨-, nested⟩ := check_eq_ok.mp rest
  obtain ⟨field, here, id_eq, ty_eq, -⟩ := projection_receipt receipt known
  refine ⟨?_, field, here, id_eq, ty_eq⟩
  cases isNested : binding.nestedTuple with
  | none => rfl
  | some tuple =>
      rw [isNested] at nested
      cases nested

/-! ### Consuming switches -/

/-- Two bindings name different parts of the scrutinee. -/
def Separate (binding other : MirSwitchBinding) : Prop :=
  binding.projection.fieldIndex = other.projection.fieldIndex → ∃ nested nested',
    binding.nestedTuple = some nested ∧ other.nestedTuple = some nested' ∧
      nested.fieldIndex ≠ nested'.fieldIndex

theorem Separate.symm {binding other : MirSwitchBinding} (separate : Separate binding other) :
    Separate other binding := by
  intro same
  obtain ⟨nested, nested', isNested, isNested', differs⟩ := separate same.symm
  exact ⟨nested', nested, isNested', isNested, differs.symm⟩

instance : Std.Symm Separate := ⟨fun _ _ separate => separate.symm⟩

/-- A field that is bound as a whole is not bound by elements. -/
theorem separate_direct (separate : bindings.Pairwise Separate)
    {binding other : MirSwitchBinding} (member : binding ∈ bindings) (member' : other ∈ bindings)
    (direct : binding.nestedTuple = none) (nested : other.nestedTuple.isSome = true) :
    binding.projection.fieldIndex ≠ other.projection.fieldIndex := by
  intro same
  have differs : binding ≠ other := by
    rintro rfl
    rw [direct] at nested
    cases nested
  obtain ⟨tuple, -, isNested, -⟩ :=
    separate.forall member member' differs same
  rw [direct] at isNested
  cases isNested

/-- The part that a binding names has not been noted. -/
def Fresh (bound : SortedMap NodeId (Option (Finset Nat))) (variant : MirVariantDesc)
    (binding : MirSwitchBinding) : Prop :=
  ∀ field, variant.fields[binding.projection.fieldIndex]? = some field →
    bound.find? field.id = none ∨ ∃ indices nested, bound.find? field.id = some (some indices) ∧
      binding.nestedTuple = some nested ∧ nested.fieldIndex ∉ indices

/-- What is fresh after a binding has been noted was fresh before, and is apart from the binding. -/
theorem fresh_of_bindField {bound bound' : SortedMap NodeId (Option (Finset Nat))}
    {variant : MirVariantDesc} {binding other : MirSwitchBinding} {field : MirFieldDesc}
    (here : variant.fields[binding.projection.fieldIndex]? = some field)
    (noted : MirTypeCatalog.bindField bound field.id binding.nestedTuple = .ok bound')
    {otherField : MirFieldDesc} (there : variant.fields[other.projection.fieldIndex]? = some otherField)
    (fresh : Fresh bound' variant other) : Fresh bound variant other ∧ Separate binding other := by
  unfold MirTypeCatalog.bindField at noted
  cases isNested : binding.nestedTuple with
  | none =>
      rw [isNested] at noted
      dsimp only at noted
      by_cases seen : (bound.find? field.id).isSome = true
      · rw [if_pos seen] at noted
        cases noted
      · rw [if_neg seen] at noted
        obtain rfl := Except.ok.inj noted
        have differs : otherField.id ≠ field.id := by
          intro same
          rcases fresh otherField there with none_ | some_
          · rw [SortedMap.find?_insert, if_pos same] at none_
            cases none_
          · obtain ⟨indices, nested, some_, -⟩ := some_
            rw [SortedMap.find?_insert, if_pos same] at some_
            cases some_
        refine ⟨fun field' there' => ?_, fun same => ?_⟩
        · obtain rfl := Option.some.inj (there.symm.trans there')
          have after := fresh otherField there
          rwa [SortedMap.find?_insert, if_neg differs] at after
        · rw [same, there] at here
          exact absurd (congrArg MirFieldDesc.id (Option.some.inj here)) differs
  | some nested =>
      rw [isNested] at noted
      dsimp only at noted
      cases indices : (bound.find? field.id).getD (some ∅) with
      | none =>
          rw [indices] at noted
          cases noted
      | some indices' =>
          rw [indices] at noted
          dsimp only at noted
          by_cases repeated : nested.fieldIndex ∈ indices'
          · rw [if_pos repeated] at noted
            cases noted
          · rw [if_neg repeated] at noted
            obtain rfl := Except.ok.inj noted
            by_cases same : otherField.id = field.id
            · obtain ⟨nested', otherNested, unlisted⟩ : ∃ nested', other.nestedTuple = some nested' ∧
                  nested'.fieldIndex ∉ insert nested.fieldIndex indices' := by
                rcases fresh otherField there with none_ | some_
                · rw [SortedMap.find?_insert, if_pos same] at none_
                  cases none_
                · obtain ⟨after, nested', some_, otherNested, unlisted⟩ := some_
                  rw [SortedMap.find?_insert, if_pos same] at some_
                  rw [← Option.some.inj (Option.some.inj some_)] at unlisted
                  exact ⟨nested', otherNested, unlisted⟩
              rw [Finset.mem_insert, not_or] at unlisted
              refine ⟨fun field' there' => ?_, fun _ => ⟨nested, nested', isNested, otherNested, ?_⟩⟩
              · obtain rfl := Option.some.inj (there.symm.trans there')
                rw [same]
                cases before : bound.find? field.id with
                | none => exact .inl rfl
                | some entry =>
                    rw [before] at indices
                    exact .inr ⟨indices', nested', congrArg some indices, otherNested, unlisted.2⟩
              · exact fun equal => unlisted.1 equal.symm
            · refine ⟨fun field' there' => ?_, fun sameIndex => ?_⟩
              · obtain rfl := Option.some.inj (there.symm.trans there')
                have after := fresh otherField there
                rwa [SortedMap.find?_insert, if_neg same] at after
              · rw [sameIndex, there] at here
                exact absurd (congrArg MirFieldDesc.id (Option.some.inj here)) same

theorem separate_of_receipts {id : NodeId} {variant : MirVariantDesc}
    {bound bound' : SortedMap NodeId (Option (Finset Nat))}
    (h : catalog.validate_move_receipts ty id variant bindings bound = .ok bound') :
    (∀ binding ∈ bindings, (∃ field, variant.fields[binding.projection.fieldIndex]? = some field) ∧
      Fresh bound variant binding) ∧ bindings.Pairwise Separate := by
  induction bindings generalizing bound with
  | nil => exact ⟨fun _ member => absurd member List.not_mem_nil, List.Pairwise.nil⟩
  | cons binding bindings ih =>
      obtain ⟨field, found, afterField⟩ := bind_eq_ok.mp h
      obtain ⟨-, afterReceipt⟩ := check_eq_ok.mp afterField
      obtain ⟨mid, noted, afterNoted⟩ := bind_eq_ok.mp afterReceipt
      obtain ⟨-, rest⟩ := check_eq_ok.mp afterNoted
      obtain ⟨later, separate⟩ := ih rest
      have here := orError_eq_ok.mp found
      have both : ∀ other ∈ bindings, Fresh bound variant other ∧ Separate binding other := by
        intro other member
        obtain ⟨⟨otherField, there⟩, fresh⟩ := later other member
        exact fresh_of_bindField here noted there fresh
      refine ⟨List.forall_mem_cons.mpr ⟨⟨⟨field, here⟩, fun field' here' => ?_⟩, fun other member =>
        ⟨(later other member).1, (both other member).1⟩⟩,
        List.pairwise_cons.mpr ⟨fun other member => (both other member).2, separate⟩⟩
      obtain rfl := Option.some.inj (here.symm.trans here')
      unfold MirTypeCatalog.bindField at noted
      cases isNested : binding.nestedTuple with
      | none =>
          rw [isNested] at noted
          dsimp only at noted
          by_cases seen : (bound.find? field.id).isSome = true
          · rw [if_pos seen] at noted
            cases noted
          · exact .inl (Option.not_isSome_iff_eq_none.mp seen)
      | some nested =>
          rw [isNested] at noted
          dsimp only at noted
          cases before : bound.find? field.id with
          | none => exact .inl rfl
          | some entry =>
              rw [before, Option.getD_some] at noted
              cases entry with
              | none => cases noted
              | some indices =>
                  dsimp only at noted
                  by_cases repeated : nested.fieldIndex ∈ indices
                  · rw [if_pos repeated] at noted
                    cases noted
                  · exact .inr ⟨indices, nested, rfl, rfl, repeated⟩

/-- What the contract of a consuming switch says of its scrutinee and its arms. -/
theorem consuming_arms (layout : catalog.variant_layout ty = some family)
    (h : catalog.validate_variant_switch_move_contract ty arms = .ok ()) :
    (∃ descriptor, catalog.get ty = some descriptor ∧ descriptor.ownership ≠ .copy) ∧
      ∀ arm ∈ arms, CheckedArm catalog ty true arm ∧
        ∀ id, arm.case = .variant id → ∀ case_, catalog.validated_variant_switch_case ty id = .ok case_ →
          arm.bindings.Pairwise Separate := by
  obtain ⟨move, receipts⟩ := check_eq_ok.mp h
  obtain ⟨descriptor, get, afterGet⟩ := bind_eq_ok.mp move
  obtain ⟨owned, afterOwned⟩ := check_eq_ok.mp afterGet
  obtain ⟨-, afterLayout⟩ := check_eq_ok.mp afterOwned
  obtain ⟨-, afterMove⟩ := check_eq_ok.mp afterLayout
  obtain ⟨-, afterDrop⟩ := check_eq_ok.mp afterMove
  obtain ⟨cases_, -⟩ := check_eq_ok.mp afterDrop
  have notCopy := reject_eq_ok.mp owned
  rw [decide_eq_false_iff_not] at notCopy
  refine ⟨⟨descriptor, orError_eq_ok.mp get, notCopy⟩, fun arm member =>
    ⟨switch_cases_ok layout cases_ arm member, fun id case_eq case_ known => ?_⟩⟩
  have receipt := forM_eq_ok.mp receipts arm member
  unfold MirTypeCatalog.validate_switch_move_receipts at receipt
  rw [case_eq] at receipt
  obtain ⟨case', known', afterCase⟩ := bind_eq_ok.mp receipt
  obtain rfl := Except.ok.inj (known.symm.trans known')
  obtain ⟨bound, noted, -⟩ := bind_eq_ok.mp afterCase
  exact (separate_of_receipts noted).2

/-- The bindings of a consuming switch name fields of the variant. -/
theorem consuming_bindings {id : NodeId} {case_ : String × MirVariantDesc}
    (known : catalog.validated_variant_switch_case ty id = .ok case_)
    (checked : ∀ binding ∈ bindings, catalog.validate_variant_switch_binding ty true id binding = .ok ()) :
    ∀ binding ∈ bindings, ∃ field, FieldOf case_.2 binding field := by
  intro binding member
  obtain ⟨receipt, -⟩ := check_eq_ok.mp (checked binding member)
  obtain ⟨field, here, id_eq, ty_eq, -⟩ := projection_receipt receipt known
  exact ⟨field, here, id_eq, ty_eq⟩

end Mimi.Bytecode
