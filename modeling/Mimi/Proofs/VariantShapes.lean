/-
Module: Mimi.Proofs.VariantShapes
Purpose: What the instructions on variants do to typed values: the shape table of a type lets every value of the
  type pass, and the drop glue of a type releases a value of the type.
Trusted boundary: none
-/
import Mimi.Lib.Completion
import Mimi.Proofs.EmittedCode

namespace Mimi.Bytecode

open Mimi.Core Mimi.Mir Mimi.Lib

/-! ### Shape tables -/

/-- The identities and the names in a family of variants are distinct. -/
structure DistinctFamily (variants : List MirVariantDesc) : Prop where
  ids : (variants.map MirVariantDesc.id).Nodup
  names : (variants.map MirVariantDesc.name).Nodup

theorem distinctFamily_of_table {ty : ResolvedTypeId} {variants seen : List MirVariantDesc}
    (h : MirTypeCatalog.validate_variant_table ty variants seen = .ok ()) :
    DistinctFamily variants ∧ ∀ variant ∈ variants, ∀ other ∈ seen,
      other.id ≠ variant.id ∧ other.name ≠ variant.name := by
  induction variants generalizing seen with
  | nil =>
      exact ⟨⟨List.nodup_nil, List.nodup_nil⟩, fun _ member => absurd member List.not_mem_nil⟩
  | cons variant variants ih =>
      obtain ⟨-, afterEmpty⟩ := check_eq_ok.mp h
      obtain ⟨newId, afterId⟩ := check_eq_ok.mp afterEmpty
      obtain ⟨newName, afterName⟩ := check_eq_ok.mp afterId
      obtain ⟨-, rest⟩ := check_eq_ok.mp afterName
      obtain ⟨distinct, apart⟩ := ih rest
      have unseen : ∀ other ∈ seen, other.id ≠ variant.id ∧ other.name ≠ variant.name := by
        intro other member
        have ids := List.any_eq_false.mp (reject_eq_ok.mp newId) other member
        have names := List.any_eq_false.mp (reject_eq_ok.mp newName) other member
        exact ⟨fun same => ids (decide_eq_true same), fun same => names (decide_eq_true same)⟩
      refine ⟨⟨List.nodup_cons.mpr ⟨fun again => ?_, distinct.ids⟩,
        List.nodup_cons.mpr ⟨fun again => ?_, distinct.names⟩⟩, List.forall_mem_cons.mpr ⟨unseen, ?_⟩⟩
      · obtain ⟨other, member, same⟩ := List.mem_map.mp again
        exact (apart other member variant List.mem_cons_self).1 same.symm
      · obtain ⟨other, member, same⟩ := List.mem_map.mp again
        exact (apart other member variant List.mem_cons_self).2 same.symm
      · exact fun other member earlier known => apart other member earlier (List.mem_cons_of_mem _ known)

/-- The shape of a variant. -/
def shapeOf (nominal : NominalTypeId) (variant : MirVariantDesc) : VariantShape where
  nominal := nominal
  variant := variant.id
  tag := variant.name
  discriminant := variant.discriminant
  arity := variant.fields.length

theorem variantShapes_ok {nominal : NominalTypeId} {variants : List MirVariantDesc}
    {shapes : List VariantShape} (h : Emitter.variantShapes nominal variants = .ok shapes) :
    shapes = variants.map (shapeOf nominal) := by
  induction variants generalizing shapes with
  | nil => exact (Except.ok.inj h).symm
  | cons variant variants ih =>
      obtain ⟨-, rest⟩ := check_eq_ok.mp h
      obtain ⟨later, others, last⟩ := bind_eq_ok.mp rest
      obtain rfl := ih others
      exact (pure_eq_ok.mp last).symm

/-- A table of shapes that belongs to a type. -/
structure ShapesOf (catalog : MirTypeCatalog) (ty : ResolvedTypeId) (shapes : List VariantShape) where
  family : String
  variants : List MirVariantDesc
  nominal : NominalTypeId
  layout : catalog.variant_layout ty = some (family, variants)
  distinct : DistinctFamily variants
  named : nominal.val = family
  shapes_eq : shapes = variants.map (shapeOf nominal)

theorem new_val {kind : IdKind} {text : String} {id : StableId kind}
    (h : StableId.new text = some id) : id.val = text := by
  unfold StableId.new at h
  by_cases filled : isBlank text = false
  · rw [dif_pos filled] at h
    rw [← Option.some.inj h]
  · rw [dif_neg filled] at h
    cases h

theorem id_ext {kind : IdKind} {a b : StableId kind} (same : a.val = b.val) : a = b := by
  cases a with
  | mk text nonblank =>
      cases b with
      | mk text' nonblank' =>
          cases same
          rfl

namespace Emitter

variable {emitter : Emitter}

theorem shape_table_ok {ty : ResolvedTypeId} {next : Reg} {e : Emitted (List VariantShape)}
    (h : emitter.emit_variant_shape_table ty next = .ok e) :
    ∃ shapes, e = ⟨shapes, [], next⟩ ∧ Nonempty (ShapesOf emitter.catalog ty shapes) := by
  obtain ⟨a, first, b, rest, rfl⟩ := Emit.bind_ok.mp h
  obtain ⟨table, valid, rfl⟩ := lift_ok.mp first
  obtain ⟨c, second, d, last, rfl⟩ := Emit.bind_ok.mp rest
  obtain ⟨nominal, known, rfl⟩ := lift_ok.mp second
  obtain ⟨shapes, listed, rfl⟩ := lift_ok.mp last
  obtain ⟨layout, found, rest⟩ := bind_eq_ok.mp (mapError_eq_ok valid)
  obtain ⟨-, rest⟩ := check_eq_ok.mp rest
  obtain ⟨distinct, same⟩ := check_eq_ok.mp rest
  obtain rfl := pure_eq_ok.mp same
  exact ⟨shapes, rfl, ⟨{
    family := layout.1
    variants := layout.2
    nominal := nominal
    layout := orError_eq_ok.mp found
    distinct := (distinctFamily_of_table distinct).1
    named := new_val (orError_eq_ok.mp known)
    shapes_eq := variantShapes_ok listed }⟩⟩

end Emitter

/-! ### Typed variants -/

section Typed

variable {catalog : MirTypeCatalog} {ty : ResolvedTypeId} {shapes : List VariantShape} {value : Value}

/-- A value of the type agrees with the table of shapes of the type. -/
theorem checkedPayload_typed (table : ShapesOf catalog ty shapes)
    (typed : VariantValue catalog table.family table.variants value) :
    checkedPayload shapes value =
      .ok (typed.variant.name, typed.payload, shapeOf table.nominal typed.variant) := by
  have found : (shapes.find? fun shape => shape.tag = typed.variant.name) =
      some (shapeOf table.nominal typed.variant) := by
    refine (congrArg (List.find? _) table.shapes_eq).trans ?_
    rw [List.find?_map]
    exact congrArg (Option.map _) (find?_of_nodup table.distinct.names typed.declared)
  have identity : (typed.identity.any fun id =>
      id.1 ≠ (shapeOf table.nominal typed.variant).nominal ||
        id.2 ≠ (shapeOf table.nominal typed.variant).variant) = false := by
    cases known : typed.identity with
    | none => rfl
    | some id =>
        obtain ⟨nominal, variant⟩ := typed.identified id known
        have same : id.1 = table.nominal := id_ext (nominal.trans table.named.symm)
        rw [Option.any_some, Bool.or_eq_false_iff]
        exact ⟨decide_eq_false (not_not.mpr same), decide_eq_false (not_not.mpr variant)⟩
  unfold checkedPayload
  rw [typed.parts]
  dsimp only
  rw [found]
  dsimp only
  have arity : typed.payload.length = (shapeOf table.nominal typed.variant).arity := typed.arity
  rw [identity, if_neg Bool.false_ne_true, if_neg (not_not.mpr arity)]

/-- The tag of the value has the payload; another tag is an error. -/
theorem taggedPayload_typed (table : ShapesOf catalog ty shapes)
    (typed : VariantValue catalog table.family table.variants value) :
    taggedPayload typed.variant.name shapes value =
      .ok (typed.payload, shapeOf table.nominal typed.variant) := by
  unfold taggedPayload
  rw [typed.parts]
  dsimp only
  rw [if_neg (not_not.mpr rfl), checkedPayload_typed table typed]
  rfl

/-- A value of a known variant. -/
theorem known_variant (table : ShapesOf catalog ty shapes)
    (typed : VariantValue catalog table.family table.variants value) {variant : MirVariantDesc}
    (same : typed.variant = variant) :
    typed.payload.length = variant.fields.length ∧
      (∀ (i : Nat) (part : Value) (field : MirFieldDesc), typed.payload[i]? = some part →
        variant.fields[i]? = some field → HasType catalog part field.ty) ∧
      taggedPayload variant.name shapes value = .ok (typed.payload, shapeOf table.nominal variant) := by
  subst same
  exact ⟨typed.arity, typed.children, taggedPayload_typed table typed⟩

/-- The variant of a value in its family. -/
theorem variantOf_typed (table : ShapesOf catalog ty shapes)
    (typed : VariantValue catalog table.family table.variants value) :
    variantOf catalog ty value = some typed.variant := by
  unfold variantOf
  rw [table.layout, Option.bind_some, typed.parts, Option.bind_some]
  exact find?_of_nodup table.distinct.names typed.declared

theorem payloadOf_typed {family : String} {variants : List MirVariantDesc}
    (typed : VariantValue catalog family variants value) : payloadOf value = typed.payload := by
  unfold payloadOf
  rw [typed.parts]
  rfl

/-- A variant of the family has the tag of the value exactly when it is the variant of the value. -/
theorem hasTag_typed (table : ShapesOf catalog ty shapes)
    (typed : VariantValue catalog table.family table.variants value) {variant : MirVariantDesc}
    (declared : variant ∈ table.variants) :
    hasTag variant.name value = decide (typed.variant.id = variant.id) := by
  have tag : hasTag variant.name value = decide (typed.variant.name = variant.name) := by
    have parts := typed.parts
    cases value with
    | variant name payload =>
        exact congrArg (fun tag => decide (tag = variant.name)) (Prod.mk.inj (Option.some.inj parts)).1
    | canonicalVariant nominal id name payload =>
        exact congrArg (fun tag => decide (tag = variant.name)) (Prod.mk.inj (Option.some.inj parts)).1
    | _ => cases parts
  rw [tag]
  refine decide_eq_decide.mpr ⟨fun same => ?_, fun same => ?_⟩
  · exact congrArg _ (List.inj_on_of_nodup_map table.distinct.names typed.declared declared same)
  · exact congrArg _ (List.inj_on_of_nodup_map table.distinct.ids typed.declared declared same)

end Typed

/-! ### Releasing -/

/-- What a frame holds after the value of a register has been released. -/
structure Dropped (parts : List Value) (register : Reg) (frame frame' : Frame) : Prop where
  kept : ∀ r, r ≠ register → frame'.regs r = frame.regs r
  released : frame'.released = frame.released ++ parts

theorem dropped_take (frame : Frame) (register : Reg) :
    Dropped [frame.regs register] register frame ((frame.take register).release (frame.regs register)) where
  kept _ other := Function.update_of_ne other _ _
  released := rfl

namespace Emitter

variable {emitter : Emitter} {register next : Reg} {ty : ResolvedTypeId} {e : Emitted Unit} {frame : Frame}

theorem emit_drop_variant_ok (h : emitter.emit_drop_variant register ty next = .ok e) :
    ∃ shapes, e = ⟨(), [.dropVariant register shapes], next⟩ ∧
      Nonempty (ShapesOf emitter.catalog ty shapes) := by
  obtain ⟨a, table, b, last, rfl⟩ := Emit.bind_ok.mp h
  obtain rfl := emit_ok.mp last
  obtain ⟨c, glue, d, shaped, rfl⟩ := Emit.bind_ok.mp table
  obtain ⟨_, -, rfl⟩ := lift_ok.mp glue
  obtain ⟨shapes, rfl, belongs⟩ := shape_table_ok shaped
  exact ⟨shapes, rfl, belongs⟩

theorem step_dropVariant {shapes : List VariantShape} (table : ShapesOf emitter.catalog ty shapes)
    (typed : HasType emitter.catalog (frame.regs register) ty) :
    step (.dropVariant register shapes) frame =
      .ok ((frame.take register).release (frame.regs register)) := by
  obtain ⟨variant⟩ := typed.variant_inv table.layout
  rw [step, checkedPayload_typed table variant]

/-- One instruction that releases the value of the register. -/
theorem exec_release {op : Op}
    (h : step op frame = .ok ((frame.take register).release (frame.regs register))) :
    ∃ frame', exec [op] frame = .ok frame' ∧ Dropped [frame.regs register] register frame frame' := by
  refine ⟨_, ?_, dropped_take frame register⟩
  rw [exec, h]
  rfl

/-- The drop glue of a type releases a value of the type, when it holds something. -/
theorem drop_register_exec (h : emitter.emit_drop_register register ty next = .ok e)
    (typed : HasType emitter.catalog (frame.regs register) ty) :
    e.next = next ∧ (∀ op ∈ e.code, op.straight = true) ∧ ∃ frame', exec e.code frame = .ok frame' ∧
      Dropped (if emitter.releasesType ty then [frame.regs register] else []) register frame frame' := by
  obtain ⟨a, first, b, rest, rfl⟩ := Emit.bind_ok.mp h
  obtain ⟨descriptor, known, rfl⟩ := lift_ok.mp first
  have get := orError_eq_ok.mp known
  have nothing : Dropped [] register frame frame :=
    { kept := fun _ _ => rfl
      released := (List.append_nil _).symm }
  unfold releasesType
  rw [get, Option.any_some]
  dsimp only [List.nil_append] at rest ⊢
  by_cases copy : descriptor.ownership = .copy
  · rw [if_pos copy] at rest
    obtain ⟨_, -, rfl⟩ := lift_ok.mp rest
    rw [copy]
    exact ⟨rfl, fun _ member => absurd member List.not_mem_nil, frame, rfl, nothing⟩
  · rw [if_neg copy] at rest
    have owned : decide (descriptor.ownership ≠ .copy) = true := decide_eq_true copy
    rw [owned, Bool.true_and]
    have handle : descriptor.glue.drop ≠ .mapRoot →
        step (.drop register) frame = .ok ((frame.take register).release (frame.regs register)) := by
      intro glue
      have notRoot : (frame.regs register).isMapRoot = false := by
        rw [← Bool.not_eq_true]
        exact fun root => glue (typed.root_glue get root).2.2
      rw [step, notRoot, if_neg Bool.false_ne_true]
    have one : ∀ op : Op, op.straight = true →
        step op frame = .ok ((frame.take register).release (frame.regs register)) →
        (∀ op' ∈ [op], op'.straight = true) ∧ ∃ frame', exec [op] frame = .ok frame' ∧
          Dropped [frame.regs register] register frame frame' := by
      refine fun op straight steps => ⟨fun op' member => ?_, exec_release steps⟩
      rw [List.mem_singleton.mp member]
      exact straight
    cases glue : descriptor.glue.drop with
    | ownedString | list | set =>
        rw [glue] at rest handle
        obtain rfl := emit_ok.mp rest
        exact ⟨rfl, one _ rfl (handle (fun h => by cases h))⟩
    | noop =>
        rw [glue] at rest
        obtain rfl := pure_ok.mp rest
        exact ⟨rfl, fun _ member => absurd member List.not_mem_nil, frame, rfl, nothing⟩
    | session | mapRoot | unsupported =>
        rw [glue] at rest
        cases rest
    | aggregate =>
        rw [glue] at rest
        cases layout : descriptor.layout with
        | tuple elements =>
            rw [layout] at rest
            obtain ⟨c, arity, d, last, rfl⟩ := Emit.bind_ok.mp rest
            obtain rfl := u16_abi_ok arity
            obtain rfl := emit_ok.mp last
            obtain ⟨items, held, length, -⟩ := typed.tuple_inv get layout
            refine ⟨rfl, one _ rfl ?_⟩
            rw [step, held]
            dsimp only
            rw [if_pos length]
        | record nominal fields =>
            rw [layout] at rest
            obtain ⟨c, arity, d, last, rfl⟩ := Emit.bind_ok.mp rest
            obtain rfl := u16_abi_ok arity
            obtain rfl := emit_ok.mp last
            obtain ⟨name, values, held, length⟩ := typed.record_inv get layout
            refine ⟨rfl, one _ rfl ?_⟩
            rw [step, held]
            dsimp only
            rw [if_pos length]
        | option | result =>
            rw [layout] at rest
            obtain ⟨shapes, rfl, ⟨table⟩⟩ := emit_drop_variant_ok rest
            exact ⟨rfl, one _ rfl (step_dropVariant table typed)⟩
        | _ =>
            rw [layout] at rest
            cases rest

end Emitter

end Mimi.Bytecode
