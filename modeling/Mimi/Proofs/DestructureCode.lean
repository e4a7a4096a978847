/-
Module: Mimi.Proofs.DestructureCode
Purpose: The code of the edges that take their scrutinee apart: the payload goes to a window of registers, what
  nothing binds is released there, and the tuples whose elements are bound go to windows of their own.
Trusted boundary: values have their types when the terminator is reached
-/
import Mimi.Proofs.SwitchContract

namespace Mimi.Bytecode

open Mimi.Core Mimi.Mir Mimi.Lib

/-! ### Windows of registers -/

namespace Frame

variable {frame : Frame} {base r : Reg} {values : List Value}

theorem setAll_below (low : r < base) : (frame.setAll base values).regs r = frame.regs r := by
  induction values generalizing frame base with
  | nil => rfl
  | cons value values ih =>
      exact (ih (Nat.lt_succ_of_lt low)).trans (Function.update_of_ne (Nat.ne_of_lt low) _ _)

theorem setAll_at {i : Nat} {value : Value} (here : values[i]? = some value) :
    (frame.setAll base values).regs (base + i) = value := by
  induction values generalizing frame base i with
  | nil => cases here
  | cons first values ih =>
      cases i with
      | zero =>
          obtain rfl := Option.some.inj here
          exact (setAll_below (Nat.lt_succ_self _)).trans (Function.update_self _ _ _)
      | succ i =>
          have later : ((frame.set base first).setAll (base + 1) values).regs (base + 1 + i) = value := ih here
          rwa [Nat.add_assoc, Nat.add_comm 1] at later

theorem setAll_released : (frame.setAll base values).released = frame.released := by
  induction values generalizing frame base with
  | nil => rfl
  | cons value values ih => exact ih

end Frame

namespace Emitter

variable {emitter : Emitter} {next start : Reg} {edge : Edge} {block : MirBlock} {frame : Frame}

/-! ### Unbound fields -/

/-- Some binding names the field. -/
def bindsField (bindings : List MirSwitchBinding) (field : MirFieldDesc) : Bool :=
  bindings.any fun binding => binding.projection.field = field.id

variable {bindings : List MirSwitchBinding}

/-- The fields that nothing binds are released where they are, the last one first. -/
theorem dropUnbound_exec (frame : Frame) {payload_base : Reg} {entries : List (MirFieldDesc × Nat)} {e : Emitted Unit}
    (h : emitter.dropUnbound payload_base bindings entries start = .ok e)
    (typed : ∀ entry ∈ entries, HasType emitter.catalog (frame.regs (payload_base + entry.2)) entry.1.ty)
    (distinct : (entries.map Prod.snd).Nodup) :
    e.next = start ∧ (∀ op ∈ e.code, op.straight = true) ∧ ∃ frame', exec e.code frame = .ok frame' ∧
      (∀ r, (∀ entry ∈ entries, bindsField bindings entry.1 = false → r ≠ payload_base + entry.2) →
        frame'.regs r = frame.regs r) ∧
      frame'.released = frame.released ++
        ((entries.map fun entry => (entry.1, frame.regs (payload_base + entry.2))).filterMap
          (emitter.unboundField bindings)).reverse := by
  induction entries generalizing e with
  | nil =>
      obtain rfl := pure_ok.mp h
      exact ⟨rfl, fun _ member => absurd member List.not_mem_nil, frame, rfl, fun _ _ => rfl,
        (List.append_nil _).symm⟩
  | cons entry entries ih =>
      obtain ⟨new, others⟩ := List.nodup_cons.mp distinct
      obtain ⟨a, first, b, own, rfl⟩ := Emit.bind_ok.mp h
      obtain ⟨aNext, aStraight, frame₁, aRuns, aKept, aReleased⟩ :=
        ih first (fun other member => typed other (List.mem_cons_of_mem _ member)) others
      have here : frame₁.regs (payload_base + entry.2) = frame.regs (payload_base + entry.2) := by
        refine aKept _ fun other member _ same => new ?_
        rw [Nat.add_left_cancel same]
        exact List.mem_map_of_mem member
      dsimp only
      cases bound : bindsField bindings entry.1 with
      | true =>
          rw [show (bindings.any fun binding => binding.projection.field = entry.1.id) = true from bound,
            if_pos rfl] at own
          obtain rfl := pure_ok.mp own
          have nothing : emitter.unboundField bindings
              (entry.1, frame.regs (payload_base + entry.2)) = none := by
            unfold unboundField
            rw [show (bindings.any fun binding => binding.projection.field = entry.1.id) = true from bound]
            rfl
          refine ⟨aNext, ?_, frame₁, ?_, fun r apart => aKept r fun other member => ?_, ?_⟩
          · rw [List.append_nil]
            exact aStraight
          · rw [List.append_nil]
            exact aRuns
          · exact apart other (List.mem_cons_of_mem _ member)
          · rw [List.map_cons, List.filterMap_cons_none nothing]
            exact aReleased
      | false =>
          rw [show (bindings.any fun binding => binding.projection.field = entry.1.id) = false from bound,
            if_neg Bool.false_ne_true] at own
          obtain ⟨c, offset, d, drop, rfl⟩ := Emit.bind_ok.mp own
          obtain rfl := offset_reg_ok offset
          have hasType : HasType emitter.catalog (frame₁.regs (payload_base + entry.2)) entry.1.ty := by
            rw [here]
            exact typed entry List.mem_cons_self
          obtain ⟨dNext, dStraight, frame₂, dRuns, dropped⟩ := drop_register_exec drop hasType
          refine ⟨dNext.trans aNext, straight_append aStraight dStraight, frame₂, ?_,
            fun r apart => ?_, ?_⟩
          · rw [exec_append aRuns]
            exact dRuns
          · refine (dropped.kept r (apart entry List.mem_cons_self bound)).trans ?_
            exact aKept r fun other member => apart other (List.mem_cons_of_mem _ member)
          · rw [dropped.released, aReleased, here, List.append_assoc]
            refine congrArg (frame.released ++ ·) ?_
            have part : emitter.unboundField bindings (entry.1, frame.regs (payload_base + entry.2)) =
                if emitter.releasesType entry.1.ty then some (frame.regs (payload_base + entry.2))
                else none := by
              unfold unboundField
              rw [show (bindings.any fun binding => binding.projection.field = entry.1.id) = false
                from bound, Bool.not_false, Bool.true_and]
            cases holds : emitter.releasesType entry.1.ty with
            | true =>
                rw [holds, if_pos rfl] at part
                rw [List.map_cons, List.filterMap_cons_some part, List.reverse_cons, if_pos rfl]
            | false =>
                rw [holds, if_neg Bool.false_ne_true] at part
                rw [List.map_cons, List.filterMap_cons_none part, if_neg Bool.false_ne_true, List.append_nil]

/-! ### Nested tuples -/

/-- A binding projects an element of a tuple that is a field of the variant. -/
structure ElementOf (catalog : MirTypeCatalog) (variant : MirVariantDesc) (binding : MirSwitchBinding)
    (nested : MirTupleProjectionContract) (ty : ResolvedTypeId) where
  field : MirFieldDesc
  descriptor : MirTypeDesc
  elements : List ResolvedTypeId
  fieldOf : FieldOf variant binding field
  tupleTy : field.ty = nested.tupleTy
  known : catalog.get nested.tupleTy = some descriptor
  layout : descriptor.layout = .tuple elements
  at_ : elements[nested.fieldIndex]? = some ty

theorem nested_receipt {catalog : MirTypeCatalog} {scrutinee_ty ty : ResolvedTypeId} {family : String}
    {variant : MirVariantDesc} {binding : MirSwitchBinding} {nested : MirTupleProjectionContract}
    (valid : catalog.validate_variant_nested_tuple_payload_projection_receipt scrutinee_ty variant.id ty
      binding.projection nested = .ok ())
    (known : catalog.validated_variant_switch_case scrutinee_ty variant.id = .ok (family, variant)) :
    Nonempty (ElementOf catalog variant binding nested ty) := by
  obtain ⟨-, afterKind⟩ := check_eq_ok.mp valid
  obtain ⟨projection, afterProjection⟩ := check_eq_ok.mp afterKind
  obtain ⟨tuple, found, afterTuple⟩ := bind_eq_ok.mp afterProjection
  obtain ⟨-, afterOwned⟩ := check_eq_ok.mp afterTuple
  obtain ⟨-, afterMove⟩ := check_eq_ok.mp afterOwned
  obtain ⟨-, afterDrop⟩ := check_eq_ok.mp afterMove
  obtain ⟨expected, contract, same⟩ := bind_eq_ok.mp afterDrop
  have agrees := reject_eq_ok.mp same
  rw [decide_eq_false_iff_not, not_not] at agrees
  obtain ⟨descriptor, get, afterGet⟩ := bind_eq_ok.mp contract
  obtain ⟨-, afterResult⟩ := check_eq_ok.mp afterGet
  obtain ⟨elements, layout, afterLayout⟩ := bind_eq_ok.mp afterResult
  obtain ⟨element, at_, afterElement⟩ := bind_eq_ok.mp afterLayout
  obtain ⟨type, -⟩ := check_eq_ok.mp afterElement
  have sameType := reject_eq_ok.mp type
  rw [decide_eq_false_iff_not, not_not] at sameType
  subst sameType
  obtain ⟨field, here, id_eq, ty_eq, result⟩ := projection_receipt projection known
  have tupleLayout : descriptor.layout = .tuple elements := by
    have shape := orError_eq_ok.mp layout
    unfold MirTypeCatalog.tupleElements at shape
    cases kind : descriptor.layout with
    | tuple elements' =>
        rw [kind] at shape
        rw [Option.some.inj shape]
    | _ =>
        rw [kind] at shape
        cases shape
  exact ⟨{
    field := field
    descriptor := descriptor
    elements := elements
    fieldOf := ⟨here, id_eq, ty_eq⟩
    tupleTy := ty_eq.trans result
    known := orError_eq_ok.mp get
    layout := tupleLayout
    at_ := orError_eq_ok.mp at_ }⟩

/-- The tuples that have been taken apart, each in a window of its own. -/
structure Windows (payload : List Value) (bases : Nat → Option Reg) (low high : Reg) (frame : Frame) :
    Prop where
  holds : ∀ f b, bases f = some b → ∃ items, payload[f]? = some (.tuple items) ∧ low ≤ b ∧
    b + items.length ≤ high ∧ ∀ (i : Nat) (item : Value), items[i]? = some item → frame.regs (b + i) = item
  apart : ∀ f g b c items items', f ≠ g → bases f = some b → bases g = some c →
    payload[f]? = some (.tuple items) → payload[g]? = some (.tuple items') →
    b + items.length ≤ c ∨ c + items'.length ≤ b

theorem Windows.add {payload : List Value} {bases : Nat → Option Reg} {low high : Reg} {f : Nat}
    {items : List Value} {source : Reg} (windows : Windows payload bases low start frame)
    (part : payload[f]? = some (.tuple items)) (new : bases f = none) (room : low ≤ start)
    (below : source < low) (fits : start + items.length ≤ high) :
    Windows payload (Function.update bases f (some start)) low high
      ((frame.take source).setAll start items) where
  holds g b known := by
    by_cases same : g = f
    · subst same
      rw [Function.update_self] at known
      obtain rfl := Option.some.inj known
      exact ⟨items, part, room, fits, fun i item here => Frame.setAll_at here⟩
    · rw [Function.update_of_ne same] at known
      obtain ⟨items', part', above, within, held⟩ := windows.holds g b known
      refine ⟨items', part', above, Nat.le_trans within (Nat.le_trans (Nat.le_add_right _ _) fits),
        fun i item here => ?_⟩
      have inside : b + i < start := by
        have short := (List.getElem?_eq_some_iff.mp here).1
        exact Nat.lt_of_lt_of_le (Nat.add_lt_add_left short b) within
      have other : b + i ≠ source :=
        Nat.ne_of_gt (Nat.lt_of_lt_of_le below (Nat.le_trans above (Nat.le_add_right _ _)))
      exact ((Frame.setAll_below inside).trans (Function.update_of_ne other _ _)).trans (held i item here)
  apart g g' b c items₁ items₂ differ known known' part₁ part₂ := by
    by_cases same : g = f
    · subst same
      rw [Function.update_self] at known
      rw [Function.update_of_ne differ.symm] at known'
      obtain rfl := Option.some.inj known
      obtain ⟨items', part', -, within, -⟩ := windows.holds g' c known'
      obtain rfl : items' = items₂ := by
        injection Option.some.inj (part'.symm.trans part₂)
      exact .inr within
    · rw [Function.update_of_ne same] at known
      by_cases same' : g' = f
      · subst same'
        rw [Function.update_self] at known'
        obtain rfl := Option.some.inj known'
        obtain ⟨items', part', -, within, -⟩ := windows.holds g b known
        obtain rfl : items' = items₁ := by
          injection Option.some.inj (part'.symm.trans part₁)
        exact .inl within
      · rw [Function.update_of_ne same'] at known'
        exact windows.apart g g' b c items₁ items₂ differ known known' part₁ part₂

section Nested

variable {scrutinee_ty : ResolvedTypeId} {family : String} {variant : MirVariantDesc}
  {payload_base low : Reg} {payload : List Value}

/-- Every binding of an element names an element, of the type of its parameter. -/
theorem destructureNested_receipts
    (known : emitter.catalog.validated_variant_switch_case scrutinee_ty variant.id = .ok (family, variant))
    {index : Nat} {bases : Nat → Option Reg} {e : Emitted (Nat → Option Reg)}
    (h : emitter.destructureNested block scrutinee_ty variant payload_base index bindings bases start =
      .ok e) :
    ∀ (i : Nat) (binding : MirSwitchBinding) (nested : MirTupleProjectionContract),
      bindings[i]? = some binding → binding.nestedTuple = some nested → ∃ parameter ty,
        block.parameters[index + i]? = some parameter ∧ emitter.typeOf parameter.value = some ty ∧
        Nonempty (ElementOf emitter.catalog variant binding nested ty) := by
  induction bindings generalizing index bases start e with
  | nil => exact fun i binding nested impossible => by cases impossible
  | cons binding bindings ih =>
      have later : ∀ {start : Reg} {bases : Nat → Option Reg} {e : Emitted (Nat → Option Reg)},
          emitter.destructureNested block scrutinee_ty variant payload_base (index + 1) bindings bases
            start = .ok e →
          ∀ (i : Nat) (other : MirSwitchBinding) (nested : MirTupleProjectionContract),
            bindings[i]? = some other → other.nestedTuple = some nested → ∃ parameter ty,
              block.parameters[index + (i + 1)]? = some parameter ∧
              emitter.typeOf parameter.value = some ty ∧
              Nonempty (ElementOf emitter.catalog variant other nested ty) := by
        intro start bases e rest i other nested here isNested
        obtain ⟨parameter, ty, at_, type, element⟩ := ih rest i other nested here isNested
        refine ⟨parameter, ty, ?_, type, element⟩
        rw [← at_, Nat.add_assoc, Nat.add_comm 1]
      rw [destructureNested] at h
      cases isNested : binding.nestedTuple with
      | none =>
          rw [isNested] at h
          intro i other nested here otherNested
          cases i with
          | zero =>
              obtain rfl := Option.some.inj here
              rw [isNested] at otherNested
              cases otherNested
          | succ i => exact later h i other nested here otherNested
      | some nested =>
          rw [isNested] at h
          obtain ⟨a, first, b, afterParameter, rfl⟩ := Emit.bind_ok.mp h
          obtain ⟨parameter, listed, rfl⟩ := lift_ok.mp first
          obtain ⟨c, second, d, afterType, rfl⟩ := Emit.bind_ok.mp afterParameter
          obtain ⟨ty, type, rfl⟩ := valueType_ok second
          obtain ⟨f, third, g, rest, rfl⟩ := Emit.bind_ok.mp afterType
          obtain ⟨_, receipt, rfl⟩ := lift_ok.mp third
          intro i other nested' here otherNested
          cases i with
          | zero =>
              obtain rfl := Option.some.inj here
              obtain rfl := Option.some.inj (isNested.symm.trans otherNested)
              exact ⟨parameter, ty, orError_eq_ok.mp listed, type, nested_receipt receipt known⟩
          | succ i =>
              dsimp only at rest
              by_cases done : (bases binding.projection.fieldIndex).isSome = true
              · rw [if_pos done] at rest
                exact later rest i other nested' here otherNested
              · rw [if_neg done] at rest
                obtain ⟨k, -, l, afterTuple, rfl⟩ := Emit.bind_ok.mp rest
                obtain ⟨k, -, l, afterElements, rfl⟩ := Emit.bind_ok.mp afterTuple
                obtain ⟨k, -, l, afterArity, rfl⟩ := Emit.bind_ok.mp afterElements
                obtain ⟨k, -, l, afterWindow, rfl⟩ := Emit.bind_ok.mp afterArity
                obtain ⟨k, -, l, afterSource, rfl⟩ := Emit.bind_ok.mp afterWindow
                obtain ⟨k, -, l, last, rfl⟩ := Emit.bind_ok.mp afterSource
                exact later last i other nested' here otherNested

/-- Taking a tuple apart empties its register and fills the window. -/
theorem step_destructureTuple {source : Reg} (base : Reg) {elements : List ResolvedTypeId} {items : List Value}
    (held : frame.regs source = .tuple items) (arity : items.length = elements.length) :
    step (.destructureTupleMove source base elements.length elements) frame =
      .ok ((frame.take source).setAll base items) := by
  rw [step, if_neg (not_not.mpr rfl), held]
  dsimp only
  rw [if_neg (not_not.mpr arity)]

/-- The tuples whose elements are bound are taken apart into windows of their own. -/
theorem destructureNested_exec
    (known : emitter.catalog.validated_variant_switch_case scrutinee_ty variant.id = .ok (family, variant))
    {index : Nat} {bases : Nat → Option Reg} {e : Emitted (Nat → Option Reg)}
    (h : emitter.destructureNested block scrutinee_ty variant payload_base index bindings bases start =
      .ok e) (room : low ≤ start) (window : payload_base + payload.length ≤ low)
    (typed : ∀ (i : Nat) (part : Value) (field : MirFieldDesc), payload[i]? = some part →
      variant.fields[i]? = some field → HasType emitter.catalog part field.ty)
    (arity : payload.length = variant.fields.length) (windows : Windows payload bases low start frame)
    (unread : ∀ binding ∈ bindings, binding.nestedTuple.isSome = true →
      bases binding.projection.fieldIndex = none →
      some (frame.regs (payload_base + binding.projection.fieldIndex)) =
        payload[binding.projection.fieldIndex]?) :
    (∀ op ∈ e.code, op.straight = true) ∧ start ≤ e.next ∧ ∃ frame', exec e.code frame = .ok frame' ∧
      Windows payload e.value low e.next frame' ∧
      (∀ r, r < low → (∀ binding ∈ bindings, binding.nestedTuple.isSome = true →
        r ≠ payload_base + binding.projection.fieldIndex) → frame'.regs r = frame.regs r) ∧
      frame'.released = frame.released := by
  induction bindings generalizing index bases start e frame with
  | nil =>
      obtain rfl := pure_ok.mp h
      exact ⟨fun _ member => absurd member List.not_mem_nil, Nat.le_refl _, frame, rfl, windows,
        fun _ _ _ => rfl, rfl⟩
  | cons binding bindings ih =>
      rw [destructureNested] at h
      cases isNested : binding.nestedTuple with
      | none =>
          rw [isNested] at h
          obtain ⟨straight, grows, frame', runs, windows', kept, released⟩ := ih h room windows
            fun other member => unread other (List.mem_cons_of_mem _ member)
          exact ⟨straight, grows, frame', runs, windows', fun r low_ apart => kept r low_ fun other member =>
            apart other (List.mem_cons_of_mem _ member), released⟩
      | some nested =>
          rw [isNested] at h
          obtain ⟨a, first, b, afterParameter, rfl⟩ := Emit.bind_ok.mp h
          obtain ⟨parameter, listed, rfl⟩ := lift_ok.mp first
          obtain ⟨c, second, d, afterType, rfl⟩ := Emit.bind_ok.mp afterParameter
          obtain ⟨ty, type, rfl⟩ := valueType_ok second
          obtain ⟨f, third, g, rest, rfl⟩ := Emit.bind_ok.mp afterType
          obtain ⟨_, receipt, rfl⟩ := lift_ok.mp third
          obtain ⟨element⟩ := nested_receipt receipt known
          dsimp only [List.nil_append] at rest ⊢
          by_cases done : (bases binding.projection.fieldIndex).isSome = true
          · rw [if_pos done] at rest
            obtain ⟨straight, grows, frame', runs, windows', kept, released⟩ := ih rest room windows
              fun other member => unread other (List.mem_cons_of_mem _ member)
            exact ⟨straight, grows, frame', runs, windows', fun r low_ apart => kept r low_
              fun other member => apart other (List.mem_cons_of_mem _ member), released⟩
          · rw [if_neg done] at rest
            have new : bases binding.projection.fieldIndex = none := Option.not_isSome_iff_eq_none.mp done
            obtain ⟨t, tuple, t', afterTuple, rfl⟩ := Emit.bind_ok.mp rest
            obtain ⟨descriptor, get, rfl⟩ := lift_ok.mp tuple
            obtain rfl := Option.some.inj (element.known.symm.trans (orError_eq_ok.mp get))
            obtain ⟨u, shape, u', afterElements, rfl⟩ := Emit.bind_ok.mp afterTuple
            obtain ⟨elements, layout, rfl⟩ := lift_ok.mp shape
            have elements_eq : elements = element.elements := by
              have found := orError_eq_ok.mp layout
              unfold MirTypeCatalog.tupleElements at found
              rw [element.layout] at found
              exact (Option.some.inj found).symm
            subst elements_eq
            obtain ⟨v, count, v', afterArity, rfl⟩ := Emit.bind_ok.mp afterElements
            obtain rfl := u16_abi_ok count
            obtain ⟨w, alloc, w', afterWindow, rfl⟩ := Emit.bind_ok.mp afterArity
            obtain ⟨base, noCode, fits, above⟩ := allocWindow_ok alloc
            obtain ⟨x, offset, x', afterSource, rfl⟩ := Emit.bind_ok.mp afterWindow
            obtain rfl := offset_reg_ok offset
            obtain ⟨y, destructure, y', last, rfl⟩ := Emit.bind_ok.mp afterSource
            obtain rfl := emit_ok.mp destructure
            dsimp only [List.nil_append] at last fits above base ⊢
            rw [base] at last ⊢
            -- the register of the field holds its tuple
            have short : binding.projection.fieldIndex < payload.length := by
              rw [arity]
              exact (List.getElem?_eq_some_iff.mp element.fieldOf.at_).1
            have part := List.getElem?_eq_getElem short
            have held := unread binding List.mem_cons_self (by rw [isNested]; rfl) new
            rw [part] at held
            have hasType := typed _ _ _ part element.fieldOf.at_
            rw [element.tupleTy] at hasType
            obtain ⟨items, value, length, -⟩ := hasType.tuple_inv element.known element.layout
            rw [value] at part held
            have below : payload_base + binding.projection.fieldIndex < low :=
              Nat.lt_of_lt_of_le (Nat.add_lt_add_left short _) window
            have opens := step_destructureTuple start (Option.some.inj held) length
            have added := windows.add part new room below (length ▸ fits)
            obtain ⟨straight, grows, frame', runs, windows', kept, released⟩ := ih last
              (Nat.le_trans room (Nat.le_of_lt above)) added fun other member otherNested fresh => by
                have differs : other.projection.fieldIndex ≠ binding.projection.fieldIndex := by
                  intro same
                  rw [same, Function.update_self] at fresh
                  cases fresh
                rw [Function.update_of_ne differs] at fresh
                have before := unread other (List.mem_cons_of_mem _ member) otherNested fresh
                have otherShort : other.projection.fieldIndex < payload.length :=
                  (List.getElem?_eq_some_iff.mp before.symm).1
                rw [← before, Frame.setAll_below (Nat.lt_of_lt_of_le (Nat.add_lt_add_left otherShort _)
                  (Nat.le_trans window room))]
                exact congrArg some (Function.update_of_ne
                  (fun same => differs (Nat.add_left_cancel same)) _ _)
            refine ⟨?_, Nat.le_trans (Nat.le_of_lt above) grows, frame', ?_, windows', ?_, ?_⟩
            · rw [noCode, List.nil_append]
              exact List.forall_mem_cons.mpr ⟨rfl, straight⟩
            · rw [noCode, List.nil_append, List.singleton_append, exec, opens]
              exact runs
            · intro r low_ apart
              refine (kept r low_ fun other member =>
                apart other (List.mem_cons_of_mem _ member)).trans ?_
              rw [Frame.setAll_below (Nat.lt_of_lt_of_le low_ room)]
              exact Function.update_of_ne
                (apart binding List.mem_cons_self (by rw [isNested]; rfl)) _ _
            · exact released.trans Frame.setAll_released

/-- The registers in which the bound payloads end up. -/
theorem payloadSources_ok {nominal : String} {bases : Nat → Option Reg} {index : Nat} {e : Emitted (List Reg)}
    (h : emitter.payloadSources block nominal variant payload_base bases index bindings start = .ok e) :
    e.code = [] ∧ e.next = start ∧ e.value.length = bindings.length ∧
      ∀ (i : Nat) (binding : MirSwitchBinding) (source : Reg), bindings[i]? = some binding →
        e.value[i]? = some source →
        (binding.nestedTuple = none → source = payload_base + binding.projection.fieldIndex ∧
          ∃ parameter, block.parameters[index + i]? = some parameter ∧
            emitter.typeOf parameter.value = some binding.projection.fieldTy) ∧
        ∀ nested, binding.nestedTuple = some nested → ∃ base,
          bases binding.projection.fieldIndex = some base ∧ source = base + nested.fieldIndex := by
  induction bindings generalizing index start e with
  | nil =>
      obtain rfl := pure_ok.mp h
      exact ⟨rfl, rfl, rfl, fun i binding source impossible => by cases impossible⟩
  | cons binding bindings ih =>
      obtain ⟨a, check, b, afterCheck, rfl⟩ := Emit.bind_ok.mp h
      obtain ⟨rfl, parameter, ty, listed, type, direct⟩ := bindingParameter_ok check
      obtain ⟨own, isDirect, isNested, f, others, rfl⟩ : ∃ own : Reg,
          (binding.nestedTuple = none → own = payload_base + binding.projection.fieldIndex) ∧
          (∀ nested, binding.nestedTuple = some nested → ∃ base,
            bases binding.projection.fieldIndex = some base ∧ own = base + nested.fieldIndex) ∧
          ∃ f, emitter.payloadSources block nominal variant payload_base bases (index + 1) bindings start =
            .ok f ∧ b = ⟨own :: f.value, f.code, f.next⟩ := by
        cases isNested : binding.nestedTuple with
        | none =>
            rw [isNested] at afterCheck
            obtain ⟨c, offset, d, rest, rfl⟩ := Emit.bind_ok.mp afterCheck
            obtain rfl := offset_reg_ok offset
            obtain ⟨f, others, g, last, rfl⟩ := Emit.bind_ok.mp rest
            obtain rfl := pure_ok.mp last
            refine ⟨_, fun _ => rfl, fun nested impossible => (by cases impossible), f, others, ?_⟩
            dsimp only
            rw [List.append_nil]
            rfl
        | some nested =>
            rw [isNested] at afterCheck
            obtain ⟨c, base, d, afterBase, rfl⟩ := Emit.bind_ok.mp afterCheck
            obtain ⟨tuple_base, known, rfl⟩ := lift_ok.mp base
            obtain ⟨k, offset, l, rest, rfl⟩ := Emit.bind_ok.mp afterBase
            obtain rfl := offset_reg_ok offset
            obtain ⟨f, others, g, last, rfl⟩ := Emit.bind_ok.mp rest
            obtain rfl := pure_ok.mp last
            refine ⟨tuple_base + nested.fieldIndex, fun impossible => (by cases impossible),
              fun other same => ?_, f, others, ?_⟩
            · obtain rfl := Option.some.inj same
              exact ⟨tuple_base, orError_eq_ok.mp known, rfl⟩
            · dsimp only
              rw [List.append_nil]
              rfl
      obtain ⟨noCode, sameNext, length, sources⟩ := ih others
      refine ⟨noCode, sameNext, congrArg Nat.succ length, fun i other source here at_ => ?_⟩
      cases i with
        | zero =>
            obtain rfl := Option.some.inj here
            obtain rfl := Option.some.inj at_
            refine ⟨fun none_ => ⟨isDirect none_, parameter, listed, ?_⟩, isNested⟩
            rw [type, direct none_]
        | succ i =>
            obtain ⟨directLater, nestedLater⟩ := sources i other source here at_
            refine ⟨fun none_ => ?_, nestedLater⟩
            obtain ⟨same, later, at_', type'⟩ := directLater none_
            refine ⟨same, later, ?_, type'⟩
            rw [← at_', Nat.add_assoc, Nat.add_comm 1]

end Nested

/-! ### The edge -/

section Consuming

variable {scrutinee : MirValueId} {ty : ResolvedTypeId} {variant : MirVariantDesc} {family : String}
  {e : Emitted Unit}

/-- The code of an edge that takes its scrutinee apart. -/
structure DestructureShape (emitter : Emitter) (edge : Edge) (block : MirBlock) (scrutinee : Reg)
    (ty : ResolvedTypeId) (variant : MirVariantDesc) (start : Reg) (code : List Op) where
  shapes : List VariantShape
  table : ShapesOf emitter.catalog ty shapes
  unbound : Emitted Unit
  nested : Emitted (Nat → Option Reg)
  payload : Emitted (List Reg)
  first : Reg
  fits : start + edge.arguments.length + variant.fields.length ≤ first
  arity : block.parameters.length = edge.arguments.length + edge.bindings.length
  passed : ∀ argument ∈ edge.arguments, emitter.Transferable argument
  parameters : ∀ parameter ∈ block.parameters, emitter.Transferable parameter.value
  drops : emitter.dropUnbound (start + edge.arguments.length) edge.bindings variant.fields.zipIdx first =
    .ok unbound
  opens : emitter.destructureNested block ty variant (start + edge.arguments.length) edge.arguments.length
    edge.bindings (fun _ => none) unbound.next = .ok nested
  sources : ∃ nominal last, emitter.payloadSources block nominal variant (start + edge.arguments.length)
    nested.value edge.arguments.length edge.bindings last = .ok payload
  code_eq : code = (emitter.stagedTransfers start edge.arguments).map transferOp ++
    ((.destructureVariantMove scrutinee (start + edge.arguments.length) variant.fields.length variant.name
      shapes :: (unbound.code ++ nested.code)) ++
    (emitter.unloadTransfers (List.range' start edge.arguments.length ++ payload.value)
      block.parameters).map transferOp)

variable {register : Reg}

theorem emit_variant_move_edge_arguments_ok (binds : edge.bindings ≠ [])
    (h : emitter.emit_variant_move_edge_arguments edge.target edge.arguments edge.bindings ty register
      variant start = .ok e) (found : emitter.function.blocks.find? edge.target = some block) :
    Nonempty (emitter.DestructureShape edge block register ty variant start e.code) := by
  unfold emit_variant_move_edge_arguments at h
  rw [if_neg (by rw [List.isEmpty_iff]; exact binds)] at h
  obtain ⟨a, target, b, afterTarget, rfl⟩ := Emit.bind_ok.mp h
  obtain ⟨block', found', arity, rfl⟩ := edgeTarget_ok target
  obtain rfl := Option.some.inj (found.symm.trans found')
  obtain ⟨c, stage, d, afterStage, rfl⟩ := Emit.bind_ok.mp afterTarget
  obtain ⟨rfl, transferable⟩ := stageArguments_ok stage
  obtain ⟨f, count, g, afterCount, rfl⟩ := Emit.bind_ok.mp afterStage
  obtain rfl := u16_abi_ok count
  obtain ⟨k, layout, l, afterLayout, rfl⟩ := Emit.bind_ok.mp afterCount
  obtain ⟨_, -, rfl⟩ := lift_ok.mp layout
  obtain ⟨m, shaped, n, afterShapes, rfl⟩ := Emit.bind_ok.mp afterLayout
  obtain ⟨shapes, rfl, ⟨table⟩⟩ := shape_table_ok shaped
  obtain ⟨o, alloc, p, afterWindow, rfl⟩ := Emit.bind_ok.mp afterShapes
  obtain ⟨base, noCode, fits, -⟩ := allocWindow_ok alloc
  obtain ⟨q, destructure, r, afterDestructure, rfl⟩ := Emit.bind_ok.mp afterWindow
  obtain rfl := emit_ok.mp destructure
  obtain ⟨unbound, drops, t, afterDrops, rfl⟩ := Emit.bind_ok.mp afterDestructure
  obtain ⟨nested, opens, u, afterNested, rfl⟩ := Emit.bind_ok.mp afterDrops
  obtain ⟨payload, sources, v, unload, rfl⟩ := Emit.bind_ok.mp afterNested
  obtain ⟨noSource, -, length, -⟩ := payloadSources_ok sources
  dsimp only at base
  rw [staged_dst] at unload
  obtain ⟨rfl, parameters⟩ := unloadParameters_ok unload (by
    rw [List.length_append, List.length_range', length, arity])
  rw [base] at drops opens sources ⊢
  refine ⟨{
    shapes := shapes
    table := table
    unbound := unbound
    nested := nested
    payload := payload
    first := o.next
    fits := fits
    arity := arity
    passed := transferable
    parameters := parameters
    drops := drops
    opens := opens
    sources := ⟨_, _, sources⟩
    code_eq := ?_ }⟩
  dsimp only [List.nil_append]
  rw [noCode, noSource]
  simp only [List.nil_append, List.cons_append, List.append_assoc]

/-- What the registers hold when the scrutinee has been taken apart. -/
structure Opened (payload : List Value) (bindings : List MirSwitchBinding) (base first high : Reg)
    (bases : Nat → Option Reg) (frame : Frame) : Prop where
  direct : ∀ binding ∈ bindings, binding.nestedTuple = none →
    some (frame.regs (base + binding.projection.fieldIndex)) = payload[binding.projection.fieldIndex]?
  windows : Windows payload bases first high frame

variable {code : List Op}

/-- The code between staging and unloading takes the scrutinee apart and releases what nothing binds. -/
theorem DestructureShape.opens_exec (shape : emitter.DestructureShape edge block register ty variant start code)
    (value : VariantValue emitter.catalog shape.table.family shape.table.variants (frame.regs register))
    (selected : value.variant = variant) (low : register < start)
    (known : emitter.catalog.validated_variant_switch_case ty variant.id = .ok (family, variant))
    (fields : ∀ binding ∈ edge.bindings, ∃ field, FieldOf variant binding field)
    (separate : edge.bindings.Pairwise Separate) :
    (∀ op ∈ shape.unbound.code ++ shape.nested.code, op.straight = true) ∧ ∃ frame',
      exec (.destructureVariantMove register (start + edge.arguments.length) variant.fields.length variant.name
        shape.shapes :: (shape.unbound.code ++ shape.nested.code)) frame = .ok frame' ∧
      Opened value.payload edge.bindings (start + edge.arguments.length) shape.first shape.nested.next
        shape.nested.value frame' ∧
      frame'.regs register = .unit ∧
      (∀ r, r < start + edge.arguments.length → r ≠ register → frame'.regs r = frame.regs r) ∧
      frame'.released = frame.released ++
        ((variant.fields.zip value.payload).filterMap (emitter.unboundField edge.bindings)).reverse := by
  obtain ⟨arity, children, tagged⟩ := known_variant shape.table value selected
  have registerLow : register < start + edge.arguments.length :=
    Nat.lt_of_lt_of_le low (Nat.le_add_right _ _)
  have opens : step (.destructureVariantMove register (start + edge.arguments.length)
      variant.fields.length variant.name shape.shapes) frame =
      .ok ((frame.take register).setAll (start + edge.arguments.length) value.payload) := by
    have sameArity : (shapeOf shape.table.nominal variant).arity = variant.fields.length := rfl
    rw [step, tagged]
    dsimp only
    rw [if_neg (not_not.mpr sameArity)]
  -- the payload is in its window
  have held : ∀ (i : Nat) (part : Value), value.payload[i]? = some part →
      ((frame.take register).setAll (start + edge.arguments.length) value.payload).regs
        (start + edge.arguments.length + i) = part := fun i part here => Frame.setAll_at here
  have fieldsHeld : (variant.fields.zipIdx.map fun entry => (entry.1,
      ((frame.take register).setAll (start + edge.arguments.length) value.payload).regs
        (start + edge.arguments.length + entry.2))) = variant.fields.zip value.payload := by
    refine List.ext_getElem? fun i => ?_
    rw [List.getElem?_map, List.getElem?_zipIdx]
    cases here : variant.fields[i]? with
    | none =>
        have long : (variant.fields.zip value.payload).length ≤ i := by
          rw [List.length_zip]
          exact Nat.le_trans (Nat.min_le_left _ _) (List.getElem?_eq_none_iff.mp here)
        rw [List.getElem?_eq_none long]
        rfl
    | some field =>
        have short : i < value.payload.length := by
          rw [arity]
          exact (List.getElem?_eq_some_iff.mp here).1
        have part := List.getElem?_eq_getElem short
        have both : (variant.fields.zip value.payload)[i]? = some (field, value.payload[i]) :=
          List.getElem?_zip_eq_some.mpr ⟨here, part⟩
        rw [both, Option.map_some, Option.map_some, Nat.zero_add, held i _ part]
  obtain ⟨dropNext, dropStraight, frame₂, dropRuns, dropKept, dropReleased⟩ :=
    dropUnbound_exec ((frame.take register).setAll (start + edge.arguments.length) value.payload) shape.drops
    (fun entry member => by
      have here := List.mem_zipIdx_iff_getElem?.mp member
      have short : entry.2 < value.payload.length := by
        rw [arity]
        exact (List.getElem?_eq_some_iff.mp here).1
      have part := List.getElem?_eq_getElem short
      rw [held _ _ part]
      exact children _ _ _ part here)
    (by rw [List.zipIdx_map_snd]; exact List.nodup_range')
  have fits : start + edge.arguments.length + value.payload.length ≤ shape.first := by
    rw [arity]
    exact shape.fits
  -- a bound field is still there when the others have been released
  have bound : ∀ binding ∈ edge.bindings,
      some (frame₂.regs (start + edge.arguments.length + binding.projection.fieldIndex)) =
        value.payload[binding.projection.fieldIndex]? := by
    intro binding member
    obtain ⟨field, fieldOf⟩ := fields binding member
    have short : binding.projection.fieldIndex < value.payload.length := by
      rw [arity]
      exact (List.getElem?_eq_some_iff.mp fieldOf.at_).1
    have part := List.getElem?_eq_getElem short
    rw [dropKept _ fun entry listed unbound same => ?_, held _ _ part, part]
    have here := List.mem_zipIdx_iff_getElem?.mp listed
    rw [← Nat.add_left_cancel same, fieldOf.at_] at here
    have named : bindsField edge.bindings entry.1 = true := by
      refine List.any_eq_true.mpr ⟨binding, member, decide_eq_true ?_⟩
      rw [← Option.some.inj here, fieldOf.id_eq]
    rw [unbound] at named
    cases named
  have noWindows : Windows value.payload (fun _ => none) shape.first shape.unbound.next frame₂ :=
    { holds := fun _ _ impossible => by cases impossible
      apart := fun _ _ _ _ _ _ _ impossible => by cases impossible }
  obtain ⟨nestedStraight, -, frame₃, nestedRuns, windows, nestedKept, nestedReleased⟩ :=
    destructureNested_exec known shape.opens (Nat.le_of_eq dropNext.symm) fits children arity
      noWindows fun binding member _ _ => bound binding member
  have belowWindow : ∀ r, r < start + edge.arguments.length →
      frame₃.regs r = ((frame.take register).setAll (start + edge.arguments.length) value.payload).regs r := by
    intro r small
    have apart : ∀ i, r ≠ start + edge.arguments.length + i :=
      fun i => Nat.ne_of_lt (Nat.lt_of_lt_of_le small (Nat.le_add_right _ _))
    refine (nestedKept r ?_ fun _ _ _ => apart _).trans (dropKept r fun _ _ _ => apart _)
    exact Nat.lt_of_lt_of_le small (Nat.le_trans (Nat.le_add_right _ _) fits)
  refine ⟨straight_append dropStraight nestedStraight, frame₃, ?_, ⟨fun binding member direct => ?_, windows⟩,
    ?_, fun r small other => ?_, ?_⟩
  · rw [exec, opens]
    exact (exec_append dropRuns).trans nestedRuns
  · rw [nestedKept _ ?_ fun other member' nested same => ?_, bound binding member]
    · obtain ⟨field, fieldOf⟩ := fields binding member
      have short := (List.getElem?_eq_some_iff.mp fieldOf.at_).1
      exact Nat.lt_of_lt_of_le (Nat.add_lt_add_left short _) shape.fits
    · exact separate_direct separate member member' direct nested (Nat.add_left_cancel same)
  · rw [belowWindow register registerLow, Frame.setAll_below registerLow]
    exact Function.update_self _ _ _
  · rw [belowWindow r small, Frame.setAll_below small]
    exact Function.update_of_ne other _ _
  · rw [nestedReleased, dropReleased, Frame.setAll_released, fieldsHeld]
    rfl

/-- A source of unloading holds the part that its binding names. -/
theorem DestructureShape.source_spec
    (shape : emitter.DestructureShape edge block register ty variant start code) {v : Value}
    (value : VariantValue emitter.catalog shape.table.family shape.table.variants v)
    (selected : value.variant = variant)
    (known : emitter.catalog.validated_variant_switch_case ty variant.id = .ok (family, variant))
    (fields : ∀ binding ∈ edge.bindings, ∃ field, FieldOf variant binding field)
    (opened : Opened value.payload edge.bindings (start + edge.arguments.length) shape.first
      shape.nested.next shape.nested.value frame)
    {i : Nat} {binding : MirSwitchBinding} {source : Reg} (here : edge.bindings[i]? = some binding)
    (at_ : shape.payload.value[i]? = some source) :
    start + edge.arguments.length ≤ source ∧ some (frame.regs source) = boundPart v binding ∧
      (frame.regs source).isMapRoot = false := by
  obtain ⟨arity, children, -⟩ := known_variant shape.table value selected
  obtain ⟨nominal, last, sources⟩ := shape.sources
  obtain ⟨-, -, -, spec⟩ := payloadSources_ok sources
  obtain ⟨direct, nested⟩ := spec i binding source here at_
  have member := List.mem_of_getElem? here
  unfold boundPart
  rw [payloadOf_typed value]
  cases isNested : binding.nestedTuple with
  | none =>
      obtain ⟨rfl, parameter, listed, type⟩ := direct isNested
      obtain ⟨field, fieldOf⟩ := fields binding member
      have holds := opened.direct binding member isNested
      refine ⟨Nat.le_add_right _ _, holds, ?_⟩
      refine (shape.parameters parameter (List.mem_of_getElem? listed)).typed_not_root type ?_
      rw [← fieldOf.ty_eq]
      exact children _ _ field holds.symm fieldOf.at_
  | some tuple =>
      obtain ⟨base, window, rfl⟩ := nested tuple isNested
      obtain ⟨parameter, elementTy, listed, type, ⟨element⟩⟩ :=
        destructureNested_receipts known shape.opens i binding tuple here isNested
      obtain ⟨items, part, above, -, holds⟩ := opened.windows.holds _ base window
      have hasType := children _ _ element.field part element.fieldOf.at_
      rw [element.tupleTy] at hasType
      obtain ⟨items', same, length, typedItems⟩ := hasType.tuple_inv element.known element.layout
      obtain rfl : items = items' := by injection same
      have short : tuple.fieldIndex < items.length := by
        rw [length]
        exact (List.getElem?_eq_some_iff.mp element.at_).1
      have item := List.getElem?_eq_getElem short
      have brought := holds _ _ item
      refine ⟨?_, ?_, ?_⟩
      · exact Nat.le_trans (Nat.le_trans (Nat.le_add_right _ _) shape.fits)
          (Nat.le_trans above (Nat.le_add_right _ _))
      · dsimp only
        rw [part, Option.bind_some, brought]
        exact item.symm
      · rw [brought]
        exact (shape.parameters parameter (List.mem_of_getElem? listed)).typed_not_root type
          (typedItems _ _ _ item element.at_)

/-- Different bindings are brought to different registers. -/
theorem DestructureShape.sources_distinct
    (shape : emitter.DestructureShape edge block register ty variant start code) {v : Value}
    (value : VariantValue emitter.catalog shape.table.family shape.table.variants v)
    (selected : value.variant = variant)
    (known : emitter.catalog.validated_variant_switch_case ty variant.id = .ok (family, variant))
    (fields : ∀ binding ∈ edge.bindings, ∃ field, FieldOf variant binding field)
    (separate : edge.bindings.Pairwise Separate)
    (opened : Opened value.payload edge.bindings (start + edge.arguments.length) shape.first
      shape.nested.next shape.nested.value frame) : shape.payload.value.Nodup := by
  obtain ⟨arity, children, -⟩ := known_variant shape.table value selected
  obtain ⟨nominal, last, sources⟩ := shape.sources
  obtain ⟨-, -, length, spec⟩ := payloadSources_ok sources
  -- an element lies in the window of its tuple
  have element : ∀ (i : Nat) (binding : MirSwitchBinding) (nested : MirTupleProjectionContract) (base : Reg),
      edge.bindings[i]? = some binding → binding.nestedTuple = some nested →
      shape.nested.value binding.projection.fieldIndex = some base → ∃ items,
        value.payload[binding.projection.fieldIndex]? = some (.tuple items) ∧
        nested.fieldIndex < items.length ∧ shape.first ≤ base := by
    intro i binding nested base here isNested window
    obtain ⟨parameter, elementTy, -, -, ⟨element⟩⟩ :=
      destructureNested_receipts known shape.opens i binding nested here isNested
    obtain ⟨items, part, above, -, -⟩ := opened.windows.holds _ base window
    have hasType := children _ _ element.field part element.fieldOf.at_
    rw [element.tupleTy] at hasType
    obtain ⟨items', same, length', -⟩ := hasType.tuple_inv element.known element.layout
    obtain rfl : items = items' := by injection same
    refine ⟨items, part, ?_, above⟩
    rw [length']
    exact (List.getElem?_eq_some_iff.mp element.at_).1
  -- a field lies in the window of the payload
  have field : ∀ binding ∈ edge.bindings,
      start + edge.arguments.length + binding.projection.fieldIndex < shape.first := by
    intro binding member
    obtain ⟨field, fieldOf⟩ := fields binding member
    have short := (List.getElem?_eq_some_iff.mp fieldOf.at_).1
    exact Nat.lt_of_lt_of_le (Nat.add_lt_add_left short _) shape.fits
  refine List.pairwise_iff_getElem.mpr fun i j iShort jShort before same => ?_
  have iBinding : edge.bindings[i]? = some edge.bindings[i] := List.getElem?_eq_getElem (length ▸ iShort)
  have jBinding : edge.bindings[j]? = some edge.bindings[j] := List.getElem?_eq_getElem (length ▸ jShort)
  obtain ⟨iDirect, iNested⟩ := spec i _ _ iBinding (List.getElem?_eq_getElem iShort)
  obtain ⟨jDirect, jNested⟩ := spec j _ _ jBinding (List.getElem?_eq_getElem jShort)
  have apart := List.pairwise_iff_getElem.mp separate i j (length ▸ iShort) (length ▸ jShort) before
  cases iKind : edge.bindings[i].nestedTuple with
  | none =>
      cases jKind : edge.bindings[j].nestedTuple with
      | none =>
          rw [(iDirect iKind).1, (jDirect jKind).1] at same
          obtain ⟨nested, -, isNested, -⟩ := apart (Nat.add_left_cancel same)
          rw [iKind] at isNested
          cases isNested
      | some nested =>
          obtain ⟨base, window, source⟩ := jNested nested jKind
          obtain ⟨-, -, -, above⟩ := element j _ nested base jBinding jKind window
          have low := field _ (List.mem_of_getElem? iBinding)
          rw [← (iDirect iKind).1, same, source] at low
          exact absurd low (Nat.not_lt.mpr (Nat.le_trans above (Nat.le_add_right _ _)))
  | some nested =>
      obtain ⟨base, window, source⟩ := iNested nested iKind
      obtain ⟨items, part, inside, above⟩ := element i _ nested base iBinding iKind window
      cases jKind : edge.bindings[j].nestedTuple with
      | none =>
          have low := field _ (List.mem_of_getElem? jBinding)
          rw [← (jDirect jKind).1, ← same, source] at low
          exact absurd low (Nat.not_lt.mpr (Nat.le_trans above (Nat.le_add_right _ _)))
      | some nested' =>
          obtain ⟨base', window', source'⟩ := jNested nested' jKind
          obtain ⟨items', part', inside', -⟩ := element j _ nested' base' jBinding jKind window'
          rw [source, source'] at same
          by_cases sameField : edge.bindings[i].projection.fieldIndex =
              edge.bindings[j].projection.fieldIndex
          · obtain ⟨n, n', isNested, isNested', differs⟩ := apart sameField
            obtain rfl := Option.some.inj (iKind.symm.trans isNested)
            obtain rfl := Option.some.inj (jKind.symm.trans isNested')
            rw [sameField] at window
            obtain rfl := Option.some.inj (window.symm.trans window')
            exact differs (Nat.add_left_cancel same)
          · have low : base + nested.fieldIndex < base + items.length := Nat.add_lt_add_left inside _
            have low' : base' + nested'.fieldIndex < base' + items'.length :=
              Nat.add_lt_add_left inside' _
            rcases opened.windows.apart _ _ base base' items items' sameField window window' part part'
              with first | second
            · rw [same] at low
              exact absurd (Nat.lt_of_lt_of_le low first) (Nat.not_lt.mpr (Nat.le_add_right _ _))
            · rw [← same] at low'
              exact absurd (Nat.lt_of_lt_of_le low' second) (Nat.not_lt.mpr (Nat.le_add_right _ _))

/-- An edge of a consuming switch that binds payloads. -/
theorem consuming_edge (assigned : Assigned emitter.registers next) (room : next ≤ start)
    (declared : (block.parameters.map MirBlockParameter.value).Nodup) (binds : edge.bindings ≠ [])
    (h : emitter.emit_variant_move_edge_arguments edge.target edge.arguments edge.bindings ty
      (emitter.regOf scrutinee) variant start = .ok e)
    (found : emitter.function.blocks.find? edge.target = some block)
    (consumed : emitter.Scrutinee edge scrutinee ty) (consumes : edge.consumes = true)
    (known : emitter.catalog.validated_variant_switch_case ty variant.id = .ok (family, variant))
    (fields : ∀ binding ∈ edge.bindings, ∃ field, FieldOf variant binding field)
    (separate : edge.bindings.Pairwise Separate) (typed : emitter.TypedEdge edge frame)
    (selected : variantOf emitter.catalog ty (frame.regs (emitter.regOf scrutinee)) = some variant) :
    (∀ op ∈ e.code, op.straight = true) ∧ emitter.CarriesOut edge block e.code frame := by
  obtain ⟨shape⟩ := emit_variant_move_edge_arguments_ok binds h found
  obtain ⟨nominal, last, sources⟩ := shape.sources
  obtain ⟨-, -, length, -⟩ := payloadSources_ok sources
  have registerLow : emitter.regOf scrutinee < start :=
    Nat.lt_of_lt_of_le (regOf_lt assigned consumed.registered) room
  have hasType := typed.scrutinee scrutinee consumed.scrutinee_eq ty _ consumed.typeOf_eq
    (valueIn_of_registered consumed.registered)
  obtain ⟨value₀⟩ := hasType.variant_inv shape.table.layout
  have same₀ : value₀.variant = variant :=
    Option.some.inj ((variantOf_typed shape.table value₀).symm.trans selected)
  have straight : ∀ op ∈ shape.unbound.code ++ shape.nested.code, op.straight = true := by
    obtain ⟨straight, -⟩ := shape.opens_exec value₀ same₀ registerLow known fields separate
    exact straight
  rw [shape.code_eq]
  refine ⟨straight_append (straight_transfers _) (straight_append
    (List.forall_mem_cons.mpr ⟨rfl, straight⟩) (straight_transfers _)), ?_⟩
  obtain ⟨frame₁, first, staged⟩ := stage_exec assigned room shape.passed typed.arguments
  have passes : emitter.passed edge frame = edge.arguments.map (emitter.valueIn frame) ++
      edge.bindings.map fun binding => boundPart (frame.regs (emitter.regOf scrutinee)) binding := by
    unfold passed
    rw [consumed.scrutinee_eq, Option.bind_some, valueIn_of_registered consumed.registered]
    rfl
  have opens : scrutinee ∉ edge.arguments.filter emitter.moves → ∃ frame₂,
      exec (.destructureVariantMove (emitter.regOf scrutinee) (start + edge.arguments.length)
        variant.fields.length variant.name shape.shapes :: (shape.unbound.code ++ shape.nested.code)) frame₁ =
        .ok frame₂ ∧
      Opened value₀.payload edge.bindings (start + edge.arguments.length) shape.first shape.nested.next
        shape.nested.value frame₂ ∧
      frame₂.regs (emitter.regOf scrutinee) = .unit ∧
      (∀ r, r < start + edge.arguments.length → r ≠ emitter.regOf scrutinee →
        frame₂.regs r = frame₁.regs r) ∧
      frame₂.released = frame₁.released ++
        ((variant.fields.zip value₀.payload).filterMap (emitter.unboundField edge.bindings)).reverse := by
    intro unmoved
    have kept := staged.kept scrutinee unmoved
    rw [valueIn_of_registered consumed.registered, valueIn_of_registered consumed.registered] at kept
    have held := Option.some.inj kept
    rw [← held] at hasType
    obtain ⟨value⟩ := hasType.variant_inv shape.table.layout
    have sameVariant : value.variant = variant := by
      rw [← held] at selected
      exact Option.some.inj ((variantOf_typed shape.table value).symm.trans selected)
    have samePayload : value.payload = value₀.payload := by
      rw [← payloadOf_typed value, ← payloadOf_typed value₀, held]
    obtain ⟨-, frame₂, ran, opened, rest⟩ :=
      shape.opens_exec value sameVariant registerLow known fields separate
    rw [samePayload] at opened rest
    exact ⟨frame₂, ran, opened, rest⟩
  have reason : edge.consumes = true ∨ edge.bindings ≠ [] := .inl consumes
  have temps : ∀ temp ∈ List.range' start edge.arguments.length, start ≤ temp ∧
      temp < start + edge.arguments.length := fun temp member => List.mem_range'_1.mp member
  by_cases moved : scrutinee ∈ edge.arguments.filter emitter.moves
  · -- the scrutinee is gone before it is taken apart
    have empty := staged.gone scrutinee moved
    rw [valueIn_of_registered consumed.registered] at empty
    unfold CarriesOut
    rw [exec_append first]
    refine ⟨fun transfers => ?_, fun sound =>
      absurd moved (sound.apart scrutinee consumed.scrutinee_eq reason)⟩
    obtain ⟨frame', runs, -⟩ := transfers
    rw [List.cons_append, exec, step, Option.some.inj empty] at runs
    cases runs
  · obtain ⟨frame₂, ran, opened, gone, kept, released⟩ := opens moved
    have distinct := shape.sources_distinct value₀ same₀ known fields separate opened
    have spec : ∀ {i : Nat} {binding : MirSwitchBinding} {source : Reg},
        edge.bindings[i]? = some binding → shape.payload.value[i]? = some source →
        start + edge.arguments.length ≤ source ∧
          some (frame₂.regs source) = boundPart (frame.regs (emitter.regOf scrutinee)) binding ∧
          (frame₂.regs source).isMapRoot = false :=
      fun here at_ => shape.source_spec value₀ same₀ known fields opened here at_
    have above : ∀ source ∈ shape.payload.value, start + edge.arguments.length ≤ source ∧
        (frame₂.regs source).isMapRoot = false := by
      intro source member
      obtain ⟨i, at_⟩ := List.mem_iff_getElem?.mp member
      have short : i < edge.bindings.length := length ▸ (List.getElem?_eq_some_iff.mp at_).1
      obtain ⟨high, -, root⟩ := spec (List.getElem?_eq_getElem short) at_
      exact ⟨high, root⟩
    have unloads : ∀ frame₂ : Frame,
        (∀ source ∈ List.range' start edge.arguments.length ++ shape.payload.value,
          (frame₂.regs source).isMapRoot = false) →
        ∃ frame₃, exec ((emitter.unloadTransfers (List.range' start edge.arguments.length ++
          shape.payload.value) block.parameters).map transferOp) frame₂ = .ok frame₃ ∧
          emitter.Unloaded (List.range' start edge.arguments.length ++ shape.payload.value)
            block.parameters frame₂ frame₃ := by
      intro frame₂ roots
      refine unload_exec assigned ?_ ?_ (fun source member => ?_) declared shape.parameters roots
      · rw [List.length_append, List.length_range', length, shape.arity]
      · refine List.nodup_append.mpr ⟨List.nodup_range', distinct, fun temp member source member' same => ?_⟩
        have low := (temps temp member).2
        rw [same] at low
        exact absurd low (Nat.not_lt.mpr (above source member').1)
      · rcases List.mem_append.mp member with temp | source'
        · exact Nat.le_trans room (temps source temp).1
        · exact Nat.le_trans room (Nat.le_trans (Nat.le_add_right _ _) (above source source').1)
    refine carriesOut_of_middle first staged shape.passed typed.arguments unloads passes
      (fun _ => binds) (fun _ => ⟨frame₂, ran, ?_⟩) fun other same _ moved' => ?_
    · rw [consumes, if_pos rfl]
      exact {
        staged := fun temp member => kept temp (temps temp member).2
          (Nat.ne_of_gt (Nat.lt_of_lt_of_le registerLow (temps temp member).1))
        brought := by
          refine List.ext_getElem? fun i => ?_
          rw [List.getElem?_map, List.getElem?_map]
          cases here : edge.bindings[i]? with
          | none =>
              have long := List.getElem?_eq_none_iff.mp here
              rw [← length] at long
              rw [List.getElem?_eq_none long]
              rfl
          | some binding =>
              have short : i < shape.payload.value.length := by
                rw [length]
                exact (List.getElem?_eq_some_iff.mp here).1
              have at_ := List.getElem?_eq_getElem short
              rw [at_, Option.map_some, Option.map_some, (spec here at_).2.1]
        kept := fun other differs => by
          unfold valueIn
          cases registered : emitter.registers other with
          | none => rfl
          | some r =>
              refine congrArg some (kept r ?_ fun same => ?_)
              · exact Nat.lt_of_lt_of_le (assigned.below other r registered)
                  (Nat.le_trans room (Nat.le_add_right _ _))
              · have here := assigned.distinct other scrutinee r registered (same ▸ consumed.registered)
                exact differs (here ▸ consumed.scrutinee_eq)
        gone := fun other same v held => by
          obtain rfl := Option.some.inj (consumed.scrutinee_eq.symm.trans same)
          rw [valueIn_of_registered consumed.registered, gone] at held
          exact (Option.some.inj held).symm
        roots := fun source member => (above source member).2
        released := by
          unfold releasedParts
          rw [consumes, if_pos rfl, consumed.scrutinee_eq, Option.bind_some, consumed.typeOf_eq,
            Option.bind_some, valueIn_of_registered consumed.registered, Option.map_some,
            Option.getD_some, unboundParts, if_neg (by rw [List.isEmpty_iff]; exact binds), selected,
            payloadOf_typed value₀]
          exact released }
    · obtain rfl := Option.some.inj (consumed.scrutinee_eq.symm.trans same)
      exact absurd moved' moved

end Consuming

end Emitter

end Mimi.Bytecode
