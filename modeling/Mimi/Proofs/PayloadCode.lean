/-
Module: Mimi.Proofs.PayloadCode
Purpose: The code of the edges that bind payloads carries out the edge exactly when the edge is sound: payloads
  are projected to registers of their own, or the scrutinee is taken apart into windows of registers.
Trusted boundary: values have their types when the terminator is reached
-/
import Mimi.Proofs.EdgeCode

namespace Mimi.Bytecode

open Mimi.Core Mimi.Mir Mimi.Lib

/-! ### Receipts -/

/-- A binding projects a field of the variant. -/
structure FieldOf (variant : MirVariantDesc) (binding : MirSwitchBinding) (field : MirFieldDesc) : Prop where
  at_ : variant.fields[binding.projection.fieldIndex]? = some field
  id_eq : field.id = binding.projection.field
  ty_eq : field.ty = binding.projection.fieldTy

theorem fieldOf_eq_some {variant : MirVariantDesc} {id : NodeId} {entry : Nat × MirFieldDesc}
    (h : MirTypeCatalog.fieldOf variant id = some entry) :
    variant.fields[entry.1]? = some entry.2 ∧ entry.2.id = id := by
  obtain ⟨found, first, rfl⟩ := Option.map_eq_some_iff.mp h
  exact ⟨List.mem_zipIdx_iff_getElem?.mp (List.mem_of_find?_eq_some first),
    of_decide_eq_true (List.find?_some first :)⟩

/-- The receipt of a projection is that of a field of the variant. -/
theorem projection_receipt {catalog : MirTypeCatalog} {ty result_ty : ResolvedTypeId} {id : NodeId}
    {receipt : MirVariantProjectionContract} {case_ : String × MirVariantDesc}
    (valid : catalog.validate_variant_payload_projection_receipt ty id result_ty receipt = .ok ())
    (known : catalog.validated_variant_switch_case ty id = .ok case_) :
    ∃ field, case_.2.fields[receipt.fieldIndex]? = some field ∧ field.id = receipt.field ∧
      field.ty = receipt.fieldTy ∧ receipt.fieldTy = result_ty := by
  obtain ⟨expected, contract, same⟩ := bind_eq_ok.mp valid
  have agrees := reject_eq_ok.mp same
  rw [decide_eq_false_iff_not, not_not] at agrees
  subst agrees
  obtain ⟨-, rest⟩ := check_eq_ok.mp contract
  obtain ⟨case', known', rest⟩ := bind_eq_ok.mp rest
  obtain rfl := Except.ok.inj (known.symm.trans known')
  obtain ⟨nominal, -, rest⟩ := bind_eq_ok.mp rest
  obtain ⟨entry, field, rest⟩ := bind_eq_ok.mp rest
  obtain ⟨type, rest⟩ := check_eq_ok.mp rest
  obtain ⟨descriptor, -, last⟩ := bind_eq_ok.mp rest
  have result := pure_eq_ok.mp last
  obtain ⟨here, id_eq⟩ := fieldOf_eq_some (orError_eq_ok.mp field)
  have sameType := reject_eq_ok.mp type
  rw [decide_eq_false_iff_not, not_not] at sameType
  have index : receipt.fieldIndex = entry.1 := by rw [← result]
  have fieldTy : receipt.fieldTy = entry.2.ty := by rw [← result]
  refine ⟨entry.2, ?_, id_eq, fieldTy.symm, fieldTy.trans sameType⟩
  rw [index]
  exact here

/-- A variant of a family that a switch names. -/
theorem switch_case_ok {catalog : MirTypeCatalog} {ty : ResolvedTypeId} {id : NodeId}
    {case_ : String × MirVariantDesc} (h : catalog.validated_variant_switch_case ty id = .ok case_) :
    ∃ variants, catalog.variant_layout ty = some (case_.1, variants) ∧ case_.2 ∈ variants ∧
      case_.2.id = id := by
  obtain ⟨family, layout, rest⟩ := bind_eq_ok.mp h
  obtain ⟨variant, found, last⟩ := bind_eq_ok.mp rest
  obtain rfl := pure_eq_ok.mp last
  have first := orError_eq_ok.mp found
  exact ⟨family.2, orError_eq_ok.mp layout, List.mem_of_find?_eq_some first,
    of_decide_eq_true (List.find?_some first :)⟩

namespace Emitter

variable {emitter : Emitter} {next start : Reg} {edge : Edge} {block : MirBlock} {frame : Frame}

/-! ### Staging, projecting, unloading -/

section Middle

variable {temps payload : List Reg} {values : List (Option Value)} {frame₁ : Frame}
  {stageCode middle unloadCode : List Op}

/-- The code of an edge that binds payloads: it traps when the scrutinee has been moved, and loses a value that is
moved twice; else it has the effect of the edge. -/
theorem carriesOut_of_middle (runs : exec stageCode frame = .ok frame₁)
    (staged : emitter.Staged edge.arguments temps frame frame₁)
    (transferable : ∀ argument ∈ edge.arguments, emitter.Transferable argument)
    (typed : ∀ argument ∈ edge.arguments, emitter.TypedIn frame argument)
    (unloads : ∀ frame₂ : Frame, (∀ source ∈ temps ++ payload, (frame₂.regs source).isMapRoot = false) →
      ∃ frame₃, exec unloadCode frame₂ = .ok frame₃ ∧
        emitter.Unloaded (temps ++ payload) block.parameters frame₂ frame₃)
    (passes : emitter.passed edge frame = edge.arguments.map (emitter.valueIn frame) ++ values)
    (binds : edge.consumes = true → edge.bindings ≠ [])
    (projects : (∀ scrutinee, edge.scrutinee = some scrutinee →
        edge.consumes = true ∨ edge.bindings ≠ [] → scrutinee ∉ edge.arguments.filter emitter.moves) →
      ∃ frame₂, exec middle frame₁ = .ok frame₂ ∧ emitter.Projected temps payload values
        (if edge.consumes then edge.scrutinee else none) (emitter.releasedParts edge frame) frame₁ frame₂)
    (traps : ∀ scrutinee, edge.scrutinee = some scrutinee → edge.consumes = true ∨ edge.bindings ≠ [] →
      scrutinee ∈ edge.arguments.filter emitter.moves → ∀ frame₂, exec middle frame₁ ≠ .ok frame₂) :
    emitter.CarriesOut edge block (stageCode ++ (middle ++ unloadCode)) frame := by
  unfold CarriesOut
  rw [exec_append runs]
  have rest : ∀ frame₂, exec middle frame₁ = .ok frame₂ → emitter.Projected temps payload values
      (if edge.consumes then edge.scrutinee else none) (emitter.releasedParts edge frame) frame₁ frame₂ →
      ∃ frame₃, exec (middle ++ unloadCode) frame₁ = .ok frame₃ ∧
        emitter.Unloaded (temps ++ payload) block.parameters frame₂ frame₃ := by
    intro frame₂ ran projected
    obtain ⟨frame₃, last, unloaded⟩ := unloads frame₂ fun source member => by
      rcases List.mem_append.mp member with temp | bound
      · rw [projected.staged source temp]
        exact staged.roots source temp
      · exact projected.roots source bound
    exact ⟨frame₃, by rw [exec_append ran, last], unloaded⟩
  refine ⟨fun transfers => ?_, fun sound => ?_⟩
  · obtain ⟨frame', runs', transferred⟩ := transfers
    have apart : ∀ scrutinee, edge.scrutinee = some scrutinee →
        edge.consumes = true ∨ edge.bindings ≠ [] → scrutinee ∉ edge.arguments.filter emitter.moves := by
      intro scrutinee same reason moved
      cases ran : exec middle frame₁ with
      | ok frame₂ => exact traps scrutinee same reason moved frame₂ ran
      | error trap =>
          rw [exec_append_error ran] at runs'
          cases runs'
    obtain ⟨frame₂, ran, projected⟩ := projects apart
    obtain ⟨frame₃, last, unloaded⟩ := rest frame₂ ran projected
    obtain rfl := Except.ok.inj (last.symm.trans runs')
    refine ⟨?_, apart, fun scrutinee _ consumes unbound => absurd unbound (binds consumes)⟩
    by_contra again
    obtain ⟨i, argument, listed, moved, received⟩ :=
      exists_unit_of_twice again staged projected.staged unloaded
    exact not_transferred_of_unit transferable typed listed moved received transferred
  · obtain ⟨frame₂, ran, projected⟩ := projects sound.apart
    obtain ⟨frame₃, last, unloaded⟩ := rest frame₂ ran projected
    exact ⟨frame₃, last, transferred_of_nodup sound.once staged projected unloaded passes⟩

end Middle

/-! ### Reading payloads -/

theorem bindingParameter_ok {index : Nat} {binding : MirSwitchBinding} {nominal : String}
    {variant : MirVariantDesc} {e : Emitted Unit}
    (h : emitter.bindingParameter block index binding nominal variant start = .ok e) :
    e = ⟨(), [], start⟩ ∧ ∃ parameter ty, block.parameters[index]? = some parameter ∧
      emitter.typeOf parameter.value = some ty ∧
      (binding.nestedTuple = none → binding.projection.fieldTy = ty) := by
  obtain ⟨a, first, b, rest, rfl⟩ := Emit.bind_ok.mp h
  obtain ⟨parameter, listed, rfl⟩ := lift_ok.mp first
  obtain ⟨c, second, d, last, rfl⟩ := Emit.bind_ok.mp rest
  obtain ⟨ty, known, rfl⟩ := valueType_ok second
  dsimp only at last
  by_cases wrong : binding.projection.variant ≠ variant.id ∨ binding.projection.nominal.val ≠ nominal ∨
      (binding.nestedTuple.isNone ∧ binding.projection.fieldTy ≠ ty) ∨
      binding.projection.arity ≠ variant.fields.length
  · rw [if_pos wrong] at last
    cases last
  · rw [if_neg wrong] at last
    by_cases differs : binding.parameter ≠ parameter.value
    · rw [if_pos differs] at last
      cases last
    · rw [if_neg differs] at last
      obtain rfl := pure_ok.mp last
      refine ⟨rfl, parameter, ty, orError_eq_ok.mp listed, known, fun direct => ?_⟩
      by_contra other
      refine wrong (.inr (.inr (.inl ⟨?_, other⟩)))
      rw [direct]
      rfl

/-- The instructions that project the payloads. -/
def projectOps (scrutinee : Reg) (tag : String) (shapes : List VariantShape) :
    Reg → List MirSwitchBinding → List Op
  | _, [] => []
  | scratch, binding :: bindings =>
      .variantGet scratch scrutinee binding.projection.fieldIndex tag shapes ::
        projectOps scrutinee tag shapes (scratch + 1) bindings

theorem straight_projectOps (scrutinee : Reg) (tag : String) (shapes : List VariantShape) (scratch : Reg)
    (bindings : List MirSwitchBinding) :
    ∀ op ∈ projectOps scrutinee tag shapes scratch bindings, op.straight = true := by
  induction bindings generalizing scratch with
  | nil => exact fun _ member => absurd member List.not_mem_nil
  | cons binding bindings ih => exact List.forall_mem_cons.mpr ⟨rfl, ih (scratch + 1)⟩

theorem projectBindings_ok {nominal : String} {variant : MirVariantDesc} {scrutinee : Reg}
    {shapes : List VariantShape} {index : Nat} {bindings : List MirSwitchBinding} {e : Emitted (List Reg)}
    (h : emitter.projectBindings block nominal variant scrutinee shapes index bindings start = .ok e) :
    e = ⟨List.range' start bindings.length, projectOps scrutinee variant.name shapes start bindings,
      start + bindings.length⟩ ∧
      ∀ (i : Nat) (binding : MirSwitchBinding), bindings[i]? = some binding → ∃ parameter,
        block.parameters[index + i]? = some parameter ∧
        emitter.typeOf parameter.value = some binding.projection.fieldTy := by
  induction bindings generalizing index start e with
  | nil =>
      obtain rfl := pure_ok.mp h
      exact ⟨rfl, fun i binding impossible => by cases impossible⟩
  | cons binding bindings ih =>
      obtain ⟨a, check, b, afterCheck, rfl⟩ := Emit.bind_ok.mp h
      obtain ⟨rfl, parameter, ty, listed, known, direct⟩ := bindingParameter_ok check
      obtain ⟨c, field, d, afterField, rfl⟩ := Emit.bind_ok.mp afterCheck
      obtain rfl := u16_abi_ok field
      obtain ⟨f, alloc, g, afterAlloc, rfl⟩ := Emit.bind_ok.mp afterField
      obtain rfl := alloc_reg_ok alloc
      obtain ⟨k, get, l, afterGet, rfl⟩ := Emit.bind_ok.mp afterAlloc
      obtain rfl := emit_ok.mp get
      obtain ⟨m, others, n, last, rfl⟩ := Emit.bind_ok.mp afterGet
      obtain rfl := pure_ok.mp last
      obtain ⟨rfl, parameters⟩ := ih others
      refine ⟨?_, fun i other here => ?_⟩
      · have total : start + 1 + bindings.length = start + (binding :: bindings).length := by
          rw [List.length_cons, Nat.add_assoc, Nat.add_comm 1]
        dsimp only
        rw [List.append_nil, total]
        rfl
      · cases i with
        | zero =>
            obtain rfl := Option.some.inj here
            refine ⟨parameter, listed, ?_⟩
            rw [known, direct rfl]
        | succ i =>
            obtain ⟨later, at_, type⟩ := parameters i other here
            refine ⟨later, ?_, type⟩
            rw [← at_, Nat.add_assoc, Nat.add_comm 1]

/-- The payloads are brought to the scratch registers; nothing else changes. -/
theorem exec_projectOps {scrutinee : Reg} {tag : String} {shapes : List VariantShape}
    {payload : List Value} {shape : VariantShape} {bindings : List MirSwitchBinding}
    (below : scrutinee < start)
    (passes : bindings ≠ [] → taggedPayload tag shapes (frame.regs scrutinee) = .ok (payload, shape))
    (inside : ∀ binding ∈ bindings, binding.projection.fieldIndex < payload.length) :
    ∃ frame', exec (projectOps scrutinee tag shapes start bindings) frame = .ok frame' ∧
      (∀ r, r < start → frame'.regs r = frame.regs r) ∧
      (List.range' start bindings.length).map (fun r => some (frame'.regs r)) =
        bindings.map (fun binding => payload[binding.projection.fieldIndex]?) ∧
      frame'.released = frame.released := by
  induction bindings generalizing start frame with
  | nil => exact ⟨frame, rfl, fun _ _ => rfl, rfl, rfl⟩
  | cons binding bindings ih =>
      have short := inside binding List.mem_cons_self
      have tagged := passes (List.cons_ne_nil _ _)
      have first : step (.variantGet start scrutinee binding.projection.fieldIndex tag shapes) frame =
          .ok (frame.set start payload[binding.projection.fieldIndex]) := by
        rw [step, tagged]
        dsimp only
        rw [List.getElem?_eq_getElem short]
      have same : ∀ r, r < start → (frame.set start payload[binding.projection.fieldIndex]).regs r =
          frame.regs r := fun r low => Function.update_of_ne (Nat.ne_of_lt low) _ _
      obtain ⟨frame', rest, kept, brought, released⟩ :=
        ih (Nat.lt_succ_of_lt below) (fun _ => (congrArg _ (same scrutinee below)).trans tagged)
          (fun other member => inside other (List.mem_cons_of_mem _ member))
      refine ⟨frame', ?_, fun r low => (kept r (Nat.lt_succ_of_lt low)).trans (same r low), ?_, released⟩
      · rw [projectOps, exec, first]
        exact rest
      · rw [List.length_cons, List.range'_succ, List.map_cons, List.map_cons, brought,
          kept start (Nat.lt_succ_self _), List.getElem?_eq_getElem short]
        exact congrArg (fun v => some v :: _) (Function.update_self _ _ _)

section Reading

variable {scrutinee : MirValueId} {ty : ResolvedTypeId} {variant : MirVariantDesc} {e : Emitted Unit}

/-- The scratch registers of the arguments and of the payloads are apart from each other. -/
theorem sources_nodup (start count count' : Nat) :
    (List.range' start count ++ List.range' (start + count) count').Nodup := by
  rw [List.range'_append_1]
  exact List.nodup_range'

/-- An edge of a reading switch, for a variant. -/
theorem reading_edge (assigned : Assigned emitter.registers next) (room : next ≤ start)
    (declared : (block.parameters.map MirBlockParameter.value).Nodup)
    (h : emitter.emit_variant_edge_arguments edge.target edge.arguments edge.bindings ty
      (emitter.regOf scrutinee) variant start = .ok e)
    (found : emitter.function.blocks.find? edge.target = some block)
    (known : emitter.Scrutinee edge scrutinee ty) (reads : edge.consumes = false)
    (receipts : ∀ binding ∈ edge.bindings, binding.nestedTuple = none ∧ ∃ field, FieldOf variant binding field)
    (typed : emitter.TypedEdge edge frame)
    (selected : variantOf emitter.catalog ty (frame.regs (emitter.regOf scrutinee)) = some variant) :
    (∀ op ∈ e.code, op.straight = true) ∧ emitter.CarriesOut edge block e.code frame := by
  obtain ⟨a, target, b, afterTarget, rfl⟩ := Emit.bind_ok.mp h
  obtain ⟨block', found', arity, rfl⟩ := edgeTarget_ok target
  obtain rfl := Option.some.inj (found.symm.trans found')
  obtain ⟨c, shaped, d, afterShapes, rfl⟩ := Emit.bind_ok.mp afterTarget
  obtain ⟨shapes, rfl, ⟨table⟩⟩ := shape_table_ok shaped
  obtain ⟨layout, named, f, afterLayout, rfl⟩ := Emit.bind_ok.mp afterShapes
  obtain ⟨family, -, rfl⟩ := lift_ok.mp named
  obtain ⟨g, stage, k, afterStage, rfl⟩ := Emit.bind_ok.mp afterLayout
  obtain ⟨rfl, transferable⟩ := stageArguments_ok stage
  obtain ⟨l, project, m, last, rfl⟩ := Emit.bind_ok.mp afterStage
  obtain ⟨rfl, bound⟩ := projectBindings_ok project
  rw [staged_dst] at last
  obtain ⟨rfl, parameters⟩ := unloadParameters_ok last (by
    rw [List.length_append, List.length_range', List.length_range', arity])
  dsimp only [List.nil_append]
  refine ⟨straight_append (straight_transfers _)
    (straight_append (straight_projectOps _ _ _ _ _) (straight_transfers _)), ?_⟩
  obtain ⟨frame₁, first, staged⟩ := stage_exec assigned room transferable typed.arguments
  have hasType := typed.scrutinee scrutinee known.scrutinee_eq ty _ known.typeOf_eq
    (valueIn_of_registered known.registered)
  obtain ⟨value⟩ := hasType.variant_inv table.layout
  obtain rfl : value.variant = variant :=
    Option.some.inj ((variantOf_typed table value).symm.trans selected)
  have payload : payloadOf (frame.regs (emitter.regOf scrutinee)) = value.payload := payloadOf_typed value
  have inside : ∀ binding ∈ edge.bindings, binding.projection.fieldIndex < value.payload.length := by
    intro binding member
    obtain ⟨-, field, receipt⟩ := receipts binding member
    rw [value.arity]
    exact (List.getElem?_eq_some_iff.mp receipt.at_).1
  have scrutineeLow : emitter.regOf scrutinee < start + edge.arguments.length :=
    Nat.lt_of_lt_of_le (regOf_lt assigned known.registered) (Nat.le_trans room (Nat.le_add_right _ _))
  have passes : emitter.passed edge frame = edge.arguments.map (emitter.valueIn frame) ++
      edge.bindings.map fun binding => value.payload[binding.projection.fieldIndex]? := by
    unfold passed
    rw [known.scrutinee_eq, Option.bind_some, valueIn_of_registered known.registered]
    refine congrArg (_ ++ ·) (List.map_congr_left fun binding member => ?_)
    rw [Option.bind_some, boundPart]
    rw [(receipts binding member).1, payload]
  have unloads : ∀ frame₂ : Frame,
      (∀ source ∈ List.range' start edge.arguments.length ++
        List.range' (start + edge.arguments.length) edge.bindings.length,
        (frame₂.regs source).isMapRoot = false) →
      ∃ frame₃, exec ((emitter.unloadTransfers (List.range' start edge.arguments.length ++
        List.range' (start + edge.arguments.length) edge.bindings.length) block.parameters).map transferOp)
          frame₂ = .ok frame₃ ∧ emitter.Unloaded (List.range' start edge.arguments.length ++
        List.range' (start + edge.arguments.length) edge.bindings.length) block.parameters frame₂ frame₃ := by
    intro frame₂ roots
    refine unload_exec assigned ?_ (sources_nodup _ _ _) (fun source member => ?_) declared parameters roots
    · rw [List.length_append, List.length_range', List.length_range', arity]
    · rcases List.mem_append.mp member with temp | later
      · exact Nat.le_trans room (List.mem_range'_1.mp temp).1
      · exact Nat.le_trans room (Nat.le_trans (Nat.le_add_right _ _) (List.mem_range'_1.mp later).1)
  refine carriesOut_of_middle first staged transferable typed.arguments unloads passes
    (fun consumes => absurd consumes (reads ▸ Bool.false_ne_true)) (fun unmoved => ?_)
    fun other same reason moved frame₂ ran => ?_
  · have held : edge.bindings ≠ [] →
        frame₁.regs (emitter.regOf scrutinee) = frame.regs (emitter.regOf scrutinee) := by
      intro binds
      have kept := staged.kept scrutinee (unmoved scrutinee known.scrutinee_eq (.inr binds))
      rw [valueIn_of_registered known.registered, valueIn_of_registered known.registered] at kept
      exact Option.some.inj kept
    obtain ⟨frame₂, ran, kept, brought, released⟩ := exec_projectOps scrutineeLow
      (fun binds => (congrArg _ (held binds)).trans (taggedPayload_typed table value)) inside
    refine ⟨frame₂, ran, ?_⟩
    rw [reads, if_neg Bool.false_ne_true]
    exact {
      staged := fun temp member => kept temp (List.mem_range'_1.mp member).2
      brought := brought
      kept := fun other _ => by
        unfold valueIn
        cases registered : emitter.registers other with
        | none => rfl
        | some r =>
            refine congrArg some (kept r ?_)
            exact Nat.lt_of_lt_of_le (assigned.below other r registered)
              (Nat.le_trans room (Nat.le_add_right _ _))
      gone := fun _ impossible => by cases impossible
      roots := fun source member => by
        obtain ⟨i, here⟩ := List.mem_iff_getElem?.mp member
        have short : i < edge.bindings.length := by
          have bounded := (List.getElem?_eq_some_iff.mp here).1
          rwa [List.length_range'] at bounded
        have listed := List.getElem?_eq_getElem short
        obtain ⟨parameter, at_, type⟩ := bound i _ listed
        obtain ⟨-, field, receipt⟩ := receipts _ (List.mem_of_getElem? listed)
        have arrives : ((List.range' (start + edge.arguments.length) edge.bindings.length).map
            fun r => some (frame₂.regs r))[i]? = (edge.bindings.map fun binding =>
              value.payload[binding.projection.fieldIndex]?)[i]? := by rw [brought]
        rw [List.getElem?_map, here, List.getElem?_map, listed, Option.map_some, Option.map_some] at arrives
        refine (parameters parameter (List.mem_of_getElem? at_)).typed_not_root type ?_
        rw [← receipt.ty_eq]
        exact value.children _ _ field (Option.some.inj arrives).symm receipt.at_
      released := by
        unfold releasedParts
        rw [reads, if_neg Bool.false_ne_true, List.append_nil, released] }
  · obtain rfl := Option.some.inj (same.symm.trans known.scrutinee_eq)
    have empty := staged.gone other moved
    rw [valueIn_of_registered known.registered] at empty
    cases bindings : edge.bindings with
    | nil =>
        rcases reason with consumes | binds
        · rw [reads] at consumes
          cases consumes
        · exact binds bindings
    | cons binding rest =>
        rw [bindings, projectOps, exec, step, Option.some.inj empty] at ran
        cases ran

end Reading

end Emitter

end Mimi.Bytecode
