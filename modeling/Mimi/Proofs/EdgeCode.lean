/-
Module: Mimi.Proofs.EdgeCode
Purpose: The code of the edges that bind nothing and of the edges of reading switches carries out the edge
  exactly when the edge is sound.
Trusted boundary: values have their types when the terminator is reached
-/
import Mimi.Proofs.EdgeArguments
import Mimi.Proofs.VariantShapes

namespace Mimi.Bytecode

open Mimi.Core Mimi.Mir Mimi.Lib

namespace Emitter

/-- The code has the effect of the edge exactly when the edge is sound. -/
def CarriesOut (emitter : Emitter) (edge : Edge) (block : MirBlock) (code : List Op) (frame : Frame) :
    Prop :=
  (∃ frame', exec code frame = .ok frame' ∧ emitter.Transferred edge block frame frame') ↔
    emitter.EdgeSound edge block

variable {emitter : Emitter} {next start : Reg} {edge : Edge} {block : MirBlock} {frame : Frame}
  {e : Emitted Unit}

theorem straight_transfers (ts : List (Transfer Reg)) : ∀ op ∈ ts.map transferOp, op.straight = true := by
  intro op member
  obtain ⟨t, -, rfl⟩ := List.mem_map.mp member
  exact transferOp_straight t

theorem straight_append {code rest : List Op} (first : ∀ op ∈ code, op.straight = true)
    (second : ∀ op ∈ rest, op.straight = true) : ∀ op ∈ code ++ rest, op.straight = true := by
  intro op member
  rcases List.mem_append.mp member with early | late
  · exact first op early
  · exact second op late

/-! ### Arguments -/

/-- The code of the arguments of an edge: staging, then unloading. -/
structure ArgumentCode (emitter : Emitter) (arguments : List MirValueId) (start : Reg) (block : MirBlock)
    (code : List Op) : Prop where
  arity : block.parameters.length = arguments.length
  passed : ∀ argument ∈ arguments, emitter.Transferable argument
  parameters : ∀ parameter ∈ block.parameters, emitter.Transferable parameter.value
  code_eq : code = (emitter.stagedTransfers start arguments).map transferOp ++
    (emitter.unloadTransfers (List.range' start arguments.length) block.parameters).map transferOp

variable {arguments : List MirValueId}

theorem emit_edge_arguments_ok {target : MirBlockId} (h : emitter.emit_edge_arguments target arguments start = .ok e)
    (found : emitter.function.blocks.find? target = some block) :
    emitter.ArgumentCode arguments start block e.code := by
  obtain ⟨a, first, b, rest, rfl⟩ := Emit.bind_ok.mp h
  obtain ⟨block', found', arity, rfl⟩ := edgeTarget_ok first
  obtain rfl := Option.some.inj (found.symm.trans found')
  obtain ⟨c, stage, d, last, rfl⟩ := Emit.bind_ok.mp rest
  obtain ⟨rfl, transferable⟩ := stageArguments_ok stage
  rw [staged_dst] at last
  obtain ⟨rfl, parameters⟩ := unloadParameters_ok last (by rw [List.length_range', arity])
  exact {
    arity := arity
    passed := transferable
    parameters := parameters
    code_eq := rfl }

theorem ArgumentCode.straight {code : List Op}
    (shape : emitter.ArgumentCode arguments start block code) : ∀ op ∈ code, op.straight = true := by
  rw [shape.code_eq]
  exact straight_append (straight_transfers _) (straight_transfers _)

section Context

variable (assigned : Assigned emitter.registers next) (room : next ≤ start)
  (declared : (block.parameters.map MirBlockParameter.value).Nodup)
include assigned room declared

theorem ArgumentCode.exec {code : List Op} (shape : emitter.ArgumentCode arguments start block code)
    (typed : ∀ argument ∈ arguments, emitter.TypedIn frame argument) :
    ∃ frame₁ frame₃, Bytecode.exec code frame = .ok frame₃ ∧
      emitter.Staged arguments (List.range' start arguments.length) frame frame₁ ∧
      emitter.Unloaded (List.range' start arguments.length) block.parameters frame₁ frame₃ := by
  obtain ⟨frame₁, first, staged⟩ := stage_exec assigned room shape.passed typed
  have scratch : ∀ source ∈ List.range' start arguments.length, next ≤ source :=
    fun source member => Nat.le_trans room (List.mem_range'_1.mp member).1
  obtain ⟨frame₃, second, unloaded⟩ := unload_exec assigned
    (by rw [List.length_range', shape.arity]) List.nodup_range' scratch declared shape.parameters staged.roots
  refine ⟨frame₁, frame₃, ?_, staged, unloaded⟩
  rw [shape.code_eq, exec_append first]
  exact second

/-- An edge that only passes arguments. -/
theorem plain_edge (h : emitter.emit_edge_arguments edge.target edge.arguments start = .ok e)
    (found : emitter.function.blocks.find? edge.target = some block) (unbound : edge.bindings = [])
    (reads : edge.consumes = false) (typed : emitter.TypedEdge edge frame) :
    (∀ op ∈ e.code, op.straight = true) ∧ emitter.CarriesOut edge block e.code frame := by
  have shape := emit_edge_arguments_ok h found
  refine ⟨shape.straight, ?_⟩
  obtain ⟨frame₁, frame₃, runs, staged, unloaded⟩ := shape.exec assigned room declared typed.arguments
  have unload : emitter.Unloaded (List.range' start edge.arguments.length ++ []) block.parameters frame₁
      frame₃ := by
    rw [List.append_nil]
    exact unloaded
  have passes : emitter.passed edge frame = edge.arguments.map (emitter.valueIn frame) ++ [] := by
    unfold passed
    rw [unbound]
    rfl
  have releases : emitter.releasedParts edge frame = [] := by
    unfold releasedParts
    rw [reads, if_neg Bool.false_ne_true]
  refine ⟨fun transfers => ?_, fun sound => ⟨frame₃, runs, ?_⟩⟩
  · obtain ⟨frame', runs', transferred⟩ := transfers
    obtain rfl := Except.ok.inj (runs.symm.trans runs')
    refine ⟨?_, fun scrutinee _ reason => ?_, fun scrutinee _ consumes => ?_⟩
    · by_contra again
      obtain ⟨i, argument, listed, moved, received⟩ :=
        exists_unit_of_twice again staged (fun _ _ => rfl) unload
      exact not_transferred_of_unit shape.passed typed.arguments listed moved received transferred
    · rcases reason with consumes | bound
      · rw [reads] at consumes
        cases consumes
      · exact absurd unbound bound
    · rw [reads] at consumes
      cases consumes
  · refine transferred_of_nodup sound.once staged ?_ unload passes
    rw [reads, if_neg Bool.false_ne_true, releases]
    exact Projected.nothing _ _

end Context

/-! ### Releasing the scrutinee -/

section Take

variable {scrutinee : MirValueId} {v : Value}
  (assigned : Assigned emitter.registers next)
  (registered : emitter.registers scrutinee = some (emitter.regOf scrutinee))

include registered in
theorem valueIn_take_self :
    emitter.valueIn ((frame.take (emitter.regOf scrutinee)).release v) scrutinee = some .unit := by
  rw [valueIn_of_registered registered]
  exact congrArg some (Function.update_self _ _ _)

include assigned registered in
theorem valueIn_take_other {value : MirValueId} (other : value ≠ scrutinee) :
    emitter.valueIn ((frame.take (emitter.regOf scrutinee)).release v) value = emitter.valueIn frame value := by
  unfold valueIn
  cases known : emitter.registers value with
  | none => rfl
  | some r =>
      refine congrArg some (Function.update_of_ne (fun same => ?_) _ _)
      exact other (assigned.distinct value scrutinee r known (same ▸ registered))

include assigned registered in
/-- Taking a value does not fill a unit. -/
theorem valueIn_take_unit {value : MirValueId} (empty : emitter.valueIn frame value = some .unit) :
    emitter.valueIn ((frame.take (emitter.regOf scrutinee)).release v) value = some .unit := by
  by_cases same : value = scrutinee
  · subst same
    exact valueIn_take_self registered
  · rw [valueIn_take_other assigned registered same, empty]

end Take

/-- What is known of a scrutinee that an edge consumes. -/
structure Scrutinee (emitter : Emitter) (edge : Edge) (scrutinee : MirValueId) (ty : ResolvedTypeId) :
    Prop where
  scrutinee_eq : edge.scrutinee = some scrutinee
  registered : emitter.registers scrutinee = some (emitter.regOf scrutinee)
  typeOf_eq : emitter.typeOf scrutinee = some ty

/-- An edge passes values of the types of the parameters. -/
def Agrees (emitter : Emitter) (edge : Edge) (block : MirBlock) : Prop :=
  ∀ (i : Nat) (argument : MirValueId) (parameter : MirBlockParameter), edge.arguments[i]? = some argument →
    block.parameters[i]? = some parameter → ∀ ty ty', emitter.typeOf argument = some ty →
      emitter.typeOf parameter.value = some ty' → ty = ty'

section Release

variable {scrutinee : MirValueId} {ty : ResolvedTypeId}
  (assigned : Assigned emitter.registers next) (room : next ≤ start)
  (declared : (block.parameters.map MirBlockParameter.value).Nodup)

include assigned in
/-- When the scrutinee survives the arguments, releasing it behind them is the rest of the edge. -/
theorem transferred_of_release (known : emitter.Scrutinee edge scrutinee ty)
    (consumes : edge.consumes = true) (unbound : edge.bindings = [])
    (unwritten : scrutinee ∉ block.parameters.map MirBlockParameter.value)
    {frame₃ : Frame} (held : emitter.valueIn frame₃ scrutinee = emitter.valueIn frame scrutinee)
    (transferred : emitter.Transferred { edge with consumes := false } block frame frame₃) :
    emitter.Transferred edge block frame
      ((frame₃.take (emitter.regOf scrutinee)).release (frame₃.regs (emitter.regOf scrutinee))) where
  receives := by
    refine Eq.trans (List.map_congr_left fun parameter member => ?_) transferred.receives
    refine valueIn_take_other assigned known.registered fun same => unwritten ?_
    exact same ▸ List.mem_map_of_mem member
  gone value other consumed v here := by
    by_cases same : value = scrutinee
    · subst same
      rw [valueIn_take_self known.registered] at here
      exact (Option.some.inj here).symm
    · rw [valueIn_take_other assigned known.registered same] at here
      rcases consumed with moved | taken
      · exact transferred.gone value other (.inl moved) v here
      · rw [known.scrutinee_eq] at taken
        exact absurd (Option.some.inj taken.2).symm same
  kept value other untouched := by
    obtain ⟨unmoved, unconsumed⟩ := not_or.mp untouched
    have differs : value ≠ scrutinee := fun same =>
      unconsumed ⟨consumes, same ▸ known.scrutinee_eq⟩
    rw [valueIn_take_other assigned known.registered differs]
    refine transferred.kept value other (not_or.mpr ⟨unmoved, fun taken => ?_⟩)
    exact absurd taken.1 Bool.false_ne_true
  released := by
    have before := transferred.released
    unfold releasedParts at before ⊢
    rw [if_neg Bool.false_ne_true, List.append_nil] at before
    rw [consumes, if_pos rfl, known.scrutinee_eq, Option.bind_some, known.typeOf_eq, Option.bind_some,
      ← held, valueIn_of_registered known.registered, Option.map_some, Option.getD_some, unboundParts,
      unbound]
    exact congrArg (· ++ _) before

include assigned room declared in
/-- An edge that releases the scrutinee behind its arguments. -/
theorem released_edge
    (h : (emitter.emit_edge_arguments edge.target edge.arguments >>= fun _ =>
      emitter.emit_drop_variant (emitter.regOf scrutinee) ty) start = .ok e)
    (found : emitter.function.blocks.find? edge.target = some block)
    (known : emitter.Scrutinee edge scrutinee ty) (owned : emitter.movesType ty = true)
    (unbound : edge.bindings = []) (consumes : edge.consumes = true)
    (agrees : emitter.Agrees edge block) (typed : emitter.TypedEdge edge frame) :
    (∀ op ∈ e.code, op.straight = true) ∧ emitter.CarriesOut edge block e.code frame := by
  obtain ⟨a, first, b, last, rfl⟩ := Emit.bind_ok.mp h
  obtain ⟨shapes, rfl, ⟨table⟩⟩ := emit_drop_variant_ok last
  have shape := emit_edge_arguments_ok first found
  have straight : ∀ op ∈ [Op.dropVariant (emitter.regOf scrutinee) shapes], op.straight = true := by
    intro op member
    rw [List.mem_singleton.mp member]
    rfl
  refine ⟨straight_append shape.straight straight, ?_⟩
  obtain ⟨frame₁, frame₃, runs, staged, unloaded⟩ := shape.exec assigned room declared typed.arguments
  have unload : emitter.Unloaded (List.range' start edge.arguments.length ++ []) block.parameters frame₁
      frame₃ := by
    rw [List.append_nil]
    exact unloaded
  have typedScrutinee : emitter.TypedIn frame scrutinee := typed.scrutinee scrutinee known.scrutinee_eq
  unfold CarriesOut
  rw [exec_append runs]
  refine ⟨fun transfers => ?_, fun sound => ?_⟩
  · obtain ⟨frame', runs', transferred⟩ := transfers
    obtain ⟨frame₄, dropped, rfl⟩ : ∃ frame₄,
        step (.dropVariant (emitter.regOf scrutinee) shapes) frame₃ = .ok frame₄ ∧ frame₄ = frame' := by
      obtain ⟨frame₄, dropped, same⟩ := bind_eq_ok.mp runs'
      exact ⟨frame₄, dropped, Except.ok.inj same⟩
    obtain ⟨checked, passes⟩ : ∃ checked,
        checkedPayload shapes (frame₃.regs (emitter.regOf scrutinee)) = .ok checked := by
      cases passes : checkedPayload shapes (frame₃.regs (emitter.regOf scrutinee)) with
      | ok checked => exact ⟨checked, rfl⟩
      | error trap =>
          rw [step, passes] at dropped
          cases dropped
    rw [step, passes] at dropped
    obtain rfl := Except.ok.inj dropped
    -- the drop neither fills a unit nor spares the register of the scrutinee
    have unitStays : ∀ {i : Nat},
        (block.parameters.map fun parameter => emitter.valueIn frame₃ parameter.value)[i]? =
          some (some .unit) →
        (block.parameters.map fun parameter => emitter.valueIn
          ((frame₃.take (emitter.regOf scrutinee)).release (frame₃.regs (emitter.regOf scrutinee)))
          parameter.value)[i]? = some (some .unit) := by
      intro i received
      rw [List.getElem?_map] at received ⊢
      obtain ⟨parameter, here, empty⟩ := Option.map_eq_some_iff.mp received
      rw [here, Option.map_some, valueIn_take_unit assigned known.registered empty]
    have unwritten : scrutinee ∉ block.parameters.map MirBlockParameter.value := by
      intro written
      obtain ⟨parameter, member, same⟩ := List.mem_map.mp written
      obtain ⟨i, here⟩ := List.mem_iff_getElem?.mp member
      have short : i < edge.arguments.length := by
        rw [← shape.arity]
        exact (List.getElem?_eq_some_iff.mp here).1
      have listed : edge.arguments[i]? = some edge.arguments[i] := List.getElem?_eq_getElem short
      obtain ⟨ty', descriptor, argumentType, -, -⟩ := (shape.passed _ (List.mem_of_getElem? listed)).typed
      have sameType : ty' = ty := agrees i _ parameter listed here ty' ty argumentType
        (same ▸ known.typeOf_eq)
      have moved : emitter.moves edge.arguments[i] = true := by
        unfold moves
        rw [argumentType, Option.any_some, sameType]
        exact owned
      refine not_transferred_of_unit shape.passed typed.arguments listed moved ?_ transferred
      rw [List.getElem?_map, here, Option.map_some, same, valueIn_take_self known.registered]
    refine ⟨?_, fun other same _ => ?_, fun other same _ _ => ?_⟩
    · by_contra again
      obtain ⟨i, argument, listed, moved, received⟩ :=
        exists_unit_of_twice again staged (fun _ _ => rfl) unload
      exact not_transferred_of_unit shape.passed typed.arguments listed moved (unitStays received)
        transferred
    · obtain rfl := Option.some.inj (same.symm.trans known.scrutinee_eq)
      intro moved
      have empty : emitter.valueIn frame₃ other = some .unit :=
        (unloaded.kept other unwritten).trans (staged.gone other moved)
      rw [valueIn_of_registered known.registered] at empty
      rw [Option.some.inj empty] at passes
      cases passes
    · obtain rfl := Option.some.inj (same.symm.trans known.scrutinee_eq)
      exact unwritten
  · have unwritten := sound.unwritten scrutinee known.scrutinee_eq consumes unbound
    have unmoved := sound.apart scrutinee known.scrutinee_eq (.inl consumes)
    have held : emitter.valueIn frame₃ scrutinee = emitter.valueIn frame scrutinee :=
      (unloaded.kept scrutinee unwritten).trans (staged.kept scrutinee unmoved)
    have here : frame₃.regs (emitter.regOf scrutinee) = frame.regs (emitter.regOf scrutinee) := by
      rw [valueIn_of_registered known.registered, valueIn_of_registered known.registered] at held
      exact Option.some.inj held
    have hasType : HasType emitter.catalog (frame₃.regs (emitter.regOf scrutinee)) ty := by
      rw [here]
      exact typedScrutinee ty _ known.typeOf_eq (valueIn_of_registered known.registered)
    have passes : emitter.passed { edge with consumes := false } frame =
        edge.arguments.map (emitter.valueIn frame) ++ [] := by
      unfold passed
      rw [unbound]
      rfl
    have transferred : emitter.Transferred { edge with consumes := false } block frame frame₃ :=
      transferred_of_nodup sound.once staged (Projected.nothing _ _) unload passes
    refine ⟨_, ?_, transferred_of_release assigned known consumes unbound unwritten held transferred⟩
    rw [exec, step_dropVariant table hasType]
    rfl

end Release

end Emitter

end Mimi.Bytecode
