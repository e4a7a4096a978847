/-
Module: Mimi.Proofs.EmittedCode
Purpose: The code that the routines of the edge emitter emit, and what straight-line code and jumps over it do:
  registers of values are distinct, arguments are staged and parameters are written by transfers.
Trusted boundary: none
-/
import Mimi.Bytecode.Edge
import Mimi.Lib.ParallelMove

namespace Mimi.Bytecode

open Mimi.Core Mimi.Mir Mimi.Lib

/-! ### Emission -/

variable {e : Emitted Unit}

section Emission

variable {α β : Type}

theorem Emit.bind_ok {first : Emit α} {rest : α → Emit β} {next : Reg} {e : Emitted β} :
    (first >>= rest) next = .ok e ↔ ∃ a, first next = .ok a ∧ ∃ b, rest a.value a.next = .ok b ∧
      e = ⟨b.value, a.code ++ b.code, b.next⟩ := by
  have steps : (first >>= rest) next = (first next >>= fun a => rest a.value a.next >>= fun b =>
      pure (⟨b.value, a.code ++ b.code, b.next⟩ : Emitted β)) := rfl
  rw [steps, step₂_eq_ok]
  simp only [eq_comm]

theorem pure_ok {value : α} {next : Reg} {e : Emitted α} :
    (pure value : Emit α) next = .ok e ↔ e = ⟨value, [], next⟩ :=
  ⟨fun h => (Except.ok.inj h).symm, fun h => congrArg Except.ok h.symm⟩

theorem emit_ok {op : Op} {next : Reg} :
    emit op next = .ok e ↔ e = ⟨(), [op], next⟩ :=
  ⟨fun h => (Except.ok.inj h).symm, fun h => congrArg Except.ok h.symm⟩

theorem lift_ok {result : Except String α} {next : Reg} {e : Emitted α} :
    lift result next = .ok e ↔ ∃ value, result = .ok value ∧ e = ⟨value, [], next⟩ := by
  cases result with
  | error message =>
      refine ⟨fun h => (by cases h), fun h => ?_⟩
      obtain ⟨_, h, -⟩ := h
      cases h
  | ok value =>
      refine ⟨fun h => ⟨value, rfl, (Except.ok.inj h).symm⟩, fun h => ?_⟩
      obtain ⟨_, same, rfl⟩ := h
      obtain rfl := Except.ok.inj same
      rfl

theorem alloc_reg_ok {next : Reg} {e : Emitted Reg} (h : alloc_reg next = .ok e) :
    e = ⟨next, [], next + 1⟩ := by
  unfold alloc_reg at h
  by_cases room : next < 65535
  · rw [if_pos room] at h
    exact (Except.ok.inj h).symm
  · rw [if_neg room] at h
    cases h

theorem emitUnless_ok {condition : Reg} {body : Emit Unit} {next : Reg}
    (h : emitUnless condition body next = .ok e) : ∃ b, body next = .ok b ∧ e.next = b.next ∧
      e.code = .jmpIfNot b.code.length condition :: b.code := by
  obtain ⟨b, first, rest⟩ := bind_eq_ok.mp h
  obtain ⟨-, last⟩ := check_eq_ok.mp rest
  obtain rfl := pure_eq_ok.mp last
  exact ⟨b, first, rfl, rfl⟩

theorem offset_reg_ok {base offset : Nat} {role : String} {next : Reg} {e : Emitted Reg}
    (h : Emitter.offset_reg base offset role next = .ok e) : e = ⟨base + offset, [], next⟩ := by
  unfold Emitter.offset_reg at h
  by_cases far : 65535 < offset
  · rw [if_pos far] at h
    cases h
  · rw [if_neg far] at h
    by_cases over_ : 65535 < base + offset
    · rw [if_pos over_] at h
      cases h
    · rw [if_neg over_] at h
      exact pure_ok.mp h

theorem u16_abi_ok {value : Nat} {role : String} {next : Reg} {e : Emitted Nat}
    (h : Emitter.u16_abi value role next = .ok e) : e = ⟨value, [], next⟩ := by
  unfold Emitter.u16_abi at h
  by_cases fits : value ≤ 65535
  · rw [if_pos fits] at h
    exact pure_ok.mp h
  · rw [if_neg fits] at h
    cases h

theorem forM_alloc_ok {l : List Nat} {next : Reg} {e : Emitted PUnit}
    (h : (l.forM fun _ => (do let _ ← alloc_reg; pure ()) : Emit PUnit) next = .ok e) :
    e = ⟨(), [], next + l.length⟩ := by
  induction l generalizing next e with
  | nil => exact pure_ok.mp h
  | cons x l ih =>
      rw [List.forM] at h
      obtain ⟨a, first, b, rest, rfl⟩ := Emit.bind_ok.mp h
      obtain ⟨r, alloc, u, unit_, rfl⟩ := Emit.bind_ok.mp first
      obtain rfl := alloc_reg_ok alloc
      obtain rfl := pure_ok.mp unit_
      rw [ih rest, List.length_cons]
      dsimp only [List.nil_append]
      rw [Nat.add_assoc, Nat.add_comm 1]

/-- A window of registers starts at the next one, and nothing in it is handed out again. -/
theorem allocWindow_ok {count : Nat} {next : Reg} {e : Emitted Reg}
    (h : Emitter.allocWindow count next = .ok e) :
    e.value = next ∧ e.code = [] ∧ next + count ≤ e.next ∧ next < e.next := by
  obtain ⟨a, alloc, b, rest, rfl⟩ := Emit.bind_ok.mp h
  obtain rfl := alloc_reg_ok alloc
  obtain ⟨c, loop, d, last, rfl⟩ := Emit.bind_ok.mp rest
  obtain rfl := pure_ok.mp last
  have loop' := forM_alloc_ok loop
  subst loop'
  rw [List.length_range]
  have room : ∀ a b : Nat, a + b ≤ a + 1 + (b - 1) ∧ a < a + 1 + (b - 1) := fun a b => by omega
  exact ⟨rfl, rfl, (room next count).1, (room next count).2⟩

end Emission

/-! ### Execution -/

/-- Instructions that go on to the next one. -/
def Op.straight : Op → Bool
  | .jmpIfNot _ _ | .jmp _ | .ret _ | .retUnit => false
  | _ => true

/-- Execute straight-line code. -/
def exec : List Op → Frame → Except Trap Frame
  | [], frame => .ok frame
  | op :: code, frame => step op frame >>= exec code

theorem exec_append {code rest : List Op} {frame frame' : Frame} (h : exec code frame = .ok frame') :
    exec (code ++ rest) frame = exec rest frame' := by
  induction code generalizing frame with
  | nil =>
      obtain rfl := Except.ok.inj h
      rfl
  | cons op code ih =>
      obtain ⟨mid, first, last⟩ := bind_eq_ok.mp h
      rw [List.cons_append, exec, first]
      exact ih last

theorem exec_append_error {code rest : List Op} {frame : Frame} {trap : Trap}
    (h : exec code frame = .error trap) : exec (code ++ rest) frame = .error trap := by
  induction code generalizing frame with
  | nil => cases h
  | cons op code ih =>
      rw [exec] at h
      rw [List.cons_append, exec]
      cases first : step op frame with
      | error _ =>
          rw [first] at h
          exact h
      | ok mid =>
          rw [first] at h
          exact ih h

theorem run_step {op : Op} (straight : op.straight = true) (code : List Op) (frame : Frame) :
    (∀ trap, step op frame = .error trap → run (op :: code) 0 frame = .trap trap) ∧
      ∀ frame', step op frame = .ok frame' → run (op :: code) 0 frame = run code 0 frame' := by
  cases op with
  | jmpIfNot | jmp | ret | retUnit => cases straight
  | _ =>
      refine ⟨fun trap h => ?_, fun frame' h => ?_⟩
      · simp only [run, h]
      · simp only [run, h]

theorem run_exec {code : List Op} (straight : ∀ op ∈ code, op.straight = true) (rest : List Op)
    (frame : Frame) :
    (∀ trap, exec code frame = .error trap → run (code ++ rest) 0 frame = .trap trap) ∧
      ∀ frame', exec code frame = .ok frame' → run (code ++ rest) 0 frame = run rest 0 frame' := by
  induction code generalizing frame with
  | nil =>
      refine ⟨fun trap h => (by cases h), fun frame' h => ?_⟩
      obtain rfl := Except.ok.inj h
      rfl
  | cons op code ih =>
      have one := run_step (straight op List.mem_cons_self) (code ++ rest) frame
      have later : ∀ op' ∈ code, op'.straight = true :=
        fun op' member => straight op' (List.mem_cons_of_mem _ member)
      rw [List.cons_append, exec]
      cases first : step op frame with
      | error trap =>
          refine ⟨fun trap' h => ?_, fun frame' h => by cases h⟩
          obtain rfl := Except.error.inj h
          exact one.1 _ first
      | ok mid =>
          rw [one.2 mid first]
          exact ih later mid

theorem run_skip (code rest : List Op) (frame : Frame) :
    run (code ++ rest) code.length frame = run rest 0 frame := by
  induction code with
  | nil => rfl
  | cons op code ih =>
      rw [List.cons_append, List.length_cons, run]
      exact ih

/-! ### Registers -/

/-- The registers of the values are distinct and come before the next free one. -/
structure Assigned (registers : MirValueId → Option Reg) (next : Reg) : Prop where
  below : ∀ value r, registers value = some r → r < next
  distinct : ∀ value other r, registers value = some r → registers other = some r → value = other

variable {registers : MirValueId → Option Reg}

theorem Assigned.update {next : Reg} (assigned : Assigned registers next) (value : MirValueId) :
    Assigned (Function.update registers value (some next)) (next + 1) where
  below other r h := by
    by_cases same : other = value
    · rw [same, Function.update_self] at h
      obtain rfl := Option.some.inj h
      exact Nat.lt_succ_self _
    · rw [Function.update_of_ne same] at h
      exact Nat.lt_succ_of_lt (assigned.below other r h)
  distinct first second r h h' := by
    by_cases same : first = value
    · by_cases same' : second = value
      · exact same.trans same'.symm
      · rw [same, Function.update_self] at h
        rw [Function.update_of_ne same'] at h'
        obtain rfl := Option.some.inj h
        exact absurd (assigned.below second _ h') (Nat.lt_irrefl _)
    · rw [Function.update_of_ne same] at h
      by_cases same' : second = value
      · rw [same', Function.update_self] at h'
        obtain rfl := Option.some.inj h'
        exact absurd (assigned.below first _ h) (Nat.lt_irrefl _)
      · rw [Function.update_of_ne same'] at h'
        exact assigned.distinct first second r h h'

theorem assigned_parameters (parameters : List MirValueId) {next : Reg} (assigned : Assigned registers next) :
    Assigned ((parameters.zipIdx next).foldl
      (fun registers entry => Function.update registers entry.1 (some entry.2)) registers)
      (next + parameters.length) := by
  induction parameters generalizing registers next with
  | nil => exact assigned
  | cons value parameters ih =>
      rw [List.zipIdx_cons, List.foldl_cons, List.length_cons, Nat.add_comm parameters.length,
        ← Nat.add_assoc]
      exact ih (assigned.update value)

theorem assigned_values (values : List MirValueId) {state state' : (MirValueId → Option Reg) × Reg}
    (assigned : Assigned state.1 state.2)
    (h : values.foldlM (fun state value =>
      if (state.1 value).isSome then .ok state
      else do
        reject (65535 ≤ state.2) "MIR bytecode register allocation exceeds u16 ABI"
        return (Function.update state.1 value (some state.2), state.2 + 1)) state = .ok state') :
    Assigned state'.1 state'.2 := by
  induction values generalizing state with
  | nil =>
      obtain rfl := Except.ok.inj h
      exact assigned
  | cons value values ih =>
      rw [List.foldlM_cons] at h
      obtain ⟨mid, first, rest⟩ := bind_eq_ok.mp h
      refine ih ?_ rest
      by_cases known : (state.1 value).isSome = true
      · rw [if_pos known] at first
        obtain rfl := Except.ok.inj first
        exact assigned
      · rw [if_neg known] at first
        obtain ⟨-, last⟩ := check_eq_ok.mp first
        obtain rfl := pure_eq_ok.mp last
        exact assigned.update value

theorem assign_registers_injective {function : MirFunction}
    {next : Reg} (h : assign_registers function = .ok (registers, next)) : Assigned registers next := by
  obtain ⟨-, rest⟩ := check_eq_ok.mp h
  refine assigned_values function.values.keys ?_ rest
  have start : Assigned (fun _ => none) 0 :=
    { below := fun _ _ h => by cases h
      distinct := fun _ _ _ h => by cases h }
  have parameters := assigned_parameters function.parameters start
  rwa [Nat.zero_add] at parameters

/-! ### Transfers -/

/-- The instruction of a transfer. -/
def transferOp (t : Transfer Reg) : Op := if t.takes then .move t.dst t.src else .mov t.dst t.src

theorem step_transferOp {t : Transfer Reg} {frame : Frame}
    (root : (frame.regs t.src).isMapRoot = false) :
    step (transferOp t) frame = .ok { frame with regs := t.apply .unit frame.regs } := by
  unfold transferOp Transfer.apply
  cases t.takes with
  | false =>
      rw [if_neg Bool.false_ne_true, if_neg Bool.false_ne_true, step, root, if_neg Bool.false_ne_true]
      by_cases same : t.dst = t.src
      · rw [if_pos same, if_pos same]
      · rw [if_neg same, if_neg same]
        rfl
  | true =>
      rw [if_pos rfl, if_pos rfl, step, root, if_neg Bool.false_ne_true]
      by_cases same : t.dst = t.src
      · rw [if_pos same, if_pos same]
      · rw [if_neg same, if_neg same]
        rfl

theorem transferOp_straight (t : Transfer Reg) : (transferOp t).straight = true := by
  unfold transferOp
  cases t.takes with
  | false => rfl
  | true => rfl

theorem exec_transfers {ts : List (Transfer Reg)} (apart : Apart ts) {frame : Frame}
    (roots : ∀ t ∈ ts, (frame.regs t.src).isMapRoot = false) :
    exec (ts.map transferOp) frame = .ok { frame with regs := transferAll .unit ts frame.regs } := by
  induction ts generalizing frame with
  | nil => rfl
  | cons t ts ih =>
      rw [List.map_cons, exec, step_transferOp (roots t List.mem_cons_self)]
      refine ih apart.tail fun u member => ?_
      dsimp only
      by_cases same : u.src = t.src
      · rw [same, Transfer.apply_src (apart.reads t List.mem_cons_self t List.mem_cons_self)]
        cases t.takes with
        | true => rfl
        | false => exact roots t List.mem_cons_self
      · have notWritten := (apart.reads t List.mem_cons_self u (List.mem_cons_of_mem _ member)).symm
        rw [Transfer.apply_other notWritten fun here => absurd here same]
        exact roots u (List.mem_cons_of_mem _ member)

namespace Emitter

variable (emitter : Emitter)

/-- A value that can be transferred. -/
structure Transferable (value : MirValueId) : Prop where
  registered : emitter.registers value = some (emitter.regOf value)
  typed : ∃ ty descriptor, emitter.typeOf value = some ty ∧ emitter.catalog.get ty = some descriptor ∧
    (descriptor.ownership = .copy ∨ canonicalMove descriptor.glue.moveOut = true)

/-- The transfers that stage the arguments. -/
def stagedTransfers : Reg → List MirValueId → List (Transfer Reg)
  | _, [] => []
  | temp, argument :: arguments =>
      ⟨temp, emitter.regOf argument, emitter.moves argument⟩ :: stagedTransfers (temp + 1) arguments

/-- The transfers that write the parameters. -/
def unloadTransfers (sources : List Reg) (parameters : List MirBlockParameter) : List (Transfer Reg) :=
  List.zipWith (fun source parameter =>
    ⟨emitter.regOf parameter.value, source, emitter.moves parameter.value⟩) sources parameters

variable {emitter}

theorem reg_ok {value : MirValueId} {next : Reg} {e : Emitted Reg} (h : emitter.reg value next = .ok e) :
    emitter.registers value = some (emitter.regOf value) ∧ e = ⟨emitter.regOf value, [], next⟩ := by
  obtain ⟨r, known, rfl⟩ := lift_ok.mp h
  have register := orError_eq_ok.mp known
  unfold regOf
  rw [register]
  exact ⟨rfl, rfl⟩

theorem valueType_ok {value : MirValueId} {role : String} {next : Reg} {e : Emitted ResolvedTypeId}
    (h : emitter.valueType value role next = .ok e) : ∃ ty, emitter.typeOf value = some ty ∧ e = ⟨ty, [], next⟩ := by
  obtain ⟨ty, known, rfl⟩ := lift_ok.mp h
  exact ⟨ty, orError_eq_ok.mp known, rfl⟩

theorem emit_value_transfer_ok {rd rs : Reg} {ty : ResolvedTypeId} {next : Reg}
    (h : emitter.emit_value_transfer rd rs ty next = .ok e) :
    e = ⟨(), [transferOp ⟨rd, rs, emitter.movesType ty⟩], next⟩ ∧ ∃ descriptor,
      emitter.catalog.get ty = some descriptor ∧
      (descriptor.ownership = .copy ∨ canonicalMove descriptor.glue.moveOut = true) := by
  obtain ⟨a, first, b, rest, rfl⟩ := Emit.bind_ok.mp h
  obtain ⟨descriptor, known, rfl⟩ := lift_ok.mp first
  have get := orError_eq_ok.mp known
  obtain ⟨c, supported, d, last, rfl⟩ := Emit.bind_ok.mp rest
  obtain ⟨_, -, rfl⟩ := lift_ok.mp supported
  unfold movesType transferOp
  rw [get]
  dsimp only [List.nil_append, Option.any_some] at last ⊢
  by_cases copy : descriptor.ownership = .copy
  · rw [if_pos copy] at last
    obtain rfl := emit_ok.mp last
    rw [if_neg (by simp only [copy, ne_eq, not_true_eq_false, decide_false, Bool.false_eq_true,
      not_false_eq_true])]
    exact ⟨rfl, descriptor, rfl, .inl copy⟩
  · rw [if_neg copy] at last
    rw [if_pos (decide_eq_true copy)]
    by_cases canonical : canonicalMove descriptor.glue.moveOut = true
    · rw [if_pos canonical] at last
      obtain rfl := emit_ok.mp last
      exact ⟨rfl, descriptor, rfl, .inr canonical⟩
    · rw [if_neg canonical] at last
      cases last

theorem stageArgument_ok {argument : MirValueId} {next : Reg} {e : Emitted Reg}
    (h : emitter.stageArgument argument next = .ok e) :
    e = ⟨next, [transferOp ⟨next, emitter.regOf argument, emitter.moves argument⟩], next + 1⟩ ∧
      emitter.Transferable argument := by
  obtain ⟨a, first, b, rest, rfl⟩ := Emit.bind_ok.mp h
  obtain ⟨registered, rfl⟩ := reg_ok first
  obtain ⟨c, alloc, d, afterAlloc, rfl⟩ := Emit.bind_ok.mp rest
  obtain rfl := alloc_reg_ok alloc
  obtain ⟨t, typed, u, afterType, rfl⟩ := Emit.bind_ok.mp afterAlloc
  obtain ⟨ty, known, rfl⟩ := valueType_ok typed
  obtain ⟨v, transfer, w, last, rfl⟩ := Emit.bind_ok.mp afterType
  obtain rfl := pure_ok.mp last
  obtain ⟨rfl, descriptor, get, canonical⟩ := emit_value_transfer_ok transfer
  refine ⟨?_, registered, ty, descriptor, known, get, canonical⟩
  unfold moves
  rw [known]
  rfl

theorem stageArguments_ok {arguments : List MirValueId} {next : Reg} {e : Emitted (List Reg)}
    (h : emitter.stageArguments arguments next = .ok e) :
    e = ⟨(emitter.stagedTransfers next arguments).map Transfer.dst,
      (emitter.stagedTransfers next arguments).map transferOp, next + arguments.length⟩ ∧
      ∀ argument ∈ arguments, emitter.Transferable argument := by
  induction arguments generalizing next e with
  | nil =>
      obtain rfl := pure_ok.mp h
      exact ⟨rfl, fun _ member => absurd member List.not_mem_nil⟩
  | cons argument arguments ih =>
      obtain ⟨a, first, b, rest, rfl⟩ := Emit.bind_ok.mp h
      obtain ⟨rfl, transferable⟩ := stageArgument_ok first
      obtain ⟨c, later, d, last, rfl⟩ := Emit.bind_ok.mp rest
      obtain rfl := pure_ok.mp last
      obtain ⟨rfl, others⟩ := ih later
      refine ⟨?_, List.forall_mem_cons.mpr ⟨transferable, others⟩⟩
      rw [List.length_cons, Nat.add_comm arguments.length, ← Nat.add_assoc, List.append_nil]
      rfl

theorem unloadParameter_ok {source : Reg} {parameter : MirBlockParameter} {next : Reg}
    (h : emitter.unloadParameter source parameter next = .ok e) :
    e = ⟨(), [transferOp ⟨emitter.regOf parameter.value, source, emitter.moves parameter.value⟩], next⟩ ∧
      emitter.Transferable parameter.value := by
  obtain ⟨a, first, b, rest, rfl⟩ := Emit.bind_ok.mp h
  obtain ⟨registered, rfl⟩ := reg_ok first
  obtain ⟨t, typed, u, transfer, rfl⟩ := Emit.bind_ok.mp rest
  obtain ⟨ty, known, rfl⟩ := valueType_ok typed
  obtain ⟨rfl, descriptor, get, canonical⟩ := emit_value_transfer_ok transfer
  refine ⟨?_, registered, ty, descriptor, known, get, canonical⟩
  unfold moves
  rw [known]
  rfl

theorem unloadParameters_ok {sources : List Reg} {parameters : List MirBlockParameter} {next : Reg}
    (h : emitter.unloadParameters sources parameters next = .ok e) (arity : sources.length = parameters.length) :
    e = ⟨(), (emitter.unloadTransfers sources parameters).map transferOp, next⟩ ∧
      ∀ parameter ∈ parameters, emitter.Transferable parameter.value := by
  induction sources generalizing parameters next e with
  | nil =>
      obtain rfl := List.eq_nil_of_length_eq_zero arity.symm
      obtain rfl := pure_ok.mp h
      exact ⟨rfl, fun _ member => absurd member List.not_mem_nil⟩
  | cons source sources ih =>
      cases parameters with
      | nil => cases arity
      | cons parameter parameters =>
          obtain ⟨a, first, b, rest, rfl⟩ := Emit.bind_ok.mp h
          obtain ⟨rfl, transferable⟩ := unloadParameter_ok first
          obtain ⟨rfl, others⟩ := ih rest (Nat.succ.inj arity)
          exact ⟨rfl, List.forall_mem_cons.mpr ⟨transferable, others⟩⟩

theorem edgeTarget_ok {target : MirBlockId} {arity : Nat} {next : Reg} {e : Emitted MirBlock}
    (h : emitter.edgeTarget target arity next = .ok e) : ∃ block,
      emitter.function.blocks.find? target = some block ∧ block.parameters.length = arity ∧
      e = ⟨block, [], next⟩ := by
  obtain ⟨a, first, b, rest, rfl⟩ := Emit.bind_ok.mp h
  obtain ⟨block, known, rfl⟩ := lift_ok.mp first
  dsimp only at rest
  by_cases wrong : block.parameters.length ≠ arity
  · rw [if_pos wrong] at rest
    cases rest
  · rw [if_neg wrong] at rest
    obtain rfl := pure_ok.mp rest
    exact ⟨block, orError_eq_ok.mp known, not_not.mp wrong, rfl⟩

end Emitter

/-! ### Registers are never given back -/

/-- A routine leaves the next free register where it was or behind it. -/
def Grows {α : Type} (routine : Emit α) : Prop :=
  ∀ next e, routine next = .ok e → next ≤ e.next

namespace Grows

variable {α β : Type}

theorem pure (value : α) : Grows (Pure.pure value) := by
  intro next e h
  obtain rfl := pure_ok.mp h
  exact Nat.le_refl _

theorem bind {first : Emit α} {rest : α → Emit β} (grows : Grows first) (later : ∀ a, Grows (rest a)) :
    Grows (first >>= rest) := by
  intro next e h
  obtain ⟨a, h₁, b, h₂, rfl⟩ := Emit.bind_ok.mp h
  exact Nat.le_trans (grows next a h₁) (later a.value a.next b h₂)

theorem emit (op : Op) : Grows (emit op) := by
  intro next e h
  obtain rfl := emit_ok.mp h
  exact Nat.le_refl _

theorem lift (result : Except String α) : Grows (lift result) := by
  intro next e h
  obtain ⟨_, -, rfl⟩ := lift_ok.mp h
  exact Nat.le_refl _

theorem alloc : Grows alloc_reg := by
  intro next e h
  obtain rfl := alloc_reg_ok h
  exact Nat.le_succ _

theorem fail (message : String) : Grows (failWith message : Emit α) := fun _ _ h => by cases h

theorem ite {c : Prop} [Decidable c] {first second : Emit α} (h₁ : Grows first) (h₂ : Grows second) :
    Grows (if c then first else second) := by
  by_cases holds : c
  · rw [if_pos holds]
    exact h₁
  · rw [if_neg holds]
    exact h₂

theorem reg (emitter : Emitter) (value : MirValueId) : Grows (emitter.reg value) := lift _

theorem valueType (emitter : Emitter) (value : MirValueId) (role : String) :
    Grows (emitter.valueType value role) := lift _

theorem u16_abi (value : Nat) (role : String) : Grows (Emitter.u16_abi value role) :=
  ite (pure _) (fail _)

theorem offset_reg (base offset : Nat) (role : String) : Grows (Emitter.offset_reg base offset role) :=
  ite (fail _) (ite (fail _) (pure _))

theorem allocWindow (count : Nat) : Grows (Emitter.allocWindow count) :=
  fun _ _ h => Nat.le_of_lt (allocWindow_ok h).2.2.2

variable (emitter : Emitter)

theorem emit_value_transfer (rd rs : Reg) (ty : ResolvedTypeId) :
    Grows (emitter.emit_value_transfer rd rs ty) :=
  bind (lift _) fun _ => bind (lift _) fun _ => ite (emit _) (ite (emit _) (fail _))

theorem edgeTarget (target : MirBlockId) (arity : Nat) : Grows (emitter.edgeTarget target arity) :=
  bind (lift _) fun _ => ite (fail _) (pure _)

theorem stageArguments (arguments : List MirValueId) : Grows (emitter.stageArguments arguments) := by
  intro next e h
  obtain ⟨rfl, -⟩ := Emitter.stageArguments_ok h
  exact Nat.le_add_right _ _

theorem unloadParameters (sources : List Reg) (parameters : List MirBlockParameter) :
    Grows (emitter.unloadParameters sources parameters) := by
  induction sources generalizing parameters with
  | nil => exact pure _
  | cons source sources ih =>
      cases parameters with
      | nil => exact pure _
      | cons parameter parameters =>
          exact bind (bind (reg _ _) fun _ => bind (valueType _ _ _) fun _ =>
            emit_value_transfer _ _ _ _) fun _ => ih parameters

theorem emit_edge_arguments (target : MirBlockId) (arguments : List MirValueId) :
    Grows (emitter.emit_edge_arguments target arguments) :=
  bind (edgeTarget _ _ _) fun _ => bind (stageArguments _ _) fun _ => unloadParameters _ _ _

theorem emit_variant_shape_table (ty : ResolvedTypeId) : Grows (emitter.emit_variant_shape_table ty) :=
  bind (lift _) fun _ => bind (lift _) fun _ => lift _

theorem emit_drop_variant (register : Reg) (ty : ResolvedTypeId) :
    Grows (emitter.emit_drop_variant register ty) :=
  bind (bind (lift _) fun _ => emit_variant_shape_table _ _) fun _ => emit _

theorem emit_drop_register (register : Reg) (ty : ResolvedTypeId) :
    Grows (emitter.emit_drop_register register ty) := by
  refine bind (lift _) fun descriptor => ite (lift _) ?_
  cases descriptor.glue.drop with
  | ownedString | list | set => exact emit _
  | noop => exact pure _
  | session | mapRoot | unsupported => exact fail _
  | aggregate =>
      cases descriptor.layout with
      | tuple | record => exact bind (u16_abi _ _) fun _ => emit _
      | option | result => exact emit_drop_variant _ _ _
      | _ => exact fail _

theorem bindingParameter (block : MirBlock) (index : Nat) (binding : MirSwitchBinding) (nominal : String)
    (variant : MirVariantDesc) : Grows (emitter.bindingParameter block index binding nominal variant) :=
  bind (lift _) fun _ => bind (valueType _ _ _) fun _ => ite (fail _) (ite (fail _) (pure _))

theorem projectBindings (block : MirBlock) (nominal : String) (variant : MirVariantDesc) (scrutinee : Reg)
    (shapes : List VariantShape) (index : Nat) (bindings : List MirSwitchBinding) :
    Grows (emitter.projectBindings block nominal variant scrutinee shapes index bindings) := by
  induction bindings generalizing index with
  | nil => exact pure _
  | cons binding bindings ih =>
      exact bind (bindingParameter _ _ _ _ _ _) fun _ => bind (u16_abi _ _) fun _ => bind alloc fun _ =>
        bind (emit _) fun _ => bind (ih (index + 1)) fun _ => pure _

theorem emit_variant_edge_arguments (target : MirBlockId) (arguments : List MirValueId)
    (bindings : List MirSwitchBinding) (ty : ResolvedTypeId) (scrutinee : Reg) (variant : MirVariantDesc) :
    Grows (emitter.emit_variant_edge_arguments target arguments bindings ty scrutinee variant) :=
  bind (edgeTarget _ _ _) fun _ => bind (emit_variant_shape_table _ _) fun _ => bind (lift _) fun _ =>
    bind (stageArguments _ _) fun _ => bind (projectBindings _ _ _ _ _ _ _ _) fun _ =>
      unloadParameters _ _ _

theorem dropUnbound (payload_base : Reg) (bindings : List MirSwitchBinding)
    (entries : List (MirFieldDesc × Nat)) : Grows (emitter.dropUnbound payload_base bindings entries) := by
  induction entries with
  | nil => exact pure _
  | cons entry entries ih =>
      exact bind ih fun _ => ite (pure _) (bind (offset_reg _ _ _) fun _ => emit_drop_register _ _ _)

theorem destructureNested (block : MirBlock) (ty : ResolvedTypeId) (variant : MirVariantDesc)
    (payload_base : Reg) (index : Nat) (bindings : List MirSwitchBinding) (bases : Nat → Option Reg) :
    Grows (emitter.destructureNested block ty variant payload_base index bindings bases) := by
  induction bindings generalizing index bases with
  | nil => exact pure _
  | cons binding bindings ih =>
      rw [Emitter.destructureNested]
      cases binding.nestedTuple with
      | none => exact ih _ _
      | some nested =>
          exact bind (lift _) fun _ => bind (valueType _ _ _) fun _ => bind (lift _) fun _ =>
            ite (ih _ _) (bind (lift _) fun _ => bind (lift _) fun _ => bind (u16_abi _ _) fun _ =>
              bind (allocWindow _) fun _ => bind (offset_reg _ _ _) fun _ => bind (emit _) fun _ => ih _ _)

theorem payloadSources (block : MirBlock) (nominal : String) (variant : MirVariantDesc) (payload_base : Reg)
    (bases : Nat → Option Reg) (index : Nat) (bindings : List MirSwitchBinding) :
    Grows (emitter.payloadSources block nominal variant payload_base bases index bindings) := by
  induction bindings generalizing index with
  | nil => exact pure _
  | cons binding bindings ih =>
      refine bind (bindingParameter _ _ _ _ _ _) fun _ => ?_
      cases binding.nestedTuple with
      | none => exact bind (offset_reg _ _ _) fun _ => bind (ih _) fun _ => pure _
      | some nested =>
          exact bind (lift _) fun _ => bind (offset_reg _ _ _) fun _ => bind (ih _) fun _ => pure _

theorem emit_variant_move_edge_arguments (target : MirBlockId) (arguments : List MirValueId)
    (bindings : List MirSwitchBinding) (ty : ResolvedTypeId) (scrutinee : Reg) (variant : MirVariantDesc) :
    Grows (emitter.emit_variant_move_edge_arguments target arguments bindings ty scrutinee variant) :=
  ite (bind (emit_edge_arguments _ _ _) fun _ => emit_drop_variant _ _ _)
    (bind (edgeTarget _ _ _) fun _ => bind (stageArguments _ _) fun _ => bind (u16_abi _ _) fun _ =>
      bind (lift _) fun _ => bind (emit_variant_shape_table _ _) fun _ => bind (allocWindow _) fun _ =>
        bind (emit _) fun _ => bind (dropUnbound _ _ _ _) fun _ =>
          bind (destructureNested _ _ _ _ _ _ _ _) fun _ => bind (payloadSources _ _ _ _ _ _ _ _) fun _ =>
            unloadParameters _ _ _)

end Grows

end Mimi.Bytecode
