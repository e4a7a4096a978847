/-
Module: Mimi.Proofs.WriteBackTargets
Purpose: The machine writes a mutate parameter back to the variable or the field that has been passed for
  it exactly in the calls that pass no such argument behind one of another kind: targets are collected
  without the parameters that they belong to, and the machine takes them in the order of the
  parameters.
Trusted boundary: none
-/
import Mimi.Interp.MutateSetup
import Mimi.Lib.Alignment

namespace Mimi.Interp

open Mimi.Ast Mimi.Lib
open Mimi.Bytecode (Value)

/-! ### The calls -/

/-- A call whose callee is known to the compiler; the targets are set up when the compiler stands at
`fc`. -/
inductive UserCall (bc : BytecodeCompiler) (fc : FuncCompiler) where
  /-- By the name of a function of the file; the special forms were looked at in `before`, ahead of the
  arguments. -/
  | named (before : FuncCompiler) (name : String) (args : List Expr) (callee : Callee)
      (resolves : call_target bc fc name = .user callee)
  | method (args : List Expr) (callee : Callee)

/-- What is compiled for an argument: for a named one, its value. -/
def passed : Expr → Expr
  | .located _ e | .namedArg _ e => passed e
  | e => e

namespace UserCall

variable {bc : BytecodeCompiler} {fc : FuncCompiler}

def muts : UserCall bc fc → List Nat
  | named _ _ _ callee _ | method _ callee => callee.mut_param_indices

/-- The argument that stands in the place of a parameter, by the register of the parameter in the callee. -/
def slot : UserCall bc fc → Nat → Option Expr
  | named _ _ args callee _, pi => ((argumentSlots callee args)[pi]?).join
  | method args _, pi => methodArg args pi

/-- The expression whose value the parameter gets. -/
def argument (call : UserCall bc fc) (pi : Nat) : Option Expr := (call.slot pi).map passed

/-- No parameter is left without an argument in front of one that has its own. -/
def Complete : UserCall bc fc → Prop
  | named _ _ args callee _ => ∀ slot ∈ argumentSlots callee args, slot.isSome = true
  | method .. => True

/-- The compiler after it has set up the targets. -/
def setUp : UserCall bc fc → FuncCompiler
  | named before name args callee _ =>
      if special_form bc before name args then fc else set_up_call callee args fc
  | method args callee => emit_impl_method_mutate_setup callee args fc

def variableOf (call : UserCall bc fc) (pi : Nat) : Option Reg := variableTarget fc (call.argument pi)

def fieldOf (call : UserCall bc fc) (pi : Nat) : Option (Reg × String) :=
  fieldTarget fc (call.argument pi)

/-- The variables that are passed for mutate parameters. -/
def variableTargets (call : UserCall bc fc) : List Reg := call.muts.filterMap call.variableOf

/-- The fields that are passed for mutate parameters. -/
def fieldTargets (call : UserCall bc fc) : List (Reg × String) := call.muts.filterMap call.fieldOf

/-- The calls that are compiled as special forms. -/
def special : UserCall bc fc → Bool
  | named before name args _ _ => special_form bc before name args
  | method .. => false

/-- No variable and no field is passed in a named argument that is left in its place. -/
def Bare (call : UserCall bc fc) : Prop :=
  ∀ pi ∈ call.muts, (call.slot pi).any isNamed = true → call.variableOf pi = none ∧ call.fieldOf pi = none

/-- The calls whose targets are all looked for: no special form, no variable or field behind a name, and no field
passed to a method. -/
def Ordinary (call : UserCall bc fc) : Prop :=
  call.special = false ∧ call.Bare ∧
    match call with
    | named .. => True
    | method .. => call.fieldTargets = []

end UserCall

variable {bc : BytecodeCompiler} {fc : FuncCompiler}

/-- Parameter by parameter, the machine holds the variable or field that was passed for it, and nothing
else. -/
structure Paired (call : UserCall bc fc) (frame : Frame) : Prop where
  byVariable : Aligned call.variableOf call.muts (frame.mutate_writebacks.getD [])
  byField : Aligned call.fieldOf call.muts (frame.mutate_field_writebacks.getD [])

/-- The instructions that set up the targets run, in a frame with these registers and with whatever the
pool of the function has in the end, and leave every mutate parameter paired. -/
def WritesBack (call : UserCall bc fc) (regs : List Value) (bound : regs.length < 2 ^ 16)
    (more : List ConstValue) : Prop :=
  ∃ frame, run (call.setUp.constants ++ more) (call.setUp.code.drop fc.code.length)
    (.fresh regs bound) = some frame ∧ Paired call frame

/-- Among the mutate parameters those come first that get a variable, and those that get a field, and the
registers have not wrapped around. -/
structure InOrder (call : UserCall bc fc) (register_count : Nat) : Prop where
  ordinary : call.Ordinary
  byVariable : Leading call.variableOf call.muts
  byField : Leading call.fieldOf call.muts
  window : fc.register_count + (call.variableTargets.length + call.fieldTargets.length * 2) ≤
    register_count
  targets : ∀ t ∈ call.variableTargets, t < register_count
  objects : ∀ t ∈ call.fieldTargets, t.1 < register_count

/-! ### What is emitted -/

/-- Constants that load as some values. -/
def Holds (constants : List ConstValue) (idxs : List ConstIdx) (values : List Value) : Prop :=
  List.Forall₂ (fun idx value => (constants[idx]?).map ConstValue.load = some value) idxs values

theorem getElem?_extended {α : Type} {l l' : List α} (prefix_ : l <+: l') {i : Nat} {a : α}
    (at_ : l[i]? = some a) : l'[i]? = some a := by
  obtain ⟨rest, rfl⟩ := prefix_
  rw [List.getElem?_append_left (List.getElem?_eq_some_iff.mp at_).1, at_]

variable {constants : List ConstValue} {idxs : List ConstIdx}

theorem Holds.mono {constants' : List ConstValue}
    {values : List Value} (holds : Holds constants idxs values) (more : constants <+: constants') :
    Holds constants' idxs values := by
  refine List.Forall₂.imp (fun idx value found => ?_) holds
  obtain ⟨constant, at_, rfl⟩ := Option.map_eq_some_iff.mp found
  rw [getElem?_extended more at_]
  rfl

/-- The compiler goes on in the same scopes and with a pool that has grown. -/
structure Continues (fc fc' : FuncCompiler) : Prop where
  vars : fc'.vars = fc.vars
  pool : fc.constants <+: fc'.constants

theorem Continues.refl (fc : FuncCompiler) : Continues fc fc := ⟨rfl, List.prefix_rfl⟩

theorem Continues.trans {fc fc' fc'' : FuncCompiler} (first : Continues fc fc')
    (second : Continues fc' fc'') : Continues fc fc'' :=
  ⟨second.vars.trans first.vars, first.pool.trans second.pool⟩

/-- An entry that a number or a text shares is its own. -/
theorem eq_of_same {existing val : ConstValue} (plain : (∃ n, val = .int n) ∨ ∃ s, val = .str s)
    (same : existing.same val = true) : existing = val := by
  rcases plain with ⟨n, rfl⟩ | ⟨s, rfl⟩
  · cases existing <;> first | cases same | exact congrArg ConstValue.int (of_decide_eq_true same)
  · cases existing <;> first | cases same | exact congrArg ConstValue.str (of_decide_eq_true same)

/-- What an addition to the pool gives. -/
structure Added (fc : FuncCompiler) (val : ConstValue) : Prop where
  found : (fc.add_const val).2.constants[(fc.add_const val).1]? = some val
  continues : Continues fc (fc.add_const val).2
  code : (fc.add_const val).2.code = fc.code
  registers : (fc.add_const val).2.register_count = fc.register_count

theorem add_const_added (fc : FuncCompiler) (val : ConstValue)
    (plain : (∃ n, val = .int n) ∨ ∃ s, val = .str s) : Added fc val := by
  cases known : fc.constants.findIdx? fun existing => existing.same val with
  | some idx =>
      have same : fc.add_const val = (idx, fc) := by rw [FuncCompiler.add_const, known]
      obtain ⟨inside, same_, -⟩ := List.findIdx?_eq_some_iff_getElem.mp known
      refine ⟨?_, ?_, ?_, ?_⟩ <;> rw [same]
      · exact List.getElem?_eq_some_iff.mpr ⟨inside, eq_of_same plain same_⟩
      · exact .refl fc
  | none =>
      have new : fc.add_const val =
          (fc.constants.length, { fc with constants := fc.constants ++ [val] }) := by
        rw [FuncCompiler.add_const, known]
      refine ⟨?_, ?_, ?_, ?_⟩ <;> rw [new]
      · exact List.getElem?_concat_length
      · exact ⟨rfl, List.prefix_append _ _⟩

/-- Loads into the registers of a window, from the `i`-th on. -/
def loadsFrom (base : Nat) : Nat → List ConstIdx → List Op
  | _, [] => []
  | i, idx :: idxs => .loadConst (reg16 (base + i)) idx :: loadsFrom base (i + 1) idxs

/-- What has been emitted loads some values into a window. -/
structure LoadsInto (base : Nat) (i : Nat) (values : List Value) (fc fc' : FuncCompiler) : Prop where
  continues : Continues fc fc'
  loads : ∃ idxs, fc'.code = fc.code ++ loadsFrom base i idxs ∧ Holds fc'.constants idxs values

theorem loadTargets_loads (base : Nat) (targets : List Reg) (i : Nat) (fc : FuncCompiler) :
    LoadsInto base i (targets.map fun t : Reg => Value.int (t : Int)) fc (loadTargets base i targets fc) := by
  induction targets generalizing i fc with
  | nil => exact ⟨.refl fc, [], (List.append_nil _).symm, .nil⟩
  | cons t targets ih =>
      have added := add_const_added fc (.int t) (.inl ⟨t, rfl⟩)
      rw [loadTargets]
      obtain ⟨continues, idxs, code, holds⟩ := ih (i + 1)
        ((fc.add_const (.int t)).2.emit (.loadConst (reg16 (base + i)) (fc.add_const (.int t)).1))
      refine ⟨added.continues.trans ⟨continues.vars, continues.pool⟩,
        (fc.add_const (.int t)).1 :: idxs, ?_, .cons ?_ holds⟩
      · rw [code, FuncCompiler.emit, added.code, List.append_assoc]
        rfl
      · rw [getElem?_extended continues.pool added.found]
        rfl

/-- Targets with the names that their constants hold. -/
def Names (constants : List ConstValue) (names : List (Reg × String))
    (targets : List (Reg × ConstIdx)) : Prop :=
  List.Forall₂ (fun name target => target.1 = name.1 ∧ constants[target.2]? = some (.str name.2))
    names targets

theorem Names.mono {constants' : List ConstValue} {names : List (Reg × String)}
    {targets : List (Reg × ConstIdx)} (named : Names constants names targets)
    (more : constants <+: constants') : Names constants' names targets :=
  List.Forall₂.imp (fun _ _ same => ⟨same.1, getElem?_extended more same.2⟩) named

/-- What is loaded for the fields: the register of the object and the name. -/
def fieldValues (names : List (Reg × String)) : List Value :=
  names.flatMap fun name => [.int (name.1 : Int), .string name.2]

theorem loadFieldTargets_loads (base : Nat)
    {names : List (Reg × String)} {targets : List (Reg × ConstIdx)} (i : Nat) (fc : FuncCompiler)
    (named : Names constants names targets) (held : constants <+: fc.constants) :
    LoadsInto base (i * 2) (fieldValues names) fc (loadFieldTargets base i targets fc) := by
  induction named generalizing i fc with
  | nil => exact ⟨.refl fc, [], (List.append_nil _).symm, .nil⟩
  | @cons name target names targets same rest ih =>
      obtain ⟨obj_reg, field_idx⟩ := target
      obtain ⟨rfl, field⟩ := same
      have added := add_const_added fc (.int name.1) (.inl ⟨name.1, rfl⟩)
      rw [loadFieldTargets]
      obtain ⟨continues, idxs, code, holds⟩ := ih (i + 1)
        (((fc.add_const (.int name.1)).2.emit
            (.loadConst (reg16 (base + i * 2)) (fc.add_const (.int name.1)).1)).emit
          (.loadConst (reg16 (reg16 (base + i * 2) + 1)) field_idx))
        (held.trans added.continues.pool)
      refine ⟨added.continues.trans ⟨continues.vars, continues.pool⟩,
        (fc.add_const (.int name.1)).1 :: field_idx :: idxs, ?_, .cons ?_ (.cons ?_ holds)⟩
      · have second : reg16 (reg16 (base + i * 2) + 1) = reg16 (base + (i * 2 + 1)) := by
          simp only [reg16]
          omega
        have next : (i + 1) * 2 = i * 2 + 1 + 1 := by omega
        rw [code, FuncCompiler.emit, FuncCompiler.emit, added.code, second, next,
          List.append_assoc, List.append_assoc]
        rfl
      · rw [getElem?_extended continues.pool added.found]
        rfl
      · rw [getElem?_extended continues.pool
          (getElem?_extended (held.trans added.continues.pool) field)]
        rfl

/-! ### What the machine makes of it -/

theorem run_append (constants : List ConstValue) (ops ops' : List Op) (frame : Frame) :
    run constants (ops ++ ops') frame = (run constants ops frame).bind (run constants ops') := by
  induction ops generalizing frame with
  | nil => rfl
  | cons op ops ih =>
      rw [List.cons_append, run, run, Option.bind_assoc]
      exact congrArg _ (funext ih)

/-- The frame after the values have been loaded into its registers from `at_` on. -/
structure Loaded (frame : Frame) (at_ : Nat) (values : List Value) (frame' : Frame) : Prop where
  length : frame'.regs.length = frame.regs.length
  window : (frame'.regs.drop at_).take values.length = values
  below : ∀ r < at_, frame'.regs[r]? = frame.regs[r]?
  variables_ : frame'.mutate_writebacks = frame.mutate_writebacks
  fields_ : frame'.mutate_field_writebacks = frame.mutate_field_writebacks

/-- A window that fits into the frame is loaded. -/
theorem run_loads {base : Nat} {values : List Value} (holds : Holds constants idxs values) (i : Nat) (frame : Frame)
    (fits : base + i + values.length ≤ frame.regs.length) :
    ∃ frame', run constants (loadsFrom base i idxs) frame = some frame' ∧
      Loaded frame (base + i) values frame' := by
  induction holds generalizing i frame with
  | nil => exact ⟨frame, rfl, rfl, List.take_zero, fun _ _ => rfl, rfl, rfl⟩
  | @cons idx value idxs values found rest ih =>
      rw [List.length_cons] at fits
      have inside : base + i < frame.regs.length := by omega
      have slot : reg16 (base + i) = base + i := Nat.mod_eq_of_lt (inside.trans frame.bound)
      have first : step constants (.loadConst (reg16 (base + i)) idx) frame =
          some (frame.set (base + i) value) := by
        obtain ⟨constant, at_, rfl⟩ := Option.map_eq_some_iff.mp found
        rw [step, slot, if_pos inside, at_]
        rfl
      have size : (frame.set (base + i) value).regs.length = frame.regs.length := List.length_set
      obtain ⟨frame', ran, loaded⟩ := ih (i + 1) (frame.set (base + i) value) (by rw [size]; omega)
      refine ⟨frame', ?_, loaded.length.trans size, ?_, fun r below => ?_, loaded.variables_,
        loaded.fields_⟩
      · rw [loadsFrom, run, first]
        exact ran
      · have here : frame'.regs[base + i]? = some value := by
          rw [loaded.below (base + i) (by omega)]
          exact List.getElem?_set_self inside
        obtain ⟨inside', at_⟩ := List.getElem?_eq_some_iff.mp here
        rw [List.drop_eq_getElem_cons inside', at_, List.length_cons, List.take_succ_cons]
        exact congrArg _ loaded.window
      · rw [loaded.below r (by omega)]
        exact List.getElem?_set_ne (by omega)

/-- A window that has been loaded fits into the frame: its registers are numbers of 16 bits and have
been checked one by one. -/
theorem fits_of_run_loads {base : Nat} (i : Nat)
    {frame frame' : Frame} (some_ : idxs ≠ []) (small : base + i < 2 ^ 16)
    (ran : run constants (loadsFrom base i idxs) frame = some frame') :
    base + i + idxs.length ≤ frame.regs.length := by
  induction idxs generalizing i frame with
  | nil => exact absurd rfl some_
  | cons idx idxs ih =>
      rw [loadsFrom, run, Option.bind_eq_some_iff] at ran
      obtain ⟨frame₁, first, ran⟩ := ran
      have slot : reg16 (base + i) = base + i := Nat.mod_eq_of_lt small
      rw [step, slot] at first
      split_ifs at first with inside
      obtain ⟨constant, -, rfl⟩ := Option.map_eq_some_iff.mp first
      have size : (frame.set (base + i) constant.load).regs.length = frame.regs.length :=
        List.length_set
      cases idxs with
      | nil =>
          rw [List.length_singleton]
          omega
      | cons idx' idxs =>
          have rest := ih (i + 1) (List.cons_ne_nil _ _)
            ((Nat.succ_le_of_lt inside).trans_lt frame.bound) ran
          rw [size] at rest
          rw [List.length_cons]
          omega

theorem readTargets_ints (register_count : Nat) (targets : List Reg) :
    readTargets register_count (targets.map fun t : Reg => Value.int (t : Int)) =
      if ∀ t ∈ targets, t < register_count then .read targets else .error := by
  induction targets with
  | nil => rfl
  | cons t targets ih =>
      rw [List.map_cons, readTargets, ih]
      by_cases here : t < register_count
      · rw [if_pos ⟨Int.natCast_nonneg t, Int.ofNat_lt.mpr here⟩]
        by_cases rest : ∀ t ∈ targets, t < register_count
        · have all : ∀ t' ∈ t :: targets, t' < register_count :=
            List.forall_mem_cons.mpr ⟨here, rest⟩
          rw [if_pos rest, if_pos all]
          rfl
        · have not_all : ¬∀ t' ∈ t :: targets, t' < register_count :=
            fun all => rest (List.forall_mem_cons.mp all).2
          rw [if_neg rest, if_neg not_all]
          rfl
      · have not_all : ¬∀ t' ∈ t :: targets, t' < register_count :=
          fun all => here (List.forall_mem_cons.mp all).1
        rw [if_neg fun small => here (Int.ofNat_lt.mp small.2), if_neg not_all]

theorem readFieldTargets_values (register_count : Nat) (names : List (Reg × String)) :
    readFieldTargets register_count (fieldValues names) =
      if ∀ name ∈ names, name.1 < register_count then .read names else .error := by
  induction names with
  | nil => rfl
  | cons name names ih =>
      rw [fieldValues, List.flatMap_cons, ← fieldValues, List.cons_append, List.singleton_append,
        readFieldTargets, ih]
      by_cases here : name.1 < register_count
      · rw [if_pos ⟨Int.natCast_nonneg name.1, Int.ofNat_lt.mpr here⟩]
        by_cases rest : ∀ name ∈ names, name.1 < register_count
        · have all : ∀ name' ∈ name :: names, name'.1 < register_count :=
            List.forall_mem_cons.mpr ⟨here, rest⟩
          rw [if_pos rest, if_pos all]
          rfl
        · have not_all : ¬∀ name' ∈ name :: names, name'.1 < register_count :=
            fun all => rest (List.forall_mem_cons.mp all).2
          rw [if_neg rest, if_neg not_all]
          rfl
      · have not_all : ¬∀ name' ∈ name :: names, name'.1 < register_count :=
          fun all => here (List.forall_mem_cons.mp all).1
        rw [if_neg fun small => here (Int.ofNat_lt.mp small.2), if_neg not_all]

/-! ### Setting up the targets -/

theorem allocMore_same (count : Nat) (fc : FuncCompiler) :
    (FuncCompiler.allocMore count fc).vars = fc.vars ∧
      (FuncCompiler.allocMore count fc).constants = fc.constants ∧
      (FuncCompiler.allocMore count fc).code = fc.code := by
  induction count generalizing fc with
  | zero => exact ⟨rfl, rfl, rfl⟩
  | succ count ih => exact ih fc.alloc_reg.2

theorem allocWindow_continues (count : Nat) (fc : FuncCompiler) :
    Continues fc (fc.allocWindow count).2 ∧ (fc.allocWindow count).2.code = fc.code := by
  obtain ⟨vars, pool, code⟩ := allocMore_same (count - 1) fc.alloc_reg.2
  exact ⟨⟨vars, pool ▸ List.prefix_rfl⟩, code⟩

/-- The window and the registers that are named are registers of the frame. -/
def Fits (base span : Nat) (named : List Reg) (register_count : Nat) : Prop :=
  base + span ≤ register_count ∧ ∀ t ∈ named, t < register_count

/-- Some instructions run in a frame exactly under a condition, and what they leave. -/
structure Outcome (constants : List ConstValue) (ops : List Op) (frame : Frame) (fits : Prop)
    (after : Frame → Prop) : Prop where
  runs : (∃ frame', run constants ops frame = some frame') ↔ fits
  after : ∀ frame', run constants ops frame = some frame' → after frame'

/-- Loads and the instruction behind them that reads the window: it runs when the window fits, and the
registers that are named are registers of the frame. -/
theorem run_setUp {base : Nat} {values : List Value} (holds : Holds constants idxs values) (some_ : values ≠ [])
    (small : base < 2 ^ 16) (op : Op) (frame : Frame) (named : Prop) [Decidable named] (update : Frame → Frame)
    (reads : ∀ loaded, base + values.length ≤ frame.regs.length → Loaded frame base values loaded →
      step constants op loaded = if named then some (update loaded) else none) :
    Outcome constants (loadsFrom base 0 idxs ++ [op]) frame
      (base + values.length ≤ frame.regs.length ∧ named)
      fun frame' => ∃ loaded, Loaded frame base values loaded ∧ frame' = update loaded := by
  have single : ∀ loaded, run constants [op] loaded = step constants op loaded := fun loaded => by
    rw [run]
    cases step constants op loaded <;> rfl
  have inv : ∀ frame', run constants (loadsFrom base 0 idxs ++ [op]) frame = some frame' →
      (base + values.length ≤ frame.regs.length ∧ named) ∧
        ∃ loaded, Loaded frame base values loaded ∧ frame' = update loaded := by
    intro frame' ran
    rw [run_append, Option.bind_eq_some_iff] at ran
    obtain ⟨loaded, ran, last⟩ := ran
    have idxs_ : idxs ≠ [] := by
      rintro rfl
      exact some_ (List.forall₂_nil_left_iff.mp holds)
    have fits := fits_of_run_loads 0 idxs_ small ran
    rw [Nat.add_zero, List.Forall₂.length_eq holds] at fits
    obtain ⟨loaded', ran', is⟩ := run_loads holds 0 frame fits
    obtain rfl := Option.some.inj (ran.symm.trans ran')
    rw [single, reads loaded fits is] at last
    split_ifs at last with regs
    exact ⟨⟨fits, regs⟩, loaded, is, (Option.some.inj last).symm⟩
  refine ⟨⟨fun ⟨frame', ran⟩ => (inv frame' ran).1, fun ⟨fits, regs⟩ => ?_⟩,
    fun frame' ran => (inv frame' ran).2⟩
  obtain ⟨loaded, ran, is⟩ := run_loads holds 0 frame fits
  refine ⟨update loaded, ?_⟩
  rw [run_append, ran, Option.bind_some, single, reads loaded fits is, if_pos regs]

/-- The targets are set up in a frame that has their registers. -/
theorem setUpTargets_spec (targets : List Reg) (fc : FuncCompiler) :
    Continues fc (setUpTargets targets fc) ∧
      ∃ ops, (setUpTargets targets fc).code = fc.code ++ ops ∧
        ∀ constants, (setUpTargets targets fc).constants <+: constants → ∀ frame : Frame,
          Outcome constants ops frame
            (targets ≠ [] → Fits fc.register_count targets.length targets frame.regs.length)
            fun frame' => frame'.regs.length = frame.regs.length ∧
              (frame.mutate_writebacks = none → frame'.mutate_writebacks.getD [] = targets) ∧
              frame'.mutate_field_writebacks = frame.mutate_field_writebacks := by
  by_cases none_ : targets = []
  · subst none_
    refine ⟨.refl fc, [], (List.append_nil _).symm, fun constants _ frame =>
      ⟨⟨fun _ => absurd rfl, fun _ => ⟨frame, rfl⟩⟩, fun frame' ran => ?_⟩⟩
    obtain rfl := Option.some.inj ran
    exact ⟨rfl, fun fresh => by rw [fresh]; rfl, rfl⟩
  obtain ⟨window, code⟩ := allocWindow_continues targets.length fc
  obtain ⟨continues, idxs, code', holds⟩ :=
    loadTargets_loads fc.register_count targets 0 (fc.allocWindow targets.length).2
  have result : setUpTargets targets fc = (loadTargets fc.register_count 0 targets
      (fc.allocWindow targets.length).2).emit
        (.mutateSetup fc.register_count (targets.length % 2 ^ 16)) :=
    if_neg (mt List.isEmpty_iff.mp none_)
  have going := window.trans continues
  refine ⟨result ▸ ⟨going.vars, going.pool⟩, loadsFrom fc.register_count 0 idxs ++
    [.mutateSetup fc.register_count (targets.length % 2 ^ 16)], ?_, fun constants more frame => ?_⟩
  · rw [result, FuncCompiler.emit, code', code, List.append_assoc]
  rw [result] at more
  have outcome := run_setUp (Holds.mono holds more) (mt List.map_eq_nil_iff.mp none_) fc.bound
    (.mutateSetup fc.register_count (targets.length % 2 ^ 16)) frame
    (∀ t ∈ targets, t < frame.regs.length)
    (fun loaded => { loaded with mutate_writebacks := some targets }) (by
      -- a window that fits is counted without wrapping, and is read as it has been loaded
      intro loaded fits is
      rw [List.length_map] at fits
      have count : targets.length % 2 ^ 16 = targets.length :=
        Nat.mod_eq_of_lt (by have := frame.bound; omega)
      have inside : ¬loaded.regs.length < fc.register_count + targets.length := by
        rw [is.length]
        exact Nat.not_lt.mpr fits
      have window := is.window
      rw [List.length_map] at window
      rw [step, count, if_neg inside, window, is.length, readTargets_ints]
      by_cases small : ∀ t ∈ targets, t < frame.regs.length
      · rw [if_pos small, if_pos small]
        cases targets with
        | nil => exact absurd rfl none_
        | cons t rest => rfl
      · rw [if_neg small, if_neg small])
  rw [List.length_map] at outcome
  refine ⟨outcome.runs.trans ⟨fun fits _ => fits, fun fits => fits none_⟩, fun frame' ran => ?_⟩
  obtain ⟨loaded, is, rfl⟩ := outcome.after frame' ran
  exact ⟨is.length, fun _ => rfl, is.fields_⟩

theorem fieldValues_length (names : List (Reg × String)) :
    (fieldValues names).length = names.length * 2 := by
  rw [fieldValues, List.length_flatMap]
  simp

theorem setUpFieldTargets_spec {names : List (Reg × String)} {targets : List (Reg × ConstIdx)}
    (fc : FuncCompiler) (named : Names fc.constants names targets) :
    Continues fc (setUpFieldTargets targets fc) ∧
      ∃ ops, (setUpFieldTargets targets fc).code = fc.code ++ ops ∧
        ∀ constants, (setUpFieldTargets targets fc).constants <+: constants → ∀ frame : Frame,
          Outcome constants ops frame
            (names ≠ [] → Fits fc.register_count (names.length * 2) (names.map Prod.fst)
              frame.regs.length)
            fun frame' => frame'.mutate_writebacks = frame.mutate_writebacks ∧
              (frame.mutate_field_writebacks = none →
                frame'.mutate_field_writebacks.getD [] = names) := by
  have length : targets.length = names.length := (List.Forall₂.length_eq named).symm
  by_cases none_ : names = []
  · subst none_
    obtain rfl := List.length_eq_zero_iff.mp length
    refine ⟨.refl fc, [], (List.append_nil _).symm, fun constants _ frame =>
      ⟨⟨fun _ => absurd rfl, fun _ => ⟨frame, rfl⟩⟩, fun frame' ran => ?_⟩⟩
    obtain rfl := Option.some.inj ran
    exact ⟨rfl, fun fresh => by rw [fresh]; rfl⟩
  have targets_ : targets ≠ [] := by
    rintro rfl
    exact none_ (List.forall₂_nil_right_iff.mp named)
  obtain ⟨window, code⟩ := allocWindow_continues (targets.length * 2) fc
  obtain ⟨continues, idxs, code', holds⟩ :=
    loadFieldTargets_loads fc.register_count 0 (fc.allocWindow (targets.length * 2)).2 named window.pool
  have result : setUpFieldTargets targets fc = (loadFieldTargets fc.register_count 0 targets
      (fc.allocWindow (targets.length * 2)).2).emit
        (.mutateSetupField fc.register_count (targets.length % 2 ^ 16)) :=
    if_neg (mt List.isEmpty_iff.mp targets_)
  have going := window.trans continues
  rw [Nat.zero_mul] at code'
  refine ⟨result ▸ ⟨going.vars, going.pool⟩, loadsFrom fc.register_count 0 idxs ++
    [.mutateSetupField fc.register_count (targets.length % 2 ^ 16)], ?_,
    fun constants more frame => ?_⟩
  · rw [result, FuncCompiler.emit, code', code, List.append_assoc]
  rw [result] at more
  have some_ : fieldValues names ≠ [] := fun empty => none_ (List.length_eq_zero_iff.mp (by
    have none_ := fieldValues_length names
    rw [empty] at none_
    exact (Nat.mul_eq_zero.mp none_.symm).resolve_right (by decide)))
  have outcome := run_setUp (Holds.mono holds more) some_ fc.bound
    (.mutateSetupField fc.register_count (targets.length % 2 ^ 16)) frame
    (∀ name ∈ names, name.1 < frame.regs.length)
    (fun loaded => { loaded with mutate_field_writebacks := some names }) (by
      intro loaded fits is
      rw [fieldValues_length] at fits
      have count : targets.length % 2 ^ 16 = names.length := by
        rw [length]
        exact Nat.mod_eq_of_lt (by have := frame.bound; omega)
      have inside : ¬loaded.regs.length < fc.register_count + names.length * 2 := by
        rw [is.length]
        exact Nat.not_lt.mpr fits
      have window := is.window
      rw [fieldValues_length] at window
      rw [step, count, if_neg inside, window, is.length, readFieldTargets_values]
      by_cases small : ∀ name ∈ names, name.1 < frame.regs.length
      · rw [if_pos small, if_pos small]
        cases names with
        | nil => exact absurd rfl none_
        | cons name rest => rfl
      · rw [if_neg small, if_neg small])
  rw [fieldValues_length] at outcome
  have regs : (∀ name ∈ names, name.1 < frame.regs.length) ↔
      ∀ t ∈ names.map Prod.fst, t < frame.regs.length := by rw [List.forall_mem_map]
  refine ⟨outcome.runs.trans ⟨fun fits _ => ⟨fits.1, regs.mp fits.2⟩,
    fun fits => ⟨(fits none_).1, regs.mpr (fits none_).2⟩⟩, fun frame' ran => ?_⟩
  obtain ⟨loaded, is, rfl⟩ := outcome.after frame' ran
  exact ⟨is.variables_, fun _ => rfl⟩

/-! ### Which targets are set up -/

variable {fc' : FuncCompiler}

theorem lookup_var_congr {fc : FuncCompiler} (same : fc'.vars = fc.vars) (name : String) :
    fc'.lookup_var name = fc.lookup_var name := by rw [FuncCompiler.lookup_var, same]; rfl

theorem variableTarget_congr {fc : FuncCompiler} (same : fc'.vars = fc.vars)
    (arg : Option Expr) : variableTarget fc' arg = variableTarget fc arg := by
  unfold variableTarget
  split
  · exact lookup_var_congr same _
  · rfl

theorem fieldTarget_congr {fc : FuncCompiler} (same : fc'.vars = fc.vars)
    (arg : Option Expr) : fieldTarget fc' arg = fieldTarget fc arg := by
  unfold fieldTarget
  split
  · split
    · rw [lookup_var_congr same]
    · rfl
  · rfl

/-- No argument is a variable and a field. -/
theorem variableTarget_of_field {fc : FuncCompiler} {arg : Option Expr} {target : Reg × String}
    (field : fieldTarget fc arg = some target) : variableTarget fc arg = none := by
  unfold fieldTarget at field
  unfold variableTarget
  split at field
  · rename_i obj name is
    rw [is]
  · cases field

/-- The loop collects the variables and, with their names in the pool, the fields. -/
theorem collectTargets_spec (args : List Expr) (muts : List Nat) (fc : FuncCompiler) :
    (collectTargets args muts fc).1 = muts.filterMap (fun pi => variableTarget fc args[pi]?) ∧
      Names (collectTargets args muts fc).2.2.constants
        (muts.filterMap fun pi => fieldTarget fc args[pi]?) (collectTargets args muts fc).2.1 ∧
      Continues fc (collectTargets args muts fc).2.2 ∧
      (collectTargets args muts fc).2.2.code = fc.code ∧
      (collectTargets args muts fc).2.2.register_count = fc.register_count := by
  induction muts generalizing fc with
  | nil => exact ⟨rfl, .nil, .refl fc, rfl, rfl⟩
  | cons pi rest ih =>
      cases field : fieldTarget fc args[pi]? with
      | none =>
          have unfolded : collectTargets args (pi :: rest) fc =
              ((variableTarget fc args[pi]?).toList ++ (collectTargets args rest fc).1,
                (collectTargets args rest fc).2.1, (collectTargets args rest fc).2.2) := by
            rw [collectTargets, field]
          obtain ⟨targets, names, going⟩ := ih fc
          rw [unfolded, List.filterMap_cons_none (f := fun pi => fieldTarget fc args[pi]?) field]
          refine ⟨?_, names, going⟩
          rw [targets, List.filterMap_cons]
          cases variableTarget fc args[pi]? <;> rfl
      | some target =>
          obtain ⟨obj_reg, name⟩ := target
          have added := add_const_added fc (.str name) (.inr ⟨name, rfl⟩)
          have unfolded : collectTargets args (pi :: rest) fc =
              ((collectTargets args rest (fc.add_const (.str name)).2).1,
                (obj_reg, (fc.add_const (.str name)).1) ::
                  (collectTargets args rest (fc.add_const (.str name)).2).2.1,
                (collectTargets args rest (fc.add_const (.str name)).2).2.2) := by
            rw [collectTargets, field]
          obtain ⟨targets, names, continues, code, registers⟩ := ih (fc.add_const (.str name)).2
          simp only [variableTarget_congr added.continues.vars] at targets
          simp only [fieldTarget_congr added.continues.vars] at names
          rw [unfolded, List.filterMap_cons_none (f := fun pi => variableTarget fc args[pi]?)
            (variableTarget_of_field field),
            List.filterMap_cons_some (f := fun pi => fieldTarget fc args[pi]?) field]
          exact ⟨targets, .cons ⟨rfl, getElem?_extended continues.pool added.found⟩ names,
            added.continues.trans continues, code.trans added.code,
            registers.trans added.registers⟩

variable {call : UserCall bc fc}

/-- The variables and the fields of a call cannot both come first. -/
theorem one_kind (variables_ : Leading call.variableOf call.muts) (fields_ : Leading call.fieldOf call.muts) :
    call.variableTargets = [] ∨ call.fieldTargets = [] := by
  rw [UserCall.variableTargets, UserCall.fieldTargets, List.filterMap_eq_nil_iff,
    List.filterMap_eq_nil_iff]
  by_contra both
  obtain ⟨some_, some_'⟩ := not_or.mp both
  obtain ⟨pi, member, variable_⟩ := not_forall₂.mp some_
  obtain ⟨pi', member', field⟩ := not_forall₂.mp some_'
  obtain ⟨j, at_⟩ := List.mem_iff_getElem?.mp member
  obtain ⟨j', at_'⟩ := List.mem_iff_getElem?.mp member'
  obtain ⟨t, gives⟩ := Option.ne_none_iff_exists'.mp variable_
  obtain ⟨target, gives'⟩ := Option.ne_none_iff_exists'.mp field
  obtain ⟨t₀, first⟩ := variables_ 0 j t (Nat.zero_le _) (by rw [at_]; exact gives)
  obtain ⟨target₀, first'⟩ := fields_ 0 j' target (Nat.zero_le _) (by rw [at_']; exact gives')
  obtain ⟨pi₀, at₀, variable₀⟩ := Option.bind_eq_some_iff.mp first
  obtain ⟨pi₁, at₁, field₁⟩ := Option.bind_eq_some_iff.mp first'
  obtain rfl := Option.some.inj (at₀.symm.trans at₁)
  exact absurd ((variableTarget_of_field field₁).symm.trans variable₀) nofun

/-! ### The exact condition -/

/-- Instructions that set up some variables and some fields, the fields in a window of their own. -/
structure SetsUp (fc fc' : FuncCompiler) (variables_ : List Reg) (fields_ : List (Reg × String)) :
    Prop where
  emitted : ∃ ops base, fc'.code = fc.code ++ ops ∧
    (variables_ = [] → base = fc.register_count) ∧
    ∀ more regs bound, Outcome (fc'.constants ++ more) ops (.fresh regs bound)
      ((variables_ ≠ [] → Fits fc.register_count variables_.length variables_ regs.length) ∧
        (fields_ ≠ [] → Fits base (fields_.length * 2) (fields_.map Prod.fst) regs.length))
      fun frame => frame.mutate_writebacks.getD [] = variables_ ∧
        frame.mutate_field_writebacks.getD [] = fields_

/-- A call by name sets up its variables and its fields. -/
theorem set_up_call_setsUp (callee : Callee) (args : List Expr) (fc : FuncCompiler) :
    SetsUp fc (set_up_call callee args fc)
      (callee.mut_param_indices.filterMap fun pi =>
        variableTarget fc (effective_args callee args)[pi]?)
      (callee.mut_param_indices.filterMap fun pi =>
        fieldTarget fc (effective_args callee args)[pi]?) := by
  obtain ⟨targets, names, -, code, registers⟩ :=
    collectTargets_spec (effective_args callee args) callee.mut_param_indices fc
  have unfolded : set_up_call callee args fc = setUpFieldTargets
      (collectTargets (effective_args callee args) callee.mut_param_indices fc).2.1
      (setUpTargets (collectTargets (effective_args callee args) callee.mut_param_indices fc).1
        (collectTargets (effective_args callee args) callee.mut_param_indices fc).2.2) := rfl
  generalize collectTargets (effective_args callee args) callee.mut_param_indices fc = collected
    at targets names code registers unfolded
  obtain ⟨going, ops, code₁, outcome₁⟩ := setUpTargets_spec collected.1 collected.2.2
  obtain ⟨going', ops', code₂, outcome₂⟩ := setUpFieldTargets_spec
    (setUpTargets collected.1 collected.2.2) (names.mono going.pool)
  rw [← unfolded] at going' code₂ outcome₂
  rw [registers] at outcome₁
  rw [← targets]
  refine ⟨ops ++ ops', (setUpTargets collected.1 collected.2.2).register_count, ?_, fun none_ => ?_,
    fun more regs bound => ?_⟩
  · rw [code₂, code₁, code, List.append_assoc]
  · rw [none_]
    exact registers
  · have outcome₁ := outcome₁ _ (going'.pool.trans (List.prefix_append _ more)) (.fresh regs bound)
    have outcome₂ := outcome₂ _ (List.prefix_append _ more)
    constructor
    · constructor
      · rintro ⟨frame', ran⟩
        rw [run_append, Option.bind_eq_some_iff] at ran
        obtain ⟨frame, ran, ran'⟩ := ran
        have size := (outcome₁.after frame ran).1
        refine ⟨outcome₁.runs.mp ⟨frame, ran⟩, ?_⟩
        have fits := (outcome₂ frame).runs.mp ⟨frame', ran'⟩
        rwa [size] at fits
      · rintro ⟨fits, fits'⟩
        obtain ⟨frame, ran⟩ := outcome₁.runs.mpr fits
        have size := (outcome₁.after frame ran).1
        obtain ⟨frame', ran'⟩ := (outcome₂ frame).runs.mpr (by rwa [size])
        exact ⟨frame', by rw [run_append, ran]; exact ran'⟩
    · intro frame' ran
      rw [run_append, Option.bind_eq_some_iff] at ran
      obtain ⟨frame, ran, ran'⟩ := ran
      obtain ⟨-, variables_, fields_⟩ := outcome₁.after frame ran
      obtain ⟨kept, fields_'⟩ := (outcome₂ frame).after frame' ran'
      exact ⟨by rw [kept]; exact variables_ rfl, fields_' fields_⟩

/-- A call of a method sets up its variables only. -/
theorem method_setsUp (callee : Callee) (args : List Expr) (fc : FuncCompiler) :
    SetsUp fc (emit_impl_method_mutate_setup callee args fc)
      (callee.mut_param_indices.filterMap fun pi => variableTarget fc (methodArg args pi)) [] := by
  obtain ⟨-, ops, code, outcome⟩ := setUpTargets_spec
    (callee.mut_param_indices.filterMap fun pi => variableTarget fc (methodArg args pi)) fc
  refine ⟨ops, fc.register_count, code, fun _ => rfl, fun more regs bound => ?_⟩
  have outcome := outcome _ (List.prefix_append _ more) (.fresh regs bound)
  refine ⟨outcome.runs.trans ⟨fun fits => ⟨fits, absurd rfl⟩, And.left⟩, fun frame ran => ?_⟩
  obtain ⟨-, variables_, fields_⟩ := outcome.after frame ran
  exact ⟨variables_ rfl, by rw [fields_]; rfl⟩

/-! ### What the compiler sees of the arguments -/

theorem passed_unlocated (arg : Expr) : passed arg.unlocated = passed arg := by
  fun_induction Expr.unlocated arg with
  | case1 info e ih => exact ih
  | case2 => rfl

/-- An argument that is not named is looked at as it is compiled. -/
theorem unlocated_passed {arg : Expr} (plain : isNamed arg = false) : (passed arg).unlocated = arg.unlocated := by
  rw [← passed_unlocated]
  unfold isNamed at plain
  fun_induction Expr.unlocated arg with
  | case1 info e ih => exact ih plain
  | case2 e bare =>
      cases e with
      | located info e => exact absurd rfl (bare info e)
      | namedArg name e => cases plain
      | _ => rfl

theorem targets_passed {arg : Expr} (plain : isNamed arg = false) :
    variableTarget fc (some (passed arg)) = variableTarget fc (some arg) ∧
      fieldTarget fc (some (passed arg)) = fieldTarget fc (some arg) := by
  simp only [variableTarget, fieldTarget, Option.map_some, unlocated_passed plain, and_self]

theorem targets_of_named {arg : Expr} (named : isNamed arg = true) :
    variableTarget fc (some arg) = none ∧ fieldTarget fc (some arg) = none := by
  unfold isNamed at named
  simp only [variableTarget, fieldTarget, Option.map_some]
  split at named
  · rename_i shape
    rw [shape]
    exact ⟨rfl, rfl⟩
  · cases named

namespace UserCall

/-- The target in front of the parameter, as `compile_call` looks for it. -/
def seenVariable (call : UserCall bc fc) (pi : Nat) : Option Reg := variableTarget fc (call.slot pi)

def seenField : UserCall bc fc → Nat → Option (Reg × String)
  | call@(named ..), pi => fieldTarget fc (call.slot pi)
  | method .., _ => none

/-- What is in the place of a parameter is looked at as it is passed, or it is a named argument and shows nothing. -/
theorem slot_cases (call : UserCall bc fc) (pi : Nat) :
    ((call.slot pi).any isNamed = false ∧ call.variableOf pi = variableTarget fc (call.slot pi) ∧
        call.fieldOf pi = fieldTarget fc (call.slot pi)) ∨
      ((call.slot pi).any isNamed = true ∧ variableTarget fc (call.slot pi) = none ∧
        fieldTarget fc (call.slot pi) = none) := by
  unfold variableOf fieldOf argument
  cases call.slot pi with
  | none => exact .inl ⟨rfl, rfl, rfl⟩
  | some arg =>
      cases named : isNamed arg with
      | false => exact .inl ⟨named, targets_passed named⟩
      | true => exact .inr ⟨named, targets_of_named named⟩

variable {call : UserCall bc fc}

theorem variableOf_of_seen {pi : Nat} {t : Reg} (seen : call.seenVariable pi = some t) :
    call.variableOf pi = some t := by
  rcases call.slot_cases pi with ⟨-, same, -⟩ | ⟨-, nothing, -⟩
  · exact same.trans seen
  · exact absurd (nothing.symm.trans seen) nofun

theorem fieldOf_of_seen {pi : Nat} {target : Reg × String}
    (seen : call.seenField pi = some target) : call.fieldOf pi = some target := by
  cases call with
  | method args callee => cases seen
  | named before name args callee resolves =>
      rcases slot_cases (.named before name args callee resolves) pi with ⟨-, -, same⟩ | ⟨-, -, nothing⟩
      · exact same.trans seen
      · exact absurd (nothing.symm.trans seen) nofun

/-- All targets of a call are seen exactly when none is behind a name, and none is a field passed to a method. -/
theorem seen_iff (regular : call.special = false) :
    call.Ordinary ↔ call.muts.filterMap call.seenVariable = call.variableTargets ∧
      call.muts.filterMap call.seenField = call.fieldTargets := by
  have variables_ := filterMap_eq_iff (f := call.seenVariable) (g := call.variableOf) (l := call.muts)
    fun pi _ t => variableOf_of_seen
  have fields_ := filterMap_eq_iff (f := call.seenField) (g := call.fieldOf) (l := call.muts)
    fun pi _ target => fieldOf_of_seen
  unfold variableTargets fieldTargets
  rw [variables_, fields_]
  constructor
  · rintro ⟨-, bare, method_⟩
    refine ⟨fun pi member => ?_, fun pi member => ?_⟩
    · rcases call.slot_cases pi with ⟨-, same, -⟩ | ⟨named, nothing, -⟩
      · exact same.symm
      · exact nothing.trans (bare pi member named).1.symm
    · cases call with
      | method args callee =>
          exact (List.filterMap_eq_nil_iff.mp (show fieldTargets (.method args callee) = [] from method_) pi
            member).symm
      | named before name args callee resolves =>
          rcases slot_cases (.named before name args callee resolves) pi with ⟨-, -, same⟩ | ⟨named, -, nothing⟩
          · exact same.symm
          · exact nothing.trans (bare pi member named).2.symm
  · rintro ⟨sameVariables, sameFields⟩
    refine ⟨regular, fun pi member named => ?_, ?_⟩
    · rcases call.slot_cases pi with ⟨plain, -⟩ | ⟨-, noVariable, noField⟩
      · exact absurd (plain.symm.trans named) nofun
      · refine ⟨(sameVariables pi member).symm.trans noVariable, (sameFields pi member).symm.trans ?_⟩
        cases call with
        | method args callee => rfl
        | named before name args callee resolves => exact noField
    · cases call with
      | named before name args callee resolves => trivial
      | method args callee =>
          exact List.filterMap_eq_nil_iff.mpr fun pi member => (sameFields pi member).symm

/-- A call that has no targets hides none. -/
theorem ordinary_of_none (regular : call.special = false)
    (noVariable : call.variableTargets = []) (noField : call.fieldTargets = []) : call.Ordinary := by
  refine ⟨regular, fun pi member _ => ⟨List.filterMap_eq_nil_iff.mp noVariable pi member,
    List.filterMap_eq_nil_iff.mp noField pi member⟩, ?_⟩
  cases call with
  | named before name args callee resolves => trivial
  | method args callee => exact noField

end UserCall

/-- A call that is no special form sets up the targets that are seen. -/
theorem setsUp_of_regular (complete : call.Complete) (regular : call.special = false) :
    SetsUp fc call.setUp (call.muts.filterMap call.seenVariable) (call.muts.filterMap call.seenField) := by
  cases call with
  | named before name args callee resolves =>
      have same : ∀ pi, (effective_args callee args)[pi]? =
          (UserCall.named before name args callee resolves : UserCall bc fc).slot pi :=
        getElem?_filterMap_of_isSome complete
      have set_up := set_up_call_setsUp callee args fc
      simp only [same] at set_up
      rw [UserCall.setUp, if_neg (Bool.not_eq_true _ ▸ regular)]
      exact set_up
  | method args callee =>
      have none_ : (UserCall.method args callee : UserCall bc fc).muts.filterMap
          (UserCall.method args callee : UserCall bc fc).seenField = [] :=
        List.filterMap_eq_nil_iff.mpr fun _ _ => rfl
      rw [none_]
      exact method_setsUp callee args fc

/-- A special form is paired only where it has no targets. -/
theorem targets_of_special (special : call.special = true)
    {regs : List Value} {bound : regs.length < 2 ^ 16} {more : List ConstValue} :
    WritesBack call regs bound more ↔ call.variableTargets = [] ∧ call.fieldTargets = [] := by
  cases call with
  | method args callee => cases special
  | named before name args callee resolves =>
      have same : (UserCall.named before name args callee resolves : UserCall bc fc).setUp = fc := if_pos special
      rw [WritesBack, same, List.drop_length]
      constructor
      · rintro ⟨frame, ran, paired⟩
        obtain rfl := Option.some.inj ran
        exact ⟨(aligned_nil _ _).mp paired.byVariable, (aligned_nil _ _).mp paired.byField⟩
      · rintro ⟨variables_, fields_⟩
        exact ⟨_, rfl, (aligned_nil _ _).mpr variables_, (aligned_nil _ _).mpr fields_⟩

/-- What is set up for the targets that are seen runs in frames with room for it. -/
theorem writes_back_of_ordinary (complete : call.Complete) (ordinary : call.Ordinary)
    (regs : List Value) (bound : regs.length < 2 ^ 16) (more : List ConstValue) :
    WritesBack call regs bound more ↔
      (call.variableTargets = [] ∧ call.fieldTargets = []) ∨ InOrder call regs.length := by
  have set_up := setsUp_of_regular complete ordinary.1
  obtain ⟨sameVariables, sameFields⟩ := (UserCall.seen_iff ordinary.1).mp ordinary
  rw [sameVariables, sameFields] at set_up
  obtain ⟨ops, base, code, first, outcome⟩ := set_up.emitted
  have outcome := outcome more regs bound
  have drop : call.setUp.code.drop fc.code.length = ops := by rw [code, List.drop_left]
  rw [WritesBack, drop]
  constructor
  · rintro ⟨frame, ran, paired⟩
    have fits := outcome.runs.mp ⟨frame, ran⟩
    obtain ⟨variables_, fields_⟩ := outcome.after frame ran
    have byVariable := paired.byVariable
    have byField := paired.byField
    rw [variables_, UserCall.variableTargets, aligned_iff_leading] at byVariable
    rw [fields_, UserCall.fieldTargets, aligned_iff_leading] at byField
    rcases one_kind byVariable byField with none_ | none_
    · by_cases none_' : call.fieldTargets = []
      · exact .inl ⟨none_, none_'⟩
      · obtain ⟨window, objects⟩ := fits.2 none_'
        rw [first none_] at window
        refine .inr ⟨ordinary, byVariable, byField, ?_, ?_, List.forall_mem_map.mp objects⟩
        · rw [none_, List.length_nil, Nat.zero_add]
          exact window
        · rw [none_]
          exact List.forall_mem_nil _
    · by_cases none_' : call.variableTargets = []
      · exact .inl ⟨none_', none_⟩
      · obtain ⟨window, targets⟩ := fits.1 none_'
        refine .inr ⟨ordinary, byVariable, byField, ?_, targets, ?_⟩
        · rw [none_, List.length_nil, Nat.zero_mul, Nat.add_zero]
          exact window
        · rw [none_]
          exact List.forall_mem_nil _
  · intro good
    have byVariable : Leading call.variableOf call.muts := by
      rcases good with ⟨none_, -⟩ | good
      · rw [← aligned_iff_leading, ← UserCall.variableTargets, none_, aligned_nil]
        exact none_
      · exact good.byVariable
    have byField : Leading call.fieldOf call.muts := by
      rcases good with ⟨-, none_⟩ | good
      · rw [← aligned_iff_leading, ← UserCall.fieldTargets, none_, aligned_nil]
        exact none_
      · exact good.byField
    have fits : (call.variableTargets ≠ [] → Fits fc.register_count call.variableTargets.length
        call.variableTargets regs.length) ∧ (call.fieldTargets ≠ [] →
          Fits base (call.fieldTargets.length * 2) (call.fieldTargets.map Prod.fst)
            regs.length) := by
      rcases good with ⟨none_, none_'⟩ | good
      · exact ⟨fun some_ => absurd none_ some_, fun some_ => absurd none_' some_⟩
      · have window := good.window
        refine ⟨fun _ => ⟨by omega, good.targets⟩, fun some_ => ⟨?_, ?_⟩⟩
        · rw [first ((one_kind byVariable byField).resolve_right some_)]
          omega
        · exact List.forall_mem_map.mpr good.objects
    obtain ⟨frame, ran⟩ := outcome.runs.mpr fits
    obtain ⟨variables_, fields_⟩ := outcome.after frame ran
    refine ⟨frame, ran, ?_, ?_⟩
    · rw [variables_]
      exact (aligned_iff_leading _ _).mpr byVariable
    · rw [fields_]
      exact (aligned_iff_leading _ _).mpr byField

/-- A mutate parameter of the source. -/
def mutateParam (name : String) : Param :=
  ⟨⟨⟨0, 1, 1, 1, 1⟩, .user, .none⟩, name, .name "i32" [], true, none, some .mutate⟩

/-- The function `bump` of two mutate parameters. -/
def bump : Callee := register 0 [mutateParam "a", mutateParam "b"]

def bumpFile : BytecodeCompiler := ⟨fun name => if name = "bump" then some bump else none, []⟩

/-- A function with the variables `point`, `x` and `y`, after the two arguments of a call. -/
def bumpCaller : FuncCompiler :=
  ⟨[[("point", 0), ("x", 1), ("y", 2)]], none, 6, by decide, [], []⟩

def bumpRegs : List Value := List.replicate 16 .unit

theorem bumpRegs_bound : bumpRegs.length < 2 ^ 16 := by decide

/-- `bump(b = y, a = x)`. -/
def variableCall : UserCall bumpFile bumpCaller :=
  .named bumpCaller "bump" [.namedArg "b" (.ident "y"), .namedArg "a" (.ident "x")] bump rfl

/-- `bump(point.n, x)`. -/
def mixedCall : UserCall bumpFile bumpCaller :=
  .named bumpCaller "bump" [.field (.ident "point") "n", .ident "x"] bump rfl

end Mimi.Interp
