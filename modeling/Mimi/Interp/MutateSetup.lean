/-
Module: Mimi.Interp.MutateSetup
Purpose: How a call tells the machine where to write its mutate parameters back to: the arguments that
  `compile_call` passes, the targets that it collects, the instructions that it emits for them, and what
  the machine keeps of them until the callee returns.
Trusted boundary: human-reviewed translation of `compile_call` and `emit_impl_method_mutate_setup` of
  interp/bytecode/compiler.rs, the constant pool and registers of instr.rs, and the two set-up
  instructions of vm.rs; the code of the arguments themselves is not modelled
-/
import Mimi.Checker.Names
import Mimi.Bytecode.Value

namespace Mimi.Interp

open Mimi.Ast
open Mimi.Bytecode (Value floatsEqual)

abbrev Reg := Nat

abbrev ConstIdx := Nat

abbrev FuncIdx := Nat

/-- Arithmetic on registers, which are of 16 bits. -/
def reg16 (n : Nat) : Nat := n % 2 ^ 16

/-! ### The pool and the code of a function -/

inductive ConstValue where
  | int (value : Int)
  | float (bits : Nat)
  | bool (value : Bool)
  | str (value : String)
  | unit
  /-- A constant of another kind, with the value as which it is loaded. -/
  | other (loaded : Value)

/-- Constants that share an entry of the pool. -/
def ConstValue.same : ConstValue → ConstValue → Bool
  | .int a, .int b => a = b
  | .str a, .str b => a = b
  | .float a, .float b => floatsEqual a b
  | _, _ => false

/-- `load_const`. -/
def ConstValue.load : ConstValue → Value
  | .int value => .int value
  | .float bits => .float bits
  | .bool value => .bool value
  | .str value => .string value
  | .unit => .unit
  | .other loaded => loaded

inductive Op where
  | loadConst (rd : Nat) (idx : ConstIdx)
  | mutateSetup (regs_base count : Nat)
  | mutateSetupField (regs_base count : Nat)
deriving DecidableEq, Repr

/-- The compiler of one function: its scopes, outermost first, and what it has emitted. -/
structure FuncCompiler where
  vars : List (List (String × Reg))
  /-- Inside of a named nested function, its name and its index. -/
  self_call : Option (String × FuncIdx)
  register_count : Nat
  /-- Registers are counted in 16 bits. -/
  bound : register_count < 2 ^ 16
  constants : List ConstValue
  code : List Op

theorem reg16_lt (n : Nat) : reg16 n < 2 ^ 16 := Nat.mod_lt _ (by decide)

namespace FuncCompiler

def lookup_var (fc : FuncCompiler) (name : String) : Option Reg :=
  fc.vars.reverse.findSome? fun scope => scope.lookup name

def alloc_reg (fc : FuncCompiler) : Nat × FuncCompiler :=
  (fc.register_count,
    { fc with register_count := reg16 (fc.register_count + 1), bound := reg16_lt _ })

def add_const (fc : FuncCompiler) (val : ConstValue) : ConstIdx × FuncCompiler :=
  match fc.constants.findIdx? fun existing => existing.same val with
  | some idx => (idx, fc)
  | none => (fc.constants.length, { fc with constants := fc.constants ++ [val] })

def emit (fc : FuncCompiler) (op : Op) : FuncCompiler := { fc with code := fc.code ++ [op] }

/-- Allocate some more registers. -/
def allocMore : Nat → FuncCompiler → FuncCompiler
  | 0, fc => fc
  | count + 1, fc => allocMore count fc.alloc_reg.2

/-- Allocate one register, and the others of a window behind it. -/
def allocWindow (fc : FuncCompiler) (count : Nat) : Nat × FuncCompiler :=
  (fc.alloc_reg.1, allocMore (count - 1) fc.alloc_reg.2)

end FuncCompiler

/-! ### The arguments of a call -/

/-- What the compiler has registered of a function. -/
structure Callee where
  func : FuncIdx
  param_names : Option (List String)
  defaults : Option (List (Option Expr))
  mut_param_indices : List Nat

/-- What is registered of a function of the file. -/
def register (func : FuncIdx) (params : List Param) : Callee where
  func := func
  param_names := some (params.map Param.name)
  defaults :=
    let defaults := params.map Param.default_value
    if defaults.any Option.isSome then some defaults else none
  mut_param_indices := (params.zipIdx.filter fun entry => entry.1.mut_).map fun entry => reg16 entry.2

def isNamed (arg : Expr) : Bool :=
  match arg.unlocated with
  | .namedArg .. => true
  | _ => false

/-- Put the arguments into their slots: a named one into that of its parameter, another one into the
next of those that are filled by position. -/
def placeArgs (pnames : List String) : Nat → List Expr → List (Option Expr) → List (Option Expr)
  | _, [], reordered => reordered
  | pos_idx, arg :: args, reordered =>
      match arg.unlocated with
      | .namedArg name inner =>
          match pnames.findIdx? fun p => p = name with
          | some idx => placeArgs pnames pos_idx args (reordered.set idx (some inner))
          | none => placeArgs pnames pos_idx args reordered
      | _ =>
          if pos_idx < reordered.length then
            placeArgs pnames (pos_idx + 1) args (reordered.set pos_idx (some arg))
          else placeArgs pnames pos_idx args reordered

/-- Fill what is missing with defaults. -/
def fillDefaults (defaults : List (Option Expr)) (reordered : List (Option Expr)) :
    List (Option Expr) :=
  reordered.zipIdx.map fun slot => slot.1.orElse fun _ => (defaults[slot.2]?).join

/-- The argument of each parameter, where the call gives one or the parameter has a default. -/
def argumentSlots (callee : Callee) (args : List Expr) : List (Option Expr) :=
  let few := callee.defaults.isSome && args.length < (callee.param_names.map List.length).getD 0
  if args.any isNamed || few then
    match callee.param_names with
    | some pnames =>
        let reordered := placeArgs pnames 0 args (pnames.map fun _ => none)
        match callee.defaults with
        | some defaults => fillDefaults defaults reordered
        | none => reordered
    | none => args.map some
  else args.map some

/-- The arguments that are compiled, one behind the other. -/
def effective_args (callee : Callee) (args : List Expr) : List Expr :=
  (argumentSlots callee args).filterMap id

/-! ### What a name calls -/

structure BytecodeCompiler where
  func_table : String → Option Callee
  newtype_names : List String

def isLocal (fc : FuncCompiler) (arg : Option Expr) : Bool :=
  match arg.map Expr.unlocated with
  | some (.ident name) => (fc.lookup_var name).isSome
  | _ => false

/-- The calls that are compiled by their names, before any function is looked up. -/
def special_form (bc : BytecodeCompiler) (fc : FuncCompiler) (name : String) (args : List Expr) : Bool :=
  (name = "push" && args.length = 2 && isLocal fc args[0]?) ||
    (name = "pop" && args.length = 1 && isLocal fc args[0]?) ||
    name = "Ok" || name = "Err" || name = "Some" || name = "None" ||
    bc.newtype_names.contains name || (name = "unsafe_cast_protocol" && args.length = 1)

inductive CallTarget where
  /-- The nested function whose body is being compiled. -/
  | selfCall (func : FuncIdx)
  | indirect (callee : Reg)
  | user (callee : Callee)
  /-- A builtin, an extern function or the constructor of a variant. -/
  | other

/-- The order of resolution. -/
def call_target (bc : BytecodeCompiler) (fc : FuncCompiler) (name : String) : CallTarget :=
  match fc.self_call.filter fun entry => entry.1 = name with
  | some (_, self_idx) => .selfCall self_idx
  | none =>
      match fc.lookup_var name with
      | some callee_reg => .indirect callee_reg
      | none =>
          match bc.func_table name with
          | some callee => .user callee
          | none => .other

/-! ### The targets -/

/-- The register of an argument that is a variable. -/
def variableTarget (fc : FuncCompiler) (arg : Option Expr) : Option Reg :=
  match arg.map Expr.unlocated with
  | some (.ident var_name) => fc.lookup_var var_name
  | _ => none

/-- The register of the object and the field of an argument that is a field of a variable. -/
def fieldTarget (fc : FuncCompiler) (arg : Option Expr) : Option (Reg × String) :=
  match arg.map Expr.unlocated with
  | some (.field obj field) =>
      match obj.unlocated with
      | .ident obj_name => (fc.lookup_var obj_name).map fun obj_reg => (obj_reg, field)
      | _ => none
  | _ => none

/-- The loop over the mutate parameters of a function; the names of fields go to the pool. -/
def collectTargets (args : List Expr) :
    List Nat → FuncCompiler → List Reg × List (Reg × ConstIdx) × FuncCompiler
  | [], fc => ([], [], fc)
  | pi :: rest, fc =>
      match fieldTarget fc args[pi]? with
      | some (obj_reg, field) =>
          let added := fc.add_const (.str field)
          let collected := collectTargets args rest added.2
          (collected.1, (obj_reg, added.1) :: collected.2.1, collected.2.2)
      | none =>
          let collected := collectTargets args rest fc
          ((variableTarget fc args[pi]?).toList ++ collected.1, collected.2.1, collected.2.2)

/-- Load the numbers of registers into a window, from the `i`-th on. -/
def loadTargets (base : Nat) : Nat → List Reg → FuncCompiler → FuncCompiler
  | _, [], fc => fc
  | i, t :: targets, fc =>
      let added := fc.add_const (.int t)
      loadTargets base (i + 1) targets (added.2.emit (.loadConst (reg16 (base + i)) added.1))

def loadFieldTargets (base : Nat) : Nat → List (Reg × ConstIdx) → FuncCompiler → FuncCompiler
  | _, [], fc => fc
  | i, (obj_reg, field_idx) :: targets, fc =>
      let obj_slot := reg16 (base + i * 2)
      let field_slot := reg16 (obj_slot + 1)
      let added := fc.add_const (.int obj_reg)
      let fc := added.2.emit (.loadConst obj_slot added.1)
      loadFieldTargets base (i + 1) targets (fc.emit (.loadConst field_slot field_idx))

def setUpTargets (targets : List Reg) (fc : FuncCompiler) : FuncCompiler :=
  if targets.isEmpty then fc
  else
    let window := fc.allocWindow targets.length
    (loadTargets window.1 0 targets window.2).emit (.mutateSetup window.1 (targets.length % 2 ^ 16))

def setUpFieldTargets (field_targets : List (Reg × ConstIdx)) (fc : FuncCompiler) : FuncCompiler :=
  if field_targets.isEmpty then fc
  else
    let window := fc.allocWindow (field_targets.length * 2)
    (loadFieldTargets window.1 0 field_targets window.2).emit
      (.mutateSetupField window.1 (field_targets.length % 2 ^ 16))

/-- What a call of a function of the file emits before its `Call`. -/
def set_up_call (callee : Callee) (args : List Expr) (fc : FuncCompiler) : FuncCompiler :=
  let collected := collectTargets (effective_args callee args) callee.mut_param_indices fc
  setUpFieldTargets collected.2.1 (setUpTargets collected.1 collected.2.2)

/-- The argument of a method for a register of its frame; the receiver is in register 0. -/
def methodArg (args : List Expr) (pi : Nat) : Option Expr :=
  if pi = 0 then none else args[pi - 1]?

/-- What a call of a method of an `impl` emits before its `Call`. -/
def emit_impl_method_mutate_setup (callee : Callee) (args : List Expr) (fc : FuncCompiler) :
    FuncCompiler :=
  setUpTargets
    (callee.mut_param_indices.filterMap fun pi => variableTarget fc (methodArg args pi)) fc

/-! ### The machine -/

/-- The frame of the caller.  It has as many registers as a number of 16 bits can count. -/
structure Frame where
  regs : List Value
  bound : regs.length < 2 ^ 16
  mutate_writebacks : Option (List Reg)
  mutate_field_writebacks : Option (List (Reg × String))

/-- A frame without pending targets. -/
def Frame.fresh (regs : List Value) (bound : regs.length < 2 ^ 16) : Frame := ⟨regs, bound, none, none⟩

def Frame.set (frame : Frame) (rd : Nat) (value : Value) : Frame :=
  { frame with
    regs := frame.regs.set rd value
    bound := (List.length_set).trans_lt frame.bound }

/-- Targets as they are read from registers: `none` for a number that is no register. -/
inductive Reading (α : Type) where
  | error
  /-- A value of another type has been met. -/
  | broken
  | read (targets : List α)
deriving DecidableEq, Repr

def Reading.cons {α : Type} (target : α) : Reading α → Reading α
  | .read targets => .read (target :: targets)
  | other => other

def readTargets (register_count : Nat) : List Value → Reading Reg
  | [] => .read []
  | .int reg :: values =>
      if 0 ≤ reg ∧ reg < register_count then (readTargets register_count values).cons reg.toNat
      else .error
  | _ :: _ => .broken

def readFieldTargets (register_count : Nat) : List Value → Reading (Reg × String)
  | .int obj_reg :: .string field :: values =>
      if 0 ≤ obj_reg ∧ obj_reg < register_count then
        (readFieldTargets register_count values).cons (obj_reg.toNat, field)
      else .error
  | [] => .read []
  | _ => .broken

/-- One instruction; an error has no result. -/
def step (constants : List ConstValue) (op : Op) (frame : Frame) : Option Frame :=
  match op with
  | .loadConst rd idx =>
      if rd < frame.regs.length then
        (constants[idx]?).map fun constant => frame.set rd constant.load
      else none
  | .mutateSetup regs_base count =>
      if frame.regs.length < regs_base + count then none
      else
        match readTargets frame.regs.length ((frame.regs.drop regs_base).take count) with
        | .error => none
        | .broken => some { frame with mutate_writebacks := none }
        | .read [] => some frame
        | .read targets => some { frame with mutate_writebacks := some targets }
  | .mutateSetupField regs_base count =>
      if frame.regs.length < regs_base + count * 2 then none
      else
        match readFieldTargets frame.regs.length ((frame.regs.drop regs_base).take (count * 2)) with
        | .error => none
        | .broken | .read [] => some { frame with mutate_field_writebacks := none }
        | .read targets => some { frame with mutate_field_writebacks := some targets }

def run (constants : List ConstValue) : List Op → Frame → Option Frame
  | [], frame => some frame
  | op :: ops, frame => (step constants op frame).bind (run constants ops)

end Mimi.Interp
