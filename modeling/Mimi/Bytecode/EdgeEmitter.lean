/-
Module: Mimi.Bytecode.EdgeEmitter
Purpose: The part of the canonical adapter from the middle-level representation to bytecode that assigns
  registers and emits terminators: conditional edges, switches, and the transfer of values along edges.
Trusted boundary: human-reviewed translation of `src/interp/bytecode/mir.rs`.  What a routine emits is part of
  its result, so a jump over it is patched at once; the emission stops at the first error, as code with an
  error never leaves the adapter
-/
import Mimi.Bytecode.Transfer
import Mimi.Lib.Fallible
import Mimi.Mir.TypeDesc

namespace Mimi.Bytecode

open Mimi.Core Mimi.Mir Mimi.Lib

/-! ### Registers -/

/-- The VM calling convention puts parameters first; the other values follow in the order of the catalog. -/
def assign_registers (function : MirFunction) : Except String ((MirValueId → Option Reg) × Reg) := do
  reject (65535 < function.values.keys.length) "MIR value catalog exceeds bytecode register ABI"
  let parameters : MirValueId → Option Reg := function.parameters.zipIdx.foldl
    (fun registers entry => Function.update registers entry.1 (some entry.2)) fun _ => none
  function.values.keys.foldlM (fun state value =>
    if (state.1 value).isSome then .ok state
    else do
      reject (65535 ≤ state.2) "MIR bytecode register allocation exceeds u16 ABI"
      return (Function.update state.1 value (some state.2), state.2 + 1))
    (parameters, function.parameters.length)

/-! ### Emission -/

/-- What a routine returns, the code that it emits and the next register after it. -/
structure Emitted (α : Type) where
  value : α
  code : List Op
  next : Reg
deriving DecidableEq

/-- A routine of the emitter, from the next register on. -/
def Emit (α : Type) := Reg → Except String (Emitted α)

instance : Monad Emit where
  pure value next := .ok ⟨value, [], next⟩
  bind first rest next := do
    let a ← first next
    let b ← rest a.value a.next
    return ⟨b.value, a.code ++ b.code, b.next⟩

def emit (op : Op) : Emit Unit := fun next => .ok ⟨(), [op], next⟩

def alloc_reg : Emit Reg := fun next =>
  if next < 65535 then .ok ⟨next, [], next + 1⟩
  else .error "MIR bytecode register allocation exceeds u16 ABI"

def failWith {α : Type} (message : String) : Emit α := fun _ => .error message

/-- What does not emit. -/
def lift {α : Type} (result : Except String α) : Emit α := fun next =>
  match result with
  | .ok value => .ok ⟨value, [], next⟩
  | .error message => .error message

/-- Emit a conditional jump over what a routine emits. -/
def emitUnless (condition : Reg) (body : Emit Unit) : Emit Unit := fun next => do
  let emitted ← body next
  reject (2147483647 < emitted.code.length) "conditional branch jump patch failed"
  return { emitted with code := .jmpIfNot emitted.code.length condition :: emitted.code }

/-- What the routines below read. -/
structure Emitter where
  function : MirFunction
  catalog : MirTypeCatalog
  registers : MirValueId → Option Reg

namespace Emitter

variable (self : Emitter)

def reg (value : MirValueId) : Emit Reg :=
  lift (orError (self.registers value) s!"value '{value.val}' has no bytecode register")

def u16_abi (value : Nat) (role : String) : Emit Nat :=
  if value ≤ 65535 then pure value else failWith s!"{role} {value} exceeds bytecode u16 ABI"

def offset_reg (base offset : Nat) (role : String) : Emit Reg :=
  if 65535 < offset then failWith s!"{role} register offset {offset} exceeds bytecode register ABI"
  else if 65535 < base + offset then
    failWith s!"{role} register index overflow (base {base}, offset {offset})"
  else pure (base + offset)

/-- A run of registers; there is always a first one. -/
def allocWindow (count : Nat) : Emit Reg := do
  let base ← alloc_reg
  (List.range (count - 1)).forM fun _ => do let _ ← alloc_reg
  return base

def valueType (value : MirValueId) (role : String) : Emit ResolvedTypeId :=
  lift (orError ((self.function.values.find? value).map MirValue.ty) s!"edge {role} '{value.val}' is absent")

/-! ### Transfers -/

/-- The glue with which a value can be moved. -/
def canonicalMove : MirGlueKind → Bool
  | .ownedString | .list | .set | .aggregate | .session => true
  | _ => false

def emit_value_transfer (rd rs : Reg) (ty : ResolvedTypeId) : Emit Unit := do
  let desc ← lift (orError (self.catalog.get ty) s!"transfer type '{ty.val}' has no TypeDesc")
  lift ((self.catalog.supported_type ty).mapError fun message =>
    s!"transfer type '{ty.val}' is unsupported: {message}")
  if desc.ownership = .copy then emit (.mov rd rs)
  else if canonicalMove desc.glue.moveOut then emit (.move rd rs)
  else failWith s!"transfer type '{ty.val}' has no canonical move glue"

/-- The target of an edge, if it takes as many values as the edge passes. -/
def edgeTarget (target : MirBlockId) (arity : Nat) : Emit MirBlock := do
  let block ← lift (orError (self.function.blocks.find? target) s!"edge target '{target.val}' is absent")
  if block.parameters.length ≠ arity then failWith s!"edge to '{target.val}' has wrong argument arity"
  else pure block

/-- Bring an argument to a register of its own. -/
def stageArgument (argument : MirValueId) : Emit Reg := do
  let source ← self.reg argument
  let temp ← alloc_reg
  let ty ← self.valueType argument "argument"
  self.emit_value_transfer temp source ty
  return temp

/-- Bring the arguments to registers of their own, one after another. -/
def stageArguments : List MirValueId → Emit (List Reg)
  | [] => pure []
  | argument :: arguments => do
      let temp ← self.stageArgument argument
      let temps ← stageArguments arguments
      return temp :: temps

/-- Bring a value to a parameter of the target. -/
def unloadParameter (source : Reg) (parameter : MirBlockParameter) : Emit Unit := do
  let destination ← self.reg parameter.value
  let ty ← self.valueType parameter.value "parameter"
  self.emit_value_transfer destination source ty

/-- Bring the values to the parameters, one after another. -/
def unloadParameters : List Reg → List MirBlockParameter → Emit Unit
  | source :: sources, parameter :: parameters => do
      self.unloadParameter source parameter
      unloadParameters sources parameters
  | _, _ => pure ()

def emit_edge_arguments (target : MirBlockId) (arguments : List MirValueId) : Emit Unit := do
  let block ← self.edgeTarget target arguments.length
  let scratch ← self.stageArguments arguments
  self.unloadParameters scratch block.parameters

/-! ### Variants -/

/-- The shapes of the variants, each with an arity that fits. -/
def variantShapes (nominal : NominalTypeId) : List MirVariantDesc → Except String (List VariantShape)
  | [] => .ok []
  | variant :: variants => do
      reject (65535 < variant.fields.length)
        s!"variant '{variant.name}' in '{nominal.val}' exceeds bytecode payload ABI"
      let shapes ← variantShapes nominal variants
      return {
        nominal := nominal
        variant := variant.id
        tag := variant.name
        discriminant := variant.discriminant
        arity := variant.fields.length } :: shapes

def emit_variant_shape_table (ty : ResolvedTypeId) : Emit (List VariantShape) := do
  let table ← lift ((self.catalog.validated_variant_shape_table ty).mapError fun message =>
    s!"variant shape table type '{ty.val}' is unsupported: {message}")
  let nominal ← lift (orError (StableId.new table.1) s!"variant shape table nominal '{table.1}' is invalid")
  lift (variantShapes nominal table.2)

def emit_variant_drop_shape_table (ty : ResolvedTypeId) : Emit (List VariantShape) := do
  let _ ← lift ((self.catalog.validated_variant_drop_contract_table ty).mapError fun message =>
    s!"variant drop type '{ty.val}' is unsupported: {message}")
  self.emit_variant_shape_table ty

def emit_drop_variant (register : Reg) (ty : ResolvedTypeId) : Emit Unit := do
  let shapes ← self.emit_variant_drop_shape_table ty
  emit (.dropVariant register shapes)

/-- Release the value of a register, by the drop glue of its type. -/
def emit_drop_register (register : Reg) (ty : ResolvedTypeId) : Emit Unit := do
  let descriptor ← lift (orError (self.catalog.get ty) s!"drop register type '{ty.val}' is absent")
  if descriptor.ownership = .copy then
    lift ((self.catalog.validate_copy_value ty).mapError fun message =>
      s!"drop register type '{ty.val}' is unsupported: {message}")
  else
    match descriptor.glue.drop with
    | .ownedString | .list | .set => emit (.drop register)
    | .aggregate =>
        match descriptor.layout with
        | .tuple elements => do
            let arity ← u16_abi elements.length "drop register tuple arity"
            emit (.dropAggregate register arity)
        | .record _ fields => do
            let arity ← u16_abi fields.length "drop register record arity"
            emit (.dropAggregate register arity)
        | .option _ _ | .result _ _ _ => self.emit_drop_variant register ty
        | _ => failWith s!"drop register type '{ty.val}' has unsupported aggregate layout"
    | .noop => pure ()
    | .session => failWith s!"drop register type '{ty.val}' requires an explicit SessionCall"
    | .mapRoot => failWith s!"drop register type '{ty.val}' requires a dedicated MapRoot operation"
    | .unsupported => failWith s!"drop register type '{ty.val}' has no canonical drop glue"

/-- The parameter of the target that a binding names; its receipt agrees with the variant. -/
def bindingParameter (block : MirBlock) (index : Nat) (binding : MirSwitchBinding)
    (nominal : String) (variant : MirVariantDesc) : Emit Unit := do
  let parameter ← lift (orError block.parameters[index]? "switch binding target type is absent")
  let ty ← self.valueType parameter.value "parameter"
  if binding.projection.variant ≠ variant.id ∨ binding.projection.nominal.val ≠ nominal ∨
      (binding.nestedTuple.isNone ∧ binding.projection.fieldTy ≠ ty) ∨
      binding.projection.arity ≠ variant.fields.length then
    failWith "variant payload projection receipt disagrees with TypeDesc"
  else if binding.parameter ≠ parameter.value then
    failWith "switch binding parameter disagrees with target block parameter"
  else pure ()

/-- Project the payloads that a reading switch binds, each to a register of its own. -/
def projectBindings (block : MirBlock) (nominal : String) (variant : MirVariantDesc) (scrutinee : Reg)
    (shapes : List VariantShape) : Nat → List MirSwitchBinding → Emit (List Reg)
  | _, [] => pure []
  | index, binding :: bindings => do
      self.bindingParameter block index { binding with nestedTuple := none } nominal variant
      let field ← u16_abi binding.projection.fieldIndex "variant payload index"
      let scratch ← alloc_reg
      emit (.variantGet scratch scrutinee field variant.name shapes)
      let rest ← projectBindings block nominal variant scrutinee shapes (index + 1) bindings
      return scratch :: rest

def emit_variant_edge_arguments (target : MirBlockId) (arguments : List MirValueId)
    (bindings : List MirSwitchBinding) (scrutinee_ty : ResolvedTypeId) (scrutinee : Reg)
    (variant : MirVariantDesc) : Emit Unit := do
  let block ← self.edgeTarget target (arguments.length + bindings.length)
  let shapes ← self.emit_variant_shape_table scrutinee_ty
  let layout ← lift (orError (self.catalog.variant_layout scrutinee_ty)
    "variant payload projection has no canonical nominal")
  let staged ← self.stageArguments arguments
  let projected ← self.projectBindings block layout.1 variant scrutinee shapes arguments.length bindings
  self.unloadParameters (staged ++ projected) block.parameters

/-- Release the fields that nothing binds, the last one first. -/
def dropUnbound (payload_base : Reg) (bindings : List MirSwitchBinding) :
    List (MirFieldDesc × Nat) → Emit Unit
  | [] => pure ()
  | (field, index) :: fields => do
      dropUnbound payload_base bindings fields
      if bindings.any fun binding => binding.projection.field = field.id then pure ()
      else do
        let field_reg ← offset_reg payload_base index "variant payload"
        self.emit_drop_register field_reg field.ty

/-- Take the tuples apart whose elements are bound; the result is where the elements of each are. -/
def destructureNested (block : MirBlock) (scrutinee_ty : ResolvedTypeId) (variant : MirVariantDesc)
    (payload_base : Reg) : Nat → List MirSwitchBinding → (Nat → Option Reg) → Emit (Nat → Option Reg)
  | _, [], nested_bases => pure nested_bases
  | index, binding :: bindings, nested_bases =>
      match binding.nestedTuple with
      | none => destructureNested block scrutinee_ty variant payload_base (index + 1) bindings nested_bases
      | some nested => do
          let parameter ← lift (orError block.parameters[index]?
            "nested tuple binding target type is absent")
          let ty ← self.valueType parameter.value "parameter"
          lift (self.catalog.validate_variant_nested_tuple_payload_projection_receipt scrutinee_ty
            variant.id ty binding.projection nested)
          if (nested_bases binding.projection.fieldIndex).isSome then
            destructureNested block scrutinee_ty variant payload_base (index + 1) bindings nested_bases
          else do
            let tuple_desc ← lift (orError (self.catalog.get nested.tupleTy)
              "nested tuple binding TypeDesc is absent")
            let elements ← lift (orError (MirTypeCatalog.tupleElements tuple_desc)
              "nested tuple binding TypeDesc has no tuple layout")
            let arity ← u16_abi elements.length "nested tuple payload arity"
            let tuple_base ← allocWindow elements.length
            let tuple_source ← offset_reg payload_base binding.projection.fieldIndex
              "nested variant payload"
            emit (.destructureTupleMove tuple_source tuple_base arity elements)
            destructureNested block scrutinee_ty variant payload_base (index + 1) bindings
              (Function.update nested_bases binding.projection.fieldIndex (some tuple_base))

/-- The registers in which the bound payloads are. -/
def payloadSources (block : MirBlock) (nominal : String) (variant : MirVariantDesc) (payload_base : Reg)
    (nested_bases : Nat → Option Reg) : Nat → List MirSwitchBinding → Emit (List Reg)
  | _, [] => pure []
  | index, binding :: bindings => do
      self.bindingParameter block index binding nominal variant
      let source ← match binding.nestedTuple with
        | some nested => do
            let tuple_base ← lift (orError (nested_bases binding.projection.fieldIndex)
              "nested tuple base was not materialized")
            offset_reg tuple_base nested.fieldIndex "nested tuple"
        | none => offset_reg payload_base binding.projection.fieldIndex "variant payload"
      let rest ← payloadSources block nominal variant payload_base nested_bases (index + 1) bindings
      return source :: rest

def emit_variant_move_edge_arguments (target : MirBlockId) (arguments : List MirValueId)
    (bindings : List MirSwitchBinding) (scrutinee_ty : ResolvedTypeId) (scrutinee : Reg)
    (variant : MirVariantDesc) : Emit Unit :=
  if bindings.isEmpty then do
    self.emit_edge_arguments target arguments
    self.emit_drop_variant scrutinee scrutinee_ty
  else do
    let block ← self.edgeTarget target (arguments.length + bindings.length)
    let staged ← self.stageArguments arguments
    let arity ← u16_abi variant.fields.length "variant payload arity"
    let layout ← lift (orError (self.catalog.variant_layout scrutinee_ty)
      "variant payload projection has no canonical nominal")
    let shapes ← self.emit_variant_shape_table scrutinee_ty
    let payload_base ← allocWindow variant.fields.length
    emit (.destructureVariantMove scrutinee payload_base arity variant.name shapes)
    self.dropUnbound payload_base bindings variant.fields.zipIdx
    let nested_bases ← self.destructureNested block scrutinee_ty variant payload_base arguments.length
      bindings fun _ => none
    let payload ← self.payloadSources block layout.1 variant payload_base nested_bases arguments.length
      bindings
    self.unloadParameters (staged ++ payload) block.parameters

/-! ### Switches -/

/-- An edge that ends in a jump to its target. -/
def edgeTo (target : MirBlockId) (arguments : Emit Unit) : Emit Unit := do
  arguments
  emit (.jmp target)

/-- Compare the scrutinee with a literal. -/
def literalTest (scrutinee_reg : Reg) : Mir.ResolvedLiteral → Emit Reg
  | .int value => do
      let condition ← alloc_reg
      let const_reg ← alloc_reg
      emit (.loadConst const_reg value)
      emit (.eqInt condition scrutinee_reg const_reg)
      return condition
  | .bool value => do
      let condition ← alloc_reg
      let const_reg ← alloc_reg
      emit (if value then .loadTrue const_reg else .loadFalse const_reg)
      emit (.eq condition scrutinee_reg const_reg)
      return condition
  | _ => failWith "scalar switch case is outside the scrutinee ABI"

/-- The default arm of a scalar switch, behind its last literal. -/
def literalDefault (arms : List MirSwitchArm) : Emit Unit :=
  match arms.find? fun arm => arm.case = .default with
  | some default_arm =>
      edgeTo default_arm.target (self.emit_edge_arguments default_arm.target default_arm.arguments)
  | none => emit (.trap "[E0800] canonical MIR scalar switch has no matching arm")

/-- The literal arms of a scalar switch, and what comes behind the last one. -/
def literalArms (scrutinee_reg : Reg) (arms : List MirSwitchArm) : List MirSwitchArm → Emit Unit
  | [] => self.literalDefault arms
  | arm :: rest =>
      match arm.case with
      | .literal literal => do
          let condition ← literalTest scrutinee_reg literal
          emitUnless condition (edgeTo arm.target (self.emit_edge_arguments arm.target arm.arguments))
          literalArms scrutinee_reg arms rest
      | _ => literalArms scrutinee_reg arms rest

def emit_literal_switch (scrutinee_reg : Reg) (scrutinee_ty : ResolvedTypeId)
    (arms : List MirSwitchArm) : Emit Unit := do
  lift ((self.catalog.supported_type scrutinee_ty).mapError fun message =>
    s!"scalar switch scrutinee is unsupported: {message}")
  lift ((self.catalog.validate_scalar_switch scrutinee_ty arms).mapError fun message =>
    s!"scalar switch is invalid: {message}")
  self.literalArms scrutinee_reg arms arms

/-- The arms of a variant switch in turn. -/
def variantArms (consume_scrutinee : Bool) (scrutinee_ty : ResolvedTypeId) (scrutinee_reg : Reg) :
    List MirSwitchArm → Emit Unit
  | [] => pure ()
  | arm :: arms => do
      match arm.case with
      | .variant variant => do
          let case_ ← lift (self.catalog.validated_variant_switch_case scrutinee_ty variant)
          let condition ← alloc_reg
          emit (.isVariant condition scrutinee_reg case_.2.name)
          emitUnless condition (edgeTo arm.target (
            if consume_scrutinee then
              self.emit_variant_move_edge_arguments arm.target arm.arguments arm.bindings scrutinee_ty
                scrutinee_reg case_.2
            else
              self.emit_variant_edge_arguments arm.target arm.arguments arm.bindings scrutinee_ty
                scrutinee_reg case_.2))
      | .default =>
          edgeTo arm.target do
            self.emit_edge_arguments arm.target arm.arguments
            if consume_scrutinee then self.emit_drop_variant scrutinee_reg scrutinee_ty
            else pure ()
      | .literal _ => failWith "literal switch case is invalid for canonical variant nominal"
      variantArms consume_scrutinee scrutinee_ty scrutinee_reg arms

def emit_switch (scrutinee : MirValueId) (arms : List MirSwitchArm) (consume_scrutinee : Bool) :
    Emit Unit := do
  let scrutinee_reg ← self.reg scrutinee
  let scrutinee_ty ← self.valueType scrutinee "scrutinee"
  if !consume_scrutinee && arms.any fun arm => arm.case.isLiteral then
    self.emit_literal_switch scrutinee_reg scrutinee_ty arms
  else do
    let _ ← lift (orError (self.catalog.variant_layout scrutinee_ty)
      "switch has no canonical variant layout")
    lift ((self.catalog.supported_type scrutinee_ty).mapError fun message =>
      s!"switch scrutinee is unsupported: {message}")
    lift (((if consume_scrutinee then
        self.catalog.validate_variant_switch_move_contract scrutinee_ty arms
      else self.catalog.validate_switch scrutinee_ty arms)).mapError fun message =>
        s!"switch is invalid: {message}")
    if arms.isEmpty then failWith "variant switch has no arms"
    else self.variantArms consume_scrutinee scrutinee_ty scrutinee_reg arms

/-- The code of a terminator; whether a trap code is valid is checked by the program. -/
def emit_terminator (validate_trap_code : String → Except String Unit) (terminator : MirTerminator) :
    Emit Unit :=
  match terminator with
  | .goto _ target arguments => edgeTo target (self.emit_edge_arguments target arguments)
  | .branch condition _ then_target then_arguments _ else_target else_arguments => do
      let condition ← self.reg condition
      emitUnless condition (edgeTo then_target (self.emit_edge_arguments then_target then_arguments))
      edgeTo else_target (self.emit_edge_arguments else_target else_arguments)
  | .return_ (some value) => do
      let register ← self.reg value
      emit (.ret register)
  | .return_ none => emit .retUnit
  | .switch scrutinee arms => self.emit_switch scrutinee arms false
  | .switchMove scrutinee arms => self.emit_switch scrutinee arms true
  | .trap code => do
      lift ((validate_trap_code code).mapError fun message => s!"trap terminator is invalid: {message}")
      emit (.trap s!"trap {code}")
  | .fault _ => failWith "fault terminators are deferred to flow lowering"
  | .unreachable => failWith "unreachable terminator is not executable bytecode"

end Emitter

end Mimi.Bytecode
