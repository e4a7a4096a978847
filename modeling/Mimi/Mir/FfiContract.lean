/-
Module: Mimi.Mir.FfiContract
Purpose: The predicates of foreign calls: their static checks, the check of their shape at run time, and their
  evaluation.
Trusted boundary: human-reviewed translation of `src/core/mir/contracts.rs`; the projections of the catalog
  and its metadata of copied aggregates are parameters
-/
import Mimi.Lib.CheckedInt
import Mimi.Mir.TypeDesc

namespace Mimi.Mir

open Mimi.Core Mimi.Lib

local instance lawful_arguments : LawfulBEq MirValueId := inferInstance

/-! ### Kinds -/

/-- The catalog as the predicates see it. -/
structure ContractCatalog where
  types : MirTypeCatalog
  projection_result_type : ResolvedTypeId → MirProjection → Except String ResolvedTypeId
  has_canonical_copy_noop_metadata : ResolvedTypeId → Bool

inductive ContractValueKind where
  | int
  | bool
  | float
  | aggregate (ty : ResolvedTypeId)
deriving DecidableEq, Repr

/-- How the classes of values are printed in errors. -/
def MirAbiClass.debug : MirAbiClass → String
  | unit => "Unit"
  | integer bits signed => s!"Integer \x7b bits: {bits}, signed: {signed} \x7d"
  | float bits => s!"Float \x7b bits: {bits} \x7d"
  | bool => "Bool"
  | char => "Char"
  | stringHandle => "StringHandle"
  | setHandle => "SetHandle"
  | opaqueHandle => "OpaqueHandle"
  | pointer => "Pointer"
  | aggregate => "Aggregate"
  | functionPointer => "FunctionPointer"

/-- The integers and booleans of a signature. -/
def scalarOf : MirAbiClass → Option ContractValueKind
  | .integer bits signed => if (bits = 32 ∨ bits = 64) ∧ signed then some .int else none
  | .bool => some .bool
  | _ => none

def verifier_float_boundary_message (ty : ResolvedTypeId) (abi : MirAbiClass) : String :=
  s!"MIR-VERIFIER-FLOAT-001: contract type '{ty.val}' ABI {abi.debug} is outside the canonical scalar " ++
    "verifier contract; finite-only runtime E0813 has no trusted IEEE-754 Float/definedness model"

/-- Tuples and records. -/
def MirLayout.isProduct : MirLayout → Bool
  | .tuple _ | .record _ _ => true
  | _ => false

def MirAbiClass.isFloat : MirAbiClass → Bool
  | .float _ => true
  | _ => false

def type_kind (catalog : ContractCatalog) (ty : ResolvedTypeId) : Except String ContractValueKind := do
  let descriptor ← orError (catalog.types.get ty) s!"contract type '{ty.val}' is absent from MIR TypeDesc"
  match scalarOf descriptor.abi with
  | some kind => return kind
  | none =>
      if descriptor.abi = .float 64 then return .float
      else if descriptor.layout.isProduct && catalog.has_canonical_copy_noop_metadata ty then
        return .aggregate ty
      else if descriptor.layout.isProduct then
        .error s!"contract type '{ty.val}' is outside the canonical Copy aggregate contract"
      else if descriptor.abi.isFloat then .error (verifier_float_boundary_message ty descriptor.abi)
      else
        .error (s!"contract type '{ty.val}' ABI {descriptor.abi.debug} is outside the canonical scalar " ++
          "verifier contract")

/-- `trim_start_matches`; the number bounds the repetitions. -/
def trimStart (start : List Char) : Nat → List Char → List Char
  | 0, text => text
  | n + 1, text => if start.isPrefixOf text then trimStart start n (text.drop start.length) else text

def withoutContract (message : String) : String :=
  String.ofList (trimStart "contract ".toList message.length message.toList)

def value_kind (function : MirFunction) (catalog : ContractCatalog) (value : MirValueId) :
    Except String ContractValueKind := do
  let value ← orError (function.values.find? value) s!"contract value '{value.val}' is absent from MIR values"
  (type_kind catalog value.ty).mapError fun message =>
    s!"contract value '{value.id.val}' {withoutContract message}"

def result_kind (function : MirFunction) (catalog : ContractCatalog) : Except String ContractValueKind :=
  (type_kind catalog function.result).mapError fun message => s!"contract result {withoutContract message}"

def expression_type (function : MirFunction) (catalog : ContractCatalog) :
    MirContractExpr → Except String ResolvedTypeId
  | .value value | .old value =>
      orError ((function.values.find? value).map MirValue.ty)
        s!"contract value '{value.val}' is absent from MIR values"
  | .result => .ok function.result
  | .project base projection => do
      let base_ty ← expression_type function catalog base
      catalog.projection_result_type base_ty projection
  | _ => .error "contract expression has no aggregate projection type"

/-- The kind of a unary operator. -/
def unary_kind : MirContractUnaryOp → ContractValueKind → Except String ContractValueKind
  | .negate, .int => .ok .int
  | .negate, .float => .ok .float
  | .not, .bool => .ok .bool
  | _, _ => .error "contract unary operator has an incompatible scalar operand"

/-- The kind of a binary operator. -/
def binary_kind (op : MirContractBinaryOp) (left right : ContractValueKind) :
    Except String ContractValueKind :=
  match op with
  | .add | .subtract | .multiply | .divide | .remainder =>
      if left = .int ∧ right = .int then .ok .int
      else if left = .float ∧ right = .float ∧ op ≠ .remainder then .ok .float
      else .error "contract arithmetic requires integer operands"
  | .logicalAnd | .logicalOr =>
      if left = .bool ∧ right = .bool then .ok .bool
      else .error "contract logical operator requires boolean operands"
  | .equal | .notEqual =>
      if (left = .int ∧ right = .int) ∨ (left = .bool ∧ right = .bool) ∨ (left = .float ∧ right = .float)
      then .ok .bool
      else .error "contract equality operands have incompatible scalar types"
  | .less | .greater | .lessEqual | .greaterEqual =>
      if (left = .int ∧ right = .int) ∨ (left = .float ∧ right = .float) then .ok .bool
      else .error "contract ordering requires integer or finite-float operands"

def ContractValueKind.isAggregate : ContractValueKind → Bool
  | aggregate _ => true
  | _ => false

def expr_kind (function : MirFunction) (catalog : ContractCatalog) :
    MirContractExpr → Except String ContractValueKind
  | .value value | .old value => value_kind function catalog value
  | .result => result_kind function catalog
  | .project base projection => do
      let base_ty ← expression_type function catalog base
      let kind ← type_kind catalog base_ty
      reject (!kind.isAggregate) "contract projection base must be a Copy tuple or record"
      let result_ty ← catalog.projection_result_type base_ty projection
      type_kind catalog result_ty
  | .int _ => .ok .int
  | .bool _ => .ok .bool
  | .float _ => .ok .float
  | .unary op operand => do
      let kind ← expr_kind function catalog operand
      unary_kind op kind
  | .binary op left right => do
      let left_kind ← expr_kind function catalog left
      let right_kind ← expr_kind function catalog right
      binary_kind op left_kind right_kind

/-! ### Static checks -/

/-- `matches!(…, Ok(ContractValueKind::Float))`. -/
def isFloatKind : Except String ContractValueKind → Bool
  | .ok .float => true
  | _ => false

def contains_float_leaf (function : MirFunction) (catalog : ContractCatalog) : MirContractExpr → Bool
  | .value value => isFloatKind (value_kind function catalog value)
  | .float _ => true
  | .unary _ operand => contains_float_leaf function catalog operand
  | .binary _ left right =>
      contains_float_leaf function catalog left || contains_float_leaf function catalog right
  | .int _ | .bool _ | .result | .old _ | .project _ _ => false

/-- The leaves that a predicate may have, and the errors of the others. -/
def validate_leaves (known : MirValueId → Bool) (unknown : MirValueId → String) (unsupported : String) :
    MirContractExpr → Except String Unit
  | .value value => if known value then .ok () else .error (unknown value)
  | .int _ | .bool _ | .float _ => .ok ()
  | .unary _ operand => validate_leaves known unknown unsupported operand
  | .binary _ left right => do
      validate_leaves known unknown unsupported left
      validate_leaves known unknown unsupported right
  | .result | .old _ | .project _ _ => .error unsupported

/-- The part of the receipt of a foreign call that its predicates look at. -/
structure MirFfiCallContract where
  arguments : List MirValueId
  result : Option MirValueId
  requires : Option MirContractExpr
  ensures : Option MirContractExpr
deriving DecidableEq, Repr

def requires_leaves (arguments : List MirValueId) : MirContractExpr → Except String Unit :=
  validate_leaves (fun value => decide (value ∈ arguments))
    (fun value => s!"extern requires value '{value.val}' is not a call argument")
    "extern requires must use pre-call scalar arguments, without result/old/projection"

def ensures_leaves (arguments : List MirValueId) (result : Option MirValueId) :
    MirContractExpr → Except String Unit :=
  validate_leaves (fun value => decide (value ∈ arguments ∨ result = some value))
    (fun value => s!"extern ensures value '{value.val}' is neither a call argument nor the call result")
    ("extern ensures must use scalar call arguments/result, without old/result marker/" ++
      "projection")

def validate_ffi_requires (function : MirFunction) (catalog : ContractCatalog)
    (receipt : MirFfiCallContract) : Except String Unit :=
  match receipt.requires with
  | none => .ok ()
  | some condition => do
      requires_leaves receipt.arguments condition
      reject (contains_float_leaf function catalog condition)
        "extern requires float leaves are outside the runtime FFI predicate contract"
      let kind ← expr_kind function catalog condition
      reject (kind ≠ .bool) "extern requires condition must be boolean"

def validate_ffi_ensures (function : MirFunction) (catalog : ContractCatalog)
    (receipt : MirFfiCallContract) : Except String Unit :=
  match receipt.ensures with
  | none => .ok ()
  | some condition => do
      ensures_leaves receipt.arguments receipt.result condition
      reject (contains_float_leaf function catalog condition)
        "extern ensures float leaves are outside the runtime FFI predicate contract"
      let kind ← expr_kind function catalog condition
      reject (kind ≠ .bool) "extern ensures condition must be boolean"

/-! ### The check at run time -/

inductive RuntimeContractKind where
  | int
  | bool
deriving DecidableEq, Repr

inductive FfiPhase where
  | precondition
  | postcondition
deriving DecidableEq, Repr

def FfiPhase.text : FfiPhase → String
  | precondition => "precondition"
  | postcondition => "postcondition"

def scalar_kind (abi : MirAbiClass) (phase : FfiPhase) : Except String RuntimeContractKind :=
  match scalarOf abi with
  | some .int => .ok .int
  | some .bool => .ok .bool
  | _ => .error s!"extern {phase.text} value ABI {abi.debug} is outside the scalar predicate contract"

/-- The identities and the classes of the values of a call. -/
structure FfiSignature where
  arguments : List MirValueId
  argument_abis : List MirAbiClass
  result : Option MirValueId
  result_abi : MirAbiClass
deriving DecidableEq, Repr

def value_runtime_kind (call : FfiSignature) (phase : FfiPhase) (value : MirValueId) :
    Except String RuntimeContractKind :=
  match call.arguments.findIdx? fun argument => argument = value with
  | some index => do
      let abi ← orError call.argument_abis[index]?
        s!"extern {phase.text} argument ABI metadata is absent at index {index}"
      scalar_kind abi phase
  | none =>
      if phase = .postcondition ∧ call.result = some value then scalar_kind call.result_abi phase
      else if phase = .precondition then
        .error s!"extern requires value '{value.val}' is not a call argument"
      else
        .error s!"extern ensures value '{value.val}' is neither a call argument nor the call result"

def unary_runtime_kind (phase : FfiPhase) :
    MirContractUnaryOp → RuntimeContractKind → Except String RuntimeContractKind
  | .negate, .int => .ok .int
  | .not, .bool => .ok .bool
  | _, _ => .error s!"extern {phase.text} unary operator has an incompatible scalar operand"

def binary_runtime_kind (phase : FfiPhase) (op : MirContractBinaryOp) (left right : RuntimeContractKind) :
    Except String RuntimeContractKind :=
  match op with
  | .add | .subtract | .multiply | .divide | .remainder =>
      if left = .int ∧ right = .int then .ok .int
      else .error s!"extern {phase.text} arithmetic requires integer operands"
  | .logicalAnd | .logicalOr =>
      if left = .bool ∧ right = .bool then .ok .bool
      else .error s!"extern {phase.text} logical operator requires boolean operands"
  | .equal | .notEqual =>
      if left = right then .ok .bool
      else .error s!"extern {phase.text} equality operands have incompatible scalar types"
  | .less | .greater | .lessEqual | .greaterEqual =>
      if left = .int ∧ right = .int then .ok .bool
      else .error s!"extern {phase.text} ordering requires integer operands"

def expression_kind (call : FfiSignature) (phase : FfiPhase) :
    MirContractExpr → Except String RuntimeContractKind
  | .value value => value_runtime_kind call phase value
  | .int _ => .ok .int
  | .bool _ => .ok .bool
  | .float _ => .error s!"extern {phase.text} predicate cannot evaluate float literals"
  | .unary op operand => do
      let kind ← expression_kind call phase operand
      unary_runtime_kind phase op kind
  | .binary op left right => do
      let left_kind ← expression_kind call phase left
      let right_kind ← expression_kind call phase right
      binary_runtime_kind phase op left_kind right_kind
  | .result | .old _ | .project _ _ =>
      .error (s!"extern {phase.text} must use scalar call arguments/result, without old/result marker/" ++
        "projection")

/-- The check of one predicate. -/
def validate_condition (call : FfiSignature) (phase : FfiPhase) :
    Option MirContractExpr → Except String Unit
  | none => .ok ()
  | some condition => do
      let kind ← expression_kind call phase condition
      reject (kind ≠ .bool) s!"extern {phase.text} condition must be boolean"

def validate_ffi_runtime_contracts (requires ensures : Option MirContractExpr) (call : FfiSignature) :
    Except String Unit := do
  reject (call.arguments.length ≠ call.argument_abis.length)
    "extern FFI runtime argument ABI metadata arity mismatch"
  validate_condition call .precondition requires
  validate_condition call .postcondition ensures

/-! ### Evaluation -/

inductive MirContractScalar where
  | int (value : Int)
  | bool (value : Bool)
deriving DecidableEq, Repr

inductive MirFfiContractError where
  | invalid (message : String)
  | violation
  | overflow
  | divisionByZero
deriving DecidableEq, Repr

/-- `.map(Int).ok_or(Overflow)`. -/
def intOrOverflow (value : Option Int) : Except MirFfiContractError MirContractScalar :=
  orError (value.map .int) .overflow

def evaluate_unary (phase : FfiPhase) :
    MirContractUnaryOp → MirContractScalar → Except MirFfiContractError MirContractScalar
  | .not, .bool value => .ok (.bool (!value))
  | .negate, .int value => intOrOverflow (checked_neg 64 value)
  | _, _ => .error (.invalid s!"FFI {phase.text} unary operand type mismatch")

/-- What the left operand decides. -/
def shortCircuit : MirContractBinaryOp → MirContractScalar → Option MirContractScalar
  | .logicalAnd, .bool false => some (.bool false)
  | .logicalOr, .bool true => some (.bool true)
  | _, _ => none

def evaluate_binary (phase : FfiPhase) (op : MirContractBinaryOp) :
    MirContractScalar → MirContractScalar → Except MirFfiContractError MirContractScalar
  | .int a, .int b =>
      match op with
      | .add => intOrOverflow (checked_add 64 a b)
      | .subtract => intOrOverflow (checked_sub 64 a b)
      | .multiply => intOrOverflow (checked_mul 64 a b)
      | .divide => if b = 0 then .error .divisionByZero else intOrOverflow (checked_div 64 a b)
      | .remainder => if b = 0 then .error .divisionByZero else intOrOverflow (checked_rem 64 a b)
      | .equal => .ok (.bool (a = b))
      | .notEqual => .ok (.bool (a ≠ b))
      | .less => .ok (.bool (a < b))
      | .lessEqual => .ok (.bool (a ≤ b))
      | .greater => .ok (.bool (a > b))
      | .greaterEqual => .ok (.bool (a ≥ b))
      | .logicalAnd | .logicalOr =>
          .error (.invalid s!"FFI {phase.text} binary operand type mismatch")
  | .bool a, .bool b =>
      match op with
      | .equal => .ok (.bool (a = b))
      | .notEqual => .ok (.bool (a ≠ b))
      | .logicalAnd => .ok (.bool (a && b))
      | .logicalOr => .ok (.bool (a || b))
      | _ => .error (.invalid s!"FFI {phase.text} binary operand type mismatch")
  | _, _ => .error (.invalid s!"FFI {phase.text} binary operand type mismatch")

def evaluate (phase : FfiPhase) (argument : MirValueId → Except String MirContractScalar) :
    MirContractExpr → Except MirFfiContractError MirContractScalar
  | .value id => (argument id).mapError .invalid
  | .int value => .ok (.int value)
  | .bool value => .ok (.bool value)
  | .float _ => .error (.invalid s!"FFI {phase.text} predicate cannot evaluate float leaves")
  | .unary op operand => do
      let value ← evaluate phase argument operand
      evaluate_unary phase op value
  | .binary op left right => do
      let a ← evaluate phase argument left
      match shortCircuit op a with
      | some decided => return decided
      | none => do
          let b ← evaluate phase argument right
          evaluate_binary phase op a b
  | .result | .old _ | .project _ _ => .error (.invalid s!"unsupported FFI {phase.text} expression")

/-- The verdict on the value of a predicate. -/
def ffi_verdict (phase : FfiPhase) : MirContractScalar → Except MirFfiContractError Unit
  | .bool true => .ok ()
  | .bool false => .error .violation
  | .int _ => .error (.invalid s!"FFI {phase.text} must return bool")

def evaluate_ffi_contract (phase : FfiPhase) (condition : MirContractExpr)
    (argument : MirValueId → Except String MirContractScalar) : Except MirFfiContractError Unit := do
  let value ← evaluate phase argument condition
  ffi_verdict phase value

def evaluate_ffi_requires : MirContractExpr → (MirValueId → Except String MirContractScalar) →
    Except MirFfiContractError Unit := evaluate_ffi_contract .precondition

def evaluate_ffi_ensures : MirContractExpr → (MirValueId → Except String MirContractScalar) →
    Except MirFfiContractError Unit := evaluate_ffi_contract .postcondition

end Mimi.Mir
