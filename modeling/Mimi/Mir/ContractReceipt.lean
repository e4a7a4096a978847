/-
Module: Mimi.Mir.ContractReceipt
Purpose: How a resolved condition becomes a contract predicate, how the types of its nodes are recorded under
  their paths, and the check of such a receipt.
Trusted boundary: human-reviewed translation of `src/core/mir/contracts.rs`; the scalar metadata of a type
  descriptor is a parameter, and resolved expressions that no predicate may have carry their printed form only
-/
import Mimi.Mir.FfiContract

namespace Mimi.Mir

open Mimi.Core Mimi.Lib

def MirContractBinaryOp.from_resolved : ResolvedBinaryOp → Option MirContractBinaryOp
  | .add => some .add
  | .subtract => some .subtract
  | .multiply => some .multiply
  | .divide => some .divide
  | .remainder => some .remainder
  | .equal => some .equal
  | .notEqual => some .notEqual
  | .less => some .less
  | .greater => some .greater
  | .lessEqual => some .lessEqual
  | .greaterEqual => some .greaterEqual
  | .logicalAnd => some .logicalAnd
  | .logicalOr => some .logicalOr
  | .power | .bitAnd | .bitOr | .bitXor | .shiftLeft | .shiftRight => none

namespace ContractReceipt

/-! ### Resolved conditions -/

/-- An index is rejected unseen. -/
inductive ResolvedValueProjection where
  | field (field : NodeId)
  | tuple (index : Nat)
  | index
  | dereference
deriving DecidableEq, Repr

/-- A resolved expression with the type of every node. -/
inductive ResolvedExpr where
  | int (value : Int) (ty : ResolvedTypeId)
  | bool (value : Bool) (ty : ResolvedTypeId)
  | floatBits (bits : Nat) (ty : ResolvedTypeId)
  | load (place : ResolvedPlace) (ty : ResolvedTypeId)
  | old (inner : ResolvedExpr) (ty : ResolvedTypeId)
  | project (value : ResolvedExpr) (projection : ResolvedValueProjection) (ty : ResolvedTypeId)
  | unary (op : ResolvedUnaryOp) (operand : ResolvedExpr) (ty : ResolvedTypeId)
  | binary (op : ResolvedBinaryOp) (left right : ResolvedExpr) (ty : ResolvedTypeId)
  /-- Every other kind, as errors print it. -/
  | other (debug : String) (ty : ResolvedTypeId)
deriving DecidableEq, Repr

def ResolvedExpr.ty : ResolvedExpr → ResolvedTypeId
  | int _ ty | bool _ ty | floatBits _ ty | load _ ty | old _ ty | project _ _ ty | unary _ _ ty
  | binary _ _ _ ty | other _ ty => ty

def ResolvedProjection.ty : ResolvedProjection → ResolvedTypeId
  | .field _ _ ty | .tuple _ ty | .index _ ty | .deref ty => ty

/-- The locals of a body with their types, and its parameters. -/
structure ResolvedBody where
  locals : SortedMap ResolvedLocalId ResolvedTypeId
  parameters : List ResolvedLocalId
deriving DecidableEq, Repr

/-! ### Lowering -/

def lower_projection : ResolvedProjection → Except String MirProjection
  | .field field _ _ => .ok (.field field)
  | .tuple index _ => .ok (.tuple index)
  | .index _ _ => .error "contract indexed projection is outside the canonical aggregate contract"
  | .deref _ => .error "contract dereference projection is outside the canonical aggregate contract"

def lower_value_projection : ResolvedValueProjection → Except String MirProjection
  | .field field => .ok (.field field)
  | .tuple index => .ok (.tuple index)
  | .index => .error "contract indexed projection is outside the canonical aggregate contract"
  | .dereference => .error "contract dereference projection is outside the canonical aggregate contract"

/-- The name of the local that stands for the result of a contract. -/
def isResultLocal (base : ResolvedLocalId) : Bool :=
  "/contract-result/local".toList.isSuffixOf base.node.val.toList

/-- The leaf of a place. -/
def lower_base (function : MirFunction) (body : ResolvedBody) (base : ResolvedLocalId) (old : Bool) :
    Except String MirContractExpr := do
  let value ← orError (StableId.new s!"local:{base.node.val}") "value identity must not be empty"
  if old then
    reject (isResultLocal base || !decide (base ∈ body.parameters))
      "old() requires a direct callable parameter load"
    reject (!function.values.contains value)
      s!"old() parameter '{base.node.val}' is absent from canonical MIR values"
    return .old value
  else if isResultLocal base then return .result
  else
    reject (!function.values.contains value)
      s!"contract local '{base.node.val}' is absent from canonical MIR values"
    return .value value

/-- The projections of a place, from the base on. -/
def lower_projections (base : MirContractExpr) : List ResolvedProjection → Except String MirContractExpr
  | [] => .ok base
  | projection :: projections => do
      let lowered ← lower_projection projection
      lower_projections (.project base lowered) projections

def lower_contract_place (function : MirFunction) (body : ResolvedBody) (place : ResolvedPlace) (old : Bool) :
    Except String MirContractExpr := do
  let base ← lower_base function body place.base old
  lower_projections base place.projections

/-- The negation of a literal of another type, folded where it does not overflow. -/
def folded (op : ResolvedUnaryOp) (operand : ResolvedExpr) (ty : ResolvedTypeId) : Option Int :=
  match op, operand with
  | .negate, .int value operand_ty => if ty ≠ operand_ty then checked_neg 64 value else none
  | _, _ => none

def lower_unary_op : ResolvedUnaryOp → Except String MirContractUnaryOp
  | .negate => .ok .negate
  | .not => .ok .not
  | _ => .error "contract unary operator is outside the canonical MIR contract"

def lower_contract_expr (function : MirFunction) (body : ResolvedBody) :
    ResolvedExpr → Except String MirContractExpr
  | .int value _ => .ok (.int value)
  | .bool value _ => .ok (.bool value)
  | .floatBits bits _ => .ok (.float bits)
  | .load place _ => lower_contract_place function body place false
  | .old (.load place _) _ => lower_contract_place function body place true
  | .old _ _ => .error "old() requires a direct callable parameter load"
  | .project value projection _ => do
      let base ← lower_contract_expr function body value
      let projection ← lower_value_projection projection
      return .project base projection
  | .unary op operand ty =>
      match folded op operand ty with
      | some value => .ok (.int value)
      | none => do
          let op ← lower_unary_op op
          let operand ← lower_contract_expr function body operand
          return .unary op operand
  | .binary op left right _ => do
      let op ← orError (MirContractBinaryOp.from_resolved op)
        "contract binary operator is outside the canonical MIR contract"
      let left ← lower_contract_expr function body left
      let right ← lower_contract_expr function body right
      return .binary op left right
  | .other debug _ =>
      .error s!"contract expression shape {debug} is outside the canonical MIR verifier contract"

/-! ### The receipt -/

/-- The types that are recorded, by the paths of the nodes. -/
abbrev ExpressionTypes := SortedMap (List Nat) ResolvedTypeId

/-- The loop of `collect_place_expression_types`, from the last projection down. -/
def collect_projections (base_ty : ResolvedTypeId) (projections : List ResolvedProjection) :
    Nat → List Nat → ExpressionTypes → ExpressionTypes
  | 0, _, types => types
  | count + 1, path, types =>
      let ty := match count with
        | 0 => base_ty
        | index + 1 => (projections[index]?.map ResolvedProjection.ty).getD base_ty
      collect_projections base_ty projections count (path ++ [0]) (types.insert (path ++ [0]) ty)

def collect_place_expression_types (body : ResolvedBody) (place : ResolvedPlace) (path : List Nat)
    (types : ExpressionTypes) : Except String ExpressionTypes := do
  let base_ty ← orError (body.locals.find? place.base)
    "contract place type is absent from the checked local catalog"
  return collect_projections base_ty place.projections place.projections.length path types

def collect_expression_types (body : ResolvedBody) :
    ResolvedExpr → List Nat → ExpressionTypes → Except String ExpressionTypes
  | .load place ty, path, types => collect_place_expression_types body place path (types.insert path ty)
  | .old (.load place _) ty, path, types =>
      -- The leaf of the place is replaced; the old value has no child of its own.
      collect_place_expression_types body place path (types.insert path ty)
  | .old _ _, _, _ => .error "old() requires a direct callable parameter load"
  | .project value _ ty, path, types => collect_expression_types body value (path ++ [0]) (types.insert path ty)
  | .unary op operand ty, path, types =>
      match folded op operand ty with
      | some _ => .ok (types.insert path ty)
      | none => collect_expression_types body operand (path ++ [0]) (types.insert path ty)
  | .binary _ left right ty, path, types => do
      let types ← collect_expression_types body left (path ++ [0]) (types.insert path ty)
      collect_expression_types body right (path ++ [1]) types
  | .int _ ty, path, types | .bool _ ty, path, types | .floatBits _ ty, path, types | .other _ ty, path, types =>
      .ok (types.insert path ty)

/-! ### The check -/

/-- The catalog as the check of a receipt sees it. -/
structure ReceiptCatalog extends ContractCatalog where
  /-- `is_canonical_copy_scalar(true)` of the descriptor of a type. -/
  is_canonical_copy_scalar : ResolvedTypeId → Bool

def contract_path_text (path : List Nat) : String :=
  if path = [] then "root" else ".".intercalate (path.map toString)

def is_arithmetic_expression : MirContractExpr → Bool
  | .unary .negate _ => true
  | .binary .add _ _ | .binary .subtract _ _ | .binary .multiply _ _ | .binary .divide _ _
  | .binary .remainder _ _ => true
  | _ => false

section Check

variable (function : MirFunction) (catalog : ReceiptCatalog) (contract : MirContract)

/-- The type of a node, and the checks that all nodes share. -/
def visit_node (expression : MirContractExpr) (path : List Nat) : Except String ResolvedTypeId := do
  let ty ← orError (contract.expressionTypes.find? path)
    s!"contract expression at '{contract_path_text path}' has no TypeDesc receipt"
  let kind ← type_kind catalog.toContractCatalog ty
  reject (!kind.isAggregate && !((catalog.types.get ty).isSome && catalog.is_canonical_copy_scalar ty))
    "contract scalar TypeDesc has invalid ownership/glue metadata"
  let expected ← expr_kind function catalog.toContractCatalog expression
  reject (kind ≠ expected) "contract expression TypeDesc disagrees with its scalar/aggregate kind"
  return ty

/-- The check of a leaf that stands for a value. -/
def check_value (expression : MirContractExpr) (ty : ResolvedTypeId) : Except String Unit := do
  let expected ← expression_type function catalog.toContractCatalog expression
  reject (expected ≠ ty) "contract value TypeDesc disagrees with its canonical MIR value"

def check_int (value : Int) (ty : ResolvedTypeId) : Except String Unit := do
  let descriptor ← orError (catalog.types.get ty) "contract literal TypeDesc is absent"
  if descriptor.abi = .integer 32 true ∧ ¬ Fits 32 value then
    .error "contract integer literal is outside its recorded i32 TypeDesc"
  else if descriptor.abi = .integer 32 true ∨ descriptor.abi = .integer 64 true then .ok ()
  else .error "contract integer literal has non-integer TypeDesc"

/-- The promotion of two operands. -/
def promoted : Option MirAbiClass → Option MirAbiClass → Except String MirAbiClass
  | some (.integer left true), some (.integer right true) => .ok (.integer (max left right) true)
  | some (.float 64), some (.float 64) => .ok (.float 64)
  | _, _ => .error "contract arithmetic operands have invalid numeric TypeDescs"

def check_binary (expression : MirContractExpr) (op : MirContractBinaryOp) (left right ty : ResolvedTypeId) :
    Except String Unit :=
  if is_arithmetic_expression expression then do
    let promoted ← promoted ((catalog.types.get left).map MirTypeDesc.abi)
      ((catalog.types.get right).map MirTypeDesc.abi)
    reject ((catalog.types.get ty).map MirTypeDesc.abi ≠ some promoted)
      "contract arithmetic TypeDesc disagrees with recorded operand promotion"
  else
    reject ((op = .logicalAnd || op = .logicalOr) && (left ≠ ty || right ≠ ty))
      "contract logical operand TypeDesc disagrees with its result"

/-- The type of a node under a path, and the paths that have been visited. -/
def visit : MirContractExpr → List Nat → SortedSet (List Nat) →
    Except String (ResolvedTypeId × SortedSet (List Nat))
  | .value id, path, visited => do
      let ty ← visit_node function catalog contract (.value id) path
      check_value function catalog (.value id) ty
      return (ty, visited.insert path)
  | .old id, path, visited => do
      let ty ← visit_node function catalog contract (.old id) path
      check_value function catalog (.old id) ty
      return (ty, visited.insert path)
  | .result, path, visited => do
      let ty ← visit_node function catalog contract .result path
      check_value function catalog .result ty
      return (ty, visited.insert path)
  | .int value, path, visited => do
      let ty ← visit_node function catalog contract (.int value) path
      check_int catalog value ty
      return (ty, visited.insert path)
  | .bool value, path, visited => do
      let ty ← visit_node function catalog contract (.bool value) path
      return (ty, visited.insert path)
  | .float bits, path, visited => do
      let ty ← visit_node function catalog contract (.float bits) path
      return (ty, visited.insert path)
  | .project base projection, path, visited => do
      let ty ← visit_node function catalog contract (.project base projection) path
      let (base_ty, visited) ← visit base (path ++ [0]) (visited.insert path)
      let result_ty ← catalog.projection_result_type base_ty projection
      reject (result_ty ≠ ty) "contract projection TypeDesc disagrees with its canonical field"
      return (ty, visited)
  | .unary op operand, path, visited => do
      let ty ← visit_node function catalog contract (.unary op operand) path
      let (operand_ty, visited) ← visit operand (path ++ [0]) (visited.insert path)
      reject (operand_ty ≠ ty) "contract unary operand TypeDesc disagrees with its result"
      return (ty, visited)
  | .binary op left right, path, visited => do
      let ty ← visit_node function catalog contract (.binary op left right) path
      let (left_ty, visited) ← visit left (path ++ [0]) (visited.insert path)
      let (right_ty, visited) ← visit right (path ++ [1]) visited
      check_binary catalog (.binary op left right) op left_ty right_ty ty
      return (ty, visited)

def validate_expression_types : Except String Unit :=
  -- Predicates of hand are accepted without a receipt.
  if contract.expressionTypes.entries.isEmpty then .ok ()
  else do
    let (_, visited) ← visit function catalog contract contract.condition [] .empty
    reject (contract.expressionTypes.keys.any fun path => !decide (path ∈ visited))
      "contract expression TypeDesc receipt has an absent path"

end Check

end ContractReceipt

end Mimi.Mir
