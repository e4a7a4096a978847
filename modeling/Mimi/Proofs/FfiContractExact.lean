/-
Module: Mimi.Proofs.FfiContractExact
Purpose: The predicates of foreign calls mean what they say: an accepted predicate never has an invalid shape, its
  verdict is its truth over the integers, and its faults are those of the first operation that has one.
Trusted boundary: none
-/
import Mimi.Mir.FfiContract

namespace Mimi.Mir

open Mimi.Core Mimi.Lib

/-! ### What a predicate says -/

def MirContractScalar.kind : MirContractScalar → RuntimeContractKind
  | int _ => .int
  | bool _ => .bool

/-- The integer of a scalar. -/
def MirContractScalar.amount : MirContractScalar → Int
  | int value => value
  | bool _ => 0

/-- The truth of a scalar. -/
def MirContractScalar.truth : MirContractScalar → Bool
  | int _ => false
  | bool value => value

/-- An operation with the values of its operands. -/
inductive Operation where
  | unary (op : MirContractUnaryOp) (operand : MirContractScalar)
  | binary (op : MirContractBinaryOp) (left right : MirContractScalar)

/-- The exact result of an operation. -/
def Operation.meaning : Operation → MirContractScalar
  | unary .negate a => .int (-a.amount)
  | unary .not a => .bool (!a.truth)
  | binary .add a b => .int (a.amount + b.amount)
  | binary .subtract a b => .int (a.amount - b.amount)
  | binary .multiply a b => .int (a.amount * b.amount)
  | binary .divide a b => .int (a.amount.tdiv b.amount)
  | binary .remainder a b => .int (a.amount.tmod b.amount)
  | binary .equal a b => .bool (a = b)
  | binary .notEqual a b => .bool (a ≠ b)
  | binary .less a b => .bool (a.amount < b.amount)
  | binary .lessEqual a b => .bool (a.amount ≤ b.amount)
  | binary .greater a b => .bool (b.amount < a.amount)
  | binary .greaterEqual a b => .bool (b.amount ≤ a.amount)
  | binary .logicalAnd a b => .bool (a.truth && b.truth)
  | binary .logicalOr a b => .bool (a.truth || b.truth)

/-- The fault of an operation whose exact result is an integer that must fit. -/
def overflowOf (exact : Int) : Option MirFfiContractError :=
  if Fits 64 exact then none else some .overflow

/-- The fault of an operation in checked arithmetic of 64 bits. The remainder overflows with the quotient. -/
def Operation.fault : Operation → Option MirFfiContractError
  | unary .negate a => overflowOf (-a.amount)
  | binary .add a b => overflowOf (a.amount + b.amount)
  | binary .subtract a b => overflowOf (a.amount - b.amount)
  | binary .multiply a b => overflowOf (a.amount * b.amount)
  | binary .divide a b | binary .remainder a b =>
      if b.amount = 0 then some .divisionByZero else overflowOf (a.amount.tdiv b.amount)
  | _ => none

/-- The value of a predicate over the integers. -/
def meaning (values : MirValueId → MirContractScalar) : MirContractExpr → MirContractScalar
  | .value id => values id
  | .int value => .int value
  | .bool value => .bool value
  | .unary op operand => (Operation.unary op (meaning values operand)).meaning
  | .binary op left right => (Operation.binary op (meaning values left) (meaning values right)).meaning
  | .float _ | .result | .old _ | .project _ _ => .bool false

/-- The left operand of a logical operator decides. -/
def Decides : MirContractBinaryOp → MirContractScalar → Prop
  | .logicalAnd, left => left.truth = false
  | .logicalOr, left => left.truth = true
  | _, _ => False

instance (op : MirContractBinaryOp) (left : MirContractScalar) : Decidable (Decides op left) := by
  cases op <;> unfold Decides <;> infer_instance

/-- The operations that evaluation reaches from left to right, if none before them has a fault. -/
def reached (values : MirValueId → MirContractScalar) : MirContractExpr → List Operation
  | .unary op operand => reached values operand ++ [.unary op (meaning values operand)]
  | .binary op left right =>
      reached values left ++
        (if Decides op (meaning values left) then []
          else reached values right ++ [.binary op (meaning values left) (meaning values right)])
  | _ => []

/-- Evaluation reaches an operation with a fault. -/
def Faults (values : MirValueId → MirContractScalar) (condition : MirContractExpr)
    (fault : MirFfiContractError) : Prop :=
  ∃ before operation after, reached values condition = before ++ operation :: after ∧
    (∀ earlier ∈ before, earlier.fault = none) ∧ operation.fault = some fault

/-- The verdict on a predicate is exact. -/
structure Exact (values : MirValueId → MirContractScalar) (condition : MirContractExpr)
    (verdict : Except MirFfiContractError Unit) : Prop where
  never_invalid : ∀ message, verdict ≠ .error (.invalid message)
  ok_iff : verdict = .ok () ↔
    (∀ operation ∈ reached values condition, operation.fault = none) ∧ meaning values condition = .bool true
  violation_iff : verdict = .error .violation ↔
    (∀ operation ∈ reached values condition, operation.fault = none) ∧ meaning values condition = .bool false
  overflow_iff : verdict = .error .overflow ↔ Faults values condition .overflow
  division_iff : verdict = .error .divisionByZero ↔ Faults values condition .divisionByZero

/-- Every value that a predicate may name has a scalar of the kind of its class. -/
def Assigned (call : FfiSignature) (phase : FfiPhase) (argument : MirValueId → Except String MirContractScalar)
    (values : MirValueId → MirContractScalar) : Prop :=
  ∀ id kind, value_runtime_kind call phase id = .ok kind → argument id = .ok (values id) ∧ (values id).kind = kind

/-- The class of a value in the catalog of a function. -/
def abiOf (function : MirFunction) (catalog : ContractCatalog) (value : MirValueId) : Option MirAbiClass := do
  let declared ← function.values.find? value
  let descriptor ← catalog.types.get declared.ty
  return descriptor.abi

/-- The catalog gives the values of a call the classes of its signature. -/
structure SameAbis (function : MirFunction) (catalog : ContractCatalog) (call : FfiSignature) : Prop where
  arity : call.arguments.length = call.argument_abis.length
  arguments : ∀ (index : Nat) (id : MirValueId) (abi : MirAbiClass), call.arguments[index]? = some id →
    call.argument_abis[index]? = some abi → abiOf function catalog id = some abi
  result : ∀ id, call.result = some id → abiOf function catalog id = some call.result_abi

/-! ### Operations -/

/-- A value, if there is no fault. -/
def settle (value : MirContractScalar) : Option MirFfiContractError → Except MirFfiContractError MirContractScalar
  | some fault => .error fault
  | none => .ok value

/-- Evaluation stops at the first fault. -/
def outcome (operations : List Operation) (value : MirContractScalar) :
    Except MirFfiContractError MirContractScalar :=
  settle value (operations.findSome? Operation.fault)

theorem outcome_bind {operations more : List Operation} {first value : MirContractScalar}
    {next : MirContractScalar → Except MirFfiContractError MirContractScalar}
    (later : next first = outcome more value) :
    (outcome operations first >>= next) = outcome (operations ++ more) value := by
  unfold outcome at later ⊢
  rw [List.findSome?_append]
  cases operations.findSome? Operation.fault with
  | none => exact later
  | some fault => rfl

theorem outcome_single {operation : Operation} {value : MirContractScalar} :
    outcome [operation] value = settle value operation.fault := by
  unfold outcome
  rw [List.findSome?_cons, List.findSome?_nil]
  cases operation.fault with
  | none => rfl
  | some fault => rfl

theorem intOrOverflow_checked {exact : Int} :
    intOrOverflow (checked 64 exact) = settle (.int exact) (overflowOf exact) := by
  unfold overflowOf checked
  by_cases fits : Fits 64 exact
  · rw [if_pos fits, if_pos fits]
    rfl
  · rw [if_neg fits, if_neg fits]
    rfl

variable {a : MirContractScalar}

theorem kind_bool (h : a.kind = .bool) : ∃ value, a = .bool value := by
  cases a with
  | int value => cases h
  | bool value => exact ⟨value, rfl⟩

/-- A unary operator on an operand of its kind. -/
theorem evaluate_unary_exact {phase : FfiPhase} {op : MirContractUnaryOp}
    {kind : RuntimeContractKind} (typed : unary_runtime_kind phase op a.kind = .ok kind) :
    evaluate_unary phase op a = outcome [.unary op a] (Operation.unary op a).meaning ∧
      (Operation.unary op a).meaning.kind = kind := by
  rw [outcome_single]
  cases op with
  | negate =>
      cases a with
      | int value => exact ⟨intOrOverflow_checked, Except.ok.inj typed⟩
      | bool value => cases typed
  | not =>
      cases a with
      | int value => cases typed
      | bool value => exact ⟨rfl, Except.ok.inj typed⟩

theorem divide_exact {a b : Int} :
    (if b = 0 then .error .divisionByZero else intOrOverflow (checked_div 64 a b)) =
      settle (.int (a.tdiv b)) (if b = 0 then some .divisionByZero else overflowOf (a.tdiv b)) := by
  by_cases zero : b = 0
  · rw [if_pos zero, if_pos zero]
    rfl
  · rw [if_neg zero, if_neg zero, checked_div, if_neg zero]
    exact intOrOverflow_checked

theorem remainder_exact {a b : Int} :
    (if b = 0 then .error .divisionByZero else intOrOverflow (checked_rem 64 a b)) =
      settle (.int (a.tmod b)) (if b = 0 then some .divisionByZero else overflowOf (a.tdiv b)) := by
  by_cases zero : b = 0
  · rw [if_pos zero, if_pos zero]
    rfl
  · rw [if_neg zero, if_neg zero, checked_rem, if_neg zero, overflowOf, checked]
    by_cases fits : Fits 64 (a.tdiv b)
    · rw [if_pos fits, if_pos fits]
      rfl
    · rw [if_neg fits, if_neg fits]
      rfl

/-- A binary operator on operands of its kinds. -/
theorem evaluate_binary_exact {phase : FfiPhase} {op : MirContractBinaryOp} {b : MirContractScalar}
    {kind : RuntimeContractKind} (typed : binary_runtime_kind phase op a.kind b.kind = .ok kind) :
    evaluate_binary phase op a b = outcome [.binary op a b] (Operation.binary op a b).meaning ∧
      (Operation.binary op a b).meaning.kind = kind := by
  rw [outcome_single]
  cases a with
  | int a =>
      cases b with
      | bool b => cases op <;> cases typed
      | int b =>
          cases op with
          | add | subtract | multiply => exact ⟨intOrOverflow_checked, Except.ok.inj typed⟩
          | divide => exact ⟨divide_exact, Except.ok.inj typed⟩
          | remainder => exact ⟨remainder_exact, Except.ok.inj typed⟩
          | equal =>
              refine ⟨?_, Except.ok.inj typed⟩
              simp [evaluate_binary, settle, Operation.fault, Operation.meaning]
          | notEqual =>
              refine ⟨?_, Except.ok.inj typed⟩
              simp [evaluate_binary, settle, Operation.fault, Operation.meaning]
          | less | greater | lessEqual | greaterEqual => exact ⟨rfl, Except.ok.inj typed⟩
          | logicalAnd | logicalOr => cases typed
  | bool a =>
      cases b with
      | int b => cases op <;> cases typed
      | bool b =>
          cases op with
          | add | subtract | multiply | divide | remainder => cases typed
          | less | greater | lessEqual | greaterEqual => cases typed
          | equal =>
              refine ⟨?_, Except.ok.inj typed⟩
              simp [evaluate_binary, settle, Operation.fault, Operation.meaning]
          | notEqual =>
              refine ⟨?_, Except.ok.inj typed⟩
              simp [evaluate_binary, settle, Operation.fault, Operation.meaning]
          | logicalAnd | logicalOr => exact ⟨rfl, Except.ok.inj typed⟩

/-- A left operand that decides gives the value of the whole. -/
theorem shortCircuit_of_decides {phase : FfiPhase} {op : MirContractBinaryOp} {b : MirContractScalar}
    {kind : RuntimeContractKind} (typed : binary_runtime_kind phase op a.kind b.kind = .ok kind)
    (decides : Decides op a) :
    shortCircuit op a = some (Operation.binary op a b).meaning ∧
      (Operation.binary op a b).meaning.kind = kind := by
  refine ⟨?_, (evaluate_binary_exact typed).2⟩
  cases op with
  | logicalAnd =>
      cases a with
      | int a => cases b <;> cases typed
      | bool a =>
          obtain rfl : a = false := decides
          rfl
  | logicalOr =>
      cases a with
      | int a => cases b <;> cases typed
      | bool a =>
          obtain rfl : a = true := decides
          rfl
  | _ => exact decides.elim

theorem shortCircuit_of_undecided {op : MirContractBinaryOp} (undecided : ¬Decides op a) :
    shortCircuit op a = none := by
  cases op with
  | logicalAnd =>
      cases a with
      | int a => rfl
      | bool a =>
          cases a with
          | false => exact absurd rfl undecided
          | true => rfl
  | logicalOr =>
      cases a with
      | int a => rfl
      | bool a =>
          cases a with
          | false => rfl
          | true => exact absurd rfl undecided
  | _ => rfl

/-! ### Evaluation -/

variable {e condition : MirContractExpr}

section Evaluation

variable {call : FfiSignature} {phase : FfiPhase} {argument : MirValueId → Except String MirContractScalar}
  {values : MirValueId → MirContractScalar}

/-- Evaluation of a predicate that has a kind: the first fault of the operations that it reaches, or else its
value over the integers, which has this kind. -/
theorem evaluate_exact (assigned : Assigned call phase argument values)
    {kind : RuntimeContractKind} (typed : expression_kind call phase e = .ok kind) :
    evaluate phase argument e = outcome (reached values e) (meaning values e) ∧ (meaning values e).kind = kind := by
  induction e generalizing kind with
  | value id =>
      obtain ⟨given, same⟩ := assigned id kind typed
      refine ⟨?_, same⟩
      rw [evaluate, given]
      rfl
  | int value | bool value => exact ⟨rfl, Except.ok.inj typed⟩
  | result | old id | float bits | project base projection => cases typed
  | unary op operand ih =>
      obtain ⟨operandKind, operandTyped, operatorTyped⟩ := bind_eq_ok.mp typed
      obtain ⟨operandRun, rfl⟩ := ih operandTyped
      obtain ⟨operatorRun, resultKind⟩ := evaluate_unary_exact operatorTyped
      refine ⟨?_, resultKind⟩
      rw [evaluate, operandRun, reached]
      exact outcome_bind operatorRun
  | binary op left right ihLeft ihRight =>
      obtain ⟨leftKind, leftTyped, afterLeft⟩ := bind_eq_ok.mp typed
      obtain ⟨rightKind, rightTyped, operatorTyped⟩ := bind_eq_ok.mp afterLeft
      obtain ⟨leftRun, rfl⟩ := ihLeft leftTyped
      obtain ⟨rightRun, rfl⟩ := ihRight rightTyped
      obtain ⟨operatorRun, resultKind⟩ := evaluate_binary_exact operatorTyped
      refine ⟨?_, resultKind⟩
      rw [evaluate, leftRun, reached]
      refine outcome_bind ?_
      by_cases decides : Decides op (meaning values left)
      · rw [(shortCircuit_of_decides operatorTyped decides).1, if_pos decides]
        rfl
      · rw [shortCircuit_of_undecided decides, if_neg decides]
        dsimp only
        rw [rightRun]
        exact outcome_bind operatorRun

theorem fault_kinds {operation : Operation} {fault : MirFfiContractError} (h : operation.fault = some fault) :
    fault = .overflow ∨ fault = .divisionByZero := by
  have overflow_only : ∀ exact : Int, overflowOf exact = some fault → fault = .overflow := by
    intro exact h
    rw [overflowOf] at h
    split at h
    · cases h
    · exact (Option.some.inj h).symm
  cases operation with
  | unary op a =>
      cases op with
      | negate => exact .inl (overflow_only _ h)
      | not => cases h
  | binary op a b =>
      cases op with
      | add | subtract | multiply => exact .inl (overflow_only _ h)
      | divide | remainder =>
          rw [Operation.fault] at h
          split at h
          · exact .inr (Option.some.inj h).symm
          · exact .inl (overflow_only _ h)
      | _ => cases h

theorem faults_iff {fault : MirFfiContractError} :
    Faults values e fault ↔ (reached values e).findSome? Operation.fault = some fault := by
  rw [List.findSome?_eq_some_iff]
  constructor
  · intro faults
    obtain ⟨before, operation, after, split, clean, own⟩ := faults
    exact ⟨before, operation, after, split, own, clean⟩
  · intro found
    obtain ⟨before, operation, after, split, own, clean⟩ := found
    exact ⟨before, operation, after, split, clean, own⟩

/-- The verdict on a predicate of the kind of the booleans. -/
theorem exact_of_boolean (assigned : Assigned call phase argument values)
    (typed : expression_kind call phase condition = .ok .bool) :
    Exact values condition (evaluate_ffi_contract phase condition argument) := by
  obtain ⟨run, isBool⟩ := evaluate_exact assigned typed
  obtain ⟨truth, meant⟩ := kind_bool isBool
  rw [evaluate_ffi_contract, run, outcome, meant]
  cases found : (reached values condition).findSome? Operation.fault with
  | some fault =>
      have dirty : ¬∀ operation ∈ reached values condition, operation.fault = none := by
        intro clean
        rw [List.findSome?_eq_none_iff.mpr clean] at found
        cases found
      obtain ⟨operation, -, own⟩ := List.exists_of_findSome?_eq_some found
      have unique : ∀ other, Faults values condition other ↔ fault = other := by
        intro other
        rw [faults_iff, found, Option.some_inj]
      rcases fault_kinds own with rfl | rfl
      · exact
          { never_invalid := fun message h => (by cases h)
            ok_iff := ⟨fun h => (by cases h), fun h => absurd h.1 dirty⟩
            violation_iff := ⟨fun h => (by cases h), fun h => absurd h.1 dirty⟩
            overflow_iff := ⟨fun _ => (unique _).mpr rfl, fun _ => rfl⟩
            division_iff := ⟨fun h => (by cases h), fun h => (by cases (unique _).mp h)⟩ }
      · exact
          { never_invalid := fun message h => (by cases h)
            ok_iff := ⟨fun h => (by cases h), fun h => absurd h.1 dirty⟩
            violation_iff := ⟨fun h => (by cases h), fun h => absurd h.1 dirty⟩
            overflow_iff := ⟨fun h => (by cases h), fun h => (by cases (unique _).mp h)⟩
            division_iff := ⟨fun _ => (unique _).mpr rfl, fun _ => rfl⟩ }
  | none =>
      have clean := List.findSome?_eq_none_iff.mp found
      have faultless : ∀ fault, ¬Faults values condition fault := by
        intro fault faults
        rw [faults_iff, found] at faults
        cases faults
      cases truth with
      | true =>
          exact
            { never_invalid := fun message h => (by cases h)
              ok_iff := ⟨fun _ => ⟨clean, meant⟩, fun _ => rfl⟩
              violation_iff := ⟨fun h => (by cases h), fun h => (by cases meant.symm.trans h.2)⟩
              overflow_iff := ⟨fun h => (by cases h), fun h => absurd h (faultless _)⟩
              division_iff := ⟨fun h => (by cases h), fun h => absurd h (faultless _)⟩ }
      | false =>
          exact
            { never_invalid := fun message h => (by cases h)
              ok_iff := ⟨fun h => (by cases h), fun h => (by cases meant.symm.trans h.2)⟩
              violation_iff := ⟨fun _ => ⟨clean, meant⟩, fun _ => rfl⟩
              overflow_iff := ⟨fun h => (by cases h), fun h => absurd h (faultless _)⟩
              division_iff := ⟨fun h => (by cases h), fun h => absurd h (faultless _)⟩ }

/-- A checked predicate is boolean. -/
theorem boolean_of_valid (valid : validate_condition call phase (some condition) = .ok ()) :
    expression_kind call phase condition = .ok .bool := by
  obtain ⟨kind, typed, boolean⟩ := bind_eq_ok.mp valid
  have isBool : kind = .bool := not_not.mp (of_decide_eq_false (reject_eq_ok.mp boolean))
  rw [typed, isBool]

end Evaluation

/-! ### Static acceptance -/

section Static

variable {function : MirFunction} {catalog : ContractCatalog} {call : FfiSignature} {phase : FfiPhase}

/-- The kind at run time of a kind of the static check. -/
def ContractValueKind.runtime : ContractValueKind → Option RuntimeContractKind
  | int => some .int
  | bool => some .bool
  | float | aggregate _ => none

/-- What the static check knows of a kind: it is an aggregate, or it has a kind at run time. -/
def Known (kind : ContractValueKind) (holds : RuntimeContractKind → Prop) : Prop :=
  kind.isAggregate = true ∨ ∃ runtime, kind.runtime = some runtime ∧ holds runtime

/-- The values that a predicate may name. -/
def Named (call : FfiSignature) (phase : FfiPhase) (id : MirValueId) : Prop :=
  id ∈ call.arguments ∨ phase = .postcondition ∧ call.result = some id

theorem scalarOf_kinds {abi : MirAbiClass} {kind : ContractValueKind} (h : scalarOf abi = some kind) :
    ∃ runtime, kind.runtime = some runtime ∧ scalar_kind abi phase = .ok runtime := by
  rw [scalar_kind, h]
  cases abi with
  | integer bits signed =>
      rw [scalarOf] at h
      split at h
      · obtain rfl := Option.some.inj h
        exact ⟨.int, rfl, rfl⟩
      · cases h
  | bool =>
      obtain rfl := Option.some.inj h
      exact ⟨.bool, rfl, rfl⟩
  | _ => cases h

/-- A named value has the class that the signature gives it. -/
theorem named_runtime_kind (same : SameAbis function catalog call) {id : MirValueId} (named : Named call phase id)
    {abi : MirAbiClass} (known : abiOf function catalog id = some abi) :
    value_runtime_kind call phase id = scalar_kind abi phase := by
  unfold value_runtime_kind
  cases found : call.arguments.findIdx? fun argument => argument = id with
  | some index =>
      obtain ⟨inside, isId, -⟩ := List.findIdx?_eq_some_iff_getElem.mp found
      have given : call.arguments[index]? = some id :=
        List.getElem?_eq_some_iff.mpr ⟨inside, of_decide_eq_true isId⟩
      have abiInside : index < call.argument_abis.length := same.arity ▸ inside
      have listed : call.argument_abis[index]? = some call.argument_abis[index] :=
        List.getElem?_eq_getElem abiInside
      obtain rfl := Option.some.inj ((same.arguments index id _ given listed).symm.trans known)
      dsimp only
      rw [listed]
      rfl
  | none =>
      have absent : id ∉ call.arguments := by
        intro member
        have missed := List.findIdx?_eq_none_iff.mp found id member
        exact of_decide_eq_false missed rfl
      rcases named with member | ⟨post, isResult⟩
      · exact absurd member absent
      · dsimp only
        rw [if_pos ⟨post, isResult⟩]
        obtain rfl := Option.some.inj ((same.result id isResult).symm.trans known)
        rfl

/-- The kinds of the types in the catalog. -/
theorem type_kind_cases {ty : ResolvedTypeId} {kind : ContractValueKind} (h : type_kind catalog ty = .ok kind) :
    ∃ descriptor, catalog.types.get ty = some descriptor ∧
      (scalarOf descriptor.abi = some kind ∨ kind = .float ∨ kind.isAggregate = true) := by
  obtain ⟨descriptor, found, decided⟩ := bind_eq_ok.mp h
  refine ⟨descriptor, orError_eq_ok.mp found, ?_⟩
  cases scalar : scalarOf descriptor.abi with
  | some own =>
      rw [scalar] at decided
      exact .inl (congrArg some (pure_eq_ok.mp decided))
  | none =>
      rw [scalar] at decided
      dsimp only at decided
      split at decided
      · exact .inr (.inl (pure_eq_ok.mp decided).symm)
      · split at decided
        · obtain rfl := pure_eq_ok.mp decided
          exact .inr (.inr rfl)
        · split at decided
          · cases decided
          · split at decided <;> cases decided

/-- A value of a kind that is neither a number with a fraction nor an aggregate has this kind at run time. -/
theorem value_kind_runtime (same : SameAbis function catalog call) {id : MirValueId} (named : Named call phase id)
    {kind : ContractValueKind} (typed : value_kind function catalog id = .ok kind) (notFloat : kind ≠ .float) :
    Known kind fun runtime => value_runtime_kind call phase id = .ok runtime := by
  obtain ⟨declared, found, ofType⟩ := bind_eq_ok.mp typed
  obtain ⟨descriptor, described, cases⟩ := type_kind_cases (mapError_eq_ok ofType)
  rcases cases with scalar | float | aggregate
  · have known : abiOf function catalog id = some descriptor.abi := by
      rw [abiOf, orError_eq_ok.mp found, Option.bind_eq_bind, Option.bind_some, described]
      rfl
    rw [named_runtime_kind same named known]
    exact .inr (scalarOf_kinds scalar)
  · exact absurd float notFloat
  · exact .inl aggregate

theorem unary_kind_runtime {op : MirContractUnaryOp} {operand kind : ContractValueKind}
    (typed : unary_kind op operand = .ok kind) (operandNotFloat : operand ≠ .float) :
    ∃ before runtime, operand.runtime = some before ∧ kind.runtime = some runtime ∧
      unary_runtime_kind phase op before = .ok runtime := by
  cases op with
  | negate =>
      cases operand with
      | int => exact ⟨.int, .int, rfl, Except.ok.inj typed ▸ rfl, rfl⟩
      | float => exact absurd rfl operandNotFloat
      | bool => cases typed
      | aggregate ty => cases typed
  | not =>
      cases operand with
      | bool => exact ⟨.bool, .bool, rfl, Except.ok.inj typed ▸ rfl, rfl⟩
      | int => cases typed
      | float => cases typed
      | aggregate ty => cases typed

theorem binary_kind_runtime {op : MirContractBinaryOp} {left right kind : ContractValueKind}
    (typed : binary_kind op left right = .ok kind) (leftNotFloat : left ≠ .float) :
    ∃ leftRuntime rightRuntime runtime, left.runtime = some leftRuntime ∧ right.runtime = some rightRuntime ∧
      kind.runtime = some runtime ∧ binary_runtime_kind phase op leftRuntime rightRuntime = .ok runtime := by
  cases left with
  | float => exact absurd rfl leftNotFloat
  | aggregate ty => cases op <;> cases typed
  | int =>
      cases right with
      | int =>
          cases op with
          | add | subtract | multiply | divide | remainder =>
              exact ⟨.int, .int, .int, rfl, rfl, Except.ok.inj typed ▸ rfl, rfl⟩
          | equal | notEqual | less | greater | lessEqual | greaterEqual =>
              exact ⟨.int, .int, .bool, rfl, rfl, Except.ok.inj typed ▸ rfl, rfl⟩
          | logicalAnd | logicalOr => cases typed
      | _ => cases op <;> cases typed
  | bool =>
      cases right with
      | bool =>
          cases op with
          | equal | notEqual | logicalAnd | logicalOr =>
              exact ⟨.bool, .bool, .bool, rfl, rfl, Except.ok.inj typed ▸ rfl, rfl⟩
          | _ => cases typed
      | _ => cases op <;> cases typed

theorem Known.not_float {kind : ContractValueKind} {holds : RuntimeContractKind → Prop} (h : Known kind holds) :
    kind ≠ .float := by
  rintro rfl
  rcases h with aggregate | ⟨runtime, impossible, -⟩
  · cases aggregate
  · cases impossible

theorem Known.holds {kind : ContractValueKind} {holds : RuntimeContractKind → Prop} (h : Known kind holds)
    {runtime : RuntimeContractKind} (own : kind.runtime = some runtime) : holds runtime := by
  rcases h with aggregate | ⟨other, known, result⟩
  · cases kind with
    | aggregate ty => cases own
    | _ => cases aggregate
  · obtain rfl := Option.some.inj (known.symm.trans own)
    exact result

/-- A predicate whose leaves the static check lets pass has at run time the kind that the static check gives
it. -/
theorem runtime_kind_of_static (same : SameAbis function catalog call) {known : MirValueId → Bool}
    {unknown : MirValueId → String} {unsupported : String}
    (names : ∀ id, known id = true → Named call phase id) {kind : ContractValueKind}
    (leaves : validate_leaves known unknown unsupported e = .ok ())
    (noFloat : contains_float_leaf function catalog e = false) (typed : expr_kind function catalog e = .ok kind) :
    Known kind fun runtime => expression_kind call phase e = .ok runtime := by
  induction e generalizing kind with
  | value id =>
      have named : known id = true := by
        by_contra other
        rw [validate_leaves, if_neg other] at leaves
        cases leaves
      have notFloat : kind ≠ .float := by
        rintro rfl
        rw [contains_float_leaf, show value_kind function catalog id = .ok .float from typed] at noFloat
        cases noFloat
      exact value_kind_runtime same (names id named) typed notFloat
  | int value =>
      obtain rfl := Except.ok.inj typed
      exact .inr ⟨.int, rfl, rfl⟩
  | bool value =>
      obtain rfl := Except.ok.inj typed
      exact .inr ⟨.bool, rfl, rfl⟩
  | float bits => cases noFloat
  | result | old id | project base projection => cases leaves
  | unary op operand ih =>
      obtain ⟨operandKind, operandTyped, operatorTyped⟩ := bind_eq_ok.mp typed
      have operandKnown := ih leaves noFloat operandTyped
      obtain ⟨before, runtime, operandOwn, own, operator⟩ :=
        unary_kind_runtime operatorTyped operandKnown.not_float
      exact .inr ⟨runtime, own, bind_eq_ok.mpr ⟨before, operandKnown.holds operandOwn, operator⟩⟩
  | binary op left right ihLeft ihRight =>
      obtain ⟨leftLeaves, rightLeaves⟩ := check_eq_ok.mp leaves
      obtain ⟨leftNoFloat, rightNoFloat⟩ := Bool.or_eq_false_iff.mp noFloat
      obtain ⟨leftKind, leftTyped, afterLeft⟩ := bind_eq_ok.mp typed
      obtain ⟨rightKind, rightTyped, operatorTyped⟩ := bind_eq_ok.mp afterLeft
      have leftKnown := ihLeft leftLeaves leftNoFloat leftTyped
      have rightKnown := ihRight rightLeaves rightNoFloat rightTyped
      obtain ⟨leftRuntime, rightRuntime, runtime, leftOwn, rightOwn, own, operator⟩ :=
        binary_kind_runtime operatorTyped leftKnown.not_float
      exact .inr ⟨runtime, own, bind_eq_ok.mpr ⟨leftRuntime, leftKnown.holds leftOwn,
        bind_eq_ok.mpr ⟨rightRuntime, rightKnown.holds rightOwn, operator⟩⟩⟩

/-- A boolean predicate of the static check passes the check at run time. -/
theorem valid_of_boolean (known : Known .bool fun runtime => expression_kind call phase condition = .ok runtime) :
    validate_condition call phase (some condition) = .ok () :=
  bind_eq_ok.mpr ⟨.bool, known.holds rfl, rfl⟩

/-- What an accepted foreign call requires passes the check at run time. -/
theorem requires_valid {receipt : MirFfiCallContract} (same : SameAbis function catalog call)
    (arguments : receipt.arguments = call.arguments) (valid : validate_ffi_requires function catalog receipt = .ok ()) :
    validate_condition call .precondition receipt.requires = .ok () := by
  rw [validate_ffi_requires] at valid
  cases given : receipt.requires with
  | none => rfl
  | some condition =>
      rw [given] at valid
      obtain ⟨leaves, afterLeaves⟩ := check_eq_ok.mp valid
      obtain ⟨noFloat, afterFloat⟩ := check_eq_ok.mp afterLeaves
      obtain ⟨kind, typed, boolean⟩ := bind_eq_ok.mp afterFloat
      obtain rfl : kind = .bool := not_not.mp (of_decide_eq_false (reject_eq_ok.mp boolean))
      refine valid_of_boolean (runtime_kind_of_static same ?_ leaves (reject_eq_ok.mp noFloat) typed)
      intro id known
      exact .inl (arguments ▸ of_decide_eq_true known)

/-- What an accepted foreign call ensures passes the check at run time. -/
theorem ensures_valid {receipt : MirFfiCallContract} (same : SameAbis function catalog call)
    (arguments : receipt.arguments = call.arguments) (result : receipt.result = call.result)
    (valid : validate_ffi_ensures function catalog receipt = .ok ()) :
    validate_condition call .postcondition receipt.ensures = .ok () := by
  rw [validate_ffi_ensures] at valid
  cases given : receipt.ensures with
  | none => rfl
  | some condition =>
      rw [given] at valid
      obtain ⟨leaves, afterLeaves⟩ := check_eq_ok.mp valid
      obtain ⟨noFloat, afterFloat⟩ := check_eq_ok.mp afterLeaves
      obtain ⟨kind, typed, boolean⟩ := bind_eq_ok.mp afterFloat
      obtain rfl : kind = .bool := not_not.mp (of_decide_eq_false (reject_eq_ok.mp boolean))
      refine valid_of_boolean (runtime_kind_of_static same ?_ leaves (reject_eq_ok.mp noFloat) typed)
      intro id known
      rcases of_decide_eq_true known with argument | isResult
      · exact .inl (arguments ▸ argument)
      · exact .inr ⟨rfl, result ▸ isResult⟩

end Static

/-- The predicates of foreign calls are exact: every predicate that the check at run time accepts has, for every
assignment of scalars of the kinds of its classes, an exact verdict, and every predicate that a static check
accepts under the same classes is accepted at run time. -/
theorem ffi_contracts_exact :
    (∀ requires ensures call, validate_ffi_runtime_contracts requires ensures call = .ok () →
      ∀ argument values condition,
        (requires = some condition → Assigned call .precondition argument values →
          Exact values condition (evaluate_ffi_requires condition argument)) ∧
        (ensures = some condition → Assigned call .postcondition argument values →
          Exact values condition (evaluate_ffi_ensures condition argument))) ∧
    (∀ function catalog receipt call, SameAbis function catalog call → receipt.arguments = call.arguments →
      receipt.result = call.result →
        (validate_ffi_requires function catalog receipt = .ok () →
          validate_ffi_runtime_contracts receipt.requires none call = .ok ()) ∧
        (validate_ffi_ensures function catalog receipt = .ok () →
          validate_ffi_runtime_contracts none receipt.ensures call = .ok ()) ∧
        (validate_ffi_requires function catalog receipt = .ok () →
          validate_ffi_ensures function catalog receipt = .ok () →
            validate_ffi_runtime_contracts receipt.requires receipt.ensures call = .ok ())) := by
  constructor
  · intro requires ensures call valid argument values condition
    obtain ⟨-, conditions⟩ := check_eq_ok.mp valid
    obtain ⟨requiresValid, ensuresValid⟩ := check_eq_ok.mp conditions
    constructor
    · rintro rfl assigned
      exact exact_of_boolean assigned (boolean_of_valid requiresValid)
    · rintro rfl assigned
      exact exact_of_boolean assigned (boolean_of_valid ensuresValid)
  · intro function catalog receipt call same arguments result
    have arity : (reject (call.arguments.length ≠ call.argument_abis.length)
        "extern FFI runtime argument ABI metadata arity mismatch" : Except String Unit) = .ok () :=
      reject_eq_ok.mpr (decide_eq_false fun differ => differ same.arity)
    refine ⟨fun requires => ?_, fun ensures => ?_, fun requires ensures => ?_⟩
    · exact check_eq_ok.mpr ⟨arity, check_eq_ok.mpr ⟨requires_valid same arguments requires, rfl⟩⟩
    · exact check_eq_ok.mpr ⟨arity, check_eq_ok.mpr ⟨rfl, ensures_valid same arguments result ensures⟩⟩
    · exact check_eq_ok.mpr ⟨arity, check_eq_ok.mpr
        ⟨requires_valid same arguments requires, ensures_valid same arguments result ensures⟩⟩

/-- The value of a parameter. -/
def parameterX : MirValueId := ⟨"local:x", by decide⟩

/-- The call `f(x)` with `requires x != 0 && 10 / x > 1`. -/
def guardedDivision : MirContractExpr :=
  .binary .logicalAnd (.binary .notEqual (.value parameterX) (.int 0))
    (.binary .greater (.binary .divide (.int 10) (.value parameterX)) (.int 1))

def guardedCall : FfiSignature :=
  { arguments := [parameterX], argument_abis := [.integer 64 true], result := none, result_abi := .unit }

theorem guardedCall_assigned (argument : Int) :
    Assigned guardedCall .precondition (fun _ => .ok (.int argument)) (fun _ => .int argument) := by
  intro id kind typed
  refine ⟨rfl, ?_⟩
  unfold value_runtime_kind at typed
  by_cases known : id = parameterX
  · subst known
    exact Except.ok.inj typed
  · have absent : guardedCall.arguments.findIdx? (fun argument => argument = id) = none := by
      rw [List.findIdx?_eq_none_iff]
      intro other member
      obtain rfl := List.mem_singleton.mp member
      exact decide_eq_false fun same => known same.symm
    rw [absent] at typed
    cases typed

/-- A division that is guarded by a test for zero. -/
theorem ffi_contracts_exact_guarded :
    validate_ffi_runtime_contracts (some guardedDivision) none guardedCall = .ok () ∧
      Exact (fun _ => .int 0) guardedDivision
        (evaluate_ffi_requires guardedDivision fun _ => .ok (.int 0)) := by
  have valid : validate_ffi_runtime_contracts (some guardedDivision) none guardedCall = .ok () := by
    decide
  exact ⟨valid, (ffi_contracts_exact.1 _ none guardedCall valid _ _ guardedDivision).1 rfl
    (guardedCall_assigned 0)⟩

end Mimi.Mir
