/-
Module: Mimi.Proofs.ContractReceipts
Purpose: The receipt of a contract and the predicate that it is lowered to have the same nodes: what is recorded
  are the paths of the lowered tree, through folded negations, old values and places with projections; and a
  receipt that is checked has the paths of its predicate, unless it is empty.
Trusted boundary: none
-/
import Mimi.Mir.ContractReceipt

namespace Mimi.Mir.ContractReceipt

open Mimi.Core Mimi.Lib

/-- The paths of the nodes of a predicate: the one operand or the left one is child 0, the right one child 1. -/
def nodePaths : MirContractExpr → List (List Nat)
  | .project base _ => [] :: (nodePaths base).map (0 :: ·)
  | .unary _ operand => [] :: (nodePaths operand).map (0 :: ·)
  | .binary _ left right => [] :: ((nodePaths left).map (0 :: ·) ++ (nodePaths right).map (1 :: ·))
  | .value _ | .result | .old _ | .int _ | .bool _ | .float _ => [[]]

/-- The paths of a predicate that stands under a path. -/
def pathsUnder (path : List Nat) (expression : MirContractExpr) : List (List Nat) :=
  (nodePaths expression).map (path ++ ·)

theorem nodePaths_nodup (expression : MirContractExpr) : (nodePaths expression).Nodup := by
  have under : ∀ (child : Nat) {paths : List (List Nat)}, paths.Nodup → (paths.map (child :: ·)).Nodup :=
    fun child _ nodup => nodup.map fun _ _ same => (List.cons.inj same).2
  have below : ∀ (child : Nat) (paths : List (List Nat)), [] ∉ paths.map (child :: ·) := by
    intro child paths member
    obtain ⟨path, -, impossible⟩ := List.mem_map.mp member
    cases impossible
  induction expression with
  | value | result | old | int | bool | float => exact List.nodup_singleton _
  | project base projection ih => exact List.nodup_cons.mpr ⟨below 0 _, under 0 ih⟩
  | unary op operand ih => exact List.nodup_cons.mpr ⟨below 0 _, under 0 ih⟩
  | binary op left right ihLeft ihRight =>
      refine List.nodup_cons.mpr ⟨fun member => ?_, ?_⟩
      · exact (List.mem_append.mp member).elim (below 0 _) (below 1 _)
      · refine List.nodup_append.mpr ⟨under 0 ihLeft, under 1 ihRight, ?_⟩
        rintro _ leftPath _ rightPath rfl
        obtain ⟨path, -, rfl⟩ := List.mem_map.mp leftPath
        obtain ⟨path', -, impossible⟩ := List.mem_map.mp rightPath
        cases impossible

variable {path : List Nat} {expression : MirContractExpr}

theorem pathsUnder_leaf (leaf : nodePaths expression = [[]])
    (q : List Nat) : q ∈ pathsUnder path expression ↔ q = path := by
  rw [pathsUnder, leaf, List.map_singleton, List.append_nil, List.mem_singleton]

theorem mem_pathsUnder_cons {paths : List (List Nat)} {child : Nat} {q : List Nat} :
    q ∈ (paths.map (child :: ·)).map (path ++ ·) ↔ q ∈ paths.map (path ++ [child] ++ ·) := by
  rw [List.map_map]
  simp only [List.append_assoc, List.singleton_append]
  rfl

theorem pathsUnder_project (path q : List Nat) (base : MirContractExpr) (projection : MirProjection) :
    q ∈ pathsUnder path (.project base projection) ↔ q = path ∨ q ∈ pathsUnder (path ++ [0]) base := by
  rw [pathsUnder, nodePaths, List.map_cons, List.mem_cons, List.append_nil, mem_pathsUnder_cons, pathsUnder]

theorem pathsUnder_unary (path q : List Nat) (op : MirContractUnaryOp) (operand : MirContractExpr) :
    q ∈ pathsUnder path (.unary op operand) ↔ q = path ∨ q ∈ pathsUnder (path ++ [0]) operand := by
  rw [pathsUnder, nodePaths, List.map_cons, List.mem_cons, List.append_nil, mem_pathsUnder_cons, pathsUnder]

theorem pathsUnder_binary (path q : List Nat) (op : MirContractBinaryOp) (left right : MirContractExpr) :
    q ∈ pathsUnder path (.binary op left right) ↔
      q = path ∨ q ∈ pathsUnder (path ++ [0]) left ∨ q ∈ pathsUnder (path ++ [1]) right := by
  rw [pathsUnder, nodePaths, List.map_cons, List.mem_cons, List.append_nil, List.map_append, List.mem_append,
    mem_pathsUnder_cons, mem_pathsUnder_cons, pathsUnder, pathsUnder]

/-! ### What is recorded -/

/-- A receipt that has grown by the paths of a predicate under a path. -/
structure Records (types types' : ExpressionTypes) (path : List Nat) (expression : MirContractExpr) : Prop where
  paths : ∀ q, (types'.find? q).isSome ↔ q ∈ pathsUnder path expression ∨ (types.find? q).isSome
  sorted : types.Sorted → types'.Sorted

theorem isSome_find?_insert (types : ExpressionTypes) (path q : List Nat) (ty : ResolvedTypeId) :
    ((types.insert path ty).find? q).isSome ↔ q = path ∨ (types.find? q).isSome := by
  rw [SortedMap.find?_insert]
  split
  · rename_i here
    exact ⟨fun _ => .inl here, fun _ => rfl⟩
  · rename_i elsewhere
    exact ⟨.inr, fun found => found.resolve_left elsewhere⟩

theorem records_leaf (leaf : nodePaths expression = [[]]) (types : ExpressionTypes) (ty : ResolvedTypeId) :
    Records types (types.insert path ty) path expression := by
  refine ⟨fun q => ?_, fun sorted => sorted.insert _ _⟩
  rw [isSome_find?_insert, pathsUnder_leaf leaf]

/-- A place of some projections is a chain of nodes. -/
theorem lower_projections_paths {projections : List ResolvedProjection} {base : MirContractExpr}
    (lowered : lower_projections base projections = .ok expression) (path q : List Nat) :
    q ∈ pathsUnder path expression ↔ (∃ k < projections.length, q = path ++ List.replicate k 0) ∨
      q ∈ pathsUnder (path ++ List.replicate projections.length 0) base := by
  induction projections generalizing base with
  | nil =>
      obtain rfl := Except.ok.inj lowered
      rw [List.length_nil, List.replicate_zero, List.append_nil]
      exact ⟨.inr, fun found => found.resolve_left fun ⟨k, below, _⟩ => Nat.not_lt_zero k below⟩
  | cons projection projections ih =>
      obtain ⟨next, -, rest⟩ := bind_eq_ok.mp lowered
      rw [ih rest, pathsUnder_project, List.append_assoc, ← List.replicate_succ', List.length_cons, ← or_assoc]
      refine or_congr_left ⟨?_, ?_⟩
      · rintro (⟨k, below, rfl⟩ | rfl)
        · exact ⟨k, Nat.lt_succ_of_lt below, rfl⟩
        · exact ⟨_, Nat.lt_succ_self _, rfl⟩
      · rintro ⟨k, below, rfl⟩
        rcases Nat.lt_succ_iff_lt_or_eq.mp below with below | rfl
        · exact .inl ⟨k, below, rfl⟩
        · exact .inr rfl

/-- The loop records a path for every projection, down to the base. -/
theorem collect_projections_paths (base_ty : ResolvedTypeId) (projections : List ResolvedProjection)
    (count : Nat) (path : List Nat) (types : ExpressionTypes) :
    (∀ q, ((collect_projections base_ty projections count path types).find? q).isSome ↔
      (∃ k < count, q = path ++ List.replicate (k + 1) 0) ∨ (types.find? q).isSome) ∧
    (types.Sorted → (collect_projections base_ty projections count path types).Sorted) := by
  induction count generalizing path types with
  | zero => exact ⟨fun q => ⟨.inr, fun found => found.resolve_left fun ⟨k, below, _⟩ => Nat.not_lt_zero k below⟩, id⟩
  | succ count ih =>
      rw [collect_projections.eq_def]
      dsimp only
      refine ⟨fun q => ?_, fun sorted => (ih _ _).2 (sorted.insert _ _)⟩
      rw [(ih _ _).1, isSome_find?_insert, ← or_assoc]
      refine or_congr_left ⟨?_, ?_⟩
      · rintro (⟨k, below, rfl⟩ | rfl)
        · refine ⟨k + 1, Nat.succ_lt_succ below, ?_⟩
          rw [List.append_assoc, List.singleton_append, ← List.replicate_succ]
        · exact ⟨0, Nat.succ_pos count, rfl⟩
      · rintro ⟨k, below, rfl⟩
        cases k with
        | zero => exact .inr rfl
        | succ k =>
            refine .inl ⟨k, Nat.lt_of_succ_lt_succ below, ?_⟩
            rw [List.append_assoc, List.singleton_append, ← List.replicate_succ]

variable {body : ResolvedBody}

theorem lower_base_leaf {function : MirFunction} {base : ResolvedLocalId} {old : Bool}
    (lowered : lower_base function body base old = .ok expression) :
    nodePaths expression = [[]] := by
  obtain ⟨value, -, rest⟩ := bind_eq_ok.mp lowered
  split at rest
  · obtain ⟨-, -, rest⟩ := bind_eq_ok.mp rest
    obtain ⟨-, -, rest⟩ := bind_eq_ok.mp rest
    obtain rfl := pure_eq_ok.mp rest
    rfl
  · split at rest
    · obtain rfl := pure_eq_ok.mp rest
      rfl
    · obtain ⟨-, -, rest⟩ := bind_eq_ok.mp rest
      obtain rfl := pure_eq_ok.mp rest
      rfl

variable {types : ExpressionTypes}

theorem records_place {function : MirFunction} {place : ResolvedPlace} {old : Bool}
    {types' : ExpressionTypes} {ty : ResolvedTypeId}
    (lowered : lower_contract_place function body place old = .ok expression)
    (collected : collect_place_expression_types body place path (types.insert path ty) = .ok types') :
    Records types types' path expression := by
  obtain ⟨base, leaf, projected⟩ := bind_eq_ok.mp lowered
  obtain ⟨base_ty, -, recorded⟩ := bind_eq_ok.mp collected
  obtain rfl := pure_eq_ok.mp recorded
  obtain ⟨paths, sorted⟩ := collect_projections_paths base_ty place.projections place.projections.length path
    (types.insert path ty)
  refine ⟨fun q => ?_, fun before => sorted (before.insert _ _)⟩
  rw [paths, isSome_find?_insert, ← or_assoc, lower_projections_paths projected,
    pathsUnder_leaf (lower_base_leaf leaf)]
  refine or_congr_left ⟨?_, ?_⟩
  · rintro (⟨k, below, rfl⟩ | rfl)
    · rcases Nat.lt_or_eq_of_le (Nat.succ_le_of_lt below) with below | same
      · exact .inl ⟨k + 1, below, rfl⟩
      · exact .inr (by rw [← same])
    · cases chain : place.projections with
      | nil => exact .inr (List.append_nil q).symm
      | cons projection projections => exact .inl ⟨0, Nat.succ_pos _, (List.append_nil q).symm⟩
  · rintro (⟨k, below, rfl⟩ | rfl)
    · cases k with
      | zero => exact .inr (List.append_nil path)
      | succ k => exact .inl ⟨k, Nat.lt_of_succ_lt below, rfl⟩
    · cases chain : place.projections with
      | nil => exact .inr (List.append_nil path)
      | cons projection projections => exact .inl ⟨projections.length, Nat.lt_succ_self _, rfl⟩

/-- What is recorded under a path, when the condition is lowered, are the paths of the predicate. -/
theorem collect_paths {function : MirFunction} {condition : ResolvedExpr} {types' : ExpressionTypes}
    (lowered : lower_contract_expr function body condition = .ok expression)
    (collected : collect_expression_types body condition path types = .ok types') :
    Records types types' path expression := by
  induction condition generalizing expression path types types' with
  | int value ty | bool value ty | floatBits bits ty =>
      obtain rfl := Except.ok.inj lowered
      obtain rfl := Except.ok.inj collected
      exact records_leaf rfl types ty
  | other debug ty => cases lowered
  | load place ty => exact records_place lowered collected
  | old inner ty ih =>
      cases inner with
      | load place ty' => exact records_place lowered collected
      | _ => cases lowered
  | project value projection ty ih =>
      obtain ⟨base, inner, rest⟩ := bind_eq_ok.mp lowered
      obtain ⟨projection', -, rest⟩ := bind_eq_ok.mp rest
      obtain rfl := pure_eq_ok.mp rest
      obtain ⟨paths, sorted⟩ := ih inner collected
      refine ⟨fun q => ?_, fun before => sorted (before.insert _ _)⟩
      rw [paths, isSome_find?_insert, pathsUnder_project, or_left_comm, or_assoc]
  | unary op operand ty ih =>
      rw [lower_contract_expr] at lowered
      rw [collect_expression_types] at collected
      cases fold : folded op operand ty with
      | some value =>
          rw [fold] at lowered collected
          obtain rfl := Except.ok.inj lowered
          obtain rfl := Except.ok.inj collected
          exact records_leaf rfl types ty
      | none =>
          rw [fold] at lowered collected
          obtain ⟨op', -, rest⟩ := bind_eq_ok.mp lowered
          obtain ⟨operand', inner, rest⟩ := bind_eq_ok.mp rest
          obtain rfl := pure_eq_ok.mp rest
          obtain ⟨paths, sorted⟩ := ih inner collected
          refine ⟨fun q => ?_, fun before => sorted (before.insert _ _)⟩
          rw [paths, isSome_find?_insert, pathsUnder_unary, or_left_comm, or_assoc]
  | binary op left right ty ihLeft ihRight =>
      obtain ⟨op', -, rest⟩ := bind_eq_ok.mp lowered
      obtain ⟨left', first, rest⟩ := bind_eq_ok.mp rest
      obtain ⟨right', second, rest⟩ := bind_eq_ok.mp rest
      obtain rfl := pure_eq_ok.mp rest
      obtain ⟨between, recorded, recorded'⟩ := bind_eq_ok.mp collected
      obtain ⟨paths, sorted⟩ := ihLeft first recorded
      obtain ⟨paths', sorted'⟩ := ihRight second recorded'
      refine ⟨fun q => ?_, fun before => sorted' (sorted (before.insert _ _))⟩
      rw [paths', paths, isSome_find?_insert, pathsUnder_binary]
      tauto

/-! ### What is checked -/

section Check

variable {function : MirFunction} {catalog : ReceiptCatalog} {contract : MirContract}

/-- A walk that has found an entry for each node of a predicate, and visited no other path. -/
structure Visits (contract : MirContract) (visited visited' : SortedSet (List Nat)) (path : List Nat)
    (expression : MirContractExpr) : Prop where
  entries : ∀ q ∈ pathsUnder path expression, (contract.expressionTypes.find? q).isSome
  visited : ∀ q, q ∈ visited' ↔ q ∈ pathsUnder path expression ∨ q ∈ visited

theorem visit_node_entry {ty : ResolvedTypeId}
    (checked : visit_node function catalog contract expression path = .ok ty) :
    (contract.expressionTypes.find? path).isSome := by
  obtain ⟨ty', found, -⟩ := bind_eq_ok.mp checked
  rw [orError_eq_ok.mp found]
  rfl

theorem visits_leaf (leaf : nodePaths expression = [[]])
    (entry : (contract.expressionTypes.find? path).isSome) (visited : SortedSet (List Nat)) :
    Visits contract visited (visited.insert path) path expression := by
  refine ⟨fun q member => ?_, fun q => ?_⟩
  · rw [pathsUnder_leaf leaf] at member
    exact member ▸ entry
  · rw [SortedSet.mem_insert, pathsUnder_leaf leaf]

theorem visit_paths {visited visited' : SortedSet (List Nat)}
    {ty : ResolvedTypeId} (walked : visit function catalog contract expression path visited = .ok (ty, visited')) :
    Visits contract visited visited' path expression := by
  induction expression generalizing path visited visited' ty with
  | value id | result | old id | int value =>
      obtain ⟨ty, node, rest⟩ := bind_eq_ok.mp walked
      obtain ⟨-, -, rest⟩ := bind_eq_ok.mp rest
      obtain ⟨rfl, rfl⟩ := Prod.mk.inj (pure_eq_ok.mp rest)
      exact visits_leaf rfl (visit_node_entry node) visited
  | bool value | float bits =>
      obtain ⟨ty, node, rest⟩ := bind_eq_ok.mp walked
      obtain ⟨rfl, rfl⟩ := Prod.mk.inj (pure_eq_ok.mp rest)
      exact visits_leaf rfl (visit_node_entry node) visited
  | project base projection ih =>
      obtain ⟨ty, node, rest⟩ := bind_eq_ok.mp walked
      obtain ⟨⟨base_ty, visited''⟩, inner, rest⟩ := bind_eq_ok.mp rest
      obtain ⟨result_ty, -, rest⟩ := bind_eq_ok.mp rest
      obtain ⟨-, -, rest⟩ := bind_eq_ok.mp rest
      obtain ⟨rfl, rfl⟩ := Prod.mk.inj (pure_eq_ok.mp rest)
      obtain ⟨entries, reached⟩ := ih inner
      refine ⟨fun q member => ?_, fun q => ?_⟩
      · rcases (pathsUnder_project path q base projection).mp member with rfl | member
        · exact visit_node_entry node
        · exact entries q member
      · rw [reached, SortedSet.mem_insert, pathsUnder_project, or_left_comm, or_assoc]
  | unary op operand ih =>
      obtain ⟨ty, node, rest⟩ := bind_eq_ok.mp walked
      obtain ⟨⟨operand_ty, visited''⟩, inner, rest⟩ := bind_eq_ok.mp rest
      obtain ⟨-, -, rest⟩ := bind_eq_ok.mp rest
      obtain ⟨rfl, rfl⟩ := Prod.mk.inj (pure_eq_ok.mp rest)
      obtain ⟨entries, reached⟩ := ih inner
      refine ⟨fun q member => ?_, fun q => ?_⟩
      · rcases (pathsUnder_unary path q op operand).mp member with rfl | member
        · exact visit_node_entry node
        · exact entries q member
      · rw [reached, SortedSet.mem_insert, pathsUnder_unary, or_left_comm, or_assoc]
  | binary op left right ihLeft ihRight =>
      obtain ⟨ty, node, rest⟩ := bind_eq_ok.mp walked
      obtain ⟨⟨left_ty, between⟩, first, rest⟩ := bind_eq_ok.mp rest
      obtain ⟨⟨right_ty, visited''⟩, second, rest⟩ := bind_eq_ok.mp rest
      obtain ⟨-, -, rest⟩ := bind_eq_ok.mp rest
      obtain ⟨rfl, rfl⟩ := Prod.mk.inj (pure_eq_ok.mp rest)
      obtain ⟨entries, reached⟩ := ihLeft first
      obtain ⟨entries', reached'⟩ := ihRight second
      refine ⟨fun q member => ?_, fun q => ?_⟩
      · rcases (pathsUnder_binary path q op left right).mp member with rfl | member | member
        · exact visit_node_entry node
        · exact entries q member
        · exact entries' q member
      · rw [reached', reached, SortedSet.mem_insert, pathsUnder_binary]
        tauto

theorem pathsUnder_root (expression : MirContractExpr) : pathsUnder [] expression = nodePaths expression := by
  rw [pathsUnder]
  exact List.map_id _

/-- A checked receipt that is not empty has the paths of its predicate. -/
theorem validated_paths (accepted : validate_expression_types function catalog contract = .ok ())
    (some_ : contract.expressionTypes.entries ≠ []) (q : List Nat) :
    (contract.expressionTypes.find? q).isSome ↔ q ∈ nodePaths contract.condition := by
  rw [validate_expression_types, if_neg (by simpa using some_)] at accepted
  obtain ⟨⟨ty, visited⟩, walked, all⟩ := bind_eq_ok.mp accepted
  obtain ⟨entries, reached⟩ := visit_paths walked
  rw [pathsUnder_root] at entries reached
  refine ⟨fun found => ?_, entries q⟩
  have every := List.any_eq_false.mp (reject_eq_ok.mp all) q (SortedMap.mem_keys_iff.mpr found)
  have member : q ∈ visited := by simpa using every
  exact ((reached q).mp member).resolve_right (SortedSet.not_mem_empty q)

end Check

/-! ### Agreement -/

theorem perm_nodePaths (sorted : types.Sorted) (paths : ∀ q, (types.find? q).isSome ↔ q ∈ nodePaths expression) :
    types.keys.Perm (nodePaths expression) :=
  (List.perm_ext_iff_of_nodup sorted.nodup (nodePaths_nodup expression)).mpr fun q =>
    SortedMap.mem_keys_iff.trans (paths q)

/-- The paths that are recorded are the paths of the lowered predicate, each once; and a receipt that is
accepted has one entry for every node and no other, unless it has none. -/
theorem contract_receipts_agree (function : MirFunction) (catalog : ReceiptCatalog) (body : ResolvedBody) :
    (∀ condition expression types, lower_contract_expr function body condition = .ok expression →
      collect_expression_types body condition [] .empty = .ok types →
        types.Sorted ∧ types.keys.Perm (nodePaths expression)) ∧
    (∀ contract : MirContract, contract.expressionTypes.entries ≠ [] →
      validate_expression_types function catalog contract = .ok () →
        (∀ path, (contract.expressionTypes.find? path).isSome ↔ path ∈ nodePaths contract.condition) ∧
          (contract.expressionTypes.Sorted →
            contract.expressionTypes.keys.Perm (nodePaths contract.condition))) := by
  refine ⟨fun condition expression types lowered collected => ?_, fun contract some_ accepted => ?_⟩
  · obtain ⟨paths, sorted⟩ := collect_paths lowered collected
    refine ⟨sorted SortedMap.sorted_empty, perm_nodePaths (sorted SortedMap.sorted_empty) fun q => ?_⟩
    rw [paths, pathsUnder_root]
    exact or_iff_left (by simp)
  · exact ⟨validated_paths accepted some_, fun sorted => perm_nodePaths sorted (validated_paths accepted some_)⟩

/-- A function with one pair. -/
def pairFunction : MirFunction where
  owner := ⟨"main"⟩
  parameters := [⟨"local:p", by decide⟩]
  parameterPermissions := none
  result := ⟨"i64"⟩
  entry := ⟨"block.0", by decide⟩
  values := ⟨[(⟨"local:p", by decide⟩, ⟨⟨"local:p", by decide⟩, ⟨"(i64, i64)"⟩⟩)]⟩
  blocks := .empty
  contracts := []
  ownership := ⟨[], .empty, []⟩

/-- A catalog of the truth values. -/
def boolCatalog : ReceiptCatalog where
  types := {
    get := fun ty => if ty = ⟨"bool"⟩ then some ⟨.other, .scalar, .copy, .bool, ⟨.noop, .noop, .noop⟩⟩ else none
    validate_glue := fun _ _ => .ok ()
    validate_variant_glue := fun _ _ => .ok ()
    validate_copy_value := fun _ => .ok ()
    validate_flat_copy_variant := fun _ => .ok ()
    validate_recoverable_source_result_variant := fun _ => .ok ()
    supported_type := fun _ => .ok () }
  projection_result_type := fun ty _ => .ok ty
  has_canonical_copy_noop_metadata := fun _ => true
  is_canonical_copy_scalar := fun _ => true

/-- `-5 < old(p).1`, and a receipt of `true`. -/
theorem contract_receipts_agree_pair :
    ((⟨[([], ⟨"bool"⟩), ([0], ⟨"i64"⟩), ([1], ⟨"i64"⟩), ([1, 0], ⟨"(i64, i64)"⟩)]⟩ : ExpressionTypes).keys.Perm
      (nodePaths (.binary .less (.int (-5))
        (.project (.old ⟨"local:p", by decide⟩) (.tuple 1))))) ∧
    (⟨[([], ⟨"bool"⟩)]⟩ : ExpressionTypes).keys.Perm (nodePaths (.bool true)) :=
  ⟨((contract_receipts_agree pairFunction boolCatalog
      ⟨⟨[(⟨⟨"p"⟩⟩, ⟨"(i64, i64)"⟩)]⟩, [⟨⟨"p"⟩⟩]⟩).1
      (.binary .less (.unary .negate (.int 5 ⟨"i32"⟩) ⟨"i64"⟩)
        (.old (.load ⟨⟨⟨"p"⟩⟩, [.tuple 1 ⟨"i64"⟩]⟩ ⟨"i64"⟩) ⟨"i64"⟩) ⟨"bool"⟩)
      _ _ (by decide) (by decide)).2,
    ((contract_receipts_agree pairFunction boolCatalog ⟨.empty, []⟩).2
      ⟨⟨"contract"⟩, .ensures, .bool true, ⟨[([], ⟨"bool"⟩)]⟩⟩ (List.cons_ne_nil _ _)
      (by decide)).2 (List.pairwise_singleton _ _)⟩

/-- A predicate without a receipt is accepted. -/
theorem empty_receipt_accepted : ¬ ∀ (function : MirFunction) (catalog : ReceiptCatalog) (contract : MirContract),
    validate_expression_types function catalog contract = .ok () →
      contract.expressionTypes.keys.Perm (nodePaths contract.condition) := fun exact_ =>
  absurd (exact_ pairFunction boolCatalog ⟨⟨"contract"⟩, .ensures, .bool true, .empty⟩ rfl) (by decide)

end Mimi.Mir.ContractReceipt
