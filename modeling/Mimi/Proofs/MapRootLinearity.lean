/-
Module: Mimi.Proofs.MapRootLinearity
Purpose: A function that defines no value twice and whose receipts for map roots are accepted consumes every root that
  it creates exactly once.  The receipts are those of its operations, in order, and the ledger of the receipts tracks
  the locals that hold a root.  A string that is put into a map is released behind its Set, while the map is live; the
  map has a copy.
Trusted boundary: none
-/
import Mimi.Mir.MapRootReceipts

namespace Mimi.Mir.MirFunction

open Mimi.Core Mimi.Lib

variable {function : MirFunction} {receipt : MirCheckerMapRootAction} {receipts : List MirCheckerMapRootAction}
  {kind : MirInstructionKind} {ledger ledger' : RootLedger} {s s' : Holdings MirValueId}

variable {message : String}

/-- A check reports nothing just where nothing is wrong. -/
theorem errorIf_eq_nil {wrong : Bool} {subject : String} :
    errorIf wrong subject message = [] ↔ wrong = false := by
  cases wrong <;> simp [errorIf]

/-! ### Receipts and operations -/

/-- An operation with its receipt. -/
structure Receipted (function : MirFunction) (receipt : MirCheckerMapRootAction) (instruction : MirInstruction) :
    Prop where
  id : instruction.id = receipt.instruction
  expected : function.receipt_expected receipt instruction.kind = true

/-- Every receipt has an operation; their places ascend, and no instruction has two receipts. -/
theorem check_receipts_spec {seen : Finset MirInstructionId} {previous : Option Nat}
    (accepted : function.check_receipts receipts seen previous = []) :
    ∃ matched : List (Nat × MirInstruction),
      List.Forall₂ (fun receipt entry => Receipted function receipt entry.2) receipts matched ∧
      (∀ entry ∈ matched, entry ∈ function.observed) ∧
      (matched.map Prod.fst).Pairwise (· < ·) ∧ (∀ entry ∈ matched, ∀ order, previous = some order → order < entry.1) ∧
      (receipts.map MirCheckerMapRootAction.instruction).Nodup ∧ ∀ receipt ∈ receipts, receipt.instruction ∉ seen := by
  induction receipts generalizing seen previous with
  | nil =>
      exact ⟨[], .nil, fun _ member => absurd member List.not_mem_nil, .nil,
        fun _ member => absurd member List.not_mem_nil, .nil, fun _ member => absurd member List.not_mem_nil⟩
  | cons receipt rest ih =>
      rw [check_receipts] at accepted
      split at accepted
      · simp at accepted
      next order instruction found =>
      simp only [List.append_eq_nil_iff, errorIf_eq_nil, Bool.or_eq_false_iff, Bool.not_eq_eq_eq_not, Bool.not_false,
        decide_eq_false_iff_not] at accepted
      obtain ⟨⟨⟨named, unseen⟩, -⟩, ⟨⟨ordered, expected⟩, -⟩, later⟩ := accepted
      rw [if_pos named] at later
      obtain ⟨matched, both, within, ascending, behind, single, others⟩ := ih later
      have at_ : instruction.id = receipt.instruction := by simpa using List.find?_some found
      have member := List.mem_of_find?_eq_some found
      refine ⟨(order, instruction) :: matched, .cons ⟨at_, expected⟩ both, ?_, ?_, ?_, ?_, ?_⟩
      · rintro entry (_ | ⟨_, inside⟩)
        · exact member
        · exact within entry inside
      · refine List.pairwise_cons.mpr ⟨fun other listed => ?_, ascending⟩
        obtain ⟨entry, inside, rfl⟩ := List.mem_map.mp listed
        exact behind entry inside order rfl
      · rintro entry (_ | ⟨_, inside⟩) before rfl
        · simpa using ordered
        · have after := behind entry inside order rfl
          have first : before < order := by simpa using ordered
          omega
      · refine List.nodup_cons.mpr ⟨fun again => ?_, single⟩
        obtain ⟨other, inside, same⟩ := List.mem_map.mp again
        exact others other inside (same ▸ Finset.mem_insert_self _ _)
      · rintro other (_ | ⟨_, inside⟩)
        · exact unseen
        · exact fun before => others other inside (Finset.mem_insert_of_mem before)

/-- The operations of a block are the dedicated ones, in order. -/
def operations (block : MirBlock) : List MirInstruction :=
  block.instructions.filter fun instruction => is_map_root_operation instruction.kind

/-- The places of the operations of a single block ascend, and the operations are those of the block. -/
theorem observed_single {block : MirBlock} (blocks : function.blocks.values = [block]) :
    (function.observed.map Prod.fst).Pairwise (· < ·) ∧ function.observed.map Prod.snd = operations block := by
  have observed : function.observed = (block.instructions.zipIdx.filter fun entry =>
      is_map_root_operation entry.1.kind).map fun entry => (0 * 1000000 + entry.2, entry.1) := by
    rw [MirFunction.observed, blocks, List.zipIdx_singleton, List.flatMap_singleton]
  constructor
  · rw [observed, List.map_map]
    have places : (block.instructions.zipIdx.map Prod.snd).Pairwise (· < ·) := by
      rw [List.zipIdx_map_snd]
      exact List.pairwise_lt_range'
    have kept := (List.pairwise_map.mp places).filter fun entry => is_map_root_operation entry.1.kind
    exact List.pairwise_map.mpr (kept.imp fun before => Nat.add_lt_add_left before _)
  · rw [observed, List.map_map, operations]
    calc _ = (block.instructions.zipIdx.filter fun entry => is_map_root_operation entry.1.kind).map Prod.fst := rfl
      _ = (block.instructions.zipIdx.map Prod.fst).filter fun instruction =>
            is_map_root_operation instruction.kind := by rw [List.filter_map]; rfl
      _ = _ := by rw [List.zipIdx_map_fst]

/-- Where no instruction of the function is a map-root operation, none of a block is. -/
theorem no_operations (empty : function.observed = []) {block : MirBlock} (listed : block ∈ function.blocks.values) :
    operations block = [] := by
  obtain ⟨index, within, rfl⟩ := List.getElem_of_mem listed
  have at_ : (function.blocks.values[index], index) ∈ function.blocks.values.zipIdx := by
    rw [List.mk_mem_zipIdx_iff_getElem?, List.getElem?_eq_getElem within]
  have none_ := List.map_eq_nil_iff.mp (List.flatMap_eq_nil_iff.mp empty _ at_)
  rw [operations, List.filter_eq_nil_iff]
  intro instruction member operation
  obtain ⟨place, within, rfl⟩ := List.getElem_of_mem member
  have here : (function.blocks.values[index].instructions[place], place) ∈
      function.blocks.values[index].instructions.zipIdx := by
    rw [List.mk_mem_zipIdx_iff_getElem?, List.getElem?_eq_getElem within]
  exact List.filter_eq_nil_iff.mp none_ _ here operation

/-- Two lists with ascending keys, as long and with one in the other, are equal. -/
theorem ascending_eq {α : Type} {key : α → Nat} {some_ all : List α} (ascending : (some_.map key).Pairwise (· < ·))
    (ascending' : (all.map key).Pairwise (· < ·)) (within : ∀ entry ∈ some_, entry ∈ all)
    (as_long : all.length ≤ some_.length) : some_ = all := by
  rw [List.pairwise_map] at ascending ascending'
  have single : some_.Nodup := ascending.imp fun less same => absurd (congrArg key same) less.ne
  have perm := (single.subperm within).perm_of_length_le as_long
  exact perm.eq_of_pairwise (fun _ _ _ _ less more => absurd (less.trans more) (lt_irrefl _)) ascending ascending'

/-- What the checks say of an accepted function. -/
structure Accepted (function : MirFunction) : Prop where
  profile : function.ownership.checkerMapRoots = [] ∨ ∃ block, function.blocks.values = [block]
  count : function.ownership.checkerMapRoots.length = function.observed.length
  receipts : function.check_receipts function.ownership.checkerMapRoots ∅ none = []
  steps : (root_steps function.ownership.checkerMapRoots ⟨.empty, .empty⟩).2 = []
  values : function.actual_root_values = function.expected_root_values
  uses : ∀ block ∈ function.blocks.values, ∀ instruction ∈ block.instructions,
    function.dedicated_root_use instruction.kind = true ∨
      ∀ value ∈ instruction.kind.uses, value ∉ function.actual_root_values
  terminators : ∀ block ∈ function.blocks.values, ∀ value ∈ block.terminator.uses, value ∉ function.actual_root_values
  settled : (root_steps function.ownership.checkerMapRoots ⟨.empty, .empty⟩).1.live_roots.entries = []

/-- No error of the validator means that every one of its conditions holds. -/
theorem accepted_of_valid (valid : function.validate_map_root_action_receipts = []) : Accepted function := by
  simp only [validate_map_root_action_receipts, List.append_eq_nil_iff, errorIf_eq_nil, List.flatMap_eq_nil_iff,
    block_errors, decide_eq_false_iff_not, Bool.not_eq_eq_eq_not, Bool.not_false, ne_eq, Decidable.not_not,
    List.isEmpty_iff] at valid
  obtain ⟨⟨⟨⟨⟨⟨⟨⟨⟨profile, -⟩, count⟩, receipts⟩, steps⟩, values⟩, -⟩, blocks⟩, -⟩, settled⟩ := valid
  refine ⟨?_, count, receipts, steps, values, fun block listed instruction member => ?_,
    fun block listed value use => ?_, settled⟩
  · rw [profile_errors, errorIf_eq_nil, Bool.and_eq_false_iff, Bool.or_eq_false_iff] at profile
    rcases profile with none_ | ⟨single, -⟩
    · exact .inl (by simpa using none_)
    · exact .inr (List.length_eq_one_iff.mp (by simpa using single))
  · have fine := (blocks block listed).1.2 instruction member
    rcases Bool.and_eq_false_iff.mp fine with dedicated | none_
    · exact .inl (by simpa using dedicated)
    · refine .inr fun value use root => ?_
      rw [List.any_eq_false] at none_
      exact none_ value use (decide_eq_true root)
  · have fine := (blocks block listed).2
    rw [List.any_eq_false] at fine
    exact fun root => fine value use (decide_eq_true root)

/-- The receipts are those of the operations of every block, in order; a function with receipts has one block. -/
theorem aligned (accepted : Accepted function) {block : MirBlock} (listed : block ∈ function.blocks.values) :
    List.Forall₂ (Receipted function) function.ownership.checkerMapRoots (operations block) ∧
      (function.ownership.checkerMapRoots.map MirCheckerMapRootAction.instruction).Nodup := by
  obtain ⟨matched, both, within, ascending, -, single, -⟩ := check_receipts_spec accepted.receipts
  refine ⟨?_, single⟩
  rcases accepted.profile with none_ | ⟨only, blocks⟩
  · have empty : function.observed = [] := by
      rw [← List.length_eq_zero_iff, ← accepted.count, none_, List.length_nil]
    rw [none_, no_operations empty listed]
    exact .nil
  · obtain rfl : block = only := by simpa [blocks] using listed
    obtain ⟨places, instructions⟩ := observed_single blocks
    have as_long : function.observed.length ≤ matched.length := by
      rw [← accepted.count, both.length_eq]
    obtain rfl := ascending_eq ascending places within as_long
    rw [← instructions, List.forall₂_map_right_iff]
    exact both

variable {instruction : MirInstruction}

/-- Every operation of a block has a receipt of its own. -/
theorem receipt_of_operation {instructions : List MirInstruction}
    (both : List.Forall₂ (Receipted function) receipts instructions) (member : instruction ∈ instructions) :
    ∃ receipt ∈ receipts, Receipted function receipt instruction := by
  induction both with
  | nil => exact absurd member List.not_mem_nil
  | cons first later ih =>
      rcases List.mem_cons.mp member with rfl | behind
      · exact ⟨_, List.mem_cons_self, first⟩
      · obtain ⟨receipt, listed, receipted⟩ := ih behind
        exact ⟨receipt, List.mem_cons_of_mem _ listed, receipted⟩

/-! ### The ledger -/

/-- What a receipt that agrees with its operation says of it. -/
inductive Agrees (function : MirFunction) (receipt : MirCheckerMapRootAction) : MirInstructionKind → Prop where
  | new (action : receipt.kind = .new) : Agrees function receipt (.mapRootNew receipt.local_)
  | set {source value : MirValueId} {key : String} (action : receipt.kind = .set)
      (local_ : receipt.sourceLocal = some source) (root : receipt.source.isSome)
      (payload : function.has_type value (primitive_type_id "string") = true →
        function.validate_map_root_string_payload_lifetime receipt.instruction value = true) :
      Agrees function receipt (.mapRootSet receipt.local_ source key value)
  | remove {source : MirValueId} {key : String} (action : receipt.kind = .remove)
      (local_ : receipt.sourceLocal = some source) (root : receipt.source.isSome) :
      Agrees function receipt (.mapRootRemove receipt.local_ source key)
  | size {result : MirValueId} (action : receipt.kind = .size) :
      Agrees function receipt (.mapRootSize result receipt.local_)
  | contains {result : MirValueId} {key : String} (action : receipt.kind = .contains) :
      Agrees function receipt (.mapRootContains result receipt.local_ key)
  | drop (action : receipt.kind = .drop) : Agrees function receipt (.mapRootDrop receipt.local_)

/-- A receipt that is expected for an instruction agrees with it in action, root and key. -/
theorem agrees_of_expected (expected : function.receipt_expected receipt kind = true) :
    Agrees function receipt kind := by
  unfold receipt_expected at expected
  split at expected <;> rename_i action <;>
    simp only [Bool.and_eq_true, Bool.or_eq_true, decide_eq_true_eq, Bool.false_eq_true] at expected
  · obtain ⟨⟨⟨⟨⟨⟨rfl, -⟩, -⟩, -⟩, -⟩, -⟩, -⟩ := expected
    exact .new action
  · obtain ⟨⟨⟨⟨⟨⟨⟨⟨rfl, -⟩, source⟩, -⟩, -⟩, typed⟩, payload⟩, root⟩, -⟩ := expected
    refine .set action source.symm root fun string => payload.resolve_left fun other => other ?_
    cases is : receipt.valueType with
    | none =>
        rw [is] at typed
        cases typed
    | some ty =>
        rw [is, Option.any_some] at typed
        rw [has_type, decide_eq_true_eq] at typed string
        rw [Option.some.inj (typed.symm.trans string)]
  · obtain ⟨⟨⟨⟨⟨⟨⟨rfl, -⟩, source⟩, -⟩, -⟩, -⟩, root⟩, -⟩ := expected
    exact .remove action source.symm root
  · obtain ⟨⟨⟨⟨⟨⟨rfl, -⟩, -⟩, -⟩, -⟩, -⟩, -⟩ := expected
    exact .size action
  · obtain ⟨⟨⟨⟨⟨⟨⟨⟨rfl, -⟩, -⟩, -⟩, -⟩, -⟩, -⟩, -⟩, -⟩ := expected
    exact .contains action
  · obtain ⟨⟨⟨⟨⟨⟨rfl, -⟩, -⟩, -⟩, -⟩, -⟩, -⟩ := expected
    exact .drop action

/-- No root is listed twice, and no local has two roots. -/
structure Single (ledger : RootLedger) : Prop where
  roots : ledger.live_roots.keys.Nodup
  locals : ledger.live_roots.values.Nodup

/-- The roots of a ledger stay single when one of them leaves it. -/
theorem Single.of_perm {root : String} {value : MirValueId}
    (single : Single ledger) (perm : ((root, value) :: ledger'.live_roots.entries).Perm ledger.live_roots.entries) :
    Single ledger' :=
  ⟨((perm.map Prod.fst).nodup_iff.mpr single.roots).of_cons, ((perm.map Prod.snd).nodup_iff.mpr single.locals).of_cons⟩

/-- A local whose root leaves the ledger. -/
theorem mem_locals_of_perm {root : String} {source value : MirValueId} (single : Single ledger)
    (perm : ((root, source) :: ledger'.live_roots.entries).Perm ledger.live_roots.entries) :
    value ∈ ledger.live_roots.values ∧ value ≠ source ↔ value ∈ ledger'.live_roots.values := by
  have locals : (source :: ledger'.live_roots.values).Perm ledger.live_roots.values := perm.map Prod.snd
  have outside := (List.nodup_cons.mp (locals.nodup_iff.mpr single.locals)).1
  rw [← locals.mem_iff, List.mem_cons]
  constructor
  · exact fun ⟨here, apart⟩ => here.resolve_left apart
  · exact fun later => ⟨.inr later, fun same => outside (same ▸ later)⟩

/-- A source that is consumed without an error leaves the ledger, and with it the name of its root; the other
roots stay as they are. -/
theorem consume_root_spec {source : MirValueId} (local_ : receipt.sourceLocal = some source)
    (root : receipt.source.isSome) (fine : (consume_root receipt ledger message).2.2 = []) :
    ∃ root, ((root, source) :: (consume_root receipt ledger message).1.live_roots.entries).Perm
      ledger.live_roots.entries := by
  obtain ⟨name, is⟩ := Option.isSome_iff_exists.mp root
  rw [consume_root, is] at fine ⊢
  dsimp only at fine ⊢
  rw [errorIf_eq_nil, decide_eq_false_iff_not, Decidable.not_not] at fine
  have found : ledger.live_roots.find? name = some source := fine.trans local_
  rw [if_pos fine]
  exact ⟨name, SortedMap.entries_erase found⟩

variable {payload_type : Option ResolvedTypeId}

/-- A root that is created without an error was in the ledger neither by its name nor by its local, and enters it
beside the others. -/
theorem create_root_spec (fine : (create_root receipt payload_type ledger message).2 = []) :
    receipt.local_ ∉ ledger.live_roots.values ∧
      ((create_root receipt payload_type ledger message).1.live_roots.entries).Perm
        ((receipt.root, receipt.local_) :: ledger.live_roots.entries) ∧
      ledger.live_roots.find? receipt.root = none := by
  rw [create_root] at fine ⊢
  split_ifs at fine ⊢ with taken
  rw [Bool.or_eq_true, not_or, Bool.not_eq_true, decide_eq_true_eq] at taken
  have fresh : ledger.live_roots.find? receipt.root = none := by simpa [SortedMap.contains] using taken.1
  exact ⟨taken.2, SortedMap.entries_insert _ fresh, fresh⟩

/-- A root that enters the ledger. -/
theorem Single.create (single : Single ledger) (fine : (create_root receipt payload_type ledger message).2 = []) :
    Single (create_root receipt payload_type ledger message).1 := by
  obtain ⟨fresh, perm, unknown⟩ := create_root_spec fine
  refine ⟨(perm.map Prod.fst).nodup_iff.mpr (List.nodup_cons.mpr ⟨fun again => ?_, single.roots⟩),
    (perm.map Prod.snd).nodup_iff.mpr (List.nodup_cons.mpr ⟨fresh, single.locals⟩)⟩
  have known := SortedMap.mem_keys_iff.mp again
  rw [unknown] at known
  cases known

/-- The local of a root that enters the ledger is the new one. -/
theorem tracks_create (tracks : s.Tracks (· ∈ ledger.live_roots.values))
    (fine : (create_root receipt payload_type ledger message).2 = []) :
    (s.make receipt.local_).Tracks (· ∈ (create_root receipt payload_type ledger message).1.live_roots.values) := by
  obtain ⟨fresh, perm, -⟩ := create_root_spec fine
  exact (tracks.make fresh).congr fun value => ((perm.map Prod.snd).mem_iff.trans List.mem_cons)

/-- The values that an instruction defines hold no root. -/
def Fresh (kind : MirInstructionKind) (s : Holdings MirValueId) : Prop :=
  ∀ value ∈ kind.results, value ∉ s.held.map Prod.fst

/-- An operation whose operands hold roots, and that reads no other root, takes and creates its own. -/
theorem rootStep_of_held (fresh : Fresh kind s) (held : ∀ value ∈ root_operands kind, s.holds value = true)
    (reads : ∀ value ∈ kind.uses, value ∈ function.actual_root_values → value ∈ root_operands kind) :
    function.rootStep kind s =
      (Holdings.finishAll (roots_taken kind) s).map fun s => s.makeAll (roots_created kind) := by
  have all : (root_operands kind ++ kind.uses.filter (· ∈ function.actual_root_values)).all s.holds = true := by
    rw [List.all_eq_true]
    intro value member
    rcases List.mem_append.mp member with operand | use
    · exact held value operand
    · obtain ⟨use, root⟩ := List.mem_filter.mp use
      exact held value (reads value use (of_decide_eq_true root))
  rw [rootStep, if_pos all]
  cases finished : Holdings.finishAll (roots_taken kind) s with
  | none => rfl
  | some s₁ =>
      have free : s₁.lose kind.results = s₁ := Holdings.lose_of_free fun value result here =>
        fresh value result (((Holdings.finishAll_held finished).map Prod.fst).subset here)
      exact congrArg (fun s => some (s.makeAll (roots_created kind))) free

/-- A root is held where one was held, or where the instruction defines a value. -/
theorem rootStep_held (steps : function.rootStep kind s = some s') {value : MirValueId}
    (held : value ∈ s'.held.map Prod.fst) : value ∈ kind.results ∨ value ∈ s.held.map Prod.fst := by
  rw [rootStep] at steps
  split_ifs at steps
  obtain ⟨s₁, finished, is⟩ := Option.bind_eq_some_iff.mp steps
  cases is
  rcases Holdings.makeAll_held held with created | before
  · have defined : ∀ value ∈ roots_created kind, value ∈ kind.results := by
      cases kind <;> first | exact fun _ member => member | exact fun _ member => absurd member List.not_mem_nil
    exact .inl (defined value created)
  · exact .inr ((((List.filter_sublist).trans (Holdings.finishAll_held finished)).map Prod.fst).subset before)

/-- The root of a source is taken, and ends. -/
theorem finish_source {root : String} {source : MirValueId} (single : Single ledger)
    (tracks : s.Tracks (· ∈ ledger.live_roots.values))
    (perm : ((root, source) :: ledger'.live_roots.entries).Perm ledger.live_roots.entries) :
    s.holds source = true ∧ ∃ s', Holdings.finishAll [source] s = some s' ∧
      s'.Tracks (· ∈ ledger'.live_roots.values) := by
  have here : source ∈ ledger.live_roots.values := (perm.map Prod.snd).mem_iff.mp List.mem_cons_self
  obtain ⟨object, s₁, taken, tracks₁⟩ := tracks.take here
  refine ⟨tracks.holds here, s₁.finish object, by rw [Holdings.finishAll, taken]; rfl, tracks₁.single, fun value => ?_⟩
  exact (tracks₁.exact value).trans (mem_locals_of_perm single perm)

/-- The ledger follows the roots over an operation. -/
theorem root_step_follows (agrees : Agrees function receipt kind) (fine : (root_step receipt ledger).2 = [])
    (single : Single ledger) (tracks : s.Tracks (· ∈ ledger.live_roots.values)) (fresh : Fresh kind s)
    (reads : ∀ value ∈ kind.uses, value ∈ function.actual_root_values → value ∈ root_operands kind) :
    ∃ s', function.rootStep kind s = some s' ∧ s'.Tracks (· ∈ (root_step receipt ledger).1.live_roots.values) ∧
      Single (root_step receipt ledger).1 := by
  cases agrees with
  | new action =>
      simp only [root_step, action] at fine ⊢
      rw [rootStep_of_held fresh (fun _ member => absurd member List.not_mem_nil) reads]
      exact ⟨_, rfl, tracks_create tracks fine, single.create fine⟩
  | set action local_ root payload =>
      simp only [root_step, action, List.append_eq_nil_iff] at fine ⊢
      obtain ⟨name, perm⟩ := consume_root_spec local_ root fine.1.1
      obtain ⟨held, s₁, finished, tracks₁⟩ := finish_source single tracks perm
      rw [rootStep_of_held fresh (by simpa [root_operands] using held) reads]
      simp only [roots_taken, finished]
      exact ⟨_, rfl, tracks_create tracks₁ fine.2, (single.of_perm perm).create fine.2⟩
  | remove action local_ root =>
      simp only [root_step, action, List.append_eq_nil_iff] at fine ⊢
      obtain ⟨name, perm⟩ := consume_root_spec local_ root fine.1
      obtain ⟨held, s₁, finished, tracks₁⟩ := finish_source single tracks perm
      rw [rootStep_of_held fresh (by simpa [root_operands] using held) reads]
      simp only [roots_taken, finished]
      exact ⟨_, rfl, tracks_create tracks₁ fine.2, (single.of_perm perm).create fine.2⟩
  | size action | contains action =>
      simp only [root_step, action, errorIf_eq_nil, decide_eq_false_iff_not, Decidable.not_not, ne_eq] at fine ⊢
      have here : receipt.local_ ∈ ledger.live_roots.values := List.mem_map_of_mem (SortedMap.mem_of_find? fine)
      rw [rootStep_of_held fresh (by simpa [root_operands] using tracks.holds here) reads]
      exact ⟨s, rfl, tracks, single⟩
  | drop action =>
      simp only [root_step, action, errorIf_eq_nil, decide_eq_false_iff_not, Decidable.not_not, ne_eq] at fine ⊢
      have perm : ((receipt.root, receipt.local_) :: (RootLedger.mk (ledger.live_roots.erase receipt.root)
          (ledger.live_payload_types.erase receipt.root)).live_roots.entries).Perm ledger.live_roots.entries :=
        SortedMap.entries_erase fine
      obtain ⟨held, s₁, finished, tracks₁⟩ := finish_source single tracks perm
      rw [rootStep_of_held fresh (by simpa [root_operands] using held) reads]
      simp only [roots_taken, finished]
      exact ⟨_, rfl, tracks₁, single.of_perm perm⟩

/-- An operation keeps the account of roots: all that were made are held or have been consumed.  Here the results
must be fresh, since a result takes the place of what its local holds. -/
theorem rootStep_balanced (balanced : s.Balanced) (fresh : Fresh kind s)
    (steps : function.rootStep kind s = some s') : s'.Balanced := by
  rw [rootStep] at steps
  split_ifs at steps
  obtain ⟨s₁, finished, is⟩ := Option.bind_eq_some_iff.mp steps
  have free : s₁.lose kind.results = s₁ := Holdings.lose_of_free fun value result here =>
    fresh value result (((Holdings.finishAll_held finished).map Prod.fst).subset here)
  rw [free] at is
  cases is
  exact (balanced.finishAll finished).makeAll

/-- An instruction that is no operation on roots, and reads none, does nothing to them. -/
theorem rootStep_other (other : is_map_root_operation kind = false)
    (reads : ∀ value ∈ kind.uses, value ∈ function.actual_root_values → value ∈ root_operands kind)
    (fresh : Fresh kind s) : function.rootStep kind s = some s := by
  have none_ : root_operands kind = [] ∧ roots_taken kind = [] ∧ roots_created kind = [] := by
    cases kind <;> first | exact ⟨rfl, rfl, rfl⟩ | cases other
  have held : ∀ value ∈ root_operands kind, s.holds value = true := by
    rw [none_.1]
    exact fun _ member => absurd member List.not_mem_nil
  rw [rootStep_of_held fresh held reads, none_.2.1, none_.2.2]
  rfl

/-- The ledger follows the roots over the instructions of a block. -/
theorem root_run {instructions : List MirInstruction}
    (both : List.Forall₂ (Receipted function) receipts
      (instructions.filter fun instruction => is_map_root_operation instruction.kind))
    (fine : (root_steps receipts ledger).2 = []) (single : Single ledger)
    (tracks : s.Tracks (· ∈ ledger.live_roots.values)) (balanced : s.Balanced)
    (apart : (instructions.flatMap fun instruction => instruction.kind.results).Nodup)
    (fresh : ∀ instruction ∈ instructions, Fresh instruction.kind s)
    (reads : ∀ instruction ∈ instructions, ∀ value ∈ instruction.kind.uses, value ∈ function.actual_root_values →
      value ∈ root_operands instruction.kind) :
    ∃ s', function.rootSteps instructions s = some s' ∧
      s'.Tracks (· ∈ (root_steps receipts ledger).1.live_roots.values) ∧ s'.Balanced := by
  induction instructions generalizing receipts ledger s with
  | nil =>
      cases both
      exact ⟨s, rfl, tracks, balanced⟩
  | cons instruction rest ih =>
      have here := reads instruction List.mem_cons_self
      have later := fun instruction member => reads instruction (List.mem_cons_of_mem _ member)
      have free := fresh instruction List.mem_cons_self
      have free_later := fun instruction member => fresh instruction (List.mem_cons_of_mem _ member)
      obtain ⟨-, apart, disjoint⟩ := List.nodup_append'.mp apart
      by_cases operation : is_map_root_operation instruction.kind = true
      · rw [List.filter_cons, if_pos operation] at both
        cases both with
        | cons first both =>
            simp only [root_steps, List.append_eq_nil_iff] at fine ⊢
            obtain ⟨s₁, steps, tracks₁, single₁⟩ :=
              root_step_follows (agrees_of_expected first.expected) fine.1 single tracks free here
            -- what the step made is held by its own result, which no later instruction defines
            have free₁ : ∀ other ∈ rest, Fresh other.kind s₁ := by
              intro other member value result held
              rcases rootStep_held steps held with mine | before
              · exact disjoint mine (List.mem_flatMap.mpr ⟨other, member, result⟩)
              · exact free_later other member value result before
            obtain ⟨s', run, tracks', balanced'⟩ :=
              ih both fine.2 single₁ tracks₁ (rootStep_balanced balanced free steps) apart free₁ later
            exact ⟨s', by rw [rootSteps, steps]; exact run, tracks', balanced'⟩
      · rw [List.filter_cons, if_neg operation] at both
        have same := rootStep_other (Bool.eq_false_of_not_eq_true operation) here free
        obtain ⟨s', run, tracks', balanced'⟩ := ih both fine single tracks balanced apart free_later later
        exact ⟨s', by rw [rootSteps, same]; exact run, tracks', balanced'⟩

/-- The roots that an instruction reads are its operands. -/
theorem root_reads (accepted : Accepted function) {block : MirBlock} (listed : block ∈ function.blocks.values)
    (member : instruction ∈ block.instructions) {value : MirValueId}
    (use : value ∈ instruction.kind.uses) (root : value ∈ function.actual_root_values) :
    value ∈ root_operands instruction.kind := by
  rcases accepted.uses block listed instruction member with dedicated | none_
  · revert use dedicated
    cases instruction.kind <;> intro use dedicated <;> first | exact use | simp [dedicated_root_use] at dedicated
    obtain ⟨-, apart⟩ := dedicated
    rcases List.mem_cons.mp use with here | there
    · exact List.mem_singleton.mpr here
    · rw [List.mem_singleton.mp there] at root
      exact absurd root apart
  · exact absurd root (none_ value use)

/-- The roots of an accepted function, by induction along its instructions: the ledger of the check and the roots
of the execution stay the same, and the ledger is empty in the end. -/
theorem roots_consumed (defined : function.SingleDefinitions) (accepted : Accepted function) :
    function.RootsConsumed := by
  intro block listed
  have apart : (block.instructions.flatMap fun instruction => instruction.kind.results).Nodup :=
    (List.nodup_append'.mp (List.nodup_append'.mp (defined.nodup_block listed)).2.1).2.1
  refine ⟨accepted.terminators block listed, ?_⟩
  have nothing : (Holdings.empty : Holdings MirValueId).Tracks
      (· ∈ (⟨.empty, .empty⟩ : RootLedger).live_roots.values) :=
    Holdings.tracks_empty.congr fun _ => iff_false_intro List.not_mem_nil
  obtain ⟨s, run, tracks, balanced⟩ := root_run (aligned accepted listed).1 accepted.steps ⟨.nil, .nil⟩ nothing
    Holdings.balanced_empty apart (fun _ _ _ _ => List.not_mem_nil)
    fun _ member _ use root => root_reads accepted listed member use root
  have empty : s.held = [] := tracks.nothing fun value live => by
    rw [SortedMap.values, accepted.settled] at live
    exact List.not_mem_nil live
  rw [Holdings.Balanced, empty] at balanced
  exact ⟨s, run, empty, balanced⟩

/-! ### Payloads -/

variable {block : MirBlock} {front rest : List MirInstruction} {id : MirInstructionId}
  {result source value : MirValueId} {key : String}

/-- The place of a `Set` is that of the first operation with its identity. -/
theorem position_of_set (blocks : function.blocks.values = [block])
    (is : block.instructions = front ++ ⟨id, .mapRootSet result source key value⟩ :: rest)
    (single : ((operations block).map MirInstruction.id).Nodup) {found : MirBlock} {place : Nat}
    (position : function.position_of id = some (found, place))
    (here : found.instructions[place]? = some instruction) (operation : is_map_root_operation instruction.kind = true) :
    found = block ∧ place = front.length := by
  rw [position_of, blocks, List.findSome?_singleton, is, List.findIdx?_append] at position
  obtain ⟨index, at_, pair⟩ := Option.map_eq_some_iff.mp position
  cases pair
  refine ⟨rfl, ?_⟩
  cases before : front.findIdx? fun instruction => instruction.id = id with
  | none =>
      rw [before, Option.none_or, List.findIdx?_cons, if_pos (decide_eq_true rfl)] at at_
      simpa using at_.symm
  | some earlier =>
      rw [before, Option.some_or, Option.some.injEq] at at_
      subst at_
      obtain ⟨within, same, -⟩ := List.findIdx?_eq_some_iff_getElem.mp before
      rw [is, List.getElem?_append_left within, List.getElem?_eq_getElem within, Option.some.injEq] at here
      rw [here, decide_eq_true_eq] at same
      -- Two operations would have the identity.
      have twice : (⟨id, .mapRootSet result source key value⟩ : MirInstruction) ∈
          (⟨id, .mapRootSet result source key value⟩ :: rest).filter fun instruction =>
            is_map_root_operation instruction.kind := List.mem_filter.mpr ⟨List.mem_cons_self, rfl⟩
      have member : instruction ∈ front.filter fun instruction => is_map_root_operation instruction.kind :=
        List.mem_filter.mpr ⟨here ▸ List.getElem_mem within, operation⟩
      rw [operations, is, List.filter_append, List.map_append] at single
      exact absurd same (List.nodup_append.mp single |>.2.2 _ (List.mem_map_of_mem member) _
        (List.mem_map_of_mem twice))

/-- What the check of a payload says of its `Set`. -/
theorem copied_of_lifetime (blocks : function.blocks.values = [block])
    (is : block.instructions = front ++ ⟨id, .mapRootSet result source key value⟩ :: rest)
    (single : ((operations block).map MirInstruction.id).Nodup)
    (lifetime : function.validate_map_root_string_payload_lifetime id value = true) :
    (∃ instruction ∈ front, function.defines_owned_string value instruction.kind = true) ∧
      (∃ drop later, rest = ⟨drop, .drop value⟩ :: later ∧
        ∀ instruction ∈ front ++ later, value ∉ instruction.kind.uses) ∧ value ∉ block.terminator.uses := by
  unfold validate_map_root_string_payload_lifetime at lifetime
  split at lifetime
  · cases lifetime
  next found place position =>
  split at lifetime
  next dropped here behind =>
    simp only [Bool.and_eq_true, decide_eq_true_eq, Bool.not_eq_true', List.any_eq_false] at lifetime
    obtain ⟨⟨⟨⟨⟨⟨rfl, rfl⟩, fresh⟩, -⟩, two⟩, -⟩, terminators⟩ := lifetime
    obtain ⟨rfl, rfl⟩ := position_of_set blocks is single position here rfl
    rw [is, List.take_left, List.any_eq_true] at fresh
    rw [is, List.getElem?_append_right (Nat.le_add_right _ 1), Nat.add_sub_cancel_left, List.getElem?_cons_succ]
      at behind
    obtain ⟨drop, later, rfl⟩ : ∃ drop later, rest = ⟨drop, .drop dropped⟩ :: later := by
      cases rest with
      | nil => cases behind
      | cons first later => exact ⟨_, later, congrArg (· :: later) (Option.some.inj behind)⟩
    refine ⟨fresh, ⟨drop, later, rfl, fun instruction member use => ?_⟩, terminators _ (by simp [blocks])⟩
    -- The `Set` and the drop are two uses already.
    rw [use_positions, blocks, List.flatMap_singleton, is, List.length_map] at two
    have set_uses : dropped ∈ (MirInstructionKind.mapRootSet result source key dropped).uses :=
      List.mem_cons_of_mem _ List.mem_cons_self
    have drop_uses : dropped ∈ (MirInstructionKind.drop dropped).uses := List.mem_cons_self
    simp only [List.filter_append, List.filter_cons, set_uses, drop_uses, decide_true, if_true, List.length_append,
      List.length_cons] at two
    have kept : instruction ∈ (front.filter fun instruction => dropped ∈ instruction.kind.uses) ++
        later.filter fun instruction => dropped ∈ instruction.kind.uses := by
      rw [← List.filter_append]
      exact List.mem_filter.mpr ⟨member, decide_eq_true use⟩
    have more := List.length_pos_of_mem kept
    rw [List.length_append] at more
    omega
  · cases lifetime

/-- The payloads of an accepted function: the receipt of a `Set` of a String has asked for the lifetime check. -/
theorem payloads_copied (accepted : Accepted function) : function.PayloadsCopied := by
  intro block listed front rest id result source key value is string
  obtain ⟨both, apart⟩ := aligned accepted listed
  have single : ((operations block).map MirInstruction.id).Nodup := by
    have same : (operations block).map MirInstruction.id =
        function.ownership.checkerMapRoots.map MirCheckerMapRootAction.instruction := by
      refine List.forall₂_eq_eq_eq ▸ List.forall₂_map_left_iff.mpr (List.forall₂_map_right_iff.mpr ?_)
      exact both.flip.imp fun _ _ receipted => receipted.id
    rwa [same]
  have operation : (⟨id, .mapRootSet result source key value⟩ : MirInstruction) ∈ operations block := by
    rw [operations, is]
    exact List.mem_filter.mpr ⟨List.mem_append_right _ List.mem_cons_self, rfl⟩
  obtain ⟨receipt, member, receipted⟩ : ∃ receipt ∈ function.ownership.checkerMapRoots,
      Receipted function receipt ⟨id, .mapRootSet result source key value⟩ := receipt_of_operation both operation
  have blocks : function.blocks.values = [block] := by
    rcases accepted.profile with none_ | ⟨only, blocks⟩
    · rw [none_] at member
      exact absurd member List.not_mem_nil
    · rw [blocks, List.mem_singleton] at listed
      rw [blocks, listed]
  have lifetime : function.validate_map_root_string_payload_lifetime id value = true := by
    rw [show id = receipt.instruction from receipted.id]
    cases agrees_of_expected receipted.expected with
    | set action local_ root payload => exact payload string
  obtain ⟨fresh, drops, terminator⟩ := copied_of_lifetime blocks is single lifetime
  have others : ∀ other ∈ function.blocks.values, other = block := by simp [blocks]
  exact ⟨fresh, drops, fun other listed => others other listed ▸ terminator,
    fun other listed => .inl (others other listed)⟩

/-- Map roots are linear in every function that the validator accepts, and what is put into a map is copied. -/
theorem map_roots_linear (defined : function.SingleDefinitions)
    (valid : function.validate_map_root_action_receipts = []) : function.RootsConsumed ∧ function.PayloadsCopied :=
  ⟨roots_consumed defined (accepted_of_valid valid), payloads_copied (accepted_of_valid valid)⟩

/-- A map is made, a literal is put into it, and the map is released. -/
def mapWithLiteral : MirFunction :=
  let block : MirBlockId := ⟨"block:0", Eq.refl false⟩
  let made : MirValueId := ⟨"local:made", rfl⟩
  let set : MirValueId := ⟨"local:set", rfl⟩
  let payload : MirValueId := ⟨"value:payload", rfl⟩
  let newId : MirInstructionId := ⟨"inst:map_root_new:local:made:p0", rfl⟩
  let setId : MirInstructionId := ⟨"inst:map_root_set:local:set:p1", rfl⟩
  let dropId : MirInstructionId := ⟨"inst:map_root_drop:local:set:p2", rfl⟩
  { owner := ⟨"function:index"⟩
    parameters := []
    parameterPermissions := none
    result := ⟨"unit"⟩
    entry := block
    values := ⟨[(made, ⟨made, map_root_type_id⟩), (set, ⟨set, map_root_type_id⟩),
      (payload, ⟨payload, primitive_type_id "string"⟩)]⟩
    blocks := ⟨[(block, ⟨block, [], [⟨newId, .mapRootNew made⟩, ⟨⟨"i1", Eq.refl false⟩, .const payload (.string "value")⟩,
      ⟨setId, .mapRootSet set made "key" payload⟩, ⟨⟨"i2", Eq.refl false⟩, .drop payload⟩, ⟨dropId, .mapRootDrop set⟩],
      .return_ none⟩)]⟩
    contracts := []
    ownership := ⟨[], .empty, [
      ⟨.new, ⟨"p0"⟩, made, some made, "made", none, none, none, none, none, newId⟩,
      ⟨.set, ⟨"p1"⟩, set, some set, "set", some "key", some payload, some (primitive_type_id "string"), some made,
        some "made", setId⟩,
      ⟨.drop, ⟨"p2"⟩, set, none, "set", none, none, none, none, none, dropId⟩]⟩ }

theorem map_roots_linear_literal : mapWithLiteral.RootsConsumed ∧ mapWithLiteral.PayloadsCopied :=
  map_roots_linear (by decide) (by decide +kernel)

/-- A map is made, and its size is written over it. -/
def mapOverwritten : MirFunction :=
  let block : MirBlockId := ⟨"block:0", Eq.refl false⟩
  let made : MirValueId := ⟨"local:made", rfl⟩
  let newId : MirInstructionId := ⟨"inst:map_root_new:local:made:p0", rfl⟩
  let sizeId : MirInstructionId := ⟨"inst:map_root_size:local:made:p1", rfl⟩
  let dropId : MirInstructionId := ⟨"inst:map_root_drop:local:made:p2", rfl⟩
  { mapWithLiteral with
    values := ⟨[(made, ⟨made, map_root_type_id⟩)]⟩
    blocks := ⟨[(block, ⟨block, [], [⟨newId, .mapRootNew made⟩, ⟨sizeId, .mapRootSize made made⟩,
      ⟨dropId, .mapRootDrop made⟩], .return_ none⟩)]⟩
    ownership := ⟨[], .empty, [
      ⟨.new, ⟨"p0"⟩, made, some made, "made", none, none, none, none, none, newId⟩,
      ⟨.size, ⟨"p1"⟩, made, some made, "made", none, none, none, none, none, sizeId⟩,
      ⟨.drop, ⟨"p2"⟩, made, none, "made", none, none, none, none, none, dropId⟩]⟩ }

/-- The checks accept a map whose string is released in front of it; and a map that is overwritten, in a function that
defines a value twice. -/
theorem payload_released_early :
    (¬∀ function : MirFunction, function.SingleDefinitions → function.validate_map_root_action_receipts = [] →
      function.RootsConsumed ∧ function.PayloadsOutliveMaps) ∧
    ¬∀ function : MirFunction, function.validate_map_root_action_receipts = [] → function.RootsConsumed := by
  constructor
  · intro claim
    obtain ⟨-, outlive⟩ := claim mapWithLiteral (by decide) (by decide +kernel)
    have early := outlive _ List.mem_cons_self [_, _] _ _ _ _ _ _ rfl (by decide +kernel)
    revert early
    decide
  · intro claim
    obtain ⟨-, s, run, -⟩ := claim mapOverwritten (by decide +kernel) _ List.mem_cons_self
    have stuck : mapOverwritten.rootSteps
        (mapOverwritten.blocks.values.flatMap MirBlock.instructions) .empty = none := by decide +kernel
    exact nomatch stuck.symm.trans run

end Mimi.Mir.MirFunction
