/-
Module: Mimi.Proofs.OwnedStrings
Purpose: A function that the return contract of owned strings accepts releases every string exactly once but the one it
  returns: the ledger tracks the values that hold a string along the execution.  The tables leave out some operands,
  which the catalog does not let be strings.
Trusted boundary: none
-/
import Mimi.Mir.OwnedString

namespace Mimi.Mir.MirFunction

open Mimi.Core Mimi.Lib

variable {function : MirFunction} {functions : SortedMap NodeId MirFunction} {type_catalog : StringCatalog}
  {kind : MirInstructionKind} {live live' : Live} {s s' : Holdings MirValueId}

/-- The operands and results that neither table of the contract lists: the index of a projection, the base of a direct
variant projection, what a borrowed field is printed of, and the ends of a session.  None of them is a string where
the receipts of the instruction agree with the catalog. -/
def left_out : MirInstructionKind → List MirValueId
  | .project _ _ projection _ | .moveProject _ _ projection | .moveProjectDrop _ _ projection _ => projection.uses
  | .variantProject _ base _ => [base]
  | .builtinCall _ _ arguments (some _) => arguments
  | .sessionPairBind lo hi _ => [lo, hi]
  | _ => []

/-- No value that the tables leave out is a string. -/
def LeavesNoString (function : MirFunction) (type_catalog : StringCatalog) : Prop :=
  ∀ block ∈ function.blocks.values, ∀ instruction ∈ block.instructions, ∀ value ∈ left_out instruction.kind,
    function.is_string type_catalog value = false

instance : Decidable (function.LeavesNoString type_catalog) :=
  inferInstanceAs (Decidable (∀ block ∈ function.blocks.values, ∀ instruction ∈ block.instructions,
    ∀ value ∈ left_out instruction.kind, function.is_string type_catalog value = false))

/-! ### The tables -/

/-- The instructions with an arm of their own in the ledger. -/
def is_glue : MirInstructionKind → Bool
  | .const _ _ | .move _ _ | .clone _ _ | .drop _ => true
  | _ => false

attribute [local simp] MirInstructionKind.uses MirInstructionKind.consumed MirInstructionKind.results
  string_sources left_out stringStep ledger

theorem consumed_uses {value : MirValueId} (member : value ∈ kind.consumed) : value ∈ kind.uses := by
  cases kind with
  | listOp result operation list argument contract =>
      cases operation <;> cases argument <;> simp_all [MirInstructionKind.consumed, MirInstructionKind.uses]
  | setOp result operation set argument =>
      cases operation <;> simp_all [MirInstructionKind.consumed, MirInstructionKind.uses]
  | builtinCall result builtin arguments contract =>
      cases contract <;> simp_all [MirInstructionKind.consumed, MirInstructionKind.uses]
  | sessionCall result operation endpoint payload contract =>
      cases operation <;> simp_all [MirInstructionKind.consumed, MirInstructionKind.uses]
  | _ => simp_all [MirInstructionKind.consumed, MirInstructionKind.uses]

/-- What an instruction reads is in the table of sources, or left out. -/
theorem uses_listed (other : is_glue kind = false) {value : MirValueId} (member : value ∈ kind.uses) :
    value ∈ string_sources kind ∨ value ∈ left_out kind := by
  cases kind with
  | const | move | clone | drop => cases other
  | builtinCall result builtin arguments contract =>
      cases contract <;> simp_all [MirInstructionKind.uses, string_sources, left_out]
  | _ => simp_all [MirInstructionKind.uses, string_sources, left_out]

/-- What an instruction makes is in the table of results, or left out. -/
theorem results_listed (other : is_glue kind = false) {value : MirValueId} (member : value ∈ kind.results) :
    produced_string kind = some value ∨ value ∈ left_out kind := by
  cases kind with
  | const | move | clone | drop => cases other
  | _ => simp_all [MirInstructionKind.results, produced_string, left_out]

/-- An instruction without an arm of its own does nothing to strings. -/
theorem stringStep_other (other : is_glue kind = false)
    (accepted : function.ledger_other type_catalog kind live = .ok live')
    (typed : ∀ value ∈ left_out kind, function.is_string type_catalog value = false) (s : Holdings MirValueId) :
    live' = live ∧ function.stringStep type_catalog kind s = some s := by
  rw [ledger_other] at accepted
  split_ifs at accepted with claims
  cases accepted
  rw [Bool.not_eq_true, Bool.or_eq_false_iff] at claims
  have reads : ∀ value ∈ kind.uses, ¬function.is_string type_catalog value = true := by
    intro value member string
    rcases uses_listed other member with listed | omitted
    · exact Bool.false_ne_true (claims.2.symm.trans (List.any_eq_true.mpr ⟨value, listed, string⟩))
    · exact Bool.false_ne_true ((typed value omitted).symm.trans string)
  have makes : ∀ value ∈ kind.results, ¬function.is_string type_catalog value = true := by
    intro value member string
    rcases results_listed other member with listed | omitted
    · have produces := claims.1
      rw [instruction_produces_owned_string, listed, Option.any_some] at produces
      exact Bool.false_ne_true (produces.symm.trans string)
    · exact Bool.false_ne_true ((typed value omitted).symm.trans string)
  have none_read := List.filter_eq_nil_iff.mpr reads
  have none_taken := List.filter_eq_nil_iff.mpr fun value member => reads value (consumed_uses member)
  have none_made := List.filter_eq_nil_iff.mpr makes
  refine ⟨rfl, ?_⟩
  cases kind with
  | move => cases other
  | _ => simp only [stringStep, none_read, none_taken, none_made]; rfl

/-! ### One instruction -/

/-- The strings among the arguments of a call are live and end; the ledger loses just these. -/
theorem consume_arguments_spec {arguments : List MirValueId}
    (consumed : function.consume_arguments type_catalog arguments live = .ok live')
    (tracks : s.Tracks (· ∈ live)) :
    ∃ s', Holdings.finishAll (arguments.filter (function.is_string type_catalog)) s = some s' ∧
      s'.Tracks (· ∈ live') ∧ (∀ value ∈ live', value ∈ live) ∧
      ∀ value ∈ arguments.filter (function.is_string type_catalog), value ∈ live := by
  induction arguments generalizing live s with
  | nil =>
      cases consumed
      exact ⟨s, rfl, tracks, fun _ member => member, nofun⟩
  | cons argument rest ih =>
      rw [consume_arguments] at consumed
      by_cases string : function.is_string type_catalog argument = true
      · rw [if_pos string] at consumed
        split_ifs at consumed with here
        obtain ⟨object, s₁, taken, tracks₁⟩ := tracks.take here
        have erased : (s₁.finish object).Tracks (· ∈ live.erase argument) :=
          ⟨tracks₁.single, fun value => (tracks₁.exact value).trans SortedSet.mem_erase.symm⟩
        obtain ⟨s', finished, tracks', less, among⟩ := ih consumed erased
        refine ⟨s', ?_, tracks', fun value member => (SortedSet.mem_erase.mp (less value member)).1, ?_⟩
        · rw [List.filter_cons_of_pos string, Holdings.finishAll, taken]
          exact finished
        · rw [List.filter_cons_of_pos string]
          rintro value (_ | ⟨_, member⟩)
          · exact here
          · exact (SortedSet.mem_erase.mp (among value member)).1
      · rw [if_neg string] at consumed
        rw [List.filter_cons_of_neg string]
        exact ih consumed tracks

/-- What holds behind an instruction that the ledger accepts. -/
structure Followed (function : MirFunction) (type_catalog : StringCatalog) (kind : MirInstructionKind)
    (s : Holdings MirValueId) (live live' : Live) : Prop where
  steps : ∃ s', function.stringStep type_catalog kind s = some s' ∧ s'.Tracks (· ∈ live')
  known : ∀ value ∈ live', value ∈ live ∨ value ∈ kind.results

/-- A value that is live is read, taken or kept as the ledger says. -/
theorem Followed.other (other : is_glue kind = false)
    (accepted : function.ledger_other type_catalog kind live = .ok live') (tracks : s.Tracks (· ∈ live))
    (typed : ∀ value ∈ left_out kind, function.is_string type_catalog value = false) :
    Followed function type_catalog kind s live live' := by
  obtain ⟨rfl, steps⟩ := stringStep_other other accepted typed s
  exact ⟨⟨s, steps, tracks⟩, fun _ member => .inl member⟩

/-- A string literal makes a string, which the ledger lists as live. -/
theorem followed_const {result : MirValueId} {literal : ResolvedLiteral}
    (accepted : function.ledger functions type_catalog (.const result literal) live = .ok live')
    (tracks : s.Tracks (· ∈ live)) (fresh : result ∉ live) :
    Followed function type_catalog (.const result literal) s live live' := by
  unfold ledger at accepted
  dsimp only at accepted
  by_cases string : function.is_string type_catalog result = true
  · rw [if_pos string] at accepted
    cases literal <;> cases accepted
    refine ⟨⟨s.make result, ?_, (tracks.make fresh).congr fun _ => SortedSet.mem_insert⟩, fun value member => ?_⟩
    · simp [stringStep, MirInstructionKind.uses, MirInstructionKind.consumed, MirInstructionKind.results,
        Holdings.finishAll, Holdings.makeAll, string]
    · exact (SortedSet.mem_insert.mp member).symm.imp_right List.mem_singleton.mpr
  · rw [if_neg string] at accepted
    cases accepted
    refine ⟨⟨s, ?_, tracks⟩, fun _ member => .inl member⟩
    simp [stringStep, MirInstructionKind.uses, MirInstructionKind.consumed, MirInstructionKind.results,
      Holdings.finishAll, Holdings.makeAll, string]

/-- A move hands the string over: the source is live no longer, the result is. -/
theorem followed_move {result source : MirValueId}
    (accepted : function.ledger functions type_catalog (.move result source) live = .ok live')
    (tracks : s.Tracks (· ∈ live)) (fresh : result ∉ live) :
    Followed function type_catalog (.move result source) s live live' := by
  rw [ledger] at accepted
  split_ifs at accepted with disagree string here
  · cases accepted
    obtain ⟨object, s₁, taken, tracks₁⟩ := tracks.take here
    have outside : ¬(result ∈ live ∧ result ≠ source) := fun before => fresh before.1
    have held : (s₁.hold result object).Tracks (· ∈ (live.erase source).insert result) :=
      (tracks₁.hold outside object).congr fun value => by rw [SortedSet.mem_insert, SortedSet.mem_erase]
    refine ⟨⟨s₁.hold result object, ?_, held⟩, fun value member => ?_⟩
    · simp [stringStep, string, taken]
    · rcases SortedSet.mem_insert.mp member with rfl | before
      · exact .inr (List.mem_singleton_self _)
      · exact .inl (SortedSet.mem_erase.mp before).1
  · cases accepted
    have plain : ¬function.is_string type_catalog result = true := fun is => disagree (by
      rw [is, Bool.eq_false_of_not_eq_true string]; decide)
    refine ⟨⟨s, ?_, tracks⟩, fun _ member => .inl member⟩
    simp [stringStep, string, plain, Holdings.makeAll]

/-- A clone makes a string of its own and leaves its source live. -/
theorem followed_clone {result source : MirValueId}
    (accepted : function.ledger functions type_catalog (.clone result source) live = .ok live')
    (tracks : s.Tracks (· ∈ live)) (fresh : result ∉ live) :
    Followed function type_catalog (.clone result source) s live live' := by
  rw [ledger] at accepted
  split_ifs at accepted with disagree string here
  · cases accepted
    have made : function.is_string type_catalog result = true := by
      rw [Decidable.not_not] at disagree
      exact disagree.trans string
    refine ⟨⟨s.make result, ?_, (tracks.make fresh).congr fun _ => SortedSet.mem_insert⟩, fun value member => ?_⟩
    · simp [stringStep, MirInstructionKind.uses, MirInstructionKind.consumed, MirInstructionKind.results,
        Holdings.finishAll, Holdings.makeAll, string, made, tracks.holds here]
    · exact (SortedSet.mem_insert.mp member).symm.imp_right List.mem_singleton.mpr
  · cases accepted
    have plain : ¬function.is_string type_catalog result = true := fun is => disagree (by
      rw [is, Bool.eq_false_of_not_eq_true string]; decide)
    refine ⟨⟨s, ?_, tracks⟩, fun _ member => .inl member⟩
    simp [stringStep, MirInstructionKind.uses, MirInstructionKind.consumed, MirInstructionKind.results,
      Holdings.finishAll, Holdings.makeAll, string, plain]

/-- A drop ends the string of a live value. -/
theorem followed_drop {value : MirValueId}
    (accepted : function.ledger functions type_catalog (.drop value) live = .ok live')
    (tracks : s.Tracks (· ∈ live)) : Followed function type_catalog (.drop value) s live live' := by
  rw [ledger] at accepted
  split_ifs at accepted with string here
  · cases accepted
    obtain ⟨object, s₁, taken, tracks₁⟩ := tracks.take here
    have erased : (s₁.finish object).Tracks (· ∈ live.erase value) :=
      ⟨tracks₁.single, fun other => (tracks₁.exact other).trans SortedSet.mem_erase.symm⟩
    refine ⟨⟨s₁.finish object, ?_, erased⟩, fun other member => .inl (SortedSet.mem_erase.mp member).1⟩
    simp [stringStep, MirInstructionKind.uses, MirInstructionKind.consumed, MirInstructionKind.results,
      Holdings.finishAll, Holdings.makeAll, string, tracks.holds here, taken]
  · cases accepted
    refine ⟨⟨s, ?_, tracks⟩, fun _ member => .inl member⟩
    simp [stringStep, MirInstructionKind.uses, MirInstructionKind.consumed, MirInstructionKind.results,
      Holdings.finishAll, Holdings.makeAll, string]

/-- A call ends the strings that it is passed and makes the string that it returns. -/
theorem followed_call {result : MirValueId} {owner : NodeId} {type_arguments : List ResolvedTypeId}
    {arguments : List MirValueId} {receipts : List MirCallEffectContract} {contract : Option MirVariantCallAbiContract}
    (kind_eq : kind = .call (some result) (.function owner) type_arguments arguments receipts contract)
    (string : function.is_string type_catalog result = true)
    (accepted : function.ledger functions type_catalog kind live = .ok live')
    (tracks : s.Tracks (· ∈ live)) (fresh : result ∉ live) : Followed function type_catalog kind s live live' := by
  subst kind_eq
  rw [ledger, if_pos string] at accepted
  split_ifs at accepted
  split at accepted
  · cases accepted
  · split_ifs at accepted
    obtain ⟨live₁, consumed, last⟩ := bind_eq_ok.mp accepted
    cases last
    obtain ⟨s₁, finished, tracks₁, less, among⟩ := consume_arguments_spec consumed tracks
    have held : (arguments.filter (function.is_string type_catalog)).all s.holds = true :=
      List.all_eq_true.mpr fun value member => tracks.holds (among value member)
    have outside : result ∉ live₁ := fun before => fresh (less result before)
    have made : (s₁.make result).Tracks (· ∈ live₁.insert result) :=
      (tracks₁.make outside).congr fun _ => SortedSet.mem_insert
    refine ⟨⟨s₁.make result, ?_, made⟩, fun value member => ?_⟩
    · simp only [stringStep, MirInstructionKind.uses, MirInstructionKind.consumed, MirInstructionKind.results, held,
        finished, Option.toList_some, List.filter_cons_of_pos string]
      rfl
    · rcases SortedSet.mem_insert.mp member with rfl | before
      · exact .inr (List.mem_singleton_self _)
      · exact .inl (less value before)

/-- The ledger follows the strings over one instruction. -/
theorem ledger_step (accepted : function.ledger functions type_catalog kind live = .ok live')
    (tracks : s.Tracks (· ∈ live)) (fresh : ∀ value ∈ kind.results, value ∉ live)
    (typed : ∀ value ∈ left_out kind, function.is_string type_catalog value = false) :
    Followed function type_catalog kind s live live' := by
  cases kind with
  | const result literal => exact followed_const accepted tracks (fresh _ (List.mem_singleton_self _))
  | move result source => exact followed_move accepted tracks (fresh _ (List.mem_singleton_self _))
  | clone result source => exact followed_clone accepted tracks (fresh _ (List.mem_singleton_self _))
  | drop value => exact followed_drop accepted tracks
  | call result callee type_arguments arguments receipts contract =>
      cases result with
      | none => exact .other rfl accepted tracks typed
      | some result =>
          cases callee with
          | function owner =>
              by_cases string : function.is_string type_catalog result = true
              · exact followed_call rfl string accepted tracks (fresh _ (List.mem_singleton_self _))
              · rw [ledger, if_neg string] at accepted
                exact .other rfl accepted tracks typed
          | _ => exact .other rfl accepted tracks typed
  | _ => exact .other rfl accepted tracks typed

/-! ### The block -/

theorem stringStep_balanced (balanced : s.Balanced) (steps : function.stringStep type_catalog kind s = some s') :
    s'.Balanced := by
  have others (is : (if (kind.uses.filter (function.is_string type_catalog)).all s.holds then do
      let s ← Holdings.finishAll (kind.consumed.filter (function.is_string type_catalog)) s
      some (s.makeAll (kind.results.filter (function.is_string type_catalog))) else none) = some s') :
      s'.Balanced := by
    split_ifs at is
    obtain ⟨s₁, finished, is⟩ := Option.bind_eq_some_iff.mp is
    cases is
    exact (balanced.finishAll finished).makeAll
  cases kind with
  | move result source =>
      rw [stringStep] at steps
      split_ifs at steps
      · obtain ⟨⟨object, s₁⟩, taken, steps⟩ := Option.bind_eq_some_iff.mp steps
        cases steps
        exact balanced.pass taken result
      · cases steps
        exact balanced.makeAll
  | _ => exact others steps

/-- The ledger follows the strings over a list of instructions that define each value once. -/
theorem ledgers_run {instructions : List MirInstruction} {defined : List MirValueId}
    (accepted : function.ledgers functions type_catalog instructions live = .ok live')
    (tracks : s.Tracks (· ∈ live)) (known : ∀ value ∈ live, value ∈ defined)
    (single : (defined ++ instructions.flatMap fun instruction => instruction.kind.results).Nodup)
    (typed : ∀ instruction ∈ instructions, ∀ value ∈ left_out instruction.kind,
      function.is_string type_catalog value = false)
    (balanced : s.Balanced) :
    ∃ s', function.stringSteps type_catalog instructions s = some s' ∧ s'.Tracks (· ∈ live') ∧ s'.Balanced := by
  induction instructions generalizing live s defined with
  | nil =>
      cases accepted
      exact ⟨s, rfl, tracks, balanced⟩
  | cons instruction rest ih =>
      obtain ⟨live₁, first, accepted⟩ := bind_eq_ok.mp accepted
      rw [List.flatMap_cons, ← List.append_assoc] at single
      have fresh : ∀ value ∈ instruction.kind.results, value ∉ live := by
        intro value result before
        exact (List.nodup_append'.mp single.of_append_left).2.2 (known value before) result
      obtain ⟨⟨s₁, steps, tracks₁⟩, known₁⟩ := ledger_step first tracks fresh (typed instruction List.mem_cons_self)
      obtain ⟨s', steps', tracks', balanced'⟩ := ih accepted tracks₁
        (fun value member => List.mem_append.mpr ((known₁ value member).imp_left (known value)))
        single (fun later member => typed later (List.mem_cons_of_mem _ member)) (stringStep_balanced balanced steps)
      exact ⟨s', by rw [stringSteps, steps]; exact steps', tracks', balanced'⟩

/-- The return takes the last live string. -/
theorem ledger_return_ok {terminator : MirTerminator}
    (accepted : function.ledger_return type_catalog terminator live = .ok ()) :
    ∃ value, terminator = .return_ (some value) ∧ value ∈ live ∧ ∀ other ∈ live, other = value := by
  obtain ⟨left, taken, empty⟩ := bind_eq_ok.mp accepted
  cases terminator with
  | return_ value =>
      cases value with
      | none => cases taken
      | some value =>
          rw [returned_string] at taken
          split_ifs at taken with string here
          cases taken
          refine ⟨value, rfl, here, fun other member => ?_⟩
          by_contra apart
          have remains : other ∈ (live.erase value).elems := SortedSet.mem_erase.mpr ⟨member, apart⟩
          split at empty
          · next none_ =>
              rw [none_] at remains
              cases remains
          · cases empty
  | _ => cases taken

/-- An accepted function without a string among what the tables leave out releases every string that it is passed or
makes exactly once, but the one it returns, and reads none behind that. -/
theorem owned_strings_released (single : function.SingleDefinitions)
    (typed : function.LeavesNoString type_catalog)
    (accepted : function.validate_owned_string_return_shape functions type_catalog = .ok ()) :
    function.StringsReleased type_catalog := by
  rw [validate_owned_string_return_shape] at accepted
  obtain ⟨_, -, accepted⟩ := bind_eq_ok.mp accepted
  split_ifs at accepted with blocks
  split at accepted
  · cases accepted
  next block found =>
  obtain ⟨live, ledgers, returns⟩ := bind_eq_ok.mp accepted
  obtain ⟨value, terminator, here, last⟩ := ledger_return_ok returns
  have listed : block ∈ function.blocks.values := List.mem_map_of_mem (SortedMap.mem_of_find? found)
  have defined : (function.parameters ++ block.definitions).Nodup := single.nodup_block listed
  have strings : (function.parameters.filter (function.is_string type_catalog)).Nodup := defined.of_append_left.filter _
  have passed : (function.calledStrings type_catalog).Tracks
      (· ∈ SortedSet.empty.insertAll (function.parameters.filter (function.is_string type_catalog))) :=
    (Holdings.tracks_empty.makeAll (fun _ _ => not_false) strings).congr fun value => by
      rw [SortedSet.mem_insertAll]
      exact or_comm.trans (or_congr Iff.rfl (iff_false_intro (SortedSet.not_mem_empty value)))
  have known : ∀ value ∈ SortedSet.empty.insertAll (function.parameters.filter (function.is_string type_catalog)),
      value ∈ function.parameters ++ block.parameters.map MirBlockParameter.value := by
    intro value member
    rcases SortedSet.mem_insertAll.mp member with none_ | parameter
    · exact absurd none_ (SortedSet.not_mem_empty value)
    · exact List.mem_append_left _ (List.mem_of_mem_filter parameter)
  rw [MirBlock.definitions, ← List.append_assoc] at defined
  obtain ⟨s, steps, tracks, balanced⟩ := ledgers_run ledgers passed known defined (typed block listed)
    Holdings.balanced_empty.makeAll
  obtain ⟨returned, s', taken, rest⟩ := tracks.take here
  have empty : s'.held = [] := rest.nothing fun other ⟨member, apart⟩ => apart (last other member)
  refine ⟨block, value, s, returned, s', found, terminator, steps, taken, empty, ?_⟩
  have balance := balanced.taken taken
  rwa [empty] at balance

/-- A catalog with the type of strings alone. -/
def stringOnly : StringCatalog where
  get ty := if ty.val = "string" then
      some ⟨.other, .handle, .move, .stringHandle, ⟨.ownedString, .ownedString, .ownedString⟩⟩ else none
  validate_glue _ _ := .ok ()
  validate_variant_glue _ _ := .ok ()
  validate_copy_value _ := .ok ()
  validate_flat_copy_variant _ := .ok ()
  validate_recoverable_source_result_variant _ := .ok ()
  supported_type _ := .ok ()
  is_primitive_string ty := ty.val = "string"
  needs_drop_glue ty := ty.val = "string"
  needs_clone_glue ty := ty.val = "string"

/-- A literal, its clone, and the drop of the literal; then further instructions, and the return of the clone. -/
def clonedLiteral (further : List MirInstruction) : MirFunction :=
  let block : MirBlockId := ⟨"block:0", Eq.refl false⟩
  let literal : MirValueId := ⟨"value:literal", rfl⟩
  let copy : MirValueId := ⟨"value:clone", rfl⟩
  let payload : MirValueId := ⟨"value:payload", Eq.refl false⟩
  { owner := ⟨"function:greet"⟩
    parameters := []
    parameterPermissions := none
    result := ⟨"string"⟩
    entry := block
    values := ⟨[(copy, ⟨copy, ⟨"string"⟩⟩), (literal, ⟨literal, ⟨"string"⟩⟩), (payload, ⟨payload, ⟨"i32"⟩⟩)]⟩
    blocks := ⟨[(block, ⟨block, [], [⟨⟨"i0", Eq.refl false⟩, .const literal (.string "hello")⟩,
      ⟨⟨"i1", Eq.refl false⟩, .clone copy literal⟩, ⟨⟨"i2", Eq.refl false⟩, .drop literal⟩] ++ further,
      .return_ (some copy)⟩)]⟩
    contracts := []
    ownership := ⟨[], .empty, []⟩ }

theorem owned_strings_released_cloned : (clonedLiteral []).StringsReleased stringOnly :=
  @owned_strings_released (clonedLiteral []) .empty stringOnly (by decide) (by decide)
    (by decide)

/-- The projection of a payload out of the literal, behind its drop. -/
def projectLiteral : MirInstruction where
  id := ⟨"i3", Eq.refl false⟩
  kind := .variantProject ⟨"value:payload", Eq.refl false⟩ ⟨"value:literal", rfl⟩ (some
    { sourceTy := ⟨"string"⟩
      resultTy := ⟨"i32"⟩
      projection := ⟨⟨"builtin:type:Option", rfl⟩, ⟨"option.some"⟩, ⟨"option.some.0"⟩, 0, 1, ⟨"i32"⟩, .copy, .noop⟩
      variantName := "Some"
      discriminant := 1
      trapCode := "E0801" })

theorem dropped_string_projected : ¬∀ (function : MirFunction) (functions : SortedMap NodeId MirFunction)
    (type_catalog : StringCatalog), function.SingleDefinitions →
      (∀ block ∈ function.blocks.values, usesDefined (function.parameters ++ block.parameters.map
        MirBlockParameter.value) block.instructions = true) →
      function.validate_owned_string_return_shape functions type_catalog = .ok () →
      function.StringsReleased type_catalog := by
  intro claim
  obtain ⟨block, -, s, -, -, found, -, steps, -⟩ := claim (clonedLiteral [projectLiteral]) .empty stringOnly
    (by decide) (by decide) (by decide)
  have stuck : ∀ block ∈ (clonedLiteral [projectLiteral]).blocks.values,
      ((clonedLiteral [projectLiteral]).stringSteps stringOnly block.instructions
        ((clonedLiteral [projectLiteral]).calledStrings stringOnly)).isNone = true := by decide
  have stops := stuck block (List.mem_map_of_mem (SortedMap.mem_of_find? found))
  rw [steps] at stops
  cases stops

end Mimi.Mir.MirFunction
