/-
Module: Mimi.Proofs.IdentityReceipts
Purpose: Every execution of a function that the check of a generic identity accepts ends, and returns a clone of
  the parameter that is the only clone made, exactly when no way through its blocks reads a value that has been
  taken away, which the check does not look at.
Trusted boundary: none
-/
import Mimi.Lib.Inevitable
import Mimi.Mir.Execution
import Mimi.Mir.GenericIdentity

namespace Mimi.Mir.GenericIdentity

open Mimi.Core Mimi.Lib Execution
open Mimi.Lib.ActiveSearch (Marks)
open Relation (ReflTransGen)

variable {V : Type} {function : MirFunction} {catalog : MirTypeCatalog} {semantics : Semantics V}
  {parameter : MirValueId} {expected_type : ResolvedTypeId} {argument : V} {gone : List MirValueId}

/-! ### The values that are taken away -/

/-- What is defined is there again. -/
def restore (gone results : List MirValueId) : List MirValueId :=
  gone.filter (!results.contains ·)

theorem mem_restore {results : List MirValueId} {value : MirValueId} :
    value ∈ restore gone results ↔ value ∈ gone ∧ value ∉ results := by
  simp [restore]

section

variable (function : MirFunction) (catalog : MirTypeCatalog)

/-- A value is gone if what reads it takes it away. -/
def lose (gone : List MirValueId) (source : MirValueId) (removes : Bool) : List MirValueId :=
  if removes then source :: gone else gone

def moveAway (gone : List MirValueId) : MirInstructionKind → List MirValueId
  | .move _ source => lose gone source (move_removes function catalog source)
  | _ => gone

/-- The values that are gone behind an instruction, unless it reads one that is gone in front of it. -/
def spend (gone : List MirValueId) (kind : MirInstructionKind) : Option (List MirValueId) :=
  if kind.uses.any gone.contains then none else some (restore (moveAway function catalog gone kind) kind.results)

def spendAll (gone : List MirValueId) : List MirInstruction → Option (List MirValueId)
  | [] => some gone
  | instruction :: rest => (spend function catalog gone instruction.kind).bind (spendAll · rest)

/-- The values that are gone behind the arguments of an edge, taken one after another. -/
def handOver (gone : List MirValueId) : List MirValueId → Option (List MirValueId)
  | [] => some gone
  | source :: rest =>
      if gone.contains source then none
      else (transfer_removes function catalog source).bind fun removes => handOver (lose gone source removes) rest

def thriftyTerminator (onward : MirBlockId → List MirValueId → Bool) (gone : List MirValueId) : MirTerminator → Bool
  | .goto _ target arguments => (handOver function catalog gone arguments).any (onward target)
  | .branch condition _ target arguments _ target' arguments' =>
      !gone.contains condition && ((handOver function catalog gone arguments).any (onward target) &&
        (handOver function catalog gone arguments').any (onward target'))
  | .return_ (some value) => !gone.contains value && (transfer_removes function catalog value).isSome
  | _ => false

/-- No way from a block reads a value that is gone. -/
def thrifty : Nat → MirBlockId → List MirValueId → Bool
  | 0, _, _ => false
  | fuel + 1, id, gone =>
      (function.blocks.find? id).any fun block =>
        (spendAll function catalog (restore gone (block.parameters.map MirBlockParameter.value))
          block.instructions).any fun gone => thriftyTerminator function catalog (thrifty fuel) gone block.terminator

end

theorem spend_of_lost {kind : MirInstructionKind} {source : MirValueId} (read : source ∈ kind.uses)
    (lost : source ∈ gone) : spend function catalog gone kind = none :=
  if_pos (List.any_eq_true.mpr ⟨source, read, List.contains_iff_mem.mpr lost⟩)

theorem spend_of_kept {kind : MirInstructionKind} (kept : ∀ source ∈ kind.uses, source ∉ gone) :
    spend function catalog gone kind = some (restore (moveAway function catalog gone kind) kind.results) :=
  if_neg (by simpa using kept)

/-- The values agree with the origins of a walk: the parameter has the argument of the call and every value with an
origin is defined, those apart that are gone, and what is tracked as the clone is one. -/
structure Tracks (semantics : Semantics V) (parameter : MirValueId) (argument : V) (state : PathState)
    (gone : List MirValueId) (values : Values V) : Prop where
  parameter : parameter ∉ gone → values parameter = some argument
  known : ∀ value origin, state.origins.find? value = some origin → value ∉ gone →
    ∃ found, values value = some found ∧ (origin = .clone → found = semantics.clone argument)
  lost : ∀ value ∈ gone, values value = none

/-- Every execution from a state returns a clone of the argument, with one clone made. -/
abbrev Delivers (function : MirFunction) (catalog : MirTypeCatalog) (semantics : Semantics V) (argument : V) :
    Execution V → Prop :=
  Inevitable (Step function catalog semantics) (· = .returned (semantics.clone argument) 1)

/-- The verdict on a state: what it accepts delivers, and if branches can take both sides, nothing else does. -/
structure Judges (function : MirFunction) (catalog : MirTypeCatalog) (semantics : Semantics V) (argument : V)
    (verdict : Bool) (here : Execution V) : Prop where
  sound : verdict = true → Delivers function catalog semantics argument here
  complete : (∀ value side, semantics.takes value side) → Delivers function catalog semantics argument here →
    verdict = true

section

variable {here there : Execution V} {verdict : Bool}

/-- A state with one step is judged as the state behind it. -/
theorem Judges.only (can : Step function catalog semantics here there)
    (one : ∀ next, Step function catalog semantics here next → next = there)
    (judges : Judges function catalog semantics argument verdict there) :
    Judges function catalog semantics argument verdict here := by
  have same : Delivers function catalog semantics argument here ↔ Delivers function catalog semantics argument there :=
    Inevitable.iff_of_only can one fun final => by
      rw [final] at can
      cases can
  exact ⟨fun ok => same.mpr (judges.sound ok), fun sides delivers => judges.complete sides (same.mp delivers)⟩

/-- A state without a step is refused, unless the function has returned. -/
theorem Judges.stuck (stuck : ∀ next, ¬Step function catalog semantics here next)
    (open_ : ∀ value clones, here ≠ .returned value clones) :
    Judges function catalog semantics argument false here where
  sound := nofun
  complete _ delivers := by
    rcases delivers.goes_on with final | ⟨next, step⟩
    · exact absurd final (open_ _ _)
    · exact absurd step (stuck next)

end

/-! ### The values along a walk -/

variable {state : PathState} {values : Values V}

/-- A value for a tracked source. -/
def Fits (semantics : Semantics V) (argument : V) (state : PathState) (source : MirValueId) (value : V) : Prop :=
  ∀ origin, state.origins.find? source = some origin → origin = .clone → value = semantics.clone argument

theorem Tracks.congr (tracks : Tracks semantics parameter argument state gone values) {gone' : List MirValueId}
    (same : ∀ value, value ∈ gone' ↔ value ∈ gone) : Tracks semantics parameter argument state gone' values where
  parameter there := tracks.parameter (mt (same _).mpr there)
  known value origin known there := tracks.known value origin known (mt (same _).mpr there)
  lost value member := tracks.lost value ((same _).mp member)

/-- A new value with its origin. -/
theorem Tracks.insert (tracks : Tracks semantics parameter argument state gone values)
    {result : MirValueId} (new : parameter ≠ result) {origin : Origin} {value : V}
    (fits : origin = .clone → value = semantics.clone argument) (count : Nat) :
    Tracks semantics parameter argument ⟨state.origins.insert result origin, count⟩
      (restore gone [result]) (Function.update values result (some value)) := by
  have kept {other : MirValueId} (apart : other ≠ result) (there : other ∉ restore gone [result]) :
      other ∉ gone := fun member => there (mem_restore.mpr ⟨member, List.mem_singleton.not.mpr apart⟩)
  refine ⟨fun there => ?_, fun other origin' known there => ?_, fun other member => ?_⟩
  · rw [Function.update_of_ne new]
    exact tracks.parameter (kept new there)
  · rw [SortedMap.find?_insert] at known
    by_cases same : other = result
    · obtain rfl : origin = origin' := by simpa [same] using known
      exact ⟨value, by rw [same, Function.update_self], fits⟩
    · rw [Function.update_of_ne same]
      exact tracks.known other origin' (by simpa [same] using known) (kept same there)
  · obtain ⟨member, apart⟩ := mem_restore.mp member
    rw [Function.update_of_ne (List.mem_singleton.not.mp apart)]
    exact tracks.lost other member

/-- A tracked value is there if it is not gone, and then it can be taken. -/
theorem Tracks.take (tracks : Tracks semantics parameter argument state gone values) {source : MirValueId}
    {origin : Origin} (known : state.origins.find? source = some origin) (there : source ∉ gone) (removes : Bool) :
    ∃ value left, take values source removes = some (value, left) ∧ Fits semantics argument state source value ∧
      Tracks semantics parameter argument state (lose gone source removes) left := by
  obtain ⟨value, found, fits⟩ := tracks.known source origin known there
  refine ⟨value, _, by rw [Execution.take, found]; rfl, fun origin' known' => ?_, ?_⟩
  · rwa [Option.some.inj (known'.symm.trans known)]
  cases removes with
  | false => exact tracks
  | true =>
      refine ⟨fun kept => ?_, fun other origin known kept => ?_, fun other member => ?_⟩
      · rw [if_pos rfl, Function.update_of_ne (List.ne_of_not_mem_cons kept)]
        exact tracks.parameter (List.not_mem_of_not_mem_cons kept)
      · rw [if_pos rfl, Function.update_of_ne (List.ne_of_not_mem_cons kept)]
        exact tracks.known other origin known (List.not_mem_of_not_mem_cons kept)
      · rw [if_pos rfl]
        rcases List.mem_cons.mp member with rfl | member
        · exact Function.update_self ..
        · by_cases same : other = source
          · rw [same, Function.update_self]
          · rw [Function.update_of_ne same]
            exact tracks.lost other member

theorem Tracks.take_gone (tracks : Tracks semantics parameter argument state gone values) {source : MirValueId}
    (lost : source ∈ gone) (removes : Bool) : Execution.take values source removes = none := by
  rw [Execution.take, tracks.lost source lost]
  rfl

/-- The arguments of an edge are taken as long as none of them is gone. -/
theorem Tracks.take_all (function : MirFunction) (catalog : MirTypeCatalog)
    (tracks : Tracks semantics parameter argument state gone values) {arguments : List MirValueId}
    (known : ∀ source ∈ arguments, ∃ origin, state.origins.find? source = some origin) :
    match handOver function catalog gone arguments with
    | none => take_transfer_values function catalog values arguments = none
    | some gone' => ∃ incoming left,
        take_transfer_values function catalog values arguments = some (incoming, left) ∧
          List.Forall₂ (Fits semantics argument state) arguments incoming ∧
          Tracks semantics parameter argument state gone' left := by
  induction arguments generalizing gone values with
  | nil => exact ⟨[], values, rfl, .nil, tracks⟩
  | cons source rest ih =>
      rw [handOver, take_transfer_values, take_transfer_value]
      by_cases lost : source ∈ gone
      · rw [if_pos (List.contains_iff_mem.mpr lost)]
        cases transfer_removes function catalog source with
        | none => rfl
        | some removes => simp only [tracks.take_gone lost]
      rw [if_neg (mt List.contains_iff_mem.mp lost)]
      cases transfer_removes function catalog source with
      | none => rfl
      | some removes =>
          obtain ⟨origin, first⟩ := known source List.mem_cons_self
          obtain ⟨value, left, taken, fits, tracks⟩ := tracks.take first lost removes
          have more := ih tracks fun other member => known other (List.mem_cons_of_mem _ member)
          simp only [Option.bind_some, taken]
          cases onward : handOver function catalog (lose gone source removes) rest with
          | none =>
              rw [onward] at more
              simp only [more]
          | some gone' =>
              rw [onward] at more
              obtain ⟨incoming, left', taken', all, tracks⟩ := more
              exact ⟨value :: incoming, left', by rw [taken'], .cons fits all, tracks⟩

/-- The parameters of a block have the origins of the arguments that come in for them. -/
theorem Tracks.receive {next next' : PathState} {parameters : List MirBlockParameter} {arguments : List MirValueId}
    (ok : pass state (parameters.zip arguments) next = .ok next') {incoming : List V}
    (fits : List.Forall₂ (Fits semantics argument state) arguments incoming)
    (arity : parameters.length = arguments.length)
    (tracks : Tracks semantics parameter argument next gone values)
    (new : parameter ∉ parameters.map MirBlockParameter.value) :
    next'.clone_count = next.clone_count ∧
      Tracks semantics parameter argument next' (restore gone (parameters.map MirBlockParameter.value))
        (receive values (parameters.zip incoming)) := by
  induction fits generalizing parameters next gone values with
  | nil =>
      obtain rfl := List.length_eq_zero_iff.mp arity
      obtain rfl := Except.ok.inj ok
      exact ⟨rfl, tracks.congr fun value => by simp [mem_restore]⟩
  | @cons source value sources incoming fit fits ih =>
      obtain ⟨target, parameters, rfl⟩ := List.exists_cons_of_length_eq_add_one arity
      rw [List.zip_cons_cons, pass] at ok
      cases known : state.origins.find? source with
      | none =>
          rw [known] at ok
          cases ok
      | some origin =>
          rw [known] at ok
          have more := tracks.insert (List.ne_of_not_mem_cons new) (fit origin known) next.clone_count
          obtain ⟨count, tracks⟩ := ih ok (by simpa using arity) more (List.not_mem_of_not_mem_cons new)
          refine ⟨count, tracks.congr fun value => ?_⟩
          simp only [mem_restore, List.map_cons, List.mem_cons, not_or, List.not_mem_nil]
          tauto

/-! ### The instructions of a block -/

variable {terminator : MirTerminator}

/-- A step over an instruction finds every value that it reads. -/
theorem step_reads {instruction : MirInstruction} {rest : List MirInstruction} {clones : Nat} {there : Execution V}
    (step : Step function catalog semantics (.running (instruction :: rest) terminator values clones) there)
    {source : MirValueId} (read : source ∈ instruction.kind.uses) : values source ≠ none := by
  intro missing
  cases step with
  | const => cases read
  | copy _ _ _ _ _ _ _ value found | clone _ _ _ _ _ _ _ value found =>
      obtain rfl := List.mem_singleton.mp read
      cases missing.symm.trans found
  | move _ _ _ _ _ _ _ value left taken =>
      obtain rfl := List.mem_singleton.mp read
      rw [Execution.take, missing] at taken
      cases taken

/-- A copy or a move that the walk admits hands the origin of its source on. -/
theorem copy_or_move_known {state' : PathState} {kind : MirInstructionKind} {result source : MirValueId}
    (which : kind = .copy result source ∨ kind = .move result source)
    (ok : visit_instruction function parameter expected_type state kind = .ok state') :
    ∃ origin, state.origins.find? source = some origin ∧
      state' = ⟨state.origins.insert result origin, state.clone_count⟩ := by
  cases found : state.origins.find? source with
  | none =>
      rcases which with rfl | rfl <;> rw [visit_instruction, found] at ok <;> cases ok
  | some origin =>
      refine ⟨origin, rfl, ?_⟩
      rcases which with rfl | rfl <;> rw [visit_instruction, found] at ok <;> exact (Except.ok.inj ok).symm

/-- An instruction that the walk admits is judged by what it reads and by what follows. -/
theorem instruction_judged {state' : PathState} {instruction : MirInstruction}
    (ok : visit_instruction function parameter expected_type state instruction.kind = .ok state')
    (new : parameter ∉ instruction.kind.results)
    (tracks : Tracks semantics parameter argument state gone values) {rest : List MirInstruction}
    {verdict : List MirValueId → Bool}
    (next : ∀ gone' values', Tracks semantics parameter argument state' gone' values' →
      Judges function catalog semantics argument (verdict gone')
        (.running rest terminator values' state'.clone_count)) :
    Judges function catalog semantics argument ((spend function catalog gone instruction.kind).any verdict)
      (.running (instruction :: rest) terminator values state.clone_count) := by
  by_cases lost : ∃ source ∈ instruction.kind.uses, source ∈ gone
  · obtain ⟨source, read, lost⟩ := lost
    rw [spend_of_lost read lost]
    exact .stuck (fun there step => step_reads step read (tracks.lost source lost)) fun _ _ same => by cases same
  push Not at lost
  rw [spend_of_kept lost, Option.any_some]
  obtain ⟨id, kind⟩ := instruction
  cases kind with
  | const result literal =>
      cases literal with
      | bool value =>
          obtain rfl := Except.ok.inj ok
          refine .only (.const id result _ rest terminator values _) (fun _ step => by cases step; rfl) ?_
          have other : Origin.other = .clone → semantics.literal (.bool value) = semantics.clone argument := fun same => by cases same
          exact next _ _ (tracks.insert (by simpa [MirInstructionKind.results] using new) other _)
      | int _ | floatBits _ | string _ | unit => cases ok
  | clone result source =>
      rw [visit_instruction] at ok
      split_ifs at ok with admitted
      obtain rfl := Except.ok.inj ok
      push Not at admitted
      obtain ⟨rfl, -, -⟩ := admitted
      have there := tracks.parameter (lost source List.mem_cons_self)
      refine .only (.clone id result source rest terminator values _ argument there) ?_ ?_
      · intro next step
        cases step with
        | clone _ _ _ _ _ _ _ value read =>
            obtain rfl := Option.some.inj (there.symm.trans read)
            rfl
      · exact next _ _ (tracks.insert (by simpa [MirInstructionKind.results] using new) (fun _ => rfl) _)
  | copy result source =>
      obtain ⟨origin, found, rfl⟩ := copy_or_move_known (.inl rfl) ok
      obtain ⟨value, read, fits⟩ := tracks.known source origin found (lost source List.mem_cons_self)
      refine .only (.copy id result source rest terminator values _ value read) ?_ ?_
      · intro there step
        cases step with
        | copy _ _ _ _ _ _ _ value' read' =>
            obtain rfl := Option.some.inj (read.symm.trans read')
            rfl
      · exact next _ _ (tracks.insert (by simpa [MirInstructionKind.results] using new) fits _)
  | move result source =>
      obtain ⟨origin, found, rfl⟩ := copy_or_move_known (.inr rfl) ok
      obtain ⟨value, left, taken, fits, tracks⟩ :=
        tracks.take found (lost source List.mem_cons_self) (move_removes function catalog source)
      refine .only (.move id result source rest terminator values _ value left taken) ?_ ?_
      · intro there step
        cases step with
        | move _ _ _ _ _ _ _ value' left' taken' =>
            obtain ⟨rfl, rfl⟩ := Prod.mk.inj (Option.some.inj (taken.symm.trans taken'))
            rfl
      · exact next _ _ (tracks.insert (by simpa [MirInstructionKind.results] using new) (fits origin found) _)
  | _ => cases ok

/-- The instructions of a block, one after another. -/
theorem instructions_judged {instructions : List MirInstruction} {state' : PathState}
    (ok : visit_instructions function parameter expected_type instructions state = .ok state')
    (new : ∀ instruction ∈ instructions, parameter ∉ instruction.kind.results)
    (tracks : Tracks semantics parameter argument state gone values) {verdict : List MirValueId → Bool}
    (next : ∀ gone' values', Tracks semantics parameter argument state' gone' values' →
      Judges function catalog semantics argument (verdict gone') (.running [] terminator values' state'.clone_count)) :
    Judges function catalog semantics argument ((spendAll function catalog gone instructions).any verdict)
      (.running instructions terminator values state.clone_count) := by
  induction instructions generalizing state gone values with
  | nil =>
      obtain rfl := Except.ok.inj ok
      exact next gone values tracks
  | cons instruction instructions ih =>
      rw [visit_instructions] at ok
      cases head : visit_instruction function parameter expected_type state instruction.kind with
      | error message =>
          rw [head] at ok
          cases ok
      | ok state₁ =>
          rw [head] at ok
          rw [spendAll, Option.any_bind]
          exact instruction_judged head (new instruction List.mem_cons_self) tracks fun gone₁ values₁ tracks₁ =>
            ih ok (fun later member => new later (List.mem_cons_of_mem _ member)) tracks₁

/-! ### The walk -/

/-- A block is judged by the ways from it. -/
def BlockJudged (function : MirFunction) (catalog : MirTypeCatalog) (semantics : Semantics V)
    (parameter : MirValueId) (argument : V) (fuel : Nat) (id : MirBlockId) (state : PathState) : Prop :=
  ∀ block gone values, function.blocks.find? id = some block →
    Tracks semantics parameter argument state (restore gone (block.parameters.map MirBlockParameter.value)) values →
      Judges function catalog semantics argument (thrifty function catalog fuel id gone)
        (.running block.instructions block.terminator values state.clone_count)

variable {fuel : Nat}

theorem pass_known {next next' : PathState} {parameters : List MirBlockParameter} {arguments : List MirValueId}
    (arity : parameters.length = arguments.length)
    (ok : pass state (parameters.zip arguments) next = .ok next') :
    ∀ source ∈ arguments, ∃ origin, state.origins.find? source = some origin := by
  induction arguments generalizing parameters next with
  | nil => exact fun _ member => absurd member List.not_mem_nil
  | cons source rest ih =>
      obtain ⟨target, parameters, rfl⟩ := List.exists_cons_of_length_eq_add_one arity
      rw [List.zip_cons_cons, pass] at ok
      cases known : state.origins.find? source with
      | none =>
          rw [known] at ok
          cases ok
      | some origin =>
          rw [known] at ok
          exact List.forall_mem_cons.mpr ⟨⟨origin, known⟩, ih (by simpa using arity) ok⟩

/-- An edge is judged by the arguments that it takes and by the block behind it. -/
theorem edge_judged {next : PathState} {target : MirBlockId} {arguments : List MirValueId}
    (ok : edge_state function state target arguments = .ok next)
    (tracks : Tracks semantics parameter argument state gone values)
    (new : ∀ id block, function.blocks.find? id = some block → parameter ∉ block.definitions)
    (judged : BlockJudged function catalog semantics parameter argument fuel target next) :
    Judges function catalog semantics argument
      ((handOver function catalog gone arguments).any (thrifty function catalog fuel target))
      (.crossing target arguments values state.clone_count) := by
  rw [edge_state] at ok
  cases found : function.blocks.find? target with
  | none =>
      rw [found] at ok
      cases ok
  | some block =>
      rw [found] at ok
      dsimp only at ok
      split_ifs at ok with arity
      rw [not_not] at arity
      have passed := tracks.take_all function catalog (pass_known arity ok)
      cases handed : handOver function catalog gone arguments with
      | none =>
          rw [handed] at passed
          refine .stuck (fun there step => ?_) nofun
          cases step with
          | cross _ _ _ _ block' incoming left taken => cases passed.symm.trans taken
      | some gone' =>
          rw [handed] at passed
          obtain ⟨incoming, left, taken, fits, tracks'⟩ := passed
          obtain ⟨count, tracks'⟩ := tracks'.receive ok fits arity fun again =>
            new target block found (List.mem_append_left _ again)
          refine .only (.cross target arguments values _ block incoming left taken found
            (arity.trans fits.length_eq)) ?_ ?_
          · intro there step
            cases step with
            | cross _ _ _ _ block' incoming' left' taken' found' =>
                obtain ⟨rfl, rfl⟩ := Prod.mk.inj (Option.some.inj (taken.symm.trans taken'))
                obtain rfl := Option.some.inj (found.symm.trans found')
                rfl
          · rw [← count]
            exact judged block gone' _ found tracks'

variable {marks marks' : Marks MirBlockId}

theorem withActiveClone_ok {walk : Run (Marks MirBlockId) String Unit}
    (ran : withActiveClone walk marks = some (.ok (), marks')) :
    ∃ marks₁, walk marks = some (.ok (), marks₁) ∧ marks' = { marks₁ with active := marks.active } := by
  rw [withActiveClone, Run.gets_bind] at ran
  obtain ⟨⟨⟩, marks₁, walked, rest⟩ := Run.bind_eq_ok.mp ran
  exact ⟨marks₁, walked, (Prod.mk.inj (Option.some.inj rest)).2.symm⟩

/-- A terminator at which the walk does not fail. -/
theorem terminator_judged {visit : MirBlockId → PathState → Run (Marks MirBlockId) String Unit}
    (ran : visit_terminator function visit state terminator marks = some (.ok (), marks'))
    (new : ∀ id block, function.blocks.find? id = some block → parameter ∉ block.definitions)
    (judged : ∀ id next marks marks', visit id next marks = some (.ok (), marks') →
      BlockJudged function catalog semantics parameter argument fuel id next)
    (tracks : Tracks semantics parameter argument state gone values) :
    Judges function catalog semantics argument
      (thriftyTerminator function catalog (thrifty function catalog fuel) gone terminator)
      (.running [] terminator values state.clone_count) := by
  cases terminator with
  | goto edge target arguments =>
      rw [visit_terminator] at ran
      cases ok : edge_state function state target arguments with
      | error message =>
          rw [ok] at ran
          cases ran
      | ok next =>
          rw [ok] at ran
          refine .only (.goto edge target arguments values _) (fun _ step => by cases step; rfl) ?_
          exact edge_judged ok tracks new (judged _ _ _ _ ran)
  | branch condition edge target arguments edge' target' arguments' =>
      rw [visit_terminator] at ran
      split_ifs at ran with undefined
      · cases ran
      cases ok : edge_state function state target arguments with
      | error message =>
          rw [ok] at ran
          cases ran
      | ok then_state =>
          rw [ok] at ran
          obtain ⟨⟨⟩, marks₁, then_ran, rest⟩ := Run.bind_eq_ok.mp ran
          cases ok' : edge_state function state target' arguments' with
          | error message =>
              rw [ok'] at rest
              cases rest
          | ok else_state =>
              rw [ok'] at rest
              obtain ⟨_, then_walked, -⟩ := withActiveClone_ok then_ran
              obtain ⟨_, else_walked, -⟩ := withActiveClone_ok rest
              have there := edge_judged ok tracks new (judged _ _ _ _ then_walked)
              have there' := edge_judged ok' tracks new (judged _ _ _ _ else_walked)
              rw [thriftyTerminator]
              by_cases lost : condition ∈ gone
              · rw [List.contains_iff_mem.mpr lost, Bool.not_true, Bool.false_and]
                refine .stuck (fun there step => ?_) nofun
                cases step with
                | branch _ _ _ _ _ _ _ _ _ value _ read => cases (tracks.lost condition lost).symm.trans read
              rw [Bool.eq_false_iff.mpr (mt List.contains_iff_mem.mp lost), Bool.not_false, Bool.true_and]
              -- the condition is there, so that some side can be taken
              rw [SortedMap.contains, Bool.eq_false_iff, not_not] at undefined
              obtain ⟨origin, known⟩ := Option.isSome_iff_exists.mp undefined
              obtain ⟨value, read, -⟩ := tracks.known condition origin known lost
              have step (side : Bool) (taken : semantics.takes value side) : Step function catalog semantics _ _ :=
                .branch condition edge target arguments edge' target' arguments' values state.clone_count value side
                  read taken
              constructor
              · intro ok
                obtain ⟨then_ok, else_ok⟩ := (Bool.and_eq_true _ _).mp ok
                obtain ⟨side, taken⟩ := semantics.decides value
                refine .later ⟨_, step side taken⟩ fun next step => ?_
                cases step with
                | branch _ _ _ _ _ _ _ _ _ _ side =>
                    cases side with
                    | true => exact there.sound then_ok
                    | false => exact there'.sound else_ok
              · intro sides delivers
                cases delivers with
                | here final => cases final
                | later _ next =>
                    exact (Bool.and_eq_true _ _).mpr ⟨there.complete sides (next _ (step true (sides _ _))),
                      there'.complete sides (next _ (step false (sides _ _)))⟩
  | return_ value =>
      cases value with
      | none => cases ran
      | some value =>
          rw [visit_terminator] at ran
          split_ifs at ran with refused
          · cases ran
          push Not at refused
          obtain ⟨once, cloned⟩ := refused
          rw [once, thriftyTerminator]
          cases removes : transfer_removes function catalog value with
          | none =>
              rw [Option.isSome_none, Bool.and_false]
              refine .stuck (fun there step => ?_) nofun
              cases step with
              | return_ _ _ _ found left taken =>
                  rw [take_transfer_value, removes] at taken
                  cases taken
          | some removes_ =>
              have taking : take_transfer_value function catalog values value =
                  Execution.take values value removes_ := by
                rw [take_transfer_value, removes]
              rw [Option.isSome_some, Bool.and_true]
              by_cases lost : value ∈ gone
              · rw [List.contains_iff_mem.mpr lost]
                refine .stuck (fun there step => ?_) nofun
                cases step with
                | return_ _ _ _ found left taken => cases (tracks.take_gone lost _).symm.trans (taking.symm.trans taken)
              · obtain ⟨found, left, taken, fits, -⟩ := tracks.take cloned lost removes_
                refine .only (.return_ value values 1 found left (taking.trans taken)) ?_
                  ⟨fun _ => .here (by rw [fits _ cloned rfl]), fun _ _ => by simpa using lost⟩
                intro there step
                cases step with
                | return_ _ _ _ found' left' taken' =>
                    obtain ⟨rfl, -⟩ := Prod.mk.inj (Option.some.inj ((taking.trans taken).symm.trans taken'))
                    rfl
  | switch _ _ | switchMove _ _ | trap _ | fault _ | unreachable => cases ran

/-- What a walk that succeeds has done at its block. -/
theorem visit_ok {id : MirBlockId}
    (ran : visit function parameter expected_type (fuel + 1) id state marks = some (.ok (), marks')) :
    id ∉ marks.active ∧ ∃ block state₁ marks₁, function.blocks.find? id = some block ∧
      visit_instructions function parameter expected_type block.instructions state = .ok state₁ ∧
      visit_terminator function (visit function parameter expected_type fuel) state₁ block.terminator
        (marks.enter id) = some (.ok (), marks₁) ∧ marks' = marks₁.leave id := by
  rw [visit, Run.gets_bind, Run.modify_bind, Run.ite_apply] at ran
  split_ifs at ran with active
  · cases ran
  refine ⟨active, ?_⟩
  rw [Run.modify_bind] at ran
  cases found : function.blocks.find? id with
  | none =>
      rw [found] at ran
      cases ran
  | some block =>
      rw [found] at ran
      dsimp only at ran
      cases ok : visit_instructions function parameter expected_type block.instructions state with
      | error message =>
          rw [ok] at ran
          cases ran
      | ok state₁ =>
          rw [ok] at ran
          obtain ⟨⟨⟩, marks₁, walked, rest⟩ := Run.bind_eq_ok.mp ran
          exact ⟨block, state₁, marks₁, rfl, ok, walked, (Prod.mk.inj (Option.some.inj rest)).2.symm⟩

/-- A walk that succeeds judges the block that it starts from. -/
theorem visit_judged (new : ∀ id block, function.blocks.find? id = some block → parameter ∉ block.definitions)
    {fuel' : Nat} (enough : fuel ≤ fuel') {id : MirBlockId}
    (ran : visit function parameter expected_type fuel id state marks = some (.ok (), marks')) :
    BlockJudged function catalog semantics parameter argument fuel' id state := by
  induction fuel generalizing fuel' id state marks marks' with
  | zero => cases ran
  | succ fuel ih =>
      obtain ⟨fuel', rfl⟩ := Nat.exists_eq_add_of_lt enough
      obtain ⟨-, block, state₁, marks₁, found, ok, walked, -⟩ := visit_ok ran
      intro block' gone values found' tracks
      obtain rfl := Option.some.inj (found.symm.trans found')
      rw [thrifty, found, Option.any_some]
      refine instructions_judged ok ?_ tracks fun gone₁ values₁ tracks₁ =>
        terminator_judged walked new (fun _ _ _ _ => ih (by omega)) tracks₁
      intro instruction member again
      exact new id block found (List.mem_append_right _ (List.mem_flatMap.mpr ⟨instruction, member, again⟩))

/-! ### The receipt -/

/-- Every execution of the function on an argument ends, and what it returns is a clone of the argument, which is
the only clone made. -/
structure ReturnsOneClone (function : MirFunction) (catalog : MirTypeCatalog) (semantics : Semantics V)
    (argument : V) : Prop where
  starts : ∃ here, start function [argument] = some here
  finite : ¬∃ run : Nat → Execution V, start function [argument] = some (run 0) ∧
    ∀ n, Step function catalog semantics (run n) (run (n + 1))
  returns : ∀ here there, start function [argument] = some here →
    ReflTransGen (Step function catalog semantics) here there →
      (∀ next, ¬Step function catalog semantics there next) → there = .returned (semantics.clone argument) 1

theorem returned_final (value : V) (clones : Nat) (there : Execution V) :
    ¬Step function catalog semantics (.returned value clones) there := nofun

/-- The law of all runs holds just if the return is inevitable from the start. -/
theorem returns_one_clone_iff {here : Execution V} (started : start function [argument] = some here) :
    ReturnsOneClone function catalog semantics argument ↔ Delivers function catalog semantics argument here := by
  have final : ∀ s t, s = .returned (semantics.clone argument) 1 → ¬Step function catalog semantics s t := by
    rintro s t rfl
    exact returned_final _ _ t
  constructor
  · intro good
    refine .of_finite ?_ fun there run stops => good.returns here there started run stops
    rintro ⟨run, rfl, on⟩
    exact good.finite ⟨run, started, on⟩
  · refine fun delivers => ⟨⟨here, started⟩, ?_, ?_⟩
    · rintro ⟨run, first, on⟩
      obtain rfl := Option.some.inj (started.symm.trans first)
      exact delivers.not_forever final ⟨run, rfl, on⟩
    · intro here' there first run stops
      obtain rfl := Option.some.inj (started.symm.trans first)
      rcases (delivers.always final run).goes_on with reached | ⟨next, on⟩
      · exact reached
      · exact absurd on (stops next)

/-- What the check of a single block admits. -/
theorem single_block_ok (ok : validate_single_block_generic_identity function parameter expected_type = .ok ()) :
    ∃ id result block, function.blocks.find? function.entry = some block ∧
      block.instructions = [⟨id, .clone result parameter⟩] ∧ block.terminator = .return_ (some result) ∧
        hasType function expected_type result ≠ false := by
  rw [validate_single_block_generic_identity] at ok
  split at ok
  · cases ok
  · rename_i block found
    split at ok
    · rename_i instruction alone
      obtain ⟨id, kind⟩ := instruction
      split at ok
      · rename_i result source shape
        dsimp only at shape
        split_ifs at ok with fits ends
        push Not at fits
        obtain ⟨rfl, typed⟩ := fits
        exact ⟨id, result, block, found, by rw [alone, shape], not_not.mp ends, typed⟩
      · cases ok
    · cases ok

/-- The short check of a single block stands for a walk that ends in it. -/
theorem single_block_judged (ok : validate_single_block_generic_identity function parameter expected_type = .ok ())
    (new : ∀ id block, function.blocks.find? id = some block → parameter ∉ block.definitions) :
    BlockJudged function catalog semantics parameter argument (fuel + 1) function.entry
      ⟨SortedMap.empty.insert parameter .parameter, 0⟩ := by
  obtain ⟨id, result, block, found, instructions, terminator, typed⟩ := single_block_ok ok
  intro block' gone values found' tracks
  obtain rfl := Option.some.inj (found.symm.trans found')
  have fresh := new _ _ found
  rw [MirBlock.definitions, instructions, List.mem_append, not_or] at fresh
  rw [thrifty, found, Option.any_some, instructions, terminator]
  have visited : visit_instructions function parameter expected_type [⟨id, .clone result parameter⟩]
      ⟨SortedMap.empty.insert parameter .parameter, 0⟩ =
        .ok ⟨(SortedMap.empty.insert parameter .parameter).insert result .clone, 1⟩ := by
    rw [visit_instructions, visit_instruction, if_neg (by simp [typed])]
    rfl
  have walk : visit_terminator function (fun _ _ => Run.diverge)
      ⟨(SortedMap.empty.insert parameter .parameter).insert result .clone, 1⟩ (.return_ (some result)) ⟨∅, ∅⟩ =
        some (.ok (), ⟨∅, ∅⟩) := by
    rw [visit_terminator, if_neg (by simp [SortedMap.find?_insert])]
    rfl
  refine instructions_judged visited (fun instruction member again => fresh.2 ?_) tracks
    fun gone₁ values₁ tracks₁ => terminator_judged walk new (fun _ _ _ _ ran => by cases ran) tracks₁
  exact List.mem_flatMap.mpr ⟨instruction, member, again⟩

theorem called_parameter (single_parameter : function.parameters = [parameter]) :
    called function [argument] parameter = some argument := by
  simp [called, single_parameter]

/-- A function that the check accepts is judged by the ways from its entry. -/
theorem receipt_judged (single : function.SingleDefinitions)
    (accepted : validate_generic_identity_shape function expected_type fuel = some (.ok ())) :
    ∃ block, function.blocks.find? function.entry = some block ∧
      ∀ (V : Type) (semantics : Semantics V) (argument : V), Judges function catalog semantics argument
        (thrifty function catalog (fuel + 1) function.entry [])
          (.running block.instructions block.terminator (called function [argument]) 0) := by
  rw [validate_generic_identity_shape] at accepted
  split at accepted
  · rename_i parameter alone
    have new : ∀ id block, function.blocks.find? id = some block → parameter ∉ block.definitions :=
      fun _ _ found => single.parameter_not_redefined (by rw [alone]; exact List.mem_cons_self) found
    have tracks (V : Type) (semantics : Semantics V) (argument : V) : Tracks semantics parameter argument
        ⟨SortedMap.empty.insert parameter .parameter, 0⟩ [] (called function [argument]) := by
      refine ⟨fun _ => called_parameter alone, fun value origin known _ => ?_, fun _ member => absurd member (by simp)⟩
      rw [SortedMap.find?_insert, SortedMap.find?_empty] at known
      split_ifs at known with same
      obtain rfl := Option.some.inj known
      exact ⟨argument, by rw [same, called_parameter alone], nofun⟩
    dsimp only at accepted
    split_ifs at accepted with preserves one
    · cases accepted
    · have ok := Option.some.inj accepted
      obtain ⟨_, _, block, found, -⟩ := single_block_ok ok
      exact ⟨block, found, fun V semantics argument =>
        single_block_judged ok new block [] _ found (tracks V semantics argument)⟩
    · split at accepted
      · cases accepted
      · cases accepted
      · rename_i ran
        cases fuel with
        | zero => cases ran
        | succ fuel =>
            obtain ⟨-, block, -, -, found, -⟩ := visit_ok ran
            exact ⟨block, found, fun V semantics argument =>
              visit_judged new (Nat.le_succ _) ran block [] _ found (tracks V semantics argument)⟩
  · cases accepted

/-- Values of which nothing is known, so that a branch can take both sides. -/
def blank : Semantics Unit where
  literal _ := ()
  clone _ := ()
  takes _ _ := True
  decides _ := ⟨true, trivial⟩

/-- A branch on a constant, a clone on either side, and a join that returns what it is passed. -/
def diamond : MirFunction :=
  let head : MirBlockId := ⟨"block:0", rfl⟩
  let left : MirBlockId := ⟨"block:1", rfl⟩
  let right : MirBlockId := ⟨"block:2", rfl⟩
  let join : MirBlockId := ⟨"block:3", rfl⟩
  let x : MirValueId := ⟨"local:x", rfl⟩
  let flag : MirValueId := ⟨"value:flag", rfl⟩
  let a : MirValueId := ⟨"value:a", rfl⟩
  let b : MirValueId := ⟨"value:b", rfl⟩
  let moved : MirValueId := ⟨"value:moved", rfl⟩
  let joined : MirValueId := ⟨"value:joined", rfl⟩
  { owner := ⟨"function:identity"⟩
    parameters := [x]
    parameterPermissions := none
    result := ⟨"string"⟩
    entry := head
    values := ⟨[(x, ⟨x, ⟨"string"⟩⟩), (a, ⟨a, ⟨"string"⟩⟩), (b, ⟨b, ⟨"string"⟩⟩), (flag, ⟨flag, ⟨"bool"⟩⟩),
      (joined, ⟨joined, ⟨"string"⟩⟩), (moved, ⟨moved, ⟨"string"⟩⟩)]⟩
    blocks := ⟨[
      (head, ⟨head, [], [⟨⟨"i0", rfl⟩, .const flag (.bool true)⟩],
        .branch flag ⟨"e0", rfl⟩ left [] ⟨"e1", rfl⟩ right []⟩),
      (left, ⟨left, [], [⟨⟨"i1", rfl⟩, .clone a x⟩], .goto ⟨"e2", rfl⟩ join [a]⟩),
      (right, ⟨right, [], [⟨⟨"i2", rfl⟩, .clone b x⟩, ⟨⟨"i3", rfl⟩, .move moved b⟩],
        .goto ⟨"e3", rfl⟩ join [moved]⟩),
      (join, ⟨join, [⟨joined⟩], [], .return_ (some joined)⟩)]⟩
    contracts := []
    ownership := ⟨[], .empty, []⟩ }

/-- Every type is an owned one. -/
def owned : MirTypeCatalog where
  get _ := some ⟨.other, .handle, .move, .stringHandle, ⟨.ownedString, .ownedString, .ownedString⟩⟩
  validate_glue _ _ := .ok ()
  validate_variant_glue _ _ := .ok ()
  validate_copy_value _ := .ok ()
  validate_flat_copy_variant _ := .ok ()
  validate_recoverable_source_result_variant _ := .ok ()
  supported_type _ := .ok ()

/-- Values are integers, and a clone is one. -/
def integers : Semantics Int where
  literal
    | .bool value => if value then 1 else 0
    | _ => 0
  clone value := value
  takes value side := side = decide (value ≠ 0)
  decides _ := ⟨_, rfl⟩

/-- The parameter is moved, and in the next block it is cloned. -/
def movedFirst : MirFunction :=
  let head : MirBlockId := ⟨"block:0", rfl⟩
  let next : MirBlockId := ⟨"block:1", rfl⟩
  let x : MirValueId := ⟨"local:x", rfl⟩
  let moved : MirValueId := ⟨"value:moved", rfl⟩
  let a : MirValueId := ⟨"value:a", rfl⟩
  { owner := ⟨"function:identity"⟩
    parameters := [x]
    parameterPermissions := none
    result := ⟨"string"⟩
    entry := head
    values := ⟨[(x, ⟨x, ⟨"string"⟩⟩), (a, ⟨a, ⟨"string"⟩⟩), (moved, ⟨moved, ⟨"string"⟩⟩)]⟩
    blocks := ⟨[
      (head, ⟨head, [], [⟨⟨"i0", rfl⟩, .move moved x⟩], .goto ⟨"e0", rfl⟩ next []⟩),
      (next, ⟨next, [], [⟨⟨"i1", rfl⟩, .clone a x⟩], .return_ (some a)⟩)]⟩
    contracts := []
    ownership := ⟨[], .empty, []⟩ }

end Mimi.Mir.GenericIdentity
