/-
Module: Mimi.Mir.OwnedString
Purpose: The return contract of owned strings: which functions claim it, and the ledger of the strings that are live
  along the one block of such a function; and what executing the block does with strings.
Trusted boundary: human-reviewed translation of `validate_owned_string_return_shape`,
  `owned_string_return_candidate_visit` and the two tables of instructions in `src/core/mir/mod.rs`, and of
  `validate_owned_string` in `src/core/mir/types.rs`.  The execution follows `execute_instruction` and
  `take_transfer_value` in `src/core/mir/reference.rs`, for the values that are strings
-/
import Mimi.Lib.Holdings
import Mimi.Mir.Definitions
import Mimi.Mir.TypeDesc

namespace Mimi.Mir

open Mimi.Core Mimi.Lib

/-- The catalog with what only the contract of strings reads of a descriptor. -/
structure StringCatalog extends MirTypeCatalog where
  /-- Whether the kind is `Primitive(String)`. -/
  is_primitive_string : ResolvedTypeId → Bool
  needs_drop_glue : ResolvedTypeId → Bool
  needs_clone_glue : ResolvedTypeId → Bool

def StringCatalog.validate_owned_string (self : StringCatalog) (ty : ResolvedTypeId) : Except String Unit :=
  match self.get ty with
  | none => .error s!"type '{ty.val}' is absent from MIR type catalog"
  | some descriptor =>
      if self.is_primitive_string ty = false ∨ descriptor.abi ≠ .stringHandle ∨ descriptor.layout ≠ .handle ∨
          descriptor.ownership ≠ .move then
        .error s!"type '{ty.val}' is not the canonical owned StringHandle contract"
      else if descriptor.glue ≠ ⟨.ownedString, .ownedString, .ownedString⟩ ∨ self.needs_drop_glue ty = false ∨
          self.needs_clone_glue ty = false then
        .error s!"type '{ty.val}' owned string glue contract is incomplete"
      else .ok ()

namespace MirFunction

variable (function : MirFunction) (functions : SortedMap NodeId MirFunction) (type_catalog : StringCatalog)

def is_string (value : MirValueId) : Bool :=
  match function.values.find? value with
  | none => false
  | some value => (type_catalog.validate_owned_string value.ty).isOk

/-! ### Candidates -/

/-- The block of a function that has one. -/
def single_block : Option MirBlock :=
  match function.blocks.values with
  | [block] => some block
  | _ => none

/-- The only instruction of a function without string parameters that returns a string, and what it returns. -/
def only_instruction : Option (MirInstructionKind × MirValueId) := do
  let block ← function.single_block
  if function.parameters.any (function.is_string type_catalog) then none
  else
    match block.terminator, block.instructions with
    | .return_ (some return_value), [instruction] =>
        if function.is_string type_catalog return_value then some (instruction.kind, return_value) else none
    | _, _ => none

def has_direct_owned_string_constant_return : Bool :=
  match function.only_instruction type_catalog with
  | some (.const result (.string _), return_value) => result = return_value
  | _ => false

/-- The callee of a function that only returns what a call gives it. -/
def called_string_owner : Option NodeId :=
  match function.only_instruction type_catalog with
  | some (.call (some call_result) (.function owner) [] _ _ _, return_value) =>
      if call_result = return_value then some owner else none
  | _ => none

def has_direct_owned_string_return_glue : Bool :=
  match function.single_block with
  | none => false
  | some block =>
      match block.terminator with
      | .return_ (some return_value) =>
          block.instructions.any fun instruction =>
            match instruction.kind with
            | .move result _ | .clone result _ =>
                result = return_value && function.is_string type_catalog return_value
            | _ => false
      | _ => false

/-- Where a block that only a branch enters goes, with its arguments. -/
def join_of (target : MirBlockId) : Option (MirBlockId × List MirValueId) :=
  match (function.blocks.find? target).map MirBlock.terminator with
  | some (.goto _ join arguments) => some (join, arguments)
  | _ => none

def has_string_branch_merge : Bool :=
  function.blocks.values.any fun block =>
    match block.terminator with
    | .branch _ _ then_target _ _ else_target _ =>
        match function.join_of then_target, function.join_of else_target with
        | some (then_join, then_arguments), some (else_join, else_arguments) =>
            then_join = else_join && then_arguments.any (function.is_string type_catalog) &&
              else_arguments.any (function.is_string type_catalog)
        | _, _ => false
    | _ => false

/-- Whether an instruction moves, clones or drops a string. -/
def is_string_glue : MirInstructionKind → Bool
  | .move result source | .clone result source =>
      function.is_string type_catalog result || function.is_string type_catalog source
  | .drop value => function.is_string type_catalog value
  | _ => false

/-- The part of the candidacy that asks no callee. -/
def has_string_glue : Bool :=
  (function.has_direct_owned_string_return_glue type_catalog || function.has_string_branch_merge type_catalog) &&
    (function.blocks.values.flatMap MirBlock.instructions).any fun instruction =>
      function.is_string_glue type_catalog instruction.kind

/-- The owners of the functions that a search can still enter. -/
def enterable (active : Finset NodeId) (owner : NodeId) : Finset NodeId :=
  insert owner (functions.values.map MirFunction.owner).toFinset \ active

/-- The answers that are known. -/
abbrev Verdicts := SortedMap NodeId Bool

/-- `owned_string_return_candidate_visit` with `owned_string_return_candidate_inner`; the set of active functions is
the same behind a visit as in front of it. -/
def owned_string_return_candidate_visit (function : MirFunction) (cache : Verdicts) (active : Finset NodeId) :
    Bool × Verdicts :=
  match cache.find? function.owner with
  | some cached => (cached, cache)
  | none =>
      if _entered : function.owner ∈ active then (false, cache)
      else
        let (candidate, cache) :=
          if (type_catalog.validate_owned_string function.result).isOk = false then (false, cache)
          else if function.has_direct_owned_string_constant_return type_catalog then (true, cache)
          else
            let (called, cache) :=
              match function.called_string_owner type_catalog with
              | none => (false, cache)
              | some owner =>
                  match _found : functions.find? owner with
                  | none => (false, cache)
                  | some callee => owned_string_return_candidate_visit callee cache (insert function.owner active)
            (called || function.has_string_glue type_catalog, cache)
        (candidate, cache.insert function.owner candidate)
termination_by (enterable functions active function.owner).card
decreasing_by
  refine Finset.card_lt_card (Finset.ssubset_iff_of_subset ?_ |>.mpr
    ⟨function.owner, Finset.mem_sdiff.mpr ⟨Finset.mem_insert_self _ _, _entered⟩, fun again =>
      (Finset.mem_sdiff.mp again).2 (Finset.mem_insert_self _ _)⟩)
  intro owner member
  obtain ⟨among, outside⟩ := Finset.mem_sdiff.mp member
  have listed : callee ∈ functions.values := List.mem_map_of_mem (SortedMap.mem_of_find? _found)
  have owners : callee.owner ∈ (functions.values.map MirFunction.owner).toFinset :=
    List.mem_toFinset.mpr (List.mem_map_of_mem listed)
  refine Finset.mem_sdiff.mpr ⟨Finset.mem_insert_of_mem ?_, fun inside => outside (Finset.mem_insert_of_mem inside)⟩
  rcases Finset.mem_insert.mp among with rfl | among
  · exact owners
  · exact among

def is_owned_string_return_candidate (function : MirFunction) : Bool :=
  (owned_string_return_candidate_visit functions type_catalog function .empty ∅).1

/-! ### The tables -/

def produced_string : MirInstructionKind → Option MirValueId
  | .load result _ | .mapRootNew result | .mapRootSet result _ _ _ | .mapRootRemove result _ _
  | .mapRootSize result _ | .mapRootContains result _ _ | .copy result _ | .convert result _
  | .borrow _ _ _ _ result _ _ | .project result _ _ _ | .moveProject result _ _ | .moveProjectDrop result _ _ _
  | .variantProject result _ _ | .variantProjectOr result _ _ _ | .variantProjectMove result _ _
  | .construct result _ _ | .constructList result _ _ | .listOp result _ _ _ _ | .variantPredicate result _ _ _
  | .constructSet result _ | .setOp result _ _ _ | .constructVariant result _ _ _
  | .constructVariantMove result _ _ _ | .updateRecord result _ _ _ _ _ | .binary result _ _ _ | .unary result _ _
  | .builtinCall result _ _ _ | .sessionCall result _ _ _ _ | .flowTransition result _ _ _ => some result
  | .call result _ _ _ _ _ => result
  | .const _ _ | .move _ _ | .clone _ _ | .drop _ | .mapRootDrop _ | .endBorrow _ | .sessionPairBind _ _ _ | .nop =>
      none

def instruction_produces_owned_string (kind : MirInstructionKind) : Bool :=
  (produced_string kind).any (function.is_string type_catalog)

def string_sources : MirInstructionKind → List MirValueId
  | .load _ place => place.localValue
  | .copy _ source | .convert _ source | .borrow _ _ _ _ _ source _ | .project _ source _ _ | .moveProject _ source _
  | .moveProjectDrop _ source _ _ | .variantPredicate _ _ source _ | .endBorrow source => [source]
  | .variantProjectOr _ source fallback _ => [source, fallback]
  | .variantProjectMove _ source _ => [source]
  | .call _ _ _ arguments _ _ | .flowTransition _ _ arguments _ | .construct _ _ arguments
  | .constructList _ arguments _ | .constructSet _ arguments => arguments
  | .builtinCall _ _ arguments none => arguments
  | .builtinCall _ _ _ (some _) => []
  | .sessionCall _ _ endpoint payload _ => endpoint :: payload.toList
  | .listOp _ _ list argument _ => list :: argument.toList
  | .setOp _ _ set argument => set :: argument.toList
  | .mapRootSet _ source _ value => [source, value]
  | .mapRootRemove _ source _ => [source]
  | .mapRootSize _ root | .mapRootContains _ root _ | .mapRootDrop root => [root]
  | .constructVariant _ _ _ fields | .constructVariantMove _ _ _ fields => fields.map Prod.snd
  | .updateRecord _ base _ arguments _ _ => base :: arguments
  | .binary _ _ left right => [left, right]
  | .unary _ _ operand => [operand]
  | .const _ _ | .move _ _ | .clone _ _ | .drop _ | .mapRootNew _ | .variantProject _ _ _ | .sessionPairBind _ _ _
  | .nop => []

def instruction_consumes_owned_string (kind : MirInstructionKind) : Bool :=
  (string_sources kind).any (function.is_string type_catalog)

/-! ### The ledger -/

abbrev Live := SortedSet MirValueId

/-- The arguments of a call are consumed in turn. -/
def consume_arguments : List MirValueId → Live → Except String Live
  | [], live => .ok live
  | argument :: rest, live =>
      if function.is_string type_catalog argument then
        if argument ∈ live then consume_arguments rest (live.erase argument)
        else .error s!"owned String return call argument '{argument.val}' is unavailable"
      else consume_arguments rest live

/-- The instructions that the contract has no arm for. -/
def ledger_other (kind : MirInstructionKind) (live : Live) : Except String Live :=
  if function.instruction_produces_owned_string type_catalog kind ||
      function.instruction_consumes_owned_string type_catalog kind then
    .error "owned String return contract only admits String constants and ownership glue"
  else .ok live

/-- The strings that are live behind an instruction. -/
def ledger (kind : MirInstructionKind) (live : Live) : Except String Live :=
  match kind with
  | .const result literal =>
      if function.is_string type_catalog result then
        match literal with
        | .string _ => .ok (live.insert result)
        | _ => .error "owned String return constant does not match canonical String ABI"
      else .ok live
  | .move result source =>
      if function.is_string type_catalog result ≠ function.is_string type_catalog source then
        .error "owned String return Move type disagrees with canonical String"
      else if function.is_string type_catalog source then
        if source ∈ live then .ok ((live.erase source).insert result)
        else .error s!"owned String return Move source '{source.val}' is unavailable"
      else .ok live
  | .clone result source =>
      if function.is_string type_catalog result ≠ function.is_string type_catalog source then
        .error "owned String return Clone type disagrees with canonical String"
      else if function.is_string type_catalog source then
        if source ∈ live then .ok (live.insert result)
        else .error s!"owned String return Clone source '{source.val}' is unavailable"
      else .ok live
  | .drop value =>
      if function.is_string type_catalog value then
        if value ∈ live then .ok (live.erase value)
        else .error s!"owned String return Drop value '{value.val}' is unavailable"
      else .ok live
  | .call (some call_result) (.function owner) type_arguments arguments _ _ =>
      if function.is_string type_catalog call_result then
        if type_arguments ≠ [] then .error "owned String return call cannot carry generic type arguments"
        else
          match functions.find? owner with
          | none => .error s!"owned String return call callee '{owner.val}' is absent"
          | some callee_function =>
              if is_owned_string_return_candidate functions type_catalog callee_function then do
                let live ← function.consume_arguments type_catalog arguments live
                .ok (live.insert call_result)
              else
                .error
                  s!"owned String return call callee '{owner.val}' is outside the owned-String return contract"
      else function.ledger_other type_catalog kind live
  | kind => function.ledger_other type_catalog kind live

def ledgers : List MirInstruction → Live → Except String Live
  | [], live => .ok live
  | instruction :: rest, live => do
      let live ← function.ledger functions type_catalog instruction.kind live
      ledgers rest live

/-- The return transfers a live string. -/
def returned_string (terminator : MirTerminator) (live : Live) : Except String Live :=
  match terminator with
  | .return_ (some value) =>
      if function.is_string type_catalog value then
        if value ∈ live then .ok (live.erase value)
        else .error s!"owned String return value '{value.val}' is unavailable"
      else .error "owned String return value does not match canonical String ABI"
  | .return_ none => .error "owned String return requires a value Return"
  | _ => .error "owned String return contract requires a value Return"

/-- The end of the block, with nothing live but what it returns. -/
def ledger_return (terminator : MirTerminator) (live : Live) : Except String Unit := do
  let live ← function.returned_string type_catalog terminator live
  match live.elems with
  | [] => .ok ()
  | value :: _ => .error s!"owned String return leaves source '{value.val}' live"

def validate_owned_string_return_shape : Except String Unit := do
  type_catalog.validate_owned_string function.result
  if function.blocks.values.length ≠ 1 then
    .error "owned String return contract requires one canonical MIR block"
  else
    match function.blocks.find? function.entry with
    | none => .error "owned String return entry block is absent"
    | some block => do
        let live ← function.ledgers functions type_catalog block.instructions
          (SortedSet.empty.insertAll (function.parameters.filter (function.is_string type_catalog)))
        function.ledger_return type_catalog block.terminator live

/-! ### Execution -/

/-- What an instruction does with strings: it reads its operands, takes those it consumes and makes its results.  A
move passes the string on; what any other instruction takes, it releases or hands to its callee. -/
def stringStep (kind : MirInstructionKind) (s : Holdings MirValueId) : Option (Holdings MirValueId) :=
  match kind with
  | .move result source =>
      if function.is_string type_catalog source then do
        let (string, s) ← s.take source
        some (s.hold result string)
      else some (s.makeAll ([result].filter (function.is_string type_catalog)))
  | kind =>
      if (kind.uses.filter (function.is_string type_catalog)).all s.holds then do
        let s ← Holdings.finishAll (kind.consumed.filter (function.is_string type_catalog)) s
        some (s.makeAll (kind.results.filter (function.is_string type_catalog)))
      else none

def stringSteps : List MirInstruction → Holdings MirValueId → Option (Holdings MirValueId)
  | [], s => some s
  | instruction :: rest, s => do
      let s ← function.stringStep type_catalog instruction.kind s
      stringSteps rest s

/-- The strings that a caller passes. -/
def calledStrings : Holdings MirValueId :=
  Holdings.empty.makeAll (function.parameters.filter (function.is_string type_catalog))

/-- The block runs to its return, every value that it reads, takes or returns holds a string there, the string that it
returns is the only one left, and every other has been released, once. -/
def StringsReleased : Prop :=
  ∃ block value s returned s', function.blocks.find? function.entry = some block ∧
    block.terminator = .return_ (some value) ∧
    function.stringSteps type_catalog block.instructions (function.calledStrings type_catalog) = some s ∧
    s.take value = some (returned, s') ∧ s'.held = [] ∧ (returned :: s'.ended).Perm (List.range s'.made)

end MirFunction

end Mimi.Mir
