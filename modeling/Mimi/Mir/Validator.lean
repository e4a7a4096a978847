/-
Module: Mimi.Mir.Validator
Purpose: The checks of the validation of a function that concern its edges: the parameters of a block are
  distinct, and what an edge passes agrees with them in number and type.
Trusted boundary: human-reviewed translation of `check_blocks` and `check_arity` of `MirValidator` in
  `src/core/mir/mod.rs`; the other checks of the validator only reject more functions
-/
import Mimi.Mir.Function

namespace Mimi.Mir

open Mimi.Core Mimi.Lib

structure MirValidationError where
  subject : String
  message : String
deriving DecidableEq, Repr

/-- The parameters of a block in turn. -/
def check_block_parameters : List MirBlockParameter → List MirValueId → List MirValidationError
  | [], _ => []
  | parameter :: rest, seen =>
      (if parameter.value ∈ seen then [⟨parameter.value.val, "block parameter is duplicated"⟩] else []) ++
        check_block_parameters rest (parameter.value :: seen)

namespace MirFunction

variable (self : MirFunction)

def typeOf (value : MirValueId) : Option ResolvedTypeId := (self.values.find? value).map MirValue.ty

/-- The types of an argument and of its parameter, when both are known. -/
def check_argument (target : MirBlockId) (entry : (MirValueId × MirBlockParameter) × Nat) :
    List MirValidationError :=
  match self.typeOf entry.1.1, self.typeOf entry.1.2.value with
  | some argument_ty, some parameter_ty =>
      if argument_ty ≠ parameter_ty then
        [⟨target.val, s!"edge argument {entry.2} type disagrees with target parameter"⟩]
      else []
  | _, _ => []

def check_binding (target : MirBlockId) (entry : (MirSwitchBinding × MirBlockParameter) × Nat) :
    List MirValidationError :=
  if entry.1.1.parameter ≠ entry.1.2.value then
    [⟨target.val, s!"switch binding {entry.2} parameter '{entry.1.1.parameter.val}' disagrees with target " ++
      s!"parameter '{entry.1.2.value.val}'"⟩]
  else []

def check_arity (target : MirBlockId) (arguments : List MirValueId) (bindings : List MirSwitchBinding) :
    List MirValidationError :=
  match self.blocks.find? target with
  | none => []
  | some block =>
      (if block.parameters.length ≠ arguments.length + bindings.length then
        [⟨target.val, s!"edge passes {arguments.length + bindings.length} values/bindings but target " ++
          s!"expects {block.parameters.length} parameters"⟩]
      else []) ++
      (arguments.zip block.parameters).zipIdx.flatMap (self.check_argument target) ++
      (bindings.zip (block.parameters.drop arguments.length)).zipIdx.flatMap (check_binding target)

/-- The edges of a terminator. -/
def check_terminator_edges : MirTerminator → List MirValidationError
  | .goto _ target arguments => self.check_arity target arguments []
  | .branch _ _ then_target then_arguments _ else_target else_arguments =>
      self.check_arity then_target then_arguments [] ++ self.check_arity else_target else_arguments []
  | .switch _ arms | .switchMove _ arms =>
      arms.flatMap fun arm => self.check_arity arm.target arm.arguments arm.bindings
  | .return_ _ | .trap _ | .fault _ | .unreachable => []

/-- The errors of the blocks that concern edges. -/
def edgeErrors : List MirValidationError :=
  self.blocks.entries.flatMap fun entry =>
    check_block_parameters entry.2.parameters [] ++ self.check_terminator_edges entry.2.terminator

end MirFunction

theorem nodup_of_check_block_parameters {parameters : List MirBlockParameter} {seen : List MirValueId}
    (h : check_block_parameters parameters seen = []) :
    (parameters.map MirBlockParameter.value).Nodup ∧
      ∀ parameter ∈ parameters, parameter.value ∉ seen := by
  induction parameters generalizing seen with
  | nil => exact ⟨List.nodup_nil, fun _ member => absurd member List.not_mem_nil⟩
  | cons parameter parameters ih =>
      obtain ⟨first, rest⟩ := List.append_eq_nil_iff.mp h
      obtain ⟨distinct, unseen⟩ := ih rest
      have new : parameter.value ∉ seen := fun member => by
        rw [if_pos member] at first
        cases first
      refine ⟨List.nodup_cons.mpr ⟨fun again => ?_, distinct⟩, fun other member => ?_⟩
      · obtain ⟨other, member, same⟩ := List.mem_map.mp again
        exact unseen other member (List.mem_cons.mpr (.inl same))
      · rcases List.mem_cons.mp member with rfl | member
        · exact new
        · exact fun seen' => unseen other member (List.mem_cons_of_mem _ seen')

namespace MirFunction

variable {self : MirFunction}

theorem parameters_nodup (valid : self.edgeErrors = []) {target : MirBlockId} {block : MirBlock}
    (found : self.blocks.find? target = some block) :
    (block.parameters.map MirBlockParameter.value).Nodup := by
  have entry := List.flatMap_eq_nil_iff.mp valid (target, block) (SortedMap.mem_of_find? found)
  exact (nodup_of_check_block_parameters (List.append_eq_nil_iff.mp entry).1).1

theorem terminator_edges (valid : self.edgeErrors = []) {id : MirBlockId} {block : MirBlock}
    (found : self.blocks.find? id = some block) : self.check_terminator_edges block.terminator = [] := by
  have entry := List.flatMap_eq_nil_iff.mp valid (id, block) (SortedMap.mem_of_find? found)
  exact (List.append_eq_nil_iff.mp entry).2

/-- An argument has the type of its parameter. -/
theorem check_arity_types {target : MirBlockId} {arguments : List MirValueId}
    {bindings : List MirSwitchBinding} {block : MirBlock} (h : self.check_arity target arguments bindings = [])
    (found : self.blocks.find? target = some block) {i : Nat} {argument : MirValueId}
    {parameter : MirBlockParameter} (passed : arguments[i]? = some argument)
    (received : block.parameters[i]? = some parameter) {ty ty' : ResolvedTypeId}
    (known : self.typeOf argument = some ty) (known' : self.typeOf parameter.value = some ty') :
    ty = ty' := by
  unfold check_arity at h
  rw [found] at h
  obtain ⟨first, -⟩ := List.append_eq_nil_iff.mp h
  obtain ⟨-, types⟩ := List.append_eq_nil_iff.mp first
  have member : ((argument, parameter), i) ∈ (arguments.zip block.parameters).zipIdx := by
    refine List.mem_zipIdx_iff_getElem?.mpr ?_
    rw [List.getElem?_zip_eq_some]
    exact ⟨passed, received⟩
  have agree := List.flatMap_eq_nil_iff.mp types _ member
  unfold check_argument at agree
  rw [known, known'] at agree
  dsimp only at agree
  by_contra differ
  rw [if_pos differ] at agree
  cases agree

end MirFunction

end Mimi.Mir
