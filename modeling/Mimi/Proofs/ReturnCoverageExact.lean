/-
Module: Mimi.Proofs.ReturnCoverageExact
Purpose: The check of the returns of a function accepts exactly the functions whose reachable blocks exist,
  end in a jump, a branch or a return of a value of the type of the result, and form no cycle; every
  execution of such a function ends in such a return.
Trusted boundary: none
-/
import Mimi.Mir.ReturnCoverage

namespace Mimi.Mir.MirFunction

open Mimi.Core Mimi.Lib
open Relation (ReflTransGen TransGen)

variable {function : MirFunction}

/-! ### What is asked of a function -/

/-- The terminators that are admitted: jumps, branches, and returns of a value of the type of the result. -/
inductive Admitted (function : MirFunction) : MirTerminator → Prop where
  | goto (edge : MirEdgeId) (target : MirBlockId) (arguments : List MirValueId) :
      Admitted function (.goto edge target arguments)
  | branch (condition : MirValueId) (thenEdge : MirEdgeId) (thenTarget : MirBlockId)
      (thenArguments : List MirValueId) (elseEdge : MirEdgeId) (elseTarget : MirBlockId)
      (elseArguments : List MirValueId) :
      Admitted function (.branch condition thenEdge thenTarget thenArguments elseEdge elseTarget elseArguments)
  | return_ (value : MirValueId) (value_info : MirValue) (known : function.values.find? value = some value_info)
      (ty : value_info.ty = function.result) : Admitted function (.return_ (some value))

/-- Every block that can be reached exists and has an admitted terminator, and none is on a cycle. -/
structure ReturnsCovered (function : MirFunction) : Prop where
  ends : ∀ id, function.Reaches function.entry id →
    ∃ block, function.blocks.find? id = some block ∧ function.Admitted block.terminator
  acyclic : ∀ id, function.Reaches function.entry id → ¬TransGen function.Edge id id

/-- No execution goes on forever, and where one cannot go on it returns a value of the type of the result.  Executions
are walks from block to block: an instruction that faults or does not return is not looked at. -/
structure EveryExecutionReturns (function : MirFunction) : Prop where
  finite : ¬∃ run : Nat → MirBlockId, run 0 = function.entry ∧ ∀ n, function.Edge (run n) (run (n + 1))
  returns : ∀ id, function.Reaches function.entry id → (∀ target, ¬function.Edge id target) →
    ∃ block value value_info, function.blocks.find? id = some block ∧
      block.terminator = .return_ (some value) ∧ function.values.find? value = some value_info ∧
      value_info.ty = function.result

/-! ### The search of the library -/

/-- Where the search goes on behind a terminator, or why it fails there. -/
def terminator_targets (function : MirFunction) : MirTerminator → Except String (List MirBlockId)
  | .goto _ target _ => .ok [target]
  | .branch _ _ then_target _ _ else_target _ => .ok [then_target, else_target]
  | .return_ (some value) =>
      match function.values.find? value with
      | none => .error s!"MIR variant call return value '{value.val}' is absent from the value catalog"
      | some value_info =>
          if value_info.ty ≠ function.result then
            .error "MIR variant call return value disagrees with the function result TypeDesc"
          else .ok []
  | .return_ none => .error "MIR variant call return merge requires value returns"
  | .switch _ _ | .switchMove _ _ =>
      .error "MIR verifier direct variant call return merge only admits Goto/Branch CFG"
  | .trap _ | .unreachable | .fault _ =>
      .error "MIR variant call return merge requires total non-trapping returns"

def targets (function : MirFunction) (block_id : MirBlockId) : Except String (List MirBlockId) :=
  match function.blocks.find? block_id with
  | none => .error s!"MIR variant call return block '{block_id.val}' is absent"
  | some block => function.terminator_targets block.terminator

/-- The search goes on exactly behind the terminators that are admitted. -/
theorem terminator_targets_eq_ok {terminator : MirTerminator} {ws : List MirBlockId} :
    function.terminator_targets terminator = .ok ws ↔
      function.Admitted terminator ∧ terminator.successors = ws := by
  cases terminator with
  | goto edge target arguments =>
      rw [terminator_targets, and_iff_right (.goto edge target arguments), Except.ok.injEq]
      rfl
  | branch condition edge target arguments edge' target' arguments' =>
      rw [terminator_targets, and_iff_right (.branch condition edge target arguments edge' target' arguments'),
        Except.ok.injEq]
      rfl
  | switch _ _ | switchMove _ _ | trap _ | fault _ | unreachable =>
      exact iff_of_false nofun fun admitted => by cases admitted.1
  | return_ value =>
      cases value with
      | none => exact iff_of_false nofun fun admitted => by cases admitted.1
      | some value =>
          rw [terminator_targets]
          constructor
          · intro ok
            split at ok
            · cases ok
            · split_ifs at ok with ty
              · exact ⟨.return_ value _ ‹_› (not_not.mp ty), Except.ok.inj ok⟩
          · rintro ⟨admitted, rfl⟩
            cases admitted with
            | return_ _ info known ty =>
                rw [known]
                exact if_neg (not_not.mpr ty)

theorem targets_eq_ok {id : MirBlockId} {ws : List MirBlockId} : function.targets id = .ok ws ↔
    ∃ block, function.blocks.find? id = some block ∧ function.Admitted block.terminator ∧
      block.terminator.successors = ws := by
  rw [targets]
  cases found : function.blocks.find? id with
  | none => exact iff_of_false nofun nofun
  | some block =>
      refine terminator_targets_eq_ok.trans ⟨fun ok => ⟨block, rfl, ok⟩, ?_⟩
      rintro ⟨_, same, ok⟩
      exact Option.some.inj same ▸ ok

/-- What the search does at a terminator. -/
theorem visit_terminator_apply (visit : MirBlockId → Run (ActiveSearch.Marks MirBlockId) String Unit)
    (terminator : MirTerminator) (marks : ActiveSearch.Marks MirBlockId) :
    function.visit_terminator visit terminator marks =
      match function.terminator_targets terminator with
      | .error e => some (.error e, marks)
      | .ok ws => Run.forEach visit ws marks := by
  cases terminator with
  | goto edge target arguments =>
      exact congrFun (Run.forEach_singleton visit target).symm marks
  | branch condition edge target arguments edge' target' arguments' =>
      have last := Run.forEach_singleton visit target'
      show (visit target >>= fun _ => visit target') marks =
        (visit target >>= fun _ => Run.forEach visit [target']) marks
      rw [last]
  | switch _ _ | switchMove _ _ | trap _ | fault _ | unreachable => rfl
  | return_ value =>
      cases value with
      | none => rfl
      | some value =>
          rw [visit_terminator, terminator_targets]
          cases function.values.find? value with
          | none => rfl
          | some info =>
              by_cases ty : info.ty ≠ function.result
              · simp only [if_pos ty]
                rfl
              · simp only [if_neg ty]
                rfl

/-- The search through the blocks is the one of the library. -/
theorem visit_eq (fuel : Nat) : function.visit fuel =
    ActiveSearch.visit function.targets
      "MIR variant call return merge does not admit cyclic canonical MIR CFG" fuel := by
  induction fuel with
  | zero => rfl
  | succ fuel ih =>
      funext id marks
      rw [visit, ActiveSearch.visit_succ, Run.gets_bind, Run.modify_bind, Run.ite_apply]
      by_cases active : id ∈ marks.active
      · rw [if_pos active, if_pos active, Finset.insert_eq_of_mem active]
        rfl
      rw [if_neg active, if_neg active, Run.gets_bind, Run.modify_bind, Run.ite_apply]
      by_cases visited : id ∈ marks.visited
      · rw [if_pos visited, if_pos visited, Finset.insert_eq_of_mem visited]
        simp only [Run.modify, Finset.erase_insert active]
      rw [if_neg visited, if_neg visited, targets]
      cases function.blocks.find? id with
      | none => rfl
      | some block =>
          simp only [Run.bind_apply, visit_terminator_apply, ih]
          cases function.terminator_targets block.terminator with
          | error e => rfl
          | ok ws => rfl

/-! ### From the search to the function -/

theorem edge_of_search {id target : MirBlockId} (edge : ActiveSearch.Edge function.targets id target) :
    function.Edge id target := by
  rw [ActiveSearch.Edge, ActiveSearch.edges] at edge
  cases ok : function.targets id with
  | error e =>
      rw [ok] at edge
      cases edge
  | ok ws =>
      rw [ok] at edge
      obtain ⟨block, found, -, rfl⟩ := targets_eq_ok.mp ok
      exact ⟨block, found, edge⟩

/-- Where no block fails, the search follows all edges. -/
theorem search_of_edge {id target : MirBlockId}
    (fine : ¬ActiveSearch.Faulty function.targets id) (edge : function.Edge id target) :
    ActiveSearch.Edge function.targets id target := by
  obtain ⟨block, found, member⟩ := edge
  cases ok : function.targets id with
  | error e => exact absurd (.inl ⟨e, ok⟩) fine
  | ok ws =>
      obtain ⟨block', found', -, rfl⟩ := targets_eq_ok.mp ok
      obtain rfl := Option.some.inj (found.symm.trans found')
      exact ActiveSearch.edge_of_ok ok member

/-- The search finds no fault exactly in the functions that are covered. -/
theorem faultless_iff : (∀ id, ReflTransGen (ActiveSearch.Edge function.targets) function.entry id →
      ¬ActiveSearch.Faulty function.targets id) ↔ function.ReturnsCovered := by
  constructor
  · intro fine
    have found {id : MirBlockId} (path : function.Reaches function.entry id) :
        ReflTransGen (ActiveSearch.Edge function.targets) function.entry id := by
      induction path with
      | refl => exact .refl
      | tail _ edge ih => exact ih.tail (search_of_edge (fine _ ih) edge)
    refine ⟨fun id path => ?_, fun id path cycle => ?_⟩
    · cases ok : function.targets id with
      | error e => exact absurd (.inl ⟨e, ok⟩) (fine id (found path))
      | ok ws =>
          obtain ⟨block, here, admitted, -⟩ := targets_eq_ok.mp ok
          exact ⟨block, here, admitted⟩
    · -- all blocks of the cycle can be reached
      have round {target : MirBlockId} (way : TransGen function.Edge id target) :
          TransGen (ActiveSearch.Edge function.targets) id target := by
        induction way with
        | single edge => exact .single (search_of_edge (fine _ (found path)) edge)
        | tail way edge ih =>
            exact ih.tail (search_of_edge (fine _ ((found path).trans ih.to_reflTransGen)) edge)
      exact fine id (found path) (.inr (round cycle))
  · have among : ActiveSearch.Edge function.targets ≤ function.Edge := fun _ _ => edge_of_search
    rintro covered id path (⟨e, fails⟩ | cycle)
    · obtain ⟨block, found, admitted⟩ := covered.ends id (ReflTransGen.mono among _ _ path)
      have ok := targets_eq_ok.mpr ⟨block, found, admitted, rfl⟩
      rw [fails] at ok
      cases ok
    · exact covered.acyclic id (ReflTransGen.mono among _ _ path) (TransGen.mono among _ _ cycle)

/-! ### Executions -/

/-- An execution that goes on comes to a later block by some steps. -/
theorem transGen_of_lt {run : Nat → MirBlockId} (steps : ∀ n, function.Edge (run n) (run (n + 1))) {m n : Nat}
    (less : m < n) : TransGen function.Edge (run m) (run n) := by
  induction n, less using Nat.le_induction with
  | base => exact .single (steps m)
  | succ n _ ih => exact ih.tail (steps n)

/-- The executions of a function that is covered end in a return. -/
theorem ReturnsCovered.every_execution_returns (covered : function.ReturnsCovered) :
    function.EveryExecutionReturns where
  finite := by
    rintro ⟨run, started, steps⟩
    have reached (n : Nat) : function.Reaches function.entry (run n) := by
      rw [← started]
      rcases Nat.eq_zero_or_pos n with rfl | later
      · exact .refl
      · exact (transGen_of_lt steps later).to_reflTransGen
    -- no block comes twice, and there are finitely many
    have apart : Function.Injective run := by
      intro m n same
      rcases Nat.lt_trichotomy m n with less | eq | less
      · have cycle := transGen_of_lt steps less
        rw [same] at cycle
        exact absurd cycle (covered.acyclic _ (reached n))
      · exact eq
      · have cycle := transGen_of_lt steps less
        rw [same] at cycle
        exact absurd cycle (covered.acyclic _ (reached n))
    refine Set.infinite_of_injective_forall_mem apart (fun n => ?_) function.blocks.keys.finite_toSet
    obtain ⟨block, found, -⟩ := steps n
    exact SortedMap.mem_keys_iff.mpr (by rw [found]; rfl)
  returns id path stuck := by
    obtain ⟨block, found, admitted⟩ := covered.ends id path
    generalize terminator : block.terminator = last at admitted
    cases admitted with
    | goto edge target arguments =>
        exact absurd ⟨block, found, by simp [terminator, MirTerminator.successors]⟩ (stuck target)
    | branch condition edge target arguments edge' target' arguments' =>
        exact absurd ⟨block, found, by simp [terminator, MirTerminator.successors]⟩ (stuck target)
    | return_ value info known ty => exact ⟨block, value, info, found, terminator, known, ty⟩

/-- With enough fuel the check returns, and accepts exactly the functions that are covered; all executions of
these end in a return of a value of the type of the result. -/
theorem return_coverage_exact (function : MirFunction) : ∃ bound, ∀ fuel, bound ≤ fuel →
    ∃ outcome, function.validate_variant_call_return_coverage fuel = some outcome ∧
      (outcome = .ok () ↔ function.ReturnsCovered) ∧ (outcome = .ok () → function.EveryExecutionReturns) := by
  refine ⟨function.blocks.keys.toFinset.card + 1, fun fuel enough => ?_⟩
  have within (id : MirBlockId) (ws : List MirBlockId) (ok : function.targets id = .ok ws) :
      id ∈ function.blocks.keys.toFinset := by
    obtain ⟨block, found, -⟩ := targets_eq_ok.mp ok
    exact List.mem_toFinset.mpr (SortedMap.mem_keys_iff.mpr (by rw [found]; rfl))
  obtain ⟨outcome, marks, ran, exact_⟩ := ActiveSearch.search_exact within function.entry enough
  rw [faultless_iff] at exact_
  refine ⟨outcome, ?_, exact_, fun ok => (exact_.mp ok).every_execution_returns⟩
  rw [validate_variant_call_return_coverage, visit_eq, ran]
  rfl

end Mimi.Mir.MirFunction
