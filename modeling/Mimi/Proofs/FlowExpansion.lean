/-
Module: Mimi.Proofs.FlowExpansion
Purpose: The expansion of a flow keeps what the user wrote, completes it with the Fault state and the
  system verbs, writes well-formed record literals, and changes nothing the second time.
Trusted boundary: none
-/
import Mimi.Proofs.FlowLiterals

namespace Mimi.Flow

open Mimi.Ast Mimi.Lib
open Mimi.Core (Span)

/-! ### The expansion as a completion -/

/-- The state and event of a transition. -/
def pairOf (t : TransitionDef) : String × String := (t.name, t.from_state)

/-- The transitions of a flow, completed. -/
def completed (flow : FlowDef) (candidates : List TransitionDef) : FlowDef :=
  { flow with transitions := complete pairOf flow.transitions candidates }

def systemCandidates (flow : FlowDef) (shapes : Shapes) : List TransitionDef :=
  match root_state_name flow with
  | none => []
  | some root => [reset_transition flow root shapes, recover_transition flow root shapes]

def peerCandidates (flow : FlowDef) (shapes : Shapes) : List TransitionDef :=
  ((flow.states.filter fun s => s.name != "Fault").map StateDef.name ++
    if flow.states.any (fun s => s.name == "Fault") then ["Fault"] else []).map
      (peer_fault_transition flow shapes)

def ffiCandidates (flow : FlowDef) (shapes : Shapes) : List TransitionDef :=
  if flow.states.any (fun s => s.name == "FFI_Pinned") then
    match active_state_name flow with
    | none => []
    | some active =>
        (if payloads_compatible flow active then
          [enter_ffi_transition flow active, exit_ffi_transition flow active]
        else []) ++ [ffi_crash_transition flow shapes]
  else []

/-- All transitions that the expansion may add. -/
def candidates (flow : FlowDef) (shapes : Shapes) : List TransitionDef :=
  systemCandidates flow shapes ++ (peerCandidates flow shapes ++ ffiCandidates flow shapes)

variable {flow : FlowDef}

theorem has_transition_iff {name from_state : String} :
    has_transition flow name from_state = true ↔
      (name, from_state) ∈ flow.transitions.map pairOf := by
  simp only [has_transition, List.any_eq_true, Bool.and_eq_true, beq_iff_eq, List.mem_map, pairOf,
    Prod.mk.injEq]

variable {t : TransitionDef}

theorem push_unless_has {s : FlowDef} :
    push_unless (has_transition s t.name t.from_state) t s = completed s [t] := by
  rw [push_unless]
  split_ifs with there
  · have covered : complete pairOf s.transitions [t] = s.transitions :=
      complete_of_covered fun c member => by
        rw [List.mem_singleton.mp member]
        exact has_transition_iff.mp there
    rw [completed, covered]
  · have lacks : pairOf t ∉ s.transitions.map pairOf := mt has_transition_iff.mpr there
    have all : added pairOf s.transitions [t] = [t] :=
      added_eq_filter (fun _ => true) fun c member => by
        rw [List.mem_singleton.mp member]
        exact iff_of_true rfl lacks
    rw [completed, complete, all]

theorem completed_completed {first second : List TransitionDef}
    (apart : ∀ t ∈ second, ∀ t' ∈ first, t.name ≠ t'.name) :
    completed (completed flow first) second = completed flow (first ++ second) := by
  have keys : ∀ t ∈ second, pairOf t ∉ first.map pairOf := by
    intro t member there
    obtain ⟨t', member', same⟩ := List.mem_map.mp there
    exact apart t member t' member' (congrArg Prod.fst same).symm
  exact congrArg (fun ts => { flow with transitions := ts }) (complete_complete keys)

theorem completed_nil (flow : FlowDef) : completed flow [] = flow :=
  congrArg (fun ts => { flow with transitions := ts }) (List.append_nil _)

/-- Completing by other verbs does not change whether a verb is there. -/
theorem has_transition_completed {ts : List TransitionDef}
    {name from_state : String} (other : ∀ t ∈ ts, t.name ≠ name) :
    has_transition (completed flow ts) name from_state = has_transition flow name from_state := by
  rw [Bool.eq_iff_iff, has_transition_iff, has_transition_iff]
  refine ⟨fun there => ?_, key_mem_complete⟩
  obtain ⟨t, member, same⟩ := List.mem_map.mp there
  rcases List.mem_append.mp member with entry | fresh
  · exact List.mem_map.mpr ⟨t, entry, same⟩
  · exact absurd (congrArg Prod.fst same) (other t (mem_added.mp fresh).1)

theorem inject_system_verbs_eq (flow : FlowDef) (shapes : Shapes) :
    inject_system_verbs flow shapes = completed flow (systemCandidates flow shapes) := by
  rw [inject_system_verbs, systemCandidates]
  cases root_state_name flow with
  | none => exact (completed_nil flow).symm
  | some root =>
      have reset : push_unless (has_transition flow "reset" "Fault")
          (reset_transition flow root shapes) flow =
          completed flow [reset_transition flow root shapes] :=
        push_unless_has (t := reset_transition flow root shapes)
      have apart : ∀ t ∈ [reset_transition flow root shapes], t.name ≠ "recover" := by
        intro t member
        rw [List.mem_singleton.mp member]
        simp [reset_transition, generated_transition]
      calc push_unless (has_transition flow "recover" "Fault") (recover_transition flow root shapes)
            (push_unless (has_transition flow "reset" "Fault")
              (reset_transition flow root shapes) flow)
          = completed (completed flow [reset_transition flow root shapes])
              [recover_transition flow root shapes] := by
            rw [reset, ← has_transition_completed apart]
            exact push_unless_has (t := recover_transition flow root shapes)
        _ = completed flow [reset_transition flow root shapes, recover_transition flow root shapes] :=
            completed_completed fun t member t' member' => by
              rw [List.mem_singleton.mp member]
              exact (apart t' member').symm

theorem inject_peer_fault_verbs_eq (flow : FlowDef) (shapes : Shapes) :
    inject_peer_fault_verbs flow shapes = completed flow (peerCandidates flow shapes) := by
  have defined : ∀ state, ((flow.transitions.filter fun t => t.name == "peer_fault").map
      TransitionDef.from_state).contains state = true ↔
        ("peer_fault", state) ∈ flow.transitions.map pairOf := by
    intro state
    simp only [List.contains_iff_mem, List.mem_map, List.mem_filter, beq_iff_eq, pairOf,
      Prod.mk.injEq, and_assoc]
  have kept : ∀ states : List String,
      added pairOf flow.transitions (states.map (peer_fault_transition flow shapes)) =
        (states.filter fun state => !((flow.transitions.filter fun t => t.name == "peer_fault").map
          TransitionDef.from_state).contains state).map (peer_fault_transition flow shapes) := by
    intro states
    refine (added_eq_filter (fun t => !((flow.transitions.filter fun t => t.name == "peer_fault").map
      TransitionDef.from_state).contains t.from_state) fun c member => ?_).trans
        List.filter_map
    obtain ⟨state, -, rfl⟩ := List.mem_map.mp member
    rw [Bool.not_eq_true', ← Bool.not_eq_true, defined]
    rfl
  have split : ∀ first second : List TransitionDef, added pairOf flow.transitions (first ++ second) =
      added pairOf flow.transitions first ++ added pairOf flow.transitions second :=
    fun first second => List.filter_append _ _
  rw [inject_peer_fault_verbs, completed, complete, peerCandidates, List.map_append, split, kept,
    kept]
  by_cases declared : flow.states.any (fun s => s.name == "Fault") = true
  · rw [if_pos declared, List.filter_singleton]
    simp only [declared, Bool.and_true]
    cases ((flow.transitions.filter fun t => t.name == "peer_fault").map
      TransitionDef.from_state).contains "Fault" <;> rfl
  · rw [if_neg declared]
    simp only [declared, Bool.and_false]
    rfl

theorem push_unless_or (flow : FlowDef) (t : TransitionDef) (compatible : Bool) :
    push_unless (has_transition flow t.name t.from_state || !compatible) t flow =
      completed flow (if compatible then [t] else []) := by
  cases compatible with
  | false =>
      rw [Bool.not_false, Bool.or_true]
      exact (completed_nil flow).symm
  | true => simpa only [Bool.not_true, Bool.or_false, if_true] using push_unless_has

theorem inject_ffi_pinned_transitions_eq (flow : FlowDef) (shapes : Shapes) :
    inject_ffi_pinned_transitions flow shapes = completed flow (ffiCandidates flow shapes) := by
  rw [inject_ffi_pinned_transitions, ffiCandidates]
  split_ifs with pinned
  · cases active_state_name flow with
    | none => exact (completed_nil flow).symm
    | some active =>
        let enters := if payloads_compatible flow active then [enter_ffi_transition flow active] else []
        let exits := if payloads_compatible flow active then [exit_ffi_transition flow active] else []
        -- the bodies are made of the states, which the pushes before do not change
        have entered : push_unless
            (has_transition flow "enter_ffi" active || !payloads_compatible flow active)
            (enter_ffi_transition flow active) flow = completed flow enters :=
          push_unless_or flow (enter_ffi_transition flow active) _
        have left : push_unless
            (has_transition (completed flow enters) "exit_ffi" "FFI_Pinned" ||
              !payloads_compatible flow active)
            (exit_ffi_transition (completed flow enters) active) (completed flow enters) =
              completed (completed flow enters) exits :=
          push_unless_or (completed flow enters) (exit_ffi_transition flow active) _
        have crashed : push_unless
            (has_transition (completed (completed flow enters) exits) "ffi_crash" "FFI_Pinned")
            (ffi_crash_transition (completed (completed flow enters) exits) shapes)
            (completed (completed flow enters) exits) =
              completed (completed (completed flow enters) exits)
                [ffi_crash_transition flow shapes] :=
          push_unless_has (t := ffi_crash_transition flow shapes)
        have exit_apart : ∀ t ∈ exits, ∀ t' ∈ enters, t.name ≠ t'.name := by
          intro t member t' member'
          simp only [exits, enters] at member member'
          split_ifs at member member'
          · rw [List.mem_singleton.mp member, List.mem_singleton.mp member']
            simp [exit_ffi_transition, enter_ffi_transition, generated_transition]
          · exact absurd member List.not_mem_nil
        have crash_apart : ∀ t ∈ [ffi_crash_transition flow shapes], ∀ t' ∈ enters ++ exits,
            t.name ≠ t'.name := by
          intro t member t' member'
          rw [List.mem_singleton.mp member]
          simp only [exits, enters] at member'
          split_ifs at member'
          · rcases List.mem_append.mp member' with h | h
            · rw [List.mem_singleton.mp h]
              simp [ffi_crash_transition, enter_ffi_transition, generated_transition]
            · rw [List.mem_singleton.mp h]
              simp [ffi_crash_transition, exit_ffi_transition, generated_transition]
          · exact absurd member' List.not_mem_nil
        have all : (if payloads_compatible flow active then
              [enter_ffi_transition flow active, exit_ffi_transition flow active] else []) =
            enters ++ exits := by
          simp only [enters, exits]
          split_ifs <;> rfl
        simp only [entered, left, crashed]
        rw [completed_completed exit_apart, completed_completed crash_apart, all]
  · exact (completed_nil flow).symm

variable {shapes : Shapes}

theorem systemCandidates_name
    (member : t ∈ systemCandidates flow shapes) : t.name = "reset" ∨ t.name = "recover" := by
  rw [systemCandidates] at member
  split at member
  · exact absurd member List.not_mem_nil
  · rcases List.mem_pair.mp member with rfl | rfl
    · exact .inl rfl
    · exact .inr rfl

theorem peerCandidates_name (member : t ∈ peerCandidates flow shapes) : t.name = "peer_fault" := by
  obtain ⟨state, -, rfl⟩ := List.mem_map.mp member
  rfl

theorem ffiCandidates_name (member : t ∈ ffiCandidates flow shapes) :
    t.name = "enter_ffi" ∨ t.name = "exit_ffi" ∨ t.name = "ffi_crash" := by
  rw [ffiCandidates] at member
  split_ifs at member with pinned
  · split at member
    · exact absurd member List.not_mem_nil
    · rcases List.mem_append.mp member with passes | crash
      · split_ifs at passes with compatible
        · rcases List.mem_pair.mp passes with rfl | rfl
          · exact .inl rfl
          · exact .inr (.inl rfl)
        · exact absurd passes List.not_mem_nil
      · rw [List.mem_singleton.mp crash]
        exact .inr (.inr rfl)
  · exact absurd member List.not_mem_nil

/-- The expansion completes the transitions once the Fault state is there. -/
theorem expand_eq_complete (flow : FlowDef) (shapes : Shapes) (module : String) :
    expand_flow_with_shapes flow shapes module =
      completed (ensure_fault_state flow module)
        (candidates (ensure_fault_state flow module) shapes) := by
  have system_peer : ∀ t ∈ peerCandidates (ensure_fault_state flow module) shapes,
      ∀ t' ∈ systemCandidates (ensure_fault_state flow module) shapes, t.name ≠ t'.name := by
    intro t member t' member'
    rw [peerCandidates_name member]
    rcases systemCandidates_name member' with h | h <;> rw [h] <;> decide
  have rest_ffi : ∀ t ∈ ffiCandidates (ensure_fault_state flow module) shapes,
      ∀ t' ∈ systemCandidates (ensure_fault_state flow module) shapes ++
        peerCandidates (ensure_fault_state flow module) shapes, t.name ≠ t'.name := by
    intro t member t' member'
    have other : t'.name = "reset" ∨ t'.name = "recover" ∨ t'.name = "peer_fault" := by
      rcases List.mem_append.mp member' with system | peer
      · rcases systemCandidates_name system with h | h
        · exact .inl h
        · exact .inr (.inl h)
      · exact .inr (.inr (peerCandidates_name peer))
    rcases ffiCandidates_name member with h | h | h <;> rcases other with h' | h' | h' <;>
      rw [h, h'] <;> decide
  rw [expand_flow_with_shapes, candidates, ← List.append_assoc]
  simp only [inject_system_verbs_eq, inject_peer_fault_verbs_eq, inject_ffi_pinned_transitions_eq]
  rw [← completed_completed rest_ffi, ← completed_completed system_peer]
  rfl

/-! ### The Fault state -/

theorem addShadow_cases (flow : FlowDef) (span : Span) (payload : List Field) (name : String) :
    (name ∈ payload.map Field.name ∧ addShadow flow span payload name = payload) ∨
      ∃ shadow : Field, shadow.name = name ∧
        addShadow flow span payload name = payload ++ [shadow] := by
  rw [addShadow]
  split_ifs with there
  · obtain ⟨f, member, same⟩ := List.any_eq_true.mp there
    exact .inl ⟨List.mem_map.mpr ⟨f, member, beq_iff_eq.mp same⟩, rfl⟩
  · exact .inr ⟨_, rfl, rfl⟩

/-- The shadows come after the payload, have persistent names, and leave none out. -/
theorem foldl_addShadow (flow : FlowDef) (span : Span) (names : List String) (payload : List Field) :
    ∃ shadows : List Field, names.foldl (addShadow flow span) payload = payload ++ shadows ∧
      (∀ f ∈ shadows, f.name ∈ names) ∧
        ∀ name ∈ names, name ∈ (payload ++ shadows).map Field.name := by
  induction names generalizing payload with
  | nil => exact ⟨[], (List.append_nil payload).symm, by simp, by simp⟩
  | cons name names ih =>
      rw [List.foldl_cons]
      rcases addShadow_cases flow span payload name with ⟨there, same⟩ | ⟨shadow, named, more⟩
      · obtain ⟨shadows, all, fromNames, covers⟩ := ih payload
        rw [same]
        refine ⟨shadows, all, fun f member => List.mem_cons_of_mem _ (fromNames f member), ?_⟩
        intro n member
        rcases List.mem_cons.mp member with rfl | later
        · rw [List.map_append]
          exact List.mem_append_left _ there
        · exact covers n later
      · obtain ⟨shadows, all, fromNames, covers⟩ := ih (payload ++ [shadow])
        rw [more]
        refine ⟨shadow :: shadows, by rw [all, List.append_assoc]; rfl, ?_, ?_⟩
        · intro f member
          rcases List.mem_cons.mp member with rfl | later
          · rw [named]
            exact List.mem_cons_self
          · exact List.mem_cons_of_mem _ (fromNames f later)
        · intro n member
          rcases List.mem_cons.mp member with rfl | later
          · exact List.mem_map.mpr ⟨shadow, by simp, named⟩
          · have there := covers n later
            rwa [List.append_assoc] at there

theorem foldl_addShadow_of_covered {span : Span} {names : List String}
    {payload : List Field} (covered : ∀ name ∈ names, name ∈ payload.map Field.name) :
    names.foldl (addShadow flow span) payload = payload := by
  induction names with
  | nil => rfl
  | cons name names ih =>
      have there : addShadow flow span payload name = payload := by
        rw [addShadow, if_pos]
        obtain ⟨f, member, same⟩ := List.mem_map.mp (covered name List.mem_cons_self)
        exact List.any_eq_true.mpr ⟨f, member, beq_iff_eq.mpr same⟩
      rw [List.foldl_cons, there]
      exact ih fun n member => covered n (List.mem_cons_of_mem _ member)

/-- The flow with a Fault state, before the shadows. -/
def withFault (flow : FlowDef) (module : String) : FlowDef :=
  if flow.states.any (fun s => s.name == "Fault") then flow
  else { flow with states := flow.states ++ [generatedFault flow module] }

/-- A state with the shadows of the persistent fields of the flow. -/
def shadowed (flow : FlowDef) (fault : StateDef) : StateDef :=
  { fault with
    payload := some (flow.persistent_fields.foldl (addShadow flow fault.info.span) fault.fields) }

theorem ensure_eq (flow : FlowDef) (module : String) :
    ensure_fault_state flow module =
      if (withFault flow module).persistent_fields.isEmpty then withFault flow module
      else
        { withFault flow module with
          states := modifyFirst (fun s => s.name == "Fault") (shadowed (withFault flow module))
            (withFault flow module).states } :=
  rfl

theorem withFault_persistent (flow : FlowDef) (module : String) :
    (withFault flow module).persistent_fields = flow.persistent_fields := by
  rw [withFault]
  split_ifs <;> rfl

theorem withFault_transitions (flow : FlowDef) (module : String) :
    (withFault flow module).transitions = flow.transitions := by
  rw [withFault]
  split_ifs <;> rfl

theorem declared_iff {name : String} :
    flow.states.any (fun s => s.name == name) = true ↔ name ∈ flow.states.map StateDef.name := by
  simp only [List.any_eq_true, beq_iff_eq, List.mem_map]

theorem withFault_names (flow : FlowDef) (module : String) :
    (withFault flow module).states.map StateDef.name = flow.states.map StateDef.name ++
      if "Fault" ∈ flow.states.map StateDef.name then [] else ["Fault"] := by
  rw [withFault]
  split_ifs with any member member
  · rw [List.append_nil]
  · exact absurd (declared_iff.mp any) member
  · exact absurd (declared_iff.mpr member) any
  · rw [List.map_append]
    rfl

theorem ensure_names (flow : FlowDef) (module : String) :
    (ensure_fault_state flow module).states.map StateDef.name = flow.states.map StateDef.name ++
      if "Fault" ∈ flow.states.map StateDef.name then [] else ["Fault"] := by
  rw [ensure_eq, ← withFault_names flow module]
  split_ifs
  · rfl
  · exact map_modifyFirst (f := shadowed _) (g := StateDef.name) (fun s _ => rfl) _

theorem ensure_declares (flow : FlowDef) (module : String) :
    "Fault" ∈ (ensure_fault_state flow module).states.map StateDef.name := by
  rw [ensure_names, List.mem_append]
  by_cases there : "Fault" ∈ flow.states.map StateDef.name
  · exact .inl there
  · rw [if_neg there]
    exact .inr List.mem_cons_self

theorem ensure_transitions (flow : FlowDef) (module : String) :
    (ensure_fault_state flow module).transitions = flow.transitions := by
  rw [ensure_eq, ← withFault_transitions flow module]
  split_ifs <;> rfl

theorem ensure_persistent (flow : FlowDef) (module : String) :
    (ensure_fault_state flow module).persistent_fields = flow.persistent_fields := by
  rw [ensure_eq, ← withFault_persistent flow module]
  split_ifs <;> rfl

/-- Only the states and the transitions of the flow change. -/
theorem ensure_header (flow : FlowDef) (module : String) :
    ensure_fault_state flow module =
      { flow with states := (ensure_fault_state flow module).states } := by
  have header : withFault flow module = { flow with states := (withFault flow module).states } := by
    rw [withFault]
    split_ifs <;> rfl
  rw [ensure_eq]
  split_ifs
  · exact header
  · rw [header]

variable {s : StateDef}

theorem withFault_kept (module : String) (member : s ∈ flow.states) :
    s ∈ (withFault flow module).states := by
  rw [withFault]
  split_ifs
  · exact member
  · exact List.mem_append_left _ member

theorem ensure_kept (module : String) (member : s ∈ flow.states)
    (other : s.name ≠ "Fault") : s ∈ (ensure_fault_state flow module).states := by
  have kept := withFault_kept module member
  rw [ensure_eq]
  split_ifs
  · exact kept
  · exact mem_modifyFirst_of_not kept (by rwa [beq_iff_eq])

theorem findState_isSome {name : String}
    (declared : name ∈ flow.states.map StateDef.name) : ∃ s, findState flow name = some s := by
  obtain ⟨s, member, named⟩ := List.mem_map.mp declared
  exact Option.isSome_iff_exists.mp (List.find?_isSome.mpr ⟨s, member, beq_iff_eq.mpr named⟩)

theorem findState_name {name : String} (found : findState flow name = some s) : s.name = name := by
  have named := List.find?_some (p := fun s : StateDef => s.name == name) found
  exact beq_iff_eq.mp named

theorem findState_mem {name : String} (found : findState flow name = some s) : s ∈ flow.states :=
  List.mem_of_find?_eq_some found

theorem fieldsOf_found {name : String} (found : findState flow name = some s) : fieldsOf flow name = s.fields := by
  rw [fieldsOf, found]
  rfl

/-- `fault'` is `fault` with shadows of persistent fields behind its own. -/
structure FaultOf (flow : FlowDef) (fault fault' : StateDef) : Prop where
  name : fault'.name = fault.name
  info : fault'.info = fault.info
  fields : ∃ shadows : List Field, fault'.fields = fault.fields ++ shadows ∧
    ∀ f ∈ shadows, f.name ∈ flow.persistent_fields
  covers : ∀ name ∈ flow.persistent_fields, name ∈ fault'.fieldNames

theorem shadowed_faultOf (flow : FlowDef) (fault : StateDef) :
    FaultOf flow fault (shadowed flow fault) := by
  obtain ⟨shadows, all, fromNames, covers⟩ :=
    foldl_addShadow flow fault.info.span flow.persistent_fields fault.fields
  refine ⟨rfl, rfl, ⟨shadows, all, fromNames⟩, ?_⟩
  intro name member
  have there := covers name member
  rw [← all] at there
  exact there

/-- The Fault state of the expansion. -/
theorem ensure_fault (flow : FlowDef) (module : String) :
    ∃ fault fault', findState (withFault flow module) "Fault" = some fault ∧
      findState (ensure_fault_state flow module) "Fault" = some fault' ∧
        FaultOf flow fault fault' := by
  have declared : "Fault" ∈ (withFault flow module).states.map StateDef.name := by
    rw [withFault_names, ← ensure_names flow module]
    exact ensure_declares flow module
  obtain ⟨fault, found⟩ := findState_isSome declared
  refine ⟨fault, ?_⟩
  rw [ensure_eq, withFault_persistent]
  split_ifs with none_persistent
  · refine ⟨fault, found, found, rfl, rfl, ⟨[], (List.append_nil _).symm, by simp⟩, ?_⟩
    intro name member
    rw [List.isEmpty_iff.mp none_persistent] at member
    exact absurd member List.not_mem_nil
  · refine ⟨shadowed (withFault flow module) fault, found, ?_, ?_⟩
    · have updated := find?_modifyFirst (p := fun s : StateDef => s.name == "Fault")
        (f := shadowed (withFault flow module)) (fun s named => named)
        (withFault flow module).states
      exact updated.trans (congrArg (Option.map _) found)
    · have all := shadowed_faultOf (withFault flow module) fault
      exact ⟨all.name, all.info, withFault_persistent flow module ▸ all.fields,
        withFault_persistent flow module ▸ all.covers⟩

theorem ensure_shadowed (flow : FlowDef) (module : String) :
    Shadowed (ensure_fault_state flow module) := by
  obtain ⟨fault, fault', -, found, all⟩ := ensure_fault flow module
  rw [Shadowed, ensure_persistent, fieldsOf_found found]
  exact all.covers

/-- Nothing changes when the Fault state and its shadows are there. -/
theorem ensure_eq_self {module : String} (declared : "Fault" ∈ flow.states.map StateDef.name) (all : Shadowed flow) :
    ensure_fault_state flow module = flow := by
  have there : withFault flow module = flow := if_pos (declared_iff.mpr declared)
  rw [ensure_eq, there]
  split_ifs with none_persistent
  · rfl
  · have same : modifyFirst (fun s => s.name == "Fault") (shadowed flow) flow.states = flow.states := by
      refine modifyFirst_eq_self fun fault found => ?_
      have covers : ∀ name ∈ flow.persistent_fields, name ∈ fault.fields.map Field.name := by
        intro name member
        have there := all name member
        rwa [fieldsOf_found found] at there
      have kept : flow.persistent_fields.foldl (addShadow flow fault.info.span) fault.fields =
          fault.fields := foldl_addShadow_of_covered covers
      -- a persistent field is in the payload, so there is one
      obtain ⟨name, rest, persistent⟩ := List.exists_cons_of_ne_nil (mt List.isEmpty_iff.mpr none_persistent)
      have there := covers name (persistent ▸ List.mem_cons_self)
      rw [shadowed, kept]
      obtain ⟨info, fault_name, payload⟩ := fault
      cases payload with
      | none => exact absurd there List.not_mem_nil
      | some fields => rfl
    rw [same]

/-! ### The keys of the candidates -/

/-- Which transitions may be added depends on the states only. -/
theorem candidates_keys (flow : FlowDef) (shapes shapes' : Shapes) :
    (candidates flow shapes).map pairOf = (candidates flow shapes').map pairOf := by
  have system : (systemCandidates flow shapes).map pairOf =
      (systemCandidates flow shapes').map pairOf := by
    rw [systemCandidates, systemCandidates]
    cases root_state_name flow <;> rfl
  have peer : (peerCandidates flow shapes).map pairOf = (peerCandidates flow shapes').map pairOf := by
    rw [peerCandidates, peerCandidates, List.map_map, List.map_map]
    rfl
  have ffi : (ffiCandidates flow shapes).map pairOf = (ffiCandidates flow shapes').map pairOf := by
    rw [ffiCandidates, ffiCandidates]
    split_ifs
    · cases active_state_name flow with
      | none => rfl
      | some active =>
          simp only [List.map_append]
          rfl
    · rfl
  rw [candidates, candidates, List.map_append, List.map_append, List.map_append, List.map_append,
    system, peer, ffi]

theorem candidates_nodup (distinct : (flow.states.map StateDef.name).Nodup)
    (shapes : Shapes) : ((candidates flow shapes).map pairOf).Nodup := by
  have other : ∀ {first second : List TransitionDef}, (∀ t ∈ first, ∀ t' ∈ second, t.name ≠ t'.name) →
      ∀ k ∈ first.map pairOf, ∀ k' ∈ second.map pairOf, k ≠ k' := by
    intro first second apart k member k' member' same
    obtain ⟨t, there, rfl⟩ := List.mem_map.mp member
    obtain ⟨t', there', rfl⟩ := List.mem_map.mp member'
    exact apart t there t' there' (congrArg Prod.fst same)
  have system : ((systemCandidates flow shapes).map pairOf).Nodup := by
    rw [systemCandidates]
    split
    · exact List.nodup_nil
    · simp [pairOf, reset_transition, recover_transition, generated_transition]
  have peer : ((peerCandidates flow shapes).map pairOf).Nodup := by
    rw [peerCandidates, List.map_map]
    refine List.Nodup.map (fun a b same => congrArg Prod.snd same) ?_
    refine List.nodup_append.mpr ⟨distinct.sublist (List.filter_sublist.map _), ?_, ?_⟩
    · split_ifs
      · exact List.nodup_singleton _
      · exact List.nodup_nil
    · intro name member name' member' same
      obtain ⟨s, kept, rfl⟩ := List.mem_map.mp member
      have not_fault := bne_iff_ne.mp (List.mem_filter.mp kept).2
      split_ifs at member'
      · exact not_fault (same.trans (List.mem_singleton.mp member'))
      · exact List.not_mem_nil member'
  have ffi : ((ffiCandidates flow shapes).map pairOf).Nodup := by
    rw [ffiCandidates]
    split_ifs
    · split
      · exact List.nodup_nil
      · split_ifs <;>
          simp [pairOf, enter_ffi_transition, exit_ffi_transition, ffi_crash_transition,
            generated_transition]
    · exact List.nodup_nil
  rw [candidates, List.map_append, List.map_append]
  refine List.nodup_append.mpr ⟨system, List.nodup_append.mpr ⟨peer, ffi, other ?_⟩, ?_⟩
  · intro t member t' member'
    rw [peerCandidates_name member]
    rcases ffiCandidates_name member' with h | h | h <;> rw [h] <;> decide
  · rw [← List.map_append]
    refine other fun t member t' member' => ?_
    rcases systemCandidates_name member with h | h <;>
      rcases List.mem_append.mp member' with peers | ffis
    · rw [h, peerCandidates_name peers]
      decide
    · rcases ffiCandidates_name ffis with h' | h' | h' <;> rw [h, h'] <;> decide
    · rw [h, peerCandidates_name peers]
      decide
    · rcases ffiCandidates_name ffis with h' | h' | h' <;> rw [h, h'] <;> decide

theorem peer_fault_covered (shapes : Shapes)
    (member : s ∈ flow.states) : ∃ t ∈ candidates flow shapes, pairOf t = ("peer_fault", s.name) := by
  refine ⟨peer_fault_transition flow shapes s.name, ?_, rfl⟩
  refine List.mem_append_right _ (List.mem_append_left _ (List.mem_map_of_mem ?_))
  by_cases fault : s.name = "Fault"
  · refine List.mem_append_right _ ?_
    rw [if_pos (declared_iff.mpr (fault ▸ List.mem_map_of_mem member)), fault]
    exact List.mem_cons_self
  · exact List.mem_append_left _
      (List.mem_map_of_mem (List.mem_filter.mpr ⟨member, bne_iff_ne.mpr fault⟩))

theorem root_isSome (member : s ∈ flow.states)
    (other : s.name ≠ "Fault") : ∃ root, root_state_name flow = some root := by
  rw [root_state_name, ← Option.isSome_iff_exists, Option.isSome_map]
  exact List.find?_isSome.mpr ⟨s, member, bne_iff_ne.mpr other⟩

theorem system_covered {root : String} (shapes : Shapes) (first : root_state_name flow = some root) :
    reset_transition flow root shapes ∈ candidates flow shapes ∧
      recover_transition flow root shapes ∈ candidates flow shapes := by
  have both : systemCandidates flow shapes =
      [reset_transition flow root shapes, recover_transition flow root shapes] := by
    rw [systemCandidates, first]
  rw [candidates, both]
  exact ⟨by simp, by simp⟩

/-! ### The bodies of the candidates -/

/-- A literal of a state lists the fields of the state; the records of a fault trace are no states. -/
def ShapedIn (flow : FlowDef) (n : String) (names : List String) : Prop :=
  n ∈ systemRecords ∨ ∀ s ∈ flow.states, s.name = n → names = s.fieldNames

/-- The transition returns a literal of its target that gives every field of it a value, in order;
the values read fields of the source only. -/
def Assigns (flow : FlowDef) (t : TransitionDef) : Prop :=
  ∃ source ∈ flow.states, ∃ target ∈ flow.states,
    t.from_state = source.name ∧ t.to_states = [target.name] ∧
      ∃ (stmtInfo exprInfo : AstNodeMeta) (fields : List RecordFieldExpr),
        t.body = some [.located stmtInfo (.return_ (some
          (.located exprInfo (.record (some target.name) fields none))))] ∧
        fields.map RecordFieldExpr.name = target.fieldNames ∧
        ∀ f ∈ fields, Built (· ∈ source.fieldNames) (ShapedIn flow) f.value

/-- The returned literal, with its metadata. -/
theorem return_record_eq (flow : FlowDef) (target : String) (value : Field → Expr)
    (origin : AstOrigin) : ∃ stmtInfo exprInfo info : AstNodeMeta,
      return_record flow target value origin = [.located stmtInfo (.return_ (some (.located exprInfo
        (.record (some target)
          ((fieldsOf flow target).map fun f =>
            ⟨info, f.name, generated_expr origin flow.info.span (value f)⟩) none))))] := by
  refine ⟨.new flow.info.span origin, .new flow.info.span origin,
    .inherited flow.info.span origin, ?_⟩
  rw [return_record, generated_stmt]
  simp only [Stmt.unlocated, Option.map_some, generated_expr, generated_rest,
    generated_fields_eq_map, List.map_map]
  rfl

theorem assigns_of_return {target : String} {value : Field → Expr} {origin : AstOrigin}
    (source : t.from_state ∈ flow.states.map StateDef.name) (target_mem : target ∈ flow.states.map StateDef.name)
    (goes : t.to_states = [target]) (body : t.body = some (return_record flow target value origin))
    (built : ∀ f ∈ fieldsOf flow target,
      Built (· ∈ (fieldsOf flow t.from_state).map Field.name) (ShapedIn flow) (value f)) :
    Assigns flow t := by
  obtain ⟨s, found⟩ := findState_isSome source
  obtain ⟨s', found'⟩ := findState_isSome target_mem
  obtain ⟨stmtInfo, exprInfo, info, literal⟩ := return_record_eq flow target value origin
  refine ⟨s, findState_mem found, s', findState_mem found', (findState_name found).symm, ?_,
    stmtInfo, exprInfo, (fieldsOf flow target).map fun f =>
      ⟨info, f.name, generated_expr origin flow.info.span (value f)⟩, ?_, ?_, ?_⟩
  · rw [goes, findState_name found']
  · rw [body, literal, findState_name found']
  · rw [List.map_map, fieldsOf_found found']
    rfl
  · intro f member
    obtain ⟨field, there, rfl⟩ := List.mem_map.mp member
    have each := built field there
    rw [fieldsOf_found found] at each
    exact generated_expr_built origin _ each

theorem root_declared {root : String} (first : root_state_name flow = some root) :
    root ∈ flow.states.map StateDef.name := by
  obtain ⟨s, found, rfl⟩ := Option.map_eq_some_iff.mp first
  exact List.mem_map_of_mem (List.mem_of_find?_eq_some found)

theorem active_declared {active : String}
    (first : active_state_name flow = some active) : active ∈ flow.states.map StateDef.name := by
  obtain ⟨s, found, rfl⟩ := Option.map_eq_some_iff.mp first
  exact List.mem_map_of_mem (List.mem_of_find?_eq_some found)

theorem candidates_assign (declared : "Fault" ∈ flow.states.map StateDef.name) (all : Shadowed flow)
    (known : ∀ n fields, shapes n = some fields → ShapedIn flow n (fields.map Field.name)) :
    ∀ t ∈ candidates flow shapes, Assigns flow t := by
  have system : ∀ n ∈ systemRecords, ∀ names, ShapedIn flow n names :=
    fun n member names => .inl member
  intro t member
  rcases List.mem_append.mp member with verbs | rest
  · rw [systemCandidates] at verbs
    split at verbs
    · exact absurd verbs List.not_mem_nil
    · rename_i root first
      rcases List.mem_pair.mp verbs with rfl | rfl
      · exact assigns_of_return declared (root_declared first) rfl rfl
          fun f _ => rebuild_field_built system known all false f
      · exact assigns_of_return declared (root_declared first) rfl rfl
          fun f _ => rebuild_field_built system known all (!flow.persistent_fields.isEmpty) f
  · rcases List.mem_append.mp rest with peers | ffis
    · obtain ⟨state, there, rfl⟩ := List.mem_map.mp peers
      have source : state ∈ flow.states.map StateDef.name := by
        rcases List.mem_append.mp there with others | fault
        · exact (List.filter_sublist.map StateDef.name).subset others
        · split_ifs at fault
          · exact List.mem_singleton.mp fault ▸ declared
          · exact absurd fault List.not_mem_nil
      exact assigns_of_return source declared rfl rfl
        fun f there => fault_field_value_built system known state "peer_fault" there
    · rw [ffiCandidates] at ffis
      split_ifs at ffis with pinned
      · split at ffis
        · exact absurd ffis List.not_mem_nil
        · rename_i active first
          have pinned_declared := declared_iff.mp pinned
          rcases List.mem_append.mp ffis with passes | crash
          · split_ifs at passes with compatible
            · have same : (fieldsOf flow active).map Field.name =
                  (fieldsOf flow "FFI_Pinned").map Field.name := beq_iff_eq.mp compatible
              rcases List.mem_pair.mp passes with rfl | rfl
              · refine assigns_of_return (active_declared first) pinned_declared rfl rfl ?_
                intro f there
                exact .selfField rfl (same ▸ List.mem_map_of_mem there)
              · refine assigns_of_return pinned_declared (active_declared first) rfl rfl ?_
                intro f there
                exact .selfField rfl (same ▸ List.mem_map_of_mem there)
            · exact absurd passes List.not_mem_nil
          · rw [List.mem_singleton.mp crash]
            exact assigns_of_return pinned_declared declared rfl rfl
              fun f there => fault_field_value_built system known "FFI_Pinned" "ffi_crash" there
      · exact absurd ffis List.not_mem_nil

/-! ### The expansion is conservative and complete -/

/-- What the expansion of a flow owes to the flow: the user's states and transitions as they are, but
for shadows of persistent fields in Fault; a single Fault state; `peer_fault` from every state, `reset`
and `recover` from Fault; and new transitions for new pairs only, with well-formed literals. -/
structure Conservative (flow expanded : FlowDef) : Prop where
  header : expanded =
    { flow with states := expanded.states, transitions := expanded.transitions }
  names : expanded.states.map StateDef.name = flow.states.map StateDef.name ++
    if "Fault" ∈ flow.states.map StateDef.name then [] else ["Fault"]
  states : ∀ s ∈ flow.states, s.name ≠ "Fault" → s ∈ expanded.states
  fault : ∀ s ∈ flow.states, s.name = "Fault" → ∃ s' ∈ expanded.states, FaultOf flow s s'
  one_fault : (expanded.states.map StateDef.name).count "Fault" = 1
  transitions : ∃ new, expanded.transitions = flow.transitions ++ new ∧
    (∀ t ∈ new, pairOf t ∉ flow.transitions.map pairOf) ∧ (new.map pairOf).Nodup ∧
      ∀ t ∈ new, Assigns expanded t
  peer_fault : ∀ s ∈ expanded.states, ("peer_fault", s.name) ∈ expanded.transitions.map pairOf
  system : ∀ s ∈ flow.states, s.name ≠ "Fault" →
    ("reset", "Fault") ∈ expanded.transitions.map pairOf ∧
      ("recover", "Fault") ∈ expanded.transitions.map pairOf

theorem ensure_distinct (module : String) (distinct : (flow.states.map StateDef.name).Nodup) :
    ((ensure_fault_state flow module).states.map StateDef.name).Nodup := by
  rw [ensure_names]
  split_ifs with there
  · rwa [List.append_nil]
  · refine List.nodup_append.mpr ⟨distinct, List.nodup_singleton _, ?_⟩
    intro name member name' member' same
    exact there (List.mem_singleton.mp member' ▸ same ▸ member)

/-- The shapes of the states are their fields in the flow with the Fault state. -/
theorem flowShapes_shaped (module : String)
    (distinct : (flow.states.map StateDef.name).Nodup) (n : String) (fields : List Field)
    (shape : flowShapes flow n = some fields) :
    ShapedIn (ensure_fault_state flow module) n (fields.map Field.name) := by
  obtain ⟨s, found, rfl⟩ := Option.map_eq_some_iff.mp shape
  have passes := List.find?_some (p := fun s : StateDef => s.name != "Fault" && s.name == n) found
  obtain ⟨other, named⟩ := Bool.and_eq_true_iff.mp passes
  have kept := ensure_kept module (List.mem_of_find?_eq_some found) (bne_iff_ne.mp other)
  refine .inr fun s' member' named' => ?_
  have same : s' = s :=
    List.inj_on_of_nodup_map (ensure_distinct module distinct) member' kept
      (named'.trans (beq_iff_eq.mp named).symm)
  rw [same]
  rfl

theorem expand_conservative (distinct : (flow.states.map StateDef.name).Nodup) :
    Conservative flow (expand_flow flow) := by
  have distinct' := ensure_distinct "" distinct
  have declared := ensure_declares flow ""
  rw [expand_flow, expand_eq_complete]
  refine ⟨?_, ensure_names flow "", fun s member other => ensure_kept "" member other, ?_,
    List.count_eq_one_of_mem distinct' declared, ?_, ?_, ?_⟩
  · rw [completed, ensure_header]
  · intro s member named
    obtain ⟨fault, fault', found, found', all⟩ := ensure_fault flow ""
    have there : withFault flow "" = flow :=
      if_pos (declared_iff.mpr (named ▸ List.mem_map_of_mem member))
    have same : findState flow "Fault" = some s := named ▸ find?_of_nodup distinct member
    obtain rfl : fault = s := by
      rw [there, same] at found
      exact (Option.some.inj found).symm
    exact ⟨fault', findState_mem found', all⟩
  · refine ⟨added pairOf (ensure_fault_state flow "").transitions
      (candidates (ensure_fault_state flow "") (flowShapes flow)), ?_, ?_, ?_, ?_⟩
    · rw [completed, complete, ensure_transitions]
    · intro t member
      have lacks := (mem_added.mp member).2
      rwa [ensure_transitions] at lacks
    · exact nodup_added (candidates_nodup distinct' _)
    · intro t member
      exact candidates_assign declared (ensure_shadowed flow "") (flowShapes_shaped "" distinct) t
        (mem_added.mp member).1
  · intro s member
    obtain ⟨t, candidate, same⟩ := peer_fault_covered (flowShapes flow) member
    exact same ▸ covered_complete candidate
  · intro s member other
    obtain ⟨root, first⟩ := root_isSome (ensure_kept "" member other) other
    obtain ⟨reset, recover⟩ := system_covered (flowShapes flow) first
    exact ⟨covered_complete reset, covered_complete recover⟩

/-- The second expansion finds everything there. -/
theorem expand_expand (flow : FlowDef) (shapes shapes' : Shapes) (module module' : String) :
    expand_flow_with_shapes (expand_flow_with_shapes flow shapes module) shapes' module' =
      expand_flow_with_shapes flow shapes module := by
  rw [expand_eq_complete flow shapes module, expand_eq_complete]
  have same : ensure_fault_state (completed (ensure_fault_state flow module)
      (candidates (ensure_fault_state flow module) shapes)) module' =
        completed (ensure_fault_state flow module)
          (candidates (ensure_fault_state flow module) shapes) :=
    ensure_eq_self (ensure_declares flow module) (ensure_shadowed flow module)
  rw [same]
  have covered : ∀ t ∈ candidates (ensure_fault_state flow module) shapes',
      pairOf t ∈ (complete pairOf (ensure_fault_state flow module).transitions
        (candidates (ensure_fault_state flow module) shapes)).map pairOf := by
    intro t member
    have key : pairOf t ∈ (candidates (ensure_fault_state flow module) shapes).map pairOf := by
      rw [candidates_keys _ shapes shapes']
      exact List.mem_map_of_mem member
    obtain ⟨t', member', same⟩ := List.mem_map.mp key
    exact same ▸ covered_complete member'
  exact congrArg (fun ts => { ensure_fault_state flow module with transitions := ts })
    (complete_of_covered covered)

/-- For distinct state names the expansion is conservative and complete, and the second expansion
changes nothing. -/
theorem expand_flow_conservative (flow : FlowDef)
    (distinct : (flow.states.map StateDef.name).Nodup) :
    Conservative flow (expand_flow flow) ∧ expand_flow (expand_flow flow) = expand_flow flow :=
  ⟨expand_conservative distinct, expand_expand flow _ _ "" ""⟩

/-- A flow with a pinned state, a state whose field survives a fault, and a transition. -/
def counterFlow : FlowDef where
  info := .synthetic .user
  name := "Counter"
  pub_ := false
  generics := []
  annotations := []
  states :=
    [{ info := .synthetic .user, name := "Zero"
       payload := some [{ info := .synthetic .user, name := "count", ty := .name "i32" [] }] },
     { info := .synthetic .user, name := "FFI_Pinned"
       payload := some [{ info := .synthetic .user, name := "count", ty := .name "i32" [] }] }]
  transitions :=
    [{ info := .synthetic .user, name := "peer_fault", from_state := "Zero", params := []
       to_states := ["Zero"], fails := none, body := none, is_fallback := false
       is_ffi_pinned := false }]
  persistent_fields := ["count"]
  fault_type := some (.name "string" [])

theorem expand_counterFlow : (counterFlow.states.map StateDef.name).Nodup ∧
    Conservative counterFlow (expand_flow counterFlow) ∧
      expand_flow (expand_flow counterFlow) = expand_flow counterFlow :=
  ⟨by decide, expand_flow_conservative counterFlow (by decide)⟩

end Mimi.Flow
