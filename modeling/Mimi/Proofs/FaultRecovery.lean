/-
Module: Mimi.Proofs.FaultRecovery
Purpose: What survives a peer fault and the recovery from it: the fault payload stays what the first
  fault made it exactly when no kept field of it names the faulting state, and recovery restores the
  persistent fields.
Trusted boundary: none
-/
import Mimi.Flow.Faulting
import Mimi.Proofs.FlowExpansion

namespace Mimi.Flow

open Mimi.Ast Mimi.Lib
open Mimi.Core (Span)

/-! ### Evaluation of injected expressions -/

variable {n : String}

section

variable {reads : String → Prop} {shaped : String → List String → Prop}
  {self self' : String → Option Value}

attribute [local simp] eval evalAll evalFields

theorem evalAll_map {f : Expr → Expr} {es : List Expr}
    (each : ∀ e ∈ es, eval self (f e) = eval self' e) :
    evalAll self (es.map f) = evalAll self' es := by
  induction es with
  | nil => rfl
  | cons e es ih =>
      rw [List.map_cons, evalAll, evalAll, each e List.mem_cons_self,
        ih fun e member => each e (List.mem_cons_of_mem _ member)]

theorem evalAll_isSome {es : List Expr} (each : ∀ e ∈ es, (eval self e).isSome = true) :
    (evalAll self es).isSome = true := by
  induction es with
  | nil => rfl
  | cons e es ih =>
      obtain ⟨value, first⟩ := Option.isSome_iff_exists.mp (each e List.mem_cons_self)
      obtain ⟨values, rest⟩ := Option.isSome_iff_exists.mp
        (ih fun e member => each e (List.mem_cons_of_mem _ member))
      rw [evalAll, first, rest]
      rfl

theorem evalFields_cons (f : RecordFieldExpr) (fields : List RecordFieldExpr) :
    evalFields self (f :: fields) =
      (eval self f.value).bind fun value => (evalFields self fields).map ((f.name, value) :: ·) := by
  obtain ⟨info, name, e⟩ := f
  rw [evalFields]

theorem evalFields_map {f : RecordFieldExpr → RecordFieldExpr} {fields : List RecordFieldExpr}
    (names : ∀ field ∈ fields, (f field).name = field.name)
    (each : ∀ field ∈ fields, eval self (f field).value = eval self' field.value) :
    evalFields self (fields.map f) = evalFields self' fields := by
  induction fields with
  | nil => rfl
  | cons field fields ih =>
      rw [List.map_cons, evalFields_cons, evalFields_cons, each field List.mem_cons_self,
        names field List.mem_cons_self,
        ih (fun g member => names g (List.mem_cons_of_mem _ member))
          fun g member => each g (List.mem_cons_of_mem _ member)]

theorem evalFields_isSome {fields : List RecordFieldExpr}
    (each : ∀ f ∈ fields, (eval self f.value).isSome = true) :
    (evalFields self fields).isSome = true := by
  induction fields with
  | nil => rfl
  | cons f fields ih =>
      obtain ⟨value, first⟩ := Option.isSome_iff_exists.mp (each f List.mem_cons_self)
      obtain ⟨values, rest⟩ := Option.isSome_iff_exists.mp
        (ih fun g member => each g (List.mem_cons_of_mem _ member))
      rw [evalFields_cons, first, rest]
      rfl

theorem eval_selfField {target : Expr} (root : target.unlocated = .ident "self") :
    eval self (.field target n) = self n := by
  rw [eval, root]
  exact if_pos rfl

theorem eval_call {callee : Expr} {args : List Expr} (name : callee.unlocated = .ident n) :
    eval self (.call callee args) = (evalAll self args).map (applyName n) := by
  rw [eval, name]

/-- New metadata does not change the value. -/
theorem eval_generated (origin : AstOrigin) (span : Span) {e : Expr} (built : Built reads shaped e) :
    eval self (generated_expr origin span e) = eval self e := by
  induction built with
  | located _ ih => rwa [generated_expr, eval]
  | selfField root _ =>
      rw [generated_expr, eval, eval_selfField root,
        eval_selfField (generated_expr_ident origin span root)]
  | call name _ ih =>
      rw [generated_expr, eval, eval_call name, eval_call (generated_expr_ident origin span name),
        generated_exprs_eq_map, evalAll_map ih]
  | tuple _ ih => rw [generated_expr, eval, eval, eval, generated_exprs_eq_map, evalAll_map ih]
  | list _ ih => rw [generated_expr, eval, eval, eval, generated_exprs_eq_map, evalAll_map ih]
  | setLiteral _ ih => rw [generated_expr, eval, eval, eval, generated_exprs_eq_map, evalAll_map ih]
  | record _ _ ih =>
      have values := evalFields_map
        (f := fun g => ⟨.inherited span origin, g.name, generated_expr origin span g.value⟩)
        (fun _ _ => rfl) ih
      rw [generated_expr, eval, generated_rest, generated_fields_eq_map, eval, eval, values]
  | _ => rfl

/-- The fields that an expression reads are enough to evaluate it. -/
theorem eval_isSome {e : Expr} (built : Built reads shaped e)
    (there : ∀ n, reads n → (self n).isSome = true) : (eval self e).isSome = true := by
  induction built with
  | located _ ih => rwa [eval]
  | selfField root allowed =>
      rw [eval_selfField root]
      exact there _ allowed
  | call name _ ih => rw [eval_call name, Option.isSome_map, evalAll_isSome ih]
  | tuple _ ih => rw [eval, Option.isSome_map, evalAll_isSome ih]
  | list _ ih => rw [eval, Option.isSome_map, evalAll_isSome ih]
  | setLiteral _ ih => rw [eval, Option.isSome_map, evalAll_isSome ih]
  | record _ _ ih => rw [eval, Option.isSome_map, evalFields_isSome ih]
  | _ => rfl

/-- An expression that reads no field has one value. -/
theorem eval_closed {e : Expr} (built : Built (fun _ => False) shaped e) :
    eval self e = eval self' e := by
  induction built with
  | located _ ih => rwa [eval, eval]
  | selfField _ allowed => exact allowed.elim
  | call name _ ih =>
      have args := evalAll_map (f := id) ih
      rw [List.map_id] at args
      rw [eval_call name, eval_call name, args]
  | @tuple items _ ih =>
      have values := evalAll_map (f := id) ih
      rw [List.map_id] at values
      rw [eval, eval, values]
  | @list items _ ih =>
      have values := evalAll_map (f := id) ih
      rw [List.map_id] at values
      rw [eval, eval, values]
  | @setLiteral items _ ih =>
      have values := evalAll_map (f := id) ih
      rw [List.map_id] at values
      rw [eval, eval, values]
  | record _ _ ih =>
      have values := evalFields_map (f := id) (fun _ _ => rfl) ih
      rw [List.map_id] at values
      rw [eval, eval, values]
  | _ => rfl

end

/-! ### The constructed state -/

variable {α : Type}

theorem lastOf_mem {nameOf : α → String} {fields : List α} {f : α}
    (last : lastOf nameOf fields n = some f) : f ∈ fields ∧ nameOf f = n := by
  have named := List.find?_some (p := fun f : α => nameOf f == n) last
  exact ⟨List.mem_reverse.mp (List.mem_of_find?_eq_some last), beq_iff_eq.mp named⟩

theorem lastOf_isSome {nameOf : α → String} {fields : List α} :
    (lastOf nameOf fields n).isSome = true ↔ n ∈ fields.map nameOf := by
  simp only [lastOf, List.find?_isSome, List.mem_reverse, beq_iff_eq, List.mem_map]

theorem lastOf_map {β : Type} {nameOf : β → String} {f : α → β} {fields : List α} :
    lastOf nameOf (fields.map f) n = (lastOf (nameOf ∘ f) fields n).map f := by
  rw [lastOf, ← List.map_reverse, List.find?_map]
  rfl

/-- Fields behind others count unless they lack the name. -/
theorem lastOf_append {nameOf : α → String} {fields more : List α} :
    lastOf nameOf (fields ++ more) n = (lastOf nameOf more n).or (lastOf nameOf fields n) := by
  rw [lastOf, List.reverse_append, List.find?_append]
  rfl

/-- The values of a generated literal. -/
theorem evalFields_literal {self : String → Option Value} {info : AstNodeMeta} {e : Field → Expr}
    {value : Field → Value} {fields : List Field}
    (each : ∀ f ∈ fields, eval self (e f) = some (value f)) :
    evalFields self (fields.map fun f => ⟨info, f.name, e f⟩) =
      some (fields.map fun f => (f.name, value f)) := by
  induction fields with
  | nil => rfl
  | cons f fields ih =>
      rw [List.map_cons, evalFields_cons, each f List.mem_cons_self,
        ih fun g member => each g (List.mem_cons_of_mem _ member)]
      rfl

/-- A generated body returns the target; the last value of a field name counts. -/
theorem run_return_record {flow : FlowDef} {target : String} {value : Field → Expr}
    {origin : AstOrigin} {reads : String → Prop} {shaped : String → List String → Prop}
    {self : String → Option Value}
    (built : ∀ f ∈ fieldsOf flow target, Built reads shaped (value f))
    (there : ∀ n, reads n → (self n).isSome = true) :
    ∃ state, runBody self (return_record flow target value origin) = some state ∧
      state.name = target ∧ ∀ n, state.payload n =
        (lastOf Field.name (fieldsOf flow target) n).bind fun f => eval self (value f) := by
  obtain ⟨stmtInfo, exprInfo, info, literal⟩ := return_record_eq flow target value origin
  let constant (f : Field) : Value := (eval self (value f)).getD .unit
  have each : ∀ f ∈ fieldsOf flow target, eval self (value f) = some (constant f) := by
    intro f member
    obtain ⟨v, same⟩ := Option.isSome_iff_exists.mp (eval_isSome (built f member) there)
    simp only [constant, same, Option.getD_some]
  have values : evalFields self ((fieldsOf flow target).map fun f =>
      ⟨info, f.name, generated_expr origin flow.info.span (value f)⟩) =
        some ((fieldsOf flow target).map fun f => (f.name, constant f)) :=
    evalFields_literal (e := fun f => generated_expr origin flow.info.span (value f)) fun f member =>
      (eval_generated origin flow.info.span (built f member)).trans (each f member)
  refine ⟨construct target ((fieldsOf flow target).map fun f => (f.name, constant f)), ?_, rfl, ?_⟩
  · rw [literal, runBody]
    simp only [Stmt.unlocated, Expr.unlocated, values, Option.map_some]
  · intro n
    have names : (Prod.fst ∘ fun f : Field => (f.name, constant f)) = Field.name := rfl
    simp only [construct, lastOf_map, names]
    cases last : lastOf Field.name (fieldsOf flow target) n with
    | none => rfl
    | some f => exact (each f (lastOf_mem last).1).symm

/-! ### The injected transitions are the ones taken -/

/-- The user handles neither a peer fault nor the recovery. -/
def VerbsInjected (flow : FlowDef) : Prop :=
  ∀ t ∈ flow.transitions, t.name ≠ "peer_fault" ∧ ¬ (t.name = "recover" ∧ t.from_state = "Fault")

variable {t : TransitionDef}

theorem fire_of_candidate {flow : FlowDef} {shapes : Shapes} {state : StateValue} {event : String}
    (lacks : (event, state.name) ∉ flow.transitions.map pairOf)
    (candidate : t ∈ candidates flow shapes) (key : pairOf t = (event, state.name))
    (only : ∀ t' ∈ candidates flow shapes, pairOf t' = (event, state.name) → t' = t) :
    fire (completed flow (candidates flow shapes)) event state =
      t.body.bind (runBody state.payload) := by
  have test : (fun t : TransitionDef => t.name == event && t.from_state == state.name) =
      fun t => decide (pairOf t = (event, state.name)) := by
    funext t
    rw [Bool.eq_iff_iff, Bool.and_eq_true, beq_iff_eq, beq_iff_eq, decide_eq_true_iff, pairOf,
      Prod.mk.injEq]
  have found : (candidates flow shapes).find?
      (fun t => decide (pairOf t = (event, state.name))) = some t := by
    obtain ⟨t', found⟩ := Option.isSome_iff_exists.mp
      (List.find?_isSome (p := fun t => decide (pairOf t = (event, state.name))).mpr
        ⟨t, candidate, decide_eq_true key⟩)
    have named := List.find?_some (p := fun t => decide (pairOf t = (event, state.name))) found
    rw [found, only t' (List.mem_of_find?_eq_some found) (of_decide_eq_true named)]
  rw [fire, test, completed, find?_complete lacks, found]

section

variable {flow : FlowDef} {shapes : Shapes} {module : String}

theorem peer_candidate_unique {g : FlowDef} {state : String}
    (member : t ∈ candidates g shapes) (key : pairOf t = ("peer_fault", state)) :
    t = peer_fault_transition g shapes state := by
  have named : t.name = "peer_fault" := congrArg Prod.fst key
  rcases List.mem_append.mp member with system | rest
  · rcases systemCandidates_name system with h | h
    · exact absurd (h.symm.trans named) (by decide)
    · exact absurd (h.symm.trans named) (by decide)
  · rcases List.mem_append.mp rest with peers | ffis
    · obtain ⟨state', -, rfl⟩ := List.mem_map.mp peers
      obtain rfl : state' = state := congrArg Prod.snd key
      rfl
    · rcases ffiCandidates_name ffis with h | h | h
      · exact absurd (h.symm.trans named) (by decide)
      · exact absurd (h.symm.trans named) (by decide)
      · exact absurd (h.symm.trans named) (by decide)

theorem recover_candidate_unique {g : FlowDef} {root : String}
    (first : root_state_name g = some root) (member : t ∈ candidates g shapes)
    (key : pairOf t = ("recover", "Fault")) : t = recover_transition g root shapes := by
  have named : t.name = "recover" := congrArg Prod.fst key
  rcases List.mem_append.mp member with system | rest
  · rw [systemCandidates, first] at system
    rcases List.mem_pair.mp system with rfl | rfl
    · have impossible : ("reset" : String) = "recover" := named
      exact absurd impossible (by decide)
    · rfl
  · rcases List.mem_append.mp rest with peers | ffis
    · exact absurd ((peerCandidates_name peers).symm.trans named) (by decide)
    · rcases ffiCandidates_name ffis with h | h | h
      · exact absurd (h.symm.trans named) (by decide)
      · exact absurd (h.symm.trans named) (by decide)
      · exact absurd (h.symm.trans named) (by decide)

/-- No literal is asked for anything here. -/
def anyShape (_ : String) (_ : List String) : Prop := True

theorem anyShape_system : ∀ n ∈ systemRecords, ∀ names, anyShape n names :=
  fun _ _ _ => trivial

theorem anyShape_known : ∀ n fields, shapes n = some fields → anyShape n (fields.map Field.name) :=
  fun _ _ _ => trivial

variable (shapes) (injected : VerbsInjected flow)

include injected

/-- A peer fault constructs the fault that the injected body describes. -/
theorem fire_peer_fault {state : StateValue}
    (inhabits : Inhabits (ensure_fault_state flow module) state) :
    ∃ fault, fire (expand_flow_with_shapes flow shapes module) "peer_fault" state = some fault ∧
      fault.name = "Fault" ∧ ∀ n, fault.payload n =
        (lastOf Field.name (fieldsOf (ensure_fault_state flow module) "Fault") n).bind fun f =>
          eval state.payload
            (fault_field_value (ensure_fault_state flow module) state.name "peer_fault" shapes f) := by
  have lacks : ("peer_fault", state.name) ∉ (ensure_fault_state flow module).transitions.map pairOf := by
    rw [ensure_transitions]
    intro there
    obtain ⟨t, member, key⟩ := List.mem_map.mp there
    exact (injected t member).1 (congrArg Prod.fst key)
  obtain ⟨s, member, named⟩ := List.mem_map.mp inhabits.declared
  obtain ⟨t, candidate, key⟩ := peer_fault_covered shapes member
  rw [named] at key
  obtain rfl := peer_candidate_unique candidate key
  rw [expand_eq_complete, fire_of_candidate lacks candidate key fun t' member' key' =>
    peer_candidate_unique member' key']
  exact run_return_record
    (fun f there => fault_field_value_built anyShape_system anyShape_known state.name "peer_fault" there)
    fun n there => by
      obtain ⟨f, member, rfl⟩ := List.mem_map.mp there
      exact inhabits.fields f member

/-- Recovery constructs the root that the injected body describes. -/
theorem fire_recover {root : String} {fault : StateValue}
    (first : root_state_name (ensure_fault_state flow module) = some root)
    (named : fault.name = "Fault") (inhabits : Inhabits (ensure_fault_state flow module) fault) :
    ∃ back, fire (expand_flow_with_shapes flow shapes module) "recover" fault = some back ∧
      back.name = root ∧ ∀ n, back.payload n =
        (lastOf Field.name (fieldsOf (ensure_fault_state flow module) root) n).bind fun f =>
          eval fault.payload
            (if !(ensure_fault_state flow module).persistent_fields.isEmpty &&
                (ensure_fault_state flow module).persistent_fields.contains f.name then selfField f.name
            else default_type_value f.ty shapes) := by
  have lacks : ("recover", fault.name) ∉ (ensure_fault_state flow module).transitions.map pairOf := by
    rw [ensure_transitions]
    intro there
    obtain ⟨t, member, key⟩ := List.mem_map.mp there
    exact (injected t member).2 ⟨congrArg Prod.fst key, (congrArg Prod.snd key).trans named⟩
  have key : pairOf (recover_transition (ensure_fault_state flow module) root shapes) =
      ("recover", fault.name) := by
    rw [named]
    rfl
  rw [expand_eq_complete, fire_of_candidate lacks (system_covered shapes first).2 key
    fun t' member' key' => recover_candidate_unique first member' (named ▸ key')]
  exact run_return_record
    (fun f _ => rebuild_field_built anyShape_system anyShape_known (ensure_shadowed flow module) _ f)
    fun n there => by
      obtain ⟨f, member, rfl⟩ := List.mem_map.mp there
      exact inhabits.fields f (named ▸ member)

end

/-! ### The fields of the fault -/

/-- The fields that a fault in the fault state keeps. -/
def traceFields : List String := ["trace", "last_state", "unexpected_event", "snapshot"]

/-- What a peer fault in a state reports. -/
def peerSnapshot (state : String) : String := "undefined transition " ++ "peer_fault" ++ "(" ++ state ++ ")"

/-- The default of a field of the fault, for a peer fault in a state. -/
def faultDefault (shapes : Shapes) (state : String) (f : Field) : Expr :=
  default_field_value f.name f.ty state "peer_fault" (peerSnapshot state) shapes

theorem faultDefault_built (shapes : Shapes) (state : String) (f : Field) :
    Built (fun _ => False) anyShape (faultDefault shapes state f) :=
  default_field_value_built anyShape_system anyShape_known _ _ _ _ _

section

variable {flow : FlowDef} {shapes : Shapes} {self : String → Option Value} {state : String} {f : Field}

theorem fault_field_of_persistent (persistent : f.name ∈ flow.persistent_fields)
    (there : f.name ∈ (fieldsOf flow state).map Field.name) :
    eval self (fault_field_value flow state "peer_fault" shapes f) = self f.name := by
  have kept : (flow.persistent_fields.contains f.name &&
      ((fieldsOf flow state).map Field.name).contains f.name) = true :=
    Bool.and_eq_true_iff.mpr ⟨List.contains_iff_mem.mpr persistent, List.contains_iff_mem.mpr there⟩
  simp only [fault_field_value, kept, if_true]
  exact eval_selfField rfl

theorem fault_field_of_trace (traced : f.name ∈ traceFields) :
    eval self (fault_field_value flow "Fault" "peer_fault" shapes f) = self f.name := by
  have kept : (("Fault" : String) == "Fault" &&
      ["trace", "last_state", "unexpected_event", "snapshot"].contains f.name) = true :=
    Bool.and_eq_true_iff.mpr ⟨beq_self_eq_true _, List.contains_iff_mem.mpr traced⟩
  simp only [fault_field_value, kept, if_true]
  split_ifs <;> exact eval_selfField rfl

theorem fault_field_of_default
    (fresh : ¬ (f.name ∈ flow.persistent_fields ∧ f.name ∈ (fieldsOf flow state).map Field.name))
    (first : ¬ (state = "Fault" ∧ f.name ∈ traceFields)) :
    eval self (fault_field_value flow state "peer_fault" shapes f) =
      eval self (faultDefault shapes state f) := by
  have not_kept : ¬ (flow.persistent_fields.contains f.name &&
      ((fieldsOf flow state).map Field.name).contains f.name) = true := by
    rwa [Bool.and_eq_true_iff, List.contains_iff_mem, List.contains_iff_mem]
  have not_traced : ¬ (state == "Fault" &&
      ["trace", "last_state", "unexpected_event", "snapshot"].contains f.name) = true := by
    rwa [Bool.and_eq_true_iff, List.contains_iff_mem, beq_iff_eq]
  rw [fault_field_value, if_neg not_kept, if_neg not_traced]
  rfl

end

/-- The default of the field names the faulting state. -/
def NamesState (f : Field) : Prop :=
  f.name = "last_state_name" ∨ (f.name = "panic_payload" ∧ namedSuch (· == "PanicPayload") f.ty = true)

/-- A default that does not name the state is the same for every state. -/
theorem faultDefault_same {shapes : Shapes} {state state' : String} {f : Field}
    (untraced : f.name ∉ traceFields) (anonymous : ¬ NamesState f) :
    faultDefault shapes state f = faultDefault shapes state' f := by
  simp only [traceFields, List.mem_cons, List.not_mem_nil, or_false, not_or] at untraced
  obtain ⟨trace, last_state, event, snapshot⟩ := untraced
  obtain ⟨last_state_name, payload⟩ := not_or.mp anonymous
  simp only [faultDefault, default_field_value, last_state, last_state_name, event, snapshot, trace,
    payload, or_self, if_false]

theorem between_injective {before after s s' : String} (same : before ++ s ++ after = before ++ s' ++ after) :
    s = s' := by
  have texts := congrArg String.toList same
  rw [String.toList_append, String.toList_append, String.toList_append, String.toList_append] at texts
  exact String.toList_inj.mp (List.append_cancel_left (List.append_cancel_right texts))

theorem peerSnapshot_injective {state state' : String} (same : peerSnapshot state = peerSnapshot state') :
    state = state' :=
  between_injective same

theorem applyName_fault (same : applyName n [] = applyName "Fault" []) : n = "Fault" := by
  have fault : applyName "Fault" [] = .variant_ "Fault" [] := if_neg (by decide)
  rw [fault, applyName] at same
  split_ifs at same
  · exact (Value.variant_.inj same).1

theorem eval_panic_payload (self : String → Option Value) (event snapshot : String) :
    eval self (panic_payload_expr event snapshot) = some (.record "PanicPayload"
      [("error_type", .string event), ("file", .string ""), ("line", .int 0),
        ("stack", .string snapshot)]) :=
  rfl

theorem faultDefault_last_state_name {shapes : Shapes} {f : Field} (named : f.name = "last_state_name")
    (state : String) : faultDefault shapes state f =
      if namedSuch (endsWith · "::StateId") f.ty then .call (.ident state) []
      else .literal (.string state) := by
  rw [faultDefault, default_field_value, if_pos (.inr named)]

theorem faultDefault_panic_payload {shapes : Shapes} {f : Field} (named : f.name = "panic_payload")
    (typed : namedSuch (· == "PanicPayload") f.ty = true) (state : String) :
    faultDefault shapes state f = panic_payload_expr "peer_fault" (peerSnapshot state) := by
  rw [faultDefault, named, default_field_value, if_neg (by decide), if_neg (by decide),
    if_neg (by decide), if_neg (by decide), if_neg, if_pos ⟨rfl, typed⟩]
  exact fun dump => absurd dump.1 (by decide)

/-- A default that names the state differs between states. -/
theorem faultDefault_differ {shapes : Shapes} {state : String} {f : Field}
    {self self' : String → Option Value} (names : NamesState f) (other : state ≠ "Fault") :
    eval self (faultDefault shapes state f) ≠ eval self' (faultDefault shapes "Fault" f) := by
  intro same
  refine other ?_
  rcases names with named | ⟨named, typed⟩
  · rw [faultDefault_last_state_name named, faultDefault_last_state_name named] at same
    split_ifs at same
    · rw [eval_call rfl, eval_call rfl] at same
      exact applyName_fault (Option.some.inj same)
    · exact Value.string.inj (Option.some.inj same)
  · rw [faultDefault_panic_payload named typed, faultDefault_panic_payload named typed,
      eval_panic_payload, eval_panic_payload] at same
    have texts := (Value.record.inj (Option.some.inj same)).2
    simp only [List.cons.injEq, Prod.mk.injEq, Value.string.injEq, true_and, and_true] at texts
    exact peerSnapshot_injective texts

/-! ### Stability of the fault -/

/-- No kept field of a fault that the user declares names the faulting state. -/
def FaultStable (flow : FlowDef) : Prop :=
  ∀ n f, lastOf Field.name (fieldsOf flow "Fault") n = some f → n ∉ flow.persistent_fields →
    ¬ NamesState f

theorem fires_of_fixed {flow : FlowDef} {event : String} {state : StateValue}
    (fixed : fire flow event state = some state) (n : Nat) : fires flow event n state = some state := by
  induction n with
  | zero => rfl
  | succ n ih => rw [fires, fixed, Option.bind_some, ih]

theorem lastOf_fault {flow : FlowDef} {module : String} (fresh : n ∉ flow.persistent_fields) :
    lastOf Field.name (fieldsOf (ensure_fault_state flow module) "Fault") n =
      lastOf Field.name (fieldsOf (withFault flow module) "Fault") n := by
  obtain ⟨fault, fault', found, found', all⟩ := ensure_fault flow module
  obtain ⟨shadows, more, fromNames⟩ := all.fields
  have nothing : lastOf Field.name shadows n = none := by
    rw [← Option.not_isSome_iff_eq_none, lastOf_isSome]
    intro there
    obtain ⟨f, member, named⟩ := List.mem_map.mp there
    exact fresh (named ▸ fromNames f member)
  rw [fieldsOf_found found, fieldsOf_found found', more, lastOf_append, nothing, Option.none_or]

/-- The generated Fault state has no field that names the faulting state. -/
theorem generatedFault_anonymous {flow : FlowDef} {module : String} {f : Field}
    (member : f ∈ (generatedFault flow module).fields) : ¬ NamesState f := by
  have named : f.name ∈ ["last_state", "unexpected_event", "snapshot", "trace", "error"] := by
    rcases List.mem_append.mp member with known | typed
    · simp only [List.mem_cons, List.not_mem_nil, or_false] at known
      rcases known with rfl | rfl | rfl | rfl <;> simp
    · obtain ⟨ty, -, rfl⟩ := List.mem_map.mp typed
      simp
  rintro (last_state_name | ⟨panic_payload, -⟩)
  · rw [last_state_name] at named
    exact absurd named (by decide)
  · rw [panic_payload] at named
    exact absurd named (by decide)

/-- The Fault state and the shadows that the expansion adds name no state. -/
theorem faultStable_ensure {flow : FlowDef} (module : String) :
    FaultStable (ensure_fault_state flow module) ↔ FaultStable flow := by
  have same : ∀ n f, n ∉ flow.persistent_fields → NamesState f →
      (lastOf Field.name (fieldsOf (ensure_fault_state flow module) "Fault") n = some f ↔
        lastOf Field.name (fieldsOf flow "Fault") n = some f) := by
    intro n f fresh names
    rw [lastOf_fault fresh]
    by_cases declared : flow.states.any (fun s => s.name == "Fault") = true
    · rw [show withFault flow module = flow from if_pos declared]
    · have added : withFault flow module =
          { flow with states := flow.states ++ [generatedFault flow module] } := if_neg declared
      have missing : findState flow "Fault" = none := by
        rw [findState, List.find?_eq_none]
        intro s member named
        exact declared (List.any_eq_true.mpr ⟨s, member, named⟩)
      have found : findState (withFault flow module) "Fault" = some (generatedFault flow module) := by
        rw [added, findState, List.find?_append]
        rw [findState] at missing
        rw [missing]
        rfl
      have none_there : fieldsOf flow "Fault" = [] := by
        rw [fieldsOf, missing]
        rfl
      rw [fieldsOf_found found, none_there]
      exact iff_of_false (fun last => generatedFault_anonymous (lastOf_mem last).1 names)
        fun last => by cases last
  rw [FaultStable, FaultStable, ensure_persistent]
  exact ⟨fun stable n f last fresh names => stable n f ((same n f fresh names).mpr last) fresh names,
    fun stable n f last fresh names => stable n f ((same n f fresh names).mp last) fresh names⟩

theorem NamesState.untraced {f : Field} (names : NamesState f) : f.name ∉ traceFields := by
  rcases names with named | ⟨named, -⟩ <;> rw [named] <;> decide

section

variable {flow : FlowDef} {shapes : Shapes} {module : String} (injected : VerbsInjected flow)

include injected

theorem fault_inhabits {state fault : StateValue}
    (inhabits : Inhabits (ensure_fault_state flow module) state)
    (first : fire (expand_flow_with_shapes flow shapes module) "peer_fault" state = some fault) :
    fault.name = "Fault" ∧ Inhabits (ensure_fault_state flow module) fault := by
  obtain ⟨fault', first', named, payload⟩ := fire_peer_fault shapes injected inhabits
  obtain rfl := Option.some.inj (first.symm.trans first')
  refine ⟨named, named ▸ ensure_declares flow module, fun f member => ?_⟩
  rw [named] at member
  have there := lastOf_isSome.mpr (List.mem_map_of_mem (f := Field.name) member)
  obtain ⟨g, last⟩ := Option.isSome_iff_exists.mp there
  rw [payload, last, Option.bind_some]
  refine eval_isSome (fault_field_value_built anyShape_system anyShape_known state.name "peer_fault"
    (lastOf_mem last).1) fun n read => ?_
  obtain ⟨h, member', rfl⟩ := List.mem_map.mp read
  exact inhabits.fields h member'

/-- A second peer fault changes nothing exactly from the fault state itself and where no kept field
names the faulting state. -/
theorem fire_fault_again {state fault : StateValue}
    (inhabits : Inhabits (ensure_fault_state flow module) state)
    (first : fire (expand_flow_with_shapes flow shapes module) "peer_fault" state = some fault) :
    fire (expand_flow_with_shapes flow shapes module) "peer_fault" fault = some fault ↔
      state.name = "Fault" ∨ FaultStable (ensure_fault_state flow module) := by
  obtain ⟨named, inhabits'⟩ := fault_inhabits injected inhabits first
  obtain ⟨fault', first', -, payload⟩ := fire_peer_fault shapes injected inhabits
  obtain rfl := Option.some.inj (first.symm.trans first')
  obtain ⟨again, second, named', payload'⟩ := fire_peer_fault shapes injected inhabits'
  rw [named] at payload'
  -- the field by field comparison of the two faults
  have kept : ∀ n f, lastOf Field.name (fieldsOf (ensure_fault_state flow module) "Fault") n = some f →
      (n ∈ (ensure_fault_state flow module).persistent_fields ∨ n ∈ traceFields) →
        again.payload n = fault.payload n := by
    intro n f last why
    obtain ⟨member, rfl⟩ := lastOf_mem last
    rw [payload', last, Option.bind_some]
    rcases why with persistent | traced
    · exact fault_field_of_persistent persistent (List.mem_map_of_mem member)
    · exact fault_field_of_trace traced
  have fresh : ∀ n f, lastOf Field.name (fieldsOf (ensure_fault_state flow module) "Fault") n = some f →
      n ∉ (ensure_fault_state flow module).persistent_fields → n ∉ traceFields →
        fault.payload n = eval state.payload (faultDefault shapes state.name f) ∧
          again.payload n = eval fault.payload (faultDefault shapes "Fault" f) := by
    intro n f last not_persistent untraced
    obtain ⟨member, rfl⟩ := lastOf_mem last
    rw [payload, payload', last, Option.bind_some, Option.bind_some]
    exact ⟨fault_field_of_default (fun both => not_persistent both.1) fun both => untraced both.2,
      fault_field_of_default (fun both => not_persistent both.1) fun both => untraced both.2⟩
  rw [second]
  constructor
  · intro same
    obtain rfl := Option.some.inj same
    refine or_iff_not_imp_left.mpr fun other n f last not_persistent names => ?_
    obtain ⟨-, rfl⟩ := lastOf_mem last
    obtain ⟨before, after⟩ := fresh f.name f last not_persistent names.untraced
    exact faultDefault_differ names other (before.symm.trans after)
  · intro settled
    have payloads : again.payload = fault.payload := by
      funext n
      cases last : lastOf Field.name (fieldsOf (ensure_fault_state flow module) "Fault") n with
      | none => rw [payload, payload', last]; rfl
      | some f =>
          by_cases keeps : n ∈ (ensure_fault_state flow module).persistent_fields ∨ n ∈ traceFields
          · exact kept n f last keeps
          · obtain ⟨not_persistent, untraced⟩ := not_or.mp keeps
            obtain ⟨before, after⟩ := fresh n f last not_persistent untraced
            obtain ⟨-, rfl⟩ := lastOf_mem last
            rw [before, after]
            rcases settled with self_ | stable
            · rw [self_]
              exact eval_closed (faultDefault_built shapes "Fault" f)
            · rw [faultDefault_same untraced (stable f.name f last not_persistent)]
              exact eval_closed (faultDefault_built shapes state.name f)
    obtain ⟨fault_name, fault_payload⟩ := fault
    obtain ⟨again_name, again_payload⟩ := again
    simp only at named named' payloads
    rw [named, named', payloads]

/-- Recovery gives the persistent fields of the faulting state back. -/
theorem recover_restores {state fault : StateValue} {root : String}
    (inhabits : Inhabits (ensure_fault_state flow module) state)
    (first : fire (expand_flow_with_shapes flow shapes module) "peer_fault" state = some fault)
    (is_root : root_state_name (ensure_fault_state flow module) = some root) :
    ∃ back, fire (expand_flow_with_shapes flow shapes module) "recover" fault = some back ∧
      back.name = root ∧
      (∀ n, (back.payload n).isSome = true ↔
        n ∈ (fieldsOf (ensure_fault_state flow module) root).map Field.name) ∧
      ∀ p ∈ flow.persistent_fields,
        p ∈ (fieldsOf (ensure_fault_state flow module) state.name).map Field.name →
        p ∈ (fieldsOf (ensure_fault_state flow module) root).map Field.name →
          back.payload p = state.payload p := by
  obtain ⟨named, inhabits'⟩ := fault_inhabits injected inhabits first
  obtain ⟨fault', first', -, payload⟩ := fire_peer_fault shapes injected inhabits
  obtain rfl := Option.some.inj (first.symm.trans first')
  obtain ⟨back, recovers, back_named, restored⟩ := fire_recover shapes injected is_root named inhabits'
  refine ⟨back, recovers, back_named, fun n => ?_, ?_⟩
  · rw [← lastOf_isSome, restored]
    cases last : lastOf Field.name (fieldsOf (ensure_fault_state flow module) root) n with
    | none => rfl
    | some f =>
        have built := rebuild_field_built anyShape_system (@anyShape_known shapes)
          (ensure_shadowed flow module)
          (!(ensure_fault_state flow module).persistent_fields.isEmpty) f
        refine iff_of_true ?_ rfl
        rw [Option.bind_some]
        refine eval_isSome built fun m read => ?_
        obtain ⟨g, member, rfl⟩ := List.mem_map.mp read
        exact inhabits'.fields g (named ▸ member)
  · intro p persistent from_state to_root
    have persistent' : p ∈ (ensure_fault_state flow module).persistent_fields := by
      rwa [ensure_persistent]
    obtain ⟨f, last⟩ := Option.isSome_iff_exists.mp (lastOf_isSome.mpr to_root)
    obtain ⟨-, rfl⟩ := lastOf_mem last
    have there : f.name ∈ (fieldsOf (ensure_fault_state flow module) "Fault").map Field.name :=
      ensure_shadowed flow module f.name persistent'
    obtain ⟨g, last'⟩ := Option.isSome_iff_exists.mp (lastOf_isSome.mpr there)
    obtain ⟨-, same⟩ := lastOf_mem last'
    have keeps : (!(ensure_fault_state flow module).persistent_fields.isEmpty &&
        (ensure_fault_state flow module).persistent_fields.contains f.name) = true := by
      refine Bool.and_eq_true_iff.mpr ⟨?_, List.contains_iff_mem.mpr persistent'⟩
      rw [Bool.not_eq_true', List.isEmpty_eq_false_iff]
      exact List.ne_nil_of_mem persistent'
    calc back.payload f.name = fault.payload f.name := by
          rw [restored, last, Option.bind_some, if_pos keeps]
          exact eval_selfField rfl
      _ = state.payload f.name := by
          rw [payload, last', Option.bind_some,
            fault_field_of_persistent (same ▸ persistent') (same ▸ from_state), same]

end

/-! ### What survives a fault -/

/-- From every state, a peer fault leads to a fault that any number of further peer faults leave as it
is, and recovery from it leads to the root with the persistent fields that the faulting state and the
root declare as they were. -/
def KeepsThroughFault (flow expanded : FlowDef) : Prop :=
  ∀ state, Inhabits expanded state → ∃ fault, fire expanded "peer_fault" state = some fault ∧
    (∀ n, fires expanded "peer_fault" n fault = some fault) ∧
    ∀ root, root_state_name expanded = some root → ∃ back,
      fire expanded "recover" fault = some back ∧ back.name = root ∧
      (∀ n, (back.payload n).isSome = true ↔ n ∈ (fieldsOf expanded root).map Field.name) ∧
      ∀ p ∈ flow.persistent_fields, p ∈ (fieldsOf expanded state.name).map Field.name →
        p ∈ (fieldsOf expanded root).map Field.name → back.payload p = state.payload p

/-- Faults are kept exactly when there is no state but Fault or no kept field of the declared fault
names the faulting state. -/
theorem keeps_through_fault_iff (flow : FlowDef) (injected : VerbsInjected flow) :
    KeepsThroughFault flow (expand_flow flow) ↔
      (∀ s ∈ flow.states, s.name = "Fault") ∨ FaultStable flow := by
  have states : (expand_flow flow).states = (ensure_fault_state flow "").states := by
    rw [expand_flow, expand_eq_complete]
    rfl
  have fields : ∀ name, fieldsOf (expand_flow flow) name = fieldsOf (ensure_fault_state flow "") name := by
    intro name
    rw [fieldsOf, findState, states]
    rfl
  have root_same : root_state_name (expand_flow flow) = root_state_name (ensure_fault_state flow "") := by
    rw [root_state_name, states]
    rfl
  have inhabits_iff : ∀ state, Inhabits (expand_flow flow) state ↔
      Inhabits (ensure_fault_state flow "") state := by
    intro state
    constructor
    · intro inhabits
      exact ⟨states ▸ inhabits.declared, fields _ ▸ inhabits.fields⟩
    · intro inhabits
      exact ⟨states ▸ inhabits.declared, fields _ ▸ inhabits.fields⟩
  rw [← faultStable_ensure ""]
  constructor
  · intro keeps
    refine or_iff_not_imp_left.mpr fun not_all => ?_
    obtain ⟨s, not_fault⟩ := not_forall.mp not_all
    obtain ⟨member, other⟩ := Classical.not_imp.mp not_fault
    have inhabits : Inhabits (ensure_fault_state flow "") ⟨s.name, fun _ => some .unit⟩ :=
      ⟨List.mem_map_of_mem (ensure_kept "" member other), fun _ _ => rfl⟩
    obtain ⟨fault, first, again, -⟩ := keeps _ ((inhabits_iff _).mpr inhabits)
    obtain ⟨fault', once, same⟩ := Option.bind_eq_some_iff.mp (again 1)
    obtain rfl := Option.some.inj same
    rcases (fire_fault_again injected inhabits first).mp once with fault_state | stable
    · exact absurd fault_state other
    · exact stable
  · intro holds state inhabits
    have inhabits' := (inhabits_iff state).mp inhabits
    obtain ⟨fault, first, -, -⟩ := fire_peer_fault (flowShapes flow) injected inhabits'
    have settled : state.name = "Fault" ∨ FaultStable (ensure_fault_state flow "") := by
      refine holds.imp_left fun all => ?_
      have declared := inhabits'.declared
      rw [ensure_names] at declared
      rcases List.mem_append.mp declared with user | generated
      · obtain ⟨s, member, named⟩ := List.mem_map.mp user
        exact named ▸ all s member
      · split_ifs at generated
        · exact absurd generated List.not_mem_nil
        · exact List.mem_singleton.mp generated
    refine ⟨fault, first, fires_of_fixed ((fire_fault_again injected inhabits' first).mpr settled), ?_⟩
    intro root is_root
    obtain ⟨back, recovers, named, payload, restored⟩ :=
      recover_restores injected inhabits' first (root_same ▸ is_root)
    refine ⟨back, recovers, named, ?_, ?_⟩
    · rw [fields]
      exact payload
    · rw [fields, fields]
      exact restored

/-- A flow whose declared Fault state records the name of the last state. -/
def namedFaultFlow : FlowDef where
  info := .synthetic .user
  name := "Valve"
  pub_ := false
  generics := []
  annotations := []
  states :=
    [{ info := .synthetic .user, name := "Open", payload := none },
     { info := .synthetic .user, name := "Fault"
       payload := some
         [{ info := .synthetic .user, name := "last_state_name", ty := .name "string" [] }] }]
  transitions := []
  persistent_fields := []
  fault_type := none

theorem second_fault_renames : ∃ fault again,
    fire (expand_flow namedFaultFlow) "peer_fault" ⟨"Open", fun _ => none⟩ = some fault ∧
      fault.payload "last_state_name" = some (.string "Open") ∧
      fire (expand_flow namedFaultFlow) "peer_fault" fault = some again ∧
      again.payload "last_state_name" = some (.string "Fault") :=
  ⟨_, _, rfl, rfl, rfl, rfl⟩

/-- The second peer fault in a row replaces the name of the state that failed. -/
theorem named_fault_not_kept : VerbsInjected namedFaultFlow ∧
    ¬ KeepsThroughFault namedFaultFlow (expand_flow namedFaultFlow) := by
  refine ⟨fun t member => absurd member List.not_mem_nil, fun keeps => ?_⟩
  have inhabits : Inhabits (expand_flow namedFaultFlow) ⟨"Open", fun _ => none⟩ :=
    ⟨List.mem_cons_self, fun f member => absurd member List.not_mem_nil⟩
  obtain ⟨fault, first, stays, -⟩ := keeps _ inhabits
  obtain ⟨fault', again, first', is_open, second, is_fault⟩ := second_fault_renames
  obtain rfl := Option.some.inj (first.symm.trans first')
  obtain ⟨_, second', same⟩ := Option.bind_eq_some_iff.mp (stays 1)
  obtain rfl := Option.some.inj same
  obtain rfl := Option.some.inj (second.symm.trans second')
  exact absurd (Value.string.inj (Option.some.inj (is_open.symm.trans is_fault))) (by decide)

/-- A counter with a transition of its own, and a Fault state that is generated. -/
def stepFlow : FlowDef :=
  { counterFlow with transitions := counterFlow.transitions.map fun t => { t with name := "step" } }

theorem keeps_through_fault_counter :
    stepFlow.transitions ≠ [] ∧ KeepsThroughFault stepFlow (expand_flow stepFlow) := by
  have injected : VerbsInjected stepFlow := by
    unfold VerbsInjected
    decide
  exact ⟨nofun, (keeps_through_fault_iff stepFlow injected).mpr (.inr fun n f last => by cases last)⟩

end Mimi.Flow
