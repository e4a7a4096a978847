/-
Module: Mimi.Proofs.EdgeTransfer
Purpose: Control-flow edges transfer values in parallel: the code of a terminator reaches the edge that the
  terminator takes, and has the effect of the edge exactly when the edge is sound.
Trusted boundary: values have their types when the terminator is reached
-/
import Mimi.Proofs.DestructureCode

namespace Mimi.Bytecode

open Mimi.Core Mimi.Mir Mimi.Lib

/-- Only registers from a first one on differ. -/
structure Scratch (next : Reg) (frame frame' : Frame) : Prop where
  regs : ∀ r, r < next → frame'.regs r = frame.regs r
  released : frame'.released = frame.released

theorem Scratch.refl (next : Reg) (frame : Frame) : Scratch next frame frame := ⟨fun _ _ => rfl, rfl⟩

theorem Scratch.trans {next : Reg} {frame frame' frame'' : Frame} (first : Scratch next frame frame')
    (second : Scratch next frame' frame'') : Scratch next frame frame'' :=
  ⟨fun r low => (second.regs r low).trans (first.regs r low), second.released.trans first.released⟩

theorem scratch_set {next start : Reg} (room : next ≤ start) (frame : Frame) (value : Value) :
    Scratch next frame (frame.set start value) :=
  ⟨fun _ low => Function.update_of_ne (Nat.ne_of_lt (Nat.lt_of_lt_of_le low room)) _ _, rfl⟩

namespace Emitter

variable {emitter : Emitter} {next start : Reg} {edge : Edge} {block : MirBlock} {frame : Frame}
  {e : Emitted Unit}

theorem Scratch.valueIn_eq (assigned : Assigned emitter.registers next) {frame' : Frame}
    (scratch : Scratch next frame frame') (value : MirValueId) :
    emitter.valueIn frame' value = emitter.valueIn frame value := by
  unfold valueIn
  cases registered : emitter.registers value with
  | none => rfl
  | some r => exact congrArg some (scratch.regs r (assigned.below value r registered))

theorem TypedEdge.scratch (assigned : Assigned emitter.registers next) {frame' : Frame}
    (scratch : Scratch next frame frame') (typed : emitter.TypedEdge edge frame) :
    emitter.TypedEdge edge frame' where
  arguments argument member ty v known held :=
    typed.arguments argument member ty v known (Scratch.valueIn_eq assigned scratch argument ▸ held)
  scrutinee scrutinee same ty v known held :=
    typed.scrutinee scrutinee same ty v known (Scratch.valueIn_eq assigned scratch scrutinee ▸ held)

/-- Running the code jumps to the target of the edge with the effect of the edge, exactly when the edge is
sound. -/
def Implements (emitter : Emitter) (edge : Edge) (block : MirBlock) (code : List Op) (frame : Frame) : Prop :=
  (∃ frame', run code 0 frame = .jump edge.target frame' ∧ emitter.Transferred edge block frame frame') ↔
    emitter.EdgeSound edge block

/-- The code reaches the code of the edge, which ends in a jump. -/
theorem implements_of_reach (assigned : Assigned emitter.registers next) {code body rest : List Op}
    {frame₀ : Frame} (scratch : Scratch next frame frame₀)
    (reaches : run code 0 frame = run (body ++ .jmp edge.target :: rest) 0 frame₀)
    (carries : (∀ op ∈ body, op.straight = true) ∧ emitter.CarriesOut edge block body frame₀) :
    emitter.Implements edge block code frame := by
  have same : ∀ frame', emitter.Transferred edge block frame₀ frame' ↔
      emitter.Transferred edge block frame frame' :=
    fun frame' => Transferred.congr (Scratch.valueIn_eq assigned scratch) scratch.released
  obtain ⟨traps, runs⟩ := run_exec carries.1 (.jmp edge.target :: rest) frame₀
  refine Iff.trans ⟨fun jumps => ?_, fun executes => ?_⟩ carries.2
  · obtain ⟨frame', jump, transferred⟩ := jumps
    rw [reaches] at jump
    cases ran : exec body frame₀ with
    | error trap =>
        rw [traps trap ran] at jump
        cases jump
    | ok frame₁ =>
        rw [runs frame₁ ran, run] at jump
        injection jump with _ here
        exact ⟨frame₁, rfl, (same frame₁).mpr (here ▸ transferred)⟩
  · obtain ⟨frame', ran, transferred⟩ := executes
    refine ⟨frame', ?_, (same frame').mp transferred⟩
    rw [reaches, runs frame' ran, run]

theorem edgeTo_ok {target : MirBlockId} {arguments : Emit Unit} (h : edgeTo target arguments start = .ok e) :
    ∃ body, arguments start = .ok body ∧ e.code = body.code ++ [.jmp target] := by
  obtain ⟨a, first, b, last, rfl⟩ := Emit.bind_ok.mp h
  obtain rfl := emit_ok.mp last
  exact ⟨a, first, rfl⟩

/-- A conditional jump over code that does not fall through at its end only matters when it is taken. -/
theorem run_unless {condition : Reg} {body : Emit Unit} (h : emitUnless condition body start = .ok e)
    (rest : List Op) (frame : Frame) : ∃ b, body start = .ok b ∧ e.next = b.next ∧
      run (e.code ++ rest) 0 frame = if is_truthy (frame.regs condition) then run (b.code ++ rest) 0 frame
        else run rest 0 frame := by
  obtain ⟨b, emitted, sameNext, code⟩ := emitUnless_ok h
  refine ⟨b, emitted, sameNext, ?_⟩
  rw [code, List.cons_append, run]
  cases is_truthy (frame.regs condition) with
  | true => rfl
  | false => exact run_skip b.code rest frame

/-! ### Variant switches -/

section Variants

variable {consume : Bool} {ty : ResolvedTypeId} {register : Reg} {arms : List MirSwitchArm}
  {arm : MirSwitchArm}

/-- The code of the edge of an arm. -/
inductive ArmCode (emitter : Emitter) (consume : Bool) (ty : ResolvedTypeId) (register : Reg)
    (arm : MirSwitchArm) (start : Reg) (body : Emitted Unit) : Prop
  | variant (id : NodeId) (case_ : String × MirVariantDesc) (case_eq : arm.case = .variant id)
      (known : emitter.catalog.validated_variant_switch_case ty id = .ok case_)
      (emitted : (if consume then
          emitter.emit_variant_move_edge_arguments arm.target arm.arguments arm.bindings ty register case_.2
        else emitter.emit_variant_edge_arguments arm.target arm.arguments arm.bindings ty register case_.2)
        start = .ok body)
  | default (case_eq : arm.case = .default)
      (emitted : (emitter.emit_edge_arguments arm.target arm.arguments >>= fun _ =>
        if consume then emitter.emit_drop_variant register ty else pure ()) start = .ok body)

/-- The code of the edge of a variant rests on the table of shapes of the scrutinee. -/
theorem shapes_of_arm {variant : MirVariantDesc}
    (h : (if consume then
        emitter.emit_variant_move_edge_arguments arm.target arm.arguments arm.bindings ty register variant
      else emitter.emit_variant_edge_arguments arm.target arm.arguments arm.bindings ty register variant)
      start = .ok e) : ∃ shapes, Nonempty (ShapesOf emitter.catalog ty shapes) := by
  cases consume with
  | true =>
      rw [if_pos rfl] at h
      cases bindings : arm.bindings with
      | nil =>
          rw [bindings] at h
          obtain ⟨a, -, b, drop, rfl⟩ := Emit.bind_ok.mp h
          obtain ⟨shapes, -, table⟩ := emit_drop_variant_ok drop
          exact ⟨shapes, table⟩
      | cons binding rest =>
          rw [bindings] at h
          obtain ⟨a, target, b, -, rfl⟩ := Emit.bind_ok.mp h
          obtain ⟨block, found, -, -⟩ := edgeTarget_ok target
          have binds : (Edge.mk arm.target arm.arguments (binding :: rest) none true).bindings ≠ [] :=
            List.cons_ne_nil binding rest
          obtain ⟨shape⟩ := emit_variant_move_edge_arguments_ok binds h found
          exact ⟨shape.shapes, ⟨shape.table⟩⟩
  | false =>
      rw [if_neg Bool.false_ne_true] at h
      obtain ⟨a, -, b, afterTarget, rfl⟩ := Emit.bind_ok.mp h
      obtain ⟨c, shaped, d, -, rfl⟩ := Emit.bind_ok.mp afterTarget
      obtain ⟨shapes, -, table⟩ := shape_table_ok shaped
      exact ⟨shapes, table⟩

/-- The case of a variant arm agrees with the test of its tag. -/
theorem caseMatches_variant {id : NodeId} {case_ : String × MirVariantDesc} {shapes : List VariantShape}
    {value : Value} (table : ShapesOf emitter.catalog ty shapes)
    (known : emitter.catalog.validated_variant_switch_case ty id = .ok case_)
    (typed : HasType emitter.catalog value ty) :
    emitter.caseMatches ty value (.variant id) = hasTag case_.2.name value := by
  obtain ⟨variant⟩ := typed.variant_inv table.layout
  obtain ⟨variants, layout, declared, id_eq⟩ := switch_case_ok known
  have same : table.variants = variants :=
    (Prod.mk.inj (Option.some.inj (table.layout.symm.trans layout))).2
  rw [hasTag_typed table variant (same ▸ declared), id_eq, caseMatches, variantOf_typed table variant]
  rfl

theorem variantArms_run (room : next ≤ start) (low : register < next)
    (h : emitter.variantArms consume ty register arms start = .ok e)
    (typed : HasType emitter.catalog (frame.regs register) ty)
    (found : (arms.find? fun arm => emitter.caseMatches ty (frame.regs register) arm.case) = some arm)
    (tail : List Op) :
    ∃ armStart body frame₀ rest, next ≤ armStart ∧
      emitter.ArmCode consume ty register arm armStart body ∧ Scratch next frame frame₀ ∧
      run (e.code ++ tail) 0 frame = run (body.code ++ .jmp arm.target :: rest) 0 frame₀ := by
  induction arms generalizing start frame e with
  | nil => cases found
  | cons first arms ih =>
      rw [variantArms] at h
      cases case_eq : first.case with
      | literal literal =>
          rw [case_eq] at h
          cases h
      | default =>
          rw [case_eq] at h
          obtain ⟨a, edgeCode, b, others, rfl⟩ := Emit.bind_ok.mp h
          obtain ⟨body, emitted, code⟩ := edgeTo_ok edgeCode
          rw [List.find?_cons_of_pos (by rw [case_eq]; rfl)] at found
          obtain rfl := Option.some.inj found
          refine ⟨start, body, frame, b.code ++ tail, room, .default case_eq emitted, Scratch.refl _ _, ?_⟩
          dsimp only
          rw [code, List.append_assoc, List.append_assoc]
          rfl
      | variant id =>
          rw [case_eq] at h
          obtain ⟨a, lookup, b, afterCase, rfl⟩ := Emit.bind_ok.mp h
          obtain ⟨case_, known, rfl⟩ := lift_ok.mp lookup
          obtain ⟨c, alloc, d, afterAlloc, rfl⟩ := Emit.bind_ok.mp afterCase
          obtain rfl := alloc_reg_ok alloc
          obtain ⟨f, test, g, afterTest, rfl⟩ := Emit.bind_ok.mp afterAlloc
          obtain rfl := emit_ok.mp test
          obtain ⟨k, guarded, l, others, rfl⟩ := Emit.bind_ok.mp afterTest
          dsimp only at guarded others ⊢
          have scratch := scratch_set room frame (.bool (hasTag case_.2.name (frame.regs register)))
          have tests : run ([Op.isVariant start register case_.2.name] ++ (k.code ++ (l.code ++ tail))) 0 frame =
              run (k.code ++ (l.code ++ tail)) 0
                (frame.set start (.bool (hasTag case_.2.name (frame.regs register)))) :=
            (run_step rfl (k.code ++ (l.code ++ tail)) frame).2 _ rfl
          obtain ⟨inner, edgeCode, sameNext, jumps⟩ := run_unless guarded (l.code ++ tail)
            (frame.set start (.bool (hasTag case_.2.name (frame.regs register))))
          obtain ⟨body, emitted, code⟩ := edgeTo_ok edgeCode
          obtain ⟨shapes, ⟨table⟩⟩ := shapes_of_arm emitted
          have condition : (frame.set start (.bool (hasTag case_.2.name (frame.regs register)))).regs start =
              .bool (hasTag case_.2.name (frame.regs register)) := Function.update_self _ _ _
          have flat : ([] ++ ([] ++ ([Op.isVariant start register case_.2.name] ++ (k.code ++ l.code)))) ++
              tail = [Op.isVariant start register case_.2.name] ++ (k.code ++ (l.code ++ tail)) := by
            simp only [List.nil_append, List.append_assoc]
          rw [flat, tests, jumps, condition]
          have agrees := caseMatches_variant table known typed
          cases tag : hasTag case_.2.name (frame.regs register) with
          | true =>
              rw [tag] at agrees scratch
              rw [List.find?_cons_of_pos (by rw [case_eq]; exact agrees)] at found
              obtain rfl := Option.some.inj found
              refine ⟨start + 1, body, _, l.code ++ tail, Nat.le_succ_of_le room,
                .variant id case_ case_eq known emitted, scratch, ?_⟩
              rw [is_truthy, if_pos rfl, code]
              simp only [List.append_assoc, List.singleton_append]
          | false =>
              rw [tag] at agrees scratch
              rw [List.find?_cons_of_neg (by rw [case_eq, agrees]; exact Bool.false_ne_true)] at found
              have grows : start ≤ k.next := by
                have body_grows : start + 1 ≤ inner.next := by
                  refine Grows.bind ?_ (fun _ => Grows.emit _) _ _ edgeCode
                  exact Grows.ite (Grows.emit_variant_move_edge_arguments _ _ _ _ _ _ _)
                    (Grows.emit_variant_edge_arguments _ _ _ _ _ _ _)
                rw [sameNext]
                exact Nat.le_of_succ_le body_grows
              have sameValue : (frame.set start (.bool false)).regs register = frame.regs register :=
                scratch.regs register low
              obtain ⟨armStart, body', frame₀, rest, room', armCode, scratch', reaches⟩ :=
                ih (Nat.le_trans room grows) others
                  (by rw [sameValue]; exact typed) (by rw [sameValue]; exact found)
              refine ⟨armStart, body', frame₀, rest, room', armCode, scratch.trans scratch', ?_⟩
              rw [is_truthy, if_neg Bool.false_ne_true]
              exact reaches

end Variants

/-! ### Literal switches -/

section Literals

variable {register : Reg} {arms all : List MirSwitchArm} {arm : MirSwitchArm} {abi : MirAbiClass}

/-- The scalar that a literal switch looks at. -/
structure ScalarValue (abi : MirAbiClass) (value : Value) : Prop where
  bool : abi = .bool → ∃ b, value = .bool b
  int : ∀ bits signed, abi = .integer bits signed → ∃ n, value = .int n

theorem switchBits_some {bits : Nat} (h : MirTypeCatalog.switchBits abi = some bits) :
    ∃ signed, abi = .integer bits signed := by
  unfold MirTypeCatalog.switchBits at h
  cases abi with
  | integer bits' signed =>
      dsimp only at h
      by_cases allowed : (bits' = 32 ∨ bits' = 64) ∧ signed = true
      · rw [if_pos allowed] at h
        exact ⟨signed, congrArg (MirAbiClass.integer · signed) (Option.some.inj h)⟩
      · rw [if_neg allowed] at h
        cases h
  | _ => cases h

theorem run_two {first second : Op} (straight : first.straight = true) (straight' : second.straight = true)
    {frame' frame'' : Frame} (h : step first frame = .ok frame') (h' : step second frame' = .ok frame'')
    (tail : List Op) : run ([first, second] ++ tail) 0 frame = run tail 0 frame'' :=
  ((run_step straight (second :: tail) frame).2 frame' h).trans ((run_step straight' tail frame').2 frame'' h')

/-- The test of a literal leaves in its register whether the scrutinee agrees. -/
theorem literalTest_run (room : next ≤ start) (low : register < next) {ty : ResolvedTypeId}
    {literal : Mir.ResolvedLiteral} {t : Emitted Reg} (h : literalTest register literal start = .ok t)
    (fits : MirTypeCatalog.validate_scalar_case abi literal = .ok ())
    (scalar : ScalarValue abi (frame.regs register)) :
    start ≤ t.next ∧ ∃ frame', Scratch next frame frame' ∧
      (∀ tail, run (t.code ++ tail) 0 frame = run tail 0 frame') ∧
      frame'.regs t.value = .bool (emitter.caseMatches ty (frame.regs register) (.literal literal)) := by
  have notConst : register ≠ start + 1 :=
    Nat.ne_of_lt (Nat.lt_succ_of_lt (Nat.lt_of_lt_of_le low room))
  have finish : ∀ constant : Value, Scratch next frame ((frame.set (start + 1) constant).set start
      (.bool (values_equal ((frame.set (start + 1) constant).regs register)
        ((frame.set (start + 1) constant).regs (start + 1))))) ∧
      ((frame.set (start + 1) constant).set start
        (.bool (values_equal ((frame.set (start + 1) constant).regs register)
          ((frame.set (start + 1) constant).regs (start + 1))))).regs start =
        .bool (values_equal (frame.regs register) constant) := by
    intro constant
    have first := scratch_set (Nat.le_succ_of_le room) frame constant
    refine ⟨first.trans (scratch_set room _ _), ?_⟩
    have same : (frame.set (start + 1) constant).regs register = frame.regs register :=
      Function.update_of_ne notConst _ _
    have here : (frame.set (start + 1) constant).regs (start + 1) = constant :=
      Function.update_self _ _ _
    rw [same, here]
    exact Function.update_self _ _ _
  unfold literalTest at h
  cases literal with
  | int n =>
      obtain ⟨a, alloc, b, afterFirst, rfl⟩ := Emit.bind_ok.mp h
      obtain rfl := alloc_reg_ok alloc
      obtain ⟨c, alloc', d, afterSecond, rfl⟩ := Emit.bind_ok.mp afterFirst
      obtain rfl := alloc_reg_ok alloc'
      obtain ⟨f, load, g, afterLoad, rfl⟩ := Emit.bind_ok.mp afterSecond
      obtain rfl := emit_ok.mp load
      obtain ⟨k, compare, l, last, rfl⟩ := Emit.bind_ok.mp afterLoad
      obtain rfl := emit_ok.mp compare
      obtain rfl := pure_ok.mp last
      obtain ⟨scratch, tested⟩ := finish (.int n)
      refine ⟨Nat.le_add_right start 2, _, scratch, fun tail => run_two rfl rfl rfl rfl tail, ?_⟩
      refine tested.trans ?_
      obtain ⟨bits, known, -⟩ := bind_eq_ok.mp fits
      obtain ⟨signed, isInteger⟩ := switchBits_some (orError_eq_ok.mp known)
      obtain ⟨m, held⟩ := scalar.int bits signed isInteger
      rw [held]
      rfl
  | bool b =>
      obtain ⟨a, alloc, b', afterFirst, rfl⟩ := Emit.bind_ok.mp h
      obtain rfl := alloc_reg_ok alloc
      obtain ⟨c, alloc', d, afterSecond, rfl⟩ := Emit.bind_ok.mp afterFirst
      obtain rfl := alloc_reg_ok alloc'
      obtain ⟨f, load, g, afterLoad, rfl⟩ := Emit.bind_ok.mp afterSecond
      obtain rfl := emit_ok.mp load
      obtain ⟨k, compare, l, last, rfl⟩ := Emit.bind_ok.mp afterLoad
      obtain rfl := emit_ok.mp compare
      obtain rfl := pure_ok.mp last
      obtain ⟨scratch, tested⟩ := finish (.bool b)
      have loads : step (if b then .loadTrue (start + 1) else .loadFalse (start + 1)) frame =
          .ok (frame.set (start + 1) (.bool b)) := by
        cases b with
        | true => rfl
        | false => rfl
      have straight : (if b then Op.loadTrue (start + 1) else .loadFalse (start + 1)).straight = true := by
        cases b with
        | true => rfl
        | false => rfl
      refine ⟨Nat.le_add_right start 2, _, scratch, fun tail => run_two straight rfl loads rfl tail, ?_⟩
      refine tested.trans ?_
      have isBool := reject_eq_ok.mp fits
      rw [decide_eq_false_iff_not, not_not] at isBool
      obtain ⟨b', held⟩ := scalar.bool isBool
      rw [held]
      rfl
  | _ => cases h

theorem literalArms_run (room : next ≤ start) (low : register < next) {ty : ResolvedTypeId}
    (h : emitter.literalArms register all arms start = .ok e) {seen : List Mir.ResolvedLiteral}
    {has_default : Bool} {state : List Mir.ResolvedLiteral × Bool}
    (valid : MirTypeCatalog.validate_scalar_arms abi arms seen has_default = .ok state)
    (scalar : ScalarValue abi (frame.regs register))
    (found : (arms.find? fun arm => emitter.caseMatches ty (frame.regs register) arm.case) = some arm)
    (defaults : (all.find? fun arm => arm.case = .default) = arms.find? fun arm => arm.case = .default)
    (tail : List Op) :
    ∃ armStart body frame₀ rest, next ≤ armStart ∧ arm.bindings = [] ∧
      emitter.emit_edge_arguments arm.target arm.arguments armStart = .ok body ∧
      Scratch next frame frame₀ ∧
      run (e.code ++ tail) 0 frame = run (body.code ++ .jmp arm.target :: rest) 0 frame₀ := by
  induction arms generalizing start frame e seen has_default with
  | nil => cases found
  | cons first arms ih =>
      rw [literalArms] at h
      obtain ⟨unbound, valid⟩ := check_eq_ok.mp valid
      have noBindings : first.bindings = [] := by
        have filled := reject_eq_ok.mp unbound
        rw [Bool.not_eq_false'] at filled
        exact List.isEmpty_iff.mp filled
      cases case_eq : first.case with
      | variant id =>
          rw [case_eq] at valid
          cases valid
      | default =>
          rw [case_eq] at valid h
          obtain ⟨-, afterDefault⟩ := check_eq_ok.mp valid
          obtain ⟨last, -⟩ := check_eq_ok.mp afterDefault
          have noMore : arms = [] := by
            have filled := reject_eq_ok.mp last
            rw [Bool.not_eq_false'] at filled
            exact List.isEmpty_iff.mp filled
          subst noMore
          rw [List.find?_cons_of_pos (by rw [case_eq]; rfl)] at found
          obtain rfl := Option.some.inj found
          rw [List.find?_cons_of_pos (by rw [case_eq]; rfl)] at defaults
          dsimp only at h
          rw [literalArms, literalDefault, defaults] at h
          obtain ⟨body, emitted, code⟩ := edgeTo_ok h
          refine ⟨start, body, frame, tail, room, noBindings, emitted, Scratch.refl _ _, ?_⟩
          rw [code, List.append_assoc]
          rfl
      | literal literal =>
          rw [case_eq] at valid h
          obtain ⟨-, afterDefault⟩ := check_eq_ok.mp valid
          obtain ⟨fits, afterFits⟩ := check_eq_ok.mp afterDefault
          obtain ⟨-, others⟩ := check_eq_ok.mp afterFits
          have laterDefaults : (all.find? fun arm => arm.case = .default) =
              arms.find? fun arm => arm.case = .default := by
            rw [defaults, List.find?_cons_of_neg]
            rw [case_eq, decide_eq_true_eq]
            exact fun impossible => by cases impossible
          obtain ⟨t, test, u, afterTest, rfl⟩ := Emit.bind_ok.mp h
          obtain ⟨k, guarded, l, laterCode, rfl⟩ := Emit.bind_ok.mp afterTest
          obtain ⟨testGrows, frame₁, scratch, tests, condition⟩ :=
            literalTest_run room low test fits scalar
          obtain ⟨inner, edgeCode, sameNext, jumps⟩ := run_unless guarded (l.code ++ tail) frame₁
          obtain ⟨body, emitted, code⟩ := edgeTo_ok edgeCode
          have flat : (t.code ++ (k.code ++ l.code)) ++ tail = t.code ++ (k.code ++ (l.code ++ tail)) := by
            rw [List.append_assoc, List.append_assoc]
          dsimp only
          rw [flat, tests, jumps, condition, is_truthy]
          cases agrees : emitter.caseMatches ty (frame.regs register) (.literal literal) with
          | true =>
              rw [List.find?_cons_of_pos (by rw [case_eq]; exact agrees)] at found
              obtain rfl := Option.some.inj found
              refine ⟨t.next, body, frame₁, l.code ++ tail, Nat.le_trans room testGrows, noBindings, emitted,
                scratch, ?_⟩
              rw [if_pos rfl, code, List.append_assoc]
              rfl
          | false =>
              rw [List.find?_cons_of_neg (by rw [case_eq, agrees]; exact Bool.false_ne_true)] at found
              have grows : start ≤ k.next := by
                rw [sameNext]
                refine Nat.le_trans testGrows ?_
                exact Grows.bind (Grows.emit_edge_arguments _ _ _) (fun _ => Grows.emit _) _ _ edgeCode
              have sameValue : frame₁.regs register = frame.regs register := scratch.regs register low
              obtain ⟨armStart, body', frame₀, rest, room', bindings, emitted', scratch', reaches⟩ :=
                ih (Nat.le_trans room grows) laterCode others
                  (by rw [sameValue]; exact scalar) (by rw [sameValue]; exact found) laterDefaults
              refine ⟨armStart, body', frame₀, rest, room', bindings, emitted', scratch.trans scratch', ?_⟩
              rw [if_neg Bool.false_ne_true]
              exact reaches

end Literals

/-! ### Terminators -/

section Terminators

variable {function : MirFunction} {catalog : MirTypeCatalog} {registers : MirValueId → Option Reg}

variable {scrutinee : MirValueId}

/-- What a switch edge is made from. -/
theorem selectedArm_eq {arms : List MirSwitchArm} {arm : MirSwitchArm}
    (registered : emitter.registers scrutinee = some (emitter.regOf scrutinee)) {ty : ResolvedTypeId}
    (known : emitter.typeOf scrutinee = some ty) (h : emitter.selectedArm frame scrutinee arms = some arm) :
    (arms.find? fun arm => emitter.caseMatches ty (frame.regs (emitter.regOf scrutinee)) arm.case) =
      some arm := by
  unfold selectedArm at h
  rwa [known, Option.bind_some, valueIn_of_registered registered, Option.bind_some] at h

theorem agrees_of_valid (valid : emitter.function.check_arity edge.target edge.arguments edge.bindings = [])
    (found : emitter.function.blocks.find? edge.target = some block) : emitter.Agrees edge block :=
  fun _ _ _ passed received _ _ known known' =>
    MirFunction.check_arity_types valid found passed received known known'

/-- The code of the edge of a selected arm of a variant switch carries the edge out. -/
theorem armCode_carries (assigned : Assigned emitter.registers next) (room : next ≤ start)
    (declared : (block.parameters.map MirBlockParameter.value).Nodup)
    {ty : ResolvedTypeId} {consume : Bool} {arm : MirSwitchArm} {body : Emitted Unit}
    (code : emitter.ArmCode consume ty (emitter.regOf scrutinee) arm start body)
    (registered : emitter.registers scrutinee = some (emitter.regOf scrutinee))
    (known : emitter.typeOf scrutinee = some ty) (found : emitter.function.blocks.find? arm.target = some block)
    (checked : CheckedArm emitter.catalog ty consume arm) (owned : consume = true → emitter.movesType ty = true)
    (separate : consume = true → arm.bindings.Pairwise Separate)
    (agrees : emitter.Agrees (edgeOf scrutinee consume arm) block)
    (typed : emitter.TypedEdge (edgeOf scrutinee consume arm) frame)
    (selected : emitter.caseMatches ty (frame.regs (emitter.regOf scrutinee)) arm.case = true) :
    (∀ op ∈ body.code, op.straight = true) ∧
      emitter.CarriesOut (edgeOf scrutinee consume arm) block body.code frame := by
  have isScrutinee : emitter.Scrutinee (edgeOf scrutinee consume arm) scrutinee ty := ⟨rfl, registered, known⟩
  have hasType := typed.scrutinee scrutinee rfl ty _ known (valueIn_of_registered registered)
  cases code with
  | default case_eq emitted =>
      have unbound : arm.bindings = [] := by
        cases checked with
        | variant id other => cases case_eq.symm.trans other
        | default _ bindings => exact bindings
      cases consume with
      | true =>
          exact released_edge assigned room declared emitted found isScrutinee (owned rfl) unbound rfl agrees
            typed
      | false =>
          obtain ⟨a, first, b, last, rfl⟩ := Emit.bind_ok.mp emitted
          rw [if_neg Bool.false_ne_true] at last
          obtain rfl := pure_ok.mp last
          dsimp only
          rw [List.append_nil]
          exact plain_edge assigned room declared first found unbound rfl typed
  | variant id case_ case_eq caseKnown emitted =>
      obtain ⟨shapes, ⟨table⟩⟩ := shapes_of_arm emitted
      obtain ⟨value⟩ := hasType.variant_inv table.layout
      obtain ⟨variants, layout, declaredVariant, id_eq⟩ := switch_case_ok caseKnown
      have selectedVariant : variantOf emitter.catalog ty (frame.regs (emitter.regOf scrutinee)) =
          some case_.2 := by
        rw [variantOf_typed table value]
        rw [case_eq, caseMatches, variantOf_typed table value, Option.any_some, decide_eq_true_eq] at selected
        have sameFamily : table.variants = variants :=
          (Prod.mk.inj (Option.some.inj (table.layout.symm.trans layout))).2
        exact congrArg some (List.inj_on_of_nodup_map table.distinct.ids value.declared
          (sameFamily ▸ declaredVariant) (selected.trans id_eq.symm))
      have bindings : ∀ binding ∈ arm.bindings,
          emitter.catalog.validate_variant_switch_binding ty consume id binding = .ok () := by
        cases checked with
        | variant id' case_eq' bindings =>
            obtain rfl : id = id' := by injection case_eq.symm.trans case_eq'
            exact bindings
        | default other => cases case_eq.symm.trans other
      cases consume with
      | true =>
          rw [if_pos rfl] at emitted
          by_cases binds : arm.bindings = []
          · rw [binds] at emitted
            exact released_edge assigned room declared emitted found isScrutinee (owned rfl) binds rfl agrees
              typed
          · have sameCase : emitter.catalog.validated_variant_switch_case ty case_.2.id =
                .ok (case_.1, case_.2) := by
              rw [id_eq]
              exact caseKnown
            exact consuming_edge assigned room declared binds emitted
              found isScrutinee rfl sameCase (consuming_bindings caseKnown bindings) (separate rfl) typed
              selectedVariant
      | false =>
          rw [if_neg Bool.false_ne_true] at emitted
          exact reading_edge assigned room declared emitted found
            isScrutinee rfl (reading_bindings caseKnown bindings) typed selectedVariant

theorem scalarValue_of_typed {descriptor : MirTypeDesc} {value : Value} {ty : ResolvedTypeId}
    (typed : HasType catalog value ty) (get : catalog.get ty = some descriptor)
    (layout : descriptor.layout = .scalar) : ScalarValue descriptor.abi value := by
  have plain := typed.plain_inv get (by rw [layout]; rfl)
  exact ⟨plain.bool layout, plain.int layout⟩

/-- The code of a switch implements the edge of the selected arm. -/
theorem switch_implements (assigned : Assigned emitter.registers next) (room : next ≤ start)
    (declared : (block.parameters.map MirBlockParameter.value).Nodup)
    {arms : List MirSwitchArm} {consume : Bool} {arm : MirSwitchArm}
    (h : emitter.emit_switch scrutinee arms consume start = .ok e)
    (selected : emitter.selectedArm frame scrutinee arms = some arm)
    (found : emitter.function.blocks.find? arm.target = some block)
    (agrees : emitter.Agrees (edgeOf scrutinee consume arm) block)
    (typed : emitter.TypedEdge (edgeOf scrutinee consume arm) frame) :
    emitter.Implements (edgeOf scrutinee consume arm) block e.code frame := by
  obtain ⟨a, register, b, afterRegister, rfl⟩ := Emit.bind_ok.mp h
  obtain ⟨registered, rfl⟩ := reg_ok register
  obtain ⟨c, type, d, afterType, rfl⟩ := Emit.bind_ok.mp afterRegister
  obtain ⟨ty, known, rfl⟩ := valueType_ok type
  have low := regOf_lt assigned registered
  have hasType := typed.scrutinee scrutinee rfl ty _ known (valueIn_of_registered registered)
  have first := selectedArm_eq registered known selected
  have matches_ : emitter.caseMatches ty (frame.regs (emitter.regOf scrutinee)) arm.case = true :=
    (List.find?_some first :)
  dsimp only [List.nil_append] at afterType ⊢
  by_cases literals : (!consume && arms.any fun arm => arm.case.isLiteral) = true
  · rw [if_pos literals] at afterType
    obtain ⟨reads, -⟩ := Bool.and_eq_true_iff.mp literals
    obtain rfl : consume = false := by rwa [Bool.not_eq_true'] at reads
    obtain ⟨f, supported, g, afterSupported, rfl⟩ := Emit.bind_ok.mp afterType
    obtain ⟨_, -, rfl⟩ := lift_ok.mp supported
    obtain ⟨k, scalar, l, last, rfl⟩ := Emit.bind_ok.mp afterSupported
    obtain ⟨_, valid, rfl⟩ := lift_ok.mp scalar
    obtain ⟨descriptor, get, afterGet⟩ := bind_eq_ok.mp (mapError_eq_ok valid)
    obtain ⟨layout, afterLayout⟩ := check_eq_ok.mp afterGet
    obtain ⟨-, afterAbi⟩ := check_eq_ok.mp afterLayout
    obtain ⟨-, afterEmpty⟩ := check_eq_ok.mp afterAbi
    obtain ⟨state, armsValid, -⟩ := bind_eq_ok.mp afterEmpty
    have isScalar := reject_eq_ok.mp layout
    rw [decide_eq_false_iff_not, not_not] at isScalar
    obtain ⟨armStart, body, frame₀, rest, room', unbound, emitted, scratch, reaches⟩ :=
      literalArms_run room low last armsValid
        (scalarValue_of_typed hasType (orError_eq_ok.mp get) isScalar) first rfl []
    dsimp only [List.nil_append] at reaches ⊢
    rw [List.append_nil] at reaches
    exact implements_of_reach assigned scratch reaches
      (plain_edge assigned room' declared emitted found unbound rfl (typed.scratch assigned scratch))
  · rw [if_neg literals] at afterType
    obtain ⟨f, layout, g, afterLayout, rfl⟩ := Emit.bind_ok.mp afterType
    obtain ⟨family, isFamily, rfl⟩ := lift_ok.mp layout
    have hasLayout := orError_eq_ok.mp isFamily
    obtain ⟨k, supported, l, afterSupported, rfl⟩ := Emit.bind_ok.mp afterLayout
    obtain ⟨_, -, rfl⟩ := lift_ok.mp supported
    obtain ⟨m, contract, o, afterContract, rfl⟩ := Emit.bind_ok.mp afterSupported
    obtain ⟨_, valid, rfl⟩ := lift_ok.mp contract
    have holds := mapError_eq_ok valid
    dsimp only [List.nil_append] at afterContract ⊢
    by_cases none_ : arms.isEmpty = true
    · rw [if_pos none_] at afterContract
      cases afterContract
    · rw [if_neg none_] at afterContract
      obtain ⟨armStart, body, frame₀, rest, room', code, scratch, reaches⟩ :=
        variantArms_run room low afterContract hasType first []
      rw [List.append_nil] at reaches
      have member := List.mem_of_find?_eq_some first
      have sameValue : frame₀.regs (emitter.regOf scrutinee) = frame.regs (emitter.regOf scrutinee) :=
        scratch.regs _ low
      have facts : CheckedArm emitter.catalog ty consume arm ∧
          (consume = true → emitter.movesType ty = true) ∧
          (consume = true → arm.bindings.Pairwise Separate) := by
        cases consume with
        | true =>
            rw [if_pos rfl] at holds
            obtain ⟨⟨descriptor, get, owned⟩, consuming⟩ := consuming_arms hasLayout holds
            obtain ⟨checked, separate⟩ := consuming arm member
            refine ⟨checked, fun _ => ?_, fun _ => ?_⟩
            · unfold movesType
              rw [get, Option.any_some]
              exact decide_eq_true owned
            · cases code with
              | variant id case_ case_eq caseKnown => exact separate id case_eq case_ caseKnown
              | default case_eq =>
                  cases checked with
                  | variant id other => cases case_eq.symm.trans other
                  | default _ bindings =>
                      rw [bindings]
                      exact List.Pairwise.nil
        | false =>
            rw [if_neg Bool.false_ne_true] at holds
            exact ⟨reading_arms hasLayout holds arm member, fun impossible => (by cases impossible),
              fun impossible => (by cases impossible)⟩
      obtain ⟨checked, owned, separate⟩ := facts
      exact implements_of_reach assigned scratch reaches
        (armCode_carries assigned room' declared code registered known found checked owned separate agrees
          (typed.scratch assigned scratch) (by rw [sameValue]; exact matches_))

/-- The code of a terminator implements the edge that the terminator takes, for a function whose edges are
valid. -/
theorem terminator_implements (assigned : Assigned emitter.registers next) (room : next ≤ start)
    (valid : emitter.function.edgeErrors = []) {id : MirBlockId} {source : MirBlock}
    (placed : emitter.function.blocks.find? id = some source) {validate_trap_code : String → Except String Unit}
    (h : emitter.emit_terminator validate_trap_code source.terminator start = .ok e)
    (selected : emitter.selectedEdge frame source.terminator = some edge)
    (found : emitter.function.blocks.find? edge.target = some block)
    (typed : emitter.TypedEdge edge frame) : emitter.Implements edge block e.code frame := by
  have declared := MirFunction.parameters_nodup valid found
  have edges := MirFunction.terminator_edges valid placed
  cases terminator : source.terminator with
  | goto edgeId target arguments =>
      rw [terminator] at h selected
      obtain rfl := Option.some.inj selected
      obtain ⟨body, emitted, code⟩ := edgeTo_ok h
      exact implements_of_reach assigned (Scratch.refl _ _) (congrArg (run · 0 frame) code)
        (plain_edge assigned room declared emitted found rfl rfl typed)
  | branch condition thenEdge thenTarget thenArguments elseEdge elseTarget elseArguments =>
      rw [terminator] at h selected
      obtain ⟨a, register, b, afterRegister, rfl⟩ := Emit.bind_ok.mp h
      obtain ⟨registered, rfl⟩ := reg_ok register
      obtain ⟨c, guarded, d, elseCode, rfl⟩ := Emit.bind_ok.mp afterRegister
      obtain ⟨inner, thenCode, sameNext, jumps⟩ := run_unless guarded d.code frame
      obtain ⟨thenBody, thenEmitted, thenEq⟩ := edgeTo_ok thenCode
      obtain ⟨elseBody, elseEmitted, elseEq⟩ := edgeTo_ok elseCode
      rw [selectedEdge, valueIn_of_registered registered, Option.map_some] at selected
      have taken := Option.some.inj selected
      dsimp only [List.nil_append]
      cases truth : is_truthy (frame.regs (emitter.regOf condition)) with
      | true =>
          rw [truth, if_pos rfl] at taken jumps
          subst taken
          rw [thenEq, List.append_assoc] at jumps
          exact implements_of_reach assigned (Scratch.refl _ _) jumps
            (plain_edge assigned room declared thenEmitted found rfl rfl typed)
      | false =>
          rw [truth, if_neg Bool.false_ne_true] at taken jumps
          subst taken
          have grows : start ≤ c.next := by
            rw [sameNext]
            exact Grows.bind (Grows.emit_edge_arguments _ _ _) (fun _ => Grows.emit _) _ _ thenCode
          rw [elseEq] at jumps
          rw [elseEq]
          exact implements_of_reach assigned (Scratch.refl _ _) jumps
            (plain_edge assigned (Nat.le_trans room grows) declared elseEmitted found rfl rfl typed)
  | switch scrutinee arms =>
      rw [terminator] at h selected edges
      obtain ⟨arm, taken, rfl⟩ := Option.map_eq_some_iff.mp selected
      obtain ⟨ty, -, rest⟩ := Option.bind_eq_some_iff.mp taken
      obtain ⟨value, -, first⟩ := Option.bind_eq_some_iff.mp rest
      have arity := List.flatMap_eq_nil_iff.mp edges arm (List.mem_of_find?_eq_some first)
      exact switch_implements assigned room declared h taken found (agrees_of_valid arity found) typed
  | switchMove scrutinee arms =>
      rw [terminator] at h selected edges
      obtain ⟨arm, taken, rfl⟩ := Option.map_eq_some_iff.mp selected
      obtain ⟨ty, -, rest⟩ := Option.bind_eq_some_iff.mp taken
      obtain ⟨value, -, first⟩ := Option.bind_eq_some_iff.mp rest
      have arity := List.flatMap_eq_nil_iff.mp edges arm (List.mem_of_find?_eq_some first)
      exact switch_implements assigned room declared h taken found (agrees_of_valid arity found) typed
  | return_ | trap | fault | unreachable =>
      rw [terminator] at selected
      cases selected

end Terminators

end Emitter

/-- For a valid function that the adapter lowers: when a terminator takes an edge and the values that the edge uses
have their types, the code of the terminator jumps to the target of the edge with the parallel assignment done
and the unbound parts of a consumed scrutinee released, exactly when no value is moved twice by the edge, a
scrutinee that is read or taken apart is not moved by it, and a scrutinee that is released as a whole is not a
parameter of the target. -/
theorem edge_transfers_iff {function : MirFunction} {catalog : MirTypeCatalog}
    {registers : MirValueId → Option Reg} {next start : Reg}
    (valid : function.edgeErrors = []) (assigned : assign_registers function = .ok (registers, next))
    {id : MirBlockId} {source : MirBlock} (placed : function.blocks.find? id = some source)
    {validate_trap_code : String → Except String Unit} (room : next ≤ start) {e : Emitted Unit}
    (emitted : (Emitter.mk function catalog registers).emit_terminator validate_trap_code
      source.terminator start = .ok e)
    {frame : Frame} {edge : Edge}
    (selected : (Emitter.mk function catalog registers).selectedEdge frame source.terminator = some edge)
    {block : MirBlock} (found : function.blocks.find? edge.target = some block)
    (typed : (Emitter.mk function catalog registers).TypedEdge edge frame) :
    (∃ frame', run e.code 0 frame = .jump edge.target frame' ∧
      (Emitter.mk function catalog registers).Transferred edge block frame frame') ↔
      (Emitter.mk function catalog registers).EdgeSound edge block :=
  Emitter.terminator_implements (assign_registers_injective assigned) room valid placed emitted selected found
    typed

/-! ### An edge from a block to itself -/

section SelfEdge

/-- The types of the loop below: `Option<string>` and `string`, both owned. -/
def loopCatalog : MirTypeCatalog where
  get ty :=
    if ty.val = "Option<string>" then some {
      kind := .option
      layout := .option ⟨"string"⟩ [
        ⟨⟨"option.none"⟩, "None", 0, [], List.nodup_nil⟩,
        ⟨⟨"option.some"⟩, "Some", 1, [⟨⟨"option.some.0"⟩, "0", ⟨"string"⟩⟩], List.nodup_singleton _⟩]
      ownership := .move
      abi := .aggregate
      glue := ⟨.aggregate, .aggregate, .aggregate⟩ }
    else if ty.val = "string" then some {
      kind := .other
      layout := .handle
      ownership := .move
      abi := .stringHandle
      glue := ⟨.ownedString, .ownedString, .ownedString⟩ }
    else none
  validate_glue _ _ := .ok ()
  validate_variant_glue _ _ := .ok ()
  validate_copy_value _ := .ok ()
  validate_flat_copy_variant _ := .ok ()
  validate_recoverable_source_result_variant _ := .ok ()
  supported_type _ := .ok ()

/-- The block of a loop that runs while its parameter is a `Some`: the next round gets a `None`. -/
def loopBlock : MirBlock where
  id := ⟨"block.1", by decide⟩
  parameters := [⟨⟨"value.1", by decide⟩⟩]
  instructions := [⟨⟨"instruction.0", by decide⟩,
    .constructVariant ⟨"value.2", by decide⟩ ⟨"builtin:type:Option", by decide⟩ ⟨"option.none"⟩ []⟩]
  terminator := .switchMove ⟨"value.1", by decide⟩ [
    { edge := ⟨"edge.1", by decide⟩
      target := ⟨"block.2", by decide⟩
      arguments := []
      bindings := []
      case := .variant ⟨"option.none"⟩ },
    { edge := ⟨"edge.2", by decide⟩
      target := ⟨"block.1", by decide⟩
      arguments := [⟨"value.2", by decide⟩]
      bindings := []
      case := .default }]

def loopFunction : MirFunction where
  owner := ⟨"main"⟩
  parameters := [⟨"value.0", by decide⟩]
  parameterPermissions := none
  result := ⟨"unit"⟩
  entry := ⟨"block.0", Eq.refl false⟩
  values := ⟨[
    (⟨"value.0", by decide⟩, ⟨⟨"value.0", by decide⟩, ⟨"Option<string>"⟩⟩),
    (⟨"value.1", by decide⟩, ⟨⟨"value.1", by decide⟩, ⟨"Option<string>"⟩⟩),
    (⟨"value.2", by decide⟩, ⟨⟨"value.2", by decide⟩, ⟨"Option<string>"⟩⟩)]⟩
  blocks := ⟨[
    (⟨"block.0", Eq.refl false⟩, {
      id := ⟨"block.0", Eq.refl false⟩
      parameters := []
      instructions := []
      terminator := .goto ⟨"edge.0", by decide⟩ ⟨"block.1", by decide⟩ [⟨"value.0", by decide⟩] }),
    (⟨"block.1", by decide⟩, loopBlock),
    (⟨"block.2", by decide⟩, {
      id := ⟨"block.2", by decide⟩
      parameters := []
      instructions := []
      terminator := .return_ none })]⟩
  contracts := []
  ownership := ⟨[], ⟨[]⟩, []⟩

/-- The registers of the loop. -/
def loopRegisters : MirValueId → Option Reg :=
  Function.update (Function.update (Function.update (fun _ => none) ⟨"value.0", by decide⟩ (some 0))
    ⟨"value.1", by decide⟩ (some 1)) ⟨"value.2", by decide⟩ (some 2)

def loopEmitter : Emitter := ⟨loopFunction, loopCatalog, loopRegisters⟩

/-- The loop has a `Some` and is about to go on with a `None`. -/
def loopFrame : Frame where
  regs r := if r = 1 then .variant "Some" [.string "old"] else if r = 2 then .variant "None" [] else .unit
  released := []

def loopEdge : Edge where
  target := ⟨"block.1", by decide⟩
  arguments := [⟨"value.2", by decide⟩]
  bindings := []
  scrutinee := some ⟨"value.1", by decide⟩
  consumes := true

theorem loop_assigned : assign_registers loopFunction = .ok (loopRegisters, 3) := rfl

theorem loop_valid : loopFunction.edgeErrors = [] := by decide +kernel

theorem loop_selected : loopEmitter.selectedEdge loopFrame loopBlock.terminator = some loopEdge := by
  decide +kernel

def loopShapes : List VariantShape := [
  ⟨⟨"builtin:type:Option", by decide⟩, ⟨"option.none"⟩, "None", 0, 0⟩,
  ⟨⟨"builtin:type:Option", by decide⟩, ⟨"option.some"⟩, "Some", 1, 1⟩]

/-- The code of the terminator of the loop: the last release comes behind the write of the parameter. -/
def loopCode : List Op := [
  .isVariant 3 1 "None", .jmpIfNot 2 3, .dropVariant 1 loopShapes, .jmp ⟨"block.2", by decide⟩,
  .move 4 2, .move 1 4, .dropVariant 1 loopShapes, .jmp ⟨"block.1", by decide⟩]

theorem loop_emitted :
    loopEmitter.emit_terminator (fun _ => .ok ()) loopBlock.terminator 3 = .ok ⟨(), loopCode, 5⟩ := by
  decide +kernel

theorem hasType_none : HasType loopCatalog (.variant "None" []) ⟨"Option<string>"⟩ := by
  refine .variant rfl List.mem_cons_self rfl (fun _ impossible => by cases impossible) rfl ?_
  exact fun _ _ _ impossible => by cases impossible

theorem hasType_some : HasType loopCatalog (.variant "Some" [.string "old"]) ⟨"Option<string>"⟩ := by
  refine .variant rfl (List.mem_cons_of_mem _ List.mem_cons_self) rfl
    (fun _ impossible => by cases impossible) rfl fun i item field here there => ?_
  cases i with
  | zero =>
      obtain rfl := Option.some.inj here
      obtain rfl := Option.some.inj there
      refine .plain rfl rfl ⟨fun _ => fun impossible => (by cases impossible),
        fun root => (by cases root), fun layout => (by cases layout), fun layout => (by cases layout)⟩
  | succ i => cases here

theorem loop_typed : loopEmitter.TypedEdge loopEdge loopFrame where
  arguments argument member ty v known held := by
    obtain rfl := List.mem_singleton.mp member
    obtain rfl := Option.some.inj known
    obtain rfl := Option.some.inj held
    exact hasType_none
  scrutinee scrutinee same ty v known held := by
    obtain rfl := Option.some.inj same
    obtain rfl := Option.some.inj known
    obtain rfl := Option.some.inj held
    exact hasType_some

/-- The first round of the loop: the new value of the parameter is released instead of the old one. -/
theorem self_edge_loses_value :
    loopFunction.edgeErrors = [] ∧ assign_registers loopFunction = .ok (loopRegisters, 3) ∧
      loopFunction.blocks.find? ⟨"block.1", by decide⟩ = some loopBlock ∧
      loopEmitter.emit_terminator (fun _ => .ok ()) loopBlock.terminator 3 = .ok ⟨(), loopCode, 5⟩ ∧
      loopEmitter.selectedEdge loopFrame loopBlock.terminator = some loopEdge ∧
      loopEmitter.TypedEdge loopEdge loopFrame ∧
      (∃ frame', run loopCode 0 loopFrame = .jump loopEdge.target frame' ∧
        loopEmitter.valueIn frame' ⟨"value.1", by decide⟩ = some .unit ∧
        frame'.released = [.variant "None" []]) ∧
      ¬∃ frame', run loopCode 0 loopFrame = .jump loopEdge.target frame' ∧
        loopEmitter.Transferred loopEdge loopBlock loopFrame frame' := by
  refine ⟨loop_valid, loop_assigned, rfl, loop_emitted, loop_selected, loop_typed, ⟨_, rfl, rfl, rfl⟩, ?_⟩
  intro transfers
  obtain ⟨frame', runs, transferred⟩ := transfers
  have receives := transferred.receives
  injection runs with _ here
  rw [← here] at receives
  cases receives

theorem edge_transfers_iff_self :
    ¬∃ frame', run loopCode 0 loopFrame = .jump loopEdge.target frame' ∧
      loopEmitter.Transferred loopEdge loopBlock loopFrame frame' := by
  intro transfers
  have sound : loopEmitter.EdgeSound loopEdge loopBlock :=
    (@edge_transfers_iff loopFunction loopCatalog loopRegisters 3 3 loop_valid loop_assigned
      loopEdge.target loopBlock rfl (fun _ => .ok ()) (Nat.le_refl 3) _ loop_emitted loopFrame loopEdge
      loop_selected loopBlock rfl loop_typed).mp transfers
  exact sound.unwritten _ rfl rfl rfl List.mem_cons_self

end SelfEdge

end Mimi.Bytecode
