/-
Module: Mimi.Proofs.EdgeArguments
Purpose: The two halves of the code of an edge: the arguments are staged in registers of their own, and the
  parameters of the target are written from there.  What comes between them is described by what it leaves.
Trusted boundary: none
-/
import Mimi.Proofs.EmittedCode

namespace Mimi.Bytecode

open Mimi.Core Mimi.Mir Mimi.Lib

namespace Emitter

variable {emitter : Emitter} {next start : Reg}

theorem regOf_lt (assigned : Assigned emitter.registers next) {value : MirValueId}
    (registered : emitter.registers value = some (emitter.regOf value)) : emitter.regOf value < next :=
  assigned.below value _ registered

theorem regOf_injective (assigned : Assigned emitter.registers next) {value other : MirValueId}
    (registered : emitter.registers value = some (emitter.regOf value))
    (registered' : emitter.registers other = some (emitter.regOf other))
    (same : emitter.regOf value = emitter.regOf other) : value = other :=
  assigned.distinct value other _ registered (same ▸ registered')

theorem valueIn_of_registered {frame : Frame} {value : MirValueId}
    (registered : emitter.registers value = some (emitter.regOf value)) :
    emitter.valueIn frame value = some (frame.regs (emitter.regOf value)) := by
  unfold valueIn
  rw [registered]
  rfl

/-- Where values can be transferred, no value of the type is a map root. -/
theorem Transferable.typed_not_root {value : MirValueId} (transferable : emitter.Transferable value)
    {ty : ResolvedTypeId} (known : emitter.typeOf value = some ty) {v : Value}
    (typed : HasType emitter.catalog v ty) : v.isMapRoot = false := by
  obtain ⟨ty', descriptor, known', get, canonical⟩ := transferable.typed
  obtain rfl := Option.some.inj (known.symm.trans known')
  rw [← Bool.not_eq_true]
  intro root
  obtain ⟨owned, glue, -⟩ := typed.root_glue get root
  rcases canonical with copy | canonical
  · exact owned copy
  · rw [glue] at canonical
    cases canonical

/-- A value that can be transferred is not a map root. -/
theorem Transferable.not_root {value : MirValueId} (transferable : emitter.Transferable value)
    {frame : Frame} (typed : emitter.TypedIn frame value) :
    (frame.regs (emitter.regOf value)).isMapRoot = false := by
  obtain ⟨ty, descriptor, known, -, -⟩ := transferable.typed
  exact transferable.typed_not_root known
    (typed ty _ known (valueIn_of_registered transferable.registered))

/-- A value that is moved is not a unit. -/
theorem Transferable.ne_unit {value : MirValueId} (transferable : emitter.Transferable value)
    {frame : Frame} (typed : emitter.TypedIn frame value) (moved : emitter.moves value = true) :
    frame.regs (emitter.regOf value) ≠ .unit := by
  obtain ⟨ty, descriptor, known, get, -⟩ := transferable.typed
  refine (typed ty _ known (valueIn_of_registered transferable.registered)).ne_unit get ?_
  unfold moves movesType at moved
  rw [known, Option.any_some, get, Option.any_some] at moved
  exact of_decide_eq_true moved

/-! ### Staging -/

theorem staged_dst (start : Reg) (arguments : List MirValueId) :
    (emitter.stagedTransfers start arguments).map Transfer.dst = List.range' start arguments.length := by
  induction arguments generalizing start with
  | nil => rfl
  | cons argument arguments ih =>
      rw [stagedTransfers, List.map_cons, List.length_cons, List.range'_succ, ih]

theorem staged_src (start : Reg) (arguments : List MirValueId) :
    (emitter.stagedTransfers start arguments).map Transfer.src = arguments.map emitter.regOf := by
  induction arguments generalizing start with
  | nil => rfl
  | cons argument arguments ih => rw [stagedTransfers, List.map_cons, List.map_cons, ih]

theorem mem_staged {arguments : List MirValueId} {t : Transfer Reg}
    (member : t ∈ emitter.stagedTransfers start arguments) :
    start ≤ t.dst ∧ ∃ argument ∈ arguments, t.src = emitter.regOf argument ∧
      t.takes = emitter.moves argument := by
  induction arguments generalizing start with
  | nil => cases member
  | cons argument arguments ih =>
      rcases List.mem_cons.mp member with rfl | later
      · exact ⟨Nat.le_refl _, argument, List.mem_cons_self, rfl, rfl⟩
      · obtain ⟨above, other, member', source⟩ := ih later
        exact ⟨Nat.le_of_succ_le above, other, List.mem_cons_of_mem _ member', source⟩

theorem staged_taken (start : Reg) (arguments : List MirValueId) :
    taken (emitter.stagedTransfers start arguments) =
      (arguments.filter emitter.moves).map emitter.regOf := by
  induction arguments generalizing start with
  | nil => rfl
  | cons argument arguments ih =>
      have rest := ih (start + 1)
      unfold taken at rest ⊢
      rw [stagedTransfers]
      cases moved : emitter.moves argument with
      | true =>
          rw [List.filter_cons_of_pos (by rfl), List.filter_cons_of_pos moved, List.map_cons,
            List.map_cons, rest]
      | false =>
          rw [List.filter_cons_of_neg (by exact Bool.false_ne_true),
            List.filter_cons_of_neg (by rw [moved]; exact Bool.false_ne_true), rest]

section Stage

variable {arguments : List MirValueId}
  (assigned : Assigned emitter.registers next) (room : next ≤ start)
  (transferable : ∀ argument ∈ arguments, emitter.Transferable argument)
include assigned transferable

theorem staged_once : Once (emitter.stagedTransfers start arguments) ↔
    (arguments.filter emitter.moves).Nodup := by
  induction arguments generalizing start with
  | nil => exact ⟨fun _ => List.nodup_nil, fun _ => List.Pairwise.nil⟩
  | cons argument arguments ih =>
      obtain ⟨registered, -⟩ := transferable argument List.mem_cons_self
      have others : ∀ other ∈ arguments, emitter.Transferable other :=
        fun other member => transferable other (List.mem_cons_of_mem _ member)
      have rest : Once (emitter.stagedTransfers (start + 1) arguments) ↔
          (arguments.filter emitter.moves).Nodup := ih others
      unfold Once at rest ⊢
      rw [stagedTransfers, List.pairwise_cons, rest]
      cases moved : emitter.moves argument with
      | false =>
          rw [List.filter_cons_of_neg (by rw [moved]; exact Bool.false_ne_true)]
          exact ⟨fun both => both.2, fun rest => ⟨fun _ _ _ => rfl, rest⟩⟩
      | true =>
          rw [List.filter_cons_of_pos moved, List.nodup_cons]
          refine and_congr_left fun _ => ⟨fun first again => ?_, fun new t member same => ?_⟩
          · have source : emitter.regOf argument ∈
                (emitter.stagedTransfers (start + 1) arguments).map Transfer.src := by
              rw [staged_src]
              exact List.mem_map_of_mem (List.mem_of_mem_filter again)
            obtain ⟨t, member, same⟩ := List.mem_map.mp source
            cases first t member same.symm
          · obtain ⟨-, other, member', source, takes⟩ := mem_staged member
            have here : argument = other :=
              regOf_injective assigned registered (others other member').registered (same.trans source)
            subst here
            exact absurd (List.mem_filter.mpr ⟨member', moved⟩) new

include room

theorem staged_apart : Apart (emitter.stagedTransfers start arguments) where
  writes := by
    rw [staged_dst]
    exact List.nodup_range'
  reads t member u member' := by
    obtain ⟨above, -⟩ := mem_staged member
    obtain ⟨-, argument, listed, source, -⟩ := mem_staged member'
    have below := regOf_lt assigned (transferable argument listed).registered
    rw [source]
    exact Nat.ne_of_gt (Nat.lt_of_lt_of_le below (Nat.le_trans room above))

end Stage

/-- What a frame holds after the arguments have been staged. -/
structure Staged (emitter : Emitter) (arguments : List MirValueId) (temps : List Reg)
    (frame frame' : Frame) : Prop where
  kept : ∀ value, value ∉ arguments.filter emitter.moves →
    emitter.valueIn frame' value = emitter.valueIn frame value
  gone : ∀ value ∈ arguments.filter emitter.moves, emitter.valueIn frame' value = some .unit
  brought : (arguments.filter emitter.moves).Nodup →
    temps.map (fun temp => some (frame'.regs temp)) = arguments.map (emitter.valueIn frame)
  twice : ¬(arguments.filter emitter.moves).Nodup → ∃ (i : Nat) (argument : MirValueId) (temp : Reg),
    arguments[i]? = some argument ∧ emitter.moves argument = true ∧ temps[i]? = some temp ∧
      frame'.regs temp = .unit
  roots : ∀ temp ∈ temps, (frame'.regs temp).isMapRoot = false
  released : frame'.released = frame.released

theorem stage_exec {arguments : List MirValueId} (assigned : Assigned emitter.registers next)
    (room : next ≤ start) (transferable : ∀ argument ∈ arguments, emitter.Transferable argument)
    {frame : Frame} (typed : ∀ argument ∈ arguments, emitter.TypedIn frame argument) :
    ∃ frame', exec ((emitter.stagedTransfers start arguments).map transferOp) frame = .ok frame' ∧
      emitter.Staged arguments (List.range' start arguments.length) frame frame' := by
  have apart := staged_apart assigned room transferable
  have roots : ∀ t ∈ emitter.stagedTransfers start arguments, (frame.regs t.src).isMapRoot = false := by
    intro t member
    obtain ⟨-, argument, listed, source, -⟩ := mem_staged member
    rw [source]
    exact (transferable argument listed).not_root (typed argument listed)
  have unwritten : ∀ value, emitter.registers value = some (emitter.regOf value) →
      emitter.regOf value ∉ (emitter.stagedTransfers start arguments).map Transfer.dst := by
    intro value registered member
    obtain ⟨t, listed, same⟩ := List.mem_map.mp member
    have above := (mem_staged listed).1
    rw [same] at above
    exact absurd (regOf_lt assigned registered) (Nat.not_lt.mpr (Nat.le_trans room above))
  refine ⟨_, exec_transfers apart roots, ?_⟩
  exact {
    kept := fun value untouched => by
      unfold valueIn
      cases registered : emitter.registers value with
      | none => rfl
      | some r =>
          have here : emitter.regOf value = r := by
            unfold regOf
            rw [registered]
            rfl
          refine congrArg some (transferAll_other ?_ fun source => ?_)
          · rw [← here]
            exact unwritten value (registered.trans (congrArg some here.symm))
          · rw [staged_taken] at source
            obtain ⟨argument, listed, same⟩ := List.mem_map.mp source
            have known := (transferable argument (List.mem_of_mem_filter listed)).registered
            rw [same] at known
            exact untouched (assigned.distinct argument value r known registered ▸ listed)
    gone := fun value listed => by
      have registered := (transferable value (List.mem_of_mem_filter listed)).registered
      rw [valueIn_of_registered registered]
      refine congrArg some (transferAll_source apart (.inl ?_) (unwritten value registered))
      rw [staged_taken]
      exact List.mem_map_of_mem listed
    brought := fun distinct => by
      have once : Once (emitter.stagedTransfers start arguments) :=
        (staged_once assigned transferable).mpr distinct
      have brings : ∀ t ∈ emitter.stagedTransfers start arguments,
          transferAll .unit (emitter.stagedTransfers start arguments) frame.regs t.dst = frame.regs t.src :=
        fun t member => transferAll_dst apart once member
      rw [← staged_dst, List.map_map]
      calc (emitter.stagedTransfers start arguments).map
            ((fun temp => some (transferAll .unit (emitter.stagedTransfers start arguments) frame.regs temp)) ∘
              Transfer.dst)
          = (emitter.stagedTransfers start arguments).map
              ((fun source => some (frame.regs source)) ∘ Transfer.src) :=
            List.map_congr_left fun t member => congrArg some (brings t member)
        _ = (arguments.map emitter.regOf).map fun source => some (frame.regs source) := by
            rw [← staged_src start, List.map_map]
        _ = arguments.map (emitter.valueIn frame) := by
            rw [List.map_map]
            exact List.map_congr_left fun argument member =>
              (valueIn_of_registered (transferable argument member).registered).symm
    twice := fun again => by
      obtain ⟨u, member, source, empty⟩ := transferAll_of_not_once
        apart (fun once => again ((staged_once assigned transferable).mp once))
      obtain ⟨i, here⟩ := List.mem_iff_getElem?.mp member
      have src : (arguments.map emitter.regOf)[i]? = some u.src := by
        rw [← staged_src start, List.getElem?_map, here]
        rfl
      have dst : (List.range' start arguments.length)[i]? = some u.dst := by
        rw [← staged_dst, List.getElem?_map, here]
        rfl
      rw [List.getElem?_map] at src
      obtain ⟨argument, at_, same⟩ := Option.map_eq_some_iff.mp src
      refine ⟨i, argument, u.dst, at_, ?_, dst, empty⟩
      rw [staged_taken] at source
      obtain ⟨other, listed, same'⟩ := List.mem_map.mp source
      have here' : other = argument := by
        refine regOf_injective assigned (transferable other (List.mem_of_mem_filter listed)).registered
          (transferable argument (List.mem_of_getElem? at_)).registered (same'.trans same.symm)
      rw [← here']
      exact (List.mem_filter.mp listed).2
    roots := fun temp listed => by
      rw [← staged_dst] at listed
      obtain ⟨t, member, rfl⟩ := List.mem_map.mp listed
      dsimp only
      rcases transferAll_dst_or_hole apart member with brings | empty
      · rw [brings]
        exact roots t member
      · rw [empty]
        rfl
    released := rfl }

/-! ### Unloading -/

variable {sources : List Reg} {parameters : List MirBlockParameter}

theorem unload_dst (arity : sources.length = parameters.length) :
    (emitter.unloadTransfers sources parameters).map Transfer.dst =
      parameters.map fun parameter => emitter.regOf parameter.value := by
  induction sources generalizing parameters with
  | nil =>
      obtain rfl := List.eq_nil_of_length_eq_zero arity.symm
      rfl
  | cons source sources ih =>
      cases parameters with
      | nil => cases arity
      | cons parameter parameters => exact congrArg (_ :: ·) (ih (Nat.succ.inj arity))

theorem unload_src (arity : sources.length = parameters.length) :
    (emitter.unloadTransfers sources parameters).map Transfer.src = sources := by
  induction sources generalizing parameters with
  | nil => rfl
  | cons source sources ih =>
      cases parameters with
      | nil => cases arity
      | cons parameter parameters => exact congrArg (source :: ·) (ih (Nat.succ.inj arity))

/-- What a frame holds after the parameters have been written. -/
structure Unloaded (emitter : Emitter) (sources : List Reg) (parameters : List MirBlockParameter)
    (frame frame' : Frame) : Prop where
  receives : parameters.map (fun parameter => emitter.valueIn frame' parameter.value) =
    sources.map fun source => some (frame.regs source)
  kept : ∀ value, value ∉ parameters.map MirBlockParameter.value →
    emitter.valueIn frame' value = emitter.valueIn frame value
  released : frame'.released = frame.released

theorem unload_exec (assigned : Assigned emitter.registers next) (arity : sources.length = parameters.length)
    (distinct : sources.Nodup) (scratch : ∀ source ∈ sources, next ≤ source)
    (declared : (parameters.map MirBlockParameter.value).Nodup)
    (transferable : ∀ parameter ∈ parameters, emitter.Transferable parameter.value) {frame : Frame}
    (roots : ∀ source ∈ sources, (frame.regs source).isMapRoot = false) :
    ∃ frame', exec ((emitter.unloadTransfers sources parameters).map transferOp) frame = .ok frame' ∧
      emitter.Unloaded sources parameters frame frame' := by
  have isSource : ∀ t ∈ emitter.unloadTransfers sources parameters, t.src ∈ sources := by
    intro t member
    have source := List.mem_map_of_mem (f := Transfer.src) member
    rwa [unload_src arity] at source
  have isParameter : ∀ t ∈ emitter.unloadTransfers sources parameters, ∃ parameter ∈ parameters,
      emitter.regOf parameter.value = t.dst := by
    intro t member
    have destination := List.mem_map_of_mem (f := Transfer.dst) member
    rw [unload_dst arity] at destination
    exact List.mem_map.mp destination
  have apart : Apart (emitter.unloadTransfers sources parameters) :=
    { writes := by
        rw [unload_dst arity]
        refine (List.nodup_map_iff_inj_on declared.of_map).mpr fun p member q member' same => ?_
        refine List.inj_on_of_nodup_map declared member member' ?_
        exact regOf_injective assigned (transferable p member).registered
          (transferable q member').registered same
      reads := fun t member u member' => by
        obtain ⟨parameter, listed, here⟩ := isParameter t member
        rw [← here]
        have below := regOf_lt assigned (transferable parameter listed).registered
        exact Nat.ne_of_lt (Nat.lt_of_lt_of_le below (scratch _ (isSource u member'))) }
  have once : Once (emitter.unloadTransfers sources parameters) := by
    have different := distinct
    rw [← unload_src arity] at different
    exact (List.pairwise_map.mp different).imp fun differ same => absurd same differ
  refine ⟨_, exec_transfers apart fun t member => roots _ (isSource t member), ?_⟩
  exact {
    receives := by
      have brings : ∀ t ∈ emitter.unloadTransfers sources parameters,
          transferAll .unit (emitter.unloadTransfers sources parameters) frame.regs t.dst =
            frame.regs t.src := fun t member => transferAll_dst apart once member
      calc parameters.map (fun parameter => emitter.valueIn
              { frame with
                regs := transferAll .unit (emitter.unloadTransfers sources parameters) frame.regs }
              parameter.value)
          = (parameters.map fun parameter => emitter.regOf parameter.value).map fun r =>
              some (transferAll .unit (emitter.unloadTransfers sources parameters) frame.regs r) := by
            rw [List.map_map]
            exact List.map_congr_left fun parameter member =>
              valueIn_of_registered (transferable parameter member).registered
        _ = (emitter.unloadTransfers sources parameters).map fun t => some (frame.regs t.src) := by
            rw [← unload_dst arity, List.map_map]
            exact List.map_congr_left fun t member => congrArg some (brings t member)
        _ = sources.map fun source => some (frame.regs source) := by
            have listed : (emitter.unloadTransfers sources parameters).map Transfer.src = sources :=
              unload_src arity
            conv_rhs => rw [← listed]
            rw [List.map_map]
            rfl
    kept := fun value other => by
      unfold valueIn
      cases registered : emitter.registers value with
      | none => rfl
      | some r =>
          refine congrArg some (transferAll_other ?_ fun source => ?_)
          · rw [unload_dst arity]
            intro written
            obtain ⟨parameter, listed, here⟩ := List.mem_map.mp written
            have known := (transferable parameter listed).registered
            rw [here] at known
            have same := assigned.distinct parameter.value value r known registered
            exact other (List.mem_map.mpr ⟨parameter, listed, same⟩)
          · obtain ⟨t, member, -, here⟩ := mem_taken.mp source
            have above := scratch _ (isSource t member)
            rw [here] at above
            exact absurd (assigned.below value r registered) (Nat.not_lt.mpr above)
    released := rfl }

/-! ### Between the halves -/

/-- What happens between staging and unloading: the payloads are brought to registers of their own, the
scrutinee is consumed, and parts of it are released. -/
structure Projected (emitter : Emitter) (temps payload : List Reg) (values : List (Option Value))
    (scrutinee : Option MirValueId) (parts : List Value) (frame frame' : Frame) : Prop where
  staged : ∀ temp ∈ temps, frame'.regs temp = frame.regs temp
  brought : payload.map (fun source => some (frame'.regs source)) = values
  kept : ∀ value, scrutinee ≠ some value → emitter.valueIn frame' value = emitter.valueIn frame value
  gone : ∀ value, scrutinee = some value → ∀ v, emitter.valueIn frame' value = some v → v = .unit
  roots : ∀ source ∈ payload, (frame'.regs source).isMapRoot = false
  released : frame'.released = frame.released ++ parts

theorem Projected.nothing (temps : List Reg) (frame : Frame) :
    emitter.Projected temps [] [] none [] frame frame where
  staged _ _ := rfl
  brought := rfl
  kept _ _ := rfl
  gone _ h := by cases h
  roots _ member := absurd member List.not_mem_nil
  released := (List.append_nil _).symm

section Assembly

variable {edge : Edge} {block : MirBlock} {temps payload : List Reg} {values : List (Option Value)}
  {frame frame₁ frame₂ frame₃ : Frame}

/-- The two halves and what is between them make up a parallel assignment. -/
theorem transferred_of_nodup (distinct : (edge.arguments.filter emitter.moves).Nodup)
    (stage : emitter.Staged edge.arguments temps frame frame₁)
    (project : emitter.Projected temps payload values (if edge.consumes then edge.scrutinee else none)
      (emitter.releasedParts edge frame) frame₁ frame₂)
    (unload : emitter.Unloaded (temps ++ payload) block.parameters frame₂ frame₃)
    (passes : emitter.passed edge frame = edge.arguments.map (emitter.valueIn frame) ++ values) :
    emitter.Transferred edge block frame frame₃ where
  receives := by
    rw [unload.receives, passes, List.map_append, project.brought, ← stage.brought distinct]
    congr 1
    exact List.map_congr_left fun temp member => congrArg some (project.staged temp member)
  gone value other consumed v held := by
    rw [unload.kept value other] at held
    by_cases scrutinee : (if edge.consumes then edge.scrutinee else none) = some value
    · exact project.gone value scrutinee v held
    · rw [project.kept value scrutinee] at held
      rcases consumed with moved | taken
      · rw [stage.gone value moved] at held
        exact (Option.some.inj held).symm
      · rw [taken.1, if_pos rfl] at scrutinee
        exact absurd taken.2 scrutinee
  kept value other untouched := by
    obtain ⟨unmoved, unconsumed⟩ := not_or.mp untouched
    have scrutinee : (if edge.consumes then edge.scrutinee else none) ≠ some value := by
      intro same
      cases consumes : edge.consumes with
      | true =>
          rw [consumes, if_pos rfl] at same
          exact unconsumed ⟨consumes, same⟩
      | false =>
          rw [consumes, if_neg Bool.false_ne_true] at same
          cases same
    rw [unload.kept value other, project.kept value scrutinee, stage.kept value unmoved]
  released := by rw [unload.released, project.released, stage.released]

/-- A value that is moved twice does not arrive the second time. -/
theorem exists_unit_of_twice (again : ¬(edge.arguments.filter emitter.moves).Nodup)
    (stage : emitter.Staged edge.arguments temps frame frame₁)
    (same : ∀ temp ∈ temps, frame₂.regs temp = frame₁.regs temp)
    (unload : emitter.Unloaded (temps ++ payload) block.parameters frame₂ frame₃) :
    ∃ (i : Nat) (argument : MirValueId), edge.arguments[i]? = some argument ∧
      emitter.moves argument = true ∧
      (block.parameters.map fun parameter => emitter.valueIn frame₃ parameter.value)[i]? =
        some (some .unit) := by
  obtain ⟨i, argument, temp, listed, moved, staged, empty⟩ := stage.twice again
  refine ⟨i, argument, listed, moved, ?_⟩
  have member := List.mem_of_getElem? staged
  have short : i < temps.length := (List.getElem?_eq_some_iff.mp staged).1
  rw [unload.receives, List.getElem?_map, List.getElem?_append_left short, staged, Option.map_some,
    same temp member, empty]

/-- A parameter that receives a unit instead of a moved argument shows that the values are not passed. -/
theorem not_transferred_of_unit (transferable : ∀ argument ∈ edge.arguments, emitter.Transferable argument)
    (typed : ∀ argument ∈ edge.arguments, emitter.TypedIn frame argument) {i : Nat} {argument : MirValueId}
    (listed : edge.arguments[i]? = some argument) (moved : emitter.moves argument = true)
    (received : (block.parameters.map fun parameter => emitter.valueIn frame₃ parameter.value)[i]? =
      some (some .unit)) : ¬emitter.Transferred edge block frame frame₃ := by
  intro transferred
  have member := List.mem_of_getElem? listed
  have short : i < (edge.arguments.map (emitter.valueIn frame)).length := by
    rw [List.length_map]
    exact (List.getElem?_eq_some_iff.mp listed).1
  rw [transferred.receives, passed, List.getElem?_append_left short, List.getElem?_map, listed,
    Option.map_some, valueIn_of_registered (transferable argument member).registered] at received
  have unit_ := Option.some.inj (Option.some.inj received)
  exact (transferable argument member).ne_unit (typed argument member) moved unit_

end Assembly

end Emitter

end Mimi.Bytecode
