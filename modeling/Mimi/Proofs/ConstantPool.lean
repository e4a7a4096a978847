/-
Module: Mimi.Proofs.ConstantPool
Purpose: What the constant pool of a function keeps over runs of insertions: behind each index that was returned
  stands the constant that was added, and raw insertions one after the other take consecutive places.  The pool of
  the function compiler is the same one.
Trusted boundary: none
-/
import Mimi.Bytecode.ConstPool
import Mimi.Interp.MutateSetup

namespace Mimi.Bytecode

open Mimi.Lib

variable {ω : Type}

/-! ### What a trace says -/

/-- The insertions of a run with their answers, most recent first. -/
abbrev PoolTrace (ω : Type) := List (PoolOp ω × Except String Nat)

/-- An index that was returned holds the constant that was added. -/
def Holds (trace : PoolTrace ω) (proto : FunctionProto ω) : Prop :=
  ∀ op i, (op, .ok i) ∈ trace → proto.constants[i]? = some op.val

def PoolOp.isRaw (op : PoolOp ω) : Prop := op.call = .add_const_raw ∨ op.call = .try_add_const_raw

/-- The indices that insertions returned, the first one first. -/
def returned (trace : PoolTrace ω) : List Nat := (trace.filterMap fun event => event.2.toOption).reverse

/-- A group of raw insertions without others in between returned consecutive indices. -/
def RawGroups (trace : PoolTrace ω) : Prop :=
  ∀ later group earlier : PoolTrace ω, trace = later ++ (group ++ earlier) → (∀ event ∈ group, event.1.isRaw) →
    ∃ start, returned group = List.range' start (returned group).length

/-! ### The condition -/

/-- A float that is added to be shared is not a zero while the first zero of the pool has the other sign. -/
def SharesNoOtherZero (val : ConstValue ω) (proto : FunctionProto ω) : Prop :=
  ∀ bits zero, val = .float bits → floatIsZero bits.toNat = true →
    proto.constants.find? (fun existing => existing.dedup val) = some (.float zero) → zero = bits

/-- The index that an unchecked insertion cuts to 32 bits has no more. -/
def Fits (op : PoolOp ω) (proto : FunctionProto ω) : Prop :=
  match op.call with
  | .add_const => (proto.constants.findIdx fun existing => existing.dedup op.val) < 2 ^ 32
  | .add_const_raw => proto.constants.length < 2 ^ 32
  | .try_add_const | .try_add_const_raw => True

/-- The insertion is made where the pool keeps constants apart and indices whole. -/
structure Faithful (op : PoolOp ω) (proto : FunctionProto ω) : Prop where
  zeros : ¬op.isRaw → SharesNoOtherZero op.val proto
  fits : Fits op proto

/-! ### What a step does -/

variable {op : PoolOp ω} {proto proto' : FunctionProto ω} {answer : Except String Nat} {existing val : ConstValue ω}

theorem floatsEqual_cases {a b : BitVec 64} (equal : floatsEqual a.toNat b.toNat = true) :
    a = b ∨ floatIsZero b.toNat = true := by
  simp only [floatsEqual, Bool.and_eq_true, Bool.or_eq_true, decide_eq_true_eq] at equal
  rcases equal.2 with same | ⟨-, zero⟩
  · exact .inl (BitVec.eq_of_toNat_eq same)
  · exact .inr zero

/-- The entry an insertion shares is the constant itself, unless they are zeros of different signs. -/
theorem eq_of_dedup (shared : proto.constants.find? (fun existing => existing.dedup val) = some existing)
    (zeros : SharesNoOtherZero val proto) : existing = val := by
  obtain ⟨same, -⟩ := List.find?_eq_some_iff_getElem.mp shared
  cases existing with
  | float zero =>
      cases val with
      | float bits =>
          rcases floatsEqual_cases same with equal | isZero
          · exact congrArg _ equal
          · exact congrArg _ (zeros bits zero rfl isZero shared)
      | _ => cases same
  | int a =>
      cases val with
      | int b => exact congrArg _ (of_decide_eq_true same)
      | _ => cases same
  | str a =>
      cases val with
      | str b => exact congrArg _ (of_decide_eq_true same)
      | _ => cases same
  | _ => cases same

/-- The ways an insertion ends. -/
inductive PoolEffect (proto : FunctionProto ω) (op : PoolOp ω) : Except String Nat → FunctionProto ω → Prop where
  | shared {i} (other : ¬op.isRaw) (found : proto.constants[i]? = some op.val) : PoolEffect proto op (.ok i) proto
  | pushed : PoolEffect proto op (.ok proto.constants.length) ⟨proto.constants ++ [op.val]⟩
  | failed {e} : PoolEffect proto op (.error e) proto

theorem constIdx_of_lt {i : Nat} (small : i < 2 ^ 32) : constIdx i = i := Nat.mod_eq_of_lt small

/-- The index of an entry that is shared. -/
theorem getElem?_of_shared {i : Nat} (zeros : SharesNoOtherZero val proto)
    (found : (proto.constants.findIdx? fun existing => existing.dedup val) = some i) :
    proto.constants[i]? = some val := by
  obtain ⟨within, same, first⟩ := List.findIdx?_eq_some_iff_getElem.mp found
  have shared : proto.constants.find? (fun existing => existing.dedup val) = some proto.constants[i] :=
    List.find?_eq_some_iff_getElem.mpr ⟨same, i, within, rfl, fun j less => by simpa using first j less⟩
  rw [List.getElem?_eq_getElem within, eq_of_dedup shared zeros]

theorem checked_const_idx_cases (len : Nat) :
    checked_const_idx len = .ok len ∨ ∃ e, checked_const_idx len = .error e := by
  unfold checked_const_idx
  split_ifs
  · exact .inl rfl
  · exact .inr ⟨_, rfl⟩

theorem perform_effect (may : Faithful op proto) : PoolEffect proto op (op.perform proto).1 (op.perform proto).2 := by
  obtain ⟨call, val⟩ := op
  cases call with
  | add_const =>
      have fits : (proto.constants.findIdx fun existing => existing.dedup val) < 2 ^ 32 := may.fits
      have shares : ¬(⟨.add_const, val⟩ : PoolOp ω).isRaw := by simp [PoolOp.isRaw]
      simp only [PoolOp.perform, add_const]
      cases found : proto.constants.findIdx? fun existing => existing.dedup val with
      | some i =>
          rw [(List.findIdx?_eq_some_iff_findIdx_eq.mp found).2] at fits
          simp only [Prod.map_apply, id_eq, constIdx_of_lt fits]
          exact .shared shares (getElem?_of_shared (may.zeros shares) found)
      | none =>
          rw [List.findIdx_eq_length.mpr (by simpa using found)] at fits
          simp only [Prod.map_apply, id_eq, constIdx_of_lt fits]
          exact .pushed
  | try_add_const =>
      have shares : ¬(⟨.try_add_const, val⟩ : PoolOp ω).isRaw := by simp [PoolOp.isRaw]
      simp only [PoolOp.perform, try_add_const]
      cases found : proto.constants.findIdx? fun existing => existing.dedup val with
      | some i =>
          dsimp only
          rcases checked_const_idx_cases i with whole | ⟨e, cut⟩
          · rw [whole]
            exact .shared shares (getElem?_of_shared (may.zeros shares) found)
          · rw [cut]
            exact .failed
      | none =>
          dsimp only
          rcases checked_const_idx_cases proto.constants.length with whole | ⟨e, cut⟩
          · rw [whole]
            exact .pushed
          · rw [cut]
            exact .failed
  | add_const_raw =>
      have fits : proto.constants.length < 2 ^ 32 := may.fits
      simp only [PoolOp.perform, add_const_raw, Prod.map_apply, id_eq, constIdx_of_lt fits]
      exact .pushed
  | try_add_const_raw =>
      simp only [PoolOp.perform, try_add_const_raw]
      rcases checked_const_idx_cases proto.constants.length with whole | ⟨e, cut⟩
      · rw [whole]
        exact .pushed
      · rw [cut]
        exact .failed

theorem step_effect (may : Faithful op proto) (steps : (ConstPool ω).step op proto = some (answer, proto')) :
    PoolEffect proto op answer proto' := by
  obtain ⟨rfl, rfl⟩ := Prod.mk.inj (Option.some.inj steps)
  exact perform_effect may

/-! ### Runs -/

variable {trace : PoolTrace ω}

theorem Holds.step (holds : Holds trace proto) (effect : PoolEffect proto op answer proto') :
    Holds ((op, answer) :: trace) proto' := by
  intro op' i member
  rcases List.mem_cons.mp member with now | before
  · cases effect with
    | shared _ found => cases now; exact found
    | pushed => cases now; exact List.getElem?_concat_length
    | failed => cases now
  · have found := holds op' i before
    cases effect with
    | pushed =>
        rw [List.getElem?_append_left (List.getElem?_eq_some_iff.mp found).1]
        exact found
    | _ => exact found

theorem returned_cons (event : PoolOp ω × Except String Nat) :
    returned (event :: trace) = returned trace ++ event.2.toOption.toList := by
  obtain ⟨op, answer⟩ := event
  cases answer <;> simp [returned, Except.toOption]

/-- The beginning of a run is a run. -/
theorem runs_of_append {allowed : PoolOp ω → FunctionProto ω → Prop} {later earlier : PoolTrace ω}
    (run : (ConstPool ω).Runs allowed (later ++ earlier) proto) : ∃ first, (ConstPool ω).Runs allowed earlier first := by
  induction later generalizing proto with
  | nil => exact ⟨proto, run⟩
  | cons event later ih =>
      cases run with
      | step run _ _ => exact ih run

/-- A group of raw insertions returns the places it adds to the pool. -/
theorem group_returned {group earlier : PoolTrace ω} (run : (ConstPool ω).Runs Faithful (group ++ earlier) proto)
    (raw : ∀ event ∈ group, event.1.isRaw) :
    ∃ start, returned group = List.range' start (returned group).length ∧
      (returned group).length + start = proto.constants.length := by
  induction group generalizing proto with
  | nil => exact ⟨proto.constants.length, rfl, Nat.zero_add _⟩
  | cons event group ih =>
      cases run with
      | step run may steps =>
          obtain ⟨start, places, count⟩ := ih run fun event member => raw event (List.mem_cons_of_mem _ member)
          rw [returned_cons]
          cases step_effect may steps with
          | shared other _ => exact absurd (raw _ List.mem_cons_self) other
          | failed => exact ⟨start, by simpa [Except.toOption] using places, by simpa [Except.toOption] using count⟩
          | pushed =>
              refine ⟨start, ?_, ?_⟩
              · rw [← count]
                simp only [Except.toOption, Option.toList_some, List.length_append, List.length_singleton,
                  List.range'_1_concat]
                rw [← places, Nat.add_comm start]
              · simp only [Except.toOption, Option.toList_some, List.length_append, List.length_singleton, ← count]
                omega

/-- In every run that shares no zero with one of the other sign and cuts no index, each index that was returned holds
the constant that was added, and groups of raw insertions take consecutive places. -/
theorem pool_faithful (run : (ConstPool ω).Runs Faithful trace proto) : Holds trace proto ∧ RawGroups trace := by
  refine ⟨run.invariant (I := Holds) (fun _ _ member => absurd member List.not_mem_nil)
    fun holds may steps => holds.step (step_effect may steps), ?_⟩
  rintro later group earlier rfl raw
  obtain ⟨first, run⟩ := runs_of_append run
  obtain ⟨start, places, -⟩ := group_returned run raw
  exact ⟨start, places⟩

/-- A number that is added twice and a field name. -/
theorem pool_faithful_shared :
    Holds [(⟨.add_const_raw, .str "x"⟩, .ok 1), (⟨.add_const, .int 7⟩, .ok 0), (⟨.add_const, .int 7⟩, .ok 0)]
        (⟨[.int 7, .str "x"]⟩ : FunctionProto Empty) ∧
      RawGroups [((⟨.add_const_raw, .str "x"⟩ : PoolOp Empty), .ok 1), (⟨.add_const, .int 7⟩, .ok 0),
        (⟨.add_const, .int 7⟩, .ok 0)] := by
  refine pool_faithful (.step (.step (.step .init ?_ rfl) ?_ rfl) ?_ rfl)
  · exact ⟨fun _ _ _ float => (nomatch float), show 0 < 2 ^ 32 by decide⟩
  · exact ⟨fun _ _ _ float => (nomatch float), show 0 < 2 ^ 32 by decide⟩
  · exact ⟨fun _ _ _ float => (nomatch float), show 1 < 2 ^ 32 by decide⟩

/-- Negative zero that is added behind zero is loaded as zero. -/
theorem negative_zero_merged : ¬∀ (trace : PoolTrace Empty) (proto : FunctionProto Empty),
    (ConstPool Empty).Runs (fun _ _ => True) trace proto → Holds trace proto := by
  intro always
  have run : (ConstPool Empty).Runs (fun _ _ => True)
      [(⟨.add_const, .float (1 <<< 63)⟩, .ok 0), (⟨.add_const, .float 0⟩, .ok 0)] ⟨[.float 0]⟩ :=
    .step (.step .init trivial rfl) trivial rfl
  have found := always _ _ run ⟨.add_const, .float (1 <<< 63)⟩ 0 List.mem_cons_self
  exact absurd found (by decide)

/-! ### The pool of the function compiler -/

/-- A constant as the compiler of a function has it. -/
def ConstValue.compiled : ConstValue Value → Interp.ConstValue
  | .int value => .int value.toInt
  | .float bits => .float bits.toNat
  | .bool value => .bool value
  | .str value => .str value
  | .unit => .unit
  | .other value => .other value

theorem compiled_same (a b : ConstValue Value) : a.compiled.same b.compiled = a.dedup b := by
  cases a with
  | int m =>
      cases b with
      | int n => simp [ConstValue.compiled, Interp.ConstValue.same, ConstValue.dedup, BitVec.toInt_inj]
      | _ => rfl
  | _ => cases b <;> rfl

/-- The insertion of the compiler, on a pool whose indices fit into 32 bits. -/
theorem add_const_compiled {fc : Interp.FuncCompiler} {proto : FunctionProto Value} (val : ConstValue Value)
    (pool : fc.constants = proto.constants.map ConstValue.compiled) (small : proto.constants.length < 2 ^ 32) :
    (fc.add_const val.compiled).1 = (add_const proto val).1 ∧
      (fc.add_const val.compiled).2.constants = (add_const proto val).2.constants.map ConstValue.compiled := by
  have place : (fc.constants.findIdx? fun existing => existing.same val.compiled) =
      proto.constants.findIdx? fun existing => existing.dedup val := by
    rw [pool, List.findIdx?_map]
    exact congrArg (proto.constants.findIdx? ·) (funext fun existing => compiled_same existing val)
  unfold Interp.FuncCompiler.add_const add_const
  rw [place]
  cases found : proto.constants.findIdx? fun existing => existing.dedup val with
  | some i =>
      have within := (List.findIdx?_eq_some_iff_findIdx_eq.mp found).1
      exact ⟨(constIdx_of_lt (within.trans small)).symm, pool⟩
  | none => simp [pool, constIdx_of_lt small]

end Mimi.Bytecode
