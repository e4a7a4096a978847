/-
Module: Mimi.Proofs.HandleSafety
Purpose: The invariant of the handle registry over runs of any length: what was minted, what was
  destroyed and the leases taken, read off the trace, agree with the slots and the free list.
Trusted boundary: none
-/
import Mimi.Component.Handle
import Mimi.Lib.Ledger

namespace Mimi.Component

open Mimi.Lib

/-! ### What a trace says -/

/-- The operations of a run with their answers, most recent first. -/
abbrev HandleTrace := List (HandleOp × HandleAnswer)

/-- The handle an event minted. -/
def mintedBy : HandleOp × HandleAnswer → Option Handle
  | (.acquire _, .minted h) => some h
  | _ => none

/-- The handles minted in a run. -/
def mintedHandles (trace : HandleTrace) : List Handle := trace.filterMap mintedBy

/-- The slot and generation a handle names. -/
def Handle.identity (h : Handle) : Nat × Nat := (h.index, h.generation)

/-- A destroy of the handle succeeded. -/
def Destroyed (trace : HandleTrace) (h : Handle) : Prop := (.destroy h, .done) ∈ trace

/-- Successful leases less successful releases on a slot since it was acquired; acquiring grants the
first lease. -/
def outstanding (index : Nat) : HandleTrace → Int
  | [] => 0
  | (.acquire _, .minted h) :: older =>
      if h.index = index then 1 else outstanding index older
  | (.lease h, .done) :: older =>
      if h.index = index then outstanding index older + 1 else outstanding index older
  | (.release_lease h, .count _) :: older =>
      if h.index = index then outstanding index older - 1 else outstanding index older
  | _ :: older => outstanding index older

/-- Every successful destroy of the run found no lease outstanding. -/
def DestroysAtZero (trace : HandleTrace) : Prop :=
  ∀ newer h older, trace = newer ++ (.destroy h, .done) :: older → outstanding h.index older = 0

/-- The registry does not confuse two resources. -/
structure HandleSafe (trace : HandleTrace) (s : RegistryInner) : Prop where
  mintedOnce : ((mintedHandles trace).map Handle.identity).Nodup
  resolves : ∀ h, (∃ slot, resolve s h = .ok slot) ↔
    ∃ m ∈ mintedHandles trace, m.identity = h.identity ∧ m.kind = h.kind ∧
      m.runtime = h.runtime ∧ ¬Destroyed trace m
  freeOnce : s.free.Nodup
  freeUnoccupied : ∀ index ∈ s.free, ∃ slot, s.slots[index]? = some slot ∧ slot.kind = none
  leases : ∀ (index : Nat) slot, s.slots[index]? = some slot →
    (slot.leases : Int) = outstanding index trace
  destroysAtZero : DestroysAtZero trace

/-! ### What a step does -/

/-- An operation that asks only, or one that failed. -/
def Quiet : HandleOp → HandleAnswer → Prop
  | .resolve _, _ => True
  | .lease_count _, _ => True
  | .is_live _, _ => True
  | .live_count, _ => True
  | _, answer => ∃ e, answer = .failed e

/-- The ways an operation of the registry ends. -/
inductive HandleEffect (runtime : RuntimeId) (s : RegistryInner) :
    HandleOp → HandleAnswer → RegistryInner → Prop where
  | reuse {kind : HandleKind} {index : Nat} {free : List Nat} {slot : Slot}
      (top : s.free = index :: free) (found : s.slots[index]? = some slot) :
      HandleEffect runtime s (.acquire kind) (.minted ⟨kind, runtime, index, slot.generation⟩)
        ({ s with free := free }.setSlot index
          { slot with kind := some kind, runtime := runtime, leases := 1 })
  | grow {kind : HandleKind} (empty : s.free = []) (room : s.slots.length ≤ u32Max) :
      HandleEffect runtime s (.acquire kind) (.minted ⟨kind, runtime, s.slots.length, 0⟩)
        { s with slots := s.slots ++ [⟨some kind, runtime, 0, 1⟩] }
  | lease {h : Handle} {slot : Slot} (live : resolve s h = .ok slot) :
      HandleEffect runtime s (.lease h) .done
        (s.setSlot h.index { slot with leases := slot.leases + 1 })
  | release {h : Handle} {slot : Slot} (live : resolve s h = .ok slot) (held : slot.leases ≠ 0) :
      HandleEffect runtime s (.release_lease h) (.count (slot.leases - 1))
        (s.setSlot h.index { slot with leases := slot.leases - 1 })
  | destroy {h : Handle} {slot : Slot} (live : resolve s h = .ok slot) (idle : slot.leases = 0) :
      HandleEffect runtime s (.destroy h) .done
        { s.setSlot h.index { slot with kind := none, generation := slot.generation + 1 } with
          free := h.index :: s.free }
  | wrap {h : Handle} {slot : Slot} (live : resolve s h = .ok slot) (idle : slot.leases = 0)
      (last : u32Max ≤ slot.generation) :
      HandleEffect runtime s (.destroy h) (.failed .generationWrap)
        (s.setSlot h.index { slot with kind := none })
  | quiet {op : HandleOp} {answer : HandleAnswer} (nothing : Quiet op answer) :
      HandleEffect runtime s op answer s

variable {runtime : RuntimeId} {s s' : RegistryInner} {trace : HandleTrace}

variable {answer : HandleAnswer}

theorem acquire_effect {kind : HandleKind}
    (steps : HandleRegistry.step runtime (.acquire kind) s = some (answer, s')) :
    HandleEffect runtime s (.acquire kind) answer s' := by
  simp only [HandleRegistry.step, acquire] at steps
  split at steps
  · rename_i index free top
    cases found : s.slots[index]? with
    | none => simp [found] at steps
    | some slot =>
        simp only [found, Option.map_some, Prod.map, HandleAnswer.of, id_eq, Option.some.injEq,
          Prod.mk.injEq] at steps
        obtain ⟨rfl, rfl⟩ := steps
        exact .reuse top found
  · rename_i empty
    split at steps
    · rename_i room
      simp only [Option.map_some, Prod.map, HandleAnswer.of, id_eq, Option.some.injEq,
        Prod.mk.injEq] at steps
      obtain ⟨rfl, rfl⟩ := steps
      exact .grow empty room
    · simp only [Option.map_some, Prod.map, HandleAnswer.of, id_eq, Option.some.injEq,
        Prod.mk.injEq] at steps
      obtain ⟨rfl, rfl⟩ := steps
      exact .quiet ⟨_, rfl⟩

variable {h : Handle}

theorem lease_effect (steps : HandleRegistry.step runtime (.lease h) s = some (answer, s')) :
    HandleEffect runtime s (.lease h) answer s' := by
  simp only [HandleRegistry.step, lease] at steps
  cases live : resolve s h with
  | error e =>
      simp only [live, Prod.map, HandleAnswer.of, id_eq, Option.some.injEq,
        Prod.mk.injEq] at steps
      obtain ⟨rfl, rfl⟩ := steps
      exact .quiet ⟨_, rfl⟩
  | ok slot =>
      simp only [live] at steps
      split at steps
      all_goals
        simp only [Prod.map, HandleAnswer.of, id_eq, Option.some.injEq, Prod.mk.injEq] at steps
        obtain ⟨rfl, rfl⟩ := steps
      · exact .lease live
      · exact .quiet ⟨_, rfl⟩

theorem release_effect (steps : HandleRegistry.step runtime (.release_lease h) s = some (answer, s')) :
    HandleEffect runtime s (.release_lease h) answer s' := by
  simp only [HandleRegistry.step, release_lease] at steps
  cases live : resolve s h with
  | error e =>
      simp only [live, Prod.map, HandleAnswer.of, id_eq, Option.some.injEq,
        Prod.mk.injEq] at steps
      obtain ⟨rfl, rfl⟩ := steps
      exact .quiet ⟨_, rfl⟩
  | ok slot =>
      simp only [live] at steps
      split at steps
      all_goals
        simp only [Prod.map, HandleAnswer.of, id_eq, Option.some.injEq, Prod.mk.injEq] at steps
        obtain ⟨rfl, rfl⟩ := steps
      · exact .quiet ⟨_, rfl⟩
      · exact .release live ‹_›

theorem destroy_effect (steps : HandleRegistry.step runtime (.destroy h) s = some (answer, s')) :
    HandleEffect runtime s (.destroy h) answer s' := by
  simp only [HandleRegistry.step, destroy] at steps
  cases live : resolve s h with
  | error e =>
      simp only [live, Prod.map, HandleAnswer.of, id_eq, Option.some.injEq,
        Prod.mk.injEq] at steps
      obtain ⟨rfl, rfl⟩ := steps
      exact .quiet ⟨_, rfl⟩
  | ok slot =>
      simp only [live] at steps
      by_cases idle : slot.leases = 0
      · rw [if_neg (not_not.mpr idle)] at steps
        split at steps
        all_goals
          simp only [Prod.map, HandleAnswer.of, id_eq, Option.some.injEq, Prod.mk.injEq] at steps
          obtain ⟨rfl, rfl⟩ := steps
        · exact .destroy live idle
        · exact .wrap live idle (by omega)
      · simp only [if_pos idle, Prod.map, HandleAnswer.of, id_eq, Option.some.injEq,
          Prod.mk.injEq] at steps
        obtain ⟨rfl, rfl⟩ := steps
        exact .quiet ⟨_, rfl⟩

/-- Every step of the registry is one of the effects. -/
theorem step_effect {op : HandleOp} (steps : (HandleRegistry runtime).step op s = some (answer, s')) :
    HandleEffect runtime s op answer s' := by
  cases op with
  | acquire kind => exact acquire_effect steps
  | lease h => exact lease_effect steps
  | release_lease h => exact release_effect steps
  | destroy h => exact destroy_effect steps
  | resolve h =>
      obtain ⟨rfl, rfl⟩ := by simpa [HandleRegistry, HandleRegistry.step] using steps
      exact .quiet trivial
  | lease_count h =>
      obtain ⟨rfl, rfl⟩ := by simpa [HandleRegistry, HandleRegistry.step] using steps
      exact .quiet trivial
  | is_live h =>
      obtain ⟨rfl, rfl⟩ := by simpa [HandleRegistry, HandleRegistry.step] using steps
      exact .quiet trivial
  | live_count =>
      obtain ⟨rfl, rfl⟩ := by simpa [HandleRegistry, HandleRegistry.step] using steps
      exact .quiet trivial

/-! ### Events of a trace -/

theorem mintedHandles_quiet {op : HandleOp} (nothing : Quiet op answer) :
    mintedHandles ((op, answer) :: trace) = mintedHandles trace := by
  cases op with
  | acquire kind =>
      obtain ⟨e, rfl⟩ := nothing
      rfl
  | _ => rfl

variable {event : HandleOp × HandleAnswer}

theorem destroyed_cons :
    Destroyed (event :: trace) h ↔ event = (.destroy h, .done) ∨ Destroyed trace h := by
  simp only [Destroyed, List.mem_cons, eq_comm]

theorem quiet_ne_destroy {op : HandleOp} (nothing : Quiet op answer) : (op, answer) ≠ (.destroy h, .done) := by
  intro same
  obtain ⟨rfl, rfl⟩ := Prod.mk.inj same
  obtain ⟨e, impossible⟩ := nothing
  cases impossible

variable {index : Nat}

theorem outstanding_quiet {op : HandleOp} (nothing : Quiet op answer) :
    outstanding index ((op, answer) :: trace) = outstanding index trace := by
  cases op with
  | acquire kind =>
      obtain ⟨e, rfl⟩ := nothing
      rfl
  | lease h =>
      obtain ⟨e, rfl⟩ := nothing
      rfl
  | release_lease h =>
      obtain ⟨e, rfl⟩ := nothing
      rfl
  | _ => rfl

theorem DestroysAtZero.cons {event : HandleOp × HandleAnswer} (earlier : DestroysAtZero trace)
    (now : ∀ h, event = (.destroy h, .done) → outstanding h.index trace = 0) :
    DestroysAtZero (event :: trace) := by
  intro newer h older split
  cases newer with
  | nil =>
      obtain ⟨rfl, rfl⟩ := List.cons.inj split
      exact now h rfl
  | cons newest newer =>
      obtain ⟨-, rfl⟩ := List.cons.inj split
      exact earlier newer h older rfl

/-! ### The slots -/

theorem RegistryInner.getElem?_setSlot {old new : Slot} (found : s.slots[index]? = some old)
    (j : Nat) : (s.setSlot index new).slots[j]? = if j = index then some new else s.slots[j]? :=
  getElem?_set_found new found j

/-- What a resolved handle says about its slot. -/
theorem resolve_eq_ok {slot : Slot} :
    resolve s h = .ok slot ↔
      s.slots[h.index]? = some slot ∧ slot.kind = some h.kind ∧ slot.generation = h.generation ∧
        slot.runtime = h.runtime := by
  rw [resolve]
  cases found : s.slots[h.index]? with
  | none => simp
  | some slot' =>
      cases kind : slot'.kind with
      | none =>
          simp only [kind, reduceCtorEq, false_iff, Option.some.injEq, not_and]
          rintro rfl impossible
          simp [kind] at impossible
      | some kind' =>
          simp only [kind]
          split_ifs with generation kinds runtimes
          all_goals simp only [false_iff, Option.some.injEq, Except.ok.injEq, not_and]
          · rintro rfl - same
            exact absurd same generation
          · rintro rfl same
            rw [kind] at same
            exact absurd (Option.some.inj same) kinds
          · rintro rfl - - same
            exact absurd same runtimes
          · constructor
            · rintro rfl
              rw [kind]
              exact ⟨rfl, congrArg _ (not_not.mp kinds), not_not.mp generation, not_not.mp runtimes⟩
            · exact fun same => same.1

/-- The generation a slot mints next. -/
def Slot.next (slot : Slot) : Nat :=
  if slot.kind.isSome then slot.generation + 1 else slot.generation

/-- Generations of a slot from here on have not been minted. -/
def nextGeneration (s : RegistryInner) (index : Nat) : Nat := (s.slots[index]?).elim 0 Slot.next

theorem nextGeneration_setSlot {old new : Slot} (found : s.slots[index]? = some old) (j : Nat) :
    nextGeneration (s.setSlot index new) j = if j = index then new.next else nextGeneration s j := by
  rw [nextGeneration, RegistryInner.getElem?_setSlot found]
  split_ifs <;> rfl

theorem nextGeneration_found {slot : Slot} (found : s.slots[index]? = some slot) :
    nextGeneration s index = slot.next := by
  rw [nextGeneration, found, Option.elim_some]

theorem mintedHandles_none (mints : mintedBy event = none) :
    mintedHandles (event :: trace) = mintedHandles trace := List.filterMap_cons_none mints

theorem mintedHandles_some (mints : mintedBy event = some h) :
    mintedHandles (event :: trace) = h :: mintedHandles trace := List.filterMap_cons_some mints

/-- The trace agrees with the slots. -/
structure HandleInvariant (trace : HandleTrace) (s : RegistryInner) : Prop where
  ledger : Ledger.Below (nextGeneration s) ((mintedHandles trace).map Handle.identity)
  occupied : ∀ (index : Nat) slot kind, s.slots[index]? = some slot → slot.kind = some kind →
    ⟨kind, slot.runtime, index, slot.generation⟩ ∈ mintedHandles trace
  named : ∀ h, Destroyed trace h → h ∈ mintedHandles trace
  passed : ∀ h slot, Destroyed trace h → s.slots[h.index]? = some slot →
    h.generation < slot.generation
  retired : ∀ h slot, h ∈ mintedHandles trace → s.slots[h.index]? = some slot →
    h.generation < slot.generation → Destroyed trace h
  freeOnce : s.free.Nodup
  vacant : ∀ index, index ∈ s.free ↔ ∃ slot, s.slots[index]? = some slot ∧ slot.kind = none
  leases : ∀ (index : Nat) slot, s.slots[index]? = some slot →
    (slot.leases : Int) = outstanding index trace
  destroysAtZero : DestroysAtZero trace

namespace HandleInvariant

theorem start : HandleInvariant [] RegistryInner.new where
  ledger := Ledger.below_nil _
  occupied := by simp [RegistryInner.new]
  named := by simp [Destroyed]
  passed := by simp [Destroyed]
  retired := by simp [mintedHandles]
  freeOnce := List.nodup_nil
  vacant := by simp [RegistryInner.new]
  leases := by simp [RegistryInner.new]
  destroysAtZero := by
    intro newer h older split
    exact absurd split.symm (List.append_ne_nil_of_right_ne_nil newer (List.cons_ne_nil _ _))

theorem quiet {op : HandleOp} (inv : HandleInvariant trace s)
    (nothing : Quiet op answer) : HandleInvariant ((op, answer) :: trace) s where
  ledger := by
    rw [mintedHandles_quiet nothing]
    exact inv.ledger
  occupied := by
    rw [mintedHandles_quiet nothing]
    exact inv.occupied
  named h destroyed := by
    rw [mintedHandles_quiet nothing]
    rcases destroyed_cons.mp destroyed with now | before
    · exact absurd now (quiet_ne_destroy nothing)
    · exact inv.named h before
  passed h slot destroyed := by
    rcases destroyed_cons.mp destroyed with now | before
    · exact absurd now (quiet_ne_destroy nothing)
    · exact inv.passed h slot before
  retired h slot minted found less := by
    rw [mintedHandles_quiet nothing] at minted
    exact destroyed_cons.mpr (.inr (inv.retired h slot minted found less))
  freeOnce := inv.freeOnce
  vacant := inv.vacant
  leases index slot found := by
    rw [outstanding_quiet nothing]
    exact inv.leases index slot found
  destroysAtZero := inv.destroysAtZero.cons fun _ same => absurd same (quiet_ne_destroy nothing)

/-- Taking and releasing leases changes the number of leases of one slot only. -/
theorem withLeases {slot : Slot} {leases : Nat} (inv : HandleInvariant trace s) (live : resolve s h = .ok slot)
    (mints : mintedBy event = none) (spares : ∀ h', event ≠ (.destroy h', .done))
    (count : ∀ j, outstanding j (event :: trace) =
      if j = h.index then (leases : Int) else outstanding j trace) :
    HandleInvariant (event :: trace) (s.setSlot h.index { slot with leases := leases }) := by
  obtain ⟨found, kind, generation, -⟩ := resolve_eq_ok.mp live
  have minted : mintedHandles (event :: trace) = mintedHandles trace := mintedHandles_none mints
  -- the slot found after the step differs from the one before in its leases only
  have same : ∀ (j : Nat) slot', (s.setSlot h.index { slot with leases := leases }).slots[j]? =
      some slot' → ∃ before, s.slots[j]? = some before ∧ before.kind = slot'.kind ∧
        before.runtime = slot'.runtime ∧ before.generation = slot'.generation := by
    intro j slot' found'
    rw [RegistryInner.getElem?_setSlot found] at found'
    split_ifs at found' with here
    · obtain rfl := Option.some.inj found'
      exact ⟨slot, here ▸ found, rfl, rfl, rfl⟩
    · exact ⟨slot', found', rfl, rfl, rfl⟩
  constructor
  · rw [minted]
    refine inv.ledger.raise fun j _ _ => ?_
    rw [nextGeneration_setSlot found]
    split_ifs with here
    · rw [here, nextGeneration_found found]
      exact Nat.le_refl _
    · exact Nat.le_refl _
  · intro j slot' kind' found' occupied
    obtain ⟨before, found', kinds, runtimes, generations⟩ := same j slot' found'
    rw [minted, ← runtimes, ← generations]
    exact inv.occupied j before kind' found' (kinds.trans occupied)
  · intro h' destroyed
    rw [minted]
    rcases destroyed_cons.mp destroyed with now | earlier
    · exact absurd now (spares h')
    · exact inv.named h' earlier
  · intro h' slot' destroyed found'
    obtain ⟨before, found', -, -, generations⟩ := same _ slot' found'
    rcases destroyed_cons.mp destroyed with now | earlier
    · exact absurd now (spares h')
    · exact generations ▸ inv.passed h' before earlier found'
  · intro h' slot' member found' less
    obtain ⟨before, found', -, -, generations⟩ := same _ slot' found'
    rw [minted] at member
    exact destroyed_cons.mpr (.inr (inv.retired h' before member found' (generations ▸ less)))
  · exact inv.freeOnce
  · intro j
    change j ∈ s.free ↔ _
    rw [inv.vacant j, RegistryInner.getElem?_setSlot found]
    split_ifs with here
    · rw [here, found]
      simp only [Option.some.injEq, exists_eq_left']
    · rfl
  · intro j slot' found'
    rw [RegistryInner.getElem?_setSlot found] at found'
    rw [count j]
    split_ifs at found' ⊢ with here
    · obtain rfl := Option.some.inj found'
      rfl
    · exact inv.leases j slot' found'
  · exact inv.destroysAtZero.cons fun h' now => absurd now (spares h')

theorem lease {slot : Slot} (inv : HandleInvariant trace s) (live : resolve s h = .ok slot) :
    HandleInvariant ((.lease h, .done) :: trace)
      (s.setSlot h.index { slot with leases := slot.leases + 1 }) := by
  refine inv.withLeases live rfl (by simp) fun j => ?_
  simp only [outstanding]
  by_cases here : h.index = j
  · have count := inv.leases h.index slot (resolve_eq_ok.mp live).1
    rw [if_pos here, if_pos here.symm, ← here, ← count]
    rfl
  · rw [if_neg here, if_neg (Ne.symm here)]

theorem release {slot : Slot} (inv : HandleInvariant trace s)
    (live : resolve s h = .ok slot) (held : slot.leases ≠ 0) :
    HandleInvariant ((.release_lease h, .count (slot.leases - 1)) :: trace)
      (s.setSlot h.index { slot with leases := slot.leases - 1 }) := by
  refine inv.withLeases live rfl (by simp) fun j => ?_
  simp only [outstanding]
  by_cases here : h.index = j
  · have count := inv.leases h.index slot (resolve_eq_ok.mp live).1
    rw [if_pos here, if_pos here.symm, ← here, ← count]
    omega
  · rw [if_neg here, if_neg (Ne.symm here)]

/-- A destroy retires the generation of the slot and puts the slot on the free list. -/
theorem destroy {h : Handle} {slot : Slot} (inv : HandleInvariant trace s)
    (live : resolve s h = .ok slot) (idle : slot.leases = 0) :
    HandleInvariant ((.destroy h, .done) :: trace)
      { s.setSlot h.index { slot with kind := none, generation := slot.generation + 1 } with
        free := h.index :: s.free } := by
  obtain ⟨found, kind, generation, runtimes⟩ := resolve_eq_ok.mp live
  have minted : mintedHandles ((.destroy h, .done) :: trace) = mintedHandles trace := rfl
  have isMinted : h ∈ mintedHandles trace := by
    have member := inv.occupied h.index slot h.kind found kind
    rwa [runtimes, generation] at member
  have slots : ∀ j : Nat, (s.setSlot h.index { slot with
      kind := none, generation := slot.generation + 1 }).slots[j]? = _ := RegistryInner.getElem?_setSlot found
  constructor
  · rw [minted]
    refine inv.ledger.raise fun j _ _ => ?_
    change _ ≤ nextGeneration (s.setSlot h.index _) j
    rw [nextGeneration_setSlot found]
    split_ifs with here
    · rw [here, nextGeneration_found found]
      simp [Slot.next, kind]
    · exact Nat.le_refl _
  · intro j slot' kind' found' occupied
    rw [slots] at found'
    split_ifs at found' with here
    · obtain rfl := Option.some.inj found'
      cases occupied
    · exact inv.occupied j slot' kind' found' occupied
  · intro h' destroyed
    rw [minted]
    rcases destroyed_cons.mp destroyed with now | earlier
    · obtain rfl : h = h' := by simpa using now
      exact isMinted
    · exact inv.named h' earlier
  · intro h' slot' destroyed found'
    rw [slots] at found'
    rcases destroyed_cons.mp destroyed with now | earlier
    · obtain rfl : h = h' := by simpa using now
      rw [if_pos rfl] at found'
      obtain rfl := Option.some.inj found'
      change h.generation < slot.generation + 1
      omega
    · split_ifs at found' with here
      · obtain rfl := Option.some.inj found'
        have before := inv.passed h' slot earlier (here ▸ found)
        change h'.generation < slot.generation + 1
        omega
      · exact inv.passed h' slot' earlier found'
  · intro h' slot' member found' less
    rw [slots] at found'
    rw [minted] at member
    refine destroyed_cons.mpr ?_
    split_ifs at found' with here
    · obtain rfl := Option.some.inj found'
      have atMost : h'.generation ≤ slot.generation := Nat.lt_succ_iff.mp less
      rcases Nat.lt_or_eq_of_le atMost with earlier | this
      · exact .inr (inv.retired h' slot member (here ▸ found) earlier)
      · -- one handle was minted with the generation just retired
        have same : h' = h := List.inj_on_of_nodup_map inv.ledger.once member isMinted
          (Prod.ext here (this.trans generation))
        exact .inl (by rw [same])
    · exact .inr (inv.retired h' slot' member found' less)
  · refine List.nodup_cons.mpr ⟨fun member => ?_, inv.freeOnce⟩
    obtain ⟨slot', found', vacant⟩ := (inv.vacant _).mp member
    rw [found] at found'
    obtain rfl := Option.some.inj found'
    rw [kind] at vacant
    cases vacant
  · intro j
    rw [List.mem_cons, inv.vacant j, slots]
    split_ifs with here
    · simp [here]
    · simp [here]
  · intro j slot' found'
    change _ = outstanding j trace
    rw [slots] at found'
    split_ifs at found' with here
    · obtain rfl := Option.some.inj found'
      exact here ▸ inv.leases h.index slot found
    · exact inv.leases j slot' found'
  · refine inv.destroysAtZero.cons fun h' now => ?_
    obtain rfl : h = h' := by simpa using now
    rw [← inv.leases h.index slot found, idle]
    rfl

/-- A slot off the free list is occupied by a new handle. -/
theorem reuse {kind : HandleKind} {free : List Nat} {slot : Slot}
    (inv : HandleInvariant trace s) (top : s.free = index :: free) (found : s.slots[index]? = some slot) :
    HandleInvariant
      ((.acquire kind, .minted ⟨kind, runtime, index, slot.generation⟩) :: trace)
      ({ s with free := free }.setSlot index
        { slot with kind := some kind, runtime := runtime, leases := 1 }) := by
  have minted : mintedHandles
      ((.acquire kind, .minted ⟨kind, runtime, index, slot.generation⟩) :: trace) = _ :=
    mintedHandles_some rfl
  have slots : ∀ j : Nat, ({ s with free := free }.setSlot index { slot with
      kind := some kind, runtime := runtime, leases := 1 }).slots[j]? = _ :=
    RegistryInner.getElem?_setSlot (s := { s with free := free }) found
  have once := inv.freeOnce
  rw [top] at once
  have vacant : slot.kind = none := by
    obtain ⟨slot', found', vacant⟩ := (inv.vacant index).mp (by simp [top])
    rw [found] at found'
    obtain rfl := Option.some.inj found'
    exact vacant
  constructor
  · rw [minted, List.map_cons]
    refine inv.ledger.mint ?_ (fun j _ _ => ?_) ?_
    · rw [nextGeneration_found found]
      simp [Slot.next, vacant]
    · rw [nextGeneration_setSlot (s := { s with free := free }) found]
      split_ifs with here
      · rw [here, nextGeneration_found found]
        simp [Slot.next, vacant]
      · exact Nat.le_refl _
    · rw [nextGeneration_setSlot (s := { s with free := free }) found, if_pos rfl]
      exact Nat.lt_succ_self _
  · intro j slot' kind' found' occupied
    rw [slots] at found'
    rw [minted]
    split_ifs at found' with here
    · obtain rfl := Option.some.inj found'
      obtain rfl : kind = kind' := Option.some.inj occupied
      rw [here]
      exact List.mem_cons_self
    · exact List.mem_cons_of_mem _ (inv.occupied j slot' kind' found' occupied)
  · intro h destroyed
    rw [minted]
    rcases destroyed_cons.mp destroyed with now | earlier
    · cases now
    · exact List.mem_cons_of_mem _ (inv.named h earlier)
  · intro h slot' destroyed found'
    rw [slots] at found'
    rcases destroyed_cons.mp destroyed with now | earlier
    · cases now
    · split_ifs at found' with here
      · obtain rfl := Option.some.inj found'
        exact inv.passed h slot earlier (here ▸ found)
      · exact inv.passed h slot' earlier found'
  · intro h slot' member found' less
    rw [slots] at found'
    rw [minted] at member
    refine destroyed_cons.mpr (.inr ?_)
    rcases List.mem_cons.mp member with rfl | before
    · rw [if_pos rfl] at found'
      obtain rfl := Option.some.inj found'
      exact absurd less (Nat.lt_irrefl _)
    · split_ifs at found' with here
      · obtain rfl := Option.some.inj found'
        exact inv.retired h slot before (here ▸ found) less
      · exact inv.retired h slot' before found' less
  · exact (List.nodup_cons.mp once).2
  · intro j
    change j ∈ free ↔ _
    rw [slots]
    split_ifs with here
    · simpa [here] using (List.nodup_cons.mp once).1
    · have before := inv.vacant j
      rw [top, List.mem_cons] at before
      simpa [here] using before
  · intro j slot' found'
    rw [slots] at found'
    simp only [outstanding]
    split_ifs at found' with here
    · obtain rfl := Option.some.inj found'
      rw [if_pos here.symm]
      rfl
    · rw [if_neg (Ne.symm here)]
      exact inv.leases j slot' found'
  · exact inv.destroysAtZero.cons fun h now => by cases now

/-- A new slot is occupied by the handle of its first generation. -/
theorem grow {kind : HandleKind} (inv : HandleInvariant trace s) (empty : s.free = []) :
    HandleInvariant ((.acquire kind, .minted ⟨kind, runtime, s.slots.length, 0⟩) :: trace)
      { s with slots := s.slots ++ [⟨some kind, runtime, 0, 1⟩] } := by
  have minted : mintedHandles
      ((.acquire kind, .minted ⟨kind, runtime, s.slots.length, 0⟩) :: trace) = _ :=
    mintedHandles_some rfl
  have outside : s.slots[s.slots.length]? = none := List.getElem?_eq_none (Nat.le_refl _)
  have slots : ∀ j : Nat, (s.slots ++ [⟨some kind, runtime, 0, 1⟩])[j]? =
      if j = s.slots.length then some ⟨some kind, runtime, 0, 1⟩ else s.slots[j]? := by
    intro j
    split_ifs with here
    · rw [here, List.getElem?_concat_length]
    · rw [List.getElem?_append]
      split_ifs with inside
      · rfl
      · rw [List.getElem?_eq_none (Nat.not_lt.mp inside)]
        exact List.getElem?_eq_none (by simp only [List.length_singleton]; omega)
  -- no slot had the new index before
  have elsewhere : ∀ (j : Nat) slot, s.slots[j]? = some slot → j ≠ s.slots.length := by
    rintro j slot found rfl
    rw [outside] at found
    cases found
  constructor
  · rw [minted, List.map_cons]
    refine inv.ledger.mint ?_ (fun j _ _ => ?_) ?_
    · simp [nextGeneration]
    · simp only [nextGeneration]
      rw [slots]
      split_ifs with here
      · rw [here, outside]
        exact Nat.zero_le _
      · exact Nat.le_refl _
    · simp only [nextGeneration]
      rw [slots, if_pos rfl]
      exact Nat.lt_succ_self _
  · intro j slot' kind' found' occupied
    rw [slots] at found'
    rw [minted]
    split_ifs at found' with here
    · obtain rfl := Option.some.inj found'
      obtain rfl : kind = kind' := Option.some.inj occupied
      rw [here]
      exact List.mem_cons_self
    · exact List.mem_cons_of_mem _ (inv.occupied j slot' kind' found' occupied)
  · intro h destroyed
    rw [minted]
    rcases destroyed_cons.mp destroyed with now | earlier
    · cases now
    · exact List.mem_cons_of_mem _ (inv.named h earlier)
  · intro h slot' destroyed found'
    rw [slots] at found'
    rcases destroyed_cons.mp destroyed with now | earlier
    · cases now
    · split_ifs at found' with here
      · -- a destroyed handle has a slot already
        have below := inv.ledger.below h.index h.generation
          (List.mem_map_of_mem (inv.named h earlier))
        rw [nextGeneration, here, outside] at below
        exact absurd below (Nat.not_lt_zero _)
      · exact inv.passed h slot' earlier found'
  · intro h slot' member found' less
    rw [slots] at found'
    rw [minted] at member
    refine destroyed_cons.mpr (.inr ?_)
    split_ifs at found' with here
    · obtain rfl := Option.some.inj found'
      exact absurd less (Nat.not_lt_zero _)
    · rcases List.mem_cons.mp member with rfl | before
      · exact absurd rfl here
      · exact inv.retired h slot' before found' less
  · exact inv.freeOnce
  · intro j
    change j ∈ s.free ↔ _
    rw [slots]
    split_ifs with here
    · simp [empty]
    · exact inv.vacant j
  · intro j slot' found'
    rw [slots] at found'
    simp only [outstanding]
    split_ifs at found' with here
    · obtain rfl := Option.some.inj found'
      rw [if_pos here.symm]
      rfl
    · rw [if_neg (Ne.symm here)]
      exact inv.leases j slot' found'
  · exact inv.destroysAtZero.cons fun h now => by cases now

/-- Every effect but the one of a wrapping destroy keeps the invariant. -/
theorem step {op : HandleOp} (inv : HandleInvariant trace s) (effect : HandleEffect runtime s op answer s')
    (noWrap : ∀ h slot, op = .destroy h → resolve s h = .ok slot → slot.leases = 0 →
      slot.generation < u32Max) :
    HandleInvariant ((op, answer) :: trace) s' := by
  cases effect with
  | reuse top found => exact inv.reuse top found
  | grow empty _ => exact inv.grow empty
  | lease live => exact inv.lease live
  | release live held => exact inv.release live held
  | destroy live idle => exact inv.destroy live idle
  | wrap live idle last => exact absurd (noWrap _ _ rfl live idle) (Nat.not_lt.mpr last)
  | quiet nothing => exact inv.quiet nothing

/-- A minted handle whose generation has passed was destroyed, any other resolves. -/
theorem resolves (inv : HandleInvariant trace s) (h : Handle) :
    (∃ slot, resolve s h = .ok slot) ↔ ∃ m ∈ mintedHandles trace, m.identity = h.identity ∧
      m.kind = h.kind ∧ m.runtime = h.runtime ∧ ¬Destroyed trace m := by
  constructor
  · rintro ⟨slot, live⟩
    obtain ⟨found, kind, generation, runtimes⟩ := resolve_eq_ok.mp live
    have member := inv.occupied h.index slot h.kind found kind
    rw [runtimes, generation] at member
    refine ⟨h, member, rfl, rfl, rfl, fun destroyed => ?_⟩
    exact absurd (inv.passed h slot destroyed found) (by omega)
  · rintro ⟨m, member, identity, kind, runtimes, survives⟩
    obtain rfl : m = h := by
      cases m
      cases h
      obtain ⟨rfl, rfl⟩ := Prod.mk.inj identity
      cases kind
      cases runtimes
      rfl
    have below := inv.ledger.below m.index m.generation (List.mem_map_of_mem member)
    cases found : s.slots[m.index]? with
    | none =>
        rw [nextGeneration, found] at below
        exact absurd below (Nat.not_lt_zero _)
    | some slot =>
        rw [nextGeneration_found found, Slot.next] at below
        have current : ¬m.generation < slot.generation :=
          fun less => survives (inv.retired m slot member found less)
        cases kinds : slot.kind with
        | none => exact absurd (by simpa [kinds] using below) current
        | some kind' =>
            have generation : slot.generation = m.generation := by
              simp only [kinds, Option.isSome_some, if_true] at below
              omega
            -- the occupant has the identity of `m`, so it is `m`
            have same : (⟨kind', slot.runtime, m.index, slot.generation⟩ : Handle) = m :=
              List.inj_on_of_nodup_map inv.ledger.once (inv.occupied _ slot kind' found kinds)
                member (Prod.ext rfl generation)
            refine ⟨slot, resolve_eq_ok.mpr ⟨found, ?_, generation, ?_⟩⟩
            · rw [kinds, ← same]
            · rw [← same]

theorem safe (inv : HandleInvariant trace s) : HandleSafe trace s where
  mintedOnce := inv.ledger.once
  resolves := inv.resolves
  freeOnce := inv.freeOnce
  freeUnoccupied index member := (inv.vacant index).mp member
  leases := inv.leases
  destroysAtZero := inv.destroysAtZero

/-- Indices on the free list lie inside the slots, so nothing panics. -/
theorem answers (inv : HandleInvariant trace s) (op : HandleOp) :
    ∃ answer s', (HandleRegistry runtime).step op s = some (answer, s') := by
  cases op with
  | acquire kind =>
      change ∃ answer s', (acquire runtime kind s).map _ = some (answer, s')
      rw [acquire]
      cases top : s.free with
      | nil =>
          simp only
          split_ifs
          · exact ⟨_, _, rfl⟩
          · exact ⟨_, _, rfl⟩
      | cons index free =>
          obtain ⟨slot, found, -⟩ := (inv.vacant index).mp (by simp [top])
          simp only [found]
          exact ⟨_, _, rfl⟩
  | _ => exact ⟨_, _, rfl⟩

end HandleInvariant

/-! ### Runs -/

/-- The operation destroys no live handle of the last generation that has no lease outstanding. -/
def NoWrappingDestroy (op : HandleOp) (s : RegistryInner) : Prop :=
  ∀ h slot, op = .destroy h → resolve s h = .ok slot → slot.leases = 0 → slot.generation < u32Max

theorem registry_invariant
    (run : (HandleRegistry runtime).Runs NoWrappingDestroy trace s) : HandleInvariant trace s :=
  run.invariant .start fun inv may steps => inv.step (step_effect steps) may

/-- In every run that destroys no live handle of the last generation, the registry never confuses
two resources, and it answers every operation. -/
theorem registry_safe (runtime : RuntimeId) (trace : HandleTrace) (s : RegistryInner)
    (run : (HandleRegistry runtime).Runs NoWrappingDestroy trace s) :
    HandleSafe trace s ∧
      ∀ op, ∃ answer s', (HandleRegistry runtime).step op s = some (answer, s') :=
  ⟨(registry_invariant run).safe, (registry_invariant run).answers⟩

theorem registry_safe_reuse :
    HandleSafe
        [(.acquire .map, .minted ⟨.map, .native, 0, 1⟩),
          (.destroy ⟨.list, .native, 0, 0⟩, .done),
          (.release_lease ⟨.list, .native, 0, 0⟩, .count 0),
          (.acquire .list, .minted ⟨.list, .native, 0, 0⟩)]
        ⟨[⟨some .map, .native, 1, 1⟩], []⟩ ∧
      ∀ op, ∃ answer s', (HandleRegistry .native).step op ⟨[⟨some .map, .native, 1, 1⟩], []⟩ =
        some (answer, s') := by
  apply registry_safe .native
  refine .step (.step (.step (.step .init ?_ rfl) ?_ rfl) ?_ rfl) ?_ rfl
  · intro h slot impossible
    cases impossible
  · intro h slot impossible
    cases impossible
  · rintro h slot ⟨⟩ live -
    cases live
    decide
  · intro h slot impossible
    cases impossible

/-- A registry with one slot, occupied by a list at the generation. -/
def occupied (runtime : RuntimeId) (generation leases : Nat) : RegistryInner :=
  ⟨[⟨some .list, runtime, generation, leases⟩], []⟩

theorem resolve_occupied (generation leases : Nat) :
    resolve (occupied runtime generation leases) ⟨.list, runtime, 0, generation⟩ =
      .ok ⟨some .list, runtime, generation, leases⟩ :=
  resolve_eq_ok.mpr ⟨rfl, rfl, rfl, rfl⟩

theorem release_occupied (generation : Nat) :
    (HandleRegistry runtime).step (.release_lease ⟨.list, runtime, 0, generation⟩)
      (occupied runtime generation 1) = some (.count 0, occupied runtime generation 0) := by
  change some (Prod.map _ id (release_lease _ _)) = _
  rw [release_lease, resolve_occupied]
  rfl

/-- Destroying and acquiring again advances the generation of the only slot. -/
theorem occupied_runs (runtime : RuntimeId) {generation : Nat} (within : generation ≤ u32Max) :
    ∃ trace, (HandleRegistry runtime).Runs NoWrappingDestroy
      ((.acquire .list, .minted ⟨.list, runtime, 0, generation⟩) :: trace)
      (occupied runtime generation 1) := by
  induction generation with
  | zero =>
      refine ⟨[], .step .init ?_ rfl⟩
      intro h slot impossible
      cases impossible
  | succ generation ih =>
      obtain ⟨trace, run⟩ := ih (Nat.le_of_succ_le within)
      have released := run.step
        (fun h slot impossible => by cases impossible) (release_occupied generation)
      have destroys : (HandleRegistry runtime).step (.destroy ⟨.list, runtime, 0, generation⟩)
          (occupied runtime generation 0) =
            some (.done, ⟨[⟨none, runtime, generation + 1, 0⟩], [0]⟩) := by
        change some (Prod.map _ id (destroy _ _)) = _
        rw [destroy, resolve_occupied]
        simp only [ne_eq, not_true_eq_false, if_false, if_pos within]
        rfl
      have destroyed := released.step (fun h slot same live _ => by
        obtain rfl := HandleOp.destroy.inj same
        rw [resolve_occupied] at live
        obtain rfl := Except.ok.inj live
        exact within) destroys
      exact ⟨_, destroyed.step (fun h slot impossible => by cases impossible) rfl⟩

/-- After 2^32 - 1 rounds of acquire, release and destroy on the only slot, one more destroy answers
that the generation would wrap, and the handle that it did not destroy resolves no longer. -/
theorem failed_destroy_kills_handle :
    ¬∀ (runtime : RuntimeId) (trace : HandleTrace) (s : RegistryInner),
      (HandleRegistry runtime).Runs (fun _ _ => True) trace s → HandleSafe trace s := by
  intro always
  obtain ⟨trace, run⟩ := occupied_runs .interp (Nat.le_refl u32Max)
  have released := run.step
    (fun h slot impossible => by cases impossible) (release_occupied u32Max)
  have wraps : (HandleRegistry .interp).step (.destroy ⟨.list, .interp, 0, u32Max⟩)
      (occupied .interp u32Max 0) =
        some (.failed .generationWrap, ⟨[⟨none, .interp, u32Max, 0⟩], []⟩) := by
    change some (Prod.map _ id (destroy _ _)) = _
    rw [destroy, resolve_occupied]
    rfl
  have inv := registry_invariant released
  have unguarded : (HandleRegistry .interp).Runs (fun _ _ => True) _ _ :=
    released.weaken fun _ _ _ => trivial
  have failed := unguarded.step trivial wraps
  have safe := always .interp _ _ failed
  obtain ⟨slot, live⟩ := (safe.resolves ⟨.list, .interp, 0, u32Max⟩).mpr
    ⟨⟨.list, .interp, 0, u32Max⟩, List.mem_cons_self, rfl, rfl, rfl, fun destroyed => by
      rcases destroyed_cons.mp destroyed with now | earlier
      · cases now
      · exact Nat.lt_irrefl _ (inv.passed _ _ earlier rfl)⟩
  obtain ⟨-, kind, -, -⟩ := resolve_eq_ok.mp live
  cases live

/-! ### Failures -/

def HandleAnswer.isFailed : HandleAnswer → Bool
  | .failed _ => true
  | _ => false

/-- The last destroy of a slot fails, but the slot has no occupant any more. -/
theorem destroy_last {slot : Slot} (live : resolve s h = .ok slot) (idle : slot.leases = 0)
    (last : u32Max ≤ slot.generation) :
    (HandleRegistry runtime).step (.destroy h) s =
      some (.failed .generationWrap, s.setSlot h.index { slot with kind := none }) := by
  have wraps : ¬slot.generation + 1 ≤ u32Max := Nat.not_le.mpr (Nat.lt_succ_of_le last)
  change some (Prod.map _ id (destroy s h)) = _
  rw [destroy, live]
  simp only [idle, ne_eq, not_true_eq_false, if_false, if_neg wraps]
  rfl

theorem failed_unchanged {op : HandleOp} {e : HandleError} (may : NoWrappingDestroy op s)
    (steps : (HandleRegistry runtime).step op s = some (.failed e, s')) : s' = s := by
  cases step_effect steps with
  | wrap live idle last => exact absurd (may _ _ rfl live idle) (Nat.not_lt.mpr last)
  | quiet _ => rfl

/-- A handle resolves to an occupied slot, which is another one without its occupant. -/
theorem setSlot_none_ne {slot : Slot} (live : resolve s h = .ok slot) :
    s.setSlot h.index { slot with kind := none } ≠ s := by
  intro same
  obtain ⟨found, occupant, -⟩ := resolve_eq_ok.mp live
  have after : (s.setSlot h.index { slot with kind := none }).slots[h.index]? = some { slot with kind := none } := by
    rw [RegistryInner.getElem?_setSlot found, if_pos rfl]
  rw [same, found] at after
  rw [Option.some.inj after] at occupant
  cases occupant

/-- An operation that fails changes nothing, exactly when it does not destroy a live handle of the last generation.
So a run without such a destroy reaches the state that its successful operations reach alone. -/
theorem failures_change_nothing (runtime : RuntimeId) :
    (∀ s op, (∀ e s', (HandleRegistry runtime).step op s = some (.failed e, s') → s' = s) ↔
      NoWrappingDestroy op s) ∧
    ∀ trace s, (HandleRegistry runtime).Runs NoWrappingDestroy trace s →
      (HandleRegistry runtime).Runs NoWrappingDestroy (trace.filter fun event => !event.2.isFailed) s := by
  refine ⟨fun s op => ⟨?_, fun may e s' steps => failed_unchanged may steps⟩, fun trace s run => ?_⟩
  · rintro unchanged h slot rfl live idle
    by_contra last
    exact setSlot_none_ne live (unchanged _ _ (destroy_last live idle (Nat.not_lt.mp last)))
  · induction run with
    | init => exact .init
    | @step trace s s' op answer _ may steps ih =>
        cases answer with
        | failed e => exact failed_unchanged may steps ▸ ih
        | _ => exact ih.step may steps

/-- The refused lease of a handle that was never minted. -/
theorem failures_change_nothing_stale :
    (HandleRegistry .native).Runs NoWrappingDestroy [(.acquire .list, .minted ⟨.list, .native, 0, 0⟩)]
      (occupied .native 0 1) := by
  have acquired : (HandleRegistry .native).Runs NoWrappingDestroy
      [(.acquire .list, .minted ⟨.list, .native, 0, 0⟩)] (occupied .native 0 1) := by
    refine .step .init ?_ rfl
    intro h slot impossible
    cases impossible
  have refuses : (HandleRegistry .native).step (.lease ⟨.list, .native, 0, 7⟩) (occupied .native 0 1) =
      some (.failed (.staleGeneration 0 7), occupied .native 0 1) := rfl
  have refused := acquired.step (fun h slot impossible => by cases impossible) refuses
  exact (failures_change_nothing .native).2 _ _ refused

/-- After 2^32 - 1 rounds of acquire, release and destroy on the only slot, one more destroy answers
that the generation would wrap, and the slot has lost its occupant. -/
theorem failed_destroy_changes_slot :
    ¬∀ (runtime : RuntimeId) (trace : HandleTrace) (s : RegistryInner) (op : HandleOp) (e : HandleError)
      (s' : RegistryInner), (HandleRegistry runtime).Runs (fun _ _ => True) trace s →
        (HandleRegistry runtime).step op s = some (.failed e, s') → s' = s := by
  intro always
  obtain ⟨trace, run⟩ := occupied_runs .interp (Nat.le_refl u32Max)
  have released := run.step
    (fun h slot impossible => by cases impossible) (release_occupied u32Max)
  have live := @resolve_occupied .interp u32Max 0
  exact setSlot_none_ne live
    (always _ _ _ _ _ _ (released.weaken fun _ _ _ => trivial) (destroy_last live rfl (Nat.le_refl _)))

end Mimi.Component
