/-
Module: Mimi.Proofs.TableSafety
Purpose: The Map and Set handle tables over any interleaving of their sections: handles are minted
  once, leases are exclusive, objects are freed once and never under a lease or a pin, and a handle
  gives access to its own object only.
Trusted boundary: none
-/
import Mimi.Proofs.TableShape

namespace Mimi.Runtime

open Mimi.Lib

variable {T : Type}

/-! ### What a trace says -/

/-- The sections of a run with their answers, most recent first. -/
abbrev TableTrace (T : Type) := List (TableOp T × TableAnswer T)

/-- The handle and the object of a creation that found room. -/
def createdBy : TableOp T × TableAnswer T → Option (BitVec 64 × T)
  | (.create obj, .minted handle) => if handle = 0 then none else some (handle, obj)
  | _ => none

/-- The handle an object was freed under, and the object. -/
def freedBy : TableOp T × TableAnswer T → Option (BitVec 64 × T)
  | (op, .answer (.ok _ (some obj))) => op.handle.map fun handle => (handle, obj)
  | _ => none

/-- The object an answer gives access to. -/
def seenBy : TableAnswer T → Option T
  | .attempt (.leased obj) => some obj
  | .accessed obj => some obj
  | _ => none

def created (trace : TableTrace T) : List (BitVec 64 × T) := trace.filterMap createdBy

def freed (trace : TableTrace T) : List (BitVec 64 × T) := trace.filterMap freedBy

/-- The threads that hold the operation lease of the handle. -/
def holders (handle : BitVec 64) : TableTrace T → List Nat
  | [] => []
  | (.acquire current h, .attempt (.leased _)) :: older =>
      if h = handle then current :: holders handle older else holders handle older
  | (.release current h, .answer (.ok _ _)) :: older =>
      if h = handle then (holders handle older).erase current else holders handle older
  | _ :: older => holders handle older

/-- Pins taken on the handle less pins given back. -/
def pinsOn (handle : BitVec 64) : TableTrace T → Int
  | [] => 0
  | (.pin h, .answer (.ok _ _)) :: older =>
      if h = handle then pinsOn handle older + 1 else pinsOn handle older
  | (.unpin h, .answer (.ok _ _)) :: older =>
      if h = handle then pinsOn handle older - 1 else pinsOn handle older
  | _ :: older => pinsOn handle older

/-- A destroy of the handle has finished since it was minted. -/
def finishedOn (handle : BitVec 64) : TableTrace T → Bool
  | [] => false
  | (.create _, .minted h) :: older => if h = handle then false else finishedOn handle older
  | (.finish_destroy h, .answer (.ok _ _)) :: older =>
      if h = handle then true else finishedOn handle older
  | (.destroy h, .answer (.ok _ _)) :: older =>
      if h = handle then true else finishedOn handle older
  | _ :: older => finishedOn handle older

/-- The handles of the table are safe. -/
structure TableSafe (trace : TableTrace T) : Prop where
  mintedOnce : ((created trace).map Prod.fst).Nodup
  oneHolder : ∀ handle, (holders handle trace).length ≤ 1
  freedOnce : ((freed trace).map Prod.fst).Nodup
  freedCreated : ∀ c ∈ freed trace, c ∈ created trace
  freedUnheld : ∀ c ∈ freed trace, holders c.1 trace = [] ∧ pinsOn c.1 trace = 0
  freedWhenDone : ∀ c ∈ created trace, finishedOn c.1 trace = true → holders c.1 trace = [] →
    pinsOn c.1 trace = 0 → c ∈ freed trace
  ownObject : ∀ event ∈ trace, ∀ handle obj, event.1.handle = some handle →
    seenBy event.2 = some obj → (handle, obj) ∈ created trace

variable {kind : ContainerKind} {s s' : Table T} {handle : BitVec 64} {slot new : Slot T} {obj : T}
  {op : TableOp T} {answer : TableAnswer T} {trace : TableTrace T}

/-! ### What an event changes -/

variable {h : BitVec 64}

theorem holders_other (on : op.handle = some handle) (other : h ≠ handle) :
    holders h ((op, answer) :: trace) = holders h trace := by
  cases op <;> rcases answer with _ | (_ | _ | _) | _ | (_ | _) <;>
    simp_all [holders, TableOp.handle, Ne.symm other]

theorem pinsOn_other (on : op.handle = some handle) (other : h ≠ handle) :
    pinsOn h ((op, answer) :: trace) = pinsOn h trace := by
  cases op <;> rcases answer with _ | (_ | _ | _) | _ | (_ | _) <;>
    simp_all [pinsOn, TableOp.handle, Ne.symm other]

theorem finishedOn_other (on : op.handle = some handle) (other : h ≠ handle) :
    finishedOn h ((op, answer) :: trace) = finishedOn h trace := by
  cases op <;> rcases answer with _ | (_ | _ | _) | _ | (_ | _) <;>
    simp_all [finishedOn, TableOp.handle, Ne.symm other]

/-- The slot of a handle says what the trace says. -/
structure Agrees (trace : TableTrace T) (handle : BitVec 64) (slot : Slot T) : Prop where
  holders : holders handle trace = slot.active_owner.toList
  pins : pinsOn handle trace = slot.pins
  finished : finishedOn handle trace = slot.pending_free
  leases : slot.leases = slot.active_owner.toList.length
  held : slot.pending_free = true → ¬(slot.leases = 0 ∧ slot.pins = 0)

/-- The event turns the slot of its handle into the new one, and frees nothing. -/
structure Changes (op : TableOp T) (answer : TableAnswer T) (handle : BitVec 64)
    (slot new : Slot T) : Prop where
  on : op.handle = some handle
  generation : new.generation = slot.generation
  holds : new.obj = slot.obj
  frees : freedBy (op, answer) = none
  agrees : ∀ {trace : TableTrace T}, Agrees trace handle slot →
    Agrees ((op, answer) :: trace) handle new

/-- The event frees the object when the last lease and pin of its handle are gone. -/
structure Ends (op : TableOp T) (value : Nat) (handle : BitVec 64) (slot : Slot T) : Prop where
  on : op.handle = some handle
  unheld : ∀ {trace : TableTrace T} (obj : T), Agrees trace handle slot →
    holders handle ((op, .answer (.ok value (some obj))) :: trace) = [] ∧
      pinsOn handle ((op, .answer (.ok value (some obj))) :: trace) = 0

/-- The event changes nothing of any live handle. -/
structure Quiet (s : Table T) (op : TableOp T) (answer : TableAnswer T) : Prop where
  creates : createdBy (op, answer) = none
  frees : freedBy (op, answer) = none
  holders : ∀ (trace : TableTrace T) h, holders h ((op, answer) :: trace) = holders h trace
  pins : ∀ (trace : TableTrace T) h, pinsOn h ((op, answer) :: trace) = pinsOn h trace
  finished : ∀ (trace : TableTrace T) h slot obj, Live s h slot obj →
    finishedOn h ((op, answer) :: trace) = finishedOn h trace
  sees : ∀ h obj, op.handle = some h → seenBy answer = some obj → ∃ slot, Live s h slot obj

/-- The ways a section ends. -/
inductive TableEffect (kind : ContainerKind) (s : Table T) :
    TableOp T → TableAnswer T → Table T → Prop where
  | mint {obj : T} {handle : BitVec 64} {s' : Table T} (nonzero : handle ≠ 0)
      (mints : Mints kind s s' handle obj) : TableEffect kind s (.create obj) (.minted handle) s'
  | quiet {op : TableOp T} {answer : TableAnswer T} (nothing : Quiet s op answer) :
      TableEffect kind s op answer s
  | update {op : TableOp T} {answer : TableAnswer T} {handle : BitVec 64} {slot new : Slot T}
      {obj : T} (live : Live s handle slot obj) (changes : Changes op answer handle slot new)
      (sees : ∀ o, seenBy answer = some o → o = obj) :
      TableEffect kind s op answer (s.setSlot (lowWord handle).toNat new)
  | free {op : TableOp T} {value : Nat} {handle : BitVec 64} {slot : Slot T} {obj : T}
      {s' : Table T} (live : Live s handle slot obj) (forgets : Forgets kind s s' (· = handle))
      (ends : Ends op value handle slot) :
      TableEffect kind s op (.answer (.ok value (some obj))) s'

/-! ### The effect of each operation -/

theorem quiet_failed {e : HandleError} (on : op.handle = some handle) :
    Quiet s op (.answer (.failed e)) := by
  cases op with
  | create obj => cases on
  | _ => exact ⟨rfl, rfl, fun _ _ => rfl, fun _ _ => rfl, fun _ _ _ _ _ => rfl, fun _ _ _ h => by
      cases h⟩

theorem quiet_unleased {current : Nat} {attempt : Attempt T} (fails : seenBy (.attempt attempt) = none) :
    Quiet s (.acquire current handle) (.attempt attempt) := by
  cases attempt with
  | leased obj => cases fails
  | _ => exact ⟨rfl, rfl, fun _ _ => rfl, fun _ _ => rfl, fun _ _ _ _ _ => rfl, fun _ _ _ h => by
      cases h⟩

theorem quiet_read {value : Nat} (reads : op = .generation handle ∨ op = .lease_count handle) :
    Quiet s op (.answer (.ok value none)) := by
  rcases reads with rfl | rfl
  all_goals
    exact ⟨rfl, rfl, fun _ _ => rfl, fun _ _ => rfl, fun _ _ _ _ _ => rfl, fun _ _ _ h => by cases h⟩

/-- Finishing the destruction of a handle that is not live. -/
theorem quiet_finish (dead : ∀ slot obj, ¬Live s handle slot obj)
    (finishes : op = .finish_destroy handle ∨ op = .destroy handle) :
    Quiet s op (.answer (.ok 0 none)) := by
  have on : op.handle = some handle := by
    rcases finishes with rfl | rfl <;> rfl
  have finished : ∀ (trace : TableTrace T) h slot obj, Live s h slot obj →
      finishedOn h ((op, .answer (.ok 0 none)) :: trace) = finishedOn h trace := by
    rintro trace h slot obj live
    refine finishedOn_other on ?_
    rintro rfl
    exact dead slot obj live
  rcases finishes with rfl | rfl
  all_goals exact ⟨rfl, rfl, fun _ _ => rfl, fun _ _ => rfl, finished, fun _ _ _ h => by cases h⟩

/-- The operation has an answer, and one of the effects. -/
def Takes (kind : ContainerKind) (s : Table T) (op : TableOp T)
    (outcome : Option (Answer T × Table T)) : Prop :=
  ∃ a s', outcome = some (a, s') ∧ TableEffect kind s op (.answer a) s'

/-- The operation succeeds, with one of the effects. -/
def Succeeds (kind : ContainerKind) (s : Table T) (op : TableOp T) (value : Nat)
    (outcome : Option (Answer T × Table T)) : Prop :=
  ∃ freed s', outcome = some (.ok value freed, s') ∧
    TableEffect kind s op (.answer (.ok value freed)) s'

theorem Succeeds.takes {value : Nat} {outcome : Option (Answer T × Table T)}
    (succeeds : Succeeds kind s op value outcome) : Takes kind s op outcome := by
  obtain ⟨freed, s', done, effect⟩ := succeeds
  exact ⟨_, s', done, effect⟩

theorem takes_failed {e : HandleError} (on : op.handle = some handle) :
    Takes kind s op (some (.failed e, s)) := ⟨_, _, rfl, .quiet (quiet_failed on)⟩

/-- The slot is written, and freed if nothing holds it any more. -/
theorem freeIf_succeeds {value : Nat} {should_free : Bool} (ok : TableOk kind s)
    (live : Live s handle slot obj) (generation : new.generation = slot.generation)
    (holds : new.obj = slot.obj)
    (stays : should_free = false → Changes op (.answer (.ok value none)) handle slot new)
    (ends : should_free = true → Ends op value handle slot) :
    Succeeds kind s op value (freeIf kind should_free value
      (s.setSlot (lowWord handle).toNat new) (lowWord handle).toNat) := by
  cases should_free with
  | false => exact ⟨_, _, rfl, .update live (stays rfl) fun o impossible => by cases impossible⟩
  | true =>
      have written : Live (s.setSlot (lowWord handle).toNat new) handle new obj :=
        (live_setSlot live generation holds).mpr (.inl ⟨rfl, rfl, rfl⟩)
      obtain ⟨s', freed, forgets⟩ := finish_free_live (ok.setSlot live generation holds) written
      refine ⟨some obj, s', ?_, .free live ⟨forgets.ok, ?_, ?_⟩ (ends rfl)⟩
      · rw [freeIf, if_pos rfl, freed]
        rfl
      · intro h slot' obj'
        rw [forgets.live, live_setSlot live generation holds]
        constructor
        · rintro ⟨⟨rfl, -⟩ | ⟨-, live'⟩, other⟩
          · exact absurd rfl other
          · exact ⟨live', other⟩
        · rintro ⟨live', other⟩
          exact ⟨.inr ⟨other, live'⟩, other⟩
      · intro j nonzero
        rw [← nextGeneration_setSlot live generation holds]
        exact forgets.next j nonzero

theorem acquire_effect {current : Nat} :
    TableEffect kind s (.acquire current handle) (.attempt (acquire current handle s).1)
      (acquire current handle s).2 := by
  rw [acquire]
  cases named : slotOf s handle with
  | error e => exact .quiet (quiet_unleased rfl)
  | ok r =>
      obtain ⟨index, slot⟩ := r
      simp only
      split_ifs with retired
      · exact .quiet (quiet_unleased rfl)
      · cases holds : slot.obj with
        | none => exact .quiet (quiet_unleased rfl)
        | some obj =>
            obtain ⟨rfl, live⟩ := live_of_slotOf named holds
            cases owner : slot.active_owner with
            | some thread =>
                simp only
                split_ifs
                · exact .quiet (quiet_unleased rfl)
                · exact .quiet (quiet_unleased rfl)
            | none =>
                refine .update live ⟨rfl, rfl, holds.symm, rfl, fun agrees => ?_⟩ fun o sees => ?_
                · constructor
                  · simp [Mimi.Runtime.holders, agrees.holders, owner]
                  · exact agrees.pins
                  · exact agrees.finished
                  · rfl
                  · rintro - ⟨impossible, -⟩
                    cases impossible
                · exact (Option.some.inj sees).symm

theorem release_takes {current : Nat} (ok : TableOk kind s) :
    Takes kind s (.release current handle) (release kind current handle s) := by
  rw [release]
  cases named : slotOf s handle with
  | error e => exact takes_failed rfl
  | ok r =>
      obtain ⟨index, slot⟩ := r
      simp only
      split_ifs with stranger
      · exact takes_failed rfl
      · simp only [not_or, not_not] at stranger
        obtain ⟨owner, leased⟩ := stranger
        obtain ⟨nonzero, -, found, -⟩ := slotOf_eq_ok.mp named
        cases holds : slot.obj with
        | none =>
            rw [(ok.vacant _ slot found holds).1] at owner
            cases owner
        | some obj =>
            obtain ⟨rfl, live⟩ := live_of_slotOf named holds
            have released : ∀ {trace : TableTrace T} {a : Answer T} {value : Nat}
                {freed : Option T}, a = .ok value freed → Agrees trace handle slot →
                  Mimi.Runtime.holders handle
                    ((.release current handle, .answer a) :: trace) = [] := by
              rintro trace a value freed rfl agrees
              simp [Mimi.Runtime.holders, agrees.holders, owner]
            refine Succeeds.takes
              (freeIf_succeeds ok live rfl holds.symm (fun stays => ?_) fun frees => ?_)
            · refine ⟨rfl, rfl, holds.symm, rfl, fun agrees => ?_⟩
              constructor
              · exact released rfl agrees
              · exact agrees.pins
              · exact agrees.finished
              · rfl
              · rintro pending ⟨-, unpinned⟩
                simp [show slot.pending_free = true from pending,
                  show slot.pins = 0 from unpinned] at stays
            · refine ⟨rfl, fun obj agrees => ⟨released rfl agrees, ?_⟩⟩
              simp only [Bool.and_eq_true, beq_iff_eq] at frees
              exact agrees.pins.trans (by rw [frees.1]; rfl)

theorem pin_effect :
    TableEffect kind s (.pin handle) (.answer (pin handle s).1) (pin handle s).2 := by
  rw [pin]
  cases named : slotOf s handle with
  | error e => exact .quiet (quiet_failed rfl)
  | ok r =>
      obtain ⟨index, slot⟩ := r
      simp only
      split_ifs with gone room
      · exact .quiet (quiet_failed rfl)
      · cases holds : slot.obj with
        | none => simp [holds] at gone
        | some obj =>
            obtain ⟨rfl, live⟩ := live_of_slotOf named holds
            refine .update live ⟨rfl, rfl, holds.symm, rfl, fun agrees => ?_⟩ fun o sees => by
              cases sees
            constructor
            · exact agrees.holders
            · simp [pinsOn, agrees.pins]
            · exact agrees.finished
            · exact agrees.leases
            · rintro - ⟨-, impossible⟩
              cases impossible
      · exact .quiet (quiet_failed rfl)

theorem unpin_takes (ok : TableOk kind s) :
    Takes kind s (.unpin handle) (unpin kind handle s) := by
  rw [unpin]
  cases named : slotOf s handle with
  | error e => exact takes_failed rfl
  | ok r =>
      obtain ⟨index, slot⟩ := r
      simp only
      split_ifs with unpinned
      · exact takes_failed rfl
      · obtain ⟨nonzero, -, found, -⟩ := slotOf_eq_ok.mp named
        cases holds : slot.obj with
        | none => exact absurd (ok.vacant _ slot found holds).2 unpinned
        | some obj =>
            obtain ⟨rfl, live⟩ := live_of_slotOf named holds
            have fewer : ∀ {trace : TableTrace T} {a : Answer T} {value : Nat}
                {freed : Option T}, a = .ok value freed → Agrees trace handle slot →
                  pinsOn handle ((.unpin handle, .answer a) :: trace) =
                    ((slot.pins - 1 : Nat) : Int) := by
              rintro trace a value freed rfl agrees
              simp only [pinsOn, if_true, agrees.pins]
              omega
            have drained : (min (slot.pins - 1 + slot.leases) i64Max = 0) ↔
                slot.leases = 0 ∧ slot.pins - 1 = 0 := by
              rw [i64Max]
              omega
            refine Succeeds.takes
              (freeIf_succeeds ok live rfl holds.symm (fun stays => ?_) fun frees => ?_)
            · refine ⟨rfl, rfl, holds.symm, rfl, fun agrees => ?_⟩
              constructor
              · exact agrees.holders
              · exact fewer rfl agrees
              · exact agrees.finished
              · exact agrees.leases
              · intro pending idle
                simp [show slot.pending_free = true from pending, drained.mpr idle] at stays
            · simp only [Bool.and_eq_true, beq_iff_eq, drained] at frees
              refine ⟨rfl, fun obj agrees => ⟨?_, ?_⟩⟩
              · refine agrees.holders.trans (List.eq_nil_of_length_eq_zero ?_)
                rw [← agrees.leases, frees.1.1]
              · rw [fewer rfl agrees, frees.1.2]
                rfl

theorem begin_destroy_effect :
    TableEffect kind s (.begin_destroy handle) (.answer (begin_destroy handle s).1)
      (begin_destroy handle s).2 := by
  rw [begin_destroy]
  cases named : slotOf s handle with
  | error e => exact .quiet (quiet_failed rfl)
  | ok r =>
      obtain ⟨index, slot⟩ := r
      simp only
      split_ifs with gone
      · exact .quiet (quiet_failed rfl)
      · cases holds : slot.obj with
        | none => simp [holds] at gone
        | some obj =>
            obtain ⟨rfl, live⟩ := live_of_slotOf named holds
            refine .update live ⟨rfl, rfl, holds.symm, rfl, fun agrees => ?_⟩ fun o sees => by
              cases sees
            exact ⟨agrees.holders, agrees.pins, agrees.finished, agrees.leases, agrees.held⟩

variable {index : Nat}

/-- A named slot without an object has no live handle. -/
theorem dead_of_slotOf (named : slotOf s handle = .ok (index, slot))
    (gone : slot.obj = none) (slot' : Slot T) (obj : T) : ¬Live s handle slot' obj := by
  intro live
  obtain ⟨-, same⟩ := Prod.mk.inj (Except.ok.inj (named.symm.trans live.slotOf_eq))
  have holds := live.holds
  rw [← same, gone] at holds
  cases holds

theorem setSlot_setSlot {first second : Slot T} :
    (s.setSlot index first).setSlot index second = s.setSlot index second := by
  simp only [Table.setSlot, List.set_set]

/-- The second phase on a slot that the first phase may have retired already. -/
theorem finish_destroy_succeeds {first : Slot T} (ok : TableOk kind s) (live : Live s handle slot obj)
    (retires : first = slot ∨ first = { slot with retired := true })
    (finishes : op = .finish_destroy handle ∨ op = .destroy handle) :
    Succeeds kind s op 0 (finish_destroy kind handle
      (s.setSlot (lowWord handle).toNat first)) := by
  have generation : first.generation = slot.generation := by
    rcases retires with rfl | rfl <;> rfl
  have holds : first.obj = slot.obj := by
    rcases retires with rfl | rfl <;> rfl
  have same : { first with retired := true } = { slot with retired := true } := by
    rcases retires with rfl | rfl <;> rfl
  have pending : { first with retired := true, pending_free := true } =
      { slot with retired := true, pending_free := true } := by
    rcases retires with rfl | rfl <;> rfl
  have idle : (first.leases = 0 ∧ first.pins = 0) ↔ (slot.leases = 0 ∧ slot.pins = 0) := by
    rcases retires with rfl | rfl <;> rfl
  have on : op.handle = some handle := by
    rcases finishes with rfl | rfl <;> rfl
  have written : Live (s.setSlot (lowWord handle).toNat first) handle first obj :=
    (live_setSlot live generation holds).mpr (.inl ⟨rfl, rfl, rfl⟩)
  have occupied : first.obj.isNone = false := by
    rw [written.holds]
    rfl
  rw [finish_destroy, written.slotOf_eq]
  simp only [occupied, Bool.false_eq_true, if_false, setSlot_setSlot, same, pending, idle]
  split_ifs with nothing
  · refine freeIf_succeeds ok live rfl rfl (fun impossible => by cases impossible) fun _ => ⟨on, ?_⟩
    intro trace obj agrees
    have view : holders handle ((op, .answer (.ok 0 (some obj))) :: trace) =
        holders handle trace ∧
          pinsOn handle ((op, .answer (.ok 0 (some obj))) :: trace) = pinsOn handle trace := by
      rcases finishes with rfl | rfl <;> exact ⟨rfl, rfl⟩
    rw [view.1, view.2, agrees.holders, agrees.pins, nothing.2]
    refine ⟨List.eq_nil_of_length_eq_zero ?_, rfl⟩
    rw [← agrees.leases, nothing.1]
  · refine ⟨_, _, rfl, .update live ⟨on, rfl, rfl, ?_, fun agrees => ?_⟩ fun o impossible => by
      cases impossible⟩
    · rcases finishes with rfl | rfl <;> rfl
    · constructor
      · refine Eq.trans ?_ agrees.holders
        rcases finishes with rfl | rfl <;> rfl
      · refine Eq.trans ?_ agrees.pins
        rcases finishes with rfl | rfl <;> rfl
      · rcases finishes with rfl | rfl <;> simp [finishedOn]
      · exact agrees.leases
      · exact fun _ => nothing

theorem setSlot_self (found : s.slots[index]? = some slot) :
    s.setSlot index slot = s := by
  obtain ⟨inside, rfl⟩ := List.getElem?_eq_some_iff.mp found
  simp only [Table.setSlot, List.set_getElem_self]

theorem finish_takes (ok : TableOk kind s) :
    Takes kind s (.finish_destroy handle) (finish_destroy kind handle s) := by
  cases named : slotOf s handle with
  | error e =>
      rw [finish_destroy, named]
      exact takes_failed rfl
  | ok r =>
      obtain ⟨index, slot⟩ := r
      cases holds : slot.obj with
      | none =>
          rw [finish_destroy, named]
          simp only [holds, Option.isNone_none, if_true]
          exact ⟨_, _, rfl, .quiet (quiet_finish (dead_of_slotOf named holds) (.inl rfl))⟩
      | some obj =>
          obtain ⟨rfl, live⟩ := live_of_slotOf named holds
          have succeeds := finish_destroy_succeeds ok live (.inl rfl) (.inl rfl)
          rw [setSlot_self live.found] at succeeds
          exact succeeds.takes

theorem destroy_takes (ok : TableOk kind s) :
    Takes kind s (.destroy handle) (destroy kind handle s) := by
  have quiet : (∀ slot obj, ¬Live s handle slot obj) →
      Takes kind s (.destroy handle) (some (.ok 0 none, s)) := fun dead =>
    ⟨_, _, rfl, .quiet (quiet_finish dead (.inr rfl))⟩
  rw [destroy]
  split_ifs with zero
  · refine quiet fun slot obj live => live.index ?_
    rw [zero]
    rfl
  · rw [begin_destroy]
    cases named : slotOf s handle with
    | error e =>
        have dead : ∀ slot obj, ¬Live s handle slot obj := by
          intro slot obj live
          rw [live.slotOf_eq] at named
          cases named
        cases e with
        | staleGeneration => exact quiet dead
        | destroyed => exact quiet dead
        | invalid => exact takes_failed rfl
        | reentrant => exact takes_failed rfl
    | ok r =>
        obtain ⟨index, slot⟩ := r
        cases holds : slot.obj with
        | none =>
            simp only [holds, Option.isNone_none, if_true]
            exact quiet (dead_of_slotOf named holds)
        | some obj =>
            obtain ⟨rfl, live⟩ := live_of_slotOf named holds
            simp only [holds, Option.isNone_some, Bool.false_eq_true, if_false]
            rw [← holds]
            obtain ⟨freed, s', finished, effect⟩ := finish_destroy_succeeds ok live
              (.inr rfl : ({ slot with retired := true } : Slot T) = slot ∨ _)
              (.inr rfl : TableOp.destroy handle = .finish_destroy handle ∨ _)
            rw [finished]
            exact ⟨_, _, rfl, effect⟩

/-- A slot a MapRoot operation works on is live and held by nobody. -/
theorem mapRootSlot_eq_ok (found : mapRootSlot handle s = .ok (index, slot, obj)) :
    index = (lowWord handle).toNat ∧ Live s handle slot obj ∧ slot.pins = 0 ∧
      slot.active_owner = none := by
  rw [mapRootSlot] at found
  cases named : slotOf s handle with
  | error e =>
      rw [named] at found
      cases found
  | ok r =>
      obtain ⟨index', slot'⟩ := r
      rw [named] at found
      change (if slot'.retired then _ else _ : Except HandleError (Nat × Slot T × T)) = _ at found
      split_ifs at found with retired busy
      · cases holds : slot'.obj with
        | none =>
            rw [holds] at found
            cases found
        | some obj' =>
            rw [holds] at found
            cases found
      · simp only [ne_eq, not_or, not_not, Option.not_isSome_iff_eq_none] at busy
        cases holds : slot'.obj with
        | none =>
            rw [holds] at found
            cases found
        | some obj' =>
            obtain ⟨rfl, live⟩ := live_of_slotOf named holds
            simp only [holds, Except.ok.injEq, Prod.mk.injEq] at found
            obtain ⟨rfl, rfl, rfl⟩ := found
            exact ⟨rfl, live, busy.2.1, busy.2.2⟩

theorem map_root_drop_takes (ok : TableOk .map s) :
    Takes .map s (.map_root_drop handle) (map_root_drop handle s) := by
  rw [map_root_drop]
  cases found : mapRootSlot handle s with
  | error e => exact takes_failed rfl
  | ok r =>
      obtain ⟨index, slot, obj⟩ := r
      obtain ⟨rfl, live, unpinned, unowned⟩ := mapRootSlot_eq_ok found
      have succeeds : Succeeds .map s (.map_root_drop handle) 0
          (freeIf .map true 0 (s.setSlot (lowWord handle).toNat slot) (lowWord handle).toNat) := by
        refine freeIf_succeeds ok live rfl rfl (fun impossible => by cases impossible) fun _ => ?_
        refine ⟨rfl, fun obj agrees => ⟨?_, ?_⟩⟩
        · exact agrees.holders.trans (by rw [unowned]; rfl)
        · exact agrees.pins.trans (by rw [unpinned]; rfl)
      rw [setSlot_self live.found] at succeeds
      exact succeeds.takes

theorem create_effect (ok : TableOk kind s) (obj : T) :
    ∃ handle s', alloc_slot s obj = some (handle, s') ∧
      TableEffect kind s (.create obj) (.minted handle) s' := by
  obtain ⟨handle, s', allocated, ⟨rfl, rfl⟩ | ⟨nonzero, mints⟩⟩ := alloc_slot_spec ok obj
  · refine ⟨_, _, allocated, .quiet ⟨?_, rfl, fun _ _ => rfl, fun _ _ => rfl, ?_, ?_⟩⟩
    · simp [createdBy]
    · intro trace h slot obj' live
      refine if_neg fun zero => live.index ?_
      rw [← zero]
      rfl
    · intro h o impossible
      cases impossible
  · exact ⟨_, _, allocated, .mint nonzero mints⟩

/-- The operations that a kind of table offers. -/
def Offers : ContainerKind → TableOp T → Prop
  | .set, .map_root _ => False
  | .set, .map_root_drop _ => False
  | _, _ => True

/-- Every operation that is offered has an answer, and takes one of the effects. -/
theorem table_step (ok : TableOk kind s) (offers : Offers kind op) :
    ∃ answer s', (HandleTable kind T).step op s = some (answer, s') ∧
      TableEffect kind s op answer s' := by
  have mapped : ∀ {outcome : Option (Answer T × Table T)}, Takes kind s op outcome →
      ∃ answer s', outcome.map (Prod.map .answer id) = some (answer, s') ∧
        TableEffect kind s op answer s' := by
    rintro outcome ⟨a, s', rfl, effect⟩
    exact ⟨_, _, rfl, effect⟩
  cases op with
  | create obj =>
      obtain ⟨handle, s', allocated, effect⟩ := create_effect ok obj
      refine ⟨_, _, ?_, effect⟩
      change (alloc_slot s obj).map _ = _
      rw [allocated]
      rfl
  | acquire current handle => exact ⟨_, _, rfl, acquire_effect⟩
  | release current handle => exact mapped (release_takes ok)
  | pin handle => exact ⟨_, _, rfl, pin_effect⟩
  | unpin handle => exact mapped (unpin_takes ok)
  | begin_destroy handle => exact ⟨_, _, rfl, begin_destroy_effect⟩
  | finish_destroy handle => exact mapped (finish_takes ok)
  | destroy handle => exact mapped (destroy_takes ok)
  | generation handle =>
      refine ⟨_, _, rfl, .quiet ?_⟩
      rw [generation]
      cases slotOf s handle with
      | error e => exact quiet_failed rfl
      | ok r =>
          obtain ⟨index, slot⟩ := r
          simp only
          split_ifs
          · exact quiet_failed rfl
          · exact quiet_read (.inl rfl)
  | lease_count handle =>
      refine ⟨_, _, rfl, .quiet ?_⟩
      rw [lease_count]
      cases slotOf s handle with
      | error e => exact quiet_failed rfl
      | ok r => exact quiet_read (.inr rfl)
  | map_root handle =>
      cases kind with
      | set => exact absurd offers id
      | map =>
          cases found : mapRootSlot handle s with
          | error e =>
              refine ⟨.answer (.failed e), s, ?_, .quiet (quiet_failed rfl)⟩
              simp only [HandleTable, HandleTable.step, found]
          | ok r =>
              obtain ⟨index, slot, obj⟩ := r
              obtain ⟨-, live, -⟩ := mapRootSlot_eq_ok found
              refine ⟨.accessed obj, s, ?_, .quiet ⟨rfl, rfl, fun _ _ => rfl, fun _ _ => rfl,
                fun _ _ _ _ _ => rfl, fun h o on sees => ?_⟩⟩
              · simp only [HandleTable, HandleTable.step, found]
              · obtain rfl := Option.some.inj on
                obtain rfl := Option.some.inj sees
                exact ⟨slot, live⟩
  | map_root_drop handle =>
      cases kind with
      | set => exact absurd offers id
      | map => exact mapped (map_root_drop_takes ok)

theorem step_offers {answer : TableAnswer T}
    (steps : (HandleTable kind T).step op s = some (answer, s')) : Offers kind op := by
  cases kind with
  | map => cases op <;> exact trivial
  | set =>
      cases op with
      | map_root handle => cases steps
      | map_root_drop handle => cases steps
      | _ => exact trivial

/-! ### The invariant -/

/-- The trace agrees with the table. -/
structure TableInvariant (kind : ContainerKind) (trace : TableTrace T) (s : Table T) : Prop where
  ok : TableOk kind s
  ledger : Ledger.Below (nextGeneration s)
    ((created trace).map fun c => ((lowWord c.1).toNat, (highWord c.1).toNat))
  named : ∀ c ∈ created trace, (lowWord c.1).toNat ≠ 0
  live : ∀ h slot obj, Live s h slot obj →
    Agrees trace h slot ∧ (h, obj) ∈ created trace ∧ h ∉ (freed trace).map Prod.fst
  dead : ∀ h, (∀ slot obj, ¬Live s h slot obj) → holders h trace = [] ∧ pinsOn h trace = 0
  known : ∀ c ∈ created trace, c ∈ freed trace ∨ ∃ slot, Live s c.1 slot c.2
  freedCreated : ∀ c ∈ freed trace, c ∈ created trace
  freedOnce : ((freed trace).map Prod.fst).Nodup
  ownObject : ∀ event ∈ trace, ∀ handle obj, event.1.handle = some handle →
    seenBy event.2 = some obj → (handle, obj) ∈ created trace

theorem createdBy_none (on : op.handle = some handle) : createdBy (op, answer) = none := by
  cases op with
  | create obj => cases on
  | _ => rfl

theorem created_none (creates : createdBy (op, answer) = none) :
    created ((op, answer) :: trace) = created trace := List.filterMap_cons_none creates

theorem freed_none (frees : freedBy (op, answer) = none) :
    freed ((op, answer) :: trace) = freed trace := List.filterMap_cons_none frees

/-- The objects seen before, and the one seen now. -/
theorem ownObject_cons {objects : List (BitVec 64 × T)}
    (earlier : ∀ event ∈ trace, ∀ handle obj, event.1.handle = some handle →
      seenBy event.2 = some obj → (handle, obj) ∈ objects)
    (now : ∀ h obj, op.handle = some h → seenBy answer = some obj → (h, obj) ∈ objects) :
    ∀ event ∈ (op, answer) :: trace, ∀ handle obj, event.1.handle = some handle →
      seenBy event.2 = some obj → (handle, obj) ∈ objects := by
  intro event member
  rcases List.mem_cons.mp member with rfl | before
  · exact now
  · exact earlier event before

namespace TableInvariant

theorem start : TableInvariant kind ([] : TableTrace T) .new := by
  have only : ∀ (j : Nat) slot, (Table.new : Table T).slots[j]? = some slot →
      j = 0 ∧ slot = reservedSlot := by
    intro j slot found
    cases j with
    | zero => exact ⟨rfl, (Option.some.inj found).symm⟩
    | succ j => simp [Table.new] at found
  have nothing : ∀ (h : BitVec 64) slot obj, ¬Live (Table.new : Table T) h slot obj := by
    intro h slot obj live
    exact live.index_ne (only _ slot live.found).1
  constructor
  · constructor
    · simp [Table.new]
    · simp [Table.new, lastGeneration]
    · intro j slot found
      obtain ⟨-, rfl⟩ := only j slot found
      exact Nat.zero_le _
    · intro slot found
      obtain ⟨-, rfl⟩ := only 0 slot found
      exact ⟨rfl, rfl⟩
    · exact List.nodup_nil
    · simp [Table.new]
    · intro j slot found _
      obtain ⟨-, rfl⟩ := only j slot found
      exact ⟨rfl, rfl⟩
    · intro _ j slot found _ fresh
      obtain ⟨-, rfl⟩ := only j slot found
      cases fresh
  · exact Ledger.below_nil _
  · simp [created]
  · intro h slot obj live
    exact absurd live (nothing h slot obj)
  · exact fun _ _ => ⟨rfl, rfl⟩
  · simp [created]
  · simp [freed]
  · exact List.nodup_nil
  · simp

theorem quiet (inv : TableInvariant kind trace s) (nothing : Quiet s op answer) :
    TableInvariant kind ((op, answer) :: trace) s := by
  have creates : created ((op, answer) :: trace) = created trace := created_none nothing.creates
  have frees : freed ((op, answer) :: trace) = freed trace := freed_none nothing.frees
  constructor
  · exact inv.ok
  · rw [creates]
    exact inv.ledger
  · rw [creates]
    exact inv.named
  · intro h slot obj live
    obtain ⟨agrees, member, unfreed⟩ := inv.live h slot obj live
    rw [creates, frees]
    refine ⟨⟨?_, ?_, ?_, agrees.leases, agrees.held⟩, member, unfreed⟩
    · rw [nothing.holders, agrees.holders]
    · rw [nothing.pins, agrees.pins]
    · rw [nothing.finished _ h slot obj live, agrees.finished]
  · intro h dead
    rw [nothing.holders, nothing.pins]
    exact inv.dead h dead
  · rw [creates, frees]
    exact inv.known
  · rw [creates, frees]
    exact inv.freedCreated
  · rw [frees]
    exact inv.freedOnce
  · rw [creates]
    refine ownObject_cons inv.ownObject fun h obj on sees => ?_
    obtain ⟨slot, live⟩ := nothing.sees h obj on sees
    exact (inv.live h slot obj live).2.1

/-- What the trace says about other handles stands after an event on one handle. -/
theorem agrees_other (on : op.handle = some handle) (other : h ≠ handle)
    (agrees : Agrees trace h slot) : Agrees ((op, answer) :: trace) h slot where
  holders := (holders_other on other).trans agrees.holders
  pins := (pinsOn_other on other).trans agrees.pins
  finished := (finishedOn_other on other).trans agrees.finished
  leases := agrees.leases
  held := agrees.held

theorem dead_other (on : op.handle = some handle) (other : h ≠ handle)
    (dead : holders h trace = [] ∧ pinsOn h trace = 0) :
    holders h ((op, answer) :: trace) = [] ∧ pinsOn h ((op, answer) :: trace) = 0 :=
  ⟨(holders_other on other).trans dead.1, (pinsOn_other on other).trans dead.2⟩

theorem update (inv : TableInvariant kind trace s) (live : Live s handle slot obj)
    (changes : Changes op answer handle slot new) (sees : ∀ o, seenBy answer = some o → o = obj) :
    TableInvariant kind ((op, answer) :: trace) (s.setSlot (lowWord handle).toNat new) := by
  have creates : created ((op, answer) :: trace) = _ := created_none (createdBy_none changes.on)
  have frees : freed ((op, answer) :: trace) = _ := freed_none changes.frees
  have lives := @live_setSlot T s handle slot obj new live changes.generation changes.holds
  obtain ⟨agrees, member, unfreed⟩ := inv.live handle slot obj live
  constructor
  · exact inv.ok.setSlot live changes.generation changes.holds
  · rw [creates]
    refine inv.ledger.raise fun j _ _ => ?_
    rw [nextGeneration_setSlot live changes.generation changes.holds]
  · rw [creates]
    exact inv.named
  · intro h slot' obj' live'
    rw [creates, frees]
    rcases lives.mp live' with ⟨rfl, rfl, rfl⟩ | ⟨other, live'⟩
    · exact ⟨changes.agrees agrees, member, unfreed⟩
    · obtain ⟨agrees', member', unfreed'⟩ := inv.live h slot' obj' live'
      exact ⟨agrees_other changes.on other agrees', member', unfreed'⟩
  · intro h dead
    have other : h ≠ handle := by
      rintro rfl
      exact dead new obj (lives.mpr (.inl ⟨rfl, rfl, rfl⟩))
    refine dead_other changes.on other (inv.dead h fun slot' obj' live' => ?_)
    exact dead slot' obj' (lives.mpr (.inr ⟨other, live'⟩))
  · rw [creates, frees]
    intro c member
    refine (inv.known c member).imp_right ?_
    rintro ⟨slot', live'⟩
    by_cases this : c.1 = handle
    · obtain ⟨-, -, rfl⟩ := live.unique live' (by rw [this])
      exact ⟨new, lives.mpr (.inl ⟨this, rfl, rfl⟩)⟩
    · exact ⟨slot', lives.mpr (.inr ⟨this, live'⟩)⟩
  · rw [creates, frees]
    exact inv.freedCreated
  · rw [frees]
    exact inv.freedOnce
  · rw [creates]
    refine ownObject_cons inv.ownObject fun h o on seen => ?_
    obtain rfl := Option.some.inj (changes.on.symm.trans on)
    rw [sees o seen]
    exact member

theorem free {value : Nat} (inv : TableInvariant kind trace s) (live : Live s handle slot obj)
    (forgets : Forgets kind s s' (· = handle)) (ends : Ends op value handle slot) :
    TableInvariant kind ((op, .answer (.ok value (some obj))) :: trace) s' := by
  have creates : created ((op, .answer (.ok value (some obj))) :: trace) = _ :=
    created_none (createdBy_none ends.on)
  have frees : freed ((op, .answer (.ok value (some obj))) :: trace) =
      (handle, obj) :: freed trace :=
    List.filterMap_cons_some (by simp [freedBy, ends.on])
  obtain ⟨agrees, member, unfreed⟩ := inv.live handle slot obj live
  constructor
  · exact forgets.ok
  · rw [creates]
    refine inv.ledger.raise fun j g minted => ?_
    obtain ⟨c, created, same⟩ := List.mem_map.mp minted
    obtain ⟨rfl, -⟩ := Prod.mk.inj same
    exact forgets.next _ (inv.named c created)
  · rw [creates]
    exact inv.named
  · intro h slot' obj' live'
    obtain ⟨live', other⟩ := (forgets.live _ _ _).mp live'
    obtain ⟨agrees', member', unfreed'⟩ := inv.live h slot' obj' live'
    rw [creates, frees]
    refine ⟨agrees_other ends.on other agrees', member', fun freed => ?_⟩
    rcases List.mem_cons.mp freed with this | before
    · exact other this
    · exact unfreed' before
  · intro h dead
    by_cases this : h = handle
    · rw [this]
      exact ends.unheld obj agrees
    · refine dead_other ends.on this (inv.dead h fun slot' obj' live' => ?_)
      exact dead slot' obj' ((forgets.live _ _ _).mpr ⟨live', this⟩)
  · rw [creates, frees]
    intro c member
    rcases inv.known c member with before | ⟨slot', live'⟩
    · exact .inl (List.mem_cons_of_mem _ before)
    · by_cases this : c.1 = handle
      · obtain ⟨-, -, same⟩ := live.unique live' (by rw [this])
        refine .inl (List.mem_cons.mpr (.inl (Prod.ext this same)))
      · exact .inr ⟨slot', (forgets.live _ _ _).mpr ⟨live', this⟩⟩
  · rw [creates, frees]
    intro c freed
    rcases List.mem_cons.mp freed with rfl | before
    · exact member
    · exact inv.freedCreated c before
  · rw [frees, List.map_cons]
    exact List.nodup_cons.mpr ⟨unfreed, inv.freedOnce⟩
  · rw [creates]
    exact ownObject_cons inv.ownObject fun _ _ _ impossible => by cases impossible

theorem mint (inv : TableInvariant kind trace s) (nonzero : handle ≠ 0)
    (mints : Mints kind s s' handle obj) :
    TableInvariant kind ((.create obj, .minted handle) :: trace) s' := by
  have creates : created ((.create obj, .minted handle) :: trace) =
      (handle, obj) :: created trace :=
    List.filterMap_cons_some (if_neg nonzero)
  have frees : freed ((.create obj, .minted handle) :: trace) = freed trace := freed_none rfl
  have fresh : ∀ o, (handle, o) ∉ created trace := fun o member =>
    inv.ledger.fresh mints.unused (List.mem_map_of_mem member)
  have unborn : ∀ slot o, ¬Live s handle slot o := fun slot o live =>
    fresh o (inv.live handle slot o live).2.1
  have view : ∀ h, holders h ((.create obj, .minted handle) :: trace) = holders h trace ∧
      pinsOn h ((.create obj, .minted handle) :: trace) = pinsOn h trace := fun h => ⟨rfl, rfl⟩
  constructor
  · exact mints.ok
  · rw [creates, List.map_cons]
    refine inv.ledger.mint mints.unused (fun j g minted => ?_) mints.past
    obtain ⟨c, created, same⟩ := List.mem_map.mp minted
    obtain ⟨rfl, -⟩ := Prod.mk.inj same
    exact mints.next _ (inv.named c created)
  · rw [creates]
    intro c member
    rcases List.mem_cons.mp member with rfl | before
    · exact fun zero => mints.index (BitVec.eq_of_toNat_eq zero)
    · exact inv.named c before
  · intro h slot' obj' live'
    rw [creates, frees]
    rcases (mints.live _ _ _).mp live' with ⟨rfl, rfl, rfl⟩ | before
    · obtain ⟨noHolder, noPin⟩ := inv.dead h unborn
      refine ⟨⟨?_, ?_, ?_, rfl, fun impossible => by cases impossible⟩, List.mem_cons_self, ?_⟩
      · rw [(view h).1, noHolder]
        rfl
      · rw [(view h).2, noPin]
        rfl
      · exact if_pos rfl
      · intro freed
        obtain ⟨c, member, rfl⟩ := List.mem_map.mp freed
        exact fresh c.2 (inv.freedCreated c member)
    · obtain ⟨agrees, member, unfreed⟩ := inv.live h slot' obj' before
      refine ⟨⟨agrees.holders, agrees.pins, ?_, agrees.leases, agrees.held⟩,
        List.mem_cons_of_mem _ member, unfreed⟩
      refine Eq.trans (if_neg ?_) agrees.finished
      rintro rfl
      exact unborn _ _ before
  · intro h dead
    rw [(view h).1, (view h).2]
    exact inv.dead h fun slot' obj' live' => dead slot' obj' ((mints.live _ _ _).mpr (.inr live'))
  · rw [creates, frees]
    intro c member
    rcases List.mem_cons.mp member with rfl | before
    · exact .inr ⟨_, (mints.live _ _ _).mpr (.inl ⟨rfl, rfl, rfl⟩)⟩
    · refine (inv.known c before).imp_right ?_
      rintro ⟨slot', live'⟩
      exact ⟨slot', (mints.live _ _ _).mpr (.inr live')⟩
  · rw [creates, frees]
    exact fun c member => List.mem_cons_of_mem _ (inv.freedCreated c member)
  · rw [frees]
    exact inv.freedOnce
  · rw [creates]
    refine ownObject_cons (fun event member h o on sees => ?_) fun _ _ impossible => by
      cases impossible
    exact List.mem_cons_of_mem _ (inv.ownObject event member h o on sees)

theorem step (inv : TableInvariant kind trace s) (effect : TableEffect kind s op answer s') :
    TableInvariant kind ((op, answer) :: trace) s' := by
  cases effect with
  | mint nonzero mints => exact inv.mint nonzero mints
  | quiet nothing => exact inv.quiet nothing
  | update live changes sees => exact inv.update live changes sees
  | free live forgets ends => exact inv.free live forgets ends

theorem safe (inv : TableInvariant kind trace s) : TableSafe trace where
  mintedOnce := by
    have once := inv.ledger.once
    rw [← Function.comp_def (fun h : BitVec 64 => ((lowWord h).toNat, (highWord h).toNat)),
      ← List.map_map] at once
    exact once.of_map _
  oneHolder handle := by
    by_cases alive : ∃ slot obj, Live s handle slot obj
    · obtain ⟨slot, obj, live⟩ := alive
      rw [(inv.live handle slot obj live).1.holders]
      cases slot.active_owner <;> simp
    · simp only [not_exists] at alive
      rw [(inv.dead handle alive).1]
      exact Nat.zero_le 1
  freedOnce := inv.freedOnce
  freedCreated := inv.freedCreated
  freedUnheld c freed := by
    refine inv.dead c.1 fun slot obj live => ?_
    exact (inv.live c.1 slot obj live).2.2 (List.mem_map_of_mem freed)
  freedWhenDone c created finished unowned unpinned := by
    rcases inv.known c created with freed | ⟨slot, live⟩
    · exact freed
    · obtain ⟨agrees, -, -⟩ := inv.live c.1 slot c.2 live
      refine absurd ⟨?_, ?_⟩ (agrees.held (agrees.finished.symm.trans finished))
      · rw [agrees.leases, ← agrees.holders, unowned]
        rfl
      · exact Int.ofNat_eq_zero.mp (agrees.pins.symm.trans unpinned)
  ownObject := inv.ownObject

end TableInvariant

/-! ### Runs -/

/-- In every interleaving of the sections of any number of threads the handles of a Map or Set table
are safe, and every operation that the table offers has an answer. -/
theorem handle_table_safe (kind : ContainerKind) (T : Type) (trace : TableTrace T) (s : Table T)
    (run : (HandleTable kind T).Runs (fun _ _ => True) trace s) :
    TableSafe trace ∧ ∀ op, Offers kind op → ∃ answer s',
      (HandleTable kind T).step op s = some (answer, s') := by
  have inv : TableInvariant kind trace s := by
    refine run.invariant .start fun inv _ steps => inv.step ?_
    obtain ⟨answer, s', steps', effect⟩ := table_step inv.ok (step_offers steps)
    obtain ⟨rfl, rfl⟩ := Prod.mk.inj (Option.some.inj (steps.symm.trans steps'))
    exact effect
  refine ⟨inv.safe, fun op offers => ?_⟩
  obtain ⟨answer, s', steps, -⟩ := table_step inv.ok offers
  exact ⟨answer, s', steps⟩

/-- A Map is destroyed while a thread holds its lease; the release frees it. -/
theorem handle_table_safe_deferred :
    TableSafe (T := Nat)
      [(.release 3 0x100000001, .answer (.ok 0 (some 7))),
       (.finish_destroy 0x100000001, .answer (.ok 0 none)),
       (.begin_destroy 0x100000001, .answer (.ok 0 none)),
       (.acquire 3 0x100000001, .attempt (.leased 7)),
       (.create 7, .minted 0x100000001)] :=
  (handle_table_safe .map Nat _ _ (.step (.step (.step (.step (.step .init
    trivial rfl) trivial rfl) trivial rfl) trivial rfl) trivial rfl)).1

end Mimi.Runtime
