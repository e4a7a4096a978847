/-
Module: Mimi.Proofs.FlowSafety
Purpose: Packed Flow handles over runs of any length: consumed handles fail, live ones are distinct
  and read back their payload, as long as no slot is used twice and no tag comes round again.
Trusted boundary: none
-/
import Mimi.Runtime.Epoch
import Mimi.Lib.Ledger

namespace Mimi.Runtime

open Mimi.Lib

/-! ### What a trace says -/

/-- The calls of a run with their answers, most recent first. -/
abbrev FlowTrace := List (FlowOp × FlowAnswer)

/-- The handle was dropped, or replaced by a bump. -/
def Consumed (trace : FlowTrace) (handle : BitVec 64) : Prop :=
  ∃ answer, answer.last_error = EPOCH_OK ∧
    ((.bump_epoch handle, answer) ∈ trace ∨ (.drop handle, answer) ∈ trace)

/-- The packed values that were not dropped, with the handle that names each now and the payload it
was packed with. -/
def livePacked : FlowTrace → List (BitVec 64 × BitVec 64)
  | [] => []
  | (.pack payload, answer) :: older => (answer.value, payload) :: livePacked older
  | (.bump_epoch handle, answer) :: older =>
      if answer.last_error = EPOCH_OK then
        (livePacked older).map fun v => if v.1 = handle then (answer.value, v.2) else v
      else livePacked older
  | (.drop handle, answer) :: older =>
      if answer.last_error = EPOCH_OK then (livePacked older).filter fun v => v.1 ≠ handle
      else livePacked older
  | _ :: older => livePacked older

/-- No handle is resurrected. -/
structure FlowSafe (trace : FlowTrace) (s : FlowTable) : Prop where
  consumedFails : ∀ handle, Consumed trace handle → ∀ op answer s', op.handle = some handle →
    FlowMachine.step op s = some (answer, s') → answer.last_error ≠ EPOCH_OK
  distinct : ((livePacked trace).map Prod.fst).Nodup
  readsBack : ∀ v ∈ livePacked trace, mimi_flow_unpack v.1 s = ⟨v.2, EPOCH_OK⟩

/-! ### Handles -/

@[simp] theorem lowWord_pack (index : BitVec 32) (epoch : Nat) :
    lowWord (pack index epoch) = index := lowWord_packWord index _

@[simp] theorem highWord_pack (index : BitVec 32) (epoch : Nat) :
    highWord (pack index epoch) = BitVec.ofNat 32 epoch := highWord_packWord index _

/-- The handle names the live slot at its current epoch. -/
structure Names (s : FlowTable) (handle : BitVec 64) (slot : FlowSlot) : Prop where
  index : lowWord handle ≠ 0
  found : s.slots[(lowWord handle).toNat]? = some slot
  live : slot.live = true
  tag : BitVec.ofNat 32 slot.epoch = highWord handle

variable {trace : FlowTrace} {s s' : FlowTable} {handle : BitVec 64}

theorem lookup_eq_ok {r : BitVec 32 × FlowSlot} :
    lookup s handle = .ok r ↔ r.1 = lowWord handle ∧ Names s handle r.2 := by
  obtain ⟨index, slot⟩ := r
  by_cases zero : lowWord handle = 0
  · have fails : unpack handle = .error .invalid := by
      rw [unpack]
      split_ifs
      · rfl
      · exact if_pos zero
    rw [lookup, fails]
    constructor
    · intro impossible
      cases impossible
    · intro named
      exact absurd zero named.2.index
  · have nonzero : handle ≠ 0 := by
      rintro rfl
      exact zero rfl
    have splits : unpack handle = .ok (lowWord handle, highWord handle) := by
      rw [unpack, if_neg nonzero]
      exact if_neg zero
    rw [lookup, splits]
    dsimp only [bind, Except.bind]
    cases found : s.slots[(lowWord handle).toNat]? with
    | none =>
        simp only [reduceCtorEq, false_iff, not_and]
        intro _ named
        rw [named.found] at found
        cases found
    | some slot' =>
        have same : ∀ {slot}, Names s handle slot → slot' = slot := fun named =>
          Option.some.inj (found.symm.trans named.found)
        simp only
        split_ifs with dead tag
        · simp only [false_iff, not_and]
          intro _ named
          rw [same named, named.live] at dead
          cases dead
        · simp only [false_iff, not_and]
          intro _ named
          exact tag (same named ▸ named.tag)
        · simp only [Except.ok.injEq, Prod.mk.injEq]
          constructor
          · rintro ⟨rfl, rfl⟩
            exact ⟨rfl, zero, found, by simpa using dead, not_not.mp tag⟩
          · rintro ⟨rfl, named⟩
            exact ⟨rfl, same named⟩

theorem EpochError.code_ne_ok (e : EpochError) : e.code ≠ EPOCH_OK := by
  cases e <;> decide

variable {answer : FlowAnswer}

/-- A call on a handle that names nothing fails and leaves the table. -/
theorem step_fails (unnamed : ∀ slot, ¬Names s handle slot) {op : FlowOp}
    (on : op.handle = some handle) (steps : FlowMachine.step op s = some (answer, s')) :
    answer.last_error ≠ EPOCH_OK ∧ s' = s := by
  have missing : ∃ e, lookup s handle = .error e := by
    cases looked : lookup s handle with
    | error e => exact ⟨e, rfl⟩
    | ok r => exact absurd (lookup_eq_ok.mp looked).2 (unnamed r.2)
  obtain ⟨e, missing⟩ := missing
  cases op with
  | pack payload => cases on
  | epoch h =>
      obtain rfl := Option.some.inj on
      simp only [FlowMachine.step, mimi_flow_epoch, missing, Option.some.injEq,
        Prod.mk.injEq] at steps
      obtain ⟨rfl, rfl⟩ := steps
      exact ⟨e.code_ne_ok, rfl⟩
  | check_epoch h expected =>
      obtain rfl := Option.some.inj on
      simp only [FlowMachine.step, mimi_flow_check_epoch, missing, Option.some.injEq,
        Prod.mk.injEq] at steps
      obtain ⟨rfl, rfl⟩ := steps
      exact ⟨e.code_ne_ok, rfl⟩
  | bump_epoch h =>
      obtain rfl := Option.some.inj on
      simp only [FlowMachine.step, mimi_flow_bump_epoch, missing, Option.some.injEq,
        Prod.mk.injEq] at steps
      obtain ⟨rfl, rfl⟩ := steps
      exact ⟨e.code_ne_ok, rfl⟩
  | unpack h =>
      obtain rfl := Option.some.inj on
      simp only [FlowMachine.step, mimi_flow_unpack, missing, Option.some.injEq,
        Prod.mk.injEq] at steps
      obtain ⟨rfl, rfl⟩ := steps
      exact ⟨e.code_ne_ok, rfl⟩
  | drop h =>
      obtain rfl := Option.some.inj on
      simp only [FlowMachine.step, mimi_flow_drop, missing, Option.some.injEq,
        Prod.mk.injEq] at steps
      obtain ⟨rfl, rfl⟩ := steps
      exact ⟨e.code_ne_ok, rfl⟩

/-! ### What a step does -/

/-- A pack takes a new slot that its index can name, and a bump takes a tag that its slot did not
have before. -/
def UsesNewTags : FlowOp → FlowTable → Prop
  | .pack _, s => s.free = [] ∧ s.slots.length < 4294967296
  | .bump_epoch handle, s => ∀ index slot, lookup s handle = .ok (index, slot) →
      slot.epoch < 4294967296
  | _, _ => True

/-- A call that reads only, or one that failed. -/
def FlowQuiet : FlowOp → FlowAnswer → Prop
  | .pack _, _ => False
  | .bump_epoch _, answer => answer.last_error ≠ EPOCH_OK
  | .drop _, answer => answer.last_error ≠ EPOCH_OK
  | _, _ => True

/-- The ways a call ends that uses new tags. -/
inductive FlowEffect (s : FlowTable) : FlowOp → FlowAnswer → FlowTable → Prop where
  | pack {payload : BitVec 64} (room : s.slots.length < 4294967296) :
      FlowEffect s (.pack payload) ⟨pack (BitVec.ofNat 32 s.slots.length) EPOCH_INITIAL, EPOCH_OK⟩
        { s with slots := s.slots ++ [⟨EPOCH_INITIAL, payload, true⟩] }
  | bump {handle : BitVec 64} {slot : FlowSlot} (named : Names s handle slot)
      (room : slot.epoch < 4294967296) :
      FlowEffect s (.bump_epoch handle) ⟨Runtime.pack (lowWord handle) (slot.epoch + 1), EPOCH_OK⟩
        (s.setSlot (lowWord handle).toNat { slot with epoch := slot.epoch + 1 })
  | drop {handle : BitVec 64} {slot : FlowSlot} (named : Names s handle slot) :
      FlowEffect s (.drop handle) ⟨0, EPOCH_OK⟩
        { s.setSlot (lowWord handle).toNat ⟨saturatingSucc slot.epoch, 0, false⟩ with
          free := lowWord handle :: s.free }
  | quiet {op : FlowOp} {answer : FlowAnswer} (nothing : FlowQuiet op answer) :
      FlowEffect s op answer s

theorem flow_step_effect {op : FlowOp} (may : UsesNewTags op s)
    (steps : FlowMachine.step op s = some (answer, s')) : FlowEffect s op answer s' := by
  cases op with
  | pack payload =>
      obtain ⟨slots, free⟩ := s
      obtain ⟨rfl, room⟩ : free = [] ∧ slots.length < 4294967296 := may
      have index : (BitVec.ofNat 32 slots.length).toNat = slots.length := by
        rw [BitVec.toNat_ofNat]
        exact Nat.mod_eq_of_lt room
      simp only [FlowMachine.step, mimi_flow_pack, takeSlot, index,
        List.getElem?_concat_length, Option.some.injEq, Prod.mk.injEq, FlowTable.setSlot,
        List.set_append_right _ _ (Nat.le_refl _), Nat.sub_self, List.set_cons_zero] at steps
      obtain ⟨rfl, rfl⟩ := steps
      exact .pack room
  | bump_epoch h =>
      simp only [FlowMachine.step, mimi_flow_bump_epoch] at steps
      cases looked : lookup s h with
      | error e =>
          simp only [looked, Option.some.injEq, Prod.mk.injEq] at steps
          obtain ⟨rfl, rfl⟩ := steps
          exact .quiet e.code_ne_ok
      | ok r =>
          obtain ⟨index, slot⟩ := r
          obtain ⟨rfl, named⟩ := lookup_eq_ok.mp looked
          have room := may _ slot looked
          have grows : saturatingSucc slot.epoch = slot.epoch + 1 := by
            rw [saturatingSucc]
            omega
          simp only [looked, grows, Option.some.injEq, Prod.mk.injEq] at steps
          obtain ⟨rfl, rfl⟩ := steps
          exact .bump named room
  | drop h =>
      simp only [FlowMachine.step, mimi_flow_drop] at steps
      cases looked : lookup s h with
      | error e =>
          simp only [looked, Option.some.injEq, Prod.mk.injEq] at steps
          obtain ⟨rfl, rfl⟩ := steps
          exact .quiet e.code_ne_ok
      | ok r =>
          obtain ⟨index, slot⟩ := r
          obtain ⟨rfl, named⟩ := lookup_eq_ok.mp looked
          simp only [looked, Option.some.injEq, Prod.mk.injEq] at steps
          obtain ⟨rfl, rfl⟩ := steps
          exact .drop named
  | epoch h =>
      obtain ⟨-, rfl⟩ := Prod.mk.inj (Option.some.inj steps)
      exact .quiet trivial
  | check_epoch h expected =>
      obtain ⟨-, rfl⟩ := Prod.mk.inj (Option.some.inj steps)
      exact .quiet trivial
  | unpack h =>
      obtain ⟨-, rfl⟩ := Prod.mk.inj (Option.some.inj steps)
      exact .quiet trivial

theorem livePacked_quiet {op : FlowOp} (nothing : FlowQuiet op answer) :
    livePacked ((op, answer) :: trace) = livePacked trace := by
  cases op with
  | pack payload => exact absurd nothing id
  | bump_epoch h => exact if_neg nothing
  | drop h => exact if_neg nothing
  | _ => rfl

theorem consumed_quiet {op : FlowOp} (nothing : FlowQuiet op answer)
    (consumed : Consumed ((op, answer) :: trace) handle) : Consumed trace handle := by
  obtain ⟨answer', fine, bumped | dropped⟩ := consumed
  · rcases List.mem_cons.mp bumped with now | earlier
    · obtain ⟨rfl, rfl⟩ := Prod.mk.inj now
      exact absurd fine nothing
    · exact ⟨answer', fine, .inl earlier⟩
  · rcases List.mem_cons.mp dropped with now | earlier
    · obtain ⟨rfl, rfl⟩ := Prod.mk.inj now
      exact absurd fine nothing
    · exact ⟨answer', fine, .inr earlier⟩

/-- What a call newly consumes is the handle it was made on. -/
theorem consumed_cons {op : FlowOp} (consumed : Consumed ((op, answer) :: trace) handle) :
    op.handle = some handle ∨ Consumed trace handle := by
  obtain ⟨answer', fine, bumped | dropped⟩ := consumed
  · rcases List.mem_cons.mp bumped with now | earlier
    · obtain ⟨rfl, rfl⟩ := Prod.mk.inj now
      exact .inl rfl
    · exact .inr ⟨answer', fine, .inl earlier⟩
  · rcases List.mem_cons.mp dropped with now | earlier
    · obtain ⟨rfl, rfl⟩ := Prod.mk.inj now
      exact .inl rfl
    · exact .inr ⟨answer', fine, .inr earlier⟩

/-! ### The invariant -/

theorem FlowTable.getElem?_setSlot {index : Nat} {old new : FlowSlot} (found : s.slots[index]? = some old)
    (j : Nat) : (s.setSlot index new).slots[j]? = if j = index then some new else s.slots[j]? :=
  getElem?_set_found new found j

/-- The tag of the handle is one that a slot had before. -/
def Passed (handle : BitVec 64) (slot : FlowSlot) : Prop :=
  slot.live = true → ∃ epoch, 1 ≤ epoch ∧ epoch < slot.epoch ∧
    BitVec.ofNat 32 epoch = highWord handle

/-- The trace agrees with the slots. -/
structure FlowInvariant (trace : FlowTrace) (s : FlowTable) : Prop where
  reserved : 1 ≤ s.slots.length
  epochs : ∀ (index : Nat) slot, s.slots[index]? = some slot → slot.live = true →
    1 ≤ slot.epoch ∧ slot.epoch ≤ 4294967296
  spent : ∀ handle, Consumed trace handle →
    ∃ slot, s.slots[(lowWord handle).toNat]? = some slot ∧ Passed handle slot
  held : ∀ v ∈ livePacked trace, ∃ slot, Names s v.1 slot ∧ slot.payload = v.2
  apart : ((livePacked trace).map fun v => lowWord v.1).Nodup

namespace FlowInvariant

theorem start : FlowInvariant [] .new where
  reserved := by simp [FlowTable.new]
  epochs index slot found live := by
    cases index with
    | zero =>
        obtain rfl := Option.some.inj found
        cases live
    | succ index => simp [FlowTable.new] at found
  spent handle consumed := by
    obtain ⟨answer, -, member | member⟩ := consumed
    · exact absurd member List.not_mem_nil
    · exact absurd member List.not_mem_nil
  held v member := absurd member List.not_mem_nil
  apart := List.nodup_nil

theorem quiet {op : FlowOp} (inv : FlowInvariant trace s)
    (nothing : FlowQuiet op answer) : FlowInvariant ((op, answer) :: trace) s where
  reserved := inv.reserved
  epochs := inv.epochs
  spent handle consumed := inv.spent handle (consumed_quiet nothing consumed)
  held := by
    rw [livePacked_quiet nothing]
    exact inv.held
  apart := by
    rw [livePacked_quiet nothing]
    exact inv.apart

/-- A new slot is beyond everything that was named before. -/
theorem pack {payload : BitVec 64} (inv : FlowInvariant trace s)
    (room : s.slots.length < 4294967296) :
    FlowInvariant
      ((.pack payload,
        ⟨pack (BitVec.ofNat 32 s.slots.length) EPOCH_INITIAL, EPOCH_OK⟩) :: trace)
      { s with slots := s.slots ++ [⟨EPOCH_INITIAL, payload, true⟩] } := by
  have index : (BitVec.ofNat 32 s.slots.length).toNat = s.slots.length := by
    rw [BitVec.toNat_ofNat]
    exact Nat.mod_eq_of_lt room
  have kept : ∀ (j : Nat) slot, s.slots[j]? = some slot →
      (s.slots ++ [⟨EPOCH_INITIAL, payload, true⟩])[j]? = some slot := by
    intro j slot found
    rw [List.getElem?_append_left (List.getElem?_eq_some_iff.mp found).1, found]
  constructor
  · simp
  · intro j slot found live
    rcases List.mem_append.mp (List.mem_of_getElem? found) with before | new
    · obtain ⟨i, found'⟩ := List.mem_iff_getElem?.mp before
      exact inv.epochs i slot found' live
    · obtain rfl := List.mem_singleton.mp new
      exact ⟨Nat.le_refl _, Nat.le_of_ble_eq_true rfl⟩
  · intro handle consumed
    rcases consumed_cons consumed with now | earlier
    · cases now
    · obtain ⟨slot, found, passed⟩ := inv.spent handle earlier
      exact ⟨slot, kept _ slot found, passed⟩
  · intro v member
    rcases List.mem_cons.mp member with rfl | before
    · refine ⟨⟨EPOCH_INITIAL, payload, true⟩, ⟨?_, ?_, rfl, (highWord_pack _ _).symm⟩, rfl⟩
      · rw [lowWord_pack]
        intro zero
        have reserved := inv.reserved
        rw [← index, zero] at reserved
        exact absurd reserved (by decide)
      · rw [lowWord_pack, index]
        exact List.getElem?_concat_length
    · obtain ⟨slot, named, payloads⟩ := inv.held v before
      exact ⟨slot, ⟨named.index, kept _ slot named.found, named.live, named.tag⟩, payloads⟩
  · refine List.nodup_cons.mpr ⟨fun member => ?_, inv.apart⟩
    obtain ⟨v, before, same⟩ := List.mem_map.mp member
    obtain ⟨slot, named, -⟩ := inv.held v before
    have inside := (List.getElem?_eq_some_iff.mp named.found).1
    rw [same.trans (lowWord_pack _ _), index] at inside
    exact Nat.lt_irrefl _ inside

/-- The packed value of a slot is the one whose handle names the slot. -/
theorem only (inv : FlowInvariant trace s) {slot : FlowSlot} (named : Names s handle slot)
    {v : BitVec 64 × BitVec 64} (member : v ∈ livePacked trace) :
    v.1 = handle ↔ (lowWord v.1).toNat = (lowWord handle).toNat := by
  constructor
  · intro same
    rw [same]
  · intro same
    obtain ⟨slot', named', -⟩ := inv.held v member
    have found := named'.found
    rw [same, named.found] at found
    obtain rfl := Option.some.inj found
    exact packWord_ext (BitVec.eq_of_toNat_eq same) (named'.tag.symm.trans named.tag)

/-- A bump moves the slot to a later epoch, and renames its packed value. -/
theorem bump {slot : FlowSlot} (inv : FlowInvariant trace s) (named : Names s handle slot)
    (room : slot.epoch < 4294967296) :
    FlowInvariant
      ((.bump_epoch handle, ⟨Runtime.pack (lowWord handle) (slot.epoch + 1), EPOCH_OK⟩) :: trace)
      (s.setSlot (lowWord handle).toNat { slot with epoch := slot.epoch + 1 }) := by
  have slots : ∀ j : Nat, (s.setSlot (lowWord handle).toNat
      { slot with epoch := slot.epoch + 1 }).slots[j]? = _ := FlowTable.getElem?_setSlot named.found
  have bounds := inv.epochs _ slot named.found named.live
  have renamed : livePacked ((.bump_epoch handle,
      ⟨Runtime.pack (lowWord handle) (slot.epoch + 1), EPOCH_OK⟩) :: trace) =
        (livePacked trace).map fun v =>
          if v.1 = handle then (Runtime.pack (lowWord handle) (slot.epoch + 1), v.2) else v :=
    if_pos rfl
  constructor
  · simpa [FlowTable.setSlot] using inv.reserved
  · intro j slot' found live
    rw [slots] at found
    split_ifs at found with here
    · obtain rfl := Option.some.inj found
      exact ⟨Nat.le_add_left 1 _, room⟩
    · exact inv.epochs j slot' found live
  · intro h consumed
    rcases consumed_cons consumed with now | earlier
    · obtain rfl := Option.some.inj now
      refine ⟨_, (slots _).trans (if_pos rfl), fun _ => ?_⟩
      exact ⟨slot.epoch, bounds.1, Nat.lt_succ_self _, named.tag⟩
    · obtain ⟨slot', found, passed⟩ := inv.spent h earlier
      by_cases here : (lowWord h).toNat = (lowWord handle).toNat
      · rw [here, named.found] at found
        obtain rfl := Option.some.inj found
        refine ⟨_, (slots _).trans (if_pos here), fun live => ?_⟩
        obtain ⟨epoch, positive, less, tag⟩ := passed live
        exact ⟨epoch, positive, Nat.lt_succ_of_lt less, tag⟩
      · exact ⟨slot', ((slots _).trans (if_neg here)).trans found, passed⟩
  · intro w member
    rw [renamed] at member
    obtain ⟨v, before, rfl⟩ := List.mem_map.mp member
    obtain ⟨slot', named', payloads⟩ := inv.held v before
    split_ifs with this
    · rw [this] at named'
      obtain rfl := Option.some.inj (named.found.symm.trans named'.found)
      refine ⟨{ slot with epoch := slot.epoch + 1 }, ⟨?_, ?_, named.live, ?_⟩, payloads⟩
      · rw [lowWord_pack]
        exact named.index
      · rw [lowWord_pack]
        exact (slots _).trans (if_pos rfl)
      · rw [highWord_pack]
    · have elsewhere := fun same => this ((inv.only named before).mpr same)
      exact ⟨slot', ⟨named'.index, ((slots _).trans (if_neg elsewhere)).trans named'.found,
        named'.live, named'.tag⟩, payloads⟩
  · rw [renamed, List.map_map]
    have same : (livePacked trace).map ((fun v => lowWord v.1) ∘ fun v =>
        if v.1 = handle then (Runtime.pack (lowWord handle) (slot.epoch + 1), v.2) else v) =
          (livePacked trace).map fun v => lowWord v.1 := by
      refine List.map_congr_left fun v _ => ?_
      simp only [Function.comp_apply]
      split_ifs with this
      · rw [lowWord_pack, this]
      · rfl
    rw [same]
    exact inv.apart

/-- A drop leaves a dead slot. -/
theorem drop {slot : FlowSlot} (inv : FlowInvariant trace s) (named : Names s handle slot) :
    FlowInvariant ((.drop handle, ⟨0, EPOCH_OK⟩) :: trace)
      { s.setSlot (lowWord handle).toNat ⟨saturatingSucc slot.epoch, 0, false⟩ with
        free := lowWord handle :: s.free } := by
  have slots : ∀ j : Nat, (s.setSlot (lowWord handle).toNat
      ⟨saturatingSucc slot.epoch, 0, false⟩).slots[j]? = _ := FlowTable.getElem?_setSlot named.found
  have dropped : livePacked ((.drop handle, ⟨0, EPOCH_OK⟩) :: trace) =
      (livePacked trace).filter fun v => v.1 ≠ handle := if_pos rfl
  constructor
  · simpa [FlowTable.setSlot] using inv.reserved
  · intro j slot' found live
    rw [slots] at found
    split_ifs at found with here
    · obtain rfl := Option.some.inj found
      cases live
    · exact inv.epochs j slot' found live
  · intro h consumed
    by_cases here : (lowWord h).toNat = (lowWord handle).toNat
    · exact ⟨_, (slots _).trans (if_pos here), fun live => by cases live⟩
    · rcases consumed_cons consumed with now | earlier
      · obtain rfl := Option.some.inj now
        exact absurd rfl here
      · obtain ⟨slot', found, passed⟩ := inv.spent h earlier
        exact ⟨slot', ((slots _).trans (if_neg here)).trans found, passed⟩
  · intro v member
    rw [dropped] at member
    obtain ⟨before, other⟩ := List.mem_filter.mp member
    have elsewhere := fun same =>
      (of_decide_eq_true other) ((inv.only named before).mpr same)
    obtain ⟨slot', named', payloads⟩ := inv.held v before
    exact ⟨slot', ⟨named'.index, ((slots _).trans (if_neg elsewhere)).trans named'.found,
      named'.live, named'.tag⟩, payloads⟩
  · rw [dropped]
    exact inv.apart.sublist (List.filter_sublist.map _)

theorem step {op : FlowOp} (inv : FlowInvariant trace s)
    (effect : FlowEffect s op answer s') : FlowInvariant ((op, answer) :: trace) s' := by
  cases effect with
  | pack room => exact inv.pack room
  | bump named room => exact inv.bump named room
  | drop named => exact inv.drop named
  | quiet nothing => exact inv.quiet nothing

/-- Epochs up to 2^32 have different tags, so a consumed handle names nothing. -/
theorem unnamed (inv : FlowInvariant trace s) (consumed : Consumed trace handle)
    (slot : FlowSlot) : ¬Names s handle slot := by
  intro named
  obtain ⟨slot', found, passed⟩ := inv.spent handle consumed
  obtain rfl := Option.some.inj (named.found.symm.trans found)
  obtain ⟨epoch, positive, less, tag⟩ := passed named.live
  obtain ⟨-, bound⟩ := inv.epochs _ slot named.found named.live
  have same := congrArg BitVec.toNat (tag.trans named.tag.symm)
  simp only [BitVec.toNat_ofNat] at same
  omega

theorem safe (inv : FlowInvariant trace s) : FlowSafe trace s where
  consumedFails handle consumed op answer s' on steps :=
    (step_fails (inv.unnamed consumed) on steps).1
  distinct := by
    have apart := inv.apart
    rw [← Function.comp_def lowWord, ← List.map_map] at apart
    exact apart.of_map lowWord
  readsBack v member := by
    obtain ⟨slot, named, payloads⟩ := inv.held v member
    have looked : lookup s v.1 = .ok (lowWord v.1, slot) := lookup_eq_ok.mpr ⟨rfl, named⟩
    rw [mimi_flow_unpack, looked]
    exact congrArg (FlowAnswer.mk · EPOCH_OK) payloads

end FlowInvariant

/-! ### Runs -/

/-- As long as every pack takes a new slot and no slot comes back to a tag it had, consumed handles
fail for good and the live ones are distinct and read back their payload. -/
theorem packed_handles_safe (trace : FlowTrace) (s : FlowTable)
    (run : FlowMachine.Runs UsesNewTags trace s) : FlowSafe trace s := by
  have inv : FlowInvariant trace s :=
    run.invariant .start fun inv may steps => inv.step (flow_step_effect may steps)
  exact inv.safe

theorem packed_handles_safe_bump :
    FlowSafe
      [(.drop 0x200000001, ⟨0, EPOCH_OK⟩), (.bump_epoch 0x100000001, ⟨0x200000001, EPOCH_OK⟩),
        (.pack 8, ⟨0x100000002, EPOCH_OK⟩), (.pack 7, ⟨0x100000001, EPOCH_OK⟩)]
      ⟨[⟨0, 0, false⟩, ⟨3, 0, false⟩, ⟨1, 8, true⟩], [1]⟩ := by
  apply packed_handles_safe
  refine .step (.step (.step (.step .init ?_ rfl) ?_ rfl) ?_ rfl) ?_ rfl
  · exact ⟨rfl, by decide⟩
  · exact ⟨rfl, by decide⟩
  · intro index slot looked
    cases looked
    decide
  · trivial

/-- A pack after a drop mints the dropped handle again, which then reads the new payload. -/
theorem dropped_handle_resurrected :
    ¬∀ (trace : FlowTrace) (s : FlowTable),
      FlowMachine.Runs (fun _ _ => True) trace s → FlowSafe trace s := by
  intro always
  have run : FlowMachine.Runs (fun _ _ => True)
      [(.pack 8, ⟨0x100000001, EPOCH_OK⟩), (.drop 0x100000001, ⟨0, EPOCH_OK⟩),
        (.pack 7, ⟨0x100000001, EPOCH_OK⟩)]
      ⟨[⟨0, 0, false⟩, ⟨1, 8, true⟩], []⟩ :=
    .step (.step (.step .init trivial rfl) trivial rfl) trivial rfl
  refine (always _ _ run).consumedFails 0x100000001 ?_ (.unpack 0x100000001) ⟨8, EPOCH_OK⟩ _ rfl rfl
    rfl
  exact ⟨⟨0, EPOCH_OK⟩, rfl, .inr (List.mem_cons_of_mem _ List.mem_cons_self)⟩

end Mimi.Runtime
