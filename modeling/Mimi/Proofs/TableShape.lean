/-
Module: Mimi.Proofs.TableShape
Purpose: The shape that the Map and Set handle tables keep, and what writing a slot, freeing an
  object, compacting and minting do to the handles that are live and to the generations still unused.
Trusted boundary: none
-/
import Mimi.Runtime.Handle
import Mimi.Lib.Ledger

namespace Mimi.Runtime

open Mimi.Lib

variable {T : Type}

variable {kind : ContainerKind} {s s' : Table T} {handle : BitVec 64} {slot : Slot T} {obj : T}

/-- The handle is the one of the object in the slot. -/
structure Live (s : Table T) (handle : BitVec 64) (slot : Slot T) (obj : T) : Prop where
  index : lowWord handle ≠ 0
  found : s.slots[(lowWord handle).toNat]? = some slot
  generation : slot.generation = (highWord handle).toNat
  holds : slot.obj = some obj

/-- Generations of the index from here on have not been minted. -/
def Slot.next (slot : Slot T) : Nat :=
  if slot.obj.isSome || slot.retired then slot.generation + 1 else slot.generation

def nextGeneration (s : Table T) (index : Nat) : Nat :=
  (s.slots[index]?).elim s.generation_floor Slot.next

/-- The slots, the free list and the floor fit together. -/
structure TableOk (kind : ContainerKind) (s : Table T) : Prop where
  size : s.slots.length ≤ 4294967296
  floor : s.generation_floor ≤ lastGeneration
  generations : ∀ (index : Nat) slot, s.slots[index]? = some slot →
    slot.generation ≤ lastGeneration
  reserved : ∀ slot, s.slots[0]? = some slot → slot.obj = none ∧ slot.retired = true
  freeOnce : s.free.Nodup
  freeVacant : ∀ index ∈ s.free,
    ∃ slot, s.slots[index]? = some slot ∧ slot.obj = none ∧ slot.retired = false
  vacant : ∀ (index : Nat) slot, s.slots[index]? = some slot → slot.obj = none →
    slot.active_owner = none ∧ slot.pins = 0
  raised : kind = .map → ∀ (index : Nat) slot, s.slots[index]? = some slot → slot.obj = none →
    slot.retired = false → slot.generation ≤ s.generation_floor

variable {index : Nat}

theorem Table.getElem?_setSlot {old new : Slot T} (found : s.slots[index]? = some old)
    (j : Nat) : (s.setSlot index new).slots[j]? = if j = index then some new else s.slots[j]? :=
  getElem?_set_found new found j

theorem slotOf_eq_ok {r : Nat × Slot T} :
    slotOf s handle = .ok r ↔ lowWord handle ≠ 0 ∧ r.1 = (lowWord handle).toNat ∧
      s.slots[(lowWord handle).toNat]? = some r.2 ∧ r.2.generation = (highWord handle).toNat := by
  obtain ⟨index, slot⟩ := r
  by_cases zero : lowWord handle = 0
  · have fails : unpackHandle handle = .error .invalid := by
      rw [unpackHandle]
      split_ifs
      · rfl
      · exact if_pos zero
    rw [slotOf, fails]
    constructor
    · intro impossible
      cases impossible
    · intro named
      exact absurd zero named.1
  · have nonzero : handle ≠ 0 := by
      rintro rfl
      exact zero rfl
    have splits : unpackHandle handle = .ok ((lowWord handle).toNat, (highWord handle).toNat) := by
      rw [unpackHandle, if_neg nonzero]
      exact if_neg zero
    rw [slotOf, splits]
    dsimp only [bind, Except.bind]
    cases found : s.slots[(lowWord handle).toNat]? with
    | none =>
        simp only [reduceCtorEq, false_iff, not_and, false_and]
        exact fun _ _ impossible => impossible
    | some slot' =>
        simp only [Option.some.injEq]
        split_ifs with generation
        · simp only [false_iff, not_and]
          rintro - - rfl same
          exact generation same
        · simp only [Except.ok.injEq, Prod.mk.injEq]
          constructor
          · rintro ⟨rfl, rfl⟩
            exact ⟨zero, rfl, rfl, not_not.mp generation⟩
          · rintro ⟨-, rfl, rfl, -⟩
            exact ⟨rfl, rfl⟩

theorem Live.slotOf_eq (live : Live s handle slot obj) :
    slotOf s handle = .ok ((lowWord handle).toNat, slot) :=
  slotOf_eq_ok.mpr ⟨live.index, rfl, live.found, live.generation⟩

/-- A named slot with an object in it is live. -/
theorem live_of_slotOf (named : slotOf s handle = .ok (index, slot))
    (holds : slot.obj = some obj) : index = (lowWord handle).toNat ∧ Live s handle slot obj := by
  obtain ⟨nonzero, same, found, generation⟩ := slotOf_eq_ok.mp named
  exact ⟨same, nonzero, found, generation, holds⟩

/-- One handle names the object of a slot. -/
theorem Live.unique {slot' : Slot T} {obj' : T} {handle' : BitVec 64}
    (live : Live s handle slot obj) (live' : Live s handle' slot' obj')
    (same : (lowWord handle').toNat = (lowWord handle).toNat) :
    handle' = handle ∧ slot' = slot ∧ obj' = obj := by
  have found := live'.found
  rw [same, live.found] at found
  obtain rfl := Option.some.inj found
  have objs := live.holds.symm.trans live'.holds
  refine ⟨packWord_ext (BitVec.eq_of_toNat_eq same) (BitVec.eq_of_toNat_eq ?_), rfl,
    (Option.some.inj objs).symm⟩
  exact live'.generation.symm.trans live.generation

/-! ### Writing, vacating and compacting -/

/-- From one table to another, the handles in `gone` stop being live and nothing is minted. -/
structure Forgets (kind : ContainerKind) (s s' : Table T) (gone : BitVec 64 → Prop) : Prop where
  ok : TableOk kind s'
  live : ∀ h slot obj, Live s' h slot obj ↔ Live s h slot obj ∧ ¬gone h
  next : ∀ index, index ≠ 0 → nextGeneration s index ≤ nextGeneration s' index

theorem Live.index_ne (live : Live s handle slot obj) : (lowWord handle).toNat ≠ 0 :=
  fun zero => live.index (BitVec.eq_of_toNat_eq zero)

theorem Slot.next_of_obj (holds : slot.obj = some obj) : slot.next = slot.generation + 1 := by
  rw [Slot.next, holds]
  rfl

theorem nextGeneration_found (found : s.slots[index]? = some slot) :
    nextGeneration s index = slot.next := by
  rw [nextGeneration, found, Option.elim_some]

/-- Writing a slot that keeps its generation and its object. -/
theorem live_setSlot {new : Slot T} (live : Live s handle slot obj)
    (generation : new.generation = slot.generation) (holds : new.obj = slot.obj) {h : BitVec 64}
    {slot' : Slot T} {obj' : T} :
    Live (s.setSlot (lowWord handle).toNat new) h slot' obj' ↔
      (h = handle ∧ slot' = new ∧ obj' = obj) ∨ (h ≠ handle ∧ Live s h slot' obj') := by
  have slots : ∀ j : Nat, (s.setSlot (lowWord handle).toNat new).slots[j]? = _ :=
    Table.getElem?_setSlot live.found
  have written : Live (s.setSlot (lowWord handle).toNat new) handle new obj :=
    ⟨live.index, (slots _).trans (if_pos rfl), generation.trans live.generation,
      holds.trans live.holds⟩
  constructor
  · intro live'
    by_cases here : (lowWord h).toNat = (lowWord handle).toNat
    · exact .inl (written.unique live' here)
    · refine .inr ⟨fun same => here (by rw [same]), live'.index, ?_, live'.generation,
        live'.holds⟩
      exact ((slots _).trans (if_neg here)).symm.trans live'.found
  · rintro (⟨rfl, rfl, rfl⟩ | ⟨other, live'⟩)
    · exact written
    · refine ⟨live'.index, ?_, live'.generation, live'.holds⟩
      rw [slots, if_neg fun here => other (live.unique live' here).1]
      exact live'.found

theorem nextGeneration_setSlot {new : Slot T} (live : Live s handle slot obj)
    (generation : new.generation = slot.generation) (holds : new.obj = slot.obj) (index : Nat) :
    nextGeneration (s.setSlot (lowWord handle).toNat new) index = nextGeneration s index := by
  rw [nextGeneration, Table.getElem?_setSlot live.found]
  split_ifs with here
  · rw [here, nextGeneration_found live.found, Slot.next_of_obj live.holds, Option.elim_some,
      Slot.next_of_obj (holds.trans live.holds), generation]
  · rfl

theorem TableOk.setSlot {new : Slot T} (ok : TableOk kind s) (live : Live s handle slot obj)
    (generation : new.generation = slot.generation) (holds : new.obj = slot.obj) :
    TableOk kind (s.setSlot (lowWord handle).toNat new) := by
  have slots : ∀ j : Nat, (s.setSlot (lowWord handle).toNat new).slots[j]? = _ :=
    Table.getElem?_setSlot live.found
  have occupied : new.obj ≠ none := by
    rw [holds, live.holds]
    exact Option.some_ne_none obj
  constructor
  · simpa [Table.setSlot] using ok.size
  · exact ok.floor
  · intro j slot' found
    rw [slots] at found
    split_ifs at found with here
    · obtain rfl := Option.some.inj found
      exact generation ▸ ok.generations _ slot live.found
    · exact ok.generations j slot' found
  · intro slot' found
    rw [slots, if_neg (Ne.symm live.index_ne)] at found
    exact ok.reserved slot' found
  · exact ok.freeOnce
  · intro j member
    obtain ⟨slot', found, empty, fresh⟩ := ok.freeVacant j member
    refine ⟨slot', (slots j).trans ?_, empty, fresh⟩
    rw [if_neg, found]
    rintro rfl
    rw [live.found] at found
    obtain rfl := Option.some.inj found
    rw [live.holds] at empty
    cases empty
  · intro j slot' found empty
    rw [slots] at found
    split_ifs at found with here
    · obtain rfl := Option.some.inj found
      exact absurd empty occupied
    · exact ok.vacant j slot' found empty
  · intro map j slot' found empty
    rw [slots] at found
    split_ifs at found with here
    · obtain rfl := Option.some.inj found
      exact absurd empty occupied
    · exact ok.raised map j slot' found empty

/-- A slot is emptied: it is ready for its next generation, or retired for good. -/
theorem Forgets.vacate {free : List Nat} (new : Slot T) (floor : Nat) (exhausted : Bool)
    (ok : TableOk kind s) (live : Live s handle slot obj)
    (empty : new.obj = none ∧ new.active_owner = none ∧ new.pins = 0)
    (ends : (free = (lowWord handle).toNat :: s.free ∧ new.retired = false ∧
        new.generation = slot.generation + 1 ∧ slot.generation + 1 ≤ lastGeneration) ∨
      (free = s.free ∧ new.retired = true ∧ new.generation = slot.generation))
    (floors : s.generation_floor ≤ floor ∧ floor ≤ lastGeneration)
    (raised : kind = .map → new.retired = false → new.generation ≤ floor) :
    Forgets kind s ⟨(s.setSlot (lowWord handle).toNat new).slots, free, floor, exhausted⟩
      (· = handle) := by
  have slots : ∀ j : Nat, (s.setSlot (lowWord handle).toNat new).slots[j]? = _ :=
    Table.getElem?_setSlot live.found
  obtain ⟨noObj, noOwner, noPins⟩ := empty
  have noLonger : (lowWord handle).toNat ∉ s.free := by
    intro member
    obtain ⟨slot', found, vacant, -⟩ := ok.freeVacant _ member
    rw [live.found] at found
    obtain rfl := Option.some.inj found
    rw [live.holds] at vacant
    cases vacant
  constructor
  · constructor
    · simpa [Table.setSlot] using ok.size
    · exact floors.2
    · intro j slot' found
      change (s.setSlot _ new).slots[j]? = _ at found
      rw [slots] at found
      split_ifs at found with here
      · obtain rfl := Option.some.inj found
        rcases ends with ⟨-, -, same, bound⟩ | ⟨-, -, same⟩
        · exact same ▸ bound
        · exact same ▸ ok.generations _ slot live.found
      · exact ok.generations j slot' found
    · intro slot' found
      change (s.setSlot _ new).slots[0]? = _ at found
      rw [slots, if_neg (Ne.symm live.index_ne)] at found
      exact ok.reserved slot' found
    · change free.Nodup
      rcases ends with ⟨rfl, -⟩ | ⟨rfl, -⟩
      · exact List.nodup_cons.mpr ⟨noLonger, ok.freeOnce⟩
      · exact ok.freeOnce
    · intro j member
      change ∃ slot', (s.setSlot _ new).slots[j]? = some slot' ∧ _
      change j ∈ free at member
      rw [slots]
      by_cases here : j = (lowWord handle).toNat
      · rcases ends with ⟨rfl, fresh, -⟩ | ⟨rfl, -⟩
        · exact ⟨new, if_pos here, noObj, fresh⟩
        · exact absurd (here ▸ member) noLonger
      · have before : j ∈ s.free := by
          rcases ends with ⟨rfl, -⟩ | ⟨rfl, -⟩
          · exact (List.mem_cons.mp member).resolve_left here
          · exact member
        rw [if_neg here]
        exact ok.freeVacant j before
    · intro j slot' found vacant
      change (s.setSlot _ new).slots[j]? = _ at found
      rw [slots] at found
      split_ifs at found with here
      · obtain rfl := Option.some.inj found
        exact ⟨noOwner, noPins⟩
      · exact ok.vacant j slot' found vacant
    · intro map j slot' found vacant fresh
      change (s.setSlot _ new).slots[j]? = _ at found
      rw [slots] at found
      split_ifs at found with here
      · obtain rfl := Option.some.inj found
        exact raised map fresh
      · exact Nat.le_trans (ok.raised map j slot' found vacant fresh) floors.1
  · intro h slot' obj'
    constructor
    · intro live'
      have found : (s.setSlot _ new).slots[(lowWord h).toNat]? = _ := live'.found
      rw [slots] at found
      split_ifs at found with here
      · obtain rfl := Option.some.inj found
        have holds := live'.holds
        rw [noObj] at holds
        cases holds
      · refine ⟨⟨live'.index, found, live'.generation, live'.holds⟩, ?_⟩
        rintro rfl
        exact here rfl
    · rintro ⟨live', other⟩
      refine ⟨live'.index, ?_, live'.generation, live'.holds⟩
      refine (slots _).trans ?_
      rw [if_neg fun here => other (live.unique live' here).1]
      exact live'.found
  · intro j _
    change _ ≤ ((s.setSlot _ new).slots[j]?).elim _ _
    rw [slots]
    split_ifs with here
    · rw [here, nextGeneration_found live.found, Slot.next_of_obj live.holds, Option.elim_some,
        Slot.next, noObj]
      rcases ends with ⟨-, fresh, same, -⟩ | ⟨-, retired, same⟩
      · simp [fresh, same]
      · simp [retired, same]
    · rw [nextGeneration]
      cases s.slots[j]? with
      | none => exact floors.1
      | some slot' => exact Nat.le_refl _

/-- Nothing is live in a table that is compacted. -/
theorem Forgets.compact (ok : TableOk .map s) :
    Forgets .map s (compact_empty_map_table s) fun _ => False := by
  rw [compact_empty_map_table]
  split_ifs with stays
  · exact ⟨ok, fun _ _ _ => by simp, fun _ _ => Nat.le_refl _⟩
  · have empty : ∀ (j : Nat) slot, j ≠ 0 → s.slots[j]? = some slot →
        slot.obj = none ∧ slot.retired = false := by
      intro j slot nonzero found
      have all : tableIsEmpty s = true := by
        simp only [Bool.or_eq_true, Bool.not_eq_true', not_or, Bool.not_eq_false] at stays
        exact stays.2
      have member : slot ∈ s.slots.drop 1 := by
        refine List.mem_of_getElem? (i := j - 1) ?_
        rw [List.getElem?_drop, show 1 + (j - 1) = j by omega, found]
      simpa using List.all_eq_true.mp all slot member
    constructor
    · constructor
      · simp
      · exact ok.floor
      · simp
      · simp
      · exact List.nodup_nil
      · simp
      · simp
      · simp
    · intro h slot obj
      constructor
      · intro live
        have found := live.found
        simp at found
      · rintro ⟨live, -⟩
        have vacant := (empty _ slot live.index_ne live.found).1
        rw [live.holds] at vacant
        cases vacant
    · intro j nonzero
      rw [nextGeneration, nextGeneration]
      cases found : s.slots[j]? with
      | none => simp
      | some slot =>
          obtain ⟨vacant, fresh⟩ := empty j slot nonzero found
          simpa [Slot.next, vacant, fresh] using ok.raised rfl j slot found vacant fresh

/-- Compacting afterwards forgets no more. -/
theorem Forgets.andCompact {gone : BitVec 64 → Prop} (first : Forgets .map s s' gone) :
    Forgets .map s (compact_empty_map_table s') gone := by
  have second := Forgets.compact first.ok
  constructor
  · exact second.ok
  · intro h slot obj
    rw [second.live, not_false_eq_true, and_true, first.live]
  · intro j nonzero
    exact Nat.le_trans (first.next j nonzero) (second.next j nonzero)

/-- Freeing takes the object of a live handle out of the table and forgets the handle. -/
theorem finish_free_live (ok : TableOk kind s) (live : Live s handle slot obj) :
    ∃ s', finish_free kind s (lowWord handle).toNat = some (some obj, s') ∧
      Forgets kind s s' (· = handle) := by
  have generation := ok.generations _ slot live.found
  cases kind with
  | map =>
      simp only [finish_free, finish_map_free, live.found, live.holds]
      split_ifs with room
      · refine ⟨_, rfl, ?_⟩
        have vacated : Forgets .map s _ (· = handle) :=
          .vacate ⟨slot.generation + 1, 0, none, 0, false, false, none⟩
            (max s.generation_floor (slot.generation + 1)) s.generation_exhausted ok live
            ⟨rfl, rfl, rfl⟩ (.inl ⟨rfl, rfl, rfl, room⟩)
            ⟨Nat.le_max_left _ _, Nat.max_le.mpr ⟨ok.floor, room⟩⟩ fun _ _ => Nat.le_max_right _ _
        exact vacated.andCompact
      · refine ⟨_, rfl, ?_⟩
        have vacated : Forgets .map s _ (· = handle) :=
          .vacate ⟨slot.generation, 0, none, 0, true, false, none⟩ s.generation_floor true ok live
            ⟨rfl, rfl, rfl⟩ (.inr ⟨rfl, rfl, rfl⟩) ⟨Nat.le_refl _, ok.floor⟩
            fun _ impossible => by cases impossible
        exact vacated.andCompact
  | set =>
      simp only [finish_free, finish_set_free, live.found, live.holds]
      split_ifs with room
      · exact ⟨_, rfl, .vacate _ _ _ ok live ⟨rfl, rfl, rfl⟩ (.inl ⟨rfl, rfl, rfl, room⟩)
          ⟨Nat.le_refl _, ok.floor⟩ fun impossible => by cases impossible⟩
      · exact ⟨_, rfl, .vacate _ _ _ ok live ⟨rfl, rfl, rfl⟩ (.inr ⟨rfl, rfl, rfl⟩)
          ⟨Nat.le_refl _, ok.floor⟩ fun impossible => by cases impossible⟩

/-! ### Minting -/

/-- The slot a creation writes. -/
def freshSlot (gen : Nat) (obj : T) : Slot T := ⟨gen, 0, none, 0, false, false, some obj⟩

/-- From one table to another, the handle is minted for the object. -/
structure Mints (kind : ContainerKind) (s s' : Table T) (handle : BitVec 64) (obj : T) : Prop where
  index : lowWord handle ≠ 0
  ok : TableOk kind s'
  live : ∀ h slot o, Live s' h slot o ↔
    (h = handle ∧ slot = freshSlot (highWord handle).toNat obj ∧ o = obj) ∨ Live s h slot o
  unused : nextGeneration s (lowWord handle).toNat ≤ (highWord handle).toNat
  past : (highWord handle).toNat < nextGeneration s' (lowWord handle).toNat
  next : ∀ j, j ≠ 0 → nextGeneration s j ≤ nextGeneration s' j

theorem lowWord_packHandle {gen : Nat} (within : index ≤ lastGeneration) :
    (lowWord (packHandle index gen)).toNat = index := by
  rw [packHandle, lowWord_packWord, BitVec.toNat_ofNat]
  exact Nat.mod_eq_of_lt (Nat.lt_succ_of_le within)

theorem highWord_packHandle {gen : Nat} (within : gen ≤ lastGeneration) :
    (highWord (packHandle index gen)).toNat = gen := by
  rw [packHandle, highWord_packWord, BitVec.toNat_ofNat]
  exact Nat.mod_eq_of_lt (Nat.lt_succ_of_le within)

/-- A free or a new slot is occupied by an object at an unused generation. -/
theorem Mints.occupy {gen : Nat} (ok : TableOk kind s) (nonzero : index ≠ 0)
    (within : index ≤ lastGeneration) (bound : gen ≤ lastGeneration)
    (dead : ∀ slot, s.slots[index]? = some slot → slot.obj = none)
    (unused : nextGeneration s index ≤ gen) (obj : T) {slots : List (Slot T)} {free : List Nat}
    (written : ∀ j : Nat, slots[j]? =
      if j = index then some (freshSlot gen obj) else s.slots[j]?)
    (size : slots.length ≤ 4294967296) (once : free.Nodup) (left : ∀ j ∈ free, j ∈ s.free ∧ j ≠ index) :
    Mints kind s { s with slots := slots, free := free } (packHandle index gen) obj := by
  have low : (lowWord (packHandle index gen)).toNat = index := lowWord_packHandle within
  have high : (highWord (packHandle index gen)).toNat = gen := highWord_packHandle bound
  have lowNonzero : lowWord (packHandle index gen) ≠ 0 := by
    intro zero
    rw [zero] at low
    exact nonzero low.symm
  have here : Live { s with slots := slots, free := free } (packHandle index gen)
      (freshSlot gen obj) obj := by
    refine ⟨lowNonzero, ?_, high.symm, rfl⟩
    rw [low]
    exact (written index).trans (if_pos rfl)
  constructor
  · exact lowNonzero
  · constructor
    · exact size
    · exact ok.floor
    · intro j slot found
      change slots[j]? = _ at found
      rw [written] at found
      split_ifs at found with same
      · obtain rfl := Option.some.inj found
        exact bound
      · exact ok.generations j slot found
    · intro slot found
      change slots[0]? = _ at found
      rw [written, if_neg (Ne.symm nonzero)] at found
      exact ok.reserved slot found
    · exact once
    · intro j member
      obtain ⟨before, other⟩ := left j member
      change ∃ slot, slots[j]? = some slot ∧ _
      rw [written, if_neg other]
      exact ok.freeVacant j before
    · intro j slot found vacant
      change slots[j]? = _ at found
      rw [written] at found
      split_ifs at found with same
      · obtain rfl := Option.some.inj found
        cases vacant
      · exact ok.vacant j slot found vacant
    · intro map j slot found vacant fresh
      change slots[j]? = _ at found
      rw [written] at found
      split_ifs at found with same
      · obtain rfl := Option.some.inj found
        cases vacant
      · exact ok.raised map j slot found vacant fresh
  · intro h slot o
    rw [high]
    constructor
    · intro live
      by_cases same : (lowWord h).toNat = index
      · exact .inl (here.unique live (same.trans low.symm))
      · refine .inr ⟨live.index, ?_, live.generation, live.holds⟩
        exact ((written _).trans (if_neg same)).symm.trans live.found
    · rintro (⟨rfl, rfl, rfl⟩ | live)
      · exact here
      · refine ⟨live.index, ?_, live.generation, live.holds⟩
        refine (written _).trans ?_
        rw [if_neg, live.found]
        intro same
        have vacant := dead slot (same ▸ live.found)
        rw [live.holds] at vacant
        cases vacant
  · rw [low, high]
    exact unused
  · rw [low, high]
    change _ < (slots[index]?).elim _ _
    rw [written, if_pos rfl]
    exact Nat.lt_succ_self gen
  · intro j _
    change _ ≤ (slots[j]?).elim _ _
    rw [written]
    split_ifs with same
    · rw [same]
      exact Nat.le_succ_of_le unused
    · exact Nat.le_refl _

/-- The reserved slot is put into a table that has none. -/
theorem Forgets.reserve (ok : TableOk kind s) :
    Forgets kind s (if s.slots.isEmpty then { s with slots := [reservedSlot] } else s)
      fun _ => False := by
  split_ifs with empty
  · have none : s.slots = [] := List.isEmpty_iff.mp empty
    have noFree : s.free = [] := by
      refine List.eq_nil_iff_forall_not_mem.mpr fun index member => ?_
      obtain ⟨slot, found, -⟩ := ok.freeVacant index member
      rw [none] at found
      cases found
    have only : ∀ (j : Nat) slot, [(reservedSlot : Slot T)][j]? = some slot →
        j = 0 ∧ slot = reservedSlot := by
      intro j slot found
      cases j with
      | zero => exact ⟨rfl, (Option.some.inj found).symm⟩
      | succ j => simp at found
    constructor
    · constructor
      · simp
      · exact ok.floor
      · intro j slot found
        obtain ⟨-, rfl⟩ := only j slot found
        exact Nat.zero_le _
      · intro slot found
        obtain ⟨-, rfl⟩ := only 0 slot found
        exact ⟨rfl, rfl⟩
      · exact ok.freeOnce
      · simp [noFree]
      · intro j slot found _
        obtain ⟨-, rfl⟩ := only j slot found
        exact ⟨rfl, rfl⟩
      · intro _ j slot found _ fresh
        obtain ⟨-, rfl⟩ := only j slot found
        cases fresh
    · intro h slot o
      constructor
      · intro live
        exact absurd (only _ slot live.found).1 live.index_ne
      · rintro ⟨live, -⟩
        have found := live.found
        rw [none] at found
        cases found
    · intro j nonzero
      cases j with
      | zero => exact absurd rfl nonzero
      | succ j =>
          rw [nextGeneration, nextGeneration, none]
          exact Nat.le_refl _
  · exact ⟨ok, fun _ _ _ => by simp, fun _ _ => Nat.le_refl _⟩

theorem Mints.after {s₀ : Table T} (first : Forgets kind s s₀ fun _ => False)
    (mints : Mints kind s₀ s' handle obj) : Mints kind s s' handle obj where
  index := mints.index
  ok := mints.ok
  live h slot o := by
    rw [mints.live, first.live, not_false_eq_true, and_true]
  unused := by
    refine Nat.le_trans (first.next _ fun zero => mints.index ?_) mints.unused
    exact BitVec.eq_of_toNat_eq zero
  past := mints.past
  next j nonzero := Nat.le_trans (first.next j nonzero) (mints.next j nonzero)

/-- A creation mints a handle, or finds the table full and changes nothing. -/
theorem alloc_slot_spec (ok : TableOk kind s) (obj : T) :
    ∃ handle s', alloc_slot s obj = some (handle, s') ∧
      ((handle = 0 ∧ s' = s) ∨ (handle ≠ 0 ∧ Mints kind s s' handle obj)) := by
  have reserve := Forgets.reserve ok
  rw [alloc_slot]
  generalize table : (if s.slots.isEmpty then { s with slots := [reservedSlot] } else s) = s₀
    at reserve
  have ok₀ := reserve.ok
  have floor : s.generation_floor = s₀.generation_floor := by
    rw [← table]
    split_ifs <;> rfl
  simp only [floor]
  cases top : s₀.free with
  | cons index free =>
      obtain ⟨slot, found, vacant, fresh⟩ := ok₀.freeVacant index (by simp [top])
      have once := ok₀.freeOnce
      rw [top, List.nodup_cons] at once
      have inside : index < s₀.slots.length := (List.getElem?_eq_some_iff.mp found).1
      have within : index ≤ lastGeneration := by
        have size := ok₀.size
        rw [lastGeneration]
        omega
      have nonzero : index ≠ 0 := by
        rintro rfl
        rw [(ok₀.reserved slot found).2] at fresh
        cases fresh
      have mints : Mints kind s₀
          { s₀ with
            slots := s₀.slots.set index (freshSlot (max slot.generation s₀.generation_floor) obj),
            free := free }
          (packHandle index (max slot.generation s₀.generation_floor)) obj := by
        refine .occupy ok₀ nonzero within
          (Nat.max_le.mpr ⟨ok₀.generations index slot found, ok₀.floor⟩) ?_ ?_ obj
          (getElem?_set_found _ found) ?_ once.2 ?_
        · intro slot' found'
          rw [found] at found'
          obtain rfl := Option.some.inj found'
          exact vacant
        · rw [nextGeneration_found found]
          simp [Slot.next, vacant, fresh]
        · rw [List.length_set]
          exact ok₀.size
        · intro j member
          refine ⟨by rw [top]; exact List.mem_cons_of_mem _ member, ?_⟩
          rintro rfl
          exact once.1 member
      simp only [found]
      exact ⟨_, _, rfl, .inr ⟨fun zero => mints.index (by rw [zero]; rfl), mints.after reserve⟩⟩
  | nil =>
      simp only [checked_slot_index]
      split_ifs with room
      · obtain ⟨within, nonzero⟩ := room
        have outside : s₀.slots[s₀.slots.length]? = none :=
          List.getElem?_eq_none (Nat.le_refl _)
        have mints : Mints kind s₀
            { s₀ with
              slots := s₀.slots ++ [freshSlot s₀.generation_floor obj], free := [] }
            (packHandle s₀.slots.length s₀.generation_floor) obj := by
          refine .occupy ok₀ nonzero within ok₀.floor ?_ ?_ obj ?_ ?_ List.nodup_nil ?_
          · intro slot found
            rw [outside] at found
            cases found
          · rw [nextGeneration, outside, Option.elim_none]
          · intro j
            split_ifs with here
            · rw [here, List.getElem?_concat_length]
            · rw [List.getElem?_append]
              split_ifs with inside
              · rfl
              · rw [List.getElem?_eq_none (Nat.not_lt.mp inside)]
                exact List.getElem?_eq_none (by simp only [List.length_singleton]; omega)
          · rw [List.length_append, List.length_singleton]
            exact Nat.succ_le_succ within
          · intro j member
            cases member
        exact ⟨_, _, rfl, .inr ⟨fun zero => mints.index (by rw [zero]; rfl), mints.after reserve⟩⟩
      · refine ⟨_, _, rfl, .inl ⟨rfl, ?_⟩⟩
        rw [← table]
        refine if_neg fun empty => room ?_
        rw [if_pos empty] at table
        rw [← table]
        exact ⟨by simp [lastGeneration], by simp⟩

end Mimi.Runtime
