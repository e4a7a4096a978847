/-
Module: Mimi.Proofs.MapPayloads
Purpose: The payloads of a Map root.  What a root is to hold is stated apart: its entries, and of the
  payloads handed to it those that an entry has named ever since.  The code keeps to this as long as
  no plain value is written over the last name of a payload, and no owned one over the name of a
  payload that has another.
Trusted boundary: none
-/
import Mimi.Runtime.MapRoot
import Mimi.Proofs.TableShape

namespace Mimi.Runtime

open Mimi.Lib

/-- What a root is to hold: its entries, and the payloads it owns. -/
@[ext]
structure Holding where
  entries : String → Option ValueHandle
  payloads : Set ValueHandle

namespace Holding

def new : Holding := ⟨fun _ => none, ∅⟩

/-- Some entry names the value. -/
def Named (entries : String → Option ValueHandle) (value : ValueHandle) : Prop :=
  ∃ key, entries key = some value

/-- Of the payloads, those stay that an entry names. -/
def settle (entries : String → Option ValueHandle) (payloads : Set ValueHandle) : Holding :=
  ⟨entries, {value | value ∈ payloads ∧ Named entries value}⟩

open Classical in
/-- What the operations are to do; a payload that is owned already is refused. -/
noncomputable def apply (h : Holding) : MapAct → Option Holding
  | .set key value => some (settle (Function.update h.entries key (some value)) h.payloads)
  | .setOwned key value =>
      if value ∈ h.payloads then none
      else some (settle (Function.update h.entries key (some value)) (insert value h.payloads))
  | .remove key => some (settle (Function.update h.entries key none) h.payloads)

/-- Every payload is named. -/
def Settled (h : Holding) : Prop := ∀ value ∈ h.payloads, Named h.entries value

theorem settled_settle (entries : String → Option ValueHandle) (payloads : Set ValueHandle) :
    (settle entries payloads).Settled := fun _ member => member.2

theorem Settled.apply {h h' : Holding} {act : MapAct} (applied : h.apply act = some h') :
    h'.Settled := by
  cases act with
  | set key value =>
      obtain rfl := Option.some.inj applied
      exact settled_settle _ _
  | setOwned key value =>
      rw [Holding.apply] at applied
      split_ifs at applied
      obtain rfl := Option.some.inj applied
      exact settled_settle _ _
  | remove key =>
      obtain rfl := Option.some.inj applied
      exact settled_settle _ _

end Holding

/-- The holding of a map as it is. -/
def MimiMap.holding (map : MimiMap) : Holding := ⟨fun key => map.inner.lookup key, map.owned⟩

/-- Another key than this one names the value. -/
def NamedBeside (map : MimiMap) (key : String) (value : ValueHandle) : Prop :=
  ∃ other, other ≠ key ∧ map.inner.lookup other = some value

/-- The operation writes over no last name of a payload without its owner being looked for, and detaches
no owner of a payload that has another name. -/
def SparesOwners (map : MimiMap) : MapAct → Prop
  | .set key value => ∀ old ∈ map.owned, map.inner.lookup key = some old → old ≠ value →
      NamedBeside map key old
  | .setOwned key value => value ∉ map.owned → ∀ old ∈ map.owned, map.inner.lookup key = some old →
      ¬NamedBeside map key old
  | .remove _ => True

/-- What an operation is to do to a map: refuse, or leave the holding, and release what is no longer
held. -/
def Shows (map : MimiMap) (act : MapAct) : Prop :=
  match map.apply act with
  | .error _ => map.holding.apply act = none
  | .ok (released, map') => map.holding.apply act = some map'.holding ∧
      ∀ value, released = some value ↔ value ∈ map.owned ∧ value ∉ map'.owned

theorem lookup_insert_eq (inner : AList fun _ : String => ValueHandle) (key : String)
    (value : ValueHandle) :
    (fun other => (inner.insert key value).lookup other) =
      Function.update (fun other => inner.lookup other) key (some value) := by
  funext other
  by_cases same : other = key
  · subst same
    rw [AList.lookup_insert, Function.update_self]
  · rw [AList.lookup_insert_ne same, Function.update_of_ne same]

theorem lookup_erase_eq (inner : AList fun _ : String => ValueHandle) (key : String) :
    (fun other => (inner.erase key).lookup other) =
      Function.update (fun other => inner.lookup other) key none := by
  funext other
  by_cases same : other = key
  · subst same
    rw [AList.lookup_erase, Function.update_self]
  · rw [AList.lookup_erase_ne same, Function.update_of_ne same]

/-- What is named once a key names something else. -/
theorem named_update {map : MimiMap} {key : String} {value : Option ValueHandle}
    {old : ValueHandle} :
    Holding.Named (Function.update (fun key => map.inner.lookup key) key value) old ↔
      value = some old ∨ NamedBeside map key old := by
  constructor
  · rintro ⟨other, names⟩
    by_cases same : other = key
    · subst same
      rw [Function.update_self] at names
      exact .inl names
    · rw [Function.update_of_ne same] at names
      exact .inr ⟨other, same, names⟩
  · rintro (names | ⟨other, apart, names⟩)
    · exact ⟨key, (Function.update_self ..).trans names⟩
    · exact ⟨other, (Function.update_of_ne apart ..).trans names⟩

/-- What is named beside a key that names something else. -/
theorem named_iff_beside {map : MimiMap} {key : String} {old : ValueHandle}
    (other : map.inner.lookup key ≠ some old) :
    Holding.Named map.holding.entries old ↔ NamedBeside map key old := by
  constructor
  · rintro ⟨key', names⟩
    exact ⟨key', fun same => other (same ▸ names), names⟩
  · rintro ⟨key', -, names⟩
    exact ⟨key', names⟩

theorem any_erase (map : MimiMap) (key : String) (value : ValueHandle) :
    ((map.inner.erase key).entries.any fun entry => entry.2 = value) = true ↔
      NamedBeside map key value := by
  rw [List.any_eq_true]
  constructor
  · rintro ⟨⟨other, value'⟩, member, is⟩
    obtain rfl : value' = value := of_decide_eq_true is
    have names := AList.mem_lookup_iff.mpr member
    by_cases same : other = key
    · subst same
      rw [AList.lookup_erase] at names
      cases names
    · rw [AList.lookup_erase_ne same] at names
      exact ⟨other, same, names⟩
  · rintro ⟨other, apart, names⟩
    refine ⟨⟨other, value⟩, AList.mem_lookup_iff.mp ?_, decide_eq_true rfl⟩
    rw [AList.lookup_erase_ne apart]
    exact names

/-- When a map shows what is to be left once a key names something else. -/
theorem settle_eq_iff {map : MimiMap} (map' : MimiMap) {key : String} {new : Option ValueHandle}
    (payloads : Set ValueHandle) (entries : (fun key => map'.inner.lookup key) =
      Function.update (fun key => map.inner.lookup key) key new) :
    Holding.settle (Function.update map.holding.entries key new) payloads = map'.holding ↔
      ∀ value, value ∈ map'.owned ↔
        value ∈ payloads ∧ (new = some value ∨ NamedBeside map key value) := by
  rw [MimiMap.holding, MimiMap.holding, entries, Holding.settle, Holding.mk.injEq, Set.ext_iff]
  constructor
  · rintro ⟨-, same⟩ value
    rw [← named_update]
    exact (same value).symm
  · refine fun same => ⟨rfl, fun value => ?_⟩
    rw [Set.mem_ofPred_eq, named_update]
    exact (same value).symm

/-- Another payload than the one of a key has a name beside the key. -/
theorem named_beside {map : MimiMap} (settled : map.holding.Settled) {key : String}
    {value : ValueHandle} (held : value ∈ map.owned) (other : map.inner.lookup key ≠ some value) :
    NamedBeside map key value := (named_iff_beside other).mp (settled value held)

/-- Nothing is released where every payload stays. -/
theorem releases_none {owned owned' : Finset ValueHandle} (stay : owned ⊆ owned')
    (value : ValueHandle) : none = some value ↔ value ∈ owned ∧ value ∉ owned' :=
  ⟨nofun, fun gone => absurd (stay gone.1) gone.2⟩

theorem set_shows_iff {map : MimiMap} (settled : map.holding.Settled) (key : String)
    (value : ValueHandle) :
    Shows map (.set key value) ↔ SparesOwners map (.set key value) := by
  have left := settle_eq_iff (map.set key value) map.holding.payloads
    (lookup_insert_eq map.inner key value)
  refine (and_iff_left (releases_none (Finset.Subset.refl _))).trans ((Option.some.injEq ..).to_iff.trans (left.trans ?_))
  constructor
  · intro same old held here new
    have named := ((same old).mp held).2
    exact named.resolve_left fun is => new (Option.some.inj is).symm
  · intro spares old
    refine ⟨fun held => ⟨held, ?_⟩, And.left⟩
    by_cases here : map.inner.lookup key = some old
    · by_cases new : old = value
      · exact .inl (congrArg some new.symm)
      · exact .inr (spares old held here new)
    · exact .inr (named_beside settled held here)

theorem setOwned_shows_iff {map : MimiMap} (settled : map.holding.Settled) (key : String)
    (value : ValueHandle) :
    Shows map (.setOwned key value) ↔ SparesOwners map (.setOwned key value) := by
  by_cases known : value ∈ map.owned
  · have refused : map.apply (.setOwned key value) = .error .invalid := if_pos known
    rw [Shows, refused]
    exact iff_of_true (if_pos known) fun new => absurd known new
  have entries := lookup_insert_eq map.inner key value
  have spec : map.holding.apply (.setOwned key value) =
      some (.settle (Function.update map.holding.entries key (some value))
        (insert value map.holding.payloads)) := if_neg known
  -- the owners that stay named are those of the other keys, and the new one
  have named : ∀ v ∈ insert value map.owned, map.inner.lookup key ≠ some v →
      some value = some v ∨ NamedBeside map key v := by
    intro v member other
    rcases Finset.mem_insert.mp member with rfl | held
    · exact .inl rfl
    · exact .inr (named_beside settled held other)
  cases here : map.inner.lookup key with
  | none =>
      have applied : map.apply (.setOwned key value) =
          .ok (none, ⟨map.inner.insert key value, insert value map.owned⟩) := by
        rw [MimiMap.apply, MimiMap.set_owned_any_string, if_neg known, here]
      rw [Shows, applied, spec]
      refine iff_of_true ⟨congrArg some ((settle_eq_iff _ _ entries).mpr fun v => ?_),
        releases_none (Finset.subset_insert _ _)⟩ fun _ old _ names => ?_
      · refine ⟨fun member => ⟨Finset.mem_insert.mp member, named v member ?_⟩,
          fun both => Finset.mem_insert.mpr both.1⟩
        rw [here]
        exact nofun
      · rw [here] at names
        cases names
  | some old_value =>
      by_cases detaches : old_value ≠ value ∧ old_value ∈ insert value map.owned
      · have applied : map.apply (.setOwned key value) = .ok (some old_value,
            ⟨map.inner.insert key value, (insert value map.owned).erase old_value⟩) := by
          rw [MimiMap.apply, MimiMap.set_owned_any_string, if_neg known, here]
          exact if_pos detaches
        have held : old_value ∈ map.owned := Finset.mem_of_mem_insert_of_ne detaches.2 detaches.1
        rw [Shows, applied, spec]
        have released : ∀ v, some old_value = some v ↔
            v ∈ map.owned ∧ v ∉ (insert value map.owned).erase old_value := by
          intro v
          rw [Option.some.injEq, Finset.mem_erase, Finset.mem_insert]
          constructor
          · rintro rfl
            exact ⟨held, fun both => both.1 rfl⟩
          · rintro ⟨member, gone⟩
            by_contra other
            exact gone ⟨Ne.symm other, .inr member⟩
        refine (and_iff_left released).trans
          ((Option.some.injEq ..).to_iff.trans ((settle_eq_iff _ _ entries).trans ?_))
        constructor
        · intro same _ old _ names beside
          obtain rfl := Option.some.inj (here.symm.trans names)
          have stays := (same old_value).mpr ⟨.inr held, .inr beside⟩
          exact (Finset.mem_erase.mp stays).1 rfl
        · intro spares v
          rw [Finset.mem_erase]
          constructor
          · rintro ⟨other, member⟩
            refine ⟨Finset.mem_insert.mp member, named v member fun names => ?_⟩
            exact other (Option.some.inj (names.symm.trans here))
          · rintro ⟨member, names⟩
            refine ⟨?_, Finset.mem_insert.mpr member⟩
            rintro rfl
            rcases names with new | beside
            · exact detaches.1 (Option.some.inj new).symm
            · exact spares known v held here beside
      · have applied : map.apply (.setOwned key value) =
            .ok (none, ⟨map.inner.insert key value, insert value map.owned⟩) := by
          rw [MimiMap.apply, MimiMap.set_owned_any_string, if_neg known, here]
          exact if_neg detaches
        have plain : old_value ∉ map.owned := fun held =>
          detaches ⟨fun same => known (same ▸ held), Finset.mem_insert_of_mem held⟩
        rw [Shows, applied, spec]
        refine iff_of_true ⟨congrArg some ((settle_eq_iff _ _ entries).mpr fun v => ?_),
          releases_none (Finset.subset_insert _ _)⟩ fun _ old held names => ?_
        · refine ⟨fun member => ⟨Finset.mem_insert.mp member, ?_⟩,
            fun both => Finset.mem_insert.mpr both.1⟩
          by_cases new : value = v
          · exact .inl (congrArg some new)
          · refine named v member fun names => plain ?_
            obtain rfl := Option.some.inj (here.symm.trans names)
            exact Finset.mem_of_mem_insert_of_ne member (Ne.symm new)
        · obtain rfl := Option.some.inj (here.symm.trans names)
          exact absurd held plain

theorem remove_shows {map : MimiMap} (settled : map.holding.Settled) (key : String) :
    Shows map (.remove key) := by
  have entries := lookup_erase_eq map.inner key
  have named : ∀ v, v ∈ map.owned → map.inner.lookup key ≠ some v →
      (none : Option ValueHandle) = some v ∨ NamedBeside map key v :=
    fun v held other => .inr (named_beside settled held other)
  cases here : map.inner.lookup key with
  | none =>
      have applied : map.apply (.remove key) = .ok (none, map) := by
        rw [MimiMap.apply, MimiMap.remove, here]
      rw [Shows, applied]
      refine ⟨congrArg some ?_, releases_none (Finset.Subset.refl _)⟩
      have stays : Function.update map.holding.entries key none = map.holding.entries := by
        rw [← here]
        exact Function.update_eq_self key _
      rw [stays]
      exact Holding.ext rfl (Set.ext fun v => ⟨And.left, fun held => ⟨held, settled v held⟩⟩)
  | some removed_value =>
      by_cases beside : NamedBeside map key removed_value
      · have applied : map.apply (.remove key) =
            .ok (none, ⟨map.inner.erase key, map.owned⟩) := by
          rw [MimiMap.apply, MimiMap.remove, here]
          exact congrArg Except.ok (if_pos ((any_erase map key removed_value).mpr beside))
        rw [Shows, applied]
        refine ⟨congrArg some ((settle_eq_iff _ _ entries).mpr fun v => ?_),
          releases_none (Finset.Subset.refl _)⟩
        refine ⟨fun held => ⟨held, ?_⟩, And.left⟩
        by_cases this_ : removed_value = v
        · exact .inr (this_ ▸ beside)
        · exact named v held fun names => this_ (Option.some.inj (here.symm.trans names))
      · have last := mt (any_erase map key removed_value).mp beside
        by_cases held : removed_value ∈ map.owned
        · have applied : map.apply (.remove key) =
              .ok (some removed_value, ⟨map.inner.erase key, map.owned.erase removed_value⟩) := by
            rw [MimiMap.apply, MimiMap.remove, here]
            exact congrArg Except.ok ((if_neg last).trans (if_pos held))
          rw [Shows, applied]
          refine ⟨congrArg some ((settle_eq_iff _ _ entries).mpr fun v => ?_), fun v => ?_⟩
          · rw [Finset.mem_erase]
            constructor
            · rintro ⟨other, member⟩
              exact ⟨member, named v member fun names =>
                other (Option.some.inj (names.symm.trans here))⟩
            · rintro ⟨member, names⟩
              refine ⟨?_, member⟩
              rintro rfl
              exact names.elim nofun beside
          · rw [Option.some.injEq, Finset.mem_erase]
            constructor
            · rintro rfl
              exact ⟨held, fun both => both.1 rfl⟩
            · rintro ⟨member, gone⟩
              by_contra other
              exact gone ⟨Ne.symm other, member⟩
        · have applied : map.apply (.remove key) =
              .ok (none, ⟨map.inner.erase key, map.owned⟩) := by
            rw [MimiMap.apply, MimiMap.remove, here]
            exact congrArg Except.ok ((if_neg last).trans (if_neg held))
          rw [Shows, applied]
          refine ⟨congrArg some ((settle_eq_iff _ _ entries).mpr fun v => ?_),
            releases_none (Finset.Subset.refl _)⟩
          refine ⟨fun member => ⟨member, named v member fun names => held ?_⟩, And.left⟩
          obtain rfl := Option.some.inj (here.symm.trans names)
          exact member

/-- On a root whose payloads are all named, an operation does what it is to do exactly when it spares the
owners. -/
theorem apply_shows_iff {map : MimiMap} (settled : map.holding.Settled) (act : MapAct) :
    Shows map act ↔ SparesOwners map act := by
  cases act with
  | set key value => exact set_shows_iff settled key value
  | setOwned key value => exact setOwned_shows_iff settled key value
  | remove key => exact iff_of_true (remove_shows settled key) trivial

/-! ### Runs -/

/-- What the operations on a root are to have left of it. -/
noncomputable def holdingOf (handle : BitVec 64) : List (RootOp × RootAnswer) → Holding
  | [] => .new
  | (op, _) :: trace =>
      if op.handle = handle then
        ((holdingOf handle trace).apply op.act).getD (holdingOf handle trace)
      else holdingOf handle trace

/-- An operation on the root spares the owners. -/
def KeepsOwners (handle : BitVec 64) (op : RootOp) (t : Table MimiMap) : Prop :=
  op.handle = handle → ∀ slot map, Live t handle slot map → SparesOwners map op.act

/-- The slot of a root that nobody is using. -/
structure Slot.Open (slot : Slot MimiMap) : Prop where
  retired : slot.retired = false
  leases : slot.leases = 0
  pins : slot.pins = 0
  active_owner : slot.active_owner = none

/-- A handle is the one of a root with a map. -/
def IsRoot (t : Table MimiMap) (handle : BitVec 64) (map : MimiMap) : Prop :=
  ∃ slot : Slot MimiMap, Live t handle slot map ∧ slot.Open

theorem RootOp.run_eq (op : RootOp) (t : Table MimiMap) :
    op.run t = mapRootAct op.handle op.act t := by
  obtain ⟨handle, act⟩ := op
  cases act <;> rfl

variable {t : Table MimiMap}

theorem mapRootAct_live {handle : BitVec 64} {slot : Slot MimiMap}
    {map : MimiMap} (live : Live t handle slot map) (open_ : slot.Open) (act : MapAct) :
    mapRootAct handle act t = (map.apply act).map fun left =>
      (left.1, t.setSlot (lowWord handle).toNat { slot with obj := some left.2 }) := by
  have valid : validate_map_root_slot t handle = .ok ((lowWord handle).toNat, slot) := by
    rw [validate_map_root_slot, live.slotOf_eq]
    simp [bind, Except.bind, open_.retired, open_.leases, open_.pins, open_.active_owner, live.holds]
  rw [mapRootAct, valid]
  simp only [bind, Except.bind, live.holds]
  cases map.apply act <;> rfl

variable {t' : Table MimiMap}

theorem mapRootAct_ok {handle : BitVec 64} {act : MapAct}
    {released : Option ValueHandle} (done : mapRootAct handle act t = .ok (released, t')) :
    ∃ slot map slot', Live t handle slot map ∧ t' = t.setSlot (lowWord handle).toNat slot' := by
  cases named : slotOf t handle with
  | error e =>
      rw [mapRootAct, validate_map_root_slot, named] at done
      cases done
  | ok found =>
      obtain ⟨index, slot⟩ := found
      have valid : validate_map_root_slot t handle = .ok (index, slot) := by
        rw [mapRootAct, validate_map_root_slot, named] at done
        rw [validate_map_root_slot, named]
        simp only [bind, Except.bind] at done ⊢
        split_ifs at done ⊢
        rfl
      rw [mapRootAct, valid] at done
      cases holds : slot.obj with
      | none =>
          simp only [bind, Except.bind, holds] at done
          cases done
      | some map =>
          obtain ⟨rfl, live⟩ := live_of_slotOf named holds
          simp only [bind, Except.bind, holds] at done
          cases applied : map.apply act with
          | error e =>
              rw [applied] at done
              cases done
          | ok left =>
              rw [applied] at done
              exact ⟨slot, map, _, live, (Prod.mk.inj (Except.ok.inj done)).2.symm⟩

/-- Another root is not touched. -/
theorem Live.setSlot_other {handle other : BitVec 64} {slot slot' : Slot MimiMap}
    {map map' : MimiMap} {new : Slot MimiMap} (live : Live t handle slot map)
    (live' : Live t other slot' map') (apart : other ≠ handle) :
    Live (t.setSlot (lowWord other).toNat new) handle slot map where
  index := live.index
  found := by
    rw [Table.getElem?_setSlot live'.found]
    split_ifs with same
    · exact absurd (live.unique live' same.symm).1 apart
    · exact live.found
  generation := live.generation
  holds := live.holds

theorem Live.setSlot_self {handle : BitVec 64} {slot : Slot MimiMap}
    {map : MimiMap} (live : Live t handle slot map) (map' : MimiMap) :
    Live (t.setSlot (lowWord handle).toNat { slot with obj := some map' }) handle
      { slot with obj := some map' } map' where
  index := live.index
  found := by rw [Table.getElem?_setSlot live.found, if_pos rfl]
  generation := live.generation
  holds := rfl

variable {trace : List (RootOp × RootAnswer)}

/-- What a step leaves of a root, and what it releases. -/
theorem rootStep_shows {handle : BitVec 64} {map : MimiMap} {op : RootOp} {answer : RootAnswer}
    (root : IsRoot t handle map) (shows_ : map.holding = holdingOf handle trace)
    (settled : map.holding.Settled) (may : KeepsOwners handle op t) (steps : rootStep op t = some (answer, t')) :
    ∃ map', IsRoot t' handle map' ∧ map'.holding = holdingOf handle ((op, answer) :: trace) ∧
      map'.holding.Settled ∧
      (op.handle = handle → ∀ value, answer = .ok (some value) ↔
        value ∈ map.owned ∧ value ∉ map'.owned) := by
  obtain ⟨slot, live, open_⟩ := root
  rw [rootStep, RootOp.run_eq] at steps
  by_cases here : op.handle = handle
  · subst here
    have shown := (apply_shows_iff settled op.act).mpr (may rfl slot map live)
    rw [mapRootAct_live live open_] at steps
    rw [holdingOf, if_pos rfl, ← shows_]
    cases applied : map.apply op.act with
    | error e =>
        rw [Shows, applied] at shown
        rw [applied] at steps
        obtain ⟨rfl, rfl⟩ := Prod.mk.inj (Option.some.inj steps)
        refine ⟨map, ⟨slot, live, open_⟩, ?_, settled, fun _ value => ?_⟩
        · rw [shown]
          rfl
        · exact ⟨nofun, fun gone => absurd gone.1 gone.2⟩
    | ok left =>
        obtain ⟨released, map'⟩ := left
        rw [Shows, applied] at shown
        rw [applied] at steps
        obtain ⟨rfl, rfl⟩ := Prod.mk.inj (Option.some.inj steps)
        refine ⟨map', ⟨_, live.setSlot_self map', ⟨open_.retired, open_.leases, open_.pins,
          open_.active_owner⟩⟩, ?_, .apply shown.1, fun _ value => ?_⟩
        · rw [shown.1]
          rfl
        · rw [Except.ok.injEq]
          exact shown.2 value
  · rw [holdingOf, if_neg here]
    cases done : mapRootAct op.handle op.act t with
    | error e =>
        rw [done] at steps
        obtain ⟨rfl, rfl⟩ := Prod.mk.inj (Option.some.inj steps)
        exact ⟨map, ⟨slot, live, open_⟩, shows_, settled, fun same => absurd same here⟩
    | ok left =>
        obtain ⟨released, t₁⟩ := left
        rw [done] at steps
        obtain ⟨rfl, rfl⟩ := Prod.mk.inj (Option.some.inj steps)
        obtain ⟨slot₁, map₁, slot', live', rfl⟩ := mapRootAct_ok done
        exact ⟨map, ⟨slot, live.setSlot_other live' here, open_⟩, shows_, settled,
          fun same => absurd same here⟩

/-- After a run that spares the owners the root shows what it is to hold. -/
theorem shows_of_run {handle : BitVec 64} (new_ : IsRoot t handle .new)
    (run : (RootMachine t).Runs (KeepsOwners handle) trace t') :
    ∃ map, IsRoot t' handle map ∧ map.holding = holdingOf handle trace ∧ map.holding.Settled ∧
      ∀ op answer before, trace = (op, answer) :: before → op.handle = handle → ∀ value,
        answer = .ok (some value) ↔ value ∈ (holdingOf handle before).payloads ∧
          value ∉ (holdingOf handle trace).payloads := by
  induction run with
  | init =>
      refine ⟨.new, new_, Holding.ext rfl Finset.coe_empty, fun value member => ?_, ?_⟩
      · exact absurd member (Finset.notMem_empty value)
      · intro op answer before cons
        cases cons
  | step run may steps ih =>
      obtain ⟨map, root, shows_, settled, -⟩ := ih
      obtain ⟨map', root', shows', settled', released⟩ :=
        rootStep_shows root shows_ settled may steps
      refine ⟨map', root', shows', settled', fun op answer before cons here value => ?_⟩
      obtain ⟨same, rfl⟩ := List.cons.inj cons
      obtain ⟨rfl, rfl⟩ := Prod.mk.inj same
      rw [← shows_, ← shows']
      exact released here value

/-- In every run from a new root whose operations spare the owners, the root owns exactly the payloads
handed to it that an entry has named ever since, and an operation releases exactly the payload that it
leaves without a name. -/
theorem payloads_kept {t : Table MimiMap} {handle : BitVec 64} (new_ : IsRoot t handle .new)
    {trace : List (RootOp × RootAnswer)} {t' : Table MimiMap}
    (run : (RootMachine t).Runs (KeepsOwners handle) trace t') :
    ∃ map, IsRoot t' handle map ∧
      (∀ key, map.inner.lookup key = (holdingOf handle trace).entries key) ∧
      (∀ value, value ∈ map.owned ↔ value ∈ (holdingOf handle trace).payloads) ∧
      (∀ value ∈ map.owned, ∃ key, map.inner.lookup key = some value) ∧
      ∀ op answer before, trace = (op, answer) :: before → op.handle = handle → ∀ value,
        answer = .ok (some value) ↔ value ∈ (holdingOf handle before).payloads ∧
          value ∉ (holdingOf handle trace).payloads := by
  obtain ⟨map, root, shows_, settled, released⟩ := shows_of_run new_ run
  refine ⟨map, root, fun key => ?_, fun value => ?_, settled, released⟩
  · rw [← shows_]
    rfl
  · rw [← shows_]
    exact Iff.rfl

/-- A table with one root, and the handle of the root. -/
def rootTable (map : MimiMap) : Table MimiMap :=
  ⟨[reservedSlot, ⟨1, 0, none, 0, false, false, some map⟩], [], 1, false⟩

def rootHandle : BitVec 64 := packHandle 1 1

theorem isRoot_rootTable (map : MimiMap) : IsRoot (rootTable map) rootHandle map :=
  ⟨⟨1, 0, none, 0, false, false, some map⟩, ⟨by decide, rfl, rfl, rfl⟩, ⟨rfl, rfl, rfl, rfl⟩⟩

theorem keepsOwners_rootTable {map : MimiMap} {act : MapAct} (spares : SparesOwners map act) :
    KeepsOwners rootHandle ⟨rootHandle, act⟩ (rootTable map) := by
  intro _ slot map' live
  obtain ⟨slot', live', -⟩ := isRoot_rootTable map
  obtain ⟨-, -, rfl⟩ := live.unique live' rfl
  exact spares

/-- One more operation on the root of such a table. -/
theorem runs_rootTable {start map map' : MimiMap} {allowed : RootOp → Table MimiMap → Prop}
    (run : (RootMachine (rootTable start)).Runs allowed trace (rootTable map)) (act : MapAct)
    (released : Option ValueHandle) (may : allowed ⟨rootHandle, act⟩ (rootTable map))
    (applied : map.apply act = .ok (released, map')) :
    (RootMachine (rootTable start)).Runs allowed ((⟨rootHandle, act⟩, .ok released) :: trace)
      (rootTable map') := by
  refine run.step may ?_
  obtain ⟨slot, live, open_⟩ := isRoot_rootTable map
  obtain rfl := Option.some.inj (live.found.symm.trans rfl)
  show rootStep _ _ = _
  rw [rootStep, RootOp.run_eq, mapRootAct_live live open_, applied]
  rfl

/-- The map that the entries of a list make, later ones first, with the values it owns. -/
def mapOf (entries : List (String × ValueHandle)) (owned : List ValueHandle) : MimiMap :=
  ⟨(entries.map fun entry => (⟨entry.1, entry.2⟩ : (_ : String) × ValueHandle)).toAList, owned.toFinset⟩

theorem mem_entries_mapOf {entries : List (String × ValueHandle)} {owned : List ValueHandle}
    {key : String} {value : ValueHandle}
    (names : (mapOf entries owned).inner.lookup key = some value) : (key, value) ∈ entries := by
  rw [mapOf, AList.lookup_to_alist] at names
  obtain ⟨entry, member, is⟩ := List.mem_map.mp (List.of_mem_dlookup names)
  obtain ⟨rfl, rfl⟩ := Sigma.mk.inj is
  exact member

/-- A payload is put under a key, a plain entry names it too, and both entries are removed. -/
theorem payloads_kept_shared : ∃ trace t',
    (RootMachine (rootTable .new)).Runs (KeepsOwners rootHandle) trace t' ∧
      trace.map Prod.snd = [.ok (some 7), .ok none, .ok none, .ok none] ∧
      ∃ map, IsRoot t' rootHandle map ∧
        ∀ value, value ∈ map.owned ↔ value ∈ (holdingOf rootHandle trace).payloads := by
  have start : (RootMachine (rootTable .new)).Runs (KeepsOwners rootHandle) [] (rootTable .new) :=
    .init
  have owned : (RootMachine (rootTable .new)).Runs _ _ (rootTable (mapOf [("a", 7)] [7])) :=
    runs_rootTable start (.setOwned "a" 7) none
      (keepsOwners_rootTable fun _ old held => absurd held (Finset.notMem_empty old)) rfl
  have shared : (RootMachine (rootTable .new)).Runs _ _
      (rootTable (mapOf [("b", 7), ("a", 7)] [7])) :=
    runs_rootTable owned (.set "b" 7) none
      (keepsOwners_rootTable fun _ _ names => absurd (mem_entries_mapOf names) (by simp)) rfl
  have one : (RootMachine (rootTable .new)).Runs _ _ (rootTable (mapOf [("b", 7)] [7])) :=
    runs_rootTable shared (.remove "a") none (keepsOwners_rootTable trivial) rfl
  have none_ : (RootMachine (rootTable .new)).Runs _ _ (rootTable (mapOf [] [])) :=
    runs_rootTable one (.remove "b") (some 7) (keepsOwners_rootTable trivial) rfl
  obtain ⟨map, root, -, owned, -⟩ := payloads_kept (isRoot_rootTable .new) none_
  exact ⟨_, _, none_, rfl, map, root, owned⟩

/-- A plain value over the only name of a payload leaves it owned and unnamed; an owned value over one of
its two names releases it while the other names it. -/
theorem payloads_leak_and_dangle :
    (¬∀ trace t', (RootMachine (rootTable .new)).Runs (fun _ _ => True) trace t' →
      ∀ map, IsRoot t' rootHandle map → ∀ value ∈ map.owned, ∃ key, map.inner.lookup key = some value) ∧
      ¬∀ trace t', (RootMachine (rootTable .new)).Runs (fun _ _ => True) trace t' →
        ∀ map, IsRoot t' rootHandle map → ∀ value ∈ (holdingOf rootHandle trace).payloads,
          value ∈ map.owned := by
  have start : (RootMachine (rootTable .new)).Runs (KeepsOwners rootHandle) [] (rootTable .new) :=
    .init
  have owned : (RootMachine (rootTable .new)).Runs _ _ (rootTable (mapOf [("a", 7)] [7])) :=
    runs_rootTable start (.setOwned "a" 7) none
      (keepsOwners_rootTable fun _ old held => absurd held (Finset.notMem_empty old)) rfl
  constructor
  · intro named
    have run : (RootMachine (rootTable .new)).Runs _ _ (rootTable (mapOf [("a", 1)] [7])) :=
      runs_rootTable (owned.weaken fun _ _ _ => trivial) (.set "a" 1) none trivial rfl
    obtain ⟨key, names⟩ := named _ _ run _ (isRoot_rootTable _) 7 (by decide)
    have member := mem_entries_mapOf names
    rw [List.mem_singleton] at member
    exact absurd (Prod.mk.inj member).2 (by decide)
  · intro kept
    have shared : (RootMachine (rootTable .new)).Runs _ _
        (rootTable (mapOf [("b", 7), ("a", 7)] [7])) :=
      runs_rootTable owned (.set "b" 7) none
        (keepsOwners_rootTable fun _ _ names => absurd (mem_entries_mapOf names) (by simp)) rfl
    have run : (RootMachine (rootTable .new)).Runs _ _
        (rootTable (mapOf [("a", 9), ("b", 7)] [9])) :=
      runs_rootTable (shared.weaken fun _ _ _ => trivial) (.setOwned "a" 9) (some 7) trivial rfl
    obtain ⟨map, root, shows_, -⟩ := shows_of_run (isRoot_rootTable .new) shared
    obtain ⟨slot, live, -⟩ := root
    obtain ⟨slot', live', -⟩ := isRoot_rootTable (mapOf [("b", 7), ("a", 7)] [7])
    obtain ⟨-, -, rfl⟩ := live'.unique live rfl
    refine absurd (kept _ _ run _ (isRoot_rootTable _) 7 ?_) (by decide)
    -- the payload is still under its second key
    rw [holdingOf, if_pos rfl, ← shows_, Holding.apply, if_neg ?_]
    · refine ⟨.inr (by decide : (7 : ValueHandle) ∈ (mapOf [("b", 7), ("a", 7)] [7]).owned), "b", ?_⟩
      rw [Function.update_of_ne (by decide)]
      rfl
    · exact (by decide : (9 : ValueHandle) ∉ (mapOf [("b", 7), ("a", 7)] [7]).owned)

end Mimi.Runtime
