/-
Module: Mimi.Lib.Holdings
Purpose: Objects that are made, held by places, passed from place to place and ended.  What a place holds can be
  taken once; every object that was made is held or has ended once.
Trusted boundary: none
-/
import Mimi.Lib.SortedMap

namespace Mimi.Lib

/-- The objects are numbered as they are made. -/
structure Holdings (ι : Type) where
  held : List (ι × Nat)
  made : Nat
  /-- The objects that have ended, the last one first. -/
  ended : List Nat

namespace Holdings

variable {ι : Type} [DecidableEq ι]

def empty : Holdings ι := ⟨[], 0, []⟩

def hold (s : Holdings ι) (place : ι) (object : Nat) : Holdings ι := { s with held := (place, object) :: s.held }

/-- A place holds a new object. -/
def make (s : Holdings ι) (place : ι) : Holdings ι := { s.hold place s.made with made := s.made + 1 }

def makeAll (s : Holdings ι) (places : List ι) : Holdings ι := places.foldl make s

def holds (s : Holdings ι) (place : ι) : Bool := (s.held.lookup place).isSome

/-- A place gives up its object; one that holds none has nothing to give. -/
def take (s : Holdings ι) (place : ι) : Option (Nat × Holdings ι) :=
  (s.held.lookup place).map fun object => (object, { s with held := s.held.eraseP fun entry => entry.1 = place })

def finish (s : Holdings ι) (object : Nat) : Holdings ι := { s with ended := object :: s.ended }

/-- The objects of places end, one after another. -/
def finishAll : List ι → Holdings ι → Option (Holdings ι)
  | [], s => some s
  | place :: rest, s => do
      let (object, s) ← s.take place
      finishAll rest (s.finish object)

/-- Places that are written to lose what they hold. -/
def lose (s : Holdings ι) (places : List ι) : Holdings ι :=
  { s with held := s.held.filter fun entry => entry.1 ∉ places }

/-- The places that hold something, each a single object. -/
structure Tracks (live : ι → Prop) (s : Holdings ι) : Prop where
  single : (s.held.map Prod.fst).Nodup
  exact : ∀ place, place ∈ s.held.map Prod.fst ↔ live place

/-- Every object that was made is held or has ended, and no other, none of them twice. -/
def Balanced (s : Holdings ι) : Prop := (s.held.map Prod.snd ++ s.ended).Perm (List.range s.made)

variable {live live' : ι → Prop} {s s' : Holdings ι} {place : ι} {object : Nat}

omit [DecidableEq ι] in
theorem tracks_empty : Tracks (fun _ : ι => False) empty := ⟨.nil, fun _ => by simp [empty]⟩

omit [DecidableEq ι] in
theorem balanced_empty : (empty : Holdings ι).Balanced := .nil

omit [DecidableEq ι] in
theorem Tracks.congr (tracks : Tracks live s) (same : ∀ place, live' place ↔ live place) : Tracks live' s :=
  ⟨tracks.single, fun place => (tracks.exact place).trans (same place).symm⟩

omit [DecidableEq ι] in
/-- Nothing is live any more: nothing is held. -/
theorem Tracks.nothing (tracks : Tracks live s) (none_ : ∀ place, ¬live place) : s.held = [] :=
  List.map_eq_nil_iff.mp (List.eq_nil_iff_forall_not_mem.mpr fun place member =>
    none_ place ((tracks.exact place).mp member))

omit [DecidableEq ι] in
theorem Tracks.hold (tracks : Tracks live s) (fresh : ¬live place) (object : Nat) :
    Tracks (fun other => other = place ∨ live other) (s.hold place object) where
  single := List.nodup_cons.mpr ⟨fun member => fresh ((tracks.exact place).mp member), tracks.single⟩
  exact other := List.mem_cons.trans (or_congr Iff.rfl (tracks.exact other))

omit [DecidableEq ι] in
theorem Tracks.make (tracks : Tracks live s) (fresh : ¬live place) :
    Tracks (fun other => other = place ∨ live other) (s.make place) :=
  ⟨(tracks.hold fresh s.made).single, (tracks.hold fresh s.made).exact⟩

variable {places : List ι}

omit [DecidableEq ι] in
theorem Tracks.makeAll (tracks : Tracks live s) (fresh : ∀ place ∈ places, ¬live place)
    (apart : places.Nodup) : Tracks (fun other => other ∈ places ∨ live other) (s.makeAll places) := by
  induction places generalizing live s with
  | nil => exact tracks.congr fun other => by simp
  | cons place rest ih =>
      obtain ⟨outside, apart⟩ := List.nodup_cons.mp apart
      have next := ih (tracks.make (fresh place List.mem_cons_self)) (fun other member => ?_) apart
      · exact next.congr fun other => by simp only [List.mem_cons]; tauto
      · rintro (rfl | before)
        · exact outside member
        · exact fresh other (List.mem_cons_of_mem _ member) before

theorem lookup_of_mem {entries : List (ι × Nat)} (member : place ∈ entries.map Prod.fst) :
    ∃ object, entries.lookup place = some object := by
  rw [← Option.isSome_iff_exists, List.lookup_isSome_iff]
  obtain ⟨entry, inside, rfl⟩ := List.mem_map.mp member
  exact ⟨entry, inside, beq_self_eq_true _⟩

theorem Tracks.holds (tracks : Tracks live s) (is : live place) : s.holds place = true :=
  Option.isSome_iff_exists.mpr (lookup_of_mem ((tracks.exact place).mpr is))

theorem Tracks.take (tracks : Tracks live s) (is : live place) : ∃ object s', s.take place = some (object, s') ∧
    Tracks (fun other => live other ∧ other ≠ place) s' := by
  obtain ⟨object, found⟩ := lookup_of_mem ((tracks.exact place).mpr is)
  have perm := (SortedMap.perm_eraseP found).map Prod.fst
  obtain ⟨outside, apart⟩ := List.nodup_cons.mp (perm.nodup_iff.mpr tracks.single)
  refine ⟨object, _, by rw [Holdings.take, found, Option.map_some], apart, fun other => ?_⟩
  have members : other = place ∨ other ∈ (s.held.eraseP fun entry => entry.1 = place).map Prod.fst ↔ live other :=
    List.mem_cons.symm.trans (perm.mem_iff.trans (tracks.exact other))
  constructor
  · exact fun member => ⟨members.mp (.inr member), fun same => outside (same ▸ member)⟩
  · exact fun ⟨before, other_⟩ => (members.mpr before).resolve_left other_

theorem take_eq (taken : s.take place = some (object, s')) :
    (object :: s'.held.map Prod.snd).Perm (s.held.map Prod.snd) ∧ s'.made = s.made ∧ s'.ended = s.ended := by
  obtain ⟨object', found, is⟩ := Option.map_eq_some_iff.mp taken
  cases is
  exact ⟨(SortedMap.perm_eraseP found).map Prod.snd, rfl, rfl⟩

omit [DecidableEq ι] in
theorem Balanced.make (balanced : s.Balanced) (place : ι) : (s.make place).Balanced := by
  rw [Balanced, Holdings.make, List.range_succ]
  exact (balanced.cons s.made).trans (List.perm_append_singleton ..).symm

omit [DecidableEq ι] in
theorem Balanced.makeAll (balanced : s.Balanced) : (s.makeAll places).Balanced := by
  induction places generalizing s with
  | nil => exact balanced
  | cons place rest ih => exact ih (balanced.make place)

/-- An object goes from a place to a place. -/
theorem Balanced.pass (balanced : s.Balanced) (taken : s.take place = some (object, s')) (next : ι) :
    (s'.hold next object).Balanced := by
  obtain ⟨perm, made, ended⟩ := take_eq taken
  rw [Balanced, Holdings.hold, made, ended]
  exact (perm.append_right _).trans balanced

/-- What was taken, with what is held and what has ended. -/
theorem Balanced.taken (balanced : s.Balanced) (taken : s.take place = some (object, s')) :
    (object :: (s'.held.map Prod.snd ++ s'.ended)).Perm (List.range s'.made) := by
  obtain ⟨perm, made, ended⟩ := take_eq taken
  rw [made, ended]
  exact (perm.append_right _).trans balanced

theorem Balanced.finish (balanced : s.Balanced) (taken : s.take place = some (object, s')) :
    (s'.finish object).Balanced :=
  List.perm_middle.trans (balanced.taken taken)

theorem Balanced.finishAll (balanced : s.Balanced) (finished : finishAll places s = some s') :
    s'.Balanced := by
  induction places generalizing s with
  | nil =>
      cases finished
      exact balanced
  | cons place rest ih =>
      obtain ⟨⟨object, s₁⟩, taken, finished⟩ := Option.bind_eq_some_iff.mp finished
      exact ih (balanced.finish taken) finished

/-- What ends leaves the places of the others as they are. -/
theorem finishAll_held (finished : finishAll places s = some s') : s'.held.Sublist s.held := by
  induction places generalizing s with
  | nil =>
      cases finished
      exact .refl _
  | cons place rest ih =>
      obtain ⟨⟨object, s₁⟩, taken, finished⟩ := Option.bind_eq_some_iff.mp finished
      obtain ⟨object', -, is⟩ := Option.map_eq_some_iff.mp taken
      cases is
      exact (ih finished).trans List.eraseP_sublist

/-- Places that hold nothing have nothing to lose. -/
theorem lose_of_free (free : ∀ place ∈ places, place ∉ s.held.map Prod.fst) : s.lose places = s := by
  have kept : (s.held.filter fun entry => entry.1 ∉ places) = s.held := by
    refine List.filter_eq_self.mpr fun entry member => decide_eq_true fun written => ?_
    exact free entry.1 written (List.mem_map_of_mem member)
  rw [lose, kept]

omit [DecidableEq ι] in
/-- The places that hold something behind a creation. -/
theorem makeAll_held (held : place ∈ (s.makeAll places).held.map Prod.fst) :
    place ∈ places ∨ place ∈ s.held.map Prod.fst := by
  induction places generalizing s with
  | nil => exact .inr held
  | cons first rest ih =>
      rcases ih held with later | before
      · exact .inl (List.mem_cons_of_mem _ later)
      · exact (List.mem_cons.mp before).imp (fun (same : place = first) => same ▸ List.mem_cons_self) id

end Holdings

end Mimi.Lib
