/-
Module: Mimi.Lib.SortedMap
Purpose: Ordered maps and sets as sorted lists, with their entries in the order of the keys.  What a
  lookup finds after an update does not depend on the list being sorted.
Trusted boundary: none
-/
import Mathlib

namespace Mimi.Lib

section Map

variable {K V : Type}

/-- A map from keys to values, in the order of its keys. -/
structure SortedMap (K V : Type) where
  entries : List (K × V)
deriving DecidableEq, Repr

namespace SortedMap

def empty : SortedMap K V := ⟨[]⟩

def keys (m : SortedMap K V) : List K := m.entries.map Prod.fst

def values (m : SortedMap K V) : List V := m.entries.map Prod.snd

variable [DecidableEq K]

def find? (m : SortedMap K V) (k : K) : Option V := m.entries.lookup k

def contains (m : SortedMap K V) (k : K) : Bool := (m.find? k).isSome

variable [LT K] [DecidableLT K]

/-- Write an entry in its place, over one with the same key. -/
def insertEntry (k : K) (v : V) : List (K × V) → List (K × V)
  | [] => [(k, v)]
  | (k', v') :: rest =>
      if k = k' then (k, v) :: rest
      else if k < k' then (k, v) :: (k', v') :: rest
      else (k', v') :: insertEntry k v rest

def insert (m : SortedMap K V) (k : K) (v : V) : SortedMap K V := ⟨insertEntry k v m.entries⟩

omit [LT K] [DecidableLT K] in
theorem lookup_cons_ite (k k' : K) (v : V) (l : List (K × V)) :
    ((k', v) :: l).lookup k = if k = k' then some v else l.lookup k := by
  by_cases same : k = k'
  · simp [List.lookup, same]
  · simp [List.lookup, beq_eq_false_iff_ne.mpr same, same]

theorem lookup_insertEntry (k k' : K) (v : V) (l : List (K × V)) :
    (insertEntry k v l).lookup k' = if k' = k then some v else l.lookup k' := by
  induction l with
  | nil => simp [insertEntry, lookup_cons_ite]
  | cons entry rest ih =>
      obtain ⟨k₁, v₁⟩ := entry
      simp only [insertEntry]
      split_ifs with atHead before <;> simp only [lookup_cons_ite, ih] <;> split_ifs <;> simp_all

@[simp] theorem find?_insert (m : SortedMap K V) (k k' : K) (v : V) :
    (m.insert k v).find? k' = if k' = k then some v else m.find? k' :=
  lookup_insertEntry k k' v m.entries

/-- What a lookup finds behind insertions of values that depend on the keys alone. -/
theorem find?_foldl_insert (value : K → V) (l : List K) (m : SortedMap K V) (k : K) :
    (l.foldl (fun m k' => m.insert k' (value k')) m).find? k = if k ∈ l then some (value k) else m.find? k := by
  induction l generalizing m with
  | nil => simp
  | cons k' l ih =>
      rw [List.foldl_cons, ih, find?_insert]
      by_cases later : k ∈ l
      · rw [if_pos later, if_pos (List.mem_cons_of_mem k' later)]
      · rw [if_neg later]
        by_cases same : k = k'
        · rw [if_pos same, if_pos (List.mem_cons.mpr (.inl same)), same]
        · rw [if_neg same, if_neg (fun member => (List.mem_cons.mp member).elim same later)]

omit [LT K] [DecidableLT K] in
@[simp] theorem find?_empty (k : K) : (empty : SortedMap K V).find? k = none := rfl

variable {m : SortedMap K V} {k : K}

omit [LT K] [DecidableLT K] in
theorem mem_keys_iff : k ∈ m.keys ↔ (m.find? k).isSome := by
  obtain ⟨l⟩ := m
  simp only [keys, find?]
  induction l with
  | nil => simp
  | cons entry rest ih =>
      obtain ⟨k₁, v₁⟩ := entry
      rw [List.map_cons, List.mem_cons, ih, lookup_cons_ite]
      split_ifs with same <;> simp [same]

omit [LT K] [DecidableLT K] in
/-- What a lookup finds is an entry. -/
theorem mem_of_find? {v : V} (h : m.find? k = some v) :
    (k, v) ∈ m.entries := by
  obtain ⟨l⟩ := m
  simp only [find?] at h
  induction l with
  | nil => simp at h
  | cons entry rest ih =>
      obtain ⟨k₁, v₁⟩ := entry
      rw [lookup_cons_ite] at h
      split_ifs at h with same
      · simp_all
      · exact List.mem_cons_of_mem _ (ih h)

/-- A new key: the entries are those before, and the new one. -/
theorem entries_insert (v : V) (fresh : m.find? k = none) :
    (m.insert k v).entries.Perm ((k, v) :: m.entries) := by
  obtain ⟨l⟩ := m
  simp only [find?, insert] at fresh ⊢
  induction l with
  | nil => exact .refl _
  | cons entry rest ih =>
      obtain ⟨k₁, v₁⟩ := entry
      rw [lookup_cons_ite] at fresh
      split_ifs at fresh with same
      rw [insertEntry, if_neg same]
      split_ifs
      · exact .refl _
      · exact ((ih fresh).cons _).trans (List.Perm.swap ..)

/-- Take an entry out. -/
def erase (m : SortedMap K V) (k : K) : SortedMap K V := ⟨m.entries.eraseP fun entry => entry.1 = k⟩

omit [LT K] [DecidableLT K] in
/-- The entries before one is taken out are that entry and those behind it. -/
theorem perm_eraseP {v : V} {l : List (K × V)} (found : l.lookup k = some v) :
    ((k, v) :: l.eraseP fun entry => entry.1 = k).Perm l := by
  induction l with
  | nil => cases found
  | cons entry rest ih =>
      obtain ⟨k₁, v₁⟩ := entry
      rw [lookup_cons_ite] at found
      split_ifs at found with same
      · obtain rfl := same
        obtain rfl := Option.some.inj found
        simp
      · rw [List.eraseP_cons_of_neg (by simpa using Ne.symm same)]
        exact (List.Perm.swap ..).trans ((ih found).cons _)

omit [LT K] [DecidableLT K] in
theorem entries_erase {v : V} (found : m.find? k = some v) :
    ((k, v) :: (m.erase k).entries).Perm m.entries := perm_eraseP found

/-! ### Maps whose keys are in strict order -/

/-- The keys are in strict order. -/
def Sorted (m : SortedMap K V) : Prop := m.keys.Pairwise (· < ·)

omit [DecidableEq K] [DecidableLT K] in
theorem sorted_empty : (empty : SortedMap K V).Sorted := List.Pairwise.nil

theorem mem_insertEntry {k' : K} {v v' : V} {l : List (K × V)}
    (h : (k', v') ∈ insertEntry k v l) : k' = k ∨ (k', v') ∈ l := by
  induction l with
  | nil => exact .inl (Prod.mk.inj (List.mem_singleton.mp h)).1
  | cons entry rest ih =>
      obtain ⟨k₁, v₁⟩ := entry
      rw [insertEntry] at h
      split_ifs at h
      · rcases List.mem_cons.mp h with same | h
        · exact .inl (Prod.mk.inj same).1
        · exact .inr (List.mem_cons_of_mem _ h)
      · rcases List.mem_cons.mp h with same | h
        · exact .inl (Prod.mk.inj same).1
        · exact .inr h
      · rcases List.mem_cons.mp h with same | h
        · exact .inr (same ▸ List.mem_cons_self)
        · exact (ih h).imp_right (List.mem_cons_of_mem _)

section Order

variable [IsStrictTotalOrder K (· < ·)]

theorem Sorted.insert {m : SortedMap K V} (sorted : m.Sorted) (k : K) (v : V) :
    (m.insert k v).Sorted := by
  obtain ⟨l⟩ := m
  simp only [Sorted, keys, SortedMap.insert, List.pairwise_map] at sorted ⊢
  induction l with
  | nil => exact List.pairwise_singleton _ _
  | cons entry rest ih =>
      obtain ⟨k₁, v₁⟩ := entry
      obtain ⟨below, later⟩ := List.pairwise_cons.mp sorted
      rw [insertEntry]
      split_ifs with same before
      · subst same
        exact List.pairwise_cons.mpr ⟨below, later⟩
      · refine List.pairwise_cons.mpr ⟨?_, sorted⟩
        intro entry' member
        rcases List.mem_cons.mp member with rfl | member
        · exact before
        · exact trans_of (· < ·) before (below entry' member)
      · refine List.pairwise_cons.mpr ⟨fun entry' member => ?_, ih later⟩
        rcases mem_insertEntry member with at_ | member
        · rcases trichotomous_of (· < ·) k k₁ with less | equal | more
          · exact absurd less before
          · exact absurd equal same
          · exact at_ ▸ more
        · exact below entry' member

variable {m : SortedMap K V}

omit [DecidableEq K] [DecidableLT K] in
theorem Sorted.nodup (sorted : m.Sorted) : m.keys.Nodup := by
  refine List.Pairwise.imp (fun {k k'} less same => ?_) sorted
  exact irrefl_of (· < ·) k' (same ▸ less)

omit [DecidableLT K] in
/-- An entry is what a lookup of its key finds. -/
theorem Sorted.find?_of_mem (sorted : m.Sorted) {k : K} {v : V}
    (member : (k, v) ∈ m.entries) : m.find? k = some v := by
  obtain ⟨l⟩ := m
  have nodup := sorted.nodup
  simp only [keys, find?] at nodup member ⊢
  induction l with
  | nil => cases member
  | cons entry rest ih =>
      obtain ⟨k₁, v₁⟩ := entry
      rw [List.map_cons, List.nodup_cons] at nodup
      rw [lookup_cons_ite]
      rcases List.mem_cons.mp member with same | later
      · obtain ⟨rfl, rfl⟩ := Prod.mk.inj same
        rw [if_pos rfl]
      · have other : k ≠ k₁ := by
          rintro rfl
          exact nodup.1 (List.mem_map.mpr ⟨_, later, rfl⟩)
        rw [if_neg other]
        exact ih (List.Pairwise.of_cons sorted) later nodup.2

omit [DecidableLT K] in
/-- Looking all keys up gives the values. -/
theorem Sorted.filterMap_find? (sorted : m.Sorted) :
    m.keys.filterMap m.find? = m.values := by
  have found : ∀ entry ∈ m.entries, m.find? entry.1 = some entry.2 :=
    fun entry member => sorted.find?_of_mem member
  rw [keys, values, List.filterMap_map, ← List.filterMap_eq_map]
  exact List.filterMap_congr found

end Order

end SortedMap

end Map

/-! ### Maps to lists -/

section Multimap

variable {K V A : Type} [DecidableEq K]

namespace SortedMap

/-- The list at a key; without an entry it is empty. -/
def listed (m : SortedMap K (List V)) (k : K) : List V := (m.find? k).getD []

variable [LT K] [DecidableLT K]

/-- Add an element at the end of the list at a key. -/
def push (m : SortedMap K (List V)) (k : K) (v : V) : SortedMap K (List V) :=
  m.insert k (m.listed k ++ [v])

theorem listed_push (m : SortedMap K (List V)) (k k' : K) (v : V) :
    (m.push k v).listed k' = m.listed k' ++ if k' = k then [v] else [] := by
  rw [listed, push, find?_insert]
  by_cases same : k' = k
  · rw [if_pos same, if_pos same, same, Option.getD_some]
  · rw [if_neg same, if_neg same, List.append_nil, listed]

/-- What is listed once the elements of a list are added by key: those with the key, in order. -/
theorem listed_foldl_push (key : A → K) (val : A → V) (l : List A) (m : SortedMap K (List V))
    (k : K) : (l.foldl (fun m a => m.push (key a) (val a)) m).listed k =
      m.listed k ++ (l.filter fun a => key a = k).map val := by
  induction l generalizing m with
  | nil => rw [List.foldl_nil, List.filter_nil, List.map_nil, List.append_nil]
  | cons a l ih =>
      rw [List.foldl_cons, ih, listed_push, List.append_assoc]
      by_cases same : key a = k
      · rw [if_pos same.symm, List.filter_cons_of_pos (by simpa using same)]
        rfl
      · rw [if_neg fun same' => same same'.symm, List.filter_cons_of_neg (by simpa using same)]
        rfl

variable [IsStrictTotalOrder K (· < ·)]

omit [DecidableLT K] in
/-- A key below every entry is not found. -/
theorem lookup_none_of_below {k : K} {l : List (K × V)} (below : ∀ entry ∈ l, k < entry.1) :
    l.lookup k = none := by
  induction l with
  | nil => rfl
  | cons entry rest ih =>
      obtain ⟨k₁, v₁⟩ := entry
      have other : k ≠ k₁ := fun same =>
        irrefl_of (· < ·) k₁ (same ▸ below (k₁, v₁) List.mem_cons_self)
      rw [lookup_cons_ite, if_neg other]
      exact ih fun entry member => below entry (List.mem_cons_of_mem _ member)

/-- Adding an element adds it to all that is listed. -/
theorem Sorted.perm_push {m : SortedMap K (List V)} (sorted : m.Sorted) (k : K) (v : V) :
    (m.push k v).values.flatten.Perm (v :: m.values.flatten) := by
  obtain ⟨l⟩ := m
  simp only [Sorted, keys, List.pairwise_map, push, listed, find?, SortedMap.insert, values]
    at sorted ⊢
  induction l with
  | nil => exact .refl _
  | cons entry rest ih =>
      obtain ⟨k₁, vs⟩ := entry
      obtain ⟨below, later⟩ := List.pairwise_cons.mp sorted
      rw [lookup_cons_ite, insertEntry]
      split_ifs with same before
      · rw [Option.getD_some, List.map_cons, List.flatten_cons, List.map_cons, List.flatten_cons,
          List.append_assoc]
        exact List.perm_middle
      · have unlisted : rest.lookup k = none :=
          lookup_none_of_below fun entry member => trans_of (· < ·) before (below entry member)
        rw [unlisted]
        exact .refl _
      · rw [List.map_cons, List.flatten_cons, List.map_cons, List.flatten_cons]
        exact ((ih later).append_left vs).trans List.perm_middle

theorem Sorted.foldl_push {m : SortedMap K (List V)} (sorted : m.Sorted) (key : A → K)
    (val : A → V) (l : List A) :
    (l.foldl (fun m a => m.push (key a) (val a)) m).values.flatten.Perm
      (l.map val ++ m.values.flatten) := by
  induction l generalizing m with
  | nil => exact .refl _
  | cons a l ih =>
      have rest := ih (sorted.insert (key a) (m.listed (key a) ++ [val a]))
      refine rest.trans (((sorted.perm_push (key a) (val a)).append_left _).trans ?_)
      exact List.perm_middle

end SortedMap

end Multimap

section Set

variable {K : Type}

/-- A set of keys, in order. -/
structure SortedSet (K : Type) where
  elems : List K
deriving DecidableEq, Repr

namespace SortedSet

def empty : SortedSet K := ⟨[]⟩

instance : Membership K (SortedSet K) := ⟨fun s k => k ∈ s.elems⟩

variable {k : K} {s : SortedSet K}

theorem mem_def : k ∈ s ↔ k ∈ s.elems := Iff.rfl

instance [DecidableEq K] (k : K) (s : SortedSet K) : Decidable (k ∈ s) :=
  inferInstanceAs (Decidable (k ∈ s.elems))

@[simp] theorem not_mem_empty (k : K) : k ∉ (empty : SortedSet K) := by simp [mem_def, empty]

/-- Keep the elements that satisfy a predicate. -/
def filter (p : K → Bool) (s : SortedSet K) : SortedSet K := ⟨s.elems.filter p⟩

@[simp] theorem mem_filter {p : K → Bool} :
    k ∈ s.filter p ↔ k ∈ s ∧ p k = true := by
  simp [mem_def, filter]

variable [DecidableEq K]

def erase (s : SortedSet K) (k : K) : SortedSet K := s.filter fun k' => k' ≠ k

@[simp] theorem mem_erase {k' : K} : k' ∈ s.erase k ↔ k' ∈ s ∧ k' ≠ k := by
  simp [erase]

variable [LT K] [DecidableLT K]

def insertElem (k : K) : List K → List K
  | [] => [k]
  | k' :: rest =>
      if k = k' then k :: rest
      else if k < k' then k :: k' :: rest
      else k' :: insertElem k rest

def insert (s : SortedSet K) (k : K) : SortedSet K := ⟨insertElem k s.elems⟩

theorem mem_insertElem {k' : K} {l : List K} : k' ∈ insertElem k l ↔ k' = k ∨ k' ∈ l := by
  induction l with
  | nil => simp [insertElem]
  | cons head rest ih =>
      simp only [insertElem]
      split_ifs with same before
      · subst same; simp
      · simp
      · simp only [List.mem_cons, ih]
        exact or_left_comm

@[simp] theorem mem_insert {k' : K} : k' ∈ s.insert k ↔ k' = k ∨ k' ∈ s :=
  mem_insertElem

/-- Add the elements of a list. -/
def insertAll (s : SortedSet K) (ks : List K) : SortedSet K := ks.foldl insert s

@[simp] theorem mem_insertAll {ks : List K} :
    k ∈ s.insertAll ks ↔ k ∈ s ∨ k ∈ ks := by
  induction ks generalizing s with
  | nil => simp [insertAll]
  | cons k' ks ih =>
      rw [insertAll, List.foldl_cons]
      have step := @ih (s.insert k')
      rw [insertAll] at step
      rw [step, mem_insert, List.mem_cons]
      tauto

def union (s t : SortedSet K) : SortedSet K := s.insertAll t.elems

variable {t : SortedSet K}

@[simp] theorem mem_union : k ∈ s.union t ↔ k ∈ s ∨ k ∈ t := by
  rw [union, mem_insertAll]
  rfl

/-! ### Sets whose elements are in strict order -/

def Sorted (s : SortedSet K) : Prop := s.elems.Pairwise (· < ·)

omit [DecidableEq K] [DecidableLT K] in
theorem sorted_empty : (empty : SortedSet K).Sorted := List.Pairwise.nil

omit [DecidableEq K] [DecidableLT K] in
theorem Sorted.filter {s : SortedSet K} (sorted : s.Sorted) (p : K → Bool) : (s.filter p).Sorted :=
  List.Pairwise.filter p sorted

variable [IsStrictTotalOrder K (· < ·)]

theorem Sorted.insert {s : SortedSet K} (sorted : s.Sorted) (k : K) : (s.insert k).Sorted := by
  obtain ⟨l⟩ := s
  simp only [Sorted, SortedSet.insert] at sorted ⊢
  induction l with
  | nil => exact List.pairwise_singleton _ _
  | cons head rest ih =>
      obtain ⟨below, later⟩ := List.pairwise_cons.mp sorted
      rw [insertElem]
      split_ifs with same before
      · subst same
        exact List.pairwise_cons.mpr ⟨below, later⟩
      · refine List.pairwise_cons.mpr ⟨fun k' member => ?_, sorted⟩
        rcases List.mem_cons.mp member with rfl | member
        · exact before
        · exact trans_of (· < ·) before (below k' member)
      · refine List.pairwise_cons.mpr ⟨fun k' member => ?_, ih later⟩
        rcases mem_insertElem.mp member with rfl | member
        · rcases trichotomous_of (· < ·) k' head with less | equal | more
          · exact absurd less before
          · exact absurd equal same
          · exact more
        · exact below k' member

theorem Sorted.insertAll (sorted : s.Sorted) (ks : List K) : (s.insertAll ks).Sorted := by
  induction ks generalizing s with
  | nil => exact sorted
  | cons k ks ih => exact ih (sorted.insert k)

theorem Sorted.union (sorted : s.Sorted) : (s.union t).Sorted := sorted.insertAll _

omit [DecidableEq K] [DecidableLT K] in
theorem Sorted.nodup (sorted : s.Sorted) : s.elems.Nodup := by
  refine List.Pairwise.imp (fun {k k'} less same => ?_) sorted
  exact irrefl_of (· < ·) k' (same ▸ less)

omit [DecidableEq K] [DecidableLT K] in
/-- Sets in order are the same when they have the same elements. -/
theorem Sorted.ext (sorted : s.Sorted) (sorted' : t.Sorted) (same : ∀ k, k ∈ s ↔ k ∈ t) : s = t := by
  have perm : s.elems.Perm t.elems := (List.perm_ext_iff_of_nodup sorted.nodup sorted'.nodup).mpr same
  have elems : s.elems = t.elems := by
    refine perm.eq_of_pairwise (fun a b _ _ less more => ?_) sorted sorted'
    exact absurd (trans_of (· < ·) less more) (irrefl_of (· < ·) a)
  obtain ⟨l⟩ := s
  obtain ⟨l'⟩ := t
  exact congrArg SortedSet.mk elems

omit [DecidableEq K] [DecidableLT K] in
/-- A set in order that another one holds, but is not, has fewer elements. -/
theorem Sorted.length_lt (sorted : s.Sorted) (sorted' : t.Sorted)
    (sub : ∀ k ∈ s, k ∈ t) (differs : s ≠ t) : s.elems.length < t.elems.length := by
  have among : List.Subperm s.elems t.elems := List.subperm_of_subset sorted.nodup sub
  refine among.length_le.lt_of_ne fun same => differs (sorted.ext sorted' fun k => ?_)
  exact (among.perm_of_length_le same.ge).mem_iff

end SortedSet

end Set

end Mimi.Lib
