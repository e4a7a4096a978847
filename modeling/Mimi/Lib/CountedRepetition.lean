/-
Module: Mimi.Lib.CountedRepetition
Purpose: Languages repeated between two counts, and when as many copies as the greater count alone say the
  same.
Trusted boundary: none
-/
import Mathlib

namespace Mimi.Lib

variable {α : Type} {L : Language α} {n m k l : Nat} {w : List α}

/-- The texts made of at least so many and at most so many words of a language. -/
def between (L : Language α) (n m : Nat) : Language α := {w | ∃ k, n ≤ k ∧ k ≤ m ∧ w ∈ L ^ k}

theorem mem_between : w ∈ between L n m ↔ ∃ k, n ≤ k ∧ k ≤ m ∧ w ∈ L ^ k := Iff.rfl

theorem between_self (L : Language α) (n : Nat) : between L n n = L ^ n := by
  ext w
  rw [mem_between]
  constructor
  · rintro ⟨k, least, most, member⟩
    rwa [le_antisymm least most]
  · exact fun member => ⟨n, Nat.le_refl n, Nat.le_refl n, member⟩

/-- With an empty word, more copies say at least as much. -/
theorem mem_pow_of_le (empty : [] ∈ L) (fewer : k ≤ l) (member : w ∈ L ^ k) : w ∈ L ^ l := by
  induction l, fewer using Nat.le_induction with
  | base => exact member
  | succ l _ ih =>
      rw [pow_succ]
      exact Language.mem_mul.mpr ⟨w, ih, [], empty, List.append_nil w⟩

/-- The words of a power are as long as as many shortest words. -/
theorem mul_le_length_of_mem_pow (shortest : ∀ v ∈ L, l ≤ v.length) (member : w ∈ L ^ k) :
    k * l ≤ w.length := by
  induction k generalizing w with
  | zero => exact (Nat.zero_mul l).le.trans (Nat.zero_le _)
  | succ k ih =>
      rw [pow_succ] at member
      obtain ⟨front, inFront, last, inLast, rfl⟩ := Language.mem_mul.mp member
      rw [Nat.succ_mul, List.length_append]
      exact Nat.add_le_add (ih inFront) (shortest last inLast)

/-- Some word of a power is no longer than as many times a word of the language. -/
theorem exists_mem_pow (member : w ∈ L) (k : Nat) : ∃ v ∈ L ^ k, v.length = k * w.length := by
  induction k with
  | zero => exact ⟨[], Language.nil_mem_one, (Nat.zero_mul _).symm⟩
  | succ k ih =>
      obtain ⟨v, inPower, length⟩ := ih
      refine ⟨v ++ w, ?_, by rw [List.length_append, length, Nat.succ_mul]⟩
      rw [pow_succ]
      exact Language.mem_mul.mpr ⟨v, inPower, w, member, rfl⟩

theorem exists_shortest (some_ : L ≠ 0) : ∃ w ∈ L, ∀ v ∈ L, w.length ≤ v.length := by
  obtain ⟨w, member⟩ := Set.nonempty_iff_ne_empty.mpr some_
  obtain ⟨v, inL, least⟩ := WellFounded.has_min (measure fun v : List α => v.length).wf {v | v ∈ L}
    ⟨w, member⟩
  exact ⟨v, inL, fun u inL' => not_lt.mp (least u inL')⟩

/-- As many copies as the greater count stand for all counts in between just where there is one count, a
copy may be empty, or there is nothing to copy and something is asked for. -/
theorem pow_eq_between_iff (ordered : n ≤ m) :
    L ^ m = between L n m ↔ n = m ∨ [] ∈ L ∨ L = 0 ∧ 0 < n := by
  constructor
  · intro same
    by_contra others
    obtain ⟨apart, noEmpty, some_⟩ : n ≠ m ∧ [] ∉ L ∧ ¬(L = 0 ∧ 0 < n) := by
      simpa only [not_or] using others
    have fewer : n < m := lt_of_le_of_ne ordered apart
    by_cases nothing : L = 0
    · have zero : n = 0 := Nat.eq_zero_of_not_pos fun positive => some_ ⟨nothing, positive⟩
      have member : [] ∈ between L n m := ⟨0, zero.le, Nat.zero_le m, Language.nil_mem_one⟩
      rw [← same, nothing, zero_pow (Nat.ne_zero_of_lt fewer)] at member
      exact Language.notMem_zero [] member
    · obtain ⟨w, member, shortest⟩ := exists_shortest nothing
      obtain ⟨v, inPower, length⟩ := exists_mem_pow member n
      have long : m * w.length ≤ v.length := by
        refine mul_le_length_of_mem_pow shortest ?_
        rw [same]
        exact ⟨n, Nat.le_refl n, ordered, inPower⟩
      have positive : 0 < w.length := by
        refine List.length_pos_iff.mpr fun empty => noEmpty ?_
        rwa [← empty]
      rw [length] at long
      exact absurd (Nat.le_of_mul_le_mul_right long positive) (by omega)
  · rintro (rfl | empty | ⟨rfl, positive⟩)
    · exact (between_self L n).symm
    · ext w
      constructor
      · exact fun member => ⟨m, ordered, Nat.le_refl m, member⟩
      · rintro ⟨k, -, most, member⟩
        exact mem_pow_of_le empty most member
    · ext w
      rw [zero_pow (by omega)]
      refine iff_of_false (Language.notMem_zero w) ?_
      rintro ⟨k, least, -, member⟩
      rw [zero_pow (by omega)] at member
      exact Language.notMem_zero w member

end Mimi.Lib
