/-
Module: Mimi.Lib.Tally
Purpose: What the parties of a system weigh together while each of them is at most in one activity.  Only
  finitely many parties are busy at a time, and a step of one party changes the sum by what that
  party weighed before and weighs after it.
Trusted boundary: none
-/
import Mathlib

namespace Mimi.Lib

variable {ι κ : Type}

/-- What one party weighs: nothing when it is idle. -/
def weighed (weight : κ → Nat) : Option κ → Nat
  | none => 0
  | some activity => weight activity

@[simp] theorem weighed_none (weight : κ → Nat) : weighed weight none = 0 := rfl

@[simp] theorem weighed_some (weight : κ → Nat) (activity : κ) :
    weighed weight (some activity) = weight activity := rfl

/-- What all parties weigh together. -/
noncomputable def total (weight : κ → Nat) (parties : ι → Option κ) : Nat :=
  ∑ᶠ party, weighed weight (parties party)

/-- Only finitely many parties are in an activity. -/
def Busy (parties : ι → Option κ) : Prop := Set.Finite {party | parties party ≠ none}

theorem busy_idle : Busy fun _ : ι => (none : Option κ) := by
  have none_ : {party : ι | (none : Option κ) ≠ none} = ∅ := by simp
  rw [Busy, none_]
  exact Set.finite_empty

variable {parties : ι → Option κ}

theorem Busy.update [DecidableEq ι] (busy : Busy parties) (party : ι)
    (next : Option κ) : Busy (Function.update parties party next) := by
  refine (busy.insert party).subset fun other active => ?_
  by_cases same : other = party
  · exact .inl same
  · rw [Set.mem_ofPred_eq, Function.update_of_ne same] at active
    exact .inr active

/-- The sum over any finite set that has all busy parties. -/
theorem total_eq_sum (weight : κ → Nat) {among : Finset ι} (all : ∀ party, parties party ≠ none → party ∈ among) :
    total weight parties = ∑ party ∈ among, weighed weight (parties party) := by
  refine finsum_eq_sum_of_support_subset _ fun party heavy => all party fun idle => ?_
  rw [Function.mem_support, idle] at heavy
  exact heavy rfl

/-- A step of one party: the others weigh what they did. -/
theorem total_update [DecidableEq ι] (weight : κ → Nat) (busy : Busy parties) (party : ι) (next : Option κ) :
    total weight (Function.update parties party next) + weighed weight (parties party) =
      total weight parties + weighed weight next := by
  have all : ∀ other, parties other ≠ none → other ∈ insert party busy.toFinset :=
    fun other active => Finset.mem_insert_of_mem (busy.mem_toFinset.mpr active)
  have all' : ∀ other, Function.update parties party next other ≠ none →
      other ∈ insert party busy.toFinset := by
    intro other active
    by_cases same : other = party
    · exact same ▸ Finset.mem_insert_self _ _
    · exact all other (Function.update_of_ne same next parties ▸ active)
  have mem : party ∈ insert party busy.toFinset := Finset.mem_insert_self _ _
  have rest : ∑ other ∈ (insert party busy.toFinset).erase party,
      weighed weight (Function.update parties party next other) =
      ∑ other ∈ (insert party busy.toFinset).erase party, weighed weight (parties other) := by
    refine Finset.sum_congr rfl fun other member => ?_
    rw [Function.update_of_ne (Finset.ne_of_mem_erase member)]
  rw [total_eq_sum weight all, total_eq_sum weight all', ← Finset.add_sum_erase _ _ mem,
    ← Finset.add_sum_erase _ (fun other => weighed weight (parties other)) mem, rest,
    Function.update_self]
  omega

/-- Nobody weighs anything when all are idle. -/
theorem total_idle (weight : κ → Nat) (idle : ∀ party, parties party = none) : total weight parties = 0 := by
  have weightless : ∀ party, weighed weight (parties party) = 0 := fun party => by rw [idle, weighed_none]
  rw [total, finsum_congr weightless, finsum_zero]

end Mimi.Lib
