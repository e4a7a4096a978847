/-
Module: Mimi.Lib.Ledger
Purpose: Tables of slots whose occupants are told apart by generations: writing a slot, identities
  that pair an index with a generation, and the bound below which the generations of a slot have
  been used up.
Trusted boundary: none
-/
import Mathlib

namespace Mimi.Lib

/-- What is found after a slot that was found is written. -/
theorem getElem?_set_found {α : Type} {slots : List α} {index : Nat} {old : α} (new : α)
    (found : slots[index]? = some old) (j : Nat) :
    (slots.set index new)[j]? = if j = index then some new else slots[j]? := by
  have inside : index < slots.length := (List.getElem?_eq_some_iff.mp found).1
  rw [List.getElem?_set]
  by_cases same : index = j
  · rw [if_pos same, if_pos inside, if_pos same.symm]
  · rw [if_neg same, if_neg (Ne.symm same)]

namespace Ledger

/-- No identity was minted twice, and every identity of a slot lies below the bound of the slot. -/
structure Below (bound : Nat → Nat) (minted : List (Nat × Nat)) : Prop where
  once : minted.Nodup
  below : ∀ index generation, (index, generation) ∈ minted → generation < bound index

theorem below_nil (bound : Nat → Nat) : Below bound [] :=
  ⟨List.nodup_nil, fun _ _ minted => absurd minted List.not_mem_nil⟩

variable {bound bound' : Nat → Nat} {minted : List (Nat × Nat)} {index generation : Nat}

/-- Bounds may be raised where something was minted. -/
theorem Below.raise (ledger : Below bound minted)
    (raised : ∀ i g, (i, g) ∈ minted → bound i ≤ bound' i) : Below bound' minted where
  once := ledger.once
  below i g member := Nat.lt_of_lt_of_le (ledger.below i g member) (raised i g member)

/-- An identity at or above the bound of its slot is new. -/
theorem Below.fresh (ledger : Below bound minted) (unused : bound index ≤ generation) :
    (index, generation) ∉ minted :=
  fun member => Nat.not_lt.mpr unused (ledger.below index generation member)

/-- Minting at or above the bound of the slot, and raising the bound past what was minted. -/
theorem Below.mint (ledger : Below bound minted) (unused : bound index ≤ generation)
    (raised : ∀ i g, (i, g) ∈ minted → bound i ≤ bound' i) (past : generation < bound' index) :
    Below bound' ((index, generation) :: minted) where
  once := List.nodup_cons.mpr ⟨ledger.fresh unused, ledger.once⟩
  below i g member := by
    rcases List.mem_cons.mp member with new | old
    · obtain ⟨rfl, rfl⟩ := Prod.mk.inj new
      exact past
    · exact Nat.lt_of_lt_of_le (ledger.below i g old) (raised i g old)

end Ledger

end Mimi.Lib
