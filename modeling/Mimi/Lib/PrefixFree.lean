/-
Module: Mimi.Lib.PrefixFree
Purpose: Printers whose texts can be read off the front of any text: terminated texts, sequences of
  texts, finitely many words, printed numbers and lists between brackets.
Trusted boundary: none
-/
import Mathlib

namespace Mimi.Lib

variable {α β γ : Type}

/-- The text of a value ends where the value ends, whatever follows it. -/
def PrefixFree (print : α → List γ) : Prop :=
  ∀ a b rest rest', print a ++ rest = print b ++ rest' → a = b ∧ rest = rest'

variable {print : α → List γ}

theorem PrefixFree.injective (free : PrefixFree print) :
    Function.Injective print := by
  intro a b same
  exact (free a b [] [] (by rw [same])).1

/-- A value that is printed through another one. -/
theorem PrefixFree.comp {print : β → List γ} (free : PrefixFree print) {f : α → β}
    (injective : Function.Injective f) : PrefixFree fun a => print (f a) := by
  intro a b rest rest' same
  obtain ⟨values, rests⟩ := free _ _ _ _ same
  exact ⟨injective values, rests⟩

/-- Fixed text before and after. -/
theorem PrefixFree.between (free : PrefixFree print) (before after : List γ) :
    PrefixFree fun a => before ++ print a ++ after := by
  intro a b rest rest' same
  simp only [List.append_assoc, List.append_cancel_left_eq] at same
  obtain ⟨values, same⟩ := free _ _ _ _ same
  exact ⟨values, List.append_cancel_left same⟩

/-- A text that is ended by a letter it does not contain. -/
theorem prefixFree_terminated {stop : γ} (injective : Function.Injective print) (avoids : ∀ a, stop ∉ print a) :
    PrefixFree fun a => print a ++ [stop] := by
  have split : ∀ (u v rest rest' : List γ), stop ∉ u → stop ∉ v →
      u ++ stop :: rest = v ++ stop :: rest' → u = v ∧ rest = rest' := by
    intro u
    induction u with
    | nil =>
        intro v rest rest' _ avoids' same
        cases v with
        | nil => exact ⟨rfl, (List.cons.inj same).2⟩
        | cons c v => exact absurd ((List.cons.inj same).1 ▸ List.mem_cons_self) avoids'
    | cons c u ih =>
        intro v rest rest' avoids avoids' same
        cases v with
        | nil => exact absurd ((List.cons.inj same).1 ▸ List.mem_cons_self) avoids
        | cons d v =>
            obtain ⟨rfl, tails⟩ := List.cons.inj same
            obtain ⟨rfl, rests⟩ := ih v rest rest' (fun h => avoids (List.mem_cons_of_mem _ h))
              (fun h => avoids' (List.mem_cons_of_mem _ h)) tails
            exact ⟨rfl, rests⟩
  intro a b rest rest' same
  rw [List.append_assoc, List.append_assoc] at same
  obtain ⟨values, rests⟩ := split _ _ _ _ (avoids a) (avoids b) same
  exact ⟨injective values, rests⟩

variable {code : α → List γ}

/-- Any number of codes, ended by a letter that starts no code. -/
theorem prefixFree_encoded {stop : γ} (free : PrefixFree code)
    (starts : ∀ a, ∃ c text, code a = c :: text ∧ c ≠ stop) :
    PrefixFree fun values : List α => values.flatMap code ++ [stop] := by
  have split : ∀ (us vs : List α) (rest rest' : List γ),
      us.flatMap code ++ stop :: rest = vs.flatMap code ++ stop :: rest' →
        us = vs ∧ rest = rest' := by
    intro us
    induction us with
    | nil =>
        intro vs rest rest' same
        cases vs with
        | nil => exact ⟨rfl, (List.cons.inj same).2⟩
        | cons v vs =>
            obtain ⟨c, text, begins, other⟩ := starts v
            rw [List.flatMap_cons, begins] at same
            exact absurd (List.cons.inj same).1.symm other
    | cons u us ih =>
        intro vs rest rest' same
        cases vs with
        | nil =>
            obtain ⟨c, text, begins, other⟩ := starts u
            rw [List.flatMap_cons, begins] at same
            exact absurd (List.cons.inj same).1 other
        | cons v vs =>
            simp only [List.flatMap_cons, List.append_assoc] at same
            obtain ⟨rfl, tails⟩ := free _ _ _ _ same
            obtain ⟨rfl, rests⟩ := ih vs rest rest' tails
            exact ⟨rfl, rests⟩
  intro us vs rest rest' same
  exact split us vs rest rest' (by simpa only [List.append_assoc, List.singleton_append] using same)

/-- Codes one after the other, up to the end of the text. -/
theorem PrefixFree.flatMap_injective (free : PrefixFree code)
    (nonempty : ∀ a, code a ≠ []) : Function.Injective fun values : List α =>
      values.flatMap code := by
  intro us
  induction us with
  | nil =>
      intro vs same
      cases vs with
      | nil => rfl
      | cons v vs => exact absurd (List.append_eq_nil_iff.mp same.symm).1 (nonempty v)
  | cons u us ih =>
      intro vs same
      cases vs with
      | nil => exact absurd (List.append_eq_nil_iff.mp same).1 (nonempty u)
      | cons v vs =>
          obtain ⟨rfl, tails⟩ := free _ _ _ _ same
          rw [ih tails]

/-- As many codes of good values one after the other, whatever follows them. -/
theorem flatMap_unique {Good : α → Prop}
    (free : ∀ a b rest rest', Good a → Good b → code a ++ rest = code b ++ rest' → a = b) {us vs : List α}
    {rest rest' : List γ} (length : us.length = vs.length) (good : ∀ a ∈ us, Good a) (good' : ∀ b ∈ vs, Good b)
    (same : us.flatMap code ++ rest = vs.flatMap code ++ rest') : us = vs := by
  induction us generalizing vs with
  | nil => exact (List.length_eq_zero_iff.mp length.symm).symm
  | cons u us ih =>
      cases vs with
      | nil => cases length
      | cons v vs =>
          rw [List.flatMap_cons, List.flatMap_cons, List.append_assoc, List.append_assoc] at same
          obtain rfl := free u v _ _ (good u List.mem_cons_self) (good' v List.mem_cons_self) same
          rw [ih (Nat.succ.inj length) (fun a member => good a (List.mem_cons_of_mem u member))
            (fun b member => good' b (List.mem_cons_of_mem u member)) (List.append_cancel_left same)]

/-- A text behind its weight, where every letter weighs something. -/
theorem prefixFree_framed {weight : γ → Nat} (positive : ∀ c, 0 < weight c)
    {header : Nat → List γ} (free : PrefixFree header) :
    PrefixFree fun text : List γ => header (text.map weight).sum ++ text := by
  have split : ∀ (u v rest rest' : List γ), (u.map weight).sum = (v.map weight).sum →
      u ++ rest = v ++ rest' → u = v ∧ rest = rest' := by
    intro u
    induction u with
    | nil =>
        intro v rest rest' weights same
        cases v with
        | nil => exact ⟨rfl, same⟩
        | cons c v =>
            have heavy := positive c
            rw [List.map_cons, List.sum_cons, List.map_nil, List.sum_nil] at weights
            omega
    | cons c u ih =>
        intro v rest rest' weights same
        cases v with
        | nil =>
            have heavy := positive c
            rw [List.map_cons, List.sum_cons, List.map_nil, List.sum_nil] at weights
            omega
        | cons d v =>
            obtain ⟨rfl, tails⟩ := List.cons.inj same
            rw [List.map_cons, List.sum_cons, List.map_cons, List.sum_cons] at weights
            obtain ⟨rfl, rests⟩ := ih v rest rest' (Nat.add_left_cancel weights) tails
            exact ⟨rfl, rests⟩
  intro u v rest rest' same
  simp only [List.append_assoc] at same
  obtain ⟨weights, texts⟩ := free _ _ _ _ same
  exact split u v rest rest' weights texts

/-- A list between brackets, with a separator between its elements. -/
def bracketed (open_ : γ) (separator : List γ) (close : γ) (print : α → List γ) :
    List α → List γ
  | [] => [open_, close]
  | value :: values =>
      open_ :: (print value ++ (values.flatMap fun v => separator ++ print v) ++ [close])

theorem prefixFree_bracketed {open_ close c : γ} {separator : List γ}
    (free : PrefixFree print) (starts : ∀ a, ∃ d text, print a = d :: text ∧ d ≠ close)
    (other : c ≠ close) : PrefixFree (bracketed open_ (c :: separator) close print) := by
  have tail : PrefixFree fun values : List α =>
      (values.flatMap fun v => (c :: separator) ++ print v) ++ [close] := by
    refine prefixFree_encoded ?_ fun a => ⟨c, separator ++ print a, rfl, other⟩
    have padded := free.between (c :: separator) []
    simpa only [List.append_nil] using padded
  intro us vs rest rest' same
  cases us with
  | nil =>
      cases vs with
      | nil => exact ⟨rfl, (List.cons.inj (List.cons.inj same).2).2⟩
      | cons v vs =>
          obtain ⟨d, text, begins, differs⟩ := starts v
          rw [bracketed, bracketed, begins] at same
          exact absurd (List.cons.inj (List.cons.inj same).2).1.symm differs
  | cons u us =>
      cases vs with
      | nil =>
          obtain ⟨d, text, begins, differs⟩ := starts u
          rw [bracketed, bracketed, begins] at same
          exact absurd (List.cons.inj (List.cons.inj same).2).1 differs
      | cons v vs =>
          simp only [bracketed, List.cons_append, List.append_assoc, List.cons.injEq,
            true_and] at same
          obtain ⟨rfl, tails⟩ := free _ _ _ _ same
          obtain ⟨rfl, rests⟩ := tail us vs rest rest'
            (by simpa only [List.cons_append, List.append_assoc] using tails)
          exact ⟨rfl, rests⟩

/-! ### Numbers -/

theorem digitChar_injective : ∀ m < 16, ∀ n < 16, m.digitChar = n.digitChar → m = n := by
  decide

/-- Digits in a base up to 16 determine the number. -/
theorem toDigits_injective {b : Nat} (more : 1 < b) (most : b ≤ 16) :
    Function.Injective (Nat.toDigits b) := by
  have split : ∀ n, Nat.toDigits b n =
      (if n < b then [] else Nat.toDigits b (n / b)) ++ [(n % b).digitChar] := by
    intro n
    rw [Nat.toDigits_eq_if more]
    split_ifs with less
    · rw [Nat.mod_eq_of_lt less, List.nil_append]
    · rfl
  intro m
  induction m using Nat.strong_induction_on with
  | _ m ih =>
      intro n same
      rw [split m, split n] at same
      obtain ⟨fronts, lasts⟩ := List.append_inj' same rfl
      have digit : m % b = n % b :=
        digitChar_injective _ (Nat.lt_of_lt_of_le (Nat.mod_lt _ (by omega)) most) _
          (Nat.lt_of_lt_of_le (Nat.mod_lt _ (by omega)) most) (List.singleton_inj.mp lasts)
      split_ifs at fronts with less less'
      · rwa [Nat.mod_eq_of_lt less, Nat.mod_eq_of_lt less'] at digit
      · exact absurd fronts.symm Nat.toDigits_ne_nil
      · exact absurd fronts Nat.toDigits_ne_nil
      · have quotient : m / b = n / b := ih (m / b) (Nat.div_lt_self (by omega) more) fronts
        rw [← Nat.div_add_mod m b, ← Nat.div_add_mod n b, quotient, digit]

/-- No digit is the given letter. -/
theorem not_mem_toDigits {b : Nat} (more : 1 < b) {c : Char}
    (noDigit : ∀ d < b, d.digitChar ≠ c) (n : Nat) : c ∉ Nat.toDigits b n := by
  induction n using Nat.strong_induction_on with
  | _ n ih =>
      rw [Nat.toDigits_eq_if more]
      split_ifs with less
      · simpa using (noDigit n less).symm
      · simp only [List.mem_append, List.mem_singleton, not_or]
        refine ⟨ih (n / b) (Nat.div_lt_self (by omega) more), ?_⟩
        exact (noDigit _ (Nat.mod_lt _ (by omega))).symm

end Mimi.Lib
