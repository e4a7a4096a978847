/-
Module: Mimi.Proofs.RegexSearches
Purpose: What the searches of the regex engine find, unless a limit is hit: the least position at which
  the steps of the pattern match, with the first length that they match there.
Trusted boundary: none
-/
import Mimi.Runtime.RegexSearch
import Mimi.Proofs.RegexAgreement

namespace Mimi.Runtime.Regex

open Mimi.Lib

/-! ### The preparation -/

theorem asChar_ascii {b : UInt8} (ascii : b < 0x80) : asChar b = [b] := if_pos ascii

/-! ### Texts -/

/-- The bytes are a string. -/
def IsString (bytes : Bytes) : Prop := ∃ s : String, s.toUTF8 = ⟨bytes.toArray⟩

/-- Bytes below 0x80 are a string, each a character of it. -/
theorem string_of_ascii {bytes : Bytes} (ascii : ∀ b ∈ bytes, b < 0x80) : IsString bytes := by
  have single : ∀ n < 128, String.utf8EncodeChar (Char.ofNat n) = [UInt8.ofNat n] := by decide
  have encoded : (bytes.map fun b => Char.ofNat b.toNat).flatMap String.utf8EncodeChar = bytes := by
    rw [List.flatMap_map]
    calc (bytes.flatMap fun b => String.utf8EncodeChar (Char.ofNat b.toNat))
        = bytes.flatMap fun b => [b] := List.flatMap_congr fun b member => by
          rw [single b.toNat (UInt8.lt_iff_toNat_lt.mp (ascii b member)), UInt8.ofNat_toNat]
      _ = bytes := List.flatMap_singleton' bytes
  refine ⟨String.ofList (bytes.map fun b => Char.ofNat b.toNat), ByteArray.ext ?_⟩
  rw [String.toUTF8, String.toByteArray_ofList, List.utf8Encode, encoded, List.data_toByteArray]

/-! ### One attempt -/

/-- The first length that a pattern matches at the front of a text. -/
def firstLength (pattern text : Bytes) : Option Nat := (runs (erasedSteps pattern) text).head?

/-- An attempt at the front of a text. -/
def attemptAt (pattern text : Bytes) (work : Work) : Option Nat × Work :=
  let result := matchHereWithDepth regexMaxDepth pattern text work
  (if 0 ≤ result.1 then some result.1.toNat else none, result.2)

theorem attemptAt_answers (pattern text : Bytes) (short : text.length < 2 ^ 31) :
    Answers Limited (attemptAt pattern text) (firstLength pattern text) := by
  have here := (matchHere_answers regexMaxDepth _ pattern text (Nat.le_refl _) short).map
    fun r : Int => if 0 ≤ r then some r.toNat else none
  have decoded (found : Option Nat) :
      (if 0 ≤ encode 0 found then some (encode 0 found).toNat else none) = found := by
    cases found with
    | none => rfl
    | some n =>
        rw [encode, Option.elim_some, if_pos (Int.natCast_nonneg _), Int.toNat_natCast, Nat.zero_add]
  rw [decoded] at here
  exact here

/-! ### The first match -/

/-- The first range of a text, whose positions are counted from a start, at which something is found. -/
def firstRange (first : Bytes → Option Nat) (anchored : Bool) : Nat → Bytes → Option (Nat × Nat)
  | start, [] => (first []).map fun n => (start, start + n)
  | start, b :: text =>
      (first (b :: text)).elim (if anchored then none else firstRange first anchored (start + 1) text)
        fun n => some (start, start + n)

theorem scanFind_nil (pattern : Bytes) (anchored : Bool) (start : Nat) (work : Work) :
    scanFind pattern anchored start [] work =
      ((attemptAt pattern [] work).1.map fun n => (start, start + n), (attemptAt pattern [] work).2) := by
  rw [scanFind, attemptAt]
  split_ifs <;> rfl

theorem scanFind_cons (pattern : Bytes) (anchored : Bool) (start : Nat) (b : UInt8) (text : Bytes)
    (work : Work) : scanFind pattern anchored start (b :: text) work =
      (attemptAt pattern (b :: text) work).1.elim
        (if anchored then (none, (attemptAt pattern (b :: text) work).2)
          else scanFind pattern anchored (start + 1) text (attemptAt pattern (b :: text) work).2)
        fun n => (some (start, start + n), (attemptAt pattern (b :: text) work).2) := by
  rw [scanFind, attemptAt]
  split_ifs <;> rfl

/-- Unless a limit is hit, the scan finds the first range. -/
theorem scanFind_answers (pattern : Bytes) (anchored : Bool) (start : Nat) (text : Bytes)
    (short : text.length < 2 ^ 31) : Answers Limited (scanFind pattern anchored start text)
      (firstRange (firstLength pattern) anchored start text) := by
  induction text generalizing start with
  | nil =>
      exact ((attemptAt_answers pattern [] short).map fun found =>
        found.map fun n => (start, start + n)).congr (scanFind_nil pattern anchored start)
  | cons b text ih =>
      have later := ih (start + 1) (Nat.lt_of_succ_lt short)
      refine (answers_bind (g := fun found work =>
        (found.elim (if anchored then (none, work) else scanFind pattern anchored (start + 1) text work)
          fun n => (some (start, start + n), work) : Option (Nat × Nat) × Work))
        (attemptAt_answers pattern (b :: text) short) (fun found => ?_) ?_).congr
        (scanFind_cons pattern anchored start b text)
      · cases found with
        | some n => exact stays_pure _
        | none =>
            cases anchored with
            | true => exact stays_pure _
            | false => exact later.stays
      · rw [firstRange]
        cases firstLength pattern (b :: text) with
        | some n => exact answers_pure _
        | none =>
            cases anchored with
            | true => exact answers_pure _
            | false => exact later

/-- A range at which a search finds something: at the least position that it may try, with the length
that it finds there. -/
structure IsMatch (first : Bytes → Option Nat) (anchored : Bool) (text : Bytes) (k n : Nat) : Prop where
  within : k ≤ text.length
  front : anchored = true → k = 0
  here : first (text.drop k) = some n
  least : ∀ m < k, first (text.drop m) = none

theorem firstRange_eq_some_iff {first : Bytes → Option Nat} {anchored : Bool} {start : Nat}
    {text : Bytes} {range : Nat × Nat} : firstRange first anchored start text = some range ↔
      ∃ k n, IsMatch first anchored text k n ∧ range = (start + k, start + k + n) := by
  induction text generalizing start with
  | nil =>
      rw [firstRange, Option.map_eq_some_iff]
      constructor
      · rintro ⟨n, here, rfl⟩
        exact ⟨0, n, ⟨Nat.le_refl _, fun _ => rfl, here, fun m below => absurd below (Nat.not_lt_zero m)⟩,
          rfl⟩
      · rintro ⟨k, n, found, rfl⟩
        obtain rfl := Nat.le_zero.mp found.within
        exact ⟨n, found.here, rfl⟩
  | cons b text ih =>
      rw [firstRange]
      cases here : first (b :: text) with
      | some n =>
          rw [Option.elim_some, Option.some.injEq]
          constructor
          · rintro rfl
            exact ⟨0, n, ⟨Nat.zero_le _, fun _ => rfl, here, fun m below => absurd below (Nat.not_lt_zero m)⟩,
              rfl⟩
          · rintro ⟨k, n', found, rfl⟩
            cases k with
            | succ k => cases (found.least 0 (Nat.succ_pos k)).symm.trans here
            | zero =>
                obtain rfl := Option.some.inj (here.symm.trans found.here)
                rfl
      | none =>
          rw [Option.elim_none]
          cases anchored with
          | true =>
              refine iff_of_false nofun ?_
              rintro ⟨k, n, found, -⟩
              obtain rfl := found.front rfl
              cases here.symm.trans found.here
          | false =>
              rw [if_neg (by decide), ih]
              constructor
              · rintro ⟨k, n, found, rfl⟩
                refine ⟨k + 1, n, ⟨Nat.succ_le_succ found.within, nofun, found.here, fun m below => ?_⟩, ?_⟩
                · cases m with
                  | zero => exact here
                  | succ m => exact found.least m (Nat.lt_of_succ_lt_succ below)
                · rw [Nat.add_assoc, Nat.add_comm 1 k]
              · rintro ⟨k, n, found, rfl⟩
                cases k with
                | zero => cases here.symm.trans found.here
                | succ k =>
                    refine ⟨k, n, ⟨Nat.le_of_succ_le_succ found.within, nofun, found.here,
                      fun m below => found.least (m + 1) (Nat.succ_lt_succ below)⟩, ?_⟩
                    rw [Nat.add_assoc start 1 k, Nat.add_comm 1 k]

/-- Nothing is found exactly when there is nothing at any position that the search may try. -/
theorem firstRange_eq_none_iff {first : Bytes → Option Nat} {anchored : Bool} {start : Nat}
    {text : Bytes} : firstRange first anchored start text = none ↔
      ∀ k ≤ text.length, (anchored = true → k = 0) → first (text.drop k) = none := by
  induction text generalizing start with
  | nil =>
      rw [firstRange, Option.map_eq_none_iff]
      constructor
      · intro none_ k within _
        obtain rfl := Nat.le_zero.mp within
        exact none_
      · exact fun all => all 0 (Nat.le_refl _) fun _ => rfl
  | cons b text ih =>
      rw [firstRange]
      cases here : first (b :: text) with
      | some n =>
          rw [Option.elim_some]
          refine iff_of_false nofun fun all => ?_
          cases here.symm.trans (all 0 (Nat.zero_le _) fun _ => rfl)
      | none =>
          rw [Option.elim_none]
          cases anchored with
          | true =>
              refine iff_of_true rfl fun k _ front => ?_
              obtain rfl := front rfl
              exact here
          | false =>
              rw [if_neg (by decide), ih]
              constructor
              · intro all k within _
                cases k with
                | zero => exact here
                | succ k => exact all k (Nat.le_of_succ_le_succ within) nofun
              · exact fun all k within _ => all (k + 1) (Nat.succ_le_succ within) nofun

/-- Where a prepared pattern is found, unless a limit is hit. -/
theorem findPrepared_eq {text prepared : Bytes} (short : text.length < 2 ^ 31)
    (free : ¬Limited (findPrepared text prepared).2) :
    (findPrepared text prepared).1 =
      firstRange (firstLength prepared) (isAnchored prepared) 0 text :=
  (scanFind_answers prepared (isAnchored prepared) 0 text short).gives _ free

end Mimi.Runtime.Regex
