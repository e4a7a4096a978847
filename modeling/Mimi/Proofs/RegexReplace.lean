/-
Module: Mimi.Proofs.RegexReplace
Purpose: All matches of a pattern in a row, as the first match of what is left of the text gives them, and
  what `replace_all` and `mimi_regex_find_all` make of them.
Trusted boundary: none
-/
import Mimi.Proofs.RegexSearches

namespace Mimi.Runtime.Regex

open Mimi.Lib

/-! ### Scans without the end of the text -/

/-- The first start before the end of a text at which something is found, with its length. -/
def firstStart (first : Bytes → Option Nat) : Nat → Bytes → Option (Nat × Nat)
  | _, [] => none
  | start, b :: text =>
      (first (b :: text)).elim (firstStart first (start + 1) text) fun n => some (start, n)

theorem scanStarts_cons (pattern : Bytes) (start : Nat) (b : UInt8) (text : Bytes) (work : Work) :
    scanStarts pattern start (b :: text) work =
      (attemptAt pattern (b :: text) work).1.elim
        (scanStarts pattern (start + 1) text (attemptAt pattern (b :: text) work).2)
        fun n => (some (start, n), (attemptAt pattern (b :: text) work).2) := by
  rw [scanStarts, attemptAt]
  split_ifs <;> rfl

theorem scanStarts_answers (pattern : Bytes) (start : Nat) (text : Bytes)
    (short : text.length < 2 ^ 31) : Answers Limited (scanStarts pattern start text)
      (firstStart (firstLength pattern) start text) := by
  induction text generalizing start with
  | nil => exact answers_pure _
  | cons b text ih =>
      have later := ih (start + 1) (Nat.lt_of_succ_lt short)
      refine (answers_bind (g := fun found work =>
        (found.elim (scanStarts pattern (start + 1) text work)
          fun n => (some (start, n), work) : Option (Nat × Nat) × Work))
        (attemptAt_answers pattern (b :: text) short) (fun found => ?_) ?_).congr
        (scanStarts_cons pattern start b text)
      · cases found with
        | some n => exact stays_pure _
        | none => exact later.stays
      · rw [firstStart]
        cases firstLength pattern (b :: text) with
        | some n => exact answers_pure _
        | none => exact later

/-- Where nothing is found at the end of the text, the two scans find the same. -/
theorem firstRange_eq_firstStart {first : Bytes → Option Nat} (empty : first [] = none) (start : Nat)
    (text : Bytes) : firstRange first false start text =
      (firstStart first start text).map fun at_ => (at_.1, at_.1 + at_.2) := by
  induction text generalizing start with
  | nil => rw [firstRange, empty]; rfl
  | cons b text ih =>
      rw [firstRange, firstStart]
      cases first (b :: text) with
      | some n => rfl
      | none => exact ih (start + 1)

theorem firstStart_shift {first : Bytes → Option Nat} (start : Nat) (text : Bytes) :
    firstStart first start text =
      (firstStart first 0 text).map fun at_ => (start + at_.1, at_.2) := by
  have shift : ∀ text start extra, firstStart first (start + extra) text =
      (firstStart first start text).map fun at_ => (at_.1 + extra, at_.2) := by
    intro text
    induction text with
    | nil => exact fun _ _ => rfl
    | cons b text ih =>
        intro start extra
        rw [firstStart, firstStart]
        cases first (b :: text) with
        | some n => rfl
        | none =>
            rw [Option.elim_none, Option.elim_none, ← ih, Nat.add_right_comm]
  have from0 := shift text 0 start
  rw [Nat.zero_add] at from0
  rw [from0]
  simp only [Nat.add_comm start]

/-! ### The loops -/

/-- All ranges in a row, from a position on; after an empty one the next is looked for one byte on. -/
def rangesFrom (first : Bytes → Option Nat) (text : Bytes) : Nat → Nat → List (Nat × Nat)
  | 0, _ => []
  | fuel + 1, cursor =>
      if text.length ≤ cursor then []
      else (firstStart first cursor (text.drop cursor)).elim [] fun at_ =>
        (at_.1, at_.1 + at_.2) ::
          rangesFrom first text fuel (if at_.2 = 0 then at_.1 + 1 else at_.1 + at_.2)

/-- The text from a position on with its ranges replaced; what is not UTF-8 is left out. -/
def replacedFrom (first : Bytes → Option Nat) (replacement text : Bytes) : Nat → Nat → Bytes
  | 0, _ => []
  | fuel + 1, cursor =>
      if text.length ≤ cursor then []
      else (firstStart first cursor (text.drop cursor)).elim (utf8OrEmpty (text.drop cursor)) fun at_ =>
        utf8OrEmpty ((text.take at_.1).drop cursor) ++ replacement ++
          replacedFrom first replacement text fuel (at_.1 + at_.2)

section Loops

variable (pattern : Bytes) {text : Bytes} (short : text.length < 2 ^ 31)

include short

theorem short_drop (cursor : Nat) : (text.drop cursor).length < 2 ^ 31 := by
  rw [List.length_drop]
  omega

theorem findAllLoop_answers (fuel cursor : Nat) :
    Answers Limited (findAllLoop pattern text fuel cursor)
      (rangesFrom (firstLength pattern) text fuel cursor) := by
  induction fuel generalizing cursor with
  | zero => exact answers_pure _
  | succ fuel ih =>
      by_cases ended : text.length ≤ cursor
      · refine (answers_pure _).congr fun work => ?_
        rw [findAllLoop, rangesFrom, if_pos ended, if_pos ended]
      · have scan := scanStarts_answers pattern cursor _ (short_drop short cursor)
        refine (answers_bind (g := fun found work =>
          (found.elim ([], work) fun at_ =>
            let next := if at_.2 = 0 then at_.1 + 1 else at_.1 + at_.2
            let rest := findAllLoop pattern text fuel next work
            ((at_.1, at_.1 + at_.2) :: rest.1, rest.2) : List (Nat × Nat) × Work))
          scan (fun found => ?_) ?_).congr fun work => ?_
        · cases found with
          | none => exact stays_pure _
          | some at_ => exact ((ih _).map ((at_.1, at_.1 + at_.2) :: ·)).stays
        · rw [rangesFrom, if_neg ended]
          cases firstStart (firstLength pattern) cursor (text.drop cursor) with
          | none => exact answers_pure _
          | some at_ => exact (ih _).map ((at_.1, at_.1 + at_.2) :: ·)
        · rw [findAllLoop, if_neg ended]

theorem replaceLoop_answers (replacement : Bytes) (fuel cursor : Nat) :
    Answers Limited (replaceLoop pattern replacement text fuel cursor)
      (replacedFrom (firstLength pattern) replacement text fuel cursor) := by
  induction fuel generalizing cursor with
  | zero => exact answers_pure _
  | succ fuel ih =>
      by_cases ended : text.length ≤ cursor
      · refine (answers_pure _).congr fun work => ?_
        rw [replaceLoop, replacedFrom, if_pos ended, if_pos ended]
      · have scan := scanStarts_answers pattern cursor _ (short_drop short cursor)
        refine (answers_bind (g := fun found work =>
          (found.elim (utf8OrEmpty (text.drop cursor), work) fun at_ =>
            let rest := replaceLoop pattern replacement text fuel (at_.1 + at_.2) work
            (utf8OrEmpty ((text.take at_.1).drop cursor) ++ replacement ++ rest.1, rest.2) :
              Bytes × Work))
          scan (fun found => ?_) ?_).congr fun work => ?_
        · cases found with
          | none => exact stays_pure _
          | some at_ => exact ((ih _).map (utf8OrEmpty ((text.take at_.1).drop cursor) ++ replacement ++ ·)).stays
        · rw [replacedFrom, if_neg ended]
          cases firstStart (firstLength pattern) cursor (text.drop cursor) with
          | none => exact answers_pure _
          | some at_ => exact (ih _).map (utf8OrEmpty ((text.take at_.1).drop cursor) ++ replacement ++ ·)
        · rw [replaceLoop, if_neg ended]

end Loops

/-! ### Matches in a row -/

/-- The matches in a row from a position on: each is the first match of what is left of the text, and an
empty one is followed by what is left after one more byte. -/
inductive Successive (text pattern : Bytes) : Nat → List (Nat × Nat) → Prop where
  | stop {cursor : Nat}
      (done : text.length < cursor ∨ findMatch (text.drop cursor) pattern = some none) :
      Successive text pattern cursor []
  | found {cursor s e : Nat} {ranges : List (Nat × Nat)} (within : cursor ≤ text.length)
      (first : findMatch (text.drop cursor) pattern = some (some (s, e)))
      (rest : Successive text pattern (if s = e then cursor + e + 1 else cursor + e) ranges) :
      Successive text pattern cursor ((cursor + s, cursor + e) :: ranges)

variable {cursor : Nat} {ranges : List (Nat × Nat)}

/-- There is one way to match in a row. -/
theorem Successive.unique {text pattern : Bytes} {ranges' : List (Nat × Nat)}
    (first : Successive text pattern cursor ranges) (second : Successive text pattern cursor ranges') :
    ranges = ranges' := by
  induction first generalizing ranges' with
  | stop done =>
      cases second with
      | stop => rfl
      | found within is => exact (done.elim (fun past => absurd within (Nat.not_le.mpr past))
          fun none_ => by cases none_.symm.trans is)
  | found within is _ ih =>
      cases second with
      | stop done => exact (done.elim (fun past => absurd within (Nat.not_le.mpr past))
          fun none_ => by cases none_.symm.trans is)
      | found _ is' rest =>
          obtain ⟨rfl, rfl⟩ := Prod.mk.inj (Option.some.inj (Option.some.inj (is.symm.trans is')))
          rw [ih rest]

/-- The text from a position on with some ranges replaced and every other byte kept. -/
def splice (text replacement : Bytes) : Nat → List (Nat × Nat) → Bytes
  | cursor, [] => text.drop cursor
  | cursor, range :: ranges =>
      slice text (cursor, range.1) ++ replacement ++ splice text replacement range.2 ranges

/-- No range begins or ends inside of a character: the ranges and what is between them are strings. -/
def Whole (text : Bytes) : Nat → List (Nat × Nat) → Prop
  | cursor, [] => IsString (text.drop cursor)
  | cursor, range :: ranges =>
      IsString (slice text (cursor, range.1)) ∧ IsString (slice text range) ∧ Whole text range.2 ranges

theorem fromUTF8?_eq {bytes : Bytes} {s : String} (is : s.toUTF8 = ⟨bytes.toArray⟩) :
    String.fromUTF8? ⟨bytes.toArray⟩ = some s := by
  rw [← is, String.fromUTF8?, dif_pos (show s.toUTF8.IsValidUTF8 from s.isValidUTF8)]
  rfl

theorem utf8OrEmpty_string {bytes : Bytes} (string : IsString bytes) : utf8OrEmpty bytes = bytes := by
  obtain ⟨s, is⟩ := string
  rw [utf8OrEmpty, fromUTF8?_eq is]
  rfl

theorem matchText_string {text : Bytes} {range : Nat × Nat} (string : IsString (slice text range)) :
    (matchText text range).toUTF8 = ⟨(slice text range).toArray⟩ := by
  obtain ⟨s, is⟩ := string
  rw [matchText, fromUTF8?_eq is]
  exact is

/-- What the first match of the rest of a text is when no match is empty. -/
structure Plainly (text pattern : Bytes) : Prop where
  unchanged : prepare pattern = some pattern
  unanchored : isAnchored pattern = false
  short : text.length < 2 ^ 31
  free : ∀ k ≤ text.length, ¬Limited (findPrepared (text.drop k) pattern).2
  nonempty : ∀ k ≤ text.length, ∀ n, findMatch (text.drop k) pattern ≠ some (some (n, n))

section

variable {text pattern : Bytes} (plainly : Plainly text pattern)

include plainly

theorem Plainly.findMatch_eq {k : Nat} (within : k ≤ text.length) :
    findMatch (text.drop k) pattern =
      some (firstRange (firstLength pattern) false 0 (text.drop k)) := by
  have found := findPrepared_eq (short_drop plainly.short k) (plainly.free k within)
  rw [plainly.unanchored] at found
  rw [findMatch, plainly.unchanged, Option.map_some, found]

theorem Plainly.positive {k n : Nat} (within : k ≤ text.length)
    (found : firstLength pattern (text.drop k) = some n) : n ≠ 0 := by
  rintro rfl
  have here : firstRange (firstLength pattern) false 0 (text.drop k) = some (0, 0) := by
    refine firstRange_eq_some_iff.mpr ⟨0, 0, ⟨Nat.zero_le _, nofun, ?_, fun m below => absurd below (Nat.not_lt_zero m)⟩, rfl⟩
    rwa [List.drop_zero]
  exact plainly.nonempty k within 0 ((plainly.findMatch_eq within).trans (congrArg some here))

theorem Plainly.nothing_at_end : firstLength pattern [] = none := by
  cases found : firstLength pattern [] with
  | none => rfl
  | some n =>
      have short := mem_runs_le (List.mem_of_mem_head? found)
      refine absurd (Nat.le_zero.mp short) (plainly.positive (Nat.le_refl _) ?_)
      rwa [List.drop_length]

/-- The first match of what is left, by the scan of the loops. -/
theorem Plainly.findMatch_start {k : Nat} (within : k ≤ text.length) :
    findMatch (text.drop k) pattern =
      some ((firstStart (firstLength pattern) 0 (text.drop k)).map fun at_ => (at_.1, at_.1 + at_.2)) := by
  rw [plainly.findMatch_eq within, firstRange_eq_firstStart plainly.nothing_at_end]

theorem Plainly.start_positive {k : Nat} (within : k ≤ text.length) {at_ : Nat × Nat}
    (found : firstStart (firstLength pattern) 0 (text.drop k) = some at_) : at_.2 ≠ 0 := by
  intro empty
  refine plainly.nonempty k within at_.1 ?_
  rw [plainly.findMatch_start within, found, Option.map_some, empty, Nat.add_zero]

/-- The loop of all matches collects the matches in a row. -/
theorem Plainly.successive (fuel cursor : Nat) (enough : text.length < cursor + fuel) :
    Successive text pattern cursor (rangesFrom (firstLength pattern) text fuel cursor) := by
  induction fuel generalizing cursor with
  | zero => exact .stop (.inl enough)
  | succ fuel ih =>
      rw [rangesFrom]
      by_cases ended : text.length ≤ cursor
      · rw [if_pos ended]
        refine .stop ?_
        rcases Nat.lt_or_ge text.length cursor with past | here
        · exact .inl past
        · refine .inr ?_
          rw [plainly.findMatch_start here, List.drop_eq_nil_iff.mpr ended]
          rfl
      · rw [if_neg ended, firstStart_shift]
        have within : cursor ≤ text.length := Nat.le_of_not_le ended
        have first := plainly.findMatch_start within
        cases found : firstStart (firstLength pattern) 0 (text.drop cursor) with
        | none =>
            rw [found] at first
            exact .stop (.inr first)
        | some at_ =>
            have positive := plainly.start_positive within found
            rw [found] at first
            have next := ih (cursor + (at_.1 + at_.2)) (by omega)
            rw [Option.map_some, Option.elim_some, if_neg positive, Nat.add_assoc]
            refine .found within first ?_
            rw [if_neg (by omega)]
            exact next

/-- The loop of the replacement replaces the matches in a row. -/
theorem Plainly.replaced (replacement : Bytes) (fuel cursor : Nat) (enough : text.length < cursor + fuel)
    (whole : Whole text cursor (rangesFrom (firstLength pattern) text fuel cursor)) :
    replacedFrom (firstLength pattern) replacement text fuel cursor =
      splice text replacement cursor (rangesFrom (firstLength pattern) text fuel cursor) := by
  induction fuel generalizing cursor with
  | zero =>
      rw [replacedFrom, rangesFrom, splice, List.drop_eq_nil_iff.mpr (by omega)]
  | succ fuel ih =>
      rw [rangesFrom] at whole
      rw [replacedFrom, rangesFrom]
      by_cases ended : text.length ≤ cursor
      · rw [if_pos ended, if_pos ended, splice, List.drop_eq_nil_iff.mpr ended]
      · rw [if_neg ended] at whole
        rw [if_neg ended, if_neg ended]
        have within : cursor ≤ text.length := Nat.le_of_not_le ended
        rw [firstStart_shift] at whole ⊢
        cases found : firstStart (firstLength pattern) 0 (text.drop cursor) with
        | none =>
            rw [found] at whole
            exact utf8OrEmpty_string whole
        | some at_ =>
            have positive := plainly.start_positive within found
            rw [found, Option.map_some, Option.elim_some, if_neg positive] at whole
            obtain ⟨kept, -, rest⟩ := whole
            rw [Option.map_some, Option.elim_some, Option.elim_some, if_neg positive, splice,
              ih _ (by omega) rest]
            congr 2
            exact utf8OrEmpty_string kept

end

/-! ### Replacement -/

/-- Ranges in a row from a position on. -/
def Ordered (text : Bytes) : Nat → List (Nat × Nat) → Prop
  | _, [] => True
  | cursor, range :: ranges =>
      cursor ≤ range.1 ∧ range.1 ≤ range.2 ∧ range.2 ≤ text.length ∧ Ordered text range.2 ranges

theorem slice_append_drop {text : Bytes} {i j : Nat} (ordered : i ≤ j) (within : j ≤ text.length) :
    slice text (i, j) ++ text.drop j = text.drop i := by
  have whole := List.take_append_drop j text
  calc slice text (i, j) ++ text.drop j
      = (text.take j).drop i ++ (text.drop j).drop (i - (text.take j).length) := by
        rw [slice, List.length_take, Nat.min_eq_left within, Nat.sub_eq_zero_of_le ordered, List.drop_zero]
    _ = text.drop i := by rw [← List.drop_append, whole]

/-- Ranges that are replaced by themselves leave the text as it is. -/
theorem splice_same {text replacement : Bytes}
    (ordered : Ordered text cursor ranges) (same : ∀ m ∈ ranges, slice text m = replacement) :
    splice text replacement cursor ranges = text.drop cursor := by
  induction ranges generalizing cursor with
  | nil => rfl
  | cons range ranges ih =>
      obtain ⟨before, inside, within, rest⟩ := ordered
      obtain ⟨here, there⟩ := List.forall_mem_cons.mp same
      rw [splice, ih rest there, ← here, List.append_assoc, slice_append_drop inside within,
        slice_append_drop before (inside.trans within)]

/-- Where the ranges are as long as the replacement, only then. -/
theorem same_of_splice {text replacement : Bytes}
    (ordered : Ordered text cursor ranges) (long : ∀ m ∈ ranges, m.2 - m.1 = replacement.length)
    (unchanged : splice text replacement cursor ranges = text.drop cursor) :
    ∀ m ∈ ranges, slice text m = replacement := by
  induction ranges generalizing cursor with
  | nil => exact nofun
  | cons range ranges ih =>
      obtain ⟨before, inside, within, rest⟩ := ordered
      obtain ⟨here, there⟩ := List.forall_mem_cons.mp long
      rw [splice, ← slice_append_drop before (inside.trans within), ← slice_append_drop inside within,
        List.append_assoc] at unchanged
      have length : replacement.length = (slice text range).length := by
        rw [slice, List.length_drop, List.length_take, Nat.min_eq_left within, here]
      obtain ⟨same, later⟩ := List.append_inj (List.append_cancel_left unchanged) length
      exact List.forall_mem_cons.mpr ⟨same.symm, ih rest there later⟩

theorem Plainly.ordered {text pattern : Bytes} (plainly : Plainly text pattern) (fuel cursor : Nat) :
    Ordered text cursor (rangesFrom (firstLength pattern) text fuel cursor) := by
  induction fuel generalizing cursor with
  | zero => trivial
  | succ fuel ih =>
      rw [rangesFrom]
      by_cases ended : text.length ≤ cursor
      · rw [if_pos ended]
        trivial
      · rw [if_neg ended, firstStart_shift]
        have within : cursor ≤ text.length := Nat.le_of_not_le ended
        cases found : firstStart (firstLength pattern) 0 (text.drop cursor) with
        | none => trivial
        | some at_ =>
            have positive := plainly.start_positive within found
            have range : firstRange (firstLength pattern) false 0 (text.drop cursor) =
                some (at_.1, at_.1 + at_.2) := by
              rw [firstRange_eq_firstStart plainly.nothing_at_end, found]
              rfl
            obtain ⟨k, n, first, same⟩ := firstRange_eq_some_iff.mp range
            obtain ⟨start, end_⟩ := Prod.mk.inj same
            have length := mem_runs_le (List.mem_of_mem_head? first.here)
            have start_ := first.within
            rw [List.length_drop, List.length_drop] at length
            rw [List.length_drop] at start_
            rw [Option.map_some, Option.elim_some, if_neg positive]
            exact ⟨Nat.le_add_right _ _, Nat.le_add_right _ _, by omega, ih _⟩

/-- The list of all matches and the replacement agree with the matches in a row. -/
structure Agree (text pattern replacement : Bytes) (ranges : List (Nat × Nat)) : Prop where
  successive : Successive text pattern 0 ranges
  listed : mimiRegexFindAll text pattern = listJson (ranges.map (matchText text))
  texts : ∀ m ∈ ranges, (matchText text m).toUTF8 = ⟨(slice text m).toArray⟩
  replaced : replaceAll text pattern replacement = some (splice text replacement 0 ranges)

theorem Whole.strings {text : Bytes} (whole : Whole text cursor ranges) : ∀ m ∈ ranges, IsString (slice text m) := by
  induction ranges generalizing cursor with
  | nil => exact nofun
  | cons range ranges ih =>
      obtain ⟨-, here, rest⟩ := whole
      exact List.forall_mem_cons.mpr ⟨here, ih rest⟩

/-- Unless a limit is hit, the three searches agree on a pattern that the preparation leaves as it is, that
is not anchored at its front and has no empty match in the text, when no match splits a character.  The
text stays as it is if there is no match or each one is the replacement, and only then if all matches are
as long as the replacement. -/
theorem replace_all_agrees {text pattern : Bytes} (replacement : Bytes) (plainly : Plainly text pattern)
    (limit : pattern.length ≤ maxRegexPatternLen) (freeAll : ¬Limited (findAllRun text pattern).2)
    (freeReplace : ¬Limited (replacePrepared text pattern replacement).2)
    (whole : ∀ ranges, Successive text pattern 0 ranges → Whole text 0 ranges) :
    ∃ ranges, Agree text pattern replacement ranges ∧
      ((findMatch text pattern = some none ∨ ∀ m ∈ ranges, slice text m = replacement) →
        replaceAll text pattern replacement = some text) ∧
      ((∀ m ∈ ranges, m.2 - m.1 = replacement.length) →
        replaceAll text pattern replacement = some text → ∀ m ∈ ranges, slice text m = replacement) := by
  have successive := plainly.successive (text.length + 1) 0 (by omega)
  have successive' := plainly.successive (text.length + regexMaxWork + 1) 0 (by omega)
  have listed : (findAllRun text pattern).1 =
      rangesFrom (firstLength pattern) text (text.length + 1) 0 :=
    (findAllLoop_answers pattern plainly.short (text.length + 1) 0).gives _ freeAll
  have replaced : (replacePrepared text pattern replacement).1 =
      splice text replacement 0 (rangesFrom (firstLength pattern) text (text.length + 1) 0) := by
    refine ((replaceLoop_answers pattern plainly.short replacement _ 0).gives _ freeReplace).trans ?_
    rw [plainly.replaced replacement _ 0 (by omega) (whole _ successive'), successive.unique successive']
  have ordered := plainly.ordered (text.length + 1) 0
  have result : replaceAll text pattern replacement =
      some (splice text replacement 0 (rangesFrom (firstLength pattern) text (text.length + 1) 0)) := by
    rw [replaceAll, plainly.unchanged, Option.map_some, replaced]
  refine ⟨_, ⟨successive, ?_, fun m member => ?_, result⟩, fun same => ?_, fun long stays => ?_⟩
  · rw [mimiRegexFindAll, if_neg (Nat.not_lt.mpr limit), findAllMatches, listed]
  · exact matchText_string ((whole _ successive).strings m member)
  · rw [result]
    rcases same with none_ | same
    · rw [successive.unique (.stop (.inr none_))]
      rfl
    · exact congrArg some (splice_same ordered same)
  · exact same_of_splice ordered long (Option.some.inj (result.symm.trans stays))

theorem plainly_digits : Plainly (bytesOf "a1b2") (bytesOf "[0-9]") where
  unchanged := by decide
  unanchored := by decide
  short := by decide
  free := by decide
  nonempty k within n := by
    have starts : ∀ k ≤ (bytesOf "a1b2").length, findMatch ((bytesOf "a1b2").drop k) (bytesOf "[0-9]") =
        some ([some (1, 2), some (0, 1), some (1, 2), some (0, 1), none][k]?.getD none) := by decide
    have apart : ∀ m ∈ [some (1, 2), some (0, 1), some (1, 2), some (0, 1), (none : Option (Nat × Nat))],
        m ≠ some (n, n) := by
      intro m member same
      simp only [List.mem_cons, List.not_mem_nil, or_false] at member
      rcases member with rfl | rfl | rfl | rfl | rfl <;> simp at same <;> omega
    rw [starts k within]
    intro same
    cases inside : ([some (1, 2), some (0, 1), some (1, 2), some (0, 1), none] :
        List (Option (Nat × Nat)))[k]? with
    | none =>
        rw [inside] at same
        cases same
    | some m =>
        rw [inside] at same
        exact apart m (List.mem_of_getElem? inside) (Option.some.inj same)

theorem successive_digits : Successive (bytesOf "a1b2") (bytesOf "[0-9]") 0 [(1, 2), (3, 4)] := by
  have last : Successive (bytesOf "a1b2") (bytesOf "[0-9]") 4 [] := .stop (.inr (by decide))
  have first : findMatch ((bytesOf "a1b2").drop 0) (bytesOf "[0-9]") = some (some (1, 2)) := by
    decide
  have second : findMatch ((bytesOf "a1b2").drop 2) (bytesOf "[0-9]") = some (some (1, 2)) := by
    decide
  exact .found (by decide) first (.found (by decide) second last)

theorem replace_all_agrees_digits :
    ∃ ranges, Agree (bytesOf "a1b2") (bytesOf "[0-9]") (bytesOf "#") ranges := by
  obtain ⟨ranges, agree, -⟩ := replace_all_agrees (bytesOf "#") plainly_digits (by decide)
    (by decide) (by decide) fun ranges found => by
      rw [found.unique successive_digits]
      exact ⟨⟨"a", by decide⟩, ⟨"1", by decide⟩, ⟨"b", by decide⟩, ⟨"2", by decide⟩, ⟨"", by decide⟩⟩
  exact ⟨ranges, agree⟩

-- Matches that are not as long as the replacement can leave the text as it is together.
example : replaceAll (bytesOf "bacbac") (bytesOf "[ab]*[^a]+") (bytesOf "bac") = some (bytesOf "bacbac") := by decide

/-- The list of all matches leaves out the one that `find_match` finds: it matches the group unprepared. -/
theorem find_all_misses_group :
    ¬Limited (findAllRun (bytesOf "a") (bytesOf "(a)")).2 ∧
      ¬Limited (replacePrepared (bytesOf "a") (bytesOf "a") (bytesOf "b")).2 ∧
      findMatch (bytesOf "a") (bytesOf "(a)") = some (some (0, 1)) ∧
      mimiRegexFindAll (bytesOf "a") (bytesOf "(a)") = "[]" ∧
      ¬∃ ranges, Agree (bytesOf "a") (bytesOf "(a)") (bytesOf "b") ranges := by
  have first : findMatch ((bytesOf "a").drop 0) (bytesOf "(a)") = some (some (0, 1)) := by decide
  have listed : mimiRegexFindAll (bytesOf "a") (bytesOf "(a)") = "[]" := by decide
  have last : Successive (bytesOf "a") (bytesOf "(a)") 1 [] := .stop (.inr (by decide))
  refine ⟨by decide, by decide, first, listed, ?_⟩
  rintro ⟨ranges, agree⟩
  have claimed := agree.listed
  rw [listed, agree.successive.unique (.found (by decide) first last)] at claimed
  exact absurd claimed (by decide)

end Mimi.Runtime.Regex
