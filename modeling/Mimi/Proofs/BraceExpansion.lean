/-
Module: Mimi.Proofs.BraceExpansion
Purpose: The expansion of counted repetitions: when the scan back over what has been written finds the
  atom before a brace, and that the expanded pattern then matches what the pattern with counts matches.
Trusted boundary: none
-/
import Mimi.Proofs.CountedPatterns

namespace Mimi.Runtime.Regex

open Mimi.Lib

/-! ### Slices of ASCII strings -/

def Ascii (s : Bytes) : Prop := ∀ b ∈ s, b < 0x80

variable {s : Bytes}

theorem ascii_append {t : Bytes} : Ascii (s ++ t) ↔ Ascii s ∧ Ascii t := List.forall_mem_append

variable {b : UInt8}

theorem Ascii.cons : Ascii (b :: s) ↔ b < 0x80 ∧ Ascii s := List.forall_mem_cons

theorem ascii_nil : Ascii [] := List.forall_mem_nil _

theorem ascii_singleton : Ascii [b] ↔ b < 0x80 := List.forall_mem_singleton

theorem isCharBoundary_ascii (ascii : Ascii s) {i : Nat} (within : i ≤ s.length) :
    isCharBoundary s i = true := by
  rcases Nat.lt_or_ge i s.length with inside | outside
  · have low : s[i] < 0x80 := ascii _ (List.getElem_mem inside)
    rw [isCharBoundary, List.getElem?_eq_getElem inside]
    simp [low]
  · have last : i = s.length := le_antisymm within outside
    rw [isCharBoundary, decide_eq_true last, Bool.or_true, Bool.true_or]

theorem sliceStr_ascii (ascii : Ascii s) {start end_ : Nat} (front : start ≤ s.length)
    (back : end_ ≤ s.length) : sliceStr s start end_ = some ((s.take end_).drop start) := by
  rw [sliceStr, isCharBoundary_ascii ascii front, isCharBoundary_ascii ascii back]
  rfl

variable {atom : Bytes}

theorem sliceStr_append {before : Bytes} (ascii : Ascii (before ++ atom)) :
    sliceStr (before ++ atom) before.length (before ++ atom).length = some atom := by
  rw [sliceStr_ascii ascii (by rw [List.length_append]; omega) (Nat.le_refl _), List.take_length,
    List.drop_left]

/-! ### The scans back -/

theorem skipQuantifiers_concat (front : Bytes) (star : b ≠ byte '*') (plus : b ≠ byte '+') :
    skipQuantifiers (front ++ [b]) (front ++ [b]).length = (front ++ [b]).length := by
  rw [List.length_append, List.length_singleton, skipQuantifiers, List.getElem?_concat_length]
  rw [if_neg]
  simp [star, plus]

theorem escaped_append (front back : Bytes) :
    escaped (front ++ back) front.length = decide (front.getLast? = some (byte '\\')) := by
  rcases List.eq_nil_or_concat front with rfl | ⟨front, b, rfl⟩
  · rfl
  · rw [escaped, List.concat_eq_append, List.getLast?_concat, List.length_append, List.length_singleton,
      Nat.add_sub_cancel, List.append_assoc, List.getElem?_append_right (Nat.le_refl _), Nat.sub_self]
    simp

theorem escaped_after (before : Bytes) (prev : UInt8) (front back : Bytes) :
    escaped (before ++ prev :: front ++ back) (before ++ prev :: front).length =
      decide (front.getLastD prev = byte '\\') := by
  rw [escaped_append, List.getLast?_append, List.getLast?_cons, Option.some_or, List.getLastD_eq_getLast?]
  exact decide_eq_decide.mpr Option.some_inj

theorem getElem?_after (before : Bytes) (b : UInt8) (back : Bytes) :
    (before ++ b :: back)[before.length]? = some b := by
  rw [List.getElem?_append_right (Nat.le_refl _), Nat.sub_self]
  rfl

/-- Every `[` stands right after a backslash. -/
def protectedBrackets (prev : UInt8) : Bytes → Bool
  | [] => true
  | b :: bytes => (b ≠ byte '[' || prev = byte '\\') && protectedBrackets b bytes

theorem protectedBrackets_at (prev b : UInt8) (front back : Bytes)
    (protected_ : protectedBrackets prev (front ++ b :: back) = true) (bracket : b = byte '[') :
    front.getLastD prev = byte '\\' := by
  induction front generalizing prev with
  | nil =>
      rw [List.nil_append, protectedBrackets, Bool.and_eq_true] at protected_
      simpa [bracket] using protected_.1
  | cons c front ih =>
      rw [List.cons_append, protectedBrackets, Bool.and_eq_true] at protected_
      rw [List.getLastD_cons]
      exact ih c protected_.2

/-- The scan from a `]` passes over what is protected and stops at the `[` of the class. -/
theorem findOpenBracket_class {before : Bytes} (open_ : before.getLast? ≠ some (byte '\\')) (front back : Bytes)
    (protected_ : protectedBrackets (byte '[') (front ++ back) = true) :
    findOpenBracket (before ++ byte '[' :: (front ++ back)) (before.length + 1 + front.length) =
      some before.length := by
  induction front using List.reverseRecOn generalizing back with
  | nil =>
      rw [List.length_nil, Nat.add_zero, findOpenBracket, List.nil_append, getElem?_after, escaped_append,
        decide_eq_false open_]
      rfl
  | append_singleton front b ih =>
      have place : before ++ byte '[' :: (front ++ [b] ++ back) =
          (before ++ byte '[' :: front) ++ b :: back := by simp
      have index : before.length + 1 + (front ++ [b]).length = (before ++ byte '[' :: front).length + 1 := by
        simp only [List.length_append, List.length_cons, List.length_nil]
        omega
      have rest := ih (b :: back) (by simpa using protected_)
      have passed := protectedBrackets_at (byte '[') b front back (by simpa using protected_)
      have shape : before ++ byte '[' :: (front ++ b :: back) =
          (before ++ byte '[' :: front) ++ b :: back := by simp
      have index' : before.length + 1 + front.length = (before ++ byte '[' :: front).length := by
        simp only [List.length_append, List.length_cons]
        omega
      rw [shape, index'] at rest
      rw [place, index, findOpenBracket, getElem?_after, escaped_after, if_neg, rest]
      intro both
      obtain ⟨bracket, unescaped⟩ := Bool.and_eq_true_iff.mp both
      have same : b = byte '[' := Option.some.inj (of_decide_eq_true bracket)
      rw [decide_eq_true (passed same)] at unescaped
      cases unescaped

/-- The unescaped `)` of a part of a pattern less its unescaped `(`, with the byte before it. -/
def surplus (prev : UInt8) : Bytes → Int
  | [] => 0
  | b :: bytes =>
      (if prev = byte '\\' then 0 else if b = byte ')' then 1 else if b = byte '(' then -1 else 0) +
        surplus b bytes

/-- Read from the end, more parentheses close than open, at every place. -/
def closing (prev : UInt8) : Bytes → Bool
  | [] => true
  | b :: bytes => 0 < surplus prev (b :: bytes) && closing b bytes

theorem closing_at (prev b : UInt8) (front back : Bytes) (closes : closing prev (front ++ b :: back) = true) :
    0 < surplus (front.getLastD prev) (b :: back) := by
  induction front generalizing prev with
  | nil =>
      rw [List.nil_append, closing, Bool.and_eq_true] at closes
      exact of_decide_eq_true closes.1
  | cons c front ih =>
      rw [List.cons_append, closing, Bool.and_eq_true] at closes
      rw [List.getLastD_cons]
      exact ih c closes.2

/-- The scan from the end of a group counts what its parentheses leave open and stops at its `(`. -/
theorem findOpenParen_group {before : Bytes} (open_ : before.getLast? ≠ some (byte '\\')) (front back : Bytes)
    (closes : closing (byte '(') (front ++ back) = true)
    (balanced : surplus (byte '(') (front ++ back) = 1) :
    findOpenParen (before ++ byte '(' :: (front ++ back)) (before.length + 1 + front.length)
      (surplus (front.getLastD (byte '(')) back) = some before.length := by
  induction front using List.reverseRecOn generalizing back with
  | nil =>
      have one : surplus (byte '(') back = 1 := balanced
      rw [List.length_nil, Nat.add_zero, findOpenParen, List.getLastD_nil, List.nil_append, one,
        getElem?_after, escaped_append, decide_eq_false open_]
      rfl
  | append_singleton front b ih =>
      have shape : before ++ byte '(' :: (front ++ b :: back) =
          (before ++ byte '(' :: front) ++ b :: back := by simp
      have place : before ++ byte '(' :: (front ++ [b] ++ back) =
          (before ++ byte '(' :: front) ++ b :: back := by simp
      have index : before.length + 1 + (front ++ [b]).length = (before ++ byte '(' :: front).length + 1 := by
        simp only [List.length_append, List.length_cons, List.length_nil]
        omega
      have index' : before.length + 1 + front.length = (before ++ byte '(' :: front).length := by
        simp only [List.length_append, List.length_cons]
        omega
      have closes' : closing (byte '(') (front ++ b :: back) = true := by simpa using closes
      have rest := ih (b :: back) closes' (by simpa using balanced)
      have positive := closing_at _ _ _ _ closes'
      rw [shape, index'] at rest
      rw [place, index, findOpenParen, getElem?_after, escaped_after, List.getLastD_concat]
      rw [surplus] at rest positive
      by_cases escaped_ : front.getLastD (byte '(') = byte '\\'
      · rw [if_pos escaped_, zero_add] at rest
        rw [decide_eq_true escaped_, Bool.not_true, Bool.and_false, Bool.and_false,
          if_neg Bool.false_ne_true, if_neg Bool.false_ne_true]
        exact rest
      · rw [if_neg escaped_] at rest positive
        simp only [decide_eq_false escaped_, Bool.not_false, Bool.and_true, decide_eq_true_eq,
          Option.some.injEq]
        by_cases close : b = byte ')'
        · rw [if_pos close, Int.add_comm] at rest
          rw [if_pos close]
          exact rest
        · rw [if_neg close] at rest positive ⊢
          by_cases opens : b = byte '('
          · rw [if_pos opens] at rest positive ⊢
            rw [if_neg (by omega), Int.sub_eq_add_neg, Int.add_comm]
            exact rest
          · rw [if_neg opens, zero_add] at rest
            rw [if_neg opens]
            exact rest

/-! ### The last atom -/

/-- The atom from a position on to the end of what has been written. -/
def atomFrom (out : Bytes) (start : Nat) : Option (Option (Nat × Bytes)) :=
  (sliceStr out start out.length).map fun atom => some (start, atom)

theorem atomFrom_append {before : Bytes} (ascii : Ascii (before ++ atom)) :
    atomFrom (before ++ atom) before.length = some (some (before.length, atom)) := by
  rw [atomFrom, sliceStr_append ascii]
  rfl

theorem second_last (front : Bytes) (z : UInt8) :
    (2 ≤ (front ++ [z]).length && (front ++ [z])[(front ++ [z]).length - 2]? = some (byte '\\')) =
      decide (front.getLast? = some (byte '\\')) := by
  rcases List.eq_nil_or_concat front with rfl | ⟨front, b, rfl⟩
  · rfl
  · have index : (front.concat b ++ [z]).length - 2 = front.length := by simp
    have shape : front.concat b ++ [z] = front ++ b :: [z] := by simp
    rw [index, shape, getElem?_after, List.concat_eq_append, List.getLast?_concat]
    simp

/-- The cases of `last_atom` where no quantifier has been written last. -/
theorem lastAtom_concat (front : Bytes) {z : UInt8} (star : z ≠ byte '*') (plus : z ≠ byte '+') :
    lastAtom (front ++ [z]) =
      if z = byte ']' then
        (findOpenBracket (front ++ [z]) front.length).elim (some none) (atomFrom (front ++ [z]))
      else if front.getLast? = some (byte '\\') then atomFrom (front ++ [z]) (front.length - 1)
      else if z = byte ')' then
        (findOpenParen (front ++ [z]) (front.length + 1) 0).elim (some none) (atomFrom (front ++ [z]))
      else atomFrom (front ++ [z]) front.length := by
  have last : (front ++ [z])[(front ++ [z]).length - 1]? = some z := by
    rw [List.length_append, List.length_singleton, Nat.add_sub_cancel, getElem?_after]
  have length : (front ++ [z]).length = front.length + 1 := by simp
  have slice (start : Nat) : (do
      let atom ← sliceStr (front ++ [z]) start (front ++ [z]).length
      return some (start, atom)) = atomFrom (front ++ [z]) start := by
    rw [atomFrom]
    cases sliceStr (front ++ [z]) start (front ++ [z]).length <;> rfl
  rw [lastAtom]
  simp only [skipQuantifiers_concat front star plus, slice, last, second_last]
  rw [if_neg (by omega)]
  simp only [Option.some.injEq, decide_eq_true_eq, length, Nat.add_sub_cancel]
  refine ite_congr rfl (fun _ => ?_) fun _ => ite_congr rfl (fun _ => rfl) fun _ => ite_congr rfl (fun _ => ?_)
    fun _ => rfl
  · cases findOpenBracket (front ++ [z]) front.length <;> rfl
  · cases findOpenParen (front ++ [z]) (front.length + 1) 0 <;> rfl

variable {c : UInt8} {inner : Bytes}

section Found

variable {before : Bytes}

theorem lastAtom_char (ascii : Ascii (before ++ [c])) (star : c ≠ byte '*')
    (plus : c ≠ byte '+') (bracket : c ≠ byte ']') (paren : c ≠ byte ')')
    (open_ : before.getLast? ≠ some (byte '\\')) :
    lastAtom (before ++ [c]) = some (some (before.length, [c])) := by
  rw [lastAtom_concat before star plus, if_neg bracket, if_neg open_, if_neg paren, atomFrom_append ascii]

theorem lastAtom_escape (ascii : Ascii (before ++ [byte '\\', c])) (star : c ≠ byte '*')
    (plus : c ≠ byte '+') (bracket : c ≠ byte ']') :
    lastAtom (before ++ [byte '\\', c]) = some (some (before.length, [byte '\\', c])) := by
  have shape : before ++ [byte '\\', c] = (before ++ [byte '\\']) ++ [c] := by simp
  have length : (before ++ [byte '\\']).length - 1 = before.length := by simp
  rw [shape, lastAtom_concat _ star plus, if_neg bracket, if_pos List.getLast?_concat, length, ← shape,
    atomFrom_append ascii]

theorem protectedBrackets_close {prev : UInt8} (protected_ : protectedBrackets prev inner = true) :
    protectedBrackets prev (inner ++ [byte ']']) = true := by
  induction inner generalizing prev with
  | nil => rfl
  | cons b inner ih =>
      rw [protectedBrackets, Bool.and_eq_true] at protected_
      rw [List.cons_append, protectedBrackets, protected_.1, ih protected_.2]
      rfl

theorem lastAtom_class (ascii : Ascii (before ++ byte '[' :: (inner ++ [byte ']'])))
    (open_ : before.getLast? ≠ some (byte '\\')) (protected_ : protectedBrackets (byte '[') inner = true) :
    lastAtom (before ++ byte '[' :: (inner ++ [byte ']'])) =
      some (some (before.length, byte '[' :: (inner ++ [byte ']']))) := by
  have shape : before ++ byte '[' :: (inner ++ [byte ']']) = (before ++ byte '[' :: inner) ++ [byte ']'] := by
    simp
  have length : (before ++ byte '[' :: inner).length = before.length + 1 + inner.length := by
    simp only [List.length_append, List.length_cons]
    omega
  rw [shape, lastAtom_concat _ (by decide) (by decide), if_pos rfl, ← shape, length,
    findOpenBracket_class open_ inner [byte ']'] (protectedBrackets_close protected_), Option.elim_some,
    atomFrom_append ascii]

theorem lastAtom_group (ascii : Ascii (before ++ renderGroup inner))
    (open_ : before.getLast? ≠ some (byte '\\')) (closes : closing (byte '(') (inner ++ [byte ')']) = true)
    (balanced : surplus (byte '(') (inner ++ [byte ')']) = 1) :
    lastAtom (before ++ renderGroup inner) = some (some (before.length, renderGroup inner)) := by
  have shape : before ++ renderGroup inner = (before ++ byte '(' :: inner) ++ [byte ')'] := by
    simp [renderGroup]
  have length : (before ++ byte '(' :: inner).length + 1 =
      before.length + 1 + (inner ++ [byte ')']).length := by
    simp only [List.length_append, List.length_cons, List.length_nil]
    omega
  have last := closing_at (byte '(') (byte ')') inner [] closes
  have unescaped : (before ++ byte '(' :: inner).getLast? ≠ some (byte '\\') := by
    rw [List.getLast?_append, List.getLast?_cons, Option.some_or]
    intro same
    rw [List.getLastD_eq_getLast?, Option.some.inj same] at last
    exact absurd last (by decide)
  have found := findOpenParen_group open_ (inner ++ [byte ')']) [] (by rwa [List.append_nil])
    (by rwa [List.append_nil])
  rw [List.append_nil, surplus] at found
  have found' : findOpenParen (before ++ renderGroup inner) (before.length + 1 + (inner ++ [byte ')']).length) 0 =
      some before.length := found
  rw [shape, lastAtom_concat _ (by decide) (by decide), if_neg (by decide), if_neg unescaped, if_pos rfl,
    ← shape, length, found', Option.elim_some, atomFrom_append ascii]

end Found

/-! ### No panic -/

theorem skipQuantifiers_le (b : Bytes) (end_ : Nat) : skipQuantifiers b end_ ≤ end_ := by
  induction end_ with
  | zero => exact Nat.le_refl 0
  | succ end_ ih =>
      rw [skipQuantifiers]
      split_ifs
      · exact ih.trans (Nat.le_succ end_)
      · exact Nat.le_refl _

theorem findOpenBracket_lt {b : Bytes} {end_ i : Nat} (found : findOpenBracket b end_ = some i) :
    i < end_ := by
  induction end_ with
  | zero => cases found
  | succ end_ ih =>
      rw [findOpenBracket] at found
      split_ifs at found
      · obtain rfl := Option.some.inj found
        exact Nat.lt_succ_self _
      · exact (ih found).trans (Nat.lt_succ_self _)

theorem findOpenParen_lt {b : Bytes} {end_ i : Nat} {depth : Int} (found : findOpenParen b end_ depth = some i) :
    i < end_ := by
  induction end_ generalizing depth with
  | zero => cases found
  | succ end_ ih =>
      rw [findOpenParen] at found
      split_ifs at found
      · exact (ih found).trans (Nat.lt_succ_self _)
      · obtain rfl := Option.some.inj found
        exact Nat.lt_succ_self _
      · exact (ih found).trans (Nat.lt_succ_self _)
      · exact (ih found).trans (Nat.lt_succ_self _)

/-- All positions of an ASCII string are between characters. -/
theorem lastAtom_ascii {out : Bytes} (ascii : Ascii out) : ∃ found, lastAtom out = some found := by
  have within := skipQuantifiers_le out out.length
  have slice (start : Nat) (front : start ≤ out.length) : ∃ found, (do
      let atom ← sliceStr out start (skipQuantifiers out out.length)
      return some (start, atom)) = some found := by
    rw [sliceStr_ascii ascii front within]
    exact ⟨_, rfl⟩
  rw [lastAtom]
  split_ifs
  · exact ⟨none, rfl⟩
  · cases found : findOpenBracket out (skipQuantifiers out out.length - 1) with
    | none => exact ⟨none, rfl⟩
    | some i => exact slice i (by have := findOpenBracket_lt found; omega)
  · exact slice _ (by omega)
  · cases found : findOpenParen out (skipQuantifiers out out.length) 0 with
    | none => exact ⟨none, rfl⟩
    | some i => exact slice i (by have := findOpenParen_lt found; omega)
  · exact slice _ (by omega)

/-! ### Steps of the expansion -/

/-- The expansion of some bytes after what has been written comes down to that of their tail. -/
def Expands (bytes out tail out' : Bytes) : Prop :=
  ∀ fuel, bytes.length ≤ fuel →
    ∃ fuel', tail.length ≤ fuel' ∧ expandFrom fuel bytes out = expandFrom fuel' tail out'

namespace Expands

variable {bytes out tail out' last out'' : Bytes}

theorem refl (bytes out : Bytes) : Expands bytes out bytes out := fun fuel enough => ⟨fuel, enough, rfl⟩

theorem trans (first : Expands bytes out tail out') (second : Expands tail out' last out'') :
    Expands bytes out last out'' := by
  intro fuel enough
  obtain ⟨fuel', enough', same⟩ := first fuel enough
  obtain ⟨fuel'', enough'', same'⟩ := second fuel' enough'
  exact ⟨fuel'', enough'', same.trans same'⟩

/-- An expansion of everything. -/
theorem finish (all : Expands bytes out [] out') : expandFrom bytes.length bytes out = some out' := by
  obtain ⟨fuel, -, same⟩ := all bytes.length (Nat.le_refl _)
  rw [same]
  cases fuel <;> rfl

theorem plain (ascii : b < 0x80) (slash : b ≠ byte '\\') (brace : b ≠ byte '{') :
    Expands (b :: tail) out tail (out ++ [b]) := by
  intro fuel enough
  cases fuel with
  | zero => cases enough
  | succ fuel =>
      refine ⟨fuel, Nat.le_of_succ_le_succ enough, ?_⟩
      rw [expandFrom, if_neg (by simp [slash]), if_neg brace, asChar_ascii ascii]

theorem escape (ascii : c < 0x80) :
    Expands (byte '\\' :: c :: tail) out tail (out ++ [byte '\\', c]) := by
  intro fuel enough
  rw [List.length_cons, List.length_cons] at enough
  cases fuel with
  | zero => omega
  | succ fuel =>
      refine ⟨fuel, by omega, ?_⟩
      rw [expandFrom, if_pos (by simp), List.tail_cons, List.head?_cons, Option.elim_some, asChar_ascii ascii,
        asChar_ascii (by decide), List.append_assoc]
      rfl

/-- A brace without an atom before it or bounds after it is written as it is. -/
theorem brace {found : Option (Nat × Bytes)} (atom : lastAtom out = some found)
    (inert : found = none ∨ parseBounds tail = none) :
    Expands (byte '{' :: tail) out tail (out ++ [byte '{']) := by
  intro fuel enough
  cases fuel with
  | zero => cases enough
  | succ fuel =>
      refine ⟨fuel, Nat.le_of_succ_le_succ enough, ?_⟩
      have written : asChar (byte '{') = [byte '{'] := asChar_ascii (by decide)
      rw [expandFrom, if_neg (by rw [decide_eq_false (by decide)]; exact Bool.false_ne_true), if_pos rfl, atom,
        written]
      rcases inert with rfl | none_
      · rfl
      · rw [none_]
        cases found <;> rfl

/-- A count is written as copies of the atom before it. -/
theorem count {before : Bytes} {n m : Nat} (found : lastAtom (before ++ atom) = some (some (before.length, atom)))
    (bounds : parseBounds bytes = some (n, m, tail)) (ordered : n ≤ m) (shorter : tail.length ≤ bytes.length) :
    Expands (byte '{' :: bytes) (before ++ atom) tail (before ++ (List.replicate m atom).flatten) := by
  intro fuel enough
  rw [List.length_cons] at enough
  cases fuel with
  | zero => omega
  | succ fuel =>
      refine ⟨fuel, by omega, ?_⟩
      have copies : List.replicate (min n m) atom ++ List.replicate (max n m - min n m) atom =
          List.replicate m atom := by
        rw [List.replicate_append_replicate, Nat.min_eq_left ordered, Nat.max_eq_right ordered,
          Nat.add_sub_cancel' ordered]
      rw [expandFrom, if_neg (by rw [decide_eq_false (by decide)]; exact Bool.false_ne_true), if_pos rfl, found,
        bounds]
      change expandFrom fuel tail ((before ++ atom).take before.length ++ _) = _
      rw [copies, List.take_left]

end Expands

/-! ### Bounds -/

theorem takeWhile_digits (n : Numeral) (apart : isAsciiDigit b = false) (tail : Bytes) :
    (n.digits ++ b :: tail).takeWhile isAsciiDigit = n.digits ∧
      (n.digits ++ b :: tail).dropWhile isAsciiDigit = b :: tail := by
  have other : ¬isAsciiDigit b = true := by
    rw [apart]
    exact Bool.false_ne_true
  constructor
  · rw [List.takeWhile_append_of_pos n.decimal, List.takeWhile_cons_of_neg other, List.append_nil]
  · rw [List.dropWhile_append_of_pos n.decimal, List.dropWhile_cons_of_neg other]

theorem parseUsize_numeral {n : Numeral} (short : n.value ≤ 64) : parseUsize n.digits = some n.value := by
  have within : ¬2 ^ 64 ≤ n.value := by omega
  have notEmpty : n.digits.isEmpty = false := by
    rw [List.isEmpty_eq_false_iff]
    exact n.some_
  change (if n.digits.isEmpty || decide (2 ^ 64 ≤ n.value) then none else some n.value) = some n.value
  rw [notEmpty, decide_eq_false within]
  rfl

theorem parseBounds_count (n : Numeral) (most : Option Numeral) (ordered : n.value ≤ mostOf n most)
    (within : mostOf n most ≤ 64) (tail : Bytes) :
    parseBounds (n.digits ++ (most.elim [] (fun m => byte ',' :: m.digits) ++ byte '}' :: tail)) =
      some (n.value, mostOf n most, tail) := by
  have first := parseUsize_numeral (ordered.trans within)
  have some_ : n.digits.isEmpty = false := List.isEmpty_eq_false_iff.mpr n.some_
  cases most with
  | none =>
      obtain ⟨front, back⟩ := takeWhile_digits n (b := byte '}') (by decide) tail
      have notComma : ¬some (byte '}') = some (byte ',') := by decide
      rw [Option.elim_none, List.nil_append, parseBounds]
      simp only [front, back, List.head?_cons, if_neg notComma, some_, first, Option.getD_some,
        List.isEmpty_nil, if_true, List.tail_cons]
      rw [if_pos (by decide), Nat.min_eq_left (ordered.trans within)]
      rfl
  | some m =>
      obtain ⟨front, back⟩ := takeWhile_digits n (b := byte ',') (by decide) (m.digits ++ byte '}' :: tail)
      obtain ⟨front', back'⟩ := takeWhile_digits m (b := byte '}') (by decide) tail
      have some' : m.digits.isEmpty = false := List.isEmpty_eq_false_iff.mpr m.some_
      have short : m.value ≤ 64 := within
      have second := parseUsize_numeral short
      rw [Option.elim_some, List.cons_append, parseBounds]
      simp only [front, back, List.head?_cons, if_true, List.tail_cons, front', back', some_, some', first, second,
        Option.getD_some, Bool.false_eq_true, if_false]
      rw [if_pos (by decide), Nat.min_eq_left (ordered.trans within), Nat.min_eq_left short]
      rfl

theorem head?_close (apart : byte ']' ≠ c) (rest tail : Bytes) :
    (rest ++ byte ']' :: tail).head? = some c ↔ rest.head? = some c := by
  cases rest with
  | nil => exact iff_of_false (fun same => apart (Option.some.inj same)) fun same => by cases same
  | cons b rest => exact Iff.rfl

theorem takeWhile_close (front tail : Bytes) :
    (front ++ byte ']' :: tail).takeWhile isAsciiDigit = front.takeWhile isAsciiDigit ∧
      (front ++ byte ']' :: tail).dropWhile isAsciiDigit = front.dropWhile isAsciiDigit ++ byte ']' :: tail := by
  induction front with
  | nil => exact ⟨rfl, rfl⟩
  | cons b front ih =>
      rw [List.cons_append, List.takeWhile_cons, List.takeWhile_cons, List.dropWhile_cons, List.dropWhile_cons]
      split_ifs
      · exact ⟨congrArg (b :: ·) ih.1, ih.2⟩
      · exact ⟨rfl, rfl⟩

/-- What is no count in a class stays none with the rest of the pattern after the class. -/
theorem parseBounds_close {front : Bytes} (none_ : parseBounds front = none) (tail : Bytes) :
    parseBounds (front ++ byte ']' :: tail) = none := by
  obtain ⟨digits, rest⟩ := takeWhile_close front tail
  obtain ⟨digits', rest'⟩ := takeWhile_close (front.dropWhile isAsciiDigit).tail tail
  have tail_ (apart : front.dropWhile isAsciiDigit ≠ []) :
      (front.dropWhile isAsciiDigit ++ byte ']' :: tail).tail =
        (front.dropWhile isAsciiDigit).tail ++ byte ']' :: tail := List.tail_append_of_ne_nil apart
  have brace := head?_close (c := byte '}') (by decide)
  rw [parseBounds] at none_ ⊢
  simp only [digits, rest, head?_close (c := byte ',') (by decide)] at none_ ⊢
  by_cases comma : (front.dropWhile isAsciiDigit).head? = some (byte ',')
  · have apart : front.dropWhile isAsciiDigit ≠ [] := fun empty => by rw [empty] at comma; cases comma
    simp only [if_pos comma, tail_ apart, digits', rest', brace] at none_ ⊢
    split_ifs at none_ ⊢ with atEnd
    rfl
  · simp only [if_neg comma, brace] at none_ ⊢
    split_ifs at none_ ⊢ with atEnd
    rfl

/-! ### Patterns that are expanded as they are read -/

/-- The scan back finds an element that has been written after other bytes. -/
def Element.found (before : Bytes) : Element → Bool
  | char c _ => c ≠ byte ']' && before.getLast? ≠ some (byte '\\')
  | escape c => c ∉ [byte ']', byte '*', byte '+']
  | class_ members =>
      before.getLast? ≠ some (byte '\\') && protectedBrackets (byte '[') (renderMembers members)

/-- The scan back finds a group that has been written after other bytes. -/
def groupFound (before inner : Bytes) : Bool :=
  before.getLast? ≠ some (byte '\\') && closing (byte '(') (inner ++ [byte ')']) &&
    surplus (byte '(') (inner ++ [byte ')']) = 1

/-- No brace in a class is read as a count. -/
def inertMembers : Bytes → List Member → Bool
  | _, [] => true
  | before, .plain c _ :: members =>
      (c ≠ byte '{' || lastAtom before = some none || (parseBounds (renderMembers members)).isNone) &&
        inertMembers (before ++ [c]) members
  | before, .escaped c :: members => inertMembers (before ++ [byte '\\', c]) members

def Element.inert (before : Bytes) : Element → Bool
  | class_ members => inertMembers (before ++ [byte '[']) members
  | _ => true

/-- After what has been written, every counted atom is found and no class is taken for a count. -/
def Body.expandable : Bytes → Body → Bool
  | _, nil => true
  | before, elem element quant rest =>
      element.inert before && (!quant.isCount || element.found before) &&
        rest.expandable (before ++ quant.written element.render)
  | before, group inner quant rest =>
      inner.expandable (before ++ [byte '(']) &&
        (!quant.isCount || groupFound before inner.expanded.render) &&
        rest.expandable (before ++ quant.written (renderGroup inner.expanded.render))

theorem ascii_written (ascii : Ascii atom) (quant : Quant) : Ascii (quant.written atom) := by
  cases quant with
  | rep r =>
      refine ascii_append.mpr ⟨ascii, ?_⟩
      cases r with
      | once => exact ascii_nil
      | star | plus => exact ascii_singleton.mpr (by decide)
  | count n most ordered within =>
      intro b member
      obtain ⟨copy, there, member⟩ := List.mem_flatten.mp member
      rw [List.eq_of_mem_replicate there] at member
      exact ascii b member

theorem ascii_group : Ascii (renderGroup inner) ↔ Ascii inner := by
  rw [renderGroup, Ascii.cons, ascii_append]
  constructor
  · exact fun all => all.2.1
  · exact fun ascii => ⟨by decide, ascii, ascii_singleton.mpr (by decide)⟩

theorem Body.ascii_expanded {body : Body} (ascii : Ascii body.render) : Ascii body.expanded.render := by
  induction body with
  | nil => exact ascii
  | elem element quant rest ih =>
      rw [render, ascii_append, ascii_append] at ascii
      rw [render_expanded_elem, ascii_append]
      exact ⟨ascii_written ascii.1.1 quant, ih ascii.2⟩
  | group inner quant rest ihInner ih =>
      rw [render, ascii_append, ascii_append, ascii_group] at ascii
      rw [render_expanded_group, ascii_append]
      exact ⟨ascii_written (ascii_group.mpr (ihInner ascii.1.1)) quant, ih ascii.2⟩

section Steps

variable {out tail : Bytes}

theorem expands_members {members : List Member} (ascii : Ascii (renderMembers members)) (written : Ascii out)
    (inert : inertMembers out members = true) :
    Expands (renderMembers members ++ byte ']' :: tail) out (byte ']' :: tail) (out ++ renderMembers members) := by
  induction members generalizing out with
  | nil =>
      rw [renderMembers, List.flatMap_nil, List.nil_append, List.append_nil]
      exact Expands.refl _ _
  | cons member members ih =>
      rw [renderMembers, List.flatMap_cons] at ascii
      obtain ⟨here, rest⟩ := ascii_append.mp ascii
      have shape : renderMembers (member :: members) = member.render ++ renderMembers members := by
        rw [renderMembers, List.flatMap_cons]
        rfl
      rw [shape, List.append_assoc, ← List.append_assoc out]
      cases member with
      | plain c apart =>
          rw [inertMembers, Bool.and_eq_true] at inert
          have low := (Ascii.cons.mp here).1
          have next := ih rest (ascii_append.mpr ⟨written, here⟩) inert.2
          refine Expands.trans ?_ next
          by_cases brace : c = byte '{'
          · subst brace
            obtain ⟨found, atom⟩ := lastAtom_ascii written
            refine Expands.brace atom ?_
            rw [decide_eq_false (by simp), Bool.false_or, Bool.or_eq_true] at inert
            rcases inert.1 with none_ | bounds
            · exact .inl (Option.some.inj (atom.symm.trans (of_decide_eq_true none_)))
            · exact .inr (parseBounds_close (Option.isNone_iff_eq_none.mp bounds) tail)
          · exact Expands.plain low apart.2 brace
      | escaped c =>
          have low := (Ascii.cons.mp (Ascii.cons.mp here).2).1
          exact (Expands.escape low).trans (ih rest (ascii_append.mpr ⟨written, here⟩) inert)

theorem expands_element {element : Element} (ascii : Ascii element.render) (written : Ascii out)
    (inert : element.inert out = true) :
    Expands (element.render ++ tail) out tail (out ++ element.render) := by
  cases element with
  | char c plain =>
      have apart : c ≠ byte '\\' ∧ c ≠ byte '{' := by
        constructor <;>
        · rintro rfl
          exact absurd (plain (by decide)) (by decide)
      exact Expands.plain (Ascii.cons.mp ascii).1 apart.1 apart.2
  | escape c => exact Expands.escape (Ascii.cons.mp (Ascii.cons.mp ascii).2).1
  | class_ members =>
      obtain ⟨low, rest⟩ := Ascii.cons.mp ascii
      have inner := (ascii_append.mp rest).1
      have opened : Ascii (out ++ [byte '[']) := ascii_append.mpr ⟨written, ascii_singleton.mpr low⟩
      have shape : out ++ (Element.class_ members).render =
          out ++ [byte '['] ++ renderMembers members ++ [byte ']'] := by simp [Element.render]
      have shape' : (Element.class_ members).render ++ tail =
          byte '[' :: (renderMembers members ++ byte ']' :: tail) := by simp [Element.render]
      rw [shape, shape']
      exact ((Expands.plain low (by decide) (by decide)).trans (expands_members inner opened inert)).trans
        (Expands.plain (by decide) (by decide) (by decide))

theorem expands_quant (quant : Quant)
    (found : quant.isCount = true → lastAtom (out ++ atom) = some (some (out.length, atom))) :
    Expands (quant.render ++ tail) (out ++ atom) tail (out ++ quant.written atom) := by
  cases quant with
  | rep r =>
      rw [Quant.written, ← List.append_assoc]
      cases r with
      | once =>
          rw [renderRepeat, List.append_nil]
          exact Expands.refl _ _
      | star | plus => exact Expands.plain (by decide) (by decide) (by decide)
  | count n most ordered within =>
      have shape : (Quant.count n most ordered within).render ++ tail =
          byte '{' :: (n.digits ++ (most.elim [] (fun m => byte ',' :: m.digits) ++ byte '}' :: tail)) := by
        simp [Quant.render]
      rw [shape]
      refine Expands.count (found rfl) (parseBounds_count n most ordered within tail) ordered ?_
      simp only [List.length_append, List.length_cons]
      omega

theorem lastAtom_element {element : Element} (ascii : Ascii (out ++ element.render))
    (found : element.found out = true) :
    lastAtom (out ++ element.render) = some (some (out.length, element.render)) := by
  cases element with
  | char c plain =>
      obtain ⟨bracket, open_⟩ := Bool.and_eq_true_iff.mp found
      have apart : c ≠ byte '*' ∧ c ≠ byte '+' ∧ c ≠ byte ')' := by
        refine ⟨?_, ?_, ?_⟩ <;>
        · rintro rfl
          exact absurd (plain (by decide)) (by decide)
      exact lastAtom_char ascii apart.1 apart.2.1 (of_decide_eq_true bracket) apart.2.2 (of_decide_eq_true open_)
  | escape c =>
      have apart : c ∉ [byte ']', byte '*', byte '+'] := of_decide_eq_true found
      simp only [List.mem_cons, List.not_mem_nil, or_false, not_or] at apart
      exact lastAtom_escape ascii apart.2.1 apart.2.2 apart.1
  | class_ members =>
      obtain ⟨open_, protected_⟩ := Bool.and_eq_true_iff.mp found
      exact lastAtom_class ascii (of_decide_eq_true open_) protected_

end Steps

/-- A body is written with its counts in copies. -/
theorem expands_body {body : Body} {out : Bytes} (tail : Bytes) (ascii : Ascii body.render) (written : Ascii out)
    (expandable : body.expandable out = true) :
    Expands (body.render ++ tail) out tail (out ++ body.expanded.render) := by
  induction body generalizing out tail with
  | nil =>
      rw [Body.render, Body.expanded, Body.render, List.nil_append, List.append_nil]
      exact Expands.refl _ _
  | elem element quant rest ih =>
      rw [Body.render, ascii_append, ascii_append] at ascii
      rw [Body.expandable, Bool.and_eq_true, Bool.and_eq_true] at expandable
      obtain ⟨⟨inert, found⟩, after⟩ := expandable
      have here : Ascii (out ++ element.render) := ascii_append.mpr ⟨written, ascii.1.1⟩
      have atom (counted : quant.isCount = true) :
          lastAtom (out ++ element.render) = some (some (out.length, element.render)) := by
        refine lastAtom_element here ?_
        rwa [counted, Bool.not_true, Bool.false_or] at found
      have next := ih tail ascii.2
        (ascii_append.mpr ⟨written, ascii_written ascii.1.1 quant⟩) after
      rw [Body.render_expanded_elem, Body.render, List.append_assoc, List.append_assoc, ← List.append_assoc out]
      exact ((expands_element ascii.1.1 written inert).trans (expands_quant quant atom)).trans next
  | group inner quant rest ihInner ih =>
      rw [Body.render, ascii_append, ascii_append, ascii_group] at ascii
      rw [Body.expandable, Bool.and_eq_true, Bool.and_eq_true] at expandable
      obtain ⟨⟨innerOk, found⟩, after⟩ := expandable
      have group_ : Ascii (renderGroup inner.expanded.render) :=
        ascii_group.mpr (Body.ascii_expanded ascii.1.1)
      have here : Ascii (out ++ renderGroup inner.expanded.render) := ascii_append.mpr ⟨written, group_⟩
      have opened : Ascii (out ++ [byte '(']) :=
        ascii_append.mpr ⟨written, ascii_singleton.mpr (by decide)⟩
      have atom (counted : quant.isCount = true) : lastAtom (out ++ renderGroup inner.expanded.render) =
          some (some (out.length, renderGroup inner.expanded.render)) := by
        rw [counted, Bool.not_true, Bool.false_or, groupFound, Bool.and_eq_true, Bool.and_eq_true] at found
        exact lastAtom_group here (of_decide_eq_true found.1.1) found.1.2 (of_decide_eq_true found.2)
      have inside := ihInner (byte ')' :: (quant.render ++ (rest.render ++ tail))) ascii.1.1 opened innerOk
      have next := ih tail ascii.2 (ascii_append.mpr ⟨written, ascii_written group_ quant⟩) after
      have shape : (Body.group inner quant rest).render ++ tail =
          byte '(' :: (inner.render ++ byte ')' :: (quant.render ++ (rest.render ++ tail))) := by
        simp [Body.render, renderGroup]
      have shape' : out ++ renderGroup inner.expanded.render =
          out ++ [byte '('] ++ inner.expanded.render ++ [byte ')'] := by simp [renderGroup]
      have whole : Expands ((Body.group inner quant rest).render ++ tail) out
          (quant.render ++ (rest.render ++ tail)) (out ++ renderGroup inner.expanded.render) := by
        rw [shape, shape']
        exact ((Expands.plain (by decide) (by decide) (by decide)).trans inside).trans
          (Expands.plain (by decide) (by decide) (by decide))
      rw [Body.render_expanded_group, ← List.append_assoc out]
      exact (whole.trans (expands_quant quant atom)).trans next

/-! ### The expanded pattern -/

/-- What stands before the body of a pattern. -/
def Pattern.front (p : Pattern) : Bytes := if p.caret then [byte '^'] else []

theorem expandBraces_render {p : Pattern} (ascii : Ascii p.render)
    (expandable : p.body.expandable p.front = true) : expandBraces p.render = some p.expanded.render := by
  rw [Pattern.render, ascii_append, ascii_append] at ascii
  obtain ⟨front, body, -⟩ := ascii
  have atFront : Expands p.render [] (p.body.render ++ if p.dollar then [byte '$'] else []) p.front := by
    rw [Pattern.render, Pattern.front]
    cases p.caret with
    | true => exact Expands.plain (by decide) (by decide) (by decide)
    | false => exact Expands.refl _ _
  have inside := expands_body (if p.dollar then [byte '$'] else []) body front expandable
  have renders : p.expanded.render =
      (p.front ++ p.body.expanded.render) ++ if p.dollar then [byte '$'] else [] :=
    (List.append_assoc _ _ _).symm
  have atEnd : Expands (if p.dollar then [byte '$'] else []) (p.front ++ p.body.expanded.render) []
      p.expanded.render := by
    rw [renders]
    cases p.dollar with
    | true => exact Expands.plain (by decide) (by decide) (by decide)
    | false =>
        rw [if_neg Bool.false_ne_true, List.append_nil]
        exact Expands.refl _ _
  exact ((atFront.trans inside).trans atEnd).finish

/-- The expansion is a pattern without counts that matches what the pattern with its counts matches. -/
def KeepsLanguage (p : Pattern) : Prop :=
  ∃ q : Pattern, expandBraces p.render = some q.render ∧ q.body.countFree = true ∧
    ∀ text s e, q.Matches text s e ↔ p.Matches text s e

/-- Where the scan back finds every counted atom and the copies say what the counts say, the expansion keeps
the language. -/
theorem expandBraces_exact (p : Pattern) (ascii : Ascii p.render)
    (expandable : p.body.expandable p.front = true) (uniform : p.body.Uniform) : KeepsLanguage p :=
  ⟨p.expanded, expandBraces_render ascii expandable, p.body.countFree_expanded,
    fun _ _ _ => Pattern.matches_expanded uniform⟩

/-- The number of a digit. -/
def digitNumeral (d : UInt8) (decimal : isAsciiDigit d = true) : Numeral :=
  ⟨[d], List.cons_ne_nil d [], fun _ member => by rwa [List.mem_singleton.mp member]⟩

/-- A literal. -/
def literal (c : Char) (plain : byte c ∉ special) : Element := .char (byte c) fun member => absurd member plain

/-- Just so many. -/
def exactly (d : UInt8) (decimal : isAsciiDigit d = true)
    (within : (digitNumeral d decimal).value ≤ 64) : Quant :=
  .count (digitNumeral d decimal) none (Nat.le_refl _) within

/-- The pattern `^(a\d{2}){3}[bc]*`. -/
def nestedCounts : Pattern :=
  ⟨true, .group (.elem (literal 'a' (by decide)) (.rep .once)
      (.elem (.escape (byte 'd')) (exactly (byte '2') (by decide) (by decide)) .nil))
    (exactly (byte '3') (by decide) (by decide))
    (.elem (.class_ [.plain (byte 'b') (by decide), .plain (byte 'c') (by decide)]) (.rep .star) .nil), false⟩

theorem expandBraces_exact_nested :
    nestedCounts.render = bytesOf "^(a\\d\x7b2\x7d)\x7b3\x7d[bc]*" ∧
      expandBraces nestedCounts.render = some (bytesOf "^(a\\d\\d)(a\\d\\d)(a\\d\\d)[bc]*") ∧
      KeepsLanguage nestedCounts :=
  ⟨by decide +kernel, by decide +kernel, expandBraces_exact nestedCounts (by rw [Ascii]; decide +kernel)
    (by decide) ⟨⟨trivial, .inl rfl, trivial⟩, .inl rfl, trivial, trivial⟩⟩

/-- A pattern of bytes that mean themselves matches texts of its own length only. -/
theorem length_of_plain {body : Body} {bytes : Bytes} (plain : ∀ c ∈ bytes, c ∉ special)
    (renders : body.render = bytes) {w : Bytes} (member : w ∈ body.language) : w.length = bytes.length := by
  subst renders
  induction body generalizing w with
  | nil =>
      rw [(Language.mem_one w).mp member]
      rfl
  | elem element quant rest ih =>
      have shape : (Body.elem element quant rest).render = element.render ++ (quant.render ++ rest.render) :=
        List.append_assoc _ _ _
      rw [shape] at plain ⊢
      obtain ⟨here, after⟩ := List.forall_mem_append.mp plain
      obtain ⟨counted, later⟩ := List.forall_mem_append.mp after
      cases element with
      | char c plain' =>
          cases quant with
          | rep r =>
              cases r with
              | once =>
                  obtain ⟨_, ⟨b, -, rfl⟩, last, inLast, rfl⟩ := Language.mem_mul.mp member
                  have length := ih inLast later
                  rw [List.length_append, length]
                  exact Nat.add_comm 1 _
              | star | plus => exact absurd (by decide) (counted _ List.mem_cons_self)
          | count n most ordered within => exact absurd (by decide) (counted _ List.mem_cons_self)
      | escape c => exact absurd (by decide) (here _ List.mem_cons_self)
      | class_ members => exact absurd (by decide) (here _ List.mem_cons_self)
  | group inner quant rest ihInner ih =>
      exact absurd (by decide) (plain (byte '(') (by simp [Body.render, renderGroup]))

/-- The pattern `a{1,2}`. -/
def oneOrTwo : Pattern :=
  ⟨false, .elem (literal 'a' (by decide)) (.count (digitNumeral (byte '1') (by decide))
    (some (digitNumeral (byte '2') (by decide))) (by decide) (by decide)) .nil, false⟩

/-- The copies of the greater count are written without the lesser counts. -/
theorem expandBraces_range :
    oneOrTwo.render = bytesOf "a\x7b1,2\x7d" ∧ expandBraces oneOrTwo.render = some (bytesOf "aa") ∧
      oneOrTwo.Matches (bytesOf "a") 0 1 ∧ ¬KeepsLanguage oneOrTwo := by
  have written : expandBraces oneOrTwo.render = some (bytesOf "aa") := by decide
  have found : oneOrTwo.Matches (bytesOf "a") 0 1 := by
    refine ⟨by decide, by decide, ?_, fun caret => absurd caret Bool.false_ne_true,
      fun dollar => absurd dollar Bool.false_ne_true⟩
    refine Language.mem_mul.mpr ⟨bytesOf "a", ⟨1, by decide, by decide, ?_⟩, [], Language.nil_mem_one, rfl⟩
    rw [pow_one]
    exact ⟨byte 'a', by decide, rfl⟩
  refine ⟨by decide, written, found, ?_⟩
  rintro ⟨q, expands, -, same⟩
  have renders : q.render = bytesOf "aa" := (Option.some.inj (written.symm.trans expands)).symm
  have plain : ∀ c ∈ q.render, c ∉ special := by
    rw [renders]
    decide +kernel
  have body : q.body.render = bytesOf "aa" := by
    rw [Pattern.render] at plain renders
    cases caret : q.caret with
    | true => exact absurd (by decide) (plain (byte '^') (by simp [caret]))
    | false =>
        cases dollar : q.dollar with
        | true => exact absurd (by decide) (plain (byte '$') (by simp [dollar]))
        | false => simpa [caret, dollar] using renders
  have length := length_of_plain (by rw [← renders]; exact plain) body ((same _ _ _).mpr found).member
  exact absurd length (by decide)

end Mimi.Runtime.Regex
