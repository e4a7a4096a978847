/-
Module: Mimi.Proofs.IntegerLiterals
Purpose: The integers that the lexer finds are read with their mathematical values, up to the range of 64 bits, but
  for the least integer where zeros stand in front of its magnitude.
Trusted boundary: none
-/
import Mimi.Proofs.LexerOutput
import Mimi.Proofs.Operands

namespace Mimi.Parsing

open Mimi.Lexer Mimi.Ast Mimi.Lib Run

/-! ### Mathematical values -/

/-- The base of an integer literal, and its digits without separators. -/
def numeral (s : String) : Nat × List Char :=
  match cleaned s with
  | '0' :: 'x' :: digits => (16, digits)
  | '0' :: 'b' :: digits => (2, digits)
  | '0' :: 'o' :: digits => (8, digits)
  | digits => (10, digits)

/-- A base without digits has no value. -/
def mathematical_value (s : String) : Option Nat :=
  if (numeral s).2 = [] then none else some (radixValue (numeral s).1 (numeral s).2)

/-- Zeros in front, which a value does not need. -/
def padded (s : String) : Bool := (numeral s).2.head? = some '0'

/-- The integer that an expression stands for. -/
def denoted : Expr → Option Int
  | .located _ e => denoted e
  | .literal (.int v) => some v
  | .unary .neg e => (denoted e).map fun v => -v
  | _ => none

section Reading

variable (others : OtherParsers)

/-- With enough steps, the parser reads an operand that stands for an integer, and the tokens up to a place. -/
def ReadsInteger (p : Parser) (v : Int) (p' : Parser) : Prop :=
  ∃ enough, ∀ n, enough ≤ n → ∃ e, (Again.upTo others n).parse_unary p = some (.ok e, p') ∧ denoted e = some v

/-- With enough steps, the parser ends with an error. -/
def Refuses (p : Parser) : Prop :=
  ∃ enough, ∀ n, enough ≤ n → ∃ error p', (Again.upTo others n).parse_unary p = some (.error error, p')

/-- An integer is read exactly, with and without `-` in front of it, where the recursion is not too deep and nothing
goes on with the literal. -/
structure ReadExactly (s : String) (v : Nat) : Prop where
  positive : ∀ (p : Parser) (t : Token) (tokens : List Token), p.rest = t :: tokens → t.kind = .int s →
    p.recursion_depth < DEPTH_MAX_DEFAULT → continues p.step.peek_kind = false →
      (v < 2 ^ 63 → ReadsInteger others p v p.step) ∧ (2 ^ 63 ≤ v → Refuses others p)
  negative : ∀ (p : Parser) (minus t : Token) (tokens : List Token), p.rest = minus :: t :: tokens →
    minus.kind = .minus → t.kind = .int s → p.recursion_depth + 1 < DEPTH_MAX_DEFAULT →
    continues p.step.step.peek_kind = false →
      (v ≤ 2 ^ 63 → ReadsInteger others p (-v) p.step.step) ∧ (2 ^ 63 < v → Refuses others p)

end Reading

/-! ### Digits -/

/-- A digit of a base that the parser knows. -/
def DigitOf (radix : Nat) (c : Char) : Prop := is_ascii_hexdigit c = true ∧ digitValue c < radix

variable {radix : Nat} {c : Char}

theorem to_digit_of (digit : DigitOf radix c) : to_digit radix c = some (digitValue c) := by
  rw [to_digit, digit.1, decide_eq_true digit.2]
  rfl

/-- The digits from the last one on are the ones of the library. -/
theorem radixValue_eq_ofDigits (radix : Nat) (digits : List Char) :
    radixValue radix digits = Nat.ofDigits radix (digits.map digitValue).reverse := by
  induction digits using List.reverseRecOn with
  | nil => rfl
  | append_singleton digits c ih =>
      rw [radixValue, List.foldl_append, ← radixValue, ih, List.map_append, List.reverse_append]
      show Nat.ofDigits radix (digits.map digitValue).reverse * radix + digitValue c = _
      rw [List.map_singleton, List.reverse_singleton, List.singleton_append, Nat.ofDigits_cons, Nat.mul_comm,
        Nat.add_comm]

/-- Digits behind a value. -/
def valueFrom (radix value : Nat) (digits : List Char) : Nat :=
  digits.foldl (fun value c => value * radix + digitValue c) value

theorem le_valueFrom (positive : 0 < radix) (digits : List Char) (value : Nat) :
    value ≤ valueFrom radix value digits := by
  induction digits generalizing value with
  | nil => exact le_rfl
  | cons c digits ih =>
      calc value ≤ value * radix := Nat.le_mul_of_pos_right value positive
        _ ≤ value * radix + digitValue c := Nat.le_add_right _ _
        _ ≤ valueFrom radix (value * radix + digitValue c) digits := ih _

theorem checked_digits_cons (digit : DigitOf radix c) (digits : List Char) (value : Nat) :
    checked_digits radix false (c :: digits) value =
      if 2 ^ 63 ≤ value * radix then none
      else if 2 ^ 63 ≤ value * radix + digitValue c then none
      else checked_digits radix false digits (value * radix + digitValue c : Nat) := by
  have product : ((value : Int) * radix < -2 ^ 63 ∨ 2 ^ 63 ≤ (value : Int) * radix) ↔ 2 ^ 63 ≤ value * radix := by
    rw [← Int.natCast_mul]
    omega
  have sum : ((value : Int) * radix + digitValue c < -2 ^ 63 ∨ 2 ^ 63 ≤ (value : Int) * radix + digitValue c) ↔
      2 ^ 63 ≤ value * radix + digitValue c := by
    rw [← Int.natCast_mul]
    omega
  rw [checked_digits, to_digit_of digit]
  show (if _ then none else if _ then none else checked_digits radix false digits _) = _
  simp only [Bool.false_eq_true, if_false, product, sum, Int.natCast_add, Int.natCast_mul]

/-- The checked conversion has a result where the value is in the range. -/
theorem checked_digits_eq (positive : 0 < radix) {digits : List Char}
    (all : ∀ c ∈ digits, DigitOf radix c) {value : Nat} (fits : value < 2 ^ 63) :
    checked_digits radix false digits value =
      if valueFrom radix value digits < 2 ^ 63 then some (valueFrom radix value digits : Int) else none := by
  induction digits generalizing value with
  | nil =>
      rw [checked_digits, valueFrom, List.foldl_nil, if_pos fits]
  | cons c digits ih =>
      have later : valueFrom radix value (c :: digits) = valueFrom radix (value * radix + digitValue c) digits := rfl
      have grows := le_valueFrom positive digits (value * radix + digitValue c)
      rw [checked_digits_cons (all c List.mem_cons_self), later]
      by_cases step : value * radix + digitValue c < 2 ^ 63
      · rw [if_neg (by omega), if_neg (by omega)]
        exact ih (fun d mem => all d (List.mem_cons_of_mem c mem)) step
      · rw [if_neg (c := valueFrom _ _ _ < _) (by omega)]
        split
        · rfl
        · rw [if_pos (by omega)]

/-- A conversion of digits, where there are any. -/
theorem from_str_radix_eq (positive : 0 < radix) {digits : List Char} (some_ : digits ≠ [])
    (all : ∀ c ∈ digits, DigitOf radix c) :
    from_str_radix radix digits =
      if radixValue radix digits < 2 ^ 63 then some (radixValue radix digits : Int) else none := by
  obtain ⟨c, digits, rfl⟩ := List.exists_cons_of_ne_nil some_
  have digit : is_ascii_hexdigit c = true := (all c List.mem_cons_self).1
  have no_plus : c ≠ '+' := by
    rintro rfl
    cases digit
  have no_minus : c ≠ '-' := by
    rintro rfl
    cases digit
  have plain : from_str_radix radix (c :: digits) = checked_digits radix false (c :: digits) 0 := by
    unfold from_str_radix
    split <;> simp_all
  rw [plain]
  exact checked_digits_eq positive all (by decide)

/-- Letters have no values below ten. -/
theorem digitValue_plain {d : Char} (plain : is_ascii_digit d = true) (same : digitValue c = digitValue d) :
    c = d := by
  simp only [is_ascii_digit, Bool.and_eq_true, decide_eq_true_eq, Char.le_def, UInt32.le_iff_toNat_le] at plain
  simp only [digitValue, is_ascii_digit, Bool.and_eq_true, decide_eq_true_eq, Char.le_def,
    UInt32.le_iff_toNat_le, Char.toNat] at same
  rw [Char.ext_iff, ← UInt32.toNat_inj]
  have zero : '0'.val.toNat = 48 := rfl
  have nine : '9'.val.toNat = 57 := rfl
  have a : 'a'.val.toNat = 97 := rfl
  have A : 'A'.val.toNat = 65 := rfl
  rw [if_pos (c := _ ∧ _) plain] at same
  split_ifs at same <;> omega

theorem digits_canonical (base : 1 < radix) {digits : List Char} (all : ∀ c ∈ digits, DigitOf radix c)
    (unpadded : digits.head? ≠ some '0') :
    Nat.digits radix (radixValue radix digits) = (digits.map digitValue).reverse := by
  rw [radixValue_eq_ofDigits]
  refine Nat.digits_ofDigits radix base _ ?_ ?_
  · intro value mem
    obtain ⟨c, inside, rfl⟩ := List.mem_map.mp (List.mem_reverse.mp mem)
    exact (all c inside).2
  · intro some_ zero
    obtain ⟨c, tail, rfl⟩ := List.exists_cons_of_ne_nil (l := digits) (by rintro rfl; exact some_ rfl)
    have first : digitValue c = 0 := by simpa using zero
    exact unpadded (congrArg some (digitValue_plain (by decide) first))

/-- Digits without zeros in front are the only ones of their value, where decimal digits do. -/
theorem digits_unique (base : 1 < radix) {digits expected : List Char}
    (all : ∀ c ∈ digits, DigitOf radix c) (plain : ∀ c ∈ expected, is_ascii_digit c = true ∧ DigitOf radix c)
    (unpadded : expected.head? ≠ some '0') :
    digits = expected ↔ radixValue radix digits = radixValue radix expected ∧ digits.head? ≠ some '0' := by
  constructor
  · rintro rfl
    exact ⟨rfl, unpadded⟩
  · rintro ⟨value, head⟩
    have left := digits_canonical base all head
    have right := digits_canonical base (fun c mem => (plain c mem).2) unpadded
    rw [value, right] at left
    have same : expected.map digitValue = digits.map digitValue := List.reverse_injective left
    refine List.ext_getElem (by simpa using (congrArg List.length same).symm) fun i here there => ?_
    refine digitValue_plain (plain _ (List.getElem_mem there)).1 ?_
    have entry := congrArg (fun values => values[i]?) same
    simpa [here, there] using entry.symm

/-! ### Literals -/

/-- The letters of the bases other than ten, with the magnitude of the least integer. -/
def bases : List (Char × Nat × List Char) :=
  [('x', 16, "8000000000000000".toList),
    ('b', 2, "1000000000000000000000000000000000000000000000000000000000000000".toList),
    ('o', 8, "1000000000000000000000".toList)]

/-- How the text of an integer is made of digits: behind `0` and a letter, or alone. -/
inductive Numeral (s : String) : Prop where
  | radix {letter : Char} {radix : Nat} {digits min : List Char} (base : (letter, radix, min) ∈ bases)
      (text : cleaned s = '0' :: letter :: digits) (all : ∀ c ∈ digits, DigitOf radix c)
  | decimal (some_ : cleaned s ≠ []) (all : ∀ c ∈ cleaned s, is_ascii_digit c = true)

theorem decimal_digit (digit : is_ascii_digit c = true) : DigitOf 10 c := by
  refine ⟨by rw [is_ascii_hexdigit, digit]; rfl, ?_⟩
  rw [digitValue, if_pos digit]
  simp only [is_ascii_digit, Bool.and_eq_true, decide_eq_true_eq, Char.le_def, UInt32.le_iff_toNat_le] at digit
  have zero : '0'.val.toNat = 48 := rfl
  have nine : '9'.val.toNat = 57 := rfl
  simp only [Char.toNat]
  omega

theorem hex_digit (digit : is_ascii_hexdigit c = true) : DigitOf 16 c := by
  refine ⟨digit, ?_⟩
  simp only [is_ascii_hexdigit, is_ascii_digit, Bool.or_eq_true, Bool.and_eq_true, decide_eq_true_eq, Char.le_def,
    UInt32.le_iff_toNat_le] at digit
  simp only [digitValue, is_ascii_digit, Bool.and_eq_true, decide_eq_true_eq, Char.le_def, UInt32.le_iff_toNat_le,
    Char.toNat]
  have zero : '0'.val.toNat = 48 := rfl
  have nine : '9'.val.toNat = 57 := rfl
  have a : 'a'.val.toNat = 97 := rfl
  have f : 'f'.val.toNat = 102 := rfl
  have A : 'A'.val.toNat = 65 := rfl
  have F : 'F'.val.toNat = 70 := rfl
  split_ifs <;> omega

theorem binary_digit (digit : (c = '0' || c = '1') = true) : DigitOf 2 c := by
  simp only [Bool.or_eq_true, decide_eq_true_eq] at digit
  rcases digit with rfl | rfl <;> exact ⟨by decide, by decide⟩

theorem octal_digit (digit : (is_ascii_digit c && c ≠ '8' && c ≠ '9') = true) : DigitOf 8 c := by
  simp only [Bool.and_eq_true, decide_eq_true_eq] at digit
  obtain ⟨⟨digit, not_eight⟩, not_nine⟩ := digit
  have decimal := decimal_digit digit
  refine ⟨decimal.1, ?_⟩
  have eight : digitValue c ≠ 8 := fun same => not_eight (digitValue_plain (by decide) same)
  have nine : digitValue c ≠ 9 := fun same => not_nine (digitValue_plain (by decide) same)
  have := decimal.2
  omega

theorem cleaned_digits {digits : List Char} {is_digit : Char → Bool} (all : ∀ c ∈ digits, enters_digits is_digit c = true) :
    ∀ c ∈ digits.filter (· ≠ '_'), is_digit c = true := by
  intro c mem
  obtain ⟨mem, not_separator⟩ := List.mem_filter.mp mem
  have enters := all c mem
  rw [enters_digits, Bool.or_eq_true, decide_eq_true_eq] at enters
  exact enters.resolve_right (by simpa using not_separator)

/-- The integers of the lexer are numerals. -/
theorem numeral_of_literal {s : String} (literal : IntLiteral s.toList) : Numeral s := by
  generalize text : s.toList = chars at literal
  cases literal with
  | @decimal first digits digit all =>
      have kept : cleaned s = first :: digits.filter (· ≠ '_') := by
        rw [cleaned, text, List.filter_cons_of_pos]
        refine decide_eq_true ?_
        rintro rfl
        cases digit
      refine .decimal (by rw [kept]; exact List.cons_ne_nil _ _) ?_
      rw [kept]
      exact List.forall_mem_cons.mpr ⟨digit, cleaned_digits all⟩
  | @radix ahead letter is_digit digits base all =>
      have kept : letter ≠ '_' → cleaned s = '0' :: letter :: digits.filter (· ≠ '_') := by
        intro other
        rw [cleaned, text, List.filter_cons_of_pos (by decide)]
        exact congrArg ('0' :: ·) (List.filter_cons_of_pos (decide_eq_true other))
      have inside := cleaned_digits all
      unfold radix_prefix at base
      split at base
      · split_ifs at base
        · obtain ⟨rfl, rfl⟩ := Prod.mk.inj (Option.some.inj base)
          exact .radix (.head _) (kept (by decide)) fun c mem => hex_digit (inside c mem)
        · obtain ⟨rfl, rfl⟩ := Prod.mk.inj (Option.some.inj base)
          exact .radix (.tail _ (.head _)) (kept (by decide)) fun c mem => binary_digit (inside c mem)
        · obtain ⟨rfl, rfl⟩ := Prod.mk.inj (Option.some.inj base)
          exact .radix (.tail _ (.tail _ (.head _))) (kept (by decide)) fun c mem => octal_digit (inside c mem)
      · cases base

/-- What a base knows of the magnitude of the least integer. -/
theorem base_min {letter : Char} {min : List Char} (base : (letter, radix, min) ∈ bases) :
    1 < radix ∧ radixValue radix min = 2 ^ 63 ∧ min.head? ≠ some '0' ∧
      ∀ c ∈ min, is_ascii_digit c = true ∧ DigitOf radix c := by
  have digit : ∀ {radix : Nat}, (min.all fun c => is_ascii_digit c && decide (digitValue c < radix)) = true →
      ∀ c ∈ min, is_ascii_digit c = true ∧ DigitOf radix c := by
    intro radix all c mem
    obtain ⟨plain, small⟩ := Bool.and_eq_true_iff.mp (List.all_eq_true.mp all c mem)
    exact ⟨plain, (decimal_digit plain).1, of_decide_eq_true small⟩
  simp only [bases, List.mem_cons, Prod.mk.injEq, List.not_mem_nil, or_false] at base
  obtain ⟨rfl, rfl, rfl⟩ | ⟨rfl, rfl, rfl⟩ | ⟨rfl, rfl, rfl⟩ := base <;>
    exact ⟨by decide, by decide, by decide, digit (by decide)⟩

/-- A character that is the letter of no base. -/
def Letterless (c : Char) : Prop :=
  (c = 'x' || c = 'X') = false ∧ (c = 'b' || c = 'B') = false ∧ (c = 'o' || c = 'O') = false

theorem letterless_digit (digit : is_ascii_digit c = true) : Letterless c := by
  have other : ∀ d, is_ascii_digit d = false → decide (c = d) = false := by
    rintro d letter
    refine decide_eq_false ?_
    rintro rfl
    cases digit.symm.trans letter
  refine ⟨?_, ?_, ?_⟩ <;> exact Bool.or_eq_false_iff.mpr ⟨other _ (by decide), other _ (by decide)⟩

theorem min_magnitude_letter (letter : Char) (digits : List Char) :
    is_i64_min_magnitude ('0' :: letter :: digits) =
      if letter = 'x' || letter = 'X' then decide (digits = "8000000000000000".toList)
      else if letter = 'b' || letter = 'B' then
        decide (digits = "1000000000000000000000000000000000000000000000000000000000000000".toList)
      else if letter = 'o' || letter = 'O' then decide (digits = "1000000000000000000000".toList)
      else false := by
  unfold is_i64_min_magnitude
  exact if_neg (by simp)

theorem min_magnitude_plain {text : List Char} 
    (plain : ∀ letter digits, text = '0' :: letter :: digits → Letterless letter) :
    is_i64_min_magnitude text = decide (text = "9223372036854775808".toList) := by
  unfold is_i64_min_magnitude
  split
  · rename_i same
    exact (decide_eq_true same).symm
  · rename_i other
    rw [decide_eq_false other]
    split
    · rename_i letter digits
      obtain ⟨x, b, o⟩ := plain letter digits rfl
      rw [x, b, o]
      rfl
    · rfl

theorem int_value_plain {s : String}
    (plain : ∀ letter digits, cleaned s = '0' :: letter :: digits → Letterless letter) :
    int_value s = (from_str_radix 10 (cleaned s)).elim (.error "invalid integer") .ok := by
  unfold int_value
  split
  · rename_i letter digits text
    obtain ⟨x, b, o⟩ := plain letter digits text
    rw [x, b, o, text]
    rfl
  · rfl

theorem numeral_plain {s : String} (plain : ∀ letter digits, cleaned s = '0' :: letter :: digits → Letterless letter) :
    numeral s = (10, cleaned s) := by
  unfold numeral
  split
  · rename_i digits text
    cases (plain _ _ text).1
  · rename_i digits text
    cases (plain _ _ text).2.1
  · rename_i digits text
    cases (plain _ _ text).2.2
  · rfl

/-- What the parser makes of the text of an integer. -/
structure Understood (s : String) : Prop where
  base : 1 < (numeral s).1
  all : ∀ c ∈ (numeral s).2, DigitOf (numeral s).1 c
  value : (int_value s).toOption = from_str_radix (numeral s).1 (numeral s).2
  min : is_i64_min_magnitude (cleaned s) = true ↔
    radixValue (numeral s).1 (numeral s).2 = 2 ^ 63 ∧ (numeral s).2.head? ≠ some '0'

theorem elim_toOption {digits : Option Int} {message : String} :
    (digits.elim (.error message) .ok : Except String Int).toOption = digits := by
  cases digits <;> rfl

theorem Numeral.understood {s : String} (known : Numeral s) : Understood s := by
  cases known with
  | @radix letter radix digits min base text all =>
      obtain ⟨large, value, unpadded, plain⟩ := base_min base
      have reads : numeral s = (radix, digits) ∧ (int_value s).toOption = from_str_radix radix digits ∧
          is_i64_min_magnitude (cleaned s) = decide (digits = min) := by
        rw [numeral, int_value, text, min_magnitude_letter]
        simp only [bases, List.mem_cons, Prod.mk.injEq, List.not_mem_nil, or_false] at base
        obtain ⟨rfl, rfl, rfl⟩ | ⟨rfl, rfl, rfl⟩ | ⟨rfl, rfl, rfl⟩ := base <;>
          exact ⟨rfl, elim_toOption, rfl⟩
      obtain ⟨split, number, least⟩ := reads
      refine ⟨by rw [split]; exact large, by rw [split]; exact all, by rw [split]; exact number, ?_⟩
      rw [least, split, decide_eq_true_iff, ← value]
      exact digits_unique large all plain unpadded
  | decimal some_ all =>
      have plain : ∀ letter digits, cleaned s = '0' :: letter :: digits → Letterless letter :=
        fun letter digits text => letterless_digit (all letter (by simp [text]))
      have split := numeral_plain plain
      have number : (int_value s).toOption = from_str_radix 10 (cleaned s) :=
        (congrArg Except.toOption (int_value_plain plain)).trans elim_toOption
      have least := min_magnitude_plain plain
      have digits : ∀ c ∈ cleaned s, DigitOf 10 c := fun c mem => decimal_digit (all c mem)
      refine ⟨by rw [split]; exact Nat.one_lt_ofNat, by rw [split]; exact digits, by rw [split]; exact number, ?_⟩
      have value : radixValue 10 "9223372036854775808".toList = 2 ^ 63 := by decide
      have plain : ∀ c ∈ "9223372036854775808".toList, is_ascii_digit c = true :=
        List.all_eq_true.mp (by decide)
      rw [least, split, decide_eq_true_iff, ← value]
      exact digits_unique Nat.one_lt_ofNat digits (fun c mem => ⟨plain c mem, decimal_digit (plain c mem)⟩) (by decide)

/-! ### The parser -/

theorem denoted_unlocated (e : Expr) : denoted (unlocated e) = denoted e := by
  induction e using unlocated.induct with
  | case1 info e ih => exact ih
  | case2 e other =>
      cases e
      case located info e => exact absurd rfl (other info e)
      all_goals rfl

section Reading

variable {others : OtherParsers} {s : String}

variable {p : Parser} {t : Token} {tokens : List Token}

/-- An integer in the range is an operand. -/
theorem reads_integer {v : Int} (here : p.rest = t :: tokens)
    (kind : t.kind = .int s) (value : int_value s = .ok v) (few : p.recursion_depth < DEPTH_MAX_DEFAULT)
    (stops : continues p.step.peek_kind = false) : ReadsInteger others p v p.step := by
  refine ⟨2, fun n enough => ?_⟩
  obtain ⟨m, rfl⟩ : ∃ m, n = m + 2 := ⟨n - 2, by omega⟩
  have atom : atom_value others t.kind = some (.literal (.int v)) := by
    rw [kind, atom_value, value]
    rfl
  have behind : Stops p.step t.kind := by
    rw [kind]
    exact ⟨stops, by rintro _ ⟨⟩, by rintro ⟨⟩, by rintro _ ⟨⟩⟩
  obtain ⟨e, read, same⟩ :=
    parse_unary_atom others (Again.upTo others (m + 1)) few here atom behind (by rw [upTo_fuel]; exact m.succ_pos)
  refine ⟨e, read, ?_⟩
  rw [← denoted_unlocated, same]
  rfl

/-- An integer out of the range is an error. -/
theorem refuses_integer {message : String}
    (here : p.rest = t :: tokens) (kind : t.kind = .int s) (value : int_value s = .error message)
    (few : p.recursion_depth < DEPTH_MAX_DEFAULT) : Refuses others p := by
  refine ⟨1, fun n enough => ?_⟩
  obtain ⟨m, rfl⟩ : ∃ m, n = m + 1 := ⟨n - 1, by omega⟩
  have inner : parse_unary_inner others (Again.upTo others m) (inc_depth p) =
      some (.error ⟨message, t.line, t.col⟩, (inc_depth p).advance) := by
    rw [parse_unary_inner, peek_kind_bind, Parser.peek_kind_inc, Parser.peek_kind_cons here, kind]
    show parse_primary others _ (inc_depth p) = _
    rw [parse_primary, gets_bind, gets_bind, Parser.peek_cons (p := inc_depth p) here, kind]
    show (advance >>= fun _ => _) (inc_depth p) = _
    rw [advance_bind, value]
    rfl
  exact ⟨_, _, deeper_error few inner⟩

/-- `-` in front of an integer that is not the magnitude of the least one. -/
theorem reads_negated {minus : Token} {v : Int}
    (here : p.rest = minus :: t :: tokens) (sign : minus.kind = .minus) (kind : t.kind = .int s)
    (other : is_i64_min_magnitude (cleaned s) = false) (value : int_value s = .ok v)
    (few : p.recursion_depth + 1 < DEPTH_MAX_DEFAULT) (stops : continues p.step.step.peek_kind = false) :
    ReadsInteger others p (-v) p.step.step := by
  have there : (inc_depth p.step).rest = t :: tokens := Parser.rest_step here
  obtain ⟨enough, reads⟩ : ReadsInteger others (inc_depth p.step) v (inc_depth p.step).step :=
    reads_integer there kind value few stops
  refine ⟨enough + 1, fun n more => ?_⟩
  obtain ⟨m, rfl⟩ : ∃ m, n = m + 1 := ⟨n - 1, by omega⟩
  obtain ⟨e, read, same⟩ := reads m (by omega)
  have opens : Opens t.kind := by
    rw [kind]
    exact ⟨rfl, nofun, other⟩
  have operator : [minus].map Token.kind = Prefix.neg.kinds := by
    rw [List.map_singleton, sign]
    rfl
  have here' : p.rest = [minus] ++ t :: tokens := here
  obtain ⟨e', read', same'⟩ := parse_unary_prefixed others (Again.upTo others m) (Nat.lt_of_succ_lt few) here' operator
    opens rfl read
  refine ⟨e', read', ?_⟩
  rw [← denoted_unlocated, same']
  show (denoted e).map _ = _
  rw [same]
  rfl

theorem refuses_negated {minus : Token} {message : String}
    (here : p.rest = minus :: t :: tokens) (sign : minus.kind = .minus) (kind : t.kind = .int s)
    (other : is_i64_min_magnitude (cleaned s) = false) (value : int_value s = .error message)
    (few : p.recursion_depth + 1 < DEPTH_MAX_DEFAULT) : Refuses others p := by
  have there : (inc_depth p.step).rest = t :: tokens := Parser.rest_step here
  obtain ⟨enough, refuses⟩ : Refuses others (inc_depth p.step) := refuses_integer there kind value few
  refine ⟨enough + 1, fun n more => ?_⟩
  obtain ⟨m, rfl⟩ : ∃ m, n = m + 1 := ⟨n - 1, by omega⟩
  obtain ⟨error, p', refused⟩ := refuses m (by omega)
  have inner : parse_unary_inner others (Again.upTo others m) (inc_depth p) = some (.error error, p') := by
    have moved : (inc_depth p).advance = inc_depth p.step :=
      Parser.advance_cons (p := inc_depth p) here (by rw [sign]; nofun)
    rw [parse_unary_inner, peek_kind_bind, Parser.peek_kind_inc, Parser.peek_kind_cons here, sign]
    show (advance >>= fun _ => _) (inc_depth p) = _
    rw [advance_bind, moved, peek_kind_bind, Parser.peek_kind_cons there, kind, i64_min_ahead, other]
    exact bind_error refused _
  exact ⟨error, _, deeper_error (Nat.lt_of_succ_lt few) inner⟩

/-- `-` in front of the magnitude of the least integer. -/
theorem reads_least {minus : Token} (here : p.rest = minus :: t :: tokens)
    (sign : minus.kind = .minus) (kind : t.kind = .int s) (least : is_i64_min_magnitude (cleaned s) = true)
    (few : p.recursion_depth < DEPTH_MAX_DEFAULT) : ReadsInteger others p (-2 ^ 63) p.step.step := by
  refine ⟨1, fun n enough => ?_⟩
  obtain ⟨m, rfl⟩ : ∃ m, n = m + 1 := ⟨n - 1, by omega⟩
  obtain ⟨e, read, same⟩ := parse_unary_least others (Again.upTo others m) few here sign kind least
  refine ⟨e, read, ?_⟩
  rw [← denoted_unlocated, same]
  rfl

/-- What is refused is not read. -/
theorem not_reads_of_refuses {p' : Parser} {v : Int} (refuses : Refuses others p) : ¬ ReadsInteger others p v p' := by
  rintro ⟨enough, reads⟩
  obtain ⟨enough', refuses⟩ := refuses
  obtain ⟨e, read, -⟩ := reads (max enough enough') (Nat.le_max_left ..)
  obtain ⟨error, q, refused⟩ := refuses (max enough enough') (Nat.le_max_right ..)
  rw [read] at refused
  cases refused

/-- What a value says about the conversion of its text. -/
theorem Understood.int_value {v : Nat} (known : Understood s) (value : mathematical_value s = some v) :
    (v < 2 ^ 63 → int_value s = .ok (v : Int)) ∧ (2 ^ 63 ≤ v → ∃ message, int_value s = .error message) := by
  rw [mathematical_value] at value
  split at value
  · cases value
  · rename_i some_
    obtain rfl := Option.some.inj value
    have converted := known.value
    rw [from_str_radix_eq (Nat.zero_lt_of_lt known.base) some_ known.all] at converted
    constructor
    · intro small
      rw [if_pos small] at converted
      cases read : Parsing.int_value s with
      | error message =>
          rw [read] at converted
          cases converted
      | ok found =>
          rw [read] at converted
          exact congrArg _ (Option.some.inj converted)
    · intro large
      rw [if_neg (Nat.not_lt_of_ge large)] at converted
      cases read : Parsing.int_value s with
      | error message => exact ⟨message, rfl⟩
      | ok found =>
          rw [read] at converted
          cases converted

/-- The text of the magnitude of the least integer is the one of its value without zeros in front. -/
theorem Understood.least {v : Nat} (known : Understood s) (value : mathematical_value s = some v) :
    is_i64_min_magnitude (cleaned s) = true ↔ v = 2 ^ 63 ∧ padded s = false := by
  rw [mathematical_value] at value
  split at value
  · cases value
  · obtain rfl := Option.some.inj value
    rw [known.min, padded, decide_eq_false_iff_not]

/-- An integer of the lexer is read exactly, unless zeros stand in front of the magnitude of the least integer. -/
theorem integers_exact_iff (others : OtherParsers) {alphabet : Alphabet} {fuel : Nat} {source : List Char}
    {mode : LexerMode} {tokens : List Token} (runs : flow_tokenize alphabet fuel source mode = some (.ok tokens))
    {t : Token} (found : t ∈ tokens) {s : String} (kind : t.kind = .int s) {v : Nat}
    (value : mathematical_value s = some v) : ReadExactly others s v ↔ v ≠ 2 ^ 63 ∨ padded s = false := by
  have known : Understood s := (numeral_of_literal (tokens_spelled runs t found s kind)).understood
  have number := known.int_value value
  have least := known.least value
  constructor
  · intro exact_
    by_contra both
    obtain ⟨rfl, zeros⟩ : v = 2 ^ 63 ∧ padded s = true := by simpa using both
    have other : is_i64_min_magnitude (cleaned s) = false := by
      rw [← Bool.not_eq_true, least, zeros]
      simp
    obtain ⟨message, wrong⟩ := number.2 le_rfl
    have few : 0 + 1 < DEPTH_MAX_DEFAULT := by decide
    let p : Parser := ⟨[⟨.minus, 0, 0, 0, 0⟩, t], 0, 0, true, 0⟩
    have here : p.rest = [⟨.minus, 0, 0, 0, 0⟩, t] := rfl
    have reads := (exact_.negative p _ t [] here rfl kind few rfl).1 le_rfl
    exact not_reads_of_refuses (refuses_negated here rfl kind other wrong few) reads
  · intro condition
    refine ⟨?_, ?_⟩
    · intro p t tokens here kind few stops
      refine ⟨fun small => reads_integer here kind (number.1 small) few stops, fun large => ?_⟩
      obtain ⟨message, wrong⟩ := number.2 large
      exact refuses_integer here kind wrong few
    · intro p minus t tokens here sign kind few stops
      cases magnitude : is_i64_min_magnitude (cleaned s) with
      | true =>
          obtain ⟨rfl, -⟩ := least.mp magnitude
          refine ⟨fun _ => ?_, fun large => absurd large (lt_irrefl _)⟩
          exact reads_least here sign kind magnitude (Nat.lt_of_succ_lt few)
      | false =>
          have not_least : v ≠ 2 ^ 63 := by
            rintro rfl
            have unpadded := condition.resolve_left (not_not_intro rfl)
            rw [least.mpr ⟨rfl, unpadded⟩] at magnitude
            cases magnitude
          refine ⟨fun small => ?_, fun large => ?_⟩
          · exact reads_negated here sign kind magnitude (number.1 (lt_of_le_of_ne small not_least)) few stops
          · obtain ⟨message, wrong⟩ := number.2 large.le
            exact refuses_negated here sign kind magnitude wrong few

end Reading

/-- The largest integer, in the base sixteen. -/
theorem integers_exact_hex : ∃ tokens t, t ∈ tokens ∧ t.kind = .int "0x7FFF_FFFF_FFFF_FFFF" ∧
    flow_tokenize asciiAlphabet 50 "0x7FFF_FFFF_FFFF_FFFF".toList .production = some (.ok tokens) ∧
    ReadExactly .absent "0x7FFF_FFFF_FFFF_FFFF" 9223372036854775807 := by
  obtain ⟨tokens, runs, kinds⟩ := lexed asciiAlphabet 50 "0x7FFF_FFFF_FFFF_FFFF".toList .production
    [.int "0x7FFF_FFFF_FFFF_FFFF", .eof] (by decide)
  obtain ⟨t, rest, rfl, kind, -⟩ := List.map_eq_cons_iff.mp kinds
  have value : mathematical_value "0x7FFF_FFFF_FFFF_FFFF" = some 9223372036854775807 := by decide
  refine ⟨_, t, List.mem_cons_self, kind, runs, ?_⟩
  exact (integers_exact_iff .absent runs List.mem_cons_self kind value).mpr (.inl (by decide))

/-- The least integer with a zero in front of its magnitude is refused. -/
theorem integers_exact_padded : ∃ tokens,
    flow_tokenize asciiAlphabet 50 "-09223372036854775808".toList .production = some (.ok tokens) ∧
    tokens.map Token.kind = [.minus, .int "09223372036854775808", .eof] ∧
    mathematical_value "09223372036854775808" = some (2 ^ 63) ∧ Refuses .absent ⟨tokens, 0, 0, true, 0⟩ ∧
    ¬ ReadExactly .absent "09223372036854775808" (2 ^ 63) := by
  obtain ⟨tokens, runs, kinds⟩ := lexed asciiAlphabet 50 "-09223372036854775808".toList .production
    [.minus, .int "09223372036854775808", .eof] (by decide)
  have value : mathematical_value "09223372036854775808" = some (2 ^ 63) := by decide
  obtain ⟨minus, rest, rfl, sign, rest_kinds⟩ := List.map_eq_cons_iff.mp kinds
  obtain ⟨t, behind, rfl, kind, -⟩ := List.map_eq_cons_iff.mp rest_kinds
  have other : is_i64_min_magnitude (cleaned "09223372036854775808") = false := by decide
  have wrong : int_value "09223372036854775808" = .error "invalid integer" := by rfl
  have few : 0 + 1 < DEPTH_MAX_DEFAULT := by decide
  have refuses : ∀ tokens, Refuses .absent ⟨minus :: t :: tokens, 0, 0, true, 0⟩ :=
    fun tokens => refuses_negated rfl sign kind other wrong few
  refine ⟨_, runs, kinds, value, refuses behind, fun exact_ => ?_⟩
  exact not_reads_of_refuses (refuses [])
    ((exact_.negative ⟨[minus, t], 0, 0, true, 0⟩ minus t [] rfl sign kind few rfl).1 le_rfl)

end Mimi.Parsing
