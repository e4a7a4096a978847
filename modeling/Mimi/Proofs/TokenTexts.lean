/-
Module: Mimi.Proofs.TokenTexts
Purpose: What the scanners of tokens read: the text of each kind of token, wherever it stands, and whatever
  stands behind it, as long as a blank, a line feed or a comment is exchanged for another one of these only.
Trusted boundary: none
-/
import Mimi.Lexer.Scan

namespace Mimi.Lexer

open Mimi.Lib Scanner

/-- The characters that end every token: blanks, line feeds, and the first characters of comments. -/
def Quiet (c : Char) : Prop := c = ' ' ∨ c = '\n' ∨ c = '/' ∨ c = '#'

/-- A character that a string may hold as it is. -/
def Ordinary (c : Char) : Prop := c ≠ '"' ∧ c ≠ '\\'

/-- Ordinary characters, and backslashes with the characters behind them. -/
inductive PlainBody : List Char → Prop where
  | nil : PlainBody []
  | ordinary {c : Char} {body : List Char} (plain : Ordinary c) (rest : PlainBody body) : PlainBody (c :: body)
  | escape (c : Char) {body : List Char} (rest : PlainBody body) : PlainBody ('\\' :: c :: body)

namespace PlainBody

theorem append {body body' : List Char} (first : PlainBody body) (second : PlainBody body') :
    PlainBody (body ++ body') := by
  induction first with
  | nil => exact second
  | ordinary plain _ ih => exact .ordinary plain ih
  | escape c _ ih => exact .escape c ih

theorem of_ordinary {body : List Char} (plain : ∀ c ∈ body, Ordinary c) : PlainBody body := by
  induction body with
  | nil => exact .nil
  | cons c body ih =>
      obtain ⟨first, rest⟩ := List.forall_mem_cons.mp plain
      exact .ordinary first (ih rest)

end PlainBody

/-- The text of a token. -/
def TokenText (text : List Char) : TokenKind → Prop
  | .string _ => ∃ body, text = '"' :: body ++ ['"'] ∧ PlainBody body
  | .fString _ => ∃ body, text = 'f' :: '"' :: body ++ ['"']
  | _ => text ≠ [] ∧ '"' ∉ text ∧ (text = ['/'] ∨ text = ['/', '='] ∨ '/' ∉ text)

/-- The kinds that no text of a token has. -/
def textless : TokenKind → Bool
  | .newline | .indent | .dedent | .eof => true
  | _ => false

/-! ### Characters -/

variable {c : Char}

theorem ordinary_of_hexdigit (hex : is_ascii_hexdigit c = true) : Ordinary c := by
  constructor
  · rintro rfl
    exact absurd hex (by decide)
  · rintro rfl
    exact absurd hex (by decide)

theorem quiet_hexdigit (quiet : Quiet c) : is_ascii_hexdigit c = false := by
  rcases quiet with rfl | rfl | rfl | rfl <;> decide

theorem quiet_digit (quiet : Quiet c) : is_ascii_digit c = false := by
  rcases quiet with rfl | rfl | rfl | rfl <;> decide

theorem quiet_ne {d : Char} (quiet : Quiet c) (other : ¬ Quiet d) : c ≠ d := fun same => other (same ▸ quiet)

/-! ### Escapes -/

/-- Texts of ordinary characters. -/
def OrdinaryText {β : Type} (text : List Char) (_ : β) : Prop := ∀ c ∈ text, Ordinary c

theorem reads_two_digits (start_col start_col' : Nat) :
    Reads Quiet OrdinaryText (two_digits start_col) (two_digits start_col') := by
  refine Reads.bind (Reads.manyUpTo_ OrdinaryText (fun c => quiet_hexdigit) fun text _ hex =>
    fun c member => ordinary_of_hexdigit (hex c member)) fun text hex plain => ?_
  split
  · refine Reads.pure_ ?_
    rw [List.append_nil]
    exact plain
  · exact Reads.fail_ _ _

theorem reads_four_digits (start_col start_col' : Nat) :
    Reads Quiet OrdinaryText (four_digits start_col) (four_digits start_col') := by
  refine Reads.bind (Reads.manyUpTo_ OrdinaryText (fun c => quiet_hexdigit) fun text _ hex =>
    fun c member => ordinary_of_hexdigit (hex c member)) fun text hex plain => ?_
  split
  · refine Reads.pure_ ?_
    rw [List.append_nil]
    exact plain
  · exact Reads.fail_ _ _

theorem reads_braced_digits (start_col start_col' : Nat) :
    Reads Quiet OrdinaryText (braced_digits start_col) (braced_digits start_col') := by
  refine Reads.bind (Reads.many_ OrdinaryText ?_ ?_) fun text code plain => ?_
  · intro c quiet
    rw [quiet_hexdigit quiet, decide_eq_false (quiet_ne quiet (by unfold Quiet; decide))]
    rfl
  · intro text digits c member
    rcases Bool.or_eq_true_iff.mp (digits c member) with hex | separator
    · exact ordinary_of_hexdigit hex
    · rw [of_decide_eq_true separator]
      exact ⟨by decide, by decide⟩
  · refine Reads.bind (Reads.accept_ OrdinaryText ?_ ?_ ?_) fun text' closing plain' => ?_
    · exact fun c quiet => decide_eq_false (quiet_ne quiet (by unfold Quiet; decide))
    · exact fun c member => by cases member
    · intro c closes d member
      rw [List.mem_singleton.mp member, of_decide_eq_true closes]
      exact ⟨by decide, by decide⟩
    · cases closing with
      | none => exact Reads.fail_ _ _
      | some _ =>
          dsimp only
          split
          · exact Reads.fail_ _ _
          · refine Reads.pure_ ?_
            rw [List.append_nil]
            exact List.forall_mem_append.mpr ⟨plain, plain'⟩

theorem reads_unicode_char (start_col start_col' : Nat) (code : List Char) {text : List Char}
    (plain : ∀ c ∈ text, Ordinary c) :
    Reads Quiet (fun text' _ => ∀ c ∈ text ++ text', Ordinary c) (unicode_char start_col code)
      (unicode_char start_col' code) := by
  rw [unicode_char, unicode_char]
  split
  · exact Reads.fail_ _ _
  · split
    · exact Reads.fail_ _ _
    · split
      · refine Reads.pure_ ?_
        rw [List.append_nil]
        exact plain
      · exact Reads.fail_ _ _

/-- What stands behind a backslash: a character, and ordinary ones. -/
def EscapeText {β : Type} (text : List Char) (_ : β) : Prop :=
  ∃ c tail, text = c :: tail ∧ ∀ d ∈ tail, Ordinary d

theorem reads_scan_escape : Reads Quiet EscapeText scan_escape scan_escape := by
  refine Reads.located_ fun start start' => ?_
  refine Reads.bind (Reads.any_ (fun text c => text = [c]) (fun _ => rfl) _ _) fun text c here => ?_
  subst here
  have single : ∀ escaped : Char, Reads Quiet (fun text' b => EscapeText ([c] ++ text') b)
      (pure escaped : Scan Char) (pure escaped) :=
    fun escaped => Reads.pure_ ⟨c, [], rfl, by simp⟩
  have behind : ∀ {text : List Char} {b : Char}, (∀ d ∈ text, Ordinary d) → EscapeText ([c] ++ text) b :=
    fun {text} _ plain => ⟨c, text, rfl, plain⟩
  split
  · exact single _
  · exact single _
  · exact single _
  · exact single _
  · exact single _
  · exact single _
  · refine Reads.bind (reads_two_digits _ _) fun text hex plain => Reads.pure_ ?_
    rw [List.append_nil]
    exact behind plain
  · refine Reads.bind (Reads.accept_ OrdinaryText ?_ ?_ ?_) fun text opening plain => ?_
    · exact fun c quiet => decide_eq_false (quiet_ne quiet (by unfold Quiet; decide))
    · exact fun c member => by cases member
    · intro c opens d member
      rw [List.mem_singleton.mp member, of_decide_eq_true opens]
      exact ⟨by decide, by decide⟩
    · have digits : ∀ {read read' : Scan (List Char)}, Reads Quiet OrdinaryText read read' →
          Reads Quiet (fun text' b => EscapeText (['u'] ++ (text ++ text')) b)
            (read >>= unicode_char start.col) (read' >>= unicode_char start'.col) := by
        intro read read' reads
        refine Reads.bind reads fun text' code plain' => ?_
        refine (reads_unicode_char _ _ code (List.forall_mem_append.mpr ⟨plain, plain'⟩)).mono ?_
        intro text'' b all
        rw [← List.append_assoc text]
        exact behind all
      cases opening with
      | none => exact digits (reads_four_digits _ _)
      | some _ => exact digits (reads_braced_digits _ _)
  · exact Reads.fail_ _ _

theorem reads_scan_raw_escape : Reads Quiet EscapeText scan_raw_escape scan_raw_escape := by
  refine Reads.located_ fun start start' => ?_
  refine Reads.bind (Reads.any_ (fun text c => text = [c]) (fun _ => rfl) _ _) fun text c here => ?_
  subst here
  have single : ∀ escaped : List Char, Reads Quiet (fun text' b => EscapeText ([c] ++ text') b)
      (pure escaped : Scan (List Char)) (pure escaped) :=
    fun escaped => Reads.pure_ ⟨c, [], rfl, by simp⟩
  have behind : ∀ {text : List Char} {b : List Char}, (∀ d ∈ text, Ordinary d) → EscapeText ([c] ++ text) b :=
    fun {text} _ plain => ⟨c, text, rfl, plain⟩
  split
  · exact single _
  · exact single _
  · exact single _
  · exact single _
  · exact single _
  · exact single _
  · exact single _
  · exact single _
  · refine Reads.bind (reads_two_digits _ _) fun text hex plain => Reads.pure_ ?_
    rw [List.append_nil]
    exact behind plain
  · refine Reads.bind (Reads.accept_ OrdinaryText ?_ ?_ ?_) fun text opening plain => ?_
    · exact fun c quiet => decide_eq_false (quiet_ne quiet (by unfold Quiet; decide))
    · exact fun c member => by cases member
    · intro c opens d member
      rw [List.mem_singleton.mp member, of_decide_eq_true opens]
      exact ⟨by decide, by decide⟩
    · have digits : ∀ {read read' : Scan (List Char)} (raw : List Char → List Char),
          Reads Quiet OrdinaryText read read' → Reads Quiet (fun text' b => EscapeText (['u'] ++ (text ++ text')) b)
            (read >>= fun code => pure (raw code)) (read' >>= fun code => pure (raw code)) := by
        intro read read' raw reads
        refine Reads.bind reads fun text' code plain' => Reads.pure_ ?_
        rw [List.append_nil]
        exact behind (List.forall_mem_append.mpr ⟨plain, plain'⟩)
      cases opening with
      | none => exact digits _ (reads_four_digits _ _)
      | some _ => exact digits _ (reads_braced_digits _ _)
  · exact Reads.fail_ _ _

/-! ### Strings -/

variable {β : Type}

/-- A loop that only its own rounds end. -/
theorem reads_delimited {σ : Type} {holds : List Char → β → Prop}
    {round : σ → Char → LexerPos → Scan (σ ⊕ β)} {s : σ} (error : Nat → Nat → LexerError)
    (invariant : List Char → σ → Prop) (start : invariant [] s)
    (step : ∀ text s c at_ at_', invariant text s →
      Reads Quiet (fun text' result => result.elim (invariant (text ++ c :: text')) (holds (text ++ c :: text')))
        (round s c at_) (round s c at_')) :
    Reads Quiet holds (loop (fun _ _ _ => true) round (fun _ => failAt error) s)
      (loop (fun _ _ _ => true) round (fun _ => failAt error) s) :=
  Reads.loop_ invariant start (fun _ _ _ _ _ => rfl) (.inl fun _ _ _ impossible => by cases impossible)
    (fun _ _ _ => Reads.fail_ _ _) fun text s c _ at_ at_' held _ => step text s c at_ at_' held

/-- A body with the quote that ends it. -/
def Quoted {β : Type} (text : List Char) (_ : β) : Prop := ∃ body, text = body ++ ['"'] ∧ PlainBody body

theorem escape_plain {text : List Char} {b : β} (escape : EscapeText text b) :
    PlainBody ('\\' :: text) := by
  obtain ⟨c, tail, rfl, plain⟩ := escape
  exact .escape c (.of_ordinary plain)

theorem reads_string_body : Reads Quiet Quoted
    (loop (fun _ _ _ => true) string_round (fun _ => failAt .unterminatedString) [])
    (loop (fun _ _ _ => true) string_round (fun _ => failAt .unterminatedString) []) := by
  refine reads_delimited _ (fun text _ => PlainBody text) .nil fun text s c _ _ body => ?_
  by_cases quote : c = '"'
  · subst quote
    exact Reads.pure_ ⟨text, rfl, body⟩
  · by_cases backslash : c = '\\'
    · subst backslash
      refine Reads.bind reads_scan_escape fun text' escaped escape => Reads.pure_ ?_
      rw [List.append_nil]
      exact body.append (escape_plain escape)
    · have other : ∀ at_, string_round s c at_ = pure (.inl (s ++ [c])) := by
        intro at_
        rw [string_round]
        · exact quote
        · exact backslash
      rw [other, other]
      exact Reads.pure_ (body.append (.ordinary ⟨quote, backslash⟩ .nil))

theorem reads_string : Reads Quiet (fun text (_ : String) => ∃ c body, text = c :: body ++ ['"'] ∧ PlainBody body)
    scan_string scan_string := by
  refine Reads.bind (Reads.any_ (fun text c => text = [c]) (fun _ => rfl) _ _) fun text c here => ?_
  subst here
  refine reads_string_body.mono ?_
  rintro text b ⟨body, rfl, plain⟩
  exact ⟨c, body, rfl, plain⟩

/-! ### F-strings -/

theorem reads_quoted (quote : Char) (s : List Char) : Reads Quiet (fun _ _ => True)
    (loop (fun _ _ _ => true) (quoted_round quote) (fun _ => failAt .unterminatedInterpolation) s)
    (loop (fun _ _ _ => true) (quoted_round quote) (fun _ => failAt .unterminatedInterpolation) s) := by
  refine reads_delimited _ (fun _ _ => True) trivial fun text s c _ _ _ => ?_
  rw [quoted_round, quoted_round]
  split
  · refine Reads.bind (Reads.any_ (fun _ _ => True) (fun _ => trivial) _ _) fun _ _ _ => ?_
    exact Reads.pure_ trivial
  · split
    · exact Reads.pure_ trivial
    · exact Reads.pure_ trivial

theorem reads_interpolation (s : List Char × Nat) : Reads Quiet (fun _ _ => True)
    (loop (fun _ _ _ => true) interpolation_round (fun _ => failAt .unterminatedInterpolation) s)
    (loop (fun _ _ _ => true) interpolation_round (fun _ => failAt .unterminatedInterpolation) s) := by
  refine reads_delimited _ (fun _ _ => True) trivial fun text s c _ _ _ => ?_
  rw [interpolation_round, interpolation_round]
  split
  · exact Reads.bind (reads_quoted c [c]) fun _ _ _ => Reads.pure_ trivial
  · split
    · exact Reads.pure_ trivial
    · split
      · split
        · exact Reads.pure_ trivial
        · exact Reads.pure_ trivial
      · exact Reads.pure_ trivial

theorem reads_fstring_body : Reads Quiet (fun text (_ : String) => ∃ body, text = body ++ ['"'])
    (loop (fun _ _ _ => true) fstring_round (fun _ => failAt .unterminatedFString) [])
    (loop (fun _ _ _ => true) fstring_round (fun _ => failAt .unterminatedFString) []) := by
  refine reads_delimited _ (fun _ _ => True) trivial fun text s c _ _ _ => ?_
  by_cases quote : c = '"'
  · subst quote
    exact Reads.pure_ ⟨text, rfl⟩
  · by_cases backslash : c = '\\'
    · subst backslash
      exact Reads.bind reads_scan_raw_escape fun _ _ _ => Reads.pure_ trivial
    · by_cases brace : c = '\x7b'
      · subst brace
        exact Reads.bind (reads_interpolation _) fun _ _ _ => Reads.pure_ trivial
      · have other : ∀ at_, fstring_round s c at_ = pure (.inl (s ++ [c])) := by
          intro at_
          rw [fstring_round]
          · exact quote
          · exact backslash
          · exact brace
        rw [other, other]
        exact Reads.pure_ trivial

theorem reads_fstring : Reads Quiet (fun text (_ : String) => ∃ c d body, text = c :: d :: body ++ ['"'])
    scan_fstring scan_fstring := by
  refine Reads.bind (Reads.any_ (fun text c => text = [c]) (fun _ => rfl) _ _) fun text c here => ?_
  subst here
  refine Reads.bind (Reads.any_ (fun text c => text = [c]) (fun _ => rfl) _ _) fun text d here => ?_
  subst here
  refine reads_fstring_body.mono ?_
  rintro text b ⟨body, rfl⟩
  exact ⟨c, d, body, rfl⟩

/-! ### Numbers -/

/-- Texts without quotes and slashes. -/
def Harmless {β : Type} (text : List Char) (_ : β) : Prop := '"' ∉ text ∧ '/' ∉ text

theorem harmless_nil (b : β) : Harmless [] b := ⟨by simp, by simp⟩

variable {text' : List Char}

theorem Harmless.append {γ : Type} {text : List Char} {b : β} {c : γ} (first : Harmless text b)
    (second : Harmless text' c) {δ : Type} (d : δ) : Harmless (text ++ text') d :=
  ⟨fun member => (List.mem_append.mp member).elim first.1 second.1,
    fun member => (List.mem_append.mp member).elim first.2 second.2⟩

theorem harmless_of_forall {text : List Char} (keep : Char → Bool) (quote : keep '"' = false)
    (slash : keep '/' = false) (all : ∀ c ∈ text, keep c = true) (b : β) : Harmless text b := by
  refine ⟨fun member => ?_, fun member => ?_⟩
  · exact Bool.false_ne_true (quote.symm.trans (all _ member))
  · exact Bool.false_ne_true (slash.symm.trans (all _ member))

/-- The texts that are integer literals: digits of a base, and separators. -/
inductive IntLiteral : List Char → Prop where
  | decimal {first : Char} {digits : List Char} (digit : is_ascii_digit first = true)
      (all : ∀ c ∈ digits, enters_digits is_ascii_digit c = true) : IntLiteral (first :: digits)
  | radix {text : List Char} {letter : Char} {is_digit : Char → Bool} {digits : List Char}
      (base : radix_prefix text = some (letter, is_digit)) (all : ∀ c ∈ digits, enters_digits is_digit c = true) :
      IntLiteral ('0' :: letter :: digits)

variable {is_digit : Char → Bool}

theorem quiet_enters (deaf : ∀ c, Quiet c → is_digit c = false)
    (quiet : Quiet c) : enters_digits is_digit c = false := by
  rw [enters_digits, deaf c quiet, decide_eq_false (quiet_ne quiet (by unfold Quiet; decide))]
  rfl

theorem reads_digit_round (deaf : ∀ c, Quiet c → is_digit c = false)
    (behind : List Char → Bool) (s : List Char) (c : Char) (start start' : LexerPos) :
    Reads Quiet (fun text s' => text = [] ∧ s' = s ++ [c]) (digit_round is_digit behind s c start)
      (digit_round is_digit behind s c start') := by
  rw [digit_round, digit_round]
  split
  · exact Reads.pure_ ⟨rfl, rfl⟩
  · refine Reads.look_bind (fun text text' alike => alike.any_head deaf) fun whole => ?_
    split
    · exact Reads.pure_ fun _ => ⟨rfl, rfl⟩
    · exact Reads.fail_ _ _

/-- A loop over digits and separators. -/
theorem reads_digits (deaf : ∀ c, Quiet c → is_digit c = false) (behind : List Char → Bool) (front : List Char) :
    Reads Quiet (fun text s => (∀ c ∈ text, enters_digits is_digit c = true) ∧ s = String.ofList (front ++ text))
      (loop (fun _ c _ => enters_digits is_digit c)
        (fun s c start => do
          let s ← digit_round is_digit behind s c start
          return .inl s)
        (fun s => return String.ofList s) front : Scan String)
      (loop (fun _ c _ => enters_digits is_digit c)
        (fun s c start => do
          let s ← digit_round is_digit behind s c start
          return .inl s)
        (fun s => return String.ofList s) front) := by
  refine Reads.loop_ (fun text s => (∀ c ∈ text, enters_digits is_digit c = true) ∧ s = front ++ text)
    ⟨by simp, (List.append_nil front).symm⟩ (fun _ _ _ _ _ => rfl) (.inr fun _ c _ quiet => quiet_enters deaf quiet)
    ?_ ?_
  · rintro text s ⟨all, rfl⟩
    refine Reads.pure_ ?_
    rw [List.append_nil]
    exact ⟨all, rfl⟩
  · rintro text s c _ start start' ⟨all, rfl⟩ entered
    refine Reads.bind (reads_digit_round deaf behind _ c start start') fun text' s' pushed => ?_
    obtain ⟨rfl, rfl⟩ := pushed
    refine Reads.pure_ ⟨List.forall_mem_append.mpr ⟨all, ?_⟩, List.append_assoc _ _ _⟩
    exact List.forall_mem_singleton.mpr entered

theorem radix_prefix_cases {text : List Char} {letter : Char} (base : radix_prefix text = some (letter, is_digit)) :
    (∃ c rest, text = '0' :: c :: rest ∧ c ≠ '"' ∧ c ≠ '/') ∧ (∀ c, Quiet c → is_digit c = false) ∧
      is_digit '"' = false := by
  unfold radix_prefix at base
  split at base
  · rename_i c rest
    have letters : ∀ a b : Char, a ≠ '"' ∧ a ≠ '/' → b ≠ '"' ∧ b ≠ '/' → (decide (c = a) || decide (c = b)) = true →
        c ≠ '"' ∧ c ≠ '/' := by
      intro a b plain plain' either
      rcases Bool.or_eq_true_iff.mp either with same | same
      · rw [of_decide_eq_true same]
        exact plain
      · rw [of_decide_eq_true same]
        exact plain'
    split at base
    · rename_i letter_
      obtain ⟨rfl, rfl⟩ := Prod.mk.inj (Option.some.inj base)
      exact ⟨⟨c, rest, rfl, letters _ _ (by decide) (by decide) letter_⟩, fun c => quiet_hexdigit, by decide⟩
    · split at base
      · rename_i letter_
        obtain ⟨rfl, rfl⟩ := Prod.mk.inj (Option.some.inj base)
        refine ⟨⟨c, rest, rfl, letters _ _ (by decide) (by decide) letter_⟩, ?_, by decide⟩
        rintro c (rfl | rfl | rfl | rfl) <;> rfl
      · split at base
        · rename_i letter_
          obtain ⟨rfl, rfl⟩ := Prod.mk.inj (Option.some.inj base)
          refine ⟨⟨c, rest, rfl, letters _ _ (by decide) (by decide) letter_⟩, ?_, by decide⟩
          rintro c (rfl | rfl | rfl | rfl) <;> rfl
        · cases base
  · cases base

theorem reads_radix {letter : Char} (deaf : ∀ c, Quiet c → is_digit c = false) :
    Reads Quiet (fun text s => ∃ c d digits, text = c :: d :: digits ∧
        (∀ c ∈ digits, enters_digits is_digit c = true) ∧ s = String.ofList ('0' :: letter :: digits))
      (scan_radix letter is_digit) (scan_radix letter is_digit) := by
  refine Reads.bind (Reads.any_ (fun text c => text = [c]) (fun _ => rfl) _ _) fun text c here => ?_
  subst here
  refine Reads.bind (Reads.any_ (fun text c => text = [c]) (fun _ => rfl) _ _) fun text d here => ?_
  subst here
  refine (reads_digits deaf _ ['0', letter]).mono ?_
  rintro digits s ⟨all, rfl⟩
  exact ⟨c, d, digits, rfl, all, rfl⟩

theorem radix_prefix_alike {text : List Char} (alike : Alike Quiet text text') :
    radix_prefix text = radix_prefix text' := by
  have silent : ∀ text : List Char, (∀ c ∈ text.head?, Quiet c) →
      radix_prefix text = none ∧ radix_prefix ('0' :: text) = none := by
    intro text quiet
    cases text with
    | nil => exact ⟨rfl, rfl⟩
    | cons c text => rcases quiet c rfl with rfl | rfl | rfl | rfl <;> exact ⟨rfl, rfl⟩
  cases alike with
  | ends quiet quiet' => rw [(silent _ quiet).1, (silent _ quiet').1]
  | @cons c text text' tail =>
      by_cases zero : c = '0'
      · subst zero
        cases tail with
        | ends quiet quiet' => rw [(silent _ quiet).2, (silent _ quiet').2]
        | cons d tail => rfl
      · have other : ∀ text, radix_prefix (c :: text) = none := by
          intro text
          unfold radix_prefix
          split
          · rename_i same
            exact absurd (List.cons.inj same).1 zero
          · rfl
        rw [other, other]

theorem exponent_alike {text : List Char} (alike : Alike Quiet text text') :
    exponent text = exponent text' := by
  have silent : ∀ text : List Char, (∀ c ∈ text.head?, Quiet c) → exponent text = .none := by
    intro text quiet
    cases text with
    | nil => rfl
    | cons c text =>
        rcases quiet c rfl with rfl | rfl | rfl | rfl <;> rfl
  have deaf : ∀ c, Quiet c → (decide (c = '+') || decide (c = '-')) = false := by
    rintro c (rfl | rfl | rfl | rfl) <;> rfl
  have digits : ∀ (columns : Nat) {text text' : List Char}, Alike Quiet text text' →
      (if text.head? = some '_' then Exponent.separator columns
        else if text.head?.any is_ascii_digit then .digits else .none) =
      if text'.head? = some '_' then .separator columns
        else if text'.head?.any is_ascii_digit then .digits else .none := by
    intro columns text text' alike
    rw [Alike.any_head (fun c => quiet_digit) alike]
    exact if_congr (alike.head_iff (by unfold Quiet; decide)) rfl rfl
  cases alike with
  | ends quiet quiet' => rw [silent _ quiet, silent _ quiet']
  | @cons c text text' tail =>
      rw [exponent, exponent]
      dsimp only
      rw [← tail.any_head deaf]
      cases sign : text.head?.any fun c => c = '+' || c = '-' with
      | false => exact if_congr Iff.rfl (digits 1 tail) rfl
      | true => exact if_congr Iff.rfl (digits 2 (tail.tail deaf sign)) rfl

/-- The letter that an exponent begins with. -/
theorem exponent_digits {text : List Char} (digits : exponent text = .digits) :
    ∃ e rest, text = e :: rest ∧ (e = 'e' ∨ e = 'E') := by
  cases text with
  | nil => cases digits
  | cons e rest =>
      rw [exponent] at digits
      split at digits
      · rename_i letter
        exact ⟨e, rest, rfl, by simpa using letter⟩
      · cases digits

/-- The exponent behind its letter. -/
theorem reads_scan_exponent (s : List Char) :
    Reads Quiet (fun text (_ : String) => ∃ e tail, text = e :: tail ∧ Harmless tail ()) (scan_exponent s)
      (scan_exponent s) := by
  refine Reads.bind (Reads.any_ (fun text c => text = [c]) (fun _ => rfl) _ _) fun text e here => ?_
  subst here
  refine Reads.bind (Reads.accept_ Harmless ?_ ?_ ?_) fun text sign harmless => ?_
  · rintro c (rfl | rfl | rfl | rfl) <;> rfl
  · exact harmless_nil _
  · rintro c is_sign
    refine harmless_of_forall (fun c => c = '+' || c = '-') rfl rfl ?_ _
    exact List.forall_mem_singleton.mpr is_sign
  · refine (reads_digits (fun c => quiet_digit) _ _).mono ?_
    rintro text' _ ⟨all, -⟩
    exact ⟨e, text ++ text', rfl, harmless.append (harmless_of_forall _ rfl rfl all ()) ()⟩

/-- The characters of a number behind its first one, up to its exponent. -/
theorem reads_decimal_digits (first : Char) :
    Reads Quiet (fun text state => state.1 = first :: text ∧ Harmless text () ∧
        (state.2 = false → ∀ c ∈ text, enters_digits is_ascii_digit c = true))
      (loop enters_decimal decimal_round (fun state => return state) ([first], false))
      (loop enters_decimal decimal_round (fun state => return state) ([first], false)) := by
  refine Reads.loop_ (fun text state => state.1 = first :: text ∧ Harmless text () ∧
    (state.2 = false → ∀ c ∈ text, enters_digits is_ascii_digit c = true)) ?_ ?_ (.inr ?_) ?_ ?_
  · exact ⟨rfl, harmless_nil _, fun _ => by simp⟩
  · rintro state c ahead ahead' (rfl | ⟨quiet, quiet'⟩)
    · rfl
    · have silent : ∀ ahead : Option Char, (∀ d ∈ ahead, Quiet d) → ahead.any is_ascii_digit = false := by
        intro ahead quiet
        cases ahead with
        | none => rfl
        | some d => exact quiet_digit (quiet d rfl)
      rw [enters_decimal, enters_decimal, silent _ quiet, silent _ quiet']
  · intro state c ahead quiet
    rw [enters_decimal, quiet_enters (fun c => quiet_digit) quiet,
      decide_eq_false (quiet_ne quiet (d := '.') (by unfold Quiet; decide))]
    rfl
  · intro text state held
    refine Reads.pure_ ?_
    rw [List.append_nil]
    exact held
  · rintro text ⟨s, is_float⟩ c ahead at_ at_' ⟨rfl, harmless, digits⟩ entered
    refine Reads.bind (reads_digit_round (fun c => quiet_digit) _ _ c at_ at_') fun text' s' pushed => ?_
    obtain ⟨rfl, rfl⟩ := pushed
    have plain : enters_digits is_ascii_digit c = true ∨ c = '.' := by
      rcases Bool.or_eq_true_iff.mp entered with digit | dot
      · exact .inl digit
      · exact .inr (of_decide_eq_true (Bool.and_eq_true_iff.mp (Bool.and_eq_true_iff.mp dot).1).1)
    refine Reads.pure_ ⟨List.cons_append, ?_, fun whole => ?_⟩
    · have single : Harmless [c] () := by
        refine harmless_of_forall (fun c => enters_digits is_ascii_digit c || c = '.') rfl rfl ?_ _
        refine List.forall_mem_singleton.mpr (Bool.or_eq_true_iff.mpr ?_)
        exact plain.imp id fun dot => decide_eq_true dot
      exact harmless.append single ()
    · obtain ⟨integer, no_dot⟩ := Bool.or_eq_false_iff.mp whole
      refine List.forall_mem_append.mpr ⟨digits integer, List.forall_mem_singleton.mpr ?_⟩
      exact plain.resolve_right (of_decide_eq_false no_dot)

/-- What the text of a number says: it has no quotes and slashes, and an integer is a literal that is spelled
as its text is. -/
def NumberText (text : List Char) (kind : TokenKind) : Prop :=
  ∃ first tail, text = first :: tail ∧
    (is_ascii_digit first = true → TokenText text kind ∧ textless kind = false ∧
      ∀ s, kind = .int s → IntLiteral s.toList)

theorem token_text_of {text : List Char} {kind : TokenKind} (plain : ∀ s, kind ≠ .string s ∧ kind ≠ .fString s)
    (shape : text ≠ [] ∧ '"' ∉ text ∧ (text = ['/'] ∨ text = ['/', '='] ∨ '/' ∉ text)) : TokenText text kind := by
  rw [TokenText.eq_def]
  split
  · rename_i s
    exact absurd rfl (plain s).1
  · rename_i s
    exact absurd rfl (plain s).2
  · exact shape

theorem Harmless.token_text {text : List Char} {b : β} (harmless : Harmless text b) (some_ : text ≠ [])
    {kind : TokenKind} (plain : ∀ s, kind ≠ .string s ∧ kind ≠ .fString s) : TokenText text kind :=
  token_text_of plain ⟨some_, harmless.1, .inr (.inr harmless.2)⟩

theorem Harmless.cons {tail : List Char} {b : β} (quote : c ≠ '"') (slash : c ≠ '/')
    (harmless : Harmless tail b) : Harmless (c :: tail) b :=
  ⟨List.not_mem_cons_of_ne_of_not_mem quote.symm harmless.1, List.not_mem_cons_of_ne_of_not_mem slash.symm harmless.2⟩

theorem digit_harmless (digit : is_ascii_digit c = true) : c ≠ '"' ∧ c ≠ '/' := by
  constructor
  · rintro rfl
    exact absurd digit (by decide)
  · rintro rfl
    exact absurd digit (by decide)

theorem reads_scan_decimal : Reads Quiet NumberText scan_decimal scan_decimal := by
  refine Reads.bind (Reads.any_ (fun text c => text = [c]) (fun _ => rfl) _ _) fun text first here => ?_
  subst here
  refine Reads.bind (reads_decimal_digits first) fun text state held => ?_
  obtain ⟨s, is_float⟩ := state
  obtain ⟨rfl, harmless, digits⟩ := held
  have float_text : ∀ {tail : List Char} (s : String), Harmless tail () → NumberText (first :: tail) (.float s) := by
    intro tail s harmless
    refine ⟨first, tail, rfl, fun digit => ⟨?_, rfl, nofun⟩⟩
    have plain := digit_harmless digit
    exact (harmless.cons plain.1 plain.2).token_text (List.cons_ne_nil _ _) fun s => ⟨nofun, nofun⟩
  refine Reads.look_bind (fun text text' alike => exponent_alike alike) fun whole => ?_
  split
  · exact Reads.fail_ _ _
  · rename_i is_exponent
    obtain ⟨e, rest, rfl, letter⟩ := exponent_digits is_exponent
    refine Reads.bind (reads_scan_exponent _) fun text' s' shape => Reads.pure_ fun prefix_ => ?_
    obtain ⟨e', tail, rfl, harmless'⟩ := shape
    rw [List.append_nil] at prefix_ ⊢
    obtain rfl := (List.cons_prefix_cons.mp prefix_).1
    refine float_text s' (harmless.append (harmless'.cons ?_ ?_) ())
    · rcases letter with rfl | rfl <;> decide
    · rcases letter with rfl | rfl <;> decide
  · split
    · refine Reads.pure_ fun _ => ?_
      rw [List.append_nil]
      exact float_text _ harmless
    · rename_i integer
      refine Reads.pure_ fun _ => ?_
      rw [List.append_nil]
      refine ⟨first, text, rfl, fun digit => ⟨?_, rfl, fun s same => ?_⟩⟩
      · have plain := digit_harmless digit
        exact (harmless.cons plain.1 plain.2).token_text (List.cons_ne_nil _ _) fun s => ⟨nofun, nofun⟩
      · obtain rfl := TokenKind.int.inj same
        rw [String.toList_ofList]
        exact .decimal digit (digits (Bool.eq_false_iff.mpr integer))

theorem reads_scan_number : Reads Quiet NumberText scan_number scan_number := by
  refine Reads.look_bind (fun text text' alike => radix_prefix_alike alike) fun whole => ?_
  split
  · rename_i letter is_digit base
    obtain ⟨⟨c, rest, rfl, quote, slash⟩, deaf, no_quote⟩ := radix_prefix_cases base
    refine Reads.bind (reads_radix deaf) fun text s shape => Reads.pure_ fun prefix_ => ?_
    obtain ⟨zero, letter', digits, rfl, all, rfl⟩ := shape
    rw [List.append_nil] at prefix_ ⊢
    obtain rfl := (List.cons_prefix_cons.mp prefix_).1
    obtain rfl := (List.cons_prefix_cons.mp (List.cons_prefix_cons.mp prefix_).2).1
    refine ⟨'0', letter' :: digits, rfl, fun _ => ⟨?_, rfl, fun s same => ?_⟩⟩
    · have harmless : Harmless digits () := by
        refine harmless_of_forall (enters_digits is_digit) ?_ ?_ all ()
        · rw [enters_digits, no_quote]
          rfl
        · exact quiet_enters deaf (.inr (.inr (.inl rfl)))
      exact ((harmless.cons quote slash).cons (by decide) (by decide)).token_text (List.cons_ne_nil _ _)
        fun s => ⟨nofun, nofun⟩
    · obtain rfl := TokenKind.int.inj same
      rw [String.toList_ofList]
      exact .radix base all
  · exact reads_scan_decimal.mono fun _ _ held _ => held

/-! ### Names and operators -/

section Tokens

variable (alphabet : Alphabet)

/-- The kinds of numbers and strings, and of no text. -/
def literal : TokenKind → Bool
  | .int _ | .float _ | .string _ | .fString _ => true
  | kind => textless kind

/-- The text of a token that is no literal. -/
def PlainText (text : List Char) (kind : TokenKind) : Prop := TokenText text kind ∧ literal kind = false

theorem no_string {kind : TokenKind} (plain : literal kind = false) (s : String) :
    kind ≠ .string s ∧ kind ≠ .fString s := by
  constructor
  · rintro rfl
    cases plain
  · rintro rfl
    cases plain

theorem Harmless.plain_text {text : List Char} {b : β} (harmless : Harmless text b) (some_ : text ≠ [])
    {kind : TokenKind} (plain : literal kind = false) : PlainText text kind :=
  ⟨harmless.token_text some_ (no_string plain), plain⟩

theorem quiet_ident (quiet : Quiet c) : (alphabet.is_alphanumeric c || decide (c = '_')) = false := by
  have ascii : c.toNat < 128 := by rcases quiet with rfl | rfl | rfl | rfl <;> decide
  rw [alphabet.ascii c ascii]
  rcases quiet with rfl | rfl | rfl | rfl <;> decide

theorem reads_scan_ident (first : Char) :
    Reads Quiet (fun text (_ : String) => Harmless text ()) (scan_ident alphabet first) (scan_ident alphabet first) := by
  refine Reads.bind (Reads.many_ Harmless (fun c => quiet_ident alphabet) fun text all => ?_)
    fun text name harmless => Reads.pure_ ?_
  · refine harmless_of_forall (fun c => alphabet.is_alphanumeric c || c = '_') ?_ ?_ all _
    · rw [alphabet.ascii _ (by decide)]
      decide
    · exact quiet_ident alphabet (.inr (.inr (.inl rfl)))
  · rw [List.append_nil]
    exact harmless

theorem keyword_or_ident_plain (name : String) : literal (keyword_or_ident name) = false := by
  have keywords_plain : ∀ entry ∈ keywords, literal entry.2 = false := by decide
  rw [keyword_or_ident]
  cases found : keywords.lookup name with
  | none => rfl
  | some kind =>
      obtain ⟨before, after, whole, -⟩ := List.lookup_eq_some_iff.mp found
      exact keywords_plain (name, kind) (whole ▸ List.mem_append_right before List.mem_cons_self)

/-- The first character of an operator, and the ones that make it a longer one. -/
structure OperatorKey (c : Char) (longer : List (Char × TokenKind)) (kind : TokenKind) : Prop where
  first : c ≠ '"'
  plain : literal kind = false
  longer_plain : ∀ entry ∈ longer, literal entry.2 = false
  longer_harmless : ∀ entry ∈ longer, entry.1 ≠ '"' ∧ ¬ Quiet entry.1
  slash : c = '/' → longer = [('=', .slashEq)]

theorem operator_key {longer : List (Char × TokenKind)} {kind : TokenKind}
    (known : operator_of c = some (longer, kind)) : OperatorKey c longer kind := by
  rw [operator_of.eq_def] at known
  split at known
  all_goals first
    | cases known; exact ⟨by decide, by decide, by decide, by unfold Quiet; decide, by decide⟩
    | cases known

/-- What the text of a token that begins with a character says. -/
def TokenReading (c : Char) (text : List Char) (kind : TokenKind) : Prop :=
  ∃ first tail, text = first :: tail ∧
    (first = c → TokenText text kind ∧ textless kind = false ∧ ∀ s, kind = .int s → IntLiteral s.toList)

theorem PlainText.reading {first : Char} {tail : List Char} {kind : TokenKind}
    (plain : first = c → PlainText (first :: tail) kind) : TokenReading c (first :: tail) kind := by
  refine ⟨first, tail, rfl, fun same => ⟨(plain same).1, ?_, ?_⟩⟩
  · have other := (plain same).2
    cases kind <;> first | rfl | exact other
  · rintro s rfl
    cases (plain same).2

theorem reads_operator {longer : List (Char × TokenKind)} {kind : TokenKind} (key : OperatorKey c longer kind) :
    Reads Quiet (TokenReading c) (operator longer kind) (operator longer kind) := by
  refine Reads.bind (Reads.any_ (fun text c => text = [c]) (fun _ => rfl) _ _) fun text first here => ?_
  subst here
  have entry : ∀ {d : Char}, (longer.lookup d).isSome = true →
      ∃ kind', longer.lookup d = some kind' ∧ (d, kind') ∈ longer := by
    intro d known
    obtain ⟨kind', found⟩ := Option.isSome_iff_exists.mp known
    obtain ⟨before, after, whole, -⟩ := List.lookup_eq_some_iff.mp found
    exact ⟨kind', found, whole ▸ List.mem_append_right before List.mem_cons_self⟩
  refine Reads.bind (Reads.accept_ (fun text second =>
    (second = none ∧ text = []) ∨ ∃ d kind', second = some d ∧ text = [d] ∧ longer.lookup d = some kind' ∧
      (d, kind') ∈ longer) ?_ ?_ ?_) fun text second shape => Reads.pure_ ?_
  · intro d quiet
    by_contra known
    obtain ⟨kind', -, member⟩ := entry (Bool.eq_true_of_not_eq_false known)
    exact (key.longer_harmless _ member).2 quiet
  · exact .inl ⟨rfl, rfl⟩
  · intro d known
    obtain ⟨kind', found, member⟩ := entry known
    exact .inr ⟨d, kind', rfl, rfl, found, member⟩
  · rw [List.append_nil]
    rcases shape with ⟨rfl, rfl⟩ | ⟨d, kind', rfl, rfl, found, member⟩
    · refine PlainText.reading fun same => ?_
      subst same
      by_cases slash : first = '/'
      · subst slash
        exact ⟨token_text_of (no_string key.plain) ⟨List.cons_ne_nil _ _, by decide, .inl rfl⟩, key.plain⟩
      · exact ((harmless_nil ()).cons key.first slash).plain_text (List.cons_ne_nil _ _) key.plain
    · refine PlainText.reading fun same => ?_
      subst same
      have plain : literal kind' = false := key.longer_plain _ member
      have quote := (key.longer_harmless _ member).1
      have loud := (key.longer_harmless _ member).2
      rw [Option.bind_some, found, Option.getD_some]
      by_cases slash : first = '/'
      · subst slash
        rw [key.slash rfl] at member
        obtain ⟨rfl, rfl⟩ := Prod.mk.inj (List.mem_singleton.mp member)
        exact ⟨⟨List.cons_ne_nil _ _, by decide, .inr (.inl rfl)⟩, rfl⟩
      · refine (((harmless_nil ()).cons quote ?_).cons key.first slash).plain_text (List.cons_ne_nil _ _) plain
        rintro rfl
        exact loud (.inr (.inr (.inl rfl)))

theorem reads_dots : Reads Quiet (TokenReading '.') dots dots := by
  refine Reads.bind (Reads.any_ (fun text c => text = [c]) (fun _ => rfl) _ _) fun text first here => ?_
  subst here
  have dot : ∀ {d : Char}, Quiet d → decide (d = '.') = false :=
    fun quiet => decide_eq_false (quiet_ne quiet (by unfold Quiet; decide))
  have one : ∀ d : Char, decide (d = '.') = true → ∀ e ∈ [d], decide (e = '.') = true :=
    fun d is_dot => List.forall_mem_singleton.mpr is_dot
  have plain : ∀ {tail : List Char} (kind : TokenKind), (∀ d ∈ tail, decide (d = '.') = true) →
      literal kind = false → TokenReading '.' (first :: tail) kind := by
    intro tail kind all not_literal
    refine PlainText.reading fun same => ?_
    subst same
    exact ((harmless_of_forall _ (by decide) (by decide) all ()).cons (by decide) (by decide)).plain_text
      (List.cons_ne_nil _ _) not_literal
  refine Reads.bind (Reads.accept_ (fun text _ => ∀ d ∈ text, decide (d = '.') = true) (fun c => dot)
    (by simp) one) fun text second all => ?_
  cases second with
  | none =>
      refine Reads.pure_ ?_
      rw [List.append_nil]
      exact plain _ all rfl
  | some _ =>
      refine Reads.bind (Reads.accept_ (fun text _ => ∀ d ∈ text, decide (d = '.') = true) (fun c => dot)
        (by simp) one) fun text' third all' => ?_
      have both : ∀ d ∈ text ++ text', decide (d = '.') = true := List.forall_mem_append.mpr ⟨all, all'⟩
      cases third with
      | none =>
          refine Reads.pure_ ?_
          rw [List.append_nil]
          exact plain _ both rfl
      | some _ =>
          refine Reads.pure_ ?_
          rw [List.append_nil]
          exact plain _ both rfl

/-- Whether an f-string comes next, by its first two characters. -/
def fstring_ahead (text : List Char) : Bool := decide (text.head? = some 'f') && decide (text.tail.head? = some '"')

theorem fstring_ahead_alike {text : List Char} (alike : Alike Quiet text text') :
    fstring_ahead text = fstring_ahead text' := by
  have deaf : ∀ c, Quiet c → decide (c = 'f') = false :=
    fun c quiet => decide_eq_false (quiet_ne quiet (by unfold Quiet; decide))
  have first : text.head? = some 'f' ↔ text'.head? = some 'f' := alike.head_iff (by unfold Quiet; decide)
  rw [fstring_ahead, fstring_ahead]
  by_cases letter : text.head? = some 'f'
  · rw [decide_eq_true letter, decide_eq_true (first.mp letter)]
    have tails := alike.tail deaf (by rw [letter]; rfl)
    exact decide_eq_decide.mpr (tails.head_iff (by unfold Quiet; decide))
  · rw [decide_eq_false letter, decide_eq_false (first.not.mp letter)]
    rfl

/-- The reading of a token, with its two characters of an f-string looked at together. -/
def scan_token (c : Char) : Scan TokenKind := do
  if ← look fstring_ahead then
    let s ← scan_fstring
    return .fString s
  else if c = '"' then
    let s ← scan_string
    return .string s
  else if is_ascii_digit c then scan_number
  else if is_ident_start c then
    let first ← any fun pos => .unexpectedCharacter c pos.line pos.col
    let name ← scan_ident alphabet first
    return keyword_or_ident name
  else if c = '.' then dots
  else
    match operator_of c with
    | some (longer, kind) => operator longer kind
    | none => failAt (.unexpectedCharacter c)

theorem lex_scan_token_eq {pos : LexerPos} {rest : List Char} (here : pos.chars = c :: rest) :
    lex_scan_token alphabet c pos = scan_token alphabet c pos := by
  have ahead : fstring_ahead pos.chars = (decide (c = 'f') && decide (pos.chars.tail.head? = some '"')) := by
    rw [fstring_ahead, here, List.head?_cons]
    congr 1
    exact decide_eq_decide.mpr Option.some_inj
  rw [lex_scan_token, scan_token, look_bind_apply, look_bind_apply]
  exact congrArg (fun test : Bool => (if test = true then _ else _ : Scan TokenKind) pos) ahead.symm

theorem reads_scan_token (c : Char) :
    Reads Quiet (TokenReading c) (scan_token alphabet c) (scan_token alphabet c) := by
  refine Reads.look_bind (fun text text' alike => fstring_ahead_alike alike) fun whole => ?_
  split
  · rename_i fstring
    refine Reads.bind reads_fstring fun text s shape => Reads.pure_ fun prefix_ => ?_
    obtain ⟨first, second, body, rfl⟩ := shape
    rw [List.append_nil] at prefix_ ⊢
    obtain ⟨after, rfl⟩ := prefix_
    obtain ⟨letter, quote⟩ := Bool.and_eq_true_iff.mp fstring
    obtain rfl := Option.some.inj (of_decide_eq_true letter)
    obtain rfl := Option.some.inj (of_decide_eq_true quote)
    exact ⟨'f', _, rfl, fun _ => ⟨⟨body, rfl⟩, rfl, nofun⟩⟩
  · split
    · rename_i quote
      subst quote
      refine Reads.bind reads_string fun text s shape => Reads.pure_ fun _ => ?_
      obtain ⟨first, body, rfl, plain⟩ := shape
      rw [List.append_nil]
      refine ⟨first, _, rfl, fun same => ?_⟩
      subst same
      exact ⟨⟨body, rfl, plain⟩, rfl, nofun⟩
    · split
      · rename_i digit
        refine reads_scan_number.mono fun text kind number _ => ?_
        obtain ⟨first, tail, rfl, meaning⟩ := number
        exact ⟨first, tail, rfl, fun same => meaning (same ▸ digit)⟩
      · split
        · rename_i quote _ letter
          refine Reads.bind (Reads.any_ (fun text c => text = [c]) (fun _ => rfl) _ _)
            fun text first here => ?_
          subst here
          refine Reads.bind (reads_scan_ident alphabet first) fun text name harmless => Reads.pure_ fun _ => ?_
          rw [List.append_nil]
          refine PlainText.reading fun same => ?_
          subst same
          refine (harmless.cons quote ?_).plain_text (List.cons_ne_nil _ _) (keyword_or_ident_plain name)
          rintro rfl
          exact absurd letter (by decide)
        · split
          · rename_i dot
            subst dot
            exact reads_dots.mono fun _ _ held _ => held
          · split
            · rename_i longer kind known
              exact (reads_operator (operator_key known)).mono fun _ _ held _ => held
            · exact Reads.fail_ _ _

/-- What the scanning of a token says: of its text, and of every other place where the text stands in front of a
text that is alike. -/
theorem lex_scan_token_reads {rest : List Char} {pos pos' : LexerPos} {kind : TokenKind}
    (here : pos.chars = c :: rest) (read : lex_scan_token alphabet c pos = .ok (kind, pos')) :
    ∃ tail, Ahead pos (c :: tail) pos' ∧
      (TokenText (c :: tail) kind ∧ textless kind = false ∧ ∀ s, kind = .int s → IntLiteral s.toList) ∧
      ∀ q : LexerPos, ∀ after, q.chars = c :: tail ++ after → Alike Quiet pos'.chars after →
        lex_scan_token alphabet c q = .ok (kind, LexerPos.next^[(c :: tail).length] q) := by
  rw [lex_scan_token_eq alphabet here] at read
  obtain ⟨text, ahead, ⟨first, tail, rfl, meaning⟩, again⟩ := reads_scan_token alphabet c pos kind pos' read
  obtain rfl : c = first := (List.cons.inj (here.symm.trans ahead.1)).1
  refine ⟨tail, ahead, meaning rfl, fun q after here' alike => ?_⟩
  rw [lex_scan_token_eq alphabet here']
  exact again q after here' alike

end Tokens

end Mimi.Lexer
