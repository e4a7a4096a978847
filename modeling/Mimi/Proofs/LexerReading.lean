/-
Module: Mimi.Proofs.LexerReading
Purpose: A text read piece by piece: blanks, comments and tokens, in the four places of a line that the lexer
  treats differently.  In the production mode the lexer accepts a text just if it can be read to its end, and its
  tokens are the ones of the pieces.
Trusted boundary: none
-/
import Mimi.Proofs.LexerMoves

namespace Mimi.Lexer

open Mimi.Lib Scanner LexerPos

/-! ### Pieces -/

/-- Where a piece stands: at the start of a line, behind a carriage return there, behind a block comment there, or
in a line. -/
inductive Phase where
  | lineStart
  | afterReturn
  | afterComment
  | inLine
deriving DecidableEq, Repr

inductive Piece where
  | blank (text : List Char)
  | lineComment (text : List Char)
  | blockComment (text : List Char)
  | token (kind : TokenKind) (text : List Char)
deriving DecidableEq, Repr

namespace Piece

def text : Piece → List Char
  | blank text | lineComment text | blockComment text | token _ text => text

def kind : Piece → Option TokenKind
  | token kind _ => some kind
  | _ => none

end Piece

def texts (pieces : List Piece) : List Char := pieces.flatMap Piece.text

def kinds (pieces : List Piece) : List TokenKind := pieces.filterMap Piece.kind

@[simp] theorem texts_nil : texts [] = [] := rfl
@[simp] theorem texts_cons (piece : Piece) (pieces : List Piece) : texts (piece :: pieces) = piece.text ++ texts pieces :=
  rfl
@[simp] theorem texts_append (pieces pieces' : List Piece) : texts (pieces ++ pieces') = texts pieces ++ texts pieces' :=
  List.flatMap_append

@[simp] theorem kinds_nil : kinds [] = [] := rfl
@[simp] theorem kinds_append (pieces pieces' : List Piece) : kinds (pieces ++ pieces') = kinds pieces ++ kinds pieces' :=
  List.filterMap_append

/-- The letters and digits of ASCII alone. -/
def asciiAlphabet : Alphabet := ⟨Char.isAlphanum, fun _ _ => rfl⟩

/-- What a scanner reads of a text, with the rest of the text. -/
def read_text {β : Type} (m : Scan β) (text : List Char) : Option (β × List Char × List Char) :=
  match m ⟨text, 1, 1⟩ with
  | .ok (b, pos) => some (b, text.take (text.length - pos.chars.length), pos.chars)
  | .error _ => none

section Pieces

variable (alphabet : Alphabet)

def block_comment : Scan Unit := fun pos => pos.skip_block_comment.map fun pos => ((), pos)

def block_piece (phase : Phase) (text : List Char) : Option (Piece × Phase × List Char) :=
  (read_text block_comment text).map fun (_, comment, rest) => (.blockComment comment, phase, rest)

def line_piece (text : List Char) : Piece × Phase × List Char :=
  (.lineComment (text.takeWhile (· ≠ '\n')), .lineStart, text.dropWhile (· ≠ '\n'))

def token_piece (c : Char) (text : List Char) : Option (Piece × Phase × List Char) :=
  (read_text (lex_scan_token alphabet c) text).map fun (kind, token, rest) => (.token kind token, .inLine, rest)

/-- The piece that comes next in a line. -/
def inline_piece (text : List Char) : Option (Piece × Phase × List Char) :=
  match text with
  | [] => none
  | c :: rest =>
      if isBlank c then some (.blank [c], .inLine, rest)
      else if c = '\n' then some (.token .newline [c], .lineStart, rest)
      else if c = '\\' then
        if (rest.dropWhile isBlank).head? = some '\n' then
          some (.blank (c :: rest.takeWhile isBlank ++ ['\n']), .lineStart, (rest.dropWhile isBlank).tail)
        else none
      else if c = '/' ∧ rest.head? = some '*' then block_piece .inLine text
      else if (c = '/' ∧ rest.head? = some '/') ∨ (c = '#' ∧ rest.head? ≠ some '[') then some (line_piece text)
      else token_piece alphabet c text

/-- The piece that comes next behind the indentation of a line. -/
def opening_piece (text : List Char) : Option (Piece × Phase × List Char) :=
  if text.head? = some '\n' then some (.blank ['\n'], .lineStart, text.tail)
  else if text.head? = some '/' ∧ text.tail.head? = some '*' then block_piece .afterComment text
  else if text.head? = some '/' ∧ text.tail.head? = some '/' then some (line_piece text)
  else inline_piece alphabet text

/-- The piece that comes next, the place behind it, and the rest of the text. -/
def piece_at (phase : Phase) (text : List Char) : Option (Piece × Phase × List Char) :=
  match phase with
  | .lineStart =>
      if text.head? = some ' ' then some (.blank [' '], .lineStart, text.tail)
      else if text.head? = some '\t' then none
      else if text.head? = some '\r' then some (.blank ['\r'], .afterReturn, text.tail)
      else opening_piece alphabet text
  | .afterReturn =>
      if text.head? = some '\r' then some (.blank ['\r'], .lineStart, text.tail)
      else opening_piece alphabet text
  | .afterComment =>
      match text with
      | c :: rest =>
          if isBlank c then some (.blank [c], .afterComment, rest)
          else if c = '\n' then some (.blank [c], .lineStart, rest)
          else inline_piece alphabet text
      | [] => none
  | .inLine => inline_piece alphabet text

/-- Some pieces of a text, from a place to a place. -/
inductive Steps : Phase → List Char → List Piece → Phase → List Char → Prop where
  | refl (phase : Phase) (text : List Char) : Steps phase text [] phase text
  | step {phase phase' phase'' : Phase} {text text' text'' : List Char} {piece : Piece} {pieces : List Piece}
      (first : piece_at alphabet phase text = some (piece, phase', text'))
      (rest : Steps phase' text' pieces phase'' text'') : Steps phase text (piece :: pieces) phase'' text''

/-- The pieces of a whole text. -/
def Reading (phase : Phase) (text : List Char) (pieces : List Piece) : Prop :=
  ∃ phase', Steps alphabet phase text pieces phase' []

/-- A place in a text at which there is no next piece. -/
def Stuck (phase : Phase) (text : List Char) : Prop := text ≠ [] ∧ piece_at alphabet phase text = none

/-- A byte order mark and a shebang line are no pieces of a line. -/
def head_pieces (source : List Char) : List Piece × List Char :=
  let (mark, text) := if source.head? = some '\uFEFF' then ([.blank ['\uFEFF']], source.tail) else ([], source)
  if text.head? = some '#' ∧ text.tail.head? = some '!' then
    (mark ++ [.lineComment (text.takeWhile (· ≠ '\n'))], text.dropWhile (· ≠ '\n'))
  else (mark, text)

/-- The pieces of a source. -/
def SourceReading (source : List Char) (pieces : List Piece) : Prop :=
  ∃ tail, pieces = (head_pieces source).1 ++ tail ∧ Reading alphabet .lineStart (head_pieces source).2 tail

/-! ### Reading on -/

variable {alphabet}

/-- A scanner that reads a text wherever it stands, if the text behind it is alike. -/
def Local {β : Type} (m : Scan β) (pos : LexerPos) : Prop :=
  ∀ b pos', m pos = .ok (b, pos') → ∃ text, text ≠ [] ∧ Ahead pos text pos' ∧ ∀ q : LexerPos, ∀ after,
    q.chars = text ++ after → Alike Quiet pos'.chars after → m q = .ok (b, LexerPos.next^[text.length] q)

theorem read_text_of_local {β : Type} {m : Scan β} {pos pos' : LexerPos} {b : β} (local_ : Local m pos)
    (read : m pos = .ok (b, pos')) :
    ∃ text, text ≠ [] ∧ Ahead pos text pos' ∧ read_text m pos.chars = some (b, text, pos'.chars) := by
  obtain ⟨text, some_, ahead, again⟩ := local_ b pos' read
  have whole : pos.chars = text ++ pos'.chars := ahead.1
  have read' := again ⟨pos.chars, 1, 1⟩ pos'.chars whole (Alike.refl _)
  have rest : (LexerPos.next^[text.length] ⟨pos.chars, 1, 1⟩).chars = pos'.chars :=
    Ahead.rest_eq (p := (⟨pos.chars, 1, 1⟩ : LexerPos)) whole
  refine ⟨text, some_, ahead, ?_⟩
  rw [read_text, read']
  dsimp only
  rw [rest, whole, List.length_append, Nat.add_sub_cancel, List.take_left]

/-- The same text is read at the place itself. -/
theorem of_read_text {β : Type} {m : Scan β} (pos : LexerPos) {b : β} {text rest : List Char}
    (local_ : Local m ⟨pos.chars, 1, 1⟩) (read : read_text m pos.chars = some (b, text, rest)) :
    ∃ pos', m pos = .ok (b, pos') ∧ Ahead pos text pos' ∧ pos'.chars = rest ∧ text ≠ [] := by
  rw [read_text] at read
  split at read
  · rename_i b' pos' scanned
    obtain ⟨text', some_, ahead, again⟩ := local_ b' pos' scanned
    have whole : pos.chars = text' ++ pos'.chars := ahead.1
    obtain ⟨rfl, same⟩ := Prod.mk.inj (Option.some.inj read)
    obtain ⟨rfl, rfl⟩ := Prod.mk.inj same
    have taken : pos.chars.take (pos.chars.length - pos'.chars.length) = text' := by
      rw [whole, List.length_append, Nat.add_sub_cancel, List.take_left]
    rw [taken]
    exact ⟨_, again pos pos'.chars whole (Alike.refl _), Ahead.of_rest whole, Ahead.rest_eq (p := pos) whole, some_⟩
  · cases read

theorem local_token {c : Char} {pos : LexerPos} {rest : List Char} (here : pos.chars = c :: rest) :
    Local (lex_scan_token alphabet c) pos := by
  intro kind pos' read
  obtain ⟨tail, ahead, -, again⟩ := lex_scan_token_reads alphabet here read
  exact ⟨c :: tail, List.cons_ne_nil _ _, ahead, again⟩

theorem local_block {pos : LexerPos} (peeked : pos.peek = some '/') (behind : pos.peekAfter = some '*') :
    Local block_comment pos := by
  rintro ⟨⟩ pos' read
  rw [block_comment] at read
  cases skipped : pos.skip_block_comment with
  | error e =>
      rw [skipped] at read
      cases read
  | ok pos₁ =>
      rw [skipped] at read
      obtain ⟨-, rfl⟩ := Prod.mk.inj (Except.ok.inj read)
      obtain ⟨text, ahead, comment⟩ := skip_block_comment_reads peeked behind skipped
      refine ⟨text, ?_, ahead, fun q after here _ => ?_⟩
      · obtain ⟨body, rfl, -⟩ := comment
        exact List.cons_ne_nil _ _
      · rw [block_comment, skip_block_comment_again comment here]
        rfl

/-- A token or a block comment at a place takes some of the text. -/
theorem read_text_local {β : Type} {m : Scan β} {text taken rest : List Char} {b : β}
    (local_ : Local m ⟨text, 1, 1⟩) (read : read_text m text = some (b, taken, rest)) :
    text = taken ++ rest ∧ taken ≠ [] := by
  obtain ⟨pos', -, ahead, rfl, some_⟩ := of_read_text ⟨text, 1, 1⟩ local_ read
  exact ⟨ahead.1, some_⟩

theorem block_piece_text {phase : Phase} {text : List Char} {result : Piece × Phase × List Char}
    (starts : text.head? = some '/' ∧ text.tail.head? = some '*') (read : block_piece phase text = some result) :
    ∃ comment, result = (.blockComment comment, phase, result.2.2) ∧ text = comment ++ result.2.2 ∧ comment ≠ [] := by
  obtain ⟨⟨b, comment, rest⟩, taken, rfl⟩ := Option.map_eq_some_iff.mp read
  exact ⟨comment, rfl, read_text_local (local_block starts.1 starts.2) taken⟩

theorem token_piece_text {c : Char} {rest : List Char} {result : Piece × Phase × List Char}
    (read : token_piece alphabet c (c :: rest) = some result) :
    ∃ kind token, result = (.token kind token, .inLine, result.2.2) ∧ c :: rest = token ++ result.2.2 ∧
      token ≠ [] := by
  obtain ⟨⟨kind, token, rest'⟩, taken, rfl⟩ := Option.map_eq_some_iff.mp read
  exact ⟨kind, token, rfl, read_text_local (local_token rfl) taken⟩

theorem line_piece_rest (text : List Char) : text = (line_piece text).1.text ++ (line_piece text).2.2 := by
  show text = text.takeWhile _ ++ text.dropWhile _
  rw [List.takeWhile_append_dropWhile]

theorem line_piece_text {text : List Char} (starts : ∃ c rest, text = c :: rest ∧ c ≠ '\n') :
    text = (line_piece text).1.text ++ (line_piece text).2.2 ∧ (line_piece text).1.text ≠ [] := by
  obtain ⟨c, rest, rfl, other⟩ := starts
  refine ⟨line_piece_rest _, ?_⟩
  show (c :: rest).takeWhile (· ≠ '\n') ≠ []
  rw [List.takeWhile_cons, if_pos (decide_eq_true other)]
  exact List.cons_ne_nil _ _

theorem inline_piece_text {text : List Char} {result : Piece × Phase × List Char}
    (read : inline_piece alphabet text = some result) : text = result.1.text ++ result.2.2 ∧ result.1.text ≠ [] := by
  cases text with
  | nil => cases read
  | cons c rest =>
      rw [inline_piece] at read
      split at read
      · obtain rfl := Option.some.inj read
        exact ⟨rfl, List.cons_ne_nil _ _⟩
      · split at read
        · obtain rfl := Option.some.inj read
          exact ⟨rfl, List.cons_ne_nil _ _⟩
        · rename_i not_feed
          split at read
          · split at read
            · rename_i feed
              obtain rfl := Option.some.inj read
              refine ⟨?_, List.cons_ne_nil _ _⟩
              obtain ⟨after, tail⟩ := List.head?_eq_some_iff.mp feed
              have whole : rest.takeWhile isBlank ++ rest.dropWhile isBlank = rest := List.takeWhile_append_dropWhile
              show c :: rest = c :: (rest.takeWhile isBlank ++ ['\n']) ++ (rest.dropWhile isBlank).tail
              rw [tail] at whole ⊢
              rw [List.cons_append, List.append_assoc]
              exact congrArg (c :: ·) whole.symm
            · cases read
          · split at read
            · rename_i starts
              obtain ⟨rfl, star⟩ := starts
              have opens : ('/' :: rest).head? = some '/' ∧ ('/' :: rest).tail.head? = some '*' := ⟨rfl, star⟩
              obtain ⟨comment, same, whole, some_⟩ := block_piece_text opens read
              rw [same]
              exact ⟨whole, some_⟩
            · split at read
              · obtain rfl := Option.some.inj read
                exact line_piece_text ⟨c, rest, rfl, not_feed⟩
              · obtain ⟨kind, token, same, whole, some_⟩ := token_piece_text read
                rw [same]
                exact ⟨whole, some_⟩

theorem opening_piece_text {text : List Char} {result : Piece × Phase × List Char}
    (read : opening_piece alphabet text = some result) : text = result.1.text ++ result.2.2 ∧ result.1.text ≠ [] := by
  rw [opening_piece] at read
  split at read
  · rename_i feed
    obtain ⟨rest, rfl⟩ := List.head?_eq_some_iff.mp feed
    obtain rfl := Option.some.inj read
    exact ⟨rfl, List.cons_ne_nil _ _⟩
  · split at read
    · rename_i starts
      obtain ⟨comment, same, whole, some_⟩ := block_piece_text starts read
      rw [same]
      exact ⟨whole, some_⟩
    · split at read
      · rename_i starts
        obtain ⟨rest, rfl⟩ := List.head?_eq_some_iff.mp starts.1
        obtain rfl := Option.some.inj read
        exact line_piece_text ⟨_, _, rfl, by decide⟩
      · exact inline_piece_text read

/-- A piece takes some of the text. -/
theorem piece_at_text {phase phase' : Phase} {text text' : List Char} {piece : Piece}
    (read : piece_at alphabet phase text = some (piece, phase', text')) :
    text = piece.text ++ text' ∧ piece.text ≠ [] := by
  have blank : ∀ {c : Char} {phase₁ : Phase}, text.head? = some c →
      some (Piece.blank [c], phase₁, text.tail) = some (piece, phase', text') →
        text = piece.text ++ text' ∧ piece.text ≠ [] := by
    intro c phase₁ first same
    obtain ⟨rest, rfl⟩ := List.head?_eq_some_iff.mp first
    obtain ⟨rfl, behind⟩ := Prod.mk.inj (Option.some.inj same)
    obtain ⟨rfl, rfl⟩ := Prod.mk.inj behind
    exact ⟨rfl, List.cons_ne_nil _ _⟩
  rw [piece_at.eq_def] at read
  split at read
  · split at read
    · rename_i first
      exact blank first read
    · split at read
      · cases read
      · split at read
        · rename_i first
          exact blank first read
        · exact opening_piece_text read
  · split at read
    · rename_i first
      exact blank first read
    · exact opening_piece_text read
  · split at read
    · split at read
      · exact blank rfl read
      · split at read
        · exact blank rfl read
        · exact inline_piece_text read
    · cases read
  · exact inline_piece_text read

theorem piece_at_nil (phase : Phase) : piece_at alphabet phase [] = none := by
  cases phase <;> rfl

namespace Steps

variable {phase phase' phase'' : Phase} {text text' text'' : List Char} {pieces pieces' : List Piece}

theorem trans (first : Steps alphabet phase text pieces phase' text')
    (second : Steps alphabet phase' text' pieces' phase'' text'') :
    Steps alphabet phase text (pieces ++ pieces') phase'' text'' := by
  induction first with
  | refl => exact second
  | step piece rest ih => exact .step piece (ih second)

theorem single {piece : Piece} (read : piece_at alphabet phase text = some (piece, phase', text')) :
    Steps alphabet phase text [piece] phase' text' := .step read (.refl _ _)

theorem text_eq (steps : Steps alphabet phase text pieces phase' text') : text = texts pieces ++ text' := by
  induction steps with
  | refl => rfl
  | step piece rest ih =>
      rw [(piece_at_text piece).1, ih, texts_cons, List.append_assoc]

theorem texts_ne (steps : Steps alphabet phase text pieces phase' text') (some_ : pieces ≠ []) :
    texts pieces ≠ [] := by
  cases steps with
  | refl => exact absurd rfl some_
  | step first rest => exact List.append_ne_nil_of_left_ne_nil (piece_at_text first).2 _

/-- There is one way to read on. -/
theorem rest_reading (steps : Steps alphabet phase text pieces phase' text') {whole : List Piece}
    (reading : Reading alphabet phase text whole) :
    ∃ tail, whole = pieces ++ tail ∧ Reading alphabet phase' text' tail := by
  induction steps generalizing whole with
  | refl => exact ⟨whole, rfl, reading⟩
  | @step phase phase₁ phase₂ text text₁ text₂ piece pieces first rest ih =>
      obtain ⟨last, reading⟩ := reading
      cases reading with
      | refl =>
          rw [piece_at_nil] at first
          cases first
      | step first' rest' =>
          obtain ⟨rfl, same⟩ := Prod.mk.inj (Option.some.inj (first.symm.trans first'))
          obtain ⟨rfl, rfl⟩ := Prod.mk.inj same
          obtain ⟨tail, rfl, reading⟩ := ih ⟨last, rest'⟩
          exact ⟨tail, rfl, reading⟩

theorem reading (steps : Steps alphabet phase text pieces phase' text')
    (tail : Reading alphabet phase' text' pieces') : Reading alphabet phase text (pieces ++ pieces') := by
  obtain ⟨last, rest⟩ := tail
  exact ⟨last, steps.trans rest⟩

/-- A text that the reading gets stuck in has no pieces. -/
theorem no_reading (steps : Steps alphabet phase text pieces phase' text')
    (stuck : Stuck alphabet phase' text') (whole : List Piece) : ¬ Reading alphabet phase text whole := by
  intro reading
  obtain ⟨tail, -, last, rest⟩ := steps.rest_reading reading
  cases rest with
  | refl => exact stuck.1 rfl
  | step first _ => cases stuck.2.symm.trans first

end Steps

theorem Reading.unique {phase : Phase} {text : List Char} {pieces pieces' : List Piece}
    (first : Reading alphabet phase text pieces) (second : Reading alphabet phase text pieces') :
    pieces = pieces' := by
  obtain ⟨last, steps⟩ := first
  obtain ⟨tail, rfl, last', rest⟩ := steps.rest_reading second
  cases rest with
  | refl => exact (List.append_nil _).symm
  | step first _ =>
      rw [piece_at_nil] at first
      cases first

/-! ### The head of a line -/

theorem reading_nil (phase : Phase) {pieces : List Piece} : Reading alphabet phase [] pieces ↔ pieces = [] := by
  constructor
  · rintro ⟨last, steps⟩
    cases steps with
    | refl => rfl
    | step first _ =>
        rw [piece_at_nil] at first
        cases first
  · rintro rfl
    exact ⟨phase, .refl _ _⟩

/-- Pieces that a position moves over. -/
structure Leads (alphabet : Alphabet) (phase : Phase) (pos : LexerPos) (pieces : List Piece) (phase' : Phase)
    (pos' : LexerPos) : Prop where
  steps : Steps alphabet phase pos.chars pieces phase' pos'.chars
  ahead : Ahead pos (texts pieces) pos'

namespace Leads

variable {phase phase' phase'' : Phase} {pos pos' pos'' : LexerPos} {pieces pieces' : List Piece}

theorem refl (phase : Phase) (pos : LexerPos) : Leads alphabet phase pos [] phase pos :=
  ⟨.refl _ _, Ahead.refl pos⟩

theorem trans (first : Leads alphabet phase pos pieces phase' pos')
    (second : Leads alphabet phase' pos' pieces' phase'' pos'') :
    Leads alphabet phase pos (pieces ++ pieces') phase'' pos'' :=
  ⟨first.steps.trans second.steps, texts_append pieces pieces' ▸ first.ahead.trans second.ahead⟩

theorem single {piece : Piece} (read : piece_at alphabet phase pos.chars = some (piece, phase', pos'.chars))
    (ahead : Ahead pos piece.text pos') : Leads alphabet phase pos [piece] phase' pos' :=
  ⟨.single read, by rw [texts_cons, texts_nil, List.append_nil]; exact ahead⟩

/-- A piece of one character. -/
theorem next {c : Char} {rest : List Char} {piece : Piece} (here : pos.chars = c :: rest) (one : piece.text = [c])
    (read : piece_at alphabet phase pos.chars = some (piece, phase', rest)) :
    Leads alphabet phase pos [piece] phase' pos.next := by
  have tail : pos.next.chars = rest := by rw [next_chars, here]; rfl
  exact .single (tail ▸ read) (one ▸ Ahead.next here)

end Leads

/-- Characters that are blanks one by one. -/
def blanks (text : List Char) : List Piece := text.map fun c => .blank [c]

@[simp] theorem texts_blanks (text : List Char) : texts (blanks text) = text := by
  induction text with
  | nil => rfl
  | cons c text ih => exact congrArg (c :: ·) ih

@[simp] theorem kinds_blanks (text : List Char) : kinds (blanks text) = [] := by
  induction text with
  | nil => rfl
  | cons c text ih => exact ih

theorem steps_blanks {phase : Phase} {keep : Char → Bool}
    (blank : ∀ c rest, keep c = true → piece_at alphabet phase (c :: rest) = some (.blank [c], phase, rest))
    {text : List Char} (all : ∀ c ∈ text, keep c = true) (rest : List Char) :
    Steps alphabet phase (text ++ rest) (blanks text) phase rest := by
  induction text with
  | nil => exact .refl _ _
  | cons c text ih =>
      obtain ⟨first, all⟩ := List.forall_mem_cons.mp all
      exact .step (blank c _ first) (ih all)

/-- A run of blanks of a kind. -/
theorem leads_blanks {phase : Phase} {keep : Char → Bool}
    (blank : ∀ c rest, keep c = true → piece_at alphabet phase (c :: rest) = some (.blank [c], phase, rest))
    (pos : LexerPos) : Leads alphabet phase pos (blanks (span keep pos).1) phase (span keep pos).2 := by
  have ahead := ahead_span keep pos
  refine ⟨?_, ?_⟩
  · have whole : pos.chars = (span keep pos).1 ++ (span keep pos).2.chars := ahead.1
    rw [whole]
    exact steps_blanks blank (fun c member => List.mem_takeWhile_imp member) _
  · rw [texts_blanks]
    exact ahead

/-- Behind a run of blanks there is none. -/
theorem span_stops (keep : Char → Bool) (pos : LexerPos) : ∀ c ∈ (span keep pos).2.peek, keep c = false := by
  intro c first
  have rest : (span keep pos).2.chars = pos.chars.dropWhile keep := by
    have whole : pos.chars = (span keep pos).1 ++ (span keep pos).2.chars := (ahead_span keep pos).1
    have parts : (span keep pos).1 ++ pos.chars.dropWhile keep = pos.chars := List.takeWhile_append_dropWhile
    exact List.append_cancel_left (whole.symm.trans parts.symm)
  rw [peek, rest] at first
  obtain ⟨tail, same⟩ := List.head?_eq_some_iff.mp first
  exact Bool.eq_false_iff.mpr (by simpa [same] using List.dropWhile_get_zero_not keep pos.chars (by simp [same]))

theorem line_blank (c : Char) (rest : List Char) (space : decide (c = ' ') = true) :
    piece_at alphabet .lineStart (c :: rest) = some (.blank [c], .lineStart, rest) := by
  rw [of_decide_eq_true space]
  rfl

theorem comment_blank (c : Char) (rest : List Char) (blank : isBlank c = true) :
    piece_at alphabet .afterComment (c :: rest) = some (.blank [c], .afterComment, rest) := if_pos blank

theorem inline_blank (c : Char) (rest : List Char) (blank : isBlank c = true) :
    piece_at alphabet .inLine (c :: rest) = some (.blank [c], .inLine, rest) := if_pos blank

/-- The end of a line behind some pieces of its head. -/
theorem leads_feed {phase : Phase} {pos : LexerPos} (feed : pos.peek = some '\n')
    (here : phase ≠ .inLine) : Leads alphabet phase pos [.blank ['\n']] .lineStart pos.next := by
  obtain ⟨rest, whole⟩ := List.head?_eq_some_iff.mp feed
  refine Leads.next whole rfl ?_
  rw [whole]
  cases phase with
  | lineStart => rfl
  | afterReturn => rfl
  | afterComment => rfl
  | inLine => exact absurd rfl here

/-- What the pieces of the head of a line lead to. -/
inductive HeadLeads (alphabet : Alphabet) (pos : LexerPos) : Except LexerError LineHead → Prop where
  | error {e : LexerError} {pieces : List Piece} {phase : Phase} {text : List Char}
      (steps : Steps alphabet .lineStart pos.chars pieces phase text) (stuck : Stuck alphabet phase text) :
      HeadLeads alphabet pos (.error e)
  | ended {pos' : LexerPos} {pieces : List Piece} {phase : Phase}
      (leads : Leads alphabet .lineStart pos pieces phase pos') (silent : kinds pieces = [])
      (nothing : pos'.chars = []) : HeadLeads alphabet pos (.ok (.ended pos'))
  | blank {pos' : LexerPos} {pieces : List Piece} {phase : Phase}
      (leads : Leads alphabet .lineStart pos pieces phase pos') (silent : kinds pieces = [])
      (line : phase = .lineStart ∨ pos'.chars = []) (some_ : pieces ≠ []) : HeadLeads alphabet pos (.ok (.blank pos'))
  | trailing {pos' : LexerPos} {pieces : List Piece} {phase : Phase}
      (leads : Leads alphabet .lineStart pos pieces phase pos') (silent : kinds pieces = [])
      (on : piece_at alphabet phase pos'.chars = piece_at alphabet .inLine pos'.chars) (more : pos'.chars ≠ []) :
      HeadLeads alphabet pos (.ok (.trailing pos'))
  | content {pos' : LexerPos} {spaces : Nat} {pieces : List Piece} {phase : Phase}
      (leads : Leads alphabet .lineStart pos pieces phase pos') (silent : kinds pieces = [])
      (on : piece_at alphabet phase pos'.chars = piece_at alphabet .inLine pos'.chars) (more : pos'.chars ≠ [])
      (row : '\n' ∉ texts pieces) (narrow : spaces ≤ (texts pieces).length) :
      HeadLeads alphabet pos (.ok (.content pos' spaces))

theorem skip_return_other {pos : LexerPos} (other : pos.peek ≠ some '\r') : skip_return pos = pos := if_neg other

theorem opening_block {text : List Char} (starts : text.head? = some '/' ∧ text.tail.head? = some '*') :
    opening_piece alphabet text = block_piece .afterComment text := by
  rw [opening_piece, if_neg, if_pos starts]
  exact fun feed => absurd (starts.1.symm.trans feed) (by decide)

theorem opening_line {text : List Char} (starts : text.head? = some '/' ∧ text.tail.head? = some '/') :
    opening_piece alphabet text = some (line_piece text) := by
  rw [opening_piece, if_neg, if_neg, if_pos starts]
  · exact fun block => absurd (starts.2.symm.trans block.2) (by decide)
  · exact fun feed => absurd (starts.1.symm.trans feed) (by decide)

theorem opening_code {text : List Char} (no_feed : text.head? ≠ some '\n')
    (no_block : ¬ (text.head? = some '/' ∧ text.tail.head? = some '*'))
    (no_line : ¬ (text.head? = some '/' ∧ text.tail.head? = some '/')) :
    opening_piece alphabet text = piece_at alphabet .inLine text := by
  rw [opening_piece, if_neg no_feed, if_neg no_block, if_neg no_line]
  rfl

theorem comment_code {text : List Char} (no_blank : ∀ c ∈ text.head?, isBlank c = false)
    (no_feed : text.head? ≠ some '\n') :
    piece_at alphabet .afterComment text = piece_at alphabet .inLine text := by
  cases text with
  | nil => rfl
  | cons c rest =>
      refine (if_neg (Bool.eq_false_iff.mp (no_blank c rfl))).trans (if_neg ?_)
      rintro rfl
      exact no_feed rfl

/-- Behind the spaces and a carriage return. -/
structure Indented (alphabet : Alphabet) (pos : LexerPos) (spaces : Nat) (phase : Phase) (pos' : LexerPos)
    (pieces : List Piece) : Prop where
  leads : Leads alphabet .lineStart pos pieces phase pos'
  silent : kinds pieces = []
  row : '\n' ∉ texts pieces
  narrow : spaces ≤ (texts pieces).length
  inside : phase ≠ .inLine
  opens : pos'.peek ≠ some '\r' → piece_at alphabet phase pos'.chars = opening_piece alphabet pos'.chars
  returns : pos'.peek = some '\r' → phase = .afterReturn

theorem indented (alphabet : Alphabet) (pos : LexerPos) (no_tab : (span (· = ' ') pos).2.peek ≠ some '\t') :
    ∃ phase pieces, Indented alphabet pos (span (· = ' ') pos).1.length phase (skip_return (span (· = ' ') pos).2)
      pieces := by
  have leads : Leads alphabet .lineStart pos (blanks (span (· = ' ') pos).1) .lineStart (span (· = ' ') pos).2 :=
    leads_blanks line_blank pos
  have row : '\n' ∉ (span (· = ' ') pos).1 := fun member =>
    absurd (List.mem_takeWhile_imp member) (by decide)
  have stops : ∀ c ∈ (span (· = ' ') pos).2.peek, decide (c = ' ') = false := span_stops (· = ' ') pos
  by_cases return_ : (span (· = ' ') pos).2.peek = some '\r'
  · obtain ⟨rest, whole⟩ := List.head?_eq_some_iff.mp return_
    rw [skip_return, if_pos return_]
    refine ⟨.afterReturn, _, leads.trans (Leads.next whole (rfl : (Piece.blank ['\r']).text = _) ?_), ?_, ?_, ?_, nofun, ?_,
      fun _ => rfl⟩
    · rw [whole]
      rfl
    · rw [kinds_append, kinds_blanks]
      rfl
    · rw [texts_append, texts_blanks]
      exact fun member => (List.mem_append.mp member).elim row (by decide)
    · rw [texts_append, texts_blanks, List.length_append]
      exact Nat.le_add_right _ _
    · exact fun other => if_neg other
  · rw [skip_return, if_neg return_]
    refine ⟨.lineStart, _, leads, kinds_blanks _, ?_, ?_, nofun, fun _ => ?_, fun impossible => absurd impossible return_⟩
    · rw [texts_blanks]
      exact row
    · rw [texts_blanks]
    · have no_space : (span (· = ' ') pos).2.peek ≠ some ' ' := fun space =>
        absurd (stops ' ' space) (by decide)
      exact (if_neg no_space).trans ((if_neg no_tab).trans (if_neg return_))

/-- A line comment at the place of a piece. -/
theorem leads_line_comment {phase : Phase} {pos : LexerPos}
    (read : piece_at alphabet phase pos.chars = some (line_piece pos.chars)) :
    Leads alphabet phase pos [(line_piece pos.chars).1] .lineStart pos.skip_line_comment := by
  have ahead : Ahead pos (line_piece pos.chars).1.text pos.skip_line_comment :=
    ahead_span (fun c => decide (c ≠ '\n')) pos
  refine Leads.single ?_ ahead
  have rest : (line_piece pos.chars).2.2 = pos.skip_line_comment.chars :=
    List.append_cancel_left ((line_piece_rest pos.chars).symm.trans ahead.1)
  rw [read, ← rest]
  rfl

theorem line_comment_ends (pos : LexerPos) :
    pos.skip_line_comment.peek = some '\n' ∨ pos.skip_line_comment.peek = none := by
  cases first : pos.skip_line_comment.peek with
  | none => exact .inr rfl
  | some c =>
      have stops := span_stops (fun c => decide (c ≠ '\n')) pos c first
      exact .inl (congrArg some (not_not.mp (of_decide_eq_false stops)))

/-- A block comment at the place of a piece. -/
theorem leads_block_comment {phase phase' : Phase} {pos pos' : LexerPos}
    (starts : pos.peek = some '/' ∧ pos.peekAfter = some '*')
    (read : piece_at alphabet phase pos.chars = block_piece phase' pos.chars)
    (skipped : pos.skip_block_comment = .ok pos') :
    ∃ text, text ≠ [] ∧ Leads alphabet phase pos [.blockComment text] phase' pos' := by
  have scanned : block_comment pos = .ok ((), pos') := by
    rw [block_comment, skipped]
    rfl
  obtain ⟨text, some_, ahead, taken⟩ := read_text_of_local (local_block starts.1 starts.2) scanned
  refine ⟨text, some_, Leads.single ?_ ahead⟩
  rw [read, block_piece, taken]
  rfl

theorem stuck_block_comment {phase phase' : Phase} {pos : LexerPos} {e : LexerError}
    (starts : pos.peek = some '/' ∧ pos.peekAfter = some '*')
    (read : piece_at alphabet phase pos.chars = block_piece phase' pos.chars)
    (skipped : pos.skip_block_comment = .error e) : Stuck alphabet phase pos.chars := by
  refine ⟨fun nothing => ?_, ?_⟩
  · rw [peek, nothing] at starts
    cases starts.1
  · rw [read, block_piece]
    cases taken : read_text block_comment pos.chars with
    | none => rfl
    | some result =>
        obtain ⟨b, text, rest⟩ := result
        obtain ⟨pos', scanned, -⟩ := of_read_text pos (local_block starts.1 starts.2) taken
        rw [block_comment, skipped] at scanned
        cases scanned

/-- Behind a comment, the end of the line is passed. -/
theorem leads_line_end (alphabet : Alphabet) (phase : Phase) {pos : LexerPos} (inside : phase ≠ .inLine)
    (ends : pos.peek = some '\n' ∨ pos.peek = none) :
    ∃ pieces phase', Leads alphabet phase pos pieces phase' (skip_line_end pos) ∧ kinds pieces = [] ∧
      (phase' = .lineStart ∨ (skip_line_end pos).chars = []) := by
  rcases ends with feed | nothing
  · have passed : skip_line_end pos = pos.next := by
      rw [skip_line_end, skip_return_other (by rw [feed]; decide)]
      exact if_pos feed
    rw [passed]
    exact ⟨_, .lineStart, leads_feed feed inside, rfl, .inl rfl⟩
  · have passed : skip_line_end pos = pos := by
      rw [skip_line_end, skip_return_other (by rw [nothing]; decide)]
      exact if_neg (by rw [nothing]; decide)
    rw [passed]
    exact ⟨[], phase, .refl _ _, rfl, .inr (List.head?_eq_none_iff.mp nothing)⟩

theorem line_head_leads (alphabet : Alphabet) (pos : LexerPos) : HeadLeads alphabet pos (line_head pos) := by
  rw [line_head]
  dsimp only
  split
  · rename_i tab
    obtain ⟨rest, whole⟩ := List.head?_eq_some_iff.mp tab
    refine .error (leads_blanks line_blank pos).steps ⟨?_, ?_⟩
    · rw [whole]
      exact List.cons_ne_nil _ _
    · rw [whole]
      rfl
  · rename_i no_tab
    obtain ⟨phase, pieces, leads, silent, row, narrow, inside, opens, returns⟩ := indented alphabet pos no_tab
    generalize (span (fun c => decide (c = ' ')) pos).1.length = spaces at *
    generalize skip_return (span (fun c => decide (c = ' ')) pos).2 = pos₁ at *
    split
    · rename_i nothing
      exact .ended leads silent (List.head?_eq_none_iff.mp nothing)
    · rename_i more
      split
      · -- A block comment, with blanks and the end of the line or code behind it.
        rename_i starts
        have no_return : pos₁.peek ≠ some '\r' := by rw [starts.1]; decide
        have read : piece_at alphabet phase pos₁.chars = block_piece .afterComment pos₁.chars :=
          (opens no_return).trans (opening_block starts)
        cases skipped : pos₁.skip_block_comment with
        | error e => exact .error leads.steps (stuck_block_comment starts read skipped)
        | ok pos₂ =>
            obtain ⟨text, some_, comment⟩ := leads_block_comment starts read skipped
            have blank : Leads alphabet .afterComment pos₂ _ .afterComment pos₂.skip_whitespace_inline :=
              leads_blanks comment_blank pos₂
            have stops : ∀ c ∈ pos₂.skip_whitespace_inline.peek, isBlank c = false := span_stops isBlank pos₂
            have no_return : skip_return pos₂.skip_whitespace_inline = pos₂.skip_whitespace_inline :=
              if_neg fun return_ => absurd (stops '\r' return_) (by decide)
            have all := (leads.trans comment).trans blank
            have silent' : kinds (pieces ++ [.blockComment text] ++ blanks (span isBlank pos₂).1) = [] := by
              rw [kinds_append, kinds_append, silent, kinds_blanks]
              rfl
            show HeadLeads alphabet pos (if _ then _ else _)
            rw [no_return]
            split
            · rename_i ends
              obtain ⟨pieces', phase', line_end, silent'', line⟩ := leads_line_end alphabet .afterComment
                nofun ends
              refine .blank (all.trans line_end) ?_ line ?_
              · rw [kinds_append, silent', silent'']
                rfl
              · simp
            · rename_i code
              obtain ⟨no_feed, code⟩ := not_or.mp code
              exact .trailing all silent' (comment_code stops no_feed) fun nothing =>
                code (List.head?_eq_none_iff.mpr nothing)
      · rename_i no_block
        split
        · -- A line comment, with the end of the line.
          rename_i starts
          have no_return : pos₁.peek ≠ some '\r' := by rw [starts.1]; decide
          have comment := leads_line_comment ((opens no_return).trans (opening_line starts))
          obtain ⟨pieces', phase', line_end, silent', line⟩ := leads_line_end alphabet .lineStart nofun
            (line_comment_ends pos₁)
          refine .blank ((leads.trans comment).trans line_end) ?_ line (by simp)
          rw [kinds_append, kinds_append, silent, silent']
          rfl
        · rename_i no_line
          split
          · -- A blank line.
            rename_i ends
            by_cases return_ : pos₁.peek = some '\r'
            · obtain rfl := returns return_
              obtain ⟨rest, whole⟩ := List.head?_eq_some_iff.mp return_
              have passed : Leads alphabet .afterReturn pos₁ [.blank ['\r']] .lineStart pos₁.next := by
                refine Leads.next whole rfl ?_
                rw [whole]
                rfl
              have skipped : skip_return pos₁ = pos₁.next := if_pos return_
              rw [skip_line_end, skipped]
              split
              · rename_i feed
                refine .blank ((leads.trans passed).trans (leads_feed feed nofun)) ?_ (.inl rfl) (by simp)
                rw [kinds_append, kinds_append, silent]
                rfl
              · refine .blank (leads.trans passed) ?_ (.inl rfl) (by simp)
                rw [kinds_append, silent]
                rfl
            · have feed : pos₁.peek = some '\n' := ends.resolve_right return_
              rw [skip_line_end, skip_return_other return_, if_pos feed]
              refine .blank (leads.trans (leads_feed feed inside)) ?_ (.inl rfl) (by simp)
              rw [kinds_append, silent]
              rfl
          · rename_i code
            obtain ⟨no_feed, no_return⟩ := not_or.mp code
            exact .content leads silent ((opens no_return).trans (opening_code no_feed no_block no_line))
              (fun nothing => more (List.head?_eq_none_iff.mpr nothing)) row narrow

/-! ### A character in a line -/

/-- Lines are counted up. -/
theorem line_le {pos pos' : LexerPos} {text : List Char} (ahead : Ahead pos text pos') : pos.line ≤ pos'.line := by
  obtain ⟨chars, line, col⟩ := pos
  obtain ⟨col', moved⟩ := iterate_next_text text pos'.chars line col
  have whole : chars = text ++ pos'.chars := ahead.1
  have same : pos' = ⟨pos'.chars, line + text.count '\n', col'⟩ := by
    rw [← moved, ← whole]
    exact ahead.2
  rw [same]
  exact Nat.le_add_right _ _

theorem next_line {pos : LexerPos} (feed : pos.peek = some '\n') : pos.next.line = pos.line + 1 := by
  obtain ⟨chars, line, col⟩ := pos
  obtain ⟨rest, rfl⟩ := List.head?_eq_some_iff.mp feed
  rfl

/-- What the pieces of a line lead to from one dispatch on. -/
inductive DispatchLeads (alphabet : Alphabet) (pos : LexerPos) (mode : LexerMode) (acc : LexerAcc) :
    Except LexerError LexerState → Prop where
  | error {e : LexerError} {pieces : List Piece} {phase : Phase} {text : List Char}
      (steps : Steps alphabet .inLine pos.chars pieces phase text) (stuck : Stuck alphabet phase text) :
      DispatchLeads alphabet pos mode acc (.error e)
  | ended {pos' : LexerPos} {pieces : List Piece} (leads : Leads alphabet .inLine pos pieces .inLine pos')
      (silent : kinds pieces = []) (nothing : pos'.chars = []) :
      DispatchLeads alphabet pos mode acc (.ok (.done (advance_to_done pos' mode acc)))
  | line {pos' : LexerPos} {pieces : List Piece} (leads : Leads alphabet .inLine pos pieces .lineStart pos')
      (silent : kinds pieces = []) (some_ : texts pieces ≠ [])
      (fresh : pos.line < pos'.line ∨ pos'.peek = some '\n' ∨ pos'.peek = none) :
      DispatchLeads alphabet pos mode acc (.ok (.lineStart pos' mode true acc))
  | block {pos' : LexerPos} {pieces : List Piece} (leads : Leads alphabet .inLine pos pieces .inLine pos')
      (silent : kinds pieces = []) (some_ : texts pieces ≠ []) :
      DispatchLeads alphabet pos mode acc (.ok (.dispatch pos' mode acc))
  | newline {pos₁ : LexerPos} {pieces : List Piece} (leads : Leads alphabet .inLine pos pieces .inLine pos₁)
      (silent : kinds pieces = []) (feed : pos₁.peek = some '\n')
      (token : Leads alphabet .inLine pos₁ [.token .newline ['\n']] .lineStart pos₁.next) :
      DispatchLeads alphabet pos mode acc (.ok (.lineStart pos₁.next mode true
        ⟨acc.tokens ++ [Token.between .newline pos₁ pos₁.next], acc.indent_stack⟩))
  | token {pos₁ pos' : LexerPos} {pieces : List Piece} {kind : TokenKind} {text : List Char}
      (leads : Leads alphabet .inLine pos pieces .inLine pos₁) (silent : kinds pieces = []) (some_ : text ≠ [])
      (token : Leads alphabet .inLine pos₁ [.token kind text] .inLine pos')
      (shape : TokenText text kind ∧ textless kind = false ∧ ∀ s, kind = .int s → IntLiteral s.toList) :
      DispatchLeads alphabet pos mode acc (.ok (.lineStart pos' mode false
        ⟨acc.tokens ++ [Token.between kind pos₁ pos'], acc.indent_stack⟩))

variable (alphabet) in
/-- The piece of a character that is no blank and no line feed. -/
theorem inline_code {c : Char} (rest : List Char) (no_blank : isBlank c = false) (no_feed : c ≠ '\n') :
    piece_at alphabet .inLine (c :: rest) =
      if c = '\\' then
        if (rest.dropWhile isBlank).head? = some '\n' then
          some (.blank (c :: rest.takeWhile isBlank ++ ['\n']), .lineStart, (rest.dropWhile isBlank).tail)
        else none
      else if c = '/' ∧ rest.head? = some '*' then block_piece .inLine (c :: rest)
      else if (c = '/' ∧ rest.head? = some '/') ∨ (c = '#' ∧ rest.head? ≠ some '[') then some (line_piece (c :: rest))
      else token_piece alphabet c (c :: rest) :=
  (if_neg (Bool.eq_false_iff.mp no_blank)).trans (if_neg no_feed)

/-- A backslash that continues a line. -/
theorem leads_continuation {pos : LexerPos} {rest : List Char} (here : pos.chars = '\\' :: rest)
    (code : piece_at alphabet .inLine pos.chars =
      if (rest.dropWhile isBlank).head? = some '\n' then
        some (.blank ('\\' :: rest.takeWhile isBlank ++ ['\n']), .lineStart, (rest.dropWhile isBlank).tail)
      else none) :
    (pos.next.skip_whitespace_inline.peek = some '\n' → Leads alphabet .inLine pos
      [.blank ('\\' :: rest.takeWhile isBlank ++ ['\n'])] .lineStart pos.next.skip_whitespace_inline.next) ∧
    (pos.next.skip_whitespace_inline.peek ≠ some '\n' → Stuck alphabet .inLine pos.chars) := by
  have tail : pos.next.chars = rest := by rw [next_chars, here]; rfl
  have ahead : Ahead pos.next (rest.takeWhile isBlank) pos.next.skip_whitespace_inline := by
    rw [← tail]
    exact ahead_span isBlank pos.next
  have drop : pos.next.skip_whitespace_inline.chars = rest.dropWhile isBlank := by
    have parts : rest.takeWhile isBlank ++ rest.dropWhile isBlank = rest := List.takeWhile_append_dropWhile
    exact List.append_cancel_left (ahead.1.symm.trans (tail.trans parts.symm))
  constructor
  · intro feed
    obtain ⟨rest', behind⟩ := List.head?_eq_some_iff.mp feed
    refine Leads.single ?_ (((Ahead.next here).trans ahead).trans (Ahead.next behind))
    rw [code, ← drop, next_chars]
    exact if_pos feed
  · intro other
    refine ⟨?_, ?_⟩
    · rw [here]
      exact List.cons_ne_nil _ _
    · rw [code, ← drop]
      exact if_neg other

variable (alphabet) in
theorem dispatch_leads (pos : LexerPos) (mode : LexerMode) (acc : LexerAcc) :
    DispatchLeads alphabet pos mode acc (LexerState.transition alphabet (.dispatch pos mode acc)) := by
  have blank : Leads alphabet .inLine pos _ .inLine pos.skip_whitespace_inline := leads_blanks inline_blank pos
  have stops : ∀ c ∈ pos.skip_whitespace_inline.peek, isBlank c = false := span_stops isBlank pos
  have silent : kinds (blanks (span isBlank pos).1) = [] := kinds_blanks _
  generalize blanks (span isBlank pos).1 = pieces at *
  rw [LexerState.transition]
  generalize pos.skip_whitespace_inline = pos₁ at *
  cases first : pos₁.peek with
  | none =>
      have nothing : pos₁.chars = [] := List.head?_eq_none_iff.mp first
      have same : pos₁.next = pos₁ := by
        obtain ⟨chars, line, col⟩ := pos₁
        obtain rfl : chars = [] := nothing
        rfl
      dsimp only
      rw [same]
      exact .ended blank silent nothing
  | some c =>
      obtain ⟨rest, here⟩ := List.head?_eq_some_iff.mp first
      have behind : pos₁.peekAfter = rest.head? := by rw [peekAfter, here]; rfl
      have no_blank := stops c first
      dsimp only
      rw [dispatch_char]
      split
      · rename_i feed
        subst feed
        refine .newline blank silent first (Leads.next here rfl ?_)
        rw [here]
        rfl
      · rename_i no_feed
        have code := inline_code alphabet rest no_blank no_feed
        rw [← here] at code
        split
        · rename_i backslash
          subst backslash
          rw [if_pos rfl] at code
          have continues := leads_continuation here code
          dsimp only
          split
          · rename_i feed
            have passed := continues.1 feed
            refine .line (blank.trans passed) ?_ ?_ (.inl ?_)
            · rw [kinds_append, silent]
              rfl
            · simp [Piece.text]
            · rw [next_line feed]
              have before := line_le blank.ahead
              have on := line_le (ahead_span isBlank pos₁.next)
              have one := line_le (Ahead.next here)
              exact Nat.lt_succ_of_le ((before.trans one).trans on)
          · rename_i other
            exact .error (blank.steps.trans (.refl _ _)) (continues.2 other)
        · rename_i no_backslash
          rw [if_neg no_backslash] at code
          split
          · rename_i starts
            rw [behind] at starts
            rw [if_pos starts] at code
            have starts' : pos₁.peek = some '/' ∧ pos₁.peekAfter = some '*' := by
              rw [first, behind]
              exact ⟨congrArg some starts.1, starts.2⟩
            cases skipped : pos₁.skip_block_comment with
            | error e => exact .error (blank.steps.trans (.refl _ _)) (stuck_block_comment starts' code skipped)
            | ok pos₂ =>
                obtain ⟨text, some_, comment⟩ := leads_block_comment starts' code skipped
                refine .block (blank.trans comment) ?_ ?_
                · rw [kinds_append, silent]
                  rfl
                · rw [texts_append, texts_cons, texts_nil, List.append_nil]
                  exact List.append_ne_nil_of_right_ne_nil _ some_
          · rename_i no_block
            rw [behind] at no_block
            rw [if_neg no_block] at code
            have comment : (c = '/' ∧ rest.head? = some '/') ∨ (c = '#' ∧ rest.head? ≠ some '[') →
                DispatchLeads alphabet pos mode acc (.ok (.lineStart pos₁.skip_line_comment mode true acc)) := by
              intro starts
              rw [if_pos starts] at code
              refine .line (blank.trans (leads_line_comment code)) ?_ ?_ (.inr (line_comment_ends pos₁))
              · rw [kinds_append, silent]
                rfl
              · rw [texts_append, texts_cons, texts_nil, List.append_nil]
                exact List.append_ne_nil_of_right_ne_nil _ (line_piece_text ⟨c, rest, here, no_feed⟩).2
            split
            · rename_i starts
              exact comment (.inl (behind ▸ starts))
            · rename_i no_slashes
              split
              · rename_i starts
                exact comment (.inr (behind ▸ starts))
              · rename_i no_hash
                rw [behind] at no_slashes no_hash
                rw [if_neg (not_or.mpr ⟨no_slashes, no_hash⟩)] at code
                have local_ : Local (lex_scan_token alphabet c) ⟨pos₁.chars, 1, 1⟩ := local_token here
                cases scanned : lex_scan_token alphabet c pos₁ with
                | error e =>
                    refine .error (blank.steps.trans (.refl _ _)) ⟨?_, ?_⟩
                    · rw [here]
                      exact List.cons_ne_nil _ _
                    · rw [code, token_piece]
                      cases taken : read_text (lex_scan_token alphabet c) pos₁.chars with
                      | none => rfl
                      | some result =>
                          obtain ⟨kind, text, rest'⟩ := result
                          obtain ⟨pos', scanned', -⟩ := of_read_text pos₁ local_ taken
                          cases scanned.symm.trans scanned'
                | ok result =>
                    obtain ⟨kind, pos'⟩ := result
                    obtain ⟨text, some_, ahead, taken⟩ := read_text_of_local (local_token here) scanned
                    obtain ⟨tail, ahead', shape, -⟩ := lex_scan_token_reads alphabet here scanned
                    obtain rfl : text = c :: tail := List.append_cancel_right (ahead.1.symm.trans ahead'.1)
                    refine .token blank silent some_ (Leads.single ?_ ahead) shape
                    rw [code, token_piece, taken]
                    rfl

/-! ### Runs -/

theorem reading_congr {phase phase' : Phase} {text : List Char}
    (same : piece_at alphabet phase text = piece_at alphabet phase' text) {pieces : List Piece}
    (reading : Reading alphabet phase text pieces) : Reading alphabet phase' text pieces := by
  obtain ⟨last, steps⟩ := reading
  cases steps with
  | refl => exact ⟨phase', .refl _ _⟩
  | step first rest => exact ⟨last, .step (same ▸ first) rest⟩

/-- What a run ends with: the kinds of the pieces that are left, or an error where they cannot be read. -/
def ReadsOn (alphabet : Alphabet) (phase : Phase) (text : List Char) (before : List TokenKind) :
    Except LexerError (List Token) → Prop
  | .ok tokens => ∃ pieces, Reading alphabet phase text pieces ∧
      tokens.map Token.kind = before ++ kinds pieces ++ [.eof]
  | .error _ => ∀ pieces, ¬ Reading alphabet phase text pieces

variable {result : Except LexerError (List Token)}

/-- Silent pieces in front change nothing. -/
theorem ReadsOn.behind {phase phase' : Phase} {text text' : List Char} {front : List Piece}
    {before before' : List TokenKind}
    (steps : Steps alphabet phase text front phase' text') (found : before' = before ++ kinds front)
    (on : ReadsOn alphabet phase' text' before' result) : ReadsOn alphabet phase text before result := by
  cases result with
  | ok tokens =>
      obtain ⟨pieces, reading, same⟩ := on
      refine ⟨front ++ pieces, steps.reading reading, ?_⟩
      rw [same, found, kinds_append, List.append_assoc before]
  | error e =>
      intro pieces reading
      obtain ⟨tail, -, rest⟩ := steps.rest_reading reading
      exact on tail rest

theorem ReadsOn.congr {phase phase' : Phase} {text : List Char} {before : List TokenKind}
    (same : piece_at alphabet phase text = piece_at alphabet phase' text)
    (on : ReadsOn alphabet phase' text before result) : ReadsOn alphabet phase text before result := by
  cases result with
  | ok tokens =>
      obtain ⟨pieces, reading, found⟩ := on
      exact ⟨pieces, reading_congr same.symm reading, found⟩
  | error e => exact fun pieces reading => on pieces (reading_congr same reading)

/-- The result of a state of the machine in the production mode. -/
def StateReads (alphabet : Alphabet) (result : Except LexerError (List Token)) : Except LexerError LexerState → Prop
  | .error e => result = .error e
  | .ok (.done acc) => result = .ok acc.tokens
  | .ok (.lineStart pos _ true acc) => ReadsOn alphabet .lineStart pos.chars (acc.tokens.map Token.kind) result
  | .ok (.lineStart pos _ false acc) | .ok (.dispatch pos _ acc) =>
      ReadsOn alphabet .inLine pos.chars (acc.tokens.map Token.kind) result
  | .ok (.start _ _ _) => False

theorem advance_to_done_kinds (pos : LexerPos) (acc : LexerAcc) :
    (advance_to_done pos .production acc).tokens.map Token.kind = acc.tokens.map Token.kind ++ [.eof] := by
  rw [advance_to_done, if_neg nofun]
  exact List.map_append

/-- The loop at the start of a line. -/
theorem line_start_reads {acc : LexerAcc} {n : Nat} {pos : LexerPos}
    (enough : pos.chars.length ≤ n) (on : StateReads alphabet result (line_start_loop .production acc n pos)) :
    ReadsOn alphabet .lineStart pos.chars (acc.tokens.map Token.kind) result := by
  have silent_ : ∀ {pieces : List Piece}, kinds pieces = [] →
      acc.tokens.map Token.kind = acc.tokens.map Token.kind ++ kinds pieces := by
    intro pieces silent
    rw [silent, List.append_nil]
  have ends : ∀ {pos' : LexerPos} {phase : Phase}, pos'.chars = [] →
      ReadsOn alphabet phase pos'.chars (acc.tokens.map Token.kind)
        (.ok (advance_to_done pos' .production acc).tokens) := by
    intro pos' phase nothing
    refine ⟨[], ?_, ?_⟩
    · rw [nothing]
      exact (reading_nil phase).mpr rfl
    · rw [advance_to_done_kinds, kinds_nil, List.append_nil]
  induction n generalizing pos with
  | zero =>
      have nothing : pos.chars = [] := List.length_eq_zero_iff.mp (Nat.le_zero.mp enough)
      obtain rfl : result = _ := on
      exact ends nothing
  | succ n ih =>
      have leads := line_head_leads alphabet pos
      rw [line_start_loop] at on
      generalize line_head pos = head at *
      cases leads with
      | error steps stuck =>
          obtain rfl : result = _ := on
          exact fun pieces => steps.no_reading stuck pieces
      | ended leads silent nothing =>
          obtain rfl : result = _ := on
          exact ReadsOn.behind leads.steps (silent_ silent) (ends nothing)
      | @blank pos' pieces phase leads silent line some_ =>
          have shorter : pos'.chars.length ≤ n := by
            have whole := leads.steps.text_eq
            have more := List.length_pos_of_ne_nil (leads.steps.texts_ne some_)
            rw [whole, List.length_append] at enough
            omega
          refine ReadsOn.behind leads.steps (silent_ silent) ?_
          rcases line with rfl | nothing
          · exact ih shorter on
          · have on' := ih shorter on
            rw [nothing] at on' ⊢
            refine ReadsOn.congr ?_ on'
            rw [piece_at_nil, piece_at_nil]
      | trailing leads silent same more =>
          exact ReadsOn.behind leads.steps (silent_ silent) (ReadsOn.congr same on)
      | content leads silent same more row narrow =>
          exact ReadsOn.behind leads.steps (silent_ silent) (ReadsOn.congr same on)

/-- The states of the production mode behind the first one. -/
def InProduction : LexerState → Prop
  | .start _ _ _ => False
  | .lineStart _ mode _ _ | .dispatch _ mode _ => mode = .production
  | .done _ => True

variable {state : LexerState}

theorem line_start_production {acc : LexerAcc} {n : Nat} {pos : LexerPos}
    (moved : line_start_loop .production acc n pos = .ok state) : InProduction state := by
  induction n generalizing pos with
  | zero =>
      obtain rfl := Except.ok.inj moved
      trivial
  | succ n ih =>
      rw [line_start_loop] at moved
      cases head : line_head pos with
      | error e =>
          rw [head] at moved
          cases moved
      | ok place =>
          rw [head] at moved
          cases place with
          | ended pos' =>
              obtain rfl := Except.ok.inj moved
              trivial
          | blank pos' => exact ih moved
          | trailing pos' =>
              obtain rfl := Except.ok.inj moved
              rfl
          | content pos' spaces =>
              obtain rfl := Except.ok.inj moved
              rfl

/-- A state reads what the state behind it reads. -/
theorem transition_reads (production : InProduction state)
    (on : StateReads alphabet result (state.transition alphabet)) : StateReads alphabet result (.ok state) := by
  cases state with
  | start pos mode acc => exact production.elim
  | done acc => exact on
  | lineStart pos mode at_line_start acc =>
      obtain rfl : mode = .production := production
      cases at_line_start with
      | true => exact line_start_reads le_rfl on
      | false => exact on
  | dispatch pos mode acc =>
      obtain rfl : mode = .production := production
      have leads := dispatch_leads alphabet pos .production acc
      generalize LexerState.transition alphabet (.dispatch pos .production acc) = moved at *
      have silent_ : ∀ {pieces : List Piece}, kinds pieces = [] →
          acc.tokens.map Token.kind = acc.tokens.map Token.kind ++ kinds pieces := by
        intro pieces silent
        rw [silent, List.append_nil]
      cases leads with
      | error steps stuck =>
          obtain rfl : result = _ := on
          exact fun pieces => steps.no_reading stuck pieces
      | @ended pos' pieces leads silent nothing =>
          obtain rfl : result = _ := on
          have ends : ReadsOn alphabet .inLine pos'.chars (acc.tokens.map Token.kind)
              (.ok (advance_to_done pos' .production acc).tokens) := by
            refine ⟨[], ?_, ?_⟩
            · rw [nothing]
              exact (reading_nil _).mpr rfl
            · rw [advance_to_done_kinds, kinds_nil, List.append_nil]
          exact ReadsOn.behind leads.steps (silent_ silent) ends
      | line leads silent some_ fresh => exact ReadsOn.behind leads.steps (silent_ silent) on
      | block leads silent some_ => exact ReadsOn.behind leads.steps (silent_ silent) on
      | newline leads silent feed token =>
          refine ReadsOn.behind (leads.trans token).steps ?_ on
          rw [kinds_append, silent]
          exact List.map_append
      | token leads silent some_ token shape =>
          refine ReadsOn.behind (leads.trans token).steps ?_ on
          rw [kinds_append, silent]
          exact List.map_append

theorem transition_production {state' : LexerState} (production : InProduction state)
    (moved : state.transition alphabet = .ok state') : InProduction state' := by
  cases state with
  | start pos mode acc => exact production.elim
  | done acc =>
      obtain rfl := Except.ok.inj moved
      trivial
  | lineStart pos mode at_line_start acc =>
      obtain rfl : mode = .production := production
      cases at_line_start with
      | true => exact line_start_production moved
      | false =>
          obtain rfl := Except.ok.inj moved
          rfl
  | dispatch pos mode acc =>
      obtain rfl : mode = .production := production
      have leads := dispatch_leads alphabet pos .production acc
      rw [moved] at leads
      cases leads with
      | ended => trivial
      | line => rfl
      | block => rfl
      | newline => rfl
      | token => rfl

/-- A run of the machine in the production mode. -/
theorem run_reads {n : Nat} (production : InProduction state) (runs : run alphabet n state = some result) :
    StateReads alphabet result (.ok state) := by
  induction n generalizing state with
  | zero => cases runs
  | succ n ih =>
      refine transition_reads production ?_
      rw [run] at runs
      cases moved : state.transition alphabet with
      | error e =>
          rw [moved] at runs
          exact (Option.some.inj runs).symm
      | ok state' =>
          rw [moved] at runs
          have production' := transition_production production moved
          cases state' with
          | done acc => exact (Option.some.inj runs).symm
          | start pos mode acc => exact production'.elim
          | lineStart pos mode at_line_start acc => exact ih production' runs
          | dispatch pos mode acc => exact ih production' runs

/-- The head of a source is passed first. -/
theorem skip_head_leads (source : List Char) :
    Ahead (LexerPos.new source) (texts (head_pieces source).1) (LexerState.skip_head (LexerPos.new source)) ∧
      (LexerState.skip_head (LexerPos.new source)).chars = (head_pieces source).2 ∧
      kinds (head_pieces source).1 = [] := by
  have mark : ∃ pieces pos, (if source.head? = some '\uFEFF' then ([Piece.blank ['\uFEFF']], source.tail)
        else ([], source)) = (pieces, pos.chars) ∧
      (if (LexerPos.new source).peek = some '\uFEFF' then (LexerPos.new source).next else LexerPos.new source) = pos ∧
      Ahead (LexerPos.new source) (texts pieces) pos ∧ kinds pieces = [] := by
    by_cases first : source.head? = some '\uFEFF'
    · obtain ⟨rest, rfl⟩ := List.head?_eq_some_iff.mp first
      exact ⟨[.blank ['\uFEFF']], (LexerPos.new ('\uFEFF' :: rest)).next, rfl, if_pos rfl, Ahead.next rfl, rfl⟩
    · exact ⟨[], LexerPos.new source, if_neg first, if_neg first, Ahead.refl _, rfl⟩
  obtain ⟨pieces, pos, split_, moved, ahead, silent⟩ := mark
  rw [LexerState.skip_head, head_pieces, split_, moved]
  dsimp only
  by_cases shebang : pos.chars.head? = some '#' ∧ pos.chars.tail.head? = some '!'
  · have shebang' : pos.peek = some '#' ∧ pos.peekAfter = some '!' := shebang
    rw [if_pos shebang, if_pos shebang']
    have comment : Ahead pos (line_piece pos.chars).1.text pos.skip_line_comment :=
      ahead_span (fun c => decide (c ≠ '\n')) pos
    refine ⟨?_, ?_, ?_⟩
    · rw [texts_append]
      refine ahead.trans ?_
      rw [texts_cons, texts_nil, List.append_nil]
      exact comment
    · exact List.append_cancel_left (comment.1.symm.trans (line_piece_rest pos.chars))
    · rw [kinds_append, silent]
      rfl
  · have shebang' : ¬ (pos.peek = some '#' ∧ pos.peekAfter = some '!') := shebang
    rw [if_neg shebang, if_neg shebang']
    exact ⟨ahead, rfl, silent⟩

/-- In the production mode the lexer accepts what can be read, and the tokens are the ones of the pieces. -/
theorem tokenize_reads {fuel : Nat} {source : List Char}
    (runs : flow_tokenize alphabet fuel source .production = some result) :
    match result with
    | .ok tokens => ∃ pieces, SourceReading alphabet source pieces ∧ tokens.map Token.kind = kinds pieces ++ [.eof]
    | .error _ => ∀ pieces, ¬ SourceReading alphabet source pieces := by
  obtain ⟨ahead, behind, silent⟩ := skip_head_leads source
  cases fuel with
  | zero => cases runs
  | succ fuel =>
      have on := run_reads (show InProduction (.lineStart _ .production true .new) from rfl) runs
      have on : ReadsOn alphabet .lineStart (LexerState.skip_head (.new source)).chars [] result := on
      rw [behind] at on
      cases result with
      | ok tokens =>
          obtain ⟨pieces, reading, same⟩ := on
          refine ⟨_, ⟨pieces, rfl, reading⟩, ?_⟩
          rw [same, kinds_append, silent]
      | error e =>
          rintro _ ⟨tail, rfl, reading⟩
          exact on tail reading

theorem SourceReading.unique {source : List Char} {pieces pieces' : List Piece}
    (first : SourceReading alphabet source pieces) (second : SourceReading alphabet source pieces') :
    pieces = pieces' := by
  obtain ⟨tail, rfl, reading⟩ := first
  obtain ⟨tail', rfl, reading'⟩ := second
  rw [reading.unique reading']

/-- The texts of the pieces make up the source. -/
theorem SourceReading.texts_eq {source : List Char} {pieces : List Piece}
    (reading : SourceReading alphabet source pieces) : source = texts pieces := by
  obtain ⟨tail, rfl, last, steps⟩ := reading
  obtain ⟨ahead, behind, -⟩ := skip_head_leads source
  have whole : source = texts (head_pieces source).1 ++ (head_pieces source).2 := behind ▸ ahead.1
  have rest := steps.text_eq
  rw [List.append_nil] at rest
  rw [texts_append, ← rest]
  exact whole

end Pieces

end Mimi.Lexer
