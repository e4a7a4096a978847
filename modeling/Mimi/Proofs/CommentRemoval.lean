/-
Module: Mimi.Proofs.CommentRemoval
Purpose: What comments say to the parser: the tokens of a source from which a line comment is deleted, and of one in
  which a block comment is replaced by a space.
Trusted boundary: none
-/
import Mimi.Proofs.LexerOutput

namespace Mimi.Lexer

open Mimi.Lib Scanner LexerPos

/-- A text that starts with a comment, and one that may stand in its place. -/
structure Exchange (rest rest' : List Char) : Prop where
  opens : rest.head? = some '/' ∨ rest.head? = some '#'
  bare : ∀ c ∈ rest'.head?, c = ' ' ∨ c = '\n'

variable {alphabet : Alphabet} {rest rest' front tail after : List Char} {c : Char} {piece : Piece}
  {phase phase' : Phase}

namespace Exchange

theorem quiet (exchange : Exchange rest rest') : (∀ c ∈ rest.head?, Quiet c) ∧ ∀ c ∈ rest'.head?, Quiet c := by
  refine ⟨fun c first => ?_, fun c first => (exchange.bare c first).imp id .inl⟩
  rcases exchange.opens with opens | opens
  · cases opens.symm.trans first
    exact .inr (.inr (.inl rfl))
  · cases opens.symm.trans first
    exact .inr (.inr (.inr rfl))

/-- The first character behind some text is the same, or one of those that stand here and there. -/
theorem heads (exchange : Exchange rest rest') (tail : List Char) {d : Char} (other : ¬Quiet d) :
    (tail ++ rest).head? = some d ↔ (tail ++ rest').head? = some d := by
  cases tail with
  | cons => exact Iff.rfl
  | nil =>
      exact iff_of_false (fun first => other (exchange.quiet.1 d first)) fun first => other (exchange.quiet.2 d first)

theorem slash (exchange : Exchange rest rest') (tail : List Char) :
    (tail ++ rest').head? = some '/' → (tail ++ rest).head? = some '/' := by
  cases tail with
  | nil => exact fun first => absurd (exchange.bare '/' first) (by decide)
  | cons => exact id

end Exchange

/-! ### A piece in front of the place -/

theorem one_again {one : Piece} (read : some (one, phase, tail ++ rest) = some (piece, phase', after ++ rest)) :
    some (one, phase, tail ++ rest') = some (piece, phase', after ++ rest') := by
  obtain ⟨rfl, same⟩ := Prod.mk.inj (Option.some.inj read)
  obtain ⟨rfl, behind⟩ := Prod.mk.inj same
  obtain rfl : tail = after := List.append_cancel_right behind
  rfl

theorem ite_again {p : Prop} [Decidable p] {β : Type} {x x' y y' : Option β} {b b' : β}
    (yes : p → x = some b → x' = some b') (no : ¬p → y = some b → y' = some b')
    (read : (if p then x else y) = some b) : (if p then x' else y') = some b' := by
  split_ifs at read ⊢ with h
  · exact yes h read
  · exact no h read

/-- A token or a block comment. -/
theorem scanned_again (exchange : Exchange rest rest') (front : List Char) {β : Type} {m : Scan β} (make : β → List Char → Piece)
    (makes : ∀ b taken, (make b taken).text = taken) (local_ : Local m ⟨front ++ rest, 1, 1⟩)
    (whole : front = piece.text ++ after)
    (read : (read_text m (front ++ rest)).map (fun (b, taken, rest) => (make b taken, phase, rest)) =
      some (piece, phase', after ++ rest)) :
    (read_text m (front ++ rest')).map (fun (b, taken, rest) => (make b taken, phase, rest)) =
      some (piece, phase', after ++ rest') := by
  obtain ⟨⟨b, taken, behind⟩, found, same⟩ := Option.map_eq_some_iff.mp read
  dsimp only at same
  obtain ⟨rfl, same'⟩ := Prod.mk.inj same
  obtain ⟨rfl, rfl⟩ := Prod.mk.inj same'
  rw [makes] at whole
  obtain ⟨pos', scanned, ahead, -, -⟩ := of_read_text ⟨front ++ rest, 1, 1⟩ local_ found
  obtain ⟨text, -, ahead', again⟩ := local_ b pos' scanned
  obtain rfl : text = taken := List.append_cancel_right (ahead'.1.symm.trans ahead.1)
  have left : pos'.chars = after ++ rest := by
    have all : front ++ rest = text ++ pos'.chars := ahead.1
    rw [whole, List.append_assoc] at all
    exact (List.append_cancel_left all).symm
  have alike : Alike Quiet rest rest' := .ends exchange.quiet.1 exchange.quiet.2
  have here : front ++ rest' = text ++ (after ++ rest') := by rw [whole, List.append_assoc]
  have read' := again ⟨front ++ rest', 1, 1⟩ (after ++ rest') here (left ▸ alike.append after)
  have stops : (LexerPos.next^[text.length] ⟨front ++ rest', 1, 1⟩).chars = after ++ rest' :=
    Ahead.rest_eq (p := (⟨front ++ rest', 1, 1⟩ : LexerPos)) here
  rw [read_text, read']
  dsimp only
  rw [stops, here, List.length_append, Nat.add_sub_cancel, List.take_left]
  rfl

/-- A line comment ends in front of the other comment. -/
theorem line_again (exchange : Exchange rest rest') (front : List Char) (whole : front = piece.text ++ after)
    (read : line_piece (front ++ rest) = (piece, phase, after ++ rest)) :
    '\n' ∈ front ∧ line_piece (front ++ rest') = (piece, phase, after ++ rest') := by
  obtain ⟨rfl, same⟩ := Prod.mk.inj read
  obtain ⟨rfl, behind⟩ := Prod.mk.inj same
  have ends := List.head?_dropWhile_not (fun c => decide (c ≠ '\n')) (front ++ rest)
  have plain : ∀ c ∈ (front ++ rest).takeWhile fun c => decide (c ≠ '\n'), decide (c ≠ '\n') = true :=
    fun c member => @List.mem_takeWhile_imp _ (fun c => decide (c ≠ '\n')) _ c member
  rw [Piece.text] at whole
  generalize (front ++ rest).takeWhile (fun c => decide (c ≠ '\n')) = text at whole plain ⊢
  rw [behind] at ends
  cases after with
  | nil => rcases exchange.opens with opens | opens <;> simp [opens] at ends
  | cons d after =>
      obtain rfl : d = '\n' := by simpa using ends
      subst whole
      refine ⟨by simp, ?_⟩
      rw [line_piece, List.append_assoc, List.takeWhile_append_of_pos plain, List.dropWhile_append_of_pos plain]
      simp

theorem block_again (exchange : Exchange rest rest') (starts : c = '/' ∧ (tail ++ rest).head? = some '*')
    (whole : c :: tail = piece.text ++ after)
    (read : block_piece phase (c :: (tail ++ rest)) = some (piece, phase', after ++ rest)) :
    block_piece phase (c :: (tail ++ rest')) = some (piece, phase', after ++ rest') := by
  have local_ : Local block_comment ⟨c :: tail ++ rest, 1, 1⟩ := local_block (congrArg some starts.1) starts.2
  exact scanned_again exchange (c :: tail) (fun _ => .blockComment) (fun _ _ => rfl) local_ whole read

theorem inline_again (exchange : Exchange rest rest') (whole : c :: tail = piece.text ++ after)
    (read : inline_piece alphabet (c :: (tail ++ rest)) = some (piece, phase, after ++ rest)) :
    inline_piece alphabet (c :: (tail ++ rest')) = some (piece, phase, after ++ rest') := by
  have star := exchange.heads tail (d := '*') (by unfold Quiet; decide)
  have bracket := exchange.heads tail (d := '[') (by unfold Quiet; decide)
  rw [inline_piece] at read ⊢
  simp only [ne_eq, ← star, ← bracket] at read ⊢
  refine ite_again (fun _ => one_again) (fun _ => ite_again (fun _ => one_again) fun no_feed =>
    ite_again (fun _ read => ?_) fun _ => ite_again (fun starts => ?_) fun _ read => ?_) read
  · split at read
    · rename_i feed
      obtain ⟨after', behind⟩ := List.head?_eq_some_iff.mp feed
      obtain ⟨rfl, same⟩ := Prod.mk.inj (Option.some.inj read)
      obtain ⟨rfl, rest_eq⟩ := Prod.mk.inj same
      have plain : ∀ c ∈ (tail ++ rest).takeWhile isBlank, isBlank c = true :=
        fun c member => List.mem_takeWhile_imp member
      have ends : tail = (tail ++ rest).takeWhile isBlank ++ '\n' :: after := by
        simpa [Piece.text] using whole
      generalize (tail ++ rest).takeWhile isBlank = blanks at ends plain ⊢
      subst ends
      simp [List.takeWhile_append_of_pos plain, List.dropWhile_append_of_pos plain, isBlank]
    · cases read
  · exact block_again exchange starts whole
  have slash := exchange.slash tail
  split at read
  · rename_i line
    obtain ⟨inside, again⟩ := line_again exchange (c :: tail) whole (Option.some.inj read)
    cases tail with
    | nil => exact absurd (List.mem_singleton.mp inside).symm no_feed
    | cons => exact (if_pos line).trans (congrArg some again)
  · rename_i line
    rw [if_neg]
    · have local_ : Local (lex_scan_token alphabet c) ⟨c :: tail ++ rest, 1, 1⟩ := local_token rfl
      exact scanned_again exchange (c :: tail) .token (fun _ _ => rfl) local_ whole read
    · exact fun line' => line (line'.imp_left (And.imp_right slash))

theorem opening_again (exchange : Exchange rest rest') (whole : c :: tail = piece.text ++ after)
    (read : opening_piece alphabet (c :: (tail ++ rest)) = some (piece, phase, after ++ rest)) :
    opening_piece alphabet (c :: (tail ++ rest')) = some (piece, phase, after ++ rest') := by
  have star := exchange.heads tail (d := '*') (by unfold Quiet; decide)
  rw [opening_piece] at read ⊢
  simp only [List.head?_cons, List.tail_cons, Option.some.injEq, ← star] at read ⊢
  refine ite_again (fun _ => one_again) (fun no_feed => ite_again (fun starts => block_again exchange starts whole)
    fun _ read => ?_) read
  split at read
  · rename_i line
    obtain ⟨inside, again⟩ := line_again exchange (c :: tail) whole (Option.some.inj read)
    cases tail with
    | nil => exact absurd (List.mem_singleton.mp inside).symm no_feed
    | cons => exact (if_pos line).trans (congrArg some again)
  · rename_i line
    rw [if_neg fun line' => line (line'.imp_right (exchange.slash tail))]
    exact inline_again exchange whole read

/-- A piece in front of a comment is the same piece in front of what stands in place of the comment. -/
theorem piece_at_again (exchange : Exchange rest rest')
    (read : piece_at alphabet phase (piece.text ++ after ++ rest) = some (piece, phase', after ++ rest)) :
    piece_at alphabet phase (piece.text ++ after ++ rest') = some (piece, phase', after ++ rest') := by
  obtain ⟨c, tail, whole⟩ : ∃ c tail, c :: tail = piece.text ++ after := by
    obtain ⟨c, tail, some_⟩ := List.exists_cons_of_ne_nil (piece_at_text read).2
    exact ⟨c, tail ++ after, by rw [some_, List.cons_append]⟩
  rw [← whole, List.cons_append] at read ⊢
  have inline := @inline_again alphabet rest rest' tail after c piece phase' exchange whole
  have opening := @opening_again alphabet rest rest' tail after c piece phase' exchange whole
  cases phase with
  | lineStart =>
      refine ite_again (fun _ => one_again) (fun _ => ite_again (fun _ read => ?_) fun _ =>
        ite_again (fun _ => one_again) fun _ => opening) read
      cases read
  | afterReturn => exact ite_again (fun _ => one_again) (fun _ => opening) read
  | afterComment => exact ite_again (fun _ => one_again) (fun _ => ite_again (fun _ => one_again) fun _ => inline) read
  | inLine => exact inline read

theorem Steps.again {pieces : List Piece} {text : List Char} (exchange : Exchange rest rest')
    (steps : Steps alphabet phase text pieces phase' rest) :
    Steps alphabet phase (texts pieces ++ rest') pieces phase' rest' := by
  induction steps with
  | refl => exact .refl _ _
  | @step phase phase₁ phase' text text₁ _ piece pieces first more ih =>
      obtain rfl := more.text_eq
      obtain rfl := (piece_at_text first).1
      rw [← List.append_assoc] at first
      rw [texts_cons]
      exact .step (piece_at_again exchange first) (ih exchange)

/-- A piece that is a comment starts as one, and a line comment takes the rest of its line. -/
def Opened (text : List Char) (read : Piece × Phase × List Char) : Prop :=
  (∀ comment, read.1 = .lineComment comment → line_piece text = read) ∧
    ∀ comment, read.1 = .lineComment comment ∨ read.1 = .blockComment comment →
      text.head? = some '/' ∨ text.head? = some '#'

theorem opened {text : List Char} {read : Piece × Phase × List Char} (first : piece_at alphabet phase text = some read) :
    Opened text read := by
  have block (phase : Phase) (first : block_piece phase text = some read) : ∃ comment, read.1 = .blockComment comment := by
    obtain ⟨⟨_, comment, _⟩, -, rfl⟩ := Option.map_eq_some_iff.mp first
    exact ⟨comment, rfl⟩
  have token (c : Char) (first : token_piece alphabet c text = some read) : ∃ kind token, read.1 = .token kind token := by
    obtain ⟨⟨kind, token, _⟩, -, rfl⟩ := Option.map_eq_some_iff.mp first
    exact ⟨kind, token, rfl⟩
  have inline (first : inline_piece alphabet text = some read) : Opened text read := by
    cases text <;> grind [inline_piece, Opened]
  have opening (first : opening_piece alphabet text = some read) : Opened text read := by
    grind [opening_piece, Opened]
  rw [piece_at.eq_def] at first
  grind [Opened]

/-! ### Sources -/

/-- The first line of a source, behind the byte order mark, may be a shebang. -/
def shebang_pieces (text : List Char) : List Piece × List Char :=
  if text.head? = some '#' ∧ text.tail.head? = some '!' then ([(line_piece text).1], (line_piece text).2.2)
  else ([], text)

theorem head_marked (text : List Char) :
    head_pieces ('\uFEFF' :: text) = (.blank ['\uFEFF'] :: (shebang_pieces text).1, (shebang_pieces text).2) := by
  simp only [head_pieces, shebang_pieces, List.head?_cons, List.tail_cons, if_true]
  split_ifs <;> rfl

theorem head_unmarked {text : List Char} (unmarked : text.head? ≠ some '\uFEFF') :
    head_pieces text = shebang_pieces text := by
  simp only [head_pieces, shebang_pieces, if_neg unmarked]
  split_ifs <;> rfl

theorem shebang_again (exchange : Exchange rest rest') {line text : List Char} {pieces : List Piece}
    (known : shebang_pieces line = (pieces, text ++ rest)) :
    shebang_pieces (texts pieces ++ (text ++ rest')) = (pieces, text ++ rest') := by
  rw [shebang_pieces] at known
  split at known
  · rename_i shebang
    obtain ⟨_, rfl⟩ := List.head?_eq_some_iff.mp shebang.1
    obtain ⟨u, rfl⟩ := List.head?_eq_some_iff.mp shebang.2
    obtain ⟨rfl, behind⟩ := Prod.mk.inj known
    have first := line_piece_rest ('#' :: '!' :: u)
    rw [behind, ← List.append_assoc] at first
    have read : line_piece ((line_piece ('#' :: '!' :: u)).1.text ++ text ++ rest) =
        ((line_piece ('#' :: '!' :: u)).1, .lineStart, text ++ rest) := by
      rw [← first, ← behind]
      rfl
    have again := (line_again exchange _ rfl read).2
    rw [List.append_assoc] at again
    rw [texts_cons, texts_nil, List.append_nil, shebang_pieces, again]
    exact if_pos ⟨rfl, rfl⟩
  · rename_i other
    obtain ⟨rfl, rfl⟩ := Prod.mk.inj known
    refine if_neg fun shebang => ?_
    cases text with
    | nil => exact absurd (exchange.bare '#' shebang.1) (by decide)
    | cons c text => exact other ⟨shebang.1, (exchange.heads text (by unfold Quiet; decide)).mpr shebang.2⟩

/-- The head of the source stays what it is. -/
theorem head_again (exchange : Exchange rest rest') {source text : List Char} {pieces : List Piece}
    (known : head_pieces source = (pieces, text ++ rest)) :
    head_pieces (texts pieces ++ (text ++ rest')) = (pieces, text ++ rest') := by
  by_cases mark : source.head? = some '\uFEFF'
  · obtain ⟨line, rfl⟩ := List.head?_eq_some_iff.mp mark
    rw [head_marked] at known
    obtain ⟨rfl, behind⟩ := Prod.mk.inj known
    show head_pieces ('\uFEFF' :: (texts (shebang_pieces line).1 ++ (text ++ rest'))) = _
    rw [head_marked, shebang_again exchange (Prod.ext rfl behind)]
  · obtain ⟨ahead, same, -⟩ := skip_head_leads source
    have whole : source = texts (head_pieces source).1 ++ (head_pieces source).2 := same ▸ ahead.1
    rw [known, ← List.append_assoc] at whole
    have unmarked := mark
    rw [whole, exchange.heads _ (by unfold Quiet; decide), List.append_assoc] at unmarked
    rw [head_unmarked mark] at known
    rw [head_unmarked unmarked, shebang_again exchange known]

theorem SourceReading.exchange {source : List Char} {before behind : List Piece} (exchange : Exchange rest rest')
    (front : Steps alphabet .lineStart (head_pieces source).2 before phase rest)
    (reading : Reading alphabet phase rest' behind) :
    SourceReading alphabet (texts (head_pieces source).1 ++ (texts before ++ rest'))
      ((head_pieces source).1 ++ (before ++ behind)) := by
  have head : head_pieces source = ((head_pieces source).1, texts before ++ rest) := Prod.ext rfl front.text_eq
  refine ⟨before ++ behind, ?_, ?_⟩
  · rw [head_again exchange head]
  · rw [head_again exchange head]
    exact (front.again exchange).reading reading

/-- Comments in an accepted source.  When a line comment is deleted, the tokens stay the same, except for a `Newline` in
its place if the lexer has left the start of the line there and the comment does not end the source.  When a block
comment is replaced by a space where the lexer has left the start of the line, the tokens stay the same. -/
theorem comments_removed {source comment : List Char} {before : List Piece} {fuel : Nat} {tokens : List Token}
    (front : Steps alphabet .lineStart (head_pieces source).2 before phase (comment ++ rest))
    (runs : flow_tokenize alphabet fuel source .production = some (.ok tokens)) :
    ∃ behind, tokens.map Token.kind = kinds before ++ behind ∧
      (piece_at alphabet phase (comment ++ rest) = some (.lineComment comment, .lineStart, rest) →
        ∃ fuel tokens', flow_tokenize alphabet fuel (texts (head_pieces source).1 ++ (texts before ++ rest)) .production =
            some (.ok tokens') ∧
          tokens'.map Token.kind =
            kinds before ++ ((if phase = .inLine ∧ rest ≠ [] then [.newline] else []) ++ behind)) ∧
      (phase = .inLine → piece_at alphabet phase (comment ++ rest) = some (.blockComment comment, .inLine, rest) →
        ∃ fuel tokens', flow_tokenize alphabet fuel (texts (head_pieces source).1 ++ (texts before ++ ' ' :: rest))
            .production = some (.ok tokens') ∧ tokens'.map Token.kind = kinds before ++ behind) := by
  obtain ⟨_, ⟨tail, rfl, whole⟩, same⟩ := tokenize_reads runs
  obtain ⟨behind, rfl, onward⟩ := front.rest_reading whole
  have silent := (skip_head_leads source).2.2
  rw [kinds_append, silent, List.nil_append, kinds_append, List.append_assoc] at same
  have lexed {rest' : List Char} {behind' : List Piece} (exchange : Exchange (comment ++ rest) rest')
      (reading' : Reading alphabet phase rest' behind') :
      ∃ fuel tokens', flow_tokenize alphabet fuel (texts (head_pieces source).1 ++ (texts before ++ rest')) .production =
          some (.ok tokens') ∧ tokens'.map Token.kind = kinds before ++ (kinds behind' ++ [.eof]) := by
    obtain ⟨fuel, tokens', runs', same'⟩ := accepted_of_reading (SourceReading.exchange exchange front reading')
    rw [kinds_append, silent, List.nil_append, kinds_append, List.append_assoc] at same'
    exact ⟨fuel, tokens', runs', same'⟩
  refine ⟨_, same, fun here => ?_, fun inside here => ?_⟩
  · obtain ⟨next, rfl, reading⟩ := (Steps.single here).rest_reading onward
    obtain ⟨line, opens⟩ := opened here
    have ends : (comment ++ rest).dropWhile (fun c => decide (c ≠ '\n')) = rest :=
      (Prod.mk.inj (Prod.mk.inj (line comment rfl)).2).2
    have bare : ∀ c ∈ rest.head?, c = '\n' := by
      intro c first
      have stops := List.head?_dropWhile_not (fun c => decide (c ≠ '\n')) (comment ++ rest)
      rw [ends, Option.mem_def.mp first] at stops
      simpa using stops
    have exchange : Exchange (comment ++ rest) rest := ⟨opens comment (.inl rfl), fun c first => .inr (bare c first)⟩
    cases rest with
    | nil =>
        obtain rfl := (reading_nil _).mp reading
        obtain ⟨fuel, tokens', runs', same'⟩ := lexed exchange ((reading_nil phase).mpr rfl)
        exact ⟨fuel, tokens', runs', by simpa [kinds, Piece.kind, List.filterMap_cons] using same'⟩
    | cons c rest =>
        obtain rfl := bare c rfl
        have feed : piece_at alphabet .lineStart ('\n' :: rest) = some (.blank ['\n'], .lineStart, rest) := rfl
        obtain ⟨next, rfl, later⟩ := (Steps.single feed).rest_reading reading
        have feed' : piece_at alphabet phase ('\n' :: rest) =
            some (if phase = .inLine then .token .newline ['\n'] else .blank ['\n'], .lineStart, rest) := by
          cases phase <;> rfl
        obtain ⟨fuel, tokens', runs', same'⟩ := lexed exchange ((Steps.single feed').reading later)
        refine ⟨fuel, tokens', runs', same'.trans ?_⟩
        by_cases inside : phase = .inLine <;> simp [inside, kinds, Piece.kind, List.filterMap_cons]
  · subst inside
    obtain ⟨next, rfl, reading⟩ := (Steps.single here).rest_reading onward
    have exchange : Exchange (comment ++ rest) (' ' :: rest) :=
      ⟨(opened here).2 comment (.inr rfl), fun c first => .inl (Option.some.inj first).symm⟩
    have space : piece_at alphabet .inLine (' ' :: rest) = some (.blank [' '], .inLine, rest) := rfl
    obtain ⟨fuel, tokens', runs', same'⟩ := lexed exchange ((Steps.single space).reading reading)
    exact ⟨fuel, tokens', runs', same'⟩

/-- The end of a line with a comment is no `Newline`, until the comment is deleted. -/
theorem comments_removed_line : ∃ fuel tokens,
    flow_tokenize asciiAlphabet fuel "a\nb".toList .production = some (.ok tokens) ∧
      tokens.map Token.kind = [.ident "a", .newline, .ident "b", .eof] := by
  obtain ⟨tokens, runs, known⟩ := lexed asciiAlphabet 20 "a//\nb".toList .production [.ident "a", .ident "b", .eof]
    (by decide)
  have front : Steps asciiAlphabet .lineStart (head_pieces "a//\nb".toList).2 [.token (.ident "a") ['a']] .inLine
      (['/', '/'] ++ ['\n', 'b']) := .single (by decide)
  obtain ⟨behind, same, line, -⟩ := comments_removed front runs
  obtain ⟨fuel, tokens', runs', result⟩ := line rfl
  refine ⟨fuel, tokens', runs', result.trans ?_⟩
  rw [known] at same
  rw [List.append_cancel_left (same.symm : kinds _ ++ behind = [.ident "a"] ++ [.ident "b", .eof])]
  rfl

end Mimi.Lexer
