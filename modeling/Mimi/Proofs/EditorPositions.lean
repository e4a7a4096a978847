/-
Module: Mimi.Proofs.EditorPositions
Purpose: The conversions between bytes, UTF-16 units and characters agree on every text no line of which ends
  in a carriage return of its own.  The trimmed line has lost such a carriage return, and a place behind it
  comes back as a place in front of it.
Trusted boundary: none
-/
import Mimi.Lsp.PositionMap
import Mimi.Lexer.Pos

namespace Mimi.Lsp

open Mimi.Lib
open Mimi.Lexer (LexerPos)

/-- A line of a text: the text in front of it, the line up to its line feed, and the text from there on. -/
structure Line (source : List Char) (line : Nat) (before row rest : List Char) : Prop where
  whole : source = before ++ row ++ rest
  number : before.count '\n' = line
  starts : before = [] ∨ ∃ text, before = text ++ ['\n']
  single : '\n' ∉ row
  ends : rest = [] ∨ ∃ text, rest = '\n' :: text

/-- What a line holds in front of the `\n` or `\r\n` that ends it.  The last line is not ended. -/
def content (row rest : List Char) : List Char :=
  if rest ≠ [] ∧ row.getLast? = some '\r' then row.dropLast else row

def IsLineText (source : List Char) (line : Nat) (text : List Char) : Prop :=
  ∃ before row rest, Line source line before row rest ∧ text = content row rest

/-- The place between the two characters of a `\r\n`. -/
def InsideTerminator (before after : List Char) : Prop :=
  before.getLast? = some '\r' ∧ after.head? = some '\n'

/-! ### The table of lines -/

theorem len_utf8_pos (c : Char) : 0 < len_utf8 c := c.utf8Size_pos

theorem len_utf16_pos (c : Char) : 0 < len_utf16 c := by
  rw [len_utf16]
  split <;> decide

theorem len_append (before after : List Char) : len (before ++ after) = len before + len after :=
  extent_append before after

theorem prefix_trim_end_matches (c : Char) (text : List Char) : trim_end_matches c text <+: text :=
  List.rdropWhile_prefix _ _

theorem line_feed_not_mem_utf8 {c : Char} (other : c ≠ '\n') : (10 : UInt8) ∉ String.utf8EncodeChar c := by
  have value : c.val.toNat ≠ 10 := fun same => other (Char.ext (UInt32.toNat_inj.mp same))
  have wide : c.val.toNat < 0x110000 := by
    have valid := c.valid
    simp only [UInt32.isValidChar, Nat.isValidChar] at valid
    omega
  have byte : ∀ n, (10 : UInt8) = UInt8.ofNat n ↔ 10 = n % 256 := fun n => by
    rw [← UInt8.toNat_inj, UInt8.toNat_ofNat']
    rfl
  unfold String.utf8EncodeChar
  intro inside
  dsimp only at inside
  split_ifs at inside <;>
    simp only [List.mem_cons, List.not_mem_nil, or_false, byte] at inside <;> omega

theorem length_bytes (text : List Char) : (bytes text).length = len text := by
  induction text with
  | nil => rfl
  | cons c text ih =>
      rw [bytes, List.flatMap_cons, List.length_append, String.length_utf8EncodeChar]
      exact congrArg (c.utf8Size + ·) ih

theorem startsAfter_append (offset : Nat) (before after : List Char) :
    startsAfter offset (bytes (before ++ after)) =
      startsAfter offset (bytes before) ++ startsAfter (offset + len before) (bytes after) := by
  rw [startsAfter, bytes, List.flatMap_append, List.zipIdx_append, List.filterMap_append]
  congr 3
  exact congrArg (offset + ·) (length_bytes before)

theorem startsAfter_single {row : List Char} (single : '\n' ∉ row) (offset : Nat) :
    startsAfter offset (bytes row) = [] := by
  refine List.filterMap_eq_nil_iff.mpr fun (byte, place) member => if_neg ?_
  rintro rfl
  obtain ⟨c, inside, encoded⟩ := List.mem_flatMap.mp (List.fst_mem_of_mem_zipIdx member)
  exact line_feed_not_mem_utf8 (ne_of_mem_of_not_mem inside single) encoded

theorem startsAfter_feed (offset : Nat) (text : List Char) :
    startsAfter offset (bytes ('\n' :: text)) = (offset + 1) :: startsAfter (offset + 1) (bytes text) :=
  startsAfter_append offset ['\n'] text

/-- The starts behind the line feeds of a text, in order. -/
theorem startsAfter_le (offset : Nat) (text : List Char) :
    ∀ start ∈ startsAfter offset (bytes text), offset < start ∧ start ≤ offset + len text := by
  intro start member
  obtain ⟨⟨byte, place⟩, inside, found⟩ := List.mem_filterMap.mp member
  have bound := List.snd_lt_of_mem_zipIdx inside
  have low := List.le_snd_of_mem_zipIdx inside
  rw [length_bytes] at bound
  dsimp only at found bound low
  split at found
  · cases found
    omega
  · cases found

theorem length_startsAfter (offset : Nat) (text : List Char) :
    (startsAfter offset (bytes text)).length = text.count '\n' := by
  induction text generalizing offset with
  | nil => rfl
  | cons c text ih =>
      by_cases feed : c = '\n'
      · subst feed
        rw [startsAfter_feed, List.length_cons, ih, List.count_cons_self]
      · rw [List.count_cons_of_ne feed, ← List.singleton_append, startsAfter_append,
          startsAfter_single (by simpa using Ne.symm feed), List.nil_append, ih]

theorem line_count_new (source : List Char) : (PositionMap.new source).line_count = source.count '\n' + 1 :=
  congrArg (· + 1) (length_startsAfter 0 source)

namespace Line

variable {source before row rest : List Char} {line : Nat}

/-- The starts of the lines up to this one, and of the lines behind it. -/
theorem table (at_ : Line source line before row rest) : (PositionMap.new source).line_starts =
    (0 :: startsAfter 0 (bytes before)) ++ startsAfter (len (before ++ row)) (bytes rest) := by
  rw [at_.whole, PositionMap.new, startsAfter_append, startsAfter_append, startsAfter_single at_.single,
    List.append_nil, Nat.zero_add]
  rfl

theorem length_front (at_ : Line source line before row rest) :
    (0 :: startsAfter 0 (bytes before)).length = line + 1 := by
  rw [List.length_cons, length_startsAfter, at_.number]

/-- The last start up to this line is its own. -/
theorem getLast_front (at_ : Line source line before row rest) :
    (0 :: startsAfter 0 (bytes before)).getLast? = some (len before) := by
  rcases at_.starts with rfl | ⟨text, rfl⟩
  · rfl
  · rw [startsAfter_append, Nat.zero_add]
    show ((0 :: startsAfter 0 (bytes text)) ++ [len text + 1]).getLast? = _
    rw [List.getLast?_concat, len, len, extent_append]
    rfl

theorem start (at_ : Line source line before row rest) :
    (PositionMap.new source).line_starts[line]? = some (len before) := by
  have last := at_.getLast_front
  rw [List.getLast?_eq_getElem?, at_.length_front] at last
  rw [at_.table, List.getElem?_append_left (at_.length_front ▸ Nat.lt_succ_self line)]
  exact last

theorem stop (at_ : Line source line before row rest) :
    (PositionMap.new source).line_end line = len (before ++ row ++ rest.take 1) := by
  rw [PositionMap.line_end, at_.table, List.getElem?_append_right at_.length_front.le, at_.length_front,
    Nat.sub_self]
  rcases at_.ends with rfl | ⟨text, rfl⟩
  · rw [List.take_nil, ← at_.whole]
    rfl
  · rw [startsAfter_feed, List.getElem?_cons_zero, Option.getD_some, len, len, extent_append _ (List.take _ _)]
    rfl

theorem line_of (at_ : Line source line before row rest) {byte_offset : Nat} (from_ : len before ≤ byte_offset)
    (to_ : rest = [] ∨ byte_offset ≤ len (before ++ row)) :
    (PositionMap.new source).line_of byte_offset = line := by
  have front : ∀ start ∈ 0 :: startsAfter 0 (bytes before), decide (start ≤ byte_offset) = true := by
    intro start member
    refine decide_eq_true ?_
    rcases List.mem_cons.mp member with rfl | member
    · exact Nat.zero_le _
    · exact ((startsAfter_le 0 before start member).2.trans (Nat.zero_add _).le).trans from_
  have back : (startsAfter (len (before ++ row)) (bytes rest)).takeWhile (· ≤ byte_offset) = [] := by
    rcases at_.ends with rfl | ⟨text, rfl⟩
    · rfl
    · have reached : byte_offset ≤ len (before ++ row) := to_.resolve_left (List.cons_ne_nil _ _)
      rw [startsAfter_feed]
      exact List.takeWhile_cons_of_neg (by simpa using Nat.lt_succ_of_le reached)
  rw [PositionMap.line_of, at_.table, List.takeWhile_append_of_pos front, back, List.append_nil,
    at_.length_front]
  rfl

theorem trimmed (at_ : Line source line before row rest) :
    (PositionMap.new source).trimmed (len before) ((PositionMap.new source).line_end line) =
      some (trim_end_matches '\r' row) := by
  have whole : source = before ++ (row ++ rest.take 1) ++ rest.drop 1 := by
    rw [at_.whole]
    simp only [List.append_assoc, List.take_append_drop]
  have bounds : len before ≤ len source ∧ len (before ++ (row ++ rest.take 1)) ≤ len source :=
    ⟨extent_mono ⟨_, (List.append_assoc _ _ _ ▸ at_.whole).symm⟩, extent_mono ⟨_, whole.symm⟩⟩
  have feed : trim_end_matches '\n' (row ++ rest.take 1) = row := by
    have kept : trim_end_matches '\n' row = row := List.rdropWhile_eq_self_iff.mpr fun some_ last =>
      at_.single (of_decide_eq_true last ▸ List.getLast_mem some_)
    rcases at_.ends with rfl | ⟨text, rfl⟩
    · rw [List.take_nil, List.append_nil, kept]
    · exact (List.rdropWhile_concat_pos _ _ _ rfl).trans kept
  rw [PositionMap.trimmed, at_.stop, List.append_assoc]
  show Option.map _ (Lib.slice _ source (min _ (len source)) (min _ (len source))) = _
  rw [Nat.min_eq_left bounds.1, Nat.min_eq_left bounds.2]
  conv_lhs => rw [whole]
  rw [len, len, slice_extent len_utf8_pos, Option.map_some, feed]

theorem lsp_to_byte (at_ : Line source line before row rest) (character : Nat) :
    (PositionMap.new source).lsp_to_byte line character =
      some (len before + utf16_to_byte (trim_end_matches '\r' row) character) := by
  rw [PositionMap.lsp_to_byte, at_.start, Option.getD_some, at_.trimmed]
  rfl

theorem byte_to_lsp (at_ : Line source line before row rest) {byte_offset : Nat}
    (here : (PositionMap.new source).line_of byte_offset = line) :
    (PositionMap.new source).byte_to_lsp byte_offset = some (line, byte_to_utf16 (trim_end_matches '\r' row)
      (min (byte_offset - len before) (len (trim_end_matches '\r' row)))) := by
  rw [PositionMap.byte_to_lsp, here]
  dsimp only
  rw [at_.start]
  dsimp only [Option.bind_eq_bind, Option.bind_some]
  rw [at_.trimmed]
  rfl

theorem line_text (at_ : Line source line before row rest) :
    (PositionMap.new source).line_text line = some (trim_end_matches '\r' row) := by
  rw [PositionMap.line_text, at_.start, Option.getD_some, at_.trimmed]

end Line

/-! ### Every place is on a line -/

/-- A cut of the text cuts a line. -/
theorem exists_line (front back : List Char) : ∃ before left right rest,
    Line (front ++ back) (front.count '\n') before (left ++ right) rest ∧ front = before ++ left ∧
      back = right ++ rest := by
  have left_ : '\n' ∉ front.rtakeWhile (· ≠ '\n') := fun inside => by
    simpa using List.mem_rtakeWhile_imp inside
  have right_ : '\n' ∉ back.takeWhile (· ≠ '\n') := fun inside => by
    simpa using List.mem_takeWhile_imp inside
  have front_ := List.rdropWhile_append_rtakeWhile (p := (· ≠ '\n')) (l := front)
  have back_ := List.takeWhile_append_dropWhile (p := (· ≠ '\n')) (l := back)
  refine ⟨front.rdropWhile (· ≠ '\n'), front.rtakeWhile (· ≠ '\n'), back.takeWhile (· ≠ '\n'),
    back.dropWhile (· ≠ '\n'), ?_, front_.symm, back_.symm⟩
  refine ⟨?_, ?_, ?_, ?_, ?_⟩
  · rw [← List.append_assoc, front_, List.append_assoc, back_]
  · conv_rhs => rw [← front_]
    rw [List.count_append, List.count_eq_zero.mpr left_, Nat.add_zero]
  · rcases List.eq_nil_or_concat (front.rdropWhile (· ≠ '\n')) with nil | ⟨text, last, split_⟩
    · exact .inl nil
    · refine .inr ⟨text, ?_⟩
      have stops := List.rdropWhile_last_not (· ≠ '\n') front (by rw [split_]; simp)
      simp only [split_] at stops
      rw [split_]
      simpa using stops
  · exact fun inside => (List.mem_append.mp inside).elim left_ right_
  · cases tail : back.dropWhile (· ≠ '\n') with
    | nil => exact .inl rfl
    | cons c text =>
        have stops := List.head?_dropWhile_not (· ≠ '\n') back
        rw [tail] at stops
        refine .inr ⟨text, ?_⟩
        simpa using stops

theorem exists_cut {source : List Char} {line : Nat} (below : line ≤ source.count '\n') :
    ∃ front back, source = front ++ back ∧ front.count '\n' = line := by
  induction source generalizing line with
  | nil => exact ⟨[], [], rfl, (Nat.le_zero.mp below).symm⟩
  | cons c text ih =>
      cases line with
      | zero => exact ⟨[], c :: text, rfl, rfl⟩
      | succ line =>
          by_cases feed : c = '\n'
          · subst feed
            rw [List.count_cons_self] at below
            obtain ⟨front, back, rfl, number⟩ := ih (Nat.le_of_succ_le_succ below)
            exact ⟨'\n' :: front, back, rfl, by rw [List.count_cons_self, number]⟩
          · rw [List.count_cons_of_ne feed] at below
            obtain ⟨front, back, rfl, number⟩ := ih below
            exact ⟨c :: front, back, rfl, by rw [List.count_cons_of_ne feed, number]⟩

theorem exists_numbered {source : List Char} {line : Nat}
    (below : line < (PositionMap.new source).line_count) :
    ∃ before row rest, Line source line before row rest := by
  rw [line_count_new] at below
  obtain ⟨front, back, rfl, rfl⟩ := exists_cut (Nat.le_of_lt_succ below)
  obtain ⟨before, left, right, rest, at_, -, -⟩ := exists_line front back
  exact ⟨before, left ++ right, rest, at_⟩

/-- The line of an offset is a line of the text. -/
theorem exists_line_of (source : List Char) (byte_offset : Nat) : ∃ before row rest,
    Line source ((PositionMap.new source).line_of byte_offset) before row rest := by
  refine exists_numbered ?_
  have some_ : 0 < (PositionMap.new source).line_starts.length := Nat.succ_pos _
  have fewer := (List.takeWhile_prefix (· ≤ byte_offset)
    (l := (PositionMap.new source).line_starts)).length_le
  rw [PositionMap.line_of, PositionMap.line_count]
  omega

/-- The offset behind a cut of the text is on the line that the cut is on. -/
theorem line_of_cut {before left right rest : List Char} {line : Nat}
    (at_ : Line (before ++ left ++ (right ++ rest)) line before (left ++ right) rest) :
    (PositionMap.new (before ++ left ++ (right ++ rest))).line_of (len (before ++ left)) = line :=
  at_.line_of (extent_mono ⟨left, rfl⟩)
    (.inr (extent_mono ⟨right, List.append_assoc _ _ _⟩))

/-! ### Places of the lexer -/

/-- Lines and columns of the lexer count from one. -/
theorem lexer_position {source before left right rest : List Char} {line : Nat}
    (at_ : Line source line before (left ++ right) rest) :
    LexerPos.next^[(before ++ left).length] (LexerPos.new source) = ⟨right ++ rest, line + 1, left.length + 1⟩ := by
  have single : '\n' ∉ left := fun inside => at_.single (List.mem_append_left _ inside)
  have front : LexerPos.next^[before.length] (LexerPos.new source) = ⟨left ++ (right ++ rest), line + 1, 1⟩ := by
    rw [LexerPos.new, at_.whole, List.append_assoc, List.append_assoc]
    rcases at_.starts with rfl | ⟨text, rfl⟩
    · rw [← at_.number]
      rfl
    · obtain ⟨col', moved⟩ := LexerPos.iterate_next_text text ('\n' :: (left ++ (right ++ rest))) 1 1
      rw [List.length_append, Nat.add_comm, Function.iterate_add_apply, List.append_assoc,
        List.singleton_append, moved, ← at_.number, List.count_append, Nat.add_comm 1]
      rfl
  rw [List.length_append, Nat.add_comm, Function.iterate_add_apply, front, LexerPos.iterate_next_row single,
    Nat.add_comm 1]

/-- A place on the line, clamped to the trimmed line, counted in characters and found in bytes. -/
theorem char_to_utf16_of_prefix {left row text : List Char} (front : left <+: row) (kept : text <+: row) :
    char_to_utf16 text left.length = byte_to_utf16 text (min (len left) (len text)) := by
  rcases List.prefix_or_prefix_of_prefix front kept with ⟨more, rfl⟩ | shorter
  · have shorter : len left ≤ len (left ++ more) := extent_mono ⟨more, rfl⟩
    rw [char_to_utf16, List.take_left, Nat.min_eq_left shorter]
    exact (convert_extent len_utf8_pos left more).symm
  · have whole : convert _ len_utf16 _ (text ++ []) 0 0 = _ := convert_extent len_utf8_pos text []
    rw [List.append_nil] at whole
    have narrower : len text ≤ len left := extent_mono shorter
    rw [char_to_utf16, List.take_of_length_le shorter.length_le, Nat.min_eq_right narrower]
    exact whole.symm

/-- A place of the lexer and the byte offset of its character are one position of the editor. -/
theorem byte_to_lsp_cut (front back : List Char) :
    ∃ text, (PositionMap.new (front ++ back)).line_text
        ((LexerPos.next^[front.length] (LexerPos.new (front ++ back))).line - 1) = some text ∧
      (PositionMap.new (front ++ back)).byte_to_lsp (len front) =
        some ((LexerPos.next^[front.length] (LexerPos.new (front ++ back))).line - 1, char_to_utf16 text
          ((LexerPos.next^[front.length] (LexerPos.new (front ++ back))).col - 1)) := by
  obtain ⟨before, left, right, rest, at_, rfl, rfl⟩ := exists_line front back
  rw [lexer_position at_]
  refine ⟨_, at_.line_text, ?_⟩
  rw [at_.byte_to_lsp (line_of_cut at_), Nat.add_sub_cancel, Nat.add_sub_cancel,
    char_to_utf16_of_prefix (List.prefix_append left right) (prefix_trim_end_matches '\r' _), len_append,
    Nat.add_sub_cancel_left]

theorem span_to_lsp_cuts {source front back front' back' : List Char} (whole : source = front ++ back)
    (whole' : source = front' ++ back') :
    (PositionMap.new source).span_to_lsp
        (LexerPos.next^[front.length] (LexerPos.new source)).line
        (LexerPos.next^[front.length] (LexerPos.new source)).col
        (LexerPos.next^[front'.length] (LexerPos.new source)).line
        (LexerPos.next^[front'.length] (LexerPos.new source)).col =
      ((PositionMap.new source).byte_to_lsp (len front)).bind fun start =>
        ((PositionMap.new source).byte_to_lsp (len front')).map fun stop => (start, stop) := by
  obtain ⟨text, at_, byte⟩ := byte_to_lsp_cut front back
  obtain ⟨text', at_', byte'⟩ := byte_to_lsp_cut front' back'
  rw [← whole] at at_ byte
  rw [← whole'] at at_' byte'
  rw [byte, byte', PositionMap.span_to_lsp]
  dsimp only [Option.bind_eq_bind]
  rw [at_, at_']
  rfl

/-! ### No call panics -/

theorem byte_to_lsp_isSome (source : List Char) (byte_offset : Nat) :
    ((PositionMap.new source).byte_to_lsp byte_offset).isSome := by
  obtain ⟨before, row, rest, at_⟩ := exists_line_of source byte_offset
  rw [at_.byte_to_lsp rfl]
  rfl

/-- Behind the last line stands the end of the text. -/
theorem beyond {source : List Char} {line : Nat} (past : (PositionMap.new source).line_count ≤ line) :
    (PositionMap.new source).line_starts[line]? = none ∧ (PositionMap.new source).line_end line = len source := by
  refine ⟨List.getElem?_eq_none past, ?_⟩
  rw [PositionMap.line_end, List.getElem?_eq_none (past.trans (Nat.le_succ line))]
  rfl

theorem trimmed_to_end_isSome {source front back : List Char} (whole : source = front ++ back) :
    ((PositionMap.new source).trimmed (len front) (len source)).isSome := by
  have cut := slice_extent len_utf8_pos front back []
  have narrower : len front ≤ len source := extent_mono ⟨back, whole.symm⟩
  rw [List.append_nil, ← whole] at cut
  rw [PositionMap.trimmed]
  show (Option.map _ (Lib.slice _ source (min _ (len source)) (min _ (len source)))).isSome
  rw [Nat.min_eq_left narrower, Nat.min_self, len, len, cut]
  rfl

theorem lsp_to_byte_isSome (source : List Char) (line character : Nat) :
    ((PositionMap.new source).lsp_to_byte line character).isSome := by
  rcases Nat.lt_or_ge line (PositionMap.new source).line_count with below | past
  · obtain ⟨before, row, rest, at_⟩ := exists_numbered below
    rw [at_.lsp_to_byte]
    rfl
  · obtain ⟨text, found⟩ := Option.isSome_iff_exists.mp
      (trimmed_to_end_isSome (List.append_nil source).symm)
    rw [PositionMap.lsp_to_byte, (beyond past).1, (beyond past).2]
    dsimp only [Option.bind_eq_bind]
    rw [Option.getD_none]
    show (Option.bind ((PositionMap.new source).trimmed (len source) (len source)) _).isSome
    rw [found]
    rfl

theorem line_text_isSome (source : List Char) (line : Nat) :
    ((PositionMap.new source).line_text line).isSome := by
  rcases Nat.lt_or_ge line (PositionMap.new source).line_count with below | past
  · obtain ⟨before, row, rest, at_⟩ := exists_numbered below
    rw [at_.line_text]
    rfl
  · rw [PositionMap.line_text, (beyond past).1, (beyond past).2]
    exact trimmed_to_end_isSome (List.nil_append source).symm

theorem span_to_lsp_isSome (source : List Char) (start_line start_col end_line end_col : Nat) :
    ((PositionMap.new source).span_to_lsp start_line start_col end_line end_col).isSome := by
  obtain ⟨sl_text, start⟩ := Option.isSome_iff_exists.mp (line_text_isSome source (start_line - 1))
  obtain ⟨el_text, stop⟩ := Option.isSome_iff_exists.mp (line_text_isSome source (end_line - 1))
  rw [PositionMap.span_to_lsp]
  dsimp only [Option.bind_eq_bind]
  rw [start, stop]
  rfl

/-! ### Order -/

theorem line_of_mono (map : PositionMap) {byte_offset byte_offset' : Nat} (le : byte_offset ≤ byte_offset') :
    map.line_of byte_offset ≤ map.line_of byte_offset' := by
  refine Nat.sub_le_sub_right ?_ 1
  induction map.line_starts with
  | nil => exact le_rfl
  | cons start starts ih =>
      by_cases reached : start ≤ byte_offset
      · rw [List.takeWhile_cons, List.takeWhile_cons, if_pos (decide_eq_true reached),
          if_pos (decide_eq_true (reached.trans le))]
        exact Nat.succ_le_succ ih
      · rw [List.takeWhile_cons, if_neg fun before => reached (of_decide_eq_true before)]
        exact Nat.zero_le _

theorem byte_to_lsp_mono {source : List Char} {byte_offset byte_offset' : Nat} (le : byte_offset ≤ byte_offset')
    {place place' : Nat × Nat} (found : (PositionMap.new source).byte_to_lsp byte_offset = some place)
    (found' : (PositionMap.new source).byte_to_lsp byte_offset' = some place') :
    toLex place ≤ toLex place' := by
  obtain ⟨before, row, rest, at_⟩ := exists_line_of source byte_offset
  obtain ⟨before', row', rest', at_'⟩ := exists_line_of source byte_offset'
  obtain rfl := Option.some.inj ((at_.byte_to_lsp rfl).symm.trans found)
  refine Prod.Lex.toLex_le_toLex.mpr ?_
  rcases (line_of_mono (PositionMap.new source) le).lt_or_eq with less | same
  · obtain rfl := Option.some.inj ((at_'.byte_to_lsp rfl).symm.trans found')
    exact .inl less
  · obtain rfl := Option.some.inj ((at_.byte_to_lsp same.symm).symm.trans found')
    exact .inr ⟨rfl, convert_mono (min_le_min_right _ (Nat.sub_le_sub_right le _)) _⟩

/-! ### There and back -/

theorem prefix_content (row rest : List Char) : content row rest <+: row := by
  rw [content]
  split
  · exact List.dropLast_prefix row
  · exact List.prefix_rfl

/-- A line whose own text ends in no carriage return is trimmed to that text. -/
theorem trim_eq_content {row rest : List Char} (last : (content row rest).getLast? ≠ some '\r') :
    trim_end_matches '\r' row = content row rest := by
  have stays : ∀ text : List Char, text.getLast? ≠ some '\r' → trim_end_matches '\r' text = text :=
    fun text last => List.rdropWhile_eq_self_iff.mpr fun some_ stops => last (by
      rw [List.getLast?_eq_getLast_of_ne_nil some_, of_decide_eq_true stops])
  rw [content] at last ⊢
  split at last
  · rename_i ended
    rw [if_pos ended]
    obtain ⟨text, rfl⟩ := List.getLast?_eq_some_iff.mp ended.2
    rw [List.dropLast_concat] at last ⊢
    exact (List.rdropWhile_concat_pos _ _ _ rfl).trans (stays text last)
  · rename_i open_
    rw [if_neg open_, stays row last]

/-- A line whose own text ends in a carriage return is trimmed to less. -/
theorem trim_shorter {row rest : List Char} (last : (content row rest).getLast? = some '\r') :
    len (trim_end_matches '\r' row) < len (content row rest) := by
  have drops : ∀ text : List Char, len (trim_end_matches '\r' (text ++ ['\r'])) < len (text ++ ['\r']) := by
    intro text
    have narrower : len (trim_end_matches '\r' text) ≤ len text := extent_mono (prefix_trim_end_matches _ _)
    have dropped : trim_end_matches '\r' (text ++ ['\r']) = trim_end_matches '\r' text :=
      List.rdropWhile_concat_pos _ _ _ rfl
    rw [dropped, len_append]
    exact Nat.lt_add_one_of_le narrower
  obtain ⟨text, text_eq⟩ := List.getLast?_eq_some_iff.mp last
  rw [text_eq]
  rw [content] at text_eq
  split at text_eq
  · rename_i ended
    obtain ⟨text', rfl⟩ := List.getLast?_eq_some_iff.mp ended.2
    rw [List.dropLast_concat] at text_eq
    subst text_eq
    have again : trim_end_matches '\r' (text ++ ['\r'] ++ ['\r']) = trim_end_matches '\r' (text ++ ['\r']) :=
      List.rdropWhile_concat_pos _ _ _ rfl
    rw [again]
    exact drops text
  · subst text_eq
    exact drops text

/-- The conversions on the text of a line that is not trimmed further. -/
theorem Line.there_and_back {source before row rest : List Char} {line : Nat}
    (at_ : Line source line before row rest) (last : (content row rest).getLast? ≠ some '\r')
    {left right : List Char} (cut : content row rest = left ++ right) :
    (PositionMap.new source).byte_to_lsp (len (before ++ left)) = some (line, extent len_utf16 left) ∧
      (PositionMap.new source).lsp_to_byte line (extent len_utf16 left) = some (len (before ++ left)) := by
  have front : left <+: content row rest := ⟨right, cut.symm⟩
  have here : (PositionMap.new source).line_of (len (before ++ left)) = line :=
    at_.line_of (extent_mono ⟨left, rfl⟩)
      (.inr (extent_mono ((List.prefix_append_right_inj before).mpr (front.trans (prefix_content row rest)))))
  have narrower : len left ≤ len (left ++ right) := extent_mono ⟨right, rfl⟩
  refine ⟨?_, ?_⟩
  · rw [at_.byte_to_lsp here, trim_eq_content last, cut, len_append, Nat.add_sub_cancel_left,
      Nat.min_eq_left narrower]
    exact congrArg (fun units => some (line, units)) (convert_extent len_utf8_pos left right)
  · rw [at_.lsp_to_byte, trim_eq_content last, cut, len_append]
    exact congrArg (fun units => some (len before + units)) (convert_extent len_utf16_pos left right)

/-- A place outside the line endings is a place in the text of a line. -/
theorem exists_content_cut {front back : List Char} (outside : ¬ InsideTerminator front back) :
    ∃ before row rest left right, Line (front ++ back) (front.count '\n') before row rest ∧
      front = before ++ left ∧ content row rest = left ++ right := by
  obtain ⟨before, left, right, rest, at_, rfl, rfl⟩ := exists_line front back
  refine ⟨before, left ++ right, rest, left, ?_⟩
  by_cases ended : rest ≠ [] ∧ (left ++ right).getLast? = some '\r'
  · rcases List.eq_nil_or_concat' right with rfl | ⟨right, last, rfl⟩
    · obtain ⟨text, rfl⟩ := at_.ends.resolve_left ended.1
      rw [List.append_nil] at ended
      refine absurd ⟨?_, rfl⟩ outside
      rw [List.getLast?_append, ended.2]
      rfl
    · refine ⟨right, at_, rfl, ?_⟩
      rw [content, if_pos ended, ← List.append_assoc, List.dropLast_concat]
  · exact ⟨right, at_, rfl, if_neg ended⟩

/-- A text on which the conversions are as the editor needs them. -/
structure EditorPositionsAgree (source : List Char) : Prop where
  /-- Offsets between two characters that are not the middle of a line ending come back. -/
  bytes_return : ∀ before after, source = before ++ after → ¬ InsideTerminator before after →
    (((PositionMap.new source).byte_to_lsp (len before)).bind fun place =>
      (PositionMap.new source).lsp_to_byte place.1 place.2) = some (len before)
  /-- Positions between two characters of a line come back. -/
  places_return : ∀ line before after, IsLineText source line (before ++ after) →
    ((PositionMap.new source).lsp_to_byte line (extent len_utf16 before)).bind
      (PositionMap.new source).byte_to_lsp = some (line, extent len_utf16 before)
  ordered : ∀ byte_offset byte_offset', byte_offset ≤ byte_offset' → ∀ place place',
    (PositionMap.new source).byte_to_lsp byte_offset = some place →
      (PositionMap.new source).byte_to_lsp byte_offset' = some place' → toLex place ≤ toLex place'
  bytes_known : ∀ byte_offset, ((PositionMap.new source).byte_to_lsp byte_offset).isSome
  places_known : ∀ line character, ((PositionMap.new source).lsp_to_byte line character).isSome
  spans_known : ∀ start_line start_col end_line end_col,
    ((PositionMap.new source).span_to_lsp start_line start_col end_line end_col).isSome
  /-- The places that the lexer reports are the positions of their characters. -/
  spans_agree : ∀ front back front' back', source = front ++ back → source = front' ++ back' →
    (PositionMap.new source).span_to_lsp
        (LexerPos.next^[front.length] (LexerPos.new source)).line
        (LexerPos.next^[front.length] (LexerPos.new source)).col
        (LexerPos.next^[front'.length] (LexerPos.new source)).line
        (LexerPos.next^[front'.length] (LexerPos.new source)).col =
      ((PositionMap.new source).byte_to_lsp (len front)).bind fun start =>
        ((PositionMap.new source).byte_to_lsp (len front')).map fun stop => (start, stop)

/-- Positions convert both ways in the texts whose lines end in no carriage return of their own. -/
theorem editor_positions_agree_iff (source : List Char) : EditorPositionsAgree source ↔
    ∀ line text, IsLineText source line text → text.getLast? ≠ some '\r' := by
  constructor
  · rintro agree line text ⟨before, row, rest, at_, rfl⟩ last
    obtain ⟨more, row_eq⟩ := prefix_content row rest
    have shorter := trim_shorter last
    have here : (PositionMap.new source).line_of (len (before ++ content row rest)) = line :=
      at_.line_of (extent_mono ⟨_, rfl⟩)
        (.inr (extent_mono ((List.prefix_append_right_inj before).mpr (prefix_content row rest))))
    have outside : ¬ InsideTerminator (before ++ content row rest) (more ++ rest) := by
      rintro ⟨-, feed⟩
      rw [content] at last row_eq
      split at last
      · rename_i ended
        rw [if_pos ended] at row_eq
        obtain ⟨text, rfl⟩ := List.getLast?_eq_some_iff.mp ended.2
        rw [List.dropLast_concat] at row_eq
        rw [List.append_cancel_left row_eq] at feed
        cases feed
      · rename_i open_
        rw [if_neg open_] at row_eq
        obtain rfl : more = [] := List.append_right_eq_self.mp row_eq
        refine open_ ⟨?_, last⟩
        rintro rfl
        cases feed
    have returned := agree.bytes_return (before ++ content row rest) (more ++ rest)
      (by rw [at_.whole, List.append_assoc, List.append_assoc, ← List.append_assoc _ more, row_eq]) outside
    rw [at_.byte_to_lsp here, Option.bind_some, at_.lsp_to_byte, len_append] at returned
    have reached : utf16_to_byte (trim_end_matches '\r' row) _ = len (content row rest) :=
      Nat.add_left_cancel (Option.some.inj returned)
    exact absurd (reached.ge.trans (convert_le _ _)) shorter.not_ge
  · intro plain
    refine ⟨?_, ?_, fun _ _ le _ _ => byte_to_lsp_mono le, byte_to_lsp_isSome source,
      lsp_to_byte_isSome source, span_to_lsp_isSome source, fun _ _ _ _ => span_to_lsp_cuts⟩
    · rintro before after rfl outside
      obtain ⟨front, row, rest, left, right, at_, rfl, cut⟩ := exists_content_cut outside
      obtain ⟨to_, from_⟩ := at_.there_and_back (plain _ _ ⟨_, _, _, at_, rfl⟩) cut
      rw [to_, Option.bind_some, from_]
    · rintro line before after ⟨front, row, rest, at_, cut⟩
      obtain ⟨to_, from_⟩ := at_.there_and_back (plain _ _ ⟨_, _, _, at_, rfl⟩) cut.symm
      rw [from_, Option.bind_some, to_]

/-- The end of a text that ends in a carriage return comes back as the place in front of it. -/
theorem carriage_return_lost : ¬ EditorPositionsAgree ['a', '\r'] := fun agree =>
  absurd (agree.bytes_return ['a', '\r'] [] rfl (by rintro ⟨-, feed⟩; cases feed)) (by decide)

end Mimi.Lsp
