/-
Module: Mimi.Lib.Text
Purpose: The pieces of a text: its bytes, its lines, the two sides of its first or last separator, and the
  text that ends each of a list of lines by a line feed.
Trusted boundary: documented behaviour of the string functions of a standard library
-/
import Mathlib

namespace Mimi.Lib

/-- The bytes of a text in UTF-8. -/
def utf8Bytes (s : String) : List UInt8 := s.toList.flatMap String.utf8EncodeChar

/-- Cut a text after each `stop`. -/
def splitInclusive (stop : Char) : List Char → List (List Char)
  | [] => []
  | c :: text =>
      if c = stop then [c] :: splitInclusive stop text
      else
        match splitInclusive stop text with
        | [] => [[c]]
        | piece :: pieces => (c :: piece) :: pieces

/-- A line without the `\n` or `\r\n` that ends it. -/
def withoutEnding (line : List Char) : List Char :=
  if line.getLast? = some '\n' then
    if line.dropLast.getLast? = some '\r' then line.dropLast.dropLast else line.dropLast
  else line

/-- `str::lines`. -/
def lines (text : String) : List String :=
  (splitInclusive '\n' text.toList).map fun line => String.ofList (withoutEnding line)

/-- `str::split_once`, at the first `c`. -/
def split_once (c : Char) (s : String) : Option (String × String) :=
  match s.toList.dropWhile (· ≠ c) with
  | [] => none
  | _ :: rest => some (String.ofList (s.toList.takeWhile (· ≠ c)), String.ofList rest)

/-- The characters before and behind the last place where a pattern occurs. -/
def rsplitList (pat : List Char) : List Char → Option (List Char × List Char)
  | [] => if pat = [] then some ([], []) else none
  | c :: text =>
      match rsplitList pat text with
      | some (before, after) => some (c :: before, after)
      | none => if pat <+: c :: text then some ([], (c :: text).drop pat.length) else none

/-- `str::rsplit_once`. -/
def rsplit_once (pat s : String) : Option (String × String) :=
  (rsplitList pat.toList s.toList).map (Prod.map String.ofList String.ofList)

/-- `str::split`. -/
def split (c : Char) (s : String) : List String := (s.toList.splitOn c).map String.ofList

/-- `join` on a slice of texts. -/
def join (c : Char) (pieces : List String) : String :=
  String.ofList ([c].intercalate (pieces.map String.toList))

/-- Lines, each ended by a line feed. -/
def unlines (rows : List String) : String :=
  String.ofList (rows.flatMap fun row => row.toList ++ ['\n'])

/-! ### Bytes -/

theorem fromUTF8?_eq_some {bytes : List UInt8} {s : String} :
    String.fromUTF8? ⟨bytes.toArray⟩ = some s ↔ bytes = utf8Bytes s := by
  have encoded : s.toUTF8 = ⟨(utf8Bytes s).toArray⟩ :=
    String.utf8Encode_toList.symm.trans (ByteArray.ext List.data_toByteArray)
  constructor
  · intro decoded
    rw [String.fromUTF8?] at decoded
    split at decoded
    · obtain rfl := Option.some.inj decoded
      exact congrArg (fun bytes : ByteArray => bytes.data.toList) encoded
    · cases decoded
  · rintro rfl
    rw [← encoded, String.fromUTF8?, dif_pos (show s.toUTF8.IsValidUTF8 from s.isValidUTF8)]
    rfl

theorem utf8Bytes_injective : Function.Injective utf8Bytes := by
  intro s t same
  exact Option.some.inj ((fromUTF8?_eq_some.mpr rfl).symm.trans (fromUTF8?_eq_some.mpr same))

/-! ### Lines -/

theorem splitInclusive_line {stop : Char} {line : List Char} (inside : stop ∉ line)
    (text : List Char) : splitInclusive stop (line ++ stop :: text) =
      (line ++ [stop]) :: splitInclusive stop text := by
  induction line with
  | nil => rw [List.nil_append, splitInclusive, if_pos rfl, List.nil_append]
  | cons c line ih =>
      obtain ⟨other, inside⟩ := not_or.mp (List.mem_cons.not.mp inside)
      rw [List.cons_append, splitInclusive, if_neg (Ne.symm other), ih inside]
      rfl

theorem withoutEnding_line {line : List Char} (last : line.getLast? ≠ some '\r') :
    withoutEnding (line ++ ['\n']) = line := by
  rw [withoutEnding, List.getLast?_concat, if_pos rfl, List.dropLast_concat, if_neg last]

/-- Lines without line feeds that end in no carriage return are read back. -/
theorem lines_unlines {rows : List String}
    (plain : ∀ row ∈ rows, '\n' ∉ row.toList ∧ row.toList.getLast? ≠ some '\r') :
    lines (unlines rows) = rows := by
  rw [lines, unlines, String.toList_ofList]
  induction rows with
  | nil => rfl
  | cons row rows ih =>
      obtain ⟨inside, last⟩ := plain row List.mem_cons_self
      rw [List.flatMap_cons, List.append_assoc, List.singleton_append, splitInclusive_line inside,
        List.map_cons, withoutEnding_line last, String.ofList_toList,
        ih fun row' member => plain row' (List.mem_cons_of_mem _ member)]

/-! ### Separators -/

/-- The first part holds no separator, and the whole is put together from the parts. -/
theorem split_once_eq_some {c : Char} {s before after : String} :
    split_once c s = some (before, after) ↔
      c ∉ before.toList ∧ s = before ++ String.singleton c ++ after := by
  constructor
  · intro splits
    rw [split_once] at splits
    cases tail : s.toList.dropWhile (· ≠ c) with
    | nil => rw [tail] at splits; cases splits
    | cons d rest =>
        rw [tail] at splits
        obtain ⟨rfl, rfl⟩ := Prod.mk.inj (Option.some.inj splits)
        obtain rfl : d = c := by
          have stops := List.head?_dropWhile_not (· ≠ c) s.toList
          rw [tail] at stops
          simpa using stops
        refine ⟨?_, String.toList_inj.mp ?_⟩
        · rw [String.toList_ofList]
          intro inside
          simpa using List.mem_takeWhile_imp inside
        · have whole := List.takeWhile_append_dropWhile (p := (· ≠ d)) (l := s.toList)
          rw [tail] at whole
          simp only [String.toList_append, String.toList_ofList, String.toList_singleton,
            List.append_assoc, List.singleton_append]
          exact whole.symm
  · rintro ⟨inside, rfl⟩
    have stays : ∀ d ∈ before.toList, decide (d ≠ c) = true := fun d member =>
      decide_eq_true fun same => inside (same ▸ member)
    simp only [split_once, String.toList_append, String.toList_singleton, List.append_assoc,
      List.singleton_append]
    rw [List.dropWhile_append_of_pos stays, List.takeWhile_append_of_pos stays]
    simp

theorem rsplitList_append {pat text before after : List Char} (splits : rsplitList pat text = some (before, after)) :
    text = before ++ (pat ++ after) := by
  induction text generalizing before with
  | nil =>
      rw [rsplitList] at splits
      split_ifs at splits with empty
      cases splits
      rw [empty]
      rfl
  | cons c text ih =>
      rw [rsplitList] at splits
      split at splits
      · rename_i before' after' later
        cases splits
        rw [ih later, List.cons_append]
      · split_ifs at splits with here
        cases splits
        obtain ⟨rest, whole⟩ := here
        rw [← whole, List.drop_left, List.nil_append]

theorem rsplit_once_append {pat s before after : String} (splits : rsplit_once pat s = some (before, after)) :
    s = before ++ (pat ++ after) := by
  obtain ⟨⟨front, back⟩, found, same⟩ := Option.map_eq_some_iff.mp splits
  obtain ⟨rfl, rfl⟩ := Prod.mk.inj same
  rw [← String.toList_inj, rsplitList_append found]
  simp

theorem rsplitList_none {c : Char} {pat text : List Char} (absent : c ∉ text) : rsplitList (c :: pat) text = none := by
  induction text with
  | nil => rfl
  | cons d text ih =>
      obtain ⟨other, absent⟩ := not_or.mp (List.mem_cons.not.mp absent)
      rw [rsplitList, ih absent, if_neg fun starts => other (List.cons_prefix_cons.mp starts).1]

/-- An occurrence behind which the first character of the pattern is not found is the last one. -/
theorem rsplitList_last {c : Char} {pat after : List Char} (absent : c ∉ pat ++ after) (before : List Char) :
    rsplitList (c :: pat) (before ++ (c :: pat ++ after)) = some (before, after) := by
  induction before with
  | nil =>
      rw [List.nil_append, List.cons_append, rsplitList, rsplitList_none absent]
      rw [if_pos (List.cons_prefix_cons.mpr ⟨rfl, List.prefix_append pat after⟩), List.length_cons, List.drop_succ_cons,
        List.drop_left]
  | cons d before ih => rw [List.cons_append, rsplitList, ih]

theorem rsplit_once_last {c : Char} {pat after : String} (absent : c ∉ pat.toList ++ after.toList) (before : String) :
    rsplit_once (String.singleton c ++ pat) (before ++ (String.singleton c ++ pat ++ after)) = some (before, after) := by
  have last := rsplitList_last absent before.toList
  simp only [rsplit_once, String.toList_append, String.toList_singleton, List.cons_append, List.nil_append] at last ⊢
  rw [last]
  simp

theorem split_join {c : Char} {pieces : List String} (some_ : pieces ≠ [])
    (plain : ∀ piece ∈ pieces, c ∉ piece.toList) : split c (join c pieces) = pieces := by
  rw [split, join, String.toList_ofList, List.splitOn_intercalate]
  · rw [List.map_map]
    exact (List.map_congr_left fun piece _ => String.ofList_toList).trans (List.map_id _)
  · intro l member
    obtain ⟨piece, among, rfl⟩ := List.mem_map.mp member
    exact plain piece among
  · exact fun none => some_ (List.map_eq_nil_iff.mp none)

theorem join_split (c : Char) (s : String) : join c (split c s) = s := by
  rw [split, join, List.map_map]
  have same : (s.toList.splitOn c).map (String.toList ∘ String.ofList) = s.toList.splitOn c :=
    (List.map_congr_left fun piece _ => String.toList_ofList).trans (List.map_id _)
  rw [same, List.intercalate_splitOn, String.ofList_toList]

/-- A letter of a joined text is the separator or comes from one of the texts. -/
theorem mem_join {c d : Char} {pieces : List String} (member : d ∈ (join c pieces).toList) :
    d = c ∨ ∃ piece ∈ pieces, d ∈ piece.toList := by
  rw [join, String.toList_ofList] at member
  induction pieces with
  | nil => cases member
  | cons piece pieces ih =>
      cases pieces with
      | nil =>
          rw [List.map_cons, List.map_nil, List.intercalate_singleton] at member
          exact .inr ⟨piece, List.mem_cons_self, member⟩
      | cons next pieces =>
          rw [List.map_cons, List.map_cons, List.intercalate_cons_cons, List.mem_append,
            List.mem_append, List.mem_singleton] at member
          rcases member with (first | separator) | later
          · exact .inr ⟨piece, List.mem_cons_self, first⟩
          · exact .inl separator
          · rcases ih later with separator | inside
            · exact .inl separator
            · obtain ⟨piece', among, inside⟩ := inside
              exact .inr ⟨piece', List.mem_cons_of_mem _ among, inside⟩

end Mimi.Lib
