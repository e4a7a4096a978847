/-
Module: Mimi.Runtime.RegexSearch
Purpose: The searches of the regex engine that tell where a pattern matches: the first match, all
  matches in a row, and their replacement.  The first two prepare the pattern differently: the list of
  all matches is that of the pattern as it is written.
Trusted boundary: human-reviewed translation of `find_match` and `replace_all` of `RegexEngine` and of
  `mimi_regex_find_all` in `src/runtime/regex.rs`; pointers and C strings are left out
-/
import Mimi.Runtime.Regex

namespace Mimi.Runtime.Regex

/-! ### The first match -/

/-- A pattern with its counted repetitions written out and its parentheses dropped; `none` is a panic. -/
def prepare (pattern : Bytes) : Option Bytes := (expandBraces pattern).map stripCaptures

/-- The first match of a pattern in a text whose positions are counted from `start`. -/
def scanFind (pattern : Bytes) (anchored : Bool) : Nat → Bytes → Work → Option (Nat × Nat) × Work
  | start, [], work =>
      let result := matchHereWithDepth regexMaxDepth pattern [] work
      (if 0 ≤ result.1 then some (start, start + result.1.toNat) else none, result.2)
  | start, b :: text, work =>
      let result := matchHereWithDepth regexMaxDepth pattern (b :: text) work
      if 0 ≤ result.1 then (some (start, start + result.1.toNat), result.2)
      else if anchored then (none, result.2)
      else scanFind pattern anchored (start + 1) text result.2

/-- Where a prepared pattern matches first. -/
def findPrepared (text prepared : Bytes) : Option (Nat × Nat) × Work :=
  scanFind prepared (isAnchored prepared) 0 text .new

/-- `find_match`; the outer `none` is a panic. -/
def findMatch (text pattern : Bytes) : Option (Option (Nat × Nat)) :=
  (prepare pattern).map fun prepared => (findPrepared text prepared).1

/-! ### All matches -/

/-- The first start before the end of a text at which a pattern matches, with the number of bytes. -/
def scanStarts (pattern : Bytes) : Nat → Bytes → Work → Option (Nat × Nat) × Work
  | _, [], work => (none, work)
  | start, b :: text, work =>
      let result := matchHereWithDepth regexMaxDepth pattern (b :: text) work
      if 0 ≤ result.1 then (some (start, result.1.toNat), result.2)
      else scanStarts pattern (start + 1) text result.2

/-- A slice as a string; it is empty where the slice is not UTF-8. -/
def utf8OrEmpty (bytes : Bytes) : Bytes := if (String.fromUTF8? ⟨bytes.toArray⟩).isSome then bytes else []

/-- The loop of `replace_all` from a position on.  Each round that finds a match spends work, so that the
budget bounds the rounds. -/
def replaceLoop (pattern replacement text : Bytes) : Nat → Nat → Work → Bytes × Work
  | 0, _, work => ([], work)
  | fuel + 1, cursor, work =>
      if text.length ≤ cursor then ([], work)
      else
        let found := scanStarts pattern cursor (text.drop cursor) work
        found.1.elim (utf8OrEmpty (text.drop cursor), found.2) fun at_ =>
          let rest := replaceLoop pattern replacement text fuel (at_.1 + at_.2) found.2
          (utf8OrEmpty ((text.take at_.1).drop cursor) ++ replacement ++ rest.1, rest.2)

/-- The replacement of a prepared pattern. -/
def replacePrepared (text prepared replacement : Bytes) : Bytes × Work :=
  replaceLoop prepared replacement text (text.length + regexMaxWork + 1) 0 .new

/-- `replace_all`; `none` is a panic. -/
def replaceAll (text pattern replacement : Bytes) : Option Bytes :=
  (prepare pattern).map fun prepared => (replacePrepared text prepared replacement).1

/-- The loop of `mimi_regex_find_all` from a position on, which goes on one byte after an empty match. -/
def findAllLoop (pattern text : Bytes) : Nat → Nat → Work → List (Nat × Nat) × Work
  | 0, _, work => ([], work)
  | fuel + 1, cursor, work =>
      if text.length ≤ cursor then ([], work)
      else
        let found := scanStarts pattern cursor (text.drop cursor) work
        found.1.elim ([], found.2) fun at_ =>
          let next := if at_.2 = 0 then at_.1 + 1 else at_.1 + at_.2
          let rest := findAllLoop pattern text fuel next found.2
          ((at_.1, at_.1 + at_.2) :: rest.1, rest.2)

def findAllRun (text pattern : Bytes) : List (Nat × Nat) × Work :=
  findAllLoop pattern text (text.length + 1) 0 .new

/-- The bytes between two positions. -/
def slice (text : Bytes) (range : Nat × Nat) : Bytes := (text.take range.2).drop range.1

/-- The text of a match; it is empty where the match is not UTF-8. -/
def matchText (text : Bytes) (range : Nat × Nat) : String :=
  (String.fromUTF8? ⟨(slice text range).toArray⟩).getD ""

/-- What `mimi_regex_find_all` collects. -/
def findAllMatches (text pattern : Bytes) : List String :=
  (findAllRun text pattern).1.map (matchText text)

def hexDigit (n : Nat) : Char := if n < 10 then Char.ofNat (48 + n) else Char.ofNat (87 + n)

/-- A character in a JSON string. -/
def escapeJson (c : Char) : String :=
  if c = '"' then "\\\""
  else if c = '\\' then "\\\\"
  else if c = '\n' then "\\n"
  else if c = '\r' then "\\r"
  else if c = '\t' then "\\t"
  else if c = Char.ofNat 0x2028 then "\\u2028"
  else if c = Char.ofNat 0x2029 then "\\u2029"
  else if c.toNat < 0x20 then "\\u00" ++ String.ofList [hexDigit (c.toNat / 16), hexDigit (c.toNat % 16)]
  else String.singleton c

def quoteJson (s : String) : String := "\"" ++ String.join (s.toList.map escapeJson) ++ "\""

/-- A JSON array of strings. -/
def listJson (items : List String) : String := "[" ++ ",".intercalate (items.map quoteJson) ++ "]"

def maxRegexPatternLen : Nat := 512

def mimiRegexFindAll (text pattern : Bytes) : String :=
  if pattern.length > maxRegexPatternLen then "[]" else listJson (findAllMatches text pattern)

end Mimi.Runtime.Regex
