/-
Module: Mimi.Runtime.Regex
Purpose: The regex engine of the runtime: the expansion of counted repetitions, the matcher that erases
  capturing parentheses and the matcher that interprets them.  Patterns and texts are the bytes of
  strings.  A matcher works on suffixes of its pattern and text where the source keeps an index, and on
  the levels of recursion that are left where the source counts its depth.  Beside the work budget goes
  a flag that says whether a limit has answered in place of the matcher; nothing reads it.
Trusted boundary: human-reviewed translation of `RegexEngine` in `src/runtime/regex.rs`
-/
import Mimi.Lib.Backtrack

namespace Mimi.Runtime.Regex

open Mimi.Lib

abbrev Bytes := List UInt8

def byte (c : Char) : UInt8 := UInt8.ofNat c.toNat

def regexMaxDepth : Nat := 100

def regexMaxWork : Nat := 1000000

/-- How often a group or an element is repeated at most. -/
def repetitionCap : Nat := 10000

/-! ### Expansion of braces -/

/-- A byte as a character, in the bytes of a string. -/
def asChar (b : UInt8) : Bytes :=
  if b < 0x80 then [b] else [b >>> 6 ||| 0xC0, b &&& 0x3F ||| 0x80]

/-- A continuation byte does not start a character. -/
def isCharBoundary (s : Bytes) (i : Nat) : Bool :=
  i = 0 || i = s.length || match s[i]? with
    | none => false
    | some b => b < 0x80 || 0xC0 ≤ b

/-- A slice of a string; `none` is the panic outside of a character boundary. -/
def sliceStr (s : Bytes) (start end_ : Nat) : Option Bytes :=
  if isCharBoundary s start && isCharBoundary s end_ then some ((s.take end_).drop start) else none

def escaped (b : Bytes) (i : Nat) : Bool := i ≠ 0 && b[i - 1]? = some (byte '\\')

/-- The nearest unescaped `[` below a position. -/
def findOpenBracket (b : Bytes) : Nat → Option Nat
  | 0 => none
  | i + 1 =>
      if b[i]? = some (byte '[') && !escaped b i then some i else findOpenBracket b i

/-- The unescaped `(` below a position that closes the parentheses open there. -/
def findOpenParen (b : Bytes) : Nat → Int → Option Nat
  | 0, _ => none
  | i + 1, depth =>
      if b[i]? = some (byte ')') && !escaped b i then findOpenParen b i (depth + 1)
      else if b[i]? = some (byte '(') && !escaped b i then
        if depth - 1 = 0 then some i else findOpenParen b i (depth - 1)
      else findOpenParen b i depth

/-- The length of a string without the quantifiers at its end. -/
def skipQuantifiers (b : Bytes) : Nat → Nat
  | 0 => 0
  | end_ + 1 =>
      if b[end_]? = some (byte '*') || b[end_]? = some (byte '+') then skipQuantifiers b end_
      else end_ + 1

/-- The last atom that has been written, with its start; the outer `none` is a panic. -/
def lastAtom (out : Bytes) : Option (Option (Nat × Bytes)) :=
  let end_ := skipQuantifiers out out.length
  let slice (start : Nat) : Option (Option (Nat × Bytes)) := do
    let atom ← sliceStr out start end_
    return some (start, atom)
  if end_ = 0 then some none
  else if out[end_ - 1]? = some (byte ']') then
    match findOpenBracket out (end_ - 1) with
    | none => some none
    | some i => slice i
  else if 2 ≤ end_ && out[end_ - 2]? = some (byte '\\') then slice (end_ - 2)
  else if out[end_ - 1]? = some (byte ')') then
    match findOpenParen out end_ 0 with
    | none => some none
    | some i => slice i
  else slice (end_ - 1)

def isAsciiDigit (b : UInt8) : Bool := byte '0' ≤ b && b ≤ byte '9'

/-- `parse::<usize>`. -/
def parseUsize (digits : Bytes) : Option Nat :=
  let value := digits.foldl (fun n d => 10 * n + (d - byte '0').toNat) 0
  if digits.isEmpty || 2 ^ 64 ≤ value then none else some value

/-- What stands after `{`: the two bounds and the rest, if it is `n}` or `n,m}`. -/
def parseBounds (bytes : Bytes) : Option (Nat × Nat × Bytes) :=
  let nStr := bytes.takeWhile isAsciiDigit
  let rest := bytes.dropWhile isAsciiDigit
  let (mStr, rest) : Bytes × Bytes :=
    if rest.head? = some (byte ',') then
      (rest.tail.takeWhile isAsciiDigit, rest.tail.dropWhile isAsciiDigit)
    else ([], rest)
  if rest.head? = some (byte '}') && !nStr.isEmpty then
    let n := min ((parseUsize nStr).getD 0) 64
    let m := if mStr.isEmpty then n else min ((parseUsize mStr).getD n) 64
    some (n, m, rest.tail)
  else none

/-- Expand the rest of a pattern after what has been written; `none` is a panic. -/
def expandFrom : Nat → Bytes → Bytes → Option Bytes
  | 0, _, out => some out
  | _ + 1, [], out => some out
  | fuel + 1, b :: bytes, out =>
      if b = byte '\\' && !bytes.isEmpty then
        expandFrom fuel bytes.tail (out ++ asChar b ++ bytes.head?.elim [] asChar)
      else if b = byte '{' then do
        match ← lastAtom out, parseBounds bytes with
        | some (atomStart, atom), some (n, m, rest) =>
            -- the repetitions from the least to the greatest count are written out as well
            let copies := List.replicate (min n m) atom ++
              List.replicate (max n m - min n m) atom
            expandFrom fuel rest (out.take atomStart ++ copies.flatten)
        | _, _ => expandFrom fuel bytes (out ++ asChar b)
      else expandFrom fuel bytes (out ++ asChar b)

def expandBraces (pattern : Bytes) : Option Bytes := expandFrom pattern.length pattern []

/-- Drop every unescaped parenthesis. -/
def stripCaptures : Bytes → Bytes
  | [] => []
  | [b] => if b = byte '(' || b = byte ')' then [] else asChar b
  | b :: c :: bytes =>
      if b = byte '\\' then asChar b ++ asChar c ++ stripCaptures bytes
      else if b = byte '(' || b = byte ')' then stripCaptures (c :: bytes)
      else asChar b ++ stripCaptures (c :: bytes)

/-! ### Elements -/

/-- How far a class goes on, with its `]`; a backslash protects the byte after it. -/
def classLength : Bytes → Nat
  | [] => 0
  | [_] => 1
  | b :: c :: bytes =>
      if b = byte ']' then 1
      else if b = byte '\\' then 2 + classLength bytes
      else 1 + classLength (c :: bytes)

/-- The length of the element at the front of a pattern, and whether it is a class. -/
def parseElement : Bytes → Nat × Bool
  | [] => (0, false)
  | b :: bytes =>
      if b = byte '\\' then (2, false)
      else if b = byte '[' then
        if bytes.head? = some (byte '^') then (2 + classLength bytes.tail, true)
        else (1 + classLength bytes, true)
      else (1, false)

/-- Whether a class lists a byte, and how far it goes; here a backslash protects nothing. -/
def classMembers (c : UInt8) : Bytes → Bool × Nat
  | [] => (false, 0)
  | [b] => if b = byte ']' then (false, 1) else (c = b, 1)
  | [b, d] =>
      if b = byte ']' then (false, 1)
      else
        let (matched, length) := classMembers c [d]
        (c = b || matched, 1 + length)
  | b :: d :: e :: bytes =>
      if b = byte ']' then (false, 1)
      else if d = byte '-' && e ≠ byte ']' then
        let (matched, length) := classMembers c bytes
        (b ≤ c && c ≤ e || matched, 3 + length)
      else
        let (matched, length) := classMembers c (d :: e :: bytes)
        (c = b || matched, 1 + length)

def elemMatchInClass (class_ : Bytes) (c : UInt8) : Bool × Nat :=
  if class_.head? = some (byte '^') then
    let (matched, length) := classMembers c class_.tail
    (!matched, 1 + length)
  else classMembers c class_

def isAsciiAlphanumeric (b : UInt8) : Bool :=
  isAsciiDigit b || byte 'A' ≤ b && b ≤ byte 'Z' || byte 'a' ≤ b && b ≤ byte 'z'

def isAsciiWhitespace (b : UInt8) : Bool :=
  b = byte ' ' || b = byte '\t' || b = byte '\n' || b = 0x0C || b = byte '\r'

def escapeMatches (esc c : UInt8) : Bool :=
  if esc = byte 'd' then isAsciiDigit c
  else if esc = byte 'D' then !isAsciiDigit c
  else if esc = byte 'w' then isAsciiAlphanumeric c || c = byte '_'
  else if esc = byte 'W' then !(isAsciiAlphanumeric c || c = byte '_')
  else if esc = byte 's' then isAsciiWhitespace c
  else if esc = byte 'S' then !isAsciiWhitespace c
  else c = esc

/-- Whether the element at the front of a pattern matches a byte, and how far it goes. -/
def elemMatch (pattern : Bytes) (c : UInt8) (isClass : Bool) : Bool × Nat :=
  match pattern with
  | [] => (false, 0)
  | b :: bytes =>
      if isClass then
        let (matched, length) := elemMatchInClass bytes c
        (matched, 1 + length)
      else if b = byte '\\' then
        bytes.head?.elim (false, 0) fun esc => (escapeMatches esc c, 2)
      else if b = byte '.' then (c ≠ byte '\n' && c ≠ 0, 1)
      else (c = b, 1)

/-- The bytes that the element at the front of a pattern accepts. -/
def accepts (pattern : Bytes) (c : UInt8) : Bool := (elemMatch pattern c (parseElement pattern).2).1

/-- The quantifier at the front of a pattern, and the pattern after it. -/
def readQuant (pattern : Bytes) : Repeat × Bytes :=
  if pattern.head? = some (byte '*') then (.star, pattern.tail)
  else if pattern.head? = some (byte '+') then (.plus, pattern.tail)
  else (.once, pattern)

/-- Skip a leading `^`. -/
def skipCaret (pattern : Bytes) : Bytes :=
  if pattern.head? = some (byte '^') then pattern.tail else pattern

/-! ### Work -/

structure Work where
  budget : Nat
  limited : Bool
deriving DecidableEq, Repr

def Work.new : Work := ⟨regexMaxWork, false⟩

def Work.hit (work : Work) : Work := { work with limited := true }

/-- Consume one unit of the work budget, if there is one. -/
def spendWork (work : Work) : Bool × Work :=
  if work.budget = 0 then (false, work.hit) else (true, { work with budget := work.budget - 1 })

/-! ### The matcher without groups -/

/-- `as i32`. -/
def asI32 (n : Nat) : Int := (BitVec.ofNat 32 n).toInt

/-- The least count of a quantifier. -/
def leastCount : Repeat → Nat
  | .star => 0
  | .once | .plus => 1

/-- Match the rest of a pattern after a number of bytes: the number consumed with them. -/
def attemptCount (again : Bytes → Bytes → Work → Int × Work) (rest text : Bytes) (count : Nat)
    (work : Work) : Option Nat × Work :=
  let result := again rest (text.drop count) work
  (if 0 ≤ result.1 then some (count + result.1.toNat) else none, result.2)

/-- Match elements one by one from what has been consumed, and start over after a quantifier. -/
def matchLoop (again : Bytes → Bytes → Work → Int × Work) :
    Nat → Bytes → Bytes → Nat → Work → Int × Work
  | _, [], _, consumed, work => (asI32 consumed, work)
  | 0, _ :: _, _, _, work => (-1, work)
  | fuel + 1, b :: bytes, text, consumed, work =>
      let pattern := b :: bytes
      if b = byte '$' && bytes.isEmpty then
        (if text.isEmpty then asI32 consumed else -1, work)
      else
        let quant := readQuant (pattern.drop (parseElement pattern).1)
        if quant.1 = .once then
          match text with
          | [] => (-1, work)
          | c :: text =>
              let elem := elemMatch pattern c (parseElement pattern).2
              if elem.1 then matchLoop again fuel (pattern.drop elem.2) text (consumed + 1) work
              else (-1, work)
        else
          let maxCount := leading (accepts pattern) text
          let result := tryEach (attemptCount again quant.2 text)
            (countdown (leastCount quant.1) maxCount) work
          (result.1.elim (-1) fun length => asI32 (consumed + length), result.2)

/-- Match a pattern at the front of a text: the number of bytes consumed, or -1.  The levels are what
is left of the depth limit. -/
def matchHereWithDepth : Nat → Bytes → Bytes → Work → Int × Work
  | 0, _, _, work => (-1, work.hit)
  | levels + 1, pattern, text, work =>
      let spent := spendWork work
      if spent.1 then
        let rest := skipCaret pattern
        matchLoop (matchHereWithDepth levels) rest.length rest text 0 spent.2
      else (-1, spent.2)

/-- The first position of a text, counted from `start`, at which a pattern matches. -/
def scanPattern (pattern : Bytes) (anchored : Bool) : Nat → Bytes → Work → Option Nat × Work
  | start, [], work =>
      let result := matchHereWithDepth regexMaxDepth pattern [] work
      (if 0 ≤ result.1 then some start else none, result.2)
  | start, b :: text, work =>
      let result := matchHereWithDepth regexMaxDepth pattern (b :: text) work
      if 0 ≤ result.1 then (some start, result.2)
      else if anchored then (none, result.2)
      else scanPattern pattern anchored (start + 1) text result.2

def isAnchored (pattern : Bytes) : Bool := pattern.head? = some (byte '^')

/-- Where `match_pattern` finds the expanded pattern. -/
def matchStart (text expanded : Bytes) : Option Nat × Work :=
  let stripped := stripCaptures expanded
  scanPattern stripped (isAnchored stripped) 0 text .new

/-- `match_pattern`; `none` is a panic. -/
def matchPattern (text pattern : Bytes) : Option Bool := do
  let expanded ← expandBraces pattern
  return (matchStart text expanded).1.isSome

/-! ### The matcher with groups -/

abbrev Span := Nat × Nat

structure Captures where
  caps : List (Option Span)
  work : Work
deriving DecidableEq, Repr

/-- A matcher of a fixed pattern at the front of a text. -/
abbrev Matcher := Bytes → Captures → Option Nat × Captures

def shiftSpan (base : Nat) (cap : Option Span) : Option Span :=
  cap.map fun span => (span.1 + base, span.2 + base)

/-- Match the rest of a pattern after `t2` bytes; its captures are relative to what is left. -/
def matchRest (rest : Matcher) (text : Bytes) (t2 : Nat) (s : Captures) : Option Nat × Captures :=
  let result := rest (text.drop t2) s
  let caps := result.2.caps
  let before := s.caps.length
  let shifted := caps.take before ++ (caps.drop before).map (shiftSpan t2)
  (result.1.map (t2 + ·), { result.2 with caps := if result.1.isSome then shifted else caps })

/-- Match a group several times in a row; the captures inside are added to those before. -/
def repeatGroup (inner : Matcher) (text : Bytes) : Nat → Nat → Captures → Option Nat × Captures
  | 0, t2, s => (some t2, s)
  | count + 1, t2, s =>
      let result := inner (text.drop t2) { s with caps := [] }
      match result.1 with
      | none => (none, { result.2 with caps := s.caps })
      | some n =>
          repeatGroup inner text count (t2 + n)
            { result.2 with caps := s.caps ++ result.2.caps.map (shiftSpan t2) }

/-- Match a group a number of times and the rest of the pattern after it.  The span of the group goes
before the spans inside it. -/
def attemptGroup (inner rest : Matcher) (text : Bytes) (count : Nat) (s : Captures) :
    Option Nat × Captures :=
  let before := s.caps.length
  let repeated := repeatGroup inner text count 0 s
  match repeated.1 with
  | none => (none, { repeated.2 with caps := repeated.2.caps.take before })
  | some t2 =>
      let caps := repeated.2.caps
      let work := repeated.2.work
      let result := matchRest rest text t2 ⟨caps.take before ++ some (0, t2) :: caps.drop before,
        if count = repetitionCap then work.hit else work⟩
      (result.1, { result.2 with
        caps := if result.1.isSome then result.2.caps else result.2.caps.take before })

/-- How many bytes at the front of a text are accepted, and whether the cap cut the count short. -/
def cappedLeading (accepts : UInt8 → Bool) : Nat → Bytes → Nat × Bool
  | count, [] => (count, false)
  | count, c :: text =>
      if accepts c then
        if repetitionCap < count + 1 then (count + 1, true)
        else cappedLeading accepts (count + 1) text
      else (count, false)

/-- Whether as many bytes are at the front of a text, all accepted. -/
def takes (accepts : UInt8 → Bool) : Nat → Bytes → Bool
  | 0, _ => true
  | _ + 1, [] => false
  | count + 1, c :: text => accepts c && takes accepts count text

def attemptElem (accepts : UInt8 → Bool) (rest : Matcher) (text : Bytes) (count : Nat)
    (s : Captures) : Option Nat × Captures :=
  if takes accepts count text then matchRest rest text count s else (none, s)

/-- The bounds of a group's repetition. -/
def groupBounds : Repeat → Nat × Nat
  | .once => (1, 1)
  | .star => (0, repetitionCap)
  | .plus => (1, repetitionCap)

/-- The matching `)` of the `(` at the front of a pattern. -/
def closingParen : Nat → Bytes → Int → Option Nat
  | _, [], _ => none
  | i, [b], depth =>
      if b = byte ')' && depth - 1 = 0 then some i else none
  | i, b :: c :: bytes, depth =>
      if b = byte '\\' then closingParen (i + 2) bytes depth
      else if b = byte '(' then closingParen (i + 1) (c :: bytes) (depth + 1)
      else if b = byte ')' then
        if depth - 1 = 0 then some i else closingParen (i + 1) (c :: bytes) (depth - 1)
      else closingParen (i + 1) (c :: bytes) depth

def findMatchingParen (pattern : Bytes) : Option Nat := closingParen 0 pattern 0

/-- Match the first part of a pattern and what follows it; the parts inside and after it start over. -/
def matchParts (again : Bytes → Matcher) (pattern text : Bytes) (s : Captures) :
    Option Nat × Captures :=
  match pattern with
  | [] => (some 0, s)
  | b :: bytes =>
      if b = byte '$' && bytes.isEmpty then (if text.isEmpty then some 0 else none, s)
      else if b = byte '(' then
        match findMatchingParen (b :: bytes) with
        | none => (none, s)
        | some close =>
            let quant := readQuant ((b :: bytes).drop (close + 1))
            tryEach
              (attemptGroup (again ((b :: bytes).take close).tail) (again quant.2) text)
              (countdown (groupBounds quant.1).1 (groupBounds quant.1).2) s
      else
        let quant := readQuant ((b :: bytes).drop (parseElement (b :: bytes)).1)
        let most :=
          if quant.1 = .once then (1, false) else cappedLeading (accepts (b :: bytes)) 0 text
        tryEach (attemptElem (accepts (b :: bytes)) (again quant.2) text)
          (countdown (leastCount quant.1) most.1)
          { s with work := if most.2 then s.work.hit else s.work }

/-- Match a pattern with its groups at the front of a text.  The levels are what is left of the depth
limit. -/
def matchWithCaptures : Nat → Bytes → Matcher
  | 0, _, _, s => (none, { s with work := s.work.hit })
  | levels + 1, pattern, text, s =>
      let spent := spendWork s.work
      if spent.1 then matchParts (matchWithCaptures levels) (skipCaret pattern) text ⟨s.caps, spent.2⟩
      else (none, ⟨s.caps, spent.2⟩)

/-- The first position of a text, counted from `start`, at which a pattern matches with its groups, and
their spans there. -/
def scanCaptures (pattern : Bytes) (anchored : Bool) :
    Nat → Bytes → Work → Option (Nat × List (Option Span)) × Work
  | start, [], work =>
      let result := matchWithCaptures regexMaxDepth pattern [] ⟨[], work⟩
      (if result.1.isSome then some (start, result.2.caps) else none, result.2.work)
  | start, b :: text, work =>
      let result := matchWithCaptures regexMaxDepth pattern (b :: text) ⟨[], work⟩
      if result.1.isSome then (some (start, result.2.caps), result.2.work)
      else if anchored then (none, result.2.work)
      else scanCaptures pattern anchored (start + 1) text result.2.work

/-- Where `capture_groups` finds the expanded pattern, and the spans of the groups there. -/
def captureStart (text expanded : Bytes) : Option (Nat × List (Option Span)) × Work :=
  scanCaptures expanded (isAnchored expanded) 0 text .new

/-- The text of a group; it is empty where the span does not keep to characters. -/
def groupText (text : Bytes) (start : Nat) (cap : Option Span) : String :=
  match cap with
  | none => ""
  | some span =>
      (String.fromUTF8? ⟨((text.take (start + span.2)).drop (start + span.1)).toArray⟩).getD ""

/-- `capture_groups`; the outer `none` is a panic. -/
def captureGroups (text pattern : Bytes) : Option (Option (List String)) := do
  let expanded ← expandBraces pattern
  return (captureStart text expanded).1.map fun found => found.2.map (groupText text found.1)

end Mimi.Runtime.Regex
