/-
Module: Mimi.Lexer.Scan
Purpose: How one token is read: strings and f-strings with their escapes, numbers with digit separators, names
  and operators.
Trusted boundary: human-reviewed translation of the scanners of `LexerPos` and of `lex_scan_token` in
  `lexer/flow.rs`; the alphanumeric characters beyond ASCII are a parameter
-/
import Mimi.Lexer.Pos

namespace Mimi.Lexer

open Mimi.Lib Scanner

/-- `char::is_alphanumeric`, which is known of ASCII. -/
structure Alphabet where
  is_alphanumeric : Char → Bool
  ascii : ∀ c : Char, c.toNat < 128 → is_alphanumeric c = c.isAlphanum

def is_ascii_digit (c : Char) : Bool := '0' ≤ c && c ≤ '9'

def is_ascii_hexdigit (c : Char) : Bool :=
  is_ascii_digit c || ('a' ≤ c && c ≤ 'f') || ('A' ≤ c && c ≤ 'F')

/-- An error at the position that has been reached. -/
def failAt {β : Type} (error : Nat → Nat → LexerError) : Scan β := fail fun pos => error pos.line pos.col

/-- The value of a digit of a base up to 16. -/
def digitValue (c : Char) : Nat :=
  if is_ascii_digit c then c.toNat - '0'.toNat
  else if 'a' ≤ c then c.toNat - 'a'.toNat + 10
  else c.toNat - 'A'.toNat + 10

/-- The value of digits in a base. -/
def radixValue (radix : Nat) (digits : List Char) : Nat :=
  digits.foldl (fun value c => value * radix + digitValue c) 0

/-! ### Escapes -/

/-- The character of the digits of a `\u` escape. -/
def unicode_char (start_col : Nat) (code : List Char) : Scan Char :=
  let cleaned := code.filter (· ≠ '_')
  if cleaned = [] then failAt fun line _ =>
    .invalidEscape "\\ucannot parse integer from empty string" line start_col
  else if 2 ^ 32 ≤ radixValue 16 cleaned then failAt fun line _ =>
    .invalidEscape "\\unumber too large to fit in target type" line start_col
  else if (radixValue 16 cleaned).isValidChar then return Char.ofNat (radixValue 16 cleaned)
  else failAt fun line _ => .invalidEscape "\\u" line start_col

/-- The four digits of a `\u` escape without braces. -/
def four_digits (start_col : Nat) : Scan (List Char) := do
  let code ← manyUpTo 4 is_ascii_hexdigit
  if code.length = 4 then return code
  else failAt fun line _ => .invalidEscape "\\u" line start_col

/-- The digits between the braces of a `\u` escape. -/
def braced_digits (start_col : Nat) : Scan (List Char) := do
  let code ← many fun c => is_ascii_hexdigit c || c = '_'
  match ← accept (· = '\x7d') with
  | none => failAt fun line _ => .invalidEscape "\\u\x7b" line start_col
  | some _ =>
      if code = [] then failAt fun line _ => .invalidEscape "\\u\x7b\x7d" line start_col
      else return code

/-- The two digits of a `\x` escape. -/
def two_digits (start_col : Nat) : Scan (List Char) := do
  let hex ← manyUpTo 2 is_ascii_hexdigit
  if hex.length = 2 then return hex
  else failAt fun line _ => .invalidEscape "\\x" line start_col

/-- What stands behind a backslash in a string. -/
def scan_escape : Scan Char := located fun start => do
  match ← any (fun pos => .unterminatedEscape pos.line pos.col) with
  | 'n' => return '\n'
  | 't' => return '\t'
  | 'r' => return '\r'
  | '\\' => return '\\'
  | '"' => return '"'
  | '0' => return '\x00'
  | 'x' => do
      let hex ← two_digits start.col
      return Char.ofNat (radixValue 16 hex)
  | 'u' => do
      match ← accept (· = '\x7b') with
      | some _ => do
          let code ← braced_digits start.col
          unicode_char start.col code
      | none => do
          let code ← four_digits start.col
          unicode_char start.col code
  | c => fail fun _ => .invalidEscape (String.ofList ['\\', c]) start.line start.col

/-- What stands behind a backslash in the text of an f-string, as it stands there. -/
def scan_raw_escape : Scan (List Char) := located fun start => do
  match ← any (fun pos => .unterminatedFStringEscape pos.line pos.col) with
  | 'n' => return ['\\', 'n']
  | 't' => return ['\\', 't']
  | 'r' => return ['\\', 'r']
  | '\\' => return ['\\', '\\']
  | '"' => return ['\\', '"']
  | '\x7b' => return ['\\', '\x7b']
  | '\x7d' => return ['\\', '\x7d']
  | '0' => return ['\\', '0']
  | 'x' => do
      let hex ← two_digits start.col
      return '\\' :: 'x' :: hex
  | 'u' => do
      match ← accept (· = '\x7b') with
      | some _ => do
          let code ← braced_digits start.col
          return '\\' :: 'u' :: '\x7b' :: code ++ ['\x7d']
      | none => do
          let code ← four_digits start.col
          return '\\' :: 'u' :: code
  | c => fail fun _ => .invalidEscape (String.ofList ['\\', c]) start.line start.col

/-! ### Strings -/

def string_round (s : List Char) (c : Char) (_ : LexerPos) : Scan (List Char ⊕ String) :=
  match c with
  | '"' => return .inr (String.ofList s)
  | '\\' => do
      let escaped ← scan_escape
      return .inl (s ++ [escaped])
  | c => return .inl (s ++ [c])

def scan_string : Scan String := do
  let _ ← any fun pos => .unterminatedString pos.line pos.col
  loop (fun _ _ _ => true) string_round (fun _ => failAt .unterminatedString) []

/-- A round in a quoted literal inside an interpolation. -/
def quoted_round (quote : Char) (s : List Char) (c : Char) (_ : LexerPos) : Scan (List Char ⊕ List Char) :=
  if c = '\\' then do
    -- At the end of the text the interpolation is unterminated as well.
    let escaped ← any fun pos => .unterminatedInterpolation pos.line pos.col
    return .inl (s ++ [c, escaped])
  else if c = quote then return .inr (s ++ [c])
  else return .inl (s ++ [c])

/-- A round in an interpolation, with the braces that are open. -/
def interpolation_round (state : List Char × Nat) (c : Char) (_ : LexerPos) :
    Scan ((List Char × Nat) ⊕ List Char) :=
  let (s, depth) := state
  if c = '"' || c = '\'' then do
    let quoted ← loop (fun _ _ _ => true) (quoted_round c) (fun _ => failAt .unterminatedInterpolation) [c]
    return .inl (s ++ quoted, depth)
  else if c = '\x7b' then return .inl (s ++ [c], depth + 1)
  else if c = '\x7d' then
    if depth = 1 then return .inr (s ++ [c]) else return .inl (s ++ [c], depth - 1)
  else return .inl (s ++ [c], depth)

def fstring_round (s : List Char) (c : Char) (_ : LexerPos) : Scan (List Char ⊕ String) :=
  match c with
  | '"' => return .inr (String.ofList s)
  | '\\' => do
      let escaped ← scan_raw_escape
      return .inl (s ++ escaped)
  | '\x7b' => do
      let code ← loop (fun _ _ _ => true) interpolation_round (fun _ => failAt .unterminatedInterpolation) ([c], 1)
      return .inl (s ++ code)
  | c => return .inl (s ++ [c])

def scan_fstring : Scan String := do
  let _ ← any fun pos => .unterminatedFString pos.line pos.col
  let _ ← any fun pos => .unterminatedFString pos.line pos.col
  loop (fun _ _ _ => true) fstring_round (fun _ => failAt .unterminatedFString) []

/-! ### Numbers -/

/-- The letter of a base and its digits, where a number starts with one. -/
def radix_prefix : List Char → Option (Char × (Char → Bool))
  | '0' :: c :: _ =>
      if c = 'x' || c = 'X' then some ('x', is_ascii_hexdigit)
      else if c = 'b' || c = 'B' then some ('b', fun c => c = '0' || c = '1')
      else if c = 'o' || c = 'O' then some ('o', fun c => is_ascii_digit c && c ≠ '8' && c ≠ '9')
      else none
  | _ => none

/-- A digit, or a separator in front of a digit. -/
def digit_round (is_digit : Char → Bool) (behind : List Char → Bool) (s : List Char) (c : Char) (start : LexerPos) :
    Scan (List Char) := do
  if c ≠ '_' then return s ++ [c]
  else if (← look fun text => text.head?.any is_digit) && behind s then return s ++ [c]
  else fail fun _ => .invalidDigitSeparator start.line start.col

def enters_digits (is_digit : Char → Bool) (c : Char) : Bool := is_digit c || c = '_'

def scan_radix (letter : Char) (is_digit : Char → Bool) : Scan String := do
  let _ ← any fun pos => .unexpectedCharacter '0' pos.line pos.col
  let _ ← any fun pos => .unexpectedCharacter letter pos.line pos.col
  loop (fun _ c _ => enters_digits is_digit c)
    (fun s c start => do
      -- A separator stands between two digits.
      let s ← digit_round is_digit (fun s => s.getLast?.any is_digit) s c start
      return .inl s)
    (fun s => return String.ofList s) ['0', letter]

def enters_decimal (state : List Char × Bool) (c : Char) (ahead : Option Char) : Bool :=
  enters_digits is_ascii_digit c || (c = '.' && !state.2 && ahead.any is_ascii_digit)

def decimal_round (state : List Char × Bool) (c : Char) (start : LexerPos) :
    Scan ((List Char × Bool) ⊕ (List Char × Bool)) := do
  let s ← digit_round is_ascii_digit (fun _ => true) state.1 c start
  return .inl (s, state.2 || c = '.')

inductive Exponent where
  | none
  /-- A separator this many columns on. -/
  | separator (columns : Nat)
  | digits
deriving DecidableEq, Repr

/-- What an `e` behind a number begins. -/
def exponent : List Char → Exponent
  | e :: text =>
      if e = 'e' || e = 'E' then
        let sign := text.head?.any fun c => c = '+' || c = '-'
        let digits := if sign then text.tail else text
        if digits.head? = some '_' then .separator (if sign then 2 else 1)
        else if digits.head?.any is_ascii_digit then .digits
        else .none
      else .none
  | [] => .none

/-- The exponent of a number, from its `e` on. -/
def scan_exponent (s : List Char) : Scan String := do
  let e ← any fun pos => .unexpectedCharacter 'e' pos.line pos.col
  let sign ← accept fun c => c = '+' || c = '-'
  loop (fun _ c _ => enters_digits is_ascii_digit c)
    (fun s c start => do
      let s ← digit_round is_ascii_digit (fun _ => true) s c start
      return .inl s)
    (fun s => return String.ofList s) (s ++ e :: sign.toList)

def scan_decimal : Scan TokenKind := do
  -- A number is scanned at a digit, which the first round of the loop takes.
  let first ← any fun pos => .unexpectedCharacter '0' pos.line pos.col
  let (s, is_float) ← loop enters_decimal decimal_round (fun state => return state) ([first], false)
  match ← look exponent with
  | .separator columns => fail fun pos => .invalidDigitSeparator pos.line (pos.col + columns)
  | .digits => do
      let s ← scan_exponent s
      return .float s
  | .none => return if is_float then .float (String.ofList s) else .int (String.ofList s)

def scan_number : Scan TokenKind := do
  match ← look radix_prefix with
  | some (letter, is_digit) => do
      let s ← scan_radix letter is_digit
      return .int s
  | none => scan_decimal

/-! ### Names and operators -/

section Tokens

variable (alphabet : Alphabet)

/-- `scan_ident`, behind the first character. -/
def scan_ident (first : Char) : Scan String := do
  let name ← many fun c => alphabet.is_alphanumeric c || c = '_'
  return String.ofList (first :: name)

/-- An operator that some second characters make another one. -/
def operator (longer : List (Char × TokenKind)) (kind : TokenKind) : Scan TokenKind := do
  let _ ← any fun pos => .unexpectedCharacter '\x00' pos.line pos.col
  let second ← accept fun c => (longer.lookup c).isSome
  return (second.bind fun c => longer.lookup c).getD kind

/-- `.`, `..` and `...`. -/
def dots : Scan TokenKind := do
  let _ ← any fun pos => .unexpectedCharacter '.' pos.line pos.col
  match ← accept (· = '.') with
  | none => return .dot
  | some _ =>
      match ← accept (· = '.') with
      | none => return .dotDot
      | some _ => return .ellipsis

/-- The second characters of an operator with their kinds, and the kind of the first character alone. -/
def operator_of : Char → Option (List (Char × TokenKind) × TokenKind)
  | '+' => some ([('=', .plusEq)], .plus)
  | '-' => some ([('>', .arrow), ('=', .minusEq)], .minus)
  | '*' => some ([('*', .pow), ('=', .starEq)], .star)
  | '/' => some ([('=', .slashEq)], .slash)
  | '%' => some ([], .percent)
  | '=' => some ([('=', .eqEq), ('>', .fatArrow)], .eq)
  | '!' => some ([('=', .ne)], .bang)
  | '<' => some ([('=', .le), ('<', .shl)], .lt)
  | '>' => some ([('=', .ge), ('>', .shr)], .gt)
  | '&' => some ([('&', .andAnd), ('=', .bitAndEq)], .bitAnd)
  | '|' => some ([('|', .orOr), ('=', .bitOrEq), ('>', .pipeArrow)], .bitOr)
  | '^' => some ([('=', .bitXorEq)], .bitXor)
  | '~' => some ([], .tilde)
  | '$' => some ([('(', .dollarParen)], .ident "$")
  | '(' => some ([], .lParen)
  | ')' => some ([], .rParen)
  | '\x7b' => some ([], .lBrace)
  | '\x7d' => some ([], .rBrace)
  | '[' => some ([], .lBracket)
  | ']' => some ([], .rBracket)
  | ':' => some ([(':', .colonColon)], .colon)
  | ';' => some ([], .semi)
  | ',' => some ([], .comma)
  | '?' => some ([], .question)
  | '@' => some ([], .at_)
  | '#' => some ([], .hash)
  | _ => none

def is_ident_start (c : Char) : Bool := ('a' ≤ c && c ≤ 'z') || ('A' ≤ c && c ≤ 'Z') || c = '_'

/-- The token that begins with a character, which is the peeked one. -/
def lex_scan_token (c : Char) : Scan TokenKind := do
  if c = 'f' && (← look fun text => decide (text.tail.head? = some '"')) then
    let s ← scan_fstring
    return .fString s
  else if c = '"' then
    let s ← scan_string
    return .string s
  else if is_ascii_digit c then scan_number
  else if is_ident_start c then
    let first ← any fun pos => .unexpectedCharacter c pos.line pos.col
    let name ← scan_ident alphabet first
    return keyword_or_ident name
  else if c = '.' then dots
  else
    match operator_of c with
    | some (longer, kind) => operator longer kind
    | none => failAt (.unexpectedCharacter c)

end Tokens

end Mimi.Lexer
