/-
Module: Mimi.Parser.State
Purpose: The state of the parser, the monad of its functions, and the helpers that look at tokens, take them and
  count the depth of the recursion.
Trusted boundary: human-reviewed translation of `parser/helpers.rs`; the rewriting of tokens, which only types need,
  is left to the parsers of types
-/
import Mimi.Ast
import Mimi.Lexer.Scan
import Mimi.Lib.Run

namespace Mimi.Parsing

open Mimi.Lexer Mimi.Ast Mimi.Lib Run

structure ParseError where
  message : String
  line : Nat
  col : Nat
deriving DecidableEq, Repr

structure Parser where
  tokens : List Token
  pos : Nat
  recursion_depth : Nat
  /-- Whether `{` behind a name with a capital begins a record. -/
  allow_record_literal : Bool
  source_id : Nat
deriving DecidableEq, Repr

/-- A function of the parser.  It has no result where the steps that it may take are not enough. -/
abbrev Parse (β : Type) := Run Parser ParseError β

/-! ### Tokens -/

namespace Parser

/-- The token behind the last one. -/
def EOF : Token := ⟨.eof, 0, 0, 0, 0⟩

def peek (p : Parser) : Token := p.tokens[p.pos]?.getD EOF

def peek_kind (p : Parser) : TokenKind := p.peek.kind

/-- The kind of a token that comes later, if there is one. -/
def kind_behind (p : Parser) (n : Nat) : Option TokenKind := p.tokens[p.pos + n]?.map Token.kind

/-- The token at the end is not passed. -/
def advance (p : Parser) : Parser :=
  if p.kind_behind 0 = some .eof then p else { p with pos := p.pos + 1 }

def skip_newlines (p : Parser) : Parser :=
  { p with pos := p.pos + ((p.tokens.drop p.pos).takeWhile fun token => token.kind = .newline).length }

/-- Newlines are passed in front of `||` and `&&` only. -/
def try_skip_newlines_for_boolean_op (p : Parser) : Parser :=
  if p.skip_newlines.peek_kind = .orOr ∨ p.skip_newlines.peek_kind = .andAnd then p.skip_newlines else p

def consumed_span (p : Parser) (start_pos : Nat) : Core.Span :=
  match p.tokens[start_pos]? with
  | none => { Core.Span.unknown with sourceId := p.source_id }
  | some first =>
      let last := p.tokens[max (p.pos - 1) start_pos]?.getD first
      ⟨p.source_id, first.line, first.col, last.end_line, last.end_col⟩

/-- `AstNodeMeta::new`, which makes the owner of a node that is not the user's its parent. -/
def consumed_meta (p : Parser) (start_pos : Nat) (origin : AstOrigin) : AstNodeMeta :=
  ⟨p.consumed_span start_pos, origin, if origin = .user then .none else .enclosing⟩

end Parser

/-- `Expr::meta`, of which only the origin is read. -/
def expr_origin : Expr → AstOrigin
  | .located info _ => info.origin
  | _ => .user

def with_meta (info : AstNodeMeta) : Expr → Expr
  | .located _ e => .located info e
  | e => .located info e

/-- `into_unlocated`, and `unlocated`. -/
def unlocated : Expr → Expr
  | .located _ e => unlocated e
  | e => e

/-- An error at the token that comes next. -/
def fail {β : Type} (message : TokenKind → String) : Parse β := do
  let token ← gets Parser.peek
  throw ⟨message token.kind, token.line, token.col⟩

def parsed_expr_from (start_pos : Nat) (e : Expr) : Parse Expr :=
  gets fun p => with_meta (p.consumed_meta start_pos (expr_origin e)) e

def advance : Parse Unit := modify Parser.advance

def skip_newlines : Parse Unit := modify Parser.skip_newlines

def peek_kind : Parse TokenKind := gets Parser.peek_kind

def at_ (kind : TokenKind) : Parse Bool := gets fun p => p.peek_kind = kind

def expect (kind : TokenKind) (expected : String) : Parse Unit := do
  if ← at_ kind then advance
  else fail fun found => s!"expected {expected}, found {found.display}"

/-- The kinds that may be names. -/
def is_ident_like_kind : TokenKind → Bool
  | .ident _ | .old | .view | .mutate | .persistent | .session | .dual | .end_ | .and | .or | .not | .fault
  | .reset | .recover => true
  | _ => false

def expect_ident : Parse String := do
  let kind ← peek_kind
  if is_ident_like_kind kind then
    advance
    return kind.source_text
  else fail fun found => s!"expected identifier, found {found.display}"

/-! ### Depth -/

def DEPTH_MAX_DEFAULT : Nat := 128

def check_depth : Parse Unit := do
  let depth ← gets Parser.recursion_depth
  if DEPTH_MAX_DEFAULT ≤ depth then
    fail fun _ => s!"recursion limit exceeded (> {DEPTH_MAX_DEFAULT} nested)"

def inc_depth (p : Parser) : Parser := { p with recursion_depth := p.recursion_depth + 1 }

def dec_depth (p : Parser) : Parser := { p with recursion_depth := p.recursion_depth - 1 }

/-- A parser one level deeper, whose result is located. -/
def deeper (inner : Nat → Parse Expr) : Parse Expr := do
  let start_pos ← gets Parser.pos
  check_depth
  modify inc_depth
  let e ← ensure (inner start_pos) dec_depth
  parsed_expr_from start_pos e

/-! ### Integers -/

/-- `s.replace('_', "")`. -/
def cleaned (s : String) : List Char := s.toList.filter (· ≠ '_')

/-- The text of 2^63 in a base. -/
def is_i64_min_magnitude (cleaned : List Char) : Bool :=
  if cleaned = "9223372036854775808".toList then true
  else
    match cleaned with
    | '0' :: letter :: digits =>
        if letter = 'x' || letter = 'X' then digits = "8000000000000000".toList
        else if letter = 'b' || letter = 'B' then
          digits = "1000000000000000000000000000000000000000000000000000000000000000".toList
        else if letter = 'o' || letter = 'O' then digits = "1000000000000000000000".toList
        else false
    | _ => false

/-- `char::to_digit`. -/
def to_digit (radix : Nat) (c : Char) : Option Nat :=
  if is_ascii_hexdigit c && digitValue c < radix then some (digitValue c) else none

/-- Digits behind a value, with a check of every step. -/
def checked_digits (radix : Nat) (negative : Bool) : List Char → Int → Option Int
  | [], value => some value
  | c :: digits, value => do
      let digit ← to_digit radix c
      let value := value * radix
      if value < -2 ^ 63 ∨ 2 ^ 63 ≤ value then none
      else
        let value := if negative then value - digit else value + digit
        if value < -2 ^ 63 ∨ 2 ^ 63 ≤ value then none else checked_digits radix negative digits value

/-- `i64::from_str_radix`. -/
def from_str_radix (radix : Nat) : List Char → Option Int
  | [] | ['+'] | ['-'] => none
  | '+' :: digits => checked_digits radix false digits 0
  | '-' :: digits => checked_digits radix true digits 0
  | digits => checked_digits radix false digits 0

end Mimi.Parsing
