/-
Module: Mimi.Lexer.Flow
Purpose: The state machine of the lexer: the start of a text, the start of a line with its indentation, the
  dispatch on a character, and the run to the end of the text.
Trusted boundary: human-reviewed translation of `LexerState` and `flow_tokenize` in `lexer/flow.rs`; the event
  `Complete`, which no caller sends, and the flag of the states that do not read it are left out
-/
import Mimi.Lexer.Scan

namespace Mimi.Lexer

open Mimi.Lib LexerPos

structure LexerAcc where
  tokens : List Token
  /-- The open indentations, the innermost first. -/
  indent_stack : List Nat
deriving DecidableEq, Repr

def LexerAcc.new : LexerAcc := ⟨[], [0]⟩

inductive LexerState where
  | start (pos : LexerPos) (mode : LexerMode) (acc : LexerAcc)
  | lineStart (pos : LexerPos) (mode : LexerMode) (at_line_start : Bool) (acc : LexerAcc)
  | dispatch (pos : LexerPos) (mode : LexerMode) (acc : LexerAcc)
  | done (acc : LexerAcc)
deriving DecidableEq, Repr

/-- A token of a kind between two positions. -/
def Token.between (kind : TokenKind) (start stop : LexerPos) : Token :=
  ⟨kind, start.line, start.col, stop.line, stop.col⟩

/-! ### Indentation -/

/-- Every open indentation but the first is closed. -/
def close_indents (pos : LexerPos) : List Nat → List Token → LexerAcc
  | _ :: next :: below, tokens => close_indents pos (next :: below) (tokens ++ [Token.between .dedent pos pos])
  | stack, tokens => ⟨tokens, stack⟩

def advance_to_done (pos : LexerPos) (mode : LexerMode) (acc : LexerAcc) : LexerAcc :=
  let acc := if mode = .sketch then close_indents pos acc.indent_stack acc.tokens else acc
  ⟨acc.tokens ++ [Token.between .eof pos pos], acc.indent_stack⟩

/-- A token of the indentation of a line. -/
def Token.layout (kind : TokenKind) (pos : LexerPos) (spaces : Nat) : Token :=
  ⟨kind, pos.line, spaces, pos.line, spaces⟩

/-- The indentations that are deeper than a line are closed, but not the root. -/
def dedent_to (pos : LexerPos) (spaces : Nat) : List Nat → List Token → LexerAcc
  | [], tokens => ⟨tokens, []⟩
  | top :: below, tokens =>
      if spaces < top then
        if below = [] then ⟨tokens, [0]⟩
        else dedent_to pos spaces below (tokens ++ [Token.layout .dedent pos spaces])
      else ⟨tokens, top :: below⟩

def indentation (pos : LexerPos) (spaces : Nat) (acc : LexerAcc) : Except LexerError LexerAcc :=
  if spaces % 4 ≠ 0 then .error (.indentNotMultipleOfFour pos.line pos.col)
  else
    let current := acc.indent_stack.head?.getD 0
    if current < spaces then
      .ok ⟨acc.tokens ++ [Token.layout .indent pos spaces], spaces :: acc.indent_stack⟩
    else if spaces < current then
      let acc := dedent_to pos spaces acc.indent_stack acc.tokens
      if acc.indent_stack.head?.getD 0 ≠ spaces then .error (.dedentMismatch pos.line pos.col) else .ok acc
    else .ok acc

/-! ### The start of a line -/

/-- What stands at the start of a line: the end of the text, nothing but blanks and a comment, code behind a
block comment, or code behind some spaces. -/
inductive LineHead where
  | ended (pos : LexerPos)
  | blank (pos : LexerPos)
  | trailing (pos : LexerPos)
  | content (pos : LexerPos) (spaces : Nat)
deriving DecidableEq, Repr

/-- A carriage return that comes next is passed. -/
def skip_return (pos : LexerPos) : LexerPos := if pos.peek = some '\r' then pos.next else pos

/-- The end of a line that comes next is passed. -/
def skip_line_end (pos : LexerPos) : LexerPos :=
  let pos := skip_return pos
  if pos.peek = some '\n' then pos.next else pos

def line_head (pos : LexerPos) : Except LexerError LineHead :=
  let spaces := (span (· = ' ') pos).1.length
  let pos := (span (· = ' ') pos).2
  if pos.peek = some '\t' then .error (.tabsNotAllowed pos.line pos.col)
  else
    let pos := skip_return pos
    if pos.peek = none then .ok (.ended pos)
    else if pos.peek = some '/' ∧ pos.peekAfter = some '*' then do
      let pos ← pos.skip_block_comment
      let pos := skip_return pos.skip_whitespace_inline
      if pos.peek = some '\n' ∨ pos.peek = none then .ok (.blank (skip_line_end pos))
      else .ok (.trailing pos)
    else if pos.peek = some '/' ∧ pos.peekAfter = some '/' then
      .ok (.blank (skip_line_end pos.skip_line_comment))
    else if pos.peek = some '\n' ∨ pos.peek = some '\r' then .ok (.blank (skip_line_end pos))
    else .ok (.content pos spaces)

/-- The loop over blank lines.  The number bounds the characters that are left. -/
def line_start_loop (mode : LexerMode) (acc : LexerAcc) : Nat → LexerPos → Except LexerError LexerState
  | 0, pos => .ok (.done (advance_to_done pos mode acc))
  | n + 1, pos => do
      match ← line_head pos with
      | .ended pos => .ok (.done (advance_to_done pos mode acc))
      | .blank pos => line_start_loop mode acc n pos
      | .trailing pos => .ok (.dispatch pos mode acc)
      | .content pos spaces =>
          if mode = .sketch then do
            let acc ← indentation pos spaces acc
            .ok (.dispatch pos mode acc)
          else .ok (.dispatch pos mode acc)

/-! ### Transitions -/

section Machine

variable (alphabet : Alphabet)

/-- What a character in a line does. -/
def dispatch_char (pos : LexerPos) (c : Char) (mode : LexerMode) (acc : LexerAcc) : Except LexerError LexerState :=
  if c = '\n' then
    .ok (.lineStart pos.next mode true ⟨acc.tokens ++ [Token.between .newline pos pos.next], acc.indent_stack⟩)
  else if c = '\\' then
    -- A backslash continues the line.
    let behind := pos.next.skip_whitespace_inline
    if behind.peek = some '\n' then .ok (.lineStart behind.next mode true acc)
    else .error (.unexpectedCharacter '\\' pos.line pos.col)
  else if c = '/' ∧ pos.peekAfter = some '*' then do
    let pos ← pos.skip_block_comment
    .ok (.dispatch pos mode acc)
  else if c = '/' ∧ pos.peekAfter = some '/' then .ok (.lineStart pos.skip_line_comment mode true acc)
  else if c = '#' ∧ pos.peekAfter ≠ some '[' then .ok (.lineStart pos.skip_line_comment mode true acc)
  else do
    let (kind, behind) ← lex_scan_token alphabet c pos
    .ok (.lineStart behind mode false ⟨acc.tokens ++ [Token.between kind pos behind], acc.indent_stack⟩)

namespace LexerState

def new (source : List Char) (mode : LexerMode) : LexerState := .start (LexerPos.new source) mode .new

/-- A byte order mark and a shebang line are passed. -/
def skip_head (pos : LexerPos) : LexerPos :=
  let pos := if pos.peek = some '\uFEFF' then pos.next else pos
  if pos.peek = some '#' ∧ pos.peekAfter = some '!' then pos.skip_line_comment else pos

def transition : LexerState → Except LexerError LexerState
  | .start pos mode acc => .ok (.lineStart (skip_head pos) mode true acc)
  | .lineStart pos mode false acc => .ok (.dispatch pos mode acc)
  | .lineStart pos mode true acc => line_start_loop mode acc pos.chars.length pos
  | .dispatch pos mode acc =>
      let pos := pos.skip_whitespace_inline
      match pos.peek with
      | none => .ok (.done (advance_to_done pos.next mode acc))
      | some c => dispatch_char alphabet pos c mode acc
  | .done acc => .ok (.done acc)

end LexerState

/-- The tokens that some steps of the machine end with, if these steps are enough. -/
def run : Nat → LexerState → Option (Except LexerError (List Token))
  | 0, _ => none
  | n + 1, state =>
      match state.transition alphabet with
      | .error error => some (.error error)
      | .ok (.done acc) => some (.ok acc.tokens)
      | .ok state => run n state

def flow_tokenize (fuel : Nat) (source : List Char) (mode : LexerMode) : Option (Except LexerError (List Token)) :=
  run alphabet fuel (.new source mode)

end Machine

end Mimi.Lexer
