/-
Module: Mimi.Lexer.Pos
Purpose: The position of the lexer in a text, how it moves over characters, and the blanks and comments that
  it skips.
Trusted boundary: human-reviewed translation of `LexerPos` in `lexer/flow.rs`; texts are lists of characters
-/
import Mimi.Lexer.Token
import Mimi.Lib.Scanner

namespace Mimi.Lexer

open Mimi.Lib Scanner

structure LexerPos where
  /-- The characters that are left, the peeked one first. -/
  chars : List Char
  line : Nat
  col : Nat
deriving DecidableEq, Repr

namespace LexerPos

def new (source : List Char) : LexerPos := ⟨source, 1, 1⟩

def advance (pos : LexerPos) : LexerPos × Option Char :=
  match pos.chars with
  | [] => (pos, none)
  | ch :: rest =>
      if ch = '\n' then (⟨rest, pos.line + 1, 1⟩, some ch) else (⟨rest, pos.line, pos.col + 1⟩, some ch)

/-- The macro `next!`. -/
def next (pos : LexerPos) : LexerPos := pos.advance.1

def peek (pos : LexerPos) : Option Char := pos.chars.head?

/-- `pos.chars.clone().next()`, the character behind the peeked one. -/
def peekAfter (pos : LexerPos) : Option Char := pos.chars.tail.head?

theorem next_chars (pos : LexerPos) : pos.next.chars = pos.chars.tail := by
  obtain ⟨chars, line, col⟩ := pos
  cases chars with
  | nil => rfl
  | cons c rest =>
      rw [next, advance]
      dsimp only
      split <;> rfl

instance : Cursor LexerPos Char := ⟨LexerPos.chars, LexerPos.next, next_chars⟩

end LexerPos

abbrev Scan (β : Type) := Scanner LexerPos LexerError β

namespace LexerPos

def isBlank (c : Char) : Bool := c = ' ' || c = '\t' || c = '\r'

def skip_whitespace_inline (pos : LexerPos) : LexerPos := (span isBlank pos).2

def skip_line_comment (pos : LexerPos) : LexerPos := (span (fun c => c ≠ '\n') pos).2

def MAX_BLOCK_COMMENT_DEPTH : Nat := 10000

/-- A round of `skip_block_comment`, with the depth of the comments that are open. -/
def block_comment_round (depth : Nat) (c : Char) (_ : LexerPos) : Scan (Nat ⊕ Unit) :=
  match c with
  | '*' => do
      match ← accept (fun c => c = '/') with
      | some _ => if depth = 1 then return .inr () else return .inl (depth - 1)
      | none => return .inl depth
  | '/' => do
      match ← accept (fun c => c = '*') with
      | some _ =>
          if MAX_BLOCK_COMMENT_DEPTH ≤ depth then fail fun pos => .unterminatedBlockComment pos.line pos.col
          else return .inl (depth + 1)
      | none => return .inl depth
  | _ => return .inl depth

/-- The comment behind its first two characters. -/
def skip_block_comment_body : Scan Unit :=
  loop (fun _ _ _ => true) block_comment_round (fun _ => fail fun pos => .unterminatedBlockComment pos.line pos.col) 1

def skip_block_comment (pos : LexerPos) : Except LexerError LexerPos :=
  (skip_block_comment_body pos.next.next).map Prod.snd

/-! ### Moving ahead -/

/-- Line feeds are counted. -/
theorem iterate_next_text (text rest : List Char) (line col : Nat) :
    ∃ col', next^[text.length] ⟨text ++ rest, line, col⟩ = ⟨rest, line + text.count '\n', col'⟩ := by
  induction text generalizing line col with
  | nil => exact ⟨col, rfl⟩
  | cons c text ih =>
      rw [List.length_cons, Function.iterate_succ_apply, List.cons_append]
      by_cases feed : c = '\n'
      · subst feed
        obtain ⟨col', moved⟩ := ih (line + 1) 1
        refine ⟨col', ?_⟩
        rw [List.count_cons_self, Nat.add_comm _ 1, ← Nat.add_assoc]
        exact moved
      · obtain ⟨col', moved⟩ := ih line (col + 1)
        refine ⟨col', ?_⟩
        rw [List.count_cons_of_ne feed, LexerPos.next, advance]
        dsimp only
        rw [if_neg feed]
        exact moved

/-- Other characters are counted as columns. -/
theorem iterate_next_row {row : List Char} (single : '\n' ∉ row) (rest : List Char) (line col : Nat) :
    next^[row.length] ⟨row ++ rest, line, col⟩ = ⟨rest, line, col + row.length⟩ := by
  induction row generalizing col with
  | nil => rfl
  | cons c row ih =>
      obtain ⟨other, single⟩ := not_or.mp (List.mem_cons.not.mp single)
      rw [List.length_cons, Function.iterate_succ_apply, List.cons_append, LexerPos.next, advance]
      dsimp only
      rw [if_neg (Ne.symm other), ih single, Nat.add_assoc, Nat.add_comm 1]

end LexerPos

end Mimi.Lexer
