/-
Module: Mimi.Lsp.PositionMap
Purpose: The conversions between byte offsets, positions of an editor (a line and an offset in UTF-16 units)
  and spans of the lexer (a line and a column in characters).
Trusted boundary: human-reviewed translation of `lsp/position_map.rs`; texts are lists of characters, a
  function that may panic gives `none` where it does, and line numbers are below the last machine word
-/
import Mimi.Lib.Coordinates

namespace Mimi.Lsp

open Mimi.Lib

/-- `char::len_utf8`. -/
def len_utf8 (c : Char) : Nat := c.utf8Size

/-- `char::len_utf16`. -/
def len_utf16 (c : Char) : Nat := if c.toNat < 0x10000 then 1 else 2

/-- `str::bytes`. -/
def bytes (text : List Char) : List UInt8 := text.flatMap String.utf8EncodeChar

/-- `str::len`. -/
def len (text : List Char) : Nat := extent len_utf8 text

/-- `str::trim_end_matches`. -/
def trim_end_matches (c : Char) (text : List Char) : List Char := text.rdropWhile (· = c)

/-- The number of bytes in front of a place given in UTF-16 units. -/
def utf16_to_byte (s : List Char) (utf16_offset : Nat) : Nat := convert len_utf16 len_utf8 utf16_offset s 0 0

/-- The number of UTF-16 units in front of a place given in bytes. -/
def byte_to_utf16 (s : List Char) (byte_offset : Nat) : Nat := convert len_utf8 len_utf16 byte_offset s 0 0

def char_to_utf16 (s : List Char) (char_idx : Nat) : Nat := extent len_utf16 (s.take char_idx)

structure PositionMap where
  /-- The byte offset of the start of each line. -/
  line_starts : List Nat
  source : List Char
deriving DecidableEq, Repr

/-- The offsets behind the line feeds of some bytes, the first of which is at an offset. -/
def startsAfter (offset : Nat) (bytes : List UInt8) : List Nat :=
  (bytes.zipIdx offset).filterMap fun (byte, offset) => if byte = 10 then some (offset + 1) else none

namespace PositionMap

def new (source : List Char) : PositionMap := ⟨0 :: startsAfter 0 (bytes source), source⟩

def line_count (map : PositionMap) : Nat := map.line_starts.length

/-- Where the next line starts, or the text ends. -/
def line_end (map : PositionMap) (line : Nat) : Nat := (map.line_starts[line + 1]?).getD (len map.source)

/-- The text between two offsets, without the line ending behind it. -/
def trimmed (map : PositionMap) (start stop : Nat) : Option (List Char) :=
  (Lib.slice len_utf8 map.source (min start (len map.source)) (min stop (len map.source))).map fun text =>
    trim_end_matches '\r' (trim_end_matches '\n' text)

def lsp_to_byte (map : PositionMap) (line character : Nat) : Option Nat := do
  let line_start := (map.line_starts[line]?).getD (len map.source)
  let line_text ← map.trimmed line_start (map.line_end line)
  pure (line_start + utf16_to_byte line_text character)

/-- `partition_point` on the starts of the lines, which are in order. -/
def line_of (map : PositionMap) (byte_offset : Nat) : Nat :=
  (map.line_starts.takeWhile (· ≤ byte_offset)).length - 1

def byte_to_lsp (map : PositionMap) (byte_offset : Nat) : Option (Nat × Nat) := do
  let line := map.line_of byte_offset
  let line_start ← map.line_starts[line]?
  let char_offset := byte_offset - line_start
  let line_text ← map.trimmed line_start (map.line_end line)
  let byte_in_line := min char_offset (len line_text)
  pure (line, byte_to_utf16 line_text byte_in_line)

def line_text (map : PositionMap) (line : Nat) : Option (List Char) :=
  map.trimmed ((map.line_starts[line]?).getD 0) (map.line_end line)

/-- The range of a span: its start and its end, each a line and a character. -/
def span_to_lsp (map : PositionMap) (start_line start_col end_line end_col : Nat) :
    Option ((Nat × Nat) × (Nat × Nat)) := do
  let sl := start_line - 1
  let el := end_line - 1
  let sl_text ← map.line_text sl
  let el_text ← map.line_text el
  let sc := char_to_utf16 sl_text (start_col - 1)
  let ec := char_to_utf16 el_text (end_col - 1)
  pure ((sl, sc), (el, ec))

end PositionMap

end Mimi.Lsp
