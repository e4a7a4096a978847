/-
Module: Mimi.Component.Abi
Purpose: The serialized component ABI of component/serialize.rs, and the texts that the derived
  `Debug` implementations print for its types.
Trusted boundary: the characters that the standard library prints as they are
-/
import Mimi.Lib.PrefixFree

namespace Mimi.Component

open Mimi.Lib

structure MimiAbiIdentity where
  name : String
  version : String
  abi_version : Nat
deriving Repr, DecidableEq

/-- Serialized type reference. -/
inductive MimiAbiTypeRef where
  | primitive (name : String)
  | named (name : String)
  | pointer (inner : MimiAbiTypeRef)
  | slice (inner : MimiAbiTypeRef)
  | opaque_ (name : String)
  | fatPointer (element : MimiAbiTypeRef) (has_capacity : Bool)
  | void
deriving Repr, DecidableEq

structure MimiAbiParam where
  name : String
  ty : MimiAbiTypeRef
  is_nullable : Bool
deriving Repr, DecidableEq

structure MimiAbiSymbol where
  name : String
  kind : String
  params : List MimiAbiParam
  ret : MimiAbiTypeRef
  effects : List String
  is_unsafe : Bool
  call_conv : String
  callback_category : Option String
deriving Repr, DecidableEq

structure MimiAbiField where
  name : String
  ty : MimiAbiTypeRef
  offset : Option Nat
deriving Repr, DecidableEq

/-- Serialized type definition. -/
inductive MimiAbiType where
  | struct (name : String) (fields : List MimiAbiField) (size align : Option Nat)
  | enum (name : String) (variants : List (String × Int)) (repr : String)
  | alias_ (name : String) (target : MimiAbiTypeRef)
  | opaque_ (name description : String)
deriving Repr, DecidableEq

/-- The serialized `.mimiabi` format. -/
structure MimiAbi where
  format_version : Nat
  identity : MimiAbiIdentity
  exports : List MimiAbiSymbol
  imports : List MimiAbiSymbol
  types : List MimiAbiType
deriving Repr, DecidableEq

/-! ### Debug texts -/

/-- How a string is printed is fixed but for the characters that stand as they are: the printable
ones that extend no grapheme, by the tables of the standard library. -/
structure CharTable where
  plain : Char → Bool

/-- `char::escape_debug_ext` as the `Debug` text of a string uses it. -/
def CharTable.escape (table : CharTable) (c : Char) : List Char :=
  if c = '\x00' then ['\\', '0']
  else if c = '\t' then ['\\', 't']
  else if c = '\r' then ['\\', 'r']
  else if c = '\n' then ['\\', 'n']
  else if c = '\\' then ['\\', '\\']
  else if c = '\"' then ['\\', '\"']
  else if table.plain c then [c]
  else ['\\', 'u', '\x7b'] ++ Nat.toDigits 16 c.toNat ++ ['\x7d']

/-- The letters of a fixed text. -/
def lit (s : String) : List Char := s.toList

section

variable (table : CharTable)

def debugStr (s : String) : List Char := '\"' :: (s.toList.flatMap table.escape ++ ['\"'])

def debugBool (b : Bool) : List Char := lit (if b then "true" else "false")

def debugNat (n : Nat) : List Char := n.repr.toList

def debugInt (n : Int) : List Char := n.repr.toList

def debugOption {α : Type} (print : α → List Char) : Option α → List Char
  | none => lit "None"
  | some a => lit "Some(" ++ print a ++ [')']

def debugList {α : Type} (print : α → List Char) : List α → List Char :=
  bracketed '[' [',', ' '] ']' print

def MimiAbiTypeRef.debug : MimiAbiTypeRef → List Char
  | .primitive name => lit "Primitive(" ++ debugStr table name ++ [')']
  | .named name => lit "Named(" ++ debugStr table name ++ [')']
  | .pointer inner => lit "Pointer(" ++ inner.debug ++ [')']
  | .slice inner => lit "Slice(" ++ inner.debug ++ [')']
  | .opaque_ name => lit "Opaque(" ++ debugStr table name ++ [')']
  | .fatPointer element has_capacity =>
      lit "FatPointer \x7b element: " ++ element.debug ++ lit ", has_capacity: " ++
        debugBool has_capacity ++ lit " \x7d"
  | .void => lit "Void"

def MimiAbiField.debug (field : MimiAbiField) : List Char :=
  lit "MimiAbiField \x7b name: " ++ debugStr table field.name ++ lit ", ty: " ++
    field.ty.debug table ++ lit ", offset: " ++ debugOption debugNat field.offset ++
    lit " \x7d"

def debugVariant (variant : String × Int) : List Char :=
  lit "(" ++ debugStr table variant.1 ++ lit ", " ++ debugInt variant.2 ++ [')']

def MimiAbiType.debug : MimiAbiType → List Char
  | .struct name fields size align =>
      lit "Struct \x7b name: " ++ debugStr table name ++ lit ", fields: " ++
        debugList (MimiAbiField.debug table) fields ++ lit ", size: " ++
        debugOption debugNat size ++ lit ", align: " ++ debugOption debugNat align ++
        lit " \x7d"
  | .enum name variants repr =>
      lit "Enum \x7b name: " ++ debugStr table name ++ lit ", variants: " ++
        debugList (debugVariant table) variants ++ lit ", repr: " ++ debugStr table repr ++
        lit " \x7d"
  | .alias_ name target =>
      lit "Alias \x7b name: " ++ debugStr table name ++ lit ", target: " ++
        target.debug table ++ lit " \x7d"
  | .opaque_ name description =>
      lit "Opaque \x7b name: " ++ debugStr table name ++ lit ", description: " ++
        debugStr table description ++ lit " \x7d"

end

end Mimi.Component
