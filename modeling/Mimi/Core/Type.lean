/-
Module: Mimi.Core.Type
Purpose: The surface types of the language, as the parser and the checker share them.  A located
  node keeps only the type under it: its source metadata takes no part in semantic equality and no
  modelled function reads it.
Trusted boundary: human-reviewed translation of `enum Type` in `src/ast.rs`, `fmt_type` in
  `src/core/helpers.rs` and `type_any` in `src/core/type_folder.rs`
-/
import Mathlib

namespace Mimi.Core

/-- A type expression.  `typeVar` is an inference variable of the unification engine. -/
inductive Ty where
  | located (ty : Ty)
  | name (n : String) (args : List Ty)
  | ref (lifetime : Option String) (ty : Ty)
  | refMut (lifetime : Option String) (ty : Ty)
  | option (ty : Ty)
  | result (ok err : Ty)
  | tuple (elems : List Ty)
  | func (params : List Ty) (ret : Ty)
  | externFunc (params : List Ty) (ret : Ty)
  | cBuffer (ty : Ty)
  | cap (n : String)
  | capAtom (n : String)
  | shared (ty : Ty)
  | weak (ty : Ty)
  | newtype (n : String) (ty : Ty)
  | array (ty : Ty) (len : Nat)
  | slice (ty : Ty)
  | implTrait (traits : List String)
  | dynTrait (traits : List String)
  | rawPtr (ty : Ty)
  | rawPtrMut (ty : Ty)
  | nothing
  | infer
  | typeVar (id : Nat)
  | forAll (params : List String) (body : Ty)
  | tyErr
deriving Repr, Inhabited

namespace Ty

/-- Strip the source annotations around a type node. -/
def unlocated : Ty → Ty
  | located ty => ty.unlocated
  | ty => ty

/-- Attach source metadata; an outer annotation is replaced, not nested. -/
def withMeta : Ty → Ty
  | located ty => located ty
  | ty => located ty

mutual

/-- Semantic equality of types, `PartialEq for Type`: source annotations are ignored, lifetimes are
compared. -/
def sameType : Ty → Ty → Bool
  | located a, b => sameType a b
  | name n as, b => match b.unlocated with | name m bs => n == m && sameTypes as bs | _ => false
  | ref l a, b => match b.unlocated with | ref m b => l == m && sameType a b | _ => false
  | refMut l a, b => match b.unlocated with | refMut m b => l == m && sameType a b | _ => false
  | option a, b => match b.unlocated with | option b => sameType a b | _ => false
  | result ok err, b =>
      match b.unlocated with
      | result ok' err' => sameType ok ok' && sameType err err'
      | _ => false
  | tuple as, b => match b.unlocated with | tuple bs => sameTypes as bs | _ => false
  | func as r, b =>
      match b.unlocated with | func bs q => sameTypes as bs && sameType r q | _ => false
  | externFunc as r, b =>
      match b.unlocated with | externFunc bs q => sameTypes as bs && sameType r q | _ => false
  | cBuffer a, b => match b.unlocated with | cBuffer b => sameType a b | _ => false
  | cap n, b => match b.unlocated with | cap m => n == m | _ => false
  | capAtom n, b => match b.unlocated with | capAtom m => n == m | _ => false
  | shared a, b => match b.unlocated with | shared b => sameType a b | _ => false
  | weak a, b => match b.unlocated with | weak b => sameType a b | _ => false
  | newtype n a, b => match b.unlocated with | newtype m b => n == m && sameType a b | _ => false
  | array a n, b => match b.unlocated with | array b m => n == m && sameType a b | _ => false
  | slice a, b => match b.unlocated with | slice b => sameType a b | _ => false
  | implTrait ts, b => match b.unlocated with | implTrait us => ts == us | _ => false
  | dynTrait ts, b => match b.unlocated with | dynTrait us => ts == us | _ => false
  | rawPtr a, b => match b.unlocated with | rawPtr b => sameType a b | _ => false
  | rawPtrMut a, b => match b.unlocated with | rawPtrMut b => sameType a b | _ => false
  | nothing, b => match b.unlocated with | nothing => true | _ => false
  | infer, b => match b.unlocated with | infer => true | _ => false
  | typeVar v, b => match b.unlocated with | typeVar w => v == w | _ => false
  | forAll ps a, b => match b.unlocated with | forAll qs b => ps == qs && sameType a b | _ => false
  | tyErr, b => match b.unlocated with | tyErr => true | _ => false

def sameTypes : List Ty → List Ty → Bool
  | [], [] => true
  | a :: as, b :: bs => sameType a b && sameTypes as bs
  | _, _ => false

end

end Ty

open Ty

mutual

/-- Human-readable form of a type, for messages. -/
def fmtType : Ty → String
  | located ty => fmtType ty
  | name n [] => n
  | name n args => n ++ "<" ++ fmtTypes args ++ ">"
  | ref none inner => "&" ++ fmtType inner
  | ref (some l) inner => "&'" ++ l ++ " " ++ fmtType inner
  | refMut none inner => "&mut " ++ fmtType inner
  | refMut (some l) inner => "&'" ++ l ++ " mut " ++ fmtType inner
  | option inner => "Option<" ++ fmtType inner ++ ">"
  | result ok err => "Result<" ++ fmtType ok ++ ", " ++ fmtType err ++ ">"
  | tuple elems => "(" ++ fmtTypes elems ++ ")"
  | func args ret => "fn(" ++ fmtTypes args ++ ") -> " ++ fmtType ret
  | cap n | capAtom n => "cap " ++ n
  | shared inner => "shared " ++ fmtType inner
  | weak inner => "weak " ++ fmtType inner
  | newtype n inner =>
      match inner.unlocated with
      | newtype _ _ => "newtype " ++ n ++ " " ++ fmtType inner
      | _ => fmtType inner
  | nothing => "nothing"
  | tyErr => "«error»"
  | array inner size => "[" ++ fmtType inner ++ "; " ++ toString size ++ "]"
  | slice inner => "[" ++ fmtType inner ++ "]"
  | implTrait traits => "impl " ++ " + ".intercalate traits
  | dynTrait traits => "dyn " ++ " + ".intercalate traits
  | rawPtr inner => "*" ++ fmtType inner
  | rawPtrMut inner => "*mut " ++ fmtType inner
  | infer => "infer"
  | externFunc args ret => "extern \"C\" fn(" ++ fmtTypes args ++ ") -> " ++ fmtType ret
  | cBuffer inner => "CBuffer<" ++ fmtType inner ++ ">"
  | typeVar id => "?T" ++ toString id
  | forAll params body => "forall " ++ ", ".intercalate params ++ ". " ++ fmtType body

/-- The types of a list, separated by commas. -/
def fmtTypes : List Ty → String
  | [] => ""
  | [ty] => fmtType ty
  | ty :: tys => fmtType ty ++ ", " ++ fmtTypes tys

end

mutual

/-- Whether a node of the type satisfies the predicate. -/
def typeAny (pred : Ty → Bool) : Ty → Bool
  | located ty => pred (located ty) || typeAny pred ty
  | name n args => pred (name n args) || typeAnyList pred args
  | tuple elems => pred (tuple elems) || typeAnyList pred elems
  | result ok err => pred (result ok err) || typeAny pred ok || typeAny pred err
  | func args ret => pred (func args ret) || typeAnyList pred args || typeAny pred ret
  | externFunc args ret => pred (externFunc args ret) || typeAnyList pred args || typeAny pred ret
  | option inner => pred (option inner) || typeAny pred inner
  | ref l inner => pred (ref l inner) || typeAny pred inner
  | refMut l inner => pred (refMut l inner) || typeAny pred inner
  | shared inner => pred (shared inner) || typeAny pred inner
  | weak inner => pred (weak inner) || typeAny pred inner
  | rawPtr inner => pred (rawPtr inner) || typeAny pred inner
  | rawPtrMut inner => pred (rawPtrMut inner) || typeAny pred inner
  | cBuffer inner => pred (cBuffer inner) || typeAny pred inner
  | array inner n => pred (array inner n) || typeAny pred inner
  | slice inner => pred (slice inner) || typeAny pred inner
  | newtype n inner => pred (newtype n inner) || typeAny pred inner
  | forAll params body => pred (forAll params body) || typeAny pred body
  | infer => pred infer
  | typeVar id => pred (typeVar id)
  | cap n => pred (cap n)
  | capAtom n => pred (capAtom n)
  | nothing => pred nothing
  | implTrait traits => pred (implTrait traits)
  | dynTrait traits => pred (dynTrait traits)
  | tyErr => pred tyErr

def typeAnyList (pred : Ty → Bool) : List Ty → Bool
  | [] => false
  | ty :: tys => typeAny pred ty || typeAnyList pred tys

end

end Mimi.Core
