/-
Module: Mimi.Core.Ownership
Purpose: Identities, places and the facts of resource analysis: actions on resources, loans and what
  is known of a resource at a point of a control-flow graph.
Trusted boundary: human-reviewed translation of `src/core/ownership.rs`, of `NodeId` and `Origin` in
  `src/core/resolved/mod.rs`, of `Span` in `src/span.rs` and of the constructors of
  `src/diagnostic/mod.rs` that the analysis uses
-/
import Mathlib

namespace Mimi.Core

/-- A character that `trim` removes. -/
def isWhitespace (c : Char) : Bool :=
  let n := c.toNat
  (9 ≤ n && n ≤ 13) || n == 0x20 || n == 0x85 || n == 0xA0 || n == 0x1680
    || (0x2000 ≤ n && n ≤ 0x200A) || n == 0x2028 || n == 0x2029 || n == 0x202F || n == 0x205F
    || n == 0x3000

/-- `trim().is_empty()`. -/
def isBlank (s : String) : Bool := s.toList.all isWhitespace

theorem isStrictTotalOrder_of_name {A : Type} [LT A] (name : A → String)
    (lt : ∀ a b : A, a < b ↔ name a < name b) (injective : ∀ a b, name a = name b → a = b) :
    IsStrictTotalOrder A (· < ·) where
  trichotomous a b notLess notMore := by
    rw [lt] at notLess notMore
    exact injective a b (le_antisymm (not_lt.mp notMore) (not_lt.mp notLess))
  irrefl a less := lt_irrefl _ ((lt a a).mp less)
  trans a b c less less' := (lt a c).mpr (((lt a b).mp less).trans ((lt b c).mp less'))

/-- A semantic identity. -/
structure NodeId where
  val : String
deriving DecidableEq, Repr

instance : LT NodeId := ⟨fun a b => a.val < b.val⟩

instance : DecidableLT NodeId := fun a b => inferInstanceAs (Decidable (a.val < b.val))

structure BasicBlockId where
  node : NodeId
deriving DecidableEq, Repr

instance : LT BasicBlockId := ⟨fun a b => a.node < b.node⟩

instance : DecidableLT BasicBlockId := fun a b => inferInstanceAs (Decidable (a.node < b.node))

instance : IsStrictTotalOrder BasicBlockId (· < ·) :=
  isStrictTotalOrder_of_name (fun id => id.node.val) (fun _ _ => Iff.rfl) fun a b same => by
    obtain ⟨⟨a⟩⟩ := a
    obtain ⟨⟨b⟩⟩ := b
    exact congrArg (fun name => (⟨⟨name⟩⟩ : BasicBlockId)) same

structure EdgeId where
  node : NodeId
deriving DecidableEq, Repr

instance : LT EdgeId := ⟨fun a b => a.node < b.node⟩

instance : DecidableLT EdgeId := fun a b => inferInstanceAs (Decidable (a.node < b.node))

instance : IsStrictTotalOrder EdgeId (· < ·) :=
  isStrictTotalOrder_of_name (fun id => id.node.val) (fun _ _ => Iff.rfl) fun a b same => by
    obtain ⟨⟨a⟩⟩ := a
    obtain ⟨⟨b⟩⟩ := b
    exact congrArg (fun name => (⟨⟨name⟩⟩ : EdgeId)) same

structure LocalId where
  node : NodeId
deriving DecidableEq, Repr

instance : LT LocalId := ⟨fun a b => a.node < b.node⟩

instance : DecidableLT LocalId := fun a b => inferInstanceAs (Decidable (a.node < b.node))

structure ResourceId where
  node : NodeId
deriving DecidableEq, Repr

instance : LT ResourceId := ⟨fun a b => a.node < b.node⟩

instance : DecidableLT ResourceId := fun a b => inferInstanceAs (Decidable (a.node < b.node))

instance : IsStrictTotalOrder ResourceId (· < ·) :=
  isStrictTotalOrder_of_name (fun id => id.node.val) (fun _ _ => Iff.rfl) fun a b same => by
    obtain ⟨⟨a⟩⟩ := a
    obtain ⟨⟨b⟩⟩ := b
    exact congrArg (fun name => (⟨⟨name⟩⟩ : ResourceId)) same

structure LoanId where
  node : NodeId
deriving DecidableEq, Repr

instance : LT LoanId := ⟨fun a b => a.node < b.node⟩

instance : DecidableLT LoanId := fun a b => inferInstanceAs (Decidable (a.node < b.node))

instance : IsStrictTotalOrder LoanId (· < ·) :=
  isStrictTotalOrder_of_name (fun id => id.node.val) (fun _ _ => Iff.rfl) fun a b same => by
    obtain ⟨⟨a⟩⟩ := a
    obtain ⟨⟨b⟩⟩ := b
    exact congrArg (fun name => (⟨⟨name⟩⟩ : LoanId)) same

/-- A range of source text. -/
structure Span where
  sourceId : Nat
  startLine : Nat
  startCol : Nat
  endLine : Nat
  endCol : Nat
deriving DecidableEq, Repr

def Span.unknown : Span := ⟨0, 0, 0, 0, 0⟩

/-- Where a node of the resolved program comes from. -/
inductive Origin where
  | user (span : Span)
  | desugared (parent : NodeId) (rule : String) (span : Span)
  | prototypeFallback (parent : NodeId) (rule : String) (span : Span)
  | runtimeSystem (parent : NodeId) (rule : String) (span : Span)
deriving DecidableEq, Repr

def Origin.userSpan : Origin → Span
  | user span | desugared _ _ span | prototypeFallback _ _ span | runtimeSystem _ _ span => span

/-- An error message of the checker. -/
structure Diagnostic where
  code : Option String
  message : String
  span : Span
  notes : List (String × Span)
  help : Option String
deriving DecidableEq, Repr

namespace Diagnostic

def error (message : String) (span : Span) : Diagnostic := ⟨none, message, span, [], none⟩

def errorCode (code message : String) (span : Span) : Diagnostic :=
  ⟨some code, message, span, [], none⟩

def withNote (d : Diagnostic) (message : String) (span : Span) : Diagnostic :=
  { d with notes := d.notes ++ [(message, span)] }

def withHelp (d : Diagnostic) (message : String) : Diagnostic := { d with help := some message }

end Diagnostic

/-! ### Places -/

inductive IndexProjection where
  | constant (index : Int)
  | dynamic
deriving DecidableEq, Repr

inductive PlaceProjection where
  | field (field : NodeId) (name : String)
  | tuple (index : Nat)
  | index (index : IndexProjection)
  | deref
deriving DecidableEq, Repr

/-- A local and a path into it. -/
structure Place where
  base : LocalId
  baseName : String
  projections : List PlaceProjection
deriving DecidableEq, Repr

namespace Place

def root (base : LocalId) (baseName : String) : Place := ⟨base, baseName, []⟩

/-- Whether two paths below one base overlap: the first step that differs decides. -/
def pathsOverlap : List PlaceProjection → List PlaceProjection → Bool
  | left :: lefts, right :: rights =>
      if left = right then pathsOverlap lefts rights
      else
        match left, right with
        | .field left _, .field right _ => left = right
        | .tuple left, .tuple right => left = right
        | .index (.constant left), .index (.constant right) => left = right
        | .index _, .index _ => true
        | _, _ => true
  | _, _ => true

/-- Whether an access to one place can touch the other.  A dereferenced place overlaps with
everything. -/
def conflictsWith (self other : Place) : Bool :=
  if .deref ∈ self.projections ∨ .deref ∈ other.projections then true
  else if self.base ≠ other.base then false
  else pathsOverlap self.projections other.projections

/-- The spelling of a place for messages. -/
def display (place : Place) : String :=
  place.projections.foldl (fun value projection =>
    match projection with
    | .field _ name => value ++ "." ++ name
    | .tuple index => value ++ "." ++ toString index
    | .index (.constant index) => value ++ "[" ++ toString index ++ "]"
    | .index .dynamic => value ++ "[*]"
    | .deref => "*" ++ value) place.baseName

end Place

/-! ### Actions, loans and facts -/

inductive LoanKind where
  | shared
  | mutable
deriving DecidableEq, Repr

/-- A point of a block, or the edge that leaves the block there. -/
structure CfgLocation where
  block : BasicBlockId
  point : NodeId
  edge : Option EdgeId
deriving DecidableEq, Repr

inductive CanonicalActionKind where
  | read
  | write
  | introduce
  | move
  | drop
  | return_
  | transferSession
  | transferChild
  | borrowShared
  | borrowMut
  | borrowEnd
deriving DecidableEq, Repr

structure CanonicalResourceAction where
  kind : CanonicalActionKind
  resource : ResourceId
  source : Option Place
  target : Option Place
  loan : Option LoanId
  location : CfgLocation
  span : Span
  origin : Origin
deriving DecidableEq, Repr

inductive Availability where
  | available
  | consumed
  | maybeConsumed
deriving DecidableEq, Repr

structure ResourceFact where
  availability : Availability
  owner : Option Place
  introducedSpan : Option Span
deriving DecidableEq, Repr

structure Loan where
  id : LoanId
  parent : Option LoanId
  kind : LoanKind
  place : Place
  reference : Option LocalId
  referenceName : Option String
  start : CfgLocation
  endEdges : List EdgeId
  span : Span
deriving DecidableEq, Repr

end Mimi.Core
