/-
Module: Mimi.Lib.Spelling
Purpose: Names for the values of a type, with a reader that knows exactly these names, and readers
  that take an unknown name for a default.
Trusted boundary: none
-/
import Mathlib

namespace Mimi.Lib

/-- Every value has a name, and the reader knows the names of the values and no others. -/
structure Spelling (α : Type) where
  text : α → String
  read : String → Option α
  read_text : ∀ a, read (text a) = some a
  text_of_read : ∀ name a, read name = some a → text a = name

namespace Spelling

variable {α : Type} (spelling : Spelling α)

/-- The reader knows the name. -/
def Known (name : String) : Prop :=
  (spelling.read name).isSome = true

/-- An unknown name is read as the default. -/
def readOr (default : α) (name : String) : α :=
  (spelling.read name).getD default

@[simp] theorem known_text (a : α) : spelling.Known (spelling.text a) := by
  rw [Known, spelling.read_text]
  rfl

@[simp] theorem readOr_text (default a : α) : spelling.readOr default (spelling.text a) = a := by
  rw [readOr, spelling.read_text]
  rfl

/-- A known name is the name of what it is read as. -/
theorem text_readOr {default : α} {name : String} (known : spelling.Known name) :
    spelling.text (spelling.readOr default name) = name := by
  obtain ⟨a, reads⟩ := Option.isSome_iff_exists.mp known
  rw [readOr, reads]
  exact spelling.text_of_read name a reads

end Spelling

end Mimi.Lib
