/-
Module: Mimi.Core.Scheme
Purpose: Polymorphic types with their binders, and their instantiation at fresh variables.
Trusted boundary: human-reviewed translation of `TypeScheme` in `src/core/phase.rs`
-/
import Mimi.Core.TypeFolder
import Mimi.Core.Unification

namespace Mimi.Core

/-- A polymorphic type stored separately from monotypes. -/
structure TypeScheme where
  binders : List Nat
  body : Ty

namespace TypeScheme

/-- A scheme binds every free variable of its body. -/
def new (binders : List Nat) (body : Ty) : Except ResolveError TypeScheme :=
  match (collectVars body).find? fun variable_ => !binders.contains variable_ with
  | some unbound => .error (.unboundVar unbound)
  | none => .ok ⟨binders, body⟩

/-- A fresh variable for each binder, in order. -/
def freshBinders : List Nat → Table → Option (List (Nat × Nat) × Table)
  | [], s => some ([], s)
  | binder :: binders, s => do
      let (id, s) ← s.freshVar
      let (pairs, s) ← freshBinders binders s
      return ((binder, id) :: pairs, s)

/-- The map that some pairs make; of two with one key the later one counts. -/
def mapping (pairs : List (Nat × Nat)) (variable_ : Nat) : Option Nat := pairs.reverse.lookup variable_

/-- Running out of variables is a panic. -/
def instantiate (scheme : TypeScheme) (s : Table) : Option (Ty × Table) := do
  let (pairs, s) ← freshBinders scheme.binders s
  return (remap (mapping pairs) scheme.body, s)

end TypeScheme

end Mimi.Core
