/-
Module: Mimi.Proofs.TypeScopes
Purpose: Types as terms with references and binders.  A reading says which names and variables of a
  type are references, and what a quantifier binds; the traversal with a folder is the traversal of the
  term, when the folder rebuilds what is no reference.
Trusted boundary: none
-/
import Mimi.Core.TypeFolder
import Mimi.Lib.Scoped

namespace Mimi.Core

open Mimi.Lib

/-- What a node of a type has besides its parts. -/
inductive TyLabel where
  | located
  | name (n : String)
  | tuple
  | result
  | func
  | externFunc
  | ref (region : Option String)
  | refMut (region : Option String)
  | option
  | shared
  | weak
  | rawPtr
  | rawPtrMut
  | cBuffer
  | array (size : Nat)
  | slice
  | newtype (n : String)
  | forAll (params : List String)
  | leaf (ty : Ty)

/-- Which bare names and which variables are references, and what a quantifier binds. -/
structure Reading (ν : Type) where
  nameRef : String → Option ν
  varRef : Nat → Option ν
  binds : List String → List ν

namespace Reading

variable {ν : Type} (reading : Reading ν)

mutual

/-- A type as a term. -/
def view : Ty → Scoped ν TyLabel
  | .located ty => .node .located [view ty]
  | .name n [] => (reading.nameRef n).elim (.node (.name n) []) .ref
  | .name n (arg :: args) => .node (.name n) (view arg :: views args)
  | .tuple elems => .node .tuple (views elems)
  | .result ok err => .node .result [view ok, view err]
  | .func args ret => .node .func [.node .tuple (views args), view ret]
  | .externFunc args ret => .node .externFunc [.node .tuple (views args), view ret]
  | .ref region inner => .node (.ref region) [view inner]
  | .refMut region inner => .node (.refMut region) [view inner]
  | .option inner => .node .option [view inner]
  | .shared inner => .node .shared [view inner]
  | .weak inner => .node .weak [view inner]
  | .rawPtr inner => .node .rawPtr [view inner]
  | .rawPtrMut inner => .node .rawPtrMut [view inner]
  | .cBuffer inner => .node .cBuffer [view inner]
  | .array inner size => .node (.array size) [view inner]
  | .slice inner => .node .slice [view inner]
  | .newtype n inner => .node (.newtype n) [view inner]
  | .forAll params inner => .bind (.forAll params) (reading.binds params) (view inner)
  | .typeVar id => (reading.varRef id).elim (.node (.leaf (.typeVar id)) []) .ref
  | .infer => .node (.leaf .infer) []
  | .cap n => .node (.leaf (.cap n)) []
  | .capAtom n => .node (.leaf (.capAtom n)) []
  | .nothing => .node (.leaf .nothing) []
  | .implTrait traits => .node (.leaf (.implTrait traits)) []
  | .dynTrait traits => .node (.leaf (.dynTrait traits)) []
  | .tyErr => .node (.leaf .tyErr) []

def views : List Ty → List (Scoped ν TyLabel)
  | [] => []
  | ty :: tys => view ty :: views tys

end

end Reading

/-- Bare names are references, and a quantifier binds its parameters. -/
def named : Reading String := ⟨some, fun _ => none, id⟩

/-- Variables are references, and a quantifier binds the first ones, as many as it has parameters. -/
def numbered : Reading Nat := ⟨fun _ => none, some, shadowedVars⟩

/-- The type of a node with some parts. -/
def TyLabel.build : TyLabel → List Ty → Ty
  | .located, [ty] => .located ty
  | .name n, args => .name n args
  | .tuple, elems => .tuple elems
  | .result, [ok, err] => .result ok err
  | .func, [.tuple args, ret] => .func args ret
  | .externFunc, [.tuple args, ret] => .externFunc args ret
  | .ref region, [inner] => .ref region inner
  | .refMut region, [inner] => .refMut region inner
  | .option, [inner] => .option inner
  | .shared, [inner] => .shared inner
  | .weak, [inner] => .weak inner
  | .rawPtr, [inner] => .rawPtr inner
  | .rawPtrMut, [inner] => .rawPtrMut inner
  | .cBuffer, [inner] => .cBuffer inner
  | .array size, [inner] => .array inner size
  | .slice, [inner] => .slice inner
  | .newtype n, [inner] => .newtype n inner
  | .forAll params, [inner] => .forAll params inner
  | .leaf ty, _ => ty
  | _, _ => .tyErr

/-- The type that a term is the view of, with bare names for references. -/
def unview : Scoped String TyLabel → Ty
  | .ref x => .name x []
  | .node label parts => label.build (parts.map unview)
  | .bind label _ body => label.build [unview body]

mutual

theorem unview_view : ∀ ty : Ty, unview (named.view ty) = ty
  | .name n [] => by simp [Reading.view, named, unview]
  | .name n (arg :: args) => by
      simp [Reading.view, unview, TyLabel.build, unview_view arg, unview_views args]
  | .tuple elems => by simp [Reading.view, unview, TyLabel.build, unview_views elems]
  | .result ok err => by simp [Reading.view, unview, TyLabel.build, unview_view ok, unview_view err]
  | .func args ret => by
      simp [Reading.view, unview, TyLabel.build, unview_views args, unview_view ret]
  | .externFunc args ret => by
      simp [Reading.view, unview, TyLabel.build, unview_views args, unview_view ret]
  | .located inner | .ref _ inner | .refMut _ inner | .option inner | .shared inner | .weak inner
  | .rawPtr inner | .rawPtrMut inner | .cBuffer inner | .array inner _ | .slice inner
  | .newtype _ inner | .forAll _ inner => by
      simp [Reading.view, unview, TyLabel.build, unview_view inner]
  | .typeVar _ | .infer | .cap _ | .capAtom _ | .nothing | .implTrait _ | .dynTrait _ | .tyErr => by
      simp [Reading.view, named, unview, TyLabel.build]

theorem unview_views : ∀ tys : List Ty, (named.views tys).map unview = tys
  | [] => rfl
  | ty :: tys => by simp [Reading.views, unview_view ty, unview_views tys]

end

/-- Types with one view are one type. -/
theorem view_injective : Function.Injective named.view :=
  Function.LeftInverse.injective unview_view


/-! ### The traversal -/

/-- The folders look for a name in each scope. -/
theorem any_shadowed {α : Type} [DecidableEq α] (shadowed : List (List α)) (x : α) :
    (shadowed.any fun scope => scope.contains x) = decide (x ∈ shadowed.flatten) := by
  rw [Bool.eq_iff_iff, List.any_eq_true, decide_eq_true_eq, List.mem_flatten]
  simp only [List.contains_iff_mem]

section Walk

variable {ν : Type} {m : Type → Type} [Monad m] [LawfulMonad m]

/-- A folder that rebuilds every name and leaf that is no reference, and visits the references. -/
structure Visits (reading : Reading ν) (folder : TypeFolder m) (enter : List ν → m Unit)
    (visit : ν → m (Scoped ν TyLabel)) : Prop where
  enter : ∀ params, folder.enter_forall params = enter (reading.binds params)
  bare : ∀ n, reading.view <$> folder.fold_name n [] =
    (reading.nameRef n).elim (pure (.node (.name n) [])) visit
  name : ∀ n arg args, folder.fold_name n (arg :: args) = pure (.name n (arg :: args))
  var : ∀ id, reading.view <$> folder.fold_leaf (.typeVar id) =
    (reading.varRef id).elim (pure (.node (.leaf (.typeVar id)) [])) visit
  leaf : ∀ ty, (∀ id, ty ≠ .typeVar id) → folder.fold_leaf ty = pure ty

variable {reading : Reading ν} {folder : TypeFolder m} {enter : List ν → m Unit}
  {visit : ν → m (Scoped ν TyLabel)}

mutual

/-- Walking a type with such a folder is traversing its view. -/
theorem walk_type_view (visits : Visits reading folder enter visit) : ∀ ty : Ty,
    reading.view <$> walk_type folder ty =
      (reading.view ty).traverse enter folder.exit_forall visit
  | .name n [] => by
      have bare := visits.bare n
      cases here : reading.nameRef n <;>
        simp [walk_type, walk_types, Reading.view, here, Scoped.traverse, Scoped.traverseAll, bare]
  | .name n (arg :: args) => by
      simp [walk_type, walk_types, Reading.view, Scoped.traverse, Scoped.traverseAll, visits.name,
        ← walk_type_view visits arg, ← walk_types_view visits args]
  | .tuple elems => by
      simp [walk_type, Reading.view, Scoped.traverse, ← walk_types_view visits elems]
  | .result ok err => by
      simp [walk_type, Reading.view, Scoped.traverse, Scoped.traverseAll,
        ← walk_type_view visits ok, ← walk_type_view visits err]
  | .func args ret | .externFunc args ret => by
      simp [walk_type, Reading.view, Scoped.traverse, Scoped.traverseAll,
        ← walk_types_view visits args, ← walk_type_view visits ret]
  | .located inner | .ref _ inner | .refMut _ inner | .option inner | .shared inner | .weak inner
  | .rawPtr inner | .rawPtrMut inner | .cBuffer inner | .array inner _ | .slice inner
  | .newtype _ inner | .forAll _ inner => by
      simp [walk_type, Reading.view, Scoped.traverse, Scoped.traverseAll, visits.enter,
        ← walk_type_view visits inner]
  | .typeVar id => by
      have var := visits.var id
      cases here : reading.varRef id <;>
        simp [walk_type, Reading.view, here, Scoped.traverse, Scoped.traverseAll, var]
  | .infer | .cap _ | .capAtom _ | .nothing | .implTrait _ | .dynTrait _ | .tyErr => by
      simp [walk_type, Reading.view, Scoped.traverse, Scoped.traverseAll, visits.leaf]

theorem walk_types_view (visits : Visits reading folder enter visit) : ∀ tys : List Ty,
    reading.views <$> walk_types folder tys =
      Scoped.traverseAll enter folder.exit_forall visit (reading.views tys)
  | [] => by simp [walk_types, Reading.views, Scoped.traverseAll]
  | ty :: tys => by
      simp [walk_types, Reading.views, Scoped.traverseAll, ← walk_type_view visits ty,
        ← walk_types_view visits tys]

end

end Walk

end Mimi.Core
