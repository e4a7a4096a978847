/-
Module: Mimi.Core.TypeFolder
Purpose: The traversal of types with a folder, and the folders that collect the free inference
  variables, rename them, and substitute named generic parameters.  A folder keeps its state in a
  monad; the one for named parameters walks a replacement again, which takes one unit of fuel.
Trusted boundary: human-reviewed translation of `src/core/type_folder.rs`; the hooks that no modelled
  folder overrides rebuild their node
-/
import Mimi.Core.Type

namespace Mimi.Core

/-- The operations of a folder that differ from rebuilding the node. -/
structure TypeFolder (m : Type → Type) where
  enter_forall : List String → m Unit
  exit_forall : m Unit
  fold_name : String → List Ty → m Ty
  fold_leaf : Ty → m Ty

section Walk

variable {m : Type → Type} [Monad m] (folder : TypeFolder m)

mutual

/-- Walk a type with a folder, applying the folder's operations. -/
def walk_type : Ty → m Ty
  | .located ty => do
      let inner ← walk_type ty
      return .located inner
  | .name n args => do
      let args ← walk_types args
      folder.fold_name n args
  | .tuple elems => do
      let elems ← walk_types elems
      return .tuple elems
  | .result ok err => do
      let ok ← walk_type ok
      let err ← walk_type err
      return .result ok err
  | .func args ret => do
      let args ← walk_types args
      let ret ← walk_type ret
      return .func args ret
  | .externFunc args ret => do
      let args ← walk_types args
      let ret ← walk_type ret
      return .externFunc args ret
  | .ref region inner => do
      let inner ← walk_type inner
      return .ref region inner
  | .refMut region inner => do
      let inner ← walk_type inner
      return .refMut region inner
  | .option inner => do
      let inner ← walk_type inner
      return .option inner
  | .shared inner => do
      let inner ← walk_type inner
      return .shared inner
  | .weak inner => do
      let inner ← walk_type inner
      return .weak inner
  | .rawPtr inner => do
      let inner ← walk_type inner
      return .rawPtr inner
  | .rawPtrMut inner => do
      let inner ← walk_type inner
      return .rawPtrMut inner
  | .cBuffer inner => do
      let inner ← walk_type inner
      return .cBuffer inner
  | .array inner size => do
      let inner ← walk_type inner
      return .array inner size
  | .slice inner => do
      let inner ← walk_type inner
      return .slice inner
  | .newtype n inner => do
      let inner ← walk_type inner
      return .newtype n inner
  | .forAll params inner => do
      folder.enter_forall params
      let inner ← walk_type inner
      folder.exit_forall
      return .forAll params inner
  | .infer => folder.fold_leaf .infer
  | .typeVar id => folder.fold_leaf (.typeVar id)
  | .cap n => folder.fold_leaf (.cap n)
  | .capAtom n => folder.fold_leaf (.capAtom n)
  | .nothing => folder.fold_leaf .nothing
  | .implTrait traits => folder.fold_leaf (.implTrait traits)
  | .dynTrait traits => folder.fold_leaf (.dynTrait traits)
  | .tyErr => folder.fold_leaf .tyErr

def walk_types : List Ty → m (List Ty)
  | [] => return []
  | ty :: tys => do
      let ty ← walk_type ty
      let tys ← walk_types tys
      return ty :: tys

end

end Walk

/-- The variables that a binder of some parameters shadows. -/
def shadowedVars (params : List String) : List Nat := List.range (params.length % 2 ^ 32)

/-- The state of `CollectVarsFolder`. -/
structure CollectVars where
  vars : List Nat
  shadowed : List (List Nat)
deriving DecidableEq, Repr

/-- Collect all variables of a type that no binder shadows. -/
def CollectVarsFolder : TypeFolder (StateM CollectVars) where
  enter_forall params := modify fun s => { s with shadowed := shadowedVars params :: s.shadowed }
  exit_forall := modify fun s => { s with shadowed := s.shadowed.tail }
  fold_name n args := pure (.name n args)
  fold_leaf ty := do
    match ty with
    | .typeVar id =>
        modify fun s =>
          if s.shadowed.any fun scope => scope.contains id then s
          else { s with vars := s.vars ++ [id] }
    | _ => pure ()
    return ty

/-- The free variables of a type, in order, as the folder reports them. -/
def collectVars (ty : Ty) : List Nat := (walk_type CollectVarsFolder ty ⟨[], []⟩).2.vars

/-- Rename variables according to a mapping, those that no binder shadows. -/
def RemapFolder (mapping : Nat → Option Nat) : TypeFolder (StateM (List (List Nat))) where
  enter_forall params := modify fun shadowed => shadowedVars params :: shadowed
  exit_forall := modify List.tail
  fold_name n args := pure (.name n args)
  fold_leaf
    | .typeVar id => do
        let shadowed ← get
        if shadowed.any fun scope => scope.contains id then return .typeVar id
        else
          match mapping id with
          | some new_id => return .typeVar new_id
          | none => return .typeVar id
    | other => return other

def remap (mapping : Nat → Option Nat) (ty : Ty) : Ty := (walk_type (RemapFolder mapping) ty []).1

/-- The state of `NamedSubstitutionFolder`. -/
structure NamedSubstitution where
  shadowed : List (List String)
  /-- The names that are being replaced. -/
  substituting : Finset String

abbrev Substituting := StateT NamedSubstitution Option

namespace NamedSubstitutionFolder

/-- Replace a bare name that is neither shadowed nor being replaced, and walk the replacement. -/
def fold_name (mapping : List (String × Ty)) (again : Ty → Substituting Ty) (n : String)
    (args : List Ty) : Substituting Ty := do
  let s ← get
  if args.isEmpty && !(s.shadowed.any fun scope => scope.contains n) && n ∉ s.substituting then
    match mapping.lookup n with
    | some replacement =>
        set { s with substituting := insert n s.substituting }
        let result ← again replacement
        modify fun s => { s with substituting := s.substituting.erase n }
        return result
    | none => return .name n args
  else return .name n args

/-- Substitute named surface generic parameters while respecting nested binders; the fuel bounds how
deep replacements are walked in one another. -/
def folder (mapping : List (String × Ty)) : Nat → TypeFolder Substituting
  | 0 => {
      enter_forall := fun params => modify fun s => { s with shadowed := params :: s.shadowed }
      exit_forall := modify fun s => { s with shadowed := s.shadowed.tail }
      fold_name := fold_name mapping fun _ => failure
      fold_leaf := pure }
  | fuel + 1 => {
      enter_forall := fun params => modify fun s => { s with shadowed := params :: s.shadowed }
      exit_forall := modify fun s => { s with shadowed := s.shadowed.tail }
      fold_name := fold_name mapping (walk_type (folder mapping fuel))
      fold_leaf := pure }

end NamedSubstitutionFolder

/-- Substitute named parameters, with fuel for replacements within replacements; without enough of it the
walk has not come to an end. -/
def substituteNames (mapping : List (String × Ty)) (fuel : Nat) (ty : Ty) : Option Ty :=
  (walk_type (NamedSubstitutionFolder.folder mapping fuel) ty ⟨[], ∅⟩).map Prod.fst

end Mimi.Core
