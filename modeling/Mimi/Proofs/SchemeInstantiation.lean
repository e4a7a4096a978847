/-
Module: Mimi.Proofs.SchemeInstantiation
Purpose: What instantiating a type scheme gives.  The fresh variables take the places of the binders; a
  quantifier inside the body binds the first variables by their numbers, so a fresh variable that is one
  of these is captured.
Trusted boundary: none
-/
import Mimi.Core.Scheme
import Mimi.Proofs.TypeScopes
import Mimi.Proofs.InferenceAtomicity

namespace Mimi.Core

open Mimi.Lib
open Mimi.Lib.Scoped (occs occsAll free graft graftAll nameless)

/-! ### The folders on terms -/

def collectEnter (xs : List Nat) : StateM CollectVars Unit :=
  modify fun s => { s with shadowed := xs :: s.shadowed }

def collectVisit (id : Nat) : StateM CollectVars (Scoped Nat TyLabel) := do
  modify fun s =>
    if s.shadowed.any fun scope => scope.contains id then s else { s with vars := s.vars ++ [id] }
  return .ref id

theorem collect_visits : Visits numbered CollectVarsFolder collectEnter collectVisit where
  enter _ := rfl
  bare _ := rfl
  name _ _ _ := rfl
  var _ := rfl
  leaf ty other := by
    cases ty <;> first | rfl | exact absurd rfl (other _)

theorem traverse_collect (t : Scoped Nat TyLabel) (s : CollectVars) :
    t.traverse collectEnter CollectVarsFolder.exit_forall collectVisit s =
      (t, { s with vars := s.vars ++ free s.shadowed.flatten t }) := by
  induction t generalizing s with
  | ref id =>
      have visited : collectVisit id s = (.ref id, if (s.shadowed.any fun scope => scope.contains id) then s
          else { s with vars := s.vars ++ [id] }) := rfl
      rw [Scoped.traverse, free, occs, visited, any_shadowed]
      by_cases bound : id ∈ s.shadowed.flatten <;> simp [bound]
  | node label parts ih =>
      have all : Scoped.traverseAll collectEnter CollectVarsFolder.exit_forall collectVisit parts s =
          (parts, { s with vars := s.vars ++ (occsAll s.shadowed.flatten parts).map Prod.fst }) := by
        induction parts generalizing s with
        | nil => simp [Scoped.traverseAll, occsAll, pure, StateT.pure]
        | cons part parts rest =>
            have here := ih part List.mem_cons_self s
            have there := rest (fun part inside => ih part (List.mem_cons_of_mem _ inside))
            simp only [Scoped.traverseAll, bind, StateT.bind, here, there, pure, StateT.pure, occsAll,
              List.map_append, free, List.append_assoc]
      rw [Scoped.traverse, free, occs]
      simp only [bind, StateT.bind, all, pure, StateT.pure]
  | bind label xs body ih =>
      have inner := ih { s with shadowed := xs :: s.shadowed }
      have opened : collectEnter xs s = ((), { s with shadowed := xs :: s.shadowed }) := rfl
      rw [Scoped.traverse, free, occs]
      simp only [Bind.bind, StateT.bind, opened, inner, pure, StateT.pure]
      rfl

theorem collectVars_eq (ty : Ty) : collectVars ty = free [] (numbered.view ty) := by
  have walked := congrFun (walk_type_view collect_visits ty) ⟨[], []⟩
  rw [traverse_collect] at walked
  have ends := congrArg (fun r : Scoped Nat TyLabel × CollectVars => r.2.vars) walked
  exact ends.trans (List.nil_append _)

def remapEnter (xs : List Nat) : StateM (List (List Nat)) Unit := modify fun shadowed => xs :: shadowed

def remapVisit (mapping : Nat → Option Nat) (id : Nat) :
    StateM (List (List Nat)) (Scoped Nat TyLabel) := do
  let shadowed ← get
  return .ref (if shadowed.any fun scope => scope.contains id then id else (mapping id).getD id)

theorem remap_visits (mapping : Nat → Option Nat) :
    Visits numbered (RemapFolder mapping) remapEnter (remapVisit mapping) where
  enter _ := rfl
  bare _ := rfl
  name _ _ _ := rfl
  var id := by
    funext shadowed
    have folded : (RemapFolder mapping).fold_leaf (.typeVar id) shadowed =
        (.typeVar (if shadowed.any fun scope => scope.contains id then id
          else (mapping id).getD id), shadowed) := by
      simp only [RemapFolder, bind, StateT.bind, get, getThe, MonadStateOf.get, StateT.get, pure]
      split_ifs with bound
      · rfl
      · cases mapping id <;> rfl
    have viewed : (numbered.view <$> (RemapFolder mapping).fold_leaf (.typeVar id)) shadowed =
        (numbered.view ((RemapFolder mapping).fold_leaf (.typeVar id) shadowed).1,
          ((RemapFolder mapping).fold_leaf (.typeVar id) shadowed).2) := rfl
    rw [viewed, folded]
    rfl
  leaf ty other := by
    cases ty <;> first | rfl | exact absurd rfl (other _)

/-- Renaming is a graft of references. -/
theorem traverse_remap (mapping : Nat → Option Nat) (t : Scoped Nat TyLabel)
    (shadowed : List (List Nat)) : ∃ r,
      t.traverse remapEnter (RemapFolder mapping).exit_forall (remapVisit mapping) shadowed =
        (r, shadowed) ∧
      graft (fun _ x => some (.ref ((mapping x).getD x))) shadowed.flatten t = some r := by
  induction t generalizing shadowed with
  | ref id =>
      have visited : remapVisit mapping id shadowed =
          (.ref (if shadowed.any fun scope => scope.contains id then id else (mapping id).getD id),
            shadowed) := rfl
      refine ⟨_, by rw [Scoped.traverse, visited], ?_⟩
      rw [graft, any_shadowed]
      by_cases bound : id ∈ shadowed.flatten <;> simp [bound]
  | node label parts ih =>
      have all : ∃ rs,
          Scoped.traverseAll remapEnter (RemapFolder mapping).exit_forall (remapVisit mapping) parts
            shadowed = (rs, shadowed) ∧
          graftAll (fun _ x => some (.ref ((mapping x).getD x))) shadowed.flatten parts = some rs := by
        induction parts with
        | nil => exact ⟨[], rfl, rfl⟩
        | cons part parts rest =>
            obtain ⟨r, here, grafted⟩ := ih part List.mem_cons_self shadowed
            obtain ⟨rs, there, graftedAll⟩ := rest fun part inside => ih part (List.mem_cons_of_mem _ inside)
            refine ⟨r :: rs, ?_, ?_⟩
            · simp only [Scoped.traverseAll, bind, StateT.bind, here, there, pure, StateT.pure]
            · rw [graftAll, grafted, graftedAll]
              rfl
      obtain ⟨rs, walked, grafted⟩ := all
      refine ⟨.node label rs, ?_, ?_⟩
      · simp only [Scoped.traverse, bind, StateT.bind, walked, pure, StateT.pure]
      · rw [graft, grafted]
        rfl
  | bind label xs body ih =>
      obtain ⟨r, walked, grafted⟩ := ih (xs :: shadowed)
      have opened : remapEnter xs shadowed = ((), xs :: shadowed) := rfl
      have closed : (RemapFolder mapping).exit_forall (xs :: shadowed) = ((), shadowed) := rfl
      refine ⟨.bind label xs r, ?_, ?_⟩
      · simp only [Scoped.traverse, Bind.bind, StateT.bind, opened, walked, closed, Pure.pure, StateT.pure]
      · rw [graft, ← List.flatten_cons, grafted]
        rfl

theorem remap_graft (mapping : Nat → Option Nat) (ty : Ty) :
    graft (fun _ x => some (.ref ((mapping x).getD x))) [] (numbered.view ty) =
      some (numbered.view (remap mapping ty)) := by
  have walked := congrFun (walk_type_view (remap_visits mapping) ty) []
  obtain ⟨r, traversed, grafted⟩ := traverse_remap mapping (numbered.view ty) []
  have ends := congrArg Prod.fst (walked.trans traversed)
  exact grafted.trans (congrArg some ends.symm)

/-! ### Fresh variables -/

/-- The variable that a variable is renamed to: that of the last binder it is. -/
def image (scheme : TypeScheme) (s : Table) (v : Nat) : Nat :=
  (TypeScheme.mapping (scheme.binders.zip (List.range' s.nextVar scheme.binders.length)) v).getD v

theorem nextVar_setParent (s : Table) (id parent : Nat) :
    (s.setParent id parent).nextVar = s.nextVar := by
  rw [Table.setParent]
  split
  · rfl
  · rw [Table.record]
    split <;> rfl

theorem nextVar_setBinding (s : Table) (id : Nat) (ty : Ty) :
    (s.setBinding id ty).nextVar = s.nextVar := by
  rw [Table.setBinding]
  split
  · rfl
  · rw [Table.record]
    split <;> rfl

variable {s s' : Table}

theorem freshVar_eq {id : Nat} (fresh : s.freshVar = some (id, s')) :
    id = s.nextVar ∧ s'.nextVar = s.nextVar + 1 := by
  rw [Table.freshVar] at fresh
  split at fresh
  · obtain ⟨rfl, rfl⟩ := Prod.mk.inj (Option.some.inj fresh)
    exact ⟨rfl, nextVar_setParent _ _ _⟩
  · cases fresh

variable {binders : List Nat}

theorem freshBinders_eq {pairs : List (Nat × Nat)} (fresh : TypeScheme.freshBinders binders s = some (pairs, s')) :
    pairs = binders.zip (List.range' s.nextVar binders.length) ∧
      s'.nextVar = s.nextVar + binders.length := by
  induction binders generalizing s pairs with
  | nil =>
      obtain ⟨rfl, rfl⟩ := Prod.mk.inj (Option.some.inj fresh)
      exact ⟨rfl, rfl⟩
  | cons binder binders ih =>
      rw [TypeScheme.freshBinders, Option.bind_eq_bind, Option.bind_eq_some_iff] at fresh
      obtain ⟨⟨id, s₁⟩, first, fresh⟩ := fresh
      rw [Option.bind_eq_bind, Option.bind_eq_some_iff] at fresh
      obtain ⟨⟨rest, s₂⟩, others, fresh⟩ := fresh
      obtain ⟨rfl, rfl⟩ := Prod.mk.inj (Option.some.inj fresh)
      obtain ⟨rfl, next⟩ := freshVar_eq first
      obtain ⟨rfl, last⟩ := ih others
      rw [next] at last ⊢
      refine ⟨?_, by rw [last, List.length_cons]; omega⟩
      rw [List.length_cons, List.range'_succ, List.zip_cons_cons]

variable {scheme : TypeScheme}

theorem instantiate_eq {ty : Ty} (made : scheme.instantiate s = some (ty, s')) :
    ∃ pairs, TypeScheme.freshBinders scheme.binders s = some (pairs, s') ∧
      ty = remap (TypeScheme.mapping pairs) scheme.body ∧
      pairs = scheme.binders.zip (List.range' s.nextVar scheme.binders.length) ∧
      s'.nextVar = s.nextVar + scheme.binders.length := by
  rw [TypeScheme.instantiate, Option.bind_eq_bind, Option.bind_eq_some_iff] at made
  obtain ⟨⟨pairs, s₁⟩, fresh, made⟩ := made
  obtain ⟨rfl, rfl⟩ := Prod.mk.inj (Option.some.inj made)
  exact ⟨pairs, fresh, rfl, freshBinders_eq fresh⟩

/-- A binder and its image have been paired. -/
theorem image_mem {v : Nat} (s : Table) (bound : v ∈ scheme.binders) :
    (v, image scheme s v) ∈ scheme.binders.zip (List.range' s.nextVar scheme.binders.length) := by
  obtain ⟨i, at_, rfl⟩ := List.mem_iff_getElem.mp bound
  have paired : (scheme.binders[i], s.nextVar + i) ∈
      scheme.binders.zip (List.range' s.nextVar scheme.binders.length) := by
    refine List.mem_iff_getElem.mpr ⟨i, ?_, ?_⟩
    · rw [List.length_zip, List.length_range', Nat.min_self]
      exact at_
    · rw [List.getElem_zip, List.getElem_range', Nat.one_mul]
  have known : ((scheme.binders.zip (List.range' s.nextVar scheme.binders.length)).reverse.lookup
      scheme.binders[i]).isSome :=
    List.lookup_isSome_iff.mpr ⟨_, List.mem_reverse.mpr paired, beq_self_eq_true _⟩
  obtain ⟨id, is⟩ := Option.isSome_iff_exists.mp known
  rw [image, TypeScheme.mapping, is]
  obtain ⟨before, after, split, -⟩ := List.lookup_eq_some_iff.mp is
  refine List.mem_reverse.mp ?_
  rw [split]
  exact List.mem_append_right _ List.mem_cons_self

theorem image_fresh {v : Nat} (s : Table) (bound : v ∈ scheme.binders) :
    s.nextVar ≤ image scheme s v ∧ image scheme s v < s.nextVar + scheme.binders.length := by
  have inside := (List.of_mem_zip (image_mem s bound)).2
  rw [List.mem_range'_1] at inside
  exact inside

theorem image_injOn (scheme : TypeScheme) (s : Table) :
    Set.InjOn (image scheme s) {v | v ∈ scheme.binders} := by
  intro v bound w bound' same
  obtain ⟨i, at_, is⟩ := List.mem_iff_getElem.mp (image_mem s bound)
  obtain ⟨j, at', is'⟩ := List.mem_iff_getElem.mp (image_mem s bound')
  rw [List.getElem_zip, Prod.mk.injEq, List.getElem_range', Nat.one_mul] at is is'
  have position : i = j := by omega
  subst position
  exact is.1.symm.trans is'.1

theorem mem_collectVars {body : Ty} (built : TypeScheme.new binders body = .ok scheme) {v : Nat}
    (free_ : v ∈ collectVars scheme.body) : v ∈ scheme.binders := by
  rw [TypeScheme.new] at built
  split at built
  · cases built
  · rename_i none_
    obtain rfl := Except.ok.inj built
    have known := List.find?_eq_none.mp none_ v free_
    simpa using known

/-! ### Later tables -/

/-- The tables that are reached from a table without giving back one of its variables: a transaction
around several operations is closed again, whether it fails or not. -/
inductive Later : Table → Table → Prop where
  | here (s : Table) : Later s s
  | note {s s₁ : Table} (h : Later s s₁) (outside : s₁.transactionDepth = 0) (name : String) :
      Later s (s₁.noteLinearTypeName name)
  | freshVar {s s₁ s₂ : Table} {id : Nat} (h : Later s s₁) (fresh : s₁.freshVar = some (id, s₂)) :
      Later s s₂
  | find {s s₁ s₂ : Table} {fuel id : Nat} {r : Except ResolveError Nat} (h : Later s s₁)
      (found : Table.find fuel id s₁ = some (r, s₂)) : Later s s₂
  | resolve {s s₁ s₂ : Table} {fuel : Nat} {ty : Ty} {r : Except ResolveError Ty} (h : Later s s₁)
      (resolved : resolveInfer fuel ty s₁ = some (r, s₂)) : Later s s₂
  | zonk {s s₁ s₂ : Table} {fuel : Nat} {ty : Ty} {r : Except ResolveError Ty} (h : Later s s₁)
      (zonked : zonk fuel ty s₁ = some (r, s₂)) : Later s s₂
  | constrain {s s₁ s₂ : Table} {fuel : Nat} {a b : Ty} {r : Except UnifyError Unit} (h : Later s s₁)
      (result : constrain fuel a b s₁ = some (r, s₂)) : Later s s₂
  | unifyInference {s s₁ s₂ : Table} {fuel : Nat} {a b : Ty} {r : Except UnifyError Unit}
      (h : Later s s₁) (result : unifyInference fuel a b s₁ = some (r, s₂)) : Later s s₂
  | probe {s s₁ s₂ : Table} {fuel : Nat} {a b : Ty} {compatible : Bool} (h : Later s s₁)
      (result : probeCompatible fuel a b s₁ = some (compatible, s₂)) : Later s s₂
  | transaction {s s₁ s₂ : Table} (h : Later s s₁) (inside : Later s₁.enter s₂) (failed : Bool) :
      Later s (s₂.leave s₁.trail.length failed)

/-- What holds between a table and a later one. -/
structure Onward (s s' : Table) : Prop where
  at_ : s'.At s.transactionDepth
  logged : 0 < s.transactionDepth → Table.Extends s s'
  grows : s.nextVar ≤ s'.nextVar

theorem Onward.step {s₁ s₂ : Table} (h : Onward s s₁) (at_ : s₂.At s₁.transactionDepth)
    (logged : 0 < s₁.transactionDepth → Table.Extends s₁ s₂) (grows : s₁.nextVar ≤ s₂.nextVar) :
    Onward s s₂ :=
  ⟨h.at_.1 ▸ at_, fun isOpen => (h.logged isOpen).trans (logged (h.at_.1.symm ▸ isOpen)),
    h.grows.trans grows⟩

/-- Single writes give back no variable. -/
theorem nextVar_resolve (n fuel : Nat) (ty : Ty) :
    Run.Keeps (fun s : Table => n ≤ s.nextVar) (resolveInfer fuel ty) (fun _ => True) fun _ => True :=
  resolveWithDepth_keeps (fun s id parent h => by rw [nextVar_setParent]; exact h)
    (fun s id ty h => by rw [nextVar_setBinding]; exact h) fuel _ [] ty

theorem nextVar_unify (n fuel : Nat) (a b : Ty) :
    Run.Keeps (fun s : Table => n ≤ s.nextVar) (unifyInferenceInner fuel a b) (fun _ => True)
      fun _ => True :=
  unifyInferenceInner_keeps (fun s id parent h => by rw [nextVar_setParent]; exact h)
    (fun s id ty h => by rw [nextVar_setBinding]; exact h) fuel a b

theorem Later.onward (later : Later s s') (settled : s.Settled) : Onward s s' := by
  have store (n : Nat) (s s' : Table) (same : s'.toStore = s.toStore) (h : n ≤ s.nextVar) :
      n ≤ s'.nextVar := by rw [same]; exact h
  induction later with
  | here s => exact ⟨⟨rfl, settled⟩, fun _ => .refl s, le_rfl⟩
  | @note s s₁ _ outside name ih =>
      have before := ih settled
      have depth : s.transactionDepth = 0 := before.at_.1.symm.trans outside
      exact ⟨⟨before.at_.1, before.at_.2⟩, fun isOpen => absurd depth isOpen.ne', before.grows⟩
  | @freshVar s s₁ s₂ id _ fresh ih =>
      have before := ih settled
      refine before.step (Table.At.freshVar ⟨rfl, before.at_.2⟩ fresh)
        (fun isOpen => Table.extends_freshVar isOpen fresh) ?_
      rw [(freshVar_eq fresh).2]
      exact Nat.le_succ _
  | @find s s₁ s₂ fuel id r _ found ih =>
      have before := ih settled
      have at_ : s₁.At s₁.transactionDepth := ⟨rfl, before.at_.2⟩
      refine before.step ?_ (fun isOpen => ?_) ?_
      · exact (find_keeps (I := Table.At s₁.transactionDepth) (fun _ _ _ h => h.setParent _ _) fuel id s₁
          at_ _ _ found).1
      · exact (find_keeps (fun _ _ _ h => h.trans (Table.extends_setParent (h.depth ▸ isOpen) _ _)) fuel
          id s₁ (Table.Extends.refl s₁) _ _ found).1
      · exact (find_keeps (I := fun s => s₁.nextVar ≤ s.nextVar)
          (fun s id parent h => by rw [nextVar_setParent]; exact h) fuel id s₁ le_rfl _ _ found).1
  | @resolve s s₁ s₂ fuel ty r _ resolved ih =>
      have before := ih settled
      exact before.step (Table.At.resolveInfer fuel ty s₁ ⟨rfl, before.at_.2⟩ _ _ resolved).1
        (fun isOpen => (Table.resolveInfer_extends isOpen fuel ty s₁ (.refl s₁) _ _ resolved).1)
        (nextVar_resolve _ fuel ty s₁ le_rfl _ _ resolved).1
  | @zonk s s₁ s₂ fuel ty r _ zonked ih =>
      have before := ih settled
      exact before.step
        (zonk_keeps (Table.At.resolveInfer fuel ty) s₁ ⟨rfl, before.at_.2⟩ _ _ zonked).1
        (fun isOpen =>
          (zonk_keeps (Table.resolveInfer_extends isOpen fuel ty) s₁ (.refl s₁) _ _ zonked).1)
        (zonk_keeps (nextVar_resolve _ fuel ty) s₁ le_rfl _ _ zonked).1
  | @constrain s s₁ s₂ fuel a b r _ result ih =>
      have before := ih settled
      have atomic := Table.atomic_constrain before.at_.2 result
      exact before.step atomic.returned atomic.logged
        (Table.constrain_keeps (store s₁.nextVar) (nextVar_unify _) (nextVar_resolve _) before.at_.2 le_rfl
          result)
  | @unifyInference s s₁ s₂ fuel a b r _ result ih =>
      have before := ih settled
      have atomic := Table.atomic_unifyInference before.at_.2 result
      exact before.step atomic.returned atomic.logged
        (Table.unifyInference_keeps (store s₁.nextVar) (nextVar_unify _) before.at_.2 le_rfl result)
  | probe _ result ih =>
      have before := ih settled
      exact Table.probeCompatible_restores before.at_.2 result ▸ before
  | @transaction s s₁ s₂ _ _ failed ih inner =>
      have before := ih settled
      have isOpen : 0 < s₁.enter.transactionDepth := Nat.succ_pos _
      have within := inner fun closed => absurd closed isOpen.ne'
      have logged := within.logged isOpen
      cases failed with
      | true =>
          rw [Table.leave_failed before.at_.2 logged]
          exact before
      | false =>
          refine before.step ⟨?_, Table.settled_leave _ _ _⟩ (fun isOpen => logged.leave isOpen) ?_
          · rw [Table.transactionDepth_leave, within.at_.1]
            rfl
          · exact store _ _ _ (Table.toStore_leave _ _) within.grows

/-! ### Instantiation -/

/-- What instantiating a scheme promises: the free variables are the images of those of the body, the
images have just been allocated and are different for different binders, nothing else of the body has
changed, and no later instantiation has one of the variables. -/
structure Exact (scheme : TypeScheme) (s : Table) (ty : Ty) (s' : Table) : Prop where
  allocated : ∃ pairs, TypeScheme.freshBinders scheme.binders s = some (pairs, s') ∧
    ∀ v, image scheme s v = (TypeScheme.mapping pairs v).getD v
  fresh : ∀ v ∈ scheme.binders, s.nextVar ≤ image scheme s v ∧ image scheme s v < s'.nextVar
  distinct : Set.InjOn (image scheme s) {v | v ∈ scheme.binders}
  vars : collectVars ty = (collectVars scheme.body).map (image scheme s)
  unchanged : nameless [] (numbered.view ty) =
    (nameless [] (numbered.view scheme.body)).subst fun v => .free (image scheme s v)
  apart : ∀ binders body other, TypeScheme.new binders body = .ok other → ∀ s₁, Later s' s₁ →
    ∀ ty₁ s₂, other.instantiate s₁ = some (ty₁, s₂) → (collectVars ty).Disjoint (collectVars ty₁)

/-- No image of a free variable is one that a quantifier around the variable binds. -/
def Spared (scheme : TypeScheme) (s : Table) : Prop :=
  ∀ o ∈ occs [] (numbered.view scheme.body), image scheme s o.1 ∉ o.2

instance (scheme : TypeScheme) (s : Table) : Decidable (Spared scheme s) :=
  inferInstanceAs (Decidable (∀ o ∈ occs [] (numbered.view scheme.body), image scheme s o.1 ∉ o.2))

/-- Captured or not, the free variables of an instantiation are images. -/
theorem collectVars_instantiate {body : Ty} (built : TypeScheme.new binders body = .ok scheme) {ty : Ty}
    (made : scheme.instantiate s = some (ty, s')) {x : Nat} (free_ : x ∈ collectVars ty) :
    s.nextVar ≤ x ∧ x < s'.nextVar := by
  obtain ⟨pairs, -, rfl, rfl, next⟩ := instantiate_eq made
  rw [collectVars_eq] at free_
  obtain ⟨o, member, u, put, met⟩ := Scoped.mem_free_graft (remap_graft _ scheme.body) free_
  obtain rfl := Option.some.inj put
  obtain ⟨place, met⟩ := Scoped.mem_free.mp met
  rw [occs] at met
  split_ifs at met with bound
  · cases met
  · obtain ⟨rfl, -⟩ := Prod.mk.inj (List.mem_singleton.mp met)
    rw [next]
    refine image_fresh s (mem_collectVars built ?_)
    rw [collectVars_eq]
    exact List.mem_map_of_mem member

/-- An instantiation keeps its promise exactly when no image is captured. -/
theorem exact_iff {body : Ty} (built : TypeScheme.new binders body = .ok scheme) (settled : s'.Settled) {ty : Ty}
    (made : scheme.instantiate s = some (ty, s')) : Exact scheme s ty s' ↔ Spared scheme s := by
  obtain ⟨pairs, allocated, is, rfl, next⟩ := instantiate_eq made
  have grafted : graft (fun _ x => some (.ref (image scheme s x))) [] (numbered.view scheme.body) =
      some (numbered.view ty) := is ▸ remap_graft _ scheme.body
  have unchanged := Scoped.graft_nameless_iff (R := fun v => .free (image scheme s v))
    (fun _ _ same => by cases same) [] grafted
  have spared : Spared scheme s ↔ nameless [] (numbered.view ty) =
      (nameless [] (numbered.view scheme.body)).subst fun v => .free (image scheme s v) := by
    refine Iff.trans (forall₂_congr fun o _ => ?_) unchanged.symm
    simp only [List.append_nil, List.not_mem_nil, not_false_eq_true, true_and, Option.some.injEq,
      forall_eq', nameless]
    split_ifs with bound
    · exact iff_of_false (absurd bound) fun same => by cases same
    · exact iff_of_true bound rfl
  refine ⟨fun exact_ => spared.mpr exact_.unchanged, fun spared_ => ?_⟩
  have structure_ := spared.mp spared_
  refine ⟨⟨_, allocated, fun _ => rfl⟩, fun v bound => next ▸ image_fresh s bound, image_injOn scheme s,
    ?_, structure_, ?_⟩
  · rw [collectVars_eq, ← Scoped.names_nameless, structure_, Scoped.names_rename, collectVars_eq]
  · intro binders' body' other built' s₁ later ty₁ s₂ made' x here there
    have first := collectVars_instantiate built made here
    have second := collectVars_instantiate built' made' there
    have grows := (later.onward settled).grows
    omega

/-- The table has an identifier left for each binder. -/
def HasRoom (scheme : TypeScheme) (s : Table) : Prop := s.nextVar + scheme.binders.length < 2 ^ 32

instance (scheme : TypeScheme) (s : Table) : Decidable (HasRoom scheme s) :=
  inferInstanceAs (Decidable (s.nextVar + scheme.binders.length < 2 ^ 32))

theorem nextVar_freshVar_lt {id : Nat} (fresh : s.freshVar = some (id, s')) :
    s'.nextVar < 2 ^ 32 := by
  rw [(freshVar_eq fresh).2]
  rw [Table.freshVar] at fresh
  split at fresh
  · assumption
  · cases fresh

theorem storeInvariant_nextVar_lt : StoreInvariant fun s => s.nextVar < 2 ^ 32 where
  new := by decide
  store s s' same h := by rw [same]; exact h
  freshVar s id s' fresh _ := nextVar_freshVar_lt fresh
  find fuel id := find_keeps (fun s id parent h => by rw [nextVar_setParent]; exact h) fuel id
  resolve fuel ty := resolveWithDepth_keeps (fun s id parent h => by rw [nextVar_setParent]; exact h)
    (fun s id ty h => by rw [nextVar_setBinding]; exact h) fuel _ [] ty
  unify fuel a b := unifyInferenceInner_keeps (fun s id parent h => by rw [nextVar_setParent]; exact h)
    (fun s id ty h => by rw [nextVar_setBinding]; exact h) fuel a b

theorem freshBinders_isSome
    (room : s.nextVar + binders.length < 2 ^ 32) : (TypeScheme.freshBinders binders s).isSome := by
  induction binders generalizing s with
  | nil => rfl
  | cons binder binders ih =>
      rw [List.length_cons] at room
      obtain ⟨⟨id, s₁⟩, fresh⟩ : ∃ r, s.freshVar = some r := by
        rw [Table.freshVar]
        exact ⟨_, if_pos (by omega)⟩
      have next := (freshVar_eq fresh).2
      obtain ⟨⟨pairs, s₂⟩, rest⟩ := Option.isSome_iff_exists.mp (@ih s₁ (by omega))
      rw [TypeScheme.freshBinders, fresh]
      simp only [Option.bind_eq_bind, Option.bind_some, rest]
      rfl

theorem Reach.freshBinders {open_ binders : List Nat} {s s' : Table} {pairs : List (Nat × Nat)}
    (reach : Reach open_ s) (fresh : TypeScheme.freshBinders binders s = some (pairs, s')) :
    Reach open_ s' := by
  induction binders generalizing s pairs with
  | nil =>
      obtain ⟨-, rfl⟩ := Prod.mk.inj (Option.some.inj fresh)
      exact reach
  | cons binder binders ih =>
      rw [TypeScheme.freshBinders, Option.bind_eq_bind, Option.bind_eq_some_iff] at fresh
      obtain ⟨⟨id, s₁⟩, first, fresh⟩ := fresh
      rw [Option.bind_eq_bind, Option.bind_eq_some_iff] at fresh
      obtain ⟨⟨rest, s₂⟩, others, fresh⟩ := fresh
      obtain ⟨-, rfl⟩ := Prod.mk.inj (Option.some.inj fresh)
      exact ih (reach.freshVar first) others

/-- Instantiating a scheme on a reachable table gives what is promised exactly when the table has an
identifier left for each binder and no image is bound by a quantifier around a place that it is put in. -/
theorem instantiate_exact {binders : List Nat} {body : Ty} {scheme : TypeScheme}
    (built : TypeScheme.new binders body = .ok scheme) {open_ : List Nat} {s : Table}
    (reach : Reach open_ s) :
    (∃ ty s', scheme.instantiate s = some (ty, s') ∧ Exact scheme s ty s') ↔
      HasRoom scheme s ∧ Spared scheme s := by
  constructor
  · rintro ⟨ty, s', made, exact_⟩
    obtain ⟨pairs, allocated, -, -, next⟩ := instantiate_eq made
    have after := reach.freshBinders allocated
    refine ⟨?_, (exact_iff built after.at_depth.2 made).mp exact_⟩
    rw [HasRoom, ← next]
    exact (after.guarded storeInvariant_nextVar_lt).now
  · rintro ⟨room, spared⟩
    obtain ⟨⟨pairs, s'⟩, allocated⟩ := Option.isSome_iff_exists.mp (freshBinders_isSome room)
    have made : scheme.instantiate s =
        some (remap (TypeScheme.mapping pairs) scheme.body, s') := by
      rw [TypeScheme.instantiate, allocated]
      rfl
    exact ⟨_, s', made, (exact_iff built (reach.freshBinders allocated).at_depth.2 made).mpr spared⟩

/-- A scheme whose body has a quantifier over its binder, on a table that has given out a variable. -/
theorem instantiate_exact_nested : ∃ s, Table.new.freshVar = some (0, s) ∧
    ∃ ty s', TypeScheme.instantiate ⟨[1], .forAll ["U"] (.typeVar 1)⟩ s = some (ty, s') ∧
      Exact ⟨[1], .forAll ["U"] (.typeVar 1)⟩ s ty s' :=
  ⟨_, rfl, (@instantiate_exact [1] (.forAll ["U"] (.typeVar 1)) _ rfl _ _
    (Reach.new.freshVar rfl)).mpr ⟨by decide, by decide⟩⟩

/-- On a new table the first fresh variable is the one that the quantifier binds. -/
theorem instantiation_captures :
    TypeScheme.new [1] (.forAll ["U"] (.typeVar 1)) = .ok ⟨[1], .forAll ["U"] (.typeVar 1)⟩ ∧
    (TypeScheme.instantiate ⟨[1], .forAll ["U"] (.typeVar 1)⟩ Table.new).map Prod.fst =
      some (.forAll ["U"] (.typeVar 0)) ∧
    collectVars (.forAll ["U"] (.typeVar 1)) = [1] ∧ collectVars (.forAll ["U"] (.typeVar 0)) = [] ∧
    ¬∃ ty s', TypeScheme.instantiate ⟨[1], .forAll ["U"] (.typeVar 1)⟩ Table.new = some (ty, s') ∧
      Exact ⟨[1], .forAll ["U"] (.typeVar 1)⟩ Table.new ty s' :=
  ⟨rfl, rfl, rfl, rfl, fun ⟨ty, s', made, exact_⟩ => by
    obtain ⟨rfl, -⟩ := Prod.mk.inj (Option.some.inj made)
    exact absurd exact_.vars nofun⟩

end Mimi.Core
