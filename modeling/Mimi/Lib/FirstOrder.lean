/-
Module: Mimi.Lib.FirstOrder
Purpose: First-order terms, substitutions and the solved forms of unification problems.  A solved
  form is an idempotent substitution; its solutions are the substitutions that factor through it.
Trusted boundary: none
-/
import Mathlib

namespace Mimi.Lib

/-- First-order terms over symbols `F` and variables `V`. -/
inductive Term (F V : Type) where
  | var (v : V)
  | app (f : F) (args : List (Term F V))

namespace Term

variable {F V : Type}

/-- Induction on terms, with the hypothesis for each argument. -/
theorem induct {P : Term F V → Prop} (var : ∀ v, P (.var v))
    (app : ∀ f args, (∀ a ∈ args, P a) → P (.app f args)) : ∀ t, P t
  | .var v => var v
  | .app f args => app f args fun a _ => induct var app a

/-- Apply a substitution. -/
def subst (σ : V → Term F V) : Term F V → Term F V
  | var v => σ v
  | app f args => app f (args.map fun a => a.subst σ)

/-- The variables of a term, with repetitions. -/
def vars : Term F V → List V
  | var v => [v]
  | app _ args => args.flatMap fun a => a.vars

/-- The number of nodes of a term. -/
def size : Term F V → Nat
  | var _ => 1
  | app _ args => 1 + (args.map fun a => a.size).sum

@[simp] theorem subst_var_eq (σ : V → Term F V) (v : V) : (var v).subst σ = σ v := by
  simp [subst]

@[simp] theorem subst_app (σ : V → Term F V) (f : F) (args : List (Term F V)) :
    (app f args).subst σ = app f (args.map (subst σ)) := by
  simp [subst]

@[simp] theorem mem_vars_var {v w : V} : w ∈ (var v : Term F V).vars ↔ w = v := by
  simp [vars]

@[simp] theorem mem_vars_app {f : F} {args : List (Term F V)} {w : V} :
    w ∈ (app f args).vars ↔ ∃ a ∈ args, w ∈ a.vars := by
  simp [vars]

@[simp] theorem size_app (f : F) (args : List (Term F V)) :
    (app f args).size = 1 + (args.map size).sum := by
  simp [size]

variable {σ : V → Term F V} {t : Term F V}

theorem subst_congr {τ : V → Term F V} (h : ∀ v ∈ t.vars, σ v = τ v) :
    t.subst σ = t.subst τ := by
  induction t using induct with
  | var v => simpa using h v (by simp)
  | app f args ih =>
      simp only [subst_app, app.injEq, List.map_inj_left, true_and]
      exact fun a ha => ih a ha fun v hv => h v (mem_vars_app.mpr ⟨a, ha, hv⟩)

theorem subst_eq_self (h : ∀ v ∈ t.vars, σ v = var v) :
    t.subst σ = t := by
  induction t using induct with
  | var v => simpa using h v (by simp)
  | app f args ih =>
      have same : args.map (subst σ) = args.map id := List.map_inj_left.mpr fun a ha =>
        ih a ha fun v hv => h v (mem_vars_app.mpr ⟨a, ha, hv⟩)
      simp [same]

theorem subst_subst (σ τ : V → Term F V) (t : Term F V) :
    (t.subst τ).subst σ = t.subst fun v => (τ v).subst σ := by
  induction t using induct with
  | var v => simp
  | app f args ih => simpa using ih

theorem mem_vars_subst {w : V} :
    w ∈ (t.subst σ).vars ↔ ∃ v ∈ t.vars, w ∈ (σ v).vars := by
  induction t using induct with
  | var v => simp
  | app f args ih =>
      simp only [subst_app, mem_vars_app, List.mem_map]
      constructor
      · rintro ⟨_, ⟨a, ha, rfl⟩, hw⟩
        obtain ⟨v, hv, hw⟩ := (ih a ha).mp hw
        exact ⟨v, ⟨a, ha, hv⟩, hw⟩
      · rintro ⟨v, ⟨a, ha, hv⟩, hw⟩
        exact ⟨_, ⟨a, ha, rfl⟩, (ih a ha).mpr ⟨v, hv, hw⟩⟩

theorem size_lt_of_mem {f : F} {args : List (Term F V)} {a : Term F V} (h : a ∈ args) :
    a.size < (app f args).size := by
  have := List.single_le_sum (fun _ _ => Nat.zero_le _) _ (List.mem_map_of_mem (f := size) h)
  simp only [size_app]
  omega

/-- The image of a variable is no larger than the image of a term it occurs in. -/
theorem size_le_of_mem_vars {v : V} (h : v ∈ t.vars) :
    (σ v).size ≤ (t.subst σ).size := by
  induction t using induct with
  | var w => obtain rfl := mem_vars_var.mp h; simp
  | app f args ih =>
      obtain ⟨a, ha, hv⟩ := mem_vars_app.mp h
      have smaller : (a.subst σ).size < ((app f args).subst σ).size := by
        simpa using size_lt_of_mem (f := f) (List.mem_map_of_mem (f := subst σ) ha)
      exact (ih a ha hv).trans smaller.le

/-- Under a symbol the image is strictly smaller. -/
theorem size_lt_of_mem_vars {v : V} (h : v ∈ t.vars) (compound : ∀ w, t ≠ var w) : (σ v).size < (t.subst σ).size := by
  cases t with
  | var w => exact absurd rfl (compound w)
  | app f args =>
      obtain ⟨a, ha, hv⟩ := mem_vars_app.mp h
      have smaller : (a.subst σ).size < ((app f args).subst σ).size := by
        simpa using size_lt_of_mem (f := f) (List.mem_map_of_mem (f := subst σ) ha)
      exact lt_of_le_of_lt (size_le_of_mem_vars hv) smaller

end Term

open Term

variable {F V : Type}

/-- The substitution `σ` factors through `τ`: it is a solution of the solved form `τ`. -/
def Factors (σ τ : V → Term F V) : Prop := ∀ v, σ v = (τ v).subst σ

theorem Factors.subst {σ τ : V → Term F V} (h : Factors σ τ) (t : Term F V) :
    (t.subst τ).subst σ = t.subst σ := by
  rw [subst_subst]
  exact subst_congr fun v _ => (h v).symm

/-- An idempotent substitution fixes the variables of its images. -/
theorem Factors.fixes {τ : V → Term F V} (h : Factors τ τ) {v w : V} (hw : w ∈ (τ v).vars) :
    τ w = var w := by
  generalize image : τ v = t at hw
  have same : t.subst τ = t := by rw [← image, ← h v]
  clear image
  induction t using induct with
  | var u => obtain rfl := mem_vars_var.mp hw; simpa using same
  | app f args ih =>
      obtain ⟨a, ha, hwa⟩ := mem_vars_app.mp hw
      refine ih a ha hwa ?_
      have pointwise : args.map (Term.subst τ) = args.map id := by simpa using same
      exact List.map_inj_left.mp pointwise a ha

section Bind

variable [DecidableEq V]

/-- Extend a solved form by a binding of one of its free variables. -/
def bindVar (τ : V → Term F V) (r : V) (t : Term F V) : V → Term F V :=
  fun v => (τ v).subst (Function.update var r t)

variable {t : Term F V}

variable {τ : V → Term F V}

/-! ### Variables of solved forms -/

/-- `τ'` is `τ`, or it eliminates a variable of `V` and brings in only variables of `V`. -/
def Narrows (among : Finset V) (τ τ' : V → Term F V) : Prop :=
  τ' = τ ∨ ∃ r ∈ among, ∀ t : Term F V,
    (t.subst τ').vars.toFinset ⊆ ((t.subst τ).vars.toFinset ∪ among).erase r

theorem Narrows.refl (among : Finset V) (τ : V → Term F V) : Narrows among τ τ := .inl rfl

variable {among : Finset V}

theorem Narrows.mono {among' : Finset V} {τ' : V → Term F V} (h : Narrows among τ τ')
    (subset : among ⊆ among') : Narrows among' τ τ' := by
  rcases h with rfl | ⟨r, hr, narrow⟩
  · exact .refl _ _
  · refine .inr ⟨r, subset hr, fun t => (narrow t).trans ?_⟩
    exact Finset.erase_subset_erase r (Finset.union_subset_union_right subset)

/-- Two steps, the second among variables that the first left of terms over the given ones. -/
theorem Narrows.trans {among' : Finset V} {τ' τ'' : V → Term F V}
    (first : Narrows among τ τ') (second : Narrows among' τ' τ'')
    (left : ∀ w ∈ among', ∃ t : Term F V,
      w ∈ (t.subst τ').vars ∧ (t.subst τ).vars.toFinset ⊆ among) : Narrows among τ τ'' := by
  rcases first with rfl | ⟨r, hr, narrow⟩
  · refine second.mono fun w hw => ?_
    obtain ⟨t, member, inside⟩ := left w hw
    exact inside (List.mem_toFinset.mpr member)
  · have remaining (w : V) (hw : w ∈ among') : w ∈ among.erase r := by
      obtain ⟨t, member, inside⟩ := left w hw
      have := narrow t (List.mem_toFinset.mpr member)
      simp only [Finset.mem_erase, Finset.mem_union] at this ⊢
      exact ⟨this.1, this.2.elim (fun h => inside h) id⟩
    refine .inr ⟨r, hr, fun t => ?_⟩
    rcases second with rfl | ⟨r', -, narrow'⟩
    · exact narrow t
    · intro w hw
      have step := narrow' t hw
      simp only [Finset.mem_erase, Finset.mem_union] at step ⊢
      rcases step.2 with old | new
      · simpa using narrow t old
      · have := remaining w new
        simp only [Finset.mem_erase] at this
        exact ⟨this.1, .inr this.2⟩

theorem vars_bindVar_subset (τ : V → Term F V) {r : V} (fresh : r ∉ t.vars) (x : Term F V) :
    (x.subst (bindVar τ r t)).vars.toFinset
      ⊆ ((x.subst τ).vars.toFinset ∪ t.vars.toFinset).erase r := by
  intro w hw
  have image : x.subst (bindVar τ r t) = (x.subst τ).subst (Function.update var r t) := by
    rw [subst_subst]; rfl
  rw [image, List.mem_toFinset, mem_vars_subst] at hw
  obtain ⟨v, hv, hw⟩ := hw
  by_cases same : v = r
  · subst same
    rw [Function.update_self] at hw
    have other : w ≠ v := fun h => fresh (h ▸ hw)
    simp [other, hw]
  · rw [Function.update_of_ne same, mem_vars_var] at hw
    subst hw
    simp [same, hv]

theorem narrows_bindVar {r : V} (member : r ∈ among) (subset : t.vars.toFinset ⊆ among) (fresh : r ∉ t.vars) :
    Narrows among τ (bindVar τ r t) :=
  .inr ⟨r, member, fun x => (vars_bindVar_subset τ fresh x).trans
    (Finset.erase_subset_erase r (Finset.union_subset_union_right subset))⟩

end Bind

end Mimi.Lib
