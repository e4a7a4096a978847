/-
Module: Mimi.Proofs.InferenceTermination
Purpose: The operations on solved tables return.  More fuel never changes a result; finding a root and
  resolving a type return in every solved table; and so does the unifier on all types: each pair that comes
  next is smaller or has fewer free variables left.
Trusted boundary: none
-/
import Mimi.Proofs.UnifierSteps

namespace Mimi.Core

open Mimi.Lib Ty Table

/-! ### More fuel never changes a result -/

theorem compress_succ {root : Nat} {fuel current : Nat} {s s' : Table}
    (h : compress root fuel current s = some s') : compress root (fuel + 1) current s = some s' := by
  induction fuel generalizing current s with
  | zero => simp [compress] at h
  | succ fuel ih =>
      rw [compress] at h ⊢
      split_ifs at h ⊢ with done
      · exact h
      · exact ih h

theorem fueled_find {ε : Type} (id : Nat) :
    Run.Fueled fun fuel => (Table.find fuel id : Run Table ε Nat) := by
  intro fuel s r h
  simp only [Table.find, Option.bind_eq_bind, Option.bind_eq_some_iff, Option.some.injEq] at h ⊢
  obtain ⟨root, walks, s', compressed, rfl⟩ := h
  exact ⟨root, walk_succ walks, s', compress_succ compressed, rfl⟩

open Run in
theorem fueled_mapPartsM {f : Nat → Ty → Resolve Ty} (hf : ∀ ty, Fueled fun fuel => f fuel ty)
    (ty : Ty) : Fueled fun fuel => mapPartsM (f fuel) ty := by
  have list (tys : List Ty) : Fueled fun fuel => Run.mapM (f fuel) tys :=
    fueled_mapM tys fun ty _ => hf ty
  cases ty with
  | option a | ref _ a | refMut _ a | shared a | weak a | rawPtr a | rawPtrMut a | cBuffer a
  | array a _ | slice a | newtype _ a => exact fueled_bind (hf a) fun _ => fueled_const _
  | result a b => exact fueled_bind (hf a) fun _ => fueled_bind (hf b) fun _ => fueled_const _
  | tuple as | name _ as => exact fueled_bind (list as) fun _ => fueled_const _
  | func as r | externFunc as r =>
      exact fueled_bind (list as) fun _ => fueled_bind (hf r) fun _ => fueled_const _
  | _ => exact fueled_const _

open Run in
/-- What resolution does with the binding of a root. -/
theorem fueled_binding {resolve : Nat → Ty → Resolve Ty} (hf : ∀ ty, Fueled fun fuel => resolve fuel ty)
    (resolving : List Nat) (r : Nat) (binding : Option Ty) :
    Fueled fun fuel => (match binding with
      | some bound =>
          if r ∈ resolving then Run.throw (.bindingCycle r)
          else do
            let resolved ← resolve fuel bound
            Run.modify fun s => s.setBinding r resolved
            pure resolved
      | none => pure (typeVar r) : Resolve Ty) := by
  cases binding with
  | none => exact fueled_const _
  | some bound =>
      dsimp only
      split_ifs
      · exact fueled_const _
      · exact fueled_bind (hf bound) fun _ => fueled_bind (fueled_const _) fun _ => fueled_const _

open Run in
theorem fueled_resolveWithDepth (remaining : Nat) : ∀ resolving ty,
    Fueled fun fuel => resolveWithDepth fuel remaining resolving ty := by
  induction remaining with
  | zero => intro resolving ty; exact fueled_const _
  | succ next ih =>
      intro resolving ty
      rcases ty.node_cases with ⟨inner, rfl⟩ | ⟨id, rfl⟩ | node
      · exact fueled_bind (ih resolving inner) fun _ => fueled_const _
      · exact fueled_bind (fueled_find id) fun r => fueled_bind (fueled_const _) fun binding =>
          fueled_binding (ih (r :: resolving)) resolving r binding
      · simp only [resolveWithDepth_node node]
        exact fueled_mapPartsM (ih resolving) ty

theorem approximates_performStep {fuel : Nat} {recurse recurse' : Ty × Ty → Infer Unit}
    (h : ∀ pair, Run.Approximates (recurse pair) (recurse' pair)) (aResolved bResolved : Ty)
    (step : UnifyStep) :
    Run.Approximates (performStep fuel recurse aResolved bResolved step)
      (performStep (fuel + 1) recurse' aResolved bResolved step) := by
  cases step with
  | union x y =>
      exact Run.approximates_bind (fueled_find x fuel) fun _ =>
        Run.approximates_bind (fueled_find y fuel) fun _ => Run.approximates_refl _
  | bind x ty =>
      exact Run.approximates_bind (fueled_find x fuel) fun _ => Run.approximates_refl _
  | parts pairs => exact Run.approximates_forEach pairs fun pair _ => h pair
  | _ => exact Run.approximates_refl _

theorem fueled_resolved (ty : Ty) :
    Run.Fueled fun fuel => Run.mapError UnifyError.resolve (resolveInfer fuel ty) :=
  Run.fueled_mapError (fueled_resolveWithDepth _ [] ty)

theorem fueled_unifyInferenceInner (a b : Ty) :
    Run.Fueled fun fuel => unifyInferenceInner fuel a b := by
  intro fuel
  induction fuel generalizing a b with
  | zero => intro s r h; simp [unifyInferenceInner, Run.diverge] at h
  | succ fuel ih =>
      refine Run.approximates_bind (fueled_resolved a fuel) fun aResolved => ?_
      refine Run.approximates_bind (fueled_resolved b fuel) fun bResolved => ?_
      exact approximates_performStep (fun pair => ih pair.1 pair.2) aResolved bResolved _

theorem fueled_performStep (aResolved bResolved : Ty) (step : UnifyStep) :
    Run.Fueled fun fuel =>
      performStep fuel (fun pair => unifyInferenceInner fuel pair.1 pair.2) aResolved bResolved step :=
  fun fuel => approximates_performStep
    (fun pair => fueled_unifyInferenceInner pair.1 pair.2 fuel) aResolved bResolved step

/-! ### Resolution returns -/

theorem find_halts {ε : Type} {s : Table} {root : Nat → Nat} {τ : Nat → TypeTerm}
    (solved : s.Solved root τ) (id : Nat) :
    Run.Halts (fun fuel => (Table.find fuel id : Run Table ε Nat)) s := by
  obtain ⟨fuel, walks⟩ := solved.reaches id
  obtain ⟨s', found⟩ := @find_returns ε _ _ _ _ walks
  exact ⟨_, s', fuel, found⟩

open Run in
theorem halts_mapPartsM {I : Table → Prop} {f : Nat → Ty → Resolve Ty} {ty : Ty}
    (hf : ∀ ty, Fueled fun fuel => f fuel ty)
    (keeps : ∀ part ∈ ty.parts, ∀ fuel, Keeps I (f fuel part) (fun _ => True) fun _ => True)
    (halts : ∀ part ∈ ty.parts, ∀ s, I s → Halts (fun fuel => f fuel part) s) {s : Table}
    (hs : I s) : Halts (fun fuel => mapPartsM (f fuel) ty) s := by
  have list (tys : List Ty) (among : ∀ part ∈ tys, part ∈ ty.parts) :
      Halts (fun fuel => Run.mapM (f fuel) tys) s :=
    halts_mapM tys (fun ty _ => hf ty) (fun part h => keeps part (among part h))
      (fun part h => halts part (among part h)) hs
  have listFueled (tys : List Ty) : Fueled fun fuel => Run.mapM (f fuel) tys :=
    fueled_mapM tys fun ty _ => hf ty
  have one {g : Ty → Ty} (a : Ty) (h : a ∈ ty.parts) :
      Halts (fun fuel => f fuel a >>= fun a' => pure (g a')) s :=
    halts_bind (hf a) (fun _ => fueled_const _) (halts a h s hs) fun _ _ _ => halts_const rfl
  cases ty with
  | option a | ref _ a | refMut _ a | shared a | weak a | rawPtr a | rawPtrMut a | cBuffer a
  | array a _ | slice a | newtype _ a => exact one a (by simp [parts])
  | result a b =>
      refine halts_bind (hf a) (fun _ => fueled_bind (hf b) fun _ => fueled_const _)
        (halts a (by simp [parts]) s hs) ?_
      rintro a' s' ⟨fuel, result⟩
      have hs' := (keeps a (by simp [parts]) fuel s hs _ _ result).1
      exact halts_bind (hf b) (fun _ => fueled_const _) (halts b (by simp [parts]) s' hs')
        fun _ _ _ => halts_const rfl
  | tuple as | name _ as =>
      exact halts_bind (listFueled as) (fun _ => fueled_const _) (list as fun _ h => h)
        fun _ _ _ => halts_const rfl
  | func as r | externFunc as r =>
      refine halts_bind (listFueled as) (fun _ => fueled_bind (hf r) fun _ => fueled_const _)
        (list as (by simp +contextual [parts])) ?_
      rintro as' s' ⟨fuel, result⟩
      have hs' := (keeps_mapM as (Q := fun _ _ => True) (fun part h =>
        keeps part (by simp [parts, h]) fuel) s hs _ _ result).1
      exact halts_bind (hf r) (fun _ => fueled_const _) (halts r (by simp [parts]) s' hs')
        fun _ _ _ => halts_const rfl
  | _ => exact halts_const rfl

open Run in
/-- Resolution returns in every table of the solved form. -/
theorem resolveWithDepth_halts {root : Nat → Nat} {τ : Nat → TypeTerm}
    (rooted : ∀ v, root (root v) = root v) (follows : ∀ v, τ v = τ (root v))
    (factors : Factors τ τ) (remaining : Nat) :
    ∀ (resolving : List Nat) (ty : Ty), Descends τ resolving ty →
      ∀ s : Table, s.Solved root τ →
        Run.Halts (fun fuel => resolveWithDepth fuel remaining resolving ty) s := by
  induction remaining with
  | zero => intro resolving ty _ s _; exact Run.halts_const rfl
  | succ next ih =>
      intro resolving ty descends s solved
      have resolve := fueled_resolveWithDepth next
      rcases ty.node_cases with ⟨inner, rfl⟩ | ⟨id, rfl⟩ | node
      · exact halts_bind (resolve resolving inner) (fun _ => fueled_const _)
          (ih resolving inner descends s solved) fun _ _ _ => halts_const rfl
      · refine halts_bind (fueled_find id) (fun r => fueled_bind (fueled_const _) fun binding =>
          fueled_binding (resolve (r :: resolving)) resolving r binding) (find_halts solved id) ?_
        rintro r s₁ ⟨fuel, found⟩
        obtain ⟨solved₁, value, -⟩ := find_solved (E := fun _ => True) root τ fuel id s solved _ _ found
        obtain rfl : r = root id := value r rfl
        refine halts_bind (fueled_const _) (fueled_binding (resolve (root id :: resolving)) resolving
          (root id)) (halts_const rfl) ?_
        rintro binding s₂ ⟨fuel₂, read⟩
        obtain ⟨solved₂, facts, -⟩ :=
          gets_binding_solved (E := fun _ => True) root τ (rooted id) s₁ solved₁ _ _ read
        cases binding with
        | none => exact halts_const rfl
        | some bound =>
            obtain ⟨image, compound⟩ := facts _ rfl
            obtain ⟨fresh, descends'⟩ := descends.binding (follows id) image compound
            simp only [if_neg fresh]
            exact halts_bind (resolve _ bound) (fun _ => fueled_const _)
              (ih _ bound descends' s₂ solved₂) fun _ _ _ => halts_const rfl
      · simp only [resolveWithDepth_node node]
        exact halts_mapPartsM (resolve resolving)
          (fun part member fuel => (resolveWithDepth_solved rooted follows factors next resolving part
            (descends.part node member)).forget)
          (fun part member => ih resolving part (descends.part node member)) solved

theorem resolveInfer_halts {s : Table} {root : Nat → Nat} {τ : Nat → TypeTerm}
    (solved : s.Solved root τ) (ty : Ty) : Run.Halts (fun fuel => resolveInfer fuel ty) s :=
  resolveWithDepth_halts solved.root_root solved.follows solved.factors _ [] ty (by simp [Descends]) s
    solved

/-! ### What comes after a step -/

/-- A pair of types that comes next is smaller than the pair it comes from, and has no other variables. -/
structure ComesNext (a b : Ty) (pair : Ty × Ty) : Prop where
  size : ∀ τ : Nat → TypeTerm, (pair.1.term.subst τ).size + (pair.2.term.subst τ).size <
    (a.term.subst τ).size + (b.term.subst τ).size
  vars : ∀ τ, Equations.vars τ [(pair.1.term, pair.2.term)] ⊆ Equations.vars τ [(a.term, b.term)]

theorem size_part {t : TypeTerm} {f : Head} {ts : List TypeTerm} (member : t ∈ ts) (τ : Nat → TypeTerm) :
    (t.subst τ).size < ((Term.app f ts).subst τ).size := by
  rw [Term.subst_app]
  exact Term.size_lt_of_mem (List.mem_map_of_mem member)

theorem vars_part {t : TypeTerm} {f : Head} {ts : List TypeTerm} (member : t ∈ ts) (τ : Nat → TypeTerm) :
    (t.subst τ).vars ⊆ ((Term.app f ts).subst τ).vars := by
  intro v inside
  rw [Term.subst_app, Term.mem_vars_app]
  exact ⟨_, List.mem_map_of_mem member, inside⟩

theorem vars_pair_subset {τ : Nat → TypeTerm} {a b p q : TypeTerm}
    (inside : ∀ v, v ∈ (p.subst τ).vars ∨ v ∈ (q.subst τ).vars → v ∈ (a.subst τ).vars ∨ v ∈ (b.subst τ).vars) :
    Equations.vars τ [(p, q)] ⊆ Equations.vars τ [(a, b)] := by
  intro v
  simpa only [Equations.mem_vars, List.mem_singleton, exists_eq_left] using inside v

/-- The parts of two nodes. -/
theorem comesNext_parts {a b : Ty} {pair : Ty × Ty} {f g : Head} {as bs : List TypeTerm}
    (shapeA : a.term = .app f as) (shapeB : b.term = .app g bs) (first : pair.1.term ∈ as)
    (second : pair.2.term ∈ bs) : ComesNext a b pair := by
  refine ⟨fun τ => ?_, fun τ => vars_pair_subset fun v => ?_⟩
  · rw [shapeA, shapeB]
    exact Nat.add_lt_add (size_part first τ) (size_part second τ)
  · rw [shapeA, shapeB]
    exact Or.imp (fun h => vars_part first τ h) (fun h => vars_part second τ h)

/-- The type inside a newtype, and the type that the newtype meets. -/
theorem comesNext_inner {a b : Ty} {pair : Ty × Ty} {f : Head} {ts : List TypeTerm}
    (sides : a.term = .app f ts ∧ pair.2.term = b.term ∨ b.term = .app f ts ∧ pair.2.term = a.term)
    (inner : pair.1.term ∈ ts) : ComesNext a b pair := by
  refine ⟨fun τ => ?_, fun τ => vars_pair_subset fun v inside => ?_⟩
  · have less := @size_part _ f _ inner τ
    rcases sides with ⟨shape, other⟩ | ⟨shape, other⟩
    · rw [shape, other]
      exact Nat.add_lt_add_right less _
    · rw [shape, other, Nat.add_comm (a.term.subst τ).size]
      exact Nat.add_lt_add_right less _
  · have more := @vars_part _ f _ inner τ
    rcases sides with ⟨shape, other⟩ | ⟨shape, other⟩
    · rw [shape]
      rw [other] at inside
      exact inside.imp_left fun h => more h
    · rw [shape]
      rw [other] at inside
      exact (inside.imp_left fun h => more h).symm

theorem StepSound.comesNext {a b : Ty} {pairs : List (Ty × Ty)} (sound : StepSound a b (.parts pairs)) :
    ∀ pair ∈ pairs, ComesNext a b pair := by
  intro pair member
  obtain ⟨f, shapeA, shapeB⟩ := sound
  exact comesNext_parts shapeA shapeB (List.mem_map_of_mem member) (List.mem_map_of_mem member)

theorem nameArms_parts {a b : Ty} {pairs : List (Ty × Ty)} (arm : nameArms a b = some (.parts pairs)) :
    StepSound a b (.parts pairs) := by
  unfold nameArms at arm
  split at arm
  · rename_i na aa nb ab
    split_ifs at arm with bare same
    · cases arm
    · obtain ⟨rfl, length⟩ := same
      cases arm
      obtain ⟨left, right⟩ := terms_zip length
      exact ⟨.name na, by rw [Ty.term, left], by rw [Ty.term, right]⟩
  · cases arm

theorem newtypeArms_parts {a b : Ty} {pairs : List (Ty × Ty)} (arm : newtypeArms a b = some (.parts pairs)) :
    ∀ pair ∈ pairs, ComesNext a b pair := by
  unfold newtypeArms at arm
  split at arm <;> cases arm
  · intro pair member
    rw [List.mem_singleton.mp member]
    exact comesNext_inner (.inl ⟨rfl, rfl⟩) List.mem_cons_self
  · intro pair member
    rw [List.mem_singleton.mp member]
    exact comesNext_inner (.inr ⟨rfl, rfl⟩) List.mem_cons_self

theorem ComesNext.unlocated {a b : Ty} {pair : Ty × Ty} (next : ComesNext a.unlocated b.unlocated pair) :
    ComesNext a b pair := by
  obtain ⟨size, vars⟩ := next
  rw [Ty.term_unlocated, Ty.term_unlocated] at size vars
  exact ⟨size, vars⟩

/-- All arms of the unifier go on with smaller pairs. -/
theorem unifyStep_parts {a b : Ty} {pairs : List (Ty × Ty)} (step : unifyStep a b = .parts pairs) :
    ∀ pair ∈ pairs, ComesNext a b pair := by
  have arms := unifyStep_arms a b
  rw [step] at arms
  intro pair member
  refine ComesNext.unlocated ?_
  rcases arms with arm | arm | arm | arm | arm | arm | arm | ⟨msg, arm⟩
  · unfold variableArms at arm
    split at arm <;> try split_ifs at arm
    all_goals cases arm
  · unfold escapeArms at arm
    split at arm <;> try split_ifs at arm
    all_goals cases arm
  · exact (dualArms_sound arm).comesNext pair member
  · exact (nameArms_parts arm).comesNext pair member
  · exact (structuralArms_sound arm).comesNext pair member
  · exact newtypeArms_parts arm pair member
  · unfold leafArms at arm
    dsimp only at arm
    split at arm <;> try split_ifs at arm
    all_goals cases arm
  · cases arm

/-! ### Narrowing -/

/-- Where the unifier succeeds, the table stands for a solved form over the variables there were. -/
def Narrowed (τ : Nat → TypeTerm) (eqs : Equations) (r : Except UnifyError Unit) (s : Table) : Prop :=
  r = .ok () → ∃ root τ', s.Solved root τ' ∧ Narrows (eqs.vars τ) τ τ'

theorem forEach_narrows {f : Ty × Ty → Infer Unit} (pairs : List (Ty × Ty))
    (each : ∀ pair ∈ pairs, ∀ root τ,
      Run.Post (Solved · root τ) (f pair) (Narrowed τ [(pair.1.term, pair.2.term)])) :
    ∀ root τ, Run.Post (Solved · root τ) (Run.forEach f pairs) (Narrowed τ (pairTerms pairs)) := by
  induction pairs with
  | nil => exact fun root τ => Run.post_pure fun s solved _ => ⟨root, τ, solved, .refl _ _⟩
  | cons pair pairs ih =>
      intro root τ
      refine Run.post_bind (each pair List.mem_cons_self root τ) ?_ fun e s _ failed => nomatch failed
      rintro ⟨⟩ s narrowed r s' result ok
      obtain ⟨root', τ', solved', first⟩ := narrowed rfl
      obtain ⟨root'', τ'', solved'', second⟩ :=
        ih (fun p member => each p (List.mem_cons_of_mem pair member)) root' τ' s solved' r s' result ok
      exact ⟨root'', τ'', solved'', narrows_append first second⟩

theorem vars_pairTerms_of_next {a b : Ty} {pairs : List (Ty × Ty)} (next : ∀ pair ∈ pairs, ComesNext a b pair)
    (τ : Nat → TypeTerm) : (pairTerms pairs).vars τ ⊆ Equations.vars τ [(a.term, b.term)] := by
  intro v inside
  obtain ⟨e, member, inside⟩ := Equations.mem_vars.mp inside
  obtain ⟨pair, present, rfl⟩ := List.mem_map.mp member
  exact (next pair present).vars τ (Equations.mem_vars.mpr ⟨_, List.mem_singleton.mpr rfl, inside⟩)

/-- Types that resolution returned have the variables of the types that it resolved. -/
theorem vars_resolved {τ : Nat → TypeTerm} (factors : Factors τ τ) {a b a' b' : TypeTerm} (ha : a' = a.subst τ)
    (hb : b' = b.subst τ) : Equations.vars τ [(a', b')] = Equations.vars τ [(a, b)] := by
  simp [Equations.vars, ha, hb, factors.subst]

/-- One step on resolved types, given that the parts narrow. -/
theorem unifyStep_narrows {fuel : Nat} {root : Nat → Nat} {τ : Nat → TypeTerm} {s₀ : Table}
    (solved₀ : s₀.Solved root τ) {a b : Ty} (resolvedA : a.term.subst τ = a.term) (resolvedB : b.term.subst τ = b.term)
    (ih : ∀ x y root τ, Run.Post (Solved · root τ) (unifyInferenceInner fuel x y) (Narrowed τ [(x.term, y.term)])) :
    Run.Post (Solved · root τ)
      (performStep fuel (fun pair => unifyInferenceInner fuel pair.1 pair.2) a b (unifyStep a b))
      (Narrowed τ [(a.term, b.term)]) := by
  have member (v : Nat) (h : v ∈ a.term.vars ∨ v ∈ b.term.vars) : v ∈ Equations.vars τ [(a.term, b.term)] :=
    Equations.mem_vars.mpr ⟨_, List.mem_singleton.mpr rfl, by rwa [resolvedA, resolvedB]⟩
  have free (v : Nat) (h : v ∈ a.term.vars ∨ v ∈ b.term.vars) : τ v = .var v := by
    rcases h with h | h
    · exact solved₀.free_of_mem_vars (t := a.term) (by rwa [resolvedA])
    · exact solved₀.free_of_mem_vars (t := b.term) (by rwa [resolvedB])
  have stays (r : Except UnifyError Unit) (s : Table) (solved : s.Solved root τ) :
      Narrowed τ [(a.term, b.term)] r s := fun _ => ⟨root, τ, solved, .refl _ _⟩
  cases step : unifyStep a b with
  | union x y =>
      obtain ⟨ha, hb⟩ := unifyStep_union step
      have inA : x ∈ a.term.vars := by simp [ha]
      have inB : y ∈ b.term.vars := by simp [hb]
      refine Run.Post.imp (union_solved fuel (free x (.inl inA)) (free y (.inr inB))) (fun _ h => h) ?_
      rintro r s ⟨rfl, ⟨-, solved⟩ | ⟨different, root', solved⟩⟩ -
      · exact ⟨root, τ, solved, .refl _ _⟩
      · refine ⟨root', _, solved, narrows_bindVar (member x (.inl inA)) ?_ (by simpa using different)⟩
        intro w hw
        obtain rfl : w = y := by simpa using hw
        exact member w (.inr inB)
  | bind x ty =>
      obtain ⟨sides, fresh, compound⟩ := unifyStep_bind step
      have facts : (x ∈ a.term.vars ∨ x ∈ b.term.vars) ∧ ty.term.subst τ = ty.term ∧
          ∀ w ∈ ty.term.vars, w ∈ a.term.vars ∨ w ∈ b.term.vars := by
        rcases sides with ⟨hx, rfl⟩ | ⟨hx, rfl⟩
        · exact ⟨.inl (by simp [hx]), resolvedB, fun w => .inr⟩
        · exact ⟨.inr (by simp [hx]), resolvedA, fun w => .inl⟩
      obtain ⟨inside, resolved, among⟩ := facts
      refine Run.Post.imp (bind_solved fuel (free x inside) resolved fresh compound) (fun _ h => h) ?_
      rintro r s ⟨rfl, solved⟩ -
      exact ⟨root, _, solved, narrows_bindVar (member x inside)
        (fun w hw => member w (among w (List.mem_toFinset.mp hw))) fresh⟩
  | accept => exact Run.post_pure fun s solved => stays _ s solved
  | reject e => exact Run.post_throw fun s solved => stays _ s solved
  | bareContainer =>
      refine Run.post_bind (M := fun _ s => s.Solved root τ) (Run.post_gets fun s solved => solved) (fun linear => ?_)
        fun e s solved => stays _ s solved
      dsimp only
      split_ifs
      · exact Run.post_throw fun s solved => stays _ s solved
      · exact Run.post_pure fun s solved => stays _ s solved
  | parts pairs =>
      have next := unifyStep_parts step
      refine Run.Post.imp (forEach_narrows pairs (fun pair _ root τ => ih pair.1 pair.2 root τ) root τ) (fun _ h => h)
        fun r s narrowed ok => ?_
      obtain ⟨root', τ', solved, narrows⟩ := narrowed ok
      exact ⟨root', τ', solved, narrows.mono (vars_pairTerms_of_next next τ)⟩

/-- The unifier binds variables of the two types to terms over them. -/
theorem unifyInferenceInner_narrows (fuel : Nat) : ∀ a b root τ,
    Run.Post (Solved · root τ) (unifyInferenceInner fuel a b) (Narrowed τ [(a.term, b.term)]) := by
  induction fuel with
  | zero => intro a b root τ s _ r s' h; simp [unifyInferenceInner, Run.diverge] at h
  | succ fuel ih =>
      intro a b root τ s solved
      refine Run.post_bind_of_keeps (resolved_solved solved fuel a) ?_ (fun e s _ _ failed => by cases failed) s solved
      intro aResolved ha
      refine Run.post_bind_of_keeps (resolved_solved solved fuel b) ?_ fun e s _ _ failed => by cases failed
      intro bResolved hb
      refine Run.Post.imp (unifyStep_narrows solved (solved.subst_resolved ha) (solved.subst_resolved hb) ih)
        (fun _ h => h) fun r s narrowed ok => ?_
      obtain ⟨root', τ', solved', narrows⟩ := narrowed ok
      exact ⟨root', τ', solved', vars_resolved solved.factors ha hb ▸ narrows⟩

/-! ### The unifier returns -/

section Loop

variable {f : Nat → Ty × Ty → Infer Unit} {τ₀ : Nat → TypeTerm} {among : Finset Nat}

/-- Unifying pairs one after the other returns, if each pair does whether the solved form is still the first one or one
of the variables is gone. -/
theorem forEach_halts (hf : ∀ pair, Run.Fueled fun fuel => f fuel pair)
    (narrows : ∀ fuel pair root τ,
      Run.Post (Solved · root τ) (f fuel pair) (Narrowed τ [(pair.1.term, pair.2.term)]))
    (pairs : List (Ty × Ty))
    (each : ∀ pair ∈ pairs, ∀ root τ s, Solved s root τ → (pairTerms [pair]).vars τ ⊆ among →
      (τ = τ₀ ∨ ∃ r ∈ among, (pairTerms [pair]).vars τ ⊆ among.erase r) → Run.Halts (fun fuel => f fuel pair) s) :
    ∀ root τ s, Solved s root τ → (pairTerms pairs).vars τ ⊆ among →
      (τ = τ₀ ∨ ∃ r ∈ among, (pairTerms pairs).vars τ ⊆ among.erase r) →
      Run.Halts (fun fuel => Run.forEach (f fuel) pairs) s := by
  induction pairs with
  | nil => intro root τ s _ _ _; exact Run.halts_const rfl
  | cons pair pairs ih =>
      intro root τ s solved inside progress
      have split : (pairTerms (pair :: pairs)).vars τ = (pairTerms [pair]).vars τ ∪ (pairTerms pairs).vars τ := by
        ext v; simp [Equations.mem_vars, pairTerms]
      rw [split] at inside progress
      obtain ⟨insideHead, insideRest⟩ := Finset.union_subset_iff.mp inside
      refine Run.halts_bind (hf pair) (fun _ => Run.fueled_forEach pairs fun p _ => hf p) ?_ ?_
      · refine each pair List.mem_cons_self root τ s solved insideHead ?_
        rcases progress with same | ⟨r, hr, gone⟩
        · exact .inl same
        · exact .inr ⟨r, hr, (Finset.union_subset_iff.mp gone).1⟩
      · rintro ⟨⟩ s' ⟨fuel, result⟩
        obtain ⟨root', τ', solved', narrowed⟩ := narrows fuel pair root τ s solved _ _ result rfl
        have next : τ' = τ ∨ ∃ r ∈ among, (pairTerms pairs).vars τ' ⊆ among.erase r := by
          rcases Equations.vars_of_narrows narrowed (pairTerms pairs) with same | ⟨r, hr, gone⟩
          · exact .inl same
          · exact .inr ⟨r, insideHead hr, gone.trans
              (Finset.erase_subset_erase r (Finset.union_subset insideRest insideHead))⟩
        refine ih (fun p member => each p (List.mem_cons_of_mem pair member)) root' τ' s' solved' ?_ ?_
        · rcases next with rfl | ⟨r, -, gone⟩
          · exact insideRest
          · exact gone.trans (Finset.erase_subset r among)
        · rcases next with rfl | gone
          · rcases progress with same | ⟨r, hr, gone⟩
            · exact .inl same
            · exact .inr ⟨r, hr, (Finset.union_subset_iff.mp gone).2⟩
          · exact .inr gone

end Loop

/-- The unifier returns on all types: along the recursion either a variable is eliminated or, under the same solved
form, the types get smaller. -/
theorem unifyInferenceInner_halts (n : Nat) : ∀ (m : Nat) (a b : Ty) root τ s, Solved s root τ →
    (Equations.vars τ [(a.term, b.term)]).card ≤ n → (a.term.subst τ).size + (b.term.subst τ).size ≤ m →
    Run.Halts (fun fuel => unifyInferenceInner fuel a b) s := by
  induction n using Nat.strong_induction_on with
  | _ n fewer =>
  intro m
  induction m using Nat.strong_induction_on with
  | _ m smaller =>
  intro a b root τ s solved card size
  suffices body : Run.Halts (fun fuel => do
      let aResolved ← Run.mapError .resolve (resolveInfer fuel a)
      let bResolved ← Run.mapError .resolve (resolveInfer fuel b)
      performStep fuel (fun pair => unifyInferenceInner fuel pair.1 pair.2) aResolved bResolved
        (unifyStep aResolved bResolved)) s by
    obtain ⟨r, s', fuel, result⟩ := body
    exact ⟨r, s', fuel + 1, result⟩
  refine Run.halts_bind (fueled_resolved a)
    (fun _ => Run.fueled_bind (fueled_resolved b) fun _ => fueled_performStep _ _ _)
    (Run.halts_mapError (resolveInfer_halts solved a)) ?_
  rintro aResolved s₁ ⟨fuel₁, result₁⟩
  obtain ⟨solved₁, ha, -⟩ := resolved_solved solved fuel₁ a s solved _ _ result₁
  replace ha := ha _ rfl
  refine Run.halts_bind (fueled_resolved b) (fun _ => fueled_performStep _ _ _)
    (Run.halts_mapError (resolveInfer_halts solved₁ b)) ?_
  rintro bResolved s₂ ⟨fuel₂, result₂⟩
  obtain ⟨solved₂, hb, -⟩ := resolved_solved solved₁ fuel₂ b s₁ solved₁ _ _ result₂
  replace hb := hb _ rfl
  cases step : unifyStep aResolved bResolved with
  | union x y =>
      refine Run.halts_bind (fueled_find x)
        (fun _ => Run.fueled_bind (fueled_find y) fun _ => Run.fueled_const _)
        (find_halts solved₂ x) ?_
      rintro xRoot s₃ ⟨fuel₃, found⟩
      have solved₃ := (find_solved (E := fun _ => True) root τ fuel₃ x s₂ solved₂ _ _ found).1
      refine Run.halts_bind (fueled_find y) (fun _ => Run.fueled_const _) (find_halts solved₃ y)
        fun yRoot s₄ _ => Run.halts_const ?_
      split_ifs <;> rfl
  | bind x ty =>
      exact Run.halts_bind (fueled_find x) (fun _ => Run.fueled_const _) (find_halts solved₂ x)
        fun _ _ _ => Run.halts_const rfl
  | accept => exact Run.halts_const rfl
  | reject e => exact Run.halts_const rfl
  | bareContainer =>
      have returns : (bareContainerArm aResolved bResolved s₂).isSome := by
        rw [bareContainerArm, Run.gets_bind]
        split_ifs <;> rfl
      exact Run.halts_const returns
  | parts pairs =>
      have next := unifyStep_parts step
      have inside : (pairTerms pairs).vars τ ⊆ Equations.vars τ [(a.term, b.term)] :=
        vars_resolved solved.factors ha hb ▸ vars_pairTerms_of_next next τ
      refine @forEach_halts _ τ _ (fun pair => fueled_unifyInferenceInner pair.1 pair.2)
        (fun fuel pair => unifyInferenceInner_narrows fuel pair.1 pair.2) pairs ?_ root τ s₂ solved₂ inside (.inl rfl)
      intro pair member root' τ' s' solved' inside' progress
      rcases progress with rfl | ⟨r, hr, gone⟩
      · refine smaller _ ?_ pair.1 pair.2 root' τ' s' solved' ((Finset.card_le_card inside').trans card) le_rfl
        have below := (next pair member).size τ'
        rw [ha, hb, solved.factors.subst, solved.factors.subst] at below
        exact below.trans_le size
      · exact fewer _ ((Finset.card_erase_lt_of_mem hr).trans_le card) _ pair.1 pair.2 root' τ' s' solved'
          (Finset.card_le_card gone) le_rfl

end Mimi.Core
