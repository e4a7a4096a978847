/-
Module: Mimi.Proofs.InferenceAcyclicity
Purpose: Every reachable inference table stands for a solved form.  So parent links lead to roots,
  only roots carry bindings, no variable occurs in its own binding (outside quantified bodies), and
  resolution never reports a binding cycle.
Trusted boundary: none
-/
import Mimi.Proofs.InferenceSolved

namespace Mimi.Core

open Mimi.Lib Ty Table

/-! ### The occurs check -/

theorem Ty.sizeOf_part {ty part : Ty} (h : part ∈ ty.parts) : sizeOf part < sizeOf ty := by
  cases ty with
  | tuple as | name n as =>
      have := List.sizeOf_lt_of_mem h
      simp only [Ty.parts, Ty.tuple.sizeOf_spec, Ty.name.sizeOf_spec] at this ⊢
      omega
  | func as r | externFunc as r =>
      simp only [Ty.parts, List.mem_append, List.mem_singleton] at h
      rcases h with h | rfl
      · have := List.sizeOf_lt_of_mem h
        simp only [Ty.func.sizeOf_spec, Ty.externFunc.sizeOf_spec]
        omega
      · simp only [Ty.func.sizeOf_spec, Ty.externFunc.sizeOf_spec]
        omega
  | result a b =>
      simp only [Ty.parts, List.mem_cons, List.not_mem_nil, or_false] at h
      rcases h with rfl | rfl <;> simp only [Ty.result.sizeOf_spec] <;> omega
  | array a n =>
      obtain rfl := List.mem_singleton.mp h
      simp only [Ty.array.sizeOf_spec]
      omega
  | _ => simp_all [Ty.parts]

/-- Induction on types along the parts that resolution enters. -/
theorem Ty.induct {P : Ty → Prop} (located : ∀ ty, P ty → P (.located ty))
    (typeVar : ∀ v, P (.typeVar v))
    (node : ∀ ty, ty.isNode = true → (∀ part ∈ ty.parts, P part) → P ty) (ty : Ty) : P ty := by
  generalize size : sizeOf ty = n
  induction n using Nat.strong_induction_on generalizing ty with
  | _ n ih =>
      subst size
      rcases ty.node_cases with ⟨inner, rfl⟩ | ⟨v, rfl⟩ | isNode
      · exact located inner (ih _ (by simp) inner rfl)
      · exact typeVar v
      · exact node ty isNode fun part h => ih _ (Ty.sizeOf_part h) part rfl

theorem typeAnyList_iff {pred : Ty → Bool} {tys : List Ty} :
    typeAnyList pred tys = true ↔ ∃ ty ∈ tys, typeAny pred ty = true := by
  induction tys with
  | nil => simp [typeAnyList]
  | cons ty tys ih => simp [typeAnyList, ih]

/-- What holds somewhere in a part holds somewhere in the type. -/
theorem typeAny_of_part {pred : Ty → Bool} {ty part : Ty} (h : part ∈ ty.parts)
    (found : typeAny pred part = true) : typeAny pred ty = true := by
  cases ty with
  | tuple as | name n as =>
      have inList : typeAnyList pred as = true := typeAnyList_iff.mpr ⟨part, h, found⟩
      simp [typeAny, inList]
  | func as r | externFunc as r =>
      rcases List.mem_append.mp h with h | h
      · have inList : typeAnyList pred as = true := typeAnyList_iff.mpr ⟨part, h, found⟩
        simp [typeAny, inList]
      · obtain rfl := List.mem_singleton.mp h
        simp [typeAny, found]
  | result a b =>
      simp only [Ty.parts, List.mem_cons, List.not_mem_nil, or_false] at h
      rcases h with rfl | rfl <;> simp [typeAny, found]
  | _ => simp_all [Ty.parts, typeAny]

/-- The occurs check sees every variable that resolution would. -/
theorem occursIn_of_mem_vars {v : Nat} {ty : Ty} (h : v ∈ ty.term.vars) :
    occursIn v ty = true := by
  induction ty using Ty.induct with
  | located ty ih => simpa [occursIn, typeAny] using ih h
  | typeVar w =>
      obtain rfl : v = w := by simpa [Ty.term] using h
      simp [occursIn, typeAny]
  | node ty isNode ih =>
      rw [Ty.term_node isNode, Term.mem_vars_app] at h
      obtain ⟨_, hpart, hv⟩ := h
      obtain ⟨part, member, rfl⟩ := List.mem_map.mp hpart
      exact typeAny_of_part member (ih part member hv)

/-! ### What a step of the unifier can do -/

theorem Ty.unlocated_cases (ty : Ty) :
    (∃ v, ty.unlocated = typeVar v) ∨ ty.unlocated.isNode = true := by
  induction ty using Ty.unlocated.induct with
  | case1 ty ih => simpa [Ty.unlocated] using ih
  | case2 ty h =>
      rw [Ty.unlocated]
      · rcases ty.node_cases with ⟨inner, rfl⟩ | found | found
        · exact absurd rfl (h inner)
        · exact .inl found
        · exact .inr found
      · exact fun inner eq => h inner eq

/-- A step that neither touches the table's variables nor passes on an error of resolution. -/
def UnifyStep.passive : UnifyStep → Bool
  | .union _ _ | .bind _ _ | .reject (.resolve _) => false
  | _ => true

theorem escapeArms_passive {a b : Ty} {step : UnifyStep} (h : escapeArms a b = some step) :
    step.passive = true := by
  unfold escapeArms at h
  split at h <;> try split_ifs at h
  all_goals cases h
  all_goals rfl

theorem dualArms_passive {a b : Ty} {step : UnifyStep} (h : dualArms a b = some step) :
    step.passive = true := by
  unfold dualArms at h
  split at h <;> cases h <;> rfl

theorem nameArms_passive {a b : Ty} {step : UnifyStep} (h : nameArms a b = some step) :
    step.passive = true := by
  unfold nameArms at h
  split at h
  · split_ifs at h <;> cases h <;> rfl
  · cases h

theorem functionStep_passive (aArgs : List Ty) (aRet : Ty) (bArgs : List Ty) (bRet : Ty) :
    (functionStep aArgs aRet bArgs bRet).passive = true := by
  unfold functionStep
  split_ifs <;> rfl

theorem structuralArms_passive {a b : Ty} {step : UnifyStep} (h : structuralArms a b = some step) :
    step.passive = true := by
  unfold structuralArms at h
  split at h <;> try split_ifs at h
  all_goals cases h
  all_goals first | rfl | exact functionStep_passive _ _ _ _

theorem newtypeArms_passive {a b : Ty} {step : UnifyStep} (h : newtypeArms a b = some step) :
    step.passive = true := by
  unfold newtypeArms at h
  split at h <;> cases h <;> rfl

theorem leafArms_passive {a b : Ty} {step : UnifyStep} (h : leafArms a b = some step) :
    step.passive = true := by
  unfold leafArms at h
  dsimp only at h
  split at h <;> cases h
  all_goals split_ifs <;> rfl

theorem orElse_eq_some {α : Type} {x y : Option α} {a : α} (h : (x <|> y) = some a) :
    x = some a ∨ y = some a := by
  cases x with
  | none => exact .inr (by simpa using h)
  | some b => exact .inl (by simpa using h)

/-- The arms a step may come from, in their order. -/
theorem unifyStep_arms (a b : Ty) :
    variableArms a.unlocated b.unlocated a b = some (unifyStep a b) ∨
      escapeArms a.unlocated b.unlocated = some (unifyStep a b) ∨
      dualArms a.unlocated b.unlocated = some (unifyStep a b) ∨
      nameArms a.unlocated b.unlocated = some (unifyStep a b) ∨
      structuralArms a.unlocated b.unlocated = some (unifyStep a b) ∨
      newtypeArms a.unlocated b.unlocated = some (unifyStep a b) ∨
      leafArms a.unlocated b.unlocated = some (unifyStep a b) ∨
      ∃ msg, unifyStep a b = .reject (.mismatch msg) := by
  unfold unifyStep
  dsimp only
  generalize chain : (variableArms a.unlocated b.unlocated a b <|> _) = outcome
  cases outcome with
  | none => exact .inr (.inr (.inr (.inr (.inr (.inr (.inr ⟨_, rfl⟩))))))
  | some step =>
      refine (orElse_eq_some chain).imp_right fun chain => ?_
      refine (orElse_eq_some chain).imp_right fun chain => ?_
      refine (orElse_eq_some chain).imp_right fun chain => ?_
      refine (orElse_eq_some chain).imp_right fun chain => ?_
      refine (orElse_eq_some chain).imp_right fun chain => ?_
      exact (orElse_eq_some chain).imp_right .inl

/-- Only the arms for variables touch them. -/
theorem unifyStep_cases (a b : Ty) :
    variableArms a.unlocated b.unlocated a b = some (unifyStep a b) ∨
      (unifyStep a b).passive = true := by
  refine (unifyStep_arms a b).imp_right ?_
  rintro (h | h | h | h | h | h | ⟨msg, h⟩)
  · exact escapeArms_passive h
  · exact dualArms_passive h
  · exact nameArms_passive h
  · exact structuralArms_passive h
  · exact newtypeArms_passive h
  · exact leafArms_passive h
  · rw [h]; rfl

theorem unifyStep_union {a b : Ty} {x y : Nat} (h : unifyStep a b = .union x y) :
    a.term = .var x ∧ b.term = .var y := by
  rcases unifyStep_cases a b with arms | passive
  · rw [h] at arms
    unfold variableArms at arms
    split at arms <;> try split_ifs at arms
    all_goals cases arms
    rename_i ha hb
    exact ⟨by rw [← Ty.term_unlocated, ha]; rfl, by rw [← Ty.term_unlocated, hb]; rfl⟩
  · simp [h, UnifyStep.passive] at passive

/-- A type that is no variable under its annotations has a compound term. -/
theorem Ty.term_ne_var {ty : Ty} (h : ∀ v, ty.unlocated ≠ typeVar v) (w : Nat) :
    ty.term ≠ .var w := by
  rcases ty.unlocated_cases with ⟨v, eq⟩ | node
  · exact absurd eq (h v)
  · rw [← Ty.term_unlocated]
    exact Ty.term_ne_var_of_node node w

/-- A binding step: one side is the variable, the other a compound type without it. -/
theorem unifyStep_bind {a b ty : Ty} {id : Nat} (h : unifyStep a b = .bind id ty) :
    (a.term = .var id ∧ ty = b ∨ b.term = .var id ∧ ty = a) ∧ id ∉ ty.term.vars ∧
      ∀ w, ty.term ≠ .var w := by
  rcases unifyStep_cases a b with arms | passive
  · rw [h] at arms
    unfold variableArms at arms
    split at arms <;> try split_ifs at arms
    all_goals cases arms
    · rename_i hb ha fresh
      refine ⟨.inl ⟨by rw [← Ty.term_unlocated, ha]; rfl, rfl⟩, ?_, ?_⟩
      · exact fun member => fresh (occursIn_of_mem_vars member)
      · exact Ty.term_ne_var hb
    · rename_i ha hb fresh
      refine ⟨.inr ⟨by rw [← Ty.term_unlocated, hb]; rfl, rfl⟩, ?_, ?_⟩
      · exact fun member => fresh (occursIn_of_mem_vars member)
      · exact Ty.term_ne_var ha
  · simp [h, UnifyStep.passive] at passive

/-- The errors of the case analysis are its own. -/
theorem unifyStep_reject {a b : Ty} {e : UnifyError} (h : unifyStep a b = .reject e)
    (r : ResolveError) : e ≠ .resolve r := by
  rintro rfl
  rcases unifyStep_cases a b with arms | passive
  · rw [h] at arms
    unfold variableArms at arms
    split at arms <;> try split_ifs at arms
    all_goals cases arms
  · simp [h, UnifyStep.passive] at passive

/-! ### Every reachable table is solved -/

/-- The table stands for some solved form. -/
def Table.Solvable (s : Table) : Prop := ∃ root τ, s.Solved root τ

/-- Errors other than a binding cycle. -/
def UnifyError.NoCycle (e : UnifyError) : Prop := ∀ id, e ≠ .resolve (.bindingCycle id)

/-- Resolution in a solved table, as the unifier calls it. -/
theorem resolved_solved {s : Table} {root : Nat → Nat} {τ : Nat → TypeTerm}
    (solved : s.Solved root τ) (fuel : Nat) (ty : Ty) :
    Run.Keeps (Solved · root τ) (Run.mapError UnifyError.resolve (resolveInfer fuel ty))
      (fun r => r.term = ty.term.subst τ) fun e => ∃ msg, e = .resolve (.depthOverflow msg) :=
  Run.keeps_mapError (resolveInfer_solved solved fuel ty) fun _ ⟨msg, eq⟩ => ⟨msg, by rw [eq]⟩

/-- The unifier after the resolution of both sides. -/
theorem unifyInferenceInner_resolved {fuel : Nat} {a b aResolved bResolved : Ty} {s s₁ s₂ : Table}
    (resolvesA : Run.mapError UnifyError.resolve (resolveInfer fuel a) s = some (.ok aResolved, s₁))
    (resolvesB : Run.mapError UnifyError.resolve (resolveInfer fuel b) s₁
      = some (.ok bResolved, s₂)) :
    unifyInferenceInner (fuel + 1) a b s
      = performStep fuel (fun pair => unifyInferenceInner fuel pair.1 pair.2) aResolved bResolved
          (unifyStep aResolved bResolved) s₂ := by
  simp only [unifyInferenceInner, Run.bind_apply, resolvesA, resolvesB]

/-- A term that resolution returned is fixed by resolution. -/
theorem Table.Solved.subst_resolved {s : Table} {root : Nat → Nat} {τ : Nat → TypeTerm}
    (solved : s.Solved root τ) {t u : TypeTerm} (h : t = u.subst τ) : t.subst τ = t := by
  rw [h, solved.factors.subst]

/-- A variable that resolution returned is free. -/
theorem Table.Solved.free_of_resolved {s : Table} {root : Nat → Nat} {τ : Nat → TypeTerm}
    (solved : s.Solved root τ) {u : TypeTerm} {v : Nat} (h : Term.var v = u.subst τ) :
    τ v = .var v :=
  solved.free_of_mem_vars (t := u) (by rw [← h]; simp)

/-- Uniting two free variables, the last part of the union arm. -/
theorem union_solved {root : Nat → Nat} {τ : Nat → TypeTerm} {x y : Nat} (fuel : Nat)
    (freeX : τ x = .var x) (freeY : τ y = .var y) :
    Run.Post (Solved · root τ)
      (do
        let xRoot ← Table.find fuel x
        let yRoot ← Table.find fuel y
        if xRoot ≠ yRoot then Run.modify fun s => s.setParent xRoot yRoot else pure () : Infer Unit)
      fun r s => r = .ok () ∧
        (x = y ∧ s.Solved root τ ∨ x ≠ y ∧ ∃ root', s.Solved root' (bindVar τ x (.var y))) := by
  refine Run.post_bind_of_keeps (E := fun _ => False) (find_solved root τ fuel x) ?_ (by simp)
  rintro _ rfl
  refine Run.post_bind_of_keeps (E := fun _ => False) (find_solved root τ fuel y) ?_ (by simp)
  rintro _ rfl
  intro s solved
  obtain ⟨rootX, -⟩ := solved.root_of_image_var freeX
  obtain ⟨rootY, -⟩ := solved.root_of_image_var freeY
  rw [rootX, rootY]
  by_cases same : x = y
  · rw [if_neg (by simpa using same)]
    exact Run.post_pure (P := (Solved · root τ)) (fun s solved => ⟨rfl, .inl ⟨same, solved⟩⟩) s solved
  · rw [if_pos same]
    exact Run.post_modify (P := (Solved · root τ))
      (fun s solved => ⟨rfl, .inr ⟨same, _, solved.union freeX freeY same⟩⟩) s solved

/-- Binding a free variable, the last part of the binding arms. -/
theorem bind_solved {root : Nat → Nat} {τ : Nat → TypeTerm} {x : Nat} {ty : Ty} (fuel : Nat)
    (free : τ x = .var x) (resolved : ty.term.subst τ = ty.term) (fresh : x ∉ ty.term.vars)
    (compound : ∀ w, ty.term ≠ .var w) :
    Run.Post (Solved · root τ)
      (do
        let root ← Table.find fuel x
        Run.modify fun s => s.setBinding root ty : Infer Unit)
      fun r s => r = .ok () ∧ s.Solved root (bindVar τ x ty.term) := by
  refine Run.post_bind_of_keeps (E := fun _ => False) (find_solved root τ fuel x) ?_ (by simp)
  rintro _ rfl
  intro s solved
  obtain ⟨rootX, -⟩ := solved.root_of_image_var free
  rw [rootX]
  exact Run.post_modify (P := (Solved · root τ))
    (fun s solved => ⟨rfl, solved.bind free resolved compound fresh⟩) s solved

/-- The unifier leads from solved tables to solved tables, and never reports a cycle. -/
theorem unifyInferenceInner_solvable (fuel : Nat) : ∀ a b,
    Run.Keeps Solvable (unifyInferenceInner fuel a b) (fun _ => True) UnifyError.NoCycle := by
  induction fuel with
  | zero => intro a b s _ r s' h; simp [unifyInferenceInner, Run.diverge] at h
  | succ fuel ih =>
      rintro a b s ⟨root, τ, solved⟩
      have overflow (e : UnifyError) (s : Table) (hs : s.Solved root τ)
          (he : ∃ msg, e = .resolve (.depthOverflow msg)) :
          s.Solvable ∧ (∀ u : Unit, Except.error e = .ok u → True) ∧
            ∀ e', (Except.error e : Except UnifyError Unit) = .error e' → e'.NoCycle := by
        obtain ⟨msg, rfl⟩ := he
        refine ⟨⟨root, τ, hs⟩, by simp, ?_⟩
        rintro _ eq id rfl
        simp at eq
      refine Run.post_bind_of_keeps (resolved_solved solved fuel a) ?_ overflow s solved
      intro aResolved ha
      refine Run.post_bind_of_keeps (resolved_solved solved fuel b) ?_ overflow
      intro bResolved hb
      cases step : unifyStep aResolved bResolved with
      | union x y =>
          obtain ⟨hx, hy⟩ := unifyStep_union step
          refine Run.Post.imp (union_solved fuel (solved.free_of_resolved (hx ▸ ha))
            (solved.free_of_resolved (hy ▸ hb))) (fun _ hs => hs) ?_
          rintro r s ⟨rfl, ⟨-, solved⟩ | ⟨-, root', solved⟩⟩
          · exact ⟨⟨_, _, solved⟩, by simp, by simp⟩
          · exact ⟨⟨_, _, solved⟩, by simp, by simp⟩
      | bind x ty =>
          obtain ⟨sides, fresh, compound⟩ := unifyStep_bind step
          have facts : τ x = .var x ∧ ty.term.subst τ = ty.term := by
            rcases sides with ⟨hx, rfl⟩ | ⟨hx, rfl⟩
            · exact ⟨solved.free_of_resolved (hx ▸ ha), solved.subst_resolved hb⟩
            · exact ⟨solved.free_of_resolved (hx ▸ hb), solved.subst_resolved ha⟩
          refine Run.Post.imp (bind_solved fuel facts.1 facts.2 fresh compound)
            (fun _ hs => hs) ?_
          rintro r s ⟨rfl, solved⟩
          exact ⟨⟨_, _, solved⟩, by simp, by simp⟩
      | accept => exact fun s hs => Run.keeps_pure trivial s ⟨root, τ, hs⟩
      | reject e =>
          exact fun s hs => Run.keeps_throw (fun id => unifyStep_reject step _) s ⟨root, τ, hs⟩
      | bareContainer =>
          refine fun s hs => Run.keeps_bind (M := fun _ => True)
            (Run.keeps_gets fun _ _ => trivial) (fun linear _ => ?_) s ⟨root, τ, hs⟩
          dsimp only
          split_ifs
          · exact Run.keeps_throw (by simp [UnifyError.NoCycle])
          · exact Run.keeps_pure trivial
      | parts pairs =>
          exact fun s hs =>
            Run.keeps_forEach pairs (fun pair _ => ih pair.1 pair.2) s ⟨root, τ, hs⟩

/-! ### Allocation -/

/-- The solved form of a table whose bindings descend a rank. -/
def solution (s : Table) (root rank : Nat → Nat) (v : Nat) : TypeTerm :=
  match s.binding (root v) with
  | none => .var (root v)
  | some ty =>
      ty.term.subst fun w => if rank (root w) < rank (root v) then solution s root rank w else .var w
termination_by rank (root v)

/-- A table whose walks end and whose bindings descend a rank is solvable. -/
theorem solvable_of_rank {s : Table} {root rank : Nat → Nat}
    (reaches : ∀ v, ∃ fuel, walk s.parent fuel v = some (root v))
    (rootsOnly : ∀ v ty, s.binding v = some ty → root v = v)
    (compound : ∀ v ty, s.binding v = some ty → ∀ w, ty.term ≠ .var w)
    (descends : ∀ v ty, s.binding v = some ty → ∀ w ∈ ty.term.vars, rank (root w) < rank v) :
    s.Solvable := by
  have root_root (v : Nat) : root (root v) = root v := by
    obtain ⟨fuel, walks⟩ := reaches v
    obtain ⟨fuel', walks'⟩ := reaches (root v)
    have stays : walk s.parent 1 (root v) = some (root v) := by simp [walk, parent_of_walk walks]
    exact walk_unique walks' stays
  refine ⟨root, solution s root rank, reaches, rootsOnly, ?_, ?_, ?_⟩
  · intro v
    rw [solution, solution, root_root]
  · intro v ty bound
    refine ⟨?_, compound v ty bound⟩
    rw [solution, rootsOnly v ty bound, bound]
    exact Term.subst_congr fun w hw => by rw [if_pos (descends v ty bound w hw)]
  · intro v isRoot unbound
    rw [solution, isRoot, unbound]

/-- Making a variable its own parent detaches it: every walk ends there or where it ended before. -/
theorem walk_detached {parent : Nat → Option Nat} {id fuel w r : Nat}
    (h : walk parent fuel w = some r) :
    ∃ fuel', walk (insertAt parent id (some id)) fuel' w = some id ∨
      walk (insertAt parent id (some id)) fuel' w = some r := by
  induction fuel generalizing w with
  | zero => simp [walk] at h
  | succ fuel ih =>
      by_cases same : w = id
      · subst same
        exact ⟨1, .inl (by simp [walk, insertAt])⟩
      · have next : insertAt parent id (some id) w = parent w := by simp [insertAt, same]
        rw [walk] at h
        split_ifs at h with root
        · obtain rfl := Option.some.inj h
          exact ⟨1, .inr (by simp [walk, next, root])⟩
        · obtain ⟨fuel', ends⟩ := ih h
          refine ⟨fuel' + 1, ?_⟩
          rw [walk, next, if_neg root]
          exact ends

/-- Detaching a variable from its class keeps a table solvable: the links that are left lead to the
roots there were, or to the variable, which is free. -/
theorem Table.Solvable.detach {s : Table} (h : s.Solvable) (id : Nat) :
    (s.setParent id id).Solvable := by
  obtain ⟨root, τ, solved⟩ := h
  by_cases isRoot : (s.parent id).getD id = id
  · -- already a root: no walk changes
    have same (w fuel : Nat) :
        walk (insertAt s.parent id (some id)) fuel w = walk s.parent fuel w := by
      induction fuel generalizing w with
      | zero => rfl
      | succ fuel ih =>
          have next : (insertAt s.parent id (some id) w).getD w = (s.parent w).getD w := by
            by_cases eq : w = id
            · subst eq; simp [insertAt, isRoot]
            · simp [insertAt, eq]
          simp only [walk, next, ih]
    exact ⟨root, τ, by simpa [same] using solved.reaches, by simpa using solved.rootsOnly,
      solved.follows, by simpa using solved.bound, by simpa using solved.unbound⟩
  · have ends (w : Nat) : ∃ r, (∃ fuel, walk (insertAt s.parent id (some id)) fuel w = some r) ∧
        (r = id ∨ r = root w) := by
      obtain ⟨fuel, walks⟩ := solved.reaches w
      obtain ⟨fuel', atId | atRoot⟩ := @walk_detached _ id _ _ _ walks
      · exact ⟨id, ⟨fuel', atId⟩, .inl rfl⟩
      · exact ⟨root w, ⟨fuel', atRoot⟩, .inr rfl⟩
    choose root' reaches' among using ends
    have stillRoot (v : Nat) (ty : Ty) (bound : s.binding v = some ty) : root' v = v := by
      have old : (s.parent v).getD v = v := by
        have := solved.root_isRoot v
        rwa [solved.rootsOnly v ty bound] at this
      have other : v ≠ id := fun eq => isRoot (eq ▸ old)
      obtain ⟨fuel, walks⟩ := reaches' v
      have stays : walk (insertAt s.parent id (some id)) 1 v = some v := by
        simp [walk, insertAt, other, old]
      exact walk_unique walks stays
    have unboundId : s.binding id = none := by
      cases bound : s.binding id with
      | none => rfl
      | some ty =>
          have := solved.root_isRoot id
          rw [solved.rootsOnly id ty bound] at this
          exact absurd this isRoot
    let rank (v : Nat) : Nat := if (s.binding v).isSome then (τ v).size else 0
    refine @solvable_of_rank _ root' rank (by simpa using reaches') (by simpa using stillRoot)
      ?_ ?_
    · intro v ty bound
      exact (solved.bound v ty (by simpa using bound)).2
    · intro v ty bound w hw
      rw [setParent_binding] at bound
      obtain ⟨image, compound⟩ := solved.bound v ty bound
      have smaller : (τ w).size < (τ v).size := by
        rw [image]
        exact Term.size_lt_of_mem_vars hw compound
      have atRoot : (τ (root w)).size < (τ v).size := by rwa [← solved.follows w]
      simp only [rank, bound, Option.isSome_some, if_true]
      rcases among w with eq | eq
      · simp only [eq, unboundId, Option.isSome_none, Bool.false_eq_true, if_false]
        omega
      · rw [eq]
        split_ifs <;> omega

theorem Table.Solvable.congr {s s' : Table} (parent : s'.parent = s.parent)
    (binding : s'.binding = s.binding) (h : s.Solvable) : s'.Solvable := by
  obtain ⟨root, τ, solved⟩ := h
  exact ⟨root, τ, solved.congr parent binding⟩

theorem solvable_invariant : StoreInvariant Table.Solvable where
  new := ⟨_, _, solved_new⟩
  store _ _ same h := h.congr (congrArg Store.parent same) (congrArg Store.binding same)
  freshVar s id s' fresh h := by
    simp only [freshVar, Option.ite_none_right_eq_some, Option.some.injEq, Prod.mk.injEq] at fresh
    obtain ⟨-, -, rfl⟩ := fresh
    exact (h.congr (by simp) (by simp)).detach s.nextVar
  find fuel id := by
    rintro s ⟨root, τ, solved⟩ r s' found
    exact ⟨⟨root, τ, (find_solved (E := fun _ => True) root τ fuel id s solved _ _ found).1⟩,
      fun _ _ => trivial, fun _ _ => trivial⟩
  resolve fuel ty := by
    rintro s ⟨root, τ, solved⟩ r s' resolved
    exact ⟨⟨root, τ, (resolveInfer_solved solved fuel ty s solved _ _ resolved).1⟩,
      fun _ _ => trivial, fun _ _ => trivial⟩
  unify fuel a b := by
    intro s h r s' result
    exact ⟨(unifyInferenceInner_solvable fuel a b s h _ _ result).1, fun _ _ => trivial,
      fun _ _ => trivial⟩

/-- Every reachable table stands for a solved form. -/
theorem Reach.solvable {open_ : List Nat} {s : Table} (reach : Reach open_ s) : s.Solvable :=
  (reach.guarded solvable_invariant).now

/-! ### Acyclicity -/

/-- Pointing a variable at the root of its class makes no walk of the class longer. -/
theorem walk_compressed {parent : Nat → Option Nat} {v r : Nat} (below : v ≠ r)
    (isRoot : (parent r).getD r = r) {fuel w : Nat} (h : walk parent fuel w = some r) :
    walk (insertAt parent v (some r)) fuel w = some r := by
  induction fuel generalizing w with
  | zero => simp [walk] at h
  | succ fuel ih =>
      rw [walk] at h ⊢
      by_cases same : w = v
      · subst same
        rw [if_neg fun eq => below (Option.some.inj ((if_pos eq).symm.trans h))] at h
        have shorter : ∃ k, fuel = k + 1 := by
          cases fuel with
          | zero => simp [walk] at h
          | succ k => exact ⟨k, rfl⟩
        obtain ⟨k, rfl⟩ := shorter
        simp [insertAt, below.symm, walk, isRoot]
      · have next : insertAt parent v (some r) w = parent w := by simp [insertAt, same]
        rw [next]
        split_ifs at h ⊢ with stop
        · exact h
        · exact ih h

/-- The compression of a path ends with the fuel of the walk along it. -/
theorem compress_returns {s : Table} {fuel v r : Nat} (h : walk s.parent fuel v = some r) :
    ∃ s', compress r fuel v s = some s' := by
  induction fuel generalizing s v with
  | zero => simp [walk] at h
  | succ fuel ih =>
      have isRoot := parent_of_walk h
      rw [compress]
      split_ifs with done
      · exact ⟨s, rfl⟩
      · refine ih ?_
        rw [walk] at h
        split_ifs at h with stop
        · exact absurd (Option.some.inj h) done
        · rw [setParent_parent]
          exact walk_compressed done isRoot h

theorem find_returns {ε : Type} {s : Table} {fuel v r : Nat} (h : walk s.parent fuel v = some r) :
    ∃ s', (Table.find fuel v : Run Table ε Nat) s = some (.ok r, s') := by
  obtain ⟨s', compressed⟩ := compress_returns h
  exact ⟨s', by simp [Table.find, h, compressed]⟩

/-- A variable of the class of `r'` occurs in the binding of `r`, outside quantified bodies. -/
def Table.Occurs (s : Table) (root : Nat → Nat) (r r' : Nat) : Prop :=
  ∃ ty, s.binding r = some ty ∧ ∃ v ∈ ty.term.vars, root v = r'

/-- A binding is larger than what occurs in it. -/
theorem Table.Solved.size_lt_of_occurs {s : Table} {root : Nat → Nat} {τ : Nat → TypeTerm}
    (solved : s.Solved root τ) {r r' : Nat} (h : s.Occurs root r r') :
    (τ r').size < (τ r).size := by
  obtain ⟨ty, bound, v, hv, rfl⟩ := h
  obtain ⟨image, compound⟩ := solved.bound r ty bound
  rw [← solved.follows v, image]
  exact Term.size_lt_of_mem_vars hv compound

/-- In every reachable table the search for a root ends, at a variable that is its own parent; only
roots carry bindings; no root occurs in its own binding, directly or through other bindings; and
resolution never reports a binding cycle. -/
theorem inference_state_acyclic {open_ : List Nat} {s : Table} (reach : Reach open_ s) :
    ∃ root : Nat → Nat,
      (∀ v, ∃ fuel s', (Table.find fuel v : Resolve Nat) s = some (.ok (root v), s')) ∧
      (∀ v, (s.parent (root v)).getD (root v) = root v) ∧
      (∀ v ty, s.binding v = some ty → root v = v) ∧
      (∀ r, ¬ Relation.TransGen (s.Occurs root) r r) ∧
      ∀ fuel ty id s', resolveInfer fuel ty s ≠ some (.error (.bindingCycle id), s') := by
  obtain ⟨root, τ, solved⟩ := reach.solvable
  refine ⟨root, ?_, solved.root_isRoot, solved.rootsOnly, ?_, ?_⟩
  · intro v
    obtain ⟨fuel, walks⟩ := solved.reaches v
    exact ⟨fuel, find_returns walks⟩
  · intro r cycle
    have smaller : ∀ r', Relation.TransGen (s.Occurs root) r r' → (τ r').size < (τ r).size := by
      intro r' path
      induction path with
      | single occurs => exact solved.size_lt_of_occurs occurs
      | tail _ occurs ih => exact (solved.size_lt_of_occurs occurs).trans ih
    exact absurd (smaller r cycle) (Nat.lt_irrefl _)
  · intro fuel ty id s' cycle
    obtain ⟨msg, eq⟩ :=
      (resolveInfer_solved solved fuel ty s solved _ _ cycle).2.2 _ rfl
    simp at eq

/-- After `T0` is bound to `Option<T1>` the root `T0` does not occur in its own binding. -/
theorem inference_state_acyclic_option :
    ∃ s root, s.binding 0 = some (option (typeVar 1)) ∧
      ¬ Relation.TransGen (Table.Occurs s root) 0 0 := by
  have reach := @Reach.constrain _ _ _ 9 (typeVar 0) (option (typeVar 1)) _ .new rfl
  obtain ⟨root, -, -, -, acyclic, -⟩ := inference_state_acyclic reach
  exact ⟨_, root, rfl, acyclic 0⟩

/-- The occurs check compares the identifier of the variable alone, and resolution does not enter
quantified bodies: with `T1` united with `T2`, the root `T2` is bound to a type in whose body `T1`
occurs. -/
theorem quantified_binding_mentions_its_class :
    ∃ s, Reach [] s ∧ (∃ s', (Table.find 9 1 : Resolve Nat) s = some (.ok 2, s')) ∧
      ∃ ty, s.binding 2 = some ty ∧ occursIn 1 ty = true := by
  have first := @Reach.freshVar [] _ _ _ .new rfl
  have second := Reach.freshVar first rfl
  have third := Reach.freshVar second rfl
  have united := @Reach.constrain _ _ _ 9 (typeVar 1) (typeVar 2) _ third rfl
  have bound := @Reach.unifyInference _ _ _ 9 (typeVar 2) (forAll ["T"] (typeVar 1)) _ united rfl
  exact ⟨_, bound, ⟨_, rfl⟩, _, rfl, rfl⟩

end Mimi.Core
