/-
Module: Mimi.Proofs.BareContainer
Purpose: What the bare-container arm of the unifier guarantees.  The arm looks for linear types in
  the two resolved containers once, when they meet.  So nothing linear is hidden in a container
  whose elements are free of inference variables by then and whose wrappers the arm looks through;
  an element variable that is still unbound can be bound to a capability later.
Trusted boundary: none
-/
import Mimi.Proofs.InferenceAcyclicity

namespace Mimi.Core

open Mimi.Lib Ty

/-! ### Linear types under any wrapper -/

/-- A type that `containsLinearSurface` recognises by its outermost constructor. -/
def isLinearNode (linearTypeNames : List String) : Ty → Bool
  | cap _ | capAtom _ => true
  | name n args =>
      linearTypeNames.contains n || ((n == "SessionChan" || n == "session_chan") && !args.isEmpty)
  | _ => false

/-- A linear type occurs in the type, at any depth and under any wrapper. -/
def containsLinear (linearTypeNames : List String) : Ty → Bool :=
  typeAny (isLinearNode linearTypeNames)

mutual

/-- A linear type occurs under a wrapper that the bare-container arm does not look through: a
function type, a reference, a shared, weak or raw pointer, a quantified body. -/
def hidesLinear (linearTypeNames : List String) : Ty → Bool
  | func args ret | externFunc args ret =>
      typeAnyList (isLinearNode linearTypeNames) args || containsLinear linearTypeNames ret
  | ref _ inner | refMut _ inner | shared inner | weak inner | rawPtr inner | rawPtrMut inner
  | forAll _ inner => containsLinear linearTypeNames inner
  | located inner | option inner | cBuffer inner | slice inner | newtype _ inner | array inner _ =>
      hidesLinear linearTypeNames inner
  | result ok err => hidesLinear linearTypeNames ok || hidesLinear linearTypeNames err
  | tuple items | name _ items => hideLinear linearTypeNames items
  | _ => false

def hideLinear (linearTypeNames : List String) : List Ty → Bool
  | [] => false
  | ty :: tys => hidesLinear linearTypeNames ty || hideLinear linearTypeNames tys

end

section Linear

variable (names : List String)

/-- A linear type is one the arm sees or one it does not look for. -/
theorem containsLinear_eq (ty : Ty) :
    containsLinear names ty = (containsLinearSurface names ty || hidesLinear names ty) := by
  have list (tys : List Ty) (ih : ∀ ty ∈ tys, typeAny (isLinearNode names) ty
      = (containsLinearSurface names ty || hidesLinear names ty)) :
      typeAnyList (isLinearNode names) tys
        = (containLinearSurface names tys || hideLinear names tys) := by
    induction tys with
    | nil => rfl
    | cons ty tys rest =>
        rw [typeAnyList, containLinearSurface, hideLinear, ih ty (by simp),
          rest fun ty h => ih ty (by simp [h])]
        ac_rfl
  unfold containsLinear
  induction ty using Ty.induct with
  | located ty ih => simp [typeAny, isLinearNode, containsLinearSurface, hidesLinear, ih]
  | typeVar v => rfl
  | node ty node ih =>
      cases ty with
      | name n as =>
          rw [typeAny, list as ih, containsLinearSurface, hidesLinear, isLinearNode]
          ac_rfl
      | tuple as => rw [typeAny, list as ih, containsLinearSurface, hidesLinear]; rfl
      | result a b =>
          have constructor_ : isLinearNode names (result a b) = false := rfl
          rw [typeAny, ih a (by simp [parts]), ih b (by simp [parts]), containsLinearSurface,
            hidesLinear, constructor_, Bool.false_or]
          ac_rfl
      | option a | cBuffer a | slice a | newtype _ a | array a _ =>
          rw [typeAny, ih a (by simp [parts]), containsLinearSurface, hidesLinear]; rfl
      | located _ => simp [Ty.isNode] at node
      | _ => simp [typeAny, isLinearNode, containsLinearSurface, hidesLinear, containsLinear]

/-- The same node over parts with the same linear types has the same linear types. -/
theorem Rebuilt.containsLinear_eq {ty r : Ty}
    (h : Rebuilt (fun part part' => containsLinear names part' = containsLinear names part) ty r) :
    containsLinear names r = containsLinear names ty := by
  have list {as as' : List Ty} (h : List.Forall₂
      (fun part part' => containsLinear names part' = containsLinear names part) as as') :
      typeAnyList (isLinearNode names) as' = typeAnyList (isLinearNode names) as ∧
        as'.isEmpty = as.isEmpty := by
    induction h with
    | nil => exact ⟨rfl, rfl⟩
    | cons head _ ih =>
        unfold containsLinear at head
        simp [typeAnyList, head, ih.1]
  cases h with
  | leaf _ => rfl
  | name h => simp [containsLinear, typeAny, isLinearNode, list h]
  | tuple h => simp [containsLinear, typeAny, isLinearNode, list h]
  | func hs h | externFunc hs h =>
      unfold containsLinear at h
      simp [containsLinear, typeAny, isLinearNode, list hs, h]
  | result ha hb =>
      unfold containsLinear at ha hb
      simp [containsLinear, typeAny, isLinearNode, ha, hb]
  | _ h =>
      unfold containsLinear at h
      simp [containsLinear, typeAny, isLinearNode, h]

/-- Resolution changes nothing in a type without inference variables, whatever the table. -/
theorem resolveWithDepth_closed (fuel remaining : Nat) : ∀ (resolving : List Nat) (ty : Ty),
    (∀ v, occursIn v ty = false) →
      Run.Keeps (fun _ => True) (resolveWithDepth fuel remaining resolving ty)
        (fun r => containsLinear names r = containsLinear names ty) fun _ => True := by
  induction remaining with
  | zero => intro resolving ty _; exact Run.keeps_throw trivial
  | succ next ih =>
      intro resolving ty closed
      rcases ty.node_cases with ⟨inner, rfl⟩ | ⟨id, rfl⟩ | node
      · have closed' (v : Nat) : occursIn v inner = false := by
          simpa [occursIn, typeAny] using closed v
        refine Run.keeps_bind (ih resolving inner closed') fun r hr => Run.keeps_pure ?_
        have same : containsLinear names r.withMeta = containsLinear names r := by
          cases r <;> simp [withMeta, containsLinear, typeAny, isLinearNode]
        rw [same, hr]
        simp [containsLinear, typeAny, isLinearNode]
      · simpa [occursIn, typeAny] using closed id
      · rw [resolveWithDepth_node node]
        refine (keeps_mapPartsM fun part member => ih resolving part fun v => ?_).weaken
          fun r hr => hr.containsLinear_eq names
        rw [Bool.eq_false_iff]
        exact fun occurs => Bool.eq_false_iff.mp (closed v) (typeAny_of_part member occurs)

end Linear

/-! ### Where bare containers meet -/

/-- During the unification of `a` and `b` from the table `s`, the bare-container arm meets the
resolved containers `c` and `d`. -/
inductive MeetsBare : Nat → Ty → Ty → Table → Ty → Ty → Prop where
  | here {fuel : Nat} {a b aResolved bResolved : Ty} {s s₁ s₂ : Table}
      (resolvesA : Run.mapError UnifyError.resolve (resolveInfer fuel a) s
        = some (.ok aResolved, s₁))
      (resolvesB : Run.mapError UnifyError.resolve (resolveInfer fuel b) s₁
        = some (.ok bResolved, s₂))
      (step : unifyStep aResolved bResolved = .bareContainer) :
      MeetsBare (fuel + 1) a b s aResolved bResolved
  | part {fuel : Nat} {a b aResolved bResolved c d : Ty} {s s₁ s₂ s₃ : Table}
      {before after : List (Ty × Ty)} {pair : Ty × Ty}
      (resolvesA : Run.mapError UnifyError.resolve (resolveInfer fuel a) s
        = some (.ok aResolved, s₁))
      (resolvesB : Run.mapError UnifyError.resolve (resolveInfer fuel b) s₁
        = some (.ok bResolved, s₂))
      (step : unifyStep aResolved bResolved = .parts (before ++ pair :: after))
      (ran : Run.forEach (fun pair => unifyInferenceInner fuel pair.1 pair.2) before s₂
        = some (.ok (), s₃))
      (deeper : MeetsBare fuel pair.1 pair.2 s₃ c d) : MeetsBare (fuel + 1) a b s c d

section Names

variable (names : List String)

theorem unifyInferenceInner_names (fuel : Nat) (a b : Ty) :
    Run.Keeps (fun s : Table => s.linearTypeNames = names) (unifyInferenceInner fuel a b)
      (fun _ => True) fun _ => True :=
  unifyInferenceInner_keeps (I := fun s => s.linearTypeNames = names)
    (fun s id parent h => (Table.setParent_names s id parent).trans h)
    (fun s id ty h => (Table.setBinding_names s id ty).trans h) fuel a b

theorem resolved_names (fuel : Nat) (ty : Ty) :
    Run.Keeps (fun s : Table => s.linearTypeNames = names)
      (Run.mapError UnifyError.resolve (resolveInfer fuel ty)) (fun _ => True) fun _ => True :=
  Run.keeps_mapError (resolveWithDepth_keeps (I := fun s => s.linearTypeNames = names)
    (fun s id parent h => (Table.setParent_names s id parent).trans h)
    (fun s id ty h => (Table.setBinding_names s id ty).trans h) fuel _ [] ty) fun _ _ => trivial

end Names

variable {s s' : Table}

/-- The arm lets two containers pass if its check finds nothing linear in them. -/
theorem bareContainerArm_ok {c d : Ty} (run : bareContainerArm c d s = some (.ok (), s')) :
    containsLinearSurface s.linearTypeNames c = false ∧
      containsLinearSurface s.linearTypeNames d = false := by
  simp only [bareContainerArm, Run.bind_apply, Run.gets] at run
  split_ifs at run with found
  · simp [Run.throw] at run
  · simpa using found

/-- Every pair of containers met by a run that succeeds has passed the check of the arm. -/
theorem MeetsBare.passed {names : List String} {fuel : Nat} {a b c d : Ty}
    (meets : MeetsBare fuel a b s c d) (sameNames : s.linearTypeNames = names)
    (run : unifyInferenceInner fuel a b s = some (.ok (), s')) :
    containsLinearSurface names c = false ∧ containsLinearSurface names d = false := by
  induction meets generalizing s' with
  | @here fuel a b aResolved bResolved s s₁ s₂ resolvesA resolvesB step =>
      have names₁ := (resolved_names names fuel a s sameNames _ _ resolvesA).1
      have names₂ := (resolved_names names fuel b s₁ names₁ _ _ resolvesB).1
      rw [unifyInferenceInner_resolved resolvesA resolvesB, step] at run
      exact names₂ ▸ bareContainerArm_ok run
  | @part fuel a b aResolved bResolved c d s s₁ s₂ s₃ before after pair resolvesA resolvesB step ran
      deeper ih =>
      have names₁ := (resolved_names names fuel a s sameNames _ _ resolvesA).1
      have names₂ := (resolved_names names fuel b s₁ names₁ _ _ resolvesB).1
      have names₃ := (Run.keeps_forEach before (fun pair _ =>
        unifyInferenceInner_names names fuel pair.1 pair.2) s₂ names₂ _ _ ran).1
      rw [unifyInferenceInner_resolved resolvesA resolvesB, step] at run
      replace run : Run.forEach (fun pair => unifyInferenceInner fuel pair.1 pair.2)
        (before ++ pair :: after) s₂ = some (.ok (), s') := run
      rw [Run.forEach_append ran, Run.forEach] at run
      obtain ⟨e, _, -, impossible⟩ | ⟨⟨⟩, _, head, -⟩ := Run.bind_eq_some.mp run
      · simp at impossible
      · exact ih names₃ head

/-! ### Runs of successful constraints -/

/-- A checked constraint that meets a container at the bare-container arm. -/
def ConstrainMeets (fuel : Nat) (a b : Ty) (s : Table) (c : Ty) : Prop :=
  ∃ aResolved bResolved s₁ s₂ left right,
    Run.mapError UnifyError.resolve (resolveInfer fuel a) s.enter = some (.ok aResolved, s₁) ∧
    Run.mapError UnifyError.resolve (resolveInfer fuel b) s₁ = some (.ok bResolved, s₂) ∧
    MeetsBare fuel aResolved bResolved s₂ left right ∧ (c = left ∨ c = right)

/-- The tables that fresh variables and successful constraints lead to, with the containers that
have met a bare one, as they were resolved then. -/
inductive History (names : List String) : Table → (Ty → Prop) → Prop where
  | new : History names { Table.new with linearTypeNames := names } fun _ => False
  | freshVar {s s' : Table} {met : Ty → Prop} {id : Nat} (h : History names s met)
      (fresh : s.freshVar = some (id, s')) : History names s' met
  | constrain {s s' : Table} {met : Ty → Prop} {fuel : Nat} {a b : Ty} (h : History names s met)
      (result : constrain fuel a b s = some (.ok (), s')) :
      History names s' fun c => met c ∨ ConstrainMeets fuel a b s c

/-- A transaction that succeeds leaves the table of its operation. -/
theorem transaction_ok {operation : Infer Unit} (h : transaction operation s = some (.ok (), s')) :
    ∃ s₁, operation s.enter = some (.ok (), s₁) ∧ s' = s₁.leave s.trail.length false := by
  simp only [transaction] at h
  split at h
  · simp at h
  · exact ⟨_, ‹_›, by simpa using h.symm⟩
  · simp at h

/-- The parts of a successful checked constraint. -/
theorem checkedUnify_ok {fuel : Nat} {a b : Ty} (h : checkedUnify fuel a b s = some (.ok (), s')) :
    ∃ aResolved bResolved s₁ s₂,
      Run.mapError UnifyError.resolve (resolveInfer fuel a) s = some (.ok aResolved, s₁) ∧
      Run.mapError UnifyError.resolve (resolveInfer fuel b) s₁ = some (.ok bResolved, s₂) ∧
      unifyInferenceInner fuel aResolved bResolved s₂ = some (.ok (), s') := by
  obtain ⟨_, _, -, impossible⟩ | ⟨aResolved, s₁, resolvesA, h⟩ := Run.bind_eq_some.mp h
  · simp at impossible
  obtain ⟨_, _, -, impossible⟩ | ⟨bResolved, s₂, resolvesB, h⟩ := Run.bind_eq_some.mp h
  · simp at impossible
  split_ifs at h
  · simp [Run.throw] at h
  · exact ⟨aResolved, bResolved, s₁, s₂, resolvesA, resolvesB, h⟩

/-- A container that passed the arm in a successful constraint showed nothing linear to it. -/
theorem ConstrainMeets.passed {names : List String} {fuel : Nat} {a b c : Ty} {s s' : Table}
    (meets : ConstrainMeets fuel a b s c) (sameNames : s.linearTypeNames = names)
    (result : constrain fuel a b s = some (.ok (), s')) : containsLinearSurface names c = false := by
  obtain ⟨aResolved, bResolved, s₁, s₂, left, right, resolvesA, resolvesB, deeper, side⟩ := meets
  obtain ⟨s₃, operation, -⟩ := transaction_ok result
  obtain ⟨aResolved', bResolved', s₁', s₂', resolvesA', resolvesB', run⟩ := checkedUnify_ok operation
  obtain ⟨⟨⟩, ⟨⟩⟩ := Prod.mk.inj (Option.some.inj (resolvesA'.symm.trans resolvesA))
  obtain ⟨⟨⟩, ⟨⟩⟩ := Prod.mk.inj (Option.some.inj (resolvesB'.symm.trans resolvesB))
  have names₁ := (resolved_names names fuel a s.enter sameNames _ _ resolvesA).1
  have names₂ := (resolved_names names fuel b s₁ names₁ _ _ resolvesB).1
  obtain ⟨passedLeft, passedRight⟩ := deeper.passed names₂ run
  rcases side with rfl | rfl
  · exact passedLeft
  · exact passedRight

/-- The flow-state names stay as they were seeded. -/
theorem History.names {names : List String} {s : Table} {met : Ty → Prop}
    (run : History names s met) : s.linearTypeNames = names := by
  induction run with
  | new => rfl
  | freshVar _ fresh ih =>
      simp only [Table.freshVar, Option.ite_none_right_eq_some, Option.some.injEq,
        Prod.mk.injEq] at fresh
      obtain ⟨-, -, rfl⟩ := fresh
      rw [Table.setParent_names]
      unfold Table.record
      split_ifs <;> exact ih
  | @constrain s s' _ fuel a b _ result ih =>
      obtain ⟨s₃, operation, rfl⟩ := transaction_ok result
      obtain ⟨aResolved, bResolved, s₁, s₂, resolvesA, resolvesB, unified⟩ :=
        checkedUnify_ok operation
      have names₁ := (resolved_names names fuel a s.enter ih _ _ resolvesA).1
      have names₂ := (resolved_names names fuel b s₁ names₁ _ _ resolvesB).1
      have names₃ := (unifyInferenceInner_names names fuel _ _ s₂ names₂ _ _ unified).1
      simp only [Table.leave, Bool.false_eq_true, if_false]
      split_ifs <;> exact names₃

/-- Every container that has met a bare one showed nothing linear then. -/
theorem History.passed {names : List String} {s : Table} {met : Ty → Prop}
    (run : History names s met) : ∀ c, met c → containsLinearSurface names c = false := by
  induction run with
  | new => exact fun _ impossible => impossible.elim
  | freshVar _ _ ih => exact ih
  | constrain before result ih =>
      rintro c (earlier | now)
      · exact ih c earlier
      · exact now.passed before.names result

/-- When the arm met a container, no inference variable was left in it and no linear type was under a
wrapper that the arm does not look through. -/
def MetSettled (names : List String) (c : Ty) : Prop :=
  (∀ v, occursIn v c = false) ∧ hidesLinear names c = false

/-- In every run of successful constraints in which bare containers only meet settled ones, no
container that met a bare one has a linear type in it after zonking, at any point of the run. -/
theorem bare_containers_hide_nothing {names : List String} {s : Table} {met : Ty → Prop}
    (run : History names s met) (settled : ∀ c, met c → MetSettled names c) :
    ∀ c, met c → ∀ fuel zonked s', zonk fuel c s = some (.ok zonked, s') →
      containsLinear names zonked = false := by
  intro c member fuel zonked s' result
  obtain ⟨closed, hidden⟩ := settled c member
  obtain ⟨_, _, -, impossible⟩ | ⟨resolved, s₁, resolves, scanned⟩ := Run.bind_eq_some.mp result
  · simp at impossible
  have same : resolved = zonked := by
    cases scan : scanResidual resolved with
    | ok u => simpa [scan, Run.pure_apply] using congrArg (Option.map Prod.fst) scanned
    | error e => simp [scan, Run.throw] at scanned
  have kept := (resolveWithDepth_closed names fuel maxResolveDepth [] c closed s trivial _ _
    resolves).2.1 resolved rfl
  rw [← same, kept, containsLinear_eq, run.passed c member, hidden, Bool.or_self]

/-- The element type `i32` of a list that met a bare one. -/
theorem bare_containers_hide_nothing_i32 :
    ∃ s met c, History [] s met ∧ met c ∧ ∀ fuel zonked s', zonk fuel c s = some (.ok zonked, s') →
      containsLinear [] zonked = false := by
  have run := @History.constrain [] _ _ _ 9 (name "List" []) (name "List" [name "i32" []]) .new rfl
  have meets : ConstrainMeets 9 (name "List" []) (name "List" [name "i32" []])
      { Table.new with linearTypeNames := [] } (name "List" [name "i32" []]) :=
    ⟨_, _, _, _, _, _, rfl, rfl, .here rfl rfl rfl, .inr rfl⟩
  refine ⟨_, _, _, run, .inr meets, bare_containers_hide_nothing run ?_ _ (.inr meets)⟩
  rintro c (⟨⟨⟩⟩ | ⟨_, _, _, _, left, right, ⟨⟩, ⟨⟩, deeper, side⟩)
  cases deeper with
  | here resolvesA resolvesB step =>
      cases resolvesA
      cases resolvesB
      rcases side with rfl | rfl <;> exact ⟨fun v => rfl, rfl⟩
  | part resolvesA resolvesB step _ _ =>
      cases resolvesA
      cases resolvesB
      cases step

/-- A list of a fresh variable meets a bare list, and then the variable is bound to a capability. -/
theorem bare_container_hides_capability :
    ∃ s met, History [] s met ∧ met (name "List" [typeVar 0]) ∧
      ∃ s', zonk 9 (name "List" [typeVar 0]) s = some (.ok (name "List" [cap "C"]), s') ∧
        containsLinear [] (name "List" [cap "C"]) = true := by
  have fresh := @History.freshVar [] _ _ _ _ .new rfl
  have list := @History.constrain [] _ _ _ 9 (name "List" []) (name "List" [typeVar 0]) fresh rfl
  have bound := @History.constrain [] _ _ _ 9 (typeVar 0) (cap "C") list rfl
  refine ⟨_, _, bound, .inl (.inr ?_), _, rfl, rfl⟩
  exact ⟨_, _, _, _, _, _, rfl, rfl, .here rfl rfl rfl, .inr rfl⟩

end Mimi.Core
