/-
Module: Mimi.Proofs.InferenceAtomicity
Purpose: Failed constraints and probes leave the inference table as it was, at any nesting of
  transactions.  Inside a transaction every write extends the undo trail by the entry that takes it
  back, so the rollback of a transaction restores the table it opened on.
Trusted boundary: none
-/
import Mimi.Core.Unification

namespace Mimi.Core

open Mimi.Lib Ty

/-! ### Invariants that every write keeps -/

/-- The immediate parts that resolution enters. -/
def Ty.parts : Ty → List Ty
  | option a | ref _ a | refMut _ a | shared a | weak a | rawPtr a | rawPtrMut a | cBuffer a
  | array a _ | slice a | newtype _ a => [a]
  | result a b => [a, b]
  | tuple as | name _ as => as
  | func as r | externFunc as r => as ++ [r]
  | _ => []

/-- One level of resolution: the same node over related parts. -/
inductive Rebuilt (Q : Ty → Ty → Prop) : Ty → Ty → Prop where
  | option {a a' : Ty} (h : Q a a') : Rebuilt Q (option a) (option a')
  | result {a a' b b' : Ty} (ha : Q a a') (hb : Q b b') : Rebuilt Q (result a b) (result a' b')
  | tuple {as as' : List Ty} (h : List.Forall₂ Q as as') : Rebuilt Q (tuple as) (tuple as')
  | func {as as' : List Ty} {r r' : Ty} (hs : List.Forall₂ Q as as') (h : Q r r') :
      Rebuilt Q (func as r) (func as' r')
  | externFunc {as as' : List Ty} {r r' : Ty} (hs : List.Forall₂ Q as as') (h : Q r r') :
      Rebuilt Q (externFunc as r) (externFunc as' r')
  | ref {l : Option String} {a a' : Ty} (h : Q a a') : Rebuilt Q (ref l a) (ref l a')
  | refMut {l : Option String} {a a' : Ty} (h : Q a a') : Rebuilt Q (refMut l a) (refMut l a')
  | shared {a a' : Ty} (h : Q a a') : Rebuilt Q (shared a) (shared a')
  | weak {a a' : Ty} (h : Q a a') : Rebuilt Q (weak a) (weak a')
  | rawPtr {a a' : Ty} (h : Q a a') : Rebuilt Q (rawPtr a) (rawPtr a')
  | rawPtrMut {a a' : Ty} (h : Q a a') : Rebuilt Q (rawPtrMut a) (rawPtrMut a')
  | cBuffer {a a' : Ty} (h : Q a a') : Rebuilt Q (cBuffer a) (cBuffer a')
  | array {a a' : Ty} {n : Nat} (h : Q a a') : Rebuilt Q (array a n) (array a' n)
  | slice {a a' : Ty} (h : Q a a') : Rebuilt Q (slice a) (slice a')
  | newtype {n : String} {a a' : Ty} (h : Q a a') : Rebuilt Q (newtype n a) (newtype n a')
  | name {n : String} {as as' : List Ty} (h : List.Forall₂ Q as as') :
      Rebuilt Q (name n as) (name n as')
  | leaf {ty : Ty} (h : ty.parts = []) : Rebuilt Q ty ty

open Run in
theorem keeps_mapPartsM {I : Table → Prop} {f : Ty → Resolve Ty} {Q : Ty → Ty → Prop}
    {E : ResolveError → Prop} {ty : Ty} (h : ∀ part ∈ ty.parts, Keeps I (f part) (Q part) E) :
    Keeps I (mapPartsM f ty) (Rebuilt Q ty) E := by
  have list (tys : List Ty) (among : ∀ part ∈ tys, part ∈ ty.parts) :
      Keeps I (Run.mapM f tys) (List.Forall₂ Q tys) E :=
    keeps_mapM tys fun part member => h part (among part member)
  cases ty with
  | option a => exact keeps_bind (h a (by simp [parts])) fun a' ha => keeps_pure (.option ha)
  | result a b =>
      exact keeps_bind (h a (by simp [parts])) fun a' ha =>
        keeps_bind (h b (by simp [parts])) fun b' hb => keeps_pure (.result ha hb)
  | tuple as => exact keeps_bind (list as (by simp [parts])) fun as' has => keeps_pure (.tuple has)
  | func as r =>
      exact keeps_bind (list as (by simp +contextual [parts])) fun as' has =>
        keeps_bind (h r (by simp [parts])) fun r' hr => keeps_pure (.func has hr)
  | externFunc as r =>
      exact keeps_bind (list as (by simp +contextual [parts])) fun as' has =>
        keeps_bind (h r (by simp [parts])) fun r' hr => keeps_pure (.externFunc has hr)
  | ref l a => exact keeps_bind (h a (by simp [parts])) fun a' ha => keeps_pure (.ref ha)
  | refMut l a => exact keeps_bind (h a (by simp [parts])) fun a' ha => keeps_pure (.refMut ha)
  | shared a => exact keeps_bind (h a (by simp [parts])) fun a' ha => keeps_pure (.shared ha)
  | weak a => exact keeps_bind (h a (by simp [parts])) fun a' ha => keeps_pure (.weak ha)
  | rawPtr a => exact keeps_bind (h a (by simp [parts])) fun a' ha => keeps_pure (.rawPtr ha)
  | rawPtrMut a => exact keeps_bind (h a (by simp [parts])) fun a' ha => keeps_pure (.rawPtrMut ha)
  | cBuffer a => exact keeps_bind (h a (by simp [parts])) fun a' ha => keeps_pure (.cBuffer ha)
  | array a n => exact keeps_bind (h a (by simp [parts])) fun a' ha => keeps_pure (.array ha)
  | slice a => exact keeps_bind (h a (by simp [parts])) fun a' ha => keeps_pure (.slice ha)
  | newtype n a => exact keeps_bind (h a (by simp [parts])) fun a' ha => keeps_pure (.newtype ha)
  | name n as => exact keeps_bind (list as (by simp [parts])) fun as' has => keeps_pure (.name has)
  | _ => exact keeps_pure (.leaf rfl)

/-- The types whose resolution rebuilds the node. -/
def Ty.isNode : Ty → Bool
  | located _ | typeVar _ => false
  | _ => true

theorem Ty.node_cases (ty : Ty) :
    (∃ inner, ty = located inner) ∨ (∃ id, ty = typeVar id) ∨ ty.isNode = true := by
  cases ty <;> simp [Ty.isNode]

theorem resolveWithDepth_node {fuel next : Nat} {resolving : List Nat} {ty : Ty}
    (node : ty.isNode = true) :
    resolveWithDepth fuel (next + 1) resolving ty
      = mapPartsM (resolveWithDepth fuel next resolving) ty := by
  cases ty <;> simp only [Ty.isNode, Bool.false_eq_true] at node <;> rfl

section Writes

variable {I : Table → Prop}

theorem compress_keeps (hParent : ∀ s id parent, I s → I (s.setParent id parent)) {root : Nat} :
    ∀ {fuel current : Nat} {s s' : Table}, I s → Table.compress root fuel current s = some s' → I s'
  | 0, _, _, _, _, h => by simp [Table.compress] at h
  | fuel + 1, current, s, s', hs, h => by
      simp only [Table.compress] at h
      split at h
      · exact Option.some.inj h ▸ hs
      · exact compress_keeps hParent (hParent s _ _ hs) h

theorem find_keeps {ε : Type} (hParent : ∀ s id parent, I s → I (s.setParent id parent))
    (fuel id : Nat) :
    Run.Keeps I (Table.find fuel id : Run Table ε Nat) (fun _ => True) fun _ => True := by
  intro s hs r s' h
  simp only [Table.find, Option.bind_eq_bind, Option.bind_eq_some_iff, Option.some.injEq,
    Prod.mk.injEq] at h
  obtain ⟨root, -, s₁, compressed, -, rfl⟩ := h
  exact ⟨compress_keeps hParent hs compressed, fun _ _ => trivial, fun _ _ => trivial⟩

theorem zonk_keeps {fuel : Nat} {ty : Ty}
    (resolves : Run.Keeps I (resolveInfer fuel ty) (fun _ => True) fun _ => True) :
    Run.Keeps I (zonk fuel ty) (fun _ => True) fun _ => True := by
  refine Run.keeps_bind resolves fun resolved _ => ?_
  split
  · exact Run.keeps_pure trivial
  · exact Run.keeps_throw trivial

variable (hParent : ∀ s id parent, I s → I (s.setParent id parent))
  (hBinding : ∀ s id ty, I s → I (s.setBinding id ty))

include hParent hBinding

open Run in
theorem resolveWithDepth_keeps (fuel remaining : Nat) : ∀ resolving ty,
    Keeps I (resolveWithDepth fuel remaining resolving ty) (fun _ => True) fun _ => True := by
  induction remaining with
  | zero => intro resolving ty; exact keeps_throw trivial
  | succ next ih =>
      intro resolving ty
      rcases ty.node_cases with ⟨inner, rfl⟩ | ⟨id, rfl⟩ | node
      · exact keeps_bind (ih resolving inner) fun _ _ => keeps_pure trivial
      · refine keeps_bind (find_keeps hParent fuel id) fun root _ => ?_
        refine keeps_bind (M := fun _ => True) (keeps_gets fun _ _ => trivial) fun binding _ => ?_
        cases binding with
        | none => exact keeps_pure trivial
        | some bound =>
            dsimp only
            split
            · exact keeps_throw trivial
            · refine keeps_bind (ih _ bound) fun resolved _ => ?_
              refine keeps_bind (keeps_modify fun s hs => ?_) fun _ _ => keeps_pure trivial
              exact hBinding s root resolved hs
      · rw [resolveWithDepth_node node]
        exact (keeps_mapPartsM fun part _ => ih resolving part).weaken fun _ _ => trivial

open Run in
/-- An invariant that single writes keep is kept by the whole unifier. -/
theorem unifyInferenceInner_keeps (fuel : Nat) :
    ∀ a b, Keeps I (unifyInferenceInner fuel a b) (fun _ => True) fun _ => True := by
  induction fuel with
  | zero => intro a b s _ r s' h; simp [unifyInferenceInner, diverge] at h
  | succ fuel ih =>
      intro a b
      have resolve (ty : Ty) : Keeps I (mapError UnifyError.resolve (resolveInfer fuel ty))
          (fun _ => True) fun _ => True :=
        keeps_mapError (resolveWithDepth_keeps hParent hBinding fuel _ [] ty) fun _ _ => trivial
      refine keeps_bind (resolve a) fun aResolved _ => ?_
      refine keeps_bind (resolve b) fun bResolved _ => ?_
      cases unifyStep aResolved bResolved with
      | union a b =>
          refine keeps_bind (find_keeps hParent fuel a) fun aRoot _ => ?_
          refine keeps_bind (find_keeps hParent fuel b) fun bRoot _ => ?_
          split
          · exact keeps_modify fun s hs => hParent s aRoot bRoot hs
          · exact keeps_pure trivial
      | bind id ty =>
          refine keeps_bind (find_keeps hParent fuel id) fun root _ => ?_
          exact keeps_modify fun s hs => hBinding s root ty hs
      | accept => exact keeps_pure trivial
      | reject e => exact keeps_throw trivial
      | bareContainer =>
          refine keeps_bind (M := fun _ => True) (keeps_gets fun _ _ => trivial) fun linear _ => ?_
          dsimp only
          split
          · exact keeps_throw trivial
          · exact keeps_pure trivial
      | parts pairs => exact keeps_forEach pairs fun pair _ => ih pair.1 pair.2

end Writes

/-! ### The undo trail -/

@[simp] theorem insertAt_insertAt_self {α : Type} (f : Nat → Option α) (id : Nat)
    (value : Option α) : insertAt (insertAt f id value) id (f id) = f := by
  funext i
  by_cases h : i = id <;> simp [insertAt, h]

variable {s s' : Table} {r : Except UnifyError Unit} {a b : Ty}

namespace Table

/-- The second table was reached from the first by logged writes. -/
structure Extends (old new : Table) : Prop where
  log : UndoLog.Extends Undo.apply (old.trail, old.toStore) (new.trail, new.toStore)
  depth : new.transactionDepth = old.transactionDepth
  names : new.linearTypeNames = old.linearTypeNames

theorem Extends.refl (s : Table) : Extends s s := ⟨.refl _, rfl, rfl⟩

theorem Extends.trans {s₁ s₂ s₃ : Table} (h₁ : Extends s₁ s₂) (h₂ : Extends s₂ s₃) :
    Extends s₁ s₃ :=
  ⟨h₁.log.trans h₂.log, h₂.depth.trans h₁.depth, h₂.names.trans h₁.names⟩

theorem extends_setParent (isOpen : 0 < s.transactionDepth) (id parent : Nat) :
    Extends s (s.setParent id parent) := by
  unfold setParent
  split
  · exact .refl s
  · exact ⟨by simpa [record, isOpen] using .record (by simp [Undo.apply]), by simp [record, isOpen],
      by simp [record, isOpen]⟩

theorem extends_setBinding (isOpen : 0 < s.transactionDepth) (id : Nat) (ty : Ty) :
    Extends s (s.setBinding id ty) := by
  unfold setBinding
  split
  · exact .refl s
  · exact ⟨by simpa [record, isOpen] using .record (by simp [Undo.apply]), by simp [record, isOpen],
      by simp [record, isOpen]⟩

theorem extends_freshVar {id : Nat} (isOpen : 0 < s.transactionDepth)
    (h : s.freshVar = some (id, s')) : Extends s s' := by
  simp only [freshVar, Option.ite_none_right_eq_some, Option.some.injEq, Prod.mk.injEq] at h
  obtain ⟨-, -, rfl⟩ := h
  refine Extends.trans ⟨?_, ?_, ?_⟩ (extends_setParent (by simp [record, isOpen]) _ _)
  · simpa [record, isOpen] using .record (by simp [Undo.apply])
  · simp [record, isOpen]
  · simp [record, isOpen]

/-- Inside a transaction the unifier only makes logged writes. -/
theorem unifyInferenceInner_extends (isOpen : 0 < s.transactionDepth) (fuel : Nat)
    (a b : Ty) : Run.Keeps (Extends s) (unifyInferenceInner fuel a b) (fun _ => True) fun _ => True :=
  unifyInferenceInner_keeps
    (fun _ _ _ h => h.trans (extends_setParent (h.depth ▸ isOpen) _ _))
    (fun _ _ _ h => h.trans (extends_setBinding (h.depth ▸ isOpen) _ _)) fuel a b

theorem resolveInfer_extends (isOpen : 0 < s.transactionDepth) (fuel : Nat) (ty : Ty) :
    Run.Keeps (Extends s) (resolveInfer fuel ty) (fun _ => True) fun _ => True :=
  resolveWithDepth_keeps
    (fun _ _ _ h => h.trans (extends_setParent (h.depth ▸ isOpen) _ _))
    (fun _ _ _ h => h.trans (extends_setBinding (h.depth ▸ isOpen) _ _)) fuel _ [] ty

/-- Rolling back to the length of an earlier trail restores the earlier table. -/
theorem rollbackTo_of_extends {old new : Table} (h : Extends old new) :
    new.rollbackTo old.trail.length = old := by
  have restored := UndoLog.rollback_of_extends h.log
  obtain ⟨store, trail, depth, names⟩ := old
  simp only [rollbackTo, restored, h.depth, h.names]

/-- No undo entry survives the outermost transaction. -/
def Settled (s : Table) : Prop := s.transactionDepth = 0 → s.trail = []

/-- Closing a failed transaction restores the table it was opened on. -/
theorem leave_failed {old new : Table} (settled : old.Settled) (h : Extends old.enter new) :
    new.leave old.trail.length true = old := by
  have restored : { new with transactionDepth := new.transactionDepth - 1 }.rollbackTo
      old.trail.length = old := by
    have entered : new.rollbackTo old.trail.length = old.enter := rollbackTo_of_extends h
    calc { new with transactionDepth := new.transactionDepth - 1 }.rollbackTo old.trail.length
        = { new.rollbackTo old.trail.length with
            transactionDepth := new.transactionDepth - 1 } := rfl
      _ = old := by rw [entered, h.depth]; rfl
  simp only [leave, if_true, restored]
  split
  · rw [← settled ‹_›]
  · rfl

theorem transactionDepth_leave (s : Table) (checkpoint : Nat) (failed : Bool) :
    (s.leave checkpoint failed).transactionDepth = s.transactionDepth - 1 := by
  simp only [leave, rollbackTo]
  split_ifs <;> rfl

theorem settled_leave (s : Table) (checkpoint : Nat) (failed : Bool) :
    (s.leave checkpoint failed).Settled := by
  intro closed
  simp only [leave] at closed ⊢
  split_ifs at closed ⊢ <;> first | rfl | exact absurd closed ‹_›

/-- A table at a transaction depth, settled if the depth is zero. -/
def At (depth : Nat) (s : Table) : Prop := s.transactionDepth = depth ∧ s.Settled

theorem At.record {depth : Nat} {s : Table} (h : s.At depth) (entry : Undo) :
    (s.record entry).At depth := by
  unfold Table.record
  split
  · exact ⟨h.1, fun closed => absurd closed (Nat.ne_of_gt ‹_›)⟩
  · exact h

theorem At.setParent {depth : Nat} {s : Table} (h : s.At depth) (id parent : Nat) :
    (s.setParent id parent).At depth := by
  unfold Table.setParent
  split
  · exact h
  · exact h.record _

theorem At.setBinding {depth : Nat} {s : Table} (h : s.At depth) (id : Nat) (ty : Ty) :
    (s.setBinding id ty).At depth := by
  unfold Table.setBinding
  split
  · exact h
  · exact h.record _

theorem At.freshVar {depth id : Nat} {s s' : Table} (h : s.At depth)
    (fresh : s.freshVar = some (id, s')) : s'.At depth := by
  simp only [Table.freshVar, Option.ite_none_right_eq_some, Option.some.injEq,
    Prod.mk.injEq] at fresh
  obtain ⟨-, -, rfl⟩ := fresh
  refine At.setParent ?_ _ _
  exact h.record (.nextVar s.nextVar)

theorem At.resolveInfer {depth : Nat} (fuel : Nat) (ty : Ty) :
    Run.Keeps (At depth) (Core.resolveInfer fuel ty) (fun _ => True) fun _ => True :=
  resolveWithDepth_keeps (fun _ _ _ h => h.setParent _ _) (fun _ _ _ h => h.setBinding _ _)
    fuel _ [] ty

/-- What a transaction does to the table: the depth is back and the outermost one is settled; an
error restores the table; inside another transaction the writes stay logged. -/
structure Atomic (s : Table) (r : Except UnifyError Unit) (s' : Table) : Prop where
  returned : s'.At s.transactionDepth
  restores : ∀ e, r = .error e → s' = s
  logged : 0 < s.transactionDepth → Extends s s'

theorem Extends.leave {s s' : Table} (isOpen : 0 < s.transactionDepth) (h : Extends s.enter s') :
    Extends s (s'.leave s.trail.length false) := by
  have depth : s'.transactionDepth - 1 = s.transactionDepth := by rw [h.depth]; rfl
  simp only [Table.leave, Bool.false_eq_true, if_false, depth, Nat.ne_of_gt isOpen]
  exact ⟨h.log, rfl, h.names⟩

/-- A transaction whose body only makes logged writes is atomic. -/
theorem atomic_transaction {operation : Infer Unit} (settled : s.Settled)
    (logged : Run.Keeps (Extends s.enter) operation (fun _ => True) fun _ => True)
    (h : transaction operation s = some (r, s')) : Atomic s r s' := by
  cases result : operation s.enter with
  | none => simp [transaction, result] at h
  | some outcome =>
      obtain ⟨r₁, s₁⟩ := outcome
      have extends₁ : Extends s.enter s₁ := (logged _ (.refl _) _ _ result).1
      cases r₁ with
      | ok u =>
          simp only [transaction, result, Option.some.injEq, Prod.mk.injEq] at h
          obtain ⟨rfl, rfl⟩ := h
          have depth : s₁.transactionDepth - 1 = s.transactionDepth := by
            rw [extends₁.depth]; rfl
          exact ⟨⟨by rw [transactionDepth_leave, depth], settled_leave _ _ _⟩, by simp,
            fun isOpen => extends₁.leave isOpen⟩
      | error e =>
          simp only [transaction, result, Option.some.injEq, Prod.mk.injEq] at h
          obtain ⟨rfl, rfl⟩ := h
          rw [leave_failed settled extends₁]
          exact ⟨⟨rfl, settled⟩, fun _ _ => rfl, fun _ => .refl s⟩

theorem atomic_constrain {fuel : Nat}
    (settled : s.Settled) (h : constrain fuel a b s = some (r, s')) : Atomic s r s' := by
  refine atomic_transaction settled ?_ h
  have isOpen : 0 < s.enter.transactionDepth := Nat.succ_pos _
  have resolve (ty : Ty) : Run.Keeps (Extends s.enter)
      (Run.mapError UnifyError.resolve (resolveInfer fuel ty)) (fun _ => True) fun _ => True :=
    Run.keeps_mapError (resolveInfer_extends isOpen fuel ty) fun _ _ => trivial
  refine Run.keeps_bind (resolve a) fun _ _ => ?_
  refine Run.keeps_bind (resolve b) fun _ _ => ?_
  split
  · exact Run.keeps_throw trivial
  · exact unifyInferenceInner_extends isOpen fuel _ _

theorem atomic_unifyInference {fuel : Nat}
    (settled : s.Settled) (h : unifyInference fuel a b s = some (r, s')) : Atomic s r s' :=
  atomic_transaction settled (unifyInferenceInner_extends (Nat.succ_pos _) fuel a b) h

theorem toStore_leave (s : Table) (checkpoint : Nat) :
    (s.leave checkpoint false).toStore = s.toStore := by
  simp only [leave, Bool.false_eq_true, if_false]
  split_ifs <;> rfl

section Keeps

variable {J : Table → Prop} (store : ∀ s s', s'.toStore = s.toStore → J s → J s')

include store

/-- What a body keeps of the store, a transaction around it keeps. -/
theorem transaction_keeps {operation : Infer Unit}
    (keeps : Run.Keeps J operation (fun _ => True) fun _ => True) (h : J s)
    (atomic : Atomic s r s') (result : transaction operation s = some (r, s')) : J s' := by
  cases r with
  | error e => exact atomic.restores e rfl ▸ h
  | ok u =>
      simp only [transaction] at result
      split at result
      · simp at result
      · simp only [Option.some.injEq, Prod.mk.injEq, true_and] at result
        subst result
        exact store _ _ (toStore_leave _ _) (keeps _ (store s s.enter rfl h) _ _ ‹_›).1
      · simp at result

variable (unify : ∀ fuel a b,
  Run.Keeps J (unifyInferenceInner fuel a b) (fun _ => True) fun _ => True)

include unify

theorem constrain_keeps (resolve : ∀ fuel ty, Run.Keeps J (resolveInfer fuel ty) (fun _ => True) fun _ => True)
    {fuel : Nat} (settled : s.Settled) (h : J s) (result : constrain fuel a b s = some (r, s')) : J s' := by
  refine transaction_keeps store ?_ h (atomic_constrain settled result) result
  have resolves (ty : Ty) : Run.Keeps J (Run.mapError UnifyError.resolve (resolveInfer fuel ty))
      (fun _ => True) fun _ => True := Run.keeps_mapError (resolve fuel ty) fun _ _ => trivial
  refine Run.keeps_bind (resolves a) fun _ _ => ?_
  refine Run.keeps_bind (resolves b) fun _ _ => ?_
  split
  · exact Run.keeps_throw trivial
  · exact unify fuel _ _

theorem unifyInference_keeps {fuel : Nat}
    (settled : s.Settled) (h : J s) (result : unifyInference fuel a b s = some (r, s')) : J s' :=
  transaction_keeps store (unify fuel a b) h (atomic_unifyInference settled result) result

end Keeps

/-- A probe opens a transaction around the one of the constraint and always takes it back. -/
theorem probeCompatible_restores {fuel : Nat} {compatible : Bool}
    (settled : s.Settled) (h : probeCompatible fuel a b s = some (compatible, s')) : s' = s := by
  simp only [probeCompatible, Option.bind_eq_bind, Option.bind_eq_some_iff, Option.some.injEq,
    Prod.mk.injEq] at h
  obtain ⟨⟨r, s₁⟩, result, -, rfl⟩ := h
  have isOpen : 0 < s.enter.transactionDepth := Nat.succ_pos _
  have entered : s.enter.Settled := fun closed => absurd closed (Nat.ne_of_gt isOpen)
  exact leave_failed settled ((atomic_constrain entered result).logged isOpen)

end Table

/-! ### Reachable tables -/

/-- The tables the operations can reach.  The list holds the checkpoints of the transactions that
are open, the innermost first. -/
inductive Reach : List Nat → Table → Prop where
  | new : Reach [] Table.new
  | reset {s : Table} (h : Reach [] s) : Reach [] s.reset
  | note {s : Table} (h : Reach [] s) (name : String) : Reach [] (s.noteLinearTypeName name)
  | freshVar {open_ : List Nat} {s s' : Table} {id : Nat} (h : Reach open_ s)
      (fresh : s.freshVar = some (id, s')) : Reach open_ s'
  | find {open_ : List Nat} {s s' : Table} {fuel id : Nat} {r : Except ResolveError Nat}
      (h : Reach open_ s) (found : Table.find fuel id s = some (r, s')) : Reach open_ s'
  | resolve {open_ : List Nat} {s s' : Table} {fuel : Nat} {ty : Ty} {r : Except ResolveError Ty}
      (h : Reach open_ s) (resolved : resolveInfer fuel ty s = some (r, s')) : Reach open_ s'
  | zonk {open_ : List Nat} {s s' : Table} {fuel : Nat} {ty : Ty} {r : Except ResolveError Ty}
      (h : Reach open_ s) (zonked : zonk fuel ty s = some (r, s')) : Reach open_ s'
  | constrain {open_ : List Nat} {s s' : Table} {fuel : Nat} {a b : Ty}
      {r : Except UnifyError Unit} (h : Reach open_ s)
      (result : constrain fuel a b s = some (r, s')) : Reach open_ s'
  | unifyInference {open_ : List Nat} {s s' : Table} {fuel : Nat} {a b : Ty}
      {r : Except UnifyError Unit} (h : Reach open_ s)
      (result : unifyInference fuel a b s = some (r, s')) : Reach open_ s'
  | probe {open_ : List Nat} {s s' : Table} {fuel : Nat} {a b : Ty} {compatible : Bool}
      (h : Reach open_ s) (result : probeCompatible fuel a b s = some (compatible, s')) :
      Reach open_ s'
  | enter {open_ : List Nat} {s : Table} (h : Reach open_ s) :
      Reach (s.trail.length :: open_) s.enter
  | leave {open_ : List Nat} {checkpoint : Nat} {s : Table} (h : Reach (checkpoint :: open_) s)
      (failed : Bool) : Reach open_ (s.leave checkpoint failed)

/-- The depth counts the open transactions, and no trail is left when there is none. -/
theorem Reach.at_depth {open_ : List Nat} (reach : Reach open_ s) :
    s.At open_.length := by
  induction reach with
  | new => exact ⟨rfl, fun _ => rfl⟩
  | reset _ _ => exact ⟨rfl, fun _ => rfl⟩
  | note _ name ih => exact ih
  | freshVar _ fresh ih => exact ih.freshVar fresh
  | @find open_ s s' fuel id _ _ found ih =>
      exact (@find_keeps (Table.At open_.length) _ (fun _ _ _ h => h.setParent _ _) fuel id
        s ih _ _ found).1
  | @resolve _ s s' fuel ty _ _ resolved ih =>
      exact (Table.At.resolveInfer fuel ty s ih _ _ resolved).1
  | @zonk _ s s' fuel ty _ _ zonked ih =>
      exact (zonk_keeps (Table.At.resolveInfer fuel ty) s ih _ _ zonked).1
  | constrain _ result ih => exact ih.1 ▸ (Table.atomic_constrain ih.2 result).returned
  | unifyInference _ result ih => exact ih.1 ▸ (Table.atomic_unifyInference ih.2 result).returned
  | probe _ result ih => exact Table.probeCompatible_restores ih.2 result ▸ ih
  | enter _ ih => exact ⟨congrArg (· + 1) ih.1, fun closed => absurd closed (Nat.succ_ne_zero _)⟩
  | leave _ failed ih =>
      refine ⟨?_, Table.settled_leave _ _ _⟩
      rw [Table.transactionDepth_leave, ih.1, List.length_cons, Nat.add_sub_cancel]

/-- A property of the store that every operation keeps, whatever the transactions around it. -/
structure StoreInvariant (J : Table → Prop) : Prop where
  new : J Table.new
  store : ∀ s s', s'.toStore = s.toStore → J s → J s'
  freshVar : ∀ s id s', s.freshVar = some (id, s') → J s → J s'
  find : ∀ fuel id, Run.Keeps J (Table.find fuel id : Resolve Nat) (fun _ => True) fun _ => True
  resolve : ∀ fuel ty, Run.Keeps J (resolveInfer fuel ty) (fun _ => True) fun _ => True
  unify : ∀ fuel a b, Run.Keeps J (unifyInferenceInner fuel a b) (fun _ => True) fun _ => True

namespace StoreInvariant

variable {J : Table → Prop}

theorem enter (inv : StoreInvariant J) (h : J s) : J s.enter := inv.store s _ rfl h

theorem leave (inv : StoreInvariant J) (checkpoint : Nat) (h : J s) :
    J (s.leave checkpoint false) := inv.store s _ (Table.toStore_leave s checkpoint) h

theorem constrain (inv : StoreInvariant J) {fuel : Nat} (settled : s.Settled) (h : J s)
    (result : constrain fuel a b s = some (r, s')) : J s' :=
  Table.constrain_keeps inv.store inv.unify inv.resolve settled h result

theorem unifyInference (inv : StoreInvariant J) {fuel : Nat} (settled : s.Settled) (h : J s)
    (result : unifyInference fuel a b s = some (r, s')) : J s' :=
  Table.unifyInference_keeps inv.store inv.unify settled h result

end StoreInvariant

/-- The table and the tables its open transactions would restore satisfy a property. -/
inductive Guarded (J : Table → Prop) : List Nat → Table → Prop where
  | closed {s : Table} (h : J s) : Guarded J [] s
  | inside {open_ : List Nat} {old s : Table} (before : Guarded J open_ old)
      (at_ : old.At open_.length) (h : J s) (logged : Table.Extends old.enter s) :
      Guarded J (old.trail.length :: open_) s

theorem Guarded.now {J : Table → Prop} {open_ : List Nat} (h : Guarded J open_ s) :
    J s := by
  cases h with
  | closed h => exact h
  | inside _ _ h _ => exact h

/-- An operation that keeps the property and logs its writes. -/
theorem Guarded.step {J : Table → Prop} {open_ : List Nat} (h : Guarded J open_ s)
    (kept : J s') (logged : 0 < s.transactionDepth → Table.Extends s s') : Guarded J open_ s' := by
  cases h with
  | closed _ => exact .closed kept
  | inside before at_ _ ext =>
      have isOpen : 0 < s.transactionDepth := by rw [ext.depth]; exact Nat.succ_pos _
      exact .inside before at_ kept (ext.trans (logged isOpen))

theorem Reach.guarded {J : Table → Prop} (inv : StoreInvariant J) {open_ : List Nat}
    (reach : Reach open_ s) : Guarded J open_ s := by
  induction reach with
  | new => exact .closed inv.new
  | reset _ _ => exact .closed (inv.store Table.new _ rfl inv.new)
  | @note s _ name ih => exact .closed (inv.store s _ rfl ih.now)
  | freshVar _ fresh ih =>
      exact ih.step (inv.freshVar _ _ _ fresh ih.now) fun isOpen =>
        Table.extends_freshVar isOpen fresh
  | @find _ s s' fuel id _ _ found ih =>
      refine ih.step (inv.find fuel id s ih.now _ _ found).1 fun isOpen => ?_
      exact (@find_keeps (Table.Extends s) _
        (fun _ _ _ h => h.trans (Table.extends_setParent (h.depth ▸ isOpen) _ _)) fuel id s (.refl s)
        _ _ found).1
  | @resolve _ s s' fuel ty _ _ resolved ih =>
      exact ih.step (inv.resolve fuel ty s ih.now _ _ resolved).1 fun isOpen =>
        (Table.resolveInfer_extends isOpen fuel ty s (.refl s) _ _ resolved).1
  | @zonk _ s s' fuel ty _ _ zonked ih =>
      exact ih.step (zonk_keeps (inv.resolve fuel ty) s ih.now _ _ zonked).1 fun isOpen =>
        (zonk_keeps (Table.resolveInfer_extends isOpen fuel ty) s (.refl s) _ _ zonked).1
  | constrain h result ih =>
      exact ih.step (inv.constrain h.at_depth.2 ih.now result)
        (Table.atomic_constrain h.at_depth.2 result).logged
  | unifyInference h result ih =>
      exact ih.step (inv.unifyInference h.at_depth.2 ih.now result)
        (Table.atomic_unifyInference h.at_depth.2 result).logged
  | probe h result ih => exact Table.probeCompatible_restores h.at_depth.2 result ▸ ih
  | enter h ih => exact .inside ih h.at_depth (inv.enter ih.now) (.refl _)
  | leave h failed ih =>
      cases ih with
      | @inside open_ old s before at_ kept logged =>
          cases failed with
          | true => rw [Table.leave_failed at_.2 logged]; exact before
          | false =>
              refine before.step (inv.leave _ kept) fun isOpen => logged.leave isOpen

/-- At any nesting of transactions, a failed constraint and any probe give back the very table they
were called on, with its parent links and bindings and so the resolution of every type; and outside
all transactions the trail is empty. -/
theorem failed_inference_restores {open_ : List Nat} {s : Table} (reach : Reach open_ s)
    (fuel : Nat) (a b : Ty) :
    (∀ e s', constrain fuel a b s = some (.error e, s') → s' = s) ∧
    (∀ e s', unifyInference fuel a b s = some (.error e, s') → s' = s) ∧
    (∀ compatible s', probeCompatible fuel a b s = some (compatible, s') → s' = s) ∧
    (s.transactionDepth = 0 → s.trail = []) := by
  have settled : s.Settled := reach.at_depth.2
  refine ⟨?_, ?_, ?_, settled⟩
  · intro e s' h
    exact (Table.atomic_constrain settled h).restores e rfl
  · intro e s' h
    exact (Table.atomic_unifyInference settled h).restores e rfl
  · intro compatible s' h
    exact Table.probeCompatible_restores settled h

/-- A tuple constraint inside an open transaction binds a variable before its second part clashes;
the table is the one before. -/
theorem failed_inference_restores_tuple :
    ∃ s, s.transactionDepth = 1 ∧
      (∀ e s', constrain 9 (tuple [typeVar 0, name "i32" []])
        (tuple [name "string" [], name "bool" []]) s = some (.error e, s') → s' = s) ∧
      (constrain 9 (tuple [typeVar 0, name "i32" []])
        (tuple [name "string" [], name "bool" []]) s).map (·.1)
          = some (.error (.mismatch "cannot unify i32 with bool")) :=
  ⟨Table.new.enter, rfl,
    (failed_inference_restores (.enter .new) 9 _ _).1, rfl⟩

end Mimi.Core
