/-
Module: Mimi.Proofs.SessionEquality
Purpose: What the comparison of session types answers, and when it does not return.
Trusted boundary: none
-/
import Mimi.Proofs.InferenceTotality
import Mimi.Session

namespace Mimi

open Mimi.Core

/-- A session type whose duals have been pushed through sends, receives and continuations down to the names. -/
inductive Pushed where
  | send (payload : Ty) (cont : Pushed)
  | recv (payload : Ty) (cont : Pushed)
  | name (dual : Bool) (n : String)
  | end_

def Pushed.flip : Pushed → Pushed
  | send payload cont => recv payload cont.flip
  | recv payload cont => send payload cont.flip
  | name dual n => name (!dual) n
  | end_ => end_

theorem Pushed.flip_flip (s : Pushed) : s.flip.flip = s := by
  induction s with
  | send payload cont ih => rw [flip, flip, ih]
  | recv payload cont ih => rw [flip, flip, ih]
  | name dual n => rw [flip, flip, Bool.not_not]
  | end_ => rfl

namespace SessionType

/-- Push every dual down; two duals cancel. -/
def pushed : SessionType → Pushed
  | located session => session.pushed
  | send payload cont => .send payload cont.pushed
  | recv payload cont => .recv payload cont.pushed
  | dual inner => inner.pushed.flip
  | name n => .name false n
  | end_ => .end_

theorem pushed_unlocated (s : SessionType) : s.unlocated.pushed = s.pushed := by
  induction s with
  | located session ih => exact ih
  | _ => rfl

theorem pushed_dualize (s : SessionType) : s.dualize.pushed = s.pushed.flip ∧ s.dualizeDual.pushed = s.pushed := by
  induction s with
  | located session ih => exact ih
  | send payload cont ih => exact ⟨congrArg (Pushed.recv payload) ih.1, rfl⟩
  | recv payload cont ih => exact ⟨congrArg (Pushed.send payload) ih.1, rfl⟩
  | dual inner ih => exact ⟨ih.2.trans inner.pushed.flip_flip.symm, ih.1⟩
  | name n => exact ⟨rfl, rfl⟩
  | end_ => exact ⟨rfl, rfl⟩

/-- The payloads pass the compatibility query. -/
def Compatible (s t : Ty) : Prop := ∃ fuel, typesCompatible fuel s t = some true

/-- Pushed session types that are equal up to compatible payloads. -/
inductive Alike : Pushed → Pushed → Prop where
  | send {s t c d} (payloads : Compatible s t) (conts : Alike c d) : Alike (.send s c) (.send t d)
  | recv {s t c d} (payloads : Compatible s t) (conts : Alike c d) : Alike (.recv s c) (.recv t d)
  | name (dual n) : Alike (.name dual n) (.name dual n)
  | end_ : Alike .end_ .end_

theorem Alike.flip {s t : Pushed} (alike : Alike s t) : Alike s.flip t.flip := by
  induction alike with
  | send payloads _ ih => exact .recv payloads ih
  | recv payloads _ ih => exact .send payloads ih
  | name dual n => exact .name (!dual) n
  | end_ => exact .end_

theorem alike_flip_iff {s t : Pushed} : Alike s.flip t.flip ↔ Alike s t := by
  refine ⟨fun alike => ?_, Alike.flip⟩
  have again := alike.flip
  rwa [Pushed.flip_flip, Pushed.flip_flip] at again

/-- The dual of a name opposite a form that is not written as a dual. -/
structure Stuck (a b : SessionType) : Prop where
  named : ∃ x n, a.unlocated = dual x ∧ x.unlocated = name n
  other : ∀ y, b.unlocated ≠ dual y

/-- The comparison comes to the dual of a name opposite a form that is not written as a dual: taking the dual of the
name gives the dual of the name back. -/
inductive Opposed : SessionType → SessionType → Prop where
  | left {a b} (stuck : Stuck a b) : Opposed a b
  | right {a b} (stuck : Stuck b a) : Opposed a b
  | send {a b s t c d} (isA : a.unlocated = send s c) (isB : b.unlocated = send t d) (payloads : Compatible s t)
      (conts : Opposed c d) : Opposed a b
  | recv {a b s t c d} (isA : a.unlocated = recv s c) (isB : b.unlocated = recv t d) (payloads : Compatible s t)
      (conts : Opposed c d) : Opposed a b
  | duals {a b x y} (isA : a.unlocated = dual x) (isB : b.unlocated = dual y) (inner : Opposed x y) : Opposed a b
  | dualLeft {a b x} (isA : a.unlocated = dual x) (other : ∀ y, b.unlocated ≠ dual y)
      (next : Opposed x.dualize b.unlocated) : Opposed a b
  | dualRight {a b y} (other : ∀ x, a.unlocated ≠ dual x) (isB : b.unlocated = dual y)
      (next : Opposed a.unlocated y.dualize) : Opposed a b

/-! ### What a call comes to -/

/-- Sends and receives, and the duals in front. -/
def spine : SessionType → Nat
  | located session | dual session => session.spine
  | send _ cont | recv _ cont => cont.spine + 1
  | name _ | end_ => 0

def duals : SessionType → Nat
  | located session => session.duals
  | dual inner => inner.duals + 1
  | _ => 0

theorem spine_unlocated (s : SessionType) : s.unlocated.spine = s.spine := by
  induction s with
  | located session ih => exact ih
  | _ => rfl

theorem duals_unlocated (s : SessionType) : s.unlocated.duals = s.duals := by
  induction s with
  | located session ih => exact ih
  | _ => rfl

theorem spine_dualize (s : SessionType) : s.dualize.spine = s.spine ∧ s.dualizeDual.spine = s.spine := by
  induction s with
  | located session ih => exact ih
  | send payload cont ih => exact ⟨congrArg Nat.succ ih.1, rfl⟩
  | recv payload cont ih => exact ⟨congrArg Nat.succ ih.1, rfl⟩
  | dual inner ih => exact ⟨ih.2, ih.1⟩
  | name n => exact ⟨rfl, rfl⟩
  | end_ => exact ⟨rfl, rfl⟩

/-- Taking the dual leaves at most one more dual in front, and none more unless it is taken of a name. -/
theorem duals_dualize (s : SessionType) : s.dualize.duals ≤ s.duals + 1 ∧ s.dualizeDual.duals ≤ s.duals := by
  induction s with
  | located session ih => exact ih
  | dual inner ih => exact ⟨ih.2.trans (Nat.le_add_right _ 2), ih.1⟩
  | _ => exact ⟨Nat.le_add_left _ _, Nat.le_refl _⟩

theorem duals_dualize_le {s : SessionType} (other : ∀ n, s.unlocated ≠ name n) : s.dualize.duals ≤ s.duals := by
  induction s with
  | located session ih => exact ih other
  | dual inner _ => exact (duals_dualize inner).2.trans (Nat.le_succ _)
  | name n => exact absurd rfl (other n)
  | _ => exact Nat.le_refl _

theorem dualize_of_named {s : SessionType} {n : String} (named : s.unlocated = name n) : s.dualize = dual (name n) := by
  induction s with
  | located session ih => exact ih named
  | name m => exact congrArg dual named
  | _ => cases named

theorem unlocated_unlocated (s : SessionType) : s.unlocated.unlocated = s.unlocated := by
  induction s with
  | located session ih => exact ih
  | _ => rfl

theorem unlocated_ne_located (s t : SessionType) : s.unlocated ≠ located t := by
  induction s with
  | located session ih => exact ih
  | _ => exact nofun

section Calls

variable {a b c d x y : SessionType} {s t : Ty} {fuel : Nat}

/-- The comparison looks through the locations in front of both types. -/
theorem session_eq_unlocated (fuel : Nat) (a b : SessionType) :
    session_eq (fuel + 1) a b = session_eq (fuel + 1) a.unlocated b.unlocated := by
  rw [session_eq, session_eq, unlocated_unlocated, unlocated_unlocated]

theorem session_eq_duals (isA : a.unlocated = dual x) (isB : b.unlocated = dual y) :
    session_eq (fuel + 1) a b = session_eq fuel x y := by
  rw [session_eq_unlocated, isA, isB]
  rfl

theorem session_eq_dualLeft (isA : a.unlocated = dual x) (other : ∀ y, b.unlocated ≠ dual y) :
    session_eq (fuel + 1) a b = session_eq fuel x.dualize b.unlocated := by
  rw [session_eq_unlocated, isA]
  cases isB : b.unlocated with
  | dual y => exact absurd isB (other y)
  | located inner => exact absurd isB (unlocated_ne_located b inner)
  | _ => rfl

theorem session_eq_dualRight (other : ∀ x, a.unlocated ≠ dual x) (isB : b.unlocated = dual y) :
    session_eq (fuel + 1) a b = session_eq fuel a.unlocated y.dualize := by
  rw [session_eq_unlocated, isB]
  cases isA : a.unlocated with
  | dual x => exact absurd isA (other x)
  | located inner => exact absurd isA (unlocated_ne_located a inner)
  | _ => rfl

theorem session_eq_send (isA : a.unlocated = send s c) (isB : b.unlocated = send t d) :
    session_eq (fuel + 1) a b = (typesCompatible fuel s t).bind fun ok => if ok then session_eq fuel c d else some false := by
  rw [session_eq_unlocated, isA, isB]
  rfl

theorem session_eq_recv (isA : a.unlocated = recv s c) (isB : b.unlocated = recv t d) :
    session_eq (fuel + 1) a b = (typesCompatible fuel s t).bind fun ok => if ok then session_eq fuel c d else some false := by
  rw [session_eq_unlocated, isA, isB]
  rfl

theorem Stuck.next (stuck : Stuck a b) {x : SessionType} (isA : a.unlocated = dual x) : Stuck x.dualize b.unlocated := by
  obtain ⟨⟨z, n, isA', named⟩, other⟩ := stuck
  cases isA.symm.trans isA'
  refine ⟨⟨name n, n, ?_, rfl⟩, fun y => ?_⟩
  · rw [dualize_of_named named]
    rfl
  · rw [unlocated_unlocated]
    exact other y

theorem answers_of_compatible {r : Bool} (payloads : Compatible s t) (answers : typesCompatible fuel s t = some r) :
    r = true := by
  obtain ⟨fuel', compatible⟩ := payloads
  have first := typesCompatible_le (Nat.le_max_left fuel fuel') answers
  have second := typesCompatible_le (Nat.le_max_right fuel fuel') compatible
  exact Option.some.inj (first.symm.trans second)

/-- A comparison that comes to the dual of a name does not return. -/
theorem Opposed.diverges (opposed : Opposed a b) (fuel : Nat) : session_eq fuel a b = none := by
  induction fuel generalizing a b with
  | zero => rfl
  | succ fuel ih =>
      have conts {s t c d} (payloads : Compatible s t) (conts : Opposed c d) :
          ((typesCompatible fuel s t).bind fun ok => if ok then session_eq fuel c d else some false) = none := by
        cases answers : typesCompatible fuel s t with
        | none => rfl
        | some r =>
            rw [answers_of_compatible payloads answers]
            exact ih conts
      cases opposed with
      | left stuck =>
          obtain ⟨x, n, isA, named⟩ := stuck.named
          rw [session_eq_dualLeft isA stuck.other]
          exact ih (.left (stuck.next isA))
      | right stuck =>
          obtain ⟨y, n, isB, named⟩ := stuck.named
          rw [session_eq_dualRight stuck.other isB]
          exact ih (.right (stuck.next isB))
      | send isA isB payloads next => exact (session_eq_send isA isB).trans (conts payloads next)
      | recv isA isB payloads next => exact (session_eq_recv isA isB).trans (conts payloads next)
      | duals isA isB inner => exact (session_eq_duals isA isB).trans (ih inner)
      | dualLeft isA other next => exact (session_eq_dualLeft isA other).trans (ih next)
      | dualRight other isB next => exact (session_eq_dualRight other isB).trans (ih next)

/-! ### The answer -/

/-- From some fuel on the comparison returns, and it answers whether the two types are alike. -/
def Decides (a b : SessionType) : Prop :=
  ∃ r, (∃ enough, ∀ fuel ≥ enough, session_eq fuel a b = some r) ∧ (r = true ↔ Alike a.pushed b.pushed)

theorem Decides.next (call : ∀ fuel, session_eq (fuel + 1) a b = session_eq fuel c d)
    (same : Alike a.pushed b.pushed ↔ Alike c.pushed d.pushed) (next : Decides c d) : Decides a b := by
  obtain ⟨r, ⟨enough, answers⟩, exact_⟩ := next
  refine ⟨r, ⟨enough + 1, fun fuel more => ?_⟩, exact_.trans same.symm⟩
  obtain ⟨fuel, rfl⟩ := Nat.exists_eq_add_of_le' (Nat.le_of_add_left_le more)
  rw [call]
  exact answers fuel (Nat.le_of_succ_le_succ more)

theorem Decides.now (r : Bool) (call : ∀ fuel, session_eq (fuel + 1) a b = some r)
    (same : r = true ↔ Alike a.pushed b.pushed) : Decides a b := by
  refine ⟨r, ⟨1, fun fuel more => ?_⟩, same⟩
  obtain ⟨fuel, rfl⟩ := Nat.exists_eq_add_of_le' more
  exact call fuel

theorem Decides.conts
    (call : ∀ fuel, session_eq (fuel + 1) a b =
      (typesCompatible fuel s t).bind fun ok => if ok then session_eq fuel c d else some false)
    (same : Alike a.pushed b.pushed ↔ Compatible s t ∧ Alike c.pushed d.pushed)
    (next : Compatible s t → Decides c d) : Decides a b := by
  obtain ⟨ok, enough, returns⟩ := typesCompatible_returns s t
  have settled (fuel : Nat) (more : enough + 1 ≤ fuel) : ∃ f, fuel = f + 1 ∧ enough ≤ f :=
    ⟨fuel - 1, by omega, by omega⟩
  cases ok with
  | false =>
      refine ⟨false, ⟨enough + 1, fun fuel more => ?_⟩, ?_⟩
      · obtain ⟨fuel, rfl, inside⟩ := settled fuel more
        rw [call, returns fuel inside]
        rfl
      · rw [same]
        refine iff_of_false nofun fun both => ?_
        exact absurd (answers_of_compatible both.1 (returns enough (Nat.le_refl _))) nofun
  | true =>
      have payloads : Compatible s t := ⟨enough, returns enough (Nat.le_refl _)⟩
      obtain ⟨r, ⟨enough', answers⟩, exact_⟩ := next payloads
      refine ⟨r, ⟨max enough enough' + 1, fun fuel more => ?_⟩, ?_⟩
      · obtain ⟨fuel, rfl⟩ : ∃ f, fuel = f + 1 := ⟨fuel - 1, by omega⟩
        rw [call, returns fuel (by omega)]
        exact answers fuel (by omega)
      · rw [exact_, same]
        exact (and_iff_right payloads).symm

/-- Two forms that are not written as duals. -/
theorem decides_plain (plainA : ∀ x, a.unlocated ≠ dual x) (plainB : ∀ y, b.unlocated ≠ dual y)
    (send_ : ∀ s c t d, a.unlocated = send s c → b.unlocated = send t d → Compatible s t → Decides c d)
    (recv_ : ∀ s c t d, a.unlocated = recv s c → b.unlocated = recv t d → Compatible s t → Decides c d) :
    Decides a b := by
  have shapes : Alike a.pushed b.pushed ↔ Alike a.unlocated.pushed b.unlocated.pushed := by
    rw [pushed_unlocated, pushed_unlocated]
  have mismatch (call : ∀ fuel, session_eq (fuel + 1) a b = some false)
      (unlike : ¬Alike a.unlocated.pushed b.unlocated.pushed) : Decides a b :=
    .now false call (iff_of_false nofun (shapes.not.mpr unlike))
  cases isA : a.unlocated <;> cases isB : b.unlocated
  case send.send s c t d =>
    refine .conts (fun _ => session_eq_send isA isB) ?_ (send_ s c t d isA isB)
    rw [shapes, isA, isB]
    exact ⟨fun | .send payloads conts => ⟨payloads, conts⟩, fun both => .send both.1 both.2⟩
  case recv.recv s c t d =>
    refine .conts (fun _ => session_eq_recv isA isB) ?_ (recv_ s c t d isA isB)
    rw [shapes, isA, isB]
    exact ⟨fun | .recv payloads conts => ⟨payloads, conts⟩, fun both => .recv both.1 both.2⟩
  case name.name n m =>
    refine .now (n == m) (fun _ => by rw [session_eq_unlocated, isA, isB]; rfl) ?_
    rw [shapes, isA, isB, beq_iff_eq]
    exact ⟨fun same => same ▸ .name false n, fun | .name .. => rfl⟩
  case end_.end_ =>
    refine .now true (fun _ => by rw [session_eq_unlocated, isA, isB]; rfl) ?_
    rw [shapes, isA, isB]
    exact iff_of_true rfl .end_
  -- a form that cannot be, or two forms that differ
  all_goals first
    | exact absurd isA (unlocated_ne_located a _)
    | exact absurd isB (unlocated_ne_located b _)
    | exact absurd isA (plainA _)
    | exact absurd isB (plainB _)
    | exact mismatch (fun _ => by rw [session_eq_unlocated, isA, isB]; rfl) (by rw [isA, isB]; exact nofun)

end Calls

/-- Sends and receives are taken off together; in between the duals in front become fewer. -/
theorem decides_of_not_opposed (n : Nat) : ∀ (m : Nat) (a b : SessionType), a.spine + b.spine ≤ n →
    a.duals + b.duals ≤ m → ¬Opposed a b → Decides a b := by
  induction n using Nat.strong_induction_on with
  | _ n shorter =>
  intro m
  induction m using Nat.strong_induction_on with
  | _ m fewer =>
  intro a b spines fronts apart
  have spineA := spine_unlocated a
  have spineB := spine_unlocated b
  have frontA := duals_unlocated a
  have frontB := duals_unlocated b
  have pushedA := pushed_unlocated a
  have pushedB := pushed_unlocated b
  by_cases dualA : ∃ x, a.unlocated = dual x
  · obtain ⟨x, isA⟩ := dualA
    rw [isA] at spineA frontA pushedA
    simp only [spine, duals] at spineA frontA
    by_cases dualB : ∃ y, b.unlocated = dual y
    · obtain ⟨y, isB⟩ := dualB
      rw [isB] at spineB frontB pushedB
      simp only [spine, duals] at spineB frontB
      refine .next (fun _ => session_eq_duals isA isB) ?_
        (fewer (x.duals + y.duals) (by omega) x y (by omega) (Nat.le_refl _) fun inner => apart (.duals isA isB inner))
      rw [← pushedA, ← pushedB]
      exact alike_flip_iff
    · have plainB := not_exists.mp dualB
      have other (k : String) : x.unlocated ≠ name k := fun named => apart (.left ⟨⟨x, k, isA, named⟩, plainB⟩)
      have less := duals_dualize_le other
      have same := (spine_dualize x).1
      refine .next (fun _ => session_eq_dualLeft isA plainB) ?_
        (fewer (x.dualize.duals + b.unlocated.duals) (by omega) _ _ (by omega) (Nat.le_refl _)
          fun next => apart (.dualLeft isA plainB next))
      rw [(pushed_dualize x).1, pushedB, ← pushedA]
      rfl
  · have plainA := not_exists.mp dualA
    by_cases dualB : ∃ y, b.unlocated = dual y
    · obtain ⟨y, isB⟩ := dualB
      rw [isB] at spineB frontB pushedB
      simp only [spine, duals] at spineB frontB
      have other (k : String) : y.unlocated ≠ name k := fun named => apart (.right ⟨⟨y, k, isB, named⟩, plainA⟩)
      have less := duals_dualize_le other
      have same := (spine_dualize y).1
      refine .next (fun _ => session_eq_dualRight plainA isB) ?_
        (fewer (a.unlocated.duals + y.dualize.duals) (by omega) _ _ (by omega) (Nat.le_refl _)
          fun next => apart (.dualRight plainA isB next))
      rw [(pushed_dualize y).1, pushedA, ← pushedB]
      rfl
    · refine decides_plain plainA (not_exists.mp dualB) ?_ ?_
      · intro s c t d isA isB payloads
        rw [isA] at spineA
        rw [isB] at spineB
        simp only [spine] at spineA spineB
        exact shorter (c.spine + d.spine) (by omega) _ c d (Nat.le_refl _) (Nat.le_refl _)
          fun conts => apart (.send isA isB payloads conts)
      · intro s c t d isA isB payloads
        rw [isA] at spineA
        rw [isB] at spineB
        simp only [spine] at spineA spineB
        exact shorter (c.spine + d.spine) (by omega) _ c d (Nat.le_refl _) (Nat.le_refl _)
          fun conts => apart (.recv isA isB payloads conts)

/-- The comparison of two session types returns exactly where it does not come to the dual of a name opposite a form
that is not written as a dual, and then it answers whether the two are the same, up to compatible payloads, after
pushing every dual down to the names. -/
theorem session_eq_exact (a b : SessionType) :
    (Opposed a b → ∀ fuel, session_eq fuel a b = none) ∧
      (¬Opposed a b → ∃ r, (∃ enough, ∀ fuel ≥ enough, session_eq fuel a b = some r) ∧
        (r = true ↔ Alike a.pushed b.pushed)) :=
  ⟨Opposed.diverges, decides_of_not_opposed _ _ a b (Nat.le_refl _) (Nat.le_refl _)⟩

/-- The dual of a name is not even told from the end of a session. -/
example : Opposed (dual (name "Ping")) end_ := .left ⟨⟨_, _, rfl, rfl⟩, nofun⟩

end SessionType

end Mimi
