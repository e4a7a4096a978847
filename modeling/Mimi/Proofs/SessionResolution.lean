/-
Module: Mimi.Proofs.SessionResolution
Purpose: Resolution of named sessions against the unfolding of a session type: it succeeds with the
  unfolding where there is one, and fails exactly where unfolding meets an undefined name or a name
  that is being unfolded.
Trusted boundary: none
-/
import Mimi.Session

namespace Mimi.SessionType

/-! ### Unfolding -/

/-- Swap sends with receives through the whole continuation. -/
def swap : SessionType → SessionType
  | send payload cont => recv payload cont.swap
  | recv payload cont => send payload cont.swap
  | other => other

/-- A session type without names, duals and source annotations. -/
inductive Plain : SessionType → Prop where
  | send {payload cont} : Plain cont → Plain (send payload cont)
  | recv {payload cont} : Plain cont → Plain (recv payload cont)
  | end_ : Plain end_

/-- The unfolding of a session type: every name replaced by its definition, every dual carried out.
The number counts the steps to the end. -/
inductive UnfoldsIn (env : List (String × SessionType)) : Nat → SessionType → SessionType → Prop where
  | located {k s r} : UnfoldsIn env k s r → UnfoldsIn env (k + 1) (located s) r
  | send {k payload s r} : UnfoldsIn env k s r →
      UnfoldsIn env (k + 1) (send payload s) (send payload r)
  | recv {k payload s r} : UnfoldsIn env k s r →
      UnfoldsIn env (k + 1) (recv payload s) (recv payload r)
  | end_ : UnfoldsIn env 0 end_ end_
  | name {k n body r} : env.lookup n = some body → UnfoldsIn env k body r →
      UnfoldsIn env (k + 1) (name n) r
  | dual {k s r} : UnfoldsIn env k s r → UnfoldsIn env (k + 1) (dual s) r.swap

/-- The session type has the unfolding `r`. -/
def Unfolds (env : List (String × SessionType)) (s r : SessionType) : Prop :=
  ∃ k, UnfoldsIn env k s r

/-- Unfolding reaches an undefined name, or a name on the path of names that are being unfolded. -/
inductive Blocked (env : List (String × SessionType)) : List String → SessionType → Prop where
  | located {path s} : Blocked env path s → Blocked env path (located s)
  | send {path payload s} : Blocked env path s → Blocked env path (send payload s)
  | recv {path payload s} : Blocked env path s → Blocked env path (recv payload s)
  | dual {path s} : Blocked env path s → Blocked env path (dual s)
  | undefined {path n} : env.lookup n = none → Blocked env path (name n)
  | circular {path n} : n ∈ path → Blocked env path (name n)
  | inside {path n body} : env.lookup n = some body → Blocked env (n :: path) body →
      Blocked env path (name n)

variable {env : List (String × SessionType)} {path : List String} {s r : SessionType}

/-- On a plain session type, dualizing swaps sends with receives. -/
theorem Plain.dualize (plain : Plain s) : s.dualize = s.swap := by
  induction plain with
  | send _ ih => rw [SessionType.dualize, swap, ih]
  | recv _ ih => rw [SessionType.dualize, swap, ih]
  | end_ => rfl

theorem Plain.swap (plain : Plain s) : Plain s.swap := by
  induction plain with
  | send _ ih => exact .recv ih
  | recv _ ih => exact .send ih
  | end_ => exact .end_

/-- A session type has one unfolding, reached in one number of steps. -/
theorem UnfoldsIn.unique {k k' : Nat} {r' : SessionType} (first : UnfoldsIn env k s r)
    (second : UnfoldsIn env k' s r') : k = k' ∧ r = r' := by
  induction first generalizing k' r' with
  | located _ ih =>
      cases second with
      | located inner =>
          obtain ⟨rfl, rfl⟩ := ih inner
          exact ⟨rfl, rfl⟩
  | send _ ih =>
      cases second with
      | send inner =>
          obtain ⟨rfl, rfl⟩ := ih inner
          exact ⟨rfl, rfl⟩
  | recv _ ih =>
      cases second with
      | recv inner =>
          obtain ⟨rfl, rfl⟩ := ih inner
          exact ⟨rfl, rfl⟩
  | end_ =>
      cases second
      exact ⟨rfl, rfl⟩
  | name declared _ ih =>
      cases second with
      | name declared' inner =>
          obtain rfl := Option.some.inj (declared.symm.trans declared')
          obtain ⟨rfl, rfl⟩ := ih inner
          exact ⟨rfl, rfl⟩
  | dual _ ih =>
      cases second with
      | dual inner =>
          obtain ⟨rfl, rfl⟩ := ih inner
          exact ⟨rfl, rfl⟩

/-- What unfolds in `k` steps is not blocked below names that take more than `k` steps. -/
theorem Blocked.not_unfolds (blocked : Blocked env path s) {k : Nat}
    (unfolds : UnfoldsIn env k s r)
    (above : ∀ n ∈ path, ∀ k' r', UnfoldsIn env k' (name n) r' → k < k') : False := by
  have lower : ∀ {path : List String} {k : Nat},
      (∀ n ∈ path, ∀ k' r', UnfoldsIn env k' (name n) r' → k + 1 < k') →
        ∀ n ∈ path, ∀ k' r', UnfoldsIn env k' (name n) r' → k < k' :=
    fun above n member k' r' unfolds => Nat.lt_of_succ_lt (above n member k' r' unfolds)
  induction blocked generalizing k r with
  | located _ ih =>
      cases unfolds with
      | located inner => exact ih inner (lower above)
  | send _ ih =>
      cases unfolds with
      | send inner => exact ih inner (lower above)
  | recv _ ih =>
      cases unfolds with
      | recv inner => exact ih inner (lower above)
  | dual _ ih =>
      cases unfolds with
      | dual inner => exact ih inner (lower above)
  | undefined missing =>
      cases unfolds with
      | name declared _ =>
          rw [missing] at declared
          cases declared
  | circular member => exact Nat.lt_irrefl k (above _ member k r unfolds)
  | inside declared _ ih =>
      cases unfolds with
      | name declared' inner =>
          obtain rfl := Option.some.inj (declared.symm.trans declared')
          refine ih inner fun n member k' r' unfolds' => ?_
          rcases List.mem_cons.mp member with rfl | member
          · -- the name itself takes one step more than its body
            rw [(unfolds'.unique (.name declared inner)).1]
            exact Nat.lt_succ_self _
          · exact Nat.lt_of_succ_lt (above n member k' r' unfolds')

/-! ### The resolver -/

theorem resolveInner_undefined {n : String} (missing : env.lookup n = none) :
    resolveInner env path (name n) = none := by
  rw [resolveInner]
  split_ifs
  · rfl
  · split
    · rename_i declared
      rw [missing] at declared
      cases declared
    · rfl

theorem resolveInner_circular {n : String} (again : n ∈ path) :
    resolveInner env path (name n) = none := by
  rw [resolveInner, dif_neg (not_not.mpr again)]

/-- A result of the resolver is plain and is the unfolding. -/
theorem resolveInner_some (found : resolveInner env path s = some r) : Plain r ∧ Unfolds env s r := by
  induction path, s using resolveInner.induct env generalizing r with
  | case1 path s ih =>
      rw [resolveInner] at found
      obtain ⟨plain, k, unfolds⟩ := ih found
      exact ⟨plain, k + 1, .located unfolds⟩
  | case2 path payload cont ih =>
      rw [resolveInner] at found
      obtain ⟨c, inner, rfl⟩ := by simpa [Option.bind_eq_some_iff] using found
      obtain ⟨plain, k, unfolds⟩ := ih inner
      exact ⟨.send plain, k + 1, .send unfolds⟩
  | case3 path payload cont ih =>
      rw [resolveInner] at found
      obtain ⟨c, inner, rfl⟩ := by simpa [Option.bind_eq_some_iff] using found
      obtain ⟨plain, k, unfolds⟩ := ih inner
      exact ⟨.recv plain, k + 1, .recv unfolds⟩
  | case4 path =>
      rw [resolveInner] at found
      obtain rfl := Option.some.inj found
      exact ⟨.end_, 0, .end_⟩
  | case5 path n fresh body declared ih =>
      rw [resolveInner_name fresh declared] at found
      obtain ⟨plain, k, unfolds⟩ := ih found
      exact ⟨plain, k + 1, .name declared unfolds⟩
  | case6 path n fresh missing =>
      rw [resolveInner_undefined missing] at found
      cases found
  | case7 path n again =>
      rw [resolveInner_circular (not_not.mp again)] at found
      cases found
  | case8 path inner ih =>
      rw [resolveInner] at found
      obtain ⟨c, resolved, rfl⟩ := by simpa [Option.bind_eq_some_iff] using found
      obtain ⟨plain, k, unfolds⟩ := ih resolved
      rw [plain.dualize]
      exact ⟨plain.swap, k + 1, .dual unfolds⟩

/-- The resolver fails only where unfolding is blocked. -/
theorem resolveInner_none (failed : resolveInner env path s = none) : Blocked env path s := by
  induction path, s using resolveInner.induct env with
  | case1 path s ih =>
      rw [resolveInner] at failed
      exact .located (ih failed)
  | case2 path payload cont ih =>
      rw [resolveInner] at failed
      exact .send (ih (Option.eq_none_iff_forall_ne_some.mpr
        (by simpa [Option.bind_eq_none_iff] using failed)))
  | case3 path payload cont ih =>
      rw [resolveInner] at failed
      exact .recv (ih (Option.eq_none_iff_forall_ne_some.mpr
        (by simpa [Option.bind_eq_none_iff] using failed)))
  | case4 path =>
      rw [resolveInner] at failed
      cases failed
  | case5 path n fresh body declared ih =>
      rw [resolveInner_name fresh declared] at failed
      exact .inside declared (ih failed)
  | case6 path n fresh missing => exact .undefined missing
  | case7 path n again => exact .circular (not_not.mp again)
  | case8 path inner ih =>
      rw [resolveInner] at failed
      exact .dual (ih (Option.eq_none_iff_forall_ne_some.mpr
        (by simpa [Option.bind_eq_none_iff] using failed)))

/-- Where unfolding is blocked, the resolver fails. -/
theorem Blocked.resolveInner_eq_none (blocked : Blocked env path s) :
    resolveInner env path s = none := by
  induction blocked with
  | located _ ih =>
      rw [resolveInner]
      exact ih
  | send _ ih =>
      rw [resolveInner, ih]
      rfl
  | recv _ ih =>
      rw [resolveInner, ih]
      rfl
  | dual _ ih =>
      rw [resolveInner, ih]
      rfl
  | undefined missing => exact resolveInner_undefined missing
  | circular member => exact resolveInner_circular member
  | @inside path n body declared _ ih =>
      by_cases fresh : n ∈ path
      · exact resolveInner_circular fresh
      · rw [resolveInner_name fresh declared]
        exact ih

/-- Resolution returns the unfolding, which is plain, wherever there is one, and fails exactly where
unfolding reaches an undefined name or a name that is being unfolded. -/
theorem resolve_exact (env : List (String × SessionType)) (s : SessionType) :
    (∀ r, resolve env s = some r → Plain r) ∧
      (∀ r, resolve env s = some r ↔ Unfolds env s r) ∧
        (resolve env s = none ↔ Blocked env [] s) := by
  refine ⟨fun r found => (resolveInner_some found).1, fun r => ⟨?_, ?_⟩, ?_, ?_⟩
  · intro found
    exact (resolveInner_some found).2
  · rintro ⟨k, unfolds⟩
    cases result : resolve env s with
    | none =>
        have blocked := resolveInner_none result
        exact absurd unfolds fun unfolds => blocked.not_unfolds unfolds (by simp)
    | some r' =>
        obtain ⟨-, k', unfolds'⟩ := resolveInner_some result
        rw [(unfolds'.unique unfolds).2]
  · exact resolveInner_none
  · exact Blocked.resolveInner_eq_none

end Mimi.SessionType
