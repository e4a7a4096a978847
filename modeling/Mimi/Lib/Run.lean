/-
Module: Mimi.Lib.Run
Purpose: Computations over a mutable state that may fail or fail to return, their
  partial-correctness rules, and computations indexed by a fuel that never changes what they return.
Trusted boundary: none
-/
import Mathlib

namespace Mimi.Lib

/-- A computation over a state.  An error keeps the state reached; `none` is a computation that does
not return. -/
def Run (σ ε α : Type) := σ → Option (Except ε α × σ)

namespace Run

variable {σ ε α β : Type}

protected def pure (a : α) : Run σ ε α := fun s => some (.ok a, s)

protected def bind (m : Run σ ε α) (f : α → Run σ ε β) : Run σ ε β := fun s =>
  match m s with
  | none => none
  | some (.error e, s') => some (.error e, s')
  | some (.ok a, s') => f a s'

instance : Monad (Run σ ε) where
  pure := Run.pure
  bind := Run.bind

def throw (e : ε) : Run σ ε α := fun s => some (.error e, s)

/-- The computation that never returns. -/
def diverge : Run σ ε α := fun _ => none

/-- Read a field of the state. -/
def gets (f : σ → α) : Run σ ε α := fun s => some (.ok (f s), s)

def modify (f : σ → σ) : Run σ ε Unit := fun s => some (.ok (), f s)

/-- Convert the errors of a computation. -/
def mapError {ε' : Type} (f : ε → ε') (m : Run σ ε α) : Run σ ε' α := fun s =>
  match m s with
  | none => none
  | some (.error e, s') => some (.error (f e), s')
  | some (.ok a, s') => some (.ok a, s')

/-- Run a computation on each element and collect the results; the first error ends it. -/
def mapM (f : α → Run σ ε β) : List α → Run σ ε (List β)
  | [] => pure []
  | x :: xs => do
      let y ← f x
      let ys ← mapM f xs
      pure (y :: ys)

/-- Run a computation on each element for its effect; the first error ends it. -/
def forEach (f : α → Run σ ε Unit) : List α → Run σ ε Unit
  | [] => pure ()
  | x :: xs => do
      f x
      forEach f xs

theorem pure_apply (a : α) (s : σ) : (pure a : Run σ ε α) s = some (.ok a, s) := rfl

theorem bind_apply (m : Run σ ε α) (f : α → Run σ ε β) (s : σ) :
    (m >>= f) s =
      match m s with
      | none => none
      | some (.error e, s') => some (.error e, s')
      | some (.ok a, s') => f a s' := rfl

variable {m : Run σ ε α} {f : α → Run σ ε β} {s : σ}

/-- The ways a sequence of two computations returns. -/
theorem bind_eq_some {r : Except ε β × σ} :
    (m >>= f) s = some r ↔
      (∃ e s', m s = some (.error e, s') ∧ r = (.error e, s')) ∨
        ∃ a s', m s = some (.ok a, s') ∧ f a s' = some r := by
  rw [bind_apply]
  cases m s with
  | none => simp
  | some outcome =>
      obtain ⟨result, s'⟩ := outcome
      cases result with
      | error e =>
          refine ⟨fun h => .inl ⟨e, s', rfl, (Option.some.inj h).symm⟩, ?_⟩
          rintro (⟨_, _, h, rfl⟩ | ⟨_, _, h, _⟩) <;> simp_all
      | ok a =>
          refine ⟨fun h => .inr ⟨a, s', rfl, h⟩, ?_⟩
          rintro (⟨_, _, h, _⟩ | ⟨_, _, h, returns⟩) <;> simp_all

variable {s' : σ}

theorem bind_ok {a : α} (ran : m s = some (.ok a, s')) (f : α → Run σ ε β) :
    (m >>= f) s = f a s' := by
  rw [bind_apply, ran]

theorem bind_error {e : ε} (ran : m s = some (.error e, s')) (f : α → Run σ ε β) :
    (m >>= f) s = some (.error e, s') := by
  rw [bind_apply, ran]

theorem bind_eq_ok {s'' : σ} {b : β} :
    (m >>= f) s = some (.ok b, s'') ↔ ∃ a s', m s = some (.ok a, s') ∧ f a s' = some (.ok b, s'') := by
  rw [bind_eq_some]
  constructor
  · rintro (⟨e, s', -, impossible⟩ | returns)
    · cases impossible
    · exact returns
  · exact .inr

theorem gets_bind (see : σ → α) (f : α → Run σ ε β) (s : σ) : (gets see >>= f) s = f (see s) s := rfl

theorem modify_bind (update : σ → σ) (f : Unit → Run σ ε β) (s : σ) : (modify update >>= f) s = f () (update s) := rfl

theorem ite_apply (c : Prop) [Decidable c] (m m' : Run σ ε α) (s : σ) :
    (if c then m else m') s = if c then m s else m' s := by
  split <;> rfl

/-- A loop of at most a number of rounds, which end with a new state of the loop or a result. -/
def rounds {τ : Type} (round : τ → Run σ ε (τ ⊕ α)) : Nat → τ → Run σ ε α
  | 0, _ => diverge
  | n + 1, t => do
      match ← round t with
      | .inl t => rounds round n t
      | .inr a => pure a

/-- A computation with a change of the state behind it, whether it fails or not. -/
def ensure (m : Run σ ε α) (cleanup : σ → σ) : Run σ ε α := fun s => (m s).map fun r => (r.1, cleanup r.2)

theorem rounds_goes_on {τ : Type} {round : τ → Run σ ε (τ ⊕ α)} {n : Nat} {t t' : τ}
    (ran : round t s = some (.ok (.inl t'), s')) : rounds round (n + 1) t s = rounds round n t' s' := by
  rw [rounds, bind_ok ran]

theorem rounds_ends {τ : Type} {round : τ → Run σ ε (τ ⊕ α)} {n : Nat} {t : τ} {a : α}
    (ran : round t s = some (.ok (.inr a), s')) : rounds round (n + 1) t s = some (.ok a, s') := by
  rw [rounds, bind_ok ran]
  rfl

/-- A loop over one element. -/
theorem forEach_singleton (f : α → Run σ ε Unit) (x : α) : forEach f [x] = f x := by
  funext s
  rw [forEach, bind_apply]
  cases f x s with
  | none => rfl
  | some outcome =>
      obtain ⟨result, s'⟩ := outcome
      cases result <;> rfl

/-- A loop goes on with the rest of its list where the first part ended. -/
theorem forEach_append {f : α → Run σ ε Unit} {xs ys : List α}
    (ran : forEach f xs s = some (.ok (), s')) : forEach f (xs ++ ys) s = forEach f ys s' := by
  induction xs generalizing s with
  | nil =>
      obtain rfl : s = s' := by simpa [forEach, pure_apply] using ran
      rfl
  | cons x xs ih =>
      rw [forEach] at ran
      obtain ⟨e, s₁, -, impossible⟩ | ⟨⟨⟩, s₁, head, rest⟩ := bind_eq_some.mp ran
      · simp at impossible
      · rw [List.cons_append, forEach, bind_apply, head]
        exact ih rest

/-! ### Partial correctness -/

/-- If `m` starts in a state of `P` and returns, its result and final state satisfy `Q`. -/
def Post (P : σ → Prop) (m : Run σ ε α) (Q : Except ε α → σ → Prop) : Prop :=
  ∀ s, P s → ∀ r s', m s = some (r, s') → Q r s'

/-- The states of `I` are never left, a returned value satisfies `Q` and an error `E`. -/
abbrev Keeps (I : σ → Prop) (m : Run σ ε α) (Q : α → Prop) (E : ε → Prop) : Prop :=
  Post I m fun r s' => I s' ∧ (∀ a, r = .ok a → Q a) ∧ ∀ e, r = .error e → E e

variable {P : σ → Prop}

theorem Post.imp {P' : σ → Prop} {Q Q' : Except ε α → σ → Prop}
    (h : Post P m Q) (hP : ∀ s, P' s → P s) (hQ : ∀ r s, Q r s → Q' r s) : Post P' m Q' :=
  fun s hs r s' hr => hQ r s' (h s (hP s hs) r s' hr)

theorem post_pure {a : α} {Q : Except ε α → σ → Prop} (h : ∀ s, P s → Q (.ok a) s) : Post P (pure a) Q := by
  intro s hs r s' hr
  obtain ⟨rfl, rfl⟩ := by simpa [pure_apply] using hr
  exact h s hs

theorem post_throw {e : ε} {Q : Except ε α → σ → Prop} (h : ∀ s, P s → Q (.error e) s) : Post P (throw e) Q := by
  intro s hs r s' hr
  obtain ⟨rfl, rfl⟩ := by simpa [throw] using hr
  exact h s hs

theorem post_gets {f : σ → α} {Q : Except ε α → σ → Prop} (h : ∀ s, P s → Q (.ok (f s)) s) : Post P (gets f) Q := by
  intro s hs r s' hr
  obtain ⟨rfl, rfl⟩ := by simpa [gets] using hr
  exact h s hs

theorem post_modify {f : σ → σ} {Q : Except ε Unit → σ → Prop}
    (h : ∀ s, P s → Q (.ok ()) (f s)) : Post P (modify f) Q := by
  intro s hs r s' hr
  obtain ⟨rfl, rfl⟩ := by simpa [modify] using hr
  exact h s hs

theorem post_bind {M : Except ε α → σ → Prop}
    {Q : Except ε β → σ → Prop} (first : Post P m M) (second : ∀ a, Post (M (.ok a)) (f a) Q)
    (failed : ∀ e s, M (.error e) s → Q (.error e) s) : Post P (m >>= f) Q := by
  intro s hs r s' hr
  obtain ⟨e, s₁, hm, eq⟩ | ⟨a, s₁, hm, hf⟩ := bind_eq_some.mp hr
  · obtain ⟨rfl, rfl⟩ := Prod.mk.inj eq
    exact failed e s' (first s hs _ _ hm)
  · exact second a s₁ (first s hs _ _ hm) r s' hf

variable {ε' : Type}

theorem post_mapError {f : ε → ε'} {Q : Except ε' α → σ → Prop}
    (h : Post P m fun r s => Q (r.mapError f) s) : Post P (mapError f m) Q := by
  intro s hs r s' hr
  simp only [mapError] at hr
  split at hr
  · simp at hr
  · obtain ⟨rfl, rfl⟩ := by simpa using hr
    exact h s hs _ _ ‹_›
  · obtain ⟨rfl, rfl⟩ := by simpa using hr
    exact h s hs _ _ ‹_›

variable {I : σ → Prop} {E : ε → Prop}

/-- An invariant kept by both computations is kept by their sequence. -/
theorem keeps_bind {M : α → Prop} {Q : β → Prop} (first : Keeps I m M E) (second : ∀ a, M a → Keeps I (f a) Q E) :
    Keeps I (m >>= f) Q E := by
  refine post_bind first ?_ ?_
  · intro a s hs
    exact second a (hs.2.1 a rfl) s hs.1
  · intro e s hs
    exact ⟨hs.1, by simp, fun e' he => hs.2.2 e' (by simpa using he)⟩

/-- After a computation that keeps the invariant, any postcondition of the rest. -/
theorem post_bind_of_keeps {M : α → Prop} {Q : Except ε β → σ → Prop} (first : Keeps I m M E)
    (second : ∀ a, M a → Post I (f a) Q) (failed : ∀ e s, I s → E e → Q (.error e) s) :
    Post I (m >>= f) Q := by
  refine post_bind first ?_ ?_
  · intro a s hs
    exact second a (hs.2.1 a rfl) s hs.1
  · intro e s hs
    exact failed e s hs.1 (hs.2.2 e rfl)

variable {Q : α → Prop}

theorem keeps_pure {a : α} (h : Q a) :
    Keeps I (pure a : Run σ ε α) Q E :=
  post_pure fun s hs => ⟨hs, by simpa using h, by simp⟩

theorem keeps_throw {e : ε} (h : E e) :
    Keeps I (throw e : Run σ ε α) Q E :=
  post_throw fun s hs => ⟨hs, by simp, by simpa using h⟩

/-- What is read from a state of the invariant. -/
theorem keeps_gets {f : σ → α} (h : ∀ s, I s → Q (f s)) : Keeps I (gets f : Run σ ε α) Q E :=
  post_gets fun s hs => ⟨hs, by simpa using h s hs, by simp⟩

theorem keeps_modify {f : σ → σ} (h : ∀ s, I s → I (f s)) :
    Keeps I (modify f : Run σ ε Unit) (fun _ => True) E :=
  post_modify fun s hs => ⟨h s hs, by simp, by simp⟩

theorem Keeps.weaken {Q' : α → Prop} (h : Keeps I m Q E) (hQ : ∀ a, Q a → Q' a) : Keeps I m Q' E :=
  Post.imp h (fun _ hs => hs) fun _ _ hr => ⟨hr.1, fun a ha => hQ a (hr.2.1 a ha), hr.2.2⟩

/-- The invariant alone. -/
theorem Keeps.forget (h : Keeps I m Q E) : Keeps I m (fun _ => True) fun _ => True :=
  Post.imp h (fun _ hs => hs) fun _ _ hr => ⟨hr.1, fun _ _ => trivial, fun _ _ => trivial⟩

theorem keeps_mapError {f : ε → ε'} {E' : ε' → Prop} (h : Keeps I m Q E) (hE : ∀ e, E e → E' (f e)) :
    Keeps I (mapError f m) Q E' := by
  refine post_mapError (Post.imp h (fun _ hs => hs) ?_)
  rintro (e | a) s hr
  · exact ⟨hr.1, by simp [Except.mapError], by simpa [Except.mapError] using hE e (hr.2.2 e rfl)⟩
  · exact ⟨hr.1, by simpa [Except.mapError] using hr.2.1, by simp [Except.mapError]⟩

/-- Element by element, the results of `mapM` are related to its arguments. -/
theorem keeps_mapM {Q : α → β → Prop} (xs : List α) (h : ∀ x ∈ xs, Keeps I (f x) (Q x) E) :
    Keeps I (mapM f xs) (List.Forall₂ Q xs) E := by
  induction xs with
  | nil => exact keeps_pure .nil
  | cons x xs ih =>
      refine keeps_bind (h x (by simp)) fun y hy => ?_
      refine keeps_bind (ih fun x' hx' => h x' (by simp [hx'])) fun ys hys => ?_
      exact keeps_pure (.cons hy hys)

theorem keeps_forEach {f : α → Run σ ε Unit} (xs : List α) (h : ∀ x ∈ xs, Keeps I (f x) (fun _ => True) E) :
    Keeps I (forEach f xs) (fun _ => True) E := by
  induction xs with
  | nil => exact keeps_pure trivial
  | cons x xs ih =>
      exact keeps_bind (h x (by simp)) fun _ _ => ih fun x' hx' => h x' (by simp [hx'])

/-! ### Fuel -/

/-- Whatever the first computation returns, the second returns too. -/
def Approximates (m m' : Run σ ε α) : Prop := ∀ s r, m s = some r → m' s = some r

theorem approximates_refl (m : Run σ ε α) : Approximates m m := fun _ _ h => h

theorem approximates_bind {m' : Run σ ε α} {f' : α → Run σ ε β} (hm : Approximates m m')
    (hf : ∀ a, Approximates (f a) (f' a)) : Approximates (m >>= f) (m' >>= f') := by
  intro s r h
  obtain ⟨e, s', hr, eq⟩ | ⟨a, s', hr, hs⟩ := bind_eq_some.mp h
  · exact bind_eq_some.mpr (.inl ⟨e, s', hm _ _ hr, eq⟩)
  · exact bind_eq_some.mpr (.inr ⟨a, s', hm _ _ hr, hf a _ _ hs⟩)

theorem approximates_mapError {m' : Run σ ε α} {g : ε → ε'}
    (hm : Approximates m m') : Approximates (mapError g m) (mapError g m') := by
  intro s r h
  simp only [mapError] at h ⊢
  split at h
  · simp at h
  · rw [hm _ _ ‹_›]; exact h
  · rw [hm _ _ ‹_›]; exact h

theorem approximates_mapM {f' : α → Run σ ε β} (xs : List α)
    (hf : ∀ x ∈ xs, Approximates (f x) (f' x)) : Approximates (mapM f xs) (mapM f' xs) := by
  induction xs with
  | nil => exact approximates_refl _
  | cons x xs ih =>
      refine approximates_bind (hf x (by simp)) fun y => ?_
      exact approximates_bind (ih fun x' hx' => hf x' (by simp [hx'])) fun _ => approximates_refl _

theorem approximates_forEach {f f' : α → Run σ ε Unit} (xs : List α)
    (hf : ∀ x ∈ xs, Approximates (f x) (f' x)) : Approximates (forEach f xs) (forEach f' xs) := by
  induction xs with
  | nil => exact approximates_refl _
  | cons x xs ih =>
      exact approximates_bind (hf x (by simp)) fun _ => ih fun x' hx' => hf x' (by simp [hx'])

/-- More fuel never changes a result. -/
def Fueled (m : Nat → Run σ ε α) : Prop := ∀ fuel, Approximates (m fuel) (m (fuel + 1))

theorem Fueled.le {m : Nat → Run σ ε α} (h : Fueled m) {low high : Nat} (le : low ≤ high) {s : σ}
    {r : Except ε α × σ} (returns : m low s = some r) : m high s = some r := by
  induction le with
  | refl => exact returns
  | step _ ih => exact h _ s r ih

theorem fueled_const (m : Run σ ε α) : Fueled fun _ => m := fun _ => approximates_refl m

theorem fueled_bind {m : Nat → Run σ ε α} {f : Nat → α → Run σ ε β} (hm : Fueled m)
    (hf : ∀ a, Fueled fun fuel => f fuel a) : Fueled fun fuel => m fuel >>= f fuel :=
  fun fuel => approximates_bind (hm fuel) fun a => hf a fuel

theorem fueled_mapError {m : Nat → Run σ ε α} {g : ε → ε'} (hm : Fueled m) :
    Fueled fun fuel => mapError g (m fuel) := fun fuel => approximates_mapError (hm fuel)

theorem fueled_mapM {f : Nat → α → Run σ ε β} (xs : List α)
    (hf : ∀ x ∈ xs, Fueled fun fuel => f fuel x) : Fueled fun fuel => mapM (f fuel) xs :=
  fun fuel => approximates_mapM xs fun x hx => hf x hx fuel

theorem fueled_forEach {f : Nat → α → Run σ ε Unit} (xs : List α)
    (hf : ∀ x ∈ xs, Fueled fun fuel => f fuel x) : Fueled fun fuel => forEach (f fuel) xs :=
  fun fuel => approximates_forEach xs fun x hx => hf x hx fuel

/-- With enough fuel the computation returns. -/
def Eventually (m : Nat → Run σ ε α) (s : σ) (r : Except ε α) (s' : σ) : Prop :=
  ∃ fuel, m fuel s = some (r, s')

/-- With enough fuel the computation returns something. -/
def Halts (m : Nat → Run σ ε α) (s : σ) : Prop := ∃ r s', Eventually m s r s'

/-- A computation that halts has one result with all fuels from some on. -/
theorem Fueled.settles {m : Nat → Run σ ε α} (fueled : Fueled m) (halts : Halts m s) :
    ∃ r enough, ∀ fuel ≥ enough, m fuel s = some r := by
  obtain ⟨r, s', enough, result⟩ := halts
  exact ⟨(r, s'), enough, fun _ more => fueled.le more result⟩

theorem halts_const (h : (m s).isSome) : Halts (fun _ => m) s := by
  obtain ⟨⟨r, s'⟩, hr⟩ := Option.isSome_iff_exists.mp h
  exact ⟨r, s', 0, hr⟩

theorem halts_bind {m : Nat → Run σ ε α} {f : Nat → α → Run σ ε β} (hm : Fueled m)
    (hf : ∀ a, Fueled fun fuel => f fuel a) (first : Halts m s)
    (second : ∀ a s', Eventually m s (.ok a) s' → Halts (fun fuel => f fuel a) s') :
    Halts (fun fuel => m fuel >>= f fuel) s := by
  obtain ⟨r, s₁, fuel₁, h₁⟩ := first
  cases r with
  | error e => exact ⟨.error e, s₁, fuel₁, bind_eq_some.mpr (.inl ⟨e, s₁, h₁, rfl⟩)⟩
  | ok a =>
      obtain ⟨r, s₂, fuel₂, h₂⟩ := second a s₁ ⟨fuel₁, h₁⟩
      refine ⟨r, s₂, max fuel₁ fuel₂, bind_eq_some.mpr (.inr ⟨a, s₁, ?_, ?_⟩)⟩
      · exact hm.le (Nat.le_max_left ..) h₁
      · exact (hf a).le (Nat.le_max_right ..) h₂

theorem halts_mapError {m : Nat → Run σ ε α} {g : ε → ε'} (h : Halts m s) :
    Halts (fun fuel => mapError g (m fuel)) s := by
  obtain ⟨r, s', fuel, hr⟩ := h
  refine ⟨r.mapError g, s', fuel, ?_⟩
  cases r <;> simp [mapError, hr, Except.mapError]

/-- A loop over a list halts when each round does from every state the invariant allows. -/
theorem halts_mapM {f : Nat → α → Run σ ε β} (xs : List α) (hf : ∀ x ∈ xs, Fueled fun fuel => f fuel x)
    (keeps : ∀ x ∈ xs, ∀ fuel, Keeps I (f fuel x) (fun _ => True) fun _ => True)
    (halts : ∀ x ∈ xs, ∀ s, I s → Halts (fun fuel => f fuel x) s) (hs : I s) :
    Halts (fun fuel => mapM (f fuel) xs) s := by
  induction xs generalizing s with
  | nil => exact halts_const rfl
  | cons x xs ih =>
      refine halts_bind (hf x (by simp)) (fun y => ?_) (halts x (by simp) s hs) ?_
      · exact fueled_bind (fueled_mapM xs fun x' hx' => hf x' (by simp [hx'])) fun _ => fueled_const _
      · rintro y s' ⟨fuel, hr⟩
        have hs' : I s' := (keeps x (by simp) fuel s hs _ _ hr).1
        refine halts_bind (fueled_mapM xs fun x' hx' => hf x' (by simp [hx']))
          (fun _ => fueled_const _) ?_ fun ys s'' _ => halts_const rfl
        exact ih (fun x' hx' => hf x' (by simp [hx'])) (fun x' hx' => keeps x' (by simp [hx']))
          (fun x' hx' => halts x' (by simp [hx'])) hs'

end Run

end Mimi.Lib
