/-
Module: Mimi.Lib.Commands
Purpose: Commands on a state that may fail to end, or stop short of an answer, and the steps that
  every run of them takes.  An invariant of the steps is an invariant of the runs.
Trusted boundary: none
-/
import Mathlib

namespace Mimi.Lib

open Relation

variable {σ α β : Type} {step : σ → σ → Prop}

/-- Every run that ends leads along steps from its first state to its last. -/
def Leads (step : σ → σ → Prop) (command : StateT σ Option α) : Prop :=
  ∀ s a s', command.run s = some (a, s') → ReflTransGen step s s'

/-- An invariant of the steps is one of the runs. -/
theorem Leads.keeps {command : StateT σ Option α} {invariant : σ → Prop}
    (leads : Leads step command) (kept : ∀ s s', step s s' → invariant s → invariant s')
    {s s' : σ} {a : α} (run : command.run s = some (a, s')) (start : invariant s) :
    invariant s' := by
  have steps := leads s a s' run
  clear run
  induction steps with
  | refl => exact start
  | tail _ last ih => exact kept _ _ last ih

theorem leads_pure (a : α) : Leads step (pure a : StateT σ Option α) := by
  intro s a' s' run
  obtain ⟨-, rfl⟩ := Prod.mk.inj (Option.some.inj run)
  exact .refl

theorem leads_stuck : Leads step (fun _ => none : StateT σ Option α) := by
  intro s a s' run
  cases run

theorem leads_bind {first : StateT σ Option α} {next : α → StateT σ Option β}
    (leads : Leads step first) (then_ : ∀ a, Leads step (next a)) :
    Leads step (first >>= next) := by
  intro s b s' run
  rw [StateT.run_bind, Option.bind_eq_bind, Option.bind_eq_some_iff] at run
  obtain ⟨middle, begins, ends⟩ := run
  exact (leads s middle.1 middle.2 begins).trans (then_ middle.1 middle.2 b s' ends)

theorem leads_get : Leads step (get : StateT σ Option σ) := by
  intro s a s' run
  obtain ⟨-, rfl⟩ := Prod.mk.inj (Option.some.inj run)
  exact .refl

theorem leads_modify {f : σ → σ} (steps : ∀ s, step s (f s)) :
    Leads step (modify f : StateT σ Option PUnit) := by
  intro s a s' run
  obtain ⟨-, rfl⟩ := Prod.mk.inj (Option.some.inj run)
  exact .single (steps s)

theorem leads_forM {f : α → StateT σ Option PUnit} (leads : ∀ a, Leads step (f a)) (l : List α) :
    Leads step (l.forM f) := by
  induction l with
  | nil => exact leads_pure _
  | cons a l ih => exact leads_bind (leads a) fun _ => ih

/-! ### Commands that stop short -/

/-- As `Leads`, for a command that may stop short of an answer. -/
def Proceeds (step : σ → σ → Prop) (command : OptionT (StateT σ Option) α) : Prop :=
  Leads step command.run

theorem proceeds_pure (a : α) : Proceeds step (pure a : OptionT (StateT σ Option) α) :=
  leads_pure _

theorem proceeds_failure : Proceeds step (failure : OptionT (StateT σ Option) α) := leads_pure _

theorem proceeds_lift {command : StateT σ Option α} (leads : Leads step command) :
    Proceeds step (liftM command : OptionT (StateT σ Option) α) :=
  leads_bind leads fun _ => leads_pure _

theorem proceeds_bind {first : OptionT (StateT σ Option) α}
    {next : α → OptionT (StateT σ Option) β} (proceeds : Proceeds step first)
    (then_ : ∀ a, Proceeds step (next a)) : Proceeds step (first >>= next) := by
  rw [Proceeds, OptionT.run_bind]
  refine leads_bind proceeds fun answer => ?_
  cases answer with
  | none => exact leads_pure _
  | some a => exact then_ a

theorem proceeds_foldlM {f : β → α → OptionT (StateT σ Option) β}
    (proceeds : ∀ b a, Proceeds step (f b a)) (l : List α) (b : β) :
    Proceeds step (l.foldlM f b) := by
  induction l generalizing b with
  | nil => exact proceeds_pure _
  | cons a l ih => exact proceeds_bind (proceeds b a) fun b' => ih b'

theorem proceeds_mapM {f : α → OptionT (StateT σ Option) β} (proceeds : ∀ a, Proceeds step (f a))
    (l : List α) : Proceeds step (l.mapM f) := by
  induction l with
  | nil => exact proceeds_pure _
  | cons a l ih =>
      rw [List.mapM_cons]
      exact proceeds_bind (proceeds a) fun _ => proceeds_bind ih fun _ => proceeds_pure _

end Mimi.Lib
