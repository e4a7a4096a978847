/-
Module: Mimi.Proofs.InferenceTotality
Purpose: The operations of the inference engine return from every reachable table, whatever the types.
Trusted boundary: none
-/
import Mimi.Proofs.InferenceTermination

namespace Mimi.Core

open Mimi.Lib Ty Table

variable {s : Table} {root : Nat → Nat} {τ : Nat → TypeTerm}

/-- The part of the body after the resolutions. -/
theorem fueled_checked (aResolved bResolved : Ty) : Run.Fueled fun fuel =>
    if isEscapeType aResolved || isEscapeType bResolved then
      Run.throw (.mismatch ("checked unification rejects escape types " ++ fmtType aResolved
        ++ " and " ++ fmtType bResolved))
    else unifyInferenceInner fuel aResolved bResolved := by
  split_ifs
  · exact Run.fueled_const _
  · exact fueled_unifyInferenceInner aResolved bResolved

theorem fueled_checkedUnify (a b : Ty) : Run.Fueled fun fuel => checkedUnify fuel a b :=
  Run.fueled_bind (fueled_resolved a) fun aResolved =>
    Run.fueled_bind (fueled_resolved b) (fueled_checked aResolved)

theorem checkedUnify_returns (solved : s.Solved root τ) (a b : Ty) :
    Run.Halts (fun fuel => checkedUnify fuel a b) s := by
  refine Run.halts_bind (fueled_resolved a)
    (fun aResolved => Run.fueled_bind (fueled_resolved b) (fueled_checked aResolved))
    (Run.halts_mapError (resolveInfer_halts solved a)) ?_
  rintro aResolved s₁ ⟨fuel₁, result₁⟩
  obtain ⟨solved₁, -, -⟩ := resolved_solved solved fuel₁ a s solved _ _ result₁
  refine Run.halts_bind (fueled_resolved b) (fueled_checked aResolved)
    (Run.halts_mapError (resolveInfer_halts solved₁ b)) ?_
  rintro bResolved s₂ ⟨fuel₂, result₂⟩
  obtain ⟨solved₂, -, -⟩ := resolved_solved solved₁ fuel₂ b s₁ solved₁ _ _ result₂
  split_ifs
  · exact Run.halts_const rfl
  · exact unifyInferenceInner_halts _ _ aResolved bResolved root τ s₂ solved₂ le_rfl le_rfl

theorem transaction_halts {operation : Nat → Infer Unit}
    (halts : Run.Halts operation s.enter) : Run.Halts (fun fuel => transaction (operation fuel)) s := by
  obtain ⟨r, s', fuel, result⟩ := halts
  cases r with
  | ok u => exact ⟨_, _, fuel, by simp only [transaction, result]; rfl⟩
  | error e => exact ⟨_, _, fuel, by simp only [transaction, result]; rfl⟩

theorem fueled_transaction {operation : Nat → Infer Unit} (fueled : Run.Fueled operation) :
    Run.Fueled fun fuel => transaction (operation fuel) := by
  intro fuel s r h
  cases result : operation fuel s.enter with
  | none => simp [transaction, result] at h
  | some outcome =>
      simp only [transaction, result] at h
      simp only [transaction, fueled fuel _ _ result]
      exact h

theorem constrain_halts (solved : s.Solved root τ) (a b : Ty) : Run.Halts (fun fuel => constrain fuel a b) s := by
  have entered : s.enter.Solved root τ := solved.congr rfl rfl
  exact transaction_halts (checkedUnify_returns entered a b)

theorem fueled_constrain (a b : Ty) : Run.Fueled fun fuel => constrain fuel a b :=
  fueled_transaction (fueled_checkedUnify a b)

theorem fueled_zonk (ty : Ty) : Run.Fueled fun fuel => zonk fuel ty :=
  Run.fueled_bind (fueled_resolveWithDepth _ [] ty) fun _ => Run.fueled_const _

theorem zonk_halts (solved : s.Solved root τ) (ty : Ty) : Run.Halts (fun fuel => zonk fuel ty) s := by
  refine Run.halts_bind (fueled_resolveWithDepth _ [] ty) (fun _ => Run.fueled_const _)
    (resolveInfer_halts solved ty) fun resolved s' _ => Run.halts_const ?_
  cases scanResidual resolved <;> rfl

/-- From every reachable table, at any nesting of transactions, and for all types, constraints, permissive unification,
probes and the resolution of a type return, and more fuel does not change what they return. -/
theorem inference_returns {open_ : List Nat} {s : Table} (reach : Reach open_ s) (a b : Ty) :
    (∃ r enough, ∀ fuel ≥ enough, constrain fuel a b s = some r) ∧
      (∃ r enough, ∀ fuel ≥ enough, unifyInference fuel a b s = some r) ∧
      (∃ r enough, ∀ fuel ≥ enough, probeCompatible fuel a b s = some r) ∧
      ∃ r enough, ∀ fuel ≥ enough, zonk fuel a s = some r := by
  obtain ⟨root, τ, solved⟩ := reach.solvable
  have entered : s.enter.Solved root τ := solved.congr rfl rfl
  have inner := unifyInferenceInner_halts _ _ a b root τ s.enter entered le_rfl le_rfl
  have probed := (fueled_constrain a b).settles (constrain_halts entered a b)
  refine ⟨(fueled_constrain a b).settles (constrain_halts solved a b),
    (fueled_transaction (fueled_unifyInferenceInner a b)).settles (transaction_halts inner), ?_,
    (fueled_zonk a).settles (zonk_halts solved a)⟩
  obtain ⟨⟨outcome, s'⟩, enough, returns⟩ := probed
  exact ⟨_, enough, fun fuel more => by rw [probeCompatible, returns fuel more]; rfl⟩

/-- A list of a variable against a newtype of a list of any type, from a new table. -/
theorem inference_returns_newtype :
    ∃ r enough, ∀ fuel ≥ enough,
      constrain fuel (name "List" [typeVar 0]) (newtype "Ids" (name "List" [name "Any" []])) .new = some r :=
  (inference_returns .new _ _).1

theorem typesCompatible_le {a b : Ty} {fuel fuel' : Nat} {r : Bool} (more : fuel ≤ fuel')
    (answers : typesCompatible fuel a b = some r) : typesCompatible fuel' a b = some r := by
  rw [typesCompatible, Option.bind_eq_bind, Option.bind_eq_some_iff] at answers ⊢
  obtain ⟨outcome, returns, same⟩ := answers
  exact ⟨outcome, (fueled_constrain a b).le more returns, same⟩

theorem typesCompatible_returns (a b : Ty) : ∃ r enough, ∀ fuel ≥ enough, typesCompatible fuel a b = some r := by
  obtain ⟨root, τ, solved⟩ := Reach.new.solvable
  obtain ⟨⟨outcome, s⟩, enough, returns⟩ := (fueled_constrain a b).settles (constrain_halts solved a b)
  cases outcome with
  | ok => exact ⟨true, enough, fun fuel more => by rw [typesCompatible, returns fuel more]; rfl⟩
  | error e => exact ⟨false, enough, fun fuel more => by rw [typesCompatible, returns fuel more]; rfl⟩

end Mimi.Core
