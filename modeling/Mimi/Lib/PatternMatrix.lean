/-
Module: Mimi.Lib.PatternMatrix
Purpose: Pattern matrices over trees whose sorts say which heads a tree may have: a matrix is complete, read column by
  column, exactly when every vector of trees is accepted by one of its rows.
Trusted boundary: none
-/
import Mathlib

namespace Mimi.Lib

/-- A value as patterns see it: a head and what stands under it. -/
inductive HeadTree (H : Type) : Type where
  | node (h : H) (args : List (HeadTree H))

inductive Pat (H : Type) : Type where
  | any
  | never
  | head (h : H) (args : List (Pat H))

namespace PatternMatrix

variable {H σ : Type}

/-! ### Acceptance -/

mutual

/-- A pattern accepts a tree. -/
def Accepts : Pat H → HeadTree H → Prop
  | .any, _ => True
  | .never, _ => False
  | .head h ps, .node h' vs => h' = h ∧ AcceptsAll ps vs

/-- A row accepts a vector of trees. -/
def AcceptsAll : List (Pat H) → List (HeadTree H) → Prop
  | [], [] => True
  | p :: ps, v :: vs => Accepts p v ∧ AcceptsAll ps vs
  | [], _ :: _ => False
  | _ :: _, [] => False

end

/-- Some row of a matrix accepts a vector. -/
def Covers (rows : List (List (Pat H))) (vs : List (HeadTree H)) : Prop := ∃ row ∈ rows, AcceptsAll row vs

@[simp] theorem acceptsAll_nil : AcceptsAll ([] : List (Pat H)) [] := trivial

variable {v : HeadTree H} {vs : List (HeadTree H)}

@[simp] theorem acceptsAll_cons {p : Pat H} {ps : List (Pat H)} :
    AcceptsAll (p :: ps) (v :: vs) ↔ Accepts p v ∧ AcceptsAll ps vs := Iff.rfl

@[simp] theorem not_acceptsAll_nil_cons : ¬ AcceptsAll [] (v :: vs) := id

theorem AcceptsAll.length_eq : ∀ {ps : List (Pat H)} {vs : List (HeadTree H)}, AcceptsAll ps vs → ps.length = vs.length
  | [], [], _ => rfl
  | _ :: _, _ :: _, h => congrArg (· + 1) h.2.length_eq
  | [], _ :: _, h => h.elim
  | _ :: _, [], h => h.elim

variable {ws : List (HeadTree H)}

/-- Rows side by side accept vectors side by side. -/
theorem acceptsAll_append {ps qs : List (Pat H)} (hlength : ps.length = vs.length) :
    AcceptsAll (ps ++ qs) (vs ++ ws) ↔ AcceptsAll ps vs ∧ AcceptsAll qs ws := by
  induction ps generalizing vs with
  | nil =>
      obtain rfl := List.length_eq_zero_iff.mp hlength.symm
      simp
  | cons p ps ih =>
      cases vs with
      | nil => cases hlength
      | cons v vs => simp [ih (Nat.succ.inj hlength), and_assoc]

theorem acceptsAll_replicate_any (vs : List (HeadTree H)) : AcceptsAll (List.replicate vs.length .any) vs := by
  induction vs with
  | nil => trivial
  | cons v vs ih => exact ⟨trivial, ih⟩

/-! ### Shapes -/

section Shapes

variable (shape : σ → H → List σ → Prop)

mutual

/-- A tree has a sort: its head is one of the sort and what stands under it has the sorts that the head asks for. -/
def Shaped : HeadTree H → σ → Prop
  | .node h vs, s => ∃ ss, shape s h ss ∧ ShapedAll vs ss

def ShapedAll : List (HeadTree H) → List σ → Prop
  | [], [] => True
  | v :: vs, s :: ss => Shaped v s ∧ ShapedAll vs ss
  | [], _ :: _ => False
  | _ :: _, [] => False

end

end Shapes

variable {shape : σ → H → List σ → Prop}

theorem ShapedAll.length_eq : ∀ {vs : List (HeadTree H)} {ss : List σ}, ShapedAll shape vs ss → vs.length = ss.length
  | [], [], _ => rfl
  | _ :: _, _ :: _, h => congrArg (· + 1) (ShapedAll.length_eq h.2)
  | [], _ :: _, h => h.elim
  | _ :: _, [], h => h.elim

theorem shapedAll_append_iff {us : List (HeadTree H)} {ts ss : List σ} :
    ShapedAll shape us (ts ++ ss) ↔ ∃ vs ws, us = vs ++ ws ∧ ShapedAll shape vs ts ∧ ShapedAll shape ws ss := by
  induction ts generalizing us with
  | nil =>
      constructor
      · exact fun h => ⟨[], us, rfl, trivial, h⟩
      · rintro ⟨vs, ws, rfl, hvs, hws⟩
        obtain rfl := List.length_eq_zero_iff.mp hvs.length_eq
        exact hws
  | cons t ts ih =>
      constructor
      · intro h
        cases us with
        | nil => exact h.elim
        | cons u us =>
            obtain ⟨vs, ws, rfl, hvs, hws⟩ := ih.mp h.2
            exact ⟨u :: vs, ws, rfl, ⟨h.1, hvs⟩, hws⟩
      · rintro ⟨vs, ws, rfl, hvs, hws⟩
        cases vs with
        | nil => exact hvs.elim
        | cons v vs => exact ⟨hvs.1, ih.mpr ⟨vs, ws, rfl, hvs.2, hws⟩⟩

/-! ### Splitting a column -/

/-- A row whose first pattern looks at the head. -/
def looks : List (Pat H) → Bool
  | .head _ _ :: _ => true
  | _ => false

/-- What a row leaves of a vector whose first tree it does not look at. -/
def defaultRow : List (Pat H) → Option (List (Pat H))
  | .any :: ps => some ps
  | _ => none

def defaults (rows : List (List (Pat H))) : List (List (Pat H)) := rows.filterMap defaultRow

variable [DecidableEq H]

/-- What a row leaves of a vector whose first tree has a head of an arity. -/
def specialiseRow (h : H) (arity : Nat) : List (Pat H) → Option (List (Pat H))
  | .any :: ps => some (List.replicate arity .any ++ ps)
  | .head h' args :: ps => if h' = h ∧ args.length = arity then some (args ++ ps) else none
  | _ => none

def specialise (h : H) (arity : Nat) (rows : List (List (Pat H))) : List (List (Pat H)) :=
  rows.filterMap (specialiseRow h arity)

theorem specialiseRow_accepts {h : H} {row : List (Pat H)} :
    (∃ row', specialiseRow h vs.length row = some row' ∧ AcceptsAll row' (vs ++ ws)) ↔
      AcceptsAll row (.node h vs :: ws) := by
  match row with
  | [] => simp [specialiseRow]
  | .any :: ps =>
      simp only [specialiseRow, Option.some.injEq, exists_eq_left']
      rw [acceptsAll_append (by simp), acceptsAll_cons]
      exact ⟨fun hboth => ⟨trivial, hboth.2⟩, fun hboth => ⟨acceptsAll_replicate_any vs, hboth.2⟩⟩
  | .never :: ps => simp [specialiseRow, Accepts]
  | .head h' args :: ps =>
      rw [acceptsAll_cons, Accepts]
      by_cases hfits : h' = h ∧ args.length = vs.length
      · simp only [specialiseRow, hfits, and_self, if_true, Option.some.injEq, exists_eq_left']
        rw [acceptsAll_append hfits.2]
        simp
      · simp only [specialiseRow, hfits, if_false, reduceCtorEq, false_and, exists_false, false_iff]
        rintro ⟨⟨heq, hargs⟩, -⟩
        exact hfits ⟨heq.symm, hargs.length_eq⟩

variable {rows : List (List (Pat H))}

/-- A matrix covers a vector exactly when, split at the first head, it covers what is left. -/
theorem specialise_covers {h : H} :
    Covers (specialise h vs.length rows) (vs ++ ws) ↔ Covers rows (.node h vs :: ws) := by
  simp only [Covers, specialise, List.mem_filterMap]
  constructor
  · rintro ⟨row', ⟨row, hrow, hspec⟩, haccepts⟩
    exact ⟨row, hrow, specialiseRow_accepts.mp ⟨row', hspec, haccepts⟩⟩
  · rintro ⟨row, hrow, haccepts⟩
    obtain ⟨row', hspec, haccepts'⟩ := specialiseRow_accepts.mpr haccepts
    exact ⟨row', ⟨row, hrow, hspec⟩, haccepts'⟩

omit [DecidableEq H] in
/-- A matrix that looks at no first head covers a vector exactly when its default covers the rest. -/
theorem defaults_covers (hlooks : rows.any looks = false) : Covers (defaults rows) ws ↔ Covers rows (v :: ws) := by
  have hrow : ∀ row ∈ rows, (∃ row', defaultRow row = some row' ∧ AcceptsAll row' ws) ↔ AcceptsAll row (v :: ws) := by
    intro row hmem
    match row, List.any_eq_false.mp hlooks row hmem with
    | [], _ => simp [defaultRow]
    | .any :: ps, _ => simp [defaultRow, Accepts]
    | .never :: ps, _ => simp [defaultRow, Accepts]
    | .head h args :: ps, hlook => exact absurd rfl hlook
  simp only [Covers, defaults, List.mem_filterMap]
  constructor
  · rintro ⟨row', ⟨row, hmem, hdefault⟩, haccepts⟩
    exact ⟨row, hmem, (hrow row hmem).mp ⟨row', hdefault, haccepts⟩⟩
  · rintro ⟨row, hmem, haccepts⟩
    obtain ⟨row', hdefault, haccepts'⟩ := (hrow row hmem).mpr haccepts
    exact ⟨row', ⟨row, hmem, hdefault⟩, haccepts'⟩

/-! ### Completeness -/

mutual

/-- The number of heads in a pattern. -/
def weight : Pat H → Nat
  | .any => 0
  | .never => 0
  | .head _ args => weights args + 1

def weights : List (Pat H) → Nat
  | [] => 0
  | p :: ps => weight p + weights ps

end

attribute [local simp] weight weights

def matrixWeight (rows : List (List (Pat H))) : Nat := (rows.map weights).sum

omit [DecidableEq H] in
theorem weights_append (ps qs : List (Pat H)) : weights (ps ++ qs) = weights ps + weights qs := by
  induction ps with
  | nil => simp [weights]
  | cons p ps ih => simp only [List.cons_append, weights, ih, Nat.add_assoc]

omit [DecidableEq H] in
theorem weights_replicate_any (n : Nat) : weights (List.replicate n (.any : Pat H)) = 0 := by
  induction n with
  | zero => rfl
  | succ n ih => simp [List.replicate_succ, weights, weight, ih]

/-- Splitting never adds heads, and takes one from each row that looks. -/
theorem specialiseRow_weight {h : H} {arity : Nat} {row row' : List (Pat H)}
    (hspec : specialiseRow h arity row = some row') :
    weights row' ≤ weights row ∧ (looks row = true → weights row' < weights row) := by
  match row with
  | [] => cases hspec
  | .any :: ps =>
      obtain rfl := Option.some.inj hspec
      simp [weights_append, weights_replicate_any, weights, weight, looks]
  | .never :: ps => cases hspec
  | .head h' args :: ps =>
      simp only [specialiseRow, Option.ite_none_right_eq_some, Option.some.injEq] at hspec
      obtain ⟨-, rfl⟩ := hspec
      simp only [weights_append, weights, weight]
      omega

omit [DecidableEq H] in
theorem looks_weight {row : List (Pat H)} (hlook : looks row = true) : 0 < weights row := by
  match row, hlook with
  | .head h args :: ps, _ => simp only [weights, weight]; omega

omit [DecidableEq H] in
theorem matrixWeight_cons (row : List (Pat H)) (rows : List (List (Pat H))) :
    matrixWeight (row :: rows) = weights row + matrixWeight rows := by
  simp [matrixWeight]

omit [DecidableEq H] in
/-- Rows that only lose heads or drop out make no heavier matrix. -/
theorem filterMap_weight_le {f : List (Pat H) → Option (List (Pat H))}
    (hf : ∀ row row', f row = some row' → weights row' ≤ weights row) (rows : List (List (Pat H))) :
    matrixWeight (rows.filterMap f) ≤ matrixWeight rows := by
  induction rows with
  | nil => exact le_rfl
  | cons row rows ih =>
      rw [List.filterMap_cons, matrixWeight_cons]
      split
      · omega
      · rename_i row' hrow
        have hle := hf row row' hrow
        rw [matrixWeight_cons]
        omega

theorem specialise_weight_le (h : H) (arity : Nat) (rows : List (List (Pat H))) :
    matrixWeight (specialise h arity rows) ≤ matrixWeight rows :=
  filterMap_weight_le (fun _ _ hspec => (specialiseRow_weight hspec).1) rows

theorem specialise_weight_lt {h : H} {arity : Nat} (hlooks : rows.any looks = true) :
    matrixWeight (specialise h arity rows) < matrixWeight rows := by
  induction rows with
  | nil => cases hlooks
  | cons row rows ih =>
      have hrest := specialise_weight_le h arity rows
      rw [specialise] at ih hrest
      rw [specialise, List.filterMap_cons, matrixWeight_cons]
      rw [List.any_cons, Bool.or_eq_true] at hlooks
      split
      · cases hlooks with
        | inl hrow =>
            have hpos := looks_weight hrow
            omega
        | inr hrows =>
            have hlt := ih hrows
            omega
      · rename_i row' hspec
        obtain ⟨hle, hlt⟩ := specialiseRow_weight hspec
        rw [matrixWeight_cons]
        cases hlooks with
        | inl hrow =>
            have hstrict := hlt hrow
            omega
        | inr hrows =>
            have hstrict := ih hrows
            omega

omit [DecidableEq H] in
theorem defaults_weight_le (rows : List (List (Pat H))) : matrixWeight (defaults rows) ≤ matrixWeight rows := by
  refine filterMap_weight_le (fun row row' hdefault => ?_) rows
  match row with
  | [] => cases hdefault
  | .any :: ps =>
      obtain rfl := Option.some.inj hdefault
      simp [weights, weight]
  | .never :: ps => cases hdefault
  | .head h args :: ps => cases hdefault

/-- A matrix is complete for a vector of sorts: with no column left it has a row; a first column that no row looks at is
skipped, unless its sort has no tree; otherwise the column is split at every head of its sort. -/
def Complete (shape : σ → H → List σ → Prop) (rows : List (List (Pat H))) (ss : List σ) : Prop :=
  match ss with
  | [] => [] ∈ rows
  | s :: ss =>
      if rows.any looks then
        ∀ h ts, shape s h ts → Complete shape (specialise h ts.length rows) (ts ++ ss)
      else
        (∀ v, ¬ Shaped shape v s) ∨ Complete shape (defaults rows) ss
termination_by (matrixWeight rows, ss.length)
decreasing_by
  · exact Prod.Lex.left _ _ (specialise_weight_lt (by assumption))
  · rcases (defaults_weight_le rows).eq_or_lt with heq | hlt
    · exact heq ▸ Prod.Lex.right _ (by simp)
    · exact Prod.Lex.left _ _ hlt

/-- A matrix is complete exactly when it covers every vector of the sorts. -/
theorem complete_iff {ss : List σ} :
    Complete shape rows ss ↔ ∀ vs, ShapedAll shape vs ss → Covers rows vs := by
  induction rows, ss using Complete.induct with
  | case1 rows =>
      rw [Complete]
      constructor
      · intro hmem vs hvs
        obtain rfl := List.length_eq_zero_iff.mp hvs.length_eq
        exact ⟨[], hmem, trivial⟩
      · intro hcovers
        obtain ⟨row, hmem, haccepts⟩ := hcovers [] trivial
        obtain rfl := List.length_eq_zero_iff.mp haccepts.length_eq
        exact hmem
  | case2 rows s ss hlooks ih =>
      rw [Complete, if_pos hlooks]
      constructor
      · intro hcomplete us hus
        match us, hus with
        | .node h vs :: ws, hshaped =>
            obtain ⟨⟨ts, hts, hvs⟩, hws⟩ := hshaped
            have hcovers := (ih h ts).mp (hcomplete h ts hts) (vs ++ ws)
              (shapedAll_append_iff.mpr ⟨vs, ws, rfl, hvs, hws⟩)
            rw [← hvs.length_eq] at hcovers
            exact specialise_covers.mp hcovers
      · intro hcovers h ts hts
        refine (ih h ts).mpr fun us hus => ?_
        obtain ⟨vs, ws, rfl, hvs, hws⟩ := shapedAll_append_iff.mp hus
        rw [← hvs.length_eq]
        exact specialise_covers.mpr (hcovers (.node h vs :: ws) ⟨⟨ts, hts, hvs⟩, hws⟩)
  | case3 rows s ss hlooks ih =>
      rw [Complete, if_neg hlooks]
      rw [Bool.not_eq_true] at hlooks
      constructor
      · intro hcomplete us hus
        match us, hus with
        | v :: ws, hshaped =>
            obtain hempty | hrest := hcomplete
            · exact absurd hshaped.1 (hempty v)
            · exact (defaults_covers hlooks).mp (ih.mp hrest ws hshaped.2)
      · intro hcovers
        by_cases hempty : ∀ v, ¬ Shaped shape v s
        · exact .inl hempty
        · obtain ⟨v, hv⟩ := not_forall_not.mp hempty
          exact .inr (ih.mpr fun ws hws => (defaults_covers hlooks).mpr (hcovers (v :: ws) ⟨hv, hws⟩))

end PatternMatrix

end Mimi.Lib
