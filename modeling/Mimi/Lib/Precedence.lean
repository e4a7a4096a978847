/-
Module: Mimi.Lib.Precedence
Purpose: Trees of binary operators, the sequences of operands and operators that they read, and that a table of
  precedences leaves exactly one tree to every sequence.
Trusted boundary: none
-/
import Mathlib

namespace Mimi.Lib.Precedence

/-- Operators of one precedence associate to the same side. -/
structure Table (Operator : Type) where
  prec : Operator → Nat
  right : Operator → Bool
  consistent : ∀ a b, prec a = prec b → right a = right b

inductive Tree (Operator Operand : Type) where
  | leaf (x : Operand)
  | node (op : Operator) (l r : Tree Operator Operand)

variable {Operator Operand : Type}

namespace Tree

/-- The leftmost operand. -/
def first : Tree Operator Operand → Operand
  | leaf x => x
  | node _ l _ => l.first

/-- The operators in order, each with the operand behind it. -/
def rest : Tree Operator Operand → List (Operator × Operand)
  | leaf _ => []
  | node op l r => l.rest ++ (op, r.first) :: r.rest

def root : Tree Operator Operand → Option Operator
  | leaf _ => none
  | node op _ _ => some op

/-- A tree with operators has one at its root. -/
theorem root_of_mem {t : Tree Operator Operand} {entry : Operator × Operand} (mem : entry ∈ t.rest) :
    ∃ a, t.root = some a := by
  cases t with
  | leaf x => cases mem
  | node op l r => exact ⟨op, rfl⟩

end Tree

namespace Table

variable (table : Table Operator)

/-- An operator may stand at the root of the left operand of another. -/
def LeftOk (op a : Operator) : Prop := if table.right op then table.prec op < table.prec a else table.prec op ≤ table.prec a

/-- An operator may stand at the root of the right operand of another. -/
def RightOk (op a : Operator) : Prop := if table.right op then table.prec op ≤ table.prec a else table.prec op < table.prec a

/-- The operands of every operator bind as tightly as the side on which they stand asks. -/
inductive Respects : Tree Operator Operand → Prop where
  | leaf (x : Operand) : Respects (.leaf x)
  | node {op : Operator} {l r : Tree Operator Operand} (left : ∀ a, l.root = some a → table.LeftOk op a)
      (right : ∀ a, r.root = some a → table.RightOk op a) (respects_left : Respects l) (respects_right : Respects r) :
      Respects (.node op l r)

/-- The least precedence on the right of an operator. -/
def above (op : Operator) : Nat := if table.right op then table.prec op else table.prec op + 1

variable {table}

theorem rightOk_iff {op a : Operator} : table.RightOk op a ↔ table.above op ≤ table.prec a := by
  rw [RightOk, above]
  split
  · exact Iff.rfl
  · exact Nat.lt_iff_add_one_le

theorem LeftOk.le {op a : Operator} (ok : table.LeftOk op a) : table.prec op ≤ table.prec a := by
  rw [LeftOk] at ok
  split at ok
  · exact ok.le
  · exact ok

theorem RightOk.le {op a : Operator} (ok : table.RightOk op a) : table.prec op ≤ table.prec a := by
  rw [RightOk] at ok
  split at ok
  · exact ok
  · exact ok.le

theorem LeftOk.mono {op a b : Operator} (ok : table.LeftOk op a) (le : table.prec a ≤ table.prec b) :
    table.LeftOk op b := by
  unfold LeftOk at ok ⊢
  split_ifs at ok ⊢
  · exact lt_of_lt_of_le ok le
  · exact le_trans ok le

theorem RightOk.mono {op a b : Operator} (ok : table.RightOk op a) (le : table.prec a ≤ table.prec b) :
    table.RightOk op b :=
  rightOk_iff.mpr (le_trans (rightOk_iff.mp ok) le)

/-- Of two operators, the one that may not stand on the right of the other may have it on its left. -/
theorem leftOk_iff {op a : Operator} : table.LeftOk op a ↔ ¬ table.RightOk a op := by
  have same := table.consistent op a
  rw [LeftOk, RightOk]
  cases first : table.right op <;> cases second : table.right a
  · simp
  · rw [first, second] at same
    have differ : table.prec op ≠ table.prec a := fun equal => Bool.noConfusion (same equal)
    simp only [if_true, Bool.false_eq_true, if_false, not_le]
    exact ⟨fun le => lt_of_le_of_ne le differ, le_of_lt⟩
  · rw [first, second] at same
    have differ : table.prec op ≠ table.prec a := fun equal => Bool.noConfusion (same equal)
    simp only [if_true, Bool.false_eq_true, if_false, not_lt]
    exact ⟨le_of_lt, fun le => lt_of_le_of_ne le differ⟩
  · simp

/-- What stands behind a left operand is too loose for its right operands. -/
theorem LeftOk.lt_above {op a : Operator} (ok : table.LeftOk op a) : table.prec op < table.above a :=
  Nat.lt_of_not_le fun le => leftOk_iff.mp ok (rightOk_iff.mpr le)

/-- The operator at the root binds least tightly. -/
theorem Respects.root_le {t : Tree Operator Operand} (respects : table.Respects t) {a : Operator}
    (root : t.root = some a) : ∀ entry ∈ t.rest, table.prec a ≤ table.prec entry.1 := by
  induction respects generalizing a with
  | leaf x => cases root
  | @node op l r left right _ _ ih_left ih_right =>
      obtain rfl := Option.some.inj root
      intro entry mem
      rw [Tree.rest, List.mem_append, List.mem_cons] at mem
      rcases mem with inside | rfl | inside
      · obtain ⟨b, below⟩ := Tree.root_of_mem inside
        exact le_trans (left b below).le (ih_left below entry inside)
      · exact le_rfl
      · obtain ⟨b, below⟩ := Tree.root_of_mem inside
        exact le_trans (right b below).le (ih_right below entry inside)

/-- What may stand at the root of a left operand may stand anywhere in it. -/
theorem Respects.left_all {op : Operator} {l : Tree Operator Operand} (respects : table.Respects l)
    (left : ∀ a, l.root = some a → table.LeftOk op a) : ∀ entry ∈ l.rest, table.LeftOk op entry.1 := by
  intro entry mem
  obtain ⟨a, root⟩ := Tree.root_of_mem mem
  exact (left a root).mono (respects.root_le root entry mem)

theorem Respects.right_all {op : Operator} {r : Tree Operator Operand} (respects : table.Respects r)
    (right : ∀ a, r.root = some a → table.RightOk op a) : ∀ entry ∈ r.rest, table.RightOk op entry.1 := by
  intro entry mem
  obtain ⟨a, root⟩ := Tree.root_of_mem mem
  exact (right a root).mono (respects.root_le root entry mem)

/-! ### One tree for a sequence -/

/-- One operator cannot stand in the left operand of another that stands in its right operand. -/
theorem Respects.no_shift {op op' : Operator} {l r l' r' : Tree Operator Operand}
    (respects : table.Respects (.node op l r)) (respects' : table.Respects (.node op' l' r')) {x y : Operand}
    (on_left : (op, x) ∈ l'.rest) (on_right : (op', y) ∈ r.rest) : False := by
  cases respects with
  | node left right respects_l respects_r =>
      cases respects' with
      | node left' right' respects_l' respects_r' =>
          exact leftOk_iff.mp (respects_l'.left_all left' _ on_left) (respects_r.right_all right _ on_right)

/-- Two trees of one sequence are the same. -/
theorem Respects.unique {t t' : Tree Operator Operand} (respects : table.Respects t) (respects' : table.Respects t')
    (first : t.first = t'.first) (rest : t.rest = t'.rest) : t = t' := by
  induction respects generalizing t' with
  | leaf x =>
      cases t' with
      | leaf y => exact congrArg Tree.leaf first
      | node op l r => exact absurd rest.symm (List.append_ne_nil_of_right_ne_nil _ (List.cons_ne_nil _ _))
  | @node op l r left right respects_l respects_r ih_left ih_right =>
      have here := Respects.node left right respects_l respects_r
      cases t' with
      | leaf y => exact absurd rest (List.append_ne_nil_of_right_ne_nil _ (List.cons_ne_nil _ _))
      | node op' l' r' =>
          -- The two roots stand at one place of the sequence.
          have meet : l.rest = l'.rest ∧ (op, r.first) :: r.rest = (op', r'.first) :: r'.rest := by
            obtain ⟨between, front, back⟩ | ⟨between, front, back⟩ := List.append_eq_append_iff.mp rest
            · cases between with
              | nil => exact ⟨by rw [front, List.append_nil], back⟩
              | cons entry between =>
                  obtain ⟨rfl, behind⟩ := List.cons.inj back
                  have on_left : (op, r.first) ∈ l'.rest := by simp [front]
                  have on_right : (op', r'.first) ∈ r.rest := by simp [behind]
                  exact absurd on_right (fun mem => here.no_shift respects' on_left mem)
            · cases between with
              | nil => exact ⟨by rw [front, List.append_nil], back.symm⟩
              | cons entry between =>
                  obtain ⟨rfl, behind⟩ := List.cons.inj back
                  have on_left : (op', r'.first) ∈ l.rest := by simp [front]
                  have on_right : (op, r.first) ∈ r'.rest := by simp [behind]
                  exact absurd on_right (fun mem => respects'.no_shift here on_left mem)
          obtain ⟨front, back⟩ := meet
          obtain ⟨root, behind⟩ := List.cons.inj back
          obtain ⟨rfl, second⟩ := Prod.mk.inj root
          cases respects' with
          | node _ _ respects_l' respects_r' =>
              rw [ih_left respects_l' first front, ih_right respects_r' second behind]

variable (table)

/-- A tree with one more operator and operand behind it. -/
def attach (op : Operator) (x : Operand) : Tree Operator Operand → Tree Operator Operand
  | .leaf y => .node op (.leaf y) (.leaf x)
  | .node a l r =>
      if table.above a ≤ table.prec op then .node a l (attach op x r) else .node op (.node a l r) (.leaf x)

theorem attach_node (op a : Operator) (x : Operand) (l r : Tree Operator Operand) :
    (table.RightOk a op ∧ table.attach op x (.node a l r) = .node a l (table.attach op x r)) ∨
      (table.LeftOk op a ∧ table.attach op x (.node a l r) = .node op (.node a l r) (.leaf x)) := by
  by_cases ok : table.RightOk a op
  · exact .inl ⟨ok, if_pos (rightOk_iff.mp ok)⟩
  · exact .inr ⟨leftOk_iff.mpr ok, if_neg fun le => ok (rightOk_iff.mpr le)⟩

variable {table}

theorem attach_first (op : Operator) (x : Operand) (t : Tree Operator Operand) :
    (table.attach op x t).first = t.first := by
  cases t with
  | leaf y => rfl
  | node a l r =>
      obtain ⟨-, same⟩ | ⟨-, same⟩ := table.attach_node op a x l r <;>
        rw [same] <;> rfl

theorem attach_rest (op : Operator) (x : Operand) (t : Tree Operator Operand) :
    (table.attach op x t).rest = t.rest ++ [(op, x)] := by
  induction t with
  | leaf y => rfl
  | node a l r _ ih =>
      obtain ⟨-, same⟩ | ⟨-, same⟩ := table.attach_node op a x l r
      · rw [same, Tree.rest, attach_first, ih, Tree.rest, List.append_assoc]
        rfl
      · rw [same]
        rfl

theorem attach_root (op : Operator) (x : Operand) (t : Tree Operator Operand) {a : Operator}
    (root : (table.attach op x t).root = some a) : a = op ∨ t.root = some a := by
  cases t with
  | leaf y => exact .inl (Option.some.inj root).symm
  | node b l r =>
      obtain ⟨-, same⟩ | ⟨-, same⟩ := table.attach_node op b x l r
      · rw [same] at root
        exact .inr root
      · rw [same] at root
        exact .inl (Option.some.inj root).symm

theorem Respects.attach {t : Tree Operator Operand} (respects : table.Respects t) (op : Operator) (x : Operand) :
    table.Respects (table.attach op x t) := by
  induction respects with
  | leaf y => exact .node nofun nofun (.leaf y) (.leaf x)
  | @node a l r left right respects_l respects_r _ ih =>
      obtain ⟨ok, same⟩ | ⟨ok, same⟩ := table.attach_node op a x l r
      · rw [same]
        refine .node left ?_ respects_l ih
        intro b root
        obtain rfl | root := attach_root op x r root
        · exact ok
        · exact right b root
      · rw [same]
        refine .node ?_ nofun (.node left right respects_l respects_r) (.leaf x)
        intro b root
        obtain rfl := Option.some.inj root
        exact ok

variable (table)

/-- Every sequence has exactly one tree that respects the precedences. -/
theorem exists_unique_tree (x : Operand) (entries : List (Operator × Operand)) :
    ∃ t, (table.Respects t ∧ t.first = x ∧ t.rest = entries) ∧
      ∀ t', table.Respects t' → t'.first = x → t'.rest = entries → t' = t := by
  have some_tree : ∃ t, table.Respects t ∧ t.first = x ∧ t.rest = entries := by
    induction entries using List.reverseRecOn with
    | nil => exact ⟨.leaf x, .leaf x, rfl, rfl⟩
    | append_singleton entries entry ih =>
        obtain ⟨t, respects, first, rest⟩ := ih
        exact ⟨table.attach entry.1 entry.2 t, respects.attach entry.1 entry.2, by rw [attach_first, first],
          by rw [attach_rest, rest]⟩
  obtain ⟨t, respects, first, rest⟩ := some_tree
  refine ⟨t, ⟨respects, first, rest⟩, fun t' respects' first' rest' => ?_⟩
  exact respects'.unique respects (first'.trans first.symm) (rest'.trans rest.symm)

end Table

end Mimi.Lib.Precedence
