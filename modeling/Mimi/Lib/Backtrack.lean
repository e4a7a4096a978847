/-
Module: Mimi.Lib.Backtrack
Purpose: Backtracking matchers.  A sequence of repeated elements is read as the list of the lengths it
  can match, in the order in which a greedy matcher tries them; a tree of groups is read the same way,
  but a group offers its own first match only.  A matcher that counts its work is related to such a
  reading by what it answers unless it hits a limit.
Trusted boundary: none
-/
import Mathlib

namespace Mimi.Lib

/-- How often an element is repeated. -/
inductive Repeat where
  | once
  | star
  | plus
deriving DecidableEq, Repr

/-- The numbers between two bounds, greatest first. -/
def countdown (least : Nat) : Nat → List Nat
  | 0 => if least = 0 then [0] else []
  | most + 1 => if least ≤ most + 1 then (most + 1) :: countdown least most else []

variable {n : Nat}

theorem mem_countdown {least most : Nat} : n ∈ countdown least most ↔ least ≤ n ∧ n ≤ most := by
  induction most with
  | zero =>
      rw [countdown]
      split_ifs with zero
      · rw [List.mem_singleton]
        omega
      · simp only [List.not_mem_nil, false_iff]
        omega
  | succ most ih =>
      rw [countdown]
      split_ifs with within
      · rw [List.mem_cons, ih]
        omega
      · simp only [List.not_mem_nil, false_iff]
        omega

theorem findSome?_congr {A B : Type} {l : List A} {f g : A → Option B}
    (same : ∀ a ∈ l, f a = g a) : l.findSome? f = l.findSome? g := by
  induction l with
  | nil => rfl
  | cons a l ih =>
      rw [List.findSome?_cons, List.findSome?_cons, same a List.mem_cons_self,
        ih fun a' member => same a' (List.mem_cons_of_mem a member)]

/-- Candidates above a bound that fail do not matter. -/
theorem findSome?_countdown {β : Type} {least bound most : Nat} (within : bound ≤ most)
    (f : Nat → Option β) : ((countdown least most).findSome? fun n =>
      if n ≤ bound then f n else none) = (countdown least bound).findSome? f := by
  induction most with
  | zero =>
      obtain rfl := Nat.le_zero.mp within
      refine findSome?_congr fun n member => ?_
      rw [if_pos (mem_countdown.mp member).2]
  | succ most ih =>
      rcases Nat.lt_or_ge most bound with last | below
      · obtain rfl : bound = most + 1 := le_antisymm within last
        refine findSome?_congr fun n member => ?_
        rw [if_pos (mem_countdown.mp member).2]
      · rw [countdown, ← ih below]
        split_ifs with some_
        · rw [List.findSome?_cons, if_neg (by omega)]
        · have none_ : countdown least most = [] := by
            refine List.eq_nil_iff_forall_not_mem.mpr fun n member => some_ ?_
            exact ((mem_countdown.mp member).1.trans (mem_countdown.mp member).2).trans
              (Nat.le_succ _)
          rw [none_]

variable {α : Type}

/-- How many elements at the front of a text are accepted. -/
def leading (accepts : α → Bool) (text : List α) : Nat := (text.takeWhile accepts).length

theorem leading_le (accepts : α → Bool) (text : List α) : leading accepts text ≤ text.length :=
  (List.takeWhile_prefix accepts).length_le

/-- The lengths that a repeated element can match at the front of a text, most first. -/
def lengths (accepts : α → Bool) (rep : Repeat) (text : List α) : List Nat :=
  match rep with
  | .once => if text.head?.any accepts then [1] else []
  | .star => countdown 0 (leading accepts text)
  | .plus => countdown 1 (leading accepts text)

theorem mem_lengths_le {accepts : α → Bool} {rep : Repeat} {text : List α}
    (h : n ∈ lengths accepts rep text) : n ≤ text.length := by
  cases rep with
  | once =>
      rw [lengths] at h
      split_ifs at h with front
      · obtain rfl := List.mem_singleton.mp h
        cases text with
        | nil => cases front
        | cons c text => exact Nat.succ_le_succ (Nat.zero_le _)
      · cases h
  | star => exact (mem_countdown.mp h).2.trans (leading_le accepts text)
  | plus => exact (mem_countdown.mp h).2.trans (leading_le accepts text)

/-- Match on after each of some lengths. -/
def follow (first : List Nat) (next : Nat → List Nat) : List Nat :=
  first.flatMap fun n => (next n).map (n + ·)

theorem mem_follow {first : List Nat} {next : Nat → List Nat} {m : Nat} :
    m ∈ follow first next ↔ ∃ n ∈ first, ∃ k ∈ next n, n + k = m := by
  simp only [follow, List.mem_flatMap, List.mem_map]

theorem follow_zero (next : Nat → List Nat) : follow [0] next = next 0 := by
  rw [follow, List.flatMap_singleton]
  exact List.map_id'' (fun n => Nat.zero_add n) _

theorem follow_pure (first : List Nat) : follow first (fun _ => [0]) = first := by
  induction first with
  | nil => rfl
  | cons n first ih =>
      rw [follow, List.flatMap_cons] at *
      rw [ih]
      rfl

theorem follow_follow (first : List Nat) (next : Nat → List Nat) (last : Nat → List Nat) :
    follow (follow first next) last = follow first fun n => follow (next n) fun k => last (n + k) := by
  simp only [follow, List.flatMap_assoc, List.map_flatMap, List.flatMap_map, List.map_map]
  refine List.flatMap_congr fun n _ => List.flatMap_congr fun k _ => ?_
  exact List.map_congr_left fun m _ => Nat.add_assoc n k m

/-! ### Sequences -/

/-- An element with its repetition, or the end of the text. -/
inductive Step (α : Type) where
  | elem (accepts : α → Bool) (rep : Repeat)
  | end_

/-- The lengths that a sequence can match at the front of a text, in the order of the attempts. -/
def runs : List (Step α) → List α → List Nat
  | [], _ => [0]
  | .elem accepts rep :: rest, text =>
      follow (lengths accepts rep text) fun n => runs rest (text.drop n)
  | .end_ :: rest, text => if text.isEmpty then runs rest text else []

variable {seq : List (Step α)}

theorem mem_runs_le {text : List α} (h : n ∈ runs seq text) :
    n ≤ text.length := by
  induction seq generalizing text n with
  | nil =>
      obtain rfl := List.mem_singleton.mp h
      exact Nat.zero_le _
  | cons step rest ih =>
      cases step with
      | elem accepts rep =>
          obtain ⟨k, first, m, last, rfl⟩ := mem_follow.mp h
          have short := mem_lengths_le first
          have short' := ih last
          rw [List.length_drop] at short'
          omega
      | end_ =>
          rw [runs] at h
          split_ifs at h
          · exact ih h
          · cases h

/-- One sequence after another. -/
theorem runs_append (first last : List (Step α)) (text : List α) :
    runs (first ++ last) text = follow (runs first text) fun n => runs last (text.drop n) := by
  induction first generalizing text with
  | nil => exact (follow_zero fun n => runs last (text.drop n)).symm
  | cons step rest ih =>
      cases step with
      | elem accepts rep =>
          rw [List.cons_append, runs, runs, follow_follow]
          congr 1
          funext n
          rw [ih]
          simp only [List.drop_drop]
      | end_ =>
          rw [List.cons_append, runs, runs]
          split_ifs
          · exact ih text
          · rfl

/-! ### Languages -/

/-- The words of one accepted letter. -/
def letters (accepts : α → Bool) : Language α := {w | ∃ c, accepts c = true ∧ w = [c]}

/-- The words of a repeated element. -/
def Repeat.language (accepts : α → Bool) : Repeat → Language α
  | .once => letters accepts
  | .star => KStar.kstar (letters accepts)
  | .plus => letters accepts * KStar.kstar (letters accepts)

/-- The words of a sequence of repeated elements. -/
def sequence (items : List ((α → Bool) × Repeat)) : Language α :=
  (items.map fun item => item.2.language item.1).prod

theorem mem_kstar_letters {accepts : α → Bool} {w : List α} :
    w ∈ KStar.kstar (letters accepts) ↔ ∀ c ∈ w, accepts c = true := by
  rw [Language.mem_kstar]
  constructor
  · rintro ⟨words, rfl, all⟩ c member
    obtain ⟨word, there, member⟩ := List.mem_flatten.mp member
    obtain ⟨c', accepted, rfl⟩ := all word there
    rwa [List.mem_singleton.mp member]
  · intro all
    refine ⟨w.map fun c => [c], ?_, fun word member => ?_⟩
    · induction w with
      | nil => rfl
      | cons c w ih =>
          rw [List.map_cons, List.flatten_cons, ← ih fun c' member => all c' (List.mem_cons_of_mem _ member)]
          rfl
    · obtain ⟨c, there, rfl⟩ := List.mem_map.mp member
      exact ⟨c, all c there, rfl⟩

theorem mem_plus_letters {accepts : α → Bool} {w : List α} :
    w ∈ letters accepts * KStar.kstar (letters accepts) ↔ 1 ≤ w.length ∧ ∀ c ∈ w, accepts c = true := by
  rw [Language.mem_mul]
  constructor
  · rintro ⟨_, ⟨c, accepted, rfl⟩, rest, all, rfl⟩
    refine ⟨Nat.le_add_left 1 _, List.forall_mem_cons.mpr ⟨accepted, mem_kstar_letters.mp all⟩⟩
  · rintro ⟨some_, all⟩
    cases w with
    | nil => cases some_
    | cons c w =>
        obtain ⟨accepted, rest⟩ := List.forall_mem_cons.mp all
        exact ⟨[c], ⟨c, accepted, rfl⟩, w, mem_kstar_letters.mpr rest, rfl⟩

/-- As many letters are accepted as are accepted in a row. -/
theorem le_leading_iff {accepts : α → Bool} {text : List α} {k : Nat} :
    k ≤ leading accepts text ↔ k ≤ text.length ∧ ∀ c ∈ text.take k, accepts c = true := by
  induction text generalizing k with
  | nil =>
      rw [leading, List.takeWhile_nil, List.take_nil]
      exact (and_iff_left nofun).symm
  | cons c text ih =>
      rw [leading, List.takeWhile_cons]
      cases k with
      | zero => exact iff_of_true (Nat.zero_le _) ⟨Nat.zero_le _, nofun⟩
      | succ k =>
          rw [List.take_succ_cons, List.forall_mem_cons, List.length_cons]
          by_cases accepted : accepts c = true
          · rw [if_pos accepted, List.length_cons, Nat.succ_le_succ_iff, Nat.succ_le_succ_iff]
            exact ih.trans (and_congr_right fun _ => (and_iff_right accepted).symm)
          · rw [if_neg accepted]
            exact iff_of_false (Nat.not_succ_le_zero k) fun all => accepted all.2.1

theorem mem_lengths_iff {accepts : α → Bool} {rep : Repeat} {text : List α} {k : Nat} :
    k ∈ lengths accepts rep text ↔ k ≤ text.length ∧ text.take k ∈ rep.language accepts := by
  cases rep with
  | once =>
      rw [lengths, Repeat.language]
      cases text with
      | nil =>
          refine iff_of_false List.not_mem_nil ?_
          rintro ⟨-, c, -, same⟩
          rw [List.take_nil] at same
          cases same
      | cons c text =>
          rw [List.head?_cons, Option.any_some]
          constructor
          · intro member
            split_ifs at member with accepted
            · obtain rfl := List.mem_singleton.mp member
              exact ⟨Nat.le_add_left 1 _, c, accepted, rfl⟩
            · cases member
          · rintro ⟨within, c', accepted, same⟩
            cases k with
            | zero => cases same
            | succ k =>
                rw [List.take_succ_cons, List.cons.injEq] at same
                obtain ⟨rfl, none_⟩ := same
                rw [if_pos accepted, List.mem_singleton]
                have short := congrArg List.length none_
                rw [List.length_take, List.length_nil] at short
                rw [List.length_cons] at within
                omega
  | star =>
      rw [lengths, mem_countdown, Repeat.language, mem_kstar_letters, le_leading_iff]
      exact and_iff_right (Nat.zero_le k)
  | plus =>
      rw [lengths, mem_countdown, Repeat.language, mem_plus_letters, le_leading_iff, List.length_take]
      constructor
      · rintro ⟨some_, within, all⟩
        exact ⟨within, by omega, all⟩
      · rintro ⟨within, some_, all⟩
        exact ⟨by omega, within, all⟩

/-- A sequence matches the lengths of the words of its language. -/
theorem mem_runs_sequence {items : List ((α → Bool) × Repeat)} {text : List α} :
    n ∈ runs (items.map fun item => .elem item.1 item.2) text ↔
      n ≤ text.length ∧ text.take n ∈ sequence items := by
  induction items generalizing text n with
  | nil =>
      rw [List.map_nil, runs, List.mem_singleton, sequence, List.map_nil, List.prod_nil, Language.mem_one]
      constructor
      · rintro rfl
        exact ⟨Nat.zero_le _, rfl⟩
      · rintro ⟨within, none_⟩
        have short := congrArg List.length none_
        rw [List.length_take, List.length_nil] at short
        omega
  | cons item items ih =>
      rw [List.map_cons, runs, mem_follow, sequence, List.map_cons, List.prod_cons, Language.mem_mul]
      constructor
      · rintro ⟨k, first, m, rest, rfl⟩
        obtain ⟨within, front⟩ := mem_lengths_iff.mp first
        obtain ⟨within', back⟩ := ih.mp rest
        rw [List.length_drop] at within'
        exact ⟨by omega, _, front, _, back, (List.take_add).symm⟩
      · rintro ⟨within, front, inFront, back, inBack, both⟩
        have lengths_ := congrArg List.length both
        rw [List.length_append, List.length_take, Nat.min_eq_left within] at lengths_
        have text_ : text = front ++ (back ++ text.drop n) := by
          rw [← List.append_assoc, both, List.take_append_drop]
        have first : text.take front.length = front := by
          rw [text_, List.take_left]
        have second : (text.drop front.length).take back.length = back := by
          rw [text_, List.drop_left, List.take_left]
        refine ⟨front.length, mem_lengths_iff.mpr ⟨by omega, by rwa [first]⟩, back.length, ?_, lengths_⟩
        refine ih.mpr ⟨?_, by rwa [second]⟩
        rw [List.length_drop]
        omega

/-- With the end of the text after it, a sequence matches the whole text only. -/
theorem mem_runs_end {text : List α} :
    n ∈ runs (seq ++ [.end_]) text ↔ n ∈ runs seq text ∧ n = text.length := by
  rw [runs_append, mem_follow]
  constructor
  · rintro ⟨k, first, m, last, rfl⟩
    rw [runs] at last
    split_ifs at last with atEnd
    · obtain rfl := List.mem_singleton.mp last
      have within := mem_runs_le first
      rw [List.isEmpty_iff, List.drop_eq_nil_iff] at atEnd
      exact ⟨first, by omega⟩
    · cases last
  · rintro ⟨first, rfl⟩
    refine ⟨text.length, first, 0, ?_, rfl⟩
    rw [List.drop_length]
    exact List.mem_singleton_self 0
/-! ### Groups -/

/-- A part of a pattern; a group holds a pattern of its own. -/
inductive Node (α : Type) where
  | elem (accepts : α → Bool) (rep : Repeat)
  | end_
  | group (inner : List (Node α))

mutual

/-- The steps of a node, its groups taken apart. -/
def Node.steps : Node α → List (Step α)
  | .elem accepts rep => [.elem accepts rep]
  | .end_ => [.end_]
  | .group inner => steps inner

def steps : List (Node α) → List (Step α)
  | [] => []
  | node :: nodes => node.steps ++ steps nodes

end

mutual

/-- The lengths that a node can match; a group commits to the first one that it finds by itself. -/
def Node.committed : Node α → List α → List Nat
  | .elem accepts rep, text => lengths accepts rep text
  | .end_, text => if text.isEmpty then [0] else []
  | .group inner, text => (committed inner text).head?.toList

def committed : List (Node α) → List α → List Nat
  | [], _ => [0]
  | node :: nodes, text => follow (node.committed text) fun n => committed nodes (text.drop n)

end

theorem runs_elem (accepts : α → Bool) (rep : Repeat) (text : List α) :
    runs [.elem accepts rep] text = lengths accepts rep text := follow_pure _

mutual

theorem Node.mem_runs_of_mem_committed (node : Node α) (text : List α) (n : Nat)
    (h : n ∈ node.committed text) : n ∈ runs node.steps text := by
  cases node with
  | elem accepts rep =>
      rw [Node.steps, runs_elem]
      exact h
  | end_ => exact h
  | group inner =>
      rw [Node.committed, Option.mem_toList] at h
      exact Mimi.Lib.mem_runs_of_mem_committed inner text n (List.mem_of_mem_head? h)
termination_by structural node

/-- What matches with groups that commit matches with the groups taken apart. -/
theorem mem_runs_of_mem_committed (nodes : List (Node α)) (text : List α) (n : Nat)
    (h : n ∈ committed nodes text) : n ∈ runs (steps nodes) text := by
  cases nodes with
  | nil => exact h
  | cons node nodes =>
      rw [committed] at h
      obtain ⟨k, first, m, last, rfl⟩ := mem_follow.mp h
      rw [steps, runs_append]
      exact mem_follow.mpr ⟨k, node.mem_runs_of_mem_committed text k first, m,
        Mimi.Lib.mem_runs_of_mem_committed nodes (text.drop k) m last, rfl⟩
termination_by structural nodes

end

theorem eq_nil_or_singleton {l : List Nat} (short : l.length ≤ 1) : l = [] ∨ ∃ n, l = [n] := by
  cases l with
  | nil => exact .inl rfl
  | cons n rest =>
      have none_ : rest.length = 0 := Nat.le_zero.mp (Nat.le_of_succ_le_succ short)
      rw [List.length_eq_zero_iff.mp none_]
      exact .inr ⟨n, rfl⟩

/-- A step that matches in one way at most. -/
def Step.rigid : Step α → Bool
  | .elem _ .once | .end_ => true
  | .elem _ _ => false

theorem length_follow_le {first : List Nat} {next : Nat → List Nat} (one : first.length ≤ 1)
    (one' : ∀ n, (next n).length ≤ 1) : (follow first next).length ≤ 1 := by
  rcases eq_nil_or_singleton one with rfl | ⟨n, rfl⟩
  · exact Nat.zero_le _
  · rw [follow, List.flatMap_singleton, List.length_map]
    exact one' n

theorem length_runs_le_one (rigid : seq.all Step.rigid = true) (text : List α) : (runs seq text).length ≤ 1 := by
  induction seq generalizing text with
  | nil => exact Nat.le_refl _
  | cons step rest ih =>
      rw [List.all_cons, Bool.and_eq_true] at rigid
      cases step with
      | elem accepts rep =>
          cases rep with
          | once =>
              refine length_follow_le ?_ fun n => ih rigid.2 (text.drop n)
              rw [lengths]
              split_ifs <;> simp
          | star | plus => exact absurd rigid.1 (by simp [Step.rigid])
      | end_ =>
          rw [runs]
          split_ifs
          · exact ih rigid.2 text
          · exact Nat.zero_le _

mutual

/-- Every group matches in one way at most. -/
def Node.rigidGroups : Node α → Bool
  | .elem _ _ | .end_ => true
  | .group inner => rigidGroups inner && (steps inner).all Step.rigid

def rigidGroups : List (Node α) → Bool
  | [] => true
  | node :: nodes => node.rigidGroups && rigidGroups nodes

end

mutual

theorem Node.committed_eq_runs (node : Node α) (text : List α)
    (rigid : node.rigidGroups = true) : node.committed text = runs node.steps text := by
  cases node with
  | elem accepts rep => exact (runs_elem accepts rep text).symm
  | end_ => rfl
  | group inner =>
      rw [Node.rigidGroups, Bool.and_eq_true] at rigid
      rw [Node.committed, Node.steps, Mimi.Lib.committed_eq_runs inner text rigid.1]
      rcases eq_nil_or_singleton (length_runs_le_one rigid.2 text) with none_ | ⟨n, one⟩
      · rw [none_]
        rfl
      · rw [one]
        rfl
termination_by structural node

/-- Where every group matches in one way at most, committing loses nothing. -/
theorem committed_eq_runs (nodes : List (Node α)) (text : List α)
    (rigid : rigidGroups nodes = true) : committed nodes text = runs (steps nodes) text := by
  cases nodes with
  | nil => rfl
  | cons node nodes =>
      rw [rigidGroups, Bool.and_eq_true] at rigid
      rw [committed, steps, runs_append, node.committed_eq_runs text rigid.1]
      congr 1
      funext n
      exact Mimi.Lib.committed_eq_runs nodes (text.drop n) rigid.2
termination_by structural nodes

end

mutual

theorem Node.rigidGroups_of_rigid (node : Node α) (rigid : node.steps.all Step.rigid = true) :
    node.rigidGroups = true := by
  cases node with
  | elem accepts rep => rfl
  | end_ => rfl
  | group inner =>
      rw [Node.rigidGroups, Bool.and_eq_true]
      exact ⟨Mimi.Lib.rigidGroups_of_rigid inner rigid, rigid⟩
termination_by structural node

theorem rigidGroups_of_rigid (nodes : List (Node α))
    (rigid : (steps nodes).all Step.rigid = true) : rigidGroups nodes = true := by
  cases nodes with
  | nil => rfl
  | cons node nodes =>
      rw [steps, List.all_append, Bool.and_eq_true] at rigid
      rw [rigidGroups, Bool.and_eq_true]
      exact ⟨node.rigidGroups_of_rigid rigid.1, Mimi.Lib.rigidGroups_of_rigid nodes rigid.2⟩
termination_by structural nodes

end

/-- A tree that matches in one way at most loses nothing by committing. -/
theorem committed_eq_runs_of_rigid (nodes : List (Node α)) (text : List α)
    (rigid : (steps nodes).all Step.rigid = true) :
    committed nodes text = runs (steps nodes) text :=
  committed_eq_runs nodes text (rigidGroups_of_rigid nodes rigid)

/-! ### Matchers that count their work -/

theorem head?_follow (first : List Nat) (next : Nat → List Nat) :
    (follow first next).head? = first.findSome? fun n => (next n).head?.map (n + ·) := by
  rw [follow, List.head?_flatMap]
  simp only [List.head?_map]

variable {σ β γ : Type} {limited : σ → Prop}

/-- Try candidates in order until one succeeds. -/
def tryEach (attempt : Nat → σ → Option β × σ) : List Nat → σ → Option β × σ
  | [], s => (none, s)
  | n :: rest, s =>
      let result := attempt n s
      if result.1.isSome then result else tryEach attempt rest result.2

/-- A limit that was hit stays hit. -/
def Stays (limited : σ → Prop) (run : σ → β × σ) : Prop := ∀ s, limited s → limited (run s).2

/-- A command that gives the answer unless it hits a limit. -/
structure Answers (limited : σ → Prop) (run : σ → β × σ) (answer : β) : Prop where
  stays : Stays limited run
  gives : ∀ s, ¬limited (run s).2 → (run s).1 = answer

variable {run : σ → β × σ}

theorem Answers.congr {run' : σ → β × σ} {b : β} (answers : Answers limited run' b)
    (same : ∀ s, run s = run' s) : Answers limited run b := by
  rw [funext same]
  exact answers

theorem stays_pure (b : β) : Stays limited (fun s => (b, s)) := fun _ hit => hit

theorem answers_pure (b : β) : Answers limited (fun s => (b, s)) b :=
  ⟨stays_pure b, fun _ _ => rfl⟩

/-- A command that always hits a limit may be asked anything. -/
theorem answers_hit (hits : ∀ s, limited (run s).2) (b : β) :
    Answers limited run b :=
  ⟨fun s _ => hits s, fun s free => absurd (hits s) free⟩

theorem answers_bind {first : σ → β × σ} {g : β → σ → γ × σ} {b : β} {c : γ}
    (answers : Answers limited first b) (stays : ∀ b', Stays limited (g b'))
    (then_ : Answers limited (g b) c) :
    Answers limited (fun s => g (first s).1 (first s).2) c := by
  refine ⟨fun s hit => stays _ _ (answers.stays s hit), fun s free => ?_⟩
  have early : ¬limited (first s).2 := fun hit => free (stays _ _ hit)
  have same := answers.gives s early
  rw [same] at free ⊢
  exact then_.gives _ free

theorem Answers.map {b : β} (answers : Answers limited run b) (g : β → γ) :
    Answers limited (fun s => (g (run s).1, (run s).2)) (g b) :=
  ⟨answers.stays, fun s free => congrArg g (answers.gives s free)⟩

theorem stays_tryEach {attempt : Nat → σ → Option β × σ} (stays : ∀ n, Stays limited (attempt n))
    (l : List Nat) : Stays limited (tryEach attempt l) := by
  induction l with
  | nil => exact stays_pure none
  | cons n l ih =>
      intro s hit
      rw [tryEach]
      split_ifs
      · exact stays n s hit
      · exact ih _ (stays n s hit)

/-- The first candidate that succeeds decides. -/
theorem answers_tryEach {attempt : Nat → σ → Option β × σ} {answer : Nat → Option β}
    (stays : ∀ n, Stays limited (attempt n)) {l : List Nat}
    (answers : ∀ n ∈ l, Answers limited (attempt n) (answer n)) :
    Answers limited (tryEach attempt l) (l.findSome? answer) := by
  refine ⟨stays_tryEach stays l, ?_⟩
  induction l with
  | nil => exact fun _ _ => rfl
  | cons n l ih =>
      intro s free
      have first := (answers n List.mem_cons_self).gives s
      have later := ih fun m member => answers m (List.mem_cons_of_mem _ member)
      rw [tryEach] at free ⊢
      rw [List.findSome?_cons]
      split_ifs at free ⊢ with found
      · rw [← first free]
        obtain ⟨b, same⟩ := Option.isSome_iff_exists.mp found
        rw [same]
      · have early : ¬limited (attempt n s).2 := fun hit => free (stays_tryEach stays l _ hit)
        rw [← first early, Option.not_isSome_iff_eq_none.mp found]
        exact later _ free

end Mimi.Lib
