/-
Module: Mimi.Proofs.LexerMoves
Purpose: How the lexer moves over blanks, comments and the head of a line: the texts that it passes, and what one
  transition of its machine can do.
Trusted boundary: none
-/
import Mimi.Lexer.Flow
import Mimi.Proofs.TokenTexts

namespace Mimi.Lexer

open Mimi.Lib Scanner LexerPos

/-! ### Block comments -/

/-- Whether a character and the one behind it open or close a comment. -/
def delimits (c : Char) (text : List Char) : Prop :=
  (c = '*' ∧ text.head? = some '/') ∨ (c = '/' ∧ text.head? = some '*')

/-- The rest of a comment of which some levels are open, with what closes it. -/
inductive CommentBody : Nat → List Char → Prop where
  | closed : CommentBody 1 ['*', '/']
  | close {depth : Nat} {text : List Char} (more : 0 < depth) (rest : CommentBody depth text) :
      CommentBody (depth + 1) ('*' :: '/' :: text)
  | opened {depth : Nat} {text : List Char} (few : depth < MAX_BLOCK_COMMENT_DEPTH)
      (rest : CommentBody (depth + 1) text) : CommentBody depth ('/' :: '*' :: text)
  | inside {depth : Nat} {c : Char} {text : List Char} (plain : ¬ delimits c text) (rest : CommentBody depth text) :
      CommentBody depth (c :: text)

theorem CommentBody.pos {depth : Nat} {text : List Char} (body : CommentBody depth text) : text ≠ [] := by
  cases body <;> exact List.cons_ne_nil _ _

/-- The loop over the characters of a comment. -/
def comment_loop (depth : Nat) : Scan Unit :=
  loop (fun _ _ _ => true) block_comment_round (fun _ => fail fun pos => .unterminatedBlockComment pos.line pos.col)
    depth

theorem moves_comment_round (depth : Nat) (c : Char) (at_ : LexerPos) : Moves (block_comment_round depth c at_) := by
  have accepts : ∀ keep : Char → Bool, Reads (fun _ => False) (fun _ _ => True)
      (accept keep : Scan (Option Char)) (accept keep) :=
    fun keep => Reads.accept_ _ (fun _ => False.elim) trivial fun _ _ => trivial
  have ends : ∀ b : Nat ⊕ Unit, Reads (fun _ => False) (fun _ _ => True) (pure b : Scan (Nat ⊕ Unit)) (pure b) :=
    fun b => Reads.pure_ trivial
  suffices reads : Reads (fun _ => False) (fun _ _ => True) (block_comment_round depth c at_)
      (block_comment_round depth c at_) from reads.moves
  rw [block_comment_round.eq_def]
  split
  · refine Reads.bind (accepts _) fun _ second _ => ?_
    cases second with
    | none => exact ends _
    | some _ =>
        dsimp only
        split
        · exact ends _
        · exact ends _
  · refine Reads.bind (accepts _) fun _ second _ => ?_
    cases second with
    | none => exact ends _
    | some _ =>
        dsimp only
        split
        · exact Reads.fail_ _ _
        · exact ends _
  · exact ends _

/-- What a round does at a pair of characters. -/
theorem comment_round_close (depth : Nat) {text : List Char} {pos : LexerPos} (at_ : LexerPos) (here : pos.chars = '/' :: text) :
    block_comment_round depth '*' at_ pos =
      .ok (if depth = 1 then .inr () else .inl (depth - 1), pos.next) := by
  show ((accept fun c => decide (c = '/') : Scan (Option Char)) pos >>= _) = _
  rw [accept_yes here (by decide)]
  show (if depth = 1 then _ else _ : Scan (Nat ⊕ Unit)) pos.next = _
  split <;> rfl

theorem comment_round_open (depth : Nat) {text : List Char} {pos : LexerPos} (at_ : LexerPos) (here : pos.chars = '*' :: text) :
    block_comment_round depth '/' at_ pos =
      if MAX_BLOCK_COMMENT_DEPTH ≤ depth then .error (.unterminatedBlockComment pos.next.line pos.next.col)
      else .ok (.inl (depth + 1), pos.next) := by
  show ((accept fun c => decide (c = '*') : Scan (Option Char)) pos >>= _) = _
  rw [accept_yes here (by decide)]
  show (if MAX_BLOCK_COMMENT_DEPTH ≤ depth then _ else _ : Scan (Nat ⊕ Unit)) pos.next = _
  split <;> rfl

theorem comment_round_plain (depth : Nat) {c : Char} {pos : LexerPos} (at_ : LexerPos) (plain : ¬ delimits c pos.chars) :
    block_comment_round depth c at_ pos = .ok (.inl depth, pos) := by
  obtain ⟨no_close, no_open⟩ := not_or.mp plain
  have other : ∀ d : Char, pos.chars.head? ≠ some d → pos.chars.head?.any (fun c => decide (c = d)) = false := by
    intro d differs
    cases first : pos.chars.head? with
    | none => rfl
    | some e => exact decide_eq_false fun same => differs (same ▸ first)
  rw [block_comment_round.eq_def]
  split
  · show ((accept fun c => decide (c = '/') : Scan (Option Char)) pos >>= _) = _
    rw [accept_no (other '/' fun same => no_close ⟨rfl, same⟩)]
    rfl
  · show ((accept fun c => decide (c = '*') : Scan (Option Char)) pos >>= _) = _
    rw [accept_no (other '*' fun same => no_open ⟨rfl, same⟩)]
    rfl
  · rfl

/-- A comment is read wherever its text stands. -/
theorem comment_again {depth : Nat} {text : List Char} (body : CommentBody depth text) (pos : LexerPos)
    (after : List Char) (here : pos.chars = text ++ after) :
    comment_loop depth pos = .ok ((), LexerPos.next^[text.length] pos) := by
  have tail : ∀ {q : LexerPos} {c : Char} {rest : List Char}, q.chars = c :: rest → q.next.chars = rest := by
    intro q c rest same
    rw [next_chars, same]
    rfl
  induction body generalizing pos with
  | closed =>
      refine loop_ends here rfl ?_
      exact comment_round_close 1 pos (tail here)
  | @close depth text more rest ih =>
      have step : block_comment_round (depth + 1) '*' pos pos.next = .ok (.inl depth, pos.next.next) := by
        rw [comment_round_close (depth + 1) pos (tail here), if_neg (by omega)]
        rfl
      rw [comment_loop, loop_goes_on (fun s c at_ => moves_comment_round s c at_) here rfl step]
      exact ih pos.next.next (tail (tail here))
  | @opened depth text few rest ih =>
      have step : block_comment_round depth '/' pos pos.next = .ok (.inl (depth + 1), pos.next.next) := by
        rw [comment_round_open depth pos (tail here), if_neg (by omega)]
      rw [comment_loop, loop_goes_on (fun s c at_ => moves_comment_round s c at_) here rfl step]
      exact ih pos.next.next (tail (tail here))
  | @inside depth c text plain rest ih =>
      have step : block_comment_round depth c pos pos.next = .ok (.inl depth, pos.next) := by
        refine comment_round_plain depth pos ?_
        rw [tail here]
        cases text with
        | nil => exact absurd rfl rest.pos
        | cons d text => exact plain
      rw [comment_loop, loop_goes_on (fun s c at_ => moves_comment_round s c at_) here rfl step]
      exact ih pos.next (tail here)

/-- What is read is the text of a comment. -/
theorem comment_reads {depth : Nat} {pos pos' : LexerPos} (more : 0 < depth)
    (read : comment_loop depth pos = .ok ((), pos')) : ∃ text, Ahead pos text pos' ∧ CommentBody depth text := by
  obtain ⟨n, short⟩ : ∃ n, pos.chars.length ≤ n := ⟨_, le_rfl⟩
  induction n using Nat.strong_induction_on generalizing depth pos with
  | _ n ih =>
      cases here : pos.chars with
      | nil =>
          rw [comment_loop, loop_nil here] at read
          cases read
      | cons c text =>
          have tail : pos.next.chars = text := by
            rw [next_chars, here]
            rfl
          rw [here, List.length_cons] at short
          by_cases close : c = '*' ∧ text.head? = some '/'
          · obtain ⟨rfl, second⟩ := close
            obtain ⟨text, rfl⟩ := List.head?_eq_some_iff.mp second
            have moved : Ahead pos ['*', '/'] pos.next.next := (Ahead.next here).trans (Ahead.next tail)
            have step := comment_round_close depth pos tail
            by_cases last : depth = 1
            · subst last
              rw [comment_loop, loop_ends here rfl step] at read
              obtain ⟨-, rfl⟩ := Prod.mk.inj (Except.ok.inj read)
              exact ⟨_, moved, .closed⟩
            · rw [if_neg last] at step
              rw [comment_loop, loop_goes_on (fun s c at_ => moves_comment_round s c at_) here rfl step] at read
              have shorter : pos.next.next.chars.length ≤ text.length := by rw [next_chars, tail]; rfl
              rw [List.length_cons] at short
              obtain ⟨text', ahead, body⟩ := ih text.length (by omega) (by omega) read shorter
              refine ⟨'*' :: '/' :: text', moved.trans ahead, ?_⟩
              obtain ⟨depth, rfl⟩ : ∃ d, depth = d + 1 := ⟨depth - 1, by omega⟩
              exact .close (by omega) body
          · by_cases open_ : c = '/' ∧ text.head? = some '*'
            · obtain ⟨rfl, second⟩ := open_
              obtain ⟨text, rfl⟩ := List.head?_eq_some_iff.mp second
              have moved : Ahead pos ['/', '*'] pos.next.next := (Ahead.next here).trans (Ahead.next tail)
              have step := comment_round_open depth pos tail
              by_cases deep : MAX_BLOCK_COMMENT_DEPTH ≤ depth
              · rw [if_pos deep] at step
                rw [comment_loop, loop_fails here rfl step] at read
                cases read
              · rw [if_neg deep] at step
                rw [comment_loop, loop_goes_on (fun s c at_ => moves_comment_round s c at_) here rfl step] at read
                have shorter : pos.next.next.chars.length ≤ text.length := by rw [next_chars, tail]; rfl
                rw [List.length_cons] at short
                obtain ⟨text', ahead, body⟩ := ih text.length (by omega) (by omega) read shorter
                exact ⟨'/' :: '*' :: text', moved.trans ahead, .opened (by omega) body⟩
            · have plain : ¬ delimits c text := not_or.mpr ⟨close, open_⟩
              have step : block_comment_round depth c pos pos.next = .ok (.inl depth, pos.next) :=
                comment_round_plain depth pos (by rwa [tail])
              rw [comment_loop, loop_goes_on (fun s c at_ => moves_comment_round s c at_) here rfl step] at read
              obtain ⟨text', ahead, body⟩ := ih text.length (by omega) more read (by rw [tail])
              refine ⟨c :: text', (Ahead.next here).trans ahead, .inside ?_ body⟩
              have whole : text = text' ++ pos'.chars := tail.symm.trans ahead.1
              cases text' with
              | nil => exact absurd rfl body.pos
              | cons d text' =>
                  rw [whole] at plain
                  exact plain

/-- A block comment. -/
def BlockComment (text : List Char) : Prop := ∃ body, text = '/' :: '*' :: body ∧ CommentBody 1 body

theorem skip_block_comment_reads {pos pos' : LexerPos} (peeked : pos.peek = some '/') (behind : pos.peekAfter = some '*')
    (read : pos.skip_block_comment = .ok pos') : ∃ text, Ahead pos text pos' ∧ BlockComment text := by
  obtain ⟨text, here⟩ := List.head?_eq_some_iff.mp peeked
  rw [peekAfter, here] at behind
  obtain ⟨text, rfl⟩ := List.head?_eq_some_iff.mp behind
  have tail : pos.next.chars = '*' :: text := by
    rw [next_chars, here]
    rfl
  have moved : Ahead pos ['/', '*'] pos.next.next := (Ahead.next here).trans (Ahead.next tail)
  rw [skip_block_comment] at read
  cases body : skip_block_comment_body pos.next.next with
  | error e =>
      rw [body] at read
      cases read
  | ok result =>
      rw [body] at read
      obtain rfl := Except.ok.inj read
      obtain ⟨text', ahead, shape⟩ := comment_reads Nat.one_pos body
      exact ⟨_, moved.trans ahead, text', rfl, shape⟩

theorem skip_block_comment_again {text after : List Char} (comment : BlockComment text) {pos : LexerPos}
    (here : pos.chars = text ++ after) :
    pos.skip_block_comment = .ok (LexerPos.next^[text.length] pos) := by
  obtain ⟨body, rfl, shape⟩ := comment
  have moved : pos.next.next.chars = body ++ after := by
    rw [next_chars, next_chars, here]
    rfl
  have read : skip_block_comment_body pos.next.next = .ok ((), LexerPos.next^[body.length] pos.next.next) :=
    comment_again shape pos.next.next after moved
  rw [skip_block_comment, read]
  rfl

end Mimi.Lexer
