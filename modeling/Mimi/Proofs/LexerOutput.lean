/-
Module: Mimi.Proofs.LexerOutput
Purpose: The lexer ends on every text, and what it ends with is well formed: one token of the end, tokens in the
  order of the text that do not overlap, and in the sketch mode indentations that are closed in turn.
Trusted boundary: none
-/
import Mimi.Proofs.LexerReading

namespace Mimi.Lexer

open Mimi.Lib Scanner LexerPos

/-! ### Places -/

/-- A place in a text: the line, and the column in it. -/
abbrev Spot := ℕ ×ₗ ℕ

def LexerPos.spot (pos : LexerPos) : Spot := toLex (pos.line, pos.col)

def Token.start (t : Token) : Spot := toLex (t.line, t.col)

def Token.stop (t : Token) : Spot := toLex (t.end_line, t.end_col)

theorem spot_next_le (pos : LexerPos) : pos.spot ≤ pos.next.spot := by
  obtain ⟨chars, line, col⟩ := pos
  cases chars with
  | nil => exact le_rfl
  | cons c rest =>
      rw [LexerPos.next, advance]
      dsimp only
      split
      · exact Prod.Lex.toLex_le_toLex.mpr (.inl (Nat.lt_succ_self line))
      · exact Prod.Lex.toLex_le_toLex.mpr (.inr ⟨rfl, Nat.le_succ col⟩)

variable {pos' : LexerPos}

theorem spot_le {pos : LexerPos} {text : List Char} (ahead : Ahead pos text pos') : pos.spot ≤ pos'.spot := by
  have moved : ∀ n : Nat, pos.spot ≤ (LexerPos.next^[n] pos).spot := by
    intro n
    induction n with
    | zero => exact le_rfl
    | succ n ih =>
        rw [Function.iterate_succ_apply']
        exact ih.trans (spot_next_le _)
  rw [ahead.2]
  exact moved _

/-- The tokens of indentation, which no characters stand for. -/
def layout (kind : TokenKind) : Bool := kind = .indent || kind = .dedent

/-- Tokens in front of a place, in their order. -/
structure Placed (tokens : List Token) (spot : Spot) : Prop where
  ordered : tokens.Pairwise fun a b => a.start ≤ b.start
  apart : (tokens.filter fun t => !layout t.kind).Pairwise fun a b => a.stop ≤ b.start
  started : ∀ t ∈ tokens, t.start ≤ spot
  stopped : ∀ t ∈ tokens, layout t.kind = false → t.stop ≤ spot
  no_eof : ∀ t ∈ tokens, t.kind ≠ .eof

namespace Placed

variable {tokens : List Token} {spot spot' : Spot} {t : Token}

theorem nil (spot : Spot) : Placed [] spot :=
  ⟨.nil, .nil, fun _ member => (List.not_mem_nil member).elim, fun _ member => (List.not_mem_nil member).elim,
    fun _ member => (List.not_mem_nil member).elim⟩

theorem mono (placed : Placed tokens spot) (later : spot ≤ spot') : Placed tokens spot' where
  ordered := placed.ordered
  apart := placed.apart
  started := fun t member => (placed.started t member).trans later
  stopped := fun t member visible => (placed.stopped t member visible).trans later
  no_eof := placed.no_eof

theorem ordered_push (placed : Placed tokens spot) (behind : ∀ u ∈ tokens, u.start ≤ t.start) :
    (tokens ++ [t]).Pairwise fun a b => a.start ≤ b.start := by
  refine List.pairwise_append.mpr ⟨placed.ordered, List.pairwise_singleton _ _, fun a member b single => ?_⟩
  rw [List.mem_singleton.mp single]
  exact behind a member

theorem apart_push (placed : Placed tokens spot) (behind : layout t.kind = false → spot ≤ t.start) :
    ((tokens ++ [t]).filter fun t => !layout t.kind).Pairwise fun a b => a.stop ≤ b.start := by
  rw [List.filter_append]
  refine List.pairwise_append.mpr ⟨placed.apart, List.Pairwise.filter _ (List.pairwise_singleton _ _), ?_⟩
  intro a member b single
  obtain ⟨single, visible⟩ := List.mem_filter.mp single
  obtain rfl := List.mem_singleton.mp single
  obtain ⟨member, visible'⟩ := List.mem_filter.mp member
  exact (placed.stopped a member (Bool.not_eq_true' _ ▸ visible')).trans (behind (Bool.not_eq_true' _ ▸ visible))

/-- One more token, behind the place. -/
theorem push (placed : Placed tokens spot) (behind : spot ≤ t.start) (forward : t.start ≤ t.stop)
    (inside : t.stop ≤ spot') (other : t.kind ≠ .eof) : Placed (tokens ++ [t]) spot' where
  ordered := placed.ordered_push fun u member => (placed.started u member).trans behind
  apart := placed.apart_push fun _ => behind
  started := List.forall_mem_append.mpr
    ⟨fun u member => (placed.started u member).trans ((behind.trans forward).trans inside),
      List.forall_mem_singleton.mpr (forward.trans inside)⟩
  stopped := List.forall_mem_append.mpr
    ⟨fun u member visible => (placed.stopped u member visible).trans ((behind.trans forward).trans inside),
      List.forall_mem_singleton.mpr fun _ => inside⟩
  no_eof := List.forall_mem_append.mpr ⟨placed.no_eof, List.forall_mem_singleton.mpr other⟩

/-- A token of indentation, behind the starts of the others. -/
theorem push_layout (placed : Placed tokens spot) (behind : ∀ u ∈ tokens, u.start ≤ t.start)
    (inside : t.start ≤ spot) (hidden : layout t.kind = true) : Placed (tokens ++ [t]) spot where
  ordered := placed.ordered_push behind
  apart := placed.apart_push fun visible => absurd (hidden.symm.trans visible) (by decide)
  started := List.forall_mem_append.mpr ⟨placed.started, List.forall_mem_singleton.mpr inside⟩
  stopped := List.forall_mem_append.mpr ⟨placed.stopped,
    List.forall_mem_singleton.mpr fun visible => absurd (hidden.symm.trans visible) (by decide)⟩
  no_eof := List.forall_mem_append.mpr ⟨placed.no_eof, List.forall_mem_singleton.mpr (by
    rintro same
    rw [same] at hidden
    exact absurd hidden (by decide))⟩

end Placed

/-! ### Indentations -/

/-- The indentations that are open behind some tokens, the innermost first.  An indentation is deeper than the one
around it, and a multiple of four; a `Dedent` closes the innermost one, and never the first. -/
inductive Nested : List Token → List Nat → Prop where
  | nil : Nested [] [0]
  | other {tokens : List Token} {stack : List Nat} {t : Token} (rest : Nested tokens stack)
      (visible : layout t.kind = false) : Nested (tokens ++ [t]) stack
  | indent {tokens : List Token} {stack : List Nat} {t : Token} (rest : Nested tokens stack)
      (kind : t.kind = .indent) (wider : ∀ w ∈ stack, w < t.col) (four : t.col % 4 = 0) :
      Nested (tokens ++ [t]) (t.col :: stack)
  | dedent {tokens : List Token} {stack : List Nat} {w : Nat} {t : Token} (rest : Nested tokens (w :: stack))
      (kind : t.kind = .dedent) (some_ : stack ≠ []) : Nested (tokens ++ [t]) stack

/-- Indentations from zero on, each deeper than the one around it, in multiples of four. -/
structure Levels (stack : List Nat) : Prop where
  increasing : stack.Pairwise (· > ·)
  four : ∀ w ∈ stack, w % 4 = 0
  root : stack.getLast? = some 0

variable {stack : List Nat}

theorem Nested.levels {tokens : List Token} (nested : Nested tokens stack) : Levels stack := by
  induction nested with
  | nil => exact ⟨List.pairwise_singleton _ _, by simp, rfl⟩
  | other rest visible ih => exact ih
  | indent rest kind wider four ih =>
      refine ⟨List.pairwise_cons.mpr ⟨wider, ih.increasing⟩, List.forall_mem_cons.mpr ⟨four, ih.four⟩, ?_⟩
      rw [List.getLast?_cons, ih.root]
      rfl
  | @dedent tokens stack w t rest kind some_ ih =>
      refine ⟨(List.pairwise_cons.mp ih.increasing).2, (List.forall_mem_cons.mp ih.four).2, ?_⟩
      cases stack with
      | nil => exact absurd rfl some_
      | cons v stack => exact ih.root

/-- The integers among some tokens are spelled as literals are. -/
def Spelled (tokens : List Token) : Prop := ∀ t ∈ tokens, ∀ s, t.kind = .int s → IntLiteral s.toList

theorem Spelled.push {tokens : List Token} {t : Token} (spelled : Spelled tokens)
    (literal : ∀ s, t.kind = .int s → IntLiteral s.toList) : Spelled (tokens ++ [t]) :=
  List.forall_mem_append.mpr ⟨spelled, List.forall_mem_singleton.mpr literal⟩

/-- What a state has found: tokens in front of its place, and the indentations that they open. -/
structure Inv (acc : LexerAcc) (spot : Spot) : Prop where
  placed : Placed acc.tokens spot
  nested : Nested acc.tokens acc.indent_stack
  spelled : Spelled acc.tokens

theorem Inv.mono {acc : LexerAcc} {spot spot' : Spot} (inv : Inv acc spot) (later : spot ≤ spot') : Inv acc spot' :=
  ⟨inv.placed.mono later, inv.nested, inv.spelled⟩

/-- At the end every indentation is closed. -/
theorem close_indents_inv {pos : LexerPos} {tokens : List Token} (inv : Inv ⟨tokens, stack⟩ pos.spot) :
    Inv (close_indents pos stack tokens) pos.spot ∧ (close_indents pos stack tokens).indent_stack = [0] := by
  induction stack generalizing tokens with
  | nil =>
      have root := inv.nested.levels.root
      cases root
  | cons w below ih =>
      cases below with
      | nil =>
          rw [close_indents.eq_def]
          obtain rfl := Option.some.inj inv.nested.levels.root
          exact ⟨inv, rfl⟩
      | cons v below =>
          rw [close_indents]
          have placed : Placed (tokens ++ [Token.between .dedent pos pos]) pos.spot :=
            inv.placed.push le_rfl le_rfl le_rfl nofun
          exact ih ⟨placed, inv.nested.dedent rfl (List.cons_ne_nil _ _), inv.spelled.push nofun⟩

/-- The starts of tokens are not behind the indentation of a line. -/
def Behind (tokens : List Token) (pos : LexerPos) (spaces : Nat) : Prop :=
  ∀ t ∈ tokens, t.start ≤ toLex (pos.line, spaces)

variable {spaces : Nat}

theorem Behind.push {tokens : List Token} {pos : LexerPos} (behind : Behind tokens pos spaces)
    (kind : TokenKind) : Behind (tokens ++ [Token.layout kind pos spaces]) pos spaces :=
  List.forall_mem_append.mpr ⟨behind, List.forall_mem_singleton.mpr le_rfl⟩

theorem dedent_to_inv {pos : LexerPos} {tokens : List Token}
    (inv : Inv ⟨tokens, stack⟩ pos.spot) (behind : Behind tokens pos spaces)
    (inside : toLex (pos.line, spaces) ≤ pos.spot) : Inv (dedent_to pos spaces stack tokens) pos.spot := by
  induction stack generalizing tokens with
  | nil => exact inv
  | cons top below ih =>
      rw [dedent_to]
      split
      · rename_i deeper
        split
        · rename_i last
          subst last
          obtain rfl := Option.some.inj inv.nested.levels.root
          exact absurd deeper (Nat.not_lt_zero spaces)
        · rename_i some_
          refine ih ⟨?_, ?_, inv.spelled.push nofun⟩ (behind.push .dedent)
          · exact inv.placed.push_layout behind inside rfl
          · exact inv.nested.dedent rfl some_
      · exact inv

theorem indentation_inv {pos : LexerPos} {acc acc' : LexerAcc} (inv : Inv acc pos.spot)
    (behind : Behind acc.tokens pos spaces) (inside : toLex (pos.line, spaces) ≤ pos.spot)
    (moved : indentation pos spaces acc = .ok acc') : Inv acc' pos.spot := by
  rw [indentation] at moved
  split at moved
  · cases moved
  · rename_i four
    dsimp only at moved
    split at moved
    · rename_i deeper
      obtain rfl := Except.ok.inj moved
      refine ⟨inv.placed.push_layout behind inside rfl, inv.nested.indent rfl ?_ (not_not.mp four),
        inv.spelled.push nofun⟩
      obtain ⟨tokens, stack⟩ := acc
      cases stack with
      | nil => exact fun w member => (List.not_mem_nil member).elim
      | cons top below =>
          have levels : Levels (top :: below) := inv.nested.levels
          refine List.forall_mem_cons.mpr ⟨deeper, fun w member => ?_⟩
          exact ((List.pairwise_cons.mp levels.increasing).1 w member).trans deeper
    · split at moved
      · split at moved
        · cases moved
        · obtain rfl := Except.ok.inj moved
          exact dedent_to_inv inv behind inside
      · obtain rfl := Except.ok.inj moved
        exact inv

/-! ### Steps -/

/-- What the lexer ends with: one token of the end, starts that never decrease, and tokens that do not overlap. -/
structure WellFormed (tokens : List Token) : Prop where
  ends : ∃ front last, tokens = front ++ [last] ∧ last.kind = .eof ∧ ∀ t ∈ front, t.kind ≠ .eof
  ordered : tokens.Pairwise fun a b => a.start ≤ b.start
  apart : (tokens.filter fun t => !layout t.kind).Pairwise fun a b => a.stop ≤ b.start

/-- At the start of a line, the tokens are on other lines; behind a comment, nothing else is on the line. -/
def Fresh (tokens : List Token) (pos : LexerPos) : Prop :=
  (∀ t ∈ tokens, t.line < pos.line) ∨ pos.peek = some '\n' ∨ pos.peek = none

/-- What holds of every state of the machine. -/
def Sound (mode : LexerMode) : LexerState → Prop
  | .start _ m acc => m = mode ∧ acc = .new
  | .lineStart pos m true acc => m = mode ∧ Inv acc pos.spot ∧ Fresh acc.tokens pos
  | .lineStart pos m false acc | .dispatch pos m acc => m = mode ∧ Inv acc pos.spot
  | .done acc =>
      (WellFormed acc.tokens ∧ Spelled acc.tokens) ∧ Nested acc.tokens acc.indent_stack ∧
        (mode = .sketch → acc.indent_stack = [0])

theorem advance_to_done_sound {pos : LexerPos} {acc : LexerAcc} (mode : LexerMode) (inv : Inv acc pos.spot) :
    Sound mode (.done (advance_to_done pos mode acc)) := by
  have finish : ∀ acc : LexerAcc, Inv acc pos.spot → (mode = .sketch → acc.indent_stack = [0]) →
      Sound mode (.done ⟨acc.tokens ++ [Token.between .eof pos pos], acc.indent_stack⟩) := by
    intro acc inv closed
    refine ⟨⟨⟨⟨acc.tokens, _, rfl, rfl, inv.placed.no_eof⟩, ?_, ?_⟩, inv.spelled.push nofun⟩,
      inv.nested.other rfl, closed⟩
    · exact inv.placed.ordered_push inv.placed.started
    · exact inv.placed.apart_push fun _ => le_rfl
  rw [advance_to_done]
  split
  · obtain ⟨inv', closed⟩ := close_indents_inv inv
    exact finish _ inv' fun _ => closed
  · rename_i production
    exact finish acc inv fun sketch => absurd sketch production

/-- A token of a text. -/
theorem Inv.token {acc : LexerAcc} {pos : LexerPos} {kind : TokenKind} (inv : Inv acc pos.spot)
    (later : pos.spot ≤ pos'.spot) (visible : layout kind = false) (other : kind ≠ .eof)
    (literal : ∀ s, kind = .int s → IntLiteral s.toList) :
    Inv ⟨acc.tokens ++ [Token.between kind pos pos'], acc.indent_stack⟩ pos'.spot :=
  ⟨inv.placed.push le_rfl later le_rfl other, inv.nested.other visible, inv.spelled.push literal⟩

theorem line_head_feed {pos : LexerPos} (feed : pos.peek = some '\n') : line_head pos = .ok (.blank pos.next) := by
  obtain ⟨rest, here⟩ := List.head?_eq_some_iff.mp feed
  have none_ : span (fun c => decide (c = ' ')) pos = ([], pos) := by
    rw [span]
    show (pos.chars.takeWhile _, next^[(pos.chars.takeWhile _).length] pos) = _
    rw [here]
    rfl
  rw [line_head, none_]
  dsimp only
  rw [skip_return_other (by rw [feed]; decide), if_neg (by rw [feed]; decide), if_neg (by rw [feed]; decide),
    if_neg (by rw [feed]; exact fun slash => absurd slash.1 (by decide)),
    if_neg (by rw [feed]; exact fun slash => absurd slash.1 (by decide)), if_pos (.inl feed), skip_line_end,
    skip_return_other (by rw [feed]; decide)]
  exact congrArg (fun pos => Except.ok (LineHead.blank pos)) (if_pos feed)

/-- On the line of an indentation. -/
theorem row_spot {pos : LexerPos} {text : List Char} (ahead : Ahead pos text pos') (row : '\n' ∉ text)
    (narrow : spaces ≤ text.length) :
    pos'.line = pos.line ∧ toLex (pos'.line, spaces) ≤ pos'.spot := by
  obtain ⟨chars, line, col⟩ := pos
  have whole : chars = text ++ pos'.chars := ahead.1
  have moved := iterate_next_row row pos'.chars line col
  rw [← whole] at moved
  have same : pos' = ⟨pos'.chars, line, col + text.length⟩ := ahead.2.trans moved
  rw [same]
  exact ⟨rfl, Prod.Lex.toLex_le_toLex.mpr (.inr ⟨rfl, narrow.trans (Nat.le_add_left _ _)⟩)⟩

/-- How much is left to do. -/
def weight : LexerState → Nat
  | .start pos _ _ => 2 * pos.chars.length + 2
  | .lineStart pos _ _ _ => 2 * pos.chars.length + 1
  | .dispatch pos _ _ => 2 * pos.chars.length
  | .done _ => 0

variable {mode : LexerMode} {n : Nat} {state : LexerState}

theorem line_start_sound (alphabet : Alphabet) {acc : LexerAcc} {pos : LexerPos}
    (inv : Inv acc pos.spot) (fresh : Fresh acc.tokens pos) (moved : line_start_loop mode acc n pos = .ok state) :
    Sound mode state ∧ weight state < 2 * pos.chars.length + 1 := by
  have length_le : ∀ {pos' : LexerPos} {text : List Char}, Ahead pos text pos' →
      2 * pos'.chars.length < 2 * pos.chars.length + 1 := by
    intro pos' text ahead
    have short : pos'.chars.length ≤ pos.chars.length := ahead.length_le
    omega
  induction n generalizing pos with
  | zero =>
      obtain rfl := Except.ok.inj moved
      exact ⟨advance_to_done_sound mode inv, Nat.succ_pos _⟩
  | succ n ih =>
      have leads := line_head_leads alphabet pos
      have feed_ := @line_head_feed pos
      rw [line_start_loop] at moved
      generalize line_head pos = head at *
      cases leads with
      | error => cases moved
      | ended leads silent nothing =>
          obtain rfl := Except.ok.inj moved
          exact ⟨advance_to_done_sound mode (inv.mono (spot_le leads.ahead)), Nat.succ_pos _⟩
      | @blank pos' pieces phase leads silent line some_ =>
          have short : pos'.chars.length ≤ pos.chars.length := leads.ahead.length_le
          have fresh' : Fresh acc.tokens pos' := by
            rcases fresh with lines | feed | nothing
            · exact .inl fun t member => (lines t member).trans_le (line_le leads.ahead)
            · obtain rfl := LineHead.blank.inj (Except.ok.inj (feed_ feed))
              refine .inl fun t member => ?_
              rw [next_line feed]
              refine Nat.lt_succ_of_le ?_
              rcases Prod.Lex.toLex_le_toLex.mp (inv.placed.started t member) with before | ⟨same, -⟩
              · exact before.le
              · exact same.le
            · have whole := leads.steps.text_eq
              rw [List.head?_eq_none_iff.mp nothing] at whole
              exact absurd (List.append_eq_nil_iff.mp whole.symm).1 (leads.steps.texts_ne some_)
          obtain ⟨sound, lighter⟩ := ih (inv.mono (spot_le leads.ahead)) fresh' moved fun ahead => by
            have short' := Ahead.length_le ahead
            have short'' : _ ≤ pos'.chars.length := short'
            exact Nat.lt_succ_of_le (Nat.mul_le_mul_left 2 short'')
          exact ⟨sound, by omega⟩
      | trailing leads silent same more =>
          obtain rfl := Except.ok.inj moved
          exact ⟨⟨rfl, inv.mono (spot_le leads.ahead)⟩, length_le leads.ahead⟩
      | @content pos' spaces pieces phase leads silent same more row narrow =>
          have later := inv.mono (spot_le leads.ahead)
          obtain ⟨line, inside⟩ := row_spot leads.ahead row narrow
          have behind : Behind acc.tokens pos' spaces := by
            rcases fresh with lines | feed | nothing
            · intro t member
              exact Prod.Lex.toLex_le_toLex.mpr (.inl (line ▸ lines t member))
            · cases Except.ok.inj (feed_ feed)
            · have whole := leads.steps.text_eq
              rw [List.head?_eq_none_iff.mp nothing] at whole
              exact absurd (List.append_eq_nil_iff.mp whole.symm).2 more
          have moved : (if mode = .sketch then
              indentation pos' spaces acc >>= fun acc => .ok (LexerState.dispatch pos' mode acc)
            else .ok (LexerState.dispatch pos' mode acc)) = .ok state := moved
          split at moved
          · cases indented_ : indentation pos' spaces acc with
            | error e =>
                rw [indented_] at moved
                cases moved
            | ok acc' =>
                rw [indented_] at moved
                obtain rfl := Except.ok.inj moved
                exact ⟨⟨rfl, indentation_inv later behind inside indented_⟩, length_le leads.ahead⟩
          · obtain rfl := Except.ok.inj moved
            exact ⟨⟨rfl, later⟩, length_le leads.ahead⟩

variable {alphabet : Alphabet}

/-- Every step keeps what holds of the states, and leaves less to do. -/
theorem transition_sound {state' : LexerState} (sound : Sound mode state)
    (moved : state.transition alphabet = .ok state') :
    Sound mode state' ∧ (weight state' < weight state ∨ ∃ acc, state' = .done acc) := by
  cases state with
  | done acc =>
      obtain rfl := Except.ok.inj moved
      exact ⟨sound, .inr ⟨acc, rfl⟩⟩
  | start pos m acc =>
      obtain ⟨rfl, rfl⟩ := sound
      obtain rfl := Except.ok.inj moved
      have ahead : ∃ text, Ahead pos text (LexerState.skip_head pos) := by
        have mark : ∃ text, Ahead pos text (if pos.peek = some '\uFEFF' then pos.next else pos) := by
          split
          · rename_i first
            obtain ⟨rest, here⟩ := List.head?_eq_some_iff.mp first
            exact ⟨_, Ahead.next here⟩
          · exact ⟨_, Ahead.refl pos⟩
        obtain ⟨text, ahead⟩ := mark
        rw [LexerState.skip_head]
        generalize (if pos.peek = some '\uFEFF' then pos.next else pos) = pos₁ at *
        split
        · exact ⟨_, ahead.trans (ahead_span _ _)⟩
        · exact ⟨_, ahead⟩
      obtain ⟨text, ahead⟩ := ahead
      have short : (LexerState.skip_head pos).chars.length ≤ pos.chars.length := ahead.length_le
      refine ⟨⟨rfl, ⟨Placed.nil _, .nil, fun t member => (List.not_mem_nil member).elim⟩, .inl fun t member => (List.not_mem_nil member).elim⟩, .inl ?_⟩
      rw [weight, weight]
      omega
  | lineStart pos m at_line_start acc =>
      cases at_line_start with
      | true =>
          obtain ⟨rfl, inv, fresh⟩ := sound
          obtain ⟨sound', lighter⟩ := line_start_sound alphabet inv fresh moved
          exact ⟨sound', .inl lighter⟩
      | false =>
          obtain rfl := Except.ok.inj moved
          exact ⟨sound, .inl (Nat.lt_succ_self _)⟩
  | dispatch pos m acc =>
      obtain ⟨rfl, inv⟩ := sound
      have leads := dispatch_leads alphabet pos m acc
      rw [moved] at leads
      have shorter : ∀ {pos' : LexerPos} {text : List Char}, Ahead pos text pos' → text ≠ [] →
          pos'.chars.length < pos.chars.length := by
        intro pos' text ahead some_
        have whole : pos.chars = text ++ pos'.chars := ahead.1
        have more := List.length_pos_of_ne_nil some_
        rw [whole, List.length_append]
        omega
      cases leads with
      | @ended pos' pieces leads silent nothing =>
          exact ⟨advance_to_done_sound m (inv.mono (spot_le leads.ahead)), .inr ⟨_, rfl⟩⟩
      | @line pos' pieces leads silent some_ fresh =>
          refine ⟨⟨rfl, inv.mono (spot_le leads.ahead), ?_⟩, .inl ?_⟩
          · rcases fresh with later | ends
            · refine .inl fun t member => ?_
              rcases Prod.Lex.toLex_le_toLex.mp (inv.placed.started t member) with before | ⟨same, -⟩
              · exact before.trans later
              · exact same.trans_lt later
            · exact .inr ends
          · have less := shorter leads.ahead some_
            rw [weight, weight]
            omega
      | @block pos' pieces leads silent some_ =>
          refine ⟨⟨rfl, inv.mono (spot_le leads.ahead)⟩, .inl ?_⟩
          have less := shorter leads.ahead some_
          rw [weight, weight]
          omega
      | @newline pos₁ pieces leads silent feed token =>
          have inv' : Inv ⟨acc.tokens ++ [Token.between .newline pos₁ pos₁.next], acc.indent_stack⟩ pos₁.next.spot :=
            (inv.mono (spot_le leads.ahead)).token (spot_next_le pos₁) rfl (by rintro ⟨⟩) (by rintro _ ⟨⟩)
          refine ⟨⟨rfl, inv', .inl ?_⟩, .inl ?_⟩
          · refine List.forall_mem_append.mpr ⟨fun t member => ?_, List.forall_mem_singleton.mpr ?_⟩
            · rw [next_line feed]
              have started := (inv.placed.started t member).trans (spot_le leads.ahead)
              rcases Prod.Lex.toLex_le_toLex.mp started with before | ⟨same, -⟩
              · exact before.trans (Nat.lt_succ_self _)
              · exact same.trans_lt (Nat.lt_succ_self _)
            · rw [next_line feed]
              exact Nat.lt_succ_self pos₁.line
          · have less := shorter (leads.trans token).ahead (by simp [Piece.text])
            rw [weight, weight]
            omega
      | @token pos₁ pos' pieces kind text leads silent some_ token shape =>
          obtain ⟨-, visible, literal⟩ := shape
          have inv' : Inv ⟨acc.tokens ++ [Token.between kind pos₁ pos'], acc.indent_stack⟩ pos'.spot := by
            refine (inv.mono (spot_le leads.ahead)).token (spot_le token.ahead) ?_ ?_ literal
            · cases kind <;> first | rfl | exact visible
            · rintro rfl
              cases visible
          refine ⟨⟨rfl, inv'⟩, .inl ?_⟩
          have less := shorter (leads.trans token).ahead (by
            rw [texts_append, texts_cons, texts_nil, List.append_nil]
            exact List.append_ne_nil_of_right_ne_nil _ some_)
          rw [weight, weight]
          omega

/-! ### Runs -/

/-- More steps change nothing. -/
theorem run_more {m : Nat} {result : Except LexerError (List Token)}
    (more : n ≤ m) (runs : run alphabet n state = some result) : run alphabet m state = some result := by
  induction n generalizing m state with
  | zero => cases runs
  | succ n ih =>
      obtain ⟨m, rfl⟩ : ∃ m', m = m' + 1 := ⟨m - 1, by omega⟩
      rw [run] at runs ⊢
      cases moved : state.transition alphabet with
      | error e =>
          rw [moved] at runs
          exact runs
      | ok state' =>
          rw [moved] at runs
          cases state' with
          | done acc => exact runs
          | start pos mode acc => exact ih (Nat.le_of_succ_le_succ more) runs
          | lineStart pos mode at_line_start acc => exact ih (Nat.le_of_succ_le_succ more) runs
          | dispatch pos mode acc => exact ih (Nat.le_of_succ_le_succ more) runs

/-- The machine ends. -/
theorem run_ends (alphabet : Alphabet) (sound : Sound mode state)
    (enough : weight state < n) : ∃ result, run alphabet n state = some result := by
  induction n generalizing state with
  | zero => exact absurd enough (Nat.not_lt_zero _)
  | succ n ih =>
      rw [run]
      cases moved : state.transition alphabet with
      | error e => exact ⟨_, rfl⟩
      | ok state' =>
          obtain ⟨sound', less⟩ := transition_sound sound moved
          have on : (∀ acc, state' ≠ .done acc) → ∃ result, run alphabet n state' = some result := by
            intro going
            refine ih sound' ?_
            rcases less with lighter | ⟨acc, done⟩
            · omega
            · exact absurd done (going acc)
          cases state' with
          | done acc => exact ⟨_, rfl⟩
          | start pos mode acc => exact on (by rintro _ ⟨⟩)
          | lineStart pos mode at_line_start acc => exact on (by rintro _ ⟨⟩)
          | dispatch pos mode acc => exact on (by rintro _ ⟨⟩)

/-- What a run ends with is what holds of the last state. -/
theorem run_sound {tokens : List Token} (sound : Sound mode state) (runs : run alphabet n state = some (.ok tokens)) :
    ∃ acc, acc.tokens = tokens ∧ Sound mode (.done acc) := by
  induction n generalizing state with
  | zero => cases runs
  | succ n ih =>
      rw [run] at runs
      cases moved : state.transition alphabet with
      | error e =>
          rw [moved] at runs
          cases runs
      | ok state' =>
          rw [moved] at runs
          have sound' := (transition_sound sound moved).1
          cases state' with
          | done acc => exact ⟨acc, Except.ok.inj (Option.some.inj runs), sound'⟩
          | start pos mode acc => exact ih sound' runs
          | lineStart pos mode at_line_start acc => exact ih sound' runs
          | dispatch pos mode acc => exact ih sound' runs

/-- The states that a source leads to. -/
def Reachable (alphabet : Alphabet) (source : List Char) (mode : LexerMode) : LexerState → Prop :=
  Relation.ReflTransGen (fun state state' => state.transition alphabet = .ok state') (.new source mode)

def LexerState.acc : LexerState → LexerAcc
  | .start _ _ acc | .lineStart _ _ _ acc | .dispatch _ _ acc | .done acc => acc

theorem new_sound (source : List Char) (mode : LexerMode) : Sound mode (.new source mode) := ⟨rfl, rfl⟩

variable {source : List Char}

theorem reachable_sound (reachable : Reachable alphabet source mode state) : Sound mode state := by
  induction reachable with
  | refl => exact new_sound source mode
  | tail _ step ih => exact (transition_sound ih step).1

theorem Sound.nested {mode : LexerMode} {state : LexerState} (sound : Sound mode state) :
    Nested state.acc.tokens state.acc.indent_stack := by
  cases state with
  | start pos m acc =>
      obtain ⟨-, rfl⟩ := sound
      exact .nil
  | lineStart pos m at_line_start acc =>
      cases at_line_start with
      | true => exact sound.2.1.nested
      | false => exact sound.2.nested
  | dispatch pos m acc => exact sound.2.nested
  | done acc => exact sound.2.1

/-- A blank line takes some of the text. -/
theorem blank_shorter (alphabet : Alphabet) {pos : LexerPos} (head : line_head pos = .ok (.blank pos')) :
    pos'.chars.length < pos.chars.length := by
  have leads := line_head_leads alphabet pos
  rw [head] at leads
  cases leads with
  | blank leads silent line some_ =>
      have more := List.length_pos_of_ne_nil (leads.steps.texts_ne some_)
      rw [leads.steps.text_eq, List.length_append]
      omega

theorem line_start_end (mode : LexerMode) (acc : LexerAcc) {pos : LexerPos} (nothing : pos.chars = []) (n : Nat) :
    line_start_loop mode acc n pos = .ok (.done (advance_to_done pos mode acc)) := by
  obtain ⟨chars, line, col⟩ := pos
  obtain rfl : chars = [] := nothing
  cases n <;> rfl

/-- The bound of the loop over blank lines is never reached: every bound that is large enough gives the same. -/
theorem line_start_enough (alphabet : Alphabet) (mode : LexerMode) (acc : LexerAcc) {m : Nat} {pos : LexerPos}
    (enough : pos.chars.length ≤ n) (enough' : pos.chars.length ≤ m) :
    line_start_loop mode acc n pos = line_start_loop mode acc m pos := by
  induction n generalizing m pos with
  | zero =>
      have nothing : pos.chars = [] := List.length_eq_zero_iff.mp (Nat.le_zero.mp enough)
      rw [line_start_end mode acc nothing, line_start_end mode acc nothing]
  | succ n ih =>
      cases m with
      | zero =>
          have nothing : pos.chars = [] := List.length_eq_zero_iff.mp (Nat.le_zero.mp enough')
          rw [line_start_end mode acc nothing, line_start_end mode acc nothing]
      | succ m =>
          rw [line_start_loop, line_start_loop]
          cases head : line_head pos with
          | error e => rfl
          | ok place =>
              cases place with
              | blank pos' =>
                  have shorter := blank_shorter alphabet head
                  exact ih (by omega) (by omega)
              | _ => rfl

/-- The integers that the lexer ends with. -/
theorem tokens_spelled {fuel : Nat} {tokens : List Token}
    (runs : flow_tokenize alphabet fuel source mode = some (.ok tokens)) : Spelled tokens := by
  obtain ⟨acc, rfl, ⟨-, spelled⟩, -⟩ := run_sound (new_sound source mode) runs
  exact spelled

/-! ### The result -/

/-- The lexer ends on every source in both modes, and no bound of the model decides what it ends with.  The tokens
that it ends with are well formed, and in the sketch mode every indentation is closed; on the way the open
indentations are the ones of the tokens, from zero on in multiples of four. -/
theorem tokens_well_formed (alphabet : Alphabet) (source : List Char) (mode : LexerMode) :
    (∃ result, ∀ fuel, 2 * source.length + 3 ≤ fuel → flow_tokenize alphabet fuel source mode = some result) ∧
    (∀ fuel tokens, flow_tokenize alphabet fuel source mode = some (.ok tokens) →
      WellFormed tokens ∧ (mode = .sketch → Nested tokens [0])) ∧
    (∀ state, Reachable alphabet source mode state →
      Nested state.acc.tokens state.acc.indent_stack ∧ Levels state.acc.indent_stack) := by
  refine ⟨?_, ?_, ?_⟩
  · obtain ⟨result, runs⟩ := run_ends alphabet (new_sound source mode) (Nat.lt_succ_self _)
    exact ⟨result, fun fuel enough => run_more enough runs⟩
  · intro fuel tokens runs
    obtain ⟨acc, rfl, ⟨well, -⟩, nested, closed⟩ := run_sound (new_sound source mode) runs
    refine ⟨well, fun sketch => ?_⟩
    rw [closed sketch] at nested
    exact nested
  · intro state reachable
    have nested := (reachable_sound reachable).nested
    exact ⟨nested, nested.levels⟩

/-- A run that ends with tokens of given kinds. -/
theorem lexed (alphabet : Alphabet) (fuel : Nat) (source : List Char) (mode : LexerMode) (kinds : List TokenKind)
    (result : (flow_tokenize alphabet fuel source mode).map
      (fun result => result.toOption.map fun tokens => tokens.map Token.kind) = some (some kinds)) :
    ∃ tokens, flow_tokenize alphabet fuel source mode = some (.ok tokens) ∧ tokens.map Token.kind = kinds := by
  obtain ⟨outcome, runs, kept⟩ := Option.map_eq_some_iff.mp result
  obtain ⟨tokens, ended, same⟩ := Option.map_eq_some_iff.mp kept
  refine ⟨tokens, ?_, same⟩
  cases outcome with
  | error e => cases ended
  | ok found =>
      obtain rfl := Option.some.inj ended
      exact runs

/-- Two lines, of which the second is indented. -/
theorem tokens_well_formed_lines : ∃ tokens,
    flow_tokenize asciiAlphabet 30 "if a:\n    b\n".toList .sketch = some (.ok tokens) ∧
      tokens.map Token.kind =
        [.if_, .ident "a", .colon, .newline, .indent, .ident "b", .newline, .dedent, .eof] ∧
      WellFormed tokens ∧ Nested tokens [0] := by
  obtain ⟨tokens, runs, kinds⟩ := lexed asciiAlphabet 30 "if a:\n    b\n".toList .sketch
    [.if_, .ident "a", .colon, .newline, .indent, .ident "b", .newline, .dedent, .eof] (by decide)
  have well := (tokens_well_formed asciiAlphabet _ .sketch).2.1 30 tokens runs
  exact ⟨tokens, runs, kinds, well.1, well.2 rfl⟩

/-- A source that can be read is accepted, with the tokens of its pieces. -/
theorem accepted_of_reading {pieces : List Piece} (reading : SourceReading alphabet source pieces) :
    ∃ fuel tokens, flow_tokenize alphabet fuel source .production = some (.ok tokens) ∧
      tokens.map Token.kind = kinds pieces ++ [.eof] := by
  obtain ⟨result, runs⟩ := run_ends alphabet (new_sound source .production) (Nat.lt_succ_self _)
  cases result with
  | error e => exact absurd reading (tokenize_reads runs pieces)
  | ok tokens =>
      obtain ⟨pieces', reading', same⟩ := tokenize_reads runs
      exact ⟨_, tokens, runs, by rw [same, reading.unique reading']⟩

/-- In the production mode a source is accepted exactly if it can be read piece by piece.  There is one way to read
it; the texts of the pieces make up the source, and the kinds of the tokens are the ones of the pieces, with the end
behind them. -/
theorem production_reading (alphabet : Alphabet) (source : List Char) :
    ((∃ fuel tokens, flow_tokenize alphabet fuel source .production = some (.ok tokens)) ↔
      ∃ pieces, SourceReading alphabet source pieces) ∧
    ∀ fuel tokens, flow_tokenize alphabet fuel source .production = some (.ok tokens) →
      ∃ pieces, (∀ pieces', SourceReading alphabet source pieces' ↔ pieces' = pieces) ∧ texts pieces = source ∧
        tokens.map Token.kind = kinds pieces ++ [.eof] := by
  refine ⟨⟨?_, ?_⟩, fun fuel tokens runs => ?_⟩
  · rintro ⟨fuel, tokens, runs⟩
    obtain ⟨pieces, reading, -⟩ := tokenize_reads runs
    exact ⟨pieces, reading⟩
  · rintro ⟨pieces, reading⟩
    obtain ⟨fuel, tokens, runs, -⟩ := accepted_of_reading reading
    exact ⟨fuel, tokens, runs⟩
  · obtain ⟨pieces, reading, same⟩ := tokenize_reads runs
    refine ⟨pieces, fun pieces' => ⟨fun reading' => reading'.unique reading, ?_⟩, reading.texts_eq.symm, same⟩
    rintro rfl
    exact reading

end Mimi.Lexer
