/-
Module: Mimi.Proofs.OperatorTrees
Purpose: Operands with binary operators between them are read as the one tree that respects the precedences, by the
  loop over operators with a least precedence and the recursion on right operands.
Trusted boundary: none
-/
import Mimi.Lib.Precedence
import Mimi.Proofs.Operands

namespace Mimi.Parsing

open Mimi.Lexer Mimi.Ast Mimi.Lib Run
open Mimi.Lib.Precedence (Tree Table)

/-! ### Sequences and trees -/

/-- A token that is a binary operator, with what the table knows of it. -/
structure Operator where
  kind : TokenKind
  op : BinOp
  prec : Nat
  right_assoc : Bool
  known : binary_op kind = some (op, prec, right_assoc)

/-- Only the power operator associates to the right. -/
theorem binary_op_assoc {kind : TokenKind} {op : BinOp} {prec : Nat} {right_assoc : Bool}
    (known : binary_op kind = some (op, prec, right_assoc)) :
    right_assoc = decide (prec = 11) ∧ 0 < prec ∧ prec ≤ 11 := by
  cases kind <;> first | cases known; done | (cases known; exact ⟨rfl, by decide, by decide⟩)

/-- The table of the operators. -/
def operators : Table Operator where
  prec := Operator.prec
  right := Operator.right_assoc
  consistent a b same := by
    rw [(binary_op_assoc a.known).1, (binary_op_assoc b.known).1, same]

section Trees

variable (others : OtherParsers)

/-- An operand without operators in front of it. -/
inductive Atom where
  | token (kind : TokenKind) (value : Expr) (known : atom_value others kind = some value)
  | fString (raw : String)
      (reads : ∀ p line col, ∃ parts, others.parse_fstring_parts raw line col p = some (.ok parts, p))
  /-- `-` and the magnitude of the least integer. -/
  | least (s : String) (known : is_i64_min_magnitude (cleaned s) = true)

/-- An atom with prefix operators in front of it. -/
structure Operand where
  prefixes : List Prefix
  atom : Atom others

variable {others}

namespace Atom

def kinds : Atom others → List TokenKind
  | token kind _ _ => [kind]
  | fString raw _ => [.fString raw]
  | least s _ => [.minus, .int s]

/-- The kind of the last token. -/
def last : Atom others → TokenKind
  | token kind _ _ => kind
  | fString raw _ => .fString raw
  | least s _ => .int s

end Atom

def Operand.kinds (x : Operand others) : List TokenKind := x.prefixes.flatMap Prefix.kinds ++ x.atom.kinds

/-- The kinds of the tokens of operands with operators between them. -/
def sequence (x : Operand others) (entries : List (Operator × Operand others)) : List TokenKind :=
  x.kinds ++ entries.flatMap fun entry => entry.1.kind :: entry.2.kinds

/-- An expression has the shape of a tree, whose locations are left out. -/
inductive Builds : Tree Operator (Operand others) → Expr → Prop where
  | located {t : Tree Operator (Operand others)} {e : Expr} (info : AstNodeMeta) (inner : Builds t e) :
      Builds t (.located info e)
  | token {kind : TokenKind} {value : Expr} (known : atom_value others kind = some value) :
      Builds (.leaf ⟨[], .token kind value known⟩) value
  | fString {raw : String} {parts : List FStringPart} {p : Parser} {line col : Nat}
      {reads : ∀ p line col, ∃ parts, others.parse_fstring_parts raw line col p = some (.ok parts, p)}
      (read : others.parse_fstring_parts raw line col p = some (.ok parts, p)) :
      Builds (.leaf ⟨[], .fString raw reads⟩) (.literal (.fString parts))
  | least {s : String} (known : is_i64_min_magnitude (cleaned s) = true) :
      Builds (.leaf ⟨[], .least s known⟩) (.literal (.int (-2 ^ 63)))
  | unary {pre : Prefix} {prefixes : List Prefix} {atom : Atom others} {e : Expr}
      (inner : Builds (.leaf ⟨prefixes, atom⟩) e) : Builds (.leaf ⟨pre :: prefixes, atom⟩) (.unary pre.op e)
  | binary {a : Operator} {l r : Tree Operator (Operand others)} {e e' : Expr} (left : Builds l e) (right : Builds r e') :
      Builds (.node a l r) (.binary a.op e e')

variable {t : Tree Operator (Operand others)}

/-- Locations around an expression do not matter. -/
theorem Builds.of_unlocated {e : Expr} (builds : Builds t (unlocated e)) :
    Builds t e := by
  induction e using unlocated.induct with
  | case1 info e ih => exact .located info (ih builds)
  | case2 e other =>
      cases e
      case located info e => exact absurd rfl (other info e)
      all_goals exact builds

theorem atom_value_unlocated {kind : TokenKind} {value : Expr} (known : atom_value others kind = some value) :
    unlocated value = value := by
  cases kind
  case int s =>
    obtain ⟨v, -, rfl⟩ := Option.map_eq_some_iff.mp known
    rfl
  case float s =>
    rw [atom_value] at known
    split at known
    · obtain rfl := Option.some.inj known
      rfl
    · cases known
  all_goals first | cases known; done | (cases known; rfl)

theorem Builds.to_unlocated {e : Expr} (builds : Builds t e) :
    Builds t (unlocated e) := by
  induction builds with
  | located info inner ih => exact ih
  | token known =>
      rw [atom_value_unlocated known]
      exact .token known
  | fString read => exact .fString read
  | least known => exact .least known
  | unary inner ih => exact .unary inner
  | binary left right ih_left ih_right => exact .binary left right

/-! ### Levels of the recursion -/

/-- The levels below the one of the loop that reads a tree: an operand takes one and one for each prefix operator,
and a right operand one more than its own loop. -/
def loop_levels : Tree Operator (Operand others) → Nat
  | .leaf x => x.prefixes.length + 1
  | .node _ l r => max (loop_levels l) (loop_levels r + 1)

def levels (t : Tree Operator (Operand others)) : Nat := loop_levels t + 1

/-! ### Tokens of operands -/

/-- The magnitude of the least integer alone is out of the range. -/
theorem min_refused {s : String} (least : is_i64_min_magnitude (cleaned s) = true) :
    (int_value s).toOption = none := by
  have refused : ∀ radix text, from_str_radix radix text = none → ∀ message : String,
      ((from_str_radix radix text).elim (.error message) .ok : Except String Int).toOption = none := by
    intro radix text none_ message
    rw [none_]
    rfl
  rw [int_value]
  unfold is_i64_min_magnitude at least
  generalize cleaned s = text at least ⊢
  by_cases whole : text = "9223372036854775808".toList
  · rw [whole]
    exact refused 10 "9223372036854775808".toList (by decide) "invalid integer"
  · rw [if_neg whole] at least
    split at least
    · rename_i letter digits
      show Except.toOption (ite _ _ _) = none
      split_ifs at least with hex binary octal
      · rw [if_pos hex, of_decide_eq_true least]
        exact refused 16 _ (by decide) _
      · rw [if_neg hex, if_pos binary, of_decide_eq_true least]
        exact refused 2 _ (by decide) _
      · rw [if_neg hex, if_neg binary, if_pos octal, of_decide_eq_true least]
        exact refused 8 _ (by decide) _
    · cases least

theorem atom_opens {kind : TokenKind} {value : Expr} (known : atom_value others kind = some value) : Opens kind := by
  refine ⟨?_, ?_, ?_⟩
  · cases kind <;> first | rfl | cases known
  · rintro rfl
    cases known
  · cases kind
    case int s =>
      rw [i64_min_ahead, ← Bool.not_eq_true]
      intro least
      rw [atom_value, min_refused least] at known
      cases known
    all_goals rfl

theorem Prefix.opens (pre : Prefix) : ∃ kind kinds, pre.kinds = kind :: kinds ∧ Opens kind := by
  cases pre <;> exact ⟨_, _, rfl, rfl, nofun, rfl⟩

theorem Atom.opens (atom : Atom others) : ∃ kind kinds, atom.kinds = kind :: kinds ∧ Opens kind := by
  cases atom with
  | token kind value known => exact ⟨kind, [], rfl, atom_opens known⟩
  | fString raw reads => exact ⟨_, _, rfl, rfl, nofun, rfl⟩
  | least s known => exact ⟨_, _, rfl, rfl, nofun, rfl⟩

/-- A prefix operator may stand in front of every operand. -/
theorem Operand.opens (x : Operand others) : ∃ kind kinds, x.kinds = kind :: kinds ∧ Opens kind := by
  obtain ⟨prefixes, atom⟩ := x
  cases prefixes with
  | nil => exact atom.opens
  | cons pre prefixes =>
      obtain ⟨kind, kinds, first, opens⟩ := pre.opens
      refine ⟨kind, kinds ++ prefixes.flatMap Prefix.kinds ++ atom.kinds, ?_, opens⟩
      rw [Operand.kinds, List.flatMap_cons, first]
      rfl

/-! ### Operands -/

variable {p : Parser} {tokens : List Token}

/-- With enough steps an atom is read. -/
theorem reads_atom (atom : Atom others) {rest : List Token} (here : p.rest = tokens ++ rest)
    (kinds : tokens.map Token.kind = atom.kinds) (few : p.recursion_depth < DEPTH_MAX_DEFAULT)
    (stops : Stops (p.forward tokens.length) atom.last) (n : Nat) :
    ∃ e, (Again.upTo others (n + 2)).parse_unary p = some (.ok e, p.forward tokens.length) ∧
      Builds (.leaf ⟨[], atom⟩) e := by
  have some_ : 0 < (Again.upTo others (n + 1)).fuel := n.succ_pos
  cases atom with
  | token kind value known =>
      obtain ⟨t, rfl, rfl⟩ := List.map_eq_singleton_iff.mp kinds
      obtain ⟨e, read, same⟩ := parse_unary_atom others (Again.upTo others (n + 1)) few here known stops some_
      refine ⟨e, read, .of_unlocated ?_⟩
      rw [same]
      exact .token known
  | fString raw reads =>
      obtain ⟨t, rfl, kind⟩ := List.map_eq_singleton_iff.mp kinds
      obtain ⟨parts, parsed⟩ := reads (inc_depth p).step t.line t.col
      obtain ⟨e, read, same⟩ :=
        parse_unary_fstring others (Again.upTo others (n + 1)) few here kind parsed stops.operand some_
      refine ⟨e, read, .of_unlocated ?_⟩
      rw [same]
      exact .fString parsed
  | least s known =>
      obtain ⟨minus, more, rfl, sign, kinds⟩ := List.map_eq_cons_iff.mp kinds
      obtain ⟨t, rfl, kind⟩ := List.map_eq_singleton_iff.mp kinds
      obtain ⟨e, read, same⟩ := parse_unary_least others (Again.upTo others (n + 1)) few here sign kind known
      refine ⟨e, read, .of_unlocated ?_⟩
      rw [same]
      exact .least known

/-- With enough steps an operand is read. -/
theorem reads_operand (x : Operand others) {rest : List Token} (here : p.rest = tokens ++ rest)
    (kinds : tokens.map Token.kind = x.kinds) (few : p.recursion_depth + (x.prefixes.length + 1) ≤ DEPTH_MAX_DEFAULT)
    (stops : Stops (p.forward tokens.length) x.atom.last) :
    ∃ enough, ∀ n, enough ≤ n → ∃ e,
      (Again.upTo others n).parse_unary p = some (.ok e, p.forward tokens.length) ∧ Builds (.leaf x) e := by
  obtain ⟨prefixes, atom⟩ := x
  induction prefixes generalizing p tokens with
  | nil =>
      refine ⟨2, fun n more => ?_⟩
      obtain ⟨m, rfl⟩ : ∃ m, n = m + 2 := ⟨n - 2, by omega⟩
      exact reads_atom atom here kinds (by simpa using few) stops m
  | cons pre prefixes ih =>
      obtain ⟨spelled, behind, rfl, operator, kinds⟩ := List.map_eq_append_iff.mp
        (kinds.trans (List.append_assoc pre.kinds (prefixes.flatMap Prefix.kinds) atom.kinds))
      obtain ⟨kind, more, first, opens⟩ := Operand.opens ⟨prefixes, atom⟩
      obtain ⟨t, tail, rfl, rfl, -⟩ := List.map_eq_cons_iff.mp (kinds.trans first)
      rw [List.append_assoc] at here
      have there : (inc_depth (p.forward spelled.length)).rest = (t :: tail) ++ rest := Parser.rest_forward here
      have deep : (inc_depth (p.forward spelled.length)).recursion_depth + (prefixes.length + 1) ≤ DEPTH_MAX_DEFAULT := by
        rw [List.length_cons] at few
        show p.recursion_depth + 1 + (prefixes.length + 1) ≤ _
        omega
      have place : p.forward (spelled ++ t :: tail).length = (p.forward spelled.length).forward (t :: tail).length := by
        rw [List.length_append]
        exact congrArg (fun pos => { p with pos := pos }) (Nat.add_assoc ..).symm
      rw [place] at stops ⊢
      obtain ⟨enough, reads⟩ := ih there kinds deep ⟨stops.operand, stops.path, stops.quote, stops.record⟩
      refine ⟨enough + 1, fun n more => ?_⟩
      obtain ⟨m, rfl⟩ : ∃ m, n = m + 1 := ⟨n - 1, by omega⟩
      obtain ⟨e, read, builds⟩ := reads m (by omega)
      have shallow : p.recursion_depth < DEPTH_MAX_DEFAULT := by omega
      obtain ⟨e', read', same⟩ :=
        parse_unary_prefixed others (Again.upTo others m) shallow here operator opens rfl read
      refine ⟨e', read', .of_unlocated ?_⟩
      rw [same]
      exact .unary builds

/-! ### The loop -/

/-- Behind an expression, nothing goes on with a loop of a least precedence. -/
structure Ends (min_prec : Nat) (p : Parser) : Prop where
  operator : ∀ op prec right_assoc, binary_op p.peek_kind = some (op, prec, right_assoc) → prec < min_prec
  pipe : min_prec = 0 → p.peek_kind ≠ .pipeArrow
  lines : p.try_skip_newlines_for_boolean_op = p

variable {min_prec : Nat}

theorem expr_round_ends (again : Again) (ends : Ends min_prec p) (start_pos : Nat)
    (e : Expr) : expr_round again min_prec start_pos e p = some (.ok (.inr e), p) := by
  have no_pipe : (decide (p.peek_kind = .pipeArrow) && decide (min_prec = 0)) = false := by
    by_cases outermost : min_prec = 0
    · rw [decide_eq_false (ends.pipe outermost)]
      rfl
    · rw [decide_eq_false outermost, Bool.and_false]
  rw [expr_round, at_bind, no_pipe]
  show (modify Parser.try_skip_newlines_for_boolean_op >>= fun _ => _) p = _
  rw [modify_bind, ends.lines, peek_kind_bind]
  cases known : binary_op p.peek_kind with
  | none => rfl
  | some entry =>
      obtain ⟨op, prec, right_assoc⟩ := entry
      show (if _ then _ else _ : Parse (Expr ⊕ Expr)) p = _
      rw [if_pos (ends.operator op prec right_assoc known)]
      rfl

/-- Where no newline comes next, none is passed. -/
theorem skip_newlines_none (no_line : p.peek_kind ≠ .newline) : p.skip_newlines = p := by
  have none_ : ((p.tokens.drop p.pos).takeWhile fun token => token.kind = .newline) = [] := by
    show (p.rest.takeWhile _) = []
    cases here : p.rest with
    | nil => rfl
    | cons t tokens =>
        rw [Parser.peek_kind_cons here] at no_line
        exact List.takeWhile_cons_of_neg (by simpa using no_line)
  rw [Parser.skip_newlines, none_]
  rfl

theorem try_skip_none (no_line : p.peek_kind ≠ .newline) : p.try_skip_newlines_for_boolean_op = p := by
  rw [Parser.try_skip_newlines_for_boolean_op, skip_newlines_none no_line, ite_self]

/-- A binary operator goes on with the loop and with no operand. -/
theorem operator_kind {kind : TokenKind} {entry : BinOp × Nat × Bool} (known : binary_op kind = some entry) :
    continues kind = false ∧ kind ≠ .colonColon ∧ kind ≠ .bang ∧ kind ≠ .lBrace ∧ kind ≠ .pipeArrow ∧
      kind ≠ .newline ∧ kind ≠ .eof := by
  cases kind <;> first | cases known; done | exact ⟨rfl, nofun, nofun, nofun, nofun, nofun, nofun⟩

theorem Operator.stops (a : Operator) (here : p.peek_kind = a.kind) (last : TokenKind) : Stops p last := by
  obtain ⟨operand, path, bang, brace, -⟩ := operator_kind a.known
  refine ⟨by rw [here]; exact operand, fun _ _ => by rw [here]; exact path, fun _ => by rw [here]; exact bang, ?_⟩
  intro _ _ opened
  exact absurd (here.symm.trans opened) brace

/-- An operator of the loop with its right operand. -/
theorem expr_round_goes_on {again : Again} {p' : Parser} {t : Token}
    (a : Operator) (here : p.rest = t :: tokens) (kind : t.kind = a.kind) (enough : min_prec ≤ a.prec)
    (no_line : p.step.peek_kind ≠ .newline) {e' : Expr}
    (read : again.parse_expr (next_min a.prec a.right_assoc) p.step = some (.ok e', p')) (start_pos : Nat) (e : Expr) :
    ∃ e'', expr_round again min_prec start_pos e p = some (.ok (.inl e''), p') ∧ unlocated e'' = .binary a.op e e' := by
  obtain ⟨-, -, -, -, no_pipe, not_line, not_end⟩ := operator_kind a.known
  have first : p.peek_kind = a.kind := (Parser.peek_kind_cons here).trans kind
  refine ⟨_, ?_, with_meta_unlocated (p'.consumed_meta start_pos .user) (.binary a.op e e')⟩
  rw [expr_round, at_bind, first, decide_eq_false no_pipe]
  show (modify Parser.try_skip_newlines_for_boolean_op >>= fun _ => _) p = _
  rw [modify_bind, try_skip_none (by rw [first]; exact not_line), peek_kind_bind, first, a.known]
  show (if _ then _ else _ : Parse (Expr ⊕ Expr)) p = _
  rw [if_neg (Nat.not_lt_of_ge enough), advance_bind, Parser.advance_cons here (by rw [kind]; exact not_end)]
  show (modify Parser.skip_newlines >>= fun _ => _) p.step = _
  rw [modify_bind, skip_newlines_none no_line, bind_ok read]
  rfl

theorem Operator.ends (a : Operator) (here : p.peek_kind = a.kind) (loose : a.prec < min_prec) : Ends min_prec p := by
  obtain ⟨-, -, -, -, no_pipe, not_line, -⟩ := operator_kind a.known
  refine ⟨?_, fun _ => by rw [here]; exact no_pipe, try_skip_none (by rw [here]; exact not_line)⟩
  intro op prec right_assoc known
  rw [here, a.known] at known
  obtain ⟨-, rfl, -⟩ := Prod.mk.inj (Option.some.inj known) |>.imp_right Prod.mk.inj
  exact loose

theorem Ends.inc (ends : Ends min_prec p) : Ends min_prec (inc_depth p) := by
  refine ⟨ends.operator, ends.pipe, ?_⟩
  have lines := congrArg inc_depth ends.lines
  rw [Parser.try_skip_newlines_for_boolean_op] at lines ⊢
  rw [apply_ite inc_depth] at lines
  exact lines

/-- The rightmost operand. -/
def last : Tree Operator (Operand others) → Operand others
  | .leaf x => x
  | .node _ _ r => last r

/-- The tokens of a tree from left to right. -/
def spelled : Tree Operator (Operand others) → List TokenKind
  | .leaf x => x.kinds
  | .node a l r => spelled l ++ a.kind :: spelled r

theorem spelled_eq (t : Tree Operator (Operand others)) : spelled t = sequence t.first t.rest := by
  induction t with
  | leaf x => exact (List.append_nil _).symm
  | node a l r ih_left ih_right =>
      rw [spelled, ih_left, ih_right, sequence, sequence, sequence, Tree.rest, List.flatMap_append, List.flatMap_cons,
        ← List.append_assoc]
      rfl

theorem spelled_opens (t : Tree Operator (Operand others)) : ∃ kind kinds, spelled t = kind :: kinds ∧ Opens kind := by
  obtain ⟨kind, kinds, first, opens⟩ := t.first.opens
  refine ⟨kind, kinds ++ t.rest.flatMap fun entry => entry.1.kind :: entry.2.kinds, ?_, opens⟩
  rw [spelled_eq, sequence, first]
  rfl

/-- The rounds of the loop that a tree takes. -/
def spine : Tree Operator (Operand others) → Nat
  | .leaf _ => 0
  | .node _ l _ => spine l + 1

/-- With enough steps, the parser of expressions reads a tree, and the tokens up to a place. -/
def ReadsTree (min_prec : Nat) (p p' : Parser) (t : Tree Operator (Operand others)) : Prop :=
  ∃ enough, ∀ n, enough ≤ n → ∃ e, (Again.upTo others n).parse_expr min_prec p = some (.ok e, p') ∧ Builds t e

/-- The loop comes to a place with an expression of a tree, and goes on from there. -/
def LoopReads (min_prec : Nat) (p p' : Parser) (t : Tree Operator (Operand others)) : Prop :=
  ∃ enough, ∀ n, enough ≤ n → ∀ start_pos, ∃ e, Builds t e ∧ ∀ left,
    ((Again.upTo others n).parse_unary >>=
      rounds (expr_round (Again.upTo others n) min_prec start_pos) (left + spine t)) p =
        rounds (expr_round (Again.upTo others n) min_prec start_pos) left e p'

/-- Where the loop ends, its expression is the result one level above. -/
theorem reads_tree_of_loop {p' : Parser} (few : p.recursion_depth < DEPTH_MAX_DEFAULT) (ends : Ends min_prec p')
    (loop : LoopReads min_prec (inc_depth p) (inc_depth p') t) : ReadsTree min_prec p p' t := by
  obtain ⟨enough, reads⟩ := loop
  refine ⟨max enough (spine t + 1) + 1, fun n more => ?_⟩
  obtain ⟨m, rfl⟩ : ∃ m, n = m + 1 := ⟨n - 1, by omega⟩
  obtain ⟨e, builds, run⟩ := reads m (by omega) p.pos
  obtain ⟨left, fuel⟩ : ∃ left, m = left + 1 + spine t := ⟨m - 1 - spine t, by omega⟩
  have inner : parse_expr_inner (Again.upTo others m) min_prec p.pos (inc_depth p) = some (.ok e, inc_depth p') := by
    rw [parse_expr_inner, upTo_fuel, fuel, ← fuel]
    have whole := run (left + 1)
    rw [← fuel] at whole
    refine whole.trans ?_
    exact rounds_ends (expr_round_ends _ ends.inc p.pos e)
  refine ⟨_, deeper_ok few inner, .of_unlocated ?_⟩
  rw [with_meta_unlocated]
  exact builds.to_unlocated

/-- The loop reads the left spine of a tree, and the recursion its right operands. -/
theorem reads_loop (respects : operators.Respects t)
    (root : ∀ a, t.root = some a → min_prec ≤ a.prec) {rest : List Token}
    (here : p.rest = tokens ++ rest) (kinds : tokens.map Token.kind = spelled t)
    (few : p.recursion_depth + loop_levels t ≤ DEPTH_MAX_DEFAULT)
    (stops : Stops (p.forward tokens.length) (last t).atom.last)
    (closes : ∀ entry ∈ t.rest, Ends (operators.above entry.1) (p.forward tokens.length)) :
    LoopReads min_prec p (p.forward tokens.length) t := by
  induction respects generalizing min_prec p tokens rest with
  | leaf x =>
      obtain ⟨enough, reads⟩ := reads_operand x here kinds few stops
      refine ⟨enough, fun n more start_pos => ?_⟩
      obtain ⟨e, read, builds⟩ := reads n more
      exact ⟨e, builds, fun left => bind_ok read _⟩
  | @node a l r left right respects_l respects_r ih_left ih_right =>
      obtain ⟨front, behind, rfl, kinds_l, kinds⟩ := List.map_eq_append_iff.mp kinds
      obtain ⟨t, back, rfl, kind, kinds_r⟩ := List.map_eq_cons_iff.mp kinds
      rw [List.append_assoc] at here
      let p₁ := p.forward front.length
      have at_operator : p₁.rest = t :: (back ++ rest) := Parser.rest_forward here
      have operator : p₁.peek_kind = a.kind := (Parser.peek_kind_cons at_operator).trans kind
      have at_right : (inc_depth p₁.step).rest = back ++ rest := Parser.rest_step at_operator
      have place : p.forward (front ++ t :: back).length = p₁.step.forward back.length := by
        have pos : p.pos + (front.length + (back.length + 1)) = p.pos + front.length + 1 + back.length := by omega
        rw [List.length_append, List.length_cons]
        exact congrArg (fun pos => { p with pos := pos }) pos
      rw [place] at stops closes ⊢
      have few_l : p.recursion_depth + loop_levels l ≤ DEPTH_MAX_DEFAULT :=
        le_trans (Nat.add_le_add_left (Nat.le_max_left _ _) _) few
      have few_r : p.recursion_depth + (loop_levels r + 1) ≤ DEPTH_MAX_DEFAULT :=
        le_trans (Nat.add_le_add_left (Nat.le_max_right _ _) _) few
      have enough : min_prec ≤ a.prec := root a rfl
      -- The operator stands behind every operator on its left, and binds less tightly than their right operands do.
      obtain ⟨enough_l, reads_l⟩ := ih_left (fun b below => le_trans enough (left b below).le) here kinds_l few_l
        (a.stops operator _) fun entry mem => a.ends operator (respects_l.left_all left entry mem).lt_above
      have on_right : ReadsTree (operators.above a) p₁.step (p₁.step.forward back.length) r := by
        refine reads_tree_of_loop ?_ (closes (a, r.first) (by simp [Tree.rest])) ?_
        · show p.recursion_depth < _
          omega
        · refine ih_right (fun b below => Precedence.Table.rightOk_iff.mp (right b below)) at_right kinds_r ?_ ?_ ?_
          · show p.recursion_depth + 1 + loop_levels r ≤ _
            omega
          · exact ⟨stops.operand, stops.path, stops.quote, stops.record⟩
          · exact fun entry mem => (closes entry (by simp [Tree.rest, mem])).inc
      obtain ⟨enough_r, reads_r⟩ := on_right
      have no_line : p₁.step.peek_kind ≠ .newline := by
        obtain ⟨first, more, spelled_r, opens⟩ := spelled_opens r
        obtain ⟨u, tail, rfl, rfl, -⟩ := List.map_eq_cons_iff.mp (kinds_r.trans spelled_r)
        intro line
        have operand := opens.operand
        rw [← Parser.peek_kind_cons (Parser.rest_step at_operator), line] at operand
        cases operand
      refine ⟨max enough_l enough_r, fun n more start_pos => ?_⟩
      obtain ⟨e_l, builds_l, run_l⟩ := reads_l n (le_trans (Nat.le_max_left ..) more) start_pos
      obtain ⟨e_r, read_r, builds_r⟩ := reads_r n (le_trans (Nat.le_max_right ..) more)
      obtain ⟨e, round, same⟩ := expr_round_goes_on a at_operator kind enough no_line read_r start_pos e_l
      refine ⟨e, .of_unlocated ?_, fun left => ?_⟩
      · rw [same]
        exact .binary builds_l builds_r
      · rw [spine, show left + (spine l + 1) = left + 1 + spine l by omega]
        exact (run_l (left + 1)).trans (rounds_goes_on round)

/-! ### The one reading -/

/-- Every sequence of operands with binary operators between them has one tree that respects the precedences, and
the parser reads it as this tree, where the levels of the recursion are enough and nothing behind the sequence goes
on with it. -/
theorem operators_read_uniquely (x : Operand others) (entries : List (Operator × Operand others)) :
    ∃ t, (operators.Respects t ∧ t.first = x ∧ t.rest = entries) ∧
      (∀ t', operators.Respects t' → t'.first = x → t'.rest = entries → t' = t) ∧
      ∀ (p : Parser) (tokens rest : List Token), p.rest = tokens ++ rest →
        tokens.map Token.kind = sequence x entries → p.recursion_depth + levels t ≤ DEPTH_MAX_DEFAULT →
        Stops (p.forward tokens.length) (last t).atom.last → Ends 0 (p.forward tokens.length) →
          ReadsTree 0 p (p.forward tokens.length) t := by
  obtain ⟨t, ⟨respects, rfl, rfl⟩, unique⟩ := operators.exists_unique_tree x entries
  refine ⟨t, ⟨respects, rfl, rfl⟩, unique, fun p tokens rest here kinds few stops ends => ?_⟩
  rw [levels] at few
  refine reads_tree_of_loop (by omega) ends ?_
  refine reads_loop (p := inc_depth p) respects (fun _ _ => Nat.zero_le _) here (kinds.trans (spelled_eq t).symm) ?_
    ⟨stops.operand, stops.path, stops.quote, stops.record⟩ fun entry _ => ?_
  · show p.recursion_depth + 1 + loop_levels t ≤ _
    omega
  · exact ⟨fun op prec right_assoc known => absurd (ends.operator op prec right_assoc known) (Nat.not_lt_zero _),
      fun _ => ends.pipe rfl, ends.inc.lines⟩

theorem respects_right {a b : Operator} {x y z : Operand others} (left_assoc : a.right_assoc = false)
    (tighter : a.prec < b.prec) : operators.Respects (.node a (.leaf x) (.node b (.leaf y) (.leaf z))) := by
  have alone : ∀ (P : Operator → Prop) (x : Operand others) (c : Operator),
      (Tree.leaf x : Tree Operator (Operand others)).root = some c → P c := by
    intro P x c root
    cases root
  refine .node (alone _ x) ?_ (.leaf x) (.node (alone _ y) (alone _ z) (.leaf y) (.leaf z))
  intro c root
  obtain rfl := Option.some.inj root
  rw [Table.RightOk]
  show (if a.right_assoc then _ else _)
  rw [left_assoc]
  exact tighter

end Trees

/-- The tokens of `1 + - 2 * 3`. -/
def sum_tokens : List Token :=
  [⟨.int "1", 1, 1, 1, 2⟩, ⟨.plus, 1, 3, 1, 4⟩, ⟨.minus, 1, 5, 1, 6⟩, ⟨.int "2", 1, 7, 1, 8⟩, ⟨.star, 1, 9, 1, 10⟩,
    ⟨.int "3", 1, 11, 1, 12⟩]

/-- A sum with a product on its right. -/
theorem operators_read_sum : ∃ (plus star : Operator) (one two three : Operand .absent),
    plus.op = .add ∧ star.op = .mul ∧
    sequence one [(plus, two), (star, three)] = [.int "1", .plus, .minus, .int "2", .star, .int "3"] ∧
    ReadsTree 0 ⟨sum_tokens ++ [Parser.EOF], 0, 0, true, 0⟩ ⟨sum_tokens ++ [Parser.EOF], 6, 0, true, 0⟩
      (.node plus (.leaf one) (.node star (.leaf two) (.leaf three))) := by
  have digit : ∀ (s : String) (v : Int), int_value s = .ok v → atom_value .absent (.int s) = some (.literal (.int v)) := by
    intro s v value
    rw [atom_value, value]
    rfl
  refine ⟨⟨.plus, .add, 9, false, rfl⟩, ⟨.star, .mul, 10, false, rfl⟩, ⟨[], .token (.int "1") _ (digit "1" 1 rfl)⟩,
    ⟨[.neg], .token (.int "2") _ (digit "2" 2 rfl)⟩, ⟨[], .token (.int "3") _ (digit "3" 3 rfl)⟩, rfl, rfl, rfl, ?_⟩
  obtain ⟨t, -, unique, reads⟩ := operators_read_uniquely _ [(_, _), (_, _)]
  obtain rfl := unique (.node ⟨.plus, .add, 9, false, rfl⟩ (.leaf _) (.node ⟨.star, .mul, 10, false, rfl⟩ (.leaf _)
    (.leaf _))) (respects_right rfl (Nat.lt_succ_self 9)) rfl rfl
  have few : 0 + 4 ≤ DEPTH_MAX_DEFAULT := by decide
  exact reads ⟨sum_tokens ++ [Parser.EOF], 0, 0, true, 0⟩ sum_tokens [Parser.EOF] rfl rfl few
    ⟨rfl, by rintro _ ⟨⟩, by rintro ⟨⟩, by rintro _ ⟨⟩⟩ ⟨by rintro _ _ _ ⟨⟩, by rintro - ⟨⟩, rfl⟩

end Mimi.Parsing
