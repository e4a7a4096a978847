/-
Module: Mimi.Proofs.Operands
Purpose: How the parser reads an operand: tokens that are passed one by one, the levels of the recursion, literals
  and names with nothing behind them, and prefix operators.
Trusted boundary: none
-/
import Mimi.Parser.Expr

namespace Mimi.Parsing

open Mimi.Lexer Mimi.Ast Mimi.Lib Run

/-! ### Tokens -/

variable {p : Parser} {t : Token} {tokens : List Token}

namespace Parser

/-- The tokens that are left. -/
def rest (p : Parser) : List Token := p.tokens.drop p.pos

/-- One token further. -/
def step (p : Parser) : Parser := { p with pos := p.pos + 1 }

/-- Some tokens further. -/
def forward (p : Parser) (n : Nat) : Parser := { p with pos := p.pos + n }

@[simp] theorem step_pos (p : Parser) : p.step.pos = p.pos + 1 := rfl
@[simp] theorem step_tokens (p : Parser) : p.step.tokens = p.tokens := rfl

theorem getElem?_rest (p : Parser) (n : Nat) : p.tokens[p.pos + n]? = p.rest[n]? := by
  rw [rest, List.getElem?_drop]

theorem peek_eq (p : Parser) : p.peek = p.rest.head?.getD EOF := by
  rw [peek, List.head?_eq_getElem?, ← getElem?_rest, Nat.add_zero]

theorem kind_behind_eq (p : Parser) (n : Nat) : p.kind_behind n = p.rest[n]?.map Token.kind := by
  rw [kind_behind, getElem?_rest]

theorem peek_cons (here : p.rest = t :: tokens) : p.peek = t := by
  rw [peek_eq, here]
  rfl

theorem peek_kind_cons (here : p.rest = t :: tokens) :
    p.peek_kind = t.kind := congrArg Token.kind (peek_cons here)

theorem rest_step (here : p.rest = t :: tokens) :
    p.step.rest = tokens := by
  rw [rest, step_tokens, step_pos, ← List.drop_drop, ← rest, here]
  rfl

theorem rest_forward {front : List Token} (here : p.rest = front ++ tokens) :
    (p.forward front.length).rest = tokens := by
  show p.tokens.drop (p.pos + front.length) = tokens
  rw [← List.drop_drop, ← rest, here, List.drop_left]

theorem advance_cons (here : p.rest = t :: tokens) (more : t.kind ≠ .eof) : p.advance = p.step := by
  refine if_neg ?_
  rw [kind_behind_eq, here]
  exact fun same => more (Option.some.inj same)

@[simp] theorem rest_inc (p : Parser) : (inc_depth p).rest = p.rest := rfl
@[simp] theorem peek_kind_inc (p : Parser) : (inc_depth p).peek_kind = p.peek_kind := rfl

end Parser

theorem advance_bind {β : Type} (f : Unit → Parse β) (p : Parser) : (advance >>= f) p = f () p.advance := rfl

theorem peek_kind_bind {β : Type} (f : TokenKind → Parse β) (p : Parser) : (peek_kind >>= f) p = f p.peek_kind p := rfl

theorem at_bind {β : Type} (kind : TokenKind) (f : Bool → Parse β) (p : Parser) :
    (at_ kind >>= f) p = f (p.peek_kind = kind) p := rfl

theorem parsed_apply (start_pos : Nat) (e : Expr) (p : Parser) :
    parsed_expr_from start_pos e p = some (.ok (with_meta (p.consumed_meta start_pos (expr_origin e)) e), p) := rfl

/-! ### Levels -/

variable {inner : Nat → Parse Expr}

theorem deeper_bind (few : p.recursion_depth < DEPTH_MAX_DEFAULT) :
    deeper inner p =
      (ensure (inner p.pos) dec_depth >>= parsed_expr_from p.pos) (inc_depth p) := by
  rw [deeper, gets_bind, check_depth]
  show ((gets Parser.recursion_depth >>= fun depth => _) >>= fun _ => _) p = _
  rw [bind_apply, gets_bind, if_neg (Nat.not_le_of_gt few)]
  rfl

variable {p' : Parser}

/-- One level deeper, the same is read. -/
theorem deeper_ok {e : Expr} (few : p.recursion_depth < DEPTH_MAX_DEFAULT)
    (read : inner p.pos (inc_depth p) = some (.ok e, p')) :
    deeper inner p = some (.ok (with_meta ((dec_depth p').consumed_meta p.pos (expr_origin e)) e), dec_depth p') := by
  have inside : ensure (inner p.pos) dec_depth (inc_depth p) = some (.ok e, dec_depth p') := by
    rw [ensure, read]
    rfl
  rw [deeper_bind few, bind_ok inside]
  rfl

theorem deeper_error {error : ParseError}
    (few : p.recursion_depth < DEPTH_MAX_DEFAULT) (read : inner p.pos (inc_depth p) = some (.error error, p')) :
    deeper inner p = some (.error error, dec_depth p') := by
  have inside : ensure (inner p.pos) dec_depth (inc_depth p) = some (.error error, dec_depth p') := by
    rw [ensure, read]
    rfl
  rw [deeper_bind few, bind_error inside]

/-! ### Atoms -/

section Grammar

variable (others : OtherParsers)

/-- The value of an operand of one token. -/
def atom_value : TokenKind → Option Expr
  | .int s => (int_value s).toOption.map fun v => .literal (.int v)
  | .float s =>
      match others.parse_float (String.ofList (cleaned s)) with
      | some (bits, true) => some (.literal (.float bits))
      | _ => none
  | .string s => some (.literal (.string s))
  | .true_ => some (.literal (.bool true))
  | .false_ => some (.literal (.bool false))
  | .unit => some (.literal .unit)
  | .ident name => some (.ident name)
  | kind => if is_ident_like_kind kind && kind ≠ .not then some (.ident kind.source_text) else none

/-- The tokens that go on with an operand. -/
def continues : TokenKind → Bool
  | .question | .lParen | .dot | .lBracket | .as_ => true
  | _ => false

/-- Behind an operand of one token, nothing goes on with it. -/
structure Stops (p : Parser) (kind : TokenKind) : Prop where
  operand : continues p.peek_kind = false
  path : ∀ name, kind = .ident name → p.peek_kind ≠ .colonColon
  quote : kind = .ident "quote" → p.peek_kind ≠ .bang
  record : ∀ name, kind = .ident name → p.peek_kind = .lBrace →
    p.allow_record_literal = false ∨ begins_record (.ident name) = none

variable (again : Again)

theorem postfix_round_stops (stops : continues p.peek_kind = false) (start_pos : Nat) (e : Expr) :
    postfix_round again start_pos e p = some (.ok (.inr e), p) := by
  rw [postfix_round, peek_kind_bind]
  generalize p.peek_kind = kind at stops
  cases kind <;> first | rfl | exact absurd stops (by decide)

/-- Nothing behind an operand is read. -/
theorem parse_postfix_stops (some_ : 0 < again.fuel) (stops : continues p.peek_kind = false)
    (start_pos : Nat) (e : Expr) : parse_postfix others again e start_pos p = some (.ok e, p) := by
  obtain ⟨n, fuel⟩ : ∃ n, again.fuel = n + 1 := ⟨again.fuel - 1, by omega⟩
  have loop : rounds (postfix_round again start_pos) again.fuel e p = some (.ok e, p) := by
    rw [fuel]
    exact rounds_ends (postfix_round_stops again stops start_pos e)
  have no_cast : decide (p.peek_kind = .as_) = false := by
    refine decide_eq_false fun same => ?_
    rw [same] at stops
    cases stops
  unfold parse_postfix
  rw [bind_ok loop, at_bind, no_cast]
  rfl

theorem with_meta_unlocated (info : AstNodeMeta) (e : Expr) : unlocated (with_meta info e) = unlocated e := by
  cases e <;> rfl

theorem ident_round_stops {name : String} (stops : Stops p (.ident name)) (start_pos : Nat) {e : Expr}
    (named : record_literal_type_name e = some name) :
    ident_round again start_pos e p = some (.ok (.inr e), p) := by
  have operand := stops.operand
  have record := stops.record name rfl
  rw [ident_round, peek_kind_bind]
  generalize p.peek_kind = kind at operand record
  cases kind
  case lBrace =>
    show (gets Parser.allow_record_literal >>= fun allowed => _) p = _
    rw [gets_bind]
    rcases record rfl with forbidden | small
    · rw [forbidden]
      rfl
    · have none_ : begins_record e = none := by
        rw [begins_record, named]
        exact small
      cases p.allow_record_literal with
      | false => rfl
      | true =>
          rw [if_pos rfl, none_]
          rfl
  all_goals first | rfl | exact absurd operand (by decide)

theorem record_name_with_meta (info : AstNodeMeta) (name : String) :
    record_literal_type_name (with_meta info (.ident name)) = some name := rfl

/-- A name with nothing behind it. -/
theorem parse_ident_primary_stops {name : String}
    (here : p.rest = t :: tokens) (kind : t.kind = .ident name) (stops : Stops p.step (.ident name))
    (some_ : 0 < again.fuel) :
    ∃ e, parse_ident_primary others again name p = some (.ok e, p.step) ∧ unlocated e = .ident name := by
  have moved : p.advance = p.step := Parser.advance_cons here (by rw [kind]; nofun)
  have no_quote : (decide (name = "quote") && decide (p.kind_behind 1 = some .bang)) = false := by
    refine Bool.and_eq_false_iff.mpr ((Decidable.em (name = "quote")).symm.imp decide_eq_false fun quote => ?_)
    refine decide_eq_false fun bang => stops.quote (congrArg TokenKind.ident quote) ?_
    rw [Parser.kind_behind_eq, here] at bang
    rw [Parser.peek_kind, Parser.peek_eq, Parser.rest_step here, List.head?_eq_getElem?]
    obtain ⟨next, first, kind⟩ := Option.map_eq_some_iff.mp bang
    have first : tokens[0]? = some next := first
    rw [first]
    exact kind
  have no_paren : decide (p.step.peek_kind = .lParen) = false := by
    refine decide_eq_false fun same => ?_
    have operand := stops.operand
    rw [same] at operand
    cases operand
  have no_path : decide (p.step.peek_kind = .colonColon) = false := decide_eq_false (stops.path name rfl)
  obtain ⟨n, fuel⟩ : ∃ n, again.fuel = n + 1 := ⟨again.fuel - 1, by omega⟩
  have loop : ∀ e, record_literal_type_name e = some name →
      rounds (ident_round again p.pos) again.fuel e p.step = some (.ok e, p.step) := by
    intro e named
    rw [fuel]
    exact rounds_ends (ident_round_stops again stops p.pos named)
  refine ⟨with_meta (p.step.consumed_meta p.pos .user) (.ident name), ?_, rfl⟩
  rw [parse_ident_primary, gets_bind, gets_bind, no_quote]
  show (advance >>= fun _ => _) p = _
  rw [advance_bind, moved, bind_ok (parsed_apply _ _ _), at_bind, no_paren, Bool.and_false]
  show (at_ .lParen >>= fun _ => _) p.step = _
  rw [at_bind, no_paren, Bool.and_false]
  show (at_ .colonColon >>= fun _ => _) p.step = _
  rw [at_bind, no_path]
  show (rounds _ _ _ >>= fun _ => _) p.step = _
  rw [bind_ok (loop _ (record_name_with_meta _ name))]
  exact parse_postfix_stops others again some_ stops.operand p.pos _

theorem parse_literal_stops (some_ : 0 < again.fuel) (stops : continues p.peek_kind = false)
    (start_pos : Nat) (value : Lit) :
    ∃ e, parse_literal others again start_pos value p = some (.ok e, p) ∧ unlocated e = .literal value := by
  refine ⟨_, ?_, with_meta_unlocated (p.consumed_meta start_pos .user) (.literal value)⟩
  rw [parse_literal, bind_ok (parsed_apply _ _ _)]
  exact parse_postfix_stops others again some_ stops start_pos _

/-- A keyword that stands for a name. -/
theorem with_postfix_stops (moved : p.advance = p.step) (some_ : 0 < again.fuel)
    (stops : continues p.step.peek_kind = false) (start_pos : Nat) (name : String) :
    ∃ e, with_postfix others again start_pos (return .ident name) p = some (.ok e, p.step) ∧
      unlocated e = .ident name := by
  refine ⟨_, ?_, with_meta_unlocated (p.step.consumed_meta start_pos .user) (.ident name)⟩
  unfold with_postfix
  rw [advance_bind, moved]
  show (parsed_expr_from start_pos (.ident name) >>= fun e => parse_postfix others again e start_pos) p.step = _
  rw [bind_ok (parsed_apply _ _ _)]
  exact parse_postfix_stops others again some_ stops start_pos _

/-- An operand of one token is read as its value. -/
theorem parse_primary_atom {value : Expr} (here : p.rest = t :: tokens)
    (atom : atom_value others t.kind = some value) (stops : Stops p.step t.kind) (some_ : 0 < again.fuel) :
    ∃ e, parse_primary others again p = some (.ok e, p.step) ∧ unlocated e = value := by
  have moved : t.kind ≠ .eof → p.advance = p.step := Parser.advance_cons here
  have literal : ∀ lit : Lit, t.kind ≠ .eof →
      ∃ e, (advance >>= fun _ => parse_literal others again p.pos lit) p = some (.ok e, p.step) ∧
        unlocated e = .literal lit := by
    intro lit more
    rw [advance_bind, moved more]
    exact parse_literal_stops others again some_ stops.operand p.pos lit
  rw [parse_primary, gets_bind, gets_bind, Parser.peek_cons here]
  obtain ⟨kind, line, col, end_line, end_col⟩ := t
  dsimp only at atom stops moved literal ⊢
  cases kind
  case int s =>
    rw [atom_value] at atom
    cases found : int_value s with
    | error e =>
        rw [found] at atom
        cases atom
    | ok v =>
        rw [found] at atom
        obtain rfl := Option.some.inj atom
        show ∃ e, (advance >>= fun _ => _) p = _ ∧ _
        rw [advance_bind, moved nofun, found]
        exact parse_literal_stops others again some_ stops.operand p.pos (.int v)
  case float s =>
    rw [atom_value] at atom
    show ∃ e, (advance >>= fun _ => _) p = _ ∧ _
    rw [advance_bind, moved nofun]
    split at atom
    · rename_i bits found
      obtain rfl := Option.some.inj atom
      rw [found]
      exact parse_literal_stops others again some_ stops.operand p.pos (.float bits)
    · cases atom
  case ident name =>
    obtain rfl := Option.some.inj atom
    obtain ⟨e, read, same⟩ := parse_ident_primary_stops others again here rfl stops some_
    refine ⟨_, ?_, (with_meta_unlocated (p.step.consumed_meta p.pos (expr_origin e)) e).trans same⟩
    show (parse_ident_primary others again name >>= fun e => parsed_expr_from p.pos e) p = _
    rw [bind_ok read]
    rfl
  case string s =>
    obtain rfl := Option.some.inj atom
    exact literal _ nofun
  case true_ =>
    obtain rfl := Option.some.inj atom
    exact literal _ nofun
  case false_ =>
    obtain rfl := Option.some.inj atom
    exact literal _ nofun
  case unit =>
    obtain rfl := Option.some.inj atom
    exact literal _ nofun
  all_goals first
    | cases atom; done
    | (obtain rfl := Option.some.inj atom
       exact with_postfix_stops others again (moved nofun) some_ stops.operand p.pos _)

/-! ### Prefix operators -/

/-- What is read one level deeper. -/
theorem parse_unary_of_inner {e : Expr} (few : p.recursion_depth < DEPTH_MAX_DEFAULT)
    (read : parse_unary_inner others again (inc_depth p) = some (.ok e, p')) :
    ∃ e', parse_unary others again p = some (.ok e', dec_depth p') ∧ unlocated e' = unlocated e :=
  ⟨_, deeper_ok few read, with_meta_unlocated _ e⟩

theorem stops_inc {kind : TokenKind} (stops : Stops p.step kind) : Stops (inc_depth p).step kind :=
  ⟨stops.operand, stops.path, stops.quote, stops.record⟩

/-- An operand of one token. -/
theorem parse_unary_atom {value : Expr} (few : p.recursion_depth < DEPTH_MAX_DEFAULT) (here : p.rest = t :: tokens)
    (atom : atom_value others t.kind = some value) (stops : Stops p.step t.kind) (some_ : 0 < again.fuel) :
    ∃ e, parse_unary others again p = some (.ok e, p.step) ∧ unlocated e = value := by
  obtain ⟨e, read, same⟩ := parse_primary_atom others again (p := inc_depth p) here atom (stops_inc stops) some_
  have no_call : (inc_depth p).kind_behind 1 ≠ some .lParen := by
    intro call
    have same : p.step.peek_kind = .lParen := by
      rw [Parser.kind_behind_eq, Parser.rest_inc, here] at call
      obtain ⟨next, first, kind⟩ := Option.map_eq_some_iff.mp call
      have first : tokens[0]? = some next := first
      rw [Parser.peek_kind, Parser.peek_eq, Parser.rest_step here, List.head?_eq_getElem?, first]
      exact kind
    have operand := stops.operand
    rw [same] at operand
    cases operand
  have inner : parse_unary_inner others again (inc_depth p) = parse_primary others again (inc_depth p) := by
    rw [parse_unary_inner, peek_kind_bind, Parser.peek_kind_inc, Parser.peek_kind_cons here]
    generalize t.kind = kind at atom
    cases kind
    case old =>
      show (gets (fun p => p.kind_behind 1) >>= fun _ => _) (inc_depth p) = _
      rw [gets_bind, if_neg no_call]
    all_goals first | rfl | cases atom
  obtain ⟨e', read', same'⟩ := parse_unary_of_inner others again few (inner.trans read)
  exact ⟨e', read', same'.trans same⟩

/-- The prefix operators, as their tokens spell them. -/
inductive Prefix where
  | neg
  | bang
  | notOp
  | not
  | ref
  | refMut
  | deref
deriving DecidableEq, Repr

namespace Prefix

def kinds : Prefix → List TokenKind
  | neg => [.minus]
  | bang => [.bang]
  | notOp => [.notOp]
  | not => [.not]
  | ref => [.bitAnd]
  | refMut => [.bitAnd, .mut_]
  | deref => [.star]

def op : Prefix → UnOp
  | neg => .neg
  | bang | notOp | not => .not
  | ref => .ref
  | refMut => .refMut
  | deref => .deref

end Prefix

/-- What a prefix operator asks of the token behind it. -/
structure Opens (kind : TokenKind) : Prop where
  operand : begins_operand kind = true
  no_paren : kind ≠ .lParen
  no_min : i64_min_ahead kind = false

theorem Opens.no_mut {kind : TokenKind} (opens : Opens kind) : kind ≠ .mut_ := by
  rintro rfl
  cases opens.operand

/-- A prefix operator with an operand behind it. -/
theorem parse_unary_prefixed {p₁ : Parser} {pre : Prefix} {spelled : List Token}
    {e : Expr} (few : p.recursion_depth < DEPTH_MAX_DEFAULT)
    (here : p.rest = spelled ++ t :: tokens) (kinds : spelled.map Token.kind = pre.kinds) (opens : Opens t.kind)
    (behind : p₁ = p.forward spelled.length) (read : again.parse_unary (inc_depth p₁) = some (.ok e, p')) :
    ∃ e', parse_unary others again p = some (.ok e', dec_depth p') ∧ unlocated e' = .unary pre.op e := by
  subst behind
  have one : ∀ {a : TokenKind}, spelled.map Token.kind = [a] → a ≠ .eof →
      p.peek_kind = a ∧ (inc_depth p).advance = inc_depth (p.forward spelled.length) ∧
        (inc_depth (p.forward spelled.length)).peek_kind = t.kind := by
    intro a same more
    obtain ⟨u, rfl, rfl⟩ := List.map_eq_singleton_iff.mp same
    have moved := Parser.advance_cons (p := inc_depth p) here more
    exact ⟨Parser.peek_kind_cons here, moved, Parser.peek_kind_cons (Parser.rest_step here)⟩
  have plain : ∀ {a : TokenKind} {op : UnOp}, spelled.map Token.kind = [a] → a ≠ .eof →
      prefixed again op (inc_depth p) = some (.ok (.unary op e), p') := by
    intro a op same more
    obtain ⟨-, moved, -⟩ := one same more
    rw [prefixed, advance_bind, moved]
    exact bind_ok read _
  have inner : parse_unary_inner others again (inc_depth p) = some (.ok (.unary pre.op e), p') := by
    rw [parse_unary_inner, peek_kind_bind, Parser.peek_kind_inc]
    cases pre
    case neg =>
      obtain ⟨first, moved, next⟩ := one kinds nofun
      rw [first]
      show (advance >>= fun _ => _) (inc_depth p) = _
      rw [advance_bind, moved, peek_kind_bind, next, opens.no_min]
      exact bind_ok read _
    case bang =>
      rw [(one kinds nofun).1]
      exact plain kinds nofun
    case notOp =>
      rw [(one kinds nofun).1]
      exact plain kinds nofun
    case deref =>
      rw [(one kinds nofun).1]
      exact plain kinds nofun
    case not =>
      obtain ⟨first, -, -⟩ := one kinds nofun
      obtain ⟨u, rfl, -⟩ := List.map_eq_singleton_iff.mp kinds
      have operator : not_is_unary_operator (inc_depth p) = true := by
        have second : (inc_depth p).kind_behind 1 = some t.kind := by
          rw [Parser.kind_behind_eq, Parser.rest_inc, here]
          rfl
        rw [not_is_unary_operator, second]
        show (if _ then false else _) = true
        rw [if_neg (fun both => opens.no_paren both.1)]
        exact opens.operand
      rw [first]
      show (gets not_is_unary_operator >>= fun _ => _) (inc_depth p) = _
      rw [gets_bind, operator]
      exact plain kinds nofun
    case ref =>
      obtain ⟨first, moved, next⟩ := one kinds nofun
      rw [first]
      show (advance >>= fun _ => _) (inc_depth p) = _
      rw [advance_bind, moved, at_bind, next, decide_eq_false opens.no_mut]
      exact bind_ok read _
    case refMut =>
      obtain ⟨u, v, rfl, ampersand, mutable⟩ : ∃ u v, spelled = [u, v] ∧ u.kind = .bitAnd ∧ v.kind = .mut_ := by
        obtain ⟨u, more, rfl, ampersand, kinds⟩ := List.map_eq_cons_iff.mp kinds
        obtain ⟨v, rfl, mutable⟩ := List.map_eq_singleton_iff.mp kinds
        exact ⟨u, v, rfl, ampersand, mutable⟩
      have first : p.peek_kind = .bitAnd := (Parser.peek_kind_cons here).trans ampersand
      have moved : (inc_depth p).advance = (inc_depth p).step :=
        Parser.advance_cons here (by rw [ampersand]; nofun)
      have there : (inc_depth p).step.rest = v :: t :: tokens := Parser.rest_step here
      have moved_again : (inc_depth p).step.advance = (inc_depth p).step.step :=
        Parser.advance_cons there (by rw [mutable]; nofun)
      have second : (inc_depth p).step.peek_kind = .mut_ := (Parser.peek_kind_cons there).trans mutable
      rw [first]
      show (advance >>= fun _ => _) (inc_depth p) = _
      rw [advance_bind, moved, at_bind, second]
      show prefixed again .refMut (inc_depth p).step = _
      rw [prefixed, advance_bind, moved_again]
      exact bind_ok read _
  exact parse_unary_of_inner others again few inner

/-- An f-string, whose parts another parser reads. -/
theorem parse_unary_fstring {raw : String} {parts : List FStringPart}
    (few : p.recursion_depth < DEPTH_MAX_DEFAULT) (here : p.rest = t :: tokens) (kind : t.kind = .fString raw)
    (read : others.parse_fstring_parts raw t.line t.col (inc_depth p).step = some (.ok parts, (inc_depth p).step))
    (stops : continues p.step.peek_kind = false) (some_ : 0 < again.fuel) :
    ∃ e, parse_unary others again p = some (.ok e, p.step) ∧ unlocated e = .literal (.fString parts) := by
  have moved : (inc_depth p).advance = (inc_depth p).step :=
    Parser.advance_cons (p := inc_depth p) here (by rw [kind]; nofun)
  obtain ⟨e, literal, same⟩ :=
    parse_literal_stops others again (p := (inc_depth p).step) some_ stops p.pos (.fString parts)
  have inner : parse_unary_inner others again (inc_depth p) = some (.ok e, inc_depth p.step) := by
    rw [parse_unary_inner, peek_kind_bind, Parser.peek_kind_inc, Parser.peek_kind_cons here, kind]
    show parse_primary others _ (inc_depth p) = _
    rw [parse_primary, gets_bind, gets_bind, Parser.peek_cons (p := inc_depth p) here, kind]
    show (advance >>= fun _ => _) (inc_depth p) = _
    rw [advance_bind, moved, bind_ok read]
    exact literal
  obtain ⟨e', read', same'⟩ := parse_unary_of_inner others again few inner
  exact ⟨e', read', same'.trans same⟩

/-- `-` in front of the magnitude of the least integer. -/
theorem parse_unary_least {minus : Token} {s : String}
    (few : p.recursion_depth < DEPTH_MAX_DEFAULT) (here : p.rest = minus :: t :: tokens) (sign : minus.kind = .minus)
    (kind : t.kind = .int s) (least : is_i64_min_magnitude (cleaned s) = true) :
    ∃ e, parse_unary others again p = some (.ok e, p.step.step) ∧ unlocated e = .literal (.int (-2 ^ 63)) := by
  have there : (inc_depth p.step).rest = t :: tokens := Parser.rest_step here
  have inner : parse_unary_inner others again (inc_depth p) =
      some (.ok (.literal (.int (-2 ^ 63))), inc_depth p.step.step) := by
    have moved : (inc_depth p).advance = inc_depth p.step :=
      Parser.advance_cons (p := inc_depth p) here (by rw [sign]; nofun)
    have moved_again : (inc_depth p.step).advance = inc_depth p.step.step :=
      Parser.advance_cons there (by rw [kind]; nofun)
    rw [parse_unary_inner, peek_kind_bind, Parser.peek_kind_inc, Parser.peek_kind_cons here, sign]
    show (advance >>= fun _ => _) (inc_depth p) = _
    rw [advance_bind, moved, peek_kind_bind, Parser.peek_kind_cons there, kind, i64_min_ahead, least, if_pos rfl,
      advance_bind, moved_again]
    rfl
  exact parse_unary_of_inner others again few inner

end Grammar

@[simp] theorem upTo_fuel (others : OtherParsers) (n : Nat) : (Again.upTo others n).fuel = n := by
  cases n <;> rfl

/-- Parsers that never return, for operands that need none of them. -/
def OtherParsers.absent : OtherParsers where
  parse_if_expr := diverge
  parse_fstring_parts _ _ _ := diverge
  parse_match_arms := diverge
  parse_block := diverge
  parse_params := diverge
  parse_type := diverge
  expect_gt _ := diverge
  expect_block_start _ := diverge
  try_parse_map_literal := diverge
  try_parse_set_literal := diverge
  is_sketch := false
  parse_float _ := none

end Mimi.Parsing
