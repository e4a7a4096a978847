/-
Module: Mimi.Parser.Expr
Purpose: The parser of expressions: the loops over binary operators, prefix operators, primary expressions,
  postfix operations with calls, indices and slices, and the tie between them.
Trusted boundary: human-reviewed translation of `parser/parse_expr.rs`; the parsers of statements, types, patterns,
  f-strings and blocks are parameters, as is the reading of a float
-/
import Mimi.Parser.State

namespace Mimi.Parsing

open Mimi.Lexer Mimi.Ast Mimi.Lib Run

/-- The parsers that expressions use and that are not theirs. -/
structure OtherParsers where
  parse_if_expr : Parse Expr
  parse_fstring_parts : (raw : String) → (line col : Nat) → Parse (List FStringPart)
  parse_match_arms : Parse (List MatchArm)
  parse_block : Parse (List Stmt)
  parse_params : Parse (List Param)
  parse_type : Parse Ty
  /-- `expect_gt`, which may split the token `>>`. -/
  expect_gt : String → Parse Unit
  expect_block_start : String → Parse Unit
  try_parse_map_literal : Parse (Option (List (Expr × Expr)))
  try_parse_set_literal : Parse (Option (List Expr))
  is_sketch : Bool
  /-- The bits of a float, where its text is one, and whether it is finite. -/
  parse_float : String → Option (UInt64 × Bool)

/-- The parsers of expressions as they call each other, with a bound on the rounds of their loops. -/
structure Again where
  fuel : Nat
  parse_expr : (min_prec : Nat) → Parse Expr
  parse_expr_without_range : Parse Expr
  parse_unary : Parse Expr

/-! ### Binary operators -/

/-- The operators with their precedence, and whether they associate to the right. -/
def binary_op : TokenKind → Option (BinOp × Nat × Bool)
  | .orOr | .or => some (.or, 1, false)
  | .andAnd | .and => some (.and, 2, false)
  | .eqEq => some (.eqCmp, 3, false)
  | .ne => some (.neCmp, 3, false)
  | .dotDot => some (.range, 4, false)
  | .lt => some (.lt, 4, false)
  | .gt => some (.gt, 4, false)
  | .le => some (.le, 4, false)
  | .ge => some (.ge, 4, false)
  | .bitOr => some (.bitOr, 5, false)
  | .bitXor => some (.bitXor, 6, false)
  | .bitAnd => some (.bitAnd, 7, false)
  | .shl => some (.shl, 8, false)
  | .shr => some (.shr, 8, false)
  | .plus => some (.add, 9, false)
  | .minus => some (.sub, 9, false)
  | .star => some (.mul, 10, false)
  | .slash => some (.div, 10, false)
  | .percent => some (.mod, 10, false)
  | .pow => some (.pow, 11, true)
  | _ => none

/-- The table of `parse_expr_without_range`, which stops in front of `..`. -/
def binary_op_without_range : TokenKind → Option (BinOp × Nat × Bool)
  | .orOr | .or => some (.or, 1, false)
  | .andAnd | .and => some (.and, 2, false)
  | .eqEq => some (.eqCmp, 3, false)
  | .ne => some (.neCmp, 3, false)
  | .lt => some (.lt, 4, false)
  | .gt => some (.gt, 4, false)
  | .le => some (.le, 4, false)
  | .ge => some (.ge, 4, false)
  | .bitOr => some (.bitOr, 5, false)
  | .bitXor => some (.bitXor, 6, false)
  | .bitAnd => some (.bitAnd, 7, false)
  | .shl => some (.shl, 8, false)
  | .shr => some (.shr, 8, false)
  | .plus => some (.add, 9, false)
  | .minus => some (.sub, 9, false)
  | .star => some (.mul, 10, false)
  | .slash => some (.div, 10, false)
  | .percent => some (.mod, 10, false)
  | .pow => some (.pow, 11, true)
  | _ => none

/-- The precedence that a right operand has to have at least. -/
def next_min (prec : Nat) (right_assoc : Bool) : Nat := if right_assoc then prec else prec + 1

/-- The left side of `|>` becomes the first argument of the right side. -/
def desugar_pipe (lhs rhs : Expr) : Parse Expr :=
  match unlocated rhs with
  | .ident _ | .field _ _ => return .call rhs [lhs]
  | .call callee args => return .call callee (lhs :: args)
  | .turbofish func_name type_args args => return .turbofish func_name type_args (lhs :: args)
  | _ => fail fun _ => "right side of |> must be a function call or name"

section Grammar

variable (others : OtherParsers) (again : Again)

/-- `|>` with its right side. -/
def pipe_round (start_pos : Nat) (lhs : Expr) : Parse (Expr ⊕ Expr) := do
  advance
  let rhs ← again.parse_expr 1
  let piped ← desugar_pipe lhs rhs
  gets fun p => .inl (with_meta (p.consumed_meta start_pos (.desugared "parser.pipe")) piped)

/-- A round of the loop of `parse_expr_inner`. -/
def expr_round (min_prec start_pos : Nat) (lhs : Expr) : Parse (Expr ⊕ Expr) := do
  if (← at_ .pipeArrow) && min_prec = 0 then pipe_round again start_pos lhs
  else
    modify Parser.try_skip_newlines_for_boolean_op
    match binary_op (← peek_kind) with
    | none => return .inr lhs
    | some (op, prec, right_assoc) =>
        if prec < min_prec then return .inr lhs
        else
          advance
          skip_newlines
          let rhs ← again.parse_expr (next_min prec right_assoc)
          let e ← parsed_expr_from start_pos (.binary op lhs rhs)
          return .inl e

def parse_expr_inner (min_prec start_pos : Nat) : Parse Expr := do
  let lhs ← again.parse_unary
  rounds (expr_round again min_prec start_pos) again.fuel lhs

def parse_expr (min_prec : Nat) : Parse Expr := deeper (parse_expr_inner again min_prec)

/-- A round of the loop of `parse_expr_without_range_inner`. -/
def without_range_round (start_pos : Nat) (lhs : Expr) : Parse (Expr ⊕ Expr) := do
  if ← at_ .pipeArrow then pipe_round again start_pos lhs
  else
    modify Parser.try_skip_newlines_for_boolean_op
    match binary_op_without_range (← peek_kind) with
    | none => return .inr lhs
    | some (op, prec, right_assoc) =>
        advance
        let rhs ← again.parse_expr (next_min prec right_assoc)
        let e ← parsed_expr_from start_pos (.binary op lhs rhs)
        return .inl e

def parse_expr_without_range_inner (start_pos : Nat) : Parse Expr := do
  let lhs ← again.parse_unary
  rounds (without_range_round again start_pos) again.fuel lhs

def parse_expr_without_range : Parse Expr := deeper (parse_expr_without_range_inner again)

/-! ### Postfix operations -/

/-- Whether a name with `=` comes next. -/
def peek_named_arg (p : Parser) : Option String :=
  match p.peek_kind, p.kind_behind 1 with
  | .ident name, some .eq => some name
  | _, _ => none

def args_round (args : List Expr) : Parse (List Expr ⊕ List Expr) := do
  skip_newlines
  if (← at_ .mutate) || (← at_ .view) then advance
  let arg_start ← gets Parser.pos
  let arg ←
    match ← gets peek_named_arg with
    | some name => do
        let _ ← expect_ident
        expect .eq "`=`"
        let value ← again.parse_expr 0
        parsed_expr_from arg_start (.namedArg name value)
    | none => again.parse_expr 0
  skip_newlines
  if ← at_ .comma then
    advance
    skip_newlines
    return .inl (args ++ [arg])
  else return .inr (args ++ [arg])

def parse_args : Parse (List Expr) := do
  skip_newlines
  if ← at_ .rParen then return []
  else rounds (args_round again) again.fuel []

/-- `expr[i]` and `expr[start..end]`, whose bounds may be left out. -/
def parse_slice_or_index (target : Expr) (target_start : Nat) : Parse Expr := do
  advance
  skip_newlines
  if ← at_ .dotDot then
    advance
    skip_newlines
    let end_ ← if ← at_ .rBracket then pure none else some <$> again.parse_expr 0
    skip_newlines
    expect .rBracket "`]`"
    parsed_expr_from target_start (.sliceExpr target none end_)
  else
    let first ← again.parse_expr_without_range
    skip_newlines
    if ← at_ .dotDot then
      advance
      let end_ ←
        if ← at_ .rBracket then pure none
        else do
          skip_newlines
          some <$> again.parse_expr 0
      skip_newlines
      expect .rBracket "`]`"
      parsed_expr_from target_start (.sliceExpr target (some first) end_)
    else
      expect .rBracket "`]`"
      parsed_expr_from target_start (.index target first)

/-- `s.replace('_', "").parse::<usize>()`. -/
def parse_usize (s : String) : Option Nat :=
  let digits := match cleaned s with
    | '+' :: digits => digits
    | digits => digits
  if digits ≠ [] ∧ (digits.all is_ascii_digit) ∧ radixValue 10 digits < 2 ^ 64 then some (radixValue 10 digits)
  else none

def tuple_index (s : String) : Parse Nat :=
  match parse_usize s with
  | none => fail fun _ => "invalid tuple index"
  | some idx => do
      advance
      return idx

def postfix_round (start_pos : Nat) (e : Expr) : Parse (Expr ⊕ Expr) := do
  match ← peek_kind with
  | .question =>
      if (← gets fun p => p.kind_behind 1) = some .dot then
        advance
        advance
        match ← peek_kind with
        | .int s => do
            let idx ← tuple_index s
            let e ← parsed_expr_from start_pos (.optionalChain e (toString idx))
            return .inl e
        | _ => do
            let field ← expect_ident
            let e ← parsed_expr_from start_pos (.optionalChain e field)
            return .inl e
      else
        advance
        let e ← parsed_expr_from start_pos (.try_ e)
        return .inl e
  | .lParen => do
      advance
      let args ← parse_args again
      skip_newlines
      expect .rParen "`)`"
      let e ← parsed_expr_from start_pos (.call e args)
      return .inl e
  | .dot => do
      advance
      match ← peek_kind with
      | .int s => do
          let idx ← tuple_index s
          let e ← parsed_expr_from start_pos (.tupleIndex e idx)
          return .inl e
      | _ => do
          let field ← expect_ident
          let e ← parsed_expr_from start_pos (.field e field)
          return .inl e
  | .lBracket => do
      let e ← parse_slice_or_index again e start_pos
      return .inl e
  | _ => return .inr e

def parse_postfix (e : Expr) (start_pos : Nat) : Parse Expr := do
  let e ← rounds (postfix_round again start_pos) again.fuel e
  if ← at_ .as_ then
    advance
    let target_type ← others.parse_type
    parsed_expr_from start_pos (.cast e target_type)
  else return e

/-! ### Names -/

/-- The type name of an expression that a record may begin with. -/
def record_literal_type_name : Expr → Option String
  | .located _ e => record_literal_type_name e
  | .ident name => some name
  | .field obj field => do
      let front ← record_literal_type_name obj
      some s!"{front}::{field}"
  | _ => none

def record_field_round (fields : List RecordFieldExpr) :
    Parse (List RecordFieldExpr ⊕ (List RecordFieldExpr × Option Expr)) := do
  if (← at_ .rBrace) || (← at_ .eof) then return .inr (fields, none)
  else if ← at_ .dotDot then
    advance
    let rest ← again.parse_expr 0
    skip_newlines
    return .inr (fields, some rest)
  else
    let field_start ← gets Parser.pos
    let name ← expect_ident
    let value ←
      if ← at_ .colon then do
        advance
        again.parse_expr 0
      else gets fun p =>
        with_meta (p.consumed_meta field_start (.desugared "parser.record_shorthand")) (.ident name)
    let info ← gets fun p => p.consumed_meta field_start .user
    let fields := fields ++ [⟨info, name, value⟩]
    skip_newlines
    if ← at_ .comma then
      advance
      skip_newlines
      return .inl fields
    else return .inr (fields, none)

def parse_record_expr_fields : Parse (List RecordFieldExpr × Option Expr) := do
  skip_newlines
  rounds (record_field_round again) again.fuel []

/-- The field behind a dot, which may be `spawn` or `await`. -/
def field_name : Parse String := do
  match ← peek_kind with
  | .spawn => do
      advance
      return "spawn"
  | .await => do
      advance
      return "await"
  | _ => expect_ident

/-- Whether `{` makes an expression a record.  Names begin with ASCII characters. -/
def begins_record (e : Expr) : Option String :=
  (record_literal_type_name e).filter fun name => name.toList.head?.any Char.isUpper

def ident_round (start_pos : Nat) (e : Expr) : Parse (Expr ⊕ Expr) := do
  match ← peek_kind with
  | .lParen => do
      advance
      let args ← parse_args again
      expect .rParen "`)`"
      let e ← parsed_expr_from start_pos (.call e args)
      return .inl e
  | .dot => do
      advance
      match ← peek_kind with
      | .int s => do
          let idx ← tuple_index s
          let e ← parsed_expr_from start_pos (.tupleIndex e idx)
          return .inl e
      | _ => do
          let field ← field_name
          let e ← parsed_expr_from start_pos (.field e field)
          return .inl e
  | .lBracket => do
      let e ← parse_slice_or_index again e start_pos
      return .inl e
  | .lBrace => do
      if ← gets Parser.allow_record_literal then
        match begins_record e with
        | some ty_name => do
            advance
            let (fields, rest) ← parse_record_expr_fields again
            expect .rBrace "`\x7d`"
            let e ← parsed_expr_from start_pos (.record (some ty_name) fields rest)
            return .inl e
        | none => return .inr e
      else return .inr e
  | _ => return .inr e

/-- The types of a turbofish, behind the first one. -/
def type_args_round (type_args : List Ty) : Parse (List Ty ⊕ List Ty) := do
  let ty ← others.parse_type
  if ← at_ .comma then
    advance
    return .inl (type_args ++ [ty])
  else return .inr (type_args ++ [ty])

/-- More fields behind `::`. -/
def path_round (start_pos : Nat) (e : Expr) : Parse (Expr ⊕ Expr) := do
  if ← at_ .colonColon then
    advance
    let field ← expect_ident
    let e ← parsed_expr_from start_pos (.field e field)
    return .inl e
  else return .inr e

/-- A name with `::` behind it. -/
def parse_path (name : String) (ident : Expr) (start_pos : Nat) : Parse Expr := do
  advance
  if ← at_ .lt then
    advance
    let type_args ←
      if ← at_ .gt then pure [] else rounds (type_args_round others) again.fuel []
    others.expect_gt "`>`"
    expect .lParen "`(`"
    let args ← parse_args again
    expect .rParen "`)`"
    parsed_expr_from start_pos (.turbofish name type_args args)
  else
    let field ← expect_ident
    let e ← parsed_expr_from start_pos (.field ident field)
    let e ← rounds (path_round start_pos) again.fuel e
    if ← at_ .lParen then
      advance
      let args ← parse_args again
      expect .rParen "`)`"
      parsed_expr_from start_pos (.call e args)
    else return e

def parse_ident_primary (name : String) : Parse Expr := do
  let start_pos ← gets Parser.pos
  if name = "quote" && (← gets fun p => p.kind_behind 1) = some .bang then
    let next ← gets fun p => p.advance.peek
    throw ⟨"`quote! \x7b ... \x7d` has been removed in 0.1.7 Phase E; use `comptime \x7b ... \x7d` for constant folding",
      next.line, next.col⟩
  else
    advance
    let ident ← parsed_expr_from start_pos (.ident name)
    if name = "type_name" && (← at_ .lParen) then
      advance
      let inner ← again.parse_expr 0
      expect .rParen "`)` for type_name"
      parsed_expr_from start_pos (.typeOf inner)
    else if name = "type_info" && (← at_ .lParen) then
      advance
      let ty ← others.parse_type
      expect .rParen "`)` for type_info"
      parsed_expr_from start_pos (.typeInfo ty)
    else if ← at_ .colonColon then parse_path others again name ident start_pos
    else
      let e ← rounds (ident_round again start_pos) again.fuel ident
      parse_postfix others again e start_pos

/-! ### Primary expressions -/

/-- More elements behind a comma, in brackets. -/
def elems_round (elems : List Expr) : Parse (List Expr ⊕ List Expr) := do
  skip_newlines
  if ← at_ .comma then
    advance
    skip_newlines
    if ← at_ .rBracket then return .inr elems
    else
      let e ← again.parse_expr 0
      return .inl (elems ++ [e])
  else return .inr elems

/-- A list, or a comprehension. -/
def parse_bracket_primary : Parse Expr := do
  let start_pos ← gets Parser.pos
  advance
  skip_newlines
  if ← at_ .rBracket then
    advance
    let list ← parsed_expr_from start_pos (.list [])
    parse_postfix others again list start_pos
  else
    let first_expr ← again.parse_expr 0
    skip_newlines
    if ← at_ .for_ then
      advance
      let var ← expect_ident
      expect .in_ "`in`"
      let iter ← again.parse_expr 0
      skip_newlines
      let guard ←
        if ← at_ .if_ then do
          advance
          some <$> again.parse_expr 0
        else pure none
      expect .rBracket "`]`"
      let comprehension ← parsed_expr_from start_pos (.comprehension first_expr var iter guard)
      parse_postfix others again comprehension start_pos
    else
      let elems ← rounds (elems_round again) again.fuel [first_expr]
      expect .rBracket "`]`"
      let list ← parsed_expr_from start_pos (.list elems)
      parse_postfix others again list start_pos

/-- More elements behind a comma, in parentheses. -/
def tuple_round (elems : List Expr) : Parse (List Expr ⊕ List Expr) := do
  if ← at_ .comma then
    advance
    skip_newlines
    let e ← again.parse_expr 0
    skip_newlines
    return .inl (elems ++ [e])
  else return .inr elems

/-- A unit, a tuple or a group. -/
def parse_paren_primary (start_pos : Nat) : Parse Expr := do
  advance
  skip_newlines
  if ← at_ .rParen then
    advance
    parsed_expr_from start_pos (.literal .unit)
  else
    let e ← again.parse_expr 0
    skip_newlines
    if ← at_ .comma then
      let elems ← rounds (tuple_round again) again.fuel [e]
      expect .rParen "`)`"
      parsed_expr_from start_pos (.tuple elems)
    else
      expect .rParen "`)`"
      let grouped ← parsed_expr_from start_pos e
      parse_postfix others again grouped start_pos

/-- The value of an integer, or what is wrong with it. -/
def int_value (s : String) : Except String Int :=
  match cleaned s with
  | '0' :: letter :: digits =>
      if letter = 'x' || letter = 'X' then (from_str_radix 16 digits).elim (.error "invalid hex integer") .ok
      else if letter = 'b' || letter = 'B' then (from_str_radix 2 digits).elim (.error "invalid binary integer") .ok
      else if letter = 'o' || letter = 'O' then (from_str_radix 8 digits).elim (.error "invalid octal integer") .ok
      else (from_str_radix 10 ('0' :: letter :: digits)).elim (.error "invalid integer") .ok
  | digits => (from_str_radix 10 digits).elim (.error "invalid integer") .ok

/-- A literal of one token, with what stands behind it. -/
def parse_literal (start_pos : Nat) (value : Lit) : Parse Expr := do
  let literal ← parsed_expr_from start_pos (.literal value)
  parse_postfix others again literal start_pos

/-- An expression behind a keyword, with what stands behind it. -/
def with_postfix (start_pos : Nat) (inner : Parse Expr) : Parse Expr := do
  advance
  let e ← inner
  let e ← parsed_expr_from start_pos e
  parse_postfix others again e start_pos

/-- An error at a token that has been passed. -/
def fail_at {β : Type} (message : String) (token : Token) : Parse β := throw ⟨message, token.line, token.col⟩

def parse_match : Parse Expr := do
  let saved ← gets Parser.allow_record_literal
  modify fun p => { p with allow_record_literal := false }
  let e ← again.parse_expr 0
  modify fun p => { p with allow_record_literal := saved }
  skip_newlines
  expect .lBrace "`\x7b`"
  let arms ← others.parse_match_arms
  expect .rBrace "`\x7d`"
  return .match_ e arms

/-- A block behind a keyword. -/
def parse_keyword_block (keyword : String) : Parse (List Stmt) := do
  skip_newlines
  expect .lBrace s!"`\x7b` for {keyword} block"
  others.parse_block

def parse_lambda : Parse Expr := do
  expect .lParen "`(`"
  let params ← others.parse_params
  expect .rParen "`)`"
  let ret ←
    if ← at_ .arrow then do
      advance
      some <$> others.parse_type
    else pure none
  skip_newlines
  if others.is_sketch then
    expect .colon "`:`"
    skip_newlines
  others.expect_block_start "closure body"
  let body ← others.parse_block
  return .lambda params ret body

/-- A map, a set or a block. -/
def parse_braces : Parse Expr := do
  match ← others.try_parse_map_literal with
  | some entries => return .mapLiteral entries
  | none =>
      match ← others.try_parse_set_literal with
      | some elems => return .setLiteral elems
      | none => do
          let block ← others.parse_block
          return .block block

def parse_primary : Parse Expr := do
  let start_pos ← gets Parser.pos
  let token ← gets Parser.peek
  match token.kind with
  | .int s => do
      advance
      match int_value s with
      | .error message => fail_at message token
      | .ok v => parse_literal others again start_pos (.int v)
  | .float s => do
      advance
      match others.parse_float (String.ofList (cleaned s)) with
      | none => fail_at "invalid float" token
      | some (_, false) =>
          fail_at (s!"[E0813] float literal '{s}' is not finite (SD-9 finiteness invariant) " ++
            "| hint: use ieee_float \x7b \x7d for IEEE 754 semantics") token
      | some (bits, true) => parse_literal others again start_pos (.float bits)
  | .string s => do
      advance
      parse_literal others again start_pos (.string s)
  | .fString raw => do
      advance
      let parts ← others.parse_fstring_parts raw token.line token.col
      parse_literal others again start_pos (.fString parts)
  | .true_ => do
      advance
      parse_literal others again start_pos (.bool true)
  | .false_ => do
      advance
      parse_literal others again start_pos (.bool false)
  | .unit => do
      advance
      parse_literal others again start_pos .unit
  | .ident name => do
      let e ← parse_ident_primary others again name
      parsed_expr_from start_pos e
  | .lParen => parse_paren_primary others again start_pos
  | .lBracket => do
      let e ← parse_bracket_primary others again
      parsed_expr_from start_pos e
  | .match_ => with_postfix others again start_pos (parse_match others again)
  | .spawn => with_postfix others again start_pos (.spawn <$> again.parse_expr 12)
  | .await => with_postfix others again start_pos (.await <$> again.parse_expr 12)
  | .arena => with_postfix others again start_pos (.arena <$> parse_keyword_block others "arena")
  | .comptime => with_postfix others again start_pos (.comptime <$> parse_keyword_block others "comptime")
  | .dollarParen =>
      fail_at ("quote interpolation `$(...)` has been removed in 0.1.7 Phase E; use `comptime \x7b ... \x7d` for " ++
        "constant folding or plain expressions") token
  | .old => with_postfix others again start_pos (return .ident "old")
  | .fn => with_postfix others again start_pos (parse_lambda others)
  | .lBrace => with_postfix others again start_pos (parse_braces others)
  | kind =>
      if is_ident_like_kind kind then with_postfix others again start_pos (return .ident kind.source_text)
      else if is_keyword_kind kind then
        fail_at s!"keyword `{kind.source_text}` cannot start an expression" token
      else fail_at s!"unexpected token {kind.display}" token

/-! ### Prefix operators -/

/-- The tokens that an operand of `not` may begin with. -/
def begins_operand : TokenKind → Bool
  | .int _ | .float _ | .string _ | .fString _ | .true_ | .false_ | .unit | .ident _ | .old | .view | .mutate
  | .persistent | .session | .dual | .end_ | .and | .or | .not | .bang | .notOp | .fault | .reset | .recover
  | .lParen | .if_ | .match_ | .spawn | .await | .arena | .comptime | .fn | .minus | .star | .bitAnd => true
  | _ => false

/-- Whether `not` is an operator here, and no name. -/
def not_is_unary_operator (p : Parser) : Bool :=
  match p.kind_behind 1 with
  | none => false
  | some kind => if kind = .lParen ∧ p.kind_behind 2 = some .rParen then false else begins_operand kind

/-- A prefix operator, which is passed, with its operand. -/
def prefixed (op : UnOp) : Parse Expr := do
  advance
  let e ← again.parse_unary
  return .unary op e

/-- The least integer, which `-` and the text of its magnitude spell. -/
def i64_min_ahead (kind : TokenKind) : Bool :=
  match kind with
  | .int s => is_i64_min_magnitude (cleaned s)
  | _ => false

def parse_unary_inner : Parse Expr := do
  match ← peek_kind with
  | .if_ => others.parse_if_expr
  | .minus => do
      advance
      if i64_min_ahead (← peek_kind) then
        advance
        return .literal (.int (-2 ^ 63))
      else
        let e ← again.parse_unary
        return .unary .neg e
  | .bang | .notOp => prefixed again .not
  | .not => do
      if ← gets not_is_unary_operator then prefixed again .not
      else parse_primary others again
  | .bitAnd => do
      advance
      if ← at_ .mut_ then prefixed again .refMut
      else
        let e ← again.parse_unary
        return .unary .ref e
  | .star => prefixed again .deref
  | .old => do
      if (← gets fun p => p.kind_behind 1) = some .lParen then
        advance
        advance
        let e ← again.parse_expr 0
        expect .rParen "`)`"
        return .old e
      else parse_primary others again
  | _ => parse_primary others again

def parse_unary : Parse Expr := deeper fun _ => parse_unary_inner others again

end Grammar

/-- The parsers of expressions with a number of steps. -/
def Again.upTo (others : OtherParsers) : Nat → Again
  | 0 => ⟨0, fun _ => diverge, diverge, diverge⟩
  | n + 1 =>
      let again := Again.upTo others n
      ⟨n + 1, Parsing.parse_expr again, Parsing.parse_expr_without_range again, Parsing.parse_unary others again⟩

end Mimi.Parsing
