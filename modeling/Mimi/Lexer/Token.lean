/-
Module: Mimi.Lexer.Token
Purpose: The tokens of the lexer, the words that are keywords, and the errors of the lexer.
Trusted boundary: human-reviewed translation of `lexer/token.rs`, `lexer/keywords.rs` and `lexer/errors.rs`
-/
import Mathlib

namespace Mimi.Lexer

inductive TokenKind where
  | int (value : String)
  | float (value : String)
  | string (value : String)
  /-- The raw content of `f"..."`, which the parser splits. -/
  | fString (value : String)
  | ident (name : String)
  | true_ | false_ | unit | type | func | fn | actor | newtype | let_ | const | mut_ | ref | shared | weak
  | arena | cap | trait | impl | dyn | where_ | extern_ | if_ | else_ | for_ | in_ | while_ | return_
  | break_ | continue_ | match_ | use | pub | drop | defer | await | unsafe_ | spawn | parasteps | quote
  | comptime | failure | requires | ensures | invariant | math | old | flow | state | transition | pinned
  | fault | fails | reset | recover | persistent | view | mutate | session | dual | end_ | and | or | not
  | loop | as_ | plus | minus | star | slash | percent | pow | eq | plusEq | minusEq | starEq | slashEq
  | bitAndEq | bitOrEq | bitXorEq | eqEq | ne | lt | gt | le | ge | andAnd | orOr | notOp | bitAnd | bitOr
  | bitXor | shl | shr | tilde | dollarParen | pipeArrow | lParen | rParen | lBrace | rBrace | lBracket
  | rBracket | colon | semi | comma | dot | dotDot | colonColon | arrow | fatArrow | question | bang
  | ellipsis | at_ | hash | newline | indent | dedent | eof
deriving DecidableEq, Repr

namespace TokenKind

/-- The text of a token as the source has it. -/
def source_text : TokenKind → String
  | int value | float value | string value | fString value | ident value => value
  | true_ => "true" | false_ => "false" | unit => "()" | type => "type" | func => "func" | fn => "fn"
  | actor => "actor" | newtype => "newtype" | let_ => "let" | const => "const" | mut_ => "mut"
  | ref => "ref" | shared => "shared" | weak => "weak" | arena => "arena" | cap => "cap" | trait => "trait"
  | impl => "impl" | dyn => "dyn" | where_ => "where" | extern_ => "extern" | if_ => "if" | else_ => "else"
  | for_ => "for" | in_ => "in" | while_ => "while" | return_ => "return" | break_ => "break"
  | continue_ => "continue" | match_ => "match" | use => "use" | pub => "pub" | drop => "drop"
  | defer => "defer" | await => "await" | unsafe_ => "unsafe" | spawn => "spawn" | parasteps => "parasteps"
  | quote => "quote" | comptime => "comptime" | flow => "flow" | state => "state"
  | transition => "transition" | pinned => "pinned" | fault => "fault" | fails => "fails"
  | reset => "reset" | recover => "recover" | persistent => "persistent" | view => "view"
  | mutate => "mutate" | session => "session" | dual => "dual" | end_ => "end" | failure => "failure"
  | requires => "requires" | ensures => "ensures" | invariant => "invariant" | math => "math"
  | old => "old" | and => "and" | or => "or" | not => "not" | plus => "+" | minus => "-" | star => "*"
  | slash => "/" | percent => "%" | pow => "**" | eq => "=" | plusEq => "+=" | minusEq => "-="
  | starEq => "*=" | slashEq => "/=" | eqEq => "==" | ne => "!=" | lt => "<" | gt => ">" | le => "<="
  | ge => ">=" | andAnd => "&&" | orOr => "||" | notOp => "!" | bitAnd => "&" | bitOr => "|"
  | bitXor => "^" | shl => "<<" | shr => ">>" | tilde => "~" | dollarParen => "$(" | lParen => "("
  | rParen => ")" | lBrace => "\x7b" | rBrace => "\x7d" | lBracket => "[" | rBracket => "]" | colon => ":"
  | semi => ";" | comma => "," | dot => "." | dotDot => ".." | colonColon => "::" | arrow => "->"
  | fatArrow => "=>" | question => "?" | bang => "!" | pipeArrow => "|>" | loop => "loop" | as_ => "as"
  | ellipsis => "..." | at_ => "@" | hash => "#" | newline => "\n" | indent => "" | dedent => ""
  | bitAndEq => "&=" | bitOrEq => "|=" | bitXorEq => "^=" | eof => ""

/-- The text of a token in errors. -/
def display : TokenKind → String
  | int value => s!"integer `{value}`"
  | float value => s!"float `{value}`"
  | string value => s!"string `{value}`"
  | fString value => s!"f-string `{value}`"
  | ident name => s!"identifier `{name}`"
  | newline => "newline"
  | indent => "INDENT"
  | dedent => "DEDENT"
  | eof => "EOF"
  | kind => kind.source_text

end TokenKind

/-- The words that are no identifiers. -/
def keywords : List (String × TokenKind) :=
  [
    ("type", .type), ("func", .func), ("fn", .fn), ("actor", .actor), ("newtype", .newtype),
    ("let", .let_), ("const", .const), ("mut", .mut_), ("ref", .ref), ("shared", .shared), ("weak", .weak),
    ("arena", .arena), ("cap", .cap), ("trait", .trait), ("impl", .impl), ("dyn", .dyn),
    ("where", .where_), ("extern", .extern_), ("if", .if_), ("else", .else_), ("for", .for_),
    ("fails", .fails), ("in", .in_), ("while", .while_), ("return", .return_), ("break", .break_),
    ("continue", .continue_), ("match", .match_), ("use", .use), ("pub", .pub), ("drop", .drop),
    ("defer", .defer), ("await", .await), ("unsafe", .unsafe_), ("spawn", .spawn), ("comptime", .comptime),
    ("failure", .failure), ("requires", .requires), ("ensures", .ensures), ("invariant", .invariant),
    ("math", .math), ("old", .old), ("flow", .flow), ("state", .state), ("transition", .transition),
    ("pinned", .pinned), ("persistent", .persistent), ("view", .view), ("mutate", .mutate),
    ("session", .session), ("dual", .dual), ("end", .end_), ("and", .and), ("or", .or), ("not", .not),
    ("loop", .loop), ("as", .as_), ("true", .true_), ("false", .false_), ("unit", .unit)]

def keyword_or_ident (name : String) : TokenKind := (keywords.lookup name).getD (.ident name)

/-- The keywords that cannot be used as identifiers. -/
def is_keyword_kind : TokenKind → Bool
  | .type | .func | .fn | .fails | .actor | .newtype | .let_ | .const | .mut_ | .ref | .shared | .weak
  | .arena | .cap | .trait | .impl | .dyn | .where_ | .extern_ | .if_ | .else_ | .for_ | .in_ | .while_
  | .return_ | .break_ | .continue_ | .match_ | .unsafe_ | .use | .pub | .drop | .defer | .failure
  | .requires | .ensures | .invariant | .math | .old | .comptime | .spawn | .await | .loop | .as_ | .true_
  | .false_ | .unit | .flow | .state | .transition | .pinned | .persistent | .view | .mutate | .session
  | .dual | .end_ => true
  | _ => false

structure Token where
  kind : TokenKind
  line : Nat
  col : Nat
  /-- Exclusive end in the source. -/
  end_line : Nat
  end_col : Nat
deriving DecidableEq, Repr

inductive LexerMode where
  | production
  | sketch
deriving DecidableEq, Repr

inductive LexerError where
  | tabsNotAllowed (line col : Nat)
  | indentNotMultipleOfFour (line col : Nat)
  | dedentMismatch (line col : Nat)
  | unexpectedCharacter (c : Char) (line col : Nat)
  | unterminatedString (line col : Nat)
  | unterminatedEscape (line col : Nat)
  | unterminatedFString (line col : Nat)
  | unterminatedFStringEscape (line col : Nat)
  | unterminatedInterpolation (line col : Nat)
  | unterminatedBlockComment (line col : Nat)
  | invalidEscape (escape : String) (line col : Nat)
  | invalidDigitSeparator (line col : Nat)
deriving DecidableEq, Repr

end Mimi.Lexer
