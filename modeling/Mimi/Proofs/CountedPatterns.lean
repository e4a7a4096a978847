/-
Module: Mimi.Proofs.CountedPatterns
Purpose: Patterns with groups and counted repetitions, the texts that they stand for, and how they look with
  every count written out in copies.  A single element stands for the bytes that the engine accepts for it.
Trusted boundary: the meaning of the patterns
-/
import Mimi.Lib.CountedRepetition
import Mimi.Proofs.RegexFragment

namespace Mimi.Runtime.Regex

open Mimi.Lib

/-! ### Syntax -/

/-- A member of a class: a byte, or a byte that a backslash protects. -/
inductive Member where
  | plain (c : UInt8) (apart : c ≠ byte ']' ∧ c ≠ byte '\\')
  | escaped (c : UInt8)

def Member.render : Member → Bytes
  | plain c _ => [c]
  | escaped c => [byte '\\', c]

def renderMembers (members : List Member) : Bytes := members.flatMap Member.render

/-- An element of a pattern: a byte, `.` among them, an escape or a class. -/
inductive Element where
  | char (c : UInt8) (plain : c ∈ special → c = byte '.')
  | escape (c : UInt8)
  | class_ (members : List Member)

def Element.render : Element → Bytes
  | char c _ => [c]
  | escape c => [byte '\\', c]
  | class_ members => byte '[' :: (renderMembers members ++ [byte ']'])

/-- A number as it is written. -/
structure Numeral where
  digits : Bytes
  some_ : digits ≠ []
  decimal : ∀ d ∈ digits, isAsciiDigit d = true

def Numeral.value (n : Numeral) : Nat := n.digits.foldl (fun n d => 10 * n + (d - byte '0').toNat) 0

/-- The greatest count of `{n}` and `{n,m}`. -/
def mostOf (n : Numeral) (most : Option Numeral) : Nat := (most.getD n).value

/-- How often an atom stands in a row: as one of the quantifiers of the matchers says, or as a count in
braces says. -/
inductive Quant where
  | rep (rep : Repeat)
  | count (n : Numeral) (most : Option Numeral) (ordered : n.value ≤ mostOf n most)
      (within : mostOf n most ≤ 64)

def Quant.render : Quant → Bytes
  | rep r => renderRepeat r
  | count n most _ _ => byte '{' :: (n.digits ++ most.elim [] (fun m => byte ',' :: m.digits) ++ [byte '}'])

def Quant.isCount : Quant → Bool
  | rep _ => false
  | count _ _ _ _ => true

/-- The parts of a pattern between its anchors. -/
inductive Body where
  | nil
  | elem (element : Element) (quant : Quant) (rest : Body)
  | group (inner : Body) (quant : Quant) (rest : Body)

/-- A group with its parentheses. -/
def renderGroup (inner : Bytes) : Bytes := byte '(' :: (inner ++ [byte ')'])

namespace Body

def render : Body → Bytes
  | nil => []
  | elem element quant rest => element.render ++ quant.render ++ rest.render
  | group inner quant rest => renderGroup inner.render ++ quant.render ++ rest.render

/-- No part is counted. -/
def countFree : Body → Bool
  | nil => true
  | elem _ quant rest => !quant.isCount && rest.countFree
  | group inner quant rest => !quant.isCount && inner.countFree && rest.countFree

end Body

/-! ### Meaning -/

/-- The texts of an atom as often as a quantifier says. -/
def Quant.words (L : Language UInt8) : Quant → Language UInt8
  | rep .once => L
  | rep .star => KStar.kstar L
  | rep .plus => L * KStar.kstar L
  | count n most _ _ => between L n.value (mostOf n most)

/-- The texts of one element: the bytes that the engine accepts for it. -/
def Element.language (element : Element) : Language UInt8 := letters (accepts element.render)

/-- The texts that a body stands for. -/
def Body.language : Body → Language UInt8
  | nil => 1
  | elem element quant rest => quant.words element.language * rest.language
  | group inner quant rest => quant.words inner.language * rest.language

/-! ### Counts written out -/

/-- An atom with a quantifier, a count of it written out in copies, before the rest of a body. -/
def Quant.writeOut (atom : Quant → Body → Body) : Quant → Body → Body
  | rep r, rest => atom (rep r) rest
  | count n most _ _, rest => (atom (rep .once))^[mostOf n most] rest

/-- What is written for an atom with its quantifier. -/
def Quant.written (atom : Bytes) : Quant → Bytes
  | rep r => atom ++ renderRepeat r
  | count n most _ _ => (List.replicate (mostOf n most) atom).flatten

/-- A body with every count written out. -/
def Body.expanded : Body → Body
  | nil => nil
  | elem element quant rest => quant.writeOut (.elem element) rest.expanded
  | group inner quant rest => quant.writeOut (.group inner.expanded) rest.expanded

/-- The copies of an atom say what its count says: there is one count, the atom may be empty, or there is
nothing that it stands for and something is asked for. -/
def Quant.Uniform (L : Language UInt8) : Quant → Prop
  | rep _ => True
  | count n most _ _ => n.value = mostOf n most ∨ [] ∈ L ∨ L = 0 ∧ 0 < n.value

/-- All counts of a body are uniform. -/
def Body.Uniform : Body → Prop
  | nil => True
  | elem element quant rest => quant.Uniform element.language ∧ rest.Uniform
  | group inner quant rest => inner.Uniform ∧ quant.Uniform inner.language ∧ rest.Uniform

section WriteOut

variable (atom : Quant → Body → Body) (quant : Quant) (rest : Body)

theorem Quant.render_writeOut {text : Bytes}
    (renders : ∀ quant rest, (atom quant rest).render = text ++ quant.render ++ rest.render) :
    (quant.writeOut atom rest).render = quant.written text ++ rest.render := by
  cases quant with
  | rep r => exact renders (rep r) rest
  | count n most ordered within =>
      rw [writeOut, written]
      generalize mostOf n most = copies
      induction copies with
      | zero => rfl
      | succ copies ih =>
          rw [Function.iterate_succ_apply', renders, ih, List.replicate_succ, List.flatten_cons, Quant.render,
            renderRepeat, List.append_nil, List.append_assoc]

theorem Quant.countFree_writeOut (inner : Bool)
    (free : ∀ quant rest, (atom quant rest).countFree = (!quant.isCount && inner && rest.countFree))
    (innerFree : inner = true) (restFree : rest.countFree = true) :
    (quant.writeOut atom rest).countFree = true := by
  cases quant with
  | rep r => rw [writeOut, free, innerFree, restFree]; rfl
  | count n most ordered within =>
      rw [writeOut]
      generalize mostOf n most = copies
      induction copies with
      | zero => exact restFree
      | succ copies ih => rw [Function.iterate_succ_apply', free, innerFree, ih]; rfl

theorem Quant.language_writeOut {L : Language UInt8}
    (means : ∀ quant rest, (atom quant rest).language = quant.words L * rest.language)
    (uniform : quant.Uniform L) :
    (quant.writeOut atom rest).language = quant.words L * rest.language := by
  cases quant with
  | rep r => exact means (rep r) rest
  | count n most ordered within =>
      have copies : ∀ k, ((atom (rep .once))^[k] rest).language = L ^ k * rest.language := by
        intro k
        induction k with
        | zero => rw [pow_zero, one_mul]; rfl
        | succ k ih => rw [Function.iterate_succ_apply', means, ih, pow_succ', mul_assoc]; rfl
      rw [writeOut, words, copies, (pow_eq_between_iff ordered).mpr uniform]

end WriteOut

namespace Body

theorem countFree_expanded (body : Body) : body.expanded.countFree = true := by
  induction body with
  | nil => rfl
  | elem element quant rest ih =>
      refine quant.countFree_writeOut _ _ true (fun quant' rest' => ?_) rfl ih
      rw [countFree, Bool.and_true]
  | group inner quant rest ihInner ih =>
      exact quant.countFree_writeOut _ _ _ (fun _ _ => rfl) ihInner ih

/-- Where the counts are uniform, writing them out changes nothing. -/
theorem language_expanded (body : Body) (uniform : body.Uniform) :
    body.expanded.language = body.language := by
  induction body with
  | nil => rfl
  | elem element quant rest ih =>
      rw [expanded, quant.language_writeOut _ _ (fun _ _ => rfl) uniform.1, ih uniform.2, language]
  | group inner quant rest ihInner ih =>
      obtain ⟨innerUniform, here, restUniform⟩ := uniform
      have same := ihInner innerUniform
      rw [expanded, quant.language_writeOut _ _ (fun _ _ => by rw [language, same]) here, ih restUniform,
        language]

theorem render_expanded_elem (element : Element) (quant : Quant) (rest : Body) :
    (elem element quant rest).expanded.render = quant.written element.render ++ rest.expanded.render :=
  quant.render_writeOut _ _ fun _ _ => rfl

theorem render_expanded_group (inner : Body) (quant : Quant) (rest : Body) :
    (group inner quant rest).expanded.render =
      quant.written (renderGroup inner.expanded.render) ++ rest.expanded.render :=
  quant.render_writeOut _ _ fun _ _ => rfl

end Body

/-! ### Patterns -/

/-- A body between its anchors. -/
structure Pattern where
  caret : Bool
  body : Body
  dollar : Bool

namespace Pattern

def render (p : Pattern) : Bytes :=
  (if p.caret then [byte '^'] else []) ++ (p.body.render ++ if p.dollar then [byte '$'] else [])

/-- The same anchors around the body with its counts written out. -/
def expanded (p : Pattern) : Pattern := { p with body := p.body.expanded }

/-- A range of a text is a match of a pattern. -/
structure Matches (p : Pattern) (text : Bytes) (s e : Nat) : Prop where
  ordered : s ≤ e
  within : e ≤ text.length
  member : slice text (s, e) ∈ p.body.language
  front : p.caret = true → s = 0
  back : p.dollar = true → e = text.length

theorem matches_expanded {p : Pattern} (uniform : p.body.Uniform) {text : Bytes} {s e : Nat} :
    p.expanded.Matches text s e ↔ p.Matches text s e := by
  have same : p.expanded.body.language = p.body.language := p.body.language_expanded uniform
  constructor
  · exact fun found => ⟨found.ordered, found.within, same ▸ found.member, found.front, found.back⟩
  · exact fun found => ⟨found.ordered, found.within, same.symm ▸ found.member, found.front, found.back⟩

end Pattern

end Mimi.Runtime.Regex
