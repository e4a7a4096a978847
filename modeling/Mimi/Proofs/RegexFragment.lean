/-
Module: Mimi.Proofs.RegexFragment
Purpose: Patterns of literals, escapes, `.`, classes, repetitions and anchors, with the languages that they
  stand for.  The search of the engine finds the least match of such a pattern, unless a limit is hit,
  whenever the preparation leaves the pattern as it is; a byte from 0x80 on it writes as two.
Trusted boundary: the meaning of the patterns
-/
import Mimi.Proofs.RegexSearches

namespace Mimi.Runtime.Regex

open Mimi.Lib

/-! ### Patterns -/

/-- The bytes that have a meaning of their own outside of classes. -/
def special : Bytes :=
  [byte '\\', byte '.', byte '[', byte '*', byte '+', byte '^', byte '$', byte '(', byte ')', byte '{',
    byte '}']

/-- An element of a pattern.  A class has no escapes, and a caret at its front negates it. -/
inductive Elem where
  | literal (c : UInt8) (plain : c ∉ special)
  | escape (c : UInt8)
  | dot
  | class_ (negated : Bool) (members : Bytes) (closed : byte ']' ∉ members) (plain : byte '\\' ∉ members)
      (front : negated = false → members.head? ≠ some (byte '^'))

/-- Whether the members of a class, single bytes and ranges, list a byte. -/
def listed (c : UInt8) : Bytes → Bool
  | [] => false
  | [b] => c = b
  | [b, d] => c = b || c = d
  | b :: d :: e :: members =>
      if d = byte '-' then b ≤ c && c ≤ e || listed c members else c = b || listed c (d :: e :: members)

namespace Elem

def render : Elem → Bytes
  | literal c _ => [c]
  | escape c => [byte '\\', c]
  | dot => [byte '.']
  | class_ negated members _ _ _ =>
      byte '[' :: ((if negated then [byte '^'] else []) ++ members ++ [byte ']'])

/-- The bytes that an element stands for; `.` is any byte but the end of a line and the NUL that ends a C
string. -/
def denotes : Elem → UInt8 → Bool
  | literal c _, b => b = c
  | escape c, b => escapeMatches c b
  | dot, b => b ≠ byte '\n' && b ≠ 0
  | class_ negated members _ _ _, b => if negated then !listed b members else listed b members

def isClass : Elem → Bool
  | class_ _ _ _ _ _ => true
  | _ => false

end Elem

def renderRepeat : Repeat → Bytes
  | .once => []
  | .star => [byte '*']
  | .plus => [byte '+']

/-- A pattern without groups and braces: elements with their repetitions, and the two anchors. -/
structure Plain where
  caret : Bool
  items : List (Elem × Repeat)
  dollar : Bool

def renderBody (items : List (Elem × Repeat)) (dollar : Bool) : Bytes :=
  (items.flatMap fun item => item.1.render ++ renderRepeat item.2) ++ if dollar then [byte '$'] else []

namespace Plain

def render (p : Plain) : Bytes := (if p.caret then [byte '^'] else []) ++ renderBody p.items p.dollar

/-- The texts that a pattern stands for, its anchors apart. -/
def language (p : Plain) : Language UInt8 := sequence (p.items.map fun item => (item.1.denotes, item.2))

/-- A range of a text is a match of a pattern. -/
structure Matches (p : Plain) (text : Bytes) (s e : Nat) : Prop where
  ordered : s ≤ e
  within : e ≤ text.length
  member : slice text (s, e) ∈ p.language
  front : p.caret = true → s = 0
  back : p.dollar = true → e = text.length

end Plain

/-! ### Reading a rendered pattern -/

theorem classLength_members {members : Bytes} (closed : byte ']' ∉ members) (plain : byte '\\' ∉ members)
    (tail : Bytes) : classLength (members ++ byte ']' :: tail) = members.length + 1 := by
  induction members with
  | nil => cases tail <;> rfl
  | cons b members ih =>
      obtain ⟨notClose, closed⟩ := List.ne_and_not_mem_of_not_mem_cons closed
      obtain ⟨notSlash, plain⟩ := List.ne_and_not_mem_of_not_mem_cons plain
      obtain ⟨c, rest, is⟩ : ∃ c rest, members ++ byte ']' :: tail = c :: rest := by
        cases members with
        | nil => exact ⟨_, _, rfl⟩
        | cons c members => exact ⟨_, _, rfl⟩
      have inner := ih closed plain
      rw [is] at inner
      rw [List.cons_append, is, classLength, if_neg notClose.symm, if_neg notSlash.symm, inner,
        List.length_cons, Nat.add_comm 1]

theorem classMembers_close (c : UInt8) (tail : Bytes) : classMembers c (byte ']' :: tail) = (false, 1) := by
  rcases tail with _ | ⟨d, _ | ⟨e, tail⟩⟩ <;> rfl

/-- A member that starts no range is followed by what follows it. -/
theorem classMembers_single (c : UInt8) {b d : UInt8} {rest : Bytes} (notClose : b ≠ byte ']')
    (noRange : d = byte '-' → rest.head?.all (· = byte ']') = true) :
    classMembers c (b :: d :: rest) =
      (c = b || (classMembers c (d :: rest)).1, 1 + (classMembers c (d :: rest)).2) := by
  cases rest with
  | nil =>
      conv_lhs => rw [classMembers, if_neg notClose]
  | cons e rest =>
      have single : ¬(d = byte '-' && e ≠ byte ']') = true := by
        intro both
        obtain ⟨dash, other⟩ := Bool.and_eq_true_iff.mp both
        have close := noRange (of_decide_eq_true dash)
        rw [List.head?_cons, Option.all_some] at close
        exact of_decide_eq_true other (of_decide_eq_true close)
      conv_lhs => rw [classMembers, if_neg notClose, if_neg single]

theorem classMembers_members (c : UInt8) : ∀ (members : Bytes), byte ']' ∉ members → ∀ tail : Bytes,
    classMembers c (members ++ byte ']' :: tail) = (listed c members, members.length + 1)
  | [], _, tail => classMembers_close c tail
  | [b], closed, tail => by
      have notClose : b ≠ byte ']' := fun same => closed (same ▸ List.mem_cons_self)
      rw [List.cons_append, List.nil_append, classMembers_single c notClose (fun dash => absurd dash (by decide)),
        classMembers_close, listed, Bool.or_false]
      rfl
  | [b, d], closed, tail => by
      have notClose : b ≠ byte ']' := fun same => closed (same ▸ List.mem_cons_self)
      have rest := classMembers_members c [d] (fun member => closed (List.mem_cons_of_mem _ member)) tail
      have noRange : d = byte '-' → (byte ']' :: tail).head?.all (· = byte ']') = true := fun _ => by
        rw [List.head?_cons, Option.all_some]
        exact decide_eq_true rfl
      rw [List.cons_append, List.nil_append] at rest
      rw [List.cons_append, List.cons_append, List.nil_append,
        classMembers_single c notClose noRange, rest, listed, listed]
      rfl
  | b :: d :: e :: members, closed, tail => by
      have notClose : b ≠ byte ']' := fun same => closed (same ▸ List.mem_cons_self)
      have inner : e ≠ byte ']' := fun same => closed (by rw [same]; simp)
      rw [listed]
      by_cases range : d = byte '-'
      · have rest := classMembers_members c members (fun member => closed (by simp [member])) tail
        simp only [List.cons_append]
        rw [classMembers, if_neg notClose, if_pos (by simp [range, inner]), if_pos range, rest]
        refine Prod.ext rfl ?_
        simp only [List.length_cons]
        omega
      · have rest := classMembers_members c (d :: e :: members)
          (fun member => closed (List.mem_cons_of_mem _ member)) tail
        simp only [List.cons_append] at rest ⊢
        rw [classMembers_single c notClose fun same => absurd same range, if_neg range, rest]
        refine Prod.ext rfl ?_
        simp only [List.length_cons]
        omega

namespace Elem

variable (elem : Elem) (tail : Bytes)

/-- The bytes that go on a repetition or are an anchor. -/
def operators : Bytes := [byte '*', byte '+', byte '^', byte '$']

/-- An element does not begin like a repetition or an anchor. -/
theorem render_cons : ∃ b bytes, elem.render = b :: bytes ∧ b ∉ operators := by
  cases elem with
  | literal c plain =>
      refine ⟨c, [], rfl, fun member => plain ?_⟩
      have all : ∀ b ∈ operators, b ∈ special := by decide +kernel
      exact all c member
  | escape c => exact ⟨_, _, rfl, by decide⟩
  | dot => exact ⟨_, _, rfl, by decide⟩
  | class_ negated members closed plain front => exact ⟨_, _, rfl, by decide⟩

/-- A class that is not negated does not begin with a caret. -/
theorem head_members {members : Bytes} (front : members.head? ≠ some (byte '^')) (tail : Bytes) :
    (members ++ byte ']' :: tail).head? ≠ some (byte '^') := by
  cases members with
  | nil => exact fun same => absurd (Option.some.inj same) (by decide)
  | cons b members => exact front

theorem parseElement_render :
    parseElement (elem.render ++ tail) = (elem.render.length, elem.isClass) := by
  cases elem with
  | literal c plain =>
      have slash : c ≠ byte '\\' := fun same => plain (by rw [same]; decide)
      have open_ : c ≠ byte '[' := fun same => plain (by rw [same]; decide)
      change parseElement (c :: tail) = (1, false)
      rw [parseElement, if_neg slash, if_neg open_]
  | escape c => rfl
  | dot => rfl
  | class_ negated members closed plain front =>
      have length := classLength_members closed plain tail
      cases negated with
      | true =>
          have rendered : (class_ true members closed plain front).render ++ tail =
              byte '[' :: byte '^' :: (members ++ byte ']' :: tail) := by simp [render]
          rw [rendered, parseElement, if_neg (by decide), if_pos rfl, List.head?_cons, if_pos rfl,
            List.tail_cons, length]
          refine Prod.ext ?_ rfl
          simp only [render, if_true, List.length_cons, List.length_append, List.length_nil]
          omega
      | false =>
          have rendered : (class_ false members closed plain front).render ++ tail =
              byte '[' :: (members ++ byte ']' :: tail) := by simp [render]
          rw [rendered, parseElement, if_neg (by decide), if_pos rfl,
            if_neg (head_members (front rfl) tail), length]
          refine Prod.ext ?_ rfl
          simp only [render, Bool.false_eq_true, if_false, List.length_cons, List.length_append,
            List.length_nil]
          omega

theorem elemMatch_render (c : UInt8) :
    elemMatch (elem.render ++ tail) c elem.isClass = (elem.denotes c, elem.render.length) := by
  cases elem with
  | literal c' plain =>
      have slash : c' ≠ byte '\\' := fun same => plain (by rw [same]; decide)
      have dot : c' ≠ byte '.' := fun same => plain (by rw [same]; decide)
      change elemMatch (c' :: tail) c false = (decide (c = c'), 1)
      rw [elemMatch, if_neg Bool.false_ne_true, if_neg slash, if_neg dot]
  | escape c' => rfl
  | dot => rfl
  | class_ negated members closed plain front =>
      have inner := classMembers_members c members closed tail
      cases negated with
      | true =>
          have rendered : (class_ true members closed plain front).render ++ tail =
              byte '[' :: byte '^' :: (members ++ byte ']' :: tail) := by simp [render]
          rw [rendered, isClass, elemMatch, if_pos rfl, elemMatchInClass, List.head?_cons, if_pos rfl,
            List.tail_cons, inner]
          refine Prod.ext rfl ?_
          simp only [render, if_true, List.length_cons, List.length_append, List.length_nil]
          omega
      | false =>
          have rendered : (class_ false members closed plain front).render ++ tail =
              byte '[' :: (members ++ byte ']' :: tail) := by simp [render]
          rw [rendered, isClass, elemMatch, if_pos rfl, elemMatchInClass,
            if_neg (head_members (front rfl) tail), inner]
          refine Prod.ext rfl ?_
          simp only [render, Bool.false_eq_true, if_false, List.length_cons, List.length_append,
            List.length_nil]
          omega

theorem accepts_render : accepts (elem.render ++ tail) = elem.denotes := by
  funext c
  rw [accepts, parseElement_render, elemMatch_render]

end Elem

/-- What follows an item begins with an element or is the end of the pattern. -/
theorem head_renderBody (items : List (Elem × Repeat)) (dollar : Bool) (b : UInt8)
    (head : (renderBody items dollar).head? = some b) : b ≠ byte '*' ∧ b ≠ byte '+' ∧ b ≠ byte '^' := by
  cases items with
  | nil =>
      cases dollar with
      | true =>
          obtain rfl := Option.some.inj head
          decide
      | false => cases head
  | cons item items =>
      obtain ⟨c, bytes, is, other⟩ := item.1.render_cons
      have front : (renderBody (item :: items) dollar).head? = some c := by
        simp [renderBody, is]
      obtain rfl := Option.some.inj (front.symm.trans head)
      simp only [Elem.operators, List.mem_cons, List.not_mem_nil, or_false, not_or] at other
      exact ⟨other.1, other.2.1, other.2.2.1⟩

theorem readQuant_render (rep : Repeat) (rest : Bytes)
    (apart : ∀ b, rest.head? = some b → b ≠ byte '*' ∧ b ≠ byte '+' ∧ b ≠ byte '^') :
    readQuant (renderRepeat rep ++ rest) = (rep, rest) := by
  cases rep with
  | star => rfl
  | plus =>
      rw [renderRepeat, List.singleton_append, readQuant, List.head?_cons,
        if_neg (fun same => absurd (Option.some.inj same) (by decide)), if_pos rfl]
      rfl
  | once =>
      rw [renderRepeat, List.nil_append, readQuant, if_neg fun same => (apart _ same).1 rfl,
        if_neg fun same => (apart _ same).2.1 rfl]

theorem skipCaret_renderBody (items : List (Elem × Repeat)) (dollar : Bool) :
    skipCaret (renderBody items dollar) = renderBody items dollar := by
  rw [skipCaret, if_neg fun same => (head_renderBody items dollar _ same).2.2 rfl]

/-- The steps of a pattern. -/
def bodySteps (items : List (Elem × Repeat)) (dollar : Bool) : List (Step UInt8) :=
  (items.map fun item => .elem item.1.denotes item.2) ++ if dollar then [.end_] else []

/-- The matcher takes the steps of the elements, in order, and then that of the anchor. -/
theorem readErased_body (items : List (Elem × Repeat)) (dollar : Bool) (fuel : Nat)
    (enough : (renderBody items dollar).length ≤ fuel) :
    readErased fuel (renderBody items dollar) = bodySteps items dollar := by
  induction items generalizing fuel with
  | nil =>
      cases dollar with
      | false => cases fuel <;> rfl
      | true =>
          cases fuel with
          | zero => cases enough
          | succ fuel => rfl
  | cons item items ih =>
      obtain ⟨b, bytes, is, other⟩ := item.1.render_cons
      have body : renderBody (item :: items) dollar =
          item.1.render ++ (renderRepeat item.2 ++ renderBody items dollar) := by simp [renderBody]
      have quant := readQuant_render item.2 _ (head_renderBody items dollar)
      have parsed := item.1.parseElement_render (renderRepeat item.2 ++ renderBody items dollar)
      have reads := item.1.accepts_render (renderRepeat item.2 ++ renderBody items dollar)
      have length := item.1.elemMatch_render (renderRepeat item.2 ++ renderBody items dollar) 0
      have dropped : (item.1.render ++ (renderRepeat item.2 ++ renderBody items dollar)).drop
          item.1.render.length = renderRepeat item.2 ++ renderBody items dollar := List.drop_left
      rw [body, List.length_append, List.length_append, is, List.length_cons] at enough
      rw [is] at parsed reads length dropped
      have steps_ : bodySteps (item :: items) dollar =
          .elem item.1.denotes item.2 :: bodySteps items dollar := rfl
      rw [body, is, steps_, List.cons_append]
      rw [List.cons_append] at parsed reads length dropped
      cases fuel with
      | zero => omega
      | succ fuel =>
          have rest := ih fuel (by omega)
          have notDollar : ¬(decide (b = byte '$') &&
              (bytes ++ (renderRepeat item.2 ++ renderBody items dollar)).isEmpty) = true := fun both =>
            other (by rw [of_decide_eq_true (Bool.and_eq_true_iff.mp both).1]; decide)
          rw [readErased, if_neg notDollar]
          simp only [parsed, dropped, quant, reads]
          by_cases once : item.2 = .once
          · rw [if_pos once, length, dropped, once, renderRepeat, List.nil_append, rest]
          · rw [if_neg once, skipCaret_renderBody, rest]

namespace Plain

variable (p : Plain)

theorem skipCaret_render : skipCaret p.render = renderBody p.items p.dollar := by
  rw [render]
  cases p.caret with
  | true => rfl
  | false => exact skipCaret_renderBody p.items p.dollar

theorem isAnchored_render : isAnchored p.render = p.caret := by
  rw [render]
  cases caret : p.caret with
  | true => rfl
  | false =>
      refine decide_eq_false fun same => ?_
      exact (head_renderBody p.items p.dollar _ same).2.2 rfl

theorem erasedSteps_render : erasedSteps p.render = bodySteps p.items p.dollar := by
  rw [erasedSteps, skipCaret_render]
  exact readErased_body p.items p.dollar _ (Nat.le_refl _)

variable {p} {text : Bytes} {s n : Nat}

theorem slice_add (text : Bytes) (s n : Nat) : slice text (s, s + n) = (text.drop s).take n := by
  rw [slice, List.drop_take, Nat.add_sub_cancel_left]

/-- The steps match the lengths of the matches. -/
theorem mem_runs_render (within : s ≤ text.length) (front : p.caret = true → s = 0) :
    n ∈ runs (erasedSteps p.render) (text.drop s) ↔ p.Matches text s (s + n) := by
  have items : p.items.map (fun item => (.elem item.1.denotes item.2 : Step UInt8)) =
      (p.items.map fun item => (item.1.denotes, item.2)).map fun item => .elem item.1 item.2 := by
    rw [List.map_map]
    rfl
  have words : n ∈ runs (p.items.map fun item => (.elem item.1.denotes item.2 : Step UInt8))
      (text.drop s) ↔ s + n ≤ text.length ∧ slice text (s, s + n) ∈ p.language := by
    rw [items, mem_runs_sequence, slice_add, List.length_drop, language]
    exact and_congr_left fun _ => by omega
  rw [erasedSteps_render, bodySteps]
  cases dollar : p.dollar with
  | true =>
      rw [if_pos rfl, mem_runs_end, words, List.length_drop]
      constructor
      · rintro ⟨⟨short, member⟩, last⟩
        exact ⟨Nat.le_add_right s n, short, member, front, fun _ => by omega⟩
      · rintro ⟨-, short, member, -, back⟩
        have last := back dollar
        exact ⟨⟨short, member⟩, by omega⟩
  | false =>
      rw [if_neg Bool.false_ne_true, List.append_nil, words]
      constructor
      · rintro ⟨short, member⟩
        exact ⟨Nat.le_add_right s n, short, member, front, fun back => by rw [dollar] at back; cases back⟩
      · rintro ⟨-, short, member, -, -⟩
        exact ⟨short, member⟩

/-- Where the steps do not match at all, no match begins. -/
theorem firstLength_eq_none_iff (within : s ≤ text.length) (front : p.caret = true → s = 0) :
    firstLength p.render (text.drop s) = none ↔ ∀ e, ¬p.Matches text s e := by
  rw [firstLength, List.head?_eq_none_iff, List.eq_nil_iff_forall_not_mem]
  constructor
  · intro none_ e found
    obtain ⟨n, rfl⟩ := Nat.exists_eq_add_of_le found.ordered
    exact none_ n ((mem_runs_render within front).mpr found)
  · exact fun none_ n member => none_ _ ((mem_runs_render within front).mp member)

end Plain

/-! ### The search -/

/-- The answer to a search for a pattern: a match that begins as early as any, or that there is none. -/
def FindsFirst (p : Plain) (text : Bytes) (answer : Option (Option (Nat × Nat))) : Prop :=
  ∃ found, answer = some found ∧
    (∀ s e, found = some (s, e) → p.Matches text s e ∧ ∀ s' < s, ∀ e', ¬p.Matches text s' e') ∧
    (found = none ↔ ∀ s e, ¬p.Matches text s e)

/-- Unless a limit is hit, the engine finds the first match of every pattern that its preparation leaves
as it is.  What it finds is a range of bytes; in an ASCII text it is a range of characters. -/
theorem findMatch_exact (p : Plain) (text : Bytes) (unchanged : prepare p.render = some p.render)
    (short : text.length < 2 ^ 31) (free : ¬Limited (findPrepared text p.render).2) :
    FindsFirst p text (findMatch text p.render) ∧
      ((∀ b ∈ text, b < 0x80) → ∀ range, findMatch text p.render = some (some range) → IsString (slice text range)) := by
  refine ⟨?_, fun ascii range _ => string_of_ascii fun b member =>
    ascii b (List.mem_of_mem_take (List.mem_of_mem_drop member))⟩
  have found := findPrepared_eq short free
  rw [p.isAnchored_render] at found
  refine ⟨_, by rw [findMatch, unchanged, Option.map_some, found], fun s e is => ?_, ?_⟩
  · obtain ⟨k, n, first, same⟩ := firstRange_eq_some_iff.mp is
    rw [Nat.zero_add] at same
    obtain ⟨rfl, rfl⟩ := Prod.mk.inj same
    have member : n ∈ runs (erasedSteps p.render) (text.drop s) := List.mem_of_mem_head? first.here
    refine ⟨(Plain.mem_runs_render first.within first.front).mp member, fun s' earlier e' found' => ?_⟩
    have front := found'.front
    exact (Plain.firstLength_eq_none_iff (earlier.le.trans first.within) front).mp
      (first.least s' earlier) e' found'
  · rw [firstRange_eq_none_iff]
    constructor
    · intro none_ s e found'
      have within := found'.ordered.trans found'.within
      exact (Plain.firstLength_eq_none_iff within found'.front).mp (none_ s within found'.front) e found'
    · exact fun none_ k within front =>
        (Plain.firstLength_eq_none_iff within front).mpr fun e => none_ k e

/-- The pattern `[0-9]+`. -/
def digits : Plain :=
  ⟨false, [(.class_ false (bytesOf "0-9") (by decide) (by decide) (by decide), .plus)], false⟩

theorem findMatch_exact_digits :
    findMatch (bytesOf "abc123def") (bytesOf "[0-9]+") = some (some (3, 6)) ∧
      FindsFirst digits (bytesOf "abc123def") (findMatch (bytesOf "abc123def") (bytesOf "[0-9]+")) ∧
      IsString (slice (bytesOf "abc123def") (3, 6)) := by
  have found : findMatch (bytesOf "abc123def") (bytesOf "[0-9]+") = some (some (3, 6)) := by decide
  obtain ⟨first, whole⟩ := findMatch_exact digits (bytesOf "abc123def") (by decide) (by decide) (by decide)
  exact ⟨found, first, whole (by decide +kernel) (3, 6) found⟩

/-- The two bytes of `é`, as literals. -/
def twoBytes : Plain :=
  ⟨false, [(.literal 0xC3 (by decide), .once), (.literal 0xA9 (by decide), .once)], false⟩

/-- A letter of two bytes is written as four characters, in eight bytes, and not found in itself. -/
theorem findMatch_mangled :
    prepare twoBytes.render = some [0xC3, 0x83, 0xC2, 0x83, 0xC3, 0x82, 0xC2, 0xA9] ∧
      (findPrepared [0xC3, 0xA9] [0xC3, 0x83, 0xC2, 0x83, 0xC3, 0x82, 0xC2, 0xA9]).2.limited = false ∧
      findMatch [0xC3, 0xA9] twoBytes.render = some none ∧
      ¬FindsFirst twoBytes [0xC3, 0xA9] (findMatch [0xC3, 0xA9] twoBytes.render) := by
  have missed : findMatch [0xC3, 0xA9] twoBytes.render = some none := by decide
  refine ⟨by decide, by decide, missed, ?_⟩
  rintro ⟨found, is, -, none_⟩
  obtain rfl := Option.some.inj (missed.symm.trans is)
  have member : slice [0xC3, 0xA9] (0, 2) ∈ twoBytes.language := by
    refine Language.mem_mul.mpr ⟨[0xC3], ⟨0xC3, by decide, rfl⟩, [0xA9], ?_, rfl⟩
    exact Language.mem_mul.mpr ⟨[0xA9], ⟨0xA9, by decide, rfl⟩, [], rfl, rfl⟩
  exact none_.mp rfl 0 2 ⟨by decide, by decide, member, nofun, nofun⟩

end Mimi.Runtime.Regex
