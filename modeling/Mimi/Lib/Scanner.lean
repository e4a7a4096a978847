/-
Module: Mimi.Lib.Scanner
Purpose: Scanners that move a place ahead in a text: looking, taking items, loops that take an item a round.
  What a scanner reads does not depend on where it stands, and on the text behind what it reads only up to
  items that say nothing to it.
Trusted boundary: none
-/
import Mathlib

namespace Mimi.Lib

/-- Places in a text: what is left of the text, and the place behind the next item. -/
class Cursor (P : Type) (α : outParam Type) where
  rest : P → List α
  next : P → P
  rest_next : ∀ p, rest (next p) = (rest p).tail

open Cursor

variable {P ε α β γ σ : Type} [Cursor P α]

theorem rest_iterate_next (n : Nat) (p : P) : rest (next^[n] p) = (rest p).drop n := by
  induction n generalizing p with
  | zero => rfl
  | succ n ih => rw [Function.iterate_succ_apply, ih, rest_next, List.drop_tail]

/-! ### Moving ahead -/

/-- A place behind a piece of the text that another place stands before. -/
def Ahead (p : P) (text : List α) (p' : P) : Prop := rest p = text ++ rest p' ∧ p' = next^[text.length] p

namespace Ahead

theorem refl (p : P) : Ahead p [] p := ⟨rfl, rfl⟩

theorem trans {p p' p'' : P} {text text' : List α} (first : Ahead p text p') (second : Ahead p' text' p'') :
    Ahead p (text ++ text') p'' := by
  refine ⟨?_, ?_⟩
  · rw [first.1, second.1, List.append_assoc]
  · rw [second.2, first.2, List.length_append, Nat.add_comm, Function.iterate_add_apply]

theorem next {p : P} {c : α} {text : List α} (here : rest p = c :: text) : Ahead p [c] (next p) := by
  refine ⟨?_, rfl⟩
  rw [rest_next, here]
  rfl

/-- A place that is some items further stands behind these items. -/
theorem of_rest {p : P} {text after : List α} (here : rest p = text ++ after) :
    Ahead p text (Cursor.next^[text.length] p) := by
  refine ⟨?_, rfl⟩
  rw [rest_iterate_next, here, List.drop_left]

theorem rest_eq {p : P} {text after : List α} (here : rest p = text ++ after) :
    rest (Cursor.next^[text.length] p) = after := by
  rw [rest_iterate_next, here, List.drop_left]

end Ahead

/-- The items of a kind that come next, and the place behind them. -/
def span (keep : α → Bool) (p : P) : List α × P :=
  ((rest p).takeWhile keep, next^[((rest p).takeWhile keep).length] p)

/-- The same, of at most a number of items. -/
def spanUpTo (most : Nat) (keep : α → Bool) (p : P) : List α × P :=
  (((rest p).take most).takeWhile keep, next^[(((rest p).take most).takeWhile keep).length] p)

theorem ahead_span (keep : α → Bool) (p : P) : Ahead p (span keep p).1 (span keep p).2 :=
  Ahead.of_rest List.takeWhile_append_dropWhile.symm

theorem ahead_spanUpTo (most : Nat) (keep : α → Bool) (p : P) :
    Ahead p (spanUpTo most keep p).1 (spanUpTo most keep p).2 := by
  obtain ⟨after, whole⟩ := (List.takeWhile_prefix keep).trans (List.take_prefix most (rest p))
  exact Ahead.of_rest whole.symm

/-! ### Scanners -/

/-- A scanner moves ahead in a text, or stops with an error. -/
abbrev Scanner (P ε β : Type) := StateT P (Except ε) β

namespace Scanner

def fail (error : P → ε) : Scanner P ε β := fun p => .error (error p)

/-- What there is to see in the text that is left. -/
def look (see : List α → β) : Scanner P ε β := fun p => .ok (see (rest p), p)

/-- The next item, whatever it is. -/
def any (error : P → ε) : Scanner P ε α := fun p =>
  match rest p with
  | [] => .error (error p)
  | c :: _ => .ok (c, next p)

/-- The next item, if it is of a kind. -/
def accept (keep : α → Bool) : Scanner P ε (Option α) := fun p =>
  match rest p with
  | [] => .ok (none, p)
  | c :: _ => if keep c then .ok (some c, next p) else .ok (none, p)

/-- The items of a kind. -/
def many (keep : α → Bool) : Scanner P ε (List α) := fun p => .ok (span keep p)

def manyUpTo (most : Nat) (keep : α → Bool) : Scanner P ε (List α) := fun p => .ok (spanUpTo most keep p)

/-- A scanner that is told where it starts. -/
def located (scanner : P → Scanner P ε β) : Scanner P ε β := fun p => scanner p p

/-- A loop whose rounds take an item each and end with a new state or a result.  It finishes at an item that it
does not enter, and at the end of the text.  The number bounds the items that are left. -/
def rounds (enters : σ → α → Option α → Bool) (round : σ → α → P → Scanner P ε (σ ⊕ β))
    (finish : σ → Scanner P ε β) : Nat → σ → Scanner P ε β
  | 0, s => finish s
  | n + 1, s => fun p =>
      match rest p with
      | [] => finish s p
      | c :: text =>
          if enters s c text.head? then
            (round s c p >>= fun
              | .inl s' => rounds enters round finish n s'
              | .inr b => pure b) (next p)
          else finish s p

def loop (enters : σ → α → Option α → Bool) (round : σ → α → P → Scanner P ε (σ ⊕ β))
    (finish : σ → Scanner P ε β) (s : σ) : Scanner P ε β := fun p =>
  rounds enters round finish (rest p).length s p

/-- A loop finishes at the end of a text, and at an item that it does not enter. -/
def Leaves (enters : σ → α → Option α → Bool) (s : σ) : List α → Prop
  | [] => True
  | c :: text => enters s c text.head? = false

theorem rounds_leaves {enters : σ → α → Option α → Bool} {round : σ → α → P → Scanner P ε (σ ⊕ β)}
    {finish : σ → Scanner P ε β} {s : σ} {p : P} (leaves : Leaves enters s (rest p)) (n : Nat) :
    rounds enters round finish n s p = finish s p := by
  cases n with
  | zero => rfl
  | succ n =>
      rw [rounds]
      dsimp only
      split
      · rfl
      · rename_i c text here
        rw [here] at leaves
        exact if_neg (Bool.eq_false_iff.mp leaves)

theorem accept_yes {keep : α → Bool} {c : α} {text : List α} {p : P} (here : rest p = c :: text)
    (kept : keep c = true) : (accept keep : Scanner P ε (Option α)) p = .ok (some c, next p) := by
  rw [accept, here]
  exact if_pos kept

theorem accept_no {keep : α → Bool} {p : P} (other : (rest p).head?.any keep = false) :
    (accept keep : Scanner P ε (Option α)) p = .ok (none, p) := by
  rw [accept]
  cases here : rest p with
  | nil => rfl
  | cons c text =>
      rw [here] at other
      exact if_neg (Bool.eq_false_iff.mp (by simpa using other))

theorem look_bind_apply (see : List α → β) (f : β → Scanner P ε γ) (p : P) :
    (look see >>= f) p = f (see (rest p)) p := rfl

theorem bind_eq_ok {m : Scanner P ε β} {f : β → Scanner P ε γ} {p p'' : P} {c : γ} :
    (m >>= f) p = .ok (c, p'') ↔ ∃ b p', m p = .ok (b, p') ∧ f b p' = .ok (c, p'') := by
  show (m p >>= fun step => f step.1 step.2) = _ ↔ _
  cases m p with
  | error e =>
      refine ⟨fun impossible => (by cases impossible), fun steps => ?_⟩
      obtain ⟨b, p', impossible, -⟩ := steps
      cases impossible
  | ok step =>
      refine ⟨fun last => ⟨step.1, step.2, rfl, last⟩, ?_⟩
      rintro ⟨b, p', same, last⟩
      obtain rfl := Except.ok.inj same
      exact last

end Scanner

/-! ### Reading alike -/

section Reads

variable (inert : α → Prop)

/-- Two texts that are the same up to places where both end or have an item that says nothing. -/
inductive Alike : List α → List α → Prop where
  | ends {text text' : List α} (quiet : ∀ c ∈ text.head?, inert c) (quiet' : ∀ c ∈ text'.head?, inert c) :
      Alike text text'
  | cons (c : α) {text text' : List α} (tail : Alike text text') : Alike (c :: text) (c :: text')

variable {inert}

namespace Alike

theorem refl (text : List α) : Alike inert text text := by
  induction text with
  | nil => exact .ends (by simp) (by simp)
  | cons c text ih => exact .cons c ih

variable {text' : List α}

theorem append (front : List α) {text : List α} (alike : Alike inert text text') :
    Alike inert (front ++ text) (front ++ text') := by
  induction front with
  | nil => exact alike
  | cons c front ih => exact .cons c ih

/-- The first items are the same, or say nothing. -/
theorem head {text : List α} (alike : Alike inert text text') : text.head? = text'.head? ∨
    (∀ c ∈ text.head?, inert c) ∧ ∀ c ∈ text'.head?, inert c := by
  cases alike with
  | ends quiet quiet' => exact .inr ⟨quiet, quiet'⟩
  | cons c tail => exact .inl rfl

/-- A question to the first item that items that say nothing answer by no. -/
theorem any_head {keep : α → Bool} (deaf : ∀ c, inert c → keep c = false) {text : List α}
    (alike : Alike inert text text') : text.head?.any keep = text'.head?.any keep := by
  have silent : ∀ first : Option α, (∀ c ∈ first, inert c) → first.any keep = false := by
    intro first quiet
    cases first with
    | none => rfl
    | some c => exact deaf c (quiet c rfl)
  rcases alike.head with same | ⟨quiet, quiet'⟩
  · rw [same]
  · rw [silent _ quiet, silent _ quiet']

/-- An item that says something comes first in both texts or in none. -/
theorem head_iff {c : α} (loud : ¬ inert c) {text : List α} (alike : Alike inert text text') :
    text.head? = some c ↔ text'.head? = some c := by
  rcases alike.head with same | ⟨quiet, quiet'⟩
  · rw [same]
  · exact ⟨fun first => absurd (quiet c first) loud, fun first => absurd (quiet' c first) loud⟩

theorem tail {keep : α → Bool} (deaf : ∀ c, inert c → keep c = false) {text text' : List α}
    (alike : Alike inert text text') (first : text.head?.any keep = true) : Alike inert text.tail text'.tail := by
  cases alike with
  | ends quiet _ =>
      cases text with
      | nil => cases first
      | cons c text => exact absurd ((deaf c (quiet c rfl)).symm.trans first) Bool.false_ne_true
  | cons c tail => exact tail

theorem takeWhile {keep : α → Bool} (deaf : ∀ c, inert c → keep c = false) {text text' : List α}
    (alike : Alike inert text text') : text.takeWhile keep = text'.takeWhile keep := by
  have silent : ∀ text : List α, (∀ c ∈ text.head?, inert c) → text.takeWhile keep = [] := by
    intro text quiet
    cases text with
    | nil => rfl
    | cons c text => rw [List.takeWhile_cons, deaf c (quiet c rfl), if_neg Bool.false_ne_true]
  induction alike with
  | ends quiet quiet' => rw [silent _ quiet, silent _ quiet']
  | cons c tail ih => rw [List.takeWhile_cons, List.takeWhile_cons, ih]

theorem take {text text' : List α} (alike : Alike inert text text') (most : Nat) :
    Alike inert (text.take most) (text'.take most) := by
  have shorter : ∀ (most : Nat) (text : List α), (∀ c ∈ text.head?, inert c) →
      ∀ c ∈ (text.take most).head?, inert c := by
    intro most text quiet c member
    cases most with
    | zero => cases member
    | succ most =>
        cases text with
        | nil => cases member
        | cons d text => exact quiet c member
  induction alike generalizing most with
  | ends quiet quiet' => exact .ends (shorter most _ quiet) (shorter most _ quiet')
  | cons c tail ih =>
      cases most with
      | zero => exact refl []
      | succ most => exact .cons c (ih most)

end Alike

variable (inert)

/-- What the first scanner reads holds of the text that it takes, and the second one reads the same wherever
that text comes next and the text behind it is alike. -/
def Reads (holds : List α → β → Prop) (m m' : Scanner P ε β) : Prop :=
  ∀ p b p', m p = .ok (b, p') → ∃ text, Ahead p text p' ∧ holds text b ∧
    ∀ q after, rest q = text ++ after → Alike inert (rest p') after → m' q = .ok (b, next^[text.length] q)

variable {inert}

namespace Reads

open Scanner

variable {holds : List α → β → Prop}

theorem mono {holds' : List α → β → Prop} {m m' : Scanner P ε β} (reads : Reads inert holds m m')
    (weaker : ∀ text b, holds text b → holds' text b) : Reads inert holds' m m' := by
  intro p b p' read
  obtain ⟨text, ahead, held, again⟩ := reads p b p' read
  exact ⟨text, ahead, weaker text b held, again⟩

theorem pure_ {b : β} (held : holds [] b) : Reads inert holds (pure b : Scanner P ε β) (pure b) := by
  intro p b' p' read
  obtain ⟨rfl, rfl⟩ := Prod.mk.inj (Except.ok.inj read)
  exact ⟨[], Ahead.refl p, held, fun q after _ _ => rfl⟩

theorem fail_ (error error' : P → ε) : Reads inert holds (fail error) (fail error') := by
  intro p b p' read
  cases read

theorem any_ (holds : List α → α → Prop) (held : ∀ c, holds [c] c) (error error' : P → ε) :
    Reads inert holds (any error) (any error') := by
  intro p c p' read
  rw [any] at read
  split at read
  · cases read
  · rename_i d text here
    obtain ⟨rfl, rfl⟩ := Prod.mk.inj (Except.ok.inj read)
    refine ⟨[d], Ahead.next here, held d, fun q after here' _ => ?_⟩
    rw [any, here']
    rfl

variable {keep : α → Bool}

theorem accept_ (holds : List α → Option α → Prop) (deaf : ∀ c, inert c → keep c = false)
    (nothing : holds [] none) (held : ∀ c, keep c = true → holds [c] (some c)) :
    Reads inert holds (accept keep : Scanner P ε (Option α)) (accept keep) := by
  intro p c p' read
  rw [accept] at read
  have stays : (rest p).head?.any keep = false → ∀ q after, rest q = [] ++ after → Alike inert (rest p) after →
      (accept keep : Scanner P ε (Option α)) q = .ok (none, next^[0] q) := by
    intro silent q after here alike
    refine accept_no ?_
    rw [here, List.nil_append, ← alike.any_head deaf]
    exact silent
  split at read
  · rename_i here
    obtain ⟨rfl, rfl⟩ := Prod.mk.inj (Except.ok.inj read)
    exact ⟨[], Ahead.refl p, nothing, stays (by rw [here]; rfl)⟩
  · rename_i d text here
    split at read
    · rename_i kept
      obtain ⟨rfl, rfl⟩ := Prod.mk.inj (Except.ok.inj read)
      refine ⟨[d], Ahead.next here, held d kept, fun q after here' _ => ?_⟩
      rw [accept, here']
      exact if_pos kept
    · rename_i other
      obtain ⟨rfl, rfl⟩ := Prod.mk.inj (Except.ok.inj read)
      refine ⟨[], Ahead.refl p, nothing, stays ?_⟩
      rw [here]
      simpa using other

theorem many_ (holds : List α → List α → Prop) (deaf : ∀ c, inert c → keep c = false)
    (held : ∀ text, (∀ c ∈ text, keep c = true) → holds text text) :
    Reads inert holds (many keep : Scanner P ε (List α)) (many keep) := by
  intro p taken p' read
  obtain ⟨rfl, rfl⟩ := Prod.mk.inj (Except.ok.inj read)
  refine ⟨_, ahead_span keep p, held _ fun c member => List.mem_takeWhile_imp member, ?_⟩
  intro q after here alike
  have same : (rest q).takeWhile keep = (rest p).takeWhile keep := by
    rw [here, (ahead_span keep p).1]
    exact ((alike.append _).takeWhile deaf).symm
  rw [many, span, same]
  rfl

theorem manyUpTo_ (holds : List α → List α → Prop) {most : Nat} (deaf : ∀ c, inert c → keep c = false)
    (held : ∀ text, text.length ≤ most → (∀ c ∈ text, keep c = true) → holds text text) :
    Reads inert holds (manyUpTo most keep : Scanner P ε (List α)) (manyUpTo most keep) := by
  intro p taken p' read
  obtain ⟨rfl, rfl⟩ := Prod.mk.inj (Except.ok.inj read)
  refine ⟨_, ahead_spanUpTo most keep p, held _ ?_ fun c member => List.mem_takeWhile_imp member, ?_⟩
  · exact ((List.takeWhile_prefix keep).length_le).trans (List.length_take_le most _)
  · intro q after here alike
    have same : ((rest q).take most).takeWhile keep = ((rest p).take most).takeWhile keep := by
      rw [here, (ahead_spanUpTo most keep p).1]
      exact (((alike.append _).take most).takeWhile deaf).symm
    rw [manyUpTo, spanUpTo, same]
    rfl

theorem located_ {scanner scanner' : P → Scanner P ε β}
    (reads : ∀ at_ at_', Reads inert holds (scanner at_) (scanner' at_')) :
    Reads inert holds (located scanner) (located scanner') := by
  intro p b p' read
  obtain ⟨text, ahead, held, -⟩ := reads p p p b p' read
  refine ⟨text, ahead, held, fun q after here alike => ?_⟩
  obtain ⟨text', ahead', -, again⟩ := reads p q p b p' read
  have same : text' = text := List.append_cancel_right (ahead'.1.symm.trans ahead.1)
  rw [same] at again
  exact again q after here alike

theorem bind {m m' : Scanner P ε β} {f f' : β → Scanner P ε γ} {holds' : List α → γ → Prop}
    (first : Reads inert holds m m')
    (second : ∀ text b, holds text b → Reads inert (fun text' c => holds' (text ++ text') c) (f b) (f' b)) :
    Reads inert holds' (m >>= f) (m' >>= f') := by
  intro p c p'' read
  obtain ⟨b, p', read, read'⟩ := Scanner.bind_eq_ok.mp read
  obtain ⟨text, ahead, held, again⟩ := first p b p' read
  obtain ⟨text', ahead', held', again'⟩ := second text b held p' c p'' read'
  refine ⟨text ++ text', ahead.trans ahead', held', fun q after here alike => ?_⟩
  rw [List.append_assoc] at here
  have read₁ := again q (text' ++ after) here (ahead'.1 ▸ alike.append text')
  have read₂ := again' _ after (Ahead.rest_eq here) alike
  rw [List.length_append, Nat.add_comm, Function.iterate_add_apply]
  exact Scanner.bind_eq_ok.mpr ⟨b, _, read₁, read₂⟩

/-- A look ahead.  What is read afterwards is the front of what has been seen. -/
theorem look_bind {see : List α → β} {f f' : β → Scanner P ε γ} {holds : List α → γ → Prop}
    (deaf : ∀ text text', Alike inert text text' → see text = see text')
    (second : ∀ whole, Reads inert (fun text c => text <+: whole → holds text c) (f (see whole)) (f' (see whole))) :
    Reads inert holds (look see >>= f) (look see >>= f') := by
  intro p c p' read
  obtain ⟨b, p₁, read₁, read₂⟩ := Scanner.bind_eq_ok.mp read
  obtain ⟨rfl, rfl⟩ := Prod.mk.inj (Except.ok.inj read₁)
  obtain ⟨text, ahead, held, again⟩ := second (rest p) p c p' read₂
  refine ⟨text, ahead, held ⟨rest p', ahead.1.symm⟩, fun q after here alike => ?_⟩
  refine Scanner.bind_eq_ok.mpr ⟨see (rest p), q, ?_, again q after here alike⟩
  rw [look, here, ahead.1, deaf _ _ (alike.append text)]

section Loop

variable {enters : σ → α → Option α → Bool} {round round' : σ → α → P → Scanner P ε (σ ⊕ β)}
  {finish finish' : σ → Scanner P ε β}

/-- What the item behind the first one says to a loop does not depend on items that say nothing. -/
def Deaf (inert : α → Prop) (enters : σ → α → Option α → Bool) : Prop :=
  ∀ s c ahead ahead', (ahead = ahead' ∨ (∀ d ∈ ahead, inert d) ∧ ∀ d ∈ ahead', inert d) →
    enters s c ahead = enters s c ahead'

theorem leaves_alike (deaf : Deaf inert enters) (quiet : ∀ s c ahead, inert c → enters s c ahead = false)
    {s : σ} {text text' : List α} (leaves : Leaves enters s text) (alike : Alike inert text text') :
    Leaves enters s text' := by
  cases alike with
  | ends _ quiet' =>
      cases text' with
      | nil => trivial
      | cons c text' => exact quiet s c _ (quiet' c rfl)
  | cons c tail => exact (deaf s c _ _ tail.head).symm.trans leaves

/-- What a run of a loop reads, however it is bounded. -/
def Runs (inert : α → Prop) (enters : σ → α → Option α → Bool) (round : σ → α → P → Scanner P ε (σ ⊕ β))
    (finish : σ → Scanner P ε β) (s : σ) (text : List α) (p' : P) (b : β) : Prop :=
  ∀ n (q : P) after, (rest q).length ≤ n → rest q = text ++ after → Alike inert (rest p') after →
    rounds enters round finish n s q = .ok (b, next^[text.length] q)

theorem runs_finish (deaf : Deaf inert enters)
    (stops : (∀ s p r, finish s p ≠ .ok r) ∨ ∀ s c ahead, inert c → enters s c ahead = false) {s : σ} {p p' : P}
    {b : β} {text : List α} (leaves : Leaves enters s (rest p)) (read : finish s p = .ok (b, p'))
    (ahead : Ahead p text p') (again : ∀ q after, rest q = text ++ after → Alike inert (rest p') after →
      finish' s q = .ok (b, next^[text.length] q)) : Runs inert enters round' finish' s text p' b := by
  intro n q after _ here alike
  have leaves' : Leaves enters s (rest q) := by
    rcases stops with fails | quiet
    · exact absurd read (fails s p (b, p'))
    · rw [ahead.1] at leaves
      rw [here]
      exact leaves_alike deaf quiet leaves (alike.append text)
  rw [rounds_leaves leaves' n]
  exact again q after here alike

theorem runs_round (deaf : Deaf inert enters) {s : σ} {c : α} {p₁ p' : P} {text text' : List α} {b : β}
    {result : σ ⊕ β} (entered : enters s c (text ++ rest p₁).head? = true) (between : Ahead p₁ text' p')
    (again : ∀ at_ q after, rest q = text ++ after → Alike inert (rest p₁) after →
      round' s c at_ q = .ok (result, next^[text.length] q))
    (last : ∀ n (q : P) after, (rest q).length ≤ n → rest q = text' ++ after → Alike inert (rest p') after →
      result.elim (rounds enters round' finish' n · q) (fun b => .ok (b, q)) = .ok (b, next^[text'.length] q)) :
    Runs inert enters round' finish' s (c :: (text ++ text')) p' b := by
  intro n q after short here alike
  rw [List.cons_append, List.append_assoc] at here
  have tail_eq : rest (next q) = text ++ (text' ++ after) := by rw [rest_next, here, List.tail_cons]
  have alike' : Alike inert (rest p₁) (text' ++ after) := between.1 ▸ alike.append text'
  obtain ⟨m, rfl⟩ : ∃ m, n = m + 1 := ⟨n - 1, by rw [here, List.length_cons] at short; omega⟩
  have short' : (text' ++ after).length ≤ m := by
    rw [here, List.length_cons, List.length_append] at short
    omega
  have enters_again : enters s c (text ++ (text' ++ after)).head? = true := by
    rw [← deaf s c _ _ (alike'.append text).head]
    exact entered
  have moved : next^[(c :: (text ++ text')).length] q = next^[text'.length] (next^[text.length] (next q)) := by
    rw [List.length_cons, Function.iterate_succ_apply, List.length_append, Nat.add_comm,
      Function.iterate_add_apply]
  rw [rounds]
  dsimp only
  rw [here]
  dsimp only
  rw [if_pos enters_again, moved]
  refine Scanner.bind_eq_ok.mpr ⟨result, _, again q (next q) _ tail_eq alike', ?_⟩
  have final := last m (next^[text.length] (next q)) after (by rw [Ahead.rest_eq tail_eq]; exact short')
    (Ahead.rest_eq tail_eq) alike
  cases result with
  | inl s' => exact final
  | inr b' => exact final

/-- The rule for loops.  A loop that finishes at an item keeps away from items that say nothing; one that only
fails at the end of the text may take any. -/
theorem loop_ {s : σ} (invariant : List α → σ → Prop) (start : invariant [] s) (deaf : Deaf inert enters)
    (stops : (∀ s p r, finish s p ≠ .ok r) ∨ ∀ s c ahead, inert c → enters s c ahead = false)
    (finished : ∀ text s, invariant text s →
      Reads inert (fun text' b => holds (text ++ text') b) (finish s) (finish' s))
    (step : ∀ text s c ahead at_ at_', invariant text s → enters s c ahead = true →
      Reads inert (fun text' result => result.elim (invariant (text ++ c :: text')) (holds (text ++ c :: text')))
        (round s c at_) (round' s c at_')) :
    Reads inert holds (loop enters round finish s) (loop enters round' finish' s) := by
  have done : ∀ front s, invariant front s → ∀ p : P, Leaves enters s (rest p) → ∀ b p',
      finish s p = .ok (b, p') → ∃ text, Ahead p text p' ∧ holds (front ++ text) b ∧
        Runs inert enters round' finish' s text p' b := by
    intro front s held p leaves b p' read
    obtain ⟨text, ahead, result, again⟩ := finished front s held p b p' read
    exact ⟨text, ahead, result, runs_finish deaf stops leaves read ahead again⟩
  -- The induction is on the bound of the first run; the second one may have any bound that is large enough.
  have run : ∀ n front s, invariant front s → ∀ p : P, (rest p).length ≤ n → ∀ b p',
      rounds enters round finish n s p = .ok (b, p') → ∃ text, Ahead p text p' ∧ holds (front ++ text) b ∧
        Runs inert enters round' finish' s text p' b := by
    intro n
    induction n with
    | zero =>
        intro front s held p short b p' read
        have nothing : rest p = [] := List.length_eq_zero_iff.mp (Nat.le_zero.mp short)
        exact done front s held p (nothing ▸ trivial) b p' read
    | succ n ih =>
        intro front s held p short b p' read
        rw [rounds] at read
        dsimp only at read
        split at read
        · rename_i nothing
          exact done front s held p (nothing ▸ trivial) b p' read
        · rename_i c tail here
          rw [here, List.length_cons] at short
          split at read
          · rename_i entered
            have tail_eq : rest (next p) = tail := by rw [rest_next, here, List.tail_cons]
            obtain ⟨result, p₁, read₁, read₂⟩ := Scanner.bind_eq_ok.mp read
            obtain ⟨text, ahead, held₁, -⟩ := step front s c _ p p held entered (next p) result p₁ read₁
            have again : ∀ at_ q after, rest q = text ++ after → Alike inert (rest p₁) after →
                round' s c at_ q = .ok (result, next^[text.length] q) := by
              intro at_ q after here' alike
              obtain ⟨text', ahead', -, again⟩ := step front s c _ p at_ held entered (next p) result p₁ read₁
              obtain rfl : text' = text := List.append_cancel_right (ahead'.1.symm.trans ahead.1)
              exact again q after here' alike
            rw [← tail_eq, ahead.1] at entered
            have moved := (Ahead.next here).trans ahead
            cases result with
            | inr b' =>
                obtain ⟨rfl, rfl⟩ := Prod.mk.inj (Except.ok.inj read₂)
                refine ⟨c :: text, moved, held₁, ?_⟩
                have runs : Runs inert enters round' finish' s (c :: (text ++ [])) p₁ b' :=
                  runs_round deaf entered (Ahead.refl p₁) again fun _ _ _ _ _ _ => rfl
                rwa [List.append_nil] at runs
            | inl s' =>
                have shorter : (rest p₁).length ≤ n := by
                  have whole := congrArg List.length (tail_eq.symm.trans ahead.1)
                  rw [List.length_append] at whole
                  omega
                obtain ⟨text', ahead', result, runs⟩ := ih _ s' held₁ p₁ shorter b p' read₂
                refine ⟨c :: (text ++ text'), moved.trans ahead', ?_, ?_⟩
                · rw [List.append_assoc, List.cons_append] at result
                  exact result
                · exact runs_round deaf entered ahead' again runs
          · rename_i left_
            refine done front s held p ?_ b p' read
            rw [here]
            exact Bool.eq_false_iff.mpr left_
  intro p b p' read
  obtain ⟨text, ahead, result, runs⟩ := run _ [] s start p le_rfl b p' read
  exact ⟨text, ahead, result, fun q after here alike => runs _ q after le_rfl here alike⟩

end Loop

end Reads

end Reads

/-! ### Unfolding loops -/

section Unfold

open Scanner

/-- A scanner that only moves ahead. -/
def Moves (m : Scanner P ε β) : Prop := ∀ p b p', m p = .ok (b, p') → ∃ text, Ahead p text p'

theorem Reads.moves {inert : α → Prop} {holds : List α → β → Prop} {m m' : Scanner P ε β}
    (reads : Reads inert holds m m') : Moves m := by
  intro p b p' read
  obtain ⟨text, ahead, -⟩ := reads p b p' read
  exact ⟨text, ahead⟩

variable {p : P}

theorem Ahead.length_le {p' : P} {text : List α} (ahead : Ahead p text p') : (rest p').length ≤ (rest p).length := by
  rw [ahead.1, List.length_append]
  exact Nat.le_add_left _ _

variable {enters : σ → α → Option α → Bool} {round : σ → α → P → Scanner P ε (σ ⊕ β)} {finish : σ → Scanner P ε β}

variable {s : σ}

/-- Every bound that is large enough gives the same. -/
theorem rounds_enough (moves : ∀ s c at_, Moves (round s c at_)) {n m : Nat}
    (enough : (rest p).length ≤ n) (enough' : (rest p).length ≤ m) :
    rounds enters round finish n s p = rounds enters round finish m s p := by
  induction n generalizing m s p with
  | zero =>
      have nothing : rest p = [] := List.length_eq_zero_iff.mp (Nat.le_zero.mp enough)
      rw [rounds_leaves (nothing ▸ trivial), rounds_leaves (nothing ▸ trivial)]
  | succ n ih =>
      cases here : rest p with
      | nil => rw [rounds_leaves (here ▸ trivial), rounds_leaves (here ▸ trivial)]
      | cons c text =>
          rw [here, List.length_cons] at enough enough'
          obtain ⟨m, rfl⟩ : ∃ m', m = m' + 1 := ⟨m - 1, by omega⟩
          have next_eq : rest (next p) = text := by rw [rest_next, here, List.tail_cons]
          rw [rounds, rounds]
          dsimp only
          rw [here]
          dsimp only
          split
          · show (round s c p (next p) >>= _) = (round s c p (next p) >>= _)
            cases step : round s c p (next p) with
            | error e => rfl
            | ok result =>
                obtain ⟨result, p'⟩ := result
                obtain ⟨text', ahead⟩ := moves s c p _ _ _ step
                have short := ahead.length_le
                rw [next_eq] at short
                cases result with
                | inl s' => exact ih (by omega) (by omega)
                | inr b => rfl
          · rfl

theorem loop_nil (here : rest p = []) : loop enters round finish s p = finish s p :=
  rounds_leaves (here ▸ trivial) _

/-- A round that goes on. -/
theorem loop_goes_on (moves : ∀ s c at_, Moves (round s c at_)) {s' : σ} {c : α} {text : List α} {p' : P}
    (here : rest p = c :: text) (entered : enters s c text.head? = true)
    (step : round s c p (next p) = .ok (.inl s', p')) :
    loop enters round finish s p = loop enters round finish s' p' := by
  have next_eq : rest (next p) = text := by rw [rest_next, here, List.tail_cons]
  obtain ⟨text', ahead⟩ := moves s c p _ _ _ step
  have short := ahead.length_le
  rw [next_eq] at short
  have unfolded : loop enters round finish s p = rounds enters round finish text.length s' p' := by
    rw [loop, here, List.length_cons, rounds]
    dsimp only
    rw [here]
    dsimp only
    rw [if_pos entered]
    show (round s c p (next p) >>= _) = _
    rw [step]
    rfl
  rw [unfolded]
  exact rounds_enough moves short le_rfl

/-- A round that ends the loop. -/
theorem loop_ends {c : α} {text : List α} {p' : P} {b : β} (here : rest p = c :: text)
    (entered : enters s c text.head? = true) (step : round s c p (next p) = .ok (.inr b, p')) :
    loop enters round finish s p = .ok (b, p') := by
  rw [loop, here, List.length_cons, rounds]
  dsimp only
  rw [here]
  dsimp only
  rw [if_pos entered]
  show (round s c p (next p) >>= _) = _
  rw [step]
  rfl

theorem loop_fails {c : α} {text : List α} {e : ε} (here : rest p = c :: text)
    (entered : enters s c text.head? = true) (step : round s c p (next p) = .error e) :
    loop enters round finish s p = .error e := by
  rw [loop, here, List.length_cons, rounds]
  dsimp only
  rw [here]
  dsimp only
  rw [if_pos entered]
  show (round s c p (next p) >>= _) = _
  rw [step]
  rfl

end Unfold

end Mimi.Lib
