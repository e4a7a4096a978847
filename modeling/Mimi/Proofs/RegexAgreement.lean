/-
Module: Mimi.Proofs.RegexAgreement
Purpose: What the two regex matchers match.  Both read a pattern as a sequence of repeated elements;
  they agree on a pattern that reads the same with its parentheses and without them exactly when the
  groups need not give back anything that they matched first.
Trusted boundary: none
-/
import Mimi.Runtime.Regex

namespace Mimi.Runtime.Regex

open Mimi.Lib

/-! ### Reading patterns -/

/-- The steps of a pattern that has no groups; `^` is skipped after a quantifier. -/
def readErased : Nat → Bytes → List (Step UInt8)
  | _, [] => []
  | 0, _ :: _ => []
  | fuel + 1, b :: bytes =>
      if b = byte '$' && bytes.isEmpty then [.end_]
      else
        let quant := readQuant ((b :: bytes).drop (parseElement (b :: bytes)).1)
        if quant.1 = .once then
          .elem (accepts (b :: bytes)) .once ::
            readErased fuel ((b :: bytes).drop (elemMatch (b :: bytes) 0 (parseElement (b :: bytes)).2).2)
        else .elem (accepts (b :: bytes)) quant.1 :: readErased fuel (skipCaret quant.2)

/-- The steps that the matcher without groups takes. -/
def erasedSteps (pattern : Bytes) : List (Step UInt8) :=
  readErased (skipCaret pattern).length (skipCaret pattern)

/-- A group as a part of a pattern; only a group that holds one element may have a quantifier. -/
def groupNode (inner : List (Node UInt8)) (rep : Repeat) : Option (Node UInt8) :=
  if rep = .once then some (.group inner)
  else
    match steps inner with
    | [.elem accepts .once] => some (.elem accepts rep)
    | _ => none

/-- The parts of a pattern with its groups; `^` is skipped before every part. -/
def readGroups : Nat → Bytes → Option (List (Node UInt8))
  | 0, _ => none
  | fuel + 1, pattern =>
      match skipCaret pattern with
      | [] => some []
      | b :: bytes =>
          if b = byte '$' && bytes.isEmpty then some [.end_]
          else if b = byte '(' then do
            let close ← findMatchingParen (b :: bytes)
            let quant := readQuant ((b :: bytes).drop (close + 1))
            let inner ← readGroups fuel ((b :: bytes).take close).tail
            let node ← groupNode inner quant.1
            let rest ← readGroups fuel quant.2
            return node :: rest
          else do
            let quant := readQuant ((b :: bytes).drop (parseElement (b :: bytes)).1)
            let rest ← readGroups fuel quant.2
            return .elem (accepts (b :: bytes)) quant.1 :: rest

/-- The parts of an expanded pattern, if its groups can be read. -/
def groupNodes (pattern : Bytes) : Option (List (Node UInt8)) :=
  readGroups (pattern.length + 1) pattern

/-! ### Lengths -/

theorem classMembers_length (c c' : UInt8) :
    ∀ class_ : Bytes, (classMembers c class_).2 = (classMembers c' class_).2
  | [] => rfl
  | [b] => by
      rw [classMembers, classMembers]
      split_ifs <;> rfl
  | [b, d] => by
      simp only [classMembers]
      split_ifs <;> rfl
  | b :: d :: e :: bytes => by
      rw [classMembers, classMembers]
      split_ifs
      · rfl
      · exact congrArg (3 + ·) (classMembers_length c c' bytes)
      · exact congrArg (1 + ·) (classMembers_length c c' (d :: e :: bytes))

/-- How far an element goes does not depend on the byte. -/
theorem elemMatch_length (pattern : Bytes) (c c' : UInt8) (isClass : Bool) :
    (elemMatch pattern c isClass).2 = (elemMatch pattern c' isClass).2 := by
  cases pattern with
  | nil => rfl
  | cons b bytes =>
      have inClass : (elemMatchInClass bytes c).2 = (elemMatchInClass bytes c').2 := by
        rw [elemMatchInClass, elemMatchInClass]
        split_ifs
        · exact congrArg (1 + ·) (classMembers_length c c' bytes.tail)
        · exact classMembers_length c c' bytes
      rw [elemMatch, elemMatch]
      split_ifs
      · exact congrArg (1 + ·) inClass
      · cases bytes <;> rfl
      · rfl
      · rfl

theorem elemMatch_pos {b : UInt8} {bytes : Bytes} {c : UInt8} {isClass : Bool}
    (matched : (elemMatch (b :: bytes) c isClass).1 = true) :
    1 ≤ (elemMatch (b :: bytes) c isClass).2 := by
  rw [elemMatch] at matched ⊢
  split_ifs at matched ⊢
  · exact Nat.le_add_right 1 _
  · cases bytes with
    | nil => cases matched
    | cons esc bytes => exact Nat.le_succ 1
  · exact Nat.le_refl 1
  · exact Nat.le_refl 1

theorem parseElement_pos (b : UInt8) (bytes : Bytes) : 1 ≤ (parseElement (b :: bytes)).1 := by
  rw [parseElement]
  split_ifs
  · exact Nat.le_succ 1
  · exact Nat.le_add_right_of_le (Nat.le_succ 1)
  · exact Nat.le_add_right 1 _
  · exact Nat.le_refl 1

theorem readQuant_length (pattern : Bytes) : (readQuant pattern).2.length ≤ pattern.length := by
  rw [readQuant]
  split_ifs <;> simp

theorem skipCaret_length (pattern : Bytes) : (skipCaret pattern).length ≤ pattern.length := by
  rw [skipCaret]
  split_ifs <;> simp

/-- What is left after a quantifier is shorter than the pattern. -/
theorem afterQuant_length (b : UInt8) (bytes : Bytes) :
    (skipCaret (readQuant ((b :: bytes).drop (parseElement (b :: bytes)).1)).2).length ≤
      bytes.length := by
  refine (skipCaret_length _).trans ((readQuant_length _).trans ?_)
  rw [List.length_drop, List.length_cons]
  have progress := parseElement_pos b bytes
  omega

/-! ### The matcher without groups -/

/-- A limit has answered in place of the matcher. -/
def Limited (work : Work) : Prop := work.limited = true

instance (work : Work) : Decidable (Limited work) := inferInstanceAs (Decidable (work.limited = true))

/-- The result of the matcher after some consumed bytes, for the length that it finds. -/
def encode (consumed : Nat) (found : Option Nat) : Int :=
  found.elim (-1) fun length => ((consumed + length : Nat) : Int)

theorem asI32_eq {n : Nat} (short : n < 2 ^ 31) : asI32 n = n := by
  have small : n % 2 ^ 32 = n := Nat.mod_eq_of_lt (by omega)
  rw [asI32, BitVec.toInt_eq_toNat_cond, BitVec.toNat_ofNat, small, if_pos (by omega)]

theorem asI32_encode {consumed length : Nat} (short : consumed + length < 2 ^ 31) :
    asI32 (consumed + length) = encode consumed (some length) := by
  rw [asI32_eq short, encode, Option.elim_some]

theorem encode_add (consumed n : Nat) (found : Option Nat) :
    encode (consumed + n) found = encode consumed (found.map (n + ·)) := by
  cases found with
  | none => rfl
  | some length =>
      rw [Option.map_some, encode, encode, Option.elim_some, Option.elim_some, Nat.add_assoc]

theorem spendWork_stays : Stays Limited spendWork := by
  intro work hit
  rw [spendWork]
  split_ifs
  · rfl
  · exact hit

theorem spendWork_answers : Answers Limited spendWork true := by
  refine ⟨spendWork_stays, fun work free => ?_⟩
  rw [spendWork] at free ⊢
  split_ifs at free ⊢
  · exact absurd rfl free
  · rfl

/-- The number of bytes that an attempt consumes is the count and the length of the rest. -/
theorem attemptCount_answers {again : Bytes → Bytes → Work → Int × Work} {rest text : Bytes}
    {count : Nat} {found : Option Nat}
    (answers : Answers Limited (again rest (text.drop count)) (encode 0 found)) :
    Answers Limited (attemptCount again rest text count) (found.map (count + ·)) := by
  have mapped := answers.map fun r : Int => if 0 ≤ r then some (count + r.toNat) else none
  cases found with
  | none => exact mapped
  | some n =>
      have decoded : (if 0 ≤ encode 0 (some n) then some (count + (encode 0 (some n)).toNat) else none)
          = some (count + n) := by
        rw [encode, Option.elim_some, Nat.zero_add, if_pos (Int.natCast_nonneg n), Int.toNat_natCast]
      rw [decoded] at mapped
      exact mapped

theorem runs_once (accepts : UInt8 → Bool) (rest : List (Step UInt8)) (text : Bytes) :
    (runs (.elem accepts .once :: rest) text).head? =
      if text.head?.any accepts then (runs rest (text.drop 1)).head?.map (1 + ·) else none := by
  rw [runs, head?_follow, lengths]
  split_ifs
  · rw [List.findSome?_singleton]
  · rfl

theorem runs_many (accepts : UInt8 → Bool) {rep : Repeat} (many : rep ≠ .once)
    (rest : List (Step UInt8)) (text : Bytes) :
    (runs (.elem accepts rep :: rest) text).head? =
      (countdown (leastCount rep) (leading accepts text)).findSome? fun n =>
        (runs rest (text.drop n)).head?.map (n + ·) := by
  rw [runs, head?_follow]
  cases rep with
  | once => exact absurd rfl many
  | star => rfl
  | plus => rfl

section Loop

variable {again : Bytes → Bytes → Work → Int × Work}
  (answers : ∀ m pattern text, (skipCaret pattern).length ≤ m → text.length < 2 ^ 31 →
    Answers Limited (again pattern text)
      (encode 0 (runs (readErased m (skipCaret pattern)) text).head?))

include answers

/-- The lengths that a quantified element and the rest of the pattern can match are tried in turn. -/
theorem attempts_answers (fuel : Nat) (accepts : UInt8 → Bool) {rep : Repeat} (many : rep ≠ .once)
    (rest text : Bytes) (consumed : Nat) (enough : (skipCaret rest).length ≤ fuel)
    (short : consumed + text.length < 2 ^ 31) :
    Answers Limited (fun work =>
      let result := tryEach (attemptCount again rest text)
        (countdown (leastCount rep) (leading accepts text)) work
      (result.1.elim (-1) fun length => asI32 (consumed + length), result.2))
      (encode consumed
        (runs (.elem accepts rep :: readErased fuel (skipCaret rest)) text).head?) := by
  have attempt (count : Nat) : Answers Limited (attemptCount again rest text count)
      ((runs (readErased fuel (skipCaret rest)) (text.drop count)).head?.map (count + ·)) := by
    refine attemptCount_answers (answers fuel rest (text.drop count) enough ?_)
    rw [List.length_drop]
    omega
  have all := answers_tryEach (fun count => (attempt count).stays)
    (l := countdown (leastCount rep) (leading accepts text)) fun count _ => attempt count
  rw [← runs_many accepts many] at all
  have mapped := all.map fun found : Option Nat =>
    found.elim (-1) fun length => asI32 (consumed + length)
  cases found : (runs (.elem accepts rep :: readErased fuel (skipCaret rest)) text).head? with
  | none =>
      rw [found] at mapped
      exact mapped
  | some length =>
      have within : length ≤ text.length := mem_runs_le (List.mem_of_mem_head? found)
      rw [found, Option.elim_some, asI32_encode (by omega)] at mapped
      exact mapped

/-- The loop finds the first length that the rest of the pattern can match. -/
theorem matchLoop_answers (fuel m : Nat) (pattern text : Bytes) (consumed : Nat)
    (enough : pattern.length ≤ fuel) (enough' : pattern.length ≤ m)
    (short : consumed + text.length < 2 ^ 31) :
    Answers Limited (matchLoop again fuel pattern text consumed)
      (encode consumed (runs (readErased m pattern) text).head?) := by
  have here : asI32 consumed = encode consumed (some 0) := by
    rw [← asI32_encode (by omega), Nat.add_zero]
  induction fuel generalizing m pattern text consumed with
  | zero =>
      obtain rfl := List.length_eq_zero_iff.mp (Nat.le_zero.mp enough)
      rw [readErased, runs, List.head?_cons, ← here]
      exact answers_pure (asI32 consumed)
  | succ fuel ih =>
      cases pattern with
      | nil =>
          rw [readErased, runs, List.head?_cons, ← here]
          exact answers_pure (asI32 consumed)
      | cons b bytes =>
          obtain ⟨m, rfl⟩ := Nat.exists_eq_succ_of_ne_zero
            (Nat.ne_of_gt (Nat.lt_of_lt_of_le (Nat.succ_pos _) enough'))
          rw [List.length_cons] at enough enough'
          rw [readErased]
          by_cases anchor : (b = byte '$' && bytes.isEmpty) = true
          · rw [if_pos anchor, runs]
            have ends : (if text.isEmpty then runs [] text else []).head? =
                if text.isEmpty then some 0 else none := by
              split_ifs <;> rfl
            rw [ends]
            refine (answers_pure _).congr fun work => ?_
            rw [matchLoop.eq_def]
            dsimp only
            rw [if_pos anchor]
            split_ifs
            · rw [here]
            · rfl
          · rw [if_neg anchor]
            dsimp only
            split_ifs with once
            · rw [runs_once]
              cases text with
              | nil =>
                  refine (answers_pure _).congr fun work => ?_
                  rw [matchLoop.eq_def]
                  dsimp only
                  rw [if_neg anchor, if_pos once]
                  rfl
              | cons c text =>
                  by_cases matched : accepts (b :: bytes) c = true
                  · have progress := elemMatch_pos matched
                    have rest := ih m ((b :: bytes).drop
                      (elemMatch (b :: bytes) c (parseElement (b :: bytes)).2).2) text (consumed + 1)
                      (by rw [List.length_drop, List.length_cons]; omega)
                      (by rw [List.length_drop, List.length_cons]; omega)
                      (by rw [List.length_cons] at short; omega)
                      (by rw [← asI32_encode (by rw [List.length_cons] at short; omega), Nat.add_zero])
                    rw [encode_add, elemMatch_length (b :: bytes) c 0] at rest
                    rw [List.head?_cons, Option.any_some, if_pos matched, List.drop_succ_cons,
                      List.drop_zero]
                    refine rest.congr fun work => ?_
                    rw [matchLoop.eq_def]
                    dsimp only
                    rw [if_neg anchor, if_pos once, elemMatch_length (b :: bytes) c 0]
                    exact if_pos matched
                  · rw [List.head?_cons, Option.any_some, if_neg matched]
                    refine (answers_pure _).congr fun work => ?_
                    rw [matchLoop.eq_def]
                    dsimp only
                    rw [if_neg anchor, if_pos once]
                    exact if_neg matched
            · refine (attempts_answers answers m (accepts (b :: bytes)) once _ text consumed
                ((afterQuant_length b bytes).trans (by omega)) short).congr fun work => ?_
              rw [matchLoop.eq_def]
              dsimp only
              rw [if_neg anchor, if_neg once]

end Loop

/-- Unless a limit is hit, the matcher finds the first length that the steps of the pattern match. -/
theorem matchHere_answers (levels m : Nat) (pattern text : Bytes)
    (enough : (skipCaret pattern).length ≤ m) (short : text.length < 2 ^ 31) :
    Answers Limited (matchHereWithDepth levels pattern text)
      (encode 0 (runs (readErased m (skipCaret pattern)) text).head?) := by
  induction levels generalizing m pattern text with
  | zero =>
      have hits (work : Work) : Limited (matchHereWithDepth 0 pattern text work).2 := rfl
      exact answers_hit hits _
  | succ levels ih =>
      have loop := matchLoop_answers ih (skipCaret pattern).length m (skipCaret pattern) text 0
        (Nat.le_refl _) enough (by omega)
      refine (answers_bind (g := fun spent work =>
        if spent then matchLoop (matchHereWithDepth levels) (skipCaret pattern).length
          (skipCaret pattern) text 0 work else (-1, work)) spendWork_answers (fun spent => ?_)
        loop).congr fun work => rfl
      cases spent with
      | true => exact loop.stays
      | false => exact stays_pure (-1)

/-! ### The matcher with groups -/

/-- A limit has answered in place of the matcher. -/
def CapturesLimited (s : Captures) : Prop := Limited s.work

section Parts

variable {inner rest : Matcher} (text : Bytes)

theorem matchRest_stays (stays : ∀ t, Stays CapturesLimited (rest t)) (t2 : Nat) :
    Stays CapturesLimited (matchRest rest text t2) := fun s hit => stays (text.drop t2) s hit

theorem matchRest_answers {t2 : Nat} {found : Option Nat}
    (answers : Answers CapturesLimited (rest (text.drop t2)) found) :
    Answers CapturesLimited (matchRest rest text t2) (found.map (t2 + ·)) :=
  ⟨fun s hit => answers.stays s hit,
    fun s free => congrArg (Option.map (t2 + ·)) (answers.gives s free)⟩

theorem repeatGroup_stays (stays : ∀ t, Stays CapturesLimited (inner t)) (count t2 : Nat) :
    Stays CapturesLimited (repeatGroup inner text count t2) := by
  induction count generalizing t2 with
  | zero => exact stays_pure (some t2)
  | succ count ih =>
      intro s hit
      have first : CapturesLimited (inner (text.drop t2) { s with caps := [] }).2 :=
        stays (text.drop t2) _ hit
      rw [repeatGroup]
      dsimp only
      cases (inner (text.drop t2) { s with caps := [] }).1 with
      | none => exact first
      | some n => exact ih (t2 + n) _ first

/-- The first lengths of a group's content, one after another. -/
def repeatFirst (first : Bytes → Option Nat) (text : Bytes) : Nat → Nat → Option Nat
  | 0, t2 => some t2
  | count + 1, t2 =>
      (first (text.drop t2)).bind fun n => repeatFirst first text count (t2 + n)

theorem repeatGroup_answers {first : Bytes → Option Nat}
    (answers : ∀ t, Answers CapturesLimited (inner t) (first t)) (count t2 : Nat) :
    Answers CapturesLimited (repeatGroup inner text count t2)
      (repeatFirst first text count t2) := by
  refine ⟨repeatGroup_stays _ (fun t => (answers t).stays) count t2, ?_⟩
  induction count generalizing t2 with
  | zero => exact fun _ _ => rfl
  | succ count ih =>
      intro s free
      have gives := (answers (text.drop t2)).gives { s with caps := [] }
      have stays := repeatGroup_stays text (fun t => (answers t).stays) count
      rw [repeatGroup] at free ⊢
      rw [repeatFirst]
      dsimp only at free ⊢
      cases found : (inner (text.drop t2) { s with caps := [] }).1 with
      | none =>
          rw [found] at free gives
          rw [← gives free]
          rfl
      | some n =>
          rw [found] at free gives
          have early : ¬CapturesLimited (inner (text.drop t2) { s with caps := [] }).2 :=
            fun hit => free (stays (t2 + n) _ hit)
          rw [← gives early]
          exact ih (t2 + n) _ free

theorem attemptGroup_stays (stays : ∀ t, Stays CapturesLimited (inner t))
    (stays' : ∀ t, Stays CapturesLimited (rest t)) (count : Nat) :
    Stays CapturesLimited (attemptGroup inner rest text count) := by
  intro s hit
  have repeated : CapturesLimited (repeatGroup inner text count 0 s).2 :=
    repeatGroup_stays _ stays count 0 s hit
  rw [attemptGroup]
  dsimp only
  cases (repeatGroup inner text count 0 s).1 with
  | none => exact repeated
  | some t2 =>
      refine matchRest_stays _ stays' t2 _ ?_
      split_ifs
      · rfl
      · exact repeated

/-- A group: its content a number of times, then the rest of the pattern. -/
theorem attemptGroup_answers {first after : Bytes → Option Nat}
    (answers : ∀ t, Answers CapturesLimited (inner t) (first t))
    (answers' : ∀ t, Answers CapturesLimited (rest t) (after t)) (count : Nat) :
    Answers CapturesLimited (attemptGroup inner rest text count)
      ((repeatFirst first text count 0).bind fun t2 =>
        (after (text.drop t2)).map (t2 + ·)) := by
  refine ⟨attemptGroup_stays _ (fun t => (answers t).stays) (fun t => (answers' t).stays) count,
    fun s free => ?_⟩
  have gives := (repeatGroup_answers text answers count 0).gives s
  rw [attemptGroup] at free ⊢
  dsimp only at free ⊢
  cases found : (repeatGroup inner text count 0 s).1 with
  | none =>
      rw [found] at free gives
      rw [← gives free]
      rfl
  | some t2 =>
      rw [found] at free gives
      have later := fun s' free' => (matchRest_answers _ (answers' (text.drop t2))).gives s' free'
      have early : ¬CapturesLimited (repeatGroup inner text count 0 s).2 := by
        refine fun hit => free (matchRest_stays _ (fun t => (answers' t).stays) t2 _ ?_)
        split_ifs
        · rfl
        · exact hit
      rw [← gives early]
      exact later _ free

/-- At the cap, a group that matches hits the limit. -/
theorem attemptGroup_hits {first : Bytes → Option Nat} {t2 : Nat}
    (answers : ∀ t, Answers CapturesLimited (inner t) (first t))
    (stays : ∀ t, Stays CapturesLimited (rest t))
    (matches_ : repeatFirst first text repetitionCap 0 = some t2) (s : Captures) :
    CapturesLimited (attemptGroup inner rest text repetitionCap s).2 := by
  have gives := (repeatGroup_answers text answers repetitionCap 0).gives s
  rw [attemptGroup]
  dsimp only
  cases found : (repeatGroup inner text repetitionCap 0 s).1 with
  | none =>
      by_contra free
      rw [found, matches_] at gives
      cases gives free
  | some t2 => exact matchRest_stays _ stays t2 _ (by rw [if_pos rfl]; rfl)

theorem attemptElem_stays (accepts : UInt8 → Bool) (stays : ∀ t, Stays CapturesLimited (rest t))
    (count : Nat) : Stays CapturesLimited (attemptElem accepts rest text count) := by
  intro s hit
  rw [attemptElem]
  split_ifs
  · exact matchRest_stays _ stays count s hit
  · exact hit

theorem attemptElem_answers (accepts : UInt8 → Bool) {count : Nat} {found : Option Nat}
    (answers : ∀ t, Stays CapturesLimited (rest t))
    (gives : Answers CapturesLimited (rest (text.drop count)) found) :
    Answers CapturesLimited (attemptElem accepts rest text count)
      (if takes accepts count text then found.map (count + ·) else none) := by
  refine ⟨attemptElem_stays _ accepts answers count, fun s free => ?_⟩
  rw [attemptElem] at free ⊢
  split_ifs at free ⊢
  · exact (matchRest_answers _ gives).gives s free
  · rfl

end Parts

/-! ### Counting -/

theorem takes_iff (accepts : UInt8 → Bool) (count : Nat) (text : Bytes) :
    takes accepts count text = true ↔ count ≤ leading accepts text := by
  induction count generalizing text with
  | zero => exact iff_of_true rfl (Nat.zero_le _)
  | succ count ih =>
      cases text with
      | nil => exact iff_of_false (fun impossible => by cases impossible) (Nat.not_succ_le_zero _)
      | cons c text =>
          rw [takes, leading, List.takeWhile_cons, Bool.and_eq_true, ih]
          by_cases accepted : accepts c = true
          · rw [if_pos accepted, List.length_cons, Nat.succ_le_succ_iff]
            exact and_iff_right accepted
          · rw [if_neg accepted]
            exact iff_of_false (fun both => accepted both.1) (Nat.not_succ_le_zero _)

theorem cappedLeading_eq (accepts : UInt8 → Bool) (count : Nat) (text : Bytes)
    (within : count ≤ repetitionCap) :
    cappedLeading accepts count text =
      if count + leading accepts text ≤ repetitionCap then (count + leading accepts text, false)
      else (repetitionCap + 1, true) := by
  induction text generalizing count with
  | nil =>
      rw [cappedLeading, leading, List.takeWhile_nil]
      exact (if_pos within).symm
  | cons c text ih =>
      rw [cappedLeading]
      by_cases accepted : accepts c = true
      · have longer : leading accepts (c :: text) = leading accepts text + 1 := by
          rw [leading, List.takeWhile_cons, if_pos accepted, List.length_cons, leading]
        rw [if_pos accepted, longer]
        by_cases above : repetitionCap < count + 1
        · rw [if_pos above, if_neg (by omega), show count = repetitionCap by omega]
        · rw [if_neg above, ih (count + 1) (by omega), Nat.add_assoc, Nat.add_comm 1]
      · have none_ : leading accepts (c :: text) = 0 := by
          rw [leading, List.takeWhile_cons, if_neg accepted, List.length_nil]
        rw [if_neg accepted, none_]
        exact (if_pos within).symm

/-- A content that matches one accepted byte, repeated. -/
theorem repeatFirst_single {first : Bytes → Option Nat} {accepts : UInt8 → Bool}
    (single : ∀ t, first t = if t.head?.any accepts then some 1 else none) (count t2 : Nat)
    (text : Bytes) : repeatFirst first text count t2 =
      if takes accepts count (text.drop t2) then some (t2 + count) else none := by
  induction count generalizing t2 with
  | zero => rfl
  | succ count ih =>
      rw [repeatFirst, single]
      cases rest : text.drop t2 with
      | nil => rfl
      | cons c tail =>
          have tail_eq : text.drop (t2 + 1) = tail := by
            rw [← List.drop_drop, rest, List.drop_succ_cons, List.drop_zero]
          rw [List.head?_cons, Option.any_some, takes]
          by_cases accepted : accepts c = true
          · rw [if_pos accepted, Option.bind_some, ih, tail_eq, accepted, Bool.true_and,
              Nat.add_assoc, Nat.add_comm 1]
          · rw [if_neg accepted, Option.bind_none, Bool.eq_false_iff.mpr accepted, Bool.false_and]
            rfl

variable {nodes : List (Node UInt8)}

/-- A tree that amounts to one element matches one accepted byte. -/
theorem committed_single {accepts : UInt8 → Bool} (single : steps nodes = [.elem accepts .once]) (text : Bytes) :
    (committed nodes text).head? = if text.head?.any accepts then some 1 else none := by
  rw [committed_eq_runs_of_rigid nodes text (by rw [single]; rfl), single, runs_once, runs]
  rfl

/-! ### Patterns with groups -/

/-- A repetition that is cut short hits a limit. -/
theorem hit_or {s : Captures} {capped : Bool} (hit : CapturesLimited s) :
    CapturesLimited { s with work := if capped then s.work.hit else s.work } := by
  cases capped with
  | true => rfl
  | false => exact hit

theorem matchParts_stays {again : Bytes → Matcher}
    (stays : ∀ pattern text, Stays CapturesLimited (again pattern text)) (pattern text : Bytes) :
    Stays CapturesLimited (matchParts again pattern text) := by
  intro s hit
  cases pattern with
  | nil => exact hit
  | cons b bytes =>
      rw [matchParts]
      by_cases anchor : (b = byte '$' && bytes.isEmpty) = true
      · rw [if_pos anchor]
        exact hit
      · rw [if_neg anchor]
        by_cases open_ : b = byte '('
        · rw [if_pos open_]
          cases findMatchingParen (b :: bytes) with
          | none => exact hit
          | some close =>
              exact stays_tryEach (fun count => attemptGroup_stays _ (stays _) (stays _) count) _ s hit
        · rw [if_neg open_]
          refine stays_tryEach (fun count => attemptElem_stays _ _ (stays _) count) _ _ ?_
          exact hit_or hit

theorem matchWithCaptures_stays (levels : Nat) (pattern text : Bytes) :
    Stays CapturesLimited (matchWithCaptures levels pattern text) := by
  induction levels generalizing pattern text with
  | zero => exact fun s _ => rfl
  | succ levels ih =>
      intro s hit
      have spent : Limited (spendWork s.work).2 := spendWork_stays s.work hit
      rw [matchWithCaptures]
      split_ifs
      · exact matchParts_stays ih _ _ _ spent
      · exact spent

section Groups

variable {again : Bytes → Matcher}
  (stays : ∀ pattern text, Stays CapturesLimited (again pattern text))
  (answers : ∀ fuel pattern nodes, readGroups fuel pattern = some nodes → ∀ text,
    Answers CapturesLimited (again pattern text) (committed nodes text).head?)
  {fuel : Nat} {after : Bytes} {rest : List (Node UInt8)}
  (reads : readGroups fuel after = some rest)

include stays answers reads

/-- An element of the pattern, with what follows it. -/
theorem elem_answers (accepts : UInt8 → Bool) (rep : Repeat) (text : Bytes) :
    Answers CapturesLimited (fun s =>
      let most := if rep = .once then (1, false) else cappedLeading accepts 0 text
      tryEach (attemptElem accepts (again after) text) (countdown (leastCount rep) most.1)
        { s with work := if most.2 then s.work.hit else s.work })
      (committed (.elem accepts rep :: rest) text).head? := by
  have attempt (count : Nat) := attemptElem_answers text accepts
    (stays after) (answers fuel after rest reads (text.drop count))
  have staysElem := fun count => attemptElem_stays text accepts (stays after) count
  rw [committed, head?_follow, Node.committed]
  by_cases once : rep = .once
  · subst once
    have all := answers_tryEach staysElem (l := [1]) fun count _ => attempt count
    have same : ([1].findSome? fun count => if takes accepts count text then
        (committed rest (text.drop count)).head?.map (count + ·) else none) =
        (lengths accepts .once text).findSome? fun n =>
          (committed rest (text.drop n)).head?.map (n + ·) := by
      rw [List.findSome?_singleton, lengths]
      cases text with
      | nil => rfl
      | cons c text =>
          rw [takes, takes, Bool.and_true, List.head?_cons, Option.any_some]
          split_ifs
          · rw [List.findSome?_singleton]
          · rfl
    rw [same] at all
    exact all.congr fun s => rfl
  · have counted : lengths accepts rep text =
        countdown (leastCount rep) (leading accepts text) := by
      cases rep with
      | once => exact absurd rfl once
      | star | plus => rfl
    rw [counted]
    have capped := cappedLeading_eq accepts 0 text (Nat.zero_le _)
    rw [Nat.zero_add] at capped
    by_cases fits : leading accepts text ≤ repetitionCap
    · rw [if_pos fits] at capped
      have all := answers_tryEach staysElem
        (l := countdown (leastCount rep) (leading accepts text)) fun count _ => attempt count
      rw [findSome?_congr (g := fun n => (committed rest (text.drop n)).head?.map (n + ·))
        fun count member => if_pos ((takes_iff _ _ _).mpr (mem_countdown.mp member).2)] at all
      refine all.congr fun s => ?_
      dsimp only
      rw [if_neg once, capped]
      rfl
    · rw [if_neg fits] at capped
      refine answers_hit (fun s => ?_) _
      dsimp only
      rw [if_neg once, capped]
      exact stays_tryEach staysElem _ _ rfl

/-- A group of the pattern, with what follows it. -/
theorem group_answers {inner : Bytes} (reads' : readGroups fuel inner = some nodes) {rep : Repeat} {node : Node UInt8}
    (group : groupNode nodes rep = some node) (text : Bytes) :
    Answers CapturesLimited (tryEach (attemptGroup (again inner) (again after) text)
      (countdown (groupBounds rep).1 (groupBounds rep).2))
      (committed (node :: rest) text).head? := by
  have attempt (count : Nat) := attemptGroup_answers text
    (answers fuel inner nodes reads') (answers fuel after rest reads) count
  have staysGroup := fun count =>
    attemptGroup_stays text (stays inner) (stays after) count
  rw [committed, head?_follow]
  rw [groupNode] at group
  split_ifs at group with once
  · -- the group commits to the first length of its content
    obtain rfl := Option.some.inj group
    subst once
    have all := answers_tryEach staysGroup (l := [1]) fun count _ => attempt count
    have same : ([1].findSome? fun count =>
        (repeatFirst (fun t => (committed nodes t).head?) text count 0).bind fun t2 =>
          (committed rest (text.drop t2)).head?.map (t2 + ·)) =
        ((Node.group nodes).committed text).findSome? fun n =>
          (committed rest (text.drop n)).head?.map (n + ·) := by
      rw [List.findSome?_singleton, Node.committed, repeatFirst, List.drop_zero]
      cases (committed nodes text).head? with
      | none => rfl
      | some n =>
          rw [Option.bind_some, repeatFirst, Option.bind_some, Nat.zero_add, Option.toList_some,
            List.findSome?_singleton]
    rw [same] at all
    exact all.congr fun s => rfl
  · -- the content is one element, and the group stands for its repetition
    split at group
    case h_2 => cases group
    case h_1 accepts single =>
      obtain rfl := Option.some.inj group
      have first := fun t => committed_single single t
      have repeated := fun count => repeatFirst_single first count 0 text
      have counted : lengths accepts rep text =
          countdown (groupBounds rep).1 (leading accepts text) := by
        cases rep with
        | once => exact absurd rfl once
        | star | plus => rfl
      have most : (groupBounds rep).2 = repetitionCap := by
        cases rep with
        | once => exact absurd rfl once
        | star | plus => rfl
      rw [Node.committed, counted, most]
      by_cases below : leading accepts text < repetitionCap
      · have all := answers_tryEach staysGroup
          (l := countdown (groupBounds rep).1 repetitionCap) fun count _ => attempt count
        rw [← findSome?_countdown (Nat.le_of_lt below)]
        refine Answers.congr ?_ fun s => rfl
        rw [findSome?_congr (g := fun n => if n ≤ leading accepts text then
          (committed rest (text.drop n)).head?.map (n + ·) else none) fun count _ => ?_] at all
        · exact all
        · rw [repeated, List.drop_zero, Nat.zero_add]
          by_cases within : count ≤ leading accepts text
          · rw [if_pos ((takes_iff _ _ _).mpr within), if_pos within, Option.bind_some]
          · rw [if_neg fun taken => within ((takes_iff _ _ _).mp taken), if_neg within,
              Option.bind_none]
      · refine answers_hit (fun s => ?_) _
        have full : takes accepts repetitionCap (text.drop 0) = true :=
          (takes_iff _ _ _).mpr (not_lt.mp below)
        have matches_ := repeated repetitionCap
        rw [if_pos full] at matches_
        have hits := attemptGroup_hits text (answers fuel inner nodes reads')
          (stays after) matches_ s
        have capped : countdown (groupBounds rep).1 repetitionCap =
            repetitionCap :: countdown (groupBounds rep).1 (repetitionCap - 1) := by
          cases rep <;> rfl
        rw [capped, tryEach]
        split_ifs
        · exact hits
        · exact stays_tryEach staysGroup _ _ hits

end Groups

/-- Unless a limit is hit, the matcher finds the first length that the parts of the pattern match when
its groups commit. -/
theorem matchWithCaptures_answers (levels fuel : Nat) (pattern : Bytes) (nodes : List (Node UInt8))
    (reads : readGroups fuel pattern = some nodes) (text : Bytes) :
    Answers CapturesLimited (matchWithCaptures levels pattern text) (committed nodes text).head? := by
  induction levels generalizing fuel pattern nodes text with
  | zero =>
      have hits (s : Captures) : CapturesLimited (matchWithCaptures 0 pattern text s).2 := rfl
      exact answers_hit hits _
  | succ levels ih =>
      have stays := matchWithCaptures_stays levels
      have parts : Answers CapturesLimited
          (matchParts (matchWithCaptures levels) (skipCaret pattern) text)
          (committed nodes text).head? := by
        cases fuel with
        | zero => cases reads
        | succ fuel =>
            rw [readGroups] at reads
            cases rest : skipCaret pattern with
            | nil =>
                rw [rest] at reads
                obtain rfl := Option.some.inj reads
                exact answers_pure (some 0)
            | cons b bytes =>
                rw [rest] at reads
                dsimp only at reads
                by_cases anchor : (b = byte '$' && bytes.isEmpty) = true
                · rw [if_pos anchor] at reads
                  obtain rfl := Option.some.inj reads
                  have ends : (committed [.end_] text).head? =
                      if text.isEmpty then some 0 else none := by
                    rw [committed, Node.committed]
                    split_ifs <;> rfl
                  rw [ends]
                  refine (answers_pure _).congr fun s => ?_
                  rw [matchParts, if_pos anchor]
                · rw [if_neg anchor] at reads
                  by_cases open_ : b = byte '('
                  · rw [if_pos open_] at reads
                    simp only [Option.bind_eq_bind, Option.bind_eq_some_iff, Option.pure_def,
                      Option.some.injEq] at reads
                    obtain ⟨close, closes, inner, reads', node, group, after, reads'', rfl⟩ := reads
                    refine (group_answers stays ih reads'' reads' group text).congr fun s => ?_
                    rw [matchParts, if_neg anchor, if_pos open_, closes]
                  · rw [if_neg open_] at reads
                    simp only [Option.bind_eq_bind, Option.bind_eq_some_iff, Option.pure_def,
                      Option.some.injEq] at reads
                    obtain ⟨after, reads', rfl⟩ := reads
                    refine (elem_answers stays ih reads' _ _ text).congr fun s => ?_
                    rw [matchParts, if_neg anchor, if_neg open_]
      refine ⟨matchWithCaptures_stays (levels + 1) pattern text, fun s free => ?_⟩
      rw [matchWithCaptures] at free ⊢
      by_cases spent : (spendWork s.work).1 = true
      · rw [if_pos spent] at free ⊢
        exact parts.gives _ free
      · rw [if_neg spent] at free
        exact absurd (spendWork_answers.gives s.work free) spent

/-! ### Scanning a text -/

/-- The first position, counted from `start`, where something is found; an anchored scan only looks at
the front. -/
def firstFound (found : Bytes → Bool) (anchored : Bool) : Nat → Bytes → Option Nat
  | start, [] => if found [] then some start else none
  | start, b :: text =>
      if found (b :: text) then some start
      else if anchored then none
      else firstFound found anchored (start + 1) text

theorem encode_nonneg (found : Option Nat) : decide (0 ≤ encode 0 found) = found.isSome := by
  cases found with
  | none => rfl
  | some n => exact decide_eq_true (Int.natCast_nonneg _)

/-- What a scan does after the attempt at one position. -/
theorem scanPattern_cons (pattern : Bytes) (anchored : Bool) (start : Nat) (b : UInt8)
    (text : Bytes) {found : Bool} {later : Option Nat}
    (here : Answers Limited (fun work =>
      (decide (0 ≤ (matchHereWithDepth regexMaxDepth pattern (b :: text) work).1),
        (matchHereWithDepth regexMaxDepth pattern (b :: text) work).2)) found)
    (rest : Answers Limited (scanPattern pattern anchored (start + 1) text) later) :
    Answers Limited (scanPattern pattern anchored start (b :: text))
      (if found then some start else if anchored then none else later) := by
  refine (answers_bind (g := fun hit work =>
    if hit then (some start, work)
    else if anchored then (none, work)
    else scanPattern pattern anchored (start + 1) text work) here (fun hit => ?_) ?_).congr
      fun work => ?_
  · split_ifs
    · exact stays_pure _
    · exact stays_pure _
    · exact rest.stays
  · split_ifs
    · exact answers_pure _
    · exact answers_pure _
    · exact rest
  · rw [scanPattern]
    by_cases hit : 0 ≤ (matchHereWithDepth regexMaxDepth pattern (b :: text) work).1
    · rw [if_pos hit, decide_eq_true hit]
      rfl
    · rw [if_neg hit, decide_eq_false hit]
      rfl

theorem matchHere_found (pattern text : Bytes) (short : text.length < 2 ^ 31) :
    Answers Limited (fun work =>
      (decide (0 ≤ (matchHereWithDepth regexMaxDepth pattern text work).1),
        (matchHereWithDepth regexMaxDepth pattern text work).2))
      (runs (erasedSteps pattern) text).head?.isSome := by
  have here := matchHere_answers regexMaxDepth _ pattern text (Nat.le_refl _) short
  have found := here.map fun r : Int => decide (0 ≤ r)
  rw [encode_nonneg] at found
  exact found

/-- Unless a limit is hit, the scan finds the first position where the sequence matches. -/
theorem scanPattern_answers (pattern : Bytes) (anchored : Bool) (start : Nat) (text : Bytes)
    (short : text.length < 2 ^ 31) :
    Answers Limited (scanPattern pattern anchored start text)
      (firstFound (fun t => (runs (erasedSteps pattern) t).head?.isSome) anchored start text) := by
  induction text generalizing start with
  | nil =>
      have here := (matchHere_found pattern [] short).map fun hit => if hit then some start else none
      refine here.congr fun work => ?_
      rw [scanPattern]
      by_cases hit : 0 ≤ (matchHereWithDepth regexMaxDepth pattern [] work).1
      · rw [if_pos hit, decide_eq_true hit]
        rfl
      · rw [if_neg hit, decide_eq_false hit]
        rfl
  | cons b text ih =>
      exact scanPattern_cons pattern anchored start b text (matchHere_found pattern (b :: text) short)
        (ih (start + 1) (Nat.lt_of_succ_lt short))

/-- The attempt at one position, which starts with no captures. -/
def capturesAt (pattern text : Bytes) (work : Work) : Option (List (Option Span)) × Work :=
  let result := matchWithCaptures regexMaxDepth pattern text ⟨[], work⟩
  (if result.1.isSome then some result.2.caps else none, result.2.work)

variable {pattern : Bytes}

theorem capturesAt_answers (reads : groupNodes pattern = some nodes) (text : Bytes) :
    Answers Limited (fun work => ((capturesAt pattern text work).1.isSome,
      (capturesAt pattern text work).2)) (committed nodes text).head?.isSome := by
  have here := matchWithCaptures_answers regexMaxDepth _ pattern nodes reads text
  refine ⟨fun work hit => here.stays ⟨[], work⟩ hit, fun work free => ?_⟩
  have gives := here.gives ⟨[], work⟩ free
  dsimp only [capturesAt]
  rw [gives]
  cases (committed nodes text).head? <;> rfl

theorem scanCaptures_nil (pattern : Bytes) (anchored : Bool) (start : Nat) (work : Work) :
    scanCaptures pattern anchored start [] work =
      ((capturesAt pattern [] work).1.map (start, ·), (capturesAt pattern [] work).2) := by
  rw [scanCaptures, capturesAt]
  split_ifs <;> rfl

theorem scanCaptures_cons (pattern : Bytes) (anchored : Bool) (start : Nat) (b : UInt8)
    (text : Bytes) (work : Work) :
    scanCaptures pattern anchored start (b :: text) work =
      if (capturesAt pattern (b :: text) work).1.isSome then
        ((capturesAt pattern (b :: text) work).1.map (start, ·),
          (capturesAt pattern (b :: text) work).2)
      else if anchored then (none, (capturesAt pattern (b :: text) work).2)
      else scanCaptures pattern anchored (start + 1) text (capturesAt pattern (b :: text) work).2 := by
  rcases result : matchWithCaptures regexMaxDepth pattern (b :: text) ⟨[], work⟩ with ⟨found, s⟩
  simp only [scanCaptures, capturesAt, result]
  cases found <;> rfl

/-- Unless a limit is hit, the scan finds the first position where the parts match when groups commit. -/
theorem scanCaptures_answers
    (reads : groupNodes pattern = some nodes) (anchored : Bool) (start : Nat) (text : Bytes) :
    Answers Limited (fun work => ((scanCaptures pattern anchored start text work).1.map Prod.fst,
      (scanCaptures pattern anchored start text work).2))
      (firstFound (fun t => (committed nodes t).head?.isSome) anchored start text) := by
  induction text generalizing start with
  | nil =>
      have here := (capturesAt_answers reads []).map fun hit => if hit then some start else none
      refine here.congr fun work => ?_
      rw [scanCaptures_nil]
      cases (capturesAt pattern [] work).1 <;> rfl
  | cons b text ih =>
      have later := ih (start + 1)
      refine (answers_bind (g := fun hit work =>
        if hit then (some start, work)
        else if anchored then (none, work)
        else ((scanCaptures pattern anchored (start + 1) text work).1.map Prod.fst,
          (scanCaptures pattern anchored (start + 1) text work).2))
        (capturesAt_answers reads (b :: text)) (fun hit => ?_) ?_).congr fun work => ?_
      · split_ifs
        · exact stays_pure _
        · exact stays_pure _
        · exact later.stays
      · rw [firstFound]
        split_ifs
        · exact answers_pure _
        · exact answers_pure _
        · exact later
      · rw [scanCaptures_cons]
        cases capturesAt pattern (b :: text) work with
        | mk caps after =>
            cases caps with
            | some caps => rfl
            | none => cases anchored <;> rfl

/-! ### Agreement -/

/-- The first position of a text at which something is found, which is the front if the search is
anchored. -/
structure IsFirst (found : Bytes → Bool) (anchored : Bool) (text : Bytes) (n : Nat) : Prop where
  within : n ≤ text.length
  front : anchored = true → n = 0
  here : found (text.drop n) = true
  first : ∀ m < n, found (text.drop m) = false

variable {anchored : Bool}

theorem isFirst_zero {found : Bytes → Bool} {text : Bytes} :
    IsFirst found anchored text 0 ↔ found text = true :=
  ⟨fun h => h.here, fun h => ⟨Nat.zero_le _, fun _ => rfl, h, fun m below => absurd below (by omega)⟩⟩

theorem isFirst_succ {found : Bytes → Bool} {b : UInt8} {text : Bytes} {n : Nat} :
    IsFirst found anchored (b :: text) (n + 1) ↔
      found (b :: text) = false ∧ anchored = false ∧ IsFirst found false text n := by
  constructor
  · intro h
    refine ⟨h.first 0 (Nat.succ_pos n), ?_, Nat.le_of_succ_le_succ h.within,
      fun anchor => absurd anchor Bool.false_ne_true, h.here,
      fun m below => h.first (m + 1) (Nat.succ_lt_succ below)⟩
    exact Bool.eq_false_iff.mpr fun anchor => absurd (h.front anchor) (Nat.succ_ne_zero n)
  · rintro ⟨front, anchor, h⟩
    refine ⟨Nat.succ_le_succ h.within, fun anchor' => ?_, h.here, fun m below => ?_⟩
    · exact absurd (anchor.symm.trans anchor') Bool.false_ne_true
    · cases m with
      | zero => exact front
      | succ m => exact h.first m (Nat.lt_of_succ_lt_succ below)

theorem firstFound_eq_some_iff {found : Bytes → Bool} {start n : Nat}
    {text : Bytes} : firstFound found anchored start text = some n ↔
      ∃ k, IsFirst found anchored text k ∧ start + k = n := by
  induction text generalizing start with
  | nil =>
      rw [firstFound]
      constructor
      · intro h
        split_ifs at h with here
        exact ⟨0, isFirst_zero.mpr here, Option.some.inj h⟩
      · rintro ⟨k, first, rfl⟩
        obtain rfl := Nat.le_zero.mp first.within
        rw [if_pos (isFirst_zero.mp first), Nat.add_zero]
  | cons b text ih =>
      rw [firstFound]
      by_cases here : found (b :: text) = true
      · rw [if_pos here]
        constructor
        · exact fun h => ⟨0, isFirst_zero.mpr here, Option.some.inj h⟩
        · rintro ⟨k, first, rfl⟩
          cases k with
          | zero => rfl
          | succ k => exact absurd (here.symm.trans (isFirst_succ.mp first).1) (by decide)
      · rw [if_neg here]
        by_cases anchor : anchored = true
        · rw [if_pos anchor]
          refine ⟨nofun, ?_⟩
          rintro ⟨k, first, rfl⟩
          obtain rfl := first.front anchor
          exact absurd first.here here
        · rw [if_neg anchor, ih]
          have anchor' := Bool.eq_false_iff.mpr anchor
          constructor
          · rintro ⟨k, first, rfl⟩
            subst anchor'
            exact ⟨k + 1, isFirst_succ.mpr ⟨Bool.eq_false_iff.mpr here, rfl, first⟩, by omega⟩
          · rintro ⟨k, first, rfl⟩
            cases k with
            | zero => exact absurd first.here here
            | succ k =>
                subst anchor'
                exact ⟨k, (isFirst_succ.mp first).2.2, by omega⟩

/-- Where one search finds nothing that the other does not find, both come to the same position exactly
when the first position that the other finds is found by both. -/
theorem firstFound_eq_iff {found found' : Bytes → Bool}
    (implied : ∀ text, found' text = true → found text = true) (anchored : Bool) (text : Bytes) :
    firstFound found' anchored 0 text = firstFound found anchored 0 text ↔
      ∀ n, IsFirst found anchored text n → found' (text.drop n) = true := by
  constructor
  · intro same n first
    have hit := firstFound_eq_some_iff.mpr ⟨n, first, Nat.zero_add n⟩
    rw [← same] at hit
    obtain ⟨k, first', rfl⟩ := firstFound_eq_some_iff.mp hit
    rw [Nat.zero_add]
    exact first'.here
  · intro both
    refine Option.ext fun n => ?_
    simp only [firstFound_eq_some_iff, Nat.zero_add, exists_eq_right]
    have below {m : Nat} (missed : found (text.drop m) = false) : found' (text.drop m) = false := by
      refine Bool.eq_false_iff.mpr fun hit => ?_
      exact Bool.false_ne_true (missed.symm.trans (implied _ hit))
    constructor
    · intro first'
      refine ⟨first'.within, first'.front, implied _ first'.here, fun m earlier => ?_⟩
      -- the least position up to `m` would be found by both, and `n` is the first one of those
      refine Bool.eq_false_iff.mpr fun hit => ?_
      have some_ : ∃ m, found (text.drop m) = true := ⟨m, hit⟩
      have least : IsFirst found anchored text (Nat.find some_) := by
        refine ⟨?_, fun anchor => ?_, Nat.find_spec some_, fun m' earlier' => ?_⟩
        · exact (Nat.find_min' some_ hit).trans (earlier.le.trans first'.within)
        · have none_ := first'.front anchor
          omega
        · exact Bool.eq_false_iff.mpr (Nat.find_min some_ earlier')
      have missed := first'.first _ ((Nat.find_min' some_ hit).trans_lt earlier)
      exact Bool.false_ne_true (missed.symm.trans (both _ least))
    · intro first
      exact ⟨first.within, first.front, both n first, fun m earlier => below (first.first m earlier)⟩

/-- Neither search of a text hits a limit. -/
def WithinLimits (text expanded : Bytes) : Prop :=
  ¬Limited (matchStart text expanded).2 ∧ ¬Limited (captureStart text expanded).2

/-- Both matchers succeed, and start at the same position, or both fail. -/
def MatchersAgree (text pattern expanded : Bytes) : Prop :=
  matchPattern text pattern = (captureGroups text pattern).map Option.isSome ∧
    (matchStart text expanded).1 = (captureStart text expanded).1.map Prod.fst

/-- A pattern that consists of the same elements, in the same order and repeated in the same way, with
its parentheses erased and group by group.  An anchor inside the pattern, a parenthesis without its partner and
a quantifier behind a group of more than one element are read in two ways. -/
structure SameReading (expanded : Bytes) (nodes : List (Node UInt8)) : Prop where
  reads : groupNodes expanded = some nodes
  elements : erasedSteps (stripCaptures expanded) = steps nodes
  anchor : isAnchored (stripCaptures expanded) = isAnchored expanded

/-- Where the elements match first, they match as well when every group keeps the first length that it
matches by itself. -/
def GroupsCommit (text : Bytes) (anchored : Bool) (nodes : List (Node UInt8)) : Prop :=
  ∀ n, IsFirst (fun t => (runs (steps nodes) t).head?.isSome) anchored text n →
    (committed nodes (text.drop n)).head?.isSome = true

theorem found_of_committed (nodes : List (Node UInt8)) (text : Bytes)
    (found : (committed nodes text).head?.isSome = true) :
    (runs (steps nodes) text).head?.isSome = true := by
  obtain ⟨n, first⟩ := Option.isSome_iff_exists.mp found
  have member := mem_runs_of_mem_committed nodes text n (List.mem_of_mem_head? first)
  cases all : runs (steps nodes) text with
  | nil => exact absurd member (by rw [all]; exact List.not_mem_nil)
  | cons m rest => rfl

theorem matchStart_eq {text expanded : Bytes} (same : SameReading expanded nodes) (short : text.length < 2 ^ 31)
    (free : ¬Limited (matchStart text expanded).2) :
    (matchStart text expanded).1 =
      firstFound (fun t => (runs (steps nodes) t).head?.isSome) (isAnchored expanded) 0 text := by
  have answers := scanPattern_answers (stripCaptures expanded) (isAnchored (stripCaptures expanded))
    0 text short
  rw [same.elements] at answers
  rw [← same.anchor]
  exact answers.gives _ free

theorem captureStart_eq {text expanded : Bytes}
    (reads : groupNodes expanded = some nodes) (free : ¬Limited (captureStart text expanded).2) :
    (captureStart text expanded).1.map Prod.fst =
      firstFound (fun t => (committed nodes t).head?.isSome) (isAnchored expanded) 0 text :=
  (scanCaptures_answers reads (isAnchored expanded) 0 text).gives _ free

/-- Two matchers that start at the same position succeed together. -/
theorem matchersAgree_iff_starts {text expanded : Bytes}
    (expands : expandBraces pattern = some expanded) : MatchersAgree text pattern expanded ↔
      (matchStart text expanded).1 = (captureStart text expanded).1.map Prod.fst := by
  refine ⟨fun agree => agree.2, fun starts => ⟨?_, starts⟩⟩
  rw [matchPattern, captureGroups, expands]
  dsimp only [bind, Option.bind, pure, Option.map_some]
  rw [starts]
  cases (captureStart text expanded).1 <;> rfl

/-- Unless a limit is hit, the two matchers agree on a pattern that reads the same for both exactly when
no group has to give back what it matched first. -/
theorem matchers_agree_iff {text pattern expanded : Bytes} {nodes : List (Node UInt8)}
    (expands : expandBraces pattern = some expanded) (same : SameReading expanded nodes)
    (short : text.length < 2 ^ 31) (free : WithinLimits text expanded) :
    MatchersAgree text pattern expanded ↔ GroupsCommit text (isAnchored expanded) nodes := by
  rw [matchersAgree_iff_starts expands, matchStart_eq same short free.1,
    captureStart_eq same.reads free.2, eq_comm]
  exact firstFound_eq_iff (found_of_committed nodes) _ text

/-- A pattern in bytes. -/
def bytesOf (s : String) : Bytes := s.toList.map byte

/-- The parts of `(a*)b`. -/
def starGroup : List (Node UInt8) :=
  [.group [.elem (accepts (bytesOf "a*")) .star], .elem (accepts (bytesOf "b")) .once]

theorem sameReading_starGroup : SameReading (bytesOf "(a*)b") starGroup where
  reads := rfl
  elements := rfl
  anchor := by decide

theorem matchers_agree_iff_starGroup :
    GroupsCommit (bytesOf "aab") (isAnchored (bytesOf "(a*)b")) starGroup := by
  have agree : MatchersAgree (bytesOf "aab") (bytesOf "(a*)b") (bytesOf "(a*)b") :=
    ⟨by decide, by decide⟩
  exact (matchers_agree_iff (by decide) sameReading_starGroup (by decide)
    ⟨by decide, by decide⟩).mp agree

/-- `(a*)a` matches `a`, but its group keeps the only `a`. -/
theorem matchers_disagree_greedy :
    expandBraces (bytesOf "(a*)a") = some (bytesOf "(a*)a") ∧
      WithinLimits (bytesOf "a") (bytesOf "(a*)a") ∧
      matchPattern (bytesOf "a") (bytesOf "(a*)a") = some true ∧
      captureGroups (bytesOf "a") (bytesOf "(a*)a") = some none ∧
      ¬MatchersAgree (bytesOf "a") (bytesOf "(a*)a") (bytesOf "(a*)a") := by
  have erased : matchPattern (bytesOf "a") (bytesOf "(a*)a") = some true := by decide
  have groups : captureGroups (bytesOf "a") (bytesOf "(a*)a") = some none := by decide
  refine ⟨by decide, ⟨by decide, by decide⟩, erased, groups, fun agree => ?_⟩
  have same := agree.1
  rw [erased, groups] at same
  cases same

end Mimi.Runtime.Regex
