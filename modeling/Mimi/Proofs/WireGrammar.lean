/-
Module: Mimi.Proofs.WireGrammar
Purpose: What the type-driven decoder accepts, as a grammar: the byte strings that can be read as a type, with the
  levels the decoder counts on the way and the bytes it reads as booleans.  So a value ends by itself.
Trusted boundary: none
-/
import Mimi.Lib.Text
import Mimi.Proofs.WireRoundTrip

namespace Mimi.Component

open Mimi.Lib WireType

/-- A byte string that is read as a type: the levels that are counted, the bytes that are read as booleans, and
whether all elements of arrays and maps take up bytes. -/
structure Reading where
  bytes : List UInt8
  levels : Nat
  bools : List UInt8
  solid : Bool

namespace Reading

def leaf (bytes bools : List UInt8) : Reading := ⟨bytes, 0, bools, true⟩

/-- A payload behind its tag. -/
def tagged (tag : UInt8) (payload : Reading) : Reading :=
  ⟨tag :: payload.bytes, payload.levels + 2, payload.bools, payload.solid⟩

/-- Elements behind their count. -/
def counted (count : Nat) (parts : List Reading) : Reading :=
  ⟨leBytes 4 count ++ parts.flatMap bytes, largest (parts.map fun part => part.levels + 1), parts.flatMap bools,
    parts.all fun part => part.solid && !part.bytes.isEmpty⟩

/-- What stands at the front of the data and is read within the limit of nesting. -/
structure Accepted (part : Reading) (data : List UInt8) (depth : Nat) : Prop where
  front : part.bytes <+: data
  solid : part.solid = true
  room : depth + part.levels ≤ maxNesting

end Reading

open Reading

/-- The byte strings that are read as a type. -/
inductive Reads : WireType → Reading → Prop where
  | fixed {ty size bytes} (sized : ty.fixedSize = some size) (other : ty ≠ .bool) (length : bytes.length = size) :
      Reads ty (leaf bytes [])
  | bool (byte) : Reads .bool (leaf [byte] [byte])
  | string {s} (fits : (utf8Bytes s).length ≤ u32Max) :
      Reads .string (leaf (leBytes 4 (utf8Bytes s).length ++ utf8Bytes s) [])
  | bytes {data} (fits : data.length ≤ u32Max) : Reads .bytes (leaf (leBytes 4 data.length ++ data) [])
  | array {elem parts} (fits : parts.length ≤ u32Max) (each : ∀ part ∈ parts, Reads elem part) :
      Reads (.array elem) (counted parts.length parts)
  | map {key value} {entries : List (Reading × Reading)} (fits : entries.length ≤ u32Max)
      (keys : ∀ entry ∈ entries, Reads key entry.1) (values : ∀ entry ∈ entries, Reads value entry.2) :
      Reads (.map key value) (counted entries.length (entries.flatMap fun entry => [entry.1, entry.2]))
  | absent {inner} : Reads (.optional inner) ⟨[0], 1, [], true⟩
  | present {inner payload} (inside : Reads inner payload) : Reads (.optional inner) (tagged 1 payload)
  | ok {ok err payload} (inside : Reads ok payload) : Reads (.result ok err) (tagged 0 payload)
  | err {ok err payload} (inside : Reads err payload) : Reads (.result ok err) (tagged 1 payload)

variable {ty key value inner : WireType} {data : List UInt8} {depth count : Nat} {part payload : Reading}

/-! ### Headers -/

theorem count_of_header (fits : count ≤ u32Max) : ofLeBytes (leBytes 4 count) = count :=
  ofLeBytes_leBytes_of_lt (by simp only [u32Max] at fits; omega)

/-- Four bytes are the header of a count. -/
theorem header_iff :
    ofLeBytes (data.take 4) = count ∧ 4 ≤ data.length ↔ leBytes 4 count <+: data ∧ count ≤ u32Max := by
  constructor
  · rintro ⟨rfl, four⟩
    have taken : (data.take 4).length = 4 := List.length_take_of_le four
    have header := leBytes_ofLeBytes (data.take 4)
    have small := ofLeBytes_lt (data.take 4)
    rw [taken] at header small
    refine ⟨?_, Nat.le_of_lt_succ small⟩
    rw [header]
    exact List.take_prefix 4 data
  · rintro ⟨⟨rest, rfl⟩, fits⟩
    refine ⟨?_, by simp⟩
    rw [List.take_left' (length_leBytes 4 count), count_of_header fits]

theorem decodeArrayHeader_eq_some {start : Nat} :
    decodeArrayHeader data = some (count, start) ↔ (leBytes 4 count <+: data ∧ count ≤ u32Max) ∧ start = 4 := by
  rw [← header_iff, decodeArrayHeader]
  split_ifs with short
  · simp [Nat.not_le.mpr short]
  · simp [Nat.not_lt.mp short, eq_comm]

theorem decodeBytes_eq_some {text : List UInt8} {consumed : Nat} :
    decodeBytes data = some (text, consumed) ↔
      text.length ≤ u32Max ∧ leBytes 4 text.length ++ text <+: data ∧
        consumed = (leBytes 4 text.length ++ text).length := by
  constructor
  · intro decoded
    simp only [decodeBytes] at decoded
    split_ifs at decoded with short cut
    obtain ⟨rfl, rfl⟩ := Prod.mk.inj (Option.some.inj decoded)
    obtain ⟨⟨rest, whole⟩, fits⟩ := header_iff.mp ⟨rfl, Nat.not_lt.mp short⟩
    generalize ofLeBytes (data.take 4) = count at *
    subst whole
    rw [List.length_append, length_leBytes] at cut
    have text : ((leBytes 4 count ++ rest).take (4 + count)).drop 4 = rest.take count := by
      rw [List.take_append, length_leBytes, List.take_of_length_le (by simp), Nat.add_sub_cancel_left,
        List.drop_left' (length_leBytes 4 count)]
    have length : (rest.take count).length = count := List.length_take_of_le (by omega)
    rw [text, length]
    refine ⟨fits, ⟨rest.drop count, ?_⟩, ?_⟩
    · rw [List.append_assoc, List.take_append_drop]
    · rw [List.length_append, length_leBytes, length]
  · rintro ⟨fits, ⟨rest, rfl⟩, rfl⟩
    rw [decodeBytes_append fits, List.length_append, length_leBytes]

theorem decodeString_eq (data : List UInt8) :
    decodeString data = (decodeBytes data).bind fun read =>
      (String.fromUTF8? ⟨read.1.toArray⟩).map fun s => (s, read.2) := by
  simp only [decodeString, decodeBytes]
  split_ifs
  · rfl
  · rfl
  · rw [Option.bind_some]
    dsimp only
    cases String.fromUTF8? ⟨((data.take (4 + ofLeBytes (data.take 4))).drop 4).toArray⟩ <;> rfl

/-! ### What the decoder accepts -/

/-- The decoder accepts what is read at the front of the data. -/
def Decodes (ty : WireType) : Prop :=
  ∀ data depth v n, ty.decodeValueDepth data depth = some (v, n) ↔
    ∃ part, Reads ty part ∧ part.Accepted data depth ∧ v = part.bytes ∧ n = part.bytes.length

/-- Past the limit of nesting nothing is decoded and nothing is accepted, so only the shallow depths matter.  There the
bytes that are returned are those that were consumed. -/
theorem decodes_of_shallow {consumes : List UInt8 → Nat → Option Nat}
    (body : ∀ data depth, depth ≤ maxNesting →
      ty.decodeValueDepth data depth = (consumes data depth).map fun n => (data.take n, n))
    (accepts : ∀ data depth n, depth ≤ maxNesting → (consumes data depth = some n ↔
      ∃ part, Reads ty part ∧ part.Accepted data depth ∧ n = part.bytes.length)) : Decodes ty := by
  intro data depth v n
  by_cases shallow : depth ≤ maxNesting
  · rw [body data depth shallow, Option.map_eq_some_iff]
    constructor
    · rintro ⟨m, consumed, same⟩
      obtain ⟨rfl, rfl⟩ := Prod.mk.inj same
      obtain ⟨part, reads, accepted, length⟩ := (accepts data depth m shallow).mp consumed
      refine ⟨part, reads, accepted, ?_, length⟩
      rw [length]
      exact (List.prefix_iff_eq_take.mp accepted.front).symm
    · rintro ⟨part, reads, accepted, rfl, rfl⟩
      refine ⟨_, (accepts data depth _ shallow).mpr ⟨part, reads, accepted, rfl⟩, ?_⟩
      rw [← List.prefix_iff_eq_take.mp accepted.front]
  · refine iff_of_false (fun decoded => ?_) fun ⟨part, _, accepted, _⟩ => ?_
    · unfold decodeValueDepth at decoded
      rw [if_pos (Nat.not_le.mp shallow)] at decoded
      cases decoded
    · have room := accepted.room
      omega

theorem accepted_leaf {bytes bools : List UInt8} (shallow : depth ≤ maxNesting) :
    (leaf bytes bools).Accepted data depth ↔ bytes <+: data :=
  ⟨fun accepted => accepted.front, fun front => ⟨front, rfl, shallow⟩⟩

theorem Reads.fixed_inv {size : Nat} (reads : Reads ty part) (sized : ty.fixedSize = some size) (other : ty ≠ .bool) :
    ∃ bytes, bytes.length = size ∧ part = leaf bytes [] := by
  cases reads with
  | fixed sized' _ length => exact ⟨_, length.trans (Option.some.inj (sized'.symm.trans sized)), rfl⟩
  | bool => exact absurd rfl other
  | _ => cases sized

theorem decodes_fixed {size : Nat} (sized : ty.fixedSize = some size) (other : ty ≠ .bool) : Decodes ty := by
  refine @decodes_of_shallow _ (fun data _ => if data.length < size then none else some size) ?_ ?_
  · intro data depth shallow
    unfold decodeValueDepth
    rw [if_neg (Nat.not_lt.mpr shallow)]
    cases ty <;> cases sized <;> first | rfl | (dsimp only [fixedSize, Option.getD_some]; split_ifs <;> rfl)
  · intro data depth n shallow
    constructor
    · intro consumed
      split_ifs at consumed with short
      cases consumed
      have length : (data.take size).length = size := List.length_take_of_le (Nat.not_lt.mp short)
      exact ⟨leaf (data.take size) [], .fixed sized other length,
        (accepted_leaf shallow).mpr (List.take_prefix size data), length.symm⟩
    · rintro ⟨part, reads, accepted, rfl⟩
      obtain ⟨bytes, length, rfl⟩ := reads.fixed_inv sized other
      have within := ((accepted_leaf shallow).mp accepted).length_le
      rw [if_neg (by omega)]
      exact congrArg some length.symm

theorem decodes_bool : Decodes .bool := by
  refine @decodes_of_shallow _ (fun data _ => if data.length < 1 then none else some 1) ?_ ?_
  · intro data depth shallow
    unfold decodeValueDepth
    rw [if_neg (Nat.not_lt.mpr shallow)]
    dsimp only [fixedSize, Option.getD_some]
    split_ifs <;> rfl
  · intro data depth n shallow
    cases data with
    | nil =>
        refine iff_of_false (by rintro ⟨⟩) ?_
        rintro ⟨part, reads, accepted, -⟩
        cases reads with
        | fixed _ other => exact absurd rfl other
        | bool byte => exact absurd ((accepted_leaf shallow).mp accepted).length_le (by simp)
    | cons byte data =>
        constructor
        · rintro ⟨⟩
          exact ⟨leaf [byte] [byte], .bool byte, (accepted_leaf shallow).mpr ⟨data, rfl⟩, rfl⟩
        · rintro ⟨part, reads, accepted, rfl⟩
          cases reads with
          | fixed _ other => exact absurd rfl other
          | bool byte => rfl

theorem decodes_bytes : Decodes .bytes := by
  refine @decodes_of_shallow _ (fun data _ => (decodeBytes data).map Prod.snd) ?_ ?_
  · intro data depth shallow
    unfold decodeValueDepth
    rw [if_neg (Nat.not_lt.mpr shallow)]
    cases decodeBytes data <;> rfl
  · intro data depth n shallow
    simp only [Option.map_eq_some_iff, Prod.exists, exists_eq_right, decodeBytes_eq_some]
    constructor
    · rintro ⟨text, fits, front, rfl⟩
      exact ⟨leaf _ [], .bytes fits, (accepted_leaf shallow).mpr front, rfl⟩
    · rintro ⟨part, reads, accepted, rfl⟩
      cases reads with
      | fixed sized => cases sized
      | bytes fits => exact ⟨_, fits, (accepted_leaf shallow).mp accepted, rfl⟩

theorem decodes_string : Decodes .string := by
  refine @decodes_of_shallow _ (fun data _ => (decodeString data).map Prod.snd) ?_ ?_
  · intro data depth shallow
    unfold decodeValueDepth
    rw [if_neg (Nat.not_lt.mpr shallow)]
    cases decodeString data <;> rfl
  · intro data depth n shallow
    have texts : (decodeString data).map Prod.snd = some n ↔
        ∃ s, decodeBytes data = some (utf8Bytes s, n) := by
      simp only [decodeString_eq, Option.map_eq_some_iff, Option.bind_eq_some_iff, Prod.exists, exists_eq_right,
        Prod.mk.injEq, fromUTF8?_eq_some]
      constructor
      · rintro ⟨s, text, _, decoded, _, same, rfl, rfl⟩
        exact ⟨_, same ▸ decoded⟩
      · rintro ⟨s, decoded⟩
        exact ⟨s, _, n, decoded, s, rfl, rfl, rfl⟩
    simp only [texts, decodeBytes_eq_some]
    constructor
    · rintro ⟨s, fits, front, rfl⟩
      exact ⟨leaf _ [], .string fits, (accepted_leaf shallow).mpr front, rfl⟩
    · rintro ⟨part, reads, accepted, rfl⟩
      cases reads with
      | fixed sized => cases sized
      | string fits => exact ⟨_, fits, (accepted_leaf shallow).mp accepted, rfl⟩

/-! ### Elements -/

/-- Two texts one after the other. -/
theorem append_front {first second : List UInt8} {at_ : Nat} :
    first ++ second <+: data.drop at_ ↔ first <+: data.drop at_ ∧ second <+: data.drop (at_ + first.length) := by
  rw [← List.drop_drop]
  generalize data.drop at_ = rest
  constructor
  · rintro ⟨tail, rfl⟩
    rw [List.append_assoc, List.drop_left]
    exact ⟨List.prefix_append _ _, List.prefix_append _ _⟩
  · rintro ⟨⟨tail, rfl⟩, front⟩
    rw [List.drop_left] at front
    exact (List.prefix_append_right_inj _).mpr front

/-- One step of the element loops, over a decoder that accepts what is read. -/
theorem decodeStep_eq_some (decodes : Decodes ty) {at_ stop : Nat} :
    decodeStep (fun rest => ty.decodeValueDepth rest depth) data at_ = some stop ↔
      ∃ part, (Reads ty part ∧ part.Accepted (data.drop at_) depth ∧ part.bytes ≠ []) ∧
        stop = at_ + part.bytes.length := by
  have step : decodeStep (fun rest => ty.decodeValueDepth rest depth) data at_ = some stop ↔
      at_ ≤ data.length ∧ ∃ v n, ty.decodeValueDepth (data.drop at_) depth = some (v, n) ∧ n ≠ 0 ∧ stop = at_ + n := by
    by_cases beyond : at_ > data.length
    · simp [decodeStep, beyond, Nat.not_le.mpr beyond]
    · cases decoded : ty.decodeValueDepth (data.drop at_) depth with
      | none => simp [decodeStep, beyond, decoded]
      | some read =>
          obtain ⟨v, n⟩ := read
          by_cases empty : n = 0
          · simp [decodeStep, beyond, decoded, empty]
          · simp [decodeStep, beyond, decoded, empty, Nat.not_lt.mp beyond, eq_comm]
  rw [step]
  constructor
  · rintro ⟨-, v, n, decoded, some_, rfl⟩
    obtain ⟨part, reads, accepted, -, rfl⟩ := (decodes _ _ _ _).mp decoded
    exact ⟨part, ⟨reads, accepted, List.ne_nil_of_length_pos (Nat.pos_of_ne_zero some_)⟩, rfl⟩
  · rintro ⟨part, ⟨reads, accepted, some_⟩, rfl⟩
    have positive : part.bytes.length ≠ 0 := fun empty => some_ (List.length_eq_zero_iff.mp empty)
    refine ⟨?_, _, _, (decodes _ _ _ _).mpr ⟨part, reads, accepted, rfl, rfl⟩, positive, rfl⟩
    have within := accepted.front.length_le
    rw [List.length_drop] at within
    omega

/-- A loop over steps that each read one item at the front of what is left reads the items one after the other. -/
theorem decodeLoop_eq_some {α : Type} {bytes : α → List UInt8} {Good : α → Prop} {step : Nat → Option Nat}
    (steps : ∀ at_ stop, step at_ = some stop ↔
      ∃ a, (Good a ∧ bytes a <+: data.drop at_) ∧ stop = at_ + (bytes a).length) {at_ stop : Nat} :
    decodeLoop step count at_ = some stop ↔
      ∃ items : List α, items.length = count ∧ (∀ a ∈ items, Good a) ∧ items.flatMap bytes <+: data.drop at_ ∧
        stop = at_ + (items.flatMap bytes).length := by
  induction count generalizing at_ with
  | zero =>
      rw [decodeLoop]
      constructor
      · rintro ⟨⟩
        exact ⟨[], rfl, List.forall_mem_nil _, List.nil_prefix, rfl⟩
      · rintro ⟨items, none_, -, -, rfl⟩
        rw [List.length_eq_zero_iff.mp none_]
        rfl
  | succ count ih =>
      rw [decodeLoop, Option.bind_eq_bind, Option.bind_eq_some_iff]
      constructor
      · rintro ⟨mid, first, later⟩
        obtain ⟨a, ⟨good, here⟩, rfl⟩ := (steps _ _).mp first
        obtain ⟨items, length, all, front, rfl⟩ := ih.mp later
        refine ⟨a :: items, by rw [List.length_cons, length], List.forall_mem_cons.mpr ⟨good, all⟩,
          append_front.mpr ⟨here, front⟩, ?_⟩
        rw [List.flatMap_cons, List.length_append, Nat.add_assoc]
      · rintro ⟨items, length, all, front, rfl⟩
        cases items with
        | nil => cases length
        | cons a items =>
            obtain ⟨here, front⟩ := append_front.mp front
            refine ⟨_, (steps _ _).mpr ⟨a, ⟨all a List.mem_cons_self, here⟩, rfl⟩, ih.mpr ?_⟩
            refine ⟨items, Nat.succ.inj length, fun b member => all b (List.mem_cons_of_mem a member), front, ?_⟩
            rw [List.flatMap_cons, List.length_append, Nat.add_assoc]

theorem accepted_counted {parts : List Reading} :
    (counted count parts).Accepted data depth ↔
      leBytes 4 count ++ parts.flatMap Reading.bytes <+: data ∧ depth ≤ maxNesting ∧
        ∀ part ∈ parts, part.solid = true ∧ part.bytes ≠ [] ∧ depth + 1 + part.levels ≤ maxNesting := by
  constructor
  · rintro ⟨front, solid, room⟩
    have most : ∀ n ∈ parts.map fun part => part.levels + 1, n ≤ largest (parts.map fun part => part.levels + 1) :=
      largest_le_iff.mp (Nat.le_refl _)
    simp only [counted, List.all_eq_true, Bool.and_eq_true, Bool.not_eq_true', List.isEmpty_eq_false_iff] at solid room
    refine ⟨front, by omega, fun part member => ⟨(solid part member).1, (solid part member).2, ?_⟩⟩
    have level := most _ (List.mem_map_of_mem member)
    omega
  · rintro ⟨front, shallow, each⟩
    refine ⟨front, ?_, ?_⟩
    · simp only [counted, List.all_eq_true, Bool.and_eq_true, Bool.not_eq_true', List.isEmpty_eq_false_iff]
      exact fun part member => ⟨(each part member).1, (each part member).2.1⟩
    · have most : largest (parts.map fun part => part.levels + 1) ≤ maxNesting - depth := by
        refine largest_le_iff.mpr fun n member => ?_
        obtain ⟨part, inside, rfl⟩ := List.mem_map.mp member
        have level := (each part inside).2.2
        omega
      simp only [counted]
      omega

/-- The body of a counted sequence stands behind its header. -/
theorem counted_front {text : List UInt8} :
    leBytes 4 count ++ text <+: data ↔ leBytes 4 count <+: data ∧ text <+: data.drop 4 := by
  have front := @append_front data (leBytes 4 count) text 0
  rwa [List.drop_zero, length_leBytes] at front

/-- An element that a step reads within the limit of nesting. -/
structure Element (ty : WireType) (depth : Nat) (part : Reading) : Prop where
  reads : Reads ty part
  solid : part.solid = true
  some_ : part.bytes ≠ []
  room : depth + 1 + part.levels ≤ maxNesting

theorem decodeStep_element (decodes : Decodes ty) {at_ stop : Nat} :
    decodeStep (fun rest => ty.decodeValueDepth rest (depth + 1)) data at_ = some stop ↔
      ∃ part, (Element ty depth part ∧ part.bytes <+: data.drop at_) ∧ stop = at_ + part.bytes.length := by
  rw [decodeStep_eq_some decodes]
  refine exists_congr fun part => and_congr_left' ?_
  constructor
  · rintro ⟨reads, ⟨front, solid, room⟩, some_⟩
    exact ⟨⟨reads, solid, some_, room⟩, front⟩
  · rintro ⟨⟨reads, solid, some_, room⟩, front⟩
    exact ⟨reads, ⟨front, solid, room⟩, some_⟩

/-- A header and a loop that reads as many items as it says. -/
theorem counted_eq_some {α : Type} {bytes : α → List UInt8} {Good : α → Prop} {step : Nat → Option Nat} {stop : Nat}
    (steps : ∀ at_ stop, step at_ = some stop ↔
      ∃ a, (Good a ∧ bytes a <+: data.drop at_) ∧ stop = at_ + (bytes a).length) :
    ((decodeArrayHeader data).bind fun header => decodeLoop step header.1 header.2) = some stop ↔
      ∃ items : List α, items.length ≤ u32Max ∧ (∀ a ∈ items, Good a) ∧
        leBytes 4 items.length ++ items.flatMap bytes <+: data ∧
        stop = (leBytes 4 items.length ++ items.flatMap bytes).length := by
  simp only [Option.bind_eq_some_iff, Prod.exists, decodeArrayHeader_eq_some, decodeLoop_eq_some steps,
    List.length_append, length_leBytes, counted_front]
  constructor
  · rintro ⟨_, _, ⟨⟨header, fits⟩, rfl⟩, items, rfl, all, front, rfl⟩
    exact ⟨items, fits, all, ⟨header, front⟩, rfl⟩
  · rintro ⟨items, fits, all, ⟨header, front⟩, rfl⟩
    exact ⟨_, 4, ⟨⟨header, fits⟩, rfl⟩, items, rfl, all, front, rfl⟩

theorem decodes_array {elem : WireType} (ih : Decodes elem) : Decodes (.array elem) := by
  refine @decodes_of_shallow _ (fun data depth => (decodeArrayHeader data).bind fun header =>
    decodeLoop (decodeStep (fun rest => elem.decodeValueDepth rest (depth + 1)) data) header.1 header.2) ?_ ?_
  · intro data depth shallow
    rw [decodeValueDepth, if_neg (Nat.not_lt.mpr shallow)]
    cases decodeArrayHeader data with
    | none => rfl
    | some header =>
        dsimp only [Option.bind_eq_bind, Option.bind_some]
        cases decodeLoop (decodeStep (fun rest => elem.decodeValueDepth rest (depth + 1)) data) header.1 header.2 <;> rfl
  · intro data depth n shallow
    rw [counted_eq_some fun at_ stop => decodeStep_element ih]
    constructor
    · rintro ⟨parts, fits, all, front, rfl⟩
      refine ⟨_, .array fits fun part member => (all part member).reads, accepted_counted.mpr ⟨front, shallow, ?_⟩, rfl⟩
      exact fun part member => ⟨(all part member).solid, (all part member).some_, (all part member).room⟩
    · rintro ⟨part, reads, accepted, rfl⟩
      cases reads with
      | fixed sized => cases sized
      | @array _ parts fits each =>
          obtain ⟨front, -, inside⟩ := accepted_counted.mp accepted
          refine ⟨parts, fits, fun part member => ?_, front, rfl⟩
          exact ⟨each part member, (inside part member).1, (inside part member).2.1, (inside part member).2.2⟩

theorem flatMap_entries (entries : List (Reading × Reading)) :
    (entries.flatMap fun entry => [entry.1, entry.2]).flatMap Reading.bytes =
      entries.flatMap fun entry => entry.1.bytes ++ entry.2.bytes := by
  simp [List.flatMap_assoc]

theorem decodes_map (ihKey : Decodes key) (ihValue : Decodes value) : Decodes (.map key value) := by
  refine @decodes_of_shallow _ (fun data depth => (decodeArrayHeader data).bind fun header =>
    decodeLoop (fun at_ => (decodeStep (fun rest => key.decodeValueDepth rest (depth + 1)) data at_).bind
      (decodeStep (fun rest => value.decodeValueDepth rest (depth + 1)) data)) header.1 header.2) ?_ ?_
  · intro data depth shallow
    rw [decodeValueDepth, if_neg (Nat.not_lt.mpr shallow), decodeMapHeader]
    cases decodeArrayHeader data with
    | none => rfl
    | some header =>
        dsimp only [Option.bind_eq_bind, Option.bind_some]
        cases decodeLoop (fun at_ => (decodeStep (fun rest => key.decodeValueDepth rest (depth + 1)) data at_).bind
          (decodeStep (fun rest => value.decodeValueDepth rest (depth + 1)) data)) header.1 header.2 <;> rfl
  · intro data depth n shallow
    have steps (at_ stop : Nat) :
        ((decodeStep (fun rest => key.decodeValueDepth rest (depth + 1)) data at_).bind
            (decodeStep (fun rest => value.decodeValueDepth rest (depth + 1)) data)) = some stop ↔
          ∃ entry : Reading × Reading, ((Element key depth entry.1 ∧ Element value depth entry.2) ∧
            entry.1.bytes ++ entry.2.bytes <+: data.drop at_) ∧ stop = at_ + (entry.1.bytes ++ entry.2.bytes).length := by
      simp only [Option.bind_eq_some_iff, decodeStep_element ihKey, decodeStep_element ihValue, Prod.exists,
        append_front, List.length_append]
      constructor
      · rintro ⟨_, ⟨k, ⟨key, front⟩, rfl⟩, v, ⟨value, behind⟩, rfl⟩
        exact ⟨k, v, ⟨⟨key, value⟩, front, behind⟩, Nat.add_assoc ..⟩
      · rintro ⟨k, v, ⟨⟨key, value⟩, front, behind⟩, rfl⟩
        exact ⟨_, ⟨k, ⟨key, front⟩, rfl⟩, v, ⟨value, behind⟩, (Nat.add_assoc ..).symm⟩
    rw [counted_eq_some steps]
    constructor
    · rintro ⟨entries, fits, all, front, rfl⟩
      have reads := Reads.map fits (fun entry member => (all entry member).1.reads)
        fun entry member => (all entry member).2.reads
      refine ⟨_, reads, accepted_counted.mpr ⟨flatMap_entries entries ▸ front, shallow, ?_⟩, ?_⟩
      · intro part member
        obtain ⟨entry, inside, which⟩ := List.mem_flatMap.mp member
        obtain ⟨key, value⟩ := all entry inside
        rcases List.mem_pair.mp which with rfl | rfl
        · exact ⟨key.solid, key.some_, key.room⟩
        · exact ⟨value.solid, value.some_, value.room⟩
      · rw [counted, flatMap_entries]
    · rintro ⟨part, reads, accepted, rfl⟩
      cases reads with
      | fixed sized => cases sized
      | @map _ _ entries fits keys values =>
          obtain ⟨front, -, inside⟩ := accepted_counted.mp accepted
          rw [flatMap_entries] at front
          have element (entry : Reading × Reading) (member : entry ∈ entries) (part : Reading)
              (which : part ∈ [entry.1, entry.2]) := inside part (List.mem_flatMap.mpr ⟨entry, member, which⟩)
          refine ⟨entries, fits, fun entry member => ⟨?_, ?_⟩, front, by rw [counted, flatMap_entries]⟩
          · obtain ⟨solid, some_, room⟩ := element entry member entry.1 (by simp)
            exact ⟨keys entry member, solid, some_, room⟩
          · obtain ⟨solid, some_, room⟩ := element entry member entry.2 (by simp)
            exact ⟨values entry member, solid, some_, room⟩

/-! ### Payloads -/

theorem accepted_tagged {tag : UInt8} :
    (tagged tag payload).Accepted data depth ↔
      ∃ rest, data = tag :: rest ∧ payload.Accepted rest (depth + 2) := by
  constructor
  · rintro ⟨⟨tail, rfl⟩, solid, room⟩
    refine ⟨payload.bytes ++ tail, rfl, List.prefix_append _ _, solid, ?_⟩
    simp only [tagged] at room
    omega
  · rintro ⟨rest, rfl, ⟨tail, rfl⟩, solid, room⟩
    refine ⟨⟨tail, rfl⟩, solid, ?_⟩
    simp only [tagged]
    omega

/-- What the decoder of an optional accepts, with the depth it is entered at. -/
theorem decodeOptionalWith_eq_some (ih : Decodes inner) {read : Option (List UInt8)} {n : Nat} :
    decodeOptionalWith inner.decodeValueDepth data depth = some (read, n) ↔
      depth ≤ maxNesting ∧ ((∃ rest, data = 0 :: rest ∧ read = none ∧ n = 1) ∨
        ∃ rest payload, data = 1 :: rest ∧ Reads inner payload ∧ payload.Accepted rest (depth + 1) ∧
          read = some payload.bytes ∧ n = payload.bytes.length + 1) := by
  unfold decodeOptionalWith
  by_cases shallow : depth ≤ maxNesting
  · rw [if_neg (Nat.not_lt.mpr shallow)]
    cases data with
    | nil => simp
    | cons tag rest =>
        dsimp only
        by_cases absent : tag = 0
        · simp [absent, shallow, eq_comm]
        · by_cases present : tag = 1
          · simp only [present, if_true, show (1 : UInt8) ≠ 0 by decide, if_false, Option.bind_eq_bind,
              Option.bind_eq_some_iff, Prod.exists, ih _ _ _ _, shallow, true_and, List.cons.injEq]
            constructor
            · rintro ⟨_, _, ⟨payload, reads, accepted, rfl, rfl⟩, same⟩
              obtain ⟨rfl, rfl⟩ := Prod.mk.inj (Option.some.inj same)
              exact .inr ⟨rest, payload, rfl, reads, accepted, rfl, rfl⟩
            · rintro (⟨_, ⟨zero, -⟩, -⟩ | ⟨_, payload, rfl, reads, accepted, rfl, rfl⟩)
              · exact absurd zero (by decide)
              · exact ⟨_, _, ⟨payload, reads, accepted, rfl, rfl⟩, rfl⟩
          · simp [absent, present]
  · rw [if_pos (Nat.not_le.mp shallow)]
    exact iff_of_false nofun fun accepts => shallow accepts.1

/-- The bytes of what the decoder of an optional returns are the ones that are read. -/
theorem optional_read (ih : Decodes inner) {v : List UInt8} {n : Nat} :
    (decodeOptionalWith inner.decodeValueDepth data (depth + 1)).map (fun read => (encodeOptional read.1, read.2)) =
        some (v, n) ↔
      ∃ part, Reads (.optional inner) part ∧ part.Accepted data depth ∧ v = part.bytes ∧ n = part.bytes.length := by
  simp only [Option.map_eq_some_iff, Prod.exists, decodeOptionalWith_eq_some ih]
  constructor
  · rintro ⟨_, _, ⟨room, ⟨rest, rfl, rfl, rfl⟩ | ⟨rest, payload, rfl, inside, within, rfl, rfl⟩⟩, same⟩
    · obtain ⟨rfl, rfl⟩ := Prod.mk.inj same
      exact ⟨_, .absent, ⟨⟨rest, rfl⟩, rfl, room⟩, rfl, rfl⟩
    · obtain ⟨rfl, rfl⟩ := Prod.mk.inj same
      exact ⟨_, .present inside, accepted_tagged.mpr ⟨rest, rfl, within⟩, rfl, rfl⟩
  · rintro ⟨part, reads, accepted, rfl, rfl⟩
    cases reads with
    | fixed sized => cases sized
    | absent =>
        obtain ⟨⟨rest, rfl⟩, -, room⟩ := accepted
        exact ⟨none, 1, ⟨room, .inl ⟨rest, rfl, rfl, rfl⟩⟩, rfl⟩
    | @present _ payload inside =>
        obtain ⟨rest, rfl, within⟩ := accepted_tagged.mp accepted
        have room := within.room
        exact ⟨some payload.bytes, payload.bytes.length + 1,
          ⟨by omega, .inr ⟨rest, payload, rfl, inside, within, rfl, rfl⟩⟩, rfl⟩

/-- A type is decoded by the decoder of its values, one level further down. -/
theorem decodes_of_read {α : Type} {decode : List UInt8 → Nat → Option (α × Nat)} {encode : α → List UInt8}
    (body : ∀ data depth, depth ≤ maxNesting → ty.decodeValueDepth data depth =
      (decode data (depth + 1)).map fun read => (data.take read.2, read.2))
    (reads : ∀ data depth v n, (decode data (depth + 1)).map (fun read => (encode read.1, read.2)) = some (v, n) ↔
      ∃ part, Reads ty part ∧ part.Accepted data depth ∧ v = part.bytes ∧ n = part.bytes.length) : Decodes ty := by
  refine @decodes_of_shallow _ (fun data depth => (decode data (depth + 1)).map Prod.snd) ?_ fun data depth n _ => ?_
  · intro data depth shallow
    rw [body data depth shallow, Option.map_map]
    rfl
  · constructor
    · intro consumed
      obtain ⟨read, decoded, rfl⟩ := Option.map_eq_some_iff.mp consumed
      obtain ⟨part, inside, accepted, -, same⟩ := (reads data depth _ _).mp (by rw [decoded]; rfl)
      exact ⟨part, inside, accepted, same⟩
    · rintro ⟨part, inside, accepted, rfl⟩
      have found := (reads data depth _ _).mpr ⟨part, inside, accepted, rfl, rfl⟩
      obtain ⟨read, decoded, same⟩ := Option.map_eq_some_iff.mp found
      rw [decoded]
      exact congrArg some (Prod.mk.inj same).2

theorem decodes_optional (ih : Decodes inner) : Decodes (.optional inner) := by
  refine decodes_of_read (fun data depth shallow => ?_) fun data depth v n => optional_read ih
  rw [decodeValueDepth, if_neg (Nat.not_lt.mpr shallow)]
  cases decodeOptionalWith inner.decodeValueDepth data (depth + 1) <;> rfl

/-- The type of the payload behind a tag of a result. -/
def payloadType (ok err : WireType) (isErr : Bool) : WireType := if isErr then err else ok

def resultTag (isErr : Bool) : UInt8 := if isErr then 1 else 0

theorem decodeResultTag_eq_some {isErr : Bool} {n : Nat} :
    decodeResultTag data = some (isErr, n) ↔ ∃ rest, data = resultTag isErr :: rest ∧ n = 1 := by
  cases data with
  | nil => simp [decodeResultTag]
  | cons tag rest =>
      by_cases zero : tag = 0
      · cases isErr <;> simp [decodeResultTag, zero, resultTag, eq_comm]
      · by_cases one : tag = 1
        · cases isErr <;> simp [decodeResultTag, one, resultTag, eq_comm]
        · cases isErr <;> simp [decodeResultTag, zero, one, resultTag]

/-- What the decoder of a result accepts, with the depth it is entered at. -/
theorem decodeResultWith_eq_some {ok err : WireType} (ih : ∀ isErr, Decodes (payloadType ok err isErr))
    {read : Except (List UInt8) (List UInt8)} {n : Nat} :
    decodeResultWith ok.decodeValueDepth err.decodeValueDepth data depth = some (read, n) ↔
      depth ≤ maxNesting ∧ ∃ isErr rest payload, data = resultTag isErr :: rest ∧
        Reads (payloadType ok err isErr) payload ∧ payload.Accepted rest (depth + 1) ∧
        read = (if isErr then .error payload.bytes else .ok payload.bytes) ∧ n = payload.bytes.length + 1 := by
  have either (isErr : Bool) : (if isErr then err.decodeValueDepth else ok.decodeValueDepth) =
      (payloadType ok err isErr).decodeValueDepth := by cases isErr <;> rfl
  unfold decodeResultWith
  by_cases shallow : depth ≤ maxNesting
  · rw [if_neg (Nat.not_lt.mpr shallow)]
    simp only [Option.bind_eq_bind, Option.bind_eq_some_iff, Prod.exists, decodeResultTag_eq_some, either, ih _ _ _ _ _,
      shallow, true_and]
    constructor
    · rintro ⟨isErr, _, ⟨rest, rfl, rfl⟩, _, _, ⟨payload, reads, accepted, rfl, rfl⟩, same⟩
      obtain ⟨rfl, rfl⟩ := Prod.mk.inj (Option.some.inj same)
      exact ⟨isErr, rest, payload, rfl, reads, accepted, rfl, Nat.add_comm ..⟩
    · rintro ⟨isErr, rest, payload, rfl, reads, accepted, rfl, rfl⟩
      exact ⟨isErr, 1, ⟨rest, rfl, rfl⟩, _, _, ⟨payload, reads, accepted, rfl, rfl⟩, by rw [Nat.add_comm 1]⟩
  · rw [if_pos (Nat.not_le.mp shallow)]
    exact iff_of_false nofun fun accepts => shallow accepts.1

/-- The bytes of a result behind its tag. -/
def encodeResult : Except (List UInt8) (List UInt8) → List UInt8
  | .ok payload => encodeResultTag false ++ payload
  | .error payload => encodeResultTag true ++ payload

/-- The bytes of what the decoder of a result returns are the ones that are read. -/
theorem result_read {ok err : WireType} (ih : ∀ isErr, Decodes (payloadType ok err isErr)) {v : List UInt8} {n : Nat} :
    (decodeResultWith ok.decodeValueDepth err.decodeValueDepth data (depth + 1)).map
        (fun read => (encodeResult read.1, read.2)) = some (v, n) ↔
      ∃ part, Reads (.result ok err) part ∧ part.Accepted data depth ∧ v = part.bytes ∧ n = part.bytes.length := by
  simp only [Option.map_eq_some_iff, Prod.exists, decodeResultWith_eq_some ih]
  constructor
  · rintro ⟨_, _, ⟨-, isErr, rest, payload, rfl, inside, within, rfl, rfl⟩, same⟩
    obtain ⟨rfl, rfl⟩ := Prod.mk.inj same
    cases isErr with
    | false => exact ⟨_, .ok inside, accepted_tagged.mpr ⟨rest, rfl, within⟩, rfl, rfl⟩
    | true => exact ⟨_, .err inside, accepted_tagged.mpr ⟨rest, rfl, within⟩, rfl, rfl⟩
  · rintro ⟨part, reads, accepted, rfl, rfl⟩
    cases reads with
    | fixed sized => cases sized
    | @ok _ _ payload inside =>
        obtain ⟨rest, rfl, within⟩ := accepted_tagged.mp accepted
        have room := within.room
        exact ⟨.ok payload.bytes, _, ⟨by omega, false, rest, payload, rfl, inside, within, rfl, rfl⟩, rfl⟩
    | @err _ _ payload inside =>
        obtain ⟨rest, rfl, within⟩ := accepted_tagged.mp accepted
        have room := within.room
        exact ⟨.error payload.bytes, _, ⟨by omega, true, rest, payload, rfl, inside, within, rfl, rfl⟩, rfl⟩

theorem decodes_result {ok err : WireType} (ihOk : Decodes ok) (ihErr : Decodes err) : Decodes (.result ok err) := by
  have ih (isErr : Bool) : Decodes (payloadType ok err isErr) := by cases isErr <;> assumption
  refine decodes_of_read (fun data depth shallow => ?_) fun data depth v n => result_read ih
  rw [decodeValueDepth, if_neg (Nat.not_lt.mpr shallow)]
  cases decodeResultWith ok.decodeValueDepth err.decodeValueDepth data (depth + 1) <;> rfl

/-- The decoder accepts exactly what can be read as the type within its limit of nesting. -/
theorem decodes (ty : WireType) : Decodes ty := by
  induction ty with
  | string => exact decodes_string
  | bytes => exact decodes_bytes
  | bool => exact decodes_bool
  | array elem ih => exact decodes_array ih
  | map key value ihKey ihValue => exact decodes_map ihKey ihValue
  | optional inner ih => exact decodes_optional ih
  | result ok err ihOk ihErr => exact decodes_result ihOk ihErr
  | _ => exact decodes_fixed rfl nofun

/-! ### Values end by themselves -/

/-- An accepted value ends where its bytes end: it is the bytes consumed, the same bytes are accepted in front of any
others, and no fewer of them are. -/
theorem self_delimiting {v : List UInt8} {n : Nat} (decoded : ty.decodeValue data = some (v, n)) :
    n ≤ data.length ∧ v = data.take n ∧
      (∀ other : List UInt8, other.take n = data.take n → ty.decodeValue other = some (v, n)) ∧
      ∀ m < n, ty.decodeValue (data.take m) = none := by
  obtain ⟨part, reads, accepted, rfl, rfl⟩ := (decodes ty data 0 v n).mp decoded
  have taken := List.prefix_iff_eq_take.mp accepted.front
  refine ⟨accepted.front.length_le, taken, fun other same => ?_, fun m less => ?_⟩
  · refine (decodes ty other 0 _ _).mpr ⟨part, reads, ⟨?_, accepted.solid, accepted.room⟩, rfl, rfl⟩
    rw [taken, ← same]
    exact List.take_prefix _ other
  · cases short : ty.decodeValue (data.take m) with
    | none => rfl
    | some read =>
        obtain ⟨part', reads', accepted', -, -⟩ := (decodes ty _ 0 read.1 read.2).mp short
        have front := accepted'.front.trans (List.take_prefix m data)
        have again := (decodes ty data 0 _ _).mpr ⟨part', reads', ⟨front, accepted'.solid, accepted'.room⟩, rfl, rfl⟩
        have length := (Prod.mk.inj (Option.some.inj (decoded.symm.trans again))).2
        have within := accepted'.front.length_le
        rw [List.length_take] at within
        omega

/-- An array of a text and an empty text, in front of a stray byte. -/
theorem self_delimiting_texts :
    (array .string).decodeValue ([2, 0, 0, 0, 1, 0, 0, 0, 65, 0, 0, 0, 0].take 12) = none :=
  (@self_delimiting (array .string) [2, 0, 0, 0, 1, 0, 0, 0, 65, 0, 0, 0, 0, 9] _ 13 rfl).2.2.2 12 (by decide)

end Mimi.Component
