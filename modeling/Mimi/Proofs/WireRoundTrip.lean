/-
Module: Mimi.Proofs.WireRoundTrip
Purpose: What the type-driven decoder does on an encoded value followed by any suffix.
Trusted boundary: none
-/
import Mimi.Component.Wire

namespace Mimi.Component

open Mimi.Lib

/-- Wire values as a tree.  Primitives carry the 64-bit argument of `encodePrimitive`. -/
inductive WireValue where
  | prim (value : UInt64)
  | string (s : String)
  | bytes (data : List UInt8)
  | array (elems : List WireValue)
  | map (entries : List (WireValue × WireValue))
  | none
  | some (value : WireValue)
  | ok (value : WireValue)
  | err (value : WireValue)

namespace WireType

/-- Encode the elements of a sequence one after the other. -/
def encodeSeq {α : Type} (encode : α → Option (List UInt8)) : List α → Option (List UInt8)
  | [] => some []
  | x :: xs => do
      let head ← encode x
      let tail ← encodeSeq encode xs
      some (head ++ tail)

/-- Encode one map entry, key first. -/
def encodeEntry (encodeKey encodeVal : WireValue → Option (List UInt8))
    (entry : WireValue × WireValue) : Option (List UInt8) := do
  let k ← encodeKey entry.1
  let v ← encodeVal entry.2
  some (k ++ v)

/-- The encoding of a value of a type, composed from the `encode_*` helpers: the header or tag
helper first, then the parts the helper leaves to its caller. -/
def encodeValue : WireType → WireValue → Option (List UInt8)
  | .string, .string s => (encodeString s).toOption
  | .bytes, .bytes data => (encodeBytes data).toOption
  | .array elem, .array elems =>
      if elems.length ≤ u32Max then do
        let body ← encodeSeq elem.encodeValue elems
        some (encodeArrayHeader elems.length ++ body)
      else none
  | .map key value, .map entries =>
      if entries.length ≤ u32Max then do
        let body ← encodeSeq (encodeEntry key.encodeValue value.encodeValue) entries
        some (encodeMapHeader entries.length ++ body)
      else none
  | .optional _, .none => some (encodeOptional none)
  | .optional inner, .some value => do
      some (encodeOptional (some (← inner.encodeValue value)))
  | .result ok _, .ok value => do
      some (encodeResultTag false ++ (← ok.encodeValue value))
  | .result _ err, .err value => do
      some (encodeResultTag true ++ (← err.encodeValue value))
  | ty, .prim value => ty.encodePrimitive value
  | _, _ => none

/-- Neither an array element nor a map key or value is `unit`, at any depth. -/
def noUnitElements : WireType → Bool
  | array elem => elem ≠ unit && elem.noUnitElements
  | map key value =>
      key ≠ unit && value ≠ unit && key.noUnitElements && value.noUnitElements
  | optional inner => inner.noUnitElements
  | result ok err => ok.noUnitElements && err.noUnitElements
  | _ => true

/-- Nesting of containers, optionals and results in a type. -/
def nesting : WireType → Nat
  | array elem => elem.nesting + 1
  | map key value => max key.nesting value.nesting + 1
  | optional inner => inner.nesting + 1
  | result ok err => max ok.nesting err.nesting + 1
  | _ => 0

/-- The largest of a list of numbers, zero for the empty list. -/
def largest : List Nat → Nat
  | [] => 0
  | n :: ns => max n (largest ns)

/-- The levels the decoder counts while it walks the encoding of a value: one for each array or map
that has an element, two for each optional, Ok or Err that is entered, one for an absent
optional. -/
def levels : WireType → WireValue → Nat
  | .array elem, .array elems => largest (elems.map fun v => elem.levels v + 1)
  | .map key value, .map entries =>
      largest (entries.map fun e => max (key.levels e.1) (value.levels e.2) + 1)
  | .optional _, .none => 1
  | .optional inner, .some value => inner.levels value + 2
  | .result ok _, .ok value => ok.levels value + 2
  | .result _ err, .err value => err.levels value + 2
  | _, _ => 0

theorem largest_le_iff {ns : List Nat} {bound : Nat} :
    largest ns ≤ bound ↔ ∀ n ∈ ns, n ≤ bound := by
  induction ns with
  | nil => simp [largest]
  | cons n ns ih => simp [largest, ih]

/-! ### Headers, primitives and byte strings -/

theorem decodeArrayHeader_encode {count : Nat} (fits : count ≤ u32Max) (rest : List UInt8) :
    decodeArrayHeader (encodeArrayHeader count ++ rest) = some (count, 4) := by
  have readBack : ofLeBytes (leBytes 4 count) = count :=
    ofLeBytes_leBytes_of_lt (by simp only [u32Max] at fits; omega)
  simp [decodeArrayHeader, encodeArrayHeader, readBack]

variable {encoded : List UInt8}

/-- A primitive is encoded in exactly the bytes of its fixed size. -/
theorem length_encodePrimitive {ty : WireType} {value : UInt64}
    (h : ty.encodePrimitive value = some encoded) : ty.fixedSize = some encoded.length := by
  cases ty <;> simp_all [encodePrimitive, fixedSize] <;> subst h <;> simp

theorem decodeBytes_append {data : List UInt8} (fits : data.length ≤ u32Max)
    (suffix : List UInt8) :
    decodeBytes (leBytes 4 data.length ++ data ++ suffix)
      = some (data, 4 + data.length) := by
  have readBack : ofLeBytes (leBytes 4 data.length) = data.length :=
    ofLeBytes_leBytes_of_lt (by simp only [u32Max] at fits; omega)
  simp [decodeBytes, readBack, List.take_append]

theorem decodeString_append {s : String} {data : List UInt8}
    (hdata : s.toByteArray.data.toList = data) (fits : data.length ≤ u32Max)
    (suffix : List UInt8) :
    decodeString (leBytes 4 data.length ++ data ++ suffix) = some (s, 4 + data.length) := by
  have readBack : ofLeBytes (leBytes 4 data.length) = data.length :=
    ofLeBytes_leBytes_of_lt (by simp only [u32Max] at fits; omega)
  have validated : String.fromUTF8? ⟨data.toArray⟩ = some s := by
    subst hdata
    simp [String.fromUTF8?, s.isValidUTF8, String.fromUTF8]
  simp [decodeString, readBack, List.take_append, validated]

/-! ### Inversion of the encoding -/

/-- The ways `encodeValue` can succeed, one for each constructor of the value. -/
inductive Encodes : WireType → WireValue → List UInt8 → Prop where
  | prim {ty : WireType} {word : UInt64} {encoded : List UInt8}
      (h : ty.encodePrimitive word = some encoded) : Encodes ty (.prim word) encoded
  | string {s : String} {data : List UInt8} (hdata : s.toByteArray.data.toList = data)
      (fits : data.length ≤ u32Max) :
      Encodes .string (.string s) (leBytes 4 data.length ++ data)
  | bytes {data : List UInt8} (fits : data.length ≤ u32Max) :
      Encodes .bytes (.bytes data) (leBytes 4 data.length ++ data)
  | array {elem : WireType} {elems : List WireValue} {body : List UInt8}
      (fits : elems.length ≤ u32Max) (h : encodeSeq elem.encodeValue elems = some body) :
      Encodes (.array elem) (.array elems) (encodeArrayHeader elems.length ++ body)
  | map {key value : WireType} {entries : List (WireValue × WireValue)} {body : List UInt8}
      (fits : entries.length ≤ u32Max)
      (h : encodeSeq (encodeEntry key.encodeValue value.encodeValue) entries = some body) :
      Encodes (.map key value) (.map entries) (encodeMapHeader entries.length ++ body)
  | none {inner : WireType} : Encodes (.optional inner) .none [0]
  | some {inner : WireType} {value : WireValue} {payload : List UInt8}
      (h : inner.encodeValue value = some payload) :
      Encodes (.optional inner) (.some value) (1 :: payload)
  | ok {ok err : WireType} {value : WireValue} {payload : List UInt8}
      (h : ok.encodeValue value = some payload) :
      Encodes (.result ok err) (.ok value) (0 :: payload)
  | err {ok err : WireType} {value : WireValue} {payload : List UInt8}
      (h : err.encodeValue value = some payload) :
      Encodes (.result ok err) (.err value) (1 :: payload)

theorem encodes_of_encodeValue {ty : WireType} {value : WireValue}
    (h : ty.encodeValue value = some encoded) : Encodes ty value encoded := by
  cases value with
  | prim word => exact .prim (by cases ty <;> exact h)
  | string s =>
      cases ty <;> simp only [encodeValue, reduceCtorEq] at h
      simp only [encodeString] at h
      split at h <;> simp only [Except.toOption, Option.some.injEq, reduceCtorEq] at h
      exact h ▸ .string rfl ‹_›
  | bytes data =>
      cases ty <;> simp only [encodeValue, reduceCtorEq] at h
      simp only [encodeBytes] at h
      split at h <;> simp only [Except.toOption, Option.some.injEq, reduceCtorEq] at h
      exact h ▸ .bytes ‹_›
  | array elems =>
      cases ty <;> simp only [encodeValue, reduceCtorEq] at h
      split at h <;> simp only [Option.bind_eq_bind, Option.bind_eq_some_iff, Option.some.injEq,
        reduceCtorEq] at h
      obtain ⟨body, hbody, rfl⟩ := h
      exact .array ‹_› hbody
  | map entries =>
      cases ty <;> simp only [encodeValue, reduceCtorEq] at h
      split at h <;> simp only [Option.bind_eq_bind, Option.bind_eq_some_iff, Option.some.injEq,
        reduceCtorEq] at h
      obtain ⟨body, hbody, rfl⟩ := h
      exact .map ‹_› hbody
  | none =>
      cases ty <;> simp only [encodeValue, encodeOptional, Option.some.injEq, reduceCtorEq] at h
      exact h ▸ .none
  | some value =>
      cases ty <;> simp only [encodeValue, Option.bind_eq_bind, Option.bind_eq_some_iff,
        Option.some.injEq, reduceCtorEq] at h
      obtain ⟨payload, hpayload, rfl⟩ := h
      exact .some hpayload
  | ok value =>
      cases ty <;> simp only [encodeValue, Option.bind_eq_bind, Option.bind_eq_some_iff,
        Option.some.injEq, reduceCtorEq] at h
      obtain ⟨payload, hpayload, rfl⟩ := h
      exact .ok hpayload
  | err value =>
      cases ty <;> simp only [encodeValue, Option.bind_eq_bind, Option.bind_eq_some_iff,
        Option.some.injEq, reduceCtorEq] at h
      obtain ⟨payload, hpayload, rfl⟩ := h
      exact .err hpayload

/-- Except for the unit type, an encoding has at least one byte. -/
theorem encodeValue_ne_nil {ty : WireType} {value : WireValue}
    (h : ty.encodeValue value = some encoded) (hunit : ty ≠ unit) : encoded ≠ [] := by
  intro empty
  cases encodes_of_encodeValue h with
  | prim hprim =>
      subst empty
      have zero := length_encodePrimitive hprim
      cases ty <;> simp_all [fixedSize, encodePrimitive]
  | _ => simp [leBytes, encodeArrayHeader, encodeMapHeader] at empty

/-! ### The decoder on one encoded value -/

/-- The decoder's outcome on an encoding at a depth: the encoding itself when the levels of the
value stay inside the limit, a refusal otherwise. -/
def ReadsBack (ty : WireType) : Prop :=
  ∀ (value : WireValue) (encoded suffix : List UInt8) (depth : Nat),
    ty.encodeValue value = some encoded →
      ty.decodeValueDepth (encoded ++ suffix) depth
        = if depth + ty.levels value ≤ maxNesting then some (encoded, encoded.length) else none

/-! ### The element loops -/

/-- Running the loop over the encodings of `xs` takes every step exactly when every element is
good, and then stops right after the last encoding.  The induction moves the encodings already
read into the prefix. -/
theorem decodeLoop_encodeSeq {α : Type} {encode : α → Option (List UInt8)}
    (step : List UInt8 → Nat → Option Nat) (good : α → Prop) [DecidablePred good]
    (hstep : ∀ x head pre suffix, encode x = some head →
      step (pre ++ (head ++ suffix)) pre.length
        = if good x then some (pre.length + head.length) else none) :
    ∀ (xs : List α) (body pre suffix : List UInt8), encodeSeq encode xs = some body →
      decodeLoop (step (pre ++ (body ++ suffix))) xs.length pre.length
        = if ∀ x ∈ xs, good x then some (pre.length + body.length) else none := by
  intro xs
  induction xs with
  | nil =>
      intro body pre suffix h
      simp only [encodeSeq, Option.some.injEq] at h
      subst h
      simp [decodeLoop]
  | cons x xs ih =>
      intro body pre suffix h
      simp only [encodeSeq, Option.bind_eq_bind, Option.bind_eq_some_iff, Option.some.injEq] at h
      obtain ⟨head, hhead, tail, htail, rfl⟩ := h
      have first := hstep x head pre (tail ++ suffix) hhead
      have rest := ih tail (pre ++ head) suffix htail
      simp only [List.append_assoc, List.length_append] at first rest ⊢
      simp only [List.length_cons, decodeLoop, first, Option.bind_eq_bind]
      by_cases hx : good x
      · simp [hx, rest, Nat.add_assoc]
      · simp [hx]

/-- One step on an element whose encoding is not empty. -/
theorem decodeStep_append {decode : List UInt8 → Option (List UInt8 × Nat)}
    {head suffix : List UInt8} {good : Prop} [Decidable good]
    (hdecode : decode (head ++ suffix) = if good then some (head, head.length) else none)
    (hhead : head ≠ []) (pre : List UInt8) :
    decodeStep decode (pre ++ (head ++ suffix)) pre.length
      = if good then some (pre.length + head.length) else none := by
  have inside : ¬ pre.length > (pre ++ (head ++ suffix)).length := by simp
  have positive : head.length ≠ 0 := by simpa using hhead
  by_cases hgood : good <;>
    simp_all [decodeStep]

/-- Past the nesting limit the decoder refuses at once, so only the shallow depths matter. -/
theorem readsBack_of_shallow {ty : WireType}
    (h : ∀ (value : WireValue) (encoded suffix : List UInt8) (depth : Nat),
      depth ≤ maxNesting → ty.encodeValue value = some encoded →
        ty.decodeValueDepth (encoded ++ suffix) depth
          = if depth + ty.levels value ≤ maxNesting then some (encoded, encoded.length)
            else none) :
    ReadsBack ty := by
  intro value encoded suffix depth hencode
  by_cases shallow : depth ≤ maxNesting
  · exact h value encoded suffix depth shallow hencode
  · rw [if_neg (by omega)]
    unfold decodeValueDepth
    rw [if_pos (by omega)]

/-- The last step of the compound decoders: cut the consumed bytes off the buffer. -/
theorem take_encoded {consumed : Nat} (h : encoded.length = consumed) (suffix : List UInt8) :
    some ((encoded ++ suffix).take consumed, consumed) = some (encoded, encoded.length) := by
  rw [List.take_left' h, h]

@[simp] theorem levels_prim (ty : WireType) (word : UInt64) : ty.levels (.prim word) = 0 := by
  cases ty <;> rfl

/-- A type whose fixed size is known is read back whole. -/
theorem readsBack_fixed {ty : WireType} {size : Nat} (hsize : ty.fixedSize = some size) :
    ReadsBack ty := by
  apply readsBack_of_shallow
  intro value encoded suffix depth shallow h
  cases encodes_of_encodeValue h with
  | prim hprim =>
      have length := length_encodePrimitive hprim
      unfold decodeValueDepth
      rw [if_neg (by omega), levels_prim, if_pos (by omega)]
      cases ty <;> simp_all [fixedSize, encodePrimitive]
  | _ => simp [fixedSize] at hsize

theorem readsBack_string : ReadsBack .string := by
  apply readsBack_of_shallow
  intro value encoded suffix depth shallow h
  cases encodes_of_encodeValue h with
  | prim hprim => simp [encodePrimitive] at hprim
  | @string s data hdata fits =>
      have length : (leBytes 4 data.length ++ data).length = 4 + data.length := by simp
      unfold decodeValueDepth
      simp only [Nat.not_lt.mpr shallow, if_false, decodeString_append hdata fits,
        Option.bind_eq_bind, Option.bind_some, take_encoded length]
      simp [levels, shallow]

theorem readsBack_bytes : ReadsBack .bytes := by
  apply readsBack_of_shallow
  intro value encoded suffix depth shallow h
  cases encodes_of_encodeValue h with
  | prim hprim => simp [encodePrimitive] at hprim
  | @bytes data fits =>
      have length : (leBytes 4 data.length ++ data).length = 4 + data.length := by simp
      unfold decodeValueDepth
      simp only [Nat.not_lt.mpr shallow, if_false, decodeBytes_append fits,
        Option.bind_eq_bind, Option.bind_some, take_encoded length]
      simp [levels, shallow]

/-- A sequence read behind its four-byte header. -/
theorem decodeLoop_behind_header {α : Type} {encode : α → Option (List UInt8)}
    (step : List UInt8 → Nat → Option Nat) (good : α → Prop) [DecidablePred good]
    (hstep : ∀ x head pre suffix, encode x = some head →
      step (pre ++ (head ++ suffix)) pre.length
        = if good x then some (pre.length + head.length) else none)
    {xs : List α} {header body : List UInt8} (hbody : encodeSeq encode xs = some body)
    (hheader : header.length = 4) (suffix : List UInt8) :
    (decodeLoop (step (header ++ body ++ suffix)) xs.length 4).bind
        (fun consumed => some ((header ++ body ++ suffix).take consumed, consumed))
      = if ∀ x ∈ xs, good x then some (header ++ body, (header ++ body).length) else none := by
  have loop := decodeLoop_encodeSeq step good hstep xs body header suffix hbody
  rw [hheader] at loop
  rw [List.append_assoc, loop, ← List.append_assoc]
  by_cases allGood : ∀ x ∈ xs, good x
  · have length : (header ++ body).length = 4 + body.length := by simp [hheader]
    simp only [if_pos allGood, Option.bind_some, take_encoded length]
  · simp only [if_neg allGood, Option.bind_none]

/-- Every element stays inside the limit one level down exactly when the whole sequence does. -/
theorem forall_levels_le_iff {α : Type} (f : α → Nat) (xs : List α) {depth : Nat}
    (shallow : depth ≤ maxNesting) :
    (∀ x ∈ xs, depth + 1 + f x ≤ maxNesting)
      ↔ depth + largest (xs.map fun x => f x + 1) ≤ maxNesting := by
  have within := @largest_le_iff (xs.map fun x => f x + 1) (maxNesting - depth)
  simp only [List.forall_mem_map] at within
  rw [Nat.add_comm depth (largest _), ← Nat.le_sub_iff_add_le shallow, within]
  exact forall₂_congr fun x _ => by omega

theorem readsBack_array {elem : WireType} (hunit : elem ≠ unit) (ih : ReadsBack elem) :
    ReadsBack (.array elem) := by
  apply readsBack_of_shallow
  intro value encoded suffix depth shallow h
  cases encodes_of_encodeValue h with
  | prim hprim => simp [encodePrimitive] at hprim
  | @array _ elems body fits hbody =>
      have loop := decodeLoop_behind_header
        (decodeStep fun rest => elem.decodeValueDepth rest (depth + 1))
        (fun v => depth + 1 + elem.levels v ≤ maxNesting)
        (fun v head pre rest hv =>
          decodeStep_append (ih v head rest (depth + 1) hv) (encodeValue_ne_nil hv hunit) pre)
        hbody (length_leBytes 4 elems.length) suffix
      have header : decodeArrayHeader (leBytes 4 elems.length ++ body ++ suffix)
          = some (elems.length, 4) := by
        rw [List.append_assoc]; exact decodeArrayHeader_encode fits _
      unfold decodeValueDepth
      simp only [encodeArrayHeader, Nat.not_lt.mpr shallow, if_false, header,
        Option.bind_eq_bind, Option.bind_some, loop]
      rw [levels]
      exact if_congr (forall_levels_le_iff _ _ shallow) rfl rfl

/-- One round of the map loop: a key, then its value. -/
theorem decodeStep_entry {key value : WireType} (hkey : key ≠ unit) (hvalue : value ≠ unit)
    (ihKey : ReadsBack key) (ihValue : ReadsBack value) (depth : Nat)
    (entry : WireValue × WireValue) (head pre suffix : List UInt8)
    (h : encodeEntry key.encodeValue value.encodeValue entry = some head) :
    ((decodeStep (fun rest => key.decodeValueDepth rest (depth + 1))
        (pre ++ (head ++ suffix)) pre.length).bind fun at' =>
      decodeStep (fun rest => value.decodeValueDepth rest (depth + 1))
        (pre ++ (head ++ suffix)) at')
      = if depth + 1 + max (key.levels entry.1) (value.levels entry.2) ≤ maxNesting then
          some (pre.length + head.length) else none := by
  simp only [encodeEntry, Option.bind_eq_bind, Option.bind_eq_some_iff, Option.some.injEq] at h
  obtain ⟨k, hk, v, hv, rfl⟩ := h
  have keyStep := @decodeStep_append (fun rest => key.decodeValueDepth rest (depth + 1))
    k (v ++ suffix) _ _ (ihKey entry.1 k (v ++ suffix) (depth + 1) hk)
    (encodeValue_ne_nil hk hkey) pre
  have valueStep := @decodeStep_append (fun rest => value.decodeValueDepth rest (depth + 1))
    v suffix _ _ (ihValue entry.2 v suffix (depth + 1) hv)
    (encodeValue_ne_nil hv hvalue) (pre ++ k)
  simp only [List.append_assoc, List.length_append] at keyStep valueStep ⊢
  rw [keyStep]
  by_cases keyFits : depth + 1 + key.levels entry.1 ≤ maxNesting
  · rw [if_pos keyFits, Option.bind_some, valueStep]
    exact if_congr (by omega) (by rw [Nat.add_assoc]) rfl
  · rw [if_neg keyFits, Option.bind_none, if_neg (by omega)]

theorem readsBack_map {key value : WireType} (hkey : key ≠ unit) (hvalue : value ≠ unit)
    (ihKey : ReadsBack key) (ihValue : ReadsBack value) : ReadsBack (.map key value) := by
  apply readsBack_of_shallow
  intro wire encoded suffix depth shallow h
  cases encodes_of_encodeValue h with
  | prim hprim => simp [encodePrimitive] at hprim
  | @map _ _ entries body fits hbody =>
      have loop := decodeLoop_behind_header
        (fun data at' =>
          (decodeStep (fun rest => key.decodeValueDepth rest (depth + 1)) data at').bind fun at' =>
            decodeStep (fun rest => value.decodeValueDepth rest (depth + 1)) data at')
        (fun entry => depth + 1 + max (key.levels entry.1) (value.levels entry.2) ≤ maxNesting)
        (fun entry head pre rest hentry =>
          decodeStep_entry hkey hvalue ihKey ihValue depth entry head pre rest hentry)
        hbody (length_leBytes 4 entries.length) suffix
      have header : decodeMapHeader (leBytes 4 entries.length ++ body ++ suffix)
          = some (entries.length, 4) := by
        rw [List.append_assoc]; exact decodeArrayHeader_encode fits _
      unfold decodeValueDepth
      simp only [encodeMapHeader, Nat.not_lt.mpr shallow, if_false, header,
        Option.bind_eq_bind, Option.bind_some, loop]
      rw [levels]
      exact if_congr (forall_levels_le_iff _ _ shallow) rfl rfl

theorem readsBack_optional {inner : WireType} (ih : ReadsBack inner) :
    ReadsBack (.optional inner) := by
  apply readsBack_of_shallow
  intro value encoded suffix depth shallow h
  cases encodes_of_encodeValue h with
  | prim hprim => simp [encodePrimitive] at hprim
  | none =>
      unfold decodeValueDepth
      by_cases room : depth + 1 ≤ maxNesting
      · simp [decodeOptionalWith, levels, room, Nat.not_lt.mpr shallow, Nat.not_lt.mpr room]
      · simp [decodeOptionalWith, levels, room, Nat.lt_of_not_le room]
  | @some _ value payload hpayload =>
      have inside := ih value payload suffix (depth + 1 + 1) hpayload
      unfold decodeValueDepth
      by_cases room : depth + (inner.levels value + 2) ≤ maxNesting
      · have inner_room : depth + 1 + 1 + inner.levels value ≤ maxNesting := by omega
        rw [if_pos inner_room] at inside
        simp [decodeOptionalWith, levels, room, Nat.not_lt.mpr shallow,
          show ¬ maxNesting < depth + 1 by omega, inside]
      · have inner_room : ¬ depth + 1 + 1 + inner.levels value ≤ maxNesting := by omega
        rw [if_neg inner_room] at inside
        simp [decodeOptionalWith, levels, room, inside]

theorem readsBack_result {ok err : WireType} (ihOk : ReadsBack ok) (ihErr : ReadsBack err) :
    ReadsBack (.result ok err) := by
  apply readsBack_of_shallow
  intro value encoded suffix depth shallow h
  cases encodes_of_encodeValue h with
  | prim hprim => simp [encodePrimitive] at hprim
  | @ok _ _ value payload hpayload =>
      have inside := ihOk value payload suffix (depth + 1 + 1) hpayload
      unfold decodeValueDepth
      by_cases room : depth + (ok.levels value + 2) ≤ maxNesting
      · have inner_room : depth + 1 + 1 + ok.levels value ≤ maxNesting := by omega
        rw [if_pos inner_room] at inside
        simp [decodeResultWith, decodeResultTag, levels, room, Nat.not_lt.mpr shallow,
          show ¬ maxNesting < depth + 1 by omega, inside, Nat.add_comm 1]
      · have inner_room : ¬ depth + 1 + 1 + ok.levels value ≤ maxNesting := by omega
        rw [if_neg inner_room] at inside
        simp [decodeResultWith, decodeResultTag, levels, room, inside]
  | @err _ _ value payload hpayload =>
      have inside := ihErr value payload suffix (depth + 1 + 1) hpayload
      unfold decodeValueDepth
      by_cases room : depth + (err.levels value + 2) ≤ maxNesting
      · have inner_room : depth + 1 + 1 + err.levels value ≤ maxNesting := by omega
        rw [if_pos inner_room] at inside
        simp [decodeResultWith, decodeResultTag, levels, room, Nat.not_lt.mpr shallow,
          show ¬ maxNesting < depth + 1 by omega, inside, Nat.add_comm 1]
      · have inner_room : ¬ depth + 1 + 1 + err.levels value ≤ maxNesting := by omega
        rw [if_neg inner_room] at inside
        simp [decodeResultWith, decodeResultTag, levels, room, inside]

theorem readsBack {ty : WireType} (h : ty.noUnitElements = true) : ReadsBack ty := by
  induction ty with
  | string => exact readsBack_string
  | bytes => exact readsBack_bytes
  | array elem ih =>
      simp only [noUnitElements, Bool.and_eq_true, decide_eq_true_eq] at h
      exact readsBack_array h.1 (ih h.2)
  | map key value ihKey ihValue =>
      simp only [noUnitElements, Bool.and_eq_true, decide_eq_true_eq] at h
      exact readsBack_map h.1.1.1 h.1.1.2 (ihKey h.1.2) (ihValue h.2)
  | optional inner ih => exact readsBack_optional (ih h)
  | result ok err ihOk ihErr =>
      simp only [noUnitElements, Bool.and_eq_true] at h
      exact readsBack_result (ihOk h.1) (ihErr h.2)
  | _ => exact readsBack_fixed rfl

/-- The decoder returns the encoding and its length, whatever follows, exactly when the levels it
counts on the value stay within its limit. -/
theorem decodeValue_encodeValue_iff {ty : WireType} {value : WireValue} {encoded : List UInt8}
    (units : ty.noUnitElements = true) (hencode : ty.encodeValue value = some encoded)
    (suffix : List UInt8) :
    ty.decodeValue (encoded ++ suffix) = some (encoded, encoded.length)
      ↔ ty.levels value ≤ maxNesting := by
  have outcome := readsBack units value encoded suffix 0 hencode
  rw [Nat.zero_add] at outcome
  rw [decodeValue, outcome]
  by_cases room : ty.levels value ≤ maxNesting
  · simp [room]
  · simp [room]

/-- `bool` under `depth` optionals. -/
def optionalBool : Nat → WireType
  | 0 => bool
  | depth + 1 => optional (optionalBool depth)

/-- A boolean present under `depth` optionals. -/
def presentBool : Nat → WireValue
  | 0 => .prim 1
  | depth + 1 => .some (presentBool depth)

/-- An array of optional words, one present and one absent, followed by a stray byte. -/
theorem decodeValue_encodeValue_iff_sample :
    (array (optional u16)).decodeValue ([2, 0, 0, 0, 1, 7, 0, 0] ++ [9])
        = some ([2, 0, 0, 0, 1, 7, 0, 0], 8)
      ↔ (array (optional u16)).levels (.array [.some (.prim 7), .none]) ≤ maxNesting :=
  decodeValue_encodeValue_iff (by decide) (by decide) [9]

/-- Sixty-five nested optionals are far inside the documented limit, and the decoder refuses the
encoding of a present value: it counts two levels for each optional it enters. -/
theorem decodeValue_refuses_present_optionals :
    (optionalBool 65).noUnitElements = true ∧ (optionalBool 65).nesting ≤ maxNesting ∧
      (optionalBool 65).encodeValue (presentBool 65) = some (List.replicate 66 1) ∧
      (optionalBool 65).decodeValue (List.replicate 66 1 ++ []) = none := by
  refine ⟨by decide, by decide, by decide, by decide +kernel⟩

end WireType
end Mimi.Component
