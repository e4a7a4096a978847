/-
Module: Mimi.Proofs.WireReadings
Purpose: What the wire decoder reads is read in one way.  So the ways to decode an optional or a result differ at the
  limit of nesting only, and what is accepted is an encoding unless a boolean is neither 0 nor 1.
Trusted boundary: none
-/
import Mimi.Lib.PrefixFree
import Mimi.Proofs.WireGrammar

namespace Mimi.Component

open Mimi.Lib WireType Reading

variable {ty key value inner : WireType} {data : List UInt8} {depth : Nat} {part payload : Reading}

/-! ### One reading -/

theorem header_unique {m n : Nat} {rest rest' : List UInt8} (fits : m ≤ u32Max) (fits' : n ≤ u32Max)
    (same : leBytes 4 m ++ rest = leBytes 4 n ++ rest') : m = n ∧ rest = rest' := by
  obtain ⟨headers, rests⟩ := List.append_inj same (by rw [length_leBytes, length_leBytes])
  refine ⟨?_, rests⟩
  rw [← count_of_header fits, headers, count_of_header fits']

theorem framed_unique {text text' rest rest' : List UInt8} (fits : text.length ≤ u32Max)
    (fits' : text'.length ≤ u32Max)
    (same : leBytes 4 text.length ++ text ++ rest = leBytes 4 text'.length ++ text' ++ rest') : text = text' := by
  rw [List.append_assoc, List.append_assoc] at same
  obtain ⟨lengths, same⟩ := header_unique fits fits' same
  exact (List.append_inj same lengths).1

theorem counted_unique {α : Type} {bytes : α → List UInt8} {Good : α → Prop}
    (free : ∀ a b rest rest', Good a → Good b → bytes a ++ rest = bytes b ++ rest' → a = b) {us vs : List α}
    {rest rest' : List UInt8} (fits : us.length ≤ u32Max) (fits' : vs.length ≤ u32Max) (good : ∀ a ∈ us, Good a)
    (good' : ∀ b ∈ vs, Good b)
    (same : leBytes 4 us.length ++ us.flatMap bytes ++ rest = leBytes 4 vs.length ++ vs.flatMap bytes ++ rest') :
    us = vs := by
  rw [List.append_assoc, List.append_assoc] at same
  obtain ⟨lengths, same⟩ := header_unique fits fits' same
  exact flatMap_unique free lengths good good' same

/-- What stands at the front of the data is read in one way. -/
theorem Reads.unique {p q : Reading} {rest rest' : List UInt8} (first : Reads ty p) (second : Reads ty q)
    (same : p.bytes ++ rest = q.bytes ++ rest') : p = q := by
  induction ty generalizing p q rest rest' with
  | string =>
      cases first with
      | fixed sized => cases sized
      | string fits =>
          cases second with
          | fixed sized => cases sized
          | string fits' => rw [framed_unique fits fits' same]
  | bytes =>
      cases first with
      | fixed sized => cases sized
      | bytes fits =>
          cases second with
          | fixed sized => cases sized
          | bytes fits' => rw [framed_unique fits fits' same]
  | bool =>
      cases first with
      | fixed _ other => exact absurd rfl other
      | bool byte =>
          cases second with
          | fixed _ other => exact absurd rfl other
          | bool byte' =>
              obtain ⟨rfl, -⟩ := List.cons.inj same
              rfl
  | array elem ih =>
      cases first with
      | fixed sized => cases sized
      | @array _ parts fits each =>
          cases second with
          | fixed sized => cases sized
          | @array _ parts' fits' each' =>
              have equal : parts = parts' := counted_unique (fun a b _ _ good good' => ih good good') fits fits' each
                each' same
              rw [equal]
  | map key value ihKey ihValue =>
      cases first with
      | fixed sized => cases sized
      | @map _ _ entries fits keys values =>
          cases second with
          | fixed sized => cases sized
          | @map _ _ entries' fits' keys' values' =>
              simp only [counted, flatMap_entries] at same
              have free (a b : Reading × Reading) (rest rest' : List UInt8) (good : Reads key a.1 ∧ Reads value a.2)
                  (good' : Reads key b.1 ∧ Reads value b.2)
                  (same : a.1.bytes ++ a.2.bytes ++ rest = b.1.bytes ++ b.2.bytes ++ rest') : a = b := by
                rw [List.append_assoc, List.append_assoc] at same
                have first := ihKey good.1 good'.1 same
                rw [first] at same
                exact Prod.ext first (ihValue good.2 good'.2 (List.append_cancel_left same))
              have equal : entries = entries' := counted_unique free fits fits'
                (fun entry member => ⟨keys entry member, values entry member⟩)
                (fun entry member => ⟨keys' entry member, values' entry member⟩) same
              rw [equal]
  | optional inner ih =>
      cases first with
      | fixed sized => cases sized
      | absent =>
          cases second with
          | fixed sized => cases sized
          | absent => rfl
          | present => exact absurd (List.cons.inj same).1 (by decide)
      | present inside =>
          cases second with
          | fixed sized => cases sized
          | absent => exact absurd (List.cons.inj same).1 (by decide)
          | present inside' => rw [ih inside inside' (List.cons.inj same).2]
  | result ok err ihOk ihErr =>
      cases first with
      | fixed sized => cases sized
      | ok inside =>
          cases second with
          | fixed sized => cases sized
          | ok inside' => rw [ihOk inside inside' (List.cons.inj same).2]
          | err => exact absurd (List.cons.inj same).1 (by decide)
      | err inside =>
          cases second with
          | fixed sized => cases sized
          | ok => exact absurd (List.cons.inj same).1 (by decide)
          | err inside' => rw [ihErr inside inside' (List.cons.inj same).2]
  | _ =>
      obtain ⟨bytes, length, rfl⟩ := first.fixed_inv rfl (by rintro ⟨⟩)
      obtain ⟨bytes', length', rfl⟩ := second.fixed_inv rfl (by rintro ⟨⟩)
      exact congrArg (leaf · []) (List.append_inj same (length.trans length'.symm)).1

/-! ### The ways to decode an optional or a result -/

/-- A payload that takes all levels but one. -/
def AtLimit (ty : WireType) (data : List UInt8) : Prop :=
  ∃ payload, Reads ty payload ∧ payload.bytes <+: data ∧ payload.solid = true ∧ payload.levels + 1 = maxNesting

/-- A level more or less matters to a payload at the limit only. -/
theorem accepted_succ_iff (reads : Reads ty payload) (below : ¬AtLimit ty data) :
    payload.Accepted data 1 ↔ payload.Accepted data 2 := by
  constructor
  · rintro ⟨front, solid, room⟩
    refine ⟨front, solid, ?_⟩
    have other : payload.levels + 1 ≠ maxNesting := fun limit => below ⟨payload, reads, front, solid, limit⟩
    omega
  · rintro ⟨front, solid, room⟩
    exact ⟨front, solid, by omega⟩

/-- Two readings at the front of the same data are the same. -/
theorem Reads.front_unique {p q : Reading} (first : Reads ty p) (second : Reads ty q) (front : p.bytes <+: data)
    (front' : q.bytes <+: data) : p = q := by
  obtain ⟨rest, whole⟩ := front
  obtain ⟨rest', whole'⟩ := front'
  exact first.unique second (whole.trans whole'.symm)

/-- A payload at the limit is refused one level further down. -/
theorem not_accepted_two (limit : AtLimit ty data) (reads : Reads ty payload) : ¬payload.Accepted data 2 := by
  rintro ⟨front, -, room⟩
  obtain ⟨other, reads', front', -, levels⟩ := limit
  have same := reads.front_unique reads' front front'
  subst same
  omega

theorem accepted_one_of_limit (limit : AtLimit ty data) : ∃ payload, Reads ty payload ∧ payload.Accepted data 1 := by
  obtain ⟨payload, reads, front, solid, levels⟩ := limit
  exact ⟨payload, reads, front, solid, by omega⟩

theorem decodeValue_optional (inner : WireType) (data : List UInt8) :
    decodeValue (.optional inner) data =
      (decodeOptionalWith inner.decodeValueDepth data 1).map fun read => (encodeOptional read.1, read.2) := by
  ext ⟨v, n⟩
  rw [decodeValue, decodes, ← optional_read (decodes inner)]

theorem decodeValue_result (ok err : WireType) (data : List UInt8) :
    decodeValue (.result ok err) data =
      (decodeResultWith ok.decodeValueDepth err.decodeValueDepth data 1).map fun read =>
        (encodeResult read.1, read.2) := by
  ext ⟨v, n⟩
  rw [decodeValue, decodes, ← result_read fun _ => decodes _]

theorem optional_agrees_iff (inner : WireType) (data : List UInt8) :
    decodeOptionalWith inner.decodeValueDepth data 1 = decodeOptional inner data ↔
      ¬∃ rest, data = 1 :: rest ∧ AtLimit inner rest := by
  constructor
  · rintro agree ⟨rest, rfl, limit⟩
    obtain ⟨payload, reads, accepted⟩ := accepted_one_of_limit limit
    have reached : decodeOptional inner (1 :: rest) = some (some payload.bytes, payload.bytes.length + 1) :=
      (decodeOptionalWith_eq_some (decodes inner)).mpr
        ⟨by decide, .inr ⟨rest, payload, rfl, reads, accepted, rfl, rfl⟩⟩
    rw [← agree] at reached
    obtain ⟨-, ⟨_, zero, -⟩ | ⟨_, other, same, reads', accepted', -⟩⟩ :=
      (decodeOptionalWith_eq_some (decodes inner)).mp reached
    · exact absurd (List.cons.inj zero).1 (by decide)
    · obtain rfl := (List.cons.inj same).2
      exact not_accepted_two limit reads' accepted'
  · intro below
    ext ⟨read, n⟩
    rw [decodeOptional, decodeOptionalWith_eq_some (decodes inner), decodeOptionalWith_eq_some (decodes inner)]
    have levels (rest : List UInt8) (payload : Reading) (tagged : data = 1 :: rest) (reads : Reads inner payload) :
        payload.Accepted rest 2 ↔ payload.Accepted rest 1 :=
      (accepted_succ_iff reads fun limit => below ⟨rest, tagged, limit⟩).symm
    refine and_congr (by decide) (or_congr Iff.rfl (exists_congr fun rest => exists_congr fun payload => ?_))
    exact and_congr_right fun tagged => and_congr_right fun reads => and_congr_left' (levels rest payload tagged reads)

theorem result_agrees_iff (ok err : WireType) (data : List UInt8) :
    decodeResultWith ok.decodeValueDepth err.decodeValueDepth data 1 = decodeResult ok err data ↔
      ¬∃ isErr rest, data = resultTag isErr :: rest ∧ AtLimit (payloadType ok err isErr) rest := by
  have either (isErr : Bool) : Decodes (payloadType ok err isErr) := decodes _
  constructor
  · rintro agree ⟨isErr, rest, rfl, limit⟩
    obtain ⟨payload, reads, accepted⟩ := accepted_one_of_limit limit
    have reached : decodeResult ok err (resultTag isErr :: rest) =
        some (if isErr then .error payload.bytes else .ok payload.bytes, payload.bytes.length + 1) :=
      (decodeResultWith_eq_some either).mpr ⟨by decide, isErr, rest, payload, rfl, reads, accepted, rfl, rfl⟩
    rw [← agree] at reached
    obtain ⟨-, isErr', _, other, same, reads', accepted', -⟩ := (decodeResultWith_eq_some either).mp reached
    obtain ⟨tags, rfl⟩ := List.cons.inj same
    have kept : isErr' = isErr := by
      cases isErr <;> cases isErr' <;> first | rfl | exact absurd tags (by decide)
    subst kept
    exact not_accepted_two limit reads' accepted'
  · intro below
    ext ⟨read, n⟩
    rw [decodeResult, decodeResultWith_eq_some either, decodeResultWith_eq_some either]
    have levels (isErr : Bool) (rest : List UInt8) (payload : Reading) (tagged : data = resultTag isErr :: rest)
        (reads : Reads (payloadType ok err isErr) payload) : payload.Accepted rest 2 ↔ payload.Accepted rest 1 :=
      (accepted_succ_iff reads fun limit => below ⟨isErr, rest, tagged, limit⟩).symm
    refine and_congr (by decide)
      (exists_congr fun isErr => exists_congr fun rest => exists_congr fun payload => and_congr_right fun tagged =>
        and_congr_right fun reads => and_congr_left' (levels isErr rest payload tagged reads))

theorem encodeOptional_injective : Function.Injective encodeOptional := by
  intro a b same
  cases a <;> cases b <;> simp_all [encodeOptional]

theorem encodeResult_injective : Function.Injective encodeResult := by
  intro a b same
  cases a <;> cases b <;> simp_all [encodeResult, encodeResultTag]

theorem map_read_inj {α : Type} {encode : α → List UInt8} (injective : Function.Injective encode)
    {a b : Option (α × Nat)} :
    a.map (fun read => (encode read.1, read.2)) = b.map (fun read => (encode read.1, read.2)) ↔ a = b := by
  have reads : Function.Injective fun read : α × Nat => (encode read.1, read.2) :=
    fun r r' same => Prod.ext (injective (Prod.mk.inj same).1) (Prod.mk.inj same).2
  exact (Option.map_injective reads).eq_iff

/-- The decoder that returns the value of an optional or a result, and the one that returns its bytes, differ exactly
where the payload takes all levels but one: only the first still reads it. -/
theorem decoders_agree_iff (inner ok err : WireType) (data : List UInt8) :
    (decodeValue (.optional inner) data =
          (decodeOptional inner data).map (fun read => (encodeOptional read.1, read.2)) ↔
        ¬∃ rest, data = 1 :: rest ∧ AtLimit inner rest) ∧
      (decodeValue (.result ok err) data =
          (decodeResult ok err data).map (fun read => (encodeResult read.1, read.2)) ↔
        ¬∃ isErr rest, data = resultTag isErr :: rest ∧ AtLimit (payloadType ok err isErr) rest) := by
  rw [decodeValue_optional, decodeValue_result, map_read_inj encodeOptional_injective,
    map_read_inj encodeResult_injective]
  exact ⟨optional_agrees_iff inner data, result_agrees_iff ok err data⟩

/-! ### Encodings -/

theorem toByteArray_toList (s : String) : s.toByteArray.data.toList = utf8Bytes s := by
  rw [utf8Bytes, ← String.utf8Encode_toList, List.utf8Encode, List.data_toByteArray]

/-- Every byte that is read as a boolean is one that is written for a boolean. -/
def Reading.Proper (part : Reading) : Prop := ∀ byte ∈ part.bools, byte = 0 ∨ byte = 1

theorem encodeValue_prim (ty : WireType) (word : UInt64) : ty.encodeValue (.prim word) = ty.encodePrimitive word := by
  cases ty <;> rfl

theorem encodePrimitive_fixed {size : Nat} {bytes : List UInt8} (sized : ty.fixedSize = some size) (other : ty ≠ .bool)
    (length : bytes.length = size) : ty.encodePrimitive (UInt64.ofNat (ofLeBytes bytes)) = some bytes := by
  have small := ofLeBytes_lt bytes
  have back := leBytes_ofLeBytes bytes
  rw [length] at small back
  have word (eight : size ≤ 8) : (UInt64.ofNat (ofLeBytes bytes)).toNat = ofLeBytes bytes := by
    rw [UInt64.toNat_ofNat']
    exact Nat.mod_eq_of_lt (small.trans_le (Nat.pow_le_pow_right (by decide) eight))
  cases ty <;> cases sized <;> first
    | exact absurd rfl other
    | exact congrArg some (List.length_eq_zero_iff.mp length).symm
    | exact congrArg some ((congrArg (leBytes _) (word (by decide))).trans back)

theorem encodeSeq_of_each {α β : Type} {encode : α → Option (List UInt8)} {bytes : β → List UInt8} {parts : List β}
    (each : ∀ part ∈ parts, ∃ a, encode a = some (bytes part)) :
    ∃ as : List α, as.length = parts.length ∧ encodeSeq encode as = some (parts.flatMap bytes) := by
  induction parts with
  | nil => exact ⟨[], rfl, rfl⟩
  | cons part parts ih =>
      obtain ⟨⟨a, first⟩, later⟩ := List.forall_mem_cons.mp each
      obtain ⟨as, length, encoded⟩ := ih later
      refine ⟨a :: as, congrArg Nat.succ length, ?_⟩
      simp [encodeSeq, first, encoded]

theorem each_of_encodeSeq {α β : Type} {encode : α → Option (List UInt8)} {bytes : β → List UInt8} {Good : β → Prop}
    {as : List α} {body : List UInt8} (each : ∀ a ∈ as, ∀ text, encode a = some text → ∃ b, Good b ∧ bytes b = text)
    (encoded : encodeSeq encode as = some body) :
    ∃ parts : List β, parts.length = as.length ∧ (∀ part ∈ parts, Good part) ∧ parts.flatMap bytes = body := by
  induction as generalizing body with
  | nil =>
      cases encoded
      exact ⟨[], rfl, nofun, rfl⟩
  | cons a as ih =>
      simp only [encodeSeq, Option.bind_eq_bind, Option.bind_eq_some_iff, Option.some.injEq] at encoded
      obtain ⟨head, first, tail, rest, rfl⟩ := encoded
      obtain ⟨here, later⟩ := List.forall_mem_cons.mp each
      obtain ⟨b, good, rfl⟩ := here head first
      obtain ⟨parts, length, all, rfl⟩ := ih later rest
      exact ⟨b :: parts, congrArg Nat.succ length, List.forall_mem_cons.mpr ⟨good, all⟩, rfl⟩

/-- What is read with proper booleans is the encoding of a value. -/
theorem Reads.encoding (reads : Reads ty part) (proper : part.Proper) : ∃ value, ty.encodeValue value = some part.bytes := by
  induction reads with
  | fixed sized other length => exact ⟨.prim _, (encodeValue_prim _ _).trans (encodePrimitive_fixed sized other length)⟩
  | bool byte =>
      rcases proper byte List.mem_cons_self with rfl | rfl
      · exact ⟨.prim 0, rfl⟩
      · exact ⟨.prim 1, rfl⟩
  | @string s fits =>
      refine ⟨.string s, ?_⟩
      rw [← toByteArray_toList] at fits
      rw [encodeValue, encodeString, if_pos fits, toByteArray_toList]
      rfl
  | @bytes data fits =>
      refine ⟨.bytes data, ?_⟩
      rw [encodeValue, encodeBytes, if_pos fits]
      rfl
  | @array elem parts fits each ih =>
      obtain ⟨elems, length, encoded⟩ := encodeSeq_of_each fun part member =>
        ih part member fun byte inside => proper byte (List.mem_flatMap.mpr ⟨part, member, inside⟩)
      refine ⟨.array elems, ?_⟩
      simp [encodeValue, length, fits, encoded, counted, encodeArrayHeader]
  | @map key value entries fits keys values ihKey ihValue =>
      have proper_of {entry : Reading × Reading} {part : Reading} (member : entry ∈ entries)
          (which : part ∈ [entry.1, entry.2]) : part.Proper := fun byte inside =>
        proper byte (List.mem_flatMap.mpr ⟨part, List.mem_flatMap.mpr ⟨entry, member, which⟩, inside⟩)
      have each (entry : Reading × Reading) (member : entry ∈ entries) :
          ∃ a, encodeEntry key.encodeValue value.encodeValue a = some (entry.1.bytes ++ entry.2.bytes) := by
        obtain ⟨k, first⟩ := ihKey entry member (proper_of member (by simp))
        obtain ⟨v, second⟩ := ihValue entry member (proper_of member (by simp))
        exact ⟨(k, v), by simp [encodeEntry, first, second]⟩
      obtain ⟨as, length, encoded⟩ := encodeSeq_of_each each
      refine ⟨.map as, ?_⟩
      simp [encodeValue, length, fits, encoded, counted, encodeMapHeader, List.flatMap_assoc]
  | absent => exact ⟨.none, rfl⟩
  | present inside ih =>
      obtain ⟨value, encoded⟩ := ih proper
      exact ⟨.some value, by simp [encodeValue, encoded, encodeOptional, tagged]⟩
  | ok inside ih =>
      obtain ⟨value, encoded⟩ := ih proper
      exact ⟨.ok value, by simp [encodeValue, encoded, encodeResultTag, tagged]⟩
  | err inside ih =>
      obtain ⟨value, encoded⟩ := ih proper
      exact ⟨.err value, by simp [encodeValue, encoded, encodeResultTag, tagged]⟩

/-- What the encoder writes can be read, with proper booleans. -/
theorem reads_of_encodeValue {value : WireValue} {text : List UInt8} (encoded : ty.encodeValue value = some text) :
    ∃ part, (Reads ty part ∧ part.Proper) ∧ part.bytes = text := by
  have plain := List.forall_mem_nil fun byte : UInt8 => byte = 0 ∨ byte = 1
  induction ty generalizing value text with
  | bool =>
      cases encodes_of_encodeValue encoded with
      | @prim _ word _ h =>
          cases h
          refine ⟨_, ⟨.bool _, ?_⟩, rfl⟩
          intro byte member
          rw [List.mem_singleton.mp member]
          split_ifs
          · exact .inr rfl
          · exact .inl rfl
  | string =>
      cases encodes_of_encodeValue encoded with
      | prim h => cases h
      | string hdata fits =>
          subst hdata
          rw [toByteArray_toList] at fits ⊢
          exact ⟨_, ⟨.string fits, plain⟩, rfl⟩
  | bytes =>
      cases encodes_of_encodeValue encoded with
      | prim h => cases h
      | bytes fits => exact ⟨_, ⟨.bytes fits, plain⟩, rfl⟩
  | array elem ih =>
      cases encodes_of_encodeValue encoded with
      | prim h => cases h
      | @array _ elems body fits h =>
          obtain ⟨parts, length, all, rfl⟩ := each_of_encodeSeq (fun _ _ _ => ih) h
          refine ⟨_, ⟨.array (length ▸ fits) fun part member => (all part member).1, ?_⟩, by rw [counted, length]; rfl⟩
          intro byte inside
          obtain ⟨part, member, inside⟩ := List.mem_flatMap.mp inside
          exact (all part member).2 byte inside
  | map key value ihKey ihValue =>
      cases encodes_of_encodeValue encoded with
      | prim h => cases h
      | @map _ _ entries body fits h =>
          have each (a : WireValue × WireValue) (_ : a ∈ entries) (text : List UInt8)
              (encoded : encodeEntry key.encodeValue value.encodeValue a = some text) :
              ∃ entry : Reading × Reading,
                ((Reads key entry.1 ∧ entry.1.Proper) ∧ Reads value entry.2 ∧ entry.2.Proper) ∧
                  entry.1.bytes ++ entry.2.bytes = text := by
            simp only [encodeEntry, Option.bind_eq_bind, Option.bind_eq_some_iff, Option.some.injEq] at encoded
            obtain ⟨k, first, v, second, rfl⟩ := encoded
            obtain ⟨p, good, rfl⟩ := ihKey first
            obtain ⟨q, good', rfl⟩ := ihValue second
            exact ⟨(p, q), ⟨good, good'⟩, rfl⟩
          obtain ⟨parts, length, all, rfl⟩ := each_of_encodeSeq each h
          refine ⟨_, ⟨.map (length ▸ fits) (fun entry member => (all entry member).1.1)
            (fun entry member => (all entry member).2.1), ?_⟩, by rw [counted, flatMap_entries, length]; rfl⟩
          intro byte inside
          obtain ⟨part, member, inside⟩ := List.mem_flatMap.mp inside
          obtain ⟨entry, present, which⟩ := List.mem_flatMap.mp member
          rcases List.mem_pair.mp which with rfl | rfl
          · exact (all entry present).1.2 byte inside
          · exact (all entry present).2.2 byte inside
  | optional inner ih =>
      cases encodes_of_encodeValue encoded with
      | prim h => cases h
      | none => exact ⟨_, ⟨.absent, plain⟩, rfl⟩
      | some h =>
          obtain ⟨part, ⟨reads, proper⟩, rfl⟩ := ih h
          exact ⟨_, ⟨.present reads, proper⟩, rfl⟩
  | result ok err ihOk ihErr =>
      cases encodes_of_encodeValue encoded with
      | prim h => cases h
      | ok h =>
          obtain ⟨part, ⟨reads, proper⟩, rfl⟩ := ihOk h
          exact ⟨_, ⟨.ok reads, proper⟩, rfl⟩
      | err h =>
          obtain ⟨part, ⟨reads, proper⟩, rfl⟩ := ihErr h
          exact ⟨_, ⟨.err reads, proper⟩, rfl⟩
  | _ =>
      cases encodes_of_encodeValue encoded with
      | prim h => exact ⟨_, ⟨.fixed (length_encodePrimitive h) (by rintro ⟨⟩) rfl, plain⟩, rfl⟩

/-- Everything a type-driven decoder accepts is the encoding of a value, except where it accepts a boolean that is
neither 0 nor 1: the bytes it returns are then written by no encoder. -/
theorem canonical_iff (ty : WireType) (data : List UInt8) :
    (∀ v n, decodeValue ty data = some (v, n) → ∃ value, ty.encodeValue value = some v) ↔
      ∀ part, Reads ty part → part.Accepted data 0 → ∀ byte ∈ part.bools, byte = 0 ∨ byte = 1 := by
  constructor
  · intro canonical part reads accepted
    obtain ⟨value, encoded⟩ := canonical _ _ ((decodes ty data 0 _ _).mpr ⟨part, reads, accepted, rfl, rfl⟩)
    obtain ⟨other, ⟨reads', proper⟩, same⟩ := reads_of_encodeValue encoded
    exact reads.unique reads' (congrArg (· ++ []) same.symm) ▸ proper
  · intro proper v n decoded
    obtain ⟨part, reads, accepted, rfl, -⟩ := (decodes ty data 0 v n).mp decoded
    exact reads.encoding (proper part reads accepted)

end Mimi.Component
