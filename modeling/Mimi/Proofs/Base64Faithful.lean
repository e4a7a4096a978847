/-
Module: Mimi.Proofs.Base64Faithful
Purpose: Base64 letters and the bytes they stand for are the same bits in groups of six and of eight.  What is
  encoded is decoded again; the decoder drops the bits behind the last whole byte, whatever they are, and so
  accepts letters that no text is encoded to.
Trusted boundary: none
-/
import Mimi.Runtime.Base64
import Mimi.Lib.Fallible

namespace Mimi.Runtime.Base64

open Mimi.Lib

def octetBits (bytes : List UInt8) : List Bool := groupBits 8 (bytes.map UInt8.toNat)

/-- The byte of the letter of six bits. -/
def letter_byte (value : Nat) : UInt8 := UInt8.ofNat (letter value).toNat

/-- Letters of an input that spell the bytes of a text leave fewer than six bits, none of which is set. -/
def DropsPaddingOnly (input : String) : Prop :=
  ∀ values s leftover, (∀ value ∈ values, value < 2 ^ 6) → clean input = values.map letter_byte →
    groupBits 6 values = octetBits (utf8Bytes s) ++ leftover → leftover.length < 8 →
      leftover.length < 6 ∧ true ∉ leftover

/-! ### Bytes and bits -/

theorem octetBits_append (front back : List UInt8) :
    octetBits (front ++ back) = octetBits front ++ octetBits back := by
  rw [octetBits, List.map_append, groupBits_append]
  rfl

theorem length_octetBits (bytes : List UInt8) : (octetBits bytes).length = 8 * bytes.length := by
  rw [octetBits, length_groupBits, List.length_map]

theorem octetBits_injective {bytes bytes' : List UInt8} (same : octetBits bytes = octetBits bytes') :
    bytes = bytes' := by
  have fit : ∀ bytes : List UInt8, ∀ n ∈ bytes.map UInt8.toNat, n < 2 ^ 8 := by
    intro bytes n member
    obtain ⟨byte, -, rfl⟩ := List.mem_map.mp member
    exact byte.toNat_lt
  exact List.map_injective_iff.mpr (fun _ _ => UInt8.toNat_inj.mp)
    (groupBits_injective (by decide) (fit bytes) (fit bytes') same)

/-- Whole bytes in front of less than a byte are read in one way. -/
theorem octets_unique {bytes bytes' : List UInt8} {leftover leftover' : List Bool}
    (same : octetBits bytes ++ leftover = octetBits bytes' ++ leftover') (short : leftover.length < 8)
    (short' : leftover'.length < 8) : bytes = bytes' ∧ leftover = leftover' := by
  have lengths := congrArg List.length same
  rw [List.length_append, List.length_append, length_octetBits, length_octetBits] at lengths
  obtain ⟨front, back⟩ := List.append_inj same (by rw [length_octetBits, length_octetBits]; omega)
  exact ⟨octetBits_injective front, back⟩

/-! ### The alphabet -/

theorem letter_byte_plain : ∀ value < 64, is_kept (letter_byte value) = true ∧
    String.utf8EncodeChar (letter value) = [letter_byte value] := by
  decide +kernel

theorem value_of_letter_byte : ∀ value < 64, value_of (letter_byte value) = .ok value := by
  decide +kernel

theorem letter_of_value_of : ∀ code < 256, ∀ value, value_of (UInt8.ofNat code) = .ok value →
    value < 64 ∧ UInt8.ofNat code = letter_byte value := by
  have table : ∀ code < 256, ∀ value ∈ (value_of (UInt8.ofNat code)).toOption,
      value < 64 ∧ UInt8.ofNat code = letter_byte value := by
    decide +kernel
  intro code below value found
  refine table code below value ?_
  rw [found]
  rfl

theorem value_of_eq_ok {b : UInt8} {value : Nat} (found : value_of b = .ok value) :
    value < 2 ^ 6 ∧ b = letter_byte value := by
  rw [← UInt8.ofNat_toNat (x := b)] at found ⊢
  exact letter_of_value_of b.toNat b.toNat_lt value found

theorem map_letter_byte_inj {values values' : List Nat} (fit : ∀ value ∈ values, value < 2 ^ 6)
    (fit' : ∀ value ∈ values', value < 2 ^ 6) :
    values.map letter_byte = values'.map letter_byte ↔ values = values' := by
  have read : ∀ values : List Nat, (∀ value ∈ values, value < 2 ^ 6) →
      (values.map letter_byte).map value_of = values.map .ok := by
    intro values fit
    rw [List.map_map]
    exact List.map_congr_left fun value member => value_of_letter_byte value (fit value member)
  refine ⟨fun same => ?_, fun same => same ▸ rfl⟩
  refine List.map_injective_iff.mpr (fun _ _ => Except.ok.inj (ε := Unit)) ?_
  rw [← read values fit, ← read values' fit', same]

theorem letter_low (value : Nat) : letter value = letter (value % 2 ^ 6) := by
  have low : ∀ n : Nat, n &&& 0x3F = n % 2 ^ 6 := fun n => Nat.and_two_pow_sub_one_eq_mod n 6
  rw [letter, letter, low, low, Nat.mod_mod]

/-- The letters of an encoding without its padding. -/
theorem filter_letters {values : List Nat} (padding : List Char) (pads : ∀ c ∈ padding, c = '=') :
    (((values.map letter) ++ padding).flatMap String.utf8EncodeChar).filter is_kept =
      (values.map (· % 2 ^ 6)).map letter_byte := by
  rw [List.flatMap_append, List.filter_append]
  have none_ : (padding.flatMap String.utf8EncodeChar).filter is_kept = [] := by
    refine List.filter_eq_nil_iff.mpr fun b member => ?_
    obtain ⟨c, inside, encoded⟩ := List.mem_flatMap.mp member
    rw [pads c inside, show String.utf8EncodeChar '=' = [61] from rfl] at encoded
    rw [List.mem_singleton.mp encoded]
    decide
  rw [none_, List.append_nil]
  induction values with
  | nil => rfl
  | cons value values ih =>
      obtain ⟨kept, encoded⟩ := letter_byte_plain (value % 2 ^ 6) (Nat.mod_lt _ (by decide))
      rw [List.map_cons, List.flatMap_cons, letter_low, encoded, List.singleton_append,
        List.filter_cons, if_pos kept, ih]
      rfl

/-! ### Encoding -/

theorem triple_bits (chunk : List UInt8) (short : chunk.length ≤ 3) :
    bitsOf 24 (triple chunk) = octetBits chunk ++ List.replicate (8 * (3 - chunk.length)) false := by
  have join_ : ∀ a b c : Nat, a < 2 ^ 8 → b < 2 ^ 8 → c < 2 ^ 8 →
      bitsOf 24 ((a <<< 16) ||| (b <<< 8) ||| c) = bitsOf 8 a ++ (bitsOf 8 b ++ bitsOf 8 c) := by
    intro a b c _ high low
    have lower : b <<< 8 + c = b * 2 ^ 8 + c := by rw [Nat.shiftLeft_eq]
    have fits : b * 2 ^ 8 + c < 2 ^ 16 := by omega
    rw [Nat.or_assoc, ← Nat.shiftLeft_add_eq_or_of_lt low, lower, ← Nat.shiftLeft_add_eq_or_of_lt fits,
      Nat.shiftLeft_eq, bitsOf_shift 8 16 _ _ fits, bitsOf_shift 8 8 _ _ low]
  have zero : bitsOf 8 0 = List.replicate 8 false := bitsOf_zero 8
  match chunk with
  | [] => simpa [triple, octetBits, zero] using join_ 0 0 0 (by decide) (by decide) (by decide)
  | [a] => simpa [triple, octetBits, zero, groupBits] using join_ a.toNat 0 0 a.toNat_lt (by decide) (by decide)
  | [a, b] => simpa [triple, octetBits, zero, groupBits] using join_ a.toNat b.toNat 0 a.toNat_lt b.toNat_lt (by decide)
  | [a, b, c] => simpa [triple, octetBits, groupBits] using join_ a.toNat b.toNat c.toNat a.toNat_lt b.toNat_lt c.toNat_lt

/-- A triple is read again in groups of six. -/
theorem triple_sextets (n : Nat) :
    groupBits 6 ([n >>> 18, n >>> 12, n >>> 6, n].map (· % 2 ^ 6)) = bitsOf 24 n := by
  simp only [List.map_cons, List.map_nil, groupBits_cons, groupBits_nil, bitsOf_mod, Nat.shiftRight_eq_div_pow,
    List.append_nil]
  rw [bitsOf_add 6 18, bitsOf_add 6 12, bitsOf_add 6 6]

/-- The front letters of a triple hold the bits of the chunk and the zeros behind it that they reach. -/
theorem front_letters {chunk : List UInt8} (short : chunk.length ≤ 3) (rest : List Nat) (more : Nat)
    {values : List Nat} {pad : Nat}
    (split_ : [triple chunk >>> 18, triple chunk >>> 12, triple chunk >>> 6, triple chunk] = values ++ rest)
    (zeros : 8 * (3 - chunk.length) = pad + more) (lengths : 6 * values.length = 8 * chunk.length + pad) :
    groupBits 6 (values.map (· % 2 ^ 6)) = octetBits chunk ++ List.replicate pad false := by
  have whole := (triple_sextets (triple chunk)).trans (triple_bits chunk short)
  rw [split_, List.map_append, groupBits_append, zeros, List.replicate_add, ← List.append_assoc] at whole
  refine List.append_inj_left whole ?_
  rw [length_groupBits, List.length_map, List.length_append, length_octetBits, List.length_replicate, lengths]

/-- The letters of a chunk hold the bits of its bytes, and bits that fill the last letter. -/
theorem encode_chunk_bits (chunk : List UInt8) (some_ : chunk ≠ []) (short : chunk.length ≤ 3) :
    ∃ (values : List Nat) (padding : List Char), encode_chunk chunk = values.map letter ++ padding ∧
      (∀ c ∈ padding, c = '=') ∧ groupBits 6 (values.map (· % 2 ^ 6)) =
        octetBits chunk ++ List.replicate (2 * (3 - chunk.length)) false := by
  match chunk with
  | [] => exact absurd rfl some_
  | [a] =>
      refine ⟨[triple [a] >>> 18, triple [a] >>> 12], ['=', '='], ?_, by simp, ?_⟩
      · rw [encode_chunk, if_neg (by simp), if_neg (by simp)]
        rfl
      · exact front_letters short [triple [a] >>> 6, triple [a]] 12 rfl rfl rfl
  | [a, b] =>
      refine ⟨[triple [a, b] >>> 18, triple [a, b] >>> 12, triple [a, b] >>> 6], ['='], ?_, by simp, ?_⟩
      · rw [encode_chunk, if_pos (by simp), if_neg (by simp)]
        rfl
      · exact front_letters short [triple [a, b]] 6 rfl rfl rfl
  | [a, b, c] =>
      refine ⟨[triple [a, b, c] >>> 18, triple [a, b, c] >>> 12, triple [a, b, c] >>> 6, triple [a, b, c]], [],
        ?_, by simp, ?_⟩
      · rw [encode_chunk, if_pos (by simp), if_pos (by simp)]
        rfl
      · exact front_letters short [] 0 (List.append_nil _).symm rfl rfl

/-- What an encoding keeps without its padding. -/
def letters (data : List UInt8) : List UInt8 :=
  (((chunks 3 data).flatMap encode_chunk).flatMap String.utf8EncodeChar).filter is_kept

theorem clean_encode (data : List UInt8) : clean (base64_encode_bytes data) = letters data := by
  rw [clean, utf8Bytes, base64_encode_bytes, String.toList_ofList]
  rfl

theorem letters_chunk {chunk : List UInt8} (some_ : chunk ≠ []) (short : chunk.length ≤ 3) :
    ∃ values : List Nat, (∀ value ∈ values, value < 2 ^ 6) ∧
      ((encode_chunk chunk).flatMap String.utf8EncodeChar).filter is_kept = values.map letter_byte ∧
      groupBits 6 values = octetBits chunk ++ List.replicate (2 * (3 - chunk.length)) false := by
  obtain ⟨values, padding, encoded, pads, bits⟩ := encode_chunk_bits chunk some_ short
  refine ⟨values.map (· % 2 ^ 6), ?_, ?_, bits⟩
  · intro value member
    obtain ⟨n, -, rfl⟩ := List.mem_map.mp member
    exact Nat.mod_lt n (by decide)
  · rw [encoded, filter_letters padding pads]

/-- The letters of an encoding hold the bits of the bytes, and fewer than six zeros more. -/
theorem encode_bits : ∀ data : List UInt8, ∃ (values : List Nat) (pad : Nat), (∀ value ∈ values, value < 2 ^ 6) ∧
    letters data = values.map letter_byte ∧ pad < 6 ∧
    groupBits 6 values = octetBits data ++ List.replicate pad false
  | [] => ⟨[], 0, by simp, rfl, by decide, rfl⟩
  | [a] => by
      obtain ⟨values, fit, kept, bits⟩ := letters_chunk (List.cons_ne_nil a []) (by simp)
      refine ⟨values, 4, fit, ?_, by decide, bits⟩
      rw [letters, chunks_short (List.cons_ne_nil a []) (by simp), List.flatMap_singleton, kept]
  | [a, b] => by
      obtain ⟨values, fit, kept, bits⟩ := letters_chunk (List.cons_ne_nil a [b]) (by simp)
      refine ⟨values, 2, fit, ?_, by decide, bits⟩
      rw [letters, chunks_short (List.cons_ne_nil a [b]) (by simp), List.flatMap_singleton, kept]
  | a :: b :: c :: data => by
      obtain ⟨values, fit, kept, bits⟩ := letters_chunk (List.cons_ne_nil a [b, c]) le_rfl
      obtain ⟨values', pad, fit', kept', short, bits'⟩ := encode_bits data
      refine ⟨values ++ values', pad, List.forall_mem_append.mpr ⟨fit, fit'⟩, ?_, short, ?_⟩
      · have first : chunks 3 (a :: b :: c :: data) = [a, b, c] :: chunks 3 data :=
          chunks_append (Nat.succ_pos 2) [a, b, c] rfl data
        rw [letters, first, List.flatMap_cons, List.flatMap_append, List.filter_append, kept, List.map_append,
          ← kept']
        rfl
      · have whole : List.replicate (2 * (3 - [a, b, c].length)) false = [] := rfl
        rw [groupBits_append, bits, bits', whole, List.append_nil, ← List.append_assoc, ← octetBits_append]
        rfl

/-! ### Decoding -/

/-- Letters are shifted in behind the bits that are there. -/
theorem fill_letters {values : List Nat} (fit : ∀ value ∈ values, value < 2 ^ 6) (buf : Nat) :
    ∃ buf', fill buf (values.map letter_byte) = .ok buf' ∧
      ∀ n, bitsOf (n + 6 * values.length) buf' = bitsOf n buf ++ groupBits 6 values := by
  induction values generalizing buf with
  | nil => exact ⟨buf, rfl, fun n => (List.append_nil _).symm⟩
  | cons value values ih =>
      obtain ⟨fits, fit⟩ := List.forall_mem_cons.mp fit
      obtain ⟨buf', filled, bits⟩ := ih fit ((buf <<< 6) ||| value)
      refine ⟨buf', ?_, fun n => ?_⟩
      · rw [List.map_cons, fill, value_of_letter_byte value fits]
        exact filled
      · have longer : n + 6 * (value :: values).length = n + 6 + 6 * values.length := by
          rw [List.length_cons]
          omega
        rw [longer, bits (n + 6), ← Nat.shiftLeft_add_eq_or_of_lt fits, Nat.shiftLeft_eq,
          bitsOf_shift n 6 _ _ fits, List.append_assoc, groupBits_cons]

theorem letters_of_fill {chunk : List UInt8} {buf buf' : Nat} (filled : fill buf chunk = .ok buf') :
    ∃ values : List Nat, (∀ value ∈ values, value < 2 ^ 6) ∧ chunk = values.map letter_byte := by
  induction chunk generalizing buf with
  | nil => exact ⟨[], by simp, rfl⟩
  | cons b chunk ih =>
      obtain ⟨value, found, rest⟩ := bind_eq_ok.mp filled
      obtain ⟨fits, rfl⟩ := value_of_eq_ok found
      obtain ⟨values, fit, rfl⟩ := ih rest
      exact ⟨value :: values, List.forall_mem_cons.mpr ⟨fits, fit⟩, rfl⟩

theorem octetBits_ofNat (n : Nat) : octetBits [UInt8.ofNat n] = bitsOf 8 n := by
  rw [octetBits, List.map_singleton, groupBits_cons, groupBits_nil, List.append_nil, UInt8.toNat_ofNat']
  exact bitsOf_mod 8 n

/-- The bytes at the front of the bits, and the bits behind the last of them. -/
theorem drain_bits (buf bits : Nat) :
    bitsOf bits buf = octetBits (drain buf bits) ++ bitsOf (bits % 8) buf := by
  induction bits using drain.induct with
  | case1 bits ih =>
      show bitsOf (bits + 8) buf = octetBits (drain buf (bits + 8)) ++ bitsOf ((bits + 8) % 8) buf
      rw [drain, ← List.singleton_append, octetBits_append, octetBits_ofNat, Nat.add_mod_right,
        List.append_assoc, ← ih, Nat.shiftRight_eq_div_pow, Nat.add_comm, bitsOf_add]
  | case2 bits few =>
      have short : bits < 8 := Nat.lt_of_not_le fun more =>
        few (bits - 8) (Nat.sub_add_cancel more).symm
      rw [drain, Nat.mod_eq_of_lt short]
      · rfl
      · exact few

theorem decode_chunk_letters {values : List Nat} (fit : ∀ value ∈ values, value < 2 ^ 6) :
    ∃ octets leftover, decode_chunk (values.map letter_byte) = .ok octets ∧
      groupBits 6 values = octetBits octets ++ leftover ∧ leftover.length = 6 * values.length % 8 := by
  obtain ⟨buf, filled, bits⟩ := fill_letters fit 0
  refine ⟨drain buf (6 * values.length), bitsOf (6 * values.length % 8) buf, ?_, ?_, length_bitsOf _ _⟩
  · rw [decode_chunk, filled, List.length_map]
    rfl
  · rw [← drain_bits, ← Nat.zero_add (6 * values.length), bits 0]
    rfl

theorem decode_last {values : List Nat} (fit : ∀ value ∈ values, value < 2 ^ 6) (some_ : values ≠ [])
    (short : values.length ≤ 4) : ∃ octets leftover,
    (chunks 4 (values.map letter_byte)).mapM decode_chunk = .ok octets ∧
      groupBits 6 values = octetBits octets.flatten ++ leftover ∧ leftover.length < 8 := by
  obtain ⟨octets, leftover, decoded, bits, few⟩ := decode_chunk_letters fit
  refine ⟨[octets], leftover, ?_, ?_, few ▸ Nat.mod_lt _ (by decide)⟩
  · rw [chunks_short (by simpa using some_) (by simpa using short), List.mapM_cons, decoded]
    rfl
  · rw [bits, List.flatten_singleton]

theorem letters_of_last {bytes : List UInt8} {octets : List (List UInt8)} (some_ : bytes ≠ [])
    (short : bytes.length ≤ 4) (decoded : (chunks 4 bytes).mapM decode_chunk = .ok octets) :
    ∃ values : List Nat, (∀ value ∈ values, value < 2 ^ 6) ∧ bytes = values.map letter_byte := by
  rw [chunks_short some_ short, List.mapM_cons] at decoded
  obtain ⟨last, decoded, -⟩ := bind_eq_ok.mp decoded
  obtain ⟨buf, filled, -⟩ := bind_eq_ok.mp decoded
  exact letters_of_fill filled

/-- Letters are decoded to their whole bytes. -/
theorem decode_letters : ∀ {values : List Nat}, (∀ value ∈ values, value < 2 ^ 6) → ∃ octets leftover,
    (chunks 4 (values.map letter_byte)).mapM decode_chunk = .ok octets ∧
      groupBits 6 values = octetBits octets.flatten ++ leftover ∧ leftover.length < 8
  | [], _ => ⟨[], [], rfl, rfl, by decide⟩
  | [a], fit => decode_last fit (by simp) (by simp)
  | [a, b], fit => decode_last fit (by simp) (by simp)
  | [a, b, c], fit => decode_last fit (by simp) (by simp)
  | a :: b :: c :: d :: values, fit => by
      have fits : ∀ value ∈ [a, b, c, d] ++ values, value < 2 ^ 6 := fit
      obtain ⟨fit, fit'⟩ := List.forall_mem_append.mp fits
      obtain ⟨octets, leftover, decoded, bits, short⟩ := decode_chunk_letters fit
      obtain ⟨octets', leftover', decoded', bits', short'⟩ := decode_letters fit'
      obtain rfl : leftover = [] := by simpa using short
      have first : chunks 4 ((a :: b :: c :: d :: values).map letter_byte) =
          [a, b, c, d].map letter_byte :: chunks 4 (values.map letter_byte) :=
        chunks_append (Nat.succ_pos 3) ([a, b, c, d].map letter_byte) rfl _
      refine ⟨octets :: octets', leftover', ?_, ?_, short'⟩
      · rw [first, List.mapM_cons, decoded, decoded']
        rfl
      · have split_ : a :: b :: c :: d :: values = [a, b, c, d] ++ values := rfl
        rw [split_, groupBits_append, bits, bits', List.append_nil, List.flatten_cons, octetBits_append,
          List.append_assoc]

theorem letters_of_decode : ∀ {bytes : List UInt8} {octets : List (List UInt8)},
    (chunks 4 bytes).mapM decode_chunk = .ok octets →
      ∃ values : List Nat, (∀ value ∈ values, value < 2 ^ 6) ∧ bytes = values.map letter_byte
  | [], _, _ => ⟨[], by simp, rfl⟩
  | [a], _, decoded => letters_of_last (by simp) (by simp) decoded
  | [a, b], _, decoded => letters_of_last (by simp) (by simp) decoded
  | [a, b, c], _, decoded => letters_of_last (by simp) (by simp) decoded
  | a :: b :: c :: d :: bytes, octets, decoded => by
      have first : chunks 4 (a :: b :: c :: d :: bytes) = [a, b, c, d] :: chunks 4 bytes :=
        chunks_append (Nat.succ_pos 3) [a, b, c, d] rfl _
      rw [first, List.mapM_cons] at decoded
      obtain ⟨octets, decoded, rest⟩ := bind_eq_ok.mp decoded
      obtain ⟨octets', decoded', -⟩ := bind_eq_ok.mp rest
      obtain ⟨buf, filled, -⟩ := bind_eq_ok.mp decoded
      obtain ⟨values, fit, front⟩ := letters_of_fill filled
      obtain ⟨values', fit', rfl⟩ := letters_of_decode decoded'
      refine ⟨values ++ values', List.forall_mem_append.mpr ⟨fit, fit'⟩, ?_⟩
      rw [List.map_append, ← front]
      rfl

/-- An input is decoded to the text that its letters spell. -/
theorem decode_eq_ok_iff {input s : String} : base64_decode_str input = .ok s ↔
    ∃ (values : List Nat) (leftover : List Bool), (∀ value ∈ values, value < 2 ^ 6) ∧
      clean input = values.map letter_byte ∧
      groupBits 6 values = octetBits (utf8Bytes s) ++ leftover ∧ leftover.length < 8 := by
  constructor
  · intro accepted
    obtain ⟨octets, decoded, valid⟩ := bind_eq_ok.mp accepted
    obtain ⟨values, fit, spelled⟩ := letters_of_decode decoded
    obtain ⟨octets', leftover, decoded', bits, short⟩ := decode_letters fit
    rw [← spelled, decoded] at decoded'
    obtain rfl := Except.ok.inj decoded'
    refine ⟨values, leftover, fit, spelled, ?_, short⟩
    cases text : String.fromUTF8? ⟨octets.flatten.toArray⟩ with
    | none =>
        rw [text] at valid
        cases valid
    | some s' =>
        rw [text] at valid
        obtain rfl : s' = s := Except.ok.inj valid
        rw [bits, fromUTF8?_eq_some.mp text]
  · rintro ⟨values, leftover, fit, spelled, bits, short⟩
    obtain ⟨octets, leftover', decoded, bits', short'⟩ := decode_letters fit
    obtain ⟨same, -⟩ := octets_unique (bits'.symm.trans bits) short' short
    rw [base64_decode_str, spelled, decoded]
    show (String.fromUTF8? ⟨octets.flatten.toArray⟩).elim (Except.error ()) Except.ok = Except.ok s
    rw [fromUTF8?_eq_some.mpr same]
    rfl

/-! ### Faithfulness -/

theorem decode_encode (s : String) : base64_decode_str (base64_encode_bytes (utf8Bytes s)) = .ok s := by
  obtain ⟨values, pad, fit, spelled, short, bits⟩ := encode_bits (utf8Bytes s)
  refine decode_eq_ok_iff.mpr ⟨values, List.replicate pad false, fit, ?_, bits, ?_⟩
  · rw [clean_encode, spelled]
  · rw [List.length_replicate]
    omega

/-- Letters of whole bytes are what the bytes are encoded to if what they leave is padding. -/
theorem spells_iff {values : List Nat} (fit : ∀ value ∈ values, value < 2 ^ 6) {bytes : List UInt8}
    {leftover : List Bool} (bits : groupBits 6 values = octetBits bytes ++ leftover) :
    values.map letter_byte = letters bytes ↔ leftover.length < 6 ∧ true ∉ leftover := by
  obtain ⟨values', pad, fit', spelled, short, bits'⟩ := encode_bits bytes
  have lengths := congrArg List.length bits
  have lengths' := congrArg List.length bits'
  rw [length_groupBits, List.length_append, length_octetBits] at lengths lengths'
  rw [List.length_replicate] at lengths'
  rw [spelled, map_letter_byte_inj fit fit']
  constructor
  · rintro rfl
    have same : leftover = List.replicate pad false := List.append_cancel_left (bits.symm.trans bits')
    rw [same, List.length_replicate]
    exact ⟨short, fun inside => Bool.noConfusion (List.eq_of_mem_replicate inside)⟩
  · rintro ⟨few, zeros⟩
    have same : leftover = List.replicate pad false := by
      refine List.eq_replicate_iff.mpr ⟨by omega, fun b member => ?_⟩
      cases b with
      | false => rfl
      | true => exact absurd member zeros
    exact groupBits_injective (by decide) fit fit' (bits.trans (same ▸ bits'.symm))

/-- Base64 is a faithful code: texts come back, and an input that is accepted is what the text is encoded to,
if its letters leave padding only. -/
theorem base64_faithful_iff (text input : String) :
    base64_decode_str (base64_encode_bytes (utf8Bytes text)) = .ok text ∧
      ((∀ s, base64_decode_str input = .ok s → clean input = clean (base64_encode_bytes (utf8Bytes s))) ↔
        DropsPaddingOnly input) := by
  refine ⟨decode_encode text, ?_, ?_⟩
  · intro canonical values s leftover fit spelled bits short
    have same := canonical s (decode_eq_ok_iff.mpr ⟨values, leftover, fit, spelled, bits, short⟩)
    rw [spelled, clean_encode] at same
    exact (spells_iff fit bits).mp same
  · intro drops s accepted
    obtain ⟨values, leftover, fit, spelled, bits, short⟩ := decode_eq_ok_iff.mp accepted
    rw [spelled, clean_encode]
    exact (spells_iff fit bits).mpr (drops values s leftover fit spelled bits short)

/-- One letter is decoded to no byte. -/
theorem dangling_letter_accepted : ¬ ∀ input s, base64_decode_str input = .ok s →
    clean input = clean (base64_encode_bytes (utf8Bytes s)) := fun canonical =>
  absurd (canonical "A" "" (by decide)) (by decide)

end Mimi.Runtime.Base64
