/-
Module: Mimi.Proofs.SymbolIdentity
Purpose: The identity of an extern callee against the foreign symbols it is called by: the escaped name is decoded to
  the name, and the check accepts exactly the symbol whose escaped name the identity holds.
Trusted boundary: none
-/
import Mimi.Mir.FfiSymbol

namespace Mimi.Mir

open Mimi.Core Mimi.Lib

variable {symbol : String} {callee : NodeId}

/-! ### Escaped names -/

theorem plain_code : ∀ code < 256, stands_for_itself (UInt8.ofNat code) = true →
    UInt8.ofNat code ≠ 37 ∧ String.utf8EncodeChar (Char.ofNat code) = [UInt8.ofNat code] ∧ Char.ofNat code ≠ '/' := by
  decide +kernel

theorem hex_code : ∀ digit < 16, ∃ byte, String.utf8EncodeChar (Nat.digitChar digit) = [byte] ∧
    hex_value byte = some (UInt8.ofNat digit) ∧ Nat.digitChar digit ≠ '/' := by
  intro digit small
  refine ⟨UInt8.ofNat (Nat.digitChar digit).toNat, ?_⟩
  revert digit
  decide

theorem hex_halves : ∀ code < 256,
    (UInt8.ofNat (code / 16) <<< 4) ||| UInt8.ofNat (code % 16) = UInt8.ofNat code := by
  decide +kernel

theorem decode_fragment_plain {marker : UInt8} (other : marker ≠ 37) (encoded : List UInt8) :
    decode_fragment (marker :: encoded) = (decode_fragment encoded).map (marker :: ·) := by
  rw [decode_fragment.eq_def]
  dsimp only
  rw [if_neg other]
  cases decode_fragment encoded <;> rfl

/-- An escaped byte is decoded to the byte. -/
theorem decode_escape_byte (byte : UInt8) (rest : List UInt8) :
    decode_fragment ((escape_byte byte).flatMap String.utf8EncodeChar ++ rest) =
      (decode_fragment rest).map (byte :: ·) := by
  have small : byte.toNat < 256 := byte.toNat_lt
  have same : UInt8.ofNat byte.toNat = byte := UInt8.ofNat_toNat
  unfold escape_byte
  split_ifs with plain
  · obtain ⟨other, code, -⟩ := plain_code byte.toNat small (same.symm ▸ plain)
    rw [same] at other code
    rw [List.flatMap_singleton, code, List.singleton_append, decode_fragment_plain other]
  · obtain ⟨high, high_code, high_value, -⟩ := hex_code (byte.toNat / 16) (by omega)
    obtain ⟨low, low_code, low_value, -⟩ := hex_code (byte.toNat % 16) (Nat.mod_lt _ (by decide))
    have codes : (['%', Nat.digitChar (byte.toNat / 16), Nat.digitChar (byte.toNat % 16)].flatMap
        String.utf8EncodeChar) = [37, high, low] := by
      simp only [List.flatMap_cons, List.flatMap_nil, high_code, low_code]
      rfl
    have halves := hex_halves byte.toNat small
    rw [same] at halves
    rw [codes]
    simp only [List.cons_append, List.nil_append, decode_fragment, if_true, high_value, low_value, Option.bind_eq_bind,
      Option.bind_some, halves]
    cases decode_fragment rest <;> rfl

/-- The fragment of a name is decoded to the name. -/
theorem decode_fragment_escaped (symbol : String) :
    decode_fragment (utf8Bytes (canonical_stable_id_fragment symbol)) = some (utf8Bytes symbol) := by
  have bytes (data : List UInt8) :
      decode_fragment ((data.flatMap escape_byte).flatMap String.utf8EncodeChar) = some data := by
    induction data with
    | nil => rfl
    | cons byte data ih => rw [List.flatMap_cons, List.flatMap_append, decode_escape_byte, ih]; rfl
  rw [canonical_stable_id_fragment, utf8Bytes, String.toList_ofList]
  exact bytes (utf8Bytes symbol)

theorem fragment_injective : Function.Injective canonical_stable_id_fragment := by
  intro symbol other same
  have decoded := decode_fragment_escaped symbol
  rw [same, decode_fragment_escaped] at decoded
  exact utf8Bytes_injective (Option.some.inj decoded).symm

theorem fragment_ne_empty (some_ : symbol ≠ "") : canonical_stable_id_fragment symbol ≠ "" := fun empty =>
  some_ (fragment_injective (empty.trans rfl))

theorem slash_not_mem_fragment : '/' ∉ (canonical_stable_id_fragment symbol).toList := by
  rw [canonical_stable_id_fragment, String.toList_ofList, List.mem_flatMap]
  rintro ⟨byte, -, inside⟩
  have small : byte.toNat < 256 := byte.toNat_lt
  unfold escape_byte at inside
  split_ifs at inside with plain
  · obtain ⟨-, -, other⟩ := plain_code byte.toNat small (UInt8.ofNat_toNat.symm ▸ plain)
    exact other (List.mem_singleton.mp inside).symm
  · obtain ⟨-, -, -, high⟩ := hex_code (byte.toNat / 16) (by omega)
    obtain ⟨-, -, -, low⟩ := hex_code (byte.toNat % 16) (Nat.mod_lt _ (by decide))
    simp only [List.mem_cons, List.not_mem_nil, or_false] at inside
    rcases inside with percent | first | second
    · exact absurd percent (by decide)
    · exact high first.symm
    · exact low second.symm

/-! ### Tags -/

theorem hexdigit_plain {c : Char} (hex : Lexer.is_ascii_hexdigit c = true) : c.utf8Size = 1 ∧ c ≠ '/' ∧ c ≠ ':' := by
  simp only [Lexer.is_ascii_hexdigit, Lexer.is_ascii_digit, Bool.or_eq_true, Bool.and_eq_true, decide_eq_true_eq,
    Char.le_def, UInt32.le_iff_toNat_le] at hex
  have zero : '0'.val.toNat = 48 := rfl
  have nine : '9'.val.toNat = 57 := rfl
  have a : 'a'.val.toNat = 97 := rfl
  have f : 'f'.val.toNat = 102 := rfl
  have A : 'A'.val.toNat = 65 := rfl
  have F : 'F'.val.toNat = 70 := rfl
  refine ⟨?_, ?_, ?_⟩
  · rw [Char.utf8Size, if_pos]
    exact UInt32.le_iff_toNat_le.mpr (show c.val.toNat ≤ 127 by omega)
  · rintro rfl
    have slash : '/'.val.toNat = 47 := rfl
    omega
  · rintro rfl
    have colon : ':'.val.toNat = 58 := rfl
    omega

theorem length_utf8Bytes_tag {tag : String} (hex : ∀ c ∈ tag.toList, Lexer.is_ascii_hexdigit c = true) :
    (utf8Bytes tag).length = tag.toList.length := by
  have sizes : tag.toList.map (fun c => (String.utf8EncodeChar c).length) = tag.toList.map fun _ => 1 :=
    List.map_congr_left fun c member => by rw [String.length_utf8EncodeChar, (hexdigit_plain (hex c member)).1]
  rw [utf8Bytes, List.length_flatMap, sizes]
  simp

/-! ### Identities -/

/-- The identity of an extern C function, with the fragment of a symbol and sixteen hexadecimal digits at its end. -/
def ExternIdentity (callee : NodeId) (symbol : String) : Prop :=
  symbol ≠ "" ∧ ∃ place tag, callee.val = "extern:C:" ++ place ++ "/function:" ++ canonical_stable_id_fragment symbol ++
    ":" ++ tag ∧ tag.toList.length = 16 ∧ ∀ c ∈ tag.toList, Lexer.is_ascii_hexdigit c = true

/-- What stands in front of the function part begins as the whole identity does. -/
theorem prefix_before {before after : List Char} (starts : "extern:C:".toList <+: before ++ '/' :: after) :
    "extern:C:".toList <+: before := by
  have inside : before ++ ['/'] <+: before ++ '/' :: after := ⟨after, by simp⟩
  have outside : '/' ∉ "extern:C:".toList := by decide
  rcases List.prefix_or_prefix_of_prefix starts inside with short | long
  · rcases List.prefix_concat_iff.mp short with same | front
    · exact absurd (same ▸ List.mem_append_right _ (List.mem_singleton_self '/')) outside
    · exact front
  · exact absurd (long.subset (List.mem_append_right _ (List.mem_singleton_self '/'))) outside

theorem identity_of_accepted (accepted : validate_ffi_symbol_matches_callee callee symbol = .ok ()) :
    ExternIdentity callee symbol := by
  simp only [validate_ffi_symbol_matches_callee] at accepted
  split_ifs at accepted with starts
  split at accepted
  · cases accepted
  · rename_i before owner_tail function
    split at accepted
    · cases accepted
    · rename_i encoded_name signature_hash colon
      split_ifs at accepted with malformed
      simp only [not_or, not_not, Bool.not_eq_false, List.all_eq_true] at malformed
      obtain ⟨named, counted, hex⟩ := malformed
      split at accepted
      · cases accepted
      · split at accepted
        · cases accepted
        · split_ifs at accepted with canonical same
          obtain rfl := not_not.mp canonical
          obtain rfl := not_not.mp same
          have whole := rsplit_once_append function
          have tail := rsplit_once_append colon
          have front : "extern:C:".toList <+: before.toList := by
            rw [whole] at starts
            refine @prefix_before _ ("function:".toList ++ owner_tail.toList) ?_
            simpa using starts
          obtain ⟨place, place_eq⟩ := front
          refine ⟨fun empty => named (by rw [empty]; rfl), String.ofList place, signature_hash, ?_,
            (length_utf8Bytes_tag hex).symm.trans counted, hex⟩
          rw [whole, tail, ← String.toList_inj]
          simp [← place_eq]

/-- The splits of an identity at its last separators. -/
theorem rsplit_function (place : String) {tag : String}
    (hex : ∀ c ∈ tag.toList, Lexer.is_ascii_hexdigit c = true) :
    rsplit_once "/function:"
        ("extern:C:" ++ place ++ "/function:" ++ canonical_stable_id_fragment symbol ++ ":" ++ tag) =
      some ("extern:C:" ++ place, canonical_stable_id_fragment symbol ++ ":" ++ tag) := by
  have absent : '/' ∉ "function:".toList ++ (canonical_stable_id_fragment symbol ++ ":" ++ tag).toList := by
    simp only [String.toList_append, List.mem_append, not_or]
    exact ⟨by decide, ⟨slash_not_mem_fragment, by decide⟩, fun inside => (hexdigit_plain (hex '/' inside)).2.1 rfl⟩
  have last := rsplit_once_last absent ("extern:C:" ++ place)
  have pattern : String.singleton '/' ++ "function:" = "/function:" := rfl
  rw [pattern] at last
  rw [← last]
  simp only [String.append_assoc]

theorem rsplit_colon {tag : String} (hex : ∀ c ∈ tag.toList, Lexer.is_ascii_hexdigit c = true) :
    rsplit_once ":" (canonical_stable_id_fragment symbol ++ ":" ++ tag) =
      some (canonical_stable_id_fragment symbol, tag) := by
  have absent : ':' ∉ "".toList ++ tag.toList := by
    rw [show "".toList = [] from rfl, List.nil_append]
    exact fun inside => (hexdigit_plain (hex ':' inside)).2.2 rfl
  have last := rsplit_once_last absent (canonical_stable_id_fragment symbol)
  have pattern : String.singleton ':' ++ "" = ":" := rfl
  rw [pattern] at last
  rw [← last, String.append_assoc]

theorem accepted_of_identity (identity : ExternIdentity callee symbol) :
    validate_ffi_symbol_matches_callee callee symbol = .ok () := by
  obtain ⟨named, place, tag, whole, counted, hex⟩ := identity
  have starts : "extern:C:".toList <+: callee.val.toList := by
    rw [whole]
    simp
  have well_formed : ¬(canonical_stable_id_fragment symbol = "" ∨ (utf8Bytes tag).length ≠ 16 ∨
      tag.toList.all Lexer.is_ascii_hexdigit = false) := by
    simp only [not_or, not_not, Bool.not_eq_false, List.all_eq_true]
    exact ⟨fragment_ne_empty named, (length_utf8Bytes_tag hex).trans counted, hex⟩
  simp only [validate_ffi_symbol_matches_callee]
  rw [if_neg (not_not.mpr starts), whole, rsplit_function place hex]
  dsimp only
  rw [rsplit_colon hex]
  dsimp only
  rw [if_neg well_formed, decode_fragment_escaped]
  dsimp only
  rw [fromUTF8?_eq_some.mpr rfl]
  dsimp only
  rw [if_neg (not_not.mpr rfl), if_neg (not_not.mpr rfl)]

/-- An identity holds the fragment of one symbol. -/
theorem ExternIdentity.unique {other : String} (first : ExternIdentity callee symbol)
    (second : ExternIdentity callee other) : symbol = other := by
  obtain ⟨-, place, tag, whole, -, hex⟩ := first
  obtain ⟨-, place', tag', whole', -, hex'⟩ := second
  have function := @rsplit_function symbol place tag hex
  rw [← whole, whole', rsplit_function place' hex'] at function
  have tails := (Prod.mk.inj (Option.some.inj function)).2
  have colon := @rsplit_colon symbol tag hex
  rw [← tails, rsplit_colon hex'] at colon
  exact (fragment_injective (Prod.mk.inj (Option.some.inj colon)).1).symm

/-- The check accepts a symbol exactly when the callee is the identity of an extern C function with the fragment of the
symbol and a tag at its end.  Different symbols have different fragments, so a callee is accepted with one symbol at
most. -/
theorem symbol_identity (callee : NodeId) (symbol other : String) :
    (validate_ffi_symbol_matches_callee callee symbol = .ok () ↔ ExternIdentity callee symbol) ∧
      (canonical_stable_id_fragment symbol = canonical_stable_id_fragment other → symbol = other) ∧
      (validate_ffi_symbol_matches_callee callee symbol = .ok () ∧
        validate_ffi_symbol_matches_callee callee other = .ok () → symbol = other) := by
  refine ⟨⟨identity_of_accepted, accepted_of_identity⟩, fun same => fragment_injective same, ?_⟩
  rintro ⟨first, second⟩
  exact (identity_of_accepted first).unique (identity_of_accepted second)

end Mimi.Mir
