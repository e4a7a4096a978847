/-
Module: Mimi.Proofs.LayoutProbe
Purpose: What a clean layout probe says about a struct: fields lie inside it, are aligned and begin one after the
  other; they are disjoint exactly when each ends before the next one begins.
Trusted boundary: none
-/
import Mimi.Component.Checkpoint

namespace Mimi.Component

/-- Where a field of known offset and size begins, and its size. -/
def MimiAbiField.placed (field : MimiAbiField) : Option (Nat × Nat) := do
  let offset ← field.offset
  let fsize ← type_size field.ty
  some (offset, fsize)

/-- The bytes of a field of known offset and size. -/
def MimiAbiField.bytes (field : MimiAbiField) : Finset Nat :=
  match field.placed with
  | some (offset, fsize) => Finset.Ico offset (offset + fsize)
  | none => ∅

/-- The fields of a struct are apart, inside and aligned. -/
structure SoundLayout (fields : List MimiAbiField) (size align : Option Nat) : Prop where
  disjoint : fields.Pairwise fun f g => Disjoint f.bytes g.bytes
  starts : ∀ f ∈ fields, ∀ offset total, f.offset = some offset → size = some total → offset < total
  within : ∀ f ∈ fields, ∀ offset fsize total, f.placed = some (offset, fsize) → size = some total →
    offset + fsize ≤ total
  aligned : ∀ f ∈ fields, ∀ offset fsize, f.placed = some (offset, fsize) → struct_field_align align fsize ∣ offset

/-- The fields of known offset and size that take up bytes, in their order. -/
def fieldRanges (fields : List MimiAbiField) : List (Nat × Nat) :=
  (fields.filterMap MimiAbiField.placed).filter fun range => 0 < range.2

/-- Each field of known offset and size that takes up bytes ends before the next such field begins. -/
def EndsBeforeNext (fields : List MimiAbiField) : Prop :=
  (fieldRanges fields).IsChain fun range next => range.1 + range.2 ≤ next.1

instance (fields : List MimiAbiField) : Decidable (EndsBeforeNext fields) := inferInstanceAs (Decidable (List.IsChain ..))

variable {struct_name : String} {size align : Option Nat} {fields : List MimiAbiField} {field : MimiAbiField}
  {offset fsize total : Nat}

/-! ### Disjoint ranges -/

theorem ico_disjoint_iff {a m b n : Nat} (before : a < b) (some_n : 0 < n) :
    Disjoint (Finset.Ico a (a + m)) (Finset.Ico b (b + n)) ↔ a + m ≤ b := by
  rw [Finset.disjoint_left]
  constructor
  · intro apart
    by_contra reaches
    exact apart (Finset.mem_Ico.mpr ⟨before.le, Nat.not_le.mp reaches⟩) (Finset.mem_Ico.mpr ⟨Nat.le_refl b, by omega⟩)
  · intro ends x inside other
    have upper := (Finset.mem_Ico.mp inside).2
    have lower := (Finset.mem_Ico.mp other).1
    omega

theorem placed_eq_some :
    field.placed = some (offset, fsize) ↔ field.offset = some offset ∧ type_size field.ty = some fsize := by
  simp [MimiAbiField.placed, Option.bind_eq_some_iff]

theorem bytes_of_placed (placed : field.placed = some (offset, fsize)) :
    field.bytes = Finset.Ico offset (offset + fsize) := by
  rw [MimiAbiField.bytes, placed]

theorem disjoint_bytes_iff {f g : MimiAbiField} (increasing : ∀ a, f.offset = some a → ∀ b, g.offset = some b → a < b) :
    Disjoint f.bytes g.bytes ↔
      ∀ r, f.placed = some r → ∀ r', g.placed = some r' → 0 < r.2 → 0 < r'.2 → r.1 + r.2 ≤ r'.1 := by
  constructor
  · rintro apart ⟨a, m⟩ first ⟨b, n⟩ second - some_n
    rw [bytes_of_placed first, bytes_of_placed second] at apart
    exact (ico_disjoint_iff (increasing a (placed_eq_some.mp first).1 b (placed_eq_some.mp second).1) some_n).mp apart
  · intro ends
    rw [Finset.disjoint_left]
    intro x inside other
    rw [MimiAbiField.bytes] at inside other
    split at inside
    · rename_i a m first
      split at other
      · rename_i b n second
        have inside := Finset.mem_Ico.mp inside
        have other := Finset.mem_Ico.mp other
        have apart := ends _ first _ second (by dsimp only; omega) (by dsimp only; omega)
        dsimp only at apart
        omega
      · exact absurd other (Finset.notMem_empty x)
    · exact absurd inside (Finset.notMem_empty x)

/-- Fields that begin one after the other are disjoint exactly when each ends before the next begins. -/
theorem pairwise_disjoint_iff (increasing : (fields.filterMap MimiAbiField.offset).Pairwise (· < ·)) :
    (fields.Pairwise fun f g => Disjoint f.bytes g.bytes) ↔ EndsBeforeNext fields := by
  have trans : Trans (fun range next : Nat × Nat => range.1 + range.2 ≤ next.1)
      (fun range next : Nat × Nat => range.1 + range.2 ≤ next.1) fun range next => range.1 + range.2 ≤ next.1 :=
    ⟨fun first second => first.trans ((Nat.le_add_right ..).trans second)⟩
  rw [EndsBeforeNext, List.isChain_iff_pairwise, fieldRanges, List.pairwise_filter, List.pairwise_filterMap]
  rw [List.pairwise_filterMap] at increasing
  constructor
  · intro apart
    refine (increasing.and apart).imp fun {f g} both r first r' second => ?_
    simpa using (disjoint_bytes_iff both.1).mp both.2 r first r' second
  · intro ends
    refine (increasing.and ends).imp fun {f g} both => ?_
    exact (disjoint_bytes_iff both.1).mpr (by simpa using both.2)

/-! ### What a clean probe says -/

theorem probe_bounds_clean (clean : probe_bounds struct_name size field offset = []) :
    ∀ total, size = some total → offset < total ∧ ∀ fsize, type_size field.ty = some fsize → offset + fsize ≤ total := by
  rintro total rfl
  simp only [probe_bounds] at clean
  split_ifs at clean with outside
  refine ⟨Nat.not_le.mp outside, fun fsize known => ?_⟩
  rw [known] at clean
  dsimp only at clean
  split_ifs at clean with reaches
  unfold usize_add at reaches
  split_ifs at reaches
  · simpa using reaches
  · exact absurd rfl reaches

theorem probe_field_align_clean (clean : probe_field_align struct_name align field offset = [])
    (known : type_size field.ty = some fsize) (positive : align ≠ some 0) : struct_field_align align fsize ∣ offset := by
  have some_align : 0 < struct_field_align align fsize := by
    have natural : 0 < field_align fsize := by
      unfold field_align
      split <;> decide
    have declared : 0 < align.getD 8 := by
      cases align with
      | none => decide
      | some align => exact Nat.pos_of_ne_zero fun zero => positive (congrArg some zero)
    exact lt_min natural declared
  simp only [probe_field_align, known] at clean
  split_ifs at clean with misaligned
  rcases Nat.eq_or_lt_of_le (Nat.succ_le_of_lt some_align) with one | more
  · rw [← one]
    exact one_dvd offset
  · exact Nat.dvd_of_mod_eq_zero (not_not.mp fun off => misaligned ⟨more, off⟩)

theorem probe_align_clean (clean : probe_align struct_name size align = []) : align ≠ some 0 := by
  rintro rfl
  simp [probe_align] at clean

/-- A clean pass: every field is checked, and the offsets increase. -/
theorem probe_fields_clean {prev : Option Nat} (clean : probe_fields struct_name size align prev fields = []) :
    (prev.toList ++ fields.filterMap MimiAbiField.offset).IsChain (· < ·) ∧
      ∀ f ∈ fields, ∀ offset, f.offset = some offset →
        probe_bounds struct_name size f offset = [] ∧ probe_field_align struct_name align f offset = [] := by
  induction fields generalizing prev with
  | nil => exact ⟨by cases prev <;> simp, nofun⟩
  | cons field fields ih =>
      rw [probe_fields] at clean
      cases known : field.offset with
      | none =>
          rw [known] at clean
          obtain ⟨increasing, checked⟩ := ih clean
          refine ⟨by rwa [List.filterMap_cons_none known], fun f member offset at_ => ?_⟩
          rcases List.mem_cons.mp member with rfl | later
          · exact absurd (known.symm.trans at_) nofun
          · exact checked f later offset at_
      | some first =>
          rw [known] at clean
          simp only [List.append_eq_nil_iff] at clean
          obtain ⟨⟨⟨bounds, aligned⟩, order⟩, rest⟩ := clean
          obtain ⟨increasing, checked⟩ := ih rest
          refine ⟨?_, fun f member offset at_ => ?_⟩
          · rw [List.filterMap_cons_some known]
            cases prev with
            | none => exact increasing
            | some p =>
                simp only [probe_order] at order
                split_ifs at order with reorder
                exact List.isChain_cons_cons.mpr ⟨Nat.not_le.mp reorder, increasing⟩
          · rcases List.mem_cons.mp member with rfl | later
            · obtain rfl := Option.some.inj (known.symm.trans at_)
              exact ⟨bounds, aligned⟩
            · exact checked f later offset at_

theorem probe_struct_exact (clean : probe_struct struct_name fields size align = []) :
    SoundLayout fields size align ↔ EndsBeforeNext fields := by
  obtain ⟨positive, clean⟩ := List.append_eq_nil_iff.mp clean
  obtain ⟨increasing, checked⟩ := probe_fields_clean clean
  have apart := pairwise_disjoint_iff (List.isChain_iff_pairwise.mp increasing)
  refine ⟨fun sound => apart.mp sound.disjoint, fun ends => ⟨apart.mpr ends, ?_, ?_, ?_⟩⟩
  · intro f member offset total at_ known
    exact (probe_bounds_clean (checked f member offset at_).1 total known).1
  · intro f member offset fsize total placed known
    obtain ⟨at_, sized⟩ := placed_eq_some.mp placed
    exact (probe_bounds_clean (checked f member offset at_).1 total known).2 fsize sized
  · intro f member offset fsize placed
    obtain ⟨at_, sized⟩ := placed_eq_some.mp placed
    exact probe_field_align_clean (checked f member offset at_).2 sized (probe_align_clean positive)

/-! ### The probe of an ABI -/

/-- In an ABI without a reported fault all structs are laid out soundly, exactly when in each of them the fields that
take up bytes end before the next ones begin. -/
theorem probe_exact {abi : MimiAbi} (clean : probe_layout abi = []) :
    (∀ name fields size align, .struct name fields size align ∈ abi.types → SoundLayout fields size align) ↔
      ∀ name fields size align, .struct name fields size align ∈ abi.types → EndsBeforeNext fields := by
  have each : ∀ name fields size align, .struct name fields size align ∈ abi.types →
      probe_struct name fields size align = [] := fun name fields size align member =>
    List.flatMap_eq_nil_iff.mp clean (.struct name fields size align) member
  constructor
  · exact fun sound name fields size align member => (probe_struct_exact (each _ _ _ _ member)).mp (sound _ _ _ _ member)
  · exact fun ends name fields size align member => (probe_struct_exact (each _ _ _ _ member)).mpr (ends _ _ _ _ member)

/-- An ABI with one struct. -/
def oneStruct (fields : List MimiAbiField) (size align : Option Nat) : MimiAbi :=
  ⟨1, ⟨"t", "0", 1⟩, [], [], [.struct "T" fields size align]⟩

/-- A byte, and a word behind three bytes of padding. -/
theorem probe_exact_padded :
    SoundLayout [⟨"a", .primitive "U8", some 0⟩, ⟨"b", .primitive "U32", some 4⟩] (some 16) (some 8) := by
  have clean : probe_layout
      (oneStruct [⟨"a", .primitive "U8", some 0⟩, ⟨"b", .primitive "U32", some 4⟩] (some 16) (some 8)) = [] := by decide
  refine (probe_exact clean).mpr (fun name fields size align member => ?_) "T" _ _ _ List.mem_cons_self
  cases List.mem_singleton.mp member
  decide

/-- A word of eight bytes, and one of four bytes in the middle of it. -/
theorem overlap_not_reported : ¬∀ abi, probe_layout abi = [] → ∀ name fields size align,
    .struct name fields size align ∈ abi.types → SoundLayout fields size align := by
  intro always
  have sound := always
    (oneStruct [⟨"a", .primitive "U64", some 0⟩, ⟨"b", .primitive "U32", some 4⟩] (some 8) (some 8)) (by decide)
    "T" _ _ _ List.mem_cons_self
  exact absurd sound.disjoint (by decide)

end Mimi.Component
