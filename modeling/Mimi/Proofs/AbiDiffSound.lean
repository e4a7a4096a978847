/-
Module: Mimi.Proofs.AbiDiffSound
Purpose: What the ABI diff compares and what it does not: it reports no breaking change exactly when
  no symbol or type is missing and no parameter type, return type or definition differs, which
  leaves the kind, the calling convention and the nullability of parameters unchecked.
Trusted boundary: none
-/
import Mimi.Component.AbiDiff

namespace Mimi.Component

open Mimi.Lib

/-! ### Debug texts determine what they print -/

variable {α : Type} {oldOrder newOrder : HashOrder}

section

variable (table : CharTable)

/-- The letter after the backslash in a short escape. -/
def shortEscape (c : Char) : Option Char :=
  if c = '\x00' then some '0' else if c = '\t' then some 't' else if c = '\r' then some 'r'
  else if c = '\n' then some 'n' else if c = '\\' then some '\\'
  else if c = '\"' then some '\"' else none

/-- The three shapes of an escaped character. -/
theorem escape_cases (c : Char) :
    (table.escape c = [c] ∧ c ≠ '\\' ∧ c ≠ '\"') ∨
      (∃ letter, shortEscape c = some letter ∧ table.escape c = ['\\', letter]) ∨
        table.escape c = ['\\', 'u', '\x7b'] ++ (Nat.toDigits 16 c.toNat ++ ['\x7d']) := by
  simp only [CharTable.escape, shortEscape]
  split_ifs with zero tab return_ newline backslash quote plain
  all_goals first
    | exact .inr (.inl ⟨_, rfl, rfl⟩)
    | exact .inl ⟨rfl, backslash, quote⟩
    | exact .inr (.inr (by rw [List.append_assoc]))

theorem shortEscape_injective {c d letter : Char} (first : shortEscape c = some letter)
    (second : shortEscape d = some letter) : c = d := by
  have same := first.trans second.symm
  simp only [shortEscape] at same first
  split_ifs at same first <;> simp_all

theorem shortEscape_ne_u {c : Char} : shortEscape c ≠ some 'u' := by
  simp only [shortEscape]
  split_ifs <;> decide

/-- The code point of a character between its braces. -/
theorem codePoint_prefixFree :
    PrefixFree fun c : Char => Nat.toDigits 16 c.toNat ++ ['\x7d'] := by
  have digits : PrefixFree fun n : Nat => Nat.toDigits 16 n ++ ['\x7d'] :=
    prefixFree_terminated (toDigits_injective (by decide) (by decide))
      (not_mem_toDigits (by decide) (by decide))
  exact digits.comp fun c d same => Char.toNat_inj.mp same

theorem escape_prefixFree : PrefixFree table.escape := by
  intro c d rest rest' same
  rcases escape_cases table c with ⟨plain, noBackslash, -⟩ | ⟨letter, short, text⟩ | text <;>
    rcases escape_cases table d with ⟨plain', noBackslash', -⟩ | ⟨letter', short', text'⟩ | text'
  · rw [plain, plain'] at same
    exact List.cons.inj same
  · rw [plain, text'] at same
    exact absurd (List.cons.inj same).1 noBackslash
  · rw [plain, text'] at same
    exact absurd (List.cons.inj same).1 noBackslash
  · rw [text, plain'] at same
    exact absurd (List.cons.inj same).1.symm noBackslash'
  · rw [text, text'] at same
    obtain ⟨rfl, rests⟩ := List.cons.inj (List.cons.inj same).2
    exact ⟨shortEscape_injective short short', rests⟩
  · rw [text, text'] at same
    exact absurd ((List.cons.inj (List.cons.inj same).2).1 ▸ short) shortEscape_ne_u
  · rw [text, plain'] at same
    exact absurd (List.cons.inj same).1.symm noBackslash'
  · rw [text, text'] at same
    exact absurd ((List.cons.inj (List.cons.inj same).2).1 ▸ short') shortEscape_ne_u
  · rw [text, text'] at same
    simp only [List.append_assoc, List.append_cancel_left_eq] at same
    exact codePoint_prefixFree c d rest rest' (by simpa only [List.append_assoc] using same)

theorem escape_starts (c : Char) : ∃ d text, table.escape c = d :: text ∧ d ≠ '\"' := by
  rcases escape_cases table c with ⟨plain, -, noQuote⟩ | ⟨letter, -, text⟩ | text
  · exact ⟨c, [], plain, noQuote⟩
  · exact ⟨'\\', [letter], text, by decide⟩
  · exact ⟨'\\', _, text, by decide⟩

theorem debugStr_prefixFree : PrefixFree (debugStr table) := by
  have letters : PrefixFree fun s : String => s.toList.flatMap table.escape ++ ['\"'] :=
    (prefixFree_encoded (escape_prefixFree table) (escape_starts table)).comp
      fun s t same => String.toList_inj.mp same
  intro s t rest rest' same
  exact letters s t rest rest' (List.cons.inj same).2

theorem debugBool_prefixFree : PrefixFree debugBool := by
  intro a b rest rest' same
  cases a <;> cases b <;> simp_all [debugBool, lit]

theorem debugNat_prefixFree : PrefixFree fun n => debugNat n ++ [')'] := by
  refine prefixFree_terminated (fun m n same => Nat.repr_injective (String.toList_inj.mp same)) ?_
  intro n
  rw [debugNat, Nat.toList_repr]
  exact not_mem_toDigits (by decide) (by decide) n

theorem debugInt_prefixFree : PrefixFree fun n => debugInt n ++ [')'] := by
  refine prefixFree_terminated (fun m n same => Int.repr_injective (String.toList_inj.mp same)) ?_
  intro n
  cases n with
  | ofNat n =>
      change ')' ∉ n.repr.toList
      rw [Nat.toList_repr]
      exact not_mem_toDigits (by decide) (by decide) n
  | negSucc n =>
      change ')' ∉ ("-" ++ (n + 1).repr).toList
      rw [String.toList_append, Nat.toList_repr, List.mem_append, not_or]
      exact ⟨by decide, not_mem_toDigits (by decide) (by decide) _⟩

theorem debugOption_prefixFree {print : α → List Char}
    (free : PrefixFree fun a => print a ++ [')']) : PrefixFree (debugOption print) := by
  intro a b rest rest' same
  cases a with
  | none =>
      cases b with
      | none => exact ⟨rfl, by simpa [debugOption] using same⟩
      | some b => simp [debugOption, lit] at same
  | some a =>
      cases b with
      | none => simp [debugOption, lit] at same
      | some b =>
          simp only [debugOption, List.append_assoc, List.append_cancel_left_eq] at same
          obtain ⟨rfl, rests⟩ := free a b rest rest' (by simpa only [List.append_assoc] using same)
          exact ⟨rfl, rests⟩

theorem debugTypeRef_prefixFree : PrefixFree (MimiAbiTypeRef.debug table) := by
  have strings := debugStr_prefixFree table
  intro a
  induction a with
  | primitive name =>
      intro b rest rest' same
      cases b with
      | primitive name' =>
          simp only [MimiAbiTypeRef.debug, List.append_assoc, List.append_cancel_left_eq] at same
          obtain ⟨rfl, tails⟩ := strings _ _ _ _ same
          exact ⟨rfl, List.append_cancel_left tails⟩
      | _ => simp [MimiAbiTypeRef.debug, lit] at same
  | named name =>
      intro b rest rest' same
      cases b with
      | named name' =>
          simp only [MimiAbiTypeRef.debug, List.append_assoc, List.append_cancel_left_eq] at same
          obtain ⟨rfl, tails⟩ := strings _ _ _ _ same
          exact ⟨rfl, List.append_cancel_left tails⟩
      | _ => simp [MimiAbiTypeRef.debug, lit] at same
  | pointer inner ih =>
      intro b rest rest' same
      cases b with
      | pointer inner' =>
          simp only [MimiAbiTypeRef.debug, List.append_assoc, List.append_cancel_left_eq] at same
          obtain ⟨rfl, tails⟩ := ih _ _ _ same
          exact ⟨rfl, List.append_cancel_left tails⟩
      | _ => simp [MimiAbiTypeRef.debug, lit] at same
  | slice inner ih =>
      intro b rest rest' same
      cases b with
      | slice inner' =>
          simp only [MimiAbiTypeRef.debug, List.append_assoc, List.append_cancel_left_eq] at same
          obtain ⟨rfl, tails⟩ := ih _ _ _ same
          exact ⟨rfl, List.append_cancel_left tails⟩
      | _ => simp [MimiAbiTypeRef.debug, lit] at same
  | opaque_ name =>
      intro b rest rest' same
      cases b with
      | opaque_ name' =>
          simp only [MimiAbiTypeRef.debug, List.append_assoc, List.append_cancel_left_eq] at same
          obtain ⟨rfl, tails⟩ := strings _ _ _ _ same
          exact ⟨rfl, List.append_cancel_left tails⟩
      | _ => simp [MimiAbiTypeRef.debug, lit] at same
  | fatPointer element has_capacity ih =>
      intro b rest rest' same
      cases b with
      | fatPointer element' has_capacity' =>
          simp only [MimiAbiTypeRef.debug, List.append_assoc, List.append_cancel_left_eq] at same
          obtain ⟨rfl, tails⟩ := ih _ _ _ same
          obtain ⟨rfl, ends⟩ := debugBool_prefixFree _ _ _ _ (List.append_cancel_left tails)
          exact ⟨rfl, List.append_cancel_left ends⟩
      | _ => simp [MimiAbiTypeRef.debug, lit] at same
  | void =>
      intro b rest rest' same
      cases b with
      | void => exact ⟨rfl, List.append_cancel_left same⟩
      | _ => simp [MimiAbiTypeRef.debug, lit] at same

theorem debugField_prefixFree : PrefixFree (MimiAbiField.debug table) := by
  intro a b rest rest' same
  obtain ⟨name, ty, offset⟩ := a
  obtain ⟨name', ty', offset'⟩ := b
  simp only [MimiAbiField.debug, List.append_assoc, List.append_cancel_left_eq] at same
  obtain ⟨rfl, tys⟩ := debugStr_prefixFree table _ _ _ _ same
  obtain ⟨rfl, offsets⟩ := debugTypeRef_prefixFree table _ _ _ _ (List.append_cancel_left tys)
  obtain ⟨rfl, ends⟩ := debugOption_prefixFree debugNat_prefixFree _ _ _ _
    (List.append_cancel_left offsets)
  exact ⟨rfl, List.append_cancel_left ends⟩

theorem debugVariant_prefixFree : PrefixFree (debugVariant table) := by
  intro a b rest rest' same
  obtain ⟨name, value⟩ := a
  obtain ⟨name', value'⟩ := b
  simp only [debugVariant, List.append_assoc, List.append_cancel_left_eq] at same
  obtain ⟨rfl, values⟩ := debugStr_prefixFree table _ _ _ _ same
  obtain ⟨rfl, ends⟩ := debugInt_prefixFree value value' rest rest'
    (by simpa only [List.append_assoc] using List.append_cancel_left values)
  exact ⟨rfl, ends⟩

theorem debugFields_prefixFree : PrefixFree (debugList (MimiAbiField.debug table)) :=
  prefixFree_bracketed (debugField_prefixFree table) (fun _ => ⟨'M', _, rfl, by decide⟩) (by decide)

theorem debugVariants_prefixFree : PrefixFree (debugList (debugVariant table)) :=
  prefixFree_bracketed (debugVariant_prefixFree table) (fun _ => ⟨'(', _, rfl, by decide⟩)
    (by decide)

theorem debugType_prefixFree : PrefixFree (MimiAbiType.debug table) := by
  have strings := debugStr_prefixFree table
  have numbers := debugOption_prefixFree debugNat_prefixFree
  intro a b rest rest' same
  cases a with
  | struct name fields size align =>
      cases b with
      | struct name' fields' size' align' =>
          simp only [MimiAbiType.debug, List.append_assoc, List.append_cancel_left_eq] at same
          obtain ⟨rfl, tails⟩ := strings _ _ _ _ same
          obtain ⟨rfl, sizes⟩ := debugFields_prefixFree table _ _ _ _
            (List.append_cancel_left tails)
          obtain ⟨rfl, aligns⟩ := numbers _ _ _ _ (List.append_cancel_left sizes)
          obtain ⟨rfl, ends⟩ := numbers _ _ _ _ (List.append_cancel_left aligns)
          exact ⟨rfl, List.append_cancel_left ends⟩
      | _ => simp [MimiAbiType.debug, lit] at same
  | enum name variants repr =>
      cases b with
      | enum name' variants' repr' =>
          simp only [MimiAbiType.debug, List.append_assoc, List.append_cancel_left_eq] at same
          obtain ⟨rfl, tails⟩ := strings _ _ _ _ same
          obtain ⟨rfl, reprs⟩ := debugVariants_prefixFree table _ _ _ _
            (List.append_cancel_left tails)
          obtain ⟨rfl, ends⟩ := strings _ _ _ _ (List.append_cancel_left reprs)
          exact ⟨rfl, List.append_cancel_left ends⟩
      | _ => simp [MimiAbiType.debug, lit] at same
  | alias_ name target =>
      cases b with
      | alias_ name' target' =>
          simp only [MimiAbiType.debug, List.append_assoc, List.append_cancel_left_eq] at same
          obtain ⟨rfl, tails⟩ := strings _ _ _ _ same
          obtain ⟨rfl, ends⟩ := debugTypeRef_prefixFree table _ _ _ _
            (List.append_cancel_left tails)
          exact ⟨rfl, List.append_cancel_left ends⟩
      | _ => simp [MimiAbiType.debug, lit] at same
  | opaque_ name description =>
      cases b with
      | opaque_ name' description' =>
          simp only [MimiAbiType.debug, List.append_assoc, List.append_cancel_left_eq] at same
          obtain ⟨rfl, tails⟩ := strings _ _ _ _ same
          obtain ⟨rfl, ends⟩ := strings _ _ _ _ (List.append_cancel_left tails)
          exact ⟨rfl, List.append_cancel_left ends⟩
      | _ => simp [MimiAbiType.debug, lit] at same

theorem showType_inj {a b : MimiAbiTypeRef} : showType table a = showType table b ↔ a = b := by
  constructor
  · intro same
    exact (debugTypeRef_prefixFree table).injective (String.ofList_inj.mp same)
  · intro same
    rw [same]

/-! ### Hash maps -/

/-- The last element of a list that has the key. -/
def lastWith {α : Type} (key : α → String) (values : List α) (name : String) : Option α :=
  values.reverse.find? fun a => key a = name

theorem lastWith_some {key : α → String} {values : List α} {name : String} {a : α}
    (found : lastWith key values name = some a) : a ∈ values ∧ key a = name := by
  rw [lastWith] at found
  have here := List.find?_some found
  exact ⟨List.mem_reverse.mp (List.mem_of_find?_eq_some found), of_decide_eq_true here⟩

/-- A map collected from a list holds the last element of every key. -/
theorem lookup_collect (key : α → String) (values : List α) (name : String) :
    (collect (values.map fun a => (key a, a))).lookup name = lastWith key values name := by
  induction values with
  | nil => rfl
  | cons a values ih =>
      have later : lastWith key (a :: values) name =
          (lastWith key values name).or (if key a = name then some a else none) := by
        simp only [lastWith, List.reverse_cons, List.find?_append, List.find?_singleton,
          decide_eq_true_eq]
      rw [later, ← ih, List.map_cons, collect]
      split_ifs with again here here
      · -- a later element has the key of `a`
        obtain ⟨b, member, same⟩ : ∃ b ∈ values, key b = name := by
          simpa [here] using again
        have found : (lastWith key values name).isSome := by
          rw [lastWith, List.find?_isSome]
          exact ⟨b, List.mem_reverse.mpr member, decide_eq_true same⟩
        rw [ih]
        exact (Option.or_of_isSome found).symm
      · rw [Option.or_none]
      · have absent : lastWith key values name = none := by
          rw [lastWith, List.find?_eq_none]
          intro b member same
          exact again (by simpa [here] using
            ⟨b, List.mem_reverse.mp member, of_decide_eq_true same⟩)
        rw [ih, absent, List.lookup_cons, here, beq_self_eq_true]
        rfl
      · rw [Option.or_none, List.lookup_cons]
        have other : (name == key a) = false := beq_eq_false_iff_ne.mpr (Ne.symm here)
        rw [other]

theorem collect_keys {entries : List (String × α)} {name : String} {a : α}
    (member : (name, a) ∈ collect entries) : name ∈ entries.map Prod.fst := by
  induction entries with
  | nil => cases member
  | cons entry entries ih =>
      rw [collect] at member
      split_ifs at member with again
      · exact List.mem_cons_of_mem _ (ih member)
      · rcases List.mem_cons.mp member with rfl | rest
        · exact List.mem_cons_self
        · exact List.mem_cons_of_mem _ (ih rest)

/-- An entry of a collected map is what its key looks up. -/
theorem mem_collect {entries : List (String × α)} {name : String} {a : α} :
    (name, a) ∈ collect entries ↔ (collect entries).lookup name = some a := by
  induction entries with
  | nil => simp [collect]
  | cons entry entries ih =>
      rw [collect]
      split_ifs with again
      · exact ih
      · obtain ⟨key, b⟩ := entry
        rw [List.mem_cons, List.lookup_cons]
        by_cases here : name = key
        · subst here
          simp only [beq_self_eq_true, Prod.mk.injEq, true_and, Option.some.injEq]
          constructor
          · rintro (same | rest)
            · exact same.symm
            · exact absurd (List.contains_iff_mem.mpr (collect_keys rest)) again
          · intro same
            exact .inl same.symm
        · have other : (name == key) = false := beq_eq_false_iff_ne.mpr here
          simp only [other, Prod.mk.injEq, here, false_and, false_or]
          exact ih

/-! ### What the diff compares -/

/-- Parameter types in order, and the return type. -/
def SameSignature (old_sym new_sym : MimiAbiSymbol) : Prop :=
  old_sym.params.map MimiAbiParam.ty = new_sym.params.map MimiAbiParam.ty ∧
    old_sym.ret = new_sym.ret

/-- Every symbol of the old list has one of the same name and signature in the new list; of several
symbols of one name the last counts. -/
def SymbolsKept (olds news : List MimiAbiSymbol) : Prop :=
  ∀ name old_sym, lastWith MimiAbiSymbol.name olds name = some old_sym →
    ∃ new_sym, lastWith MimiAbiSymbol.name news name = some new_sym ∧
      SameSignature old_sym new_sym

/-- Every type definition of the old list is in the new list. -/
def TypesKept (olds news : List MimiAbiType) : Prop :=
  ∀ name ty, lastWith type_name olds name = some ty → lastWith type_name news name = some ty

/-- No change in the list is breaking. -/
def Harmless (changes : List AbiChange) : Prop := ∀ c ∈ changes, c.is_breaking = false

theorem harmless_append {first second : List AbiChange} :
    Harmless (first ++ second) ↔ Harmless first ∧ Harmless second := List.forall_mem_append

theorem harmless_one_breaking {c : AbiChange} (breaking : c.is_breaking = true) :
    ¬Harmless [c] := by
  intro harmless
  rw [harmless c List.mem_cons_self] at breaking
  cases breaking

/-- A change that is reported only under a condition. -/
theorem harmless_if {p : Prop} [Decidable p] {c : AbiChange} (breaking : c.is_breaking = true) :
    Harmless (if p then [c] else []) ↔ ¬p := by
  split_ifs with holds
  · simpa [holds] using harmless_one_breaking breaking
  · simp [Harmless, holds]

variable {make_added make_removed : String → AbiChange}
  {make_changed : String → String → AbiChange}

theorem harmless_paramChanges (changed : ∀ name detail, (make_changed name detail).is_breaking = true)
    {name : String} {i : Nat} {olds news : List MimiAbiParam} (same : olds.length = news.length) :
    Harmless (paramChanges table make_changed name i olds news) ↔
      olds.map MimiAbiParam.ty = news.map MimiAbiParam.ty := by
  induction olds generalizing i news with
  | nil =>
      cases news with
      | nil => simp [paramChanges, Harmless]
      | cons np news => cases same
  | cons op olds ih =>
      cases news with
      | nil => cases same
      | cons np news =>
          rw [paramChanges, harmless_append, harmless_if (changed _ _), ih (Nat.succ.inj same),
            not_not, showType_inj, List.map_cons, List.map_cons, List.cons.injEq]

theorem harmless_signatureChanges
    (changed : ∀ name detail, (make_changed name detail).is_breaking = true) {name : String}
    {old_sym new_sym : MimiAbiSymbol} :
    Harmless (signatureChanges table make_changed name old_sym new_sym) ↔
      SameSignature old_sym new_sym := by
  rw [signatureChanges, harmless_append, harmless_if (changed _ _), not_not, showType_inj,
    SameSignature, and_congr_left_iff]
  intro _
  split_ifs with lengths
  · constructor
    · intro harmless
      exact absurd harmless (harmless_one_breaking (changed _ _))
    · intro same
      exact absurd (by simpa using congrArg List.length same) lengths
  · exact harmless_paramChanges table changed (not_not.mp lengths)

/-- A symbol list is compared by name, parameter types and return type. -/
theorem harmless_diff_symbols {olds news : List MimiAbiSymbol} (added : ∀ name, (make_added name).is_breaking = false)
    (removed : ∀ name, (make_removed name).is_breaking = true)
    (changed : ∀ name detail, (make_changed name detail).is_breaking = true) :
    Harmless (diff_symbols table oldOrder newOrder olds news make_added make_removed make_changed) ↔
      SymbolsKept olds news := by
  have extra : Harmless (((newOrder.visit (symbolMap news)).filter fun entry =>
      ((symbolMap olds).lookup entry.1).isNone).map fun entry => make_added entry.1) := by
    intro c member
    obtain ⟨entry, -, rfl⟩ := List.mem_map.mp member
    exact added _
  rw [diff_symbols, harmless_append, and_iff_left extra]
  constructor
  · intro harmless name old_sym found
    have member : (name, old_sym) ∈ oldOrder.visit (symbolMap olds) := by
      rw [(oldOrder.perm _).mem_iff, symbolMap, mem_collect, lookup_collect]
      exact found
    have here : Harmless _ := fun c inside =>
      harmless c (List.mem_flatMap.mpr ⟨_, member, inside⟩)
    rw [symbolMap, lookup_collect] at here
    cases new : lastWith MimiAbiSymbol.name news name with
    | none =>
        rw [new] at here
        exact absurd here (harmless_one_breaking (removed _))
    | some new_sym =>
        rw [new] at here
        exact ⟨new_sym, rfl, (harmless_signatureChanges table changed).mp here⟩
  · intro kept c member
    obtain ⟨entry, inside, reported⟩ := List.mem_flatMap.mp member
    rw [(oldOrder.perm _).mem_iff, symbolMap, mem_collect, lookup_collect] at inside
    obtain ⟨new_sym, new, same⟩ := kept _ _ inside
    rw [symbolMap, lookup_collect, new] at reported
    exact (harmless_signatureChanges table changed).mpr same c reported

theorem harmless_diff_types {olds news : List MimiAbiType} :
    Harmless (diff_types table oldOrder newOrder olds news) ↔ TypesKept olds news := by
  have extra : Harmless (((newOrder.visit (typeMap news)).filter fun entry =>
      ((typeMap olds).lookup entry.1).isNone).map fun entry => .addedType entry.1) := by
    intro c member
    obtain ⟨entry, -, rfl⟩ := List.mem_map.mp member
    rfl
  have texts := (debugType_prefixFree table).injective
  rw [diff_types, harmless_append, and_iff_left extra]
  constructor
  · intro harmless name ty found
    have member : (name, ty) ∈ oldOrder.visit (typeMap olds) := by
      rw [(oldOrder.perm _).mem_iff, typeMap, mem_collect, lookup_collect]
      exact found
    have here : Harmless _ := fun c inside =>
      harmless c (List.mem_flatMap.mpr ⟨_, member, inside⟩)
    rw [typeMap, lookup_collect] at here
    cases new : lastWith type_name news name with
    | none =>
        rw [new] at here
        exact absurd here (harmless_one_breaking rfl)
    | some new_ty =>
        rw [new] at here
        have same : ty = new_ty := texts (not_not.mp ((harmless_if rfl).mp here))
        rw [same]
  · intro kept c member
    obtain ⟨entry, inside, reported⟩ := List.mem_flatMap.mp member
    rw [(oldOrder.perm _).mem_iff, typeMap, mem_collect, lookup_collect] at inside
    rw [typeMap, lookup_collect, kept _ _ inside] at reported
    simp [typeChanges] at reported

end

/-- Everything the diff compares is the same: no export, import or type is missing, and none differs
in parameter types, return type or definition. -/
structure Unchanged (old new : MimiAbi) : Prop where
  exports : SymbolsKept old.exports new.exports
  imports : SymbolsKept old.imports new.imports
  types : TypesKept old.types new.types

variable (table : CharTable) (orders : Fin 6 → HashOrder) (old new : MimiAbi)

theorem not_breaking_iff :
    (diff_abi table orders old new).has_breaking_changes = false ↔ Unchanged old new := by
  have harmless : (diff_abi table orders old new).has_breaking_changes = false ↔
      Harmless (diff_abi table orders old new).changes := by
    simp only [AbiDiff.has_breaking_changes, List.any_eq_false, Harmless, Bool.not_eq_true]
  have version : Harmless (if old.identity.abi_version ≠ new.identity.abi_version then
      [.versionBumped old.identity.abi_version new.identity.abi_version] else []) := by
    split_ifs <;> simp [Harmless, AbiChange.is_breaking]
  rw [harmless, diff_abi, harmless_append, harmless_append, harmless_append,
    and_iff_right version, harmless_diff_types,
    harmless_diff_symbols table (fun _ => rfl) (fun _ => rfl) (fun _ _ => rfl),
    harmless_diff_symbols table (fun _ => rfl) (fun _ => rfl) (fun _ _ => rfl)]
  constructor
  · intro kept
    exact ⟨kept.1.1, kept.1.2, kept.2⟩
  · intro unchanged
    exact ⟨⟨unchanged.exports, unchanged.imports⟩, unchanged.types⟩

/-! ### An ABI against itself -/

theorem paramChanges_self (make_changed : String → String → AbiChange) (name : String) (i : Nat)
    (params : List MimiAbiParam) : paramChanges table make_changed name i params params = [] := by
  induction params generalizing i with
  | nil => rfl
  | cons p params ih =>
      rw [paramChanges, ih]
      simp

/-- The part of a diff over two hash maps of the same content. -/
theorem diff_maps_self {entries : List (String × α)}
    (report : String → α → Option α → List AbiChange) (add : String → AbiChange)
    (same : ∀ name a, report name a (some a) = []) :
    ((oldOrder.visit (collect entries)).flatMap fun entry =>
        report entry.1 entry.2 ((collect entries).lookup entry.1)) ++
      (((newOrder.visit (collect entries)).filter fun entry =>
        ((collect entries).lookup entry.1).isNone).map fun entry => add entry.1) = [] := by
  have finds : ∀ (order : HashOrder) entry, entry ∈ order.visit (collect entries) →
      (collect entries).lookup entry.1 = some entry.2 := by
    intro order entry member
    exact mem_collect.mp ((order.perm _).mem_iff.mp member)
  rw [List.append_eq_nil_iff]
  constructor
  · rw [List.flatMap_eq_nil_iff]
    intro entry member
    rw [finds _ entry member]
    exact same _ _
  · rw [List.map_eq_nil_iff, List.filter_eq_nil_iff]
    intro entry member
    rw [finds _ entry member]
    simp

theorem diff_symbols_self (syms : List MimiAbiSymbol)
    (make_added make_removed : String → AbiChange) (make_changed : String → String → AbiChange) :
    diff_symbols table oldOrder newOrder syms syms make_added make_removed make_changed = [] := by
  apply diff_maps_self (symbolChanges table make_removed make_changed)
  intro name sym
  simp [symbolChanges, signatureChanges, paramChanges_self]

theorem diff_types_self (types : List MimiAbiType) :
    diff_types table oldOrder newOrder types types = [] := by
  apply diff_maps_self (typeChanges table)
  intro name ty
  simp [typeChanges]

theorem diff_abi_self : (diff_abi table orders old old).changes = [] := by
  rw [diff_abi, diff_symbols_self, diff_symbols_self, diff_types_self]
  simp

/-! ### What a caller depends on -/

/-- Export names are unique. -/
def UniqueExports (abi : MimiAbi) : Prop := (abi.exports.map MimiAbiSymbol.name).Nodup

/-- A caller compiled against the old ABI can still call every export. -/
def Compatible (old new : MimiAbi) : Prop :=
  ∀ s ∈ old.exports, ∃ s' ∈ new.exports, s'.name = s.name ∧ s'.kind = s.kind ∧
    s'.call_conv = s.call_conv ∧
    s'.params.map MimiAbiParam.ty = s.params.map MimiAbiParam.ty ∧
    s'.params.map MimiAbiParam.is_nullable = s.params.map MimiAbiParam.is_nullable ∧
    s'.ret = s.ret

/-- Exports of one name agree in kind, calling convention and the nullability of parameters. -/
def SameConventions (old new : MimiAbi) : Prop :=
  ∀ s ∈ old.exports, ∀ s' ∈ new.exports, s'.name = s.name → s'.kind = s.kind ∧
    s'.call_conv = s.call_conv ∧
    s'.params.map MimiAbiParam.is_nullable = s.params.map MimiAbiParam.is_nullable

/-- With unique names the last symbol of a name is the only one. -/
theorem lastWith_iff {syms : List MimiAbiSymbol} (unique : (syms.map MimiAbiSymbol.name).Nodup)
    {name : String} {s : MimiAbiSymbol} :
    lastWith MimiAbiSymbol.name syms name = some s ↔ s ∈ syms ∧ s.name = name := by
  constructor
  · exact lastWith_some
  · rintro ⟨member, here⟩
    cases found : lastWith MimiAbiSymbol.name syms name with
    | none =>
        rw [lastWith, List.find?_eq_none] at found
        exact absurd (decide_eq_true here) (found s (List.mem_reverse.mpr member))
    | some s' =>
        obtain ⟨member', here'⟩ := lastWith_some found
        rw [List.inj_on_of_nodup_map unique member' member (here'.trans here.symm)]

/-- A diff without a breaking change vouches for an export up to its conventions. -/
theorem Unchanged.export_kept {old new : MimiAbi} (unchanged : Unchanged old new)
    (unique : UniqueExports old) (unique' : UniqueExports new) {s : MimiAbiSymbol}
    (member : s ∈ old.exports) :
    ∃ s' ∈ new.exports, s'.name = s.name ∧
      s'.params.map MimiAbiParam.ty = s.params.map MimiAbiParam.ty ∧ s'.ret = s.ret := by
  obtain ⟨s', found, types, returns⟩ :=
    unchanged.exports s.name s ((lastWith_iff unique).mpr ⟨member, rfl⟩)
  obtain ⟨member', name⟩ := (lastWith_iff unique').mp found
  exact ⟨s', member', name, types.symm, returns.symm⟩

/-- A diff without breaking changes means compatible exports exactly when the diff has something to
report or the exports keep their conventions, which it does not compare; an ABI never differs from
itself. -/
theorem diff_sound_iff (table : CharTable) (orders : Fin 6 → HashOrder) (old new : MimiAbi)
    (unique : UniqueExports old) (unique' : UniqueExports new) :
    (((diff_abi table orders old new).has_breaking_changes = false → Compatible old new) ↔
        ¬Unchanged old new ∨ SameConventions old new) ∧
      (diff_abi table orders old old).changes = [] := by
  refine ⟨?_, diff_abi_self table orders old⟩
  rw [not_breaking_iff]
  constructor
  · intro sound
    by_cases unchanged : Unchanged old new
    · refine .inr fun s member s' member' name => ?_
      obtain ⟨t, memberT, nameT, kind, call_conv, -, nullable, -⟩ := sound unchanged s member
      obtain rfl : t = s' :=
        List.inj_on_of_nodup_map unique' memberT member' (nameT.trans name.symm)
      exact ⟨kind, call_conv, nullable⟩
    · exact .inl unchanged
  · rintro (changed | same) unchanged
    · exact absurd unchanged changed
    · intro s member
      obtain ⟨s', member', name, types, returns⟩ := unchanged.export_kept unique unique' member
      obtain ⟨kind, call_conv, nullable⟩ := same s member s' member' name
      exact ⟨s', member', name, kind, call_conv, types, nullable, returns⟩

/-- An ABI whose one export takes and returns nothing. -/
def oneExport (call_conv : String) : MimiAbi where
  format_version := 1
  identity := ⟨"demo", "1.0.0", 1⟩
  exports := [⟨"run", "Function", [], .void, [], false, call_conv, none⟩]
  imports := []
  types := []

/-- Every character as it is. -/
def plainTable : CharTable := ⟨fun _ => true⟩

/-- The order in which the entries were collected. -/
def insertionOrder : HashOrder where
  visit entries := entries
  perm entries := .refl entries

/-- The export `add`, with a name for its first parameter. -/
def addExport (left : String) : MimiAbiSymbol :=
  ⟨"add", "Function", [⟨left, .primitive "i32", false⟩, ⟨"right", .primitive "i32", false⟩],
    .primitive "i32", [], false, "C", none⟩

def nameExport : MimiAbiSymbol :=
  ⟨"name", "Function", [⟨"of", .pointer (.named "Point"), true⟩], .slice (.primitive "u8"), [], false, "C", none⟩

def older : MimiAbi := { oneExport "C" with exports := [addExport "a", nameExport] }

/-- The next version has one export more, in another order, and names a parameter anew. -/
def newer : MimiAbi :=
  { oneExport "C" with
    identity := ⟨"demo", "1.1.0", 2⟩
    exports := nameExport :: (oneExport "C").exports ++ [addExport "left"] }

theorem diff_sound_iff_upgrade :
    (diff_abi plainTable (fun _ => insertionOrder) older newer).has_breaking_changes = false ∧
      Compatible older newer := by
  have unbroken : (diff_abi plainTable (fun _ => insertionOrder) older newer).has_breaking_changes = false := by decide
  have same : SameConventions older newer := by
    unfold SameConventions
    decide
  have unique : UniqueExports older ∧ UniqueExports newer := by
    unfold UniqueExports
    decide
  have sound := diff_sound_iff plainTable (fun _ => insertionOrder) older newer unique.1 unique.2
  exact ⟨unbroken, sound.1.mpr (.inr same) unbroken⟩

/-- An export that changes its calling convention is not reported. -/
theorem calling_convention_not_compared :
    ¬∀ (table : CharTable) (orders : Fin 6 → HashOrder) (old new : MimiAbi),
      UniqueExports old → UniqueExports new →
        ((diff_abi table orders old new).has_breaking_changes = false → Compatible old new) ∧
          (diff_abi table orders old old).changes = [] := by
  intro sound
  obtain ⟨compatible, -⟩ := sound plainTable (fun _ => insertionOrder) (oneExport "C")
    (oneExport "Win64") (List.nodup_singleton _) (List.nodup_singleton _)
  obtain ⟨s', member, -, -, call_conv, -⟩ := compatible rfl _ List.mem_cons_self
  obtain rfl := List.mem_singleton.mp member
  exact absurd call_conv (by decide)

/-! ### Versions -/

theorem Unchanged.trans {old middle new : MimiAbi} (first : Unchanged old middle) (second : Unchanged middle new) :
    Unchanged old new := by
  have symbols {olds middles news : List MimiAbiSymbol} (first : SymbolsKept olds middles)
      (second : SymbolsKept middles news) : SymbolsKept olds news := by
    intro name s found
    obtain ⟨s', found', types, returns⟩ := first name s found
    obtain ⟨s'', found'', types', returns'⟩ := second name s' found'
    exact ⟨s'', found'', types.trans types', returns.trans returns'⟩
  exact ⟨symbols first.exports second.exports, symbols first.imports second.imports,
    fun name ty found => second.types name ty (first.types name ty found)⟩

/-- Along a history of versions, no diff of neighbours reports a breaking change exactly if no diff of a version and
any later one does, in whatever orders the hash maps of the diffs are visited. -/
theorem history_not_breaking_iff (table : CharTable) (orders orders' : MimiAbi → MimiAbi → Fin 6 → HashOrder)
    (versions : List MimiAbi) :
    versions.IsChain (fun old new => (diff_abi table (orders old new) old new).has_breaking_changes = false) ↔
      versions.Pairwise fun old new => (diff_abi table (orders' old new) old new).has_breaking_changes = false := by
  have compared (orders : MimiAbi → MimiAbi → Fin 6 → HashOrder) :
      (fun old new => (diff_abi table (orders old new) old new).has_breaking_changes = false) = Unchanged :=
    funext₂ fun old new => propext (not_breaking_iff table (orders old new) old new)
  have : Trans Unchanged Unchanged Unchanged := ⟨Unchanged.trans⟩
  rw [compared, compared]
  exact List.isChain_iff_pairwise

end Mimi.Component
