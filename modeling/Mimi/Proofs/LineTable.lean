/-
Module: Mimi.Proofs.LineTable
Purpose: The table of source lines after the passes.  The passes rewrite the instructions only, so the
  table stays in step as long as no round removes an instruction and none moves one to the place of
  an instruction of another line; a round that removes one is never made good.
Trusted boundary: none
-/
import Mimi.Interp.Peephole
import Mimi.Lib.Alignment

namespace Mimi.Interp.Passes

open Mimi.Lib

/-- The table has the line of each instruction, as it was when the instruction was emitted. -/
def InStep (proto : FunctionProto) : Prop := proto.line_table = proto.code.map Entry.line

/-- Instructions that have been emitted are in step with their lines. -/
theorem emitted_inStep {proto : FunctionProto} (emitted : Emitted proto) : InStep proto := by
  induction emitted with
  | new => rfl
  | emit before current_line op ih =>
      rw [InStep, FunctionProto.emit, List.map_append, ih]
      rfl
  | @patch proto before pc op ih =>
      refine ih.trans (List.ext_getElem? fun i => ?_)
      rw [FunctionProto.patch, List.getElem?_map, List.getElem?_map, List.getElem?_modify]
      cases proto.code[i]? with
      | none => rfl
      | some entry =>
          refine congrArg some ?_
          show entry.line = (if pc = i then { entry with op := op } else entry).line
          split <;> rfl

/-! ### What a round may do -/

/-- From here on the scan removes nothing, and swaps only instructions of one line. -/
def quietFrom (code : List Entry) : List Entry → Prop
  | a :: b :: rest =>
      if isDuplicate a.op b.op then False
      else
        match swapped a.op b.op with
        | some _ => a.line = b.line ∧ quietFrom code rest
        | none =>
            match fused code a.op b.op rest with
            | some _ => False
            | none => quietFrom code (b :: rest)
  | _ => True

/-- From here on the scan removes nothing. -/
def keepsFrom (code : List Entry) : List Entry → Prop
  | a :: b :: rest =>
      if isDuplicate a.op b.op then False
      else
        match swapped a.op b.op with
        | some _ => keepsFrom code rest
        | none =>
            match fused code a.op b.op rest with
            | some _ => False
            | none => keepsFrom code (b :: rest)
  | _ => True

/-- A round of the peephole finds no duplicate check and no copy to fuse, and swaps a check and a copy
only where they are of one line. -/
def QuietPeephole (code : List Entry) : Prop := quietFrom code code

/-- A round of the peephole finds no duplicate check and no copy to fuse. -/
def KeepsPeephole (code : List Entry) : Prop := keepsFrom code code

/-- Where a round of the hoisting moves an instruction, it puts it in the place of one of its line. -/
def QuietHoist (code : List Entry) : Prop :=
  ∀ back_pc header_pc, back_edge code = some (back_pc, header_pc) → ∀ np old : Nat,
    (hoistOrder code header_pc back_pc)[np]? = some old →
      (code[old]?).map Entry.line = (code[np]?).map Entry.line

theorem retargetAll_lines (remap : List (Option Nat)) (entries : List (Entry × Nat)) :
    (retargetAll remap entries).map Entry.line = entries.map fun entry => entry.1.line := by
  have firsts : entries.zipIdx.map Prod.fst = entries := by
    rw [List.zipIdx_eq_zip_range', List.map_fst_zip (by rw [List.length_range'])]
  rw [retargetAll, List.map_map]
  conv_rhs => rw [← firsts, List.map_map]
  rfl

theorem scanFrom_length (code : List Entry) (i n : Nat) (rest : List Entry) :
    (scanFrom code i n rest).entries.length ≤ rest.length ∧
      ((scanFrom code i n rest).entries.length = rest.length ↔ keepsFrom code rest) := by
  fun_induction scanFrom code i n rest with
  | case1 => exact ⟨le_rfl, fun _ => trivial, fun _ => rfl⟩
  | case2 => exact ⟨le_rfl, fun _ => trivial, fun _ => rfl⟩
  | case3 i n a b rest duplicate ih =>
      rw [keepsFrom, if_pos duplicate]
      simp only [Scan.push, List.length_append, List.length_cons, List.length_nil, iff_false]
      omega
  | case4 i n a b rest single first second swap ih =>
      rw [keepsFrom, if_neg single, swap]
      simp only [Scan.push, List.length_append, List.length_cons, List.length_nil, ← ih.2]
      omega
  | case5 i n a b rest single swap op fuse ih =>
      rw [keepsFrom, if_neg single, swap]
      simp only [fuse, Scan.push, List.length_append, List.length_cons, List.length_nil, iff_false]
      omega
  | case6 i n a b rest single swap fuse ih =>
      rw [keepsFrom, if_neg single, swap]
      simp only [fuse, Scan.push, List.length_append, List.length_cons, List.length_nil, ← ih.2]
      rw [List.length_cons] at ih
      omega

/-- The scan keeps the lines in place exactly where it is quiet. -/
theorem scanFrom_lines (code : List Entry) (i n : Nat) (rest : List Entry) :
    (scanFrom code i n rest).entries.map (fun entry => entry.1.line) = rest.map Entry.line ↔
      quietFrom code rest := by
  fun_induction scanFrom code i n rest with
  | case1 => exact ⟨fun _ => trivial, fun _ => rfl⟩
  | case2 => exact ⟨fun _ => trivial, fun _ => rfl⟩
  | case3 i n a b rest duplicate ih =>
      rw [quietFrom, if_pos duplicate, iff_false]
      intro same
      have shorter := (scanFrom_length code (i + 2) (n + 1) rest).1
      have lengths := congrArg List.length same
      simp only [Scan.push, List.length_map, List.length_append, List.length_cons,
        List.length_nil] at lengths
      omega
  | case4 i n a b rest single first second swap ih =>
      rw [quietFrom, if_neg single, swap]
      show b.line :: a.line :: (scanFrom code (i + 2) (n + 2) rest).entries.map
        (fun entry => entry.1.line) = a.line :: b.line :: rest.map Entry.line ↔
          a.line = b.line ∧ quietFrom code rest
      rw [List.cons.injEq, List.cons.injEq, ih]
      exact ⟨fun same => ⟨same.2.1, same.2.2⟩, fun quiet => ⟨quiet.1.symm, quiet.1, quiet.2⟩⟩
  | case5 i n a b rest single swap op fuse ih =>
      rw [quietFrom, if_neg single, swap]
      simp only [fuse, iff_false]
      intro same
      have shorter := (scanFrom_length code (i + 2) (n + 1) rest).1
      have lengths := congrArg List.length same
      simp only [Scan.push, List.length_map, List.length_append, List.length_cons,
        List.length_nil] at lengths
      omega
  | case6 i n a b rest single swap fuse ih =>
      rw [quietFrom, if_neg single, swap]
      simp only [fuse]
      show a.line :: (scanFrom code (i + 1) (n + 1) (b :: rest)).entries.map
        (fun entry => entry.1.line) = a.line :: (b :: rest).map Entry.line ↔
          quietFrom code (b :: rest)
      rw [List.cons.injEq, ih]
      exact ⟨And.right, fun quiet => ⟨rfl, quiet⟩⟩

/-- One round of the peephole, from code that is in step. -/
theorem peephole_round_lines (code : List Entry) :
    (peephole_round code).1.map Entry.line = code.map Entry.line ↔ QuietPeephole code := by
  rw [peephole_round, retargetAll_lines]
  exact scanFrom_lines code 0 0 code

theorem peephole_round_length (code : List Entry) :
    (peephole_round code).1.length ≤ code.length ∧
      ((peephole_round code).1.length = code.length ↔ KeepsPeephole code) := by
  have length : (peephole_round code).1.length = (scanFrom code 0 0 code).entries.length := by
    rw [peephole_round, retargetAll, List.length_map, List.length_zipIdx]
  rw [length]
  exact scanFrom_length code 0 0 code

/-! ### Hoisting -/

theorem back_edge_inside {code : List Entry} {back_pc header_pc : Nat}
    (found : back_edge code = some (back_pc, header_pc)) :
    header_pc < back_pc ∧ back_pc < code.length := by
  obtain ⟨placed, member, is⟩ := List.exists_of_findSome?_eq_some found
  obtain ⟨entry, at_⟩ := placed
  have inside : at_ < code.length := by
    have bound := (List.mem_zipIdx member).2.1
    rwa [Nat.zero_add] at bound
  simp only at is
  split at is
  · split_ifs at is with back
    simp only [Option.some.injEq, Prod.mk.injEq] at is
    simp only [Bool.and_eq_true, decide_eq_true_eq] at back
    omega
  · cases is

/-- The new order lists every index once. -/
theorem hoistOrder_perm {code : List Entry} {back_pc header_pc : Nat} (before : header_pc < back_pc)
    (inside : back_pc < code.length) :
    (hoistOrder code header_pc back_pc).Perm (List.range code.length) := by
  have split_ : List.range code.length = List.range header_pc ++
      List.range' header_pc (code.length - header_pc) := by
    have joined := List.range'_append_1 (s := 0) (m := header_pc) (n := code.length - header_pc)
    rw [Nat.zero_add] at joined
    rw [List.range_eq_range', List.range_eq_range', joined]
    congr 1
    omega
  -- the hoisted indices are those of the rest that the filter leaves out
  have hoisted : hoistPcs code header_pc back_pc =
      (List.range' header_pc (code.length - header_pc)).filter
        fun pc => (hoistPcs code header_pc back_pc).contains pc := by
    have rest : List.range' header_pc (code.length - header_pc) =
        List.range' header_pc (back_pc + 1 - header_pc) ++
          List.range' (back_pc + 1) (code.length - (back_pc + 1)) := by
      have next : back_pc + 1 = header_pc + (back_pc + 1 - header_pc) := by omega
      conv_rhs => rw [next]
      rw [Nat.add_sub_cancel_left, List.range'_append_1]
      congr 1
      omega
    rw [rest, List.filter_append]
    have none_ : (List.range' (back_pc + 1) (code.length - (back_pc + 1))).filter
        (fun pc => (hoistPcs code header_pc back_pc).contains pc) = [] := by
      rw [List.filter_eq_nil_iff]
      intro pc member hoisted
      rw [List.contains_iff_mem] at hoisted
      have low := (List.mem_range'_1.mp member).1
      have high := (List.mem_range'_1.mp (List.mem_filter.mp hoisted).1).2
      omega
    rw [none_, List.append_nil, hoistPcs]
    refine List.filter_congr fun pc member => ?_
    rw [Bool.eq_iff_iff, List.contains_iff_mem, List.mem_filter]
    exact ⟨fun loads => ⟨member, loads⟩, And.right⟩
  rw [hoistOrder, split_, List.append_assoc]
  refine List.Perm.append_left _ ?_
  have parts := List.filter_append_perm
    (fun pc => (hoistPcs code header_pc back_pc).contains pc)
    (List.range' header_pc (code.length - header_pc))
  rwa [← hoisted] at parts

/-- One round of the hoisting, from code that is in step. -/
theorem hoist_round_lines {code next : List Entry} (changed : hoist_round code = some next) :
    next.length = code.length ∧ (next.map Entry.line = code.map Entry.line ↔ QuietHoist code) := by
  rw [hoist_round] at changed
  cases found : back_edge code with
  | none =>
      rw [found] at changed
      cases changed
  | some edge =>
      obtain ⟨back_pc, header_pc⟩ := edge
      rw [found] at changed
      simp only at changed
      split_ifs at changed with none_
      obtain ⟨before, inside⟩ := back_edge_inside found
      have perm := hoistOrder_perm before inside
      obtain rfl := Option.some.inj changed
      have all : ∀ old ∈ hoistOrder code header_pc back_pc,
          ((code[old]?).map Entry.line).isSome = true := by
        intro old member
        rw [List.getElem?_eq_getElem (List.mem_range.mp (perm.mem_iff.mp member))]
        rfl
      have lines : ∀ remap, (retargetAll remap ((hoistOrder code header_pc back_pc).filterMap fun old =>
          (code[old]?).map fun entry => (entry, old))).map Entry.line =
          (hoistOrder code header_pc back_pc).filterMap fun old => (code[old]?).map Entry.line := by
        intro remap
        rw [retargetAll_lines, List.map_filterMap]
        refine List.filterMap_congr fun old _ => ?_
        rw [Option.map_map]
        rfl
      have places := getElem?_filterMap_of_isSome all
      have length : ((hoistOrder code header_pc back_pc).filterMap fun old =>
          (code[old]?).map Entry.line).length = code.length := by
        rw [List.length_filterMap_eq_countP, List.countP_eq_length.mpr all, perm.length_eq,
          List.length_range]
      refine ⟨?_, ?_⟩
      · rw [← List.length_map Entry.line, lines, length]
      · rw [lines]
        constructor
        · intro same back_pc' header_pc' found' np old at_
          obtain ⟨rfl, rfl⟩ := Prod.mk.inj (Option.some.inj (found.symm.trans found'))
          have here := congrArg (fun table : List Nat => table[np]?) same
          simp only [places, at_, Option.bind_some, List.getElem?_map] at here
          exact here
        · intro quiet
          refine List.ext_getElem? fun np => ?_
          rw [places, List.getElem?_map]
          cases at_ : (hoistOrder code header_pc back_pc)[np]? with
          | none =>
              have outside : code.length ≤ np := by
                rw [List.getElem?_eq_none_iff, perm.length_eq, List.length_range] at at_
                exact at_
              rw [List.getElem?_eq_none outside]
              rfl
          | some old => exact quiet back_pc header_pc found np old at_

/-! ### Runs of the passes -/

variable {out : List Entry}

theorem peephole_lines {code : List Entry} (run : Peephole QuietPeephole code out) :
    out.map Entry.line = code.map Entry.line := by
  induction run with
  | last allowed => exact (peephole_round_lines _).mpr allowed
  | again allowed _ _ ih => exact ih.trans ((peephole_round_lines _).mpr allowed)

variable {may : List Entry → Prop}

theorem peephole_length {code : List Entry} (run : Peephole may code out) : out.length ≤ code.length := by
  induction run with
  | last => exact (peephole_round_length _).1
  | again _ _ _ ih => exact ih.trans (peephole_round_length _).1

/-- What has been removed in one round is missing in the end. -/
theorem peephole_keeps {code : List Entry} (run : Peephole may code out)
    (same : out.length = code.length) : Peephole KeepsPeephole code out := by
  induction run with
  | last _ fixed => exact .last ((peephole_round_length _).2.mp same) fixed
  | @again code out _ changed rest ih =>
      have first := (peephole_round_length code).1
      have others := peephole_length rest
      exact .again ((peephole_round_length code).2.mp (by omega)) changed (ih (by omega))

theorem hoists_lines {code : List Entry} (run : Hoists QuietHoist code out) :
    out.map Entry.line = code.map Entry.line := by
  induction run with
  | last => rfl
  | again allowed changed _ ih => exact ih.trans ((hoist_round_lines changed).2.mpr allowed)

theorem hoists_length {code : List Entry} (run : Hoists may code out) :
    out.length = code.length := by
  induction run with
  | last => rfl
  | again _ changed _ ih => exact ih.trans (hoist_round_lines changed).1

/-- Whatever has been emitted, the table is in step with the optimised code when no round removes an
instruction or moves one to the place of another line; and it can be in step only when no round has
removed an instruction. -/
theorem lines_survive {proto proto' : FunctionProto} (emitted : Emitted proto) :
    (Optimized QuietPeephole QuietHoist proto proto' → InStep proto') ∧
      (Optimized (fun _ => True) (fun _ => True) proto proto' → InStep proto' →
        Optimized KeepsPeephole (fun _ => True) proto proto') := by
  have start := emitted_inStep emitted
  constructor
  · rintro ⟨peephole, hoists⟩
    exact start.trans ((hoists_lines hoists).trans (peephole_lines peephole)).symm
  · rintro ⟨peephole, hoists⟩ done
    have lengths := congrArg List.length (start.symm.trans done)
    rw [List.length_map, List.length_map] at lengths
    exact .passes (peephole_keeps peephole ((hoists_length hoists).symm.trans lengths.symm)) hoists

/-- A check and a copy of what it checks, of one line. -/
def checkedCopy : FunctionProto :=
  ((FunctionProto.emit ⟨[], []⟩ 2 (.checkI32 0 3)).emit 2 (.mov 1 0)).emit 3
    (.other "Ret" none false (some [1]))

theorem lines_survive_checkedCopy : ∃ proto, Optimized QuietPeephole QuietHoist checkedCopy proto ∧
    proto.code.map Entry.op =
      [.mov 1 0, .checkI32 1 3, .other "Ret" none false (some [1])] ∧ InStep proto := by
  have optimized : Optimized QuietPeephole QuietHoist checkedCopy
      { checkedCopy with code := [⟨.mov 1 0, 2⟩, ⟨.checkI32 1 3, 2⟩,
          ⟨.other "Ret" none false (some [1]), 3⟩] } :=
    .passes (.again ⟨rfl, trivial⟩ rfl (.last trivial rfl)) (.last rfl)
  exact ⟨_, optimized, rfl, (lines_survive (.emit (.emit (.emit .new _ _) _ _) _ _)).1 optimized⟩

/-- `func f() -> i32`, with `let x = 1` on line 2 and `x` on line 3. -/
def letThenUse : FunctionProto :=
  ((FunctionProto.emit ⟨[], []⟩ 2 (.loadConst 0 0)).emit 2 (.mov 1 0)).emit 3
    (.other "Ret" none false (some [1]))

/-- The copy is fused into the load, and the table keeps its three lines. -/
theorem fused_let_shifts_lines : ¬∀ proto proto', Emitted proto →
    Optimized (fun _ => True) (fun _ => True) proto proto' → InStep proto' := by
  intro always
  have emitted : Emitted letThenUse := .emit (.emit (.emit .new _ _) _ _) _ _
  have shifted := always letThenUse
    { letThenUse with code := [⟨.loadConst 1 0, 2⟩, ⟨.other "Ret" none false (some [1]), 3⟩] }
    emitted (.passes (.again trivial rfl (.last trivial rfl)) (.last rfl))
  have lengths := congrArg List.length shifted
  cases lengths

end Mimi.Interp.Passes
