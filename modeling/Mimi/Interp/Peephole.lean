/-
Module: Mimi.Interp.Peephole
Purpose: The two passes that `compile_func` runs over the instructions of a function when they have all
  been emitted, and the table of source lines beside them.
Trusted boundary: human-reviewed translation of `peephole_optimize` and `hoist_loop_invariant_loads` of
  interp/bytecode/compiler.rs; of an instruction the passes do not look at, the registers that
  `dest_reg`, `with_dest` and `reads_reg` of instr.rs tell of it; numbers of instructions are unbounded
-/
import Mathlib

namespace Mimi.Interp.Passes

/-- `Op`, by what the passes read of it. -/
inductive Op where
  | loadConst (rd idx : Nat)
  | mov (rd rs : Nat)
  | checkI32 (rd kind : Nat)
  | jmp (offset : Int)
  | jmpIf (ra : Nat) (offset : Int)
  | jmpIfNot (ra : Nat) (offset : Int)
  | setFaultPc (handler_pc : Nat)
  /-- Another instruction: the register that it computes and does nothing else to, whether `with_dest`
  can change it, and the registers that it may read, where they are known. -/
  | other (opcode : String) (rd : Option Nat) (renamed : Bool) (reads : Option (List Nat))
deriving DecidableEq, Repr

namespace Op

def dest_reg : Op → Option Nat
  | loadConst rd _ | mov rd _ => some rd
  | other _ rd _ _ => rd
  | _ => none

def with_dest (op : Op) (new_rd : Nat) : Op :=
  match op with
  | loadConst _ idx => loadConst new_rd idx
  | mov _ rs => mov new_rd rs
  | other opcode (some _) true reads => other opcode (some new_rd) true reads
  | op => op

def reads_reg (op : Op) (reg : Nat) : Bool :=
  match op with
  | loadConst _ _ | jmp _ | setFaultPc _ => false
  | mov _ rs => rs = reg
  | checkI32 rd _ => rd = reg
  | jmpIf ra _ | jmpIfNot ra _ => ra = reg
  | other _ _ _ none => true
  | other _ _ _ (some reads) => reads.contains reg

end Op

/-- An instruction with the source line that was current when it was emitted; nothing reads the line. -/
structure Entry where
  op : Op
  line : Nat
deriving DecidableEq, Repr

structure FunctionProto where
  code : List Entry
  line_table : List Nat
deriving DecidableEq, Repr

/-- `FuncCompiler::emit`, with `current_line`. -/
def FunctionProto.emit (proto : FunctionProto) (current_line : Nat) (op : Op) : FunctionProto :=
  ⟨proto.code ++ [⟨op, current_line⟩], proto.line_table ++ [current_line]⟩

/-- Give an instruction that has been emitted the target of its jump. -/
def FunctionProto.patch (proto : FunctionProto) (pc : Nat) (op : Op) : FunctionProto :=
  { proto with code := proto.code.modify pc fun entry => { entry with op := op } }

/-- What the compilation of a body can have emitted. -/
inductive Emitted : FunctionProto → Prop where
  | new : Emitted ⟨[], []⟩
  | emit {proto : FunctionProto} (before : Emitted proto) (current_line : Nat) (op : Op) :
      Emitted (proto.emit current_line op)
  | patch {proto : FunctionProto} (before : Emitted proto) (pc : Nat) (op : Op) :
      Emitted (proto.patch pc op)

/-! ### Moving jumps -/

/-- A removed instruction has no new index; what jumps to it goes to the next one that is left. -/
def remap_target (remap : List (Option Nat)) (old : Int) : Nat :=
  if old < 0 then 0 else ((remap.drop old.toNat).findSome? id).getD remap.length

/-- An instruction of the index `old_idx` that has come to the index `np`. -/
def retarget (remap : List (Option Nat)) (np old_idx : Nat) : Op → Op
  | .jmp offset => .jmp (remap_target remap (old_idx + offset + 1) - np - 1)
  | .jmpIf ra offset => .jmpIf ra (remap_target remap (old_idx + offset + 1) - np - 1)
  | .jmpIfNot ra offset => .jmpIfNot ra (remap_target remap (old_idx + offset + 1) - np - 1)
  | .setFaultPc handler_pc => .setFaultPc (remap_target remap handler_pc)
  | op => op

/-- The new code: entries with the indices from which they come. -/
def retargetAll (remap : List (Option Nat)) (entries : List (Entry × Nat)) : List Entry :=
  entries.zipIdx.map fun placed =>
    { placed.1.1 with op := retarget remap placed.2 placed.1.2 placed.1.1.op }

/-! ### The peephole -/

def reads_after (rest : List Entry) (reg : Nat) : Bool := rest.any fun entry => entry.op.reads_reg reg

def writes_once (code : List Entry) (reg : Nat) : Bool :=
  (code.filter fun entry => entry.op.dest_reg = some reg).length = 1

/-- Two equal checks. -/
def isDuplicate : Op → Op → Bool
  | .checkI32 r1 k1, .checkI32 r2 k2 => r1 = r2 && k1 = k2
  | _, _ => false

/-- A check and a copy of what it checks: the two in the other order. -/
def swapped : Op → Op → Option (Op × Op)
  | .checkI32 x k, .mov y rs => if x = rs then some (.mov y rs, .checkI32 y k) else none
  | _, _ => none

/-- A computation and a copy of its result that nothing else needs: the computation into the copy. -/
def fused (code : List Entry) (op next : Op) (rest : List Entry) : Option Op :=
  match next with
  | .mov y x =>
      if op.dest_reg = some x && !reads_after rest x && writes_once code x then some (op.with_dest y)
      else none
  | _ => none

/-- What a round finds from an index on: the new entries, the new indices and whether a rule was used. -/
structure Scan where
  entries : List (Entry × Nat)
  remap : List (Option Nat)
  changed : Bool

def Scan.push (scan : Scan) (entries : List (Entry × Nat)) (remap : List (Option Nat))
    (changed : Bool) : Scan :=
  ⟨entries ++ scan.entries, remap ++ scan.remap, changed || scan.changed⟩

def scanFrom (code : List Entry) : Nat → Nat → List Entry → Scan
  | _, _, [] => ⟨[], [], false⟩
  | i, n, [a] => ⟨[(a, i)], [some n], false⟩
  | i, n, a :: b :: rest =>
      if isDuplicate a.op b.op then
        (scanFrom code (i + 2) (n + 1) rest).push [(a, i)] [some n, some n] true
      else
        match swapped a.op b.op with
        | some (first, second) =>
            (scanFrom code (i + 2) (n + 2) rest).push
              [({ b with op := first }, i + 1), ({ a with op := second }, i)]
              [some (n + 1), some n] true
        | none =>
            match fused code a.op b.op rest with
            | some op =>
                (scanFrom code (i + 2) (n + 1) rest).push [({ a with op := op }, i)] [some n, none] true
            | none => (scanFrom code (i + 1) (n + 1) (b :: rest)).push [(a, i)] [some n] false

/-- One round: the new code, and whether a rule was used. -/
def peephole_round (code : List Entry) : List Entry × Bool :=
  let scan := scanFrom code 0 0 code
  (retargetAll scan.remap scan.entries, scan.changed)

/-- Rounds until none changes anything; `may` restricts the code a round starts from. -/
inductive Peephole (may : List Entry → Prop) : List Entry → List Entry → Prop where
  | last {code : List Entry} (allowed : may code) (fixed : (peephole_round code).2 = false) :
      Peephole may code (peephole_round code).1
  | again {code out : List Entry} (allowed : may code) (changed : (peephole_round code).2 = true)
      (rest : Peephole may (peephole_round code).1 out) : Peephole may code out

/-! ### Hoisting -/

/-- The first jump backwards, with its target. -/
def back_edge (code : List Entry) : Option (Nat × Nat) :=
  code.zipIdx.findSome? fun placed =>
    match placed.1.op with
    | .jmp offset =>
        let target := (placed.2 : Int) + offset + 1
        if offset < 0 && 0 ≤ target && target < placed.2 then some (placed.2, target.toNat) else none
    | _ => none

/-- A load whose register has no other writer in the loop, and no reader in front of it in the loop nor
behind the loop. -/
def hoistable (code : List Entry) (header_pc back_pc pc : Nat) : Bool :=
  match (code[pc]?).map Entry.op with
  | some (.loadConst rd _) =>
      writes_once ((code.drop header_pc).take (back_pc + 1 - header_pc)) rd &&
        !reads_after ((code.drop header_pc).take (pc - header_pc)) rd &&
          !reads_after (code.drop (back_pc + 1)) rd
  | _ => false

def hoistPcs (code : List Entry) (header_pc back_pc : Nat) : List Nat :=
  (List.range' header_pc (back_pc + 1 - header_pc)).filter (hoistable code header_pc back_pc)

/-- The old indices in their new order. -/
def hoistOrder (code : List Entry) (header_pc back_pc : Nat) : List Nat :=
  let hoist := hoistPcs code header_pc back_pc
  List.range header_pc ++ hoist ++
    (List.range' header_pc (code.length - header_pc)).filter fun pc => !hoist.contains pc

/-- One round, where there is a load to hoist. -/
def hoist_round (code : List Entry) : Option (List Entry) :=
  match back_edge code with
  | none => none
  | some (back_pc, header_pc) =>
      let hoist := hoistPcs code header_pc back_pc
      let order := hoistOrder code header_pc back_pc
      let remap := (List.range code.length).map fun old =>
        if hoist.contains old then none else some (order.idxOf old)
      if hoist.isEmpty then none
      else some (retargetAll remap (order.filterMap fun old => (code[old]?).map fun entry => (entry, old)))

inductive Hoists (may : List Entry → Prop) : List Entry → List Entry → Prop where
  | last {code : List Entry} (fixed : hoist_round code = none) : Hoists may code code
  | again {code next out : List Entry} (allowed : may code) (changed : hoist_round code = some next)
      (rest : Hoists may next out) : Hoists may code out

/-- The end of `compile_func`: both passes get the instructions only. -/
inductive Optimized (mayPeep mayHoist : List Entry → Prop) : FunctionProto → FunctionProto → Prop where
  | passes {proto : FunctionProto} {mid out : List Entry} (peephole : Peephole mayPeep proto.code mid)
      (hoists : Hoists mayHoist mid out) : Optimized mayPeep mayHoist proto { proto with code := out }

end Mimi.Interp.Passes
