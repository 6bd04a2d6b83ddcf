import Mathlib.Data.BitVec
import Mathlib.Data.List.Basic

/-!
# Trace markers

A marker is a `mov` of an opcode into `rcx` with `xchg %rcx, %rcx` right behind it. The plugin sees
the code in translation blocks, as they are cut. A pair inside a block is found when the block is
translated. For a pair cut in two, the block's last `mov` stores its opcode when it is executed, in
a slot of the vCPU, and an `xchg` without a pair takes what is in the slot.
-/

namespace Pimid.Trace

/-! ## Instructions -/

/-- An instruction's bytes. -/
abbrev Insn := List (BitVec 8)

/-- The number that bytes are, the lowest first. -/
def leNat : List (BitVec 8) → Nat
  | [] => 0
  | b :: rest => b.toNat + 256 * leNat rest

inductive Marker where
  | ROI_BEGIN
  | ROI_END
  | OFFLOAD_START
  | OFFLOAD_END
deriving DecidableEq, Repr

/-- The event of a magic op: `ZSIM_MAGIC_OP_ROI_BEGIN`, `_ROI_END`, `_WORK_BEGIN` and `_WORK_END` have one. -/
def markerOf (op : Nat) : Option Marker :=
  if op = 1025 then some .ROI_BEGIN
  else if op = 1026 then some .ROI_END
  else if op = 1029 then some .OFFLOAD_START
  else if op = 1030 then some .OFFLOAD_END
  else none

/-- `xchg %rcx, %rcx` -/
def isXchg (insn : Insn) : Bool := insn == [0x48#8, 0x87#8, 0xc9#8]

/-- The 32 bits the plugin reads of `mov $imm32, %ecx`, `mov $imm32, %rcx` and `movabs $imm64, %rcx`. -/
def magicOp (insn : Insn) : Nat :=
  if insn.length = 5 ∧ insn.take 1 = [0xb9#8] then leNat ((insn.drop 1).take 4)
  else if insn.length = 7 ∧ insn.take 3 = [0x48#8, 0xc7#8, 0xc1#8] then leNat ((insn.drop 3).take 4)
  else if insn.length = 10 ∧ insn.take 2 = [0x48#8, 0xb9#8] then leNat ((insn.drop 2).take 4)
  else 0

/-! ## Translation -/

/-- What is registered on an instruction for the markers. -/
inductive Callback where
  | magicInsn (op : Nat)
  | xchgPending
  | movMagic (op : Nat)
deriving DecidableEq, Repr

/-- The loop over a block: the callbacks so far and `prev_magic_op`. -/
structure Translation where
  prevMagicOp : Nat := 0
  callbacks : List (Option Callback) := []

def Translation.insn (t : Translation) (insn : Insn) : Translation :=
  if isXchg insn then
    { prevMagicOp := 0
      callbacks := t.callbacks ++
        [some (if (markerOf t.prevMagicOp).isSome then .magicInsn t.prevMagicOp else .xchgPending)] }
  else { prevMagicOp := magicOp insn, callbacks := t.callbacks ++ [none] }

/-- A block: a `mov` at its end that no `xchg` has used is watched. -/
def tbTransCb (tb : List Insn) : List (Option Callback) :=
  let t := tb.foldl Translation.insn {}
  if t.prevMagicOp ≠ 0 then t.callbacks.dropLast ++ [some (.movMagic t.prevMagicOp)] else t.callbacks

/-! ## Execution -/

def MAX_VCPUS : Nat := 256

/-- An instruction executed by a vCPU: the slot after it and the marker it emits. -/
def execCb (vcpu slot : Nat) : Option Callback → Nat × Option Marker
  | none => (slot, none)
  | some (.magicInsn op) => (slot, markerOf op)
  | some (.movMagic op) => (if vcpu < MAX_VCPUS then op else slot, none)
  | some .xchgPending => if vcpu < MAX_VCPUS then (0, markerOf slot) else (slot, none)

/-- The slot and the markers of the instructions of a block. -/
def execTb (vcpu : Nat) (s : Nat × List (Option Marker)) (cbs : List (Option Callback)) : Nat × List (Option Marker) :=
  cbs.foldl (fun s cb => ((execCb vcpu s.1 cb).1, s.2 ++ [(execCb vcpu s.1 cb).2])) s

/-- The blocks a vCPU executes, from an empty slot: the marker of each instruction. -/
def execBlocks (vcpu : Nat) (tbs : List (List Insn)) : Nat × List (Option Marker) :=
  tbs.foldl (fun s tb => execTb vcpu s (tbTransCb tb)) (0, [])

/-! ## The stream -/

/-- What a `mov` of an immediate leaves in `rcx`. -/
def rcxLoaded (insn : Insn) : Option Nat :=
  if insn.length = 5 ∧ insn.take 1 = [0xb9#8] then some (leNat (insn.drop 1))
  else if insn.length = 7 ∧ insn.take 3 = [0x48#8, 0xc7#8, 0xc1#8] then
    -- the 32 bits are sign-extended
    let imm := leNat (insn.drop 3)
    some (if imm < 2 ^ 31 then imm else imm + (2 ^ 64 - 2 ^ 32))
  else if insn.length = 10 ∧ insn.take 2 = [0x48#8, 0xb9#8] then some (leNat (insn.drop 2))
  else none

/-- The marker of an `xchg`: that of the opcode the instruction before it loads. -/
def markerAfter (before : Option Insn) : Option Marker := (before.bind rcxLoaded).bind markerOf

/-- The marker of each instruction of a stream. -/
def markers : Option Insn → List Insn → List (Option Marker)
  | _, [] => []
  | before, insn :: rest => (if isXchg insn then markerAfter before else none) :: markers (some insn) rest

/-! ## What is left in the slot -/

/-- The opcode the last instruction reads as, 0 if it is none. -/
def lastOp (tb : List Insn) : Nat := (tb.getLast?.map magicOp).getD 0

/-- An `xchg` that takes what is in the slot: there is no `mov` of a marker before it in its block. -/
def Unpaired (u : List Insn) : Prop := markerOf (lastOp u) = none

instance (u : List Insn) : Decidable (Unpaired u) := inferInstanceAs (Decidable (_ = none))

/-- The slot in a block, behind `u`. -/
def slotIn (slot : Nat) (u : List Insn) : Nat :=
  if ∃ k < u.length, isXchg (u.getD k []) ∧ Unpaired (u.take k) then 0 else slot

/-- The slot behind a block. -/
def slotOut (slot : Nat) (tb : List Insn) : Nat := if lastOp tb ≠ 0 then lastOp tb else slotIn slot tb

/-- The opcode the blocks leave in the slot. -/
def leftover (tbs : List (List Insn)) : Nat := tbs.foldl slotOut 0

/-- An `xchg` behind `u` in its block, with `before` executed before the block. If it has a pair in
the block, the `mov` loads what is read of it. If it has none, no marker's opcode is in the slot
unless the instruction before it loads it, or on a vCPU without a slot, that instruction loads none. -/
def Right (vcpu slot : Nat) (before : Option Insn) (u : List Insn) : Prop :=
  if Unpaired u then
    if vcpu < MAX_VCPUS then markerOf (slotIn slot u) = none ∨ u = [] ∧ before.bind rcxLoaded = some slot
    else markerAfter (u.getLast?.or before) = none
  else u.getLast?.bind rcxLoaded = some (lastOp u)

end Pimid.Trace
