import Pimid.X86.Decode

/-!
# The opcode tables

One definition for each opcode map. A branch is a case of the source's switch: the opcodes it lists, and the
fields it sets over the record before the tables.
-/

namespace Pimid.X86.Front

variable (f : Front)

/-! ## The one-byte map -/

/-- add, or, adc, sbb, and, sub, xor, cmp: bit 1 of the opcode selects the direction. -/
def arith : Decoded :=
  let isCmp : Bool := f.o.op / 8 = 7
  let carry : Bool := f.o.op / 8 = 2 ∨ f.o.op / 8 = 3
  if f.o.op % 8 = 4 ∨ f.o.op % 8 = 5 then
    { f.start with
      writesFlags := true, readsFlags := carry, cls := .alu, hasModrm := false, regId := gprId 0,
      regIsSrc := true, regIsDst := !isCmp }
  else if f.o.op % 8 = 0 ∨ f.o.op % 8 = 1 then
    { f.setRegIds .gpr .gpr with
      writesFlags := true, readsFlags := carry, cls := .alu, regIsSrc := true, rmIsSrc := true, rmIsDst := !isCmp,
      mem := f.ifMem (if isCmp then .load else .rmw) }
  else
    { f.setRegIds .gpr .gpr with
      writesFlags := true, readsFlags := carry, cls := .alu, regIsDst := !isCmp, regIsSrc := true, rmIsSrc := true,
      mem := f.ifMem .load }

/-- The ALU group with an immediate; the extension selects the operation. -/
def group1 : Decoded :=
  let isCmp : Bool := f.ext = 7
  { f.setRm .gpr with
    cls := .alu, writesFlags := true, readsFlags := f.ext = 2 ∨ f.ext = 3, rmIsSrc := true, rmIsDst := !isCmp,
    mem := f.ifMem (if isCmp then .load else .rmw) }

/-- test, not, neg, and the multiplications and divisions of the rdx:rax pair. -/
def group3 : Decoded :=
  let d := f.setRegIds .gpr .gpr
  if f.ext = 0 ∨ f.ext = 1 then
    { d with cls := .alu, writesFlags := true, rmIsSrc := true, mem := f.ifMem .load }
  else if f.ext = 2 ∨ f.ext = 3 then
    { d with cls := .alu, rmIsSrc := true, rmIsDst := true, writesFlags := f.ext = 3, mem := f.ifMem .rmw }
  else
    { d with
      cls := if f.ext = 6 ∨ f.ext = 7 then .idiv else .imul
      rmIsSrc := true
      gp3 := if f.o.op = 0xF6 then 3 else if f.ext = 6 ∨ f.ext = 7 then 2 else 1
      regId := gprId 0, regIsSrc := true, regIsDst := true, mem := f.ifMem .load }

/-- inc, dec, call, jmp, push. -/
def group5 : Decoded :=
  let d := f.setRegIds .gpr .gpr
  if f.ext = 0 ∨ f.ext = 1 then
    { d with cls := .alu, writesFlags := true, rmIsSrc := true, rmIsDst := true, mem := f.ifMem .rmw }
  else if f.ext = 6 then
    { d with cls := .mov, rmIsSrc := true, mem := if f.x.memOperand then .rmw else .store }
  else
    { d with
      cls := .branch, rmIsSrc := true
      mem := if f.ext = 2 then if f.x.memOperand then .rmw else .store else f.ifMem .load }

/-- Moves without ModRM that name the register in the opcode. -/
def moveOpReg (src : Bool) (mem : MemRole) : Decoded :=
  { f.start with cls := .mov, isPureMove := true, mem := mem, regId := f.opReg, regIsSrc := src, regIsDst := !src }

/-- A string instruction; the repeated form has no memory uops. -/
def stringOp (kind : Nat) : Decoded :=
  { f.start with
    cls := .mov, hasModrm := false, strKind := kind, repPrefixed := f.o.pfx.pF3 || f.o.pfx.pF2 }

/-- A move of `reg` into rm, or of rm into `reg`. -/
def moveTo (rfReg rfRm : RegFile) (cls : OpClass) (toRm : Bool) : Decoded :=
  { f.setRegIds rfReg rfRm with
    cls := cls, isPureMove := true, regIsSrc := toRm, rmIsDst := toRm, regIsDst := !toRm, rmIsSrc := !toRm,
    mem := f.ifMem (if toRm then .store else .load) }

/-- An instruction that reads rm and writes `reg`, and reads it first if `regSrc`. -/
def intoReg (rfReg rfRm : RegFile) (cls : OpClass) (regSrc : Bool) : Decoded :=
  { f.setRegIds rfReg rfRm with
    cls := cls, regIsSrc := regSrc, regIsDst := true, rmIsSrc := true, mem := f.ifMem .load }

def oneByte : Decoded :=
  let op := f.o.op
  if op = 0x8D then { f.setRegIds .gpr .gpr with cls := .lea, regIsDst := true, mem := .lea }
  else if op < 0x40 then f.arith
  else if op = 0x88 ∨ op = 0x89 then f.moveTo .gpr .gpr .mov true
  else if op = 0x8A ∨ op = 0x8B then f.moveTo .gpr .gpr .mov false
  else if op = 0x80 ∨ op = 0x81 ∨ op = 0x83 then f.group1
  else if op = 0x69 ∨ op = 0x6B then { f.intoReg .gpr .gpr .imul false with writesFlags := true }
  else if op = 0xA8 ∨ op = 0xA9 then
    { f.start with cls := .alu, hasModrm := false, writesFlags := true, regId := gprId 0, regIsSrc := true }
  else if 0xB0 ≤ op ∧ op ≤ 0xBF then f.moveOpReg false .none
  else if op = 0x86 ∨ op = 0x87 then
    { f.setRegIds .gpr .gpr with
      cls := .mov, regIsSrc := true, regIsDst := true, rmIsSrc := true, rmIsDst := true, mem := f.ifMem .rmw }
  else if op = 0x63 then f.moveTo .gpr .gpr .mov false
  else if op = 0x84 ∨ op = 0x85 then
    { f.setRegIds .gpr .gpr with
      cls := .alu, writesFlags := true, regIsSrc := true, rmIsSrc := true, mem := f.ifMem .load }
  else if op = 0xC6 ∨ op = 0xC7 then
    { f.setRegIds .gpr .gpr with cls := .mov, isPureMove := true, rmIsDst := true, mem := f.ifMem .store }
  else if op = 0xC0 ∨ op = 0xC1 ∨ (0xD0 ≤ op ∧ op ≤ 0xD3) then
    { f.setRegIds .gpr .gpr with
      cls := .alu, writesFlags := true, rmIsSrc := true, rmIsDst := true, mem := f.ifMem .rmw }
  else if op = 0xF6 ∨ op = 0xF7 then f.group3
  else if op = 0xFF then f.group5
  else if 0x50 ≤ op ∧ op ≤ 0x57 then f.moveOpReg true .store
  else if 0x58 ≤ op ∧ op ≤ 0x5F then f.moveOpReg false .load
  else if op = 0x68 ∨ op = 0x6A then { f.start with cls := .mov, isPureMove := true, mem := .store }
  else if op = 0xC3 ∨ op = 0xC2 then { f.start with cls := .branch, mem := .load }
  else if op = 0xC9 then
    { f.start with cls := .mov, isPureMove := true, mem := .load, regId := gprId 5, regIsDst := true }
  else if op = 0xE8 then { f.start with cls := .branch, mem := .store }
  else if op = 0xE9 ∨ op = 0xEB then { f.start with cls := .branch }
  else if op = 0x90 then { f.start with cls := .nop }
  else if 0x91 ≤ op ∧ op ≤ 0x97 then
    { f.start with
      cls := .mov, regId := f.opReg, regIsSrc := true, regIsDst := true, rmRegId := gprId 0, rmIsSrc := true,
      rmIsDst := true }
  else if op = 0x98 ∨ op = 0x99 then
    { f.start with cls := .alu, regId := gprId 0, regIsSrc := true, regIsDst := true }
  else if op = 0xA4 ∨ op = 0xA5 then f.stringOp 1
  else if op = 0xAA ∨ op = 0xAB then f.stringOp 2
  else if op = 0xAC ∨ op = 0xAD then f.stringOp 3
  else if 0x70 ≤ op ∧ op ≤ 0x7F then { f.start with cls := .branch, readsFlags := true }
  else { f.start with cls := .generic, approx := true }

/-! ## The 0F map -/

/-- Packed-integer compare, add, subtract, minimum and maximum, and the sum of absolute differences. -/
def packedAlu (op : Nat) : Prop :=
  op ∈ [0x74, 0x75, 0x76, 0x64, 0x65, 0x66, 0xFC, 0xFD, 0xFE, 0xD4, 0xF8, 0xF9, 0xFA, 0xFB, 0xEC, 0xED, 0xDC, 0xDD,
    0xE8, 0xE9, 0xD8, 0xD9, 0xDA, 0xDE, 0xEA, 0xEE, 0xF6]

def packedLogic (op : Nat) : Prop := op ∈ [0xEF, 0xEB, 0xDB, 0xDF]

def packedMul (op : Nat) : Prop := op ∈ [0xD5, 0xE4, 0xE5, 0xF4, 0xF5]

/-- Packed shifts by a register or by memory. -/
def packedShift (op : Nat) : Prop := op ∈ [0xD1, 0xD2, 0xD3, 0xE1, 0xE2, 0xF1, 0xF2, 0xF3]

def packedShiftImm (op : Nat) : Prop := op ∈ [0x71, 0x72, 0x73]

/-- Unpack, pack and shuffle of packed integers. -/
def packedShuffle (op : Nat) : Prop :=
  op ∈ [0x60, 0x61, 0x62, 0x63, 0x67, 0x68, 0x69, 0x6A, 0x6B, 0x6C, 0x6D, 0x70]

/-- Shuffle and unpack of packed singles and doubles. -/
def fpShuffle (op : Nat) : Prop := op ∈ [0xC6, 0x14, 0x15]

instance : DecidablePred packedAlu := fun op => by unfold packedAlu; infer_instance
instance : DecidablePred packedLogic := fun op => by unfold packedLogic; infer_instance
instance : DecidablePred packedMul := fun op => by unfold packedMul; infer_instance
instance : DecidablePred packedShift := fun op => by unfold packedShift; infer_instance
instance : DecidablePred packedShiftImm := fun op => by unfold packedShiftImm; infer_instance
instance : DecidablePred packedShuffle := fun op => by unfold packedShuffle; infer_instance
instance : DecidablePred fpShuffle := fun op => by unfold fpShuffle; infer_instance

/-- An SSE arithmetic instruction of the census kind `kind`. -/
def sseArith (cls : OpClass) (regSrc : Bool) (kind : Nat) : Decoded :=
  { f.intoReg .vec .vec cls regSrc with fpLanes := f.sseLanes, fpCat1 := f.sseCat1 kind }

/-- A read, modify and write of rm with `reg` as a source, atomic where it is in memory. -/
def atomicRmw (regDst : Bool) : Decoded :=
  { f.setRegIds .gpr .gpr with
    cls := .alu, writesFlags := true, regIsSrc := true, regIsDst := regDst, rmIsSrc := true, rmIsDst := true,
    mem := f.ifMem .rmw, fence := f.o.pfx.pLock || f.x.memOperand }

/-- Bit test with an immediate; the extensions from 5 on also write. -/
def group8 : Decoded :=
  { f.setRm .gpr with
    cls := .alu, writesFlags := true, rmIsSrc := true, rmIsDst := 5 ≤ f.ext,
    mem := f.ifMem (if 5 ≤ f.ext then .rmw else .load) }

def twoByte : Decoded :=
  let op := f.o.op
  if op = 0x10 ∨ op = 0x28 ∨ op = 0x6F then f.moveTo .vec .vec .vecmov false
  else if op = 0x11 ∨ op = 0x29 ∨ op = 0x7F then f.moveTo .vec .vec .vecmov true
  else if op = 0xD6 then f.moveTo .vec .vec .vecmov true
  else if op = 0x2E ∨ op = 0x2F then
    { f.setRegIds .vec .vec with
      cls := .vecalu, writesFlags := true, regIsSrc := true, rmIsSrc := true, mem := f.ifMem .load }
  else if 0x54 ≤ op ∧ op ≤ 0x57 then f.intoReg .vec .vec .vecmov true
  else if op = 0x51 then f.sseArith .fdiv false 2
  else if op = 0x58 ∨ op = 0x5C then f.sseArith .fadd true 0
  else if op = 0x5D ∨ op = 0x5F then f.intoReg .vec .vec .fadd true
  else if op = 0x59 then f.sseArith .fmul true 1
  else if op = 0x5E then f.sseArith .fdiv true 2
  else if op = 0x5A ∨ op = 0x5B then f.intoReg .vec .vec .vecalu false
  else if op = 0xAF then { f.intoReg .gpr .gpr .imul true with writesFlags := true }
  else if op = 0xB6 ∨ op = 0xB7 ∨ op = 0xBE ∨ op = 0xBF then f.moveTo .gpr .gpr .mov false
  else if op = 0x1F then { f.start with cls := .nop }
  else if op = 0x2A then f.intoReg .vec .gpr .vecalu false
  else if op = 0x2C ∨ op = 0x2D then f.intoReg .gpr .vec .vecalu false
  else if op = 0x6E then f.moveTo .vec .gpr .vecmov false
  else if op = 0x7E then
    if f.o.pfx.pF3 then f.moveTo .vec .vec .vecmov false else f.moveTo .vec .gpr .vecmov true
  else if op = 0x12 ∨ op = 0x13 ∨ op = 0x16 ∨ op = 0x17 then
    f.moveTo .vec .vec .vecmov (op = 0x13 ∨ op = 0x17)
  else if 0x18 ≤ op ∧ op ≤ 0x1E then { f.start with cls := .nop }
  else if op = 0x77 then { f.start with cls := .nop }
  else if packedLogic op then { f.intoReg .vec .vec .vecmov true with vecInt := true }
  else if packedAlu op then { f.intoReg .vec .vec .vecalu true with vecInt := true }
  else if packedMul op then { f.intoReg .vec .vec .fmul true with vecInt := true }
  else if packedShift op then f.intoReg .vec .vec .vecalu true
  else if packedShiftImm op then
    { f.setRm .vec with cls := .vecalu, rmIsSrc := true, rmIsDst := true, mem := f.ifMem .load }
  else if packedShuffle op ∨ fpShuffle op then f.intoReg .vec .vec .vecalu true
  else if op = 0xD7 ∨ op = 0x50 then
    { f.setRegIds .gpr .vec with cls := .mov, regIsDst := true, rmIsSrc := true }
  else if op = 0xBC ∨ op = 0xBD then { f.intoReg .gpr .gpr .alu false with writesFlags := true }
  else if op = 0xB8 then { f.intoReg .gpr .gpr .alu false with writesFlags := true }
  else if op = 0xB0 ∨ op = 0xB1 then f.atomicRmw false
  else if op = 0xC0 ∨ op = 0xC1 then f.atomicRmw true
  else if op = 0xA3 then
    { f.setRegIds .gpr .gpr with
      cls := .alu, writesFlags := true, regIsSrc := true, rmIsSrc := true, mem := f.ifMem .load }
  else if op = 0xAB ∨ op = 0xB3 ∨ op = 0xBB then
    { f.setRegIds .gpr .gpr with
      cls := .alu, writesFlags := true, regIsSrc := true, rmIsSrc := true, rmIsDst := true, mem := f.ifMem .rmw }
  else if op = 0xBA then f.group8
  else if 0x40 ≤ op ∧ op ≤ 0x4F then { f.intoReg .gpr .gpr .mov true with readsFlags := true }
  else if 0x90 ≤ op ∧ op ≤ 0x9F then
    { f.setRegIds .gpr .gpr with cls := .mov, readsFlags := true, rmIsDst := true, mem := f.ifMem .store }
  else if 0x80 ≤ op ∧ op ≤ 0x8F then { f.start with cls := .branch, readsFlags := true }
  else { f.intoReg .vec .vec .vecalu true with vecInt := true, approx := true }

/-! ## The three-byte maps -/

/-- bzhi, pext and pdep: here the third operand is a general register. -/
def bitDeposit : Decoded :=
  let d := f.intoReg .gpr .gpr (if f.o.pfx.pF3 || f.o.pfx.pF2 then .imul else .alu) false
  { d with
    vvvvId := if d.vvvvId ≠ 0 then gprId (d.vvvvId - sbXmmBase) else d.vvvvId
    writesFlags := !f.o.pfx.pF3 && !f.o.pfx.pF2 }

/-- Lanes of a fused multiply-add: the odd low nibbles are scalar, VEX.W is double. -/
def fmaLanes : Nat :=
  let lo := f.o.op % 16
  if lo = 0x9 ∨ lo = 0xB ∨ lo = 0xD ∨ lo = 0xF then 1
  else (if f.o.vexW then 2 else 4) * (if f.o.vexL then 2 else 1)

def threeByte38 : Decoded :=
  let op := f.o.op
  if op = 0xF5 then f.bitDeposit
  else if op = 0x78 ∨ op = 0x79 then f.moveTo .vec .vec .vecmov false
  else if 0x96 ≤ op ∧ op ≤ 0xBF then
    { f.intoReg .vec .vec .fma true with fpLanes := f.fmaLanes, fpCat1 := (if f.o.vexW then 5 else 4) + 1 }
  else { f.intoReg .vec .vec .vecalu false with approx := true }

def threeByte3A : Decoded := { f.intoReg .vec .vec .vecalu false with approx := true }

/-! ## The tables together -/

/-- x87, opcodes D8 to DF. -/
def x87 : Decoded :=
  { f.start with cls := .fadd, approx := true, fpCat1 := 8 + 1, fpLanes := 1, mem := f.ifMem .load }

/-- The tables in the source's order. The one-byte table has a default of its own, so what follows the tables is
never reached from it. -/
def classify : Decoded :=
  if f.o.map = .oneByte then f.oneByte
  else if f.o.map = .map0F then f.twoByte
  else if f.o.map = .map0F38 then f.threeByte38
  else if f.o.map = .map0F3A then f.threeByte3A
  else if f.o.map = .oneByte ∧ 0xD8 ≤ f.o.op ∧ f.o.op ≤ 0xDF then f.x87
  else { f.start with cls := .generic, approx := true }

end Pimid.X86.Front

namespace Pimid.X86

/-- The decoder on one instruction; none is a read outside of its bytes. -/
def decodeOne (b : List UInt8) : Option Decoded :=
  (fetch b).bind fun r =>
    match r with
    | .ended cls => some { cls := cls }
    | .opcode o => (operands b o).bind fun x => some (Front.classify ⟨o, x⟩)

end Pimid.X86
