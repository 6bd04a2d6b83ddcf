import Pimid.X86.Classes

/-!
# The uops of an instruction

`emitUops` turns a decoded instruction into uops with two source and two destination slots each. The slots are
filled in a fixed order, and what comes when they are full is not recorded.
-/

namespace Pimid.X86

open Pimid.Core (DynUop UopType)

/-! ## Ports and classes -/

def p0 : Nat := 0x01
def p1 : Nat := 0x02
def p2 : Nat := 0x04
def p4 : Nat := 0x10
def p5 : Nat := 0x20
def portsAlu : Nat := p0 + p1 + p5
def portsFadd : Nat := p1
def portsFmul : Nat := p0
def portsFma : Nat := p0 + p1
def portsFdiv : Nat := p0
def portsImul : Nat := p0
def portsLoad : Nat := p2
def portsStore : Nat := p4
def portsBr : Nat := p5

structure ClassInfo where
  lat : Nat
  port : Nat
  extraSlots : Nat
  deriving DecidableEq, Repr

def classInfo : OpClass → ClassInfo
  | .alu => ⟨1, portsAlu, 0⟩
  | .mov => ⟨1, portsAlu, 0⟩
  | .lea => ⟨1, p0 + p1, 0⟩
  | .imul => ⟨3, portsImul, 0⟩
  | .idiv => ⟨20, portsImul, 9⟩
  | .fadd => ⟨3, portsFadd, 0⟩
  | .fmul => ⟨5, portsFmul, 0⟩
  | .fdiv => ⟨20, portsFdiv, 9⟩
  | .fma => ⟨5, portsFma, 0⟩
  | .vecmov => ⟨1, portsAlu, 0⟩
  | .vecalu => ⟨3, portsFadd, 0⟩
  | .branch => ⟨1, portsBr, 0⟩
  | .nop => ⟨1, portsAlu, 0⟩
  | .generic => ⟨1, portsAlu, 0⟩

/-- A uop; a port mask of 0 would hang the scheduler and is replaced. -/
def pushUop (type : UopType) (rs0 rs1 rd0 rd1 lat port extraSlots decCycle : Nat) : DynUop :=
  { rs0 := rs0, rs1 := rs1, rd0 := rd0, rd1 := rd1, lat := lat, type := type,
    portMask := if port ≠ 0 then port else portsAlu, extraSlots := extraSlots, decCycle := decCycle % 2 ^ 16 }

/-! ## Slots -/

/-- Fill the next slot with `r`, if it is a register and a slot is free. -/
def addSlot (l : List Nat) (r : Nat) : List Nat := if r ≠ 0 ∧ l.length < 2 then l ++ [r] else l

/-- The register in slot `k`. -/
def slot (l : List Nat) (k : Nat) : Nat := l.getD k sbNone

/-! ## Emission -/

/-- What one call appends to the block, and the memory uops it counted. -/
structure Emitted where
  uops : List DynUop
  loads : Nat := 0
  stores : Nat := 0
  deriving DecidableEq, Repr

namespace Decoded

variable (d : Decoded) (dec : Nat)

def doLoad : Bool := d.mem = .load ∨ d.mem = .rmw
def doStore : Bool := d.mem = .store ∨ d.mem = .rmw

/-- A uop of the instruction's own class. -/
def classUop (rs0 rs1 rd0 rd1 : Nat) : DynUop :=
  pushUop .general rs0 rs1 rd0 rd1 (classInfo d.cls).lat (classInfo d.cls).port (classInfo d.cls).extraSlots dec

/-- The load of the memory operand into `rd`. -/
def loadUop (rd : Nat) : DynUop :=
  pushUop .load d.baseId d.indexId rd sbNone 0 portsLoad 0 dec

/-- The store of `val` to the memory operand. -/
def storeUop (val : Nat) : DynUop :=
  pushUop .store val d.baseId sbNone sbNone 0 portsStore 0 dec

def rax : Nat := gprId 0
def rcx : Nat := gprId 1
def rdx : Nat := gprId 2
def rsi : Nat := gprId 6
def rdi : Nat := gprId 7

/-- The repeated forms move the registers only; their accesses are drained by the core. -/
def emitRep : Emitted :=
  if d.strKind = 1 then
    { uops := [pushUop .general rcx rsi rsi sbNone 1 portsAlu 0 dec, pushUop .general rcx rdi rdi rcx 1 portsAlu 0 dec] }
  else if d.strKind = 2 then { uops := [pushUop .general rcx rdi rdi rcx 1 portsAlu 0 dec] }
  else { uops := [pushUop .general rcx rsi rsi rax 1 portsAlu 0 dec] }

/-- movs, stos and lods done once. -/
def emitString : Emitted :=
  if d.strKind = 1 then
    { uops := [pushUop .load rsi sbNone regLoadTemp rsi 0 portsLoad 0 dec,
        pushUop .store regLoadTemp rdi rdi sbNone 0 portsStore 0 dec]
      loads := 1, stores := 1 }
  else if d.strKind = 2 then
    { uops := [pushUop .store rax rdi rdi sbNone 0 portsStore 0 dec], stores := 1 }
  else { uops := [pushUop .load rsi sbNone rax rsi 0 portsLoad 0 dec], loads := 1 }

/-- The uops of a multiplication or division of the pair, with `src` as the other operand. -/
def pairUops (src : Nat) : List DynUop :=
  if d.gp3 = 2 then
    [pushUop .general rax rdx regExecTemp sbNone 1 portsAlu 0 dec, d.classUop dec regExecTemp src rax rdx]
  else if d.gp3 = 1 then [d.classUop dec rax src rax rdx]
  else [d.classUop dec rax src rax sbNone]

def emitPair : Emitted :=
  if d.doLoad then { uops := d.loadUop dec regLoadTemp :: d.pairUops dec regLoadTemp, loads := 1 }
  else { uops := d.pairUops dec d.rmRegId }

def emitMoveLoad : Emitted :=
  { uops := [d.loadUop dec (if d.regIsDst then d.regId else if d.rmIsDst then d.rmRegId else sbNone)], loads := 1 }

def emitMoveStore : Emitted :=
  { uops := [d.storeUop dec (if d.regIsSrc then d.regId else if d.rmIsSrc then d.rmRegId else sbNone)], stores := 1 }

/-- The source and destination slots of a move between registers. -/
def moveSrc : List Nat :=
  let l := if d.rmIsSrc then addSlot [] d.rmRegId else []
  if d.regIsSrc then addSlot l d.regId else l

def moveDst : List Nat :=
  let l := if d.regIsDst then addSlot [] d.regId else []
  if d.rmIsDst then addSlot l d.rmRegId else l

/-- The uop with the slots given. -/
def slotUop (src dst : List Nat) : DynUop :=
  d.classUop dec (slot src 0) (slot src 1) (slot dst 0) (slot dst 1)

def leaSrc : List Nat := addSlot (addSlot [] d.baseId) d.indexId

/-- The source slots of the general path: the loaded value or rm, then the register, the third operand of a VEX
form and the flags. -/
def computeSrc : List Nat :=
  let l := if d.mem = .load ∨ d.mem = .rmw then addSlot [] regLoadTemp else []
  let l := if d.rmIsSrc ∧ d.mem = .none then addSlot l d.rmRegId else l
  let l := if d.regIsSrc then addSlot l d.regId else l
  let l := if d.vvvvId ≠ 0 then addSlot l d.vvvvId else l
  if d.readsFlags then addSlot l sbFlags else l

/-- Its destination slots: the register, rm, the value to store and the flags. -/
def computeDst : List Nat :=
  let l := if d.regIsDst then addSlot [] d.regId else []
  let l := if d.rmIsDst ∧ d.mem = .none then addSlot l d.rmRegId else l
  let l := if d.doStore then addSlot l regLoadTemp else l
  if d.writesFlags then addSlot l sbFlags else l

def fenceUop : DynUop := pushUop .fence sbNone sbNone sbNone sbNone 1 portsAlu 0 dec

/-- Load, compute, store and fence, as far as the instruction has them. -/
def emitGeneral : Emitted :=
  { uops := (if d.doLoad then [d.loadUop dec regLoadTemp] else []) ++ [d.slotUop dec d.computeSrc d.computeDst] ++
      (if d.doStore then [d.storeUop dec regLoadTemp] else []) ++ if d.fence then [fenceUop dec] else []
    loads := if d.doLoad then 1 else 0
    stores := if d.doStore then 1 else 0 }

def emitUops : Emitted :=
  if d.strKind ≠ 0 then if d.repPrefixed then d.emitRep dec else d.emitString dec
  else if d.gp3 ≠ 0 then d.emitPair dec
  else if d.isPureMove ∧ d.mem = .load then d.emitMoveLoad dec
  else if d.isPureMove ∧ d.mem = .store then d.emitMoveStore dec
  else if d.isPureMove ∧ d.mem = .none then { uops := [d.slotUop dec d.moveSrc d.moveDst] }
  else if d.cls = .lea then { uops := [d.slotUop dec d.leaSrc (addSlot [] d.regId)] }
  else d.emitGeneral dec

end Decoded

end Pimid.X86
