import Pimid.Core.Uops
import Mathlib.Tactic.SplitIfs

/-!
# The instruction decoder

Under QEMU only the raw bytes of an instruction are seen. The decoder reads the prefixes, the opcode and the
ModRM and SIB bytes and fills a record of roles (which operand is read, which is written, what the memory
operand does) for the uops. An instruction is the list of its bytes, so a read outside of it has no value;
`decodeOne` has one for every list of bytes.
-/

namespace Pimid.X86

/-! ## Register numbers -/

def regLast : Nat := 512
def sbNone : Nat := 0
def sbGprBase : Nat := 1
def sbFlags : Nat := 17
def sbXmmBase : Nat := 64

def gprId (r : Nat) : Nat := sbGprBase + r % 32
def xmmId (r : Nat) : Nat := sbXmmBase + r % 32

/-- Temporaries are numbered above the architectural registers. -/
def regLoadTemp : Nat := regLast + 1
def regExecTemp : Nat := regLoadTemp + 4 + 4 + 4
def maxRegisters : Nat := regExecTemp + 64

inductive OpClass where
  | alu | mov | lea | imul | idiv | fadd | fmul | fdiv | fma | vecmov | vecalu | branch | nop | generic
  deriving DecidableEq, Repr

/-- What the memory operand is for; `lea` computes the address only. -/
inductive MemRole where
  | none | load | store | rmw | lea
  deriving DecidableEq, Repr

inductive RegFile where
  | gpr | vec
  deriving DecidableEq, Repr

def RegFile.id : RegFile → Nat → Nat
  | .vec, r => xmmId r
  | .gpr, r => gprId r

/-- The opcode maps: one byte, 0F, 0F38 and 0F3A. -/
inductive OpMap where
  | oneByte | map0F | map0F38 | map0F3A
  deriving DecidableEq, Repr

def OpMap.idx : OpMap → Nat
  | .oneByte => 0
  | .map0F => 1
  | .map0F38 => 2
  | .map0F3A => 3

/-- What one instruction decodes to. -/
structure Decoded where
  cls : OpClass := .generic
  mem : MemRole := .none
  hasModrm : Bool := false
  isPureMove : Bool := false
  vecInt : Bool := false
  regIsSrc : Bool := false
  regIsDst : Bool := false
  rmIsSrc : Bool := false
  rmIsDst : Bool := false
  readsFlags : Bool := false
  writesFlags : Bool := false
  approx : Bool := false
  fence : Bool := false
  fpCat1 : Nat := 0
  fpLanes : Nat := 0
  intW : Nat := 0
  gp3 : Nat := 0
  strKind : Nat := 0
  repPrefixed : Bool := false
  regId : Nat := sbNone
  rmRegId : Nat := sbNone
  baseId : Nat := sbNone
  indexId : Nat := sbNone
  vvvvId : Nat := sbNone
  dbgMapIdx : Nat := 0
  dbgOp : Nat := 0
  dbgReg : Nat := 0
  deriving DecidableEq, Repr

/-! ## Prefixes and opcode -/

/-- Byte `i` of the instruction; none is a read outside of it. -/
def rd (b : List UInt8) (i : Nat) : Option Nat := b[i]?.map UInt8.toNat

structure Prefixes where
  p66 : Bool := false
  pF2 : Bool := false
  pF3 : Bool := false
  pLock : Bool := false
  deriving DecidableEq, Repr

/-- Segment and address-size prefixes are skipped. -/
def skipped (c : Nat) : Prop :=
  c = 0x67 ∨ c = 0x2E ∨ c = 0x36 ∨ c = 0x3E ∨ c = 0x26 ∨ c = 0x64 ∨ c = 0x65

instance : DecidablePred skipped := fun c => by unfold skipped; infer_instance

/-- One turn of the prefix loop: the flags with the prefix `c`, or none where the loop breaks. -/
def Prefixes.add (p : Prefixes) (c : Nat) : Option Prefixes :=
  if c = 0x66 then some { p with p66 := true }
  else if c = 0xF2 then some { p with pF2 := true }
  else if c = 0xF3 then some { p with pF3 := true }
  else if c = 0xF0 then some { p with pLock := true }
  else if skipped c then some p
  else none

/-- The loop over the legacy prefixes; the fuel is the number of bytes left. -/
def legacyPrefixes (b : List UInt8) : Nat → Nat → Prefixes → Option (Nat × Prefixes)
  | 0, i, p => some (i, p)
  | fuel + 1, i, p =>
    if i < b.length then
      (rd b i).bind fun c =>
        match p.add c with
        | some p' => legacyPrefixes b fuel (i + 1) p'
        | none => some (i, p)
    else some (i, p)

/-- The opcode with what its prefixes say; `next` is the byte after it. -/
structure Opcode where
  next : Nat
  map : OpMap
  op : Nat
  rex : Nat
  vex : Bool
  vvvv : Nat
  vexW : Bool
  vexL : Bool
  pfx : Prefixes
  deriving DecidableEq, Repr

/-- The bytes end before the opcode, or there is an opcode. -/
inductive Fetched where
  | ended (cls : OpClass)
  | opcode (o : Opcode)
  deriving DecidableEq, Repr

/-- The mandatory prefix a VEX prefix stands for replaces the legacy ones. -/
def vexPrefixes (p : Prefixes) (v : Nat) : Prefixes :=
  { p66 := v % 4 = 1, pF3 := v % 4 = 2, pF2 := v % 4 = 3, pLock := p.pLock }

/-- After a two-byte VEX prefix at `i`. -/
def fetchVex2 (b : List UInt8) (i : Nat) (p : Prefixes) : Option Fetched :=
  (rd b (i + 1)).bind fun v1 =>
    if b.length ≤ i + 2 then some (.ended .generic)
    else (rd b (i + 2)).bind fun op =>
      some (.opcode
        { next := i + 3, map := .map0F, op := op, rex := if v1 / 128 = 0 then 4 else 0, vex := true,
          vvvv := 15 - v1 / 8 % 16, vexW := false, vexL := v1 / 4 % 2 = 1, pfx := vexPrefixes p v1 })

def vexMap (v1 : Nat) : OpMap :=
  if v1 % 32 = 2 then .map0F38 else if v1 % 32 = 3 then .map0F3A else .map0F

/-- After a three-byte VEX prefix at `i`. -/
def fetchVex3 (b : List UInt8) (i : Nat) (p : Prefixes) : Option Fetched :=
  (rd b (i + 1)).bind fun v1 => (rd b (i + 2)).bind fun v2 =>
    if b.length ≤ i + 3 then some (.ended .generic)
    else (rd b (i + 3)).bind fun op =>
      some (.opcode
        { next := i + 4, map := vexMap v1, op := op,
          rex := (if v1 / 128 = 0 then 4 else 0) + (if v1 / 64 % 2 = 0 then 2 else 0) +
            (if v1 / 32 % 2 = 0 then 1 else 0),
          vex := true, vvvv := 15 - v2 / 8 % 16, vexW := v2 / 128 % 2 = 1, vexL := v2 / 4 % 2 = 1,
          pfx := vexPrefixes p v2 })

def plainOpcode (next : Nat) (map : OpMap) (op rex : Nat) (p : Prefixes) : Fetched :=
  .opcode { next := next, map := map, op := op, rex := rex, vex := false, vvvv := 0, vexW := false, vexL := false,
            pfx := p }

/-- The opcode after an optional REX prefix. -/
def fetchMap (b : List UInt8) (i rex : Nat) (p : Prefixes) : Option Fetched :=
  if b.length ≤ i then some (.ended .generic)
  else (rd b i).bind fun c =>
    if c = 0x0F then
      if b.length ≤ i + 1 then some (.ended .generic)
      else (rd b (i + 1)).bind fun c1 =>
        if c1 = 0x38 ∨ c1 = 0x3A then
          if b.length ≤ i + 2 then some (.ended .generic)
          else (rd b (i + 2)).bind fun op =>
            some (plainOpcode (i + 3) (if c1 = 0x38 then .map0F38 else .map0F3A) op rex p)
        else some (plainOpcode (i + 2) .map0F c1 rex p)
    else some (plainOpcode (i + 1) .oneByte c rex p)

/-- The opcode where there is no VEX prefix. -/
def fetchRex (b : List UInt8) (i : Nat) (p : Prefixes) : Option Fetched :=
  if i < b.length then
    (rd b i).bind fun c =>
      if 0x40 ≤ c ∧ c ≤ 0x4F then fetchMap b (i + 1) (c % 16) p else fetchMap b i 0 p
  else fetchMap b i 0 p

def fetch (b : List UInt8) : Option Fetched :=
  (legacyPrefixes b b.length 0 {}).bind fun (i, p) =>
    if b.length ≤ i then some (.ended .nop)
    else (rd b i).bind fun c =>
      if c = 0xC5 ∧ i + 1 < b.length then fetchVex2 b i p
      else if c = 0xC4 ∧ i + 2 < b.length then fetchVex3 b i p
      else fetchRex b i p

/-! ## Operands -/

/-- One-byte opcodes without a ModRM byte, as far as they are classified. -/
def noModrmOne (op : Nat) : Prop :=
  (0x50 ≤ op ∧ op ≤ 0x5F) ∨ (0xB0 ≤ op ∧ op ≤ 0xBF) ∨ op = 0x68 ∨ op = 0x6A ∨ op = 0xE8 ∨ op = 0xE9 ∨
    op = 0xEB ∨ (0x70 ≤ op ∧ op ≤ 0x7F) ∨ op = 0xC3 ∨ op = 0xC2 ∨ op = 0xC9 ∨ op = 0x90 ∨ op = 0x99 ∨
    op = 0x98 ∨ (0x04 ≤ op ∧ op ≤ 0x05) ∨ op = 0xCC

def noModrm0F (op : Nat) : Prop :=
  (0x80 ≤ op ∧ op ≤ 0x8F) ∨ op = 0x05 ∨ op = 0x0B ∨ op = 0x31 ∨ op = 0x77 ∨ op = 0xA2 ∨ op = 0x0E

instance : DecidablePred noModrmOne := fun op => by unfold noModrmOne; infer_instance
instance : DecidablePred noModrm0F := fun op => by unfold noModrm0F; infer_instance

def Opcode.hasModrm (o : Opcode) : Bool :=
  match o.map with
  | .oneByte => ¬ noModrmOne o.op
  | .map0F => ¬ noModrm0F o.op
  | _ => true

def Opcode.rexR (o : Opcode) : Bool := o.rex / 4 % 2 = 1
def Opcode.rexX (o : Opcode) : Bool := o.rex / 2 % 2 = 1
def Opcode.rexB (o : Opcode) : Bool := o.rex % 2 = 1

/-- A three-bit register field with its REX bit. -/
def field (bits : Nat) (ext : Bool) : Nat := bits % 8 + if ext then 8 else 0

/-- What ModRM and SIB say; without them the operands are registers 0. -/
structure Operands where
  reg : Nat := 0
  rm : Nat := 0
  memOperand : Bool := false
  baseId : Nat := sbNone
  indexId : Nat := sbNone
  deriving DecidableEq, Repr

/-- The memory operand of a ModRM byte `m` that has a SIB byte `s`. -/
def sibOperands (o : Opcode) (m s : Nat) (x : Operands) : Operands :=
  { x with
    indexId := if s / 8 % 8 ≠ 4 then gprId (field (s / 8) o.rexX) else x.indexId
    baseId := if m / 64 = 0 ∧ s % 8 = 5 then sbNone else gprId (field s o.rexB) }

def operands (b : List UInt8) (o : Opcode) : Option Operands :=
  if o.hasModrm ∧ o.next < b.length then
    (rd b o.next).bind fun m =>
      let x : Operands := { reg := field (m / 8) o.rexR, rm := field m o.rexB, memOperand := m / 64 ≠ 3 }
      if m / 64 ≠ 3 then
        if m % 8 = 4 then
          if o.next + 1 < b.length then (rd b (o.next + 1)).bind fun s => some (sibOperands o m s x)
          else some x
        else if m / 64 = 0 ∧ m % 8 = 5 then some { x with baseId := sbNone }
        else some { x with baseId := gprId x.rm }
      else some x
  else some {}

/-! ## Classes -/

/-- An opcode with its operands, as the tables see it. -/
structure Front where
  o : Opcode
  x : Operands
  deriving DecidableEq, Repr

namespace Front

variable (f : Front)

/-- The extension in ModRM.reg. -/
def ext : Nat := f.x.reg % 8

/-- Operand size in bits. -/
def intW : Nat :=
  if f.o.vex then if f.o.vexW then 64 else 32
  else if f.o.rex / 8 % 2 = 1 then 64 else if f.o.pfx.p66 then 16 else 32

/-- The record before the tables. -/
def start : Decoded :=
  { hasModrm := f.o.hasModrm, intW := f.intW,
    vvvvId := if f.o.vvvv ≠ 0 then xmmId f.o.vvvv else sbNone,
    baseId := f.x.baseId, indexId := f.x.indexId,
    dbgMapIdx := f.o.map.idx, dbgOp := f.o.op, dbgReg := f.ext, fence := f.o.pfx.pLock }

/-- Both operands are named, in the register files given; the rm operand only where it is a register. -/
def setRegIds (rfReg rfRm : RegFile) : Decoded :=
  { f.start with
    regId := rfReg.id f.x.reg
    rmRegId := if f.x.memOperand then sbNone else rfRm.id f.x.rm }

/-- The rm operand alone is named; ModRM.reg extends the opcode. -/
def setRm (rfRm : RegFile) : Decoded :=
  { f.start with regId := sbNone, rmRegId := if f.x.memOperand then sbNone else rfRm.id f.x.rm }

/-- The role `r` where there is a memory operand. -/
def ifMem (r : MemRole) : MemRole := if f.x.memOperand then r else .none

/-- The register in the low bits of the opcode. -/
def opReg : Nat := gprId (field f.o.op f.o.rexB)

/-- SSE precision: a double from F2, or from 66 without F3. -/
def dbl : Bool := f.o.pfx.pF2 || (f.o.pfx.p66 && !f.o.pfx.pF3)

/-- Scalar operations of an SSE arithmetic instruction. -/
def sseLanes : Nat :=
  if f.o.pfx.pF3 || f.o.pfx.pF2 then 1 else (if f.dbl then 2 else 4) * (if f.o.vexL then 2 else 1)

/-- Census category + 1 of SSE arithmetic: kind 0 adds, 1 multiplies, 2 divides. -/
def sseCat1 (kind : Nat) : Nat :=
  (if kind = 0 then if f.dbl then 2 else 0 else if kind = 1 then if f.dbl then 3 else 1
    else if f.dbl then 7 else 6) + 1

end Front

end Pimid.X86
