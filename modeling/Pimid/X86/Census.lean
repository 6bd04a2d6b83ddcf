import Mathlib.Algebra.BigOperators.Group.Finset.Basic
import Mathlib.Algebra.Order.BigOperators.Group.Finset
import Pimid.X86.Emit

/-!
# The census of a block

`createDecodedBblInfo` decodes the instructions of a block one after another, appends their uops, and counts each
instruction once by its class.
-/

namespace Pimid.X86

open Pimid.Core (DynUop UopType)

/-- The class counters: integer, multiplication and division, floating point, branch. -/
inductive Bucket where
  | int | mul | fp | br
  deriving DecidableEq, Repr

namespace Decoded

variable (d : Decoded)

def bucket : Bucket :=
  match d.cls with
  | .imul | .idiv => .mul
  | .fmul => if d.vecInt then .mul else .fp
  | .vecalu | .vecmov => if d.vecInt then .int else .fp
  | .fadd | .fdiv | .fma => .fp
  | .branch => .br
  | _ => .int

/-- A pure vector move, counted by form besides its class. -/
def isVecMove : Bool := d.cls = .vecmov ∧ d.vecInt = false ∧ d.isPureMove

/-- Opcodes that work on bytes. -/
def byteForm : Prop :=
  (d.dbgMapIdx = 0 ∧ ((d.dbgOp < 0x40 ∧ d.dbgOp % 2 = 0 ∧ d.dbgOp % 8 ≤ 4) ∨
    d.dbgOp ∈ [0x80, 0x82, 0x84, 0xA8, 0xC0, 0xD0, 0xD2, 0xF6, 0xFE])) ∨
  (d.dbgMapIdx = 1 ∧ d.dbgOp ∈ [0xB0, 0xC0])

instance : Decidable d.byteForm := by unfold byteForm; infer_instance

def intWidth : Nat :=
  if d.byteForm then 0 else if d.intW = 64 then 3 else if d.intW = 16 then 1 else 2

/-- The integer census category + 1; 0 is not counted. -/
def intCensusCat : Nat :=
  if d.cls = .alu then d.intWidth + 1
  else if d.cls = .imul ∧ d.dbgMapIdx ≠ 2 then 4 + d.intWidth + 1
  else if d.cls = .idiv then 8 + 1
  else 0

/-- The decode signature: two bits of map, eight of opcode, three of extension. -/
def dbgKey : Nat := d.dbgMapIdx % 4 * 2048 + d.dbgOp * 8 + d.dbgReg % 8

end Decoded

/-- Operations by category: instructions and lanes of floating point, and integer operations. -/
structure FpOpCensus where
  ins : Nat → Nat := fun _ => 0
  lanes : Nat → Nat := fun _ => 0
  iops : Nat → Nat := fun _ => 0

def fpCensusCats : Nat := 9
def intCensusCats : Nat := 9

def bump (f : Nat → Nat) (k n : Nat) : Nat → Nat := fun j => if j = k then f j + n else f j

/-- The counters of the loop over the instructions. -/
structure Building where
  uops : List DynUop := []
  cInt : Nat := 0
  cMul : Nat := 0
  cFp : Nat := 0
  cBr : Nat := 0
  cLd : Nat := 0
  cSt : Nat := 0
  cVmR : Nat := 0
  cVmL : Nat := 0
  cVmS : Nat := 0
  fpc : FpOpCensus := {}
  anyFpc : Bool := false
  repInstrs : Nat := 0
  approx : Nat := 0
  approxKeys : List Nat := []

def decWidth : Nat := 4

namespace Building

variable (s : Building) (d : Decoded)

/-- The uops of `d`, in the decode group the uops before them end in. -/
def emit : Building :=
  let e := d.emitUops (s.uops.length / decWidth)
  { s with uops := s.uops ++ e.uops, cLd := s.cLd + e.loads, cSt := s.cSt + e.stores }

def countClass : Building :=
  match d.bucket with
  | .int => { s with cInt := s.cInt + 1 }
  | .mul => { s with cMul := s.cMul + 1 }
  | .fp => { s with cFp := s.cFp + 1 }
  | .br => { s with cBr := s.cBr + 1 }

def countMove : Building :=
  if d.isVecMove then
    match d.mem with
    | .load => { s with cVmL := s.cVmL + 1 }
    | .store => { s with cVmS := s.cVmS + 1 }
    | _ => { s with cVmR := s.cVmR + 1 }
  else s

def countFp : Building :=
  if d.fpCat1 ≠ 0 ∧ d.vecInt = false then
    { s with
      fpc := { s.fpc with
        ins := bump s.fpc.ins (d.fpCat1 - 1) 1
        lanes := bump s.fpc.lanes (d.fpCat1 - 1) d.fpLanes }
      anyFpc := true }
  else s

def countInt : Building :=
  if d.intCensusCat ≠ 0 then
    { s with fpc := { s.fpc with iops := bump s.fpc.iops (d.intCensusCat - 1) 1 }, anyFpc := true }
  else s

def countApprox : Building :=
  let s := if d.strKind ≠ 0 ∧ d.repPrefixed then { s with repInstrs := s.repInstrs + 1 } else s
  if d.approx ∨ d.cls = .generic then
    { s with approx := s.approx + 1, approxKeys := s.approxKeys ++ [d.dbgKey] }
  else s

/-- One turn of the loop. -/
def add : Building :=
  ((((s.emit d).countClass d).countMove d).countFp d).countInt d |>.countApprox d

/-- The whole loop; none where a read left an instruction. -/
def addAll (s : Building) : List (List UInt8) → Option Building
  | [] => some s
  | b :: bs => (decodeOne b).bind fun d => (s.add d).addAll bs

end Building

def sat16 (v : Nat) : Nat := if 0xFFFF < v then 0xFFFF else v
def sat8 (v : Nat) : Nat := if 0xFF < v then 0xFF else v

structure BblInfo where
  addr : Nat
  instrs : Nat
  bytes : Nat
  nInt : Nat
  nMul : Nat
  nFp : Nat
  nBr : Nat
  nLoad : Nat
  nStore : Nat
  nVmovReg : Nat
  nVmovLd : Nat
  nVmovSt : Nat
  approxInstrs : Nat
  repInstrs : Nat
  /-- The census stored for the block, where it has any. -/
  census : Option FpOpCensus
  uops : List DynUop
  approxKeys : List Nat

def Building.finish (s : Building) (bblAddr nInsns tbBytes : Nat) : BblInfo :=
  { addr := bblAddr, instrs := nInsns, bytes := tbBytes,
    nInt := sat16 s.cInt, nMul := sat16 s.cMul, nFp := sat16 s.cFp, nBr := sat16 s.cBr,
    nLoad := sat16 s.cLd, nStore := sat16 s.cSt,
    nVmovReg := sat8 s.cVmR, nVmovLd := sat8 s.cVmL, nVmovSt := sat8 s.cVmS,
    approxInstrs := sat16 s.approx, repInstrs := sat16 s.repInstrs,
    census := if s.anyFpc then some s.fpc else none, uops := s.uops, approxKeys := s.approxKeys }

def createDecodedBblInfo (bblAddr : Nat) (insns : List (List UInt8)) (tbBytes : Nat) : Option BblInfo :=
  (Building.addAll {} insns).map fun s => s.finish bblAddr insns.length tbBytes

end Pimid.X86
