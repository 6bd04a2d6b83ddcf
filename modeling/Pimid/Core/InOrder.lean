import Mathlib.Logic.Function.Basic
import Pimid.Core.Uops

/-!
# The in-order core

The core issues the uops of a block in program order against a scoreboard of register, port and slot
times. Blocks are deferred: a block is simulated when the next one arrives, with the accesses recorded
in between. Its `CoreRecorder` links the timing records of the accesses into one chain of events.

The caches, the branch predictors and the weave phase are inputs.
-/

namespace Pimid.Core

/-! ## The recorder -/

inductive RecState where
  | halted
  | running
  | draining
  deriving DecidableEq, Repr

/-- `CoreRecorder`. `checks` and `delays` are kept for the proofs: the two sides of every comparison that `recordAccess`
asserts, and the delay of every event made. -/
structure CoreRecorder where
  state : RecState
  prevRespCycle : Nat
  ownLeaveCycle : Nat
  checks : List (Nat × Nat)
  delays : List Int
  deriving DecidableEq, Repr

namespace CoreRecorder

def init : CoreRecorder := ⟨.halted, 0, 0, [], []⟩

/-- `CoreRecorder::notifyJoin`, with the cycle the phase starts at on the core's clock. -/
def notifyJoin (c : CoreRecorder) (ownClock : Bool) (phaseStart curCycle : Nat) : Nat × CoreRecorder :=
  if ownClock then
    (if c.state = .halted then phaseStart else curCycle, { c with state := .running })
  else if c.state = .halted then
    (phaseStart, { c with prevRespCycle := phaseStart, state := .running })
  else
    (curCycle, { c with state := .running })

/-- `CoreRecorder::notifyLeave`. -/
def notifyLeave (c : CoreRecorder) (ownClock : Bool) (curCycle : Nat) : CoreRecorder :=
  if ownClock then { c with state := .draining, ownLeaveCycle := curCycle }
  else
    let leaveCycle := max curCycle c.prevRespCycle
    { c with
      state := .draining, prevRespCycle := leaveCycle,
      delays := c.delays ++ [(leaveCycle : Int) - c.prevRespCycle, 0] }

/-- `CoreRecorder::record` and `recordAccess`. With a clock of its own the core may leave no record: the run stops. -/
def record (c : CoreRecorder) (ownClock : Bool) (startCycle : Nat) (tr : Option TimingRecord) : CoreRecorder :=
  match tr with
  | none => c
  | some tr =>
    if ownClock then c
    else
      { c with
        checks := c.checks ++ [(c.prevRespCycle, startCycle)]
        delays := c.delays ++ [(tr.reqCycle : Int) - c.prevRespCycle]
        -- the response of a PUT is linked to nothing
        prevRespCycle := if tr.isGet then tr.respCycle else c.prevRespCycle }

/-- `CoreRecorder::cSimStart`, with the cycle the next phase starts at. -/
def cSimStart (c : CoreRecorder) (ownClock : Bool) (nextPhase curCycle : Nat) : Nat × CoreRecorder :=
  match c.state with
  | .halted => (curCycle, c)
  | .draining => (max curCycle nextPhase, c)
  | .running =>
    if ownClock then (curCycle, c)
    else if c.prevRespCycle < curCycle then
      (curCycle, { c with
        prevRespCycle := curCycle
        delays := c.delays ++ [(curCycle : Int) - c.prevRespCycle, 0] })
    else (curCycle, { c with delays := c.delays ++ [0] })

/-- `CoreRecorder::cSimEnd`: the weave phase found the skew, and whether the last event was reached. -/
def cSimEnd (c : CoreRecorder) (ownClock : Bool) (nextPhase skew : Nat) (drained : Bool) (curCycle : Nat) :
    Nat × CoreRecorder :=
  if c.state = .halted then (curCycle, c)
  else if ownClock then
    (curCycle, if c.state = .draining ∧ c.ownLeaveCycle < nextPhase then { c with state := .halted } else c)
  else
    (curCycle + skew, { c with
      prevRespCycle := c.prevRespCycle + skew
      state := if drained then .halted else c.state })

end CoreRecorder

/-! ## The core -/

/-- What a run of the core is given. -/
structure InOrderConfig where
  issueWidth : Nat
  mispredPenalty : Nat
  resteerPenalty : Nat
  staticNotTaken : Bool
  coreHasFpu : Bool
  coreFpEmulCycles : Nat
  lineBits : Nat
  hitLatency : Nat
  ownClock : Bool
  l1 : Caches

/-- A uop that was issued, for the proofs. -/
structure Issue where
  uop : DynUop
  cycle : Nat
  port : Nat
  done : Nat
  deriving DecidableEq, Repr

/-- `InOrderCore`. The lists are kept for the proofs: the uops issued, the accesses made, and the places of `loadAddrs`
and `storeAddrs` read or written. -/
structure InOrderCore where
  curCycle : Nat
  cRec : CoreRecorder
  prevBbl : Option BblInfo
  loadAddrs : Nat → Address
  storeAddrs : Nat → Address
  loads : Nat
  stores : Nat
  regScoreboard : Nat → Nat
  portFreeCycle : Nat → Nat
  memRespCycle : Nat
  slotsUsed : Nat
  slotCycle : Nat
  maxOutstanding : Nat
  memMismatchLoads : Nat
  memMismatchStores : Nat
  repDrainedLoads : Nat
  repDrainedStores : Nat
  branchPc : Address
  branchTaken : Bool
  branchTarget : Address
  indirMispredPend : Bool
  directResteerPend : Bool
  issued : List Issue
  sent : List Access
  touched : List Nat

/-- `CtrlFlowKind`, from the indirect kinds on. -/
inductive CtrlFlowKind where
  | indJmp
  | indCall
  | ret
  | dirCall
  | dirJmp
  deriving DecidableEq, Repr

/-- What the predictors say of a block's terminating branch. -/
structure Prediction where
  dirOk : Bool
  btbHit : Bool
  deriving DecidableEq, Repr

namespace InOrderCore

variable (c : InOrderConfig)

/-- The core as it is built; what memory holds behind the buffers is arbitrary. -/
def init (memory : Nat → Address) : InOrderCore where
  curCycle := 0
  cRec := .init
  prevBbl := none
  loadAddrs := memory
  storeAddrs := memory
  loads := 0
  stores := 0
  regScoreboard := fun _ => 0
  portFreeCycle := fun _ => 0
  memRespCycle := 0
  slotsUsed := 0
  slotCycle := 0
  maxOutstanding := 0
  memMismatchLoads := 0
  memMismatchStores := 0
  repDrainedLoads := 0
  repDrainedStores := 0
  branchPc := 0
  branchTaken := false
  branchTarget := 0
  indirMispredPend := false
  directResteerPend := false
  issued := []
  sent := []
  touched := []

/-- `InOrderCore::drainPipeline`. -/
def drainPipeline (s : InOrderCore) : InOrderCore := { s with curCycle := max s.curCycle s.maxOutstanding }

/-! ### Recording -/

/-- `InOrderCore::loadAndRecord`. -/
def loadAndRecord (s : InOrderCore) (addr : Address) : InOrderCore :=
  if s.loads < 256 then
    { s with
      loadAddrs := Function.update s.loadAddrs s.loads addr, loads := s.loads + 1, touched := s.touched ++ [s.loads] }
  else { s with loads := s.loads + 1 }

/-- `InOrderCore::storeAndRecord`. -/
def storeAndRecord (s : InOrderCore) (addr : Address) : InOrderCore :=
  if s.stores < 256 then
    { s with
      storeAddrs := Function.update s.storeAddrs s.stores addr, stores := s.stores + 1,
      touched := s.touched ++ [s.stores] }
  else { s with stores := s.stores + 1 }

/-- `InOrderCore::branch`. -/
def branch (s : InOrderCore) (pc : Address) (taken : Bool) (target : Address) : InOrderCore :=
  { s with branchPc := pc, branchTaken := taken, branchTarget := target }

/-- `InOrderCore::ctrlFlow`, where `hit` is what the structure asked would answer. -/
def ctrlFlow (s : InOrderCore) (kind : CtrlFlowKind) (hit : Bool) : InOrderCore :=
  if c.staticNotTaken then
    match kind with
    | .dirCall | .dirJmp => { s with directResteerPend := true }
    | .indCall | .indJmp | .ret => { s with indirMispredPend := true }
  else
    match kind with
    | .dirCall => if hit then s else { s with directResteerPend := true }
    | .indCall | .indJmp | .ret => if hit then s else { s with indirMispredPend := true }
    | .dirJmp => s

/-! ### Accesses -/

/-- The cycle an access called for at `cycle` starts at: the accesses are serialised. -/
def startCycle (s : InOrderCore) (cycle : Nat) : Nat := max cycle s.memRespCycle

def answer (s : InOrderCore) (kind : AccessKind) (addr : Address) (cycle : Nat) : Answer :=
  c.l1 s.sent ⟨kind, addr, s.startCycle cycle⟩

/-- A call of a cache, the recorder's `record`, and the response taken as the new cursor. -/
def access (s : InOrderCore) (kind : AccessKind) (addr : Address) (cycle : Nat) : InOrderCore :=
  { s with
    sent := s.sent ++ [⟨kind, addr, s.startCycle cycle⟩]
    cRec := s.cRec.record c.ownClock (s.startCycle cycle) (s.answer c kind addr cycle).record
    memRespCycle := (s.answer c kind addr cycle).resp }

/-! ### Instruction fetch -/

/-- One line of `InOrderCore::ifetch`. -/
def fetchLine (s : InOrderCore) (fetchAddr : Address) : InOrderCore :=
  let startCycle := s.startCycle s.curCycle
  let fetchLat := (s.answer c .fetch fetchAddr s.curCycle).resp - startCycle
  let s' := s.access c .fetch fetchAddr s.curCycle
  { s' with curCycle := s.curCycle + fetchLat, maxOutstanding := max s.maxOutstanding (s.curCycle + fetchLat) }

/-- The addresses `ifetch` reads: a line apart, from the block's first byte. -/
def fetchAddrs (bblAddr : Address) (bblInfo : BblInfo) : List Address :=
  (List.range ((bblInfo.bytes + 2 ^ c.lineBits - 1) / 2 ^ c.lineBits)).map fun i => bblAddr + i * 2 ^ c.lineBits

/-- `InOrderCore::ifetch`. -/
def ifetch (s : InOrderCore) (bblAddr : Address) (bblInfo : BblInfo) : InOrderCore :=
  (fetchAddrs c bblAddr bblInfo).foldl (fetchLine c) s

/-! ### A synthetic block -/

/-- One turn of the synthetic path's load loop; the cycle is `commitCycle`. -/
def syntheticLoad (p : InOrderCore × Nat) (i : Nat) : InOrderCore × Nat :=
  let s := { p.1 with touched := p.1.touched ++ [i] }
  let addr := s.loadAddrs i
  if addr = noAddr then (s, p.2)
  else
    let resp := (s.answer c .load addr p.2).resp
    (s.access c .load addr p.2, max resp (s.startCycle p.2 + c.hitLatency))

/-- One turn of its store loop. -/
def syntheticStore (p : InOrderCore × Nat) (i : Nat) : InOrderCore × Nat :=
  let s := { p.1 with touched := p.1.touched ++ [i] }
  let addr := s.storeAddrs i
  if addr = noAddr then (s, p.2) else (s.access c .store addr p.2, (s.answer c .store addr p.2).resp)

def syntheticLoads (s : InOrderCore) (bblInfo : BblInfo) : InOrderCore × Nat :=
  (List.range (min s.loads 256)).foldl (syntheticLoad c) (s, s.curCycle + bblInfo.instrs)

def syntheticAccesses (s : InOrderCore) (bblInfo : BblInfo) : InOrderCore × Nat :=
  (List.range (min s.stores 256)).foldl (syntheticStore c) (s.syntheticLoads c bblInfo)

/-- `InOrderCore::simulateSyntheticBbl`. -/
def simulateSyntheticBbl (s : InOrderCore) (bblInfo : BblInfo) : InOrderCore :=
  let p := s.syntheticAccesses c bblInfo
  { p.1 with curCycle := max p.1.curCycle p.2 }

/-! ### A decoded block -/

/-- The ports 0 to 5 a uop may use; an empty mask is port 0. -/
def ports (mask : Nat) : List Nat := (List.range 6).filter fun p => if mask = 0 then p = 0 else mask.testBit p

/-- The first of the ports that are free earliest, and port 0 where the mask names none. -/
def bestPort (free : Nat → Nat) (mask : Nat) : Nat :=
  ((ports mask).foldl (fun best p =>
    match best with
    | none => some p
    | some q => if free p < free q then some p else some q) none).getD 0

/-- The cycle at which the sources of a uop are ready, not before the issue cursor. -/
def sourcesReady (s : InOrderCore) (uop : DynUop) : Nat :=
  max s.curCycle (max (s.regScoreboard uop.rs0) (s.regScoreboard uop.rs1))

/-- The next cycle with an issue slot. -/
def slotReady (s : InOrderCore) (iss : Nat) : Nat :=
  if iss = s.slotCycle ∧ c.issueWidth ≤ s.slotsUsed then iss + 1 else iss

def issuePort (s : InOrderCore) (uop : DynUop) : Nat := bestPort s.portFreeCycle uop.portMask

def issueCycle (s : InOrderCore) (uop : DynUop) : Nat :=
  max (s.slotReady c (s.sourcesReady uop)) (s.portFreeCycle (s.issuePort uop))

/-- The issue of a uop: it takes a slot and a port at its issue cycle. -/
def issue (s : InOrderCore) (uop : DynUop) : InOrderCore :=
  let iss := s.issueCycle c uop
  { s with
    slotsUsed := (if iss = s.slotCycle then s.slotsUsed else 0) + 1
    slotCycle := iss
    portFreeCycle := Function.update s.portFreeCycle (s.issuePort uop) (iss + 1)
    curCycle := iss }

/-- The locals of `simulateDecodedBbl`. -/
structure Block where
  core : InOrderCore
  loadIdx : Nat
  storeIdx : Nat
  lastDone : Nat

/-- A load uop issued at `iss`, with its completion. A uop beyond the recorded loads touches no memory. -/
def loadUop (b : Block) (iss : Nat) : Block × Nat :=
  if b.loadIdx < b.core.loads then
    let s := { b.core with touched := b.core.touched ++ [b.loadIdx] }
    let addr := s.loadAddrs b.loadIdx
    if addr = noAddr then ({ b with core := s, loadIdx := b.loadIdx + 1 }, iss)
    else
      ({ b with core := s.access c .load addr iss, loadIdx := b.loadIdx + 1 },
        max (s.answer c .load addr iss).resp (s.startCycle iss + c.hitLatency))
  else ({ b with core := { b.core with memMismatchLoads := b.core.memMismatchLoads + 1 } }, iss)

/-- A store uop issued at `iss`, with its completion. -/
def storeUop (b : Block) (iss : Nat) : Block × Nat :=
  if b.storeIdx < b.core.stores then
    let s := { b.core with touched := b.core.touched ++ [b.storeIdx] }
    let addr := s.storeAddrs b.storeIdx
    if addr = noAddr then ({ b with core := s, storeIdx := b.storeIdx + 1 }, iss)
    else
      ({ b with core := s.access c .store addr iss, storeIdx := b.storeIdx + 1 }, (s.answer c .store addr iss).resp)
  else ({ b with core := { b.core with memMismatchStores := b.core.memMismatchStores + 1 } }, iss)

/-- What a uop issued at `iss` does, with its completion. -/
def execute (b : Block) (uop : DynUop) (iss : Nat) : Block × Nat :=
  match uop.type with
  | .load => loadUop c b iss
  | .store => storeUop c b iss
  | .general | .storeAddr | .fence => (b, iss + uop.lat)

/-- A destination register becomes ready; register 0 stands for none. -/
def setReady (regs : Nat → Nat) (r done : Nat) : Nat → Nat := if r = 0 then regs else Function.update regs r done

/-- The completion of a uop goes into the scoreboard. -/
def complete (b : Block) (uop : DynUop) (iss port done : Nat) : Block :=
  { b with
    core := { b.core with
      regScoreboard := setReady (setReady b.core.regScoreboard uop.rd0 done) uop.rd1 done
      maxOutstanding := max b.core.maxOutstanding done
      issued := b.core.issued ++ [⟨uop, iss, port, done⟩] }
    lastDone := max b.lastDone done }

/-- One turn of the loop over the uops. -/
def simulateUop (b : Block) (uop : DynUop) : Block :=
  let iss := b.core.issueCycle c uop
  let port := b.core.issuePort uop
  let r := execute c { b with core := b.core.issue c uop } uop iss
  complete r.1 uop iss port r.2

/-- One turn of the loop that drains the loads no uop took. -/
def drainLoad (repBbl : Bool) (b : Block) (i : Nat) : Block :=
  let s := { b.core with
    touched := b.core.touched ++ [i]
    repDrainedLoads := b.core.repDrainedLoads + if repBbl then 1 else 0
    memMismatchLoads := b.core.memMismatchLoads + if repBbl then 0 else 1 }
  let addr := s.loadAddrs i
  if addr = noAddr then { b with core := s }
  else
    { b with
      core := s.access c .load addr b.lastDone
      lastDone := max b.lastDone (s.answer c .load addr b.lastDone).resp }

/-- One turn of the loop that drains the stores. -/
def drainStore (repBbl : Bool) (b : Block) (i : Nat) : Block :=
  let s := { b.core with
    touched := b.core.touched ++ [i]
    repDrainedStores := b.core.repDrainedStores + if repBbl then 1 else 0
    memMismatchStores := b.core.memMismatchStores + if repBbl then 0 else 1 }
  let addr := s.storeAddrs i
  if addr = noAddr then { b with core := s }
  else
    { b with
      core := s.access c .store addr b.lastDone
      lastDone := max b.lastDone (s.answer c .store addr b.lastDone).resp }

/-- The loop over the uops. -/
def simulateUops (s : InOrderCore) (db : DynBbl) : Block :=
  db.uops.foldl (simulateUop c) ⟨{ s with regScoreboard := Function.update s.regScoreboard 0 0 }, 0, 0, s.curCycle⟩

/-- The two loops behind it. -/
def drainAccesses (b : Block) (db : DynBbl) : Block :=
  let b := (List.range' b.loadIdx (b.core.loads - b.loadIdx)).foldl (drainLoad c (0 < db.repInstrs)) b
  (List.range' b.storeIdx (b.core.stores - b.storeIdx)).foldl (drainStore c (0 < db.repInstrs)) b

/-- `InOrderCore::simulateDecodedBbl`. -/
def simulateDecodedBbl (s : InOrderCore) (db : DynBbl) : InOrderCore :=
  let b := drainAccesses c (s.simulateUops c db) db
  { b.core with maxOutstanding := max b.core.maxOutstanding b.lastDone }

/-! ### Redirects -/

/-- A flush: the pipeline drains, and the bubble follows. -/
def flush (s : InOrderCore) (penalty : Nat) : InOrderCore :=
  { s.drainPipeline with curCycle := s.drainPipeline.curCycle + penalty, directResteerPend := false }

/-- The conditional branch that ended the block. -/
def resolveBranch (s : InOrderCore) (p : Prediction) : InOrderCore :=
  if s.branchPc = 0 then s
  else if c.staticNotTaken then
    let s' := if s.branchTaken then s.flush c.mispredPenalty else s
    { s' with branchPc := 0, branchTarget := 0 }
  else
    -- a BTB miss is charged only where the direction was right
    let missed := s.branchTaken ∧ s.branchTarget ≠ 0 ∧ ¬ p.btbHit ∧ p.dirOk
    let s' := { s with directResteerPend := s.directResteerPend || decide missed }
    let s'' := if p.dirOk then s' else s'.flush c.mispredPenalty
    { s'' with branchPc := 0, branchTarget := 0 }

/-- The indirect target that was missed, and else the direct one. -/
def resteer (s : InOrderCore) : InOrderCore :=
  if s.indirMispredPend then { s.flush c.mispredPenalty with indirMispredPend := false }
  else if s.directResteerPend then s.flush c.resteerPenalty
  else s

/-! ### A block arrives -/

/-- The soft-float charge of a block. -/
def chargeFp (s : InOrderCore) (sim : BblInfo) : InOrderCore :=
  if c.coreHasFpu then s else { s with curCycle := s.curCycle + sim.nFp * c.coreFpEmulCycles }

/-- The simulation of the block before. -/
def simulate (s : InOrderCore) (sim : BblInfo) : InOrderCore :=
  match sim.oooBbl.uops with
  | [] => (s.chargeFp c sim).simulateSyntheticBbl c sim
  | _ :: _ => (s.chargeFp c sim).simulateDecodedBbl c sim.oooBbl

/-- The simulation of a block with its terminator. -/
def retire (s : InOrderCore) (sim : BblInfo) (p : Prediction) : InOrderCore :=
  ((s.simulate c sim).resolveBranch c p).resteer c

/-- `loads = stores = 0`, and the block that arrived waits for the next one. -/
def defer (s : InOrderCore) (bblInfo : BblInfo) : InOrderCore :=
  { s with prevBbl := some bblInfo, loads := 0, stores := 0 }

/-- `InOrderCore::bblAndRecord`. -/
def bblAndRecord (s : InOrderCore) (bblAddr : Address) (bblInfo : BblInfo) (p : Prediction) : InOrderCore :=
  match s.prevBbl with
  | none =>
    -- a pending branch belongs to a block that was never simulated
    { s.defer bblInfo with branchPc := 0, indirMispredPend := false }
  | some sim => ((s.retire c sim p).defer bblInfo).ifetch c bblAddr bblInfo

/-! ### Waits and the scheduler -/

/-- `addDelay`. -/
def addDelay (s : InOrderCore) (cycles : Nat) : InOrderCore := { s with curCycle := s.curCycle + cycles }

/-- `syncToLock`, `syncToWaker` and `cutHoldWait` move the clock alike. -/
def syncTo (s : InOrderCore) (t : Nat) : InOrderCore := if t ≤ s.curCycle then s else { s with curCycle := t }

/-- `InOrderCore::join`. -/
def join (s : InOrderCore) (phaseStart : Nat) : InOrderCore :=
  let r := s.cRec.notifyJoin c.ownClock phaseStart s.drainPipeline.curCycle
  { s.drainPipeline with curCycle := r.1, cRec := r.2 }

/-- `InOrderCore::leave`. -/
def leave (s : InOrderCore) : InOrderCore :=
  let curCycle := max s.drainPipeline.curCycle s.memRespCycle
  { s with curCycle := curCycle, cRec := s.cRec.notifyLeave c.ownClock curCycle }

/-- `InOrderCore::cSimStart`. -/
def cSimStart (s : InOrderCore) (nextPhase : Nat) : InOrderCore :=
  let r := s.cRec.cSimStart c.ownClock nextPhase s.drainPipeline.curCycle
  { s with curCycle := r.1, cRec := r.2 }

/-- `InOrderCore::cSimEnd`: the skew moves the core's response cursor too. -/
def cSimEnd (s : InOrderCore) (nextPhase skew : Nat) (drained : Bool) : InOrderCore :=
  let pre := s.drainPipeline.curCycle
  let r := s.cRec.cSimEnd c.ownClock nextPhase skew drained pre
  { s with curCycle := r.1, cRec := r.2, memRespCycle := s.memRespCycle + (r.1 - pre) }

/-- `InOrderCore::contextSwitch`, off the core. -/
def contextSwitch (s : InOrderCore) : InOrderCore :=
  { s.drainPipeline with
    prevBbl := none, loads := 0, stores := 0, branchPc := 0, branchTarget := 0, indirMispredPend := false,
    directResteerPend := false }

end InOrderCore

/-! ## Runs -/

/-- What can be done to a core. -/
inductive CoreOp where
  | load (addr : Address)
  | store (addr : Address)
  | predFalseLoad
  | predFalseStore
  | branch (pc : Address) (taken : Bool) (target : Address)
  | ctrlFlow (kind : CtrlFlowKind) (hit : Bool)
  | bbl (bblAddr : Address) (bblInfo : BblInfo) (p : Prediction)
  | addDelay (cycles : Nat)
  | syncToLock (t : Nat)
  | syncToWaker (t : Nat)
  | cutHoldWait (t : Nat)
  | join (phaseStart : Nat)
  | leave
  | cSimStart (nextPhase : Nat)
  | cSimEnd (nextPhase skew : Nat) (drained : Bool)
  | contextSwitch
  deriving DecidableEq, Repr

namespace InOrderCore

variable (c : InOrderConfig)

/-- A predicated access whose predicate is false is not recorded on this core. -/
def step (s : InOrderCore) : CoreOp → InOrderCore
  | .load addr => s.loadAndRecord addr
  | .store addr => s.storeAndRecord addr
  | .predFalseLoad => s
  | .predFalseStore => s
  | .branch pc taken target => s.branch pc taken target
  | .ctrlFlow kind hit => s.ctrlFlow c kind hit
  | .bbl bblAddr bblInfo p => s.bblAndRecord c bblAddr bblInfo p
  | .addDelay cycles => s.addDelay cycles
  | .syncToLock t => s.syncTo t
  | .syncToWaker t => s.syncTo t
  | .cutHoldWait t => s.syncTo t
  | .join phaseStart => s.join c phaseStart
  | .leave => s.leave c
  | .cSimStart nextPhase => s.cSimStart c nextPhase
  | .cSimEnd nextPhase skew drained => s.cSimEnd c nextPhase skew drained
  | .contextSwitch => s.contextSwitch

def run (s : InOrderCore) (ops : List CoreOp) : InOrderCore := ops.foldl (step c) s

end InOrderCore

/-! ## A small core -/

/-- A two-wide core whose caches answer after three cycles and record every access. -/
def twoWide : InOrderConfig where
  issueWidth := 2
  mispredPenalty := 7
  resteerPenalty := 4
  staticNotTaken := false
  coreHasFpu := true
  coreFpEmulCycles := 0
  lineBits := 6
  hitLatency := 4
  ownClock := false
  l1 := fun _ a => ⟨a.start + 3, some ⟨true, a.start, a.start + 3⟩, false⟩

theorem twoWide_prompt : twoWide.l1.Prompt := fun _ a => Nat.le_add_right a.start 3

theorem twoWide_recorded : twoWide.l1.Recorded := by
  intro _ a r h
  obtain rfl := Option.some.inj h
  exact ⟨Nat.le_refl _, Nat.le_refl _⟩

/-- A load and an addition of what it read. -/
def loadAdd : BblInfo := ⟨2, 8, 0, ⟨[⟨5, 0, 8, 0, 0, 0, .load, 4, 0⟩, ⟨8, 5, 6, 1, 1, 0, .general, 35, 0⟩], 0⟩⟩

/-- The block runs once, mispredicted, and the core leaves through a weave phase. -/
def loadAddOnce : List CoreOp :=
  [.join 10, .bbl 64 loadAdd ⟨true, true⟩, .load 4096, .branch 70 true 64, .bbl 64 loadAdd ⟨false, true⟩, .leave,
    .cSimStart 100, .cSimEnd 100 5 true]

end Pimid.Core
