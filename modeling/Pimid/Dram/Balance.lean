import Pimid.Lib.Ledger
import Pimid.Lib.Machine
import Mathlib.Data.Rat.Floor

/-!
# The reconciliation of the closed-loop DRAM replay

`DramEpochReplay` times every access twice: the core charges a price when it issues
it, the replayed controller measures it later. What the core owes is kept in two
accounts. The aggregate one is `diff` (measured less charged), plus `used` (the
refunds its charges took, in 1/1024 cycles), less `dlyTot` (the delays applied to its
clock). The sequenced one is the ledger `led`, where each of these events stands
under its number in the core's own program order, so that a rendezvous can settle
what happened before its mark.

The model has every operation that touches either account, and the fields they read.
Doubles are exact rationals. What the rest of the replay does to a core's timing
fields is one operation with arbitrary values.
-/

namespace Pimid.Dram

open Std (TreeMap)

/-! ## State -/

/-- `~0u`, the record has no core. -/
def noCore : Nat := 2 ^ 32 - 1

def kRecCores : Nat := 4096

/-- What the run fixes: the mode, the cores there are, the interfaces of the host. -/
structure Cfg where
  cutMode : Bool
  numCores : Nat
  cores : Nat → Bool
  outOfOrder : Nat → Bool
  isHostMi : Nat → Bool

/-- The fields of a core that the replay of its accesses writes. -/
structure Timing where
  out : Nat := 0
  ovC : ℚ := 1
  dmaOpen : Nat := 0
  dmaComp : Nat := 0
  dmaChgEnd : ℚ := 0
  dmaTpc : ℚ := 1
  dmaSeq : Nat := 0

/-- A core of the closed loop. `led` holds the source's `led`, `ledBase` and `ledCut`. -/
structure CoreCL extends Timing where
  on : Bool := true
  ooo : Bool := false
  host : Bool := false
  diff : ℚ := 0
  dlyTot : Int := 0
  pendDly : Int := 0
  led : Ledger ℚ := { base := 0 }

structure Rec where
  stamp : Nat
  core : Nat
  chg : Nat
  hold : Bool
  seq : Nat := 0
  dly : Int := 0
  ref : Nat := 0
  refT : ℚ := 0
  boot : Bool := false

/-- A thread's `t_last…`: the record it made last. -/
structure Last where
  ep : Nat
  idx : Nat
  core : Nat
  ref : Nat
  stamp : Nat

/-- A core's part of an epoch: its charges, and the time they cover. -/
structure RecAcc where
  chg : ℚ
  uni : ℚ
  rs : ℚ
  re : ℚ
  ropen : Bool

def uniOf (a : RecAcc) : ℚ :=
  a.uni + if a.ropen then a.re - a.rs else 0

structure St where
  cl : TreeMap Nat CoreCL
  pool : Nat → Int
  used : Nat → Int
  ovA : Nat → ℚ
  seqA : Nat → Nat
  pending : TreeMap Nat (List Rec)
  lastFolded : Option Nat
  last : Nat → Option Last
  roiMarked : Bool
  runEndMarked : Bool

/-- The ROI opens: every account starts at zero. -/
def markRoi (cfg : Cfg) (s : St) : St :=
  { s with
    cl := ∅, pool := fun _ => 0, used := fun _ => 0, ovA := fun _ => 1, pending := ∅
    lastFolded := if cfg.cutMode then none else s.lastFolded
    roiMarked := true, runEndMarked := false }

/-! ## Rounding -/

/-- A conversion to an integer type: towards zero. -/
def trunc (q : ℚ) : Int :=
  if 0 ≤ q then q.floor else -(-q).floor

/-- Half away from zero. -/
def llround (q : ℚ) : Int :=
  if 0 ≤ q then (q + 1 / 2).floor else -(-q + 1 / 2).floor

/-! ## The accounts -/

def CoreCL.owed (k : CoreCL) (used : Int) : ℚ :=
  k.diff + used / 1024 - k.dlyTot

def ledAdd (k : CoreCL) (key : Nat) (v : ℚ) : CoreCL :=
  { k with led := k.led.add key v }

def setCore (s : St) (core : Nat) (k : CoreCL) : St :=
  { s with cl := s.cl.insert core k }

/-- The pool a core's next charges can be refunded from: an over-charge, in charge cycles. -/
def poolOf (owed ovC : ℚ) : Int :=
  if owed < 0 then trunc (-owed * ovC) else 0

/-- The whole cycles of a delay. -/
def delayOf (owed : ℚ) : Nat :=
  (min owed 4294967295).floor.toNat

/-- `++seqA_[core]` -/
def nextSeq (s : St) (core : Nat) : St :=
  { s with seqA := fun c => if c = core then s.seqA core + 1 else s.seqA c }

/-! ## Recording an access, and the refund its charge takes -/

/-- `(uint32_t)std::min<int64_t>(av, most)` -/
def takeOf (av : Int) (most : Nat) : Nat :=
  (min av most % 2 ^ 32).toNat

/-- A refund in the core's time, in 1/1024 cycles. -/
def refundOf (s : St) (core take : Nat) : Int :=
  llround (take / s.ovA core * 1024)

/-- The refund leaves the pool and is booked under the record's number. -/
def takeRefund (s : St) (core take seq : Nat) : St :=
  let s' := { s with
    pool := fun c => if c = core then s.pool core - take else s.pool c
    used := fun c => if c = core then s.used core + refundOf s core take else s.used c }
  match s.cl[core]? with
  | some k => setCore s' core (ledAdd k seq (refundOf s core take / 1024))
  | none => s'

/-- A record for a folded epoch joins the next one. -/
def lateEpoch (cfg : Cfg) (s : St) (epoch : Nat) : Nat :=
  match s.lastFolded with
  | some f => if cfg.cutMode ∧ epoch ≤ f then f + 1 else epoch
  | none => epoch

/-- The delay a record carries: what its `int32_t` holds of the delays applied since the last record. -/
def carriedDelay (pendDly : Int) : Int :=
  max (-2 ^ 31) (min pendDly (2 ^ 31 - 1))

def pushRec (s : St) (thread epoch : Nat) (rc : Rec) : St :=
  let pv := s.pending.getD epoch []
  { s with
    pending := s.pending.insert epoch (pv ++ [rc])
    last := fun t => if t = thread then some ⟨epoch, pv.length, rc.core, rc.ref, rc.stamp⟩ else s.last t }

/-- The delay applied to the core since its last record goes with this one. -/
def carryDelay (s : St) (core : Nat) : St × Int :=
  match s.cl[core]? with
  | some k =>
    let dly := carriedDelay k.pendDly
    (setCore s core { k with pendDly := k.pendDly - dly }, dly)
  | none => (s, 0)

/-- The number the record takes in its core's sequence, if its core has one. -/
def numberRec (s : St) (core : Nat) : St × Nat :=
  if core < kRecCores then (nextSeq s core, s.seqA core + 1) else (s, 0)

def recordAddr (cfg : Cfg) (s : St) (thread epoch stamp core chg : Nat) (hold : Bool) : St :=
  let ep := lateEpoch cfg s epoch
  let (s₁, seq) := numberRec s core
  let rc : Rec := { stamp, core, chg, hold, seq }
  if cfg.cutMode ∧ s₁.roiMarked ∧ core ≠ noCore ∧ core < kRecCores then
    let (s₂, dly) := carryDelay s₁ core
    let take := if hold ∧ chg ≠ 0 then takeOf (s₂.pool core) chg else 0
    if take ≠ 0 then
      pushRec (takeRefund s₂ core take seq) thread ep { rc with dly, ref := take, refT := take / s₂.ovA core }
    else pushRec s₂ thread ep { rc with dly }
  else pushRec s₁ thread ep rc

/-- The record a thread's last access left in `pending_`, if it is still there. -/
def lastRec (s : St) (l : Last) : Option Rec := do
  let pv ← s.pending[l.ep]?
  let r ← pv[l.idx]?
  if r.core = l.core ∧ r.stamp = l.stamp then some r else none

def putRec (s : St) (l : Last) (r : Rec) : St :=
  { s with pending := s.pending.insert l.ep ((s.pending.getD l.ep []).set l.idx r) }

/-- What a boot charge may take back: it leaves at least `floor`. -/
def bootTake (cfg : Cfg) (s : St) (r : Rec) (lat floor : Nat) : Nat :=
  if cfg.cutMode ∧ s.roiMarked ∧ r.hold ∧ r.core < kRecCores then
    takeOf (s.pool r.core) (if floor < lat then lat - floor else 0)
  else 0

/-- `t_lastOk = false` -/
def forgetLast (s : St) (thread : Nat) : St :=
  { s with last := fun t => if t = thread then none else s.last t }

/-- The analytical service's charge: the record carries it, and the refund is taken here. -/
def bootCharge (cfg : Cfg) (s : St) (l : Last) (lat floor : Nat) : St × Nat :=
  match lastRec s l with
  | none => (s, lat)
  | some r =>
    let take := bootTake cfg s r lat floor
    if take ≠ 0 then
      let r' := { r with chg := lat, boot := true, ref := take, refT := take / s.ovA r.core }
      (takeRefund (putRec s l r') r.core take r.seq, lat - take)
    else (putRec s l { r with chg := lat, boot := true }, lat)

/-- The charge of the access the thread recorded last. At the replay's price the refund was taken when it was
recorded. -/
def chargeLast (cfg : Cfg) (s : St) (thread lat : Nat) (boot : Bool) (floor : Nat) : St × Nat :=
  match s.last thread with
  | none => (s, lat)
  | some l =>
    if boot then bootCharge cfg (forgetLast s thread) l lat floor
    else (forgetLast s thread, if l.ref < lat then lat - l.ref else 0)

/-! ## Measurements -/

/-- Measured less charged, divided by the overlap of an out-of-order core in the epoch. -/
def creditOf (k : CoreCL) (meas chg : Nat) (share : Option RecAcc) : ℚ :=
  let ov := match share with
    | some a => if k.ooo ∧ 0 < uniOf a then max 1 (a.chg / uniOf a) else 1
    | none => 1
  ((meas : ℚ) - chg) / ov

/-- A line of the open DMA transfer moves its completion. -/
def noteDmaLine (cfg : Cfg) (s : St) (core : Nat) (hold out : Bool) (doneTick dmab : Nat) : St :=
  if dmab ≠ 0 ∧ hold ∧ ¬out ∧ core ≠ noCore ∧ cfg.cutMode ∧ s.roiMarked then
    match s.cl[core]? with
    | some k => if dmab = k.dmaOpen ∧ k.dmaComp < doneTick then setCore s core { k with dmaComp := doneTick } else s
    | none => s
  else s

/-- An access of the core completed. `share` is the core's part of the access's epoch. -/
def recDone (cfg : Cfg) (s : St) (core mi : Nat) (hold out : Bool) (meas chg doneTick dmab seq : Nat)
    (share : Option RecAcc) : St :=
  let s := noteDmaLine cfg s core hold out doneTick dmab
  if ¬hold ∨ out ∨ chg = 0 ∨ core = noCore then s
  else if ¬cfg.cutMode ∨ ¬s.roiMarked then s
  else match s.cl[core]? with
    | none => s
    | some k =>
      if ¬k.on ∨ dmab ≠ 0 then s
      else
        let d := creditOf k meas chg share
        setCore s core { ledAdd { k with diff := k.diff + d } seq d with host := cfg.isHostMi mi }

/-- The last line of the transfer against its latest charged end. -/
def dmaCredit (k : CoreCL) : ℚ :=
  (k.dmaComp - k.dmaChgEnd) / k.dmaTpc

def recDmaClose (roiMarked : Bool) (k : CoreCL) : CoreCL :=
  let k' := if k.dmaOpen ≠ 0 ∧ k.dmaComp ≠ 0 ∧ roiMarked then
      ledAdd { k with diff := k.diff + dmaCredit k } k.dmaSeq (dmaCredit k)
    else k
  { k' with dmaOpen := 0, dmaComp := 0, dmaChgEnd := 0 }

/-- Consumed prefetches: a correction of the whole balance. -/
def pfApply (cfg : Cfg) (s : St) (core : Nat) (corr : Int) : St :=
  if ¬cfg.cutMode ∨ ¬s.roiMarked then s
  else match s.cl[core]? with
    | none => s
    | some k =>
      if k.on then setCore s core { k with diff := k.diff + corr, led := k.led.correct corr } else s

/-! ## Applying the balance -/

/-- A transfer done by now closes first. -/
def closeDone (roiMarked : Bool) (k : CoreCL) : CoreCL :=
  if k.dmaOpen ≠ 0 ∧ k.out = 0 then recDmaClose roiMarked k else k

/-- `adj` cycles go to the core's clock (back, when negative), as the core's next event. -/
def applyDelay (s : St) (core : Nat) (k : CoreCL) (adj : Int) : St × CoreCL :=
  let s' := nextSeq s core
  (s', ledAdd { k with dlyTot := k.dlyTot + adj, pendDly := k.pendDly + adj } (s'.seqA core) (-adj))

def setPool (s : St) (core : Nat) (v : Int) : St :=
  { s with pool := fun c => if c = core then v else s.pool c }

def setOvA (s : St) (core : Nat) (v : ℚ) : St :=
  { s with ovA := fun c => if c = core then v else s.ovA c }

/-- One core at the barrier. -/
def reconcileOne (cfg : Cfg) (canTake : Nat → Bool) (s : St) (c : Nat) : St :=
  match s.cl[c]? with
  | none => s
  | some k =>
    if ¬k.on ∨ kRecCores ≤ c then s
    else
      let k := closeDone s.roiMarked k
      let owed := k.owed (s.used c)
      let (s', k', owed') :=
        if 1 ≤ owed ∧ c < cfg.numCores ∧ cfg.cores c ∧ canTake c then
          let d := delayOf owed
          let (s', k') := applyDelay s c k d
          (s', k', owed - d)
        else (s, k, owed)
      setPool (setOvA (setCore s' c k') c k'.ovC) c (poolOf owed' k'.ovC)

def reconcileAtBarrier (cfg : Cfg) (s : St) (canTake : Nat → Bool) : St :=
  if ¬cfg.cutMode ∨ ¬s.roiMarked then s
  else s.cl.keys.foldl (reconcileOne cfg canTake) s

/-- Message-passing entry of one core. `c0` is the core's clock, `rewind want` its clock after it was asked to go
back by `want`. Returns the cycles applied. -/
def reconcileCore (cfg : Cfg) (s : St) (core maxRewind c0 : Nat) (rewind : Nat → Nat) : St × Int :=
  if ¬cfg.cutMode ∨ kRecCores ≤ core ∨ cfg.numCores ≤ core ∨ ¬cfg.cores core then (s, 0)
  else match s.cl[core]? with
    | none => (s, 0)
    | some k =>
      if ¬s.roiMarked ∨ s.runEndMarked ∨ ¬k.on then (s, 0)
      else
        let k := closeDone s.roiMarked k
        let owed := k.owed (s.used core)
        if 1 ≤ owed then
          let d := delayOf owed
          let (s', k') := applyDelay s core k d
          (setPool (setCore s' core k') core (poolOf (owed - d) k'.ovC), d)
        else if owed ≤ -1 ∧ 0 < maxRewind then
          let want := (min (-owed) maxRewind).floor.toNat
          let r := c0 - rewind want
          let (s', k') := applyDelay s core k (-r)
          (setPool (setCore s' core k') core (poolOf (owed + r) k'.ovC), -r)
        else (setPool (setCore s core k) core (poolOf owed k.ovC), 0)

/-! ## Settling at a rendezvous -/

def settleMark (s : St) (core : Nat) : St × Nat :=
  if kRecCores ≤ core then (s, 0) else (nextSeq s core, s.seqA core + 1)

def settleApply (cfg : Cfg) (s : St) (core : Nat) (adj : Int) : St :=
  if ¬cfg.cutMode ∨ kRecCores ≤ core then s
  else match s.cl[core]? with
    | none => s
    | some k =>
      let (s', k') := if adj ≠ 0 then applyDelay s core k adj else (s, k)
      setPool (setCore s' core k') core (poolOf (k'.owed (s'.used core)) k'.ovC)

def settlePrune (cfg : Cfg) (s : St) (core below : Nat) : St :=
  if ¬cfg.cutMode ∨ kRecCores ≤ core then s
  else match s.cl[core]? with
    | none => s
    | some k => setCore s core { k with led := k.led.prune (min below (s.seqA core + 1)) }

def balanceAt (cfg : Cfg) (s : St) (core seq : Nat) : ℚ :=
  if ¬cfg.cutMode then 0
  else match s.cl[core]? with
    | none => 0
    | some k => k.led.balanceAt seq

/-! ## The rest of the replay -/

/-- `clCore`: the closed loop has a queue for each core there is. -/
def clCore (cfg : Cfg) (s : St) (core : Nat) : Option CoreCL :=
  if core = noCore ∨ kRecCores ≤ core ∨ cfg.numCores ≤ core ∨ ¬cfg.cores core then none
  else match s.cl[core]? with
    | some k => some k
    | none => some { ooo := cfg.outOfOrder core }

/-- The replay of a core's accesses (`clRelease`, `acceptOne`, `recSettle`) leaves new timing fields. -/
def replayCore (cfg : Cfg) (s : St) (core : Nat) (t : Timing) : St :=
  if ¬cfg.cutMode then s
  else match clCore cfg s core with
    | none => s
    | some k => setCore s core { k with toTiming := t }

/-- A transfer of the core closes while the replay runs. -/
def closeCore (s : St) (core : Nat) : St :=
  match s.cl[core]? with
  | none => s
  | some k => setCore s core (recDmaClose s.roiMarked k)

/-- The epoch's records go to the replay; a folded epoch takes no more. -/
def feed (cfg : Cfg) (s : St) (epoch : Nat) (fold : Bool) : St :=
  { s with
    pending := s.pending.insert epoch []
    lastFolded := if fold ∧ cfg.cutMode then some epoch else s.lastFolded }

end Pimid.Dram
