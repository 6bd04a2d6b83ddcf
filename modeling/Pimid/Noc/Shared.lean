import Pimid.Noc.Fold
import Pimid.Lib.Machine
import Mathlib.Data.List.FinRange
import Mathlib.Logic.Function.Basic

/-!
# The shared record stream of process-mode MPI

Every rank appends its network accesses to a ring of its own in a shared segment and
advances its watermark. A drain copies all rings into the reader's `pending` buffer and
replays, phase by phase, the records stamped up to the cut: the least watermark of the
ranks that are active and have published.

A ring only holds the last `ringSlots` records, so a reader that comes too late loses the
oldest ones and counts them.
-/

namespace Pimid.Noc

open Std (TreeMap)

structure PimidNocRec where
  src : Nat
  dst : Nat
  cycle : Nat
  deriving DecidableEq

inductive PimidNocRankState where
  | active
  | quiescent
  | exited
  deriving DecidableEq

/-- A rank's control slot together with its ring. -/
structure PimidNocRank where
  seq : Nat
  watermark : Nat
  state : PimidNocRankState
  ring : Nat → PimidNocRec

/-- The segment's header: the ring size, a power of two, and the phase length of the run
(0 where it was not set). -/
structure PimidNocHdr where
  slotBits : Nat
  epochPl : Nat

namespace PimidNocHdr

def ringSlots (h : PimidNocHdr) : Nat := 2 ^ h.slotBits

/-- The phase length the drain uses. -/
def pl (h : PimidNocHdr) : Nat := if h.epochPl > 0 then h.epochPl else 10000

/-- The ring slot of a sequence number. -/
def slot (h : PimidNocHdr) (i : Nat) : Nat := i &&& (h.ringSlots - 1)

end PimidNocHdr

/-- A record as the replay takes it. -/
def PimidNocRec.batch (r : PimidNocRec) : BatchAccess := ⟨r.src, r.dst, r.cycle, false⟩

namespace PimidNocRank

def publish (h : PimidNocHdr) (rk : PimidNocRank) (r : PimidNocRec) : PimidNocRank :=
  { rk with
    ring := fun i => if i = h.slot rk.seq then r else rk.ring i
    seq := rk.seq + 1
    watermark := if r.cycle > rk.watermark then r.cycle else rk.watermark }

def touch (rk : PimidNocRank) (cycle : Nat) : PimidNocRank :=
  { rk with watermark := if cycle > rk.watermark then cycle else rk.watermark }

def setState (rk : PimidNocRank) (st : PimidNocRankState) : PimidNocRank := { rk with state := st }

end PimidNocRank

/-- What one process keeps of the stream. -/
structure SharedNoc (n : Nat) where
  cursor : Fin n → Nat
  lost : Fin n → Nat
  pending : List BatchAccess
  pressureDrains : Nat

/-- A reader: its view of the stream and the windows it has handed to
`processBatchRecords`. -/
structure Replica (n : Nat) where
  sn : SharedNoc n
  windows : List (Nat × List BatchAccess)

/-- The ranks' slots and rings, and every rank's reader. -/
structure NocSystem (n : Nat) where
  ranks : Fin n → PimidNocRank
  replicas : Fin n → Replica n

/-! ## The cut -/

/-- The least watermark of the ranks that are active and past their baseline. -/
def pimidNocCut {n : Nat} (ranks : Fin n → PimidNocRank) : Nat :=
  (List.finRange n).foldl
    (fun cut r =>
      if (ranks r).state ≠ .active then cut
      else if (ranks r).watermark = 0 then cut
      else if (ranks r).watermark < cut then (ranks r).watermark else cut)
    noCut

/-! ## A drain -/

/-- The copy loop, `fuel` records at most. A record the producer has lapped meanwhile ends
the copy; in an atomic drain `seq` does not move. -/
def copyRing (h : PimidNocHdr) (rk : PimidNocRank) :
    Nat → Nat → List BatchAccess → Nat × List BatchAccess
  | 0, cur, pending => (cur, pending)
  | fuel + 1, cur, pending =>
    if cur < rk.seq then
      if rk.seq > h.ringSlots ∧ cur < rk.seq - h.ringSlots then (cur, pending)
      else copyRing h rk fuel (cur + 1) (pending ++ [(rk.ring (h.slot cur)).batch])
    else (cur, pending)

/-- Where reading starts: past the records that are gone. -/
def readFrom (h : PimidNocHdr) (rk : PimidNocRank) (cur : Nat) : Nat :=
  if rk.seq > h.ringSlots ∧ cur < rk.seq - h.ringSlots then rk.seq - h.ringSlots else cur

/-- One ring into `pending`. -/
def consumeRing {n : Nat} (h : PimidNocHdr) (ranks : Fin n → PimidNocRank) (sn : SharedNoc n) (r : Fin n) :
    SharedNoc n :=
  let start := readFrom h (ranks r) (sn.cursor r)
  let dropped := start - sn.cursor r
  let c := copyRing h (ranks r) ((ranks r).seq - start) start sn.pending
  { sn with
    lost := Function.update sn.lost r (sn.lost r + dropped)
    cursor := Function.update sn.cursor r c.1
    pending := c.2 }

def consumeRings {n : Nat} (h : PimidNocHdr) (ranks : Fin n → PimidNocRank) (sn : SharedNoc n) : SharedNoc n :=
  (List.finRange n).foldl (consumeRing h ranks) sn

/-- One drain: the reader afterwards and the windows it replays. -/
def sharedNocDrain {n : Nat} (h : PimidNocHdr) (ranks : Fin n → PimidNocRank) (sn : SharedNoc n) :
    SharedNoc n × List (Nat × List BatchAccess) :=
  let cut := pimidNocCut ranks
  let sn := consumeRings h ranks sn
  let final := sn.pending.filter fun a => a.cycle ≤ cut
  let keep := sn.pending.filter fun a => ¬ a.cycle ≤ cut
  let pressureDrains := if keep.length > h.ringSlots * 4 then sn.pressureDrains + 1 else sn.pressureDrains
  ({ sn with pending := keep, pressureDrains := pressureDrains },
    (pushBuckets (fun a => a.cycle / h.pl) ∅ final).toList)

/-! ## Runs -/

inductive NocOp (n : Nat) where
  | publish (r : Fin n) (rec : PimidNocRec)
  | touch (r : Fin n) (cycle : Nat)
  | setState (r : Fin n) (st : PimidNocRankState)
  | drain (j : Fin n)
  deriving DecidableEq

namespace NocOp

variable {n : Nat}

def step (h : PimidNocHdr) (s : NocSystem n) : NocOp n → NocSystem n
  | publish r rec => { s with ranks := Function.update s.ranks r ((s.ranks r).publish h rec) }
  | touch r cycle => { s with ranks := Function.update s.ranks r ((s.ranks r).touch cycle) }
  | setState r st => { s with ranks := Function.update s.ranks r ((s.ranks r).setState st) }
  | drain j =>
    let d := sharedNocDrain h s.ranks (s.replicas j).sn
    { s with replicas := Function.update s.replicas j ⟨d.1, (s.replicas j).windows ++ d.2⟩ }

def run (h : PimidNocHdr) (s : NocSystem n) (ops : List (NocOp n)) : NocSystem n := ops.foldl (step h) s

/-- A step that rank `r` itself takes. -/
def isBy (r : Fin n) : NocOp n → Bool
  | publish r' _ => r' = r
  | touch r' _ => r' = r
  | setState r' _ => r' = r
  | drain _ => false

def publishedBy (r : Fin n) : NocOp n → Option BatchAccess
  | publish r' rec => if r' = r then some rec.batch else none
  | _ => none

/-- The records rank `r` publishes. -/
def published (r : Fin n) (ops : List (NocOp n)) : List BatchAccess := ops.filterMap (publishedBy r)

/-- All records, rank after rank. -/
def allPublished (ops : List (NocOp n)) : List BatchAccess := (List.finRange n).flatMap fun r => published r ops

end NocOp

/-- The zero-filled segment, with readers that have read nothing. -/
def NocSystem.start (n : Nat) : NocSystem n :=
  ⟨fun _ => ⟨0, 0, .active, fun _ => ⟨0, 0, 0⟩⟩, fun _ => ⟨⟨fun _ => 0, fun _ => 0, [], 0⟩, []⟩⟩

namespace NocOp

/-- The state reader `j` ends in: a run closed by a drain of its own. -/
def closed {n : Nat} (h : PimidNocHdr) (j : Fin n) (ops : List (NocOp n)) : Replica n :=
  (run h (NocSystem.start n) (ops ++ [drain j])).replicas j

/-- Every rank has exited after the run. -/
def AllExited {n : Nat} (h : PimidNocHdr) (ops : List (NocOp n)) : Prop :=
  ∀ r, ((run h (NocSystem.start n) ops).ranks r).state = .exited

end NocOp

end Pimid.Noc
