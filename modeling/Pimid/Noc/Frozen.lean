import Pimid.Lib.Buckets
import Mathlib.Algebra.BigOperators.Group.List.Basic
import Mathlib.Algebra.Group.Prod
import Mathlib.Algebra.GroupWithZero.Nat

/-!
# Epoch-frozen network prices

In a shared-memory run the measured latencies of a drained phase are added up in the
phase's epoch. When an epoch is complete its means are published: a pair that was sampled
takes the epoch's mean, any other keeps its value, and the whole table is kept as the
epoch's snapshot. Accesses are priced from the snapshot of an epoch, read by key.
-/

namespace Pimid.Noc

open Std (TreeMap)

/-- A source, a destination and the message class. -/
structure PairKey where
  src : Nat
  dst : Nat
  ctrl : Bool
  deriving DecidableEq

/-- Per pair, the sum of the latencies and their number. -/
abbrev PairAcc := List (PairKey × Nat × Nat)

namespace PairAcc

/-- More samples of one pair. -/
def add : PairAcc → PairKey × Nat × Nat → PairAcc
  | [], kv => [kv]
  | kv' :: acc, kv =>
    if kv'.1 = kv.1 then (kv'.1, kv'.2 + kv.2) :: acc else kv' :: add acc kv

/-- Sum and number over the pairs in `p`. -/
def total (p : PairKey → Bool) (acc : PairAcc) : Nat × Nat := ((acc.filter fun kv => p kv.1).map (·.2)).sum

end PairAcc

/-- The integer mean, as the 32-bit value that is stored. -/
def mean (t : Nat × Nat) : Nat := t.1 / t.2 % 2 ^ 32

structure FrozenSnap where
  pair : PairKey → Nat
  avg : Nat

/-- What the frozen prices are kept in. -/
structure Frozen where
  pairLatN : Nat
  detEpochPhases : Nat
  cutAxis : Bool
  epochPairAcc : TreeMap Nat PairAcc
  pairLat : PairKey → Nat
  batchAvgLatency : Nat
  snaps : TreeMap Nat FrozenSnap
  bootSnap : FrozenSnap
  anyPublished : Bool
  lastPublishedEpoch : Nat
  lateEpochPkts : Nat
  staleReads : Nat
  keyedReads : Nat
  frozenEpochsPublished : Nat

namespace Frozen

/-- Phases per epoch. -/
def phases (s : Frozen) : Nat := if s.detEpochPhases > 0 then s.detEpochPhases else 1

/-- The table at the baseline becomes the one read before the first published epoch. -/
def enterCutAxis (s : Frozen) : Frozen :=
  { s with
    bootSnap := ⟨s.pairLat, s.batchAvgLatency⟩
    epochPairAcc := ∅
    snaps := ∅
    anyPublished := false
    lastPublishedEpoch := 0
    cutAxis := true }

/-! ## Accumulation -/

/-- The epoch a drained phase is added to. -/
def landing (s : Frozen) (phaseNum : Nat) : Nat :=
  if s.cutAxis ∧ s.anyPublished ∧ phaseNum / s.phases ≤ s.lastPublishedEpoch then s.lastPublishedEpoch + 1
  else phaseNum / s.phases

/-- The end of `runBatchDrain_`: a phase's samples join their epoch, or the one after the
last published. -/
def accumulate (s : Frozen) (phaseNum : Nat) (perPairLat : PairAcc) : Frozen :=
  let delivered := (perPairLat.total fun _ => true).2
  if delivered > 0 then
    let ep := s.landing phaseNum
    { s with
      epochPairAcc := s.epochPairAcc.insert ep (perPairLat.foldl PairAcc.add (s.epochPairAcc.getD ep []))
      lateEpochPkts :=
        if s.cutAxis ∧ s.anyPublished ∧ phaseNum / s.phases ≤ s.lastPublishedEpoch then s.lateEpochPkts + delivered
        else s.lateEpochPkts }
  else s

/-! ## Publication -/

/-- A sampled pair takes its mean. -/
def storeMean (n : Nat) (tab : PairKey → Nat) (kv : PairKey × Nat × Nat) : PairKey → Nat :=
  if kv.2.2 = 0 then tab
  else if kv.1.src ≥ n ∨ kv.1.dst ≥ n then tab
  else fun k => if k = kv.1 then mean kv.2 else tab k

/-- The oldest snapshots go while there are more than 16. -/
def evict : List (Nat × FrozenSnap) → TreeMap Nat FrozenSnap → TreeMap Nat FrozenSnap
  | [], m => m
  | kv :: rest, m => if m.size > 16 then evict rest (m.erase kv.1) else m

def publishEpoch (s : Frozen) (kv : Nat × PairAcc) : Frozen :=
  let all := kv.2.total fun _ => true
  let pairLat := kv.2.foldl (storeMean s.pairLatN) s.pairLat
  let avg := if all.2 ≠ 0 then mean all else s.batchAvgLatency
  let snaps := s.snaps.insert kv.1 ⟨pairLat, avg⟩
  { s with
    pairLat := pairLat
    batchAvgLatency := avg
    frozenEpochsPublished := s.frozenEpochsPublished + 1
    snaps := if s.cutAxis then evict snaps.toList snaps else s.snaps
    anyPublished := s.cutAxis || s.anyPublished
    lastPublishedEpoch := if s.cutAxis then kv.1 else s.lastPublishedEpoch
    epochPairAcc := s.epochPairAcc.erase kv.1 }

/-- The leading epochs up to `lastEpoch`: the state and the epochs published. -/
def publishLoop (lastEpoch : Nat) : List (Nat × PairAcc) → Frozen → Frozen × List Nat
  | [], s => (s, [])
  | kv :: rest, s =>
    if kv.1 ≤ lastEpoch then
      let r := publishLoop lastEpoch rest (s.publishEpoch kv)
      (r.1, kv.1 :: r.2)
    else (s, [])

/-- All epochs whose phases are complete. -/
def publishCompletedEpochs (s : Frozen) (lastCompletePhase : Nat) : Frozen × List Nat :=
  if lastCompletePhase + 1 < s.phases then (s, [])
  else publishLoop ((lastCompletePhase + 1) / s.phases - 1) s.epochPairAcc.toList s

/-! ## Keyed reads -/

/-- The snapshot an epoch is read from. -/
def snapFor (s : Frozen) (e : Int) : Frozen × FrozenSnap :=
  let s := { s with keyedReads := s.keyedReads + 1 }
  match s.snaps.toList.head? with
  | none => (s, s.bootSnap)
  | some first =>
    if e < 0 ∨ e.toNat < first.1 then (s, s.bootSnap)
    else
      match s.snaps[e.toNat]? with
      | some sn => (s, sn)
      | none =>
        -- past the last published epoch the read is stale
        let stale := if s.snaps.toList.all fun kv => kv.1 ≤ e.toNat then 1 else 0
        ({ s with staleReads := s.staleReads + stale },
          ((s.snaps.toList.filter fun kv => kv.1 ≤ e.toNat).getLast?.map (·.2)).getD s.bootSnap)

def frozenPairLatency (s : Frozen) (e : Int) (k : PairKey) : Frozen × Nat :=
  let r := s.snapFor e
  (r.1, if k.src < s.pairLatN ∧ k.dst < s.pairLatN then r.2.pair k else 0)

def frozenAvgLatency (s : Frozen) (e : Int) : Frozen × Nat :=
  let r := s.snapFor e
  (r.1, r.2.avg)

end Frozen

/-! ## Runs -/

inductive FrozenOp where
  | drain (phaseNum : Nat) (perPairLat : PairAcc)
  | publish (lastCompletePhase : Nat)
  | readPair (e : Int) (k : PairKey)
  | readAvg (e : Int)

/-- What a run did: the samples with the epoch they were added to, and the epochs
published, both in order. -/
structure FrozenLog where
  landed : List (Nat × PairAcc)
  published : List Nat

namespace FrozenOp

def step (s : Frozen) : FrozenOp → Frozen × FrozenLog
  | drain phaseNum b =>
    (s.accumulate phaseNum b, ⟨if (b.total fun _ => true).2 > 0 then [(s.landing phaseNum, b)] else [], []⟩)
  | publish p =>
    let r := s.publishCompletedEpochs p
    (r.1, ⟨[], r.2⟩)
  | readPair e k => ((s.frozenPairLatency e k).1, ⟨[], []⟩)
  | readAvg e => ((s.frozenAvgLatency e).1, ⟨[], []⟩)

/-- One step further, with what it did. -/
def next (x : Frozen × FrozenLog) (op : FrozenOp) : Frozen × FrozenLog :=
  let r := op.step x.1
  (r.1, ⟨x.2.landed ++ r.2.landed, x.2.published ++ r.2.published⟩)

/-- A run on the cut axis, from any baseline table. -/
def run (s : Frozen) (ops : List FrozenOp) : Frozen × FrozenLog := ops.foldl next (s.enterCutAxis, ⟨[], []⟩)

end FrozenOp

/-! ## What an epoch costs -/

namespace FrozenLog

/-- The samples added to an epoch. -/
def samples (g : FrozenLog) (ep : Nat) : PairAcc := (g.landed.filter fun x => x.1 = ep).flatMap (·.2)

/-- The mean over the pairs in `p` of the last published epoch up to `e` that has samples of
them, and `base` where there is none. -/
def price (g : FrozenLog) (p : PairKey → Bool) (base : Nat) (e : Nat) : Nat :=
  match (g.published.filter fun ep => ep ≤ e ∧ ((g.samples ep).total p).2 ≠ 0).getLast? with
  | some ep => mean ((g.samples ep).total p)
  | none => base

/-- The price of one pair. -/
def pairPrice (g : FrozenLog) (boot : FrozenSnap) (e : Nat) (k : PairKey) : Nat := g.price (· = k) (boot.pair k) e

/-- The price of an access whose pair is not known. -/
def avgPrice (g : FrozenLog) (boot : FrozenSnap) (e : Nat) : Nat := g.price (fun _ => true) boot.avg e

end FrozenLog

end Pimid.Noc
