import Pimid.Lib.Places
import Mathlib.Data.List.Sort
import Mathlib.Data.Set.Card

/-!
# The phase barrier with a fixed thread order

`Barrier` as it runs under `setFixedOrder`: one thread holds the turn, and the
threads of a phase get it in the order of the run list. Each operation is one section
under the scheduler lock. The turn order (`detBefore`: by clock, or by the place in
the seeded shuffle) and the draws of the shuffle are whatever the step is given.

Three fields are not in the source. They note, since the last phase end, who has been
given the turn and who has synced, and what each phase end found.
-/

namespace Pimid.Sched

open Function (update)

inductive State where
  | OFFLINE
  | WAITING
  | RUNNING
  | LEFT
deriving DecidableEq, Repr

/-- A listed thread as the phase callback finds it. -/
structure AtPhaseEnd where
  tid : Nat
  state : State
  woken : Bool
  synced : Bool
deriving DecidableEq, Repr

structure Barrier where
  state : Nat → State
  lastIdx : Nat → Nat
  -- `runList[0 .. runListSize)`
  runList : List Nat
  curThreadIdx : Nat
  runningThreads : Nat
  leftThreads : Nat
  phaseCount : Nat
  detJoinQ : List Nat
  woken : Nat → Bool
  synced : Nat → Bool
  phaseEnds : List (List AtPhaseEnd)

/-- What a step finds outside the barrier: the turn order, and the shuffle's draws. -/
structure Outside where
  detBefore : Nat → Nat → Bool
  randInt : Nat → Nat

namespace Barrier

def init : Barrier where
  state _ := .OFFLINE
  lastIdx _ := 0
  runList := []
  curThreadIdx := 0
  runningThreads := 0
  leftThreads := 0
  phaseCount := 0
  detJoinQ := []
  woken _ := false
  synced _ := false
  phaseEnds := []

def runListSize (b : Barrier) : Nat := b.runList.length

/-- `runList[i]` -/
def tidAt (b : Barrier) (i : Nat) : Nat := b.runList[i]?.getD 0

def setState (b : Barrier) (tid : Nat) (s : State) : Barrier :=
  { b with state := update b.state tid s }

/-- `tid` of place `i` and the thread of place `j` are exchanged. -/
def exchange (b : Barrier) (tid i j : Nat) : Barrier :=
  { b with
    runList := (b.runList.set j tid).set i (b.tidAt j)
    lastIdx := update (update b.lastIdx (b.tidAt j) i) tid j }

/-! ## Placing a joining thread -/

/-- `tid` moves up the list past the threads it comes before, at most `n` places. -/
def moveUp (o : Outside) (tid : Nat) : Nat → Nat → Barrier → Barrier × Nat
  | 0, idx, b => (b, idx)
  | n + 1, idx, b =>
    if o.detBefore tid (b.tidAt (idx - 1)) then moveUp o tid n (idx - 1) (b.exchange tid idx (idx - 1)) else (b, idx)

/-- `tid` moves down the list past the threads that come before it, at most `n` places. -/
def moveDown (o : Outside) (tid : Nat) : Nat → Nat → Barrier → Barrier
  | 0, _, b => b
  | n + 1, idx, b =>
    if o.detBefore (b.tidAt (idx + 1)) tid then moveDown o tid n (idx + 1) (b.exchange tid idx (idx + 1)) else b

/-- A thread that has run in this phase is scheduled in it once more: it changes places with the last that has run. -/
def rescheduleJoin (b : Barrier) (tid : Nat) : Barrier :=
  let lastIdx := b.lastIdx tid
  if lastIdx < b.curThreadIdx then
    { b with curThreadIdx := b.curThreadIdx - 1 }.exchange tid lastIdx (b.curThreadIdx - 1)
  else b

/-- The threads still to run in this phase stay in turn order. -/
def orderJoin (o : Outside) (b : Barrier) (tid : Nat) : Barrier :=
  let idx := if b.state tid = .OFFLINE then b.runListSize - 1 else b.lastIdx tid
  let b := { b with lastIdx := update b.lastIdx tid idx }
  if b.curThreadIdx ≤ idx ∧ idx < b.runListSize then
    let (b, idx) := moveUp o tid (idx - b.curThreadIdx) idx b
    moveDown o tid (b.runListSize - 1 - idx) idx b
  else b

def joinInsert (o : Outside) (b : Barrier) (tid : Nat) : Barrier :=
  let b :=
    if b.state tid = .OFFLINE then { b with runList := b.runList ++ [tid] }
    else { b with leftThreads := b.leftThreads - 1 }.rescheduleJoin tid
  (b.orderJoin o tid).setState tid .WAITING

/-- The queued joins of a turn take their places, in core order. -/
def detFlushJoinsLocked (o : Outside) (b : Barrier) : Barrier :=
  { (b.detJoinQ.insertionSort (· ≤ ·)).foldl (joinInsert o) b with detJoinQ := [] }

/-! ## Giving the turn -/

/-- The thread at the cursor gets the turn if it waits for it. -/
def wakeNext (b : Barrier) : Barrier :=
  let wtid := b.tidAt b.curThreadIdx
  if b.state wtid = .WAITING then
    { b.setState wtid .RUNNING with
      lastIdx := update b.lastIdx wtid b.curThreadIdx
      woken := update b.woken wtid true
      runningThreads := b.runningThreads + 1
      curThreadIdx := b.curThreadIdx + 1 }
  else { b with curThreadIdx := b.curThreadIdx + 1 }

/-- The loop of `checkRunList`, for at most `n` rounds. -/
def wakeLoop : Nat → Barrier → Barrier
  | 0, b => b
  | n + 1, b => if b.runningThreads < 1 ∧ b.curThreadIdx < b.runListSize then wakeLoop n b.wakeNext else b

/-- There are no more rounds than threads after the cursor. -/
def checkRunList (b : Barrier) : Barrier := wakeLoop (b.runListSize - b.curThreadIdx) b

/-! ## Ending the phase -/

/-- The clean-up pass from place `idx` on, for at most `n` rounds: the last thread fills the place of one that left. -/
def retire : Nat → Nat → Barrier → Barrier
  | 0, _, b => b
  | n + 1, idx, b =>
    if idx < b.runListSize then
      let wtid := b.tidAt idx
      if b.state wtid = .LEFT then
        let stid := b.tidAt (b.runListSize - 1)
        retire n idx
          { b.setState wtid .OFFLINE with
            runList := (b.runList.set idx stid).dropLast
            lastIdx := update b.lastIdx stid idx }
      else retire n (idx + 1) b
    else b

/-- One out of 32 times. -/
def cleanUp (b : Barrier) : Barrier :=
  let b' := if b.phaseCount % 32 = 0 then { retire b.runListSize 0 b with leftThreads := 0 } else b
  { b' with phaseCount := b.phaseCount + 1 }

/-- The insertion sort of clock mode: each thread goes behind the last one it does not come before. -/
def sortTurns (o : Outside) (b : Barrier) : Barrier :=
  let sorted := (b.runList.foldl (fun pre v => pre.orderedInsert (fun v x => ¬o.detBefore v x) v) []).reverse
  { b with
    runList := sorted
    lastIdx := sorted.zipIdx.foldl (fun f p => update f p.1 p.2) b.lastIdx }

/-- The Fisher-Yates shuffle, from place `i` down. -/
def shuffleFrom (o : Outside) : Nat → Barrier → Barrier
  | 0, b => b
  | i + 1, b => shuffleFrom o i (b.exchange (b.tidAt (i + 1)) (i + 1) (o.randInt (i + 1) % (i + 2)))

def shuffle (o : Outside) (b : Barrier) : Barrier :=
  if 1 < b.runListSize then shuffleFrom o (b.runListSize - 1) b else b

/-- The phase callback, and the list rewound. -/
def phaseEnd (b : Barrier) : Barrier :=
  { b with
    curThreadIdx := 0
    woken := fun _ => false
    synced := fun _ => false
    phaseEnds := b.phaseEnds ++ [b.runList.map fun t => ⟨t, b.state t, b.woken t, b.synced t⟩] }

def checkEndPhase (clockMode : Bool) (o : Outside) (b : Barrier) : Barrier :=
  if b.curThreadIdx = b.runListSize ∧ b.runningThreads = 0 then
    if b.leftThreads = b.runListSize then b
    else
      let b := b.phaseEnd.cleanUp
      if clockMode then b.sortTurns o else b.shuffle o
  else b

def tryWakeNext (clockMode : Bool) (o : Outside) (b : Barrier) : Barrier :=
  (b.checkRunList.checkEndPhase clockMode o).checkRunList

/-! ## The operations -/

def join (clockMode : Bool) (o : Outside) (b : Barrier) (tid : Nat) : Barrier :=
  if clockMode = false ∧ 0 < b.runningThreads then { b with detJoinQ := b.detJoinQ ++ [tid] }
  else if clockMode = false ∧ b.detJoinQ ≠ [] then
    ({ b with detJoinQ := b.detJoinQ ++ [tid] }.detFlushJoinsLocked o).tryWakeNext clockMode o
  else (b.joinInsert o tid).tryWakeNext clockMode o

def detFlushJoins (o : Outside) (b : Barrier) : Barrier :=
  if b.detJoinQ ≠ [] then b.detFlushJoinsLocked o else b

def leave (clockMode : Bool) (o : Outside) (b : Barrier) (tid : Nat) : Barrier :=
  if b.state tid = .RUNNING then
    { b.setState tid .LEFT with
      leftThreads := b.leftThreads + 1
      runningThreads := b.runningThreads - 1 }.tryWakeNext clockMode o
  else { b.setState tid .LEFT with leftThreads := b.leftThreads + 1 }

def sync (clockMode : Bool) (o : Outside) (b : Barrier) (tid : Nat) : Barrier :=
  { b.setState tid .WAITING with
    runningThreads := b.runningThreads - 1
    synced := update b.synced tid true }.tryWakeNext clockMode o

/-- The thread goes back among those still to run, behind the ones that come before it. -/
def requeue (o : Outside) (b : Barrier) (tid : Nat) : Barrier :=
  let idx := b.lastIdx tid
  if idx < b.curThreadIdx then
    let cur := b.curThreadIdx - 1
    moveDown o tid (b.runListSize - 1 - cur) cur ({ b with curThreadIdx := cur }.exchange tid idx cur)
  else moveDown o tid (b.runListSize - 1 - idx) idx b

def yield (clockMode : Bool) (o : Outside) (b : Barrier) (tid : Nat) : Barrier :=
  if b.state tid ≠ .RUNNING then b
  else
    ({ b.setState tid .WAITING with runningThreads := b.runningThreads - 1 }.requeue o tid).tryWakeNext clockMode o

/-- One section under the scheduler lock. -/
inductive Op where
  | join (tid : Nat)
  | detFlushJoins
  | leave (tid : Nat)
  | sync (tid : Nat)
  | yield (tid : Nat)
deriving DecidableEq, Repr

def step (clockMode : Bool) (b : Barrier) (a : Op × Outside) : Barrier :=
  match a.1 with
  | .join tid => b.join clockMode a.2 tid
  | .detFlushJoins => b.detFlushJoins a.2
  | .leave tid => b.leave clockMode a.2 tid
  | .sync tid => b.sync clockMode a.2 tid
  | .yield tid => b.yield clockMode a.2 tid

/-- What the assertions ask for. A thread that is queued to join is blocked in `join`. -/
def Allowed (b : Barrier) (a : Op × Outside) : Prop :=
  match a.1 with
  | .join tid => (b.state tid = .LEFT ∨ b.state tid = .OFFLINE) ∧ tid ∉ b.detJoinQ
  | .detFlushJoins => True
  | .leave tid => b.state tid = .RUNNING ∨ b.state tid = .WAITING
  | .sync tid => b.state tid = .RUNNING
  | .yield _ => True

instance Allowed.decidable (b : Barrier) : (a : Op × Outside) → Decidable (b.Allowed a)
  | (.join tid, _) => inferInstanceAs (Decidable ((b.state tid = .LEFT ∨ b.state tid = .OFFLINE) ∧ tid ∉ b.detJoinQ))
  | (.detFlushJoins, _) => inferInstanceAs (Decidable True)
  | (.leave tid, _) => inferInstanceAs (Decidable (b.state tid = .RUNNING ∨ b.state tid = .WAITING))
  | (.sync tid, _) => inferInstanceAs (Decidable (b.state tid = .RUNNING))
  | (.yield _, _) => inferInstanceAs (Decidable True)

end Barrier

end Pimid.Sched
