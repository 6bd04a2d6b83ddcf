import Pimid.Noc.Fold
import Pimid.Noc.Frozen
import Pimid.Lib.Ties
import Mathlib.Data.Prod.Lex
import Mathlib.Logic.Function.Basic

/-!
# Draining a batch

`runBatchDrain_` sorts a batch by time, source and destination and lets the network run:
a record is injected when its time has come, and the messages that have arrived are taken
off the destinations' buffers. The buffers are visited only when the lower bound
`minReady` says that one of them can hold a ready message.

The network between the buffers is a parameter. It is told what is injected and what is
dequeued, it runs one event at a time, and it answers each time with the messages it
enqueues for the destinations. Ticks are natural numbers. `injected` and `dequeues` are
not in the program: they list the messages injected and taken, in order.
-/

namespace Pimid.Noc

/-- The fabric clock over the device clock, reduced. -/
structure FabricClock where
  fabNum : Nat := 1
  fabDen : Nat := 1
  num_pos : 0 < fabNum := by decide
  den_pos : 0 < fabDen := by decide

namespace FabricClock

/-- The first fabric edge at or after device cycle `c`. -/
def devToFab (k : FabricClock) (c : Nat) : Nat :=
  if k.fabNum = k.fabDen then c else (c * k.fabNum + k.fabDen - 1) / k.fabDen

/-- A duration in device cycles, rounded up. -/
def fabToDev (k : FabricClock) (t : Nat) : Nat :=
  if k.fabNum = k.fabDen then t else (t * k.fabDen + k.fabNum - 1) / k.fabNum

end FabricClock

/-! ## Message buffers -/

structure SimpleMessage where
  src : Nat
  dst : Nat
  ctrl : Bool
  time : Nat
  tag : Nat
deriving DecidableEq, Repr

structure BufferEntry where
  msg : SimpleMessage
  readyTime : Nat
deriving DecidableEq, Repr

structure MessageBuffer where
  ordered : Bool := false
  buffer : List BufferEntry := []
deriving DecidableEq, Repr

/-- The largest tick. -/
def maxTick : Nat := 2 ^ 64 - 1

namespace MessageBuffer

def isReady (b : MessageBuffer) (current : Nat) : Bool :=
  b.buffer.head?.any fun e => e.readyTime ≤ current

def readyTime (b : MessageBuffer) : Nat :=
  match b.buffer.head? with
  | some e => e.readyTime
  | none => maxTick

def enqueue (b : MessageBuffer) (msg : SimpleMessage) (current delta : Nat) : MessageBuffer :=
  let readyTime := current + delta
  if b.ordered then { b with buffer := b.buffer ++ [⟨msg, readyTime⟩] }
  else
    { b with buffer := b.buffer.takeWhile (·.readyTime ≤ readyTime) ++
        ⟨msg, readyTime⟩ :: b.buffer.dropWhile (·.readyTime ≤ readyTime) }

end MessageBuffer

/-- An `enqueue` on the buffer of destination `node`. -/
structure Enqueue where
  node : Nat
  msg : SimpleMessage
  current : Nat
  delta : Nat

/-- The network from the sources' buffers to the destinations'. Every step of it may look at the latter. -/
structure Network (σ : Type) where
  /-- A message is put into its source's buffer. -/
  inject : σ → (Nat → MessageBuffer) → SimpleMessage → σ × List Enqueue
  /-- The next event of the queue is processed, at the tick it says. -/
  processOneEvent : σ → (Nat → MessageBuffer) → Nat → Option (σ × Nat × List Enqueue)
  /-- The dequeue callback of the destination's buffer. -/
  dequeueCallback : σ → (Nat → MessageBuffer) → Nat → Nat → σ × List Enqueue

/-! ## The drain -/

structure Drainer (σ : Type) where
  net : σ
  bufs : Nat → MessageBuffer
  curTick : Nat := 0
  minReady : Nat := maxTick
  todo : List BatchAccess
  tag : Nat := 1
  inTransit : Nat → Option (Nat × PairKey) := fun _ => none
  totalLat : Nat := 0
  delivered : Nat := 0
  perPairLat : PairAcc := []
  injected : List SimpleMessage := []
  dequeues : List (Nat × SimpleMessage × Nat) := []

/-- What a drain does not change. `dsts` are the destinations in the order they are visited. -/
structure Batch where
  numNodes : Nat
  clock : FabricClock
  baseTime : Nat
  dsts : List Nat
  validCount : Nat
  lastTick : Nat

def valid (numNodes : Nat) (a : BatchAccess) : Bool :=
  a.src ≠ a.dst && a.src < numNodes && a.dst < numNodes

namespace Drainer

variable {σ : Type}

/-- The ready hook is set on the buffers of the batch's destinations. -/
def enqueue (c : Batch) (s : Drainer σ) (e : Enqueue) : Drainer σ :=
  { s with
    bufs := Function.update s.bufs e.node ((s.bufs e.node).enqueue e.msg e.current e.delta)
    minReady := if e.node ∈ c.dsts ∧ e.current + e.delta < s.minReady then e.current + e.delta else s.minReady }

def injectTick (c : Batch) (a : BatchAccess) : Nat :=
  c.clock.devToFab (a.cycle - c.baseTime)

/-- The message of a record injected now. -/
def message (s : Drainer σ) (a : BatchAccess) : SimpleMessage :=
  ⟨a.src, a.dst, a.ctrl, s.curTick, s.tag⟩

def sent (s : Drainer σ) (net : σ) (a : BatchAccess) : Drainer σ :=
  { s with
    net := net
    tag := s.tag + 1
    inTransit := Function.update s.inTransit s.tag (some (s.curTick, ⟨a.src, a.dst, a.ctrl⟩))
    injected := s.injected ++ [s.message a] }

def injectOne (N : Network σ) (c : Batch) (s : Drainer σ) (a : BatchAccess) : Drainer σ :=
  let r := N.inject s.net s.bufs (s.message a)
  r.2.foldl (enqueue c) (s.sent r.1 a)

/-- The records whose time has come. -/
def injectDue (N : Network σ) (c : Batch) : List BatchAccess → Drainer σ → Drainer σ
  | [], s => { s with todo := [] }
  | a :: rest, s =>
    if s.curTick < injectTick c a then { s with todo := a :: rest }
    else injectDue N c rest (if valid c.numNodes a then s.injectOne N c a else s)

/-- The message's latency, if it is one of the batch. -/
def deliver (c : Batch) (s : Drainer σ) (msg : SimpleMessage) : Drainer σ :=
  match s.inTransit msg.tag with
  | some (tick, pair) =>
    let lat := c.clock.fabToDev (s.curTick - tick)
    { s with
      inTransit := Function.update s.inTransit msg.tag none
      totalLat := s.totalLat + lat
      delivered := s.delivered + 1
      perPairLat := s.perPairLat.add (pair, lat, 1) }
  | none => s

def popped (s : Drainer σ) (net : σ) (d : Nat) (e : BufferEntry) (rest : List BufferEntry) : Drainer σ :=
  { s with
    net := net
    bufs := Function.update s.bufs d { s.bufs d with buffer := rest }
    dequeues := s.dequeues ++ [(d, e.msg, s.curTick)] }

/-- The front message of destination `d` is taken. -/
def take (N : Network σ) (c : Batch) (d : Nat) (e : BufferEntry) (rest : List BufferEntry) (s : Drainer σ) : Drainer σ :=
  let bufs := Function.update s.bufs d { s.bufs d with buffer := rest }
  let r := N.dequeueCallback s.net bufs d s.curTick
  (r.2.foldl (enqueue c) (s.popped r.1 d e rest)).deliver c e.msg

/-- All that is ready at destination `d`; none where `fuel` messages are not all. -/
def drainBuffer (N : Network σ) (c : Batch) (d : Nat) : Nat → Drainer σ → Option (Drainer σ)
  | 0, s => if (s.bufs d).isReady s.curTick then none else some s
  | fuel + 1, s =>
    match (s.bufs d).buffer with
    | [] => some s
    | e :: rest => if e.readyTime ≤ s.curTick then drainBuffer N c d fuel (s.take N c d e rest) else some s

/-- One destination's turn, which ends with its front's ready time. -/
def visitOne (N : Network σ) (c : Batch) (fuel : Nat) (s : Drainer σ) (d : Nat) : Option (Drainer σ) :=
  (drainBuffer N c d fuel s).map fun s => { s with minReady := min s.minReady (s.bufs d).readyTime }

def visit (N : Network σ) (c : Batch) (fuel : Nat) (s : Drainer σ) : Option (Drainer σ) :=
  c.dsts.foldlM (visitOne N c fuel) { s with minReady := maxTick }

def moved (s : Drainer σ) (net : σ) (tick : Nat) : Drainer σ :=
  { s with net := net, curTick := tick }

def advance (N : Network σ) (c : Batch) (s : Drainer σ) : Drainer σ :=
  match N.processOneEvent s.net s.bufs s.curTick with
  | some (net, tick, es) => es.foldl (enqueue c) (s.moved net tick)
  | none => { s with curTick := s.curTick + 1 }

/-- Which turns of the loop visit the buffers. -/
abbrev Guard := Nat → Nat → Bool

/-- The program's: no visit before `minReady`. -/
def whenReady : Guard := fun minReady curTick => minReady ≤ curTick

/-- A visit in every turn. -/
def always : Guard := fun _ _ => true

def visitIf (N : Network σ) (c : Batch) (guard : Guard) (fuel : Nat) (s : Drainer σ) : Option (Drainer σ) :=
  if guard s.minReady s.curTick then visit N c fuel s else some s

/-- The network goes on, unless all is delivered. -/
def finish (N : Network σ) (c : Batch) (s : Drainer σ) : Drainer σ :=
  if c.validCount ≤ s.delivered then s else s.advance N c

/-- One turn of the loop. -/
def turn (N : Network σ) (c : Batch) (guard : Guard) (fuel : Nat) (s : Drainer σ) : Option (Drainer σ) :=
  (visitIf N c guard fuel (injectDue N c s.todo s)).map (finish N c)

/-- The loop, for at most `turns` turns. -/
def loop (N : Network σ) (c : Batch) (guard : Guard) (fuel : Nat) : Nat → Drainer σ → Option (Drainer σ)
  | 0, s => some s
  | turns + 1, s =>
    if s.delivered < c.validCount ∧ s.curTick < c.lastTick then (turn N c guard fuel s).bind (loop N c guard fuel turns)
    else some s

end Drainer

/-! ## The batch -/

/-- The order of the sort: time, source, destination. -/
def sortKey (a : BatchAccess) : Nat ×ₗ Nat ×ₗ Nat :=
  toLex (a.cycle, toLex (a.src, a.dst))

/-- A network wrapper: its nodes, its clock, the end of the priced window, and the iteration order of an unordered set that
is filled in the order of the list. -/
structure Drains where
  numNodes : Nat
  clock : FabricClock
  roiEndCycle : Option Nat
  setOrder : List Nat → List Nat

namespace Drains

variable {σ : Type}

/-- The records inside the priced window. -/
def priced (w : Drains) (records : List BatchAccess) : List BatchAccess :=
  match w.roiEndCycle with
  | some c => records.filter (·.cycle ≤ c)
  | none => records

/-- `std::sort` by `sortKey`, which may permute records of one key. -/
structure Sorted (w : Drains) (records batch : List BatchAccess) : Prop where
  perm : batch.Perm (w.priced records)
  sorted : batch.Pairwise fun a b => sortKey a ≤ sortKey b

def cycleOf (a : Option BatchAccess) : Nat :=
  (a.map (·.cycle)).getD 0

def batchOf (w : Drains) (batch : List BatchAccess) : Batch :=
  let validOnes := batch.filter (valid w.numNodes)
  let baseTime := cycleOf batch.head?
  { numNodes := w.numNodes
    clock := w.clock
    baseTime := baseTime
    dsts := w.setOrder (validOnes.map (·.dst))
    validCount := validOnes.length
    lastTick := w.clock.devToFab (cycleOf batch.getLast? - baseTime) + w.clock.devToFab (validOnes.length * 256 + 1000000) }

/-- `minReady` starts at the earliest front of the destinations. -/
def start (w : Drains) (batch : List BatchAccess) (net : σ) (bufs : Nat → MessageBuffer) : Drainer σ :=
  { net := net
    bufs := bufs
    todo := batch
    minReady := (w.batchOf batch).dsts.foldl (fun m d => min m (bufs d).readyTime) maxTick }

/-- `runBatchDrain_` on the sorted batch, up to the loop's end or for `turns` turns. -/
def runBatchDrain (w : Drains) (N : Network σ) (guard : Drainer.Guard) (fuel turns : Nat) (batch : List BatchAccess) (net : σ)
    (bufs : Nat → MessageBuffer) : Option (Drainer σ) :=
  Drainer.loop N (w.batchOf batch) guard fuel turns (w.start batch net bufs)

end Drains

end Pimid.Noc
