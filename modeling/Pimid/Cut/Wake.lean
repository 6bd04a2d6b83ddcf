import Pimid.Lib.Machine
import Pimid.Lib.Relax
import Mathlib.Algebra.GroupWithZero.Nat
import Mathlib.Algebra.Order.Monoid.Unbundled.WithTop
import Mathlib.Data.Fintype.Basic
import Mathlib.Data.List.FinRange
import Mathlib.Data.Multiset.AddSub
import Mathlib.Order.Lattice.Nat

/-!
# Waiting ranks and the cut of the memory replay

Thread-MPI ranks, each on its own core, and the tables from which the phase barrier
takes the cut of the memory replay: the messages posted and not yet received, and the
barriers not yet left. A clock of a core is on the axis its records are stamped on;
`cutRelDelta` takes it to the axis of the rendezvous, on which sends and arrivals are
timed. `~0` is `⊤`.

The operations of the tables and the bound are as the plugin computes them. What the
ranks may do around them is a machine: a rank that waits goes on no earlier than what
releases it. Of that, `posted`, `arrivals` and `barFirstBaseGen` are what the transport
knows; the bound reads the tables only.
-/

namespace Pimid.Cut

open Function (update)

/-- `CutWakeEntry` -/
structure Entry where
  t : Nat
  gen : Nat
deriving DecidableEq, Repr

/-- `CutWakeBar` -/
structure Bar where
  arr : Nat := 0
  adv : Nat := 0
  maxArr : Nat := 0
  gen : Nat := 0
deriving DecidableEq, Repr

/-- An arrival at `t`; the first one sets the origin. -/
def Bar.arrival (b : Bar) (gen t : Nat) : Bar :=
  { b with
    gen := if b.arr = 0 then gen else b.gen
    maxArr := max b.maxArr t
    arr := b.arr + 1 }

/-- What `MPI_WAIT_PEER` says the rank waits for: a receive from one source or from
any, or a barrier. -/
inductive Wait (N : Nat) where
  | recv (src : Option (Fin N))
  | barrier
deriving DecidableEq, Repr

/-- A rank that is `arrived` has arrived at a barrier and does not wait yet. -/
inductive Status (N : Nat) where
  | running
  | arrived
  | waiting (w : Wait N)
  | exited
deriving DecidableEq, Repr

namespace Status

variable {N : Nat}

/-- State 4 -/
def isWaiting : Status N → Bool
  | waiting _ => true
  | _ => false

/-- States 0 and 1 -/
def isActive : Status N → Bool
  | running => true
  | arrived => true
  | _ => false

/-- Between the arrival at a barrier and the advance from it. -/
def inBarrier : Status N → Bool
  | arrived => true
  | waiting .barrier => true
  | _ => false

end Status

structure State (N : Nat) where
  -- `cutAxisClock`, `cutRelDelta`
  cutAxisClock : Fin N → Nat
  cutRelDelta : Fin N → Int
  status : Fin N → Status N
  rankBarGen : Fin N → Nat
  -- the rank has its thread in `g_cutWakeRankTid`
  rankKnown : Fin N → Bool
  roiBaseGen : Nat
  cutWakeGen : Nat
  cutWakeStale : Nat
  cutWakeFloor : Multiset Nat
  cutWakeMsgs : Fin N → Fin N → List Entry
  cutWakeBars : Nat → Option Bar
  posted : Fin N → Fin N → List Entry
  arrivals : Nat → Fin N → Option Nat
  barFirstBaseGen : Nat → Option Nat

namespace State

variable {N : Nat}

def init (delta : Fin N → Int) : State N where
  cutAxisClock _ := 0
  cutRelDelta := delta
  status _ := .running
  rankBarGen _ := 0
  rankKnown _ := false
  roiBaseGen := 0
  cutWakeGen := 0
  cutWakeStale := 0
  cutWakeFloor := 0
  cutWakeMsgs _ _ := []
  cutWakeBars _ := none
  posted _ _ := []
  arrivals _ _ := none
  barFirstBaseGen _ := none

/-- A clock of core `c` on the rendezvous axis. -/
def toRel (s : State N) (c : Fin N) (clock : Nat) : Nat := (clock + s.cutRelDelta c).toNat

def relAxisClock (s : State N) (c : Fin N) : Nat := s.toRel c (s.cutAxisClock c)

/-! ## The tables -/

def cutWakeRebase (s : State N) : State N :=
  if s.roiBaseGen = s.cutWakeGen then s
  else
    { s with
      cutWakeStale := s.cutWakeStale + s.cutWakeFloor.card
      cutWakeFloor := 0
      cutWakeGen := s.roiBaseGen }

def cutWakeDrop (s : State N) (e : Entry) : State N :=
  if e.gen ≠ s.cutWakeGen then { s with cutWakeStale := s.cutWakeStale - 1 }
  else { s with cutWakeFloor := s.cutWakeFloor.erase e.t }

def cutWakeNoteRank (s : State N) (r : Fin N) : State N :=
  { s with rankKnown := update s.rankKnown r true }

/-- `g_cutWakeMsgs[(src, dst)] = q` -/
def setMsgs (s : State N) (src dst : Fin N) (q : List Entry) : State N :=
  { s with cutWakeMsgs := update s.cutWakeMsgs src (update (s.cutWakeMsgs src) dst q) }

/-- `cutWakeMessage(.., false, src, dst)`: the sender's thread runs rank `src`. -/
def cutWakeSend (s₀ : State N) (src dst : Fin N) : State N :=
  let s := s₀.cutWakeRebase
  let t := s.relAxisClock src
  let s := s.cutWakeNoteRank src
  let s := s.setMsgs src dst (s.cutWakeMsgs src dst ++ [⟨t, s.cutWakeGen⟩])
  { s with cutWakeFloor := t ::ₘ s.cutWakeFloor }

/-- `cutWakeMessage(.., true, src, dst)` -/
def cutWakeRecv (s₀ : State N) (src dst : Fin N) : State N :=
  let s := s₀.cutWakeRebase
  match s.cutWakeMsgs src dst with
  | [] => s
  | e :: q => (s.cutWakeDrop e).setMsgs src dst q

/-- `g_cutWakeBars[k] = b` -/
def setBar (s : State N) (k : Nat) (b : Option Bar) : State N :=
  { s with cutWakeBars := update s.cutWakeBars k b }

/-- `cutWakeBarrier(.., k, true)` -/
def cutWakeArrive (s₀ : State N) (r : Fin N) (k : Nat) : State N :=
  let s := s₀.cutWakeRebase
  let b := ((s.cutWakeBars k).getD {}).arrival s.cutWakeGen (s.relAxisClock r)
  let s := s.setBar k (some b)
  if b.arr = N then
    if b.gen = s.cutWakeGen then { s with cutWakeFloor := b.maxArr ::ₘ s.cutWakeFloor }
    else { s with cutWakeStale := s.cutWakeStale + 1 }
  else s

/-- `cutWakeBarrier(.., k, false)` -/
def cutWakeAdvance (s₀ : State N) (k : Nat) : State N :=
  let s := s₀.cutWakeRebase
  let b := (s.cutWakeBars k).getD {}
  let b := { b with adv := b.adv + 1 }
  if N ≤ b.adv then
    (if N ≤ b.arr then s.cutWakeDrop ⟨b.maxArr, b.gen⟩ else s).setBar k none
  else s.setBar k (some b)

/-! ## The bound -/

/-- The bound of a rank that is not known is 0. -/
def lrank (s : State N) (L : Fin N → WithTop Nat) (r : Fin N) : WithTop Nat :=
  if s.rankKnown r then L r else 0

/-- The oldest message posted, `⊤` with none. -/
def front (s : State N) (src dst : Fin N) : WithTop Nat :=
  match s.cutWakeMsgs src dst with
  | [] => ⊤
  | e :: _ => e.t

def others (me : Fin N) : List (Fin N) := (List.finRange N).filter (· ≠ me)

def recvCand (s : State N) (L : Fin N → WithTop Nat) (me : Fin N) : Option (Fin N) → WithTop Nat
  | some src =>
    match s.cutWakeMsgs src me with
    | [] => s.lrank L src
    | e :: _ => e.t
  | none => least (s.lrank L) (others me) (least (fun r => s.front r me) (List.finRange N) ⊤)

/-- The latest arrival at barrier `k` so far. -/
def sofar (s : State N) (k : Nat) : Nat :=
  match s.cutWakeBars k with
  | some b => if b.gen = s.cutWakeGen then b.maxArr else 0
  | none => 0

def released (s : State N) (k : Nat) : Bool :=
  match s.cutWakeBars k with
  | some b => N ≤ b.arr
  | none => false

/-- The other ranks that have not arrived at barrier `k`. -/
def missing (s : State N) (me : Fin N) (k : Nat) : List (Fin N) :=
  (others me).filter (s.rankBarGen · < k)

/-- The loop over the other ranks ends at 0 when one of them is not known. -/
def late (s : State N) (L : Fin N → WithTop Nat) (me : Fin N) (k : Nat) : WithTop Nat :=
  if (others me).any (fun r => !s.rankKnown r) then 0 else least (s.lrank L) (s.missing me k) ⊤

def barrierCand (s : State N) (L : Fin N → WithTop Nat) (me : Fin N) : WithTop Nat :=
  let k := s.rankBarGen me
  if s.released k then s.sofar k
  else if s.late L me k = ⊤ then s.sofar k else max (s.sofar k : WithTop Nat) (s.late L me k)

def cand (s : State N) (L : Fin N → WithTop Nat) (c : Fin N) : WithTop Nat :=
  if s.cutWakeStale = 0 then
    match s.status c with
    | .waiting (.recv src) => s.recvCand L c src
    | .waiting .barrier => s.barrierCand L c
    | _ => 0
  else 0

/-- `nl`, the bound of a waiting core on the bounds of the others. -/
def wakeOf (s : State N) (L : Fin N → WithTop Nat) (c : Fin N) : WithTop Nat :=
  max (s.relAxisClock c : WithTop Nat) (s.cand L c)

/-- A core that does not wait is bounded by its clock, an exited one never acts. -/
def bounds₀ (s : State N) (c : Fin N) : WithTop Nat :=
  if (s.status c).isActive then s.relAxisClock c else ⊤

def waitingCores (s : State N) : List (Fin N) := (List.finRange N).filter fun c => (s.status c).isWaiting

/-- `L` after the passes. -/
def bounds (s : State N) : Fin N → WithTop Nat := solve s.wakeOf s.waitingCores (N + 2) s.bounds₀

/-- The bound of a waiting core on its record axis; its own clock where there is none. -/
def wakeRec (s : State N) (c : Fin N) : Nat :=
  match s.bounds c with
  | none => (s.relAxisClock c - s.cutRelDelta c).toNat
  | some b => ((b : Int) - s.cutRelDelta c).toNat

def cutWakeBound (s₀ : State N) : WithTop Nat :=
  let s := s₀.cutWakeRebase
  least (fun c => (s.wakeRec c : WithTop Nat)) (s.waitingCores.filter (s.relAxisClock · ≠ 0)) ⊤

/-- `cutDram` of `EndOfPhaseActions`. -/
def cutDram (s : State N) : WithTop Nat :=
  let held := (List.finRange N).filter fun c => (s.status c).isActive && s.cutAxisClock c != 0
  let cut := least (fun c => (s.cutAxisClock c : WithTop Nat)) held ⊤
  if s.waitingCores.any (s.cutAxisClock · ≠ 0) then min cut s.cutWakeBound else cut

end State

/-! ## What the ranks do -/

inductive Act (N : Nat) where
  | run (r : Fin N) (cycles : Nat)
  | record (r : Fin N)
  | post (r dst : Fin N)
  | block (r : Fin N) (src : Option (Fin N))
  | recv (r src : Fin N) (clock : Nat)
  | arrive (r : Fin N)
  | park (r : Fin N)
  | leave (r : Fin N) (clock : Nat)
  | exit (r : Fin N)

/-- A record: the rank and the stamp. -/
abbrev Record (N : Nat) := Fin N × Nat

namespace State

variable {N : Nat}

def setClock (s : State N) (r : Fin N) (clock : Nat) : State N :=
  { s with cutAxisClock := update s.cutAxisClock r clock }

def setStatus (s : State N) (r : Fin N) (st : Status N) : State N :=
  { s with status := update s.status r st }

def setPosted (s : State N) (src dst : Fin N) (q : List Entry) : State N :=
  { s with posted := update s.posted src (update (s.posted src) dst q) }

/-- The rank takes a message of `src` now. -/
def takes (s : State N) (r src : Fin N) : Bool :=
  match s.status r with
  | .running => true
  | .waiting (.recv none) => true
  | .waiting (.recv (some w)) => w = src
  | _ => false

/-- A message of the current origin is not received before it was sent. -/
def notBefore (s : State N) (r : Fin N) (clock : Nat) (e : Entry) : Bool :=
  e.gen = s.roiBaseGen → e.t ≤ s.toRel r clock

/-- All ranks are at barrier `k`; the release is charged when its origin is the current
one, and is then no earlier than any arrival. -/
def mayLeave (s : State N) (r : Fin N) (k clock : Nat) : Bool :=
  (List.finRange N).all fun q =>
    match s.arrivals k q with
    | none => false
    | some t => s.barFirstBaseGen k = some s.roiBaseGen → t ≤ s.toRel r clock

def post (s : State N) (r dst : Fin N) : State N :=
  (s.cutWakeSend r dst).setPosted r dst (s.posted r dst ++ [⟨s.relAxisClock r, s.roiBaseGen⟩])

def receive (s : State N) (r src : Fin N) (q : List Entry) (clock : Nat) : State N :=
  (((s.cutWakeRecv src r).setPosted src r q).setClock r clock).setStatus r .running

/-- `MPI_TIME` -/
def arrive (s : State N) (r : Fin N) : State N :=
  let k := s.rankBarGen r + 1
  let s' := (s.cutWakeArrive r k).setStatus r .arrived
  { s' with
    rankBarGen := update s'.rankBarGen r k
    arrivals := update s'.arrivals k (update (s'.arrivals k) r (some (s.relAxisClock r)))
    barFirstBaseGen :=
      update s'.barFirstBaseGen k (some ((s'.barFirstBaseGen k).getD s.roiBaseGen)) }

/-- `MPI_ADVANCE` -/
def leave (s : State N) (r : Fin N) (clock : Nat) : State N :=
  ((s.cutWakeAdvance (s.rankBarGen r)).setClock r clock).setStatus r .running

/-- `MPI_WAIT_PEER` -/
def waitPeer (s : State N) (r : Fin N) (w : Wait N) : State N :=
  (s.cutWakeNoteRank r).setStatus r (.waiting w)

def step (s : State N) : Act N → Option (State N × List (Record N))
  | .run r cycles =>
    if (s.status r).isActive then some (s.setClock r (s.cutAxisClock r + cycles), []) else none
  | .record r => if (s.status r).isActive then some (s, [(r, s.cutAxisClock r)]) else none
  | .post r dst => if s.status r = .running then some (s.post r dst, []) else none
  | .block r src => if s.status r = .running then some (s.waitPeer r (.recv src), []) else none
  | .recv r src clock =>
    match s.posted src r with
    | [] => none
    | e :: q =>
      if s.takes r src ∧ s.cutAxisClock r ≤ clock ∧ s.notBefore r clock e then some (s.receive r src q clock, [])
      else none
  | .arrive r => if s.status r = .running then some (s.arrive r, []) else none
  | .park r => if s.status r = .arrived then some (s.waitPeer r .barrier, []) else none
  | .leave r clock =>
    if (s.status r).inBarrier ∧ s.cutAxisClock r ≤ clock ∧ s.mayLeave r (s.rankBarGen r) clock then
      some (s.leave r clock, [])
    else none
  | .exit r => if s.status r = .running then some (s.setStatus r .exited, []) else none

/-- The clocks' origins move: new clocks and offsets, and the origin's generation. -/
def rebase (s : State N) (clock : Fin N → Nat) (delta : Fin N → Int) : State N :=
  { s with cutAxisClock := clock, cutRelDelta := delta, roiBaseGen := s.roiBaseGen + 1 }

end State

/-- What happens in a run: the ranks act, or the origins move. -/
inductive Move (N : Nat) where
  | act (a : Act N)
  | rebase (clock : Fin N → Nat) (delta : Fin N → Int)

/-- Runs from the start, the clocks' origins moving at any time. -/
def machine {N : Nat} (delta : Fin N → Int) : Machine (State N) (Move N) (Record N) where
  init := State.init delta
  step s
    | .act a => s.step a
    | .rebase clock delta => some (s.rebase clock delta, [])

/-- Runs from `s` on, with the origins as they are there. -/
def State.later {N : Nat} (s : State N) : Machine (State N) (Act N) (Record N) where
  init := s
  step := State.step

end Pimid.Cut
