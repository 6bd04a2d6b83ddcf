import Mathlib.Algebra.BigOperators.Field
import Mathlib.Data.List.Range
import Mathlib.Data.Rat.Lemmas
import Mathlib.Tactic.Ring

/-!
# The host's ring

One ring stop for each core and its cache slices, one for each memory controller. The
constructor deals the stops out in one pass over the cores: a controller's stop comes as
soon as its share of the cores has passed. A message takes the shorter way round, and a
GET pays it twice; the shortest round trip is taken out of every access again.

Cycles and counts are natural numbers.
-/

namespace Pimid.Host

inductive Mode where
  | RING
  | CROSSBAR
  | BUS
deriving DecidableEq, Repr

/-! ## The stops -/

/-- The stops dealt out so far; `pos` is the next one. -/
structure Stops where
  pos : Nat := 0
  coreStop : List Nat := []
  mcStop : List Nat := []
deriving DecidableEq, Repr

namespace Stops

def addCore (s : Stops) : Stops :=
  { s with pos := s.pos + 1, coreStop := s.coreStop ++ [s.pos] }

def addMc (s : Stops) : Stops :=
  { s with pos := s.pos + 1, mcStop := s.mcStop ++ [s.pos] }

/-- `while (m < mcs && due) mcStop[m++] = pos++;` -/
def addMcs (mcs : Nat) (due : Nat → Bool) : Nat → Stops → Stops
  | 0, s => s
  | fuel + 1, s => if s.mcStop.length < mcs ∧ due s.mcStop.length then addMcs mcs due fuel s.addMc else s

/-- Core `c`'s stop, and those of the controllers whose share of the cores it completes. -/
def dealCore (cores mcs : Nat) (s : Stops) (c : Nat) : Stops :=
  addMcs mcs (fun m => (m + 1) * cores ≤ (c + 1) * mcs) mcs s.addCore

/-- The constructor's two loops. -/
def deal (cores mcs : Nat) : Stops :=
  addMcs mcs (fun _ => true) mcs ((List.range cores).foldl (dealCore cores mcs) {})

end Stops

/-! ## The fabric -/

structure HostFabric where
  mode : Mode
  cores : Nat
  mcs : Nat
  slices : Nat
  hasL3 : Bool
  hopCycles : Nat
  beats : Nat
  numStops : Nat
  coreStop : List Nat
  mcStop : List Nat

inductive ReqType where
  | GETS
  | GETX
  | PUTS
  | PUTX
deriving DecidableEq, Repr

structure MemReq where
  lineAddr : Nat
  type : ReqType
  cycle : Nat
  childId : Nat := 0

/-- What accesses leave behind: the bus's free cycle and the counters. -/
structure Traffic where
  busFree : Nat := 0
  dataMsgs : Nat := 0
  dataHops : Nat := 0
  reqMsgs : Nat := 0
  busWait : Nat := 0

namespace HostFabric

def new (mode : Mode) (cores mcs slices : Nat) (hasL3 : Bool) (hopCycles beats : Nat) : HostFabric :=
  let cores := max 1 cores
  let mcs := max 1 mcs
  let s := Stops.deal cores mcs
  { mode, cores, mcs, slices := max 1 slices, hasL3, hopCycles, beats := max 1 beats
    numStops := cores + mcs, coreStop := s.coreStop, mcStop := s.mcStop }

variable (f : HostFabric)

def dist (a b : Nat) : Nat :=
  let d := if a > b then a - b else b - a
  min d (f.numStops - d)

/-- The stop of slice `s`. -/
def stopOfSlice (s : Nat) : Nat := f.coreStop.getD (s * f.cores / f.slices) 0

/-- The round trips between core `c` and every slice. -/
def roundTrips (c : Nat) : List Nat :=
  (List.range f.slices).map fun s => 2 * f.dist (f.coreStop.getD c 0) (f.stopOfSlice s)

/-- The shortest round trip to a slice, and the mean one to the nearest cycle. -/
def sliceRt : Nat × Nat :=
  match f.mode with
  | .CROSSBAR => (f.hopCycles, f.hopCycles)
  | .BUS => (1 + f.beats, 1 + f.beats)
  | .RING =>
    let trips := (List.range f.cores).flatMap f.roundTrips
    (trips.min?.getD 0, (2 * trips.sum + f.cores * f.slices) / (2 * (f.cores * f.slices)))

/-- The slice a line is in. -/
def sliceOf (lineAddr : Nat) : Nat := lineAddr * 0x9E3779B97F4A7C15 % 2 ^ 64 / 2 ^ 32 % f.slices

def sliceStop (lineAddr : Nat) : Nat := f.stopOfSlice (f.sliceOf lineAddr)

def coreStopOf (core : Nat) : Nat := f.coreStop.getD (core % f.cores) 0

def mcStopOf (lineAddr : Nat) : Nat := f.mcStop.getD (lineAddr % f.mcs) 0

/-- What an access pays between stops `a` and `b`. -/
def charge (a b : Nat) (req : MemReq) (cleanCarriesLine : Bool) (s : Traffic) : Nat × Traffic :=
  if req.type = .PUTS ∧ ¬ cleanCarriesLine then (0, s)
  else
    let get := req.type = .GETS ∨ req.type = .GETX
    let s := { s with reqMsgs := s.reqMsgs + 1, dataMsgs := s.dataMsgs + 1 }
    match f.mode with
    | .RING =>
      let h := f.dist a b
      (if get then 2 * h else h, { s with dataHops := s.dataHops + h })
    | .CROSSBAR => (f.hopCycles, { s with dataHops := s.dataHops + 1 })
    | .BUS =>
      let occ := 1 + f.beats
      let cap := (f.cores - 1) * occ
      let start := min (max s.busFree req.cycle) (req.cycle + cap)
      let wait := start - req.cycle
      (wait + occ, { s with busFree := max s.busFree (start + occ), busWait := s.busWait + wait })

end HostFabric

/-- An L2's port to the L3, or the last cache's to the controllers. -/
structure HostFabricPort where
  fab : HostFabric
  memSide : Bool
  core : Nat
  comp : Nat
  cleanLines : Bool

/-- The response through the port, where the object behind it answers at `resp`. -/
def HostFabricPort.access (p : HostFabricPort) (req : MemReq) (resp : Nat) (s : Traffic) : Nat × Traffic :=
  let a := if p.memSide then
      (if p.fab.hasL3 then p.fab.sliceStop req.lineAddr else p.fab.coreStopOf req.childId)
    else p.fab.coreStopOf p.core
  let b := if p.memSide then p.fab.mcStopOf req.lineAddr else p.fab.sliceStop req.lineAddr
  let ch := p.fab.charge a b req p.cleanLines s
  if p.comp ≠ 0 ∧ (req.type = .GETS ∨ req.type = .GETX) then
    (resp + if ch.1 > p.comp then ch.1 - p.comp else 0, ch.2)
  else (resp + ch.1, ch.2)

end Pimid.Host
