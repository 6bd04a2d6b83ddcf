import Pimid.Lib.Machine
import Mathlib.Algebra.Group.Nat.Defs
import Mathlib.Data.List.Basic
import Mathlib.Logic.Function.Basic

/-!
# The window counters of the DRAM replay, and its close

The end of the ROI is known only after the replay's clock has run past it, and the
window counters have to be those of that tick. `DramEpochReplay` keeps them in three
places: a periodic snapshot every `kSnapEvery` ticks (`hist_`), a ring of the last
`kRing` ticks (`ring_`), and, from the highest lower bound of the end it was told of,
the increment of every tick packed into 64 bits (`pinD_`), for `kPin` ticks.

One instance of the controller. What the controller counts is given tick by tick;
that a tick is the ROI's last is decided elsewhere, and comes as an argument.
-/

namespace Pimid.Dram

def kSnapEvery : Nat := 1024

/-- A power of two, so `& (kRing - 1)` is the remainder. -/
def kRing : Nat := 2 ^ 17

def kPin : Nat := 2 ^ 22

/-- The window counters at a tick. -/
@[ext]
structure Snap where
  tick : Nat := 0
  ticks : Nat := 0
  idle : Nat := 0
  refreshes : Nat := 0
  bankW : Nat := 0
  bankO : Nat := 0
  pdC : Nat := 0
  pdX : Nat := 0
deriving DecidableEq

/-- What the controller has counted. -/
structure Totals where
  refreshes : Nat := 0
  bankW : Nat := 0
  bankO : Nat := 0
  pdC : Nat := 0
  pdX : Nat := 0

/-- `bankTracked_`, `pdOn_` and `clOn()`. -/
structure WindowCfg where
  bankTracked : Bool
  pdOn : Bool
  clOn : Bool

/-! ## Packed increments -/

def pinPack (idle ref bw bo pc px : Nat) : Option Nat :=
  if idle > 1 ∨ ref > 0x7f ∨ bw > 0xffff ∨ bo > 0xffff ∨ pc > 0xffff ∨ px > 0xff then none
  else some (idle ||| ref <<< 1 ||| bw <<< 8 ||| bo <<< 24 ||| pc <<< 40 ||| px <<< 56)

/-- The packed increments from `a` to `b`, one tick later. -/
def pinDelta (a b : Snap) : Option Nat :=
  if b.ticks ≠ a.ticks + 1 ∨ b.idle < a.idle ∨ b.refreshes < a.refreshes ∨ b.bankW < a.bankW ∨ b.bankO < a.bankO ∨
      b.pdC < a.pdC ∨ b.pdX < a.pdX then none
  else pinPack (b.idle - a.idle) (b.refreshes - a.refreshes) (b.bankW - a.bankW) (b.bankO - a.bankO) (b.pdC - a.pdC)
    (b.pdX - a.pdX)

/-- One turn of the loop of `pinSum`. -/
def Snap.add (g : WindowCfg) (s : Snap) (v : Nat) : Snap where
  tick := s.tick
  ticks := s.ticks + 1
  idle := s.idle + (v &&& 1)
  refreshes := s.refreshes + ((v >>> 1) &&& 0x7f)
  bankW := if g.bankTracked then s.bankW + ((v >>> 8) &&& 0xffff) else s.bankW
  bankO := if g.bankTracked then s.bankO + ((v >>> 24) &&& 0xffff) else s.bankO
  pdC := s.pdC + ((v >>> 40) &&& 0xffff)
  pdX := s.pdX + ((v >>> 56) &&& 0xff)

/-! ## State -/

/-- `ring i` is `none` for a slot whose tick is `~0`, `pinD` is `none` for the empty
vector. `seen` is not in the code: the counters there were at each tick. -/
structure Window where
  curTick : Nat := 0
  ticks : Nat := 0
  idle : Nat := 0
  now : Totals := {}
  roiMarked : Bool := false
  closeArmed : Bool := false
  closeSnapped : Bool := false
  closeTick : Nat := 0
  keepHist : Bool := false
  hist : List Snap := []
  ringOn : Bool := false
  ring : Nat → Option Snap := fun _ => none
  pinSet : Bool := false
  pinBad : Bool := false
  pinStart : Nat := 0
  pinHi : Nat := 0
  pinD : Option (Nat → Nat) := none
  snap : Snap := {}
  closeFromSnap : Bool := false
  seen : Nat → Snap := fun _ => {}

namespace Window

variable (g : WindowCfg) (s : Window)

def takeSnap : Snap where
  tick := s.curTick
  ticks := s.ticks
  idle := s.idle
  refreshes := s.now.refreshes
  bankW := if g.bankTracked then s.now.bankW else 0
  bankO := if g.bankTracked then s.now.bankO else 0
  pdC := if g.pdOn then s.now.pdC else 0
  pdX := if g.pdOn then s.now.pdX else 0

def applySnap (p : Snap) : Window := { s with snap := p, closeSnapped := true }

/-- The slot of tick `u`, if it holds that tick. -/
def ringAt (u : Nat) : Option Snap := (s.ring (u % kRing)).filter fun p => p.tick = u

def pinFree : Window := { s with pinD := none, pinSet := false, pinBad := false, pinStart := 0, pinHi := 0 }

/-- `pinD_[u - pinStart_] = v; pinHi_ = u` -/
def pinStore (u v : Nat) : Window :=
  { s with pinD := s.pinD.map fun d => Function.update d (u - s.pinStart) v, pinHi := u }

def pinFillSingle : Window :=
  if s.pinBad ∨ s.pinD.isNone ∨ s.curTick ≤ s.pinStart ∨ s.curTick - s.pinStart ≥ kPin then s
  else if s.curTick ≠ s.pinHi + 1 then { s with pinBad := true }
  else
    match s.ringAt (s.curTick - 1), s.ringAt s.curTick with
    | some a, some b =>
      match pinDelta a b with
      | some v => s.pinStore s.curTick v
      | none => { s with pinBad := true }
    | _, _ => { s with pinBad := true }

/-- The counters are kept at this tick. -/
def keeps : Bool := s.roiMarked && (!s.closeArmed || s.keepHist || g.clOn)

/-- The controller's tick: its counts after it, and whether it had nothing in flight. -/
def count (c : Totals) (quiet : Bool) : Window :=
  let s₁ := { s with
    curTick := s.curTick + 1, ticks := s.ticks + 1, idle := if quiet then s.idle + 1 else s.idle, now := c }
  { s₁ with seen := Function.update s.seen s₁.curTick (s₁.takeSnap g) }

/-- The close, or the periodic snapshot. -/
def snapTick : Window :=
  if s.closeArmed && !s.closeSnapped && decide (s.closeTick ≤ s.curTick) then s.applySnap (s.takeSnap g)
  else if s.keeps g && decide (s.curTick % kSnapEvery = 0) then { s with hist := s.hist ++ [s.takeSnap g] }
  else s

/-- The per-tick ring and its increments. -/
def ringTick : Window :=
  if s.keeps g && s.ringOn then
    let s₁ := { s with ring := Function.update s.ring (s.curTick % kRing) (some (s.takeSnap g)) }
    if s₁.pinSet then s₁.pinFillSingle else s₁
  else s

def tickOnce (c : Totals) (quiet : Bool) : Window := ((s.count g c quiet).snapTick g).ringTick g

/-! ## Reading -/

def pinSum (base : Snap) (tick : Nat) : Option Snap :=
  if !s.pinSet ∨ s.pinBad ∨ base.tick < s.pinStart ∨ tick < base.tick ∨ tick - s.pinStart ≥ kPin then none
  else
    match s.pinD with
    | none => none
    | some d =>
      if s.pinHi < tick then none
      else
        let p := (List.range' (base.tick + 1) (tick - base.tick)).foldl (fun p u => p.add g (d (u - s.pinStart))) base
        some { p with tick := tick }

def pinRead (tick : Nat) : Option Snap :=
  match (s.hist.takeWhile fun h => h.tick ≤ tick).getLast? with
  | none => none
  | some best => s.pinSum g best tick

/-! ## The close -/

/-- The ticks that the clock has already passed, from the ring. -/
def backfill (s : Window) : List Nat → Window
  | [] => s
  | u :: r =>
    match s.ringAt (u - 1), s.ringAt u with
    | some a, some b =>
      match pinDelta a b with
      | some v => backfill (s.pinStore u v) r
      | none => { s with pinBad := true }
    | _, _ => { s with pinBad := true }

/-- The record of increments starts again at `st`. -/
def pinFrom (st : Nat) : Window :=
  let s₁ := { s.pinFree with pinSet := true, pinStart := st, pinD := some fun _ => 0, pinHi := st }
  s₁.backfill (List.range' (st + 1) (s.curTick - st))

/-- `t` is the DRAM tick of the arrival at the closing barrier. -/
def noteCloseCandidate (t : Nat) : Window :=
  if s.roiMarked && !s.closeArmed && s.ringOn then
    let st := t - t % kSnapEvery
    if !s.pinSet || decide (s.pinStart < st) then
      if decide (s.curTick < st + kRing - 1) &&
          (decide (s.curTick ≤ st) || (List.range' st (s.curTick - st + 1)).all fun u => (s.ringAt u).isSome) then
        s.pinFrom st
      else s
    else s
  else s

/-- The counters of a close that the clock has reached, and whether they are those of a
periodic snapshot (`closeFromSnap_`). -/
def closeCounters (closeTick : Nat) : Snap × Bool :=
  if s.curTick = closeTick then (s.takeSnap g, false)
  else
    match (if s.ringOn && decide (s.curTick - closeTick < kRing) then s.ringAt closeTick else none) with
    | some p => (p, false)
    | none =>
      match s.pinRead g closeTick with
      | some p => (p, false)
      | none =>
        match (s.hist.takeWhile fun h => h.tick ≤ closeTick).getLast? with
        | some best => (best, true)
        | none => (s.takeSnap g, true)

/-- The close is known to be at `closeTick`. -/
def armClose (closeTick : Nat) : Window :=
  if !s.roiMarked || s.closeArmed then s
  else
    let s₁ := { s with closeArmed := true, closeTick }
    let s₂ :=
      if closeTick ≤ s₁.curTick then
        { s₁.applySnap (s₁.closeCounters g closeTick).1 with closeFromSnap := (s₁.closeCounters g closeTick).2 }
      else s₁
    if !s₂.keepHist && !g.clOn then { s₂ with hist := [] } else s₂

/-- The window opens at the present tick. -/
def markRoi : Window :=
  { s.pinFree with
    closeArmed := false, closeSnapped := false, closeTick := 0, hist := [], ringOn := true, ring := fun _ => none
    closeFromSnap := false, roiMarked := true }

/-- `finalize` when the run time was raised: the close is not known any more. -/
def reopen : Window := { s with closeArmed := false, closeSnapped := false }

/-! ## Runs -/

inductive Op where
  | tick (c : Totals) (quiet : Bool)
  | noteCloseCandidate (t : Nat)
  | markRoi
  | armClose (closeTick : Nat)
  | keepHist (on : Bool)
  | reopen
  | pinFree

def step : Op → Window
  | .tick c quiet => s.tickOnce g c quiet
  | .noteCloseCandidate t => s.noteCloseCandidate t
  | .markRoi => s.markRoi
  | .armClose t => s.armClose g t
  | .keepHist on => { s with keepHist := on }
  | .reopen => s.reopen
  | .pinFree => s.pinFree

/-- The replay after these steps. -/
def run (ops : List Op) : Window := ops.foldl (step g) {}

end Window

end Pimid.Dram
