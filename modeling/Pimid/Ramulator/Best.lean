import Pimid.Ramulator.Controller

/-!
# What the DRAM controller can issue

A command waits for the DRAM, for the power-down unit it goes to and, where it is the host's, for the
data bus, the command bus and the write drain. Of the requests of a buffer that can be served row hits
come first, then the oldest.
-/

namespace Pimid.Ramulator

namespace Controller

open Ramulator.Config

variable {D : Type} (c : Config D) (s : Controller D)

/-- The place of a request in the active buffer, if it is there. -/
def selfIn (b : Buffer) (i : Nat) : Option Nat := if b = .active then some i else none

/-- The active buffer without the request itself. -/
def others : Option Nat → List Request
  | none => s.buffers .active
  | some i => (s.buffers .active).eraseIdx i

def setBuffer (b : Buffer) (l : List Request) : Controller D := { s with buffers := Function.update s.buffers b l }

/-- `ReqBuffer::enqueue`. -/
def enqueue (b : Buffer) (r : Request) : Bool × Controller D :=
  if (s.buffers b).length ≤ c.maxSize b then (true, s.setBuffer b (s.buffers b ++ [r])) else (false, s)

/-! ## Power-down -/

def pdOk (a : AddrVec) : Bool :=
  !c.powerDown ||
    match c.pdUnit a with
    | some u => !s.pdIn u && decide (s.pdWake u ≤ s.clk)
    | none => (List.range c.pdUnits).all fun u => !s.pdIn u && decide (s.pdWake u ≤ s.clk)

def pimidReady (cmd : Nat) (a : AddrVec) : Bool := s.pdOk c a && c.dram.checkReady s.dram cmd a

/-- A command has gone to an address: to one unit, or to all of them. -/
def pdIssued (a : AddrVec) : Controller D :=
  if !c.powerDown then s
  else
    match c.pdUnit a with
    | some u => { s with pdLast := Function.update s.pdLast u s.clk }
    | none => { s with pdLast := fun _ => s.clk }

/-- The units marked busy, and their number. -/
structure Marks where
  busy : Nat → Bool := fun _ => false
  nbusy : Nat := 0

def Marks.mark (k : Marks) (u : Nat) : Marks :=
  if k.busy u then k else { busy := Function.update k.busy u true, nbusy := k.nbusy + 1 }

/-- The marks of a request, unless every unit is busy already. -/
def markRequest (k : Marks) (r : Request) : Marks :=
  if c.pdUnits ≤ k.nbusy then k
  else
    match c.pdUnit r.addrVec with
    | some u =>
      if c.pimidLs r then
        (c.lsChips r.addrVec).foldl (fun k a =>
          match c.pdUnit a with
          | some uc => k.mark uc
          | none => k) k
      else k.mark u
    | none => { busy := fun _ => true, nbusy := c.pdUnits }

/-- The units a buffered request needs. -/
def pdBusy : Marks :=
  ([Buffer.read, .write, .active, .priority].flatMap s.buffers).foldl (markRequest c) {}

/-- A request needs a unit: a lock-step one those of its chips, one whose address names no unit all of them. -/
def needsUnit (r : Request) (u : Nat) : Bool :=
  match c.pdUnit r.addrVec with
  | some v => if c.pimidLs r then (c.lsChips r.addrVec).any fun a => c.pdUnit a == some u else v == u
  | none => true

/-- A buffered request needs a unit. -/
def needed (u : Nat) : Bool :=
  ([Buffer.read, .write, .active, .priority].flatMap s.buffers).any (needsUnit c · u)

/-- `pd_tick`: busy units wake, idle ones go to sleep. -/
def pdTick : Controller D :=
  if !c.powerDown then s
  else
    let busy := (s.pdBusy c).busy
    let wakes (u : Nat) : Bool := busy u && s.pdIn u
    let sleeps (u : Nat) : Bool := !busy u && !s.pdIn u && decide (c.pdIdle ≤ s.clk - s.pdLast u)
    let pdIn (u : Nat) : Bool := if wakes u then false else if sleeps u then true else s.pdIn u
    { s with
      pdIn
      pdSince := fun u => if sleeps u then s.clk else s.pdSince u
      pdLast := fun u => if busy u then s.clk else s.pdLast u
      pdWake := fun u => if wakes u then s.clk + c.pdTxp else s.pdWake u
      pdCycles := s.pdCycles + (((List.range c.pdUnits).filter wakes).map fun u => s.clk - s.pdSince u).sum
      pdExits := s.pdExits + ((List.range c.pdUnits).filter wakes).length
      pdLog := s.pdLog ++ [⟨s.needed c, pdIn⟩] }

/-- `pimid_pd_totals`: the cycles, with those of the units that are asleep, and the wake-ups. -/
def pimidPdTotals : Int × Nat :=
  (s.pdCycles + (((List.range c.pdUnits).filter s.pdIn).map fun u => s.clk - s.pdSince u).sum, s.pdExits)

/-! ## The host's buses -/

/-- `hdb_host`: the host data bus binds the command. -/
def hdbHost (r : Request) (cmd : Nat) : Bool := c.hostDataBus && host r && c.hdbCol cmd

/-- The first clock after `t` that a constraint leaves to an address. -/
def hdbStep (a : AddrVec) (t : Int) (e : HdbCons) : Int :=
  match c.hdbNode a e.lvl with
  | none => t
  | some n =>
    if !e.sib then max t (s.hdbLast e.lvl e.prev n + e.val)
    else
      let radix := c.hdbRadix e.lvl
      let base := n / radix * radix
      (((List.range radix).map (base + ·)).filter (· != n)).foldl
        (fun t sib => max t (s.hdbLast e.lvl e.prev sib + e.val)) t

/-- `hdb_ready_at`: the first clock the bus takes the command, -1 where it does not bind it. -/
def hdbReadyAt (r : Request) (cmd : Nat) : Int :=
  if !hdbHost c r cmd then -1 else (c.hdbCons cmd).foldl (s.hdbStep c r.addrVec) s.hdbFree

def hdbBlocks (r : Request) (cmd : Nat) : Bool := hdbHost c r cmd && decide (s.clk < s.hdbReadyAt c r cmd)

/-- `hdb_dir_blocked`: the mode of the host write drain is not the request's. -/
def hdbDirBlocked (r : Request) (isActive : Bool) : Bool :=
  c.hostDataBus && !isActive && host r && ((r.typeId == Write) != s.hdbWm)

def caHost (r : Request) : Bool := c.hostCa && host r

def caBlocked (r : Request) : Bool := caHost c r && decide (s.clk < s.caFree)

/-- The host's requests of a type that are held, in the buffer of the type and in the active one. -/
def hdbHeld (b : Buffer) (isWrite : Bool) : Nat :=
  ((s.buffers b ++ s.buffers .active).filter fun r => host r && ((r.typeId == Write) == isWrite)).length

def hdbSetMode : Controller D :=
  if !c.hostDataBus then s
  else
    let nrd := s.hdbHeld .read false
    let nwr := s.hdbHeld .write true
    if !s.hdbWm then
      if c.hdbHigh nwr || (nrd == 0 && decide (0 < nwr)) then { s with hdbWm := true } else s
    else if nwr == 0 || (c.hdbLow nwr && decide (0 < nrd)) then { s with hdbWm := false } else s

def setWriteMode : Controller D :=
  if !s.isWriteMode then
    if c.wrHigh (s.buffers .write).length || (s.buffers .read).length == 0 then { s with isWriteMode := true } else s
  else if c.wrLow (s.buffers .write).length && (s.buffers .read).length != 0 then { s with isWriteMode := false } else s

/-! ## The best request of a buffer -/

/-- A candidate: its place, its command, whether that is its last, and its arrival. -/
structure Candidate where
  index : Nat
  cmd : Nat
  hit : Bool
  arrive : Int

def Candidate.beats (x y : Candidate) : Bool := (x.hit && !y.hit) || (x.hit == y.hit && decide (x.arrive < y.arrive))

/-- The candidate, with one more request looked at. -/
def bestStep (eval : Nat → Request → Option Nat) (cand : Option Candidate) (x : Request × Nat) : Option Candidate :=
  match eval x.2 x.1 with
  | none => cand
  | some cmd =>
    let y : Candidate := ⟨x.2, cmd, cmd == x.1.finalCommand, x.1.arrive⟩
    match cand with
    | none => some y
    | some z => if y.beats z then some y else some z

/-- Row hits first, then the oldest, then the order of the buffer. -/
def bestOf (eval : Nat → Request → Option Nat) (buf : List Request) : Option Candidate :=
  buf.zipIdx.foldl (bestStep eval) none

/-- The command of a request of `pimid_best`, where it can be issued. -/
def evalRequest (b : Buffer) (used : List AddrVec) (r : Request) : Option Nat :=
  if c.pimidLs r then
    let g := c.lsGroupCmd s.dram r
    if c.lsTaken used g.2 then none
    else if !g.2.all (s.pimidReady c g.1) then none
    else if s.hdbBlocks c r g.1 then none
    else if s.hdbDirBlocked c r (b == .active) then none
    else if s.caBlocked c r then none
    else if b != .active && c.dram.isClosing g.1 && c.lsCloseBlocked (s.others none) g.2 then none
    else some g.1
  else if used.any (c.sameBank · r.addrVec) then none
  else
    let cmd := c.dram.getPreqCommand s.dram r.finalCommand r.addrVec
    if !s.pimidReady c cmd r.addrVec then none
    else if s.hdbBlocks c r cmd then none
    else if s.hdbDirBlocked c r (b == .active) then none
    else if s.caBlocked c r then none
    else if b != .active && c.dram.isClosing cmd && c.closeBlocked (s.others none) r.addrVec then none
    else some cmd

def pimidBest (b : Buffer) (used : List AddrVec) : Option Candidate :=
  bestOf (fun _ r => s.evalRequest c b used r) (s.buffers b)

/-- What the index knows of a request: it is passed over, or its command is kept or asked for. -/
inductive Slot where
  | dormant
  | fresh
  | kept (cmd : Nat)

/-- The command of a request, kept or asked for. -/
def Slot.command (preq : Nat) : Slot → Nat
  | .kept cmd => cmd
  | _ => preq

/-- The command of a request of `pl_best`, where it can be issued. -/
def evalSlot (used : List AddrVec) (slot : Slot) (r : Request) : Option Nat :=
  match slot with
  | .dormant => none
  | _ =>
    if c.pimidLs r then
      let g := c.lsGroupCmd s.dram r
      if c.lsTaken used g.2 then none
      else
        let ra := (g.2.map (c.dram.pimidReadyAt s.dram g.1)).foldl max (-1)
        let ra := max ra (s.hdbReadyAt c r g.1)
        if 0 ≤ ra ∧ s.clk < ra then none
        else if !g.2.all (s.pdOk c) then none
        else if s.hdbDirBlocked c r false then none
        else if s.caBlocked c r then none
        else if c.dram.isClosing g.1 && c.lsCloseBlocked (s.others none) g.2 then none
        else some g.1
    else if used.any (c.sameBank · r.addrVec) then none
    else
      let cmd := slot.command (c.dram.getPreqCommand s.dram r.finalCommand r.addrVec)
      let ra := max (c.dram.pimidReadyAt s.dram cmd r.addrVec) (s.hdbReadyAt c r cmd)
      if 0 ≤ ra ∧ s.clk < ra then none
      else if !s.pdOk c r.addrVec then none
      else if s.hdbDirBlocked c r false then none
      else if s.caBlocked c r then none
      else if c.dram.isClosing cmd && c.closeBlocked (s.others none) r.addrVec then none
      else some cmd

/-- `pl_best`, over the read or the write buffer. -/
def plBest (b : Buffer) (used : List AddrVec) (slots : Nat → Slot) : Option Candidate :=
  if !c.indexed then s.pimidBest c b used
  else bestOf (fun i r => s.evalSlot c used (slots i) r) (s.buffers b)

end Controller

end Pimid.Ramulator
