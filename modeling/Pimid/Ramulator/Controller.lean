import Mathlib.Algebra.GroupWithZero.Nat
import Mathlib.Algebra.Ring.Int.Defs
import Mathlib.Data.List.Basic
import Mathlib.Logic.Function.Basic

/-!
# The state of the DRAM controller

Requests wait in four buffers; a read that has had its column command waits for its data. Host
requests (source 1 and 3) can drive several chips of a rank in lock step, obey the host data bus and
the command bus, and wait for the mode of the host write drain. A power-down unit that no request
needs is put to sleep.
-/

namespace Pimid.Ramulator

/-- An address, one node a level; -1 names every node of the level. -/
abbrev AddrVec := Nat → Int

def Read : Nat := 0

def Write : Nat := 1

structure Request where
  addr : Int := -1
  addrVec : AddrVec
  typeId : Nat
  sourceId : Int := -1
  finalCommand : Nat := 0
  arrive : Int := -1
  depart : Int := -1
  callback : Bool := false

structure TimingConsEntry where
  cmd : Nat
  val : Int
  sibling : Bool

/-- The DRAM: its tables, and what it answers in a state. -/
structure Dram (D : Type) where
  numCommands : Nat
  isOpening : Nat → Bool
  isClosing : Nat → Bool
  requestTranslations : Nat → Nat
  readLatency : Int
  RD : Option Nat
  WR : Option Nat
  RDA : Option Nat
  WRA : Option Nat
  ACT : Option Nat
  nBL : Nat
  -- `m_timing_cons`, by level and preceding command
  timingLevels : Nat
  timingCons : Nat → Nat → List TimingConsEntry
  -- the organisation
  count : Nat → Nat
  rankLevel : Option Nat
  bankLevel : Nat
  rowLevel : Nat
  getPreqCommand : D → Nat → AddrVec → Nat
  checkReady : D → Nat → AddrVec → Bool
  pimidReadyAt : D → Nat → AddrVec → Int
  issueCommand : D → Nat → AddrVec → D

/-- The parameters of a controller. -/
structure Config (D : Type) where
  dram : Dram D
  bankParallel : Bool
  -- `IScheduler::get_best_request`: the request's place in the buffer, and its command
  getBestRequest : D → List Request → Option (Nat × Nat)
  -- `m_pimid_ls`
  lockstepChips : Nat
  hostCa : Bool
  hostDataBus : Bool
  hostAutoprecharge : Bool
  powerDown : Bool
  pdIdle : Int
  pdTxp : Int
  -- `pl_best` instead of `pimid_best`
  indexed : Bool
  -- the default queue length, and the marks of the write queue and of the host's
  queueSize : Nat
  wrHigh : Nat → Bool
  wrLow : Nat → Bool
  hdbHigh : Nat → Bool
  hdbLow : Nat → Bool

inductive Buffer where
  | active
  | priority
  | read
  | write
deriving DecidableEq, Repr

/-- A read whose data is on its way, with when it was put there, whether a queued write answers it, and its number. -/
structure PendingRead where
  request : Request
  pushed : Int
  forwarded : Bool
  serial : Nat

/-- An issued command: the request it serves and its buffer, the addresses it goes to, and the other requests of the
active buffer. -/
structure Issue where
  clk : Int
  cmd : Nat
  request : Request
  buffer : Buffer
  addrs : List AddrVec
  others : List Request

/-- A tick of the power-down units: those a request needs, and those asleep after it. -/
structure PdTick where
  needed : Nat → Bool
  asleep : Nat → Bool

/-- The fields of the controller. -/
structure Controller (D : Type) where
  dram : D
  clk : Int := 0
  pending : List PendingRead := []
  buffers : Buffer → List Request := fun _ => []
  isWriteMode : Bool := false
  -- `m_pimid_ca_free`, `m_hdb_free`, `m_hdb_last` by level, command and node, `m_hdb_wm`
  caFree : Int := 0
  hdbFree : Int := 0
  hdbLast : Nat → Nat → Nat → Int := fun _ _ _ => -1000000
  hdbWm : Bool := false
  pdIn : Nat → Bool := fun _ => false
  pdSince : Nat → Int := fun _ => 0
  pdLast : Nat → Int := fun _ => 0
  pdWake : Nat → Int := fun _ => 0
  pdCycles : Int := 0
  pdExits : Nat := 0
  -- what has happened: the ticks of the power-down units, the commands, the reads put into `pending`, the callbacks of
  -- reads with their clocks
  pdLog : List PdTick := []
  issues : List Issue := []
  reads : List PendingRead := []
  called : List (PendingRead × Int) := []

namespace Config

variable {D : Type} (c : Config D)

/-! ## Setup -/

def rankLv : Nat := c.dram.rankLevel.getD 0

def banksPerChannel : Nat := ((List.range c.dram.bankLevel).map fun l => max 1 (c.dram.count (l + 1))).prod

/-- `max_size` of a buffer. -/
def maxSize : Buffer → Nat
  | .priority => 512 * 3 + 32
  | _ => if c.bankParallel then c.queueSize * c.banksPerChannel else c.queueSize

/-- `m_hdb_col`: a column command. -/
def hdbCol (cmd : Nat) : Bool :=
  c.dram.RD == some cmd || c.dram.WR == some cmd || c.dram.RDA == some cmd || c.dram.WRA == some cmd

/-- `m_hdb_radix`: the nodes of a level under one parent, the chips of a lock-step rank as one. -/
def hdbRadix (l : Nat) : Nat :=
  if 1 ≤ l ∧ l < c.dram.bankLevel then
    let n := max 1 (c.dram.count l)
    max 1 (if l = c.rankLv ∧ 1 < c.lockstepChips then n / c.lockstepChips else n)
  else 1

/-- A captured constraint on the spacing of host column commands. -/
structure HdbCons where
  lvl : Nat
  prev : Nat
  val : Int
  sib : Bool

def hdbLevels : Nat := min c.dram.bankLevel c.dram.timingLevels

/-- `m_hdb_cons`: the constraints on a command. -/
def hdbCons (cmd : Nat) : List HdbCons :=
  (List.range c.hdbLevels).flatMap fun l => (List.range c.dram.numCommands).flatMap fun pc =>
    if c.hdbCol pc then
      ((c.dram.timingCons l pc).filter fun t => c.hdbCol t.cmd && t.cmd == cmd).map fun t => ⟨l, pc, t.val, t.sibling⟩
    else []

/-- `m_hdb_last[l][cmd]` is there: a constraint of the level is on what follows the command. -/
def hdbKept (l cmd : Nat) : Bool :=
  decide (l < c.hdbLevels) && decide (cmd < c.dram.numCommands) && c.hdbCol cmd &&
    (c.dram.timingCons l cmd).any fun t => c.hdbCol t.cmd

/-- `m_pimid_ca_occ`: the clocks of the command bus a command takes. -/
def caOcc (cmd : Nat) : Int :=
  (c.dram.timingCons 0 cmd).foldl (fun occ t => if c.dram.ACT = some t.cmd ∧ occ < t.val then t.val else occ) 1

def pdLevel : Nat := c.dram.rankLevel.getD 0

def pdRadix (l : Nat) : Nat := max 1 (c.dram.count l)

/-- The number of power-down units. -/
def pdUnits : Nat := ((List.range c.pdLevel).map fun l => c.pdRadix (l + 1)).prod

/-- What `setup` takes for granted, and what it throws for. -/
structure SetUp : Prop where
  rank : ∀ l, c.dram.rankLevel = some l → 1 ≤ l ∧ l < c.dram.bankLevel ∧ 0 < c.dram.count l
  lockstep : 1 < c.lockstepChips → ∃ l, c.dram.rankLevel = some l ∧ c.dram.count l % c.lockstepChips = 0
  data : c.hostDataBus = true → c.bankParallel = true

/-! ## Addresses -/

/-- An address names nodes of the organisation. -/
def InRange (a : AddrVec) : Prop := ∀ l, 1 ≤ l → l ≤ c.dram.bankLevel → a l < c.dram.count l

def sameBank (a b : AddrVec) : Bool :=
  (List.range (c.dram.bankLevel + 1)).all fun i => !(a i != b i && a i != -1 && b i != -1)

def host (r : Request) : Bool := r.sourceId == 1 || r.sourceId == 3

/-- `pimid_ls`: a request that drives every chip of its rank. -/
def pimidLs (r : Request) : Bool := decide (1 < c.lockstepChips) && host r

def lsChip0 (a : AddrVec) : Nat := (a c.rankLv).toNat / c.lockstepChips * c.lockstepChips

def chip (a : AddrVec) (rank : Nat) : AddrVec := Function.update a c.rankLv rank

/-- The addresses of a lock-step request, chip by chip. -/
def lsChips (a : AddrVec) : List AddrVec := (List.range c.lockstepChips).map fun i => c.chip a (c.lsChip0 a + i)

/-- An address's node at a level under its parent, with lock-step chips as one rank. -/
def hdbDigit (a : AddrVec) (l : Nat) : Nat :=
  if l = c.rankLv ∧ 1 < c.lockstepChips then (a l).toNat / c.lockstepChips else (a l).toNat

/-- `hdb_node`: the number of an address's node at a level. -/
def hdbNode (a : AddrVec) : Nat → Option Nat
  | 0 => some 0
  | l + 1 =>
    match hdbNode a l with
    | none => none
    | some id => if a (l + 1) < 0 then none else some (id * c.hdbRadix (l + 1) + c.hdbDigit a (l + 1))

/-- The unit of an address by its levels down to `l`, none where it names several. -/
def unitTo (a : AddrVec) : Nat → Option Nat
  | 0 => some 0
  | l + 1 =>
    match unitTo a l with
    | none => none
    | some u => if a (l + 1) < 0 then none else some (u * c.pdRadix (l + 1) + (a (l + 1)).toNat)

def pdUnit (a : AddrVec) : Option Nat := c.unitTo a c.pdLevel

/-! ## Lock-step requests -/

def lsStage (cmd : Nat) : Nat := if c.dram.isClosing cmd then 0 else if c.dram.isOpening cmd then 1 else 2

/-- `ls_group_cmd`: the command of the least advanced chip, and the chips that take it. -/
def lsGroupCmd (d : D) (r : Request) : Nat × List AddrVec :=
  let chips := c.lsChips r.addrVec
  let g := (chips.foldl (fun g a =>
    let cmd := c.dram.getPreqCommand d r.finalCommand a
    if c.lsStage cmd < g.2 then (cmd, c.lsStage cmd) else g) (0, 3)).1
  (g, chips.filter fun a => c.dram.getPreqCommand d r.finalCommand a == g)

def lsTaken (used sel : List AddrVec) : Bool := sel.any fun a => used.any fun k => c.sameBank k a

/-- A request of the active buffer holds the bank of an address, a lock-step one on every chip of its rank. -/
def holds (e : Request) (a : AddrVec) : Bool :=
  if c.pimidLs e && decide (0 ≤ a c.rankLv) then
    c.sameBank (c.chip e.addrVec (c.lsChip0 e.addrVec + (a c.rankLv).toNat % c.lockstepChips)) a
  else c.sameBank e.addrVec a

/-- `pimid_close_blocked`: one of the requests holds the bank. -/
def closeBlocked (others : List Request) (a : AddrVec) : Bool := others.any fun e => c.holds e a

def lsCloseBlocked (others : List Request) (sel : List AddrVec) : Bool := sel.any (c.closeBlocked others)

end Config

end Pimid.Ramulator
