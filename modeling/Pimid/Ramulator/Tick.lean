import Pimid.Ramulator.Best

/-!
# The clock of the DRAM controller

A tick finishes one read, takes the refreshes, updates the power-down units, and issues commands: one
of the channel, or in bank-parallel mode one of a bank until nothing more is found. Before each
command the row policy and the plugins are told, and may send priority requests.
-/

namespace Pimid.Ramulator

namespace Controller

open Ramulator.Config

variable {D : Type} (c : Config D) (s : Controller D)

/-! ## Requests -/

/-- A read whose data comes at a clock. -/
def pushRead (r : Request) (forwarded : Bool) (depart : Int) : Controller D :=
  let x : PendingRead := ⟨{ r with depart }, s.clk, forwarded, s.reads.length⟩
  { s with pending := s.pending ++ [x], reads := s.reads ++ [x] }

/-- A read of an address that a queued write has is answered at the next clock. None where `send` throws. -/
def send (r : Request) : Option (Bool × Controller D) :=
  let r := { r with finalCommand := c.dram.requestTranslations r.typeId }
  if r.typeId == Read && (s.buffers .write).any (·.addr == r.addr) then some (true, s.pushRead r true (s.clk + 1))
  else if r.typeId == Read then some (s.enqueue c .read { r with arrive := s.clk })
  else if r.typeId == Write then some (s.enqueue c .write { r with arrive := s.clk })
  else none

/-- A request of the refresh manager, the row policy or a plugin, which names an address and a type only. -/
def prioritySend (x : AddrVec × Nat) : Controller D :=
  (s.enqueue c .priority { addrVec := x.1, typeId := x.2, finalCommand := c.dram.requestTranslations x.2 }).2

def prioritySends (xs : List (AddrVec × Nat)) : Controller D := xs.foldl (prioritySend c) s

/-- The first pending read leaves when its data is there. -/
def serveCompletedReads : Controller D :=
  match s.pending with
  | [] => s
  | x :: rest =>
    if x.request.depart ≤ s.clk then { s with pending := rest, called := s.called ++ [(x, s.clk)] } else s

/-! ## An issue -/

/-- The row of an address as a number. -/
def rowKey (a : AddrVec) : Option Nat :=
  (List.range (c.dram.rowLevel + 1)).foldl (fun key l =>
    match key with
    | none => none
    | some k => if a l < 0 then none else some ((k * max 1 (c.dram.count l) + (a l).toNat) % 2 ^ 64)) (some 0)

/-- `pl_row_count`: the queued requests on an address's row. -/
def rowCount (a : AddrVec) : Nat :=
  let queued := [Buffer.read, .write, .active].flatMap s.buffers
  match rowKey c a with
  | none => (queued.filter fun r => (List.range (c.dram.rowLevel + 1)).all fun l => r.addrVec l == a l).length
  | some k => (queued.filter fun r => rowKey c r.addrVec == some k).length

/-- `pimid_choose_autoprecharge`: the command, as the auto-precharging one where the host's row can be closed with it. -/
def chooseAutoprecharge (r : Request) (cmd : Nat) (addrs : List AddrVec) : Nat :=
  if !c.hostAutoprecharge then cmd
  else if !(host r || r.sourceId == 4 || r.sourceId == 6) then cmd
  else if cmd != r.finalCommand then cmd
  else
    match c.dram.RD, c.dram.WR, c.dram.RDA, c.dram.WRA with
    | some rd, some wr, some rda, some wra =>
      if cmd != rd && cmd != wr then cmd
      else if 1 < s.rowCount c r.addrVec then cmd
      else
        let ap := if cmd == rd then rda else wra
        if !addrs.all (s.pimidReady c ap) then cmd
        else if s.hdbBlocks c r ap then cmd
        else ap
    | _, _, _, _ => cmd

/-- The command goes to its addresses, in their order. -/
def issueCommand (cmd : Nat) (addrs : List AddrVec) : Controller D :=
  addrs.foldl (fun s a => let s := s.pdIssued c a
    { s with dram := c.dram.issueCommand s.dram cmd a }) s

/-- A host command takes the command bus, a host column command the data bus. -/
def takeBuses (r : Request) (cmd : Nat) : Controller D :=
  let s := if caHost c r && decide (cmd < c.dram.numCommands) then { s with caFree := s.clk + c.caOcc cmd } else s
  if hdbHost c r cmd then
    { s with
      hdbFree := s.clk + c.dram.nBL
      hdbLast := fun l pc n =>
        if pc = cmd ∧ c.hdbKept l cmd ∧ c.hdbNode r.addrVec l = some n then s.clk else s.hdbLast l pc n }
  else s

def removeAt (b : Buffer) (i : Nat) : Controller D := s.setBuffer b ((s.buffers b).eraseIdx i)

/-- A request that has had its last command leaves, one that opens its row moves to the active buffer. -/
def finish (b : Buffer) (i : Nat) (r : Request) (cmd : Nat) : Controller D :=
  if cmd == r.finalCommand then
    (if r.typeId == Read then s.pushRead r false (s.clk + c.dram.readLatency) else s).removeAt b i
  else if c.dram.isOpening cmd then
    let out := s.enqueue c .active r
    if out.1 then out.2.removeAt b i else s
  else s

/-- The command of a request and the addresses it goes to: rank-wide for a lock-step request. -/
def issueTo (r : Request) (cmd : Nat) : Nat × List AddrVec :=
  if c.pimidLs r then c.lsGroupCmd s.dram r else (cmd, [r.addrVec])

/-- The command a request is issued with. -/
def issueCmd (r : Request) (cmd : Nat) : Nat :=
  s.chooseAutoprecharge c r (s.issueTo c r cmd).1 (s.issueTo c r cmd).2

/-- The request, with the auto-precharging command as its last where it was chosen. -/
def converted (r : Request) (cmd : Nat) : Request :=
  if s.issueCmd c r cmd == (s.issueTo c r cmd).1 then r else { r with finalCommand := s.issueCmd c r cmd }

def issueOf (b : Buffer) (i : Nat) (r : Request) (cmd : Nat) : Issue where
  clk := s.clk
  cmd := s.issueCmd c r cmd
  request := s.converted c r cmd
  buffer := b
  addrs := (s.issueTo c r cmd).2
  others := s.others (selfIn b i)

def logIssue (issue : Issue) : Controller D :=
  { s.issueCommand c issue.cmd issue.addrs with issues := s.issues ++ [issue] }

/-- `pimid_issue`, and step 4 of the plain tick, which does not take the buses. -/
def pimidIssue (buses : Bool) (b : Buffer) (i : Nat) (r : Request) (cmd : Nat) : Controller D :=
  let issue := s.issueOf c b i r cmd
  let s := s.logIssue c issue
  let s := if buses then s.takeBuses c issue.request issue.cmd else s
  s.finish c b i issue.request issue.cmd

/-! ## The bank-parallel tick -/

/-- What comes from outside in a tick: the refreshes, what the row policy and the plugins send when they are told of a
request, or of none, for the n-th time, and what the indexes know at the n-th pick. -/
structure TickInput where
  refresh : List (AddrVec × Nat) := []
  update : Nat → Option (Request × Nat) → List (AddrVec × Nat) := fun _ _ => []
  slots : Nat → Buffer → Nat → Slot := fun _ _ _ => .fresh

inductive Pick where
  -- the tick ends without telling the row policy
  | stop
  | none
  | found (b : Buffer) (i : Nat) (cmd : Nat)

/-- The bank-scoped priority requests in order, up to the first that is not: the first that is ready, and the banks that
wait. -/
def scanPriority : List (Request × Nat) → List AddrVec → Option (Nat × Nat) × List AddrVec
  | [], blocked => (none, blocked)
  | (r, i) :: rest, blocked =>
    if r.addrVec c.dram.bankLevel == -1 then (none, blocked)
    else if blocked.any (c.sameBank · r.addrVec) then scanPriority rest blocked
    else
      let cmd := c.dram.getPreqCommand s.dram r.finalCommand r.addrVec
      if s.pimidReady c cmd r.addrVec then (some (i, cmd), blocked) else scanPriority rest (blocked ++ [r.addrVec])

def foundIn (b : Buffer) : Option Candidate → Pick
  | some x => .found b x.index x.cmd
  | none => .none

/-- The reads and the writes, in the order of the write mode. With the command bus busy both are looked at, which changes
nothing. -/
def pickReadWrite (blocked : List AddrVec) (slots : Buffer → Nat → Slot) : Pick :=
  let fr := s.plBest c .read blocked (slots .read)
  let fw := s.plBest c .write blocked (slots .write)
  if !s.isWriteMode then
    match fr with
    | some x => foundIn .read (some x)
    | none => foundIn .write fw
  else
    match fw with
    | some x => foundIn .write (some x)
    | none => foundIn .read fr

/-- The priority request at the head, which is served only first. -/
def pickMaintenance (issued : Nat) (r : Request) : Pick :=
  if 0 < issued then .stop
  else
    let cmd := c.dram.getPreqCommand s.dram r.finalCommand r.addrVec
    if s.pimidReady c cmd r.addrVec then .found .priority 0 cmd else .stop

def pick (bankScopedHead : Bool) (used : List AddrVec) (issued : Nat) (slots : Buffer → Nat → Slot) : Pick :=
  let scan := if bankScopedHead then s.scanPriority c (s.buffers .priority).zipIdx used else (none, used)
  match scan.1 with
  | some x => .found .priority x.1 x.2
  | none =>
    match s.pimidBest c .active scan.2 with
    | some x => .found .active x.index x.cmd
    | none =>
      match bankScopedHead, s.buffers .priority with
      | false, r :: _ => s.pickMaintenance c issued r
      | _, _ => s.pickReadWrite c scan.2 slots

/-- The picks of a tick. -/
def pickLoop (input : TickInput) (bankScopedHead : Bool) : Nat → Controller D → List AddrVec → Nat → Controller D
  | 0, s, _, _ => s
  | n + 1, s, used, issued =>
    match s.pick c bankScopedHead used issued (input.slots issued) with
    | .stop => s
    | .none => s.prioritySends c (input.update issued none)
    | .found b i cmd =>
      match (s.buffers b)[i]? with
      | none => s
      | some r =>
        let s := s.prioritySends c (input.update issued (some (r, cmd)))
        let s := s.pimidIssue c true b i r cmd
        if b = .priority ∧ !bankScopedHead then s else pickLoop input bankScopedHead n s (used ++ [r.addrVec]) (issued + 1)

def pimidTickBankParallel (input : TickInput) : Controller D :=
  let s := (s.setWriteMode c).hdbSetMode c
  if (s.buffers .read).isEmpty && (s.buffers .write).isEmpty && (s.buffers .active).isEmpty && (s.buffers .priority).isEmpty then
    s.prioritySends c (input.update 0 none)
  else
    let bankScopedHead := match s.buffers .priority with
      | [] => false
      | r :: _ => r.addrVec c.dram.bankLevel != -1
    pickLoop c input bankScopedHead c.banksPerChannel s [] 0

/-! ## The plain tick -/

/-- A request that closes a row which one of the active buffer is opening waits. -/
def closesActive (r : Request) (cmd : Nat) : Bool :=
  c.dram.isClosing cmd && (s.buffers .active).any fun e => c.sameBank e.addrVec r.addrVec

/-- A found request with its command, where it is ready. -/
def readyAt (b : Buffer) (x : Option (Nat × Nat)) : Option (Buffer × Nat × Nat × Request) :=
  match x with
  | none => none
  | some (i, cmd) =>
    match (s.buffers b)[i]? with
    | none => none
    | some r => if s.pimidReady c cmd r.addrVec then some (b, i, cmd, r) else none

/-- The request to serve, with the write mode that is left. -/
def findRequest : Option (Buffer × Nat × Nat × Request) × Controller D :=
  match s.readyAt c .active (c.getBestRequest s.dram (s.buffers .active)) with
  | some x => (some x, s)
  | none =>
    match s.buffers .priority with
    | r :: _ => (s.readyAt c .priority (some (0, c.dram.getPreqCommand s.dram r.finalCommand r.addrVec)), s)
    | [] =>
      let s := s.setWriteMode c
      let b := if s.isWriteMode then Buffer.write else .read
      (s.readyAt c b (c.getBestRequest s.dram (s.buffers b)), s)

/-- `schedule_request`. -/
def scheduleRequest : Option (Buffer × Nat × Nat × Request) × Controller D :=
  let found := s.findRequest c
  (found.1.filter fun x => !found.2.closesActive c x.2.2.2 x.2.2.1, found.2)

/-- The rank-wide command of a lock-step request, where every chip is ready for it. -/
def lsScheduled (x : Buffer × Nat × Nat × Request) : Option (Buffer × Nat × Nat × Request) :=
  if c.pimidLs x.2.2.2 then
    let g := c.lsGroupCmd s.dram x.2.2.2
    if g.2.all (s.pimidReady c g.1) &&
        !(c.dram.isClosing g.1 && c.lsCloseBlocked (s.others (selfIn x.1 x.2.1)) g.2) then
      some (x.1, x.2.1, g.1, x.2.2.2)
    else none
  else some x

def plainTick (input : TickInput) : Controller D :=
  let out := s.scheduleRequest c
  let s := out.2
  match out.1.bind (s.lsScheduled c) with
  | none => s.prioritySends c (input.update 0 none)
  | some (b, i, cmd, r) =>
    let s := s.prioritySends c (input.update 0 (some (r, cmd)))
    s.pimidIssue c (c.pimidLs r) b i r cmd

def tick (input : TickInput) : Controller D :=
  let s := { s with clk := s.clk + 1 }
  let s := (s.serveCompletedReads.prioritySends c input.refresh).pdTick c
  if c.bankParallel then s.pimidTickBankParallel c input else s.plainTick c input

/-! ## Runs -/

inductive Op (D : Type) where
  | send (r : Request)
  | prioritySend (x : AddrVec × Nat)
  | tick (input : TickInput)
  -- the DRAM's own clock, or any other change of its state
  | dram (d : D)

def apply : Op D → Controller D
  | .send r => match s.send c r with
    | some out => out.2
    | none => s
  | .prioritySend x => s.prioritySend c x
  | .tick input => s.tick c input
  | .dram d => { s with dram := d }

/-- The state after a run. -/
def run (d : D) (ops : List (Op D)) : Controller D := ops.foldl (apply c) { dram := d }

end Controller

end Pimid.Ramulator
