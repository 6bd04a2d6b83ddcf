import Pimid.Lib.Machine
import Pimid.Mem.BufferEntries

/-!
# A write buffer that elements share

Several elements may access memory through one interface. Each access is a few steps: a
read of the element's own group looks into the write buffer, the access sets
`wbPostThis`, its bank is booked, and a posted write takes its entry. Each of the three
that hold `bankLock_` is one step, and so is the store to `wbPostThis`, which does not
hold it. The steps of one element follow its accesses; those of different elements come
in any order.

The booking tells the acknowledgement which entry it made through `wbLast`, and learns
from `wbPostThis` whether to make one: two fields of the interface. `calls`, `maker`,
`booked` and `acked` record what happened, and so does the id that a write's step `post`
carries; nothing reads them.
-/

namespace Pimid.Mem

/-- The buffer's timing, and `addrToUnit` of the device. -/
structure PeInterface extends BankTiming where
  addrToUnit : Nat → Nat

/-- A request; `near` says that its unit is in the element's own group. -/
structure BufReq where
  wr : Bool
  near : Bool
  line : Nat
  cycle : Nat
deriving DecidableEq, Repr

/-- The controller posts the write. -/
def BufReq.posts (r : BufReq) : Bool :=
  r.wr && r.near

/-- Where an element is: before the step of that name, in its access `n`. -/
inductive BufPc where
  | idle
  | check (n : Nat) (r : BufReq)
  | flag (n : Nat) (r : BufReq)
  | book (n : Nat) (r : BufReq)
  | post (n : Nat) (r : BufReq) (own : Option Nat)
deriving DecidableEq, Repr

/-- The access under way. -/
def BufPc.access : BufPc → Option (Nat × BufReq)
  | idle => none
  | check n r | flag n r | book n r | post n r _ => some (n, r)

/-- The entry that the access's booking made. -/
def BufPc.own : BufPc → Option Nat
  | post _ _ own => own
  | _ => none

structure BufBooked where
  req : BufReq
  posted : Bool
deriving DecidableEq, Repr

/-- Write `n` took entry `id` and left it as `entry`; `completion` is the one computed for it. -/
structure BufAcked where
  n : Nat
  req : BufReq
  id : Nat
  completion : Nat
  entry : Option WbEntry
deriving DecidableEq, Repr

structure SharedBuffer where
  buf : WriteBuffer := {}
  wbPostThis : Bool := false
  pc : Nat → BufPc := fun _ => .idle
  calls : Nat := 0
  maker : Nat → Option Nat := fun _ => none
  booked : List BufBooked := []
  acked : List BufAcked := []

/-- What an element does next. A booking has the arrival at the bank and the wait there, or there is none: no bank
model, or the replay's price. An acknowledgement has the cycle that the blocking one would come at. -/
inductive BufAct where
  | start (tid : Nat) (r : BufReq)
  | check (tid : Nat)
  | flag (tid : Nat)
  | book (tid : Nat) (bank : Option (Nat × Rat))
  | post (tid : Nat) (done : Nat)
deriving DecidableEq, Repr

/-- Whose action it is. -/
def BufAct.tid : BufAct → Nat
  | start tid _ | check tid | flag tid | book tid _ | post tid _ => tid

namespace SharedBuffer

def goto (s : SharedBuffer) (tid : Nat) (pc : BufPc) : SharedBuffer :=
  { s with pc := Function.update s.pc tid pc }

def start (s : SharedBuffer) (tid : Nat) (r : BufReq) : SharedBuffer :=
  { s.goto tid (.check s.calls r) with calls := s.calls + 1 }

/-- A read of the own group looks for its line, and may be answered there. -/
def checkForward (s : SharedBuffer) (tid n : Nat) (r : BufReq) : SharedBuffer :=
  if !r.wr && r.near then
    if s.buf.forwarded r.line r.cycle then { s.goto tid .idle with buf := s.buf.wbFree r.cycle }
    else { s.goto tid (.flag n r) with buf := s.buf.wbFree r.cycle }
  else s.goto tid (.flag n r)

def setPostThis (s : SharedBuffer) (tid n : Nat) (r : BufReq) : SharedBuffer :=
  { s.goto tid (.book n r) with wbPostThis := r.posts }

/-- A write of the own group is acknowledged after its bank is booked; any other access is over. -/
def afterBank (n : Nat) (r : BufReq) (own : Option Nat) : BufPc :=
  if r.posts then .post n r own else .idle

/-- The bank's booking as a posted write. -/
def bookPost (c : PeInterface) (s : SharedBuffer) (tid n : Nat) (r : BufReq) (arrive : Nat) (wait : Rat) : SharedBuffer :=
  { s.goto tid (afterBank n r (some s.buf.wbNext)) with
    buf := s.buf.bookPosted c.toBankTiming r.line (c.addrToUnit r.line) arrive wait
    wbPostThis := false
    maker := Function.update s.maker s.buf.wbNext (some n)
    booked := s.booked ++ [⟨r, true⟩] }

/-- The bank's booking as a read, or as a write that is not posted. -/
def bookOther (c : PeInterface) (s : SharedBuffer) (tid n : Nat) (r : BufReq) (arrive : Nat) (wait : Rat) : SharedBuffer :=
  { s.goto tid (afterBank n r none) with
    buf := s.buf.bookAhead c.toBankTiming r.wr (c.addrToUnit r.line) arrive wait
    wbPostThis := false
    booked := s.booked ++ [⟨r, false⟩] }

/-- The completion that the acknowledgement computes for the write. -/
def completion (c : PeInterface) (buf : WriteBuffer) (r : BufReq) (done : Nat) : Nat :=
  let p := buf.postTake r.line (c.addrToUnit r.line) r.cycle done
  let accept := p.1.acceptTime c.toBankTiming p.2 r.cycle
  if done < accept then accept else done

def acknowledge (c : PeInterface) (s : SharedBuffer) (tid n : Nat) (r : BufReq) (done : Nat) : SharedBuffer :=
  let id := (s.buf.takeEntry r.line (c.addrToUnit r.line) r.cycle done).2
  let buf := (s.buf.postWrite c.toBankTiming r.line (c.addrToUnit r.line) r.cycle done).1
  { s.goto tid .idle with
    buf := buf
    maker := if id = s.buf.wbNext then Function.update s.maker id (some n) else s.maker
    acked := s.acked ++ [⟨n, r, id, completion c s.buf r done, buf.wb id⟩] }

/-- An action that is not the element's next does nothing. -/
def step (c : PeInterface) (s : SharedBuffer) : BufAct → SharedBuffer
  | .start tid r =>
    match s.pc tid with
    | .idle => s.start tid r
    | _ => s
  | .check tid =>
    match s.pc tid with
    | .check n r => s.checkForward tid n r
    | _ => s
  | .flag tid =>
    match s.pc tid with
    | .flag n r => s.setPostThis tid n r
    | _ => s
  | .book tid bank =>
    match s.pc tid, bank with
    | .book n r, some (arrive, wait) =>
      if r.wr && s.wbPostThis then bookPost c s tid n r arrive wait else bookOther c s tid n r arrive wait
    | .book n r, none => s.goto tid (afterBank n r none)
    | _, _ => s
  | .post tid done =>
    match s.pc tid with
    | .post n r _ => acknowledge c s tid n r done
    | _ => s

/-! ## What is wanted of every state -/

/-- Each posted write has one entry, made for it and no other, with its line, its unit and the completion computed for
it; what was booked as a posted write is one, and the reverse. -/
structure Sound (c : PeInterface) (s : SharedBuffer) : Prop where
  asBooked : ∀ b ∈ s.booked, b.posted = b.req.posts
  once : ∀ id id' n, s.maker id = some n → s.maker id' = some n → id = id'
  taken : ∀ x ∈ s.acked, s.maker x.id = some x.n
  kept : ∀ x ∈ s.acked, s.buf.label x.id = some (x.req.line, c.addrToUnit x.req.line)
  left : ∀ x ∈ s.acked, ∃ e, x.entry = some e ∧ e.line = x.req.line ∧ e.unit = c.addrToUnit x.req.line ∧
    e.done = x.completion

/-- No element is between the booking of a posted write and its acknowledgement. -/
def NoneWaits (s : SharedBuffer) : Prop :=
  ∀ tid, (s.pc tid).own = none

/-- The entries of the writes that wait for their acknowledgement complete after `t`. -/
def WaitingAfter (s : SharedBuffer) (t : Nat) : Prop :=
  ∀ tid id e, (s.pc tid).own = some id → s.buf.wb id = some e → t < e.done

/-- A look into the buffer, or an acknowledgement, frees no entry whose write waits for its own; a write's booking
finds `wbPostThis` as the write set it; and no write is booked as posted, or acknowledged, while another waits. -/
def Apart (s : SharedBuffer) : BufAct → Prop
  | .start _ _ | .flag _ => True
  | .check tid =>
    match s.pc tid with
    | .check _ r => !r.wr && r.near → s.WaitingAfter r.cycle
    | _ => True
  | .book tid bank =>
    match s.pc tid, bank with
    | .book _ r, some _ => (r.wr → s.wbPostThis = r.near) ∧ (r.posts → s.NoneWaits)
    | _, _ => True
  | .post tid done =>
    match s.pc tid with
    | .post _ r own => s.WaitingAfter r.cycle ∧
      (own = none → s.NoneWaits ∧ r.cycle < done)
    | _ => True

end SharedBuffer

end Pimid.Mem
