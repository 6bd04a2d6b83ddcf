import Mathlib.Data.Rat.Floor
import Mathlib.Data.Prod.Lex
import Mathlib.Data.List.Sort

/-!
# The posted-write buffer

The element's controller acknowledges a write when it has taken it into its buffer. The
write waits for its bank behind the work booked there; a read goes ahead of the writes
that wait and pushes them back, but not ahead of one that has started. While more than
80 % of the entries are taken, the oldest writes keep their place. A read of a line
that a buffered write holds is answered from the buffer.

Bank times are rational, cycles natural numbers. An entry the buffer does not have is
`none`, a line that no entry holds has count 0, and `wbByDone` is in its set's order.
`ahead` and `gone` are not in the program: what was booked ahead of the waiting writes,
and the entries that left the buffer, with the time they left at.
-/

namespace Pimid.Mem

open Function (update)

structure WbEntry where
  line : Nat
  unit : Nat
  start : Rat
  stop : Rat
  done : Nat
  fixed : Bool
deriving DecidableEq, Repr

/-- The end of a bank's committed work, and its waiting writes. -/
structure WbBank where
  fixedEnd : Rat := 0
  q : List Nat := []
deriving DecidableEq, Repr

structure WriteBuffer where
  wb : Nat → Option WbEntry := fun _ => none
  wbByDone : List (Nat × Nat) := []
  wbLines : Nat → Nat := fun _ => 0
  wbBank : Nat → WbBank := fun _ => {}
  wbNext : Nat := 0
  wbLast : Option Nat := none
  bankFree : Nat → Rat := fun _ => 0
  ahead : Nat → List (Rat × Rat) := fun _ => []
  gone : Nat → Option (WbEntry × Nat) := fun _ => none

/-- `writeBufferEntries`, `bankSvcCycles_` and `localWriteExtra_`. -/
structure BankTiming where
  entries : Nat
  svc : Rat
  writeExtra : Nat

/-- `(uint64_t)(x + 0.5)`. -/
def roundHalf (x : Rat) : Nat :=
  (x + 1 / 2).floor.toNat

namespace WriteBuffer

def insertDone (p : Nat × Nat) (l : List (Nat × Nat)) : List (Nat × Nat) :=
  l.orderedInsert (fun a b => toLex a ≤ toLex b) p

/-- `e` is the entry `id` with other times; its completion changes with it. -/
def wbSetDone (s : WriteBuffer) (id : Nat) (e : WbEntry) (done : Nat) : WriteBuffer :=
  { s with
    wbByDone := insertDone (done, id) (s.wbByDone.filter (· ≠ (e.done, id)))
    wb := update s.wb id (some { e with done := done }) }

/-- No read goes ahead of the entry any more, and `q` is what still waits. -/
def fix (s : WriteBuffer) (id : Nat) (e : WbEntry) (q : List Nat) : WriteBuffer :=
  { s with
    wb := update s.wb id (some { e with fixed := true })
    wbBank := update s.wbBank e.unit
      ⟨if (s.wbBank e.unit).fixedEnd < e.stop then e.stop else (s.wbBank e.unit).fixedEnd, q⟩ }

/-- The waiting writes of bank `u` that have started by `t` are committed. Each turn takes one off the queue. -/
def wbCommit (u : Nat) (t : Rat) : Nat → WriteBuffer → WriteBuffer
  | 0, s => s
  | fuel + 1, s =>
    match (s.wbBank u).q with
    | [] => s
    | id :: q =>
      match s.wb id with
      | some e => if t < e.start then s else wbCommit u t fuel (s.fix id e q)
      | none =>
        wbCommit u t fuel { s with wbBank := update s.wbBank u { s.wbBank u with q := q } }

/-- All of the bank's queue. -/
def commit (s : WriteBuffer) (u : Nat) (t : Rat) : WriteBuffer :=
  wbCommit u t (s.wbBank u).q.length s

/-- The entry leaves the buffer at `t`. -/
def leave (s : WriteBuffer) (id : Nat) (e : WbEntry) (t : Nat) : WriteBuffer :=
  { s with
    wbLines := update s.wbLines e.line (s.wbLines e.line - 1)
    wb := update s.wb id none
    gone := update s.gone id (some (e, t)) }

def freeOne (s : WriteBuffer) (t id : Nat) : WriteBuffer :=
  match s.wb id with
  | some e =>
    let s := if e.fixed then s else s.commit e.unit e.start
    s.leave id { e with fixed := true } t
  | none => s

/-- The entries complete by `t` leave the buffer. Each turn takes one off `wbByDone`. -/
def wbFreeLoop (t : Nat) : Nat → WriteBuffer → WriteBuffer
  | 0, s => s
  | fuel + 1, s =>
    match s.wbByDone with
    | [] => s
    | (d, id) :: rest => if d ≤ t then wbFreeLoop t fuel { s.freeOne t id with wbByDone := rest } else s

def wbFree (s : WriteBuffer) (t : Nat) : WriteBuffer :=
  wbFreeLoop t s.wbByDone.length s

/-! ## Booking a bank -/

def later (a b : Rat) : Rat :=
  if b < a then a else b

/-- A posted write is booked behind everything at its bank and waits. `wait` is the other elements' use of the bank and
the write-power budget's slot. -/
def bookPosted (c : BankTiming) (s : WriteBuffer) (line u arrive : Nat) (wait : Rat) : WriteBuffer :=
  let s := s.commit u arrive
  let start := later (s.bankFree u) arrive + wait
  let occ := c.svc + c.writeExtra
  let id := s.wbNext
  let d0 := roundHalf (start + occ)
  { s with
    bankFree := update s.bankFree u (start + occ)
    wbNext := id + 1
    wb := update s.wb id (some ⟨line, u, start, start + occ, d0, false⟩)
    wbByDone := insertDone (d0, id) s.wbByDone
    wbLines := update s.wbLines line (s.wbLines line + 1)
    wbBank := update s.wbBank u { s.wbBank u with q := (s.wbBank u).q ++ [id] }
    wbLast := some id }

/-- The waiting writes start no earlier than the work before them ends. -/
def pushBack : List Nat → Rat → WriteBuffer → WriteBuffer × Rat
  | [], prev, s => (s, prev)
  | id :: q, prev, s =>
    match s.wb id with
    | none => pushBack q prev s
    | some e =>
      if e.start < prev then
        let d := prev - e.start
        let e' := { e with start := e.start + d, stop := e.stop + d }
        pushBack q e'.stop (s.wbSetDone id e' (e.done + roundHalf d))
      else pushBack q e.stop s

/-- The bank's committed work goes on until the access is done. -/
def settleAhead (s : WriteBuffer) (u : Nat) (x : Rat × Rat) : WriteBuffer :=
  { s with
    wbBank := update s.wbBank u { s.wbBank u with fixedEnd := x.2 }
    ahead := update s.ahead u (s.ahead u ++ [x]) }

/-- The waiting writes start after it. -/
def makeRoom (s : WriteBuffer) (u : Nat) (x : Rat × Rat) : WriteBuffer :=
  let r := pushBack (s.wbBank u).q x.2 (s.settleAhead u x)
  { r.1 with bankFree := update r.1.bankFree u r.2 }

/-- A read, or a write that is not posted, is booked behind the bank's committed work, ahead of the writes that wait. -/
def bookAhead (c : BankTiming) (s : WriteBuffer) (wr : Bool) (u arrive : Nat) (wait : Rat) : WriteBuffer :=
  let s := s.commit u arrive
  let start := later (s.wbBank u).fixedEnd arrive + wait
  s.makeRoom u (start, start + (c.svc + if wr then (c.writeExtra : Rat) else 0))

/-! ## Taking a write -/

def size (s : WriteBuffer) : Nat :=
  (List.range s.wbNext).countP fun id => (s.wb id).isSome

/-- The entry the write's booking made; an entry committed at once where no bank is booked. -/
def takeEntry (s : WriteBuffer) (line unit issue done : Nat) : WriteBuffer × Nat :=
  match s.wbLast.filter fun id => (s.wb id).isSome with
  | some id => ({ s with wbLast := none }, id)
  | none =>
    let id := s.wbNext
    ({ s with
      wbLast := none
      wbNext := id + 1
      wb := update s.wb id (some ⟨line, unit, issue, done, done, true⟩)
      wbByDone := insertDone (done, id) s.wbByDone
      wbLines := update s.wbLines line (s.wbLines line + 1) }, id)

/-- Beyond the buffer the write waits for the `(N - D)`-th earliest completion of the other entries. -/
def acceptTime (c : BankTiming) (s : WriteBuffer) (id issue : Nat) : Nat :=
  if c.entries < s.size then
    match (s.wbByDone.filter (·.2 ≠ id))[s.size - c.entries - 1]? with
    | some p => if issue < p.1 then p.1 else issue
    | none => issue
  else issue

/-- One of the oldest writes keeps its place, unless enough do. -/
def keepOne (issue bound : Nat) (r : WriteBuffer × Nat) (id : Nat) : WriteBuffer × Nat :=
  if r.2 < bound then
    match r.1.wb id with
    | some e =>
      if e.fixed ∨ e.start ≤ issue then r
      else
        let s := r.1.commit e.unit issue
        (s.fix id e ((s.wbBank e.unit).q.erase id), r.2 + 1)
    | none => r
  else r

/-- While more than 80 % of the entries are taken, the oldest writes keep their place until at most 80 % remain. -/
def keepOldest (c : BankTiming) (s : WriteBuffer) (issue : Nat) : WriteBuffer :=
  let h := c.entries * 4 / 5
  if h < s.size then
    let kept := (List.range s.wbNext).countP fun id =>
      match s.wb id with
      | some e => e.fixed || decide (e.start ≤ issue)
      | none => false
    ((List.range s.wbNext).foldl (keepOne issue (s.size - h)) (s, kept)).1
  else s

/-- The entry takes the completion its blocking acknowledgement would have. Where the entry is gone, nothing. -/
def complete (s : WriteBuffer) (id accept done : Nat) : WriteBuffer :=
  match s.wb id with
  | some e => s.wbSetDone id e (if done < accept then accept else done)
  | none => s

/-- Before the completion is set: the write has its entry, and what is complete has left. -/
def postTake (s : WriteBuffer) (line unit issue done : Nat) : WriteBuffer × Nat :=
  let r := s.takeEntry line unit issue done
  (r.1.wbFree issue, r.2)

/-- The buffer, and the time the write is accepted. -/
def postWrite (c : BankTiming) (s : WriteBuffer) (line unit issue done : Nat) : WriteBuffer × Nat :=
  let r := s.postTake line unit issue done
  let accept := acceptTime c r.1 r.2 issue
  (keepOldest c (r.1.complete r.2 accept done) issue, accept)

/-! ## Accesses -/

/-- A read at `cycle` is answered from the buffer. -/
def forwarded (s : WriteBuffer) (line cycle : Nat) : Bool :=
  0 < (s.wbFree cycle).wbLines line

inductive Access where
  | read (line u cycle arrive : Nat) (wait : Rat)
  | ahead (wr : Bool) (u arrive : Nat) (wait : Rat)
  | post (line u issue arrive done : Nat) (wait : Rat)

/-- A read that may be answered from the buffer, an access that is neither answered from it nor posted, and a posted write. -/
def access (c : BankTiming) (s : WriteBuffer) : Access → WriteBuffer
  | .read line u cycle arrive wait =>
    if s.forwarded line cycle then s.wbFree cycle else bookAhead c (s.wbFree cycle) false u arrive wait
  | .ahead wr u arrive wait => bookAhead c s wr u arrive wait
  | .post line u issue arrive done wait => (postWrite c (bookPosted c s line u arrive wait) line u issue done).1

end WriteBuffer

end Pimid.Mem
