import Pimid.Mpi.Transport
import Pimid.Lib.Slice

/-!
# Messages over the transport

`send_bytes`, `recv_bytes` and `xchg_bytes` in thread mode, chunk by chunk over the
transport of `Transport`: every chunk that is sent or received is one critical section,
and between two of them any other rank may take any number. What a call is doing is its
rank's `Ctl`; a rank that is idle may begin any call.

The stamp of a message is what `send_prelude` made it. A receive keeps, besides its
progress, the chunks it has taken and the memory it began with; the code does not.
-/

namespace Pimid.Mpi.Transport

/-- `SendStamp` -/
structure SendStamp where
  msgId : Nat
  sendTime : Nat
  contendWait : Nat

structure Message where
  tag : Int
  bytes : Bytes
  stamp : SendStamp

/-- `send_chunk_at` -/
def Message.chunkAt (m : Message) (i : Nat) : Outgoing :=
  let off := i * maxMsgBytes
  let left := if m.bytes.length > off then m.bytes.length - off else 0
  let take := if left < maxMsgBytes then left else maxMsgBytes
  { tag := m.tag
    data := (m.bytes.drop off).take take
    chunkIdx := i
    nChunks := chunksOf m.bytes.length
    msgId := m.stamp.msgId
    sendTime := m.stamp.sendTime
    contendWait := m.stamp.contendWait
    msgBytes := m.bytes.length
    fits := by
      refine (List.length_take_le _ _).trans ?_
      dsimp only [take]
      split
      next h => exact h.le
      next => exact le_refl _ }

/-- The arguments of `inject_timing_recv`: what one arrival is charged for. -/
structure RecvTiming where
  src : Int
  bytes : Nat
  sendTime : Nat
  contendWait : Nat
deriving DecidableEq

/-- A receive from `src` into the first `cap` bytes of `buf`. -/
structure Posted where
  src : Int
  cap : Nat
  buf : Bytes
  fits : cap ≤ buf.length

/-- Receive progress of one message: `RecvState`, the memory, and the arrivals timed. -/
structure Receiving where
  want : Int
  src : Int
  written : Nat
  sendTime : Nat
  contendWait : Nat
  done : Bool
  timed : Bool
  cap : Nat
  buf : Bytes
  timings : List RecvTiming
  before : Bytes
  took : List Packet

def Posted.start (p : Posted) : Receiving where
  want := p.src
  src := -1
  written := 0
  sendTime := 0
  contendWait := 0
  done := false
  timed := false
  cap := p.cap
  buf := p.buf
  timings := []
  before := p.buf
  took := []

/-- `recv_chunk_thread`, with the chunk it acquired. -/
def Receiving.chunk (r : Receiving) (s : Packet) : Receiving :=
  let src := if r.src < 0 then s.header.src else r.src
  let space := if r.cap > r.written then r.cap - r.written else 0
  let take := if s.header.size < space then s.header.size else space
  let total := if s.header.msgBytes < r.cap then s.header.msgBytes else r.cap
  { r with
    want := if r.src < 0 then s.header.src else r.want
    src := src
    sendTime := s.header.simSendTime
    contendWait := s.header.simContendWait
    done := decide (s.header.chunkIdx + 1 ≥ s.header.nChunks)
    timings :=
      if r.timed then r.timings
      else r.timings ++ [⟨src, total, s.header.simSendTime, s.header.simContendWait⟩]
    timed := true
    buf := splice r.buf r.written (s.bytes.take take)
    written := r.written + take
    took := r.took ++ [s] }

/-- What a receive returned, and what it did. -/
structure Got where
  src : Int
  cap : Nat
  ret : Nat
  before : Bytes
  after : Bytes
  timings : List RecvTiming
  took : List Packet

/-- The end of a receive. -/
def Receiving.finish (r : Receiving) : Got where
  src := r.want
  cap := r.cap
  ret := r.written
  before := r.before
  after := r.buf
  timings := if r.timed then r.timings else r.timings ++ [⟨r.src, r.written, r.sendTime, r.contendWait⟩]
  took := r.took

/-- What a rank is at. `sending`: chunk `i` is next, and after the last one a receive may
follow. `exchanging`: pass `i`, whose chunk is sent or not. -/
inductive Ctl where
  | idle
  | sending (dest : Nat) (m : Message) (i : Nat) (next : Option Posted)
  | receiving (r : Receiving)
  | exchanging (dest : Nat) (m : Message) (r : Receiving) (i : Nat) (sent : Bool)

inductive Call where
  | sendBytes (dest : Int) (m : Message)
  | recvBytes (p : Posted)
  | xchgBytes (dest : Int) (m : Message) (p : Posted)

/-- A chunk came or went; a message was sent; a receive returned. -/
inductive CallEvent where
  | chunk (e : Event)
  | sent (rank dest : Nat) (m : Message)
  | got (rank : Nat) (g : Got)

def isRank (N : Nat) (r : Int) : Bool := decide (0 ≤ r) && decide (r < N)

def beginRecv (N : Nat) (p : Posted) : Ctl := if isRank N p.src then .receiving p.start else .idle

/-- A call begins on an idle rank. -/
def beginCall (N rank : Nat) : Call → Ctl × List CallEvent
  | .sendBytes dest m =>
    if N ≤ 1 then (.idle, [])
    else if isRank N dest then (.sending dest.toNat m 0 none, [.sent rank dest.toNat m])
    else (.idle, [])
  | .recvBytes p => if N ≤ 1 then (.idle, []) else (beginRecv N p, [])
  | .xchgBytes dest m p =>
    if N ≤ 1 then (.idle, [])
    else if isRank N dest && isRank N p.src then
      (.exchanging dest.toNat m p.start 0 false, [.sent rank dest.toNat m])
    else if isRank N dest then (.sending dest.toNat m 0 (some p), [.sent rank dest.toNat m])
    else (beginRecv N p, [])

/-- Chunk `i` has been sent. -/
def afterSend (N dest : Nat) (m : Message) (i : Nat) (next : Option Posted) : Ctl :=
  if i + 1 < chunksOf m.bytes.length then .sending dest m (i + 1) next
  else
    match next with
    | none => .idle
    | some p => beginRecv N p

def afterRecv (rank : Nat) (r : Receiving) : Ctl × List CallEvent :=
  if r.done then (.idle, [.got rank r.finish]) else (.receiving r, [])

/-- The end of pass `i`. -/
def afterPass (rank dest : Nat) (m : Message) (r : Receiving) (i : Nat) : Ctl × List CallEvent :=
  if i + 1 < chunksOf m.bytes.length || !r.done then (.exchanging dest m r (i + 1) false, [])
  else (.idle, [.got rank r.finish])

structure Ranks where
  inbox : Nat → Inbox
  ctl : Nat → Ctl

inductive CallAct where
  | begin (rank : Nat) (c : Call)
  | go (rank : Nat)

/-- A critical section of the transport, and what the rank makes of the chunk it took, if
it took one. -/
def critical (N : Nat) (s : Ranks) (rank : Nat) (a : Act) (k : Option Packet → Ctl × List CallEvent) :
    Option (Ranks × List CallEvent) :=
  match step N s.inbox a with
  | none => none
  | some (inbox, es) =>
    let (c, evs) := k (es.findSome? fun | .took _ p => some p | .enqueued .. => none)
    some (⟨inbox, Function.update s.ctl rank c⟩, es.map .chunk ++ evs)

/-- The rank goes on with its call. -/
def goOn (N : Nat) (s : Ranks) (rank : Nat) : Option (Ranks × List CallEvent) :=
  match s.ctl rank with
  | .idle => none
  | .sending dest m i next =>
    critical N s rank (.send rank dest (m.chunkAt i)) fun _ => (afterSend N dest m i next, [])
  | .receiving r =>
    critical N s rank (.recv rank r.want) fun
      | none => (.receiving r, [])
      | some p => afterRecv rank (r.chunk p)
  | .exchanging dest m r i false =>
    if i < chunksOf m.bytes.length then
      critical N s rank (.send rank dest (m.chunkAt i)) fun _ => (.exchanging dest m r i true, [])
    else some (⟨s.inbox, Function.update s.ctl rank (.exchanging dest m r i true)⟩, [])
  | .exchanging dest m r i true =>
    if r.done then
      let (c, evs) := afterPass rank dest m r i
      some (⟨s.inbox, Function.update s.ctl rank c⟩, evs)
    else
      critical N s rank (.recv rank r.want) fun
        | none => (.exchanging dest m r i true, [])
        | some p => afterPass rank dest m (r.chunk p) i

def callStep (N : Nat) (s : Ranks) : CallAct → Option (Ranks × List CallEvent)
  | .begin rank c =>
    match s.ctl rank with
    | .idle =>
      if rank < N then
        let (ctl, evs) := beginCall N rank c
        some (⟨s.inbox, Function.update s.ctl rank ctl⟩, evs)
      else none
    | _ => none
  | .go rank => goOn N s rank

/-- `N` ranks, each making any calls one after the other. -/
def ranks (N : Nat) : Machine Ranks CallAct CallEvent where
  init := ⟨fun _ => .init, fun _ => .idle⟩
  step := callStep N

/-! ## What the log says -/

def chunkEvents (l : List CallEvent) : List Event :=
  l.filterMap fun
    | .chunk e => some e
    | _ => none

/-- The messages `s` sent to `d`, in order. -/
def sentTo (s d : Nat) (l : List CallEvent) : List Message :=
  l.filterMap fun
    | .sent rank dest m => if rank = s ∧ dest = d then some m else none
    | _ => none

/-- The receives from `s` that returned on `d`, in order. -/
def gotFrom (s d : Nat) (l : List CallEvent) : List Got :=
  l.filterMap fun
    | .got rank g => if rank = d ∧ g.src = s then some g else none
    | _ => none

end Pimid.Mpi.Transport
