import Mathlib.Algebra.GroupWithZero.Nat
import Mathlib.Data.List.FinRange
import Mathlib.Logic.Function.Basic

/-!
# The trace replay driver

One host thread replays the events of every simulated thread. A core that crosses the end
of a phase parks its thread: the thread's later events are deferred until the phase ends,
which it does when every joined thread is parked. An ROI marker is a cut in file order:
everything read before it runs first.

What dispatching an event does to its core is not modelled. It may cross any number of
phase ends and join or leave the thread, and may meet the termination condition.
-/

namespace Pimid.Trace

inductive EventType where
  | memRead
  | memWrite
  | memAtomic
  | pimCompute
  | pimGather
  | pimScatter
  | pimReduce
  | netSend
  | netRecv
  | computeInt
  | computeFp
  | computeVector
  | barrier
  | taskStart
  | taskEnd
  | offloadStart
  | offloadEnd
  | roiBegin
  | roiEnd
  | other (code : Nat)
  deriving DecidableEq

structure TraceEvent where
  address : Nat
  auxData : Nat
  peId : Nat
  size : Nat
  srcNode : Nat
  dstNode : Nat
  eventType : EventType
  flags : Nat
  deriving DecidableEq

namespace TraceEvent

def isMarker (e : TraceEvent) : Bool := e.eventType = .roiBegin ∨ e.eventType = .roiEnd

def isCompute (e : TraceEvent) : Bool :=
  e.eventType = .computeInt ∨ e.eventType = .computeFp ∨ e.eventType = .computeVector

/-- The thread of an event. -/
def tid (n : Nat) [NeZero n] (e : TraceEvent) : Fin n := Fin.ofNat n e.peId

end TraceEvent

/-- The trace's own count of ROI instructions. -/
structure Roi where
  begins : Nat
  ends : Nat
  insns : Nat

/-- What an event adds to it. -/
def Roi.count (r : Roi) (e : TraceEvent) : Roi :=
  { begins := if e.eventType = .roiBegin then r.begins + 1 else r.begins
    ends := if e.eventType = .roiEnd then r.ends + 1 else r.ends
    insns := if e.isCompute ∧ r.begins > 0 ∧ r.ends = 0 then r.insns + e.auxData else r.insns }

/-- What one dispatch did to its thread. -/
structure Effect where
  crossings : Nat
  joined : Bool
  terminates : Bool

/-- What the simulated cores do: at each dispatch, and whether each phase end meets the
termination condition. -/
structure Behaviour where
  dispatch : Nat → Effect
  endOfPhase : Nat → Bool

structure Driver (n : Nat) where
  deferred : Fin n → List TraceEvent
  crossings : Fin n → Nat
  joined : Fin n → Bool
  lastReadSeq : Fin n → Nat
  eventsRead : Nat
  phaseEnds : Nat
  deferredEvents : Nat
  deferredPeak : Nat
  idleLeaves : Nat
  roi : Roi
  /-- An ROI marker that was read and waits. -/
  cut : Option TraceEvent
  rr : Nat
  /-- The events not read yet. -/
  file : List TraceEvent
  terminationConditionMet : Bool
  /-- The events dispatched, in order. -/
  dispatched : List TraceEvent

def IDLE_LIMIT : Nat := 262144

namespace Driver

variable {n : Nat}

def parkedThread (s : Driver n) (t : Fin n) : Bool := s.crossings t > 0

def anyJoined (s : Driver n) : Bool := (List.finRange n).any fun t => s.joined t

def allJoinedParked (s : Driver n) : Bool := (List.finRange n).all fun t => !s.joined t || s.parkedThread t

def anyDeferred (s : Driver n) : Bool := (List.finRange n).any fun t => !(s.deferred t).isEmpty

def endPhase (b : Behaviour) (s : Driver n) : Driver n :=
  { s with
    terminationConditionMet := s.terminationConditionMet || b.endOfPhase s.phaseEnds
    crossings := fun t => s.crossings t - 1
    phaseEnds := s.phaseEnds + 1 }

/-- A joined thread that has nothing to run. -/
def idle (s : Driver n) (everyEmpty : Bool) (t : Fin n) : Bool :=
  s.joined t && !s.parkedThread t && (s.deferred t).isEmpty
    && (everyEmpty || s.eventsRead - s.lastReadSeq t > IDLE_LIMIT)

def leaveIdleThreads (everyEmpty : Bool) (s : Driver n) : Driver n :=
  { s with
    joined := fun t => s.joined t && !s.idle everyEmpty t
    idleLeaves := s.idleLeaves + ((List.finRange n).filter fun t => s.idle everyEmpty t).length }

/-- The phase ends when every joined thread is parked. -/
def endIfParked (b : Behaviour) (s : Driver n) : Driver n :=
  if s.anyJoined && s.allJoinedParked then s.endPhase b else s

section

variable [NeZero n]

def dispatchEvent (b : Behaviour) (s : Driver n) (e : TraceEvent) : Driver n :=
  let eff := b.dispatch s.dispatched.length
  { s with
    crossings := Function.update s.crossings (e.tid n) (s.crossings (e.tid n) + eff.crossings)
    joined := Function.update s.joined (e.tid n) eff.joined
    terminationConditionMet := s.terminationConditionMet || eff.terminates || e.eventType = .roiEnd
    roi := s.roi.count e
    dispatched := s.dispatched ++ [e] }

/-- The next deferred event of a thread that is not parked, round-robin. -/
def nextDeferred (s : Driver n) : Option (Fin n × TraceEvent × List TraceEvent) :=
  ((List.range n).map fun i => Fin.ofNat n (s.rr + i)).findSome? fun t =>
    if s.parkedThread t then none
    else
      match s.deferred t with
      | [] => none
      | e :: rest => some (t, e, rest)

/-- An event of a parked thread waits. -/
def defer (s : Driver n) (e : TraceEvent) : Driver n :=
  let deferred := Function.update s.deferred (e.tid n) (s.deferred (e.tid n) ++ [e])
  let backlog := ((List.finRange n).map fun t => (deferred t).length).sum
  { s with
    deferred := deferred
    deferredEvents := s.deferredEvents + 1
    deferredPeak := if backlog > s.deferredPeak then backlog else s.deferredPeak }

/-- One turn of the replay loop; nothing where the loop ends. -/
def turn (b : Behaviour) (s : Driver n) : Option (Driver n) :=
  if s.terminationConditionMet then none
  else
    match s.nextDeferred with
    | some (t, e, rest) =>
      let s := { s with deferred := Function.update s.deferred t rest, rr := (t.val + 1) % n }
      some ((s.dispatchEvent b e).endIfParked b)
    | none =>
      match s.cut with
      | some cut =>
        if !s.anyDeferred then some (({ s with cut := none }.dispatchEvent b cut).endIfParked b)
        else some ((s.leaveIdleThreads true).endPhase b)
      | none =>
        match s.file with
        | [] => if s.anyDeferred then some ((s.leaveIdleThreads true).endPhase b) else none
        | event :: rest =>
          let s :=
            { s with
              file := rest
              eventsRead := s.eventsRead + 1
              lastReadSeq := Function.update s.lastReadSeq (event.tid n) (s.eventsRead + 1) }
          if event.isMarker then some { s with cut := some event }
          else if s.parkedThread (event.tid n) then
            some (((s.defer event).leaveIdleThreads false).endIfParked b)
          else some ((s.dispatchEvent b event).endIfParked b)

/-- The loop, for at most `fuel` turns: the state it ends in. -/
def loop (b : Behaviour) : Nat → Driver n → Option (Driver n)
  | 0, _ => none
  | fuel + 1, s =>
    match s.turn b with
    | none => some s
    | some s' => loop b fuel s'

end

/-- The driver before the first event. -/
def start (n : Nat) (file : List TraceEvent) : Driver n :=
  ⟨fun _ => [], fun _ => 0, fun _ => false, fun _ => 0, 0, 0, 0, 0, 0, ⟨0, 0, 0⟩, none, 0, file, false, []⟩

end Driver

/-! ## What the replay should come to -/

/-- The instructions of the ROI: the compute events after the first begin marker, up to the
first end marker. -/
def roiInstructions (l : List TraceEvent) : Nat :=
  (((((l.takeWhile fun e => e.eventType ≠ .roiEnd).dropWhile fun e => e.eventType ≠ .roiBegin).filter
    (·.isCompute)).map (·.auxData))).sum

/-- The events up to the first end marker, which is the last one replayed. -/
def upToEnd : List TraceEvent → List TraceEvent
  | [] => []
  | e :: l => if e.eventType = .roiEnd then [e] else e :: upToEnd l

end Pimid.Trace
