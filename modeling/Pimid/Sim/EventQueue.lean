import Mathlib.Algebra.Group.Nat.Defs
import Mathlib.Data.List.Nodup
import Mathlib.Data.List.Pairwise
import Mathlib.Data.List.Perm.Basic

/-!
# The discrete-event queue

`EventQueue`: events in a `std::priority_queue`, taken by cycle and, within a cycle, by
priority. A callback runs while its event is still at the top of the queue, and what it
schedules goes into the same queue; only then the top is popped.

The queue is a list whose head is the top. A push replaces the top by an event that
comes before it and by no other; after a pop any of the events that none comes before
may be the top, and `Turn.top` says which. What a callback does is the requests it
makes, in order, thrown out of or not; it may be anything.

An event is numbered when it is scheduled. The code does not number them.
-/

namespace Pimid.Sim

/-- The values of `Cycle`. -/
def cycles : Nat := 2 ^ 64

structure Event where
  id : Nat
  scheduledCycle : Nat
  priority : Nat
deriving DecidableEq, Repr

/-- `operator<`: `other` comes before `e`. -/
def Event.lt (e other : Event) : Bool :=
  if e.scheduledCycle = other.scheduledCycle then decide (e.priority < other.priority)
  else decide (e.scheduledCycle > other.scheduledCycle)

/-- The arguments of `scheduleEvent`; the callback may be null. -/
structure Request where
  cycle : Nat
  priority : Nat
  callback : Bool := true
  fits : cycle < cycles := by decide

structure EventQueue where
  events : List Event
  currentCycle : Nat
  totalEvents : Nat
  nextId : Nat
deriving DecidableEq

namespace EventQueue

def init : EventQueue := ⟨[], 0, 0, 0⟩

/-- `std::priority_queue::push` -/
def push (e : Event) : List Event → List Event
  | [] => [e]
  | t :: r => if t.lt e then e :: t :: r else t :: e :: r

/-- The event that a request in `q` becomes. -/
def eventOf (q : EventQueue) (r : Request) : Event where
  id := q.nextId
  scheduledCycle := if r.cycle < q.currentCycle then (q.currentCycle + 1) % cycles else r.cycle
  priority := r.priority

def scheduleEvent (q : EventQueue) (r : Request) : EventQueue :=
  if r.callback then { q with events := push (q.eventOf r) q.events, nextId := q.nextId + 1 } else q

/-- The events that the requests become, with the requests. -/
def made (q : EventQueue) : List Request → List (Request × Event)
  | [] => []
  | r :: rs => (if r.callback then [(r, q.eventOf r)] else []) ++ made (q.scheduleEvent r) rs

/-- What a callback requests, and the place among the remaining events of the next top. -/
structure Turn where
  requests : List Request
  top : Nat

/-- `std::priority_queue::pop`, the event at place `k` of the rest coming up. -/
def pop (k : Nat) : List Event → Option (List Event)
  | [] => none
  | [_] => some []
  | _ :: r =>
    match r[k]? with
    | none => none
    | some t => if (r.eraseIdx k).all fun x => !t.lt x then some (t :: r.eraseIdx k) else none

/-- A callback that was run: its event, what was queued, and what it scheduled. -/
structure Ran where
  event : Event
  queued : List Event
  made : List (Request × Event)

/-- The body of the loop: run the callback of the top, then pop. -/
def processTop (q : EventQueue) (t : Turn) : Option (EventQueue × Ran) :=
  match q.events with
  | [] => none
  | e :: _ =>
    let q₁ := { q with currentCycle := e.scheduledCycle }
    let q₂ := t.requests.foldl scheduleEvent q₁
    match pop t.top q₂.events with
    | none => none
    | some rest =>
      some ({ q₂ with events := rest, totalEvents := q₂.totalEvents + 1 }, ⟨e, q.events, q₁.made t.requests⟩)

/-- No event is left, or the top is beyond `untilCycle`. -/
def stops (q : EventQueue) (untilCycle : Nat) : Bool :=
  match q.events with
  | [] => true
  | e :: _ => decide (e.scheduledCycle > untilCycle)

/-- A run of `processEvents` that stops after these turns, with the callbacks run. -/
def processEvents (untilCycle : Nat) (q : EventQueue) : List Turn → Option (EventQueue × List Ran)
  | [] => if q.stops untilCycle then some ({ q with currentCycle := max q.currentCycle untilCycle }, []) else none
  | t :: ts =>
    if q.stops untilCycle then none
    else
      match q.processTop t with
      | none => none
      | some (q', ran) => (processEvents untilCycle q' ts).map fun p => (p.1, ran :: p.2)

/-- `processNextEvent` with an event queued. -/
def processNextEvent (q : EventQueue) (t : Turn) : Option (EventQueue × Ran) := q.processTop t

/-! ## What a run should do -/

/-- The callback scheduled nothing that comes before its own event. -/
def Ran.InOrder (r : Ran) : Prop := ∀ m ∈ r.made, r.event.lt m.2 = false

/-- Among what was queued for its cycle none had a higher priority, and a request in the
past was put on the cycle after. -/
structure Ran.Ok (r : Ran) : Prop where
  first : ∀ e ∈ r.queued, e.scheduledCycle = r.event.scheduledCycle → e.priority ≤ r.event.priority
  past : ∀ m ∈ r.made, m.2.scheduledCycle =
    if m.1.cycle < r.event.scheduledCycle then r.event.scheduledCycle + 1 else m.1.cycle

/-- All the events there were in the run. -/
def eventsOf (q : EventQueue) (log : List Ran) : List Event := q.events ++ log.flatMap fun r => r.made.map Prod.snd

/-- **What `processEvents` is for.** -/
structure Processed (untilCycle : Nat) (q q' : EventQueue) (log : List Ran) : Prop where
  once : (log.map Ran.event).Perm ((q.eventsOf log).filter (·.scheduledCycle ≤ untilCycle))
  left : q'.events.Perm ((q.eventsOf log).filter (untilCycle < ·.scheduledCycle))
  order : (log.map fun r => r.event.scheduledCycle).Pairwise (· ≤ ·)
  ran : ∀ r ∈ log, r.Ok
  total : q'.totalEvents = q.totalEvents + log.length

/-- **What `processNextEvent` is for**: the callback of the first event is run, and that
event leaves the queue. -/
structure ProcessedNext (q q' : EventQueue) (r : Ran) : Prop where
  once : (r.event :: q'.events).Perm (q.eventsOf [r])
  earliest : ∀ e ∈ q.events, r.event.scheduledCycle ≤ e.scheduledCycle
  ran : r.Ok
  total : q'.totalEvents = q.totalEvents + 1

end EventQueue

end Pimid.Sim
