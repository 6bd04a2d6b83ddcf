import Pimid.Lib.Sweep
import Mathlib.Logic.Function.Basic

/-!
# The settlement of consumed prefetches

A core's L2 prefetcher issues requests that no core waits for. When a request of the
core finds a prefetched line, it waits for the estimated arrival; the replay learns the
real one when the prefetch completes in it. `PfShard` keeps a core's recorded prefetches
until both are known, and settles the consumed ones in the order of their waits: each
adds the growth of the union of the waits that the measured arrivals give, less the
growth of the union of the waits that were charged.

One core, and the time in cycles. The lock, the instance that the shard belongs to and
the balance the correction goes to are left out (`Dram.Balance` has the latter).
-/

namespace Pimid.Dram

open Function (update)

structure PfEnt where
  isDone : Bool := false
  cons : Bool := false
  dropped : Bool := false
  delta : Int := 0
  waitStart : Nat := 0
  estArr : Nat := 0
  iss : Nat := 0
deriving DecidableEq

/-- The state of the settlement. The log of the settled tags, with the growth of the
charged waits each gave, is not in the code. -/
structure Stall where
  estEnd : Int := 0
  trueEnd : Int := 0
  C : Int := 0
  C0 : Int := 0
  hist : List (Nat × Int) := []
  n : Nat := 0
  late : Nat := 0
  log : List (Nat × Int) := []

/-- `ord` is the `std::map` from wait start and number to tag, in key order. -/
structure PfShard extends Stall where
  ent : Nat → Option PfEnt := fun _ => none
  ord : List ((Nat × Nat) × Nat) := []
  ordSeq : Nat := 0
  corr : Int := 0

/-! ## One settlement -/

def PfEnt.eEnd (e : PfEnt) : Int := max (e.waitStart : Int) e.estArr

namespace Stall

variable (k : Stall) (e : PfEnt)

/-- The corrections settled up to the prefetch's issue: the last entry of `hist` before
the `upper_bound` of its issue. -/
def issueC : Int :=
  match (k.hist.takeWhile fun h => h.1 ≤ e.iss).getLast? with
  | some h => h.2
  | none => k.C0

def tEnd : Int := max (e.waitStart : Int) (e.estArr + e.delta - (k.C - k.issueC e))

/-- The growth of the union of the waits that were charged. -/
def de : Int := max 0 (e.eEnd - max (e.waitStart : Int) k.estEnd)

/-- The growth of the union of the waits that the measured arrivals give. -/
def dt : Int := max 0 (k.tEnd e - max (e.waitStart : Int) (k.trueEnd - k.C))

/-- `while (hist.size() > 4096)`: drop the oldest. -/
def trim (C0 : Int) : List (Nat × Int) → Int × List (Nat × Int)
  | [] => (C0, [])
  | h :: r => if (h :: r).length > 4096 then trim h.2 r else (C0, h :: r)

/-- The correction of one consumed prefetch. -/
def correction : Int := k.dt e - k.de e

def settle (tag : Nat) : Stall :=
  let c := k.correction e
  let C := k.C + c
  let h := trim k.C0 (k.hist ++ [(e.waitStart, C)])
  { estEnd := max k.estEnd (e.eEnd), trueEnd := max k.trueEnd (k.tEnd e + k.C), C, C0 := h.1, hist := h.2,
    n := k.n + 1, late := if c > 0 then k.late + 1 else k.late, log := k.log ++ [(tag, k.de e)] }

end Stall

/-! ## The shard -/

/-- `std::map::emplace` -/
def emplace (key : Nat × Nat) (tag : Nat) : List ((Nat × Nat) × Nat) → List ((Nat × Nat) × Nat)
  | [] => [(key, tag)]
  | f :: r =>
    if key = f.1 then f :: r
    else if key.1 < f.1.1 ∨ (key.1 = f.1.1 ∧ key.2 < f.1.2) then (key, tag) :: f :: r
    else f :: emplace key tag r

/-- A request that found a prefetched line. -/
structure Wait where
  tag : Nat
  waitStart : Nat
  estArr : Nat
  iss : Nat
deriving DecidableEq

/-- A replayed completion: the latency, the charge, and whether it is outside the ROI. -/
structure Completion where
  latCyc : Nat
  chg : Nat
  out : Bool

def Completion.delta (c : Completion) : Int := if c.out then 0 else (c.latCyc : Int) - c.chg

namespace PfShard

/-- The prefetch of `tag` is settled, and its entry erased. -/
def settleFront (k : PfShard) (tag : Nat) (e : PfEnt) : PfShard where
  toStall := k.settle e tag
  ent := update k.ent tag none
  ord := k.ord
  ordSeq := k.ordSeq
  corr := k.corr

/-- The loop of `pfDrain`, with the sum of the corrections. -/
def drain (k : PfShard) : List ((Nat × Nat) × Nat) → PfShard × Int
  | [] => ({ k with ord := [] }, 0)
  | f :: r =>
    match k.ent f.2 with
    | none => drain k r
    | some e =>
      if e.isDone then
        let p := drain (k.settleFront f.2 e) r
        (p.1, k.correction e + p.2)
      else ({ k with ord := f :: r }, 0)

def pfDrain (k : PfShard) : PfShard × Int :=
  let p := k.drain k.ord
  ({ p.1 with corr := p.1.corr + p.2 }, p.2)

/-- A prefetch is recorded under its tag. -/
def recorded (k : PfShard) (tag : Nat) : PfShard :=
  if tag = 0 then k else { k with ent := update k.ent tag (some {}) }

def prefetchConsumed (k : PfShard) (w : Wait) : PfShard × Int :=
  if w.tag = 0 then (k, 0)
  else
    match k.ent w.tag with
    | none => (k, 0)
    | some e =>
      if e.cons then (k, 0)
      else
        pfDrain
          { k with
            ent := update k.ent w.tag
              (some { e with cons := true, waitStart := w.waitStart, estArr := w.estArr, iss := w.iss })
            ord := emplace (w.waitStart, k.ordSeq) w.tag k.ord
            ordSeq := k.ordSeq + 1 }

def prefetchDropped (k : PfShard) (tag : Nat) : PfShard :=
  if tag = 0 then k
  else
    match k.ent tag with
    | none => k
    | some e =>
      if e.cons then k
      else if e.isDone then { k with ent := update k.ent tag none }
      else { k with ent := update k.ent tag (some { e with dropped := true }) }

/-- The part of `acceptOne` for a prefetch that completes. -/
def completed (k : PfShard) (tag : Nat) (c : Completion) : PfShard × Int :=
  if tag = 0 then (k, 0)
  else
    match k.ent tag with
    | none => (k, 0)
    | some e =>
      if e.dropped then ({ k with ent := update k.ent tag none }, 0)
      else
        let k' : PfShard := { k with
          ent := update k.ent tag (some { e with delta := c.delta, isDone := true }) }
        if e.cons then k'.pfDrain else (k', 0)

/-! ## Runs -/

/-- What the core's prefetcher calls. -/
inductive Call where
  | recorded (tag : Nat)
  | consumed (w : Wait)
  | dropped (tag : Nat)
deriving DecidableEq

inductive Ev where
  | call (c : Call)
  | completed (tag : Nat)
deriving DecidableEq

/-- One event, with the sum of what `pfDrain` returned so far. -/
def step (comp : Nat → Completion) (s : PfShard × Int) : Ev → PfShard × Int
  | .call (.recorded t) => (s.1.recorded t, s.2)
  | .call (.consumed w) => ((s.1.prefetchConsumed w).1, s.2 + (s.1.prefetchConsumed w).2)
  | .call (.dropped t) => (s.1.prefetchDropped t, s.2)
  | .completed t => ((s.1.completed t (comp t)).1, s.2 + (s.1.completed t (comp t)).2)

/-- A run in which the prefetch of each tag completes with `comp`. -/
def run (comp : Nat → Completion) (evs : List Ev) : PfShard × Int := evs.foldl (step comp) ({}, 0)

def calls : List Ev → List Call := List.filterMap fun e => match e with | .call c => some c | .completed _ => none

def completions : List Ev → List Nat := List.filterMap fun e => match e with | .call _ => none | .completed t => some t

/-- What the calls say of each tag: recorded, consumed (in order), or dropped. -/
structure Books where
  recorded : List Nat := []
  waits : List Wait := []
  dropped : List Nat := []

def Books.note (b : Books) : Call → Books
  | .recorded t => { b with recorded := t :: b.recorded }
  | .consumed w =>
    if w.tag ∈ b.recorded ∧ w.tag ∉ b.waits.map Wait.tag then { b with waits := b.waits ++ [w] } else b
  | .dropped t =>
    if t ∈ b.recorded ∧ t ∉ b.waits.map Wait.tag then { b with dropped := t :: b.dropped } else b

def books (evs : List Ev) : Books := (calls evs).foldl Books.note {}

/-- The consumptions of a run, noted or not. -/
def consumptions (evs : List Ev) : List Wait :=
  (calls evs).filterMap fun c => match c with | .consumed w => some w | _ => none

/-- `e` can come after `evs`: tags are the core's own and not zero, wait starts do not go
back, a dropped line is not found by a request, and a prefetch completes once, after it
was recorded. -/
def Allowed (evs : List Ev) : Ev → Prop
  | .call (.recorded t) => t ≠ 0 ∧ t ∉ (books evs).recorded
  | .call (.consumed w) => (∀ v ∈ consumptions evs, v.waitStart ≤ w.waitStart) ∧ w.tag ∉ (books evs).dropped
  | .call (.dropped _) => True
  | .completed t => t ∈ (books evs).recorded ∧ t ∉ completions evs

instance (evs : List Ev) (e : Ev) : Decidable (Allowed evs e) :=
  match e with
  | .call (.recorded _) => inferInstanceAs (Decidable (_ ∧ _))
  | .call (.consumed _) => inferInstanceAs (Decidable (_ ∧ _))
  | .call (.dropped _) => inferInstanceAs (Decidable True)
  | .completed _ => inferInstanceAs (Decidable (_ ∧ _))

/-- The orders in which the events can come. -/
inductive Schedule : List Ev → Prop
  | nil : Schedule []
  | snoc {evs : List Ev} {e : Ev} : Schedule evs → Allowed evs e → Schedule (evs ++ [e])

/-- The wait that a consumption was charged. -/
def charged (w : Wait) : Nat × Nat := (w.waitStart, max w.waitStart w.estArr)

end PfShard

end Pimid.Dram
