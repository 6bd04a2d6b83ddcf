import Mathlib.Data.List.Range
import Mathlib.Logic.Function.Basic
import Pimid.Host.Ring

/-!
# The L2 streamer

The prefetcher between a core's L1D and its L2. Its table holds a training entry and up to
two streams for each page; a stream fetches the lines ahead of the requests it follows, and
a miss fetches the other line of its pair. Every prefetch has a tag, and the replay is told
of each tag once: when a request finds the line, when the line missed after all, or when
its entry is replaced.

The cache above answers an access as it likes (`Parent`). A page that no line is in stands
for `~0`; the counters are natural numbers, the tag a 32-bit one. `serial` numbers the
prefetches of a run and no branch reads it.
-/

namespace Pimid.Cache.Streamer

open Pimid.Host (ReqType)
open Function (update)

/-- `L2StreamPrefetcher::Params`. -/
structure Params where
  streams : Nat := 32
  distance : Nat := 20
  perLookup : Nat := 2
  queue : Nat := 48
  spatial : Bool := true
deriving DecidableEq, Repr

def MAX_STREAMS : Nat := 64
def MAX_QUEUE : Nat := 128

/-- `TimingRecord recs[8]`. -/
def MAX_RECS : Nat := 8

/-- An entry of the table. -/
structure Stream where
  page : Option Nat := none
  dir : Int := 0
  lastPos : Int := 0
  pfPos : Int := -1
  ts : Nat := 0
  pending : Nat → Bool := fun _ => false
  resp : Nat → Nat := fun _ => 0
  iss : Nat → Nat := fun _ => 0
  tag : Nat → Nat := fun _ => 0
  serial : Nat → Nat := fun _ => 0

/-- An outstanding-request entry of the L2. -/
structure Slot where
  start : Nat := 0
  till : Nat := 0

/-- The entry is held at `t`. -/
def Slot.holds (s : Slot) (t : Nat) : Bool := s.start ≤ t && t < s.till

structure L2StreamPrefetcher where
  name : String
  p : Params
  parentHitLat : Nat
  streamTab : Nat → Stream := fun _ => {}
  slots : Nat → Slot := fun _ => {}
  timestamp : Nat := 0
  core : Nat := 2 ^ 32 - 1
  tagSeq : Nat := 0
  profIssued : Nat := 0

/-- What the replay is told of a prefetch. `serial` and `line` say which one it was. -/
inductive Report where
  | prefetchConsumed (tag core hit resp iss serial line : Nat)
  | prefetchDropped (tag core serial line : Nat)
deriving DecidableEq, Repr

/-- A prefetch: what it asked for, for which entry, what the table and the slots were then,
and how it was answered. -/
structure Issue where
  line : Nat
  owner : Nat
  page : Option Nat
  dir : Int
  spatial : Bool
  wasPending : Bool
  held : Nat
  tag : Nat
  serial : Nat
  fetched : Bool
  record : Bool
deriving DecidableEq, Repr

structure Req where
  lineAddr : Nat
  type : ReqType
  cycle : Nat
  srcId : Nat

/-- An answer of the parent: when the line is there, and whether it left a timing record. -/
structure Answer where
  resp : Nat
  record : Bool

/-- What the parent answers during one access: to the request, and to the `k`-th prefetch. -/
structure Parent where
  demand : Nat
  pf : Nat → Answer

namespace L2StreamPrefetcher

/-- The constructor, and the parent it is given. -/
def new (name : String) (p : Params) (parentHitLat : Nat) : Except String L2StreamPrefetcher :=
  if p.streams < 1 ∨ p.streams > MAX_STREAMS then
    .error s!"{name}: streams must be 1..{MAX_STREAMS} (got {p.streams})"
  else if p.queue < 1 ∨ p.queue > MAX_QUEUE then .error s!"{name}: queue must be 1..{MAX_QUEUE} (got {p.queue})"
  else if p.distance < 1 ∨ p.distance > 63 then .error s!"{name}: distance must be 1..63 lines (got {p.distance})"
  else if p.perLookup < 1 ∨ p.perLookup > 8 then .error s!"{name}: perLookup must be 1..8 (got {p.perLookup})"
  else .ok { name, p, parentHitLat }

variable (f : L2StreamPrefetcher)

def setStream (i : Nat) (e : Stream) : L2StreamPrefetcher :=
  { f with streamTab := update f.streamTab i e }

@[simp] theorem setStream_same (i : Nat) (e : Stream) : (f.setStream i e).streamTab i = e := by
  simp [setStream]

theorem setStream_ne {i j : Nat} (h : j ≠ i) (e : Stream) : (f.setStream i e).streamTab j = f.streamTab j := by
  simp [setStream, h]

/-! ## The slots -/

def inFlight (t : Nat) : Nat := (List.range f.p.queue).countP fun i => (f.slots i).holds t

/-- The first slot free at `start`, else the one that frees first. -/
def bestSlot (start : Nat) : Nat :=
  match (List.range f.p.queue).find? fun i => !(f.slots i).holds start with
  | some i => i
  | none => (List.range f.p.queue).foldl (fun best i => if (f.slots i).till < (f.slots best).till then i else best) 0

def takeSlot (start till : Nat) : L2StreamPrefetcher :=
  { f with slots := update f.slots (f.bestSlot start) { start, till } }

/-! ## The table -/

/-- The first entry that has `q`. -/
def findStream (q : Stream → Bool) : Option Nat := (List.range f.p.streams).find? fun i => q (f.streamTab i)

def isPending (page pos : Nat) : Bool :=
  (List.range f.p.streams).any fun i => decide ((f.streamTab i).page = some page) && (f.streamTab i).pending pos

/-- The least recently used entry, the first of them. -/
def lruStream : Nat :=
  (List.range f.p.streams).foldl (fun v i => if (f.streamTab i).ts < (f.streamTab v).ts then i else v) 0

/-- `DramEpochReplay::prefetchDropped`, if the line has a tag. -/
def forget (e : Stream) (pos : Nat) : List Report :=
  if e.tag pos ≠ 0 then [.prefetchDropped (e.tag pos) f.core (e.serial pos) (e.page.getD 0 * 64 + pos)] else []

/-- The entry of a page first asked for at `pos`. -/
def freshStream (page : Nat) (pos : Int) (ts : Nat) (e : Stream) : Stream :=
  { e with page := some page, dir := 0, lastPos := pos, pfPos := -1, pending := fun _ => false, ts }

/-- The entry replaced, the reports of its lines and the table with the new entry. -/
def allocate (page : Nat) (pos : Int) : Nat × List Report × L2StreamPrefetcher :=
  let v := f.lruStream
  let e := f.streamTab v
  let dropped := (List.range 64).flatMap fun i => if e.pending i then f.forget e i else []
  let ts := f.timestamp + 1
  (v, dropped, { f.setStream v (freshStream page pos ts { e with tag := fun i => if e.pending i ∧ i < 64 then 0 else e.tag i }) with
    timestamp := ts })

/-- The entry's clock is the latest. -/
def touch (i : Nat) : L2StreamPrefetcher :=
  { f.setStream i { f.streamTab i with ts := f.timestamp + 1 } with timestamp := f.timestamp + 1 }

def setLastPos (i : Nat) (pos : Int) : L2StreamPrefetcher := f.setStream i { f.streamTab i with lastPos := pos }

/-! ## One prefetch -/

/-- The next tag; zero means none. -/
def nextTag (tagSeq : Nat) : Nat := if (tagSeq + 1) % 2 ^ 32 = 0 then 1 else (tagSeq + 1) % 2 ^ 32

/-- The state of an access while it prefetches: `recs[0 .. nrec - 1]` are taken. -/
structure Lookup where
  pf : L2StreamPrefetcher
  nrec : Nat := 0
  issues : List Issue := []

/-- The prefetch's line is on its way to the entry. -/
def fetch (owner pos : Nat) (reqCycle resp tag : Nat) : L2StreamPrefetcher :=
  let g := f.takeSlot reqCycle resp
  let e := g.streamTab owner
  g.setStream owner { e with
    pending := update e.pending pos true
    resp := update e.resp pos resp
    iss := update e.iss pos reqCycle
    tag := update e.tag pos tag
    serial := update e.serial pos f.profIssued }

def issue (reqCycle lineAddr owner : Nat) (spatial : Bool) (pf : Nat → Answer) (l : Lookup) :
    Except String (Bool × Lookup) :=
  let f := l.pf
  if f.inFlight reqCycle ≥ f.p.queue then .ok (false, l)
  else
    let tag := nextTag f.tagSeq
    let a := pf l.issues.length
    if a.record ∧ ¬ l.nrec < MAX_RECS then .error s!"{f.name}: more than 8 prefetch timing records in one lookup"
    else
      let fetched : Bool := a.resp > reqCycle + f.parentHitLat
      let g : L2StreamPrefetcher := { f with tagSeq := tag, profIssued := f.profIssued + 1 }
      let x : Issue :=
        { line := lineAddr, owner, page := (f.streamTab owner).page, dir := (f.streamTab owner).dir, spatial
          wasPending := f.isPending (lineAddr / 64) (lineAddr % 64)
          held := f.inFlight reqCycle, tag, serial := g.profIssued, fetched, record := a.record }
      .ok (true,
        { pf := if fetched then g.fetch owner (lineAddr % 64) reqCycle a.resp tag else g
          nrec := if a.record then l.nrec + 1 else l.nrec
          issues := l.issues ++ [x] })

/-- The furthest line the stream has asked for. -/
def setPfPos (i : Nat) (pos : Int) : L2StreamPrefetcher := f.setStream i { f.streamTab i with pfPos := pos }

/-- The `while` of the stream `s`; `n` prefetches are made. -/
def ahead (reqCycle page : Nat) (pos : Int) (s : Nat) (pf : Nat → Answer) :
    Nat → Nat → Int → Lookup → Except String Lookup
  | 0, _, _, l => .ok l
  | fuel + 1, n, next, l =>
    let e := l.pf.streamTab s
    if n < l.pf.p.perLookup ∧ next ≥ 0 ∧ next < 64 ∧ (next - pos) * e.dir ≤ l.pf.p.distance then
      if l.pf.isPending page next.toNat then
        ahead reqCycle page pos s pf fuel n (next + e.dir) { l with pf := l.pf.setPfPos s next }
      else do
        let (done, l) ← issue reqCycle (page * 64 + next.toNat) s false pf l
        if done then ahead reqCycle page pos s pf fuel (n + 1) (next + e.dir) { l with pf := l.pf.setPfPos s next }
        else .ok l
    else .ok l

/-- Where the stream goes on from. -/
def nextPos (e : Stream) (pos : Int) : Int :=
  if e.pfPos ≥ 0 ∧ (e.pfPos - pos) * e.dir > 0 then e.pfPos + e.dir else pos + e.dir

/-! ## An access -/

/-- The request's line was prefetched: found, or lost before its use. -/
def consume (req : Req) (resp : Nat) (l2Miss : Bool) : Nat × List Report × L2StreamPrefetcher :=
  let page := req.lineAddr / 64
  let pos := req.lineAddr % 64
  match f.findStream fun e => decide (e.page = some page) && e.pending pos with
  | none => (resp, [], f)
  | some i =>
    let e := f.streamTab i
    let e' := { e with pending := update e.pending pos false, tag := update e.tag pos 0 }
    if l2Miss then (resp, f.forget e pos, f.setStream i e')
    else
      (max resp (e.resp pos),
        [.prefetchConsumed (e.tag pos) req.srcId resp (e.resp pos) (e.iss pos) (e.serial pos) req.lineAddr],
        f.setStream i e')

/-- A stream of the page whose way the request goes. -/
def continues (page : Nat) (pos : Int) (e : Stream) : Bool :=
  decide (e.page = some page) && decide (e.dir ≠ 0 ∧ pos ≠ e.lastPos ∧ (pos > e.lastPos ↔ e.dir > 0))

/-- A stream of the page whose latest request was this line. -/
def repeats (page : Nat) (pos : Int) (e : Stream) : Bool :=
  decide (e.page = some page) && decide (e.dir ≠ 0 ∧ pos = e.lastPos)

/-- A training entry of the page. -/
def trains (page : Nat) (e : Stream) : Bool := decide (e.page = some page) && decide (e.dir = 0)

def hasDir (page : Nat) (d : Int) : Bool :=
  (List.range f.p.streams).any fun i => decide ((f.streamTab i).page = some page) && decide ((f.streamTab i).dir = d)

/-- The stream `s` and the training entry `tr` after detection. -/
def detect (page : Nat) (pos : Int) : Option Nat × Option Nat × L2StreamPrefetcher :=
  let s := f.findStream (continues page pos)
  let tr := f.findStream (trains page)
  match s, tr with
  | none, some t =>
    let e := f.streamTab t
    if pos ≠ e.lastPos then
      let d : Int := if pos > e.lastPos then 1 else -1
      if ¬ f.hasDir page d then (some t, none, f.setStream t { e with dir := d, pfPos := -1 })
      else (none, some t, f.setLastPos t pos)
    else (none, some t, f)
  | _, _ => (s, tr, f)

/-- The stream, the entry that holds the pair line, the lines dropped for it and the table
after step 2. -/
def train (page : Nat) (pos : Int) : Option Nat × Nat × List Report × L2StreamPrefetcher :=
  let same := f.findStream (repeats page pos)
  let (s, tr, g) := f.detect page pos
  match s.or (tr.or same) with
  | none =>
    let (v, dropped, g) := g.allocate page pos
    (s, v, dropped, g)
  | some home =>
    match tr with
    | some t =>
      let g := g.touch t
      (s, home, [], if s = none then g.setLastPos t pos else g)
    | none =>
      match same with
      | some m => (s, home, [], g.touch m)
      | none => (s, home, [], g)

/-- Step 3: the stream goes ahead of the request. -/
def follow (req : Req) (s : Option Nat) (pf : Nat → Answer) (f : L2StreamPrefetcher) : Except String Lookup :=
  match s with
  | none => .ok { pf := f }
  | some s =>
    let pos : Nat := req.lineAddr % 64
    let g := (f.touch s).setLastPos s pos
    ahead req.cycle (req.lineAddr / 64) pos s pf 64 0 (nextPos (g.streamTab s) pos) { pf := g }

/-- Step 4: a line the L2 fetched is completed with its pair line. -/
def complete (req : Req) (l2Miss : Bool) (home : Nat) (pf : Nat → Answer) (l : Lookup) : Except String Lookup :=
  let page := req.lineAddr / 64
  let pair := req.lineAddr % 64 ^^^ 1
  if l.pf.p.spatial ∧ l2Miss ∧ ¬ l.pf.isPending page pair then do
    let (_, l) ← issue req.cycle (page * 64 + pair) home true pf l
    .ok l
  else .ok l

def prefetch (req : Req) (l2Miss : Bool) (s : Option Nat) (home : Nat) (pf : Nat → Answer) (f : L2StreamPrefetcher) :
    Except String Lookup := do
  let l ← follow req s pf f
  complete req l2Miss home pf l

/-- What one access did. -/
structure Looked where
  req : Req
  l2Miss : Bool
  resp : Nat
  reports : List Report
  issues : List Issue

/-- `L2StreamPrefetcher::access`. -/
def access (req : Req) (parent : Parent) : Except String (Looked × L2StreamPrefetcher) :=
  if req.type ≠ .GETS ∧ req.type ≠ .GETX then
    .ok ({ req, l2Miss := false, resp := parent.demand, reports := [], issues := [] }, f)
  else do
    let f := { f with core := req.srcId }
    let l2Miss : Bool := parent.demand > req.cycle + f.parentHitLat
    let (resp, found, f) := f.consume req parent.demand l2Miss
    let f := if l2Miss then f.takeSlot req.cycle resp else f
    let (s, home, dropped, f) := f.train (req.lineAddr / 64) (req.lineAddr % 64 : Nat)
    let l ← prefetch req l2Miss s home parent.pf f
    .ok ({ req, l2Miss, resp, reports := found ++ dropped, issues := l.issues }, l.pf)

/-- A sequence of accesses. -/
def run (f : L2StreamPrefetcher) : List (Req × Parent) → Except String (List Looked × L2StreamPrefetcher)
  | [] => .ok ([], f)
  | (req, parent) :: rest => do
    let (x, f) ← f.access req parent
    let (xs, f) ← run f rest
    .ok (x :: xs, f)

end L2StreamPrefetcher

end Pimid.Cache.Streamer
