import Pimid.Lib.Walks
import Mathlib.Algebra.GroupWithZero.Nat
import Mathlib.Data.List.Basic

/-!
# Network topologies

What `TopologyBuilders` makes of each topology: the routers, the endpoint attached to
each router, and the internal links in the order they are added, each with the name
of the port it leaves from and of the one it enters. `createLinks` numbers a router's
outports in that order, the external links first.
-/

namespace Pimid.Garnet

inductive PortDirection where
  | Local
  | North
  | South
  | East
  | West
  | Up
  | Down
  | Left
  | Right
  | Port (i : Nat)
deriving DecidableEq, Repr

/-- One direction of a router-to-router link. -/
structure IntLink where
  src : Nat
  dst : Nat
  srcOutport : PortDirection
  dstInport : PortDirection
deriving DecidableEq, Repr

/-- `extLinks` are the endpoints with their routers. -/
structure Topology where
  numRouters : Nat
  extLinks : List (Nat × Nat)
  intLinks : List IntLink
deriving Repr

/-- The router the endpoint is attached to. -/
def Topology.routerOf (t : Topology) (endpoint : Nat) : Option Nat :=
  t.extLinks.lookup endpoint

/-! ## Ports -/

inductive Outport where
  | ext (endpoint : Nat)
  | int (link : IntLink)
deriving DecidableEq, Repr

def Outport.direction : Outport → PortDirection
  | ext _ => .Local
  | int link => link.srcOutport

/-- The router's outports in the order `createLinks` adds them. -/
def Topology.outports (t : Topology) (router : Nat) : List Outport :=
  (t.extLinks.filter (·.2 == router)).map (.ext ·.1) ++ (t.intLinks.filter (·.src == router)).map .int

/-- `m_outports_dirn2idx`: a later port of the same name replaces an earlier one. -/
def outportForDirection (ports : List Outport) (dirn : PortDirection) : Option Nat :=
  (ports.zipIdx.filter (·.1.direction == dirn)).getLast?.map (·.2)

/-- The link a packet leaves the router by in the direction. -/
def Topology.linkFor (t : Topology) (router : Nat) (dirn : PortDirection) : Option IntLink := do
  let i ← outportForDirection (t.outports router) dirn
  match (t.outports router)[i]? with
  | some (.int link) => some link
  | _ => none

theorem mem_outports {t : Topology} {router : Nat} {p : Outport} :
    p ∈ t.outports router ↔ (∃ e, (e, router) ∈ t.extLinks ∧ p = .ext e) ∨ ∃ l ∈ t.intLinks, l.src = router ∧ p = .int l := by
  simp only [Topology.outports, List.mem_append, List.mem_map, List.mem_filter, beq_iff_eq]
  constructor
  · rintro (⟨⟨e, r⟩, ⟨he, rfl⟩, rfl⟩ | ⟨l, ⟨hl, hs⟩, rfl⟩)
    · exact .inl ⟨e, he, rfl⟩
    · exact .inr ⟨l, hl, hs, rfl⟩
  · rintro (⟨e, he, rfl⟩ | ⟨l, hl, hs, rfl⟩)
    · exact .inl ⟨(e, router), ⟨he, rfl⟩, rfl⟩
    · exact .inr ⟨l, ⟨hl, hs⟩, rfl⟩

theorem outportForDirection_of_mem {ports : List Outport} {p : Outport} (hp : p ∈ ports) :
    ∃ i q, outportForDirection ports p.direction = some i ∧ ports[i]? = some q ∧ q.direction = p.direction := by
  obtain ⟨i, hi⟩ := List.mem_iff_getElem?.mp hp
  have hmem : (p, i) ∈ ports.zipIdx.filter (·.1.direction == p.direction) :=
    List.mem_filter.mpr ⟨List.mem_zipIdx_iff_getElem?.mpr hi, beq_self_eq_true _⟩
  obtain ⟨⟨q, j⟩, hlast⟩ := List.getLast?_isSome.mpr (List.ne_nil_of_mem hmem) |> Option.isSome_iff_exists.mp
  obtain ⟨hq, hdir⟩ := List.mem_filter.mp (List.mem_of_getLast? hlast)
  refine ⟨j, q, by rw [outportForDirection, hlast]; rfl, List.mem_zipIdx_iff_getElem?.mp hq, ?_⟩
  exact beq_iff_eq.mp hdir

theorem Topology.linkFor_eq {t : Topology} {l : IntLink} (hl : l ∈ t.intLinks) (hlocal : l.srcOutport ≠ .Local)
    (huniq : ∀ l' ∈ t.intLinks, l'.src = l.src → l'.srcOutport = l.srcOutport → l' = l) :
    t.linkFor l.src l.srcOutport = some l := by
  have hp : Outport.int l ∈ t.outports l.src := mem_outports.mpr (.inr ⟨l, hl, rfl, rfl⟩)
  obtain ⟨i, q, hi, hq, hdir⟩ := outportForDirection_of_mem hp
  unfold linkFor
  rw [show outportForDirection (t.outports l.src) l.srcOutport = some i from hi]
  show (match (t.outports l.src)[i]? with | some (.int link) => some link | _ => none) = some l
  rw [hq]
  rcases mem_outports.mp (List.mem_of_getElem? hq) with ⟨e, -, rfl⟩ | ⟨l', hl', hsrc, rfl⟩
  · exact absurd hdir.symm hlocal
  · exact congrArg some (huniq l' hl' hsrc hdir)

/-! ## Builders -/

/-- Endpoints go to the routers in turn. -/
def roundRobin (numEndpoints numRouters : Nat) : List (Nat × Nat) :=
  (List.range numEndpoints).map fun i => (i, i % numRouters)

/-- The links `buildMeshImpl` adds at the router of row `r` and column `c`. -/
def meshLinksAt (rows cols r c : Nat) : List IntLink :=
  let src := r * cols + c
  (if c + 1 < cols then
    let dst := r * cols + (c + 1)
    [⟨src, dst, .East, .West⟩, ⟨dst, src, .West, .East⟩]
  else []) ++
  (if r + 1 < rows then
    let dst := (r + 1) * cols + c
    [⟨src, dst, .North, .South⟩, ⟨dst, src, .South, .North⟩]
  else [])

def meshLinks (rows cols : Nat) : List IntLink :=
  (List.range rows).flatMap fun r => (List.range cols).flatMap fun c => meshLinksAt rows cols r c

def buildMesh (rows cols numEndpoints : Nat) : Topology where
  numRouters := rows * cols
  extLinks := roundRobin numEndpoints (rows * cols)
  intLinks := meshLinks rows cols

/-- The wrap links of a row. -/
def wrapRow (cols r : Nat) : List IntLink :=
  let left := r * cols
  let right := r * cols + (cols - 1)
  [⟨right, left, .East, .West⟩, ⟨left, right, .West, .East⟩]

/-- The wrap links of a column. -/
def wrapCol (rows cols c : Nat) : List IntLink :=
  let top := c
  let bottom := (rows - 1) * cols + c
  [⟨bottom, top, .North, .South⟩, ⟨top, bottom, .South, .North⟩]

def buildTorus (rows cols numEndpoints : Nat) : Topology where
  numRouters := rows * cols
  extLinks := roundRobin numEndpoints (rows * cols)
  intLinks := meshLinks rows cols ++ (List.range rows).flatMap (wrapRow cols) ++
    (List.range cols).flatMap (wrapCol rows cols)

/-- Clockwise, and on a bidirectional ring back. -/
def ringLinksAt (ringSize : Nat) (unidirectional : Bool) (i : Nat) : List IntLink :=
  let next := (i + 1) % ringSize
  ⟨i, next, .East, .West⟩ :: if unidirectional then [] else [⟨next, i, .West, .East⟩]

def buildRing (ringSize numEndpoints : Nat) (unidirectional : Bool) : Topology where
  numRouters := ringSize
  extLinks := roundRobin numEndpoints ringSize
  intLinks := (List.range ringSize).flatMap (ringLinksAt ringSize unidirectional)

/-- `while (cap < n) { cap *= arity; levels++; }` from `cap = arity`, `levels = 1`; `n` rounds are enough for an
arity above 1. -/
def levelsLoop (arity n : Nat) : Nat → Nat → Nat → Nat
  | 0, _, levels => levels
  | fuel + 1, cap, levels => if cap < n then levelsLoop arity n fuel (cap * arity) (levels + 1) else levels

def treeLevels (arity n : Nat) : Nat :=
  levelsLoop arity n n arity 1

/-- Routers of each level, leaves first. -/
def routersPerLevel (arity : Nat) : Nat → Nat → List Nat
  | 0, _ => []
  | levels + 1, n =>
    let levelRouters := (n + arity - 1) / arity
    levelRouters :: routersPerLevel arity levels levelRouters

/-- Up and down between each level and the next. -/
def fatTreeLinks (arity : Nat) : Nat → List Nat → List IntLink
  | baseOffset, n :: m :: rest =>
    let nextOffset := baseOffset + n
    ((List.range n).flatMap fun r =>
      let parent := nextOffset + r / arity
      let child := baseOffset + r
      [⟨child, parent, .Up, .Down⟩, ⟨parent, child, .Down, .Up⟩]) ++ fatTreeLinks arity nextOffset (m :: rest)
  | _, _ => []

def buildFatTree (numEndpoints arity : Nat) : Topology :=
  let perLevel := routersPerLevel arity (treeLevels arity numEndpoints) numEndpoints
  { numRouters := perLevel.sum
    extLinks := (List.range numEndpoints).map fun i => (i, i / arity)
    intLinks := fatTreeLinks arity 0 perLevel }

/-- Router `i`'s links to its children. -/
def hTreeLinksAt (totalRouters i : Nat) : List IntLink :=
  let left := 2 * i + 1
  let right := 2 * i + 2
  (if left < totalRouters then [⟨i, left, .Left, .Up⟩, ⟨left, i, .Up, .Left⟩] else []) ++
    if right < totalRouters then [⟨i, right, .Right, .Up⟩, ⟨right, i, .Up, .Right⟩] else []

def buildHTree (numEndpoints : Nat) : Topology :=
  let levels := treeLevels 2 numEndpoints
  let totalRouters := 2 ^ levels - 1
  let leafStart := 2 ^ (levels - 1) - 1
  let numLeaves := totalRouters - leafStart
  { numRouters := totalRouters
    extLinks := (List.range numEndpoints).map fun i => (i, leafStart + i % numLeaves)
    intLinks := (List.range totalRouters).flatMap (hTreeLinksAt totalRouters) }

/-! ## Directions -/

inductive RoutingAlgorithm where
  | XY
  | DOR
  | SHORTEST
deriving DecidableEq, Repr

/-- The direction a packet takes at router `myId`. `none` is the source's panic: the packet is there. -/
def directionFor (alg : RoutingAlgorithm) (myId destId numRows numCols numRouters : Int) (ringCwOnly : Bool) :
    Option PortDirection :=
  match alg with
  | .XY =>
    let myX := myId.tmod numCols
    let myY := myId.tdiv numCols
    let destX := destId.tmod numCols
    let destY := destId.tdiv numCols
    if (destX - myX).natAbs > 0 then some (if myX ≤ destX then .East else .West)
    else if (destY - myY).natAbs > 0 then some (if myY ≤ destY then .North else .South)
    else none
  | .DOR =>
    let myX := myId.tmod numCols
    let myY := myId.tdiv numCols
    let destX := destId.tmod numCols
    let destY := destId.tdiv numCols
    let dx := destX - myX
    let dy := destY - myY
    let absDx := if 0 ≤ dx then dx else -dx
    let absDy := if 0 ≤ dy then dy else -dy
    if 0 < absDx then
      if absDx ≤ numCols - absDx then some (if 0 < dx then .East else .West)
      else some (if 0 < dx then .West else .East)
    else if 0 < absDy then
      if absDy ≤ numRows - absDy then some (if 0 < dy then .North else .South)
      else some (if 0 < dy then .South else .North)
    else none
  | .SHORTEST =>
    if ringCwOnly then some .East
    else
      let cwDist := ((destId - myId).tmod numRouters + numRouters).tmod numRouters
      let ccwDist := ((myId - destId).tmod numRouters + numRouters).tmod numRouters
      some (if cwDist ≤ ccwDist then .East else .West)

/-- `m_ring_cw_only`: no outport anywhere is named West. -/
def Topology.ringCwOnly (t : Topology) : Bool :=
  t.intLinks.all fun l => l.srcOutport != .West

end Pimid.Garnet
