import Pimid.Garnet.UpDown
import Pimid.Garnet.Hops
import Pimid.Lib.Ancestors

/-!
# Counting link traffic

The statistics wrapper gives every link a packet crosses to a level of the tree. On a
`CUSTOM` tree a link belongs to the deeper router's level; an analytical message is
priced by a walk over the tiers, its in-die grid edges apart; a local bus is a link of
the level it is told. Whatever no level took is counted as unattributed, and what was
given out beyond the links crossed as overattributed.

Counters are natural numbers and the tables of the file are functions, with the value
of an absent entry. `nodes` is `nodeMap_` in the order it is iterated when the packet
is counted.
-/

namespace Pimid.Garnet

/-- `topology_`; the regular ones are those of `GarnetNetwork`. -/
inductive Fabric where
  | CUSTOM
  | BUS
  | CROSSBAR
  | regular (t : NoCTopology)
deriving DecidableEq, Repr

/-- A link that a node built as part of a link replaced. -/
structure LinkSeg where
  lv : Int
  bits : Nat
  die : Int
  plv : Int
  slot : Nat
deriving DecidableEq, Repr

/-- A walk over the tiers: routers and link nodes visited per rung, of eight. -/
structure TierWalk where
  perLevel : Nat → Nat
  perLevelLink : Nat → Nat
  links : Nat
  tsvDies : Nat
  stackLayout : Bool
  gridEdges : Nat
  gridLevel : Int

structure Wrapper where
  topology : Fabric
  cycleAccurate : Bool
  flitSizeBits : Nat
  dataMsgBits : Nat
  controlMsgBits : Nat
  file : TopoParsed
  epWidth : Nat → Nat := fun _ => 0
  routerUpBits : Nat → Nat := fun _ => 0
  routerStackDie : List (Nat × Int) := []
  epLevel : Nat → Int := fun _ => -1
  segOfRouter : Nat → List LinkSeg := fun _ => []
  segOfEp : Nat → List LinkSeg := fun _ => []
  segDieKnown : Bool := false
  msgTierWalk : Option (Nat → Nat → Option TierWalk) := none

structure GarnetStats where
  totalPackets : Nat := 0
  totalFlits : Nat := 0
  totalHops : Nat := 0
  totalRouterTraversals : Nat := 0
  dataPackets : Nat := 0
  controlPackets : Nat := 0
  bufferReads : Nat := 0
  bufferWrites : Nat := 0
  crossbarTraversals : Nat := 0
  arbiterEvents : Nat := 0
  linkTraversals : Nat := 0
  levelPacketTraversals : Nat → Nat := fun _ => 0
  levelFlitTraversals : Nat → Nat := fun _ => 0
  levelLinkFlitTraversals : Nat → Nat := fun _ => 0
  levelNiFlits : Nat → Nat := fun _ => 0
  levelTsvDieCrossings : Nat → Nat := fun _ => 0
  tsvDiesHist : Nat → Nat := fun _ => 0
  linkTraversalsUnattributed : Nat := 0
  linkTraversalsOverattributed : Nat := 0
  indieGridLinkFlitTraversals : Nat := 0
  stackLayout : Bool := false
  edgeBusy : Nat → Nat := fun _ => 0
  segBusy : Nat → Nat := fun _ => 0

/-- `n` more in slot `i`. -/
def bump (count : Nat → Nat) (i n : Nat) : Nat → Nat :=
  fun j => count j + if j = i then n else 0

/-! ## The tree of the file -/

namespace TopoParsed

/-- The lines the wrapper keeps. -/
def customEdges (f : TopoParsed) : List (Nat × Nat) :=
  f.intEntries.filter fun e => e.1 < f.numRouters && e.2 < f.numRouters

def customBfs (f : TopoParsed) : Bfs Nat :=
  Bfs.run f.customAdj f.numRouters (Bfs.init 0)

def customIsTree (f : TopoParsed) : Bool :=
  0 < f.numRouters && f.customBfs.visited == f.numRouters && f.customEdges.length == (f.numRouters - 1) * 2

def routerParent (f : TopoParsed) (r : Nat) : Option Nat :=
  f.customBfs.prev r

/-- Read of a tree's routers only, which all have one. -/
def routerDepth (f : TopoParsed) (r : Nat) : Nat :=
  (f.customBfs.dist r).getD 0

def levelOf (f : TopoParsed) (r : Nat) : Int :=
  ((Std.TreeMap.ofList f.routerLevel)[r]?).getD (-1)

/-- The routers a packet crosses on the tree. Every turn of the loops goes up from one of the ends, so the depths of both
are enough of them. -/
def pathRouters (f : TopoParsed) (srcEp dstEp : Nat) : Option (List Nat) :=
  if f.customIsTree then
    match f.epToRouter[srcEp]?, f.epToRouter[dstEp]? with
    | some a, some b =>
      if f.numRouters ≤ a ∨ f.numRouters ≤ b then none
      else Rooted.between f.routerParent f.routerDepth (f.routerDepth a + f.routerDepth b + 1) a b
    | _, _ => none
  else none

end TopoParsed

namespace Wrapper

/-! ## Flits and service -/

def portWidthOf (n : Wrapper) (ep : Nat) : Nat :=
  if 0 < n.epWidth ep then n.epWidth ep else if 0 < n.flitSizeBits then n.flitSizeBits else 128

def msgBits (n : Wrapper) (ctrl : Bool) : Nat :=
  if ctrl then n.controlMsgBits else n.dataMsgBits

def flitsFor (n : Wrapper) (srcEp : Nat) (ctrl : Bool) : Nat :=
  max 1 ((n.msgBits ctrl + n.portWidthOf srcEp - 1) / n.portWidthOf srcEp)

/-- Cycles a packet occupies a link of the width. -/
def serviceCycles (n : Wrapper) (bits : Nat) (ctrl : Bool) : Nat :=
  if bits = 0 then 0 else max 1 ((n.msgBits ctrl + bits - 1) / bits)

def linkServiceCycles (n : Wrapper) (child : Nat) (ctrl : Bool) : Nat :=
  n.serviceCycles (n.routerUpBits child) ctrl

def segServiceCycles (n : Wrapper) (bits : Nat) (ctrl : Bool) : Nat :=
  n.serviceCycles bits ctrl

/-! ## A packet on the tree -/

/-- The counters of one packet on its way. -/
structure PathAcc where
  stats : GarnetStats
  linkAttributed : Nat
  segCrossed : Nat
  pktDies : Nat

/-- A die boundary of the stack crossed on the link, `die` deep. -/
def PathAcc.crossDie (acc : PathAcc) (flits die : Nat) : PathAcc :=
  { acc with
    stats := { acc.stats with levelTsvDieCrossings := bump acc.stats.levelTsvDieCrossings 3 (die * flits) }
    pktDies := acc.pktDies + die }

/-- A link of level `lv` crossed. -/
def PathAcc.cross (acc : PathAcc) (flits : Nat) (lv : Int) : PathAcc :=
  { acc with
    stats := { acc.stats with levelLinkFlitTraversals := bump acc.stats.levelLinkFlitTraversals lv.toNat flits }
    linkAttributed := acc.linkAttributed + 1 }

def addSeg (n : Wrapper) (flits : Nat) (ctrl : Bool) (acc : PathAcc) (g : LinkSeg) : PathAcc :=
  let acc := { acc with segCrossed := acc.segCrossed + 1 }
  if g.lv < 0 ∨ 6 < g.lv then acc
  else
    let acc := acc.cross flits g.lv
    let acc :=
      if 0 < g.bits then
        { acc with stats := { acc.stats with
            segBusy := bump acc.stats.segBusy g.slot (n.segServiceCycles g.bits ctrl) } }
      else acc
    if g.lv = 3 ∧ 4 ≤ g.plv ∧ 0 < g.die then acc.crossDie flits g.die.toNat else acc

def addSegs (n : Wrapper) (flits : Nat) (ctrl : Bool) (segs : List LinkSeg) (acc : PathAcc) : PathAcc :=
  segs.foldl (n.addSeg flits ctrl) acc

def stackDieOf (n : Wrapper) (r : Nat) : Int :=
  ((Std.TreeMap.ofList n.routerStackDie)[r]?).getD (-1)

/-- The link between two neighbours on the path is the up-link of the deeper one. -/
def addEdge (n : Wrapper) (flits : Nat) (ctrl : Bool) (acc : PathAcc) (e : Nat × Nat) : PathAcc :=
  let child := if n.file.routerDepth e.2 < n.file.routerDepth e.1 then e.1 else e.2
  let other := if child = e.1 then e.2 else e.1
  let acc := n.addSegs flits ctrl (n.segOfRouter child) acc
  let lv := n.file.levelOf child
  if lv < 0 ∨ 6 < lv then acc
  else
    let acc := acc.cross flits lv
    let acc :=
      if 0 < n.routerUpBits child then
        { acc with stats := { acc.stats with
            edgeBusy := bump acc.stats.edgeBusy child (n.linkServiceCycles child ctrl) } }
      else acc
    if lv = 3 ∧ 4 ≤ n.file.levelOf other ∧ 0 < n.stackDieOf child then acc.crossDie flits (n.stackDieOf child).toNat
    else acc

def countLevel (n : Wrapper) (s : GarnetStats) (r : Nat) : GarnetStats :=
  let lv := n.file.levelOf r
  if 0 ≤ lv ∧ lv ≤ 6 then { s with levelPacketTraversals := bump s.levelPacketTraversals lv.toNat 1 } else s

/-- Flits through the network interface of an end. -/
def countNi (n : Wrapper) (flits : Nat) (s : GarnetStats) (ep : Nat) : GarnetStats :=
  let el := n.epLevel ep
  if 0 ≤ el ∧ el ≤ 6 then { s with levelNiFlits := bump s.levelNiFlits el.toNat flits } else s

/-- The packet's way over the routers of `path`. -/
def countPath (n : Wrapper) (src dst flits : Nat) (ctrl : Bool) (path : List Nat) (s : GarnetStats) : PathAcc :=
  let acc : PathAcc := ⟨path.foldl n.countLevel s, 0, 0, 0⟩
  let acc := n.addSegs flits ctrl (n.segOfEp src) acc
  let acc := n.addSegs flits ctrl (n.segOfEp dst) acc
  let acc := { acc with stats := [src, dst].foldl (n.countNi flits) acc.stats }
  let acc := (path.zip path.tail).foldl (n.addEdge flits ctrl) acc
  if n.routerStackDie ≠ [] ∨ n.segDieKnown then
    { acc with stats := { acc.stats with
        stackLayout := true
        tsvDiesHist := bump acc.stats.tsvDiesHist (min acc.pktDies 64) 1 } }
  else acc

/-! ## Walks over the tiers -/

/-- The PE a node is bound for: its numeric name. -/
def numericNameOf (nodes : List (String × Nat)) (node : Nat) : Option Nat :=
  nodes.findSome? fun kv =>
    if kv.2 ≠ node ∨ kv.1.isEmpty ∨ 9 < kv.1.length then none
    else if kv.1.all Char.isDigit then kv.1.toNat? else none

def visits (w : TierWalk) (l : Nat) : Nat :=
  w.perLevel l + if l < 7 then w.perLevelLink l else 0

/-- The highest rung visited. -/
def top (w : TierWalk) : Option Nat :=
  ((List.range 8).filter fun l => visits w l ≠ 0).getLast?

/-- Routers of tier `l`, visited by `mult` packets. -/
def countVisits (w : TierWalk) (flits mult : Nat) (s : GarnetStats) (l : Nat) : GarnetStats :=
  if w.perLevel l = 0 then s
  else { s with
    levelPacketTraversals := bump s.levelPacketTraversals l (w.perLevel l * mult)
    levelFlitTraversals := bump s.levelFlitTraversals l (w.perLevel l * flits * mult) }

structure WalkAcc where
  stats : GarnetStats
  attributed : Nat
  grid : Nat

/-- `e` up-links of tier `l`, `f` flits in all on each. -/
def WalkAcc.credit (acc : WalkAcc) (f l e : Nat) : WalkAcc :=
  if e = 0 then acc
  else
    { acc with
      stats := { acc.stats with levelLinkFlitTraversals := bump acc.stats.levelLinkFlitTraversals l (e * f) }
      attributed := acc.attributed + e }

/-- Every node of tier `l` but the top one leaves by its up-link; the grid's own edges are kept apart. -/
def attributeLevel (w : TierWalk) (f : Nat) (acc : WalkAcc) (l : Nat) : WalkAcc :=
  if visits w l = 0 then acc
  else
    let e := visits w l - if top w = some l then 1 else 0
    if w.gridEdges ≠ 0 ∧ (l : Int) = w.gridLevel then
      let grid := min e w.gridEdges
      { acc with grid := grid }.credit f l (e - grid)
    else acc.credit f l e

/-- The links of a walk, each to its tier; how many were given out. -/
def attributeWalk (w : TierWalk) (f : Nat) (s : GarnetStats) : GarnetStats × Nat :=
  let acc := (List.range 7).foldl (attributeLevel w f) ⟨s, 0, 0⟩
  if acc.grid = 0 then (acc.stats, acc.attributed)
  else
    ({ acc.stats with indieGridLinkFlitTraversals := acc.stats.indieGridLinkFlitTraversals + acc.grid * f },
      acc.attributed + acc.grid)

def stackWalk (w : TierWalk) (flits mult : Nat) (s : GarnetStats) : GarnetStats :=
  if w.stackLayout then
    { s with
      stackLayout := true
      levelTsvDieCrossings :=
        if w.tsvDies = 0 then s.levelTsvDieCrossings else bump s.levelTsvDieCrossings 3 (w.tsvDies * flits * mult)
      tsvDiesHist := bump s.tsvDiesHist (min w.tsvDies 64) mult }
  else s

def routersOf (w : TierWalk) : Nat :=
  ((List.range 7).map w.perLevel).sum

/-- What no level took, or the reverse. -/
def judge (links attributed f : Nat) (s : GarnetStats) : GarnetStats :=
  if attributed ≤ links then
    { s with linkTraversalsUnattributed := s.linkTraversalsUnattributed + (links - attributed) * f }
  else { s with linkTraversalsOverattributed := s.linkTraversalsOverattributed + (attributed - links) * f }

/-- An analytical message priced at the tiers it crosses: routers, links and links attributed. -/
def msgWalk (n : Wrapper) (nodes : List (String × Nat)) (src dst flits mult : Nat) (s : GarnetStats) :
    Option (GarnetStats × Nat × Nat × Nat) := do
  let walk ← n.msgTierWalk
  let sp ← numericNameOf nodes src
  let dp ← numericNameOf nodes dst
  let w ← walk sp dp
  let s := (List.range 7).foldl (countVisits w flits mult) s
  let r := attributeWalk w (flits * mult) s
  some (stackWalk w flits mult r.1, routersOf w, w.links, r.2)

/-! ## The counting calls -/

/-- A network with one arbiter or one crossbar. -/
def oneRouter (n : Wrapper) : Bool :=
  n.topology == .BUS || n.topology == .CROSSBAR

/-- The counters every packet has. -/
def countRouters (routers flits packets : Nat) (s : GarnetStats) : GarnetStats :=
  { s with
    totalFlits := s.totalFlits + flits
    totalRouterTraversals := s.totalRouterTraversals + routers * flits
    bufferReads := s.bufferReads + routers * flits
    bufferWrites := s.bufferWrites + routers * flits
    crossbarTraversals := s.crossbarTraversals + routers * flits
    arbiterEvents := s.arbiterEvents + routers * packets }

def countKind (ctrl : Bool) (s : GarnetStats) : GarnetStats :=
  if ctrl then { s with controlPackets := s.controlPackets + 1 } else { s with dataPackets := s.dataPackets + 1 }

/-- A packet counted: its routers, and the links of the tree it crossed. -/
def finishPacket (ctrl : Bool) (hops flits routers treeLinks linkAttributed : Nat) (s : GarnetStats) : GarnetStats :=
  let s := countKind ctrl (countRouters routers flits 1 { s with totalHops := s.totalHops + hops })
  judge treeLinks linkAttributed flits { s with linkTraversals := s.linkTraversals + treeLinks * flits }

/-- The packets of a message counted at once. -/
def finishMessage (flits packets routers links attributed : Nat) (s : GarnetStats) : GarnetStats :=
  let f := flits * packets
  let s := countRouters routers f packets { s with dataPackets := s.dataPackets + packets }
  judge links attributed f { s with linkTraversals := s.linkTraversals + links * f }

def countPacket (n : Wrapper) (nodes : List (String × Nat)) (src dst hops : Nat) (ctrl : Bool) (s : GarnetStats) :
    GarnetStats :=
  let flits := n.flitsFor src ctrl
  match if n.topology = .CUSTOM then n.file.pathRouters src dst else none with
  | some path =>
    let acc := n.countPath src dst flits ctrl path s
    finishPacket ctrl hops flits path.length (hops + acc.segCrossed) acc.linkAttributed acc.stats
  | none =>
    match if n.cycleAccurate then none else n.msgWalk nodes src dst flits 1 s with
    | some (s, routers, walkLinks, linkAttributed) => finishPacket ctrl hops flits routers walkLinks linkAttributed s
    | none => finishPacket ctrl hops flits (if n.oneRouter then 1 else hops + 1) hops 0 s

def countMessagePackets (n : Wrapper) (nodes : List (String × Nat)) (src dst hops packets : Nat) (s : GarnetStats) :
    GarnetStats :=
  if packets = 0 ∨ src = dst then s
  else
    let flits := n.flitsFor src false
    match n.msgWalk nodes src dst flits packets s with
    | some (s, routers, links, attributed) => finishMessage flits packets routers links attributed s
    | none => finishMessage flits packets (if n.oneRouter then 1 else hops + 1) hops 0 s

def recordLocalBus (n : Wrapper) (srcEp : Nat) (level : Int) (ctrl : Bool) (s : GarnetStats) : GarnetStats :=
  let flits := n.flitsFor srcEp ctrl
  let s := { s with linkTraversals := s.linkTraversals + flits }
  if 0 ≤ level ∧ level < 7 then
    { s with levelLinkFlitTraversals := bump s.levelLinkFlitTraversals level.toNat flits }
  else s

def recordTierWalk (n : Wrapper) (w : TierWalk) (ctrl : Bool) (s : GarnetStats) : GarnetStats :=
  let fb := if 0 < n.flitSizeBits then n.flitSizeBits else 128
  let flits := max 1 ((n.msgBits ctrl + fb - 1) / fb)
  let s := (List.range 7).foldl (countVisits w flits 1) s
  let linkNodes := ((List.range 7).map w.perLevelLink).sum
  let s := countKind ctrl { s with
    totalPackets := s.totalPackets + 1
    totalHops := s.totalHops + (w.links - min linkNodes w.links)
    totalFlits := s.totalFlits + flits
    totalRouterTraversals := s.totalRouterTraversals + routersOf w * flits
    linkTraversals := s.linkTraversals + w.links * flits }
  let r := attributeWalk w flits s
  stackWalk w flits 1 (judge w.links r.2 flits r.1)

/-- Everything counted so far is dropped. -/
def markRoiBegin (s : GarnetStats) : GarnetStats :=
  { stackLayout := s.stackLayout }

/-- The hop count of two endpoints of a `CUSTOM` network. -/
def getHopCount (n : Wrapper) (src dst : Nat) : Nat :=
  if src = dst then 0 else n.file.getCustomHops src dst

inductive Record where
  | countPacket (nodes : List (String × Nat)) (src dst hops : Nat) (ctrl : Bool)
  | countMessagePackets (nodes : List (String × Nat)) (src dst hops packets : Nat)
  | recordTierWalk (w : TierWalk) (ctrl : Bool)
  | recordLocalBus (srcEp : Nat) (level : Int) (ctrl : Bool)
  | markRoiBegin

def record (n : Wrapper) (s : GarnetStats) : Record → GarnetStats
  | .countPacket nodes src dst hops ctrl => n.countPacket nodes src dst hops ctrl s
  | .countMessagePackets nodes src dst hops packets => n.countMessagePackets nodes src dst hops packets s
  | .recordTierWalk w ctrl => n.recordTierWalk w ctrl s
  | .recordLocalBus srcEp level ctrl => n.recordLocalBus srcEp level ctrl s
  | .markRoiBegin => Wrapper.markRoiBegin s

end Wrapper

end Pimid.Garnet
