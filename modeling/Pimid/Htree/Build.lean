import Mathlib.Data.Finset.Basic
import Mathlib.Data.Finset.Card
import Mathlib.Data.Finset.Range
import Std.Data.TreeMap.Lemmas

/-!
# The sparse placement tree

The DRAM hierarchy is a tree with fixed fan-outs: system, channel, rank, chip, bank
group, bank, subarray. `buildSparseHTree` materialises only the branches that lead to
a processing element, hangs one abstract endpoint on every router with empty children,
and `endpointForUnit` walks the same keys to find the endpoint a unit routes to.

The counts are exact naturals; `none` stands for the source's `-1`.
-/

namespace Pimid.Htree

open Std (TreeMap)

/-! ## The hierarchy -/

/-- The configured fan-outs: channels, subarrays per bank, banks per bank group, bank
groups per chip, chips per rank, ranks per channel. -/
structure Dims where
  N : Nat
  SA : Nat
  BpBG : Nat
  BGpC : Nat
  CpR : Nat
  RpCh : Nat

def orOne (x : Nat) : Nat := if x > 0 then x else 1

/-- Children per parent for the step from level `lvl` to `lvl + 1`. -/
def fan (d : Dims) : Nat → Nat
  | 0 => orOne d.SA
  | 1 => orOne d.BpBG
  | 2 => orOne d.BGpC
  | 3 => orOne d.CpR
  | 4 => orOne d.RpCh
  | _ => 1

/-- The coordinates of a unit, leaf first; the last one is what is left over. -/
def fineToCoarse (d : Dims) : Nat → Nat → Nat → List Nat
  | 0, _, id => [id]
  | n + 1, lvl, id => id % fan d lvl :: fineToCoarse d n (lvl + 1) (id / fan d lvl)

/-- The coordinates of a unit at level `peLevel`, channel first. -/
def decompose (d : Dims) (unit peLevel : Nat) : List Nat :=
  (fineToCoarse d (5 - peLevel) peLevel unit).reverse

/-- Children per parent at router level `L`. -/
def childFanout (d : Dims) : Nat → Nat
  | 6 => orOne d.N
  | 5 => orOne d.RpCh
  | 4 => orOne d.CpR
  | 3 => orOne d.BGpC
  | 2 => orOne d.BpBG
  | 1 => orOne d.SA
  | _ => 1

/-- Organisations at the placement level beneath one node at level `L`. -/
def orgsBelow (d : Dims) (L peLevel : Nat) : Nat :=
  (List.range' (peLevel + 1) (L - peLevel)).foldl (fun n l => n * childFanout d l) 1

/-- The root's real fan-out: one where the channels are folded into the chip slot. -/
def rootFanout (d : Dims) (peLevel : Nat) : Nat :=
  let perChannel := orgsBelow d 5 peLevel
  let declared := childFanout d 6
  if perChannel ≤ 0 then 1
  else if declared > 1 ∧ d.CpR = declared ∧ peLevel < 5 then 1
  else orOne declared

/-- The router level that carries the channel dimension. -/
def channelBearingLevel (d : Dims) : Nat := if d.N > 1 ∧ d.CpR = d.N then 3 else 5

/-- The link layer of the link above a router at `childLevel`. -/
def layerForLevel (childLevel chanLevel : Nat) : Nat :=
  if chanLevel ≤ childLevel then 3
  else if chanLevel - childLevel ≥ 3 then 0
  else 3 - (chanLevel - childLevel)

/-! ## The tree -/

structure Link where
  a : Nat
  b : Nat
  w : Nat
  lat : Nat
  li : Nat

inductive FabricKind where
  | none
  | mesh2D
  | ring
  | crossbar
  deriving DecidableEq

structure InDieFabric where
  kind : FabricKind
  gridW : Nat
  gridH : Nat

structure SparseHTree where
  numRouters : Nat := 1
  numPEs : Nat := 0
  numAbstract : Nat := 0
  intLinks : List Link := []
  extLinks : List Link := []
  peLevel : Nat := 1
  dims : Dims
  topLevel : Nat := 6
  fullLeaves : Bool := false
  unitDiv : Nat := 1
  /-- Coordinate key to router. -/
  routerOf : TreeMap String Nat := ∅
  /-- Router to the abstract endpoint it carries. -/
  abstractOf : TreeMap Nat Nat := ∅
  /-- Leaf router to its processing element. -/
  peOfLeaf : TreeMap Nat Nat := ∅
  /-- Abstract endpoint to the organisations behind it. -/
  coverageOf : TreeMap Nat Nat := ∅
  /-- Abstract endpoint to the level those hang below. -/
  frontsLevel : TreeMap Nat Nat := ∅
  branchAtLevel : Nat → Nat := fun _ => 0
  endpointsAtLevel : Nat → Nat := fun _ => 0
  levelOfRouter : List (Option Nat) := []
  fabricKind : FabricKind := .none
  gridW : Nat := 0
  gridH : Nat := 0
  gridLinks : List Link := []
  gridX : List (Option Nat) := []
  gridY : List (Option Nat) := []
  gridDie : List (Option Nat) := []
  /-- Chip router of a gridded die to the grid's exit. -/
  dieExitOf : TreeMap Nat Nat := ∅
  gridRouters : Nat := 0

namespace SparseHTree

def totalEndpoints (t : SparseHTree) : Nat := t.numPEs + t.numAbstract

/-- The organisations the tree accounts for. -/
def coveredOrgs (t : SparseHTree) : Nat :=
  t.coverageOf.toList.foldl (fun n kv => n + kv.2) (if t.fullLeaves then 0 else t.peOfLeaf.size)

/-- One more component of a coordinate key. -/
def keyStep (key : String) (c : Nat) : String := key ++ ("/" ++ toString c)

/-- What a router answers as the end of a walk: its processing element, else its
abstract endpoint. -/
def endpointOf (t : SparseHTree) (r : Nat) : Option Nat := t.peOfLeaf[r]? <|> t.abstractOf[r]?

/-- The node of a gridded die: the tiers its grid replaced have no routers of their own. -/
def dieLookup (t : SparseHTree) (parent : Nat) (full : String) : Option Nat :=
  if t.dieExitOf.contains parent then
    match t.routerOf[full]? with
    | some g => t.endpointOf g
    | none => none
  else none

def walkKeys (t : SparseHTree) : Nat → String → List Nat → Option Nat
  | parent, _, [] => t.endpointOf parent
  | parent, key, c :: rest =>
    let key := keyStep key c
    match t.routerOf[key]? with
    | some rid => walkKeys t rid key rest
    -- the walk leaves the built tree here
    | none => t.dieLookup parent (rest.foldl keyStep key) <|> t.abstractOf[parent]?

/-- The endpoint a target unit routes to. -/
def endpointForUnit (t : SparseHTree) (unit : Nat) : Option Nat :=
  let unit := if t.unitDiv > 1 then unit / t.unitDiv else unit
  t.walkKeys 0 "" ((decompose t.dims unit t.peLevel).drop (6 - t.topLevel))

end SparseHTree

/-! ## The builder's state -/

/-- What is built, from which placement, and how the links are priced. -/
structure Params where
  d : Dims
  peLevel : Nat
  layerW : Nat → Nat
  layerLat : Nat → Nat
  fab : Option InDieFabric
  topLevel : Nat
  fullLeaves : Bool

namespace Params

def chanLevel (P : Params) : Nat := channelBearingLevel P.d

/-- The root's tier, as the builder clamps it. -/
def top (P : Params) : Nat := if P.topLevel < 1 ∨ P.topLevel > 6 then 6 else P.topLevel

/-- With an in-die fabric the tree stops at the chip. -/
def gridded (P : Params) : Bool :=
  match P.fab with
  | some f => f.kind ≠ .none ∧ P.peLevel ≤ 2
  | none => false

def link (P : Params) (a b li : Nat) : Link := ⟨a, b, P.layerW li, P.layerLat li, li⟩

/-- A router's fan-out at level `level`. -/
def fanout (P : Params) (level : Nat) : Nat :=
  if level = 6 then rootFanout P.d P.peLevel else childFanout P.d level

def leafLevel (P : Params) : Nat := if P.peLevel < 5 then P.peLevel else 5

end Params

/-- A router's level and its live children. -/
structure Node where
  level : Nat
  live : Finset Nat

structure Build where
  t : SparseHTree
  nextRouter : Nat
  info : TreeMap Nat Node
  /-- Chip router to the elements placed on its die. -/
  peOfDie : TreeMap Nat (List (Nat × List Nat))

namespace Build

def node (b : Build) (r : Nat) : Node := b.info.getD r ⟨0, ∅⟩

def level (b : Build) (r : Nat) : Nat := (b.node r).level

/-- `c` is a live child of `parent` from now on. -/
def enliven (b : Build) (parent c : Nat) : Build :=
  { b with info := b.info.insert parent ⟨(b.node parent).level, insert c (b.node parent).live⟩ }

/-- The next router, under `key`, linked below `parent`. -/
def newRouter (b : Build) (P : Params) (parent : Nat) (key : String) (childLevel : Nat) : Build :=
  let rid := b.nextRouter
  { b with
    t := { b.t with
      routerOf := b.t.routerOf.insert key rid
      intLinks := b.t.intLinks ++ [P.link parent rid (layerForLevel childLevel P.chanLevel)] }
    nextRouter := rid + 1
    info := b.info.insert rid ⟨childLevel, ∅⟩ }

/-- One component down from `parent`, whose key becomes `key`. -/
def descend (b : Build) (P : Params) (parent : Nat) (key : String) (c : Nat) : Build × Nat :=
  let b := b.enliven parent c
  match b.t.routerOf[key]? with
  | some rid => (b, rid)
  | none => (b.newRouter P parent key (b.level parent - 1), b.nextRouter)

/-! ## Processing elements -/

/-- The die below `chip` takes element `p`. -/
def toDie (b : Build) (chip p : Nat) (path : List Nat) : Build :=
  { b with peOfDie := b.peOfDie.insert chip (b.peOfDie.getD chip [] ++ [(p, path)]) }

/-- Down the coordinates of element `p`, and where the walk ends. -/
def pePath (P : Params) (p : Nat) (path : List Nat) : Build → Nat → String → List Nat → Build × Nat
  | b, parent, _, [] => (b, parent)
  | b, parent, key, c :: rest =>
    if P.gridded ∧ b.level parent ≤ 3 then (b.toDie parent p path, parent)
    else
      let key := SparseHTree.keyStep key c
      let s := b.descend P parent key c
      pePath P p path s.1 s.2 key rest

/-- Element `p` sits at router `r`. -/
def attachPE (b : Build) (P : Params) (p r : Nat) : Build :=
  { b with t := { b.t with
      peOfLeaf := if P.fullLeaves then b.t.peOfLeaf else b.t.peOfLeaf.insert r p
      extLinks := b.t.extLinks ++ [P.link p r 0] } }

def placePE (P : Params) (b : Build) (home p : Nat) : Build :=
  let path := decompose P.d home P.peLevel
  let Lp := path.length - if P.fullLeaves then 1 else 0
  let s := pePath P p path b 0 "" ((path.take Lp).drop (6 - P.top))
  -- a gridded die places its elements on the grid
  if P.gridded ∧ s.1.level s.2 ≤ 3 then s.1 else s.1.attachPE P p s.2

def placePEs (P : Params) (b : Build) (peHomes : List Nat) : Build :=
  peHomes.zipIdx.foldl (fun b hp => placePE P b hp.1 hp.2) b

/-! ## Every unit its own leaf -/

def leafPath (P : Params) : Build → Nat → String → List Nat → Build
  | b, _, _, [] => b
  | b, parent, key, c :: rest =>
    let key := SparseHTree.keyStep key c
    let s := b.descend P parent key c
    leafPath P s.1 s.2 key rest

def placeLeaves (P : Params) (b : Build) : Build :=
  (List.range (orgsBelow P.d P.top P.peLevel)).foldl
    (fun b u => leafPath P b 0 "" ((decompose P.d u P.peLevel).drop (6 - P.top))) b

/-! ## The grid of a die -/

def gridFan (d : Dims) : Nat → Nat
  | 0 => max 1 d.SA
  | 1 => max 1 d.BpBG
  | _ => max 1 d.BGpC

/-- A grid node's coordinates below the chip, leaf first. -/
def nodeCoords (d : Dims) : Nat → Nat → Nat → List Nat
  | 0, _, _ => []
  | n + 1, lvl, rem => rem % gridFan d lvl :: nodeCoords d n (lvl + 1) (rem / gridFan d lvl)

/-- The grid node of the coordinates below the chip, given leaf first. -/
def nodeIndex (d : Dims) : Nat → Nat → List Nat → Nat
  | _, _, [] => 0
  | lvl, mult, c :: cs => c * mult + nodeIndex d (lvl + 1) (mult * gridFan d lvl) cs

/-- The hub of a crossbar: a switch, with no key. -/
def addHub (b : Build) (P : Params) (chip li : Nat) : Build :=
  { b with
    t := { b.t with
      intLinks := b.t.intLinks ++ [P.link chip b.nextRouter li]
      dieExitOf := b.t.dieExitOf.insert chip b.nextRouter }
    nextRouter := b.nextRouter + 1
    info := b.info.insert b.nextRouter ⟨P.peLevel, ∅⟩ }

def addNode (b : Build) (P : Params) (chipKey : String) (hub : Option Nat) (li n : Nat) : Build :=
  let key := (nodeCoords P.d (3 - P.peLevel) P.peLevel n).reverse.foldl SparseHTree.keyStep chipKey
  let rid := b.nextRouter
  { b with
    t := { b.t with
      routerOf := b.t.routerOf.insert key rid
      gridLinks := b.t.gridLinks ++ match hub with
        | some h => [P.link h rid li]
        | none => [] }
    nextRouter := rid + 1
    info := b.info.insert rid ⟨P.peLevel, ∅⟩ }

/-- The nodes `n`, `n + 1`, … of the grid, and their routers. -/
def addNodes (P : Params) (chipKey : String) (hub : Option Nat) (li : Nat) :
    Build → Nat → Nat → Build × List Nat
  | b, _, 0 => (b, [])
  | b, n, k + 1 =>
    let s := addNodes P chipKey hub li (b.addNode P chipKey hub li n) (n + 1) k
    (s.1, b.nextRouter :: s.2)

/-- The links between the nodes of a mesh or a ring. -/
def fabricLinks (P : Params) (kind : FabricKind) (gridW gridH li : Nat) (nodeRouter : List Nat) : List Link :=
  let at' := fun i => nodeRouter.getD i 0
  let nodes := gridW * gridH
  match kind with
  | .mesh2D => (List.range gridH).flatMap fun y => (List.range gridW).flatMap fun x =>
      (if x + 1 < gridW then [P.link (at' (y * gridW + x)) (at' (y * gridW + x + 1)) li] else [])
      ++ (if y + 1 < gridH then [P.link (at' (y * gridW + x)) (at' ((y + 1) * gridW + x)) li] else [])
  | .ring =>
    if nodes > 1 then
      -- two nodes share one link
      (List.range (if nodes = 2 then 1 else nodes)).map fun n => P.link (at' n) (at' ((n + 1) % nodes)) li
    else []
  | _ => []

/-- `resize(n, -1)`. -/
def resize (xs : List (Option Nat)) (n : Nat) : List (Option Nat) := xs ++ List.replicate (n - xs.length) none

/-- The grid positions of the nodes, written into a table that reaches to router `n`. -/
def placeNodes (xs : List (Option Nat)) (n : Nat) (nodeRouter : List Nat) (f : Nat → Option Nat) :
    List (Option Nat) :=
  nodeRouter.zipIdx.foldl (fun xs rn => xs.set rn.1 (f rn.2)) (resize xs n)

/-- The hub's entry, where there is a hub. -/
def setHub (xs : List (Option Nat)) (hub : Option Nat) (v : Option Nat) : List (Option Nat) :=
  match hub with
  | some h => xs.set h v
  | none => xs

/-- The die is fully live, its exit is linked, and its nodes know where they are. -/
def wireDie (b : Build) (P : Params) (chip li : Nat) (hub : Option Nat) (nodeRouter : List Nat) : Build :=
  let t := b.t
  let exit := nodeRouter.getD 0 0
  let live := (List.range (childFanout P.d (b.node chip).level)).foldl (fun s c => insert c s) (b.node chip).live
  { b with
    t := { t with
      intLinks := if t.fabricKind ≠ .crossbar then t.intLinks ++ [P.link chip exit li] else t.intLinks
      dieExitOf := if t.fabricKind ≠ .crossbar then t.dieExitOf.insert chip exit else t.dieExitOf
      gridLinks := t.gridLinks ++ fabricLinks P t.fabricKind t.gridW t.gridH li nodeRouter
      gridX := setHub (placeNodes t.gridX b.nextRouter nodeRouter fun n => some (n % t.gridW)) hub none
      gridY := setHub (placeNodes t.gridY b.nextRouter nodeRouter fun n => some (n / t.gridW)) hub none
      gridDie := setHub (placeNodes t.gridDie b.nextRouter nodeRouter fun _ => some chip) hub (some chip)
      gridRouters := t.gridRouters + (nodeRouter.length + if hub.isSome then 1 else 0) }
    info := b.info.insert chip ⟨(b.node chip).level, live⟩ }

/-- An element of the die at its node. -/
def attachNode (P : Params) (nodeRouter : List Nat) (b : Build) (pp : Nat × List Nat) : Build :=
  let n := nodeIndex P.d P.peLevel 1 (pp.2.reverse.take (3 - P.peLevel))
  let n := if n ≥ nodeRouter.length then 0 else n
  let rid := nodeRouter.getD n 0
  { b with t := { b.t with
      peOfLeaf := b.t.peOfLeaf.insert rid pp.1
      extLinks := b.t.extLinks ++ [P.link pp.1 rid 0] } }

/-- The key a router was entered under. -/
def keyOfRouter (b : Build) (r : Nat) : String :=
  ((b.t.routerOf.toList.find? fun rk => rk.2 = r).map (·.1)).getD ""

/-- The grid of the die below `chip`. -/
def buildDie (P : Params) (b : Build) (chip : Nat) (pes : List (Nat × List Nat)) : Build :=
  let li := layerForLevel P.peLevel P.chanLevel
  let chipKey := b.keyOfRouter chip
  let hub := if b.t.fabricKind = .crossbar then some b.nextRouter else none
  let b := if b.t.fabricKind = .crossbar then b.addHub P chip li else b
  let s := addNodes P chipKey hub li b 0 (b.t.gridW * b.t.gridH)
  pes.foldl (attachNode P s.2) (s.1.wireDie P chip li hub s.2)

def buildDies (P : Params) (b : Build) : Build :=
  b.peOfDie.toList.foldl (fun b kv => buildDie P b kv.1 kv.2) b

/-! ## Channels -/

/-- Child `c` of `parent`, unless it is there. -/
def addChannel (P : Params) (chLevel parent : Nat) (parentKey : String) (b : Build) (c : Nat) : Build :=
  let key := SparseHTree.keyStep parentKey c
  if b.t.routerOf.contains key then b
  else (b.newRouter P parent key chLevel).enliven parent c

/-- The level whose routers are the channels of this placement. -/
def channelLevel (P : Params) : Nat := if P.peLevel ≥ 5 then 5 else channelBearingLevel P.d

/-- The channels below one router that was there before the pass. -/
def scanChannels (P : Params) (b : Build) (rk : String × Nat) : Build :=
  match b.info[rk.2]? with
  | none => b
  | some nd =>
    if nd.level ≠ channelLevel P + 1 then b
    else (List.range (P.fanout nd.level)).foldl (addChannel P (channelLevel P) rk.2 rk.1) b

/-- Every channel gets a router, whether or not an element lives in it. -/
def materialiseChannels (P : Params) (b : Build) : Build :=
  b.t.routerOf.toList.foldl (scanChannels P) b

/-! ## Abstract endpoints -/

def isHub (t : SparseHTree) (r : Nat) : Bool :=
  (t.gridDie.getD r none).isSome ∧ r < t.gridDie.length ∧ t.gridX.getD r none = none

/-- What router `r` has to front, if anything: how many organisations, hanging below
which level, over which link layer. -/
def fronts (P : Params) (t : SparseHTree) (r : Nat) (nd : Node) : Option (Nat × Nat × Nat) :=
  if nd.level = P.leafLevel ∧ r ≠ 0 ∧ nd.live.card = 0 ∧ ¬ isHub t r ∧ ¬ t.peOfLeaf.contains r then
    some (1, nd.level, 0)
  else if nd.level ≤ P.leafLevel then none
  else if nd.live.card < P.fanout nd.level then
    some ((P.fanout nd.level - nd.live.card) * orgsBelow P.d (nd.level - 1) P.peLevel, nd.level - 1,
      layerForLevel (nd.level - 1) P.chanLevel)
  else none

/-- Endpoint `abst` for router `r`. -/
def addAbstract (t : SparseHTree) (P : Params) (abst r : Nat) (f : Nat × Nat × Nat) : SparseHTree :=
  { t with
    abstractOf := t.abstractOf.insert r abst
    coverageOf := t.coverageOf.insert abst f.1
    frontsLevel := t.frontsLevel.insert abst f.2.1
    extLinks := t.extLinks ++ [P.link abst r f.2.2] }

/-- The routers in id order; `nextEndpoint` runs from the number of elements. -/
def addAbstracts (P : Params) : List (Nat × Node) → SparseHTree → Nat → SparseHTree × Nat
  | [], t, nextEndpoint => (t, nextEndpoint)
  | (r, nd) :: rest, t, nextEndpoint =>
    match fronts P t r nd with
    | some f => addAbstracts P rest (addAbstract t P nextEndpoint r f) (nextEndpoint + 1)
    | none => addAbstracts P rest t nextEndpoint

/-- The per-level census of what was built. -/
def census (P : Params) (info : TreeMap Nat Node) (t : SparseHTree) : SparseHTree :=
  { t with
    gridX := resize t.gridX t.numRouters
    gridY := resize t.gridY t.numRouters
    gridDie := resize t.gridDie t.numRouters
    levelOfRouter := (List.range t.numRouters).map fun r => info[r]?.map (·.level)
    branchAtLevel := fun l => (info.toList.filter fun rn => rn.2.level = l ∧ rn.2.live.card ≥ 2).length
    endpointsAtLevel := fun l => (if l = P.peLevel then t.numPEs else 0)
      + (t.frontsLevel.toList.filter fun kv => kv.2 = l).length }

end Build

/-- The root alone. -/
def emptyBuild (P : Params) : Build where
  t :=
    { dims := P.d
      peLevel := P.peLevel
      topLevel := P.top
      fullLeaves := P.fullLeaves
      routerOf := (∅ : TreeMap String Nat).insert "" 0
      fabricKind := if P.gridded then (P.fab.map (·.kind)).getD .none else .none
      gridW := if P.gridded then max 1 ((P.fab.map (·.gridW)).getD 0) else 0
      gridH := if P.gridded then max 1 ((P.fab.map (·.gridH)).getD 0) else 0 }
  nextRouter := 1
  info := (∅ : TreeMap Nat Node).insert 0 ⟨P.top, ∅⟩
  peOfDie := ∅

/-- The routers, before endpoints are hung on the empty regions. -/
def buildRouters (P : Params) (peHomes : List Nat) : Build :=
  let b := Build.placePEs P (emptyBuild P) peHomes
  let b := if P.fullLeaves then Build.placeLeaves P b else b
  let b := if P.gridded then Build.buildDies P b else b
  Build.materialiseChannels P b

/-- The sparse tree of the element homes. -/
def buildSparseHTree (P : Params) (peHomes : List Nat) : SparseHTree :=
  let b := buildRouters P peHomes
  let t := { b.t with numPEs := peHomes.length, numRouters := b.nextRouter }
  let s := Build.addAbstracts P b.info.toList t peHomes.length
  Build.census P b.info { s.1 with numAbstract := s.2 - peHomes.length }

end Pimid.Htree
