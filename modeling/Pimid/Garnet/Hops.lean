import Pimid.Garnet.Grid
import Pimid.Garnet.Trees

/-!
# Counted hops and the hops the network takes

`GarnetNetwork` prices a packet by a closed-form hop count. Garnet moves it: at every
router `directionFor` names the port it leaves by, until it is at its router. On the
grids and the rings both count the same links, and on the H-tree the count is the
distance. On the fat tree it counts two more: the links between the endpoints and
their leaf routers.
-/

namespace Pimid.Garnet

inductive NoCTopology where
  | MESH_2D
  | TORUS_2D
  | RING
  | FAT_TREE
  | H_TREE
deriving DecidableEq, Repr

structure GarnetNetwork where
  topology : NoCTopology
  numRows : Nat
  numCols : Nat
  ringUnidirectional : Bool := false
deriving Repr

namespace GarnetNetwork

def numNodes (net : GarnetNetwork) : Nat := net.numRows * net.numCols

/-! ## The hop counts -/

/-- Distance of two coordinates. -/
def gap (a b : Nat) : Nat := if b < a then a - b else b - a

def getMeshHops (net : GarnetNetwork) (src dst : Nat) : Nat :=
  if net.numCols = 0 then 1
  else
    let rowDist := gap (src / net.numCols) (dst / net.numCols)
    let colDist := gap (src % net.numCols) (dst % net.numCols)
    rowDist + colDist

def getTorusHops (net : GarnetNetwork) (src dst : Nat) : Nat :=
  if net.numCols = 0 ∨ net.numRows = 0 then 1
  else
    let dx := gap (src % net.numCols) (dst % net.numCols)
    let dy := gap (src / net.numCols) (dst / net.numCols)
    min dx (net.numCols - dx) + min dy (net.numRows - dy)

def getRingHops (net : GarnetNetwork) (src dst : Nat) : Nat :=
  let n := net.numNodes
  if n = 0 then 1
  else if net.ringUnidirectional then ((dst : Int) - src + n).toNat % n
  else
    let d := gap src dst
    min d (n - d)

def getFatTreeHops (src dst : Nat) : Nat := 2 * lcaLevel src dst

def getHTreeHops (net : GarnetNetwork) (src dst : Nat) : Nat :=
  if src = dst then 0
  else
    let numLeaves := 2 ^ (treeLevels 2 net.numNodes - 1)
    let srcLeaf := src % numLeaves
    let dstLeaf := dst % numLeaves
    if srcLeaf = dstLeaf then 0 else heapHops (srcLeaf + numLeaves) (dstLeaf + numLeaves)

def getHopCount (net : GarnetNetwork) (src dst : Nat) : Nat :=
  if src = dst then 0
  else match net.topology with
    | .MESH_2D => net.getMeshHops src dst
    | .TORUS_2D => net.getTorusHops src dst
    | .RING => net.getRingHops src dst
    | .FAT_TREE => getFatTreeHops src dst
    | .H_TREE => net.getHTreeHops src dst

/-! ## The network -/

/-- `initGarnetNetwork` -/
def build (net : GarnetNetwork) : Topology :=
  match net.topology with
  | .MESH_2D => buildMesh net.numRows net.numCols net.numNodes
  | .TORUS_2D => buildTorus net.numRows net.numCols net.numNodes
  | .RING => buildRing net.numNodes net.numNodes net.ringUnidirectional
  | .FAT_TREE => buildFatTree net.numNodes 2
  | .H_TREE => buildHTree net.numNodes

/-- `m_num_rows` and `m_num_cols`: set on a grid only. -/
def gridSize (net : GarnetNetwork) : Int × Int :=
  match net.topology with
  | .MESH_2D | .TORUS_2D => (net.numRows, net.numCols)
  | _ => (-1, -1)

/-- The direction a packet for `dest` takes at the router. -/
def direction (net : GarnetNetwork) (alg : RoutingAlgorithm) (dest router : Nat) : Option PortDirection :=
  directionFor alg router dest net.gridSize.1 net.gridSize.2 net.build.numRouters net.build.ringCwOnly

/-- The link it leaves by. -/
def nextLink (net : GarnetNetwork) (alg : RoutingAlgorithm) (dest router : Nat) : Option IntLink :=
  (net.direction alg dest router).bind (net.build.linkFor router)

/-- A packet from the router of `src` reaches the router of `dst` over `n` links. -/
def Takes (net : GarnetNetwork) (alg : RoutingAlgorithm) (src dst n : Nat) : Prop :=
  ∃ a b fuel path, net.build.routerOf src = some a ∧ net.build.routerOf dst = some b ∧
    follow IntLink.dst (net.nextLink alg b) b fuel a = some path ∧ path.length = n

/-- The routers of `src` and `dst` are `n` links apart. -/
def Apart (net : GarnetNetwork) (src dst n : Nat) : Prop :=
  ∃ a b, net.build.routerOf src = some a ∧ net.build.routerOf dst = some b ∧
    IsDist IntLink.src IntLink.dst net.build.intLinks a b n

/-- The network takes the hops that are counted: by the topology's routing on the grids and rings, in links apart on
the trees. -/
def CountsHops (net : GarnetNetwork) (src dst : Nat) : Prop :=
  match net.topology with
  | .MESH_2D => net.Takes .XY src dst (net.getHopCount src dst)
  | .TORUS_2D => net.Takes .DOR src dst (net.getHopCount src dst)
  | .RING => net.Takes .SHORTEST src dst (net.getHopCount src dst)
  | .FAT_TREE => net.Apart src dst (net.getHopCount src dst)
  | .H_TREE => net.Apart src dst (net.getHopCount src dst)

/-! ## Endpoints -/

theorem lookup_range_map {n x : Nat} (f : Nat → Nat) (h : x < n) :
    ((List.range n).map fun i => (i, f i)).lookup x = some (f x) := by
  induction n with
  | zero => cases h
  | succ n ih =>
    rw [List.range_succ, List.map_append, List.lookup_append]
    by_cases hx : x < n
    · rw [ih hx]
      rfl
    · obtain rfl : x = n := by omega
      have hnone : ((List.range x).map fun i => (i, f i)).lookup x = none := by
        rw [List.lookup_eq_none_iff]
        intro p hp
        obtain ⟨i, hi, rfl⟩ := List.mem_map.mp hp
        have := List.mem_range.mp hi
        simpa using (by omega : x ≠ i)
      rw [hnone]
      simp

/-- With a router for each endpoint, an endpoint's router has its number. -/
theorem roundRobin_lookup {n x : Nat} (h : x < n) : (roundRobin n n).lookup x = some x := by
  rw [roundRobin, lookup_range_map (· % n) h, Nat.mod_eq_of_lt h]

/-! ## Routes on a grid -/

/-- If every direction leads to a neighbour one step nearer, the steps count the links of the route. -/
theorem follow_grid (net : GarnetNetwork) (alg : RoutingAlgorithm) {rows cols : Nat} {next : Neighbour}
    (hlinks : GridLinks net.build.intLinks rows cols next) (r' : Nat) {c' : Nat} (hc' : c' < cols) (steps : Nat → Nat → Nat)
    (hzero : steps r' c' = 0)
    (hstep : ∀ r c, r < rows → c < cols → ¬(r = r' ∧ c = c') → ∃ d r₁ c₁,
      net.direction alg (r' * cols + c') (r * cols + c) = some d ∧ next d r c = some (r₁, c₁) ∧
        steps r c = steps r₁ c₁ + 1)
    {r c : Nat} (hr : r < rows) (hc : c < cols) :
    ∃ fuel path, follow IntLink.dst (net.nextLink alg (r' * cols + c')) (r' * cols + c') fuel (r * cols + c) = some path ∧
      path.length = steps r c := by
  have hrank {r c : Nat} (hc : c < cols) : steps ((r * cols + c) / cols) ((r * cols + c) % cols) = steps r c := by
    rw [grid_div hc, grid_mod hc]
  have hnext : ∀ v, v < rows * cols → v ≠ r' * cols + c' → ∃ e : IntLink,
      net.nextLink alg (r' * cols + c') v = some e ∧ e.dst < rows * cols ∧
        steps (v / cols) (v % cols) = steps (e.dst / cols) (e.dst % cols) + 1 := by
    intro v hv hne
    obtain ⟨r, c, hr, hc, rfl⟩ := grid_split hv
    obtain ⟨d, r₁, c₁, hdir, hnext, hs⟩ := hstep r c hr hc (by rintro ⟨rfl, rfl⟩; exact hne rfl)
    obtain ⟨hr₁, hc₁⟩ := hlinks.range hr hc hnext
    refine ⟨gridLink cols d r c r₁ c₁, ?_, grid_lt hr₁ hc₁, ?_⟩
    · rw [nextLink, hdir]
      exact hlinks.linkFor hr hc hnext
    · show _ = steps ((r₁ * cols + c₁) / cols) ((r₁ * cols + c₁) % cols) + 1
      rw [hrank hc, hrank hc₁, hs]
  obtain ⟨path, hpath, hlen⟩ := follow_of_rank (fun v => steps (v / cols) (v % cols)) (· < rows * cols)
    (by rw [hrank hc', hzero]) hnext (grid_lt hr hc)
  exact ⟨_, path, hpath, by rw [hlen, hrank hc]⟩

theorem gap_eq (a b : Nat) : gap a b = a - b + (b - a) := by
  unfold gap
  split <;> omega

section Grids

variable {rows cols r c r' c' : Nat} {uni : Bool}

/-! ### Meshes -/

theorem getMeshHops_grid (hc : c < cols) (hc' : c' < cols) :
    getMeshHops ⟨.MESH_2D, rows, cols, uni⟩ (r * cols + c) (r' * cols + c') = gap r r' + gap c c' := by
  rw [getMeshHops, if_neg (Nat.ne_of_gt (Nat.zero_lt_of_lt hc))]
  show gap ((r * cols + c) / cols) ((r' * cols + c') / cols) + gap ((r * cols + c) % cols) ((r' * cols + c') % cols) = _
  rw [grid_div hc, grid_div hc', grid_mod hc, grid_mod hc']

theorem xy_step (hr' : r' < rows) (hc' : c' < cols) (hne : ¬(r = r' ∧ c = c')) :
    ∃ d r₁ c₁, xyDirection r c r' c' = some d ∧ meshNext rows cols d r c = some (r₁, c₁) ∧
      gap r r' + gap c c' = gap r₁ r' + gap c₁ c' + 1 := by
  unfold xyDirection
  simp only [gap_eq]
  rcases Nat.lt_trichotomy c c' with h | rfl | h
  · exact ⟨.East, r, c + 1, if_pos h, if_pos (by omega), by omega⟩
  · rcases Nat.lt_trichotomy r r' with h | rfl | h
    · exact ⟨.North, r + 1, c, by simp [h], if_pos (by omega), by omega⟩
    · exact absurd ⟨rfl, rfl⟩ hne
    · exact ⟨.South, r - 1, c, by simp [h, Nat.lt_asymm h], if_pos (by omega), by omega⟩
  · exact ⟨.West, r, c - 1, by simp [h, Nat.lt_asymm h], if_pos (by omega), by omega⟩

theorem takes_mesh {src dst : Nat} (hs : src < rows * cols) (hd : dst < rows * cols) :
    Takes ⟨.MESH_2D, rows, cols, uni⟩ .XY src dst (getMeshHops ⟨.MESH_2D, rows, cols, uni⟩ src dst) := by
  obtain ⟨r', c', hr', hc', rfl⟩ := grid_split hd
  obtain ⟨r, c, hr, hc, rfl⟩ := grid_split hs
  obtain ⟨fuel, path, hpath, hlen⟩ := follow_grid ⟨.MESH_2D, rows, cols, uni⟩ .XY (gridLinks_mesh rows cols) r' hc'
    (fun r c => gap r r' + gap c c') (by simp [gap_eq]) (fun r c hr hc hne => by
      obtain ⟨d, r₁, c₁, hdir, hnext, hgap⟩ := xy_step hr' hc' hne
      exact ⟨d, r₁, c₁, (directionFor_XY hc hc' _ _ _).trans hdir, hnext, hgap⟩) hr hc
  exact ⟨_, _, fuel, path, roundRobin_lookup hs, roundRobin_lookup hd, hpath, by rw [hlen, getMeshHops_grid hc hc']⟩

/-! ### Tori -/

/-- The shorter way round a ring of `n`. -/
def wrapGap (n a b : Nat) : Nat := min (gap a b) (n - gap a b)

theorem wrapGap_self (n a : Nat) : wrapGap n a a = 0 := by
  simp [wrapGap, gap_eq]

theorem getTorusHops_grid (hrows : 0 < rows) (hc : c < cols) (hc' : c' < cols) :
    getTorusHops ⟨.TORUS_2D, rows, cols, uni⟩ (r * cols + c) (r' * cols + c') = wrapGap cols c c' + wrapGap rows r r' := by
  have hpos : ¬(cols = 0 ∨ rows = 0) := by omega
  rw [getTorusHops, if_neg hpos]
  show min (gap ((r * cols + c) % cols) ((r' * cols + c') % cols)) (cols - gap ((r * cols + c) % cols) ((r' * cols + c') % cols)) +
    min (gap ((r * cols + c) / cols) ((r' * cols + c') / cols)) (rows - gap ((r * cols + c) / cols) ((r' * cols + c') / cols)) = _
  rw [grid_div hc, grid_div hc', grid_mod hc, grid_mod hc']
  rfl

theorem wrapGap_eq {n a b : Nat} (ha : a < n) :
    wrapGap n a b = min (cwDist n a b) (n - cwDist n a b) := by
  unfold wrapGap cwDist
  rw [gap_eq]
  split
  · next h => rw [Nat.sub_eq_zero_of_le h, Nat.zero_add]
  · next h =>
    rw [Nat.sub_eq_zero_of_le (by omega : b ≤ a), Nat.add_zero, Nat.min_comm]
    congr 1
    omega

theorem wrapGap_step {way : Nat → Nat → Nat → Bool} (h : ShortestWay way) {n a b : Nat} (ha : a < n) (hb : b < n)
    (hne : a ≠ b) : wrapGap n a b = wrapGap n (ringStep n (way n a b) a) b + 1 := by
  rw [wrapGap_eq ha, wrapGap_eq (ringStep_lt _ ha)]
  exact h.nearer ha hb hne

theorem dor_step (hr : r < rows) (hc : c < cols) (hr' : r' < rows) (hc' : c' < cols) (hne : ¬(r = r' ∧ c = c')) :
    ∃ d r₁ c₁, dorDirection rows cols r c r' c' = some d ∧ torusNext rows cols d r c = some (r₁, c₁) ∧
      wrapGap cols c c' + wrapGap rows r r' = wrapGap cols c₁ c' + wrapGap rows r₁ r' + 1 := by
  unfold dorDirection
  by_cases h : c = c'
  · subst h
    have hr₁ : r ≠ r' := fun he => hne ⟨he, rfl⟩
    have hstep := wrapGap_step shortestWay_dorUp hr hr' hr₁
    unfold ringStep at hstep
    simp only [ne_eq, not_true_eq_false, if_false, hr₁, not_false_eq_true, if_true]
    by_cases hup : dorUp rows r r' = true
    · rw [if_pos hup] at hstep ⊢
      exact ⟨.North, stepCw rows r, c, rfl, rfl, by omega⟩
    · rw [if_neg hup] at hstep ⊢
      exact ⟨.South, stepCcw rows r, c, rfl, rfl, by omega⟩
  · have hstep := wrapGap_step shortestWay_dorUp hc hc' h
    unfold ringStep at hstep
    simp only [ne_eq, h, not_false_eq_true, if_true]
    by_cases hup : dorUp cols c c' = true
    · rw [if_pos hup] at hstep ⊢
      exact ⟨.East, r, stepCw cols c, rfl, rfl, by omega⟩
    · rw [if_neg hup] at hstep ⊢
      exact ⟨.West, r, stepCcw cols c, rfl, rfl, by omega⟩

theorem takes_torus {src dst : Nat} (hs : src < rows * cols) (hd : dst < rows * cols) :
    Takes ⟨.TORUS_2D, rows, cols, uni⟩ .DOR src dst (getTorusHops ⟨.TORUS_2D, rows, cols, uni⟩ src dst) := by
  obtain ⟨r', c', hr', hc', rfl⟩ := grid_split hd
  obtain ⟨r, c, hr, hc, rfl⟩ := grid_split hs
  have hrows : 0 < rows := Nat.zero_lt_of_lt hr
  have hcols : 0 < cols := Nat.zero_lt_of_lt hc
  obtain ⟨fuel, path, hpath, hlen⟩ := follow_grid ⟨.TORUS_2D, rows, cols, uni⟩ .DOR
    (gridLinks_torus hrows hcols (rows * cols)) r' hc' (fun r c => wrapGap cols c c' + wrapGap rows r r')
    (by simp [wrapGap_self]) (fun r c hr hc hne => by
      obtain ⟨d, r₁, c₁, hdir, hnext, hgap⟩ := dor_step hr hc hr' hc' hne
      exact ⟨d, r₁, c₁, (directionFor_DOR hc hc' hr _ _).trans hdir, hnext, hgap⟩) hr hc
  exact ⟨_, _, fuel, path, roundRobin_lookup hs, roundRobin_lookup hd, hpath, by rw [hlen, getTorusHops_grid hrows hc hc']⟩

/-! ### Rings -/

theorem getRingHops_bidirectional {n a b : Nat} (ha : a < n) (h : rows * cols = n) :
    getRingHops ⟨.RING, rows, cols, false⟩ a b = wrapGap n a b := by
  have hn : ¬numNodes ⟨.RING, rows, cols, false⟩ = 0 := by
    show ¬rows * cols = 0
    omega
  rw [getRingHops, if_neg hn, ← h]
  rfl

theorem getRingHops_unidirectional {n a b : Nat} (ha : a < n) (hb : b < n) (h : rows * cols = n) :
    getRingHops ⟨.RING, rows, cols, true⟩ a b = cwDist n a b := by
  have hn : ¬numNodes ⟨.RING, rows, cols, true⟩ = 0 := by
    show ¬rows * cols = 0
    omega
  rw [getRingHops, if_neg hn]
  show ((b : Int) - a + ((rows * cols : Nat) : Int)).toNat % (rows * cols) = _
  rw [h]
  unfold cwDist
  split
  · next hle =>
    have hsum : ((b : Int) - a + n).toNat = b - a + n := by omega
    rw [hsum, Nat.add_mod_right, Nat.mod_eq_of_lt (by omega)]
  · next hle =>
    have hsum : ((b : Int) - a + n).toNat = n - (a - b) := by omega
    rw [hsum, Nat.mod_eq_of_lt (by omega)]

theorem takes_ring {src dst : Nat} (hs : src < rows * cols) (hd : dst < rows * cols) :
    Takes ⟨.RING, rows, cols, uni⟩ .SHORTEST src dst (getRingHops ⟨.RING, rows, cols, uni⟩ src dst) := by
  generalize hn : rows * cols = n at hs hd
  have hpos : 0 < n := Nat.zero_lt_of_lt hs
  have hlinks : GridLinks (build ⟨.RING, rows, cols, uni⟩).intLinks 1 n (ringNext n uni) := by
    show GridLinks (buildRing (rows * cols) (rows * cols) uni).intLinks 1 n _
    rw [hn]
    exact gridLinks_ring n n uni
  have hcw : (build ⟨.RING, rows, cols, uni⟩).ringCwOnly = uni := by
    show (buildRing (rows * cols) (rows * cols) uni).ringCwOnly = uni
    rw [hn]
    exact ringCwOnly_ring n n uni hpos
  have hrouter {x : Nat} (hx : x < n) : (build ⟨.RING, rows, cols, uni⟩).routerOf x = some x := by
    show (roundRobin (rows * cols) (rows * cols)).lookup x = some x
    rw [hn]
    exact roundRobin_lookup hx
  have hdirection (a : Nat) : direction ⟨.RING, rows, cols, uni⟩ .SHORTEST dst a = directionFor .SHORTEST a dst (-1) (-1) n uni := by
    rw [direction, hcw]
    show directionFor .SHORTEST a dst (-1) (-1) ((rows * cols : Nat) : Int) uni = _
    rw [hn]
  have hrow (x : Nat) : 0 * n + x = x := by omega
  have hwalk : ∃ fuel path, follow IntLink.dst (nextLink ⟨.RING, rows, cols, uni⟩ .SHORTEST (0 * n + dst)) (0 * n + dst) fuel
      (0 * n + src) = some path ∧ path.length = getRingHops ⟨.RING, rows, cols, uni⟩ src dst := by
    cases uni with
    | false =>
      rw [getRingHops_bidirectional hs hn]
      refine follow_grid _ .SHORTEST hlinks 0 hd (fun _ a => wrapGap n a dst) (wrapGap_self n dst) ?_ Nat.one_pos hs
      intro r a hr ha hne
      obtain rfl : r = 0 := by omega
      have hne' : a ≠ dst := fun he => hne ⟨rfl, he⟩
      have hstep := wrapGap_step shortestWay_shortestUp ha hd hne'
      unfold ringStep at hstep
      rw [hrow, hrow, hdirection, directionFor_SHORTEST ha hd hne']
      by_cases hc : shortestUp n a dst = true
      · rw [if_pos hc] at hstep ⊢
        exact ⟨.East, 0, stepCw n a, rfl, rfl, hstep⟩
      · rw [if_neg hc] at hstep ⊢
        exact ⟨.West, 0, stepCcw n a, rfl, rfl, hstep⟩
    | true =>
      rw [getRingHops_unidirectional hs hd hn]
      refine follow_grid _ .SHORTEST hlinks 0 hd (fun _ a => cwDist n a dst) (by simp [cwDist]) ?_ Nat.one_pos hs
      intro r a hr ha hne
      obtain rfl : r = 0 := by omega
      have hne' : a ≠ dst := fun he => hne ⟨rfl, he⟩
      rw [hrow, hrow, hdirection]
      exact ⟨.East, 0, stepCw n a, rfl, rfl, cwDist_stepCw ha hd hne'⟩
  rw [hrow, hrow] at hwalk
  obtain ⟨fuel, path, hpath, hlen⟩ := hwalk
  exact ⟨src, dst, fuel, path, hrouter hs, hrouter hd, hpath, hlen⟩

end Grids

/-! ## Trees -/

section TreeHops

variable {rows cols : Nat} {uni : Bool} {src dst : Nat}

theorem apart_hTree (hs : src < rows * cols) (hd : dst < rows * cols) :
    Apart ⟨.H_TREE, rows, cols, uni⟩ src dst (getHTreeHops ⟨.H_TREE, rows, cols, uni⟩ src dst) := by
  obtain ⟨-, hlevels⟩ := treeLevels_spec (rows * cols)
  -- the leaves are the last `2 ^ (levels - 1)` routers
  have hpow : 2 ^ treeLevels 2 (rows * cols) = 2 ^ (treeLevels 2 (rows * cols) - 1) * 2 := by
    rw [← Nat.pow_succ, Nat.succ_eq_add_one, Nat.sub_add_cancel hlevels]
  have hpos : 1 ≤ 2 ^ (treeLevels 2 (rows * cols) - 1) := Nat.one_le_two_pow
  have hleaves : 2 ^ treeLevels 2 (rows * cols) - 1 - (2 ^ (treeLevels 2 (rows * cols) - 1) - 1) =
      2 ^ (treeLevels 2 (rows * cols) - 1) := by omega
  have hmod (x : Nat) : x % 2 ^ (treeLevels 2 (rows * cols) - 1) < 2 ^ (treeLevels 2 (rows * cols) - 1) := Nat.mod_lt _ hpos
  have hrouter {x : Nat} (hx : x < rows * cols) : (buildHTree (rows * cols)).routerOf x =
      some (2 ^ (treeLevels 2 (rows * cols) - 1) - 1 + x % 2 ^ (treeLevels 2 (rows * cols) - 1)) := by
    rw [Topology.routerOf, buildHTree]
    simp only [hleaves]
    exact lookup_range_map _ hx
  have hlt (x : Nat) : 2 ^ (treeLevels 2 (rows * cols) - 1) - 1 + x % 2 ^ (treeLevels 2 (rows * cols) - 1) <
      (buildHTree (rows * cols)).numRouters := by
    have := hmod x
    show _ < 2 ^ treeLevels 2 (rows * cols) - 1
    omega
  have hheap (x : Nat) : 2 ^ (treeLevels 2 (rows * cols) - 1) - 1 + x % 2 ^ (treeLevels 2 (rows * cols) - 1) + 1 =
      x % 2 ^ (treeLevels 2 (rows * cols) - 1) + 2 ^ (treeLevels 2 (rows * cols) - 1) := by omega
  refine ⟨_, _, hrouter hs, hrouter hd, ?_⟩
  have hdist := (heapLinks_hTree (rows * cols)).isDist (hlt src) (hlt dst)
  simp only [hheap] at hdist
  have hcount : getHTreeHops ⟨.H_TREE, rows, cols, uni⟩ src dst = heapHops
      (src % 2 ^ (treeLevels 2 (rows * cols) - 1) + 2 ^ (treeLevels 2 (rows * cols) - 1))
      (dst % 2 ^ (treeLevels 2 (rows * cols) - 1) + 2 ^ (treeLevels 2 (rows * cols) - 1)) := by
    unfold getHTreeHops numNodes
    dsimp only
    split
    · next he => rw [he, heapHops_self]
    split
    · next he => rw [he, heapHops_self]
    · rfl
  rw [hcount]
  exact hdist

/-- Leaf routers of the fat tree, and what the count says of them. -/
theorem apart_fatTree (hs : src < rows * cols) (hd : dst < rows * cols) :
    Apart ⟨.FAT_TREE, rows, cols, uni⟩ src dst (2 * lcaLevel (src / 2) (dst / 2)) := by
  obtain ⟨hroom, hlevels⟩ := treeLevels_spec (rows * cols)
  obtain ⟨k, hk⟩ : ∃ k, treeLevels 2 (rows * cols) = k + 1 := ⟨treeLevels 2 (rows * cols) - 1, by omega⟩
  have hrows : fatTreeRows (rows * cols) = (rows * cols + 2 - 1) / 2 :: routersPerLevel 2 k ((rows * cols + 2 - 1) / 2) := by
    rw [fatTreeRows, hk]
    rfl
  have hrouter {x : Nat} (hx : x < rows * cols) : (buildFatTree (rows * cols) 2).routerOf x = some (x / 2) :=
    lookup_range_map (· / 2) hx
  have hrow {x : Nat} (hx : x < rows * cols) : heapOf (fatTreeRows (rows * cols)) (x / 2) = 2 ^ k + x / 2 := by
    rw [hrows, heapOf_row (by omega), length_routersPerLevel]
  have hlt {x : Nat} (hx : x < rows * cols) : x / 2 < (buildFatTree (rows * cols) 2).numRouters := by
    show x / 2 < (fatTreeRows (rows * cols)).sum
    rw [hrows, List.sum_cons]
    omega
  have hk2 {x : Nat} (hx : x < rows * cols) : x / 2 < 2 ^ k := by
    rw [hk, Nat.pow_succ] at hroom
    omega
  refine ⟨_, _, hrouter hs, hrouter hd, ?_⟩
  have hdist := (heapLinks_fatTree (rows * cols)).isDist (hlt hs) (hlt hd)
  rw [hrow hs, hrow hd, heapHops_row (hk2 hs) (hk2 hd)] at hdist
  exact hdist

/-- Two endpoints of the fat tree are two links nearer than counted. -/
theorem fatTree_miscounts (hs : src < rows * cols) (hd : dst < rows * cols) (hne : src ≠ dst) :
    ¬Apart ⟨.FAT_TREE, rows, cols, uni⟩ src dst (getFatTreeHops src dst) := by
  rintro ⟨a, b, ha, hb, hdist⟩
  have hapart : Apart ⟨.FAT_TREE, rows, cols, uni⟩ src dst _ := apart_fatTree hs hd
  obtain ⟨a', b', ha', hb', hdist'⟩ := hapart
  obtain rfl : a = a' := Option.some.inj (ha.symm.trans ha')
  obtain rfl : b = b' := Option.some.inj (hb.symm.trans hb')
  have heq := hdist.unique hdist'
  rw [getFatTreeHops, lcaLevel_of_ne hne] at heq
  omega

end TreeHops

/-! ## Every topology -/

/-- **Counted hops are the hops the network takes, but on the fat tree.** For every size and any two endpoints, the
links crossed (apart, on the trees) are `getHopCount` of them exactly when the topology is not `FAT_TREE`. -/
theorem countsHops_iff (net : GarnetNetwork) {src dst : Nat} (hs : src < net.numNodes) (hd : dst < net.numNodes)
    (hne : src ≠ dst) : net.CountsHops src dst ↔ net.topology ≠ .FAT_TREE := by
  obtain ⟨topology, rows, cols, uni⟩ := net
  unfold CountsHops getHopCount
  rw [if_neg hne]
  cases topology with
  | MESH_2D => exact iff_of_true (takes_mesh hs hd) nofun
  | TORUS_2D => exact iff_of_true (takes_torus hs hd) nofun
  | RING => exact iff_of_true (takes_ring hs hd) nofun
  | FAT_TREE => exact iff_of_false (fatTree_miscounts hs hd hne) (not_not_intro rfl)
  | H_TREE => exact iff_of_true (apart_hTree hs hd) nofun

/-- Two endpoints on one leaf router of a fat tree: no link between them, and two are counted. -/
theorem fatTree_siblings : (⟨.FAT_TREE, 1, 2, false⟩ : GarnetNetwork).Apart 0 1 0 ∧
    (⟨.FAT_TREE, 1, 2, false⟩ : GarnetNetwork).getHopCount 0 1 = 2 ∧
      ¬(⟨.FAT_TREE, 1, 2, false⟩ : GarnetNetwork).CountsHops 0 1 := by
  have hsame : lcaLevel (0 / 2) (1 / 2) = 0 := by simp [lcaLevel]
  have hapart : Apart ⟨.FAT_TREE, 1, 2, false⟩ 0 1 (2 * lcaLevel (0 / 2) (1 / 2)) := apart_fatTree (by decide) (by decide)
  have hmiss : ¬Apart ⟨.FAT_TREE, 1, 2, false⟩ 0 1 (getFatTreeHops 0 1) :=
    fatTree_miscounts (by decide) (by decide) (by decide)
  rw [hsame] at hapart
  exact ⟨hapart, by simp [getHopCount, getFatTreeHops, lcaLevel], hmiss⟩

/-- A ring of four: from 0 to 3 over the wrap link. -/
theorem countsHops_iff_ring : (⟨.RING, 1, 4, false⟩ : GarnetNetwork).CountsHops 0 3 :=
  (countsHops_iff ⟨.RING, 1, 4, false⟩ (by decide) (by decide) (by decide)).mpr (by decide)

end GarnetNetwork

end Pimid.Garnet
