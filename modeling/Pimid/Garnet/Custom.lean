import Pimid.Garnet.Tables

/-!
# Topologies from a file

`buildFromFile` makes the network of a `CUSTOM` topology file: its routers and links,
and where the links are both directions of a tree rooted at router 0, tree routers
and port names that say up or down. The statistics wrapper reads the same file with a
parser of its own and searches its own adjacency lists for hop counts.

The two readings differ in two ways. An `int` line before its routers are announced is
a link to the builder and nothing to the wrapper. And without an `ext` line the builder
attaches the endpoints round the routers, the wrapper takes an endpoint's number for
its router's.
-/

namespace Pimid.Garnet

/-- The lines of a topology file that matter here. -/
inductive TopoLine where
  | routers (n : Nat)
  | endpoints (n : Nat)
  | ext (endpoint router : Nat)
  | int (src dst : Nat)
  | rlevel (router : Nat) (level : Int)
  | bus (level : Int)

/-- What a reader keeps of a file: `ext` lines are endpoint and router, `int` lines source and target, `rlevel` lines router
and level, `bus` lines levels. Absent, `routers` and `endpoints` are 0. The builder and the wrapper have a parser each, and
the wrapper's drops the `int` lines before `routers`. -/
structure TopoParsed where
  numRouters : Nat
  numEndpoints : Nat
  extEntries : List (Nat × Nat)
  intEntries : List (Nat × Nat)
  routerLevel : List (Nat × Int) := []
  busLevels : List Int := []

namespace TopoParsed

/-! ## The builder -/

def topoLine (t : TopoParsed) : TopoLine → TopoParsed
  | .routers n => { t with numRouters := n }
  | .endpoints n => { t with numEndpoints := n }
  | .ext ep rt => { t with extEntries := t.extEntries ++ [(ep, rt)] }
  | .int s d => { t with intEntries := t.intEntries ++ [(s, d)] }
  | .rlevel r lv => { t with routerLevel := t.routerLevel ++ [(r, lv)] }
  | .bus lv => { t with busLevels := t.busLevels ++ [lv] }

def topoParse (lines : List TopoLine) : TopoParsed :=
  lines.foldl topoLine ⟨0, 0, [], [], [], []⟩

def endpoints (f : TopoParsed) : Nat :=
  if f.numEndpoints = 0 then f.numRouters else f.numEndpoints

def undirectedAdj (f : TopoParsed) (u : Nat) : List Nat :=
  (f.intEntries.filter (·.1 == u)).map (·.2)

def inRange (f : TopoParsed) : Bool :=
  f.intEntries.all fun e => e.1 < f.numRouters && e.2 < f.numRouters

/-- The search from the root. -/
def bfs (f : TopoParsed) : Bfs Nat :=
  Bfs.run f.undirectedAdj f.numRouters (Bfs.init 0)

def isTree (f : TopoParsed) : Bool :=
  f.inRange && f.bfs.visited == f.numRouters && f.intEntries.length == (f.numRouters - 1) * 2

def depth (f : TopoParsed) (r : Nat) : Option Nat :=
  if f.isTree then f.bfs.dist r else none

/-- The names of the ports of the `i`-th `int` line. -/
def portNames (f : TopoParsed) (e : Nat × Nat) (i : Nat) : PortDirection × PortDirection :=
  match f.depth e.1, f.depth e.2 with
  | some a, some b => if a ≠ b then (if b > a then (.Down, .Up) else (.Up, .Down)) else (.Port i, .Port i)
  | _, _ => (.Port i, .Port i)

def intLink (f : TopoParsed) (e : Nat × Nat) (i : Nat) : IntLink :=
  ⟨e.1, e.2, (f.portNames e i).1, (f.portNames e i).2⟩

def buildFromFile (f : TopoParsed) : Topology where
  numRouters := f.numRouters
  extLinks := if f.extEntries.isEmpty then roundRobin f.endpoints f.numRouters else f.extEntries
  intLinks := f.intEntries.zipIdx.map fun e => f.intLink e.1 e.2

/-! ## The wrapper -/

/-- `routers` resizes the adjacency lists, and an `int` line is kept if the lists so far have both its ends. -/
def customLine (t : TopoParsed) : TopoLine → TopoParsed
  | .routers n => { t with numRouters := n, intEntries := t.intEntries.filter (·.1 < n) }
  | .int s d => if s < t.numRouters ∧ d < t.numRouters then { t with intEntries := t.intEntries ++ [(s, d)] } else t
  | .bus _ => t
  | line => t.topoLine line

def parseCustomTopologyFile (lines : List TopoLine) : TopoParsed :=
  lines.foldl customLine ⟨0, 0, [], [], [], []⟩

/-- A line with a router there is not is skipped. -/
def customAdj (f : TopoParsed) (u : Nat) : List Nat :=
  (f.intEntries.filter fun e => e.1 < f.numRouters && e.2 < f.numRouters && e.1 == u).map (·.2)

/-- A later line replaces an earlier one. -/
def epToRouter (f : TopoParsed) : Std.TreeMap Nat Nat :=
  Std.TreeMap.ofList f.extEntries

def getCustomHops (f : TopoParsed) (src dst : Nat) : Nat :=
  let s := f.epToRouter[src]?.getD src
  let d := f.epToRouter[dst]?.getD dst
  if f.numRouters = 0 ∨ f.numRouters ≤ s ∨ f.numRouters ≤ d then 1
  else (Bfs.search f.customAdj d f.numRouters (Bfs.init s)).getD f.numRouters

/-- The lines name routers there are, at least one (`topoParse` refuses none), and attach no endpoint twice. -/
structure WellFormed (f : TopoParsed) : Prop where
  pos : 0 < f.numRouters
  int_lt : ∀ e ∈ f.intEntries, e.1 < f.numRouters ∧ e.2 < f.numRouters
  ext_lt : ∀ e ∈ f.extEntries, e.2 < f.numRouters
  attached : (f.extEntries.map (·.1)).Nodup

/-! ## The links of the file -/

section Links

variable {f : TopoParsed}

theorem mem_intLinks {l : IntLink} : l ∈ f.buildFromFile.intLinks ↔ ∃ i e, f.intEntries[i]? = some e ∧ l = f.intLink e i := by
  unfold buildFromFile
  rw [List.mem_map]
  constructor
  · intro h
    obtain ⟨⟨e, i⟩, he, rfl⟩ := h
    exact ⟨i, e, List.mem_zipIdx_iff_getElem?.mp he, rfl⟩
  · intro h
    obtain ⟨i, e, he, rfl⟩ := h
    exact ⟨(e, i), List.mem_zipIdx_iff_getElem?.mpr he, rfl⟩

theorem mem_intEntries_of_mem {l : IntLink} (hl : l ∈ f.buildFromFile.intLinks) : (l.src, l.dst) ∈ f.intEntries := by
  obtain ⟨i, e, he, rfl⟩ := mem_intLinks.mp hl
  exact List.mem_of_getElem? he

theorem exists_intLink {a b : Nat} (h : (a, b) ∈ f.intEntries) :
    ∃ l ∈ f.buildFromFile.intLinks, l.src = a ∧ l.dst = b := by
  obtain ⟨i, hi⟩ := List.mem_iff_getElem?.mp h
  exact ⟨_, mem_intLinks.mpr ⟨i, (a, b), hi, rfl⟩, rfl, rfl⟩

theorem lists_undirectedAdj (f : TopoParsed) :
    Bfs.Lists IntLink.src IntLink.dst f.buildFromFile.intLinks f.undirectedAdj := by
  intro u v
  unfold undirectedAdj
  constructor
  · intro h
    obtain ⟨⟨a, b⟩, he, rfl⟩ := List.mem_map.mp h
    obtain ⟨he, hu⟩ := List.mem_filter.mp he
    obtain ⟨l, hl, hs, hd⟩ := exists_intLink he
    exact ⟨l, hl, hs.trans (beq_iff_eq.mp hu), hd⟩
  · intro h
    obtain ⟨l, hl, rfl, rfl⟩ := h
    exact List.mem_map.mpr ⟨_, List.mem_filter.mpr ⟨mem_intEntries_of_mem hl, beq_self_eq_true _⟩, rfl⟩

theorem WellFormed.customAdj_eq (hwf : f.WellFormed) : f.customAdj = f.undirectedAdj := by
  funext u
  unfold customAdj undirectedAdj
  refine congrArg _ (List.filter_congr fun e he => ?_)
  obtain ⟨h₁, h₂⟩ := hwf.int_lt e he
  rw [decide_eq_true h₁, decide_eq_true h₂]
  rfl

theorem WellFormed.dst_mem (hwf : f.WellFormed) : ∀ l ∈ f.buildFromFile.intLinks, l.dst ∈ List.range f.numRouters :=
  fun _ hl => List.mem_range.mpr (hwf.int_lt _ (mem_intEntries_of_mem hl)).2

theorem WellFormed.buildFromFile (hwf : f.WellFormed) : f.buildFromFile.WellFormed where
  src_lt l hl := (hwf.int_lt _ (mem_intEntries_of_mem hl)).1
  dst_lt l hl := (hwf.int_lt _ (mem_intEntries_of_mem hl)).2
  ext_lt x hx := by
    unfold TopoParsed.buildFromFile at hx ⊢
    dsimp only at hx ⊢
    split at hx
    · obtain ⟨i, -, rfl⟩ := List.mem_map.mp hx
      exact Nat.mod_lt _ hwf.pos
    · exact hwf.ext_lt x hx
  attached := by
    unfold TopoParsed.buildFromFile
    dsimp only
    split
    · unfold roundRobin
      rw [List.map_map]
      exact (List.map_id _).symm ▸ List.nodup_range
    · exact hwf.attached

theorem WellFormed.search_customAdj_iff (hwf : f.WellFormed) {a b n : Nat} (ha : a < f.numRouters) :
    Bfs.search f.customAdj b f.numRouters (Bfs.init a) = some n ↔
      IsDist IntLink.src IntLink.dst f.buildFromFile.intLinks a b n := by
  rw [hwf.customAdj_eq]
  refine Bfs.search_spec (lists_undirectedAdj f) List.nodup_range hwf.dst_mem (Bfs.ready_init a)
    (Bfs.counted_init List.nodup_range (List.mem_range.mpr ha)) ?_ fun hlabel => ?_
  · rw [Bfs.todo_init List.nodup_range (List.mem_range.mpr ha), List.length_range]
  · by_cases hba : b = a
    · exact List.mem_singleton.mpr hba
    · have : Function.update (fun _ => none) a (some 0) b ≠ (none : Option Nat) := hlabel
      rw [Function.update_of_ne hba] at this
      exact absurd rfl this

theorem WellFormed.search_customAdj (hwf : f.WellFormed) {a b n : Nat} (ha : a < f.numRouters)
    (hd : IsDist IntLink.src IntLink.dst f.buildFromFile.intLinks a b n) :
    Bfs.search f.customAdj b f.numRouters (Bfs.init a) = some n :=
  (hwf.search_customAdj_iff ha).mpr hd

end Links

/-! ## The two readings -/

section Readings

variable {lines : List TopoLine}

/-- The two readings differ in the links only, of which the wrapper has some. -/
theorem readings (lines : List TopoLine) :
    (parseCustomTopologyFile lines).numRouters = (topoParse lines).numRouters ∧
      (parseCustomTopologyFile lines).extEntries = (topoParse lines).extEntries ∧
      (parseCustomTopologyFile lines).intEntries ⊆ (topoParse lines).intEntries := by
  induction lines using List.reverseRecOn with
  | nil => exact ⟨rfl, rfl, List.Subset.refl _⟩
  | append_singleton lines line ih =>
    obtain ⟨hrouters, hext, hint⟩ := ih
    unfold parseCustomTopologyFile topoParse at *
    rw [List.foldl_append, List.foldl_append, List.foldl_cons, List.foldl_cons, List.foldl_nil, List.foldl_nil]
    cases line with
    | routers n => exact ⟨rfl, hext, fun e he => hint (List.mem_of_mem_filter he)⟩
    | ext ep rt => exact ⟨hrouters, congrArg (· ++ [(ep, rt)]) hext, hint⟩
    | int s d =>
      rw [customLine]
      split
      · exact ⟨hrouters, hext, List.append_subset.mpr ⟨List.subset_append_of_subset_left _ hint, List.subset_append_right ..⟩⟩
      · exact ⟨hrouters, hext, List.subset_append_of_subset_left _ hint⟩
    | _ => exact ⟨hrouters, hext, hint⟩

theorem WellFormed.custom (hwf : (topoParse lines).WellFormed) : (parseCustomTopologyFile lines).WellFormed := by
  obtain ⟨hrouters, hext, hint⟩ := readings lines
  refine ⟨hrouters ▸ hwf.pos, fun e he => hrouters ▸ hwf.int_lt e (hint he), fun e he => ?_, hext ▸ hwf.attached⟩
  rw [hrouters]
  exact hwf.ext_lt e (hext ▸ he)

end Readings

/-! ## Hop counts -/

section Hops

variable {f : TopoParsed} {s d a b n : Nat}

/-- With the routers right, the hop count is the distance, or the number of routers where there is no way. -/
theorem WellFormed.getCustomHops_eq (hwf : f.WellFormed) (ha : f.epToRouter[s]?.getD s = a) (hb : f.epToRouter[d]?.getD d = b)
    (hs : a < f.numRouters) (ht : b < f.numRouters) (hn : n < f.numRouters) :
    f.getCustomHops s d = n ↔ IsDist IntLink.src IntLink.dst f.buildFromFile.intLinks a b n := by
  rw [← hwf.search_customAdj_iff hs]
  unfold getCustomHops
  dsimp only
  rw [ha, hb, if_neg (by omega)]
  cases Bfs.search f.customAdj b f.numRouters (Bfs.init a) with
  | none => exact ⟨fun h => absurd h (Nat.ne_of_gt hn), nofun⟩
  | some m => exact ⟨fun h => congrArg some h, fun h => Option.some.inj h⟩

theorem epToRouter_of_ext (hwf : f.WellFormed) (hext : f.extEntries ≠ []) (hs : (s, a) ∈ f.buildFromFile.extLinks) :
    f.epToRouter[s]? = some a := by
  have hlinks : f.buildFromFile.extLinks = f.extEntries := if_neg (by rw [List.isEmpty_iff]; exact hext)
  have := (Topology.getElem?_nodeToRouter hwf.buildFromFile).mpr hs
  unfold Topology.nodeToRouter at this
  rw [hlinks] at this
  exact this

theorem epToRouter_of_no_ext (hext : f.extEntries = []) : f.epToRouter[s]? = none := by
  unfold epToRouter
  rw [hext]
  rfl

theorem router_of_no_ext (hext : f.extEntries = []) (hs : (s, a) ∈ f.buildFromFile.extLinks) : a = s % f.numRouters := by
  have hlinks : f.buildFromFile.extLinks = roundRobin f.endpoints f.numRouters := if_pos (by rw [hext]; rfl)
  rw [hlinks] at hs
  obtain ⟨i, -, hi⟩ := List.mem_map.mp hs
  obtain ⟨rfl, rfl⟩ := Prod.mk.inj hi
  rfl

/-- **Hop counts of a file.** They are distances where the wrapper's links give them, unless the file leaves the attachment
to the builder and an endpoint's number is no router's; then the count is 1, right or not. -/
theorem getCustomHops_iff {lines : List TopoLine} (hwf : (topoParse lines).WellFormed)
    (hs : (s, a) ∈ (topoParse lines).buildFromFile.extLinks) (ht : (d, b) ∈ (topoParse lines).buildFromFile.extLinks)
    (hd : IsDist IntLink.src IntLink.dst (topoParse lines).buildFromFile.intLinks a b n) :
    (parseCustomTopologyFile lines).getCustomHops s d = n ↔
      if (topoParse lines).extEntries ≠ [] ∨ (s < (topoParse lines).numRouters ∧ d < (topoParse lines).numRouters) then
        IsDist IntLink.src IntLink.dst (parseCustomTopologyFile lines).buildFromFile.intLinks a b n
      else n = 1 := by
  have ha : a < (topoParse lines).numRouters := hwf.buildFromFile.ext_lt _ hs
  have hb : b < (topoParse lines).numRouters := hwf.buildFromFile.ext_lt _ ht
  have hn : n < (topoParse lines).numRouters := by
    have hlt := hd.lt_length hwf.dst_mem (List.mem_range.mpr ha)
    rwa [List.length_range] at hlt
  obtain ⟨hrouters, hext, -⟩ := readings lines
  have heps : (parseCustomTopologyFile lines).epToRouter = (topoParse lines).epToRouter := by rw [epToRouter, epToRouter, hext]
  rw [← hrouters] at ha hb hn
  by_cases hnone : (topoParse lines).extEntries = []
  · have hre := router_of_no_ext hnone hs
    have hrd := router_of_no_ext hnone ht
    by_cases hlt : s < (topoParse lines).numRouters ∧ d < (topoParse lines).numRouters
    · rw [Nat.mod_eq_of_lt hlt.1] at hre
      rw [Nat.mod_eq_of_lt hlt.2] at hrd
      rw [if_pos (.inr hlt)]
      exact hwf.custom.getCustomHops_eq (by rw [heps, epToRouter_of_no_ext hnone]; exact hre.symm)
        (by rw [heps, epToRouter_of_no_ext hnone]; exact hrd.symm) ha hb hn
    · rw [if_neg (not_or.mpr ⟨not_not.mpr hnone, hlt⟩), eq_comm]
      have hone : (parseCustomTopologyFile lines).getCustomHops s d = 1 := by
        unfold getCustomHops
        dsimp only
        rw [heps, epToRouter_of_no_ext hnone, epToRouter_of_no_ext hnone, hrouters]
        refine if_pos ?_
        show (topoParse lines).numRouters = 0 ∨ (topoParse lines).numRouters ≤ s ∨ (topoParse lines).numRouters ≤ d
        omega
      rw [hone]
  · rw [if_pos (.inl hnone)]
    exact hwf.custom.getCustomHops_eq (by rw [heps, epToRouter_of_ext hwf hnone hs]; rfl)
      (by rw [heps, epToRouter_of_ext hwf hnone ht]; rfl) ha hb hn

end Hops

/-- **Table routing delivers along shortest paths**, over any links, whatever `lookupRoutingTable` chooses at each
router; and the hop count of a `CUSTOM` file is the length of the way where the `int` lines the wrapper keeps give it, unless
the file has no `ext` line and the number of one of the endpoints is not a router's. -/
theorem table_routing (t : Topology) (lines : List TopoLine) :
    (∀ {r d home : Nat}, t.WellFormed → (d, home) ∈ t.extLinks →
      (∃ path, IsWalk IntLink.src IntLink.dst t.intLinks r home path) →
      ∃ n, IsDist IntLink.src IntLink.dst t.intLinks r home n ∧ ∀ (ordered : Bool) (rand : Nat → Nat) (fuel k : Nat),
        n < fuel → ∃ path, t.deliver d ordered rand fuel k r = some (path, d) ∧ path.length = n) ∧
    ∀ {s d a b n : Nat}, (topoParse lines).WellFormed → (s, a) ∈ (topoParse lines).buildFromFile.extLinks →
      (d, b) ∈ (topoParse lines).buildFromFile.extLinks →
      IsDist IntLink.src IntLink.dst (topoParse lines).buildFromFile.intLinks a b n →
      ((parseCustomTopologyFile lines).getCustomHops s d = n ↔
        if (topoParse lines).extEntries ≠ [] ∨ (s < (topoParse lines).numRouters ∧ d < (topoParse lines).numRouters) then
          IsDist IntLink.src IntLink.dst (parseCustomTopologyFile lines).buildFromFile.intLinks a b n
        else n = 1) := by
  refine ⟨fun hwf hhome hreach => ?_, getCustomHops_iff⟩
  obtain ⟨path, hpath⟩ := hreach
  obtain ⟨n, hn⟩ := exists_isDist hpath
  refine ⟨n, hn, fun ordered rand fuel k hfuel => ?_⟩
  obtain ⟨path, hdel, hlen, -⟩ := Topology.deliver_spec hwf hhome hn ordered rand hfuel
  exact ⟨path, hdel, hlen⟩

/-- Two routers, four endpoints, no `ext` line: endpoints 0 and 2 share router 0, and count a hop. And two routers announced
after their link: the endpoints are a link apart, and count two. -/
theorem hop_on_one_router :
    (¬(parseCustomTopologyFile [.routers 2, .endpoints 4, .int 0 1, .int 1 0]).getCustomHops 0 2 = 0 ∧
      (0, 0) ∈ (topoParse [.routers 2, .endpoints 4, .int 0 1, .int 1 0]).buildFromFile.extLinks ∧
      (2, 0) ∈ (topoParse [.routers 2, .endpoints 4, .int 0 1, .int 1 0]).buildFromFile.extLinks ∧
      IsDist IntLink.src IntLink.dst (topoParse [.routers 2, .endpoints 4, .int 0 1, .int 1 0]).buildFromFile.intLinks 0 0 0) ∧
    ¬(parseCustomTopologyFile [.endpoints 2, .int 0 1, .int 1 0, .ext 0 0, .ext 1 1, .routers 2]).getCustomHops 0 1 = 1 ∧
      topoParse [.endpoints 2, .int 0 1, .int 1 0, .ext 0 0, .ext 1 1, .routers 2] =
        ⟨2, 2, [(0, 0), (1, 1)], [(0, 1), (1, 0)], [], []⟩ :=
  ⟨⟨by decide, by decide, by decide, ⟨[], rfl, rfl⟩, fun _ _ => Nat.zero_le _⟩, by decide, rfl⟩

/-- Across the one link of two routers. -/
theorem table_routing_two_routers :
    (∃ n, ∀ (ordered : Bool) (rand : Nat → Nat) (fuel k : Nat), n < fuel → ∃ path,
      (topoParse [.routers 2, .int 0 1, .int 1 0]).buildFromFile.deliver 1 ordered rand fuel k 0 = some (path, 1) ∧
        path.length = n) ∧
      (parseCustomTopologyFile [.routers 2, .int 0 1, .int 1 0]).getCustomHops 0 0 = 0 := by
  have hwf : (topoParse [.routers 2, .int 0 1, .int 1 0]).WellFormed := ⟨by decide, by decide, by decide, by decide⟩
  have h := table_routing (topoParse [.routers 2, .int 0 1, .int 1 0]).buildFromFile [.routers 2, .int 0 1, .int 1 0]
  obtain ⟨n, -, hn⟩ := h.1 hwf.buildFromFile (r := 0) (by decide : (1, 1) ∈ _) ⟨[_], (List.mem_cons_self .. : _ ∈ _), rfl, rfl⟩
  refine ⟨⟨n, hn⟩, (h.2 hwf (by decide : (0, 0) ∈ _) (by decide) ⟨⟨[], rfl, rfl⟩, fun _ _ => Nat.zero_le _⟩).mpr ?_⟩
  rw [if_pos (.inr (by decide))]
  exact ⟨⟨[], rfl, rfl⟩, fun _ _ => Nat.zero_le _⟩

end TopoParsed

end Pimid.Garnet
