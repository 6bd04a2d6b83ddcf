import Pimid.Htree.Dies
import Pimid.Htree.Coverage

/-!
# The coverage law

The placement tree covers the memory: with the plain tree at every placement level, and
with a mesh, ring or crossbar inside each die.
-/

namespace Pimid.Htree

variable {P : Params} {b : Build} {T D : Set (List Nat)} {homes : List Nat}

/-! ## The passes together -/

/-- Everything but the tables of routers, links and grids is as in the empty tree. -/
structure Fresh (P : Params) (t : SparseHTree) : Prop where
  dims : t.dims = P.d ∧ t.peLevel = P.peLevel ∧ t.topLevel = P.top
  plain : t.fullLeaves = P.fullLeaves ∧ t.unitDiv = 1
  empty : t.abstractOf = ∅ ∧ t.coverageOf = ∅
  fabric : t.fabricKind = (emptyBuild P).t.fabricKind ∧ t.gridW = (emptyBuild P).t.gridW
    ∧ t.gridH = (emptyBuild P).t.gridH

theorem Placing.fresh (h : Placing P homes b T) : Fresh P b.t := by
  have hrest := h.rest b.t.routerOf b.t.intLinks b.t.extLinks b.t.peOfLeaf
  have he : b.t = { (emptyBuild P).t with
      routerOf := b.t.routerOf, intLinks := b.t.intLinks, extLinks := b.t.extLinks, peOfLeaf := b.t.peOfLeaf } := hrest
  rw [he]
  exact ⟨⟨rfl, rfl, rfl⟩, ⟨rfl, rfl⟩, ⟨rfl, rfl⟩, ⟨rfl, rfl, rfl⟩⟩

theorem OnLeaves.frame {b' : Build} (h : OnLeaves P homes b.t) (f : Frame b b') : OnLeaves P homes b'.t := by
  refine ⟨fun {r p} hp => ?_, fun {p x} hx => ?_⟩
  · rw [f.rest] at hp
    obtain ⟨x, hx, hr⟩ := h.of hp
    exact ⟨x, hx, f.routers hr⟩
  · obtain ⟨r, p', hr, hp⟩ := h.at' hx
    refine ⟨r, p', f.routers hr, ?_⟩
    rw [f.rest]
    exact hp

/-- The channel pass completes the routers of the elements' walks. -/
theorem routed_channels (hp : P.Placed) (hfull : P.fullLeaves = false) (htop : P.gridded = true → 3 ≤ P.top)
    (hh : ∀ h ∈ homes, h < P.units) (hs : Shape P b T D) (hl : OnLeaves P homes b.t) (hf : Fresh P b.t)
    (htree : ∀ q, q ∈ T ↔ q = [] ∨ ∃ h ∈ homes, q <+: (P.unitPath h).take P.stop) :
    ∃ T', Routed P homes (Build.materialiseChannels P b) T' D ∧ Frame b (Build.materialiseChannels P b) := by
  obtain ⟨T', h⟩ := materialiseChannels_spec hs
  have hdepth := depth_eq hp
  have hstop := stop_le_depth htop
  have hshort : ∀ {q}, q ∈ T → q.length ≤ P.stop := by
    intro q hq
    rcases (htree q).mp hq with rfl | ⟨x, hx, hpre⟩
    · exact Nat.zero_le _
    · have := hpre.length_le
      rw [List.length_take] at this
      omega
  refine ⟨T', ⟨h.shape, hl.frame h.frame, ?_, ?_, ?_, ?_, ?_⟩, h.frame⟩
  · intro w _ hlen hno c hc
    rcases h.new _ hc with hc | ⟨p, c', he, hpT, _⟩
    · have := hshort hc
      rw [List.length_append, List.length_singleton] at this
      omega
    · -- the router above the new channel was there, so it is a home
      obtain ⟨rfl, -⟩ := List.append_inj' he rfl
      rcases (htree w).mp hpT with rfl | ⟨x, hx, hpre⟩
      · have hp : P.leafLevel < P.top := hp
        rw [List.length_nil] at hlen
        omega
      · refine hno x hx (List.IsPrefix.eq_of_length ?_ ?_).symm
        · exact hpre.trans (List.take_prefix _ _)
        · rw [hlen, length_unitPath hp (hh x hx)]
  · intro q hq
    rcases h.new q hq with hq | ⟨p, c, rfl, _, ha⟩
    · have := hshort hq
      omega
    · have := ha.2
      rw [List.length_append, List.length_singleton]
      omega
  · rw [h.frame.rest]
    exact hf.dims
  · rw [h.frame.rest]
    exact ⟨hf.plain.1.trans hfull, hf.plain.2⟩
  · rw [h.frame.rest]
    exact hf.empty

theorem buildRouters_routed (hp : P.Placed) (hfull : P.fullLeaves = false) (hg : P.gridded = false)
    (hh : ∀ h ∈ homes, h < P.units) : ∃ T, Routed P homes (buildRouters P homes) T ∅ := by
  have htop : P.gridded = true → 3 ≤ P.top := fun h => absurd h (by simp [hg])
  obtain ⟨T, h⟩ := placePEs_placing hfull hp htop hh
  obtain ⟨T', hR, _⟩ := routed_channels hp hfull htop hh h.shape (h.leaves hg) h.fresh h.tree
  refine ⟨T', ?_⟩
  simp only [buildRouters, hfull, hg, Bool.false_eq_true, if_false]
  exact hR

/-! ## The plain tree covers the memory -/

/-- The parameters of a tree without in-die fabric, from the system down. -/
def plainTree (d : Dims) (peLevel : Nat) (layerW layerLat : Nat → Nat) : Params where
  d := d
  peLevel := peLevel
  layerW := layerW
  layerLat := layerLat
  fab := none
  topLevel := 6
  fullLeaves := false

theorem plainTree_placed (d : Dims) (peLevel : Nat) (layerW layerLat : Nat → Nat) :
    (plainTree d peLevel layerW layerLat).Placed := by
  have := leafLevel_le (plainTree d peLevel layerW layerLat)
  show (plainTree d peLevel layerW layerLat).leafLevel < 6
  omega

theorem plainTree_units (d : Dims) (peLevel : Nat) (layerW layerLat : Nat → Nat) :
    (plainTree d peLevel layerW layerLat).units = rootFanout d peLevel * orgsBelow d 5 peLevel :=
  units_eq (plainTree_placed d peLevel layerW layerLat)

/-- **Topology coverage and routing agree on the plain tree.** Every unit has an
endpoint: an element that lives there, or an abstract endpoint, whose coverage is the
number of units that route to it. -/
theorem buildSparseHTree_covers (d : Dims) (peLevel : Nat) (layerW layerLat : Nat → Nat) (homes : List Nat)
    (hh : ∀ h ∈ homes, h < rootFanout d peLevel * orgsBelow d 5 peLevel) :
    let t := buildSparseHTree (plainTree d peLevel layerW layerLat) homes
    let U := rootFanout d peLevel * orgsBelow d 5 peLevel
    t.numPEs = homes.length
      ∧ (∀ u < U, ∃ e, t.endpointForUnit u = some e ∧ e < t.totalEndpoints
        ∧ (u ∈ homes → homes[e]? = some u)
        ∧ (∀ p, homes[p]? = some u → (∀ p', homes[p']? = some u → p' = p) → e = p)
        ∧ (u ∉ homes → t.numPEs ≤ e))
      ∧ (∀ e, t.numPEs ≤ e → e < t.totalEndpoints →
        t.coverageOf[e]? = some ((Finset.range U).filter fun u => t.endpointForUnit u = some e).card)
      ∧ t.coveredOrgs = U := by
  intro t U
  have hp := plainTree_placed d peLevel layerW layerLat
  have hU : (plainTree d peLevel layerW layerLat).units = U := plainTree_units d peLevel layerW layerLat
  rw [← plainTree_units d peLevel layerW layerLat] at hh
  obtain ⟨T, hR⟩ := buildRouters_routed hp rfl rfl hh
  have hF := buildSparseHTree_finished hR
  refine ⟨hF.numPEs, fun u hu => ?_, fun e he he' => ?_, ?_⟩
  · have hlt : ∀ {p}, homes[p]? = some u → p < t.totalEndpoints := by
      intro p hp'
      have := (List.getElem?_eq_some_iff.mp hp').1
      have hn : t.numPEs = homes.length := hF.numPEs
      show p < t.numPEs + t.numAbstract
      omega
    by_cases hm : u ∈ homes
    · obtain ⟨p, hend, hpe⟩ := hR.home_endpoint hp hh hF hm
      exact ⟨p, hend, hlt hpe, fun _ => hpe, fun p' _ huniq => huniq p hpe, fun hno => absurd hm hno⟩
    · obtain ⟨e, r, hend, ha⟩ := hR.other_endpoint hp hh hF (by rw [hU]; exact hu) hm
      obtain ⟨h₁, h₂⟩ := hF.range ha
      refine ⟨e, hend, h₂, fun hin => absurd hin hm, fun p hp' _ => ?_, fun _ => h₁⟩
      exact absurd (List.mem_of_getElem? hp') hm
  · rw [← hU]
    exact hR.served_eq_coverage hp hh hF he he'
  · rw [← hU]
    exact hR.coveredOrgs_eq hp hh hF

/-- The hypothesis at work: two channels of two banks, one element at unit 3 and two
that share unit 0. -/
theorem buildSparseHTree_covers_three_elements :
    (∀ h ∈ [3, 0, 0], h < rootFanout ⟨2, 1, 2, 1, 1, 1⟩ 1 * orgsBelow ⟨2, 1, 2, 1, 1, 1⟩ 5 1)
      ∧ (buildSparseHTree (plainTree ⟨2, 1, 2, 1, 1, 1⟩ 1 (fun _ => 1) (fun _ => 1)) [3, 0, 0]).coveredOrgs
        = rootFanout ⟨2, 1, 2, 1, 1, 1⟩ 1 * orgsBelow ⟨2, 1, 2, 1, 1, 1⟩ 5 1 :=
  ⟨by decide, (buildSparseHTree_covers ⟨2, 1, 2, 1, 1, 1⟩ 1 (fun _ => 1) (fun _ => 1) [3, 0, 0] (by decide)).2.2.2⟩

/-! ## Channels above the rank, and channels in the chip slot -/

/-- The channels that a part's units are numbered over: one where the channels are the chips. -/
def numberedChannels (d : Dims) : Nat :=
  let chanFolded := d.N > 1 ∧ d.CpR = d.N
  if chanFolded then 1 else d.N

theorem rootFanout_eq {d : Dims} (hN : 1 ≤ d.N) {peLevel : Nat} (hpe : peLevel < 5) :
    rootFanout d peLevel = numberedChannels d := by
  have hone : orOne d.N = d.N := by
    rw [orOne_eq]
    exact max_eq_right hN
  have hpos : ¬orgsBelow d 5 peLevel ≤ 0 := by
    rw [orgsBelow, prod_map_foldl, Nat.one_mul]
    exact Nat.not_le.mpr (List.prod_pos_iff_forall_pos_nat.mpr fun x hx => by
      obtain ⟨l, -, rfl⟩ := List.mem_map.mp hx
      exact childFanout_pos d l)
  rw [rootFanout, numberedChannels]
  simp only [childFanout, hone, if_neg hpos, hpe, and_true]

/-- **Coverage below the channel tier**: with the units numbered over the channels above the
rank, or over one channel where the channels are in the chip slot, the tree covers every
unit, and every unit has an endpoint. -/
theorem buildSparseHTree_numbered (d : Dims) (hN : 1 ≤ d.N) (peLevel : Nat) (hpe : peLevel < 5)
    (layerW layerLat : Nat → Nat) (homes : List Nat) (hh : ∀ h ∈ homes, h < numberedChannels d * orgsBelow d 5 peLevel) :
    let t := buildSparseHTree (plainTree d peLevel layerW layerLat) homes
    t.coveredOrgs = numberedChannels d * orgsBelow d 5 peLevel ∧
      ∀ u < numberedChannels d * orgsBelow d 5 peLevel, ∃ e, t.endpointForUnit u = some e ∧ e < t.totalEndpoints := by
  intro t
  have hp := plainTree_placed d peLevel layerW layerLat
  have hU := plainTree_units d peLevel layerW layerLat
  rw [rootFanout_eq hN hpe] at hU
  rw [← hU] at hh ⊢
  obtain ⟨T, hR⟩ := buildRouters_routed hp rfl rfl hh
  have hF := buildSparseHTree_finished hR
  refine ⟨hR.coveredOrgs_eq hp hh hF, fun u hu => ?_⟩
  by_cases hm : u ∈ homes
  · obtain ⟨p, hend, hpe⟩ := hR.home_endpoint hp hh hF hm
    have hlt := (List.getElem?_eq_some_iff.mp hpe).1
    have hn : t.numPEs = homes.length := hF.numPEs
    refine ⟨p, hend, ?_⟩
    show p < t.numPEs + t.numAbstract
    omega
  · obtain ⟨e, r, hend, ha⟩ := hR.other_endpoint hp hh hF hu hm
    exact ⟨e, hend, (hF.range ha).2⟩

/-- Two channels above ranks of four chips, elements in both. -/
theorem buildSparseHTree_numbered_two_channels :
    (buildSparseHTree (plainTree ⟨2, 1, 2, 1, 4, 1⟩ 1 (fun _ => 1) (fun _ => 1)) [3, 9]).coveredOrgs = 16 :=
  (buildSparseHTree_numbered ⟨2, 1, 2, 1, 4, 1⟩ (by decide) 1 (by decide) (fun _ => 1) (fun _ => 1) [3, 9] (by decide)).1

/-- Two channels above ranks of two chips read as folded: numbered over both channels, the
units of the channel without an element have no endpoint. -/
theorem buildSparseHTree_folded_two_channels :
    let d : Dims := ⟨2, 1, 1, 1, 2, 1⟩
    let t := buildSparseHTree (plainTree d 1 (fun _ => 1) (fun _ => 1)) [0]
    d.N * orgsBelow d 5 1 = 4 ∧ t.coveredOrgs = 2 ∧ t.endpointForUnit 2 = none := by
  decide +kernel

/-! ## In-die fabrics keep the coverage law -/

theorem prod_dieFans (P : Params) : P.dieFans.prod = orgsBelow P.d 3 P.peLevel := by
  rw [Params.dieFans, List.prod_reverse, orgsBelow, prod_map_foldl, Nat.one_mul]

theorem buildDies_done (hp : P.Placed) (hg : P.gridded = true) (htop : 3 ≤ P.top)
    (hh : ∀ h ∈ homes, h < P.units) (hnodes : b.t.gridW * b.t.gridH = P.dieFans.prod)
    (h : Placing P homes b T) : DiesDone P homes b (Build.buildDies P b) T b.peOfDie.toList := by
  have hs : P.stop = P.top - 3 := if_pos hg
  have hdies := h.dies hg
  have hshort : ∀ {q}, q ∈ T → q.length ≤ P.stop := by
    intro q hq
    rcases (h.tree q).mp hq with rfl | ⟨x, hx, hpre⟩
    · exact Nat.zero_le _
    · have := hpre.length_le
      rw [List.length_take] at this
      omega
  have hstart : DiesDone P homes b b T [] := by
    have hempty : {d | ∃ x ∈ ([] : List (Nat × List (Nat × List Nat))), b.t.routerAt d = some x.1} = ∅ := by
      ext q
      simp
    refine ⟨by rw [hempty]; exact h.shape, id, fun {r p} hx => ?_, by simp, rfl, fun _ {r x} hx => ?_, ?_⟩
    · rw [hdies.none] at hx
      exact absurd hx (by simp)
    · have : b.t.dieExitOf.contains r = true := contains_eq_true_iff.mpr ⟨x, hx⟩
      rw [h.shape.exit] at this
      obtain ⟨_, hd, _⟩ := this
      exact absurd hd (by simp)
    · rw [hdies.links]
      simp
  have hall : ∀ (rest done : List (Nat × List (Nat × List Nat))) (b' : Build), b.peOfDie.toList = done ++ rest →
      DiesDone P homes b b' T done →
      DiesDone P homes b (rest.foldl (fun b kv => Build.buildDie P b kv.1 kv.2) b') T (done ++ rest) := by
    intro rest
    induction rest with
    | nil => intro done b' _ hd; simpa using hd
    | cons x rest ih =>
      intro done b' hl hd
      have hx : b.peOfDie[x.1]? = some x.2 := by
        refine Std.TreeMap.mem_toList_iff_getElem?_eq_some.mp ?_
        rw [hl]
        simp
      obtain ⟨d, hr, hlen, hpes⟩ := hdies.of hx
      have hnew : x.1 ∉ done.map (·.1) := by
        have hnd : (b.peOfDie.toList.map (·.1)).Nodup := by
          rw [Std.TreeMap.map_fst_toList_eq_keys]
          exact Std.TreeMap.nodup_keys
        rw [hl, List.map_append, List.map_cons, List.nodup_append] at hnd
        intro hm
        exact hnd.2.2 _ hm _ List.mem_cons_self rfl
      have hdT : d ∈ T := by
        rcases (h.shape.live d).mp ⟨_, hr⟩ with hm | ⟨_, hm, _⟩
        · exact hm
        · exact absurd hm (by simp)
      have hno : ∀ c, d ++ [c] ∉ T := fun c hc => by
        have := hshort hc
        rw [List.length_append, List.length_singleton] at this
        omega
      have hstep := hd.buildDie hp hg htop hh hnew hdT hr (by omega) hno hnodes hpes
      have := ih (done ++ [x]) _ (by rw [hl]; simp) hstep
      simpa using this
  simpa [Build.buildDies] using hall b.peOfDie.toList [] b rfl hstart

theorem buildRouters_gridded (hp : P.Placed) (hfull : P.fullLeaves = false) (hg : P.gridded = true)
    (htop : 3 ≤ P.top) (hh : ∀ h ∈ homes, h < P.units)
    (hnodes : (emptyBuild P).t.gridW * (emptyBuild P).t.gridH = P.dieFans.prod) :
    ∃ T D, Routed P homes (buildRouters P homes) T D
      ∧ (∀ h ∈ homes, (P.unitPath h).take P.stop ∈ D)
      ∧ ((buildRouters P homes).t.fabricKind = .crossbar → ∀ {r x : Nat},
        (buildRouters P homes).t.dieExitOf[r]? = some x → Build.isHub (buildRouters P homes).t x = true)
      ∧ (∀ l ∈ (buildRouters P homes).t.extLinks, ∃ q, (buildRouters P homes).t.routerAt q = some l.b)
      ∧ (buildRouters P homes).t.fabricKind = (emptyBuild P).t.fabricKind := by
  obtain ⟨T, h⟩ := placePEs_placing hfull hp (fun _ => htop) hh
  have hf := h.fresh
  have hdone := buildDies_done hp hg htop hh (by rw [hf.fabric.2.1, hf.fabric.2.2]; exact hnodes) h
  have hdies := h.dies hg
  have hleaves : OnLeaves P homes (Build.buildDies P (Build.placePEs P (emptyBuild P) homes)).t := by
    refine ⟨hdone.of, fun {p x} hx => ?_⟩
    obtain ⟨r, l, _, hl, hm⟩ := hdies.at' hx
    exact hdone.at' (r, l) (Std.TreeMap.mem_toList_iff_getElem?_eq_some.mpr hl) _ hm x rfl hx
  have hfresh : Fresh P (Build.buildDies P (Build.placePEs P (emptyBuild P) homes)).t := by
    rw [hdone.rest]
    exact ⟨hf.dims, hf.plain, hf.empty, hf.fabric⟩
  obtain ⟨T', hR, hfr⟩ := routed_channels hp hfull (fun _ => htop) hh hdone.shape hleaves hfresh h.tree
  have hb : buildRouters P homes
      = Build.materialiseChannels P (Build.buildDies P (Build.placePEs P (emptyBuild P) homes)) := by
    simp only [buildRouters, hfull, hg, Bool.false_eq_true, if_false, if_true]
  rw [hb]
  refine ⟨T', _, hR, fun x hx => ?_, ?_, ?_, ?_⟩
  · obtain ⟨p, hp', rfl⟩ := List.getElem_of_mem hx
    obtain ⟨r, l, hr, hl, _⟩ := hdies.at' (List.getElem?_eq_getElem hp')
    exact ⟨(r, l), Std.TreeMap.mem_toList_iff_getElem?_eq_some.mpr hl, hr⟩
  · intro hc r x hx
    have hsame : Build.isHub (Build.materialiseChannels P
        (Build.buildDies P (Build.placePEs P (emptyBuild P) homes))).t
        = Build.isHub (Build.buildDies P (Build.placePEs P (emptyBuild P) homes)).t := by
      rw [hfr.rest]
      rfl
    rw [hsame]
    rw [hfr.rest] at hc hx
    exact hdone.hubs hc hx
  · intro l hl
    rw [hfr.rest] at hl
    obtain ⟨q, hq⟩ := hdone.links l hl
    exact ⟨q, hfr.routers hq⟩
  · rw [hfr.rest]
    exact hfresh.fabric.1

theorem take_unitPath (hp : P.Placed) (hg : P.gridded = true) (htop : 3 ≤ P.top) {u : Nat} (hu : u < P.units) :
    (P.unitPath u).take P.stop = digits (P.unitFans.take P.stop) (u / orgsBelow P.d 3 P.peLevel) := by
  have hpe := gridded_le hg
  have hleaf : P.leafLevel = P.peLevel := if_pos (by omega)
  have hs : P.stop = P.top - 3 := if_pos hg
  have hdrop : P.unitFans.drop P.stop = P.dieFans := by
    have hlen : P.top - P.peLevel - (P.top - 3) = 3 - P.peLevel := by omega
    have htake : (List.range' (P.peLevel + 1) (P.top - P.peLevel)).take (3 - P.peLevel)
        = List.range' (P.peLevel + 1) (3 - P.peLevel) := List.take_range'_of_length_ge (by omega)
    rw [Params.unitFans, hleaf, hs, List.drop_reverse, List.length_map, List.length_range', hlen, ← List.map_take,
      htake, Params.dieFans]
    refine congrArg List.reverse (List.map_congr_left fun l hl => fanout_of_le ?_)
    rw [List.mem_range'_1] at hl
    omega
  have hsplit : P.unitFans = P.unitFans.take P.stop ++ P.dieFans := by
    rw [← hdrop, List.take_append_drop]
  have hlen : (digits (P.unitFans.take P.stop) (u / P.dieFans.prod)).length = P.stop := by
    have := stop_lt_depth hg htop
    rw [length_digits, List.length_take, length_unitFans]
    omega
  have hu' : u < (P.unitFans.take P.stop ++ P.dieFans).prod := by
    rw [← hsplit]
    exact hu
  rw [unitPath_eq hp hu, ← prod_dieFans]
  conv_lhs => rw [hsplit]
  rw [digits_append _ _ hu', List.take_append_of_le_length (by omega)]
  exact List.take_of_length_le (by omega)

/-- The parameters of a tree with fabric `fab` inside each die, rooted at `topLevel`. -/
def griddedTree (d : Dims) (peLevel : Nat) (layerW layerLat : Nat → Nat) (fab : InDieFabric) (topLevel : Nat) :
    Params where
  d := d
  peLevel := peLevel
  layerW := layerW
  layerLat := layerLat
  fab := some fab
  topLevel := topLevel
  fullLeaves := false

/-- A router that carries neither an element nor an abstract endpoint. -/
def NoEndpoint (t : SparseHTree) (r : Nat) : Prop :=
  t.peOfLeaf[r]? = none ∧ t.abstractOf[r]? = none ∧ ∀ l ∈ t.extLinks, l.b ≠ r

theorem Routed.hub_noEndpoint {t : SparseHTree} (hR : Routed P homes b T D) (hF : Finished P homes b t)
    (hlinks : ∀ l ∈ b.t.extLinks, ∃ q, b.t.routerAt q = some l.b) {r : Nat} (hhub : Build.isHub b.t r = true) :
    NoEndpoint t r := by
  have habs : t.abstractOf[r]? = none := by
    by_contra hne
    obtain ⟨e, he⟩ := Option.ne_none_iff_exists'.mp hne
    obtain ⟨h₁, h₂⟩ := hF.range he
    obtain ⟨r', nd, f, hi, hf, ha, _⟩ := hF.own h₁ h₂
    obtain rfl := hF.inj he ha
    rcases hR.shape.owner hi with ⟨q, hq⟩ | ⟨_, rfl, hpe⟩
    · exact hR.shape.notHub hq hhub
    · have hleaf : P.leafLevel = P.peLevel := if_pos (by omega)
      unfold Build.fronts at hf
      dsimp only at hf
      rw [if_neg (fun h => h.2.2.2.1 hhub), if_pos (by omega)] at hf
      exact absurd hf (by simp)
  refine ⟨?_, habs, fun l hl he => ?_⟩
  · by_contra hne
    obtain ⟨p, hp⟩ := Option.ne_none_iff_exists'.mp hne
    rw [hF.elements] at hp
    obtain ⟨_, _, hr⟩ := hR.leaves.of hp
    exact hR.shape.notHub hr hhub
  · rcases hF.links l hl with hl | ⟨e, ha⟩
    · obtain ⟨q, hq⟩ := hlinks l hl
      exact hR.shape.notHub hq (he ▸ hhub)
    · rw [he, habs] at ha
      exact absurd ha (by simp)

theorem Routed.die_endpoint {t : SparseHTree} (hp : P.Placed) (hR : Routed P homes b T D)
    (hh : ∀ h ∈ homes, h < P.units) (hF : Finished P homes b t) (hstop : P.stop ≤ P.depth) {u : Nat}
    (hu : u < P.units) (hd : (P.unitPath u).take P.stop ∈ D) :
    ∃ e, t.endpointForUnit u = some e ∧ (∀ v < P.units, t.endpointForUnit v = some e → v = u)
      ∧ (homes[e]? = some u ∨ t.numPEs ≤ e ∧ t.coverageOf[e]? = some 1) := by
  have hlen := length_unitPath hp hu
  by_cases hm : u ∈ homes
  · obtain ⟨e, he, hpe⟩ := hR.home_endpoint hp hh hF hm
    refine ⟨e, he, fun v hv hev => ?_, .inl hpe⟩
    by_cases hmv : v ∈ homes
    · obtain ⟨e', he', hpe'⟩ := hR.home_endpoint hp hh hF hmv
      obtain rfl := Option.some.inj (he'.symm.trans hev)
      exact Option.some.inj (hpe'.symm.trans hpe)
    · obtain ⟨e', r, he', ha⟩ := hR.other_endpoint hp hh hF hv hmv
      obtain rfl := Option.some.inj (he'.symm.trans hev)
      have := (hF.range ha).1
      have := (List.getElem?_eq_some_iff.mp hpe).1
      have := hF.numPEs
      omega
  · -- the die has a router for the whole path
    obtain ⟨_, hdl, hpe, _⟩ := hR.shape.die hd
    have hsplit : P.unitPath u = (P.unitPath u).take P.stop ++ (P.unitPath u).drop P.stop :=
      (List.take_append_drop _ _).symm
    have hdie := hR.die_length hd
    have hvl : ((P.unitPath u).drop P.stop).length = 3 - P.peLevel := by
      rw [List.length_take, hlen] at hdie
      rw [List.length_drop, hlen]
      omega
    have hv := forall₂_dieFans hdl hpe hvl (by rw [← hsplit]; exact valid_unitPath hp hu)
    obtain ⟨r, hr⟩ := (hR.shape.live (P.unitPath u)).mpr (.inr ⟨_, hd, _, hv, hsplit⟩)
    rcases hR.leaf_endpoint hp hF hr hlen with ⟨p, hpe', _⟩ | ⟨_, e, ha, hend, hcov⟩
    · exact absurd (List.mem_of_getElem? (hR.home_of_leaf hp hh hF hu hr hpe')) hm
    · obtain ⟨e', r', he', ha'⟩ := hR.other_endpoint hp hh hF hu hm
      obtain rfl : e' = e := by
        rcases hR.endpointForUnit_lands hp hF hu with @⟨r'', hr'', hx⟩ | @⟨q, c, r'', hq, hD, hc, hn, _, _⟩
        · obtain rfl := Option.some.inj (hr.symm.trans hr'')
          exact Option.some.inj (he'.symm.trans (hx.trans hend))
        · exact absurd (hR.mem_of_routerAt hr hq hD hc) hn
      refine ⟨e', he', fun v hv' hev => ?_, .inr ⟨(hF.range ha).1, hcov⟩⟩
      rcases hR.served_cases hp hF hh hv' hr ha hev with h | ⟨_, _, c, hc, _⟩
      · exact unitPath_inj hp hv' hu h
      · have := hc.length_le
        rw [length_unitPath hp hv', List.length_append, List.length_singleton] at this
        omega

/-- **In-die fabrics keep the coverage law.** Every unit has an endpoint, every unit of a
die that holds an element has one to itself, a crossbar's hub has none, and the tree
covers the memory. -/
theorem buildSparseHTree_gridded_covers (d : Dims) {peLevel : Nat} (hpe : peLevel ≤ 2)
    (layerW layerLat : Nat → Nat) {fab : InDieFabric} (hkind : fab.kind ≠ .none)
    (hgrid : fab.gridW * fab.gridH = orgsBelow d 3 peLevel) {topLevel : Nat} (htop : 3 ≤ topLevel)
    (htop' : topLevel ≤ 6) (homes : List Nat)
    (hh : ∀ h ∈ homes, h < (griddedTree d peLevel layerW layerLat fab topLevel).fanout topLevel
      * orgsBelow d (topLevel - 1) peLevel) :
    let P := griddedTree d peLevel layerW layerLat fab topLevel
    let t := buildSparseHTree P homes
    let U := P.fanout topLevel * orgsBelow d (topLevel - 1) peLevel
    (∀ u < U, ∃ e, t.endpointForUnit u = some e ∧ e < t.totalEndpoints)
      ∧ (∀ u < U, (∃ h ∈ homes, h / orgsBelow d 3 peLevel = u / orgsBelow d 3 peLevel) →
        ∃ e, t.endpointForUnit u = some e ∧ (∀ v < U, t.endpointForUnit v = some e → v = u)
          ∧ (homes[e]? = some u ∨ t.numPEs ≤ e ∧ t.coverageOf[e]? = some 1))
      ∧ (fab.kind = .crossbar → ∀ chip hub : Nat, t.dieExitOf[chip]? = some hub → NoEndpoint t hub)
      ∧ t.coveredOrgs = U := by
  intro P t U
  have htopP : P.top = topLevel := if_neg (by show ¬ (topLevel < 1 ∨ topLevel > 6); omega)
  have hleaf : P.leafLevel = peLevel := if_pos (by show peLevel < 5; omega)
  have hp : P.Placed := by
    show P.leafLevel < P.top
    omega
  have hg : P.gridded = true := decide_eq_true ⟨hkind, hpe⟩
  have htop3 : 3 ≤ P.top := by omega
  have hU : P.units = U := by
    rw [units_eq hp, htopP]
    rfl
  have hnodes : (emptyBuild P).t.gridW * (emptyBuild P).t.gridH = P.dieFans.prod := by
    have hpos : 0 < orgsBelow d 3 peLevel := by
      rw [orgsBelow, prod_map_foldl, Nat.one_mul]
      refine List.prod_pos_iff_forall_pos_nat.mpr fun x hx => ?_
      obtain ⟨l, _, rfl⟩ := List.mem_map.mp hx
      exact childFanout_pos _ _
    have hw : 0 < fab.gridW := Nat.pos_of_mul_pos_right (hgrid ▸ hpos)
    have hh' : 0 < fab.gridH := Nat.pos_of_mul_pos_left (hgrid ▸ hpos)
    rw [prod_dieFans]
    show (if P.gridded then max 1 fab.gridW else 0) * (if P.gridded then max 1 fab.gridH else 0) = _
    rw [if_pos hg, if_pos hg, Nat.max_eq_right hw, Nat.max_eq_right hh']
    exact hgrid
  have hh' : ∀ h ∈ homes, h < P.units := by
    rw [hU]
    exact hh
  obtain ⟨T, D, hR, hdies, hhubs, hlinks, hkind'⟩ := buildRouters_gridded hp rfl hg htop3 hh' hnodes
  have hF := buildSparseHTree_finished hR
  refine ⟨fun u hu => ?_, fun u hu hx => ?_, fun hc chip hub hx => ?_, ?_⟩
  · have hu' : u < P.units := by
      rw [hU]
      exact hu
    by_cases hm : u ∈ homes
    · obtain ⟨p, hend, hpe'⟩ := hR.home_endpoint hp hh' hF hm
      have := (List.getElem?_eq_some_iff.mp hpe').1
      have hn : t.numPEs = homes.length := hF.numPEs
      refine ⟨p, hend, ?_⟩
      show p < t.numPEs + t.numAbstract
      omega
    · obtain ⟨e, r, hend, ha⟩ := hR.other_endpoint hp hh' hF hu' hm
      exact ⟨e, hend, (hF.range ha).2⟩
  · obtain ⟨h, hm, hchip⟩ := hx
    have hu' : u < P.units := by
      rw [hU]
      exact hu
    have hd : (P.unitPath u).take P.stop ∈ D := by
      have hdh := hdies h hm
      rw [take_unitPath hp hg htop3 (hh' h hm)] at hdh
      rw [take_unitPath hp hg htop3 hu']
      exact (show h / orgsBelow P.d 3 P.peLevel = u / orgsBelow P.d 3 P.peLevel from hchip) ▸ hdh
    have := hR.die_endpoint hp hh' hF (stop_le_depth fun _ => htop3) hu' hd
    rwa [hU] at this
  · have hcross : (buildRouters P homes).t.fabricKind = .crossbar := by
      rw [hkind']
      show (if P.gridded then fab.kind else .none) = _
      rw [if_pos hg]
      exact hc
    have hexits : t.dieExitOf = (buildRouters P homes).t.dieExitOf := hF.exits
    rw [hexits] at hx
    exact hR.hub_noEndpoint hF hlinks (hhubs hcross hx)
  · rw [← hU]
    exact hR.coveredOrgs_eq hp hh' hF

/-- The hypotheses at work: a crossbar over the four banks of each chip. -/
theorem buildSparseHTree_gridded_covers_crossbar :
    (∀ h ∈ [5, 5], h < (griddedTree ⟨2, 1, 2, 2, 2, 1⟩ 1 (fun _ => 1) (fun _ => 1) ⟨.crossbar, 2, 2⟩ 6).fanout 6
        * orgsBelow ⟨2, 1, 2, 2, 2, 1⟩ 5 1)
      ∧ (buildSparseHTree (griddedTree ⟨2, 1, 2, 2, 2, 1⟩ 1 (fun _ => 1) (fun _ => 1) ⟨.crossbar, 2, 2⟩ 6)
          [5, 5]).coveredOrgs
        = (griddedTree ⟨2, 1, 2, 2, 2, 1⟩ 1 (fun _ => 1) (fun _ => 1) ⟨.crossbar, 2, 2⟩ 6).fanout 6
          * orgsBelow ⟨2, 1, 2, 2, 2, 1⟩ 5 1 :=
  ⟨by decide, (buildSparseHTree_gridded_covers ⟨2, 1, 2, 2, 2, 1⟩ (by decide) (fun _ => 1) (fun _ => 1)
    (by decide) (by decide) (by decide) (by decide) [5, 5] (by decide)).2.2.2⟩

end Pimid.Htree
