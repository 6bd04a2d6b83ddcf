import Pimid.Garnet.LinkTraffic
import Mathlib.Algebra.BigOperators.Group.Finset.Piecewise
import Mathlib.Tactic.Ring

/-!
# Link traffic is attributed without loss

Every call gives some links to levels and counts some links as crossed; the difference
is judged. So the levels, the grid and the unattributed links together are the links
crossed and the overattributed ones, after any calls.

On a tree the difference is zero. The hop count is a distance found by a search, the
routers come from the walk over the lowest common ancestor; that walk is a shortest
one, so it has one router more than there are hops.
-/

namespace Pimid.Garnet

namespace GarnetStats

/-- The link traffic given out: to a level, or to the grids in the dies. -/
def taken (s : GarnetStats) : Nat :=
  ∑ l ∈ Finset.range 7, s.levelLinkFlitTraversals l + s.indieGridLinkFlitTraversals

def Balanced (s : GarnetStats) : Prop :=
  s.taken + s.linkTraversalsUnattributed = s.linkTraversals + s.linkTraversalsOverattributed

end GarnetStats

theorem sum_bump (count : Nat → Nat) {i : Nat} (n : Nat) (hi : i < 7) :
    ∑ l ∈ Finset.range 7, bump count i n l = ∑ l ∈ Finset.range 7, count l + n := by
  unfold bump
  rw [Finset.sum_add_distrib, Finset.sum_ite_eq' (Finset.range 7) i fun _ => n, if_pos (Finset.mem_range.mpr hi)]

namespace Wrapper

/-! ## One call -/

/-- From `s` to `s'`, `links` links are counted as crossed and `attributed` of them given out, for `f` flits each. -/
structure Took (f links attributed : Nat) (s s' : GarnetStats) : Prop where
  taken : s'.taken = s.taken + attributed * f
  link : s'.linkTraversals = s.linkTraversals + links * f
  unattributed : s'.linkTraversalsUnattributed = s.linkTraversalsUnattributed
  overattributed : s'.linkTraversalsOverattributed = s.linkTraversalsOverattributed

section

variable {f a b m k : Nat} {s s' s'' : GarnetStats} {n : Wrapper} {w : TierWalk} {flits : Nat} {ctrl : Bool}

theorem Took.same (ht : s'.taken = s.taken) (hl : s'.linkTraversals = s.linkTraversals)
    (hu : s'.linkTraversalsUnattributed = s.linkTraversalsUnattributed)
    (ho : s'.linkTraversalsOverattributed = s.linkTraversalsOverattributed) : Took f 0 0 s s' :=
  ⟨by omega, by omega, hu, ho⟩

theorem Took.refl (f : Nat) (s : GarnetStats) : Took f 0 0 s s :=
  .same rfl rfl rfl rfl

theorem Took.keep (h : Took f a m s s') (ht : s''.taken = s'.taken) (hl : s''.linkTraversals = s'.linkTraversals)
    (hu : s''.linkTraversalsUnattributed = s'.linkTraversalsUnattributed)
    (ho : s''.linkTraversalsOverattributed = s'.linkTraversalsOverattributed) : Took f a m s s'' :=
  ⟨ht.trans h.taken, hl.trans h.link, hu.trans h.unattributed, ho.trans h.overattributed⟩

theorem Took.trans (h : Took f a m s s') (h' : Took f b k s' s'') : Took f (a + b) (m + k) s s'' where
  taken := by rw [h'.taken, h.taken, Nat.add_mul]; omega
  link := by rw [h'.link, h.link, Nat.add_mul]; omega
  unattributed := h'.unattributed.trans h.unattributed
  overattributed := h'.overattributed.trans h.overattributed

theorem Took.judge (h : Took f a m s s') (hs : s.Balanced) : (judge a m f s').Balanced := by
  have ht := h.taken
  have hl := h.link
  have hu := h.unattributed
  have ho := h.overattributed
  unfold GarnetStats.Balanced at hs ⊢
  unfold Wrapper.judge
  split
  next hle =>
    show s'.taken + (s'.linkTraversalsUnattributed + (a - m) * f) = s'.linkTraversals + s'.linkTraversalsOverattributed
    have := Nat.add_mul m (a - m) f
    rw [Nat.add_sub_cancel' hle] at this
    omega
  next hlt =>
    show s'.taken + s'.linkTraversalsUnattributed =
      s'.linkTraversals + (s'.linkTraversalsOverattributed + (m - a) * f)
    have := Nat.add_mul a (m - a) f
    rw [Nat.add_sub_cancel' (by omega)] at this
    omega

theorem took_level {l e : Nat} (hl : l < 7) (f : Nat) (s : GarnetStats) :
    Took f 0 e s { s with levelLinkFlitTraversals := bump s.levelLinkFlitTraversals l (e * f) } where
  taken := by
    show ∑ l ∈ Finset.range 7, bump s.levelLinkFlitTraversals _ _ l + s.indieGridLinkFlitTraversals = _
    rw [sum_bump _ _ hl]
    show _ = ∑ l ∈ Finset.range 7, s.levelLinkFlitTraversals l + s.indieGridLinkFlitTraversals + e * f
    omega
  link := by rw [Nat.zero_mul]; rfl
  unattributed := rfl
  overattributed := rfl

theorem took_grid (f e : Nat) (s : GarnetStats) :
    Took f 0 e s { s with indieGridLinkFlitTraversals := s.indieGridLinkFlitTraversals + e * f } where
  taken := (Nat.add_assoc ..).symm
  link := by rw [Nat.zero_mul]; rfl
  unattributed := rfl
  overattributed := rfl

theorem took_countRouters (routers flits packets : Nat) (s : GarnetStats) :
    Took f 0 0 s (countRouters routers flits packets s) :=
  .same rfl rfl rfl rfl

theorem Took.countKind (h : Took f a m s s') (ctrl : Bool) : Took f a m s (countKind ctrl s') := by
  unfold Wrapper.countKind
  split <;> exact h.keep rfl rfl rfl rfl

/-! ### Walks over the tiers -/

theorem took_countVisits (w : TierWalk) (flits mult : Nat) (ls : List Nat) (s : GarnetStats) :
    Took f 0 0 s (ls.foldl (countVisits w flits mult) s) := by
  induction ls generalizing s with
  | nil => exact .refl f s
  | cons l ls ih =>
    have hstep : Took f 0 0 s (countVisits w flits mult s l) := by
      unfold countVisits
      split <;> exact .same rfl rfl rfl rfl
    exact hstep.trans (ih _)

theorem took_stackWalk (w : TierWalk) (flits mult : Nat) (s : GarnetStats) : Took f 0 0 s (stackWalk w flits mult s) := by
  unfold stackWalk
  split <;> exact .same rfl rfl rfl rfl

theorem took_credit {l : Nat} (hl : l < 7) (e : Nat) {acc : WalkAcc} (h : Took f 0 acc.attributed s acc.stats) :
    Took f 0 (acc.credit f l e).attributed s (acc.credit f l e).stats := by
  unfold WalkAcc.credit
  split
  next => exact h
  next => exact h.trans (took_level hl f _)

theorem took_attributeLevel {l : Nat} (hl : l < 7) {acc : WalkAcc} (h : Took f 0 acc.attributed s acc.stats) :
    Took f 0 (attributeLevel w f acc l).attributed s (attributeLevel w f acc l).stats := by
  unfold attributeLevel
  dsimp only
  split
  next => exact h
  next =>
    split
    next => exact took_credit hl _ h
    next => exact took_credit hl _ h

theorem took_attributeLevels {ls : List Nat} (hls : ∀ l ∈ ls, l < 7) {acc : WalkAcc}
    (h : Took f 0 acc.attributed s acc.stats) :
    Took f 0 (ls.foldl (attributeLevel w f) acc).attributed s (ls.foldl (attributeLevel w f) acc).stats := by
  induction ls generalizing acc with
  | nil => exact h
  | cons l ls ih =>
    exact ih (fun l hl => hls l (List.mem_cons_of_mem _ hl)) (took_attributeLevel (hls l (List.mem_cons_self ..)) h)

theorem took_attributeWalk (w : TierWalk) (f : Nat) (s : GarnetStats) :
    Took f 0 (attributeWalk w f s).2 s (attributeWalk w f s).1 := by
  have hstart : Took f 0 (WalkAcc.mk s 0 0).attributed s (WalkAcc.mk s 0 0).stats := .refl f s
  have hlevels := took_attributeLevels (w := w) (fun l hl => List.mem_range.mp hl) hstart
  unfold attributeWalk
  dsimp only
  split
  next => exact hlevels
  next =>
    exact hlevels.trans (took_grid f _ _)

theorem msgWalk_spec {nodes : List (String × Nat)} {src dst mult : Nat} {r : GarnetStats × Nat × Nat × Nat}
    (h : n.msgWalk nodes src dst flits mult s = some r) : Took (flits * mult) 0 r.2.2.2 s r.1 := by
  unfold msgWalk at h
  simp only [Option.bind_eq_bind, Option.bind_eq_some_iff, Option.some.injEq] at h
  obtain ⟨walk, -, sp, -, dp, -, w, -, rfl⟩ := h
  have h₁ := took_countVisits (f := flits * mult) w flits mult (List.range 7) s
  have h₂ := took_attributeWalk w (flits * mult) ((List.range 7).foldl (countVisits w flits mult) s)
  have h₃ := (h₁.trans h₂).trans (took_stackWalk w flits mult _)
  simpa only [Nat.zero_add, Nat.add_zero] using h₃

/-! ### The way over a path -/

/-- The links given out to levels are in the levels' counters; router traversals are counted elsewhere. -/
structure OnPath (flits : Nat) (s : GarnetStats) (acc : PathAcc) : Prop where
  took : Took flits 0 acc.linkAttributed s acc.stats
  routers : acc.stats.totalRouterTraversals = s.totalRouterTraversals

theorem OnPath.cross {acc : PathAcc} (h : OnPath flits s acc) {lv : Int} (hlo : 0 ≤ lv) (hhi : lv ≤ 6) :
    OnPath flits s (acc.cross flits lv) where
  took := by
    have := h.took.trans (took_level (l := lv.toNat) (e := 1) (by omega) flits acc.stats)
    rwa [Nat.one_mul] at this
  routers := h.routers

theorem OnPath.crossDie {acc : PathAcc} (h : OnPath flits s acc) (die : Nat) : OnPath flits s (acc.crossDie flits die) :=
  ⟨h.took.keep rfl rfl rfl rfl, h.routers⟩

theorem OnPath.busy {acc : PathAcc} (h : OnPath flits s acc) (edgeBusy segBusy : Nat → Nat) :
    OnPath flits s { acc with stats := { acc.stats with edgeBusy := edgeBusy, segBusy := segBusy } } :=
  ⟨h.took.keep rfl rfl rfl rfl, h.routers⟩

theorem OnPath.addSeg {acc : PathAcc} (h : OnPath flits s acc) (g : LinkSeg) :
    OnPath flits s (n.addSeg flits ctrl acc g) := by
  have hseg : OnPath flits s { acc with segCrossed := acc.segCrossed + 1 } := ⟨h.took, h.routers⟩
  unfold Wrapper.addSeg
  dsimp only
  split
  next => exact hseg
  next hlv =>
    have hcross := hseg.cross (show 0 ≤ g.lv by omega) (by omega)
    split
    next =>
      split
      next => exact (hcross.busy _ _).crossDie _
      next => exact hcross.crossDie _
    next =>
      split
      next => exact hcross.busy _ _
      next => exact hcross

theorem OnPath.addSegs {acc : PathAcc} (h : OnPath flits s acc) (n : Wrapper) (ctrl : Bool) (segs : List LinkSeg) :
    OnPath flits s (n.addSegs flits ctrl segs acc) := by
  unfold Wrapper.addSegs
  induction segs generalizing acc with
  | nil => exact h
  | cons g segs ih => exact ih (h.addSeg g)

theorem OnPath.addEdge {acc : PathAcc} (h : OnPath flits s acc) (e : Nat × Nat) :
    OnPath flits s (n.addEdge flits ctrl acc e) := by
  have hsegs := fun child => h.addSegs n ctrl (n.segOfRouter child)
  unfold Wrapper.addEdge
  dsimp only
  generalize (if n.file.routerDepth e.2 < n.file.routerDepth e.1 then e.1 else e.2) = child
  generalize (if child = e.1 then e.2 else e.1) = other
  split
  next => exact hsegs child
  next hlv =>
    have hcross := (hsegs child).cross (show 0 ≤ n.file.levelOf child by omega) (by omega)
    split
    next =>
      split
      next => exact (hcross.busy _ _).crossDie _
      next => exact hcross.crossDie _
    next =>
      split
      next => exact hcross.busy _ _
      next => exact hcross

theorem OnPath.addEdges {acc : PathAcc} (h : OnPath flits s acc) (es : List (Nat × Nat)) :
    OnPath flits s (es.foldl (n.addEdge flits ctrl) acc) := by
  induction es generalizing acc with
  | nil => exact h
  | cons e es ih => exact ih (h.addEdge e)

theorem countLevel_onPath (path : List Nat) (s : GarnetStats) : OnPath flits s ⟨path.foldl n.countLevel s, 0, 0, 0⟩ := by
  have hfold : ∀ s₀, OnPath flits s ⟨s₀, 0, 0, 0⟩ → OnPath flits s ⟨path.foldl n.countLevel s₀, 0, 0, 0⟩ := by
    induction path with
    | nil => exact fun _ h => h
    | cons r path ih =>
      intro s₀ h
      refine ih _ ?_
      dsimp only [countLevel]
      split
      next => exact ⟨h.took.keep rfl rfl rfl rfl, h.routers⟩
      next => exact h
  exact hfold s ⟨.refl flits s, rfl⟩

theorem OnPath.countNi {acc : PathAcc} (h : OnPath flits s acc) (ep : Nat) :
    OnPath flits s { acc with stats := n.countNi flits acc.stats ep } := by
  unfold Wrapper.countNi
  dsimp only
  split
  next => exact ⟨h.took.keep rfl rfl rfl rfl, h.routers⟩
  next => exact h

theorem countPath_onPath (n : Wrapper) (src dst flits : Nat) (ctrl : Bool) (path : List Nat) (s : GarnetStats) :
    OnPath flits s (n.countPath src dst flits ctrl path s) := by
  unfold countPath
  extract_lets acc₀ acc₁ acc₂ acc₃ acc₄
  have h₀ : OnPath flits s acc₀ := countLevel_onPath path s
  have h₂ : OnPath flits s acc₂ := (h₀.addSegs n ctrl _).addSegs n ctrl _
  have h₃ : OnPath flits s acc₃ := (h₂.countNi src).countNi dst
  have h₄ : OnPath flits s acc₄ := h₃.addEdges _
  split
  next => exact ⟨h₄.took.keep rfl rfl rfl rfl, h₄.routers⟩
  next => exact h₄

/-! ### The counting calls -/

theorem took_links (f links : Nat) (s : GarnetStats) :
    Took f links 0 s { s with linkTraversals := s.linkTraversals + links * f } where
  taken := by rw [Nat.zero_mul]; rfl
  link := rfl
  unattributed := rfl
  overattributed := rfl

theorem finishPacket_balanced {links : Nat} (h : Took flits 0 a s s') (hs : s.Balanced) (hops routers : Nat) :
    (finishPacket ctrl hops flits routers links a s').Balanced := by
  have h₁ : Took flits 0 a s { s' with totalHops := s'.totalHops + hops } := h.keep rfl rfl rfl rfl
  have h₂ := (h₁.trans (took_countRouters routers flits 1 _)).countKind ctrl
  have h₃ := h₂.trans (took_links flits links _)
  rw [Nat.add_zero, Nat.zero_add] at h₃
  exact h₃.judge hs

theorem finishMessage_balanced {packets links : Nat} (h : Took (flits * packets) 0 a s s') (hs : s.Balanced)
    (routers : Nat) : (finishMessage flits packets routers links a s').Balanced := by
  have h₁ : Took (flits * packets) 0 a s { s' with dataPackets := s'.dataPackets + packets } := h.keep rfl rfl rfl rfl
  have h₂ := h₁.trans (took_countRouters routers (flits * packets) packets _)
  have h₃ := h₂.trans (took_links (flits * packets) links _)
  rw [Nat.add_zero, Nat.zero_add] at h₃
  exact h₃.judge hs

theorem countPacket_balanced (hs : s.Balanced) (nodes : List (String × Nat)) (src dst hops : Nat) :
    (n.countPacket nodes src dst hops ctrl s).Balanced := by
  unfold countPacket
  dsimp only
  split
  next path _ => exact finishPacket_balanced (countPath_onPath n src dst _ ctrl path s).took hs hops _
  next =>
    split
    next s₁ routers walkLinks linkAttributed hwalk =>
      split at hwalk
      next => exact absurd hwalk (by simp)
      next =>
        have := msgWalk_spec hwalk
        rw [Nat.mul_one] at this
        exact finishPacket_balanced this hs hops routers
    next => exact finishPacket_balanced (.refl _ s) hs hops _

theorem countMessagePackets_balanced (hs : s.Balanced) (nodes : List (String × Nat)) (src dst hops packets : Nat) :
    (n.countMessagePackets nodes src dst hops packets s).Balanced := by
  unfold countMessagePackets
  dsimp only
  split
  next => exact hs
  next =>
    split
    next hwalk => exact finishMessage_balanced (msgWalk_spec hwalk) hs _
    next => exact finishMessage_balanced (.refl _ s) hs _

theorem recordLocalBus_balanced (hs : s.Balanced) (srcEp : Nat) {level : Int} (hlo : 0 ≤ level) (hhi : level ≤ 6) :
    (n.recordLocalBus srcEp level ctrl s).Balanced := by
  have hlink := (took_links (n.flitsFor srcEp ctrl) 1 s).trans
    (took_level (l := level.toNat) (e := 1) (by omega) (n.flitsFor srcEp ctrl) _)
  rw [Nat.one_mul] at hlink
  have hjudge := hlink.judge hs
  unfold recordLocalBus
  dsimp only
  rw [if_pos ⟨hlo, by omega⟩]
  -- one link crossed and one given out: there is nothing to judge
  unfold judge at hjudge
  rw [if_pos (Nat.le_refl _), Nat.sub_self, Nat.zero_mul] at hjudge
  exact hjudge

theorem recordTierWalk_balanced (hs : s.Balanced) (w : TierWalk) : (n.recordTierWalk w ctrl s).Balanced := by
  unfold recordTierWalk
  extract_lets fb flits s₁ linkNodes s₂ r
  have h₁ : Took flits 0 0 s s₁ := took_countVisits w flits 1 (List.range 7) s
  have h₂ : Took flits w.links 0 s s₂ := by
    have hlinks := h₁.trans (took_links flits w.links s₁)
    rw [Nat.zero_add] at hlinks
    refine Took.countKind ?_ ctrl
    exact hlinks.keep rfl rfl rfl rfl
  have h₃ : Took flits w.links r.2 s r.1 := by
    have := h₂.trans (took_attributeWalk w flits s₂)
    rwa [Nat.add_zero, Nat.zero_add] at this
  have hstack := took_stackWalk (f := flits) w flits 1 (judge w.links r.2 flits r.1)
  have hjudge := h₃.judge hs
  unfold GarnetStats.Balanced at hjudge ⊢
  have ht := hstack.taken
  have hl := hstack.link
  rw [hstack.unattributed, hstack.overattributed]
  omega

/-! ## Any calls -/

/-- The bus is of a level there is. -/
def OnLevel : Record → Prop
  | .recordLocalBus _ level _ => 0 ≤ level ∧ level ≤ 6
  | _ => True

theorem record_balanced (hs : s.Balanced) (c : Record) (hc : OnLevel c) : (n.record s c).Balanced := by
  cases c with
  | countPacket nodes src dst hops ctrl => exact countPacket_balanced hs nodes src dst hops
  | countMessagePackets nodes src dst hops packets => exact countMessagePackets_balanced hs nodes src dst hops packets
  | recordTierWalk w ctrl => exact recordTierWalk_balanced hs w
  | recordLocalBus srcEp level ctrl => exact recordLocalBus_balanced hs srcEp hc.1 hc.2
  | markRoiBegin => rfl

theorem records_balanced (hs : s.Balanced) {cs : List Record} (hcs : ∀ c ∈ cs, OnLevel c) :
    (cs.foldl n.record s).Balanced := by
  induction cs generalizing s with
  | nil => exact hs
  | cons c cs ih =>
    exact ih (record_balanced hs c (hcs c (List.mem_cons_self ..))) fun c hc => hcs c (List.mem_cons_of_mem _ hc)

end

end Wrapper

/-! ## The tree the wrapper sees -/

namespace TopoParsed

section

variable {f : TopoParsed} {parent level : Nat → Nat}

/-- Without its `ext` lines. -/
def bare (f : TopoParsed) : TopoParsed :=
  { f with extEntries := [] }

theorem TreeLinks.bare (h : f.TreeLinks parent level) (hpos : 0 < f.numRouters) :
    f.bare.TreeLinks parent level ∧ f.bare.WellFormed := by
  have hbare : f.bare.TreeLinks parent level := ⟨h.root, h.parent_lt, h.level_parent, h.edges⟩
  refine ⟨hbare, hpos, fun e he => ?_, nofun, List.nodup_nil⟩
  rcases h.mem_iff.mp (show (e.1, e.2) ∈ f.intEntries from he) with ⟨h0, hlt, heq⟩ | ⟨h0, hlt, heq⟩
  · exact ⟨hlt, heq ▸ h.parent_lt _ h0 hlt⟩
  · exact ⟨heq ▸ h.parent_lt _ h0 hlt, hlt⟩

theorem TreeLinks.explored (h : f.TreeLinks parent level) (hpos : 0 < f.numRouters) :
    Explored IntLink.src IntLink.dst f.bare.buildFromFile.intLinks 0 f.customBfs.dist f.customBfs.prev (fun _ => False) ∧
      Bfs.Counted (List.range f.numRouters) f.customBfs := by
  obtain ⟨-, hwf⟩ := h.bare hpos
  have hbfs : f.customBfs = f.bare.bfs := by
    show Bfs.run f.bare.customAdj f.bare.numRouters (Bfs.init 0) = _
    rw [hwf.customAdj_eq]
    rfl
  rw [hbfs]
  exact hwf.explored_bfs

theorem TreeLinks.customBfs_dist (h : f.TreeLinks parent level) (hpos : 0 < f.numRouters) {r : Nat}
    (hr : r < f.numRouters) : f.customBfs.dist r = some (level r) :=
  (h.explored hpos).1.dist_iff.mpr ((h.bare hpos).1.isDist_level hr)

theorem TreeLinks.routerParent_eq (h : f.TreeLinks parent level) (hpos : 0 < f.numRouters) {r : Nat} (h0 : 0 < r)
    (hr : r < f.numRouters) : f.routerParent r = some (parent r) := by
  obtain ⟨hex, -⟩ := h.explored hpos
  obtain ⟨u, hu⟩ := hex.has_prev (h.customBfs_dist hpos hr) (by omega)
  obtain ⟨l, hl, rfl, rfl, k, hk, hk'⟩ := hex.prev_edge hu
  rcases (h.bare hpos).1.level_edge hl with ⟨-, hlev⟩ | ⟨hpar, -⟩
  · -- an edge up does not lead away from the root
    have hs := h.customBfs_dist hpos ((h.bare hpos).2.int_lt _ (mem_intEntries_of_mem hl)).1
    rw [h.customBfs_dist hpos hr] at hk'
    rw [hs] at hk
    have hk : level l.src = k := Option.some.inj hk
    have hk' : level l.dst = k + 1 := Option.some.inj hk'
    omega
  · rw [← hpar]
    exact hu

theorem TreeLinks.rooted (h : f.TreeLinks parent level) (hpos : 0 < f.numRouters) :
    Rooted f.routerParent f.routerDepth (· < f.numRouters) 0 := by
  obtain ⟨hex, hcount⟩ := h.explored hpos
  refine ⟨?_, fun v u hp => ?_, fun v u _ hp => ?_, fun v hv hne => ?_⟩
  · unfold routerDepth
    rw [hex.root_dist]
    rfl
  · obtain ⟨-, -, -, -, k, hk, hk'⟩ := hex.prev_edge hp
    unfold routerDepth
    rw [hk, hk']
    rfl
  · obtain ⟨-, -, -, -, k, hk, -⟩ := hex.prev_edge hp
    exact List.mem_range.mp (hcount.mem (by rw [hk]; nofun))
  · exact hex.has_prev (h.customBfs_dist hpos hv) hne

theorem TreeLinks.treeEdges (h : f.TreeLinks parent level) (hpos : 0 < f.numRouters) :
    Rooted.Edges IntLink.src IntLink.dst f.buildFromFile.intLinks f.routerParent (· < f.numRouters) := by
  -- the parent the search found is the tree's
  have hparent : ∀ v u, v < f.numRouters → f.routerParent v = some u → 0 < v ∧ u = parent v := by
    intro v u hv hp
    have h0 : 0 < v := by
      refine Nat.pos_of_ne_zero fun hv0 => ?_
      rw [hv0] at hp
      have hroot : f.routerParent 0 = none := (h.explored hpos).1.root_prev
      rw [hroot] at hp
      cases hp
    rw [h.routerParent_eq hpos h0 hv] at hp
    exact ⟨h0, (Option.some.inj hp).symm⟩
  refine ⟨fun e he => ?_, fun v u hv hp => ?_, fun v u hv hp => ?_⟩
  · rcases h.mem_iff.mp (mem_intEntries_of_mem he) with ⟨h0, hlt, heq⟩ | ⟨h0, hlt, heq⟩
    · exact .inl (heq ▸ h.routerParent_eq hpos h0 hlt)
    · exact .inr (heq ▸ h.routerParent_eq hpos h0 hlt)
  · obtain ⟨h0, rfl⟩ := hparent v u hv hp
    exact exists_intLink (h.mem_iff.mpr (.inl ⟨h0, hv, rfl⟩))
  · obtain ⟨h0, rfl⟩ := hparent v u hv hp
    exact exists_intLink (h.mem_iff.mpr (.inr ⟨h0, hv, rfl⟩))

theorem TreeLinks.customIsTree (h : f.TreeLinks parent level) (hpos : 0 < f.numRouters) : f.customIsTree = true := by
  obtain ⟨-, hwf⟩ := h.bare hpos
  obtain ⟨-, hcount⟩ := h.explored hpos
  have hnone : (List.range f.numRouters).countP (fun r => f.customBfs.dist r = none) = 0 := by
    refine List.countP_eq_zero.mpr fun r hr => ?_
    rw [h.customBfs_dist hpos (List.mem_range.mp hr), decide_eq_true_eq]
    nofun
  have hvisited := hcount.visited
  rw [hnone, List.length_range, Nat.add_zero] at hvisited
  have hedges : f.customEdges = f.intEntries := by
    refine List.filter_eq_self.mpr fun e he => ?_
    obtain ⟨h₁, h₂⟩ := hwf.int_lt e he
    rw [Bool.and_eq_true, decide_eq_true_eq, decide_eq_true_eq]
    exact ⟨h₁, h₂⟩
  unfold TopoParsed.customIsTree
  rw [hvisited, hedges, h.length, beq_self_eq_true, beq_self_eq_true, decide_eq_true hpos]
  rfl

/-- **Hops and routers agree**: the search counts the links, the walk over the lowest common ancestor has one router more. -/
theorem TreeLinks.path_of_hops (h : f.TreeLinks parent level) {n : Wrapper} (hf : n.file = f) {src dst a b : Nat}
    (ha : f.epToRouter[src]? = some a) (hb : f.epToRouter[dst]? = some b) (hal : a < f.numRouters)
    (hbl : b < f.numRouters) : ∃ k path, IsDist IntLink.src IntLink.dst f.buildFromFile.intLinks a b k ∧
      n.getHopCount src dst = k ∧ f.pathRouters src dst = some path ∧ path.length = k + 1 ∧
      ∀ r ∈ path, r < f.numRouters := by
  have hpos : 0 < f.numRouters := by omega
  obtain ⟨k, hk⟩ := h.reachable hal hbl
  obtain ⟨path, hpath, hmem, hlen⟩ := Rooted.between_isDist (h.rooted hpos) (h.treeEdges hpos) hal hbl
    (show f.routerDepth a < f.routerDepth a + f.routerDepth b + 1 by omega) (by omega) hk
  refine ⟨k, path, hk, ?_, ?_, hlen, hmem⟩
  · unfold Wrapper.getHopCount
    rw [hf]
    split
    next heq =>
      -- an endpoint and itself are on one router
      subst heq
      obtain rfl : a = b := Option.some.inj (ha.symm.trans hb)
      have hz : k ≤ ([] : List IntLink).length := hk.2 [] rfl
      exact (Nat.le_zero.mp hz).symm
    next =>
      have hsearch := (h.bare hpos).2.search_customAdj (f := f.bare) (a := a) (b := b) (n := k) hal hk
      unfold getCustomHops
      dsimp only
      rw [ha, hb]
      dsimp only [Option.getD_some]
      rw [if_neg (by omega)]
      show (Bfs.search f.bare.customAdj b f.bare.numRouters (Bfs.init a)).getD f.numRouters = k
      rw [hsearch]
      rfl
  · unfold pathRouters
    rw [if_pos (h.customIsTree hpos), ha, hb]
    dsimp only
    rw [if_neg (by omega)]
    exact hpath

end

end TopoParsed

/-! ## Packets on a tree -/

namespace Wrapper

/-- Every router of the file and every replaced link is at a level. -/
structure Levelled (n : Wrapper) : Prop where
  router : ∀ r, r < n.file.numRouters → 0 ≤ n.file.levelOf r ∧ n.file.levelOf r ≤ 6
  segOfRouter : ∀ r, ∀ g ∈ n.segOfRouter r, 0 ≤ g.lv ∧ g.lv ≤ 6
  segOfEp : ∀ e, ∀ g ∈ n.segOfEp e, 0 ≤ g.lv ∧ g.lv ≤ 6

section

variable {n : Wrapper} {flits k : Nat} {ctrl : Bool} {acc : PathAcc} {s : GarnetStats}

/-- All links crossed are given out: the replaced ones and `edges` more. -/
def PathAcc.Full (acc : PathAcc) (edges : Nat) : Prop :=
  acc.linkAttributed = acc.segCrossed + edges

theorem PathAcc.Full.addSeg (h : acc.Full k) (n : Wrapper) (flits : Nat) (ctrl : Bool) {g : LinkSeg}
    (hg : 0 ≤ g.lv ∧ g.lv ≤ 6) : (n.addSeg flits ctrl acc g).Full k := by
  have hcount : acc.linkAttributed + 1 = acc.segCrossed + 1 + k := by rw [h]; omega
  unfold Wrapper.addSeg
  dsimp only
  rw [if_neg (by omega)]
  split
  next =>
    split
    next => exact hcount
    next => exact hcount
  next =>
    split
    next => exact hcount
    next => exact hcount

theorem PathAcc.Full.addSegs (h : acc.Full k) (n : Wrapper) (flits : Nat) (ctrl : Bool) {segs : List LinkSeg}
    (hsegs : ∀ g ∈ segs, 0 ≤ g.lv ∧ g.lv ≤ 6) : (n.addSegs flits ctrl segs acc).Full k := by
  unfold Wrapper.addSegs
  induction segs generalizing acc with
  | nil => exact h
  | cons g segs ih =>
    exact ih (h.addSeg n flits ctrl (hsegs g (List.mem_cons_self ..))) fun g hg => hsegs g (List.mem_cons_of_mem _ hg)

theorem PathAcc.Full.addEdge (h : acc.Full k) (flits : Nat) (ctrl : Bool) (hn : n.Levelled) {e : Nat × Nat}
    (h₁ : e.1 < n.file.numRouters) (h₂ : e.2 < n.file.numRouters) : (n.addEdge flits ctrl acc e).Full (k + 1) := by
  have hlevel : ∀ r, r = e.1 ∨ r = e.2 → 0 ≤ n.file.levelOf r ∧ n.file.levelOf r ≤ 6 := by
    intro r hr
    rcases hr with rfl | rfl
    · exact hn.router _ h₁
    · exact hn.router _ h₂
  have hchild : ∀ c : Prop, [Decidable c] → (if c then e.1 else e.2) = e.1 ∨ (if c then e.1 else e.2) = e.2 := by
    intro c _
    split
    · exact .inl rfl
    · exact .inr rfl
  have hsegs := fun child => h.addSegs n flits ctrl (hn.segOfRouter child)
  unfold Wrapper.addEdge
  dsimp only
  have hc := hlevel _ (hchild (n.file.routerDepth e.2 < n.file.routerDepth e.1))
  generalize (if n.file.routerDepth e.2 < n.file.routerDepth e.1 then e.1 else e.2) = child at hc ⊢
  generalize (if child = e.1 then e.2 else e.1) = other
  have hcount : (n.addSegs flits ctrl (n.segOfRouter child) acc).linkAttributed + 1 =
      (n.addSegs flits ctrl (n.segOfRouter child) acc).segCrossed + (k + 1) := by
    rw [hsegs child]
    omega
  rw [if_neg (by omega)]
  split
  next =>
    split
    next => exact hcount
    next => exact hcount
  next =>
    split
    next => exact hcount
    next => exact hcount

theorem PathAcc.Full.addEdges (h : acc.Full k) (flits : Nat) (ctrl : Bool) (hn : n.Levelled) {es : List (Nat × Nat)}
    (hes : ∀ e ∈ es, e.1 < n.file.numRouters ∧ e.2 < n.file.numRouters) :
    (es.foldl (n.addEdge flits ctrl) acc).Full (k + es.length) := by
  induction es generalizing acc k with
  | nil => exact h
  | cons e es ih =>
    obtain ⟨h₁, h₂⟩ := hes e (List.mem_cons_self ..)
    have hfull := ih (h.addEdge flits ctrl hn h₁ h₂) fun e he => hes e (List.mem_cons_of_mem _ he)
    rwa [Nat.add_assoc, Nat.add_comm 1 es.length] at hfull

theorem countPath_full (hn : n.Levelled) (src dst flits : Nat) (ctrl : Bool) {path : List Nat}
    (hpath : ∀ r ∈ path, r < n.file.numRouters) (s : GarnetStats) : (n.countPath src dst flits ctrl path s).Full (path.length - 1) := by
  have hzip : (path.zip path.tail).length = path.length - 1 := by
    rw [List.length_zip, List.length_tail]
    omega
  have hends : ∀ e ∈ path.zip path.tail, e.1 < n.file.numRouters ∧ e.2 < n.file.numRouters := by
    intro e he
    obtain ⟨h₁, h₂⟩ := List.of_mem_zip he
    exact ⟨hpath _ h₁, hpath _ (List.mem_of_mem_tail h₂)⟩
  unfold countPath
  extract_lets acc₀ acc₁ acc₂ acc₃ acc₄
  have h₀ : acc₀.Full 0 := rfl
  have h₂ : acc₂.Full 0 := (h₀.addSegs n flits ctrl (hn.segOfEp src)).addSegs n flits ctrl (hn.segOfEp dst)
  have h₃ : acc₃.Full 0 := h₂
  have h₄ : acc₄.Full (path.length - 1) := by
    have := h₃.addEdges flits ctrl hn hends
    rwa [Nat.zero_add, hzip] at this
  split
  next => exact h₄
  next => exact h₄

/-- A packet with as many hops as links on its path leaves nothing to judge. -/
theorem finishPacket_even (ctrl : Bool) (hops flits routers links : Nat) (s : GarnetStats) :
    (finishPacket ctrl hops flits routers links links s).linkTraversalsUnattributed = s.linkTraversalsUnattributed ∧
      (finishPacket ctrl hops flits routers links links s).linkTraversalsOverattributed =
        s.linkTraversalsOverattributed ∧
      (finishPacket ctrl hops flits routers links links s).totalRouterTraversals =
        s.totalRouterTraversals + routers * flits := by
  unfold finishPacket judge
  dsimp only
  rw [if_pos (Nat.le_refl _), Nat.sub_self, Nat.zero_mul]
  unfold countKind
  split <;> exact ⟨rfl, rfl, rfl⟩

end

/-- A packet between two endpoints. -/
structure Packet where
  src : Nat
  dst : Nat
  ctrl : Bool
deriving DecidableEq, Repr

/-- Counted with its own hop count. -/
def count (n : Wrapper) (nodes : List (String × Nat)) (s : GarnetStats) (p : Packet) : GarnetStats :=
  n.countPacket nodes p.src p.dst (n.getHopCount p.src p.dst) p.ctrl s

/-- The `ext` lines attach both ends of the packet. -/
def Attached (n : Wrapper) (p : Packet) (a b : Nat) : Prop :=
  n.file.epToRouter[p.src]? = some a ∧ n.file.epToRouter[p.dst]? = some b ∧ a < n.file.numRouters ∧ b < n.file.numRouters

section

variable {n : Wrapper} {parent level : Nat → Nat} {nodes : List (String × Nat)} {s : GarnetStats}

/-- The links on the tree path of the packet. -/
def OnTree (n : Wrapper) (p : Packet) (links : Nat) : Prop :=
  ∃ a b, n.Attached p a b ∧ IsDist IntLink.src IntLink.dst n.file.buildFromFile.intLinks a b links

theorem count_even (htop : n.topology = .CUSTOM) (htree : n.file.TreeLinks parent level) (hn : n.Levelled) {p : Packet}
    {a b : Nat} (hp : n.Attached p a b) (nodes : List (String × Nat)) (s : GarnetStats) :
    ∃ links, n.OnTree p links ∧
      (n.count nodes s p).linkTraversalsUnattributed = s.linkTraversalsUnattributed ∧
      (n.count nodes s p).linkTraversalsOverattributed = s.linkTraversalsOverattributed ∧
      (n.count nodes s p).totalRouterTraversals = s.totalRouterTraversals + (links + 1) * n.flitsFor p.src p.ctrl := by
  obtain ⟨ha, hb, hal, hbl⟩ := hp
  obtain ⟨k, path, hdist, hhops, hpath, hlen, hmem⟩ := htree.path_of_hops rfl ha hb hal hbl
  refine ⟨k, ⟨a, b, ⟨ha, hb, hal, hbl⟩, hdist⟩, ?_⟩
  have hway := countPath_onPath n p.src p.dst (n.flitsFor p.src p.ctrl) p.ctrl path s
  have hfull := countPath_full hn p.src p.dst (n.flitsFor p.src p.ctrl) p.ctrl hmem s
  have hlinks : k + (n.countPath p.src p.dst (n.flitsFor p.src p.ctrl) p.ctrl path s).segCrossed =
      (n.countPath p.src p.dst (n.flitsFor p.src p.ctrl) p.ctrl path s).linkAttributed := by
    rw [hfull, hlen]
    omega
  have hcount : n.count nodes s p = finishPacket p.ctrl k (n.flitsFor p.src p.ctrl) path.length
      (k + (n.countPath p.src p.dst (n.flitsFor p.src p.ctrl) p.ctrl path s).segCrossed)
      (n.countPath p.src p.dst (n.flitsFor p.src p.ctrl) p.ctrl path s).linkAttributed
      (n.countPath p.src p.dst (n.flitsFor p.src p.ctrl) p.ctrl path s).stats := by
    unfold count countPacket
    rw [if_pos htop, hpath, hhops]
  rw [hcount, hlinks, hlen]
  obtain ⟨hu, ho, hr⟩ := finishPacket_even p.ctrl k (n.flitsFor p.src p.ctrl) (k + 1)
    (n.countPath p.src p.dst (n.flitsFor p.src p.ctrl) p.ctrl path s).linkAttributed
    (n.countPath p.src p.dst (n.flitsFor p.src p.ctrl) p.ctrl path s).stats
  exact ⟨hu.trans hway.took.unattributed, ho.trans hway.took.overattributed, by rw [hr, hway.routers]⟩

theorem counts_even (htop : n.topology = .CUSTOM) (htree : n.file.TreeLinks parent level) (hn : n.Levelled)
    {ps : List Packet} (hps : ∀ p ∈ ps, ∃ a b, n.Attached p a b) (nodes : List (String × Nat)) (s : GarnetStats) :
    ∃ links : Packet → Nat, (∀ p ∈ ps, n.OnTree p (links p)) ∧
      (ps.foldl (n.count nodes) s).linkTraversalsUnattributed = s.linkTraversalsUnattributed ∧
      (ps.foldl (n.count nodes) s).linkTraversalsOverattributed = s.linkTraversalsOverattributed ∧
      (ps.foldl (n.count nodes) s).totalRouterTraversals =
        s.totalRouterTraversals + (ps.map fun p => (links p + 1) * n.flitsFor p.src p.ctrl).sum := by
  classical
  have hlinks : ∀ p : Packet, ∃ links, ∀ a b, n.Attached p a b → n.OnTree p links := by
    intro p
    by_cases hp : ∃ a b, n.Attached p a b
    · obtain ⟨a, b, hp⟩ := hp
      obtain ⟨links, hl, -⟩ := count_even htop htree hn hp nodes s
      exact ⟨links, fun _ _ _ => hl⟩
    · exact ⟨0, fun a b h => absurd ⟨a, b, h⟩ hp⟩
  choose links hlinks using hlinks
  refine ⟨links, fun p hp => ?_, ?_⟩
  · obtain ⟨a, b, h⟩ := hps p hp
    exact hlinks p a b h
  · induction ps generalizing s with
    | nil => exact ⟨rfl, rfl, rfl⟩
    | cons p ps ih =>
      obtain ⟨a, b, hp⟩ := hps p (List.mem_cons_self ..)
      obtain ⟨k, ⟨a', b', hp', hk⟩, hu, ho, hr⟩ := count_even htop htree hn hp nodes s
      obtain ⟨a'', b'', hp'', hk'⟩ := hlinks p a b hp
      -- the distance between the two routers is one number
      obtain rfl : a' = a'' := Option.some.inj (hp'.1.symm.trans hp''.1)
      obtain rfl : b' = b'' := Option.some.inj (hp'.2.1.symm.trans hp''.2.1)
      obtain rfl : k = links p := hk.unique hk'
      obtain ⟨hu', ho', hr'⟩ := ih (fun p hp => hps p (List.mem_cons_of_mem _ hp)) (n.count nodes s p)
      rw [List.foldl_cons, List.map_cons, List.sum_cons]
      exact ⟨hu'.trans hu, ho'.trans ho, by rw [hr', hr, Nat.add_assoc]⟩

/-- **Link traffic is attributed without loss.** After any calls the levels, the grids and the unattributed links are
the links crossed and the overattributed ones. On a tree whose routers and replaced links all have a level, packets
counted with their hop count leave nothing unattributed or overattributed, and cross one router more than there are
links on their tree path. -/
theorem attribution :
    (∀ (n : Wrapper) (cs : List Record), (∀ c ∈ cs, OnLevel c) → (cs.foldl n.record {}).Balanced) ∧
    ∀ (n : Wrapper) (parent level : Nat → Nat), n.topology = .CUSTOM → n.file.TreeLinks parent level → n.Levelled →
      ∀ (nodes : List (String × Nat)) (ps : List Packet), (∀ p ∈ ps, ∃ a b, n.Attached p a b) →
        (ps.foldl (n.count nodes) {}).linkTraversalsUnattributed = 0 ∧
        (ps.foldl (n.count nodes) {}).linkTraversalsOverattributed = 0 ∧
        ∃ links : Packet → Nat, (∀ p ∈ ps, n.OnTree p (links p)) ∧
          (ps.foldl (n.count nodes) {}).totalRouterTraversals =
            (ps.map fun p => (links p + 1) * n.flitsFor p.src p.ctrl).sum := by
  have hstart : ({} : GarnetStats).Balanced := rfl
  refine ⟨fun n cs hcs => records_balanced hstart hcs, fun n parent level htop htree hn nodes ps hps => ?_⟩
  obtain ⟨links, hlinks, hu, ho, hr⟩ := counts_even htop htree hn hps nodes {}
  exact ⟨hu, ho, links, hlinks, by rw [hr]; exact Nat.zero_add _⟩

/-- Two routers of levels 4 and 3, an endpoint on each, and a link the second endpoint's replaces. -/
def twoRouters : Wrapper :=
  { topology := .CUSTOM, cycleAccurate := true, flitSizeBits := 128, dataMsgBits := 576, controlMsgBits := 64
    file := ⟨2, 2, [(0, 0), (1, 1)], [(1, 0), (0, 1)], [(0, 4), (1, 3)], []⟩
    segOfEp := fun e => if e = 1 then [⟨2, 64, -1, 3, 0⟩] else [] }

theorem attribution_two_routers :
    ([Record.recordLocalBus 0 3 false, .countPacket [] 0 1 7 true].foldl twoRouters.record {}).Balanced ∧
      ([⟨0, 1, false⟩, ⟨1, 1, true⟩].foldl (twoRouters.count []) {}).linkTraversalsUnattributed = 0 ∧
      ([⟨0, 1, false⟩, ⟨1, 1, true⟩].foldl (twoRouters.count []) {}).linkTraversalsOverattributed = 0 ∧
      ∃ links : Packet → Nat, (∀ p ∈ [⟨0, 1, false⟩, ⟨1, 1, true⟩], twoRouters.OnTree p (links p)) ∧
        ([⟨0, 1, false⟩, ⟨1, 1, true⟩].foldl (twoRouters.count []) {}).totalRouterTraversals =
          ([⟨0, 1, false⟩, ⟨1, 1, true⟩].map fun p => (links p + 1) * twoRouters.flitsFor p.src p.ctrl).sum := by
  have htree : twoRouters.file.TreeLinks (fun _ => 0) (fun r => if r = 0 then 0 else 1) := by
    refine ⟨rfl, fun r _ _ => by decide, fun r h0 _ => ?_, List.Perm.refl _⟩
    show (if r = 0 then 0 else 1) = 0 + 1
    rw [if_neg (by omega)]
  have hn : twoRouters.Levelled := by
    refine ⟨by decide, fun r g hg => absurd hg List.not_mem_nil, fun e g hg => ?_⟩
    have hg : g ∈ if e = 1 then [⟨2, 64, -1, 3, 0⟩] else [] := hg
    split at hg
    · rw [List.mem_singleton.mp hg]
      decide
    · cases hg
  refine ⟨attribution.1 twoRouters _ ?_, attribution.2 twoRouters _ _ rfl htree hn [] _ ?_⟩
  · intro c hc
    rcases List.mem_cons.mp hc with rfl | hc
    · exact ⟨by decide, by decide⟩
    · rw [List.mem_singleton.mp hc]
      trivial
  · intro p hp
    rcases List.mem_cons.mp hp with rfl | hp
    · exact ⟨0, 1, by decide, by decide, by decide, by decide⟩
    · rw [List.mem_singleton.mp hp]
      exact ⟨1, 1, by decide, by decide, by decide, by decide⟩

end

end Wrapper

end Pimid.Garnet
