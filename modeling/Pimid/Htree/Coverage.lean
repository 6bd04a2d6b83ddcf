import Mathlib.Algebra.BigOperators.Group.Finset.Basic
import Mathlib.Algebra.GroupWithZero.Nat
import Pimid.Htree.Endpoints

/-!
# Coverage

Every placement unit routes to one endpoint, and an abstract endpoint's recorded
coverage is the number of units that route to it.
-/

namespace Pimid.Htree

variable {P : Params} {homes : List Nat} {b : Build} {t : SparseHTree} {T D : Set (List Nat)}
  {w q : List Nat} {r e u : Nat}

theorem depth_eq (hp : P.Placed) : P.depth + P.leafLevel = P.top := by
  have : P.leafLevel < P.top := hp
  unfold Params.depth
  omega

namespace Routed

theorem die_length (hR : Routed P homes b T D) (hq : q ∈ D) :
    q.length + (3 - P.peLevel) = P.depth ∧ P.leafLevel = P.peLevel := by
  obtain ⟨_, hlen, hpe, _⟩ := hR.shape.die hq
  have hleaf : P.leafLevel = P.peLevel := if_pos (by omega)
  refine ⟨?_, hleaf⟩
  rw [Params.depth, hleaf]
  omega

/-- A tree router strictly below the root of a die would be a child of the die. -/
theorem not_below_die (hR : Routed P homes b T D) {d : List Nat} (hd : d ∈ D) (hq : q ∈ T) (h : d <+: q) :
    d = q := by
  obtain ⟨w, rfl⟩ := h
  cases w with
  | nil => simp
  | cons c w => exact absurd (hR.shape.mem_of_leading ⟨w, by simp⟩ hq) ((hR.shape.die hd).2.2.2 c)

/-- A path that has a router of its own does not leave the tree above it. -/
theorem mem_of_routerAt (hR : Routed P homes b T D) {p : List Nat} {c : Nat} (hw : b.t.routerAt w = some r)
    (hp : p ∈ T) (hD : p ∉ D) (hpre : p ++ [c] <+: w) : p ++ [c] ∈ T := by
  rcases (hR.shape.live w).mp ⟨r, hw⟩ with hw | ⟨d, hd, v, _, rfl⟩
  · exact hR.shape.mem_of_leading hpre hw
  · have hdp : d <+: d ++ v := List.prefix_append _ _
    rcases Nat.lt_or_ge p.length d.length with hlt | hge
    · have : p ++ [c] <+: d := List.prefix_of_prefix_length_le hpre hdp (by simp; omega)
      exact hR.shape.mem_of_leading this (hR.shape.die hd).1
    · have : d <+: p := List.prefix_of_prefix_length_le hdp ((List.prefix_append _ _).trans hpre) hge
      exact absurd (hR.not_below_die hd hp this ▸ hd) hD

theorem leaf_info (hp : P.Placed) (hR : Routed P homes b T D) (hw : b.t.routerAt w = some r)
    (hlen : w.length = P.depth) :
    ∃ live, b.info[r]? = some ⟨P.leafLevel, live⟩ ∧ (b.t.peOfLeaf[r]? = none → live = ∅) := by
  have hdepth := depth_eq hp
  rcases (hR.shape.live w).mp ⟨r, hw⟩ with hT | hn
  · have hD : w ∉ D := fun hD => by
      have := hR.die_length hD
      have := (hR.shape.die hD).2.2.1
      omega
    obtain ⟨live, hi, hlive⟩ := hR.shape.treeInfo hT hD hw
    have hlev : P.top - w.length = P.leafLevel := by omega
    rw [hlev] at hi
    refine ⟨live, hi, fun hnone => ?_⟩
    have hch := hR.childless hT hlen fun h hh he => by
      obtain ⟨p, hp', hpe⟩ := List.getElem_of_mem hh
      obtain ⟨r', p', hr', hp''⟩ := hR.leaves.at' (p := p) (h := h) (by rw [List.getElem?_eq_getElem hp', hpe])
      rw [he, hw] at hr'
      obtain rfl := Option.some.inj hr'
      rw [hnone] at hp''
      exact absurd hp'' (by simp)
    refine Finset.eq_empty_of_forall_notMem fun c hc => hch c ((hlive c).mp hc)
  · obtain ⟨d, hd, _⟩ := id hn
    exact ⟨∅, by rw [(hR.die_length hd).2]; exact hR.shape.nodeInfo hn hw, fun _ => rfl⟩

/-- **A leaf router answers**: with an element, or with an endpoint of coverage one. -/
theorem leaf_endpoint (hp : P.Placed) (hR : Routed P homes b T D) (hF : Finished P homes b t)
    (hw : b.t.routerAt w = some r) (hlen : w.length = P.depth) :
    (∃ p, t.peOfLeaf[r]? = some p ∧ t.endpointOf r = some p)
      ∨ (t.peOfLeaf[r]? = none ∧ ∃ e, t.abstractOf[r]? = some e ∧ t.endpointOf r = some e
        ∧ t.coverageOf[e]? = some 1) := by
  have hdepth := depth_eq hp
  have hp : P.leafLevel < P.top := hp
  cases hpe : t.peOfLeaf[r]? with
  | some p => exact .inl ⟨p, rfl, by rw [SparseHTree.endpointOf, hpe]; rfl⟩
  | none =>
    refine .inr ⟨rfl, ?_⟩
    obtain ⟨live, hi, hlive⟩ := hR.leaf_info hp hw hlen
    rw [hF.elements] at hpe
    rw [hlive hpe] at hi
    have hr0 : r ≠ 0 := by
      rintro rfl
      have := hR.shape.inj hw hR.shape.root
      rw [this, List.length_nil] at hlen
      omega
    have hf : Build.fronts P b.t r ⟨P.leafLevel, ∅⟩ = some (1, P.leafLevel, 0) := by
      refine if_pos ⟨rfl, hr0, rfl, hR.shape.notHub hw, ?_⟩
      rw [contains_eq_true_iff, hpe]
      simp
    obtain ⟨e, he, hcov⟩ := hF.front hi hf
    refine ⟨e, he, ?_, hcov⟩
    rw [SparseHTree.endpointOf, hF.elements, hpe]
    exact he

/-! ## Where a unit lands -/

/-- The walk for `w` ends on `w`'s own router, or leaves the tree below the router at
`p` through a child that is not there. -/
inductive Lands (b : Build) (t : SparseHTree) (T D : Set (List Nat)) (w : List Nat) (res : Option Nat) : Prop where
  | leaf {r : Nat} (hr : b.t.routerAt w = some r) (h : res = t.endpointOf r)
  | empty {p : List Nat} {c r : Nat} (hp : p ∈ T) (hD : p ∉ D) (hc : p ++ [c] <+: w) (hn : p ++ [c] ∉ T)
      (hr : b.t.routerAt p = some r) (h : res = t.abstractOf[r]?)

theorem walkKeys_lands (hp : P.Placed) (hR : Routed P homes b T D) (hF : Finished P homes b t)
    (rest : List Nat) (hq : q ∈ T) (hr : b.t.routerAt q = some r) (hlen : (q ++ rest).length = P.depth)
    (hv : P.Valid (q ++ rest)) : Lands b t T D (q ++ rest) (t.walkKeys r (keyOf q) rest) := by
  induction rest generalizing q r with
  | nil => exact .leaf (by simpa using hr) rfl
  | cons c rest ih =>
    have hassoc : q ++ c :: rest = q ++ [c] ++ rest := by simp
    have hlook : t.routerOf[SparseHTree.keyStep (keyOf q) c]? = b.t.routerAt (q ++ [c]) := by
      rw [← keyOf_snoc, hF.routers]
      rfl
    have hfull : rest.foldl SparseHTree.keyStep (SparseHTree.keyStep (keyOf q) c) = keyOf (q ++ c :: rest) := by
      rw [keyOf_append]
      rfl
    rw [SparseHTree.walkKeys]
    simp only [hlook, hfull]
    by_cases hD : q ∈ D
    · -- the die has a node for the whole path
      obtain ⟨_, hdl, hpe, hno⟩ := hR.shape.die hD
      have hdepth := (hR.die_length hD).1
      have hl : (c :: rest).length = 3 - P.peLevel := by
        rw [List.length_append] at hlen
        omega
      obtain ⟨g, hg⟩ := (hR.shape.live (q ++ c :: rest)).mpr
        (.inr ⟨q, hD, c :: rest, forall₂_dieFans hdl hpe hl hv, rfl⟩)
      cases hk : b.t.routerAt (q ++ [c]) with
      | some rid =>
        -- a one-tier die: the child is the node
        rcases (hR.shape.live (q ++ [c])).mp ⟨rid, hk⟩ with hT | ⟨d, hd, v, hvf, he⟩
        · exact absurd hT (hno c)
        · have hvl := hvf.length_eq
          have hl' := congrArg List.length he
          have hdd := (hR.shape.die hd).2.1
          simp only [Params.dieFans, List.length_reverse, List.length_map, List.length_range'] at hvl
          simp only [List.length_append, List.length_singleton] at hl'
          obtain rfl : rest = [] := List.eq_nil_of_length_eq_zero (by simp at hl; omega)
          simp only [SparseHTree.walkKeys]
          exact .leaf hk rfl
      | none =>
        have hx : t.dieExitOf.contains r = true := by
          rw [hF.exits, hR.shape.exit]
          exact ⟨q, hD, hr⟩
        have hlg : t.routerOf[keyOf (q ++ c :: rest)]? = some g := by
          rw [hF.routers]
          exact hg
        have hsome : ∃ e, t.endpointOf g = some e := by
          rcases hR.leaf_endpoint hp hF hg hlen with ⟨p, _, h⟩ | ⟨_, e, _, h, _⟩
          · exact ⟨p, h⟩
          · exact ⟨e, h⟩
        obtain ⟨e, he⟩ := hsome
        refine .leaf hg ?_
        simp only [SparseHTree.dieLookup, hx, if_true, hlg, he]
        rfl
    · cases hk : b.t.routerAt (q ++ [c]) with
      | some rid =>
        have hT : q ++ [c] ∈ T := hR.mem_of_routerAt hk hq hD List.prefix_rfl
        simp only
        rw [← keyOf_snoc, hassoc]
        exact ih hT hk (by rw [← hassoc]; exact hlen) (by rw [← hassoc]; exact hv)
      | none =>
        have hx : ¬ t.dieExitOf.contains r = true := by
          rw [hF.exits, hR.shape.exit]
          rintro ⟨d, hd, hdr⟩
          exact hD (hR.shape.inj hr hdr ▸ hd)
        have hn : q ++ [c] ∉ T := fun hT => by
          obtain ⟨_, h⟩ := hR.shape.routerAt_of_mem hT
          rw [hk] at h
          exact absurd h (by simp)
        refine .empty hq hD ⟨rest, by simp⟩ hn hr ?_
        simp only [SparseHTree.dieLookup, if_neg hx]
        rfl

theorem endpointForUnit_lands (hp : P.Placed) (hR : Routed P homes b T D) (hF : Finished P homes b t)
    (hu : u < P.units) : Lands b t T D (P.unitPath u) (t.endpointForUnit u) := by
  rw [hF.walk]
  exact hR.walkKeys_lands hp hF (P.unitPath u) hR.shape.rootMem hR.shape.root
    (length_unitPath hp hu) (valid_unitPath hp hu)

/-! ## Elements -/

theorem home_of_leaf (hp : P.Placed) (hR : Routed P homes b T D) (hh : ∀ h ∈ homes, h < P.units)
    (hF : Finished P homes b t) {p : Nat} (hu : u < P.units) (hr : b.t.routerAt (P.unitPath u) = some r)
    (hpe : t.peOfLeaf[r]? = some p) : homes[p]? = some u := by
  rw [hF.elements] at hpe
  obtain ⟨h, hh', hr'⟩ := hR.leaves.of hpe
  have := unitPath_inj hp (hh h (List.mem_of_getElem? hh')) hu (hR.shape.inj hr' hr)
  rwa [this] at hh'

/-- **A home routes to an element that lives there.** -/
theorem home_endpoint (hp : P.Placed) (hR : Routed P homes b T D) (hh : ∀ h ∈ homes, h < P.units)
    (hF : Finished P homes b t) (hu : u ∈ homes) :
    ∃ p, t.endpointForUnit u = some p ∧ homes[p]? = some u := by
  obtain ⟨p₀, hp₀, hpe₀⟩ := List.getElem_of_mem hu
  obtain ⟨r, p, hr, hpe⟩ := hR.leaves.at' (p := p₀) (h := u) (by rw [List.getElem?_eq_getElem hp₀, hpe₀])
  rw [← hF.elements] at hpe
  refine ⟨p, ?_, hR.home_of_leaf hp hh hF (hh u hu) hr hpe⟩
  rcases hR.endpointForUnit_lands hp hF (hh u hu) with @⟨r', hr', he⟩ | @⟨q, c, r', hq, hD, hc, hn, _, _⟩
  · obtain rfl := Option.some.inj (hr.symm.trans hr')
    rw [he, SparseHTree.endpointOf, hpe]
    rfl
  · exact absurd (hR.mem_of_routerAt hr hq hD hc) hn

/-! ## Abstract endpoints -/

theorem live_lt (hR : Routed P homes b T D) {c : Nat} (h : q ++ [c] ∈ T) : c < P.fanout (P.top - q.length) :=
  hR.shape.valid h q.length c (by simp)

theorem tree_fronts (hp : P.Placed) (hlen : q.length < P.depth) (live : Finset Nat) :
    Build.fronts P b.t r ⟨P.top - q.length, live⟩
      = if live.card < P.fanout (P.top - q.length) then
          some ((P.fanout (P.top - q.length) - live.card) * orgsBelow P.d (P.top - q.length - 1) P.peLevel,
            P.top - q.length - 1, layerForLevel (P.top - q.length - 1) P.chanLevel)
        else none := by
  have hdepth := depth_eq hp
  unfold Build.fronts
  dsimp only
  rw [if_neg (by omega), if_neg (by omega)]

theorem empty_endpoint (hp : P.Placed) (hR : Routed P homes b T D) (hF : Finished P homes b t) {c : Nat}
    (hq : q ∈ T) (hD : q ∉ D) (hr : b.t.routerAt q = some r) (hlen : q.length < P.depth)
    (hc : c < P.fanout (P.top - q.length)) (hn : q ++ [c] ∉ T) : ∃ e, t.abstractOf[r]? = some e := by
  obtain ⟨live, hi, hlive⟩ := hR.shape.treeInfo hq hD hr
  have hcard : live.card < P.fanout (P.top - q.length) := by
    have hsub : live ⊂ Finset.range (P.fanout (P.top - q.length)) := by
      refine Finset.ssubset_iff_of_subset (fun x hx => ?_) |>.mpr ⟨c, Finset.mem_range.mpr hc, ?_⟩
      · exact Finset.mem_range.mpr (hR.live_lt ((hlive x).mp hx))
      · exact fun hx => hn ((hlive c).mp hx)
    simpa using Finset.card_lt_card hsub
  have hf := tree_fronts (b := b) (r := r) hp hlen live
  rw [if_pos hcard] at hf
  obtain ⟨e, he, _⟩ := hF.front hi hf
  exact ⟨e, he⟩

/-- **Every other unit routes to an abstract endpoint**: that of its own router, or that
of the last router on its way. -/
theorem other_endpoint (hp : P.Placed) (hR : Routed P homes b T D) (hh : ∀ h ∈ homes, h < P.units)
    (hF : Finished P homes b t) (hu : u < P.units) (hno : u ∉ homes) :
    ∃ e r : Nat, t.endpointForUnit u = some e ∧ t.abstractOf[r]? = some e := by
  have hlen := length_unitPath hp hu
  rcases hR.endpointForUnit_lands hp hF hu with @⟨r, hr, he⟩ | @⟨q, c, r, hq, hD, hc, hn, hr, he⟩
  · rcases hR.leaf_endpoint hp hF hr hlen with ⟨p, hpe, _⟩ | ⟨_, e, ha, hend, _⟩
    · exact absurd (List.mem_of_getElem? (hR.home_of_leaf hp hh hF hu hr hpe)) hno
    · exact ⟨e, r, he.trans hend, ha⟩
  · have hql := hc.length_le
    rw [List.length_append, List.length_singleton] at hql
    have hcv : c < P.fanout (P.top - q.length) := by
      refine valid_unitPath hp hu q.length c ?_
      obtain ⟨v, hv⟩ := hc
      rw [← hv]
      simp
    obtain ⟨e, ha⟩ := hR.empty_endpoint hp hF hq hD hr (by omega) hcv hn
    exact ⟨e, r, he.trans ha, ha⟩

/-! ## Counting -/

theorem served_cases (hp : P.Placed) (hR : Routed P homes b T D) (hF : Finished P homes b t)
    (hh : ∀ h ∈ homes, h < P.units) (hu : u < P.units)
    (hq : b.t.routerAt q = some r) (ha : t.abstractOf[r]? = some e) (he : t.endpointForUnit u = some e) :
    P.unitPath u = q ∨ (q ∈ T ∧ q ∉ D ∧ ∃ c, q ++ [c] <+: P.unitPath u ∧ q ++ [c] ∉ T) := by
  have hrange := hF.range ha
  rcases hR.endpointForUnit_lands hp hF hu with @⟨r', hr', hend⟩ | @⟨p, c, r', hp', hD, hc, hn, hr', hend⟩
  · left
    rcases hR.leaf_endpoint hp hF hr' (length_unitPath hp hu) with ⟨p, hpe, hpe'⟩ | ⟨_, e', ha', hend', _⟩
    · -- elements are numbered below the abstract endpoints
      have hpe := hR.home_of_leaf hp hh hF hu hr' hpe
      have hlt := (List.getElem?_eq_some_iff.mp hpe).1
      obtain rfl : p = e := Option.some.inj (hpe'.symm.trans (hend.symm.trans he))
      have := hF.numPEs
      omega
    · obtain rfl : e' = e := Option.some.inj (hend'.symm.trans (hend.symm.trans he))
      exact hR.shape.inj hr' (hF.inj ha ha' ▸ hq)
  · right
    obtain rfl : p = q := hR.shape.inj hr' (hF.inj ha (hend.symm.trans he) ▸ hq)
    exact ⟨hp', hD, c, hc, hn⟩

theorem served_leaf (hp : P.Placed) (hR : Routed P homes b T D) (hh : ∀ h ∈ homes, h < P.units)
    (hF : Finished P homes b t) (hq : b.t.routerAt q = some r) (ha : t.abstractOf[r]? = some e)
    (hlen : q.length = P.depth) (hv : P.Valid q) :
    ((Finset.range P.units).filter fun u => t.endpointForUnit u = some e).card = 1
      ∧ t.coverageOf[e]? = some 1 := by
  rcases hR.leaf_endpoint hp hF hq hlen with ⟨p, hpe, _⟩ | ⟨_, e', ha', hend, hcov⟩
  · -- with an element there is nothing to front
    exfalso
    obtain ⟨live, hi, _⟩ := hR.leaf_info hp hq hlen
    have hbare : Build.fronts P b.t r ⟨P.leafLevel, live⟩ = none := by
      unfold Build.fronts
      rw [if_neg, if_pos (Nat.le_refl _)]
      rintro ⟨_, _, _, _, hc⟩
      rw [contains_eq_true_iff] at hc
      exact hc ⟨p, hF.elements ▸ hpe⟩
    rw [hF.bare hi hbare] at ha
    exact absurd ha (by simp)
  obtain rfl : e' = e := Option.some.inj (ha'.symm.trans ha)
  refine ⟨?_, hcov⟩
  have hfans : List.Forall₂ (· < ·) q P.unitFans := by
    have := (valid_iff hlen.le).mp hv
    rwa [hlen, ← length_unitFans P, List.take_length] at this
  have hlt : ofDigits P.unitFans q < P.units := ofDigits_lt hfans
  have hpath : P.unitPath (ofDigits P.unitFans q) = q := by
    rw [unitPath_eq hp hlt, digits_ofDigits hfans]
  rw [Finset.card_eq_one]
  refine ⟨ofDigits P.unitFans q, Finset.ext fun u => ?_⟩
  rw [Finset.mem_filter, Finset.mem_range, Finset.mem_singleton]
  constructor
  · rintro ⟨hu, he⟩
    rcases hR.served_cases hp hF hh hu hq ha he with hw | ⟨_, _, c, hc, _⟩
    · exact unitPath_inj hp hu hlt (hw.trans hpath.symm)
    · have := hc.length_le
      rw [length_unitPath hp hu, List.length_append, List.length_singleton] at this
      omega
  · rintro rfl
    refine ⟨hlt, ?_⟩
    rcases hR.endpointForUnit_lands hp hF hlt with @⟨r', hr', he⟩ | @⟨p, c, r', hp', hD, hc, hn, _, _⟩
    · rw [hpath, hq] at hr'
      obtain rfl := Option.some.inj hr'
      exact he.trans hend
    · rw [hpath] at hc
      exact absurd (hR.mem_of_routerAt hq hp' hD hc) hn

open Classical in
/-- An endpoint on a router above the leaves serves the units below its missing children. -/
theorem served_empty (hp : P.Placed) (hR : Routed P homes b T D) (hh : ∀ h ∈ homes, h < P.units)
    (hF : Finished P homes b t) (hqT : q ∈ T) (hD : q ∉ D) (hq : b.t.routerAt q = some r)
    (ha : t.abstractOf[r]? = some e) (hlen : q.length < P.depth) {live : Finset Nat}
    (hlive : ∀ c, c ∈ live ↔ q ++ [c] ∈ T) :
    ((Finset.range P.units).filter fun u => t.endpointForUnit u = some e).card
      = (P.fanout (P.top - q.length) - live.card) * orgsBelow P.d (P.top - q.length - 1) P.peLevel := by
  have hcount := card_diverge live ((valid_iff hlen.le).mp (hR.shape.valid hqT))
    (getElem?_unitFans hlen) (fun c hc => hR.live_lt ((hlive c).mp hc))
  rw [prod_drop_unitFans hlen] at hcount
  rw [← hcount]
  refine congrArg Finset.card (Finset.ext fun u => ?_)
  simp only [Finset.mem_filter, Finset.mem_range]
  refine and_congr_right fun hu => ?_
  have hu : u < P.units := hu
  rw [← unitPath_eq hp hu]
  constructor
  · intro he
    rcases hR.served_cases hp hF hh hu hq ha he with hw | ⟨_, _, c, hc, hn⟩
    · have := length_unitPath hp hu
      rw [hw] at this
      omega
    · exact ⟨c, fun hx => hn ((hlive c).mp hx), hc⟩
  · rintro ⟨c, hc, hpre⟩
    have hn : q ++ [c] ∉ T := fun hx => hc ((hlive c).mpr hx)
    rcases hR.endpointForUnit_lands hp hF hu with @⟨r', hr', he⟩ | @⟨p, x, r', hp', hD', hx, hn', hr', he⟩
    · exact absurd (hR.mem_of_routerAt hr' hqT hD hpre) hn
    · -- both are the last tree router on the path
      have hpq : p = q := by
        rcases Nat.lt_trichotomy p.length q.length with h | h | h
        · have hpx : p ++ [x] <+: q :=
            List.prefix_of_prefix_length_le hx ((List.prefix_append _ _).trans hpre) (by simp; omega)
          exact absurd (hR.shape.mem_of_leading hpx hqT) hn'
        · have h₁ : p <+: P.unitPath u := (List.prefix_append _ _).trans hx
          have h₂ : q <+: P.unitPath u := (List.prefix_append _ _).trans hpre
          exact (List.prefix_of_prefix_length_le h₁ h₂ h.le).eq_of_length h
        · have hqc : q ++ [c] <+: p :=
            List.prefix_of_prefix_length_le hpre ((List.prefix_append _ _).trans hx) (by simp; omega)
          exact absurd (hR.shape.mem_of_leading hqc hp') hn
      subst hpq
      obtain rfl := Option.some.inj (hq.symm.trans hr')
      exact he.trans ha

theorem valid_dieNode (hR : Routed P homes b T D) (h : DieNode P D q) : P.Valid q ∧ q.length = P.depth := by
  obtain ⟨d, hd, v, hv, rfl⟩ := h
  obtain ⟨hT, hdl, hpe, _⟩ := hR.shape.die hd
  have hvl := hv.length_eq
  simp only [Params.dieFans, List.length_reverse, List.length_map, List.length_range'] at hvl
  refine ⟨fun i c hc => ?_, by rw [List.length_append, hvl]; exact (hR.die_length hd).1⟩
  rcases Nat.lt_or_ge i d.length with hi | hi
  · rw [List.getElem?_append_left hi] at hc
    exact hR.shape.valid hT i c hc
  · rw [List.getElem?_append_right hi] at hc
    obtain ⟨hi', rfl⟩ := List.getElem?_eq_some_iff.mp hc
    have := (List.forall₂_iff_get.mp hv).2 (i - d.length) hi' (by simp [Params.dieFans]; omega)
    simp only [List.get_eq_getElem, Params.dieFans, List.getElem_reverse, List.getElem_map, List.getElem_range',
      List.length_map, List.length_range'] at this
    have hlev : P.top - i = P.peLevel + 1 + 1 * (3 - P.peLevel - 1 - (i - d.length)) := by omega
    rwa [hlev, fanout_of_le (by omega)]

/-- **An abstract endpoint's coverage is the number of units that route to it.** -/
theorem served_eq_coverage (hp : P.Placed) (hR : Routed P homes b T D) (hh : ∀ h ∈ homes, h < P.units)
    (hF : Finished P homes b t) (he : t.numPEs ≤ e) (he' : e < t.numPEs + t.numAbstract) :
    t.coverageOf[e]? = some ((Finset.range P.units).filter fun u => t.endpointForUnit u = some e).card := by
  have hdepth := depth_eq hp
  obtain ⟨r, nd, f, hi, hf, ha, hcov⟩ := hF.own he he'
  rcases hR.shape.owner hi with ⟨q, hq⟩ | ⟨hhub, rfl, hpe⟩
  · rcases (hR.shape.live q).mp ⟨r, hq⟩ with hT | hn
    · by_cases hD : q ∈ D
      · -- a gridded chip is fully live
        exfalso
        have hleaf := (hR.die_length hD).2
        have hpe := (hR.shape.die hD).2.2.1
        obtain rfl := Option.some.inj (hi.symm.trans (hR.shape.dieInfo hD hq))
        unfold Build.fronts at hf
        dsimp only at hf
        rw [if_neg (by omega), if_neg (by omega), if_neg] at hf
        · exact absurd hf (by simp)
        · rw [Finset.card_range, fanout_of_le (by omega)]
          exact Nat.lt_irrefl _
      · obtain ⟨live, hi', hlive⟩ := hR.shape.treeInfo hT hD hq
        obtain rfl := Option.some.inj (hi.symm.trans hi')
        rcases Nat.lt_trichotomy q.length P.depth with h | h | h
        · rw [hR.served_empty hp hh hF hT hD hq ha h hlive, hcov]
          rw [tree_fronts hp h] at hf
          split at hf
          · rw [← Option.some.inj hf]
          · exact absurd hf (by simp)
        · obtain ⟨hone, hcov'⟩ := hR.served_leaf hp hh hF hq ha h (hR.shape.valid hT)
          rw [hone, hcov']
        · -- below the leaves nothing is fronted
          exfalso
          have := hR.short hT
          unfold Build.fronts at hf
          dsimp only at hf
          rw [if_neg (by omega), if_pos (by omega)] at hf
          exact absurd hf (by simp)
    · obtain ⟨hv, hlen⟩ := hR.valid_dieNode hn
      obtain ⟨hone, hcov'⟩ := hR.served_leaf hp hh hF hq ha hlen hv
      rw [hone, hcov']
  · -- a hub fronts nothing
    exfalso
    have hleaf : P.leafLevel = P.peLevel := if_pos (by omega)
    unfold Build.fronts at hf
    dsimp only at hf
    rw [if_neg (fun h => h.2.2.2.1 hhub), if_pos (by omega)] at hf
    exact absurd hf (by simp)

/-! ## The whole memory -/

theorem foldl_add_snd (l : List (Nat × Nat)) (n : Nat) :
    l.foldl (fun n kv => n + kv.2) n = n + (l.map (·.2)).sum := by
  induction l generalizing n with
  | nil => simp
  | cons x l ih =>
    rw [List.foldl_cons, ih, List.map_cons, List.sum_cons, Nat.add_assoc]

theorem size_peOfLeaf (hp : P.Placed) (hR : Routed P homes b T D) (hh : ∀ h ∈ homes, h < P.units)
    (hF : Finished P homes b t) : t.peOfLeaf.size = homes.toFinset.card := by
  have hkeys : t.peOfLeaf.size = t.peOfLeaf.keys.toFinset.card := by
    rw [List.toFinset_card_of_nodup Std.TreeMap.nodup_keys, Std.TreeMap.length_keys]
  have hmem : ∀ r, r ∈ t.peOfLeaf.keys.toFinset ↔ ∃ p, t.peOfLeaf[r]? = some p := by
    intro r
    rw [List.mem_toFinset, Std.TreeMap.mem_keys, ← Std.TreeMap.contains_iff_mem, contains_eq_true_iff]
  rw [hkeys]
  refine (Finset.card_nbij (fun u => (b.t.routerAt (P.unitPath u)).getD 0) ?_ ?_ ?_).symm
  · intro u hu
    obtain ⟨p, hp', rfl⟩ := List.getElem_of_mem (List.mem_toFinset.mp hu)
    obtain ⟨r, p', hr, hpe⟩ := hR.leaves.at' (List.getElem?_eq_getElem hp')
    simp only [hr]
    exact (hmem r).mpr ⟨p', hF.elements ▸ hpe⟩
  · intro u hu v hv he
    obtain ⟨p, hp', rfl⟩ := List.getElem_of_mem (List.mem_toFinset.mp hu)
    obtain ⟨p', hp'', rfl⟩ := List.getElem_of_mem (List.mem_toFinset.mp hv)
    obtain ⟨r, _, hr, _⟩ := hR.leaves.at' (List.getElem?_eq_getElem hp')
    obtain ⟨r', _, hr', _⟩ := hR.leaves.at' (List.getElem?_eq_getElem hp'')
    simp only [hr, hr', Option.getD_some] at he
    subst he
    exact unitPath_inj hp (hh _ (List.getElem_mem hp')) (hh _ (List.getElem_mem hp'')) (hR.shape.inj hr hr')
  · intro r hr
    obtain ⟨p, hpe⟩ := (hmem r).mp hr
    rw [hF.elements] at hpe
    obtain ⟨h, hh', hr'⟩ := hR.leaves.of hpe
    exact ⟨h, List.mem_toFinset.mpr (List.mem_of_getElem? hh'), by simp [hr']⟩

/-- **The tree covers the memory**: every unit is counted once. -/
theorem coveredOrgs_eq (hp : P.Placed) (hR : Routed P homes b T D) (hh : ∀ h ∈ homes, h < P.units)
    (hF : Finished P homes b t) : t.coveredOrgs = P.units := by
  have hcovered : t.coveredOrgs = homes.toFinset.card + (t.coverageOf.toList.map (·.2)).sum := by
    rw [hF.covered, foldl_add_snd, hR.size_peOfLeaf hp hh hF]
  have hsum : (t.coverageOf.toList.map (·.2)).sum
      = ∑ e ∈ t.coverageOf.keys.toFinset,
        ((Finset.range P.units).filter fun u => t.endpointForUnit u = some e).card := by
    rw [List.sum_toFinset _ Std.TreeMap.nodup_keys, ← Std.TreeMap.map_fst_toList_eq_keys, List.map_map]
    refine congrArg List.sum (List.map_congr_left fun kv hkv => ?_)
    have hcov := Std.TreeMap.mem_toList_iff_getElem?_eq_some.mp hkv
    obtain ⟨h₁, h₂⟩ := hF.fresh hcov
    exact Option.some.inj (hcov.symm.trans (hR.served_eq_coverage hp hh hF h₁ h₂))
  have hfib : (∑ e ∈ t.coverageOf.keys.toFinset,
      ((Finset.range P.units).filter fun u => t.endpointForUnit u = some e).card)
      = ((Finset.range P.units) \ homes.toFinset).card := by
    rw [Finset.card_eq_sum_card_fiberwise (f := fun u => (t.endpointForUnit u).getD 0)
      (t := t.coverageOf.keys.toFinset)]
    · refine Finset.sum_congr rfl fun e he => congrArg Finset.card (Finset.ext fun u => ?_)
      simp only [Finset.mem_filter, Finset.mem_sdiff, Finset.mem_range, List.mem_toFinset]
      constructor
      · rintro ⟨hu, heq⟩
        refine ⟨⟨hu, fun hm => ?_⟩, by rw [heq]; rfl⟩
        obtain ⟨p, hp', hpe⟩ := hR.home_endpoint hp hh hF hm
        obtain rfl := Option.some.inj (hp'.symm.trans heq)
        rw [List.mem_toFinset, Std.TreeMap.mem_keys, ← Std.TreeMap.contains_iff_mem, contains_eq_true_iff] at he
        obtain ⟨c, hc⟩ := he
        have := (hF.fresh hc).1
        have := (List.getElem?_eq_some_iff.mp hpe).1
        have := hF.numPEs
        omega
      · rintro ⟨⟨hu, hm⟩, heq⟩
        obtain ⟨e', r, h', _⟩ := hR.other_endpoint hp hh hF hu hm
        rw [h'] at heq ⊢
        exact ⟨hu, congrArg some heq⟩
    · intro u hu
      simp only [Finset.coe_sdiff, Set.mem_sdiff, Finset.mem_coe, Finset.mem_range, List.mem_toFinset] at hu
      obtain ⟨e, r, he, ha⟩ := hR.other_endpoint hp hh hF hu.1 hu.2
      obtain ⟨h₁, h₂⟩ := hF.range ha
      simp only [he, Option.getD_some, Finset.mem_coe, List.mem_toFinset]
      rw [Std.TreeMap.mem_keys, ← Std.TreeMap.contains_iff_mem, contains_eq_true_iff]
      exact ⟨_, hR.served_eq_coverage hp hh hF h₁ h₂⟩
  rw [hcovered, hsum, hfib, Finset.card_sdiff_of_subset, Finset.card_range]
  · have hle : homes.toFinset.card ≤ P.units := by
      have := Finset.card_le_card (s := homes.toFinset) (t := Finset.range P.units)
        fun h hm => Finset.mem_range.mpr (hh h (List.mem_toFinset.mp hm))
      simpa using this
    omega
  · exact fun h hm => Finset.mem_range.mpr (hh h (List.mem_toFinset.mp hm))

end Routed

end Pimid.Htree
