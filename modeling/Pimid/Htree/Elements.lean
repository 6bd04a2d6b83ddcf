import Pimid.Htree.Shape

/-!
# The elements' branches

Every processing element walks down its own coordinates and materialises the routers
on the way: to its leaf, or with an in-die fabric to the chip whose die then holds it.
After the pass the tree is the set of leading stretches of those walks.
-/

namespace Pimid.Htree

variable {P : Params} {b : Build} {T D : Set (List Nat)} {q : List Nat} {c parent : Nat}

namespace Shape

/-- Marking a child that is there changes nothing. -/
theorem enliven (h : Shape P b T D) (hq : q ∈ T) (hD : q ∉ D) (hr : b.t.routerAt q = some parent)
    (hc : q ++ [c] ∈ T) : Shape P (b.enliven parent c) T D := by
  obtain ⟨live, hpi, hlive⟩ := h.treeInfo hq hD hr
  have hsame : ∀ r, (b.enliven parent c).info[r]?
      = if r = parent then some ⟨P.top - q.length, insert c live⟩ else b.info[r]? := by
    intro r
    rw [Build.enliven, node_eq hpi]
    exact getElem?_insert_eq _ _ _ _
  have hother : ∀ {q' r}, q' ≠ q → b.t.routerAt q' = some r → (b.enliven parent c).info[r]? = b.info[r]? := by
    intro q' r hne hx
    rw [hsame, if_neg]
    rintro rfl
    exact hne (h.inj hx hr)
  refine { h with infoLt := ?_, owner := ?_, treeInfo := ?_, dieInfo := ?_, nodeInfo := ?_ }
  · intro r nd hi
    rw [hsame] at hi
    split at hi
    next he =>
      rw [he]
      exact h.lt hr
    next => exact h.infoLt hi
  · intro r nd hi
    rw [hsame] at hi
    split at hi
    next he => exact .inl ⟨q, he ▸ hr⟩
    next => exact h.owner hi
  · intro q' r hm hd hx
    by_cases he : q' = q
    · subst he
      obtain rfl : parent = r := Option.some.inj (hr.symm.trans hx)
      refine ⟨insert c live, by rw [hsame, if_pos rfl], fun x => ?_⟩
      rw [Finset.mem_insert, hlive]
      refine ⟨?_, .inr⟩
      rintro (rfl | hx)
      · exact hc
      · exact hx
    · obtain ⟨l, hi, hl⟩ := h.treeInfo hm hd hx
      exact ⟨l, by rw [hother he hx]; exact hi, hl⟩
  · intro d r hd hx
    rw [hother (fun he => hD (he ▸ hd)) hx]
    exact h.dieInfo hd hx
  · intro q' r hn hx
    rw [hother ?_ hx]
    · exact h.nodeInfo hn hx
    · rintro rfl
      obtain rfl : parent = r := Option.some.inj (hr.symm.trans hx)
      -- a grid node has no live child, `q` has one
      rw [h.nodeInfo hn hx] at hpi
      have := (hlive c).mpr hc
      have he := congrArg Node.live (Option.some.inj hpi)
      simp only at he
      rw [← he] at this
      exact absurd this (by simp)

theorem frame_enliven (b : Build) (parent c : Nat) : Frame b (b.enliven parent c) := ⟨id, rfl⟩

/-- The two ways the builder brings in a child read the same afterwards. -/
theorem grows_newRouter_enliven (h : Shape P b T D) (hr : b.t.routerAt q = some parent) :
    Grows P b ((b.newRouter P parent (keyOf (q ++ [c])) (P.top - (q.length + 1))).enliven parent c) q c parent := by
  have hne : parent ≠ b.nextRouter := Nat.ne_of_lt (h.lt hr)
  have hnode : (b.newRouter P parent (keyOf (q ++ [c])) (P.top - (q.length + 1))).node parent = b.node parent := by
    rw [Build.node, Build.node, Std.TreeMap.getD_eq_getD_getElem?, Std.TreeMap.getD_eq_getD_getElem?]
    show (b.info.insert b.nextRouter _)[parent]?.getD _ = _
    rw [getElem?_insert_other _ hne]
  refine ⟨fun k => getElem?_insert_eq _ _ _ _, fun r => ?_, rfl, ⟨rfl, rfl⟩, rfl⟩
  rw [Build.enliven, hnode]
  show ((b.info.insert b.nextRouter _).insert parent _)[r]? = _
  rw [getElem?_insert_eq, getElem?_insert_eq]
  by_cases h₁ : r = b.nextRouter
  · rw [if_pos h₁, if_pos h₁, if_neg fun he => hne (he.symm.trans h₁)]
  · rw [if_neg h₁, if_neg h₁]

theorem grows_enliven_newRouter (P : Params) (b : Build) (q : List Nat) (c parent : Nat) :
    Grows P b ((b.enliven parent c).newRouter P parent (keyOf (q ++ [c])) (P.top - (q.length + 1))) q c parent := by
  refine ⟨fun k => getElem?_insert_eq _ _ _ _, fun r => ?_, rfl, ⟨rfl, rfl⟩, rfl⟩
  show ((b.info.insert parent _).insert b.nextRouter _)[r]? = _
  rw [getElem?_insert_eq, getElem?_insert_eq]

theorem frame_newRouter {parent l : Nat} (hnew : b.t.routerAt q = none) :
    Frame b (b.newRouter P parent (keyOf q) l) := by
  refine ⟨fun {q' r} hx => ?_, rfl⟩
  show (b.t.routerOf.insert (keyOf q) b.nextRouter)[keyOf q']? = some r
  rw [getElem?_insert_other]
  · exact hx
  · intro he
    rw [keyOf_inj he, hnew] at hx
    exact absurd hx (by simp)

theorem descend_spec (h : Shape P b T ∅) (hq : q ∈ T) (hr : b.t.routerAt q = some parent)
    (hc : c < P.fanout (P.top - q.length)) :
    Shape P (b.descend P parent (keyOf (q ++ [c])) c).1 (insert (q ++ [c]) T) ∅
      ∧ (b.descend P parent (keyOf (q ++ [c])) c).1.t.routerAt (q ++ [c])
        = some (b.descend P parent (keyOf (q ++ [c])) c).2
      ∧ Frame b (b.descend P parent (keyOf (q ++ [c])) c).1
      ∧ (b.descend P parent (keyOf (q ++ [c])) c).1.peOfDie = b.peOfDie := by
  have hlev : b.level parent = P.top - q.length := h.level_eq hq hr
  have hlev' : (b.enliven parent c).level parent - 1 = P.top - (q.length + 1) := by
    have : (b.enliven parent c).level parent = b.level parent := by
      rw [Build.level, Build.node, Std.TreeMap.getD_eq_getD_getElem?]
      show ((b.info.insert parent _)[parent]?.getD _).level = _
      rw [getElem?_insert_same]
      rfl
    omega
  cases hk : b.t.routerOf[keyOf (q ++ [c])]? with
  | some rid =>
    have hd : b.descend P parent (keyOf (q ++ [c])) c = (b.enliven parent c, rid) := by
      have hk' : (b.enliven parent c).t.routerOf[keyOf (q ++ [c])]? = some rid := hk
      simp only [Build.descend, hk']
    have hm : q ++ [c] ∈ T := by
      rcases (h.live _).mp ⟨rid, hk⟩ with hm | ⟨d, hd, _⟩
      · exact hm
      · exact absurd hd (by simp)
    rw [hd, Set.insert_eq_of_mem hm]
    exact ⟨h.enliven hq (by simp) hr hm, hk, frame_enliven _ _ _, rfl⟩
  | none =>
    have hd : b.descend P parent (keyOf (q ++ [c])) c
        = ((b.enliven parent c).newRouter P parent (keyOf (q ++ [c])) (P.top - (q.length + 1)), b.nextRouter) := by
      have hk' : (b.enliven parent c).t.routerOf[keyOf (q ++ [c])]? = none := hk
      simp only [Build.descend, hk', hlev']
      rfl
    rw [hd]
    have g := grows_enliven_newRouter P b q c parent
    refine ⟨h.addChild hq (by simp) hr hk hc g, ?_, ?_, rfl⟩
    · rw [g.routerAt, if_pos rfl]
    · exact (frame_enliven b parent c).trans (frame_newRouter hk)

end Shape

/-! ## One element -/

/-- How far down the tree an element's walk goes. -/
def Params.stop (P : Params) : Nat := if P.gridded then P.top - 3 else P.depth

/-- The leading stretches of `w`. -/
def Stretches (w : List Nat) : Set (List Nat) := {q | q <+: w}

theorem gridded_le (h : P.gridded = true) : P.peLevel ≤ 2 := by
  unfold Params.gridded at h
  split at h
  · simp only [decide_eq_true_eq] at h
    exact h.2
  · exact absurd h (by simp)

theorem stop_lt_depth (h : P.gridded = true) (htop : 3 ≤ P.top) : P.stop + (3 - P.peLevel) = P.depth := by
  have hpe := gridded_le h
  have hleaf : P.leafLevel = P.peLevel := if_pos (by omega)
  rw [Params.stop, if_pos h, Params.depth, hleaf]
  omega

/-- What is known once element `p` has gone as far down `w` as its walk goes. -/
structure Walked (P : Params) (b b' : Build) (T : Set (List Nat)) (w : List Nat) (p : Nat) (path : List Nat)
    (r : Nat) : Prop where
  shape : Shape P b' (T ∪ Stretches (w.take P.stop)) ∅
  router : b'.t.routerAt (w.take P.stop) = some r
  frame : Frame b b'
  die : b'.peOfDie = if P.gridded then b.peOfDie.insert r (b.peOfDie.getD r [] ++ [(p, path)]) else b.peOfDie

theorem pePath_spec (htop : P.gridded = true → 3 ≤ P.top) (p : Nat) (path rest : List Nat)
    (h : Shape P b T ∅) (hq : q ∈ T) (hr : b.t.routerAt q = some parent)
    (hlen : (q ++ rest).length = P.depth) (hv : P.Valid (q ++ rest)) (hstop : q.length ≤ P.stop) :
    Walked P b (Build.pePath P p path b parent (keyOf q) rest).1 T (q ++ rest) p path
      (Build.pePath P p path b parent (keyOf q) rest).2 := by
  have hpre : Stretches q ⊆ T := fun x hx => h.mem_of_leading hx hq
  have hsub : T ∪ Stretches q = T := Set.union_eq_self_of_subset_right hpre
  have hlev := h.level_eq hq hr
  induction rest generalizing b T q parent with
  | nil =>
    -- with a fabric the walk has ended at the chip
    have hg : ¬ P.gridded = true := by
      intro hg
      have := stop_lt_depth hg (htop hg)
      have := gridded_le hg
      simp at hlen
      omega
    have htake : (q ++ []).take P.stop = q := by
      have : P.stop = P.depth := if_neg hg
      rw [List.append_nil] at hlen ⊢
      exact List.take_of_length_le (by omega)
    refine ⟨by rw [htake, hsub]; exact h, by rw [htake]; exact hr, Frame.refl b, by rw [if_neg hg]; rfl⟩
  | cons c rest ih =>
    by_cases hdie : P.gridded = true ∧ b.level parent ≤ 3
    · have htop := htop hdie.1
      have hs : P.stop = P.top - 3 := if_pos hdie.1
      have htake : (q ++ c :: rest).take P.stop = q := by
        rw [List.take_append_of_le_length (by omega)]
        exact List.take_of_length_le (by omega)
      rw [Build.pePath, if_pos hdie]
      refine ⟨?_, by rw [htake]; exact hr, ⟨id, rfl⟩, by rw [if_pos hdie.1]; rfl⟩
      rw [htake, hsub]
      exact { h with }
    · rw [Build.pePath, if_neg hdie]
      have hlen' : (q ++ [c] ++ rest).length = P.depth := by simpa using hlen
      have hv' : P.Valid (q ++ [c] ++ rest) := by simpa using hv
      have hc : c < P.fanout (P.top - q.length) := hv q.length c (by simp)
      have hkey : SparseHTree.keyStep (keyOf q) c = keyOf (q ++ [c]) := (keyOf_snoc q c).symm
      obtain ⟨hs, hr', hf, hpd⟩ := h.descend_spec hq hr hc
      have hstop' : (q ++ [c]).length ≤ P.stop := by
        rw [List.length_append, List.length_singleton]
        by_cases hg : P.gridded = true
        · have := htop hg
          have hs : P.stop = P.top - 3 := if_pos hg
          have : ¬ b.level parent ≤ 3 := fun hl => hdie ⟨hg, hl⟩
          omega
        · have hs : P.stop = P.depth := if_neg hg
          simp only [List.length_append, List.length_cons] at hlen
          omega
      have hmem : q ++ [c] ∈ insert (q ++ [c]) T := Set.mem_insert _ _
      have hpre' : Stretches (q ++ [c]) ⊆ insert (q ++ [c]) T := fun x hx => hs.mem_of_leading hx hmem
      have ih := ih hs hmem hr' hlen' hv' hstop' hpre' (Set.union_eq_self_of_subset_right hpre')
        (hs.level_eq hmem hr')
      have hlong : T ∪ Stretches ((q ++ [c] ++ rest).take P.stop)
          = insert (q ++ [c]) T ∪ Stretches ((q ++ [c] ++ rest).take P.stop) := by
        rw [Set.insert_union, Set.insert_eq_of_mem]
        refine .inr ?_
        show q ++ [c] <+: _
        exact List.prefix_take_iff.mpr ⟨⟨rest, rfl⟩, hstop'⟩
      simp only [hkey]
      rw [show q ++ c :: rest = q ++ [c] ++ rest by simp]
      exact ⟨by rw [hlong]; exact ih.shape, ih.router, hf.trans ih.frame, by rw [ih.die, hpd]⟩

/-! ## All elements -/

/-- Every element is on the router of its unit, and every element on a router lives
there. Of several elements with one home the last is on it. -/
structure OnLeaves (P : Params) (homes : List Nat) (t : SparseHTree) : Prop where
  of : ∀ {r p : Nat}, t.peOfLeaf[r]? = some p → ∃ h, homes[p]? = some h ∧ t.routerAt (P.unitPath h) = some r
  at' : ∀ {p h : Nat}, homes[p]? = some h →
    ∃ r p', t.routerAt (P.unitPath h) = some r ∧ t.peOfLeaf[r]? = some p'

/-- Every element waits for the grid of its die, and every die that has one is the die
of its elements. -/
structure OnDies (P : Params) (homes : List Nat) (b : Build) : Prop where
  none : ∀ r : Nat, b.t.peOfLeaf[r]? = none
  links : b.t.extLinks = []
  of : ∀ {r : Nat} {l}, b.peOfDie[r]? = some l → ∃ d, b.t.routerAt d = some r ∧ d.length = P.stop
    ∧ ∀ x ∈ l, ∃ h, homes[x.1]? = some h ∧ x.2 = decompose P.d h P.peLevel ∧ (P.unitPath h).take P.stop = d
  at' : ∀ {p h : Nat}, homes[p]? = some h → ∃ r l, b.t.routerAt ((P.unitPath h).take P.stop) = some r
    ∧ b.peOfDie[r]? = some l ∧ (p, decompose P.d h P.peLevel) ∈ l

/-- The state after the elements at `homes` were placed. -/
structure Placing (P : Params) (homes : List Nat) (b : Build) (T : Set (List Nat)) : Prop where
  shape : Shape P b T ∅
  tree : ∀ q, q ∈ T ↔ q = [] ∨ ∃ h ∈ homes, q <+: (P.unitPath h).take P.stop
  rest : ∀ r i e o, { b.t with routerOf := r, intLinks := i, extLinks := e, peOfLeaf := o }
    = { (emptyBuild P).t with routerOf := r, intLinks := i, extLinks := e, peOfLeaf := o }
  leaves : P.gridded = false → OnLeaves P homes b.t
  dies : P.gridded = true → OnDies P homes b

theorem emptyBuild_placing (P : Params) : Placing P [] (emptyBuild P) {[]} := by
  have hr : ∀ k : String, (emptyBuild P).t.routerOf[k]? = if k = "" then some 0 else none := by
    intro k
    show ((∅ : Std.TreeMap String Nat).insert "" 0)[k]? = _
    rw [getElem?_insert_eq, Std.TreeMap.getElem?_emptyc]
  have hat : ∀ q, (emptyBuild P).t.routerAt q = if q = [] then some 0 else none := by
    intro q
    rw [SparseHTree.routerAt, hr]
    by_cases hq : q = []
    · rw [if_pos hq, if_pos (by rw [hq, keyOf_nil])]
    · rw [if_neg hq, if_neg fun he => hq (keyOf_inj (he.trans keyOf_nil.symm))]
  have hi : ∀ r : Nat, (emptyBuild P).info[r]? = if r = 0 then some ⟨P.top, ∅⟩ else none := by
    intro r
    show ((∅ : Std.TreeMap Nat Node).insert 0 ⟨P.top, ∅⟩)[r]? = _
    rw [getElem?_insert_eq, Std.TreeMap.getElem?_emptyc]
  have hroot : ∀ {q r}, (emptyBuild P).t.routerAt q = some r → q = [] ∧ r = 0 := by
    intro q r hx
    rw [hat] at hx
    split at hx
    next hq => exact ⟨hq, (Option.some.inj hx).symm⟩
    next => exact absurd hx (by simp)
  refine ⟨?_, by simp, fun _ _ _ _ => rfl, fun _ => ⟨?_, by simp⟩, fun _ => ⟨?_, rfl, ?_, by simp⟩⟩
  · refine
      { rootMem := rfl
        root := by rw [hat, if_pos rfl]
        keys := fun {k r} hk => ?_
        live := fun q => ?_
        inj := fun h₁ h₂ => (hroot h₁).1.trans (hroot h₂).1.symm
        lt := fun hx => (hroot hx).2 ▸ Nat.one_pos
        infoLt := fun {r nd} hx => ?_
        owner := fun {r nd} hx => ?_
        notHub := fun _ => by simp [Build.isHub, emptyBuild]
        closed := fun hx => absurd hx (by simp)
        valid := fun hx => by
          obtain rfl : _ = [] := hx
          exact Params.Valid.nil P
        treeInfo := fun {q r} hq _ hx => ?_
        die := fun hd => absurd hd (by simp)
        dieInfo := fun hd => absurd hd (by simp)
        nodeInfo := fun hx => by
          obtain ⟨d, hd, -⟩ := hx
          exact absurd hd (by simp)
        grid := Nat.zero_le _
        exit := fun r => by simp [emptyBuild] }
    · rw [hr] at hk
      split at hk
      next he => exact ⟨[], he⟩
      next => exact absurd hk (by simp)
    · constructor
      · rintro ⟨r, hx⟩
        exact .inl (hroot hx).1
      · rintro (rfl | ⟨d, hd, _⟩)
        · exact ⟨0, by rw [hat, if_pos rfl]⟩
        · exact absurd hd (by simp)
    · rw [hi] at hx
      split at hx
      next he => exact he ▸ Nat.one_pos
      next => exact absurd hx (by simp)
    · rw [hi] at hx
      split at hx
      next he => exact .inl ⟨[], by rw [hat, if_pos rfl, he]⟩
      next => exact absurd hx (by simp)
    · obtain ⟨rfl, rfl⟩ := hroot hx
      exact ⟨∅, by rw [hi, if_pos rfl]; rfl, by simp⟩
  · intro r p hp
    rw [show (emptyBuild P).t.peOfLeaf = ∅ from rfl, Std.TreeMap.getElem?_emptyc] at hp
    exact absurd hp (by simp)
  · intro r
    exact Std.TreeMap.getElem?_emptyc
  · intro r l hl
    rw [show (emptyBuild P).peOfDie = ∅ from rfl, Std.TreeMap.getElem?_emptyc] at hl
    exact absurd hl (by simp)

theorem placePE_eq (hf : P.fullLeaves = false) (b : Build) (home p : Nat) :
    Build.placePE P b home p
      = if P.gridded ∧ (Build.pePath P p (decompose P.d home P.peLevel) b 0 "" (P.unitPath home)).1.level
            (Build.pePath P p (decompose P.d home P.peLevel) b 0 "" (P.unitPath home)).2 ≤ 3
        then (Build.pePath P p (decompose P.d home P.peLevel) b 0 "" (P.unitPath home)).1
        else (Build.pePath P p (decompose P.d home P.peLevel) b 0 "" (P.unitPath home)).1.attachPE P p
          (Build.pePath P p (decompose P.d home P.peLevel) b 0 "" (P.unitPath home)).2 := by
  simp only [Build.placePE, hf, Bool.false_eq_true, if_false, Nat.sub_zero, List.take_length]
  rfl

theorem OnLeaves.place {homes : List Nat} {t t' : SparseHTree} {home r : Nat} (h : OnLeaves P homes t)
    (hmono : ∀ {q r}, t.routerAt q = some r → t'.routerAt q = some r)
    (hr : t'.routerAt (P.unitPath home) = some r) (hpe : t'.peOfLeaf = t.peOfLeaf.insert r homes.length) :
    OnLeaves P (homes ++ [home]) t' := by
  refine ⟨fun {s p} hp => ?_, fun {p h'} hh => ?_⟩
  · rw [hpe, getElem?_insert_eq] at hp
    split at hp
    next he =>
      obtain rfl : homes.length = p := Option.some.inj hp
      exact ⟨home, by simp, by rw [hr, he]⟩
    next =>
      obtain ⟨h', hh, hx⟩ := h.of hp
      refine ⟨h', ?_, hmono hx⟩
      rw [List.getElem?_append_left (List.getElem?_eq_some_iff.mp hh).1]
      exact hh
  · simp only [hpe, getElem?_insert_eq]
    by_cases hp : p < homes.length
    · rw [List.getElem?_append_left hp] at hh
      obtain ⟨s, p', hx, hp'⟩ := h.at' hh
      by_cases he : s = r
      · exact ⟨s, homes.length, hmono hx, if_pos he⟩
      · exact ⟨s, p', hmono hx, by rw [if_neg he]; exact hp'⟩
    · have : p = homes.length := by
        have := (List.getElem?_eq_some_iff.mp hh).1
        simp only [List.length_append, List.length_singleton] at this
        omega
      obtain rfl : home = h' := by simpa [this] using hh
      exact ⟨r, homes.length, hr, if_pos rfl⟩

theorem OnDies.place {homes : List Nat} {b' : Build} {home r : Nat} (hp : P.Placed) (h : OnDies P homes b)
    (hd : home < P.units) (hstop : P.stop ≤ P.depth) (f : Frame b b')
    (hr : b'.t.routerAt ((P.unitPath home).take P.stop) = some r)
    (hinj : ∀ {q q' r}, b'.t.routerAt q = some r → b'.t.routerAt q' = some r → q = q')
    (hpe : b'.peOfDie = b.peOfDie.insert r (b.peOfDie.getD r [] ++ [(homes.length, decompose P.d home P.peLevel)])) :
    OnDies P (homes ++ [home]) b' := by
  have hext : ∀ {p h : Nat}, homes[p]? = some h → (homes ++ [home])[p]? = some h := by
    intro p h hh
    rw [List.getElem?_append_left (List.getElem?_eq_some_iff.mp hh).1]
    exact hh
  have hold : ∀ x ∈ b.peOfDie.getD r [], ∃ h', homes[x.1]? = some h' ∧ x.2 = decompose P.d h' P.peLevel
      ∧ (P.unitPath h').take P.stop = (P.unitPath home).take P.stop := by
    intro x hx
    rw [Std.TreeMap.getD_eq_getD_getElem?] at hx
    cases hl : b.peOfDie[r]? with
    | none => simp [hl] at hx
    | some l =>
      obtain ⟨d, hdr, _, hall⟩ := h.of hl
      rw [hl] at hx
      obtain ⟨h', hh, hpath, hd'⟩ := hall x hx
      exact ⟨h', hh, hpath, hd'.trans (hinj (f.routers hdr) hr)⟩
  refine ⟨fun r => ?_, ?_, fun {s l} hl => ?_, fun {p h'} hh => ?_⟩
  · rw [f.rest]
    exact h.none r
  · rw [f.rest]
    exact h.links
  · rw [hpe, getElem?_insert_eq] at hl
    split at hl
    next he =>
      obtain rfl := Option.some.inj hl
      refine ⟨(P.unitPath home).take P.stop, by rw [hr, he], ?_, fun x hx => ?_⟩
      · rw [List.length_take, length_unitPath hp hd]
        omega
      · rcases List.mem_append.mp hx with hx | hx
        · obtain ⟨h', hh, hrest⟩ := hold x hx
          exact ⟨h', hext hh, hrest⟩
        · obtain rfl := List.mem_singleton.mp hx
          exact ⟨home, by simp, rfl, rfl⟩
    next =>
      obtain ⟨d, hdr, hlen, hall⟩ := h.of hl
      refine ⟨d, f.routers hdr, hlen, fun x hx => ?_⟩
      obtain ⟨h', hh, hrest⟩ := hall x hx
      exact ⟨h', hext hh, hrest⟩
  · by_cases hp : p < homes.length
    · rw [List.getElem?_append_left hp] at hh
      obtain ⟨s, l, hx, hl, hm⟩ := h.at' hh
      by_cases he : s = r
      · refine ⟨s, _, f.routers hx, by rw [hpe, getElem?_insert_eq, if_pos he], List.mem_append_left _ ?_⟩
        rw [Std.TreeMap.getD_eq_getD_getElem?, ← he, hl]
        exact hm
      · exact ⟨s, l, f.routers hx, by rw [hpe, getElem?_insert_eq, if_neg he]; exact hl, hm⟩
    · have hlen : p = homes.length := by
        have := (List.getElem?_eq_some_iff.mp hh).1
        simp only [List.length_append, List.length_singleton] at this
        omega
      obtain rfl : home = h' := by simpa [hlen] using hh
      refine ⟨r, _, hr, by rw [hpe, getElem?_insert_eq, if_pos rfl], List.mem_append_right _ ?_⟩
      rw [hlen]
      exact List.mem_singleton.mpr rfl

theorem stop_le_depth (htop : P.gridded = true → 3 ≤ P.top) : P.stop ≤ P.depth := by
  by_cases hg : P.gridded = true
  · have := stop_lt_depth hg (htop hg)
    omega
  · exact (if_neg hg : P.stop = P.depth).le

theorem placePE_placing {homes : List Nat} {home : Nat} (hf : P.fullLeaves = false) (hp : P.Placed)
    (htop : P.gridded = true → 3 ≤ P.top) (hh : home < P.units) (h : Placing P homes b T) :
    Placing P (homes ++ [home]) (Build.placePE P b home homes.length)
      (T ∪ Stretches ((P.unitPath home).take P.stop)) := by
  have hlen := length_unitPath hp hh
  have hw := pePath_spec htop homes.length (decompose P.d home P.peLevel) (P.unitPath home)
    h.shape h.shape.rootMem h.shape.root hlen (valid_unitPath hp hh) (Nat.zero_le _)
  rw [keyOf_nil, List.nil_append] at hw
  have htree : ∀ q, q ∈ T ∪ Stretches ((P.unitPath home).take P.stop) ↔
      q = [] ∨ ∃ h ∈ homes ++ [home], q <+: (P.unitPath h).take P.stop := by
    intro q
    rw [Set.mem_union, h.tree]
    simp only [List.mem_append, List.mem_singleton, or_and_right, exists_or, exists_eq_left]
    exact or_assoc
  rw [placePE_eq hf]
  generalize Build.pePath P homes.length (decompose P.d home P.peLevel) b 0 "" (P.unitPath home) = s at hw ⊢
  obtain ⟨b', r⟩ := s
  have hlev : b'.level r = P.top - P.stop := by
    rw [hw.shape.level_eq (.inr List.prefix_rfl) hw.router, List.length_take, hlen,
      Nat.min_eq_left (stop_le_depth htop)]
  have hrest : ∀ r i e o, { b'.t with routerOf := r, intLinks := i, extLinks := e, peOfLeaf := o }
      = { (emptyBuild P).t with routerOf := r, intLinks := i, extLinks := e, peOfLeaf := o } := by
    intro r i e o
    rw [hw.frame.rest, ← h.rest r i e o]
  by_cases hg : P.gridded = true
  · -- the die takes the element
    have hs : P.stop = P.top - 3 := if_pos hg
    have := htop hg
    rw [if_pos ⟨hg, by dsimp only; omega⟩]
    refine ⟨hw.shape, htree, hrest, fun hg' => absurd hg (by simp [hg']), fun _ => ?_⟩
    exact (h.dies hg).place hp hh (stop_le_depth htop) hw.frame hw.router hw.shape.inj
      (by rw [hw.die, if_pos hg])
  · have hs : P.stop = P.depth := if_neg hg
    have htake : (P.unitPath home).take P.stop = P.unitPath home := List.take_of_length_le (by omega)
    have hr := hw.router
    rw [htake] at hr
    rw [if_neg fun hc => hg hc.1]
    refine ⟨{ hw.shape with }, htree, hrest, fun hg' => ?_, fun hg' => absurd hg' hg⟩
    refine (h.leaves hg').place hw.frame.routers hr ?_
    show (if P.fullLeaves then _ else _) = _
    rw [hf, if_neg (by simp)]
    exact congrArg (fun t => t.peOfLeaf.insert r homes.length) hw.frame.rest

/-- **The elements' pass builds the leading stretches of their walks.** -/
theorem placePEs_placing {homes : List Nat} (hf : P.fullLeaves = false) (hp : P.Placed)
    (htop : P.gridded = true → 3 ≤ P.top) (hh : ∀ h ∈ homes, h < P.units) :
    ∃ T, Placing P homes (Build.placePEs P (emptyBuild P) homes) T := by
  induction homes using List.reverseRecOn with
  | nil => exact ⟨_, emptyBuild_placing P⟩
  | append_singleton homes home ih =>
    obtain ⟨T, h⟩ := ih fun x hx => hh x (List.mem_append_left _ hx)
    have hstep := placePE_placing hf hp htop (hh home (by simp)) h
    refine ⟨T ∪ Stretches ((P.unitPath home).take P.stop), ?_⟩
    rw [Build.placePEs, List.zipIdx_append, List.foldl_append]
    simpa [Build.placePEs] using hstep

end Pimid.Htree
