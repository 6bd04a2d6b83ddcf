import Mathlib.Combinatorics.SimpleGraph.Acyclic
import Mathlib.Combinatorics.SimpleGraph.DegreeSum
import Pimid.Garnet.Attribution

/-!
# The test for a tree

The builder and the wrapper take the links of a file for a tree when the search from router 0
reaches every router and there are `2 * (routers - 1)` of them. That counts directed links:
it finds every tree, and where each link has one back it finds nothing else. A tree found has
the distances for depths, and the wrapper's way between two routers is the tree's one path.
-/

namespace Pimid.Garnet

open SimpleGraph

/-! ## Trees as link lists -/

/-- The entries are both directions of the edges of a tree on the routers, each once. -/
structure TreeEntries (n : Nat) (entries : List (Nat × Nat)) (G : SimpleGraph (Fin n)) : Prop where
  tree : G.IsTree
  once : entries.Nodup
  mem : ∀ a b, (a, b) ∈ entries ↔ ∃ (ha : a < n) (hb : b < n), G.Adj ⟨a, ha⟩ ⟨b, hb⟩

section Entries

variable {n : Nat} {entries : List (Nat × Nat)} {G : SimpleGraph (Fin n)}

open Classical in
theorem card_dart (once : entries.Nodup)
    (mem : ∀ a b, (a, b) ∈ entries ↔ ∃ (ha : a < n) (hb : b < n), G.Adj ⟨a, ha⟩ ⟨b, hb⟩) :
    Fintype.card G.Dart = entries.length := by
  have himage : entries.toFinset = Finset.univ.image fun d : G.Dart => (d.fst.val, d.snd.val) := by
    ext ⟨a, b⟩
    rw [List.mem_toFinset, mem, Finset.mem_image]
    constructor
    · intro h
      obtain ⟨ha, hb, hadj⟩ := h
      exact ⟨⟨(⟨a, ha⟩, ⟨b, hb⟩), hadj⟩, Finset.mem_univ _, rfl⟩
    · intro h
      obtain ⟨d, -, hd⟩ := h
      obtain ⟨rfl, rfl⟩ := Prod.mk.inj hd
      exact ⟨d.fst.isLt, d.snd.isLt, d.adj⟩
  have hinj : Function.Injective fun d : G.Dart => (d.fst.val, d.snd.val) := by
    intro d e hde
    obtain ⟨h₁, h₂⟩ := Prod.mk.inj hde
    exact Dart.ext _ _ (Prod.ext (Fin.ext h₁) (Fin.ext h₂))
  rw [← List.toFinset_card_of_nodup once, himage, Finset.card_image_of_injective _ hinj, Finset.card_univ]

theorem TreeEntries.length (h : TreeEntries n entries G) : entries.length = (n - 1) * 2 := by
  classical
  rw [← card_dart h.once h.mem, G.dart_card_eq_twice_card_edges]
  have := h.tree.card_edgeFinset
  rw [Fintype.card_fin] at this
  omega

theorem TreeEntries.symm (h : TreeEntries n entries G) {e : Nat × Nat} (he : e ∈ entries) : e.swap ∈ entries := by
  obtain ⟨ha, hb, hadj⟩ := (h.mem e.1 e.2).mp he
  exact (h.mem e.2 e.1).mpr ⟨hb, ha, hadj.symm⟩

/-- From one router to another along the entries. -/
def Leads (entries : List (Nat × Nat)) : Nat → Nat → Prop := Relation.ReflTransGen fun a b => (a, b) ∈ entries

theorem TreeEntries.leads (h : TreeEntries n entries G) {a b : Nat} (ha : a < n) (hb : b < n) : Leads entries a b := by
  obtain ⟨w⟩ := h.tree.connected ⟨a, ha⟩ ⟨b, hb⟩
  have haux : ∀ {x y : Fin n} (_ : G.Walk x y), Leads entries x y := by
    intro x y w
    induction w with
    | nil => exact Relation.ReflTransGen.refl
    | cons hadj _ ih => exact Relation.ReflTransGen.head ((h.mem _ _).mpr ⟨Fin.isLt _, Fin.isLt _, hadj⟩) ih
  exact haux w

end Entries

/-! ## The search -/

namespace TopoParsed

variable {f : TopoParsed} {parent level : Nat → Nat}

theorem inRange_iff : f.inRange = true ↔ ∀ e ∈ f.intEntries, e.1 < f.numRouters ∧ e.2 < f.numRouters := by
  unfold inRange
  simp

theorem bare_wellFormed (hpos : 0 < f.numRouters) (hin : ∀ e ∈ f.intEntries, e.1 < f.numRouters ∧ e.2 < f.numRouters) :
    f.bare.WellFormed :=
  ⟨hpos, hin, nofun, List.nodup_nil⟩

/-- A router has a label when the entries lead to it. -/
theorem labelled_iff (hwf : f.bare.WellFormed) {r : Nat} : f.bfs.dist r ≠ none ↔ Leads f.intEntries 0 r := by
  have hex : Explored IntLink.src IntLink.dst f.bare.buildFromFile.intLinks 0 f.bfs.dist f.bfs.prev fun _ => False :=
    hwf.explored_bfs.1
  constructor
  · intro hr
    obtain ⟨k, hk⟩ := Option.ne_none_iff_exists'.mp hr
    obtain ⟨⟨path, hpath, -⟩, -⟩ := hex.exact hk
    have haux : ∀ {path : List IntLink} {a b : Nat},
        IsWalk IntLink.src IntLink.dst f.bare.buildFromFile.intLinks a b path → Leads f.intEntries a b := by
      intro path
      induction path with
      | nil =>
        intro a b hw
        rw [show a = b from hw]
        exact Relation.ReflTransGen.refl
      | cons l path ih =>
        intro a b hw
        obtain ⟨hl, rfl, hrest⟩ := hw
        exact Relation.ReflTransGen.head (mem_intEntries_of_mem hl) (ih hrest)
    exact haux hpath
  · intro hr
    have hwalk : ∃ path, IsWalk IntLink.src IntLink.dst f.bare.buildFromFile.intLinks 0 r path := by
      induction hr with
      | refl => exact ⟨[], rfl⟩
      | tail _ hab ih =>
        obtain ⟨path, hpath⟩ := ih
        obtain ⟨l, hl, rfl, rfl⟩ := exists_intLink (f := f.bare) hab
        exact ⟨path ++ [l], hpath.snoc hl⟩
    obtain ⟨path, hpath⟩ := hwalk
    exact hex.labelled (by rw [hex.root_dist]; nofun) hpath

theorem visited_eq_iff (hwf : f.bare.WellFormed) :
    f.bfs.visited = f.numRouters ↔ ∀ r < f.numRouters, Leads f.intEntries 0 r := by
  have hcount : Bfs.Counted (List.range f.numRouters) f.bfs := hwf.explored_bfs.2
  have hv := hcount.visited
  rw [List.length_range] at hv
  have hzero : f.bfs.visited = f.numRouters ↔ (List.range f.numRouters).countP (fun r => f.bfs.dist r = none) = 0 := by
    omega
  rw [hzero, List.countP_eq_zero]
  refine ⟨fun h r hr => (labelled_iff hwf).mp ?_, fun h r hr => ?_⟩
  · simpa using h r (List.mem_range.mpr hr)
  · simpa using (labelled_iff hwf).mpr (h r (List.mem_range.mp hr))

theorem isTree_iff (hpos : 0 < f.numRouters) : f.isTree = true ↔
    (∀ e ∈ f.intEntries, e.1 < f.numRouters ∧ e.2 < f.numRouters) ∧ (∀ r < f.numRouters, Leads f.intEntries 0 r) ∧
      f.intEntries.length = (f.numRouters - 1) * 2 := by
  unfold isTree
  rw [Bool.and_eq_true, Bool.and_eq_true, beq_iff_eq, beq_iff_eq, inRange_iff, and_assoc]
  refine and_congr_right fun hin => ?_
  rw [visited_eq_iff (bare_wellFormed hpos hin)]

/-- The wrapper's search is the builder's, on routers there are. -/
theorem customBfs_eq (hpos : 0 < f.numRouters) (hin : ∀ e ∈ f.intEntries, e.1 < f.numRouters ∧ e.2 < f.numRouters) :
    f.customBfs = f.bfs := by
  show Bfs.run f.bare.customAdj f.numRouters (Bfs.init 0) = _
  rw [(bare_wellFormed hpos hin).customAdj_eq]
  rfl

theorem customIsTree_eq (hpos : 0 < f.numRouters) (hin : ∀ e ∈ f.intEntries, e.1 < f.numRouters ∧ e.2 < f.numRouters) :
    f.customIsTree = f.isTree := by
  have hedges : f.customEdges = f.intEntries := by
    refine List.filter_eq_self.mpr fun e he => ?_
    rw [Bool.and_eq_true, decide_eq_true_eq, decide_eq_true_eq]
    exact hin e he
  unfold customIsTree isTree
  rw [customBfs_eq hpos hin, hedges, inRange_iff.mpr hin, decide_eq_true hpos]

/-! ## Every link back -/

/-- The parents found by the search, each entry of a tree once. -/
theorem nodup_edges {n : Nat} (hlevel : ∀ r, 0 < r → r < n → level r = level (parent r) + 1) :
    ((List.range' 1 (n - 1)).flatMap fun r => [(r, parent r), (parent r, r)]).Nodup := by
  have hrange : ∀ r ∈ List.range' 1 (n - 1), level r = level (parent r) + 1 := by
    intro r hr
    rw [List.mem_range'_1] at hr
    exact hlevel r (by omega) (by omega)
  refine List.nodup_flatMap.mpr ⟨fun r hr => ?_, ?_⟩
  · have := hrange r hr
    have hne : (r, parent r) ≠ (parent r, r) := by
      intro heq
      have := congrArg level (Prod.mk.inj heq).1
      omega
    simp [hne]
  · refine List.Nodup.pairwise_of_forall_ne List.nodup_range' fun r hr s hs hrs => ?_
    have hr := hrange r hr
    have hs := hrange s hs
    intro e her hes
    have hcases : (e = (r, parent r) ∨ e = (parent r, r)) ∧ (e = (s, parent s) ∨ e = (parent s, s)) := by
      simpa using And.intro her hes
    obtain ⟨h₁ | h₁, h₂ | h₂⟩ := hcases
    · exact hrs (congrArg Prod.fst (h₁.symm.trans h₂))
    · -- up the one and down the other
      obtain ⟨hfst, hsnd⟩ := Prod.mk.inj (h₁.symm.trans h₂)
      have := congrArg level hfst
      have := congrArg level hsnd
      omega
    · obtain ⟨hfst, hsnd⟩ := Prod.mk.inj (h₁.symm.trans h₂)
      have := congrArg level hfst
      have := congrArg level hsnd
      omega
    · exact hrs (congrArg Prod.snd (h₁.symm.trans h₂))

/-- Where each link has one back, what passes the test is a tree rooted at router 0. -/
theorem treeLinks_of_symm (hpos : 0 < f.numRouters) (htree : f.isTree = true)
    (hsymm : ∀ e ∈ f.intEntries, e.swap ∈ f.intEntries) :
    f.TreeLinks (fun r => (f.bfs.prev r).getD 0) (fun r => (f.bfs.dist r).getD 0) := by
  obtain ⟨hin, hleads, hlen⟩ := (isTree_iff hpos).mp htree
  have hwf := bare_wellFormed hpos hin
  have hex : Explored IntLink.src IntLink.dst f.bare.buildFromFile.intLinks 0 f.bfs.dist f.bfs.prev fun _ => False :=
    hwf.explored_bfs.1
  have hparent (r : Nat) (h0 : 0 < r) (hr : r < f.numRouters) : ((f.bfs.prev r).getD 0, r) ∈ f.intEntries ∧
      (f.bfs.dist r).getD 0 = (f.bfs.dist ((f.bfs.prev r).getD 0)).getD 0 + 1 := by
    obtain ⟨k, hk⟩ := Option.ne_none_iff_exists'.mp ((labelled_iff hwf).mpr (hleads r hr))
    obtain ⟨u, hu⟩ := hex.has_prev hk (by omega)
    obtain ⟨l, hl, rfl, rfl, m, hm, hm'⟩ := hex.prev_edge hu
    rw [hu, Option.getD_some, hm, hm', Option.getD_some, Option.getD_some]
    exact ⟨mem_intEntries_of_mem hl, rfl⟩
  have hlevel (r : Nat) (h0 : 0 < r) (hr : r < f.numRouters) := (hparent r h0 hr).2
  refine ⟨?_, fun r h0 hr => (hin _ (hparent r h0 hr).1).1, hlevel, ?_⟩
  · rw [hex.root_dist]
    rfl
  · refine (List.Subperm.perm_of_length_le (List.subperm_of_subset (nodup_edges hlevel) fun e he => ?_) ?_).symm
    · obtain ⟨r, hr, her⟩ := List.mem_flatMap.mp he
      rw [List.mem_range'_1] at hr
      have hmem := (hparent r (by omega) (by omega)).1
      rcases List.mem_cons.mp her with rfl | her
      · exact hsymm _ hmem
      · rw [List.mem_singleton.mp her]
        exact hmem
    · rw [hlen, List.length_flatMap]
      show _ ≤ ((List.range' 1 (f.numRouters - 1)).map fun _ => 2).sum
      rw [List.map_const', List.sum_replicate, List.length_range', smul_eq_mul]

theorem TreeLinks.treeEntries (h : f.TreeLinks parent level) (hpos : 0 < f.numRouters) :
    ∃ G, TreeEntries f.numRouters f.intEntries G := by
  classical
  have hin := (h.bare hpos).2.int_lt
  have hsymm (a b : Nat) (hab : (a, b) ∈ f.intEntries) : (b, a) ∈ f.intEntries := by
    rw [h.mem_iff] at hab ⊢
    exact hab.symm
  obtain ⟨G, hG⟩ : ∃ G : SimpleGraph (Fin f.numRouters), ∀ x y, G.Adj x y ↔ (x.val, y.val) ∈ f.intEntries := by
    refine ⟨⟨fun x y => (x.val, y.val) ∈ f.intEntries, ⟨fun x y hxy => hsymm _ _ hxy⟩, ⟨fun x hx => ?_⟩⟩, fun _ _ => Iff.rfl⟩
    -- no router is its own parent
    rcases h.mem_iff.mp hx with ⟨h0, hlt, heq⟩ | ⟨h0, hlt, heq⟩ <;>
      have := congrArg level heq <;> have := h.level_parent _ h0 hlt <;> omega
  have hmem (a b : Nat) : (a, b) ∈ f.intEntries ↔ ∃ (ha : a < f.numRouters) (hb : b < f.numRouters), G.Adj ⟨a, ha⟩ ⟨b, hb⟩ := by
    refine ⟨fun hab => ⟨(hin _ hab).1, (hin _ hab).2, (hG _ _).mpr hab⟩, fun hab => ?_⟩
    obtain ⟨ha, hb, hadj⟩ := hab
    exact (hG _ _).mp hadj
  have honce : f.intEntries.Nodup := h.edges.nodup_iff.mpr (nodup_edges h.level_parent)
  have hreach : ∀ (k r : Nat) (hr : r < f.numRouters), level r = k → G.Reachable ⟨0, hpos⟩ ⟨r, hr⟩ := by
    intro k
    induction k with
    | zero =>
      intro r hr hk
      obtain rfl : r = 0 := by
        by_contra hne
        have := h.level_parent r (Nat.pos_of_ne_zero hne) hr
        omega
      exact Reachable.refl _
    | succ k ih =>
      intro r hr hk
      have h0 : 0 < r := by
        refine Nat.pos_of_ne_zero fun hr0 => ?_
        rw [hr0, h.root] at hk
        cases hk
      have hlev := h.level_parent r h0 hr
      have hadj : G.Adj ⟨parent r, h.parent_lt r h0 hr⟩ ⟨r, hr⟩ := (hG _ _).mpr (h.mem_iff.mpr (.inr ⟨h0, hr, rfl⟩))
      exact (ih (parent r) (h.parent_lt r h0 hr) (by omega)).trans hadj.reachable
  have hconn : G.Connected := by
    have : Nonempty (Fin f.numRouters) := ⟨⟨0, hpos⟩⟩
    exact ⟨fun x y => (hreach _ x x.isLt rfl).symm.trans (hreach _ y y.isLt rfl)⟩
  refine ⟨G, isTree_iff_connected_and_card.mpr ⟨hconn, ?_⟩, honce, hmem⟩
  have hdart := card_dart honce hmem
  rw [G.dart_card_eq_twice_card_edges, h.length] at hdart
  rw [Nat.card_eq_fintype_card, ← edgeFinset_card, Nat.card_eq_fintype_card, Fintype.card_fin]
  omega

/-! ## What a tree found is used for -/

section Found

variable {G : SimpleGraph (Fin f.numRouters)}

theorem isTree_of_entries (hpos : 0 < f.numRouters) (h : TreeEntries f.numRouters f.intEntries G) : f.isTree = true := by
  refine (isTree_iff hpos).mpr ⟨fun e he => ?_, fun r hr => h.leads hpos hr, h.length⟩
  obtain ⟨ha, hb, -⟩ := (h.mem e.1 e.2).mp he
  exact ⟨ha, hb⟩

theorem treeLinks_of_entries (hpos : 0 < f.numRouters) (h : TreeEntries f.numRouters f.intEntries G) :
    f.TreeLinks (fun r => (f.bfs.prev r).getD 0) (fun r => (f.bfs.dist r).getD 0) :=
  treeLinks_of_symm hpos (isTree_of_entries hpos h) fun _ he => h.symm he

theorem isDist_of_entries (h : TreeEntries f.numRouters f.intEntries G) (x y : Fin f.numRouters) :
    IsDist IntLink.src IntLink.dst f.buildFromFile.intLinks x y (G.dist x y) := by
  constructor
  · obtain ⟨w, hw⟩ := h.tree.connected.exists_walk_length_eq_dist x y
    have haux : ∀ {x y : Fin f.numRouters} (w : G.Walk x y),
        ∃ path, IsWalk IntLink.src IntLink.dst f.buildFromFile.intLinks x y path ∧ path.length = w.length := by
      intro x y w
      induction w with
      | nil => exact ⟨[], rfl, rfl⟩
      | cons hadj w ih =>
        obtain ⟨path, hpath, hlen⟩ := ih
        obtain ⟨l, hl, hs, hd⟩ := exists_intLink ((h.mem _ _).mpr ⟨Fin.isLt _, Fin.isLt _, hadj⟩)
        exact ⟨l :: path, ⟨hl, hs, hd ▸ hpath⟩, by rw [List.length_cons, hlen, Walk.length_cons]⟩
    obtain ⟨path, hpath, hlen⟩ := haux w
    exact ⟨path, hpath, hlen.trans hw⟩
  · have haux : ∀ {path : List IntLink} {a b : Nat} (ha : a < f.numRouters) (hb : b < f.numRouters),
        IsWalk IntLink.src IntLink.dst f.buildFromFile.intLinks a b path → G.dist ⟨a, ha⟩ ⟨b, hb⟩ ≤ path.length := by
      intro path
      induction path with
      | nil =>
        intro a b ha hb hw
        obtain rfl : a = b := hw
        rw [dist_self]
        exact Nat.zero_le _
      | cons l path ih =>
        intro a b ha hb hw
        obtain ⟨hl, rfl, hrest⟩ := hw
        obtain ⟨hs, hd, hadj⟩ := (h.mem _ _).mp (mem_intEntries_of_mem hl)
        have hrest := ih hd hb hrest
        have hone : G.dist ⟨l.src, hs⟩ ⟨l.dst, hd⟩ = 1 := dist_eq_one_iff_adj.mpr hadj
        have := h.tree.connected.dist_triangle (u := ⟨l.src, ha⟩) (v := ⟨l.dst, hd⟩) (w := ⟨b, hb⟩)
        rw [List.length_cons]
        omega
    exact fun path hpath => haux x.isLt y.isLt hpath

theorem depth_of_entries (hpos : 0 < f.numRouters) (h : TreeEntries f.numRouters f.intEntries G) (x : Fin f.numRouters) :
    f.depth x = some (G.dist ⟨0, hpos⟩ x) := by
  have htree := isTree_of_entries hpos h
  have hwf := bare_wellFormed hpos ((isTree_iff hpos).mp htree).1
  have hex : Explored IntLink.src IntLink.dst f.bare.buildFromFile.intLinks 0 f.bfs.dist f.bfs.prev fun _ => False :=
    hwf.explored_bfs.1
  rw [depth, if_pos htree]
  exact hex.dist_iff.mpr (isDist_of_entries h ⟨0, hpos⟩ x)

theorem exists_walk {path : List Nat} {x y : Fin f.numRouters} (hmem : ∀ r ∈ path, r < f.numRouters)
    (hchain : path.IsChain fun a b => ∀ ha hb, G.Adj ⟨a, ha⟩ ⟨b, hb⟩) (hhead : path.head? = some x.val)
    (hlast : path.getLast? = some y.val) : ∃ w : G.Walk x y, w.support.map Fin.val = path := by
  induction path generalizing x with
  | nil => cases hhead
  | cons a rest ih =>
    obtain rfl : a = x.val := Option.some.inj hhead
    cases rest with
    | nil =>
      obtain rfl : x = y := Fin.ext (Option.some.inj hlast)
      exact ⟨Walk.nil, rfl⟩
    | cons b rest =>
      rw [List.isChain_cons_cons] at hchain
      have hb : b < f.numRouters := hmem b (List.mem_cons_of_mem _ List.mem_cons_self)
      obtain ⟨w, hw⟩ := ih (x := ⟨b, hb⟩) (fun r hr => hmem r (List.mem_cons_of_mem _ hr)) hchain.2 rfl
        (by rw [← hlast, List.getLast?_cons_cons])
      exact ⟨Walk.cons (hchain.1 x.isLt hb) w, by rw [Walk.support_cons, List.map_cons, hw]⟩

/-- **The wrapper's way between two routers of a tree is the tree's one path.** -/
theorem pathRouters_of_entries (hpos : 0 < f.numRouters) (h : TreeEntries f.numRouters f.intEntries G)
    {src dst : Nat} {x y : Fin f.numRouters} (hx : f.epToRouter[src]? = some x.val) (hy : f.epToRouter[dst]? = some y.val) :
    ∃ w : G.Walk x y, w.IsPath ∧ (∀ p : G.Walk x y, p.IsPath → p = w) ∧
      f.pathRouters src dst = some (w.support.map Fin.val) := by
  have hl := treeLinks_of_entries hpos h
  have hdist := isDist_of_entries h x y
  have hedges := hl.treeEdges hpos
  obtain ⟨path, hpath, hmem, hlen⟩ := Rooted.between_isDist (hl.rooted hpos) hedges x.isLt y.isLt
    (show f.routerDepth x < f.routerDepth x + f.routerDepth y + 1 by omega) (by omega) hdist
  obtain ⟨hchain, hhead, hlast⟩ := Rooted.between_chain hpath
  have hadj {a b : Nat} (ha : a < f.numRouters) (hb : b < f.numRouters) (hab : Rooted.Near f.routerParent a b) :
      G.Adj ⟨a, ha⟩ ⟨b, hb⟩ := by
    have hentry : (a, b) ∈ f.intEntries := by
      rcases hab with hab | hab
      · obtain ⟨l, hl, rfl, rfl⟩ := hedges.up a b ha hab
        exact mem_intEntries_of_mem hl
      · obtain ⟨l, hl, rfl, rfl⟩ := hedges.down b a hb hab
        exact mem_intEntries_of_mem hl
    exact ((h.mem a b).mp hentry).2.2
  obtain ⟨w, hw⟩ := exists_walk (G := G) (x := x) (y := y) hmem (hchain.imp fun a b hab ha hb => hadj ha hb hab) hhead hlast
  have hwlen : w.length = G.dist x y := by
    have := congrArg List.length hw
    rw [List.length_map, Walk.length_support, hlen] at this
    omega
  have hwpath := w.isPath_of_length_eq_dist hwlen
  refine ⟨w, hwpath, fun p hp => (h.tree.existsUnique_path x y).unique hp hwpath, ?_⟩
  unfold pathRouters
  rw [if_pos (hl.customIsTree hpos), hx, hy]
  dsimp only
  rw [if_neg (by omega), hw]
  exact hpath

end Found

/-! ## The test, exactly -/

/-- **What the test is for**: it tells the trees, with their distances for depths, links between neighbouring depths
only, and the one path between any two endpoints. -/
structure TreeDetected (f : TopoParsed) : Prop where
  builder : f.isTree = true ↔ ∃ G, TreeEntries f.numRouters f.intEntries G
  wrapper : (∀ e ∈ f.intEntries, e.1 < f.numRouters ∧ e.2 < f.numRouters) →
    (f.customIsTree = true ↔ ∃ G, TreeEntries f.numRouters f.intEntries G)
  depths : ∀ G, TreeEntries f.numRouters f.intEntries G → ∀ root : Fin f.numRouters, root.val = 0 →
    (∀ x : Fin f.numRouters, f.depth x = some (G.dist root x) ∧ f.customBfs.dist x = some (G.dist root x)) ∧
    ∀ e ∈ f.intEntries, ∃ i j, f.depth e.1 = some i ∧ f.depth e.2 = some j ∧ (i = j + 1 ∨ j = i + 1)
  paths : ∀ G, TreeEntries f.numRouters f.intEntries G → ∀ (src dst : Nat) (x y : Fin f.numRouters),
    f.epToRouter[src]? = some x.val → f.epToRouter[dst]? = some y.val →
    ∃ w : G.Walk x y, w.IsPath ∧ (∀ p : G.Walk x y, p.IsPath → p = w) ∧
      f.pathRouters src dst = some (w.support.map Fin.val)

/-- What holds of the trees holds whatever the file. -/
theorem treeDetected_of_builder (hpos : 0 < f.numRouters)
    (hb : f.isTree = true ↔ ∃ G, TreeEntries f.numRouters f.intEntries G) : f.TreeDetected := by
  refine ⟨hb, fun hin => by rw [customIsTree_eq hpos hin]; exact hb, fun G h root hroot => ?_, fun G h src dst x y hx hy => ?_⟩
  · obtain rfl : root = ⟨0, hpos⟩ := Fin.ext hroot
    have hdepth (x : Fin f.numRouters) := depth_of_entries hpos h x
    have htree := isTree_of_entries hpos h
    refine ⟨fun x => ⟨hdepth x, ?_⟩, fun e he => ?_⟩
    · have := hdepth x
      rw [depth, if_pos htree] at this
      rw [customBfs_eq hpos ((isTree_iff hpos).mp htree).1]
      exact this
    · obtain ⟨ha, hb, hadj⟩ := (h.mem e.1 e.2).mp he
      exact ⟨_, _, hdepth ⟨e.1, ha⟩, hdepth ⟨e.2, hb⟩, h.tree.dist_eq_dist_add_one_of_adj _ hadj⟩
  · exact pathRouters_of_entries hpos h hx hy

/-- **The test is right of a file exactly when each link has one back, or it fails.** -/
theorem treeDetected_iff (hpos : 0 < f.numRouters) : f.TreeDetected ↔
    (∀ e ∈ f.intEntries, e.swap ∈ f.intEntries) ∨ (∃ e ∈ f.intEntries, f.numRouters ≤ e.1 ∨ f.numRouters ≤ e.2) ∨
      (∃ r < f.numRouters, ¬ Leads f.intEntries 0 r) ∨ f.intEntries.length ≠ 2 * (f.numRouters - 1) := by
  constructor
  · intro h
    by_cases htree : f.isTree = true
    · obtain ⟨G, hG⟩ := h.builder.mp htree
      exact .inl fun e he => hG.symm he
    · have hnot := mt (isTree_iff hpos).mpr htree
      by_contra hno
      simp only [not_or, not_exists, not_and, Nat.not_le, not_not] at hno
      obtain ⟨-, hin, hleads, hlen⟩ := hno
      exact hnot ⟨hin, hleads, by omega⟩
  · intro h
    refine treeDetected_of_builder hpos ⟨fun htree => ?_, fun hG => ?_⟩
    · obtain ⟨hin, hleads, hlen⟩ := (isTree_iff hpos).mp htree
      rcases h with hsymm | ⟨e, he, hout⟩ | ⟨r, hr, hno⟩ | hne
      · exact (treeLinks_of_symm hpos htree hsymm).treeEntries hpos
      · have := hin e he
        omega
      · exact absurd (hleads r hr) hno
      · omega
    · obtain ⟨G, hG⟩ := hG
      exact isTree_of_entries hpos hG

/-- A link and the link back. -/
theorem treeDetected_two : (⟨2, 2, [(0, 0), (1, 1)], [(0, 1), (1, 0)], [], []⟩ : TopoParsed).TreeDetected :=
  (treeDetected_iff (by decide)).mpr (.inl (by decide))

/-- Two links out of router 0, each given twice and neither back, pass for a tree. -/
theorem passes_for_a_tree : ¬ (⟨3, 3, [], [(0, 1), (0, 2), (0, 1), (0, 2)], [], []⟩ : TopoParsed).TreeDetected := by
  intro h
  obtain ⟨G, hG⟩ := h.builder.mp (by decide)
  exact absurd (hG.symm (e := (0, 1)) (by decide)) (by decide)

end TopoParsed

end Pimid.Garnet
