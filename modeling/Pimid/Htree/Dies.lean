import Pimid.Htree.Die

/-!
# All gridded dies

The dies that hold an element get their grids one after another; each element of a die
ends up on the node of its own unit.
-/

namespace Pimid.Htree

variable {P : Params} {b b₀ : Build} {T D : Set (List Nat)} {d : List Nat} {homes : List Nat}

/-! ## Elements on nodes -/

/-- The router an element with coordinates `path` is put on. -/
def nodeRouterOf (P : Params) (rs : List Nat) (path : List Nat) : Nat :=
  rs.getD (if Build.nodeIndex P.d P.peLevel 1 (path.reverse.take (3 - P.peLevel)) ≥ rs.length then 0
    else Build.nodeIndex P.d P.peLevel 1 (path.reverse.take (3 - P.peLevel))) 0

theorem foldl_attachNode_spec (rs : List Nat) (pes : List (Nat × List Nat)) (b : Build) :
    (∀ {r p : Nat}, (pes.foldl (Build.attachNode P rs) b).t.peOfLeaf[r]? = some p →
        b.t.peOfLeaf[r]? = some p ∨ ∃ x ∈ pes, x.1 = p ∧ r = nodeRouterOf P rs x.2)
      ∧ (∀ {r p : Nat}, b.t.peOfLeaf[r]? = some p →
        ∃ p', (pes.foldl (Build.attachNode P rs) b).t.peOfLeaf[r]? = some p')
      ∧ (∀ x ∈ pes, ∃ p', (pes.foldl (Build.attachNode P rs) b).t.peOfLeaf[nodeRouterOf P rs x.2]? = some p')
      ∧ ∀ l ∈ (pes.foldl (Build.attachNode P rs) b).t.extLinks,
        l ∈ b.t.extLinks ∨ ∃ x ∈ pes, l.b = nodeRouterOf P rs x.2 := by
  induction pes generalizing b with
  | nil => exact ⟨.inl, fun h => ⟨_, h⟩, by simp, fun _ => .inl⟩
  | cons x pes ih =>
    obtain ⟨hof, hkeep, hat, hlinks⟩ := ih (Build.attachNode P rs b x)
    have hx : ∀ r : Nat, (Build.attachNode P rs b x).t.peOfLeaf[r]?
        = if r = nodeRouterOf P rs x.2 then some x.1 else b.t.peOfLeaf[r]? :=
      fun r => getElem?_insert_eq _ _ _ _
    refine ⟨fun {r p} h => ?_, fun {r p} h => ?_, fun y hy => ?_, fun l hl => ?_⟩
    · rcases hof h with h | ⟨y, hy, h⟩
      · rw [hx] at h
        split at h
        next hr => exact .inr ⟨x, List.mem_cons_self, Option.some.inj h, hr⟩
        next => exact .inl h
      · exact .inr ⟨y, List.mem_cons_of_mem _ hy, h⟩
    · by_cases hr : r = nodeRouterOf P rs x.2
      · exact hkeep (p := x.1) (by rw [hx, if_pos hr])
      · exact hkeep (p := p) (by rw [hx, if_neg hr]; exact h)
    · rcases List.mem_cons.mp hy with rfl | hy
      · exact hkeep (p := y.1) (by rw [hx, if_pos rfl])
      · exact hat y hy
    · rcases hlinks l hl with hl | ⟨y, hy, h⟩
      · rcases List.mem_append.mp hl with hl | hl
        · exact .inl hl
        · rw [List.mem_singleton.mp hl]
          exact .inr ⟨x, List.mem_cons_self, rfl⟩
      · exact .inr ⟨y, List.mem_cons_of_mem _ hy, h⟩

/-- A unit of the die at `d`: the coordinates below the chip, and the node they number. -/
theorem unitPath_die (hp : P.Placed) (hg : P.gridded = true) (htop : 3 ≤ P.top) {h : Nat} (hh : h < P.units)
    (hd : (P.unitPath h).take P.stop = d) :
    ∃ v, P.unitPath h = d ++ v ∧ List.Forall₂ (· < ·) v P.dieFans
      ∧ ∀ base, nodeRouterOf P (List.range' base P.dieFans.prod) (decompose P.d h P.peLevel)
        = base + ofDigits P.dieFans v := by
  have hpe := gridded_le hg
  have hlen := length_unitPath hp hh
  have hstop := stop_lt_depth hg htop
  have hs : P.stop = P.top - 3 := if_pos hg
  have hsplit : P.unitPath h = d ++ (P.unitPath h).drop P.stop := by
    rw [← hd, List.take_append_drop]
  have hdl : d.length + 3 = P.top := by
    rw [← hd, List.length_take, hlen]
    omega
  have hvl : ((P.unitPath h).drop P.stop).length = 3 - P.peLevel := by
    rw [List.length_drop, hlen]
    omega
  have hv : List.Forall₂ (· < ·) ((P.unitPath h).drop P.stop) P.dieFans :=
    forall₂_dieFans hdl hpe hvl (by rw [← hsplit]; exact valid_unitPath hp hh)
  refine ⟨_, hsplit, hv, fun base => ?_⟩
  have htake : (decompose P.d h P.peLevel).reverse.take (3 - P.peLevel)
      = ((P.unitPath h).drop P.stop).reverse := by
    have hpath : decompose P.d h P.peLevel = (decompose P.d h P.peLevel).take (6 - P.top)
        ++ (d ++ (P.unitPath h).drop P.stop) := by
      rw [← hsplit]
      exact (List.take_append_drop _ _).symm
    rw [hpath, List.reverse_append, List.reverse_append, List.append_assoc,
      List.take_append_of_le_length (by rw [List.length_reverse]; omega)]
    exact List.take_of_length_le (by rw [List.length_reverse]; omega)
  have hidx : Build.nodeIndex P.d P.peLevel 1 ((decompose P.d h P.peLevel).reverse.take (3 - P.peLevel))
      = ofDigits P.dieFans ((P.unitPath h).drop P.stop) := by
    rw [htake, nodeIndex_eq, Nat.one_mul, List.reverse_reverse, List.length_reverse, hvl, ← dieFans_eq hpe]
  have hlt := ofDigits_lt hv
  rw [nodeRouterOf, hidx, List.length_range', if_neg (by omega), List.getD_eq_getElem?_getD,
    List.getElem?_range' hlt]
  simp

/-! ## One die after another -/

/-- The dies of `done` have their grids, and the elements of those dies their nodes. -/
structure DiesDone (P : Params) (homes : List Nat) (b₀ b : Build) (T : Set (List Nat))
    (done : List (Nat × List (Nat × List Nat))) : Prop where
  shape : Shape P b T {d | ∃ x ∈ done, b₀.t.routerAt d = some x.1}
  routers : ∀ {q r}, b₀.t.routerAt q = some r → b.t.routerAt q = some r
  of : ∀ {r p : Nat}, b.t.peOfLeaf[r]? = some p →
    ∃ h, homes[p]? = some h ∧ b.t.routerAt (P.unitPath h) = some r
  at' : ∀ x ∈ done, ∀ y ∈ x.2, ∀ h, y.2 = decompose P.d h P.peLevel → homes[y.1]? = some h →
    ∃ (r p' : Nat), b.t.routerAt (P.unitPath h) = some r ∧ b.t.peOfLeaf[r]? = some p'
  rest : b.t = { b₀.t with
    routerOf := b.t.routerOf, intLinks := b.t.intLinks, extLinks := b.t.extLinks, peOfLeaf := b.t.peOfLeaf
    gridLinks := b.t.gridLinks, gridX := b.t.gridX, gridY := b.t.gridY, gridDie := b.t.gridDie
    dieExitOf := b.t.dieExitOf, gridRouters := b.t.gridRouters }
  hubs : b.t.fabricKind = .crossbar → ∀ {r h : Nat}, b.t.dieExitOf[r]? = some h → Build.isHub b.t h = true
  links : ∀ l ∈ b.t.extLinks, ∃ q, b.t.routerAt q = some l.b

theorem DiesDone.buildDie {done : List (Nat × List (Nat × List Nat))} {chip : Nat} {pes : List (Nat × List Nat)}
    (hp : P.Placed) (hg : P.gridded = true) (htop : 3 ≤ P.top) (hh : ∀ h ∈ homes, h < P.units)
    (h : DiesDone P homes b₀ b T done) (hnew : chip ∉ done.map (·.1))
    (hd : d ∈ T) (hchip : b₀.t.routerAt d = some chip) (hlen : d.length + 3 = P.top) (hno : ∀ c, d ++ [c] ∉ T)
    (hnodes : b₀.t.gridW * b₀.t.gridH = P.dieFans.prod)
    (hpes : ∀ y ∈ pes, ∃ h, homes[y.1]? = some h ∧ y.2 = decompose P.d h P.peLevel
      ∧ (P.unitPath h).take P.stop = d) :
    DiesDone P homes b₀ (Build.buildDie P b chip pes) T (done ++ [(chip, pes)]) := by
  have hpe := gridded_le hg
  have hD : d ∉ {d | ∃ x ∈ done, b₀.t.routerAt d = some x.1} := by
    rintro ⟨x, hx, hr⟩
    exact hnew (List.mem_map.mpr ⟨x, hx, Option.some.inj (hr.symm.trans hchip)⟩)
  have hnodes' : b.t.gridW * b.t.gridH = P.dieFans.prod := by
    rw [h.rest]
    exact hnodes
  have hchip' := h.routers hchip
  have g := buildDie_added h.shape hd hD hchip' hlen hpe hno hnodes' pes
  have hs := h.shape.addDie hd hD hchip' hlen hpe hno g
  have hn := buildDie_nodes h.shape hchip' hpe hnodes'
  have hrest := buildDie_rest b chip pes hn
  have hmono : ∀ {q r}, b.t.routerAt q = some r → (Build.buildDie P b chip pes).t.routerAt q = some r := by
    intro q r hx
    obtain ⟨r', hr'⟩ := (hs.live q).mpr (by
      rcases (h.shape.live q).mp ⟨r, hx⟩ with hm | ⟨d', hd', v, hv, he⟩
      · exact .inl hm
      · exact .inr ⟨d', .inr hd', v, hv, he⟩)
    by_cases hq : ∃ v, List.Forall₂ (· < ·) v P.dieFans ∧ q = d ++ v
    · obtain ⟨v, hv, rfl⟩ := hq
      -- the die's nodes were not there before
      exfalso
      rcases (h.shape.live _).mp ⟨r, hx⟩ with hm | ⟨d', hd', v', hv', he⟩
      · cases v with
        | nil =>
          have := hv.length_eq
          simp [Params.dieFans] at this
          omega
        | cons c v => exact hno c (h.shape.mem_of_leading ⟨v, by simp⟩ hm)
      · have := (h.shape.die hd').2.1
        obtain ⟨rfl, -⟩ := List.append_inj he (by omega)
        exact hD hd'
    · rw [SparseHTree.routerAt, g.other fun v hv he => hq ⟨v, hv, keyOf_inj he⟩]
      exact hx
  have hDset : insert d {d | ∃ x ∈ done, b₀.t.routerAt d = some x.1}
      = {d | ∃ x ∈ done ++ [(chip, pes)], b₀.t.routerAt d = some x.1} := by
    ext q
    simp only [Set.mem_insert_iff, Set.mem_ofPred_eq, List.mem_append, List.mem_singleton, or_and_right, exists_or,
      exists_eq_left]
    constructor
    · rintro (rfl | hx)
      · exact .inr hchip
      · exact .inl hx
    · rintro (hx | hx)
      · exact .inr hx
      · left
        exact h.shape.inj (h.routers hx) hchip'
  rw [hDset] at hs
  have hrs := hn.routers.trans (by rw [hubbed_next, hnodes'] : _ = List.range' (baseOf b) P.dieFans.prod)
  have hbefore : (gridNodes P b chip).1.t.peOfLeaf = b.t.peOfLeaf ∧ (gridNodes P b chip).1.t.extLinks = b.t.extLinks := by
    rw [hn.rest, hubbed_rest]
    exact ⟨rfl, rfl⟩
  -- an element of the die sits on the node of its unit
  have hunit : ∀ {y h'}, y ∈ pes → homes[y.1]? = some h' → y.2 = decompose P.d h' P.peLevel →
      (Build.buildDie P b chip pes).t.routerAt (P.unitPath h')
        = some (nodeRouterOf P (List.range' (baseOf b) P.dieFans.prod) y.2) := by
    intro y h' hy hh' hpath
    obtain ⟨h'', hh'', _, hd''⟩ := hpes y hy
    obtain rfl : h'' = h' := Option.some.inj (hh''.symm.trans hh')
    obtain ⟨v, hpv, hv, hnode⟩ := unitPath_die hp hg htop (hh _ (List.mem_of_getElem? hh')) hd''
    rw [hpv, g.node hv, hpath, hnode]
  obtain ⟨hof, hkeep, hat, hlinks⟩ := foldl_attachNode_spec (P := P)
    (gridNodes P b chip).2 pes
    ((gridNodes P b chip).1.wireDie P chip (layerForLevel P.peLevel P.chanLevel) (hubOf b) (gridNodes P b chip).2)
  rw [← buildDie_eq, hrs] at hof hkeep hat hlinks
  replace hof : ∀ {r p : Nat}, (Build.buildDie P b chip pes).t.peOfLeaf[r]? = some p →
      b.t.peOfLeaf[r]? = some p ∨ ∃ x ∈ pes, x.1 = p
        ∧ r = nodeRouterOf P (List.range' (baseOf b) P.dieFans.prod) x.2 := by
    intro r p hx
    exact hbefore.1 ▸ hof hx
  refine ⟨hs, fun hx => hmono (h.routers hx), fun {r p} hx => ?_, fun x hx y hy h' hpath hh' => ?_, ?_, ?_, ?_⟩
  · rcases hof hx with hx | ⟨y, hy, rfl, hr⟩
    · obtain ⟨h', hh', hr'⟩ := h.of hx
      exact ⟨h', hh', hmono hr'⟩
    · obtain ⟨h', hh', hpath, _⟩ := hpes y hy
      exact ⟨h', hh', by rw [hunit hy hh' hpath, hr]⟩
  · rcases List.mem_append.mp hx with hx | hx
    · obtain ⟨r, p', hr, hp'⟩ := h.at' x hx y hy h' hpath hh'
      obtain ⟨p'', hp''⟩ := hkeep (r := r) (p := p') (hbefore.1 ▸ hp')
      exact ⟨r, p'', hmono hr, hp''⟩
    · rw [List.mem_singleton.mp hx] at hy
      obtain ⟨p', hp'⟩ := hat y hy
      exact ⟨_, p', hunit hy hh' hpath, hp'⟩
  · rw [hrest, h.rest]
  · intro hc r x hx
    have hc' : b.t.fabricKind = .crossbar := by
      rw [hrest] at hc
      exact hc
    rw [g.exit] at hx
    rw [g.hub]
    split at hx
    · rw [← Option.some.inj hx]
      exact .inr (hubOf_eq_some.mp (if_pos hc'))
    · exact .inl (h.hubs hc' hx)
  · intro l hl
    rcases hlinks l hl with hl | ⟨y, hy, hb⟩
    · obtain ⟨q, hq⟩ := h.links l (hbefore.2 ▸ hl)
      exact ⟨q, hmono hq⟩
    · obtain ⟨h', hh', hpath, _⟩ := hpes y hy
      exact ⟨P.unitPath h', by rw [hunit hy hh' hpath, hb]⟩

end Pimid.Htree
