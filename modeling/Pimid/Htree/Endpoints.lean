import Pimid.Htree.Channels

/-!
# Endpoints and walks

The endpoint pass numbers the routers that have something to front, and a unit's walk
ends at its own router or at the last tree router on its path. `Routed` is what the
router passes leave behind; everything here is read off it.
-/

namespace Pimid.Htree

variable {P : Params}

/-! ## Numbering the abstract endpoints -/

/-- What the endpoint pass makes of the routers `l`, from endpoint `n` to `n'`. -/
structure Fronted (P : Params) (t t' : SparseHTree) (l : List (Nat × Node)) (n n' : Nat) : Prop where
  le : n ≤ n'
  rest : t' = { t with
    abstractOf := t'.abstractOf, coverageOf := t'.coverageOf
    frontsLevel := t'.frontsLevel, extLinks := t'.extLinks }
  front : ∀ {r nd f}, (r, nd) ∈ l → Build.fronts P t r nd = some f →
    ∃ e, n ≤ e ∧ e < n' ∧ t'.abstractOf[r]? = some e ∧ t'.coverageOf[e]? = some f.1
  bare : ∀ {r nd}, (r, nd) ∈ l → Build.fronts P t r nd = none → t'.abstractOf[r]? = t.abstractOf[r]?
  other : ∀ {r}, r ∉ l.map (·.1) → t'.abstractOf[r]? = t.abstractOf[r]?
  kept : ∀ {e : Nat}, e < n ∨ n' ≤ e → t'.coverageOf[e]? = t.coverageOf[e]?
  own : ∀ {e : Nat}, n ≤ e → e < n' → ∃ r nd f, (r, nd) ∈ l ∧ Build.fronts P t r nd = some f
    ∧ t'.abstractOf[r]? = some e ∧ t'.coverageOf[e]? = some f.1
  inj : ∀ {r r' e : Nat}, r ∈ l.map (·.1) → r' ∈ l.map (·.1) → n ≤ e →
    t'.abstractOf[r]? = some e → t'.abstractOf[r']? = some e → r = r'
  ends : ∀ {r nd}, (r, nd) ∈ l → ∀ {e : Nat}, t.abstractOf[r]? = none → t'.abstractOf[r]? = some e → n ≤ e ∧ e < n'
  links : ∀ x ∈ t'.extLinks, x ∈ t.extLinks ∨ ∃ e, t'.abstractOf[x.b]? = some e

theorem addAbstracts_fronted {l : List (Nat × Node)} (hl : (l.map (·.1)).Nodup) (t : SparseHTree) (n : Nat)
    (hfree : ∀ r ∈ l.map (·.1), t.abstractOf[r]? = none) :
    Fronted P t (Build.addAbstracts P l t n).1 l n (Build.addAbstracts P l t n).2 := by
  induction l generalizing t n with
  | nil =>
    exact ⟨Nat.le_refl _, rfl, by simp, by simp, fun _ => rfl, fun _ => rfl,
      fun h h' => absurd (Nat.lt_of_le_of_lt h h') (Nat.lt_irrefl _), by simp, by simp, fun _ => .inl⟩
  | cons x l ih =>
    obtain ⟨r, nd⟩ := x
    simp only [List.map_cons, List.nodup_cons] at hl
    obtain ⟨hr, hl⟩ := hl
    have hmem : ∀ {nd'}, (r, nd') ∉ l := fun h => hr (List.mem_map_of_mem h)
    cases hf : Build.fronts P t r nd with
    | none =>
      have hstep : Build.addAbstracts P ((r, nd) :: l) t n = Build.addAbstracts P l t n := by
        rw [Build.addAbstracts, hf]
      rw [hstep]
      have h := ih hl t n fun s hs => hfree s (List.mem_cons_of_mem _ hs)
      have hkeep := h.other hr
      refine ⟨h.le, h.rest, ?_, ?_, ?_, h.kept, ?_, ?_, ?_, h.links⟩
      · intro s nd' f hm hs
        rcases List.mem_cons.mp hm with he | hm
        · obtain ⟨rfl, rfl⟩ := Prod.mk.inj he
          rw [hf] at hs
          exact absurd hs (by simp)
        · exact h.front hm hs
      · intro s nd' hm hs
        rcases List.mem_cons.mp hm with he | hm
        · obtain ⟨rfl, rfl⟩ := Prod.mk.inj he
          exact hkeep
        · exact h.bare hm hs
      · intro s hs
        exact h.other fun hm => hs (List.mem_cons_of_mem _ hm)
      · intro e h₁ h₂
        obtain ⟨s, nd', f, hm, hrest⟩ := h.own h₁ h₂
        exact ⟨s, nd', f, List.mem_cons_of_mem _ hm, hrest⟩
      · have hbare : ∀ {e}, (Build.addAbstracts P l t n).1.abstractOf[r]? ≠ some e := by
          intro e he
          rw [hkeep, hfree r (by simp)] at he
          exact absurd he (by simp)
        intro s s' e hs hs' hle h₁ h₂
        rcases List.mem_cons.mp hs with rfl | hs
        · exact absurd h₁ hbare
        rcases List.mem_cons.mp hs' with rfl | hs'
        · exact absurd h₂ hbare
        exact h.inj hs hs' hle h₁ h₂
      · intro s nd' hm e hn he
        rcases List.mem_cons.mp hm with heq | hm
        · obtain ⟨rfl, rfl⟩ := Prod.mk.inj heq
          rw [hkeep, hn] at he
          exact absurd he (by simp)
        · exact h.ends hm hn he
    | some f =>
      have hstep : Build.addAbstracts P ((r, nd) :: l) t n
          = Build.addAbstracts P l (Build.addAbstract t P n r f) (n + 1) := by
        rw [Build.addAbstracts, hf]
      rw [hstep]
      have habs : ∀ s, (Build.addAbstract t P n r f).abstractOf[s]? = if s = r then some n else t.abstractOf[s]? :=
        fun s => getElem?_insert_eq _ _ _ _
      have hcov : ∀ e, (Build.addAbstract t P n r f).coverageOf[e]? = if e = n then some f.1 else t.coverageOf[e]? :=
        fun e => getElem?_insert_eq _ _ _ _
      have h := ih hl (Build.addAbstract t P n r f) (n + 1) fun s hs => by
        rw [habs, if_neg (by rintro rfl; exact hr hs)]
        exact hfree s (List.mem_cons_of_mem _ hs)
      have hr' : (Build.addAbstracts P l (Build.addAbstract t P n r f) (n + 1)).1.abstractOf[r]? = some n := by
        rw [h.other hr, habs, if_pos rfl]
      have hn' : (Build.addAbstracts P l (Build.addAbstract t P n r f) (n + 1)).1.coverageOf[n]? = some f.1 := by
        rw [h.kept (.inl (Nat.lt_succ_self n)), hcov, if_pos rfl]
      have hne : ∀ {s nd'}, (s, nd') ∈ l → s ≠ r := fun hm he => hmem (he ▸ hm)
      have hlt : n < (Build.addAbstracts P l (Build.addAbstract t P n r f) (n + 1)).2 := h.le
      refine ⟨by omega, h.rest.trans (by rfl), ?_, ?_, ?_, ?_, ?_, ?_, ?_, ?_⟩
      · intro s nd' f' hm hs
        rcases List.mem_cons.mp hm with he | hm
        · obtain ⟨rfl, rfl⟩ := Prod.mk.inj he
          obtain rfl : f = f' := Option.some.inj (hf.symm.trans hs)
          exact ⟨n, Nat.le_refl _, hlt, hr', hn'⟩
        · obtain ⟨e, h₁, hrest⟩ := h.front hm hs
          exact ⟨e, by omega, hrest⟩
      · intro s nd' hm hs
        rcases List.mem_cons.mp hm with he | hm
        · obtain ⟨rfl, rfl⟩ := Prod.mk.inj he
          rw [hf] at hs
          exact absurd hs (by simp)
        · rw [h.bare hm hs, habs, if_neg (hne hm)]
      · intro s hs
        simp only [List.map_cons, List.mem_cons, not_or] at hs
        rw [h.other hs.2, habs, if_neg hs.1]
      · intro e he
        rw [h.kept (by omega), hcov, if_neg (by omega)]
      · intro e h₁ h₂
        by_cases he : e = n
        · exact ⟨r, nd, f, List.mem_cons_self, hf, he ▸ hr', he ▸ hn'⟩
        · obtain ⟨s, nd', f', hm, hrest⟩ := h.own (by omega) h₂
          exact ⟨s, nd', f', List.mem_cons_of_mem _ hm, hrest⟩
      · -- later routers get later endpoints
        have hlater : ∀ {s}, s ∈ l.map (·.1) →
            (Build.addAbstracts P l (Build.addAbstract t P n r f) (n + 1)).1.abstractOf[s]? ≠ some n := by
          intro s hs he
          obtain ⟨⟨s', nd'⟩, hm, rfl⟩ := List.mem_map.mp hs
          have hfree' : (Build.addAbstract t P n r f).abstractOf[s']? = none := by
            rw [habs, if_neg (hne hm)]
            exact hfree s' (List.mem_cons_of_mem _ hs)
          have := (h.ends hm hfree' he).1
          omega
        intro s s' e hs hs' hle h₁ h₂
        rcases List.mem_cons.mp hs with rfl | hm
        · obtain rfl : n = e := Option.some.inj (hr'.symm.trans h₁)
          rcases List.mem_cons.mp hs' with rfl | hm'
          · rfl
          · exact absurd h₂ (hlater hm')
        rcases List.mem_cons.mp hs' with rfl | hm'
        · obtain rfl : n = e := Option.some.inj (hr'.symm.trans h₂)
          exact absurd h₁ (hlater hm)
        by_cases hen : e = n
        · exact absurd h₁ (hen ▸ hlater hm)
        · exact h.inj hm hm' (by omega) h₁ h₂
      · intro s nd' hm e hn he
        rcases List.mem_cons.mp hm with heq | hm
        · obtain ⟨rfl, rfl⟩ := Prod.mk.inj heq
          obtain rfl : n = e := Option.some.inj (hr'.symm.trans he)
          exact ⟨Nat.le_refl _, hlt⟩
        · have := h.ends hm (by rw [habs, if_neg (hne hm)]; exact hn) he
          exact ⟨by omega, this.2⟩
      · intro x hx
        rcases h.links x hx with hx | hx
        · rcases List.mem_append.mp hx with hx | hx
          · exact .inl hx
          · rw [List.mem_singleton.mp hx]
            exact .inr ⟨n, hr'⟩
        · exact .inr hx

/-! ## The finished tree -/

variable {homes : List Nat} {b : Build} {t : SparseHTree} {T D : Set (List Nat)}

/-- What the router passes leave behind. -/
structure Routed (P : Params) (homes : List Nat) (b : Build) (T D : Set (List Nat)) : Prop where
  shape : Shape P b T D
  leaves : OnLeaves P homes b.t
  childless : ∀ {w}, w ∈ T → w.length = P.depth → (∀ h ∈ homes, P.unitPath h ≠ w) → ∀ c, w ++ [c] ∉ T
  short : ∀ {q}, q ∈ T → q.length ≤ P.top
  dims : b.t.dims = P.d ∧ b.t.peLevel = P.peLevel ∧ b.t.topLevel = P.top
  plain : b.t.fullLeaves = false ∧ b.t.unitDiv = 1
  empty : b.t.abstractOf = ∅ ∧ b.t.coverageOf = ∅

/-- The finished tree over the routers of `b`. -/
structure Finished (P : Params) (homes : List Nat) (b : Build) (t : SparseHTree) : Prop where
  routers : t.routerOf = b.t.routerOf
  exits : t.dieExitOf = b.t.dieExitOf
  elements : t.peOfLeaf = b.t.peOfLeaf
  numPEs : t.numPEs = homes.length
  walk : ∀ u, t.endpointForUnit u = t.walkKeys 0 "" (P.unitPath u)
  covered : t.coveredOrgs = t.coverageOf.toList.foldl (fun n kv => n + kv.2) t.peOfLeaf.size
  front : ∀ {r : Nat} {nd f}, b.info[r]? = some nd → Build.fronts P b.t r nd = some f →
    ∃ e, t.abstractOf[r]? = some e ∧ t.coverageOf[e]? = some f.1
  bare : ∀ {r : Nat} {nd}, b.info[r]? = some nd → Build.fronts P b.t r nd = none → t.abstractOf[r]? = none
  own : ∀ {e : Nat}, t.numPEs ≤ e → e < t.numPEs + t.numAbstract → ∃ r nd f, b.info[r]? = some nd
    ∧ Build.fronts P b.t r nd = some f ∧ t.abstractOf[r]? = some e ∧ t.coverageOf[e]? = some f.1
  inj : ∀ {r r' e : Nat}, t.abstractOf[r]? = some e → t.abstractOf[r']? = some e → r = r'
  range : ∀ {r e : Nat}, t.abstractOf[r]? = some e → t.numPEs ≤ e ∧ e < t.numPEs + t.numAbstract
  fresh : ∀ {e c : Nat}, t.coverageOf[e]? = some c → t.numPEs ≤ e ∧ e < t.numPEs + t.numAbstract
  links : ∀ x ∈ t.extLinks, x ∈ b.t.extLinks ∨ ∃ e, t.abstractOf[x.b]? = some e

theorem buildSparseHTree_finished (h : Routed P homes (buildRouters P homes) T D) :
    Finished P homes (buildRouters P homes) (buildSparseHTree P homes) := by
  simp only [buildSparseHTree]
  generalize buildRouters P homes = b at h ⊢
  have hnd : (b.info.toList.map (·.1)).Nodup := by
    rw [Std.TreeMap.map_fst_toList_eq_keys]
    exact Std.TreeMap.nodup_keys
  have hin : ∀ {r : Nat} {nd}, b.info[r]? = some nd → (r, nd) ∈ b.info.toList := fun hi =>
    Std.TreeMap.mem_toList_iff_getElem?_eq_some.mpr hi
  have hf := addAbstracts_fronted (P := P) hnd
    { b.t with numPEs := homes.length, numRouters := b.nextRouter } homes.length
    fun r _ => by
      show b.t.abstractOf[r]? = none
      rw [h.empty.1]
      exact Std.TreeMap.getElem?_emptyc
  generalize hs : Build.addAbstracts P b.info.toList
    { b.t with numPEs := homes.length, numRouters := b.nextRouter } homes.length = s at hf ⊢
  obtain ⟨t', n'⟩ := s
  simp only at hf ⊢
  have hle := hf.le
  have hout : ∀ {r e : Nat}, t'.abstractOf[r]? = some e → r ∈ b.info.toList.map (·.1) := by
    intro r e he
    by_contra hr
    rw [hf.other hr] at he
    simp only [h.empty.1, Std.TreeMap.getElem?_emptyc] at he
    exact absurd he (by simp)
  have hrange : ∀ {r e : Nat}, t'.abstractOf[r]? = some e → homes.length ≤ e ∧ e < n' := by
    intro r e he
    obtain ⟨⟨r', nd⟩, hm, rfl⟩ := List.mem_map.mp (hout he)
    refine hf.ends hm ?_ he
    simp only [h.empty.1, Std.TreeMap.getElem?_emptyc]
  refine
    { routers := by rw [hf.rest]; rfl
      exits := by rw [hf.rest]; rfl
      elements := by rw [hf.rest]; rfl
      numPEs := by rw [hf.rest]; rfl
      walk := fun u => ?_
      covered := ?_
      front := fun hi hfr => ?_
      bare := fun hi hfr => ?_
      own := fun {e} h₁ h₂ => ?_
      inj := fun h₁ h₂ => ?_
      range := fun he => ?_
      fresh := fun {e c} hc => ?_
      links := hf.links }
  · have hd : t'.dims = P.d ∧ t'.peLevel = P.peLevel ∧ t'.topLevel = P.top ∧ t'.unitDiv = 1 := by
      rw [hf.rest]
      exact ⟨h.dims.1, h.dims.2.1, h.dims.2.2, h.plain.2⟩
    show SparseHTree.walkKeys _ 0 "" ((decompose t'.dims (if t'.unitDiv > 1 then u / t'.unitDiv else u)
      t'.peLevel).drop (6 - t'.topLevel)) = _
    rw [hd.1, hd.2.1, hd.2.2.1, hd.2.2.2, if_neg (Nat.lt_irrefl _)]
    rfl
  · have hfl : t'.fullLeaves = false := by
      rw [hf.rest]
      exact h.plain.1
    show t'.coverageOf.toList.foldl (fun n kv => n + kv.2) (if t'.fullLeaves then 0 else t'.peOfLeaf.size) = _
    rw [hfl]
    rfl
  · obtain ⟨e, _, _, hrest⟩ := hf.front (hin hi) hfr
    exact ⟨e, hrest⟩
  · refine (hf.bare (hin hi) hfr).trans ?_
    simp only [h.empty.1, Std.TreeMap.getElem?_emptyc]
  · have hn : t'.numPEs = homes.length := by rw [hf.rest]
    replace h₁ : t'.numPEs ≤ e := h₁
    replace h₂ : e < t'.numPEs + (n' - homes.length) := h₂
    obtain ⟨r, nd, f, hm, hrest⟩ := hf.own (e := e) (by omega) (by omega)
    exact ⟨r, nd, f, Std.TreeMap.mem_toList_iff_getElem?_eq_some.mp hm, hrest⟩
  · exact hf.inj (hout h₁) (hout h₂) (hrange h₁).1 h₁ h₂
  · have hn : t'.numPEs = homes.length := by rw [hf.rest]
    have := hrange he
    show t'.numPEs ≤ _ ∧ _ < t'.numPEs + (n' - homes.length)
    omega
  · have hn : t'.numPEs = homes.length := by rw [hf.rest]
    show t'.numPEs ≤ _ ∧ _ < t'.numPEs + (n' - homes.length)
    by_contra hne
    replace hc : t'.coverageOf[e]? = some c := hc
    rw [hf.kept (by omega)] at hc
    simp only [h.empty.2, Std.TreeMap.getElem?_emptyc] at hc
    exact absurd hc (by simp)

end Pimid.Htree
