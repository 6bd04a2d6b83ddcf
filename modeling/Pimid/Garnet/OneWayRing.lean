import Pimid.Garnet.Dateline
import Pimid.Garnet.Hops

/-!
# Cyclic waits on the unidirectional ring

The unidirectional ring has plain routers and clockwise links only: a packet takes any virtual
channel of its virtual network on every hop, so what it holds while it waits is a link. Two links
in a row are on a route when some router with endpoints is behind the first and another ahead of
the second. With two such routers no route goes through router 0; with three there is a route
through every router, and the waits close round the ring.
-/

namespace Pimid.Garnet

/-! ## The ring -/

/-- The link a packet leaves router `r` by. -/
def oneWayLink (n e dest r : Nat) : Option IntLink :=
  (directionFor .SHORTEST r dest (-1) (-1) n (buildRing n e true).ringCwOnly).bind ((buildRing n e true).linkFor r)

/-- The packets between any two endpoints, of any virtual network. -/
def oneWayRing (n e vcPerVnet : Nat) : Traffic Packet IntLink where
  start p := p.inLink = none ∧
    ∃ src dst, (buildRing n e true).routerOf src = some p.router ∧ (buildRing n e true).routerOf dst = some p.dest
  step p p' := p.router ≠ p.dest ∧ ∃ l vc', oneWayLink n e p.dest p.router = some l ∧
    vc' / vcPerVnet = p.vc / vcPerVnet ∧ p' = ⟨l.dst, p.dest, some l, vc'⟩
  held p := p.inLink

/-- The link from router `r` to the next. -/
def cwLink (n r : Nat) : IntLink := ⟨r, stepCw n r, .East, .West⟩

variable {n e v r dest : Nat}

theorem oneWayLink_eq (hr : r < n) : oneWayLink n e dest r = some (cwLink n r) := by
  have hl := (gridLinks_ring n e true).linkFor (r := 0) Nat.one_pos hr (d := .East) rfl
  rw [Nat.zero_mul, Nat.zero_add, gridLink_ring] at hl
  unfold oneWayLink
  rw [ringCwOnly_ring n e true (by omega)]
  exact hl

theorem oneWayRing_step (hr : r < n) {p' : Packet} {l₀ : Option IntLink} {vc : Nat} :
    (oneWayRing n e v).step ⟨r, dest, l₀, vc⟩ p' ↔
      r ≠ dest ∧ ∃ vc', vc' / v = vc / v ∧ p' = ⟨stepCw n r, dest, some (cwLink n r), vc'⟩ := by
  unfold oneWayRing
  dsimp only
  rw [oneWayLink_eq hr]
  constructor
  · rintro ⟨hne, l, vc', ⟨⟩, hvc, rfl⟩
    exact ⟨hne, vc', hvc, rfl⟩
  · rintro ⟨hne, vc', hvc, rfl⟩
    exact ⟨hne, cwLink n r, vc', rfl, hvc, rfl⟩

theorem routerOf_ring {x : Nat} (h : (buildRing n e true).routerOf x = some r) : x < e ∧ r = x % n := by
  have hmem := List.lookup_eq_some_iff.mp h
  obtain ⟨l₁, l₂, hl, -⟩ := hmem
  have hin : (x, r) ∈ roundRobin e n := by
    rw [show roundRobin e n = _ from hl]
    exact List.mem_append_right _ (List.mem_cons_self ..)
  obtain ⟨i, hi, heq⟩ := List.mem_map.mp hin
  cases heq
  exact ⟨List.mem_range.mp hi, rfl⟩

theorem ring_routerOf {x : Nat} (hx : x < e) : (buildRing n e true).routerOf x = some (x % n) :=
  GarnetNetwork.lookup_range_map (· % n) hx

/-! ## Two routers with endpoints -/

/-- Between routers 0 and 1: a packet for router 1 is at its source or there. -/
structure Short (n : Nat) (p : Packet) : Prop where
  router_lt : p.router < n
  dest_lt : p.dest < 2
  source : p.inLink = none → p.router < 2
  held : ∀ l, p.inLink = some l → ∃ r < n, l = cwLink n r ∧ p.router = stepCw n r
  arrived : p.dest = 1 → p.inLink ≠ none → p.router = 1

theorem Short.step (hn : 2 ≤ n) {p p' : Packet} (h : Short n p) (hs : (oneWayRing n e v).step p p') : Short n p' := by
  obtain ⟨r, dest, l₀, vc⟩ := p
  obtain ⟨hne, vc', -, rfl⟩ := (oneWayRing_step h.router_lt).mp hs
  refine ⟨stepCw_lt h.router_lt, h.dest_lt, (fun hnone => nomatch hnone), fun l hl => ⟨r, h.router_lt, ?_, rfl⟩, fun hd _ => ?_⟩
  · cases hl
    rfl
  · cases l₀ with
    | some l => exact absurd ((h.arrived hd (fun hnone => nomatch hnone)).trans (show dest = 1 from hd).symm) hne
    | none =>
      have hlt := h.source rfl
      simp only at hd hlt hne ⊢
      unfold stepCw
      split <;> omega

theorem oneWayRing_acyclic (hn : 2 ≤ n) (he : n = 2 ∨ e ≤ 2) : Acyclic (oneWayRing n e v).Waits := by
  refine Traffic.acyclic_waits (·.src) fun {p p' c c'} hp hs hc hc' => ?_
  have hends {x r : Nat} (h : (buildRing n e true).routerOf x = some r) : r < 2 := by
    obtain ⟨hx, rfl⟩ := routerOf_ring h
    rcases he with rfl | he
    · exact Nat.mod_lt _ (by decide)
    · exact Nat.lt_of_le_of_lt (Nat.mod_le _ _) (by omega)
  have hshort : Short n p := hp.inv
    (fun hstart => by
      obtain ⟨hin, src, dst, hsrc, hdst⟩ := hstart
      refine ⟨Nat.lt_of_lt_of_le (hends hsrc) hn, hends hdst, fun _ => hends hsrc, fun l hl => ?_, fun _ h => absurd hin h⟩
      rw [hin] at hl
      cases hl)
    fun h hs => h.step hn hs
  obtain ⟨r, dest, l₀, vc⟩ := p
  obtain ⟨hne, vc', -, rfl⟩ := (oneWayRing_step hshort.router_lt).mp hs
  obtain rfl : l₀ = some c := hc
  obtain rfl := Option.some.inj hc'
  obtain ⟨j, hj, rfl, hr⟩ := hshort.held c rfl
  -- a packet that waits behind a link is not for router 1, so it is for router 0, and has not got there
  have hdest : dest = 0 := by
    have hlt := hshort.dest_lt
    have hone := hshort.arrived
    simp only at hlt hone
    by_contra h0
    have h1 : dest = 1 := by omega
    exact hne ((hone h1 (fun hnone => nomatch hnone)).trans h1.symm)
  simp only [hdest] at hr hne
  show j < r
  unfold stepCw at hr
  split at hr <;> omega

/-! ## Three routers with endpoints -/

/-- A packet on its way: it has come to `b` from none of the routers it passed. -/
theorem onRoute_walk {a b : Nat} (hn : 0 < n) (hae : a < e) (hbn : b < n) (hbe : b < e) (m : Nat)
    (hm : ∀ m' ≤ m, (a + m') % n ≠ b) :
    (oneWayRing n e v).OnRoute ⟨(a + m + 1) % n, b, some (cwLink n ((a + m) % n)), 0⟩ := by
  have hstep {m : Nat} {l₀ : Option IntLink} (hp : (oneWayRing n e v).OnRoute ⟨(a + m) % n, b, l₀, 0⟩) (h : (a + m) % n ≠ b) :
      (oneWayRing n e v).OnRoute ⟨(a + m + 1) % n, b, some (cwLink n ((a + m) % n)), 0⟩ := by
    have hnext : stepCw n ((a + m) % n) = (a + m + 1) % n := by
      rw [← succ_mod (Nat.mod_lt _ hn), Nat.mod_add_mod]
    rw [← hnext]
    exact hp.step ((oneWayRing_step (Nat.mod_lt _ hn)).mpr ⟨h, 0, rfl, rfl⟩)
  induction m with
  | zero =>
    refine hstep (.start ⟨rfl, a, b, ?_, ?_⟩) (hm 0 (Nat.le_refl _))
    · exact ring_routerOf hae
    · rw [ring_routerOf hbe, Nat.mod_eq_of_lt hbn]
  | succ m ih => exact hstep (ih fun m' hm' => hm m' (by omega)) (hm (m + 1) (Nat.le_refl _))

theorem waits_through (hn : 3 ≤ n) (he : 3 ≤ e) {k : Nat} (hk : k < n) :
    (oneWayRing n e v).Waits (cwLink n ((k + n - 1) % n)) (cwLink n k) := by
  -- from `a` over `m + 1` links to router `k`, and on towards `b`
  have hthrough {a b m : Nat} (ha : a < 3) (hb : b < 3) (hkm : (a + m + 1) % n = k)
      (hm : ∀ m' ≤ m + 1, (a + m') % n ≠ b) : (oneWayRing n e v).Waits (cwLink n ((k + n - 1) % n)) (cwLink n k) := by
    have hp : (oneWayRing n e v).OnRoute _ := onRoute_walk (a := a) (b := b) (by omega) (by omega) (by omega)
      (by omega) m fun m' hm' => hm m' (by omega)
    have hback : (a + m) % n = (k + n - 1) % n := by
      rw [← hkm, Nat.add_sub_assoc (by omega), Nat.mod_add_mod, show a + m + 1 + (n - 1) = a + m + n by omega,
        Nat.add_mod_right]
    rw [hkm, hback] at hp
    refine ⟨_, ⟨stepCw n k, b, some (cwLink n k), 0⟩, hp, (oneWayRing_step hk).mpr ⟨?_, 0, rfl, rfl⟩, rfl, rfl⟩
    rw [← hkm, Nat.add_assoc]
    exact hm (m + 1) (Nat.le_refl _)
  by_cases h0 : k = 0
  · refine hthrough (a := 2) (b := 1) (m := n - 3) (by decide) (by decide) ?_ fun m' hm' => ?_
    · rw [h0, show 2 + (n - 3) + 1 = n by omega, Nat.mod_self]
    · by_cases hlast : 2 + m' = n
      · rw [hlast, Nat.mod_self]
        decide
      · rw [Nat.mod_eq_of_lt (by omega)]
        omega
  by_cases h1 : k = 1
  · refine hthrough (a := 0) (b := 2) (m := 0) (by decide) (by decide) ?_ fun m' hm' => ?_
    · rw [h1, Nat.mod_eq_of_lt (by omega)]
    · rw [Nat.mod_eq_of_lt (by omega)]
      omega
  · refine hthrough (a := 1) (b := 0) (m := k - 2) (by decide) (by decide) ?_ fun m' hm' => ?_
    · rw [show 1 + (k - 2) + 1 = k by omega, Nat.mod_eq_of_lt hk]
    · rw [Nat.mod_eq_of_lt (by omega)]
      omega

theorem oneWayRing_cycle (hn : 3 ≤ n) (he : 3 ≤ e) :
    Relation.TransGen (oneWayRing n e v).Waits (cwLink n 0) (cwLink n 0) := by
  have hround (m : Nat) (hm : m + 1 < n) : Relation.TransGen (oneWayRing n e v).Waits (cwLink n 0) (cwLink n (m + 1)) := by
    have hw := waits_through (v := v) hn he hm
    rw [show m + 1 + n - 1 = m + n by omega, Nat.add_mod_right, Nat.mod_eq_of_lt (by omega)] at hw
    induction m with
    | zero => exact .single hw
    | succ m ih =>
      have hw' := waits_through (v := v) hn he (k := m + 1) (by omega)
      rw [show m + 1 + n - 1 = m + n by omega, Nat.add_mod_right, Nat.mod_eq_of_lt (by omega)] at hw'
      exact .tail (ih (by omega) hw') hw
  have hlast := waits_through (v := v) hn he (k := 0) (by omega)
  rw [Nat.zero_add, Nat.mod_eq_of_lt (by omega)] at hlast
  have h := hround (n - 2) (by omega)
  rw [show n - 2 + 1 = n - 1 by omega] at h
  exact h.tail hlast

/-- **The unidirectional ring is free of cyclic waits exactly when it has two routers, or at most
two endpoints.** -/
theorem oneWayRing_acyclic_iff (hn : 2 ≤ n) : Acyclic (oneWayRing n e v).Waits ↔ n = 2 ∨ e ≤ 2 := by
  constructor
  · intro h
    by_contra hcon
    exact h _ (oneWayRing_cycle (by omega) (by omega))
  · exact oneWayRing_acyclic hn

theorem oneWayRing_acyclic_iff_two : Acyclic (oneWayRing 8 2 1).Waits ↔ 8 = 2 ∨ 2 ≤ 2 :=
  oneWayRing_acyclic_iff (by decide)

/-- Four routers with an endpoint each. -/
theorem oneWayRing_four : ¬Acyclic (oneWayRing 4 4 1).Waits :=
  fun h => h _ (oneWayRing_cycle (by decide) (by decide))

end Pimid.Garnet
