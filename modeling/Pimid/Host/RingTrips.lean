import Mathlib.Tactic.Linarith
import Pimid.Host.RingLayout

/-!
# Round trips on the ring

The way between two stops is a metric, and none is longer than half the ring. The shortest
round trip to a slice is at most what any GET pays, so a port that takes it out of every
access never cuts one short, and what is left over is on average the mean trip less the
shortest one.
-/

namespace Pimid.Host

open Finset

/-! ## What the constructor gives -/

namespace HostFabric

variable {C M S hop beats : Nat} {l3 : Bool}

theorem new_cores (hC : 1 ≤ C) : (new .RING C M S l3 hop beats).cores = C := Nat.max_eq_right hC

theorem new_slices (hS : 1 ≤ S) : (new .RING C M S l3 hop beats).slices = S := Nat.max_eq_right hS

theorem new_numStops (hC : 1 ≤ C) (hM : 1 ≤ M) : (new .RING C M S l3 hop beats).numStops = C + M := by
  show max 1 C + max 1 M = C + M
  rw [Nat.max_eq_right hC, Nat.max_eq_right hM]

theorem new_dealt (hC : 1 ≤ C) (hM : 1 ≤ M) :
    (new .RING C M S l3 hop beats).coreStop = (List.range C).map (fun i => i + i * M / C) ∧
      (new .RING C M S l3 hop beats).mcStop = (List.range M).map (fun m => share C M m + m) ∧
      ((new .RING C M S l3 hop beats).coreStop ++ (new .RING C M S l3 hop beats).mcStop).Perm
        (List.range (C + M)) := by
  have h := dealt hC hM
  have hn : C * M / C = M := Nat.mul_div_cancel_left M hC
  show (Stops.deal (max 1 C) (max 1 M)).coreStop = _ ∧ (Stops.deal (max 1 C) (max 1 M)).mcStop = _ ∧
    ((Stops.deal (max 1 C) (max 1 M)).coreStop ++ (Stops.deal (max 1 C) (max 1 M)).mcStop).Perm _
  rw [Nat.max_eq_right hC, Nat.max_eq_right hM]
  refine ⟨h.core, ?_, ?_⟩
  · rw [h.mc, hn]
  · have hp := h.perm
    rwa [h.pos, hn] at hp

end HostFabric

/-! ## The lists rise -/

variable {C M : Nat}

theorem share_mono (hM : 0 < M) {m n : Nat} (h : m ≤ n) : share C M m ≤ share C M n := by
  rw [share_le_iff hM]
  calc (m + 1) * C ≤ (n + 1) * C := Nat.mul_le_mul_right C (by omega)
    _ ≤ share C M n * M := (share_le_iff hM n _).mp (Nat.le_refl _)

theorem pairwise_map_range {g : Nat → Nat} (h : ∀ i j, i < j → g i < g j) (n : Nat) :
    ((List.range n).map g).Pairwise (· < ·) := by
  rw [List.pairwise_map]
  exact List.pairwise_lt_range.imp (fun {i j} hij => h i j hij)

theorem cores_rise (n : Nat) : ((List.range n).map fun i => i + i * M / C).Pairwise (· < ·) :=
  pairwise_map_range (fun i j hij => by
    have : i * M / C ≤ j * M / C := Nat.div_le_div_right (Nat.mul_le_mul_right M hij.le)
    omega) n

theorem mcs_rise (hM : 0 < M) (n : Nat) : ((List.range n).map fun m => share C M m + m).Pairwise (· < ·) :=
  pairwise_map_range (fun i j hij => by
    have := share_mono (C := C) hM hij.le
    omega) n

/-! ## The cores between two controllers -/

/-- Stop `x` is passed on the way up the ring from stop `a` to stop `b`. -/
def onWay (a b x : Nat) : Bool := if a < b then a < x && x < b else a < x || x < b

/-- A core stands after a controller exactly when it is not one of the controller's share. -/
theorem mc_lt_core_iff (hC : 0 < C) (hM : 0 < M) (i m : Nat) :
    share C M m + m < i + i * M / C ↔ share C M m ≤ i := by
  have hdiv : share C M m ≤ i ↔ m + 1 ≤ i * M / C := by
    rw [share_le_iff hM, Nat.le_div_iff_mul_le hC]
  have hlt := core_lt_mc_iff hC hM i m
  by_cases h : share C M m ≤ i
  · have := hdiv.mp h
    omega
  · omega

theorem length_filter_range (lo hi n : Nat) :
    ((List.range n).filter fun i => decide (lo ≤ i) && decide (i < hi)).length = min n hi - lo := by
  induction n with
  | zero => simp
  | succ n ih =>
    rw [List.range_succ, List.filter_append, List.length_append, ih]
    by_cases hlo : lo ≤ n
    · by_cases hhi : n < hi <;> simp [hlo, hhi] <;> omega
    · simp [hlo]
      omega

/-- **As many cores between two controllers in a row, the last and the first among them, as
an even spread allows.** -/
theorem cores_between (hC : 0 < C) (hM : 0 < M) {m : Nat} (hm : m < M) :
    ((((List.range C).map fun i => i + i * M / C).filter
        (onWay (share C M m + m) (share C M ((m + 1) % M) + (m + 1) % M))).length = C / M) ∨
      (((List.range C).map fun i => i + i * M / C).filter
        (onWay (share C M m + m) (share C M ((m + 1) % M) + (m + 1) % M))).length = (C + M - 1) / M := by
  rw [List.filter_map, List.length_map]
  by_cases hlast : m + 1 = M
  · right
    have hall : share C M m = C := by
      unfold share
      rw [hlast, Nat.add_sub_assoc hM, Nat.mul_add_div hM, Nat.div_eq_of_lt (by omega), Nat.add_zero]
    have hfirst : share C M 0 = (C + M - 1) / M := by
      unfold share
      rw [Nat.zero_add, Nat.one_mul]
    rw [hlast, Nat.mod_self, ← hfirst]
    have hcongr : (List.range C).filter (onWay (share C M m + m) (share C M 0 + 0) ∘ fun i => i + i * M / C) =
        (List.range C).filter fun i => decide (0 ≤ i) && decide (i < share C M 0) := by
      refine List.filter_congr fun i hi => ?_
      have hi := List.mem_range.mp hi
      have hnot : ¬ share C M m + m < share C M 0 + 0 := by
        have := share_mono (C := C) hM (Nat.zero_le m)
        omega
      simp only [Function.comp, onWay, if_neg hnot, core_lt_mc_iff hC hM, mc_lt_core_iff hC hM]
      have : ¬ share C M m ≤ i := by omega
      simp [this]
    rw [hcongr, length_filter_range, Nat.sub_zero]
    exact Nat.min_eq_right (share_le hM hM)
  · rw [Nat.mod_eq_of_lt (by omega : m + 1 < M)]
    have hmono : share C M m ≤ share C M (m + 1) := share_mono hM (Nat.le_succ m)
    have hcongr : (List.range C).filter
          (onWay (share C M m + m) (share C M (m + 1) + (m + 1)) ∘ fun i => i + i * M / C) =
        (List.range C).filter fun i => decide (share C M m ≤ i) && decide (i < share C M (m + 1)) := by
      refine List.filter_congr fun i _ => ?_
      have hlt : share C M m + m < share C M (m + 1) + (m + 1) := by omega
      simp only [Function.comp, onWay, if_pos hlt, core_lt_mc_iff hC hM, mc_lt_core_iff hC hM]
    rw [hcongr, length_filter_range, Nat.min_eq_right (share_le hM (by omega : m + 1 < M))]
    exact share_step hM m

/-! ## The way between two stops -/

namespace HostFabric

variable {f : HostFabric} {a b c : Nat}

theorem dist_eq : f.dist a b = min (a - b + (b - a)) (f.numStops - (a - b + (b - a))) := by
  unfold dist
  dsimp only
  by_cases h : a > b
  · rw [if_pos h, show a - b + (b - a) = a - b by omega]
  · rw [if_neg h, show a - b + (b - a) = b - a by omega]

theorem dist_comm : f.dist a b = f.dist b a := by
  rw [dist_eq, dist_eq, Nat.add_comm (a - b)]

theorem dist_eq_zero_iff (ha : a < f.numStops) (hb : b < f.numStops) : f.dist a b = 0 ↔ a = b := by
  rw [dist_eq]
  omega

theorem dist_triangle (ha : a < f.numStops) (hb : b < f.numStops) (hc : c < f.numStops) :
    f.dist a c ≤ f.dist a b + f.dist b c := by
  rw [dist_eq, dist_eq, dist_eq]
  have h₁ : a - c + (c - a) ≤ a - b + (b - a) + (b - c + (c - b)) := by omega
  have h₂ : a - b + (b - a) ≤ a - c + (c - a) + (b - c + (c - b)) := by omega
  have h₃ : b - c + (c - b) ≤ a - c + (c - a) + (a - b + (b - a)) := by omega
  have h₄ : a - c + (c - a) + (a - b + (b - a)) + (b - c + (c - b)) ≤ 2 * f.numStops := by omega
  generalize a - c + (c - a) = x, a - b + (b - a) = y, b - c + (c - b) = z at *
  omega

theorem dist_le_half : f.dist a b ≤ f.numStops / 2 := by
  rw [dist_eq]
  omega

end HostFabric

/-! ## The shortest round trip -/

/-- A request for a line. -/
def MemReq.IsGet (req : MemReq) : Prop := req.type = .GETS ∨ req.type = .GETX

namespace HostFabric

variable {f : HostFabric} {req : MemReq}

/-- The round trip of a GET between core `c` and slice `s`. -/
def trip (f : HostFabric) (c s : Nat) : Nat := 2 * f.dist (f.coreStop.getD c 0) (f.stopOfSlice s)

theorem sliceRt_le_trip (hf : f.mode = .RING) {c s : Nat} (hc : c < f.cores) (hs : s < f.slices) :
    f.sliceRt.1 ≤ f.trip c s := by
  unfold sliceRt
  rw [hf]
  refine List.min?_getD_le_of_mem (List.mem_flatMap.mpr ⟨c, List.mem_range.mpr hc, ?_⟩)
  exact List.mem_map.mpr ⟨s, List.mem_range.mpr hs, rfl⟩

theorem charge_get (hf : f.mode = .RING) (hget : req.IsGet) (a b : Nat) (clean : Bool) (t : Traffic) :
    (f.charge a b req clean t).1 = 2 * f.dist a b := by
  have hno : ¬ (req.type = .PUTS ∧ ¬ clean) := by
    intro h
    rcases hget with hg | hg <;> rw [hg] at h <;> exact ReqType.noConfusion h.1
  unfold charge
  rw [if_neg hno, hf]
  exact if_pos hget

theorem charge_slice (hf : f.mode = .RING) (hget : req.IsGet) {core : Nat} (hc : core < f.cores) (clean : Bool)
    (t : Traffic) :
    (f.charge (f.coreStopOf core) (f.sliceStop req.lineAddr) req clean t).1 = f.trip core (f.sliceOf req.lineAddr) := by
  rw [charge_get hf hget, coreStopOf, Nat.mod_eq_of_lt hc]
  rfl

/-- An L2's port to the L3, as it is built: the shortest round trip is taken out of every GET. -/
def corePort (f : HostFabric) (core : Nat) (cleanLines : Bool) : HostFabricPort :=
  { fab := f, memSide := false, core, comp := f.sliceRt.1, cleanLines }

/-- A GET through a port pays its way less the shortest one, or nothing if that is more. -/
theorem access_get {p : HostFabricPort} (hside : p.memSide = false) (hget : req.IsGet) (resp : Nat) (t : Traffic) :
    (p.access req resp t).1 = resp +
      ((p.fab.charge (p.fab.coreStopOf p.core) (p.fab.sliceStop req.lineAddr) req p.cleanLines t).1 - p.comp) := by
  unfold HostFabricPort.access
  dsimp only
  rw [hside, if_neg Bool.false_ne_true, if_neg Bool.false_ne_true]
  by_cases hzero : p.comp = 0
  · rw [if_neg fun h => h.1 hzero, hzero, Nat.sub_zero]
  · rw [if_pos ⟨hzero, hget⟩]
    dsimp only
    split <;> omega

/-- Nothing is cut short: what the port takes out it had charged. -/
theorem corePort_access (hf : f.mode = .RING) (hs : 0 < f.slices) (hget : req.IsGet) {core : Nat} (hc : core < f.cores)
    (clean : Bool) (resp : Nat) (t : Traffic) :
    ((f.corePort core clean).access req resp t).1 + f.sliceRt.1 = resp + f.trip core (f.sliceOf req.lineAddr) := by
  have hle := sliceRt_le_trip hf hc (s := f.sliceOf req.lineAddr) (Nat.mod_lt _ hs)
  have hch := charge_slice hf hget hc clean t
  rw [access_get rfl hget]
  show resp + ((f.charge (f.coreStopOf core) (f.sliceStop req.lineAddr) req clean t).1 - f.sliceRt.1) + f.sliceRt.1 = _
  omega

/-- A line in every slice a 32-bit number counts: the hash's multiplier is odd. -/
theorem exists_line {s : Nat} (hs : s < f.slices) (hword : f.slices ≤ 2 ^ 32) : ∃ line, f.sliceOf line = s := by
  refine ⟨s * 2 ^ 32 * 0xf1de83e19937733d, ?_⟩
  have hmul : s * 2 ^ 32 * 0xf1de83e19937733d * 0x9E3779B97F4A7C15 % 2 ^ 64 = s * 2 ^ 32 := by
    rw [Nat.mul_assoc, Nat.mul_mod, show 0xf1de83e19937733d * 0x9E3779B97F4A7C15 % 2 ^ 64 = 1 by decide, Nat.mul_one,
      Nat.mod_mod]
    exact Nat.mod_eq_of_lt (by omega)
  unfold sliceOf
  rw [hmul, Nat.mul_div_cancel s (by decide), Nat.mod_eq_of_lt hs]

end HostFabric

/-! ## On average -/

/-- The mean of `g` over `C` cores and `S` slices. -/
def meanOver (C S : Nat) (g : Nat → Nat → ℚ) : ℚ := (∑ c ∈ range C, ∑ s ∈ range S, g c s) / (C * S)

theorem meanOver_add_const {C S : Nat} (hC : 0 < C) (hS : 0 < S) (g : Nat → Nat → ℚ) (k : ℚ) :
    meanOver C S (fun c s => g c s + k) = meanOver C S g + k := by
  have hne : (C : ℚ) * S ≠ 0 := by positivity
  unfold meanOver
  simp only [sum_add_distrib, sum_const, card_range, nsmul_eq_mul]
  rw [← mul_assoc, add_div, mul_div_cancel_left₀ k hne]

theorem meanOver_add (C S : Nat) (g h : Nat → Nat → ℚ) :
    meanOver C S (fun c s => g c s + h c s) = meanOver C S g + meanOver C S h := by
  unfold meanOver
  simp only [sum_add_distrib, add_div]

theorem meanOver_congr {C S : Nat} {g h : Nat → Nat → ℚ} (heq : ∀ c < C, ∀ s < S, g c s = h c s) :
    meanOver C S g = meanOver C S h := by
  unfold meanOver
  rw [sum_congr rfl fun c hc => sum_congr rfl fun s hs => heq c (mem_range.mp hc) s (mem_range.mp hs)]

/-! ## The ring, whole -/

/-- The stops of `C` cores and `M` controllers: each is dealt once and in rising order, and
the controllers are spread evenly. -/
structure Laid (f : HostFabric) (C M : Nat) : Prop where
  cores : f.coreStop.length = C
  mcs : f.mcStop.length = M
  once : (f.coreStop ++ f.mcStop).Perm (List.range (C + M))
  coresRise : f.coreStop.Pairwise (· < ·)
  mcsRise : f.mcStop.Pairwise (· < ·)
  even : ∀ m < M, ∀ n, n = (f.coreStop.filter (onWay (f.mcStop.getD m 0) (f.mcStop.getD ((m + 1) % M) 0))).length →
    n = C / M ∨ n = (C + M - 1) / M

/-- `d` is a metric on the stops below `n`, and no way is longer than half of them. -/
structure RingMetric (n : Nat) (d : Nat → Nat → Nat) : Prop where
  zero : ∀ {a b}, a < n → b < n → (d a b = 0 ↔ a = b)
  comm : ∀ a b, d a b = d b a
  triangle : ∀ {a b c}, a < n → b < n → c < n → d a c ≤ d a b + d b c
  half : ∀ a b, d a b ≤ n / 2

theorem laid_new {S hop beats : Nat} {l3 : Bool} (hC : 1 ≤ C) (hM : 1 ≤ M) :
    Laid (HostFabric.new .RING C M S l3 hop beats) C M := by
  obtain ⟨hcore, hmc, hperm⟩ := @HostFabric.new_dealt C M S hop beats l3 hC hM
  refine ⟨?_, ?_, hperm, ?_, ?_, ?_⟩
  · rw [hcore, List.length_map, List.length_range]
  · rw [hmc, List.length_map, List.length_range]
  · rw [hcore]
    exact cores_rise C
  · rw [hmc]
    exact mcs_rise hM M
  · intro m hm n hn
    have hstop (k : Nat) (hk : k < M) : (HostFabric.new .RING C M S l3 hop beats).mcStop.getD k 0 = share C M k + k := by
      rw [hmc, List.getD_eq_getElem?_getD, List.getElem?_map, List.getElem?_range hk]
      rfl
    rw [hstop m hm, hstop _ (Nat.mod_lt _ hM), hcore] at hn
    rw [hn]
    exact cores_between hC hM hm

/-- **The stops are dealt out once each and evenly, the way between two is a metric, no GET
pays less than the shortest round trip, and a port that takes that one out of every access
adds on average the mean trip less the shortest.** -/
theorem host_ring {C M S : Nat} (hC : 1 ≤ C) (hM : 1 ≤ M) (hS : 1 ≤ S) (hop beats : Nat) (l3 : Bool) (f : HostFabric)
    (hf : f = HostFabric.new .RING C M S l3 hop beats) :
    Laid f C M ∧ RingMetric (C + M) f.dist ∧
      (∀ core < C, ∀ req : MemReq, req.IsGet → ∀ clean t,
        f.sliceRt.1 ≤ (f.charge (f.coreStopOf core) (f.sliceStop req.lineAddr) req clean t).1 ∧
        ∀ resp, ((f.corePort core clean).access req resp t).1 + f.sliceRt.1 =
          resp + (f.charge (f.coreStopOf core) (f.sliceStop req.lineAddr) req clean t).1) ∧
      (∀ (req : Nat → Nat → MemReq) (clean : Nat → Bool) (resp : Nat → Nat → Nat) (t : Nat → Nat → Traffic),
        (∀ c < C, ∀ s < S, (req c s).IsGet ∧ f.sliceOf (req c s).lineAddr = s) →
        meanOver C S (fun c s => ((f.corePort c (clean c)).access (req c s) (resp c s) (t c s)).1) -
            meanOver C S (fun c s => resp c s) =
          meanOver C S (fun c s => f.trip c s) - f.sliceRt.1) := by
  have hmode : f.mode = .RING := by rw [hf]; rfl
  have hcores : f.cores = C := by rw [hf, HostFabric.new_cores hC]
  have hslices : f.slices = S := by rw [hf, HostFabric.new_slices hS]
  have hstops : f.numStops = C + M := by rw [hf, HostFabric.new_numStops hC hM]
  refine ⟨hf ▸ laid_new hC hM, ⟨?_, ?_, ?_, ?_⟩, ?_, ?_⟩
  · intro a b ha hb
    exact HostFabric.dist_eq_zero_iff (hstops ▸ ha) (hstops ▸ hb)
  · intro a b
    exact HostFabric.dist_comm
  · intro a b c ha hb hc
    exact HostFabric.dist_triangle (hstops ▸ ha) (hstops ▸ hb) (hstops ▸ hc)
  · intro a b
    rw [← hstops]
    exact HostFabric.dist_le_half
  · intro core hcore req hget clean t
    have hcharge := HostFabric.charge_slice hmode hget (hcores ▸ hcore) clean t
    rw [hcharge]
    refine ⟨HostFabric.sliceRt_le_trip hmode (hcores ▸ hcore) (Nat.mod_lt _ (by omega)), fun resp => ?_⟩
    exact HostFabric.corePort_access hmode (by omega) hget (hcores ▸ hcore) clean resp t
  · intro req clean resp t hreq
    have heq : meanOver C S (fun c s =>
          (((f.corePort c (clean c)).access (req c s) (resp c s) (t c s)).1 : ℚ) + f.sliceRt.1) =
        meanOver C S fun c s => (resp c s : ℚ) + f.trip c s := by
      refine meanOver_congr fun c hc s hs => ?_
      have h := HostFabric.corePort_access hmode (by omega) (hreq c hc s hs).1 (hcores ▸ hc) (clean c) (resp c s) (t c s)
      rw [(hreq c hc s hs).2] at h
      exact_mod_cast h
    rw [meanOver_add_const hC hS, meanOver_add] at heq
    linarith

/-- The hypotheses are met by a ring of three cores, two controllers and two slices. -/
theorem host_ring_three : ∃ f : HostFabric, f = HostFabric.new .RING 3 2 2 true 1 1 ∧
    (∃ req : Nat → Nat → MemReq, ∀ c < 3, ∀ s < 2, (req c s).IsGet ∧ f.sliceOf (req c s).lineAddr = s) ∧
    Laid f 3 2 ∧ f.mcStop = [2, 4] := by
  obtain ⟨low, hlow⟩ := (HostFabric.new .RING 3 2 2 true 1 1).exists_line (s := 0) (by decide) (by decide)
  obtain ⟨high, hhigh⟩ := (HostFabric.new .RING 3 2 2 true 1 1).exists_line (s := 1) (by decide) (by decide)
  refine ⟨_, rfl, ⟨fun _ s => ⟨if s = 0 then low else high, .GETS, 0, 0⟩, ?_⟩,
    (host_ring (by decide) (by decide) (by decide : 1 ≤ 2) 1 1 true _ rfl).1, by decide⟩
  intro c _ s hs
  refine ⟨.inl rfl, ?_⟩
  obtain rfl | rfl : s = 0 ∨ s = 1 := by omega
  · exact hlow
  · exact hhigh

end Pimid.Host
