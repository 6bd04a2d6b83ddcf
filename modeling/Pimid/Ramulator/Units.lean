import Pimid.Ramulator.Runs
import Mathlib.Algebra.BigOperators.Group.List.Basic

/-!
# The power-down units of the DRAM controller

An address of the organisation names a unit that is there, and so does every chip of a lock-step
request. So the marks of a tick are the units that a buffered request needs, although marking ends
when every unit is marked.
-/

namespace Pimid.Ramulator

open Function (update update_of_ne update_self)

/-! ## Counting units -/

theorem length_filter_update {f : Nat → Bool} {u n : Nat} (hu : u < n) (hf : f u = false) :
    ((List.range n).filter (update f u true)).length = ((List.range n).filter f).length + 1 := by
  induction n with
  | zero => omega
  | succ n ih =>
    rw [List.range_succ, List.filter_append, List.filter_append, List.length_append, List.length_append,
      List.filter_singleton, List.filter_singleton]
    by_cases hn : u = n
    · subst hn
      have hbelow : (List.range u).filter (update f u true) = (List.range u).filter f := by
        refine List.filter_congr fun v hv => ?_
        rw [update_of_ne]
        have := List.mem_range.mp hv
        omega
      rw [hbelow, update_self, hf]
      rfl
    · rw [update_of_ne (fun h => hn h.symm), ih (by omega)]
      omega

theorem all_of_length_filter {f : Nat → Bool} {n : Nat} (h : n ≤ ((List.range n).filter f).length) :
    ∀ u < n, f u = true := by
  intro u hu
  have hlen : ((List.range n).filter f).length = (List.range n).length := by
    have := List.length_filter_le f (List.range n)
    rw [List.length_range] at *
    omega
  exact List.length_filter_eq_length_iff.mp hlen u (List.mem_range.mpr hu)

namespace Config

variable {D : Type} {c : Config D}

/-! ## The unit of an address -/

theorem unitTo_lt {a : AddrVec} {l u : Nat} (ha : ∀ k, 1 ≤ k → k ≤ l → a k < c.dram.count k) (hu : c.unitTo a l = some u) :
    u < ((List.range l).map fun k => c.pdRadix (k + 1)).prod := by
  induction l generalizing u with
  | zero =>
    obtain rfl := Option.some.inj hu
    simp
  | succ l ih =>
    rw [unitTo] at hu
    rcases hv : c.unitTo a l with _ | v
    · rw [hv] at hu
      cases hu
    · rw [hv] at hu
      dsimp only at hu
      split at hu
      · cases hu
      · next hneg =>
        obtain rfl := Option.some.inj hu
        have hlt := ih (fun k hk hkl => ha k hk (by omega)) hv
        have hdigit : (a (l + 1)).toNat < c.pdRadix (l + 1) := by
          have := ha (l + 1) (by omega) (Nat.le_refl _)
          unfold pdRadix
          omega
        rw [List.range_succ, List.map_append, List.prod_append, List.map_singleton, List.prod_singleton]
        calc v * c.pdRadix (l + 1) + (a (l + 1)).toNat < v * c.pdRadix (l + 1) + c.pdRadix (l + 1) := by omega
          _ = (v + 1) * c.pdRadix (l + 1) := by rw [Nat.add_mul, Nat.one_mul]
          _ ≤ _ := Nat.mul_le_mul_right _ hlt

theorem pdLevel_le (hc : c.SetUp) : c.pdLevel ≤ c.dram.bankLevel := by
  unfold pdLevel
  cases hr : c.dram.rankLevel with
  | none => exact Nat.zero_le _
  | some l => exact Nat.le_of_lt (hc.rank l hr).2.1

theorem InRange.unit_lt (hc : c.SetUp) {a : AddrVec} (ha : c.InRange a) {u : Nat} (hu : c.pdUnit a = some u) :
    u < c.pdUnits :=
  unitTo_lt (fun k hk hkl => ha k hk (Nat.le_trans hkl (pdLevel_le hc))) hu

/-- The chips of a lock-step request are ranks of the organisation. -/
theorem InRange.chips (hc : c.SetUp) {a : AddrVec} (ha : c.InRange a) (hls : 1 < c.lockstepChips) {x : AddrVec}
    (hx : x ∈ c.lsChips a) : c.InRange x := by
  obtain ⟨i, hi, rfl⟩ := List.mem_map.mp hx
  have hi := List.mem_range.mp hi
  obtain ⟨l, hl, hdiv⟩ := hc.lockstep hls
  have hrank : c.rankLv = l := by rw [rankLv, hl]; rfl
  have hrange := hc.rank l hl
  intro k hk hkb
  unfold chip
  by_cases hkr : k = c.rankLv
  · subst hkr
    rw [update_self]
    have hak := ha c.rankLv hk hkb
    rw [hrank] at hak ⊢
    have hcount := (hc.rank l hl).2.2
    unfold lsChip0
    rw [hrank]
    -- the rank is in one of the whole groups of chips
    obtain ⟨q, hq⟩ := Nat.dvd_of_mod_eq_zero hdiv
    have hin : (a l).toNat < c.lockstepChips * q := by
      rw [← hq]
      omega
    have hgroup := Nat.div_lt_of_lt_mul hin
    have hlast : ((a l).toNat / c.lockstepChips + 1) * c.lockstepChips ≤ q * c.lockstepChips :=
      Nat.mul_le_mul_right _ hgroup
    rw [Nat.add_mul, Nat.one_mul] at hlast
    rw [hq, Nat.mul_comm c.lockstepChips q]
    exact_mod_cast (by omega : (a l).toNat / c.lockstepChips * c.lockstepChips + i < q * c.lockstepChips)
  · rw [update_of_ne hkr]
    exact ha k hk hkb

/-- The controller over another DRAM of the same organisation. -/
def withDram {E : Type} (c : Config D) (d : Dram E) : Config E where
  dram := { d with
    count := c.dram.count
    rankLevel := c.dram.rankLevel
    bankLevel := c.dram.bankLevel
    rowLevel := c.dram.rowLevel }
  bankParallel := c.bankParallel
  getBestRequest _ _ := none
  lockstepChips := c.lockstepChips
  hostCa := c.hostCa
  hostDataBus := c.hostDataBus
  hostAutoprecharge := c.hostAutoprecharge
  powerDown := c.powerDown
  pdIdle := c.pdIdle
  pdTxp := c.pdTxp
  indexed := c.indexed
  queueSize := c.queueSize
  wrHigh := c.wrHigh
  wrLow := c.wrLow
  hdbHigh := c.hdbHigh
  hdbLow := c.hdbLow

end Config

namespace Controller

open Ramulator.Config

variable {D : Type} {c : Config D} {s : Controller D}

/-! ## The marks -/

/-- Marks of the units `f`, with their number. -/
structure Marked (c : Config D) (k : Marks) (f : Nat → Bool) : Prop where
  busy : ∀ u < c.pdUnits, k.busy u = f u
  nbusy : k.nbusy = ((List.range c.pdUnits).filter k.busy).length

theorem Marked.mark {k : Marks} {f : Nat → Bool} (h : Marked c k f) {v : Nat} (hv : v < c.pdUnits) :
    Marked c (k.mark v) fun u => f u || v == u := by
  unfold Marks.mark
  by_cases hb : k.busy v = true
  · rw [if_pos hb]
    refine ⟨fun u hu => ?_, h.nbusy⟩
    by_cases huv : v = u
    · subst huv
      rw [hb, beq_self_eq_true, Bool.or_true]
    · rw [h.busy u hu, beq_eq_false_iff_ne.mpr huv, Bool.or_false]
  · rw [if_neg hb]
    refine ⟨fun u hu => ?_, ?_⟩
    · by_cases huv : v = u
      · subst huv
        show update k.busy v true v = _
        rw [update_self, beq_self_eq_true, Bool.or_true]
      · show update k.busy v true u = _
        rw [update_of_ne (fun h => huv h.symm), h.busy u hu, beq_eq_false_iff_ne.mpr huv, Bool.or_false]
    · show k.nbusy + 1 = _
      rw [h.nbusy]
      exact (length_filter_update hv (Bool.eq_false_iff.mpr hb)).symm

theorem Marked.congr {k : Marks} {f g : Nat → Bool} (h : Marked c k f) (hfg : ∀ u < c.pdUnits, f u = g u) : Marked c k g :=
  ⟨fun u hu => (h.busy u hu).trans (hfg u hu), h.nbusy⟩

theorem Marked.chips (hc : c.SetUp) {as : List AddrVec} (has : ∀ a ∈ as, c.InRange a) {k : Marks} {f : Nat → Bool}
    (h : Marked c k f) : Marked c (as.foldl (fun k a =>
      match c.pdUnit a with
      | some uc => k.mark uc
      | none => k) k) fun u => f u || as.any fun a => c.pdUnit a == some u := by
  induction as generalizing k f with
  | nil => exact h.congr fun u _ => (Bool.or_false _).symm
  | cons a as ih =>
    rw [List.foldl_cons]
    rcases hu : c.pdUnit a with _ | v
    · refine (ih (fun x hx => has x (List.mem_cons_of_mem _ hx)) h).congr fun u _ => ?_
      rw [List.any_cons, hu]
      rfl
    · have hv := (has a (List.mem_cons_self ..)).unit_lt hc hu
      refine (ih (fun x hx => has x (List.mem_cons_of_mem _ hx)) (h.mark hv)).congr fun u _ => ?_
      rw [List.any_cons, hu, Bool.or_assoc]
      rfl

theorem Marked.request (hc : c.SetUp) {k : Marks} {f : Nat → Bool} (h : Marked c k f) {r : Request}
    (hr : c.InRange r.addrVec) : Marked c (markRequest c k r) fun u => f u || needsUnit c r u := by
  unfold markRequest
  by_cases hall : c.pdUnits ≤ k.nbusy
  · -- every unit is marked already
    rw [if_pos hall]
    refine h.congr fun u hu => ?_
    have hone := all_of_length_filter (h.nbusy ▸ hall) u hu
    rw [← h.busy u hu, hone, Bool.true_or]
  · rw [if_neg hall]
    unfold needsUnit
    rcases hu : c.pdUnit r.addrVec with _ | v
    · refine ⟨fun u _ => (Bool.or_true _).symm, ?_⟩
      show c.pdUnits = _
      rw [List.filter_eq_self.mpr fun _ _ => rfl, List.length_range]
    · dsimp only
      by_cases hls : c.pimidLs r = true
      · rw [if_pos hls]
        simp only [hls, if_true]
        have hmany : 1 < c.lockstepChips := by
          rw [pimidLs, Bool.and_eq_true] at hls
          exact of_decide_eq_true hls.1
        exact h.chips hc fun a ha => hr.chips hc hmany ha
      · rw [if_neg hls]
        simp only [hls]
        exact h.mark (hr.unit_lt hc hu)

/-- **The units marked are those that a buffered request needs.** -/
theorem pdBusy_eq (hc : c.SetUp) (hr : BuffersInRange c s) {u : Nat} (hu : u < c.pdUnits) :
    (s.pdBusy c).busy u = s.needed c u := by
  unfold pdBusy needed
  have hrange : ∀ r ∈ [Buffer.read, .write, .active, .priority].flatMap s.buffers, c.InRange r.addrVec := by
    intro r hr'
    obtain ⟨b, -, hb⟩ := List.mem_flatMap.mp hr'
    exact hr b r hb
  generalize [Buffer.read, .write, .active, .priority].flatMap s.buffers = l at hrange
  suffices h : ∀ (k : Marks) (f : Nat → Bool), Marked c k f →
      Marked c (l.foldl (markRequest c) k) fun u => f u || l.any (needsUnit c · u) by
    have hnone : Marked c {} fun _ => false := by
      refine ⟨fun _ _ => rfl, ?_⟩
      show 0 = ((List.range c.pdUnits).filter fun _ => false).length
      rw [List.filter_false]
      rfl
    rw [(h _ _ hnone).busy u hu, Bool.false_or]
  clear u hu
  induction l with
  | nil => exact fun k f hk => hk.congr fun u _ => (Bool.or_false _).symm
  | cons r l ih =>
    intro k f hk
    refine (ih (fun x hx => hrange x (List.mem_cons_of_mem _ hx)) _ _
      (hk.request hc (hrange r (List.mem_cons_self ..)))).congr fun u _ => ?_
    rw [List.any_cons, Bool.or_assoc]

/-! ## Two ranks -/

/-- A DRAM of two ranks that is always ready, with its answers on prerequisites and its steps. -/
def readyDram (preq : D → Nat → AddrVec → Nat) (issue : D → Nat → AddrVec → D) : Dram D where
  numCommands := 4
  isOpening cmd := cmd == 2
  isClosing cmd := cmd == 3
  requestTranslations typeId := typeId
  readLatency := 3
  RD := some 0
  WR := some 1
  RDA := none
  WRA := none
  ACT := some 2
  nBL := 1
  timingLevels := 0
  timingCons _ _ := []
  count _ := 2
  rankLevel := some 1
  bankLevel := 2
  rowLevel := 3
  getPreqCommand := preq
  checkReady _ _ _ := true
  pimidReadyAt _ _ _ := 0
  issueCommand := issue

/-- The two ranks with lock-step pairs of chips, of which each command is the last of its request. -/
def twoRanks : Config Unit where
  dram := readyDram (fun _ final _ => final) fun d _ _ => d
  bankParallel := true
  getBestRequest _ _ := none
  lockstepChips := 2
  hostCa := false
  hostDataBus := false
  hostAutoprecharge := false
  powerDown := true
  pdIdle := 2
  pdTxp := 1
  indexed := false
  queueSize := 32
  wrHigh n := decide (21 < n)
  wrLow n := decide (n < 11)
  hdbHigh n := decide (32 < n)
  hdbLow n := decide (n < 16)

theorem twoRanks_setUp : twoRanks.SetUp := by
  refine ⟨?_, fun _ => ⟨1, rfl, rfl⟩, fun h => Bool.noConfusion h⟩
  rintro l hl
  obtain rfl := Option.some.inj hl
  decide

end Controller

end Pimid.Ramulator
