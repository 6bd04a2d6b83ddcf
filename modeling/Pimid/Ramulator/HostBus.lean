import Pimid.Ramulator.Units

/-!
# The host's buses

Host commands take the command bus for their occupancy, host column commands the data bus for a
burst, and every captured constraint between two host column commands is kept between nodes with the
chips of a lock-step rank as one. Requests of the processing elements are served as if neither bus
was there.
-/

namespace Pimid.Ramulator

namespace Config

variable {D : Type} {c : Config D}

/-! ## Nodes -/

/-- Two addresses name the same node at a level. -/
def SameNode (c : Config D) (l : Nat) (a b : AddrVec) : Prop :=
  ∀ k, 1 ≤ k → k ≤ l → 0 ≤ a k ∧ 0 ≤ b k ∧ c.hdbDigit a k = c.hdbDigit b k

/-- Two addresses name different nodes of a level under one parent. -/
def Siblings (c : Config D) : Nat → AddrVec → AddrVec → Prop
  | 0, _, _ => False
  | l + 1, a, b => SameNode c l a b ∧ 0 ≤ a (l + 1) ∧ 0 ≤ b (l + 1) ∧ c.hdbDigit a (l + 1) ≠ c.hdbDigit b (l + 1)

theorem hdbNode_same {l : Nat} {a b : AddrVec} (h : SameNode c l a b) :
    ∃ n, c.hdbNode a l = some n ∧ c.hdbNode b l = some n := by
  induction l with
  | zero => exact ⟨0, rfl, rfl⟩
  | succ l ih =>
    obtain ⟨n, hna, hnb⟩ := ih fun k hk hkl => h k hk (by omega)
    obtain ⟨ha, hb, hd⟩ := h (l + 1) (by omega) (Nat.le_refl _)
    refine ⟨n * c.hdbRadix (l + 1) + c.hdbDigit a (l + 1), ?_, ?_⟩
    · rw [hdbNode, hna]
      dsimp only
      rw [if_neg (by omega)]
    · rw [hdbNode, hnb, hd]
      dsimp only
      rw [if_neg (by omega)]

/-- A node of an address that is there is below its radix. -/
theorem InRange.digit_lt (hc : c.SetUp) {a : AddrVec} (ha : c.InRange a) {l : Nat} (hl : 1 ≤ l)
    (hlb : l < c.dram.bankLevel) : c.hdbDigit a l < c.hdbRadix l := by
  have hal := ha l hl (Nat.le_of_lt hlb)
  have hradix : c.hdbRadix l = max 1 (if l = c.rankLv ∧ 1 < c.lockstepChips then max 1 (c.dram.count l) / c.lockstepChips
      else max 1 (c.dram.count l)) := if_pos ⟨hl, hlb⟩
  rw [hradix]
  unfold hdbDigit
  by_cases hr : l = c.rankLv ∧ 1 < c.lockstepChips
  · rw [if_pos hr, if_pos hr]
    obtain ⟨k, hk, hdiv⟩ := hc.lockstep hr.2
    have hrank : c.rankLv = k := by rw [rankLv, hk]; rfl
    have hcount := (hc.rank k hk).2.2
    rw [hr.1, hrank] at hal ⊢
    have hmax : max 1 (c.dram.count k) = c.dram.count k := by omega
    have hlt : (a k).toNat / c.lockstepChips < c.dram.count k / c.lockstepChips :=
      Nat.div_lt_div_of_lt_of_dvd (Nat.dvd_of_mod_eq_zero hdiv) (by omega)
    rw [hmax]
    omega
  · rw [if_neg hr, if_neg hr]
    omega

/-- Siblings have different numbers, and one is among the siblings of the other. -/
theorem hdbNode_siblings (hc : c.SetUp) {l : Nat} (hl : l < c.dram.bankLevel) {a b : AddrVec} (ha : c.InRange a)
    (hb : c.InRange b) (h : Siblings c l a b) : ∃ m n, c.hdbNode a l = some m ∧ c.hdbNode b l = some n ∧ m ≠ n ∧
      m ∈ (List.range (c.hdbRadix l)).map (n / c.hdbRadix l * c.hdbRadix l + ·) := by
  cases l with
  | zero => cases h
  | succ l =>
    obtain ⟨hsame, ha0, hb0, hne⟩ := h
    obtain ⟨p, hpa, hpb⟩ := hdbNode_same hsame
    have hda := ha.digit_lt hc (by omega : 1 ≤ l + 1) hl
    have hdb := hb.digit_lt hc (by omega : 1 ≤ l + 1) hl
    refine ⟨p * c.hdbRadix (l + 1) + c.hdbDigit a (l + 1), p * c.hdbRadix (l + 1) + c.hdbDigit b (l + 1), ?_, ?_, by omega, ?_⟩
    · rw [hdbNode, hpa]
      dsimp only
      rw [if_neg (by omega)]
    · rw [hdbNode, hpb]
      dsimp only
      rw [if_neg (by omega)]
    · have hparent : (p * c.hdbRadix (l + 1) + c.hdbDigit b (l + 1)) / c.hdbRadix (l + 1) = p := by
        rw [Nat.add_comm, Nat.add_mul_div_right _ _ (by omega), Nat.div_eq_of_lt hdb, Nat.zero_add]
      rw [hparent]
      exact List.mem_map.mpr ⟨_, List.mem_range.mpr hda, rfl⟩

theorem caOcc_pos (cmd : Nat) : 1 ≤ c.caOcc cmd := by
  unfold caOcc
  suffices h : ∀ (l : List TimingConsEntry) (occ : Int), 1 ≤ occ →
      1 ≤ l.foldl (fun occ t => if c.dram.ACT = some t.cmd ∧ occ < t.val then t.val else occ) occ from h _ _ (Int.le_refl 1)
  intro l
  induction l with
  | nil => exact fun occ h => h
  | cons t l ih =>
    intro occ h
    refine ih _ ?_
    dsimp only
    split <;> omega

end Config

namespace Controller

open Ramulator.Config

variable {D : Type} {c : Config D} {s : Controller D}

/-! ## The clock the bus leaves -/

theorem le_foldl_max {α : Type} (g : α → Int) (l : List α) (t : Int) :
    t ≤ l.foldl (fun t x => max t (g x)) t ∧ ∀ x ∈ l, g x ≤ l.foldl (fun t x => max t (g x)) t := by
  induction l generalizing t with
  | nil => exact ⟨Int.le_refl t, fun x hx => nomatch hx⟩
  | cons y l ih =>
    obtain ⟨h0, hl⟩ := ih (max t (g y))
    refine ⟨by rw [List.foldl_cons]; omega, fun x hx => ?_⟩
    rw [List.foldl_cons]
    rcases List.mem_cons.mp hx with rfl | hx
    · omega
    · exact hl x hx

/-- What a constraint leaves to an address: the latest host command at its node, or at its siblings. -/
theorem hdbStep_ge (a : AddrVec) (t : Int) (e : HdbCons) :
    t ≤ s.hdbStep c a t e ∧ ∀ n, c.hdbNode a e.lvl = some n →
      (e.sib = false → s.hdbLast e.lvl e.prev n + e.val ≤ s.hdbStep c a t e) ∧
      (e.sib = true → ∀ m, m ≠ n → m ∈ (List.range (c.hdbRadix e.lvl)).map (n / c.hdbRadix e.lvl * c.hdbRadix e.lvl + ·) →
        s.hdbLast e.lvl e.prev m + e.val ≤ s.hdbStep c a t e) := by
  unfold hdbStep
  cases hn : c.hdbNode a e.lvl with
  | none => exact ⟨Int.le_refl t, fun n h => nomatch h⟩
  | some n =>
    dsimp only
    by_cases hs : e.sib = true
    · rw [hs, Bool.not_true, if_neg Bool.false_ne_true]
      obtain ⟨h0, hl⟩ := le_foldl_max (fun sib => s.hdbLast e.lvl e.prev sib + e.val)
        (((List.range (c.hdbRadix e.lvl)).map (n / c.hdbRadix e.lvl * c.hdbRadix e.lvl + ·)).filter (· != n)) t
      refine ⟨h0, fun n' hn' => ⟨(fun h => nomatch h), fun _ m hm hmem => hl m ?_⟩⟩
      obtain rfl := Option.some.inj hn'
      exact List.mem_filter.mpr ⟨hmem, by simpa using hm⟩
    · rw [Bool.eq_false_iff.mpr hs, Bool.not_false, if_pos rfl]
      refine ⟨by omega, fun n' hn' => ⟨fun _ => ?_, fun h => nomatch h⟩⟩
      obtain rfl := Option.some.inj hn'
      omega

/-- The bus takes a command when it is free, and when every constraint leaves it. -/
theorem hdbReadyAt_ge {r : Request} {cmd : Nat} (h : hdbHost c r cmd = true) :
    s.hdbFree ≤ s.hdbReadyAt c r cmd ∧ ∀ e ∈ c.hdbCons cmd, ∀ n, c.hdbNode r.addrVec e.lvl = some n →
      (e.sib = false → s.hdbLast e.lvl e.prev n + e.val ≤ s.hdbReadyAt c r cmd) ∧
      (e.sib = true → ∀ m, m ≠ n → m ∈ (List.range (c.hdbRadix e.lvl)).map (n / c.hdbRadix e.lvl * c.hdbRadix e.lvl + ·) →
        s.hdbLast e.lvl e.prev m + e.val ≤ s.hdbReadyAt c r cmd) := by
  unfold hdbReadyAt
  rw [h, Bool.not_true, if_neg Bool.false_ne_true]
  generalize s.hdbFree = t
  generalize c.hdbCons cmd = l
  induction l generalizing t with
  | nil => exact ⟨Int.le_refl t, fun e he => nomatch he⟩
  | cons x l ih =>
    rw [List.foldl_cons]
    obtain ⟨h0, hl⟩ := ih (s.hdbStep c r.addrVec t x)
    obtain ⟨hx0, hx⟩ := hdbStep_ge (c := c) (s := s) r.addrVec t x
    refine ⟨Int.le_trans hx0 h0, fun e he n hn => ?_⟩
    rcases List.mem_cons.mp he with rfl | he
    · exact ⟨fun hs => Int.le_trans ((hx n hn).1 hs) h0, fun hs m hm hmem => Int.le_trans ((hx n hn).2 hs m hm hmem) h0⟩
    · exact hl e he n hn

/-! ## What is asked -/

/-- Two commands of the host, the second issued after the first, which is a command of the DRAM. -/
structure Apart (c : Config D) (e f : Issue) : Prop where
  ca : host e.request = true → host f.request = true → e.cmd < c.dram.numCommands → e.clk + c.caOcc e.cmd ≤ f.clk
  burst : host e.request = true → host f.request = true → c.hdbCol e.cmd = true → c.hdbCol f.cmd = true →
    e.clk + c.dram.nBL ≤ f.clk
  node : host e.request = true → host f.request = true → c.hdbCol e.cmd = true → c.hdbCol f.cmd = true →
    e.cmd < c.dram.numCommands → ∀ l < c.hdbLevels, ∀ t ∈ c.dram.timingCons l e.cmd, t.cmd = f.cmd →
      t.sibling = false → SameNode c l e.request.addrVec f.request.addrVec → e.clk + t.val ≤ f.clk
  siblings : host e.request = true → host f.request = true → c.hdbCol e.cmd = true → c.hdbCol f.cmd = true →
    e.cmd < c.dram.numCommands → ∀ l < c.hdbLevels, ∀ t ∈ c.dram.timingCons l e.cmd, t.cmd = f.cmd →
      t.sibling = true → Siblings c l e.request.addrVec f.request.addrVec → e.clk + t.val ≤ f.clk

/-- The state with the buses as they may be. -/
def withBuses (s : Controller D) (ca free : Int) (last : Nat → Nat → Nat → Int) (wm : Bool) : Controller D :=
  { s with caFree := ca, hdbFree := free, hdbLast := last, hdbWm := wm }

/-- A request of a processing element can be issued or not whatever the buses hold. -/
def Undelayed (c : Config D) (s : Controller D) : Prop :=
  ∀ (r : Request), host r = false → ∀ (ca free : Int) (last : Nat → Nat → Nat → Int) (wm : Bool) (used : List AddrVec),
    (∀ b, (s.withBuses ca free last wm).evalRequest c b used r = s.evalRequest c b used r) ∧
    ∀ slot, (s.withBuses ca free last wm).evalSlot c used slot r = s.evalSlot c used slot r

theorem undelayed : Undelayed c s := by
  intro r hr ca free last wm used
  have hls : c.pimidLs r = false := by rw [pimidLs, hr, Bool.and_false]
  have hdata : ∀ (t : Controller D) cmd, t.hdbBlocks c r cmd = false ∧ t.hdbReadyAt c r cmd = -1 := by
    intro t cmd
    have hhost : hdbHost c r cmd = false := by rw [hdbHost, hr, Bool.and_false, Bool.false_and]
    rw [hdbBlocks, hdbReadyAt, hhost]
    exact ⟨rfl, rfl⟩
  have hdir : ∀ (t : Controller D) a, t.hdbDirBlocked c r a = false := by
    intro t a
    rw [hdbDirBlocked, hr, Bool.and_false, Bool.false_and]
  have hca : ∀ t : Controller D, t.caBlocked c r = false := by
    intro t
    rw [caBlocked, caHost, hr, Bool.and_false, Bool.false_and]
  refine ⟨fun b => ?_, fun slot => ?_⟩
  · unfold evalRequest
    rw [hls]
    simp only [(hdata _ _).1, hdir, hca]
    rfl
  · unfold evalSlot
    rw [hls]
    simp only [(hdata _ _).2, hdir, hca]
    rfl

/-! ## What every step keeps -/

structure BusKept (c : Config D) (s : Controller D) : Prop where
  clk : 0 ≤ s.clk
  priority : PriorityOk s
  inRange : BuffersInRange c s
  past : ∀ e ∈ s.issues, e.clk ≤ s.clk
  named : ∀ e ∈ s.issues, c.InRange e.request.addrVec
  ca : ∀ e ∈ s.issues, host e.request = true → e.cmd < c.dram.numCommands → e.clk + c.caOcc e.cmd ≤ s.caFree
  free : ∀ e ∈ s.issues, host e.request = true → c.hdbCol e.cmd = true → e.clk + c.dram.nBL ≤ s.hdbFree
  last : ∀ e ∈ s.issues, host e.request = true → c.hdbCol e.cmd = true → ∀ l n, c.hdbKept l e.cmd = true →
    c.hdbNode e.request.addrVec l = some n → e.clk ≤ s.hdbLast l e.cmd n
  apart : s.issues.Pairwise (Apart c)

theorem BusKept.same (h : BusKept c s) {t : Controller D} (hclk : s.clk ≤ t.clk) (hiss : t.issues = s.issues)
    (hca : t.caFree = s.caFree) (hfree : t.hdbFree = s.hdbFree) (hlast : t.hdbLast = s.hdbLast) (hp : PriorityOk t)
    (hr : BuffersInRange c t) : BusKept c t where
  clk := Int.le_trans h.clk hclk
  priority := hp
  inRange := hr
  past e he := Int.le_trans (h.past e (hiss ▸ he)) hclk
  named e he := h.named e (hiss ▸ he)
  ca e he := by
    rw [hca]
    exact h.ca e (hiss ▸ he)
  free e he := by
    rw [hfree]
    exact h.free e (hiss ▸ he)
  last e he := by
    rw [hlast]
    exact h.last e (hiss ▸ he)
  apart := by
    rw [hiss]
    exact h.apart

/-- The conversion to an auto-precharging command asks the data bus again. -/
theorem chooseAutoprecharge_data {r : Request} {cmd : Nat} (h : s.hdbBlocks c r cmd = false) (addrs : List AddrVec) :
    s.hdbBlocks c r (s.chooseAutoprecharge c r cmd addrs) = false := by
  unfold chooseAutoprecharge
  split
  · exact h
  split
  · exact h
  split
  · exact h
  split
  · next rd wr rda wra _ _ _ _ =>
    split
    · exact h
    split
    · exact h
    dsimp only
    generalize (if (cmd == rd) = true then rda else wra) = ap
    split
    · exact h
    split
    · exact h
    · next hfree => exact Bool.eq_false_iff.mpr hfree
  · exact h

/-- A constraint between two column commands is among those the second waits for. -/
theorem mem_hdbCons {l pc cmd : Nat} {t : TimingConsEntry} (hl : l < c.hdbLevels) (hpc : pc < c.dram.numCommands)
    (hcol : c.hdbCol pc = true) (ht : t ∈ c.dram.timingCons l pc) (htc : t.cmd = cmd) (hcmd : c.hdbCol cmd = true) :
    (⟨l, pc, t.val, t.sibling⟩ : HdbCons) ∈ c.hdbCons cmd ∧ c.hdbKept l pc = true := by
  constructor
  · unfold hdbCons
    refine List.mem_flatMap.mpr ⟨l, List.mem_range.mpr hl, List.mem_flatMap.mpr ⟨pc, List.mem_range.mpr hpc, ?_⟩⟩
    rw [if_pos hcol]
    refine List.mem_map.mpr ⟨t, List.mem_filter.mpr ⟨ht, ?_⟩, rfl⟩
    rw [htc, hcmd, beq_self_eq_true]
    rfl
  · unfold hdbKept
    rw [decide_eq_true hl, decide_eq_true hpc, hcol, Bool.true_and, Bool.true_and, Bool.true_and]
    exact List.any_eq_true.mpr ⟨t, ht, by rw [htc]; exact hcmd⟩

theorem takeBuses_caFree (r : Request) (cmd : Nat) : (s.takeBuses c r cmd).caFree =
    if caHost c r && decide (cmd < c.dram.numCommands) then s.clk + c.caOcc cmd else s.caFree := by
  unfold takeBuses
  dsimp only
  split_ifs <;> rfl

theorem takeBuses_hdbFree (r : Request) (cmd : Nat) : (s.takeBuses c r cmd).hdbFree =
    if hdbHost c r cmd then s.clk + c.dram.nBL else s.hdbFree := by
  unfold takeBuses
  dsimp only
  split_ifs <;> rfl

theorem takeBuses_hdbLast (r : Request) (cmd l pc n : Nat) : (s.takeBuses c r cmd).hdbLast l pc n =
    if hdbHost c r cmd = true ∧ pc = cmd ∧ c.hdbKept l cmd = true ∧ c.hdbNode r.addrVec l = some n then s.clk
    else s.hdbLast l pc n := by
  unfold takeBuses
  dsimp only
  by_cases h : hdbHost c r cmd = true
  · rw [if_pos h]
    dsimp only
    simp only [h, true_and]
    split_ifs <;> rfl
  · rw [if_neg h, if_neg (show ¬(hdbHost c r cmd = true ∧ pc = cmd ∧ c.hdbKept l cmd = true ∧
      c.hdbNode r.addrVec l = some n) from fun hall => h hall.1)]
    split_ifs <;> rfl

/-- A command of the host comes after every earlier one by what is asked. -/
theorem BusKept.apart_of (hc : c.SetUp) (h : BusKept c s) (hca : c.hostCa = true) (hdb : c.hostDataBus = true) {f : Issue}
    (hclk : f.clk = s.clk) (hrange : c.InRange f.request.addrVec) (hfree : s.caBlocked c f.request = false)
    (hdata : s.hdbBlocks c f.request f.cmd = false) {e : Issue} (he : e ∈ s.issues) : Apart c e f := by
  have hready : host f.request = true → c.hdbCol f.cmd = true → s.hdbReadyAt c f.request f.cmd ≤ s.clk ∧
      hdbHost c f.request f.cmd = true := by
    intro hf hcol
    have hhost : hdbHost c f.request f.cmd = true := by rw [hdbHost, hdb, hf, hcol]; rfl
    rw [hdbBlocks, hhost, Bool.true_and] at hdata
    exact ⟨by simpa using hdata, hhost⟩
  constructor
  · intro hhe hhf hcmd
    have hold := h.ca e he hhe hcmd
    rw [caBlocked, caHost, hca, hhf, Bool.true_and, Bool.true_and, decide_eq_false_iff_not] at hfree
    omega
  · intro hhe hhf hce hcf
    obtain ⟨hle, hhost⟩ := hready hhf hcf
    have hold := h.free e he hhe hce
    have := (hdbReadyAt_ge (s := s) hhost).1
    omega
  · intro hhe hhf hce hcf hcmd l hl t ht htc hsib hsame
    obtain ⟨hle, hhost⟩ := hready hhf hcf
    obtain ⟨hmem, hkept⟩ := mem_hdbCons hl hcmd hce ht htc hcf
    obtain ⟨n, hne, hnf⟩ := hdbNode_same hsame
    have hold := h.last e he hhe hce l n hkept hne
    have := ((hdbReadyAt_ge (s := s) hhost).2 _ hmem n hnf).1 hsib
    dsimp only at this
    omega
  · intro hhe hhf hce hcf hcmd l hl t ht htc hsib hsibs
    obtain ⟨hle, hhost⟩ := hready hhf hcf
    obtain ⟨hmem, hkept⟩ := mem_hdbCons hl hcmd hce ht htc hcf
    have hlb : l < c.dram.bankLevel := Nat.lt_of_lt_of_le hl (Nat.min_le_left _ _)
    obtain ⟨m, n, hme, hnf, hmn, hin⟩ := hdbNode_siblings hc hlb (h.named e he) hrange hsibs
    have hold := h.last e he hhe hce l m hkept hme
    have := ((hdbReadyAt_ge (s := s) hhost).2 _ hmem n hnf).2 hsib m hmn hin
    dsimp only at this
    omega

theorem BusKept.issue (hc : c.SetUp) (hb : c.bankParallel = true) (hca : c.hostCa = true) (hdb : c.hostDataBus = true)
    (h : BusKept c s) {buses : Bool} {b : Buffer} {i : Nat} {r : Request} {cmd : Nat}
    (hi : s.Issuable c buses b i r cmd) : BusKept c (s.pimidIssue c buses b i r cmd) := by
  have ht := pimidIssue_issued (c := c) (s := s) buses b i r cmd
  have hrange : c.InRange r.addrVec := h.inRange b r (List.mem_of_getElem? hi.mem)
  have hprio : PriorityOk (s.pimidIssue c buses b i r cmd) := h.priority.issue
  have hbufs : BuffersInRange c (s.pimidIssue c buses b i r cmd) := BuffersAre.issue h.inRange hrange
  generalize s.pimidIssue c buses b i r cmd = t at ht hprio hbufs
  obtain ⟨haddr, -⟩ := converted_same (c := c) (s := s) r cmd
  have hhost := host_converted (c := c) (s := s) r cmd
  have hfree : s.caBlocked c (s.converted c r cmd) = false := by
    have := hi.ca hb
    unfold caBlocked caHost at *
    rw [hhost]
    exact this
  have hdata : s.hdbBlocks c (s.converted c r cmd) (s.issueCmd c r cmd) = false := by
    have hfirst := hi.data hb
    rw [← hi.cmd_eq] at hfirst
    have hchosen := chooseAutoprecharge_data hfirst (s.issueTo c r cmd).2
    unfold hdbBlocks hdbReadyAt hdbHost at *
    rw [hhost, haddr]
    exact hchosen
  obtain ⟨tca, tfree, tlast⟩ := ht.buses _ rfl
  rw [hi.buses_eq hb, if_pos rfl] at tca tfree tlast
  rw [takeBuses_caFree] at tca
  rw [takeBuses_hdbFree] at tfree
  have hocc := c.caOcc_pos (s.issueCmd c r cmd)
  refine ⟨by rw [ht.clk]; exact h.clk, hprio, hbufs, fun e he => ?_, fun e he => ?_, fun e he hhe hcmd => ?_,
    fun e he hhe hcol => ?_, fun e he hhe hcol l n hkept hn => ?_, ?_⟩
  · rw [ht.issues] at he
    rw [ht.clk]
    rcases List.mem_append.mp he with he | he
    · exact h.past e he
    · obtain rfl := List.mem_singleton.mp he
      exact Int.le_refl _
  · rw [ht.issues] at he
    rcases List.mem_append.mp he with he | he
    · exact h.named e he
    · obtain rfl := List.mem_singleton.mp he
      show c.InRange (s.converted c r cmd).addrVec
      rw [haddr]
      exact hrange
  · rw [ht.issues] at he
    rw [tca]
    rcases List.mem_append.mp he with he | he
    · have hold := h.ca e he hhe hcmd
      split
      · next hyes =>
        -- the bus was free for this command
        rw [Bool.and_eq_true] at hyes
        rw [caBlocked, hyes.1, Bool.true_and, decide_eq_false_iff_not] at hfree
        omega
      · exact hold
    · obtain rfl := List.mem_singleton.mp he
      have hyes : (caHost c (s.converted c r cmd) && decide (s.issueCmd c r cmd < c.dram.numCommands)) = true := by
        rw [caHost, hca, show host (s.converted c r cmd) = true from hhe,
          decide_eq_true (show s.issueCmd c r cmd < c.dram.numCommands from hcmd)]
        rfl
      rw [if_pos hyes]
      exact Int.le_refl _
  · rw [ht.issues] at he
    rw [tfree]
    rcases List.mem_append.mp he with he | he
    · have hold := h.free e he hhe hcol
      split
      · next hyes =>
        have := (hdbReadyAt_ge (s := s) hyes).1
        rw [hdbBlocks, hyes, Bool.true_and, decide_eq_false_iff_not] at hdata
        omega
      · exact hold
    · obtain rfl := List.mem_singleton.mp he
      have hyes : hdbHost c (s.converted c r cmd) (s.issueCmd c r cmd) = true := by
        rw [hdbHost, hdb, show host (s.converted c r cmd) = true from hhe, show c.hdbCol (s.issueCmd c r cmd) = true from hcol]
        rfl
      rw [if_pos hyes]
      exact Int.le_refl _
  · rw [ht.issues] at he
    rw [tlast, takeBuses_hdbLast]
    rcases List.mem_append.mp he with he | he
    · have hold := h.last e he hhe hcol l n hkept hn
      have := h.past e he
      split <;> omega
    · obtain rfl := List.mem_singleton.mp he
      rw [if_pos]
      · exact Int.le_refl _
      · refine ⟨?_, rfl, hkept, hn⟩
        rw [hdbHost, hdb, show host (s.converted c r cmd) = true from hhe, show c.hdbCol (s.issueCmd c r cmd) = true from hcol]
        rfl
  · rw [ht.issues, List.pairwise_append]
    refine ⟨h.apart, List.pairwise_singleton _ _, fun e he f hf => ?_⟩
    obtain rfl := List.mem_singleton.mp hf
    refine h.apart_of hc hca hdb rfl ?_ hfree hdata he
    show c.InRange (s.converted c r cmd).addrVec
    rw [haddr]
    exact hrange

/-! ## Runs -/

theorem BusKept.prioritySends (h : BusKept c s) {xs : List (AddrVec × Nat)} (hxs : ∀ x ∈ xs, c.InRange x.1) :
    BusKept c (s.prioritySends c xs) := by
  have hp := h.priority.prioritySends (c := c) xs
  have hr := BuffersAre.prioritySends (c := c) h.inRange hxs
  obtain ⟨l, hl, -⟩ := prioritySends_eq (c := c) (s := s) xs
  rw [hl] at hp hr ⊢
  exact h.same (Int.le_refl _) rfl rfl rfl rfl hp hr

theorem busKept_kept (hc : c.SetUp) (hb : c.bankParallel = true) (hca : c.hostCa = true) (hdb : c.hostDataBus = true) :
    Kept c (fun x => c.InRange x.1) (BusKept c) where
  clk _ h := h.clk
  priority _ h := h.priority
  sends _ _ hxs h := h.prioritySends hxs
  mode _ _ _ h := h.same (Int.le_refl _) rfl rfl rfl rfl h.priority h.inRange
  issue _ _ _ _ _ _ h hi := h.issue hc hb hca hdb hi

theorem BusKept.enqueue (h : BusKept c s) {b : Buffer} {r : Request} (hb : b ≠ .priority) (hr : c.InRange r.addrVec) :
    BusKept c (s.enqueue c b r).2 := by
  have hp := h.priority.enqueue (c := c) (r := r) hb
  have hr := BuffersAre.enqueue (c := c) (b := b) h.inRange hr
  obtain ⟨l, hl⟩ := enqueue_eq (c := c) (s := s) b r
  rw [hl] at hp hr ⊢
  exact h.same (Int.le_refl _) rfl rfl rfl rfl hp hr

theorem BusKept.begun (h : BusKept c s) {input : TickInput} (hin : input.All fun x => c.InRange x.1) :
    BusKept c (s.begun c input) := by
  unfold Controller.begun
  obtain ⟨pending, called, hs⟩ := serveCompletedReads_eq (s := { s with clk := s.clk + 1 })
  have hclk : BusKept c { s with clk := s.clk + 1, pending, called } :=
    h.same (by dsimp only; omega) rfl rfl rfl rfl h.priority h.inRange
  rw [hs]
  have hrefresh := hclk.prioritySends hin.1
  obtain ⟨pdIn, since, last, wake, cycles, exits, log, ht⟩ :=
    pdTick_eq (c := c) (s := Controller.prioritySends c { s with clk := s.clk + 1, pending, called } input.refresh)
  rw [ht]
  exact hrefresh.same (Int.le_refl _) rfl rfl rfl rfl hrefresh.priority hrefresh.inRange

theorem busKept_run (hc : c.SetUp) (hb : c.bankParallel = true) (hca : c.hostCa = true) (hdb : c.hostDataBus = true) :
    RunKept c c.InRange (BusKept c) where
  toKept := busKept_kept hc hb hca hdb
  enqueue _ _ _ h hb hr := h.enqueue hb hr
  forward _ _ h := h.same (Int.le_refl _) rfl rfl rfl rfl h.priority h.inRange
  begun _ _ h hin := h.begun hin
  dram _ _ h := h.same (Int.le_refl _) rfl rfl rfl rfl h.priority h.inRange

theorem busKept_start (d : D) : BusKept c { dram := d } := by
  refine ⟨Int.le_refl 0, (fun r hr => nomatch hr), (fun b r hr => nomatch hr), (fun e he => nomatch he),
    (fun e he => nomatch he), (fun e he => nomatch he), (fun e he => nomatch he), (fun e he => nomatch he), ?_⟩
  exact List.Pairwise.nil

/-- **The buses keep the commands of the host apart in every run**, and delay no other. -/
theorem hostBus_ok (hc : c.SetUp) (hb : c.bankParallel = true) (hca : c.hostCa = true) (hdb : c.hostDataBus = true) (d : D)
    {ops : List (Op D)} (hops : ∀ op ∈ ops, op.InRange c) :
    (run c d ops).issues.Pairwise (Apart c) ∧ Undelayed c (run c d ops) := by
  exact ⟨((busKept_run hc hb hca hdb).run (busKept_start d) fun op hop => (hops op hop).all).apart, undelayed⟩

/-- The two ranks with the buses of the host, and four clocks between two reads of a rank. -/
def hostRanks : Config Unit := { twoRanks with
  dram := { twoRanks.dram with
    timingLevels := 2
    timingCons := fun l pc => if l = 1 ∧ pc = 0 then [⟨0, 4, false⟩] else [] }
  hostCa := true
  hostDataBus := true
  powerDown := false }

/-- Two reads of the host on one rank. -/
def hostReads : List (Op Unit) :=
  [.send { addr := 1, addrVec := fun _ => 0, typeId := Read, sourceId := 1 },
    .send { addr := 2, addrVec := fun _ => 1, typeId := Read, sourceId := 1 }] ++ List.replicate 5 (.tick {})

theorem hostBus_ok_twoReads :
    (run hostRanks () hostReads).issues.map Issue.clk = [1, 5] ∧
    (run hostRanks () hostReads).issues.Pairwise (Apart hostRanks) ∧ Undelayed hostRanks (run hostRanks () hostReads) := by
  have hset : hostRanks.SetUp := ⟨twoRanks_setUp.rank, twoRanks_setUp.lockstep, fun _ => rfl⟩
  refine ⟨by decide +kernel, hostBus_ok hset rfl rfl rfl () fun op hop => ?_⟩
  rcases List.mem_append.mp hop with hop | hop
  · simp only [List.mem_cons, List.not_mem_nil, or_false] at hop
    rcases hop with rfl | rfl
    · intro l _ _
      show (0 : Int) < 2
      decide
    · intro l _ _
      show (1 : Int) < 2
      decide
  · obtain rfl := List.eq_of_mem_replicate hop
    exact ⟨(fun x hx => nomatch hx), fun _ _ x hx => nomatch hx⟩

end Controller

end Pimid.Ramulator
