import Pimid.Ramulator.Units
import Mathlib.Algebra.Order.Group.Nat

/-!
# Power-down

A unit goes to sleep when no request has needed it and no command has gone to it for the idle limit,
and wakes when a request needs it. No command goes to a unit that sleeps or has just woken, and the
totals count the ticks that units began asleep, and the wake-ups.
-/

namespace Pimid.Ramulator

namespace Controller

open Ramulator.Config

variable {D : Type} {c : Config D} {s : Controller D}

/-! ## What is asked -/

/-- An address names a unit: its own, or all of them. -/
def NamesUnit (c : Config D) (a : AddrVec) (u : Nat) : Prop := c.pdUnit a = some u ∨ c.pdUnit a = none

/-- A unit is asleep after a tick. -/
def asleepAt (s : Controller D) (u : Nat) : Nat → Bool
  | 0 => false
  | t + 1 => match s.pdLog[t]? with
    | some x => x.asleep u
    | none => false

/-- A buffered request needs a unit in a tick. -/
def neededAt (s : Controller D) (u : Nat) : Nat → Bool
  | 0 => false
  | t + 1 => match s.pdLog[t]? with
    | some x => x.needed u
    | none => false

/-- A command went to a unit. -/
def Reaches (c : Config D) (e : Issue) (u : Nat) : Prop := ∃ a ∈ e.addrs, NamesUnit c a u

/-- A unit is idle in a tick: neither needed nor commanded for the idle limit, of which the ticks before the run are no
part. -/
def IdleAt (c : Config D) (s : Controller D) (u t : Nat) : Prop :=
  s.neededAt u t = false ∧ c.pdIdle ≤ t ∧ (∀ n < t, s.neededAt u n = true → c.pdIdle ≤ t - n) ∧
    ∀ e ∈ s.issues, e.clk < t → Reaches c e u → c.pdIdle ≤ t - e.clk

/-- The ticks that units began asleep. -/
def asleepTicks (c : Config D) (s : Controller D) : Nat :=
  ((List.range s.pdLog.length).map fun t => ((List.range c.pdUnits).filter (s.asleepAt · t)).length).sum

def wakeUps (c : Config D) (s : Controller D) : Nat :=
  ((List.range s.pdLog.length).map fun t =>
    ((List.range c.pdUnits).filter fun u => s.asleepAt u t && !s.asleepAt u (t + 1)).length).sum

/-- Power-down is safe and counted, a tick of the units for every clock. -/
structure PowerDownOk (c : Config D) (s : Controller D) : Prop where
  ticks : s.clk = s.pdLog.length
  safe : ∀ e ∈ s.issues, ∃ t : Nat, e.clk = t ∧ ∀ u < c.pdUnits, Reaches c e u → s.asleepAt u t = false ∧
    ∀ w < t, s.asleepAt u w = true → s.asleepAt u (w + 1) = false → c.pdTxp ≤ (t : Int) - (w + 1 : Nat)
  sleeps : ∀ t < s.pdLog.length, ∀ u < c.pdUnits, s.asleepAt u t = false →
    (s.asleepAt u (t + 1) = true ↔ IdleAt c s u (t + 1))
  wakes : ∀ t < s.pdLog.length, ∀ u < c.pdUnits, s.asleepAt u t = true →
    (s.asleepAt u (t + 1) = false ↔ s.neededAt u (t + 1) = true)
  totals : s.pimidPdTotals c = ((asleepTicks c s : Int), wakeUps c s)

/-! ## What every step keeps -/

/-- The last tick in which a unit was needed or commanded, 0 before the first. -/
structure LastActive (c : Config D) (s : Controller D) (u : Nat) (last : Int) : Prop where
  nonneg : 0 ≤ last
  needed : ∀ n, s.neededAt u n = true → (n : Int) ≤ last
  reached : ∀ e ∈ s.issues, Reaches c e u → e.clk ≤ last
  attained : last = 0 ∨ (∃ n, s.neededAt u n = true ∧ last = n) ∨ ∃ e ∈ s.issues, Reaches c e u ∧ last = e.clk

/-- The totals at the end of the last tick. -/
def totalsAt (c : Config D) (s : Controller D) : Int :=
  s.pdCycles + (((List.range c.pdUnits).filter s.pdIn).map fun u => (s.pdLog.length : Int) - s.pdSince u).sum

/-- **What every step keeps** of the power-down units. -/
structure PowerKept (c : Config D) (s : Controller D) : Prop where
  priority : PriorityOk s
  inRange : BuffersInRange c s
  asleep : ∀ u, s.pdIn u = s.asleepAt u s.pdLog.length
  last : ∀ u < c.pdUnits, LastActive c s u (s.pdLast u)
  woken : ∀ u < c.pdUnits, ∀ w < s.pdLog.length, s.asleepAt u w = true → s.asleepAt u (w + 1) = false →
    ((w + 1 : Nat) : Int) + c.pdTxp ≤ s.pdWake u
  past : ∀ e ∈ s.issues, e.clk ≤ s.pdLog.length
  safe : ∀ e ∈ s.issues, ∃ t : Nat, e.clk = t ∧ ∀ u < c.pdUnits, Reaches c e u → s.asleepAt u t = false ∧
    ∀ w < t, s.asleepAt u w = true → s.asleepAt u (w + 1) = false → c.pdTxp ≤ (t : Int) - (w + 1 : Nat)
  sleeps : ∀ t < s.pdLog.length, ∀ u < c.pdUnits, s.asleepAt u t = false →
    (s.asleepAt u (t + 1) = true ↔ IdleAt c s u (t + 1))
  wakes : ∀ t < s.pdLog.length, ∀ u < c.pdUnits, s.asleepAt u t = true →
    (s.asleepAt u (t + 1) = false ↔ s.neededAt u (t + 1) = true)
  cycles : totalsAt c s = asleepTicks c s
  exits : s.pdExits = wakeUps c s

theorem PowerKept.ok (h : PowerKept c s) (hclk : s.clk = s.pdLog.length) : PowerDownOk c s where
  ticks := hclk
  safe := h.safe
  sleeps := h.sleeps
  wakes := h.wakes
  totals := by
    unfold pimidPdTotals
    rw [hclk, ← h.exits, ← h.cycles]
    rfl

theorem asleepAt_congr {t : Controller D} (hlog : t.pdLog = s.pdLog) (u n : Nat) : t.asleepAt u n = s.asleepAt u n := by
  cases n with
  | zero => rfl
  | succ n => rw [asleepAt, asleepAt, hlog]

theorem neededAt_congr {t : Controller D} (hlog : t.pdLog = s.pdLog) (u n : Nat) : t.neededAt u n = s.neededAt u n := by
  cases n with
  | zero => rfl
  | succ n => rw [neededAt, neededAt, hlog]

/-- What a step does that leaves the power-down units alone: the buffers, and nothing else that counts. -/
structure SamePower (s t : Controller D) : Prop where
  log : t.pdLog = s.pdLog
  issues : t.issues = s.issues
  pdIn : t.pdIn = s.pdIn
  pdSince : t.pdSince = s.pdSince
  pdLast : t.pdLast = s.pdLast
  pdWake : t.pdWake = s.pdWake
  pdCycles : t.pdCycles = s.pdCycles
  pdExits : t.pdExits = s.pdExits

theorem PowerKept.same (h : PowerKept c s) {t : Controller D} (ht : SamePower s t) (hp : PriorityOk t)
    (hr : BuffersInRange c t) : PowerKept c t := by
  have has := asleepAt_congr ht.log
  have hne := neededAt_congr ht.log
  have hticks : asleepTicks c t = asleepTicks c s := by
    unfold asleepTicks
    simp only [has, ht.log]
  have hwakes : wakeUps c t = wakeUps c s := by
    unfold wakeUps
    simp only [has, ht.log]
  have hidle : ∀ u n, IdleAt c t u n ↔ IdleAt c s u n := by
    intro u n
    unfold IdleAt
    simp only [hne, ht.issues]
  refine ⟨hp, hr, fun u => ?_, fun u hu => ?_, ?_, ?_, ?_, ?_, ?_, ?_, ?_⟩
  · rw [ht.pdIn, ht.log, has]
    exact h.asleep u
  · obtain ⟨h0, hn, hre, hat⟩ := h.last u hu
    rw [ht.pdLast]
    exact ⟨h0, by simpa only [hne] using hn, by simpa only [ht.issues] using hre,
      by simpa only [hne, ht.issues] using hat⟩
  · simp only [has, ht.log, ht.pdWake]
    exact h.woken
  · simp only [ht.issues, ht.log]
    exact h.past
  · simp only [has, ht.issues]
    exact h.safe
  · simp only [has, ht.log, hidle]
    exact h.sleeps
  · simp only [has, hne, ht.log]
    exact h.wakes
  · rw [hticks, ← h.cycles]
    unfold totalsAt
    rw [ht.pdCycles, ht.pdIn, ht.pdSince, ht.log]
  · rw [hwakes, ht.pdExits]
    exact h.exits

/-! ## A command -/

theorem pdIssued_last (hp : c.powerDown = true) (a : AddrVec) (u : Nat) :
    (NamesUnit c a u → (s.pdIssued c a).pdLast u = s.clk) ∧ (¬NamesUnit c a u → (s.pdIssued c a).pdLast u = s.pdLast u) := by
  unfold pdIssued NamesUnit
  rw [hp, Bool.not_true, if_neg Bool.false_ne_true]
  rcases hv : c.pdUnit a with _ | v
  · exact ⟨fun _ => rfl, fun h => absurd (.inr rfl) h⟩
  · dsimp only
    by_cases huv : v = u
    · subst huv
      exact ⟨fun _ => Function.update_self .., fun h => absurd (.inl rfl) h⟩
    · refine ⟨fun h => ?_, fun _ => Function.update_of_ne (fun h => huv h.symm) _ _⟩
      rcases h with h | h
      · exact absurd (Option.some.inj h) huv
      · cases h

theorem issueCommand_last (hp : c.powerDown = true) (cmd : Nat) (addrs : List AddrVec) (u : Nat) :
    ((∃ a ∈ addrs, NamesUnit c a u) → (s.issueCommand c cmd addrs).pdLast u = s.clk) ∧
    ((¬∃ a ∈ addrs, NamesUnit c a u) → (s.issueCommand c cmd addrs).pdLast u = s.pdLast u) := by
  induction addrs generalizing s with
  | nil => exact ⟨fun ⟨a, ha, _⟩ => (nomatch ha), fun _ => rfl⟩
  | cons a addrs ih =>
    obtain ⟨hone, hno⟩ := pdIssued_last (s := s) hp a u
    obtain ⟨l, hl⟩ := pdIssued_eq (c := c) (s := s) a
    obtain ⟨ihr, ihn⟩ := ih (s := { s.pdIssued c a with dram := c.dram.issueCommand (s.pdIssued c a).dram cmd a })
    have hclk : (s.pdIssued c a).clk = s.clk := by rw [hl]
    have hstep : s.issueCommand c cmd (a :: addrs) =
        ({ s.pdIssued c a with dram := c.dram.issueCommand (s.pdIssued c a).dram cmd a } : Controller D).issueCommand c cmd
          addrs := rfl
    rw [hstep]
    by_cases hrest : ∃ x ∈ addrs, NamesUnit c x u
    · refine ⟨fun _ => (ihr hrest).trans hclk, fun h => absurd ?_ h⟩
      obtain ⟨x, hx, hxu⟩ := hrest
      exact ⟨x, List.mem_cons_of_mem _ hx, hxu⟩
    · refine ⟨fun h => (ihn hrest).trans (hone ?_), fun h => (ihn hrest).trans (hno fun ha => ?_)⟩
      · obtain ⟨x, hx, hxu⟩ := h
        rcases List.mem_cons.mp hx with rfl | hx
        · exact hxu
        · exact absurd ⟨x, hx, hxu⟩ hrest
      · exact h ⟨a, List.mem_cons_self .., ha⟩

theorem pdOk_awake (hp : c.powerDown = true) {a : AddrVec} (ha : s.pdOk c a = true) {u : Nat} (hu : u < c.pdUnits)
    (hn : NamesUnit c a u) : s.pdIn u = false ∧ s.pdWake u ≤ s.clk := by
  unfold pdOk at ha
  rw [hp, Bool.not_true, Bool.false_or] at ha
  rcases hn with hn | hn
  · rw [hn] at ha
    simpa using ha
  · rw [hn] at ha
    simpa using List.all_eq_true.mp ha u (List.mem_range.mpr hu)

theorem neededAt_le {u n : Nat} (h : s.neededAt u n = true) : n ≤ s.pdLog.length := by
  cases n with
  | zero => exact Nat.zero_le _
  | succ n =>
    rw [neededAt] at h
    rcases hx : s.pdLog[n]? with _ | x
    · rw [hx] at h
      cases h
    · exact (List.getElem?_eq_some_iff.mp hx).1

theorem PowerKept.issue (hpd : c.powerDown = true) (h : PowerKept c s) (hclk : s.clk = s.pdLog.length) {buses : Bool}
    {b : Buffer} {i : Nat} {r : Request} {cmd : Nat} (hi : s.Issuable c buses b i r cmd) :
    PowerKept c (s.pimidIssue c buses b i r cmd) := by
  have ht := pimidIssue_issued (c := c) (s := s) buses b i r cmd
  have hprio : PriorityOk (s.pimidIssue c buses b i r cmd) := h.priority.issue
  have hbufs : BuffersInRange c (s.pimidIssue c buses b i r cmd) :=
    BuffersAre.issue h.inRange (h.inRange b r (List.mem_of_getElem? hi.mem))
  generalize s.pimidIssue c buses b i r cmd = t at ht hprio hbufs
  obtain ⟨hpdIn, hsince, hwake, hcycles, hexits, hlog⟩ := ht.power
  have has := asleepAt_congr hlog
  have hne := neededAt_congr hlog
  have hticks : asleepTicks c t = asleepTicks c s := by
    unfold asleepTicks
    simp only [has, hlog]
  have hwakes : wakeUps c t = wakeUps c s := by
    unfold wakeUps
    simp only [has, hlog]
  have hlast := issueCommand_last (s := s) hpd (s.issueCmd c r cmd) (s.issueTo c r cmd).2
  -- a command of this clock is not yet the past of any tick
  have hidle : ∀ u n, n ≤ s.pdLog.length → (IdleAt c t u n ↔ IdleAt c s u n) := by
    intro u n hn
    unfold IdleAt
    simp only [hne]
    refine and_congr_right fun _ => and_congr_right fun _ => and_congr_right fun _ => ?_
    rw [ht.issues]
    constructor
    · exact fun hall e he => hall e (List.mem_append_left _ he)
    · intro hall e he hen
      rcases List.mem_append.mp he with he | he
      · exact hall e he hen
      · obtain rfl := List.mem_singleton.mp he
        have : (s.issueOf c b i r cmd).clk = s.clk := rfl
        omega
  refine ⟨hprio, hbufs, fun u => ?_, fun u hu => ?_, ?_, fun e he => ?_, fun e he => ?_, fun n hn u hu => ?_, ?_, ?_, ?_⟩
  · rw [hpdIn, hlog, has]
    exact h.asleep u
  · have hold := h.last u hu
    rw [ht.pdLast]
    by_cases hreach : ∃ a ∈ (s.issueTo c r cmd).2, NamesUnit c a u
    · rw [(hlast u).1 hreach]
      refine ⟨by omega, fun n hn => ?_, fun e he hre => ?_, .inr (.inr ⟨s.issueOf c b i r cmd, ?_, hreach, rfl⟩)⟩
      · have := neededAt_le ((hne u n).symm.trans hn)
        omega
      · rw [ht.issues] at he
        rcases List.mem_append.mp he with he | he
        · have := h.past e he
          omega
        · obtain rfl := List.mem_singleton.mp he
          exact Int.le_refl _
      · rw [ht.issues]
        exact List.mem_append_right _ (List.mem_singleton_self _)
    · rw [(hlast u).2 hreach]
      refine ⟨hold.nonneg, by simpa only [hne] using hold.needed, fun e he hre => ?_, ?_⟩
      · rw [ht.issues] at he
        rcases List.mem_append.mp he with he | he
        · exact hold.reached e he hre
        · obtain rfl := List.mem_singleton.mp he
          exact absurd hre hreach
      · rcases hold.attained with h0 | hn | ⟨e, he, hre⟩
        · exact .inl h0
        · exact .inr (.inl (by simpa only [hne] using hn))
        · exact .inr (.inr ⟨e, by rw [ht.issues]; exact List.mem_append_left _ he, hre⟩)
  · simp only [has, hlog, hwake]
    exact h.woken
  · rw [ht.issues] at he
    rw [hlog]
    rcases List.mem_append.mp he with he | he
    · exact h.past e he
    · obtain rfl := List.mem_singleton.mp he
      exact hclk.le
  · simp only [has]
    rw [ht.issues] at he
    rcases List.mem_append.mp he with he | he
    · exact h.safe e he
    · obtain rfl := List.mem_singleton.mp he
      refine ⟨s.pdLog.length, hclk, fun u hu hre => ?_⟩
      obtain ⟨a, ha, hn⟩ := hre
      obtain ⟨hin, hwk⟩ := pdOk_awake hpd (hi.awake a ha) hu hn
      refine ⟨(h.asleep u).symm.trans hin, fun w hw hwa hwb => ?_⟩
      have := h.woken u hu w hw hwa hwb
      omega
  · rw [hlog] at hn
    rw [has, has, hidle u (n + 1) hn]
    exact h.sleeps n hn u hu
  · simp only [has, hne, hlog]
    exact h.wakes
  · rw [hticks, ← h.cycles]
    unfold totalsAt
    rw [hcycles, hpdIn, hsince, hlog]
  · rw [hwakes, hexits]
    exact h.exits

/-! ## A tick of the units -/

theorem sum_filter {l : List Nat} {p : Nat → Bool} {f : Nat → Int} :
    ((l.filter p).map f).sum = (l.map fun u => if p u then f u else 0).sum := by
  induction l with
  | nil => rfl
  | cons u l ih =>
    rw [List.filter_cons, List.map_cons, List.sum_cons, ← ih]
    split
    · rw [List.map_cons, List.sum_cons]
    · rw [Int.zero_add]

theorem length_filter {l : List Nat} {p : Nat → Bool} : ((l.filter p).length : Int) = (l.map fun u => if p u then 1 else 0).sum := by
  rw [← sum_filter]
  simp

theorem sum_add_congr {l : List Nat} {f g p q : Nat → Int} (h : ∀ u ∈ l, f u + g u = p u + q u) :
    (l.map f).sum + (l.map g).sum = (l.map p).sum + (l.map q).sum := by
  induction l with
  | nil => rfl
  | cons u l ih =>
    have hu := h u (List.mem_cons_self ..)
    have hl := ih fun v hv => h v (List.mem_cons_of_mem _ hv)
    simp only [List.map_cons, List.sum_cons]
    omega

/-- What a tick of the units does, for a unit that is there. -/
structure UnitTick (c : Config D) (s t : Controller D) (wakes : Nat → Bool) (u : Nat) : Prop where
  wakes_eq : wakes u = (s.needed c u && s.pdIn u)
  pdIn : t.pdIn u = if s.pdIn u then !s.needed c u else !s.needed c u && decide (c.pdIdle ≤ s.clk - s.pdLast u)
  pdSince : t.pdSince u = if t.pdIn u && !s.pdIn u then s.clk else s.pdSince u
  pdLast : t.pdLast u = if s.needed c u then s.clk else s.pdLast u
  pdWake : t.pdWake u = if wakes u then s.clk + c.pdTxp else s.pdWake u

theorem pdTick_spec (hc : c.SetUp) (hpd : c.powerDown = true) (hr : BuffersInRange c s) :
    ∃ wakes : Nat → Bool, (∀ u < c.pdUnits, UnitTick c s (s.pdTick c) wakes u) ∧
      (s.pdTick c).pdLog = s.pdLog ++ [⟨s.needed c, (s.pdTick c).pdIn⟩] ∧
      (s.pdTick c).pdCycles = s.pdCycles + (((List.range c.pdUnits).filter wakes).map fun u => s.clk - s.pdSince u).sum ∧
      (s.pdTick c).pdExits = s.pdExits + ((List.range c.pdUnits).filter wakes).length ∧
      (s.pdTick c).issues = s.issues ∧ (s.pdTick c).buffers = s.buffers ∧ (s.pdTick c).clk = s.clk := by
  unfold pdTick
  rw [hpd, Bool.not_true, if_neg Bool.false_ne_true]
  refine ⟨_, fun u hu => ?_, rfl, rfl, rfl, rfl, rfl, rfl⟩
  have hbusy := pdBusy_eq hc hr hu
  constructor
  · rw [hbusy]
  · simp only [hbusy]
    cases s.needed c u <;> cases s.pdIn u <;> simp
  · simp only [hbusy]
    cases s.needed c u <;> cases s.pdIn u <;> simp
  · simp only [hbusy]
  · rfl

theorem asleepAt_append {t : Controller D} {x : PdTick} (hlog : t.pdLog = s.pdLog ++ [x]) (u : Nat) :
    (∀ n ≤ s.pdLog.length, t.asleepAt u n = s.asleepAt u n ∧ t.neededAt u n = s.neededAt u n) ∧
    t.asleepAt u (s.pdLog.length + 1) = x.asleep u ∧ t.neededAt u (s.pdLog.length + 1) = x.needed u := by
  refine ⟨fun n hn => ?_, ?_, ?_⟩
  · cases n with
    | zero => exact ⟨rfl, rfl⟩
    | succ n => rw [asleepAt, asleepAt, neededAt, neededAt, hlog, List.getElem?_append_left hn]; exact ⟨rfl, rfl⟩
  · rw [asleepAt, hlog, List.getElem?_append_right (Nat.le_refl _), Nat.sub_self]
    rfl
  · rw [neededAt, hlog, List.getElem?_append_right (Nat.le_refl _), Nat.sub_self]
    rfl

/-- A unit is idle when its last activity is the idle limit back. -/
theorem LastActive.idle_iff {u : Nat} {last : Int} {t : Controller D} (h : LastActive c s u last) {x : PdTick}
    (hlog : t.pdLog = s.pdLog ++ [x]) (hiss : t.issues = s.issues) (hpast : ∀ e ∈ s.issues, e.clk ≤ s.pdLog.length)
    (hx : x.needed u = false) :
    c.pdIdle ≤ (s.pdLog.length + 1 : Nat) - last ↔ IdleAt c t u (s.pdLog.length + 1) := by
  obtain ⟨hold, -, hnew⟩ := asleepAt_append hlog u
  unfold IdleAt
  rw [hnew, hx, hiss]
  constructor
  · intro hidle
    refine ⟨rfl, by have := h.nonneg; omega, fun n hn hneed => ?_, fun e he _ hre => ?_⟩
    · have := h.needed n ((hold n (by omega)).2 ▸ hneed)
      omega
    · have := h.reached e he hre
      omega
  · rintro ⟨-, h0, hn, he⟩
    rcases h.attained with rfl | ⟨n, hneed, rfl⟩ | ⟨e, hemem, hre, rfl⟩
    · omega
    · have hle := neededAt_le hneed
      exact hn n (by omega) ((hold n hle).2.trans hneed)
    · have := hpast e hemem
      exact he e hemem (by omega) hre

theorem PowerKept.pdTick (hc : c.SetUp) (hpd : c.powerDown = true) (h : PowerKept c s)
    (hclk : s.clk = s.pdLog.length + 1) :
    PowerKept c (s.pdTick c) ∧ (s.pdTick c).clk = ((s.pdTick c).pdLog.length : Int) := by
  obtain ⟨wakes, hunit, hlog, hcycles, hexits, hiss, hbuf, hsame⟩ := pdTick_spec hc hpd h.inRange
  generalize s.pdTick c = t at *
  have hat := asleepAt_append hlog
  have hlen : t.pdLog.length = s.pdLog.length + 1 := by rw [hlog, List.length_append, List.length_singleton]
  have hin : ∀ u, t.pdIn u = t.asleepAt u (s.pdLog.length + 1) := fun u => (hat u).2.1.symm
  have hbefore : ∀ u, t.asleepAt u s.pdLog.length = s.pdIn u := fun u =>
    ((hat u).1 _ (Nat.le_refl _)).1.trans (h.asleep u).symm
  have hneed : ∀ u, t.neededAt u (s.pdLog.length + 1) = s.needed c u := fun u => (hat u).2.2
  -- the units that wake are those that were asleep and are not any more
  have hwakes : ∀ u < c.pdUnits, wakes u = (t.asleepAt u s.pdLog.length && !t.asleepAt u (s.pdLog.length + 1)) := by
    intro u hu
    rw [hbefore, ← hin, (hunit u hu).pdIn, (hunit u hu).wakes_eq]
    cases s.needed c u <;> cases s.pdIn u <;> simp
  refine ⟨⟨?_, ?_, fun u => ?_, fun u hu => ?_, fun u hu w hw hwa hwb => ?_, fun e he => ?_, fun e he => ?_,
    fun n hn u hu hns => ?_, fun n hn u hu hns => ?_, ?_, ?_⟩, ?_⟩
  · unfold PriorityOk
    rw [hbuf]
    exact h.priority
  · unfold BuffersInRange BuffersAre
    rw [hbuf]
    exact h.inRange
  · rw [hlen]
    exact hin u
  · have hold := h.last u hu
    rw [(hunit u hu).pdLast]
    by_cases hbusy : s.needed c u = true
    · rw [if_pos hbusy]
      refine ⟨by omega, fun n hn => ?_, fun e he _ => ?_, .inr (.inl ⟨s.pdLog.length + 1, (hneed u).trans hbusy, ?_⟩)⟩
      · have := neededAt_le hn
        omega
      · have := h.past e (hiss ▸ he)
        omega
      · rw [hclk]
        rfl
    · rw [if_neg hbusy]
      refine ⟨hold.nonneg, fun n hn => ?_, fun e he hre => hold.reached e (hiss ▸ he) hre, ?_⟩
      · have hle := neededAt_le hn
        by_cases hn' : n = s.pdLog.length + 1
        · subst hn'
          exact absurd ((hneed u).symm.trans hn) hbusy
        · exact hold.needed n (((hat u).1 n (by omega)).2.symm.trans hn)
      · rcases hold.attained with h0 | ⟨n, hn, hnl⟩ | he
        · exact .inl h0
        · exact .inr (.inl ⟨n, ((hat u).1 n (neededAt_le hn)).2.trans hn, hnl⟩)
        · exact .inr (.inr (hiss ▸ he))
  · rw [(hunit u hu).pdWake]
    by_cases hw' : w = s.pdLog.length
    · subst hw'
      rw [hwakes u hu, hwa, hwb]
      simp only [Bool.not_false, Bool.and_self, if_true]
      omega
    · rw [((hat u).1 w (by omega)).1] at hwa
      rw [((hat u).1 (w + 1) (by omega)).1] at hwb
      have := h.woken u hu w (by omega) hwa hwb
      split <;> omega
  · have := h.past e (hiss ▸ he)
    omega
  · obtain ⟨n, hn, hsafe⟩ := h.safe e (hiss ▸ he)
    have hle := h.past e (hiss ▸ he)
    have hnle : n ≤ s.pdLog.length := by omega
    refine ⟨n, hn, fun u hu hre => ?_⟩
    obtain ⟨hawake, hwoken⟩ := hsafe u hu hre
    refine ⟨((hat u).1 n hnle).1.trans hawake, fun w hw hwa hwb => hwoken w hw ?_ ?_⟩
    · exact ((hat u).1 w (by omega)).1.symm.trans hwa
    · exact ((hat u).1 (w + 1) (by omega)).1.symm.trans hwb
  · by_cases hn' : n = s.pdLog.length
    · subst hn'
      rw [← hin, (hunit u hu).pdIn, show s.pdIn u = false from (hbefore u).symm.trans hns]
      by_cases hbusy : s.needed c u = true
      · rw [hbusy]
        simp [IdleAt, hneed, hbusy]
      · have hidle := (h.last u hu).idle_iff hlog hiss h.past (Bool.eq_false_iff.mpr hbusy)
        rw [Bool.eq_false_iff.mpr hbusy, ← hidle, hclk]
        simp
    · have hstep := h.sleeps n (by omega) u hu (((hat u).1 n (by omega)).1.symm.trans hns)
      rw [((hat u).1 (n + 1) (by omega)).1, hstep]
      unfold IdleAt
      rw [((hat u).1 (n + 1) (by omega)).2, hiss]
      refine and_congr_right fun _ => and_congr_right fun _ => and_congr_left fun _ => ?_
      refine forall_congr' fun k => forall_congr' fun hk => ?_
      rw [((hat u).1 k (by omega)).2]
  · by_cases hn' : n = s.pdLog.length
    · subst hn'
      rw [← hin, (hunit u hu).pdIn, show s.pdIn u = true from (hbefore u).symm.trans hns, hneed]
      simp
    · rw [((hat u).1 (n + 1) (by omega)).1, ((hat u).1 (n + 1) (by omega)).2]
      exact h.wakes n (by omega) u hu (((hat u).1 n (by omega)).1.symm.trans hns)
  · -- a clock for every unit that was asleep
    have hmore : asleepTicks c t = asleepTicks c s + ((List.range c.pdUnits).filter s.pdIn).length := by
      unfold asleepTicks
      rw [hlen, List.range_succ, List.map_append, List.sum_append, List.map_singleton, List.sum_singleton]
      congr 1
      · congr 1
        refine List.map_congr_left fun n hn => ?_
        have hn := List.mem_range.mp hn
        rw [List.filter_congr fun u _ => ((hat u).1 n (by omega)).1]
      · rw [List.filter_congr fun u _ => hbefore u]
    rw [hmore]
    push_cast
    rw [← h.cycles]
    unfold totalsAt
    rw [hcycles, hlen, Int.add_assoc, Int.add_assoc, sum_filter, sum_filter, sum_filter, length_filter]
    congr 1
    refine sum_add_congr fun u hu => ?_
    have hunit := hunit u (List.mem_range.mp hu)
    have hwk := hunit.wakes_eq
    have hpin := hunit.pdIn
    rw [hunit.pdSince, hwk, hpin, hclk]
    cases s.needed c u <;> cases s.pdIn u <;> simp <;> omega
  · have hmore : wakeUps c t = wakeUps c s + ((List.range c.pdUnits).filter wakes).length := by
      unfold wakeUps
      rw [hlen, List.range_succ, List.map_append, List.sum_append, List.map_singleton, List.sum_singleton]
      congr 1
      · congr 1
        refine List.map_congr_left fun n hn => ?_
        have hn := List.mem_range.mp hn
        rw [List.filter_congr fun u _ => ?_]
        rw [((hat u).1 n (by omega)).1, ((hat u).1 (n + 1) (by omega)).1]
      · rw [List.filter_congr fun u hu => (hwakes u (List.mem_range.mp hu)).symm]
    rw [hmore, hexits, h.exits]
  · rw [hsame, hclk, hlen]
    rfl

/-! ## Runs -/

theorem PowerKept.prioritySends (h : PowerKept c s) {xs : List (AddrVec × Nat)} (hxs : ∀ x ∈ xs, c.InRange x.1) :
    PowerKept c (s.prioritySends c xs) := by
  have hp := h.priority.prioritySends (c := c) xs
  have hr := BuffersAre.prioritySends (c := c) h.inRange hxs
  obtain ⟨l, hl, -⟩ := prioritySends_eq (c := c) (s := s) xs
  rw [hl] at hp hr ⊢
  exact h.same ⟨rfl, rfl, rfl, rfl, rfl, rfl, rfl, rfl⟩ hp hr

theorem prioritySends_clk (xs : List (AddrVec × Nat)) :
    (s.prioritySends c xs).clk = s.clk ∧ (s.prioritySends c xs).pdLog = s.pdLog := by
  obtain ⟨l, hl, -⟩ := prioritySends_eq (c := c) (s := s) xs
  rw [hl]
  exact ⟨rfl, rfl⟩

theorem powerKept_kept (hpd : c.powerDown = true) :
    Kept c (fun x => c.InRange x.1) fun s => PowerKept c s ∧ s.clk = s.pdLog.length where
  clk s h := by
    have := h.2
    omega
  priority s h := h.1.priority
  sends s xs hxs h := by
    have hclk := prioritySends_clk (c := c) (s := s) xs
    exact ⟨h.1.prioritySends hxs, by rw [hclk.1, hclk.2]; exact h.2⟩
  mode s w m h := ⟨h.1.same ⟨rfl, rfl, rfl, rfl, rfl, rfl, rfl, rfl⟩ h.1.priority h.1.inRange, h.2⟩
  issue s buses b i r cmd h hi := by
    have ht := pimidIssue_issued (c := c) (s := s) buses b i r cmd
    exact ⟨h.1.issue hpd h.2 hi, by rw [ht.clk, ht.power.2.2.2.2.2]; exact h.2⟩

theorem PowerKept.enqueue (h : PowerKept c s) {b : Buffer} {r : Request} (hb : b ≠ .priority) (hr : c.InRange r.addrVec) :
    PowerKept c (s.enqueue c b r).2 := by
  have hp := h.priority.enqueue (c := c) (r := r) hb
  have hr := BuffersAre.enqueue (c := c) (b := b) h.inRange hr
  obtain ⟨l, hl⟩ := enqueue_eq (c := c) (s := s) b r
  rw [hl] at hp hr ⊢
  exact h.same ⟨rfl, rfl, rfl, rfl, rfl, rfl, rfl, rfl⟩ hp hr

theorem enqueue_clk (b : Buffer) (r : Request) :
    (s.enqueue c b r).2.clk = s.clk ∧ (s.enqueue c b r).2.pdLog = s.pdLog := by
  obtain ⟨l, hl⟩ := enqueue_eq (c := c) (s := s) b r
  rw [hl]
  exact ⟨rfl, rfl⟩

/-- The tick of the units comes in every clock, so their log keeps up with it. -/
theorem PowerKept.begun (hc : c.SetUp) (hpd : c.powerDown = true) (h : PowerKept c s) (hclk : s.clk = s.pdLog.length)
    {input : TickInput} (hin : input.All fun x => c.InRange x.1) :
    PowerKept c (s.begun c input) ∧ (s.begun c input).clk = ((s.begun c input).pdLog.length : Int) := by
  unfold Controller.begun
  obtain ⟨pending, called, hs⟩ := serveCompletedReads_eq (s := { s with clk := s.clk + 1 })
  rw [hs]
  generalize ht : ({ s with clk := s.clk + 1, pending, called } : Controller D) = t
  have hkept : PowerKept c t := by
    rw [← ht]
    exact h.same ⟨rfl, rfl, rfl, rfl, rfl, rfl, rfl, rfl⟩ h.priority h.inRange
  have htclk : t.clk = t.pdLog.length + 1 := by
    rw [← ht]
    exact congrArg (· + 1) hclk
  have hrclk := prioritySends_clk (c := c) (s := t) input.refresh
  exact (hkept.prioritySends hin.1).pdTick hc hpd (by rw [hrclk.1, hrclk.2, htclk])

theorem powerKept_run (hc : c.SetUp) (hpd : c.powerDown = true) :
    RunKept c c.InRange fun s => PowerKept c s ∧ s.clk = s.pdLog.length where
  toKept := powerKept_kept hpd
  enqueue s b r h hb hr := by
    have he := enqueue_clk (c := c) (s := s) b r
    exact ⟨h.1.enqueue hb hr, by rw [he.1, he.2]; exact h.2⟩
  forward s r h := ⟨h.1.same ⟨rfl, rfl, rfl, rfl, rfl, rfl, rfl, rfl⟩ h.1.priority h.1.inRange, h.2⟩
  begun s input h hin := h.1.begun hc hpd h.2 hin
  dram s d h := ⟨h.1.same ⟨rfl, rfl, rfl, rfl, rfl, rfl, rfl, rfl⟩ h.1.priority h.1.inRange, h.2⟩

theorem powerKept_start (d : D) : PowerKept c { dram := d } := by
  refine ⟨(fun r hr => nomatch hr), (fun b r hr => nomatch hr), fun _ => rfl, fun u _ => ?_,
    (fun u _ w hw => nomatch hw), (fun e he => nomatch he), (fun e he => nomatch he), (fun n hn => nomatch hn),
    (fun n hn => nomatch hn), ?_, rfl⟩
  · refine ⟨Int.le_refl 0, fun n hn => ?_, (fun e he => nomatch he), .inl rfl⟩
    exact Int.ofNat_le.mpr (neededAt_le hn)
  · unfold totalsAt
    rw [List.filter_false]
    rfl

/-- **Power-down is safe and counted in every run**, in either mode and with any number of lock-step chips. -/
theorem powerDown_ok (hc : c.SetUp) (hpd : c.powerDown = true) (d : D) {ops : List (Op D)} (hops : ∀ op ∈ ops, op.InRange c) :
    PowerDownOk c (run c d ops) := by
  obtain ⟨hkept, hclk⟩ := (powerKept_run hc hpd).run ⟨powerKept_start d, rfl⟩ fun op hop => (hops op hop).all
  exact hkept.ok hclk

/-- A host read for both ranks after two idle clocks. -/
theorem powerDown_ok_twoRanks : PowerDownOk twoRanks (run twoRanks () [.tick {}, .tick {},
    .send { addrVec := fun _ => 0, typeId := Read, sourceId := 1 }, .tick {}, .tick {}]) := by
  refine powerDown_ok twoRanks_setUp rfl () fun op hop => ?_
  have hnone : TickInput.All (fun x => twoRanks.InRange x.1) {} := ⟨(fun x hx => nomatch hx), fun _ _ x hx => nomatch hx⟩
  simp only [List.mem_cons, List.not_mem_nil, or_false] at hop
  rcases hop with rfl | rfl | rfl | rfl | rfl
  · exact hnone
  · exact hnone
  · intro l _ _
    show (0 : Int) < 2
    decide
  · exact hnone
  · exact hnone

end Controller

end Pimid.Ramulator
