import Pimid.Dram.Window

/-!
# The counters of the close are exact

Whatever the controller counts, whenever the candidates come: what the replay reads off
the kept increments for a tick is what it counted up to that tick.
-/

namespace Pimid.Dram

open Function (update update_of_ne update_self)

/-! ## Packing -/

theorem or_shiftLeft_eq {lo k : Nat} (x : Nat) (h : lo < 2 ^ k) : lo ||| x <<< k = lo + x * 2 ^ k := by
  rw [Nat.or_comm, ← Nat.shiftLeft_add_eq_or_of_lt h, Nat.shiftLeft_eq, Nat.add_comm]

theorem shiftRight_and_eq (v k w : Nat) : (v >>> k) &&& (2 ^ w - 1) = v / 2 ^ k % 2 ^ w := by
  rw [Nat.shiftRight_eq_div_pow, Nat.and_two_pow_sub_one_eq_mod]

theorem pinPack_eq {i r bw bo pc px v : Nat} (h : pinPack i r bw bo pc px = some v) :
    v = i + r * 2 ^ 1 + bw * 2 ^ 8 + bo * 2 ^ 24 + pc * 2 ^ 40 + px * 2 ^ 56 ∧
      i ≤ 1 ∧ r ≤ 0x7f ∧ bw ≤ 0xffff ∧ bo ≤ 0xffff ∧ pc ≤ 0xffff ∧ px ≤ 0xff := by
  rw [pinPack] at h
  split at h
  next => cases h
  next hfit =>
    simp only [not_or, Nat.not_lt, gt_iff_lt] at hfit
    obtain ⟨hi, hr, hbw, hbo, hpc, hpx⟩ := hfit
    rw [or_shiftLeft_eq r (by omega), or_shiftLeft_eq bw (by omega), or_shiftLeft_eq bo (by omega),
      or_shiftLeft_eq pc (by omega), or_shiftLeft_eq px (by omega)] at h
    exact ⟨(Option.some.inj h).symm, hi, hr, hbw, hbo, hpc, hpx⟩

/-- **The packed increments are the increments.** -/
theorem pinDelta_add {g : WindowCfg} {a b : Snap} {v : Nat} (h : pinDelta a b = some v)
    (hbank : g.bankTracked = false → a.bankW = b.bankW ∧ a.bankO = b.bankO) :
    a.add g v = { b with tick := a.tick } := by
  rw [pinDelta] at h
  split at h
  next => cases h
  next hle =>
    simp only [not_or, Nat.not_lt, not_not, ne_eq] at hle
    obtain ⟨hticks, hidle, href, hbw, hbo, hpc, hpx⟩ := hle
    obtain ⟨hv, hi', hr', hbw', hbo', hpc', hpx'⟩ := pinPack_eq h
    have h0 : v &&& 1 = b.idle - a.idle := by
      rw [Nat.and_one_is_mod]
      omega
    have h1 : (v >>> 1) &&& 0x7f = b.refreshes - a.refreshes := by
      exact (shiftRight_and_eq v 1 7).trans (by omega)
    have h8 : (v >>> 8) &&& 0xffff = b.bankW - a.bankW := by
      exact (shiftRight_and_eq v 8 16).trans (by omega)
    have h24 : (v >>> 24) &&& 0xffff = b.bankO - a.bankO := by
      exact (shiftRight_and_eq v 24 16).trans (by omega)
    have h40 : (v >>> 40) &&& 0xffff = b.pdC - a.pdC := by
      exact (shiftRight_and_eq v 40 16).trans (by omega)
    have h56 : (v >>> 56) &&& 0xff = b.pdX - a.pdX := by
      exact (shiftRight_and_eq v 56 8).trans (by omega)
    rw [Snap.add, h0, h1, h8, h24, h40, h56]
    cases hg : g.bankTracked
    · obtain ⟨hw, ho⟩ := hbank hg
      simp only [hw, ho, Bool.false_eq_true, if_false, Snap.mk.injEq, true_and]
      omega
    · simp only [if_true, Snap.mk.injEq, true_and]
      omega

namespace Window

variable {g : WindowCfg} {s : Window}

/-! ## What the replay keeps is what was seen -/

/-- Every snapshot kept is the counters of its tick, and every increment kept is the one
of its tick. -/
structure Exact (g : WindowCfg) (s : Window) : Prop where
  now : s.seen s.curTick = s.takeSnap g
  tick : ∀ u ≤ s.curTick, (s.seen u).tick = u
  bank : g.bankTracked = false → ∀ u, (s.seen u).bankW = 0 ∧ (s.seen u).bankO = 0
  hist : ∀ h ∈ s.hist, h.tick ≤ s.curTick ∧ h = s.seen h.tick
  ring : ∀ i h, s.ring i = some h → h.tick ≤ s.curTick ∧ h = s.seen h.tick
  start : s.pinStart ≤ s.pinHi
  pin : s.pinBad = false → ∀ d, s.pinD = some d → ∀ u, s.pinStart < u → u ≤ s.pinHi →
    u ≤ s.curTick ∧ pinDelta (s.seen (u - 1)) (s.seen u) = some (d (u - s.pinStart))

theorem exact_init : Exact g {} := by
  refine ⟨?_, fun u hu => (Nat.le_zero.mp hu).symm, fun _ _ => ⟨rfl, rfl⟩, nofun, nofun, Nat.le_refl _, nofun⟩
  simp [takeSnap]

theorem Exact.ringAt (h : Exact g s) {u : Nat} {p : Snap} (hp : s.ringAt u = some p) : u ≤ s.curTick ∧ p = s.seen u := by
  obtain ⟨hp, htick⟩ := Option.filter_eq_some_iff.mp hp
  have htick : p.tick = u := by simpa using htick
  have hseen := h.ring _ _ hp
  rwa [htick] at hseen

/-! ## The increments -/

theorem Exact.bad (h : Exact g s) : Exact g { s with pinBad := true } :=
  ⟨h.now, h.tick, h.bank, h.hist, h.ring, h.start, nofun⟩

theorem Exact.pinStore (h : Exact g s) {u v : Nat} (hu : u = s.pinHi + 1) (hle : u ≤ s.curTick)
    (hv : pinDelta (s.seen (u - 1)) (s.seen u) = some v) : Exact g (s.pinStore u v) := by
  have hstart := h.start
  refine ⟨h.now, h.tick, h.bank, h.hist, h.ring, ?_, fun hbad d hd w hw hwu => ?_⟩
  · show s.pinStart ≤ u
    omega
  · have hw : s.pinStart < w := hw
    have hwu : w ≤ u := hwu
    obtain ⟨d', hd', rfl⟩ := Option.map_eq_some_iff.mp hd
    show w ≤ s.curTick ∧ pinDelta (s.seen (w - 1)) (s.seen w) = some (update d' (u - s.pinStart) v (w - s.pinStart))
    by_cases hwu' : w = u
    · rw [hwu', update_self]
      exact ⟨hle, hv⟩
    · rw [update_of_ne (by omega)]
      exact h.pin hbad d' hd' w hw (by omega)

theorem Exact.pinFillSingle (h : Exact g s) : Exact g s.pinFillSingle := by
  rw [Window.pinFillSingle]
  split
  next => exact h
  split
  next => exact h.bad
  next hhi =>
    split
    next a b ha hb =>
      split
      next v hv =>
        rw [(h.ringAt ha).2, (h.ringAt hb).2] at hv
        exact h.pinStore (by omega) (Nat.le_refl _) hv
      next => exact h.bad
    next => exact h.bad

/-- The ticks after `pinHi` one by one, none beyond the clock. -/
theorem Exact.backfill {n : Nat} (h : Exact g s) (hn : s.pinHi + n ≤ s.curTick) :
    Exact g (s.backfill (List.range' (s.pinHi + 1) n)) := by
  induction n generalizing s with
  | zero => exact h
  | succ n ih =>
    rw [List.range'_succ, Window.backfill]
    split
    next a b ha hb =>
      split
      next v hv =>
        rw [(h.ringAt ha).2, (h.ringAt hb).2] at hv
        have hstore := h.pinStore rfl (by omega) hv
        exact ih hstore (by show s.pinHi + 1 + n ≤ s.curTick; omega)
      next => exact h.bad
    next => exact h.bad

theorem Exact.pinFree (h : Exact g s) : Exact g s.pinFree :=
  ⟨h.now, h.tick, h.bank, h.hist, h.ring, Nat.le_refl _, nofun⟩

theorem Exact.pinFrom (h : Exact g s) (st : Nat) : Exact g (s.pinFrom st) := by
  have hnew : Exact g { s.pinFree with pinSet := true, pinStart := st, pinD := some fun _ => 0, pinHi := st } := by
    refine ⟨h.now, h.tick, h.bank, h.hist, h.ring, Nat.le_refl _, fun _ _ _ u hlt hle => ?_⟩
    exact absurd hle (Nat.not_le.mpr hlt)
  by_cases hst : st ≤ s.curTick
  · exact hnew.backfill (n := s.curTick - st) (by show st + _ ≤ s.curTick; omega)
  · have hnil : List.range' (st + 1) (s.curTick - st) = [] := by
      rw [Nat.sub_eq_zero_of_le (by omega)]
      rfl
    rw [Window.pinFrom, hnil]
    exact hnew

/-- `pinFree` forgets what `pinFillSingle` and `pinFrom` change. -/
theorem pinFree_pinFillSingle (s : Window) : s.pinFillSingle.pinFree = s.pinFree := by
  rw [Window.pinFillSingle]
  repeat' split
  all_goals rfl

theorem pinFree_backfill (us : List Nat) (s : Window) : (s.backfill us).pinFree = s.pinFree := by
  induction us generalizing s with
  | nil => rfl
  | cons u us ih =>
    rw [Window.backfill]
    repeat' split
    · exact ih _
    · rfl
    · rfl

theorem pinFree_noteCloseCandidate (s : Window) (t : Nat) : (s.noteCloseCandidate t).pinFree = s.pinFree := by
  rw [Window.noteCloseCandidate]
  dsimp only
  repeat' split
  · exact pinFree_backfill _ _
  all_goals rfl

/-! ## Reading -/

theorem Exact.sum (h : Exact g s) (hbad : s.pinBad = false) {d : Nat → Nat} (hd : s.pinD = some d) {b : Nat}
    (hb : s.pinStart ≤ b) (n : Nat) (hn : b + n ≤ s.pinHi) :
    (List.range' (b + 1) n).foldl (fun p u => p.add g (d (u - s.pinStart))) (s.seen b) =
      { s.seen (b + n) with tick := (s.seen b).tick } := by
  induction n with
  | zero => rfl
  | succ n ih =>
    obtain ⟨-, hdelta⟩ := h.pin hbad d hd (b + (n + 1)) (by omega) hn
    have hadd := pinDelta_add (g := g) hdelta fun hg => by simp [h.bank hg]
    rw [List.range'_concat, List.foldl_append, ih (by omega)]
    have hu : b + 1 + 1 * n = b + (n + 1) := by omega
    simp only [List.foldl_cons, List.foldl_nil, hu]
    -- the tick is not touched, so the counters of the tick before may stand for the sum so far
    have hset : ∀ (p : Snap) (t v : Nat), ({ p with tick := t } : Snap).add g v = { p.add g v with tick := t } :=
      fun _ _ _ => rfl
    rw [hset]
    exact congrArg (fun p : Snap => { p with tick := (s.seen b).tick }) hadd

theorem Exact.pinSum (h : Exact g s) {base p : Snap} {tick : Nat} (hbase : base = s.seen base.tick)
    (hle : base.tick ≤ s.curTick) (hp : s.pinSum g base tick = some p) : tick ≤ s.curTick ∧ p = s.seen tick := by
  rw [Window.pinSum] at hp
  split at hp
  next => cases hp
  next hguard =>
    simp only [not_or, Bool.not_eq_true, Bool.not_eq_true', Nat.not_lt] at hguard
    obtain ⟨-, hbad, hstart, htick, -⟩ := hguard
    split at hp
    next => cases hp
    next d hd =>
      split at hp
      next => cases hp
      next hhi =>
        have hcur : tick ≤ s.curTick := by
          by_cases heq : tick = base.tick
          · exact heq ▸ hle
          · exact (h.pin hbad d hd tick (by omega) (by omega)).1
        refine ⟨hcur, ?_⟩
        have hsum := h.sum hbad hd hstart (tick - base.tick) (by omega)
        rw [← hbase, Nat.add_sub_cancel' htick] at hsum
        rw [← Option.some.inj hp, hsum]
        exact Snap.ext (h.tick tick hcur).symm rfl rfl rfl rfl rfl rfl rfl

theorem Exact.best (h : Exact g s) {t : Nat} {p : Snap} (hp : (s.hist.takeWhile fun h => h.tick ≤ t).getLast? = some p) :
    p.tick ≤ s.curTick ∧ p = s.seen p.tick :=
  h.hist p ((List.takeWhile_sublist _).subset (List.mem_of_getLast? hp))

theorem Exact.pinRead (h : Exact g s) {p : Snap} {tick : Nat} (hp : s.pinRead g tick = some p) :
    tick ≤ s.curTick ∧ p = s.seen tick := by
  rw [Window.pinRead] at hp
  split at hp
  next => cases hp
  next best hbest => exact h.pinSum (h.best hbest).2 (h.best hbest).1 hp

/-! ## One step -/

theorem Exact.noteCloseCandidate (h : Exact g s) (t : Nat) : Exact g (s.noteCloseCandidate t) := by
  rw [Window.noteCloseCandidate]
  dsimp only
  repeat' split
  · exact h.pinFrom _
  · exact h
  · exact h
  · exact h

theorem Exact.count (h : Exact g s) (c : Totals) (quiet : Bool) : Exact g (s.count g c quiet) := by
  -- the ticks so far keep their counters
  have hseen : ∀ u ≤ s.curTick, (s.count g c quiet).seen u = s.seen u :=
    fun u hu => update_of_ne (by show u ≠ s.curTick + 1; omega) _ _
  refine ⟨update_self _ _ _, fun u hu => ?_, fun hg u => ?_, fun p hp => ?_, fun i p hp => ?_, h.start,
    fun hbad d hd u hlt hle => ?_⟩
  · have hu : u ≤ s.curTick + 1 := hu
    by_cases hlast : u = s.curTick + 1
    · have hnew : (s.count g c quiet).seen (s.curTick + 1) = _ := update_self _ _ _
      rw [hlast, hnew]
      rfl
    · rw [hseen u (by omega)]
      exact h.tick u (by omega)
  · show (update s.seen _ _ u).bankW = 0 ∧ (update s.seen _ _ u).bankO = 0
    by_cases hlast : u = s.curTick + 1
    · rw [hlast, update_self]
      simp [takeSnap, hg]
    · rw [update_of_ne hlast]
      exact h.bank hg u
  · obtain ⟨hle, heq⟩ := h.hist p hp
    exact ⟨Nat.le_succ_of_le hle, by rw [hseen _ hle]; exact heq⟩
  · obtain ⟨hle, heq⟩ := h.ring i p hp
    exact ⟨Nat.le_succ_of_le hle, by rw [hseen _ hle]; exact heq⟩
  · obtain ⟨hle, heq⟩ := h.pin hbad d hd u hlt hle
    refine ⟨Nat.le_succ_of_le hle, ?_⟩
    rw [hseen _ hle, hseen _ (by omega)]
    exact heq

theorem Exact.snapTick (h : Exact g s) : Exact g (s.snapTick g) := by
  rw [Window.snapTick]
  split
  next => exact ⟨h.now, h.tick, h.bank, h.hist, h.ring, h.start, h.pin⟩
  split
  next =>
    refine ⟨h.now, h.tick, h.bank, fun p hp => ?_, h.ring, h.start, h.pin⟩
    rcases List.mem_append.mp hp with hp | hp
    · exact h.hist p hp
    · obtain rfl := List.mem_singleton.mp hp
      exact ⟨Nat.le_refl _, h.now.symm⟩
  next => exact h

theorem Exact.ringTick (h : Exact g s) : Exact g (s.ringTick g) := by
  rw [Window.ringTick]
  split
  next =>
    have hring : Exact g { s with ring := update s.ring (s.curTick % kRing) (some (s.takeSnap g)) } := by
      refine ⟨h.now, h.tick, h.bank, h.hist, fun i p hp => ?_, h.start, h.pin⟩
      by_cases hi : i = s.curTick % kRing
      · have hp : some (s.takeSnap g) = some p := by
          rw [← hp, hi]
          show _ = update s.ring _ _ _
          rw [update_self]
        obtain rfl := Option.some.inj hp
        exact ⟨Nat.le_refl _, h.now.symm⟩
      · have hp : s.ring i = some p := by
          rw [← hp]
          show _ = update s.ring _ _ _
          rw [update_of_ne hi]
        exact h.ring i p hp
    dsimp only
    split
    next => exact hring.pinFillSingle
    next => exact hring
  next => exact h

theorem Exact.armClose (h : Exact g s) (t : Nat) : Exact g (s.armClose g t) := by
  rw [Window.armClose]
  split
  next => exact h
  dsimp only
  repeat' split
  · exact ⟨h.now, h.tick, h.bank, nofun, h.ring, h.start, h.pin⟩
  · exact ⟨h.now, h.tick, h.bank, h.hist, h.ring, h.start, h.pin⟩
  · exact ⟨h.now, h.tick, h.bank, nofun, h.ring, h.start, h.pin⟩
  · exact ⟨h.now, h.tick, h.bank, h.hist, h.ring, h.start, h.pin⟩

theorem Exact.step (h : Exact g s) (op : Op) : Exact g (s.step g op) := by
  cases op with
  | tick c quiet => exact ((h.count c quiet).snapTick).ringTick
  | noteCloseCandidate t => exact h.noteCloseCandidate t
  | markRoi => exact ⟨h.now, h.tick, h.bank, nofun, nofun, Nat.le_refl _, nofun⟩
  | armClose t => exact h.armClose t
  | keepHist on => exact ⟨h.now, h.tick, h.bank, h.hist, h.ring, h.start, h.pin⟩
  | reopen => exact ⟨h.now, h.tick, h.bank, h.hist, h.ring, h.start, h.pin⟩
  | pinFree => exact h.pinFree

/-! ## The close -/

theorem Exact.closeCounters (h : Exact g s) {t : Nat} (hp : (s.closeCounters g t).2 = false) :
    (s.closeCounters g t).1 = s.seen t := by
  rw [Window.closeCounters] at hp ⊢
  split
  next heq => rw [← heq, h.now]
  next hne =>
    rw [if_neg hne] at hp
    split
    next p hring =>
      rw [Option.ite_none_right_eq_some] at hring
      exact (h.ringAt hring.2).2
    next hring =>
      rw [hring] at hp
      split
      next p hread => exact (h.pinRead hread).2
      next hread =>
        rw [hread] at hp
        dsimp only at hp
        split at hp <;> cases hp

/-- The close is snapped at its own tick, when it was armed before, or when it is armed. -/
structure Closing (s : Window) : Prop where
  unarmed : s.closeArmed = false → s.closeSnapped = false
  armed : s.closeArmed = true → s.closeSnapped = false → s.curTick < s.closeTick
  closed : s.closeSnapped = true → s.closeFromSnap = false → s.closeTick ≤ s.curTick ∧ s.snap = s.seen s.closeTick

theorem Closing.of_pinFree {s' : Window} (h : Closing s) (heq : s'.pinFree = s.pinFree) : Closing s' := by
  have hfree : Closing s.pinFree := ⟨h.unarmed, h.armed, h.closed⟩
  rw [← heq] at hfree
  exact ⟨hfree.unarmed, hfree.armed, hfree.closed⟩

theorem Closing.tickOnce (h : Closing s) (hx : Exact g s) (c : Totals) (quiet : Bool) :
    Closing (s.tickOnce g c quiet) := by
  have hnow := (hx.count c quiet).now
  have hseen : ∀ u ≤ s.curTick, (s.count g c quiet).seen u = s.seen u :=
    fun u hu => update_of_ne (by show u ≠ s.curTick + 1; omega) _ _
  have harmed : (s.count g c quiet).closeArmed = true → (s.count g c quiet).closeSnapped = false →
      (s.count g c quiet).curTick ≤ (s.count g c quiet).closeTick := h.armed
  have hclosed : (s.count g c quiet).closeSnapped = true → (s.count g c quiet).closeFromSnap = false →
      (s.count g c quiet).closeTick ≤ (s.count g c quiet).curTick ∧
        (s.count g c quiet).snap = (s.count g c quiet).seen (s.count g c quiet).closeTick := by
    intro hs hf
    obtain ⟨hle, hsnap⟩ := h.closed hs hf
    exact ⟨Nat.le_succ_of_le hle, hsnap.trans (hseen _ hle).symm⟩
  have hunarmed : (s.count g c quiet).closeArmed = false → (s.count g c quiet).closeSnapped = false := h.unarmed
  rw [Window.tickOnce]
  generalize s.count g c quiet = s₁ at hnow harmed hclosed hunarmed
  have hsnap : Closing (s₁.snapTick g) := by
    rw [Window.snapTick]
    split
    next hclose =>
      simp only [Bool.and_eq_true, Bool.not_eq_true', decide_eq_true_eq] at hclose
      obtain ⟨⟨ha, hs⟩, hle⟩ := hclose
      -- the tick that reaches the close is the close
      have heq : s₁.closeTick = s₁.curTick := Nat.le_antisymm hle (harmed ha hs)
      refine ⟨fun hna => absurd (ha.symm.trans hna) (by decide), fun _ hns => absurd hns (by simp [applySnap]),
        fun _ _ => ⟨hle, ?_⟩⟩
      show s₁.takeSnap g = s₁.seen s₁.closeTick
      rw [heq, hnow]
    next hopen =>
      have hopen : s₁.closeArmed = true → s₁.closeSnapped = false → s₁.curTick < s₁.closeTick := by
        intro ha hs
        simp only [ha, hs, Bool.not_false, Bool.and_self, Bool.true_and, decide_eq_true_eq, Nat.not_le] at hopen
        exact hopen
      split
      · exact ⟨hunarmed, hopen, hclosed⟩
      · exact ⟨hunarmed, hopen, hclosed⟩
  rw [Window.ringTick]
  split
  next =>
    have hring : ∀ r, Closing { s₁.snapTick g with ring := r } := fun _ => ⟨hsnap.unarmed, hsnap.armed, hsnap.closed⟩
    dsimp only
    split
    next => exact (hring _).of_pinFree (pinFree_pinFillSingle _)
    next => exact hring _
  next => exact hsnap

theorem Closing.armClose (h : Closing s) (hx : Exact g s) (t : Nat) : Closing (s.armClose g t) := by
  have hhist : ∀ {s' : Window} (l : List Snap), Closing s' → Closing { s' with hist := l } :=
    fun _ h => ⟨h.unarmed, h.armed, h.closed⟩
  rw [Window.armClose]
  split
  next => exact h
  next hguard =>
    have hna : s.closeArmed = false := by
      simp only [Bool.or_eq_true, not_or, Bool.not_eq_true] at hguard
      exact hguard.2
    have hx₁ : Exact g { s with closeArmed := true, closeTick := t } :=
      ⟨hx.now, hx.tick, hx.bank, hx.hist, hx.ring, hx.start, hx.pin⟩
    dsimp only
    split
    next hle =>
      have hclosed : Closing
          { ({ s with closeArmed := true, closeTick := t } : Window).applySnap
              (({ s with closeArmed := true, closeTick := t } : Window).closeCounters g t).1 with
            closeFromSnap := (({ s with closeArmed := true, closeTick := t } : Window).closeCounters g t).2 } :=
        ⟨nofun, fun _ hs => absurd hs (by simp [applySnap]), fun _ hf => ⟨hle, hx₁.closeCounters hf⟩⟩
      split
      · exact hhist [] hclosed
      · exact hclosed
    next hlt =>
      have harmed : Closing { s with closeArmed := true, closeTick := t } := by
        refine ⟨nofun, fun _ _ => Nat.not_le.mp hlt, fun hs => ?_⟩
        exact absurd (h.unarmed hna) (by rw [show s.closeSnapped = true from hs]; decide)
      split
      · exact hhist [] harmed
      · exact harmed

theorem Closing.step (h : Closing s) (hx : Exact g s) (op : Op) : Closing (s.step g op) := by
  cases op with
  | tick c quiet => exact h.tickOnce hx c quiet
  | noteCloseCandidate t => exact h.of_pinFree (pinFree_noteCloseCandidate s t)
  | markRoi => exact ⟨fun _ => rfl, nofun, nofun⟩
  | armClose t => exact h.armClose hx t
  | keepHist on => exact ⟨h.unarmed, h.armed, h.closed⟩
  | reopen => exact ⟨fun _ => rfl, nofun, nofun⟩
  | pinFree => exact h.of_pinFree rfl

/-! ## A run -/

theorem exact_closing_run (ops : List Op) : Exact g (run g ops) ∧ Closing (run g ops) := by
  have hstep : ∀ s op, Exact g s ∧ Closing s → True → Exact g (s.step g op) ∧ Closing (s.step g op) :=
    fun _ op h _ => ⟨h.1.step op, h.2.step h.1 op⟩
  exact Along.keeps hstep ⟨exact_init, fun _ => rfl, nofun, nofun⟩ (along_of_forall (fun _ _ => trivial) _ ops)

/-- **The kept increments.** After any steps, what `pinRead` gives for a tick is the
counters of that tick, which the clock has reached. -/
theorem pin_read_exact (g : WindowCfg) (ops : List Op) (tick : Nat) (p : Snap) (h : (run g ops).pinRead g tick = some p) :
    tick ≤ (run g ops).curTick ∧ p = (run g ops).seen tick :=
  (exact_closing_run ops).1.pinRead h

/-- The replay `n` quiet ticks after the ROI's begin, told at once that it will not end before 1024. -/
def early (n : Nat) (ring : Nat → Option Snap) (seen : Nat → Snap) : Window where
  curTick := n
  ticks := n
  idle := n
  roiMarked := true
  ringOn := true
  ring := ring
  pinSet := true
  pinStart := 1024
  pinHi := 1024
  pinD := some fun _ => 0
  seen := seen

theorem run_early (n : Nat) (hn : n < 1024) :
    ∃ ring seen, run ⟨true, true, false⟩ (.markRoi :: .noteCloseCandidate 1024 :: List.replicate n (.tick {} true)) =
      early n ring seen := by
  induction n with
  | zero => exact ⟨_, _, rfl⟩
  | succ n ih =>
    obtain ⟨ring, seen, heq⟩ := ih (by omega)
    have hpast : ¬(n + 1) % kSnapEvery = 0 := by
      rw [kSnapEvery, Nat.mod_eq_of_lt hn]
      exact Nat.succ_ne_zero n
    have hle : n + 1 ≤ 1024 := by omega
    rw [List.replicate_succ', ← List.cons_append, ← List.cons_append, run, List.foldl_append]
    refine ⟨update ring ((n + 1) % kRing) (some ⟨n + 1, n + 1, n + 1, 0, 0, 0, 0, 0⟩),
      update seen (n + 1) ⟨n + 1, n + 1, n + 1, 0, 0, 0, 0, 0⟩, ?_⟩
    rw [← run, heq]
    simp [step, tickOnce, count, snapTick, ringTick, keeps, pinFillSingle, early, takeSnap, hpast, hle]

/-- The tick after the first periodic snapshot. -/
theorem pin_read_exact_1025 :
    ∃ p, (run ⟨true, true, false⟩ (.markRoi :: .noteCloseCandidate 1024 :: (List.replicate 1023 (.tick {} true) ++
        [.tick {} true, .tick { refreshes := 2 } false]))).pinRead ⟨true, true, false⟩ 1025 = some p ∧
      p.refreshes = 2 ∧
      p = (run ⟨true, true, false⟩ (.markRoi :: .noteCloseCandidate 1024 :: (List.replicate 1023 (.tick {} true) ++
        [.tick {} true, .tick { refreshes := 2 } false]))).seen 1025 := by
  obtain ⟨ring, seen, heq⟩ := run_early 1023 (by decide)
  have hread : ∃ p, (run ⟨true, true, false⟩ (.markRoi :: .noteCloseCandidate 1024 :: (List.replicate 1023 (.tick {} true) ++
      [.tick {} true, .tick { refreshes := 2 } false]))).pinRead ⟨true, true, false⟩ 1025 = some p ∧ p.refreshes = 2 := by
    rw [← List.cons_append, ← List.cons_append, run, List.foldl_append, ← run, heq]
    refine ⟨⟨1025, 1025, 1024, 2, 0, 0, 0, 0⟩, ?_, rfl⟩
    simp [step, tickOnce, count, snapTick, ringTick, keeps, pinFillSingle, early, takeSnap, ringAt, pinDelta, pinPack,
      pinStore, pinRead, pinSum, Snap.add, Option.filter_some, kSnapEvery, kRing, kPin]
  obtain ⟨p, hp, href⟩ := hread
  exact ⟨p, hp, href, (pin_read_exact _ _ _ p hp).2⟩

end Window

end Pimid.Dram
