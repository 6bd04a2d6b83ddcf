import Pimid.Cut.Bounds
import Pimid.Cut.Tables

/-!
# No record falls behind the cut

Take a point of a run, and the bounds the cut was computed from there. In every run
from there each rank is either still in the wait it was in, or has a clock at or over
its bound; and whatever was posted or has arrived since was so by a rank at or over its
bound, at its clock (`Ahead`). So what releases a rank from its old wait is no earlier
than the rank's bound allows, whichever rank it comes from: the bounds of a cycle of
waits are not circular, for somebody would have to be the first to leave it.
-/

namespace Pimid.Cut.State

open Function (update update_of_ne update_self)

variable {N : Nat} {s₀ s s' : State N} {r : Fin N} {L : Fin N → WithTop Nat}

/-- The clocks the cut is taken from are positive. -/
def Positive (s : State N) : Prop :=
  ∀ r, s.status r ≠ .exited → 0 < s.cutAxisClock r ∧ 0 < s.relAxisClock r

/-- No entry is of an older origin. -/
def Current (s : State N) : Prop :=
  (∀ src dst, ∀ e ∈ s.cutWakeMsgs src dst, e.gen = s.roiBaseGen) ∧
    ∀ k b, s.cutWakeBars k = some b → b.gen = s.roiBaseGen

/-! ## The bounds at the point of the cut -/

/-- What `L` has to be at `s₀` for the argument. -/
structure BoundsAt (s₀ : State N) (L : Fin N → WithTop Nat) : Prop where
  active : ∀ r, (s₀.status r).isActive = true → L r ≤ s₀.relAxisClock r
  recv : ∀ r src, s₀.status r = .waiting (.recv src) →
    L r ≤ max (s₀.relAxisClock r : WithTop Nat) (s₀.recvCand L r src)
  barrier : ∀ r, s₀.status r = .waiting .barrier →
    L r ≤ max (s₀.relAxisClock r : WithTop Nat) (s₀.barrierTop L r) ∨ L r ≤ s₀.relAxisClock r

theorem boundsAt_bounds (s : State N) : s.BoundsAt s.bounds where
  active r h := (bounds_of_active h).le
  recv r src h := by
    refine (bounds_le_topOf (by rw [h]; rfl)).trans ?_
    unfold topOf candTop
    split
    next => rw [h]
    next => exact max_le_max (le_refl _) (zero_le_bound _)
  barrier r h := by
    by_cases hstale : s.cutWakeStale = 0
    · left
      rw [← topOf_barrier hstale h]
      exact bounds_le_topOf (by rw [h]; rfl)
    · right
      refine (bounds_le_topOf (by rw [h]; rfl)).trans ?_
      unfold topOf candTop
      rw [if_neg hstale]
      exact max_le (le_refl _) (zero_le_bound _)

/-! ## What holds from there on -/

/-- The rank is still in the wait it was in, or has exited: nothing posted to it then
has been received, and nothing posted since was posted before the sender's bound. -/
structure Still (s₀ : State N) (L : Fin N → WithTop Nat) (s : State N) (r : Fin N) : Prop where
  idle : (s₀.status r).isActive = false
  status : s.status r = s₀.status r
  barGen : s.rankBarGen r = s₀.rankBarGen r
  posted : ∀ src, ∃ new, s.posted src r = s₀.posted src r ++ new ∧
    ∀ e ∈ new, L src ≤ e.t ∧ e.gen = s₀.roiBaseGen

structure Ahead (s₀ : State N) (L : Fin N → WithTop Nat) (s : State N) : Prop where
  gen : s.roiBaseGen = s₀.roiBaseGen
  delta : s.cutRelDelta = s₀.cutRelDelta
  clock : ∀ r, s₀.cutAxisClock r ≤ s.cutAxisClock r
  rank : ∀ r, L r ≤ s.relAxisClock r ∨ Still s₀ L s r
  arrivals : ∀ k r t, s₀.arrivals k r = some t → s.arrivals k r = some t
  arrived : ∀ k r t, s.arrivals k r = some t → s₀.arrivals k r = some t ∨ L r ≤ t
  first : ∀ k g, s₀.barFirstBaseGen k = some g → s.barFirstBaseGen k = some g

/-- A step of rank `r`, as the others see it. -/
structure StepOf (s : State N) (r : Fin N) (s' : State N) : Prop where
  gen : s'.roiBaseGen = s.roiBaseGen
  delta : s'.cutRelDelta = s.cutRelDelta
  clock : ∀ q, s.cutAxisClock q ≤ s'.cutAxisClock q
  status : ∀ q, q ≠ r → s'.status q = s.status q
  barGen : ∀ q, q ≠ r → s'.rankBarGen q = s.rankBarGen q
  posted : ∀ src q, q ≠ r → ∃ new, s'.posted src q = s.posted src q ++ new ∧
    ∀ e ∈ new, src = r ∧ e.t = s'.relAxisClock r ∧ e.gen = s.roiBaseGen
  arrivals : ∀ k q t, s.arrivals k q = some t → s'.arrivals k q = some t
  arrived : ∀ k q t, s'.arrivals k q = some t → s.arrivals k q = some t ∨ (q = r ∧ t = s'.relAxisClock r)
  first : ∀ k g, s.barFirstBaseGen k = some g → s'.barFirstBaseGen k = some g

theorem toRel_mono {a b : Nat} (h : a ≤ b) (c : Fin N) : s.toRel c a ≤ s.toRel c b := by
  unfold toRel
  omega

theorem relAxisClock_mono (hd : s'.cutRelDelta = s.cutRelDelta) {q : Fin N}
    (hc : s.cutAxisClock q ≤ s'.cutAxisClock q) : s.relAxisClock q ≤ s'.relAxisClock q := by
  unfold relAxisClock toRel
  rw [hd]
  omega

theorem ahead_start (hb : BoundsAt s.cutWakeRebase L) : Ahead s.cutWakeRebase L s := by
  obtain ⟨stale, floor, heq⟩ := cutWakeRebase_eq s
  rw [heq] at hb ⊢
  refine ⟨rfl, rfl, fun r => le_refl _, fun r => ?_, fun k r t h => h, fun k r t h => Or.inl h, fun k g h => h⟩
  cases h : (s.status r).isActive with
  | true => exact Or.inl (hb.active r h)
  | false => exact Or.inr ⟨h, rfl, rfl, fun src => ⟨[], by simp, fun e he => absurd he List.not_mem_nil⟩⟩

theorem Ahead.step (h : Ahead s₀ L s) (hs : StepOf s r s') (hr : L r ≤ s'.relAxisClock r) : Ahead s₀ L s' where
  gen := hs.gen.trans h.gen
  delta := hs.delta.trans h.delta
  clock q := (h.clock q).trans (hs.clock q)
  rank q := by
    by_cases hq : q = r
    · subst hq
      exact Or.inl hr
    rcases h.rank q with hle | hstill
    · exact Or.inl (hle.trans (WithTop.coe_le_coe.mpr (relAxisClock_mono hs.delta (hs.clock q))))
    · refine Or.inr ⟨hstill.idle, (hs.status q hq).trans hstill.status, (hs.barGen q hq).trans hstill.barGen, ?_⟩
      intro src
      obtain ⟨new, hnew, hall⟩ := hstill.posted src
      obtain ⟨more, hmore, hall'⟩ := hs.posted src q hq
      refine ⟨new ++ more, by rw [hmore, hnew, List.append_assoc], fun e he => ?_⟩
      rcases List.mem_append.mp he with he | he
      · exact hall e he
      · obtain ⟨rfl, ht, hg⟩ := hall' e he
        exact ⟨by rw [ht]; exact hr, hg.trans h.gen⟩
  arrivals k q t hq := hs.arrivals k q t (h.arrivals k q t hq)
  arrived k q t hq := by
    rcases hs.arrived k q t hq with hold | ⟨rfl, rfl⟩
    · exact h.arrived k q t hold
    · exact Or.inr hr
  first k g hk := hs.first k g (h.first k g hk)

theorem Ahead.of_active (h : Ahead s₀ L s) (hr : (s.status r).isActive = true) : L r ≤ s.relAxisClock r := by
  rcases h.rank r with hle | hstill
  · exact hle
  · rw [hstill.status, hstill.idle] at hr
    cases hr

/-! ## What releases a rank -/

/-- A message that is taken lets its rank go on no earlier than the rank's bound. -/
theorem Ahead.of_recv (h : Ahead s₀ L s) (hb : BoundsAt s₀ L) (hok : s₀.TablesOk) (hcur : s₀.Current)
    {src : Fin N} {e : Entry} {q : List Entry} {clock : Nat} (hq : s.posted src r = e :: q)
    (ht : s.takes r src = true) (hclock : s.cutAxisClock r ≤ clock) (he : s.notBefore r clock e = true) :
    L r ≤ (s.toRel r clock : Nat) := by
  have hown : s.relAxisClock r ≤ s.toRel r clock := toRel_mono hclock r
  rcases h.rank r with hle | hstill
  · exact hle.trans (WithTop.coe_le_coe.mpr hown)
  have hown₀ : s₀.relAxisClock r ≤ s.toRel r clock :=
    (relAxisClock_mono h.delta (h.clock r)).trans hown
  -- the message is the oldest posted then, or was posted since
  obtain ⟨new, hnew, hall⟩ := hstill.posted src
  rw [hq] at hnew
  have hcase : (∃ q₀, s₀.cutWakeMsgs src r = e :: q₀ ∧ e.gen = s₀.roiBaseGen) ∨
      (s₀.cutWakeMsgs src r = [] ∧ L src ≤ (e.t : Nat) ∧ e.gen = s₀.roiBaseGen) := by
    rw [hok.msgs]
    cases hold : s₀.posted src r with
    | nil =>
      rw [hold, List.nil_append] at hnew
      exact Or.inr ⟨rfl, hall e (hnew ▸ List.mem_cons_self)⟩
    | cons e₀ q₀ =>
      rw [hold] at hnew
      obtain ⟨rfl, _⟩ := List.cons.inj hnew
      have hmem : e ∈ s₀.cutWakeMsgs src r := by
        rw [hok.msgs, hold]
        exact List.mem_cons_self
      exact Or.inl ⟨q₀, rfl, hcur.1 src r e hmem⟩
  have hgen : e.gen = s₀.roiBaseGen := by
    rcases hcase with ⟨_, _, hg⟩ | ⟨_, _, hg⟩
    · exact hg
    · exact hg
  have het : e.t ≤ s.toRel r clock := by
    have := of_decide_eq_true he
    exact this (hgen.trans h.gen.symm)
  have het' : (e.t : WithTop Nat) ≤ (s.toRel r clock : Nat) := WithTop.coe_le_coe.mpr het
  -- whatever the wait is on, its bound is under this message
  have hcand : ∀ w, s₀.status r = .waiting (.recv w) → (w = none ∨ w = some src) →
      L r ≤ (s.toRel r clock : Nat) := by
    intro w hw hsrc
    rcases hcase with ⟨q₀, hfront, _⟩ | ⟨hnone, hL, _⟩
    · refine (hb.recv r w hw).trans (max_le (WithTop.coe_le_coe.mpr hown₀) ?_)
      rcases hsrc with rfl | rfl
      · refine least_le_iff.mpr (Or.inl ((least_le (List.mem_finRange src) ⊤).trans ?_))
        rw [front, hfront]
        exact het'
      · rw [recvCand, hfront]
        exact het'
    · by_cases hself : src = r
      · subst hself
        exact hL.trans het'
      refine (hb.recv r w hw).trans (max_le (WithTop.coe_le_coe.mpr hown₀) ?_)
      rcases hsrc with rfl | rfl
      · refine least_le_iff.mpr (Or.inr ⟨src, by simp [others, hself], ?_⟩)
        exact ((lrank_le src).trans hL).trans het'
      · rw [recvCand, hnone]
        exact ((lrank_le src).trans hL).trans het'
  unfold takes at ht
  split at ht
  next heq =>
    rw [hstill.status] at heq
    have := hstill.idle
    rw [heq] at this
    cases this
  next heq =>
    rw [hstill.status] at heq
    exact hcand none heq (Or.inl rfl)
  next w heq =>
    rw [hstill.status] at heq
    exact hcand (some w) heq (Or.inr (congrArg some (of_decide_eq_true ht)))
  next => cases ht

theorem sofar_le {k : Nat} (hok : s₀.TablesOk) {t : Nat} (h : ∀ r t', s₀.arrivals k r = some t' → t' ≤ t) :
    s₀.sofar k ≤ t := by
  unfold sofar
  split
  next b hb =>
    split
    next =>
      obtain ⟨q, t', hq, hle⟩ := (hok.bars k b hb).maxArr
      exact hle.trans (h q t' hq)
    next => exact Nat.zero_le t
  next => exact Nat.zero_le t

/-- A barrier that is left lets its rank go on no earlier than the rank's bound. -/
theorem Ahead.of_leave (h : Ahead s₀ L s) (hb : BoundsAt s₀ L) (hok : s₀.TablesOk) (hcur : s₀.Current)
    {clock : Nat} (hr : (s.status r).inBarrier = true) (hclock : s.cutAxisClock r ≤ clock)
    (hmay : s.mayLeave r (s.rankBarGen r) clock = true) : L r ≤ (s.toRel r clock : Nat) := by
  have hown : s.relAxisClock r ≤ s.toRel r clock := toRel_mono hclock r
  rcases h.rank r with hle | hstill
  · exact hle.trans (WithTop.coe_le_coe.mpr hown)
  have hown₀ : (s₀.relAxisClock r : WithTop Nat) ≤ (s.toRel r clock : Nat) :=
    WithTop.coe_le_coe.mpr ((relAxisClock_mono h.delta (h.clock r)).trans hown)
  have hin₀ : (s₀.status r).inBarrier = true := hstill.status ▸ hr
  have hwait : s₀.status r = .waiting .barrier := by
    have hidle := hstill.idle
    cases hst : s₀.status r with
    | running => rw [hst] at hidle; cases hidle
    | arrived => rw [hst] at hidle; cases hidle
    | exited => rw [hst] at hin₀; cases hin₀
    | waiting w =>
      cases w with
      | barrier => rfl
      | recv src => rw [hst] at hin₀; cases hin₀
  rw [hstill.barGen] at hmay
  -- the barrier is of the current origin, so the release is charged
  obtain ⟨b, hbar⟩ := hok.entry hin₀
  have hfirst : s.barFirstBaseGen (s₀.rankBarGen r) = some s.roiBaseGen := by
    rw [h.first _ _ (hok.bars _ b hbar).gen, hcur.2 _ b hbar, h.gen]
  have hall : ∀ q, ∃ t, s.arrivals (s₀.rankBarGen r) q = some t ∧ t ≤ s.toRel r clock := by
    intro q
    have hq := List.all_eq_true.mp hmay q (List.mem_finRange q)
    split at hq
    next => cases hq
    next t ht => exact ⟨t, ht, of_decide_eq_true hq hfirst⟩
  have hsofar : (s₀.sofar (s₀.rankBarGen r) : WithTop Nat) ≤ (s.toRel r clock : Nat) := by
    refine WithTop.coe_le_coe.mpr (sofar_le hok fun q t hq => ?_)
    obtain ⟨t', ht', hle⟩ := hall q
    rw [h.arrivals _ _ _ hq] at ht'
    exact Option.some.inj ht' ▸ hle
  rcases hb.barrier r hwait with htop | hle
  · refine htop.trans (max_le hown₀ ?_)
    unfold barrierTop
    dsimp only
    split
    next => exact hsofar
    next hnot =>
      -- a rank that was missing has arrived since, at or over its bound
      obtain ⟨q, hq⟩ := List.exists_mem_of_ne_nil _ (not_or.mp hnot).2
      refine max_le hsofar ((late_le hq).trans ?_)
      obtain ⟨t, ht, hle⟩ := hall q
      have hlt : s₀.rankBarGen q < s₀.rankBarGen r := by
        have := (List.mem_filter.mp hq).2
        simpa using this
      rcases h.arrived _ _ _ ht with hold | hL
      · have := (hok.arrived (s₀.rankBarGen r) q).mp (by rw [hold]; rfl)
        omega
      · exact hL.trans (WithTop.coe_le_coe.mpr hle)
  · exact hle.trans hown₀

/-! ## The steps -/

theorem stepOf_clock {clock : Nat} (hc : s.cutAxisClock r ≤ clock) : StepOf s r (s.setClock r clock) where
  gen := rfl
  delta := rfl
  clock q := by
    by_cases hq : q = r
    · subst hq
      simpa [setClock] using hc
    · simp [setClock, hq]
  status q _ := rfl
  barGen q _ := rfl
  posted src q _ := ⟨[], by simp [setClock], fun e he => absurd he List.not_mem_nil⟩
  arrivals k q t h := h
  arrived k q t h := Or.inl h
  first k g h := h

/-- What only sets the status of the rank, and what the tables alone know. -/
theorem stepOf_status {w : Status N} (hclock : s'.cutAxisClock = s.cutAxisClock) (hdelta : s'.cutRelDelta = s.cutRelDelta)
    (hstatus : s'.status = update s.status r w) (hgen : s'.rankBarGen = s.rankBarGen)
    (hroi : s'.roiBaseGen = s.roiBaseGen) (hposted : s'.posted = s.posted) (harr : s'.arrivals = s.arrivals)
    (hfirst : s'.barFirstBaseGen = s.barFirstBaseGen) : StepOf s r s' where
  gen := hroi
  delta := hdelta
  clock q := by rw [hclock]
  status q hq := by rw [hstatus, update_of_ne hq]
  barGen q _ := by rw [hgen]
  posted src q _ := ⟨[], by rw [hposted, List.append_nil], fun e he => absurd he List.not_mem_nil⟩
  arrivals k q t h := by rw [harr]; exact h
  arrived k q t h := Or.inl (harr ▸ h)
  first k g h := by rw [hfirst]; exact h

theorem stepOf_post (r dst : Fin N) : StepOf s r (s.post r dst) := by
  obtain ⟨known, stale, floor, heq⟩ := post_eq s r dst
  rw [heq]
  refine ⟨rfl, rfl, fun q => le_refl _, fun q _ => rfl, fun q _ => rfl, ?_, fun k q t h => h,
    fun k q t h => Or.inl h, fun k g h => h⟩
  intro src q hq
  by_cases hsrc : src = r
  · subst hsrc
    by_cases hdst : q = dst
    · subst hdst
      refine ⟨[⟨s.relAxisClock src, s.roiBaseGen⟩], by simp, fun e he => ?_⟩
      obtain rfl := List.mem_singleton.mp he
      exact ⟨rfl, rfl, rfl⟩
    · exact ⟨[], by simp [hdst], fun e he => absurd he List.not_mem_nil⟩
  · exact ⟨[], by simp [hsrc], fun e he => absurd he List.not_mem_nil⟩

theorem stepOf_receive {src : Fin N} {e : Entry} {q : List Entry} (hq : s.cutWakeMsgs src r = e :: q) {clock : Nat}
    (hc : s.cutAxisClock r ≤ clock) : StepOf s r (s.receive r src q clock) := by
  obtain ⟨stale, floor, heq⟩ := receive_eq hq clock
  rw [heq]
  refine ⟨rfl, rfl, (stepOf_clock hc).clock, fun p hp => update_of_ne hp _ _, fun p _ => rfl, ?_,
    fun k q t h => h, fun k q t h => Or.inl h, fun k g h => h⟩
  intro from_ p hp
  refine ⟨[], ?_, fun e he => absurd he List.not_mem_nil⟩
  rw [List.append_nil]
  dsimp only
  by_cases hf : from_ = src
  · subst hf
    rw [update_self, update_of_ne hp]
  · rw [update_of_ne hf]

theorem stepOf_leave {clock : Nat} (hc : s.cutAxisClock r ≤ clock) : StepOf s r (s.leave r clock) := by
  obtain ⟨stale, floor, heq⟩ := leave_eq s r clock
  rw [heq]
  exact ⟨rfl, rfl, (stepOf_clock hc).clock, fun p hp => update_of_ne hp _ _, fun p _ => rfl,
    fun src q _ => ⟨[], by simp, fun e he => absurd he List.not_mem_nil⟩,
    fun k q t h => h, fun k q t h => Or.inl h, fun k g h => h⟩

theorem stepOf_arrive (hok : s.TablesOk) : StepOf s r (s.arrive r) := by
  have hnew : s.arrivals (s.rankBarGen r + 1) r = none := by
    have := (hok.arrived (s.rankBarGen r + 1) r).not.mpr (by omega)
    simpa using this
  obtain ⟨stale, floor, heq⟩ := arrive_eq s r
  rw [heq]
  refine ⟨rfl, rfl, fun q => le_refl _, fun q hq => update_of_ne hq _ _,
    fun q hq => update_of_ne hq _ _,
    fun src q _ => ⟨[], by simp, fun e he => absurd he List.not_mem_nil⟩, ?_, ?_, ?_⟩
  · intro k q t h
    dsimp only
    by_cases hk : k = s.rankBarGen r + 1
    · subst hk
      have hq : q ≠ r := by
        rintro rfl
        rw [hnew] at h
        cases h
      rw [update_self, update_of_ne hq, h]
    · rw [update_of_ne hk, h]
  · intro k q t h
    dsimp only at h
    by_cases hk : k = s.rankBarGen r + 1
    · subst hk
      rw [update_self] at h
      by_cases hq : q = r
      · subst hq
        rw [update_self] at h
        exact Or.inr ⟨rfl, (Option.some.inj h).symm⟩
      · rw [update_of_ne hq] at h
        exact Or.inl h
    · rw [update_of_ne hk] at h
      exact Or.inl h
  · intro k g h
    dsimp only
    by_cases hk : k = s.rankBarGen r + 1
    · subst hk
      rw [update_self, h]
      rfl
    · rw [update_of_ne hk, h]

theorem Ahead.act (h : Ahead s₀ L s) (hb : BoundsAt s₀ L) (hok₀ : s₀.TablesOk) (hcur : s₀.Current) (hok : s.TablesOk)
    {a : Act N} {es : List (Record N)} (hs : s.step a = some (s', es)) : Ahead s₀ L s' := by
  cases a with
  | run r cycles =>
    obtain ⟨hr, rfl, _⟩ := of_guard hs
    have hst : StepOf s r (s.setClock r (s.cutAxisClock r + cycles)) := stepOf_clock (Nat.le_add_right _ _)
    exact h.step hst ((h.of_active hr).trans (WithTop.coe_le_coe.mpr (relAxisClock_mono hst.delta (hst.clock r))))
  | record r =>
    obtain ⟨_, rfl, _⟩ := of_guard hs
    exact h
  | post r dst =>
    obtain ⟨hr, rfl, _⟩ := of_guard hs
    have hst := stepOf_post (s := s) r dst
    have hL := h.of_active (r := r) (by rw [hr]; rfl)
    exact h.step hst (hL.trans (WithTop.coe_le_coe.mpr (relAxisClock_mono hst.delta (hst.clock r))))
  | block r src =>
    obtain ⟨hr, rfl, _⟩ := of_guard hs
    exact h.step (stepOf_status rfl rfl rfl rfl rfl rfl rfl rfl) (h.of_active (by rw [hr]; rfl))
  | recv r src clock =>
    simp only [State.step] at hs
    split at hs
    next => cases hs
    next e q hq =>
      obtain ⟨⟨ht, hclock, he⟩, rfl, _⟩ := of_guard hs
      have hq' : s.cutWakeMsgs src r = e :: q := by rw [hok.msgs, hq]
      have hL := h.of_recv hb hok₀ hcur hq ht hclock he
      refine h.step (stepOf_receive hq' hclock) (hL.trans (WithTop.coe_le_coe.mpr ?_))
      obtain ⟨stale, floor, heq⟩ := receive_eq hq' clock
      rw [heq]
      simp [relAxisClock, toRel]
  | arrive r =>
    obtain ⟨hr, rfl, _⟩ := of_guard hs
    have hst := stepOf_arrive (r := r) hok
    have hL := h.of_active (r := r) (by rw [hr]; rfl)
    exact h.step hst (hL.trans (WithTop.coe_le_coe.mpr (relAxisClock_mono hst.delta (hst.clock r))))
  | park r =>
    obtain ⟨hr, rfl, _⟩ := of_guard hs
    exact h.step (stepOf_status rfl rfl rfl rfl rfl rfl rfl rfl) (h.of_active (by rw [hr]; rfl))
  | leave r clock =>
    obtain ⟨⟨hr, hclock, hmay⟩, rfl, _⟩ := of_guard hs
    have hL := h.of_leave hb hok₀ hcur hr hclock hmay
    refine h.step (stepOf_leave hclock) (hL.trans (WithTop.coe_le_coe.mpr ?_))
    obtain ⟨stale, floor, heq⟩ := leave_eq s r clock
    rw [heq]
    simp [relAxisClock, toRel]
  | exit r =>
    obtain ⟨hr, rfl, _⟩ := of_guard hs
    exact h.step (stepOf_status rfl rfl rfl rfl rfl rfl rfl rfl) (h.of_active (by rw [hr]; rfl))

theorem record_of_step {a : Act N} {es : List (Record N)} (hs : s.step a = some (s', es)) {x : Record N}
    (hx : x ∈ es) : (s.status x.1).isActive = true ∧ x.2 = s.cutAxisClock x.1 := by
  cases a with
  | record r =>
    obtain ⟨hr, _, rfl⟩ := of_guard hs
    obtain rfl := List.mem_singleton.mp hx
    exact ⟨hr, rfl⟩
  | recv r src clock =>
    simp only [State.step] at hs
    split at hs
    next => cases hs
    next =>
      obtain ⟨_, _, rfl⟩ := of_guard hs
      cases hx
  | run | post | block | arrive | park | leave | exit =>
    obtain ⟨_, _, rfl⟩ := of_guard hs
    cases hx

/-! ## The cut -/

theorem cutDram_le_of_active (h : (s.status r).isActive = true) (hpos : 0 < s.cutAxisClock r) :
    s.cutDram ≤ s.cutAxisClock r := by
  have hcut : least (fun c => (s.cutAxisClock c : WithTop Nat))
      ((List.finRange N).filter fun c => (s.status c).isActive && s.cutAxisClock c != 0) ⊤ ≤ s.cutAxisClock r := by
    refine least_le ?_ ⊤
    simp [h]
    omega
  unfold cutDram
  dsimp only
  split
  next => exact (min_le_left _ _).trans hcut
  next => exact hcut

theorem cutDram_le_of_waiting (h : (s.status r).isWaiting = true) (hpos : 0 < s.cutAxisClock r)
    (hrel : 0 < s.relAxisClock r) : s.cutDram ≤ s.cutWakeRebase.wakeRec r := by
  have hbound : s.cutWakeBound ≤ s.cutWakeRebase.wakeRec r := by
    obtain ⟨stale, floor, heq⟩ := cutWakeRebase_eq s
    unfold cutWakeBound
    dsimp only
    rw [heq]
    refine least_le (List.mem_filter.mpr ⟨mem_waitingCores.mpr h, ?_⟩) ⊤
    exact decide_eq_true (Nat.ne_of_gt hrel)
  unfold cutDram
  dsimp only
  rw [if_pos]
  · exact (min_le_right _ _).trans hbound
  · exact List.any_eq_true.mpr ⟨r, mem_waitingCores.mpr h, decide_eq_true (Nat.ne_of_gt hpos)⟩

/-- A rank that runs has its record clock at or over the cut. -/
theorem Ahead.cutDram_le (h : Ahead s₀.cutWakeRebase s₀.cutWakeRebase.bounds s) (hpos : s₀.Positive)
    (hr : (s.status r).isActive = true) : s₀.cutDram ≤ s.cutAxisClock r := by
  have hL := h.of_active hr
  have hc := h.clock r
  have hrel := relAxisClock_mono h.delta hc
  obtain ⟨stale, floor, heq⟩ := cutWakeRebase_eq s₀
  have hclock₀ : s₀.cutWakeRebase.cutAxisClock r = s₀.cutAxisClock r := by rw [heq]
  have hrel₀ : s₀.cutWakeRebase.relAxisClock r = s₀.relAxisClock r := by rw [heq]; rfl
  have hdelta₀ : s₀.cutWakeRebase.cutRelDelta = s₀.cutRelDelta := by rw [heq]
  have hstatus₀ : s₀.cutWakeRebase.status = s₀.status := by rw [heq]
  have hactive : (s₀.status r).isActive = true → s₀.cutDram ≤ s.cutAxisClock r := by
    intro hact
    have hp := (hpos r fun hex => by rw [hex] at hact; cases hact).1
    exact (cutDram_le_of_active hact hp).trans (WithTop.coe_le_coe.mpr (hclock₀ ▸ hc))
  cases hst : s₀.status r with
  | running => exact hactive (by rw [hst]; rfl)
  | arrived => exact hactive (by rw [hst]; rfl)
  | exited =>
    -- a rank that has exited never gets to its bound
    rw [bounds_of_exited (by rw [hstatus₀, hst]), top_le_iff] at hL
    cases hL
  | waiting w =>
    obtain ⟨hp, hp'⟩ := hpos r (by rw [hst]; exact nofun)
    refine (cutDram_le_of_waiting (by rw [hst]; rfl) hp hp').trans (WithTop.coe_le_coe.mpr ?_)
    unfold wakeRec
    have hdelta : s.cutRelDelta r = s₀.cutRelDelta r := by rw [h.delta, hdelta₀]
    have hdelta' : s₀.cutWakeRebase.cutRelDelta r = s₀.cutRelDelta r := by rw [hdelta₀]
    unfold relAxisClock toRel at hL hrel hp' hrel₀
    split
    next htop =>
      have htop' : s₀.cutWakeRebase.bounds r = ⊤ := htop
      rw [htop', top_le_iff] at hL
      cases hL
    next b hb =>
      rw [hb] at hL
      have hle : b ≤ (s.cutAxisClock r + s.cutRelDelta r : Int).toNat := WithTop.coe_le_coe.mp hL
      show ((b : Int) - s₀.cutWakeRebase.cutRelDelta r).toNat ≤ s.cutAxisClock r
      omega

theorem ahead_run (hok : s₀.TablesOk) (hcur : s₀.Current) {l : List (Record N)} (h : s₀.later.Run s l) :
    s.TablesOk ∧ Ahead s₀.cutWakeRebase s₀.cutWakeRebase.bounds s ∧
      (s₀.Positive → ∀ x ∈ l, s₀.cutDram ≤ x.2) := by
  have hb := boundsAt_bounds s₀.cutWakeRebase
  obtain ⟨stale, floor, heq⟩ := cutWakeRebase_eq s₀
  have hok₀ : s₀.cutWakeRebase.TablesOk := by
    rw [heq]
    exact hok.keep hok.msgs rfl (fun _ => rfl) rfl rfl rfl
  have hcur₀ : s₀.cutWakeRebase.Current := by
    rw [heq]
    exact hcur
  refine h.inv (I := fun s l => s.TablesOk ∧ Ahead s₀.cutWakeRebase s₀.cutWakeRebase.bounds s ∧
    (s₀.Positive → ∀ x ∈ l, s₀.cutDram ≤ x.2)) ⟨hok, ahead_start hb, fun _ x hx => absurd hx List.not_mem_nil⟩ ?_
  intro s l a s' es hI hs
  obtain ⟨hok, hah, hrec⟩ := hI
  refine ⟨hok.step hs, hah.act hb hok₀ hcur₀ hok hs, fun hpos x hx => ?_⟩
  rcases List.mem_append.mp hx with hx | hx
  · exact hrec hpos x hx
  · obtain ⟨hact, hclock⟩ := record_of_step hs hx
    rw [hclock]
    exact hah.cutDram_le hpos hact

/-- **No record falls behind the cut.** Wherever a run has got to, with the clocks'
origins moved on the way or not: if the clocks are positive there and no entry is of an
older origin, no record made later is stamped before the cut taken there. -/
theorem records_ahead {delta : Fin N → Int} {l₀ : List (Record N)} (hrun : (machine delta).Run s₀ l₀)
    (hpos : s₀.Positive) (hcur : s₀.Current) {l : List (Record N)} (hlater : s₀.later.Run s l) :
    ∀ x ∈ l, s₀.cutDram ≤ x.2 :=
  (ahead_run (tablesOk_run hrun) hcur hlater).2.2 hpos

/-- Three ranks: the first waits for the second, the second for the last, which runs. -/
def chain : List (Move 3) :=
  [.act (.run 0 3), .act (.run 1 4), .act (.run 2 10), .act (.post 2 0), .act (.block 0 (some 1)),
    .act (.block 1 (some 2))]

/-- The last rank goes on, and the waits are released one after the other. -/
def chainGoesOn : List (Act 3) :=
  [.run 2 5, .post 2 1, .recv 1 2 18, .record 1, .post 1 0, .recv 0 1 19, .record 0]

theorem records_ahead_chain :
    ∃ (s₀ s : State 3) (l : List (Record 3)),
      (machine fun r => (r : Int) - 1).exec (init fun r => (r : Int) - 1) chain = some (s₀, []) ∧
      s₀.later.exec s₀ chainGoesOn = some (s, l) ∧
      l = [(1, 18), (0, 19)] ∧ s₀.cutDram = (10 : Nat) ∧ ∀ x ∈ l, s₀.cutDram ≤ x.2 := by
  refine ⟨_, _, _, rfl, rfl, rfl, by decide +kernel, ?_⟩
  have hrun := Machine.Run.exec .start
    (show (machine fun r : Fin 3 => (r : Int) - 1).exec _ chain = some (_, _) from rfl)
  refine records_ahead hrun (by unfold Positive; decide +kernel) ⟨by decide +kernel, fun k b hb => ?_⟩
    (Machine.Run.exec .start (show (later _).exec _ chainGoesOn = some (_, _) from rfl))
  cases hb

end Pimid.Cut.State
