import Pimid.Garnet.Events
import Mathlib.Data.Fintype.Card

/-!
# No wakeup is lost

A pending tick of a consumer leaves its set in two ways only: the consumer is woken at
that tick, or its schedule is cleared. The clock does not pass a pending tick, and
processing an event always wakes the consumer of the earliest one.
-/

namespace Pimid.Garnet

open Function (update update_apply update_of_ne update_self)

namespace Kernel

/-! ## Following -/

section Following

variable {C : Type} {s s' : Kernel C}

/-- From `s` to `s'` the clock has not gone back, and no pending tick has gone without a wakeup or a clear. -/
structure Follows (s s' : Kernel C) : Prop where
  clock : s.curTick ≤ s'.curTick
  log : ∃ l, s'.log = s.log ++ l ∧ ∀ c, ∀ t ∈ s.wakeupTicks c,
    t ∈ s'.wakeupTicks c ∨ .woke c t ∈ l ∨ ∃ ticks, .cleared c ticks ∈ l ∧ t ∈ ticks

theorem Follows.refl (s : Kernel C) : Follows s s :=
  ⟨Nat.le_refl _, [], (List.append_nil _).symm, fun _ _ ht => .inl ht⟩

theorem Follows.trans {s₁ s₂ s₃ : Kernel C} (h₁ : Follows s₁ s₂) (h₂ : Follows s₂ s₃) : Follows s₁ s₃ := by
  obtain ⟨l₁, hlog₁, hkeep₁⟩ := h₁.log
  obtain ⟨l₂, hlog₂, hkeep₂⟩ := h₂.log
  refine ⟨Nat.le_trans h₁.clock h₂.clock, l₁ ++ l₂, by rw [hlog₂, hlog₁, List.append_assoc], ?_⟩
  intro c t ht
  rcases hkeep₁ c t ht with ht' | hw | ⟨ticks, hc, htt⟩
  · rcases hkeep₂ c t ht' with ht'' | hw | ⟨ticks, hc, htt⟩
    · exact .inl ht''
    · exact .inr (.inl (List.mem_append_right _ hw))
    · exact .inr (.inr ⟨ticks, List.mem_append_right _ hc, htt⟩)
  · exact .inr (.inl (List.mem_append_left _ hw))
  · exact .inr (.inr ⟨ticks, List.mem_append_left _ hc, htt⟩)

theorem follows_same (hticks : s'.wakeupTicks = s.wakeupTicks) (hcur : s'.curTick = s.curTick) (hlog : s'.log = s.log) :
    Follows s s' :=
  ⟨Nat.le_of_eq hcur.symm, [], by rw [hlog, List.append_nil], fun _ _ ht => .inl (hticks ▸ ht)⟩

end Following

/-! ## How far a tick is -/

section Remaining

variable {C : Type} [Fintype C]

/-- What is still to be done before tick `t`: a round of the consumers for every tick, and those due now. -/
def remaining (t : Nat) (s : Kernel C) : Nat :=
  (t - s.curTick) * Fintype.card C + (Finset.univ.filter fun c => s.curTick ∈ s.wakeupTicks c).card

theorem remaining_le (t : Nat) (s : Kernel C) : remaining t s ≤ (t - s.curTick + 1) * Fintype.card C := by
  rw [Nat.add_mul, Nat.one_mul]
  exact Nat.add_le_add_left (Finset.card_le_univ _) _

end Remaining

variable {C : Type} [DecidableEq C] {pri : C → Int} {s s' : Kernel C} {c : C} {t : Nat}

/-! ## Frames -/

theorem scheduleNextWakeup_rest (pri : C → Int) (s : Kernel C) (c : C) :
    (s.scheduleNextWakeup pri c).wakeupTicks = s.wakeupTicks ∧ (s.scheduleNextWakeup pri c).curTick = s.curTick ∧
      (s.scheduleNextWakeup pri c).log = s.log := by
  unfold scheduleNextWakeup
  split
  · exact ⟨rfl, rfl, rfl⟩
  · split
    · exact ⟨rfl, rfl, rfl⟩
    · split
      · exact ⟨rfl, rfl, rfl⟩
      · exact ⟨rfl, rfl, rfl⟩

/-- A request: the tick is pending already, or it becomes so. -/
theorem scheduleEventAbsolute_cases (pri : C → Int) (s : Kernel C) (c : C) (t : Nat) :
    (t ∈ s.wakeupTicks c ∧ s.scheduleEventAbsolute pri c t = s) ∨
      (t ∉ s.wakeupTicks c ∧
        (s.scheduleEventAbsolute pri c t).wakeupTicks = update s.wakeupTicks c (insert t (s.wakeupTicks c)) ∧
        (s.scheduleEventAbsolute pri c t).curTick = s.curTick ∧
        (s.scheduleEventAbsolute pri c t).log = s.log ++ [.armed c t]) := by
  unfold scheduleEventAbsolute
  split
  · next h => exact .inl ⟨h, rfl⟩
  · next h =>
    obtain ⟨h₁, h₂, h₃⟩ := scheduleNextWakeup_rest pri
      ({ s with
        wakeupTicks := update s.wakeupTicks c (insert t (s.wakeupTicks c))
        log := s.log ++ [KernelEvent.armed c t] } : Kernel C) c
    exact .inr ⟨h, h₁, h₂, h₃⟩

theorem call_curTick (pri : C → Int) (s : Kernel C) (k : Call C) : (s.call pri k).curTick = s.curTick := by
  cases k with
  | scheduleEventAbsolute c t =>
    rcases scheduleEventAbsolute_cases pri s c t with ⟨-, h⟩ | ⟨-, -, h, -⟩
    · exact congrArg curTick h
    · exact h
  | clearSchedule c => exact (clearSchedule_rest s c).2.2.2.1
  | clear => rfl

theorem calls_curTick (pri : C → Int) (ks : List (Call C)) (s : Kernel C) : (ks.foldl (call pri) s).curTick = s.curTick := by
  induction ks generalizing s with
  | nil => rfl
  | cons k ks ih => exact (ih _).trans (call_curTick pri s k)

/-! ## Every pending tick is accounted for -/

/-- The event clears tick `t` of consumer `c`. -/
def KernelEvent.Clears (c : C) (t : Nat) : KernelEvent C → Bool
  | .cleared c' ticks => c' = c ∧ t ∈ ticks
  | _ => false

/-- A tick that became pending led to one wakeup, was cleared, or still is pending. -/
def Accounted (s : Kernel C) : Prop :=
  ∀ c t, s.log.count (.armed c t) =
    s.log.count (.woke c t) + s.log.countP (KernelEvent.Clears c t) + if t ∈ s.wakeupTicks c then 1 else 0

theorem Accounted.same (h : Accounted s) (hticks : s'.wakeupTicks = s.wakeupTicks) (hlog : s'.log = s.log) : Accounted s' := by
  intro c t
  rw [hticks, hlog]
  exact h c t

theorem Accounted.call (h : Accounted s) (k : Call C) : Accounted (s.call pri k) := by
  cases k with
  | scheduleEventAbsolute c₀ t₀ =>
    rcases scheduleEventAbsolute_cases pri s c₀ t₀ with ⟨-, heq⟩ | ⟨hnot, hticks, -, hlog⟩
    · exact h.same (congrArg wakeupTicks heq) (congrArg Kernel.log heq)
    · intro c t
      show (s.scheduleEventAbsolute pri c₀ t₀).log.count _ = _ + _ + if t ∈ (s.scheduleEventAbsolute pri c₀ t₀).wakeupTicks c then 1 else 0
      have hct := h c t
      rw [show (s.call pri (.scheduleEventAbsolute c₀ t₀)).log = s.log ++ [.armed c₀ t₀] from hlog, hlog, hticks,
        List.count_append, List.count_append, List.countP_append, update_apply]
      by_cases hc : c = c₀
      · subst hc
        by_cases ht : t = t₀
        · subst ht
          simp [hnot, KernelEvent.Clears] at hct ⊢
          omega
        · have ht' : ¬t₀ = t := fun he => ht he.symm
          simp [ht, ht', KernelEvent.Clears] at hct ⊢
          omega
      · have hc' : ¬c₀ = c := fun he => hc he.symm
        simp [hc, hc', KernelEvent.Clears] at hct ⊢
        omega
  | clearSchedule c₀ =>
    obtain ⟨hticks, -, -, -, hlog⟩ := clearSchedule_rest s c₀
    intro c t
    have hct := h c t
    rw [show (s.call pri (.clearSchedule c₀)).log = s.log ++ [.cleared c₀ (s.wakeupTicks c₀)] from hlog,
      show (s.call pri (.clearSchedule c₀)).wakeupTicks = update s.wakeupTicks c₀ ∅ from hticks,
      List.count_append, List.count_append, List.countP_append, update_apply]
    by_cases hc : c = c₀
    · subst hc
      by_cases ht : t ∈ s.wakeupTicks c
      · simp [ht, KernelEvent.Clears] at hct ⊢
        omega
      · simp [ht, KernelEvent.Clears] at hct ⊢
        omega
    · have hc' : ¬c₀ = c := fun he => hc he.symm
      simp [hc, hc', KernelEvent.Clears] at hct ⊢
      omega
  | clear => exact h.same rfl rfl

theorem Accounted.fire (h : Accounted s) (hr : Ready none s) {top : QEntry C} {rest : List (QEntry C)}
    (hpop : s.popLive s.events = some (top, rest)) : Accounted (s.fire top rest) := by
  obtain ⟨hs, hw, hearliest⟩ := hr.earliest hpop
  have hmem : top.when ∈ s.wakeupTicks top.e := hw ▸ (hr.first top.e hs).1
  intro c t
  have hct := h c t
  show (s.log ++ [KernelEvent.woke top.e top.when]).count _ = (s.log ++ [KernelEvent.woke top.e top.when]).count _ +
    (s.log ++ [KernelEvent.woke top.e top.when]).countP _ +
    if t ∈ update s.wakeupTicks top.e ((s.wakeupTicks top.e).filter (top.when < ·)) c then 1 else 0
  rw [List.count_append, List.count_append, List.countP_append, update_apply]
  by_cases hc : c = top.e
  · subst hc
    by_cases ht : t = top.when
    · subst ht
      simp [hmem, KernelEvent.Clears] at hct ⊢
      omega
    · -- any other pending tick is later
      have ht' : ¬top.when = t := fun he => ht he.symm
      have hlater : t ∈ s.wakeupTicks top.e ∧ top.when < t ↔ t ∈ s.wakeupTicks top.e := by
        constructor
        · exact fun hx => hx.1
        · exact fun hx => ⟨hx, Nat.lt_of_le_of_ne (hearliest top.e t hx) ht'⟩
      simp [ht', hlater, KernelEvent.Clears] at hct ⊢
      omega
  · have hc' : ¬top.e = c := fun he => hc he.symm
    simp [hc, hc', KernelEvent.Clears] at hct ⊢
    omega

theorem Accounted.step (h : Accounted s) (hr : Ready none s) (a : KernelOp C) : Accounted (s.step pri a) := by
  cases a with
  | call k => exact h.call k
  | processOneEvent wakeup =>
    show Accounted (s.processOneEvent pri wakeup)
    unfold processOneEvent
    split
    · exact h.same rfl rfl
    · next top rest hpop =>
      have hbody : Accounted (wakeup.foldl (Kernel.call pri) (s.fire top rest)) :=
        (along_of_forall (fun _ _ => trivial) _ _ : Along (Kernel.call pri) (fun _ _ => True) _ wakeup).keeps
          (fun _ k hi _ => hi.call k) (h.fire hr hpop)
      obtain ⟨hticks, -, hlog⟩ := scheduleNextWakeup_rest pri (wakeup.foldl (Kernel.call pri) (s.fire top rest)) top.e
      exact hbody.same hticks hlog

/-! ## What comes after a state -/

theorem follows_call (pri : C → Int) (s : Kernel C) (k : Call C) : Follows s (s.call pri k) := by
  cases k with
  | scheduleEventAbsolute c₀ t₀ =>
    rcases scheduleEventAbsolute_cases pri s c₀ t₀ with ⟨-, heq⟩ | ⟨-, hticks, hcur, hlog⟩
    · rw [show s.call pri (.scheduleEventAbsolute c₀ t₀) = s from heq]
      exact Follows.refl s
    · refine ⟨Nat.le_of_eq hcur.symm, _, hlog, fun c t ht => .inl ?_⟩
      show t ∈ (s.scheduleEventAbsolute pri c₀ t₀).wakeupTicks c
      rw [hticks, update_apply]
      split
      · next hc => exact Finset.mem_insert_of_mem (hc ▸ ht)
      · exact ht
  | clearSchedule c₀ =>
    obtain ⟨hticks, -, -, hcur, hlog⟩ := clearSchedule_rest s c₀
    refine ⟨Nat.le_of_eq hcur.symm, _, hlog, fun c t ht => ?_⟩
    by_cases hc : c = c₀
    · subst hc
      exact .inr (.inr ⟨_, List.mem_singleton_self _, ht⟩)
    · left
      show t ∈ (s.clearSchedule c₀).wakeupTicks c
      rw [hticks, update_of_ne hc]
      exact ht
  | clear => exact follows_same rfl rfl rfl

theorem follows_calls (pri : C → Int) (ks : List (Call C)) (s : Kernel C) : Follows s (ks.foldl (call pri) s) := by
  induction ks generalizing s with
  | nil => exact Follows.refl s
  | cons k ks ih => exact (follows_call pri s k).trans (ih _)

theorem follows_fire (hr : Ready none s) {top : QEntry C} {rest : List (QEntry C)}
    (hpop : s.popLive s.events = some (top, rest)) : Follows s (s.fire top rest) := by
  obtain ⟨hs, hw, hearliest⟩ := hr.earliest hpop
  have hmem : top.when ∈ s.wakeupTicks top.e := hw ▸ (hr.first top.e hs).1
  refine ⟨hr.future top.e top.when hmem, _, rfl, fun c t ht => ?_⟩
  by_cases hc : c = top.e
  · subst hc
    rcases Nat.lt_or_eq_of_le (hearliest top.e t ht) with hlt | heq
    · left
      show t ∈ update s.wakeupTicks top.e _ top.e
      rw [update_self]
      exact Finset.mem_filter.mpr ⟨ht, hlt⟩
    · right
      left
      rw [heq]
      exact List.mem_singleton_self _
  · left
    show t ∈ update s.wakeupTicks top.e _ c
    rw [update_of_ne hc]
    exact ht

theorem follows_step (hr : Ready none s) (a : KernelOp C) : Follows s (s.step pri a) := by
  cases a with
  | call k => exact follows_call pri s k
  | processOneEvent wakeup =>
    show Follows s (s.processOneEvent pri wakeup)
    unfold processOneEvent
    split
    · exact follows_same rfl rfl rfl
    · next top rest hpop =>
      obtain ⟨hticks, hcur, hlog⟩ := scheduleNextWakeup_rest pri (wakeup.foldl (Kernel.call pri) (s.fire top rest)) top.e
      exact ((follows_fire hr hpop).trans (follows_calls pri wakeup _)).trans (follows_same hticks hcur hlog)

theorem follows_run {as : List (KernelOp C)} (hr : Ready none s) (h : Along (step pri) (Allowed pri) s as) :
    Follows s (as.foldl (step pri) s) := by
  induction as generalizing s with
  | nil => exact Follows.refl s
  | cons a as ih => exact (follows_step hr a).trans (ih (hr.step h.1) h.2)

/-! ## The wakeup comes -/

/-- An event is processed, and its wakeup only asks for later ticks. -/
def Calm (pri : C → Int) (s : Kernel C) : KernelOp C → Prop
  | .call _ => False
  | .processOneEvent wakeup => ∀ k ∈ wakeup, ∃ c t, k = .scheduleEventAbsolute c t ∧
      (s.processOneEvent pri wakeup).curTick < t

/-- Requests for later ticks add such ticks, and take none away. -/
theorem calm_calls {ks : List (Call C)} (h : ∀ k ∈ ks, ∃ c t, k = .scheduleEventAbsolute c t ∧ s.curTick < t) (c : C) (t : Nat) :
    (t ∈ s.wakeupTicks c → t ∈ (ks.foldl (call pri) s).wakeupTicks c) ∧
      (t ∈ (ks.foldl (call pri) s).wakeupTicks c → t ∈ s.wakeupTicks c ∨ s.curTick < t) := by
  induction ks generalizing s with
  | nil => exact ⟨id, .inl⟩
  | cons k ks ih =>
    obtain ⟨c₀, t₀, rfl, hlt⟩ := h k List.mem_cons_self
    have hcur := call_curTick pri s (.scheduleEventAbsolute c₀ t₀)
    obtain ⟨ih₁, ih₂⟩ := ih (s := s.call pri (.scheduleEventAbsolute c₀ t₀)) fun k hk => by
      rw [hcur]
      exact h k (List.mem_cons_of_mem _ hk)
    rw [hcur] at ih₂
    have hone : (t ∈ s.wakeupTicks c → t ∈ (s.call pri (.scheduleEventAbsolute c₀ t₀)).wakeupTicks c) ∧
        (t ∈ (s.call pri (.scheduleEventAbsolute c₀ t₀)).wakeupTicks c → t ∈ s.wakeupTicks c ∨ s.curTick < t) := by
      rcases scheduleEventAbsolute_cases pri s c₀ t₀ with ⟨-, heq⟩ | ⟨-, hticks, -, -⟩
      · rw [show s.call pri (.scheduleEventAbsolute c₀ t₀) = s from heq]
        exact ⟨id, .inl⟩
      · rw [show (s.call pri (.scheduleEventAbsolute c₀ t₀)).wakeupTicks = _ from hticks, update_apply]
        split
        · next hc =>
          subst hc
          refine ⟨Finset.mem_insert_of_mem, fun ht => ?_⟩
          rcases Finset.mem_insert.mp ht with rfl | ht
          · exact .inr hlt
          · exact .inl ht
        · exact ⟨id, .inl⟩
    refine ⟨fun ht => ih₁ (hone.1 ht), fun ht => ?_⟩
    rcases ih₂ ht with ht | ht
    · exact hone.2 ht
    · exact .inr ht

/-- Each event processed brings the wakeup of a pending tick nearer, or is it. -/
theorem calm_step [Fintype C] (hr : Ready none s) {a : KernelOp C} (ha : Calm pri s a) (ht : t ∈ s.wakeupTicks c) :
    .woke c t ∈ (s.step pri a).log ∨ (t ∈ (s.step pri a).wakeupTicks c ∧ remaining t (s.step pri a) < remaining t s) := by
  cases a with
  | call k => cases ha
  | processOneEvent wakeup =>
    have hcalls : ∀ k ∈ wakeup, ∃ c t, k = .scheduleEventAbsolute c t ∧ (s.processOneEvent pri wakeup).curTick < t := ha
    show .woke c t ∈ (s.processOneEvent pri wakeup).log ∨
      (t ∈ (s.processOneEvent pri wakeup).wakeupTicks c ∧ remaining t (s.processOneEvent pri wakeup) < remaining t s)
    unfold processOneEvent at hcalls ⊢
    split
    · next hnone =>
      -- a pending tick has a live entry
      have hs := hr.armed c nofun ⟨t, ht⟩
      obtain ⟨q, hq, hqe, hqw⟩ := hr.entry c hs
      have hnot := popLive_none hnone q hq
      rw [entryLive_iff.mpr ⟨hqe ▸ hs, hqe ▸ hqw.symm⟩] at hnot
      cases hnot
    · next top rest hpop =>
      simp only [hpop] at hcalls
      obtain ⟨hticks, hcur, hlog⟩ := scheduleNextWakeup_rest pri (wakeup.foldl (Kernel.call pri) (s.fire top rest)) top.e
      have hcur' := hcur.trans (calls_curTick pri wakeup (s.fire top rest))
      rw [hcur'] at hcalls
      have hkeep := @calm_calls C _ pri _ _ hcalls
      obtain ⟨hs, hw, hearliest⟩ := hr.earliest hpop
      have hmem : top.when ∈ s.wakeupTicks top.e := hw ▸ (hr.first top.e hs).1
      have hfire (c : C) : (s.fire top rest).wakeupTicks c =
          if c = top.e then (s.wakeupTicks top.e).filter (top.when < ·) else s.wakeupTicks c := update_apply ..
      by_cases hit : c = top.e ∧ t = top.when
      · left
        rw [hlog]
        obtain ⟨l, hl, -⟩ := (follows_calls pri wakeup (s.fire top rest)).log
        rw [hl]
        refine List.mem_append_left _ (List.mem_append_right _ ?_)
        rw [hit.1, hit.2]
        exact List.mem_singleton_self _
      · right
        rw [hticks]
        constructor
        · refine (hkeep c t).1 ?_
          rw [hfire]
          split
          · next hc =>
            refine Finset.mem_filter.mpr ⟨hc ▸ ht, Nat.lt_of_le_of_ne (hearliest c t ht) fun he => hit ⟨hc, he.symm⟩⟩
          · exact ht
        · -- no one is due at the new tick who was not before, and `top.e` no longer is
          have hsub : (Finset.univ.filter fun c => top.when ∈ (wakeup.foldl (Kernel.call pri) (s.fire top rest)).wakeupTicks c) ⊆
              (Finset.univ.filter fun c => top.when ∈ s.wakeupTicks c).erase top.e := by
            intro c' hc'
            have hc' := (Finset.mem_filter.mp hc').2
            rcases (hkeep c' top.when).2 hc' with hin | hlt
            · rw [hfire] at hin
              split at hin
              · exact absurd (Finset.mem_filter.mp hin).2 (Nat.lt_irrefl _)
              · next hne => exact Finset.mem_erase.mpr ⟨hne, Finset.mem_filter.mpr ⟨Finset.mem_univ _, hin⟩⟩
            · exact absurd hlt (Nat.lt_irrefl _)
          have hdue : top.e ∈ Finset.univ.filter fun c => top.when ∈ s.wakeupTicks c :=
            Finset.mem_filter.mpr ⟨Finset.mem_univ _, hmem⟩
          have hcard := (Finset.card_le_card hsub).trans_lt (Finset.card_erase_lt_of_mem hdue)
          have hle := hr.future top.e top.when hmem
          have htle := hearliest c t ht
          unfold remaining
          rw [hcur', hticks]
          show (t - top.when) * _ + _ < _
          rcases Nat.lt_or_eq_of_le hle with hlt | heq
          · have hall := hcard.trans_le (Finset.card_le_univ _)
            calc (t - top.when) * Fintype.card C + _ < (t - top.when) * Fintype.card C + Fintype.card C := Nat.add_lt_add_left hall _
              _ = (t - top.when + 1) * Fintype.card C := by rw [Nat.add_mul, Nat.one_mul]
              _ ≤ (t - s.curTick) * Fintype.card C := Nat.mul_le_mul_right _ (by omega)
              _ ≤ _ := Nat.le_add_right _ _
          · rw [heq]
            exact Nat.add_lt_add_left hcard _

theorem calm_run [Fintype C] {as : List (KernelOp C)} (hr : Ready none s) (hall : Along (step pri) (Allowed pri) s as)
    (hcalm : Along (step pri) (Calm pri) s as) (ht : t ∈ s.wakeupTicks c) (hlen : remaining t s ≤ as.length) :
    .woke c t ∈ (as.foldl (step pri) s).log := by
  induction as generalizing s with
  | nil =>
    -- a tick that is due now counts as remaining
    have hzero : remaining t s = 0 := Nat.le_zero.mp hlen
    unfold remaining at hzero
    have hcardC : 0 < Fintype.card C := Fintype.card_pos_iff.mpr ⟨c⟩
    have hcard : (Finset.univ.filter fun c => s.curTick ∈ s.wakeupTicks c).card = 0 := by omega
    have hmul : (t - s.curTick) * Fintype.card C = 0 := by omega
    have hle := hr.future c t ht
    rcases Nat.mul_eq_zero.mp hmul with h | h
    · have heq : s.curTick = t := by omega
      have hin : c ∈ Finset.univ.filter fun c => s.curTick ∈ s.wakeupTicks c :=
        Finset.mem_filter.mpr ⟨Finset.mem_univ _, heq ▸ ht⟩
      rw [Finset.card_eq_zero.mp hcard] at hin
      cases hin
    · omega
  | cons a as ih =>
    have hr' := hr.step hall.1
    rcases calm_step hr hcalm.1 ht with hw | ⟨ht', hlt⟩
    · obtain ⟨l, hl, -⟩ := (follows_run hr' hall.2).log
      rw [List.foldl_cons, hl]
      exact List.mem_append_left _ hw
    · refine ih hr' hall.2 hcalm.2 ht' ?_
      rw [List.length_cons] at hlen
      omega

/-! ## Runs -/

/-- What `processOneEvent` does in `s`: it wakes a consumer whose event is scheduled for that tick, the earliest pending
one; or nothing is pending. -/
def WakesEarliest (s s' : Kernel C) : Prop :=
  (∃ c l, s.isScheduled c = true ∧ s'.curTick = s.when c ∧ s.when c ∈ s.wakeupTicks c ∧
    (∀ c', ∀ t ∈ s.wakeupTicks c', s.when c ≤ t) ∧ s'.log = s.log ++ .woke c (s.when c) :: l) ∨
  ((∀ c, s.wakeupTicks c = ∅) ∧ s'.log = s.log ∧ s'.curTick = s.curTick)

theorem wakesEarliest (hr : Ready none s) (wakeup : List (Call C)) : WakesEarliest s (s.processOneEvent pri wakeup) := by
  unfold processOneEvent
  split
  · next hnone =>
    refine .inr ⟨fun c => ?_, rfl, rfl⟩
    by_contra hne
    have hs := hr.armed c nofun (Finset.nonempty_iff_ne_empty.mpr hne)
    obtain ⟨q, hq, hqe, hqw⟩ := hr.entry c hs
    have hnot := popLive_none hnone q hq
    rw [entryLive_iff.mpr ⟨hqe ▸ hs, hqe ▸ hqw.symm⟩] at hnot
    cases hnot
  · next top rest hpop =>
    obtain ⟨hs, hw, hearliest⟩ := hr.earliest hpop
    obtain ⟨-, hcur, hlog⟩ := scheduleNextWakeup_rest pri (wakeup.foldl (Kernel.call pri) (s.fire top rest)) top.e
    obtain ⟨l, hl, -⟩ := (follows_calls pri wakeup (s.fire top rest)).log
    refine .inl ⟨top.e, l, hs, ?_, (hr.first top.e hs).1, hw ▸ hearliest, ?_⟩
    · rw [hcur, calls_curTick, hw]
      rfl
    · rw [hlog, hl, hw]
      show s.log ++ [KernelEvent.woke top.e top.when] ++ l = _
      rw [List.append_assoc]
      rfl

theorem ready_run {as : List (KernelOp C)} (h : Along (step pri) (Allowed pri) init as) :
    Ready none (as.foldl (step pri) init) ∧ Accounted (as.foldl (step pri) init) := by
  refine h.keeps (I := fun s => Ready none s ∧ Accounted s) (fun s a hi ha => ⟨hi.1.step ha, hi.2.step hi.1 a⟩) ⟨ready_init, ?_⟩
  intro c t
  rfl

/-- **No wakeup is lost.** In every state between wakeups a consumer with pending ticks has its event scheduled, with a
live entry, for the first of them. Every tick that became pending led to exactly one wakeup, was cleared, or is still
pending; the clock never goes back and does not pass a pending tick; and processing events, each of whose wakeups asks
for later ticks only, comes to every one of them. -/
theorem no_lost_wakeup [Fintype C] (pri : C → Int) (as bs : List (KernelOp C))
    (h : Along (step pri) (Allowed pri) init (as ++ bs)) :
    (∀ c, ((as.foldl (step pri) init).wakeupTicks c).Nonempty →
      (as.foldl (step pri) init).isScheduled c = true ∧
      IsLeast ((as.foldl (step pri) init).wakeupTicks c : Set Nat) ((as.foldl (step pri) init).when c) ∧
      ∃ q ∈ (as.foldl (step pri) init).events, q.e = c ∧ q.when = (as.foldl (step pri) init).when c ∧
        (as.foldl (step pri) init).entryLive q = true) ∧
    Accounted (as.foldl (step pri) init) ∧
    (∀ wakeup, WakesEarliest (as.foldl (step pri) init) ((as.foldl (step pri) init).processOneEvent pri wakeup)) ∧
    Follows (as.foldl (step pri) init) (bs.foldl (step pri) (as.foldl (step pri) init)) ∧
    (∀ c, ∀ t ∈ (as.foldl (step pri) init).wakeupTicks c, (as.foldl (step pri) init).curTick ≤ t) ∧
    ∀ c, ∀ t ∈ (as.foldl (step pri) init).wakeupTicks c, Along (step pri) (Calm pri) (as.foldl (step pri) init) bs →
      (t - (as.foldl (step pri) init).curTick + 1) * Fintype.card C ≤ bs.length →
      .woke c t ∈ (bs.foldl (step pri) (as.foldl (step pri) init)).log := by
  obtain ⟨h₁, h₂⟩ := along_append.mp h
  obtain ⟨hr, hacc⟩ := ready_run h₁
  refine ⟨fun c hne => ?_, hacc, wakesEarliest hr, follows_run hr h₂, hr.future, fun c t ht hcalm hlen => ?_⟩
  · have hs := hr.armed c nofun hne
    obtain ⟨q, hq, hqe, hqw⟩ := hr.entry c hs
    exact ⟨hs, hr.first c hs, q, hq, hqe, hqw, entryLive_iff.mpr ⟨hqe ▸ hs, hqe ▸ hqw.symm⟩⟩
  · exact calm_run hr h₂ hcalm ht ((remaining_le t _).trans hlen)

/-- A request for tick 0 supersedes the one for tick 1; both wakeups come. -/
theorem no_lost_wakeup_superseded :
    .woke 0 1 ∈ (([.processOneEvent [], .processOneEvent []] : List (KernelOp (Fin 1))).foldl (step fun _ => 0)
      ([.call (.scheduleEventAbsolute 0 1), .call (.scheduleEventAbsolute 0 0)].foldl (step fun _ => 0) init)).log :=
  (no_lost_wakeup (fun _ : Fin 1 => 0) [.call (.scheduleEventAbsolute 0 1), .call (.scheduleEventAbsolute 0 0)]
    [.processOneEvent [], .processOneEvent []]
    ⟨Nat.zero_le 1, by show (0 : Nat) ≤ 0; decide, fun _ _ _ => trivial, fun _ _ _ => trivial, trivial⟩).2.2.2.2.2 0 1 (by decide)
    ⟨nofun, nofun, trivial⟩ (by decide)

end Kernel

end Pimid.Garnet
