import Pimid.Cut.Wake
import Mathlib.Data.Fintype.Card

/-!
# The tables hold what is posted

The message table is the transport's own queues, and a barrier is in its table from
its first arrival until its last rank has left it, with the origin of that first
arrival. Moving the origins keeps this.
-/

namespace Pimid.Cut.State

open Function (update update_of_ne update_self)

variable {N : Nat} {s s' : State N} {r : Fin N}

/-! ## What the operations change -/

theorem cutWakeRebase_eq (s : State N) :
    ∃ stale floor, s.cutWakeRebase =
      { s with cutWakeStale := stale, cutWakeFloor := floor, cutWakeGen := s.roiBaseGen } := by
  unfold cutWakeRebase
  split
  next h =>
    refine ⟨s.cutWakeStale, s.cutWakeFloor, ?_⟩
    cases s
    simp_all
  next => exact ⟨_, _, rfl⟩

theorem cutWakeDrop_eq (s : State N) (e : Entry) :
    ∃ stale floor, s.cutWakeDrop e = { s with cutWakeStale := stale, cutWakeFloor := floor } := by
  unfold cutWakeDrop
  split
  next => exact ⟨_, _, rfl⟩
  next => exact ⟨_, _, rfl⟩

theorem post_eq (s : State N) (r dst : Fin N) :
    ∃ known stale floor, s.post r dst =
      { s with
        rankKnown := known
        cutWakeStale := stale
        cutWakeFloor := floor
        cutWakeGen := s.roiBaseGen
        cutWakeMsgs := update s.cutWakeMsgs r
          (update (s.cutWakeMsgs r) dst (s.cutWakeMsgs r dst ++ [⟨s.relAxisClock r, s.roiBaseGen⟩]))
        posted := update s.posted r
          (update (s.posted r) dst (s.posted r dst ++ [⟨s.relAxisClock r, s.roiBaseGen⟩])) } := by
  obtain ⟨stale, floor, h⟩ := cutWakeRebase_eq s
  unfold post cutWakeSend
  rw [h]
  exact ⟨_, _, _, rfl⟩

theorem receive_eq {src : Fin N} {e : Entry} {q : List Entry} (hq : s.cutWakeMsgs src r = e :: q) (clock : Nat) :
    ∃ stale floor, s.receive r src q clock =
      { s with
        cutWakeStale := stale
        cutWakeFloor := floor
        cutWakeGen := s.roiBaseGen
        cutWakeMsgs := update s.cutWakeMsgs src (update (s.cutWakeMsgs src) r q)
        posted := update s.posted src (update (s.posted src) r q)
        cutAxisClock := update s.cutAxisClock r clock
        status := update s.status r .running } := by
  obtain ⟨stale, floor, h⟩ := cutWakeRebase_eq s
  unfold receive cutWakeRecv
  rw [h]
  dsimp only
  rw [hq]
  dsimp only
  obtain ⟨stale', floor', hdrop⟩ := cutWakeDrop_eq
    { s with cutWakeStale := stale, cutWakeFloor := floor, cutWakeGen := s.roiBaseGen } e
  rw [hdrop]
  exact ⟨_, _, rfl⟩

theorem cutWakeArrive_eq (s : State N) (r : Fin N) (k : Nat) :
    ∃ stale floor, s.cutWakeArrive r k =
      { s with
        cutWakeStale := stale
        cutWakeFloor := floor
        cutWakeGen := s.roiBaseGen
        cutWakeBars := update s.cutWakeBars k
          (some (((s.cutWakeBars k).getD {}).arrival s.roiBaseGen (s.relAxisClock r))) } := by
  obtain ⟨stale, floor, h⟩ := cutWakeRebase_eq s
  unfold cutWakeArrive
  rw [h]
  dsimp only
  split
  next =>
    split
    next => exact ⟨_, _, rfl⟩
    next => exact ⟨_, _, rfl⟩
  next => exact ⟨_, _, rfl⟩

/-- The entry of a barrier after an advance. -/
def Advanced (N : Nat) (b : Option Bar) : Option Bar :=
  let b := b.getD {}
  if N ≤ b.adv + 1 then none else some { b with adv := b.adv + 1 }

theorem cutWakeAdvance_eq (s : State N) (k : Nat) :
    ∃ stale floor, s.cutWakeAdvance k =
      { s with
        cutWakeStale := stale
        cutWakeFloor := floor
        cutWakeGen := s.roiBaseGen
        cutWakeBars := update s.cutWakeBars k (Advanced N (s.cutWakeBars k)) } := by
  obtain ⟨stale, floor, h⟩ := cutWakeRebase_eq s
  unfold cutWakeAdvance Advanced
  rw [h]
  dsimp only
  split
  next =>
    split
    next =>
      obtain ⟨stale', floor', hdrop⟩ := cutWakeDrop_eq
        { s with cutWakeStale := stale, cutWakeFloor := floor, cutWakeGen := s.roiBaseGen }
        ⟨((s.cutWakeBars k).getD {}).maxArr, ((s.cutWakeBars k).getD {}).gen⟩
      rw [hdrop]
      exact ⟨_, _, rfl⟩
    next => exact ⟨_, _, rfl⟩
  next => exact ⟨_, _, rfl⟩

theorem arrive_eq (s : State N) (r : Fin N) :
    ∃ stale floor, s.arrive r =
      { s with
        cutWakeStale := stale
        cutWakeFloor := floor
        cutWakeGen := s.roiBaseGen
        cutWakeBars := update s.cutWakeBars (s.rankBarGen r + 1)
          (some (((s.cutWakeBars (s.rankBarGen r + 1)).getD {}).arrival s.roiBaseGen (s.relAxisClock r)))
        status := update s.status r .arrived
        rankBarGen := update s.rankBarGen r (s.rankBarGen r + 1)
        arrivals := update s.arrivals (s.rankBarGen r + 1)
          (update (s.arrivals (s.rankBarGen r + 1)) r (some (s.relAxisClock r)))
        barFirstBaseGen := update s.barFirstBaseGen (s.rankBarGen r + 1)
          (some ((s.barFirstBaseGen (s.rankBarGen r + 1)).getD s.roiBaseGen)) } := by
  obtain ⟨stale, floor, h⟩ := cutWakeArrive_eq s r (s.rankBarGen r + 1)
  unfold arrive
  dsimp only
  rw [h]
  exact ⟨_, _, rfl⟩

theorem leave_eq (s : State N) (r : Fin N) (clock : Nat) :
    ∃ stale floor, s.leave r clock =
      { s with
        cutWakeStale := stale
        cutWakeFloor := floor
        cutWakeGen := s.roiBaseGen
        cutWakeBars := update s.cutWakeBars (s.rankBarGen r)
          (Advanced N (s.cutWakeBars (s.rankBarGen r)))
        cutAxisClock := update s.cutAxisClock r clock
        status := update s.status r .running } := by
  obtain ⟨stale, floor, h⟩ := cutWakeAdvance_eq s (s.rankBarGen r)
  unfold leave
  rw [h]
  exact ⟨_, _, rfl⟩

/-! ## The invariant -/

/-- The rank has left barrier `k`. -/
def hasLeft (s : State N) (k : Nat) (r : Fin N) : Bool :=
  k < s.rankBarGen r || (k == s.rankBarGen r && !(s.status r).inBarrier)

/-- How many ranks have left barrier `k`. -/
def leftN (s : State N) (k : Nat) : Nat := (Finset.univ.filter fun r => s.hasLeft k r = true).card

/-- Entry `b` of barrier `k`: the origin of its first arrival, how many have left, and
no more than an arrival there was. -/
structure BarOk (s : State N) (k : Nat) (b : Bar) : Prop where
  arr : 0 < b.arr
  gen : s.barFirstBaseGen k = some b.gen
  adv : b.adv = s.leftN k
  maxArr : ∃ r t, s.arrivals k r = some t ∧ b.maxArr ≤ t

structure TablesOk (s : State N) : Prop where
  msgs : s.cutWakeMsgs = s.posted
  arrived : ∀ k r, (s.arrivals k r).isSome = true ↔ 1 ≤ k ∧ k ≤ s.rankBarGen r
  inside : ∀ r, (s.status r).inBarrier = true → 1 ≤ s.rankBarGen r
  bars : ∀ k b, s.cutWakeBars k = some b → s.BarOk k b
  gone : ∀ k, s.cutWakeBars k = none →
    (s.barFirstBaseGen k = none ∧ ∀ r, s.arrivals k r = none) ∨ ∀ r, s.hasLeft k r = true

theorem leftN_congr {k : Nat} (h : ∀ r, s'.hasLeft k r = s.hasLeft k r) : s'.leftN k = s.leftN k := by
  unfold leftN
  simp only [h]

theorem leftN_eq_zero {k : Nat} (h : ∀ r, s.hasLeft k r = false) : s.leftN k = 0 := by
  unfold leftN
  simp [h]

theorem hasLeft_of_leftN {k : Nat} (h : N ≤ s.leftN k) (r : Fin N) : s.hasLeft k r = true := by
  have hcard : (Finset.univ.filter fun r => s.hasLeft k r = true).card = (Finset.univ : Finset (Fin N)).card := by
    refine le_antisymm (Finset.card_filter_le _ _) ?_
    rw [Finset.card_univ, Fintype.card_fin]
    exact h
  exact Finset.filter_card_eq hcard r (Finset.mem_univ r)

theorem tablesOk_init (delta : Fin N → Int) : (State.init delta).TablesOk where
  msgs := rfl
  arrived k r := by
    simp only [init, Option.isSome_none, Bool.false_eq_true, false_iff]
    omega
  inside r h := by simp [init, Status.inBarrier] at h
  bars k b h := by cases h
  gone k _ := Or.inl ⟨rfl, fun _ => rfl⟩

theorem TablesOk.keep (h : s.TablesOk) (hmsgs : s'.cutWakeMsgs = s'.posted) (hgen : s'.rankBarGen = s.rankBarGen)
    (hin : ∀ r, (s'.status r).inBarrier = (s.status r).inBarrier) (harr : s'.arrivals = s.arrivals)
    (hfirst : s'.barFirstBaseGen = s.barFirstBaseGen) (hbars : s'.cutWakeBars = s.cutWakeBars) : s'.TablesOk := by
  have hleft : ∀ k r, s'.hasLeft k r = s.hasLeft k r := by
    intro k r
    rw [hasLeft, hasLeft, hgen, hin]
  refine ⟨hmsgs, ?_, ?_, ?_, ?_⟩
  · rw [harr, hgen]
    exact h.arrived
  · intro r hr
    rw [hgen]
    exact h.inside r (hin r ▸ hr)
  · intro k b hb
    rw [hbars] at hb
    obtain ⟨h₁, h₂, h₃, h₄⟩ := h.bars k b hb
    exact ⟨h₁, by rw [hfirst]; exact h₂, by rw [h₃, leftN_congr (hleft k)], by rw [harr]; exact h₄⟩
  · intro k hk
    rw [hbars] at hk
    rcases h.gone k hk with ⟨h₁, h₂⟩ | hall
    · exact Or.inl ⟨by rw [hfirst]; exact h₁, by rw [harr]; exact h₂⟩
    · exact Or.inr fun r => by rw [hleft]; exact hall r

theorem TablesOk.entry (h : s.TablesOk) (hr : (s.status r).inBarrier = true) :
    ∃ b, s.cutWakeBars (s.rankBarGen r) = some b := by
  rcases hb : s.cutWakeBars (s.rankBarGen r) with _ | b
  · exfalso
    have hsome := (h.arrived (s.rankBarGen r) r).mpr ⟨h.inside r hr, le_refl _⟩
    rcases h.gone _ hb with ⟨_, hnone⟩ | hall
    · rw [hnone r] at hsome
      cases hsome
    · have := hall r
      simp [hasLeft, hr] at this
  · exact ⟨b, rfl⟩

theorem TablesOk.arrive (h : s.TablesOk) (hr : s.status r = .running) : (s.arrive r).TablesOk := by
  obtain ⟨stale, floor, heq⟩ := arrive_eq s r
  generalize s.arrive r = s' at heq ⊢
  have hstatus : s'.status = update s.status r .arrived := by rw [heq]
  have hgen : s'.rankBarGen = update s.rankBarGen r (s.rankBarGen r + 1) := by rw [heq]
  have harrs : s'.arrivals = update s.arrivals (s.rankBarGen r + 1)
      (update (s.arrivals (s.rankBarGen r + 1)) r (some (s.relAxisClock r))) := by rw [heq]
  have hfirst : s'.barFirstBaseGen = update s.barFirstBaseGen (s.rankBarGen r + 1)
      (some ((s.barFirstBaseGen (s.rankBarGen r + 1)).getD s.roiBaseGen)) := by rw [heq]
  have hbars : s'.cutWakeBars = update s.cutWakeBars (s.rankBarGen r + 1)
      (some (((s.cutWakeBars (s.rankBarGen r + 1)).getD {}).arrival s.roiBaseGen (s.relAxisClock r))) := by rw [heq]
  have hmsgs : s'.cutWakeMsgs = s'.posted := by
    rw [heq]
    exact h.msgs
  clear heq
  have hin : (s.status r).inBarrier = false := by rw [hr]; rfl
  -- the rank has left every barrier it was at, and has not left this one
  have hleft : ∀ k q, s'.hasLeft k q = s.hasLeft k q := by
    intro k q
    rw [hasLeft, hasLeft, hgen, hstatus]
    by_cases hq : q = r
    · subst hq
      rw [update_self, update_self, hin, Bool.eq_iff_iff]
      simp [Status.inBarrier]
      omega
    · rw [update_of_ne hq, update_of_ne hq]
  have hnew : s.arrivals (s.rankBarGen r + 1) r = none := by
    have := (h.arrived (s.rankBarGen r + 1) r).not.mpr (by omega)
    simpa using this
  have hnot : s.hasLeft (s.rankBarGen r + 1) r = false := by simp [hasLeft]
  refine ⟨hmsgs, ?_, ?_, ?_, ?_⟩
  · intro k q
    rw [harrs, hgen]
    by_cases hk : k = s.rankBarGen r + 1
    · subst hk
      by_cases hq : q = r
      · subst hq
        simp
      · simp only [update_self, update_of_ne hq]
        exact h.arrived _ q
    · rw [update_of_ne hk]
      by_cases hq : q = r
      · subst hq
        rw [update_self, h.arrived]
        omega
      · rw [update_of_ne hq]
        exact h.arrived k q
  · intro q hq
    rw [hstatus] at hq
    rw [hgen]
    by_cases hqr : q = r
    · subst hqr
      simp
    · rw [update_of_ne hqr] at hq ⊢
      exact h.inside q hq
  · intro k b hb
    rw [hbars] at hb
    by_cases hk : k = s.rankBarGen r + 1
    · subst hk
      rw [update_self] at hb
      obtain rfl := Option.some.inj hb
      rcases hold : s.cutWakeBars (s.rankBarGen r + 1) with _ | b
      · -- the first arrival
        rcases h.gone _ hold with ⟨hf, hnone⟩ | hall
        · refine ⟨by simp [Bar.arrival], ?_, ?_, r, s.relAxisClock r, ?_, by simp [Bar.arrival]⟩
          · rw [hfirst, update_self, hf]
            rfl
          · rw [leftN_congr (hleft _), leftN_eq_zero]
            · rfl
            · intro q
              have := (h.arrived (s.rankBarGen r + 1) q).not.mp (by rw [hnone q]; simp)
              simp [hasLeft]
              omega
          · rw [harrs, update_self, update_self]
        · rw [hall r] at hnot
          cases hnot
      · obtain ⟨harr, hg, hadv, q, t, hq, hle⟩ := h.bars _ b hold
        refine ⟨by simp [Bar.arrival], ?_, ?_, ?_⟩
        · rw [hfirst, update_self, hg]
          simp [Bar.arrival, Nat.ne_of_gt harr]
        · rw [leftN_congr (hleft _)]
          exact hadv
        · have hqr : q ≠ r := by
            rintro rfl
            rw [hnew] at hq
            cases hq
          rw [harrs, update_self]
          dsimp only [Option.getD_some, Bar.arrival]
          rcases le_total b.maxArr (s.relAxisClock r) with hmax | hmax
          · exact ⟨r, s.relAxisClock r, by rw [update_self], max_le hmax (le_refl _)⟩
          · exact ⟨q, t, by rw [update_of_ne hqr, hq], max_le hle (hmax.trans hle)⟩
    · rw [update_of_ne hk] at hb
      obtain ⟨harr, hg, hadv, hmax⟩ := h.bars k b hb
      refine ⟨harr, ?_, ?_, ?_⟩
      · rw [hfirst, update_of_ne hk, hg]
      · rw [leftN_congr (hleft k), hadv]
      · rw [harrs, update_of_ne hk]
        exact hmax
  · intro k hk
    rw [hbars] at hk
    have hne : k ≠ s.rankBarGen r + 1 := by
      rintro rfl
      rw [update_self] at hk
      cases hk
    rw [update_of_ne hne] at hk
    rw [hfirst, harrs, update_of_ne hne, update_of_ne hne]
    rcases h.gone k hk with hnone | hall
    · exact Or.inl hnone
    · exact Or.inr fun q => by rw [hleft]; exact hall q

theorem TablesOk.leave (h : s.TablesOk) (hr : (s.status r).inBarrier = true) (clock : Nat) :
    (s.leave r clock).TablesOk := by
  obtain ⟨b, hb⟩ := h.entry hr
  obtain ⟨harr, hg, hadv, hmax⟩ := h.bars _ b hb
  obtain ⟨stale, floor, heq⟩ := leave_eq s r clock
  generalize s.leave r clock = s' at heq ⊢
  have hstatus : s'.status = update s.status r .running := by rw [heq]
  have hgen : s'.rankBarGen = s.rankBarGen := by rw [heq]
  have harrs : s'.arrivals = s.arrivals := by rw [heq]
  have hfirst : s'.barFirstBaseGen = s.barFirstBaseGen := by rw [heq]
  have hbars : s'.cutWakeBars = update s.cutWakeBars (s.rankBarGen r) (Advanced N (some b)) := by
    rw [heq, hb]
  have hmsgs : s'.cutWakeMsgs = s'.posted := by
    rw [heq]
    exact h.msgs
  clear heq
  have hself : s'.hasLeft (s.rankBarGen r) r = true := by
    simp [hasLeft, hstatus, hgen, Status.inBarrier]
  have hother : ∀ k q, ¬(k = s.rankBarGen r ∧ q = r) → s'.hasLeft k q = s.hasLeft k q := by
    intro k q hne
    rw [hasLeft, hasLeft, hgen, hstatus]
    by_cases hq : q = r
    · subst hq
      have hk : k ≠ s.rankBarGen q := fun hk => hne ⟨hk, rfl⟩
      rw [beq_false_of_ne hk, Bool.false_and, Bool.false_and]
    · rw [update_of_ne hq]
  have hnot : s.hasLeft (s.rankBarGen r) r = false := by simp [hasLeft, hr]
  -- one more rank has left this barrier
  have hcount : s'.leftN (s.rankBarGen r) = b.adv + 1 := by
    rw [hadv]
    unfold leftN
    rw [← Finset.card_insert_of_notMem (a := r) (by simp [hnot])]
    congr 1
    ext q
    simp only [Finset.mem_filter, Finset.mem_univ, true_and, Finset.mem_insert]
    by_cases hq : q = r
    · subst hq
      simp [hself]
    · rw [hother _ q (fun h => hq h.2)]
      simp [hq]
  refine ⟨hmsgs, by rw [harrs, hgen]; exact h.arrived, ?_, ?_, ?_⟩
  · intro q hq
    rw [hstatus] at hq
    rw [hgen]
    by_cases hqr : q = r
    · subst hqr
      exact h.inside q hr
    · rw [update_of_ne hqr] at hq
      exact h.inside q hq
  · intro k b' hb'
    rw [hbars] at hb'
    by_cases hk : k = s.rankBarGen r
    · subst hk
      rw [update_self] at hb'
      simp only [Advanced, Option.getD_some] at hb'
      split at hb'
      next => cases hb'
      next =>
        obtain rfl := Option.some.inj hb'
        exact ⟨harr, by rw [hfirst]; exact hg, hcount.symm, by rw [harrs]; exact hmax⟩
    · rw [update_of_ne hk] at hb'
      obtain ⟨h₁, h₂, h₃, h₄⟩ := h.bars k b' hb'
      refine ⟨h₁, by rw [hfirst]; exact h₂, ?_, by rw [harrs]; exact h₄⟩
      rw [leftN_congr fun q => hother k q fun h => hk h.1]
      exact h₃
  · intro k hk
    rw [hbars] at hk
    by_cases hkr : k = s.rankBarGen r
    · subst hkr
      rw [update_self] at hk
      simp only [Advanced, Option.getD_some] at hk
      split at hk
      next hN => exact Or.inr (hasLeft_of_leftN (hcount ▸ hN))
      next => cases hk
    · rw [update_of_ne hkr] at hk
      rw [hfirst, harrs]
      rcases h.gone k hk with hnone | hall
      · exact Or.inl hnone
      · exact Or.inr fun q => by rw [hother k q fun h => hkr h.1]; exact hall q

theorem inBarrier_update {w : Status N} (hw : w.inBarrier = (s.status r).inBarrier) (q : Fin N) :
    (update s.status r w q).inBarrier = (s.status q).inBarrier := by
  by_cases hq : q = r
  · subst hq
    rw [update_self, hw]
  · rw [update_of_ne hq]

theorem TablesOk.post (h : s.TablesOk) (r dst : Fin N) : (s.post r dst).TablesOk := by
  obtain ⟨known, stale, floor, heq⟩ := post_eq s r dst
  rw [heq]
  refine h.keep ?_ rfl (fun _ => rfl) rfl rfl rfl
  dsimp only
  rw [h.msgs]

theorem not_inBarrier_of_takes {src : Fin N} (h : s.takes r src = true) : (s.status r).inBarrier = false := by
  unfold takes at h
  split at h
  next heq => rw [heq]; rfl
  next heq => rw [heq]; rfl
  next heq => rw [heq]; rfl
  next => cases h

theorem TablesOk.receive (h : s.TablesOk) {src : Fin N} (ht : s.takes r src = true) {e : Entry} {q : List Entry}
    (hq : s.posted src r = e :: q) (clock : Nat) : (s.receive r src q clock).TablesOk := by
  obtain ⟨stale, floor, heq⟩ := receive_eq (h.msgs ▸ hq) clock
  rw [heq]
  refine h.keep ?_ rfl (inBarrier_update ?_) rfl rfl rfl
  · dsimp only
    rw [h.msgs]
  · rw [not_inBarrier_of_takes ht]
    rfl

/-- What a guarded action is taken under, and what it makes of the state. -/
theorem of_guard {p : Prop} [Decidable p] {t : State N} {es es' : List (Record N)}
    (h : (if p then some (t, es') else none) = some (s', es)) : p ∧ t = s' ∧ es' = es := by
  simpa only [Option.ite_none_right_eq_some, Option.some.injEq, Prod.mk.injEq] using h

theorem TablesOk.step (h : s.TablesOk) {a : Act N} {es : List (Record N)} (hs : s.step a = some (s', es)) :
    s'.TablesOk := by
  cases a with
  | run r cycles =>
    obtain ⟨_, rfl, _⟩ := of_guard hs
    exact h.keep h.msgs rfl (fun _ => rfl) rfl rfl rfl
  | record r =>
    obtain ⟨_, rfl, _⟩ := of_guard hs
    exact h
  | post r dst =>
    obtain ⟨_, rfl, _⟩ := of_guard hs
    exact h.post r dst
  | block r src =>
    obtain ⟨hr, rfl, _⟩ := of_guard hs
    exact h.keep h.msgs rfl (inBarrier_update (s := s) (by rw [hr]; rfl)) rfl rfl rfl
  | recv r src clock =>
    simp only [State.step] at hs
    split at hs
    next => cases hs
    next e q hq =>
      obtain ⟨⟨ht, _⟩, rfl, _⟩ := of_guard hs
      exact h.receive ht hq clock
  | arrive r =>
    obtain ⟨hr, rfl, _⟩ := of_guard hs
    exact h.arrive hr
  | park r =>
    obtain ⟨hr, rfl, _⟩ := of_guard hs
    exact h.keep h.msgs rfl (inBarrier_update (s := s) (by rw [hr]; rfl)) rfl rfl rfl
  | leave r clock =>
    obtain ⟨⟨hr, _⟩, rfl, _⟩ := of_guard hs
    exact h.leave hr clock
  | exit r =>
    obtain ⟨hr, rfl, _⟩ := of_guard hs
    exact h.keep h.msgs rfl (inBarrier_update (s := s) (by rw [hr]; rfl)) rfl rfl rfl

/-- **The tables hold what is posted in every run, wherever the origins move.** -/
theorem tablesOk_run {delta : Fin N → Int} {l : List (Record N)} (h : (machine delta).Run s l) : s.TablesOk := by
  refine h.inv (I := fun s _ => s.TablesOk) (tablesOk_init delta) ?_
  intro s l m s' es hs hm
  cases m with
  | act a => exact hs.step hm
  | rebase clock delta =>
    simp only [machine, Option.some.injEq, Prod.mk.injEq] at hm
    obtain ⟨rfl, _⟩ := hm
    exact hs.keep hs.msgs rfl (fun _ => rfl) rfl rfl rfl

end Pimid.Cut.State
