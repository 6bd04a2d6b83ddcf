import Pimid.Cut.Wake

/-!
# What the passes leave

The bound of a rank in a barrier is not monotone in the others' bounds: while none of
the missing ranks has one it is the latest arrival so far, the least it can be, and
above that once one of them has. `topOf` is the bound without this first answer, and
the passes leave every waiting rank at or under it.
-/

namespace Pimid.Cut.State

variable {N : Nat} {s : State N} {L L' : Fin N → WithTop Nat} {c me : Fin N}

/-- A barrier is left no earlier than by the first of the ranks that are missing. -/
def barrierTop (s : State N) (L : Fin N → WithTop Nat) (me : Fin N) : WithTop Nat :=
  let k := s.rankBarGen me
  if s.released k ∨ s.missing me k = [] then s.sofar k else max (s.sofar k : WithTop Nat) (s.late L me k)

def candTop (s : State N) (L : Fin N → WithTop Nat) (c : Fin N) : WithTop Nat :=
  if s.cutWakeStale = 0 then
    match s.status c with
    | .waiting (.recv src) => s.recvCand L c src
    | .waiting .barrier => s.barrierTop L c
    | _ => 0
  else 0

def topOf (s : State N) (L : Fin N → WithTop Nat) (c : Fin N) : WithTop Nat :=
  max (s.relAxisClock c : WithTop Nat) (s.candTop L c)

theorem zero_le_bound (b : WithTop Nat) : 0 ≤ b := by
  cases b with
  | top => exact le_top
  | coe n => exact WithTop.coe_le_coe.mpr (Nat.zero_le n)

theorem lrank_le (r : Fin N) : s.lrank L r ≤ L r := by
  unfold lrank
  split
  next => exact le_refl _
  next => exact zero_le_bound _

theorem lrank_mono (h : ∀ r, L' r ≤ L r) (r : Fin N) : s.lrank L' r ≤ s.lrank L r := by
  unfold lrank
  split
  next => exact h r
  next => exact le_refl _

theorem lrank_level {v : WithTop Nat} (h : ∀ r, L r ≤ v ↔ L' r ≤ v) (r : Fin N) :
    s.lrank L r ≤ v ↔ s.lrank L' r ≤ v := by
  unfold lrank
  split
  next => exact h r
  next => exact Iff.rfl

theorem late_mono (h : ∀ r, L' r ≤ L r) (k : Nat) : s.late L' me k ≤ s.late L me k := by
  unfold late
  split
  next => exact le_refl _
  next =>
    rw [least_le_iff]
    rcases least_le_iff.mp (le_refl (least (s.lrank L) (s.missing me k) ⊤)) with htop | ⟨r, hr, hle⟩
    · exact Or.inl htop
    · exact Or.inr ⟨r, hr, (lrank_mono h r).trans hle⟩

theorem late_level {v : WithTop Nat} (h : ∀ r, L r ≤ v ↔ L' r ≤ v) (k : Nat) :
    s.late L me k ≤ v ↔ s.late L' me k ≤ v := by
  unfold late
  split
  next => exact Iff.rfl
  next => simp only [least_le_iff, lrank_level h]

theorem late_of_missing_nil {k : Nat} (h : s.missing me k = []) : s.late L me k = 0 ∨ s.late L me k = ⊤ := by
  unfold late
  split
  next => exact Or.inl rfl
  next => rw [h]; exact Or.inr rfl

theorem late_le {k : Nat} {r : Fin N} (hr : r ∈ s.missing me k) : s.late L me k ≤ L r := by
  unfold late
  split
  next => exact zero_le_bound _
  next => exact (least_le hr ⊤).trans (lrank_le r)

theorem barrierCand_le_top : s.barrierCand L me ≤ s.barrierTop L me := by
  unfold barrierCand barrierTop
  dsimp only
  by_cases hrel : s.released (s.rankBarGen me) = true
  · rw [if_pos hrel, if_pos (Or.inl hrel)]
  rw [if_neg hrel]
  by_cases hmiss : s.missing me (s.rankBarGen me) = []
  · rw [if_pos (Or.inr hmiss)]
    rcases late_of_missing_nil (L := L) hmiss with h0 | htop
    · rw [h0]
      split
      next => exact le_refl _
      next => exact max_le (le_refl _) (zero_le_bound _)
    · rw [if_pos htop]
  · rw [if_neg (not_or.mpr ⟨hrel, hmiss⟩)]
    split
    next => exact le_max_left _ _
    next => exact le_refl _

/-- Once a missing rank has a bound, the two bounds of the barrier are one. -/
theorem barrierCand_eq_top (h : s.late L me (s.rankBarGen me) ≠ ⊤) : s.barrierCand L me = s.barrierTop L me := by
  unfold barrierCand barrierTop
  dsimp only
  by_cases hrel : s.released (s.rankBarGen me) = true
  · rw [if_pos hrel, if_pos (Or.inl hrel)]
  rw [if_neg hrel, if_neg h]
  by_cases hmiss : s.missing me (s.rankBarGen me) = []
  · rw [if_pos (Or.inr hmiss), (late_of_missing_nil (L := L) hmiss).resolve_right h]
    exact max_eq_left (zero_le_bound _)
  · rw [if_neg (not_or.mpr ⟨hrel, hmiss⟩)]

theorem sofar_le_barrierCand : (s.sofar (s.rankBarGen me) : WithTop Nat) ≤ s.barrierCand L me := by
  unfold barrierCand
  dsimp only
  split
  next => exact le_refl _
  next =>
    split
    next => exact le_refl _
    next => exact le_max_left _ _

theorem barrierCand_of_late_top (h : s.late L me (s.rankBarGen me) = ⊤) :
    s.barrierCand L me = s.sofar (s.rankBarGen me) := by
  unfold barrierCand
  dsimp only
  rw [if_pos h, ite_self]

theorem recvCand_level {v : WithTop Nat} (h : ∀ r, L r ≤ v ↔ L' r ≤ v) (src : Option (Fin N)) :
    s.recvCand L me src ≤ v ↔ s.recvCand L' me src ≤ v := by
  cases src with
  | none => simp only [recvCand, least_le_iff, lrank_level h]
  | some src =>
    unfold recvCand
    dsimp only
    split
    next => exact lrank_level h src
    next => exact Iff.rfl

theorem barrierTop_level {v : WithTop Nat} (h : ∀ r, L r ≤ v ↔ L' r ≤ v) :
    s.barrierTop L me ≤ v ↔ s.barrierTop L' me ≤ v := by
  unfold barrierTop
  dsimp only
  split
  next => exact Iff.rfl
  next => rw [max_le_iff, max_le_iff, late_level h]

theorem topOf_levelled : Levelled s.topOf := by
  intro v L L' h c hle
  unfold topOf candTop at hle ⊢
  rw [max_le_iff] at hle ⊢
  refine ⟨hle.1, ?_⟩
  have hc := hle.2
  split
  next hstale =>
    rw [if_pos hstale] at hc
    split
    next src heq =>
      rw [heq] at hc
      exact (recvCand_level h src).mp hc
    next heq =>
      rw [heq] at hc
      exact (barrierTop_level h).mp hc
    next => exact zero_le_bound _
  next => exact zero_le_bound _

/-- The two bounds differ for a rank in a barrier only. -/
theorem wakeOf_eq_topOf (h : s.status c = .waiting .barrier → s.barrierCand L c = s.barrierTop L c) :
    s.wakeOf L c = s.topOf L c := by
  unfold wakeOf topOf cand candTop
  cases hst : s.status c with
  | waiting w =>
    cases w with
    | recv src => rfl
    | barrier =>
      dsimp only
      rw [h hst]
  | running => rfl
  | arrived => rfl
  | exited => rfl

theorem wakeOf_barrier (hstale : s.cutWakeStale = 0) (h : s.status c = .waiting .barrier) :
    s.wakeOf L c = max (s.relAxisClock c : WithTop Nat) (s.barrierCand L c) := by
  unfold wakeOf cand
  rw [if_pos hstale, h]

theorem topOf_barrier (hstale : s.cutWakeStale = 0) (h : s.status c = .waiting .barrier) :
    s.topOf L c = max (s.relAxisClock c : WithTop Nat) (s.barrierTop L c) := by
  unfold topOf candTop
  rw [if_pos hstale, h]

theorem wakeOf_eq_topOf_of_stale (hstale : s.cutWakeStale ≠ 0) : s.wakeOf L c = s.topOf L c := by
  unfold wakeOf topOf cand candTop
  rw [if_neg hstale, if_neg hstale]

theorem wakeOf_le_topOf (L : Fin N → WithTop Nat) (c : Fin N) : s.wakeOf L c ≤ s.topOf L c := by
  by_cases hstale : s.cutWakeStale = 0
  · by_cases hbar : s.status c = .waiting .barrier
    · rw [wakeOf_barrier hstale hbar, topOf_barrier hstale hbar]
      exact max_le_max (le_refl _) barrierCand_le_top
    · exact (wakeOf_eq_topOf fun h => absurd h hbar).le
  · exact (wakeOf_eq_topOf_of_stale hstale).le

theorem wakeOf_pins : Pins s.wakeOf s.topOf := by
  intro L c
  by_cases hstale : s.cutWakeStale = 0
  · by_cases hbar : s.status c = .waiting .barrier
    · by_cases hlate : s.late L c (s.rankBarGen c) = ⊤
      · -- the first answer: nothing the rank may be given later is below it
        right
        intro L'
        have hle : s.wakeOf L c ≤ s.wakeOf L' c := by
          rw [wakeOf_barrier hstale hbar, wakeOf_barrier hstale hbar, barrierCand_of_late_top hlate]
          exact max_le_max (le_refl _) sofar_le_barrierCand
        exact ⟨hle, hle.trans (wakeOf_le_topOf L' c)⟩
      · left
        intro L' hL'
        refine wakeOf_eq_topOf fun _ => barrierCand_eq_top fun htop => hlate ?_
        exact top_le_iff.mp (htop ▸ late_mono hL' _)
    · exact Or.inl fun L' _ => wakeOf_eq_topOf fun h => absurd h hbar
  · exact Or.inl fun L' _ => wakeOf_eq_topOf_of_stale hstale

theorem mem_waitingCores : c ∈ s.waitingCores ↔ (s.status c).isWaiting = true := by
  simp [waitingCores]

theorem bounds_le_topOf (h : (s.status c).isWaiting = true) : s.bounds c ≤ s.topOf s.bounds c := by
  refine solve_le wakeOf_le_topOf topOf_levelled wakeOf_pins ?_ (mem_waitingCores.mpr h)
  have hlen : s.waitingCores.length ≤ N := by
    have := List.length_filter_le (fun c => (s.status c).isWaiting) (List.finRange N)
    rwa [List.length_finRange] at this
  omega

theorem bounds_of_not_waiting (h : (s.status c).isWaiting = false) : s.bounds c = s.bounds₀ c := by
  refine solve_of_not_mem ?_ _
  rw [mem_waitingCores, h]
  exact Bool.false_ne_true

theorem bounds_of_active (h : (s.status c).isActive = true) : s.bounds c = s.relAxisClock c := by
  rw [bounds_of_not_waiting, bounds₀, if_pos h]
  cases hst : s.status c <;> rw [hst] at h <;> first | rfl | cases h

theorem bounds_of_exited (h : s.status c = .exited) : s.bounds c = ⊤ := by
  rw [bounds_of_not_waiting (by rw [h]; rfl), bounds₀, h]
  rfl

end Pimid.Cut.State
