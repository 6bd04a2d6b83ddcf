import Pimid.Cut.Bounds
import Pimid.Cut.Cores

/-!
# When the passes solve the equations

An equation is at most `m` when the core's earliest is and something that releases the core
is. So a bound is at most `m` exactly when a chain of waits says so, and the greatest
solution has no other. The code's own map differs at a barrier whose missing ranks have no
bound yet: there it answers with the arrivals so far, which is right if a chain of waits
leads on by then, and too early for good if not.
-/

namespace Pimid.Cut.Cores

open Function (update update_of_ne update_self)

variable {n N : Nat} {s : Cores n N} {L L' M : Fin n → WithTop Nat} {c d : Fin n} {me r : Fin N} {k m : Nat}

/-! ## Levels of an equation -/

/-- The bound of what may release a core. -/
def optBound (s : Cores n N) (L : Fin n → WithTop Nat) : Release N → WithTop Nat
  | .posted t => t
  | .rank r => s.lrank L r

theorem lrank_none (h : s.coreOfRank r = none) : s.lrank L r = 0 := by
  unfold lrank
  rw [h]

theorem lrank_some (h : s.coreOfRank r = some d) : s.lrank L r = L d := by
  unfold lrank
  rw [h]

theorem lrank_mono (h : ∀ c, L c ≤ L' c) (r : Fin N) : s.lrank L r ≤ s.lrank L' r := by
  unfold lrank
  split
  · exact h _
  · exact le_refl _

theorem optBound_mono (h : ∀ c, L c ≤ L' c) (x : Release N) : s.optBound L x ≤ s.optBound L' x := by
  cases x with
  | posted t => exact le_refl _
  | rank r => exact lrank_mono h r

theorem coe_le {a b : Nat} : (a : WithTop Nat) ≤ b ↔ a ≤ b := WithTop.coe_le_coe

theorem not_top_le : ¬ (⊤ : WithTop Nat) ≤ m := fun h => WithTop.coe_ne_top (top_le_iff.mp h)

theorem recvCand_none_le : s.recvCand L me none ≤ m ↔
    ∃ x ∈ ((List.finRange N).filterMap fun r => (s.cutWakeMsgs r me).head?.map fun e => Release.posted e.t) ++
      (State.others me).map .rank, s.optBound L x ≤ m := by
  unfold recvCand
  rw [least_le_iff, least_le_iff]
  constructor
  · rintro ((htop | ⟨r, _, hr⟩) | ⟨r, hr, hle⟩)
    · exact absurd htop not_top_le
    · rcases hq : s.cutWakeMsgs r me with _ | ⟨e, q⟩
      · unfold front at hr
        rw [hq] at hr
        exact absurd hr not_top_le
      · unfold front at hr
        rw [hq] at hr
        refine ⟨.posted e.t, List.mem_append_left _ (List.mem_filterMap.mpr ⟨r, List.mem_finRange r, ?_⟩), hr⟩
        rw [hq]
        rfl
    · exact ⟨.rank r, List.mem_append_right _ (List.mem_map.mpr ⟨r, hr, rfl⟩), hle⟩
  · rintro ⟨x, hx, hle⟩
    rcases List.mem_append.mp hx with hx | hx
    · obtain ⟨r, -, hr⟩ := List.mem_filterMap.mp hx
      rcases hq : s.cutWakeMsgs r me with _ | ⟨e, q⟩
      · rw [hq] at hr
        cases hr
      · rw [hq] at hr
        obtain rfl := Option.some.inj hr
        refine Or.inl (Or.inr ⟨r, List.mem_finRange r, ?_⟩)
        unfold front
        rw [hq]
        exact hle
    · obtain ⟨r, hr, rfl⟩ := List.mem_map.mp hx
      exact Or.inr ⟨r, hr, hle⟩

theorem late_le_iff (h : s.allKnown me = true) : s.late L me k ≤ m ↔ ∃ r ∈ s.missing me k, s.lrank L r ≤ m := by
  unfold late
  rw [if_pos h, least_le_iff]
  constructor
  · rintro (htop | hr)
    · exact absurd htop not_top_le
    · exact hr
  · exact Or.inr

/-- The right side of an equation is at most `m` when the core's earliest is, and one of its releases. -/
theorem eqOf_le_iff : s.eqOf L c ≤ m ↔ s.earliest c ≤ m ∧ ∃ x ∈ s.releases c, s.optBound L x ≤ m := by
  have hzero : ∃ x ∈ [Release.posted (N := N) 0], s.optBound L x ≤ m :=
    ⟨_, List.mem_singleton_self _, coe_le.mpr (Nat.zero_le m)⟩
  unfold eqOf earliest releases
  rw [max_le_iff, coe_le]
  rcases hinfo : s.info c with _ | ⟨me, ⟨_ | src⟩ | k⟩
  · exact and_congr_right fun _ => ⟨fun _ => hzero, fun _ => State.zero_le_bound _⟩
  · exact and_congr_right fun _ => recvCand_none_le
  · refine and_congr_right fun _ => ?_
    dsimp only [recvCand]
    rcases hq : s.cutWakeMsgs src me with _ | ⟨e, q⟩
    · simp [optBound]
    · simp [optBound]
  · dsimp only
    rw [max_le_iff, and_assoc]
    refine and_congr_right fun _ => ?_
    unfold barrierEq
    by_cases hrel : s.released k = true ∨ s.missing me k = []
    · rw [if_pos hrel, coe_le]
      refine (and_iff_left ?_).symm
      rw [if_pos (hrel.imp_right Or.inl)]
      exact hzero
    · rw [if_neg hrel, max_le_iff, coe_le]
      refine and_congr_right fun _ => ?_
      by_cases hknown : s.allKnown me = true
      · rw [late_le_iff hknown, if_neg]
        · simp [optBound]
        · rintro (h | h | h)
          · exact hrel (Or.inl h)
          · exact hrel (Or.inr h)
          · rw [hknown] at h
            cases h
      · have hfalse := Bool.eq_false_iff.mpr hknown
        rw [if_pos (Or.inr (Or.inr hfalse))]
        refine ⟨fun _ => hzero, fun _ => ?_⟩
        unfold late
        rw [if_neg hknown]
        exact State.zero_le_bound _

theorem le_of_levels {a b : WithTop Nat} (h : ∀ m : Nat, b ≤ m → a ≤ m) : a ≤ b := by
  rcases b with _ | b
  · exact le_top
  · exact h b (le_refl _)

theorem eqOf_mono (h : ∀ c, L c ≤ L' c) (c : Fin n) : s.eqOf L c ≤ s.eqOf L' c := by
  refine le_of_levels fun m hm => ?_
  obtain ⟨hle, x, hx, hb⟩ := eqOf_le_iff.mp hm
  exact eqOf_le_iff.mpr ⟨hle, x, hx, (optBound_mono h x).trans hb⟩

theorem eqOf_levelled : Levelled s.eqOf := by
  intro v L L' h c hle
  rcases v with _ | v
  · exact le_top
  · obtain ⟨hearly, x, hx, hb⟩ := eqOf_le_iff.mp hle
    refine eqOf_le_iff.mpr ⟨hearly, x, hx, ?_⟩
    cases x with
    | posted t => exact hb
    | rank r =>
      unfold optBound lrank at hb ⊢
      dsimp only at hb ⊢
      split
      · next c hc =>
        rw [hc] at hb
        exact (h c).mp hb
      · exact State.zero_le_bound _

/-! ## The code's own map -/

theorem late_top_iff (h : s.allKnown me = true) : s.late L me k = ⊤ ↔ ∀ r ∈ s.missing me k, s.lrank L r = ⊤ := by
  constructor
  · intro htop r hr
    unfold late at htop
    rw [if_pos h] at htop
    exact top_le_iff.mp (htop ▸ least_le hr ⊤)
  · intro hall
    unfold late
    rw [if_pos h]
    refine top_le_iff.mp ?_
    rcases least_le_iff.mp (le_refl (least (s.lrank L) (s.missing me k) ⊤)) with htop | ⟨r, hr, hle⟩
    · exact htop
    · rw [hall r hr] at hle
      exact hle

/-- While the missing ranks have no bound, the code's map is not the equation's. -/
theorem wakeOf_cases (s : Cores n N) (L : Fin n → WithTop Nat) (c : Fin n) : s.wakeOf L c = s.eqOf L c ∨
    ∃ me k, s.AtBarrier c me k ∧ (∀ r ∈ s.missing me k, s.lrank L r = ⊤) ∧ s.wakeOf L c = s.earliest c := by
  unfold wakeOf cand eqOf earliest
  rcases hinfo : s.info c with _ | ⟨me, src | k⟩
  · exact Or.inl rfl
  · exact Or.inl rfl
  · dsimp only
    unfold barrierCand barrierEq
    by_cases hrel : s.released k = true
    · rw [if_pos hrel, if_pos (Or.inl hrel)]
      exact Or.inl rfl
    by_cases hmiss : s.missing me k = []
    · rw [if_neg hrel, if_pos (Or.inr hmiss)]
      left
      have hlate : s.late L me k = 0 ∨ s.late L me k = ⊤ := by
        unfold late
        split
        · rw [hmiss]
          exact Or.inr rfl
        · exact Or.inl rfl
      rcases hlate with h0 | htop
      · rw [h0, if_neg WithTop.zero_ne_top, max_eq_left (State.zero_le_bound _)]
      · rw [if_pos htop]
    · rw [if_neg hrel, if_neg (not_or.mpr ⟨hrel, hmiss⟩)]
      by_cases htop : s.late L me k = ⊤
      · right
        have hknown : s.allKnown me = true := by
          by_contra hno
          unfold late at htop
          rw [if_neg hno] at htop
          exact WithTop.zero_ne_top htop
        refine ⟨me, k, ⟨hinfo, Bool.eq_false_iff.mpr hrel, hmiss, hknown⟩, (late_top_iff hknown).mp htop, ?_⟩
        rw [if_pos htop]
        exact (WithTop.coe_max _ _).symm
      · rw [if_neg htop]
        exact Or.inl rfl

theorem AtBarrier.wakeOf_first (h : s.AtBarrier c me k) (htop : ∀ r ∈ s.missing me k, s.lrank L r = ⊤) :
    s.wakeOf L c = s.earliest c := by
  unfold wakeOf cand earliest
  rw [h.info]
  dsimp only
  unfold barrierCand
  rw [if_neg (Bool.eq_false_iff.mp h.unreleased), if_pos ((late_top_iff h.known).mpr htop)]
  exact (WithTop.coe_max _ _).symm

theorem earliest_le_wakeOf (s : Cores n N) (L : Fin n → WithTop Nat) (c : Fin n) : (s.earliest c : WithTop Nat) ≤ s.wakeOf L c := by
  unfold earliest wakeOf cand
  rcases s.info c with _ | ⟨me, src | k⟩
  · exact le_max_left _ _
  · exact le_max_left _ _
  · dsimp only
    refine (WithTop.coe_max _ _).le.trans (max_le_max (le_refl _) ?_)
    unfold barrierCand
    split
    · exact le_refl _
    · split
      · exact le_refl _
      · exact le_max_left _ _

theorem earliest_le_eqOf (s : Cores n N) (L : Fin n → WithTop Nat) (c : Fin n) : (s.earliest c : WithTop Nat) ≤ s.eqOf L c :=
  le_of_levels fun _ hm => coe_le.mpr (eqOf_le_iff.mp hm).1

theorem wakeOf_le_eqOf (L : Fin n → WithTop Nat) (c : Fin n) : s.wakeOf L c ≤ s.eqOf L c := by
  rcases wakeOf_cases s L c with heq | ⟨_, _, -, -, heq⟩
  · exact heq.le
  · rw [heq]
    exact earliest_le_eqOf s L c

theorem wakeOf_pins : Pins s.wakeOf s.eqOf := by
  intro L c
  rcases wakeOf_cases s L c with heq | ⟨me, k, hbar, htop, heq⟩
  · by_cases hfirst : s.wakeOf L c = s.earliest c
    · refine Or.inr fun L' => ?_
      rw [hfirst]
      exact ⟨earliest_le_wakeOf s L' c, earliest_le_eqOf s L' c⟩
    · refine Or.inl fun L' hL' => ?_
      rcases wakeOf_cases s L' c with heq' | ⟨me, k, hbar, htop, heq'⟩
      · exact heq'
      · -- the missing ranks had no bound before either
        have htop' : ∀ r ∈ s.missing me k, s.lrank L r = ⊤ := fun r hr => top_le_iff.mp (htop r hr ▸ lrank_mono hL' r)
        exact absurd (hbar.wakeOf_first htop') hfirst
  · refine Or.inr fun L' => ?_
    rw [heq]
    exact ⟨earliest_le_wakeOf s L' c, earliest_le_eqOf s L' c⟩

theorem mem_waitingCores : c ∈ s.waitingCores ↔ s.st c = .waiting := by simp [waitingCores]

theorem waitingCores_length : s.waitingCores.length ≤ n := by
  have := List.length_filter_le (fun c => decide (s.st c = .waiting)) (List.finRange n)
  rwa [List.length_finRange] at this

theorem bounds_le_eqOf (h : s.st c = .waiting) : s.bounds c ≤ s.eqOf s.bounds c :=
  solve_le wakeOf_le_eqOf eqOf_levelled wakeOf_pins (by have := s.waitingCores_length; omega) (mem_waitingCores.mpr h)

theorem bounds_of_not_waiting (h : s.st c ≠ .waiting) : s.bounds c = s.bounds₀ c :=
  solve_of_not_mem (fun hc => h (mem_waitingCores.mp hc)) _

theorem bounds₀_of_waiting (h : s.st c = .waiting) : s.bounds₀ c = ⊤ := by
  unfold bounds₀
  rw [h]
  rfl

/-! ## Chains of waits -/

/-- Bounds that no equation lowers. -/
structure Under (s : Cores n N) (L : Fin n → WithTop Nat) : Prop where
  waiting : ∀ c, s.st c = .waiting → L c ≤ s.eqOf L c
  others : ∀ c, s.st c ≠ .waiting → L c ≤ s.bounds₀ c

theorem Solution.under (h : s.Solution L) : s.Under L := ⟨fun c hc => (h.waiting c hc).le, fun c hc => (h.others c hc).le⟩

theorem bounds_under (s : Cores n N) : s.Under s.bounds :=
  ⟨fun _ hc => bounds_le_eqOf hc, fun _ hc => (bounds_of_not_waiting hc).le⟩

theorem Under.le_start (h : s.Under L) (c : Fin n) : L c ≤ s.bounds₀ c := by
  by_cases hc : s.st c = .waiting
  · rw [bounds₀_of_waiting hc]
    exact le_top
  · exact h.others c hc

/-- At the end of a chain of waits the bounds are no later than the chain. -/
theorem Under.within (h : s.Under L) (hw : s.Within m d) : L d ≤ m := by
  induction hw with
  | @acts c hst hle =>
    refine (h.others c (by rw [hst]; exact CoreState.noConfusion)).trans ?_
    unfold bounds₀
    rw [if_pos hst]
    exact coe_le.mpr hle
  | @posted c t hst hle hr ht => exact (h.waiting c hst).trans (eqOf_le_iff.mpr ⟨hle, _, hr, coe_le.mpr ht⟩)
  | @unplaced c r hst hle hr hnone =>
    refine (h.waiting c hst).trans (eqOf_le_iff.mpr ⟨hle, _, hr, ?_⟩)
    exact (lrank_none hnone).le.trans (State.zero_le_bound _)
  | @waits c r d hst hle hr hcore _ ih =>
    refine (h.waiting c hst).trans (eqOf_le_iff.mpr ⟨hle, _, hr, ?_⟩)
    exact (lrank_some hcore).le.trans ih

theorem AtBarrier.releases (h : s.AtBarrier c me k) : s.releases c = (s.missing me k).map .rank := by
  unfold Cores.releases
  rw [h.info]
  dsimp only
  rw [if_neg]
  rintro (hr | hr | hr)
  · exact Bool.eq_false_iff.mp h.unreleased hr
  · exact h.missing hr
  · rw [h.known] at hr
    cases hr

theorem Under.atBarrier (h : s.Under L) (hbar : s.AtBarrier c me k) (hr : r ∈ s.missing me k)
    (hcore : s.coreOfRank r = some d) (hw : s.Within (s.earliest c) d) : s.eqOf L c ≤ s.earliest c := by
  refine eqOf_le_iff.mpr ⟨le_refl _, .rank r, hbar.releases ▸ List.mem_map.mpr ⟨r, hr, rfl⟩, ?_⟩
  exact (lrank_some hcore).le.trans (h.within hw)

/-! ## Answered waits are solved -/

theorem Answered.le_bounds (h : s.Answered) (hM : s.Under M) (c : Fin n) : M c ≤ s.bounds c := by
  refine And.left (?_ : (∀ c, M c ≤ s.bounds c) ∧ ∀ c, s.bounds c ≤ s.bounds₀ c) c
  refine solve_keeps (I := fun L => (∀ r, M r ≤ L r) ∧ ∀ r, L r ≤ s.bounds₀ r) (fun L c hc hI hlt => ?_) (n + 2)
    ⟨hM.le_start, fun _ => le_refl _⟩
  have hst := mem_waitingCores.mp hc
  have hkeep : M c ≤ s.wakeOf L c := by
    rcases wakeOf_cases s L c with heq | ⟨me, k, hbar, htop, heq⟩
    · rw [heq]
      exact (hM.waiting c hst).trans (eqOf_mono hI.1 c)
    · rw [heq]
      obtain ⟨r, hr, hact | ⟨d, hcore, hw⟩⟩ := h c me k hst hbar
      · exact absurd (top_le_iff.mp (htop r hr ▸ lrank_mono hI.2 r)) hact
      · exact (hM.waiting c hst).trans (hM.atBarrier hbar hr hcore hw)
  refine ⟨fun r => ?_, fun r => ?_⟩
  · by_cases hrc : r = c
    · rw [hrc, update_self]
      exact hkeep
    · rw [update_of_ne hrc]
      exact hI.1 r
  · by_cases hrc : r = c
    · rw [hrc, update_self, bounds₀_of_waiting hst]
      exact le_top
    · rw [update_of_ne hrc]
      exact hI.2 r

/-- What a core was lowered to was its equation's, or the arrivals so far at a barrier with no bound yet. -/
def Lowered (s : Cores n N) (L : Fin n → WithTop Nat) (c : Fin n) : Prop :=
  s.eqOf L c ≤ L c ∨ (s.earliest c : WithTop Nat) ≤ L c ∧
    ∃ me k, s.AtBarrier c me k ∧ ∀ r ∈ s.missing me k, s.lrank s.bounds₀ r = ⊤

theorem bounds_lowered (s : Cores n N) (c : Fin n) (hst : s.st c = .waiting) : s.Lowered s.bounds c := by
  refine And.right (?_ : (∀ c, s.bounds c ≤ s.bounds₀ c) ∧ ∀ c, s.st c = .waiting → s.Lowered s.bounds c) c hst
  refine solve_keeps (I := fun L => (∀ r, L r ≤ s.bounds₀ r) ∧ ∀ c, s.st c = .waiting → s.Lowered L c)
    (fun L c hc hI hlt => ?_) (n + 2)
    ⟨fun _ => le_refl _, fun c hc => Or.inl (by rw [bounds₀_of_waiting hc]; exact le_top)⟩
  have hst := mem_waitingCores.mp hc
  have hless : ∀ r, update L c (s.wakeOf L c) r ≤ L r := by
    intro r
    by_cases hrc : r = c
    · rw [hrc, update_self]
      exact hlt.le
    · rw [update_of_ne hrc]
  refine ⟨fun r => (hless r).trans (hI.1 r), fun e he => ?_⟩
  by_cases hec : e = c
  · subst hec
    unfold Lowered
    rw [update_self]
    rcases wakeOf_cases s L e with heq | ⟨me, k, hbar, htop, heq⟩
    · exact Or.inl ((eqOf_mono hless e).trans heq.ge)
    · exact Or.inr ⟨heq.ge, me, k, hbar, fun r hr => top_le_iff.mp (htop r hr ▸ lrank_mono hI.1 r)⟩
  · unfold Lowered
    rw [update_of_ne hec]
    exact (hI.2 e he).imp_left (eqOf_mono hless e).trans

theorem Answered.eqOf_le (h : s.Answered) (hst : s.st c = .waiting) : s.eqOf s.bounds c ≤ s.bounds c := by
  rcases bounds_lowered s c hst with hle | ⟨hle, me, k, hbar, htop⟩
  · exact hle
  · obtain ⟨r, hr, hact | ⟨d, hcore, hw⟩⟩ := h c me k hst hbar
    · exact absurd (htop r hr) hact
    · exact ((bounds_under s).atBarrier hbar hr hcore hw).trans hle

theorem Answered.solution (h : s.Answered) : s.Solution s.bounds :=
  ⟨fun _ hc => le_antisymm (bounds_le_eqOf hc) (h.eqOf_le hc), fun _ hc => bounds_of_not_waiting hc⟩

theorem Answered.settled (h : s.Answered) : pass s.wakeOf s.waitingCores s.bounds = (s.bounds, false) := by
  refine pass_of_le fun c hc => ?_
  have hst := mem_waitingCores.mp hc
  rcases wakeOf_cases s s.bounds c with heq | ⟨me, k, hbar, htop, heq⟩
  · rw [heq]
    exact bounds_le_eqOf hst
  · rw [heq]
    obtain ⟨r, hr, hact | ⟨d, hcore, hw⟩⟩ := h c me k hst hbar
    · exact absurd (top_le_iff.mp (htop r hr ▸ lrank_mono (bounds_under s).le_start r)) hact
    · exact (bounds_le_eqOf hst).trans ((bounds_under s).atBarrier hbar hr hcore hw)

end Pimid.Cut.Cores
