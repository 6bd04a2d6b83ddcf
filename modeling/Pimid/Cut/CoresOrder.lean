import Mathlib.Logic.Equiv.Basic
import Pimid.Cut.CoresSolved

/-!
# The numbers of the cores

Other numbers give the same equations. So where every wait at a barrier is answered the
bounds are the same too, and where one is not, the core that waits there is given the arrivals
so far when it is the first to be visited, and its bound depends on its number.
-/

namespace Pimid.Cut.Cores

variable {n N : Nat} {s : Cores n N} {L : Fin n → WithTop Nat} {c d : Fin n} {me r : Fin N} {k m : Nat}
variable {σ : Equiv.Perm (Fin n)}

/-! ## Other numbers -/

theorem lrank_renumber (L : Fin n → WithTop Nat) (r : Fin N) :
    (s.renumber σ).lrank L r = s.lrank (fun e => L (σ e)) r := by
  have hc : (s.renumber σ).coreOfRank r = (s.coreOfRank r).map σ := rfl
  rw [lrank, hc, lrank]
  rcases s.coreOfRank r with _ | c
  · rfl
  · rfl

theorem late_renumber (L : Fin n → WithTop Nat) (me : Fin N) (k : Nat) :
    (s.renumber σ).late L me k = s.late (fun e => L (σ e)) me k := by
  have hl : (s.renumber σ).lrank L = s.lrank fun e => L (σ e) := funext fun r => lrank_renumber L r
  unfold late
  rw [hl]
  rfl

theorem recvCand_renumber (L : Fin n → WithTop Nat) (me : Fin N) (src : Option (Fin N)) :
    (s.renumber σ).recvCand L me src = s.recvCand (fun e => L (σ e)) me src := by
  have hl : (s.renumber σ).lrank L = s.lrank fun e => L (σ e) := funext fun r => lrank_renumber L r
  cases src with
  | none =>
    dsimp only [recvCand]
    rw [hl]
    rfl
  | some src =>
    dsimp only [recvCand]
    rw [hl]
    rfl

theorem st_renumber (c : Fin n) : (s.renumber σ).st (σ c) = s.st c := congrArg s.st (σ.symm_apply_apply c)

theorem rr_renumber (c : Fin n) : (s.renumber σ).rr (σ c) = s.rr c := congrArg s.rr (σ.symm_apply_apply c)

theorem info_renumber (c : Fin n) : (s.renumber σ).info (σ c) = s.info c := congrArg s.info (σ.symm_apply_apply c)

theorem eqOf_renumber (L : Fin n → WithTop Nat) (c : Fin n) :
    (s.renumber σ).eqOf L (σ c) = s.eqOf (fun e => L (σ e)) c := by
  unfold eqOf
  rw [rr_renumber, info_renumber]
  rcases s.info c with _ | ⟨me, src | k⟩
  · rfl
  · dsimp only
    rw [recvCand_renumber]
  · dsimp only [barrierEq]
    rw [late_renumber]
    rfl

theorem wakeOf_renumber (L : Fin n → WithTop Nat) (c : Fin n) :
    (s.renumber σ).wakeOf L (σ c) = s.wakeOf (fun e => L (σ e)) c := by
  unfold wakeOf cand
  rw [rr_renumber, info_renumber]
  rcases s.info c with _ | ⟨me, src | k⟩
  · rfl
  · dsimp only
    rw [recvCand_renumber]
  · dsimp only [barrierCand]
    rw [late_renumber]
    rfl

theorem bounds₀_renumber (c : Fin n) : (s.renumber σ).bounds₀ (σ c) = s.bounds₀ c := by
  unfold bounds₀
  rw [st_renumber, rr_renumber]

theorem releases_renumber (c : Fin n) : (s.renumber σ).releases (σ c) = s.releases c := by
  unfold releases
  rw [info_renumber]
  rfl

theorem earliest_renumber (c : Fin n) : (s.renumber σ).earliest (σ c) = s.earliest c := by
  unfold earliest
  rw [info_renumber, rr_renumber]
  rfl

theorem renumber_symm (s : Cores n N) (σ : Equiv.Perm (Fin n)) : (s.renumber σ).renumber σ.symm = s := by
  cases s
  simp [renumber, Function.comp_def]

theorem Under.ofRenumber (h : (s.renumber σ).Under L) : s.Under fun e => L (σ e) := by
  refine ⟨fun c hc => ?_, fun c hc => ?_⟩
  · rw [← eqOf_renumber]
    exact h.waiting (σ c) (by rw [st_renumber, hc])
  · rw [← bounds₀_renumber (σ := σ)]
    exact h.others (σ c) (by rwa [st_renumber])

theorem Under.renumber (h : s.Under L) (σ : Equiv.Perm (Fin n)) : (s.renumber σ).Under fun e => L (σ.symm e) := by
  rw [← renumber_symm s σ] at h
  exact h.ofRenumber

theorem Within.renumber (h : s.Within m d) (σ : Equiv.Perm (Fin n)) : (s.renumber σ).Within m (σ d) := by
  induction h with
  | @acts c hst hle =>
    refine .acts (by rw [st_renumber, hst]) ?_
    rwa [rr_renumber]
  | posted hst hle hr ht =>
    exact .posted (by rw [st_renumber, hst]) (by rw [earliest_renumber]; exact hle) (by rw [releases_renumber]; exact hr) ht
  | @unplaced c r hst hle hr hnone =>
    refine .unplaced (by rw [st_renumber, hst]) (by rw [earliest_renumber]; exact hle) (by rw [releases_renumber]; exact hr) ?_
    show (s.coreOfRank r).map σ = none
    rw [hnone]
    rfl
  | @waits c r d hst hle hr hcore _ ih =>
    refine .waits (by rw [st_renumber, hst]) (by rw [earliest_renumber]; exact hle) (by rw [releases_renumber]; exact hr)
      ?_ ih
    show (s.coreOfRank r).map σ = some (σ d)
    rw [hcore]
    rfl

theorem AtBarrier.ofRenumber (h : (s.renumber σ).AtBarrier (σ c) me k) : s.AtBarrier c me k := by
  refine ⟨?_, h.unreleased, h.missing, h.known⟩
  rw [← h.info]
  exact (congrArg s.info (σ.symm_apply_apply c)).symm

theorem Answered.renumber (h : s.Answered) (σ : Equiv.Perm (Fin n)) : (s.renumber σ).Answered := by
  intro c me k hst hbar
  obtain ⟨c, rfl⟩ := σ.surjective c
  rw [st_renumber] at hst
  obtain ⟨r, hr, hact | ⟨d, hcore, hw⟩⟩ := h c me k hst hbar.ofRenumber
  · refine ⟨r, hr, Or.inl ?_⟩
    rw [lrank_renumber]
    simp only [bounds₀_renumber]
    exact hact
  · refine ⟨r, hr, Or.inr ⟨σ d, ?_, ?_⟩⟩
    · show (s.coreOfRank r).map σ = some (σ d)
      rw [hcore]
      rfl
    · rw [earliest_renumber]
      exact hw.renumber σ

theorem Answered.bounds_renumber (h : s.Answered) (σ : Equiv.Perm (Fin n)) (c : Fin n) :
    (s.renumber σ).bounds (σ c) = s.bounds c := by
  refine le_antisymm (h.le_bounds (bounds_under _).ofRenumber c) ?_
  have hle := (h.renumber σ).le_bounds ((bounds_under s).renumber σ) (σ c)
  rwa [σ.symm_apply_apply] at hle

theorem Answered.cutWakeBound_renumber (h : s.Answered) (σ : Equiv.Perm (Fin n)) :
    (s.renumber σ).cutWakeBound = s.cutWakeBound := by
  have hrec (c : Fin n) : (s.renumber σ).wakeRec (σ c) = s.wakeRec c := by
    unfold wakeRec
    rw [h.bounds_renumber σ c, rr_renumber,
      show (s.renumber σ).dl (σ c) = s.dl c from congrArg s.dl (σ.symm_apply_apply c)]
  have hmem (c : Fin n) : σ c ∈ (s.renumber σ).waitingCores.filter ((s.renumber σ).rr · ≠ 0) ↔
      c ∈ s.waitingCores.filter (s.rr · ≠ 0) := by
    rw [List.mem_filter, List.mem_filter, mem_waitingCores, mem_waitingCores, st_renumber,
      rr_renumber]
  refine eq_of_forall_ge_iff fun v => ?_
  unfold cutWakeBound
  rw [least_le_iff, least_le_iff]
  refine or_congr_right ⟨?_, ?_⟩
  · rintro ⟨c, hc, hle⟩
    obtain ⟨c, rfl⟩ := σ.surjective c
    exact ⟨c, (hmem c).mp hc, by rw [← hrec c]; exact hle⟩
  · rintro ⟨c, hc, hle⟩
    exact ⟨σ c, (hmem c).mpr hc, by rw [hrec c]; exact hle⟩

theorem Answered.solved (h : s.Answered) : s.Solved :=
  ⟨h.solution, fun _ hL => h.le_bounds hL.under, h.settled, fun σ => ⟨h.bounds_renumber σ, h.cutWakeBound_renumber σ⟩⟩

/-! ## A wait that is not answered -/

/-- The greatest solution, from the equations themselves. -/
def greatest (s : Cores n N) : Fin n → WithTop Nat := solve s.eqOf s.waitingCores (n + 2) s.bounds₀

theorem le_greatest {M : Fin n → WithTop Nat} (hM : s.Under M) (c : Fin n) : M c ≤ s.greatest c := by
  refine (?_ : ∀ c, M c ≤ s.greatest c) c
  refine solve_keeps (I := fun L => ∀ c, M c ≤ L c) (fun L c hc hI _ e => ?_) (n + 2) hM.le_start
  by_cases hec : e = c
  · rw [hec, Function.update_self]
    exact (hM.waiting c (mem_waitingCores.mp hc)).trans (eqOf_mono hI c)
  · rw [Function.update_of_ne hec]
    exact hI e

theorem greatest_solution (s : Cores n N) : s.Solution s.greatest := by
  refine ⟨fun c hc => le_antisymm ?_ ?_, fun c hc => solve_of_not_mem (fun hm => hc (mem_waitingCores.mp hm)) _⟩
  · exact solve_le (fun _ _ => le_refl _) eqOf_levelled (fun _ _ => Or.inl fun _ _ => rfl)
      (by have := s.waitingCores_length; omega) (mem_waitingCores.mpr hc)
  · refine (?_ : ∀ c, s.st c = .waiting → s.eqOf s.greatest c ≤ s.greatest c) c hc
    refine solve_keeps (I := fun L => ∀ c, s.st c = .waiting → s.eqOf L c ≤ L c) (fun L c _ hI hlt e he => ?_) (n + 2)
      (fun c hc => by rw [bounds₀_of_waiting hc]; exact le_top)
    have hless : ∀ r, Function.update L c (s.eqOf L c) r ≤ L r := by
      intro r
      by_cases hrc : r = c
      · rw [hrc, Function.update_self]
        exact hlt.le
      · rw [Function.update_of_ne hrc]
    by_cases hec : e = c
    · subst hec
      rw [Function.update_self]
      exact eqOf_mono hless e
    · rw [Function.update_of_ne hec]
      exact (eqOf_mono hless e).trans (hI e he)

open Classical in
/-- **A bound of the greatest solution is at most `m` only where a chain of waits leads on by then.** -/
theorem within_of_greatest (h : s.greatest d ≤ m) : s.Within m d := by
  by_contra hno
  have hg := greatest_solution s
  -- without a chain a bound could be later
  have hunder : s.Under fun e => if s.Within m e then s.greatest e else max (s.greatest e) (m + 1 : Nat) := by
    have hmore : ∀ e, s.greatest e ≤ if s.Within m e then s.greatest e else max (s.greatest e) (m + 1 : Nat) := by
      intro e
      split
      · exact le_refl _
      · exact le_max_left _ _
    refine ⟨fun c hc => ?_, fun c hc => ?_⟩
    · have hle := (hg.waiting c hc).le.trans (eqOf_mono hmore c)
      split
      · exact hle
      · next hnot =>
        refine max_le hle (le_of_levels fun v hv => ?_)
        obtain ⟨hearly, x, hx, hb⟩ := eqOf_le_iff.mp hv
        refine coe_le.mpr (Nat.succ_le_of_lt (Nat.lt_of_not_le fun hvm => hnot ?_))
        have hem := Nat.le_trans hearly hvm
        cases x with
        | posted t => exact .posted hc hem hx (Nat.le_trans (coe_le.mp hb) hvm)
        | rank r =>
          rcases hcore : s.coreOfRank r with _ | d
          · exact .unplaced hc hem hx hcore
          · refine .waits hc hem hx hcore ?_
            by_contra hd
            have hb' := (lrank_some hcore).ge.trans hb
            rw [if_neg hd] at hb'
            have := coe_le.mp ((le_max_right _ _).trans hb')
            omega
    · rw [← hg.others c hc]
      split
      · exact le_refl _
      · next hnot =>
        rw [hg.others c hc]
        unfold bounds₀
        split
        · next hact =>
          refine max_le (le_refl _) (coe_le.mpr (Nat.succ_le_of_lt (Nat.lt_of_not_le fun hle => hnot (.acts hact hle))))
        · exact le_top
  have hd := le_greatest hunder d
  rw [if_neg hno] at hd
  have := coe_le.mp ((le_max_right _ _).trans (hd.trans h))
  omega

/-- The first core to be visited is at most what the map makes of the bounds at the start. -/
theorem bounds_first {n : Nat} {s : Cores (n + 1) N} (h : s.st 0 = .waiting) : s.bounds 0 ≤ s.wakeOf s.bounds₀ 0 := by
  have hhead : s.waitingCores = 0 :: ((List.finRange n).map Fin.succ).filter fun c => s.st c = .waiting := by
    unfold waitingCores
    rw [List.finRange_succ, List.filter_cons_of_pos (by simpa using h)]
  exact solve_head_le hhead _

theorem Solved.answered (h : s.Solved) : s.Answered := by
  intro c me k hst hbar
  by_contra hno
  push Not at hno
  obtain ⟨n, rfl⟩ : ∃ j, n = j + 1 := ⟨n - 1, by have := c.pos; omega⟩
  -- the core becomes the first
  obtain ⟨σ, hσ⟩ : ∃ σ : Equiv.Perm (Fin (n + 1)), σ c = 0 := ⟨Equiv.swap c 0, Equiv.swap_apply_left c 0⟩
  have hearly : s.bounds c ≤ s.earliest c := by
    have hst' : (s.renumber σ).st 0 = .waiting := by rw [← hσ, st_renumber, hst]
    have hfirst := bounds_first hst'
    rw [← hσ, wakeOf_renumber, (h.renumbered σ).1 c] at hfirst
    simp only [bounds₀_renumber] at hfirst
    rw [hbar.wakeOf_first fun r hr => (hno r hr).1] at hfirst
    exact hfirst
  -- so a missing rank has a bound as early, and a chain of waits from it
  rw [h.solution.waiting c hst] at hearly
  obtain ⟨-, x, hx, hb⟩ := eqOf_le_iff.mp hearly
  rw [hbar.releases] at hx
  obtain ⟨r, hr, rfl⟩ := List.mem_map.mp hx
  obtain ⟨htop, hchain⟩ := hno r hr
  rcases hcore : s.coreOfRank r with _ | d
  · rw [lrank_none hcore] at htop
    exact WithTop.zero_ne_top htop
  · refine hchain d hcore (within_of_greatest ?_)
    exact (h.greatest _ (greatest_solution s) d).trans ((lrank_some hcore).ge.trans hb)

/-- **The passes leave the greatest solution of the equations, whatever the numbers of the cores, exactly where every
wait at a barrier is answered: a missing rank acts, or a chain of waits leads from it on by the core's own clock and the
arrivals so far.** -/
theorem solved_iff_answered (s : Cores n N) : s.Solved ↔ s.Answered := ⟨Solved.answered, Answered.solved⟩

/-- Rank 0 is at a barrier since 10. Rank 1 waits for rank 2, whose message was posted at 100, and rank 2 at 105 waits for
rank 1. -/
def early : Cores 3 3 where
  st _ := .waiting
  rr c := if c.val = 2 then 105 else 10
  dl _ := 0
  info c := some (c, if c.val = 0 then .barrier 1 else .recv (some (if c.val = 1 then Fin.last 2 else (Fin.last 1).castSucc)))
  rankKnown _ := true
  coreOfRank r := some r
  rankBarGen r := if r.val = 0 then 1 else 0
  cutWakeGen := 0
  cutWakeMsgs src dst := if src.val = 2 ∧ dst.val = 1 then [⟨100, 0⟩] else []
  cutWakeBars k := if k = 1 then some { arr := 1, maxArr := 10 } else none

theorem early_not_solved : ¬ early.Solved := by
  intro h
  have heq := h.solution.waiting 0 rfl
  have hbound : early.bounds 0 = (10 : Nat) := by decide +kernel
  have heqOf : early.eqOf early.bounds 0 = (100 : Nat) := by decide +kernel
  rw [hbound, heqOf] at heq
  exact absurd heq (by decide)

end Pimid.Cut.Cores
