import Pimid.Host.Ring

/-!
# Where the stops are

Core `i` stands at stop `i + i * mcs / cores`; controller `m` comes right after the first
`share m` cores, `share m` being its part of the cores rounded up. From the two closed
forms: every stop is dealt once, both lists rise, and between one controller and the next
there are as many cores as an even spread allows.
-/

namespace Pimid.Host

/-- How many cores stand before controller `m`: the fewest with `(m + 1) * cores ≤ share m * mcs`. -/
def share (cores mcs m : Nat) : Nat := ((m + 1) * cores + mcs - 1) / mcs

section Share

variable {C M : Nat}

theorem share_le_iff (hM : 0 < M) (m n : Nat) : share C M m ≤ n ↔ (m + 1) * C ≤ n * M := by
  unfold share
  rw [Nat.div_le_iff_le_mul_add_pred hM, Nat.mul_comm M n]
  omega

theorem share_le (hM : 0 < M) {m : Nat} (hm : m < M) : share C M m ≤ C := by
  rw [share_le_iff hM, Nat.mul_comm C M]
  exact Nat.mul_le_mul_right C hm

theorem share_eq (hC : 0 < C) (hM : 0 < M) {m c : Nat} (hlo : c * M / C ≤ m) (hhi : m < (c + 1) * M / C) :
    share C M m = c + 1 := by
  have hle : share C M m ≤ c + 1 := by
    rw [share_le_iff hM]
    exact (Nat.le_div_iff_mul_le hC).mp hhi
  have hgt : ¬ share C M m ≤ c := by
    rw [share_le_iff hM, ← Nat.le_div_iff_mul_le hC]
    omega
  omega

/-- A core stands before a controller exactly when it is one of the controller's share. -/
theorem core_lt_mc_iff (hC : 0 < C) (hM : 0 < M) (i m : Nat) :
    i + i * M / C < share C M m + m ↔ i < share C M m := by
  have hdiv : i < share C M m ↔ i * M / C ≤ m := by
    rw [← Nat.not_le, share_le_iff hM, ← Nat.le_div_iff_mul_le hC]
    omega
  rw [hdiv]
  by_cases h : i * M / C ≤ m
  · have := hdiv.mpr h
    omega
  · have : ¬ i < share C M m := fun hi => h (hdiv.mp hi)
    omega

/-- Two controllers in a row stand a whole share apart, rounded down or up. -/
theorem share_step (hM : 0 < M) (m : Nat) :
    share C M (m + 1) - share C M m = C / M ∨ share C M (m + 1) - share C M m = (C + M - 1) / M := by
  obtain ⟨u, hu⟩ : ∃ u, share C M m = u := ⟨_, rfl⟩
  obtain ⟨v, hv⟩ : ∃ v, share C M (m + 1) = v := ⟨_, rfl⟩
  have hbound (n s : Nat) (h : share C M n = s) : (n + 1) * C ≤ s * M ∧ (s * M < (n + 1) * C + M) := by
    refine ⟨(share_le_iff hM n s).mp (Nat.le_of_eq h), ?_⟩
    by_contra hge
    rw [Nat.not_lt] at hge
    have hpos : 1 ≤ s := by
      by_contra hs
      obtain rfl : s = 0 := by omega
      omega
    have hle : share C M n ≤ s - 1 := by
      rw [share_le_iff hM, Nat.sub_one_mul]
      omega
    omega
  obtain ⟨hu₁, hu₂⟩ := hbound m u hu
  obtain ⟨hv₁, hv₂⟩ := hbound (m + 1) v hv
  have hmul : (m + 1 + 1) * C = (m + 1) * C + C := Nat.succ_mul _ _
  rw [hmul] at hv₁ hv₂
  have huv : u ≤ v := by
    by_contra hlt
    have : (v + 1) * M ≤ u * M := Nat.mul_le_mul_right M (by omega)
    rw [Nat.succ_mul] at this
    omega
  obtain ⟨d, rfl⟩ : ∃ d, v = u + d := ⟨v - u, by omega⟩
  have hud : (u + d) * M = u * M + d * M := Nat.add_mul u d M
  rw [hud] at hv₁ hv₂
  rw [hu, hv, Nat.add_sub_cancel_left]
  have hlo : C / M ≤ d := by
    rw [← Nat.lt_succ_iff, Nat.div_lt_iff_lt_mul hM, Nat.succ_mul]
    omega
  have hhi : d ≤ (C + M - 1) / M := by
    rw [Nat.le_div_iff_mul_le hM]
    omega
  have hceil : (C + M - 1) / M ≤ C / M + 1 := by
    rw [← Nat.add_div_right C hM]
    exact Nat.div_le_div_right (by omega)
  omega

end Share

/-! ## The two loops -/

/-- The stops after the first `c` cores. -/
structure Dealt (C M c : Nat) (s : Stops) : Prop where
  pos : s.pos = c + c * M / C
  core : s.coreStop = (List.range c).map fun i => i + i * M / C
  mc : s.mcStop = (List.range (c * M / C)).map fun m => share C M m + m
  perm : (s.coreStop ++ s.mcStop).Perm (List.range s.pos)

variable {C M c : Nat} {s : Stops}

theorem addMcs_eq {due : Nat → Bool} {n fuel : Nat} (hn : n ≤ M) (hlen : s.mcStop.length ≤ n)
    (hdue : ∀ m < M, due m = true ↔ m < n) (hfuel : n - s.mcStop.length ≤ fuel) :
    s.addMcs M due fuel = { s with
      pos := s.pos + (n - s.mcStop.length)
      mcStop := s.mcStop ++ List.range' s.pos (n - s.mcStop.length) } := by
  induction fuel generalizing s with
  | zero =>
    rw [show n - s.mcStop.length = 0 by omega]
    simp [Stops.addMcs]
  | succ fuel ih =>
    unfold Stops.addMcs
    by_cases hlt : s.mcStop.length < n
    · rw [if_pos ⟨by omega, (hdue _ (by omega)).mpr hlt⟩]
      have hlen' : s.addMc.mcStop.length = s.mcStop.length + 1 := by
        show (s.mcStop ++ [s.pos]).length = _
        rw [List.length_append, List.length_singleton]
      rw [ih (by omega) (by omega), hlen']
      obtain ⟨k, hk⟩ : ∃ k, n - s.mcStop.length = k + 1 := ⟨n - s.mcStop.length - 1, by omega⟩
      rw [show n - (s.mcStop.length + 1) = k by omega, hk]
      show Stops.mk (s.pos + 1 + k) _ (s.mcStop ++ [s.pos] ++ List.range' (s.pos + 1) k) = _
      rw [List.range'_succ, List.append_assoc, List.singleton_append, Nat.add_assoc, Nat.add_comm 1 k]
      rfl
    · rw [if_neg fun h => hlt ((hdue _ h.1).mp h.2), show n - s.mcStop.length = 0 by omega]
      simp

theorem perm_range'_append {l : List Nat} {a n : Nat} (h : l.Perm (List.range a)) :
    (l ++ List.range' a n).Perm (List.range (a + n)) := by
  rw [List.range_add, ← List.range'_eq_map_range]
  exact h.append_right _

theorem Dealt.dealCore (hC : 0 < C) (hM : 0 < M) (h : Dealt C M c s) (hc : c < C) :
    Dealt C M (c + 1) (s.dealCore C M c) := by
  obtain ⟨n, hn⟩ : ∃ n, (c + 1) * M / C = n := ⟨_, rfl⟩
  obtain ⟨k, hk⟩ : ∃ k, c * M / C = k := ⟨_, rfl⟩
  have hkn : k ≤ n := hk ▸ hn ▸ Nat.div_le_div_right (Nat.mul_le_mul_right M (Nat.le_succ c))
  have hnM : n ≤ M := by
    rw [← hn]
    calc (c + 1) * M / C ≤ C * M / C := Nat.div_le_div_right (Nat.mul_le_mul_right M hc)
      _ = M := Nat.mul_div_cancel_left M hC
  have hlen : s.addCore.mcStop.length = k := by
    show s.mcStop.length = k
    rw [h.mc, List.length_map, List.length_range, hk]
  have heq : s.dealCore C M c = { s.addCore with
      pos := s.addCore.pos + (n - k)
      mcStop := s.addCore.mcStop ++ List.range' s.addCore.pos (n - k) } := by
    unfold Stops.dealCore
    rw [addMcs_eq hnM (by omega) (fun m _ => ?_) (by omega), hlen]
    rw [decide_eq_true_iff, ← hn, ← Nat.succ_le_iff, Nat.le_div_iff_mul_le hC]
  have hpos : s.addCore.pos = c + 1 + k := by
    show s.pos + 1 = _
    rw [h.pos, hk]
    omega
  rw [heq]
  refine ⟨?_, ?_, ?_, ?_⟩
  · show s.addCore.pos + (n - k) = c + 1 + (c + 1) * M / C
    omega
  · show s.coreStop ++ [s.pos] = _
    rw [h.core, h.pos, List.range_succ, List.map_append]
    rfl
  · show s.mcStop ++ List.range' s.addCore.pos (n - k) = _
    rw [h.mc, hpos, hn, hk]
    obtain ⟨j, rfl⟩ : ∃ j, n = k + j := ⟨n - k, by omega⟩
    rw [Nat.add_sub_cancel_left, List.range_add, List.map_append, List.map_map, List.range'_eq_map_range]
    refine congrArg _ (List.map_congr_left fun i hi => ?_)
    have hi := List.mem_range.mp hi
    show c + 1 + k + i = share C M (k + i) + (k + i)
    rw [share_eq hC hM (by omega : c * M / C ≤ k + i) (by omega)]
    omega
  · show ((s.coreStop ++ [s.pos]) ++ (s.mcStop ++ List.range' (s.pos + 1) (n - k))).Perm (List.range (s.pos + 1 + (n - k)))
    have hone : (s.coreStop ++ [s.pos] ++ s.mcStop).Perm (List.range (s.pos + 1)) := by
      rw [List.range_succ]
      refine List.Perm.trans ?_ (h.perm.append_right [s.pos])
      rw [List.append_assoc, List.append_assoc]
      exact List.perm_append_comm.append_left _
    rw [← List.append_assoc]
    exact perm_range'_append hone

theorem dealt_cores (hC : 0 < C) (hM : 0 < M) (hc : c ≤ C) :
    Dealt C M c ((List.range c).foldl (Stops.dealCore C M) {}) := by
  induction c with
  | zero => exact ⟨by simp, by simp, by simp, by simp⟩
  | succ c ih =>
    rw [List.range_succ, List.foldl_append]
    exact (ih (by omega)).dealCore hC hM (by omega)

/-- When the cores are dealt with, so are the controllers. -/
theorem dealt (hC : 0 < C) (hM : 0 < M) : Dealt C M C (Stops.deal C M) := by
  have h := dealt_cores hC hM (Nat.le_refl C)
  unfold Stops.deal
  have hlen : ((List.range C).foldl (Stops.dealCore C M) {}).mcStop.length = M := by
    rw [h.mc, List.length_map, List.length_range, Nat.mul_div_cancel_left M hC]
  rw [addMcs_eq (Nat.le_refl M) (Nat.le_of_eq hlen) (fun m hm => ⟨fun _ => hm, fun _ => rfl⟩) (by omega), hlen, Nat.sub_self]
  simpa using h

end Pimid.Host
