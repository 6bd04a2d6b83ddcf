import Pimid.Dram.DqLanes

/-!
# The counts of a line are its definition's

What a word adds is what its eight bytes add one by one, and the loops over words and over the
rest split the bytes and the pairs without gap or overlap.
-/

namespace Pimid.Dram

open Finset

variable {b : Nat → BitVec 8} {n : Nat}

/-! ## One byte -/

theorem pop_not (b : BitVec 8) : pimidPop8 (~~~b) = 8 - pimidPop8 b := by
  revert b
  decide +kernel

theorem podLow_eq (b : BitVec 8) : podLow b = if podInverts b then pimidPop8 b + 1 else 8 - pimidPop8 b := by
  have hle := pimidPop8_le b
  unfold podLow encoded
  split
  · next h =>
    rw [h, pop_not]
    show 8 - (8 - pimidPop8 b) + 1 = _
    omega
  · next h =>
    rw [Bool.eq_false_iff.mpr h]
    rfl

theorem lvstlHigh_eq (b : BitVec 8) : lvstlHigh b = if lvstlInverts b then 8 - pimidPop8 b + 1 else pimidPop8 b := by
  unfold lvstlHigh encoded
  split
  · next h =>
    rw [h, pop_not]
    rfl
  · next h =>
    rw [Bool.eq_false_iff.mpr h]
    rfl

/-! ## The bytes -/

/-- The first `i` bytes are encoded and counted. -/
structure Encoded (b : Nat → BitVec 8) (i : Nat) (s : DqLine) : Prop where
  o : s.o = ∑ j ∈ range i, pimidPop8 (b j)
  lp : s.lp = ∑ j ∈ range i, podLow (b j)
  hl : s.hl = ∑ j ∈ range i, lvstlHigh (b j)
  ip : s.ip = ∑ j ∈ range i, (podInverts (b j)).toNat
  il : s.il = ∑ j ∈ range i, (lvstlInverts (b j)).toNat
  ep : ∀ j < i, s.ep j = encoded podInverts (b j)
  el : ∀ j < i, s.el j = encoded lvstlInverts (b j)
  fp : ∀ j < i, s.fp j = podInverts (b j)
  fl : ∀ j < i, s.fl j = lvstlInverts (b j)

theorem update_lt {α : Type} {a : Nat → α} {f : Nat → α} {i : Nat} (h : ∀ j < i, a j = f j) :
    ∀ j < i + 1, Function.update a i (f i) j = f j := by
  intro j hj
  by_cases hji : j = i
  · rw [hji, Function.update_self]
  · rw [Function.update_of_ne hji]
    exact h j (by omega)

theorem Encoded.byte {s : DqLine} {i : Nat} (h : Encoded b i s) : Encoded b (i + 1) (DqLine.byte b s i) := by
  refine ⟨?_, ?_, ?_, ?_, ?_, update_lt h.ep, update_lt h.el, update_lt h.fp, update_lt h.fl⟩
  · rw [sum_range_succ, ← h.o]
    rfl
  · rw [sum_range_succ, ← h.lp, podLow_eq]
    rfl
  · rw [sum_range_succ, ← h.hl, lvstlHigh_eq]
    rfl
  · rw [sum_range_succ, ← h.ip]
    rfl
  · rw [sum_range_succ, ← h.il]
    rfl

theorem put8_lt {α : Type} {a x f : Nat → α} {i : Nat} (h : ∀ j < i, a j = f j) (hx : ∀ k < 8, x k = f (i + k)) :
    ∀ j < i + 8, put8 a i x j = f j := by
  intro j hj
  unfold put8
  split
  · next hin =>
    rw [hx _ (by omega)]
    congr 1
    omega
  · exact h j (by omega)

theorem masked_sum {c m : BitVec 64} {f : Nat → Nat} {i : Nat → Bool} (hc : ∀ k < 8, (lane c k).toNat = f k)
    (hf : ∀ k < 8, f k ≤ 8) (hm : ∀ k < 8, lane m k = if i k then 0xFF#8 else 0#8) :
    (((c &&& m) * 0x0101010101010101#64) >>> 56).toNat = ∑ k ∈ range 8, if i k then f k else 0 := by
  refine gather (fun k hk => ?_) fun k hk => ?_
  · rw [lane_and, hm k hk]
    split
    · rw [← hc k hk, show 0xFF#8 = BitVec.allOnes 8 from rfl, BitVec.and_allOnes]
    · rw [BitVec.and_zero]
      rfl
  · split
    · exact hf k hk
    · exact Nat.zero_le 8

theorem u32_sum {x : Int} {g : Nat → Nat} (hg : ∀ k < 8, g k ≤ 9) (hx : x = ∑ k ∈ range 8, (g k : Int)) :
    u32 x = ∑ k ∈ range 8, g k := by
  have hle : ∑ k ∈ range 8, g k ≤ ∑ _k ∈ range 8, 9 := sum_le_sum fun k hk => hg k (mem_range.mp hk)
  have hbound : ∑ _k ∈ range 8, 9 = 72 := rfl
  rw [← Nat.cast_sum] at hx
  unfold u32
  omega

/-- What a word counts under POD: `c + 1` on inverted bytes, `8 - c` on the others. -/
theorem podWord {f : Nat → Nat} {i : Nat → Bool} (hf : ∀ k < 8, f k ≤ 8) :
    u32 (((∑ k ∈ range 8, if i k then f k else 0 : Nat) : Int) + (∑ k ∈ range 8, (i k).toNat : Nat) +
      (8 * (8 - (∑ k ∈ range 8, (i k).toNat : Nat)) - ((∑ k ∈ range 8, f k : Nat) -
        (∑ k ∈ range 8, if i k then f k else 0 : Nat)))) = ∑ k ∈ range 8, if i k then f k + 1 else 8 - f k := by
  refine u32_sum (fun k hk => ?_) ?_
  · have := hf k hk
    split <;> omega
  have hlane : ∀ k ∈ range 8, ((if i k then f k + 1 else 8 - f k : Nat) : Int) =
      (if i k then f k else 0 : Nat) + ((i k).toNat : Nat) + (8 - 8 * ((i k).toNat : Nat)) -
        (f k - (if i k then f k else 0 : Nat)) := by
    intro k hk
    have := hf k (mem_range.mp hk)
    cases i k
    · simp only [Bool.false_eq_true, if_false, Bool.toNat_false]
      omega
    · simp only [if_true, Bool.toNat_true]
      omega
  rw [sum_congr rfl hlane]
  simp only [sum_add_distrib, sum_sub_distrib, ← mul_sum, ← Nat.cast_sum]
  rw [sum_const, card_range, show (8 • 8 : Int) = 64 from rfl]
  omega

/-- What a word counts under LVSTL: `9 - c` on inverted bytes, `c` on the others. -/
theorem lvstlWord {f : Nat → Nat} {i : Nat → Bool} (hf : ∀ k < 8, f k ≤ 8) :
    u32 ((9 * ((∑ k ∈ range 8, (i k).toNat : Nat) : Int) - (∑ k ∈ range 8, if i k then f k else 0 : Nat)) +
      ((∑ k ∈ range 8, f k : Nat) - (∑ k ∈ range 8, if i k then f k else 0 : Nat))) =
      ∑ k ∈ range 8, if i k then 8 - f k + 1 else f k := by
  refine u32_sum (fun k hk => ?_) ?_
  · have := hf k hk
    split <;> omega
  have hlane : ∀ k ∈ range 8, ((if i k then 8 - f k + 1 else f k : Nat) : Int) =
      9 * ((i k).toNat : Nat) - (if i k then f k else 0 : Nat) + (f k - (if i k then f k else 0 : Nat)) := by
    intro k hk
    have := hf k (mem_range.mp hk)
    cases i k
    · simp only [Bool.false_eq_true, if_false, Bool.toNat_false]
      omega
    · simp only [if_true, Bool.toNat_true]
      omega
  rw [sum_congr rfl hlane]
  simp only [sum_add_distrib, sum_sub_distrib, ← mul_sum, ← Nat.cast_sum]

/-! ## Eight bytes -/

theorem sum_add_eight (f : Nat → Nat) (i : Nat) :
    ∑ j ∈ range (i + 8), f j = ∑ j ∈ range i, f j + ∑ k ∈ range 8, f (i + k) := sum_range_add f i 8

/-- The masked exclusive or is the encoding of each byte. -/
theorem lane_encoded {v m : BitVec 64} {inverts : BitVec 8 → Bool} {k : Nat}
    (hm : lane m k = if inverts (lane v k) then 0xFF#8 else 0#8) : lane (v ^^^ m) k = encoded inverts (lane v k) := by
  rw [lane_xor, hm]
  unfold encoded
  split
  · exact BitVec.xor_allOnes
  · exact BitVec.xor_zero

theorem Encoded.word {s : DqLine} {i : Nat} (h : Encoded b i s) : Encoded b (i + 8) (DqLine.word b s i) := by
  have hlane : ∀ k < 8, lane (pimidLoad64 b i) k = b (i + k) := fun k hk => lane_load i hk
  have hpop : ∀ k < 8, (lane (pimidLanePop (pimidLoad64 b i)) k).toNat = pimidPop8 (b (i + k)) := by
    intro k hk
    rw [lane_pimidLanePop _ hk, hlane k hk]
  have hpod := podFlags (pimidLoad64 b i)
  have hlv := lvstlFlags (pimidLoad64 b i)
  unfold DqLine.word
  dsimp only
  generalize hpH : ~~~(((pimidLanePop (pimidLoad64 b i) &&& 0x0C0C0C0C0C0C0C0C#64) + 0x7F7F7F7F7F7F7F7F#64) &&&
    0x8080808080808080#64) &&& 0x8080808080808080#64 = pH at *
  generalize hlH : (pimidLanePop (pimidLoad64 b i) + 0x0303030303030303#64) <<< 4 &&& 0x8080808080808080#64 = lH at *
  have hf : ∀ k < 8, pimidPop8 (b (i + k)) ≤ 8 := fun k _ => pimidPop8_le _
  have hpM : ∀ k < 8, lane (pH >>> 7 * 0xFF#64) k = if podInverts (b (i + k)) then 0xFF#8 else 0#8 := by
    intro k hk
    rw [hpod.mask hk, hlane k hk]
  have hlM : ∀ k < 8, lane (lH >>> 7 * 0xFF#64) k = if lvstlInverts (b (i + k)) then 0xFF#8 else 0#8 := by
    intro k hk
    rw [hlv.mask hk, hlane k hk]
  have hnp : pimidPop64 pH = ∑ k ∈ range 8, (podInverts (b (i + k))).toNat := by
    rw [hpod.pop]
    exact sum_congr rfl fun k hk => by rw [hlane k (mem_range.mp hk)]
  have hnl : pimidPop64 lH = ∑ k ∈ range 8, (lvstlInverts (b (i + k))).toNat := by
    rw [hlv.pop]
    exact sum_congr rfl fun k hk => by rw [hlane k (mem_range.mp hk)]
  refine ⟨?_, ?_, ?_, ?_, ?_, ?_, ?_, ?_, ?_⟩
  · rw [sum_add_eight (fun j => pimidPop8 (b j)), ← h.o, ← gather hpop hf]
  · dsimp only
    rw [gather hpop hf, masked_sum hpop hf hpM, hnp, podWord hf, sum_add_eight (fun j => podLow (b j)), ← h.lp]
    simp only [podLow_eq]
  · dsimp only
    rw [gather hpop hf, masked_sum hpop hf hlM, hnl, lvstlWord hf, sum_add_eight (fun j => lvstlHigh (b j)), ← h.hl]
    simp only [lvstlHigh_eq]
  · dsimp only
    rw [hnp, sum_add_eight (fun j => (podInverts (b j)).toNat), ← h.ip]
  · dsimp only
    rw [hnl, sum_add_eight (fun j => (lvstlInverts (b j)).toNat), ← h.il]
  · refine put8_lt h.ep fun k hk => ?_
    rw [lane_encoded (by rw [hpM k hk, hlane k hk]), hlane k hk]
  · refine put8_lt h.el fun k hk => ?_
    rw [lane_encoded (by rw [hlM k hk, hlane k hk]), hlane k hk]
  · dsimp only
    refine put8_lt h.fp fun k hk => ?_
    rw [hpod.bit hk, hlane k hk]
  · dsimp only
    refine put8_lt h.fl fun k hk => ?_
    rw [hlv.bit hk, hlane k hk]

theorem encode_spec (b : Nat → BitVec 8) (n : Nat) : Encoded b n (encode b n) := by
  have hwords (m : Nat) : Encoded b (8 * m) ((List.range m).foldl (fun s m => DqLine.word b s (8 * m)) {}) := by
    induction m with
    | zero => exact ⟨rfl, rfl, rfl, rfl, rfl, fun _ h => absurd h (Nat.not_lt_zero _), fun _ h => absurd h (Nat.not_lt_zero _),
        fun _ h => absurd h (Nat.not_lt_zero _), fun _ h => absurd h (Nat.not_lt_zero _)⟩
    | succ m ih =>
      rw [List.range_succ, List.foldl_append]
      exact ih.word
  have hbytes (r : Nat) {s : DqLine} {i : Nat} (h : Encoded b i s) :
      Encoded b (i + r) ((List.range' i r).foldl (DqLine.byte b) s) := by
    induction r with
    | zero => exact h
    | succ r ih =>
      rw [List.range'_concat, List.foldl_append, Nat.one_mul]
      exact ih.byte
  have h := hbytes (n % 8) (hwords (n / 8))
  unfold encode
  rwa [Nat.mul_comm 8, Nat.div_add_mod'] at h

/-! ## The pairs -/

/-- The pairs of the first `i` bytes are counted. -/
structure Toggled (b : Nat → BitVec 8) (w i : Nat) (s : Toggles) : Prop where
  t : s.t = ∑ j ∈ range i, pimidPop8 (b j ^^^ b (j + w))
  tp : s.tp = ∑ j ∈ range i, changes podInverts (b j) (b (j + w))
  tl : s.tl = ∑ j ∈ range i, changes lvstlInverts (b j) (b (j + w))

theorem pop_load_xor (b : Nat → BitVec 8) (i w : Nat) :
    pimidPop64 (pimidLoad64 b i ^^^ pimidLoad64 b (i + w)) = ∑ k ∈ range 8, pimidPop8 (b (i + k) ^^^ b (i + k + w)) := by
  rw [pimidPop64_eq]
  refine sum_congr rfl fun k hk => ?_
  rw [lane_xor, lane_load i (mem_range.mp hk), lane_load (i + w) (mem_range.mp hk), Nat.add_right_comm]

theorem changes_word {inverts : BitVec 8 → Bool} {e : Nat → BitVec 8} {f : Nat → Bool} {i w : Nat}
    (he : ∀ j < n, e j = encoded inverts (b j)) (hf : ∀ j < n, f j = inverts (b j)) (hi : i + w + 8 ≤ n) :
    pimidPop64 (pimidLoad64 e i ^^^ pimidLoad64 e (i + w)) +
      ((List.range 8).map fun k => (f (i + k) != f (i + k + w)).toNat).sum =
      ∑ k ∈ range 8, changes inverts (b (i + k)) (b (i + k + w)) := by
  have hlist : ((List.range 8).map fun k => (f (i + k) != f (i + k + w)).toNat).sum =
      ∑ k ∈ range 8, (f (i + k) != f (i + k + w)).toNat := rfl
  rw [pop_load_xor, hlist, ← sum_add_distrib]
  refine sum_congr rfl fun k hk => ?_
  have hk := mem_range.mp hk
  rw [he (i + k) (by omega), he (i + k + w) (by omega), hf (i + k) (by omega), hf (i + k + w) (by omega)]
  rfl

theorem Toggled.word {e : DqLine} {s : Toggles} {w i : Nat} (h : Toggled b w i s) (he : Encoded b n e)
    (hi : i + w + 8 ≤ n) : Toggled b w (i + 8) (Toggles.word b e w s i) := by
  refine ⟨?_, ?_, ?_⟩
  · rw [sum_add_eight fun j => pimidPop8 (b j ^^^ b (j + w)), ← h.t, ← pop_load_xor]
    rfl
  · rw [sum_add_eight fun j => changes podInverts (b j) (b (j + w)), ← h.tp, ← changes_word he.ep he.fp hi, ← Nat.add_assoc]
    rfl
  · rw [sum_add_eight fun j => changes lvstlInverts (b j) (b (j + w)), ← h.tl, ← changes_word he.el he.fl hi, ← Nat.add_assoc]
    rfl

theorem Toggled.byte {e : DqLine} {s : Toggles} {w i : Nat} (h : Toggled b w i s) (he : Encoded b n e)
    (hi : i + w < n) : Toggled b w (i + 1) (Toggles.byte b e w s i) := by
  refine ⟨?_, ?_, ?_⟩
  · rw [sum_range_succ, ← h.t]
    rfl
  · rw [sum_range_succ, ← h.tp]
    unfold changes
    rw [← he.ep i (by omega), ← he.ep (i + w) hi, ← he.fp i (by omega), ← he.fp (i + w) hi]
    rfl
  · rw [sum_range_succ, ← h.tl]
    unfold changes
    rw [← he.el i (by omega), ← he.el (i + w) hi, ← he.fl i (by omega), ← he.fl (i + w) hi]
    rfl

theorem pairs_spec {e : DqLine} (he : Encoded b n e) (w : Nat) : Toggled b w (n - w) (pairs b n w e) := by
  have hwords (m : Nat) (hm : m ≤ (n - w) / 8) :
      Toggled b w (8 * m) ((List.range m).foldl (fun s m => Toggles.word b e w s (8 * m)) {}) := by
    induction m with
    | zero => exact ⟨rfl, rfl, rfl⟩
    | succ m ih =>
      rw [List.range_succ, List.foldl_append]
      exact (ih (by omega)).word he (by omega)
  have hbytes (r : Nat) {s : Toggles} {i : Nat} (h : Toggled b w i s) (hr : i + r ≤ n - w) :
      Toggled b w (i + r) ((List.range' i r).foldl (Toggles.byte b e w) s) := by
    induction r with
    | zero => exact h
    | succ r ih =>
      rw [List.range'_concat, List.foldl_append, Nat.one_mul]
      exact (ih (by omega)).byte he (by omega)
  have h := hbytes (n - w - (n - w) / 8 * 8) (hwords _ (Nat.le_refl _)) (by omega)
  unfold pairs
  rwa [Nat.mul_comm 8, Nat.add_sub_cancel' (Nat.div_mul_le_self _ _)] at h

/-- **A line of at most 256 bytes adds what the definitions count**, in its own direction, and
changes nothing else. -/
theorem countBytes_counts (st : DqDataStats) (b : Nat → BitVec 8) (n : Nat) (isWrite : Bool) (hn : n ≤ 256) :
    st.countBytes b n isWrite = { st with
      lines := inc st.lines isWrite 1
      ones := inc st.ones isWrite (∑ i ∈ range n, pimidPop8 (b i))
      lowPodDbi := inc st.lowPodDbi isWrite (∑ i ∈ range n, podLow (b i))
      highLvstlDbi := inc st.highLvstlDbi isWrite (∑ i ∈ range n, lvstlHigh (b i))
      invPod := inc st.invPod isWrite (∑ i ∈ range n, (podInverts (b i)).toNat)
      invLvstl := inc st.invLvstl isWrite (∑ i ∈ range n, (lvstlInverts (b i)).toNat)
      toggles := inc st.toggles isWrite
        (∑ i ∈ range n with i + beatOf st.beatBytes n < n, pimidPop8 (b i ^^^ b (i + beatOf st.beatBytes n)))
      togglesPodDbi := inc st.togglesPodDbi isWrite
        (∑ i ∈ range n with i + beatOf st.beatBytes n < n, changes podInverts (b i) (b (i + beatOf st.beatBytes n)))
      togglesLvstlDbi := inc st.togglesLvstlDbi isWrite
        (∑ i ∈ range n with i + beatOf st.beatBytes n < n,
          changes lvstlInverts (b i) (b (i + beatOf st.beatBytes n))) } := by
  have he := encode_spec b n
  have hs := pairs_spec he (beatOf st.beatBytes n)
  have hrange : (range n).filter (fun i => i + beatOf st.beatBytes n < n) = range (n - beatOf st.beatBytes n) := by
    ext i
    rw [mem_filter, mem_range, mem_range]
    omega
  unfold DqDataStats.countBytes
  rw [if_neg (by omega), hrange, ← he.o, ← he.lp, ← he.hl, ← he.ip, ← he.il, ← hs.t, ← hs.tp, ← hs.tl]

theorem countBytes_counts_line : ({} : DqDataStats).countBytes (fun i => BitVec.ofNat 8 i) 12 true =
    { lines := inc (fun _ => 0) true 1
      ones := inc (fun _ => 0) true (∑ i ∈ range 12, pimidPop8 (BitVec.ofNat 8 i))
      lowPodDbi := inc (fun _ => 0) true (∑ i ∈ range 12, podLow (BitVec.ofNat 8 i))
      highLvstlDbi := inc (fun _ => 0) true (∑ i ∈ range 12, lvstlHigh (BitVec.ofNat 8 i))
      invPod := inc (fun _ => 0) true (∑ i ∈ range 12, (podInverts (BitVec.ofNat 8 i)).toNat)
      invLvstl := inc (fun _ => 0) true (∑ i ∈ range 12, (lvstlInverts (BitVec.ofNat 8 i)).toNat)
      toggles := inc (fun _ => 0) true
        (∑ i ∈ range 12 with i + beatOf 8 12 < 12, pimidPop8 (BitVec.ofNat 8 i ^^^ BitVec.ofNat 8 (i + beatOf 8 12)))
      togglesPodDbi := inc (fun _ => 0) true
        (∑ i ∈ range 12 with i + beatOf 8 12 < 12, changes podInverts (BitVec.ofNat 8 i) (BitVec.ofNat 8 (i + beatOf 8 12)))
      togglesLvstlDbi := inc (fun _ => 0) true
        (∑ i ∈ range 12 with i + beatOf 8 12 < 12,
          changes lvstlInverts (BitVec.ofNat 8 i) (BitVec.ofNat 8 (i + beatOf 8 12))) } :=
  countBytes_counts {} (fun i => BitVec.ofNat 8 i) 12 true (by decide)

end Pimid.Dram
