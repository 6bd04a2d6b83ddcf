import Mathlib.Algebra.BigOperators.Ring.Finset
import Mathlib.Data.BitVec
import Mathlib.Tactic.IntervalCases

/-!
# Eight bytes in a word

A 64-bit word as eight lanes of a byte each. Bit operations act on the lanes, and so does
arithmetic that carries nothing from a lane into the next. A product with
`0x0101010101010101` gathers the sum of the lanes in the last one.
-/

namespace Pimid

open Finset

/-- Byte `k` of a word. -/
def lane (x : BitVec 64) (k : Nat) : BitVec 8 := x.extractLsb' (8 * k) 8

/-- The number with these lanes. -/
def ofLanes (d : Nat → Nat) : Nat := ∑ k ∈ range 8, d k * 256 ^ k

/-- The word with these bytes. -/
def word (b : Nat → BitVec 8) : BitVec 64 := BitVec.ofNat 64 (ofLanes fun k => (b k).toNat)

variable {x y : BitVec 64} {d e : Nat → Nat} {k : Nat}

theorem ofLanes_eq (d : Nat → Nat) : ofLanes d = d 0 + d 1 * 2 ^ 8 + d 2 * 2 ^ 16 + d 3 * 2 ^ 24 + d 4 * 2 ^ 32 +
    d 5 * 2 ^ 40 + d 6 * 2 ^ 48 + d 7 * 2 ^ 56 := by
  simp [ofLanes, sum_range_succ]

theorem ofLanes_add (d e : Nat → Nat) : ofLanes d + ofLanes e = ofLanes fun k => d k + e k := by
  unfold ofLanes
  rw [← sum_add_distrib]
  exact sum_congr rfl fun k _ => (Nat.add_mul _ _ _).symm

theorem ofLanes_mul (d : Nat → Nat) (c : Nat) : ofLanes d * c = ofLanes fun k => d k * c := by
  unfold ofLanes
  rw [sum_mul]
  exact sum_congr rfl fun k _ => Nat.mul_right_comm _ _ _

theorem ofLanes_congr (h : ∀ k < 8, d k = e k) : ofLanes d = ofLanes e :=
  sum_congr rfl fun k hk => by rw [h k (mem_range.mp hk)]

theorem ofLanes_lt (h : ∀ k < 8, d k < 256) : ofLanes d < 2 ^ 64 := by
  rw [ofLanes_eq]
  have := h 0 (by decide)
  have := h 1 (by decide)
  have := h 2 (by decide)
  have := h 3 (by decide)
  have := h 4 (by decide)
  have := h 5 (by decide)
  have := h 6 (by decide)
  have := h 7 (by decide)
  omega

theorem lane_toNat (x : BitVec 64) (k : Nat) : (lane x k).toNat = x.toNat / 2 ^ (8 * k) % 256 := by
  rw [lane, BitVec.extractLsb'_toNat, Nat.shiftRight_eq_div_pow]

theorem lane_lt (x : BitVec 64) (k : Nat) : (lane x k).toNat < 256 := (lane x k).isLt

theorem toNat_eq_ofLanes (x : BitVec 64) : x.toNat = ofLanes fun k => (lane x k).toNat := by
  have hlt := x.isLt
  simp only [ofLanes_eq, lane_toNat]
  generalize x.toNat = n at *
  omega

theorem lane_of_toNat (hx : x.toNat = ofLanes d) (hd : ∀ k < 8, d k < 256) (hk : k < 8) : (lane x k).toNat = d k := by
  rw [lane_toNat, hx, ofLanes_eq]
  have := hd 0 (by decide)
  have := hd 1 (by decide)
  have := hd 2 (by decide)
  have := hd 3 (by decide)
  have := hd 4 (by decide)
  have := hd 5 (by decide)
  have := hd 6 (by decide)
  have := hd 7 (by decide)
  interval_cases k <;> omega

theorem lane_word (b : Nat → BitVec 8) (hk : k < 8) : lane (word b) k = b k := by
  have hd : ∀ k < 8, (b k).toNat < 256 := fun k _ => (b k).isLt
  refine BitVec.eq_of_toNat_eq (lane_of_toNat (d := fun k => (b k).toNat) ?_ hd hk)
  rw [word, BitVec.toNat_ofNat, Nat.mod_eq_of_lt (ofLanes_lt hd)]

/-! ## Lane by lane -/

theorem getLsbD_lane {i : Nat} (hi : i < 8) : (lane x k).getLsbD i = x.getLsbD (8 * k + i) := by
  rw [lane, BitVec.getLsbD_extractLsb', decide_eq_true hi, Bool.true_and]

theorem lane_and (x y : BitVec 64) (k : Nat) : lane (x &&& y) k = lane x k &&& lane y k := BitVec.extractLsb'_and

theorem lane_xor (x y : BitVec 64) (k : Nat) : lane (x ^^^ y) k = lane x k ^^^ lane y k := BitVec.extractLsb'_xor

theorem lane_not (x : BitVec 64) (hk : k < 8) : lane (~~~x) k = ~~~(lane x k) := by
  refine BitVec.eq_of_getLsbD_eq fun i hi => ?_
  rw [getLsbD_lane hi, BitVec.getLsbD_not, BitVec.getLsbD_not, getLsbD_lane hi, decide_eq_true hi,
    decide_eq_true (show 8 * k + i < 64 by omega)]

theorem lane_add (h : ∀ k < 8, (lane x k).toNat + (lane y k).toNat < 256) (hk : k < 8) :
    lane (x + y) k = lane x k + lane y k := by
  refine BitVec.eq_of_toNat_eq ?_
  rw [BitVec.toNat_add, Nat.mod_eq_of_lt (h k hk)]
  refine lane_of_toNat ?_ h hk
  rw [BitVec.toNat_add, toNat_eq_ofLanes x, toNat_eq_ofLanes y, ofLanes_add, Nat.mod_eq_of_lt (ofLanes_lt h)]

theorem lane_sub (h : ∀ k < 8, (lane y k).toNat ≤ (lane x k).toNat) (hk : k < 8) :
    lane (x - y) k = lane x k - lane y k := by
  have hsum : (ofLanes fun k => (lane x k).toNat - (lane y k).toNat) + y.toNat = x.toNat := by
    rw [toNat_eq_ofLanes y, toNat_eq_ofLanes x, ofLanes_add]
    exact ofLanes_congr fun k hk => Nat.sub_add_cancel (h k hk)
  refine BitVec.eq_of_toNat_eq ?_
  rw [BitVec.toNat_sub_of_le (BitVec.le_def.mpr (h k hk))]
  refine lane_of_toNat (d := fun k => (lane x k).toNat - (lane y k).toNat) ?_
    (fun k _ => Nat.lt_of_le_of_lt (Nat.sub_le _ _) (lane_lt x k)) hk
  rw [BitVec.toNat_sub_of_le (BitVec.le_def.mpr (hsum ▸ Nat.le_add_left _ _))]
  exact (Nat.eq_sub_of_add_eq hsum).symm

theorem lane_mul {c : BitVec 64} (h : ∀ k < 8, (lane x k).toNat * c.toNat < 256) (hk : k < 8) :
    (lane (x * c) k).toNat = (lane x k).toNat * c.toNat := by
  refine lane_of_toNat ?_ h hk
  rw [BitVec.toNat_mul, toNat_eq_ofLanes x, ofLanes_mul, Nat.mod_eq_of_lt (ofLanes_lt h)]

theorem lane_shiftRight_and {m : BitVec 64} {s : Nat} (h : ∀ k < 8, (lane m k).toNat < 2 ^ (8 - s)) (hk : k < 8) :
    lane (x >>> s &&& m) k = lane x k >>> s &&& lane m k := by
  rw [lane_and]
  refine BitVec.eq_of_getLsbD_eq fun i hi => ?_
  rw [BitVec.getLsbD_and, BitVec.getLsbD_and, getLsbD_lane hi, BitVec.getLsbD_ushiftRight, BitVec.getLsbD_ushiftRight]
  by_cases his : s + i < 8
  · rw [getLsbD_lane his, show s + (8 * k + i) = 8 * k + (s + i) by omega]
  · have hoff : (lane m k).getLsbD i = false :=
      Nat.testBit_lt_two_pow (Nat.lt_of_lt_of_le (h k hk) (Nat.pow_le_pow_right (by decide) (by omega)))
    rw [hoff, Bool.and_false, Bool.and_false]

theorem mul_ones_shift (h : ∑ k ∈ range 8, (lane x k).toNat < 256) :
    ((x * 0x0101010101010101#64) >>> 56).toNat = ∑ k ∈ range 8, (lane x k).toNat := by
  rw [BitVec.toNat_ushiftRight, BitVec.toNat_mul, toNat_eq_ofLanes x, ofLanes_eq, Nat.shiftRight_eq_div_pow]
  simp only [sum_range_succ, sum_range_zero, BitVec.toNat_ofNat] at h ⊢
  generalize (lane x 0).toNat = d₀ at *
  generalize (lane x 1).toNat = d₁ at *
  generalize (lane x 2).toNat = d₂ at *
  generalize (lane x 3).toNat = d₃ at *
  generalize (lane x 4).toNat = d₄ at *
  generalize (lane x 5).toNat = d₅ at *
  generalize (lane x 6).toNat = d₆ at *
  generalize (lane x 7).toNat = d₇ at *
  -- the partial sums are below the last lane, what they leave out is above the word
  obtain ⟨low, hlow⟩ : ∃ low, low = d₀ + (d₀ + d₁) * 2 ^ 8 + (d₀ + d₁ + d₂) * 2 ^ 16 + (d₀ + d₁ + d₂ + d₃) * 2 ^ 24 +
      (d₀ + d₁ + d₂ + d₃ + d₄) * 2 ^ 32 + (d₀ + d₁ + d₂ + d₃ + d₄ + d₅) * 2 ^ 40 +
      (d₀ + d₁ + d₂ + d₃ + d₄ + d₅ + d₆) * 2 ^ 48 := ⟨_, rfl⟩
  obtain ⟨high, hhigh⟩ : ∃ high, high = (d₁ + d₂ + d₃ + d₄ + d₅ + d₆ + d₇) + (d₂ + d₃ + d₄ + d₅ + d₆ + d₇) * 2 ^ 8 +
      (d₃ + d₄ + d₅ + d₆ + d₇) * 2 ^ 16 + (d₄ + d₅ + d₆ + d₇) * 2 ^ 24 + (d₅ + d₆ + d₇) * 2 ^ 32 + (d₆ + d₇) * 2 ^ 40 +
      d₇ * 2 ^ 48 := ⟨_, rfl⟩
  have hprod : (d₀ + d₁ * 2 ^ 8 + d₂ * 2 ^ 16 + d₃ * 2 ^ 24 + d₄ * 2 ^ 32 + d₅ * 2 ^ 40 + d₆ * 2 ^ 48 + d₇ * 2 ^ 56) *
      (72340172838076673 % 2 ^ 64) = low + (0 + d₀ + d₁ + d₂ + d₃ + d₄ + d₅ + d₆ + d₇) * 2 ^ 56 + high * 2 ^ 64 := by
    rw [hlow, hhigh]
    omega
  have hbound : low < 2 ^ 56 := by omega
  rw [hprod]
  clear hprod hlow hhigh
  omega

end Pimid
