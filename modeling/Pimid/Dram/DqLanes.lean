import Mathlib.Algebra.Order.BigOperators.Group.Finset
import Pimid.Dram.DqData

/-!
# Eight bytes counted at once

What the arithmetic on a word does to each of its lanes: no step carries into the next lane,
and a byte is classified by tables over its 256 values.
-/

namespace Pimid.Dram

open Finset

variable {x v : BitVec 64} {k : Nat}

/-! ## The bits of each lane -/

/-- The three steps on one byte. -/
def pairPop (b : BitVec 8) : BitVec 8 := b - (b >>> 1 &&& 0x55#8)

def quadPop (b : BitVec 8) : BitVec 8 := (b &&& 0x33#8) + (b >>> 2 &&& 0x33#8)

theorem pairPop_le (b : BitVec 8) : (b >>> 1 &&& 0x55#8).toNat ≤ b.toNat := by
  rw [BitVec.toNat_and, BitVec.toNat_ushiftRight]
  refine Nat.le_trans Nat.and_le_left ?_
  rw [Nat.shiftRight_eq_div_pow]
  exact Nat.div_le_self _ _

theorem and_le_mask (b m : BitVec 8) : (b &&& m).toNat ≤ m.toNat := by
  rw [BitVec.toNat_and]
  exact Nat.and_le_right

theorem quadPop_lt (b : BitVec 8) : (b &&& 0x33#8).toNat + (b >>> 2 &&& 0x33#8).toNat < 256 :=
  Nat.lt_of_le_of_lt (Nat.add_le_add (and_le_mask b _) (and_le_mask (b >>> 2) _)) (by decide)

theorem quad_le (b : BitVec 8) : (quadPop (pairPop b)).toNat ≤ 68 ∧ (quadPop (pairPop b)).toNat % 16 ≤ 4 := by
  revert b
  decide +kernel

theorem nibbles (b : BitVec 8) :
    ((quadPop (pairPop b)).toNat + (quadPop (pairPop b)).toNat / 16) % 16 = pimidPop8 b := by
  revert b
  decide +kernel

theorem lane_fives (hk : k < 8) : lane 0x5555555555555555#64 k = 0x55#8 := by
  interval_cases k <;> rfl

theorem lane_threes (hk : k < 8) : lane 0x3333333333333333#64 k = 0x33#8 := by
  interval_cases k <;> rfl

theorem lane_pairPop (x : BitVec 64) (hk : k < 8) : lane (x - (x >>> 1 &&& 0x5555555555555555#64)) k = pairPop (lane x k) := by
  have hshift : ∀ k < 8, lane (x >>> 1 &&& 0x5555555555555555#64) k = lane x k >>> 1 &&& 0x55#8 := by
    intro k hk
    rw [lane_shiftRight_and (fun k hk => by rw [lane_fives hk]; decide) hk, lane_fives hk]
  rw [lane_sub (fun k hk => by rw [hshift k hk]; exact pairPop_le _) hk, hshift k hk]
  rfl

theorem lane_quadPop (x : BitVec 64) (hk : k < 8) :
    lane ((x &&& 0x3333333333333333#64) + (x >>> 2 &&& 0x3333333333333333#64)) k = quadPop (lane x k) := by
  have hand : ∀ k < 8, lane (x &&& 0x3333333333333333#64) k = lane x k &&& 0x33#8 := by
    intro k hk
    rw [lane_and, lane_threes hk]
  have hshift : ∀ k < 8, lane (x >>> 2 &&& 0x3333333333333333#64) k = lane x k >>> 2 &&& 0x33#8 := by
    intro k hk
    rw [lane_shiftRight_and (fun k hk => by rw [lane_threes hk]; decide) hk, lane_threes hk]
  rw [lane_add (fun k hk => by rw [hand k hk, hshift k hk]; exact quadPop_lt _) hk, hand k hk, hshift k hk]
  rfl

theorem lane_shiftRight (x : BitVec 64) (k : Nat) {s : Nat} (hs : s ≤ 8) :
    (lane (x >>> s) k).toNat = (lane x k).toNat / 2 ^ s + 2 ^ (8 - s) * ((lane x (k + 1)).toNat % 2 ^ s) := by
  rw [lane_toNat, lane_toNat, lane_toNat, BitVec.toNat_ushiftRight, Nat.shiftRight_eq_div_pow, Nat.div_div_eq_div_mul,
    Nat.mul_comm, ← Nat.div_div_eq_div_mul, show 2 ^ (8 * (k + 1)) = 2 ^ (8 * k) * 256 by rw [Nat.mul_succ, Nat.pow_add],
    ← Nat.div_div_eq_div_mul]
  generalize x.toNat / 2 ^ (8 * k) = m
  interval_cases s <;> omega

theorem lane_pimidLanePop (x : BitVec 64) (hk : k < 8) : (lane (pimidLanePop x) k).toNat = pimidPop8 (lane x k) := by
  unfold pimidLanePop
  dsimp only
  generalize hx₁ : x - (x >>> 1 &&& 0x5555555555555555#64) = x₁
  generalize hx₂ : (x₁ &&& 0x3333333333333333#64) + (x₁ >>> 2 &&& 0x3333333333333333#64) = x₂
  have hlane : ∀ k < 8, lane x₂ k = quadPop (pairPop (lane x k)) := by
    intro k hk
    rw [← hx₂, lane_quadPop x₁ hk, ← hx₁, lane_pairPop x hk]
  have hnext (k : Nat) (hk : k < 8) : (lane x₂ (k + 1)).toNat % 16 ≤ 4 := by
    by_cases hk' : k + 1 < 8
    · rw [hlane _ hk']
      exact (quad_le _).2
    · have hzero : (lane x₂ (k + 1)).toNat = 0 := by
        rw [lane_toNat, Nat.div_eq_of_lt (Nat.lt_of_lt_of_le x₂.isLt (Nat.pow_le_pow_right (by decide) (by omega)))]
      rw [hzero]
      decide
  have hcarry : ∀ k < 8, (lane x₂ k).toNat + (lane (x₂ >>> 4) k).toNat < 256 := by
    intro k hk
    rw [lane_shiftRight x₂ k (by decide)]
    have := hnext k hk
    have hle := (quad_le (lane x k)).1
    rw [← hlane k hk] at hle
    omega
  have hmask : lane 0x0F0F0F0F0F0F0F0F#64 k = 0x0F#8 := by interval_cases k <;> rfl
  rw [lane_and, hmask, lane_add hcarry hk, BitVec.toNat_and, show (0x0F#8).toNat = 2 ^ 4 - 1 from rfl,
    Nat.and_two_pow_sub_one_eq_mod, BitVec.toNat_add, Nat.mod_eq_of_lt (hcarry k hk), lane_shiftRight x₂ k (by decide),
    ← nibbles, hlane k hk]
  omega

theorem pimidPop8_le (b : BitVec 8) : pimidPop8 b ≤ 8 := by
  have hbit : ∀ x ∈ (List.range 8).map (fun k => (b.getLsbD k).toNat), x ≤ 1 := by
    intro x hx
    obtain ⟨k, -, rfl⟩ := List.mem_map.mp hx
    exact Bool.toNat_le _
  exact Nat.le_trans (List.sum_le_card_nsmul _ 1 hbit) (by simp)

theorem gather {f : Nat → Nat} (h : ∀ k < 8, (lane x k).toNat = f k) (hf : ∀ k < 8, f k ≤ 8) :
    ((x * 0x0101010101010101#64) >>> 56).toNat = ∑ k ∈ range 8, f k := by
  have hsum : ∑ k ∈ range 8, (lane x k).toNat = ∑ k ∈ range 8, f k :=
    sum_congr rfl fun k hk => h k (mem_range.mp hk)
  have hle : ∑ k ∈ range 8, f k ≤ ∑ _k ∈ range 8, 8 := sum_le_sum fun k hk => hf k (mem_range.mp hk)
  rw [← hsum]
  refine mul_ones_shift ?_
  rw [hsum]
  exact Nat.lt_of_le_of_lt hle (by decide)

/-- **The bits of a word are those of its bytes.** -/
theorem pimidPop64_eq (x : BitVec 64) : pimidPop64 x = ∑ k ∈ range 8, pimidPop8 (lane x k) :=
  gather (fun _ hk => lane_pimidLanePop x hk) fun _ _ => pimidPop8_le _

theorem lane_load {b : Nat → BitVec 8} (i : Nat) (hk : k < 8) : lane (pimidLoad64 b i) k = b (i + k) := lane_word _ hk

/-! ## The classes of each lane -/

/-- The top bit of a lane whose byte is inverted. -/
def topBit (i : Bool) : BitVec 8 := if i then 0x80#8 else 0#8

/-- A word whose lanes are top bits. -/
def Flags (x : BitVec 64) (i : Nat → Bool) : Prop := ∀ k < 8, lane x k = topBit (i k)

variable {i : Nat → Bool}

theorem podFlag (b : BitVec 8) :
    ~~~(((BitVec.ofNat 8 (pimidPop8 b) &&& 0x0C#8) + 0x7F#8) &&& 0x80#8) &&& 0x80#8 = topBit (podInverts b) := by
  have hpop := pimidPop8_le b
  unfold podInverts
  generalize pimidPop8 b = p at hpop
  interval_cases p <;> rfl

theorem lvstlFlag (b : BitVec 8) :
    BitVec.ofNat 8 ((BitVec.ofNat 8 (pimidPop8 b) + 0x03#8).toNat * 16) &&& 0x80#8 = topBit (lvstlInverts b) := by
  have hpop := pimidPop8_le b
  unfold lvstlInverts
  generalize pimidPop8 b = p at hpop
  interval_cases p <;> rfl

theorem podCarry (b : BitVec 8) : (BitVec.ofNat 8 (pimidPop8 b) &&& 0x0C#8).toNat + (0x7F#8).toNat < 256 :=
  Nat.lt_of_le_of_lt (Nat.add_le_add_right (and_le_mask _ _) _) (by decide)

theorem lvstlCarry (b : BitVec 8) : (BitVec.ofNat 8 (pimidPop8 b)).toNat + (0x03#8).toNat < 16 := by
  rw [BitVec.toNat_ofNat]
  exact Nat.lt_of_le_of_lt (Nat.add_le_add_right (Nat.le_trans (Nat.mod_le _ _) (pimidPop8_le b)) _) (by decide)

theorem lane_pop (v : BitVec 64) (hk : k < 8) : lane (pimidLanePop v) k = BitVec.ofNat 8 (pimidPop8 (lane v k)) := by
  refine BitVec.eq_of_toNat_eq ?_
  rw [lane_pimidLanePop v hk, BitVec.toNat_ofNat, Nat.mod_eq_of_lt (Nat.lt_of_le_of_lt (pimidPop8_le _) (by decide))]

theorem podFlags (v : BitVec 64) :
    Flags (~~~(((pimidLanePop v &&& 0x0C0C0C0C0C0C0C0C#64) + 0x7F7F7F7F7F7F7F7F#64) &&& 0x8080808080808080#64) &&&
      0x8080808080808080#64) fun k => podInverts (lane v k) := by
  have hc (k : Nat) (hk : k < 8) : lane 0x0C0C0C0C0C0C0C0C#64 k = 0x0C#8 := by interval_cases k <;> rfl
  have hf (k : Nat) (hk : k < 8) : lane 0x7F7F7F7F7F7F7F7F#64 k = 0x7F#8 := by interval_cases k <;> rfl
  have he (k : Nat) (hk : k < 8) : lane 0x8080808080808080#64 k = 0x80#8 := by interval_cases k <;> rfl
  intro k hk
  have hcarry : ∀ k < 8, (lane (pimidLanePop v &&& 0x0C0C0C0C0C0C0C0C#64) k).toNat + (lane 0x7F7F7F7F7F7F7F7F#64 k).toNat < 256 := by
    intro k hk
    rw [lane_and, lane_pop v hk, hc k hk, hf k hk]
    exact podCarry _
  rw [lane_and, lane_not _ hk, lane_and, lane_add hcarry hk, lane_and, lane_pop v hk, hc k hk, hf k hk, he k hk]
  exact podFlag _

/-- A shift by half a lane, of lanes whose upper half is empty. -/
theorem lane_shiftLeft (h : ∀ k < 8, (lane x k).toNat < 16) (hk : k < 8) :
    lane (x <<< 4) k = BitVec.ofNat 8 ((lane x k).toNat * 16) := by
  have hmul : ∀ k < 8, (lane x k).toNat * 16 < 256 := by
    intro k hk
    have := h k hk
    omega
  refine BitVec.eq_of_toNat_eq ?_
  rw [BitVec.toNat_ofNat, show 2 ^ 8 = 256 from rfl, Nat.mod_eq_of_lt (hmul k hk)]
  refine lane_of_toNat (d := fun k => (lane x k).toNat * 16) ?_ hmul hk
  rw [BitVec.toNat_shiftLeft, Nat.shiftLeft_eq, toNat_eq_ofLanes x, ofLanes_mul, show 2 ^ 4 = 16 from rfl,
    Nat.mod_eq_of_lt (ofLanes_lt hmul)]

theorem lvstlFlags (v : BitVec 64) :
    Flags ((pimidLanePop v + 0x0303030303030303#64) <<< 4 &&& 0x8080808080808080#64) fun k => lvstlInverts (lane v k) := by
  have ht (k : Nat) (hk : k < 8) : lane 0x0303030303030303#64 k = 0x03#8 := by interval_cases k <;> rfl
  have he (k : Nat) (hk : k < 8) : lane 0x8080808080808080#64 k = 0x80#8 := by interval_cases k <;> rfl
  have hsmall : ∀ k < 8, (lane (pimidLanePop v) k).toNat + (lane 0x0303030303030303#64 k).toNat < 16 := by
    intro k hk
    rw [lane_pop v hk, ht k hk]
    exact lvstlCarry _
  have hsum : ∀ k < 8, lane (pimidLanePop v + 0x0303030303030303#64) k =
      lane (pimidLanePop v) k + lane 0x0303030303030303#64 k :=
    fun k hk => lane_add (fun k hk => Nat.lt_trans (hsmall k hk) (by decide)) hk
  have hhalf : ∀ k < 8, (lane (pimidLanePop v + 0x0303030303030303#64) k).toNat < 16 := by
    intro k hk
    rw [hsum k hk, BitVec.toNat_add]
    exact Nat.lt_of_le_of_lt (Nat.mod_le _ _) (hsmall k hk)
  intro k hk
  rw [lane_and, lane_shiftLeft hhalf hk, hsum k hk, lane_pop v hk, ht k hk, he k hk]
  exact lvstlFlag _

/-! ## Words of flags -/

theorem topBit_pop (i : Bool) : pimidPop8 (topBit i) = i.toNat := by cases i <;> decide

theorem Flags.pop (h : Flags x i) : pimidPop64 x = ∑ k ∈ range 8, (i k).toNat := by
  rw [pimidPop64_eq]
  exact sum_congr rfl fun k hk => by rw [h k (mem_range.mp hk), topBit_pop]

theorem Flags.bit (h : Flags x i) (hk : k < 8) : x.getLsbD (8 * k + 7) = i k := by
  rw [← getLsbD_lane (by decide), h k hk]
  cases i k <;> rfl

theorem Flags.mask (h : Flags x i) (hk : k < 8) : lane (x >>> 7 * 0xFF#64) k = if i k then 0xFF#8 else 0#8 := by
  have hlow : ∀ k, (lane x (k + 1)).toNat % 2 ^ 7 = 0 := by
    intro k
    by_cases hk : k + 1 < 8
    · rw [h _ hk]
      cases i (k + 1) <;> rfl
    · rw [lane_toNat, Nat.div_eq_of_lt (Nat.lt_of_lt_of_le x.isLt (Nat.pow_le_pow_right (by decide) (by omega)))]
      rfl
  have hone : ∀ k < 8, (lane (x >>> 7) k).toNat = (i k).toNat := by
    intro k hk
    rw [lane_shiftRight x k (by decide), hlow, h k hk]
    cases i k <;> rfl
  refine BitVec.eq_of_toNat_eq ?_
  rw [lane_mul (fun k hk => by rw [hone k hk]; cases i k <;> decide) hk, hone k hk]
  cases i k <;> rfl

end Pimid.Dram
