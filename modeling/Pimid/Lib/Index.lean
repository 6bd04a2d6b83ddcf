import Mathlib.Data.Nat.Bitwise

/-!
# Index arithmetic of rank-structured algorithms

Two kinds of arithmetic turn one rank number into another. A *mask* is a power
of two, and what a bit operation with a mask does to a number is to add the mask
or to subtract it, depending on the number's bit. A *rotation* moves the numbers
below `P` around a ring; `rel P root r` is `r` counted from `root`.

Everything here ends in linear facts about the mask, the number and its residue,
so that the caller can hand the rest to `omega`.
-/

namespace Pimid

/-! ## Masks -/

theorem land_pow_ne_zero {x i : Nat} : x &&& 2 ^ i ≠ 0 ↔ x.testBit i = true := by
  rw [Nat.and_two_pow]
  have := Nat.two_pow_pos i
  cases x.testBit i <;> simp

theorem land_pow_eq_zero {x i : Nat} : x &&& 2 ^ i = 0 ↔ x.testBit i = false := by
  rw [← not_iff_not, ← ne_eq, land_pow_ne_zero, Bool.not_eq_false]

/-- A residue by the next mask: the residue so far, and the mask if its bit is set. -/
theorem mod_pow_succ (x i : Nat) :
    x % 2 ^ (i + 1) = x % 2 ^ i + if x.testBit i then 2 ^ i else 0 := by
  rw [Nat.mod_pow_succ, Nat.testBit_eq_decide_div_mod_eq]
  rcases Nat.mod_two_eq_zero_or_one (x / 2 ^ i) with h | h <;> simp [h]

theorem pow_le_of_testBit {x i : Nat} (h : x.testBit i = true) : 2 ^ i ≤ x :=
  Nat.ge_two_pow_of_testBit h

theorem xor_pow_div (x i : Nat) : (x ^^^ 2 ^ i) / 2 ^ i = x / 2 ^ i ^^^ 1 := by
  rw [Nat.xor_div_two_pow, Nat.div_self (Nat.two_pow_pos i)]

theorem xor_pow_mod (x i : Nat) : (x ^^^ 2 ^ i) % 2 ^ i = x % 2 ^ i := by
  rw [Nat.xor_mod_two_pow, Nat.mod_self, Nat.xor_zero]

/-- Flipping a bit adds its mask or takes it away. -/
theorem xor_pow (x i : Nat) :
    x ^^^ 2 ^ i = if x.testBit i then x - 2 ^ i else x + 2 ^ i := by
  have hx := Nat.div_add_mod x (2 ^ i)
  have hy := Nat.div_add_mod (x ^^^ 2 ^ i) (2 ^ i)
  rw [xor_pow_div, xor_pow_mod] at hy
  rw [Nat.testBit_eq_decide_div_mod_eq]
  rcases Nat.mod_two_eq_zero_or_one (x / 2 ^ i) with h | h
  · have hflip : x / 2 ^ i ^^^ 1 = x / 2 ^ i + 1 := by
      rw [Nat.xor_one_of_even (Nat.even_iff.mpr h)]
    rw [hflip, Nat.mul_add, Nat.mul_one] at hy
    simp only [h, Nat.zero_ne_one, decide_false, Bool.false_eq_true, if_false]
    omega
  · have hflip : x / 2 ^ i ^^^ 1 = x / 2 ^ i - 1 := by
      rw [Nat.xor_one_of_odd (Nat.odd_iff.mpr h)]
    rw [hflip, Nat.mul_sub, Nat.mul_one] at hy
    have hpos : 0 < x / 2 ^ i := by
      by_contra h0
      rw [Nat.eq_zero_of_not_pos h0] at h
      cases h
    have hle : 2 ^ i ≤ 2 ^ i * (x / 2 ^ i) := Nat.le_mul_of_pos_right _ hpos
    simp only [h, decide_true, if_true]
    omega

theorem testBit_xor_pow (x i : Nat) : (x ^^^ 2 ^ i).testBit i = !x.testBit i := by
  rw [Nat.testBit_xor, Nat.testBit_two_pow_self, Bool.xor_true]

theorem xor_pow_mod_succ (x i : Nat) :
    (x ^^^ 2 ^ i) % 2 ^ (i + 1) = x % 2 ^ i + if x.testBit i then 0 else 2 ^ i := by
  rw [mod_pow_succ, xor_pow_mod, testBit_xor_pow]
  cases x.testBit i <;> simp

theorem xor_pow_lt {x i K : Nat} (hx : x < 2 ^ K) (hi : i < K) : x ^^^ 2 ^ i < 2 ^ K :=
  Nat.xor_lt_two_pow hx (Nat.pow_lt_pow_right (by omega) hi)

theorem lor_pow {x i : Nat} (h : x.testBit i = false) : x ||| 2 ^ i = x + 2 ^ i := by
  have : x ||| 2 ^ i = x ^^^ 2 ^ i := by
    apply Nat.eq_of_testBit_eq
    intro j
    rw [Nat.testBit_or, Nat.testBit_xor]
    by_cases hj : i = j
    · subst hj
      rw [h, Nat.testBit_two_pow_self]
      rfl
    · rw [Nat.testBit_two_pow_of_ne hj, Bool.or_false, Bool.xor_false]
  rw [this, xor_pow, h]
  rfl

/-- Clearing a bit that is set takes its mask away. -/
theorem ldiff_pow {x i : Nat} (h : x.testBit i = true) : Nat.ldiff x (2 ^ i) = x - 2 ^ i := by
  have : Nat.ldiff x (2 ^ i) = x ^^^ 2 ^ i := by
    apply Nat.eq_of_testBit_eq
    intro j
    rw [Nat.testBit_ldiff, Nat.testBit_xor]
    by_cases hj : i = j
    · subst hj
      rw [h, Nat.testBit_two_pow_self]
      rfl
    · rw [Nat.testBit_two_pow_of_ne hj, Bool.not_false, Bool.and_true, Bool.xor_false]
  rw [this, xor_pow, h]
  rfl

/-- The first number of the aligned block of `2 ^ i` numbers around `x`. -/
def blockStart (x i : Nat) : Nat := x - x % 2 ^ i

/-- Shifting down and up again clears the low bits. -/
theorem shift_base (x i : Nat) : (x >>> i) <<< i = blockStart x i := by
  rw [Nat.shiftRight_eq_div_pow, Nat.shiftLeft_eq, Nat.mul_comm]
  have := Nat.div_add_mod x (2 ^ i)
  unfold blockStart
  omega

theorem blockStart_zero (x : Nat) : blockStart x 0 = x := by
  rw [blockStart, Nat.pow_zero, Nat.mod_one, Nat.sub_zero]

theorem blockStart_of_lt {x i : Nat} (h : x < 2 ^ i) : blockStart x i = 0 := by
  rw [blockStart, Nat.mod_eq_of_lt h, Nat.sub_self]

theorem blockStart_add_le {x i K : Nat} (hx : x < 2 ^ K) (hi : i ≤ K) :
    blockStart x i + 2 ^ i ≤ 2 ^ K := by
  have hq : x / 2 ^ i < 2 ^ (K - i) := by
    rw [Nat.div_lt_iff_lt_mul (Nat.two_pow_pos i), ← Nat.pow_add, Nat.sub_add_cancel hi]
    exact hx
  have hx' := Nat.div_add_mod x (2 ^ i)
  have hmul : 2 ^ i * (x / 2 ^ i + 1) ≤ 2 ^ i * 2 ^ (K - i) := Nat.mul_le_mul_left _ hq
  rw [← Nat.pow_add, Nat.add_sub_cancel' hi, Nat.mul_add, Nat.mul_one] at hmul
  unfold blockStart
  omega

/-- Flipping bit `i` swaps the two halves of a block of `2 ^ (i + 1)`: they lie side
by side, and together they are the block. -/
theorem blockStart_cases (x i : Nat) :
    (x.testBit i = false ∧ blockStart (x ^^^ 2 ^ i) i = blockStart x i + 2 ^ i ∧
      blockStart x (i + 1) = blockStart x i) ∨
    (x.testBit i = true ∧ blockStart x i = blockStart (x ^^^ 2 ^ i) i + 2 ^ i ∧
      blockStart x (i + 1) = blockStart (x ^^^ 2 ^ i) i) := by
  have hle := Nat.mod_le x (2 ^ (i + 1))
  have hle' := Nat.mod_le x (2 ^ i)
  unfold blockStart
  rw [xor_pow_mod, xor_pow]
  rw [mod_pow_succ] at hle ⊢
  cases hb : x.testBit i
  · left
    simp only [hb, Bool.false_eq_true, if_false, true_and] at hle ⊢
    omega
  · right
    simp only [hb, if_true, true_and] at hle ⊢
    omega

theorem testBit_low {x j i : Nat} (h : x % 2 ^ j = 0) (hi : i < j) : x.testBit i = false := by
  have := Nat.testBit_mod_two_pow x j i
  rw [h, Nat.zero_testBit] at this
  simpa [hi] using this.symm

/-- A number other than zero has a lowest set bit. -/
theorem exists_low_bit {x : Nat} (h : x ≠ 0) : ∃ j, x % 2 ^ j = 0 ∧ x.testBit j = true := by
  by_contra hno
  have hall : ∀ j, x % 2 ^ j = 0 := by
    intro j
    induction j with
    | zero => rw [Nat.pow_zero, Nat.mod_one]
    | succ j ih =>
      have hb : x.testBit j ≠ true := fun hb => hno ⟨j, ih, hb⟩
      rw [mod_pow_succ, ih, if_neg hb]
  have := hall x
  rw [Nat.mod_eq_of_lt Nat.lt_two_pow_self] at this
  exact h this

theorem exists_pow_ge (P : Nat) : ∃ K, P ≤ 2 ^ K ∧ ∀ i, 2 ^ i < P ↔ i < K := by
  induction P with
  | zero => exact ⟨0, by omega, fun i => by simp⟩
  | succ P ih =>
    obtain ⟨K, hK, h⟩ := ih
    rcases Nat.lt_or_ge P (2 ^ K) with hlt | hge
    · refine ⟨K, hlt, fun i => ⟨fun hi => ?_, fun hi => ?_⟩⟩
      · by_contra hKi
        have := Nat.pow_le_pow_right (n := 2) (by omega) (show K ≤ i by omega)
        omega
      · have := (h i).mpr hi
        omega
    · obtain rfl : P = 2 ^ K := by omega
      have hpos := Nat.two_pow_pos K
      refine ⟨K + 1, by rw [Nat.pow_succ]; omega, fun i => ⟨fun hi => ?_, fun hi => ?_⟩⟩
      · by_contra hKi
        have := Nat.pow_lt_pow_right (a := 2) (by omega) (show K < i by omega)
        omega
      · have := Nat.pow_le_pow_right (n := 2) (by omega) (show i ≤ K by omega)
        omega

/-! ## Rotations -/

theorem mod_of_lt_two_mul {a P : Nat} (h : a < 2 * P) : a % P = if a < P then a else a - P := by
  split
  · next hlt => exact Nat.mod_eq_of_lt hlt
  · next hge => rw [Nat.mod_eq_sub_mod (by omega), Nat.mod_eq_of_lt (by omega)]

/-- `r` counted from `root` around the ring of `P`. -/
def rel (P root r : Nat) : Nat := (r + P - root) % P

section Rotation

variable {P root r k : Nat}

theorem rel_eq (hroot : root < P) (hr : r < P) :
    rel P root r = if root ≤ r then r - root else r + P - root := by
  unfold rel
  rw [mod_of_lt_two_mul (by omega)]
  split <;> split <;> omega

theorem rel_lt (root r : Nat) (hP : 0 < P) : rel P root r < P := Nat.mod_lt _ hP

theorem rel_self (hroot : root < P) : rel P root root = 0 := by
  rw [rel_eq hroot hroot]
  simp

theorem rel_eq_zero (hroot : root < P) (hr : r < P) : rel P root r = 0 ↔ r = root := by
  rw [rel_eq hroot hr]
  split <;> omega

theorem rel_inj {s : Nat} (hroot : root < P) (hr : r < P) (hs : s < P)
    (h : rel P root r = rel P root s) : r = s := by
  rw [rel_eq hroot hr, rel_eq hroot hs] at h
  split at h <;> split at h <;> omega

theorem rel_ofRel (hroot : root < P) (hk : k < P) : rel P root ((k + root) % P) = k := by
  rw [rel_eq hroot (Nat.mod_lt _ (by omega)), mod_of_lt_two_mul (a := k + root) (by omega)]
  split <;> split <;> omega

theorem ofRel_rel (hroot : root < P) (hr : r < P) : (rel P root r + root) % P = r := by
  rw [rel_eq hroot hr, mod_of_lt_two_mul (by split <;> omega)]
  split <;> split <;> omega

/-- Going `k` up the ring, away from the root. -/
theorem rel_up (hroot : root < P) (hr : r < P) (h : rel P root r + k < P) :
    rel P root ((r + k) % P) = rel P root r + k := by
  rw [rel_eq hroot hr] at h ⊢
  rw [rel_eq hroot (Nat.mod_lt _ (by omega)),
    mod_of_lt_two_mul (a := r + k) (by split at h <;> omega)]
  split at h <;> split <;> split <;> omega

/-- Going `k` down the ring, towards the root. -/
theorem rel_down (hroot : root < P) (hr : r < P) (h : k ≤ rel P root r) :
    rel P root ((r + P - k) % P) = rel P root r - k := by
  rw [rel_eq hroot hr] at h ⊢
  rw [rel_eq hroot (Nat.mod_lt _ (by omega)),
    mod_of_lt_two_mul (a := r + P - k) (by split at h <;> omega)]
  split at h <;> split <;> split <;> omega

theorem ofRel_up (hroot : root < P) (hr : r < P) (h : rel P root r + k < P) :
    (rel P root r + k + root) % P = (r + k) % P := by
  refine rel_inj hroot (Nat.mod_lt _ (by omega)) (Nat.mod_lt _ (by omega)) ?_
  rw [rel_ofRel hroot h, rel_up hroot hr h]

theorem ofRel_down (hroot : root < P) (hr : r < P) (h : k ≤ rel P root r) :
    (rel P root r - k + root) % P = (r + P - k) % P := by
  have := rel_lt (P := P) root r (by omega)
  refine rel_inj hroot (Nat.mod_lt _ (by omega)) (Nat.mod_lt _ (by omega)) ?_
  rw [rel_ofRel hroot (by omega), rel_down hroot hr h]

theorem up_down (hr : r < P) (hk : k ≤ P) : ((r + P - k) % P + k) % P = r := by
  rw [mod_of_lt_two_mul (a := r + P - k) (by omega)]
  split
  · rw [Nat.sub_add_cancel (by omega), Nat.add_mod_right, Nat.mod_eq_of_lt hr]
  · rw [mod_of_lt_two_mul (by omega)]
    split <;> omega

theorem down_up (hr : r < P) (hk : k ≤ P) : ((r + k) % P + P - k) % P = r := by
  rcases Nat.lt_or_ge k P with h | h
  · rw [mod_of_lt_two_mul (a := r + k) (by omega)]
    split
    · rw [mod_of_lt_two_mul (by omega)]
      split <;> omega
    · rw [mod_of_lt_two_mul (by omega)]
      split <;> omega
  · obtain rfl : k = P := by omega
    rw [Nat.add_mod_right, Nat.mod_eq_of_lt hr, Nat.add_sub_cancel, Nat.mod_eq_of_lt hr]

theorem down_down {t : Nat} (hr : r < P) (hk : k ≤ P) (ht : t + k ≤ P) :
    ((r + P - k) % P + P - t) % P = (r + P - (t + k)) % P := by
  rw [mod_of_lt_two_mul (a := r + P - k) (by omega)]
  split
  · rw [show r + P - k + P - t = r + P - (t + k) + P by omega, Nat.add_mod_right]
  · congr 1
    omega

theorem down_dist (hr : r < P) (hk : k < P) : (r + P - (r + P - k) % P) % P = k := by
  rw [mod_of_lt_two_mul (a := r + P - k) (by omega)]
  split
  · rw [mod_of_lt_two_mul (by omega)]
    split <;> omega
  · rw [mod_of_lt_two_mul (by omega)]
    split <;> omega

theorem down_inj {t t' : Nat} (hr : r < P) (ht : t < P) (ht' : t' < P)
    (h : (r + P - t) % P = (r + P - t') % P) : t = t' := by
  rw [mod_of_lt_two_mul (a := r + P - t) (by omega),
    mod_of_lt_two_mul (a := r + P - t') (by omega)] at h
  split at h <;> split at h <;> omega

end Rotation

end Pimid
