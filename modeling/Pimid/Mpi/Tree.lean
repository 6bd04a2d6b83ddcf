import Pimid.Lib.Index
import Pimid.Mpi.Rules

/-!
# Binomial trees over relative ranks

The rooted collectives walk one tree. Counted from the root, a rank's parent is
the rank with its lowest set bit cleared, and its children are the ranks that
add a single bit below that one, clipped at `P`. The ranks at level `j` are those
whose low `j` bits are clear; between level `j + 1` and level `j` every rank of
level `j + 1` talks to the rank `2 ^ j` after it, if there is one.

`child` and `parent` are the two halves of one fact: what the parent computes as
its child's rank and what the child computes as its parent's rank agree.
-/

namespace Pimid.Mpi

/-- `while (mask < P && !(rel & mask)) mask <<= 1;` from `mask = 2 ^ i`. A loop
that acts on the first set bit and breaks stops at the same mask, below `P`
exactly when it found one. -/
def scanMask (P rel i : Nat) : Nat :=
  if 2 ^ i < P ∧ rel &&& 2 ^ i = 0 then scanMask P rel (i + 1) else 2 ^ i
termination_by P - i
decreasing_by
  have := Nat.lt_two_pow_self (n := i)
  omega

/-- The scan stops at the lowest set bit. -/
theorem scanMask_of_bit {P x j : Nat} (hx : x < P) (h0 : x % 2 ^ j = 0)
    (hb : x.testBit j = true) {i : Nat} (hi : i ≤ j) : scanMask P x i = 2 ^ j := by
  induction hn : j - i generalizing i with
  | zero =>
    obtain rfl : i = j := by omega
    rw [scanMask, if_neg]
    rw [land_pow_eq_zero, hb]
    simp
  | succ n ih =>
    have hle := pow_le_of_testBit hb
    have hlt := Nat.pow_lt_pow_right (a := 2) (by omega) (show i < j by omega)
    rw [scanMask, if_pos ⟨by omega, land_pow_eq_zero.mpr (testBit_low h0 (by omega))⟩]
    exact ih (by omega) (by omega)

theorem scanMask_zero {P K : Nat} (hK : ∀ i, 2 ^ i < P ↔ i < K) {i : Nat} (hi : i ≤ K) :
    scanMask P 0 i = 2 ^ K := by
  induction hn : K - i generalizing i with
  | zero =>
    obtain rfl : i = K := by omega
    rw [scanMask, if_neg]
    have := hK i
    omega
  | succ n ih =>
    rw [scanMask, if_pos ⟨(hK i).mpr (by omega), Nat.zero_and _⟩]
    exact ih (by omega) (by omega)

/-! ## Levels -/

theorem low_of_succ {x j : Nat} (h : x % 2 ^ (j + 1) = 0) : x % 2 ^ j = 0 ∧ x.testBit j = false := by
  rw [mod_pow_succ] at h
  have := Nat.two_pow_pos j
  split at h
  · omega
  · next hb => exact ⟨by omega, by simpa using hb⟩

theorem low_of_pow {x j : Nat} (h : x % 2 ^ (j + 1) = 2 ^ j) : x % 2 ^ j = 0 ∧ x.testBit j = true := by
  rw [mod_pow_succ] at h
  have := Nat.mod_lt x (Nat.two_pow_pos j)
  split at h
  · next hb => exact ⟨by omega, hb⟩
  · omega

/-- A rank of level `j` is of level `j + 1` or a child of one. -/
theorem low_cases {x j : Nat} (h : x % 2 ^ j = 0) :
    x % 2 ^ (j + 1) = 0 ∧ x.testBit j = false ∨ x % 2 ^ (j + 1) = 2 ^ j ∧ x.testBit j = true := by
  rw [mod_pow_succ, h]
  cases x.testBit j <;> simp

theorem ne_of_level {x j : Nat} (h : x % 2 ^ (j + 1) = 0) : x % 2 ^ (j + 1) ≠ 2 ^ j := by
  have := Nat.two_pow_pos j
  omega

theorem half_pow_succ (j : Nat) : 2 ^ (j + 1) / 2 = 2 ^ j := by
  rw [Nat.pow_succ, Nat.mul_div_cancel _ (by omega)]

section

variable {P root r j : Nat}

/-- Going down the tree: the child of `r` at distance `2 ^ j`. -/
theorem child (hroot : root < P) (hr : r < P) (h0 : rel P root r % 2 ^ (j + 1) = 0)
    (hlt : rel P root r + 2 ^ j < P) :
    (r + 2 ^ j) % P < P ∧ rel P root ((r + 2 ^ j) % P) = rel P root r + 2 ^ j ∧
      rel P root ((r + 2 ^ j) % P) % 2 ^ (j + 1) = 2 ^ j ∧
      ((r + 2 ^ j) % P + P - 2 ^ j) % P = r := by
  have hup := rel_up hroot hr hlt
  refine ⟨Nat.mod_lt _ (by omega), hup, ?_, down_up hr (by omega)⟩
  have hlt' := Nat.pow_lt_pow_right (a := 2) (by omega) (show j < j + 1 by omega)
  rw [hup, Nat.add_mod, h0, Nat.zero_add, Nat.mod_mod, Nat.mod_eq_of_lt hlt']

/-- Going up the tree: the parent of `r`, whose lowest set bit is `2 ^ j`. -/
theorem parent (hroot : root < P) (hr : r < P) (h : rel P root r % 2 ^ (j + 1) = 2 ^ j) :
    (r + P - 2 ^ j) % P < P ∧ rel P root ((r + P - 2 ^ j) % P) + 2 ^ j = rel P root r ∧
      rel P root ((r + P - 2 ^ j) % P) % 2 ^ (j + 1) = 0 ∧
      ((r + P - 2 ^ j) % P + 2 ^ j) % P = r := by
  have hle := pow_le_of_testBit (low_of_pow h).2
  have hrel := rel_lt (P := P) root r (by omega)
  have hdown := rel_down hroot hr hle
  refine ⟨Nat.mod_lt _ (by omega), by omega, ?_, up_down hr (by omega)⟩
  rw [hdown]
  apply Nat.sub_mod_eq_zero_of_mod_eq
  have hlt' := Nat.pow_lt_pow_right (a := 2) (by omega) (show j < j + 1 by omega)
  rw [h, Nat.mod_eq_of_lt hlt']

end

end Pimid.Mpi
