import Mathlib.Data.Finset.Fold
import Pimid.Lib.Index

/-!
# Combining values in different orders

`Reduces f v S a` says that `a` is what some bracketing of the values `v i`, each
`i` in `S` used exactly once, combines to under `f`. If `f` is commutative and
associative the bracketing does not matter (`Reduces.eq_reduceAll`), so an
algorithm only has to show that it brackets: no value left out, none used twice.

`butterfly` is the bracketing in which the participants of a block of `2 ^ i`
pair up across bit `i`. Each of them computes it in its own order; commutativity
alone makes them agree (`butterfly_congr`).
-/

namespace Pimid

variable {α : Type}

/-- `a` is a bracketing of the values at `S`. -/
inductive Reduces (f : α → α → α) (v : Nat → α) : Finset Nat → α → Prop where
  | leaf (i : Nat) : Reduces f v {i} (v i)
  | node {S T : Finset Nat} {a b : α} (h : Disjoint S T) :
      Reduces f v S a → Reduces f v T b → Reduces f v (S.disjUnion T h) (f a b)

/-- The values `v 0, …, v n` combined from left to right. -/
def reduceAll (f : α → α → α) (v : Nat → α) : Nat → α
  | 0 => v 0
  | n + 1 => f (reduceAll f v n) (v (n + 1))

namespace Reduces

variable {f : α → α → α} {v : Nat → α} {S T U : Finset Nat} {a b : α}

/-- Two parts of `U` that do not overlap and together are all of it. -/
theorem join (ha : Reduces f v S a) (hb : Reduces f v T b) (hST : ∀ i, i ∈ S → i ∉ T)
    (hU : ∀ i, i ∈ U ↔ i ∈ S ∨ i ∈ T) : Reduces f v U (f a b) := by
  have hd : Disjoint S T := Finset.disjoint_left.mpr hST
  obtain rfl : U = S.disjUnion T hd := by
    ext i
    rw [hU, Finset.mem_disjUnion]
  exact .node hd ha hb

theorem congr (h : Reduces f v S a) (hST : ∀ i, i ∈ S ↔ i ∈ T) : Reduces f v T a := by
  obtain rfl : S = T := Finset.ext hST
  exact h

theorem of_eqOn {v' : Nat → α} (h : Reduces f v S a) (hv : ∀ i, i ∈ S → v i = v' i) :
    Reduces f v' S a := by
  induction h with
  | leaf i =>
    rw [hv i (Finset.mem_singleton_self i)]
    exact .leaf i
  | node hd _ _ iha ihb =>
    exact .node hd (iha fun i hi => hv i (Finset.mem_disjUnion.mpr (.inl hi)))
      (ihb fun i hi => hv i (Finset.mem_disjUnion.mpr (.inr hi)))

/-- Read through a map that respects the operation. -/
theorem map {β : Type} {f' : β → β → β} (φ : α → β) (hφ : ∀ a b, φ (f a b) = f' (φ a) (φ b))
    (h : Reduces f v S a) : Reduces f' (fun i => φ (v i)) S (φ a) := by
  induction h with
  | leaf i => exact .leaf i
  | node hd _ _ iha ihb =>
    rw [hφ]
    exact .node hd iha ihb

theorem reduceAll (f : α → α → α) (v : Nat → α) (n : Nat) :
    Reduces f v (Finset.range (n + 1)) (reduceAll f v n) := by
  induction n with
  | zero => exact (leaf 0).congr fun i => by simp
  | succ n ih =>
    refine ih.join (leaf (n + 1)) (fun i hi h => ?_) fun i => ?_
    · rw [Finset.mem_range] at hi
      rw [Finset.mem_singleton] at h
      omega
    · rw [Finset.mem_range, Finset.mem_range, Finset.mem_singleton]
      omega

section

variable [hc : Std.Commutative f] [ha : Std.Associative f]

theorem fold_eq (h : Reduces f v S a) :
    S.fold (Option.merge f) none (fun i => some (v i)) = some a := by
  induction h with
  | leaf i => rw [Finset.fold_singleton, Option.merge_none_right]
  | node hd _ _ iha ihb =>
    have hunion := @Finset.fold_disjUnion _ _ (Option.merge f) _ _ (fun i => some (v i)) _ _ none none hd
    rw [Option.merge_none_left, iha, ihb, Option.merge_some_some] at hunion
    exact hunion

/-- **Any bracketing of all the values is their reduction.** -/
theorem eq_reduceAll {n : Nat} (h : Reduces f v (Finset.range (n + 1)) a) :
    a = Pimid.reduceAll f v n := by
  have h' := (Reduces.reduceAll f v n).fold_eq
  rw [h.fold_eq] at h'
  exact Option.some.inj h'

end

end Reduces

/-- What participant `k` has after pairing up across the bits below `i`. -/
def butterfly (f : α → α → α) (v : Nat → α) : Nat → Nat → α
  | 0, k => v k
  | i + 1, k => f (butterfly f v i (k ^^^ 2 ^ i)) (butterfly f v i k)

theorem div_pow_succ_eq_iff {x y i : Nat} :
    x / 2 ^ (i + 1) = y / 2 ^ (i + 1) ↔ x / 2 ^ i = y / 2 ^ i ∨ x / 2 ^ i = (y ^^^ 2 ^ i) / 2 ^ i := by
  rw [Nat.pow_succ, ← Nat.div_div_eq_div_mul, ← Nat.div_div_eq_div_mul, xor_pow_div]
  generalize x / 2 ^ i = a
  generalize y / 2 ^ i = b
  rcases Nat.mod_two_eq_zero_or_one b with h | h
  · rw [Nat.xor_one_of_even (Nat.even_iff.mpr h)]
    omega
  · rw [Nat.xor_one_of_odd (Nat.odd_iff.mpr h)]
    omega

theorem div_xor_pow_ne (x i : Nat) : (x ^^^ 2 ^ i) / 2 ^ i ≠ x / 2 ^ i := by
  rw [xor_pow_div]
  generalize x / 2 ^ i = a
  rcases Nat.mod_two_eq_zero_or_one a with h | h
  · rw [Nat.xor_one_of_even (Nat.even_iff.mpr h)]
    omega
  · rw [Nat.xor_one_of_odd (Nat.odd_iff.mpr h)]
    omega

/-- **The members of a block agree.** -/
theorem butterfly_congr {f : α → α → α} (hcomm : ∀ a b, f a b = f b a) {v : Nat → α} {i k l : Nat}
    (h : k / 2 ^ i = l / 2 ^ i) : butterfly f v i k = butterfly f v i l := by
  induction i generalizing k l with
  | zero =>
    simp only [Nat.pow_zero, Nat.div_one] at h
    rw [h]
  | succ i ih =>
    rw [butterfly, butterfly]
    rcases div_pow_succ_eq_iff.mp h with h | h
    · have hx : (k ^^^ 2 ^ i) / 2 ^ i = (l ^^^ 2 ^ i) / 2 ^ i := by
        rw [xor_pow_div, xor_pow_div, h]
      rw [ih h, ih hx]
    · have hx : (k ^^^ 2 ^ i) / 2 ^ i = l / 2 ^ i := by
        rw [xor_pow_div, h, ← xor_pow_div, Nat.xor_xor_cancel_right]
      rw [ih h, ih hx, hcomm]

/-- Participants that start from bracketings of the classes of `g` end a butterfly
with one of the classes of their block. -/
theorem Reduces.butterfly {f : α → α → α} {v leaf : Nat → α} {g : Nat → Nat} {P K : Nat}
    (h0 : ∀ k, k < 2 ^ K → Reduces f v ((Finset.range P).filter fun r => g r = k) (leaf k)) {i : Nat}
    (hi : i ≤ K) {k : Nat} (hk : k < 2 ^ K) :
    Reduces f v ((Finset.range P).filter fun r => g r / 2 ^ i = k / 2 ^ i)
      (Pimid.butterfly f leaf i k) := by
  induction i generalizing k with
  | zero => simpa [Pimid.butterfly] using h0 k hk
  | succ i ih =>
    have hk' : k ^^^ 2 ^ i < 2 ^ K := Nat.xor_lt_two_pow hk (Nat.pow_lt_pow_right (by omega) hi)
    refine (ih (by omega) hk').join (ih (by omega) hk) (fun r hr h => ?_) fun r => ?_
    · rw [Finset.mem_filter] at hr h
      exact div_xor_pow_ne k i (hr.2.symm.trans h.2)
    · simp only [Finset.mem_filter, div_pow_succ_eq_iff]
      tauto

end Pimid
