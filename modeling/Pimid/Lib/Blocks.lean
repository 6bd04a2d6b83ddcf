import Pimid.Lib.Slice

/-!
# Blocks laid out one after another

`cat B n` is the blocks `B 0, …, B (n - 1)` in order, and `prefixSum` of their
lengths says where each one starts. A run of consecutive blocks is a stretch of
the whole (`slice_cat_run`), and it is what the same blocks look like when they
are laid out on their own — the two layouts a rotated algorithm moves between.
-/

namespace Pimid

variable {α : Type}

/-- The sum of the first `n` values. -/
def prefixSum (c : Nat → Nat) : Nat → Nat
  | 0 => 0
  | n + 1 => prefixSum c n + c n

/-- The first `n` blocks, one after another. -/
def cat (B : Nat → List α) : Nat → List α
  | 0 => []
  | n + 1 => cat B n ++ B n

theorem prefixSum_add (c : Nat → Nat) (a k : Nat) :
    prefixSum c (a + k) = prefixSum c a + prefixSum (fun j => c (a + j)) k := by
  induction k with
  | zero => rfl
  | succ k ih => rw [← Nat.add_assoc, prefixSum, prefixSum, ih, Nat.add_assoc]

theorem prefixSum_mono (c : Nat → Nat) {a b : Nat} (h : a ≤ b) : prefixSum c a ≤ prefixSum c b := by
  obtain ⟨k, rfl⟩ := Nat.exists_eq_add_of_le h
  rw [prefixSum_add]
  omega

theorem prefixSum_congr {c c' : Nat → Nat} {n : Nat} (h : ∀ j, j < n → c j = c' j) :
    prefixSum c n = prefixSum c' n := by
  induction n with
  | zero => rfl
  | succ n ih => rw [prefixSum, prefixSum, ih fun j hj => h j (by omega), h n (by omega)]

theorem prefixSum_const (b n : Nat) : prefixSum (fun _ => b) n = n * b := by
  induction n with
  | zero => rw [prefixSum, Nat.zero_mul]
  | succ n ih => rw [prefixSum, ih, Nat.add_mul, Nat.one_mul]

/-- Starting the sum at `r` and going round the ring gives the whole sum. -/
theorem prefixSum_rotate (c : Nat → Nat) {P r : Nat} (hr : r < P) :
    prefixSum (fun j => c ((r + j) % P)) P = prefixSum c P := by
  obtain ⟨k, hk⟩ := Nat.exists_eq_add_of_lt hr
  have hsplit : P = k + 1 + r := by omega
  have hhigh : prefixSum (fun j => c ((r + j) % P)) (k + 1)
      = prefixSum (fun j => c (r + j)) (k + 1) :=
    prefixSum_congr fun j hj => by rw [Nat.mod_eq_of_lt (by omega)]
  have hlow : prefixSum (fun j => c ((r + (k + 1 + j)) % P)) r = prefixSum c r :=
    prefixSum_congr fun j hj => by
      rw [show r + (k + 1 + j) = j + P by omega, Nat.add_mod_right, Nat.mod_eq_of_lt (by omega)]
  have hsum := prefixSum_add (fun j => c ((r + j) % P)) (k + 1) r
  have hsum' := prefixSum_add c r (k + 1)
  rw [hhigh, hlow, ← hsplit] at hsum
  rw [Nat.add_comm r, ← hsplit] at hsum'
  omega

/-- Every place below the sum lies in one of the summands. -/
theorem exists_of_lt_prefixSum {c : Nat → Nat} {n x : Nat} (h : x < prefixSum c n) :
    ∃ j, j < n ∧ prefixSum c j ≤ x ∧ x < prefixSum c j + c j := by
  induction n with
  | zero => exact absurd h (Nat.not_lt_zero x)
  | succ n ih =>
    rcases Nat.lt_or_ge x (prefixSum c n) with hx | hx
    · obtain ⟨j, hj, h'⟩ := ih hx
      exact ⟨j, by omega, h'⟩
    · exact ⟨n, by omega, hx, h⟩

variable {B : Nat → List α} {c : Nat → Nat}

theorem length_cat (B : Nat → List α) (n : Nat) :
    (cat B n).length = prefixSum (fun j => (B j).length) n := by
  induction n with
  | zero => rfl
  | succ n ih => rw [cat, prefixSum, List.length_append, ih]

theorem cat_add (B : Nat → List α) (a k : Nat) :
    cat B (a + k) = cat B a ++ cat (fun j => B (a + j)) k := by
  induction k with
  | zero => rw [Nat.add_zero, cat, List.append_nil]
  | succ k ih => rw [← Nat.add_assoc, cat, cat, ih, List.append_assoc]

section

variable {n : Nat} (hc : ∀ j, j < n → (B j).length = c j)

include hc

theorem length_cat_eq : (cat B n).length = prefixSum c n := by
  rw [length_cat]
  exact prefixSum_congr hc

theorem slice_cat_run {a k : Nat} (h : a + k ≤ n) :
    slice (cat B n) (prefixSum c a) (prefixSum (fun j => c (a + j)) k)
      = cat (fun j => B (a + j)) k := by
  obtain ⟨l, rfl⟩ := Nat.exists_eq_add_of_le h
  have ha : (cat B a).length = prefixSum c a :=
    length_cat_eq fun j hj => hc j (by omega)
  have hk : (cat (fun j => B (a + j)) k).length = prefixSum (fun j => c (a + j)) k :=
    length_cat_eq fun j hj => hc (a + j) (by omega)
  rw [Nat.add_assoc, cat_add, cat_add, slice, ← ha, List.drop_left, ← hk, List.take_left]

theorem slice_cat {j : Nat} (h : j < n) : slice (cat B n) (prefixSum c j) (c j) = B j := by
  have := slice_cat_run hc (a := j) (k := 1) (by omega)
  simpa [prefixSum, cat] using this

end

/-! ## Equal blocks -/

/-- Block `j` of a buffer laid out in equal blocks. -/
theorem slice_cat_const {B : Nat → List α} {b n j : Nat} (hB : ∀ i, i < n → (B i).length = b)
    (hj : j < n) : slice (cat B n) (j * b) b = B j := by
  have := slice_cat (c := fun _ => b) hB hj
  rwa [prefixSum_const] at this

theorem length_cat_const {B : Nat → List α} {b n : Nat} (hB : ∀ i, i < n → (B i).length = b) :
    (cat B n).length = n * b := by
  rw [length_cat_eq (c := fun _ => b) hB, prefixSum_const]

theorem mul_add_le_mul {j n : Nat} (hj : j < n) (b : Nat) : j * b + b ≤ n * b := by
  have := Nat.mul_le_mul_right b (show j + 1 ≤ n by omega)
  rwa [Nat.add_mul, Nat.one_mul] at this

theorem apart_mul {i j : Nat} (h : i ≠ j) (b : Nat) : Apart (i * b) b (j * b) b := by
  unfold Apart
  rcases Nat.lt_or_gt_of_ne h with h | h
  · exact .inr (.inr (.inl (mul_add_le_mul h b)))
  · exact .inr (.inr (.inr (mul_add_le_mul h b)))

end Pimid
