import Mathlib.Data.List.Basic
import Mathlib.Data.List.Nodup
import Pimid.Lib.Index

/-!
# Taking turns

An arbiter goes through `n` positions in turn from a pointer on, takes the first that asks, and puts the pointer past
it. A position that keeps asking is passed over by each of the others at most once before it is taken: every one taken
is nearer the pointer than it was, counted around the ring, and farther from it than those taken before.
-/

namespace Pimid

/-- The first of the positions from `p` on that asks, in at most `k` steps around the ring of `n`. -/
def scanFrom (n : ℕ) (asks : ℕ → Bool) : ℕ → ℕ → Option ℕ
  | 0, _ => none
  | k + 1, p => if asks p then some p else scanFrom n asks k ((p + 1) % n)

variable {n p v : ℕ} {asks : ℕ → Bool}

theorem scanFrom_eq (n p : ℕ) (asks : ℕ → Bool) (k j : ℕ) :
    scanFrom n asks k ((j + p) % n) = ((List.range' j k).find? fun i => asks ((i + p) % n)).map fun i => (i + p) % n := by
  induction k generalizing j with
  | zero => rfl
  | succ k ih =>
    rw [scanFrom, List.range'_succ, List.find?_cons]
    cases asks ((j + p) % n) with
    | true => rfl
    | false =>
      have hnext : ((j + p) % n + 1) % n = (j + 1 + p) % n := by
        rw [Nat.mod_add_mod]
        congr 1
        omega
      rw [if_neg Bool.false_ne_true, hnext, ih]

/-- **The one taken** asks, and none that asks stands before it. -/
theorem scanFrom_some (hp : p < n) {x : ℕ} (h : scanFrom n asks n p = some x) :
    x < n ∧ asks x = true ∧ ∀ y < n, asks y = true → rel n p x ≤ rel n p y := by
  have h0 := scanFrom_eq n p asks n 0
  rw [Nat.zero_add, Nat.mod_eq_of_lt hp, h] at h0
  obtain ⟨i, hi, rfl⟩ := Option.map_eq_some_iff.mp h0.symm
  obtain ⟨hasks, k, hk, hik, hbefore⟩ := List.find?_eq_some_iff_getElem.mp hi
  rw [List.length_range'] at hk
  obtain rfl : k = i := by
    rw [List.getElem_range'] at hik
    omega
  refine ⟨Nat.mod_lt _ (by omega), hasks, fun y hy hay => ?_⟩
  rw [rel_ofRel hp hk]
  by_contra hlt
  have hb := hbefore (rel n p y) (by omega)
  rw [List.getElem_range'] at hb
  rw [show 0 + 1 * rel n p y + p = rel n p y + p by omega, ofRel_rel hp hy, hay] at hb
  cases hb

theorem scanFrom_isSome (hp : p < n) {y : ℕ} (hy : y < n) (hay : asks y = true) : ∃ x, scanFrom n asks n p = some x := by
  have h0 := scanFrom_eq n p asks n 0
  rw [Nat.zero_add, Nat.mod_eq_of_lt hp] at h0
  rw [h0]
  obtain ⟨i, hi⟩ : ∃ i, (List.range' 0 n).find? (fun i => asks ((i + p) % n)) = some i := by
    refine Option.isSome_iff_exists.mp (List.find?_isSome.mpr ⟨rel n p y, ?_, ?_⟩)
    · rw [List.mem_range'_1]
      exact ⟨Nat.zero_le _, by rw [Nat.zero_add]; exact rel_lt p y (by omega)⟩
    · rw [ofRel_rel hp hy]
      exact hay
  exact ⟨_, by rw [hi]; rfl⟩

/-- Those taken in a row while `v` asks: each is not `v`, stands no farther from the pointer, and puts the pointer past
it. -/
def PassOver (n v : ℕ) : ℕ → List ℕ → Prop
  | _, [] => True
  | p, x :: xs => (x < n ∧ x ≠ v ∧ rel n p x ≤ rel n p v) ∧ PassOver n v ((x + 1) % n) xs

/-- Past the one taken, the ring is shorter up to `v`. -/
theorem rel_past (hp : p < n) (hv : v < n) {x y : ℕ} (hx : x < n) (hne : x ≠ v) (hle : rel n p x ≤ rel n p v)
    (hy : y < n) (hyv : rel n ((x + 1) % n) y ≤ rel n ((x + 1) % n) v) : rel n p x < rel n p y ∧ rel n p y ≤ rel n p v := by
  have hn : (x + 1) % n < n := Nat.mod_lt _ (by omega)
  have hstep : (x + 1) % n = if x + 1 < n then x + 1 else x + 1 - n := mod_of_lt_two_mul (by omega)
  rw [rel_eq hn hy, rel_eq hn hv, hstep] at hyv
  rw [rel_eq hp hx, rel_eq hp hv] at hle
  rw [rel_eq hp hx, rel_eq hp hy, rel_eq hp hv]
  split_ifs at hyv hle ⊢ <;> omega

/-- **Nobody is taken twice** while another asks and is not taken. -/
theorem PassOver.nodup {xs : List ℕ} (hp : p < n) (hv : v < n) (h : PassOver n v p xs) :
    xs.Nodup ∧ ∀ x ∈ xs, x < n ∧ rel n p x ≤ rel n p v := by
  induction xs generalizing p with
  | nil => exact ⟨List.nodup_nil, fun _ hx => absurd hx List.not_mem_nil⟩
  | cons x xs ih =>
    obtain ⟨⟨hx, hne, hle⟩, hrest⟩ := h
    obtain ⟨hnodup, hall⟩ := ih (Nat.mod_lt _ (by omega)) hrest
    have hlater : ∀ y ∈ xs, rel n p x < rel n p y ∧ rel n p y ≤ rel n p v := fun y hy =>
      rel_past hp hv hx hne hle (hall y hy).1 (hall y hy).2
    refine ⟨List.nodup_cons.mpr ⟨fun hmem => ?_, hnodup⟩, List.forall_mem_cons.mpr ⟨⟨hx, hle⟩, fun y hy => ?_⟩⟩
    · exact absurd (hlater x hmem).1 (Nat.lt_irrefl _)
    · exact ⟨(hall y hy).1, (hlater y hy).2⟩

end Pimid
