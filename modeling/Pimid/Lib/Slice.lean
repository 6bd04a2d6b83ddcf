import Mathlib.Data.List.Basic

/-!
# Reading and overwriting a stretch of a list

`slice l off len` is the stretch `[off, off + len)` of `l`; `splice l off d` is
`l` with `d` written over it from `off` on. Both are characterised by their
`getElem?`, which is how every later proof about buffers goes: two buffers are
equal when they agree at every index, and an index is either inside the written
stretch or outside it.

`Fits l off len` is the bounds check of an access: a stretch of zero elements
touches nothing and always fits.
-/

namespace Pimid

variable {α : Type}

/-- The stretch `[off, off + len)` of `l`. -/
def slice (l : List α) (off len : Nat) : List α := (l.drop off).take len

/-- `l` with `d` written over it from `off` on. -/
def splice (l : List α) (off : Nat) (d : List α) : List α :=
  l.take off ++ d ++ l.drop (off + d.length)

/-- The access `[off, off + len)` stays inside `l`. -/
def Fits (l : List α) (off len : Nat) : Prop := len = 0 ∨ off + len ≤ l.length

instance (l : List α) (off len : Nat) : Decidable (Fits l off len) :=
  inferInstanceAs (Decidable (_ ∨ _))

/-- Two stretches do not overlap; an empty one overlaps nothing. -/
def Apart (off len off' len' : Nat) : Prop :=
  len = 0 ∨ len' = 0 ∨ off + len ≤ off' ∨ off' + len' ≤ off

theorem Fits.of_le {l : List α} {off len : Nat} (h : off + len ≤ l.length) : Fits l off len :=
  .inr h

theorem Fits.sub {l : List α} {off len off' len' : Nat} (h : Fits l off len) (hlo : off ≤ off')
    (hhi : off' + len' ≤ off + len) : Fits l off' len' := by
  unfold Fits at *
  omega

theorem getElem?_slice (l : List α) (off len i : Nat) :
    (slice l off len)[i]? = if i < len then l[off + i]? else none := by
  unfold slice
  rw [List.getElem?_take]
  split
  · rw [List.getElem?_drop]
  · rfl

@[simp] theorem slice_zero (l : List α) (off : Nat) : slice l off 0 = [] := by
  simp [slice]

theorem length_slice {l : List α} {off len : Nat} (h : Fits l off len) :
    (slice l off len).length = len := by
  unfold slice
  rw [List.length_take, List.length_drop]
  rcases h with h | h <;> omega

@[simp] theorem splice_nil (l : List α) (off : Nat) : splice l off [] = l := by
  simp [splice]

theorem length_splice {l : List α} {off : Nat} {d : List α} (h : Fits l off d.length) :
    (splice l off d).length = l.length := by
  rcases h with h | h
  · rw [List.length_eq_zero_iff.mp h, splice_nil]
  · simp only [splice, List.length_append, List.length_take, List.length_drop]
    omega

theorem getElem?_splice {l : List α} {off : Nat} {d : List α} (h : Fits l off d.length) (i : Nat) :
    (splice l off d)[i]? = if off ≤ i ∧ i < off + d.length then d[i - off]? else l[i]? := by
  rcases h with h | h
  · rw [List.length_eq_zero_iff.mp h, splice_nil, if_neg (by simp)]
  · unfold splice
    rw [List.getElem?_append]
    simp only [List.length_append, List.length_take, Nat.min_eq_left (by omega : off ≤ l.length)]
    by_cases h1 : i < off + d.length
    · rw [if_pos h1, List.getElem?_append, List.length_take,
        Nat.min_eq_left (by omega : off ≤ l.length)]
      by_cases h2 : i < off
      · rw [if_pos h2, if_neg (by omega), List.getElem?_take, if_pos h2]
      · rw [if_neg h2, if_pos ⟨by omega, h1⟩]
    · rw [if_neg h1, if_neg (by omega), List.getElem?_drop]
      congr 1
      omega

/-- Two lists of one length agree if they agree below it. -/
theorem ext_getElem?_lt {l l' : List α} (hlen : l.length = l'.length)
    (h : ∀ i, i < l.length → l[i]? = l'[i]?) : l = l' := by
  apply List.ext_getElem?
  intro i
  rcases Nat.lt_or_ge i l.length with hi | hi
  · exact h i hi
  · rw [List.getElem?_eq_none hi, List.getElem?_eq_none (hlen ▸ hi)]

/-- Writing the next piece of `d` right behind the previous ones extends what is
written. -/
theorem splice_append {l : List α} {off : Nat} {d : List α} {a b : Nat}
    (h : Fits l off d.length) (ha : a ≤ d.length) :
    splice (splice l off (d.take a)) (off + a) (slice d a b) = splice l off (d.take (a + b)) := by
  have hlen : (d.take a).length = a := by rw [List.length_take]; omega
  have hlen' : (slice d a b).length = min b (d.length - a) := by
    unfold slice
    rw [List.length_take, List.length_drop]
  have hlen'' : (d.take (a + b)).length = min (a + b) d.length := List.length_take
  have hf₁ : Fits l off (d.take a).length := by rw [hlen]; rcases h with h | h <;> unfold Fits <;> omega
  have hf₂ : Fits (splice l off (d.take a)) (off + a) (slice d a b).length := by
    unfold Fits
    rw [length_splice hf₁, hlen']
    rcases h with h | h <;> omega
  have hf₃ : Fits l off (d.take (a + b)).length := by
    unfold Fits
    rw [hlen'']
    rcases h with h | h <;> omega
  apply List.ext_getElem?
  intro i
  rw [getElem?_splice hf₂, getElem?_splice hf₁, getElem?_splice hf₃, hlen, hlen', hlen'',
    getElem?_slice, List.getElem?_take, List.getElem?_take]
  by_cases h1 : off + a ≤ i ∧ i < off + a + min b (d.length - a)
  · rw [if_pos h1, if_pos (by omega), if_pos (by omega), if_pos (by omega)]
    congr 1
    omega
  · rw [if_neg h1]
    by_cases h2 : off ≤ i ∧ i < off + a
    · rw [if_pos h2, if_pos (by omega), if_pos (by omega), if_pos (by omega)]
    · rw [if_neg h2, if_neg (by omega)]

theorem slice_splice_disjoint {l : List α} {off : Nat} {d : List α} {o n : Nat}
    (h : Fits l off d.length) (hd : Apart o n off d.length) :
    slice (splice l off d) o n = slice l o n := by
  unfold Apart at hd
  apply List.ext_getElem?
  intro i
  rw [getElem?_slice, getElem?_slice]
  split
  · rw [getElem?_splice h, if_neg (by omega)]
  · rfl

theorem slice_append_right (l l' : List α) (o n : Nat) :
    slice (l ++ l') (l.length + o) n = slice l' o n := by
  unfold slice
  rw [← List.drop_drop, List.drop_left]

theorem slice_slice {l : List α} {off len o n : Nat} (h : o + n ≤ len) :
    slice (slice l off len) o n = slice l (off + o) n := by
  apply List.ext_getElem?
  intro i
  rw [getElem?_slice, getElem?_slice, getElem?_slice]
  split
  · rw [if_pos (by omega), Nat.add_assoc]
  · rfl

end Pimid
