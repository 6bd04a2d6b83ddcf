import Pimid.Mpi.ReduceLocal
import Pimid.Mpi.Tree

/-!
# Recursive halving

The reduce-scatter both reductions use for long vectors. `pof2` survivors cut
the vector into `pof2` pieces; in step `i` a survivor swaps half of the pieces it
still works on with the survivor that differs in bit `i`, and combines what it
gets into the half it keeps. After step `i` it works on the `2 ^ (K - i)` pieces
from `first` on, which its low `i` bits choose.

The code carries that range as `send_idx`, `recv_idx` and `last_idx`. `last_idx`
is not updated in the last step, so it ends one step behind (`lastAt`), and the
loops that spread the pieces again rely on that. `halvingMove` and
`regatherMove` are one step's index arithmetic in both directions; the two lemmas
about them say that a survivor sends exactly the pieces its partner keeps, or
exactly those it has.
-/

namespace Pimid.Mpi

open Pimid.Net

/-! ## The code -/

/-- `while (p * 2 <= n) p *= 2;` from `p = 2 ^ i`. -/
def pof2FloorFrom (n i : Nat) : Nat :=
  if 2 ^ i * 2 ≤ n then pof2FloorFrom n (i + 1) else 2 ^ i
termination_by n - i
decreasing_by
  have := Nat.lt_two_pow_self (n := i)
  omega

def pof2Floor (n : Nat) : Nat := pof2FloorFrom n 0

/-- Elements in piece `i`. -/
def pieceLen (count pof2 i : Nat) : Nat := count / pof2 + if i < count % pof2 then 1 else 0

/-- The element piece `i` starts at. -/
def pieceOff (count pof2 i : Nat) : Nat := prefixSum (pieceLen count pof2) i

/-- `rs_pieces`: `cnts` and `disps`. -/
def rsPieces (count pof2 : Nat) : List Nat × List Nat :=
  ((List.range pof2).map (pieceLen count pof2), (List.range pof2).map (pieceOff count pof2))

/-- `for (; i < b; i++) s += cnts[i];` -/
def rsSumFrom (cnts : List Nat) (b i s : Nat) : Option Nat :=
  if i < b then cnts[i]?.bind fun c => rsSumFrom cnts b (i + 1) (s + c) else some s
termination_by b - i

def rsSum (cnts : List Nat) (a b : Nat) : Option Nat := rsSumFrom cnts b a 0

/-- What one step moves: elements `[sendOff, sendOff + sendCnt)` out, the same of `recv` in;
and the indices it leaves. -/
structure Move where
  sendOff : Nat
  sendCnt : Nat
  recvOff : Nat
  recvCnt : Nat
  recvIdx : Nat
  lastIdx : Nat

/-- A step of the halving. `none` is an index outside `cnts` or `disps`. -/
def halvingMove (pieces : List Nat × List Nat) (pof2 newrank i sendIdx recvIdx lastIdx : Nat) :
    Option Move := do
  let half := pof2 / (2 ^ i * 2)
  let newdst := newrank ^^^ 2 ^ i
  let sendIdx' := if newrank < newdst then recvIdx + half else sendIdx
  let recvIdx' := if newrank < newdst then recvIdx else sendIdx + half
  let sendCnt ← if newrank < newdst then rsSum pieces.1 sendIdx' lastIdx
    else rsSum pieces.1 sendIdx' recvIdx'
  let recvCnt ← if newrank < newdst then rsSum pieces.1 recvIdx' sendIdx'
    else rsSum pieces.1 recvIdx' lastIdx
  let sendOff ← pieces.2[sendIdx']?
  let recvOff ← pieces.2[recvIdx']?
  some ⟨sendOff, sendCnt, recvOff, recvCnt, recvIdx',
    if 2 ^ (i + 1) < pof2 then recvIdx' + pof2 / 2 ^ (i + 1) else lastIdx⟩

/-- The index arithmetic of `halving_final_idx` from `mask = 2 ^ i` on. -/
def halvingFinalIdxFrom (newrank pof2 i sendIdx recvIdx lastIdx : Nat) : Nat × Nat :=
  if 2 ^ i < pof2 then
    let half := pof2 / (2 ^ i * 2)
    let recvIdx' := if newrank < (newrank ^^^ 2 ^ i) then recvIdx else sendIdx + half
    halvingFinalIdxFrom newrank pof2 (i + 1) recvIdx' recvIdx'
      (if 2 ^ (i + 1) < pof2 then recvIdx' + pof2 / 2 ^ (i + 1) else lastIdx)
  else (sendIdx, lastIdx)
termination_by pof2 - i
decreasing_by
  have := Nat.lt_two_pow_self (n := i)
  omega

def halvingFinalIdx (newrank pof2 : Nat) : Nat × Nat :=
  halvingFinalIdxFrom newrank pof2 0 0 0 pof2

/-- A reduction's operation and element type, and what they are on this machine. -/
structure RedArgs where
  fp : Floats
  dt : Nat
  op : Nat

/-- The loop of `reduce_scatter_halving` from `mask = 2 ^ i` on. Returns `send_idx` and
`last_idx`. -/
def halvingFrom (c : RedArgs) (P : Nat) (acc tmp : BufId) (newrank pof2 : Nat)
    (pieces : List Nat × List Nat) (ext : Nat) (realOf : Nat → Nat)
    (i sendIdx recvIdx lastIdx : Nat) (m : Mem) : Rank (Nat × Nat × Mem) :=
  if 2 ^ i < pof2 then do
    let dst := realOf (newrank ^^^ 2 ^ i)
    let v ← access (halvingMove pieces pof2 newrank i sendIdx recvIdx lastIdx)
    let (_, m) ← xchgBytes P m acc (v.sendOff * ext) (v.sendCnt * ext) dst
      tmp (v.recvOff * ext) (v.recvCnt * ext) dst
    let m ← access (reduceLocal c.fp m tmp (v.recvOff * ext) acc (v.recvOff * ext) v.recvCnt c.dt c.op)
    halvingFrom c P acc tmp newrank pof2 pieces ext realOf (i + 1) v.recvIdx v.recvIdx v.lastIdx m
  else .ret (sendIdx, lastIdx, m)
termination_by pof2 - i
decreasing_by
  have := Nat.lt_two_pow_self (n := i)
  omega

def reduceScatterHalving (c : RedArgs) (P : Nat) (acc tmp : BufId) (newrank pof2 : Nat)
    (pieces : List Nat × List Nat) (ext : Nat) (realOf : Nat → Nat) (m : Mem) :
    Rank (Nat × Nat × Mem) :=
  halvingFrom c P acc tmp newrank pof2 pieces ext realOf 0 0 0 pof2 m

/-- A step back up, when the pieces are spread or gathered again. -/
def regatherMove (pieces : List Nat × List Nat) (pof2 newrank mask sendIdx lastIdx : Nat) :
    Option Move := do
  let half := pof2 / (mask * 2)
  let newdst := newrank ^^^ mask
  let lastIdx' := if newrank < newdst ∧ mask ≠ pof2 / 2 then lastIdx + half else lastIdx
  let recvIdx ← if newrank < newdst then some (sendIdx + half)
    else if half ≤ sendIdx then some (sendIdx - half) else none
  let sendCnt ← if newrank < newdst then rsSum pieces.1 sendIdx recvIdx
    else rsSum pieces.1 sendIdx lastIdx'
  let recvCnt ← if newrank < newdst then rsSum pieces.1 recvIdx lastIdx'
    else rsSum pieces.1 recvIdx sendIdx
  let sendOff ← pieces.2[sendIdx]?
  let recvOff ← pieces.2[recvIdx]?
  some ⟨sendOff, sendCnt, recvOff, recvCnt, recvIdx, lastIdx'⟩

/-! ## Pieces -/

theorem pof2Floor_spec {n : Nat} (hn : 1 ≤ n) :
    ∃ K, pof2Floor n = 2 ^ K ∧ 2 ^ K ≤ n ∧ n < 2 ^ (K + 1) := by
  have hrun : ∀ d i, n - i = d → 2 ^ i ≤ n →
      ∃ K, pof2FloorFrom n i = 2 ^ K ∧ 2 ^ K ≤ n ∧ n < 2 ^ (K + 1) := by
    intro d
    induction d using Nat.strongRecOn with
    | _ d ih =>
      intro i hd hi
      have hlt := Nat.lt_two_pow_self (n := i)
      rw [pof2FloorFrom]
      split
      · next h => exact ih (n - (i + 1)) (by omega) (i + 1) rfl (by rw [Nat.pow_succ]; exact h)
      · next h => exact ⟨i, rfl, hi, by rw [Nat.pow_succ]; omega⟩
  exact hrun n 0 rfl hn

theorem pieceOff_eq (count pof2 n : Nat) :
    pieceOff count pof2 n = n * (count / pof2) + min n (count % pof2) := by
  induction n with
  | zero => simp [pieceOff, prefixSum]
  | succ n ih =>
    rw [pieceOff] at ih ⊢
    rw [prefixSum, ih, pieceLen, Nat.add_mul, Nat.one_mul]
    split <;> omega

theorem pieceOff_all {count pof2 : Nat} (h : 0 < pof2) : pieceOff count pof2 pof2 = count := by
  have := Nat.mod_lt count h
  rw [pieceOff_eq, Nat.min_eq_right (by omega)]
  exact Nat.div_add_mod count pof2

theorem pieceOff_mono (count pof2 : Nat) {a b : Nat} (h : a ≤ b) :
    pieceOff count pof2 a ≤ pieceOff count pof2 b := prefixSum_mono _ h

theorem rsSum_eq {count pof2 a b : Nat} (hab : a ≤ b) (hb : b ≤ pof2) :
    rsSum (rsPieces count pof2).1 a b = some (pieceOff count pof2 b - pieceOff count pof2 a) := by
  have hrun : ∀ d i s, b - i = d → i ≤ b → rsSumFrom (rsPieces count pof2).1 b i s
      = some (s + (pieceOff count pof2 b - pieceOff count pof2 i)) := by
    intro d
    induction d with
    | zero =>
      intro i s hd hi
      obtain rfl : i = b := by omega
      rw [rsSumFrom, if_neg (Nat.lt_irrefl i), Nat.sub_self, Nat.add_zero]
    | succ d ih =>
      intro i s hd hi
      have hget : (rsPieces count pof2).1[i]? = some (pieceLen count pof2 i) := by
        simp [rsPieces, List.getElem?_range (show i < pof2 by omega)]
      have hmono := pieceOff_mono count pof2 (show i + 1 ≤ b by omega)
      have hstep : pieceOff count pof2 (i + 1) = pieceOff count pof2 i + pieceLen count pof2 i := rfl
      rw [rsSumFrom, if_pos (by omega), hget, Option.bind_some, ih (i + 1) _ (by omega) (by omega)]
      congr 1
      omega
  rw [rsSum, hrun (b - a) a 0 rfl hab, Nat.zero_add]

theorem disps_get {count pof2 i : Nat} (h : i < pof2) :
    (rsPieces count pof2).2[i]? = some (pieceOff count pof2 i) := by
  simp [rsPieces, List.getElem?_range h]

/-! ## Ranges -/

/-- The first piece survivor `k` works on after `i` steps. -/
def first (K k : Nat) : Nat → Nat
  | 0 => 0
  | i + 1 => first K k i + if k.testBit i then 2 ^ (K - 1 - i) else 0

/-- `last_idx` after `i` steps. -/
def lastAt (K k i : Nat) : Nat :=
  if i < K then first K k i + 2 ^ (K - i) else first K k (K - 1) + 2 ^ (K - (K - 1))

/-- The elements survivor `k` works on after `i` steps are `[eltLo, eltHi)`. -/
def eltLo (count K k i : Nat) : Nat := pieceOff count (2 ^ K) (first K k i)

def eltHi (count K k i : Nat) : Nat := pieceOff count (2 ^ K) (first K k i + 2 ^ (K - i))

section

variable {count K k i j : Nat}

theorem lt_xor_pow_iff : k < k ^^^ 2 ^ i ↔ k.testBit i = false := by
  rw [xor_pow]
  have hpos := Nat.two_pow_pos i
  cases hb : k.testBit i
  · simp only [Bool.false_eq_true, if_false, iff_true]
    omega
  · have := pow_le_of_testBit hb
    simp only [if_true, Bool.true_eq_false, iff_false]
    omega

theorem first_xor (hj : i ≤ j) : first K (k ^^^ 2 ^ j) i = first K k i := by
  induction i with
  | zero => rfl
  | succ i ih =>
    rw [first, first, ih (by omega), Nat.testBit_xor, Nat.testBit_two_pow_of_ne (by omega),
      Bool.xor_false]

theorem pow_half (hi : i < K) : 2 ^ (K - i) = 2 ^ (K - (i + 1)) + 2 ^ (K - (i + 1)) := by
  rw [show K - i = K - (i + 1) + 1 by omega, Nat.pow_succ]
  omega

theorem pof2_half (hi : i < K) : 2 ^ K / (2 ^ i * 2) = 2 ^ (K - (i + 1)) := by
  rw [← Nat.pow_succ, Nat.pow_div (by omega) (by omega)]

/-- The two halves of the range of step `i`: where each partner goes on. -/
theorem first_cases (hi : i < K) :
    (k.testBit i = false ∧ first K k (i + 1) = first K k i ∧
      first K (k ^^^ 2 ^ i) (i + 1) = first K k i + 2 ^ (K - (i + 1))) ∨
    (k.testBit i = true ∧ first K k (i + 1) = first K k i + 2 ^ (K - (i + 1)) ∧
      first K (k ^^^ 2 ^ i) (i + 1) = first K k i) := by
  have hx := first_xor (K := K) (k := k) (Nat.le_refl i)
  rw [first, first, hx, testBit_xor_pow, show K - 1 - i = K - (i + 1) by omega]
  cases k.testBit i
  · left
    simp
  · right
    simp

theorem first_add_le (hi : i ≤ K) : first K k i + 2 ^ (K - i) ≤ 2 ^ K := by
  induction i with
  | zero => simp [first]
  | succ i ih =>
    have := ih (by omega)
    have hhalf := pow_half (K := K) (i := i) (by omega)
    have hpos := Nat.two_pow_pos (K - (i + 1))
    rcases first_cases (K := K) (k := k) (i := i) (by omega) with ⟨-, h, -⟩ | ⟨-, h, -⟩ <;> omega

theorem lastAt_of_lt (hi : i < K) : lastAt K k i = first K k i + 2 ^ (K - i) := if_pos hi

theorem lastAt_zero : lastAt K k 0 = 2 ^ K := by
  unfold lastAt
  split
  · simp [first]
  · obtain rfl : K = 0 := by omega
    rfl

theorem lastAt_succ (hi : i < K) :
    lastAt K k (i + 1) = if i + 1 < K then first K k (i + 1) + 2 ^ (K - (i + 1))
      else first K k i + 2 ^ (K - i) := by
  unfold lastAt
  split
  · rfl
  · obtain rfl : i = K - 1 := by omega
    rfl

theorem lt_pof2_iff : 2 ^ i < 2 ^ K ↔ i < K := Nat.pow_lt_pow_iff_right (by omega)

/-- The step of `halving_final_idx` is the one of the halving. -/
theorem lastIdx_eq (hi : i < K) :
    (if 2 ^ (i + 1) < 2 ^ K then first K k (i + 1) + 2 ^ K / 2 ^ (i + 1) else lastAt K k i)
      = lastAt K k (i + 1) := by
  rw [lastAt_succ hi, lastAt_of_lt hi]
  simp only [lt_pof2_iff]
  split
  · rw [Nat.pow_div (by omega) (by omega)]
  · rfl

theorem recvIdx_eq (hi : i < K) :
    (if k < k ^^^ 2 ^ i then first K k i else first K k i + 2 ^ K / (2 ^ i * 2))
      = first K k (i + 1) := by
  rw [pof2_half hi]
  simp only [lt_xor_pow_iff]
  rcases first_cases (K := K) (k := k) hi with ⟨hb, h, -⟩ | ⟨hb, h, -⟩ <;> rw [hb, h] <;> simp

/-- **A halving step.** Survivor `k` sends what its partner keeps and receives what it
keeps itself. -/
theorem halvingMove_eq (hi : i < K) :
    halvingMove (rsPieces count (2 ^ K)) (2 ^ K) k i (first K k i) (first K k i) (lastAt K k i)
      = some ⟨eltLo count K (k ^^^ 2 ^ i) (i + 1),
        eltHi count K (k ^^^ 2 ^ i) (i + 1) - eltLo count K (k ^^^ 2 ^ i) (i + 1),
        eltLo count K k (i + 1), eltHi count K k (i + 1) - eltLo count K k (i + 1),
        first K k (i + 1), lastAt K k (i + 1)⟩ := by
  have hle := first_add_le (k := k) (show i ≤ K by omega)
  have hhalf := pow_half hi
  have hpos := Nat.two_pow_pos (K - (i + 1))
  simp only [halvingMove, recvIdx_eq hi, lastIdx_eq hi]
  rw [lastAt_of_lt hi, pof2_half hi]
  simp only [lt_xor_pow_iff, eltLo, eltHi]
  rcases first_cases (K := K) (k := k) hi with ⟨hb, h, h'⟩ | ⟨hb, h, h'⟩
  · simp only [hb, if_true, h, h', hhalf, ← Nat.add_assoc]
    rw [rsSum_eq (by omega) (by omega), rsSum_eq (by omega) (by omega), disps_get (by omega),
      disps_get (by omega)]
    rfl
  · simp only [hb, Bool.true_eq_false, if_false, h, h', hhalf, ← Nat.add_assoc]
    rw [rsSum_eq (by omega) (by omega), rsSum_eq (by omega) (by omega), disps_get (by omega),
      disps_get (by omega)]
    rfl

/-- **A step back.** Survivor `k` sends what it has and receives what its partner has. -/
theorem regatherMove_eq (hi : i < K) :
    regatherMove (rsPieces count (2 ^ K)) (2 ^ K) k (2 ^ i) (first K k (i + 1)) (lastAt K k (i + 1))
      = some ⟨eltLo count K k (i + 1), eltHi count K k (i + 1) - eltLo count K k (i + 1),
        eltLo count K (k ^^^ 2 ^ i) (i + 1),
        eltHi count K (k ^^^ 2 ^ i) (i + 1) - eltLo count K (k ^^^ 2 ^ i) (i + 1),
        first K (k ^^^ 2 ^ i) (i + 1), lastAt K k i⟩ := by
  have hle := first_add_le (k := k) (show i ≤ K by omega)
  have hhalf := pow_half hi
  have hpos := Nat.two_pow_pos (K - (i + 1))
  have hmask : 2 ^ i = 2 ^ K / 2 ↔ ¬ i + 1 < K := by
    rw [show K = K - 1 + 1 by omega, half_pow_succ, Nat.pow_right_inj (by omega)]
    omega
  -- where the range of the step before ends
  have hlast : (if k < k ^^^ 2 ^ i ∧ 2 ^ i ≠ 2 ^ K / 2 then lastAt K k (i + 1) + 2 ^ (K - (i + 1))
      else lastAt K k (i + 1)) = lastAt K k i := by
    rw [lastAt_succ hi, lastAt_of_lt hi]
    simp only [lt_xor_pow_iff, ne_eq, hmask, not_not]
    rcases first_cases (K := K) (k := k) hi with ⟨hb, h, -⟩ | ⟨hb, h, -⟩ <;>
      by_cases hk : i + 1 < K <;>
      simp only [hb, h, hk, and_self, and_true, and_false, Bool.true_eq_false, if_true, if_false] <;>
      omega
  simp only [regatherMove, pof2_half hi, hlast]
  rw [lastAt_of_lt hi]
  simp only [lt_xor_pow_iff, eltLo, eltHi]
  rcases first_cases (K := K) (k := k) hi with ⟨hb, h, h'⟩ | ⟨hb, h, h'⟩
  · simp only [hb, if_true, h, h', hhalf, ← Nat.add_assoc, Option.bind_eq_bind, Option.bind_some]
    rw [rsSum_eq (by omega) (by omega), rsSum_eq (by omega) (by omega), disps_get (by omega),
      disps_get (by omega)]
    rfl
  · simp only [hb, Bool.true_eq_false, if_false, h, h', hhalf, ← Nat.add_assoc, Option.bind_eq_bind,
      Nat.le_add_left, if_true, Option.bind_some, Nat.add_sub_cancel]
    rw [rsSum_eq (by omega) (by omega), rsSum_eq (by omega) (by omega), disps_get (by omega),
      disps_get (by omega)]
    rfl

theorem regather_send (hi : i < K) :
    (if k > k ^^^ 2 ^ i then first K (k ^^^ 2 ^ i) (i + 1) else first K k (i + 1)) = first K k i := by
  have hne : k ≠ k ^^^ 2 ^ i := fun h => div_xor_pow_ne k i (by rw [← h])
  have hgt : k > k ^^^ 2 ^ i ↔ ¬ k < k ^^^ 2 ^ i := by omega
  simp only [hgt, lt_xor_pow_iff]
  rcases first_cases (K := K) (k := k) hi with ⟨hb, h, h'⟩ | ⟨hb, h, h'⟩
  · simp only [hb, not_true_eq_false, if_false, h]
  · simp only [hb, Bool.true_eq_false, not_false_eq_true, if_true, h']

theorem halvingFinalIdx_eq :
    halvingFinalIdx k (2 ^ K) = (first K k K, lastAt K k K) := by
  have hrun : ∀ d i, K - i = d → i ≤ K → halvingFinalIdxFrom k (2 ^ K) i (first K k i) (first K k i)
      (lastAt K k i) = (first K k K, lastAt K k K) := by
    intro d
    induction d with
    | zero =>
      intro i hd hi
      obtain rfl : i = K := by omega
      rw [halvingFinalIdxFrom, if_neg (Nat.lt_irrefl _)]
    | succ d ih =>
      intro i hd hi
      rw [halvingFinalIdxFrom, if_pos (lt_pof2_iff.mpr (by omega))]
      simp only [recvIdx_eq (show i < K by omega), lastIdx_eq (show i < K by omega)]
      exact ih (i + 1) (by omega) (by omega)
  have h0 := hrun K 0 rfl (Nat.zero_le K)
  rwa [lastAt_zero] at h0

/-! ### Elements -/

theorem eltHi_zero : eltHi count K k 0 = count := by
  rw [eltHi, first, Nat.zero_add, Nat.sub_zero, pieceOff_all (Nat.two_pow_pos K)]

theorem eltLo_le_eltHi (count K k i : Nat) : eltLo count K k i ≤ eltHi count K k i :=
  pieceOff_mono _ _ (Nat.le_add_right ..)

theorem eltHi_le (hi : i ≤ K) : eltHi count K k i ≤ count := by
  have h := pieceOff_mono count (2 ^ K) (first_add_le (k := k) hi)
  rwa [pieceOff_all (Nat.two_pow_pos K)] at h

/-- The range of step `i` is the two ranges of step `i + 1`, side by side. -/
theorem elt_cases (count k : Nat) (hi : i < K) :
    (eltLo count K k i = eltLo count K k (i + 1) ∧
      eltHi count K k (i + 1) = eltLo count K (k ^^^ 2 ^ i) (i + 1) ∧
      eltHi count K (k ^^^ 2 ^ i) (i + 1) = eltHi count K k i) ∨
    (eltLo count K k i = eltLo count K (k ^^^ 2 ^ i) (i + 1) ∧
      eltHi count K (k ^^^ 2 ^ i) (i + 1) = eltLo count K k (i + 1) ∧
      eltHi count K k (i + 1) = eltHi count K k i) := by
  unfold eltLo eltHi
  rw [pow_half hi, ← Nat.add_assoc]
  rcases first_cases (K := K) (k := k) hi with ⟨-, h, h'⟩ | ⟨-, h, h'⟩
  · left
    rw [h, h']
    exact ⟨rfl, rfl, rfl⟩
  · right
    rw [h, h']
    exact ⟨rfl, rfl, rfl⟩

/-! ### Whose piece an element is in -/

theorem first_congr {l : Nat} (h : k % 2 ^ i = l % 2 ^ i) : first K k i = first K l i := by
  induction i with
  | zero => rfl
  | succ i ih =>
    have hbit : k.testBit i = l.testBit i := by
      have := congrArg (·.testBit i) h
      simpa [Nat.testBit_mod_two_pow] using this
    have hlow : k % 2 ^ i = l % 2 ^ i := by
      rw [mod_pow_succ, mod_pow_succ, hbit] at h
      omega
    rw [first, first, ih hlow, hbit]

theorem elt_within (count k : Nat) (hi : i < K) :
    eltLo count K k i ≤ eltLo count K k (i + 1) ∧ eltHi count K k (i + 1) ≤ eltHi count K k i := by
  have h₁ := eltLo_le_eltHi count K k (i + 1)
  have h₂ := eltLo_le_eltHi count K (k ^^^ 2 ^ i) (i + 1)
  have := elt_cases count k hi
  omega

/-- Members that differ in their low `i` bits work on different elements after `i` steps. -/
theorem elt_apart (count : Nat) {l : Nat} (hi : i ≤ K) (h : k % 2 ^ i ≠ l % 2 ^ i) :
    eltHi count K k i ≤ eltLo count K l i ∨ eltHi count K l i ≤ eltLo count K k i := by
  induction i with
  | zero => exact absurd (by rw [Nat.pow_zero, Nat.mod_one, Nat.mod_one]) h
  | succ i ih =>
    have hk := elt_within count k hi
    have hl := elt_within count l hi
    by_cases hlow : k % 2 ^ i = l % 2 ^ i
    · -- the two halves of one range
      have hbit : l % 2 ^ (i + 1) = (k ^^^ 2 ^ i) % 2 ^ (i + 1) := by
        rw [mod_pow_succ, mod_pow_succ, hlow] at h
        rw [mod_pow_succ, xor_pow_mod_succ, hlow]
        cases hkb : k.testBit i <;> cases hlb : l.testBit i <;> simp [hkb, hlb] at h ⊢
      have hlo : eltLo count K l (i + 1) = eltLo count K (k ^^^ 2 ^ i) (i + 1) := by
        rw [eltLo, eltLo, first_congr hbit]
      have hhi : eltHi count K l (i + 1) = eltHi count K (k ^^^ 2 ^ i) (i + 1) := by
        rw [eltHi, eltHi, first_congr hbit]
      have := elt_cases count k hi
      omega
    · have := ih (by omega) hlow
      omega

/-- Values that the members have in their own pieces, put together. -/
theorem exists_pieces {α : Type} (count K : Nat) (V : Nat → Nat → α) :
    ∃ W : Nat → α, (∀ k, k < 2 ^ K → ∀ x, eltLo count K k K ≤ x → x < eltHi count K k K → V k x = W x) ∧
      ∀ x, ∃ k, k < 2 ^ K ∧ W x = V k x := by
  have hone : ∀ x, ∃ k, k < 2 ^ K ∧
      ((∃ l, l < 2 ^ K ∧ eltLo count K l K ≤ x ∧ x < eltHi count K l K) →
        eltLo count K k K ≤ x ∧ x < eltHi count K k K) := by
    intro x
    by_cases hx : ∃ l, l < 2 ^ K ∧ eltLo count K l K ≤ x ∧ x < eltHi count K l K
    · obtain ⟨l, hl, hin⟩ := hx
      exact ⟨l, hl, fun _ => hin⟩
    · exact ⟨0, Nat.two_pow_pos K, fun h => absurd h hx⟩
  choose own hown hin using hone
  refine ⟨fun x => V (own x) x, fun k hk x hlo hhi => ?_, fun x => ⟨own x, hown x, rfl⟩⟩
  have hx := hin x ⟨k, hk, hlo, hhi⟩
  have heq : k = own x := by
    by_contra hne
    have := elt_apart count (k := k) (l := own x) (Nat.le_refl K) (by
      rw [Nat.mod_eq_of_lt hk, Nat.mod_eq_of_lt (hown x)]
      exact hne)
    omega
  show V k x = V (own x) x
  rw [← heq]

end

end Pimid.Mpi
