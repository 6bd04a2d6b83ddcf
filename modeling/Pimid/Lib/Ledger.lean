import Pimid.Lib.Maps
import Pimid.Lib.Buckets
import Mathlib.Algebra.BigOperators.Group.List.Basic

/-!
# A sequenced ledger that can be pruned

Amounts are booked under sequence numbers, in any order of the numbers. Pruning
folds the entries below a number into a base, and what is booked below that number
afterwards goes to the base too. Whatever was pruned and whenever, the balance at a
mark that is not below the last pruning is the sum of what was booked before the
mark.
-/

namespace Pimid

open Std (TreeMap)

variable {α : Type} [AddCommMonoid α]

/-! ## Sums over an ordered map -/

/-- The values whose keys satisfy `p`, added up. -/
def sumOf (m : TreeMap Nat α) (p : Nat → Bool) : α :=
  ((m.toList.filter fun e => p e.1).map (·.2)).sum

/-- The same of what `f` makes of the values. -/
def sumBy {β : Type} (f : β → α) (m : TreeMap Nat β) (p : Nat → Bool) : α :=
  ((m.toList.filter fun e => p e.1).map fun e => f e.2).sum

private theorem sumBy_insert_fresh {β : Type} (f : β → α) (m : TreeMap Nat β) (k : Nat) (v : β) (p : Nat → Bool) :
    sumBy f (m.insert k v) p =
      (if p k then f v else 0) + (((m.toList.filter fun e => ¬k == e.1).filter fun e => p e.1).map fun e => f e.2).sum := by
  have hperm := (TreeMap.toList_insert_perm (t := m) (k := k) (v := v)).filter fun e => p e.1
  rw [sumBy, (hperm.map fun e => f e.2).sum_eq]
  by_cases hp : p k
  · simp [hp]
  · simp [hp]

theorem sumBy_insert {β : Type} {f : β → α} {m : TreeMap Nat β} {k : Nat} {v : β} {d : α}
    (h : f v = (m[k]?.map f).getD 0 + d) (p : Nat → Bool) :
    sumBy f (m.insert k v) p = sumBy f m p + if p k then d else 0 := by
  rw [sumBy_insert_fresh, h]
  cases hk : m[k]? with
  | none =>
    have hrest : (m.toList.filter fun e => ¬k == e.1) = m.toList := by
      refine List.filter_eq_self.mpr fun e he => ?_
      have he' := TreeMap.mem_toList_iff_getElem?_eq_some.mp he
      have hne : k ≠ e.1 := by
        rintro rfl
        rw [hk] at he'
        cases he'
      simpa using hne
    rw [hrest, Option.map_none, Option.getD_none, zero_add, add_comm, sumBy]
  | some w =>
    -- putting back the value that is there changes nothing
    have hself : (m.insert k w).toList = m.toList := by
      refine toList_eq_of_mem (toList_pairwise_lt m) fun x => ?_
      rw [TreeMap.mem_toList_iff_getElem?_eq_some, getElem?_insert_eq]
      by_cases hx : x.1 = k
      · rw [if_pos hx, hx, hk]
      · rw [if_neg hx]
    have hsum := sumBy_insert_fresh f m k w p
    rw [sumBy, hself] at hsum
    rw [sumBy, hsum, Option.map_some, Option.getD_some]
    by_cases hp : p k
    · simp only [if_pos hp]
      rw [add_assoc, add_assoc, add_comm d]
    · simp only [if_neg hp]
      rw [add_zero]

theorem sumOf_bump (m : TreeMap Nat α) (k : Nat) (v : α) (p : Nat → Bool) :
    sumOf (m.insert k (m.getD k 0 + v)) p = sumOf m p + if p k then v else 0 :=
  sumBy_insert (f := id) (by rw [TreeMap.getD_eq_getD_getElem?, Option.map_id]; rfl) p

theorem foldl_add_values (b : α) (es : List (Nat × α)) :
    es.foldl (fun b e => b + e.2) b = b + (es.map (·.2)).sum := by
  induction es generalizing b with
  | nil => simp
  | cons e es ih => rw [List.foldl_cons, ih, List.map_cons, List.sum_cons, add_assoc]

/-! ## The ledger -/

/-- Amounts under their numbers, and in `base` what was folded below `cut`. -/
structure Ledger (α : Type) where
  entries : TreeMap Nat α := ∅
  base : α
  cut : Nat := 0

/-- What is booked: an amount under a number, or a correction that counts at every mark. -/
inductive Booking (α : Type) where
  | event (seq : Nat) (amount : α)
  | correction (amount : α)
deriving DecidableEq, Repr

namespace Booking

def amount : Booking α → α
  | event _ v => v
  | correction v => v

/-- The booking precedes the mark. -/
def precedes (seq : Nat) : Booking α → Bool
  | event n _ => n < seq
  | correction _ => true

/-- The bookings that precede the mark, added up. -/
def sumBefore (seq : Nat) (log : List (Booking α)) : α :=
  ((log.filter (precedes seq)).map amount).sum

def sumAll (log : List (Booking α)) : α :=
  (log.map amount).sum

theorem sumBefore_append (seq : Nat) (l₁ l₂ : List (Booking α)) :
    sumBefore seq (l₁ ++ l₂) = sumBefore seq l₁ + sumBefore seq l₂ := by
  simp [sumBefore]

theorem sumAll_append (l₁ l₂ : List (Booking α)) : sumAll (l₁ ++ l₂) = sumAll l₁ + sumAll l₂ := by
  simp [sumAll]

end Booking

namespace Ledger

def add (l : Ledger α) (key : Nat) (v : α) : Ledger α :=
  if key < l.cut then { l with base := l.base + v }
  else { l with entries := l.entries.insert key (l.entries.getD key 0 + v) }

def correct (l : Ledger α) (v : α) : Ledger α :=
  { l with base := l.base + v }

/-- Fold what is below `below` into the base. -/
def prune (l : Ledger α) (below : Nat) : Ledger α :=
  if l.cut < below then
    { entries := l.entries.filter fun k _ => !decide (k < below)
      base := (l.entries.toList.takeWhile fun e => e.1 < below).foldl (fun b e => b + e.2) l.base
      cut := below }
  else l

/-- The base and the entries before the mark. -/
def balanceAt (l : Ledger α) (seq : Nat) : α :=
  (l.entries.toList.takeWhile fun e => e.1 < seq).foldl (fun b e => b + e.2) l.base

/-- The base and every entry. -/
def total (l : Ledger α) : α :=
  l.base + (l.entries.toList.map (·.2)).sum

theorem foldl_before (l : Ledger α) (seq : Nat) :
    (l.entries.toList.takeWhile fun e => e.1 < seq).foldl (fun b e => b + e.2) l.base =
      l.base + sumOf l.entries fun k => k < seq := by
  have hord : l.entries.toList.Pairwise fun x y => decide (y.1 < seq) = true → decide (x.1 < seq) = true := by
    refine (toList_pairwise_lt l.entries).imp fun {x y} hxy hy => ?_
    have := of_decide_eq_true hy
    exact decide_eq_true (by omega)
  rw [foldl_add_values, takeWhile_eq_filter hord, sumOf]

theorem balanceAt_eq (l : Ledger α) (seq : Nat) :
    l.balanceAt seq = l.base + sumOf l.entries fun k => k < seq :=
  foldl_before l seq

theorem total_eq (l : Ledger α) : l.total = l.base + sumOf l.entries fun _ => true := by
  simp [total, sumOf]

/-! ### What each operation does to a balance -/

theorem add_cut (l : Ledger α) (key : Nat) (v : α) : (l.add key v).cut = l.cut := by
  unfold add
  split <;> rfl

theorem balanceAt_add (l : Ledger α) (key : Nat) (v : α) {seq : Nat} (h : l.cut ≤ seq) :
    (l.add key v).balanceAt seq = l.balanceAt seq + if key < seq then v else 0 := by
  rw [balanceAt_eq, balanceAt_eq]
  by_cases hk : key < l.cut
  · rw [add, if_pos hk, if_pos (Nat.lt_of_lt_of_le hk h)]
    exact add_right_comm _ _ _
  · rw [add, if_neg hk]
    show l.base + sumOf (l.entries.insert key (l.entries.getD key 0 + v)) _ = _
    rw [sumOf_bump, add_assoc]
    simp only [decide_eq_true_eq]

theorem total_add (l : Ledger α) (key : Nat) (v : α) : (l.add key v).total = l.total + v := by
  rw [total_eq, total_eq]
  by_cases hk : key < l.cut
  · rw [add, if_pos hk]
    exact add_right_comm _ _ _
  · rw [add, if_neg hk]
    show l.base + sumOf (l.entries.insert key (l.entries.getD key 0 + v)) _ = _
    rw [sumOf_bump, add_assoc, if_pos rfl]

theorem balanceAt_correct (l : Ledger α) (v : α) (seq : Nat) :
    (l.correct v).balanceAt seq = l.balanceAt seq + v := by
  rw [balanceAt_eq, balanceAt_eq]
  exact add_right_comm _ _ _

theorem total_correct (l : Ledger α) (v : α) : (l.correct v).total = l.total + v := by
  rw [total_eq, total_eq]
  exact add_right_comm _ _ _

theorem cut_le_prune (l : Ledger α) (below : Nat) : l.cut ≤ (l.prune below).cut := by
  unfold prune
  split
  · next h => exact Nat.le_of_lt h
  · exact Nat.le_refl _

/-- What the pruning takes out of the entries it puts into the base. -/
theorem sumOf_prune (m : TreeMap Nat α) {below : Nat} {p : Nat → Bool} (hp : ∀ k < below, p k = true) :
    (sumOf m fun k => k < below) + sumOf (m.filter fun k _ => !decide (k < below)) p = sumOf m p := by
  unfold sumOf
  rw [TreeMap.toList_filter]
  induction m.toList with
  | nil => simp
  | cons e es ih =>
    by_cases hb : e.1 < below
    · have hpe := hp e.1 hb
      simp only [List.filter_cons, hb, hpe, decide_true, Bool.not_true, if_true, Bool.false_eq_true, if_false, List.map_cons,
        List.sum_cons] at ih ⊢
      rw [add_assoc, ih]
    · by_cases hpe : p e.1 = true
      · simp only [List.filter_cons, hb, hpe, decide_false, Bool.not_false, if_true, Bool.false_eq_true, if_false, List.map_cons,
          List.sum_cons] at ih ⊢
        rw [add_left_comm, ih]
      · simp only [List.filter_cons, hb, hpe, decide_false, Bool.not_false, if_true, Bool.false_eq_true, if_false] at ih ⊢
        exact ih

theorem balanceAt_prune (l : Ledger α) (below : Nat) {seq : Nat} (h : (l.prune below).cut ≤ seq) :
    (l.prune below).balanceAt seq = l.balanceAt seq := by
  unfold prune at h ⊢
  split
  · next hlt =>
    rw [if_pos hlt] at h
    have hall : ∀ k < below, decide (k < seq) = true := fun k hk => decide_eq_true (Nat.lt_of_lt_of_le hk h)
    rw [balanceAt_eq, balanceAt_eq, ← sumOf_prune l.entries hall, ← add_assoc, ← foldl_before l below]
  · rfl

theorem total_prune (l : Ledger α) (below : Nat) : (l.prune below).total = l.total := by
  unfold prune
  split
  · rw [total_eq, total_eq, ← sumOf_prune l.entries fun k (_ : k < below) => rfl, ← add_assoc, ← foldl_before l below]
  · rfl

/-! ## The ledger and the bookings -/

/-- The ledger answers for the bookings: at every mark from the last pruning on, and in all. -/
structure Keeps (l : Ledger α) (log : List (Booking α)) : Prop where
  balance : ∀ seq, l.cut ≤ seq → l.balanceAt seq = Booking.sumBefore seq log
  total : l.total = Booking.sumAll log

theorem Keeps.empty : Keeps ({ base := 0 } : Ledger α) [] where
  balance _ _ := rfl
  total := by
    show (0 : α) + 0 = 0
    exact add_zero 0

theorem Keeps.add {l : Ledger α} {log : List (Booking α)} (h : Keeps l log) (key : Nat) (v : α) :
    Keeps (l.add key v) (log ++ [.event key v]) where
  balance seq hseq := by
    rw [add_cut] at hseq
    rw [balanceAt_add l key v hseq, h.balance seq hseq, Booking.sumBefore_append]
    congr 1
    by_cases hk : key < seq <;> simp [Booking.sumBefore, Booking.precedes, Booking.amount, hk]
  total := by
    rw [total_add, h.total, Booking.sumAll_append]
    simp [Booking.sumAll, Booking.amount]

theorem Keeps.correct {l : Ledger α} {log : List (Booking α)} (h : Keeps l log) (v : α) :
    Keeps (l.correct v) (log ++ [.correction v]) where
  balance seq hseq := by
    rw [balanceAt_correct, h.balance seq hseq, Booking.sumBefore_append]
    congr 1
    exact (add_zero v).symm
  total := by
    rw [total_correct, h.total, Booking.sumAll_append]
    simp [Booking.sumAll, Booking.amount]

theorem Keeps.prune {l : Ledger α} {log : List (Booking α)} (h : Keeps l log) (below : Nat) :
    Keeps (l.prune below) log where
  balance seq hseq := by
    rw [balanceAt_prune l below hseq, h.balance seq (Nat.le_trans (cut_le_prune l below) hseq)]
  total := by rw [total_prune, h.total]

end Ledger

end Pimid
