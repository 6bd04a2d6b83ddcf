import Mathlib.Order.Interval.Finset.Nat
import Mathlib.Data.Finset.Card

/-!
# Sweeping intervals

Intervals that come in the order of their left ends: each adds to the union what of it
lies beyond the furthest right end so far. In another order the sweep misses what lies in
the gaps it has passed.
-/

namespace Pimid

/-- The union of the intervals. -/
def covered (xs : List (Nat × Nat)) : Finset Nat := xs.toFinset.biUnion fun x => Finset.Ico x.1 x.2

/-- The furthest right end. -/
def reach (xs : List (Nat × Nat)) : Nat := xs.foldl (fun m x => max m x.2) 0

theorem mem_covered {xs : List (Nat × Nat)} {n : Nat} : n ∈ covered xs ↔ ∃ x ∈ xs, x.1 ≤ n ∧ n < x.2 := by
  simp [covered]

@[simp] theorem reach_concat (xs : List (Nat × Nat)) (x : Nat × Nat) : reach (xs ++ [x]) = max (reach xs) x.2 := by
  simp [reach]

theorem lt_reach {xs : List (Nat × Nat)} {n : Nat} : n < reach xs ↔ ∃ x ∈ xs, n < x.2 := by
  induction xs using List.reverseRecOn with
  | nil => simp [reach]
  | append_singleton xs x ih =>
    rw [reach_concat, lt_max_iff, ih]
    constructor
    · intro h
      rcases h with ⟨y, hy, hn⟩ | hn
      · exact ⟨y, List.mem_append_left _ hy, hn⟩
      · exact ⟨x, by simp, hn⟩
    · intro ⟨y, hy, hn⟩
      rcases List.mem_append.mp hy with hy | hy
      · exact .inl ⟨y, hy, hn⟩
      · obtain rfl := List.mem_singleton.mp hy
        exact .inr hn

/-- An interval that starts after the others did adds its part beyond them. -/
theorem covered_concat {xs : List (Nat × Nat)} {x : Nat × Nat} (h : ∀ y ∈ xs, y.1 ≤ x.1) :
    covered (xs ++ [x]) = covered xs ∪ Finset.Ico (max x.1 (reach xs)) x.2 := by
  ext n
  rw [Finset.mem_union, mem_covered, mem_covered, Finset.mem_Ico]
  constructor
  · intro ⟨y, hy, hn⟩
    rcases List.mem_append.mp hy with hy | hy
    · exact .inl ⟨y, hy, hn⟩
    · obtain rfl := List.mem_singleton.mp hy
      -- what it shares with the others is one of theirs
      by_cases hr : n < reach xs
      · obtain ⟨z, hz, hnz⟩ := lt_reach.mp hr
        exact .inl ⟨z, hz, Nat.le_trans (h z hz) hn.1, hnz⟩
      · exact .inr ⟨Nat.max_le.mpr ⟨hn.1, by omega⟩, hn.2⟩
  · intro hn
    rcases hn with ⟨y, hy, hn⟩ | hn
    · exact ⟨y, List.mem_append_left _ hy, hn⟩
    · exact ⟨x, by simp, Nat.le_trans (Nat.le_max_left _ _) hn.1, hn.2⟩

theorem card_covered_concat {xs : List (Nat × Nat)} {x : Nat × Nat} (h : ∀ y ∈ xs, y.1 ≤ x.1) :
    (covered (xs ++ [x])).card = (covered xs).card + (x.2 - max x.1 (reach xs)) := by
  rw [covered_concat h, Finset.card_union_of_disjoint, Nat.card_Ico]
  refine Finset.disjoint_left.mpr fun n hn hi => ?_
  obtain ⟨y, hy, -, hlt⟩ := mem_covered.mp hn
  have hreach : n < reach xs := lt_reach.mpr ⟨y, hy, hlt⟩
  have hge : reach xs ≤ n := Nat.le_trans (Nat.le_max_right _ _) (Finset.mem_Ico.mp hi).1
  omega

/-! ## Any order -/

/-- What the intervals add beyond the furthest right end, one after the other. -/
def swept (xs : List (Nat × Nat)) : Nat := (xs.foldl (fun a x => (a.1 + (x.2 - max x.1 a.2), max a.2 x.2)) (0, 0)).1

/-- No interval meets a gap that the sweep has passed. -/
def Filled (xs : List (Nat × Nat)) : Prop :=
  ∀ ys x zs, xs = ys ++ x :: zs → ∀ n, x.1 ≤ n → n < x.2 → n < reach ys → n ∈ covered ys

@[simp] theorem swept_nil : swept [] = 0 := rfl

@[simp] theorem swept_concat (xs : List (Nat × Nat)) (x : Nat × Nat) :
    swept (xs ++ [x]) = swept xs + (x.2 - max x.1 (reach xs)) := by
  have hreach (xs : List (Nat × Nat)) (a b : Nat) :
      (xs.foldl (fun a x => (a.1 + (x.2 - max x.1 a.2), max a.2 x.2)) (a, b)).2 = xs.foldl (fun m x => max m x.2) b := by
    induction xs generalizing a b with
    | nil => rfl
    | cons x xs ih => exact ih _ _
  rw [swept, List.foldl_append, List.foldl_cons, List.foldl_nil, hreach]
  rfl

theorem filled_concat {xs : List (Nat × Nat)} {x : Nat × Nat} :
    Filled (xs ++ [x]) ↔ Filled xs ∧ ∀ n, x.1 ≤ n → n < x.2 → n < reach xs → n ∈ covered xs := by
  constructor
  · intro h
    refine ⟨fun ys y zs hxs => h ys y (zs ++ [x]) (by simp [hxs]), h xs x [] rfl⟩
  · intro ⟨h, hx⟩ ys y zs hxs
    rcases List.eq_nil_or_concat zs with rfl | ⟨zs, z, rfl⟩
    · obtain ⟨rfl, hy⟩ := List.append_inj' hxs rfl
      obtain rfl := (List.cons.inj hy).1
      exact hx
    · have hshift : xs ++ [x] = (ys ++ y :: zs) ++ [z] := by simp [hxs]
      exact h ys y zs (List.append_inj' hshift rfl).1

theorem card_covered_snoc (xs : List (Nat × Nat)) (x : Nat × Nat) :
    (covered (xs ++ [x])).card = (covered xs).card + (Finset.Ico x.1 x.2 \ covered xs).card := by
  have hunion : covered (xs ++ [x]) = covered xs ∪ (Finset.Ico x.1 x.2 \ covered xs) := by
    rw [Finset.union_sdiff_self_eq_union]
    ext n
    simp only [Finset.mem_union, mem_covered, Finset.mem_Ico, List.mem_append, List.mem_singleton]
    constructor
    · intro ⟨y, hy, hn⟩
      rcases hy with hy | rfl
      · exact .inl ⟨y, hy, hn⟩
      · exact .inr hn
    · intro hn
      rcases hn with ⟨y, hy, hn⟩ | hn
      · exact ⟨y, .inl hy, hn⟩
      · exact ⟨x, .inr rfl, hn⟩
  rw [hunion, Finset.card_union_of_disjoint Finset.disjoint_sdiff]

theorem beyond_subset (xs : List (Nat × Nat)) (x : Nat × Nat) :
    Finset.Ico (max x.1 (reach xs)) x.2 ⊆ Finset.Ico x.1 x.2 \ covered xs := by
  intro n hn
  rw [Finset.mem_Ico, max_le_iff] at hn
  refine Finset.mem_sdiff.mpr ⟨Finset.mem_Ico.mpr ⟨hn.1.1, hn.2⟩, fun hc => ?_⟩
  obtain ⟨y, hy, -, hlt⟩ := mem_covered.mp hc
  exact absurd (lt_reach.mpr ⟨y, hy, hlt⟩) (Nat.not_lt.mpr hn.1.2)

theorem swept_le_card (xs : List (Nat × Nat)) : swept xs ≤ (covered xs).card := by
  induction xs using List.reverseRecOn with
  | nil => exact Nat.zero_le _
  | append_singleton xs x ih =>
    have hadd := Finset.card_le_card (beyond_subset xs x)
    rw [Nat.card_Ico] at hadd
    rw [swept_concat, card_covered_snoc]
    omega

/-- The sweep measures the union exactly where it passes no gap that is filled later. -/
theorem swept_eq_card_iff (xs : List (Nat × Nat)) : swept xs = (covered xs).card ↔ Filled xs := by
  induction xs using List.reverseRecOn with
  | nil => exact ⟨fun _ ys x zs h => absurd h (by simp), fun _ => rfl⟩
  | append_singleton xs x ih =>
    have hle := swept_le_card xs
    have hadd := Finset.card_le_card (beyond_subset xs x)
    rw [Nat.card_Ico] at hadd
    rw [swept_concat, card_covered_snoc, filled_concat, ← ih]
    have hstep : x.2 - max x.1 (reach xs) = (Finset.Ico x.1 x.2 \ covered xs).card ↔
        ∀ n, x.1 ≤ n → n < x.2 → n < reach xs → n ∈ covered xs := by
      constructor
      · intro heq n hn hlt hreach
        by_contra hc
        have hsame := Finset.eq_of_subset_of_card_le (beyond_subset xs x) (by rw [Nat.card_Ico, heq])
        have hmem : n ∈ Finset.Ico x.1 x.2 \ covered xs := Finset.mem_sdiff.mpr ⟨Finset.mem_Ico.mpr ⟨hn, hlt⟩, hc⟩
        rw [← hsame, Finset.mem_Ico, max_le_iff] at hmem
        omega
      · intro hfill
        rw [← Nat.card_Ico]
        congr 1
        refine Finset.Subset.antisymm (beyond_subset xs x) fun n hn => ?_
        obtain ⟨hmem, hc⟩ := Finset.mem_sdiff.mp hn
        obtain ⟨hge, hlt⟩ := Finset.mem_Ico.mp hmem
        have hreach : reach xs ≤ n := Nat.not_lt.mp fun h => hc (hfill n hge hlt h)
        exact Finset.mem_Ico.mpr ⟨max_le hge hreach, hlt⟩
    rw [← hstep]
    omega

theorem filled_of_sorted {xs : List (Nat × Nat)} (h : xs.Pairwise fun x y => x.1 ≤ y.1) : Filled xs := by
  intro ys x zs hxs n hn _ hreach
  obtain ⟨y, hy, hlt⟩ := lt_reach.mp hreach
  rw [hxs, List.pairwise_append] at h
  exact mem_covered.mpr ⟨y, hy, Nat.le_trans (h.2.2 y hy x (List.mem_cons_self ..)) hn, hlt⟩

end Pimid
