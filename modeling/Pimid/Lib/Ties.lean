import Mathlib.Data.List.Sort

/-!
# Sorting by a key that has ties

A sort by a key leaves open how elements of one key stand to each other. What is seen of
the sorted list is then the same for every order of the input exactly when elements of one
key look alike.
-/

namespace Pimid

variable {α β κ : Type} [LinearOrder κ] (key : β → κ) (view : α → β)

/-- Elements of one key look alike. -/
def LookAlike (xs : List α) : Prop := ∀ a ∈ xs, ∀ b ∈ xs, key (view a) = key (view b) → view a = view b

/-- The order of the keys, for `mergeSort`, which is stable. -/
def keyLe (a b : α) : Bool := decide (key (view a) ≤ key (view b))

variable {key view} {xs ys zs : List α}

omit [LinearOrder κ] in
theorem LookAlike.perm (h : LookAlike key view xs) (hp : ys.Perm xs) : LookAlike key view ys :=
  fun a ha b hb => h a (hp.mem_iff.mp ha) b (hp.mem_iff.mp hb)

/-- Sorted lists of the same elements look the same. -/
theorem LookAlike.sorted_eq (h : LookAlike key view xs) (hy : ys.Perm xs) (hz : zs.Perm xs)
    (hys : ys.Pairwise fun a b => key (view a) ≤ key (view b)) (hzs : zs.Pairwise fun a b => key (view a) ≤ key (view b)) :
    ys.map view = zs.map view := by
  have hys' : (ys.map view).Pairwise fun s t => key s ≤ key t := List.pairwise_map.mpr hys
  have hzs' : (zs.map view).Pairwise fun s t => key s ≤ key t := List.pairwise_map.mpr hzs
  refine List.Perm.eq_of_pairwise (fun s t hs ht hst hts => ?_) hys' hzs' ((hy.trans hz.symm).map view)
  obtain ⟨a, ha, rfl⟩ := List.mem_map.mp hs
  obtain ⟨b, hb, rfl⟩ := List.mem_map.mp ht
  exact h a (hy.mem_iff.mp ha) b (hz.mem_iff.mp hb) (le_antisymm hst hts)

theorem sorted_mergeSort (xs : List α) :
    (xs.mergeSort (keyLe key view)).Pairwise fun a b => key (view a) ≤ key (view b) := by
  have h : (xs.mergeSort (keyLe key view)).Pairwise fun a b => keyLe key view a b = true := List.pairwise_mergeSort
    (fun a b c hab hbc => by
      simp only [keyLe, decide_eq_true_eq] at hab hbc ⊢
      exact le_trans hab hbc)
    (fun a b => by simpa [keyLe] using le_total (key (view a)) (key (view b))) xs
  exact h.imp fun hab => of_decide_eq_true hab

/-- A stable sort keeps the elements of one key in their order. -/
theorem filter_mergeSort (k : κ) (xs : List α) :
    (xs.mergeSort (keyLe key view)).filter (fun a => decide (key (view a) = k)) =
      xs.filter fun a => decide (key (view a) = k) := by
  have hsub : (xs.filter fun a => decide (key (view a) = k)).Sublist (xs.mergeSort (keyLe key view)) := by
    refine List.sublist_mergeSort
      (fun a b c hab hbc => by
        simp only [keyLe, decide_eq_true_eq] at hab hbc ⊢
        exact le_trans hab hbc)
      (fun a b => by simpa [keyLe] using le_total (key (view a)) (key (view b))) ?_ List.filter_sublist
    refine List.pairwise_of_forall_mem_list fun a ha b hb => ?_
    rw [List.mem_filter, decide_eq_true_eq] at ha hb
    exact decide_eq_true (by rw [ha.2, hb.2])
  have hfiltered := hsub.filter fun a => decide (key (view a) = k)
  rw [List.filter_filter, List.filter_congr (q := fun a => decide (key (view a) = k)) fun a _ => Bool.and_self _] at hfiltered
  exact (hfiltered.eq_of_length (((List.mergeSort_perm xs _).filter _).length_eq.symm)).symm

/-- Every order of the input gives the same view exactly when elements of one key look alike. -/
theorem mergeSort_view_iff (xs : List α) :
    (∀ ys zs : List α, ys.Perm xs → zs.Perm xs →
      (ys.mergeSort (keyLe key view)).map view = (zs.mergeSort (keyLe key view)).map view) ↔ LookAlike key view xs := by
  constructor
  · intro h a ha b hb hkey
    by_contra hne
    classical
    have hb' : b ∈ xs.erase a := (List.mem_erase_of_ne fun hab => hne (by rw [hab])).mpr hb
    have hab : (a :: b :: (xs.erase a).erase b).Perm xs :=
      ((List.perm_cons_erase hb').symm.cons a).trans (List.perm_cons_erase ha).symm
    have hba : (b :: a :: (xs.erase a).erase b).Perm xs := (List.Perm.swap a b _).trans hab
    -- the two orders keep `a` and `b` as they come
    have hsame := congrArg (List.filter fun s => decide (key s = key (view a))) (h _ _ hab hba)
    rw [List.filter_map, List.filter_map] at hsame
    have hkeep (l : List α) : (l.mergeSort (keyLe key view)).filter ((fun s => decide (key s = key (view a))) ∘ view) =
        l.filter fun c => decide (key (view c) = key (view a)) := filter_mergeSort _ l
    rw [hkeep, hkeep] at hsame
    simp [hkey] at hsame
    exact hne hsame.1
  · intro h ys zs hy hz
    exact (h.perm hy).sorted_eq (List.mergeSort_perm _ _) ((List.mergeSort_perm _ _).trans (hz.trans hy.symm))
      (sorted_mergeSort ys) (sorted_mergeSort zs)

variable (key view) in
/-- Two elements of one key can stand next to each other in either order. -/
theorem exists_swapped {a b : α} (ha : a ∈ xs) (hb : b ∈ xs) (hne : a ≠ b) (hkey : key (view a) = key (view b)) :
    ∃ pre post, (pre ++ a :: b :: post).Perm xs ∧
      ∀ c d, (c, d) = (a, b) ∨ (c, d) = (b, a) →
        (pre ++ c :: d :: post).Pairwise fun x y => key (view x) ≤ key (view y) := by
  classical
  have hb' : b ∈ xs.erase a := (List.mem_erase_of_ne hne.symm).mpr hb
  obtain ⟨m, hm⟩ : ∃ m, m = ((xs.erase a).erase b).mergeSort (keyLe key view) := ⟨_, rfl⟩
  have hsorted : m.Pairwise fun x y => key (view x) ≤ key (view y) := hm ▸ sorted_mergeSort _
  have hperm : (a :: b :: m).Perm xs :=
    (((hm ▸ List.mergeSort_perm _ _).cons b).cons a).trans
      (((List.perm_cons_erase hb').symm.cons a).trans (List.perm_cons_erase ha).symm)
  let below := fun x => decide (key (view x) < key (view a))
  have hbefore : ∀ x ∈ m.filter below, key (view x) ≤ key (view a) := fun x hx =>
    le_of_lt (of_decide_eq_true (List.mem_filter.mp hx).2)
  have hafter : ∀ x ∈ m.filter (!below ·), key (view a) ≤ key (view x) := fun x hx => by
    simpa [below] using (List.mem_filter.mp hx).2
  refine ⟨m.filter below, m.filter (!below ·), ?_, fun c d hcd => ?_⟩
  · exact (List.perm_middle.trans (List.perm_middle.cons a)).trans
      ((((List.filter_append_perm below m).cons b).cons a).trans hperm)
  · have hc : key (view c) = key (view a) ∧ key (view d) = key (view a) := by
      rcases hcd with h | h <;> cases h
      · exact ⟨rfl, hkey.symm⟩
      · exact ⟨hkey.symm, rfl⟩
    refine List.pairwise_append.mpr ⟨hsorted.filter _, ?_, fun x hx y hy => ?_⟩
    · refine List.pairwise_cons.mpr ⟨fun y hy => ?_, List.pairwise_cons.mpr ⟨fun y hy => ?_, hsorted.filter _⟩⟩
      · rw [hc.1]
        rcases List.mem_cons.mp hy with rfl | hy
        · exact le_of_eq hc.2.symm
        · exact hafter y hy
      · rw [hc.2]
        exact hafter y hy
    · have hle : key (view a) ≤ key (view y) := by
        rcases List.mem_cons.mp hy with rfl | hy
        · exact le_of_eq hc.1.symm
        · rcases List.mem_cons.mp hy with rfl | hy
          · exact le_of_eq hc.2.symm
          · exact hafter y hy
      exact le_trans (hbefore x hx) hle

end Pimid
