import Std.Data.TreeMap.Lemmas
import Mathlib.Algebra.BigOperators.Group.List.Basic
import Mathlib.Data.List.Sort

/-!
# Ordered maps

Lookups in `Std.TreeMap` over a key order whose equality is equality.
-/

namespace Pimid

open Std (TreeMap TransOrd LawfulEqOrd)

variable {κ α : Type} [Ord κ] [TransOrd κ] [LawfulEqOrd κ] [DecidableEq κ]

theorem getElem?_insert_eq (m : TreeMap κ α) (k : κ) (v : α) (a : κ) :
    (m.insert k v)[a]? = if a = k then some v else m[a]? := by
  rw [TreeMap.getElem?_insert]
  by_cases h : a = k
  · rw [if_pos h, if_pos (Std.compare_eq_iff_eq.mpr h.symm)]
  · rw [if_neg h, if_neg fun he => h (Std.compare_eq_iff_eq.mp he).symm]

theorem getElem?_insert_same (m : TreeMap κ α) (k : κ) (v : α) : (m.insert k v)[k]? = some v := by
  rw [getElem?_insert_eq, if_pos rfl]

theorem getElem?_insert_other {m : TreeMap κ α} {k a : κ} (v : α) (h : a ≠ k) : (m.insert k v)[a]? = m[a]? := by
  rw [getElem?_insert_eq, if_neg h]

theorem getElem?_erase_eq (m : TreeMap κ α) (k a : κ) : (m.erase k)[a]? = if a = k then none else m[a]? := by
  rw [TreeMap.getElem?_erase]
  by_cases h : a = k
  · rw [if_pos h, if_pos (Std.compare_eq_iff_eq.mpr h.symm)]
  · rw [if_neg h, if_neg fun he => h (Std.compare_eq_iff_eq.mp he).symm]

omit [LawfulEqOrd κ] [DecidableEq κ] in
theorem contains_eq_true_iff {m : TreeMap κ α} {k : κ} : m.contains k = true ↔ ∃ v, m[k]? = some v := by
  rw [TreeMap.contains_eq_isSome_getElem?, Option.isSome_iff_exists]

/-! ## Entries in key order -/

section Entries

variable {β : Type} {m : TreeMap Nat β}

theorem toList_pairwise_lt (m : TreeMap Nat β) : m.toList.Pairwise fun x y => x.1 < y.1 := by
  have h := Std.TreeMap.ordered_keys_toList (t := m)
  exact h.imp fun hlt => Nat.compare_eq_lt.mp hlt

theorem toList_eq_of_mem {l : List (Nat × β)} (hl : l.Pairwise fun x y => x.1 < y.1)
    (h : ∀ x : Nat × β, x ∈ l ↔ m[x.1]? = some x.2) : m.toList = l := by
  have : Std.Antisymm fun x y : Nat × β => x.1 < y.1 := ⟨fun _ _ h₁ h₂ => absurd h₁ (Nat.lt_asymm h₂)⟩
  have : Std.Irrefl fun x y : Nat × β => x.1 < y.1 := ⟨fun _ => Nat.lt_irrefl _⟩
  refine (toList_pairwise_lt m).eq_of_mem_iff hl fun x => ?_
  rw [h x]
  exact Std.TreeMap.mem_toList_iff_getElem?_eq_some

theorem toList_insert_last {k : Nat} {v : β} (h : ∀ x ∈ m.toList, x.1 < k) :
    (m.insert k v).toList = m.toList ++ [(k, v)] := by
  refine toList_eq_of_mem ?_ fun x => ?_
  · rw [List.pairwise_append]
    refine ⟨toList_pairwise_lt m, List.pairwise_singleton _ _, fun x hx y hy => ?_⟩
    rw [List.mem_singleton.mp hy]
    exact h x hx
  · rw [getElem?_insert_eq, List.mem_append, List.mem_singleton, Std.TreeMap.mem_toList_iff_getElem?_eq_some]
    by_cases hk : x.1 = k
    · rw [if_pos hk]
      constructor
      · rintro (hx | rfl)
        · have := h x (Std.TreeMap.mem_toList_iff_getElem?_eq_some.mpr hx)
          omega
        · rfl
      · intro hx
        exact .inr (Prod.ext hk (Option.some.inj hx).symm)
    · rw [if_neg hk]
      constructor
      · rintro (hx | rfl)
        · exact hx
        · exact absurd rfl hk
      · exact .inl

theorem toList_erase_head {kv : Nat × β} {rest : List (Nat × β)} (h : m.toList = kv :: rest) :
    (m.erase kv.1).toList = rest := by
  have hord := toList_pairwise_lt m
  rw [h, List.pairwise_cons] at hord
  refine toList_eq_of_mem hord.2 fun x => ?_
  have hmem : x ∈ kv :: rest ↔ m[x.1]? = some x.2 := by
    rw [← h]
    exact Std.TreeMap.mem_toList_iff_getElem?_eq_some
  rw [getElem?_erase_eq]
  by_cases hk : x.1 = kv.1
  · rw [if_pos hk]
    refine ⟨fun hx => ?_, fun hx => absurd hx (by simp)⟩
    have := hord.1 x hx
    omega
  · rw [if_neg hk, ← hmem, List.mem_cons]
    refine ⟨.inr, fun hx => hx.resolve_left fun he => hk (by rw [he])⟩

end Entries

end Pimid
