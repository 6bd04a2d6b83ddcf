import Mathlib.Data.List.Nodup
import Mathlib.Data.List.Perm.Basic
import Mathlib.Data.Set.Card
import Mathlib.Logic.Function.Basic

/-!
# Lists whose elements know their places

A list beside a table of places: the element at place `i` is noted at `i`. Such a
list has no repeats, and it can be edited by exchanging two elements, by appending
one and by filling a hole from the end, if the table is edited with it.
-/

namespace Pimid

open Function (update update_of_ne update_self)

variable {α : Type}

/-- Each element of the list is noted at its place. -/
def Indexed (l : List α) (place : α → Nat) : Prop :=
  ∀ (i : Nat) (a : α), l[i]? = some a → place a = i

namespace Indexed

variable {l : List α} {place : α → Nat} {a b : α} {i j : Nat}

theorem nil (place : α → Nat) : Indexed [] place := by
  intro i a h
  rw [List.getElem?_nil] at h
  cases h

theorem get (h : Indexed l place) (ha : a ∈ l) : l[place a]? = some a := by
  obtain ⟨i, hi⟩ := List.mem_iff_getElem?.mp ha
  rw [h i a hi]
  exact hi

theorem lt (h : Indexed l place) (ha : a ∈ l) : place a < l.length :=
  (List.getElem?_eq_some_iff.mp (h.get ha)).1

theorem nodup (h : Indexed l place) : l.Nodup := by
  rw [List.nodup_iff_getElem?_ne_getElem?]
  intro i j hij hj he
  have hi : l[i]? = some l[i] := List.getElem?_eq_getElem (by omega)
  have h₁ := h i _ hi
  have h₂ := h j _ (he ▸ hi)
  omega

theorem snoc [DecidableEq α] (h : Indexed l place) (ha : a ∉ l) :
    Indexed (l ++ [a]) (update place a l.length) := by
  intro i b hb
  by_cases hi : i < l.length
  · rw [List.getElem?_append_left hi] at hb
    have hne : b ≠ a := by
      intro he
      exact ha (he ▸ List.mem_of_getElem? hb)
    rw [update_of_ne hne]
    exact h i b hb
  · rw [List.getElem?_append_right (by omega)] at hb
    obtain ⟨hlt, hget⟩ := List.getElem?_eq_some_iff.mp hb
    rw [List.length_singleton] at hlt
    have hi : i = l.length := by omega
    subst hi
    have hba : b = a := by simpa using hget.symm
    rw [hba, update_self]

theorem getElem?_exchange (hi : l[i]? = some a) (hj : l[j]? = some b) (k : Nat) :
    ((l.set j a).set i b)[k]? = if k = i then some b else if k = j then some a else l[k]? := by
  have hil := (List.getElem?_eq_some_iff.mp hi).1
  have hjl := (List.getElem?_eq_some_iff.mp hj).1
  rw [List.getElem?_set, List.length_set]
  by_cases hk : k = i
  · rw [if_pos hk.symm, if_pos (by omega), if_pos hk]
  · rw [if_neg (fun he => hk he.symm), if_neg hk, List.getElem?_set]
    by_cases hk' : k = j
    · rw [if_pos hk'.symm, if_pos (by omega), if_pos hk']
    · rw [if_neg (fun he => hk' he.symm), if_neg hk']

section Exchange

variable [DecidableEq α]

/-- The two elements are exchanged, in the list and in the table. -/
theorem exchange (h : Indexed l place) (hi : l[i]? = some a) (hj : l[j]? = some b) :
    Indexed ((l.set j a).set i b) (update (update place b i) a j) := by
  intro k c hc
  have hpa := h i a hi
  have hpb := h j b hj
  rw [getElem?_exchange hi hj] at hc
  split at hc
  · next hk =>
    cases hc
    by_cases hab : b = a
    · subst hab
      rw [update_self]
      omega
    · rw [update_of_ne hab, update_self]
      omega
  · split at hc
    · next hk =>
      cases hc
      rw [update_self]
      omega
    · next hki hkj =>
      have hpc := h k c hc
      have hca : c ≠ a := by
        intro he
        subst he
        omega
      have hcb : c ≠ b := by
        intro he
        subst he
        omega
      rw [update_of_ne hca, update_of_ne hcb]
      exact hpc

theorem exchange_perm (h : Indexed l place) (hi : l[i]? = some a) (hj : l[j]? = some b) :
    ((l.set j a).set i b).Perm l := by
  rw [List.perm_ext_iff_of_nodup (h.exchange hi hj).nodup h.nodup]
  intro c
  constructor
  · intro hc
    obtain ⟨k, hk⟩ := List.mem_iff_getElem?.mp hc
    rw [getElem?_exchange hi hj] at hk
    split at hk
    · cases hk
      exact List.mem_of_getElem? hj
    · split at hk
      · cases hk
        exact List.mem_of_getElem? hi
      · exact List.mem_of_getElem? hk
  · intro hc
    obtain ⟨k, hk⟩ := List.mem_iff_getElem?.mp hc
    by_cases hki : k = i
    · subst hki
      rw [hi] at hk
      cases hk
      refine List.mem_iff_getElem?.mpr ⟨j, ?_⟩
      rw [getElem?_exchange hi hj]
      split
      · next hji =>
        subst hji
        rw [← hi, hj]
      · rw [if_pos rfl]
    · by_cases hkj : k = j
      · subst hkj
        rw [hj] at hk
        cases hk
        exact List.mem_iff_getElem?.mpr ⟨i, by rw [getElem?_exchange hi hj, if_pos rfl]⟩
      · exact List.mem_iff_getElem?.mpr ⟨k, by rw [getElem?_exchange hi hj, if_neg hki, if_neg hkj]; exact hk⟩

end Exchange

theorem fill [DecidableEq α] (h : Indexed l place) (hi : l[i]? = some a) (hb : l.getLast? = some b) :
    Indexed (l.set i b).dropLast (update place b i) ∧ (a :: (l.set i b).dropLast).Perm l := by
  -- exchange it with the last, then drop it there
  have hlast : l[l.length - 1]? = some b := by rw [← List.getLast?_eq_getElem?]; exact hb
  have hlen := (List.getElem?_eq_some_iff.mp hi).1
  have hperm := h.exchange_perm hi hlast
  have hix := h.exchange hi hlast
  have hswap : (l.set (l.length - 1) a).set i b = (l.set i b).dropLast ++ [a] ∨ i = l.length - 1 := by
    by_cases hil : i = l.length - 1
    · exact .inr hil
    · refine .inl (List.ext_getElem? fun k => ?_)
      rw [getElem?_exchange hi hlast, List.getElem?_append, List.getElem?_dropLast, List.length_dropLast, List.length_set,
        List.getElem?_set]
      by_cases hk : k < l.length - 1
      · rw [if_pos hk, if_pos hk, if_neg (by omega : ¬k = l.length - 1)]
        by_cases hki : k = i
        · rw [if_pos hki, if_pos hki.symm, if_pos (by omega)]
        · rw [if_neg hki, if_neg (fun he => hki he.symm)]
      · rw [if_neg hk, if_neg (by omega : ¬k = i)]
        by_cases hkl : k = l.length - 1
        · rw [if_pos hkl, hkl, Nat.sub_self]
          rfl
        · rw [if_neg hkl, List.getElem?_eq_none (by omega), List.getElem?_eq_none (by rw [List.length_singleton]; omega)]
  rcases hswap with hswap | hil
  · rw [hswap] at hperm hix
    refine ⟨?_, (List.perm_append_singleton a _).symm.trans hperm⟩
    intro k c hc
    have hk := (List.getElem?_eq_some_iff.mp hc).1
    have hc' : ((l.set i b).dropLast ++ [a])[k]? = some c := by rw [List.getElem?_append_left hk]; exact hc
    have hplace := hix k c hc'
    have hca : c ≠ a := by
      intro he
      subst he
      rw [update_self] at hplace
      rw [List.length_dropLast, List.length_set] at hk
      omega
    rwa [update_of_ne hca] at hplace
  · subst hil
    have hab : b = a := Option.some.inj (hlast.symm.trans hi)
    subst hab
    have hset : l.set (l.length - 1) b = l := by
      refine List.ext_getElem? fun k => ?_
      rw [List.getElem?_set]
      split
      · next hk =>
        rw [← hk, hlast]
      · rfl
    rw [hset]
    refine ⟨?_, ?_⟩
    · intro k c hc
      have hk := (List.getElem?_eq_some_iff.mp hc).1
      rw [List.getElem?_dropLast] at hc
      rw [List.length_dropLast] at hk
      rw [if_pos hk] at hc
      have hplace := h k c hc
      by_cases hcb : c = b
      · subst hcb
        rw [update_self, ← h _ _ hlast, hplace]
      · rw [update_of_ne hcb]
        exact hplace
    · have hsplit : l.dropLast ++ [b] = l := by
        have hne : l ≠ [] := by
          intro he
          rw [he] at hb
          cases hb
        rw [List.getLast?_eq_some_getLast hne] at hb
        rw [← Option.some.inj hb]
        exact List.dropLast_append_getLast hne
      calc (b :: l.dropLast).Perm (l.dropLast ++ [b]) := (List.perm_append_singleton b _).symm
        _ = l := hsplit

/-- Any list without repeats is indexed once its elements are noted in order. -/
theorem renumber [DecidableEq α] (hl : l.Nodup) (place : α → Nat) :
    Indexed l (l.zipIdx.foldl (fun f p => update f p.1 p.2) place) := by
  have hfold : ∀ (m : List α) (k : Nat) (f : α → Nat), m.Nodup →
      (∀ c, c ∉ m → ((m.zipIdx k).foldl (fun f p => update f p.1 p.2) f) c = f c) ∧
        ∀ (i : Nat) (c : α), m[i]? = some c → ((m.zipIdx k).foldl (fun f p => update f p.1 p.2) f) c = k + i := by
    intro m
    induction m with
    | nil =>
      intro k f _
      exact ⟨fun _ _ => rfl, fun i c hc => by rw [List.getElem?_nil] at hc; cases hc⟩
    | cons x m ih =>
      intro k f hm
      rw [List.nodup_cons] at hm
      obtain ⟨hrest, hplace⟩ := ih (k + 1) (update f x k) hm.2
      rw [List.zipIdx_cons, List.foldl_cons]
      constructor
      · intro c hc
        rw [List.mem_cons, not_or] at hc
        rw [hrest c hc.2, update_of_ne hc.1]
      · intro i c hc
        cases i with
        | zero =>
          rw [List.getElem?_cons_zero] at hc
          cases hc
          rw [hrest x hm.1, update_self]
          rfl
        | succ i =>
          rw [List.getElem?_cons_succ] at hc
          rw [hplace i c hc]
          omega
  intro i a hi
  rw [(hfold l 0 place hl).2 i a hi, Nat.zero_add]

end Indexed

/-! ## Counting by a property of the elements -/

/-- One element's value changes: it leaves one count and enters another. -/
theorem countP_update {β : Type} [DecidableEq α] [DecidableEq β] {l : List α} (hl : l.Nodup) {a : α} (ha : a ∈ l) (f : α → β)
    (x y : β) : l.countP (fun c => update f a x c = y) + (if f a = y then 1 else 0) =
      l.countP (fun c => f c = y) + if x = y then 1 else 0 := by
  induction l with
  | nil => cases ha
  | cons c l ih =>
    rw [List.nodup_cons] at hl
    rw [List.countP_cons, List.countP_cons]
    rcases List.mem_cons.mp ha with hac | hac
    · subst hac
      have hrest : l.countP (fun c => update f a x c = y) = l.countP (fun c => f c = y) := by
        refine List.countP_congr fun d hd => ?_
        have hda : d ≠ a := by
          intro he
          exact hl.1 (he ▸ hd)
        rw [update_of_ne hda]
      rw [hrest, update_self]
      simp only [decide_eq_true_eq]
      omega
    · have hca : c ≠ a := by
        intro he
        exact hl.1 (he ▸ hac)
      have := ih hl.2 hac
      rw [update_of_ne hca]
      omega

theorem countP_eq_ncard {β : Type} [DecidableEq β] {l : List α} (hl : l.Nodup) (f : α → β) (y : β)
    (hmem : ∀ a, f a = y → a ∈ l) : l.countP (fun c => f c = y) = {a | f a = y}.ncard := by
  classical
  have hset : {a | f a = y} = ((l.filter fun c => f c = y).toFinset : Set α) := by
    ext a
    simp only [Set.mem_ofPred_eq, List.coe_toFinset, List.mem_filter, decide_eq_true_eq]
    exact ⟨fun h => ⟨hmem a h, h⟩, fun h => h.2⟩
  rw [hset, Set.ncard_coe_finset, List.toFinset_card_of_nodup (hl.filter _), List.countP_eq_length_filter]

end Pimid
