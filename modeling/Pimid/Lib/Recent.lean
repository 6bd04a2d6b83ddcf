import Pimid.Lib.Maps

/-!
# Maps that keep the largest keys

A map limited to so many entries drops the smallest key while there are more. An entry is
kept exactly when fewer entries than the limit have a larger key.
-/

namespace Pimid

open Std (TreeMap)

variable {β : Type} {m : TreeMap Nat β} {limit : Nat}

/-- `while (m.size() > limit) m.erase(m.begin())`, over the entries of `m` in order. -/
def dropFirst (limit : Nat) : List (Nat × β) → TreeMap Nat β → TreeMap Nat β
  | [], m => m
  | kv :: rest, m => if limit < m.size then dropFirst limit rest (m.erase kv.1) else m

def keepLast (limit : Nat) (m : TreeMap Nat β) : TreeMap Nat β :=
  dropFirst limit m.toList m

/-- The entries with a larger key. -/
def after (m : TreeMap Nat β) (k : Nat) : List (Nat × β) :=
  m.toList.filter fun x => k < x.1

theorem dropFirst_toList {l : List (Nat × β)} (h : m.toList = l) :
    (dropFirst limit l m).toList = l.drop (l.length - limit) := by
  induction l generalizing m with
  | nil =>
    rw [dropFirst, h, List.drop_nil]
  | cons kv l ih =>
    have hsize : m.size = l.length + 1 := by
      rw [← TreeMap.length_toList, h, List.length_cons]
    rw [dropFirst]
    split
    next hgt =>
      rw [ih (toList_erase_head h), List.length_cons, show l.length + 1 - limit = (l.length - limit) + 1 by omega]
      rfl
    next hle =>
      rw [h, List.length_cons, show l.length + 1 - limit = 0 by omega]
      rfl

theorem toList_keepLast (limit : Nat) (m : TreeMap Nat β) :
    (keepLast limit m).toList = m.toList.drop (m.toList.length - limit) :=
  dropFirst_toList rfl

/-- Of a sorted list, what is not dropped from the front. -/
theorem mem_drop_iff {l : List (Nat × β)} (h : l.Pairwise fun x y => x.1 < y.1) {x : Nat × β} (hx : x ∈ l) :
    x ∈ l.drop (l.length - limit) ↔ (l.filter fun y => x.1 < y.1).length < limit := by
  obtain ⟨pre, post, rfl⟩ := List.append_of_mem hx
  obtain ⟨-, hpost, hcross⟩ := List.pairwise_append.mp h
  rw [List.pairwise_cons] at hpost
  have hpre : pre.filter (fun y => x.1 < y.1) = [] := by
    refine List.filter_eq_nil_iff.mpr fun y hy => ?_
    have := hcross y hy x List.mem_cons_self
    simpa using Nat.le_of_lt this
  have hfilter : ((pre ++ x :: post).filter fun y => x.1 < y.1) = post := by
    rw [List.filter_append, hpre, List.nil_append, List.filter_cons_of_neg (by simp)]
    exact List.filter_eq_self.mpr fun y hy => decide_eq_true (hpost.1 y hy)
  rw [hfilter]
  constructor
  · intro hmem
    by_contra hge
    have hdrop : (pre ++ x :: post).drop ((pre ++ x :: post).length - limit) = post.drop (post.length - limit) := by
      have hlen : (pre ++ x :: post).length - limit = pre.length + 1 + (post.length - limit) := by
        rw [List.length_append, List.length_cons]
        omega
      rw [hlen, Nat.add_assoc, List.drop_append, List.drop_of_length_le (Nat.le_add_right ..), Nat.add_sub_cancel_left,
        Nat.add_comm 1, List.drop_succ_cons, List.nil_append]
    rw [hdrop] at hmem
    exact Nat.lt_irrefl _ (hpost.1 x (List.mem_of_mem_drop hmem))
  · intro hlt
    have hle : (pre ++ x :: post).length - limit ≤ pre.length := by
      rw [List.length_append, List.length_cons]
      omega
    rw [List.drop_append_of_le_length hle]
    exact List.mem_append_right _ List.mem_cons_self

/-- **What is kept.** -/
theorem getElem?_keepLast (limit : Nat) (m : TreeMap Nat β) (k : Nat) :
    (keepLast limit m)[k]? = if (after m k).length < limit then m[k]? else none := by
  have hiff : ∀ v, (keepLast limit m)[k]? = some v ↔ m[k]? = some v ∧ (after m k).length < limit := by
    intro v
    have hmem : (k, v) ∈ (keepLast limit m).toList ↔ (keepLast limit m)[k]? = some v :=
      TreeMap.mem_toList_iff_getElem?_eq_some
    have hmem' : (k, v) ∈ m.toList ↔ m[k]? = some v := TreeMap.mem_toList_iff_getElem?_eq_some
    rw [← hmem, ← hmem', toList_keepLast]
    constructor
    · intro h
      have hx := List.mem_of_mem_drop h
      exact ⟨hx, (mem_drop_iff (toList_pairwise_lt m) hx).mp h⟩
    · intro h
      exact (mem_drop_iff (toList_pairwise_lt m) h.1).mpr h.2
  split
  · next hlt =>
    cases hm : m[k]? with
    | none =>
      cases hk : (keepLast limit m)[k]? with
      | none => rfl
      | some v => exact absurd ((hiff v).mp hk).1 (by simp [hm])
    | some v => exact (hiff v).mpr ⟨hm, hlt⟩
  · next hge =>
    cases hk : (keepLast limit m)[k]? with
    | none => rfl
    | some v => exact absurd ((hiff v).mp hk).2 hge

theorem mem_of_keepLast {k : Nat} {v : β} (h : (keepLast limit m)[k]? = some v) : m[k]? = some v := by
  rw [getElem?_keepLast] at h
  split at h
  · exact h
  · cases h

/-- A new entry counts among the later ones of the earlier keys only. -/
theorem after_insert_same (m : TreeMap Nat β) (k : Nat) (v : β) : after (m.insert k v) k = after m k := by
  have hlt : ∀ m : TreeMap Nat β, (after m k).Pairwise fun x y => x.1 < y.1 := fun m => (toList_pairwise_lt m).filter _
  have : Std.Antisymm fun x y : Nat × β => x.1 < y.1 := ⟨fun _ _ h₁ h₂ => absurd h₁ (Nat.lt_asymm h₂)⟩
  have : Std.Irrefl fun x y : Nat × β => x.1 < y.1 := ⟨fun _ => Nat.lt_irrefl _⟩
  refine (hlt _).eq_of_mem_iff (hlt _) fun x => ?_
  have hmem : ∀ m : TreeMap Nat β, x ∈ m.toList ↔ m[x.1]? = some x.2 := fun _ => TreeMap.mem_toList_iff_getElem?_eq_some
  rw [after, after, List.mem_filter, List.mem_filter, hmem, hmem, getElem?_insert_eq]
  constructor
  · intro h
    have hlt := of_decide_eq_true h.2
    rw [if_neg (Nat.ne_of_gt hlt)] at h
    exact h
  · intro h
    have hlt := of_decide_eq_true h.2
    rw [if_neg (Nat.ne_of_gt hlt)]
    exact h

end Pimid
