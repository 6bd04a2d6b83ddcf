import Pimid.Lib.Maps
import Mathlib.Data.List.Perm.Basic
import Mathlib.Data.List.Perm.Lattice

/-!
# Buckets

Items are kept in an ordered map from their key to the list of items with that key, in
the order they came in.
-/

namespace Pimid

open Std (TreeMap)

variable {α : Type}

/-- One more item in the bucket of its key. -/
def pushBucket (key : α → Nat) (m : TreeMap Nat (List α)) (a : α) : TreeMap Nat (List α) :=
  m.insert (key a) (m.getD (key a) [] ++ [a])

/-- The items of `l` in their buckets. -/
def pushBuckets (key : α → Nat) (m : TreeMap Nat (List α)) (l : List α) : TreeMap Nat (List α) :=
  l.foldl (pushBucket key) m

/-- `m` holds exactly the items `l`, each in the bucket of its key. -/
def Bucketed (key : α → Nat) (m : TreeMap Nat (List α)) (l : List α) : Prop :=
  ∀ k : Nat, m[k]? = if l.filter (fun a => key a = k) = [] then none else some (l.filter fun a => key a = k)

variable {key : α → Nat} {m : TreeMap Nat (List α)} {l : List α}

theorem Bucketed.nil (key : α → Nat) : Bucketed key ∅ [] := by
  intro k
  rw [Std.TreeMap.getElem?_emptyc]
  rfl

theorem Bucketed.getD (h : Bucketed key m l) (k : Nat) : m.getD k [] = l.filter fun a => key a = k := by
  rw [Std.TreeMap.getD_eq_getD_getElem?, h k]
  split
  next he => rw [he]; rfl
  next => rfl

theorem Bucketed.push (h : Bucketed key m l) (a : α) : Bucketed key (pushBucket key m a) (l ++ [a]) := by
  intro k
  rw [pushBucket, getElem?_insert_eq, List.filter_append, h.getD]
  by_cases hk : k = key a
  · subst hk
    simp
  · have : ¬ key a = k := fun he => hk he.symm
    simp only [if_neg hk, List.filter_cons, decide_eq_true_eq, if_neg this, List.filter_nil, List.append_nil]
    exact h k

theorem Bucketed.pushAll (h : Bucketed key m l) (l' : List α) : Bucketed key (pushBuckets key m l') (l ++ l') := by
  induction l' generalizing m l with
  | nil => simpa [pushBuckets] using h
  | cons a l' ih =>
    have := ih (h.push a)
    rwa [List.append_assoc, List.singleton_append] at this

theorem Bucketed.mem (h : Bucketed key m l) {k : Nat} {b : List α} (hb : (k, b) ∈ m.toList) :
    b = l.filter (fun a => key a = k) ∧ b ≠ [] := by
  have hk := Std.TreeMap.mem_toList_iff_getElem?_eq_some.mp hb
  rw [h k] at hk
  split at hk
  next => exact absurd hk (by simp)
  next hne =>
    obtain rfl := Option.some.inj hk
    exact ⟨rfl, hne⟩

theorem Bucketed.exists_of_mem (h : Bucketed key m l) {a : α} (ha : a ∈ l) :
    (key a, l.filter fun x => key x = key a) ∈ m.toList := by
  refine Std.TreeMap.mem_toList_iff_getElem?_eq_some.mpr ?_
  rw [h, if_neg]
  intro he
  have : a ∈ l.filter fun x => key x = key a := by simp [ha]
  rw [he] at this
  exact absurd this (by simp)

/-- Where a property, once lost, does not come back, the leading items that have it are
all the items that have it. -/
theorem takeWhile_eq_filter {β : Type} {p : β → Bool} {l : List β}
    (h : l.Pairwise fun x y => p y = true → p x = true) : l.takeWhile p = l.filter p := by
  induction l with
  | nil => rfl
  | cons x l ih =>
    rw [List.pairwise_cons] at h
    by_cases hx : p x = true
    · rw [List.takeWhile_cons_of_pos hx, List.filter_cons_of_pos hx, ih h.2]
    · rw [List.takeWhile_cons_of_neg hx, List.filter_cons_of_neg hx]
      refine (List.filter_eq_nil_iff.mpr fun y hy hp => hx (h.1 y hy hp)).symm

/-! ## Items sorted into classes -/

/-- Lists that agree on every class hold the same items. -/
theorem perm_of_filter_eq {κ : Type} [DecidableEq κ] [DecidableEq α] {f : α → κ} {l l' : List α}
    (h : ∀ k, l.filter (fun a => f a = k) = l'.filter fun a => f a = k) : l.Perm l' := by
  refine List.perm_iff_count.mpr fun a => ?_
  have hc : ∀ l : List α, l.count a = (l.filter fun x => f x = f a).count a := fun l =>
    (List.count_filter (by simp)).symm
  rw [hc l, hc l', h]

/-- `cs` are the classes of `l` by key: in increasing order, none of them empty, each with
all the items of its key. -/
structure Classified (key : α → Nat) (l : List α) (cs : List (Nat × List α)) : Prop where
  order : (cs.map (·.1)).Pairwise (· < ·)
  part : ∀ c ∈ cs, c.2.Perm (l.filter fun a => key a = c.1)
  inhabited : ∀ c ∈ cs, c.2 ≠ []
  covers : ∀ a ∈ l, key a ∈ cs.map (·.1)

/-- Classes with different keys that cover the items hold each item once. -/
theorem perm_flatMap_of_classes {cs : List (Nat × List α)}
    (hcs : (cs.map (·.1)).Nodup) (hin : ∀ a ∈ l, key a ∈ cs.map (·.1))
    (hc : ∀ c ∈ cs, c.2.Perm (l.filter fun a => key a = c.1)) : (cs.flatMap (·.2)).Perm l := by
  induction cs generalizing l with
  | nil =>
    cases l with
    | nil => rfl
    | cons a l => exact absurd (hin a (by simp)) (by simp)
  | cons c cs ih =>
    simp only [List.map_cons, List.nodup_cons] at hcs
    have hrest : (cs.flatMap (·.2)).Perm (l.filter fun a => ¬ key a = c.1) := by
      refine ih hcs.2 (fun a ha => ?_) fun c' hc' => ?_
      · simp only [List.mem_filter, decide_eq_true_eq] at ha
        rcases List.mem_cons.mp (hin a ha.1) with he | hm
        · exact absurd he ha.2
        · exact hm
      · refine (hc c' (List.mem_cons_of_mem _ hc')).trans (.of_eq ?_)
        rw [List.filter_filter]
        refine List.filter_congr fun a _ => ?_
        have hne : c'.1 ≠ c.1 := fun he => hcs.1 (he ▸ List.mem_map_of_mem hc')
        by_cases ha : key a = c'.1
        · simp [ha, hne]
        · simp [ha]
    rw [List.flatMap_cons]
    have hsplit := List.filter_append_perm (fun a => decide (key a = c.1)) l
    refine ((hc c List.mem_cons_self).append hrest).trans ?_
    convert hsplit using 3
    funext a
    simp

theorem forall₂_of_map_eq {β γ : Type} {R : β → γ → Prop} {f : β → Nat} {g : γ → Nat} {l₁ : List β} {l₂ : List γ}
    (hmap : l₁.map f = l₂.map g) (h : ∀ x ∈ l₁, ∀ y ∈ l₂, f x = g y → R x y) : List.Forall₂ R l₁ l₂ := by
  induction l₁ generalizing l₂ with
  | nil =>
    cases l₂ with
    | nil => exact .nil
    | cons y l₂ => exact absurd hmap (by simp)
  | cons x l₁ ih =>
    cases l₂ with
    | nil => exact absurd hmap (by simp)
    | cons y l₂ =>
      simp only [List.map_cons, List.cons.injEq] at hmap
      refine .cons (h x (by simp) y (by simp) hmap.1) (ih hmap.2 fun x' hx' y' hy' => ?_)
      exact h x' (List.mem_cons_of_mem _ hx') y' (List.mem_cons_of_mem _ hy')

namespace Classified

variable {cs cs' : List (Nat × List α)} {l' : List α}

theorem perm (h : Classified key l cs) : (cs.flatMap (·.2)).Perm l :=
  perm_flatMap_of_classes (h.order.imp Nat.ne_of_lt) h.covers h.part

theorem mem_keys (h : Classified key l cs) {k : Nat} : k ∈ cs.map (·.1) ↔ ∃ a ∈ l, key a = k := by
  constructor
  · intro hk
    obtain ⟨c, hc, rfl⟩ := List.mem_map.mp hk
    obtain ⟨a, ha⟩ := List.exists_mem_of_ne_nil _ (h.inhabited c hc)
    have := (h.part c hc).mem_iff.mp ha
    simp only [List.mem_filter, decide_eq_true_eq] at this
    exact ⟨a, this⟩
  · rintro ⟨a, ha, rfl⟩
    exact h.covers a ha

/-- The same items have the same classes, whatever order they came in. -/
theorem unique (h : Classified key l cs) (h' : Classified key l' cs') (hl : l.Perm l') :
    List.Forall₂ (fun c c' => c.1 = c'.1 ∧ c.2.Perm c'.2) cs cs' := by
  have hkeys : cs.map (·.1) = cs'.map (·.1) := by
    refine h.order.eq_of_mem_iff h'.order fun k => ?_
    rw [h.mem_keys, h'.mem_keys]
    simp only [hl.mem_iff]
  refine forall₂_of_map_eq hkeys fun c hc c' hc' he => ⟨he, ?_⟩
  refine (h.part c hc).trans (.trans ?_ (h'.part c' hc').symm)
  rw [he]
  exact hl.filter _

theorem of_order (horder : (cs.map (·.1)).Pairwise (· < ·)) (hkey : ∀ c ∈ cs, c.2 ≠ [] ∧ ∀ a ∈ c.2, key a = c.1)
    (hl : (cs.flatMap (·.2)).Perm l) : Classified key l cs := by
  refine ⟨horder, fun c hc => ?_, fun c hc => (hkey c hc).1, fun a ha => ?_⟩
  · refine .trans ?_ (hl.filter _)
    obtain ⟨pre, post, rfl⟩ := List.append_of_mem hc
    -- the other classes have other keys
    have hother : ∀ {ds : List (Nat × List α)}, (∀ d ∈ ds, d ∈ pre ++ c :: post ∧ d.1 ≠ c.1) →
        (ds.flatMap (·.2)).filter (fun a => key a = c.1) = [] := by
      intro ds hds
      refine List.filter_eq_nil_iff.mpr fun a ha he => ?_
      obtain ⟨d, hd, ha⟩ := List.mem_flatMap.mp ha
      obtain ⟨hmem, hne⟩ := hds d hd
      rw [decide_eq_true_eq, (hkey d hmem).2 a ha] at he
      exact hne he
    rw [List.map_append, List.map_cons, List.pairwise_append, List.pairwise_cons] at horder
    obtain ⟨_, ⟨hpost, _⟩, hpre⟩ := horder
    rw [List.flatMap_append, List.flatMap_cons, List.filter_append, List.filter_append]
    rw [hother fun d hd => ⟨by simp [hd], (hpre _ (List.mem_map_of_mem hd) c.1 (by simp)).ne⟩]
    rw [hother fun d hd => ⟨by simp [hd], (hpost _ (List.mem_map_of_mem hd)).ne'⟩]
    rw [List.nil_append, List.append_nil]
    refine .of_eq (List.filter_eq_self.mpr fun a ha => ?_).symm
    rw [decide_eq_true_eq]
    exact (hkey c hc).2 a ha
  · obtain ⟨c, hc, ha⟩ := List.mem_flatMap.mp (hl.mem_iff.mpr ha)
    rw [(hkey c hc).2 a ha]
    exact List.mem_map_of_mem hc

theorem key_of_mem (h : Classified key l cs) {c : Nat × List α} (hc : c ∈ cs) {a : α} (ha : a ∈ c.2) :
    key a = c.1 := by
  have := (h.part c hc).mem_iff.mp ha
  simp only [List.mem_filter, decide_eq_true_eq] at this
  exact this.2

end Classified

/-- The buckets of a map, one after another, are the classes of its items. -/
theorem Bucketed.classified (h : Bucketed key m l) : Classified key l m.toList where
  order := by
    rw [List.pairwise_map]
    exact toList_pairwise_lt m
  part := fun c hc => .of_eq (h.mem hc).1
  inhabited := fun c hc => (h.mem hc).2
  covers := fun a ha => List.mem_map_of_mem (h.exists_of_mem ha)

end Pimid
