import Pimid.Lib.Recent
import Mathlib.Data.Finset.Card
import Mathlib.Order.Interval.Finset.Nat

/-!
# Counters settled by a cut

What is counted goes to the open counter of its epoch. Whoever comes after a cut moves the
counters of the epochs below it to the settled ones, of which the latest are kept. As long
as nothing is counted below the cut, a settled counter has all of its epoch, whoever moved
it and when, and the epochs close to the cut are still there.
-/

namespace Pimid

open Std (TreeMap)

variable {A α β : Type}

/-- How things are counted: the epoch of each, and what it adds; a counter is settled as its `value`. -/
structure Tally (A α β : Type) where
  key : A → Nat
  add : α → A → α
  zero : α
  value : α → β

structure Settling (α β : Type) where
  acc : TreeMap Nat α := ∅
  frozen : TreeMap Nat β := ∅

/-- The open epochs below the cut, in order. -/
def below (m : TreeMap Nat α) (done : Nat) : List Nat :=
  (m.toList.takeWhile (·.1 < done)).map (·.1)

namespace Tally

variable (T : Tally A α β)

def counted (m : TreeMap Nat α) (a : A) : TreeMap Nat α :=
  m.insert (T.key a) (T.add ((m[T.key a]?).getD T.zero) a)

def count (s : Settling α β) (a : A) : Settling α β :=
  { s with acc := T.counted s.acc a }

def move (s : Settling α β) (k : Nat) : Settling α β :=
  match s.acc[k]? with
  | none => s
  | some v =>
    { acc := s.acc.erase k
      frozen := if s.frozen.contains k then s.frozen else s.frozen.insert k (T.value v) }

def settle (done : Nat) (s : Settling α β) : Settling α β :=
  (below s.acc done).foldl T.move s

/-- All of an epoch in a log. -/
def total (log : List A) (k : Nat) : α :=
  (log.filter (T.key · = k)).foldl T.add T.zero

end Tally

/-- The latest settled counters stay. -/
def Settling.keep (limit : Nat) (s : Settling α β) : Settling α β :=
  { s with frozen := keepLast limit s.frozen }

/-! ## The epochs below a cut -/

theorem mem_takeWhile_lt {l : List (Nat × α)} (h : l.Pairwise fun x y => x.1 < y.1) (done : Nat) {x : Nat × α} :
    x ∈ l.takeWhile (·.1 < done) ↔ x ∈ l ∧ x.1 < done := by
  induction l with
  | nil => simp
  | cons y l ih =>
    obtain ⟨hy, hl⟩ := List.pairwise_cons.mp h
    by_cases hd : y.1 < done
    · rw [List.takeWhile_cons_of_pos (by exact decide_eq_true hd), List.mem_cons, List.mem_cons, ih hl]
      constructor
      · rintro (rfl | ⟨hx, hlt⟩)
        · exact ⟨.inl rfl, hd⟩
        · exact ⟨.inr hx, hlt⟩
      · rintro ⟨rfl | hx, hlt⟩
        · exact .inl rfl
        · exact .inr ⟨hx, hlt⟩
    · rw [List.takeWhile_cons_of_neg (by simpa using hd)]
      constructor
      · intro hx
        exact absurd hx List.not_mem_nil
      · intro ⟨hx, hlt⟩
        rcases List.mem_cons.mp hx with rfl | hx
        · exact absurd hlt hd
        · have := hy x hx
          omega

theorem mem_below {m : TreeMap Nat α} {done k : Nat} : k ∈ below m done ↔ k < done ∧ m[k]? ≠ none := by
  unfold below
  rw [List.mem_map]
  constructor
  · rintro ⟨x, hx, rfl⟩
    obtain ⟨hmem, hlt⟩ := (mem_takeWhile_lt (toList_pairwise_lt m) done).mp hx
    refine ⟨hlt, ?_⟩
    rw [TreeMap.mem_toList_iff_getElem?_eq_some.mp hmem]
    exact Option.some_ne_none _
  · intro ⟨hlt, hne⟩
    obtain ⟨v, hv⟩ := Option.ne_none_iff_exists'.mp hne
    exact ⟨(k, v), (mem_takeWhile_lt (toList_pairwise_lt m) done).mpr
      ⟨TreeMap.mem_toList_iff_getElem?_eq_some.mpr hv, hlt⟩, rfl⟩

theorem length_after_le {m : TreeMap Nat α} {b : Nat} (h : ∀ k v, m[k]? = some v → k < b) (k : Nat) :
    (after m k).length ≤ b - (k + 1) := by
  have hnodup : ((after m k).map (·.1)).Nodup := by
    refine List.nodup_iff_pairwise_ne.mpr (List.pairwise_map.mpr ?_)
    exact ((toList_pairwise_lt m).filter _).imp Nat.ne_of_lt
  have hsub : ((after m k).map (·.1)).toFinset ⊆ Finset.Ico (k + 1) b := by
    intro j hj
    obtain ⟨x, hx, rfl⟩ := List.mem_map.mp (List.mem_toFinset.mp hj)
    obtain ⟨hmem, hlt⟩ := List.mem_filter.mp hx
    exact Finset.mem_Ico.mpr ⟨of_decide_eq_true hlt, h x.1 x.2 (TreeMap.mem_toList_iff_getElem?_eq_some.mp hmem)⟩
  have := Finset.card_le_card hsub
  rwa [List.toFinset_card_of_nodup hnodup, List.length_map, Nat.card_Ico] at this

namespace Tally

variable {T : Tally A α β} {log : List A} {s : Settling α β} {m : TreeMap Nat α} {a : A} {done done' limit k r : Nat}

/-! ## Moving -/

theorem move_acc (s : Settling α β) (j k : Nat) : (T.move s j).acc[k]? = if k = j then none else s.acc[k]? := by
  unfold move
  split
  · next hnone =>
    split
    · next heq => rw [heq, hnone]
    · rfl
  · exact getElem?_erase_eq ..

theorem move_frozen (s : Settling α β) (j k : Nat) :
    (T.move s j).frozen[k]? = (s.frozen[k]?).or (if k = j then (s.acc[k]?).map T.value else none) := by
  unfold move
  split
  · next hnone =>
    have hmoved : (if k = j then (s.acc[k]?).map T.value else none) = none := by
      split
      · next heq => rw [heq, hnone, Option.map_none]
      · rfl
    rw [hmoved, Option.or_none]
  · next v hv =>
    dsimp only
    by_cases heq : k = j
    · subst heq
      rw [if_pos rfl, hv]
      split
      · next hin =>
        obtain ⟨w, hw⟩ := contains_eq_true_iff.mp hin
        rw [hw, Option.some_or]
      · next hout =>
        have hfree : s.frozen[k]? = none := by
          rw [Option.eq_none_iff_forall_ne_some]
          intro w hw
          exact hout (contains_eq_true_iff.mpr ⟨w, hw⟩)
        rw [getElem?_insert_same, hfree, Option.none_or, Option.map_some]
    · rw [if_neg heq, Option.or_none]
      split
      · rfl
      · exact getElem?_insert_other _ heq

theorem moves_acc (ks : List Nat) (s : Settling α β) (k : Nat) :
    (ks.foldl T.move s).acc[k]? = if k ∈ ks then none else s.acc[k]? := by
  induction ks generalizing s with
  | nil => rw [if_neg List.not_mem_nil, List.foldl_nil]
  | cons j ks ih =>
    rw [List.foldl_cons, ih, move_acc]
    by_cases hk : k ∈ ks
    · rw [if_pos hk, if_pos (List.mem_cons_of_mem j hk)]
    · by_cases hj : k = j
      · rw [if_neg hk, if_pos hj, if_pos (List.mem_cons.mpr (.inl hj))]
      · rw [if_neg hk, if_neg hj, if_neg fun h => (List.mem_cons.mp h).elim hj hk]

theorem moves_frozen (ks : List Nat) (s : Settling α β) (k : Nat) :
    (ks.foldl T.move s).frozen[k]? = (s.frozen[k]?).or (if k ∈ ks then (s.acc[k]?).map T.value else none) := by
  induction ks generalizing s with
  | nil => rw [if_neg List.not_mem_nil, List.foldl_nil, Option.or_none]
  | cons j ks ih =>
    rw [List.foldl_cons, ih, move_frozen, move_acc]
    by_cases hj : k = j
    · rw [if_pos hj, if_pos hj, if_pos (List.mem_cons.mpr (.inl hj)), Option.map_none, ite_self, Option.or_none]
    · rw [if_neg hj, if_neg hj, Option.or_none]
      by_cases hk : k ∈ ks
      · rw [if_pos hk, if_pos (List.mem_cons_of_mem j hk)]
      · rw [if_neg hk, if_neg fun h => (List.mem_cons.mp h).elim hj hk]

/-! ## Totals -/

theorem total_snoc (log : List A) (a : A) (k : Nat) :
    T.total (log ++ [a]) k = if T.key a = k then T.add (T.total log k) a else T.total log k := by
  unfold total
  rw [List.filter_append]
  by_cases h : T.key a = k
  · rw [if_pos h, List.filter_cons_of_pos (by exact decide_eq_true h), List.filter_nil, List.foldl_append]
    rfl
  · rw [if_neg h, List.filter_cons_of_neg (by simpa using h), List.filter_nil, List.append_nil]

theorem total_eq_zero (h : ∀ b ∈ log, T.key b ≠ k) : T.total log k = T.zero := by
  unfold total
  rw [List.filter_eq_nil_iff.mpr fun b hb => by simpa using h b hb]
  rfl

/-! ## What the maps hold -/

/-- Open and settled counters have all of their epochs, and those close to the cut are there. -/
structure Inv (T : Tally A α β) (log : List A) (done limit : Nat) (s : Settling α β) : Prop where
  acc : ∀ k v, s.acc[k]? = some v → v = T.total log k ∧ ∃ a ∈ log, T.key a = k
  frozen : ∀ k v, s.frozen[k]? = some v → k < done ∧ v = T.value (T.total log k) ∧ ∃ a ∈ log, T.key a = k
  kept : ∀ a ∈ log, done ≤ T.key a + limit → s.acc[T.key a]? ≠ none ∨ s.frozen[T.key a]? ≠ none

theorem Inv.init (T : Tally A α β) (done limit : Nat) : T.Inv [] done limit {} := by
  refine ⟨fun k v h => ?_, fun k v h => ?_, fun a ha => absurd ha List.not_mem_nil⟩ <;> simp at h

theorem Inv.mono (h : T.Inv log done limit s) (hle : done ≤ done') : T.Inv log done' limit s := by
  refine ⟨h.acc, fun k v hk => ?_, fun a ha hd => h.kept a ha (Nat.le_trans hle hd)⟩
  obtain ⟨hlt, hrest⟩ := h.frozen k v hk
  exact ⟨Nat.lt_of_lt_of_le hlt hle, hrest⟩

/-- An open epoch has a counter once something was counted in it. -/
theorem Inv.acc_getD (h : T.Inv log done limit s) (hk : done ≤ k) : (s.acc[k]?).getD T.zero = T.total log k := by
  cases hacc : s.acc[k]? with
  | some v => exact (h.acc k v hacc).1
  | none =>
    refine (total_eq_zero fun b hb heq => ?_).symm
    subst heq
    rcases h.kept b hb (by omega) with hne | hne
    · exact hne hacc
    · obtain ⟨v, hv⟩ := Option.ne_none_iff_exists'.mp hne
      have := (h.frozen _ v hv).1
      omega

theorem Inv.count (h : T.Inv log done limit s) (ha : done ≤ T.key a) : T.Inv (log ++ [a]) done limit (T.count s a) := by
  refine ⟨fun k v hk => ?_, fun k v hk => ?_, fun b hb hd => ?_⟩
  · have hk : (s.acc.insert (T.key a) (T.add ((s.acc[T.key a]?).getD T.zero) a))[k]? = some v := hk
    rw [getElem?_insert_eq] at hk
    rw [total_snoc]
    split at hk
    · next heq =>
      rw [if_pos heq.symm, ← Option.some.inj hk, h.acc_getD ha, heq]
      exact ⟨rfl, a, List.mem_append.mpr (.inr List.mem_cons_self), rfl⟩
    · next hne =>
      obtain ⟨hv, b, hb, hkb⟩ := h.acc k v hk
      rw [if_neg (Ne.symm hne)]
      exact ⟨hv, b, List.mem_append.mpr (.inl hb), hkb⟩
  · obtain ⟨hlt, hv, b, hb, hkb⟩ := h.frozen k v hk
    rw [total_snoc, if_neg (by omega)]
    exact ⟨hlt, hv, b, List.mem_append.mpr (.inl hb), hkb⟩
  · have hins : (T.count s a).acc[T.key b]? = if T.key b = T.key a then
        some (T.add ((s.acc[T.key a]?).getD T.zero) a) else s.acc[T.key b]? := getElem?_insert_eq ..
    rw [hins]
    split
    · exact .inl (Option.some_ne_none _)
    · next hne =>
      rcases List.mem_append.mp hb with hb | hb
      · exact h.kept b hb hd
      · rw [List.mem_singleton.mp hb] at hne
        exact absurd rfl hne

/-- Epochs below the cut are moved, whichever they are. -/
theorem Inv.moves (h : T.Inv log done limit s) {ks : List Nat} (hks : ∀ k ∈ ks, k < done) :
    T.Inv log done limit (ks.foldl T.move s) := by
  refine ⟨fun k v hk => ?_, fun k v hk => ?_, fun a ha hd => ?_⟩
  · rw [moves_acc] at hk
    split at hk
    · cases hk
    · exact h.acc k v hk
  · rw [moves_frozen] at hk
    rcases Option.or_eq_some_iff.mp hk with hk | ⟨-, hk⟩
    · exact h.frozen k v hk
    · split at hk
      · next hmem =>
        obtain ⟨w, hw, rfl⟩ := Option.map_eq_some_iff.mp hk
        obtain ⟨rfl, hlog⟩ := h.acc k w hw
        exact ⟨hks k hmem, rfl, hlog⟩
      · cases hk
  · rw [moves_acc, moves_frozen]
    rcases h.kept a ha hd with hne | hne
    · by_cases hmem : T.key a ∈ ks
      · right
        obtain ⟨v, hv⟩ := Option.ne_none_iff_exists'.mp hne
        rw [if_pos hmem, hv, Option.map_some]
        exact fun hnone => absurd (Option.or_eq_none_iff.mp hnone).2 (Option.some_ne_none _)
      · left
        rwa [if_neg hmem]
    · right
      exact fun hnone => hne (Option.or_eq_none_iff.mp hnone).1

theorem Inv.settle (h : T.Inv log done limit s) : T.Inv log done limit (T.settle done s) :=
  h.moves fun _ hk => (mem_below.mp hk).1

theorem settle_acc (s : Settling α β) (hk : k < done) : (T.settle done s).acc[k]? = none := by
  unfold Tally.settle
  rw [moves_acc]
  split
  · rfl
  · next hnot =>
    by_contra hne
    exact hnot (mem_below.mpr ⟨hk, hne⟩)

theorem Inv.keep (h : T.Inv log done limit s) (hlimit : 0 < limit) : T.Inv log done limit (s.keep limit) := by
  refine ⟨h.acc, fun k v hk => h.frozen k v (mem_of_keepLast hk), fun a ha hd => ?_⟩
  rcases h.kept a ha hd with hne | hne
  · exact .inl hne
  · right
    have hfew := length_after_le (fun k v hk => (h.frozen k v hk).1) (T.key a)
    show (keepLast limit s.frozen)[T.key a]? ≠ none
    rw [getElem?_keepLast, if_pos (by omega)]
    exact hne

/-- A settled epoch close to the cut reads as all that was counted in it. -/
theorem Inv.read (h : T.Inv log done limit s) (hsettled : s.acc[r]? = none) (hr : done ≤ r + limit) :
    (s.frozen[r]?).getD (T.value T.zero) = T.value (T.total log r) := by
  cases hf : s.frozen[r]? with
  | some v => exact (h.frozen r v hf).2.1
  | none =>
    rw [total_eq_zero fun b hb heq => ?_]
    · rfl
    · subst heq
      rcases h.kept b hb hr with hne | hne
      · exact hne hsettled
      · exact hne hf

/-! ## One map that keeps the latest -/

/-- Counters with all of their epochs, none later than the one after the cut. -/
structure Held (T : Tally A α β) (log : List A) (done limit : Nat) (m : TreeMap Nat α) : Prop where
  acc : ∀ k v, m[k]? = some v → v = T.total log k ∧ k < done + 2
  kept : ∀ a ∈ log, done + 2 ≤ T.key a + limit → m[T.key a]? ≠ none

theorem Held.init (T : Tally A α β) (done limit : Nat) : T.Held [] done limit ∅ := by
  refine ⟨fun k v h => ?_, fun a ha => absurd ha List.not_mem_nil⟩
  simp at h

theorem Held.mono (h : T.Held log done limit m) (hle : done ≤ done') : T.Held log done' limit m := by
  refine ⟨fun k v hk => ?_, fun a ha hd => h.kept a ha (by omega)⟩
  obtain ⟨hv, hlt⟩ := h.acc k v hk
  exact ⟨hv, by omega⟩

theorem Held.read (h : T.Held log done limit m) (hr : done + 2 ≤ r + limit) : (m[r]?).getD T.zero = T.total log r := by
  cases hm : m[r]? with
  | some v => exact (h.acc r v hm).1
  | none =>
    refine (total_eq_zero fun b hb heq => ?_).symm
    subst heq
    exact h.kept b hb hr hm

theorem Held.count (h : T.Held log done limit m) (ha : done ≤ T.key a) (hb : T.key a < done + 2) (hlimit : 2 ≤ limit) :
    T.Held (log ++ [a]) done limit (T.counted m a) := by
  unfold counted
  refine ⟨fun k v hk => ?_, fun b hmem hd => ?_⟩
  · rw [getElem?_insert_eq] at hk
    rw [total_snoc]
    split at hk
    · next heq =>
      rw [if_pos heq.symm, ← Option.some.inj hk, h.read (by omega), heq]
      exact ⟨rfl, hb⟩
    · next hne =>
      rw [if_neg (Ne.symm hne)]
      exact h.acc k v hk
  · rw [getElem?_insert_eq]
    split
    · exact Option.some_ne_none _
    · next hne =>
      rcases List.mem_append.mp hmem with hmem | hmem
      · exact h.kept b hmem hd
      · rw [List.mem_singleton.mp hmem] at hne
        exact absurd rfl hne

theorem Held.keep (h : T.Held log done limit m) (hlimit : 0 < limit) : T.Held log done limit (keepLast limit m) := by
  refine ⟨fun k v hk => h.acc k v (mem_of_keepLast hk), fun a ha hd => ?_⟩
  have hfew := length_after_le (fun k v hk => (h.acc k v hk).2) (T.key a)
  rw [getElem?_keepLast, if_pos (by omega)]
  exact h.kept a ha hd

end Tally

end Pimid
