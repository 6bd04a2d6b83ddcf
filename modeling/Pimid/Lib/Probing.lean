import Mathlib.Data.Finset.Card
import Pimid.Lib.Index

/-!
# Linear probing

A ring of slots, each free or with a key and its value, and a home slot for every key.
Every slot from a key's home to the slot that has it is taken, so a key is looked for from
its home to the first free slot. A removal leaves a hole, and the slots after the hole are
searched for one that may move there: no key's way leads over the hole, except for slots not
searched yet.
-/

namespace Pimid

open Function (update update_of_ne update_self)

/-! ## Going round -/

def nextSlot (n s : Nat) : Nat := (s + 1) % n

/-- The first slot from `s` on that stops. -/
def probe (n : Nat) (stop : Nat → Bool) : Nat → Nat → Option Nat
  | 0, _ => none
  | fuel + 1, s => if stop s then some s else probe n stop fuel (nextSlot n s)

section

variable {n a s t : Nat}

theorem nextSlot_lt (hs : s < n) : nextSlot n s < n := Nat.mod_lt _ (by omega)

theorem nextSlot_eq (hs : s < n) : nextSlot n s = if s + 1 = n then 0 else s + 1 := by
  unfold nextSlot
  split
  · next h => rw [h, Nat.mod_self]
  · exact Nat.mod_eq_of_lt (by omega)

theorem rel_nextSlot (ha : a < n) (hs : s < n) (hne : nextSlot n s ≠ a) : rel n a (nextSlot n s) = rel n a s + 1 := by
  have hlt := nextSlot_lt hs
  rw [nextSlot_eq hs] at hne hlt ⊢
  rw [rel_eq ha hlt, rel_eq ha hs]
  split_ifs at hne hlt ⊢ <;> omega

theorem nextSlot_rel (hs : s < n) (ht : t < n) (hne : s ≠ t) : rel n (nextSlot n s) t + 1 = rel n s t := by
  have hlt := nextSlot_lt hs
  rw [nextSlot_eq hs] at hlt ⊢
  rw [rel_eq hlt ht, rel_eq hs ht]
  split_ifs at hlt ⊢ <;> omega

theorem nextSlot_ne (ha : a < n) (hs : s < n) (ht : t < n) (h : rel n a s < rel n a t) : nextSlot n s ≠ a := by
  rw [nextSlot_eq hs]
  rw [rel_eq ha hs, rel_eq ha ht] at h
  split_ifs at h ⊢ <;> omega

theorem probe_spec {stop : Nat → Bool} (hs : s < n) (ht : t < n) (hstop : stop t = true) {fuel : Nat}
    (hfuel : rel n s t < fuel) :
    ∃ r < n, probe n stop fuel s = some r ∧ stop r = true ∧ ∀ p < n, rel n s p < rel n s r → stop p = false := by
  induction fuel generalizing s with
  | zero => exact absurd hfuel (Nat.not_lt_zero _)
  | succ fuel ih =>
    unfold probe
    by_cases hhere : stop s = true
    · rw [if_pos hhere]
      refine ⟨s, hs, rfl, hhere, fun p _ hlt => ?_⟩
      rw [rel_self hs] at hlt
      omega
    · rw [if_neg hhere]
      have hne : s ≠ t := fun he => hhere (he ▸ hstop)
      have hstep := nextSlot_rel hs ht hne
      obtain ⟨r, hr, hprobe, hgot, hfirst⟩ := ih (nextSlot_lt hs) (by omega)
      refine ⟨r, hr, hprobe, hgot, fun p hp hlt => ?_⟩
      by_cases hps : s = p
      · exact Bool.not_eq_true _ ▸ hps ▸ hhere
      · have hsr : s ≠ r := fun he => by
          rw [← he, rel_self hs] at hlt
          omega
        have := nextSlot_rel hs hp hps
        have := nextSlot_rel hs hr hsr
        exact hfirst p hp (by omega)

end

/-! ## The table -/

variable {K V : Type} {n : Nat} {home : K → Nat} {cell : Nat → Option (K × V)} {k : K} {v : V} {t : Nat}

/-- A key is in one slot, and the slots from its home to that slot are taken. -/
structure Probed (n : Nat) (home : K → Nat) (cell : Nat → Option (K × V)) : Prop where
  home_lt : ∀ k, home k < n
  path : ∀ {s k v}, s < n → cell s = some (k, v) → ∀ p < n, rel n (home k) p < rel n (home k) s → cell p ≠ none
  one : ∀ {s t k v w}, s < n → t < n → cell s = some (k, v) → cell t = some (k, w) → s = t

/-- The table has `v` for `k`. -/
def Stored (n : Nat) (cell : Nat → Option (K × V)) (k : K) (v : V) : Prop := ∃ s < n, cell s = some (k, v)

/-- The slots that are taken. -/
def occupied (n : Nat) (cell : Nat → Option (K × V)) : Finset Nat := (Finset.range n).filter fun s => (cell s).isSome

theorem mem_occupied {s : Nat} : s ∈ occupied n cell ↔ s < n ∧ cell s ≠ none := by
  rw [occupied, Finset.mem_filter, Finset.mem_range, Option.isSome_iff_ne_none]

theorem exists_free (h : (occupied n cell).card < n) : ∃ s < n, cell s = none := by
  by_contra hall
  push Not at hall
  have hsub : Finset.range n ⊆ occupied n cell := by
    intro s hs
    have hlt := Finset.mem_range.mp hs
    exact mem_occupied.mpr ⟨hlt, hall s hlt⟩
  have hcard := Finset.card_le_card hsub
  rw [Finset.card_range] at hcard
  omega

namespace Probed

/-- A key that is not found up to the first free slot from its home is nowhere. -/
theorem absent (h : Probed n home cell) (ht : t < n) (hfree : cell t = none)
    (hfirst : ∀ p < n, rel n (home k) p < rel n (home k) t → ∀ v, cell p ≠ some (k, v)) (v : V) : ¬ Stored n cell k v := by
  intro ⟨s, hs, hcell⟩
  rcases Nat.lt_trichotomy (rel n (home k) s) (rel n (home k) t) with hlt | heq | hgt
  · exact hfirst s hs hlt v hcell
  · rw [rel_inj (h.home_lt k) hs ht heq, hfree] at hcell
    cases hcell
  · exact h.path hs hcell t ht hgt hfree

/-- A new key goes to the first free slot from its home. -/
theorem insert (h : Probed n home cell) (ht : t < n) (hfree : cell t = none)
    (hfirst : ∀ p < n, rel n (home k) p < rel n (home k) t → cell p ≠ none) (habs : ∀ v, ¬ Stored n cell k v) :
    Probed n home (update cell t (some (k, v))) := by
  refine ⟨h.home_lt, fun {s k' v'} hs hcell p hp hlt => ?_, fun {s s' k' v' w} hs hs' hcell hcell' => ?_⟩
  · by_cases hpt : p = t
    · rw [hpt, update_self]
      exact Option.some_ne_none _
    · rw [update_of_ne hpt]
      by_cases hst : s = t
      · subst hst
        rw [update_self] at hcell
        cases hcell
        exact hfirst p hp hlt
      · rw [update_of_ne hst] at hcell
        exact h.path hs hcell p hp hlt
  · by_cases hst : s = t
    · subst hst
      rw [update_self] at hcell
      cases hcell
      by_cases hst' : s' = s
      · exact hst'.symm
      · rw [update_of_ne hst'] at hcell'
        exact absurd ⟨s', hs', hcell'⟩ (habs w)
    · rw [update_of_ne hst] at hcell
      by_cases hst' : s' = t
      · subst hst'
        rw [update_self] at hcell'
        cases hcell'
        exact absurd ⟨s, hs, hcell⟩ (habs v')
      · rw [update_of_ne hst'] at hcell'
        exact h.one hs hs' hcell hcell'

theorem store (h : Probed n home cell) {v₀ : V} (hcell : cell t = some (k, v₀)) :
    Probed n home (update cell t (some (k, v))) := by
  have hkey : ∀ {s k' v'}, update cell t (some (k, v)) s = some (k', v') → ∃ w, cell s = some (k', w) := by
    intro s k' v' hs
    by_cases hst : s = t
    · subst hst
      rw [update_self] at hs
      cases hs
      exact ⟨v₀, hcell⟩
    · rw [update_of_ne hst] at hs
      exact ⟨v', hs⟩
  refine ⟨h.home_lt, fun {s k' v'} hs hc p hp hlt => ?_, fun {s s' k' v' w} hs hs' hc hc' => ?_⟩
  · obtain ⟨w, hw⟩ := hkey hc
    by_cases hpt : p = t
    · rw [hpt, update_self]
      exact Option.some_ne_none _
    · rw [update_of_ne hpt]
      exact h.path hs hw p hp hlt
  · obtain ⟨w₁, h₁⟩ := hkey hc
    obtain ⟨w₂, h₂⟩ := hkey hc'
    exact h.one hs hs' h₁ h₂

end Probed

variable {k' : K} {v' : V}

theorem stored_erase (h : Probed n home cell) (ht : t < n) (hcell : cell t = some (k, v)) :
    Stored n (update cell t none) k' v' ↔ k' ≠ k ∧ Stored n cell k' v' := by
  constructor
  · intro ⟨s, hs, hc⟩
    have hst : s ≠ t := by
      intro he
      rw [he, update_self] at hc
      cases hc
    rw [update_of_ne hst] at hc
    refine ⟨?_, s, hs, hc⟩
    intro he
    subst he
    exact hst (h.one hs ht hc hcell)
  · intro ⟨hne, s, hs, hc⟩
    have hst : s ≠ t := by
      intro he
      rw [he, hcell] at hc
      cases hc
      exact hne rfl
    exact ⟨s, hs, by rw [update_of_ne hst, hc]⟩

section

variable [DecidableEq K]

theorem stored_insert (ht : t < n) (hfree : cell t = none) (habs : ∀ v, ¬ Stored n cell k v) :
    Stored n (update cell t (some (k, v))) k' v' ↔ if k' = k then v' = v else Stored n cell k' v' := by
  constructor
  · intro ⟨s, hs, hcell⟩
    by_cases hst : s = t
    · subst hst
      rw [update_self] at hcell
      cases hcell
      rw [if_pos rfl]
    · rw [update_of_ne hst] at hcell
      have hne : k' ≠ k := by
        intro he
        subst he
        exact habs v' ⟨s, hs, hcell⟩
      rw [if_neg hne]
      exact ⟨s, hs, hcell⟩
  · intro h
    split at h
    · next he => exact ⟨t, ht, by rw [update_self, he, h]⟩
    · obtain ⟨s, hs, hcell⟩ := h
      have hst : s ≠ t := by
        intro he
        rw [he, hfree] at hcell
        cases hcell
      exact ⟨s, hs, by rw [update_of_ne hst, hcell]⟩

theorem stored_store (h : Probed n home cell) (ht : t < n) {v₀ : V} (hcell : cell t = some (k, v₀)) :
    Stored n (update cell t (some (k, v))) k' v' ↔ if k' = k then v' = v else Stored n cell k' v' := by
  constructor
  · intro ⟨s, hs, hc⟩
    by_cases hst : s = t
    · subst hst
      rw [update_self] at hc
      cases hc
      rw [if_pos rfl]
    · rw [update_of_ne hst] at hc
      have hne : k' ≠ k := by
        intro he
        subst he
        exact hst (h.one hs ht hc hcell)
      rw [if_neg hne]
      exact ⟨s, hs, hc⟩
  · intro h'
    split at h'
    · next he => exact ⟨t, ht, by rw [update_self, he, h']⟩
    · next hne =>
      obtain ⟨s, hs, hc⟩ := h'
      have hst : s ≠ t := by
        intro he
        rw [he, hcell] at hc
        cases hc
        exact hne rfl
      exact ⟨s, hs, by rw [update_of_ne hst, hc]⟩

end

theorem occupied_insert (ht : t < n) : occupied n (update cell t (some (k, v))) = insert t (occupied n cell) := by
  ext s
  rw [Finset.mem_insert, mem_occupied, mem_occupied]
  by_cases hst : s = t
  · subst hst
    simp [ht]
  · rw [update_of_ne hst]
    simp [hst]

theorem occupied_erase : occupied n (update cell t none) = (occupied n cell).erase t := by
  ext s
  rw [Finset.mem_erase, mem_occupied, mem_occupied]
  by_cases hst : s = t
  · subst hst
    simp
  · rw [update_of_ne hst]
    simp [hst]

/-! ## A removal -/

/-- Slot `i` is the hole, and the slots after it up to `j` are searched: no key's way leads over the hole, but to slots
after `j`. -/
structure Holed (n : Nat) (home : K → Nat) (cell : Nat → Option (K × V)) (i j : Nat) : Prop where
  home_lt : ∀ k, home k < n
  hole : cell i = none
  passed : ∀ {s k v}, s < n → cell s = some (k, v) → ∀ p < n, rel n (home k) p < rel n (home k) s → cell p = none →
    p = i ∧ rel n i j < rel n i s
  run : ∀ p < n, p ≠ i → rel n i p ≤ rel n i j → cell p ≠ none
  one : ∀ {s t k v w}, s < n → t < n → cell s = some (k, v) → cell t = some (k, w) → s = t

variable {i j : Nat}

theorem Probed.punch (h : Probed n home cell) (hi : i < n) : Holed n home (update cell i none) i i := by
  refine ⟨h.home_lt, update_self _ _ _, fun {s k v} hs hc p hp hlt hfree => ?_, fun p hp hpi hle => ?_,
    fun {s t k v w} hs ht hc hc' => ?_⟩
  · have hsi : s ≠ i := by
      intro he
      rw [he, update_self] at hc
      cases hc
    rw [update_of_ne hsi] at hc
    have hpi : p = i := by
      by_contra hpi
      rw [update_of_ne hpi] at hfree
      exact h.path hs hc p hp hlt hfree
    refine ⟨hpi, ?_⟩
    rw [rel_self hi]
    exact Nat.pos_of_ne_zero fun hz => hsi ((rel_eq_zero hi hs).mp hz)
  · rw [rel_self hi] at hle
    exact absurd ((rel_eq_zero hi hp).mp (Nat.le_zero.mp hle)) hpi
  · by_cases hsi : s = i
    · rw [hsi, update_self] at hc
      cases hc
    · by_cases hti : t = i
      · rw [hti, update_self] at hc'
        cases hc'
      · rw [update_of_ne hsi] at hc
        rw [update_of_ne hti] at hc'
        exact h.one hs ht hc hc'

namespace Holed

theorem stop (h : Holed n home cell i j) (hi : i < n) (hj : j < n) (hne : nextSlot n j ≠ i)
    (hfree : cell (nextSlot n j) = none) : Probed n home cell := by
  refine ⟨h.home_lt, fun {s k v} hs hc p hp hlt hp' => ?_, h.one⟩
  obtain ⟨rfl, hlater⟩ := h.passed hs hc p hp hlt hp'
  have hq := nextSlot_lt hj
  have hrel := rel_nextSlot hi hj hne
  have hsq : nextSlot n j ≠ s := by
    intro he
    rw [← he, hfree] at hc
    cases hc
  have hbetween : rel n (home k) (nextSlot n j) < rel n (home k) s := by
    have hhome := h.home_lt k
    rw [rel_eq hi hq, rel_eq hi hj] at hrel
    rw [rel_eq hi hj, rel_eq hi hs] at hlater
    rw [rel_eq hhome hi, rel_eq hhome hs] at hlt
    rw [rel_eq hhome hq, rel_eq hhome hs]
    generalize nextSlot n j = q at *
    split_ifs at hrel hlater hlt ⊢ <;> omega
  exact hne (h.passed hs hc _ hq hbetween hfree).1

/-- The next slot's key stays: its home is after the hole. -/
theorem stay (h : Holed n home cell i j) (hi : i < n) (hj : j < n) (hne : nextSlot n j ≠ i)
    (hcell : cell (nextSlot n j) = some (k, v)) (hafter : 0 < rel n i (home k))
    (hle : rel n i (home k) ≤ rel n i (nextSlot n j)) : Holed n home cell i (nextSlot n j) := by
  have hq := nextSlot_lt hj
  have hrel := rel_nextSlot hi hj hne
  refine ⟨h.home_lt, h.hole, fun {s k' v'} hs hc p hp hlt hfree => ?_, fun p hp hpi hle => ?_, h.one⟩
  · obtain ⟨rfl, hlater⟩ := h.passed hs hc p hp hlt hfree
    refine ⟨rfl, Nat.lt_of_le_of_ne (by omega) fun heq => ?_⟩
    have hsq := rel_inj hi hq hs heq
    rw [← hsq, hcell] at hc
    cases hc
    have hhome := h.home_lt k
    rw [← hsq, rel_eq hhome hi, rel_eq hhome hq] at hlt
    rw [rel_eq hi hhome] at hafter hle
    rw [rel_eq hi hq] at hle
    split_ifs at hlt hafter hle <;> omega
  · rcases Nat.lt_or_eq_of_le hle with hlt | heq
    · exact h.run p hp hpi (by omega)
    · rw [rel_inj hi hp hq heq, hcell]
      exact Option.some_ne_none _

/-- The next slot's key moves to the hole, and its slot is the hole. -/
theorem move (h : Holed n home cell i j) (hi : i < n) (hj : j < n) (hne : nextSlot n j ≠ i)
    (hcell : cell (nextSlot n j) = some (k, v))
    (hbefore : ¬ (0 < rel n i (home k) ∧ rel n i (home k) ≤ rel n i (nextSlot n j))) :
    Holed n home (update (update cell i (some (k, v))) (nextSlot n j) none) (nextSlot n j) (nextSlot n j) := by
  have hq := nextSlot_lt hj
  generalize nextSlot n j = q at *
  have hhome := h.home_lt k
  have hway : rel n (home k) i < rel n (home k) q := by
    rw [rel_eq hi hhome, rel_eq hi hq] at hbefore
    rw [rel_eq hhome hi, rel_eq hhome hq]
    split_ifs at hbefore ⊢ <;> omega
  -- the slot of a key now
  have hwas : ∀ {s k' v'}, update (update cell i (some (k, v))) q none s = some (k', v') →
      s ≠ q ∧ (s = i ∧ k' = k ∧ v' = v ∨ s ≠ i ∧ cell s = some (k', v')) := by
    intro s k' v' hs
    have hsq : s ≠ q := by
      intro he
      rw [he, update_self] at hs
      cases hs
    rw [update_of_ne hsq] at hs
    refine ⟨hsq, ?_⟩
    by_cases hsi : s = i
    · rw [hsi, update_self] at hs
      cases hs
      exact Or.inl ⟨hsi, rfl, rfl⟩
    · rw [update_of_ne hsi] at hs
      exact Or.inr ⟨hsi, hs⟩
  have hfree : ∀ {p}, update (update cell i (some (k, v))) q none p = none → p = q ∨ p ≠ i ∧ cell p = none := by
    intro p hp
    by_cases hpq : p = q
    · exact Or.inl hpq
    · rw [update_of_ne hpq] at hp
      by_cases hpi : p = i
      · rw [hpi, update_self] at hp
        cases hp
      · rw [update_of_ne hpi] at hp
        exact Or.inr ⟨hpi, hp⟩
  refine ⟨h.home_lt, update_self _ _ _, fun {s k' v'} hs hc p hp hlt hnone => ?_, fun p hp hpq hle => ?_,
    fun {s t k' v' w} hs ht hc hc' => ?_⟩
  · obtain ⟨hsq, hs'⟩ := hwas hc
    have hlater : rel n q q < rel n q s := by
      rw [rel_self hq]
      exact Nat.pos_of_ne_zero fun hz => hsq ((rel_eq_zero hq hs).mp hz)
    refine ⟨?_, hlater⟩
    rcases hfree hnone with hpq | ⟨hpi, hp'⟩
    · exact hpq
    · rcases hs' with ⟨rfl, rfl, rfl⟩ | ⟨-, hs'⟩
      · exact absurd (h.passed hq hcell p hp (hlt.trans hway) hp').1 hpi
      · exact absurd (h.passed hs hs' p hp hlt hp').1 hpi
  · rw [rel_self hq] at hle
    exact absurd ((rel_eq_zero hq hp).mp (Nat.le_zero.mp hle)) hpq
  · obtain ⟨hsq, hs'⟩ := hwas hc
    obtain ⟨htq, ht'⟩ := hwas hc'
    rcases hs' with ⟨hsi, rfl, rfl⟩ | ⟨-, hs'⟩
    · rcases ht' with ⟨hti, -, -⟩ | ⟨-, ht'⟩
      · rw [hsi, hti]
      · exact absurd (h.one ht hq ht' hcell) htq
    · rcases ht' with ⟨-, rfl, rfl⟩ | ⟨-, ht'⟩
      · exact absurd (h.one hs hq hs' hcell) hsq
      · exact h.one hs ht hs' ht'

end Holed

/-! ## What a move keeps -/

section

variable {q : Nat}

theorem stored_move (hi : i < n) (hq : q < n) (hhole : cell i = none) (hcell : cell q = some (k, v)) (hne : q ≠ i) (k' : K)
    (v' : V) : Stored n (update (update cell i (some (k, v))) q none) k' v' ↔ Stored n cell k' v' := by
  constructor
  · intro ⟨s, hs, hc⟩
    by_cases hsq : s = q
    · rw [hsq, update_self] at hc
      cases hc
    · rw [update_of_ne hsq] at hc
      by_cases hsi : s = i
      · rw [hsi, update_self] at hc
        exact ⟨q, hq, hcell.trans hc⟩
      · rw [update_of_ne hsi] at hc
        exact ⟨s, hs, hc⟩
  · intro ⟨s, hs, hc⟩
    by_cases hsq : s = q
    · rw [hsq, hcell] at hc
      exact ⟨i, hi, by rw [update_of_ne hne.symm, update_self, hc]⟩
    · have hsi : s ≠ i := by
        intro he
        rw [he, hhole] at hc
        cases hc
      exact ⟨s, hs, by rw [update_of_ne hsq, update_of_ne hsi, hc]⟩

theorem occupied_move (hi : i < n) (hq : q < n) (hhole : cell i = none) (hcell : cell q = some (k, v)) :
    (occupied n (update (update cell i (some (k, v))) q none)).card = (occupied n cell).card := by
  have hin : q ∈ occupied n cell := mem_occupied.mpr ⟨hq, by rw [hcell]; exact Option.some_ne_none _⟩
  have hout : i ∉ occupied n cell := fun h => (mem_occupied.mp h).2 hhole
  rw [occupied_erase, occupied_insert hi, Finset.card_erase_of_mem (Finset.mem_insert_of_mem hin),
    Finset.card_insert_of_notMem hout]
  rfl

end

end Pimid
