import Pimid.Cache.SnoopFilter
import Pimid.Lib.Machine

/-!
# The snoop filter's table is a map

What a slot has for its line is one value: the count, the flags and the children whose bits
are set. Copying the entry and the words moves the value, writing in place changes it, and
the operations are those of linear probing on these values.
-/

namespace Pimid.Cache

open Function (update update_eq_self update_idem update_of_ne update_self)

/-- What a line's entry and words say. -/
structure Holding where
  numSharers : Nat
  exclusive : Bool
  mem : MESIState
  sharer : Nat → Bool

/-- What is held after the writes. -/
def Holding.write (h : Holding) (w : Writes) : Holding :=
  ⟨w.numSharers, w.exclusive, w.mem, w.bits.foldl (fun g p => update g p.1 p.2) h.sharer⟩

/-- The children the writes name are in the words. -/
def Writes.inside (w : Writes) (words : Nat) : Bool := w.bits.all fun p => p.1 < 64 * words

namespace SnoopFilter

variable {f g : SnoopFilter} {H : Hash} {s t c : Nat}

/-- The children whose bit is set. -/
def sharer (f : SnoopFilter) (s c : Nat) : Bool := decide (c < 64 * f.sfWords) && f.sfHas s c

def holding (f : SnoopFilter) (s : Nat) : Holding :=
  ⟨(f.sfTab s).numSharers, (f.sfTab s).exclusive, (f.sfTab s).mem, f.sharer s⟩

/-- A slot's line and what it holds for it. -/
def cell (f : SnoopFilter) (s : Nat) : Option (Nat × Holding) :=
  if (f.sfTab s).numSharers = 0 then none else some ((f.sfTab s).tag, f.holding s)

theorem cell_none : f.cell s = none ↔ (f.sfTab s).numSharers = 0 := by
  unfold cell
  split
  · next h => exact ⟨fun _ => h, fun _ => rfl⟩
  · next h => exact ⟨(fun hc => nomatch hc), fun hz => absurd hz h⟩

theorem cell_some (h : (f.sfTab s).numSharers ≠ 0) : f.cell s = some ((f.sfTab s).tag, f.holding s) := if_neg h

/-! ## The words of a slot -/

theorem div_lt_words {W : Nat} (hc : c < 64 * W) : c / 64 < W := Nat.div_lt_of_lt_mul hc

theorem index_inj {W w v : Nat} (hw : w < W) (hv : v < W) (h : s * W + w = t * W + v) : s = t ∧ w = v := by
  have hst : s = t := by
    rcases Nat.lt_trichotomy s t with hlt | heq | hgt
    · have := Nat.mul_le_mul_right W (Nat.succ_le_of_lt hlt)
      rw [Nat.succ_mul] at this
      omega
    · exact heq
    · have := Nat.mul_le_mul_right W (Nat.succ_le_of_lt hgt)
      rw [Nat.succ_mul] at this
      omega
  subst hst
  exact ⟨rfl, by omega⟩

theorem putWords_sfHas (words : Nat → BitVec 64) (hc : c < 64 * f.sfWords) :
    (f.putWords s words).sfHas t c = if t = s then (words (c / 64)).getLsbD (c % 64) else f.sfHas t c := by
  have hw := div_lt_words hc
  show (if s * f.sfWords ≤ t * f.sfWords + c / 64 ∧ t * f.sfWords + c / 64 < (s + 1) * f.sfWords then
    words (t * f.sfWords + c / 64 - s * f.sfWords) else f.sfBits (t * f.sfWords + c / 64)).getLsbD (c % 64) = _
  by_cases hts : t = s
  · subst hts
    rw [if_pos ⟨Nat.le_add_right _ _, by rw [Nat.succ_mul]; omega⟩, if_pos rfl, Nat.add_sub_cancel_left]
  · rw [if_neg hts, if_neg]
    · rfl
    · intro ⟨hle, hlt⟩
      refine hts (index_inj hw (v := t * f.sfWords + c / 64 - s * f.sfWords) ?_ (by omega)).1
      rw [Nat.succ_mul] at hlt
      omega

/-- The word of `c` is written, and only in the bit of `c`. -/
theorem sfHas_update {c' : Nat} (hc : c < 64 * f.sfWords) (hc' : c' < 64 * f.sfWords) {w : BitVec 64} {v : Bool}
    (hw : ∀ k < 64, w.getLsbD k = if k = c % 64 then v else (f.sfBits (s * f.sfWords + c / 64)).getLsbD k) :
    (update f.sfBits (s * f.sfWords + c / 64) w (t * f.sfWords + c' / 64)).getLsbD (c' % 64) =
      if t = s ∧ c' = c then v else f.sfHas t c' := by
  by_cases hidx : t * f.sfWords + c' / 64 = s * f.sfWords + c / 64
  · obtain ⟨rfl, hword⟩ := index_inj (div_lt_words hc') (div_lt_words hc) hidx
    rw [hword, update_self, hw _ (Nat.mod_lt _ (by decide))]
    by_cases heq : c' = c
    · rw [if_pos (congrArg (· % 64) heq), if_pos ⟨rfl, heq⟩]
    · rw [if_neg fun hm => heq (by omega), if_neg fun h => heq h.2]
      unfold sfHas
      rw [hword]
  · rw [update_of_ne hidx, if_neg]
    · rfl
    · intro ⟨ht, heq⟩
      exact hidx (by rw [ht, heq])

theorem sfSet_sfHas {c' : Nat} (hc : c < 64 * f.sfWords) (hc' : c' < 64 * f.sfWords) :
    (f.sfSet s c).sfHas t c' = if t = s ∧ c' = c then true else f.sfHas t c' := by
  refine sfHas_update hc hc' fun k hk => ?_
  rw [BitVec.getLsbD_or, BitVec.getLsbD_shiftLeft, BitVec.getLsbD_one]
  grind

theorem sfClr_sfHas {c' : Nat} (hc : c < 64 * f.sfWords) (hc' : c' < 64 * f.sfWords) :
    (f.sfClr s c).sfHas t c' = if t = s ∧ c' = c then false else f.sfHas t c' := by
  refine sfHas_update hc hc' fun k hk => ?_
  rw [BitVec.getLsbD_and, BitVec.getLsbD_not, BitVec.getLsbD_shiftLeft, BitVec.getLsbD_one]
  grind

/-! ## A slot is written -/

theorem sharer_put (words : Nat → BitVec 64) (hbits : g.sfBits = (f.putWords s words).sfBits) (hwords : g.sfWords = f.sfWords) :
    g.sharer t = if t = s then fun c => decide (c < 64 * f.sfWords) && (words (c / 64)).getLsbD (c % 64) else f.sharer t := by
  have hhas : ∀ c, c < 64 * f.sfWords →
      g.sfHas t c = if t = s then (words (c / 64)).getLsbD (c % 64) else f.sfHas t c := by
    intro c hc
    rw [← putWords_sfHas words hc]
    unfold sfHas
    rw [hbits, hwords]
    rfl
  funext c
  unfold sharer
  rw [hwords]
  by_cases hc : c < 64 * f.sfWords
  · rw [hhas c hc]
    by_cases hts : t = s
    · rw [if_pos hts, if_pos hts]
    · rw [if_neg hts, if_neg hts]
  · by_cases hts : t = s
    · rw [if_pos hts, decide_eq_false hc, Bool.false_and, Bool.false_and]
    · rw [if_neg hts, decide_eq_false hc, Bool.false_and, Bool.false_and]

theorem cell_put (e : Slot) (words : Nat → BitVec 64) (htab : g.sfTab = update f.sfTab s e)
    (hbits : g.sfBits = (f.putWords s words).sfBits) (hwords : g.sfWords = f.sfWords) :
    g.cell = update f.cell s (if e.numSharers = 0 then none else some (e.tag, ⟨e.numSharers, e.exclusive, e.mem,
      fun c => decide (c < 64 * f.sfWords) && (words (c / 64)).getLsbD (c % 64)⟩)) := by
  funext t
  unfold cell holding
  rw [htab, sharer_put words hbits hwords]
  by_cases hts : t = s
  · subst hts
    simp only [update_self, if_true]
  · simp only [update_of_ne hts, if_neg hts]

theorem cell_moveSlot (i j : Nat) : (f.moveSlot i j).cell = update f.cell i (f.cell j) :=
  cell_put (f := f) (f.sfTab j) (fun w => f.sfBits (j * f.sfWords + w)) rfl rfl rfl

/-- A child is set or cleared. -/
def mark (f : SnoopFilter) (s : Nat) (p : Nat × Bool) : SnoopFilter := if p.2 then f.sfSet s p.1 else f.sfClr s p.1

theorem mark_same (p : Nat × Bool) :
    (f.mark s p).sfTab = f.sfTab ∧ (f.mark s p).sfWords = f.sfWords ∧ (f.mark s p).sfCap = f.sfCap ∧
      (f.mark s p).sfUsed = f.sfUsed := by
  unfold mark
  split <;> exact ⟨rfl, rfl, rfl, rfl⟩

theorem sharer_mark {p : Nat × Bool} (hp : p.1 < 64 * f.sfWords) :
    (f.mark s p).sharer t = if t = s then update (f.sharer s) p.1 p.2 else f.sharer t := by
  funext c
  unfold sharer
  rw [(mark_same p).2.1]
  by_cases hc : c < 64 * f.sfWords
  · have hhas : (f.mark s p).sfHas t c = if t = s ∧ c = p.1 then p.2 else f.sfHas t c := by
      unfold mark
      split
      · next hb => rw [sfSet_sfHas hp hc, hb]
      · next hb => rw [sfClr_sfHas hp hc, Bool.eq_false_iff.mpr hb]
    rw [decide_eq_true hc, Bool.true_and, hhas]
    by_cases hts : t = s
    · subst hts
      by_cases hcp : c = p.1
      · subst hcp
        rw [if_pos ⟨rfl, rfl⟩, if_pos rfl, update_self]
      · rw [if_neg fun h => hcp h.2, if_pos rfl, update_of_ne hcp, decide_eq_true hc, Bool.true_and]
    · rw [if_neg fun h => hts h.1, if_neg hts, decide_eq_true hc, Bool.true_and]
  · rw [decide_eq_false hc, Bool.false_and]
    by_cases hts : t = s
    · have hcp : c ≠ p.1 := fun h => hc (h ▸ hp)
      rw [if_pos hts, update_of_ne hcp, decide_eq_false hc, Bool.false_and]
    · rw [if_neg hts, decide_eq_false hc, Bool.false_and]

theorem marks_same (l : List (Nat × Bool)) :
    (l.foldl (fun f p => f.mark s p) f).sfTab = f.sfTab ∧ (l.foldl (fun f p => f.mark s p) f).sfWords = f.sfWords ∧
      (l.foldl (fun f p => f.mark s p) f).sfCap = f.sfCap ∧ (l.foldl (fun f p => f.mark s p) f).sfUsed = f.sfUsed := by
  induction l generalizing f with
  | nil => exact ⟨rfl, rfl, rfl, rfl⟩
  | cons p l ih =>
    obtain ⟨h₁, h₂, h₃, h₄⟩ := ih (f := f.mark s p)
    obtain ⟨m₁, m₂, m₃, m₄⟩ := mark_same (f := f) (s := s) p
    exact ⟨h₁.trans m₁, h₂.trans m₂, h₃.trans m₃, h₄.trans m₄⟩

theorem sharer_marks {l : List (Nat × Bool)} (hl : ∀ p ∈ l, p.1 < 64 * f.sfWords) :
    (l.foldl (fun f p => f.mark s p) f).sharer t =
      if t = s then l.foldl (fun g p => update g p.1 p.2) (f.sharer s) else f.sharer t := by
  induction l generalizing f with
  | nil =>
    by_cases hts : t = s
    · rw [if_pos hts, hts]
      rfl
    · rw [if_neg hts]
      rfl
  | cons p l ih =>
    have hp := hl p List.mem_cons_self
    have hrest : ∀ q ∈ l, q.1 < 64 * (f.mark s p).sfWords := by
      intro q hq
      rw [(mark_same p).2.1]
      exact hl q (List.mem_cons_of_mem p hq)
    have hself : (f.mark s p).sharer s = update (f.sharer s) p.1 p.2 := by
      rw [sharer_mark hp, if_pos rfl]
    have htail := ih hrest
    rw [hself] at htail
    refine htail.trans ?_
    by_cases hts : t = s
    · rw [if_pos hts, if_pos hts]
      rfl
    · rw [if_neg hts, if_neg hts, sharer_mark hp, if_neg hts]

theorem write_same (w : Writes) : (f.write s w).sfWords = f.sfWords ∧ (f.write s w).sfCap = f.sfCap ∧
    (f.write s w).sfUsed = f.sfUsed := by
  obtain ⟨-, h₂, h₃, h₄⟩ := marks_same (s := s) (f := f.putEntry s
    { tag := (f.sfTab s).tag, numSharers := w.numSharers, exclusive := w.exclusive, mem := w.mem }) w.bits
  exact ⟨h₂, h₃, h₄⟩

theorem cell_write {w : Writes} (hw : w.inside f.sfWords = true) :
    (f.write s w).cell = update f.cell s
      (if w.numSharers = 0 then none else some ((f.sfTab s).tag, (f.holding s).write w)) := by
  have hl : ∀ p ∈ w.bits, p.1 < 64 * f.sfWords := by
    intro p hp
    exact of_decide_eq_true (List.all_eq_true.mp hw p hp)
  generalize hg : f.putEntry s
    { tag := (f.sfTab s).tag, numSharers := w.numSharers, exclusive := w.exclusive, mem := w.mem } = g
  have hgtab : g.sfTab = update f.sfTab s
      { tag := (f.sfTab s).tag, numSharers := w.numSharers, exclusive := w.exclusive, mem := w.mem } := by
    rw [← hg]
    rfl
  have hgsharer : ∀ t, g.sharer t = f.sharer t := by
    intro t
    rw [← hg]
    rfl
  have hl' : ∀ p ∈ w.bits, p.1 < 64 * g.sfWords := by
    rw [← hg]
    exact hl
  have hwrite : f.write s w = w.bits.foldl (fun f p => f.mark s p) g := by
    rw [← hg]
    rfl
  rw [hwrite]
  funext t
  unfold cell holding
  rw [(marks_same w.bits).1, sharer_marks hl', hgtab, hgsharer, hgsharer]
  by_cases hts : t = s
  · subst hts
    simp only [update_self, if_true]
    rfl
  · simp only [update_of_ne hts, if_neg hts]

/-! ## The loops -/

/-- The table is a table of linear probing, and it knows how many slots are taken. -/
structure Table (H : Hash) (f : SnoopFilter) : Prop where
  pow : ∃ k, f.sfCap = 2 ^ k
  probed : Probed f.sfCap (H.home f.sfCap) f.cell
  used : f.sfUsed = (occupied f.sfCap f.cell).card

variable {a : Nat}

theorem nextSlot_pow (h : ∃ k, f.sfCap = 2 ^ k) (s : Nat) : f.nextSlot s = Pimid.nextSlot f.sfCap s := by
  obtain ⟨k, hk⟩ := h
  unfold nextSlot Pimid.nextSlot
  rw [hk, Nat.and_two_pow_sub_one_eq_mod]

theorem freeFrom_eq (h : ∃ k, f.sfCap = 2 ^ k) (fuel s : Nat) :
    f.freeFrom fuel s = probe f.sfCap (fun s => decide ((f.sfTab s).numSharers = 0)) fuel s := by
  induction fuel generalizing s with
  | zero => rfl
  | succ fuel ih =>
    unfold freeFrom probe
    rw [nextSlot_pow h, ih]
    simp only [decide_eq_true_eq]

theorem findFrom_eq (h : ∃ k, f.sfCap = 2 ^ k) (fuel s : Nat) : f.findFrom a fuel s =
    (probe f.sfCap (fun s => decide ((f.sfTab s).numSharers = 0 ∨ (f.sfTab s).tag = a)) fuel s).map
      fun t => if (f.sfTab t).numSharers = 0 then none else some t := by
  induction fuel generalizing s with
  | zero => rfl
  | succ fuel ih =>
    unfold findFrom probe
    rw [nextSlot_pow h, ih]
    by_cases hn : (f.sfTab s).numSharers = 0
    · simp [hn]
    · by_cases ht : (f.sfTab s).tag = a
      · simp [hn, ht]
      · simp [hn, ht]

/-- With a slot free the loop gets to the first one. -/
theorem freeFrom_spec (h : Table H f) (hroom : f.sfUsed < f.sfCap) (hs : s < f.sfCap) :
    ∃ t < f.sfCap, f.freeFrom f.sfCap s = some t ∧ f.cell t = none ∧
      ∀ p < f.sfCap, rel f.sfCap s p < rel f.sfCap s t → f.cell p ≠ none := by
  obtain ⟨e, he, hfree⟩ := exists_free (h.used ▸ hroom)
  obtain ⟨t, ht, hprobe, hstop, hfirst⟩ := @probe_spec _ _ _
    (fun s => decide ((f.sfTab s).numSharers = 0)) hs he (decide_eq_true (cell_none.mp hfree)) _ (rel_lt s e (by omega))
  refine ⟨t, ht, (freeFrom_eq h.pow _ _).trans hprobe, cell_none.mpr (of_decide_eq_true hstop), fun p hp hlt hnone => ?_⟩
  exact of_decide_eq_false (hfirst p hp hlt) (cell_none.mp hnone)

/-- With a slot free a line is found in its slot, or it is in none. -/
theorem sfFind_spec (h : Table H f) (hroom : f.sfUsed < f.sfCap) (a : Nat) :
    ∃ r, f.sfFind H a = some r ∧ (r = none → ∀ v, ¬ Stored f.sfCap f.cell a v) ∧
      ∀ s, r = some s → s < f.sfCap ∧ f.cell s = some (a, f.holding s) := by
  obtain ⟨e, he, hfree⟩ := exists_free (h.used ▸ hroom)
  obtain ⟨t, ht, hprobe, hstop, hfirst⟩ :=
    @probe_spec _ _ _ (fun s => decide ((f.sfTab s).numSharers = 0 ∨ (f.sfTab s).tag = a)) (h.probed.home_lt a) he
    (decide_eq_true (Or.inl (cell_none.mp hfree))) _ (rel_lt _ e (by omega))
  refine ⟨_, (findFrom_eq h.pow _ _).trans (by rw [hprobe]; rfl), fun hnone v => ?_, fun s hs => ?_⟩
  · have htfree : f.cell t = none := by
      dsimp only at hnone
      split at hnone
      · next hz => exact cell_none.mpr hz
      · cases hnone
    refine h.probed.absent ht htfree (fun p hp hlt w hp' => ?_) v
    have hno := of_decide_eq_false (hfirst p hp hlt)
    have hne : (f.sfTab p).numSharers ≠ 0 := fun hz => hno (Or.inl hz)
    rw [cell_some hne] at hp'
    exact hno (Or.inr (Prod.mk.inj (Option.some.inj hp')).1)
  · dsimp only at hs
    split at hs
    · cases hs
    · next hz =>
      obtain rfl := Option.some.inj hs
      have htag := (of_decide_eq_true hstop).resolve_left hz
      exact ⟨ht, by rw [cell_some hz, htag]⟩

/-! ## Growing -/

theorem Table.put (h : Table H f) {v : Holding} (ht : t < f.sfCap) (hfree : f.cell t = none)
    (hfirst : ∀ p < f.sfCap, rel f.sfCap (H.home f.sfCap a) p < rel f.sfCap (H.home f.sfCap a) t → f.cell p ≠ none)
    (habs : ∀ v, ¬ Stored f.sfCap f.cell a v) (hcap : g.sfCap = f.sfCap)
    (hcell : g.cell = update f.cell t (some (a, v))) (hused : g.sfUsed = f.sfUsed + 1) : Table H g := by
  refine ⟨hcap ▸ h.pow, ?_, ?_⟩
  · rw [hcap, hcell]
    exact h.probed.insert ht hfree hfirst habs
  · rw [hcap, hcell, occupied_insert ht, Finset.card_insert_of_notMem (fun hm => (mem_occupied.mp hm).2 hfree), hused, h.used]

theorem rehome_free {old : SnoopFilter} (hold : old.cell s = none) : f.rehome H old s = some f := if_pos (cell_none.mp hold)

theorem rehome_taken {old : SnoopFilter} {v : Holding} (h : Table H f) (hroom : f.sfUsed < f.sfCap)
    (hwords : f.sfWords = old.sfWords) (hold : old.cell s = some (a, v)) (habs : ∀ v, ¬ Stored f.sfCap f.cell a v) :
    ∃ g, f.rehome H old s = some g ∧ Table H g ∧ g.sfCap = f.sfCap ∧ g.sfWords = f.sfWords ∧ g.sfUsed = f.sfUsed + 1 ∧
      ∀ b w, Stored f.sfCap g.cell b w ↔ if b = a then w = v else Stored f.sfCap f.cell b w := by
  have hne : (old.sfTab s).numSharers ≠ 0 := fun hz => by
    rw [cell_none.mpr hz] at hold
    cases hold
  have hentry := cell_some hne
  rw [hold] at hentry
  obtain ⟨rfl, rfl⟩ := Prod.mk.inj (Option.some.inj hentry)
  obtain ⟨t, ht, hto, hfree, hfirst⟩ := freeFrom_spec h hroom (h.probed.home_lt (old.sfTab s).tag)
  have hre : f.rehome H old s = some { (f.putEntry t (old.sfTab s)).putWords t fun w => old.sfBits (s * old.sfWords + w) with
                                       sfUsed := f.sfUsed + 1 } := by
    unfold rehome
    rw [if_neg hne, hto]
    rfl
  refine ⟨_, hre, ?_⟩
  generalize hg : ({ (f.putEntry t (old.sfTab s)).putWords t fun w => old.sfBits (s * old.sfWords + w) with
                     sfUsed := f.sfUsed + 1 } : SnoopFilter) = g
  have hcell : g.cell = update f.cell t (some ((old.sfTab s).tag, old.holding s)) := by
    rw [cell_put (f := f) (g := g) (s := t) (old.sfTab s) (fun w => old.sfBits (s * old.sfWords + w))
      (by rw [← hg]; rfl) (by rw [← hg]; rfl) (by rw [← hg]; rfl), if_neg hne, hwords]
    rfl
  have hcap : g.sfCap = f.sfCap := by rw [← hg]; rfl
  have hused : g.sfUsed = f.sfUsed + 1 := by rw [← hg]
  refine ⟨h.put ht hfree hfirst habs hcap hcell hused, hcap, by rw [← hg]; rfl, hused, fun b w => ?_⟩
  rw [hcell]
  exact stored_insert ht hfree habs

theorem calloc_cell (words cap : Nat) : (calloc words cap).cell = fun _ => none := by
  funext s
  exact cell_none.mpr rfl

theorem calloc_table (words : Nat) {cap : Nat} (hcap : ∃ k, cap = 2 ^ k) : Table H (calloc words cap) := by
  refine ⟨hcap, ?_, ?_⟩
  · rw [calloc_cell]
    refine ⟨fun a => ?_, (fun _ hc => nomatch hc), (fun _ _ hc => nomatch hc)⟩
    obtain ⟨k, rfl⟩ := hcap
    exact H.lt k a
  · rw [calloc_cell]
    unfold occupied
    simp [calloc]

/-- A larger table has every entry of the old one. -/
theorem sfAlloc_spec (h : Table H f) {cap : Nat} (hcap : ∃ k, cap = 2 ^ k) (hlt : f.sfCap < cap) :
    ∃ g, f.sfAlloc H cap = some g ∧ Table H g ∧ g.sfCap = cap ∧ g.sfWords = f.sfWords ∧ g.sfUsed = f.sfUsed ∧
      ∀ a v, Stored cap g.cell a v ↔ Stored f.sfCap f.cell a v := by
  have hfold : ∀ m, m ≤ f.sfCap → ∃ g, (List.range m).foldlM (fun g s => g.rehome H f s) (calloc f.sfWords cap) = some g ∧
      Table H g ∧ g.sfCap = cap ∧ g.sfWords = f.sfWords ∧ g.sfUsed = (occupied m f.cell).card ∧
      ∀ a v, Stored cap g.cell a v ↔ Stored m f.cell a v := by
    intro m hm
    induction m with
    | zero =>
      refine ⟨_, rfl, calloc_table _ hcap, rfl, rfl, rfl, fun a v => ?_⟩
      rw [calloc_cell]
      exact ⟨(fun ⟨_, _, hc⟩ => nomatch hc), (fun ⟨s, hs, _⟩ => absurd hs (Nat.not_lt_zero s))⟩
    | succ m ih =>
      obtain ⟨g, hg, htab, hgcap, hgwords, hgused, hstored⟩ := ih (by omega)
      rw [List.range_succ, List.foldlM_append, hg]
      have hocc : occupied (m + 1) f.cell = if (f.cell m).isSome then insert m (occupied m f.cell) else occupied m f.cell := by
        unfold occupied
        rw [Finset.range_add_one, Finset.filter_insert]
      have hnot : m ∉ occupied m f.cell := fun hin => Nat.lt_irrefl m (mem_occupied.mp hin).1
      rcases hc : f.cell m with _ | ⟨a, v⟩
      · refine ⟨g, (by simp only [Option.bind_eq_bind, Option.bind_some, List.foldlM_cons, List.foldlM_nil, rehome_free hc]; rfl),
          htab, hgcap, hgwords, ?_, fun b w => ?_⟩
        · rw [hgused, hocc, hc]
          rfl
        · rw [hstored]
          constructor
          · intro ⟨s, hs, hsc⟩
            exact ⟨s, by omega, hsc⟩
          · intro ⟨s, hs, hsc⟩
            have hsm : s ≠ m := fun he => by
              rw [he, hc] at hsc
              cases hsc
            exact ⟨s, by omega, hsc⟩
      · have habs : ∀ w, ¬ Stored g.sfCap g.cell a w := by
          intro w hw
          rw [hgcap] at hw
          obtain ⟨s, hs, hsc⟩ := (hstored a w).mp hw
          exact absurd (h.probed.one (by omega) (by omega) hsc hc) (by omega)
        have hcard : (occupied m f.cell).card ≤ m := by
          have := Finset.card_filter_le (Finset.range m) fun s => (f.cell s).isSome
          rw [Finset.card_range] at this
          exact this
        obtain ⟨g', hg', htab', hcap', hwords', hused', hstored'⟩ := rehome_taken htab (by omega) hgwords hc habs
        refine ⟨g', (by simp only [Option.bind_eq_bind, Option.bind_some, List.foldlM_cons, List.foldlM_nil, hg']; rfl),
          htab', hcap'.trans hgcap, hwords'.trans hgwords, ?_, fun b w => ?_⟩
        · rw [hused', hgused, hocc, hc, if_pos Option.isSome_some, Finset.card_insert_of_notMem hnot]
        · rw [← hgcap, hstored', hgcap]
          constructor
          · intro hb
            split at hb
            · next he => exact ⟨m, by omega, by rw [hc, he, hb]⟩
            · obtain ⟨s, hs, hsc⟩ := (hstored b w).mp hb
              exact ⟨s, by omega, hsc⟩
          · intro ⟨s, hs, hsc⟩
            by_cases hsm : s = m
            · rw [hsm, hc] at hsc
              cases hsc
              rw [if_pos rfl]
            · have hba : b ≠ a := by
                intro he
                subst he
                exact hsm (h.probed.one (by omega) (by omega) hsc hc)
              rw [if_neg hba]
              exact (hstored b w).mpr ⟨s, by omega, hsc⟩
  obtain ⟨g, hg, htab, hgcap, hgwords, hgused, hstored⟩ := hfold f.sfCap (Nat.le_refl _)
  exact ⟨g, hg, htab, hgcap, hgwords, hgused.trans h.used.symm, hstored⟩

/-! ## Erasing -/

/-- The home lies after the hole and not after the slot, going round. -/
theorem stays_iff {n i j k : Nat} (hi : i < n) (hj : j < n) (hk : k < n) :
    stays i j k = true ↔ 0 < rel n i k ∧ rel n i k ≤ rel n i j := by
  unfold stays
  rw [rel_eq hi hk, rel_eq hi hj]
  split_ifs <;> simp only [Bool.and_eq_true, Bool.or_eq_true, decide_eq_true_eq] <;> omega

/-- What is stored off a hole, and in how many slots. -/
structure SameBut (f : SnoopFilter) (i : Nat) (g : SnoopFilter) (j : Nat) : Prop where
  cap : g.sfCap = f.sfCap
  words : g.sfWords = f.sfWords
  used : g.sfUsed = f.sfUsed
  stored : ∀ a v, Stored f.sfCap (update g.cell j none) a v ↔ Stored f.sfCap (update f.cell i none) a v
  card : (occupied f.sfCap (update g.cell j none)).card = (occupied f.sfCap (update f.cell i none)).card

theorem SameBut.refl (f : SnoopFilter) (i : Nat) : SameBut f i f i := ⟨rfl, rfl, rfl, fun _ _ => Iff.rfl, rfl⟩

theorem SameBut.trans {f' : SnoopFilter} {i j k : Nat} (h : SameBut f i g j) (h' : SameBut g j f' k) : SameBut f i f' k := by
  obtain ⟨hcap, hwords, hused, hstored, hcard⟩ := h'
  rw [h.cap] at hstored hcard
  exact ⟨hcap.trans h.cap, hwords.trans h.words, hused.trans h.used, fun a v => (hstored a v).trans (h.stored a v),
    hcard.trans h.card⟩

/-- The loop ends at the first free slot after the hole, with a hole that no key's way leads over. -/
theorem shiftBack_spec {e : Nat} (hpow : ∃ k, f.sfCap = 2 ^ k) (fuel i j : Nat) (hi : i < f.sfCap) (hj : j < f.sfCap)
    (he : e < f.sfCap) (hfree : f.cell e = none) (hholed : Holed f.sfCap (H.home f.sfCap) (update f.cell i none) i j)
    (hbefore : rel f.sfCap i j < rel f.sfCap i e) (hfuel : rel f.sfCap j e ≤ fuel) :
    ∃ i' g, shiftBack H fuel f i j = some (i', g) ∧ i' < f.sfCap ∧ SameBut f i g i' ∧
      Probed f.sfCap (H.home f.sfCap) (update g.cell i' none) := by
  induction fuel generalizing f i j with
  | zero =>
    have hje : e = j := (rel_eq_zero hj he).mp (Nat.le_zero.mp hfuel)
    rw [hje] at hbefore
    exact absurd hbefore (Nat.lt_irrefl _)
  | succ fuel ih =>
    have hne := nextSlot_ne hi hj he hbefore
    have hje : j ≠ e := fun heq => by
      rw [heq] at hbefore
      exact Nat.lt_irrefl _ hbefore
    have hq := nextSlot_lt hj
    have hnear := nextSlot_rel hj he hje
    have hrel := rel_nextSlot hi hj hne
    unfold shiftBack
    dsimp only
    rw [nextSlot_pow hpow]
    by_cases hend : (f.sfTab (Pimid.nextSlot f.sfCap j)).numSharers = 0
    · rw [if_pos hend]
      refine ⟨i, f, rfl, hi, SameBut.refl f i, hholed.stop hi hj hne ?_⟩
      rw [update_of_ne hne]
      exact cell_none.mpr hend
    · rw [if_neg hend]
      have hcell := cell_some hend
      have hqe : Pimid.nextSlot f.sfCap j ≠ e := fun heq => hend (cell_none.mp (heq ▸ hfree))
      have hcell' : update f.cell i none (Pimid.nextSlot f.sfCap j) = some _ :=
        (update_of_ne hne _ _).trans hcell
      by_cases hstay : stays i (Pimid.nextSlot f.sfCap j) (H.home f.sfCap (f.sfTab (Pimid.nextSlot f.sfCap j)).tag) = true
      · rw [if_pos hstay]
        obtain ⟨hpos, hle⟩ := (stays_iff hi hq (hholed.home_lt _)).mp hstay
        refine ih hpow i _ hi hq he hfree (hholed.stay hi hj hne hcell' hpos hle) ?_ (by omega)
        exact Nat.lt_of_le_of_ne (by omega) fun heq => hqe (rel_inj hi hq he heq)
      · rw [if_neg hstay]
        have hmoved := hholed.move hi hj hne hcell' fun hs => hstay ((stays_iff hi hq (hholed.home_lt _)).mpr hs)
        have hmove := cell_moveSlot (f := f) i (Pimid.nextSlot f.sfCap j)
        have hhole : update f.cell i none i = none := update_self _ _ _
        have hstored (a : Nat) (v : Holding) := stored_move hi hq hhole hcell' hne a v
        have hcard := occupied_move hi hq hhole hcell'
        rw [update_idem, ← hcell, ← hmove] at hmoved hcard
        simp only [update_idem] at hstored
        rw [← hcell, ← hmove] at hstored
        generalize Pimid.nextSlot f.sfCap j = q at *
        have hei : e ≠ i := fun heq => by
          rw [heq, rel_self hi] at hbefore
          exact Nat.not_lt_zero _ hbefore
        have hfree' : (f.moveSlot i q).cell e = none := by
          rw [hmove, update_of_ne hei]
          exact hfree
        have hbefore' : rel f.sfCap q q < rel f.sfCap q e := by
          rw [rel_self hq]
          exact Nat.pos_of_ne_zero fun hz => hqe ((rel_eq_zero hq he).mp hz).symm
        obtain ⟨i', g, hg, hi', hsame, hprobed⟩ := ih (f := f.moveSlot i q) hpow q q hq hq he hfree' hmoved hbefore'
          (show rel f.sfCap q e ≤ fuel by omega)
        have hmid : SameBut f i (f.moveSlot i q) q := ⟨rfl, rfl, rfl, hstored, hcard⟩
        exact ⟨i', g, hg, hi', hmid.trans hsame, hprobed⟩

/-- The line of a slot is erased, whatever was last written there. -/
theorem sfErase_spec (h : Table H f) (hroom : f.sfUsed < f.sfCap) (hs : s < f.sfCap) {v : Holding}
    (hc : f.cell s = some (a, v)) {x : Option (Nat × Holding)} (hcell : g.cell = update f.cell s x)
    (hcap : g.sfCap = f.sfCap) (hused : g.sfUsed = f.sfUsed) :
    ∃ g', g.sfErase H s = some g' ∧ Table H g' ∧ g'.sfCap = f.sfCap ∧ g'.sfWords = g.sfWords ∧ g'.sfUsed + 1 = f.sfUsed ∧
      ∀ b w, Stored f.sfCap g'.cell b w ↔ b ≠ a ∧ Stored f.sfCap f.cell b w := by
  obtain ⟨e, he, hfree⟩ := exists_free (h.used ▸ hroom)
  have hes : e ≠ s := fun heq => by
    rw [heq, hc] at hfree
    cases hfree
  have hoff : update g.cell s none = update f.cell s none := by rw [hcell, update_idem]
  have hfree' : g.cell e = none := by
    rw [hcell, update_of_ne hes]
    exact hfree
  have hholed := h.probed.punch hs
  have hbefore : rel g.sfCap s s < rel g.sfCap s e := by
    rw [hcap, rel_self hs]
    exact Nat.pos_of_ne_zero fun hz => hes ((rel_eq_zero hs he).mp hz)
  rw [← hoff, ← hcap] at hholed
  rw [← hcap] at hs he
  obtain ⟨i, g', hshift, hi, hsame, hprobed⟩ := shiftBack_spec (hcap ▸ h.pow) g.sfCap s s hs hs he hfree' hholed hbefore
    (rel_lt s e (by omega)).le
  have herase : g.sfErase H s = some { (g'.putEntry i { g'.sfTab i with numSharers := 0, tag := 0 }).putWords i fun _ => 0 with
                                       sfUsed := g'.sfUsed - 1 } := by
    unfold sfErase
    rw [hshift]
    rfl
  refine ⟨_, herase, ?_⟩
  generalize hg'' : ({ (g'.putEntry i { g'.sfTab i with numSharers := 0, tag := 0 }).putWords i fun _ => 0 with
                       sfUsed := g'.sfUsed - 1 } : SnoopFilter) = g''
  have hcell'' : g''.cell = update g'.cell i none :=
    cell_put (f := g') { g'.sfTab i with numSharers := 0, tag := 0 } (fun _ => 0) (by rw [← hg'']; rfl) (by rw [← hg'']; rfl)
      (by rw [← hg'']; rfl)
  have hcap'' : g''.sfCap = f.sfCap := by
    rw [← hg'']
    exact hsame.cap.trans hcap
  have hused'' : g''.sfUsed = f.sfUsed - 1 := by
    rw [← hg'', ← hused, ← hsame.used]
  have hin : s ∈ occupied f.sfCap f.cell := mem_occupied.mpr ⟨hcap ▸ hs, by rw [hc]; exact Option.some_ne_none _⟩
  have hpos := Finset.card_pos.mpr ⟨s, hin⟩
  have hstored := hsame.stored
  have hcard := hsame.card
  rw [hcap, hoff, ← hcell''] at hstored hcard
  refine ⟨⟨hcap'' ▸ h.pow, ?_, ?_⟩, hcap'', by rw [← hg'']; exact hsame.words, by rw [hused'', h.used]; omega, fun b w => ?_⟩
  · rw [hcap'', hcell'', ← hcap]
    exact hprobed
  · rw [hcap'', hcard, occupied_erase, Finset.card_erase_of_mem hin, hused'', h.used]
  · rw [hstored]
    exact stored_erase h.probed (hcap ▸ hs) hc

/-! ## The calls -/

/-- A call: an addition is followed by the first sharer being set, and an erasure may follow last writes at the slot. -/
inductive Call where
  | find (a : Nat)
  | add (a : Nat) (mem : MESIState) (w : Writes)
  | update (a : Nat) (w : Writes)
  | erase (a : Nat) (w : Writes)

/-- The call on the table. The slots are those that `sfFind` and `sfAdd` return. -/
def call (H : Hash) (f : SnoopFilter) : Call → Option SnoopFilter
  | .find a => (f.sfFind H a).map fun _ => f
  | .add a mem w => (f.sfAdd H a mem).map fun r => r.2.write r.1 w
  | .update a w => (f.sfFind H a).map fun
    | some s => f.write s w
    | none => f
  | .erase a w => (f.sfFind H a).bind fun
    | some s => (f.write s w).sfErase H s
    | none => some f

/-- Nothing is held by a line just added. -/
def fresh (mem : MESIState) : Holding := ⟨0, false, mem, fun _ => false⟩

/-- The call on what is held. -/
def held (m : Nat → Option Holding) : Call → Nat → Option Holding
  | .find _ => m
  | .add a mem w => update m a (some ((fresh mem).write w))
  | .update a w => update m a ((m a).map fun h => h.write w)
  | .erase a _ => update m a none

/-- A line added is absent, and one updated or erased is there. -/
def Call.allowed (m : Nat → Option Holding) (words : Nat) : Call → Bool
  | .find _ => true
  | .add a _ w => (m a).isNone && decide (0 < w.numSharers) && w.inside words
  | .update a w => (m a).isSome && decide (0 < w.numSharers) && w.inside words
  | .erase a w => (m a).isSome && w.inside words

/-- The table, and beside it what was last stored for each line. -/
def calls (H : Hash) (words cap : Nat) : Machine (SnoopFilter × (Nat → Option Holding)) Call Empty where
  init := (calloc words cap, fun _ => none)
  step x c := if c.allowed x.2 x.1.sfWords = true then (x.1.call H c).map fun f => ((f, held x.2 c), []) else none

/-- The table has what was last stored for each line. -/
structure Good (H : Hash) (f : SnoopFilter) (m : Nat → Option Holding) : Prop extends Table H f where
  load : 4 * f.sfUsed ≤ 3 * f.sfCap
  size : 4 ≤ f.sfCap
  holds : ∀ a v, Stored f.sfCap f.cell a v ↔ m a = some v

theorem good_calloc {words cap : Nat} (hcap : ∃ k, cap = 2 ^ k) (h4 : 4 ≤ cap) : Good H (calloc words cap) fun _ => none := by
  refine ⟨calloc_table words hcap, by simp [calloc], h4, fun a v => ?_⟩
  rw [calloc_cell]
  exact ⟨(fun ⟨_, _, hc⟩ => nomatch hc), (fun hc => nomatch hc)⟩

variable {m : Nat → Option Holding}

theorem Good.room (h : Good H f m) : f.sfUsed < f.sfCap := by
  have := h.load
  have := h.size
  omega

theorem Good.find (h : Good H f m) (a : Nat) : ∃ r, f.sfFind H a = some r ∧ (r = none ↔ m a = none) ∧
    ∀ s, r = some s → s < f.sfCap ∧ f.cell s = some (a, f.holding s) ∧ m a = some (f.holding s) := by
  obtain ⟨r, hr, hnone, hsome⟩ := sfFind_spec h.toTable h.room a
  have hheld (s : Nat) (hs : r = some s) : m a = some (f.holding s) := by
    obtain ⟨hlt, hc⟩ := hsome s hs
    exact (h.holds a _).mp ⟨s, hlt, hc⟩
  refine ⟨r, hr, ⟨fun hn => ?_, fun hm => ?_⟩, fun s hs => ⟨(hsome s hs).1, (hsome s hs).2, hheld s hs⟩⟩
  · rcases hm : m a with _ | v
    · rfl
    · exact absurd ((h.holds a v).mpr hm) (hnone hn v)
  · rcases hs : r with _ | s
    · rfl
    · rw [hheld s hs] at hm
      cases hm

theorem Good.found (h : Good H f m) {a : Nat} (ha : (m a).isSome = true) : ∃ s < f.sfCap, f.sfFind H a = some (some s) ∧
    f.cell s = some (a, f.holding s) ∧ m a = some (f.holding s) := by
  obtain ⟨r, hr, hnone, hsome⟩ := h.find a
  rcases r with _ | s
  · rw [hnone.mp rfl] at ha
    cases ha
  · obtain ⟨hlt, hc, hm⟩ := hsome s rfl
    exact ⟨s, hlt, hr, hc, hm⟩

/-- There is room for one more in the table, or in one twice as large. -/
theorem Good.grown (h : Good H f m) : ∃ g, f.grown H = some g ∧ Table H g ∧ f.sfCap ≤ g.sfCap ∧ g.sfWords = f.sfWords ∧
    4 * (g.sfUsed + 1) ≤ 3 * g.sfCap ∧ ∀ a v, Stored g.sfCap g.cell a v ↔ m a = some v := by
  have hload := h.load
  have hsize := h.size
  unfold SnoopFilter.grown
  by_cases hfull : 4 * (f.sfUsed + 1) > 3 * f.sfCap
  · rw [if_pos hfull]
    have hpow : ∃ k, 2 * f.sfCap = 2 ^ k := by
      obtain ⟨k, hk⟩ := h.pow
      exact ⟨k + 1, by rw [hk, Nat.pow_succ, Nat.mul_comm]⟩
    obtain ⟨g, hg, htab, hcap, hwords, hused, hstored⟩ := sfAlloc_spec h.toTable hpow (by omega)
    refine ⟨g, hg, htab, by omega, hwords, by omega, fun a v => ?_⟩
    rw [hcap, hstored]
    exact h.holds a v
  · rw [if_neg hfull]
    exact ⟨f, rfl, h.toTable, Nat.le_refl _, rfl, by omega, h.holds⟩

theorem write_taken (hc : f.cell s = some (a, f.holding s)) {w : Writes} (hw : w.inside f.sfWords = true) :
    (f.write s w).cell = update f.cell s
      (if w.numSharers = 0 then none else some (a, (f.holding s).write w)) := by
  have hne : (f.sfTab s).numSharers ≠ 0 := fun hz => by
    rw [cell_none.mpr hz] at hc
    cases hc
  rw [cell_some hne] at hc
  rw [cell_write hw, (Prod.mk.inj (Option.some.inj hc)).1]

theorem Good.add (h : Good H f m) {a : Nat} (ha : m a = none) (mem : MESIState) {w : Writes} (hpos : 0 < w.numSharers)
    (hw : w.inside f.sfWords = true) : ∃ g, f.call H (.add a mem w) = some g ∧ g.sfWords = f.sfWords ∧
      Good H g (update m a (some ((fresh mem).write w))) := by
  obtain ⟨f₁, hgrown, htab, hcap, hwords, hload, hholds⟩ := h.grown
  have hsize := h.size
  obtain ⟨t, ht, hto, hfree, hfirst⟩ := freeFrom_spec htab (by omega) (htab.probed.home_lt a)
  have habs : ∀ v, ¬ Stored f₁.sfCap f₁.cell a v := by
    intro v hv
    rw [(hholds a v).mp hv] at ha
    cases ha
  generalize hf₂ : ({ (f₁.putEntry t { tag := a, mem }).putWords t fun _ => 0 with sfUsed := f₁.sfUsed + 1 } : SnoopFilter) =
    f₂
  have hadd : f.call H (.add a mem w) = some (f₂.write t w) := by
    unfold SnoopFilter.call sfAdd
    rw [hgrown, ← hf₂]
    dsimp only [Option.bind_eq_bind, Option.bind_some]
    rw [hto]
    rfl
  have hbits : f₂.sfBits = (f₁.putWords t fun _ => 0).sfBits := by
    rw [← hf₂]
    rfl
  have hwords₂ : f₂.sfWords = f₁.sfWords := by
    rw [← hf₂]
    rfl
  have htab₂ : f₂.sfTab = update f₁.sfTab t { tag := a, mem } := by
    rw [← hf₂]
    rfl
  have hcell₂ : f₂.cell = f₁.cell := by
    rw [cell_put { tag := a, mem } (fun _ => 0) htab₂ hbits hwords₂, if_pos rfl, ← hfree, update_eq_self]
  have hheld : f₂.holding t = fresh mem := by
    unfold holding fresh
    rw [sharer_put (t := t) (fun _ => 0) hbits hwords₂, if_pos rfl, htab₂, update_self]
    simp
  obtain ⟨hwords₃, hcap₃, hused₃⟩ := write_same (f := f₂) (s := t) w
  have hcell₃ : (f₂.write t w).cell = update f₁.cell t (some (a, (fresh mem).write w)) := by
    rw [cell_write (by rw [hwords₂, hwords]; exact hw), hcell₂, hheld, if_neg (by omega), htab₂, update_self]
  have hcap₄ : (f₂.write t w).sfCap = f₁.sfCap := by
    rw [hcap₃, ← hf₂]
    rfl
  have hused₄ : (f₂.write t w).sfUsed = f₁.sfUsed + 1 := by rw [hused₃, ← hf₂]
  refine ⟨_, hadd, by rw [hwords₃, hwords₂, hwords], htab.put ht hfree hfirst habs hcap₄ hcell₃ hused₄, by omega, by omega,
    fun b v => ?_⟩
  rw [hcap₄, hcell₃, stored_insert ht hfree habs]
  by_cases hb : b = a
  · rw [if_pos hb, hb, update_self]
    exact ⟨fun he => congrArg some he.symm, fun he => (Option.some.inj he).symm⟩
  · rw [if_neg hb, update_of_ne hb]
    exact hholds b v

theorem Good.update (h : Good H f m) {a : Nat} (ha : (m a).isSome = true) {w : Writes} (hpos : 0 < w.numSharers)
    (hw : w.inside f.sfWords = true) : ∃ g, f.call H (.update a w) = some g ∧ g.sfWords = f.sfWords ∧
      Good H g (update m a ((m a).map fun v => v.write w)) := by
  obtain ⟨s, hs, hfind, hc, hm⟩ := h.found ha
  have hcall : f.call H (.update a w) = some (f.write s w) := by
    unfold SnoopFilter.call
    dsimp only
    rw [hfind]
    rfl
  obtain ⟨hwords, hcap, hused⟩ := write_same (f := f) (s := s) w
  have hcell := write_taken hc hw
  rw [if_neg (by omega)] at hcell
  refine ⟨_, hcall, hwords, ⟨hcap ▸ h.pow, ?_, ?_⟩, ?_, ?_, fun b v => ?_⟩
  · rw [hcap, hcell]
    exact h.probed.store hc
  · have hin : s ∈ occupied f.sfCap f.cell := mem_occupied.mpr ⟨hs, by rw [hc]; exact Option.some_ne_none _⟩
    rw [hcap, hcell, occupied_insert hs, Finset.insert_eq_of_mem hin, hused, h.used]
  · rw [hused, hcap]
    exact h.load
  · rw [hcap]
    exact h.size
  · rw [hcap, hcell, stored_store h.probed hs hc]
    by_cases hb : b = a
    · rw [if_pos hb, hb, update_self, hm]
      exact ⟨fun he => congrArg some he.symm, fun he => (Option.some.inj he).symm⟩
    · rw [if_neg hb, update_of_ne hb]
      exact h.holds b v

theorem Good.erase (h : Good H f m) {a : Nat} (ha : (m a).isSome = true) {w : Writes} (hw : w.inside f.sfWords = true) :
    ∃ g, f.call H (.erase a w) = some g ∧ g.sfWords = f.sfWords ∧ Good H g (Function.update m a none) := by
  obtain ⟨s, hs, hfind, hc, -⟩ := h.found ha
  obtain ⟨hwords, hcap, hused⟩ := write_same (f := f) (s := s) w
  obtain ⟨g, hg, htab, hgcap, hgwords, hgused, hstored⟩ := sfErase_spec h.toTable h.room hs hc (write_taken hc hw) hcap hused
  have hcall : f.call H (.erase a w) = some g := by
    unfold SnoopFilter.call
    dsimp only
    rw [hfind]
    exact hg
  have hload := h.load
  have hsize := h.size
  refine ⟨g, hcall, hgwords.trans hwords, htab, by omega, by omega, fun b v => ?_⟩
  rw [hgcap, hstored, h.holds]
  by_cases hb : b = a
  · rw [hb, update_self]
    exact ⟨(fun he => absurd rfl he.1), (fun he => nomatch he)⟩
  · rw [update_of_ne hb]
    exact ⟨fun he => he.2, fun he => ⟨hb, he⟩⟩

theorem Good.call (h : Good H f m) {c : Call} (hc : c.allowed m f.sfWords = true) :
    ∃ g, f.call H c = some g ∧ g.sfWords = f.sfWords ∧ Good H g (held m c) := by
  cases c with
  | find a =>
    obtain ⟨r, hr, -⟩ := h.find a
    refine ⟨f, ?_, rfl, h⟩
    unfold SnoopFilter.call
    dsimp only
    rw [hr]
    rfl
  | add a mem w =>
    obtain ⟨hc, hw⟩ := Bool.and_eq_true_iff.mp hc
    obtain ⟨hnone, hpos⟩ := Bool.and_eq_true_iff.mp hc
    exact h.add (Option.isNone_iff_eq_none.mp hnone) mem (of_decide_eq_true hpos) hw
  | update a w =>
    obtain ⟨hc, hw⟩ := Bool.and_eq_true_iff.mp hc
    obtain ⟨hsome, hpos⟩ := Bool.and_eq_true_iff.mp hc
    exact h.update hsome (of_decide_eq_true hpos) hw
  | erase a w =>
    obtain ⟨hsome, hw⟩ := Bool.and_eq_true_iff.mp hc
    exact h.erase hsome hw

/-! ## Runs -/

variable {words cap : Nat} {x : SnoopFilter × (Nat → Option Holding)} {l : List Empty}

theorem run_good (hcap : ∃ k, cap = 2 ^ k) (h4 : 4 ≤ cap) (run : (calls H words cap).Run x l) : Good H x.1 x.2 := by
  refine run.inv (I := fun x _ => Good H x.1 x.2) (good_calloc hcap h4) fun {y l c y' es} hy hs => ?_
  have hstep : (if c.allowed y.2 y.1.sfWords = true then (y.1.call H c).map fun f => ((f, held y.2 c), ([] : List Empty))
    else none) = some (y', es) := hs
  split at hstep
  · next hallowed =>
    obtain ⟨g, hg, -, hgood⟩ := hy.call hallowed
    rw [hg] at hstep
    obtain ⟨rfl, -⟩ := Prod.mk.inj (Option.some.inj hstep)
    exact hgood
  · cases hstep

/-- **Whatever the hash, after any additions, writes in place and erasures the table is the map of what was last stored:
a look-up returns the slot of a line that is held, with what is held, and -1 for one that is not; no line has two slots;
the count is that of the taken slots and at most three quarters of the table; every call returns; and growing keeps
every entry.** -/
theorem snoopFilter_is_map {k : Nat} (h4 : 4 ≤ 2 ^ k) (run : (calls H words (2 ^ k)).Run x l) :
    (∀ a, ∃ r, x.1.sfFind H a = some r ∧ (r = none ↔ x.2 a = none) ∧ ∀ s, r = some s →
      s < x.1.sfCap ∧ (x.1.sfTab s).numSharers ≠ 0 ∧ (x.1.sfTab s).tag = a ∧ x.2 a = some (x.1.holding s)) ∧
    (∀ s t, s < x.1.sfCap → t < x.1.sfCap → (x.1.sfTab s).numSharers ≠ 0 → (x.1.sfTab t).numSharers ≠ 0 →
      (x.1.sfTab s).tag = (x.1.sfTab t).tag → s = t) ∧
    x.1.sfUsed = ((Finset.range x.1.sfCap).filter fun s => (x.1.sfTab s).numSharers ≠ 0).card ∧
    4 * x.1.sfUsed ≤ 3 * x.1.sfCap ∧
    (∀ c : Call, c.allowed x.2 x.1.sfWords = true → ∃ g, x.1.call H c = some g) ∧
    ∃ g, x.1.sfAlloc H (2 * x.1.sfCap) = some g ∧ ∀ a v, Stored (2 * x.1.sfCap) g.cell a v ↔ x.2 a = some v := by
  have h := run_good ⟨k, rfl⟩ h4 run
  refine ⟨fun a => ?_, fun s t hs ht hns hnt htag => ?_, ?_, h.load, fun c hc => ?_, ?_⟩
  · obtain ⟨r, hr, hnone, hsome⟩ := h.find a
    refine ⟨r, hr, hnone, fun s hs => ?_⟩
    obtain ⟨hlt, hc, hm⟩ := hsome s hs
    have hne : (x.1.sfTab s).numSharers ≠ 0 := fun hz => by
      rw [cell_none.mpr hz] at hc
      cases hc
    rw [cell_some hne] at hc
    exact ⟨hlt, hne, (Prod.mk.inj (Option.some.inj hc)).1, hm⟩
  · exact h.probed.one hs ht (cell_some hns) (htag ▸ cell_some hnt)
  · rw [h.used]
    refine congrArg Finset.card (Finset.filter_congr fun s _ => ?_)
    rw [Option.isSome_iff_ne_none, ne_eq, cell_none]
  · obtain ⟨g, hg, -⟩ := h.call hc
    exact ⟨g, hg⟩
  · have hpow : ∃ j, 2 * x.1.sfCap = 2 ^ j := by
      obtain ⟨j, hj⟩ := h.pow
      exact ⟨j + 1, by rw [hj, Nat.pow_succ, Nat.mul_comm]⟩
    have hsize := h.size
    obtain ⟨g, hg, -, -, -, -, hstored⟩ := sfAlloc_spec h.toTable hpow (by omega)
    exact ⟨g, hg, fun a v => (hstored a v).trans (h.holds a v)⟩

/-- Every line's home is the last slot of the table. -/
def lastHome : Hash where
  home cap _ := cap - 1
  lt k _ := Nat.sub_lt (Nat.pow_pos (by decide)) (by decide)

/-- One sharer, child `c`. -/
def one (c : Nat) : Writes := ⟨1, true, .E, [(c, true)]⟩

/-- Three lines with one home, the first erased: the others move back around the end of the table. -/
def wrapped : Option ((SnoopFilter × (Nat → Option Holding)) × List Empty) :=
  (calls lastHome 2 4).exec (calls lastHome 2 4).init [.add 5 .E (one 70), .add 6 .E (one 1), .add 7 .S (one 3), .erase 5 (one 0)]

theorem snoopFilter_is_map_wrapped : ∃ x, wrapped = some (x, []) ∧ x.1.sfUsed = 2 ∧
    x.1.sfFind lastHome 6 = some (some 3) ∧ x.1.sfFind lastHome 5 = some none ∧ x.2 6 = some (x.1.holding 3) := by
  rcases hx : wrapped with _ | ⟨x, es⟩
  · exact absurd hx (by decide)
  · have hrun : (calls lastHome 2 4).Run x ([] ++ es) := Machine.Run.start.exec hx
    have hx' : x = (wrapped.get (by decide)).1 := by simp only [hx, Option.get_some]
    have hes : es = [] := List.eq_nil_iff_forall_not_mem.mpr fun e _ => e.elim
    obtain ⟨hfind, -⟩ := snoopFilter_is_map (k := 2) (by decide) hrun
    obtain ⟨r, hr, -, hsome⟩ := hfind 6
    have h6 : x.1.sfFind lastHome 6 = some (some 3) := by
      rw [hx']
      decide
    rw [h6] at hr
    refine ⟨x, by rw [hes], ?_, h6, ?_, (hsome 3 (Option.some.inj hr).symm).2.2.2⟩
    · rw [hx']
      decide
    · rw [hx']
      decide

end SnoopFilter

end Pimid.Cache
