import Pimid.Cache.Ninc

/-!
# What the data array holds

A line is in at most one way, of its own set. What an access reads of the array is
then a map from lines to a state and a value, `dCopy`. A fill sets one line of it and
may lose another: the victim, whose dirty value goes to memory if no child holds it.
-/

namespace Pimid.Cache.Ninc

open Function (update update_eq_self update_idem update_of_ne update_self)

variable {n : Nat} {Val : Type} {g : Geometry}

/-- Valid ways are in their line's set, and no line is in two. -/
structure Placed (g : Geometry) (way : Nat → Way Val) : Prop where
  home : ∀ id, (way id).state ≠ .I → id / g.dWays = (way id).tag % g.dSets
  once : ∀ id id', (way id).state ≠ .I → (way id').state ≠ .I → (way id).tag = (way id').tag → id = id'

/-- State and value of the line in the data array. -/
def dCopy (g : Geometry) (s : Ninc n Val) (line : Nat) : Option (MESIState × Val) :=
  (s.dLookup g line).map fun id => ((s.way id).state, (s.way id).data)

theorem mem_ways (hw : 0 < g.dWays) {line id : Nat} : id ∈ Geometry.ways g line ↔ id / g.dWays = line % g.dSets := by
  unfold Geometry.ways
  rw [List.mem_range'_1]
  constructor
  · intro h
    have hle := h.1
    have hlt := h.2
    rw [Nat.div_eq_iff hw]
    omega
  · intro h
    rw [Nat.div_eq_iff hw] at h
    have h₁ := h.1
    have h₂ := h.2
    omega

theorem dLookup_iff (hw : 0 < g.dWays) {s : Ninc n Val} (h : Placed g s.way) {line id : Nat} :
    s.dLookup g line = some id ↔ (s.way id).state ≠ .I ∧ (s.way id).tag = line := by
  have hfound : ∀ {i}, s.dLookup g line = some i → (s.way i).state ≠ .I ∧ (s.way i).tag = line := by
    intro i hi
    have hp := List.find?_some (p := fun id => (s.way id).state != .I && (s.way id).tag == line) hi
    obtain ⟨hst, htag⟩ := Bool.and_eq_true_iff.mp hp
    exact ⟨bne_iff_ne.mp hst, beq_iff_eq.mp htag⟩
  refine ⟨hfound, fun hid => ?_⟩
  have hsome : (s.dLookup g line).isSome = true := by
    refine List.find?_isSome.mpr ⟨id, (mem_ways hw).mpr ?_, ?_⟩
    · rw [h.home id hid.1, hid.2]
    · exact Bool.and_eq_true_iff.mpr ⟨bne_iff_ne.mpr hid.1, beq_iff_eq.mpr hid.2⟩
  obtain ⟨i, hi⟩ := Option.isSome_iff_exists.mp hsome
  rw [hi, h.once i id (hfound hi).1 hid.1 ((hfound hi).2.trans hid.2.symm)]

theorem dCopy_eq_some_iff (hw : 0 < g.dWays) {s : Ninc n Val} (h : Placed g s.way) {line : Nat} {st : MESIState} {x : Val} :
    dCopy g s line = some (st, x) ↔ ∃ id, (s.way id).state ≠ .I ∧ (s.way id).tag = line ∧ (s.way id).state = st ∧
      (s.way id).data = x := by
  unfold dCopy
  rw [Option.map_eq_some_iff]
  constructor
  · intro hex
    obtain ⟨id, hid, heq⟩ := hex
    obtain ⟨hst, htag⟩ := (dLookup_iff hw h).mp hid
    exact ⟨id, hst, htag, (Prod.mk.inj heq).1, (Prod.mk.inj heq).2⟩
  · intro hex
    obtain ⟨id, hst, htag, rfl, rfl⟩ := hex
    exact ⟨id, (dLookup_iff hw h).mpr ⟨hst, htag⟩, rfl⟩

theorem dCopy_eq_none_iff {s : Ninc n Val} {line : Nat} : dCopy g s line = none ↔ s.dLookup g line = none :=
  Option.map_eq_none_iff

/-! ## One way changes -/

/-- A way may become free, or hold a line that no other way holds. -/
def Fits (g : Geometry) (way : Nat → Way Val) (id : Nat) (w : Way Val) : Prop :=
  w.state ≠ .I → id / g.dWays = w.tag % g.dSets ∧ ∀ id', (way id').state ≠ .I → (way id').tag = w.tag → id' = id

theorem Placed.update {way : Nat → Way Val} (h : Placed g way) {id : Nat} {w : Way Val} (hfits : Fits g way id w) :
    Placed g (update way id w) where
  home i hi := by
    by_cases hid : i = id
    · rw [hid, update_self] at hi ⊢
      exact (hfits hi).1
    · rw [update_of_ne hid] at hi ⊢
      exact h.home i hi
  once i j hi hj htag := by
    by_cases hid : i = id
    · by_cases hjd : j = id
      · rw [hid, hjd]
      · rw [hid, update_self] at hi htag
        rw [update_of_ne hjd] at hj htag
        rw [hid]
        exact ((hfits hi).2 j hj htag.symm).symm
    · rw [update_of_ne hid] at hi htag
      by_cases hjd : j = id
      · rw [hjd, update_self] at hj htag
        rw [hjd]
        exact (hfits hj).2 i hi htag
      · rw [update_of_ne hjd] at hj htag
        exact h.once i j hi hj htag

theorem dCopy_update_same (hw : 0 < g.dWays) {s s' : Ninc n Val} (h : Placed g s.way) {id : Nat} {w : Way Val}
    (hfits : Fits g s.way id w) (hway : s'.way = update s.way id w) (hst : w.state ≠ .I) :
    dCopy g s' w.tag = some (w.state, w.data) := by
  have h' : Placed g s'.way := hway ▸ h.update hfits
  refine (dCopy_eq_some_iff hw h').mpr ⟨id, ?_⟩
  rw [hway, update_self]
  exact ⟨hst, rfl, rfl, rfl⟩

theorem dCopy_update_other (hw : 0 < g.dWays) {s s' : Ninc n Val} (h : Placed g s.way) {id : Nat} {w : Way Val}
    (hfits : Fits g s.way id w) (hway : s'.way = update s.way id w) {line : Nat}
    (hnew : w.state ≠ .I → w.tag ≠ line) (hold : (s.way id).state ≠ .I → (s.way id).tag ≠ line) :
    dCopy g s' line = dCopy g s line := by
  have h' : Placed g s'.way := hway ▸ h.update hfits
  refine Option.ext fun sx => ?_
  obtain ⟨st, x⟩ := sx
  rw [dCopy_eq_some_iff hw h', dCopy_eq_some_iff hw h]
  constructor
  · intro hex
    obtain ⟨i, hi, htag, hrest⟩ := hex
    have hid : i ≠ id := by
      intro heq
      rw [heq, hway, update_self] at hi htag
      exact hnew hi htag
    rw [hway, update_of_ne hid] at hi htag hrest
    exact ⟨i, hi, htag, hrest⟩
  · intro hex
    obtain ⟨i, hi, htag, hrest⟩ := hex
    have hid : i ≠ id := by
      intro heq
      rw [heq] at hi htag
      exact hold hi htag
    refine ⟨i, ?_⟩
    rw [hway, update_of_ne hid]
    exact ⟨hi, htag, hrest⟩

theorem dCopy_update_lost (hw : 0 < g.dWays) {s s' : Ninc n Val} (h : Placed g s.way) {id : Nat} {w : Way Val}
    (hfits : Fits g s.way id w) (hway : s'.way = update s.way id w) (hold : (s.way id).state ≠ .I)
    (hnew : w.state ≠ .I → w.tag ≠ (s.way id).tag) : dCopy g s' (s.way id).tag = none := by
  have h' : Placed g s'.way := hway ▸ h.update hfits
  rw [dCopy_eq_none_iff]
  refine Option.eq_none_iff_forall_ne_some.mpr fun i hi => ?_
  obtain ⟨hst, htag⟩ := (dLookup_iff hw h').mp hi
  by_cases hid : i = id
  · rw [hid, hway, update_self] at hst htag
    exact hnew hst htag
  · rw [hway, update_of_ne hid] at hst htag
    exact hid (h.once i id hst hold htag)

/-! ## Dropping and filling -/

theorem dTouch_set (s : Ninc n Val) (id : Nat) (w : Way Val) :
    ({ s with way := update s.way id w }).dTouch id =
      { s with way := update s.way id { w with stamp := s.dClock + 1 }, dClock := s.dClock + 1 } := by
  unfold dTouch
  simp only [update_self, update_idem]

/-- **A copy found is dropped**: the line is no longer in the array, every other line is as before. -/
theorem dropCopy_spec (hw : 0 < g.dWays) {s : Ninc n Val} (h : Placed g s.way) (line : Nat) :
    Placed g (s.dropCopy (s.dLookup g line)).way ∧ dCopy g (s.dropCopy (s.dLookup g line)) line = none ∧
      ∀ l ≠ line, dCopy g (s.dropCopy (s.dLookup g line)) l = dCopy g s l := by
  cases hl : s.dLookup g line with
  | none => exact ⟨h, dCopy_eq_none_iff.mpr hl, fun _ _ => rfl⟩
  | some id =>
    obtain ⟨hst, htag⟩ := (dLookup_iff hw h).mp hl
    have hfits : Fits g s.way id { s.way id with tag := 0, state := .I, stamp := 0 } := fun hne => absurd rfl hne
    refine ⟨h.update hfits, ?_, fun l hne => ?_⟩
    · rw [← htag]
      exact dCopy_update_lost hw h hfits rfl hst fun hne => absurd rfl hne
    · exact dCopy_update_other hw h hfits rfl (fun hne => absurd rfl hne) fun _ heq => hne (heq.symm.trans htag)

theorem findVictim_mem (way : Nat → Way Val) (ids : List Nat) (v : Nat) :
    findVictim way ids v ∈ ids ∨ findVictim way ids v = v := by
  induction ids generalizing v with
  | nil => exact .inr rfl
  | cons id ids ih =>
    unfold findVictim
    split
    · exact .inl (List.mem_cons_self ..)
    · rcases ih (if (way id).stamp < (way v).stamp then id else v) with hmem | heq
      · exact .inl (List.mem_cons_of_mem _ hmem)
      · rw [heq]
        split
        · exact .inl (List.mem_cons_self ..)
        · exact .inr rfl

theorem evict_cases (s : Ninc n Val) (v : Nat) :
    (∃ w, (s.evict v).way = update s.way v w) ∧ (s.evict v).sf = s.sf ∧ (s.evict v).child = s.child ∧
    (s.evict v).copy = s.copy ∧ (s.evict v).latest = s.latest ∧ (s.evict v).memReqs ≤ s.memReqs + 1 ∧
    (s.evict v).memory = if (s.way v).state = .M ∧ s.sf (s.way v).tag = none then
      update s.memory (s.way v).tag (s.way v).data else s.memory := by
  unfold evict
  by_cases hI : (s.way v).state = .I
  · rw [if_neg (not_not.mpr hI), if_neg (by rw [hI]; exact fun h => nomatch h.1)]
    exact ⟨⟨s.way v, (update_eq_self v s.way).symm⟩, rfl, rfl, rfl, rfl, Nat.le_succ _, rfl⟩
  · rw [if_pos hI]
    split
    · exact ⟨⟨_, rfl⟩, rfl, rfl, rfl, rfl, Nat.le_refl _, rfl⟩
    · exact ⟨⟨_, rfl⟩, rfl, rfl, rfl, rfl, Nat.le_succ _, rfl⟩

/-- What a fill of `line` leaves of everything else. A line may be evicted; memory gets its value only if it was dirty and no
child holds it. -/
structure Filled (g : Geometry) (s s' : Ninc n Val) (line : Nat) : Prop where
  placed : Placed g s'.way
  sf : s'.sf = s.sf
  child : s'.child = s.child
  copy : s'.copy = s.copy
  latest : s'.latest = s.latest
  memory : s'.memory line = s.memory line
  memReqs : s'.memReqs ≤ s.memReqs + 1
  others : ∀ l ≠ line, (dCopy g s' l = dCopy g s l ∧ s'.memory l = s.memory l) ∨
    ∃ st x, dCopy g s l = some (st, x) ∧ dCopy g s' l = none ∧
      s'.memory l = if st = .M ∧ s.sf l = none then x else s.memory l

/-- **A fill** puts the line into the array. -/
theorem dFill_spec (hw : 0 < g.dWays) {s : Ninc n Val} (h : Placed g s.way) (line : Nat) {st : MESIState} (hst : st ≠ .I)
    (data : Val) : dCopy g (s.dFill g line st data) line = some (st, data) ∧ Filled g s (s.dFill g line st data) line := by
  unfold dFill
  cases hl : s.dLookup g line with
  | some hit =>
    obtain ⟨hvalid, htag⟩ := (dLookup_iff hw h).mp hl
    dsimp only
    rw [dTouch_set]
    have hfits : Fits g s.way hit { s.way hit with state := st, data, stamp := s.dClock + 1 } := by
      intro _
      exact ⟨h.home hit hvalid, fun id' hid' heq => h.once id' hit hid' hvalid heq⟩
    refine ⟨?_, ⟨h.update hfits, rfl, rfl, rfl, rfl, rfl, Nat.le_succ _, fun l hne => .inl ⟨?_, rfl⟩⟩⟩
    · rw [← htag]
      exact dCopy_update_same hw h hfits rfl hst
    · refine dCopy_update_other hw h hfits rfl (fun _ heq => ?_) fun _ heq => ?_
      · exact hne (heq.symm.trans htag)
      · exact hne (heq.symm.trans htag)
  | none =>
    dsimp only
    obtain ⟨victim, hvictim⟩ : ∃ v, v = findVictim s.way (Geometry.ways g line) (line % g.dSets * g.dWays) := ⟨_, rfl⟩
    rw [← hvictim]
    have hhome : victim / g.dWays = line % g.dSets := by
      refine (mem_ways hw).mp ?_
      rcases findVictim_mem s.way (Geometry.ways g line) (line % g.dSets * g.dWays) with hmem | heq
      · exact hvictim ▸ hmem
      · rw [hvictim, heq, mem_ways hw, Nat.mul_div_cancel _ hw]
    obtain ⟨⟨w₀, hway⟩, hsf, hchild, hcopy, hlatest, hreqs, hmemory⟩ := evict_cases s victim
    rw [dTouch_set]
    have hway' : update (s.evict victim).way victim { (s.evict victim).way victim with
        tag := line, state := st, data, stamp := (s.evict victim).dClock + 1 } =
        update s.way victim ⟨line, st, (s.evict victim).dClock + 1, data⟩ := by
      rw [hway, update_idem]
    have hfits : Fits g s.way victim ⟨line, st, (s.evict victim).dClock + 1, data⟩ := by
      refine fun _ => ⟨hhome, fun id' hid' heq => ?_⟩
      rw [(dLookup_iff hw h).mpr ⟨hid', heq⟩] at hl
      cases hl
    have hvline : (s.way victim).state ≠ .I → (s.way victim).tag ≠ line := by
      intro hvalid heq
      rw [(dLookup_iff hw h).mpr ⟨hvalid, heq⟩] at hl
      cases hl
    refine ⟨dCopy_update_same hw h hfits hway' hst, ⟨?_, hsf, hchild, hcopy, hlatest, ?_, hreqs, fun l hne => ?_⟩⟩
    · show Placed g (update (s.evict victim).way victim _)
      rw [hway']
      exact h.update hfits
    · show (s.evict victim).memory line = s.memory line
      rw [hmemory]
      split
      · next hM => rw [update_of_ne (hvline (by rw [hM.1]; nofun)).symm]
      · rfl
    · by_cases hl' : (s.way victim).state ≠ .I ∧ (s.way victim).tag = l
      · -- the victim's line
        obtain ⟨hvalid, rfl⟩ := hl'
        refine .inr ⟨(s.way victim).state, (s.way victim).data, ?_, ?_, ?_⟩
        · exact (dCopy_eq_some_iff hw h).mpr ⟨victim, hvalid, rfl, rfl, rfl⟩
        · exact dCopy_update_lost hw h hfits hway' hvalid fun _ heq => hvline hvalid heq.symm
        · show (s.evict victim).memory _ = _
          rw [hmemory]
          split
          · rw [update_self]
          · rfl
      · have hother : (s.way victim).state ≠ .I → (s.way victim).tag ≠ l := fun hv heq => hl' ⟨hv, heq⟩
        refine .inl ⟨dCopy_update_other hw h hfits hway' (fun _ heq => hne heq.symm) hother, ?_⟩
        show (s.evict victim).memory l = s.memory l
        rw [hmemory]
        split
        · next hM => rw [update_of_ne (hother (by rw [hM.1]; nofun)).symm]
        · rfl

end Pimid.Cache.Ninc
