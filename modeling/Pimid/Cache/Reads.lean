import Pimid.Cache.Coherence

/-!
# Reads keep the cache coherent

One equation for each way a read can go, and from it what becomes of the line:
nobody has it, only the data array has it, other children share it, or one of them
holds it exclusively.
-/

namespace Pimid.Cache.Ninc

open Function (update update_of_ne update_self)

variable {n : Nat} {Val : Type} {g : Geometry} {s s' : Ninc n Val} {c : Fin n} {line : Nat} {noexcl : Bool}
  {x : SFEntry n} {id : Nat}

/-! ## Changes of one line -/

theorem Only.refl (s : Ninc n Val) (line : Nat) : Only s s line :=
  ⟨rfl, rfl, fun _ _ => rfl, fun _ _ _ => rfl, fun _ _ _ => rfl, fun _ _ => rfl⟩

theorem Only.setEntry (h : Only s s' line) (e : Option (SFEntry n)) : Only s (s'.setEntry line e) line where
  way := h.way
  memory := h.memory
  sf l hl := by
    show update s'.sf line e l = s.sf l
    rw [update_of_ne hl]
    exact h.sf l hl
  child := h.child
  copy := h.copy
  latest := h.latest

/-- One line of one child's is changed. -/
theorem update_line {α : Type} (f : Fin n → Nat → α) (v : α) (o : Fin n) (l : Nat) :
    update f c (update (f c) line v) o l = if o = c ∧ l = line then v else f o l := by
  by_cases ho : o = c
  · rw [ho, update_self]
    by_cases hl : l = line
    · rw [hl, update_self, if_pos ⟨rfl, rfl⟩]
    · rw [update_of_ne hl, if_neg fun h => hl h.2]
  · rw [update_of_ne ho, if_neg fun h => ho h.1]

theorem setChild_child (st : MESIState) (v : Val) (o : Fin n) (l : Nat) :
    (s.setChild c line st v).child o l = if o = c ∧ l = line then st else s.child o l :=
  update_line _ _ _ _

theorem setChild_copy (st : MESIState) (v : Val) (o : Fin n) (l : Nat) :
    (s.setChild c line st v).copy o l = if o = c ∧ l = line then v else s.copy o l :=
  update_line _ _ _ _

theorem Only.setChild (h : Only s s' line) (c : Fin n) (st : MESIState) (v : Val) : Only s (s'.setChild c line st v) line where
  way := h.way
  memory := h.memory
  sf := h.sf
  child o l hl := by
    rw [setChild_child, if_neg fun h => hl h.2]
    exact h.child o l hl
  copy o l hl := by
    rw [setChild_copy, if_neg fun h => hl h.2]
    exact h.copy o l hl
  latest := h.latest

/-- The holders' states after an invalidation. -/
def invalidated (s : Ninc n Val) (line : Nat) (sharers : Fin n → Bool) (type : InvType) : Ninc n Val :=
  { s with child := fun o => if sharers o then update (s.child o) line (type.apply (s.child o line)) else s.child o }

theorem invalidated_child (sharers : Fin n → Bool) (type : InvType) (o : Fin n) (l : Nat) :
    (s.invalidated line sharers type).child o l =
      if sharers o = true ∧ l = line then type.apply (s.child o line) else s.child o l := by
  show (if sharers o then update (s.child o) line (type.apply (s.child o line)) else s.child o) l = _
  by_cases ho : sharers o = true
  · rw [if_pos ho]
    by_cases hl : l = line
    · rw [hl, update_self, if_pos ⟨ho, rfl⟩]
    · rw [update_of_ne hl, if_neg fun h => hl h.2]
  · rw [if_neg ho, if_neg fun h => ho h.1]

theorem Only.invalidated (h : Only s s' line) (sharers : Fin n → Bool) (type : InvType) :
    Only s (s'.invalidated line sharers type) line where
  way := h.way
  memory := h.memory
  sf := h.sf
  child o l hl := by
    rw [invalidated_child, if_neg fun h => hl h.2]
    exact h.child o l hl
  copy := h.copy
  latest := h.latest

/-- A request to memory is counted. -/
def counted (s : Ninc n Val) (fromMem : Prop) [Decidable fromMem] : Ninc n Val :=
  if fromMem then { s with memReqs := s.memReqs + 1 } else s

theorem Only.counted (fromMem : Prop) [Decidable fromMem] : Only s (s.counted fromMem) line := by
  unfold Ninc.counted
  split
  · exact ⟨rfl, rfl, fun _ _ => rfl, fun _ _ _ => rfl, fun _ _ _ => rfl, fun _ _ => rfl⟩
  · exact Only.refl s line

theorem counted_eq (fromMem : Prop) [Decidable fromMem] : (s.counted fromMem).child = s.child ∧
    (s.counted fromMem).copy = s.copy ∧ (s.counted fromMem).sf = s.sf ∧ (s.counted fromMem).memory = s.memory ∧
    (s.counted fromMem).latest = s.latest ∧ (s.counted fromMem).way = s.way := by
  unfold counted
  split <;> exact ⟨rfl, rfl, rfl, rfl, rfl, rfl⟩

theorem peer_some {o : Fin n} (h : peer x c = some o) : o ≠ c ∧ x.sharers o = true := by
  have hp := List.find?_some (p := fun o => o != c && x.sharers o) h
  obtain ⟨hne, ho⟩ := Bool.and_eq_true_iff.mp hp
  exact ⟨bne_iff_ne.mp hne, ho⟩

theorem exists_peer {o : Fin n} (hne : o ≠ c) (ho : x.sharers o = true) : ∃ o', peer x c = some o' := by
  refine Option.isSome_iff_exists.mp (List.find?_isSome.mpr ⟨o, List.mem_finRange o, ?_⟩)
  exact Bool.and_eq_true_iff.mpr ⟨bne_iff_ne.mpr hne, ho⟩

/-! ## Reads -/

theorem gets_of_memory (hsf : s.sf line = none) (hd : s.dLookup g line = none) : s.gets g c line noexcl =
    (({ s with memReqs := s.memReqs + 1 }).setEntry line (some ⟨update (fun _ => false) c true, 1, !noexcl,
      if noexcl then .S else .E⟩)).setChild c line (if noexcl then .S else .E) (s.memory line) := by
  have hmem : s.memState g line = .I := by
    unfold memState
    rw [hsf, hd]
  unfold gets
  rw [hmem, hd]
  cases noexcl <;> simp [entryFor, hsf, SFEntry.isExclusive, dropCopy]

theorem gets_of_copy (hsf : s.sf line = none) (hd : s.dLookup g line = some id) (hst : (s.way id).state ≠ .I) :
    s.gets g c line noexcl = if ((s.way id).state = .E ∨ (s.way id).state = .M) ∧ noexcl = false then
      ((s.setEntry line (some ⟨update (fun _ => false) c true, 1, true, (s.way id).state⟩)).setChild c line .E
        (s.way id).data).dropCopy (some id)
    else
      let s' := (s.setEntry line (some ⟨update (fun _ => false) c true, 1, false, (s.way id).state⟩)).setChild c line .S
        (s.way id).data
      ({ s' with way := update s'.way id { s'.way id with state := (s.way id).state } }).dTouch id := by
  have hmem : s.memState g line = (s.way id).state := by
    unfold memState
    rw [hsf, hd]
  unfold gets
  rw [hmem, hd]
  simp only [if_neg hst, entryFor, hsf, Option.getD_none]
  simp [SFEntry.isExclusive, onChip]

/-- What a read of a line other children hold gets: from the first of them if there is no copy here. -/
def sharedData (g : Geometry) (s : Ninc n Val) (line : Nat) (x : SFEntry n) (c : Fin n) : Val :=
  s.onChip line (if (s.dLookup g line).isNone then peer x c else none) (s.dLookup g line)

theorem gets_of_shared (hsf : s.sf line = some x) (hpos : 0 < x.numSharers) (hmem : x.mem ≠ .I) (hmine : x.sharers c = false)
    (hexcl : x.isExclusive = false) : s.gets g c line noexcl =
      ((s.setEntry line (some ⟨update x.sharers c true, x.numSharers + 1, false, x.mem⟩)).setChild c line .S
        (sharedData g s line x c)).dFill g line x.mem (sharedData g s line x c) := by
  have hm : s.memState g line = x.mem := by
    unfold memState
    rw [hsf]
  have hne : x.numSharers ≠ 0 := by omega
  unfold SFEntry.isExclusive at hexcl
  unfold gets sharedData
  rw [hm]
  simp only [if_neg hmem, entryFor, hsf, Option.getD_some, hmine]
  simp [SFEntry.isExclusive, hne, hexcl, peer]

/-- One of the children has the line modified. -/
def modified (s : Ninc n Val) (line : Nat) (sharers : Fin n → Bool) : Bool :=
  (List.finRange n).any fun o => sharers o && s.child o line == .M

theorem gets_of_exclusive (hsf : s.sf line = some x) (hmem : x.mem ≠ .I) (hmine : x.sharers c = false)
    (hexcl : x.isExclusive = true) : s.gets g c line noexcl =
      (((s.invalidated line x.sharers .INVX).setEntry line (some ⟨update x.sharers c true, 2, false,
        if s.modified line x.sharers then .M else x.mem⟩)).setChild c line .S
        (s.onChip line (peer x c) (s.dLookup g line))).dFill g line (if s.modified line x.sharers then .M else x.mem)
        (s.onChip line (peer x c) (s.dLookup g line)) := by
  have hm : s.memState g line = x.mem := by
    unfold memState
    rw [hsf]
  have hone : x.numSharers = 1 := beq_iff_eq.mp (Bool.and_eq_true_iff.mp hexcl).1
  have hflag : x.exclusive = true := (Bool.and_eq_true_iff.mp hexcl).2
  unfold gets
  rw [hm]
  simp only [if_neg hmem, entryFor, hsf, Option.getD_some, hmine]
  simp [SFEntry.isExclusive, hone, hflag, sendInvalidates, invalidated, modified, peer]

/-- The line after a request of `c` was served: its entry, the other children's states, its own state and value. -/
structure Served (s s' : Ninc n Val) (c : Fin n) (line : Nat) (e : Option (SFEntry n)) (ch : Fin n → MESIState) (st : MESIState)
    (v : Val) : Prop where
  only : Only s s' line
  sf : s'.sf line = e
  child : (fun o => s'.child o line) = update ch c st
  copy : (fun o => s'.copy o line) = update (fun o => s.copy o line) c v
  latest : s'.latest line = s.latest line

theorem served {s₀ : Ninc n Val} (h : Only s s₀ line) (hcopy : s₀.copy = s.copy) (hlatest : s₀.latest = s.latest)
    (e : Option (SFEntry n)) (st : MESIState) (v : Val) :
    Served s ((s₀.setEntry line e).setChild c line st v) c line e (fun o => s₀.child o line) st v where
  only := (h.setEntry e).setChild c st v
  sf := update_self ..
  child := by
    funext o
    rw [setChild_child]
    by_cases ho : o = c
    · rw [if_pos ⟨ho, rfl⟩, ho, update_self]
    · rw [if_neg fun h => ho h.1, update_of_ne ho]
      rfl
  copy := by
    funext o
    rw [setChild_copy]
    by_cases ho : o = c
    · rw [if_pos ⟨ho, rfl⟩, ho, update_self]
    · rw [if_neg fun h => ho h.1, update_of_ne ho]
      exact congrFun (congrFun hcopy o) line
  latest := congrFun hlatest line

section Serve

variable {e : Option (SFEntry n)} {ch : Fin n → MESIState} {st : MESIState} {v : Val}
  (hs : Served s s' c line e ch st v)
include hs

theorem Served.own_copy : s'.copy c line = v :=
  (congrFun hs.copy c).trans (update_self ..)

theorem Served.fill (hi : Inv g s) (hw : 0 < g.dWays) {mem : MESIState} (hmem : mem ≠ .I) {data : Val}
    (h : Coherent e (update ch c st) (update (fun o => s.copy o line) c v) (some (mem, data))
      (s.memory line) (s.latest line)) :
    Inv g (s'.dFill g line mem data) ∧ (s'.dFill g line mem data).copy c line = v := by
  refine ⟨hi.fill hw hs.only hmem ?_, ?_⟩
  · rw [hs.sf, hs.child, hs.copy, hs.latest]
    exact h
  · rw [(dFill_spec hw (hs.only.way ▸ hi.placed) line hmem data).2.copy]
    exact hs.own_copy

theorem Served.drop (hi : Inv g s) (hw : 0 < g.dWays)
    (h : Coherent e (update ch c st) (update (fun o => s.copy o line) c v) none (s.memory line)
      (s.latest line)) :
    Inv g (s'.dropCopy (s.dLookup g line)) ∧ (s'.dropCopy (s.dLookup g line)).copy c line = v := by
  refine ⟨hi.drop hw hs.only ?_, ?_⟩
  · rw [hs.sf, hs.child, hs.copy, hs.latest]
    exact h
  · have : ∀ did, (s'.dropCopy did).copy = s'.copy := by
      intro did
      cases did <;> rfl
    rw [this]
    exact hs.own_copy

theorem Served.keep (hi : Inv g s)
    (h : Coherent e (update ch c st) (update (fun o => s.copy o line) c v) (dCopy g s line)
      (s.memory line) (s.latest line)) : Inv g s' ∧ s'.copy c line = v := by
  refine ⟨hi.only hs.only ?_, hs.own_copy⟩
  rw [hs.sf, hs.child, hs.copy, hs.latest]
  exact h

end Serve

/-! ### The requester alone -/

section Alone

variable {child : Fin n → MESIState} {copy : Fin n → Val} {d : Option (MESIState × Val)} {memory latest : Val}

theorem Coherent.own {st mem : MESIState} (hothers : ∀ o, o ≠ c → child o = .I) (hst : st = .E ∨ st = .M) (hmem : mem ≠ .I)
    (hfirm : mem ≠ .S) (hclean : st = .E → mem ≠ .M → memory = latest) :
    Coherent (some ⟨update (fun _ => false) c true, 1, true, mem⟩) (update child c st)
      (update copy c latest) none memory latest := by
  refine coherent_owned (update_self ..) hst (fun o ho => ?_) hmem hfirm (update_self ..) hclean
  rw [update_of_ne ho]
  exact hothers o ho

/-- The requester becomes a sharer beside those there are. -/
theorem Coherent.join {x : SFEntry n} (hstates : ∀ o, child o = .I ∨ child o = .S)
    (hbits : ∀ o, x.sharers o = true ↔ child o ≠ .I)
    (hcount : x.numSharers = (List.finRange n).countP fun o => x.sharers o = true) (hc : child c = .I)
    (hcopies : ∀ o, child o ≠ .I → copy o = latest) {mem : MESIState} (hmem : mem ≠ .I)
    (hd : ∀ st v, d = some (st, v) → st = mem ∧ v = latest) (hclean : mem ≠ .M → memory = latest) :
    Coherent (some ⟨update x.sharers c true, x.numSharers + 1, false, mem⟩) (update child c .S)
      (update copy c latest) d memory latest := by
  have hnot : x.sharers c = false := by
    rw [Bool.eq_false_iff]
    exact fun h => (hbits c).mp h hc
  refine coherent_shared (fun o => ?_) (fun o => ?_) ?_ (Nat.succ_pos _) rfl hmem (fun o ho => ?_) hd hclean
  · by_cases hoc : o = c
    · rw [hoc, update_self]
      exact .inr rfl
    · rw [update_of_ne hoc]
      exact hstates o
  · show update x.sharers c true o = true ↔ _
    by_cases hoc : o = c
    · rw [hoc, update_self, update_self]
      exact ⟨fun _ => nofun, fun _ => rfl⟩
    · rw [update_of_ne hoc, update_of_ne hoc]
      exact hbits o
  · show x.numSharers + 1 = (List.finRange n).countP fun o => update x.sharers c true o = true
    rw [countP_add hnot, hcount]
  · by_cases hoc : o = c
    · rw [hoc, update_self]
    · rw [update_of_ne hoc] at ho ⊢
      exact hcopies o ho

end Alone

theorem Inv.touch (hi : Inv g s) (id : Nat) :
    Inv g (({ s with way := update s.way id { s.way id with state := (s.way id).state } }).dTouch id) := by
  rw [dTouch_set]
  have hsame : ∀ i, (update s.way id { s.way id with stamp := s.dClock + 1 } i).tag = (s.way i).tag ∧
      (update s.way id { s.way id with stamp := s.dClock + 1 } i).state = (s.way i).state ∧
      (update s.way id { s.way id with stamp := s.dClock + 1 } i).data = (s.way i).data := by
    intro i
    by_cases hid : i = id
    · rw [hid, update_self]
      exact ⟨rfl, rfl, rfl⟩
    · rw [update_of_ne hid]
      exact ⟨rfl, rfl, rfl⟩
  refine ⟨⟨fun i hst => ?_, fun i j hst hst' htag => ?_⟩, fun l => ?_⟩
  · dsimp only at hst ⊢
    rw [(hsame i).2.1] at hst
    rw [(hsame i).1]
    exact hi.placed.home i hst
  · dsimp only at hst hst' htag
    rw [(hsame i).2.1] at hst
    rw [(hsame j).2.1] at hst'
    rw [(hsame i).1, (hsame j).1] at htag
    exact hi.placed.once i j hst hst' htag
  · refine (hi.line l).congr rfl (fun _ => rfl) (fun _ => rfl) ?_ rfl rfl
    unfold dCopy dLookup
    simp only [(hsame _).1, (hsame _).2.1, (hsame _).2.2]

theorem Inv.gets_memory (hi : Inv g s) (hsf : s.sf line = none) (hd : s.dLookup g line = none) :
    Inv g (s.gets g c line noexcl) ∧ (s.gets g c line noexcl).copy c line = s.latest line := by
  have h := hi.line line
  unfold CoherentAt at h
  rw [hsf, dCopy_eq_none_iff.mpr hd] at h
  have hfree : ∀ o, s.child o line = .I := h.free rfl
  have hlatest : s.memory line = s.latest line := by
    refine h.clean (fun o => ?_) nofun fun _ _ => nofun
    rw [hfree o]
    nofun
  rw [gets_of_memory hsf hd, ← hlatest]
  have hcount : Only s { s with memReqs := s.memReqs + 1 } line :=
    ⟨rfl, rfl, fun _ _ => rfl, fun _ _ _ => rfl, fun _ _ _ => rfl, fun _ _ => rfl⟩
  refine (served hcount rfl rfl _ _ _).keep hi ?_
  rw [dCopy_eq_none_iff.mpr hd, hlatest]
  cases noexcl with
  | false => exact Coherent.own (fun o _ => hfree o) (.inl rfl) nofun nofun fun _ _ => rfl
  | true =>
    refine Coherent.join (x := ⟨fun _ => false, 0, false, .S⟩) (fun o => .inl (hfree o)) (fun o => ?_) countP_none.symm (hfree c)
      (fun o ho => absurd (hfree o) ho) nofun nofun fun _ => rfl
    exact ⟨nofun, fun ho => absurd (hfree o) ho⟩

/-- A line only the data array has: it moves to the requester, or is shared with it. -/
theorem Inv.gets_copy (hi : Inv g s) (hw : 0 < g.dWays) (hsf : s.sf line = none) (hd : s.dLookup g line = some id) :
    Inv g (s.gets g c line noexcl) ∧ (s.gets g c line noexcl).copy c line = s.latest line := by
  obtain ⟨hst, htag⟩ := (dLookup_iff hw hi.placed).mp hd
  have hcopy : dCopy g s line = some ((s.way id).state, (s.way id).data) := by
    unfold dCopy
    rw [hd]
    rfl
  have h := hi.line line
  unfold CoherentAt at h
  rw [hsf, hcopy] at h
  have hfree : ∀ o, s.child o line = .I := h.free rfl
  have hnoM : ∀ o, s.child o line ≠ .M := fun o => by rw [hfree o]; nofun
  have hdata : (s.way id).data = s.latest line := h.data _ _ rfl hnoM
  have hclean : (s.way id).state ≠ .M → s.memory line = s.latest line := by
    refine fun hne => h.clean hnoM nofun fun _ v hv => hne ?_
    exact (Prod.mk.inj (Option.some.inj hv)).1
  rw [gets_of_copy hsf hd hst, hdata]
  split
  · next hexcl =>
    rw [← hd]
    refine (served (Only.refl s line) rfl rfl _ _ _).drop hi hw ?_
    refine Coherent.own (fun o _ => hfree o) (.inl rfl) hst ?_ fun _ hne => hclean hne
    rcases hexcl.1 with hE | hM
    · rw [hE]
      nofun
    · rw [hM]
      nofun
  · have hs := served (c := c) (Only.refl s line) rfl rfl
      (some ⟨update (fun _ => false) c true, 1, false, (s.way id).state⟩) .S (s.latest line)
    have hkeep := hs.keep hi (g := g) ?_
    · refine ⟨hkeep.1.touch id, ?_⟩
      exact hkeep.2
    · rw [hcopy]
      refine Coherent.join (x := ⟨fun _ => false, 0, false, .S⟩) (fun o => .inl (hfree o)) (fun o => ?_) countP_none.symm
        (hfree c) (fun o ho => absurd (hfree o) ho) hst (fun st v hv => ?_) hclean
      · exact ⟨nofun, fun ho => absurd (hfree o) ho⟩
      · obtain ⟨rfl, rfl⟩ := Prod.mk.inj (Option.some.inj hv)
        exact ⟨rfl, hdata⟩

theorem Inv.gets_shared (hi : Inv g s) (hw : 0 < g.dWays) (hsf : s.sf line = some x) (hc : s.child c line = .I)
    (hexcl : x.isExclusive = false) :
    Inv g (s.gets g c line noexcl) ∧ (s.gets g c line noexcl).copy c line = s.latest line := by
  have h := hi.line line
  unfold CoherentAt at h
  rw [hsf] at h
  have hstates : ∀ o, s.child o line = .I ∨ s.child o line = .S := h.shared_of_not_exclusive rfl hexcl
  have hnoM : ∀ o, s.child o line ≠ .M := by
    intro o
    rcases hstates o with ho | ho <;> (rw [ho]; nofun)
  have hmine : x.sharers c = false := by
    rw [Bool.eq_false_iff]
    exact fun hb => (h.bits x rfl c).mp hb hc
  have hdata : sharedData g s line x c = s.latest line := by
    unfold sharedData
    cases hd : s.dLookup g line with
    | none =>
      obtain ⟨o, ho⟩ := h.exists_holder rfl
      have hoc : o ≠ c := by
        intro heq
        exact ho (heq ▸ hc)
      obtain ⟨o', ho'⟩ := exists_peer hoc ((h.bits x rfl o).mpr ho)
      rw [Option.isNone_none, if_pos rfl, ho']
      exact h.copies o' ((h.bits x rfl o').mp (peer_some ho').2)
    | some id =>
      rw [Option.isNone_some, if_neg (by decide)]
      refine h.data (s.way id).state _ ?_ hnoM
      unfold dCopy
      rw [hd]
      rfl
  rw [gets_of_shared hsf (h.held x rfl) (h.known x rfl) hmine hexcl, hdata]
  refine (served (Only.refl s line) rfl rfl _ _ _).fill hi hw (h.known x rfl) ?_
  refine Coherent.join hstates (h.bits x rfl) (h.count x rfl) hc h.copies (h.known x rfl) (fun st v hv => ?_) fun hne => ?_
  · obtain ⟨rfl, rfl⟩ := Prod.mk.inj (Option.some.inj hv)
    exact ⟨rfl, rfl⟩
  · refine h.clean hnoM (fun y hy => ?_) nofun
    cases hy
    exact hne

/-- A line another child holds exclusively: that child is downgraded, and what it has modified comes back. -/
theorem Inv.gets_exclusive (hi : Inv g s) (hw : 0 < g.dWays) (hsf : s.sf line = some x) (hc : s.child c line = .I)
    (hexcl : x.isExclusive = true) :
    Inv g (s.gets g c line noexcl) ∧ (s.gets g c line noexcl).copy c line = s.latest line := by
  have h := hi.line line
  unfold CoherentAt at h
  rw [hsf] at h
  have hmine : x.sharers c = false := by
    rw [Bool.eq_false_iff]
    exact fun hb => (h.bits x rfl c).mp hb hc
  obtain ⟨o, ho⟩ := h.exists_holder rfl
  have hoc : o ≠ c := by
    intro heq
    exact ho (heq ▸ hc)
  obtain ⟨o', ho'⟩ := exists_peer hoc ((h.bits x rfl o).mpr ho)
  have hdata : s.onChip line (peer x c) (s.dLookup g line) = s.latest line := by
    rw [ho']
    exact h.copies o' ((h.bits x rfl o').mp (peer_some ho').2)
  have hone : x.numSharers = 1 := beq_iff_eq.mp (Bool.and_eq_true_iff.mp hexcl).1
  have hmem : (if s.modified line x.sharers then .M else x.mem) ≠ MESIState.I := by
    split
    · nofun
    · exact h.known x rfl
  -- the states of the holders after the downgrade
  have hafter : ∀ o, (s.invalidated line x.sharers .INVX).child o line =
      if s.child o line = .I then .I else .S := by
    intro o
    rw [invalidated_child]
    by_cases hI : s.child o line = .I
    · rw [if_pos hI, if_neg fun hb => (h.bits x rfl o).mp hb.1 hI]
      exact hI
    · rw [if_neg hI, if_pos ⟨(h.bits x rfl o).mpr hI, rfl⟩]
      cases hst : s.child o line with
      | I => exact absurd hst hI
      | S => rfl
      | E => rfl
      | M => rfl
  rw [gets_of_exclusive hsf (h.known x rfl) hmine hexcl, hdata]
  refine (served ((Only.refl s line).invalidated x.sharers .INVX) rfl rfl _ _ _).fill hi hw hmem ?_
  rw [show (2 : Nat) = x.numSharers + 1 by omega]
  refine Coherent.join (fun o => ?_) (fun o => ?_) (h.count x rfl) ?_ (fun o hne => ?_) hmem (fun st v hv => ?_) fun hne => ?_
  · rw [hafter o]
    split
    · exact .inl rfl
    · exact .inr rfl
  · rw [hafter o, h.bits x rfl o]
    split
    · next hI => exact ⟨fun hne => absurd hI hne, fun hne => absurd rfl hne⟩
    · next hI => exact ⟨fun _ => nofun, fun _ => hI⟩
  · rw [hafter c, if_pos hc]
  · rw [hafter o] at hne
    refine h.copies o fun hI => hne ?_
    rw [if_pos hI]
  · obtain ⟨rfl, rfl⟩ := Prod.mk.inj (Option.some.inj hv)
    exact ⟨rfl, rfl⟩
  · have hwb : s.modified line x.sharers = false := by
      rw [Bool.eq_false_iff]
      exact fun hb => hne (if_pos hb)
    rw [hwb, if_neg (by decide)] at hne
    refine h.clean (fun o hM => ?_) (fun y hy => ?_) nofun
    · have hb := List.any_eq_false.mp hwb o (List.mem_finRange o)
      rw [(h.bits x rfl o).mpr (by rw [hM]; nofun), hM] at hb
      exact hb rfl
    · cases hy
      exact hne

/-- **A read** keeps the cache coherent, and the requester gets the latest value. -/
theorem Inv.gets (hi : Inv g s) (hw : 0 < g.dWays) (hc : s.child c line = .I) (noexcl : Bool) :
    Inv g (s.gets g c line noexcl) ∧ (s.gets g c line noexcl).copy c line = s.latest line := by
  cases hsf : s.sf line with
  | some x =>
    cases hx : x.isExclusive with
    | true => exact hi.gets_exclusive hw hsf hc hx
    | false => exact hi.gets_shared hw hsf hc hx
  | none =>
    cases hd : s.dLookup g line with
    | some id => exact hi.gets_copy hw hsf hd
    | none => exact hi.gets_memory hsf hd

end Pimid.Cache.Ninc
