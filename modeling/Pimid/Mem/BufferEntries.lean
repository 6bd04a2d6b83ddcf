import Pimid.Mem.Postings

/-!
# What becomes of a buffer entry

At whatever times the banks are booked, an entry keeps the line and the unit of the write
it was made for, and only what is complete leaves the buffer. `Carries` says it of every
operation that makes no entry; the two that make one change nothing else.
-/

namespace Pimid.Mem.WriteBuffer

/-- The line and the unit of the write that the entry was made for, in the buffer or not any more. -/
def label (s : WriteBuffer) (id : Nat) : Option (Nat × Nat) :=
  (s.made id).map fun e => (e.line, e.unit)

/-- An id from `wbNext` on is new, and the entries by completion stand at their own. -/
structure Dated (s : WriteBuffer) : Prop where
  fresh : ∀ id, s.wbNext ≤ id → s.wb id = none ∧ s.gone id = none
  known : ∀ d id, (d, id) ∈ s.wbByDone → id < s.wbNext
  done : ∀ d id e, (d, id) ∈ s.wbByDone → s.wb id = some e → e.done = d

/-- No entry is made, none changes its write, and those of a `late` completion stay, to complete no earlier. -/
structure Carries (late : Nat → Prop) (s s' : WriteBuffer) : Prop where
  dated : Dated s'
  wbNext : s'.wbNext = s.wbNext
  wbLast : s'.wbLast = s.wbLast
  label : ∀ id, s'.label id = s.label id
  kept : ∀ id e, s.wb id = some e → late e.done → ∃ e', s'.wb id = some e' ∧ e.done ≤ e'.done

section

variable {s s' s'' : WriteBuffer} {id t : Nat} {e : WbEntry} {late : Nat → Prop} {c : BankTiming}

theorem Dated.init : Dated {} :=
  ⟨fun _ _ => ⟨rfl, rfl⟩, nofun, nofun⟩

theorem Dated.lt (h : Dated s) (he : s.wb id = some e) : id < s.wbNext := by
  by_contra hge
  rw [(h.fresh id (by omega)).1] at he
  cases he

theorem label_some (he : s.wb id = some e) : s.label id = some (e.line, e.unit) := by
  rw [label, made, he]
  rfl

theorem Carries.refl (h : Dated s) : Carries late s s :=
  ⟨h, rfl, rfl, fun _ => rfl, fun _ e he _ => ⟨e, he, Nat.le_refl _⟩⟩

/-- What comes after may free what is complete by then too. -/
theorem Carries.trans (h : Carries late s s') (h' : Carries late s' s'') (hlate : ∀ {d d'}, late d → d ≤ d' → late d') :
    Carries late s s'' where
  dated := h'.dated
  wbNext := h'.wbNext.trans h.wbNext
  wbLast := h'.wbLast.trans h.wbLast
  label id := (h'.label id).trans (h.label id)
  kept id e he hl := by
    obtain ⟨e', he', hle⟩ := h.kept id e he hl
    obtain ⟨e'', he'', hle'⟩ := h'.kept id e' he' (hlate hl hle)
    exact ⟨e'', he'', Nat.le_trans hle hle'⟩

theorem Carries.weaken {late' : Nat → Prop} (h : Carries late s s') (hl : ∀ d, late' d → late d) : Carries late' s s' :=
  ⟨h.dated, h.wbNext, h.wbLast, h.label, fun id e he hd => h.kept id e he (hl _ hd)⟩

/-! ## Entries are fixed -/

theorem Fixes.label (h : Fixes s s') (hgone : s'.gone = s.gone) (id : Nat) : s'.label id = s.label id := by
  rw [WriteBuffer.label, WriteBuffer.label, made, made, hgone]
  cases hs : s.wb id with
  | none => rw [h.none id hs]
  | some e =>
    obtain ⟨b, hb⟩ := h.wb id e hs
    rw [hb]
    rfl

theorem Fixes.carries (h : Fixes s s') (hgone : s'.gone = s.gone) (hd : Dated s) : Carries late s s' where
  dated := by
    refine ⟨fun id hid => ?_, fun d id hm => ?_, fun d id e' hm he' => ?_⟩
    · rw [h.wbNext] at hid
      rw [hgone]
      exact ⟨h.none id (hd.fresh id hid).1, (hd.fresh id hid).2⟩
    · rw [h.wbByDone] at hm
      rw [h.wbNext]
      exact hd.known d id hm
    · rw [h.wbByDone] at hm
      obtain ⟨e, b, he, rfl⟩ := h.back he'
      exact hd.done d id e hm he
  wbNext := h.wbNext
  wbLast := h.wbLast
  label := h.label hgone
  kept id e he _ := by
    obtain ⟨b, hb⟩ := h.wb id e he
    exact ⟨_, hb, Nat.le_refl _⟩

theorem wbCommit_fixes (u : Nat) (t : Rat) (fuel : Nat) (s : WriteBuffer) :
    Fixes s (wbCommit u t fuel s) ∧ (wbCommit u t fuel s).gone = s.gone := by
  induction fuel generalizing s with
  | zero => exact ⟨.refl s, rfl⟩
  | succ fuel ih =>
    unfold wbCommit
    split
    next => exact ⟨.refl s, rfl⟩
    next id q _ =>
      split
      next e he =>
        split
        next => exact ⟨.refl s, rfl⟩
        next =>
          obtain ⟨hfixes, hgone⟩ := ih (s.fix id e q)
          exact ⟨(Fixes.fix he).trans hfixes, hgone⟩
      next =>
        -- the queue alone changes
        obtain ⟨hfixes, hgone⟩ := ih { s with wbBank := Function.update s.wbBank u { s.wbBank u with q := q } }
        exact ⟨⟨hfixes.wb, hfixes.none, hfixes.wbByDone, hfixes.wbNext, hfixes.wbLast⟩, hgone⟩

theorem commit_fixes (s : WriteBuffer) (u : Nat) (t : Rat) : Fixes s (s.commit u t) ∧ (s.commit u t).gone = s.gone :=
  wbCommit_fixes u t _ s

theorem keepOne_fixes (issue bound : Nat) (r : WriteBuffer × Nat) (id : Nat) :
    Fixes r.1 (keepOne issue bound r id).1 ∧ (keepOne issue bound r id).1.gone = r.1.gone := by
  unfold keepOne
  split
  next =>
    split
    next e he =>
      split
      next => exact ⟨.refl _, rfl⟩
      next hkeep =>
        obtain ⟨hfixes, hgone⟩ := commit_fixes r.1 e.unit issue
        obtain ⟨b, hb⟩ := hfixes.wb id e he
        refine ⟨hfixes.trans ?_, hgone⟩
        -- it is fixed here, also where the commit has fixed it already
        show Fixes _ ((r.1.commit e.unit issue).fix id { e with fixed := e.fixed || b } _)
        exact Fixes.fix hb
    next => exact ⟨.refl _, rfl⟩
  next => exact ⟨.refl _, rfl⟩

theorem keepOldest_fixes (c : BankTiming) (s : WriteBuffer) (issue : Nat) :
    Fixes s (keepOldest c s issue) ∧ (keepOldest c s issue).gone = s.gone := by
  have hfold : ∀ (bound : Nat) (ids : List Nat) (r : WriteBuffer × Nat),
      Fixes r.1 (ids.foldl (keepOne issue bound) r).1 ∧ (ids.foldl (keepOne issue bound) r).1.gone = r.1.gone := by
    intro bound ids
    induction ids with
    | nil => exact fun r => ⟨.refl _, rfl⟩
    | cons id ids ih =>
      intro r
      obtain ⟨hone, hgone⟩ := keepOne_fixes issue bound r id
      obtain ⟨hrest, hgone'⟩ := ih (keepOne issue bound r id)
      exact ⟨hone.trans hrest, hgone'.trans hgone⟩
  unfold keepOldest
  dsimp only
  split
  next => exact hfold _ _ (s, _)
  next => exact ⟨.refl s, rfl⟩

/-! ## What is complete leaves -/

/-- The first by completion leaves; the others stay. -/
theorem Dated.freeOne (h : Dated s) {d : Nat} {rest : List (Nat × Nat)} (hdone : s.wbByDone = (d, id) :: rest)
    (hd : d ≤ t) : Carries (t < ·) s { s.freeOne t id with wbByDone := rest } := by
  have hrest : ∀ {x}, x ∈ rest → x ∈ s.wbByDone := fun hx => hdone ▸ List.mem_cons_of_mem _ hx
  unfold WriteBuffer.freeOne
  split
  next e he =>
    have hed : e.done = d := h.done d id e (hdone ▸ List.mem_cons_self ..) he
    dsimp only
    have hfix : ∃ s₁, (if e.fixed then s else s.commit e.unit e.start) = s₁ ∧ Fixes s s₁ ∧ s₁.gone = s.gone := by
      refine ⟨_, rfl, ?_⟩
      split
      · exact ⟨.refl s, rfl⟩
      · exact commit_fixes s e.unit e.start
    obtain ⟨s₁, hs₁, hfixes, hgone⟩ := hfix
    rw [hs₁]
    have hc : Carries (fun _ => True) s s₁ := hfixes.carries hgone h
    have hwb : ∀ {id'}, id' ≠ id → (s₁.leave id { e with fixed := true } t).wb id' = s₁.wb id' :=
      fun hne => Function.update_of_ne hne ..
    have hself : (s₁.leave id { e with fixed := true } t).wb id = none := Function.update_self ..
    have hgoneNe : ∀ {id'}, id' ≠ id → (s₁.leave id { e with fixed := true } t).gone id' = s₁.gone id' :=
      fun hne => Function.update_of_ne hne ..
    have hgoneSelf : (s₁.leave id { e with fixed := true } t).gone id = some ({ e with fixed := true }, t) :=
      Function.update_self ..
    refine ⟨⟨fun id' hid => ?_, fun d' id' hm => ?_, fun d' id' e' hm he' => ?_⟩, hfixes.wbNext, hfixes.wbLast,
      fun id' => ?_, fun id' e' he' hlt => ?_⟩
    · have hid : s.wbNext ≤ id' := hc.wbNext ▸ hid
      have hne : id' ≠ id := fun heq => by
        have := h.lt he
        omega
      have := hc.dated.fresh id' (hc.wbNext ▸ hid)
      exact ⟨(hwb hne).trans this.1, (hgoneNe hne).trans this.2⟩
    · show id' < s₁.wbNext
      rw [hc.wbNext]
      exact h.known d' id' (hrest hm)
    · have hne : id' ≠ id := fun heq => by
        rw [heq] at he'
        exact absurd (hself.symm.trans he') nofun
      exact hc.dated.done d' id' e' (hfixes.wbByDone ▸ hrest hm) ((hwb hne).symm.trans he')
    · by_cases hid : id' = id
      · rw [hid, label_some he]
        show ((s₁.leave id { e with fixed := true } t).made id).map _ = _
        rw [made, hself, hgoneSelf]
        rfl
      · rw [← hc.label id']
        show ((s₁.leave id { e with fixed := true } t).made id').map _ = (s₁.made id').map _
        rw [made, hwb hid, hgoneNe hid, made]
    · have hne : id' ≠ id := fun heq => by
        rw [heq, he] at he'
        cases he'
        omega
      obtain ⟨e'', he'', hle⟩ := hc.kept id' e' he' trivial
      exact ⟨e'', (hwb hne).trans he'', hle⟩
  next =>
    exact ⟨⟨h.fresh, fun d' id' hm => h.known d' id' (hrest hm), fun d' id' e' hm he' => h.done d' id' e' (hrest hm) he'⟩,
      rfl, rfl, fun _ => rfl, fun id' e' he' _ => ⟨e', he', Nat.le_refl _⟩⟩

theorem lt_upward {d d' : Nat} (h : t < d) (hle : d ≤ d') : t < d' :=
  Nat.lt_of_lt_of_le h hle

theorem Dated.wbFreeLoop (h : Dated s) (t fuel : Nat) : Carries (t < ·) s (wbFreeLoop t fuel s) := by
  induction fuel generalizing s with
  | zero => exact .refl h
  | succ fuel ih =>
    unfold WriteBuffer.wbFreeLoop
    split
    next => exact .refl h
    next d id rest hdone =>
      split
      next hd =>
        have hone := h.freeOne hdone hd
        exact hone.trans (ih hone.dated) lt_upward
      next => exact .refl h

theorem Dated.wbFree (h : Dated s) (t : Nat) : Carries (t < ·) s (s.wbFree t) :=
  h.wbFreeLoop t _

/-! ## Completions change -/

/-- An entry takes another completion; `late` ones no earlier. -/
theorem Dated.setDone (h : Dated s) {e' : WbEntry} (he : s.wb id = some e) (hr : Retimed e e') (hd : e'.done = e.done)
    {done : Nat} (hle : late e.done → e.done ≤ done) : Carries late s (s.wbSetDone id e' done) := by
  have hid := h.lt he
  have hmem : ∀ {d id'}, (d, id') ∈ (s.wbSetDone id e' done).wbByDone →
      (d, id') = (done, id) ∨ ((d, id') ∈ s.wbByDone ∧ (d, id') ≠ (e.done, id)) := by
    intro d id' hm
    rcases mem_insertDone.mp hm with heq | hm
    · exact .inl heq
    · rw [List.mem_filter, hd] at hm
      exact .inr ⟨hm.1, of_decide_eq_true hm.2⟩
  refine ⟨⟨fun id' hid' => ?_, fun d id' hm => ?_, fun d id' e₂ hm he₂ => ?_⟩, rfl, rfl, fun id' => ?_, fun id' e₂ he₂ hl => ?_⟩
  · have hid' : s.wbNext ≤ id' := hid'
    exact ⟨(setDone_wb_ne (by omega)).trans (h.fresh id' hid').1, (h.fresh id' hid').2⟩
  · rcases hmem hm with heq | hm
    · cases heq
      exact hid
    · exact h.known d id' hm.1
  · by_cases hne : id' = id
    · rw [hne, setDone_wb_self] at he₂
      cases he₂
      rcases hmem hm with heq | hm
      · cases heq
        rfl
      · rw [hne] at hm
        exact absurd (by rw [h.done d id e hm.1 he]) hm.2
    · rw [setDone_wb_ne hne] at he₂
      rcases hmem hm with heq | hm
      · exact absurd (Prod.mk.inj heq).2 hne
      · exact h.done d id' e₂ hm.1 he₂
  · by_cases hne : id' = id
    · rw [hne, label_some he, label_some setDone_wb_self]
      show some (e'.line, e'.unit) = _
      rw [hr.line, hr.unit]
    · rw [label, label, made, made, setDone_wb_ne hne]
      rfl
  · by_cases hne : id' = id
    · rw [hne, he] at he₂
      cases he₂
      rw [hne]
      exact ⟨_, setDone_wb_self, hle hl⟩
    · exact ⟨e₂, (setDone_wb_ne hne).trans he₂, Nat.le_refl _⟩

theorem Dated.pushBack (h : Dated s) (q : List Nat) (prev : Rat) : Carries (fun _ => True) s (pushBack q prev s).1 := by
  induction q generalizing s prev with
  | nil => exact .refl h
  | cons id q ih =>
    unfold WriteBuffer.pushBack
    split
    next => exact ih h prev
    next e he =>
      split
      next =>
        have hr : Retimed e { e with start := e.start + (prev - e.start), stop := e.stop + (prev - e.start) } :=
          ⟨rfl, rfl, rfl⟩
        have hone : Carries (fun _ => True) s (s.wbSetDone id _ (e.done + roundHalf (prev - e.start))) :=
          h.setDone he hr rfl fun _ => Nat.le_add_right ..
        exact hone.trans (ih hone.dated _) fun _ _ => trivial
      next => exact ih h e.stop

theorem Dated.bookAhead (h : Dated s) (c : BankTiming) (wr : Bool) (u arrive : Nat) (wait : Rat) :
    Carries (fun _ => True) s (bookAhead c s wr u arrive wait) := by
  obtain ⟨hfixes, hgone⟩ := commit_fixes s u arrive
  have hc : Carries (fun _ => True) s (s.commit u arrive) := hfixes.carries hgone h
  unfold WriteBuffer.bookAhead
  dsimp only
  generalize later ((s.commit u arrive).wbBank u).fixedEnd arrive + wait = start
  generalize (start, start + (c.svc + if wr then (c.writeExtra : Rat) else 0)) = x
  have hs : Dated ((s.commit u arrive).settleAhead u x) := ⟨hc.dated.fresh, hc.dated.known, hc.dated.done⟩
  have hp := hs.pushBack ((s.commit u arrive).wbBank u).q x.2
  refine hc.trans ⟨⟨hp.dated.fresh, hp.dated.known, hp.dated.done⟩, hp.wbNext, hp.wbLast, hp.label, hp.kept⟩
    fun _ _ => trivial

/-! ## An entry is made -/

/-- Entry `e` is new, and the others are as they were. -/
structure Added (s s' : WriteBuffer) (e : WbEntry) : Prop where
  wb : s'.wb = Function.update s.wb s.wbNext (some e)
  wbNext : s'.wbNext = s.wbNext + 1
  wbByDone : s'.wbByDone = insertDone (e.done, s.wbNext) s.wbByDone
  gone : s'.gone = s.gone

theorem Added.wb_self (ha : Added s s' e) : s'.wb s.wbNext = some e := by
  rw [ha.wb, Function.update_self]

theorem Added.wb_ne (ha : Added s s' e) (hne : id ≠ s.wbNext) : s'.wb id = s.wb id := by
  rw [ha.wb, Function.update_of_ne hne]

theorem Added.label_ne (ha : Added s s' e) (hne : id ≠ s.wbNext) : s'.label id = s.label id := by
  rw [label, label, made, made, ha.wb_ne hne, ha.gone]

theorem Added.dated (ha : Added s s' e) (h : Dated s) : Dated s' := by
  refine ⟨fun id hid => ?_, fun d id hm => ?_, fun d id e' hm he' => ?_⟩
  · rw [ha.wbNext] at hid
    rw [ha.wb_ne (by omega), ha.gone]
    exact h.fresh id (by omega)
  · rw [ha.wbByDone] at hm
    rw [ha.wbNext]
    rcases mem_insertDone.mp hm with heq | hm
    · cases heq
      exact Nat.lt_succ_self _
    · exact Nat.lt_succ_of_lt (h.known d id hm)
  · rw [ha.wbByDone] at hm
    by_cases hid : id = s.wbNext
    · rw [hid, ha.wb_self] at he'
      cases he'
      rcases mem_insertDone.mp hm with heq | hm
      · exact (Prod.mk.inj heq).1.symm
      · have := h.known d id hm
        omega
    · rw [ha.wb_ne hid] at he'
      rcases mem_insertDone.mp hm with heq | hm
      · exact absurd (Prod.mk.inj heq).2 hid
      · exact h.done d id e' hm he'

theorem bookPosted_added (c : BankTiming) (s : WriteBuffer) (line u arrive : Nat) (wait : Rat) :
    ∃ e : WbEntry, e.line = line ∧ e.unit = u ∧ Added (s.commit u arrive) (bookPosted c s line u arrive wait) e ∧
      (bookPosted c s line u arrive wait).wbLast = some (s.commit u arrive).wbNext :=
  ⟨⟨line, u, _, _, _, false⟩, rfl, rfl, ⟨rfl, rfl, rfl, rfl⟩, rfl⟩

theorem Dated.bookPosted (h : Dated s) (c : BankTiming) (line u arrive : Nat) (wait : Rat) :
    Dated (bookPosted c s line u arrive wait) ∧ (bookPosted c s line u arrive wait).wbNext = s.wbNext + 1 ∧
      (bookPosted c s line u arrive wait).wbLast = some s.wbNext ∧
      (∃ e, (bookPosted c s line u arrive wait).wb s.wbNext = some e ∧ e.line = line ∧ e.unit = u) ∧
      ∀ id, id ≠ s.wbNext → (bookPosted c s line u arrive wait).label id = s.label id := by
  obtain ⟨hfixes, hgone⟩ := commit_fixes s u arrive
  have hc : Carries (fun _ => True) s (s.commit u arrive) := hfixes.carries hgone h
  obtain ⟨e, hline, hunit, ha, hlast⟩ := bookPosted_added c s line u arrive wait
  rw [hc.wbNext] at hlast
  refine ⟨ha.dated hc.dated, ?_, hlast, ⟨e, ?_, hline, hunit⟩, fun id hne => ?_⟩
  · rw [ha.wbNext, hc.wbNext]
  · rw [← hc.wbNext]
    exact ha.wb_self
  · rw [ha.label_ne (by rwa [hc.wbNext]), hc.label]

/-! ## A write is acknowledged -/

/-- The write takes an entry that its own acknowledgement does not free; what is complete at the issue leaves, and the
entry takes the write's completion. -/
theorem Dated.acknowledge (h : Dated s) {issue done accept : Nat} (he : s.wb id = some e) (hlt : issue < e.done) :
    Carries (fun _ => False) s (keepOldest c ((s.wbFree issue).complete id accept done) issue) ∧
      ∃ e', (keepOldest c ((s.wbFree issue).complete id accept done) issue).wb id = some e' ∧ e'.line = e.line ∧
        e'.unit = e.unit ∧ e'.done = if done < accept then accept else done := by
  have hfree := h.wbFree issue
  obtain ⟨e₁, he₁, -⟩ := hfree.kept id e he hlt
  have hcomplete : (s.wbFree issue).complete id accept done =
      (s.wbFree issue).wbSetDone id e₁ (if done < accept then accept else done) := by
    rw [complete, he₁]
  rw [hcomplete]
  have hset : Carries (fun _ => False) (s.wbFree issue) ((s.wbFree issue).wbSetDone id e₁ (if done < accept then accept else done)) :=
    hfree.dated.setDone he₁ ⟨rfl, rfl, rfl⟩ rfl False.elim
  obtain ⟨hfixes, hgone⟩ := keepOldest_fixes c ((s.wbFree issue).wbSetDone id e₁ (if done < accept then accept else done)) issue
  obtain ⟨b, hb⟩ := hfixes.wb id _ setDone_wb_self
  have hall := ((hfree.weaken fun _ => False.elim).trans hset fun hf _ => hf).trans
    (hfixes.carries hgone hset.dated) fun hf _ => hf
  have hlabel : some (e₁.line, e₁.unit) = some (e.line, e.unit) := by
    rw [← label_some he₁, ← label_some he, hfree.label]
  have hpair := Prod.mk.inj (Option.some.inj hlabel)
  exact ⟨hall, _, hb, hpair.1, hpair.2, rfl⟩

theorem takeEntry_own (line u issue done : Nat) (hlast : s.wbLast = some id) (he : s.wb id = some e) :
    s.takeEntry line u issue done = ({ s with wbLast := none }, id) := by
  rw [takeEntry, hlast, Option.filter_some, he]
  rfl

theorem takeEntry_none (line u issue done : Nat) (hlast : s.wbLast = none) :
    (s.takeEntry line u issue done).2 = s.wbNext ∧ (s.takeEntry line u issue done).1.wbLast = none ∧
      Added s (s.takeEntry line u issue done).1 ⟨line, u, issue, done, done, true⟩ := by
  rw [takeEntry, hlast]
  exact ⟨rfl, rfl, ⟨rfl, rfl, rfl, rfl⟩⟩

end

end Pimid.Mem.WriteBuffer
