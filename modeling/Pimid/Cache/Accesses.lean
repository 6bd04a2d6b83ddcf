import Pimid.Cache.Reads

/-!
# Every access keeps the cache coherent

Requests for writing, writes and evictions, as the reads before; then whole runs.
-/

namespace Pimid.Cache.Ninc

open Function (update update_eq_self update_of_ne update_self)

variable {n : Nat} {Val : Type} {g : Geometry} {s s' : Ninc n Val} {c : Fin n} {line : Nat} {x : SFEntry n}

/-! ## Requests for writing -/

/-- What a request for writing does, with `e` for the entry it finds or makes. -/
theorem getx_eq {e : SFEntry n} (he : ∀ m, s.entryFor line m = { e with mem := m }) : s.getx g c line =
    ((((s.counted (s.memState g line = .I ∨ s.memState g line = .S)).invalidated line (update e.sharers c false) .INV).setEntry
      line (some ⟨update (fun _ => false) c true, 1, true, .M⟩)).setChild c line .M
      (if e.sharers c then s.copy c line else if s.memState g line = .I ∨ s.memState g line = .S then s.memory line
        else s.onChip line (peer e c) (s.dLookup g line))).dropCopy (s.dLookup g line) := by
  have hcount : (if s.memState g line = .I ∨ s.memState g line = .S then { s with memReqs := s.memReqs + 1 } else s) =
      s.counted (s.memState g line = .I ∨ s.memState g line = .S) := rfl
  unfold getx
  dsimp only
  rw [hcount]
  obtain ⟨hchild, hcopy, hsf', hmem, -, hway⟩ := counted_eq (s := s) (s.memState g line = .I ∨ s.memState g line = .S)
  have hentry : ∀ m, (s.counted (s.memState g line = .I ∨ s.memState g line = .S)).entryFor line m = { e with mem := m } := by
    intro m
    rw [← he]
    unfold entryFor
    rw [hsf']
  have honchip : ∀ a b, (s.counted (s.memState g line = .I ∨ s.memState g line = .S)).onChip line a b = s.onChip line a b := by
    intro a b
    unfold onChip
    rw [hcopy, hway, hmem]
  simp only [hentry, hcopy, hmem, honchip]
  cases hx : e.sharers c with
  | true => simp [sendInvalidates, invalidated]
  | false =>
    have hself : update e.sharers c false = e.sharers := by
      rw [← hx, update_eq_self]
    simp [sendInvalidates, invalidated, peer, hself]

theorem getx_of_entry (hsf : s.sf line = some x) : s.getx g c line =
    ((((s.counted (x.mem = .I ∨ x.mem = .S)).invalidated line (update x.sharers c false) .INV).setEntry line
      (some ⟨update (fun _ => false) c true, 1, true, .M⟩)).setChild c line .M
      (if x.sharers c then s.copy c line else if x.mem = .I ∨ x.mem = .S then s.memory line
        else s.onChip line (peer x c) (s.dLookup g line))).dropCopy (s.dLookup g line) := by
  have hm : s.memState g line = x.mem := by
    unfold memState
    rw [hsf]
  rw [← hm]
  refine getx_eq fun m => ?_
  unfold entryFor
  rw [hsf]
  rfl

theorem getx_of_no_entry (hsf : s.sf line = none) : s.getx g c line =
    ((((s.counted (s.memState g line = .I ∨ s.memState g line = .S)).invalidated line (fun _ => false) .INV).setEntry line
      (some ⟨update (fun _ => false) c true, 1, true, .M⟩)).setChild c line .M
      (if s.memState g line = .I ∨ s.memState g line = .S then s.memory line
        else s.onChip line none (s.dLookup g line))).dropCopy (s.dLookup g line) := by
  have hpeer : peer (⟨fun _ => false, 0, false, .I⟩ : SFEntry n) c = none := by
    unfold peer
    rw [List.find?_eq_none]
    intro o _
    simp
  have heq : s.getx g c line = _ := getx_eq (e := ⟨fun _ => false, 0, false, .I⟩) fun m => by
    unfold entryFor
    rw [hsf]
    rfl
  rw [heq, hpeer, update_eq_self]
  rfl

/-- **A request for writing** keeps the cache coherent, and the requester gets the latest value. -/
theorem Inv.getx (hi : Inv g s) (hw : 0 < g.dWays) :
    Inv g (s.getx g c line) ∧ (s.getx g c line).copy c line = s.latest line := by
  have h := hi.line line
  unfold CoherentAt at h
  cases hsf : s.sf line with
  | some x =>
    rw [hsf] at h
    have hdata : (if x.sharers c then s.copy c line else if x.mem = .I ∨ x.mem = .S then s.memory line
        else s.onChip line (peer x c) (s.dLookup g line)) = s.latest line := by
      split
      · next hmine => exact h.copies c ((h.bits x rfl c).mp hmine)
      · next hmine =>
        split
        · next hmem =>
          -- held shared: then nobody has it exclusively, and memory is up to date
          have hS : x.mem = .S := hmem.resolve_left (h.known x rfl)
          refine h.clean (fun o hM => ?_) (fun y hy => ?_) nofun
          · exact h.firm x rfl (h.alone_count rfl (.inr hM)).2 hS
          · cases hy
            rw [hS]
            nofun
        · obtain ⟨o, ho⟩ := h.exists_holder rfl
          have hoc : o ≠ c := by
            intro heq
            rw [heq] at ho
            exact hmine ((h.bits x rfl c).mpr ho)
          obtain ⟨o', ho'⟩ := exists_peer hoc ((h.bits x rfl o).mpr ho)
          rw [ho']
          exact h.copies o' ((h.bits x rfl o').mp (peer_some ho').2)
    rw [getx_of_entry hsf, hdata]
    obtain ⟨hchild, hcopy, -, -, hlatest, -⟩ := counted_eq (s := s) (x.mem = .I ∨ x.mem = .S)
    refine (served ((Only.counted _).invalidated _ .INV) hcopy hlatest _ _ _).drop hi hw ?_
    refine Coherent.own (fun o ho => ?_) (.inr rfl) nofun nofun nofun
    rw [invalidated_child, update_of_ne ho, hchild]
    by_cases hI : s.child o line = .I
    · rw [if_neg fun hb => (h.bits x rfl o).mp hb.1 hI]
      exact hI
    · rw [if_pos ⟨(h.bits x rfl o).mpr hI, rfl⟩]
      rfl
  | none =>
    rw [hsf] at h
    have hfree : ∀ o, s.child o line = .I := h.free rfl
    have hnoM : ∀ o, s.child o line ≠ .M := fun o => by rw [hfree o]; nofun
    have hdata : (if s.memState g line = .I ∨ s.memState g line = .S then s.memory line
        else s.onChip line none (s.dLookup g line)) = s.latest line := by
      cases hd : s.dLookup g line with
      | none =>
        have hm : s.memState g line = .I := by simp only [memState, hsf, hd]
        rw [if_pos (.inl hm)]
        refine h.clean hnoM nofun fun _ v hv => ?_
        rw [dCopy_eq_none_iff.mpr hd] at hv
        cases hv
      | some id =>
        have hm : s.memState g line = (s.way id).state := by simp only [memState, hsf, hd]
        have hcopy : dCopy g s line = some ((s.way id).state, (s.way id).data) := by
          unfold dCopy
          rw [hd]
          rfl
        split
        · next hmem =>
          refine h.clean hnoM nofun fun _ v hv => ?_
          rw [hcopy] at hv
          rw [hm] at hmem
          have hstate := (Prod.mk.inj (Option.some.inj hv)).1
          rw [hstate] at hmem
          rcases hmem with hmem | hmem <;> cases hmem
        · exact h.data _ _ hcopy hnoM
    rw [getx_of_no_entry hsf, hdata]
    obtain ⟨hchild, hcopy, -, -, hlatest, -⟩ :=
      counted_eq (s := s) (s.memState g line = .I ∨ s.memState g line = .S)
    refine (served ((Only.counted _).invalidated _ .INV) hcopy hlatest _ _ _).drop hi hw ?_
    refine Coherent.own (fun o _ => ?_) (.inr rfl) nofun nofun nofun
    rw [invalidated_child, if_neg fun hb => nomatch hb.1]
    exact (congrFun (congrFun hchild o) line).trans (hfree o)

/-- **A write** to a line held exclusively. -/
theorem Inv.write (hi : Inv g s) (hc : s.child c line = .E ∨ s.child c line = .M) (v : Val) :
    Inv g (s.write c line v) := by
  have h := hi.line line
  unfold CoherentAt at h
  obtain ⟨honly, x, hx, hexcl⟩ := h.alone c hc
  have hcI : s.child c line ≠ .I := by
    rcases hc with hc | hc <;> (rw [hc]; nofun)
  have ho : Only s (s.write c line v) line := by
    have hset := (Only.refl s line).setChild c .M v
    refine ⟨hset.way, hset.memory, hset.sf, hset.child, hset.copy, fun l hl => ?_⟩
    show update s.latest line v l = s.latest l
    rw [update_of_ne hl]
  have hown : ∀ o, (s.write c line v).child o line ≠ .I ↔ o = c := by
    intro o
    show (s.setChild c line .M v).child o line ≠ .I ↔ o = c
    rw [setChild_child]
    by_cases hoc : o = c
    · rw [if_pos ⟨hoc, rfl⟩]
      exact ⟨fun _ => hoc, fun _ => nofun⟩
    · rw [if_neg fun h => hoc h.1]
      exact ⟨honly o, fun h => absurd h hoc⟩
  have hM : (s.write c line v).child c line = .M := by
    show (s.setChild c line .M v).child c line = .M
    rw [setChild_child, if_pos ⟨rfl, rfl⟩]
  have hlatest : (s.write c line v).latest line = v := update_self ..
  refine hi.only ho ?_
  rw [show (s.write c line v).sf line = s.sf line from rfl, hlatest]
  refine ⟨?_, fun y hy o => ?_, h.count, h.held, h.known, fun o ho => ?_, fun y hy _ => ⟨c, .inr hM⟩, h.firm, h.same,
    fun o ho => ?_, fun _ _ _ hno => absurd hM (hno c), fun hno => absurd hM (hno c)⟩
  · intro hnone
    rw [hx] at hnone
    cases hnone
  · rw [h.bits y hy o, hown o]
    refine ⟨honly o, fun hoc => ?_⟩
    rw [hoc]
    exact hcI
  · have hoc : o = c := (hown o).mp (by rcases ho with ho | ho <;> (rw [ho]; nofun))
    rw [hoc]
    exact ⟨fun o' ho' => (hown o').mp ho', x, hx, hexcl⟩
  · rw [(hown o).mp ho]
    show (s.setChild c line .M v).copy c line = v
    rw [setChild_copy, if_pos ⟨rfl, rfl⟩]

/-! ## Evictions -/

theorem Inv.put_keep (hi : Inv g s) (hw : 0 < g.dWays) (hc : s.child c line = .M) :
    Inv g (s.put g c line .PUTX_KEEPEXCL) := by
  have h := hi.line line
  unfold CoherentAt at h
  obtain ⟨honly, x, hsf, hexcl⟩ := h.alone c (.inr hc)
  have hmine : x.sharers c = true := (h.bits x hsf c).mpr (by rw [hc]; nofun)
  have hput : s.put g c line .PUTX_KEEPEXCL =
      ((s.setEntry line (some { x with mem := .M })).setChild c line .E (s.copy c line)).dFill g line .M (s.copy c line) := by
    unfold put
    rw [hsf]
    simp only [hmine]
    rfl
  have hcopy : s.copy c line = s.latest line := h.copies c (by rw [hc]; nofun)
  rw [hput, hcopy]
  have hMI : MESIState.M ≠ .I := nofun
  refine ((served (Only.refl s line) rfl rfl _ _ _).fill hi hw hMI ?_).1
  have hhold : ∀ o, update (fun o => s.child o line) c .E o ≠ .I ↔ s.child o line ≠ .I := by
    intro o
    by_cases hoc : o = c
    · rw [hoc, update_self, hc]
      exact ⟨fun _ => nofun, fun _ => nofun⟩
    · rw [update_of_ne hoc]
  have hE : update (fun o => s.child o line) c .E c = .E := update_self ..
  refine ⟨nofun, fun y hy o => ?_, fun y hy => ?_, fun y hy => ?_, fun y hy => ?_, fun o ho => ?_, fun y hy _ => ⟨c, .inl hE⟩,
    fun y hy _ => ?_, fun y st v hy hv => ?_, fun o ho => ?_, fun st v hv _ => ?_, fun _ hno => ?_⟩
  · cases hy
    rw [hhold o]
    exact h.bits x hsf o
  · cases hy
    exact h.count x hsf
  · cases hy
    exact h.held x hsf
  · cases hy
    nofun
  · have hoc : o = c := honly o ((hhold o).mp (by rcases ho with ho | ho <;> (rw [ho]; nofun)))
    rw [hoc]
    exact ⟨fun o' ho' => honly o' ((hhold o').mp ho'), _, rfl, hexcl⟩
  · cases hy
    nofun
  · cases hy
    exact (Prod.mk.inj (Option.some.inj hv)).1.symm
  · rw [honly o ((hhold o).mp ho), update_self]
  · exact (Prod.mk.inj (Option.some.inj hv)).2.symm
  · exact absurd rfl (hno _ rfl)

/-- An eviction: the line goes into the data array, in the state the entry has it in. -/
theorem put_of_entry {type : PutType} (hsf : s.sf line = some x) (hmine : x.sharers c = true) (htype : type ≠ .PUTX_KEEPEXCL)
    {mem : MESIState} (hmem : mem = if type = .PUTS then x.mem else .M) : s.put g c line type =
      ((s.setEntry line (if x.numSharers - 1 = 0 then none
        else some ⟨update x.sharers c false, x.numSharers - 1, x.exclusive, mem⟩)).setChild c line .I
        (s.copy c line)).dFill g line mem (s.copy c line) := by
  unfold put
  rw [hsf, hmem]
  simp only [hmine, if_neg htype]
  by_cases hlast : x.numSharers - 1 = 0
  · cases type <;> simp [hlast, setEntry, setChild]
  · cases type <;> simp [hlast, setEntry, setChild]

theorem Inv.put_evict (hi : Inv g s) (hw : 0 < g.dWays) {type : PutType} (htype : type ≠ .PUTX_KEEPEXCL)
    (hc : s.child c line ≠ .I) (hdirty : s.child c line = .M → type = .PUTX) (hclean : type = .PUTX → s.child c line = .M) :
    Inv g (s.put g c line type) := by
  have h := hi.line line
  unfold CoherentAt at h
  obtain ⟨x, hsf⟩ : ∃ x, s.sf line = some x := by
    refine Option.ne_none_iff_exists'.mp fun hnone => ?_
    exact hc (h.free hnone c)
  have hmine : x.sharers c = true := (h.bits x hsf c).mpr hc
  obtain ⟨mem, hmem⟩ : ∃ m, m = if type = .PUTS then x.mem else MESIState.M := ⟨_, rfl⟩
  have hmemI : mem ≠ .I := by
    rw [hmem]
    split
    · exact h.known x hsf
    · nofun
  have hcopy : s.copy c line = s.latest line := h.copies c hc
  rw [put_of_entry hsf hmine htype hmem, hcopy]
  refine ((served (Only.refl s line) rfl rfl _ _ _).fill hi hw hmemI ?_).1
  have hrest : ∀ o, update (fun o => s.child o line) c .I o ≠ .I ↔ o ≠ c ∧ s.child o line ≠ .I := by
    intro o
    by_cases hoc : o = c
    · rw [hoc, update_self]
      exact ⟨fun hne => absurd rfl hne, fun hne => absurd rfl hne.1⟩
    · rw [update_of_ne hoc]
      exact ⟨fun hne => ⟨hoc, hne⟩, fun hne => hne.2⟩
  -- memory is up to date if the line goes in clean
  have hmemory : mem ≠ .M → s.memory line = s.latest line := by
    intro hne
    have hS : type = .PUTS := by
      by_contra hno
      rw [if_neg hno] at hmem
      exact hne hmem
    rw [if_pos hS] at hmem
    refine h.clean (fun o hM => ?_) (fun y hy => ?_) fun hnone => ?_
    · have hoc : c = o := (h.alone o (.inr hM)).1 c hc
      rw [← hoc] at hM
      rw [hdirty hM] at hS
      cases hS
    · rw [hsf] at hy
      cases hy
      exact hmem ▸ hne
    · rw [hsf] at hnone
      cases hnone
  split
  · next hlast =>
    -- the last holder
    have hcount := h.count x hsf
    have hpos := h.held x hsf
    have hone : x.numSharers = 1 := by omega
    refine coherent_free (fun o => ?_) (fun st v hv => (Prod.mk.inj (Option.some.inj hv)).2.symm) fun hno => ?_
    · by_contra hne
      obtain ⟨hoc, ho⟩ := (hrest o).mp hne
      have hrem := countP_remove hmine
      rw [← hcount, hone] at hrem
      have hzero := List.countP_eq_zero.mp hrem o (List.mem_finRange o)
      rw [update_of_ne hoc, (h.bits x hsf o).mpr ho] at hzero
      exact hzero (decide_eq_true rfl)
    · refine hmemory fun hM => ?_
      rw [hM] at hno
      exact hno _ rfl
  · next hlast =>
    -- others share it, so nobody has it exclusively
    have hshared : x.isExclusive = false := by
      rw [Bool.eq_false_iff]
      intro hx
      have : x.numSharers = 1 := beq_iff_eq.mp (Bool.and_eq_true_iff.mp hx).1
      omega
    have hstates := h.shared_of_not_exclusive hsf hshared
    have hS : type = .PUTS := by
      by_contra hno
      have hX : type = .PUTX := by
        cases type with
        | PUTS => exact absurd rfl hno
        | PUTX => rfl
        | PUTX_KEEPEXCL => exact absurd rfl htype
      rcases hstates c with hs | hs <;> (rw [hclean hX] at hs; cases hs)
    rw [if_pos hS] at hmem
    have hexcl : x.exclusive = false := by
      rw [Bool.eq_false_iff]
      intro hx
      obtain ⟨o, ho⟩ := h.owner x hsf hx
      have := (h.alone_count hsf ho).1
      omega
    refine coherent_shared (fun o => ?_) (fun o => ?_) ?_ (Nat.pos_of_ne_zero hlast) hexcl hmemI (fun o ho => ?_)
      (fun st v hv => ?_) hmemory
    · by_cases hoc : o = c
      · rw [hoc, update_self]
        exact .inl rfl
      · rw [update_of_ne hoc]
        exact hstates o
    · show update x.sharers c false o = true ↔ _
      rw [hrest o]
      by_cases hoc : o = c
      · rw [hoc, update_self]
        exact ⟨nofun, fun hne => absurd rfl hne.1⟩
      · rw [update_of_ne hoc, h.bits x hsf o]
        exact ⟨fun hne => ⟨hoc, hne⟩, fun hne => hne.2⟩
    · show x.numSharers - 1 = (List.finRange n).countP fun o => update x.sharers c false o = true
      rw [countP_remove hmine, h.count x hsf]
    · obtain ⟨hoc, ho⟩ := (hrest o).mp ho
      rw [update_of_ne hoc]
      exact h.copies o ho
    · obtain ⟨rfl, rfl⟩ := Prod.mk.inj (Option.some.inj hv)
      exact ⟨rfl, rfl⟩

/-! ## Runs -/

theorem Inv.step (hi : Inv g s) (hw : 0 < g.dWays) {a : Access n Val} (ha : s.Allowed a) : Inv g (s.step g a) := by
  cases a with
  | gets c line noexcl => exact (hi.gets hw ha noexcl).1
  | getx c line => exact (hi.getx hw).1
  | write c line v => exact hi.write ha v
  | put c line type =>
    cases type with
    | PUTX_KEEPEXCL => exact hi.put_keep hw ha
    | PUTS =>
      refine hi.put_evict hw nofun ?_ ?_ nofun
      · rcases ha with ha | ha <;> (rw [ha]; nofun)
      · intro hM
        rcases ha with ha | ha <;> (rw [ha] at hM; cases hM)
    | PUTX =>
      have ha : s.child c line = .M := ha
      exact hi.put_evict hw nofun (by rw [ha]; nofun) (fun _ => rfl) fun _ => ha

theorem inv_init (memory : Nat → Val) : Inv g (init memory : Ninc n Val) where
  placed := ⟨fun _ h => absurd rfl h, fun _ _ h => absurd rfl h⟩
  line l := by
    have hd : dCopy g (init memory : Ninc n Val) l = none := by
      refine dCopy_eq_none_iff.mpr (List.find?_eq_none.mpr fun _ _ => ?_)
      simp [init]
    unfold CoherentAt
    rw [hd]
    exact coherent_free (fun _ => rfl) nofun fun _ => rfl

theorem Inv.value (hi : Inv g s) (line : Nat) : s.memory line = s.latest line ∨
    (∃ c, s.child c line ≠ .I ∧ s.copy c line = s.latest line) ∨
    ∃ id, s.dLookup g line = some id ∧ (s.way id).data = s.latest line := by
  have h := hi.line line
  unfold CoherentAt at h
  by_cases hheld : ∃ c, s.child c line ≠ .I
  · obtain ⟨c, hc⟩ := hheld
    exact .inr (.inl ⟨c, hc, h.copies c hc⟩)
  · have hfree : ∀ c, s.child c line = .I := fun c => by_contra fun hc => hheld ⟨c, hc⟩
    have hnoM : ∀ c, s.child c line ≠ .M := fun c => by rw [hfree c]; nofun
    cases hd : s.dLookup g line with
    | some id =>
      refine .inr (.inr ⟨id, rfl, h.data (s.way id).state _ ?_ hnoM⟩)
      unfold dCopy
      rw [hd]
      rfl
    | none =>
      refine .inl (h.clean hnoM (fun x hx => ?_) fun _ v hv => ?_)
      · exact absurd (h.exists_holder hx) hheld
      · rw [dCopy_eq_none_iff.mpr hd] at hv
        cases hv

theorem memReqs_dropCopy (s : Ninc n Val) (did : Option Nat) : (s.dropCopy did).memReqs = s.memReqs := by
  cases did <;> rfl

theorem memReqs_dFill (g : Geometry) (s : Ninc n Val) (line : Nat) (st : MESIState) (v : Val) :
    (s.dFill g line st v).memReqs ≤ s.memReqs + 1 := by
  unfold dFill
  split
  · exact Nat.le_succ _
  · obtain ⟨-, -, -, -, -, hreqs, -⟩ := evict_cases s (findVictim s.way (Geometry.ways g line) (line % g.dSets * g.dWays))
    exact hreqs

theorem memReqs_getx (g : Geometry) (s : Ninc n Val) (c : Fin n) (line : Nat) : (s.getx g c line).memReqs ≤ s.memReqs + 1 := by
  have hcounted : ∀ (fromMem : Prop) [Decidable fromMem], (s.counted fromMem).memReqs ≤ s.memReqs + 1 := by
    intro fromMem _
    unfold counted
    split
    · exact Nat.le_refl _
    · exact Nat.le_succ _
  cases hsf : s.sf line with
  | some x =>
    rw [getx_of_entry hsf, memReqs_dropCopy]
    exact hcounted _
  | none =>
    rw [getx_of_no_entry hsf, memReqs_dropCopy]
    exact hcounted _

theorem memReqs_put (g : Geometry) (s : Ninc n Val) (c : Fin n) (line : Nat) (type : PutType) :
    (s.put g c line type).memReqs ≤ s.memReqs + 1 := by
  unfold put
  split
  · exact Nat.le_succ _
  · split
    · exact Nat.le_succ _
    · dsimp only
      split
      · exact memReqs_dFill g ((s.setChild c line _ _).setEntry line _) line _ _
      · exact memReqs_dFill g ((s.setChild c line _ _).setEntry line _) line _ _

/-- A read makes one request or one write-back: what comes from memory is not kept here. -/
theorem Inv.memReqs_gets (hi : Inv g s) (hw : 0 < g.dWays) (hc : s.child c line = .I) (noexcl : Bool) :
    (s.gets g c line noexcl).memReqs ≤ s.memReqs + 1 := by
  have h := hi.line line
  unfold CoherentAt at h
  cases hsf : s.sf line with
  | some x =>
    rw [hsf] at h
    have hmine : x.sharers c = false := by
      rw [Bool.eq_false_iff]
      exact fun hb => (h.bits x rfl c).mp hb hc
    cases hx : x.isExclusive with
    | true =>
      rw [gets_of_exclusive hsf (h.known x rfl) hmine hx]
      exact memReqs_dFill g (((s.invalidated line x.sharers .INVX).setEntry line _).setChild c line _ _) line _ _
    | false =>
      rw [gets_of_shared hsf (h.held x rfl) (h.known x rfl) hmine hx]
      exact memReqs_dFill g ((s.setEntry line _).setChild c line _ _) line _ _
  | none =>
    cases hd : s.dLookup g line with
    | some id =>
      rw [gets_of_copy hsf hd ((dLookup_iff hw hi.placed).mp hd).1]
      split
      · exact Nat.le_succ _
      · exact Nat.le_succ _
    | none =>
      rw [gets_of_memory hsf hd]
      exact Nat.le_refl _

theorem Inv.memReqs_step (hi : Inv g s) (hw : 0 < g.dWays) {a : Access n Val} (ha : s.Allowed a) :
    (s.step g a).memReqs ≤ s.memReqs + 1 := by
  cases a with
  | gets c line noexcl => exact hi.memReqs_gets hw ha noexcl
  | getx c line => exact memReqs_getx g s c line
  | write c line v => exact Nat.le_succ _
  | put c line type => exact memReqs_put g s c line type

/-- The line and the child of a request for data. -/
def Access.request : Access n Val → Option (Fin n × Nat)
  | .gets c line _ => some (c, line)
  | .getx c line => some (c, line)
  | _ => none

/-- The snoop filter knows the holders of a line, and a child with the line in E or M is the only one. -/
def Tracked (s : Ninc n Val) (line : Nat) : Prop :=
  ((∃ x, s.sf line = some x) ↔ ∃ c, s.child c line ≠ .I) ∧
  (∀ x, s.sf line = some x → (∀ c, x.sharers c = true ↔ s.child c line ≠ .I) ∧
    x.numSharers = (Finset.univ.filter fun c => s.child c line ≠ .I).card) ∧
  ∀ c, s.child c line = .E ∨ s.child c line = .M → (∀ c', s.child c' line ≠ .I → c' = c) ∧
    ∃ x, s.sf line = some x ∧ x.isExclusive = true

theorem Inv.tracked (hi : Inv g s) (line : Nat) : s.Tracked line := by
  have h := hi.line line
  unfold CoherentAt at h
  refine ⟨⟨fun hx => ?_, fun hc => ?_⟩, fun x hx => ⟨h.bits x hx, ?_⟩, fun c hc => ?_⟩
  · obtain ⟨x, hx⟩ := hx
    exact h.exists_holder hx
  · obtain ⟨c, hc⟩ := hc
    exact Option.ne_none_iff_exists'.mp fun hnone => hc (h.free hnone c)
  · rw [h.count x hx, List.countP_eq_length_filter, ← List.toFinset_card_of_nodup ((List.nodup_finRange n).filter _)]
    refine congrArg Finset.card (Finset.ext fun c => ?_)
    rw [List.mem_toFinset, List.mem_filter, Finset.mem_filter, decide_eq_true_eq, h.bits x hx c]
    exact ⟨fun hm => ⟨Finset.mem_univ c, hm.2⟩, fun hm => ⟨List.mem_finRange c, hm.2⟩⟩
  · obtain ⟨honly, x, hx, -⟩ := h.alone c hc
    obtain ⟨hone, hexcl⟩ := h.alone_count hx hc
    refine ⟨honly, x, hx, ?_⟩
    unfold SFEntry.isExclusive
    rw [hone, hexcl]
    rfl

/-- **The cache is coherent and loses no write.** After any accesses the snoop filter knows exactly the holders, a line in
both structures has one state, the latest value of every line is in memory or on chip; every request for data is served
with the latest value, and an access makes at most one request to memory. -/
theorem coherent_run (hw : 0 < g.dWays) (memory : Nat → Val) (as : List (Access n Val))
    (h : Along (step g) Allowed (init memory) as) :
    (∀ line, (as.foldl (step g) (init memory)).Tracked line) ∧
    (∀ line x id, (as.foldl (step g) (init memory)).sf line = some x →
      (as.foldl (step g) (init memory)).dLookup g line = some id →
      ((as.foldl (step g) (init memory)).way id).state = x.mem) ∧
    (∀ line, (as.foldl (step g) (init memory)).memory line = (as.foldl (step g) (init memory)).latest line ∨
      (∃ c, (as.foldl (step g) (init memory)).child c line ≠ .I ∧
        (as.foldl (step g) (init memory)).copy c line = (as.foldl (step g) (init memory)).latest line) ∨
      ∃ id, (as.foldl (step g) (init memory)).dLookup g line = some id ∧
        ((as.foldl (step g) (init memory)).way id).data = (as.foldl (step g) (init memory)).latest line) ∧
    ∀ a, (as.foldl (step g) (init memory)).Allowed a →
      (∀ c line, a.request = some (c, line) →
        ((as.foldl (step g) (init memory)).step g a).copy c line = (as.foldl (step g) (init memory)).latest line) ∧
      ((as.foldl (step g) (init memory)).step g a).memReqs ≤ (as.foldl (step g) (init memory)).memReqs + 1 := by
  have hi : Inv g (as.foldl (step g) (init memory)) := h.keeps (fun _ _ hi ha => hi.step hw ha) (inv_init memory)
  refine ⟨hi.tracked, fun line x id hx hd => ?_, hi.value, fun a ha => ⟨fun c line hreq => ?_, hi.memReqs_step hw ha⟩⟩
  · refine (hi.line line).same x _ (((as.foldl (step g) (init memory)).way id).data) hx ?_
    unfold dCopy
    rw [hd]
    rfl
  · cases a with
    | gets c' line' noexcl =>
      cases hreq
      exact (hi.gets hw ha noexcl).2
    | getx c' line' =>
      cases hreq
      exact (hi.getx hw).2
    | write c' line' v => cases hreq
    | put c' line' type => cases hreq

/-- A write, a write-back that keeps the line, another write, and a read by the other child. -/
theorem coherent_run_kept_line : (([.getx 0 5, .write 0 5 1, .put 0 5 .PUTX_KEEPEXCL, .write 0 5 2] :
    List (Access 2 Nat)).foldl (step ⟨1, 1⟩) (init fun _ => 0)).Tracked 5 ∧
    ((([.getx 0 5, .write 0 5 1, .put 0 5 .PUTX_KEEPEXCL, .write 0 5 2] : List (Access 2 Nat)).foldl (step ⟨1, 1⟩)
      (init fun _ => 0)).step ⟨1, 1⟩ (.gets 1 5 false)).copy 1 5 = 2 := by
  have h := coherent_run (g := ⟨1, 1⟩) (by decide) (fun _ => (0 : Nat))
    [.getx 0 5, .write 0 5 1, .put 0 5 .PUTX_KEEPEXCL, .write (0 : Fin 2) 5 2] ⟨.inl rfl, .inr rfl, rfl, .inl rfl, trivial⟩
  exact ⟨h.1 5, (h.2.2.2 (.gets 1 5 false) rfl).1 1 5 rfl⟩

end Pimid.Cache.Ninc
