import Mathlib.Data.Finset.Card
import Mathlib.Data.List.Induction
import Pimid.Mem.FirstTouch

/-!
# Runs of the first-touch table

What the steps of one thread leave to the others, and from it that every run keeps the
table's invariant: one slot and one entry for a page, one thread at work on a slot that is
claimed, and a touch index for every page that an interface places.
-/

namespace Pimid.Mem

open Function (update update_apply update_of_ne update_self)

variable {d : Device} {t : FtTable} {s s' : FtState} {c : FtCall} {pc : FtPc} {tid h n idx page : Nat}

/-! ## Steps that leave the table alone -/

theorem FtInv.goto (hs : FtInv d t s) (pc : FtPc) (hok : ThreadOk d t s pc) (hclaims : pc.claims = (s.pc tid).claims) :
    FtInv d t (s.goto tid pc) := by
  have hpc : ∀ tid', ((s.goto tid pc).pc tid').claims = (s.pc tid').claims := by
    intro tid'
    show (update s.pc tid pc tid').claims = _
    rw [update_apply]
    split
    · next heq => rw [heq, hclaims]
    · rfl
  refine ⟨hs.path, hs.free, fun tid' => ?_, fun h hk hu => ?_, fun tid₁ tid₂ h h₁ h₂ => ?_, hs.filled, hs.slot, hs.pages,
    hs.indices, hs.returned⟩
  · show ThreadOk d t s (update s.pc tid pc tid')
    rw [update_apply]
    split
    · exact hok
    · exact hs.thread tid'
  · obtain ⟨tid', htid⟩ := hs.owned h hk hu
    exact ⟨tid', by rw [hpc, htid]⟩
  · rw [hpc] at h₁ h₂
    exact hs.alone tid₁ tid₂ h h₁ h₂

theorem FtInv.ret (hs : FtInv d t s) (hclaims : (s.pc tid).claims = none) {x : FtReturn} (hx : ReturnOk d s x) :
    FtInv d t (s.ret tid x) := by
  have hgo : FtInv d t (s.goto tid .idle) := hs.goto .idle trivial hclaims.symm
  refine ⟨hgo.path, hgo.free, hgo.thread, hgo.owned, hgo.alone, hgo.filled, hgo.slot, hgo.pages, hgo.indices,
    fun y hy => ?_⟩
  rcases List.mem_append.mp hy with hy | hy
  · exact hs.returned y hy
  · rw [List.mem_singleton.mp hy]
    exact hx

theorem FtInv.entry (hs : FtInv d t s) (hk : s.key h = page + 1) (hu : s.unit h ≠ 0) :
    ∃ r ∈ s.placed, r.slot = h ∧ r.page = page ∧ Holds d s r := by
  obtain ⟨r, hr, rfl, hhold⟩ := hs.filled h hu
  have := hs.slot r hr
  exact ⟨r, hr, rfl, by omega, hhold⟩

theorem newEntry_noRow (hrow : d.slotRowBytes = 0) (me idx : Nat) :
    (d.newEntry me idx).seq = 0 ∧ (d.newEntry me idx).cov = 0 := by
  unfold Device.newEntry
  dsimp only
  split
  · rw [if_neg (by omega)]
    exact ⟨rfl, rfl⟩
  · exact ⟨rfl, rfl⟩

theorem newEntry_notPlaced {me : Nat} (h : d.rowPlaced me idx = false) :
    (d.newEntry me idx).seq = 0 ∧ (d.newEntry me idx).cov = 0 := by
  unfold Device.newEntry
  unfold Device.rowPlaced at h
  dsimp only
  split
  · next start stop heq =>
    rw [heq] at h
    dsimp only at h
    rw [if_neg (by rw [heq]; exact of_decide_eq_false h)]
    exact ⟨rfl, rfl⟩
  · exact ⟨rfl, rfl⟩

/-! ## A slot is claimed -/

theorem FtInv.swap (hs : FtInv d t s) (hpc : s.pc tid = .swapKey c n) (hfree : s.key (t.slotAt c.page n) = 0) :
    FtInv d t ((s.putKey (t.slotAt c.page n) (c.page + 1)).goto tid (.fetchSeq c (t.slotAt c.page n))) := by
  obtain ⟨hn, hpass, hcalled⟩ : n < t.slots ∧ Passed t s c.page n ∧ c.page ∈ s.called := by
    have := hs.thread tid
    rwa [hpc] at this
  obtain ⟨hunit, hseq, hcov⟩ := hs.free _ hfree
  generalize hslot : t.slotAt c.page n = h₀ at hfree hunit hseq hcov
  have hkey : ∀ h, ((s.putKey h₀ (c.page + 1)).goto tid (.fetchSeq c h₀)).key h =
      if h = h₀ then c.page + 1 else s.key h := fun h => update_apply ..
  have hpcs : ∀ tid', ((s.putKey h₀ (c.page + 1)).goto tid (.fetchSeq c h₀)).pc tid' =
      if tid' = tid then .fetchSeq c h₀ else s.pc tid' := fun _ => update_apply ..
  generalize hs' : (s.putKey h₀ (c.page + 1)).goto tid (.fetchSeq c h₀) = s' at hkey hpcs
  have hg : Grows s s' := by
    subst hs'
    refine ⟨fun h hne => ?_, fun _ _ => ⟨rfl, rfl, rfl⟩, fun _ hr => hr, fun _ hp => hp⟩
    rw [hkey h, if_neg fun heq => hne (by rw [heq]; exact hfree)]
  have hsame : ∀ h, Undisturbed s s' h := by
    subst hs'
    exact fun h => ⟨⟨rfl, rfl, rfl⟩, fun _ hr _ => hr⟩
  have hunits : s'.unit = s.unit ∧ s'.seq = s.seq ∧ s'.cov = s.cov ∧ s'.placed = s.placed ∧ s'.called = s.called ∧
      s'.ftSeq = s.ftSeq ∧ s'.returned = s.returned := by
    subst hs'
    exact ⟨rfl, rfl, rfl, rfl, rfl, rfl, rfl⟩
  clear hs'
  obtain ⟨hu, hsq, hcv, hpl, hca, hfs, hre⟩ := hunits
  -- the page was nowhere: its slot would be on the path before a free one
  have hnew : ∀ h, s.key h ≠ c.page + 1 := by
    intro h hk
    obtain ⟨pg, m, -, hpg, hat, hpass'⟩ := hs.path h (by omega)
    obtain rfl : pg = c.page := by omega
    rcases Nat.lt_trichotomy m n with hlt | rfl | hlt
    · exact (hpass m hlt).2 (hat ▸ hk)
    · rw [hat, hslot, hfree] at hk
      omega
    · exact (hpass' n hlt).1 (hslot ▸ hfree)
  have hnone : ∀ r ∈ s.placed, r.page ≠ c.page := by
    intro r hr heq
    exact hnew r.slot (by rw [hs.slot r hr, heq])
  refine ⟨fun h hk => ?_, fun h hk => ?_, fun tid' => ?_, fun h hk hz => ?_, fun tid₁ tid₂ h h₁ h₂ => ?_, fun h hz => ?_,
    fun r hr => ?_, ?_, fun me => ?_, fun x hx => ?_⟩
  · rw [hkey h] at hk ⊢
    split
    · next heq => exact ⟨c.page, n, hg.called _ hcalled, rfl, heq.trans hslot.symm, hpass.mono hg⟩
    · next hne =>
      rw [if_neg hne] at hk
      obtain ⟨pg, m, hc, hpg, hat, hp⟩ := hs.path h hk
      exact ⟨pg, m, hg.called _ hc, hpg, hat, hp.mono hg⟩
  · rw [hu, hsq, hcv]
    rw [hkey h] at hk
    split at hk
    · cases hk
    · exact hs.free h hk
  · rw [hpcs tid']
    split
    · refine ⟨⟨by rw [hkey, if_pos rfl], ?_, ?_, ?_⟩, fun r hr => hnone r (by rwa [hpl] at hr)⟩
      · rw [hu, hunit]
      · rw [hsq, hseq]
      · rw [hcv, hcov]
    · exact (hs.thread tid').mono hg fun h _ => hsame h
  · by_cases heq : h = h₀
    · exact ⟨tid, by rw [hpcs, if_pos rfl, heq]; rfl⟩
    · rw [hkey, if_neg heq] at hk
      rw [hu] at hz
      obtain ⟨tid', htid⟩ := hs.owned h hk hz
      refine ⟨tid', ?_⟩
      rw [hpcs, if_neg fun he => by rw [he, hpc] at htid; cases htid]
      exact htid
  · -- no one else has claimed a slot that was free
    have hother : ∀ tid', (s.pc tid').claims = some h → h ≠ h₀ := by
      intro tid' hc heq
      exact ((hs.thread tid').claimed hc).1 (heq ▸ hfree)
    rw [hpcs] at h₁ h₂
    split at h₁
    · next heq₁ =>
      obtain rfl : h₀ = h := Option.some.inj h₁
      split at h₂
      · next heq₂ => rw [heq₁, heq₂]
      · exact absurd rfl (hother tid₂ h₂)
    · split at h₂
      · obtain rfl : h₀ = h := Option.some.inj h₂
        exact absurd rfl (hother tid₁ h₁)
      · exact hs.alone tid₁ tid₂ h h₁ h₂
  · rw [hu] at hz
    obtain ⟨r, hr, hat, hhold⟩ := hs.filled h hz
    refine ⟨r, hpl ▸ hr, hat, ?_⟩
    unfold Holds at hhold ⊢
    rwa [hu, hsq, hcv]
  · rw [hpl] at hr
    have hk := hs.slot r hr
    rw [hg.key _ (by omega)]
    exact hk
  · rw [hpl]
    exact hs.pages
  · rw [hpl, hfs]
    exact hs.indices me
  · rw [hre] at hx
    obtain ⟨r, hr, hpage, hz, hrest⟩ := hs.returned x hx
    exact ⟨r, hpl ▸ hr, hpage, by rwa [hu], hrest⟩

/-! ## Steps at a claimed slot -/

theorem ReturnOk.mono (hg : Grows s s') {x : FtReturn} (hx : ReturnOk d s x) : ReturnOk d s' x := by
  obtain ⟨r, hr, hpage, hz, hrest⟩ := hx
  exact ⟨r, hg.placed r hr, hpage, by rwa [(hg.unit _ hz).1], hrest⟩

/-- What a step of the thread that has claimed slot `h₀` may change. -/
structure AtSlot (s s' : FtState) (tid h₀ : Nat) (pc : FtPc) : Prop where
  key : s'.key = s.key
  called : s'.called = s.called
  elsewhere : ∀ h, h ≠ h₀ → s'.unit h = s.unit h ∧ s'.seq h = s.seq h ∧ s'.cov h = s.cov h
  pc : ∀ tid', s'.pc tid' = if tid' = tid then pc else s.pc tid'
  placed : ∀ r ∈ s.placed, r ∈ s'.placed
  new : ∀ r ∈ s'.placed, r ∈ s.placed ∨ r.slot = h₀ ∧ s.key h₀ = r.page + 1

/-- The slot is kept, or it is filled with the entry of a placed page. -/
def KeptOrFilled (d : Device) (s' : FtState) (h₀ : Nat) (pc : FtPc) : Prop :=
  pc.claims = some h₀ ∧ s'.unit h₀ = 0 ∨ pc.claims = none ∧ ∃ r ∈ s'.placed, r.slot = h₀ ∧ Holds d s' r

theorem AtSlot.grows {h₀ : Nat} (ha : AtSlot s s' tid h₀ pc) (hz : s.unit h₀ = 0) : Grows s s' := by
  refine ⟨fun h _ => congrFun ha.key h, fun h hne => ha.elsewhere h ?_, ha.placed, fun pg hp => ha.called ▸ hp⟩
  intro heq
  exact hne (heq ▸ hz)

/-- **A step at a claimed slot keeps the invariant.** -/
theorem FtInv.atSlot {h₀ : Nat} (hs : FtInv d t s) (hclaim : (s.pc tid).claims = some h₀) (ha : AtSlot s s' tid h₀ pc)
    (hok : ThreadOk d t s' pc) (hnext : KeptOrFilled d s' h₀ pc) (hpages : (s'.placed.map (·.page)).Nodup)
    (hindices : ∀ me, (s'.placed.filter (·.me = me)).map (·.idx) = List.range (s'.ftSeq me))
    (hret : ∀ x ∈ s'.returned, x ∈ s.returned ∨ ReturnOk d s' x) : FtInv d t s' := by
  obtain ⟨hkey₀, hzero⟩ := (hs.thread tid).claimed hclaim
  have hg := ha.grows hzero
  have hfilledNe : (∃ r ∈ s'.placed, r.slot = h₀ ∧ Holds d s' r) → s'.unit h₀ ≠ 0 := by
    rintro ⟨r, -, hat, hunit, -⟩
    rw [← hat, hunit]
    exact Nat.succ_ne_zero _
  refine ⟨fun h hk => ?_, fun h hk => ?_, fun tid' => ?_, fun h hk hz => ?_, fun tid₁ tid₂ h h₁ h₂ => ?_, fun h hz => ?_,
    fun r hr => ?_, hpages, hindices, fun x hx => ?_⟩
  · rw [ha.key] at hk ⊢
    obtain ⟨pg, m, hc, hpg, hat, hp⟩ := hs.path h hk
    exact ⟨pg, m, ha.called ▸ hc, hpg, hat, hp.mono hg⟩
  · rw [ha.key] at hk
    obtain ⟨hu, hsq, hcv⟩ := ha.elsewhere h fun heq => hkey₀ (heq ▸ hk)
    rw [hu, hsq, hcv]
    exact hs.free h hk
  · rw [ha.pc]
    split
    · exact hok
    · next hne =>
      refine (hs.thread tid').mono hg fun h hc => ?_
      -- another thread's claim is another slot, of another page
      have hh : h ≠ h₀ := fun heq => hne (hs.alone tid' tid h hc (by rw [heq]; exact hclaim))
      refine ⟨ha.elsewhere h hh, fun r hr heq => ?_⟩
      rcases ha.new r hr with hold | ⟨-, hnew⟩
      · exact hold
      · exact absurd (hs.key_inj heq.symm hnew) hh
  · by_cases heq : h = h₀
    · rcases hnext with ⟨hc, -⟩ | ⟨-, hfill⟩
      · exact ⟨tid, by rw [ha.pc, if_pos rfl, heq]; exact hc⟩
      · exact absurd (heq ▸ hz) (hfilledNe hfill)
    · rw [ha.key] at hk
      rw [(ha.elsewhere h heq).1] at hz
      obtain ⟨tid', htid⟩ := hs.owned h hk hz
      refine ⟨tid', ?_⟩
      rw [ha.pc, if_neg fun he => heq ?_]
      · exact htid
      · rw [he, hclaim] at htid
        exact (Option.some.inj htid).symm
  · have hmine : pc.claims = some h → h = h₀ := by
      intro hc
      rcases hnext with ⟨hc', -⟩ | ⟨hc', -⟩
      · rw [hc'] at hc
        exact (Option.some.inj hc).symm
      · rw [hc'] at hc
        cases hc
    have hother : ∀ tid', pc.claims = some h → (s.pc tid').claims = some h → tid' = tid := by
      intro tid' hc hc'
      exact hs.alone tid' tid h hc' (by rw [hmine hc]; exact hclaim)
    rw [ha.pc] at h₁ h₂
    split at h₁
    · next heq₁ =>
      split at h₂
      · next heq₂ => rw [heq₁, heq₂]
      · exact heq₁.trans (hother tid₂ h₁ h₂).symm
    · split at h₂
      · next heq₂ => exact (hother tid₁ h₂ h₁).trans heq₂.symm
      · exact hs.alone tid₁ tid₂ h h₁ h₂
  · by_cases heq : h = h₀
    · rcases hnext with ⟨-, hu⟩ | ⟨-, r, hr, hat, hhold⟩
      · exact absurd (heq ▸ hu) hz
      · exact ⟨r, hr, hat.trans heq.symm, hhold⟩
    · obtain ⟨hu, hsq, hcv⟩ := ha.elsewhere h heq
      rw [hu] at hz
      obtain ⟨r, hr, rfl, hhold⟩ := hs.filled h hz
      refine ⟨r, ha.placed r hr, rfl, ?_⟩
      unfold Holds at hhold ⊢
      rwa [hu, hsq, hcv]
  · rw [ha.key]
    rcases ha.new r hr with hold | ⟨hat, hk⟩
    · exact hs.slot r hold
    · rw [hat, hk]
  · rcases hret x hx with hold | hnew
    · exact (hs.returned x hold).mono hg
    · exact hnew

theorem FtInv.place (hs : FtInv d t s) (pc : FtPc) (hpc : s.pc tid = .fetchSeq c h)
    (hclaims : pc.claims = some h) (hok : ThreadOk d t ((s.place c h).goto tid pc) pc) :
    FtInv d t ((s.place c h).goto tid pc) := by
  obtain ⟨⟨hkey, hunit, -, -⟩, hnone⟩ : Claimed s c h 0 0 ∧ ∀ r ∈ s.placed, r.page ≠ c.page := by
    have := hs.thread tid
    rwa [hpc] at this
  have hat : AtSlot s ((s.place c h).goto tid pc) tid h pc := by
    refine ⟨rfl, rfl, fun _ _ => ⟨rfl, rfl, rfl⟩, fun _ => update_apply .., fun r hr => ?_, fun r hr => ?_⟩
    · exact List.mem_append.mpr (.inl hr)
    · rcases List.mem_append.mp hr with hr | hr
      · exact .inl hr
      · rw [List.mem_singleton.mp hr]
        exact .inr ⟨rfl, hkey⟩
  refine hs.atSlot (by rw [hpc]; rfl) hat hok (.inl ⟨hclaims, hunit⟩) ?_ (fun me => ?_) fun x hx => .inl hx
  · show ((s.placed ++ [_]).map FtPlaced.page).Nodup
    rw [List.map_append, List.nodup_append]
    refine ⟨hs.pages, List.nodup_singleton _, fun a ha b hb => ?_⟩
    obtain ⟨r, hr, rfl⟩ := List.mem_map.mp ha
    rw [List.mem_singleton.mp hb]
    exact hnone r hr
  · show ((s.placed ++ [_]).filter _).map _ = List.range (update s.ftSeq c.me (s.ftSeq c.me + 1) me)
    rw [List.filter_append, List.map_append, hs.indices me, update_apply]
    by_cases heq : c.me = me
    · rw [if_pos heq.symm, List.filter_cons_of_pos (by exact decide_eq_true heq), ← heq, List.range_succ]
      rfl
    · rw [if_neg (Ne.symm heq), List.filter_cons_of_neg (by simpa using heq)]
      exact List.append_nil _

/-- A store of the touch index or the coverage at the claimed slot. -/
theorem FtInv.store (hs : FtInv d t s) (pc : FtPc) (hclaim : (s.pc tid).claims = some h) (hclaims : pc.claims = some h)
    {s₁ : FtState} (hkey : s₁.key = s.key) (hunit : s₁.unit = s.unit) (hpcs : s₁.pc = s.pc) (hplaced : s₁.placed = s.placed)
    (hcalled : s₁.called = s.called) (hseq : s₁.ftSeq = s.ftSeq) (hret : s₁.returned = s.returned)
    (helse : ∀ h', h' ≠ h → s₁.seq h' = s.seq h' ∧ s₁.cov h' = s.cov h') (hok : ThreadOk d t (s₁.goto tid pc) pc) :
    FtInv d t (s₁.goto tid pc) := by
  have hat : AtSlot s (s₁.goto tid pc) tid h pc := by
    refine ⟨hkey, hcalled, fun h' hne => ⟨congrFun hunit h', helse h' hne⟩, fun tid' => ?_, fun r hr => hplaced ▸ hr,
      fun r hr => .inl (hplaced ▸ hr)⟩
    show update s₁.pc tid pc tid' = _
    rw [update_apply, hpcs]
  have hzero : (s₁.goto tid pc).unit h = 0 := (congrFun hunit h).trans ((hs.thread tid).claimed hclaim).2
  refine hs.atSlot hclaim hat hok (.inl ⟨hclaims, hzero⟩) ?_ (fun me => ?_) fun x hx => .inl (hret ▸ hx)
  · show (s₁.placed.map _).Nodup
    rw [hplaced]
    exact hs.pages
  · show (s₁.placed.filter _).map _ = List.range (s₁.ftSeq me)
    rw [hplaced, hseq]
    exact hs.indices me

theorem FtInv.storeUnit (hs : FtInv d t s) (hpc : s.pc tid = .storeUnit c h idx) :
    FtInv d t ((s.putUnit h ((d.newEntry c.me idx).unit + 1)).ret tid
      (c.report (d.newEntry c.me idx).unit (d.newEntry c.me idx))) := by
  obtain ⟨⟨hkey, hunit, hseq, hcov⟩, hmem⟩ :
      Claimed s c h (d.newEntry c.me idx).seq (d.newEntry c.me idx).cov ∧ ⟨c.me, c.page, h, idx⟩ ∈ s.placed := by
    have := hs.thread tid
    rwa [hpc] at this
  have hput : ∀ h', (s.putUnit h ((d.newEntry c.me idx).unit + 1)).unit h' =
      if h' = h then (d.newEntry c.me idx).unit + 1 else s.unit h' := fun _ => update_apply ..
  have hhold : Holds d ((s.putUnit h ((d.newEntry c.me idx).unit + 1)).ret tid
      (c.report (d.newEntry c.me idx).unit (d.newEntry c.me idx))) ⟨c.me, c.page, h, idx⟩ :=
    ⟨(hput h).trans (if_pos rfl), hseq, hcov⟩
  refine hs.atSlot (by rw [hpc]; rfl) ⟨rfl, rfl, fun h' hne => ⟨(hput h').trans (if_neg hne), rfl, rfl⟩,
    fun _ => update_apply .., fun _ hr => hr, fun _ hr => .inl hr⟩ trivial
    (.inr ⟨rfl, ⟨c.me, c.page, h, idx⟩, hmem, rfl, hhold⟩) hs.pages hs.indices fun x hx => ?_
  rcases List.mem_append.mp hx with hx | hx
  · exact .inl hx
  · right
    rw [List.mem_singleton.mp hx]
    refine ⟨⟨c.me, c.page, h, idx⟩, hmem, rfl, ?_, rfl, fun hask => ?_⟩
    · rw [hhold.1]
      exact Nat.succ_ne_zero _
    · have hask : c.ask = true := hask
      exact ⟨if_pos hask, if_pos hask⟩

/-! ## One step -/

theorem FtInv.step (hs : FtInv d t s) (tid : Nat) : FtInv d t (ftStep d t s tid) := by
  have hok := hs.thread tid
  unfold ftStep
  split
  · exact hs
  · exact hs
  · -- loadKey
    next c n hpc =>
    rw [hpc] at hok
    obtain ⟨hn, hpass, hcalled⟩ := hok
    have hclaims : (s.pc tid).claims = none := by rw [hpc]; rfl
    split
    · next hfull => exact hs.goto (.full c) ⟨hfull ▸ hpass, hcalled⟩ hclaims.symm
    · next hlt =>
      have hn : n < t.slots := Nat.lt_of_le_of_ne hn hlt
      split
      · next hk => exact hs.goto (.loadUnit c _) hk hclaims.symm
      · next hother =>
        split
        · next hne => exact hs.goto (.loadKey c (n + 1)) ⟨hn, hpass.succ hne hother, hcalled⟩ hclaims.symm
        · split
          · exact hs.goto .idle trivial hclaims.symm
          · exact hs.goto (.swapKey c n) ⟨hn, hpass, hcalled⟩ hclaims.symm
  · -- swapKey
    next c n hpc =>
    rw [hpc] at hok
    obtain ⟨hn, hpass, hcalled⟩ := hok
    have hclaims : (s.pc tid).claims = none := by rw [hpc]; rfl
    split
    · next hfree => exact hs.swap hpc hfree
    · next hne =>
      split
      · next hk => exact hs.goto (.loadUnit c _) hk hclaims.symm
      · next hother => exact hs.goto (.loadKey c (n + 1)) ⟨hn, hpass.succ hne hother, hcalled⟩ hclaims.symm
  · -- loadUnit
    next c h hpc =>
    rw [hpc] at hok
    have hk : s.key h = c.page + 1 := hok
    have hclaims : (s.pc tid).claims = none := by rw [hpc]; rfl
    split
    · exact hs
    · next hu =>
      split
      · refine hs.goto (.loadSeq c h _) ⟨hk, ?_⟩ hclaims.symm
        omega
      · next hno =>
        refine hs.ret hclaims ?_
        obtain ⟨r, hr, hat, hpage, hunit, -, -⟩ := hs.entry hk hu
        refine ⟨r, hr, hpage, by rwa [hat], ?_, fun hask => ?_⟩
        · show s.unit h - 1 = _
          rw [← hat, hunit, Nat.add_sub_cancel]
        · have hrow : d.slotRowBytes = 0 := by
            have hask : c.ask = true := hask
            simpa [hask] using hno
          obtain ⟨hsq, hcv⟩ := newEntry_noRow hrow r.me r.idx
          exact ⟨hsq.symm, hcv.symm⟩
  · -- loadSeq
    next c h u hpc =>
    rw [hpc] at hok
    exact hs.goto (.loadCov c h u _) ⟨hok.1, hok.2, rfl⟩ (by rw [hpc]; rfl)
  · -- loadCov
    next c h u sq hpc =>
    rw [hpc] at hok
    obtain ⟨hk, hu, hsq⟩ := hok
    refine hs.ret (by rw [hpc]; rfl) ?_
    obtain ⟨r, hr, hat, hpage, hunit, hseq, hcov⟩ := hs.entry hk (by omega)
    rw [hat] at hunit hseq hcov
    refine ⟨r, hr, hpage, by rw [hat]; omega, ?_, fun _ => ⟨hsq.symm.trans hseq, hcov⟩⟩
    show u = _
    omega
  · -- fetchSeq
    next c h hpc =>
    rw [hpc] at hok
    obtain ⟨⟨hk, hu, hsq, hcv⟩, hnone⟩ := hok
    have hmem : ⟨c.me, c.page, h, s.ftSeq c.me⟩ ∈ (s.place c h).placed :=
      List.mem_append.mpr (.inr List.mem_cons_self)
    split
    · exact hs.place (.storeSeq c h _) hpc rfl ⟨⟨hk, hu, hsq, hcv⟩, hmem⟩
    · next hrow =>
      obtain ⟨hsq', hcv'⟩ := newEntry_notPlaced (Bool.not_eq_true _ ▸ hrow)
      exact hs.place (.storeUnit c h _) hpc rfl ⟨⟨hk, hu, hsq.trans hsq'.symm, hcv.trans hcv'.symm⟩, hmem⟩
  · -- storeSeq
    next c h idx hpc =>
    rw [hpc] at hok
    obtain ⟨⟨hk, hu, -, hcv⟩, hmem⟩ := hok
    refine hs.store (.storeCov c h idx) (by rw [hpc]; rfl) rfl rfl rfl rfl rfl rfl rfl rfl
      (fun h' hne => ⟨update_of_ne hne .., rfl⟩) ⟨⟨hk, hu, update_self .., hcv⟩, hmem⟩
  · -- storeCov
    next c h idx hpc =>
    rw [hpc] at hok
    obtain ⟨⟨hk, hu, hsq, -⟩, hmem⟩ := hok
    refine hs.store (.storeUnit c h idx) (by rw [hpc]; rfl) rfl rfl rfl rfl rfl rfl rfl rfl
      (fun h' hne => ⟨rfl, update_of_ne hne ..⟩) ⟨⟨hk, hu, hsq, update_self ..⟩, hmem⟩
  · -- storeUnit
    next c h idx hpc => exact hs.storeUnit hpc

theorem FtInv.call (hs : FtInv d t s) (hpc : s.pc tid = .idle) (c : FtCall) :
    FtInv d t ((FtAction.call tid c).act d t s) := by
  have hg : Grows s { s with called := s.called ++ [c.page] } :=
    ⟨fun _ _ => rfl, fun _ _ => ⟨rfl, rfl, rfl⟩, fun _ hr => hr, fun _ hp => List.mem_append.mpr (.inl hp)⟩
  have hcalled : FtInv d t { s with called := s.called ++ [c.page] } := by
    refine ⟨fun h hk => ?_, hs.free, fun tid' => ?_, hs.owned, hs.alone, hs.filled, hs.slot, hs.pages, hs.indices,
      hs.returned⟩
    · obtain ⟨pg, n, hc, hrest⟩ := hs.path h hk
      exact ⟨pg, n, hg.called pg hc, hrest⟩
    · exact (hs.thread tid').mono hg fun h _ => ⟨⟨rfl, rfl, rfl⟩, fun _ hr _ => hr⟩
  have hnext := @FtInv.goto _ _ _ tid hcalled (.loadKey c 0)
    ⟨Nat.zero_le _, fun j hj => absurd hj (Nat.not_lt_zero j), List.mem_append.mpr (.inr List.mem_cons_self)⟩
    (by show none = (s.pc tid).claims; rw [hpc]; rfl)
  show FtInv d t (if s.pc tid = .idle then _ else s)
  rw [if_pos hpc]
  exact hnext

theorem FtInv.act (hs : FtInv d t s) (a : FtAction) : FtInv d t (a.act d t s) := by
  cases a with
  | call tid c =>
    by_cases hpc : s.pc tid = .idle
    · exact hs.call hpc c
    · show FtInv d t (if s.pc tid = .idle then _ else s)
      rwa [if_neg hpc]
  | step tid => exact hs.step tid

/-! ## Every run -/

theorem FtInv.init (d : Device) (t : FtTable) : FtInv d t {} := by
  refine ⟨fun h hk => absurd rfl hk, fun _ _ => ⟨rfl, rfl, rfl⟩, fun _ => trivial, fun h hk => absurd rfl hk,
    (fun _ _ _ hc => nomatch hc), fun h hu => absurd rfl hu, fun _ hr => absurd hr List.not_mem_nil, List.nodup_nil,
    fun _ => rfl, fun _ hx => absurd hx List.not_mem_nil⟩

theorem FtInv.run (d : Device) (t : FtTable) (acts : List FtAction) : FtInv d t (runFt d t acts) :=
  Along.keeps (fun _ a hs _ => hs.act a) (.init d t) (along_of_forall (P := fun _ _ => True) (fun _ _ => trivial) _ acts)

theorem ftStep_key (s : FtState) (tid : Nat) (hk : s.key h ≠ 0) : (ftStep d t s tid).key h = s.key h := by
  unfold ftStep
  split
  · rfl
  · rfl
  · repeat' split
    all_goals rfl
  · split
    · next c n _ hfree =>
      show update s.key (t.slotAt c.page n) (c.page + 1) h = s.key h
      rw [update_of_ne]
      intro heq
      exact hk (by rw [heq]; exact hfree)
    · split <;> rfl
  · repeat' split
    all_goals rfl
  · rfl
  · rfl
  · split <;> rfl
  · rfl
  · rfl
  · rfl

theorem act_key (a : FtAction) (s : FtState) (hk : s.key h ≠ 0) : (a.act d t s).key h = s.key h := by
  cases a with
  | call tid c =>
    show (if s.pc tid = .idle then _ else s).key h = s.key h
    split <;> rfl
  | step tid => exact ftStep_key s tid hk

theorem run_key (acts : List FtAction) (s : FtState) (hk : s.key h ≠ 0) :
    (acts.foldl (FtAction.act d t) s).key h = s.key h := by
  induction acts generalizing s with
  | nil => rfl
  | cons a acts ih =>
    have hstep := act_key (d := d) (t := t) a s hk
    rw [List.foldl_cons, ih _ (by rwa [hstep]), hstep]

theorem ftStep_called (s : FtState) (tid : Nat) : (ftStep d t s tid).called = s.called := by
  unfold ftStep
  split <;> (repeat' split) <;> rfl

theorem run_called (acts : List FtAction) : ∀ pg ∈ (runFt d t acts).called, pg ∈ pagesOf acts := by
  unfold runFt
  induction acts using List.reverseRecOn with
  | nil => exact fun pg h => absurd h List.not_mem_nil
  | append_singleton acts a ih =>
    intro pg hpg
    rw [List.foldl_concat] at hpg
    unfold pagesOf
    rw [List.filterMap_append]
    cases a with
    | call tid c =>
      have hpg : pg ∈ (if (acts.foldl (FtAction.act d t) {}).pc tid = .idle then
        { (acts.foldl (FtAction.act d t) {}).goto tid (.loadKey c 0) with
          called := (acts.foldl (FtAction.act d t) {}).called ++ [c.page] }
        else acts.foldl (FtAction.act d t) {}).called := hpg
      split at hpg
      · rcases List.mem_append.mp hpg with hold | hnew
        · exact List.mem_append.mpr (.inl (ih pg hold))
        · exact List.mem_append.mpr (.inr hnew)
      · exact List.mem_append.mpr (.inl (ih pg hpg))
    | step tid =>
      have hpg : pg ∈ (ftStep d t (acts.foldl (FtAction.act d t) {}) tid).called := hpg
      rw [ftStep_called] at hpg
      exact List.mem_append.mpr (.inl (ih pg hpg))

theorem exists_slotAt (t : FtTable) (page : Nat) (hh : h < t.slots) : ∃ j < t.slots, t.slotAt page j = h := by
  obtain ⟨c, ⟨⟨hle, hlt⟩, hmod⟩, -⟩ := existsUnique_mod hh (t.hash page)
  refine ⟨c - t.hash page, by omega, ?_⟩
  unfold FtTable.slotAt
  rw [Nat.add_sub_cancel' hle, hmod]

/-- A page that finds no slot sees as many other pages as there are slots. -/
theorem FtInv.full (hs : FtInv d t s) (hfull : s.pc tid = .full c) : t.slots ≤ s.called.toFinset.card := by
  obtain ⟨hpass, -⟩ : Passed t s c.page t.slots ∧ c.page ∈ s.called := by
    have := hs.thread tid
    rwa [hfull] at this
  have hused : ∀ h, h < t.slots → s.key h ≠ 0 := by
    intro h hh
    obtain ⟨j, hj, rfl⟩ := exists_slotAt t c.page hh
    exact (hpass j hj).1
  have hpage : ∀ h, h < t.slots → s.key h - 1 ∈ s.called ∧ s.key h = s.key h - 1 + 1 := by
    intro h hh
    obtain ⟨pg, n, hc, hk, -⟩ := hs.path h (hused h hh)
    rw [hk]
    exact ⟨hc, rfl⟩
  calc t.slots = (Finset.range t.slots).card := (Finset.card_range _).symm
    _ ≤ s.called.toFinset.card := by
      refine Finset.card_le_card_of_injOn (fun h => s.key h - 1) (fun h hh => ?_) fun h hh h' hh' heq => ?_
      · exact List.mem_toFinset.mpr (hpage h (Finset.mem_range.mp hh)).1
      · have hk := (hpage h (Finset.mem_range.mp hh)).2
        have hk' := (hpage h' (Finset.mem_range.mp hh')).2
        have heq : s.key h - 1 = s.key h' - 1 := heq
        exact hs.key_inj hk (by rw [hk', heq])

/-- Where the block layout puts the `idx`-th page of an interface. -/
def blockUnit (d : Device) (me idx : Nat) : Nat :=
  (d.coverage me).unitAt (Device.blockUnitOf idx d.ppu (d.coverage me).covN)

theorem newEntry_block (hrow : d.slotRowBytes = 0) (me idx : Nat) : (d.newEntry me idx).unit = blockUnit d me idx := by
  unfold Device.newEntry blockUnit
  dsimp only
  split
  · rw [if_neg (by omega)]
  · rfl

/-- **The first-touch table under any interleaving.** With fewer pages than slots no call
fails to find one. A page has one slot and keeps it, and calls for it agree. An interface's
pages have the touch indices from 0 on, which say their units. Who spins on a slot waits for
a thread that has claimed it and not filled it yet. -/
theorem first_touch (d : Device) (acts : List FtAction) (hpages : (pagesOf acts).toFinset.card < ftTable.slots) :
    let s := runFt d ftTable acts
    (∀ tid c, s.pc tid ≠ .full c) ∧
      (∀ h h' page, s.key h = page + 1 → s.key h' = page + 1 → h = h') ∧
      (∀ x ∈ s.returned, ∃ h, s.key h = x.page + 1 ∧ s.unit h = x.unit + 1) ∧
      (∀ x ∈ s.returned, ∀ y ∈ s.returned, x.page = y.page →
        x.unit = y.unit ∧ (x.ask = true → y.ask = true → x.seq = y.seq ∧ x.cov = y.cov)) ∧
      (∀ me, (s.placed.filter (·.me = me)).map (·.idx) = List.range (s.placed.filter (·.me = me)).length) ∧
      (s.placed.map (·.page)).Nodup ∧
      (∀ x ∈ s.returned, ∃ r ∈ s.placed, r.page = x.page ∧ x.unit = (d.newEntry r.me r.idx).unit ∧
        (d.slotRowBytes = 0 → x.unit = blockUnit d r.me r.idx)) ∧
      (∀ later h, s.key h ≠ 0 → (runFt d ftTable (acts ++ later)).key h = s.key h) ∧
      ∀ tid c h, s.pc tid = .loadUnit c h → s.unit h = 0 → ∃ tid', (s.pc tid').claims = some h := by
  dsimp only
  have hs := FtInv.run d ftTable acts
  refine ⟨fun tid c hfull => ?_, fun h h' page => hs.key_inj, fun x hx => ?_, fun x hx y hy heq => ?_, fun me => ?_,
    hs.pages, fun x hx => ?_, fun later h hk => ?_, fun tid c h hpc hz => ?_⟩
  · have hslots := hs.full hfull
    have hsub : (runFt d ftTable acts).called.toFinset ⊆ (pagesOf acts).toFinset := by
      intro pg hpg
      exact List.mem_toFinset.mpr (run_called acts pg (List.mem_toFinset.mp hpg))
    have := Finset.card_le_card hsub
    omega
  · obtain ⟨r, hr, hpage, hu, hunit, -⟩ := hs.returned x hx
    obtain ⟨r', hr', hat, hhold, -⟩ := hs.filled r.slot hu
    have hk := hs.slot r hr
    have hk' := hs.slot r' hr'
    rw [hat, hk] at hk'
    obtain rfl := hs.placed_inj hr hr' (by omega)
    exact ⟨r.slot, by rw [hk, hpage], by rw [hhold, hunit]⟩
  · obtain ⟨r, hr, hpage, -, hunit, hask⟩ := hs.returned x hx
    obtain ⟨r', hr', hpage', -, hunit', hask'⟩ := hs.returned y hy
    obtain rfl := hs.placed_inj hr hr' (by rw [hpage, hpage', heq])
    refine ⟨hunit.trans hunit'.symm, fun h h' => ?_⟩
    obtain ⟨hsq, hcv⟩ := hask h
    obtain ⟨hsq', hcv'⟩ := hask' h'
    exact ⟨hsq.trans hsq'.symm, hcv.trans hcv'.symm⟩
  · have hidx := hs.indices me
    have hlen := congrArg List.length hidx
    rw [List.length_map, List.length_range] at hlen
    rw [hidx, hlen]
  · obtain ⟨r, hr, hpage, -, hunit, -⟩ := hs.returned x hx
    exact ⟨r, hr, hpage, hunit, fun hrow => hunit.trans (newEntry_block hrow r.me r.idx)⟩
  · unfold runFt at hk ⊢
    rw [List.foldl_append]
    exact run_key later _ hk
  · have hok := hs.thread tid
    rw [hpc] at hok
    have hk : (runFt d ftTable acts).key h = c.page + 1 := hok
    exact hs.owned h (by omega) hz

/-- Two threads of two interfaces race for page 5: the one that loses the swap spins, and both return unit 0. -/
def raceForPage : List FtAction :=
  [.call 0 ⟨0, 5, false⟩, .call 1 ⟨1, 5, false⟩, .step 0, .step 1, .step 0, .step 1, .step 1, .step 0, .step 0, .step 1]

theorem first_touch_race :
    ((runFt Device.twoInterfaces ftTable raceForPage).returned.map fun x => (x.page, x.unit)) = [(5, 0), (5, 0)] ∧
      ∀ x ∈ (runFt Device.twoInterfaces ftTable raceForPage).returned,
        ∀ y ∈ (runFt Device.twoInterfaces ftTable raceForPage).returned, x.page = y.page →
          x.unit = y.unit ∧ (x.ask = true → y.ask = true → x.seq = y.seq ∧ x.cov = y.cov) :=
  ⟨by decide +kernel, (first_touch Device.twoInterfaces raceForPage (by decide +kernel)).2.2.2.1⟩

end Pimid.Mem
