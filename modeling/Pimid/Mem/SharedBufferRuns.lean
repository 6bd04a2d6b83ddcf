import Pimid.Mem.SharedBuffer

/-!
# Posted writes through a shared buffer

`wbLast` is of use while one write at most is between its booking and its
acknowledgement: then it is that write's entry. `SbInv` says so, and that every other
entry was made for the write that has it. `Apart` is what a step must meet for that.
-/

namespace Pimid.Mem.SharedBuffer

open WriteBuffer
open Function (update update_apply update_of_ne update_self)

/-- An access under way has made no entry but the one it holds, which is the last posted. -/
structure SbInv (c : PeInterface) (s : SharedBuffer) : Prop where
  dated : Dated s.buf
  makerLt : ∀ id n, s.maker id = some n → id < s.buf.wbNext ∧ n < s.calls
  underWay : ∀ tid n r, (s.pc tid).access = some (n, r) → n < s.calls
  alone : ∀ tid tid' n r r', (s.pc tid).access = some (n, r) → (s.pc tid').access = some (n, r') → tid = tid'
  unmade : ∀ tid n r id, (s.pc tid).access = some (n, r) → s.maker id = some n → (s.pc tid).own = some id
  own : ∀ tid n r id, s.pc tid = .post n r (some id) → s.buf.wbLast = some id ∧ s.maker id = some n ∧
    s.buf.label id = some (r.line, c.addrToUnit r.line) ∧ ∃ e, s.buf.wb id = some e
  last : ∀ id, s.buf.wbLast = some id → ∃ tid, (s.pc tid).own = some id
  sound : Sound c s

section

variable {c : PeInterface} {s : SharedBuffer} {tid n : Nat} {r : BufReq} {pc : BufPc}

theorem goto_self : (s.goto tid pc).pc tid = pc :=
  update_self ..

theorem goto_ne {tid' : Nat} (hne : tid' ≠ tid) : (s.goto tid pc).pc tid' = s.pc tid' :=
  update_of_ne hne ..

theorem own_eq_some {id : Nat} (h : pc.own = some id) : ∃ n r, pc = .post n r (some id) := by
  cases pc with
  | post n r own =>
    cases h
    exact ⟨n, r, rfl⟩
  | _ => cases h

theorem SbInv.init : SbInv c {} where
  dated := .init
  makerLt _ _ h := by cases h
  underWay _ _ _ h := by cases h
  alone _ _ _ _ _ h := by cases h
  unmade _ _ _ _ h := by cases h
  own _ _ _ _ h := by cases h
  last _ h := by cases h
  sound := ⟨nofun, nofun, nofun, nofun, nofun⟩

/-! ## What moves an element -/

/-- An element that waits for no entry goes on with its access, or ends it. -/
theorem SbInv.goto (h : SbInv c s) (hown : (s.pc tid).own = none) (hown' : pc.own = none)
    (hacc : pc.access = none ∨ pc.access = (s.pc tid).access) : SbInv c (s.goto tid pc) := by
  have haccess : ∀ {tid' n r}, ((s.goto tid pc).pc tid').access = some (n, r) → (s.pc tid').access = some (n, r) := by
    intro tid' n r h'
    by_cases htid : tid' = tid
    · rw [htid, goto_self] at h'
      rw [htid]
      rcases hacc with hnone | hsame
      · rw [hnone] at h'
        cases h'
      · exact hsame ▸ h'
    · rwa [goto_ne htid] at h'
  have howns : ∀ tid', ((s.goto tid pc).pc tid').own = (s.pc tid').own := by
    intro tid'
    by_cases htid : tid' = tid
    · rw [htid, goto_self, hown, hown']
    · rw [goto_ne htid]
  refine ⟨h.dated, h.makerLt, fun tid' n r h' => h.underWay tid' n r (haccess h'),
    fun t t' n r r' h₁ h₂ => h.alone t t' n r r' (haccess h₁) (haccess h₂),
    fun tid' n r id h₁ h₂ => (howns tid').trans (h.unmade tid' n r id (haccess h₁) h₂), fun tid' n r id h' => ?_,
    fun id hl => ?_, ⟨h.sound.asBooked, h.sound.once, h.sound.taken, h.sound.kept, h.sound.left⟩⟩
  · have htid : tid' ≠ tid := fun heq => by
      rw [heq, goto_self] at h'
      rw [h'] at hown'
      cases hown'
    rw [goto_ne htid] at h'
    exact h.own tid' n r id h'
  · obtain ⟨tid', htid'⟩ := h.last id hl
    exact ⟨tid', (howns tid').trans htid'⟩

/-- The buffer changes, and no entry that a write waits to take leaves it. -/
theorem SbInv.carry (h : SbInv c s) {late : Nat → Prop} {buf : WriteBuffer} (hc : Carries late s.buf buf)
    (hlate : ∀ tid id e, (s.pc tid).own = some id → s.buf.wb id = some e → late e.done) :
    SbInv c { s with buf := buf } := by
  refine ⟨hc.dated, fun id n hm => ?_, h.underWay, h.alone, h.unmade, fun tid n r id hpc => ?_, fun id hl => ?_,
    ⟨h.sound.asBooked, h.sound.once, h.sound.taken, fun x hx => ?_, h.sound.left⟩⟩
  · show id < buf.wbNext ∧ _
    rw [hc.wbNext]
    exact h.makerLt id n hm
  · obtain ⟨hlast, hm, hlabel, e, he⟩ := h.own tid n r id hpc
    obtain ⟨e', he', -⟩ := hc.kept id e he (hlate tid id e (by rw [hpc]; rfl) he)
    exact ⟨hc.wbLast.trans hlast, hm, (hc.label id).trans hlabel, e', he'⟩
  · exact h.last id (hc.wbLast.symm.trans hl)
  · exact (hc.label x.id).trans (h.sound.kept x hx)

theorem SbInv.postThis (h : SbInv c s) (b : Bool) : SbInv c { s with wbPostThis := b } :=
  ⟨h.dated, h.makerLt, h.underWay, h.alone, h.unmade, h.own, h.last,
    ⟨h.sound.asBooked, h.sound.once, h.sound.taken, h.sound.kept, h.sound.left⟩⟩

theorem asBooked_snoc (h : SbInv c s) {b : BufBooked} (hb : b.posted = b.req.posts) :
    ∀ b' ∈ s.booked ++ [b], b'.posted = b'.req.posts := by
  intro b' hm
  rcases List.mem_append.mp hm with hm | hm
  · exact h.sound.asBooked b' hm
  · rwa [List.mem_singleton.mp hm]

theorem SbInv.book (h : SbInv c s) {b : BufBooked} (hb : b.posted = b.req.posts) :
    SbInv c { s with booked := s.booked ++ [b] } :=
  ⟨h.dated, h.makerLt, h.underWay, h.alone, h.unmade, h.own, h.last,
    ⟨asBooked_snoc h hb, h.sound.once, h.sound.taken, h.sound.kept, h.sound.left⟩⟩

theorem SbInv.start (h : SbInv c s) (hpc : s.pc tid = .idle) : SbInv c (s.start tid r) := by
  have hself : (s.start tid r).pc tid = .check s.calls r := goto_self
  have hne : ∀ {tid'}, tid' ≠ tid → (s.start tid r).pc tid' = s.pc tid' := fun hne => goto_ne hne
  refine ⟨h.dated, fun id n hm => ?_, fun tid' n' r' h' => ?_, fun t t' n' r₁ r₂ h₁ h₂ => ?_, fun tid' n' r' id h' hm => ?_,
    fun tid' n' r' id h' => ?_, fun id hl => ?_, ⟨h.sound.asBooked, h.sound.once, h.sound.taken, h.sound.kept, h.sound.left⟩⟩
  · exact ⟨(h.makerLt id n hm).1, Nat.lt_succ_of_lt (h.makerLt id n hm).2⟩
  · show n' < s.calls + 1
    by_cases htid : tid' = tid
    · rw [htid, hself] at h'
      cases h'
      exact Nat.lt_succ_self _
    · rw [hne htid] at h'
      exact Nat.lt_succ_of_lt (h.underWay tid' n' r' h')
  · by_cases ht : t = tid <;> by_cases ht' : t' = tid
    · rw [ht, ht']
    · rw [ht, hself] at h₁
      rw [hne ht'] at h₂
      cases h₁
      exact absurd (h.underWay t' _ r₂ h₂) (Nat.lt_irrefl _)
    · rw [hne ht] at h₁
      rw [ht', hself] at h₂
      cases h₂
      exact absurd (h.underWay t _ r₁ h₁) (Nat.lt_irrefl _)
    · rw [hne ht] at h₁
      rw [hne ht'] at h₂
      exact h.alone t t' n' r₁ r₂ h₁ h₂
  · by_cases htid : tid' = tid
    · rw [htid, hself] at h'
      cases h'
      exact absurd (h.makerLt id _ hm).2 (Nat.lt_irrefl _)
    · rw [hne htid] at h' ⊢
      exact h.unmade tid' n' r' id h' hm
  · have htid : tid' ≠ tid := fun heq => by
      rw [heq, hself] at h'
      cases h'
    rw [hne htid] at h'
    exact h.own tid' n' r' id h'
  · obtain ⟨tid', htid'⟩ := h.last id hl
    have htid : tid' ≠ tid := fun heq => by
      rw [heq, hpc] at htid'
      cases htid'
    exact ⟨tid', by rw [hne htid]; exact htid'⟩

/-! ## Bookings -/

theorem afterBank_own : (afterBank n r none).own = none := by
  unfold afterBank
  split <;> rfl

theorem afterBank_access {own : Option Nat} :
    (afterBank n r own).access = none ∨ (afterBank n r own).access = some (n, r) := by
  unfold afterBank
  split
  · exact .inr rfl
  · exact .inl rfl

theorem afterBank_posts (h : r.posts = true) {own : Option Nat} : afterBank n r own = .post n r own := by
  rw [afterBank, if_pos h]

theorem SbInv.bookOther (h : SbInv c s) (hpc : s.pc tid = .book n r) (hr : r.posts = false) (arrive : Nat) (wait : Rat) :
    SbInv c (bookOther c s tid n r arrive wait) := by
  have hown : (s.pc tid).own = none := by
    rw [hpc]
    rfl
  have hgoto : SbInv c (s.goto tid (afterBank n r none)) :=
    h.goto hown afterBank_own (by rw [hpc]; exact afterBank_access)
  have hcarry := hgoto.carry (h.dated.bookAhead c.toBankTiming r.wr (c.addrToUnit r.line) arrive wait)
    fun _ _ _ _ _ => trivial
  exact (hcarry.postThis false).book (b := ⟨r, false⟩) hr.symm

theorem SbInv.bookPost (h : SbInv c s) (hpc : s.pc tid = .book n r) (hr : r.posts = true) (hnone : s.NoneWaits)
    (arrive : Nat) (wait : Rat) : SbInv c (bookPost c s tid n r arrive wait) := by
  obtain ⟨hd, hnext, hlast, ⟨e, he, hline, hunit⟩, hlabel⟩ :=
    h.dated.bookPosted c.toBankTiming r.line (c.addrToUnit r.line) arrive wait
  have hacc : (s.pc tid).access = some (n, r) := by
    rw [hpc]
    rfl
  have hself : (SharedBuffer.bookPost c s tid n r arrive wait).pc tid = .post n r (some s.buf.wbNext) := by
    show update s.pc tid (afterBank n r (some s.buf.wbNext)) tid = _
    rw [update_self, afterBank_posts hr]
  have hne : ∀ {tid'}, tid' ≠ tid → (SharedBuffer.bookPost c s tid n r arrive wait).pc tid' = s.pc tid' := fun hne => goto_ne hne
  have haccess : ∀ tid', ((SharedBuffer.bookPost c s tid n r arrive wait).pc tid').access = (s.pc tid').access := by
    intro tid'
    by_cases htid : tid' = tid
    · rw [htid, hself, hacc]
      rfl
    · rw [hne htid]
  have hmade : (SharedBuffer.bookPost c s tid n r arrive wait).maker s.buf.wbNext = some n := update_self ..
  have hmaker : ∀ {id}, id ≠ s.buf.wbNext → (SharedBuffer.bookPost c s tid n r arrive wait).maker id = s.maker id :=
    fun hne => update_of_ne hne ..
  -- nothing was made for this access before
  have hunmade : ∀ id, s.maker id ≠ some n := by
    intro id hm
    have := h.unmade tid n r id hacc hm
    rw [hpc] at this
    cases this
  have hold : ∀ {x}, x ∈ s.acked → x.id ≠ s.buf.wbNext := fun hx =>
    Nat.ne_of_lt (h.makerLt _ _ (h.sound.taken _ hx)).1
  refine ⟨hd, fun id n' hm => ?_, fun tid' n' r' h' => h.underWay tid' n' r' (haccess tid' ▸ h'),
    fun t t' n' r₁ r₂ h₁ h₂ => h.alone t t' n' r₁ r₂ (haccess t ▸ h₁) (haccess t' ▸ h₂), fun tid' n' r' id h' hm => ?_,
    fun tid' n' r' id h' => ?_, fun id hl => ⟨tid, ?_⟩,
    ⟨asBooked_snoc h hr.symm, fun id id' n' hm hm' => ?_, fun x hx => ?_, fun x hx => ?_, h.sound.left⟩⟩
  · show id < (s.buf.bookPosted ..).wbNext ∧ n' < s.calls
    rw [hnext]
    by_cases hid : id = s.buf.wbNext
    · rw [hid, hmade] at hm
      cases hm
      exact ⟨by omega, h.underWay tid n r hacc⟩
    · rw [hmaker hid] at hm
      exact ⟨Nat.lt_succ_of_lt (h.makerLt id n' hm).1, (h.makerLt id n' hm).2⟩
  · rw [haccess] at h'
    by_cases hid : id = s.buf.wbNext
    · rw [hid, hmade] at hm
      cases hm
      obtain rfl := h.alone tid' tid n r' r h' hacc
      rw [hself, hid]
      rfl
    · rw [hmaker hid] at hm
      have htid : tid' ≠ tid := fun heq => by
        rw [heq, hacc] at h'
        cases h'
        exact hunmade id hm
      rw [hne htid]
      exact h.unmade tid' n' r' id h' hm
  · by_cases htid : tid' = tid
    · rw [htid, hself] at h'
      cases h'
      refine ⟨hlast, hmade, ?_, e, he⟩
      show (s.buf.bookPosted ..).label _ = _
      rw [label_some he, hline, hunit]
    · rw [hne htid] at h'
      have := hnone tid'
      rw [h'] at this
      cases this
  · rw [hself]
    exact hlast.symm.trans hl
  · by_cases hid : id = s.buf.wbNext <;> by_cases hid' : id' = s.buf.wbNext
    · rw [hid, hid']
    · rw [hid, hmade] at hm
      rw [hmaker hid'] at hm'
      cases hm
      exact absurd hm' (hunmade id')
    · rw [hid', hmade] at hm'
      rw [hmaker hid] at hm
      cases hm'
      exact absurd hm (hunmade id)
    · rw [hmaker hid] at hm
      rw [hmaker hid'] at hm'
      exact h.sound.once id id' n' hm hm'
  · rw [hmaker (hold hx)]
    exact h.sound.taken x hx
  · show (s.buf.bookPosted ..).label _ = _
    rw [hlabel _ (hold hx)]
    exact h.sound.kept x hx

/-! ## The acknowledgement -/

/-- Entry `id` is the write's own: made by its booking, or here where none was. -/
structure Takes (c : PeInterface) (s s' : SharedBuffer) (tid n : Nat) (r : BufReq) (done id : Nat) : Prop where
  dated : Dated s'.buf
  next : s.buf.wbNext ≤ s'.buf.wbNext ∧ id < s'.buf.wbNext
  wbLast : s'.buf.wbLast = none
  maker : ∀ id', s'.maker id' = if id' = id then some n else s.maker id'
  only : ∀ id', s.maker id' = some n → id' = id
  free : ∀ n', s.maker id = some n' → n' = n
  labels : ∀ id', id' < s.buf.wbNext → s'.buf.label id' = s.buf.label id'
  label : s'.buf.label id = some (r.line, c.addrToUnit r.line)
  entry : ∃ e, s'.buf.wb id = some e ∧ e.line = r.line ∧ e.unit = c.addrToUnit r.line ∧ e.done = completion c s.buf r done
  pc : s'.pc = update s.pc tid .idle
  others : ∀ tid', tid' ≠ tid → (s.pc tid').own = none
  calls : s'.calls = s.calls
  booked : s'.booked = s.booked
  acked : s'.acked = s.acked ++ [⟨n, r, id, completion c s.buf r done, s'.buf.wb id⟩]

theorem Takes.inv {s' : SharedBuffer} {done id : Nat} (ht : Takes c s s' tid n r done id) (h : SbInv c s)
    (hacc : (s.pc tid).access = some (n, r)) : SbInv c s' := by
  have hself : s'.pc tid = .idle := by rw [ht.pc, update_self]
  have hne : ∀ {tid'}, tid' ≠ tid → s'.pc tid' = s.pc tid' := fun hne => by rw [ht.pc, update_of_ne hne]
  have haccess : ∀ {tid' n' r'}, (s'.pc tid').access = some (n', r') → tid' ≠ tid ∧ (s.pc tid').access = some (n', r') := by
    intro tid' n' r' h'
    have htid : tid' ≠ tid := fun heq => by
      rw [heq, hself] at h'
      cases h'
    exact ⟨htid, hne htid ▸ h'⟩
  have hmaker : ∀ {id' n'}, s'.maker id' = some n' → (id' = id ∧ n' = n) ∨ (id' ≠ id ∧ s.maker id' = some n') := by
    intro id' n' hm
    rw [ht.maker] at hm
    split at hm
    next hid =>
      cases hm
      exact .inl ⟨hid, rfl⟩
    next hid => exact .inr ⟨hid, hm⟩
  have hown : ∀ tid', (s'.pc tid').own = none := by
    intro tid'
    by_cases htid : tid' = tid
    · rw [htid, hself]
      rfl
    · rw [hne htid]
      exact ht.others tid' htid
  have hold : ∀ {id' n'}, s.maker id' = some n' → s'.maker id' = some n' := by
    intro id' n' hm
    rw [ht.maker]
    split
    next hid => rw [ht.free n' (hid ▸ hm)]
    next => exact hm
  have htaken : s'.maker id = some n := by rw [ht.maker, if_pos rfl]
  refine ⟨ht.dated, fun id' n' hm => ?_, fun tid' n' r' h' => ?_, fun t t' n' r₁ r₂ h₁ h₂ => ?_,
    fun tid' n' r' id' h' hm => ?_, fun tid' n' r' id' h' => ?_, fun id' hl => ?_,
    ⟨?_, fun id₁ id₂ n' hm₁ hm₂ => ?_, fun x hx => ?_, fun x hx => ?_, fun x hx => ?_⟩⟩
  · rw [ht.calls]
    rcases hmaker hm with ⟨rfl, rfl⟩ | ⟨-, hm⟩
    · exact ⟨ht.next.2, h.underWay tid _ r hacc⟩
    · exact ⟨Nat.lt_of_lt_of_le (h.makerLt id' n' hm).1 ht.next.1, (h.makerLt id' n' hm).2⟩
  · rw [ht.calls]
    exact h.underWay tid' n' r' (haccess h').2
  · exact h.alone t t' n' r₁ r₂ (haccess h₁).2 (haccess h₂).2
  · obtain ⟨htid, h'⟩ := haccess h'
    rcases hmaker hm with ⟨-, rfl⟩ | ⟨-, hm⟩
    · exact absurd (h.alone tid' tid _ r' r h' hacc) htid
    · rw [hne htid]
      exact h.unmade tid' n' r' id' h' hm
  · have := hown tid'
    rw [h'] at this
    cases this
  · rw [ht.wbLast] at hl
    cases hl
  · rw [ht.booked]
    exact h.sound.asBooked
  · rcases hmaker hm₁ with ⟨rfl, rfl⟩ | ⟨hid₁, hm₁⟩ <;> rcases hmaker hm₂ with ⟨rfl, hn⟩ | ⟨hid₂, hm₂⟩
    · rfl
    · exact absurd (ht.only id₂ hm₂) hid₂
    · subst hn
      exact absurd (ht.only id₁ hm₁) hid₁
    · exact h.sound.once id₁ id₂ n' hm₁ hm₂
  · rw [ht.acked] at hx
    rcases List.mem_append.mp hx with hx | hx
    · exact hold (h.sound.taken x hx)
    · rw [List.mem_singleton.mp hx]
      exact htaken
  · rw [ht.acked] at hx
    rcases List.mem_append.mp hx with hx | hx
    · rw [ht.labels x.id (h.makerLt _ _ (h.sound.taken x hx)).1]
      exact h.sound.kept x hx
    · rw [List.mem_singleton.mp hx]
      exact ht.label
  · rw [ht.acked] at hx
    rcases List.mem_append.mp hx with hx | hx
    · exact h.sound.left x hx
    · rw [List.mem_singleton.mp hx]
      exact ht.entry

/-- Of an entry that its own acknowledgement does not free. -/
theorem postWrite_carries {buf b : WriteBuffer} {id done : Nat} {e : WbEntry} (hd : Dated b)
    (htake : buf.takeEntry r.line (c.addrToUnit r.line) r.cycle done = (b, id)) (he : b.wb id = some e) (hlt : r.cycle < e.done) :
    Carries (fun _ => False) b (buf.postWrite c.toBankTiming r.line (c.addrToUnit r.line) r.cycle done).1 ∧
      ∃ e', (buf.postWrite c.toBankTiming r.line (c.addrToUnit r.line) r.cycle done).1.wb id = some e' ∧ e'.line = e.line ∧
        e'.unit = e.unit ∧ e'.done = completion c buf r done := by
  rw [postWrite, completion, postTake, htake]
  exact hd.acknowledge he hlt

theorem acknowledge_id {b : WriteBuffer} {id done : Nat}
    (htake : s.buf.takeEntry r.line (c.addrToUnit r.line) r.cycle done = (b, id)) :
    acknowledge c s tid n r done = { s.goto tid .idle with
      buf := (s.buf.postWrite c.toBankTiming r.line (c.addrToUnit r.line) r.cycle done).1
      maker := if id = s.buf.wbNext then update s.maker id (some n) else s.maker
      acked := s.acked ++ [⟨n, r, id, completion c s.buf r done,
        (s.buf.postWrite c.toBankTiming r.line (c.addrToUnit r.line) r.cycle done).1.wb id⟩] } := by
  rw [acknowledge, htake]

theorem SbInv.takesOwn (h : SbInv c s) {id : Nat} (hpc : s.pc tid = .post n r (some id)) (done : Nat)
    (hwait : s.WaitingAfter r.cycle) : Takes c s (acknowledge c s tid n r done) tid n r done id := by
  obtain ⟨hlast, hmade, hlabel, e, he⟩ := h.own tid n r id hpc
  have hacc : (s.pc tid).access = some (n, r) := by
    rw [hpc]
    rfl
  have hown : (s.pc tid).own = some id := by
    rw [hpc]
    rfl
  have htake : s.buf.takeEntry r.line (c.addrToUnit r.line) r.cycle done = ({ s.buf with wbLast := none }, id) :=
    takeEntry_own _ _ _ _ hlast he
  have hd : Dated { s.buf with wbLast := none } := ⟨h.dated.fresh, h.dated.known, h.dated.done⟩
  obtain ⟨hc, e', he', hline, hunit, hdone⟩ := postWrite_carries hd htake he (hwait tid id e hown he)
  have hlt := (h.makerLt id n hmade).1
  have hentry : some (e.line, e.unit) = some (r.line, c.addrToUnit r.line) := (label_some he).symm.trans hlabel
  have hpair := Prod.mk.inj (Option.some.inj hentry)
  rw [acknowledge_id htake, if_neg (Nat.ne_of_lt hlt)]
  refine ⟨hc.dated, ⟨Nat.le_of_eq hc.wbNext.symm, hc.wbNext.symm ▸ hlt⟩, hc.wbLast, fun id' => ?_,
    fun id' hm => h.sound.once id' id n hm hmade, fun n' hm => Option.some.inj (hm.symm.trans hmade), fun id' _ => hc.label id',
    (hc.label id).trans hlabel, ⟨e', he', hline.trans hpair.1, hunit.trans hpair.2, hdone⟩, rfl, fun tid' htid => ?_,
    rfl, rfl, rfl⟩
  · split
    next hid => exact hid ▸ hmade
    next => rfl
  · -- another that waits would wait for the same entry
    cases hother : (s.pc tid').own with
    | none => rfl
    | some id' =>
      obtain ⟨n', r', hpc'⟩ := own_eq_some hother
      obtain ⟨hlast', hmade', -, -⟩ := h.own tid' n' r' id' hpc'
      rw [hlast] at hlast'
      cases hlast'
      rw [hmade] at hmade'
      cases hmade'
      exact absurd (h.alone tid' tid n r' r (by rw [hpc']; rfl) hacc) htid

/-- One whose bank was not booked makes its entry now. -/
theorem SbInv.takesNew (h : SbInv c s) (hpc : s.pc tid = .post n r none) {done : Nat} (hnone : s.NoneWaits)
    (hdone : r.cycle < done) : Takes c s (acknowledge c s tid n r done) tid n r done s.buf.wbNext := by
  have hacc : (s.pc tid).access = some (n, r) := by
    rw [hpc]
    rfl
  have hlast : s.buf.wbLast = none := by
    cases hl : s.buf.wbLast with
    | none => rfl
    | some id =>
      obtain ⟨tid', htid'⟩ := h.last id hl
      rw [hnone tid'] at htid'
      cases htid'
  obtain ⟨hid, hlast', ha⟩ := takeEntry_none r.line (c.addrToUnit r.line) r.cycle done hlast
  have htake : s.buf.takeEntry r.line (c.addrToUnit r.line) r.cycle done =
      ((s.buf.takeEntry r.line (c.addrToUnit r.line) r.cycle done).1, s.buf.wbNext) := Prod.ext rfl hid
  have hnew := ha.wb_self
  obtain ⟨hc, e', he', hline, hunit, hcomp⟩ := postWrite_carries (ha.dated h.dated) htake hnew hdone
  have hmaker : ∀ n', s.maker s.buf.wbNext ≠ some n' := fun n' hm => Nat.lt_irrefl _ (h.makerLt _ n' hm).1
  rw [acknowledge_id htake, if_pos rfl]
  refine ⟨hc.dated, ?_, hc.wbLast.trans hlast', fun id' => ?_, fun id' hm => ?_, fun n' hm => absurd hm (hmaker n'),
    fun id' hid' => ?_, ?_, ⟨e', he', hline, hunit, hcomp⟩, rfl, fun tid' _ => hnone tid', rfl, rfl, rfl⟩
  · show s.buf.wbNext ≤ (s.buf.postWrite ..).1.wbNext ∧ s.buf.wbNext < (s.buf.postWrite ..).1.wbNext
    rw [hc.wbNext, ha.wbNext]
    omega
  · show update s.maker s.buf.wbNext (some n) id' = _
    rw [update_apply]
  · have := h.unmade tid n r id' hacc hm
    rw [hpc] at this
    cases this
  · exact (hc.label id').trans (ha.label_ne (Nat.ne_of_lt hid'))
  · exact (hc.label _).trans (label_some hnew)

theorem SbInv.acknowledge (h : SbInv c s) {own : Option Nat} (hpc : s.pc tid = .post n r own) {done : Nat}
    (hwait : s.WaitingAfter r.cycle) (hnone : own = none → s.NoneWaits ∧ r.cycle < done) :
    SbInv c (acknowledge c s tid n r done) := by
  have hacc : (s.pc tid).access = some (n, r) := by
    rw [hpc]
    rfl
  cases own with
  | some id => exact (h.takesOwn hpc done hwait).inv h hacc
  | none =>
    obtain ⟨hn, hdone⟩ := hnone rfl
    exact (h.takesNew hpc hn hdone).inv h hacc

/-! ## Runs -/

theorem SbInv.checkForward (h : SbInv c s) (hpc : s.pc tid = .check n r)
    (hwait : !r.wr && r.near → s.WaitingAfter r.cycle) : SbInv c (s.checkForward tid n r) := by
  have hown : (s.pc tid).own = none := by
    rw [hpc]
    rfl
  have hflag : SbInv c (s.goto tid (.flag n r)) := h.goto hown rfl (.inr (by rw [hpc]; rfl))
  unfold SharedBuffer.checkForward
  split
  next hread =>
    have hlate : ∀ pc tid' id e, pc.own = none → ((s.goto tid pc).pc tid').own = some id → s.buf.wb id = some e →
        r.cycle < e.done := by
      intro pc tid' id e hpc' hid he
      by_cases htid : tid' = tid
      · rw [htid, goto_self, hpc'] at hid
        cases hid
      · rw [goto_ne htid] at hid
        exact hwait hread tid' id e hid he
    split
    next =>
      have hidle : SbInv c (s.goto tid .idle) := h.goto hown rfl (.inl rfl)
      exact hidle.carry (h.dated.wbFree r.cycle) fun tid' id e hid he => hlate .idle tid' id e rfl hid he
    next => exact hflag.carry (h.dated.wbFree r.cycle) fun tid' id e hid he => hlate (.flag n r) tid' id e rfl hid he
  next => exact hflag

theorem SbInv.step (h : SbInv c s) (a : BufAct) (ha : s.Apart a) : SbInv c (step c s a) := by
  cases a with
  | start tid r =>
    unfold SharedBuffer.step
    dsimp only
    split
    next hpc => exact h.start hpc
    next => exact h
  | check tid =>
    unfold SharedBuffer.step
    dsimp only
    split
    next n r hpc =>
      simp only [Apart, hpc] at ha
      exact h.checkForward hpc ha
    next => exact h
  | flag tid =>
    unfold SharedBuffer.step
    dsimp only
    split
    next n r hpc =>
      have hown : (s.pc tid).own = none := by
        rw [hpc]
        rfl
      exact (h.goto hown rfl (.inr (by rw [hpc]; rfl))).postThis r.posts
    next => exact h
  | book tid bank =>
    unfold SharedBuffer.step
    dsimp only
    split
    next n r arrive wait hpc =>
      simp only [Apart, hpc] at ha
      obtain ⟨hflag, hnone⟩ := ha
      have hposts : (r.wr && s.wbPostThis) = r.posts := by
        rw [BufReq.posts]
        cases hwr : r.wr with
        | false => rfl
        | true => rw [hflag hwr]
      split
      next hp =>
        rw [hposts] at hp
        exact h.bookPost hpc hp (hnone hp) arrive wait
      next hp =>
        rw [hposts, Bool.not_eq_true] at hp
        exact h.bookOther hpc hp arrive wait
    next n r hpc =>
      have hown : (s.pc tid).own = none := by
        rw [hpc]
        rfl
      exact h.goto hown afterBank_own (by rw [hpc]; exact afterBank_access)
    next => exact h
  | post tid done =>
    unfold SharedBuffer.step
    dsimp only
    split
    next n r own hpc =>
      simp only [Apart, hpc] at ha
      exact h.acknowledge hpc ha.1 ha.2
    next => exact h

theorem step_pc_ne {a : BufAct} (hne : tid ≠ a.tid) : (step c s a).pc tid = s.pc tid := by
  cases a with
  | start tid' r =>
    unfold SharedBuffer.step
    dsimp only
    split
    next => exact goto_ne hne
    next => rfl
  | check tid' =>
    unfold SharedBuffer.step
    dsimp only
    split
    next n r _ =>
      unfold SharedBuffer.checkForward
      split
      next => split <;> exact goto_ne hne
      next => exact goto_ne hne
    next => rfl
  | flag tid' =>
    unfold SharedBuffer.step
    dsimp only
    split
    next => exact goto_ne hne
    next => rfl
  | book tid' bank =>
    unfold SharedBuffer.step
    dsimp only
    split
    next => split <;> exact goto_ne hne
    next => exact goto_ne hne
    next => rfl
  | post tid' done =>
    unfold SharedBuffer.step
    dsimp only
    split
    next => exact goto_ne hne
    next => rfl

theorem foldl_idle {m : Nat} {acts : List BufAct} (h : ∀ a ∈ acts, a.tid < m) (htid : m ≤ tid) :
    (acts.foldl (step c) {}).pc tid = .idle := by
  have hpc : ∀ s : SharedBuffer, (acts.foldl (step c) s).pc tid = s.pc tid := by
    induction acts with
    | nil => exact fun _ => rfl
    | cons a acts ih =>
      intro s
      have ha := h a (List.mem_cons_self ..)
      exact (ih (fun b hb => h b (List.mem_cons_of_mem _ hb)) (step c s a)).trans (step_pc_ne (by omega))
  exact hpc {}

theorem noneWaits_of_idle {m : Nat} (hidle : ∀ tid, m ≤ tid → s.pc tid = .idle) (h : ∀ tid < m, (s.pc tid).own = none) :
    s.NoneWaits := by
  intro tid
  by_cases htid : tid < m
  · exact h tid htid
  · rw [hidle tid (by omega)]
    rfl

theorem waitingAfter_of_idle {m t : Nat} (hidle : ∀ tid, m ≤ tid → s.pc tid = .idle)
    (h : ∀ tid < m, ∀ e ∈ (s.pc tid).own.bind s.buf.wb, t < e.done) : s.WaitingAfter t := by
  intro tid id e hid he
  by_cases htid : tid < m
  · exact h tid htid e (by rw [hid]; exact he)
  · rw [hidle tid (by omega)] at hid
    cases hid

/-- **Every posted write has its own entry** in a run whose steps stand `Apart`. -/
theorem posted_writes_kept (c : PeInterface) {acts : List BufAct} (h : Along (step c) Apart {} acts) :
    Sound c (acts.foldl (step c) {}) :=
  (Along.keeps (fun _ a hi ha => hi.step a ha) SbInv.init h).sound

/-- Two elements post a write each; between the first's booking and its acknowledgement the second only sets
`wbPostThis`. -/
def oneByOne : List BufAct :=
  [.start 0 ⟨true, true, 8, 5⟩, .start 1 ⟨true, true, 9, 5⟩, .check 0, .check 1, .flag 0, .book 0 (some (6, 0)), .flag 1,
    .post 0 12, .book 1 (some (7, 0)), .post 1 13]

theorem posted_writes_kept_two :
    Sound ⟨⟨4, 1, 1⟩, (· % 2)⟩ (oneByOne.foldl (step ⟨⟨4, 1, 1⟩, (· % 2)⟩) {}) := by
  have hidle : ∀ k tid, 2 ≤ tid → ((oneByOne.take k).foldl (step ⟨⟨4, 1, 1⟩, (· % 2)⟩) {}).pc tid = .idle := by
    intro k tid htid
    refine foldl_idle (fun a ha => ?_) htid
    exact (by decide : ∀ a ∈ oneByOne, a.tid < 2) a (List.mem_of_mem_take ha)
  refine posted_writes_kept _ ⟨trivial, trivial, nofun, nofun, trivial, ⟨fun _ => rfl, fun _ => ?_⟩, trivial,
    ⟨?_, nofun⟩, ⟨fun _ => rfl, fun _ => ?_⟩, ⟨?_, nofun⟩, trivial⟩
  · exact noneWaits_of_idle (hidle 5) (by decide +kernel)
  · exact waitingAfter_of_idle (hidle 7) (by decide +kernel)
  · exact noneWaits_of_idle (hidle 8) (by decide +kernel)
  · exact waitingAfter_of_idle (hidle 9) (by decide +kernel)

/-- The second element's booking comes between the first's booking and its acknowledgement. -/
def crossed : List BufAct :=
  [.start 0 ⟨true, true, 8, 5⟩, .start 1 ⟨true, true, 9, 5⟩, .check 0, .check 1, .flag 0, .book 0 (some (6, 0)), .flag 1,
    .book 1 (some (7, 0)), .post 0 12]

/-- The first write's acknowledgement takes the second's entry. -/
theorem posted_write_adopts :
    ¬ Sound ⟨⟨4, 1, 1⟩, (· % 2)⟩ (crossed.foldl (step ⟨⟨4, 1, 1⟩, (· % 2)⟩) {}) := by
  intro h
  have hother : ∃ x ∈ (crossed.foldl (step ⟨⟨4, 1, 1⟩, (· % 2)⟩) {}).acked,
      (crossed.foldl (step ⟨⟨4, 1, 1⟩, (· % 2)⟩) {}).maker x.id ≠ some x.n := by
    decide +kernel
  obtain ⟨x, hx, hne⟩ := hother
  exact hne (h.taken x hx)

end

end Pimid.Mem.SharedBuffer
