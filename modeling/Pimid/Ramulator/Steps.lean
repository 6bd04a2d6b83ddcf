import Pimid.Ramulator.Tick

/-!
# The steps of a tick

A tick is a clock, a read that is served, the refreshes, the power-down units, and then a sequence of
priority requests that are sent and commands that are issued. What a step leaves alone is stated
once; a property that the steps keep holds after the tick.
-/

namespace Pimid.Ramulator

namespace Controller

open Ramulator.Config

variable {D : Type} {c : Config D} {s : Controller D}

/-! ## What a step changes -/

theorem setBuffer_of_ne {b b' : Buffer} (h : b' ≠ b) (l : List Request) : (s.setBuffer b l).buffers b' = s.buffers b' :=
  Function.update_of_ne h _ _

theorem setBuffer_self (b : Buffer) (l : List Request) : (s.setBuffer b l).buffers b = l := Function.update_self ..

theorem prioritySend_eq (x : AddrVec × Nat) : ∃ l, s.prioritySend c x = s.setBuffer .priority (s.buffers .priority ++ l) ∧
    ∀ r ∈ l, r.sourceId = -1 ∧ r.addrVec = x.1 := by
  unfold prioritySend enqueue
  split
  · exact ⟨_, rfl, fun r hr => by obtain rfl := List.mem_singleton.mp hr; exact ⟨rfl, rfl⟩⟩
  · refine ⟨[], ?_, fun r hr => nomatch hr⟩
    rw [List.append_nil, setBuffer, Function.update_eq_self]

theorem prioritySends_eq (xs : List (AddrVec × Nat)) :
    ∃ l, s.prioritySends c xs = s.setBuffer .priority (s.buffers .priority ++ l) ∧
      ∀ r ∈ l, r.sourceId = -1 ∧ ∃ x ∈ xs, r.addrVec = x.1 := by
  induction xs generalizing s with
  | nil =>
    refine ⟨[], ?_, fun r hr => nomatch hr⟩
    rw [List.append_nil, setBuffer, Function.update_eq_self]
    rfl
  | cons x xs ih =>
    obtain ⟨l, hl, hlok⟩ := prioritySend_eq (c := c) (s := s) x
    obtain ⟨m, hm, hmok⟩ := ih (s := s.prioritySend c x)
    refine ⟨l ++ m, ?_, fun r hr => ?_⟩
    · show (s.prioritySend c x).prioritySends c xs = _
      rw [hm, hl]
      simp [setBuffer, List.append_assoc]
    · rcases List.mem_append.mp hr with hr | hr
      · exact ⟨(hlok r hr).1, x, List.mem_cons_self .., (hlok r hr).2⟩
      · obtain ⟨hs, y, hy, hya⟩ := hmok r hr
        exact ⟨hs, y, List.mem_cons_of_mem _ hy, hya⟩

theorem setWriteMode_eq : ∃ w, s.setWriteMode c = { s with isWriteMode := w } := by
  unfold setWriteMode
  split_ifs <;> exact ⟨_, rfl⟩

theorem hdbSetMode_eq : ∃ w, s.hdbSetMode c = { s with hdbWm := w } := by
  unfold hdbSetMode
  dsimp only
  split_ifs <;> exact ⟨_, rfl⟩

theorem pdIssued_eq (a : AddrVec) : ∃ l, s.pdIssued c a = { s with pdLast := l } := by
  unfold pdIssued
  split
  · exact ⟨_, rfl⟩
  · split <;> exact ⟨_, rfl⟩

theorem issueCommand_eq (cmd : Nat) (addrs : List AddrVec) :
    ∃ d l, s.issueCommand c cmd addrs = { s with dram := d, pdLast := l } := by
  unfold issueCommand
  induction addrs generalizing s with
  | nil => exact ⟨_, _, rfl⟩
  | cons a addrs ih =>
    obtain ⟨l, hl⟩ := pdIssued_eq (c := c) (s := s) a
    rw [List.foldl_cons, hl]
    obtain ⟨d', l', h⟩ := ih (s := { s with dram := c.dram.issueCommand s.dram cmd a, pdLast := l })
    exact ⟨d', l', h⟩

theorem takeBuses_eq (r : Request) (cmd : Nat) :
    ∃ ca free last, s.takeBuses c r cmd = { s with caFree := ca, hdbFree := free, hdbLast := last } := by
  unfold takeBuses
  dsimp only
  split_ifs <;> exact ⟨_, _, _, rfl⟩

/-- What `finish` does to the pending reads. -/
def finishReads (c : Config D) (s : Controller D) (r : Request) (cmd : Nat) : List PendingRead :=
  if cmd == r.finalCommand && r.typeId == Read then
    [⟨{ r with depart := s.clk + c.dram.readLatency }, s.clk, false, s.reads.length⟩] else []

theorem finish_eq (b : Buffer) (i : Nat) (r : Request) (cmd : Nat) :
    ∃ bs, s.finish c b i r cmd =
      { s with
        buffers := bs
        pending := s.pending ++ finishReads c s r cmd
        reads := s.reads ++ finishReads c s r cmd } := by
  unfold finish finishReads
  by_cases hf : (cmd == r.finalCommand) = true
  · rw [if_pos hf, hf, Bool.true_and]
    by_cases hr : (r.typeId == Read) = true
    · rw [if_pos hr, if_pos hr]
      exact ⟨_, rfl⟩
    · rw [if_neg hr, if_neg hr, List.append_nil, List.append_nil]
      exact ⟨_, rfl⟩
  · have hno : (cmd == r.finalCommand && r.typeId == Read) = false := by
      rw [Bool.eq_false_iff.mpr hf, Bool.false_and]
    rw [if_neg hf, hno, if_neg Bool.false_ne_true, List.append_nil, List.append_nil]
    dsimp only
    unfold enqueue
    split_ifs <;> exact ⟨_, rfl⟩

/-! ## What can be issued -/

theorem pdTick_eq : ∃ pdIn since last wake cycles exits log, s.pdTick c =
    { s with
      pdIn := pdIn, pdSince := since, pdLast := last, pdWake := wake, pdCycles := cycles, pdExits := exits
      pdLog := log } := by
  unfold pdTick
  split <;> exact ⟨_, _, _, _, _, _, _, rfl⟩

/-- Where a request goes: it leaves, or moves to the active buffer, and every other request stays. -/
theorem finish_buffers (b : Buffer) (i : Nat) (r : Request) (cmd : Nat) :
    (∀ b', b' ≠ .active → ((s.finish c b i r cmd).buffers b').Sublist (s.buffers b')) ∧
    ∀ x ∈ (s.finish c b i r cmd).buffers .active, x ∈ s.buffers .active ∨ x = r := by
  have hremove : ∀ (t : Controller D), (∀ b', b' ≠ .active → (t.buffers b').Sublist (s.buffers b')) →
      (∀ x ∈ t.buffers .active, x ∈ s.buffers .active ∨ x = r) →
      (∀ b', b' ≠ .active → ((t.removeAt b i).buffers b').Sublist (s.buffers b')) ∧
      ∀ x ∈ (t.removeAt b i).buffers .active, x ∈ s.buffers .active ∨ x = r := by
    intro t ht htr
    have hsub : ∀ b', ((t.removeAt b i).buffers b').Sublist (t.buffers b') := by
      intro b'
      unfold removeAt setBuffer
      dsimp only
      by_cases hb : b' = b
      · subst hb
        rw [Function.update_self]
        exact List.eraseIdx_sublist ..
      · rw [Function.update_of_ne hb]
    exact ⟨fun b' hb' => (hsub b').trans (ht b' hb'), fun x hx => htr x ((hsub _).subset hx)⟩
  unfold finish
  split
  · refine hremove _ (fun b' _ => ?_) fun x hx => .inl ?_
    · split <;> exact List.Sublist.refl _
    · split at hx <;> exact hx
  · split
    · dsimp only
      unfold enqueue
      split
      · refine hremove _ (fun b' hb' => ?_) fun x hx => ?_
        · show ((s.setBuffer _ _).buffers b').Sublist _
          rw [setBuffer_of_ne hb']
        · change x ∈ (s.setBuffer _ _).buffers _ at hx
          rw [setBuffer_self] at hx
          rcases List.mem_append.mp hx with hx | hx
          · exact .inl hx
          · exact .inr (List.mem_singleton.mp hx)
      · exact ⟨fun b' _ => List.Sublist.refl _, fun x hx => .inl hx⟩
    · exact ⟨fun b' _ => List.Sublist.refl _, fun x hx => .inl hx⟩

/-- What an issue does to the state. -/
structure Issued (c : Config D) (s : Controller D) (buses : Bool) (b : Buffer) (i : Nat) (r : Request) (cmd : Nat)
    (t : Controller D) : Prop where
  clk : t.clk = s.clk
  called : t.called = s.called
  issues : t.issues = s.issues ++ [s.issueOf c b i r cmd]
  dram : t.dram = (s.issueCommand c (s.issueCmd c r cmd) (s.issueTo c r cmd).2).dram
  pdLast : t.pdLast = (s.issueCommand c (s.issueCmd c r cmd) (s.issueTo c r cmd).2).pdLast
  power : t.pdIn = s.pdIn ∧ t.pdSince = s.pdSince ∧ t.pdWake = s.pdWake ∧ t.pdCycles = s.pdCycles ∧
    t.pdExits = s.pdExits ∧ t.pdLog = s.pdLog
  buses : ∀ u, u = (if buses then s.takeBuses c (s.converted c r cmd) (s.issueCmd c r cmd) else s) →
    t.caFree = u.caFree ∧ t.hdbFree = u.hdbFree ∧ t.hdbLast = u.hdbLast
  reads : t.reads = s.reads ++ finishReads c s (s.converted c r cmd) (s.issueCmd c r cmd)
  pending : t.pending = s.pending ++ finishReads c s (s.converted c r cmd) (s.issueCmd c r cmd)
  stay : ∀ b', b' ≠ .active → (t.buffers b').Sublist (s.buffers b')
  active : ∀ x ∈ t.buffers .active, x ∈ s.buffers .active ∨ x = s.converted c r cmd

/-- Taking the buses depends on them and the clock alone. -/
theorem takeBuses_spec (d : D) (last : Nat → Int) (issues : List Issue) (r : Request) (cmd : Nat) :
    ({ s with dram := d, pdLast := last, issues := issues } : Controller D).takeBuses c r cmd =
      { s with
        dram := d, pdLast := last, issues := issues
        caFree := (s.takeBuses c r cmd).caFree
        hdbFree := (s.takeBuses c r cmd).hdbFree
        hdbLast := (s.takeBuses c r cmd).hdbLast } := by
  unfold takeBuses
  dsimp only
  split_ifs <;> rfl

theorem pimidIssue_issued (buses : Bool) (b : Buffer) (i : Nat) (r : Request) (cmd : Nat) :
    Issued c s buses b i r cmd (s.pimidIssue c buses b i r cmd) := by
  obtain ⟨d, last, hiss⟩ := issueCommand_eq (c := c) (s := s) (s.issueCmd c r cmd) (s.issueTo c r cmd).2
  have hlog : s.logIssue c (s.issueOf c b i r cmd) =
      { s with dram := d, pdLast := last, issues := s.issues ++ [s.issueOf c b i r cmd] } := by
    unfold logIssue issueOf
    dsimp only
    rw [hiss]
  generalize htaken : (if buses then s.takeBuses c (s.converted c r cmd) (s.issueCmd c r cmd) else s) = v
  have htake : (if buses then
      (s.logIssue c (s.issueOf c b i r cmd)).takeBuses c (s.converted c r cmd) (s.issueCmd c r cmd)
      else s.logIssue c (s.issueOf c b i r cmd)) =
      { s with
        dram := d, pdLast := last, issues := s.issues ++ [s.issueOf c b i r cmd]
        caFree := v.caFree, hdbFree := v.hdbFree, hdbLast := v.hdbLast } := by
    rw [← htaken]
    cases buses with
    | false => exact hlog
    | true =>
      rw [if_pos rfl, if_pos rfl, hlog]
      exact takeBuses_spec ..
  generalize hu : (if buses then
      (s.logIssue c (s.issueOf c b i r cmd)).takeBuses c (s.converted c r cmd) (s.issueCmd c r cmd)
      else s.logIssue c (s.issueOf c b i r cmd)) = u at htake
  have hissue : s.pimidIssue c buses b i r cmd = u.finish c b i (s.converted c r cmd) (s.issueCmd c r cmd) := by
    rw [← hu]
    rfl
  have hreads : finishReads c u (s.converted c r cmd) (s.issueCmd c r cmd) =
      finishReads c s (s.converted c r cmd) (s.issueCmd c r cmd) := by
    rw [htake]
    rfl
  have hbuf : u.buffers = s.buffers := by rw [htake]
  obtain ⟨hstay, hactive⟩ := finish_buffers (c := c) (s := u) b i (s.converted c r cmd) (s.issueCmd c r cmd)
  obtain ⟨bs, hfin⟩ := finish_eq (c := c) (s := u) b i (s.converted c r cmd) (s.issueCmd c r cmd)
  rw [hissue]
  rw [hbuf] at hstay hactive
  rw [hreads] at hfin
  refine ⟨?_, ?_, ?_, ?_, ?_, ?_, ?_, ?_, ?_, hstay, hactive⟩
  · rw [hfin, htake]
  · rw [hfin, htake]
  · rw [hfin, htake]
  · rw [hfin, htake, hiss]
  · rw [hfin, htake, hiss]
  · rw [hfin, htake]
    exact ⟨rfl, rfl, rfl, rfl, rfl, rfl⟩
  · intro w hw
    rw [hfin, htake, hw, htaken]
    exact ⟨rfl, rfl, rfl⟩
  · rw [hfin, htake]
  · rw [hfin, htake]

/-- A candidate is of the request at its place. -/
def Candidate.Of (eval : Nat → Request → Option Nat) (buf : List Request) (x : Candidate) : Prop :=
  ∃ r, buf[x.index]? = some r ∧ eval x.index r = some x.cmd

theorem bestStep_of {eval : Nat → Request → Option Nat} {buf : List Request} {cand : Option Candidate} {x : Request × Nat}
    (hx : buf[x.2]? = some x.1) (hc : ∀ z, cand = some z → z.Of eval buf) {y : Candidate}
    (hy : bestStep eval cand x = some y) : y.Of eval buf := by
  unfold bestStep at hy
  rcases he : eval x.2 x.1 with _ | cmd
  · rw [he] at hy
    exact hc y hy
  · rw [he] at hy
    have hnew : Candidate.Of eval buf ⟨x.2, cmd, cmd == x.1.finalCommand, x.1.arrive⟩ := ⟨x.1, hx, he⟩
    cases cand with
    | none =>
      obtain rfl := Option.some.inj hy
      exact hnew
    | some z =>
      dsimp only at hy
      split at hy
      · obtain rfl := Option.some.inj hy
        exact hnew
      · exact hc y hy

theorem bestOf_spec {eval : Nat → Request → Option Nat} {buf : List Request} {x : Candidate}
    (hx : bestOf eval buf = some x) : x.Of eval buf := by
  unfold bestOf at hx
  have hmem : ∀ y ∈ buf.zipIdx, buf[y.2]? = some y.1 := by
    intro y hy
    exact List.mem_zipIdx_iff_getElem?.mp hy
  generalize buf.zipIdx = l at hx hmem
  suffices h : ∀ cand : Option Candidate, (∀ z, cand = some z → z.Of eval buf) →
      ∀ y, l.foldl (bestStep eval) cand = some y → y.Of eval buf from h none (fun z hz => nomatch hz) x hx
  clear hx
  induction l with
  | nil => exact fun cand hc y hy => hc y hy
  | cons y l ih =>
    intro cand hc z hz
    refine ih (fun w hw => hmem w (List.mem_cons_of_mem _ hw)) _ (fun w hw => ?_) z hz
    exact bestStep_of (hmem y (List.mem_cons_self ..)) hc hw

/-- A request of the active, read or write buffer that can be issued. -/
structure Eligible (c : Config D) (s : Controller D) (b : Buffer) (used : List AddrVec) (r : Request) (cmd : Nat) :
    Prop where
  cmd_eq : (s.issueTo c r cmd).1 = cmd
  free : c.lsTaken used (s.issueTo c r cmd).2 = false
  awake : ∀ a ∈ (s.issueTo c r cmd).2, s.pdOk c a = true
  data : s.hdbBlocks c r cmd = false
  ca : s.caBlocked c r = false
  close : b ≠ .active → c.dram.isClosing cmd = true →
    c.lsCloseBlocked (s.buffers .active) (s.issueTo c r cmd).2 = false

theorem lsTaken_single (used : List AddrVec) (a : AddrVec) : c.lsTaken used [a] = used.any (c.sameBank · a) := by
  rw [lsTaken, List.any_cons, List.any_nil, Bool.or_false]

theorem lsCloseBlocked_single (others : List Request) (a : AddrVec) :
    c.lsCloseBlocked others [a] = c.closeBlocked others a := by
  rw [lsCloseBlocked, List.any_cons, List.any_nil, Bool.or_false]

theorem issueTo_ls {r : Request} {cmd : Nat} (h : c.pimidLs r = true) : s.issueTo c r cmd = c.lsGroupCmd s.dram r := by
  rw [issueTo, if_pos h]

theorem issueTo_single {r : Request} {cmd : Nat} (h : ¬c.pimidLs r = true) : s.issueTo c r cmd = (cmd, [r.addrVec]) := by
  rw [issueTo, if_neg h]

theorem evalRequest_spec {b : Buffer} {used : List AddrVec} {r : Request} {cmd : Nat}
    (h : s.evalRequest c b used r = some cmd) : s.Eligible c b used r cmd := by
  unfold evalRequest at h
  by_cases hls : c.pimidLs r = true
  · rw [if_pos hls] at h
    dsimp only at h
    split_ifs at h with htaken hready hdata hdir hca hclose
    obtain rfl := Option.some.inj h
    have hto : s.issueTo c r (c.lsGroupCmd s.dram r).1 = c.lsGroupCmd s.dram r := issueTo_ls hls
    refine ⟨by rw [hto], by rw [hto]; exact Bool.eq_false_iff.mpr htaken, fun a ha => ?_, Bool.eq_false_iff.mpr hdata,
      Bool.eq_false_iff.mpr hca, fun hb hcl => ?_⟩
    · rw [hto] at ha
      have hall := List.all_eq_true.mp (by simpa using hready) a ha
      rw [pimidReady, Bool.and_eq_true] at hall
      exact hall.1
    · rw [hto]
      simp only [Bool.and_eq_true, not_and, Bool.not_eq_true] at hclose
      exact hclose ⟨by simpa using hb, hcl⟩
  · rw [if_neg hls] at h
    dsimp only at h
    split_ifs at h with htaken hready hdata hdir hca hclose
    obtain rfl := Option.some.inj h
    have hto : ∀ cmd, s.issueTo c r cmd = (cmd, [r.addrVec]) := fun _ => issueTo_single hls
    refine ⟨by rw [hto], ?_, fun a ha => ?_, Bool.eq_false_iff.mpr hdata, Bool.eq_false_iff.mpr hca, fun hb hcl => ?_⟩
    · rw [hto, lsTaken_single]
      exact Bool.eq_false_iff.mpr htaken
    · rw [hto] at ha
      obtain rfl := List.mem_singleton.mp ha
      rw [pimidReady, Bool.not_eq_true', Bool.not_eq_false, Bool.and_eq_true] at hready
      exact hready.1
    · rw [hto, lsCloseBlocked_single]
      simp only [Bool.and_eq_true, not_and, Bool.not_eq_true] at hclose
      exact hclose ⟨by simpa using hb, hcl⟩

/-- The data bus binds a command from the clock on that the index compares. -/
theorem hdbBlocks_of_readyAt {r : Request} {cmd : Nat} {ra : Int} (hra : ¬(0 ≤ max ra (s.hdbReadyAt c r cmd) ∧
    s.clk < max ra (s.hdbReadyAt c r cmd))) (hclk : 0 ≤ s.clk) : s.hdbBlocks c r cmd = false := by
  unfold hdbBlocks
  rw [Bool.and_eq_false_iff]
  refine .inr (decide_eq_false ?_)
  omega

theorem evalSlot_spec (hclk : 0 ≤ s.clk) {b : Buffer} {used : List AddrVec} {slot : Slot} {r : Request} {cmd : Nat}
    (h : s.evalSlot c used slot r = some cmd) : s.Eligible c b used r cmd := by
  unfold evalSlot at h
  by_cases hls : c.pimidLs r = true
  · rw [if_pos hls] at h
    dsimp only at h
    split at h
    · cases h
    · split_ifs at h with htaken hready hawake hdir hca hclose
      obtain rfl := Option.some.inj h
      have hto : s.issueTo c r (c.lsGroupCmd s.dram r).1 = c.lsGroupCmd s.dram r := issueTo_ls hls
      refine ⟨by rw [hto], by rw [hto]; exact Bool.eq_false_iff.mpr htaken, fun a ha => ?_,
        hdbBlocks_of_readyAt hready hclk, Bool.eq_false_iff.mpr hca, fun _ hcl => ?_⟩
      · rw [hto] at ha
        exact List.all_eq_true.mp (by simpa using hawake) a ha
      · rw [hto]
        simp only [Bool.and_eq_true, not_and, Bool.not_eq_true] at hclose
        exact hclose hcl
  · rw [if_neg hls] at h
    dsimp only at h
    split at h
    · cases h
    · generalize slot.command (c.dram.getPreqCommand s.dram r.finalCommand r.addrVec) = k at h
      split_ifs at h with htaken hready hawake hdir hca hclose
      obtain rfl := Option.some.inj h
      have hto : s.issueTo c r k = (k, [r.addrVec]) := issueTo_single hls
      refine ⟨by rw [hto], ?_, fun a ha => ?_, hdbBlocks_of_readyAt hready hclk, Bool.eq_false_iff.mpr hca, fun _ hcl => ?_⟩
      · rw [hto, lsTaken_single]
        exact Bool.eq_false_iff.mpr htaken
      · rw [hto] at ha
        obtain rfl := List.mem_singleton.mp ha
        simpa using hawake
      · rw [hto, lsCloseBlocked_single]
        simp only [Bool.and_eq_true, not_and, Bool.not_eq_true] at hclose
        exact hclose hcl

/-- The requests of the priority buffer are nobody's. -/
def PriorityOk (s : Controller D) : Prop := ∀ r ∈ s.buffers .priority, r.sourceId = -1

theorem host_of_priority {r : Request} (h : r.sourceId = -1) : host r = false := by
  unfold host
  rw [h]
  rfl

theorem pimidLs_of_priority {r : Request} (h : r.sourceId = -1) : c.pimidLs r = false := by
  rw [pimidLs, host_of_priority h, Bool.and_false]

/-- A request as a pick of the bank-parallel tick chooses it. -/
structure Picked (c : Config D) (s : Controller D) (bankScopedHead : Bool) (used : List AddrVec) (issued : Nat) (b : Buffer)
    (i : Nat) (r : Request) (cmd : Nat) : Prop where
  mem : (s.buffers b)[i]? = some r
  cmd_eq : (s.issueTo c r cmd).1 = cmd
  awake : ∀ a ∈ (s.issueTo c r cmd).2, s.pdOk c a = true
  data : s.hdbBlocks c r cmd = false
  ca : s.caBlocked c r = false
  free : (b = .priority → bankScopedHead = true) → c.lsTaken used (s.issueTo c r cmd).2 = false
  first : b = .priority → bankScopedHead = false → issued = 0
  bankScoped : b = .priority → bankScopedHead = true → r.addrVec c.dram.bankLevel ≠ -1
  close : b = .read ∨ b = .write → c.dram.isClosing cmd = true →
    c.lsCloseBlocked (s.buffers .active) (s.issueTo c r cmd).2 = false

/-- A request of a buffer as a pick can choose it, with the command it asks for. -/
inductive Due (c : Config D) (s : Controller D) (b : Buffer) (r : Request) (cmd : Nat) : Prop
  | best (hb : b ≠ .priority) (used : List AddrVec) (h : s.evalRequest c b used r = some cmd)
  | index (hi : c.indexed = true) (hb : b = .read ∨ b = .write) (used : List AddrVec) (slot : Slot)
      (h : s.evalSlot c used slot r = some cmd)
  | next (hb : b = .priority) (h : cmd = c.dram.getPreqCommand s.dram r.finalCommand r.addrVec)
      (hready : s.pimidReady c cmd r.addrVec = true)

theorem lsTaken_mono {used used' sel : List AddrVec} (h : ∀ k ∈ used, k ∈ used') (hf : c.lsTaken used' sel = false) :
    c.lsTaken used sel = false := by
  unfold lsTaken at *
  rw [List.any_eq_false] at *
  intro a ha
  rw [Bool.not_eq_true, List.any_eq_false]
  intro k hk
  have hno := hf a ha
  rw [Bool.not_eq_true, List.any_eq_false] at hno
  exact hno k (h k hk)

theorem scanPriority_spec {l : List (Request × Nat)} {used : List AddrVec} :
    (∀ k ∈ used, k ∈ (s.scanPriority c l used).2) ∧
    ∀ i cmd, (s.scanPriority c l used).1 = some (i, cmd) → ∃ r, (r, i) ∈ l ∧ r.addrVec c.dram.bankLevel ≠ -1 ∧
      used.any (c.sameBank · r.addrVec) = false ∧ s.pimidReady c cmd r.addrVec = true ∧
      cmd = c.dram.getPreqCommand s.dram r.finalCommand r.addrVec := by
  induction l generalizing used with
  | nil => exact ⟨fun k hk => hk, fun i cmd h => nomatch h⟩
  | cons x rest ih =>
    obtain ⟨r, i⟩ := x
    rw [scanPriority]
    dsimp only
    split_ifs with hscope htaken hready
    · exact ⟨fun k hk => hk, fun i cmd h => nomatch h⟩
    · refine ⟨ih.1, fun j cmd h => ?_⟩
      obtain ⟨q, hq, hok⟩ := ih.2 j cmd h
      exact ⟨q, List.mem_cons_of_mem _ hq, hok⟩
    · refine ⟨fun k hk => hk, fun j cmd h => ?_⟩
      obtain ⟨rfl, rfl⟩ := Prod.mk.inj (Option.some.inj h)
      exact ⟨r, List.mem_cons_self .., by simpa using hscope, Bool.eq_false_iff.mpr htaken, hready, rfl⟩
    · refine ⟨fun k hk => ih.1 k (List.mem_append_left _ hk), fun j cmd h => ?_⟩
      obtain ⟨q, hq, hscoped, hfree, hok⟩ := ih.2 j cmd h
      refine ⟨q, List.mem_cons_of_mem _ hq, hscoped, ?_, hok⟩
      rw [List.any_append] at hfree
      exact (Bool.or_eq_false_iff.mp hfree).1

theorem Eligible.picked {head : Bool} {used used' : List AddrVec} {issued : Nat} {b : Buffer} {i : Nat} {r : Request}
    {cmd : Nat} (he : s.Eligible c b used' r cmd) (hmem : (s.buffers b)[i]? = some r) (hb : b ≠ .priority)
    (hused : ∀ k ∈ used, k ∈ used') : s.Picked c head used issued b i r cmd where
  mem := hmem
  cmd_eq := he.cmd_eq
  awake := he.awake
  data := he.data
  ca := he.ca
  free _ := lsTaken_mono hused he.free
  first h := absurd h hb
  bankScoped h := absurd h hb
  close h := he.close (by rcases h with rfl | rfl <;> exact nofun)

theorem picked_priority {head : Bool} {used : List AddrVec} {issued : Nat} {i : Nat} {r : Request} {cmd : Nat}
    (hprio : PriorityOk s) (hmem : (s.buffers .priority)[i]? = some r) (hready : s.pimidReady c cmd r.addrVec = true)
    (hfree : head = true → used.any (c.sameBank · r.addrVec) = false) (hfirst : head = false → issued = 0)
    (hscoped : head = true → r.addrVec c.dram.bankLevel ≠ -1) : s.Picked c head used issued .priority i r cmd := by
  have hsource := hprio r (List.mem_of_getElem? hmem)
  have hto : s.issueTo c r cmd = (cmd, [r.addrVec]) :=
    issueTo_single (by rw [pimidLs_of_priority hsource]; exact Bool.false_ne_true)
  refine ⟨hmem, by rw [hto], fun a ha => ?_, ?_, ?_, fun h => ?_, fun _ => hfirst, fun _ => hscoped, nofun⟩
  · rw [hto] at ha
    obtain rfl := List.mem_singleton.mp ha
    rw [pimidReady, Bool.and_eq_true] at hready
    exact hready.1
  · rw [hdbBlocks, hdbHost, host_of_priority hsource, Bool.and_false, Bool.false_and, Bool.false_and]
  · rw [caBlocked, caHost, host_of_priority hsource, Bool.and_false, Bool.false_and]
  · rw [hto, lsTaken_single]
    exact hfree (h rfl)

theorem pimidBest_picked {head : Bool} {b : Buffer} {used used' : List AddrVec} {issued : Nat} {x : Candidate}
    (hb : b ≠ .priority) (hused : ∀ k ∈ used, k ∈ used') (hx : s.pimidBest c b used' = some x) :
    ∃ r, s.Picked c head used issued b x.index r x.cmd ∧ s.Due c b r x.cmd := by
  obtain ⟨r, hr, he⟩ := bestOf_spec hx
  exact ⟨r, (evalRequest_spec he).picked hr hb hused, .best hb _ he⟩

theorem plBest_picked {head : Bool} {b : Buffer} {used used' : List AddrVec} {issued : Nat} {slots : Nat → Slot}
    {x : Candidate} (hclk : 0 ≤ s.clk) (hb : b = .read ∨ b = .write) (hused : ∀ k ∈ used, k ∈ used')
    (hx : s.plBest c b used' slots = some x) :
    ∃ r, s.Picked c head used issued b x.index r x.cmd ∧ s.Due c b r x.cmd := by
  have hne : b ≠ .priority := by rcases hb with rfl | rfl <;> exact nofun
  unfold plBest at hx
  split at hx
  · exact pimidBest_picked hne hused hx
  · next hi =>
    obtain ⟨r, hr, he⟩ := bestOf_spec hx
    exact ⟨r, Eligible.picked (evalSlot_spec hclk he) hr hne hused, .index (by simpa using hi) hb _ _ he⟩

theorem foundIn_eq {b b' : Buffer} {x : Option Candidate} {i cmd : Nat} (h : foundIn b' x = .found b i cmd) :
    b' = b ∧ ∃ y, x = some y ∧ y.index = i ∧ y.cmd = cmd := by
  cases x with
  | none => cases h
  | some y =>
    injection h with hb hi hc
    exact ⟨hb, y, rfl, hi, hc⟩

theorem pickReadWrite_picked {head : Bool} {b : Buffer} {used used' : List AddrVec} {issued : Nat} {i cmd : Nat}
    {slots : Buffer → Nat → Slot} (hclk : 0 ≤ s.clk) (hused : ∀ k ∈ used, k ∈ used')
    (hp : s.pickReadWrite c used' slots = .found b i cmd) :
    ∃ r, s.Picked c head used issued b i r cmd ∧ s.Due c b r cmd := by
  have hfound : ∀ {b' x}, b' = .read ∨ b' = .write → s.plBest c b' used' (slots b') = x →
      foundIn b' x = .found b i cmd → ∃ r, s.Picked c head used issued b i r cmd ∧ s.Due c b r cmd := by
    intro b' x hb' hx h
    obtain ⟨rfl, y, rfl, rfl, rfl⟩ := foundIn_eq h
    exact plBest_picked hclk hb' hused hx
  unfold pickReadWrite at hp
  dsimp only at hp
  split at hp
  · split at hp
    · next h => exact hfound (.inl rfl) h hp
    · exact hfound (.inr rfl) rfl hp
  · split at hp
    · next h => exact hfound (.inr rfl) h hp
    · exact hfound (.inl rfl) rfl hp

/-- **Every pick is of a request that can be issued.** -/
theorem pick_picked {head : Bool} {b : Buffer} {used : List AddrVec} {issued : Nat} {i cmd : Nat}
    {slots : Buffer → Nat → Slot} (hclk : 0 ≤ s.clk) (hprio : PriorityOk s)
    (hp : s.pick c head used issued slots = .found b i cmd) :
    ∃ r, s.Picked c head used issued b i r cmd ∧ s.Due c b r cmd := by
  unfold pick at hp
  dsimp only at hp
  generalize hscan : (if head = true then s.scanPriority c (s.buffers .priority).zipIdx used else (none, used)) = scan at hp
  have hused : ∀ k ∈ used, k ∈ scan.2 := by
    rw [← hscan]
    split
    · exact scanPriority_spec.1
    · exact fun k hk => hk
  split at hp
  · next x hx =>
    injection hp with hb hi hcmd
    subst hb hi hcmd
    split at hscan
    · next hhead =>
      rw [← hscan] at hx
      obtain ⟨r, hr, hscoped, hfree, hready, hnext⟩ := scanPriority_spec.2 x.1 x.2 hx
      refine ⟨r, picked_priority hprio (List.mem_zipIdx_iff_getElem?.mp hr) hready (fun _ => hfree) (fun h => ?_)
        fun _ => hscoped, .next rfl hnext hready⟩
      rw [hhead] at h
      cases h
    · rw [← hscan] at hx
      cases hx
  · split at hp
    · next x hx =>
      injection hp with hb hi hcmd
      subst hb hi hcmd
      exact pimidBest_picked nofun hused hx
    · split at hp
      · next r rest hb =>
        unfold pickMaintenance at hp
        split at hp
        · cases hp
        · next hissued =>
          dsimp only at hp
          split at hp
          · next hready =>
            injection hp with hb' hi hcmd
            subst hb' hi hcmd
            refine ⟨r, picked_priority hprio (by rw [hb]; rfl) hready nofun (fun _ => by omega) nofun, .next rfl rfl hready⟩
          · cases hp
      · exact pickReadWrite_picked hclk hused hp

/-! ## Priority requests between a pick and its issue -/

theorem prioritySends_active (xs : List (AddrVec × Nat)) :
    (s.prioritySends c xs).buffers .active = s.buffers .active := by
  obtain ⟨l, hl, -⟩ := prioritySends_eq (c := c) (s := s) xs
  rw [hl]
  exact setBuffer_of_ne (by decide) _

theorem PriorityOk.prioritySends (h : PriorityOk s) (xs : List (AddrVec × Nat)) : PriorityOk (s.prioritySends c xs) := by
  obtain ⟨l, hl, hlok⟩ := prioritySends_eq (c := c) (s := s) xs
  rw [hl]
  intro r hr
  rw [setBuffer_self] at hr
  rcases List.mem_append.mp hr with hr | hr
  · exact h r hr
  · exact (hlok r hr).1

theorem Picked.prioritySends {head : Bool} {used : List AddrVec} {issued : Nat} {b : Buffer} {i : Nat} {r : Request}
    {cmd : Nat} (h : s.Picked c head used issued b i r cmd) (xs : List (AddrVec × Nat)) :
    (s.prioritySends c xs).Picked c head used issued b i r cmd := by
  obtain ⟨l, hl, -⟩ := prioritySends_eq (c := c) (s := s) xs
  rw [hl]
  refine ⟨?_, h.cmd_eq, h.awake, h.data, h.ca, h.free, h.first, h.bankScoped, ?_⟩
  · by_cases hb : b = .priority
    · subst hb
      rw [setBuffer_self, List.getElem?_append_left (List.getElem?_eq_some_iff.mp h.mem).1]
      exact h.mem
    · rw [setBuffer_of_ne hb]
      exact h.mem
  · rw [setBuffer_of_ne (show Buffer.active ≠ .priority by decide)]
    exact h.close

/-! ## The picks of a tick -/

/-- What the picks of a tick keep: `P` of the state, the addresses used and the number of commands issued, where what is
sent to the priority buffer is `A`. -/
structure Loop (c : Config D) (A : AddrVec × Nat → Prop) (head : Bool)
    (P : Controller D → List AddrVec → Nat → Prop) (Q : Controller D → Prop) : Prop where
  done : ∀ s used n, P s used n → Q s
  clk : ∀ s used n, P s used n → 0 ≤ s.clk
  priority : ∀ s used n, P s used n → PriorityOk s
  sends : ∀ s used n xs, (∀ x ∈ xs, A x) → P s used n → P (s.prioritySends c xs) used n
  last : ∀ s used n i r cmd, P s used n → s.Picked c head used n .priority i r cmd → head = false →
    Q (s.pimidIssue c true .priority i r cmd)
  issue : ∀ s used n b i r cmd, P s used n → s.Picked c head used n b i r cmd → (b = .priority → head = true) →
    P (s.pimidIssue c true b i r cmd) (used ++ [r.addrVec]) (n + 1)

/-- What is sent in a tick is `A`. -/
def TickInput.All (A : AddrVec × Nat → Prop) (input : TickInput) : Prop :=
  (∀ x ∈ input.refresh, A x) ∧ ∀ n p, ∀ x ∈ input.update n p, A x

theorem Loop.run {A : AddrVec × Nat → Prop} {head : Bool} {P : Controller D → List AddrVec → Nat → Prop}
    {Q : Controller D → Prop} (h : Loop c A head P Q) {input : TickInput} (hin : input.All A) (fuel : Nat)
    {used : List AddrVec} {n : Nat} (hp : P s used n) : Q (pickLoop c input head fuel s used n) := by
  induction fuel generalizing s used n with
  | zero => exact h.done s used n hp
  | succ fuel ih =>
    rw [pickLoop]
    rcases hpick : s.pick c head used n (input.slots n) with _ | _ | ⟨b, i, cmd⟩
    · exact h.done s used n hp
    · exact h.done _ used n (h.sends s used n _ (hin.2 n _) hp)
    · obtain ⟨r, hr, -⟩ := pick_picked (h.clk s used n hp) (h.priority s used n hp) hpick
      dsimp only
      rw [hr.mem]
      dsimp only
      have hp' := h.sends s used n _ (hin.2 n (some (r, cmd))) hp
      have hr' := hr.prioritySends (input.update n (some (r, cmd)))
      split
      · next hlast =>
        obtain ⟨rfl, hhead⟩ := hlast
        exact h.last _ used n i r cmd hp' hr' (by simpa using hhead)
      · next hmore =>
        refine ih (h.issue _ used n b i r cmd hp' hr' fun hb => ?_)
        by_contra hhead
        exact hmore ⟨hb, by simpa using hhead⟩

/-! ## The request of a plain tick -/

/-- A request as the plain tick chooses it. -/
structure Scheduled (c : Config D) (s : Controller D) (b : Buffer) (i : Nat) (r : Request) (cmd : Nat) : Prop where
  mem : (s.buffers b)[i]? = some r
  cmd_eq : (s.issueTo c r cmd).1 = cmd
  awake : ∀ a ∈ (s.issueTo c r cmd).2, s.pdOk c a = true
  close : c.dram.isClosing cmd = true → c.pimidLs r = false → ∀ e ∈ s.buffers .active, c.sameBank e.addrVec r.addrVec = false
  closeLs : c.dram.isClosing cmd = true → c.pimidLs r = true →
    c.lsCloseBlocked (s.others (selfIn b i)) (s.issueTo c r cmd).2 = false

/-- A request and a command it is ready for: the scheduler's choice of a buffer, or the next command of the first priority
request. -/
structure Ready (c : Config D) (s : Controller D) (b : Buffer) (i : Nat) (cmd : Nat) (r : Request) : Prop where
  mem : (s.buffers b)[i]? = some r
  ready : s.pimidReady c cmd r.addrVec = true
  asked : if b = .priority then i = 0 ∧ cmd = c.dram.getPreqCommand s.dram r.finalCommand r.addrVec
    else c.getBestRequest s.dram (s.buffers b) = some (i, cmd)

theorem readyAt_spec {b b' : Buffer} {x : Option (Nat × Nat)} {i cmd : Nat} {r : Request}
    (h : s.readyAt c b x = some (b', i, cmd, r)) :
    b' = b ∧ x = some (i, cmd) ∧ (s.buffers b)[i]? = some r ∧ s.pimidReady c cmd r.addrVec = true := by
  unfold readyAt at h
  rcases x with _ | ⟨j, k⟩
  · cases h
  · dsimp only at h
    rcases hr : (s.buffers b)[j]? with _ | q
    · rw [hr] at h
      cases h
    · rw [hr] at h
      dsimp only at h
      split at h
      · next hready =>
        obtain ⟨rfl, rfl, rfl, rfl⟩ := Option.some.inj h
        exact ⟨rfl, rfl, hr, hready⟩
      · cases h

theorem ready_of_scheduler {b b' : Buffer} {i cmd : Nat} {r : Request} (hb : b ≠ .priority)
    (h : s.readyAt c b (c.getBestRequest s.dram (s.buffers b)) = some (b', i, cmd, r)) : s.Ready c b' i cmd r := by
  obtain ⟨rfl, hx, hr, hready⟩ := readyAt_spec h
  exact ⟨hr, hready, by rw [if_neg hb]; exact hx⟩

theorem findRequest_spec {b : Buffer} {i cmd : Nat} {r : Request} (h : (s.findRequest c).1 = some (b, i, cmd, r)) :
    (s.findRequest c).2.Ready c b i cmd r := by
  unfold findRequest at *
  split at h
  · next x hready =>
    obtain rfl := Option.some.inj h
    have hactive : Buffer.active ≠ .priority := nofun
    exact ready_of_scheduler hactive hready
  · split at h
    · next q rest hq =>
      dsimp only at h
      obtain ⟨rfl, hx, hr, hready⟩ := readyAt_spec h
      obtain ⟨rfl, rfl⟩ := Prod.mk.inj (Option.some.inj hx)
      refine ⟨hr, hready, ?_⟩
      rw [hq] at hr
      obtain rfl := Option.some.inj hr
      rw [if_pos rfl]
      exact ⟨rfl, rfl⟩
    · exact ready_of_scheduler (by split <;> exact nofun) h

theorem scheduleRequest_spec {b : Buffer} {i cmd : Nat} {r : Request}
    (h : (s.scheduleRequest c).1 = some (b, i, cmd, r)) :
    (s.scheduleRequest c).2.Ready c b i cmd r ∧ (s.scheduleRequest c).2.closesActive c r cmd = false := by
  obtain ⟨hfound, hclose⟩ := Option.filter_eq_some_iff.mp h
  refine ⟨findRequest_spec hfound, ?_⟩
  show (s.findRequest c).2.closesActive c r cmd = false
  simpa using hclose

theorem scheduleRequest_mode : ∃ w, (s.scheduleRequest c).2 = { s with isWriteMode := w } := by
  show ∃ w, (s.findRequest c).2 = { s with isWriteMode := w }
  unfold findRequest
  split
  · exact ⟨s.isWriteMode, rfl⟩
  · split
    · exact ⟨s.isWriteMode, rfl⟩
    · exact setWriteMode_eq

theorem lsScheduled_spec {b b' : Buffer} {i i' cmd cmd' : Nat} {r r' : Request} (hready : s.Ready c b i cmd r)
    (hclose : s.closesActive c r cmd = false) (h : s.lsScheduled c (b, i, cmd, r) = some (b', i', cmd', r')) :
    s.Scheduled c b' i' r' cmd' := by
  unfold lsScheduled at h
  dsimp only at h
  by_cases hls : c.pimidLs r = true
  · rw [if_pos hls] at h
    split at h
    · next hok =>
      obtain ⟨rfl, rfl, rfl, rfl⟩ := Option.some.inj h
      have hto : s.issueTo c r (c.lsGroupCmd s.dram r).1 = c.lsGroupCmd s.dram r := issueTo_ls hls
      rw [Bool.and_eq_true, List.all_eq_true] at hok
      refine ⟨hready.mem, by rw [hto], fun a ha => ?_, fun _ hno => ?_, fun hcl _ => ?_⟩
      · rw [hto] at ha
        have hall := hok.1 a ha
        rw [pimidReady, Bool.and_eq_true] at hall
        exact hall.1
      · rw [hls] at hno
        cases hno
      · rw [hto]
        have hnot := hok.2
        rw [hcl, Bool.true_and, Bool.not_eq_true'] at hnot
        exact hnot
    · cases h
  · rw [if_neg hls] at h
    obtain ⟨rfl, rfl, rfl, rfl⟩ := Option.some.inj h
    have hto : s.issueTo c r cmd = (cmd, [r.addrVec]) := issueTo_single hls
    refine ⟨hready.mem, by rw [hto], fun a ha => ?_, fun hcl _ e he => ?_, fun _ hls' => absurd hls' hls⟩
    · rw [hto] at ha
      obtain rfl := List.mem_singleton.mp ha
      have hok := hready.ready
      rw [pimidReady, Bool.and_eq_true] at hok
      exact hok.1
    · unfold closesActive at hclose
      rw [hcl, Bool.true_and, List.any_eq_false] at hclose
      exact Bool.eq_false_iff.mpr (hclose e he)

theorem Scheduled.prioritySends {b : Buffer} {i : Nat} {r : Request} {cmd : Nat} (h : s.Scheduled c b i r cmd)
    (xs : List (AddrVec × Nat)) : (s.prioritySends c xs).Scheduled c b i r cmd := by
  have hactive := prioritySends_active (c := c) (s := s) xs
  obtain ⟨l, hl, -⟩ := prioritySends_eq (c := c) (s := s) xs
  rw [hl] at hactive ⊢
  refine ⟨?_, h.cmd_eq, h.awake, ?_, ?_⟩
  · by_cases hb : b = .priority
    · subst hb
      rw [setBuffer_self, List.getElem?_append_left (List.getElem?_eq_some_iff.mp h.mem).1]
      exact h.mem
    · rw [setBuffer_of_ne hb]
      exact h.mem
  · rw [hactive]
    exact h.close
  · have hothers : ∀ self, (s.setBuffer .priority (s.buffers .priority ++ l)).others self = s.others self := by
      intro self
      cases self <;> (unfold others; rw [hactive])
    rw [hothers]
    exact h.closeLs

/-! ## A property that every step keeps -/

/-- A request as it is chosen, in either mode. -/
structure Issuable (c : Config D) (s : Controller D) (buses : Bool) (b : Buffer) (i : Nat) (r : Request) (cmd : Nat) :
    Prop where
  mem : (s.buffers b)[i]? = some r
  cmd_eq : (s.issueTo c r cmd).1 = cmd
  awake : ∀ a ∈ (s.issueTo c r cmd).2, s.pdOk c a = true
  buses_eq : c.bankParallel = true → buses = true
  data : c.bankParallel = true → s.hdbBlocks c r cmd = false
  ca : c.bankParallel = true → s.caBlocked c r = false
  close : c.bankParallel = true → b = .read ∨ b = .write → c.dram.isClosing cmd = true →
    c.lsCloseBlocked (s.buffers .active) (s.issueTo c r cmd).2 = false
  plain : c.bankParallel = false → s.Scheduled c b i r cmd

/-- What every step of a tick after the power-down units keeps, where what is sent to the priority buffer is `A`. -/
structure Kept (c : Config D) (A : AddrVec × Nat → Prop) (P : Controller D → Prop) : Prop where
  clk : ∀ s, P s → 0 ≤ s.clk
  priority : ∀ s, P s → PriorityOk s
  sends : ∀ s xs, (∀ x ∈ xs, A x) → P s → P (s.prioritySends c xs)
  mode : ∀ s w h, P s → P { s with isWriteMode := w, hdbWm := h }
  issue : ∀ s buses b i r cmd, P s → s.Issuable c buses b i r cmd → P (s.pimidIssue c buses b i r cmd)

theorem Picked.issuable {head : Bool} {used : List AddrVec} {issued : Nat} {b : Buffer} {i : Nat} {r : Request}
    {cmd : Nat} (h : s.Picked c head used issued b i r cmd) (hb : c.bankParallel = true) :
    s.Issuable c true b i r cmd where
  mem := h.mem
  cmd_eq := h.cmd_eq
  awake := h.awake
  buses_eq _ := rfl
  data _ := h.data
  ca _ := h.ca
  close _ := h.close
  plain hno := by
    rw [hb] at hno
    cases hno

theorem Scheduled.issuable {b : Buffer} {i : Nat} {r : Request} {cmd : Nat} {buses : Bool} (h : s.Scheduled c b i r cmd)
    (hb : c.bankParallel = false) : s.Issuable c buses b i r cmd where
  mem := h.mem
  cmd_eq := h.cmd_eq
  awake := h.awake
  buses_eq hyes := by
    rw [hb] at hyes
    cases hyes
  data hyes := by
    rw [hb] at hyes
    cases hyes
  ca hyes := by
    rw [hb] at hyes
    cases hyes
  close hyes := by
    rw [hb] at hyes
    cases hyes
  plain _ := h

variable {A : AddrVec × Nat → Prop} {P : Controller D → Prop} {input : TickInput}

theorem Kept.modes (h : Kept c A P) (hp : P s) : P ((s.setWriteMode c).hdbSetMode c) := by
  obtain ⟨w, hw⟩ := setWriteMode_eq (c := c) (s := s)
  obtain ⟨m, hm⟩ := hdbSetMode_eq (c := c) (s := { s with isWriteMode := w })
  rw [hw, hm]
  exact h.mode s w m hp

theorem Kept.bankParallel (h : Kept c A P) (hb : c.bankParallel = true) (hin : input.All A) (hp : P s) :
    P (s.pimidTickBankParallel c input) := by
  unfold pimidTickBankParallel
  dsimp only
  have hm := h.modes hp
  split
  · exact h.sends _ _ (hin.2 _ _) hm
  · refine Loop.run (P := fun s _ _ => P s) ⟨fun _ _ _ hs => hs, fun s _ _ hs => h.clk s hs,
      fun s _ _ hs => h.priority s hs, fun s _ _ xs hxs hs => h.sends s xs hxs hs, fun s _ _ i r cmd hs hr _ => ?_,
      fun s _ _ b i r cmd hs hr _ => ?_⟩ hin _ hm
    · exact h.issue s _ _ _ _ _ hs (hr.issuable hb)
    · exact h.issue s _ _ _ _ _ hs (hr.issuable hb)

theorem Kept.plainTick (h : Kept c A P) (hb : c.bankParallel = false) (hin : input.All A) (hp : P s) :
    P (s.plainTick c input) := by
  have hmode : P (s.scheduleRequest c).2 := by
    obtain ⟨w, hw⟩ := scheduleRequest_mode (c := c) (s := s)
    rw [hw]
    exact h.mode s w s.hdbWm hp
  unfold Controller.plainTick
  dsimp only
  cases hfound : (s.scheduleRequest c).1 with
  | none => exact h.sends _ _ (hin.2 _ _) hmode
  | some x =>
    obtain ⟨b, i, cmd, r⟩ := x
    obtain ⟨hready, hclose⟩ := scheduleRequest_spec hfound
    dsimp only [Option.bind]
    rcases hls : (s.scheduleRequest c).2.lsScheduled c (b, i, cmd, r) with _ | ⟨b', i', cmd', r'⟩
    · exact h.sends _ _ (hin.2 _ _) hmode
    · have hs := lsScheduled_spec hready hclose hls
      exact h.issue _ _ _ _ _ _ (h.sends _ _ (hin.2 _ _) hmode) ((hs.prioritySends _).issuable hb)

end Controller

end Pimid.Ramulator
