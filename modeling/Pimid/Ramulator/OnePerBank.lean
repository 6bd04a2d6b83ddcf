import Pimid.Ramulator.Units
import Mathlib.Algebra.BigOperators.Group.List.Lemmas

/-!
# One command of a bank in a cycle

A bank-parallel tick remembers the banks it has used by the addresses of the requests it has served.
A command of one chip goes to the bank of its request, so two commands never meet. A lock-step
command goes to the chips that are furthest behind, which need not include the one its request
names, and a later command of the tick finds those chips free.
-/

namespace Pimid.Ramulator

variable {D : Type} {c : Config D}

/-- A request of the priority buffer for a rank or a channel. -/
def Issue.Maintenance (c : Config D) (e : Issue) : Prop :=
  e.buffer = .priority ∧ e.request.addrVec c.dram.bankLevel = -1

/-- The commands of a tick go to different banks of each chip, and maintenance is alone. -/
structure OnePerBank (c : Config D) (l : List Issue) : Prop where
  banks : (l.flatMap Issue.addrs).Pairwise fun a b => c.sameBank a b = false
  alone : ∀ e ∈ l, e.Maintenance c → l = [e]

namespace Controller

open Ramulator.Config

variable {s : Controller D}

/-- The commands of a bank-parallel tick. -/
def tickIssues (c : Config D) (s : Controller D) (input : TickInput) : List Issue :=
  (s.pimidTickBankParallel c input).issues.drop s.issues.length

/-! ## What the picks keep -/

/-- A command keeps off the banks of the requests served before it in the tick. -/
def KeepsOff (c : Config D) (e f : Issue) : Prop := ∀ b ∈ f.addrs, c.sameBank e.request.addrVec b = false

/-- The commands of a tick: each keeps off the earlier ones' banks, maintenance is alone, and a request that does not
drive a whole rank has its own address. -/
structure TickOk (c : Config D) (l : List Issue) : Prop where
  keepsOff : l.Pairwise (KeepsOff c)
  alone : ∀ e ∈ l, e.Maintenance c → l = [e]
  single : ∀ e ∈ l, c.pimidLs e.request = false → e.addrs = [e.request.addrVec]

/-- **What every pick keeps** of a tick that began after the commands `old`. -/
structure TickKept (c : Config D) (old : List Issue) (s : Controller D) (used : List AddrVec) (n : Nat) : Prop where
  clk : 0 ≤ s.clk
  priority : PriorityOk s
  issues : ∃ new, s.issues = old ++ new ∧ new.length = n ∧ new.map (·.request.addrVec) = used ∧ TickOk c new ∧
    ∀ e ∈ new, ¬e.Maintenance c

/-- The commands after those of `old`. -/
def Added (c : Config D) (old : List Issue) (s : Controller D) : Prop := ∃ new, s.issues = old ++ new ∧ TickOk c new

theorem issueOf_single {b : Buffer} {i : Nat} {r : Request} {cmd : Nat}
    (h : c.pimidLs (s.issueOf c b i r cmd).request = false) :
    (s.issueOf c b i r cmd).addrs = [(s.issueOf c b i r cmd).request.addrVec] := by
  have hls : ¬c.pimidLs r = true := by
    rw [← pimidLs_converted (s := s) r cmd]
    exact Bool.eq_false_iff.mp h
  show (s.issueTo c r cmd).2 = [(s.converted c r cmd).addrVec]
  rw [issueTo_single hls, (converted_same r cmd).1]

theorem TickKept.same {old : List Issue} {used : List AddrVec} {n : Nat} (h : TickKept c old s used n) {t : Controller D}
    (hclk : t.clk = s.clk) (hiss : t.issues = s.issues) (hp : PriorityOk t) : TickKept c old t used n where
  clk := by
    rw [hclk]
    exact h.clk
  priority := hp
  issues := by
    rw [hiss]
    exact h.issues

theorem TickKept.issue {old : List Issue} {used : List AddrVec} {n : Nat} {head : Bool} (h : TickKept c old s used n)
    {b : Buffer} {i : Nat} {r : Request} {cmd : Nat} (hr : s.Picked c head used n b i r cmd)
    (hb : b = .priority → head = true) :
    TickKept c old (s.pimidIssue c true b i r cmd) (used ++ [r.addrVec]) (n + 1) := by
  have ht := pimidIssue_issued (c := c) (s := s) true b i r cmd
  generalize s.pimidIssue c true b i r cmd = t at ht
  obtain ⟨new, hnew, hlen, hmap, hok, hno⟩ := h.issues
  have haddr : (s.issueOf c b i r cmd).request.addrVec = r.addrVec := (converted_same (s := s) r cmd).1
  have hnot : ¬(s.issueOf c b i r cmd).Maintenance c := by
    rintro ⟨hbuf, hbank⟩
    rw [haddr] at hbank
    exact hr.bankScoped hbuf (hb hbuf) hbank
  have hall : ∀ e ∈ new ++ [s.issueOf c b i r cmd], ¬e.Maintenance c := by
    intro e he
    rcases List.mem_append.mp he with he | he
    · exact hno e he
    · rw [List.mem_singleton.mp he]
      exact hnot
  refine ⟨by rw [ht.clk]; exact h.clk, fun x hx => h.priority x ((ht.stay .priority (by decide)).subset hx),
    new ++ [s.issueOf c b i r cmd], ?_, ?_, ?_, ⟨?_, fun e he hm => absurd hm (hall e he), fun e he hls => ?_⟩, hall⟩
  · rw [ht.issues, hnew, List.append_assoc]
  · rw [List.length_append, List.length_singleton, hlen]
  · rw [List.map_append, List.map_singleton, hmap, haddr]
  · rw [List.pairwise_append]
    refine ⟨hok.keepsOff, List.pairwise_singleton _ _, fun e he f hf => ?_⟩
    obtain rfl := List.mem_singleton.mp hf
    intro a ha
    have hfree := hr.free hb
    unfold lsTaken at hfree
    rw [List.any_eq_false] at hfree
    have hnone := hfree a ha
    rw [Bool.not_eq_true, List.any_eq_false] at hnone
    refine Bool.eq_false_iff.mpr (hnone _ ?_)
    rw [← hmap]
    exact List.mem_map.mpr ⟨e, he, rfl⟩
  · rcases List.mem_append.mp he with he | he
    · exact hok.single e he hls
    · obtain rfl := List.mem_singleton.mp he
      exact issueOf_single hls

theorem TickKept.last {old : List Issue} {used : List AddrVec} {n : Nat} (h : TickKept c old s used n) {i : Nat}
    {r : Request} {cmd : Nat} (hr : s.Picked c false used n .priority i r cmd) :
    Added c old (s.pimidIssue c true .priority i r cmd) := by
  have ht := pimidIssue_issued (c := c) (s := s) true .priority i r cmd
  obtain ⟨new, hnew, hlen, -⟩ := h.issues
  have hn := hr.first rfl rfl
  obtain rfl := List.length_eq_zero_iff.mp (hlen.trans hn)
  refine ⟨[s.issueOf c .priority i r cmd], ?_, List.pairwise_singleton _ _, fun e he _ => ?_, fun e he hls => ?_⟩
  · rw [ht.issues, hnew, List.append_nil]
  · rw [List.mem_singleton.mp he]
  · obtain rfl := List.mem_singleton.mp he
    exact issueOf_single hls

theorem TickKept.added {old : List Issue} {used : List AddrVec} {n : Nat} (h : TickKept c old s used n) :
    Added c old s := by
  obtain ⟨new, hnew, -, -, hok, -⟩ := h.issues
  exact ⟨new, hnew, hok⟩

theorem tickKept_loop (c : Config D) (old : List Issue) (head : Bool) :
    Loop c (fun _ => True) head (TickKept c old) (Added c old) where
  done s used n h := h.added
  clk s used n h := h.clk
  priority s used n h := h.priority
  sends s used n xs _ h := by
    have hp := h.priority.prioritySends (c := c) xs
    obtain ⟨l, hl, -⟩ := prioritySends_eq (c := c) (s := s) xs
    rw [hl] at hp ⊢
    exact h.same rfl rfl hp
  last s used n i r cmd h hr hhead := by
    subst hhead
    exact h.last hr
  issue s used n b i r cmd h hr hb := h.issue hr hb

theorem tickIssues_ok (hclk : 0 ≤ s.clk) (hp : PriorityOk s) (input : TickInput) : TickOk c (s.tickIssues c input) := by
  have hall : input.All fun _ => True := ⟨fun _ _ => trivial, fun _ _ _ _ => trivial⟩
  have hstart : TickKept c s.issues ((s.setWriteMode c).hdbSetMode c) [] 0 := by
    obtain ⟨w, hw⟩ := setWriteMode_eq (c := c) (s := s)
    obtain ⟨m, hm⟩ := hdbSetMode_eq (c := c) (s := { s with isWriteMode := w })
    rw [hw, hm]
    exact ⟨hclk, hp, [], (List.append_nil _).symm, rfl, rfl, ⟨List.Pairwise.nil, (fun e he => nomatch he),
      fun e he => nomatch he⟩, fun e he => nomatch he⟩
  obtain ⟨new, hnew, hok⟩ : Added c s.issues (s.pimidTickBankParallel c input) := by
    unfold pimidTickBankParallel
    dsimp only
    split
    · exact ((tickKept_loop c s.issues false).sends _ _ _ _ (fun _ _ => trivial) hstart).added
    · exact (tickKept_loop c s.issues _).run hall _ hstart
  unfold tickIssues
  rw [hnew, List.drop_left]
  exact hok

/-- What a tick knows of the buffers: the clock, the priority requests, and that no request drives several chips where `one`
is so. -/
structure Buffered (c : Config D) (one : Prop) (s : Controller D) : Prop where
  clk : 0 ≤ s.clk
  priority : PriorityOk s
  single : one → ∀ b, ∀ r ∈ s.buffers b, c.pimidLs r = false

theorem Buffered.prioritySends {one : Prop} (h : Buffered c one s) (xs : List (AddrVec × Nat)) :
    Buffered c one (s.prioritySends c xs) := by
  have hp := h.priority.prioritySends (c := c) xs
  obtain ⟨l, hl, -⟩ := prioritySends_eq (c := c) (s := s) xs
  rw [hl] at hp ⊢
  refine ⟨h.clk, hp, fun ho b r hr => ?_⟩
  by_cases hb : b = .priority
  · subst hb
    exact pimidLs_of_priority (hp r hr)
  · rw [setBuffer_of_ne hb] at hr
    exact h.single ho b r hr

theorem Buffered.issue {one : Prop} (h : Buffered c one s) {buses : Bool} {b : Buffer} {i : Nat} {r : Request} {cmd : Nat}
    (hr : (s.buffers b)[i]? = some r) : Buffered c one (s.pimidIssue c buses b i r cmd) := by
  have ht := pimidIssue_issued (c := c) (s := s) buses b i r cmd
  refine ⟨by rw [ht.clk]; exact h.clk, h.priority.issue, fun ho b' x hx => ?_⟩
  by_cases hb : b' = .active
  · subst hb
    rcases ht.active x hx with hx | rfl
    · exact h.single ho _ x hx
    · rw [pimidLs_converted]
      exact h.single ho b r (List.mem_of_getElem? hr)
  · exact h.single ho b' x ((ht.stay b' hb).subset hx)

/-- Picks only add commands, of the requests that are buffered. -/
theorem pickLoop_issues {one : Prop} (h : Buffered c one s) (input : TickInput) (head : Bool) (fuel : Nat)
    (used : List AddrVec) (n : Nat) : ∃ new, (pickLoop c input head fuel s used n).issues = s.issues ++ new ∧
      (one → ∀ e ∈ new, c.pimidLs e.request = false) := by
  have hissue : ∀ {t : Controller D} {used : List AddrVec} {n : Nat} {b : Buffer} {i : Nat} {r : Request} {cmd : Nat},
      (Buffered c one t ∧ ∃ new, t.issues = s.issues ++ new ∧ (one → ∀ e ∈ new, c.pimidLs e.request = false)) →
      t.Picked c head used n b i r cmd → Buffered c one (t.pimidIssue c true b i r cmd) ∧
        ∃ new, (t.pimidIssue c true b i r cmd).issues = s.issues ++ new ∧
          (one → ∀ e ∈ new, c.pimidLs e.request = false) := by
    rintro t used n b i r cmd ⟨ht, new, hnew, hls⟩ hr
    refine ⟨ht.issue hr.mem, new ++ [t.issueOf c b i r cmd], ?_, fun ho e he => ?_⟩
    · rw [(pimidIssue_issued true b i r cmd).issues, hnew, List.append_assoc]
    · rcases List.mem_append.mp he with he | he
      · exact hls ho e he
      · rw [List.mem_singleton.mp he]
        exact (pimidLs_converted r cmd).trans (ht.single ho b r (List.mem_of_getElem? hr.mem))
  have hall : input.All fun _ => True := ⟨fun _ _ => trivial, fun _ _ _ _ => trivial⟩
  refine Loop.run
    (P := fun t _ _ => Buffered c one t ∧ ∃ new, t.issues = s.issues ++ new ∧ (one → ∀ e ∈ new, c.pimidLs e.request = false))
    (Q := fun t => ∃ new, t.issues = s.issues ++ new ∧ (one → ∀ e ∈ new, c.pimidLs e.request = false))
    ⟨fun _ _ _ h => h.2, fun _ _ _ h => h.1.clk, fun _ _ _ h => h.1.priority, fun t _ _ xs _ h => ?_,
      fun t _ _ i r cmd h hr _ => (hissue h hr).2, fun t _ _ b i r cmd h hr _ => hissue h hr⟩
    hall fuel ⟨h, [], (List.append_nil _).symm, fun _ e he => nomatch he⟩
  have hsent := h.1.prioritySends xs
  obtain ⟨l, hl, -⟩ := prioritySends_eq (c := c) (s := t) xs
  rw [hl] at hsent ⊢
  exact ⟨hsent, h.2⟩

/-- Where no buffered request drives several chips, no command of the tick goes to several. -/
theorem tickIssues_single (hclk : 0 ≤ s.clk) (hp : PriorityOk s) (hls : ∀ b, ∀ r ∈ s.buffers b, c.pimidLs r = false)
    (input : TickInput) : ∀ e ∈ s.tickIssues c input, c.pimidLs e.request = false := by
  obtain ⟨w, hw⟩ := setWriteMode_eq (c := c) (s := s)
  obtain ⟨m, hm⟩ := hdbSetMode_eq (c := c) (s := { s with isWriteMode := w })
  have hstart : Buffered c True ((s.setWriteMode c).hdbSetMode c) := by
    rw [hw, hm]
    exact ⟨hclk, hp, fun _ => hls⟩
  have hold : ((s.setWriteMode c).hdbSetMode c).issues = s.issues := by rw [hw, hm]
  obtain ⟨new, hnew, hsingle⟩ : ∃ new, (s.pimidTickBankParallel c input).issues = s.issues ++ new ∧
      (True → ∀ e ∈ new, c.pimidLs e.request = false) := by
    unfold pimidTickBankParallel
    dsimp only
    rw [← hold]
    split
    · obtain ⟨l, hl, -⟩ := prioritySends_eq (c := c) (s := (s.setWriteMode c).hdbSetMode c) (input.update 0 none)
      rw [hl]
      exact ⟨[], (List.append_nil _).symm, fun _ e he => nomatch he⟩
    · exact pickLoop_issues hstart input _ _ _ _
  unfold tickIssues
  rw [hnew, List.drop_left]
  exact hsingle trivial

/-- Where no buffered request drives several chips, no two commands of the tick meet. -/
theorem onePerBank_of_single (hclk : 0 ≤ s.clk) (hp : PriorityOk s) (hls : ∀ b, ∀ r ∈ s.buffers b, c.pimidLs r = false)
    (input : TickInput) : OnePerBank c (s.tickIssues c input) := by
  have hok := tickIssues_ok (c := c) hclk hp input
  have hone : ∀ e ∈ s.tickIssues c input, e.addrs = [e.request.addrVec] :=
    fun e he => hok.single e he (tickIssues_single hclk hp hls input e he)
  refine ⟨List.pairwise_flatMap.mpr ⟨fun e he => ?_, hok.keepsOff.imp_of_mem fun he _ hef a ha b hb => ?_⟩, hok.alone⟩
  · rw [hone e he]
    exact List.pairwise_singleton _ _
  · rw [hone _ he] at ha
    rw [List.mem_singleton.mp ha]
    exact hef b hb

/-! ## Two commands for a bank -/

/-- A DRAM that is always ready for the last command of a request. -/
def willing : Dram Unit where
  numCommands := 1
  isOpening _ := false
  isClosing _ := false
  requestTranslations typeId := typeId
  readLatency := 0
  RD := none
  WR := none
  RDA := none
  WRA := none
  ACT := none
  nBL := 0
  timingLevels := 0
  timingCons _ _ := []
  count _ := 0
  rankLevel := none
  bankLevel := 0
  rowLevel := 0
  getPreqCommand _ final _ := final
  checkReady _ _ _ := true
  pimidReadyAt _ _ _ := 0
  issueCommand d _ _ := d

/-- A write of the host on the first chips. -/
def hostWrite : Request := { addrVec := fun _ => 0, typeId := Write, sourceId := 1 }

/-- A write of a processing element on the second chip. -/
def peWrite (c : Config D) : Request := { addrVec := c.chip (fun _ => 0) 1, typeId := Write, sourceId := 0 }

/-- A state in which nothing waits for its unit or a bus. -/
structure Idle (s : Controller Unit) : Prop where
  clk : s.clk = 0
  awake : s.pdIn = fun _ => false
  woken : s.pdWake = fun _ => 0
  priority : s.buffers .priority = []

theorem Idle.pdOk {s : Controller Unit} (h : Idle s) (c : Config Unit) (a : AddrVec) : s.pdOk c a = true := by
  unfold Controller.pdOk
  rw [h.awake, h.woken, h.clk]
  split <;> simp

/-- The active buffer comes first where no bank-scoped priority request is at the head. -/
theorem pick_active {s : Controller Unit} {c : Config Unit} {used : List AddrVec} {n : Nat} {slots : Buffer → Nat → Slot}
    {x : Candidate} (hx : s.pimidBest c .active used = some x) :
    s.pick c false used n slots = .found .active x.index x.cmd := by
  unfold Controller.pick
  dsimp only
  rw [if_neg Bool.false_ne_true]
  dsimp only
  rw [hx]

theorem lsGroupCmd_willing (r : Request) (hr : r.finalCommand = 0) :
    (c.withDram willing).lsGroupCmd () r = (0, (c.withDram willing).lsChips r.addrVec) := by
  have hpreq : ∀ a, (c.withDram willing).dram.getPreqCommand () r.finalCommand a = 0 := fun _ => hr
  unfold lsGroupCmd
  dsimp only
  simp only [hpreq]
  have hfirst : ∀ (l : List AddrVec) (g : Nat × Nat), g.1 = 0 →
      (l.foldl (fun g _ => if (c.withDram willing).lsStage 0 < g.2 then (0, (c.withDram willing).lsStage 0) else g) g).1 = 0 := by
    intro l
    induction l with
    | nil => exact fun g hg => hg
    | cons a l ih =>
      intro g hg
      refine ih _ ?_
      dsimp only
      split
      · rfl
      · exact hg
  rw [hfirst _ _ rfl, beq_self_eq_true, List.filter_true]

theorem hdbBlocks_willing (s : Controller Unit) (r : Request) : s.hdbBlocks (c.withDram willing) r 0 = false := by
  have hcol : (c.withDram willing).hdbCol 0 = false := rfl
  rw [hdbBlocks, hdbHost, hcol, Bool.and_false, Bool.false_and]

theorem pimidReady_willing {s : Controller Unit} (h : Idle s) (a : AddrVec) :
    s.pimidReady (c.withDram willing) 0 a = true := by
  rw [pimidReady, h.pdOk, Bool.true_and]
  rfl

theorem evalRequest_host {s : Controller Unit} (h : Idle s) (hca : s.caFree ≤ 0) (hls : 1 < c.lockstepChips) :
    s.evalRequest (c.withDram willing) .active [] hostWrite = some 0 := by
  have hlock : (c.withDram willing).pimidLs hostWrite = true := by
    rw [pimidLs, decide_eq_true (show 1 < (c.withDram willing).lockstepChips from hls)]
    rfl
  have hfree : s.caBlocked (c.withDram willing) hostWrite = false := by
    rw [caBlocked, h.clk, decide_eq_false (by omega), Bool.and_false]
  have htaken : ∀ sel, (c.withDram willing).lsTaken [] sel = false := fun sel => List.any_eq_false.mpr fun a _ => by simp
  have hall : ((c.withDram willing).lsChips hostWrite.addrVec).all (s.pimidReady (c.withDram willing) 0) = true :=
    List.all_eq_true.mpr fun a _ => pimidReady_willing h a
  unfold evalRequest
  rw [if_pos hlock, lsGroupCmd_willing hostWrite rfl]
  dsimp only
  rw [htaken, if_neg Bool.false_ne_true, hall, Bool.not_true, if_neg Bool.false_ne_true, hdbBlocks_willing,
    if_neg Bool.false_ne_true, hfree]
  simp [hdbDirBlocked]

theorem evalRequest_pe {s : Controller Unit} (h : Idle s) {used : List AddrVec}
    (hused : used.any ((c.withDram willing).sameBank · (peWrite c).addrVec) = false) :
    s.evalRequest (c.withDram willing) .active used (peWrite c) = some 0 := by
  have hlock : (c.withDram willing).pimidLs (peWrite c) = false := by
    rw [pimidLs]
    exact Bool.and_false _
  have hfree : s.caBlocked (c.withDram willing) (peWrite c) = false := by
    rw [caBlocked, caHost]
    show (_ && false && _) = false
    rw [Bool.and_false, Bool.false_and]
  unfold evalRequest
  rw [hlock, if_neg Bool.false_ne_true, hused, if_neg Bool.false_ne_true]
  dsimp only
  rw [show (c.withDram willing).dram.getPreqCommand s.dram (peWrite c).finalCommand (peWrite c).addrVec = 0 from rfl,
    pimidReady_willing h, Bool.not_true, if_neg Bool.false_ne_true, hdbBlocks_willing, if_neg Bool.false_ne_true, hfree]
  simp [hdbDirBlocked]

theorem pimidIssue_leaves {s : Controller Unit} (h : Idle s) {r : Request} (hr : r.finalCommand = 0) (hw : r.typeId = Write)
    (hto : (s.issueTo (c.withDram willing) r 0).1 = 0) :
    Idle (s.pimidIssue (c.withDram willing) true .active 0 r 0) ∧
    (s.pimidIssue (c.withDram willing) true .active 0 r 0).buffers .active = (s.buffers .active).tail := by
  have ht := pimidIssue_issued (c := c.withDram willing) (s := s) true .active 0 r 0
  have hcmd : s.issueCmd (c.withDram willing) r 0 = 0 := by
    unfold issueCmd chooseAutoprecharge
    rw [hto]
    split_ifs <;> rfl
  have hconv : s.converted (c.withDram willing) r 0 = r := by
    unfold converted
    rw [hcmd, hto]
    rfl
  have hbuf : (s.pimidIssue (c.withDram willing) true .active 0 r 0).buffers =
      Function.update s.buffers .active ((s.buffers .active).eraseIdx 0) := by
    unfold pimidIssue issueOf
    dsimp only
    rw [hcmd, hconv, if_pos rfl]
    unfold finish
    rw [hr, beq_self_eq_true, if_pos rfl, hw, if_neg (by decide)]
    generalize hlog : s.logIssue (c.withDram willing) _ = u
    have hu : u.buffers = s.buffers := by
      rw [← hlog]
      unfold logIssue
      obtain ⟨d, l, hl⟩ := issueCommand_eq (c := c.withDram willing) (s := s) 0 (s.issueTo (c.withDram willing) r 0).2
      dsimp only
      rw [hl]
    obtain ⟨ca, free, last, htake⟩ := takeBuses_eq (c := c.withDram willing) (s := u) r 0
    rw [htake]
    show Function.update u.buffers .active ((u.buffers .active).eraseIdx 0) = _
    rw [hu]
  refine ⟨⟨ht.clk.trans h.clk, ht.power.1.trans h.awake, ht.power.2.2.1.trans h.woken, ?_⟩, ?_⟩
  · rw [hbuf, Function.update_of_ne (by decide)]
    exact h.priority
  · rw [hbuf, Function.update_self, List.eraseIdx_zero]

theorem two_le_banksPerChannel (hc : c.SetUp) (hls : 1 < c.lockstepChips) : 2 ≤ c.banksPerChannel := by
  obtain ⟨l, hl, hdiv⟩ := hc.lockstep hls
  obtain ⟨h1, hlb, hpos⟩ := hc.rank l hl
  have hcount : 2 ≤ c.dram.count l := Nat.le_trans hls (Nat.le_of_dvd hpos (Nat.dvd_of_mod_eq_zero hdiv))
  have hmem : c.dram.count l ∈ (List.range c.dram.bankLevel).map fun k => max 1 (c.dram.count (k + 1)) :=
    List.mem_map.mpr ⟨l - 1, List.mem_range.mpr (by omega), by rw [show l - 1 + 1 = l by omega]; omega⟩
  refine Nat.le_trans hcount (Nat.le_of_dvd (List.prod_pos_iff_forall_pos_nat.mpr fun x hx => ?_) (List.dvd_prod hmem))
  obtain ⟨k, -, rfl⟩ := List.mem_map.mp hx
  omega

/-- The host's write and the processing element's, both being served. -/
def bothWrites (c : Config D) : Controller Unit where
  dram := ()
  buffers := Function.update (fun _ => []) .active [hostWrite, peWrite c]

theorem pimidBest_both {s : Controller Unit} (h : Idle s) (hca : s.caFree ≤ 0) (hls : 1 < c.lockstepChips)
    (hactive : s.buffers .active = [hostWrite, peWrite c]) :
    s.pimidBest (c.withDram willing) .active [] = some ⟨0, 0, true, -1⟩ := by
  unfold pimidBest bestOf
  rw [hactive, List.zipIdx_cons, List.zipIdx_singleton, List.foldl_cons, List.foldl_cons, List.foldl_nil]
  unfold bestStep
  dsimp only
  rw [evalRequest_host h hca hls, evalRequest_pe h rfl]
  rfl

theorem pimidBest_pe {s : Controller Unit} (h : Idle s) {used : List AddrVec}
    (hused : used.any ((c.withDram willing).sameBank · (peWrite c).addrVec) = false)
    (hactive : s.buffers .active = [peWrite c]) :
    s.pimidBest (c.withDram willing) .active used = some ⟨0, 0, true, -1⟩ := by
  unfold pimidBest bestOf
  rw [hactive, List.zipIdx_singleton, List.foldl_cons, List.foldl_nil]
  unfold bestStep
  dsimp only
  rw [evalRequest_pe h hused]
  rfl

theorem pickLoop_first {s : Controller Unit} {c : Config Unit} {used : List AddrVec}
    (hbest : s.pimidBest c .active used = some ⟨0, 0, true, -1⟩) {r : Request} {l : List Request}
    (hactive : s.buffers .active = r :: l) (fuel n : Nat) :
    pickLoop c {} false (fuel + 1) s used n =
      pickLoop c {} false fuel (s.pimidIssue c true .active 0 r 0) (used ++ [r.addrVec]) (n + 1) := by
  rw [pickLoop, pick_active hbest]
  dsimp only
  rw [hactive]
  rfl

/-- The host's address is not the element's: it names the first chip. -/
theorem not_sameBank (hc : c.SetUp) (hls : 1 < c.lockstepChips) :
    (c.withDram willing).sameBank hostWrite.addrVec (peWrite c).addrVec = false := by
  obtain ⟨l, hl, -⟩ := hc.lockstep hls
  have hlb := (hc.rank l hl).2.1
  have hrank : c.rankLv = l := by rw [rankLv, hl]; rfl
  have hone : (peWrite c).addrVec l = 1 := by
    show Function.update (fun _ => (0 : Int)) c.rankLv 1 l = 1
    rw [hrank, Function.update_self]
  unfold sameBank
  rw [List.all_eq_false]
  refine ⟨l, List.mem_range.mpr (Nat.lt_succ_of_lt hlb), ?_⟩
  rw [hone]
  show ¬(!((0 : Int) != 1 && (0 : Int) != -1 && (1 : Int) != -1)) = true
  decide

theorem mem_lsChips (hls : 1 < c.lockstepChips) : (peWrite c).addrVec ∈ (c.withDram willing).lsChips hostWrite.addrVec := by
  refine List.mem_map.mpr ⟨1, List.mem_range.mpr hls, ?_⟩
  have hzero : (c.withDram willing).lsChip0 hostWrite.addrVec = 0 := by
    show (0 : Int).toNat / c.lockstepChips * c.lockstepChips = 0
    rw [Int.toNat_zero, Nat.zero_div, Nat.zero_mul]
  rw [hzero]
  rfl

theorem sameBank_self (a : AddrVec) : c.sameBank a a = true := by
  unfold sameBank
  rw [List.all_eq_true]
  intro k _
  rw [bne_self_eq_false, Bool.false_and, Bool.false_and]
  rfl

/-- A command of the host for every chip, and another for the second of them. -/
theorem meet_of_lockstep (hc : c.SetUp) (hls : 1 < c.lockstepChips) :
    ¬OnePerBank (c.withDram willing) ((bothWrites c).tickIssues (c.withDram willing) {}) := by
  obtain ⟨n, hn⟩ : ∃ n, (c.withDram willing).banksPerChannel = n + 1 + 1 :=
    ⟨c.banksPerChannel - 2, by have := two_le_banksPerChannel hc hls; show c.banksPerChannel = _; omega⟩
  -- the state when the picks begin
  obtain ⟨w, hw⟩ := setWriteMode_eq (c := c.withDram willing) (s := bothWrites c)
  obtain ⟨m, hm⟩ := hdbSetMode_eq (c := c.withDram willing) (s := { bothWrites c with isWriteMode := w })
  have htick : ((bothWrites c).pimidTickBankParallel (c.withDram willing) {}) =
      pickLoop (c.withDram willing) {} false (n + 1 + 1) { bothWrites c with isWriteMode := w, hdbWm := m } [] 0 := by
    unfold pimidTickBankParallel
    rw [hw, hm, hn]
    rfl
  generalize hs : ({ bothWrites c with isWriteMode := w, hdbWm := m } : Controller Unit) = s at htick
  have hidle : Idle s := by
    rw [← hs]
    exact ⟨rfl, rfl, rfl, rfl⟩
  have hactive : s.buffers .active = [hostWrite, peWrite c] := by
    rw [← hs]
    rfl
  have hnone : s.issues = [] := by
    rw [← hs]
    rfl
  have hbest := pimidBest_both hidle (by rw [← hs]; exact Int.le_refl 0) hls hactive
  clear hs hw hm
  -- the host's command goes to every chip
  have hlock : (c.withDram willing).pimidLs hostWrite = true := by
    rw [pimidLs, decide_eq_true (show 1 < (c.withDram willing).lockstepChips from hls)]
    rfl
  have hto : s.issueTo (c.withDram willing) hostWrite 0 = (0, (c.withDram willing).lsChips hostWrite.addrVec) := by
    rw [issueTo_ls hlock]
    exact lsGroupCmd_willing hostWrite rfl
  have hiss := pimidIssue_issued (c := c.withDram willing) (s := s) true .active 0 hostWrite 0
  obtain ⟨hidle1, hactive1⟩ := pimidIssue_leaves hidle (r := hostWrite) rfl rfl (congrArg Prod.fst hto)
  have hstep := pickLoop_first hbest hactive (n + 1) 0
  generalize s.pimidIssue (c.withDram willing) true .active 0 hostWrite 0 = t at hiss hidle1 hactive1 hstep
  rw [hactive, List.tail_cons] at hactive1
  -- the element's chip has not been seen
  have hused : ([] ++ [hostWrite.addrVec]).any ((c.withDram willing).sameBank · (peWrite c).addrVec) = false := by
    rw [List.nil_append, List.any_cons, List.any_nil, Bool.or_false]
    exact not_sameBank hc hls
  have hiss2 := pimidIssue_issued (c := c.withDram willing) (s := t) true .active 0 (peWrite c) 0
  have hstep2 := pickLoop_first (pimidBest_pe hidle1 hused hactive1) hactive1 n 1
  have hpe : (t.issueOf (c.withDram willing) .active 0 (peWrite c) 0).addrs = [(peWrite c).addrVec] := by
    show (t.issueTo (c.withDram willing) (peWrite c) 0).2 = _
    rw [issueTo_single (by simp [pimidLs, host, peWrite])]
  have hprio : PriorityOk (t.pimidIssue (c.withDram willing) true .active 0 (peWrite c) 0) := by
    intro x hx
    have hold := (hiss2.stay .priority (by decide)).subset hx
    rw [hidle1.priority] at hold
    cases hold
  have hbuffered : Buffered (c.withDram willing) False (t.pimidIssue (c.withDram willing) true .active 0 (peWrite c) 0) :=
    ⟨Int.le_of_eq (by rw [hiss2.clk, hidle1.clk]), hprio, False.elim⟩
  obtain ⟨new, hnew, -⟩ := pickLoop_issues hbuffered {} false n ([] ++ [hostWrite.addrVec] ++ [(peWrite c).addrVec]) (1 + 1)
  -- so the second chip's bank has two commands
  intro hall
  have hpair := (List.pairwise_flatMap.mp hall.banks).2
  unfold tickIssues at hpair
  rw [htick, hstep, hstep2, hnew, hiss2.issues, hiss.issues, hnone] at hpair
  simp only [List.nil_append, List.cons_append, List.pairwise_cons, bothWrites, List.length_nil, List.drop_zero] at hpair
  have hno := hpair.1 (t.issueOf (c.withDram willing) .active 0 (peWrite c) 0) (List.mem_cons_self ..) (peWrite c).addrVec
    (by show _ ∈ (s.issueTo (c.withDram willing) hostWrite 0).2; rw [hto]; exact mem_lsChips hls) (peWrite c).addrVec
    (by rw [hpe]; exact List.mem_singleton_self _)
  rw [sameBank_self] at hno
  cases hno

/-- **One command of a bank of a chip in a cycle**, whatever the DRAM and the buffers, exactly where a request drives one
chip; and in a tick with no lock-step request buffered, whatever the number of chips. -/
theorem onePerBank_iff (hc : c.SetUp) :
    ((∀ (E : Type) (d : Dram E) (s : Controller E) (input : TickInput), 0 ≤ s.clk → PriorityOk s →
      OnePerBank (c.withDram d) (s.tickIssues (c.withDram d) input)) ↔ c.lockstepChips ≤ 1) ∧
    ∀ (E : Type) (d : Dram E) (s : Controller E) (input : TickInput), 0 ≤ s.clk → PriorityOk s →
      (∀ b, ∀ r ∈ s.buffers b, (c.withDram d).pimidLs r = false) →
      OnePerBank (c.withDram d) (s.tickIssues (c.withDram d) input) := by
  refine ⟨⟨fun hall => ?_, fun hls E d s input hclk hp => ?_⟩, fun E d s input hclk hp hls => ?_⟩
  · by_contra hls
    exact meet_of_lockstep hc (by omega) (hall Unit willing (bothWrites c) {} (Int.le_refl 0) fun r hr => nomatch hr)
  · refine onePerBank_of_single hclk hp (fun b r _ => ?_) input
    have hno : ¬1 < (c.withDram d).lockstepChips := Nat.not_lt.mpr hls
    rw [pimidLs, decide_eq_false hno, Bool.false_and]
  · exact onePerBank_of_single hclk hp hls input

theorem onePerBank_iff_twoRanks :
    (∀ (E : Type) (d : Dram E) (s : Controller E) (input : TickInput), 0 ≤ s.clk → PriorityOk s →
      OnePerBank (twoRanks.withDram d) (s.tickIssues (twoRanks.withDram d) input)) ↔ twoRanks.lockstepChips ≤ 1 :=
  (onePerBank_iff twoRanks_setUp).1

/-- Two ranks, the second with another row open at first, then none, then the one that is asked for. -/
def rowBehind : Config Nat :=
  twoRanks.withDram (readyDram (fun d final a => if a 1 = 1 then (if d = 0 then 3 else if d = 1 then 2 else final) else final)
    fun d _ a => if a 1 = 1 then d + 1 else d)

/-- The host's read and the element's, on the second rank. -/
def bothReads : Controller Nat where
  dram := 0
  buffers := Function.update (fun _ => []) .read
    [{ addrVec := fun _ => 0, typeId := Read, sourceId := 1, finalCommand := 0 },
      { addrVec := fun l => if l = 1 then 1 else 0, typeId := Read, sourceId := 0, finalCommand := 0, arrive := 1 }]

/-- The host closes a row of the second rank and opens its own, and the element reads it, in one cycle. -/
theorem two_on_a_bank : 0 ≤ bothReads.clk ∧ PriorityOk bothReads ∧ ¬OnePerBank rowBehind (bothReads.tickIssues rowBehind {}) := by
  refine ⟨Int.le_refl 0, (fun r hr => nomatch hr), fun h => ?_⟩
  have hbanks := h.banks
  revert hbanks
  decide +kernel

end Controller

end Pimid.Ramulator
