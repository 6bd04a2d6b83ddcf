import Pimid.Core.InOrder
import Pimid.Lib.Machine

/-!
# The recorder's previous response

No access of the in-order core starts before the response the recorder remembers: that response is at most
the later of the issue cursor and the response cursor, whatever moves the two clocks. So the comparison of
`recordAccess` holds each time it is made, and no event gets a negative delay.
-/

namespace Pimid.Core

namespace InOrderCore

variable {c : InOrderConfig} {s s' : InOrderCore}

/-! ## The invariant -/

/-- The response the recorder remembers is behind one of the cursors, and was when it was compared. -/
structure Ahead (s : InOrderCore) : Prop where
  ahead : s.cRec.state ≠ .halted → s.cRec.prevRespCycle ≤ max s.curCycle s.memRespCycle
  checks : ∀ p ∈ s.cRec.checks, p.1 ≤ p.2
  delays : ∀ d ∈ s.cRec.delays, 0 ≤ d

/-- The cursors move on and the recorder is not called. -/
structure Rises (s s' : InOrderCore) : Prop where
  cRec : s'.cRec = s.cRec
  curCycle : s.curCycle ≤ s'.curCycle
  memRespCycle : s.memRespCycle ≤ s'.memRespCycle

theorem Rises.refl (s : InOrderCore) : Rises s s := ⟨rfl, Nat.le_refl _, Nat.le_refl _⟩

theorem Rises.trans {s'' : InOrderCore} (h : Rises s s') (h' : Rises s' s'') : Rises s s'' :=
  ⟨h'.cRec.trans h.cRec, Nat.le_trans h.curCycle h'.curCycle, Nat.le_trans h.memRespCycle h'.memRespCycle⟩

theorem Ahead.rises (h : Ahead s) (hr : Rises s s') : Ahead s' where
  ahead := by
    have hcur := hr.curCycle
    have hmem := hr.memRespCycle
    rw [hr.cRec]
    intro hs
    have := h.ahead hs
    omega
  checks := hr.cRec ▸ h.checks
  delays := hr.cRec ▸ h.delays

/-- The state a block is simulated in: the recorder has a previous response. -/
structure Live (s : InOrderCore) : Prop extends Ahead s where
  live : s.cRec.state ≠ .halted

theorem Live.rises (h : Live s) (hr : Rises s s') : Live s' := ⟨h.toAhead.rises hr, hr.cRec ▸ h.live⟩

/-! ## One access -/

theorem record_state {r : CoreRecorder} {own : Bool} {start : Nat} {tr : Option TimingRecord} :
    (r.record own start tr).state = r.state := by
  unfold CoreRecorder.record
  split
  · rfl
  · split <;> rfl

theorem startCycle_le_resp (hp : c.l1.Prompt) {kind : AccessKind} {addr : Address} {cycle : Nat} :
    s.startCycle cycle ≤ (s.answer c kind addr cycle).resp := hp s.sent ⟨kind, addr, s.startCycle cycle⟩

theorem le_resp (hp : c.l1.Prompt) {kind : AccessKind} {addr : Address} {cycle : Nat} :
    cycle ≤ (s.answer c kind addr cycle).resp := Nat.le_trans (Nat.le_max_left _ _) (startCycle_le_resp hp)

/-- **An access** called for at or after the issue cursor starts at or after the previous response. -/
theorem Live.access (hp : c.l1.Prompt) (hr : c.l1.Recorded) (h : Live s) {kind : AccessKind} {addr : Address} {cycle : Nat}
    (hcycle : s.curCycle ≤ cycle) : Live (s.access c kind addr cycle) := by
  have hprompt : s.startCycle cycle ≤ (s.answer c kind addr cycle).resp := startCycle_le_resp hp
  have hprev : s.cRec.prevRespCycle ≤ s.startCycle cycle := by
    refine Nat.le_trans (h.ahead h.live) ?_
    unfold startCycle
    omega
  have hrecord : ∀ r, (s.answer c kind addr cycle).record = some r →
      s.startCycle cycle ≤ r.reqCycle ∧ r.respCycle ≤ (s.answer c kind addr cycle).resp :=
    hr s.sent ⟨kind, addr, s.startCycle cycle⟩
  refine { ahead := fun _ => ?_, checks := ?_, delays := ?_, live := ?_ }
  · change (s.cRec.record _ _ _).prevRespCycle ≤ max s.curCycle (s.answer c kind addr cycle).resp
    unfold CoreRecorder.record
    split
    next => omega
    next tr htr =>
      have htr := hrecord tr htr
      split
      next => omega
      next =>
        dsimp only
        split <;> omega
  · change ∀ p ∈ (s.cRec.record _ _ _).checks, p.1 ≤ p.2
    unfold CoreRecorder.record
    split
    next => exact h.checks
    next =>
      split
      next => exact h.checks
      next =>
        intro p hpm
        rcases List.mem_append.mp hpm with hpm | hpm
        · exact h.checks p hpm
        · rw [List.mem_singleton.mp hpm]
          exact hprev
  · change ∀ d ∈ (s.cRec.record _ _ _).delays, 0 ≤ d
    unfold CoreRecorder.record
    split
    next => exact h.delays
    next tr htr =>
      have htr := hrecord tr htr
      split
      next => exact h.delays
      next =>
        intro d hd
        rcases List.mem_append.mp hd with hd | hd
        · exact h.delays d hd
        · rw [List.mem_singleton.mp hd]
          omega
  · change (s.cRec.record _ _ _).state ≠ .halted
    rw [record_state]
    exact h.live

/-! ## Fetches and synthetic blocks -/

theorem Live.ifetch (hp : c.l1.Prompt) (hr : c.l1.Recorded) (h : Live s) {bblAddr : Address} {bblInfo : BblInfo} :
    Live (s.ifetch c bblAddr bblInfo) := by
  have hline (s : InOrderCore) (h : Live s) (a : Address) : Live (s.fetchLine c a) :=
    (h.access hp hr (Nat.le_refl _)).rises ⟨rfl, Nat.le_add_right _ _, Nat.le_refl _⟩
  unfold InOrderCore.ifetch
  generalize fetchAddrs c bblAddr bblInfo = l
  induction l generalizing s with
  | nil => exact h
  | cons a l ih => exact ih (hline s h a)

/-- A core and the cycle its accesses are called for at. -/
def Paced (p : InOrderCore × Nat) : Prop := Live p.1 ∧ p.1.curCycle ≤ p.2

theorem paced_syntheticLoad (hp : c.l1.Prompt) (hr : c.l1.Recorded) {p : InOrderCore × Nat} (h : Paced p) (i : Nat) :
    Paced (syntheticLoad c p i) := by
  have htouch : Live { p.1 with touched := p.1.touched ++ [i] } := h.1.rises ⟨rfl, Nat.le_refl _, Nat.le_refl _⟩
  unfold syntheticLoad
  dsimp only
  split
  next => exact ⟨htouch, h.2⟩
  next =>
    refine ⟨htouch.access hp hr h.2, Nat.le_trans h.2 ?_⟩
    exact Nat.le_trans (Nat.le_trans (Nat.le_max_left _ _) (Nat.le_add_right _ _)) (Nat.le_max_right _ _)

theorem paced_syntheticStore (hp : c.l1.Prompt) (hr : c.l1.Recorded) {p : InOrderCore × Nat} (h : Paced p) (i : Nat) :
    Paced (syntheticStore c p i) := by
  have htouch : Live { p.1 with touched := p.1.touched ++ [i] } := h.1.rises ⟨rfl, Nat.le_refl _, Nat.le_refl _⟩
  unfold syntheticStore
  dsimp only
  split
  next => exact ⟨htouch, h.2⟩
  next => exact ⟨htouch.access hp hr h.2, Nat.le_trans h.2 (le_resp hp)⟩

theorem paced_foldl {f : InOrderCore × Nat → Nat → InOrderCore × Nat} (hf : ∀ p, Paced p → ∀ i, Paced (f p i)) (l : List Nat)
    {p : InOrderCore × Nat} (h : Paced p) : Paced (l.foldl f p) := by
  induction l generalizing p with
  | nil => exact h
  | cons i l ih => exact ih (hf p h i)

theorem Live.synthetic (hp : c.l1.Prompt) (hr : c.l1.Recorded) (h : Live s) {sim : BblInfo} :
    Live (s.simulateSyntheticBbl c sim) := by
  have hloads : Paced (s.syntheticLoads c sim) :=
    paced_foldl (fun _ hq => paced_syntheticLoad hp hr hq) _ ⟨h, Nat.le_add_right _ _⟩
  have hstores : Paced (s.syntheticAccesses c sim) := paced_foldl (fun _ hq => paced_syntheticStore hp hr hq) _ hloads
  exact hstores.1.rises ⟨rfl, Nat.le_max_left _ _, Nat.le_refl _⟩

/-! ## Decoded blocks -/

/-- The drains start behind the issue cursor. -/
def BlockPaced (b : Block) : Prop := Live b.core ∧ b.core.curCycle ≤ b.lastDone

/-- A uop is executed at the issue cursor and completes no earlier. -/
theorem live_execute (hp : c.l1.Prompt) (hr : c.l1.Recorded) {b : Block} (h : Live b.core) {uop : DynUop} {iss : Nat}
    (hiss : b.core.curCycle = iss) :
    Live (execute c b uop iss).1.core ∧ (execute c b uop iss).1.core.curCycle = iss ∧ iss ≤ (execute c b uop iss).2 := by
  have htouch (i : Nat) : Live { b.core with touched := b.core.touched ++ [i] } :=
    h.rises ⟨rfl, Nat.le_refl _, Nat.le_refl _⟩
  unfold execute
  split
  next =>
    unfold loadUop
    split
    next =>
      dsimp only
      split
      next => exact ⟨htouch _, hiss, Nat.le_refl _⟩
      next =>
        refine ⟨(htouch _).access hp hr (Nat.le_of_eq hiss), hiss, ?_⟩
        exact Nat.le_trans (Nat.le_trans (Nat.le_max_left _ _) (Nat.le_add_right _ _)) (Nat.le_max_right _ _)
    next => exact ⟨h.rises ⟨rfl, Nat.le_refl _, Nat.le_refl _⟩, hiss, Nat.le_refl _⟩
  next =>
    unfold storeUop
    split
    next =>
      dsimp only
      split
      next => exact ⟨htouch _, hiss, Nat.le_refl _⟩
      next => exact ⟨(htouch _).access hp hr (Nat.le_of_eq hiss), hiss, le_resp hp⟩
    next => exact ⟨h.rises ⟨rfl, Nat.le_refl _, Nat.le_refl _⟩, hiss, Nat.le_refl _⟩
  next => exact ⟨h, hiss, Nat.le_add_right _ _⟩
  next => exact ⟨h, hiss, Nat.le_add_right _ _⟩
  next => exact ⟨h, hiss, Nat.le_add_right _ _⟩

theorem curCycle_le_issue {uop : DynUop} : s.curCycle ≤ s.issueCycle c uop := by
  unfold issueCycle slotReady sourcesReady
  split <;> omega

theorem paced_simulateUop (hp : c.l1.Prompt) (hr : c.l1.Recorded) {b : Block} (h : BlockPaced b) (uop : DynUop) :
    BlockPaced (simulateUop c b uop) := by
  have hissue : Live (b.core.issue c uop) := h.1.rises ⟨rfl, curCycle_le_issue, Nat.le_refl _⟩
  obtain ⟨hlive, hcur, hdone⟩ := @live_execute c hp hr { b with core := b.core.issue c uop } hissue uop _ rfl
  refine ⟨hlive.rises ⟨rfl, Nat.le_refl _, Nat.le_refl _⟩, ?_⟩
  exact Nat.le_trans (Nat.le_trans (Nat.le_of_eq hcur) hdone) (Nat.le_max_right _ _)

theorem paced_drainLoad (hp : c.l1.Prompt) (hr : c.l1.Recorded) {rep : Bool} {b : Block} (h : BlockPaced b) (i : Nat) :
    BlockPaced (drainLoad c rep b i) := by
  unfold drainLoad
  dsimp only
  split
  next => exact ⟨h.1.rises ⟨rfl, Nat.le_refl _, Nat.le_refl _⟩, h.2⟩
  next =>
    refine ⟨Live.access hp hr ?_ h.2, Nat.le_trans h.2 (Nat.le_max_left _ _)⟩
    exact h.1.rises ⟨rfl, Nat.le_refl _, Nat.le_refl _⟩

theorem paced_drainStore (hp : c.l1.Prompt) (hr : c.l1.Recorded) {rep : Bool} {b : Block} (h : BlockPaced b) (i : Nat) :
    BlockPaced (drainStore c rep b i) := by
  unfold drainStore
  dsimp only
  split
  next => exact ⟨h.1.rises ⟨rfl, Nat.le_refl _, Nat.le_refl _⟩, h.2⟩
  next =>
    refine ⟨Live.access hp hr ?_ h.2, Nat.le_trans h.2 (Nat.le_max_left _ _)⟩
    exact h.1.rises ⟨rfl, Nat.le_refl _, Nat.le_refl _⟩

theorem paced_blocks {α : Type} {f : Block → α → Block} (hf : ∀ b, BlockPaced b → ∀ a, BlockPaced (f b a)) (l : List α)
    {b : Block} (h : BlockPaced b) : BlockPaced (l.foldl f b) := by
  induction l generalizing b with
  | nil => exact h
  | cons a l ih => exact ih (hf b h a)

theorem Live.decoded (hp : c.l1.Prompt) (hr : c.l1.Recorded) (h : Live s) {db : DynBbl} :
    Live (s.simulateDecodedBbl c db) := by
  have hstart : BlockPaced ⟨{ s with regScoreboard := Function.update s.regScoreboard 0 0 }, 0, 0, s.curCycle⟩ :=
    ⟨h.rises ⟨rfl, Nat.le_refl _, Nat.le_refl _⟩, Nat.le_refl _⟩
  have huops : BlockPaced (s.simulateUops c db) := paced_blocks (fun _ hb => paced_simulateUop hp hr hb) _ hstart
  have hdrain : BlockPaced (drainAccesses c (s.simulateUops c db) db) :=
    paced_blocks (fun _ hb => paced_drainStore hp hr hb) _ (paced_blocks (fun _ hb => paced_drainLoad hp hr hb) _ huops)
  exact hdrain.1.rises ⟨rfl, Nat.le_refl _, Nat.le_refl _⟩

/-! ## A block arrives -/

theorem rises_drainPipeline : Rises s s.drainPipeline := ⟨rfl, Nat.le_max_left _ _, Nat.le_refl _⟩

theorem rises_flush {penalty : Nat} : Rises s (s.flush penalty) :=
  rises_drainPipeline.trans ⟨rfl, Nat.le_add_right _ _, Nat.le_refl _⟩

theorem rises_resolveBranch {p : Prediction} : Rises s (s.resolveBranch c p) := by
  unfold resolveBranch
  split
  next => exact Rises.refl s
  next =>
    split
    next =>
      dsimp only
      split
      next => exact rises_flush.trans ⟨rfl, Nat.le_refl _, Nat.le_refl _⟩
      next => exact ⟨rfl, Nat.le_refl _, Nat.le_refl _⟩
    next =>
      dsimp only
      generalize decide (s.branchTaken = true ∧ s.branchTarget ≠ 0 ∧ ¬p.btbHit = true ∧ p.dirOk = true) = missed
      have hpend : Rises s { s with directResteerPend := s.directResteerPend || missed } :=
        ⟨rfl, Nat.le_refl _, Nat.le_refl _⟩
      split
      next => exact hpend.trans ⟨rfl, Nat.le_refl _, Nat.le_refl _⟩
      next => exact (hpend.trans rises_flush).trans ⟨rfl, Nat.le_refl _, Nat.le_refl _⟩

theorem rises_resteer : Rises s (s.resteer c) := by
  unfold resteer
  split
  next => exact rises_flush.trans ⟨rfl, Nat.le_refl _, Nat.le_refl _⟩
  next =>
    split
    next => exact rises_flush
    next => exact Rises.refl s

theorem Live.simulate (hp : c.l1.Prompt) (hr : c.l1.Recorded) (h : Live s) {sim : BblInfo} : Live (s.simulate c sim) := by
  have hcharge : Rises s (s.chargeFp c sim) := by
    unfold chargeFp
    split
    · exact Rises.refl s
    · exact ⟨rfl, Nat.le_add_right _ _, Nat.le_refl _⟩
  unfold InOrderCore.simulate
  split
  next => exact (h.rises hcharge).synthetic hp hr
  next => exact (h.rises hcharge).decoded hp hr

theorem Live.bbl (hp : c.l1.Prompt) (hr : c.l1.Recorded) (h : Live s) {bblAddr : Address} {bblInfo : BblInfo}
    {p : Prediction} : Live (s.bblAndRecord c bblAddr bblInfo p) := by
  unfold bblAndRecord
  split
  next => exact h.rises ⟨rfl, Nat.le_refl _, Nat.le_refl _⟩
  next sim _ =>
    have hretire : Live (s.retire c sim p) := (h.simulate hp hr).rises (rises_resolveBranch.trans rises_resteer)
    have hdefer : Live ((s.retire c sim p).defer bblInfo) := hretire.rises ⟨rfl, Nat.le_refl _, Nat.le_refl _⟩
    exact hdefer.ifetch hp hr

/-! ## The scheduler -/

/-- The states in which the recorder takes an operation. A block is simulated while there is a previous response. -/
def Allowed (s : InOrderCore) : CoreOp → Prop
  | .bbl _ _ _ => s.cRec.state ≠ .halted
  | .join phaseStart => s.cRec.state ≠ .running ∧ (s.cRec.state = .draining → phaseStart ≤ s.drainPipeline.curCycle)
  | .leave => s.cRec.state = .running
  | .cSimStart nextPhase => s.cRec.state = .running → nextPhase ≤ s.drainPipeline.curCycle
  | .cSimEnd _ _ drained => drained = true → s.cRec.state ≠ .running
  | _ => True

instance : DecidablePred (Allowed s) := fun op => by unfold Allowed; split <;> infer_instance

theorem Ahead.join (hown : c.ownClock = false) (h : Ahead s) {phaseStart : Nat} : Ahead (s.join c phaseStart) := by
  have hdrain := h.rises rises_drainPipeline
  unfold InOrderCore.join CoreRecorder.notifyJoin
  rw [hown]
  simp only [Bool.false_eq_true, if_false]
  split
  next => exact ⟨fun _ => Nat.le_max_left _ _, h.checks, h.delays⟩
  next hs => exact ⟨fun _ => hdrain.ahead hs, h.checks, h.delays⟩

/-- The core leaves at the later of its cursors, which the previous response is behind: the recorder's own guard
changes nothing. -/
theorem Ahead.leave (hown : c.ownClock = false) (h : Ahead s) (hs : s.cRec.state = .running) : Ahead (s.leave c) := by
  have hprev := h.ahead (by rw [hs]; nofun)
  have hmax : s.cRec.prevRespCycle ≤ max s.drainPipeline.curCycle s.memRespCycle := by
    have hcur : s.curCycle ≤ s.drainPipeline.curCycle := Nat.le_max_left _ _
    omega
  unfold InOrderCore.leave CoreRecorder.notifyLeave
  rw [hown]
  simp only [Bool.false_eq_true, if_false, Nat.max_eq_left hmax]
  refine ⟨fun _ => Nat.le_max_left _ _, h.checks, fun d hd => ?_⟩
  rcases List.mem_append.mp hd with hd | hd
  · exact h.delays d hd
  · rcases List.mem_pair.mp hd with rfl | rfl <;> omega

theorem Ahead.cSimStart (hown : c.ownClock = false) (h : Ahead s) {nextPhase : Nat} : Ahead (s.cSimStart c nextPhase) := by
  have hdrain := h.rises rises_drainPipeline
  unfold InOrderCore.cSimStart CoreRecorder.cSimStart
  rw [hown]
  split
  next => exact ⟨hdrain.ahead, h.checks, h.delays⟩
  next =>
    refine ⟨fun hs => Nat.le_trans (hdrain.ahead hs) ?_, h.checks, h.delays⟩
    change max s.drainPipeline.curCycle s.memRespCycle ≤ max (max s.drainPipeline.curCycle nextPhase) s.memRespCycle
    omega
  next =>
    simp only [Bool.false_eq_true, if_false]
    split
    next hlt =>
      refine ⟨fun _ => Nat.le_max_left _ _, h.checks, fun d hd => ?_⟩
      rcases List.mem_append.mp hd with hd | hd
      · exact h.delays d hd
      · rcases List.mem_pair.mp hd with rfl | rfl <;> omega
    next =>
      refine ⟨hdrain.ahead, h.checks, fun d hd => ?_⟩
      rcases List.mem_append.mp hd with hd | hd
      · exact h.delays d hd
      · exact Int.le_of_eq (List.mem_singleton.mp hd).symm

/-- A skew moves the previous response and both cursors alike. -/
theorem Ahead.cSimEnd (hown : c.ownClock = false) (h : Ahead s) {nextPhase skew : Nat} {drained : Bool} :
    Ahead (s.cSimEnd c nextPhase skew drained) := by
  have hdrain := h.rises rises_drainPipeline
  unfold InOrderCore.cSimEnd CoreRecorder.cSimEnd
  rw [hown]
  dsimp only
  split
  next hs => exact ⟨fun hn => absurd hs hn, h.checks, h.delays⟩
  next hs =>
    simp only [Bool.false_eq_true, if_false, Nat.add_sub_cancel_left]
    refine ⟨fun _ => ?_, h.checks, h.delays⟩
    have := hdrain.ahead hs
    change s.cRec.prevRespCycle + skew ≤ max (s.drainPipeline.curCycle + skew) (s.memRespCycle + skew)
    change s.cRec.prevRespCycle ≤ max s.drainPipeline.curCycle s.memRespCycle at this
    omega

/-! ## Runs -/

/-- **One step.** -/
theorem Ahead.step (hp : c.l1.Prompt) (hr : c.l1.Recorded) (hown : c.ownClock = false) (h : Ahead s) {op : CoreOp}
    (hop : Allowed s op) : Ahead (s.step c op) := by
  have hsync (t : Nat) : Ahead (s.syncTo t) := by
    unfold syncTo
    split
    next => exact h
    next hlt => exact h.rises ⟨rfl, Nat.le_of_not_le hlt, Nat.le_refl _⟩
  cases op with
  | load addr =>
    refine h.rises ?_
    change Rises s (s.loadAndRecord addr)
    unfold loadAndRecord
    split <;> exact ⟨rfl, Nat.le_refl _, Nat.le_refl _⟩
  | store addr =>
    refine h.rises ?_
    change Rises s (s.storeAndRecord addr)
    unfold storeAndRecord
    split <;> exact ⟨rfl, Nat.le_refl _, Nat.le_refl _⟩
  | predFalseLoad => exact h
  | predFalseStore => exact h
  | branch pc taken target => exact h.rises ⟨rfl, Nat.le_refl _, Nat.le_refl _⟩
  | ctrlFlow kind hit =>
    refine h.rises ?_
    change Rises s (s.ctrlFlow c kind hit)
    unfold ctrlFlow
    cases c.staticNotTaken <;> cases kind <;> cases hit <;> exact ⟨rfl, Nat.le_refl _, Nat.le_refl _⟩
  | bbl bblAddr bblInfo p => exact (Live.bbl hp hr { toAhead := h, live := hop }).toAhead
  | addDelay cycles => exact h.rises ⟨rfl, Nat.le_add_right _ _, Nat.le_refl _⟩
  | syncToLock t => exact hsync t
  | syncToWaker t => exact hsync t
  | cutHoldWait t => exact hsync t
  | join phaseStart => exact h.join hown
  | leave => exact h.leave hown hop
  | cSimStart nextPhase => exact h.cSimStart hown
  | cSimEnd nextPhase skew drained => exact h.cSimEnd hown
  | contextSwitch => exact h.rises ⟨rfl, Nat.le_max_left _ _, Nat.le_refl _⟩

theorem ahead_init (memory : Nat → Address) : Ahead (init memory) :=
  ⟨fun h => absurd rfl h, (fun _ h => nomatch h), (fun _ h => nomatch h)⟩

/-- **In every state reached** the previous response is behind a cursor of the core, every comparison that
`recordAccess` made held, and no event was given a negative delay. -/
theorem run_ahead (hp : c.l1.Prompt) (hr : c.l1.Recorded) (hown : c.ownClock = false) (memory : Nat → Address)
    (ops : List CoreOp) (hops : Along (step c) Allowed (init memory) ops) :
    Ahead ((init memory).run c ops) :=
  Along.keeps (fun _ _ h hop => h.step hp hr hown hop) (ahead_init memory) hops

theorem run_ahead_loadAdd : Ahead ((init fun _ => 0).run twoWide loadAddOnce) :=
  run_ahead twoWide_prompt twoWide_recorded rfl (fun _ => 0) loadAddOnce (by decide)

end InOrderCore

end Pimid.Core
