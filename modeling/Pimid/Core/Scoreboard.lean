import Mathlib.Data.List.Pairwise
import Pimid.Core.InOrder
import Pimid.Lib.Machine

/-!
# The in-order scoreboard

Uops issue in program order, no more of them in one cycle than the issue width, no two on one port in one
cycle, and none before the completion of the latest earlier uop that wrote one of its sources. The tables
carry over from block to block, and every jump of the clock is forward.
-/

namespace Pimid.Core

/-! ## What an issue order owes -/

/-- The latest uop of a list that wrote register `r`. -/
def lastWriter (l : List Issue) (r : Nat) : Option Issue := (l.filter fun i => i.uop.Writes r).getLast?

/-- The uops of `l` keep program order, issue width, ports and true dependencies. -/
structure InOrder (width : Nat) (l : List Issue) : Prop where
  ordered : l.Pairwise fun a b => a.cycle ≤ b.cycle
  width : ∀ k, l.countP (fun i => i.cycle = k) ≤ width
  ports : l.Pairwise fun a b => ¬ (a.port = b.port ∧ a.cycle = b.cycle)
  sources : ∀ before u after, l = before ++ u :: after → ∀ r, u.uop.Reads r → ∀ w, lastWriter before r = some w →
    w.done ≤ u.cycle

theorem lastWriter_concat {l : List Issue} {u : Issue} {r : Nat} :
    lastWriter (l ++ [u]) r = if u.uop.Writes r then some u else lastWriter l r := by
  unfold lastWriter
  by_cases h : u.uop.Writes r
  · rw [List.filter_append, List.filter_cons_of_pos (by simpa using h), List.filter_nil, List.getLast?_concat, if_pos h]
  · rw [List.filter_append, List.filter_cons_of_neg (by simpa using h), List.filter_nil, List.append_nil, if_neg h]

/-- One more uop keeps the order, if it comes last, finds a slot and a port, and waits for its sources. -/
theorem InOrder.concat {width : Nat} {l : List Issue} {u : Issue} (h : InOrder width l)
    (hcycle : ∀ i ∈ l, i.cycle ≤ u.cycle) (hslot : l.countP (fun i => i.cycle = u.cycle) < width)
    (hport : ∀ i ∈ l, i.port = u.port → i.cycle < u.cycle)
    (hsrc : ∀ r, u.uop.Reads r → ∀ w, lastWriter l r = some w → w.done ≤ u.cycle) : InOrder width (l ++ [u]) := by
  refine ⟨?_, fun k => ?_, ?_, fun before v after he r hr w hw => ?_⟩
  · refine List.pairwise_append.mpr ⟨h.ordered, List.pairwise_singleton _ _, fun a ha b hb => ?_⟩
    rw [List.mem_singleton.mp hb]
    exact hcycle a ha
  · rw [List.countP_append, List.countP_singleton]
    by_cases hk : u.cycle = k
    · subst hk
      simp only [decide_true, if_true]
      exact hslot
    · simp only [hk, decide_false, Bool.false_eq_true, if_false]
      exact h.width k
  · refine List.pairwise_append.mpr ⟨h.ports, List.pairwise_singleton _ _, fun a ha b hb hab => ?_⟩
    rw [List.mem_singleton.mp hb] at hab
    exact absurd hab.2 (Nat.ne_of_lt (hport a ha hab.1))
  · rcases List.eq_nil_or_concat after with rfl | ⟨rest, x, rfl⟩
    · obtain ⟨rfl, hv⟩ := List.append_inj' he rfl
      obtain rfl : u = v := by simpa using hv
      exact hsrc r hr w hw
    · rw [List.concat_eq_append, ← List.cons_append, ← List.append_assoc] at he
      obtain ⟨hl, -⟩ := List.append_inj' he rfl
      exact h.sources before v rest hl r hr w hw

namespace InOrderCore

variable {c : InOrderConfig} {s s' s'' : InOrderCore}

/-! ## The tables and the clock -/

/-- The tables say of the uops issued so far what the next issue relies on. -/
structure Scoreboard (c : InOrderConfig) (s : InOrderCore) : Prop where
  inOrder : InOrder c.issueWidth s.issued
  slot_le : s.slotCycle ≤ s.curCycle
  slots : s.slotsUsed = s.issued.countP fun i => i.cycle = s.slotCycle
  latest : ∀ i ∈ s.issued, i.cycle ≤ s.slotCycle
  portFree : ∀ i ∈ s.issued, i.cycle < s.portFreeCycle i.port
  ready : ∀ r, r ≠ 0 → ∀ w, lastWriter s.issued r = some w → w.done = s.regScoreboard r

/-- The scoreboard is kept, and the clock does not go back. -/
def Keeps (c : InOrderConfig) (s s' : InOrderCore) : Prop := Scoreboard c s → Scoreboard c s' ∧ s.curCycle ≤ s'.curCycle

theorem Keeps.trans (h : Keeps c s s') (h' : Keeps c s' s'') : Keeps c s s'' := fun hs =>
  ⟨(h' (h hs).1).1, Nat.le_trans (h hs).2 (h' (h hs).1).2⟩

/-- Nothing but the clock moved of what the scoreboard is about. -/
structure Waits (s s' : InOrderCore) : Prop where
  issued : s'.issued = s.issued
  slotCycle : s'.slotCycle = s.slotCycle
  slotsUsed : s'.slotsUsed = s.slotsUsed
  portFreeCycle : s'.portFreeCycle = s.portFreeCycle
  regScoreboard : ∀ r, r ≠ 0 → s'.regScoreboard r = s.regScoreboard r
  clock : s.curCycle ≤ s'.curCycle

theorem Waits.refl (s : InOrderCore) : Waits s s := ⟨rfl, rfl, rfl, rfl, fun _ _ => rfl, Nat.le_refl _⟩

theorem Waits.trans (h : Waits s s') (h' : Waits s' s'') : Waits s s'' where
  issued := h'.issued.trans h.issued
  slotCycle := h'.slotCycle.trans h.slotCycle
  slotsUsed := h'.slotsUsed.trans h.slotsUsed
  portFreeCycle := h'.portFreeCycle.trans h.portFreeCycle
  regScoreboard := fun r hr => (h'.regScoreboard r hr).trans (h.regScoreboard r hr)
  clock := Nat.le_trans h.clock h'.clock

theorem Waits.keeps (h : Waits s s') : Keeps c s s' := fun hs =>
  { left :=
      { inOrder := h.issued ▸ hs.inOrder
        slot_le := by
          rw [h.slotCycle]
          exact Nat.le_trans hs.slot_le h.clock
        slots := by rw [h.slotsUsed, h.issued, h.slotCycle, hs.slots]
        latest := by
          rw [h.issued, h.slotCycle]
          exact hs.latest
        portFree := by
          rw [h.issued, h.portFreeCycle]
          exact hs.portFree
        ready := by
          intro r hr w hw
          rw [h.issued] at hw
          rw [h.regScoreboard r hr]
          exact hs.ready r hr w hw }
    right := h.clock }

/-! ## What only waits -/

theorem waits_drainPipeline : Waits s s.drainPipeline :=
  ⟨rfl, rfl, rfl, rfl, fun _ _ => rfl, Nat.le_max_left _ _⟩

theorem waits_load {addr : Address} : Waits s (s.loadAndRecord addr) := by
  unfold loadAndRecord
  split
  · exact ⟨rfl, rfl, rfl, rfl, fun _ _ => rfl, Nat.le_refl _⟩
  · exact ⟨rfl, rfl, rfl, rfl, fun _ _ => rfl, Nat.le_refl _⟩

theorem waits_store {addr : Address} : Waits s (s.storeAndRecord addr) := by
  unfold storeAndRecord
  split
  · exact ⟨rfl, rfl, rfl, rfl, fun _ _ => rfl, Nat.le_refl _⟩
  · exact ⟨rfl, rfl, rfl, rfl, fun _ _ => rfl, Nat.le_refl _⟩

theorem waits_ctrlFlow {kind : CtrlFlowKind} {hit : Bool} : Waits s (s.ctrlFlow c kind hit) := by
  unfold ctrlFlow
  cases c.staticNotTaken <;> cases kind <;> cases hit <;>
    exact ⟨rfl, rfl, rfl, rfl, fun _ _ => rfl, Nat.le_refl _⟩

theorem waits_flush {penalty : Nat} : Waits s (s.flush penalty) :=
  waits_drainPipeline.trans ⟨rfl, rfl, rfl, rfl, fun _ _ => rfl, Nat.le_add_right _ _⟩

theorem waits_resolveBranch {p : Prediction} : Waits s (s.resolveBranch c p) := by
  unfold resolveBranch
  split
  next => exact Waits.refl s
  next =>
    split
    next =>
      dsimp only
      split
      next => exact waits_flush.trans ⟨rfl, rfl, rfl, rfl, fun _ _ => rfl, Nat.le_refl _⟩
      next => exact ⟨rfl, rfl, rfl, rfl, fun _ _ => rfl, Nat.le_refl _⟩
    next =>
      dsimp only
      generalize decide (s.branchTaken = true ∧ s.branchTarget ≠ 0 ∧ ¬p.btbHit = true ∧ p.dirOk = true) = missed
      have hpend : Waits s { s with directResteerPend := s.directResteerPend || missed } :=
        ⟨rfl, rfl, rfl, rfl, fun _ _ => rfl, Nat.le_refl _⟩
      split
      next => exact hpend.trans ⟨rfl, rfl, rfl, rfl, fun _ _ => rfl, Nat.le_refl _⟩
      next => exact (hpend.trans waits_flush).trans ⟨rfl, rfl, rfl, rfl, fun _ _ => rfl, Nat.le_refl _⟩

theorem waits_resteer : Waits s (s.resteer c) := by
  unfold resteer
  split
  next => exact waits_flush.trans ⟨rfl, rfl, rfl, rfl, fun _ _ => rfl, Nat.le_refl _⟩
  next =>
    split
    next => exact waits_flush
    next => exact Waits.refl s

theorem waits_foldl {α : Type} {f : InOrderCore → α → InOrderCore} (hf : ∀ s a, Waits s (f s a)) (l : List α)
    (s : InOrderCore) : Waits s (l.foldl f s) := by
  induction l generalizing s with
  | nil => exact Waits.refl s
  | cons a l ih => exact (hf s a).trans (ih (f s a))

theorem waits_fetchLine {fetchAddr : Address} : Waits s (s.fetchLine c fetchAddr) :=
  ⟨rfl, rfl, rfl, rfl, fun _ _ => rfl, Nat.le_add_right _ _⟩

theorem waits_ifetch {bblAddr : Address} {bblInfo : BblInfo} : Waits s (s.ifetch c bblAddr bblInfo) :=
  waits_foldl (f := fetchLine c) (fun _ _ => waits_fetchLine) _ s

theorem waits_chargeFp {sim : BblInfo} : Waits s (s.chargeFp c sim) := by
  unfold chargeFp
  split
  · exact Waits.refl s
  · exact ⟨rfl, rfl, rfl, rfl, fun _ _ => rfl, Nat.le_add_right _ _⟩

theorem waits_syntheticLoad {p : InOrderCore × Nat} {i : Nat} : Waits p.1 (syntheticLoad c p i).1 := by
  unfold syntheticLoad
  dsimp only
  split
  · exact ⟨rfl, rfl, rfl, rfl, fun _ _ => rfl, Nat.le_refl _⟩
  · exact ⟨rfl, rfl, rfl, rfl, fun _ _ => rfl, Nat.le_refl _⟩

theorem waits_syntheticStore {p : InOrderCore × Nat} {i : Nat} : Waits p.1 (syntheticStore c p i).1 := by
  unfold syntheticStore
  dsimp only
  split
  · exact ⟨rfl, rfl, rfl, rfl, fun _ _ => rfl, Nat.le_refl _⟩
  · exact ⟨rfl, rfl, rfl, rfl, fun _ _ => rfl, Nat.le_refl _⟩

theorem waits_pairs {α β : Type} {f : InOrderCore × β → α → InOrderCore × β} (hf : ∀ p a, Waits p.1 (f p a).1) (l : List α)
    (p : InOrderCore × β) : Waits p.1 (l.foldl f p).1 := by
  induction l generalizing p with
  | nil => exact Waits.refl p.1
  | cons a l ih => exact (hf p a).trans (ih (f p a))

theorem waits_synthetic {bblInfo : BblInfo} : Waits s (s.simulateSyntheticBbl c bblInfo) := by
  have hloads : Waits s (s.syntheticLoads c bblInfo).1 :=
    waits_pairs (f := syntheticLoad c) (fun _ _ => waits_syntheticLoad) _ (s, s.curCycle + bblInfo.instrs)
  have hstores : Waits (s.syntheticLoads c bblInfo).1 (s.syntheticAccesses c bblInfo).1 :=
    waits_pairs (f := syntheticStore c) (fun _ _ => waits_syntheticStore) _ _
  exact (hloads.trans hstores).trans ⟨rfl, rfl, rfl, rfl, fun _ _ => rfl, Nat.le_max_left _ _⟩

/-! ## A uop issues -/

theorem curCycle_le_sourcesReady {uop : DynUop} : s.curCycle ≤ s.sourcesReady uop := Nat.le_max_left _ _

theorem sourcesReady_le {uop : DynUop} : s.sourcesReady uop ≤ s.issueCycle c uop := by
  refine Nat.le_trans ?_ (Nat.le_max_left _ _)
  unfold slotReady
  split
  · exact Nat.le_add_right _ _
  · exact Nat.le_refl _

theorem curCycle_le_issueCycle {uop : DynUop} : s.curCycle ≤ s.issueCycle c uop :=
  Nat.le_trans curCycle_le_sourcesReady sourcesReady_le

theorem reads_ready {uop : DynUop} {r : Nat} (h : uop.Reads r) : s.regScoreboard r ≤ s.issueCycle c uop := by
  refine Nat.le_trans ?_ sourcesReady_le
  unfold sourcesReady
  rcases h.2 with rfl | rfl <;> omega

theorem portFree_le {uop : DynUop} : s.portFreeCycle (s.issuePort uop) ≤ s.issueCycle c uop := Nat.le_max_right _ _

/-- A uop that issues in the slot cycle finds a slot free in it: the cycle was not raised past it. -/
theorem slot_free {uop : DynUop} (hslot : s.slotCycle ≤ s.curCycle) (h : s.issueCycle c uop = s.slotCycle) :
    s.slotsUsed < c.issueWidth := by
  have hsrc : s.sourcesReady uop = s.slotCycle :=
    Nat.le_antisymm (h ▸ sourcesReady_le) (Nat.le_trans hslot curCycle_le_sourcesReady)
  have hle : s.slotReady c (s.sourcesReady uop) ≤ s.slotCycle := h ▸ Nat.le_max_left _ _
  unfold slotReady at hle
  split at hle
  next => omega
  next hn => exact Nat.lt_of_not_le fun hw => hn ⟨hsrc, hw⟩

theorem waits_execute {b : Block} {uop : DynUop} {iss : Nat} : Waits b.core (execute c b uop iss).1.core := by
  unfold execute
  split
  next =>
    unfold loadUop
    dsimp only
    repeat' split
    all_goals exact ⟨rfl, rfl, rfl, rfl, fun _ _ => rfl, Nat.le_refl _⟩
  next =>
    unfold storeUop
    dsimp only
    repeat' split
    all_goals exact ⟨rfl, rfl, rfl, rfl, fun _ _ => rfl, Nat.le_refl _⟩
  next => exact Waits.refl _
  next => exact Waits.refl _
  next => exact Waits.refl _

theorem setReady_ne {regs : Nat → Nat} {r r' done : Nat} (h : r' ≠ r) : setReady regs r done r' = regs r' := by
  unfold setReady
  split
  · rfl
  · rw [Function.update_of_ne h]

theorem setReady_self {regs : Nat → Nat} {r done : Nat} (h : r ≠ 0) : setReady regs r done r = done := by
  rw [setReady, if_neg h, Function.update_self]

theorem setReady_writes {regs : Nat → Nat} {uop : DynUop} {r done : Nat} (hr : r ≠ 0) :
    setReady (setReady regs uop.rd0 done) uop.rd1 done r = if uop.Writes r then done else regs r := by
  by_cases h1 : r = uop.rd1
  · subst h1
    rw [setReady_self hr, if_pos ⟨hr, Or.inr rfl⟩]
  · rw [setReady_ne h1]
    by_cases h0 : r = uop.rd0
    · subst h0
      rw [setReady_self hr, if_pos ⟨hr, Or.inl rfl⟩]
    · rw [setReady_ne h0, if_neg fun hw => hw.2.elim (fun h => h0 h.symm) (fun h => h1 h.symm)]

theorem countP_eq_zero_of_lt {l : List Issue} {k : Nat} (h : ∀ i ∈ l, i.cycle < k) : l.countP (fun i => i.cycle = k) = 0 := by
  rw [List.countP_eq_zero]
  intro i hi
  simpa using Nat.ne_of_lt (h i hi)

/-- The uops issued in the cycle the next one goes out in are counted by its slot, and leave room for it. -/
theorem Scoreboard.room (hw : 1 ≤ c.issueWidth) (h : Scoreboard c s) (uop : DynUop) :
    (if s.issueCycle c uop = s.slotCycle then s.slotsUsed else 0) =
        s.issued.countP (fun i => i.cycle = s.issueCycle c uop) ∧
      s.issued.countP (fun i => i.cycle = s.issueCycle c uop) < c.issueWidth := by
  by_cases heq : s.issueCycle c uop = s.slotCycle
  · have hfree := slot_free h.slot_le heq
    rw [if_pos heq, heq, ← h.slots]
    exact ⟨rfl, hfree⟩
  · have hge : s.slotCycle ≤ s.issueCycle c uop := Nat.le_trans h.slot_le curCycle_le_issueCycle
    have hlt : ∀ i ∈ s.issued, i.cycle < s.issueCycle c uop := fun i hi =>
      Nat.lt_of_le_of_lt (h.latest i hi) (Nat.lt_of_le_of_ne hge fun he => heq he.symm)
    rw [if_neg heq, countP_eq_zero_of_lt hlt]
    exact ⟨rfl, hw⟩

/-- **One uop.** It takes its place at the end of the issue order, and the tables are as they should be behind it. -/
theorem simulateUop_keeps (hw : 1 ≤ c.issueWidth) (b : Block) (uop : DynUop) :
    Keeps c b.core (simulateUop c b uop).core := by
  intro h
  obtain ⟨hcount, hroom⟩ := h.room hw uop
  have hcur : b.core.curCycle ≤ b.core.issueCycle c uop := curCycle_le_issueCycle
  have hlatest : ∀ i ∈ b.core.issued, i.cycle ≤ b.core.issueCycle c uop := fun i hi =>
    Nat.le_trans (h.latest i hi) (Nat.le_trans h.slot_le hcur)
  unfold simulateUop
  dsimp only
  have hexec := @waits_execute c { b with core := b.core.issue c uop } uop
    (b.core.issueCycle c uop)
  generalize execute c { b with core := b.core.issue c uop } uop (b.core.issueCycle c uop) = r at hexec
  have hissued : r.1.core.issued = b.core.issued := hexec.issued
  have hregs : ∀ x, x ≠ 0 → r.1.core.regScoreboard x = b.core.regScoreboard x := hexec.regScoreboard
  have hslot : r.1.core.slotCycle = b.core.issueCycle c uop := hexec.slotCycle
  have hports : r.1.core.portFreeCycle =
      Function.update b.core.portFreeCycle (b.core.issuePort uop) (b.core.issueCycle c uop + 1) := hexec.portFreeCycle
  have hclock : b.core.issueCycle c uop ≤ r.1.core.curCycle := hexec.clock
  have hinOrder : InOrder c.issueWidth
      (b.core.issued ++ [⟨uop, b.core.issueCycle c uop, b.core.issuePort uop, r.2⟩]) := by
    refine h.inOrder.concat hlatest hroom (fun i hi hp => ?_) fun x hx w hwr => ?_
    · refine Nat.lt_of_lt_of_le (h.portFree i hi) ?_
      rw [hp]
      exact portFree_le
    · rw [h.ready x hx.1 w hwr]
      exact reads_ready hx
  refine ⟨⟨?_, ?_, ?_, ?_, ?_, ?_⟩, Nat.le_trans hcur hclock⟩
  · change InOrder c.issueWidth (r.1.core.issued ++ _)
    rw [hissued]
    exact hinOrder
  · change r.1.core.slotCycle ≤ r.1.core.curCycle
    rw [hslot]
    exact hclock
  · change r.1.core.slotsUsed = (r.1.core.issued ++ [_]).countP fun i : Issue => i.cycle = r.1.core.slotCycle
    have hused : r.1.core.slotsUsed = (if b.core.issueCycle c uop = b.core.slotCycle then b.core.slotsUsed else 0) + 1 :=
      hexec.slotsUsed
    rw [hused, hissued, hslot, List.countP_append, List.countP_singleton, hcount]
    simp
  · intro i hi
    change i.cycle ≤ r.1.core.slotCycle
    rw [hslot]
    change i ∈ r.1.core.issued ++ [_] at hi
    rw [hissued] at hi
    rcases List.mem_append.mp hi with hi | hi
    · exact hlatest i hi
    · exact Nat.le_of_eq (by rw [List.mem_singleton.mp hi])
  · intro i hi
    change i.cycle < r.1.core.portFreeCycle i.port
    change i ∈ r.1.core.issued ++ [_] at hi
    rw [hissued] at hi
    rw [hports]
    by_cases hp : i.port = b.core.issuePort uop
    · rw [hp, Function.update_self]
      rcases List.mem_append.mp hi with hi | hi
      · exact Nat.lt_succ_of_le (hlatest i hi)
      · rw [List.mem_singleton.mp hi]
        exact Nat.lt_succ_self _
    · rw [Function.update_of_ne hp]
      rcases List.mem_append.mp hi with hi | hi
      · exact h.portFree i hi
      · rw [List.mem_singleton.mp hi] at hp
        exact absurd rfl hp
  · intro x hx w hwr
    change w.done = setReady (setReady r.1.core.regScoreboard uop.rd0 r.2) uop.rd1 r.2 x
    change lastWriter (r.1.core.issued ++ [_]) x = some w at hwr
    rw [hissued, lastWriter_concat] at hwr
    rw [setReady_writes hx, hregs x hx]
    by_cases hwx : uop.Writes x
    · rw [if_pos hwx] at hwr ⊢
      rw [← Option.some.inj hwr]
    · rw [if_neg hwx] at hwr ⊢
      exact h.ready x hx w hwr

/-! ## A block -/

theorem keeps_blocks {α : Type} {f : Block → α → Block} (hf : ∀ b a, Keeps c b.core (f b a).core) (l : List α) (b : Block) :
    Keeps c b.core (l.foldl f b).core := by
  induction l generalizing b with
  | nil => exact fun hs => ⟨hs, Nat.le_refl _⟩
  | cons a l ih => exact (hf b a).trans (ih (f b a))

theorem waits_drainLoad {rep : Bool} {b : Block} {i : Nat} : Waits b.core (drainLoad c rep b i).core := by
  unfold drainLoad
  dsimp only
  split
  · exact ⟨rfl, rfl, rfl, rfl, fun _ _ => rfl, Nat.le_refl _⟩
  · exact ⟨rfl, rfl, rfl, rfl, fun _ _ => rfl, Nat.le_refl _⟩

theorem waits_drainStore {rep : Bool} {b : Block} {i : Nat} : Waits b.core (drainStore c rep b i).core := by
  unfold drainStore
  dsimp only
  split
  · exact ⟨rfl, rfl, rfl, rfl, fun _ _ => rfl, Nat.le_refl _⟩
  · exact ⟨rfl, rfl, rfl, rfl, fun _ _ => rfl, Nat.le_refl _⟩

theorem waits_outstanding {b : Block} : Waits b.core { b.core with maxOutstanding := max b.core.maxOutstanding b.lastDone } :=
  ⟨rfl, rfl, rfl, rfl, fun _ _ => rfl, Nat.le_refl _⟩

theorem keeps_decoded (hw : 1 ≤ c.issueWidth) {db : DynBbl} : Keeps c s (s.simulateDecodedBbl c db) := by
  have hstart : Waits s { s with regScoreboard := Function.update s.regScoreboard 0 0 } :=
    ⟨rfl, rfl, rfl, rfl, fun r hr => Function.update_of_ne hr _ _, Nat.le_refl _⟩
  have huops : Keeps c s (s.simulateUops c db).core :=
    hstart.keeps.trans (keeps_blocks (simulateUop_keeps hw) db.uops
      ⟨{ s with regScoreboard := Function.update s.regScoreboard 0 0 }, 0, 0, s.curCycle⟩)
  have hdrain (b : Block) : Keeps c b.core (drainAccesses c b db).core :=
    (keeps_blocks (fun _ _ => waits_drainLoad.keeps) _ b).trans (keeps_blocks (fun _ _ => waits_drainStore.keeps) _ _)
  exact (huops.trans (hdrain _)).trans (waits_outstanding (b := drainAccesses c (s.simulateUops c db) db)).keeps

theorem keeps_simulate (hw : 1 ≤ c.issueWidth) {sim : BblInfo} : Keeps c s (s.simulate c sim) := by
  unfold simulate
  split
  next => exact (waits_chargeFp.trans waits_synthetic).keeps
  next => exact waits_chargeFp.keeps.trans (keeps_decoded hw)

theorem keeps_retire (hw : 1 ≤ c.issueWidth) {sim : BblInfo} {p : Prediction} : Keeps c s (s.retire c sim p) :=
  (keeps_simulate hw).trans (waits_resolveBranch.trans waits_resteer).keeps

theorem waits_defer {bblInfo : BblInfo} : Waits s (s.defer bblInfo) :=
  ⟨rfl, rfl, rfl, rfl, fun _ _ => rfl, Nat.le_refl _⟩

theorem keeps_bbl (hw : 1 ≤ c.issueWidth) {bblAddr : Address} {bblInfo : BblInfo} {p : Prediction} :
    Keeps c s (s.bblAndRecord c bblAddr bblInfo p) := by
  unfold bblAndRecord
  split
  next => exact Waits.keeps ⟨rfl, rfl, rfl, rfl, fun _ _ => rfl, Nat.le_refl _⟩
  next => exact (keeps_retire hw).trans (waits_defer.trans waits_ifetch).keeps

/-! ## Runs -/

/-- A join takes a halted core to a cycle not before its own. -/
def JoinsForward (s : InOrderCore) : CoreOp → Prop
  | .join phaseStart => s.cRec.state = .halted → s.curCycle ≤ phaseStart
  | _ => True

instance : DecidablePred (JoinsForward s)
  | .join phaseStart => inferInstanceAs (Decidable (s.cRec.state = .halted → s.curCycle ≤ phaseStart))
  | .load _ | .store _ | .predFalseLoad | .predFalseStore | .branch .. | .ctrlFlow .. | .bbl .. | .addDelay _ | .syncToLock _
  | .syncToWaker _ | .cutHoldWait _ | .leave | .cSimStart _ | .cSimEnd .. | .contextSwitch => instDecidableTrue

theorem waits_syncTo {t : Nat} : Waits s (s.syncTo t) := by
  unfold syncTo
  split
  next => exact Waits.refl s
  next h => exact ⟨rfl, rfl, rfl, rfl, fun _ _ => rfl, Nat.le_of_not_le h⟩

theorem waits_join {phaseStart : Nat} (h : JoinsForward s (.join phaseStart)) : Waits s (s.join c phaseStart) := by
  refine ⟨rfl, rfl, rfl, rfl, fun _ _ => rfl, ?_⟩
  have hdrain : s.curCycle ≤ s.drainPipeline.curCycle := Nat.le_max_left _ _
  change s.curCycle ≤ (s.cRec.notifyJoin c.ownClock phaseStart s.drainPipeline.curCycle).1
  unfold CoreRecorder.notifyJoin
  split
  next =>
    dsimp only
    split
    next hh => exact h hh
    next => exact hdrain
  next =>
    split
    next hh => exact h hh
    next => exact hdrain

theorem waits_leave : Waits s (s.leave c) :=
  ⟨rfl, rfl, rfl, rfl, fun _ _ => rfl, Nat.le_trans (Nat.le_max_left _ _) (Nat.le_max_left _ _)⟩

theorem waits_cSimStart {nextPhase : Nat} : Waits s (s.cSimStart c nextPhase) := by
  refine ⟨rfl, rfl, rfl, rfl, fun _ _ => rfl, ?_⟩
  have hdrain : s.curCycle ≤ s.drainPipeline.curCycle := Nat.le_max_left _ _
  change s.curCycle ≤ (s.cRec.cSimStart c.ownClock nextPhase s.drainPipeline.curCycle).1
  unfold CoreRecorder.cSimStart
  split
  next => exact hdrain
  next => exact Nat.le_trans hdrain (Nat.le_max_left _ _)
  next => split <;> [exact hdrain; split <;> exact hdrain]

theorem waits_cSimEnd {nextPhase skew : Nat} {drained : Bool} : Waits s (s.cSimEnd c nextPhase skew drained) := by
  refine ⟨rfl, rfl, rfl, rfl, fun _ _ => rfl, ?_⟩
  have hdrain : s.curCycle ≤ s.drainPipeline.curCycle := Nat.le_max_left _ _
  change s.curCycle ≤ (s.cRec.cSimEnd c.ownClock nextPhase skew drained s.drainPipeline.curCycle).1
  unfold CoreRecorder.cSimEnd
  split
  next => exact hdrain
  next => split <;> [exact hdrain; exact Nat.le_trans hdrain (Nat.le_add_right _ _)]

/-- **One step.** -/
theorem keeps_step (hw : 1 ≤ c.issueWidth) {op : CoreOp} (hop : JoinsForward s op) : Keeps c s (s.step c op) := by
  cases op with
  | load addr => exact waits_load.keeps
  | store addr => exact waits_store.keeps
  | predFalseLoad => exact (Waits.refl s).keeps
  | predFalseStore => exact (Waits.refl s).keeps
  | branch pc taken target => exact Waits.keeps ⟨rfl, rfl, rfl, rfl, fun _ _ => rfl, Nat.le_refl _⟩
  | ctrlFlow kind hit => exact waits_ctrlFlow.keeps
  | bbl bblAddr bblInfo p => exact keeps_bbl hw
  | addDelay cycles => exact Waits.keeps ⟨rfl, rfl, rfl, rfl, fun _ _ => rfl, Nat.le_add_right _ _⟩
  | syncToLock t => exact waits_syncTo.keeps
  | syncToWaker t => exact waits_syncTo.keeps
  | cutHoldWait t => exact waits_syncTo.keeps
  | join phaseStart => exact (waits_join hop).keeps
  | leave => exact waits_leave.keeps
  | cSimStart nextPhase => exact waits_cSimStart.keeps
  | cSimEnd nextPhase skew drained => exact waits_cSimEnd.keeps
  | contextSwitch => exact Waits.keeps ⟨rfl, rfl, rfl, rfl, fun _ _ => rfl, Nat.le_max_left _ _⟩

theorem scoreboard_init (memory : Nat → Address) : Scoreboard c (init memory) where
  inOrder := ⟨List.Pairwise.nil, fun _ => Nat.zero_le _, List.Pairwise.nil, fun before u after h => by
    exact absurd h (by simp [init])⟩
  slot_le := Nat.le_refl _
  slots := rfl
  latest := fun _ hi => nomatch hi
  portFree := fun _ hi => nomatch hi
  ready := fun _ _ _ hw => nomatch hw

/-- A run keeps the scoreboard, and its clock does not go back. -/
theorem keeps_run (hw : 1 ≤ c.issueWidth) {ops : List CoreOp} (hops : Along (step c) JoinsForward s ops) :
    Keeps c s (s.run c ops) := by
  induction ops generalizing s with
  | nil => exact fun hs => ⟨hs, Nat.le_refl _⟩
  | cons op ops ih => exact (keeps_step hw hops.1).trans (ih hops.2)

/-- **Every run of the in-order core** issues its uops in program order, at most `issueWidth` in a cycle, at most one on
a port in a cycle, and none before its sources are written; and the clock never goes back. -/
theorem run_inOrder (hw : 1 ≤ c.issueWidth) (memory : Nat → Address) (ops : List CoreOp)
    (hops : Along (step c) JoinsForward (init memory) ops) :
    InOrder c.issueWidth ((init memory).run c ops).issued ∧
      ∀ before after, ops = before ++ after → ((init memory).run c before).curCycle ≤ ((init memory).run c ops).curCycle := by
  refine ⟨(keeps_run hw hops (scoreboard_init memory)).1.inOrder, ?_⟩
  rintro before after rfl
  obtain ⟨hbefore, hafter⟩ := along_append.mp hops
  have hmid := (keeps_run hw hbefore (scoreboard_init memory)).1
  have hrun : (init memory).run c (before ++ after) = ((init memory).run c before).run c after := List.foldl_append
  rw [hrun]
  exact (keeps_run hw hafter hmid).2

theorem run_inOrder_loadAdd :
    InOrder 2 ((init fun _ => 0).run twoWide loadAddOnce).issued ∧
      ∀ before after, loadAddOnce = before ++ after →
        ((init fun _ => 0).run twoWide before).curCycle ≤ ((init fun _ => 0).run twoWide loadAddOnce).curCycle :=
  run_inOrder (c := twoWide) (by decide) (fun _ => 0) loadAddOnce (by decide)

end InOrderCore

end Pimid.Core
