import Pimid.Dram.Balance
import Mathlib.Tactic.Ring
import Mathlib.Tactic.NormNum

/-!
# Two accounts of one balance

Every operation is given the bookings it makes: which balance event of which core,
under which number, by how much. The bookings say what happens to the aggregate
account; nothing in them looks at the ledger. Over any sequence of operations since
the ROI opened, both accounts are the sum of the bookings, and the balance at a mark
is the sum of those before it.
-/

namespace Pimid.Dram

open Std (TreeMap)

/-- An operation of the replay that touches a core's accounts, or what these depend on. -/
inductive Op where
  | recordAddr (thread epoch stamp core chg : Nat) (hold : Bool)
  | chargeLast (thread lat : Nat) (boot : Bool) (floor : Nat)
  | recDone (core mi : Nat) (hold out : Bool) (meas chg doneTick dmab seq : Nat) (share : Option RecAcc)
  | recDmaClose (core : Nat)
  | pfApply (core : Nat) (corr : Int)
  | reconcileAtBarrier (canTake : Nat → Bool)
  | reconcileCore (core maxRewind c0 : Nat) (rewind : Nat → Nat)
  | settleMark (core : Nat)
  | settleApply (core : Nat) (adj : Int)
  | settlePrune (core below : Nat)
  | replayCore (core : Nat) (t : Timing)
  | feed (epoch : Nat) (fold : Bool)
  | markRunEnd

def exec (cfg : Cfg) (s : St) : Op → St
  | .recordAddr thread epoch stamp core chg hold => recordAddr cfg s thread epoch stamp core chg hold
  | .chargeLast thread lat boot floor => (chargeLast cfg s thread lat boot floor).1
  | .recDone core mi hold out meas chg doneTick dmab seq share =>
    recDone cfg s core mi hold out meas chg doneTick dmab seq share
  | .recDmaClose core => closeCore s core
  | .pfApply core corr => pfApply cfg s core corr
  | .reconcileAtBarrier canTake => reconcileAtBarrier cfg s canTake
  | .reconcileCore core maxRewind c0 rewind => (reconcileCore cfg s core maxRewind c0 rewind).1
  | .settleMark core => (settleMark s core).1
  | .settleApply core adj => settleApply cfg s core adj
  | .settlePrune core below => settlePrune cfg s core below
  | .replayCore core t => replayCore cfg s core t
  | .feed epoch fold => feed cfg s epoch fold
  | .markRunEnd => { s with runEndMarked := true }

/-! ## The bookings of an operation -/

/-- A core's booking. -/
abbrev Event := Nat × Booking ℚ

/-- The record's refund, under the record's number. -/
def recordEvents (cfg : Cfg) (s : St) (core chg : Nat) (hold : Bool) : List Event :=
  let take := takeOf (s.pool core) chg
  if cfg.cutMode ∧ s.roiMarked ∧ core ≠ noCore ∧ core < kRecCores ∧ hold ∧ chg ≠ 0 ∧ take ≠ 0 then
    [(core, .event (s.seqA core + 1) (refundOf s core take / 1024))]
  else []

/-- The refund of a boot charge, under the number of the record it is for. -/
def bootEvents (cfg : Cfg) (s : St) (l : Last) (lat floor : Nat) : List Event :=
  match lastRec s l with
  | some r =>
    let take := bootTake cfg s r lat floor
    if take ≠ 0 then [(r.core, .event r.seq (refundOf s r.core take / 1024))] else []
  | none => []

def chargeEvents (cfg : Cfg) (s : St) (thread lat : Nat) (boot : Bool) (floor : Nat) : List Event :=
  match s.last thread with
  | some l => if boot then bootEvents cfg s l lat floor else []
  | none => []

/-- Measured less charged, under the access's number; a DMA line waits for its transfer. -/
def doneEvents (cfg : Cfg) (s : St) (core : Nat) (hold out : Bool) (meas chg dmab seq : Nat) (share : Option RecAcc) :
    List Event :=
  if ¬hold ∨ out ∨ chg = 0 ∨ core = noCore then []
  else if ¬cfg.cutMode ∨ ¬s.roiMarked then []
  else match s.cl[core]? with
    | none => []
    | some k => if ¬k.on ∨ dmab ≠ 0 then [] else [(core, .event seq (creditOf k meas chg share))]

/-- A transfer that ends counts at its latest line. -/
def closeEvents (roiMarked : Bool) (core : Nat) (k : CoreCL) : List Event :=
  if k.dmaOpen ≠ 0 ∧ k.dmaComp ≠ 0 ∧ roiMarked then [(core, .event k.dmaSeq (dmaCredit k))] else []

def closeCoreEvents (s : St) (core : Nat) : List Event :=
  match s.cl[core]? with
  | none => []
  | some k => closeEvents s.roiMarked core k

def pfEvents (cfg : Cfg) (s : St) (core : Nat) (corr : Int) : List Event :=
  if ¬cfg.cutMode ∨ ¬s.roiMarked then []
  else match s.cl[core]? with
    | none => []
    | some k => if k.on then [(core, .correction corr)] else []

def closeDoneEvents (roiMarked : Bool) (core : Nat) (k : CoreCL) : List Event :=
  if k.dmaOpen ≠ 0 ∧ k.out = 0 then closeEvents roiMarked core k else []

/-- Cycles on the core's clock are its next event. -/
def delayEvent (s : St) (core : Nat) (adj : Int) : Event :=
  (core, .event (s.seqA core + 1) (-adj))

def oneEvents (cfg : Cfg) (canTake : Nat → Bool) (s : St) (c : Nat) : List Event :=
  match s.cl[c]? with
  | none => []
  | some k =>
    if ¬k.on ∨ kRecCores ≤ c then []
    else
      let owed := (closeDone s.roiMarked k).owed (s.used c)
      closeDoneEvents s.roiMarked c k ++
        if 1 ≤ owed ∧ c < cfg.numCores ∧ cfg.cores c ∧ canTake c then [delayEvent s c (delayOf owed)] else []

/-- Core after core, as the barrier's loop. -/
def barrierEvents (cfg : Cfg) (canTake : Nat → Bool) : St → List Nat → List Event
  | _, [] => []
  | s, c :: cs => oneEvents cfg canTake s c ++ barrierEvents cfg canTake (reconcileOne cfg canTake s c) cs

def coreEvents (cfg : Cfg) (s : St) (core maxRewind c0 : Nat) (rewind : Nat → Nat) : List Event :=
  if ¬cfg.cutMode ∨ kRecCores ≤ core ∨ cfg.numCores ≤ core ∨ ¬cfg.cores core then []
  else match s.cl[core]? with
    | none => []
    | some k =>
      if ¬s.roiMarked ∨ s.runEndMarked ∨ ¬k.on then []
      else
        let owed := (closeDone s.roiMarked k).owed (s.used core)
        closeDoneEvents s.roiMarked core k ++
          if 1 ≤ owed then [delayEvent s core (delayOf owed)]
          else if owed ≤ -1 ∧ 0 < maxRewind then
            [delayEvent s core (-((c0 - rewind (min (-owed) maxRewind).floor.toNat : Nat) : Int))]
          else []

def settleEvents (cfg : Cfg) (s : St) (core : Nat) (adj : Int) : List Event :=
  if ¬cfg.cutMode ∨ kRecCores ≤ core then []
  else match s.cl[core]? with
    | none => []
    | some _ => if adj ≠ 0 then [delayEvent s core adj] else []

def events (cfg : Cfg) (s : St) : Op → List Event
  | .recordAddr _ _ _ core chg hold => recordEvents cfg s core chg hold
  | .chargeLast thread lat boot floor => chargeEvents cfg s thread lat boot floor
  | .recDone core _ hold out meas chg _ dmab seq share => doneEvents cfg s core hold out meas chg dmab seq share
  | .recDmaClose core => closeCoreEvents s core
  | .pfApply core corr => pfEvents cfg s core corr
  | .reconcileAtBarrier canTake =>
    if ¬cfg.cutMode ∨ ¬s.roiMarked then [] else barrierEvents cfg canTake s s.cl.keys
  | .reconcileCore core maxRewind c0 rewind => coreEvents cfg s core maxRewind c0 rewind
  | .settleApply core adj => settleEvents cfg s core adj
  | .settleMark _ => []
  | .settlePrune _ _ => []
  | .replayCore _ _ => []
  | .feed _ _ => []
  | .markRunEnd => []

/-- The replay since the ROI opened in state `s₀`, and what it booked. -/
def machine (cfg : Cfg) (s₀ : St) : Machine St Op Event where
  init := markRoi cfg s₀
  step s op := some (exec cfg s op, events cfg s op)

/-- The bookings of one core. -/
def ofCore (core : Nat) (log : List Event) : List (Booking ℚ) :=
  log.filterMap fun e => if e.1 = core then some e.2 else none

theorem ofCore_append (core : Nat) (l₁ l₂ : List Event) : ofCore core (l₁ ++ l₂) = ofCore core l₁ ++ ofCore core l₂ :=
  List.filterMap_append

/-- `es` are bookings of core `c` only. -/
def Of (c : Nat) (es : List Event) : Prop := ∀ e ∈ es, e.1 = c

theorem Of.nil (c : Nat) : Of c [] := fun _ he => nomatch he

theorem Of.single (c : Nat) (b : Booking ℚ) : Of c [(c, b)] := fun _ he => by rw [List.mem_singleton.mp he]

theorem Of.append {c : Nat} {es fs : List Event} (he : Of c es) (hf : Of c fs) : Of c (es ++ fs) := fun e h =>
  (List.mem_append.mp h).elim (he e) (hf e)

theorem Of.other {c core : Nat} {es : List Event} (h : Of c es) (hne : core ≠ c) : ofCore core es = [] :=
  List.filterMap_eq_nil_iff.mpr fun e he => if_neg fun heq => hne (by rw [← heq, h e he])

theorem ofCore_single (c : Nat) (b : Booking ℚ) : ofCore c [(c, b)] = [b] := by
  simp [ofCore]

/-! ## One core's accounts -/

/-- Both accounts of the core are the sum of its bookings. -/
structure Agrees (k : CoreCL) (used : Int) (log : List (Booking ℚ)) : Prop where
  ledger : k.led.Keeps log
  owed : k.owed used = Booking.sumAll log

namespace Agrees

variable {k : CoreCL} {used : Int} {log : List (Booking ℚ)}

theorem fresh (ooo : Bool) : Agrees { ooo } 0 [] where
  ledger := Ledger.Keeps.empty
  owed := by
    show (0 : ℚ) + (0 : Int) / 1024 - (0 : Int) = 0
    norm_num

theorem congr {k' : CoreCL} (h : Agrees k used log) (hled : k'.led = k.led) (hdiff : k'.diff = k.diff)
    (hdly : k'.dlyTot = k.dlyTot) : Agrees k' used log where
  ledger := hled ▸ h.ledger
  owed := by rw [← h.owed, CoreCL.owed, CoreCL.owed, hdiff, hdly]

private theorem sumAll_snoc (log : List (Booking ℚ)) (b : Booking ℚ) :
    Booking.sumAll (log ++ [b]) = Booking.sumAll log + b.amount := by
  rw [Booking.sumAll_append]
  exact congrArg _ (add_zero _)

theorem measure (h : Agrees k used log) (seq : Nat) (v : ℚ) :
    Agrees (ledAdd { k with diff := k.diff + v } seq v) used (log ++ [.event seq v]) where
  ledger := h.ledger.add seq v
  owed := by
    rw [sumAll_snoc, ← h.owed]
    show k.diff + v + used / 1024 - k.dlyTot = k.diff + used / 1024 - k.dlyTot + v
    ring

/-- A refund: into `used`, and under its record's number. -/
theorem refund (h : Agrees k used log) (seq : Nat) (r : Int) :
    Agrees (ledAdd k seq (r / 1024)) (used + r) (log ++ [.event seq (r / 1024)]) where
  ledger := h.ledger.add seq _
  owed := by
    rw [sumAll_snoc, ← h.owed]
    show k.diff + ((used + r : Int) : ℚ) / 1024 - k.dlyTot = k.diff + used / 1024 - k.dlyTot + r / 1024
    push_cast
    ring

theorem delay (h : Agrees k used log) (s : St) (core : Nat) (adj : Int) :
    Agrees (applyDelay s core k adj).2 used (log ++ [.event (s.seqA core + 1) (-adj)]) where
  ledger := by
    have hseq : (nextSeq s core).seqA core = s.seqA core + 1 := if_pos rfl
    show (k.led.add ((nextSeq s core).seqA core) (-adj)).Keeps _
    rw [hseq]
    exact h.ledger.add _ _
  owed := by
    rw [sumAll_snoc, ← h.owed]
    show k.diff + used / 1024 - ((k.dlyTot + adj : Int) : ℚ) = k.diff + used / 1024 - k.dlyTot + -adj
    push_cast
    ring

theorem correct (h : Agrees k used log) (corr : Int) :
    Agrees { k with diff := k.diff + corr, led := k.led.correct corr } used (log ++ [.correction corr]) where
  ledger := h.ledger.correct _
  owed := by
    rw [sumAll_snoc, ← h.owed]
    show k.diff + corr + used / 1024 - k.dlyTot = k.diff + used / 1024 - k.dlyTot + corr
    ring

theorem prune (h : Agrees k used log) (below : Nat) : Agrees { k with led := k.led.prune below } used log where
  ledger := h.ledger.prune below
  owed := h.owed

theorem close (h : Agrees k used log) (roi : Bool) (core : Nat) :
    Agrees (recDmaClose roi k) used (log ++ (closeEvents roi core k).map (·.2)) := by
  unfold recDmaClose closeEvents
  by_cases hc : k.dmaOpen ≠ 0 ∧ k.dmaComp ≠ 0 ∧ roi = true
  · rw [if_pos hc, if_pos hc]
    exact (h.measure k.dmaSeq (dmaCredit k)).congr rfl rfl rfl
  · rw [if_neg hc, if_neg hc]
    have hk : Agrees { k with dmaOpen := 0, dmaComp := 0, dmaChgEnd := 0 } used log := h.congr rfl rfl rfl
    simpa using hk

theorem closeDone (h : Agrees k used log) (roi : Bool) (core : Nat) :
    Agrees (closeDone roi k) used (log ++ (closeDoneEvents roi core k).map (·.2)) := by
  unfold Dram.closeDone closeDoneEvents
  split
  · exact h.close roi core
  · simpa using h

end Agrees

/-! ## Every core's accounts -/

/-- A core of the closed loop has agreeing accounts; any other core has no account yet, and nothing to refund. -/
def Settled (c : Option CoreCL) (pool used : Int) (log : List (Booking ℚ)) : Prop :=
  match c with
  | some k => Agrees k used log
  | none => pool = 0 ∧ used = 0 ∧ log = []

structure Inv (cfg : Cfg) (s : St) (log : List Event) : Prop where
  core : ∀ c : Nat, Settled s.cl[c]? (s.pool c) (s.used c) (ofCore c log)
  -- without the cut there is no closed loop
  closed : cfg.cutMode = false → ∀ c : Nat, s.cl[c]? = none

/-- `s'` differs from `s` in the accounts of core `c` at most. -/
structure Only (c : Nat) (s s' : St) : Prop where
  cl : ∀ x : Nat, x ≠ c → s'.cl[x]? = s.cl[x]?
  pool : ∀ x, x ≠ c → s'.pool x = s.pool x
  used : ∀ x, x ≠ c → s'.used x = s.used x

section Frames

variable {s s' s'' : St} {c : Nat}

theorem only_setCore (s : St) (c : Nat) (k : CoreCL) : Only c s (setCore s c k) where
  cl _ hx := getElem?_insert_other k hx
  pool _ _ := rfl
  used _ _ := rfl

theorem only_setPool (s : St) (c : Nat) (v : Int) : Only c s (setPool s c v) where
  cl _ _ := rfl
  pool _ hx := if_neg hx
  used _ _ := rfl

theorem setCore_cl_same (s : St) (c : Nat) (k : CoreCL) : (setCore s c k).cl[c]? = some k :=
  getElem?_insert_same s.cl c k

end Frames

section Steps

variable {cfg : Cfg} {s s' : St} {log : List Event} {c : Nat}

/-- The rule for an operation on one core: the core's accounts take its bookings, no other core is touched. -/
theorem Inv.update (h : Inv cfg s log) {es : List Event} (honly : Only c s s') (hof : Of c es)
    (hc : Settled s'.cl[c]? (s'.pool c) (s'.used c) (ofCore c log ++ ofCore c es))
    (hclosed : cfg.cutMode = false → s'.cl[c]? = none) : Inv cfg s' (log ++ es) where
  core x := by
    rw [ofCore_append]
    by_cases hx : x = c
    · subst hx
      exact hc
    · rw [honly.cl x hx, honly.pool x hx, honly.used x hx, hof.other hx, List.append_nil]
      exact h.core x
  closed hcut x := by
    by_cases hx : x = c
    · rw [hx]
      exact hclosed hcut
    · rw [honly.cl x hx]
      exact h.closed hcut x

theorem Inv.same (h : Inv cfg s log) (hcl : s'.cl = s.cl) (hpool : s'.pool = s.pool) (hused : s'.used = s.used) :
    Inv cfg s' log where
  core x := by
    rw [hcl, hpool, hused]
    exact h.core x
  closed hcut x := by
    rw [hcl]
    exact h.closed hcut x

theorem Inv.agrees (h : Inv cfg s log) {k : CoreCL} (hk : s.cl[c]? = some k) : Agrees k (s.used c) (ofCore c log) := by
  have := h.core c
  rw [hk] at this
  exact this

theorem Inv.cut (h : Inv cfg s log) {k : CoreCL} (hk : s.cl[c]? = some k) : cfg.cutMode = true := by
  rw [← Bool.not_eq_false]
  intro hcut
  rw [h.closed hcut c] at hk
  cases hk

/-- A core of the closed loop gets new fields, and takes the bookings `es`. -/
theorem Inv.setCore (h : Inv cfg s log) {k k' : CoreCL} (hk : s.cl[c]? = some k) {es : List Event} (hof : Of c es)
    (hagree : Agrees k' (s.used c) (ofCore c log ++ ofCore c es)) : Inv cfg (setCore s c k') (log ++ es) := by
  refine h.update (only_setCore s c k') hof ?_ fun hcut => ?_
  · rw [setCore_cl_same]
    exact hagree
  · rw [h.cut hk] at hcut
    cases hcut

/-- Only the aggregate fields and the ledger of a core count. -/
theorem Inv.keep (h : Inv cfg s log) {k k' : CoreCL} (hk : s.cl[c]? = some k)
    (hagree : Agrees k' (s.used c) (ofCore c log)) : Inv cfg (Dram.setCore s c k') log := by
  have hagree' : Agrees k' (s.used c) (ofCore c log ++ ofCore c []) := by simpa [ofCore] using hagree
  have := h.setCore hk (Of.nil c) hagree'
  rwa [List.append_nil] at this

theorem ofCore_of {es : List Event} (h : Of c es) : ofCore c es = es.map (·.2) := by
  induction es with
  | nil => rfl
  | cons e es ih =>
    have he : e.1 = c := h e List.mem_cons_self
    rw [ofCore, List.filterMap_cons, if_pos he]
    exact congrArg (e.2 :: ·) (ih fun e' he' => h e' (List.mem_cons_of_mem _ he'))

/-! ### Refunds -/

theorem Inv.takeRefund (h : Inv cfg s log) (c most : Nat) (htake : takeOf (s.pool c) most ≠ 0) (seq : Nat) :
    Inv cfg (takeRefund s c (takeOf (s.pool c) most) seq)
      (log ++ [(c, .event seq (refundOf s c (takeOf (s.pool c) most) / 1024))]) := by
  generalize htk : takeOf (s.pool c) most = take at htake ⊢
  cases hk : s.cl[c]? with
  | none =>
    -- there is nothing to refund where no core was reconciled
    have hset := h.core c
    rw [hk] at hset
    have hzero : takeOf 0 most = 0 := by simp [takeOf]
    rw [hset.1, hzero] at htk
    exact absurd htk.symm htake
  | some k =>
    unfold Dram.takeRefund
    rw [hk]
    refine h.update ⟨fun x hx => getElem?_insert_other _ hx, fun x hx => if_neg hx, fun x hx => if_neg hx⟩ (Of.single c _) ?_
      fun hcut => ?_
    · show Settled (s.cl.insert c _)[c]? _ (if c = c then _ else _) _
      rw [getElem?_insert_same, if_pos rfl, ofCore_single]
      exact (h.agrees hk).refund seq _
    · rw [h.cut hk] at hcut
      cases hcut

theorem Inv.carryDelay (h : Inv cfg s log) (core : Nat) : Inv cfg (carryDelay s core).1 log := by
  unfold Dram.carryDelay
  split
  · next k hk => exact h.keep hk ((h.agrees hk).congr rfl rfl rfl)
  · exact h

theorem carryDelay_frame (s : St) (core : Nat) :
    (carryDelay s core).1.pool = s.pool ∧ (carryDelay s core).1.ovA = s.ovA := by
  unfold carryDelay
  split <;> exact ⟨rfl, rfl⟩

theorem Inv.pushRec (h : Inv cfg s log) (thread epoch : Nat) (rc : Rec) : Inv cfg (pushRec s thread epoch rc) log :=
  h.same rfl rfl rfl

theorem Inv.recordAddr (h : Inv cfg s log) (thread epoch stamp core chg : Nat) (hold : Bool) :
    Inv cfg (recordAddr cfg s thread epoch stamp core chg hold) (log ++ recordEvents cfg s core chg hold) := by
  unfold Dram.recordAddr recordEvents
  by_cases hg : cfg.cutMode ∧ s.roiMarked ∧ core ≠ noCore ∧ core < kRecCores
  · obtain ⟨hcut, hroi, hne, hlt⟩ := hg
    have hnum : numberRec s core = (nextSeq s core, s.seqA core + 1) := if_pos hlt
    have hroi' : (nextSeq s core).roiMarked = true := hroi
    have h₁ : Inv cfg (nextSeq s core) log := h.same rfl rfl rfl
    have h₂ := h₁.carryDelay core
    obtain ⟨hpool, hov⟩ := carryDelay_frame (nextSeq s core) core
    have hpool' : (Dram.carryDelay (nextSeq s core) core).1.pool = s.pool := hpool
    have href (take : Nat) : refundOf (Dram.carryDelay (nextSeq s core) core).1 core take = refundOf s core take := by
      rw [refundOf, hov]
      rfl
    simp only [hnum, hcut, hroi, hroi', hne, hlt, true_and, ne_eq, not_false_eq_true, if_true, hpool']
    by_cases hh : hold = true ∧ ¬chg = 0
    · simp only [hh.1, hh.2, true_and, not_false_eq_true]
      by_cases ht : takeOf (s.pool core) chg = 0
      · simp only [ht, not_true_eq_false, if_false, List.append_nil]
        exact h₂.pushRec _ _ _
      · simp only [ht, not_false_eq_true, if_true]
        refine Inv.pushRec ?_ _ _ _
        have hpc : (Dram.carryDelay (nextSeq s core) core).1.pool core = s.pool core := by rw [hpool']
        have := h₂.takeRefund core chg (by rw [hpc]; exact ht) (s.seqA core + 1)
        rw [hpc, href] at this
        exact this
    · have hev : ¬(hold = true ∧ ¬chg = 0 ∧ ¬takeOf (s.pool core) chg = 0) := fun hx => hh ⟨hx.1, hx.2.1⟩
      simp only [if_neg hh, if_neg hev, not_true_eq_false, if_false, List.append_nil]
      exact h₂.pushRec _ _ _
  · have h₁ : Inv cfg (numberRec s core).1 log := by
      unfold numberRec
      split <;> exact h.same rfl rfl rfl
    have hroi : (numberRec s core).1.roiMarked = s.roiMarked := by
      unfold numberRec
      split <;> rfl
    have hev : ¬(cfg.cutMode ∧ s.roiMarked ∧ core ≠ noCore ∧ core < kRecCores ∧ hold ∧ chg ≠ 0 ∧
        takeOf (s.pool core) chg ≠ 0) := fun hx => hg ⟨hx.1, hx.2.1, hx.2.2.1, hx.2.2.2.1⟩
    simp only [hroi, if_neg hg, if_neg hev, List.append_nil]
    exact h₁.pushRec _ _ _

theorem Inv.bootCharge (h : Inv cfg s log) (l : Last) (lat floor : Nat) :
    Inv cfg (bootCharge cfg s l lat floor).1 (log ++ bootEvents cfg s l lat floor) := by
  unfold Dram.bootCharge bootEvents
  cases lastRec s l with
  | none => simpa using h
  | some r =>
    have hput (r' : Rec) : Inv cfg (putRec s l r') log := h.same rfl rfl rfl
    by_cases ht : bootTake cfg s r lat floor = 0
    · simp only [ht, ne_eq, not_true_eq_false, if_false, List.append_nil]
      exact hput _
    · simp only [ht, ne_eq, not_false_eq_true, if_true]
      unfold bootTake at ht ⊢
      split at ht
      · next hg =>
        rw [if_pos hg]
        exact (hput _).takeRefund r.core _ ht r.seq
      · exact absurd rfl ht

theorem Inv.chargeLast (h : Inv cfg s log) (thread lat : Nat) (boot : Bool) (floor : Nat) :
    Inv cfg (chargeLast cfg s thread lat boot floor).1 (log ++ chargeEvents cfg s thread lat boot floor) := by
  unfold Dram.chargeLast chargeEvents
  have hforget : Inv cfg (forgetLast s thread) log := h.same rfl rfl rfl
  cases s.last thread with
  | none => simpa using h
  | some l =>
    cases boot with
    | false => simpa using hforget
    | true => exact hforget.bootCharge l lat floor

/-! ### Measurements -/

theorem Inv.noteDmaLine (h : Inv cfg s log) (core : Nat) (hold out : Bool) (doneTick dmab : Nat) :
    Inv cfg (noteDmaLine cfg s core hold out doneTick dmab) log := by
  unfold Dram.noteDmaLine
  split
  · split
    · next k hk =>
      split
      · exact h.keep hk ((h.agrees hk).congr rfl rfl rfl)
      · exact h
    · exact h
  · exact h

/-- Noting a DMA line leaves what a completion reads of the core. -/
theorem noteDmaLine_core (cfg : Cfg) (s : St) (core : Nat) (hold out : Bool) (doneTick : Nat) :
    noteDmaLine cfg s core hold out doneTick 0 = s :=
  if_neg fun hc => hc.1 rfl

theorem Inv.recDone (h : Inv cfg s log) (core mi : Nat) (hold out : Bool) (meas chg doneTick dmab seq : Nat)
    (share : Option RecAcc) :
    Inv cfg (recDone cfg s core mi hold out meas chg doneTick dmab seq share)
      (log ++ doneEvents cfg s core hold out meas chg dmab seq share) := by
  by_cases hd : dmab = 0
  · subst hd
    unfold Dram.recDone doneEvents
    simp only [noteDmaLine_core]
    split
    · simpa using h
    split
    · simpa using h
    cases hk : s.cl[core]? with
    | none => simpa using h
    | some k =>
      by_cases hon : k.on = true
      · simp only [hon, not_true_eq_false, ne_eq, or_self, if_false]
        refine h.setCore hk (Of.single core _) ?_
        rw [ofCore_single]
        exact ((h.agrees hk).measure seq (creditOf k meas chg share)).congr rfl rfl rfl
      · simpa [hon] using h
  · -- a DMA line: only its transfer's completion moves
    have hstate : Dram.recDone cfg s core mi hold out meas chg doneTick dmab seq share =
        Dram.noteDmaLine cfg s core hold out doneTick dmab := by
      unfold Dram.recDone
      simp only [ne_eq, hd, not_false_eq_true, or_true, if_true]
      split
      · rfl
      split
      · rfl
      split <;> rfl
    have hnil : doneEvents cfg s core hold out meas chg dmab seq share = [] := by
      unfold doneEvents
      simp only [ne_eq, hd, not_false_eq_true, or_true, if_true]
      split
      · rfl
      split
      · rfl
      split <;> rfl
    rw [hstate, hnil, List.append_nil]
    exact h.noteDmaLine core hold out doneTick dmab

theorem of_closeEvents (roi : Bool) (core : Nat) (k : CoreCL) : Of core (closeEvents roi core k) := by
  unfold closeEvents
  split
  · exact Of.single core _
  · exact Of.nil core

theorem of_closeDoneEvents (roi : Bool) (core : Nat) (k : CoreCL) : Of core (closeDoneEvents roi core k) := by
  unfold closeDoneEvents
  split
  · exact of_closeEvents roi core k
  · exact Of.nil core

theorem Inv.closeCore (h : Inv cfg s log) (core : Nat) : Inv cfg (closeCore s core) (log ++ closeCoreEvents s core) := by
  unfold Dram.closeCore closeCoreEvents
  cases hk : s.cl[core]? with
  | none => simpa using h
  | some k =>
    refine h.setCore hk (of_closeEvents _ core k) ?_
    rw [ofCore_of (of_closeEvents _ core k)]
    exact (h.agrees hk).close s.roiMarked core

theorem Inv.pfApply (h : Inv cfg s log) (core : Nat) (corr : Int) :
    Inv cfg (pfApply cfg s core corr) (log ++ pfEvents cfg s core corr) := by
  unfold Dram.pfApply pfEvents
  split
  · simpa using h
  cases hk : s.cl[core]? with
  | none => simpa using h
  | some k =>
    by_cases hon : k.on = true
    · show Inv cfg (if k.on = true then _ else _) (log ++ if k.on = true then _ else _)
      rw [if_pos hon, if_pos hon]
      refine h.setCore hk (Of.single core _) ?_
      rw [ofCore_single]
      exact (h.agrees hk).correct corr
    · simpa [hon] using h

/-! ### Delays and rewinds -/

theorem ofCore_delayEvent (s : St) (core : Nat) (adj : Int) :
    ofCore core [delayEvent s core adj] = [.event (s.seqA core + 1) (-adj)] :=
  ofCore_single core _

/-- The core's pool is what its accounts leave to refund: no account reads it. -/
theorem Inv.setPool (h : Inv cfg s log) {k : CoreCL} (hk : s.cl[c]? = some k) (v : Int) : Inv cfg (setPool s c v) log := by
  have hnil : ofCore c ([] : List Event) = [] := rfl
  have := h.update (only_setPool s c v) (Of.nil c) (by
    show Settled s.cl[c]? _ (s.used c) _
    rw [hnil, List.append_nil, hk]
    exact h.agrees hk) fun hcut => h.closed hcut c
  rwa [List.append_nil] at this

theorem Inv.setOvA (h : Inv cfg s log) (c : Nat) (v : ℚ) : Inv cfg (setOvA s c v) log :=
  h.same rfl rfl rfl

/-- Cycles applied to the core's clock, after bookings `es` left its fields at `k'`. -/
theorem Inv.applyDelay (h : Inv cfg s log) {k k' : CoreCL} (hk : s.cl[c]? = some k) {es : List Event} (hof : Of c es)
    (hagree : Agrees k' (s.used c) (ofCore c log ++ es.map (·.2))) (adj : Int) :
    Inv cfg (Dram.setCore (applyDelay s c k' adj).1 c (applyDelay s c k' adj).2) (log ++ (es ++ [delayEvent s c adj])) := by
  have hseq : Inv cfg (nextSeq s c) log := h.same rfl rfl rfl
  refine hseq.setCore hk (hof.append (Of.single c _)) ?_
  rw [ofCore_append, ofCore_of hof, ofCore_delayEvent, ← List.append_assoc]
  exact hagree.delay s c adj

theorem Inv.reconcileOne (h : Inv cfg s log) (canTake : Nat → Bool) (c : Nat) :
    Inv cfg (reconcileOne cfg canTake s c) (log ++ oneEvents cfg canTake s c) := by
  unfold Dram.reconcileOne oneEvents
  cases hk : s.cl[c]? with
  | none => simpa using h
  | some k =>
    have hclose := (h.agrees hk).closeDone s.roiMarked c
    have hof := of_closeDoneEvents s.roiMarked c k
    dsimp only
    split
    · simpa using h
    split
    · have hk' := h.applyDelay hk hof hclose (delayOf ((closeDone s.roiMarked k).owed (s.used c)))
      exact (hk'.setOvA c _).setPool (setCore_cl_same _ c _) _
    · have hk' := h.setCore hk hof (by rw [ofCore_of hof]; exact hclose)
      rw [List.append_nil]
      exact (hk'.setOvA c _).setPool (setCore_cl_same s c _) _

theorem Inv.foldBarrier (h : Inv cfg s log) (canTake : Nat → Bool) (cs : List Nat) :
    Inv cfg (cs.foldl (Dram.reconcileOne cfg canTake) s) (log ++ barrierEvents cfg canTake s cs) := by
  induction cs generalizing s log with
  | nil => simpa [barrierEvents] using h
  | cons c cs ih =>
    rw [List.foldl_cons, barrierEvents, ← List.append_assoc]
    exact ih (h.reconcileOne canTake c)

theorem Inv.reconcileCore (h : Inv cfg s log) (core maxRewind c0 : Nat) (rewind : Nat → Nat) :
    Inv cfg (reconcileCore cfg s core maxRewind c0 rewind).1 (log ++ coreEvents cfg s core maxRewind c0 rewind) := by
  unfold Dram.reconcileCore coreEvents
  split
  · simpa using h
  cases hk : s.cl[core]? with
  | none => simpa using h
  | some k =>
    have hclose := (h.agrees hk).closeDone s.roiMarked core
    have hof := of_closeDoneEvents s.roiMarked core k
    dsimp only
    split
    · simpa using h
    split
    · exact (h.applyDelay hk hof hclose _).setPool (setCore_cl_same _ core _) _
    split
    · exact (h.applyDelay hk hof hclose _).setPool (setCore_cl_same _ core _) _
    · have hk' := h.setCore hk hof (by rw [ofCore_of hof]; exact hclose)
      rw [List.append_nil]
      exact hk'.setPool (setCore_cl_same s core _) _

theorem Inv.settleApply (h : Inv cfg s log) (core : Nat) (adj : Int) :
    Inv cfg (settleApply cfg s core adj) (log ++ settleEvents cfg s core adj) := by
  unfold Dram.settleApply settleEvents
  split
  · simpa using h
  cases hk : s.cl[core]? with
  | none => simpa using h
  | some k =>
    dsimp only
    split
    · have hk' := h.applyDelay hk (Of.nil core) (by simpa using h.agrees hk) adj
      exact hk'.setPool (setCore_cl_same _ core _) _
    · rw [List.append_nil]
      exact (h.keep hk (h.agrees hk)).setPool (setCore_cl_same s core _) _

/-! ### Pruning, and the rest of the replay -/

theorem Inv.settlePrune (h : Inv cfg s log) (core below : Nat) : Inv cfg (settlePrune cfg s core below) log := by
  unfold Dram.settlePrune
  split
  · exact h
  split
  · exact h
  · next k hk => exact h.keep hk ((h.agrees hk).prune _)

theorem Inv.replayCore (h : Inv cfg s log) (core : Nat) (t : Timing) : Inv cfg (replayCore cfg s core t) log := by
  unfold Dram.replayCore clCore
  split
  · exact h
  next hcut =>
  split
  · exact h
  next k hk =>
  split at hk
  · cases hk
  cases hold : s.cl[core]? with
  | some k₀ =>
    rw [hold] at hk
    obtain rfl : k₀ = k := Option.some.inj hk
    exact h.keep hold ((h.agrees hold).congr rfl rfl rfl)
  | none =>
    rw [hold] at hk
    obtain rfl := Option.some.inj hk
    -- the core joins the closed loop: nothing was booked for it before
    have hset := h.core core
    rw [hold] at hset
    obtain ⟨-, hused, hlog⟩ := hset
    have := h.update (only_setCore s core { toTiming := t, ooo := cfg.outOfOrder core }) (Of.nil core) (by
      rw [setCore_cl_same, hlog]
      show Agrees _ (s.used core) []
      rw [hused]
      exact (Agrees.fresh (cfg.outOfOrder core)).congr rfl rfl rfl) fun hoff => absurd (by simp [hoff]) hcut
    rwa [List.append_nil] at this

theorem inv_markRoi (cfg : Cfg) (s : St) : Inv cfg (markRoi cfg s) [] where
  core _ := ⟨rfl, rfl, rfl⟩
  closed _ _ := rfl

/-- Every operation keeps both accounts with the bookings. -/
theorem Inv.exec (h : Inv cfg s log) (op : Op) : Inv cfg (exec cfg s op) (log ++ events cfg s op) := by
  cases op with
  | recordAddr thread epoch stamp core chg hold => exact h.recordAddr thread epoch stamp core chg hold
  | chargeLast thread lat boot floor => exact h.chargeLast thread lat boot floor
  | recDone core mi hold out meas chg doneTick dmab seq share =>
    exact h.recDone core mi hold out meas chg doneTick dmab seq share
  | recDmaClose core => exact h.closeCore core
  | pfApply core corr => exact h.pfApply core corr
  | reconcileAtBarrier canTake =>
    show Inv cfg (Dram.reconcileAtBarrier cfg s canTake) (log ++ if _ then [] else _)
    unfold Dram.reconcileAtBarrier
    split
    · simpa using h
    · exact h.foldBarrier canTake _
  | reconcileCore core maxRewind c0 rewind => exact h.reconcileCore core maxRewind c0 rewind
  | settleMark core =>
    rw [events, List.append_nil]
    show Inv cfg (Dram.settleMark s core).1 log
    unfold Dram.settleMark
    split <;> exact h.same rfl rfl rfl
  | settleApply core adj => exact h.settleApply core adj
  | settlePrune core below =>
    rw [events, List.append_nil]
    exact h.settlePrune core below
  | replayCore core t =>
    rw [events, List.append_nil]
    exact h.replayCore core t
  | feed epoch fold =>
    rw [events, List.append_nil]
    exact h.same rfl rfl rfl
  | markRunEnd =>
    rw [events, List.append_nil]
    exact h.same rfl rfl rfl

end Steps

/-! ## Every run -/

/-- `ledBase` and all entries of `led`. -/
def ledTotal (s : St) (core : Nat) : ℚ :=
  match s.cl[core]? with
  | some k => k.led.total
  | none => 0

/-- `diff + used / 1024 - dlyTot` -/
def aggregate (s : St) (core : Nat) : ℚ :=
  match s.cl[core]? with
  | some k => k.owed (s.used core)
  | none => s.used core / 1024

/-- The core's last prune bound, `ledCut`. -/
def pruneBound (s : St) (core : Nat) : Nat :=
  match s.cl[core]? with
  | some k => k.led.cut
  | none => 0

/-- **Two accounts of one balance.** Whatever the operations since the ROI opened and however they interleave, the
ledger and the aggregate fields of every core agree (both are the sum of the core's bookings), and the balance at a mark that is not below the last pruning is
the sum of exactly the core's events numbered before the mark, and of the prefetch corrections. -/
theorem accounts_agree (cfg : Cfg) (s₀ : St) {s : St} {log : List Event} (hrun : (machine cfg s₀).Run s log) (core : Nat) :
    ledTotal s core = aggregate s core ∧ aggregate s core = Booking.sumAll (ofCore core log) ∧
      ∀ seq, pruneBound s core ≤ seq → balanceAt cfg s core seq = Booking.sumBefore seq (ofCore core log) := by
  have hinv : Inv cfg s log := by
    refine hrun.inv (inv_markRoi cfg s₀) fun {s l op s' es} h hs => ?_
    obtain ⟨rfl, rfl⟩ := Prod.mk.inj (Option.some.inj hs)
    exact h.exec op
  have hset := hinv.core core
  unfold ledTotal aggregate pruneBound balanceAt
  cases hk : s.cl[core]? with
  | none =>
    rw [hk] at hset
    obtain ⟨-, hused, hlog⟩ := hset
    rw [hlog, hused]
    refine ⟨by simp, by simp [Booking.sumAll], fun seq _ => ?_⟩
    split <;> rfl
  | some k =>
    have hagree := hinv.agrees hk
    refine ⟨hagree.ledger.total.trans hagree.owed.symm, hagree.owed, fun seq hseq => ?_⟩
    rw [if_neg (by simp [hinv.cut hk])]
    exact hagree.ledger.balance seq hseq

/-- What a sequence of operations books. -/
def journal (cfg : Cfg) : St → List Op → List Event
  | _, [] => []
  | s, op :: ops => events cfg s op ++ journal cfg (exec cfg s op) ops

theorem run_ops {cfg : Cfg} {s₀ s : St} {log : List Event} (h : (machine cfg s₀).Run s log) (ops : List Op) :
    (machine cfg s₀).Run (ops.foldl (exec cfg) s) (log ++ journal cfg s ops) := by
  induction ops generalizing s log with
  | nil => simpa [journal] using h
  | cons op ops ih =>
    rw [journal, ← List.append_assoc]
    exact ih (.step (a := op) h rfl)

private def oneCore : Cfg where
  cutMode := true
  numCores := 1
  cores _ := true
  outOfOrder _ := false
  isHostMi _ := false

private def boot : St where
  cl := ∅
  pool _ := 0
  used _ := 0
  ovA _ := 1
  seqA _ := 0
  pending := ∅
  lastFolded := none
  last _ := none
  roiMarked := false
  runEndMarked := false

/-- Two accesses; the second completes, its over-run is applied at a barrier, the ledger is pruned past both, a
prefetch is corrected, and only then the first one completes. -/
private def lateCompletion : List Op :=
  [.replayCore 0 {}, .recordAddr 0 7 100 0 20 true, .recordAddr 0 7 110 0 20 true,
    .recDone 0 0 true false 25 20 900 0 2 none, .reconcileAtBarrier fun _ => true, .settlePrune 0 3,
    .pfApply 0 (-2), .recDone 0 0 true false 31 20 990 0 1 none]

/-- The late completion counts at a mark between the accesses and the delay, and the delay does not. -/
theorem accounts_agree_late_completion :
    let s := lateCompletion.foldl (exec oneCore) (markRoi oneCore boot)
    let log := journal oneCore (markRoi oneCore boot) lateCompletion
    pruneBound s 0 = 3 ∧ ledTotal s 0 = aggregate s 0 ∧ ledTotal s 0 = 9 ∧
      balanceAt oneCore s 0 3 = Booking.sumBefore 3 (ofCore 0 log) ∧ balanceAt oneCore s 0 3 = 14 := by
  have hrun := run_ops (.start (M := machine oneCore boot)) lateCompletion
  obtain ⟨hsame, -, hat⟩ := accounts_agree oneCore boot hrun 0
  exact ⟨by decide +kernel, hsame, by decide +kernel, hat 3 (by decide +kernel), by decide +kernel⟩

end Pimid.Dram
