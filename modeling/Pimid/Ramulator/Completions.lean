import Pimid.Ramulator.Runs
import Pimid.Lib.Departures

/-!
# When the reads of the DRAM controller are answered

A tick answers one read at most, the one that was put into `pending` first. So the controller's
pending reads are a queue that lets one entry go a tick, and a read is answered at its clock exactly
when every read before it is out of the way by then.
-/

namespace Pimid.Ramulator

namespace Controller

open Ramulator.Config Lib.Departures

variable {D : Type} {c : Config D} {s : Controller D}

/-! ## What is asked -/

/-- When a read is to be answered: the read latency after its column command, or the clock after it was forwarded. -/
def dueAt (c : Config D) (x : PendingRead) : Int := if x.forwarded then x.pushed + 1 else x.pushed + c.dram.readLatency

/-- The callback of every read whose clock has come was called in the tick of that clock. -/
def OnTime (c : Config D) (s : Controller D) : Prop :=
  ∀ (i : Nat) (x : PendingRead), s.reads[i]? = some x → x.request.callback = true → dueAt c x ≤ s.clk →
    ∃ e ∈ s.called, e.1.serial = i ∧ e.2 = dueAt c x

/-- Each such read has its tick for itself: a read put in before it leaves room for those between them. -/
def Spaced (c : Config D) (s : Controller D) : Prop :=
  ∀ (i : Nat) (x : PendingRead), s.reads[i]? = some x → x.request.callback = true → dueAt c x ≤ s.clk →
    ∀ (k : Nat) (y : PendingRead), k ≤ i → s.reads[k]? = some y →
      max (dueAt c y) (y.pushed + 1) + (i - k : Int) ≤ dueAt c x

/-! ## The queue of pending reads -/

def readQueue (s : Controller D) : Queue PendingRead := ⟨s.clk, s.pending, s.called⟩

/-- The pending reads are a queue, with every read in it under its number. -/
structure ReadsOk (c : Config D) (s : Controller D) : Prop where
  clk : 0 ≤ s.clk
  priority : PriorityOk s
  queue : s.readQueue.Ok (·.request.depart) (·.pushed) 0
  all : s.reads = s.readQueue.all
  serial : ∀ (i : Nat) (x : PendingRead), s.reads[i]? = some x → x.serial = i
  due : ∀ x ∈ s.reads, x.request.depart = dueAt c x ∧ 0 ≤ x.pushed

/-- Reads are put in, each due at its clock. -/
structure Pushed (c : Config D) (s t : Controller D) : Prop where
  clk : t.clk = s.clk
  called : t.called = s.called
  reads : ∃ xs, t.reads = s.reads ++ xs ∧ t.pending = s.pending ++ xs ∧
    (xs = [] ∨ ∃ x, xs = [x] ∧ x.serial = s.reads.length ∧ x.pushed = s.clk ∧ x.request.depart = dueAt c x)

theorem ReadsOk.pushed (h : ReadsOk c s) {t : Controller D} (ht : Pushed c s t) (hp : PriorityOk t) : ReadsOk c t := by
  obtain ⟨xs, hreads, hpending, hxs⟩ := ht.reads
  rcases hxs with rfl | ⟨x, rfl, hserial, hpush, hdue⟩
  · rw [List.append_nil] at hreads hpending
    have hq : t.readQueue = s.readQueue := by
      unfold readQueue
      rw [ht.clk, hpending, ht.called]
    exact ⟨by rw [ht.clk]; exact h.clk, hp, by rw [hq]; exact h.queue, by rw [hreads, hq]; exact h.all,
      by rw [hreads]; exact h.serial, by rw [hreads]; exact h.due⟩
  · have hq : t.readQueue = s.readQueue.apply (·.request.depart) (.push x) := by
      unfold readQueue Queue.apply
      rw [ht.clk, hpending, ht.called]
    refine ⟨by rw [ht.clk]; exact h.clk, hp, ?_, ?_, fun i y hy => ?_, fun y hy => ?_⟩
    · rw [hq]
      exact h.queue.push hpush
    · rw [hreads, hq, h.all]
      exact List.append_assoc ..
    · rw [hreads] at hy
      rcases Nat.lt_or_ge i s.reads.length with hi | hi
      · rw [List.getElem?_append_left hi] at hy
        exact h.serial i y hy
      · rw [List.getElem?_append_right hi] at hy
        obtain ⟨hj, hy⟩ := List.getElem?_eq_some_iff.mp hy
        rw [List.length_singleton] at hj
        rw [← hy]
        simp only [List.getElem_singleton]
        omega
    · rw [hreads] at hy
      rcases List.mem_append.mp hy with hy | hy
      · exact h.due y hy
      · obtain rfl := List.mem_singleton.mp hy
        exact ⟨hdue, by rw [hpush]; exact h.clk⟩

/-! ## The steps -/

theorem pushRead_pushed {r : Request} {forwarded : Bool} {depart : Int}
    (hd : depart = if forwarded then s.clk + 1 else s.clk + c.dram.readLatency) :
    Pushed c s (s.pushRead r forwarded depart) :=
  ⟨rfl, rfl, _, rfl, rfl, .inr ⟨_, rfl, rfl, rfl, hd⟩⟩

theorem enqueue_pushed (b : Buffer) (r : Request) : Pushed c s (s.enqueue c b r).2 := by
  unfold enqueue
  split <;> exact ⟨rfl, rfl, [], (List.append_nil _).symm, (List.append_nil _).symm, .inl rfl⟩

theorem ReadsOk.prioritySends (h : ReadsOk c s) (xs : List (AddrVec × Nat)) : ReadsOk c (s.prioritySends c xs) := by
  have hp := h.priority.prioritySends (c := c) xs
  obtain ⟨l, hl, -⟩ := prioritySends_eq (c := c) (s := s) xs
  rw [hl] at hp ⊢
  exact h.pushed ⟨rfl, rfl, [], (List.append_nil _).symm, (List.append_nil _).symm, .inl rfl⟩ hp

theorem ReadsOk.issue (h : ReadsOk c s) (buses : Bool) (b : Buffer) (i : Nat) (r : Request) (cmd : Nat) :
    ReadsOk c (s.pimidIssue c buses b i r cmd) := by
  have ht := pimidIssue_issued (c := c) (s := s) buses b i r cmd
  refine h.pushed ⟨ht.clk, ht.called, _, ht.reads, ht.pending, ?_⟩ h.priority.issue
  unfold finishReads
  split
  · exact .inr ⟨_, rfl, rfl, rfl, rfl⟩
  · exact .inl rfl

theorem readsOk_kept : Kept c (fun _ => True) (ReadsOk c) where
  clk _ h := h.clk
  priority _ h := h.priority
  sends _ xs _ h := h.prioritySends xs
  mode _ _ _ h := ⟨h.clk, h.priority, h.queue, h.all, h.serial, h.due⟩
  issue _ buses b i r cmd h _ := h.issue buses b i r cmd

theorem ReadsOk.serve (h : ReadsOk c s) :
    ReadsOk c ({ s with clk := s.clk + 1 } : Controller D).serveCompletedReads := by
  have hclk := h.clk
  have hq : ({ s with clk := s.clk + 1 } : Controller D).serveCompletedReads.readQueue =
      s.readQueue.apply (·.request.depart) .tick := by
    unfold serveCompletedReads readQueue Queue.apply
    cases hpend : s.pending with
    | nil => rfl
    | cons x rest =>
      dsimp only
      split <;> rfl
  have hframe : ({ s with clk := s.clk + 1 } : Controller D).serveCompletedReads.reads = s.reads ∧
      ({ s with clk := s.clk + 1 } : Controller D).serveCompletedReads.buffers = s.buffers ∧
      ({ s with clk := s.clk + 1 } : Controller D).serveCompletedReads.clk = s.clk + 1 := by
    unfold serveCompletedReads
    split
    · exact ⟨rfl, rfl, rfl⟩
    · split <;> exact ⟨rfl, rfl, rfl⟩
  obtain ⟨hreads, hbuf, hc⟩ := hframe
  refine ⟨by rw [hc]; omega, by unfold PriorityOk; rw [hbuf]; exact h.priority, by rw [hq]; exact h.queue.tick, ?_,
    by rw [hreads]; exact h.serial, by rw [hreads]; exact h.due⟩
  rw [hreads, hq, h.all]
  exact (Queue.all_tick _).symm

theorem ReadsOk.begun (h : ReadsOk c s) (input : TickInput) : ReadsOk c (s.begun c input) := by
  unfold Controller.begun
  have hrefresh := (h.serve).prioritySends input.refresh
  obtain ⟨_, _, _, _, _, _, _, hpd⟩ := pdTick_eq (c := c)
    (s := ({ s with clk := s.clk + 1 } : Controller D).serveCompletedReads.prioritySends c input.refresh)
  rw [hpd]
  exact ⟨hrefresh.clk, hrefresh.priority, hrefresh.queue, hrefresh.all, hrefresh.serial, hrefresh.due⟩

theorem readsOk_keeps : RunKept c (fun _ => True) (ReadsOk c) where
  toKept := readsOk_kept
  enqueue _ _ _ h hb _ := h.pushed (enqueue_pushed _ _) (h.priority.enqueue hb)
  forward _ _ h := h.pushed (pushRead_pushed rfl) h.priority
  begun _ input h _ := h.begun input
  dram _ _ h := ⟨h.clk, h.priority, h.queue, h.all, h.serial, h.due⟩

theorem readsOk_run (d : D) (ops : List (Op D)) : ReadsOk c (run c d ops) := by
  refine readsOk_keeps.run ⟨Int.le_refl 0, (fun r hr => nomatch hr), ?_, rfl, (fun i x hx => nomatch hx), fun x hx => nomatch hx⟩
    fun op _ => op.all_true
  exact ⟨Int.le_refl 0, rfl, Int.le_refl 0, (fun l hl => nomatch hl), fun x hx => nomatch hx⟩

/-! ## The reads of a run -/

/-- **The reads of a run are answered on time exactly when each has its tick for itself.** -/
theorem reads_onTime_iff (c : Config D) (d : D) (ops : List (Op D)) : OnTime c (run c d ops) ↔ Spaced c (run c d ops) := by
  have h := readsOk_run (c := c) d ops
  generalize run c d ops = s at h
  have hone : ∀ (i : Nat) (x : PendingRead), s.reads[i]? = some x → dueAt c x ≤ s.clk →
      ((∃ e ∈ s.called, e.1.serial = i ∧ e.2 = dueAt c x) ↔
        ∀ (k : Nat) (y : PendingRead), k ≤ i → s.reads[k]? = some y →
          max (dueAt c y) (y.pushed + 1) + (i - k : Int) ≤ dueAt c x) := by
    intro i x hx hclk
    have hdue := fun y hy => (h.due y hy).1
    have hxd := hdue x (List.mem_of_getElem? hx)
    have hx' := hx
    rw [h.all] at hx'
    have hiff := h.queue.onTime_iff hx' (fun y hy => (h.due y (by rw [h.all]; exact hy)).2) (by rw [hxd]; exact hclk)
    rw [← h.all] at hiff
    have hleft : (∃ e ∈ s.called, e.1.serial = i ∧ e.2 = dueAt c x) ↔ s.readQueue.gone[i]? = some (x, x.request.depart) := by
      rw [hxd]
      constructor
      · rintro ⟨e, he, rfl, het⟩
        obtain ⟨j, hj⟩ := List.mem_iff_getElem?.mp he
        -- the place of an answer is its read's number
        have hread : s.reads[j]? = some e.1 := by
          rw [h.all, Queue.all, List.getElem?_append_left, List.getElem?_map]
          · show Option.map Prod.fst s.called[j]? = some e.1
            rw [hj]
            rfl
          · rw [List.length_map]
            exact (List.getElem?_eq_some_iff.mp hj).1
        have hserial := h.serial j e.1 hread
        rw [hserial] at hx ⊢
        rw [hread] at hx
        obtain rfl := Option.some.inj hx
        show s.called[j]? = _
        rw [hj, ← het]
      · intro hg
        exact ⟨_, List.mem_of_getElem? hg, h.serial i x hx, rfl⟩
    rw [hleft, hiff, hxd]
    refine forall_congr' fun k => forall_congr' fun y => imp_congr_right fun _ => ?_
    refine ⟨fun hall hy => ?_, fun hall hy => ?_⟩
    · have := hall hy
      rwa [hdue y (List.mem_of_getElem? hy)] at this
    · rw [hdue y (List.mem_of_getElem? hy)]
      exact hall hy
  refine forall_congr' fun i => forall_congr' fun x => ?_
  exact imp_congr_right fun hx => imp_congr_right fun _ => forall_congr' fun hclk => hone i x hx hclk

/-! ## Two reads of a queued write -/

/-- A DRAM of one bank that is never ready. -/
def busyDram : Dram Unit where
  numCommands := 4
  isOpening cmd := cmd == 2
  isClosing cmd := cmd == 3
  requestTranslations typeId := typeId
  readLatency := 3
  RD := some 0
  WR := some 1
  RDA := none
  WRA := none
  ACT := some 2
  nBL := 1
  timingLevels := 0
  timingCons _ _ := []
  count _ := 1
  rankLevel := none
  bankLevel := 1
  rowLevel := 2
  getPreqCommand _ final _ := final
  checkReady _ _ _ := false
  pimidReadyAt _ _ _ := 0
  issueCommand d _ _ := d

def busyConfig : Config Unit where
  dram := busyDram
  bankParallel := true
  getBestRequest _ _ := none
  lockstepChips := 1
  hostCa := false
  hostDataBus := false
  hostAutoprecharge := false
  powerDown := false
  pdIdle := 64
  pdTxp := 1
  indexed := false
  queueSize := 32
  wrHigh n := decide (21 < n)
  wrLow n := decide (n < 11)
  hdbHigh n := decide (32 < n)
  hdbLow n := decide (n < 16)

def access (typeId : Nat) : Request where
  addr := 0
  addrVec _ := 0
  typeId := typeId
  sourceId := 0
  callback := true

/-- Both reads are forwarded in clock 0, and the second is answered in the tick after the next. -/
theorem forwarded_late :
    ¬OnTime busyConfig (run busyConfig () [.send (access Write), .send (access Read), .send (access Read), .tick {}]) := by
  intro h
  obtain ⟨e, he, hserial, -⟩ := h 1 _ rfl rfl (by decide)
  obtain rfl := List.mem_singleton.mp he
  cases hserial

end Controller

end Pimid.Ramulator
