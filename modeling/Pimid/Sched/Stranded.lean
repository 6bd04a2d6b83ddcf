import Pimid.Sched.Phases

/-!
# Threads stranded at the barrier

Under the shuffle a join made while another thread has the turn is only queued, and
the queue is emptied in a lock section of its own. If a thread joins after that and
the thread with the turn then leaves as the last one, no one runs and no one is left
to place the queued thread. That is the only way: every other step hands the turn to
someone, or leaves no one waiting.
-/

namespace Pimid.Sched

open Function (update update_of_ne update_self)

namespace Barrier

variable {b : Barrier} {clockMode : Bool}

/-- If no thread is running, none is waiting for the turn or queued to join. -/
def NoneStranded (b : Barrier) : Prop :=
  (∀ t, b.state t ≠ .RUNNING) → (∀ t, b.state t ≠ .WAITING) ∧ b.detJoinQ = []

/-- A thread that leaves with the turn, while joins are queued, leaves a waiting thread behind. -/
def LeavesSomeone (b : Barrier) (a : Op × Outside) : Prop :=
  match a.1 with
  | .leave tid => b.state tid = .RUNNING → b.detJoinQ ≠ [] → ∃ t ∈ b.runList, b.state t = .WAITING
  | _ => True

/-- The same by the barrier's own count. -/
def Drained (b : Barrier) : Prop :=
  b.runningThreads = 0 → (∀ t, b.state t ≠ .WAITING) ∧ b.detJoinQ = []

theorem noneStranded_iff (h : Ok b) : NoneStranded b ↔ Drained b := by
  have hzero : (∀ t, b.state t ≠ .RUNNING) ↔ b.runningThreads = 0 := by
    constructor
    · intro hnone
      by_contra h1
      obtain ⟨t, ht⟩ := h.exists_running h1
      exact hnone t ht
    · exact fun h0 => h.not_running h0
  rw [NoneStranded, hzero, Drained]

theorem runs_of_waiting {o : Outside} (h : Ok b) {t : Nat} (hw : b.state t = .WAITING) :
    (b.tryWakeNext clockMode o).runningThreads ≠ 0 := by
  obtain ⟨hok, hsettled, -, hkeep, -⟩ := tryWakeNext_spec clockMode o h
  intro h0
  rcases hkeep t hw with h' | h'
  · exact hsettled h0 t h'
  · exact hok.running_of_state h' h0

/-- If everyone on the list has left, handing on the turn changes no one and lets no one run. -/
theorem idle_of_all_left {o : Outside} (h : Ok b) (hleft : ∀ t ∈ b.runList, b.state t = .LEFT) :
    (b.tryWakeNext clockMode o).runningThreads = 0 := by
  obtain ⟨hok₁, hg₁, -⟩ := checkRunList_spec h
  have hsame : ∀ t, b.checkRunList.state t = b.state t := by
    intro t
    rcases hg₁.state t with he | ⟨hw, -⟩
    · exact he
    · have := hleft t (h.mem_of_state hw (by decide))
      rw [this] at hw
      cases hw
  have hall : b.checkRunList.leftThreads = b.checkRunList.runListSize := by
    rw [hok₁.left]
    refine List.countP_eq_length.mpr fun t ht => decide_eq_true ?_
    rw [hsame]
    exact hleft t (hg₁.runList ▸ ht)
  have hend : b.checkRunList.checkEndPhase clockMode o = b.checkRunList := by
    unfold checkEndPhase
    rw [if_pos hall, ite_self]
  obtain ⟨hok₂, hg₂, -⟩ := checkRunList_spec hok₁
  show ((b.checkRunList.checkEndPhase clockMode o).checkRunList).runningThreads = 0
  rw [hend]
  by_contra h1
  obtain ⟨t, ht⟩ := hok₂.exists_running h1
  -- no one waits, so no one was woken
  rcases hg₂.state t with he | ⟨hw, -⟩
  · rw [he, hsame] at ht
    have := hleft t (h.mem_of_state ht (by decide))
    rw [this] at ht
    cases ht
  · rw [hsame] at hw
    have := hleft t (h.mem_of_state hw (by decide))
    rw [this] at hw
    cases hw

/-- A step strands no one, unless the last thread leaves on a queue. -/
theorem Inv.noneStranded_step (h : Inv clockMode b) (hn : NoneStranded b) {a : Op × Outside} (ha : b.Allowed a) :
    NoneStranded (b.step clockMode a) ↔ b.LeavesSomeone a := by
  rw [noneStranded_iff h.toOk] at hn
  rw [noneStranded_iff (h.step ha).toOk]
  obtain ⟨op, o⟩ := a
  cases op with
  | join tid =>
    refine iff_of_true ?_ trivial
    obtain ⟨hs, hnot⟩ := ha
    show Drained (b.join clockMode o tid)
    unfold join
    split
    · next hc =>
      intro h0
      have h0' : b.runningThreads = 0 := h0
      omega
    · split
      · next hc =>
        obtain ⟨rfl, -⟩ := hc
        have hq := h.queued.snoc hs hnot
        obtain ⟨hok, -, -, hstate⟩ := detFlushJoinsLocked_spec (o := o) (h.toOk.withQueue _) hq
        intro h0
        have hw := hstate tid
        rw [if_pos (List.mem_append_right _ (List.mem_singleton_self tid))] at hw
        exact absurd h0 (runs_of_waiting hok hw)
      · have hj := joinInsert_spec (o := o) h.toOk hs
        intro h0
        have hw : (b.joinInsert o tid).state tid = .WAITING := by
          rw [hj.state]
          exact update_self ..
        exact absurd h0 (runs_of_waiting (h.toOk.joined hs hj) hw)
  | detFlushJoins =>
    refine iff_of_true ?_ trivial
    show Drained (b.detFlushJoins o)
    unfold detFlushJoins
    split
    · next hne =>
      obtain ⟨-, -, hrun, -⟩ := detFlushJoinsLocked_spec (o := o) h.toOk h.queued
      intro h0
      exact absurd (hn (hrun ▸ h0)).2 hne
    · exact hn
  | leave tid =>
    show Drained (b.leave clockMode o tid) ↔ (b.state tid = .RUNNING → _)
    unfold leave
    split
    · next hr =>
      have hok := h.left_ok hr
      obtain ⟨-, hsettled, hqueue, -, -⟩ := tryWakeNext_spec clockMode o hok
      constructor
      · intro hnone _ hq
        by_contra hno
        -- the others have all left
        have hleft : ∀ t ∈ b.runList, update b.state tid .LEFT t = .LEFT := by
          intro t ht
          by_cases he : t = tid
          · rw [he, update_self]
          · rw [update_of_ne he]
            cases hs : b.state t with
            | LEFT => rfl
            | OFFLINE => exact absurd hs ((h.listed t).mp ht)
            | WAITING => exact absurd ⟨t, ht, hs⟩ hno
            | RUNNING => exact absurd (h.unique hs hr) he
        have := (hnone (idle_of_all_left hok hleft)).2
        rw [hqueue] at this
        exact hq this
      · intro hsome h0
        refine ⟨hsettled h0, ?_⟩
        rw [hqueue]
        by_contra hq
        obtain ⟨t, -, hw⟩ := hsome hr hq
        have hne : t ≠ tid := by
          intro he
          rw [he, hr] at hw
          cases hw
        have hw' : update b.state tid .LEFT t = .WAITING := by
          rw [update_of_ne hne]
          exact hw
        exact runs_of_waiting hok hw' h0
    · next hr =>
      refine iff_of_true ?_ (fun hr' => absurd hr' hr)
      intro h0
      exact absurd (ha.resolve_left hr) ((hn h0).1 tid)
  | sync tid =>
    refine iff_of_true ?_ trivial
    intro h0
    exact absurd h0 (runs_of_waiting (h.synced_ok ha) (update_self tid _ _))
  | yield tid =>
    refine iff_of_true ?_ trivial
    show Drained (b.yield clockMode o tid)
    unfold yield
    split
    · exact hn
    · next hr =>
      obtain ⟨hok, hstate, -⟩ := h.yielded (o := o) (not_not.mp hr)
      intro h0
      exact absurd h0 (runs_of_waiting hok (by rw [hstate]; exact update_self ..))

/-- **No joined thread is stranded**, by clock or by shuffle, in exactly the runs in which no thread leaves with the turn
while joins are queued and no other listed thread waits. -/
theorem noneStranded_run_iff (clockMode : Bool) (as : List (Op × Outside)) (h : Along (step clockMode) Allowed init as) :
    (∀ pre, pre <+: as → NoneStranded (pre.foldl (step clockMode) init)) ↔ Along (step clockMode) LeavesSomeone init as := by
  have hstart : NoneStranded init := fun _ => ⟨fun _ => nofun, rfl⟩
  have hinv : Inv clockMode init := inv_init clockMode
  generalize init = b at h hstart hinv
  induction as generalizing b with
  | nil =>
    refine iff_of_true ?_ trivial
    intro pre hpre
    rw [List.prefix_nil.mp hpre]
    exact hstart
  | cons a as ih =>
    have hstep := hinv.noneStranded_step hstart h.1
    constructor
    · intro hall
      have ha : NoneStranded (b.step clockMode a) := hall [a] (List.prefix_cons_inj a |>.mpr List.nil_prefix)
      refine ⟨hstep.mp ha, (ih _ h.2 ha (hinv.step h.1)).mp fun pre hpre => ?_⟩
      exact hall (a :: pre) ((List.prefix_cons_inj a).mpr hpre)
    · intro hall pre hpre
      cases pre with
      | nil => exact hstart
      | cons c pre =>
        obtain ⟨rfl, hrest⟩ := List.cons_prefix_cons.mp hpre
        exact (ih _ h.2 (hstep.mpr hall.1) (hinv.step h.1)).mpr hall.2 pre hrest

/-- Two threads under the shuffle: the second joins after the flush and the first leaves as the last. -/
theorem stranded_join_after_flush :
    ¬∀ (clockMode : Bool) (as : List (Op × Outside)), Along (step clockMode) Allowed init as →
      NoneStranded (as.foldl (step clockMode) init) := by
  intro hall
  have hrun := hall false ([.join 0, .detFlushJoins, .join 1, .leave 0].map (·, plainOrder)) (by decide)
  have hnone : ∀ t, (([.join 0, .detFlushJoins, .join 1, .leave 0].map (·, plainOrder)).foldl (step false) init).state t ≠ .RUNNING := by
    intro t
    by_cases ht : t = 0
    · subst ht
      decide
    · have hstate : (([.join 0, .detFlushJoins, .join 1, .leave 0].map (·, plainOrder)).foldl (step false) init).state =
          update (update (update (fun _ => .OFFLINE) 0 .WAITING) 0 .RUNNING) 0 .LEFT := by
        rfl
      rw [hstate, update_of_ne ht, update_of_ne ht, update_of_ne ht]
      decide
  have hqueue := (hrun hnone).2
  revert hqueue
  decide

/-- With a third thread waiting, the same order of steps strands no one. -/
theorem noneStranded_run_iff_third_thread :
    Along (step false) LeavesSomeone init
        ([.join 0, .join 2, .detFlushJoins, .join 1, .leave 0].map (·, plainOrder)) ∧
      ∀ pre, pre <+: [.join 0, .join 2, .detFlushJoins, .join 1, .leave 0].map (·, plainOrder) →
        NoneStranded (pre.foldl (step false) init) := by
  have hsome : Along (step false) LeavesSomeone init
      ([.join 0, .join 2, .detFlushJoins, .join 1, .leave 0].map (·, plainOrder)) :=
    ⟨trivial, trivial, trivial, trivial, fun _ _ => ⟨2, by decide, by decide⟩, trivial⟩
  exact ⟨hsome, (noneStranded_run_iff false _ (by decide)).mpr hsome⟩

end Barrier

end Pimid.Sched
