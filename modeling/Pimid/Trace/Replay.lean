import Pimid.Trace.Work
import Mathlib.Algebra.Order.BigOperators.Group.Finset

/-!
# The replay loop ends, with every event dispatched in its place

Each turn of the loop is one move of the events, or a phase end that brings a parked
thread closer to running again. So the loop ends, and it ends with nothing left.
-/

namespace Pimid.Trace

open Driver

variable {n : Nat} {b : Behaviour} {s s' : Driver n}

def Driver.work (s : Driver n) : Work n := ⟨s.deferred, s.cut, s.file, s.dispatched, s.roi⟩

/-- The simulated cores never meet the termination condition on their own. -/
def Behaviour.Quiet (b : Behaviour) : Prop := (∀ k, (b.dispatch k).terminates = false) ∧ ∀ k, b.endOfPhase k = false

/-- How many phase ends the parked threads wait for. -/
def Driver.parking (s : Driver n) : Nat := ∑ t, s.crossings t

/-! ## Phase ends leave the events alone -/

theorem work_endIfParked : (s.endIfParked b).work = s.work := by
  unfold endIfParked
  split <;> rfl

theorem terminated_endIfParked (hb : b.Quiet) :
    (s.endIfParked b).terminationConditionMet = s.terminationConditionMet := by
  unfold endIfParked
  split
  · simp [endPhase, hb.2]
  · rfl

theorem parking_endPhase {t : Fin n} (ht : s.crossings t > 0) :
    ((s.leaveIdleThreads true).endPhase b).parking < s.parking := by
  refine Finset.sum_lt_sum (fun t _ => Nat.sub_le _ _) ⟨t, Finset.mem_univ t, ?_⟩
  show s.crossings t - 1 < s.crossings t
  omega

/-! ## One turn -/

variable [NeZero n]

theorem nextDeferred_some {t : Fin n} {e : TraceEvent} {rest : List TraceEvent}
    (h : s.nextDeferred = some (t, e, rest)) : s.deferred t = e :: rest := by
  unfold nextDeferred at h
  obtain ⟨t', _, ht'⟩ := List.exists_of_findSome?_eq_some h
  split at ht'
  next => exact absurd ht' (by simp)
  next =>
    split at ht'
    next => exact absurd ht' (by simp)
    next hd =>
      obtain ⟨rfl, rfl, rfl⟩ : t' = t ∧ _ = e ∧ _ = rest := by simpa using ht'
      exact hd

theorem nextDeferred_none (h : s.nextDeferred = none) (t : Fin n) : s.deferred t = [] ∨ s.crossings t > 0 := by
  unfold nextDeferred at h
  -- the round-robin comes by every thread
  have hmem : t ∈ (List.range n).map fun i => Fin.ofNat n (s.rr + i) := by
    refine List.mem_map.mpr ⟨(t.val + (n - s.rr % n)) % n, List.mem_range.mpr (Nat.mod_lt _ (Nat.pos_of_neZero n)), ?_⟩
    refine Fin.ext ?_
    have hr : s.rr % n < n := Nat.mod_lt _ (Nat.pos_of_neZero n)
    show (s.rr + (t.val + (n - s.rr % n)) % n) % n = t.val
    rw [Nat.add_mod, Nat.mod_mod, ← Nat.add_mod]
    have hsum : s.rr + (t.val + (n - s.rr % n)) = t.val + n * (s.rr / n + 1) := by
      have hdiv := Nat.div_add_mod s.rr n
      have hmul : n * (s.rr / n + 1) = n * (s.rr / n) + n := Nat.mul_succ _ _
      omega
    rw [hsum, Nat.add_mul_mod_self_left, Nat.mod_eq_of_lt t.isLt]
  have hnone := List.findSome?_eq_none_iff.mp h t hmem
  split at hnone
  next hp => exact .inr (by simpa [parkedThread] using hp)
  next =>
    split at hnone
    next hd => exact .inl hd
    next => exact absurd hnone (by simp)

omit [NeZero n] in
theorem anyDeferred_false (h : s.anyDeferred = false) (t : Fin n) : s.deferred t = [] := by
  have := List.any_eq_false.mp h t (List.mem_finRange t)
  simpa using this

omit [NeZero n] in
theorem anyDeferred_true (h : s.anyDeferred = true) : ∃ t, s.deferred t ≠ [] := by
  obtain ⟨t, _, ht⟩ := List.any_eq_true.mp h
  exact ⟨t, by simpa using ht⟩

/-- What a turn can do: move an event, or end a phase while a parked thread waits. -/
theorem turn_some (h : s.turn b = some s') :
    WorkStep s.work s'.work ∨ (s'.work = s.work ∧ s'.parking < s.parking) := by
  unfold turn at h
  split at h
  next => exact absurd h (by simp)
  next =>
    split at h
    next t e rest hnext =>
      obtain rfl := Option.some.inj h
      rw [work_endIfParked]
      exact .inl (.take (nextDeferred_some hnext))
    next hnext =>
      -- whatever is deferred waits for a parked thread
      have hwait : s.anyDeferred = true → ∃ t, s.crossings t > 0 := by
        intro hd
        obtain ⟨t, ht⟩ := anyDeferred_true hd
        exact ⟨t, (nextDeferred_none hnext t).resolve_left ht⟩
      split at h
      next m hcut =>
        split at h
        next hd =>
          obtain rfl := Option.some.inj h
          rw [work_endIfParked]
          exact .inl (.cut hcut (anyDeferred_false (by simpa using hd)))
        next hd =>
          obtain rfl := Option.some.inj h
          obtain ⟨t, ht⟩ := hwait (by simpa using hd)
          exact .inr ⟨rfl, parking_endPhase ht⟩
      next hcut =>
        split at h
        next hfile =>
          split at h
          next hd =>
            obtain rfl := Option.some.inj h
            obtain ⟨t, ht⟩ := hwait hd
            exact .inr ⟨rfl, parking_endPhase ht⟩
          next => exact absurd h (by simp)
        next e rest hfile =>
          simp only at h
          split at h
          next hm =>
            obtain rfl := Option.some.inj h
            exact .inl (.mark hcut hfile hm)
          next hm =>
            split at h
            next =>
              obtain rfl := Option.some.inj h
              rw [work_endIfParked]
              exact .inl (.defer hcut hfile (by simpa using hm))
            next hp =>
              obtain rfl := Option.some.inj h
              rw [work_endIfParked]
              refine .inl (.read hcut hfile (by simpa using hm) ?_)
              refine (nextDeferred_none hnext (e.tid n)).resolve_right fun hgt => hp ?_
              simpa [parkedThread] using hgt

/-- The loop ends on the termination condition or with nothing left. -/
theorem turn_none (h : s.turn b = none) (ht : s.terminationConditionMet = false) :
    s.cut = none ∧ s.file = [] ∧ ∀ t, s.deferred t = [] := by
  unfold turn at h
  rw [ht] at h
  simp only [Bool.false_eq_true, if_false] at h
  split at h
  next => exact absurd h (by simp)
  next =>
    split at h
    next =>
      split at h <;> exact absurd h (by simp)
    next hcut =>
      split at h
      next hfile =>
        split at h
        next => exact absurd h (by simp)
        next hd => exact ⟨hcut, hfile, anyDeferred_false (by simpa using hd)⟩
      next =>
        split at h
        · exact absurd h (by simp)
        · split at h <;> exact absurd h (by simp)

/-! ## The loop ends -/

/-- What holds before a turn and is kept by turns holds where the loop ends; and it ends. -/
theorem loop_ends {I : Driver n → Prop} (hkeep : ∀ s s', I s → s.turn b = some s' → I s') (s : Driver n) (hs : I s) :
    ∃ fuel s', loop b fuel s = some s' ∧ s'.turn b = none ∧ I s' := by
  cases h : s.turn b with
  | none => exact ⟨1, s, by rw [loop, h], h, hs⟩
  | some s₁ =>
    -- the rank of the state: events left, events unread, phase ends awaited
    have hlt : Prod.Lex (· < ·) (Prod.Lex (· < ·) (· < ·)) (s₁.work.left, s₁.work.file.length, s₁.parking)
        (s.work.left, s.work.file.length, s.parking) := by
      rcases turn_some h with hw | ⟨hw, hp⟩
      · rcases hw.left_lt with hl | ⟨he, hf⟩
        · exact .left _ _ hl
        · rw [he]
          exact .right _ (.left _ _ hf)
      · rw [hw]
        exact .right _ (.right _ hp)
    obtain ⟨fuel, s₂, hloop, hend, hi⟩ := loop_ends hkeep s₁ (hkeep s s₁ hs h)
    refine ⟨fuel + 1, s₂, ?_, hend, hi⟩
    rw [loop, h]
    exact hloop
termination_by (s.work.left, s.work.file.length, s.parking)
decreasing_by exact hlt

/-! ## What is dispatched -/

variable {all read l : List TraceEvent}

/-- The events `l` were replayed: each once, every thread's in order, everything before a
marker before it, and the ROI count is that of `l`. -/
structure Replayed (l : List TraceEvent) (s : Driver n) : Prop where
  once : s.dispatched.Perm l
  order : ∀ t, (s.dispatched.filter fun e => e.tid n = t) = l.filter fun e => e.tid n = t
  marker : ∀ pre m post, l = pre ++ m :: post → m.isMarker = true →
    ∃ d₁ d₂, s.dispatched = d₁ ++ m :: d₂ ∧ d₁.Perm pre ∧ d₂.Perm post
  insns : s.roi.insns = roiInstructions l

theorem WorkInv.replayed (h : WorkInv all read s.work) (hc : s.cut = none) (hd : ∀ t, s.deferred t = []) :
    Replayed read s := by
  have hperm : s.dispatched.Perm read := h.perm hd hc
  refine ⟨hperm, fun t => ?_, fun pre m post hr hm => ?_, ?_⟩
  · have := h.order t
    simp only [Driver.work, hc, hd, Option.toList_none, List.filter_nil, List.append_nil] at this
    exact this
  · rcases h.marker pre m post hr hm with ⟨hc', _⟩ | ⟨d₁, d₂, he, hp⟩
    · exact absurd (hc.symm.trans hc') (by simp)
    · refine ⟨d₁, d₂, he, hp, ?_⟩
      have he : s.dispatched = d₁ ++ m :: d₂ := he
      rw [he, hr] at hperm
      have hboth := (hp.append_right (m :: d₂)).symm.trans hperm
      exact ((List.perm_append_left_iff pre).mp hboth).cons_inv
  · obtain ⟨before, hread, hroi⟩ := h.counted
    have hread : read = before := by
      simpa only [Driver.work, hc, Option.toList_none, List.append_nil] using hread
    have howed : s.work.owed = 0 := by simp [Work.owed, Driver.work, hd]
    have hins := congrArg Roi.insns hroi
    rw [howed, ← hread] at hins
    have hfold := insns_eq_roiInstructions (r := ⟨0, 0, 0⟩) rfl rfl read
    simp only [Nat.zero_add] at hfold
    exact (hins.symm.trans hfold)

/-! ## Where the ROI ends -/

theorem upToEnd_of_none (h : ∀ e ∈ l, e.eventType ≠ .roiEnd) : upToEnd l = l := by
  induction l with
  | nil => rfl
  | cons e l ih =>
    rw [upToEnd, if_neg (h e List.mem_cons_self), ih fun x hx => h x (List.mem_cons_of_mem _ hx)]

theorem upToEnd_append {pre post : List TraceEvent} {m : TraceEvent} (h : ∀ e ∈ pre, e.eventType ≠ .roiEnd)
    (hm : m.eventType = .roiEnd) : upToEnd (pre ++ m :: post) = pre ++ [m] := by
  induction pre with
  | nil => rw [List.nil_append, upToEnd, if_pos hm]; rfl
  | cons e pre ih =>
    rw [List.cons_append, upToEnd, if_neg (h e List.mem_cons_self), ih fun x hx => h x (List.mem_cons_of_mem _ hx)]
    rfl

theorem roiInstructions_upToEnd (l : List TraceEvent) : roiInstructions (upToEnd l) = roiInstructions l := by
  have htake : (upToEnd l).takeWhile (fun e => e.eventType ≠ .roiEnd)
      = l.takeWhile fun e => e.eventType ≠ .roiEnd := by
    induction l with
    | nil => rfl
    | cons e l ih =>
      rw [upToEnd]
      split
      next he => rw [List.takeWhile_cons_of_neg (by simp [he]), List.takeWhile_cons_of_neg (by simp [he])]
      next he => rw [List.takeWhile_cons_of_pos (by simp [he]), List.takeWhile_cons_of_pos (by simp [he]), ih]
  rw [roiInstructions, roiInstructions, htake]

theorem turn_not_terminated (h : s.turn b = some s') : s.terminationConditionMet = false := by
  unfold turn at h
  split at h
  next => exact absurd h (by simp)
  next hn => simpa using hn

/-- Of quiet cores, only the end marker terminates the run. -/
theorem turn_terminates (hb : b.Quiet) (h : s.turn b = some s') :
    s'.dispatched = s.dispatched ∧ s'.terminationConditionMet = false
      ∨ ∃ e, s'.dispatched = s.dispatched ++ [e]
        ∧ (s'.terminationConditionMet = true ↔ e.eventType = .roiEnd) := by
  have hterm := turn_not_terminated h
  have hdisp : ∀ (x : Driver n) (e : TraceEvent), x.terminationConditionMet = false → x.dispatched = s.dispatched →
      ((x.dispatchEvent b e).endIfParked b).dispatched = s.dispatched ++ [e]
        ∧ (((x.dispatchEvent b e).endIfParked b).terminationConditionMet = true ↔ e.eventType = .roiEnd) := by
    intro x e hx hd
    rw [terminated_endIfParked hb]
    refine ⟨?_, ?_⟩
    · have := congrArg Work.dispatched (work_endIfParked (b := b) (s := x.dispatchEvent b e))
      rw [← hd]
      exact this
    · simp [dispatchEvent, hx, hb.1]
  unfold turn at h
  rw [if_neg (by simp [hterm])] at h
  split at h
  next t e rest hnext =>
    obtain rfl := Option.some.inj h
    exact .inr ⟨e, hdisp _ e hterm rfl⟩
  next =>
    split at h
    next m hcut =>
      split at h
      next =>
        obtain rfl := Option.some.inj h
        exact .inr ⟨m, hdisp _ m hterm rfl⟩
      next =>
        obtain rfl := Option.some.inj h
        exact .inl ⟨rfl, by simp [endPhase, leaveIdleThreads, hterm, hb.2]⟩
    next hcut =>
      split at h
      next =>
        split at h
        next =>
          obtain rfl := Option.some.inj h
          exact .inl ⟨rfl, by simp [endPhase, leaveIdleThreads, hterm, hb.2]⟩
        next => exact absurd h (by simp)
      next e rest hfile =>
        simp only at h
        split at h
        next =>
          obtain rfl := Option.some.inj h
          exact .inl ⟨rfl, hterm⟩
        next =>
          split at h
          next =>
            obtain rfl := Option.some.inj h
            refine .inl ⟨congrArg Work.dispatched work_endIfParked, ?_⟩
            rw [terminated_endIfParked hb]
            exact hterm
          next =>
            obtain rfl := Option.some.inj h
            exact .inr ⟨e, hdisp _ e hterm rfl⟩

/-- Up to the end marker, and at it. -/
structure Halting (all read : List TraceEvent) (s : Driver n) : Prop where
  running : s.terminationConditionMet = false → ∀ e ∈ s.dispatched, e.eventType ≠ .roiEnd
  halted : s.terminationConditionMet = true → s.cut = none ∧ (∀ t, s.deferred t = []) ∧ read = upToEnd all

omit [NeZero n] in
theorem Halting.start (all : List TraceEvent) : Halting all [] (Driver.start n all) where
  running := fun _ e he => absurd he (by simp [Driver.start])
  halted := fun h => absurd h (by simp [Driver.start])

theorem Halting.of_running (h : Halting all read s) (hb : b.Quiet) (ht : s.turn b = some s') {read' : List TraceEvent}
    (hnot : ∀ e, s'.dispatched = s.dispatched ++ [e] → e.eventType ≠ .roiEnd) : Halting all read' s' := by
  have hrun := h.running (turn_not_terminated ht)
  rcases turn_terminates hb ht with ⟨hd, hf⟩ | ⟨e, hd, hiff⟩
  · refine ⟨fun _ => ?_, fun htrue => absurd (hf.symm.trans htrue) (by simp)⟩
    rw [hd]
    exact hrun
  · have hne := hnot e hd
    refine ⟨fun _ x hx => ?_, fun htrue => absurd (hiff.mp htrue) hne⟩
    rw [hd] at hx
    rcases List.mem_append.mp hx with hx | hx
    · exact hrun x hx
    · rw [List.mem_singleton.mp hx]
      exact hne

theorem dispatched_inj {d d' : List TraceEvent} {e e' : TraceEvent} (h : d' = d ++ [e]) (h' : d' = d ++ [e']) :
    e = e' := List.singleton_inj.mp (List.append_cancel_left (h.symm.trans h'))

theorem not_end_of_not_marker {e : TraceEvent} (h : e.isMarker = false) : e.eventType ≠ .roiEnd := by
  simp only [TraceEvent.isMarker, decide_eq_false_iff_not, not_or] at h
  exact h.2

theorem turn_keeps (hb : b.Quiet) (hw : WorkInv all read s.work) (hh : Halting all read s)
    (ht : s.turn b = some s') : ∃ read', WorkInv all read' s'.work ∧ Halting all read' s' := by
  rcases turn_some ht with hs | ⟨hsame, _⟩
  · generalize hw' : s'.work = w' at hs
    have hdisp : s'.dispatched = w'.dispatched := congrArg Work.dispatched hw'
    cases hs with
    | take hd =>
      refine ⟨_, hw.take hd, hh.of_running hb ht fun e he => ?_⟩
      rw [dispatched_inj he hdisp]
      exact not_end_of_not_marker (hw.own _ _ (by rw [hd]; exact List.mem_cons_self)).2
    | cut hc hd =>
      rename_i m
      refine ⟨_, hw.dispatchCut hc hd, ?_⟩
      by_cases hm : m.eventType = .roiEnd
      · -- everything before the end marker has been dispatched, and the file is read no further
        obtain ⟨_, pre, hpre⟩ := hw.last m hc
        have hperm := hw.perm_cut hd hc hpre
        have hnone : ∀ e ∈ pre, e.eventType ≠ .roiEnd := fun e he =>
          hh.running (turn_not_terminated ht) e (hperm.mem_iff.mpr he)
        refine ⟨fun hf => ?_, fun _ => ⟨?_, fun t => ?_, ?_⟩⟩
        · rcases turn_terminates hb ht with ⟨hsame, _⟩ | ⟨e, he, hiff⟩
          · rw [hsame] at hdisp
            exact absurd (congrArg List.length hdisp) (by simp [Work.log, Driver.work])
          · rw [dispatched_inj he hdisp] at hiff
            rw [hiff.mpr hm] at hf
            exact absurd hf (by simp)
        · exact congrArg Work.cut hw'
        · exact (congrFun (congrArg Work.deferred hw') t).trans (hd t)
        · rw [hw.file_eq, hpre, List.append_assoc, List.singleton_append, upToEnd_append hnone hm]
      · refine hh.of_running hb ht fun e he => ?_
        rw [dispatched_inj he hdisp]
        exact hm
    | mark hc hf hm =>
      refine ⟨_, hw.readMark hc hf hm, hh.of_running hb ht fun e he => ?_⟩
      rw [he] at hdisp
      exact absurd (congrArg List.length hdisp) (by simp [Driver.work])
    | defer hc hf hm =>
      refine ⟨_, hw.readDefer hc hf hm, hh.of_running hb ht fun e he => ?_⟩
      rw [he] at hdisp
      exact absurd (congrArg List.length hdisp) (by simp [Driver.work])
    | read hc hf hm hd =>
      refine ⟨_, hw.readDispatch hc hf hm hd, hh.of_running hb ht fun e he => ?_⟩
      rw [dispatched_inj he hdisp]
      exact not_end_of_not_marker hm
  · refine ⟨read, by rw [hsame]; exact hw, hh.of_running hb ht fun e he => ?_⟩
    have hd : s'.dispatched = s.dispatched := congrArg Work.dispatched hsame
    rw [he] at hd
    exact absurd (congrArg List.length hd) (by simp)

/-- **The replay is complete and in order.** For every trace, every number of cores and
whatever the cores do, the loop ends. If the termination condition was not met, the whole
file was replayed; if only the end marker can meet it, the file was replayed up to and
including the first end marker. -/
theorem loop_replays (n : Nat) [NeZero n] (b : Behaviour) (file : List TraceEvent) :
    ∃ fuel s, loop b fuel (Driver.start n file) = some s
      ∧ (s.terminationConditionMet = false → Replayed file s)
      ∧ (b.Quiet → Replayed (upToEnd file) s ∧ s.roi.insns = roiInstructions file) := by
  obtain ⟨fuel, s, hloop, hend, read, hw, hh⟩ := loop_ends (b := b)
    (I := fun s => ∃ read, WorkInv file read s.work ∧ (b.Quiet → Halting file read s))
    (fun s s' ⟨read, hw, hh⟩ ht => by
      by_cases hb : b.Quiet
      · obtain ⟨read', hw', hh'⟩ := turn_keeps hb hw (hh hb) ht
        exact ⟨read', hw', fun _ => hh'⟩
      · rcases turn_some ht with hs | ⟨hsame, _⟩
        · obtain ⟨read', hw'⟩ := hw.step hs
          exact ⟨read', hw', fun hq => absurd hq hb⟩
        · exact ⟨read, by rw [hsame]; exact hw, fun hq => absurd hq hb⟩)
    (Driver.start n file) ⟨[], WorkInv.start file, fun _ => Halting.start file⟩
  have hdone : s.terminationConditionMet = false → read = file ∧ Replayed file s := by
    intro hf
    obtain ⟨hc, hfile, hd⟩ := turn_none hend hf
    have hread : read = file := by
      have := hw.file_eq
      rw [show s.work.file = [] from hfile, List.append_nil] at this
      exact this.symm
    exact ⟨hread, hread ▸ hw.replayed hc hd⟩
  refine ⟨fuel, s, hloop, fun hf => (hdone hf).2, fun hb => ?_⟩
  have hrep : Replayed (upToEnd file) s := by
    by_cases ht : s.terminationConditionMet = true
    · obtain ⟨hc, hd, hread⟩ := (hh hb).halted ht
      exact hread ▸ hw.replayed hc hd
    · have hf : s.terminationConditionMet = false := by simpa using ht
      have hr := (hdone hf).2
      have hnone : ∀ e ∈ file, e.eventType ≠ .roiEnd := fun e he =>
        (hh hb).running hf e (hr.once.mem_iff.mpr he)
      rw [upToEnd_of_none hnone]
      exact hr
  exact ⟨hrep, hrep.insns.trans (roiInstructions_upToEnd file)⟩

/-- Two threads that cross a phase end at every event: the five instructions between the
markers are counted, those after them are not. -/
theorem loop_replays_two_threads :
    ∃ fuel s, loop ⟨fun _ => ⟨1, true, false⟩, fun _ => false⟩ fuel
        (Driver.start 2 [⟨0, 0, 0, 0, 0, 0, .roiBegin, 0⟩, ⟨64, 5, 1, 4, 0, 0, .computeInt, 0⟩,
          ⟨128, 0, 1, 8, 0, 0, .memRead, 0⟩, ⟨0, 0, 0, 0, 0, 0, .roiEnd, 0⟩, ⟨64, 7, 1, 4, 0, 0, .computeInt, 0⟩])
        = some s
      ∧ s.roi.insns = 5 := by
  obtain ⟨fuel, s, hloop, _, hquiet⟩ := loop_replays 2 ⟨fun _ => ⟨1, true, false⟩, fun _ => false⟩
    [⟨0, 0, 0, 0, 0, 0, .roiBegin, 0⟩, ⟨64, 5, 1, 4, 0, 0, .computeInt, 0⟩, ⟨128, 0, 1, 8, 0, 0, .memRead, 0⟩,
      ⟨0, 0, 0, 0, 0, 0, .roiEnd, 0⟩, ⟨64, 7, 1, 4, 0, 0, .computeInt, 0⟩]
  exact ⟨fuel, s, hloop, (hquiet ⟨fun _ => rfl, fun _ => rfl⟩).2.trans (by decide)⟩

end Pimid.Trace
