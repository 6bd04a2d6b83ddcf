import Pimid.Trace.Driver
import Pimid.Lib.Buckets
import Mathlib.Algebra.BigOperators.Group.Finset.Basic
import Mathlib.Data.Fintype.BigOperators

/-!
# What the replay loop does to the events

The driver's phases and joins decide when an event runs, not what becomes of it. `Work` is
what is left when they are forgotten, and `WorkStep` the moves an event can make: from the
file to its thread's queue or to the cut, and from each of the three places to the log.
-/

namespace Pimid.Trace

open Function (update update_of_ne update_self)

variable {n : Nat}

structure Work (n : Nat) where
  deferred : Fin n → List TraceEvent
  cut : Option TraceEvent
  file : List TraceEvent
  dispatched : List TraceEvent
  roi : Roi

def Work.log (w : Work n) (e : TraceEvent) : Work n :=
  { w with dispatched := w.dispatched ++ [e], roi := w.roi.count e }

/-- The moves of the events. -/
inductive WorkStep [NeZero n] (w : Work n) : Work n → Prop where
  | take {t : Fin n} {e : TraceEvent} {rest : List TraceEvent} (h : w.deferred t = e :: rest) :
    WorkStep w (Work.log { w with deferred := update w.deferred t rest } e)
  | cut {m : TraceEvent} (h : w.cut = some m) (hd : ∀ t, w.deferred t = []) :
    WorkStep w (Work.log { w with cut := none } m)
  | mark {e : TraceEvent} {rest : List TraceEvent} (hc : w.cut = none) (hf : w.file = e :: rest)
      (hm : e.isMarker = true) : WorkStep w { w with file := rest, cut := some e }
  | defer {e : TraceEvent} {rest : List TraceEvent} (hc : w.cut = none) (hf : w.file = e :: rest)
      (hm : e.isMarker = false) :
    WorkStep w { w with
      file := rest
      deferred := update w.deferred (e.tid n) (w.deferred (e.tid n) ++ [e]) }
  | read {e : TraceEvent} {rest : List TraceEvent} (hc : w.cut = none) (hf : w.file = e :: rest)
      (hm : e.isMarker = false) (hd : w.deferred (e.tid n) = []) :
    WorkStep w (Work.log { w with file := rest } e)

/-! ## The ROI count of a list of events -/

def TraceEvent.weight (e : TraceEvent) : Nat := if e.isCompute then e.auxData else 0

def roiOf (l : List TraceEvent) : Roi := l.foldl Roi.count ⟨0, 0, 0⟩

theorem roiOf_snoc (l : List TraceEvent) (e : TraceEvent) : roiOf (l ++ [e]) = (roiOf l).count e := by
  rw [roiOf, List.foldl_append]
  rfl

def Roi.isOpen (r : Roi) : Bool := r.begins > 0 ∧ r.ends = 0

theorem Roi.isOpen_insns (r : Roi) (i : Nat) : Roi.isOpen ⟨r.begins, r.ends, i⟩ = r.isOpen := rfl

theorem Roi.count_of_not_marker {e : TraceEvent} (he : e.isMarker = false) (r : Roi) :
    r.count e = { r with insns := r.insns + if r.isOpen then e.weight else 0 } := by
  simp only [TraceEvent.isMarker, decide_eq_false_iff_not, not_or] at he
  simp only [Roi.count, if_neg he.1, if_neg he.2, TraceEvent.weight, Roi.isOpen, decide_eq_true_eq]
  congr 1
  by_cases hc : e.isCompute = true
  · simp only [hc, true_and, if_true]
    split <;> rfl
  · simp [hc]

theorem insns_of_ended {r : Roi} (h : r.ends > 0) (l : List TraceEvent) :
    (l.foldl Roi.count r).insns = r.insns := by
  induction l generalizing r with
  | nil => rfl
  | cons e l ih =>
    have hends : (r.count e).ends > 0 := by
      simp only [Roi.count]
      split <;> omega
    rw [List.foldl_cons, ih hends]
    simp only [Roi.count]
    rw [if_neg (by omega)]

/-- Inside the ROI the compute events up to the end marker are counted. -/
theorem insns_of_open {r : Roi} (hb : r.begins > 0) (he : r.ends = 0) (l : List TraceEvent) :
    (l.foldl Roi.count r).insns
      = r.insns + (((l.takeWhile fun e => e.eventType ≠ .roiEnd).filter (·.isCompute)).map (·.auxData)).sum := by
  induction l generalizing r with
  | nil => rfl
  | cons e l ih =>
    rw [List.foldl_cons]
    by_cases hend : e.eventType = .roiEnd
    · have hc : e.isCompute = false := by simp [TraceEvent.isCompute, hend]
      rw [insns_of_ended (by simp [Roi.count, hend]), List.takeWhile_cons_of_neg (by simp [hend])]
      simp [Roi.count, hc]
    · have hends : (r.count e).ends = 0 := by simp [Roi.count, hend, he]
      have hbegins : (r.count e).begins > 0 := by
        simp only [Roi.count]
        split <;> omega
      rw [ih hbegins hends, List.takeWhile_cons_of_pos (by simp [hend])]
      by_cases hc : e.isCompute = true
      · rw [List.filter_cons_of_pos hc, List.map_cons, List.sum_cons]
        simp only [Roi.count, if_pos (show e.isCompute ∧ r.begins > 0 ∧ r.ends = 0 from ⟨hc, hb, he⟩)]
        exact Nat.add_assoc _ _ _
      · rw [List.filter_cons_of_neg hc]
        simp [Roi.count, hc]

theorem insns_eq_roiInstructions {r : Roi} (hb : r.begins = 0) (he : r.ends = 0) (l : List TraceEvent) :
    (l.foldl Roi.count r).insns = r.insns + roiInstructions l := by
  induction l generalizing r with
  | nil => rfl
  | cons e l ih =>
    have hins : (r.count e).insns = r.insns := by
      simp only [Roi.count]
      rw [if_neg (by omega)]
    rw [List.foldl_cons, roiInstructions]
    by_cases hend : e.eventType = .roiEnd
    · rw [insns_of_ended (by simp [Roi.count, hend]), List.takeWhile_cons_of_neg (by simp [hend]), hins]
      rfl
    · have hends : (r.count e).ends = 0 := by simp [Roi.count, hend, he]
      rw [List.takeWhile_cons_of_pos (by simp [hend])]
      by_cases hbeg : e.eventType = .roiBegin
      · have hc : e.isCompute = false := by simp [TraceEvent.isCompute, hbeg]
        rw [insns_of_open (by simp [Roi.count, hbeg]) hends, hins, List.dropWhile_cons_of_neg (by simp [hbeg]),
          List.filter_cons_of_neg (by simp [hc])]
      · rw [ih (by simp [Roi.count, hbeg, hb]) hends, hins, List.dropWhile_cons_of_pos (by simp [hbeg])]
        rfl

/-- The instructions of the events deferred. -/
def Work.owed (w : Work n) : Nat :=
  if w.roi.isOpen then ∑ t, ((w.deferred t).map TraceEvent.weight).sum else 0

theorem sum_update_add {ι α : Type} [Fintype ι] [DecidableEq ι] (f : α → Nat) (g : ι → α) (t : ι) (v : α) :
    ∑ x, f (update g t v x) + f (g t) = ∑ x, f (g x) + f v := by
  rw [← Finset.add_sum_erase Finset.univ (fun x => f (g x)) (Finset.mem_univ t),
    ← Finset.add_sum_erase Finset.univ (fun x => f (update g t v x)) (Finset.mem_univ t)]
  have hrest : ∑ x ∈ Finset.univ.erase t, f (update g t v x) = ∑ x ∈ Finset.univ.erase t, f (g x) := by
    refine Finset.sum_congr rfl fun x hx => ?_
    rw [update_of_ne (Finset.ne_of_mem_erase hx)]
  rw [hrest, update_self]
  omega

/-! ## Events are neither lost nor reordered within a thread -/

/-- The events `read` so far of the file `all` are dispatched, deferred or the cut, each
thread's in file order; and what was read before a dispatched marker was dispatched before it. -/
structure WorkInv [NeZero n] (all read : List TraceEvent) (w : Work n) : Prop where
  file_eq : all = read ++ w.file
  own : ∀ t, ∀ e ∈ w.deferred t, e.tid n = t ∧ e.isMarker = false
  order : ∀ t, w.dispatched.filter (fun e => e.tid n = t) ++ w.deferred t
    ++ w.cut.toList.filter (fun e => e.tid n = t) = read.filter fun e => e.tid n = t
  last : ∀ m, w.cut = some m → m.isMarker = true ∧ ∃ pre, read = pre ++ [m]
  marker : ∀ pre m post, read = pre ++ m :: post → m.isMarker = true →
    (w.cut = some m ∧ post = []) ∨ ∃ d₁ d₂, w.dispatched = d₁ ++ m :: d₂ ∧ d₁.Perm pre
  counted : ∃ before, read = before ++ w.cut.toList
    ∧ roiOf before = ⟨w.roi.begins, w.roi.ends, w.roi.insns + w.owed⟩

variable [NeZero n] {all read : List TraceEvent} {w w' : Work n}

theorem WorkInv.start (all : List TraceEvent) :
    WorkInv all [] (⟨fun _ => [], none, all, [], ⟨0, 0, 0⟩⟩ : Work n) where
  file_eq := rfl
  own := fun t e he => absurd he List.not_mem_nil
  order := fun t => rfl
  last := fun m hm => absurd hm (by simp)
  marker := fun pre m post h => absurd h (by simp)
  counted := ⟨[], rfl, by simp [roiOf, Work.owed]⟩

theorem WorkInv.perm (h : WorkInv all read w) (hd : ∀ t, w.deferred t = []) (hc : w.cut = none) :
    w.dispatched.Perm read := by
  refine perm_of_filter_eq (f := fun e : TraceEvent => e.tid n) fun t => ?_
  have := h.order t
  rw [hd, hc, Option.toList_none, List.filter_nil, List.append_nil, List.append_nil] at this
  exact this

theorem WorkInv.perm_cut (h : WorkInv all read w) (hd : ∀ t, w.deferred t = []) {m : TraceEvent}
    (hc : w.cut = some m) {pre : List TraceEvent} (hpre : read = pre ++ [m]) : w.dispatched.Perm pre := by
  refine perm_of_filter_eq (f := fun e : TraceEvent => e.tid n) fun t => ?_
  have := h.order t
  rw [hd, hc, Option.toList_some, hpre, List.filter_append, List.append_nil] at this
  exact List.append_cancel_right this

theorem marker_log {d : List TraceEvent} {pre : List TraceEvent} {m e : TraceEvent}
    (h : ∃ d₁ d₂, d = d₁ ++ m :: d₂ ∧ d₁.Perm pre) : ∃ d₁ d₂, d ++ [e] = d₁ ++ m :: d₂ ∧ d₁.Perm pre := by
  obtain ⟨d₁, d₂, hd, hp⟩ := h
  exact ⟨d₁, d₂ ++ [e], by rw [hd, List.append_assoc]; rfl, hp⟩

theorem split_before_last {l pre post : List TraceEvent} {m e : TraceEvent} (h : l ++ [e] = pre ++ m :: post) :
    (post = [] ∧ l = pre ∧ e = m) ∨ ∃ post', l = pre ++ m :: post' := by
  rcases List.eq_nil_or_concat post with rfl | ⟨post', x, rfl⟩
  · obtain ⟨h₁, h₂⟩ := List.append_inj' h rfl
    exact .inl ⟨rfl, h₁, List.singleton_inj.mp h₂⟩
  · rw [List.concat_eq_append, ← List.cons_append, ← List.append_assoc] at h
    exact .inr ⟨post', (List.append_inj' h rfl).1⟩

theorem filter_snoc (l : List TraceEvent) (e : TraceEvent) (t : Fin n) :
    (l ++ [e]).filter (fun x => x.tid n = t)
      = l.filter (fun x => x.tid n = t) ++ if e.tid n = t then [e] else [] := by
  rw [List.filter_append]
  by_cases ht : e.tid n = t
  · simp [ht]
  · simp [ht]

theorem WorkInv.take (h : WorkInv all read w) {t : Fin n} {e : TraceEvent} {rest : List TraceEvent}
    (hd : w.deferred t = e :: rest) :
    WorkInv all read (Work.log { w with deferred := update w.deferred t rest } e) := by
  have he := h.own t e (by simp [hd])
  refine ⟨h.file_eq, fun t' x hx => ?_, fun t' => ?_, h.last, fun pre m post hr hm => ?_, ?_⟩
  · refine h.own t' x ?_
    by_cases ht : t' = t
    · subst ht
      rw [hd]
      simp only [Work.log, update_self] at hx
      exact List.mem_cons_of_mem _ hx
    · simpa only [Work.log, update_of_ne ht] using hx
  · rw [← h.order t']
    simp only [Work.log]
    rw [filter_snoc, he.1]
    by_cases ht : t' = t
    · subst ht
      rw [update_self, hd, if_pos rfl]
      simp
    · rw [update_of_ne ht, if_neg (Ne.symm ht), List.append_nil]
  · rcases h.marker pre m post hr hm with hl | hr
    · exact .inl hl
    · exact .inr (marker_log hr)
  · obtain ⟨before, hread, hroi⟩ := h.counted
    refine ⟨before, hread, hroi.trans ?_⟩
    -- what `e` owed is now counted
    have hsum := sum_update_add (fun l => (l.map TraceEvent.weight).sum) w.deferred t rest
    simp only [hd, List.map_cons, List.sum_cons] at hsum
    simp only [Work.log, Roi.count_of_not_marker he.2, Work.owed, Roi.isOpen_insns]
    congr 1
    by_cases ho : w.roi.isOpen = true
    · rw [if_pos ho, if_pos ho, if_pos ho]
      omega
    · rw [if_neg ho, if_neg ho, if_neg ho]

theorem WorkInv.dispatchCut (h : WorkInv all read w) {m : TraceEvent} (hc : w.cut = some m)
    (hd : ∀ t, w.deferred t = []) : WorkInv all read (Work.log { w with cut := none } m) := by
  refine ⟨h.file_eq, h.own, fun t => ?_, fun m hm => absurd hm (by simp [Work.log]),
    fun pre m' post hr hm => ?_, ?_⟩
  · rw [← h.order t]
    simp only [Work.log]
    rw [filter_snoc, hd, hc]
    by_cases ht : m.tid n = t
    · simp [ht]
    · simp [ht]
  · right
    rcases h.marker pre m' post hr hm with ⟨hc', hpost⟩ | hr
    · obtain rfl := Option.some.inj (hc.symm.trans hc')
      subst hpost
      exact ⟨w.dispatched, [], rfl, h.perm_cut hd hc hr⟩
    · exact marker_log hr
  · obtain ⟨before, hread, hroi⟩ := h.counted
    refine ⟨read, (List.append_nil _).symm, ?_⟩
    have hnone : w.owed = 0 := by simp [Work.owed, hd]
    have hnone' : (Work.log { w with cut := none } m).owed = 0 := by simp [Work.owed, Work.log, hd]
    rw [hread, hc, Option.toList_some, roiOf_snoc, hroi, hnone, hnone']
    rfl

theorem WorkInv.readMark (h : WorkInv all read w) {e : TraceEvent} {rest : List TraceEvent} (hc : w.cut = none)
    (hf : w.file = e :: rest) (hm : e.isMarker = true) :
    WorkInv all (read ++ [e]) { w with file := rest, cut := some e } := by
  refine ⟨?_, h.own, fun t => ?_, fun m hm' => ?_, fun pre m post hr hm' => ?_, ?_⟩
  · rw [h.file_eq, hf, List.append_assoc]
    rfl
  · have := h.order t
    rw [hc, Option.toList_none, List.filter_nil, List.append_nil] at this
    rw [filter_snoc, ← this]
    simp only [Option.toList_some]
    by_cases ht : e.tid n = t
    · simp [ht]
    · simp [ht]
  · obtain rfl := Option.some.inj hm'
    exact ⟨hm, read, rfl⟩
  · rcases split_before_last hr with ⟨hpost, _, he⟩ | ⟨post', hread⟩
    · exact .inl ⟨congrArg some he, hpost⟩
    · rcases h.marker pre m post' hread hm' with ⟨hc', _⟩ | hr
      · rw [hc] at hc'
        exact absurd hc' (by simp)
      · exact .inr hr
  · obtain ⟨before, hread, hroi⟩ := h.counted
    rw [hc, Option.toList_none, List.append_nil] at hread
    exact ⟨before, by rw [hread]; rfl, hroi⟩

theorem WorkInv.marker_read (h : WorkInv all read w) (hc : w.cut = none) {e : TraceEvent} (he : e.isMarker = false)
    {pre post : List TraceEvent} {m : TraceEvent} (hr : read ++ [e] = pre ++ m :: post) (hm : m.isMarker = true) :
    ∃ d₁ d₂, w.dispatched = d₁ ++ m :: d₂ ∧ d₁.Perm pre := by
  rcases split_before_last hr with ⟨_, _, rfl⟩ | ⟨post', hread⟩
  · rw [he] at hm
    exact absurd hm (by simp)
  · rcases h.marker pre m post' hread hm with ⟨hc', _⟩ | hr
    · rw [hc] at hc'
      exact absurd hc' (by simp)
    · exact hr

theorem WorkInv.readDefer (h : WorkInv all read w) {e : TraceEvent} {rest : List TraceEvent} (hc : w.cut = none)
    (hf : w.file = e :: rest) (hm : e.isMarker = false) :
    WorkInv all (read ++ [e])
      { w with file := rest, deferred := update w.deferred (e.tid n) (w.deferred (e.tid n) ++ [e]) } := by
  refine ⟨?_, fun t x hx => ?_, fun t => ?_, fun m hm' => ?_, fun pre m post hr hm' => .inr ?_, ?_⟩
  · rw [h.file_eq, hf, List.append_assoc]
    rfl
  · by_cases ht : t = e.tid n
    · subst ht
      simp only [update_self, List.mem_append, List.mem_singleton] at hx
      rcases hx with hx | rfl
      · exact h.own _ x hx
      · exact ⟨rfl, hm⟩
    · simp only [update_of_ne ht] at hx
      exact h.own t x hx
  · rw [filter_snoc, ← h.order t]
    simp only [hc, Option.toList_none, List.filter_nil, List.append_nil]
    by_cases ht : t = e.tid n
    · subst ht
      rw [update_self, if_pos rfl, List.append_assoc]
    · rw [update_of_ne ht, if_neg (Ne.symm ht), List.append_nil]
  · exact absurd (hc.symm.trans hm') (by simp)
  · exact h.marker_read hc hm hr hm'
  · obtain ⟨before, hread, hroi⟩ := h.counted
    rw [hc, Option.toList_none, List.append_nil] at hread
    refine ⟨before ++ [e], by simp [hread, hc], ?_⟩
    have hsum := sum_update_add (fun l => (l.map TraceEvent.weight).sum) w.deferred (e.tid n)
      (w.deferred (e.tid n) ++ [e])
    simp only [List.map_append, List.map_cons, List.map_nil, List.sum_append, List.sum_cons, List.sum_nil] at hsum
    rw [roiOf_snoc, hroi, Roi.count_of_not_marker hm, Roi.isOpen_insns]
    simp only [Work.owed]
    congr 1
    by_cases ho : w.roi.isOpen = true
    · rw [if_pos ho, if_pos ho, if_pos ho]
      omega
    · rw [if_neg ho, if_neg ho, if_neg ho]

theorem WorkInv.readDispatch (h : WorkInv all read w) {e : TraceEvent} {rest : List TraceEvent} (hc : w.cut = none)
    (hf : w.file = e :: rest) (hm : e.isMarker = false) (hd : w.deferred (e.tid n) = []) :
    WorkInv all (read ++ [e]) (Work.log { w with file := rest } e) := by
  refine ⟨?_, h.own, fun t => ?_, fun m hm' => ?_, fun pre m post hr hm' => .inr ?_, ?_⟩
  · rw [h.file_eq, hf, List.append_assoc]
    rfl
  · rw [filter_snoc, ← h.order t]
    simp only [Work.log, hc, Option.toList_none, List.filter_nil, List.append_nil]
    rw [filter_snoc]
    by_cases ht : e.tid n = t
    · subst ht
      rw [hd, List.append_nil, List.append_nil]
    · rw [if_neg ht, List.append_nil, List.append_nil]
  · exact absurd (hc.symm.trans hm') (by simp)
  · exact marker_log (h.marker_read hc hm hr hm')
  · obtain ⟨before, hread, hroi⟩ := h.counted
    rw [hc, Option.toList_none, List.append_nil] at hread
    refine ⟨before ++ [e], by simp [hread, hc, Work.log], ?_⟩
    rw [roiOf_snoc, hroi, Roi.count_of_not_marker hm, Roi.isOpen_insns]
    simp only [Work.log, Roi.count_of_not_marker hm, Work.owed, Roi.isOpen_insns]
    congr 1
    exact Nat.add_right_comm _ _ _

theorem WorkInv.step (h : WorkInv all read w) (hs : WorkStep w w') : ∃ read', WorkInv all read' w' := by
  cases hs with
  | take hd => exact ⟨_, h.take hd⟩
  | cut hc hd => exact ⟨_, h.dispatchCut hc hd⟩
  | mark hc hf hm => exact ⟨_, h.readMark hc hf hm⟩
  | defer hc hf hm => exact ⟨_, h.readDefer hc hf hm⟩
  | read hc hf hm hd => exact ⟨_, h.readDispatch hc hf hm hd⟩

/-! ## Every move brings the end closer -/

/-- The events not dispatched yet. -/
def Work.left (w : Work n) : Nat := ∑ t, (w.deferred t).length + w.cut.toList.length + w.file.length

omit [NeZero n] in
theorem left_log (w : Work n) (e : TraceEvent) : (w.log e).left = w.left := rfl

/-- A move dispatches an event or takes one from the file. -/
theorem WorkStep.left_lt (h : WorkStep w w') :
    w'.left < w.left ∨ (w'.left = w.left ∧ w'.file.length < w.file.length) := by
  cases h with
  | take hd =>
    rename_i t e rest
    have hsum := sum_update_add List.length w.deferred t rest
    simp only [hd, List.length_cons] at hsum
    left
    rw [left_log]
    simp only [Work.left]
    omega
  | cut hc hd =>
    left
    rw [left_log]
    simp only [Work.left, hc, Option.toList_some, Option.toList_none, List.length_singleton, List.length_nil]
    omega
  | mark hc hf hm =>
    right
    simp only [Work.left, hc, hf, Option.toList_some, Option.toList_none, List.length_nil, List.length_cons]
    omega
  | defer hc hf hm =>
    rename_i e rest
    have hsum := sum_update_add List.length w.deferred (e.tid n) (w.deferred (e.tid n) ++ [e])
    simp only [List.length_append, List.length_singleton] at hsum
    right
    simp only [Work.left, hf, List.length_cons]
    omega
  | read hc hf hm hd =>
    left
    rw [left_log]
    simp only [Work.left, hf, List.length_cons]
    omega

end Pimid.Trace
