import Pimid.Sim.EventQueue

/-!
# Runs of the event queue

The top stays where it is while the callback runs, unless the callback schedules an
event that comes before it. Then it is that event that is popped, without having run,
and the one that ran is still queued. So a run does what it should if and only if no
callback does so.
-/

namespace Pimid.Sim

namespace Event

variable {e x y : Event}

theorem lt_iff : e.lt x = true ↔ x.scheduledCycle < e.scheduledCycle ∨
    (e.scheduledCycle = x.scheduledCycle ∧ e.priority < x.priority) := by
  unfold lt
  split
  next h =>
    rw [decide_eq_true_eq]
    omega
  next h =>
    rw [decide_eq_true_eq]
    omega

theorem not_lt_iff : e.lt x = false ↔ e.scheduledCycle < x.scheduledCycle ∨
    (e.scheduledCycle = x.scheduledCycle ∧ x.priority ≤ e.priority) := by
  rw [← Bool.not_eq_true, lt_iff]
  omega

theorem cycle_le (h : e.lt x = false) : e.scheduledCycle ≤ x.scheduledCycle := by
  rw [not_lt_iff] at h
  omega

/-- What comes before `e` comes before everything that does not. -/
theorem lt_of_not_lt (h : e.lt x = true) (hy : e.lt y = false) : y.lt x = true := by
  rw [lt_iff] at h ⊢
  rw [not_lt_iff] at hy
  omega

end Event

namespace EventQueue

variable {q q' : EventQueue} {l l' : List Event} {e p : Event} {r : Request} {rs : List Request} {t : Turn}
  {log : List Ran} {ts : List Turn} {n : Nat}

/-! ## The list -/

/-- Nothing comes before the head. -/
def TopFirst : List Event → Prop
  | [] => True
  | e :: r => ∀ x ∈ r, e.lt x = false

theorem TopFirst.le (h : TopFirst (e :: l)) {x : Event} (hx : x ∈ e :: l) : e.lt x = false := by
  rcases List.mem_cons.mp hx with rfl | hx
  · rw [Event.not_lt_iff]
    omega
  · exact h x hx

theorem push_perm (e : Event) (l : List Event) : (push e l).Perm (e :: l) := by
  cases l with
  | nil => exact .refl _
  | cons t r =>
    simp only [push]
    split
    next => exact .refl _
    next => exact .swap ..

theorem push_topFirst (h : TopFirst l) (e : Event) : TopFirst (push e l) := by
  cases l with
  | nil => exact fun x hx => absurd hx List.not_mem_nil
  | cons t r =>
    simp only [push]
    split
    next hlt =>
      intro x hx
      have htx := h.le hx
      -- `e` comes before the old top, and so before all the rest
      rw [Event.not_lt_iff] at htx ⊢
      rw [Event.lt_iff] at hlt
      omega
    next hlt =>
      intro x hx
      rcases List.mem_cons.mp hx with rfl | hx
      · simpa using hlt
      · exact h x hx

theorem push_head (h : e.lt p = false) : push p (e :: l) = e :: p :: l := by
  simp [push, h]

theorem pop_perm {k : Nat} (h : pop k l = some l') : ∃ p r, l = p :: r ∧ r.Perm l' ∧ TopFirst l' := by
  cases l with
  | nil => cases h
  | cons p r =>
    cases r with
    | nil =>
      obtain rfl := Option.some.inj h
      exact ⟨p, [], rfl, .refl _, trivial⟩
    | cons b r =>
      simp only [pop] at h
      split at h
      next => cases h
      next x hx =>
        split at h
        next hall =>
          obtain rfl := Option.some.inj h
          obtain ⟨hk, rfl⟩ := List.getElem?_eq_some_iff.mp hx
          refine ⟨p, b :: r, rfl, (List.getElem_cons_eraseIdx_perm hk).symm, fun y hy => ?_⟩
          have := List.all_eq_true.mp hall y hy
          simpa using this
        next => cases h

/-! ## What always holds -/

structure Ok (q : EventQueue) : Prop where
  top : TopFirst q.events
  bound : ∀ e ∈ q.events, e.scheduledCycle < cycles
  old : ∀ e ∈ q.events, e.id < q.nextId
  nodup : (q.events.map Event.id).Nodup

theorem ok_init : init.Ok := ⟨trivial, by simp [init], by simp [init], .nil⟩

theorem eventOf_bound (q : EventQueue) (r : Request) : (q.eventOf r).scheduledCycle < cycles := by
  unfold eventOf
  dsimp only
  split
  next => exact Nat.mod_lt _ (by decide)
  next => exact r.fits

theorem Ok.scheduleEvent (h : q.Ok) (r : Request) : (q.scheduleEvent r).Ok := by
  unfold EventQueue.scheduleEvent
  split
  next =>
    have hmem : ∀ {e}, e ∈ push (q.eventOf r) q.events → e = q.eventOf r ∨ e ∈ q.events := by
      intro e he
      exact List.mem_cons.mp ((push_perm _ _).mem_iff.mp he)
    refine ⟨push_topFirst h.top _, fun e he => ?_, fun e he => ?_, ?_⟩
    · rcases hmem he with rfl | he
      · exact eventOf_bound q r
      · exact h.bound e he
    · rcases hmem he with rfl | he
      · exact Nat.lt_succ_self _
      · exact Nat.lt_succ_of_lt (h.old e he)
    · have hperm := (push_perm (q.eventOf r) q.events).map Event.id
      rw [hperm.nodup_iff, List.map_cons, List.nodup_cons]
      refine ⟨fun hid => ?_, h.nodup⟩
      obtain ⟨e, he, heq⟩ := List.mem_map.mp hid
      exact absurd (h.old e he) (by rw [heq]; exact Nat.lt_irrefl _)
  next => exact h

theorem Ok.schedules (h : q.Ok) (rs : List Request) : (rs.foldl EventQueue.scheduleEvent q).Ok := by
  induction rs generalizing q with
  | nil => exact h
  | cons r rs ih => exact ih (h.scheduleEvent r)

theorem schedules_perm (rs : List Request) (q : EventQueue) :
    (rs.foldl scheduleEvent q).events.Perm (q.events ++ (q.made rs).map Prod.snd) := by
  induction rs generalizing q with
  | nil => simp [made]
  | cons r rs ih =>
    refine (ih (q.scheduleEvent r)).trans ?_
    rw [made]
    unfold scheduleEvent
    split
    next =>
      simp only [List.singleton_append, List.map_cons]
      exact ((push_perm _ _).append_right _).trans List.perm_middle.symm
    next => exact .refl _

theorem schedules_fields (rs : List Request) (q : EventQueue) :
    (rs.foldl scheduleEvent q).currentCycle = q.currentCycle ∧
      (rs.foldl scheduleEvent q).totalEvents = q.totalEvents ∧ q.nextId ≤ (rs.foldl scheduleEvent q).nextId := by
  induction rs generalizing q with
  | nil => exact ⟨rfl, rfl, Nat.le_refl _⟩
  | cons r rs ih =>
    obtain ⟨h₁, h₂, h₃⟩ := ih (q.scheduleEvent r)
    unfold scheduleEvent at h₁ h₂ h₃
    simp only [List.foldl_cons]
    unfold scheduleEvent
    split at h₁
    next hc =>
      simp only [if_pos hc] at h₂ h₃ ⊢
      exact ⟨h₁, h₂, by omega⟩
    next hc =>
      simp only [if_neg hc] at h₂ h₃ ⊢
      exact ⟨h₁, h₂, h₃⟩

/-- The events that requests become are new, and come by the rule for the past. -/
theorem mem_made {m : Request × Event} (hm : m ∈ q.made rs) :
    q.nextId ≤ m.2.id ∧ m.2.scheduledCycle =
      if m.1.cycle < q.currentCycle then (q.currentCycle + 1) % cycles else m.1.cycle := by
  induction rs generalizing q with
  | nil => cases hm
  | cons r rs ih =>
    rw [made] at hm
    rcases List.mem_append.mp hm with hm | hm
    · split at hm
      next =>
        obtain rfl := List.mem_singleton.mp hm
        exact ⟨Nat.le_refl _, rfl⟩
      next => cases hm
    · obtain ⟨hid, hcycle⟩ := ih hm
      have hf := schedules_fields [r] q
      simp only [List.foldl_cons, List.foldl_nil] at hf
      rw [hf.1] at hcycle
      exact ⟨Nat.le_trans hf.2.2 hid, hcycle⟩

/-- The top stays if nothing that is scheduled comes before it. -/
theorem schedules_head (hq : q.events = e :: l) (h : ∀ m ∈ q.made rs, e.lt m.2 = false) :
    ∃ l', (rs.foldl scheduleEvent q).events = e :: l' := by
  induction rs generalizing q l with
  | nil => exact ⟨l, hq⟩
  | cons r rs ih =>
    rw [made] at h
    by_cases hc : r.callback = true
    · have hpush : (q.scheduleEvent r).events = e :: q.eventOf r :: l := by
        have hlt := h (r, q.eventOf r) (by simp [hc])
        unfold scheduleEvent
        rw [if_pos hc]
        dsimp only
        rw [hq]
        exact push_head hlt
      exact ih hpush fun m hm => h m (List.mem_append_right _ hm)
    · have hsame : q.scheduleEvent r = q := by
        unfold scheduleEvent
        rw [if_neg hc]
      rw [List.foldl_cons, hsame]
      exact ih hq fun m hm => h m (List.mem_append_right _ (by rw [hsame]; exact hm))

/-! ## One turn -/

/-- What a turn does: `p` is popped. -/
structure TurnOf (q q' : EventQueue) (r : Ran) (p : Event) : Prop where
  head : ∃ l, q.events = r.event :: l
  queued : r.queued = q.events
  ok : q'.Ok
  popped : (p :: q'.events).Perm (q.events ++ r.made.map Prod.snd)
  before : ∀ x ∈ q.events ++ r.made.map Prod.snd, p.lt x = false
  inOrder : r.InOrder → p = r.event
  fresh : ∀ m ∈ r.made, q.nextId ≤ m.2.id ∧ m.2.id < q'.nextId
  cycle : ∀ m ∈ r.made, m.2.scheduledCycle =
    if m.1.cycle < r.event.scheduledCycle then (r.event.scheduledCycle + 1) % cycles else m.1.cycle
  next : q.nextId ≤ q'.nextId
  total : q'.totalEvents = q.totalEvents + 1
  gone : p.id < q'.nextId ∧ p.id ∉ q'.events.map Event.id

theorem turnOf_processTop (h : q.Ok) {ran : Ran} (hp : q.processTop t = some (q', ran)) : ∃ p, TurnOf q q' ran p := by
  unfold processTop at hp
  split at hp
  next => cases hp
  next e l hq =>
    dsimp only at hp
    split at hp
    next => cases hp
    next rest hrest =>
      obtain ⟨rfl, rfl⟩ := Prod.mk.inj (Option.some.inj hp)
      have hok : ({ q with currentCycle := e.scheduledCycle } : EventQueue).Ok := ⟨h.top, h.bound, h.old, h.nodup⟩
      have hok' := hok.schedules t.requests
      have hfields := schedules_fields t.requests { q with currentCycle := e.scheduledCycle }
      have hperm := schedules_perm t.requests { q with currentCycle := e.scheduledCycle }
      generalize hq₂ : t.requests.foldl scheduleEvent { q with currentCycle := e.scheduledCycle } = q₂ at *
      obtain ⟨p, r, hp, hr, htop⟩ := pop_perm hrest
      have hall : ∀ x ∈ rest, x ∈ q₂.events := fun x hx => by
        rw [hp]
        exact List.mem_cons_of_mem p (hr.mem_iff.mpr hx)
      have hnodup := hok'.nodup
      rw [hp, List.map_cons, List.nodup_cons, (hr.map Event.id).nodup_iff] at hnodup
      refine ⟨p, ⟨l, hq⟩, rfl, ⟨htop, fun x hx => hok'.bound x (hall x hx), fun x hx => hok'.old x (hall x hx),
        hnodup.2⟩, ?_, fun x hx => ?_, fun hin => ?_, fun m hm => ?_, fun m hm => ?_, hfields.2.2, ?_, ?_⟩
      · refine .trans ?_ hperm
        rw [hp]
        exact hr.symm.cons p
      · have hx₂ : x ∈ q₂.events := hperm.mem_iff.mpr hx
        rw [hp] at hx₂
        exact (hp ▸ hok'.top : TopFirst (p :: r)).le hx₂
      · obtain ⟨l', hl'⟩ := schedules_head (q := { q with currentCycle := e.scheduledCycle }) hq hin
        rw [hq₂, hp] at hl'
        exact (List.cons.inj hl').1
      · refine ⟨(mem_made hm).1, hok'.old m.2 (hperm.mem_iff.mpr (List.mem_append_right _ ?_))⟩
        exact List.mem_map_of_mem hm
      · exact (mem_made hm).2
      · exact congrArg (· + 1) hfields.2.1
      · refine ⟨hok'.old p (by rw [hp]; exact List.mem_cons_self), fun hid => hnodup.1 ?_⟩
        exact ((hr.map Event.id).mem_iff).mpr hid

namespace TurnOf

variable {ran : Ran}

theorem first (h : TurnOf q q' ran p) (hq : q.Ok) {x : Event} (hx : x ∈ q.events) : ran.event.lt x = false := by
  obtain ⟨l, hl⟩ := h.head
  rw [hl] at hx
  exact (hl ▸ hq.top : TopFirst (ran.event :: l)).le hx

theorem mem (h : TurnOf q q' ran p) : ran.event ∈ q.events := by
  obtain ⟨l, hl⟩ := h.head
  rw [hl]
  exact List.mem_cons_self

/-- A callback out of order: what is popped is one of the events it scheduled. -/
theorem popped_made (h : TurnOf q q' ran p) (hq : q.Ok) (hout : ¬ran.InOrder) : p ∈ ran.made.map Prod.snd := by
  unfold Ran.InOrder at hout
  push Not at hout
  obtain ⟨m, hm, hlt⟩ := hout
  have hmem : p ∈ q.events ++ ran.made.map Prod.snd := h.popped.mem_iff.mp List.mem_cons_self
  rcases List.mem_append.mp hmem with hold | hnew
  · -- an event that was queued would not come before `m`
    have hpm := h.before m.2 (List.mem_append_right _ (List.mem_map_of_mem hm))
    have := Event.lt_of_not_lt (by simpa using hlt) (h.first hq hold)
    rw [this] at hpm
    cases hpm
  · exact hnew

theorem ran_ok (h : TurnOf q q' ran p) (hq : q.Ok) (hin : ran.InOrder) : ran.Ok where
  first x hx hc := by
    rw [h.queued] at hx
    have := h.first hq hx
    rw [Event.not_lt_iff] at this
    omega
  past m hm := by
    have hcycle := h.cycle m hm
    have hle := Event.cycle_le (hin m hm)
    rw [hcycle] at hle ⊢
    split
    next hlt =>
      -- the cycle after does not wrap, or it would come before
      have hb := hq.bound _ h.mem
      rw [if_pos hlt] at hle
      refine Nat.mod_eq_of_lt ?_
      rcases Nat.lt_or_ge (ran.event.scheduledCycle + 1) cycles with hlt' | hge
      · exact hlt'
      · have heq : ran.event.scheduledCycle + 1 = cycles := by omega
        rw [heq, Nat.mod_self] at hle
        have : cycles ≤ 1 := by omega
        exact absurd this (by decide)
    next => rfl

end TurnOf

/-! ## A run -/

theorem processEvents_cons {out : EventQueue × List Ran} (h : processEvents n q (t :: ts) = some out) :
    q.stops n = false ∧ ∃ q₁ ran log, q.processTop t = some (q₁, ran) ∧ processEvents n q₁ ts = some (out.1, log) ∧
      out.2 = ran :: log := by
  rw [processEvents] at h
  split at h
  next => cases h
  next hs =>
    split at h
    next => cases h
    next q₁ ran hp =>
      obtain ⟨x, hx, rfl⟩ := Option.map_eq_some_iff.mp h
      exact ⟨by simpa using hs, q₁, ran, x.2, hp, hx, rfl⟩

theorem processEvents_nil {out : EventQueue × List Ran} (h : processEvents n q [] = some out) :
    q.stops n = true ∧ out.1.events = q.events ∧ out.1.totalEvents = q.totalEvents ∧ out.2 = [] := by
  rw [processEvents] at h
  split at h
  next hs =>
    obtain rfl := Option.some.inj h
    exact ⟨hs, rfl, rfl, rfl⟩
  next => cases h

theorem later_of_stops (h : q.Ok) (hs : q.stops n = true) {x : Event} (hx : x ∈ q.events) : n < x.scheduledCycle := by
  unfold stops at hs
  split at hs
  next heq =>
    rw [heq] at hx
    cases hx
  next e r heq =>
    have htop := (heq ▸ h.top : TopFirst (e :: r)).le (heq ▸ hx)
    have := Event.cycle_le htop
    have := of_decide_eq_true hs
    omega

theorem cycle_le_of_not_stops {ran : Ran} (hs : q.stops n = false) (h : TurnOf q q' ran p) :
    ran.event.scheduledCycle ≤ n := by
  obtain ⟨l, hl⟩ := h.head
  unfold stops at hs
  rw [hl] at hs
  simpa using hs

theorem never_ran (h : q.Ok) {i : Nat} (hi : i < q.nextId) (hgone : i ∉ q.events.map Event.id)
    (hrun : processEvents n q ts = some (q', log)) : ∀ r ∈ log, r.event.id ≠ i := by
  induction ts generalizing q log with
  | nil =>
    obtain ⟨_, _, _, hlog⟩ := processEvents_nil hrun
    obtain rfl : log = [] := hlog
    exact fun r hr => absurd hr List.not_mem_nil
  | cons t ts ih =>
    obtain ⟨_, q₁, ran, log', hp, hrest, hlog⟩ := processEvents_cons hrun
    obtain rfl : log = ran :: log' := hlog
    obtain ⟨p, hturn⟩ := turnOf_processTop h hp
    have hne : ran.event.id ≠ i := fun he => hgone (he ▸ List.mem_map_of_mem hturn.mem)
    have hgone' : i ∉ q₁.events.map Event.id := by
      intro hmem
      obtain ⟨x, hx, rfl⟩ := List.mem_map.mp hmem
      rcases List.mem_append.mp (hturn.popped.mem_iff.mp (List.mem_cons_of_mem p hx)) with hold | hnew
      · exact hgone (List.mem_map_of_mem hold)
      · obtain ⟨m, hm, rfl⟩ := List.mem_map.mp hnew
        have := (hturn.fresh m hm).1
        omega
    intro r hr
    rcases List.mem_cons.mp hr with rfl | hr
    · exact hne
    · exact ih hturn.ok (Nat.lt_of_lt_of_le hi hturn.next) hgone' hrest r hr

theorem eventsOf_cons (ran : Ran) (log : List Ran) :
    q.eventsOf (ran :: log) = (q.events ++ ran.made.map Prod.snd) ++ log.flatMap fun r => r.made.map Prod.snd := by
  simp [eventsOf]

/-- What is scheduled in a run is newer than what was queued before it. -/
theorem made_after (h : q.Ok) (hrun : processEvents n q ts = some (q', log)) {x : Event}
    (hx : x ∈ log.flatMap fun r => r.made.map Prod.snd) : q.nextId ≤ x.id := by
  induction ts generalizing q log with
  | nil =>
    obtain ⟨_, _, _, hlog⟩ := processEvents_nil hrun
    obtain rfl : log = [] := hlog
    cases hx
  | cons t ts ih =>
    obtain ⟨_, q₁, ran, log', hp, hrest, hlog⟩ := processEvents_cons hrun
    obtain rfl : log = ran :: log' := hlog
    obtain ⟨p, hturn⟩ := turnOf_processTop h hp
    rw [List.flatMap_cons] at hx
    rcases List.mem_append.mp hx with hx | hx
    · obtain ⟨m, hm, rfl⟩ := List.mem_map.mp hx
      exact (hturn.fresh m hm).1
    · exact Nat.le_trans hturn.next (ih hturn.ok hrest hx)

/-- What a callback out of order costs: an event that was due is never run. -/
theorem lost (h : q.Ok) (hrun : processEvents n q ts = some (q', log)) (hout : ¬∀ r ∈ log, r.InOrder) :
    ∃ d ∈ q.eventsOf log, d.scheduledCycle ≤ n ∧ ∀ r ∈ log, r.event.id ≠ d.id := by
  induction ts generalizing q log with
  | nil =>
    obtain ⟨_, _, _, hlog⟩ := processEvents_nil hrun
    obtain rfl : log = [] := hlog
    exact absurd (fun r hr => absurd hr List.not_mem_nil) hout
  | cons t ts ih =>
    obtain ⟨hs, q₁, ran, log', hp, hrest, hlog⟩ := processEvents_cons hrun
    obtain rfl : log = ran :: log' := hlog
    obtain ⟨p, hturn⟩ := turnOf_processTop h hp
    rw [eventsOf_cons]
    by_cases hin : ran.InOrder
    · -- the event that ran is popped, so the lost one is another
      have hout' : ¬∀ r ∈ log', r.InOrder := by
        intro hall
        refine hout fun r hr => ?_
        rcases List.mem_cons.mp hr with rfl | hr
        · exact hin
        · exact hall r hr
      obtain ⟨d, hd, hcycle, hnever⟩ := ih hturn.ok hrest hout'
      obtain rfl := hturn.inOrder hin
      have hmem : d ∈ q₁.events ∨ d ∈ log'.flatMap fun r => r.made.map Prod.snd := List.mem_append.mp hd
      refine ⟨d, ?_, hcycle, fun r hr => ?_⟩
      · rcases hmem with hold | hnew
        · exact List.mem_append_left _ (hturn.popped.mem_iff.mp (List.mem_cons_of_mem _ hold))
        · exact List.mem_append_right _ hnew
      · rcases List.mem_cons.mp hr with rfl | hr
        · rcases hmem with hold | hnew
          · exact fun he => hturn.gone.2 (he ▸ List.mem_map_of_mem hold)
          · have := made_after hturn.ok hrest hnew
            have := hturn.gone.1
            omega
        · exact hnever r hr
    · -- the one that came before is popped
      have hnew := hturn.popped_made h hin
      obtain ⟨m, hm, rfl⟩ := List.mem_map.mp hnew
      have hlt := Event.cycle_le (hturn.before ran.event (List.mem_append_left _ hturn.mem))
      have hle := cycle_le_of_not_stops hs hturn
      refine ⟨m.2, List.mem_append_left _ (List.mem_append_right _ hnew), by omega, fun r hr => ?_⟩
      rcases List.mem_cons.mp hr with rfl | hr
      · have := h.old _ hturn.mem
        have := (hturn.fresh m hm).1
        omega
      · exact never_ran hturn.ok hturn.gone.1 hturn.gone.2 hrest r hr

/-- In order, nothing runs before what is queued at the start. -/
theorem from_start (h : q.Ok) (hrun : processEvents n q ts = some (q', log)) (hall : ∀ r ∈ log, r.InOrder) {b : Nat}
    (hb : ∀ x ∈ q.events, b ≤ x.scheduledCycle) : ∀ r ∈ log, b ≤ r.event.scheduledCycle := by
  induction ts generalizing q log with
  | nil =>
    obtain ⟨_, _, _, hlog⟩ := processEvents_nil hrun
    obtain rfl : log = [] := hlog
    exact fun r hr => absurd hr List.not_mem_nil
  | cons t ts ih =>
    obtain ⟨_, q₁, ran, log', hp, hrest, hlog⟩ := processEvents_cons hrun
    obtain rfl : log = ran :: log' := hlog
    obtain ⟨p, hturn⟩ := turnOf_processTop h hp
    have hb₁ : ∀ x ∈ q₁.events, b ≤ x.scheduledCycle := by
      intro x hx
      rcases List.mem_append.mp (hturn.popped.mem_iff.mp (List.mem_cons_of_mem p hx)) with hold | hnew
      · exact hb x hold
      · obtain ⟨m, hm, rfl⟩ := List.mem_map.mp hnew
        exact Nat.le_trans (hb _ hturn.mem) (Event.cycle_le (hall ran List.mem_cons_self m hm))
    intro r hr
    rcases List.mem_cons.mp hr with rfl | hr
    · exact hb _ hturn.mem
    · exact ih hturn.ok hrest (fun r hr => hall r (List.mem_cons_of_mem ran hr)) hb₁ r hr

theorem processed_of_inOrder (h : q.Ok) (hrun : processEvents n q ts = some (q', log)) (hall : ∀ r ∈ log, r.InOrder) :
    Processed n q q' log := by
  induction ts generalizing q log with
  | nil =>
    obtain ⟨hs, hevents, htotal, hlog⟩ := processEvents_nil hrun
    obtain rfl : log = [] := hlog
    have hlater : ∀ x ∈ q.events, n < x.scheduledCycle := fun x hx => later_of_stops h hs hx
    refine ⟨?_, ?_, .nil, fun r hr => absurd hr List.not_mem_nil, htotal⟩
    · have hnone : (q.eventsOf []).filter (·.scheduledCycle ≤ n) = [] := by
        refine List.filter_eq_nil_iff.mpr fun x hx => ?_
        have := hlater x (by simpa [eventsOf] using hx)
        simpa using this
      rw [hnone]
      exact .refl _
    · have hevery : (q.eventsOf []).filter (n < ·.scheduledCycle) = q.events := by
        simp only [eventsOf, List.flatMap_nil, List.append_nil]
        exact List.filter_eq_self.mpr fun x hx => decide_eq_true (hlater x hx)
      rw [hevery]
      exact .of_eq hevents
  | cons t ts ih =>
    obtain ⟨hs, q₁, ran, log', hp, hrest, hlog⟩ := processEvents_cons hrun
    obtain rfl : log = ran :: log' := hlog
    obtain ⟨p, hturn⟩ := turnOf_processTop h hp
    have hin := hall ran List.mem_cons_self
    have hall' : ∀ r ∈ log', r.InOrder := fun r hr => hall r (List.mem_cons_of_mem ran hr)
    obtain rfl := hturn.inOrder hin
    obtain ⟨honce, hleft, horder, hran, htotal⟩ := ih hturn.ok hrest hall'
    have hdue := cycle_le_of_not_stops hs hturn
    -- all events: the one that ran, and all of the rest of the run
    have hevents : (q.eventsOf (ran :: log')).Perm (ran.event :: q₁.eventsOf log') := by
      rw [eventsOf_cons]
      exact hturn.popped.symm.append_right _
    refine ⟨?_, ?_, ?_, ?_, ?_⟩
    · refine .trans ?_ (hevents.filter _).symm
      rw [List.filter_cons_of_pos (by simpa using hdue), List.map_cons]
      exact honce.cons _
    · refine .trans hleft (.trans ?_ (hevents.filter _).symm)
      rw [List.filter_cons_of_neg (by simpa using hdue)]
    · rw [List.map_cons, List.pairwise_cons]
      refine ⟨fun c hc => ?_, horder⟩
      obtain ⟨r, hr, rfl⟩ := List.mem_map.mp hc
      refine from_start hturn.ok hrest hall' (fun x hx => ?_) r hr
      exact Event.cycle_le (hturn.before x (hturn.popped.mem_iff.mp (List.mem_cons_of_mem _ hx)))
    · intro r hr
      rcases List.mem_cons.mp hr with rfl | hr
      · exact hturn.ran_ok h hin
      · exact hran r hr
    · rw [htotal, hturn.total, List.length_cons]
      omega

theorem processed_iff (h : q.Ok) (hrun : processEvents n q ts = some (q', log)) :
    Processed n q q' log ↔ ∀ r ∈ log, r.InOrder := by
  refine ⟨fun hp => ?_, processed_of_inOrder h hrun⟩
  by_contra hout
  obtain ⟨d, hd, hcycle, hnever⟩ := lost h hrun hout
  have hmem : d ∈ log.map Ran.event := hp.once.mem_iff.mpr (List.mem_filter.mpr ⟨hd, by simpa using hcycle⟩)
  obtain ⟨r, hr, rfl⟩ := List.mem_map.mp hmem
  exact hnever r hr rfl

theorem processedNext_iff (h : q.Ok) {ran : Ran} (hp : q.processNextEvent t = some (q', ran)) :
    ProcessedNext q q' ran ↔ ran.InOrder := by
  obtain ⟨p, hturn⟩ := turnOf_processTop h hp
  have hevents : q.eventsOf [ran] = q.events ++ ran.made.map Prod.snd := by simp [eventsOf]
  constructor
  · intro hn
    by_contra hin
    -- the same queue is left, so it is the event that ran that was popped
    have hperm : ([p] ++ q'.events).Perm ([ran.event] ++ q'.events) :=
      hturn.popped.trans (hevents ▸ hn.once.symm)
    have heq := List.singleton_perm_singleton.mp ((List.perm_append_right_iff _).mp hperm)
    obtain ⟨m, hm, hmp⟩ := List.mem_map.mp (hturn.popped_made h hin)
    have := (hturn.fresh m hm).1
    have := h.old _ hturn.mem
    rw [hmp, heq] at *
    omega
  · intro hin
    obtain rfl := hturn.inOrder hin
    exact ⟨by rw [hevents]; exact hturn.popped, fun x hx => Event.cycle_le (hturn.first h hx), hturn.ran_ok h hin,
      hturn.total⟩

/-- **The event queue.** After any requests, a run of `processEvents` that stops, and a
call of `processNextEvent`, do what they are for if and only if no callback schedules an
event that comes before the one it is called for. -/
theorem event_runs (rs : List Request) :
    (∀ n ts q' log, processEvents n (rs.foldl scheduleEvent init) ts = some (q', log) →
      (Processed n (rs.foldl scheduleEvent init) q' log ↔ ∀ r ∈ log, r.InOrder)) ∧
    ∀ t q' ran, processNextEvent (rs.foldl scheduleEvent init) t = some (q', ran) →
      (ProcessedNext (rs.foldl scheduleEvent init) q' ran ↔ ran.InOrder) :=
  ⟨fun _ _ _ _ h => processed_iff (ok_init.schedules rs) h, fun _ _ _ h => processedNext_iff (ok_init.schedules rs) h⟩

/-- A callback schedules a second event two cycles later, and both are run. -/
theorem event_runs_later :
    ∃ q' log, processEvents 9 ([⟨5, 1, true, by decide⟩].foldl scheduleEvent init)
        [⟨[⟨7, 2, true, by decide⟩], 0⟩, ⟨[], 0⟩] = some (q', log) ∧
      Processed 9 ([⟨5, 1, true, by decide⟩].foldl scheduleEvent init) q' log := by
  refine ⟨_, _, rfl, ((event_runs _).1 9 [⟨[⟨7, 2, true, by decide⟩], 0⟩, ⟨[], 0⟩] _ _ rfl).mpr
    fun r hr => ?_⟩
  simp only [List.mem_cons, List.not_mem_nil, or_false] at hr
  rcases hr with rfl | rfl <;> (unfold Ran.InOrder; decide)

/-- For the same cycle and with a higher priority it is popped unrun, and the first runs twice. -/
theorem event_popped_unrun :
    ∃ q' log, processEvents 9 ([⟨5, 1, true, by decide⟩].foldl scheduleEvent init)
        [⟨[⟨5, 2, true, by decide⟩], 0⟩, ⟨[], 0⟩] = some (q', log) ∧
      log.map (Event.id ∘ Ran.event) = [0, 0] ∧ q'.events = [] ∧
      ¬Processed 9 ([⟨5, 1, true, by decide⟩].foldl scheduleEvent init) q' log := by
  refine ⟨_, _, rfl, rfl, rfl, fun h => ?_⟩
  have hlen := h.once.mem_iff (a := ⟨1, 5, 2⟩)
  revert hlen
  decide

end EventQueue

end Pimid.Sim
