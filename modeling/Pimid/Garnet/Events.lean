import Pimid.Lib.Machine
import Mathlib.Data.Finset.Max
import Mathlib.Data.List.Sort
import Mathlib.Data.Prod.Lex
import Mathlib.Logic.Function.Basic
import Mathlib.Order.Bounds.Basic

/-!
# The event kernel

`EventQueue` with lazy descheduling, and the `Consumer` on top of it: a set of ticks
it is to be woken at, and one event, scheduled for the first of them. The heap is kept
as the list of its entries in the order they would be popped. `wakeup()` is whatever
calls it makes.

The log is not in the source: it notes every tick that becomes pending, every wakeup
and every set of ticks that is cleared.
-/

namespace Pimid.Garnet

open Function (update update_apply update_of_ne update_self)

/-- A heap entry: a snapshot of the event's tick and priority, and its number. -/
structure QEntry (C : Type) where
  when : Nat
  pri : Int
  seq : Nat
  e : C

/-- Earliest first, then lower priority value, then first come. -/
def QEntry.key {C : Type} (q : QEntry C) : Nat ×ₗ Int ×ₗ Nat := toLex (q.when, toLex (q.pri, q.seq))

inductive KernelEvent (C : Type) where
  | armed (c : C) (t : Nat)
  | woke (c : C) (t : Nat)
  | cleared (c : C) (ticks : Finset Nat)
deriving DecidableEq

structure Kernel (C : Type) where
  curTick : Nat
  wakeupTicks : C → Finset Nat
  -- the consumer's `wakeupEvent_`
  isScheduled : C → Bool
  when : C → Nat
  events : List (QEntry C)
  seq : Nat
  log : List (KernelEvent C)

/-- What can be called from outside, and from a `wakeup()`. -/
inductive Call (C : Type) where
  | scheduleEventAbsolute (c : C) (t : Nat)
  | clearSchedule (c : C)
  | clear

/-- `processOneEvent` comes with the calls of the wakeup it runs. -/
inductive KernelOp (C : Type) where
  | call (k : Call C)
  | processOneEvent (wakeup : List (Call C))

namespace Kernel

section Model

variable {C : Type} [DecidableEq C]

def init : Kernel C where
  curTick := 0
  wakeupTicks _ := ∅
  isScheduled _ := false
  when _ := 0
  events := []
  seq := 0
  log := []

/-- `EventQueue::schedule` -/
def schedule (pri : C → Int) (s : Kernel C) (c : C) (when : Nat) : Kernel C :=
  { s with
    when := update s.when c when
    isScheduled := update s.isScheduled c true
    events := s.events.orderedInsert (fun a b => a.key ≤ b.key) ⟨when, pri c, s.seq, c⟩
    seq := s.seq + 1 }

/-- Lazy: the heap entry stays. -/
def deschedule (s : Kernel C) (c : C) : Kernel C :=
  { s with isScheduled := update s.isScheduled c false }

def entryLive (s : Kernel C) (q : QEntry C) : Bool :=
  s.isScheduled q.e && s.when q.e == q.when

/-- `*wakeupTicks_.begin()` -/
def nextTick (s : Kernel C) (c : C) : Option Nat :=
  if h : (s.wakeupTicks c).Nonempty then some ((s.wakeupTicks c).min' h) else none

def scheduleNextWakeup (pri : C → Int) (s : Kernel C) (c : C) : Kernel C :=
  match s.nextTick c with
  | none => s
  | some nextTime =>
    if s.isScheduled c = false then s.schedule pri c nextTime
    else if nextTime < s.when c then (s.deschedule c).schedule pri c nextTime
    else s

def scheduleEventAbsolute (pri : C → Int) (s : Kernel C) (c : C) (timeAbs : Nat) : Kernel C :=
  if timeAbs ∈ s.wakeupTicks c then s
  else
    { s with
      wakeupTicks := update s.wakeupTicks c (insert timeAbs (s.wakeupTicks c))
      log := s.log ++ [KernelEvent.armed c timeAbs] }.scheduleNextWakeup pri c

def clearSchedule (s : Kernel C) (c : C) : Kernel C :=
  let s' : Kernel C :=
    { s with
      wakeupTicks := update s.wakeupTicks c ∅
      log := s.log ++ [.cleared c (s.wakeupTicks c)] }
  if s.isScheduled c then s'.deschedule c else s'

/-- `EventQueue::clear` -/
def clear (s : Kernel C) : Kernel C := { s with events := [] }

def call (pri : C → Int) (s : Kernel C) : Call C → Kernel C
  | .scheduleEventAbsolute c t => s.scheduleEventAbsolute pri c t
  | .clearSchedule c => s.clearSchedule c
  | .clear => s.clear

/-- The first live entry, with what is left in the heap once it is popped. -/
def popLive (s : Kernel C) : List (QEntry C) → Option (QEntry C × List (QEntry C))
  | [] => none
  | q :: qs => if s.entryLive q then some (q, qs) else popLive s qs

/-- The event of an entry fires: the clock is there, and this tick and all before it are no longer pending. -/
def fire (s : Kernel C) (top : QEntry C) (rest : List (QEntry C)) : Kernel C :=
  { s with
    events := rest
    curTick := top.when
    isScheduled := update s.isScheduled top.e false
    wakeupTicks := update s.wakeupTicks top.e ((s.wakeupTicks top.e).filter (top.when < ·))
    log := s.log ++ [.woke top.e top.when] }

def processOneEvent (pri : C → Int) (s : Kernel C) (wakeup : List (Call C)) : Kernel C :=
  match s.popLive s.events with
  | none => { s with events := [] }
  | some (top, rest) => (wakeup.foldl (call pri) (s.fire top rest)).scheduleNextWakeup pri top.e

def step (pri : C → Int) (s : Kernel C) : KernelOp C → Kernel C
  | .call k => s.call pri k
  | .processOneEvent wakeup => s.processOneEvent pri wakeup

/-- No tick is requested in the past, and the queue is cleared only when every consumer's schedule is. -/
def CallAllowed (s : Kernel C) : Call C → Prop
  | .scheduleEventAbsolute _ t => s.curTick ≤ t
  | .clearSchedule _ => True
  | .clear => ∀ c, s.wakeupTicks c = ∅ ∧ s.isScheduled c = false

def Allowed (pri : C → Int) (s : Kernel C) : KernelOp C → Prop
  | .call k => s.CallAllowed k
  | .processOneEvent wakeup => ∀ top rest, s.popLive s.events = some (top, rest) →
      Along (call pri) CallAllowed (s.fire top rest) wakeup

end Model

/-! ## The invariant -/

section Invariant

variable {C : Type} {s : Kernel C} {c : C} {t : Nat}

/-- A scheduled event is in the heap, for its consumer's first tick. -/
structure Live (s : Kernel C) : Prop where
  sorted : s.events.Pairwise fun a b => a.key ≤ b.key
  entry : ∀ c, s.isScheduled c = true → ∃ q ∈ s.events, q.e = c ∧ q.when = s.when c
  first : ∀ c, s.isScheduled c = true → IsLeast (s.wakeupTicks c : Set Nat) (s.when c)
  future : ∀ c, ∀ t ∈ s.wakeupTicks c, s.curTick ≤ t

/-- Every consumer with a pending tick is scheduled, but for the one whose wakeup is running. -/
structure Ready (busy : Option C) (s : Kernel C) : Prop extends Live s where
  armed : ∀ c, busy ≠ some c → (s.wakeupTicks c).Nonempty → s.isScheduled c = true

/-- Before `scheduleNextWakeup` of `c`: its event may be scheduled late, or not at all. -/
structure Nearly (busy : Option C) (c : C) (s : Kernel C) : Prop where
  sorted : s.events.Pairwise fun a b => a.key ≤ b.key
  entry : ∀ c, s.isScheduled c = true → ∃ q ∈ s.events, q.e = c ∧ q.when = s.when c
  first : ∀ c', c' ≠ c → s.isScheduled c' = true → IsLeast (s.wakeupTicks c' : Set Nat) (s.when c')
  mem : s.isScheduled c = true → s.when c ∈ s.wakeupTicks c
  future : ∀ c, ∀ t ∈ s.wakeupTicks c, s.curTick ≤ t
  armed : ∀ c', c' ≠ c → busy ≠ some c' → (s.wakeupTicks c').Nonempty → s.isScheduled c' = true

theorem nextTick_eq_some {n : Nat} : s.nextTick c = some n ↔ IsLeast (s.wakeupTicks c : Set Nat) n := by
  unfold nextTick
  constructor
  · intro h
    split at h
    · cases h
      exact Finset.isLeast_min' _ _
    · cases h
  · intro h
    have hne : (s.wakeupTicks c).Nonempty := ⟨n, h.1⟩
    rw [dif_pos hne, (Finset.isLeast_min' _ hne).unique h]

theorem nextTick_eq_none : s.nextTick c = none ↔ s.wakeupTicks c = ∅ := by
  unfold nextTick
  constructor
  · intro h
    split at h
    · cases h
    · next hne => exact Finset.not_nonempty_iff_eq_empty.mp hne
  · intro h
    rw [dif_neg (by rw [h]; exact Finset.not_nonempty_empty)]

theorem when_le_of_key {a b : QEntry C} (h : a.key ≤ b.key) : a.when ≤ b.when := by
  rcases Prod.Lex.le_iff.mp h with h | ⟨h, -⟩
  · exact Nat.le_of_lt h
  · exact Nat.le_of_eq h

theorem entryLive_iff {q : QEntry C} : s.entryLive q = true ↔ s.isScheduled q.e = true ∧ s.when q.e = q.when := by
  unfold entryLive
  rw [Bool.and_eq_true, beq_iff_eq]

theorem ready_init : Ready none (init : Kernel C) where
  sorted := List.Pairwise.nil
  entry _ h := by cases h
  first _ h := by cases h
  future _ _ h := by cases h
  armed _ _ h := by
    obtain ⟨t, ht⟩ := h
    cases ht

theorem popLive_spec {l rest : List (QEntry C)} {top : QEntry C} (h : s.popLive l = some (top, rest)) :
    s.entryLive top = true ∧ ∃ stale, l = stale ++ top :: rest ∧ ∀ q ∈ stale, s.entryLive q = false := by
  induction l with
  | nil => cases h
  | cons q l ih =>
    rw [popLive] at h
    split at h
    · next hl =>
      cases h
      exact ⟨hl, [], rfl, nofun⟩
    · next hl =>
      obtain ⟨hlive, stale, rfl, hstale⟩ := ih h
      refine ⟨hlive, q :: stale, rfl, fun q' hq' => ?_⟩
      rcases List.mem_cons.mp hq' with rfl | hq'
      · exact Bool.eq_false_iff.mpr hl
      · exact hstale q' hq'

theorem popLive_none {l : List (QEntry C)} (h : s.popLive l = none) : ∀ q ∈ l, s.entryLive q = false := by
  induction l with
  | nil => exact nofun
  | cons q l ih =>
    rw [popLive] at h
    split at h
    · cases h
    · next hl =>
      intro q' hq'
      rcases List.mem_cons.mp hq' with rfl | hq'
      · exact Bool.eq_false_iff.mpr hl
      · exact ih h q' hq'

theorem Ready.earliest (h : Ready none s) {top : QEntry C} {rest : List (QEntry C)}
    (hpop : s.popLive s.events = some (top, rest)) :
    s.isScheduled top.e = true ∧ s.when top.e = top.when ∧ ∀ c, ∀ t ∈ s.wakeupTicks c, top.when ≤ t := by
  obtain ⟨hlive, stale, hsplit, hstale⟩ := popLive_spec hpop
  obtain ⟨hs, hw⟩ := entryLive_iff.mp hlive
  refine ⟨hs, hw, fun c t ht => ?_⟩
  have hsc := h.armed c nofun ⟨t, ht⟩
  obtain ⟨q, hq, hqe, hqw⟩ := h.entry c hsc
  have hle : s.when c ≤ t := (h.first c hsc).2 ht
  have hsorted := h.sorted
  rw [hsplit] at hq hsorted
  rcases List.mem_append.mp hq with hq | hq
  · -- a live entry is not skipped
    have hnot := hstale q hq
    have : s.entryLive q = true := entryLive_iff.mpr ⟨hqe ▸ hsc, hqe ▸ hqw.symm⟩
    rw [hnot] at this
    cases this
  · rcases List.mem_cons.mp hq with rfl | hq
    · omega
    · have := when_le_of_key ((List.pairwise_cons.mp (List.pairwise_append.mp hsorted).2.1).1 q hq)
      omega

end Invariant

/-! ## What the operations keep -/

section Keeps

variable {C : Type} [DecidableEq C] {pri : C → Int} {s : Kernel C} {c : C} {t : Nat} {busy : Option C}

theorem Nearly.schedule (h : Nearly busy c s) {n : Nat} (hn : IsLeast (s.wakeupTicks c : Set Nat) n) :
    Ready busy (s.schedule pri c n) where
  sorted := List.Pairwise.orderedInsert _ _ h.sorted
  entry c' hc' := by
    by_cases he : c' = c
    · subst he
      refine ⟨⟨n, pri c', s.seq, c'⟩, (List.mem_orderedInsert _).mpr (.inl rfl), rfl, ?_⟩
      show n = update s.when c' n c'
      rw [update_self]
    · have hs : s.isScheduled c' = true := by
        rw [← hc']
        exact (update_of_ne he ..).symm
      obtain ⟨q, hq, hqe, hqw⟩ := h.entry c' hs
      refine ⟨q, (List.mem_orderedInsert _).mpr (.inr hq), hqe, hqw.trans ?_⟩
      exact (update_of_ne he ..).symm
  first c' hc' := by
    show IsLeast (s.wakeupTicks c' : Set Nat) (update s.when c n c')
    by_cases he : c' = c
    · rw [he, update_self]
      exact hn
    · rw [update_of_ne he]
      refine h.first c' he ?_
      rw [← hc']
      exact (update_of_ne he ..).symm
  future := h.future
  armed c' hb hne := by
    show update s.isScheduled c true c' = true
    by_cases he : c' = c
    · rw [he, update_self]
    · rw [update_of_ne he]
      exact h.armed c' he hb hne

theorem Nearly.next (h : Nearly busy c s) : Ready busy (s.scheduleNextWakeup pri c) := by
  unfold scheduleNextWakeup
  split
  · next hnone =>
    -- nothing is pending, so the event is not scheduled either
    have hempty := nextTick_eq_none.mp hnone
    have hnot : s.isScheduled c ≠ true := by
      intro hs
      have := h.mem hs
      rw [hempty] at this
      cases this
    refine ⟨⟨h.sorted, h.entry, fun c' hc' => ?_, h.future⟩, fun c' hb hne => ?_⟩
    · exact h.first c' (fun he => hnot (he ▸ hc')) hc'
    · refine h.armed c' (fun he => ?_) hb hne
      rw [he, hempty] at hne
      exact Finset.not_nonempty_empty hne
  · next n hsome =>
    have hleast := nextTick_eq_some.mp hsome
    split
    · exact h.schedule hleast
    · next hs =>
      have hs := Bool.not_eq_false _ ▸ hs
      split
      · have hdown : Nearly busy c (s.deschedule c) := by
          refine ⟨h.sorted, fun c' hc' => ?_, fun c' he hc' => ?_, fun hc => ?_, h.future, fun c' he hb hne => ?_⟩
          · have he : c' ≠ c := by
              intro he
              have : update s.isScheduled c false c' = true := hc'
              rw [he, update_self] at this
              cases this
            have hc'' : update s.isScheduled c false c' = true := hc'
            rw [update_of_ne he] at hc''
            exact h.entry c' hc''
          · have hc'' : update s.isScheduled c false c' = true := hc'
            rw [update_of_ne he] at hc''
            exact h.first c' he hc''
          · have : update s.isScheduled c false c = true := hc
            rw [update_self] at this
            cases this
          · show update s.isScheduled c false c' = true
            rw [update_of_ne he]
            exact h.armed c' he hb hne
        exact hdown.schedule hleast
      · next hge =>
        -- it is scheduled for a pending tick, none is earlier
        have hmem := h.mem hs
        have heq : s.when c = n := Nat.le_antisymm (Nat.le_of_not_lt hge) (hleast.2 hmem)
        refine ⟨⟨h.sorted, h.entry, fun c' hc' => ?_, h.future⟩, fun c' hb hne => ?_⟩
        · by_cases he : c' = c
          · rw [he, heq]
            exact hleast
          · exact h.first c' he hc'
        · by_cases he : c' = c
          · rw [he]
            exact hs
          · exact h.armed c' he hb hne

theorem Ready.done (h : Ready (some c) s) : Ready none (s.scheduleNextWakeup pri c) := by
  refine Nearly.next ⟨h.sorted, h.entry, fun c' _ => h.first c', fun hs => (h.first c hs).1, h.future, ?_⟩
  intro c' he _ hne
  refine h.armed c' (fun hc => he ?_) hne
  exact (Option.some.inj hc).symm

theorem Ready.scheduleEventAbsolute (h : Ready busy s) (ht : s.curTick ≤ t) :
    Ready busy (s.scheduleEventAbsolute pri c t) := by
  unfold Kernel.scheduleEventAbsolute
  split
  · exact h
  · have hticks {c' : C} (he : c' ≠ c) : update s.wakeupTicks c (insert t (s.wakeupTicks c)) c' = s.wakeupTicks c' :=
      update_of_ne he ..
    have hself : update s.wakeupTicks c (insert t (s.wakeupTicks c)) c = insert t (s.wakeupTicks c) :=
      update_self ..
    refine Nearly.next ⟨h.sorted, h.entry, fun c' he hs => ?_, fun hs => ?_, fun c' t' ht' => ?_, fun c' he hb hne => ?_⟩
    · show IsLeast (update s.wakeupTicks c _ c' : Set Nat) _
      rw [hticks he]
      exact h.first c' hs
    · show s.when c ∈ update s.wakeupTicks c _ c
      rw [hself]
      exact Finset.mem_insert_of_mem (h.first c hs).1
    · have ht'' : t' ∈ update s.wakeupTicks c (insert t (s.wakeupTicks c)) c' := ht'
      by_cases he : c' = c
      · rw [he, hself] at ht''
        rcases Finset.mem_insert.mp ht'' with rfl | hmem
        · exact ht
        · exact h.future c t' hmem
      · rw [hticks he] at ht''
        exact h.future c' t' ht''
    · have hne' : (update s.wakeupTicks c (insert t (s.wakeupTicks c)) c').Nonempty := hne
      rw [hticks he] at hne'
      exact h.armed c' hb hne'

theorem clearSchedule_isScheduled (s : Kernel C) (c c' : C) :
    (s.clearSchedule c).isScheduled c' = if c' = c then false else s.isScheduled c' := by
  unfold clearSchedule
  dsimp only
  split
  · exact update_apply ..
  · next hs =>
    split
    · next he =>
      rw [he]
      exact Bool.eq_false_iff.mpr hs
    · rfl

theorem clearSchedule_rest (s : Kernel C) (c : C) :
    (s.clearSchedule c).wakeupTicks = update s.wakeupTicks c ∅ ∧ (s.clearSchedule c).events = s.events ∧
      (s.clearSchedule c).when = s.when ∧ (s.clearSchedule c).curTick = s.curTick ∧
      (s.clearSchedule c).log = s.log ++ [.cleared c (s.wakeupTicks c)] := by
  unfold clearSchedule
  dsimp only
  split
  · exact ⟨rfl, rfl, rfl, rfl, rfl⟩
  · exact ⟨rfl, rfl, rfl, rfl, rfl⟩

theorem Ready.clearSchedule (h : Ready busy s) : Ready busy (s.clearSchedule c) := by
  obtain ⟨hticks, hevents, hwhen, hcur, -⟩ := clearSchedule_rest s c
  have hother {c' : C} (hs : (s.clearSchedule c).isScheduled c' = true) : c' ≠ c ∧ s.isScheduled c' = true := by
    rw [clearSchedule_isScheduled] at hs
    split at hs
    · cases hs
    · next he => exact ⟨he, hs⟩
  refine ⟨⟨hevents ▸ h.sorted, fun c' hs => ?_, fun c' hs => ?_, fun c' t' ht' => ?_⟩, fun c' hb hne => ?_⟩
  · rw [hevents, hwhen]
    exact h.entry c' (hother hs).2
  · rw [hticks, hwhen, update_of_ne (hother hs).1]
    exact h.first c' (hother hs).2
  · rw [hticks] at ht'
    rw [hcur]
    by_cases he : c' = c
    · rw [he, update_self] at ht'
      cases ht'
    · rw [update_of_ne he] at ht'
      exact h.future c' t' ht'
  · rw [hticks] at hne
    by_cases he : c' = c
    · rw [he, update_self] at hne
      exact absurd hne Finset.not_nonempty_empty
    · rw [update_of_ne he] at hne
      rw [clearSchedule_isScheduled, if_neg he]
      exact h.armed c' hb hne

theorem Ready.call (h : Ready busy s) {k : Call C} (hk : s.CallAllowed k) : Ready busy (s.call pri k) := by
  cases k with
  | scheduleEventAbsolute c t => exact h.scheduleEventAbsolute hk
  | clearSchedule c => exact h.clearSchedule
  | clear =>
    refine ⟨⟨List.Pairwise.nil, fun c hs => ?_, h.first, h.future⟩, h.armed⟩
    have : s.isScheduled c = true := hs
    rw [(hk c).2] at this
    cases this

theorem Ready.fire (h : Ready none s) {top : QEntry C} {rest : List (QEntry C)}
    (hpop : s.popLive s.events = some (top, rest)) : Ready (some top.e) (s.fire top rest) := by
  obtain ⟨hlive, stale, hsplit, hstale⟩ := popLive_spec hpop
  obtain ⟨hs, hw, hearliest⟩ := h.earliest hpop
  have hother {c : C} (hc : (s.fire top rest).isScheduled c = true) : c ≠ top.e ∧ s.isScheduled c = true := by
    have hc' : update s.isScheduled top.e false c = true := hc
    rw [update_apply] at hc'
    split at hc'
    · cases hc'
    · next he => exact ⟨he, hc'⟩
  have hticks {c : C} (he : c ≠ top.e) : (s.fire top rest).wakeupTicks c = s.wakeupTicks c := update_of_ne he ..
  have hsorted := h.sorted
  rw [hsplit] at hsorted
  refine ⟨⟨?_, fun c hc => ?_, fun c hc => ?_, fun c t ht => ?_⟩, fun c hb hne => ?_⟩
  · exact (List.pairwise_cons.mp (List.pairwise_append.mp hsorted).2.1).2
  · obtain ⟨he, hc⟩ := hother hc
    obtain ⟨q, hq, hqe, hqw⟩ := h.entry c hc
    refine ⟨q, ?_, hqe, hqw⟩
    rw [hsplit] at hq
    rcases List.mem_append.mp hq with hq | hq
    · have hnot := hstale q hq
      have : s.entryLive q = true := entryLive_iff.mpr ⟨hqe ▸ hc, hqe ▸ hqw.symm⟩
      rw [hnot] at this
      cases this
    · rcases List.mem_cons.mp hq with rfl | hq
      · exact absurd hqe.symm he
      · exact hq
  · obtain ⟨he, hc⟩ := hother hc
    rw [hticks he]
    exact h.first c hc
  · show top.when ≤ t
    by_cases he : c = top.e
    · have ht' : t ∈ update s.wakeupTicks top.e ((s.wakeupTicks top.e).filter (top.when < ·)) c := ht
      rw [he, update_self] at ht'
      exact Nat.le_of_lt (Finset.mem_filter.mp ht').2
    · rw [hticks he] at ht
      exact hearliest c t ht
  · have he : c ≠ top.e := fun he => hb (congrArg some he.symm)
    rw [hticks he] at hne
    show update s.isScheduled top.e false c = true
    rw [update_of_ne he]
    exact h.armed c nofun hne

theorem Ready.step (h : Ready none s) {a : KernelOp C} (ha : s.Allowed pri a) : Ready none (s.step pri a) := by
  cases a with
  | call k => exact h.call ha
  | processOneEvent wakeup =>
    show Ready none (s.processOneEvent pri wakeup)
    unfold processOneEvent
    split
    · next hnone =>
      refine ⟨⟨List.Pairwise.nil, fun c hs => ?_, h.first, h.future⟩, h.armed⟩
      have hs : s.isScheduled c = true := hs
      obtain ⟨q, hq, hqe, hqw⟩ := h.entry c hs
      have hnot := popLive_none hnone q hq
      have : s.entryLive q = true := entryLive_iff.mpr ⟨hqe ▸ hs, hqe ▸ hqw.symm⟩
      rw [hnot] at this
      cases this
    · next top rest hpop =>
      have hbody : Ready (some top.e) (wakeup.foldl (Kernel.call pri) (s.fire top rest)) :=
        (ha top rest hpop).keeps (fun _ _ hi hk => hi.call hk) (h.fire hpop)
      exact hbody.done

end Keeps

end Kernel

end Pimid.Garnet
