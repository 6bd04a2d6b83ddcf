import Pimid.Noc.BatchDrain

/-!
# Visits that take nothing

The drain skips a visit of the buffers before `minReady`. `Bounded` says that `minReady` is
at most the ready time of every destination's front message: an enqueue lowers it through
the hook, and a visit computes it anew while its own dequeues may enqueue more. So a visit
that is skipped would have found nothing, and the drain goes on as if it had been made.
-/

namespace Pimid.Noc

variable {σ : Type}

namespace MessageBuffer

variable {b : MessageBuffer} {t : Nat}

/-- The front after an enqueue is the old one or the new message. -/
theorem readyTime_enqueue (b : MessageBuffer) (msg : SimpleMessage) (current delta : Nat) :
    (b.enqueue msg current delta).readyTime = b.readyTime ∨ (b.enqueue msg current delta).readyTime = current + delta := by
  cases hb : b.buffer with
  | nil =>
    right
    unfold enqueue
    split <;> simp [readyTime, hb]
  | cons e rest =>
    unfold enqueue
    split
    · left
      simp [readyTime, hb]
    · by_cases he : e.readyTime ≤ current + delta
      · left
        simp [readyTime, hb, he]
      · right
        simp [readyTime, hb, he]

theorem not_isReady (h : t < b.readyTime) : b.isReady t = false := by
  unfold isReady
  unfold readyTime at h
  cases hb : b.buffer.head? with
  | none => rfl
  | some e =>
    rw [hb] at h
    exact decide_eq_false (Nat.not_le.mpr h)

end MessageBuffer

namespace Drainer

variable {N : Network σ} {c : Batch} {s s' t : Drainer σ} {P : Nat → Prop}

/-! ## The bound -/

/-- `minReady` bounds the fronts of the destinations in `P`. -/
def BoundedOn (P : Nat → Prop) (s : Drainer σ) : Prop :=
  ∀ d, P d → s.minReady ≤ (s.bufs d).readyTime

/-- And of all the destinations of the batch. -/
abbrev Bounded (c : Batch) (s : Drainer σ) : Prop :=
  s.BoundedOn (· ∈ c.dsts)

theorem BoundedOn.congr (h : s.BoundedOn P) (hm : s'.minReady = s.minReady) (hb : s'.bufs = s.bufs) : s'.BoundedOn P := by
  intro d hd
  rw [hm, hb]
  exact h d hd

theorem BoundedOn.enqueue (hP : ∀ d, P d → d ∈ c.dsts) (h : s.BoundedOn P) (e : Enqueue) : (s.enqueue c e).BoundedOn P := by
  intro d hd
  have hle : (s.enqueue c e).minReady ≤ s.minReady := by
    show (if _ then _ else _) ≤ s.minReady
    split
    · next hlow => exact Nat.le_of_lt hlow.2
    · exact Nat.le_refl _
  by_cases hnode : d = e.node
  · subst hnode
    have hbuf : (s.enqueue c e).bufs e.node = (s.bufs e.node).enqueue e.msg e.current e.delta := Function.update_self ..
    have hnew : (s.enqueue c e).minReady ≤ e.current + e.delta := by
      show (if _ then _ else _) ≤ e.current + e.delta
      split
      · exact Nat.le_refl _
      · next hlow =>
        rw [not_and] at hlow
        exact Nat.le_of_not_lt (hlow (hP _ hd))
    rw [hbuf]
    rcases MessageBuffer.readyTime_enqueue (s.bufs e.node) e.msg e.current e.delta with hold | hfront
    · rw [hold]
      exact Nat.le_trans hle (h _ hd)
    · rw [hfront]
      exact hnew
  · have hbuf : (s.enqueue c e).bufs d = s.bufs d := Function.update_of_ne hnode ..
    rw [hbuf]
    exact Nat.le_trans hle (h d hd)

theorem BoundedOn.enqueues (hP : ∀ d, P d → d ∈ c.dsts) (h : s.BoundedOn P) (es : List Enqueue) :
    (es.foldl (Drainer.enqueue c) s).BoundedOn P := by
  induction es generalizing s with
  | nil => exact h
  | cons e es ih => exact ih (h.enqueue hP e)

theorem Bounded.injectDue (l : List BatchAccess) (h : s.Bounded c) : (s.injectDue N c l).Bounded c := by
  induction l generalizing s with
  | nil => exact h
  | cons a rest ih =>
    unfold Drainer.injectDue
    split
    · exact h
    · refine ih ?_
      split
      · refine BoundedOn.enqueues (fun _ hd => hd) ?_ _
        exact h.congr rfl rfl
      · exact h

theorem Bounded.advance (h : s.Bounded c) : (s.advance N c).Bounded c := by
  unfold Drainer.advance
  split
  · refine BoundedOn.enqueues (fun _ hd => hd) ?_ _
    exact h.congr rfl rfl
  · exact h

theorem deliver_frame (c : Batch) (s : Drainer σ) (msg : SimpleMessage) :
    (s.deliver c msg).minReady = s.minReady ∧ (s.deliver c msg).bufs = s.bufs := by
  unfold deliver
  split <;> exact ⟨rfl, rfl⟩

/-- A destination that gives up its front still leaves the others bounded. -/
theorem BoundedOn.drainBuffer {d : Nat} (hP : ∀ d, P d → d ∈ c.dsts) {fuel : Nat} (h : s.BoundedOn fun x => P x ∧ x ≠ d)
    (hs : s.drainBuffer N c d fuel = some s') : s'.BoundedOn fun x => P x ∧ x ≠ d := by
  induction fuel generalizing s with
  | zero =>
    unfold Drainer.drainBuffer at hs
    split at hs
    · cases hs
    · cases hs
      exact h
  | succ fuel ih =>
    unfold Drainer.drainBuffer at hs
    split at hs
    · cases hs
      exact h
    · next e rest hbuf =>
      split at hs
      · refine ih (s := s.take N c d e rest) ?_ hs
        have hpopped : ∀ net, BoundedOn (fun x => P x ∧ x ≠ d) (s.popped net d e rest) := by
          intro net x hx
          show s.minReady ≤ (Function.update s.bufs d _ x).readyTime
          rw [Function.update_of_ne hx.2]
          exact h x hx
        intro x hx
        rw [Drainer.take, (deliver_frame _ _ _).1, (deliver_frame _ _ _).2]
        exact (hpopped _).enqueues (fun x hx => hP x hx.1) _ x hx
      · cases hs
        exact h

theorem BoundedOn.visitOne {d fuel : Nat} (hP : ∀ d, P d → d ∈ c.dsts) (h : s.BoundedOn P)
    (hs : s.visitOne N c fuel d = some s') : s'.BoundedOn fun x => P x ∨ x = d := by
  obtain ⟨s₁, hdrain, rfl⟩ := Option.map_eq_some_iff.mp hs
  have hothers := BoundedOn.drainBuffer hP (fun x hx => h x hx.1) hdrain
  intro x hx
  by_cases hxd : x = d
  · subst hxd
    exact Nat.min_le_right ..
  · exact Nat.le_trans (Nat.min_le_left ..) (hothers x ⟨hx.resolve_right hxd, hxd⟩)

/-- The visit ends with all the fronts bounded, whatever it took and whatever was enqueued meanwhile. -/
theorem Bounded.visit {fuel : Nat} (hs : s.visit N c fuel = some s') : s'.Bounded c := by
  have hprefix : ∀ (l : List Nat) (P : Nat → Prop) (s : Drainer σ), (∀ d, P d → d ∈ c.dsts) → (∀ d ∈ l, d ∈ c.dsts) →
      s.BoundedOn P → l.foldlM (Drainer.visitOne N c fuel) s = some s' → s'.BoundedOn fun x => P x ∨ x ∈ l := by
    intro l
    induction l with
    | nil =>
      intro P s _ _ h hs
      cases hs
      exact fun x hx => h x (hx.resolve_right List.not_mem_nil)
    | cons d l ih =>
      intro P s hP hl h hs
      rw [List.foldlM_cons] at hs
      obtain ⟨s₁, hone, hrest⟩ := Option.bind_eq_some_iff.mp hs
      have hd : ∀ x, P x ∨ x = d → x ∈ c.dsts := by
        intro x hx
        rcases hx with hx | hx
        · exact hP x hx
        · exact hx ▸ hl d List.mem_cons_self
      have hall := ih (fun x => P x ∨ x = d) s₁ hd (fun x hx => hl x (List.mem_cons_of_mem _ hx)) (h.visitOne hP hone) hrest
      intro x hx
      refine hall x ?_
      rcases hx with hx | hx
      · exact .inl (.inl hx)
      · exact (List.mem_cons.mp hx).elim (fun hxd => .inl (.inr hxd)) .inr
  have h := hprefix c.dsts (fun _ => False) _ (fun _ h => h.elim) (fun _ hd => hd) (fun _ h => h.elim) hs
  exact fun d hd => h d (.inr hd)

/-! ## States that differ in the bound -/

/-- Equal but for `minReady`. -/
def Alike (s t : Drainer σ) : Prop :=
  ∃ m, t = { s with minReady := m }

theorem Alike.refl (s : Drainer σ) : Alike s s :=
  ⟨s.minReady, rfl⟩

theorem Alike.enqueues (h : Alike s t) (es : List Enqueue) :
    Alike (es.foldl (Drainer.enqueue c) s) (es.foldl (Drainer.enqueue c) t) := by
  induction es generalizing s t with
  | nil => exact h
  | cons e es ih =>
    obtain ⟨m, rfl⟩ := h
    exact ih ⟨_, rfl⟩

theorem Alike.injectDue (h : Alike s t) (l : List BatchAccess) : Alike (s.injectDue N c l) (t.injectDue N c l) := by
  induction l generalizing s t with
  | nil =>
    obtain ⟨m, rfl⟩ := h
    exact ⟨m, rfl⟩
  | cons a rest ih =>
    obtain ⟨m, rfl⟩ := h
    unfold Drainer.injectDue
    split
    · exact ⟨m, rfl⟩
    · refine ih ?_
      split
      · exact Alike.enqueues ⟨m, rfl⟩ _
      · exact ⟨m, rfl⟩

theorem Alike.advance (h : Alike s t) : Alike (s.advance N c) (t.advance N c) := by
  obtain ⟨m, rfl⟩ := h
  unfold Drainer.advance
  dsimp only
  split
  · exact Alike.enqueues ⟨m, rfl⟩ _
  · exact ⟨m, rfl⟩

/-! ## The skipped visit -/

theorem drainBuffer_idle {d : Nat} (fuel : Nat) (h : (s.bufs d).isReady s.curTick = false) :
    s.drainBuffer N c d fuel = some s := by
  cases fuel with
  | zero =>
    unfold drainBuffer
    rw [h]
    rfl
  | succ fuel =>
    unfold drainBuffer
    split
    · rfl
    · next e rest hbuf =>
      rw [MessageBuffer.isReady, hbuf] at h
      exact if_neg (of_decide_eq_false h)

theorem visit_idle (N : Network σ) (fuel : Nat) (h : ∀ d ∈ c.dsts, (s.bufs d).isReady s.curTick = false) :
    ∃ t, s.visit N c fuel = some t ∧ Alike s t := by
  have hfold : ∀ (l : List Nat) (m : Nat), (∀ d ∈ l, d ∈ c.dsts) →
      ∃ t, l.foldlM (visitOne N c fuel) { s with minReady := m } = some t ∧ Alike s t := by
    intro l
    induction l with
    | nil => exact fun m _ => ⟨_, rfl, m, rfl⟩
    | cons d l ih =>
      intro m hl
      rw [List.foldlM_cons, visitOne, drainBuffer_idle (s := { s with minReady := m }) fuel (h d (hl d List.mem_cons_self))]
      exact ih _ fun x hx => hl x (List.mem_cons_of_mem _ hx)
  exact hfold c.dsts maxTick fun _ hd => hd

theorem Alike.visit {fuel : Nat} (h : Alike s t) : t.visit N c fuel = s.visit N c fuel := by
  obtain ⟨m, rfl⟩ := h
  rfl

/-! ## The two loops -/

/-- Both go on, alike and with the bound kept, or neither does. -/
def Together (c : Batch) (x y : Option (Drainer σ)) : Prop :=
  x = none ∧ y = none ∨ ∃ s t, x = some s ∧ y = some t ∧ Alike s t ∧ s.Bounded c

theorem Alike.finish_together (ha : Alike s t) (h : s.Bounded c) :
    Together c ((some s).map (finish N c)) ((some t).map (finish N c)) := by
  refine .inr ⟨_, _, rfl, rfl, ?_⟩
  have hdel : t.delivered = s.delivered := by
    obtain ⟨m, rfl⟩ := ha
    rfl
  unfold finish
  rw [hdel]
  split
  · exact ⟨ha, h⟩
  · exact ⟨ha.advance, Bounded.advance h⟩

theorem turn_together (fuel : Nat) (h : s.Bounded c) (ha : Alike s t) :
    Together c (s.turn N c whenReady fuel) (t.turn N c always fuel) := by
  have htodo : t.todo = s.todo := by
    obtain ⟨m, rfl⟩ := ha
    rfl
  have hb : (s.injectDue N c s.todo).Bounded c := h.injectDue s.todo
  have ha' : Alike (s.injectDue N c s.todo) (t.injectDue N c t.todo) := by
    rw [htodo]
    exact ha.injectDue s.todo
  unfold turn
  by_cases hready : (s.injectDue N c s.todo).minReady ≤ (s.injectDue N c s.todo).curTick
  · have hs : (s.injectDue N c s.todo).visitIf N c whenReady fuel = (s.injectDue N c s.todo).visit N c fuel :=
      if_pos (decide_eq_true hready)
    have ht : (t.injectDue N c t.todo).visitIf N c always fuel = (s.injectDue N c s.todo).visit N c fuel := ha'.visit
    rw [hs, ht]
    cases hv : (s.injectDue N c s.todo).visit N c fuel with
    | none => exact .inl ⟨rfl, rfl⟩
    | some x => exact (Alike.refl x).finish_together (Bounded.visit hv)
  · have hnone : ∀ d ∈ c.dsts, ((s.injectDue N c s.todo).bufs d).isReady (s.injectDue N c s.todo).curTick = false :=
      fun d hd => MessageBuffer.not_isReady (Nat.lt_of_lt_of_le (Nat.lt_of_not_le hready) (hb d hd))
    obtain ⟨x, hx, hax⟩ := visit_idle N fuel hnone
    have hs : (s.injectDue N c s.todo).visitIf N c whenReady fuel = some (s.injectDue N c s.todo) :=
      if_neg fun h => hready (of_decide_eq_true h)
    have ht : (t.injectDue N c t.todo).visitIf N c always fuel = some x := ha'.visit.trans hx
    rw [hs, ht]
    exact hax.finish_together hb

theorem loop_together (fuel turns : Nat) (h : s.Bounded c) (ha : Alike s t) :
    Together c (s.loop N c whenReady fuel turns) (t.loop N c always fuel turns) := by
  induction turns generalizing s t with
  | zero => exact .inr ⟨s, t, rfl, rfl, ha, h⟩
  | succ turns ih =>
    have hsame : t.delivered = s.delivered ∧ t.curTick = s.curTick := by
      obtain ⟨m, rfl⟩ := ha
      exact ⟨rfl, rfl⟩
    unfold loop
    rw [hsame.1, hsame.2]
    split
    · rcases turn_together (N := N) fuel h ha with ⟨hs, ht⟩ | ⟨s', t', hs, ht, ha', h'⟩
      · rw [hs, ht]
        exact .inl ⟨rfl, rfl⟩
      · rw [hs, ht]
        exact ih h' ha'
    · exact .inr ⟨s, t, rfl, rfl, ha, h⟩

/-- All but the bound. -/
def seen (s : Drainer σ) : Drainer σ :=
  { s with minReady := 0 }

end Drainer

namespace Drains

open Drainer

theorem bounded_start (w : Drains) (batch : List BatchAccess) (net : σ) (bufs : Nat → MessageBuffer) :
    (w.start batch net bufs).Bounded (w.batchOf batch) := by
  have hfold : ∀ (l : List Nat) (m : Nat), l.foldl (fun m d => min m (bufs d).readyTime) m ≤ m ∧
      ∀ d ∈ l, l.foldl (fun m d => min m (bufs d).readyTime) m ≤ (bufs d).readyTime := by
    intro l
    induction l with
    | nil => exact fun m => ⟨Nat.le_refl m, fun _ hd => absurd hd List.not_mem_nil⟩
    | cons d l ih =>
      intro m
      obtain ⟨hle, hall⟩ := ih (min m (bufs d).readyTime)
      refine ⟨Nat.le_trans hle (Nat.min_le_left ..), fun x hx => ?_⟩
      rcases List.mem_cons.mp hx with rfl | hx
      · exact Nat.le_trans hle (Nat.min_le_right ..)
      · exact hall x hx
  exact fun d hd => (hfold _ maxTick).2 d hd

/-- **Skipping the visits before `minReady` changes nothing**: the drain takes the same messages off the same buffers at the
same ticks as one that visits the buffers in every turn, and ends in the same state. At the head of every turn `minReady` is
at most the ready time of every destination's front message. -/
theorem skipped_visits (w : Drains) (N : Network σ) (fuel turns : Nat) (batch : List BatchAccess) (net : σ)
    (bufs : Nat → MessageBuffer) :
    (w.runBatchDrain N whenReady fuel turns batch net bufs).map seen =
        (w.runBatchDrain N always fuel turns batch net bufs).map seen ∧
      ∀ s, w.runBatchDrain N whenReady fuel turns batch net bufs = some s → ∀ d ∈ (w.batchOf batch).dsts,
        ∀ e ∈ (s.bufs d).buffer.head?, s.minReady ≤ e.readyTime := by
  have h := loop_together (N := N) fuel turns (w.bounded_start batch net bufs) (Alike.refl _)
  refine ⟨?_, fun s hs d hd e he => ?_⟩
  · rcases h with ⟨hs, ht⟩ | ⟨s, t, hs, ht, ⟨m, rfl⟩, -⟩
    · rw [runBatchDrain, runBatchDrain, hs, ht]
    · rw [runBatchDrain, runBatchDrain, hs, ht]
      rfl
  · rcases h with ⟨hnone, -⟩ | ⟨s', t, hs', -, -, hb⟩
    · rw [runBatchDrain, hnone] at hs
      cases hs
    · rw [runBatchDrain, hs'] at hs
      cases hs
      have hle := hb d hd
      rw [MessageBuffer.readyTime, Option.mem_def.mp he] at hle
      exact hle

end Drains

end Pimid.Noc
