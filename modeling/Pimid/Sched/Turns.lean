import Pimid.Sched.Barrier

/-!
# Turns at the barrier

The run list is edited in place by every operation, so what the barrier relies on is
said once: each thread is noted at its place, the counters count, the cursor stands
behind everyone who has had the turn and synced. An edit of the order moves at most
one thread over the cursor; giving the turn moves the cursor.
-/

namespace Pimid.Sched

open Function (update update_apply update_eq_self update_idem update_of_ne update_self)

namespace Barrier

variable {b b' : Barrier} {o : Outside} {tid t : Nat}

/-! ## The invariant -/

/-- The list, the table and the counters agree. -/
structure Kept (b : Barrier) : Prop where
  places : Indexed b.runList b.lastIdx
  listed : ∀ t, t ∈ b.runList ↔ b.state t ≠ .OFFLINE
  cursor : b.curThreadIdx ≤ b.runListSize
  running : b.runningThreads = b.runList.countP (b.state · = .RUNNING)
  left : b.leftThreads = b.runList.countP (b.state · = .LEFT)
  one : b.runningThreads ≤ 1
  -- the thread with the turn is behind the cursor
  ran : ∀ t, b.state t = .RUNNING → b.lastIdx t < b.curThreadIdx ∧ b.woken t = true
  turned : ∀ t, b.synced t = true → b.woken t = true
  ends : ∀ ph ∈ b.phaseEnds, ∀ e ∈ ph, e.state = .LEFT ∨ (e.state = .WAITING ∧ e.woken = true ∧ e.synced = true)

structure Ok (b : Barrier) : Prop extends Kept b where
  -- the cursor passes a waiting thread only once it has synced
  passed : ∀ t, b.state t = .WAITING → b.lastIdx t < b.curThreadIdx → b.synced t = true

theorem ok_init : Ok init where
  places := Indexed.nil _
  listed t := by simp [init]
  cursor := Nat.le_refl 0
  running := rfl
  left := rfl
  one := Nat.zero_le 1
  ran _ h := by cases h
  passed _ h := by cases h
  turned _ h := by cases h
  ends _ h := by cases h

namespace Ok

theorem mem_of_state (h : Ok b) {s : State} (ht : b.state t = s) (hs : s ≠ .OFFLINE) : t ∈ b.runList := by
  rw [h.listed, ht]
  exact hs

theorem get_tidAt {i : Nat} (hi : i < b.runListSize) : b.runList[i]? = some (b.tidAt i) := by
  rw [tidAt, List.getElem?_eq_getElem hi]
  rfl

theorem not_running (h : Ok b) (h0 : b.runningThreads = 0) (t : Nat) : b.state t ≠ .RUNNING := by
  intro ht
  have hcount := h.running
  rw [h0, eq_comm, List.countP_eq_zero] at hcount
  exact hcount t (h.mem_of_state ht (by decide)) (decide_eq_true ht)

theorem unique (h : Ok b) {t t' : Nat} (ht : b.state t = .RUNNING) (ht' : b.state t' = .RUNNING) : t = t' := by
  by_contra hne
  -- taking one away would leave the other uncounted
  have hcount := countP_update h.places.nodup (h.mem_of_state ht (by decide)) b.state .LEFT .RUNNING
  rw [if_pos ht, if_neg (by decide), ← h.running] at hcount
  have hone := h.one
  have hzero : b.runList.countP (fun c => update b.state t .LEFT c = .RUNNING) = 0 := by omega
  rw [List.countP_eq_zero] at hzero
  refine hzero t' (h.mem_of_state ht' (by decide)) (decide_eq_true ?_)
  rw [update_of_ne (fun he => hne he.symm)]
  exact ht'

end Ok

/-! ## Reordering the list -/

/-- Only the order of the list changes, and only `tid` may move over the cursor: it is in front of it now. -/
structure Reorders (tid : Nat) (b b' : Barrier) : Prop where
  state : b'.state = b.state
  counts : b'.runningThreads = b.runningThreads ∧ b'.leftThreads = b.leftThreads
  notes : b'.woken = b.woken ∧ b'.synced = b.synced ∧ b'.phaseEnds = b.phaseEnds
  queue : b'.detJoinQ = b.detJoinQ
  perm : b'.runList.Perm b.runList
  places : Indexed b'.runList b'.lastIdx
  cursor : b'.curThreadIdx ≤ b'.runListSize
  others : ∀ t ∈ b.runList, t ≠ tid → (b'.lastIdx t < b'.curThreadIdx ↔ b.lastIdx t < b.curThreadIdx)
  ahead : b'.curThreadIdx ≤ b'.lastIdx tid

theorem Reorders.refl (hp : Indexed b.runList b.lastIdx) (hc : b.curThreadIdx ≤ b.runListSize)
    (ha : b.curThreadIdx ≤ b.lastIdx tid) : Reorders tid b b where
  state := rfl
  counts := ⟨rfl, rfl⟩
  notes := ⟨rfl, rfl, rfl⟩
  queue := rfl
  perm := List.Perm.refl _
  places := hp
  cursor := hc
  others _ _ _ := Iff.rfl
  ahead := ha

theorem Reorders.trans {b₁ b₂ b₃ : Barrier} (h₁ : Reorders tid b₁ b₂) (h₂ : Reorders tid b₂ b₃) : Reorders tid b₁ b₃ where
  state := h₂.state.trans h₁.state
  counts := ⟨h₂.counts.1.trans h₁.counts.1, h₂.counts.2.trans h₁.counts.2⟩
  notes := ⟨h₂.notes.1.trans h₁.notes.1, h₂.notes.2.1.trans h₁.notes.2.1, h₂.notes.2.2.trans h₁.notes.2.2⟩
  queue := h₂.queue.trans h₁.queue
  perm := h₂.perm.trans h₁.perm
  places := h₂.places
  cursor := h₂.cursor
  others t ht hne := (h₂.others t (h₁.perm.mem_iff.mpr ht) hne).trans (h₁.others t ht hne)
  ahead := h₂.ahead

section Exchange

variable {i j : Nat}

theorem exchange_places (hp : Indexed b.runList b.lastIdx) (hi : b.runList[i]? = some tid) (hj : j < b.runListSize) :
    Indexed (b.exchange tid i j).runList (b.exchange tid i j).lastIdx ∧ (b.exchange tid i j).runList.Perm b.runList :=
  ⟨hp.exchange hi (Ok.get_tidAt hj), hp.exchange_perm hi (Ok.get_tidAt hj)⟩

theorem exchange_lastIdx (t : Nat) : (b.exchange tid i j).lastIdx t =
    if t = tid then j else if t = b.tidAt j then i else b.lastIdx t := by
  show update (update b.lastIdx (b.tidAt j) i) tid j t = _
  rw [update_apply, update_apply]

theorem exchange_get (hi : b.runList[i]? = some tid) (hj : j < b.runListSize) :
    (b.exchange tid i j).runList[j]? = some tid := by
  show ((b.runList.set j tid).set i (b.tidAt j))[j]? = some tid
  rw [Indexed.getElem?_exchange hi (Ok.get_tidAt hj)]
  split
  · next hji => rw [← hi, ← hji, Ok.get_tidAt hj]
  · rw [if_pos rfl]

theorem reorders_exchange (hp : Indexed b.runList b.lastIdx) (hi : b.runList[i]? = some tid) (hj : j < b.runListSize)
    (hci : b.curThreadIdx ≤ i) (hcj : b.curThreadIdx ≤ j) : Reorders tid b (b.exchange tid i j) where
  state := rfl
  counts := ⟨rfl, rfl⟩
  notes := ⟨rfl, rfl, rfl⟩
  queue := rfl
  perm := (exchange_places hp hi hj).2
  places := (exchange_places hp hi hj).1
  cursor := by
    have hlen := (exchange_places hp hi hj).2.length_eq
    show b.curThreadIdx ≤ (b.exchange tid i j).runList.length
    rw [hlen]
    exact Nat.le_trans hcj (Nat.le_of_lt hj)
  others t ht hne := by
    rw [exchange_lastIdx, if_neg hne]
    show (if t = b.tidAt j then i else b.lastIdx t) < b.curThreadIdx ↔ _
    split
    · next htj =>
      have := hp j t (htj ▸ Ok.get_tidAt hj)
      omega
    · exact Iff.rfl
  ahead := by
    rw [exchange_lastIdx, if_pos rfl]
    exact hcj

/-- A thread behind the cursor changes places with the last one there, and the cursor steps back before it. -/
theorem reorders_stepBack (hp : Indexed b.runList b.lastIdx) (ht : tid ∈ b.runList) (hc : b.curThreadIdx ≤ b.runListSize)
    (hlt : b.lastIdx tid < b.curThreadIdx) :
    Reorders tid b ({ b with curThreadIdx := b.curThreadIdx - 1 }.exchange tid (b.lastIdx tid) (b.curThreadIdx - 1)) := by
  have hi := hp.get ht
  have hj : b.curThreadIdx - 1 < b.runListSize := by omega
  have hx := exchange_places (b := { b with curThreadIdx := b.curThreadIdx - 1 }) hp hi hj
  refine ⟨rfl, ⟨rfl, rfl⟩, ⟨rfl, rfl, rfl⟩, rfl, hx.2, hx.1, ?_, ?_, ?_⟩
  · have hlen := hx.2.length_eq
    show b.curThreadIdx - 1 ≤ (exchange _ tid (b.lastIdx tid) (b.curThreadIdx - 1)).runList.length
    rw [hlen]
    exact Nat.le_of_lt hj
  · intro t htl hne
    rw [exchange_lastIdx, if_neg hne]
    show (if t = b.tidAt (b.curThreadIdx - 1) then b.lastIdx tid else b.lastIdx t) < b.curThreadIdx - 1 ↔ _
    split
    · next htj =>
      -- the other one stays behind the cursor, at the place given up
      have hplace := hp _ t (htj ▸ Ok.get_tidAt hj)
      have hdiff : b.lastIdx tid ≠ b.lastIdx t := by
        intro he
        have := hp.get htl
        rw [← he, hi] at this
        exact hne (Option.some.inj this).symm
      omega
    · next htj =>
      have hdiff : b.lastIdx t ≠ b.curThreadIdx - 1 := by
        intro he
        have := hp.get htl
        rw [he, Ok.get_tidAt hj] at this
        exact htj (Option.some.inj this).symm
      omega
  · rw [exchange_lastIdx, if_pos rfl]
    exact Nat.le_refl _

end Exchange

theorem moveUp_spec {n idx : Nat} (hp : Indexed b.runList b.lastIdx) (hidx : b.runList[idx]? = some tid)
    (hn : n ≤ idx - b.curThreadIdx) (hc : b.curThreadIdx ≤ idx) :
    Reorders tid b (moveUp o tid n idx b).1 ∧ (moveUp o tid n idx b).1.curThreadIdx = b.curThreadIdx ∧
      (moveUp o tid n idx b).1.runList[(moveUp o tid n idx b).2]? = some tid ∧ b.curThreadIdx ≤ (moveUp o tid n idx b).2 := by
  have hlt : idx < b.runListSize := (List.getElem?_eq_some_iff.mp hidx).1
  have hrefl : Reorders tid b b := Reorders.refl hp (by omega) (by rw [hp idx tid hidx]; exact hc)
  induction n generalizing idx b with
  | zero => exact ⟨hrefl, rfl, hidx, hc⟩
  | succ n ih =>
    rw [moveUp]
    split
    · have hj : idx - 1 < b.runListSize := by omega
      have hx := reorders_exchange hp hidx hj hc (by omega)
      have hget := exchange_get hidx hj
      have hcur : (b.exchange tid idx (idx - 1)).curThreadIdx = b.curThreadIdx := rfl
      have hlt' : idx - 1 < (b.exchange tid idx (idx - 1)).runListSize := (List.getElem?_eq_some_iff.mp hget).1
      obtain ⟨h₁, h₂, h₃, h₄⟩ := ih hx.places hget (by rw [hcur]; omega) (by rw [hcur]; omega) hlt'
        (Reorders.refl hx.places hx.cursor hx.ahead)
      exact ⟨hx.trans h₁, h₂, h₃, h₄⟩
    · exact ⟨hrefl, rfl, hidx, hc⟩

theorem moveDown_spec {n idx : Nat} (hp : Indexed b.runList b.lastIdx) (hidx : b.runList[idx]? = some tid)
    (hn : n ≤ b.runListSize - 1 - idx) (hc : b.curThreadIdx ≤ idx) : Reorders tid b (moveDown o tid n idx b) := by
  have hlt : idx < b.runListSize := (List.getElem?_eq_some_iff.mp hidx).1
  have hrefl : Reorders tid b b := Reorders.refl hp (by omega) (by rw [hp idx tid hidx]; exact hc)
  induction n generalizing idx b with
  | zero => exact hrefl
  | succ n ih =>
    rw [moveDown]
    split
    · have hj : idx + 1 < b.runListSize := by omega
      have hx := reorders_exchange hp hidx hj hc (by omega)
      have hget := exchange_get hidx hj
      have hlen : (b.exchange tid idx (idx + 1)).runListSize = b.runListSize := hx.perm.length_eq
      have hlt' : idx + 1 < (b.exchange tid idx (idx + 1)).runListSize := by omega
      exact hx.trans (ih hx.places hget (by omega) (Nat.le_succ_of_le hc) hlt' (Reorders.refl hx.places hx.cursor hx.ahead))
    · exact hrefl

/-! ## Joining -/

/-- From its place in front of the cursor the joining thread finds the one the turn order gives it. -/
theorem reorders_orderJoin (hp : Indexed b.runList b.lastIdx) (ht : tid ∈ b.runList)
    (hidx : (if b.state tid = .OFFLINE then b.runListSize - 1 else b.lastIdx tid) = b.lastIdx tid)
    (hc : b.curThreadIdx ≤ b.lastIdx tid) : Reorders tid b (b.orderJoin o tid) := by
  have hlt := hp.lt ht
  have hsame : update b.lastIdx tid (b.lastIdx tid) = b.lastIdx := update_eq_self tid b.lastIdx
  unfold orderJoin
  rw [hidx]
  dsimp only
  rw [hsame, if_pos ⟨hc, hlt⟩]
  obtain ⟨h₁, hcur, hget, hge⟩ := moveUp_spec (o := o) hp (hp.get ht) (Nat.le_refl _) hc
  exact h₁.trans (moveDown_spec h₁.places hget (Nat.le_refl _) (by rw [hcur]; exact hge))

/-- What `joinInsert` does to the list and the cursor. -/
structure Joined (tid : Nat) (b b' : Barrier) : Prop where
  state : b'.state = update b.state tid .WAITING
  running : b'.runningThreads = b.runningThreads
  left : b'.leftThreads = if b.state tid = .OFFLINE then b.leftThreads else b.leftThreads - 1
  notes : b'.woken = b.woken ∧ b'.synced = b.synced ∧ b'.phaseEnds = b.phaseEnds
  queue : b'.detJoinQ = b.detJoinQ
  perm : b'.runList.Perm (if b.state tid = .OFFLINE then b.runList ++ [tid] else b.runList)
  places : Indexed b'.runList b'.lastIdx
  cursor : b'.curThreadIdx ≤ b'.runListSize
  others : ∀ t ∈ b.runList, t ≠ tid → (b'.lastIdx t < b'.curThreadIdx ↔ b.lastIdx t < b.curThreadIdx)
  ahead : b'.curThreadIdx ≤ b'.lastIdx tid

theorem joinInsert_spec (h : Ok b) (hs : b.state tid = .LEFT ∨ b.state tid = .OFFLINE) : Joined tid b (b.joinInsert o tid) := by
  unfold joinInsert
  rcases hs with hs | hs
  · -- a thread that left is still listed
    have hoff : b.state tid ≠ .OFFLINE := by rw [hs]; decide
    have hmem : tid ∈ b.runList := (h.listed tid).mpr hoff
    rw [if_neg hoff]
    let b₁ : Barrier := { b with leftThreads := b.leftThreads - 1 }
    have hback : Reorders tid b₁ (b₁.rescheduleJoin tid) := by
      unfold rescheduleJoin
      dsimp only
      split
      · next hlt => exact reorders_stepBack (b := b₁) h.places hmem h.cursor hlt
      · next hlt => exact Reorders.refl h.places h.cursor (Nat.le_of_not_lt hlt)
    have hoff' : (b₁.rescheduleJoin tid).state tid ≠ .OFFLINE := by rw [hback.state]; exact hoff
    have horder : Reorders tid (b₁.rescheduleJoin tid) ((b₁.rescheduleJoin tid).orderJoin o tid) :=
      reorders_orderJoin hback.places (hback.perm.mem_iff.mpr hmem) (if_neg hoff') hback.ahead
    have hall := hback.trans horder
    refine ⟨?_, hall.counts.1, ?_, hall.notes, hall.queue, ?_, hall.places, hall.cursor, hall.others, hall.ahead⟩
    · show update ((b₁.rescheduleJoin tid).orderJoin o tid).state tid .WAITING = _
      rw [hall.state]
    · rw [if_neg hoff]
      exact hall.counts.2
    · rw [if_neg hoff]
      exact hall.perm
  · have hmem : tid ∉ b.runList := by
      rw [h.listed]
      exact fun hne => hne hs
    rw [if_pos hs]
    -- the table gets the new place only in `orderJoin`
    let b₁ : Barrier := { b with runList := b.runList ++ [tid], lastIdx := update b.lastIdx tid b.runListSize }
    have hp : Indexed b₁.runList b₁.lastIdx := h.places.snoc hmem
    have hlast : b₁.lastIdx tid = b.runListSize := update_self ..
    have hsize : b₁.runListSize = b.runListSize + 1 := by
      show (b.runList ++ [tid]).length = _
      rw [List.length_append]
      rfl
    have hmem₁ : tid ∈ b₁.runList := List.mem_append_right _ (List.mem_singleton_self tid)
    have hidx : (if b₁.state tid = .OFFLINE then b₁.runListSize - 1 else b₁.lastIdx tid) = b₁.lastIdx tid := by
      rw [if_pos (show b₁.state tid = .OFFLINE from hs), hlast, hsize]
      rfl
    have horder : Reorders tid b₁ (b₁.orderJoin o tid) :=
      reorders_orderJoin hp hmem₁ hidx (by rw [hlast]; exact h.cursor)
    have heq : { b with runList := b.runList ++ [tid] }.orderJoin o tid = b₁.orderJoin o tid := by
      unfold orderJoin
      rw [hidx, hlast, if_pos (show b.state tid = .OFFLINE from hs)]
      show (_ : Barrier) = _
      have hsize' : ({ b with runList := b.runList ++ [tid] } : Barrier).runListSize - 1 = b.runListSize := by
        show (b.runList ++ [tid]).length - 1 = _
        rw [List.length_append]
        rfl
      rw [hsize']
      have hupd : update b₁.lastIdx tid b.runListSize = update b.lastIdx tid b.runListSize :=
        update_idem ..
      dsimp only
      rw [hupd]
    show Joined tid b (({ b with runList := b.runList ++ [tid] }.orderJoin o tid).setState tid .WAITING)
    rw [heq]
    refine ⟨?_, horder.counts.1, ?_, horder.notes, horder.queue, ?_, horder.places, horder.cursor, ?_, horder.ahead⟩
    · show update (b₁.orderJoin o tid).state tid .WAITING = _
      rw [horder.state]
    · rw [if_pos hs]
      exact horder.counts.2
    · rw [if_pos hs]
      exact horder.perm
    · intro t ht hne
      refine (horder.others t (List.mem_append_left _ ht) hne).trans ?_
      show update b.lastIdx tid b.runListSize t < b.curThreadIdx ↔ _
      rw [update_of_ne hne]

theorem Joined.mem_iff (h : Ok b) (hs : b.state tid = .LEFT ∨ b.state tid = .OFFLINE) (hj : Joined tid b b') (t : Nat) :
    t ∈ b'.runList ↔ t ∈ b.runList ∨ t = tid := by
  rw [hj.perm.mem_iff]
  split
  · rw [List.mem_append, List.mem_singleton]
  · next hoff =>
    have hmem : tid ∈ b.runList := (h.listed tid).mpr hoff
    constructor
    · exact Or.inl
    · intro ht
      rcases ht with ht | rfl
      · exact ht
      · exact hmem

/-- How many threads are in a state, once one has joined. -/
theorem Joined.count (h : Ok b) (hs : b.state tid = .LEFT ∨ b.state tid = .OFFLINE) (hj : Joined tid b b') {s : State}
    (hw : s ≠ .WAITING) (hoff : s ≠ .OFFLINE) :
    b'.runList.countP (b'.state · = s) + (if b.state tid = s then 1 else 0) = b.runList.countP (b.state · = s) := by
  rw [hj.perm.countP_eq, hj.state]
  rcases hs with hs | hs
  · have hne : b.state tid ≠ .OFFLINE := by rw [hs]; decide
    rw [if_neg hne]
    have := countP_update h.places.nodup ((h.listed tid).mpr hne) b.state .WAITING s
    have hne' : ¬State.WAITING = s := fun he => hw he.symm
    simpa only [hne', if_false, Nat.add_zero] using this
  · have hmem : tid ∉ b.runList := by
      rw [h.listed]
      exact fun hne => hne hs
    have hrest : b.runList.countP (fun t => update b.state tid .WAITING t = s) =
        b.runList.countP (fun t => b.state t = s) := by
      refine List.countP_congr fun t ht => ?_
      have hne : t ≠ tid := by
        intro he
        exact hmem (he ▸ ht)
      rw [update_of_ne hne]
    have hne : ¬State.OFFLINE = s := fun he => hoff he.symm
    have hne' : ¬State.WAITING = s := fun he => hw he.symm
    rw [if_pos hs, List.countP_append, hrest, hs, if_neg hne]
    simp [hne']

/-- A joined thread waits in front of the cursor; nothing else has changed. -/
theorem Ok.joined (h : Ok b) (hs : b.state tid = .LEFT ∨ b.state tid = .OFFLINE) (hj : Joined tid b b') : Ok b' where
  places := hj.places
  listed t := by
    rw [hj.mem_iff h hs, hj.state]
    by_cases ht : t = tid
    · subst ht
      simp
    · rw [update_of_ne ht, h.listed, or_iff_left ht]
  cursor := hj.cursor
  running := by
    have := hj.count h hs (s := .RUNNING) (by decide) (by decide)
    rw [if_neg (by rcases hs with hs | hs <;> rw [hs] <;> decide), ← h.running] at this
    rw [hj.running, ← this]
    rfl
  left := by
    have := hj.count h hs (s := .LEFT) (by decide) (by decide)
    rw [← h.left] at this
    rw [hj.left]
    rcases hs with hs | hs
    · rw [if_pos hs] at this
      rw [if_neg (by rw [hs]; decide)]
      omega
    · rw [if_neg (by rw [hs]; decide)] at this
      rw [if_pos hs]
      exact this.symm
  one := by
    rw [hj.running]
    exact h.one
  ran t ht := by
    rw [hj.state] at ht
    by_cases he : t = tid
    · subst he
      rw [update_self] at ht
      cases ht
    · rw [update_of_ne he] at ht
      rw [hj.notes.1, hj.others t (h.mem_of_state ht (by decide)) he]
      exact h.ran t ht
  passed t ht hlt := by
    by_cases he : t = tid
    · subst he
      have := hj.ahead
      omega
    · rw [hj.state, update_of_ne he] at ht
      rw [hj.notes.2.1]
      exact h.passed t ht ((hj.others t (h.mem_of_state ht (by decide)) he).mp hlt)
  turned t ht := by
    rw [hj.notes.1]
    rw [hj.notes.2.1] at ht
    exact h.turned t ht
  ends := by
    rw [hj.notes.2.2]
    exact h.ends

/-! ## Giving the turn -/

/-- Waiting threads may have got the turn; the list is as it was. -/
structure Gives (b b' : Barrier) : Prop where
  runList : b'.runList = b.runList
  lastIdx : b'.lastIdx = b.lastIdx
  left : b'.leftThreads = b.leftThreads
  synced : b'.synced = b.synced
  queue : b'.detJoinQ = b.detJoinQ
  phaseCount : b'.phaseCount = b.phaseCount
  state : ∀ t, b'.state t = b.state t ∨ (b.state t = .WAITING ∧ b'.state t = .RUNNING)

theorem Gives.refl (b : Barrier) : Gives b b :=
  ⟨rfl, rfl, rfl, rfl, rfl, rfl, fun _ => .inl rfl⟩

theorem Gives.trans {b₁ b₂ b₃ : Barrier} (h₁ : Gives b₁ b₂) (h₂ : Gives b₂ b₃) : Gives b₁ b₃ where
  runList := h₂.runList.trans h₁.runList
  lastIdx := h₂.lastIdx.trans h₁.lastIdx
  left := h₂.left.trans h₁.left
  synced := h₂.synced.trans h₁.synced
  queue := h₂.queue.trans h₁.queue
  phaseCount := h₂.phaseCount.trans h₁.phaseCount
  state t := by
    rcases h₁.state t with h | ⟨hw, hr⟩
    · rw [← h]
      exact h₂.state t
    · rcases h₂.state t with h' | ⟨hw', -⟩
      · exact .inr ⟨hw, h'.trans hr⟩
      · rw [hr] at hw'
        cases hw'

/-- The cursor moves over one thread: it gets the turn, or it does not wait for it. -/
theorem Ok.wakeNext (h : Ok b) (h0 : b.runningThreads = 0) (hlt : b.curThreadIdx < b.runListSize) :
    Ok b.wakeNext ∧ Gives b b.wakeNext := by
  have hget := Ok.get_tidAt hlt
  have hmem : b.tidAt b.curThreadIdx ∈ b.runList := List.mem_of_getElem? hget
  have hplace : b.lastIdx (b.tidAt b.curThreadIdx) = b.curThreadIdx := h.places _ _ hget
  have hat : ∀ t ∈ b.runList, b.lastIdx t < b.curThreadIdx + 1 → t ≠ b.tidAt b.curThreadIdx → b.lastIdx t < b.curThreadIdx := by
    intro t ht hle hne
    rcases Nat.lt_or_eq_of_le (Nat.le_of_lt_succ hle) with hlt' | heq
    · exact hlt'
    · have hgt := h.places.get ht
      rw [heq, hget] at hgt
      exact absurd (Option.some.inj hgt).symm hne
  unfold Barrier.wakeNext
  dsimp only
  split
  · next hw =>
    generalize hwt : b.tidAt b.curThreadIdx = w at *
    have hsame : update b.lastIdx w b.curThreadIdx = b.lastIdx := by
      rw [← hplace]
      exact update_eq_self w b.lastIdx
    have hcount (s : State) := countP_update h.places.nodup hmem b.state .RUNNING s
    have hstate {t : Nat} (hne : t ≠ w) : (b.setState w .RUNNING).state t = b.state t := update_of_ne hne ..
    have hself : (b.setState w .RUNNING).state w = .RUNNING := update_self ..
    refine ⟨⟨⟨?_, ?_, hlt, ?_, ?_, by rw [h0], ?_, ?_, h.ends⟩, ?_⟩,
      ⟨rfl, hsame, rfl, rfl, rfl, rfl, ?_⟩⟩
    · show Indexed b.runList (update b.lastIdx w b.curThreadIdx)
      rw [hsame]
      exact h.places
    · intro t
      by_cases ht : t = w
      · subst ht
        rw [hself]
        exact iff_of_true hmem (by decide)
      · rw [hstate ht]
        exact h.listed t
    · have := hcount .RUNNING
      rw [if_neg (by rw [hw]; decide), if_pos rfl, ← h.running] at this
      exact this.symm
    · have := hcount .LEFT
      rw [if_neg (by rw [hw]; decide), if_neg (by decide), ← h.left] at this
      exact this.symm
    · intro t ht
      by_cases htw : t = w
      · subst htw
        refine ⟨?_, update_self ..⟩
        show update b.lastIdx t b.curThreadIdx t < b.curThreadIdx + 1
        rw [update_self]
        exact Nat.lt_succ_self _
      · rw [hstate htw] at ht
        exact absurd ht (h.not_running h0 t)
    · intro t ht
      show update b.woken w true t = true
      rw [update_apply]
      split
      · rfl
      · exact h.turned t ht
    · intro t ht hle
      have htw : t ≠ w := by
        intro he
        rw [he, hself] at ht
        cases ht
      rw [hstate htw] at ht
      have hle' : b.lastIdx t < b.curThreadIdx + 1 := by
        rw [← hsame]
        exact hle
      exact h.passed t ht (hat t (h.mem_of_state ht (by decide)) hle' htw)
    · intro t
      by_cases ht : t = w
      · subst ht
        exact .inr ⟨hw, hself⟩
      · exact .inl (hstate ht)
  · next hw =>
    refine ⟨⟨⟨h.places, h.listed, hlt, h.running, h.left, h.one, ?_, h.turned, h.ends⟩, ?_⟩,
      ⟨rfl, rfl, rfl, rfl, rfl, rfl, fun _ => .inl rfl⟩⟩
    · intro t ht
      exact absurd ht (h.not_running h0 t)
    · intro t ht hle
      refine h.passed t ht (hat t (h.mem_of_state ht (by decide)) hle ?_)
      intro he
      exact hw (he ▸ ht)

theorem wakeLoop_spec {n : Nat} (h : Ok b) (hn : b.runListSize - b.curThreadIdx ≤ n) :
    Ok (wakeLoop n b) ∧ Gives b (wakeLoop n b) ∧
      ((wakeLoop n b).runningThreads = 1 ∨ (wakeLoop n b).curThreadIdx = (wakeLoop n b).runListSize) := by
  have hc := h.cursor
  have hone := h.one
  induction n generalizing b with
  | zero => exact ⟨h, Gives.refl b, .inr (show b.curThreadIdx = b.runListSize by omega)⟩
  | succ n ih =>
    rw [wakeLoop]
    split
    · next hg =>
      obtain ⟨hok, hgive⟩ := h.wakeNext (by omega) hg.2
      have hsize : b.wakeNext.runListSize = b.runListSize := congrArg List.length hgive.runList
      have hcur : b.wakeNext.curThreadIdx = b.curThreadIdx + 1 := by
        unfold wakeNext
        dsimp only
        split <;> rfl
      obtain ⟨h₁, h₂, h₃⟩ := ih hok (by omega) hok.cursor hok.one
      exact ⟨h₁, hgive.trans h₂, h₃⟩
    · next hg => exact ⟨h, Gives.refl b, by omega⟩

theorem checkRunList_spec (h : Ok b) : Ok b.checkRunList ∧ Gives b b.checkRunList ∧
    (b.checkRunList.runningThreads = 1 ∨ b.checkRunList.curThreadIdx = b.checkRunList.runListSize) :=
  wakeLoop_spec h (Nat.le_refl _)

end Barrier

end Pimid.Sched
