import Pimid.Lib.Machine
import Pimid.Sched.Turns

/-!
# Phases of the barrier

A phase ends with the cursor at the end of the list and no one running. The threads
that left may then be taken off, the list is put in order or shuffled, and the next
phase begins with its first waiting thread. Every operation of the barrier keeps the
invariant; so does every run.
-/

namespace Pimid.Sched

open Function (update update_of_ne update_self)

namespace Barrier

variable {b b' : Barrier} {o : Outside} {tid t : Nat}

/-! ## Ending the phase -/

/-- Threads that left may have been taken off the list. -/
structure Retires (b b' : Barrier) : Prop where
  counts : b'.runningThreads = b.runningThreads ∧ b'.curThreadIdx = b.curThreadIdx
  notes : b'.woken = b.woken ∧ b'.synced = b.synced ∧ b'.phaseEnds = b.phaseEnds
  queue : b'.detJoinQ = b.detJoinQ
  places : Indexed b'.runList b'.lastIdx
  listed : ∀ t, t ∈ b'.runList ↔ b'.state t ≠ .OFFLINE
  state : ∀ t, b'.state t = b.state t ∨ (b.state t = .LEFT ∧ b'.state t = .OFFLINE)

theorem Retires.refl (hp : Indexed b.runList b.lastIdx) (hl : ∀ t, t ∈ b.runList ↔ b.state t ≠ .OFFLINE) : Retires b b :=
  ⟨⟨rfl, rfl⟩, ⟨rfl, rfl, rfl⟩, rfl, hp, hl, fun _ => .inl rfl⟩

theorem Retires.trans {b₁ b₂ b₃ : Barrier} (h₁ : Retires b₁ b₂) (h₂ : Retires b₂ b₃) : Retires b₁ b₃ where
  counts := ⟨h₂.counts.1.trans h₁.counts.1, h₂.counts.2.trans h₁.counts.2⟩
  notes := ⟨h₂.notes.1.trans h₁.notes.1, h₂.notes.2.1.trans h₁.notes.2.1, h₂.notes.2.2.trans h₁.notes.2.2⟩
  queue := h₂.queue.trans h₁.queue
  places := h₂.places
  listed := h₂.listed
  state t := by
    rcases h₁.state t with h | ⟨hl, ho⟩
    · rw [← h]
      exact h₂.state t
    · rcases h₂.state t with h' | ⟨hl', -⟩
      · exact .inr ⟨hl, h'.trans ho⟩
      · rw [ho] at hl'
        cases hl'

/-- One thread that left is taken off: the last of the list fills its place. -/
theorem retires_one {i : Nat} (hp : Indexed b.runList b.lastIdx) (hl : ∀ t, t ∈ b.runList ↔ b.state t ≠ .OFFLINE)
    (hi : i < b.runListSize) (hs : b.state (b.tidAt i) = .LEFT) :
    Retires b { b.setState (b.tidAt i) .OFFLINE with
      runList := (b.runList.set i (b.tidAt (b.runListSize - 1))).dropLast
      lastIdx := update b.lastIdx (b.tidAt (b.runListSize - 1)) i } := by
  have hget := Ok.get_tidAt hi
  have hlast : b.runList.getLast? = some (b.tidAt (b.runListSize - 1)) := by
    rw [List.getLast?_eq_getElem?]
    have hlt : b.runListSize - 1 < b.runListSize := by omega
    exact Ok.get_tidAt hlt
  obtain ⟨hplaces, hperm⟩ := hp.fill hget hlast
  refine ⟨⟨rfl, rfl⟩, ⟨rfl, rfl, rfl⟩, rfl, hplaces, ?_, ?_⟩
  · intro t
    have hmem := hperm.mem_iff (a := t)
    rw [List.mem_cons] at hmem
    have hnot := (List.nodup_cons.mp (hperm.nodup_iff.mpr hp.nodup)).1
    show t ∈ (b.runList.set i (b.tidAt (b.runListSize - 1))).dropLast ↔
      update b.state (b.tidAt i) .OFFLINE t ≠ .OFFLINE
    by_cases ht : t = b.tidAt i
    · rw [ht, update_self]
      exact iff_of_false hnot (fun h => h rfl)
    · rw [update_of_ne ht, ← hl t, ← hmem, or_iff_right ht]
  · intro t
    show update b.state (b.tidAt i) .OFFLINE t = b.state t ∨
      (b.state t = .LEFT ∧ update b.state (b.tidAt i) .OFFLINE t = .OFFLINE)
    by_cases ht : t = b.tidAt i
    · rw [ht, update_self]
      exact .inr ⟨hs, rfl⟩
    · rw [update_of_ne ht]
      exact .inl rfl

/-- The clean-up pass takes off everyone who left, and no one else. -/
theorem retire_spec (n idx : Nat) (hp : Indexed b.runList b.lastIdx) (hl : ∀ t, t ∈ b.runList ↔ b.state t ≠ .OFFLINE)
    (hbefore : ∀ t ∈ b.runList, b.lastIdx t < idx → b.state t ≠ .LEFT) (hn : b.runListSize - idx ≤ n) :
    Retires b (retire n idx b) ∧ ∀ t ∈ (retire n idx b).runList, (retire n idx b).state t ≠ .LEFT := by
  have hdone : b.runListSize ≤ idx → ∀ t ∈ b.runList, b.state t ≠ .LEFT := by
    intro hle t ht
    exact hbefore t ht (Nat.lt_of_lt_of_le (hp.lt ht) hle)
  induction n generalizing idx b with
  | zero => exact ⟨Retires.refl hp hl, hdone (by omega)⟩
  | succ n ih =>
    rw [retire]
    split
    · next hlt =>
      have hget := Ok.get_tidAt hlt
      dsimp only
      split
      · next hs =>
        have hone := retires_one hp hl hlt hs
        have hsize : (b.runList.set idx (b.tidAt (b.runListSize - 1))).dropLast.length = b.runListSize - 1 := by
          rw [List.length_dropLast, List.length_set]
          rfl
        have hbefore' : ∀ t ∈ (b.runList.set idx (b.tidAt (b.runListSize - 1))).dropLast,
            update b.lastIdx (b.tidAt (b.runListSize - 1)) idx t < idx →
              update b.state (b.tidAt idx) .OFFLINE t ≠ .LEFT := by
          intro t ht hlt' hleft
          have hne : t ≠ b.tidAt idx := by
            intro he
            rw [he, update_self] at hleft
            cases hleft
          rw [update_of_ne hne] at hleft
          have hne' : t ≠ b.tidAt (b.runListSize - 1) := by
            intro he
            rw [he, update_self] at hlt'
            exact Nat.lt_irrefl _ hlt'
          rw [update_of_ne hne'] at hlt'
          exact hbefore t ((hl t).mpr (by rw [hleft]; decide)) hlt' hleft
        obtain ⟨h₁, h₂⟩ := ih _ hone.places hone.listed hbefore' (by show _ - idx ≤ n; rw [runListSize, hsize]; omega) (by
          intro hle t ht
          exact hbefore' t ht (Nat.lt_of_lt_of_le (hone.places.lt ht) hle))
        exact ⟨hone.trans h₁, h₂⟩
      · next hs =>
        have hbefore' : ∀ t ∈ b.runList, b.lastIdx t < idx + 1 → b.state t ≠ .LEFT := by
          intro t ht hle
          rcases Nat.lt_or_eq_of_le (Nat.le_of_lt_succ hle) with hlt' | heq
          · exact hbefore t ht hlt'
          · have hgt := hp.get ht
            rw [heq, hget] at hgt
            rw [← Option.some.inj hgt]
            exact hs
        exact ih _ hp hl hbefore' (by omega) fun hle t ht => hbefore' t ht (Nat.lt_of_lt_of_le (hp.lt ht) hle)
    · next hlt => exact ⟨Retires.refl hp hl, hdone (by omega)⟩

theorem retire_queue (n idx : Nat) (b : Barrier) : (retire n idx b).detJoinQ = b.detJoinQ := by
  induction n generalizing idx b with
  | zero => rfl
  | succ n ih =>
    rw [retire]
    split
    · dsimp only
      split
      · exact ih _ _
      · exact ih _ _
    · rfl

theorem cleanUp_queue (b : Barrier) : b.cleanUp.detJoinQ = b.detJoinQ := by
  unfold cleanUp
  dsimp only
  split
  · exact retire_queue _ _ b
  · rfl

/-- Only the order of the list changes. -/
structure Permutes (b b' : Barrier) : Prop where
  state : b'.state = b.state
  counts : b'.runningThreads = b.runningThreads ∧ b'.leftThreads = b.leftThreads ∧ b'.curThreadIdx = b.curThreadIdx
  notes : b'.woken = b.woken ∧ b'.synced = b.synced ∧ b'.phaseEnds = b.phaseEnds
  queue : b'.detJoinQ = b.detJoinQ
  perm : b'.runList.Perm b.runList
  places : Indexed b'.runList b'.lastIdx

theorem permutes_sortTurns (hp : Indexed b.runList b.lastIdx) : Permutes b (b.sortTurns o) := by
  have hperm : ∀ l acc : List Nat,
      (l.foldl (fun pre v => pre.orderedInsert (fun v x => ¬o.detBefore v x) v) acc).Perm (l ++ acc) := by
    intro l
    induction l with
    | nil => exact fun acc => List.Perm.refl acc
    | cons v l ih =>
      intro acc
      rw [List.foldl_cons]
      have hinsert := (List.perm_orderedInsert (fun v x => ¬o.detBefore v x) v acc).append_left l
      exact (ih _).trans (hinsert.trans List.perm_middle)
  have hlist : (b.sortTurns o).runList.Perm b.runList := by
    have := hperm b.runList []
    rw [List.append_nil] at this
    exact (List.reverse_perm _).trans this
  exact ⟨rfl, ⟨rfl, rfl, rfl⟩, ⟨rfl, rfl, rfl⟩, rfl, hlist, Indexed.renumber (hlist.nodup_iff.mpr hp.nodup) _⟩

theorem permutes_shuffleFrom {i : Nat} (hp : Indexed b.runList b.lastIdx) (hi : i < b.runListSize) :
    Permutes b (shuffleFrom o i b) := by
  induction i generalizing b with
  | zero => exact ⟨rfl, ⟨rfl, rfl, rfl⟩, ⟨rfl, rfl, rfl⟩, rfl, List.Perm.refl _, hp⟩
  | succ i ih =>
    have hj : o.randInt (i + 1) % (i + 2) < b.runListSize :=
      Nat.lt_of_lt_of_le (Nat.mod_lt _ (Nat.succ_pos _)) hi
    obtain ⟨hplaces, hperm⟩ := exchange_places hp (Ok.get_tidAt hi) hj
    have hsize : i < (b.exchange (b.tidAt (i + 1)) (i + 1) (o.randInt (i + 1) % (i + 2))).runListSize := by
      show i < List.length _
      rw [hperm.length_eq]
      exact Nat.lt_of_succ_lt hi
    have h := ih hplaces hsize
    exact ⟨h.state, h.counts, h.notes, h.queue, h.perm.trans hperm, h.places⟩

theorem permutes_shuffle (hp : Indexed b.runList b.lastIdx) : Permutes b (b.shuffle o) := by
  unfold shuffle
  split
  · exact permutes_shuffleFrom hp (by omega)
  · exact ⟨rfl, ⟨rfl, rfl, rfl⟩, ⟨rfl, rfl, rfl⟩, rfl, List.Perm.refl _, hp⟩

theorem Ok.phaseEnd (h : Ok b) (hcur : b.curThreadIdx = b.runListSize) (h0 : b.runningThreads = 0) : Ok b.phaseEnd where
  places := h.places
  listed := h.listed
  cursor := Nat.zero_le _
  running := h.running
  left := h.left
  one := h.one
  ran t ht := absurd ht (h.not_running h0 t)
  passed _ _ hlt := absurd hlt (Nat.not_lt_zero _)
  turned _ ht := by cases ht
  ends ph hph e he := by
    rcases List.mem_append.mp hph with hph | hph
    · exact h.ends ph hph e he
    · rw [List.mem_singleton] at hph
      subst hph
      obtain ⟨t, ht, rfl⟩ := List.mem_map.mp he
      show b.state t = .LEFT ∨ (b.state t = .WAITING ∧ b.woken t = true ∧ b.synced t = true)
      cases hs : b.state t with
      | LEFT => exact .inl rfl
      | OFFLINE => exact absurd hs ((h.listed t).mp ht)
      | RUNNING => exact absurd hs (h.not_running h0 t)
      | WAITING =>
        have hsync := h.passed t hs (hcur ▸ h.places.lt ht)
        exact .inr ⟨rfl, h.turned t hsync, hsync⟩

/-- A phase has begun: the cursor is at the start, no one has had the turn yet. -/
structure Fresh (b : Barrier) : Prop extends Ok b where
  start : b.curThreadIdx = 0
  idle : b.runningThreads = 0
  unsynced : b.synced = fun _ => false

theorem Fresh.cleanUp (h : Fresh b) : Fresh b.cleanUp := by
  unfold Barrier.cleanUp
  dsimp only
  split
  · have hnone : ∀ t ∈ b.runList, b.lastIdx t < 0 → b.state t ≠ .LEFT := fun t _ hlt => absurd hlt (Nat.not_lt_zero _)
    obtain ⟨hr, hleft⟩ := retire_spec b.runListSize 0 h.places h.listed hnone (Nat.le_refl _)
    generalize retire b.runListSize 0 b = b' at hr hleft
    have hnorun : ∀ t, b'.state t ≠ .RUNNING := by
      intro t ht
      rcases hr.state t with hs | ⟨-, ho⟩
      · exact h.not_running h.idle t (hs ▸ ht)
      · rw [ht] at ho
        cases ho
    have hcur : b'.curThreadIdx = 0 := hr.counts.2.trans h.start
    refine ⟨⟨⟨hr.places, hr.listed, ?_, ?_, ?_, ?_, ?_, ?_, ?_⟩, ?_⟩, hcur, hr.counts.1.trans h.idle, ?_⟩
    · show b'.curThreadIdx ≤ _
      rw [hcur]
      exact Nat.zero_le _
    · show b'.runningThreads = _
      rw [hr.counts.1, h.idle, eq_comm, List.countP_eq_zero]
      intro t _ ht
      exact hnorun t (of_decide_eq_true ht)
    · show 0 = _
      rw [eq_comm, List.countP_eq_zero]
      intro t hmem ht
      exact hleft t hmem (of_decide_eq_true ht)
    · show b'.runningThreads ≤ 1
      rw [hr.counts.1]
      exact h.one
    · exact fun t ht => absurd ht (hnorun t)
    · intro t ht
      have : b'.synced t = true := ht
      rw [hr.notes.2.1, h.unsynced] at this
      cases this
    · show ∀ ph ∈ b'.phaseEnds, _
      rw [hr.notes.2.2]
      exact h.ends
    · intro t _ hlt
      have : b'.lastIdx t < b'.curThreadIdx := hlt
      omega
    · show b'.synced = _
      rw [hr.notes.2.1]
      exact h.unsynced
  · exact ⟨⟨⟨h.places, h.listed, h.cursor, h.running, h.left, h.one, h.ran, h.turned, h.ends⟩, h.passed⟩,
      h.start, h.idle, h.unsynced⟩

theorem Fresh.permutes (h : Fresh b) (hp : Permutes b b') : Fresh b' := by
  have hcur : b'.curThreadIdx = 0 := hp.counts.2.2.trans h.start
  refine ⟨⟨⟨hp.places, ?_, ?_, ?_, ?_, ?_, ?_, ?_, ?_⟩, ?_⟩, hcur, hp.counts.1.trans h.idle, ?_⟩
  · intro t
    rw [hp.perm.mem_iff, hp.state]
    exact h.listed t
  · rw [hcur]
    exact Nat.zero_le _
  · rw [hp.counts.1, hp.perm.countP_eq, hp.state]
    exact h.running
  · rw [hp.counts.2.1, hp.perm.countP_eq, hp.state]
    exact h.left
  · rw [hp.counts.1]
    exact h.one
  · intro t ht
    rw [hp.state] at ht
    exact absurd ht (h.not_running h.idle t)
  · rw [hp.notes.1, hp.notes.2.1]
    exact h.turned
  · rw [hp.notes.2.2]
    exact h.ends
  · intro t _ hlt
    omega
  · rw [hp.notes.2.1]
    exact h.unsynced

/-- A phase that ends here begins the next one; otherwise nothing happens. -/
theorem checkEndPhase_cases (clockMode : Bool) (o : Outside) (h : Ok b) :
    (b.checkEndPhase clockMode o = b ∧
      ¬(b.curThreadIdx = b.runListSize ∧ b.runningThreads = 0 ∧ b.leftThreads ≠ b.runListSize)) ∨
    (Fresh (b.checkEndPhase clockMode o) ∧ (b.checkEndPhase clockMode o).detJoinQ = b.detJoinQ ∧
      b.runningThreads = 0) := by
  unfold checkEndPhase
  split
  · next hend =>
    split
    · next hall => exact .inl ⟨rfl, fun hx => hx.2.2 hall⟩
    · have hfresh : Fresh b.phaseEnd := ⟨h.phaseEnd hend.1 hend.2, rfl, hend.2, rfl⟩
      have hperm : Permutes b.phaseEnd.cleanUp
          (if clockMode then b.phaseEnd.cleanUp.sortTurns o else b.phaseEnd.cleanUp.shuffle o) := by
        split
        · exact permutes_sortTurns hfresh.cleanUp.places
        · exact permutes_shuffle hfresh.cleanUp.places
      exact .inr ⟨hfresh.cleanUp.permutes hperm, hperm.queue.trans (cleanUp_queue b.phaseEnd), hend.2⟩
  · next hend => exact .inl ⟨rfl, fun hx => hend ⟨hx.1, hx.2.1⟩⟩

/-- The phase end takes threads that left off the list, and changes no other thread's state or membership. -/
theorem checkEndPhase_keeps (clockMode : Bool) (o : Outside) (hp : Indexed b.runList b.lastIdx)
    (hl : ∀ t, t ∈ b.runList ↔ b.state t ≠ .OFFLINE) (t : Nat) :
    ((b.checkEndPhase clockMode o).state t = b.state t ∧ (t ∈ (b.checkEndPhase clockMode o).runList ↔ t ∈ b.runList)) ∨
      (b.state t = .LEFT ∧ (b.checkEndPhase clockMode o).state t = .OFFLINE ∧
        t ∉ (b.checkEndPhase clockMode o).runList) := by
  unfold checkEndPhase
  split
  · split
    · exact .inl ⟨rfl, Iff.rfl⟩
    · have hclean : Indexed b.phaseEnd.cleanUp.runList b.phaseEnd.cleanUp.lastIdx ∧
          (∀ t, t ∈ b.phaseEnd.cleanUp.runList ↔ b.phaseEnd.cleanUp.state t ≠ .OFFLINE) ∧
          ∀ t, b.phaseEnd.cleanUp.state t = b.state t ∨ (b.state t = .LEFT ∧ b.phaseEnd.cleanUp.state t = .OFFLINE) := by
        unfold cleanUp
        dsimp only
        split
        · have hr := (retire_spec (b := b.phaseEnd) b.phaseEnd.runListSize 0 hp hl
            (fun _ _ hlt => absurd hlt (Nat.not_lt_zero _)) (Nat.le_refl _)).1
          exact ⟨hr.places, hr.listed, hr.state⟩
        · exact ⟨hp, hl, fun _ => .inl rfl⟩
      obtain ⟨hp', hl', hstate⟩ := hclean
      have hperm : Permutes b.phaseEnd.cleanUp (if clockMode then b.phaseEnd.cleanUp.sortTurns o else b.phaseEnd.cleanUp.shuffle o) := by
        split
        · exact permutes_sortTurns hp'
        · exact permutes_shuffle hp'
      dsimp only
      rw [hperm.state, hperm.perm.mem_iff, hl' t, hl t]
      rcases hstate t with hs | ⟨hleft, hoff⟩
      · exact .inl ⟨hs, by rw [hs]⟩
      · exact .inr ⟨hleft, hoff, fun hx => hx hoff⟩
  · exact .inl ⟨rfl, Iff.rfl⟩

/-! ## Handing the turn on -/

/-- No thread that could run is left waiting while no one runs. -/
def Settled (b : Barrier) : Prop := b.runningThreads = 0 → ∀ t, b.state t ≠ .WAITING

theorem Ok.running_of_state (h : Ok b) (ht : b.state t = .RUNNING) : b.runningThreads ≠ 0 := by
  intro h0
  exact h.not_running h0 t ht

theorem Ok.exists_running (h : Ok b) (h1 : b.runningThreads ≠ 0) : ∃ t, b.state t = .RUNNING := by
  rw [h.running] at h1
  have hpos : 0 < b.runList.countP (fun t => b.state t = .RUNNING) := Nat.pos_of_ne_zero h1
  obtain ⟨t, -, ht⟩ := List.countP_pos_iff.mp hpos
  exact ⟨t, of_decide_eq_true ht⟩

theorem Ok.all_left (h : Ok b) (hall : b.leftThreads = b.runListSize) {s : State} (ht : b.state t = s) (hoff : s ≠ .OFFLINE) :
    s = .LEFT := by
  have hcount : b.runList.countP (fun t => b.state t = .LEFT) = b.runList.length := h.left.symm.trans hall
  rw [List.countP_eq_length] at hcount
  exact ht.symm.trans (of_decide_eq_true (hcount t (h.mem_of_state ht hoff)))

theorem tryWakeNext_spec (clockMode : Bool) (o : Outside) (h : Ok b) :
    Ok (b.tryWakeNext clockMode o) ∧ Settled (b.tryWakeNext clockMode o) ∧
      (b.tryWakeNext clockMode o).detJoinQ = b.detJoinQ ∧
      (∀ t, b.state t = .WAITING →
        (b.tryWakeNext clockMode o).state t = .WAITING ∨ (b.tryWakeNext clockMode o).state t = .RUNNING) ∧
      ∀ t, b.state t = .LEFT ∨ b.state t = .OFFLINE →
        (b.tryWakeNext clockMode o).state t = .LEFT ∨ (b.tryWakeNext clockMode o).state t = .OFFLINE := by
  obtain ⟨hok₁, hg₁, hpost₁⟩ := checkRunList_spec h
  have hkeep := checkEndPhase_keeps clockMode o hok₁.places hok₁.listed
  have hcases := checkEndPhase_cases clockMode o hok₁
  have hok₂ : Ok (b.checkRunList.checkEndPhase clockMode o) := by
    rcases hcases with ⟨heq, -⟩ | ⟨hfresh, -⟩
    · rw [heq]
      exact hok₁
    · exact hfresh.toOk
  obtain ⟨hok₃, hg₃, hpost₃⟩ := checkRunList_spec hok₂
  refine ⟨hok₃, ?_, ?_, ?_, ?_⟩
  · intro h0 t hw
    have hw₂ : (b.checkRunList.checkEndPhase clockMode o).state t = .WAITING := by
      rcases hg₃.state t with hs | ⟨hs, -⟩
      · rw [← hs]
        exact hw
      · exact hs
    rcases hcases with ⟨heq, hnot⟩ | ⟨hfresh, -, -⟩
    · -- no phase ended, so the list was at its end with everyone gone
      have hst : ∀ r, (b.checkRunList.checkEndPhase clockMode o).state r = b.checkRunList.state r := fun r => by rw [heq]
      have h0₁ : b.checkRunList.runningThreads = 0 := by
        by_contra h1
        obtain ⟨r, hr⟩ := hok₁.exists_running h1
        rcases hg₃.state r with hs | ⟨hs, -⟩
        · exact hok₃.running_of_state (hs.trans ((hst r).trans hr)) h0
        · rw [hst, hr] at hs
          cases hs
      have hall : b.checkRunList.leftThreads = b.checkRunList.runListSize := by
        by_contra hne
        exact hnot ⟨by omega, h0₁, hne⟩
      have := hok₁.all_left hall ((hst t).symm.trans hw₂) (by decide)
      cases this
    · -- the cursor went through the whole list of the new phase without finding it
      have hcur : (b.tryWakeNext clockMode o).curThreadIdx = (b.tryWakeNext clockMode o).runListSize := by
        rcases hpost₃ with h1 | hcur
        · exact absurd h1 (by show ¬(b.tryWakeNext clockMode o).runningThreads = 1; omega)
        · exact hcur
      have hlt := hok₃.places.lt (hok₃.mem_of_state hw (by decide))
      have hsync := hok₃.passed t hw (hcur ▸ hlt)
      rw [show (checkRunList _).synced = _ from hg₃.synced, hfresh.unsynced] at hsync
      cases hsync
  · refine hg₃.queue.trans ?_
    rcases hcases with ⟨heq, -⟩ | ⟨-, hq, -⟩
    · rw [heq]
      exact hg₁.queue
    · exact hq.trans hg₁.queue
  · intro t hw
    have hstep : ∀ {b₁ b₂ : Barrier}, Gives b₁ b₂ → (b₁.state t = .WAITING ∨ b₁.state t = .RUNNING) →
        (b₂.state t = .WAITING ∨ b₂.state t = .RUNNING) := by
      intro b₁ b₂ hg hs
      rcases hg.state t with he | ⟨-, hr⟩
      · rw [he]
        exact hs
      · exact .inr hr
    have hs₁ := hstep hg₁ (.inl hw)
    refine hstep hg₃ ?_
    rcases hkeep t with ⟨he, -⟩ | ⟨hl, -⟩
    · rw [he]
      exact hs₁
    · rw [hl] at hs₁
      rcases hs₁ with h' | h' <;> cases h'
  · intro t hs
    have hstep : ∀ {b₁ b₂ : Barrier}, Gives b₁ b₂ → (b₁.state t = .LEFT ∨ b₁.state t = .OFFLINE) →
        (b₂.state t = .LEFT ∨ b₂.state t = .OFFLINE) := by
      intro b₁ b₂ hg hs
      rcases hg.state t with he | ⟨hw, -⟩
      · rw [he]
        exact hs
      · rw [hw] at hs
        rcases hs with h' | h' <;> cases h'
    have hs₁ := hstep hg₁ hs
    refine hstep hg₃ ?_
    rcases hkeep t with ⟨he, -⟩ | ⟨-, ho, -⟩
    · rw [he]
      exact hs₁
    · exact .inr ho

/-! ## The operations -/

/-- Threads take their places one after the other. -/
theorem joinInserts_spec {l : List Nat} (hl : l.Nodup) (h : Ok b)
    (hs : ∀ t ∈ l, b.state t = .LEFT ∨ b.state t = .OFFLINE) :
    Ok (l.foldl (joinInsert o) b) ∧ (l.foldl (joinInsert o) b).runningThreads = b.runningThreads ∧
      ∀ t, (l.foldl (joinInsert o) b).state t = if t ∈ l then .WAITING else b.state t := by
  induction l generalizing b with
  | nil => exact ⟨h, rfl, fun t => by rw [if_neg List.not_mem_nil]; rfl⟩
  | cons tid l ih =>
    rw [List.nodup_cons] at hl
    have hst := hs tid List.mem_cons_self
    have hj := joinInsert_spec (o := o) h hst
    have hrest : ∀ t ∈ l, (b.joinInsert o tid).state t = .LEFT ∨ (b.joinInsert o tid).state t = .OFFLINE := by
      intro t ht
      have hne : t ≠ tid := by
        intro he
        exact hl.1 (he ▸ ht)
      rw [hj.state, update_of_ne hne]
      exact hs t (List.mem_cons_of_mem _ ht)
    rw [List.foldl_cons]
    obtain ⟨h₁, h₂, h₃⟩ := ih hl.2 (h.joined hst hj) hrest
    refine ⟨h₁, h₂.trans hj.running, fun t => ?_⟩
    rw [h₃ t, hj.state]
    by_cases ht : t = tid
    · rw [ht, if_neg hl.1, update_self, if_pos List.mem_cons_self]
    · rw [update_of_ne ht]
      by_cases htl : t ∈ l
      · rw [if_pos htl, if_pos (List.mem_cons_of_mem _ htl)]
      · rw [if_neg htl, if_neg (by rw [List.mem_cons, not_or]; exact ⟨ht, htl⟩)]

/-- The queued threads are away; by clock no join is queued. -/
structure Queued (clockMode : Bool) (b : Barrier) : Prop where
  nodup : b.detJoinQ.Nodup
  away : ∀ t ∈ b.detJoinQ, b.state t = .LEFT ∨ b.state t = .OFFLINE
  clock : clockMode = true → b.detJoinQ = []

theorem queued_of_nil {clockMode : Bool} (hq : b.detJoinQ = []) : Queued clockMode b where
  nodup := hq ▸ List.nodup_nil
  away t ht := by
    rw [hq] at ht
    cases ht
  clock _ := hq

theorem Ok.withQueue (h : Ok b) (q : List Nat) : Ok { b with detJoinQ := q } :=
  ⟨⟨h.places, h.listed, h.cursor, h.running, h.left, h.one, h.ran, h.turned, h.ends⟩, h.passed⟩

theorem detFlushJoinsLocked_spec {clockMode : Bool} (h : Ok b) (hq : Queued clockMode b) :
    Ok (b.detFlushJoinsLocked o) ∧ (b.detFlushJoinsLocked o).detJoinQ = [] ∧
      (b.detFlushJoinsLocked o).runningThreads = b.runningThreads ∧
      ∀ t, (b.detFlushJoinsLocked o).state t = if t ∈ b.detJoinQ then .WAITING else b.state t := by
  have hperm := List.perm_insertionSort (· ≤ ·) b.detJoinQ
  obtain ⟨h₁, h₂, h₃⟩ := joinInserts_spec (o := o) (hperm.nodup_iff.mpr hq.nodup) h fun t ht =>
    hq.away t (hperm.mem_iff.mp ht)
  refine ⟨h₁.withQueue [], rfl, h₂, fun t => ?_⟩
  have := h₃ t
  simp only [hperm.mem_iff] at this
  exact this

theorem Queued.tryWakeNext {clockMode : Bool} (h : Ok b) (hq : Queued clockMode b) : Queued clockMode (b.tryWakeNext clockMode o) := by
  obtain ⟨-, -, hsame, -, hleft⟩ := tryWakeNext_spec clockMode o h
  refine ⟨hsame ▸ hq.nodup, ?_, fun hc => hsame.trans (hq.clock hc)⟩
  intro t ht
  rw [hsame] at ht
  exact hleft t (hq.away t ht)

/-- Giving up the turn: the thread leaves, or waits for its next one. Its place is still to be justified. -/
theorem Ok.giveUp (h : Ok b) (ht : b.state tid = .RUNNING) {s : State} (hs : s = .LEFT ∨ s = .WAITING) {synced : Nat → Bool}
    (hsynced : ∀ t, synced t = true → b.synced t = true ∨ t = tid) :
    Kept { b.setState tid s with
      runningThreads := b.runningThreads - 1
      leftThreads := if s = .LEFT then b.leftThreads + 1 else b.leftThreads
      synced := synced } := by
  have hmem : tid ∈ b.runList := h.mem_of_state ht (by decide)
  have hne {t : Nat} (hne : t ≠ tid) : (b.setState tid s).state t = b.state t := update_of_ne hne ..
  have hself : (b.setState tid s).state tid = s := update_self ..
  have hoff : s ≠ .OFFLINE := by rcases hs with hs | hs <;> rw [hs] <;> decide
  have hrun : s ≠ .RUNNING := by rcases hs with hs | hs <;> rw [hs] <;> decide
  have hcount := countP_update h.places.nodup hmem b.state s
  have hone := h.one
  refine ⟨h.places, ?_, h.cursor, ?_, ?_, Nat.le_trans (Nat.sub_le _ _) hone, ?_, ?_, h.ends⟩
  · intro t
    by_cases he : t = tid
    · rw [he, hself]
      exact iff_of_true hmem hoff
    · rw [hne he]
      exact h.listed t
  · have := hcount .RUNNING
    rw [if_pos ht, if_neg hrun, ← h.running] at this
    show b.runningThreads - 1 = b.runList.countP (fun t => update b.state tid s t = .RUNNING)
    omega
  · have := hcount .LEFT
    rw [if_neg (by rw [ht]; decide), ← h.left] at this
    show (if s = .LEFT then b.leftThreads + 1 else b.leftThreads) =
      b.runList.countP (fun t => update b.state tid s t = .LEFT)
    split <;> simp_all
  · intro t hr
    by_cases he : t = tid
    · rw [he, hself] at hr
      exact absurd hr hrun
    · rw [hne he] at hr
      exact h.ran t hr
  · intro t hsy
    rcases hsynced t hsy with hsy | he
    · exact h.turned t hsy
    · rw [he]
      exact (h.ran tid ht).2

theorem Ok.leaveWaiting (h : Ok b) (ht : b.state tid = .WAITING) :
    Ok { b.setState tid .LEFT with leftThreads := b.leftThreads + 1 } := by
  have hmem : tid ∈ b.runList := h.mem_of_state ht (by decide)
  have hne {t : Nat} (hne : t ≠ tid) : (b.setState tid .LEFT).state t = b.state t := update_of_ne hne ..
  have hself : (b.setState tid .LEFT).state tid = .LEFT := update_self ..
  have hcount := countP_update h.places.nodup hmem b.state .LEFT
  refine ⟨⟨h.places, ?_, h.cursor, ?_, ?_, h.one, ?_, h.turned, h.ends⟩, ?_⟩
  · intro t
    by_cases he : t = tid
    · rw [he, hself]
      exact iff_of_true hmem (by decide)
    · rw [hne he]
      exact h.listed t
  · have := hcount .RUNNING
    rw [if_neg (by rw [ht]; decide), if_neg (by decide), ← h.running] at this
    exact this.symm
  · have := hcount .LEFT
    rw [if_neg (by rw [ht]; decide), if_pos rfl, ← h.left] at this
    exact this.symm
  · intro t hr
    by_cases he : t = tid
    · rw [he, hself] at hr
      cases hr
    · rw [hne he] at hr
      exact h.ran t hr
  · intro t hw hlt
    by_cases he : t = tid
    · rw [he, hself] at hw
      cases hw
    · rw [hne he] at hw
      exact h.passed t hw hlt

/-- The thread that gives up the turn, as it waits or has left. -/
theorem Ok.left_ok (h : Ok b) (ht : b.state tid = .RUNNING) :
    Ok { b.setState tid .LEFT with
      leftThreads := b.leftThreads + 1
      runningThreads := b.runningThreads - 1 } := by
  refine ⟨h.giveUp ht (.inl rfl) fun t hsy => .inl hsy, ?_⟩
  intro t hw hlt
  have hne : t ≠ tid := by
    intro he
    have : update b.state tid .LEFT t = .WAITING := hw
    rw [he, update_self] at this
    cases this
  have hw' : update b.state tid .LEFT t = .WAITING := hw
  rw [update_of_ne hne] at hw'
  exact h.passed t hw' hlt

theorem Ok.synced_ok (h : Ok b) (ht : b.state tid = .RUNNING) :
    Ok { b.setState tid .WAITING with
      runningThreads := b.runningThreads - 1
      synced := update b.synced tid true } := by
  refine ⟨h.giveUp ht (.inr rfl) fun t hsy => ?_, ?_⟩
  · by_cases he : t = tid
    · exact .inr he
    · rw [update_of_ne he] at hsy
      exact .inl hsy
  · intro t hw hlt
    show update b.synced tid true t = true
    by_cases he : t = tid
    · rw [he, update_self]
    · have hw' : update b.state tid .WAITING t = .WAITING := hw
      rw [update_of_ne he] at hw' ⊢
      exact h.passed t hw' hlt

/-- Only the order changes, and `tid` alone may come in front of the cursor. -/
theorem Kept.reorders (h : Kept b) (hr : Reorders tid b b') (ht : b.state tid = .WAITING)
    (hpassed : ∀ t, t ≠ tid → b.state t = .WAITING → b.lastIdx t < b.curThreadIdx → b.synced t = true) : Ok b' where
  places := hr.places
  listed t := by
    rw [hr.perm.mem_iff, hr.state]
    exact h.listed t
  cursor := hr.cursor
  running := by
    rw [hr.counts.1, hr.perm.countP_eq, hr.state]
    exact h.running
  left := by
    rw [hr.counts.2, hr.perm.countP_eq, hr.state]
    exact h.left
  one := by
    rw [hr.counts.1]
    exact h.one
  ran t hs := by
    rw [hr.state] at hs
    have hne : t ≠ tid := by
      intro he
      rw [he, ht] at hs
      cases hs
    have hmem : t ∈ b.runList := by
      rw [h.listed, hs]
      decide
    rw [hr.others t hmem hne, hr.notes.1]
    exact h.ran t hs
  passed t hs hlt := by
    have hne : t ≠ tid := by
      intro he
      rw [he] at hlt
      have := hr.ahead
      omega
    rw [hr.state] at hs
    have hmem : t ∈ b.runList := by
      rw [h.listed, hs]
      decide
    rw [hr.notes.2.1]
    exact hpassed t hne hs ((hr.others t hmem hne).mp hlt)
  turned := by
    rw [hr.notes.1, hr.notes.2.1]
    exact h.turned
  ends := by
    rw [hr.notes.2.2]
    exact h.ends

/-- The thread that yields comes in front of the cursor again. -/
theorem Ok.yielded (h : Ok b) (ht : b.state tid = .RUNNING) :
    Ok ({ b.setState tid .WAITING with runningThreads := b.runningThreads - 1 }.requeue o tid) ∧
      ({ b.setState tid .WAITING with runningThreads := b.runningThreads - 1 }.requeue o tid).state =
        update b.state tid .WAITING ∧
      ({ b.setState tid .WAITING with runningThreads := b.runningThreads - 1 }.requeue o tid).detJoinQ = b.detJoinQ := by
  let b₁ : Barrier := { b.setState tid .WAITING with runningThreads := b.runningThreads - 1 }
  have hmem : tid ∈ b₁.runList := h.mem_of_state ht (by decide)
  have hlt : b₁.lastIdx tid < b₁.curThreadIdx := (h.ran tid ht).1
  have hkept : Kept b₁ := h.giveUp ht (.inr rfl) fun t hsy => .inl hsy
  have hback := reorders_stepBack hkept.places hmem hkept.cursor hlt
  have hreorder : Reorders tid b₁ (b₁.requeue o tid) := by
    unfold requeue
    rw [if_pos hlt]
    have hj : b₁.curThreadIdx - 1 < b₁.runListSize := by
      have := hkept.cursor
      omega
    have hget := exchange_get (b := { b₁ with curThreadIdx := b₁.curThreadIdx - 1 }) (hkept.places.get hmem) hj
    refine hback.trans (moveDown_spec hback.places hget ?_ (Nat.le_refl _))
    show b₁.runListSize - 1 - _ ≤ List.length _ - 1 - _
    rw [hback.perm.length_eq]
    exact Nat.le_refl _
  refine ⟨hkept.reorders hreorder (update_self ..) ?_, hreorder.state, hreorder.queue⟩
  intro t hne hw hle
  have hw' : update b.state tid .WAITING t = .WAITING := hw
  rw [update_of_ne hne] at hw'
  exact h.passed t hw' hle

/-! ## Steps and runs -/

structure Inv (clockMode : Bool) (b : Barrier) : Prop extends Ok b where
  queued : Queued clockMode b

theorem inv_init (clockMode : Bool) : Inv clockMode init := ⟨ok_init, queued_of_nil rfl⟩

/-- After a change that leaves the queued threads away, the turn is handed on. -/
theorem Ok.handOn {clockMode : Bool} (h : Ok b') (hq : Queued clockMode b') : Inv clockMode (b'.tryWakeNext clockMode o) :=
  ⟨(tryWakeNext_spec clockMode o h).1, hq.tryWakeNext h⟩

/-- A queue stays away when another thread's state changes. -/
theorem Queued.update {clockMode : Bool} (hq : Queued clockMode b) (hqueue : b'.detJoinQ = b.detJoinQ) {s : State}
    (hstate : b'.state = update b.state tid s) (htid : tid ∉ b.detJoinQ) : Queued clockMode b' where
  nodup := hqueue ▸ hq.nodup
  away t ht := by
    rw [hqueue] at ht
    have hne : t ≠ tid := by
      intro he
      exact htid (he ▸ ht)
    rw [hstate, update_of_ne hne]
    exact hq.away t ht
  clock hc := hqueue.trans (hq.clock hc)

theorem Queued.notMem {clockMode : Bool} (hq : Queued clockMode b) (ht : b.state tid = .RUNNING ∨ b.state tid = .WAITING) :
    tid ∉ b.detJoinQ := by
  intro hmem
  rcases hq.away tid hmem with h | h <;> rcases ht with h' | h' <;> rw [h] at h' <;> cases h'

theorem Queued.snoc (hq : Queued false b) (hs : b.state tid = .LEFT ∨ b.state tid = .OFFLINE) (hnot : tid ∉ b.detJoinQ) :
    Queued false { b with detJoinQ := b.detJoinQ ++ [tid] } where
  nodup := by
    rw [List.nodup_append]
    refine ⟨hq.nodup, List.nodup_singleton tid, fun t ht u hu => ?_⟩
    rw [List.mem_singleton] at hu
    intro he
    exact hnot (hu ▸ he ▸ ht)
  away t ht := by
    rcases List.mem_append.mp ht with ht | ht
    · exact hq.away t ht
    · rw [List.mem_singleton.mp ht]
      exact hs
  clock hc := by cases hc

theorem Inv.step {clockMode : Bool} (h : Inv clockMode b) {a : Op × Outside} (ha : b.Allowed a) :
    Inv clockMode (b.step clockMode a) := by
  obtain ⟨op, o⟩ := a
  cases op with
  | join tid =>
    obtain ⟨hs, hnot⟩ := ha
    show Inv clockMode (b.join clockMode o tid)
    unfold join
    split
    · next hc =>
      obtain ⟨rfl, -⟩ := hc
      exact ⟨h.toOk.withQueue _, h.queued.snoc hs hnot⟩
    · split
      · next hc =>
        obtain ⟨rfl, -⟩ := hc
        have hflush := detFlushJoinsLocked_spec (o := o) (h.toOk.withQueue _) (h.queued.snoc hs hnot)
        exact hflush.1.handOn (queued_of_nil hflush.2.1)
      · have hj := joinInsert_spec (o := o) h.toOk hs
        exact (h.toOk.joined hs hj).handOn (h.queued.update hj.queue hj.state hnot)
  | detFlushJoins =>
    show Inv clockMode (b.detFlushJoins o)
    unfold detFlushJoins
    split
    · have hflush := detFlushJoinsLocked_spec (o := o) h.toOk h.queued
      exact ⟨hflush.1, queued_of_nil hflush.2.1⟩
    · exact h
  | leave tid =>
    show Inv clockMode (b.leave clockMode o tid)
    unfold leave
    have hnot := h.queued.notMem ha
    split
    · next hr => exact (h.left_ok hr).handOn (h.queued.update rfl rfl hnot)
    · next hr =>
      have hw := ha.resolve_left hr
      exact ⟨h.leaveWaiting hw, h.queued.update rfl rfl hnot⟩
  | sync tid =>
    have hr : b.state tid = .RUNNING := ha
    exact (h.synced_ok hr).handOn (h.queued.update rfl rfl (h.queued.notMem (.inl hr)))
  | yield tid =>
    show Inv clockMode (b.yield clockMode o tid)
    unfold yield
    split
    · exact h
    · next hr =>
      have hr := not_not.mp hr
      obtain ⟨hok, hstate, hqueue⟩ := h.yielded (o := o) hr
      exact hok.handOn (h.queued.update hqueue hstate (h.queued.notMem (.inl hr)))

theorem inv_run {clockMode : Bool} {as : List (Op × Outside)} (h : Along (step clockMode) Allowed init as) :
    Inv clockMode (as.foldl (step clockMode) init) :=
  h.keeps (fun _ _ hi ha => hi.step ha) (inv_init clockMode)

/-! ## What the barrier keeps -/

/-- The bookkeeping of the barrier, and what its phase ends found. -/
structure Sound (b : Barrier) : Prop where
  nodup : b.runList.Nodup
  listed : ∀ t, t ∈ b.runList ↔ b.state t ≠ .OFFLINE
  places : ∀ (i t : Nat), b.runList[i]? = some t → b.lastIdx t = i
  running : b.runningThreads = {t | b.state t = .RUNNING}.ncard
  left : b.leftThreads = {t | b.state t = .LEFT}.ncard
  one : ∀ t t', b.state t = .RUNNING → b.state t' = .RUNNING → t = t'
  behind : ∀ t, b.state t = .RUNNING → b.lastIdx t < b.curThreadIdx
  passed : ∀ t, b.state t = .WAITING → b.lastIdx t < b.curThreadIdx → b.synced t = true
  ends : ∀ ph ∈ b.phaseEnds, ∀ e ∈ ph, e.state = .LEFT ∨ (e.state = .WAITING ∧ e.woken = true ∧ e.synced = true)

theorem Ok.sound (h : Ok b) : Sound b where
  nodup := h.places.nodup
  listed := h.listed
  places := h.places
  running := h.running.trans (countP_eq_ncard h.places.nodup b.state .RUNNING fun _ ht => h.mem_of_state ht (by decide))
  left := h.left.trans (countP_eq_ncard h.places.nodup b.state .LEFT fun _ ht => h.mem_of_state ht (by decide))
  one _ _ := h.unique
  behind t ht := (h.ran t ht).1
  passed := h.passed
  ends := h.ends

/-- **The fixed-order barrier.** In every run of joins, leaves, syncs, yields and flushes, by clock or by shuffle and in
any turn order, the run list, its table and the counters agree, at most one thread has the turn, and a phase ends only
when every listed thread has left, or has had the turn and synced in it. What a phase end does to the list takes off
threads that left, and no others. -/
theorem barrier_sound (clockMode : Bool) (as : List (Op × Outside)) (h : Along (step clockMode) Allowed init as) :
    Sound (as.foldl (step clockMode) init) ∧
      ∀ (b : Barrier) (o : Outside), Sound b → ∀ t,
        ((b.checkEndPhase clockMode o).state t = b.state t ∧ (t ∈ (b.checkEndPhase clockMode o).runList ↔ t ∈ b.runList)) ∨
          (b.state t = .LEFT ∧ (b.checkEndPhase clockMode o).state t = .OFFLINE ∧
            t ∉ (b.checkEndPhase clockMode o).runList) :=
  ⟨(inv_run h).sound, fun _ o hb => checkEndPhase_keeps clockMode o hb.places hb.listed⟩

/-- The lower thread first, and a shuffle that moves nothing. -/
def plainOrder : Outside := ⟨fun a b => a < b, fun i => i⟩

/-- Two threads join, run and sync: one phase ends, with both synced. -/
theorem barrier_sound_two_threads :
    Sound (([.join 0, .join 1, .detFlushJoins, .sync 0, .sync 1].map (·, plainOrder)).foldl (step false) init) ∧
      (([.join 0, .join 1, .detFlushJoins, .sync 0, .sync 1].map (·, plainOrder)).foldl (step false) init).phaseEnds =
        [[⟨0, .WAITING, true, true⟩, ⟨1, .WAITING, true, true⟩]] :=
  ⟨(barrier_sound false ([.join 0, .join 1, .detFlushJoins, .sync 0, .sync 1].map (·, plainOrder)) (by decide)).1,
    by decide⟩

end Barrier

end Pimid.Sched
