import Pimid.Mpi.Delivery

/-!
# Messages in process mode

In process mode the ranks are processes, and a rank's mailbox is the ring alone: a
sender polls until there is room, the receiver until there is a chunk. A receive takes
chunks off the ring in the order they came, whoever sent them, until one says it is the
last of its message.

So a receive gets one whole message as long as no chunk enters between the chunks of
another sender's message; a chunk that does is taken for part of it.
-/

namespace Pimid.Mpi.Process

open Transport
open Function (update update_of_ne update_self)

/-- The ring. -/
structure Ring where
  head : Nat
  tail : Nat
  count : Nat
  slots : Nat → Packet

/-- `send_chunk`'s critical section, with room. -/
def Ring.put (mb : Ring) (p : Packet) : Ring where
  head := mb.head
  slots := update mb.slots mb.tail p
  tail := (mb.tail + 1) % ringSlots
  count := mb.count + 1

/-- `recv_slot`'s critical section, with a chunk there. -/
def Ring.pop (mb : Ring) : Ring :=
  { mb with
    head := (mb.head + 1) % ringSlots
    count := mb.count - 1 }

/-- The locals of `recv_bytes_process`, and the chunks it has taken. -/
structure Receiving where
  lastSrc : Int
  sendTime : Nat
  contendWait : Nat
  written : Nat
  done : Bool
  cap : Nat
  buf : Bytes
  before : Bytes
  took : List Packet

def start (cap : Nat) (buf : Bytes) : Receiving := ⟨-1, 0, 0, 0, false, cap, buf, buf, []⟩

/-- One round of the loop of `recv_bytes_process`. -/
def Receiving.chunk (r : Receiving) (slot : Packet) : Receiving :=
  let space := if r.cap > r.written then r.cap - r.written else 0
  let take := if slot.header.size < space then slot.header.size else space
  { r with
    lastSrc := if r.lastSrc < 0 then slot.header.src else r.lastSrc
    sendTime := slot.header.simSendTime
    contendWait := slot.header.simContendWait
    buf := splice r.buf r.written (slot.bytes.take take)
    written := r.written + take
    done := !decide (slot.header.chunkIdx + 1 < slot.header.nChunks)
    took := r.took ++ [slot] }

/-- What a receive returned, and the arrival it was charged for. -/
structure Got where
  cap : Nat
  ret : Nat
  before : Bytes
  after : Bytes
  timing : RecvTiming
  took : List Packet

def Receiving.finish (r : Receiving) : Got :=
  ⟨r.cap, r.written, r.before, r.buf, ⟨r.lastSrc, r.written, r.sendTime, r.contendWait⟩, r.took⟩

/-- The receiver's mailbox, what each rank is sending to it and which chunk is next, and
what the receiver is receiving. -/
structure State where
  mb : Ring
  sender : Nat → Option (Message × Nat)
  recv : Option Receiving

inductive Act where
  | send (rank : Nat) (m : Message)
  | push (rank : Nat)
  | post (cap : Nat) (buf : Bytes)
  | pop

/-- Chunk `i` of `m` entered; a chunk was taken; a receive returned. -/
inductive Event where
  | pushed (rank : Nat) (m : Message) (i : Nat)
  | popped (p : Packet)
  | got (g : Got)

def step (s : State) : Act → Option (State × List Event)
  | .send rank m =>
    match s.sender rank with
    | none => some ({ s with sender := update s.sender rank (some (m, 0)) }, [])
    | some _ => none
  | .push rank =>
    match s.sender rank with
    | none => none
    | some (m, i) =>
      if s.mb.count < ringSlots then
        let next := if i + 1 < chunksOf m.bytes.length then some (m, i + 1) else none
        some ({ s with mb := s.mb.put ((m.chunkAt i).packet rank), sender := update s.sender rank next },
          [.pushed rank m i])
      else none
  | .post cap buf =>
    match s.recv with
    | none => if cap ≤ buf.length then some ({ s with recv := some (start cap buf) }, []) else none
    | some _ => none
  | .pop =>
    match s.recv with
    | none => none
    | some r =>
      if 0 < s.mb.count then
        let p := s.mb.slots s.mb.head
        let r := r.chunk p
        some ({ s with mb := s.mb.pop, recv := if r.done then none else some r },
          .popped p :: if r.done then [.got r.finish] else [])
      else none

def init : State := ⟨⟨0, 0, 0, fun _ => ⟨⟨0, 0, 0, 0, 0, 0, 0, 0, 0⟩, []⟩⟩, fun _ => none, none⟩

def machine : Machine State Act Event := ⟨init, step⟩

/-- No other rank is in the middle of a message when a chunk enters. -/
def Alone (s : State) : Act → Prop
  | .push rank => ∀ r, r ≠ rank → ∀ m i, s.sender r = some (m, i) → i = 0
  | _ => True

open Classical in
/-- The runs in which every chunk enters so. -/
noncomputable def aloneMachine : Machine State Act Event where
  init := init
  step s a := if Alone s a then step s a else none

/-- The messages that have begun to enter, in order. -/
def entered (l : List Event) : List (Nat × Message) :=
  l.filterMap fun
    | .pushed rank m 0 => some (rank, m)
    | _ => none

def pushed (l : List Event) : List Packet :=
  l.filterMap fun
    | .pushed rank m i => some ((m.chunkAt i).packet rank)
    | _ => none

def popped (l : List Event) : List Packet :=
  l.filterMap fun
    | .popped p => some p
    | _ => none

def gots (l : List Event) : List Got :=
  l.filterMap fun
    | .got g => some g
    | _ => none

/-! ## The ring is a queue -/

def Ring.queue (mb : Ring) : List Packet := (window mb.head mb.count).map mb.slots

structure Ring.Ok (mb : Ring) : Prop where
  head : mb.head < ringSlots
  count : mb.count ≤ ringSlots
  tail : mb.tail = (mb.head + mb.count) % ringSlots

theorem Ring.ok_put {mb : Ring} (h : mb.Ok) (hroom : mb.count < ringSlots) (p : Packet) : (mb.put p).Ok where
  head := h.head
  count := hroom
  tail := by
    have := h.tail
    simp only [Ring.put, ringSlots] at *
    omega

theorem Ring.queue_put {mb : Ring} (h : mb.Ok) (hroom : mb.count < ringSlots) (p : Packet) :
    (mb.put p).queue = mb.queue ++ [p] := by
  have htail := h.tail
  simp only [Ring.queue, window, Ring.put, List.range_succ, List.map_append, List.map_map, List.map_cons, List.map_nil]
  congr 1
  · -- the slot that is filled is none of those in use
    refine List.map_congr_left fun k hk => ?_
    have hk := List.mem_range.mp hk
    refine update_of_ne ?_ _ _
    unfold ringSlots at *
    dsimp only
    omega
  · rw [← htail]
    simp

theorem Ring.ok_pop {mb : Ring} (h : mb.Ok) (hpos : 0 < mb.count) : mb.pop.Ok where
  head := Nat.mod_lt _ (by decide)
  count := by
    have := h.count
    simp only [Ring.pop]
    omega
  tail := by
    have := h.tail
    have := h.head
    simp only [Ring.pop, ringSlots] at *
    omega

theorem Ring.queue_pop {mb : Ring} (h : mb.Ok) (hpos : 0 < mb.count) :
    mb.queue = mb.slots mb.head :: mb.pop.queue := by
  obtain ⟨n, hn⟩ : ∃ n, mb.count = n + 1 := ⟨mb.count - 1, by omega⟩
  simp only [Ring.queue, Ring.pop, hn, Nat.add_sub_cancel]
  rw [window_succ h.head]
  rfl

/-! ## A receive -/

/-- The receive has taken the first `j` chunks of `m` from `s`. -/
structure Progress (s : Nat) (m : Message) (j : Nat) (r : Receiving) : Prop where
  le : j ≤ chunksOf m.bytes.length
  took : r.took = (chunks s m).take j
  src : (j = 0 ∧ r.lastSrc < 0) ∨ r.lastSrc = s
  stamp : j = 0 ∨ (r.sendTime = m.stamp.sendTime ∧ r.contendWait = m.stamp.contendWait)
  written : r.written = min (min (j * maxMsgBytes) m.bytes.length) r.cap
  buf : r.buf = m.bytes.take r.written ++ r.before.drop r.written
  done : r.done = true ↔ chunksOf m.bytes.length ≤ j

theorem progress_start (s : Nat) (m : Message) (cap : Nat) (buf : Bytes) : Progress s m 0 (start cap buf) := by
  refine ⟨Nat.zero_le _, rfl, Or.inl ⟨rfl, by show (-1 : Int) < 0; decide⟩, Or.inl rfl, by simp [start], by simp [start], ?_⟩
  have := chunksOf_pos m.bytes.length
  simp [start]
  omega

theorem Progress.chunk {s : Nat} {m : Message} {j : Nat} {r : Receiving} (h : Progress s m j r)
    (hj : j < chunksOf m.bytes.length) : Progress s m (j + 1) (r.chunk ((m.chunkAt j).packet s)) := by
  have hw := @write_chunk m j r.before r.cap r.written h.written _ rfl
  have htook := take_succ_chunks (s := s) hj
  rw [packet_chunkAt] at htook ⊢
  refine ⟨hj, ?_, ?_, Or.inr ⟨rfl, rfl⟩, ?_, ?_, ?_⟩
  · simp only [Receiving.chunk, h.took, htook]
  · right
    simp only [Receiving.chunk]
    split
    next => rfl
    next hneg => exact h.src.resolve_left fun h0 => hneg h0.2
  · simp only [Receiving.chunk, take_eq]
    exact hw.1
  · simp only [Receiving.chunk, take_eq]
    conv_lhs => rw [h.buf]
    exact hw.2
  · simp only [Receiving.chunk, Bool.not_eq_true', decide_eq_false_iff_not, Nat.not_lt]

/-- What a receive that has returned did with message `m` of rank `s`. -/
structure Delivered (s : Nat) (m : Message) (g : Got) : Prop where
  ret : g.ret = min m.bytes.length g.cap
  after : g.after = m.bytes.take g.ret ++ g.before.drop g.ret
  timing : g.timing = ⟨s, g.ret, m.stamp.sendTime, m.stamp.contendWait⟩
  took : g.took = chunks s m

theorem Progress.finish {s : Nat} {m : Message} {j : Nat} {r : Receiving} (h : Progress s m j r)
    (hdone : r.done = true) : Delivered s m r.finish := by
  have hj := h.done.mp hdone
  have hpos : j ≠ 0 := by
    have := chunksOf_pos m.bytes.length
    omega
  have hle := le_chunks_end hj
  have hw : r.written = min m.bytes.length r.cap := by
    rw [h.written]
    have : j * maxMsgBytes = maxMsgBytes * j := Nat.mul_comm _ _
    omega
  obtain ⟨hst, hcw⟩ := h.stamp.resolve_left hpos
  refine ⟨hw, h.buf, ?_, ?_⟩
  · simp only [Receiving.finish, h.src.resolve_left fun h0 => hpos h0.1, hst, hcw]
  · show r.took = _
    rw [h.took, List.take_of_length_le (by rwa [length_chunks])]

/-! ## Messages that enter whole -/

/-- The chunks of a message and the rank that sends it. -/
def chunksFrom (x : Nat × Message) : List Packet := chunks x.1 x.2

/-- No rank is in the middle of a message. -/
def NoneMid (s : State) : Prop := ∀ r m i, s.sender r = some (m, i) → i = 0

/-- Rank `q` is in the middle of a message, alone, with `rest` of it to come. -/
structure Mid (s : State) (q : Nat) (rest : List Packet) : Prop where
  here : ∃ m i, s.sender q = some (m, i) ∧ 0 < i ∧ rest = (chunks q m).drop i
  others : ∀ r, r ≠ q → ∀ m i, s.sender r = some (m, i) → i = 0

/-- Where the receive under way is. -/
def RecvAt (ms : List (Nat × Message)) (K : Nat) : Option Receiving → Prop
  | none => True
  | some r => r.took = [] ∧ r = start r.cap r.before ∨
      ∃ x j, ms[K]? = some x ∧ r.done = false ∧ Progress x.1 x.2 j r

structure Whole (s : State) (l : List Event) : Prop where
  ring : s.mb.Ok
  fifo : pushed l = popped l ++ s.mb.queue
  index : ∀ r m i, s.sender r = some (m, i) → i < chunksOf m.bytes.length
  sent : ∃ rest, pushed l ++ rest = (entered l).flatMap chunksFrom ∧
    ((rest = [] ∧ NoneMid s) ∨ ∃ q, Mid s q rest)
  got : ∀ (k : Nat) (g : Got), (gots l)[k]? = some g → ∃ x, (entered l)[k]? = some x ∧ Delivered x.1 x.2 g
  past : popped l = (gots l).flatMap Got.took ++ (s.recv.map Receiving.took).getD []
  now : RecvAt (entered l) (gots l).length s.recv

theorem Whole.done {s : State} {l : List Event} (h : Whole s l) :
    (gots l).flatMap Got.took = ((entered l).take (gots l).length).flatMap chunksFrom :=
  flatMap_eq_take fun k g hg => (h.got k g hg).imp fun _ hx => ⟨hx.1, hx.2.took⟩

theorem progress_of_pop {ms : List (Nat × Message)} {K : Nat} {r : Receiving} {p : Packet}
    (hnow : RecvAt ms K (some r)) (hpre : (ms.take K).flatMap chunksFrom ++ (r.took ++ [p]) <+: ms.flatMap chunksFrom) :
    ∃ x j, ms[K]? = some x ∧ Progress x.1 x.2 j (r.chunk p) := by
  have hnext := next_chunk hpre
  -- the next message that entered, and how much of it the receive has
  have hat : ∃ x j, ms[K]? = some x ∧ r.done = false ∧ Progress x.1 x.2 j r := by
    rcases hnow with ⟨htook, hstart⟩ | hprog
    · cases hrest : ms.drop K with
      | nil =>
        rw [hrest] at hnext
        have := hnext.length_le
        simp at this
      | cons x rest =>
        have hx : ms[K]? = some x := by
          have := congrArg List.head? hrest
          rwa [List.head?_drop, List.head?_cons] at this
        exact ⟨x, 0, hx, by rw [hstart]; rfl, by rw [hstart]; exact progress_start ..⟩
    · exact hprog
  obtain ⟨x, j, hx, hdone, hprog⟩ := hat
  have hj : j < chunksOf x.2.bytes.length := by
    have := hprog.done.not.mp (by rw [hdone]; exact Bool.false_ne_true)
    omega
  obtain ⟨hK, hget⟩ := List.getElem?_eq_some_iff.mp hx
  rw [List.drop_eq_getElem_cons hK, hget, List.flatMap_cons] at hnext
  have hlen : r.took.length = j := by
    rw [hprog.took, List.length_take, length_chunks]
    exact Nat.min_eq_left hprog.le
  have hp := eq_of_prefix (s := x.1) (m := x.2) hnext hlen hj
  exact ⟨x, j + 1, hx, hp ▸ hprog.chunk hj⟩

theorem whole_init : Whole init [] where
  ring := ⟨by decide, by decide, rfl⟩
  fifo := rfl
  index r m i h := nomatch h
  sent := ⟨[], rfl, Or.inl ⟨rfl, fun r m i h => nomatch h⟩⟩
  got k g h := by simp [gots] at h
  past := rfl
  now := trivial

section Logs

variable (l : List Event)

@[simp] theorem pushed_pushed (rank : Nat) (m : Message) (i : Nat) :
    pushed (l ++ [.pushed rank m i]) = pushed l ++ [(m.chunkAt i).packet rank] := List.filterMap_append ..

@[simp] theorem popped_pushed (rank : Nat) (m : Message) (i : Nat) : popped (l ++ [.pushed rank m i]) = popped l := by
  simp [popped]

@[simp] theorem gots_pushed (rank : Nat) (m : Message) (i : Nat) : gots (l ++ [.pushed rank m i]) = gots l := by
  simp [gots]

theorem entered_first (rank : Nat) (m : Message) : entered (l ++ [.pushed rank m 0]) = entered l ++ [(rank, m)] :=
  List.filterMap_append ..

theorem entered_later (rank : Nat) (m : Message) {i : Nat} (hi : i ≠ 0) : entered (l ++ [.pushed rank m i]) = entered l := by
  cases i with
  | zero => exact absurd rfl hi
  | succ i => simp [entered]

end Logs

theorem RecvAt.mono {ms : List (Nat × Message)} {K : Nat} {r : Option Receiving} (h : RecvAt ms K r)
    (more : List (Nat × Message)) : RecvAt (ms ++ more) K r := by
  cases r with
  | none => trivial
  | some r =>
    rcases h with hfresh | ⟨x, j, hx, hrest⟩
    · exact Or.inl hfresh
    · have hK := (List.getElem?_eq_some_iff.mp hx).1
      exact Or.inr ⟨x, j, by rw [List.getElem?_append_left hK, hx], hrest⟩

section Step

variable {s : State} {l : List Event} {rank : Nat} {m : Message} {i : Nat}

/-- What the senders are at after rank `rank` has entered chunk `i` of `m`. -/
def nextOf (m : Message) (i : Nat) : Option (Message × Nat) :=
  if i + 1 < chunksOf m.bytes.length then some (m, i + 1) else none

/-- Once a chunk has entered, what is left is the rest of its message. -/
theorem mid_after (hs : s.sender rank = some (m, i)) (halone : Alone s (.push rank)) (mb : Ring) :
    let s' : State := { s with mb := mb, sender := update s.sender rank (nextOf m i) }
    ((chunks rank m).drop (i + 1) = [] ∧ NoneMid s') ∨ Mid s' rank ((chunks rank m).drop (i + 1)) := by
  intro s'
  have hothers : ∀ r, r ≠ rank → ∀ m' i', s'.sender r = some (m', i') → i' = 0 := by
    intro r hr m' i' h
    simp only [s', update_of_ne hr] at h
    exact halone r hr m' i' h
  by_cases hlast : i + 1 < chunksOf m.bytes.length
  · refine Or.inr ⟨⟨m, i + 1, ?_, Nat.succ_pos i, rfl⟩, hothers⟩
    simp only [s', update_self, nextOf, if_pos hlast]
  · refine Or.inl ⟨List.drop_of_length_le (by rw [length_chunks]; omega), fun r m' i' h => ?_⟩
    by_cases hr : r = rank
    · subst hr
      simp only [s', update_self, nextOf, if_neg hlast] at h
      cases h
    · exact hothers r hr m' i' h

theorem Whole.push (h : Whole s l) (hs : s.sender rank = some (m, i)) (hroom : s.mb.count < ringSlots)
    (halone : Alone s (.push rank)) :
    Whole { s with mb := s.mb.put ((m.chunkAt i).packet rank), sender := update s.sender rank (nextOf m i) }
      (l ++ [.pushed rank m i]) := by
  have hi := h.index rank m i hs
  have hafter := mid_after hs halone (s.mb.put ((m.chunkAt i).packet rank))
  obtain ⟨rest, hrest, hmid⟩ := h.sent
  -- the chunk begins a message where none is under way, and goes on with the one that is
  have hentered : ∃ more, entered (l ++ [.pushed rank m i]) = entered l ++ more ∧
      pushed l ++ ((m.chunkAt i).packet rank :: (chunks rank m).drop (i + 1)) =
        (entered l ++ more).flatMap chunksFrom := by
    rcases hmid with ⟨rfl, hnone⟩ | ⟨q, ⟨m', i', hq, hpos, rfl⟩, hothers⟩
    · obtain rfl := hnone rank m i hs
      refine ⟨[(rank, m)], entered_first l rank m, ?_⟩
      rw [← drop_chunks hi, List.drop_zero, List.flatMap_append, ← hrest, List.append_nil]
      simp [chunksFrom]
    · have hqr : q = rank := by
        by_contra hne
        have := halone q hne m' i' hq
        omega
      subst hqr
      rw [hs] at hq
      obtain ⟨rfl, rfl⟩ := Prod.mk.inj (Option.some.inj hq)
      refine ⟨[], ?_, ?_⟩
      · rw [entered_later l q m (by omega), List.append_nil]
      · rw [← drop_chunks hi, hrest, List.append_nil]
  obtain ⟨more, hmore, hflat⟩ := hentered
  refine ⟨Ring.ok_put h.ring hroom _, ?_, ?_, ⟨(chunks rank m).drop (i + 1), ?_, ?_⟩, ?_, ?_, ?_⟩
  · rw [pushed_pushed, popped_pushed, Ring.queue_put h.ring hroom, h.fifo, List.append_assoc]
  · intro r m' i' hr
    dsimp only at hr
    by_cases hrr : r = rank
    · subst hrr
      rw [update_self, nextOf] at hr
      split at hr
      next hlt =>
        obtain ⟨rfl, rfl⟩ := Prod.mk.inj (Option.some.inj hr)
        exact hlt
      next => cases hr
    · rw [update_of_ne hrr] at hr
      exact h.index r m' i' hr
  · rw [pushed_pushed, hmore, ← hflat, List.append_assoc]
    rfl
  · rcases hafter with hnone | hmid
    · exact Or.inl hnone
    · exact Or.inr ⟨rank, hmid⟩
  · intro k g hk
    rw [gots_pushed] at hk
    obtain ⟨x, hx, hdel⟩ := h.got k g hk
    have hk := (List.getElem?_eq_some_iff.mp hx).1
    exact ⟨x, by rw [hmore, List.getElem?_append_left hk, hx], hdel⟩
  · rw [popped_pushed, gots_pushed]
    exact h.past
  · rw [gots_pushed, hmore]
    exact h.now.mono more

theorem Whole.send (h : Whole s l) (hs : s.sender rank = none) (m : Message) :
    Whole { s with sender := update s.sender rank (some (m, 0)) } l := by
  have hold : ∀ r m' i', update s.sender rank (some (m, 0)) r = some (m', i') →
      s.sender r = some (m', i') ∨ (r = rank ∧ m' = m ∧ i' = 0) := by
    intro r m' i' hr
    by_cases hrr : r = rank
    · subst hrr
      rw [update_self] at hr
      obtain ⟨rfl, rfl⟩ := Prod.mk.inj (Option.some.inj hr)
      exact Or.inr ⟨rfl, rfl, rfl⟩
    · rw [update_of_ne hrr] at hr
      exact Or.inl hr
  refine ⟨h.ring, h.fifo, fun r m' i' hr => ?_, ?_, h.got, h.past, h.now⟩
  · rcases hold r m' i' hr with hr | ⟨_, rfl, rfl⟩
    · exact h.index r m' i' hr
    · exact chunksOf_pos _
  · obtain ⟨rest, hrest, hmid⟩ := h.sent
    refine ⟨rest, hrest, ?_⟩
    rcases hmid with ⟨hnil, hnone⟩ | ⟨q, ⟨m', i', hq, hpos, hr⟩, hothers⟩
    · refine Or.inl ⟨hnil, fun r m' i' hr => ?_⟩
      rcases hold r m' i' hr with hr | ⟨_, _, h0⟩
      · exact hnone r m' i' hr
      · exact h0
    · have hne : q ≠ rank := by
        rintro rfl
        rw [hs] at hq
        cases hq
      refine Or.inr ⟨q, ⟨m', i', by simp [update_of_ne hne, hq], hpos, hr⟩, fun r hrq m'' i'' hr' => ?_⟩
      rcases hold r m'' i'' hr' with hr' | ⟨_, _, h0⟩
      · exact hothers r hrq m'' i'' hr'
      · exact h0

theorem Whole.pop (h : Whole s l) {r : Receiving} (hr : s.recv = some r) (hpos : 0 < s.mb.count) :
    let r' := r.chunk (s.mb.slots s.mb.head)
    Whole { s with mb := s.mb.pop, recv := if r'.done then none else some r' }
      (l ++ (.popped (s.mb.slots s.mb.head) :: if r'.done then [.got r'.finish] else [])) := by
  intro r'
  have hqueue := Ring.queue_pop h.ring hpos
  have hnow := h.now
  rw [hr] at hnow
  obtain ⟨rest, hrest, hmid⟩ := h.sent
  have hpre : ((entered l).take (gots l).length).flatMap chunksFrom ++ (r.took ++ [s.mb.slots s.mb.head]) <+:
      (entered l).flatMap chunksFrom := by
    refine ⟨s.mb.pop.queue ++ rest, ?_⟩
    have hpast := h.past
    rw [hr, Option.map_some, Option.getD_some] at hpast
    rw [← hrest, h.fifo, hpast, h.done, hqueue]
    simp
  obtain ⟨x, j, hx, hprog⟩ := progress_of_pop hnow hpre
  have htook : r'.took = r.took ++ [s.mb.slots s.mb.head] := rfl
  have hpushed : ∀ t : Bool, pushed (l ++ (.popped (s.mb.slots s.mb.head) :: if t then [.got r'.finish] else [])) = pushed l := by
    intro t
    cases t <;> simp [pushed]
  have hentered : ∀ t : Bool, entered (l ++ (.popped (s.mb.slots s.mb.head) :: if t then [.got r'.finish] else [])) = entered l := by
    intro t
    cases t <;> simp [entered]
  have hpopped : ∀ t : Bool, popped (l ++ (.popped (s.mb.slots s.mb.head) :: if t then [.got r'.finish] else [])) =
      popped l ++ [s.mb.slots s.mb.head] := by
    intro t
    cases t <;> simp [popped]
  have hpast : popped l = (gots l).flatMap Got.took ++ r.took := by
    rw [h.past, hr]
    rfl
  refine ⟨Ring.ok_pop h.ring hpos, ?_, h.index, ⟨rest, ?_, ?_⟩, ?_, ?_, ?_⟩
  · rw [hpushed, hpopped, h.fifo, hqueue]
    simp
  · rw [hpushed, hentered]
    exact hrest
  · rcases hmid with hnone | ⟨q, hq⟩
    · exact Or.inl hnone
    · exact Or.inr ⟨q, hq.here, hq.others⟩
  · intro k g hk
    rw [hentered]
    cases hd : r'.done with
    | false =>
      rw [hd] at hk
      simp only [gots, List.filterMap_append, List.filterMap_cons, Bool.false_eq_true, if_false, List.filterMap_nil,
        List.append_nil] at hk
      exact h.got k g hk
    | true =>
      have hgots : gots (l ++ (.popped (s.mb.slots s.mb.head) :: if r'.done then [.got r'.finish] else [])) =
          gots l ++ [r'.finish] := by simp [gots, hd]
      rw [hgots] at hk
      rcases Nat.lt_or_ge k (gots l).length with hlt | hge
      · rw [List.getElem?_append_left hlt] at hk
        exact h.got k g hk
      · obtain ⟨hlen, hget⟩ := List.getElem?_eq_some_iff.mp hk
        rw [List.length_append, List.length_singleton] at hlen
        obtain rfl : k = (gots l).length := by omega
        rw [List.getElem_append_right (le_refl _)] at hget
        simp only [Nat.sub_self, List.getElem_cons_zero] at hget
        exact ⟨x, hx, hget ▸ hprog.finish hd⟩
  · rw [hpopped, hpast]
    cases hd : r'.done with
    | false => simp [gots, htook]
    | true => simp [gots, Receiving.finish, htook]
  · rw [hentered]
    cases hd : r'.done with
    | false =>
      refine Or.inr ⟨x, j, ?_, hd, hprog⟩
      simpa [gots] using hx
    | true => exact trivial

end Step

theorem whole_step {s s' : State} {l es : List Event} {a : Act} (h : Whole s l)
    (hs : aloneMachine.step s a = some (s', es)) : Whole s' (l ++ es) := by
  simp only [aloneMachine] at hs
  split at hs
  next halone =>
    cases a with
    | send rank m =>
      simp only [step] at hs
      split at hs
      next hnone =>
        obtain ⟨rfl, rfl⟩ := Prod.mk.inj (Option.some.inj hs)
        rw [List.append_nil]
        exact h.send hnone m
      next => cases hs
    | push rank =>
      simp only [step] at hs
      split at hs
      next => cases hs
      next m i hrank =>
        split at hs
        next hroom =>
          obtain ⟨rfl, rfl⟩ := Prod.mk.inj (Option.some.inj hs)
          exact h.push hrank hroom halone
        next => cases hs
    | post cap buf =>
      simp only [step] at hs
      split at hs
      next hnone =>
        split at hs
        next =>
          obtain ⟨rfl, rfl⟩ := Prod.mk.inj (Option.some.inj hs)
          rw [List.append_nil]
          obtain ⟨rest, hrest, hmid⟩ := h.sent
          refine ⟨h.ring, h.fifo, h.index, ⟨rest, hrest, ?_⟩, h.got, ?_, Or.inl ⟨rfl, rfl⟩⟩
          · rcases hmid with hnone | ⟨q, hq⟩
            · exact Or.inl hnone
            · exact Or.inr ⟨q, hq.here, hq.others⟩
          · rw [h.past, hnone]
            rfl
        next => cases hs
      next => cases hs
    | pop =>
      simp only [step] at hs
      split at hs
      next => cases hs
      next r hr =>
        split at hs
        next hpos =>
          obtain ⟨rfl, rfl⟩ := Prod.mk.inj (Option.some.inj hs)
          exact h.pop hr hpos
        next => cases hs
  next => cases hs

/-- **Messages that enter whole are received whole.** In every run in which no chunk
enters while another rank is in the middle of a message, the `k`-th receive gets the
`k`-th message that entered: it returns its length or the buffer's, whichever is less,
has written as many of its bytes and nothing else, and has taken its chunks. -/
theorem process_run {s : State} {l : List Event} (h : aloneMachine.Run s l) (k : Nat) (g : Got)
    (hk : (gots l)[k]? = some g) :
    ∃ x : Nat × Message, (entered l)[k]? = some x ∧ g.ret = min x.2.bytes.length g.cap ∧
      g.after = x.2.bytes.take g.ret ++ g.before.drop g.ret ∧ g.took = chunks x.1 x.2 := by
  have hI := h.inv (I := Whole) whole_init fun hI hs => whole_step hI hs
  obtain ⟨x, hx, hdel⟩ := hI.got k g hk
  exact ⟨x, hx, hdel.ret, hdel.after, hdel.took⟩

/-! ## A chunk in between -/

section Runs

variable {s : State} {l : List Event}

theorem run_send (h : machine.Run s l) (rank : Nat) (m : Message) (hs : s.sender rank = none) :
    machine.Run { s with sender := update s.sender rank (some (m, 0)) } l := by
  have hstep : machine.step s (.send rank m) = some ({ s with sender := update s.sender rank (some (m, 0)) }, []) := by
    simp only [machine, step, hs]
  simpa using h.step hstep

theorem run_push (h : machine.Run s l) (rank : Nat) {i : Nat} {m : Message} {next : Option (Message × Nat)}
    (hs : s.sender rank = some (m, i)) (hroom : s.mb.count < ringSlots)
    (hnext : (if i + 1 < chunksOf m.bytes.length then some (m, i + 1) else none) = next) :
    machine.Run { s with
      mb := s.mb.put ((m.chunkAt i).packet rank), sender := update s.sender rank next }
      (l ++ [.pushed rank m i]) := by
  have hstep : machine.step s (.push rank) = some ({ s with
      mb := s.mb.put ((m.chunkAt i).packet rank), sender := update s.sender rank next }, [.pushed rank m i]) := by
    simp only [machine, step, hs, if_pos hroom, hnext]
  exact h.step hstep

theorem run_post (h : machine.Run s l) {cap : Nat} {buf : Bytes} (hs : s.recv = none) (hfits : cap ≤ buf.length) :
    machine.Run { s with recv := some (start cap buf) } l := by
  have hstep : machine.step s (.post cap buf) = some ({ s with recv := some (start cap buf) }, []) := by
    simp only [machine, step, hs, if_pos hfits]
  simpa using h.step hstep

theorem run_pop (h : machine.Run s l) {r : Receiving} {p : Packet} {d : Bool} (hr : s.recv = some r)
    (hpos : 0 < s.mb.count) (hp : s.mb.slots s.mb.head = p) (hd : (r.chunk p).done = d) :
    machine.Run { s with mb := s.mb.pop, recv := if d then none else some (r.chunk p) }
      (l ++ (.popped p :: if d then [.got (r.chunk p).finish] else [])) := by
  have hstep : machine.step s .pop = some ({ s with mb := s.mb.pop, recv := if d then none else some (r.chunk p) },
      .popped p :: if d then [.got (r.chunk p).finish] else []) := by
    simp only [machine, step, hr, if_pos hpos, hp, hd]
  exact h.step hstep

end Runs

theorem torn {m₁ m₂ : Message} (h₁ : chunksOf m₁.bytes.length = 2) (h₂ : chunksOf m₂.bytes.length = 1) {cap : Nat}
    {buf : Bytes} (hfits : cap ≤ buf.length) :
    ∃ (s : State) (l : List Event) (g : Got), machine.Run s l ∧ gots l = [g] ∧ entered l = [(1, m₁), (2, m₂)] ∧
      g.cap = cap ∧ g.ret = min (maxMsgBytes + m₂.bytes.length) cap := by
  have hlen₁ : (m₁.chunkAt 0).data.length = maxMsgBytes := by
    rw [length_chunkAt]
    have := chunk_start_le (n := m₁.bytes.length) (i := 1) (by omega)
    omega
  have hlen₂ : (m₂.chunkAt 0).data.length = m₂.bytes.length := by
    rw [length_chunkAt]
    have := le_chunks_end (n := m₂.bytes.length) (i := 1) (by omega)
    omega
  let r₁ := (start cap buf).chunk ((m₁.chunkAt 0).packet 1)
  let r₂ := r₁.chunk ((m₂.chunkAt 0).packet 2)
  have hd₁ : r₁.done = false := by
    simp only [r₁, Receiving.chunk, packet_chunkAt, h₁]
    decide
  have hd₂ : r₂.done = true := by
    simp only [r₂, Receiving.chunk, packet_chunkAt, h₂]
    decide
  have h0 : machine.Run init [] := .start
  have h1 := run_send h0 1 m₁ rfl
  have h2 := run_send h1 2 m₂ rfl
  have h3 := run_push h2 1 (m := m₁) (i := 0) rfl (by show 0 < 16; decide) (if_pos (by omega))
  have h4 := run_push h3 2 (m := m₂) (i := 0) rfl (by show 1 < 16; decide) (if_neg (by omega))
  have h5 := run_push h4 1 (m := m₁) (i := 1) rfl (by show 2 < 16; decide) (if_neg (by omega))
  have h6 := run_post h5 rfl hfits
  have h7 := run_pop h6 (p := (m₁.chunkAt 0).packet 1) rfl (by show 0 < 3; decide) rfl hd₁
  have h8 := run_pop h7 (p := (m₂.chunkAt 0).packet 2) rfl (by show 0 < 2; decide) rfl hd₂
  refine ⟨_, _, r₂.finish, h8, rfl, rfl, rfl, ?_⟩
  show r₁.written + _ = _
  have hw : r₁.written = min maxMsgBytes cap := by
    show 0 + _ = _
    rw [take_eq, packet_chunkAt, hlen₁]
    simp [start]
  rw [take_eq, packet_chunkAt, hlen₂, hw]
  show _ + min m₂.bytes.length (cap - _) = _
  omega

/-- 65539 bytes are received where messages of 65537 and of 3 were sent. -/
theorem torn_long_short :
    ∃ (s : State) (l : List Event) (g : Got), machine.Run s l ∧ gots l = [g] ∧ g.cap = 70000 ∧
      ∀ x ∈ entered l, g.ret ≠ min x.2.bytes.length g.cap := by
  have hlen : (List.replicate 65537 (1 : UInt8)).length = 65537 := List.length_replicate
  obtain ⟨s, l, g, hrun, hg, hl, hcap, hret⟩ := @torn ⟨0, List.replicate 65537 1, ⟨0, 0, 0⟩⟩
    ⟨0, [2, 2, 2], ⟨0, 0, 0⟩⟩ (by rw [hlen]; decide) (by decide) 70000 (List.replicate 70000 0)
    (by rw [List.length_replicate])
  refine ⟨s, l, g, hrun, hg, hcap, fun x hx => ?_⟩
  rw [hl] at hx
  rw [hret, hcap]
  rcases List.mem_cons.mp hx with rfl | hx
  · rw [hlen]
    decide
  · obtain rfl := List.mem_singleton.mp hx
    decide

/-- A message of one chunk. -/
theorem process_run_short :
    ∃ (s : State) (l : List Event) (g : Got), aloneMachine.Run s l ∧ gots l = [g] ∧ ∃ x : Nat × Message,
      (entered l)[0]? = some x ∧ g.took = chunks x.1 x.2 := by
  have halone : ∀ {s : State} (a : Act) {t : State × List Event}, Alone s a → step s a = some t →
      aloneMachine.step s a = some t := fun _ _ ha hs => (if_pos ha).trans hs
  have h0 : aloneMachine.Run init [] := .start
  have h1 := h0.step (halone (.send 2 ⟨0, [2, 2, 2], ⟨0, 0, 0⟩⟩) trivial rfl)
  have h2 := h1.step (halone (.push 2) (fun r hr m i h => by
    dsimp only at h
    rw [update_of_ne hr] at h
    cases h) rfl)
  have h3 := h2.step (halone (.post 3 [0, 0, 0]) trivial rfl)
  have h4 := h3.step (halone .pop trivial rfl)
  obtain ⟨x, hx, _, _, htook⟩ := process_run h4 0 _ rfl
  exact ⟨_, _, _, h4, rfl, x, hx, htook⟩

end Pimid.Mpi.Process
