import Pimid.Mpi.Messages
import Pimid.Mpi.Round

/-!
# A receive gets the next message, whole

What came from a rank is the chunks of its messages one message after the other, except
for those the current call has not sent. What was taken of them is the chunks of the
messages whose receives have returned and, of the next message, as many as the current
receive has taken. As the transport lets a receive take what came from its source in the
order in which it came, the chunk a receive takes is the next one of its message.
-/

namespace Pimid.Mpi.Transport

open Function (update update_of_ne update_self)

variable {N s d : Nat}

/-! ## One message -/

/-- The chunks of a message as rank `s` sends them. -/
def chunks (s : Nat) (m : Message) : List Packet :=
  (List.range (chunksOf m.bytes.length)).map fun i => (m.chunkAt i).packet s

theorem length_chunks (s : Nat) (m : Message) : (chunks s m).length = chunksOf m.bytes.length := by
  simp [chunks]

theorem getElem?_chunks {m : Message} {i : Nat} (hi : i < chunksOf m.bytes.length) :
    (chunks s m)[i]? = some ((m.chunkAt i).packet s) := by
  simp [chunks, hi]

theorem drop_chunks {m : Message} {i : Nat} (hi : i < chunksOf m.bytes.length) :
    (chunks s m).drop i = (m.chunkAt i).packet s :: (chunks s m).drop (i + 1) := by
  have hlt : i < (chunks s m).length := by rwa [length_chunks]
  rw [List.drop_eq_getElem_cons hlt]
  congr 1
  have := getElem?_chunks (s := s) hi
  rwa [List.getElem?_eq_getElem hlt, Option.some.injEq] at this

theorem length_chunkAt (m : Message) (i : Nat) :
    (m.chunkAt i).data.length = min (m.bytes.length - i * maxMsgBytes) maxMsgBytes := by
  simp only [Message.chunkAt, List.length_take, List.length_drop]
  split
  · split
    · omega
    · omega
  · split
    · omega
    · omega

theorem take_chunkAt {m : Message} {i t : Nat} (ht : t ≤ (m.chunkAt i).data.length) :
    (m.chunkAt i).data.take t = (m.bytes.drop (i * maxMsgBytes)).take t := by
  rw [length_chunkAt] at ht
  simp only [Message.chunkAt, List.take_take]
  congr 1
  split
  · split
    · omega
    · omega
  · split
    · omega
    · omega

theorem splice_prefix {l b : Bytes} {w t : Nat} (hw : w + t ≤ l.length) :
    splice (l.take w ++ b.drop w) w ((l.drop w).take t) = l.take (w + t) ++ b.drop (w + t) := by
  have hlen : ((l.drop w).take t).length = t := by
    rw [List.length_take, List.length_drop]
    omega
  have hl : (l.take w).length = w := by
    rw [List.length_take]
    omega
  unfold splice
  rw [hlen, List.take_left' hl, ← List.drop_drop, List.drop_left' hl, List.drop_drop, List.take_add]

/-- The receive `r` has taken the first `j` chunks of `m`, at least one. -/
structure Progress (s : Nat) (m : Message) (j : Nat) (r : Receiving) : Prop where
  pos : 0 < j
  le : j ≤ chunksOf m.bytes.length
  took : r.took = (chunks s m).take j
  want : r.want = s
  src : r.src = s
  written : r.written = min (min (j * maxMsgBytes) m.bytes.length) r.cap
  buf : r.buf = m.bytes.take r.written ++ r.before.drop r.written
  done : r.done = decide (chunksOf m.bytes.length ≤ j)
  timed : r.timed = true
  timings : r.timings = [⟨s, min m.bytes.length r.cap, m.stamp.sendTime, m.stamp.contendWait⟩]

/-- The receive `r` from `s` has taken nothing yet. -/
structure Fresh (s : Nat) (r : Receiving) : Prop where
  took : r.took = []
  want : r.want = s
  src : r.src < 0
  written : r.written = 0
  buf : r.buf = r.before
  done : r.done = false
  timed : r.timed = false
  timings : r.timings = []

theorem written_add {q c len cap w t : Nat} (hw : w = min (min q len) cap) (ht : t = min (min (len - q) c) (cap - w)) :
    w + t = min (min (q + c) len) cap := by
  rcases Nat.le_total (min q len) cap with hroom | hfull
  · rw [Nat.min_eq_left hroom] at hw
    rcases Nat.le_total q len with hlen | hlen
    · rw [Nat.min_eq_left hlen] at hw
      subst hw
      omega
    · -- all of it is written already
      rw [Nat.min_eq_right hlen] at hw
      rw [Nat.sub_eq_zero_of_le hlen, Nat.zero_min, Nat.zero_min] at ht
      omega
  · rw [Nat.min_eq_right hfull] at hw
    rw [hw, Nat.sub_self, Nat.min_zero] at ht
    omega

/-- A step of a receive: what it writes goes on from what it has written. -/
theorem write_chunk {m : Message} {j : Nat} {before : Bytes} {cap w : Nat}
    (hw : w = min (min (j * maxMsgBytes) m.bytes.length) cap) (t : Nat)
    (ht : t = min (m.chunkAt j).data.length (cap - w)) :
    w + t = min (min ((j + 1) * maxMsgBytes) m.bytes.length) cap ∧
      splice (m.bytes.take w ++ before.drop w) w ((m.chunkAt j).data.take t) =
        m.bytes.take (w + t) ++ before.drop (w + t) := by
  have hle : t ≤ (m.chunkAt j).data.length := ht ▸ Nat.min_le_left _ _
  have hroom : t ≤ cap - w := ht ▸ Nat.min_le_right _ _
  rw [length_chunkAt] at ht
  have hsum := written_add hw ht
  rw [← Nat.succ_mul] at hsum
  refine ⟨hsum, ?_⟩
  rw [take_chunkAt hle]
  rcases Nat.eq_zero_or_pos t with h0 | hpos
  · rw [h0]
    simp
  · -- something is written, so the receive is where the chunk begins
    rw [length_chunkAt] at hle
    generalize j * maxMsgBytes = q at hw hle
    have hlen : q < m.bytes.length :=
      Nat.lt_of_sub_pos (Nat.lt_of_lt_of_le hpos (Nat.le_trans hle (Nat.min_le_left _ _)))
    have hcap : w < cap := Nat.lt_of_sub_pos (Nat.lt_of_lt_of_le hpos hroom)
    rw [Nat.min_eq_left (Nat.le_of_lt hlen)] at hw
    have hat : q = w := by
      rcases Nat.le_total q cap with hq | hq
      · rw [hw, Nat.min_eq_left hq]
      · rw [hw, Nat.min_eq_right hq] at hcap
        exact absurd hcap (Nat.lt_irrefl _)
    have hend : t ≤ m.bytes.length - q := Nat.le_trans hle (Nat.min_le_left _ _)
    rw [hat] at hend hlen ⊢
    exact splice_prefix (Nat.add_le_of_le_sub' (Nat.le_of_lt hlen) hend)

/-- The amount `recv_chunk_thread` takes of a chunk. -/
theorem take_eq (size cap w : Nat) :
    (if size < (if cap > w then cap - w else 0) then size else (if cap > w then cap - w else 0)) =
      min size (cap - w) := by
  split
  · split <;> omega
  · split <;> omega

theorem total_eq (len cap : Nat) : (if len < cap then len else cap) = min len cap := by
  split <;> omega

theorem take_succ_chunks {m : Message} {j : Nat} (hj : j < chunksOf m.bytes.length) :
    (chunks s m).take (j + 1) = (chunks s m).take j ++ [(m.chunkAt j).packet s] := by
  rw [List.take_add_one, getElem?_chunks hj]
  rfl

theorem packet_chunkAt (m : Message) (j s : Nat) :
    (m.chunkAt j).packet s =
      ⟨⟨s, m.tag, (m.chunkAt j).data.length, j, chunksOf m.bytes.length, m.stamp.msgId, m.stamp.sendTime,
        m.stamp.contendWait, m.bytes.length⟩, (m.chunkAt j).data⟩ := rfl

theorem Fresh.chunk {m : Message} {r : Receiving} (h : Fresh s r) :
    Progress s m 1 (r.chunk ((m.chunkAt 0).packet s)) := by
  have hn := chunksOf_pos m.bytes.length
  have hw := @write_chunk m 0 r.before r.cap 0 (by simp) _ rfl
  rw [List.take_zero, List.drop_zero, List.nil_append] at hw
  have htook := take_succ_chunks (s := s) hn
  rw [List.take_zero, List.nil_append] at htook
  rw [packet_chunkAt] at htook ⊢
  refine ⟨Nat.one_pos, hn, ?_, ?_, ?_, ?_, ?_, ?_, rfl, ?_⟩
  · simp only [Receiving.chunk, h.took, List.nil_append, htook]
  · simp only [Receiving.chunk, if_pos h.src]
  · simp only [Receiving.chunk, if_pos h.src]
  · simp only [Receiving.chunk, h.written, take_eq]
    exact hw.1
  · simp only [Receiving.chunk, h.written, h.buf, take_eq]
    exact hw.2
  · simp only [Receiving.chunk, ge_iff_le]
  · simp only [Receiving.chunk, h.timed, h.timings, if_pos h.src, Bool.false_eq_true, if_false, List.nil_append,
      total_eq]

theorem Progress.chunk {m : Message} {j : Nat} {r : Receiving} (h : Progress s m j r)
    (hj : j < chunksOf m.bytes.length) :
    Progress s m (j + 1) (r.chunk ((m.chunkAt j).packet s)) := by
  have hw := @write_chunk m j r.before r.cap r.written h.written _ rfl
  have hsrc : ¬r.src < 0 := by
    rw [h.src]
    omega
  have htook := take_succ_chunks (s := s) hj
  rw [packet_chunkAt] at htook ⊢
  refine ⟨Nat.succ_pos j, hj, ?_, ?_, ?_, ?_, ?_, ?_, rfl, ?_⟩
  · simp only [Receiving.chunk, h.took, htook]
  · simp only [Receiving.chunk, if_neg hsrc]
    exact h.want
  · simp only [Receiving.chunk, if_neg hsrc]
    exact h.src
  · simp only [Receiving.chunk, take_eq]
    exact hw.1
  · simp only [Receiving.chunk, take_eq]
    conv_lhs => rw [h.buf]
    exact hw.2
  · simp only [Receiving.chunk, ge_iff_le]
  · simp only [Receiving.chunk, h.timed, if_true]
    exact h.timings

/-- What a receive that has returned did with message `m`. -/
structure Delivered (s : Nat) (m : Message) (g : Got) : Prop where
  ret : g.ret = min m.bytes.length g.cap
  after : g.after = m.bytes.take g.ret ++ g.before.drop g.ret
  timings : g.timings = [⟨s, g.ret, m.stamp.sendTime, m.stamp.contendWait⟩]
  took : g.took = chunks s m

theorem Progress.finish {m : Message} {j : Nat} {r : Receiving} (h : Progress s m j r) (hdone : r.done = true) :
    Delivered s m r.finish := by
  have hj : chunksOf m.bytes.length ≤ j := by
    have := h.done
    rw [hdone] at this
    exact of_decide_eq_true this.symm
  have hle := le_chunks_end hj
  have hw : r.written = min m.bytes.length r.cap := by
    rw [h.written]
    have : j * maxMsgBytes = maxMsgBytes * j := Nat.mul_comm _ _
    omega
  refine ⟨hw, h.buf, ?_, ?_⟩
  · simp only [Receiving.finish, h.timed, if_true, hw]
    exact h.timings
  · show r.took = _
    rw [h.took, List.take_of_length_le (by rwa [length_chunks])]

/-! ## A rank at its call -/

/-- The chunks for `d` that the call of rank `s` has still to send. -/
def Ctl.unsent (s d : Nat) : Ctl → List Packet
  | .sending dest m i _ => if dest = d then (chunks s m).drop i else []
  | .exchanging dest m _ i sent => if dest = d then (chunks s m).drop (if sent then i + 1 else i) else []
  | _ => []

def Ctl.recv? : Ctl → Option Receiving
  | .receiving r => some r
  | .exchanging _ _ r _ _ => some r
  | _ => none

/-- The chunks the call has taken from `s`. -/
def Ctl.took (s : Nat) (c : Ctl) : List Packet :=
  match c.recv? with
  | some r => if r.want = s then r.took else []
  | none => []

/-- There is a chunk to send while sending, and a source to receive from. -/
def Ctl.Ok : Ctl → Prop
  | .idle => True
  | .sending _ m i _ => i < chunksOf m.bytes.length
  | .receiving r => r.done = false ∧ 0 ≤ r.want
  | .exchanging _ _ r _ _ => 0 ≤ r.want

/-- What rank `s` has sent to `d`. -/
def SentOk (s d : Nat) (c : Ctl) (l : List CallEvent) : Prop :=
  (arrivals d (chunkEvents l)).filter (fun p => p.header.src = (s : Int)) ++ c.unsent s d = (sentTo s d l).flatMap (chunks s)

/-- What rank `d` has received from `s`. -/
structure GotOk (s d : Nat) (c : Ctl) (l : List CallEvent) : Prop where
  got : ∀ (k : Nat) (g : Got), (gotFrom s d l)[k]? = some g → ∃ m, (sentTo s d l)[k]? = some m ∧ Delivered s m g
  past : (taken d (chunkEvents l)).filter (fun p => p.header.src = (s : Int)) =
    (gotFrom s d l).flatMap Got.took ++ c.took s
  now : ∀ r, c.recv? = some r → r.want = s →
    Fresh s r ∨ ∃ m j, (sentTo s d l)[(gotFrom s d l).length]? = some m ∧ Progress s m j r

structure CallsOk (N : Nat) (st : Ranks) (l : List CallEvent) : Prop where
  serves : ∀ d, ∃ ts hs, Serves N d (st.inbox d) (chunkEvents l) ts hs
  ctl : ∀ r, (st.ctl r).Ok
  sent : ∀ s d, SentOk s d (st.ctl s) l
  got : ∀ s d, GotOk s d (st.ctl d) l

/-! ## The next chunk -/

theorem flatMap_eq_take {α β γ : Type} {gs : List α} {ms : List β} {took : α → List γ} {f : β → List γ}
    (h : ∀ (k : Nat) (g : α), gs[k]? = some g → ∃ m, ms[k]? = some m ∧ took g = f m) :
    gs.flatMap took = (ms.take gs.length).flatMap f := by
  have hmap : gs.map took = (ms.take gs.length).map f := by
    apply List.ext_getElem?
    intro k
    rw [List.getElem?_map, List.getElem?_map, List.getElem?_take]
    split
    next hk =>
      obtain ⟨m, hm, htook⟩ := h k _ (List.getElem?_eq_getElem hk)
      rw [List.getElem?_eq_getElem hk, hm, Option.map_some, Option.map_some, htook]
    next hk => rw [List.getElem?_eq_none (by omega), Option.map_none, Option.map_none]
  rw [List.flatMap_def, hmap, ← List.flatMap_def]

theorem GotOk.done {c : Ctl} {l : List CallEvent} (h : GotOk s d c l) :
    (gotFrom s d l).flatMap Got.took = ((sentTo s d l).take (gotFrom s d l).length).flatMap (chunks s) :=
  flatMap_eq_take fun k g hg => (h.got k g hg).imp fun _ hm => ⟨hm.1, hm.2.took⟩

/-- What follows the chunks of the messages received, in all the chunks sent. -/
theorem next_chunk {α β : Type} {f : α → List β} {ms : List α} {K : Nat} {took : List β}
    (hpre : (ms.take K).flatMap f ++ took <+: ms.flatMap f) : took <+: (ms.drop K).flatMap f := by
  rw [← List.take_append_drop K ms, List.flatMap_append, List.take_append_drop] at hpre
  exact (List.prefix_append_right_inj _).mp hpre

theorem eq_of_prefix {took : List Packet} {p : Packet} {j : Nat} {m : Message} {rest : List Packet}
    (hpre : took ++ [p] <+: chunks s m ++ rest) (hj : took.length = j) (hlt : j < chunksOf m.bytes.length) :
    p = (m.chunkAt j).packet s := by
  obtain ⟨t, ht⟩ := hpre
  have hget := congrArg (·[j]?) ht
  simp only [List.append_assoc, List.singleton_append] at hget
  rw [List.getElem?_append_right (by omega), ← hj, Nat.sub_self,
    List.getElem?_append_left (by rw [length_chunks]; omega)] at hget
  rw [hj, getElem?_chunks hlt] at hget
  simpa using hget

theorem progress_of_take {ms : List Message} {K : Nat} {r : Receiving} {p : Packet} (hdone : r.done = false)
    (hnow : Fresh s r ∨ ∃ m j, ms[K]? = some m ∧ Progress s m j r)
    (hpre : (ms.take K).flatMap (chunks s) ++ (r.took ++ [p]) <+: ms.flatMap (chunks s)) :
    ∃ m j, ms[K]? = some m ∧ Progress s m j (r.chunk p) := by
  have hnext := next_chunk hpre
  rcases hnow with hfresh | ⟨m, j, hm, hprog⟩
  · rw [hfresh.took, List.nil_append] at hnext
    cases hrest : ms.drop K with
    | nil =>
      rw [hrest] at hnext
      have := hnext.length_le
      simp at this
    | cons m rest =>
      rw [hrest, List.flatMap_cons] at hnext
      have hm : ms[K]? = some m := by
        have := congrArg List.head? hrest
        rwa [List.head?_drop, List.head?_cons] at this
      rw [← List.nil_append [p]] at hnext
      have hp := eq_of_prefix hnext rfl (chunksOf_pos _)
      exact ⟨m, 1, hm, hp ▸ hfresh.chunk⟩
  · have hj : j < chunksOf m.bytes.length := by
      have := hprog.done
      rw [hdone] at this
      exact Nat.lt_of_not_le (of_decide_eq_false this.symm)
    obtain ⟨hK, hget⟩ := List.getElem?_eq_some_iff.mp hm
    rw [List.drop_eq_getElem_cons hK, hget, List.flatMap_cons] at hnext
    have hlen : r.took.length = j := by
      rw [hprog.took, List.length_take, length_chunks]
      exact Nat.min_eq_left hprog.le
    have hp := eq_of_prefix hnext hlen hj
    exact ⟨m, j + 1, hm, hp ▸ hprog.chunk hj⟩

/-! ## The steps -/

@[simp] theorem chunkEvents_append (l l' : List CallEvent) : chunkEvents (l ++ l') = chunkEvents l ++ chunkEvents l' :=
  List.filterMap_append ..

@[simp] theorem sentTo_append (s d : Nat) (l l' : List CallEvent) : sentTo s d (l ++ l') = sentTo s d l ++ sentTo s d l' :=
  List.filterMap_append ..

@[simp] theorem gotFrom_append (s d : Nat) (l l' : List CallEvent) :
    gotFrom s d (l ++ l') = gotFrom s d l ++ gotFrom s d l' :=
  List.filterMap_append ..

@[simp] theorem chunkEvents_map (es : List Event) : chunkEvents (es.map .chunk) = es := by
  induction es with
  | nil => rfl
  | cons e es ih => exact congrArg (e :: ·) ih

@[simp] theorem sentTo_map (s d : Nat) (es : List Event) : sentTo s d (es.map .chunk) = [] := by
  induction es with
  | nil => rfl
  | cons e es ih => exact ih

@[simp] theorem gotFrom_map (s d : Nat) (es : List Event) : gotFrom s d (es.map .chunk) = [] := by
  induction es with
  | nil => rfl
  | cons e es ih => exact ih

/-- The events of rank `rk` about its calls. -/
def About (rk : Nat) (evs : List CallEvent) : Prop :=
  chunkEvents evs = [] ∧ (∀ s d, s ≠ rk → sentTo s d evs = []) ∧ ∀ s d, d ≠ rk → gotFrom s d evs = []

theorem about_nil (rk : Nat) : About rk [] := ⟨rfl, fun _ _ _ => rfl, fun _ _ _ => rfl⟩

theorem about_sent (rk dest : Nat) (m : Message) : About rk [.sent rk dest m] :=
  ⟨rfl, fun s d hs => by simp [sentTo, Ne.symm hs], fun _ _ _ => rfl⟩

theorem about_got (rk : Nat) (g : Got) : About rk [.got rk g] :=
  ⟨rfl, fun _ _ _ => rfl, fun s d hd => by simp [gotFrom, Ne.symm hd]⟩

theorem GotOk.mono {c c' : Ctl} {l l' : List CallEvent} (h : GotOk s d c l) (hgot : gotFrom s d l' = gotFrom s d l)
    (htaken : (taken d (chunkEvents l')).filter (fun p => p.header.src = (s : Int)) =
      (taken d (chunkEvents l)).filter fun p => p.header.src = (s : Int))
    (hsent : sentTo s d l <+: sentTo s d l') (htook : c'.took s = c.took s)
    (hnow : ∀ r, c'.recv? = some r → r.want = s → c.recv? = some r ∨ Fresh s r) : GotOk s d c' l' := by
  have hmem : ∀ (k : Nat) (m : Message), (sentTo s d l)[k]? = some m → (sentTo s d l')[k]? = some m := by
    intro k m hm
    obtain ⟨t, ht⟩ := hsent
    have hk := (List.getElem?_eq_some_iff.mp hm).1
    rw [← ht, List.getElem?_append_left hk, hm]
  refine ⟨fun k g hg => ?_, by rw [htaken, hgot, htook, h.past], fun r hr hw => ?_⟩
  · rw [hgot] at hg
    obtain ⟨m, hm, hdel⟩ := h.got k g hg
    exact ⟨m, hmem k m hm, hdel⟩
  · rcases hnow r hr hw with hold | hfresh
    · rcases h.now r hold hw with hfresh | ⟨m, j, hm, hprog⟩
      · exact Or.inl hfresh
      · rw [hgot]
        exact Or.inr ⟨m, j, hmem _ m hm, hprog⟩
    · exact Or.inl hfresh

section Step

variable {st : Ranks} {l : List CallEvent} {rk : Nat} {inbox : Nat → Inbox} {es : List Event} {evs : List CallEvent}
  {c : Ctl}

theorem CallsOk.step (h : CallsOk N st l) (habout : About rk evs)
    (hserves : ∀ d, ∃ ts hs, Serves N d (inbox d) (chunkEvents l ++ es) ts hs)
    (harr : ∀ s d, s ≠ rk → (arrivals d (chunkEvents l ++ es)).filter (fun p => p.header.src = (s : Int)) =
      (arrivals d (chunkEvents l)).filter fun p => p.header.src = (s : Int))
    (htaken : ∀ d, d ≠ rk → taken d (chunkEvents l ++ es) = taken d (chunkEvents l))
    (hok : c.Ok) (hsent : ∀ d, SentOk rk d c (l ++ (es.map .chunk ++ evs)))
    (hgot : ∀ s, GotOk s rk c (l ++ (es.map .chunk ++ evs))) :
    CallsOk N ⟨inbox, update st.ctl rk c⟩ (l ++ (es.map .chunk ++ evs)) := by
  have hchunks : chunkEvents (l ++ (es.map .chunk ++ evs)) = chunkEvents l ++ es := by
    simp [habout.1]
  refine ⟨by rw [hchunks]; exact hserves, fun r => ?_, fun s d => ?_, fun s d => ?_⟩
  · dsimp only
    by_cases hr : r = rk
    · subst hr
      rw [update_self]
      exact hok
    · rw [update_of_ne hr]
      exact h.ctl r
  · dsimp only
    by_cases hs : s = rk
    · subst hs
      rw [update_self]
      exact hsent d
    · rw [update_of_ne hs, SentOk, hchunks, harr s d hs]
      simp only [sentTo_append, sentTo_map, habout.2.1 s d hs, List.append_nil]
      exact h.sent s d
  · dsimp only
    by_cases hd : d = rk
    · subst hd
      rw [update_self]
      exact hgot s
    · rw [update_of_ne hd]
      refine (h.got s d).mono ?_ ?_ ?_ rfl fun r hr _ => Or.inl hr
      · simp [habout.2.2 s d hd]
      · rw [hchunks, htaken d hd]
      · rw [sentTo_append]
        exact List.prefix_append _ _

theorem CallsOk.quiet (h : CallsOk N st l) (habout : About rk evs) (hok : c.Ok)
    (hsent : ∀ d, c.unsent rk d = (st.ctl rk).unsent rk d ++ (sentTo rk d evs).flatMap (chunks rk))
    (hgot : ∀ s, GotOk s rk c (l ++ evs)) :
    CallsOk N ⟨st.inbox, update st.ctl rk c⟩ (l ++ evs) := by
  have hnil : CallsOk N ⟨st.inbox, update st.ctl rk c⟩ (l ++ (([] : List Event).map .chunk ++ evs)) := by
    refine h.step habout (by simpa using h.serves) (by simp) (by simp) hok ?_ (by simpa using hgot)
    intro d
    have := h.sent rk d
    unfold SentOk at this ⊢
    simp only [chunkEvents_append, sentTo_append, habout.1, List.map_nil, List.nil_append, List.append_nil,
      List.flatMap_append]
    rw [hsent d, ← this, List.append_assoc]
  simpa using hnil

theorem CallsOk.send (h : CallsOk N st l) {dest : Nat} {o : Outgoing}
    (hs : Transport.step N st.inbox (.send rk dest o) = some (inbox, es)) (hok : c.Ok)
    (hunsent : ∀ d, (st.ctl rk).unsent rk d = (if d = dest then [o.packet rk] else []) ++ c.unsent rk d)
    (htook : ∀ s, c.took s = (st.ctl rk).took s)
    (hnow : ∀ (s : Nat) r, c.recv? = some r → r.want = s → (st.ctl rk).recv? = some r ∨ Fresh s r) :
    CallsOk N ⟨inbox, update st.ctl rk c⟩ (l ++ es.map .chunk) := by
  have hserves := step_serves h.serves hs
  have hes : es = [.enqueued dest (o.packet rk)] := by
    rw [Transport.step] at hs
    split at hs
    · split at hs
      · exact (Prod.mk.inj (Option.some.inj hs)).2.symm
      · cases hs
    · cases hs
  subst hes
  have harr : ∀ d, arrivals d (chunkEvents l ++ [.enqueued dest (o.packet rk)]) =
      arrivals d (chunkEvents l) ++ if d = dest then [o.packet rk] else [] := by
    intro d
    rw [arrivals_enqueued]
    split <;> simp
  have hsrc : (o.packet rk).header.src = (rk : Int) := rfl
  have hstep : CallsOk N ⟨inbox, update st.ctl rk c⟩
      (l ++ (([.enqueued dest (o.packet rk)] : List Event).map .chunk ++ [])) := by
    refine h.step (about_nil rk) hserves ?_ ?_ hok ?_ ?_
    · intro s d hs
      rw [harr, List.filter_append]
      split
      next =>
        simp [hsrc]
        exact fun he => hs (by omega)
      next => simp
    · intro d _
      rw [taken_enqueued]
    · intro d
      have hold := h.sent rk d
      unfold SentOk at hold ⊢
      simp only [chunkEvents_append, sentTo_append, chunkEvents_map, sentTo_map, List.append_nil]
      rw [← hold, hunsent d]
      show (arrivals d (chunkEvents l ++ [.enqueued dest (o.packet rk)])).filter _ ++ _ = _
      rw [harr, List.filter_append, List.append_assoc]
      congr 2
      split
      next => simp [hsrc]
      next => rfl
    · intro s
      refine (h.got s rk).mono ?_ ?_ ?_ (htook s) (hnow s)
      · simp [gotFrom]
      · simp [taken_enqueued, chunkEvents]
      · simp
  simpa using hstep

/-- A receive from a rank takes a chunk of that rank, or waits. -/
theorem recv_cases {b : Nat → Inbox} {want : Int} (hs : Transport.step N b (.recv rk want) = some (inbox, es))
    (hok : (b rk).Ok N) (hw : 0 ≤ want) : es = [] ∨ ∃ p, es = [.took rk p] ∧ p.header.src = want := by
  rw [Transport.step] at hs
  split at hs
  next =>
    rcases recvThread_spec hok want with ⟨hfull | ⟨b', hb, _⟩, _⟩ | ⟨pre, p, post, b', hb, _, _, hm, _⟩
    · rw [hfull] at hs
      cases hs
    · rw [hb] at hs
      exact Or.inl (Prod.mk.inj (Option.some.inj hs)).2.symm
    · rw [hb] at hs
      refine Or.inr ⟨p, (Prod.mk.inj (Option.some.inj hs)).2.symm, ?_⟩
      simp only [Header.matches, Bool.or_eq_true, decide_eq_true_eq] at hm
      omega
  next => cases hs

theorem took_append (p : Packet) (s : Nat) :
    (taken rk (chunkEvents (l ++ [.chunk (.took rk p)]))).filter (fun p => p.header.src = (s : Int)) =
      (taken rk (chunkEvents l)).filter (fun p => p.header.src = (s : Int)) ++
        if p.header.src = (s : Int) then [p] else [] := by
  rw [chunkEvents_append]
  show (taken rk (chunkEvents l ++ [.took rk p])).filter _ = _
  rw [taken_took, if_pos rfl, List.filter_append]
  congr 1
  by_cases h : p.header.src = (s : Int)
  · simp [h]
  · simp [h]

/-- The receive that takes a chunk is at the next message, and goes on with it. -/
theorem CallsOk.progress (h : CallsOk N st l) {want : Int} {p : Packet} {r : Receiving}
    (hs : Transport.step N st.inbox (.recv rk want) = some (inbox, [.took rk p]))
    (hr : (st.ctl rk).recv? = some r) (hw : r.want = s) (hp : p.header.src = s) (hdone : r.done = false) :
    ∃ m j, (sentTo s rk l)[(gotFrom s rk l).length]? = some m ∧ Progress s m j (r.chunk p) := by
  obtain ⟨ts, hs', hserves⟩ := step_serves h.serves hs rk
  have horder := hserves.in_order (s : Int)
  rw [arrivals_took, taken_took, if_pos rfl, List.filter_append, List.filter_cons_of_pos (by simp [hp]),
    List.filter_nil] at horder
  have hg := h.got s rk
  have htook : (st.ctl rk).took s = r.took := by
    unfold Ctl.took
    rw [hr]
    simp [hw]
  rw [hg.past, hg.done, htook, List.append_assoc] at horder
  have hsent := h.sent s rk
  unfold SentOk at hsent
  refine progress_of_take hdone (hg.now r hr hw) (horder.trans ?_)
  rw [← hsent]
  exact List.prefix_append _ _

theorem CallsOk.got_took (h : CallsOk N st l) {want : Int} {p : Packet} {r : Receiving}
    (hs : Transport.step N st.inbox (.recv rk want) = some (inbox, [.took rk p]))
    (hr : (st.ctl rk).recv? = some r) (hpos : 0 ≤ r.want) (hp : p.header.src = r.want) (hdone : r.done = false)
    (hc : c.recv? = some (r.chunk p)) (s : Nat) : GotOk s rk c (l ++ [.chunk (.took rk p)]) := by
  obtain ⟨s₀, hs₀⟩ := Int.eq_ofNat_of_zero_le hpos
  obtain ⟨m, j, hm, hprog⟩ := h.progress hs hr hs₀ (hp.trans hs₀) hdone
  have hg := h.got s rk
  have hgot : gotFrom s rk (l ++ [.chunk (.took rk p)]) = gotFrom s rk l := by simp [gotFrom]
  have hsent : sentTo s rk (l ++ [.chunk (.took rk p)]) = sentTo s rk l := by simp [sentTo]
  refine ⟨by rw [hgot, hsent]; exact hg.got, ?_, ?_⟩
  · rw [took_append, hgot, hg.past, List.append_assoc]
    congr 1
    unfold Ctl.took
    rw [hr, hc]
    dsimp only
    rw [hprog.want, hs₀, hp, hs₀]
    split
    next => rfl
    next => rfl
  · intro r' hr' hw
    rw [hc] at hr'
    obtain rfl := Option.some.inj hr'
    rw [hprog.want] at hw
    obtain rfl : s₀ = s := Int.ofNat.inj hw
    rw [hgot, hsent]
    exact Or.inr ⟨m, j, hm, hprog⟩

theorem GotOk.finish {d : Nat} {c c' : Ctl} {r : Receiving} (h : GotOk s d c l) (hr : c.recv? = some r)
    (hdone : r.done = true) (hc' : c'.recv? = none) : GotOk s d c' (l ++ [.got d r.finish]) := by
  have htook' : c'.took s = [] := by
    unfold Ctl.took
    rw [hc']
  have hsent : sentTo s d (l ++ [.got d r.finish]) = sentTo s d l := by simp [sentTo]
  have hchunks : chunkEvents (l ++ [.got d r.finish]) = chunkEvents l := by simp [chunkEvents]
  by_cases hw : r.want = s
  · have hgot : gotFrom s d (l ++ [.got d r.finish]) = gotFrom s d l ++ [r.finish] := by
      rw [gotFrom_append]
      simp [gotFrom, Receiving.finish, hw]
    have htook : c.took s = r.took := by
      unfold Ctl.took
      rw [hr]
      simp [hw]
    refine ⟨fun k g hk => ?_, ?_, fun r' hr' _ => by rw [hc'] at hr'; cases hr'⟩
    · rw [hgot] at hk
      rw [hsent]
      rcases Nat.lt_or_ge k (gotFrom s d l).length with hlt | hge
      · rw [List.getElem?_append_left hlt] at hk
        exact h.got k g hk
      · obtain ⟨hlen, hget⟩ := List.getElem?_eq_some_iff.mp hk
        rw [List.length_append, List.length_singleton] at hlen
        obtain rfl : k = (gotFrom s d l).length := by omega
        rw [List.getElem_append_right (le_refl _)] at hget
        simp only [Nat.sub_self, List.getElem_cons_zero] at hget
        rcases h.now r hr hw with hfresh | ⟨m, j, hm, hprog⟩
        · rw [hfresh.done] at hdone
          cases hdone
        · exact ⟨m, hm, hget ▸ hprog.finish hdone⟩
    · rw [hchunks, hgot, htook', h.past, htook, List.flatMap_append, List.append_nil]
      simp [Receiving.finish]
  · have hgot : gotFrom s d (l ++ [.got d r.finish]) = gotFrom s d l := by
      rw [gotFrom_append]
      simp [gotFrom, Receiving.finish, hw]
    refine h.mono hgot (by rw [hchunks]) (by rw [hsent]) ?_ fun r' hr' _ => by rw [hc'] at hr'; cases hr'
    rw [htook']
    unfold Ctl.took
    rw [hr]
    simp [hw]

theorem CallsOk.recv (h : CallsOk N st l) {want : Int} {p : Packet} {r : Receiving}
    (hs : Transport.step N st.inbox (.recv rk want) = some (inbox, [.took rk p]))
    (hr : (st.ctl rk).recv? = some r) (hpos : 0 ≤ r.want) (hp : p.header.src = r.want) (hdone : r.done = false)
    (hok : c.Ok) (hunsent : ∀ d, c.unsent rk d = (st.ctl rk).unsent rk d)
    (hc : (evs = [] ∧ c.recv? = some (r.chunk p)) ∨
      (evs = [.got rk (r.chunk p).finish] ∧ (r.chunk p).done = true ∧ c.recv? = none)) :
    CallsOk N ⟨inbox, update st.ctl rk c⟩ (l ++ ([.chunk (.took rk p)] ++ evs)) := by
  have habout : About rk evs := by
    rcases hc with ⟨rfl, _⟩ | ⟨rfl, _⟩
    · exact about_nil rk
    · exact about_got rk _
  have hgot : ∀ s, GotOk s rk c (l ++ ([.chunk (.took rk p)] ++ evs)) := by
    intro s
    rcases hc with ⟨rfl, hc⟩ | ⟨rfl, hd, hc⟩
    · exact h.got_took hs hr hpos hp hdone hc s
    · rw [← List.append_assoc]
      exact (h.got_took (c := .receiving (r.chunk p)) hs hr hpos hp hdone rfl s).finish rfl hd hc
  have hstep : CallsOk N ⟨inbox, update st.ctl rk c⟩
      (l ++ (([.took rk p] : List Event).map .chunk ++ evs)) := by
    refine h.step habout (step_serves h.serves hs) ?_ ?_ hok ?_ hgot
    · intro s d _
      rw [arrivals_took]
    · intro d hd
      rw [taken_took, if_neg hd]
    · intro d
      have hold := h.sent rk d
      have hsent : sentTo rk d evs = [] := by
        rcases hc with ⟨rfl, _⟩ | ⟨rfl, _⟩
        · rfl
        · rfl
      unfold SentOk at hold ⊢
      simp only [chunkEvents_append, sentTo_append, chunkEvents_map, sentTo_map, habout.1, hsent, List.append_nil]
      rw [arrivals_took, hunsent d, hold]
  exact hstep

end Step

/-! ## The calls -/

theorem fresh_start (p : Posted) (h : p.src = s) : Fresh s p.start := 
  ⟨rfl, h, by show (-1 : Int) < 0; decide, rfl, rfl, rfl, rfl, rfl⟩

theorem isRank_nonneg {r : Int} (h : isRank N r = true) : 0 ≤ r := by
  unfold isRank at h
  rw [Bool.and_eq_true, decide_eq_true_eq] at h
  exact h.1

/-- What a call may begin as, on rank `rk`. -/
structure Begins (rk : Nat) (c : Ctl) (evs : List CallEvent) : Prop where
  about : About rk evs
  ok : c.Ok
  unsent : ∀ d, c.unsent rk d = (sentTo rk d evs).flatMap (chunks rk)
  got : ∀ s, gotFrom s rk evs = []
  fresh : ∀ (s : Nat) r, c.recv? = some r → r.want = s → Fresh s r

theorem begins_idle (rk : Nat) : Begins rk .idle [] :=
  ⟨about_nil rk, trivial, fun _ => rfl, fun _ => rfl, fun _ _ h => nomatch h⟩

theorem begins_recv (rk : Nat) (p : Posted) : Begins rk (beginRecv N p) [] := by
  unfold beginRecv
  split
  next h =>
    refine ⟨about_nil rk, ⟨rfl, isRank_nonneg h⟩, fun _ => rfl, fun _ => rfl, fun s r hr hw => ?_⟩
    obtain rfl := Option.some.inj hr
    exact fresh_start p hw
  next => exact begins_idle rk

theorem unsent_begin (rk dest d : Nat) (m : Message) :
    (if dest = d then (chunks rk m).drop 0 else []) = (sentTo rk d [.sent rk dest m]).flatMap (chunks rk) := by
  by_cases h : dest = d
  · simp [sentTo, h]
  · simp [sentTo, h]

theorem begins_send (rk dest : Nat) (m : Message) (next : Option Posted) :
    Begins rk (.sending dest m 0 next) [.sent rk dest m] :=
  ⟨about_sent rk dest m, chunksOf_pos _, fun d => unsent_begin rk dest d m, fun _ => rfl, fun _ _ h => nomatch h⟩

theorem begins_call (rk : Nat) (c : Call) : Begins rk (beginCall N rk c).1 (beginCall N rk c).2 := by
  cases c with
  | sendBytes dest m =>
    simp only [beginCall]
    split
    next => exact begins_idle rk
    next =>
      split
      next => exact begins_send rk _ m none
      next => exact begins_idle rk
  | recvBytes p =>
    simp only [beginCall]
    split
    next => exact begins_idle rk
    next => exact begins_recv rk p
  | xchgBytes dest m p =>
    simp only [beginCall]
    split
    next => exact begins_idle rk
    next =>
      split
      next h =>
        rw [Bool.and_eq_true] at h
        refine ⟨about_sent rk _ m, isRank_nonneg h.2, fun d => unsent_begin rk _ d m, fun _ => rfl, fun s r hr hw => ?_⟩
        obtain rfl := Option.some.inj hr
        exact fresh_start p hw
      next =>
        split
        next => exact begins_send rk _ m (some p)
        next => exact begins_recv rk p

section Calls

variable {st st' : Ranks} {l evs : List CallEvent} {rk : Nat}

theorem CallsOk.begin (h : CallsOk N st l) (hidle : st.ctl rk = .idle) {c : Ctl} (hb : Begins rk c evs) :
    CallsOk N ⟨st.inbox, update st.ctl rk c⟩ (l ++ evs) := by
  refine h.quiet hb.about hb.ok ?_ ?_
  · intro d
    rw [hb.unsent d, hidle]
    rfl
  · intro s
    refine (h.got s rk).mono ?_ ?_ ?_ ?_ fun r hr hw => Or.inr (hb.fresh s r hr hw)
    · rw [gotFrom_append, hb.got s, List.append_nil]
    · rw [chunkEvents_append, hb.about.1, List.append_nil]
    · rw [sentTo_append]
      exact List.prefix_append _ _
    · rw [hidle]
      unfold Ctl.took
      cases hr : c.recv? with
      | none => rfl
      | some r =>
        dsimp only
        split
        next hw => exact (hb.fresh s r hr hw).took
        next => rfl

theorem unsent_afterSend {dest i : Nat} {m : Message} {next : Option Posted} (hi : i < chunksOf m.bytes.length)
    (d : Nat) : (Ctl.sending dest m i next).unsent rk d =
      (if d = dest then [(m.chunkAt i).packet rk] else []) ++ (afterSend N dest m i next).unsent rk d := by
  have hrest : (afterSend N dest m i next).unsent rk d = if dest = d then (chunks rk m).drop (i + 1) else [] := by
    unfold afterSend
    split
    next => rfl
    next hlast =>
      have hnil : (chunks rk m).drop (i + 1) = [] := List.drop_of_length_le (by rw [length_chunks]; omega)
      rw [hnil, ite_self]
      split
      next => rfl
      next p => exact (begins_recv (N := N) rk p).unsent d
  rw [hrest]
  show (if dest = d then (chunks rk m).drop i else []) = _
  by_cases hd : dest = d
  · rw [if_pos hd, if_pos hd, if_pos hd.symm, drop_chunks hi]
    rfl
  · rw [if_neg hd, if_neg hd, if_neg (Ne.symm hd)]
    rfl

theorem afterSend_ok (dest i : Nat) (m : Message) (next : Option Posted) :
    (afterSend N dest m i next).Ok ∧
      ∀ (s : Nat) r, (afterSend N dest m i next).recv? = some r → r.want = s → Fresh s r := by
  unfold afterSend
  split
  next h => exact ⟨h, fun _ _ h => nomatch h⟩
  next =>
    split
    next => exact ⟨trivial, fun _ _ h => nomatch h⟩
    next p => exact ⟨(begins_recv 0 p).ok, (begins_recv 0 p).fresh⟩

theorem critical_eq {a : Act} {k : Option Packet → Ctl × List CallEvent}
    (h : critical N st rk a k = some (st', evs)) :
    ∃ inbox es, step N st.inbox a = some (inbox, es) ∧
      st' = ⟨inbox, update st.ctl rk
        (k (es.findSome? fun | .took _ p => some p | .enqueued .. => none)).1⟩ ∧
      evs = es.map .chunk ++ (k (es.findSome? fun | .took _ p => some p | .enqueued .. => none)).2 := by
  unfold critical at h
  split at h
  next => cases h
  next inbox es hs =>
    obtain ⟨rfl, rfl⟩ := Prod.mk.inj (Option.some.inj h)
    exact ⟨inbox, es, hs, rfl, rfl⟩

theorem CallsOk.send_go (h : CallsOk N st l) {dest i : Nat} {m : Message} {c : Ctl}
    (hgo : critical N st rk (.send rk dest (m.chunkAt i)) (fun _ => (c, [])) = some (st', evs)) (hok : c.Ok)
    (hunsent : ∀ d, (st.ctl rk).unsent rk d = (if d = dest then [(m.chunkAt i).packet rk] else []) ++ c.unsent rk d)
    (htook : ∀ s, c.took s = (st.ctl rk).took s)
    (hnow : ∀ (s : Nat) r, c.recv? = some r → r.want = s → (st.ctl rk).recv? = some r ∨ Fresh s r) :
    CallsOk N st' (l ++ evs) := by
  obtain ⟨inbox, es, hs, rfl, rfl⟩ := critical_eq hgo
  rw [List.append_nil]
  exact h.send hs hok hunsent htook hnow

theorem CallsOk.recv_go (h : CallsOk N st l) {r : Receiving} {c : Ctl} {k : Packet → Ctl × List CallEvent}
    (hgo : critical N st rk (.recv rk r.want)
      (fun | none => (c, []) | some p => k p) = some (st', evs))
    (hc : st.ctl rk = c) (hr : c.recv? = some r) (hpos : 0 ≤ r.want) (hdone : r.done = false)
    (hwant : ∀ p : Packet, p.header.src = r.want → (r.chunk p).want = r.want)
    (hk : ∀ p, (r.chunk p).want = r.want → (k p).1.Ok ∧ (∀ d, (k p).1.unsent rk d = c.unsent rk d) ∧
      (((k p).2 = [] ∧ (k p).1.recv? = some (r.chunk p)) ∨
        ((k p).2 = [.got rk (r.chunk p).finish] ∧ (r.chunk p).done = true ∧ (k p).1.recv? = none))) :
    CallsOk N st' (l ++ evs) := by
  obtain ⟨inbox, es, hs, rfl, rfl⟩ := critical_eq hgo
  obtain ⟨ts, hts, hserves⟩ := h.serves rk
  rcases recv_cases hs hserves.ok hpos with rfl | ⟨p, rfl, hp⟩
  · -- it waits
    have hstep : CallsOk N ⟨inbox, update st.ctl rk c⟩ (l ++ (([] : List Event).map .chunk ++ [])) := by
      refine h.step (about_nil rk) (step_serves h.serves hs) (by simp) (by simp) (hc ▸ h.ctl rk) ?_ ?_
      · intro d
        have := h.sent rk d
        rw [hc] at this
        simpa using this
      · intro s
        have := h.got s rk
        rw [hc] at this
        simpa using this
    exact hstep
  · obtain ⟨hok, hunsent, hcase⟩ := hk p (hwant p hp)
    exact h.recv hs (hc ▸ hr) hpos hp hdone hok (fun d => (hunsent d).trans (by rw [hc])) hcase

theorem want_chunk {r : Receiving} {p : Packet} (hp : p.header.src = r.want) : (r.chunk p).want = r.want := by
  simp only [Receiving.chunk]
  split
  next => exact hp
  next => rfl

theorem CallsOk.act (h : CallsOk N st l) {a : CallAct} (hs : callStep N st a = some (st', evs)) :
    CallsOk N st' (l ++ evs) := by
  cases a with
  | begin rk c =>
    simp only [callStep] at hs
    split at hs
    next hidle =>
      split at hs
      next =>
        obtain ⟨rfl, rfl⟩ := Prod.mk.inj (Option.some.inj hs)
        exact h.begin hidle (begins_call rk c)
      next => cases hs
    next => cases hs
  | go rk =>
    simp only [callStep, goOn] at hs
    split at hs
    next => cases hs
    next dest m i next heq =>
      have hi : i < chunksOf m.bytes.length := by
        have := h.ctl rk
        rwa [heq] at this
      have hafter := afterSend_ok (N := N) dest i m next
      refine h.send_go hs hafter.1 ?_ ?_ fun s r hr hw => Or.inr (hafter.2 s r hr hw)
      · intro d
        rw [heq]
        exact unsent_afterSend hi d
      · intro s
        rw [heq]
        unfold Ctl.took
        cases hr : (afterSend N dest m i next).recv? with
        | none => rfl
        | some r =>
          dsimp only
          split
          next hw => exact (hafter.2 s r hr hw).took
          next => rfl
    next r heq =>
      have hok := h.ctl rk
      rw [heq] at hok
      refine h.recv_go hs heq rfl hok.2 hok.1 (fun p hp => want_chunk hp) fun p hw => ?_
      unfold afterRecv
      split
      next hd => exact ⟨trivial, fun _ => rfl, Or.inr ⟨rfl, hd, rfl⟩⟩
      next hd => exact ⟨⟨by simpa using hd, hw ▸ hok.2⟩, fun _ => rfl, Or.inl ⟨rfl, rfl⟩⟩
    next dest m r i heq =>
      have hok := h.ctl rk
      rw [heq] at hok
      split at hs
      next hi =>
        refine h.send_go hs hok ?_ (fun s => by rw [heq]; rfl) fun s r hr _ => Or.inl (by rw [heq]; exact hr)
        intro d
        rw [heq]
        show (if dest = d then (chunks rk m).drop i else []) = _ ++ if dest = d then (chunks rk m).drop (i + 1) else []
        by_cases hd : dest = d
        · rw [if_pos hd, if_pos hd, if_pos hd.symm, drop_chunks hi]
          rfl
        · rw [if_neg hd, if_neg hd, if_neg (Ne.symm hd)]
          rfl
      next hi =>
        obtain ⟨rfl, rfl⟩ := Prod.mk.inj (Option.some.inj hs)
        refine h.quiet (about_nil rk) hok ?_ ?_
        · intro d
          rw [heq]
          show (if dest = d then (chunks rk m).drop (i + 1) else []) = (if dest = d then (chunks rk m).drop i else []) ++ []
          have hlen := length_chunks rk m
          rw [List.drop_of_length_le (by omega), List.drop_of_length_le (by omega)]
          simp
        · intro s
          have := h.got s rk
          rw [heq] at this
          rw [List.append_nil]
          exact ⟨this.got, this.past, this.now⟩
    next dest m r i heq =>
      have hok := h.ctl rk
      rw [heq] at hok
      split at hs
      next hd =>
        obtain ⟨rfl, rfl⟩ := Prod.mk.inj (Option.some.inj hs)
        unfold afterPass
        split
        next hmore =>
          -- the receive is over, the send goes on
          refine h.quiet (about_nil rk) hok ?_ ?_
          · intro d
            rw [heq]
            exact (List.append_nil _).symm
          · intro s
            have := h.got s rk
            rw [heq] at this
            rw [List.append_nil]
            exact ⟨this.got, this.past, this.now⟩
        next hlast =>
          rw [Bool.or_eq_true, not_or] at hlast
          have hge : chunksOf m.bytes.length ≤ i + 1 := by simpa using hlast.1
          refine h.quiet (about_got rk _) trivial ?_ fun s => (h.got s rk).finish (by rw [heq]; rfl) hd rfl
          intro d
          rw [heq]
          show [] = (if dest = d then (chunks rk m).drop (i + 1) else []) ++ []
          have hlen := length_chunks rk m
          rw [List.drop_of_length_le (by omega), ite_self, List.append_nil]
      next hd =>
        refine h.recv_go hs heq rfl hok (by simpa using hd) (fun p hp => want_chunk hp) fun p hw => ?_
        unfold afterPass
        split
        next =>
          have hok' : 0 ≤ (r.chunk p).want := hw ▸ hok
          exact ⟨hok', fun _ => rfl, Or.inl ⟨rfl, rfl⟩⟩
        next hlast =>
          rw [Bool.or_eq_true, not_or] at hlast
          refine ⟨trivial, fun d => ?_, Or.inr ⟨rfl, by simpa using hlast.2, rfl⟩⟩
          have hlen := length_chunks rk m
          have hge : chunksOf m.bytes.length ≤ i + 1 := by simpa using hlast.1
          show [] = if dest = d then (chunks rk m).drop (i + 1) else []
          rw [List.drop_of_length_le (by omega), ite_self]

end Calls

theorem callsOk_init : CallsOk N (ranks N).init [] where
  serves _ := ⟨[], [], serves_init⟩
  ctl _ := trivial
  sent _ _ := rfl
  got _ _ := ⟨fun k g h => by simp [gotFrom] at h, rfl, fun r h _ => nomatch h⟩

theorem callsOk_run {st : Ranks} {l : List CallEvent} (h : (ranks N).Run st l) : CallsOk N st l :=
  h.inv (I := CallsOk N) callsOk_init fun hI hs => hI.act hs

/-- **Messages.** In every run of `N` ranks, whatever calls they make and however their
chunks interleave: the `k`-th receive from `s` that returned on `d` got the `k`-th message
`s` sent to `d`. It returned the length of the message or of its buffer, whichever is
less, wrote as many bytes of the message and nothing else, was timed once, with the
message's stamp and that length, and took all of the message's chunks. While no receive
from `s` is under way on `d`, exactly the chunks of these messages have been taken. -/
theorem message_run {st : Ranks} {l : List CallEvent} (h : (ranks N).Run st l) (s d : Nat) :
    (∀ (k : Nat) (g : Got), (gotFrom s d l)[k]? = some g →
      ∃ m : Message, (sentTo s d l)[k]? = some m ∧ g.ret = min m.bytes.length g.cap ∧
        g.after = m.bytes.take g.ret ++ g.before.drop g.ret ∧
        g.timings = [⟨s, min m.bytes.length g.cap, m.stamp.sendTime, m.stamp.contendWait⟩] ∧
        g.took = chunks s m) ∧
      ((∀ r, (st.ctl d).recv? = some r → r.want ≠ s) →
        (taken d (chunkEvents l)).filter (fun p => p.header.src = (s : Int)) =
          ((sentTo s d l).take (gotFrom s d l).length).flatMap (chunks s)) := by
  have hI := callsOk_run h
  have hg := hI.got s d
  refine ⟨fun k g hk => ?_, fun hnone => ?_⟩
  · obtain ⟨m, hm, hdel⟩ := hg.got k g hk
    exact ⟨m, hm, hdel.ret, hdel.after, by rw [hdel.timings, hdel.ret], hdel.took⟩
  · have htook : (st.ctl d).took s = [] := by
      unfold Ctl.took
      split
      next r hr => exact if_neg (hnone r hr)
      next => rfl
    rw [hg.past, htook, List.append_nil, hg.done]

/-- A message of three bytes, received into a buffer of two of four bytes. -/
theorem message_run_truncated :
    ∃ (st : Ranks) (l : List CallEvent) (g : Got), (ranks 2).Run st l ∧ gotFrom 0 1 l = [g] ∧ g.ret = 2 ∧
      g.after = [1, 2, 9, 9] ∧ ∃ m : Message, (sentTo 0 1 l)[0]? = some m ∧ g.took = chunks 0 m := by
  have hrun := Machine.Run.exec .start (show (ranks 2).exec _
    [.begin 0 (.sendBytes 1 ⟨7, [1, 2, 3], ⟨0, 5, 0⟩⟩), .begin 1 (.recvBytes ⟨0, 2, [9, 9, 9, 9], by decide⟩),
      .go 1, .go 0, .go 1] = some (_, _) from rfl)
  obtain ⟨m, hm, _, _, _, htook⟩ := (message_run hrun 0 1).1 0 _ rfl
  exact ⟨_, _, _, hrun, rfl, rfl, rfl, m, hm, htook⟩

end Pimid.Mpi.Transport
