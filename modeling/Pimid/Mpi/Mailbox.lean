import Mathlib.Algebra.Group.Nat.Defs
import Mathlib.Data.Finset.Card
import Mathlib.Data.List.Nodup
import Mathlib.Logic.Function.Basic
import Pimid.Mpi.P2P

/-!
# A rank's mailbox in thread mode

Chunks for a rank arrive in a ring of 16 slots. A sender that finds it full moves the
oldest chunk to the receiver's staging arena, and so does a receiver that looks for a
chunk the full ring does not have; an arena that is full overflows into the rank's
share of the extension. A receive takes the oldest chunk from the source it wants out
of whichever store it is in, leaving a tombstone in the ring and a mark in the
extension.

Read in the order arena, extension, ring, the stores hold the chunks in the order
they came. Every operation keeps that order: it is what `queue` lists, and each
operation is specified by what it does to `queue`.

Each operation is one critical section under the mailbox mutex. Two scans of the source
have no bound of their own; here they end in `Stop.fault` when they run off the store,
and it is proved that they never do. Only a full extension stops a send or a receive,
and the source aborts there.
-/

namespace Pimid.Mpi.Transport

open Function (update update_of_ne update_self)

/-! ## The code -/

/-- `PIMID_MPI_RING_SLOTS`. -/
def ringSlots : Nat := 16

/-- `g_stage_cap`. -/
def stageCap (nranks : Nat) : Nat := ringSlots * nranks

/-- A rank's share of the extension in bytes, and the slots in it. -/
def extShare (nranks : Nat) : Nat := (0x1000000000 - 4096) / nranks / 4096 * 4096

def slotBytes : Nat := 6 * 4 + 3 * 8 + maxMsgBytes

def extCap (nranks : Nat) : Nat := (extShare nranks + 2 ^ 64 - 64) % 2 ^ 64 / slotBytes % 2 ^ 32

/-- The header of a `MessageSlot`. A taken entry of the extension has source -1. -/
structure Header where
  src : Int
  tag : Int
  size : Nat
  chunkIdx : Nat
  nChunks : Nat
  msgId : Nat
  simSendTime : Nat
  simContendWait : Nat
  msgBytes : Nat

structure MessageSlot extends Header where
  payload : Nat → UInt8

/-- What a slot carries: its header and the first `size` bytes of its payload. -/
structure Packet where
  header : Header
  bytes : Bytes

def MessageSlot.packet (s : MessageSlot) : Packet := ⟨s.toHeader, (List.range s.size).map s.payload⟩

/-- Overwrite `d` with the header of `s` and the `size` bytes of its payload. -/
def MessageSlot.copyFrom (d s : MessageSlot) : MessageSlot where
  toHeader := s.toHeader
  payload i := if i < s.size then s.payload i else d.payload i

/-- The ring. -/
structure Mailbox where
  head : Nat
  tail : Nat
  count : Nat
  consumed : Nat → Bool
  slots : Nat → MessageSlot

/-- The staging arena: its slots, which of them are in use, and these in arrival order. -/
structure Stage where
  slots : Nat → MessageSlot
  used : Nat → Bool
  order : Nat → Nat
  n : Nat

/-- The queue in the extension. -/
structure ExtQ where
  head : Nat
  tail : Nat
  n : Nat
  slots : Nat → MessageSlot

/-- All a rank has received and not taken. -/
structure Inbox where
  mb : Mailbox
  stage : Stage
  ext : ExtQ

/-- Zeroed memory. An extension that is not mapped yet reads as an empty queue. -/
def Inbox.init : Inbox :=
  let zero : MessageSlot := ⟨⟨0, 0, 0, 0, 0, 0, 0, 0, 0⟩, fun _ => 0⟩
  ⟨⟨0, 0, 0, fun _ => false, fun _ => zero⟩, ⟨fun _ => zero, fun _ => false, fun _ => 0, 0⟩,
    ⟨0, 0, 0, fun _ => zero⟩⟩

/-- Why an operation does not return: the share of the extension is full and the
process aborts, or a scan ran off its store. -/
inductive Stop where
  | full
  | fault
  deriving DecidableEq

/-- Put a copy of `src` at the tail. -/
def ExtQ.put (q : ExtQ) (src : MessageSlot) : ExtQ where
  head := q.head
  slots := update q.slots q.tail ((q.slots q.tail).copyFrom src)
  tail := q.tail + 1
  n := q.n + 1

def stageExtPush (nranks : Nat) (q : ExtQ) (src : MessageSlot) : Except Stop ExtQ :=
  if q.tail < extCap nranks then .ok (q.put src) else .error .full

/-- Put a copy of `src` into arena slot `i`, last in the order. -/
def Stage.put (g : Stage) (i : Nat) (src : MessageSlot) : Stage where
  used := update g.used i true
  slots := update g.slots i ((g.slots i).copyFrom src)
  order := update g.order g.n i
  n := g.n + 1

def stagePush (nranks : Nat) (b : Inbox) (src : MessageSlot) : Except Stop Inbox :=
  if b.stage.n ≥ stageCap nranks ∨ b.ext.n ≠ 0 then
    (stageExtPush nranks b.ext src).map fun q => { b with ext := q }
  else
    -- while (used[i]) i++;
    match (List.range (stageCap nranks)).find? fun i => !b.stage.used i with
    | none => .error .fault
    | some i => .ok { b with stage := b.stage.put i src }

/-- The head slot is free again. -/
def Mailbox.advance (mb : Mailbox) : Mailbox :=
  { mb with
    consumed := update mb.consumed mb.head false
    head := (mb.head + 1) % ringSlots
    count := mb.count - 1 }

/-- Free the head while it is a tombstone and `n` slots are left. -/
def skipConsumed : Nat → Mailbox → Mailbox
  | 0, mb => mb
  | n + 1, mb => if mb.consumed mb.head then skipConsumed n mb.advance else mb

def ringEvictHead (nranks : Nat) (b : Inbox) : Except Stop Inbox :=
  (stagePush nranks b (b.mb.slots b.mb.head)).map fun b =>
    { b with mb := skipConsumed b.mb.advance.count b.mb.advance }

/-- `while (mb->count >= PIMID_MPI_RING_SLOTS) ring_evict_head(mb, dest)`, at most `n`
times round. -/
def evictWhileFull (nranks : Nat) : Nat → Inbox → Except Stop Inbox
  | n, b =>
    if b.mb.count ≥ ringSlots then
      match n with
      | 0 => .error .fault
      | n + 1 => do
        let b ← ringEvictHead nranks b
        evictWhileFull nranks n b
    else .ok b

/-- The arguments of `send_chunk`; `data` are the `size` bytes it copies. -/
structure Outgoing where
  tag : Int
  data : Bytes
  chunkIdx : Nat
  nChunks : Nat
  msgId : Nat
  sendTime : Nat
  contendWait : Nat
  msgBytes : Nat
  fits : data.length ≤ maxMsgBytes

/-- The chunk as rank `rank` enqueues it. -/
def Outgoing.packet (o : Outgoing) (rank : Nat) : Packet where
  header := ⟨rank, o.tag, o.data.length, o.chunkIdx, o.nChunks, o.msgId, o.sendTime, o.contendWait,
    o.msgBytes⟩
  bytes := o.data

/-- Fill the slot at the tail. -/
def Mailbox.put (mb : Mailbox) (slot : MessageSlot) : Mailbox :=
  { mb with
    slots := update mb.slots mb.tail slot
    tail := (mb.tail + 1) % ringSlots
    count := mb.count + 1 }

def sendChunk (nranks rank : Nat) (b : Inbox) (o : Outgoing) : Except Stop Inbox :=
  (evictWhileFull nranks b.mb.count b).map fun b =>
    { b with mb := b.mb.put ⟨(o.packet rank).header,
      fun i => (o.data[i]?).getD ((b.mb.slots b.mb.tail).payload i)⟩ }

/-- `RecvRef`: where the chunk is. -/
inductive RecvRef where
  | stage (pos : Nat)
  | ext (k : Nat)
  | ring (idx : Nat)

/-- `want_src < 0 || s->src == want_src`. -/
def Header.matches (want : Int) (h : Header) : Bool := decide (want < 0) || decide (h.src = want)

/-- The ring indices from the head on. -/
def window (head count : Nat) : List Nat := (List.range count).map fun k => (head + k) % ringSlots

/-- The extension indices from the head to the tail. -/
def ExtQ.range (q : ExtQ) : List Nat := List.range' q.head (q.tail - q.head)

/-- The scans of `recv_acquire_thread`: the arena, the extension, the ring. -/
def find (b : Inbox) (want : Int) : Option RecvRef :=
  match (List.range b.stage.n).find? fun k => (b.stage.slots (b.stage.order k)).matches want with
  | some k => some (.stage k)
  | none => match b.ext.range.find? fun k =>
      decide (0 ≤ (b.ext.slots k).src) && (b.ext.slots k).matches want with
    | some k => some (.ext k)
    | none => ((window b.mb.head b.mb.count).find? fun i =>
        !b.mb.consumed i && (b.mb.slots i).matches want).map .ring

/-- `recv_acquire_thread` up to its return, or its wait (`none`), at most `n` evictions
later. -/
def recvAcquire (nranks : Nat) (want : Int) : Nat → Inbox → Except Stop (Option RecvRef × Inbox)
  | n, b => match find b want with
    | some ref => .ok (some ref, b)
    | none =>
      if b.mb.count ≥ ringSlots then
        match n with
        | 0 => .error .fault
        | n + 1 => do
          let b ← ringEvictHead nranks b
          recvAcquire nranks want n b
      else .ok (none, b)

def slotAt (b : Inbox) : RecvRef → MessageSlot
  | .stage pos => b.stage.slots (b.stage.order pos)
  | .ext k => b.ext.slots k
  | .ring i => b.mb.slots i

/-- Mark entry `k` as taken. -/
def ExtQ.mark (q : ExtQ) (k : Nat) : ExtQ :=
  { q with
    slots := update q.slots k { q.slots k with src := -1 }
    n := q.n - 1 }

def stageExtRelease (q : ExtQ) (k : Nat) : Except Stop ExtQ :=
  let q := q.mark k
  if q.n = 0 then .ok { q with head := 0, tail := 0 }
  else
    -- while (ext_slot(q, q->head)->src < 0) q->head++;
    match q.range.find? fun k => decide (0 ≤ (q.slots k).src) with
    | none => .error .fault
    | some k => .ok { q with head := k }

/-- Free the arena slot at `pos` of the order; the loop `order[k] = order[k + 1]` moves
the later ones down. -/
def Stage.remove (g : Stage) (pos : Nat) : Stage :=
  { g with
    used := update g.used (g.order pos) false
    order := fun k => if pos ≤ k ∧ k + 1 < g.n then g.order (k + 1) else g.order k
    n := g.n - 1 }

/-- Leave a tombstone in ring slot `i`. -/
def Mailbox.consume (mb : Mailbox) (i : Nat) : Mailbox :=
  { mb with consumed := update mb.consumed i true }

def recvRelease (b : Inbox) : RecvRef → Except Stop Inbox
  | .ext k => (stageExtRelease b.ext k).map fun q => { b with ext := q }
  | .stage pos => .ok { b with stage := b.stage.remove pos }
  | .ring i =>
    let mb := b.mb.consume i
    .ok { b with mb := skipConsumed mb.count mb }

/-- A receive: the acquire and, if it found a chunk, the release. `none` is a receive that
waits; it starts over when it is woken. -/
def recvThread (nranks : Nat) (b : Inbox) (want : Int) : Except Stop (Option Packet × Inbox) := do
  let (ref, b) ← recvAcquire nranks want b.mb.count b
  match ref with
  | none => .ok (none, b)
  | some ref => (recvRelease b ref).map fun b' => (some (slotAt b ref).packet, b')

/-! ## What an inbox holds -/

def Stage.packets (g : Stage) : List Packet := (List.range g.n).map fun k => (g.slots (g.order k)).packet

/-- The entries of the extension that are not taken. -/
def ExtQ.untaken (q : ExtQ) : List Nat := q.range.filter fun k => decide (0 ≤ (q.slots k).src)

def ExtQ.packets (q : ExtQ) : List Packet := q.untaken.map fun k => (q.slots k).packet

/-- The ring slots that are no tombstones. -/
def Mailbox.live (mb : Mailbox) : List Nat := (window mb.head mb.count).filter fun i => !mb.consumed i

def Mailbox.packets (mb : Mailbox) : List Packet := mb.live.map fun i => (mb.slots i).packet

/-- **The chunks in the inbox**, oldest first. -/
def Inbox.queue (b : Inbox) : List Packet := b.stage.packets ++ b.ext.packets ++ b.mb.packets

theorem MessageSlot.packet_copyFrom (d s : MessageSlot) : (d.copyFrom s).packet = s.packet := by
  unfold packet copyFrom
  congr 1
  exact List.map_congr_left fun i hi => if_pos (List.mem_range.mp hi)

theorem packet_outgoing (o : Outgoing) (rank : Nat) (old : Nat → UInt8) :
    MessageSlot.packet ⟨(o.packet rank).header, fun i => (o.data[i]?).getD (old i)⟩ = o.packet rank := by
  unfold MessageSlot.packet Outgoing.packet
  congr 1
  apply List.ext_getElem?
  intro i
  simp only [List.getElem?_map]
  by_cases hi : i < o.data.length
  · simp [hi]
  · simp [Nat.le_of_not_lt hi]

/-! ## The ring -/

section

variable {h n i : Nat} {mb : Mailbox}

theorem window_succ (hh : h < ringSlots) :
    window h (n + 1) = h :: window ((h + 1) % ringSlots) n := by
  unfold window
  rw [List.range_succ_eq_map, List.map_cons, List.map_map]
  unfold ringSlots at *
  congr 1
  · omega
  · exact List.map_congr_left fun k _ => by
      show (h + (k + 1)) % 16 = ((h + 1) % 16 + k) % 16
      omega

theorem window_concat (h n : Nat) : window h (n + 1) = window h n ++ [(h + n) % ringSlots] := by
  unfold window
  rw [List.range_succ, List.map_append]
  rfl

theorem nodup_window (hn : n ≤ ringSlots) : (window h n).Nodup := by
  refine List.Nodup.map_on (fun a ha b hb hab => ?_) List.nodup_range
  rw [List.mem_range] at ha hb
  unfold ringSlots at *
  omega

/-- The ring as it is while tombstones at its head are being skipped. -/
structure Mailbox.Sound (mb : Mailbox) : Prop where
  head : mb.head < ringSlots
  count : mb.count ≤ ringSlots
  tail : mb.tail = (mb.head + mb.count) % ringSlots
  marks : ∀ i, mb.consumed i = true → i ∈ window mb.head mb.count
  src : ∀ i ∈ window mb.head mb.count, 0 ≤ (mb.slots i).src

/-- The ring between operations: tombstones only in the window, and none at its head. -/
structure Mailbox.Ok (mb : Mailbox) : Prop extends mb.Sound where
  first : 0 < mb.count → mb.consumed mb.head = false

namespace Mailbox

theorem Sound.window_eq (hs : mb.Sound) (hpos : 0 < mb.count) :
    window mb.head mb.count = mb.head :: window mb.advance.head mb.advance.count := by
  obtain ⟨n, hn⟩ : ∃ n, mb.count = n + 1 := ⟨mb.count - 1, by omega⟩
  rw [hn, window_succ hs.head]
  simp only [advance, hn, Nat.add_sub_cancel]

theorem Sound.head_notMem (hs : mb.Sound) (hpos : 0 < mb.count) :
    mb.head ∉ window mb.advance.head mb.advance.count := by
  have := nodup_window (h := mb.head) hs.count
  rw [hs.window_eq hpos] at this
  exact (List.nodup_cons.mp this).1

theorem Sound.advance (hs : mb.Sound) (hpos : 0 < mb.count) : mb.advance.Sound := by
  refine ⟨Nat.mod_lt _ (by decide), ?_, ?_, fun i hi => ?_, fun i hi => ?_⟩
  · show mb.count - 1 ≤ ringSlots
    have := hs.count
    omega
  · show mb.tail = ((mb.head + 1) % ringSlots + (mb.count - 1)) % ringSlots
    rw [hs.tail]
    unfold ringSlots
    omega
  · have hne : i ≠ mb.head := by
      rintro rfl
      simp [Mailbox.advance] at hi
    have hold : mb.consumed i = true := by
      simpa [Mailbox.advance, update_of_ne hne] using hi
    have := hs.marks i hold
    rw [hs.window_eq hpos] at this
    exact (List.mem_cons.mp this).resolve_left hne
  · refine hs.src i ?_
    rw [hs.window_eq hpos]
    exact List.mem_cons_of_mem _ hi

theorem Sound.live_advance (hs : mb.Sound) (hpos : 0 < mb.count) :
    mb.live = if mb.consumed mb.head then mb.advance.live else mb.head :: mb.advance.live := by
  have hrest : (window mb.advance.head mb.advance.count).filter (fun i => !mb.consumed i)
      = mb.advance.live := List.filter_congr fun i hi => by
    have hne : i ≠ mb.head := by
      rintro rfl
      exact hs.head_notMem hpos hi
    simp only [Mailbox.advance, update_of_ne hne]
  rw [live, hs.window_eq hpos, List.filter_cons, hrest]
  cases mb.consumed mb.head <;> rfl

end Mailbox

/-- **Skipping tombstones** changes nothing that is held. -/
theorem skipConsumed_spec (hs : mb.Sound) :
    (skipConsumed mb.count mb).Ok ∧ (skipConsumed mb.count mb).packets = mb.packets ∧
      (skipConsumed mb.count mb).count ≤ mb.count := by
  induction hn : mb.count generalizing mb with
  | zero => exact ⟨⟨hs, fun h => by simp only [skipConsumed] at h; omega⟩, rfl, Nat.le_of_eq hn⟩
  | succ n ih =>
    rw [skipConsumed]
    have hpos : 0 < mb.count := by omega
    split
    · next hc =>
      have hadv : mb.advance.count = n := by simp only [Mailbox.advance, hn, Nat.add_sub_cancel]
      obtain ⟨hok, hp, hle⟩ := ih (hs.advance hpos) hadv
      refine ⟨hok, ?_, by omega⟩
      rw [hp, Mailbox.packets, Mailbox.packets, hs.live_advance hpos, if_pos hc]
      rfl
    · next hc => exact ⟨⟨hs, fun _ => by simpa using hc⟩, rfl, Nat.le_of_eq hn⟩

/-- **Freeing the head of the ring** drops its oldest chunk. -/
theorem Mailbox.Ok.evict (hok : mb.Ok) (hpos : 0 < mb.count) :
    (skipConsumed mb.advance.count mb.advance).Ok ∧
      mb.packets = (mb.slots mb.head).packet
        :: (skipConsumed mb.advance.count mb.advance).packets ∧
      (skipConsumed mb.advance.count mb.advance).count < mb.count := by
  obtain ⟨hok', hp, hle⟩ := skipConsumed_spec (hok.toSound.advance hpos)
  refine ⟨hok', ?_, ?_⟩
  · rw [hp, packets, hok.toSound.live_advance hpos, hok.first hpos]
    rfl
  · have : mb.advance.count = mb.count - 1 := rfl
    omega

/-- **A new chunk in the ring** comes last. -/
theorem Mailbox.Ok.push (hok : mb.Ok) (hlt : mb.count < ringSlots) (slot : MessageSlot) (hsrc : 0 ≤ slot.src) :
    (mb.put slot).Ok ∧ (mb.put slot).packets = mb.packets ++ [slot.packet] := by
  have hwin : window mb.head (mb.count + 1) = window mb.head mb.count ++ [mb.tail] := by
    rw [window_concat, hok.tail]
  have hnot : mb.tail ∉ window mb.head mb.count := by
    have := nodup_window (h := mb.head) (show mb.count + 1 ≤ ringSlots from hlt)
    rw [hwin, List.nodup_append] at this
    intro hmem
    exact this.2.2 _ hmem _ (List.mem_singleton_self _) rfl
  have hfree : mb.consumed mb.tail = false := by
    rw [← Bool.not_eq_true]
    exact fun h => hnot (hok.marks _ h)
  have hslot : ∀ i ∈ window mb.head mb.count, (mb.put slot).slots i = mb.slots i := by
    intro i hi
    refine update_of_ne ?_ ..
    rintro rfl
    exact hnot hi
  have hnew : (mb.put slot).slots mb.tail = slot := update_self ..
  refine ⟨⟨⟨hok.head, hlt, ?_, fun i hi => ?_, fun i hi => ?_⟩, fun _ => ?_⟩, ?_⟩
  · show (mb.tail + 1) % ringSlots = (mb.head + (mb.count + 1)) % ringSlots
    rw [hok.tail]
    unfold ringSlots
    omega
  · show i ∈ window mb.head (mb.count + 1)
    rw [hwin]
    exact List.mem_append_left _ (hok.marks i hi)
  · replace hi : i ∈ window mb.head (mb.count + 1) := hi
    rw [hwin] at hi
    rcases List.mem_append.mp hi with hi | hi
    · rw [hslot i hi]
      exact hok.src i hi
    · rw [List.mem_singleton.mp hi, hnew]
      exact hsrc
  · rcases Nat.eq_zero_or_pos mb.count with h0 | hpos
    · have : mb.tail = mb.head := by
        rw [hok.tail, h0, Nat.add_zero]
        exact Nat.mod_eq_of_lt hok.head
      exact this ▸ hfree
    · exact hok.first hpos
  · have hlive : (mb.put slot).live = mb.live ++ [mb.tail] := by
      show List.filter _ (window mb.head (mb.count + 1)) = _
      rw [hwin, List.filter_append, List.filter_cons_of_pos (by show (!mb.consumed mb.tail) = true; simp [hfree])]
      rfl
    rw [packets, hlive, List.map_append, List.map_singleton, hnew]
    congr 1
    exact List.map_congr_left fun i hi => by rw [hslot i (List.mem_filter.mp hi).1]

theorem filter_ne_of_nodup {l pre post : List Nat} (hnd : l.Nodup) (hl : l = pre ++ i :: post) :
    (l.filter fun j => decide (j ≠ i)) = pre ++ post := by
  subst hl
  obtain ⟨-, hpost, hdis⟩ := List.nodup_append.mp hnd
  rw [List.filter_append, List.filter_cons_of_neg (by simp)]
  congr 1
  · refine List.filter_eq_self.mpr fun j hj => ?_
    simpa using hdis j hj i (List.mem_cons_self ..)
  · refine List.filter_eq_self.mpr fun j hj => ?_
    rw [decide_eq_true_eq]
    rintro rfl
    exact (List.nodup_cons.mp hpost).1 hj

/-- **Taking a chunk out of the ring** leaves the others in their order. -/
theorem Mailbox.Ok.take (hok : mb.Ok) {pre post : List Nat} (hl : mb.live = pre ++ i :: post) :
    (skipConsumed mb.count (mb.consume i)).Ok ∧
      (skipConsumed mb.count (mb.consume i)).packets
        = (pre ++ post).map fun i => (mb.slots i).packet := by
  have hmem : i ∈ mb.live := by rw [hl]; simp
  have hnd : mb.live.Nodup := (nodup_window hok.count).filter _
  have hs : (mb.consume i).Sound := by
    refine ⟨hok.head, hok.count, hok.tail, fun j hj => ?_, hok.src⟩
    by_cases hji : j = i
    · subst hji
      exact (List.mem_filter.mp hmem).1
    · refine hok.marks j ?_
      simpa only [consume, update_of_ne hji] using hj
  obtain ⟨hok', hp, -⟩ := skipConsumed_spec hs
  refine ⟨hok', hp.trans ?_⟩
  have hfilter : (mb.consume i).live = mb.live.filter fun j => decide (j ≠ i) := by
    unfold live
    rw [List.filter_filter]
    refine List.filter_congr fun j _ => ?_
    by_cases hji : j = i
    · subst hji
      simp [consume]
    · simp [consume, hji]
  rw [packets, hfilter, filter_ne_of_nodup hnd hl]
  rfl

end

/-! ## The arena -/

section

variable {cap i : Nat} {g : Stage}

/-- The order lists the slots in use, each once. -/
structure Stage.Ok (cap : Nat) (g : Stage) : Prop where
  le : g.n ≤ cap
  lt : ∀ k, k < g.n → g.order k < cap
  inj : ∀ j k, j < g.n → k < g.n → g.order j = g.order k → j = k
  used : ∀ i, g.used i = true ↔ ∃ k, k < g.n ∧ g.order k = i

namespace Stage

theorem Ok.exists_free (hok : g.Ok cap) (hlt : g.n < cap) :
    ∃ i, (List.range cap).find? (fun i => !g.used i) = some i ∧ i < cap ∧ g.used i = false := by
  cases hf : (List.range cap).find? (fun i => !g.used i) with
  | some i =>
    obtain ⟨hi, -⟩ := List.find?_eq_some_iff_append.mp hf
    exact ⟨i, rfl, List.mem_range.mp (List.mem_of_find?_eq_some hf), by simpa using hi⟩
  | none =>
    -- all slots would be in the order, which is too short
    have hsub : Finset.range cap ⊆ (Finset.range g.n).image g.order := fun i hi => by
      have := List.find?_eq_none.mp hf i (List.mem_range.mpr (Finset.mem_range.mp hi))
      obtain ⟨k, hk, hki⟩ := (hok.used i).mp (by simpa using this)
      exact Finset.mem_image.mpr ⟨k, Finset.mem_range.mpr hk, hki⟩
    have hcard := (Finset.card_le_card hsub).trans Finset.card_image_le
    rw [Finset.card_range, Finset.card_range] at hcard
    omega

theorem Ok.put (hok : g.Ok cap) (hlt : g.n < cap) (hi : i < cap) (hfree : g.used i = false)
    (s : MessageSlot) : (g.put i s).Ok cap ∧ (g.put i s).packets = g.packets ++ [s.packet] := by
  have hne : ∀ k, k < g.n → g.order k ≠ i := fun k hk h => by
    rw [(hok.used i).mpr ⟨k, hk, h⟩] at hfree
    cases hfree
  have hold : ∀ k, k < g.n → (g.put i s).order k = g.order k := fun k hk =>
    update_of_ne (by omega) ..
  have hnew : (g.put i s).order g.n = i := update_self ..
  have hn : (g.put i s).n = g.n + 1 := rfl
  refine ⟨⟨hlt, fun k hk => ?_, fun j k hj hk h => ?_, fun j => ?_⟩, ?_⟩
  · rcases Nat.lt_or_ge k g.n with h | h
    · rw [hold k h]
      exact hok.lt k h
    · obtain rfl : k = g.n := by omega
      rw [hnew]
      exact hi
  · rcases Nat.lt_or_ge j g.n with hj' | hj' <;> rcases Nat.lt_or_ge k g.n with hk' | hk'
    · rw [hold j hj', hold k hk'] at h
      exact hok.inj j k hj' hk' h
    · obtain rfl : k = g.n := by omega
      rw [hold j hj', hnew] at h
      exact absurd h (hne j hj')
    · obtain rfl : j = g.n := by omega
      rw [hold k hk', hnew] at h
      exact absurd h.symm (hne k hk')
    · omega
  · by_cases hji : j = i
    · subst hji
      refine ⟨fun _ => ⟨g.n, by omega, hnew⟩, fun _ => update_self ..⟩
    · have hused : (g.put i s).used j = g.used j := update_of_ne hji ..
      rw [hused, hok.used]
      constructor
      · rintro ⟨k, hk, hkj⟩
        exact ⟨k, by omega, (hold k hk).trans hkj⟩
      · rintro ⟨k, hk, hkj⟩
        rcases Nat.lt_or_ge k g.n with h | h
        · exact ⟨k, h, (hold k h).symm.trans hkj⟩
        · obtain rfl : k = g.n := by omega
          rw [hnew] at hkj
          exact absurd hkj.symm hji
  · unfold packets
    rw [hn, List.range_succ, List.map_append]
    congr 1
    · refine List.map_congr_left fun k hk => ?_
      rw [List.mem_range] at hk
      rw [hold k hk, show (g.put i s).slots (g.order k) = g.slots (g.order k) from
        update_of_ne (hne k hk) ..]
    · rw [List.map_singleton, hnew, show (g.put i s).slots i = (g.slots i).copyFrom s from
        update_self .., MessageSlot.packet_copyFrom]

theorem order_remove (k : Nat) : (g.remove i).order k
    = if i ≤ k ∧ k + 1 < g.n then g.order (k + 1) else g.order k := rfl

theorem Ok.remove (hok : g.Ok cap) (hi : i < g.n) : (g.remove i).Ok cap := by
  have hn : (g.remove i).n = g.n - 1 := rfl
  have hle := hok.le
  refine ⟨by omega, fun k hk => ?_, fun j k hj hk h => ?_, fun j => ?_⟩
  · rw [order_remove]
    split
    · exact hok.lt _ (by omega)
    · exact hok.lt _ (by omega)
  · rw [order_remove, order_remove] at h
    split at h <;> split at h
    · have := hok.inj _ _ (by omega) (by omega) h
      omega
    · have := hok.inj _ _ (by omega) (by omega) h
      omega
    · have := hok.inj _ _ (by omega) (by omega) h
      omega
    · exact hok.inj _ _ (by omega) (by omega) h
  · by_cases hj : j = g.order i
    · subst hj
      have hused : (g.remove i).used (g.order i) = false := update_self ..
      rw [hused]
      refine ⟨fun h => Bool.noConfusion h, ?_⟩
      rintro ⟨k, hk, hkj⟩
      rw [order_remove] at hkj
      split at hkj
      · have := hok.inj _ _ (by omega) (by omega) hkj
        omega
      · have := hok.inj _ _ (by omega) (by omega) hkj
        omega
    · have hused : (g.remove i).used j = g.used j := update_of_ne hj ..
      rw [hused, hok.used]
      constructor
      · rintro ⟨k, hk, hkj⟩
        have hki : k ≠ i := by
          rintro rfl
          exact hj hkj.symm
        rcases Nat.lt_or_ge k i with hlt | hge
        · exact ⟨k, by omega, by rw [order_remove, if_neg (by omega)]; exact hkj⟩
        · refine ⟨k - 1, by omega, ?_⟩
          rw [order_remove, if_pos (by omega), Nat.sub_add_cancel (by omega)]
          exact hkj
      · rintro ⟨k, hk, hkj⟩
        rw [order_remove] at hkj
        split at hkj
        · exact ⟨k + 1, by omega, hkj⟩
        · exact ⟨k, by omega, hkj⟩

/-- **Taking a chunk out of the arena** leaves the others in their order. -/
theorem packets_remove (hi : i < g.n) :
    ∃ pre post, g.packets = pre ++ (g.slots (g.order i)).packet :: post ∧
      (g.remove i).packets = pre ++ post ∧
      pre = (List.range i).map fun k => (g.slots (g.order k)).packet := by
  obtain ⟨r, hr⟩ : ∃ r, g.n = i + (r + 1) := ⟨g.n - i - 1, by omega⟩
  refine ⟨_, (List.range r).map fun k => (g.slots (g.order (i + (k + 1)))).packet, ?_, ?_, rfl⟩
  · rw [packets, hr, List.range_add, List.map_append, List.range_succ_eq_map]
    simp only [List.map_cons, List.map_map, Nat.add_zero]
    rfl
  · rw [packets, show (g.remove i).n = i + r by show g.n - 1 = _; omega, List.range_add, List.map_append,
      List.map_map]
    congr 1
    · refine List.map_congr_left fun k hk => ?_
      rw [List.mem_range] at hk
      rw [order_remove, if_neg (by omega)]
      rfl
    · refine List.map_congr_left fun k hk => ?_
      rw [List.mem_range] at hk
      show ((g.remove i).slots ((g.remove i).order (i + k))).packet = _
      rw [order_remove, if_pos (by omega)]
      rfl

end Stage

end

/-! ## The extension -/

section

variable {q : ExtQ} {k : Nat}

structure ExtQ.Ok (q : ExtQ) : Prop where
  le : q.head ≤ q.tail
  n : q.n = q.untaken.length

namespace ExtQ

theorem Ok.packets_eq_nil (hok : q.Ok) (h : q.n = 0) : q.packets = [] := by
  have hnil : q.untaken = [] := List.eq_nil_of_length_eq_zero (hok.n ▸ h)
  rw [packets, hnil]
  rfl

/-- **A chunk put into the extension** comes last. -/
theorem Ok.put (hok : q.Ok) {s : MessageSlot} (hsrc : 0 ≤ s.src) :
    (q.put s).Ok ∧ (q.put s).packets = q.packets ++ [s.packet] := by
  have hle := hok.le
  have hrange : (q.put s).range = q.range ++ [q.tail] := by
    show List.range' q.head (q.tail + 1 - q.head) = _
    rw [show q.tail + 1 - q.head = q.tail - q.head + 1 by omega, List.range'_concat, range]
    congr 2
    omega
  have hslot : ∀ k ∈ q.range, (q.put s).slots k = q.slots k := by
    intro k hk
    have := List.mem_range'_1.mp hk
    exact update_of_ne (by omega) ..
  have hnew : (q.put s).slots q.tail = (q.slots q.tail).copyFrom s := update_self ..
  have huntaken : (q.put s).untaken = q.untaken ++ [q.tail] := by
    unfold untaken
    rw [hrange, List.filter_append]
    congr 1
    · exact List.filter_congr fun k hk => by rw [hslot k hk]
    · rw [List.filter_cons_of_pos]
      · rfl
      · rw [hnew, decide_eq_true_eq]
        exact hsrc
  refine ⟨⟨by show q.head ≤ q.tail + 1; omega, ?_⟩, ?_⟩
  · rw [huntaken, List.length_append, ← hok.n]
    rfl
  · rw [packets, huntaken, List.map_append, List.map_singleton, hnew, MessageSlot.packet_copyFrom]
    congr 1
    exact List.map_congr_left fun k hk => by rw [hslot k (List.mem_filter.mp hk).1]

theorem untaken_mark {pre post : List Nat} (hl : q.untaken = pre ++ k :: post) :
    (q.mark k).untaken = pre ++ post := by
  have hnd : q.untaken.Nodup := (List.nodup_range' 1).filter _
  rw [← filter_ne_of_nodup hnd hl]
  unfold untaken
  rw [List.filter_filter]
  refine List.filter_congr fun j _ => ?_
  by_cases hjk : j = k
  · subst hjk
    simp [mark]
  · simp [mark, hjk]

/-- The head of the queue can move up to its first entry that is not taken. -/
theorem untaken_head {j : Nat} (hj : q.range.find? (fun k => decide (0 ≤ (q.slots k).src)) = some j) :
    q.head ≤ j ∧ j < q.tail ∧ ExtQ.untaken { q with head := j } = q.untaken := by
  obtain ⟨-, hmem, hbefore⟩ := List.find?_range'_eq_some.mp hj
  obtain ⟨hlo, hhi⟩ := List.mem_range'_1.mp hmem
  refine ⟨hlo, by omega, ?_⟩
  have hsplit : q.range = List.range' q.head (j - q.head) ++ List.range' j (q.tail - j) := by
    have := List.range'_append_1 (s := q.head) (m := j - q.head) (n := q.tail - j)
    rw [show q.head + (j - q.head) = j by omega] at this
    rw [this, range]
    congr 1
    omega
  have hnone : (List.range' q.head (j - q.head)).filter (fun k => decide (0 ≤ (q.slots k).src)) = [] :=
    List.filter_eq_nil_iff.mpr fun k hk => by
      have := List.mem_range'_1.mp hk
      have := hbefore k (by omega) (by omega)
      simpa using this
  unfold untaken
  rw [hsplit, List.filter_append, hnone]
  rfl

/-- **Taking a chunk out of the extension** leaves the others in their order, and the
scan for the new head finds one. -/
theorem Ok.release (hok : q.Ok) {pre post : List Nat} (hl : q.untaken = pre ++ k :: post) :
    ∃ q', stageExtRelease q k = .ok q' ∧ q'.Ok ∧
      q'.packets = (pre ++ post).map fun k => (q.slots k).packet := by
  have hmark := untaken_mark hl
  have hn : (q.mark k).n = (pre ++ post).length := by
    show q.n - 1 = _
    rw [hok.n, hl, List.length_append, List.length_append, List.length_cons]
    omega
  have hslots : ∀ j ∈ pre ++ post, (q.mark k).slots j = q.slots j := by
    intro j hj
    refine update_of_ne ?_ ..
    rintro rfl
    have hnd : q.untaken.Nodup := (List.nodup_range' 1).filter _
    rw [hl] at hnd
    exact (List.nodup_middle.mp hnd).notMem hj
  by_cases h0 : (q.mark k).n = 0
  · have hnil : pre ++ post = [] := List.eq_nil_of_length_eq_zero (hn ▸ h0)
    refine ⟨{ q.mark k with head := 0, tail := 0 }, ?_, ⟨Nat.le_refl 0, ?_⟩, ?_⟩
    · simp only [stageExtRelease, if_pos h0]
    · exact h0
    · rw [hnil]
      rfl
  · cases hf : (q.mark k).range.find? (fun j => decide (0 ≤ ((q.mark k).slots j).src)) with
    | none =>
      -- something is left, so the scan stops
      have hnil : (q.mark k).untaken = [] := List.filter_eq_nil_iff.mpr (List.find?_eq_none.mp hf)
      rw [hmark] at hnil
      rw [hn, hnil] at h0
      exact absurd rfl h0
    | some j =>
      obtain ⟨hlo, hhi, hhead⟩ := untaken_head hf
      refine ⟨{ q.mark k with head := j }, ?_, ⟨Nat.le_of_lt hhi, ?_⟩, ?_⟩
      · simp only [stageExtRelease, if_neg h0, hf]
      · rw [hhead, hmark]
        exact hn
      · rw [packets, hhead, hmark]
        exact List.map_congr_left fun j hj => congrArg MessageSlot.packet (hslots j hj)

end ExtQ

end

/-! ## The operations -/

section

variable {nranks : Nat} {b : Inbox} {want : Int}

structure Inbox.Ok (nranks : Nat) (b : Inbox) : Prop where
  mb : b.mb.Ok
  stage : b.stage.Ok (stageCap nranks)
  ext : b.ext.Ok

theorem Inbox.ok_init : Inbox.init.Ok nranks := by
  refine ⟨⟨⟨by decide, by decide, rfl, fun i hi => Bool.noConfusion hi, fun i hi => ?_⟩, fun h => ?_⟩,
    ⟨Nat.zero_le _, fun k hk => ?_, fun j k hj => ?_, fun i => ?_⟩, ⟨Nat.le_refl 0, rfl⟩⟩
  · exact absurd hi List.not_mem_nil
  · exact absurd h (Nat.lt_irrefl 0)
  · exact absurd hk (Nat.not_lt_zero k)
  · exact absurd hj (Nat.not_lt_zero j)
  · exact ⟨fun h => Bool.noConfusion h, fun ⟨k, hk, _⟩ => absurd hk (Nat.not_lt_zero k)⟩

/-- **Staging a chunk** puts it behind all staged ones: the arena takes it only while the
extension is empty. -/
theorem stagePush_spec (hok : b.Ok nranks) {s : MessageSlot} (hsrc : 0 ≤ s.src) :
    stagePush nranks b s = .error .full ∨ ∃ b', stagePush nranks b s = .ok b' ∧ b'.Ok nranks ∧
      b'.mb = b.mb ∧ b'.stage.packets ++ b'.ext.packets
        = b.stage.packets ++ b.ext.packets ++ [s.packet] := by
  unfold stagePush
  split
  · unfold stageExtPush
    split
    · obtain ⟨hext, hp⟩ := hok.ext.put hsrc
      refine .inr ⟨{ b with ext := b.ext.put s }, rfl, ⟨hok.mb, hok.stage, hext⟩, rfl, ?_⟩
      rw [hp, List.append_assoc]
    · exact .inl rfl
  · next hroom =>
    obtain ⟨i, hf, hi, hfree⟩ := hok.stage.exists_free (show b.stage.n < stageCap nranks by omega)
    obtain ⟨hstage, hp⟩ := hok.stage.put (by omega) hi hfree s
    refine .inr ⟨{ b with stage := b.stage.put i s }, by rw [hf], ⟨hok.mb, hstage, hok.ext⟩, rfl, ?_⟩
    have hnil : b.ext.packets = [] := hok.ext.packets_eq_nil (by omega)
    rw [hp, hnil, List.append_nil, List.append_nil]

/-- **Evicting the head of the ring** keeps the queue. -/
theorem ringEvictHead_spec (hok : b.Ok nranks) (hpos : 0 < b.mb.count) :
    ringEvictHead nranks b = .error .full ∨ ∃ b', ringEvictHead nranks b = .ok b' ∧ b'.Ok nranks ∧
      b'.queue = b.queue ∧ b'.mb.count < b.mb.count := by
  have hsrc : 0 ≤ (b.mb.slots b.mb.head).src := by
    refine hok.mb.src _ ?_
    rw [hok.mb.window_eq hpos]
    exact List.mem_cons_self ..
  unfold ringEvictHead
  rcases stagePush_spec hok hsrc with hfull | ⟨b', hb', hok', hmb, hstaged⟩
  · exact .inl (by rw [hfull]; rfl)
  · obtain ⟨hring, hp, hlt⟩ := hok.mb.evict hpos
    rw [← hmb] at hring hp hlt
    refine .inr ⟨{ b' with mb := skipConsumed b'.mb.advance.count b'.mb.advance }, by rw [hb']; rfl,
      ⟨hring, hok'.stage, hok'.ext⟩, ?_, by rw [← hmb]; exact hlt⟩
    rw [Inbox.queue, Inbox.queue, hstaged, ← hmb, hp, hmb, List.append_assoc, List.singleton_append]

theorem evictWhileFull_spec (hok : b.Ok nranks) {n : Nat} (hn : b.mb.count < ringSlots + n) :
    evictWhileFull nranks n b = .error .full ∨ ∃ b', evictWhileFull nranks n b = .ok b' ∧ b'.Ok nranks ∧
      b'.queue = b.queue ∧ b'.mb.count < ringSlots := by
  induction n generalizing b with
  | zero => exact .inr ⟨b, by rw [evictWhileFull, if_neg (by omega)], hok, rfl, hn⟩
  | succ n ih =>
    rw [evictWhileFull]
    split
    · next hge =>
      have hpos : 0 < b.mb.count := Nat.lt_of_lt_of_le (by decide) hge
      rcases ringEvictHead_spec hok hpos with hfull | ⟨b₁, hb₁, hok₁, hq₁, hlt⟩
      · exact .inl (by rw [hfull]; rfl)
      · rw [hb₁]
        rcases ih hok₁ (by omega) with hfull | ⟨b₂, hb₂, hok₂, hq₂, hlt₂⟩
        · exact .inl hfull
        · exact .inr ⟨b₂, hb₂, hok₂, hq₂.trans hq₁, hlt₂⟩
    · next hlt => exact .inr ⟨b, rfl, hok, rfl, by omega⟩

/-- **A send** appends its chunk to the queue. -/
theorem sendChunk_spec (hok : b.Ok nranks) (rank : Nat) (o : Outgoing) :
    sendChunk nranks rank b o = .error .full ∨ ∃ b', sendChunk nranks rank b o = .ok b' ∧ b'.Ok nranks ∧
      b'.queue = b.queue ++ [o.packet rank] := by
  unfold sendChunk
  rcases evictWhileFull_spec hok (n := b.mb.count) (by unfold ringSlots; omega)
    with hfull | ⟨b', hb', hok', hq, hlt⟩
  · exact .inl (by rw [hfull]; rfl)
  · obtain ⟨hring, hp⟩ := hok'.mb.push hlt ⟨(o.packet rank).header,
      fun i => (o.data[i]?).getD ((b'.mb.slots b'.mb.tail).payload i)⟩ (Int.natCast_nonneg rank)
    refine .inr ⟨{ b' with mb := b'.mb.put ⟨(o.packet rank).header,
      fun i => (o.data[i]?).getD ((b'.mb.slots b'.mb.tail).payload i)⟩ }, by rw [hb']; rfl,
      ⟨hring, hok'.stage, hok'.ext⟩, ?_⟩
    rw [Inbox.queue, hp, packet_outgoing, ← hq, ← List.append_assoc]
    rfl

/-- A scan of a store: the first entry that matches, or none. -/
theorem scan {α : Type} (l : List α) (f : α → MessageSlot) (want : Int) :
    (l.find? (fun a => (f a).matches want) = none ∧
      ∀ p ∈ l.map (fun a => (f a).packet), p.header.matches want = false) ∨
    ∃ pre a post, l.find? (fun a => (f a).matches want) = some a ∧ l = pre ++ a :: post ∧
      (f a).matches want = true ∧ ∀ p ∈ pre.map (fun a => (f a).packet), p.header.matches want = false := by
  cases hf : l.find? (fun a => (f a).matches want) with
  | none =>
    refine .inl ⟨rfl, fun p hp => ?_⟩
    obtain ⟨a, ha, rfl⟩ := List.mem_map.mp hp
    show (f a).matches want = false
    simpa using List.find?_eq_none.mp hf a ha
  | some a =>
    obtain ⟨ha, pre, post, hl, hpre⟩ := List.find?_eq_some_iff_append.mp hf
    refine .inr ⟨pre, a, post, rfl, hl, ha, fun p hp => ?_⟩
    obtain ⟨a', ha', rfl⟩ := List.mem_map.mp hp
    show (f a').matches want = false
    simpa using hpre a' ha'

theorem find_eq (b : Inbox) (want : Int) : find b want =
    match (List.range b.stage.n).find? fun k => (b.stage.slots (b.stage.order k)).matches want with
    | some k => some (.stage k)
    | none => match b.ext.untaken.find? fun k => (b.ext.slots k).matches want with
      | some k => some (.ext k)
      | none => (b.mb.live.find? fun i => (b.mb.slots i).matches want).map .ring := by
  unfold find ExtQ.untaken Mailbox.live
  simp only [List.find?_filter, Bool.decide_and, Bool.decide_eq_true]

/-- A chunk that can be taken: `b` is left with the queue without it. -/
def Takes (nranks : Nat) (b : Inbox) (want : Int) (ref : RecvRef) : Prop :=
  ∃ pre post b', b.queue = pre ++ (slotAt b ref).packet :: post ∧
    (∀ p ∈ pre, p.header.matches want = false) ∧ (slotAt b ref).matches want = true ∧
    recvRelease b ref = .ok b' ∧ b'.Ok nranks ∧ b'.queue = pre ++ post

/-- **A scan of all stores** finds the oldest chunk that matches, and releasing it takes
it off the queue. -/
theorem find_spec (hok : b.Ok nranks) (want : Int) :
    (find b want = none ∧ ∀ p ∈ b.queue, p.header.matches want = false) ∨
      ∃ ref, find b want = some ref ∧ Takes nranks b want ref := by
  rw [find_eq]
  rcases scan (List.range b.stage.n) (fun k => b.stage.slots (b.stage.order k)) want
    with ⟨hstage, hs⟩ | ⟨pre, k, post, hstage, hl, hk, hpre⟩
  · rw [hstage]
    rcases scan b.ext.untaken b.ext.slots want with ⟨hext, he⟩ | ⟨pre, k, post, hext, hl, hk, hpre⟩
    · rw [hext]
      rcases scan b.mb.live b.mb.slots want with ⟨hring, hr⟩ | ⟨pre, i, post, hring, hl, hi, hpre⟩
      · refine .inl ⟨by rw [hring]; rfl, fun p hp => ?_⟩
        rcases List.mem_append.mp hp with hp | hp
        · rcases List.mem_append.mp hp with hp | hp
          · exact hs p hp
          · exact he p hp
        · exact hr p hp
      · refine .inr ⟨.ring i, by rw [hring]; rfl, ?_⟩
        obtain ⟨hok', hp⟩ := hok.mb.take hl
        refine ⟨b.stage.packets ++ b.ext.packets ++ pre.map fun i => (b.mb.slots i).packet,
          post.map fun i => (b.mb.slots i).packet, _, ?_, fun p hp => ?_, hi, rfl,
          ⟨hok', hok.stage, hok.ext⟩, ?_⟩
        · rw [Inbox.queue, Mailbox.packets, hl, List.map_append, List.map_cons, ← List.append_assoc]
          rfl
        · rcases List.mem_append.mp hp with hp | hp
          · rcases List.mem_append.mp hp with hp | hp
            · exact hs p hp
            · exact he p hp
          · exact hpre p hp
        · show b.stage.packets ++ b.ext.packets ++ (skipConsumed b.mb.count (b.mb.consume i)).packets = _
          rw [hp, List.map_append, ← List.append_assoc]
    · refine .inr ⟨.ext k, by rw [hext], ?_⟩
      obtain ⟨q, hq, hok', hp⟩ := hok.ext.release hl
      refine ⟨b.stage.packets ++ pre.map fun k => (b.ext.slots k).packet,
        (post.map fun k => (b.ext.slots k).packet) ++ b.mb.packets, { b with ext := q }, ?_,
        fun p hp => ?_, hk, ?_, ⟨hok.mb, hok.stage, hok'⟩, ?_⟩
      · rw [Inbox.queue, ExtQ.packets, hl, List.map_append, List.map_cons]
        simp only [List.append_assoc, List.cons_append]
        rfl
      · rcases List.mem_append.mp hp with hp | hp
        · exact hs p hp
        · exact hpre p hp
      · rw [recvRelease, hq]
        rfl
      · rw [Inbox.queue, hp, List.map_append]
        simp only [List.append_assoc]
  · rw [hstage]
    refine .inr ⟨.stage k, rfl, ?_⟩
    have hkn : k < b.stage.n := List.mem_range.mp (List.mem_of_find?_eq_some hstage)
    obtain ⟨pre', post', hq, hq', hpre'⟩ := Stage.packets_remove hkn
    have hbefore : pre = List.range k := by
      have hget : (List.range b.stage.n)[pre.length]? = some k := by rw [hl]; simp
      obtain ⟨hlt, hlen⟩ := List.getElem?_eq_some_iff.mp hget
      rw [List.getElem_range] at hlen
      have htake : (List.range b.stage.n).take pre.length = pre := by rw [hl, List.take_left]
      rw [← htake, List.take_range, hlen, Nat.min_eq_left (Nat.le_of_lt hkn)]
    refine ⟨pre', post' ++ b.ext.packets ++ b.mb.packets, { b with stage := b.stage.remove k }, ?_,
      fun p hp => ?_, hk, rfl, ⟨hok.mb, hok.stage.remove hkn, hok.ext⟩, ?_⟩
    · rw [Inbox.queue, hq]
      simp only [List.append_assoc, List.cons_append]
      rfl
    · rw [hpre', ← hbefore] at hp
      exact hpre p hp
    · rw [Inbox.queue, hq']
      simp only [List.append_assoc]

/-- An acquire ends with what a scan of the inbox finds; making room in a full ring on
the way changes no order. -/
theorem recvAcquire_spec (hok : b.Ok nranks) (want : Int) {n : Nat} (hn : b.mb.count < ringSlots + n) :
    (recvAcquire nranks want n b = .error .full ∧ ∀ p ∈ b.queue, p.header.matches want = false) ∨
      ∃ b', recvAcquire nranks want n b = .ok (find b' want, b') ∧ b'.Ok nranks ∧ b'.queue = b.queue := by
  induction n generalizing b with
  | zero =>
    rw [recvAcquire]
    refine .inr ⟨b, ?_, hok, rfl⟩
    cases find b want with
    | some ref => rfl
    | none => exact if_neg (by omega)
  | succ n ih =>
    rw [recvAcquire]
    rcases find_spec hok want with ⟨hf, hnone⟩ | ⟨ref, hf, -⟩
    · rw [hf]
      dsimp only
      split
      · next hge =>
        have hpos : 0 < b.mb.count := Nat.lt_of_lt_of_le (by decide) hge
        rcases ringEvictHead_spec hok hpos with hfull | ⟨b₁, hb₁, hok₁, hq₁, hlt⟩
        · exact .inl ⟨by rw [hfull]; rfl, hnone⟩
        · rw [hb₁]
          rcases ih hok₁ (by omega) with ⟨hfull, -⟩ | ⟨b₂, hb₂, hok₂, hq₂⟩
          · exact .inl ⟨hfull, hnone⟩
          · exact .inr ⟨b₂, hb₂, hok₂, hq₂.trans hq₁⟩
      · exact .inr ⟨b, by rw [hf], hok, rfl⟩
    · exact .inr ⟨b, by rw [hf], hok, rfl⟩

/-- **A receive** takes the oldest chunk that matches off the queue; without one it waits.
It is stopped by a full extension only if there is none. -/
theorem recvThread_spec (hok : b.Ok nranks) (want : Int) :
    ((recvThread nranks b want = .error .full ∨
        ∃ b', recvThread nranks b want = .ok (none, b') ∧ b'.Ok nranks ∧ b'.queue = b.queue) ∧
      ∀ p ∈ b.queue, p.header.matches want = false) ∨
    ∃ pre p post b', recvThread nranks b want = .ok (some p, b') ∧ b.queue = pre ++ p :: post ∧
      (∀ p ∈ pre, p.header.matches want = false) ∧ p.header.matches want = true ∧ b'.Ok nranks ∧
      b'.queue = pre ++ post := by
  unfold recvThread
  rcases recvAcquire_spec hok want (n := b.mb.count) (by unfold ringSlots; omega)
    with ⟨hfull, hnone⟩ | ⟨b', hb', hok', hq⟩
  · exact .inl ⟨.inl (by rw [hfull]; rfl), hnone⟩
  · rw [hb', ← hq]
    rcases find_spec hok' want with ⟨hf, hnone⟩ | ⟨ref, hf, pre, post, b₂, hsplit, hpre, hm, hrel, hok₂, hq₂⟩
    · rw [hf]
      exact .inl ⟨.inr ⟨b', rfl, hok', rfl⟩, hnone⟩
    · rw [hf]
      refine .inr ⟨pre, _, post, b₂, ?_, hsplit, hpre, hm, hok₂, hq₂⟩
      show (recvRelease b' ref).map _ = _
      rw [hrel]
      rfl

end

end Pimid.Mpi.Transport
