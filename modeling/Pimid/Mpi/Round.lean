import Mathlib.Data.List.Forall2
import Mathlib.Tactic.Choose
import Pimid.Mpi.P2P

/-!
# Message rounds

The one rule the collectives are proved with. In a round every rank does at most
one `send_bytes`, one `recv_bytes` or one `xchg_bytes`, and the sends and the
posted receives of the round match. `Sync.round`: such a round completes, every
receiver ends with exactly the bytes its peer had in its send buffer when the
round began, and no other memory changes.

Underneath, the round is a sequence of chunk exchanges in lockstep on the chunk
index (`progAt`): by the time a rank waits for chunk `i` its peer has sent it,
because both are in pass `i` of their loops. That is where the alternation in
`xchg_bytes` matters, and where its two buffers must not overlap (`apart`).

`Sync` also carries the message-level account of a run: what `s` sent to `d` and
what `d` posted for `s` pair up one to one, each within the capacity posted
(`Matched`).
-/

namespace Pimid.Mpi

open Pimid.Net

/-! ## The message log -/

/-- The byte counts of the messages to `d` in a log. -/
def sentTo (d : Nat) (l : List Event) : List Nat :=
  l.filterMap fun
    | .sent d' n => if d' = d then some n else none
    | _ => none

/-- The capacities of the receives for `s` in a log. -/
def postedFrom (s : Nat) (l : List Event) : List Nat :=
  l.filterMap fun
    | .posted s' n => if s' = s then some n else none
    | _ => none

/-- Per ordered pair, messages and receives pair up one to one and every message
fits the receive it meets. -/
def Matched (L : Nat → List Event) : Prop :=
  ∀ s d, List.Forall₂ (· ≤ ·) (sentTo d (L s)) (postedFrom s (L d))

theorem Matched.nil : Matched fun _ => [] := fun _ _ => .nil

theorem Matched.append {L L' : Nat → List Event} (h : Matched L) (h' : Matched L') :
    Matched fun r => L r ++ L' r := by
  intro s d
  unfold sentTo postedFrom
  rw [List.filterMap_append, List.filterMap_append]
  exact List.rel_append (h s d) (h' s d)

/-! ## Lockstep runs with a matched log -/

variable {α β : Type}

/-- The ranks can advance from `p` to `q`, nothing in flight before or after, and
the messages exchanged on the way are matched. -/
def Sync (p q : Nat → Rank α) : Prop := ∃ L, Reach p q L ∧ Matched L

theorem Sync.refl (p : Nat → Rank α) : Sync p p := ⟨_, .refl p, .nil⟩

theorem Sync.of_eq {p q : Nat → Rank α} (h : ∀ r, p r = q r) : Sync p q := by
  rw [show p = q from funext h]
  exact .refl q

theorem Sync.trans {p q r : Nat → Rank α} (h : Sync p q) (h' : Sync q r) : Sync p r := by
  obtain ⟨L, hL, hM⟩ := h
  obtain ⟨L', hL', hM'⟩ := h'
  exact ⟨_, hL.trans hL', hM.append hM'⟩

theorem Sync.bind {p q : Nat → Rank α} (h : Sync p q) (k : Nat → α → Rank β) :
    Sync (fun r => p r >>= k r) (fun r => q r >>= k r) := by
  obtain ⟨L, hL, hM⟩ := h
  exact ⟨L, hL.bind k, hM⟩

/-- The collective `p` ends, whatever the interleaving, with rank `r` returning
`f r`, nothing in flight, and its messages matched. -/
def Completes (p : Nat → Rank α) (f : Nat → α) : Prop :=
  ∃ L, Matched L ∧ Settles (quiet p fun _ => []) (quiet (fun r => .ret (f r)) L)

theorem Sync.completes {p : Nat → Rank α} {f : Nat → α} (h : Sync p fun r => .ret (f r)) :
    Completes p f := by
  obtain ⟨L, hL, hM⟩ := h
  exact ⟨L, hM, hL.settles⟩

/-! ## Chunks of a message -/

theorem maxMsgBytes_pos : 0 < maxMsgBytes := by decide

theorem chunksOf_pos (n : Nat) : 0 < chunksOf n := by
  unfold chunksOf
  split
  · exact Nat.one_pos
  · have := maxMsgBytes_pos
    exact Nat.div_pos (by omega) this

/-- A chunk that exists starts inside its message (or the message is empty). -/
theorem chunk_start_le {n i : Nat} (h : i < chunksOf n) : maxMsgBytes * i ≤ n := by
  rw [Nat.mul_comm]
  unfold chunksOf at h
  split at h
  · have : i = 0 := by omega
    subst this
    omega
  · have hle : (i + 1) * maxMsgBytes ≤ n + maxMsgBytes - 1 :=
      Nat.le_trans (Nat.mul_le_mul_right _ h) (Nat.div_mul_le_self _ _)
    rw [Nat.add_mul] at hle
    have := maxMsgBytes_pos
    omega

theorem le_chunks_end {n i : Nat} (h : chunksOf n ≤ i) : n ≤ maxMsgBytes * i := by
  rw [Nat.mul_comm]
  unfold chunksOf at h
  split at h
  · omega
  · have hlt := Nat.lt_mul_div_succ (n + maxMsgBytes - 1) maxMsgBytes_pos
    have hmul : (chunksOf n) * maxMsgBytes ≤ i * maxMsgBytes := by
      unfold chunksOf
      split
      · omega
      · exact Nat.mul_le_mul_right _ h
    unfold chunksOf at hmul
    split at hmul
    · omega
    · rw [Nat.mul_add, Nat.mul_comm] at hlt
      have := maxMsgBytes_pos
      omega

/-- Chunk `i` of message `d`. -/
def chunkOf (d : Bytes) (i : Nat) : Chunk :=
  ⟨0, i, chunksOf d.length, d.length, slice d (maxMsgBytes * i) maxMsgBytes⟩

/-- A rank's outgoing message of a round. -/
structure Tx where
  dst : Nat
  buf : BufId
  off : Nat
  len : Nat

/-- A rank's posted receive of a round. -/
structure Rx where
  src : Nat
  buf : BufId
  off : Nat
  cap : Nat

def Tx.data (t : Tx) (m : Mem) : Bytes := slice (m t.buf) t.off t.len

theorem sendChunkAt_eq {m : Mem} {t : Tx} {i : Nat} (hf : Fits (m t.buf) t.off t.len)
    (hi : i < chunksOf t.len) :
    sendChunkAt m t.buf t.off t.len t.dst 0 i (chunksOf t.len)
      = .send t.dst (chunkOf (t.data m) i) (.ret ()) := by
  have hlen : (t.data m).length = t.len := length_slice hf
  have hstart := chunk_start_le hi
  have htake : (if (if t.len > maxMsgBytes * i then t.len - maxMsgBytes * i else 0) < maxMsgBytes
      then (if t.len > maxMsgBytes * i then t.len - maxMsgBytes * i else 0) else maxMsgBytes)
      = min (t.len - maxMsgBytes * i) maxMsgBytes := by
    split <;> split <;> omega
  have hfit : Fits (m t.buf) (t.off + maxMsgBytes * i)
      (min (t.len - maxMsgBytes * i) maxMsgBytes) := by
    rcases hf with hf | hf
    · left; omega
    · right; omega
  have hslice : slice (m t.buf) (t.off + maxMsgBytes * i)
        (min (t.len - maxMsgBytes * i) maxMsgBytes)
      = slice (t.data m) (maxMsgBytes * i) maxMsgBytes := by
    apply List.ext_getElem?
    intro j
    unfold Tx.data
    rw [getElem?_slice, getElem?_slice, getElem?_slice]
    by_cases hj : j < min (t.len - maxMsgBytes * i) maxMsgBytes
    · rw [if_pos hj, if_pos (by omega), if_pos (by omega), Nat.add_assoc]
    · rw [if_neg hj]
      split
      · rw [if_neg (by omega)]
      · rfl
  simp only [sendChunkAt, Nat.mul_comm i, htake, Mem.read_eq hfit, access_some, Prog.ret_bind, hslice, chunkOf,
    hlen]

/-- The receive state after `i` chunks of a message of `n` bytes. -/
def recvAt (n i : Nat) : RecvState := ⟨min (maxMsgBytes * i) n, decide (chunksOf n ≤ i)⟩

/-- The receiver's memory after `i` chunks of `d`. -/
def memAt (m : Mem) (x : Rx) (d : Bytes) (i : Nat) : Mem :=
  m.put x.buf x.off (d.take (maxMsgBytes * i))

theorem fits_take {m : Mem} {x : Rx} {d : Bytes} (hf : Fits (m x.buf) x.off d.length) (n : Nat) :
    Fits (m x.buf) x.off (d.take n).length := by
  unfold Fits
  rw [List.length_take]
  rcases hf with hf | hf <;> omega

theorem takeChunk_eq {m : Mem} {x : Rx} {d : Bytes} (hf : Fits (m x.buf) x.off d.length)
    (hcap : d.length ≤ x.cap) {i : Nat} (hi : i < chunksOf d.length) :
    takeChunk (memAt m x d i) x.buf x.off x.cap (recvAt d.length i) (chunkOf d i)
      = .ret (chunksOf d.length, recvAt d.length (i + 1), memAt m x d (i + 1)) := by
  have hstart := chunk_start_le hi
  have hw : (recvAt d.length i).written = maxMsgBytes * i := Nat.min_eq_left hstart
  have hp : (slice d (maxMsgBytes * i) maxMsgBytes).length
      = min maxMsgBytes (d.length - maxMsgBytes * i) := by
    unfold slice
    rw [List.length_take, List.length_drop]
  have htake : (if (slice d (maxMsgBytes * i) maxMsgBytes).length
        < (if x.cap > maxMsgBytes * i then x.cap - maxMsgBytes * i else 0)
      then (slice d (maxMsgBytes * i) maxMsgBytes).length
      else (if x.cap > maxMsgBytes * i then x.cap - maxMsgBytes * i else 0))
      = (slice d (maxMsgBytes * i) maxMsgBytes).length := by
    rw [hp]
    split <;> split <;> omega
  have hfit : Fits (memAt m x d i x.buf) (x.off + maxMsgBytes * i)
      (slice d (maxMsgBytes * i) maxMsgBytes).length := by
    unfold Fits memAt
    rw [Mem.length_put (fits_take hf _), hp]
    rcases hf with hf | hf <;> omega
  have hmem : (memAt m x d i).put x.buf (x.off + maxMsgBytes * i)
      (slice d (maxMsgBytes * i) maxMsgBytes) = memAt m x d (i + 1) := by
    unfold memAt Mem.put
    rw [Function.update_idem, Function.update_self, splice_append hf hstart, Nat.mul_add,
      Nat.mul_one]
  have hwritten : maxMsgBytes * i + (slice d (maxMsgBytes * i) maxMsgBytes).length
      = min (maxMsgBytes * (i + 1)) d.length := by
    rw [hp, Nat.mul_add]
    omega
  simp only [takeChunk, hw, chunkOf, htake, List.take_length, Mem.write_eq hfit, access_some,
    Prog.ret_bind, hmem, hwritten]
  rfl

/-! ## One round -/

/-- What a rank does in a round. -/
def comm (P : Nat) (m : Mem) : Option Tx → Option Rx → Rank (Nat × Mem)
  | none, none => .ret (0, m)
  | some t, none => do
    sendBytes P m t.buf t.off t.len t.dst 0
    .ret (0, m)
  | none, some x => recvBytes P m x.buf x.off x.cap x.src
  | some t, some x => xchgBytes P m t.buf t.off t.len t.dst x.buf x.off x.cap x.src

/-- The sends and receives of a round match, every access stays inside its
buffer, and no rank receives over what it is sending. -/
structure RoundOk (P : Nat) (m : Nat → Mem) (tx : Nat → Option Tx) (rx : Nat → Option Rx) :
    Prop where
  two : 2 ≤ P
  idle : ∀ r, P ≤ r → tx r = none ∧ rx r = none
  sent : ∀ s t, tx s = some t → t.dst < P ∧ Fits (m s t.buf) t.off t.len ∧
    ∃ x, rx t.dst = some x ∧ x.src = s ∧ t.len ≤ x.cap ∧ Fits (m t.dst x.buf) x.off t.len
  posted : ∀ d x, rx d = some x → ∃ t, tx x.src = some t ∧ t.dst = d
  apart : ∀ r t x t', tx r = some t → rx r = some x → tx x.src = some t' →
    t.buf ≠ x.buf ∨ Apart t.off t.len x.off t'.len

/-- The message a rank receives in a round. -/
def incoming (m : Nat → Mem) (tx : Nat → Option Tx) (rx : Nat → Option Rx) (r : Nat) : Bytes :=
  match rx r with
  | none => []
  | some x =>
    match tx x.src with
    | none => []
    | some t => t.data (m x.src)

/-- Message `d` in the place it was posted for. -/
def land (m : Mem) (d : Bytes) : Option Rx → Mem
  | none => m
  | some x => m.put x.buf x.off d

/-- A rank's memory after the round. -/
def received (m : Nat → Mem) (tx : Nat → Option Tx) (rx : Nat → Option Rx) (r : Nat) : Mem :=
  land (m r) (incoming m tx rx r) (rx r)

/-- What is left of a rank's round after `i` chunk exchanges; `d` is the message
it receives. -/
def progAt (m : Mem) (d : Bytes) (k : Nat × Mem → Rank α) (i : Nat) :
    Option Tx → Option Rx → Rank α
  | none, none => k (0, m)
  | some t, none => do
    sendChunks m t.buf t.off t.len t.dst 0 (chunksOf t.len) (chunksOf t.len - i) i
    k (0, m)
  | none, some x =>
    if i = 0 then do
      let (n, r, m) ← recvChunk m x.buf x.off x.cap x.src ⟨0, false⟩
      recvMore x.buf x.off x.cap x.src n r m >>= k
    else recvMore x.buf x.off x.cap x.src (chunksOf d.length + 1 - i) (recvAt d.length i)
      (memAt m x d i) >>= k
  | some t, some x =>
    if i = 0 then do
      sendChunkAt m t.buf t.off t.len t.dst 0 0 (chunksOf t.len)
      let (n, r, m) ← recvChunk m x.buf x.off x.cap x.src ⟨0, false⟩
      xchgMore t.buf t.off t.len t.dst x.buf x.off x.cap x.src (chunksOf t.len + n) 1 r m >>= k
    else xchgMore t.buf t.off t.len t.dst x.buf x.off x.cap x.src
      (chunksOf t.len + chunksOf d.length + 1 - i) i (recvAt d.length i) (memAt m x d i) >>= k

/-- The chunk a rank sends in exchange `i`. -/
def txAt (m : Mem) (tx : Option Tx) (i : Nat) : Option (Nat × Chunk) :=
  match tx with
  | none => none
  | some t => if i < chunksOf t.len then some (t.dst, chunkOf (t.data m) i) else none

/-- The peer a rank receives from in exchange `i`. -/
def rxAt (d : Bytes) (rx : Option Rx) (i : Nat) : Option Nat :=
  match rx with
  | none => none
  | some x => if i < chunksOf d.length then some x.src else none

theorem recvAt_zero (n : Nat) : recvAt n 0 = ⟨0, false⟩ := by
  have := chunksOf_pos n
  simp only [recvAt, Nat.mul_zero, Nat.zero_min, RecvState.mk.injEq, true_and,
    decide_eq_false_iff_not]
  omega

theorem memAt_zero (m : Mem) (x : Rx) (d : Bytes) : memAt m x d 0 = m := by
  simp [memAt]

theorem recvAt_done {n i : Nat} : (recvAt n i).done = true ↔ chunksOf n ≤ i := by
  simp [recvAt]

/-- Sending does not see the chunks received so far: they land elsewhere. -/
theorem sendChunkAt_memAt {m : Mem} {t : Tx} {x : Rx} {d : Bytes} {i : Nat}
    (hft : Fits (m t.buf) t.off t.len) (hfx : Fits (m x.buf) x.off d.length)
    (hap : t.buf ≠ x.buf ∨ Apart t.off t.len x.off d.length)
    (hi : i < chunksOf t.len) :
    sendChunkAt (memAt m x d i) t.buf t.off t.len t.dst 0 i (chunksOf t.len)
      = .send t.dst (chunkOf (t.data m) i) (.ret ()) := by
  have hfit := fits_take hfx (maxMsgBytes * i)
  have hdata : t.data (memAt m x d i) = t.data m := by
    unfold Tx.data memAt
    by_cases hb : t.buf = x.buf
    · rw [hb, Mem.put_self]
      apply slice_splice_disjoint hfit
      rw [List.length_take]
      unfold Apart at hap ⊢
      rcases hap with h | h
      · exact absurd hb h
      · omega
    · rw [Mem.put_ne hb]
  have hf : Fits (memAt m x d i t.buf) t.off t.len := by
    unfold Fits memAt
    rw [Mem.length_put hfit]
    exact hft
  rw [sendChunkAt_eq hf hi, hdata]

theorem progAt_step_send {m : Mem} {d : Bytes} (k : Nat × Mem → Rank α) (i : Nat) {t : Tx}
    (hft : Fits (m t.buf) t.off t.len) :
    progAt m d k i (some t) none
      = Prog.sends (txAt m (some t) i) (progAt m d k (i + 1) (some t) none) := by
  simp only [txAt]
  by_cases hi : i < chunksOf t.len
  · have hsub : chunksOf t.len - i = (chunksOf t.len - (i + 1)) + 1 := by omega
    rw [if_pos hi]
    simp only [progAt, hsub, sendChunks, sendChunkAt_eq hft hi, Prog.send_bind, Prog.ret_bind,
      Prog.sends]
  · rw [if_neg hi]
    simp only [progAt, show chunksOf t.len - i = 0 by omega,
      show chunksOf t.len - (i + 1) = 0 by omega, sendChunks, Prog.ret_bind, Prog.sends]

theorem exists_recvs {tx : Option (Nat × Chunk)} {src : Nat} {c : Chunk} {p q : Rank α}
    (F : Chunk → Rank α) (hp : p = Prog.sends tx (.recv src F)) (hq : F c = q) :
    ∃ K, p = Prog.sends tx (Prog.recvs (some src) K) ∧ K ((some src).map fun _ => c) = q :=
  ⟨fun c => c.elim .fail F, hp, hq⟩

theorem progAt_step_recv {m : Mem} {d : Bytes} (k : Nat × Mem → Rank α) (i : Nat) {x : Rx}
    (hfx : Fits (m x.buf) x.off d.length) (hcap : d.length ≤ x.cap) :
    ∃ K, progAt m d k i none (some x) = Prog.sends none (Prog.recvs (rxAt d (some x) i) K) ∧
      K ((rxAt d (some x) i).map fun _ => chunkOf d i) = progAt m d k (i + 1) none (some x) := by
  have hlater : ∀ j, j ≠ 0 → progAt m d k j none (some x)
      = (recvMore x.buf x.off x.cap x.src (chunksOf d.length + 1 - j) (recvAt d.length j)
          (memAt m x d j) >>= k) := by
    intro j hj
    simp only [progAt, if_neg hj]
  rw [hlater (i + 1) (by omega)]
  simp only [rxAt]
  by_cases hi : i < chunksOf d.length
  · have hfi := takeChunk_eq hfx hcap hi
    rw [if_pos hi, show chunksOf d.length + 1 - (i + 1) = chunksOf d.length - i by omega]
    by_cases h0 : i = 0
    · subst h0
      rw [memAt_zero, recvAt_zero] at hfi
      refine exists_recvs (fun c => takeChunk m x.buf x.off x.cap ⟨0, false⟩ c >>= fun (n, r, m) =>
        recvMore x.buf x.off x.cap x.src n r m >>= k) ?_ ?_
      · simp only [progAt, if_true, recvChunk, Prog.recv_bind, Prog.sends]
      · simp only [hfi, Prog.ret_bind, Nat.sub_zero]
    · have hnd : (recvAt d.length i).done = false := by
        simpa using mt recvAt_done.mp (by omega)
      refine exists_recvs (fun c =>
        (takeChunk (memAt m x d i) x.buf x.off x.cap (recvAt d.length i) c >>= fun (_, r, m) =>
          recvMore x.buf x.off x.cap x.src (chunksOf d.length - i) r m) >>= k) ?_ ?_
      · rw [hlater i h0, show chunksOf d.length + 1 - i = (chunksOf d.length - i) + 1 by omega,
          recvMore]
        simp only [hnd, Bool.false_eq_true, if_false, recvChunk, Prog.recv_bind, Prog.sends]
      · simp only [hfi, Prog.ret_bind]
  · have hend : ∀ j, i ≤ j → ∀ fuel, recvMore x.buf x.off x.cap x.src fuel (recvAt d.length j)
        (memAt m x d j) = .ret (d.length, m.put x.buf x.off d) := by
      intro j hj fuel
      have hd : (recvAt d.length j).done = true := recvAt_done.mpr (by omega)
      have hle := le_chunks_end (n := d.length) (i := j) (by omega)
      rw [recvMore.eq_def]
      simp only [hd, if_true]
      simp only [recvAt, memAt, Nat.min_eq_right hle, List.take_of_length_le hle]
    have h0 : i ≠ 0 := by have := chunksOf_pos d.length; omega
    rw [if_neg hi, hend (i + 1) (Nat.le_succ i), hlater i h0, hend i (Nat.le_refl i)]
    exact ⟨fun _ => k (d.length, m.put x.buf x.off d), rfl, rfl⟩

theorem progAt_step_xchg {m : Mem} {d : Bytes} (k : Nat × Mem → Rank α) (i : Nat) {t : Tx} {x : Rx}
    (hft : Fits (m t.buf) t.off t.len) (hfx : Fits (m x.buf) x.off d.length)
    (hcap : d.length ≤ x.cap)
    (hap : t.buf ≠ x.buf ∨ Apart t.off t.len x.off d.length) :
    ∃ K, progAt m d k i (some t) (some x)
        = Prog.sends (txAt m (some t) i) (Prog.recvs (rxAt d (some x) i) K) ∧
      K ((rxAt d (some x) i).map fun _ => chunkOf d i)
        = progAt m d k (i + 1) (some t) (some x) := by
  have hlater : ∀ j, j ≠ 0 → progAt m d k j (some t) (some x)
      = (xchgMore t.buf t.off t.len t.dst x.buf x.off x.cap x.src
          (chunksOf t.len + chunksOf d.length + 1 - j) j (recvAt d.length j) (memAt m x d j)
          >>= k) := by
    intro j hj
    simp only [progAt, if_neg hj]
  rw [hlater (i + 1) (by omega)]
  simp only [txAt, rxAt]
  by_cases h0 : i = 0
  · subst h0
    have hns := chunksOf_pos t.len
    have hnr := chunksOf_pos d.length
    have hfi := takeChunk_eq hfx hcap hnr
    rw [memAt_zero, recvAt_zero] at hfi
    rw [if_pos hns, if_pos hnr]
    refine exists_recvs (fun c => takeChunk m x.buf x.off x.cap ⟨0, false⟩ c >>= fun (n, r, m) =>
      xchgMore t.buf t.off t.len t.dst x.buf x.off x.cap x.src (chunksOf t.len + n) 1 r m >>= k)
      ?_ ?_
    · simp only [progAt, if_true, sendChunkAt_eq hft hns, recvChunk, Prog.send_bind,
        Prog.recv_bind, Prog.ret_bind, Prog.sends]
    · simp only [hfi, Prog.ret_bind, Nat.zero_add, Nat.add_sub_cancel]
  · rw [hlater i h0]
    by_cases hlive : i < chunksOf t.len ∨ i < chunksOf d.length
    · have hcond : i < chunksOf t.len ∨ (recvAt d.length i).done = false := by
        rcases hlive with h | h
        · exact .inl h
        · right; simpa using mt recvAt_done.mp (by omega)
      rw [show chunksOf t.len + chunksOf d.length + 1 - i
        = (chunksOf t.len + chunksOf d.length - i) + 1 by omega,
        show chunksOf t.len + chunksOf d.length + 1 - (i + 1)
        = chunksOf t.len + chunksOf d.length - i by omega]
      generalize chunksOf t.len + chunksOf d.length - i = fuel
      rw [xchgMore]
      simp only [if_pos hcond]
      by_cases hr : i < chunksOf d.length
      · have hfi := takeChunk_eq hfx hcap hr
        have hnd : (recvAt d.length i).done = false := by
          simpa using mt recvAt_done.mp (by omega)
        rw [if_pos hr]
        refine exists_recvs (fun c =>
          (takeChunk (memAt m x d i) x.buf x.off x.cap (recvAt d.length i) c >>= fun (_, r, m) =>
            xchgMore t.buf t.off t.len t.dst x.buf x.off x.cap x.src fuel (i + 1) r m) >>= k)
          ?_ ?_
        · by_cases hs : i < chunksOf t.len
          · simp only [if_pos hs, hnd, Bool.false_eq_true, if_false, recvChunk,
              sendChunkAt_memAt hft hfx hap hs, Prog.send_bind, Prog.recv_bind, Prog.ret_bind,
              Prog.sends]
          · simp only [if_neg hs, hnd, Bool.false_eq_true, if_false, recvChunk, Prog.recv_bind,
              Prog.sends]
        · simp only [hfi, Prog.ret_bind]
      · -- the message is in, only sends are left
        have hs : i < chunksOf t.len := by omega
        have hd : (recvAt d.length i).done = true := recvAt_done.mpr (by omega)
        have h1 := le_chunks_end (n := d.length) (i := i) (by omega)
        have h2 := le_chunks_end (n := d.length) (i := i + 1) (by omega)
        have hsame : recvAt d.length (i + 1) = recvAt d.length i := by
          simp only [recvAt, RecvState.mk.injEq, decide_eq_decide]
          exact ⟨by omega, by omega⟩
        have hmem : memAt m x d (i + 1) = memAt m x d i := by
          unfold memAt
          rw [List.take_of_length_le h2, List.take_of_length_le h1]
        rw [if_neg hr, hsame, hmem]
        refine ⟨fun _ => xchgMore t.buf t.off t.len t.dst x.buf x.off x.cap x.src fuel (i + 1)
          (recvAt d.length i) (memAt m x d i) >>= k, ?_, rfl⟩
        simp only [if_pos hs, hd, if_true, sendChunkAt_memAt hft hfx hap hs, Prog.send_bind,
          Prog.ret_bind, Prog.sends, Prog.recvs]
    · have hend : ∀ j, i ≤ j → ∀ fuel, xchgMore t.buf t.off t.len t.dst x.buf x.off x.cap x.src
          fuel j (recvAt d.length j) (memAt m x d j) = .ret (d.length, m.put x.buf x.off d) := by
        intro j hj fuel
        have hd : (recvAt d.length j).done = true := recvAt_done.mpr (by omega)
        have hle := le_chunks_end (n := d.length) (i := j) (by omega)
        have hnot : ¬(j < chunksOf t.len ∨ (recvAt d.length j).done = false) := by
          rw [hd]; simp; omega
        rw [xchgMore.eq_def]
        simp only [if_neg hnot]
        simp only [recvAt, memAt, Nat.min_eq_right hle, List.take_of_length_le hle]
      rw [if_neg fun h => hlive (.inl h), if_neg fun h => hlive (.inr h),
        hend i (Nat.le_refl i), hend (i + 1) (Nat.le_succ i)]
      exact ⟨fun _ => k (d.length, m.put x.buf x.off d), rfl, rfl⟩

theorem progAt_step {m : Mem} {d : Bytes} (k : Nat × Mem → Rank α) (i : Nat)
    (tx : Option Tx) (rx : Option Rx)
    (hft : ∀ t, tx = some t → Fits (m t.buf) t.off t.len)
    (hfx : ∀ x, rx = some x → Fits (m x.buf) x.off d.length ∧ d.length ≤ x.cap)
    (hap : ∀ t x, tx = some t → rx = some x →
      t.buf ≠ x.buf ∨ Apart t.off t.len x.off d.length) :
    ∃ K, progAt m d k i tx rx = Prog.sends (txAt m tx i) (Prog.recvs (rxAt d rx i) K) ∧
      K ((rxAt d rx i).map fun _ => chunkOf d i) = progAt m d k (i + 1) tx rx := by
  cases tx with
  | none =>
    cases rx with
    | none => exact ⟨fun _ => k (0, m), rfl, rfl⟩
    | some x => exact progAt_step_recv k i (hfx x rfl).1 (hfx x rfl).2
  | some t =>
    cases rx with
    | none =>
      exact ⟨fun _ => progAt m d k (i + 1) (some t) none, progAt_step_send k i (hft t rfl), rfl⟩
    | some x =>
      exact progAt_step_xchg k i (hft t rfl) (hfx x rfl).1 (hfx x rfl).2 (hap t x rfl rfl)

theorem progAt_end {m : Mem} {d : Bytes} (k : Nat × Mem → Rank α) {i : Nat} (hi : i ≠ 0)
    (tx : Option Tx) (rx : Option Rx) (ht : ∀ t, tx = some t → chunksOf t.len ≤ i)
    (hx : rx = none → d = []) (hd : chunksOf d.length ≤ i) :
    progAt m d k i tx rx = k (d.length, land m d rx) := by
  have hle := le_chunks_end hd
  have hdone : (recvAt d.length i).done = true := recvAt_done.mpr hd
  have hwr : (recvAt d.length i).written = d.length := Nat.min_eq_right hle
  have hmem : ∀ x, memAt m x d i = m.put x.buf x.off d := by
    intro x
    unfold memAt
    rw [List.take_of_length_le hle]
  cases tx with
  | none =>
    cases rx with
    | none => rw [hx rfl]; rfl
    | some x =>
      simp only [progAt, if_neg hi]
      rw [recvMore.eq_def]
      simp only [hdone, if_true, hwr, hmem, Prog.ret_bind, land]
  | some t =>
    have ht := ht t rfl
    cases rx with
    | none =>
      simp only [progAt, Nat.sub_eq_zero_of_le ht, sendChunks, Prog.ret_bind, hx rfl]
      rfl
    | some x =>
      have hnot : ¬(i < chunksOf t.len ∨ (recvAt d.length i).done = false) := by
        rw [hdone]; simp; omega
      simp only [progAt, if_neg hi]
      rw [xchgMore.eq_def]
      simp only [if_neg hnot, hwr, hmem, Prog.ret_bind, land]

/-- What a rank logs in a round. -/
def roundLog : Option Tx → Option Rx → List Event
  | none, none => []
  | some t, none => [.sent t.dst t.len]
  | none, some x => [.posted x.src x.cap]
  | some t, some x => [.sent t.dst t.len, .posted x.src x.cap]

theorem comm_eq {P : Nat} {m : Mem} {d : Bytes} (k : Nat × Mem → Rank α) (tx : Option Tx)
    (rx : Option Rx) (hP : 2 ≤ P) (ht : ∀ t, tx = some t → t.dst < P)
    (hx : ∀ x, rx = some x → x.src < P) :
    (comm P m tx rx >>= k) = Prog.emits (roundLog tx rx) (progAt m d k 0 tx rx) := by
  have h1 : ¬ P ≤ 1 := by omega
  cases tx with
  | none =>
    cases rx with
    | none => rfl
    | some x =>
      have hx := hx x rfl
      simp only [comm, recvBytes, if_neg h1, if_neg (show ¬ P ≤ x.src by omega), Prog.emit_bind,
        Prog.bind_assoc, roundLog, Prog.emits, progAt, if_true]
  | some t =>
    have ht := ht t rfl
    cases rx with
    | none =>
      simp only [comm, sendBytes, if_neg h1, if_neg (show ¬ P ≤ t.dst by omega), Prog.emit_bind,
        Prog.bind_assoc, Prog.ret_bind, roundLog, Prog.emits, progAt, Nat.sub_zero]
    | some x =>
      have hx := hx x rfl
      simp only [comm, xchgBytes, if_neg h1, if_neg (show ¬(P ≤ t.dst ∨ P ≤ x.src) by omega),
        Prog.emit_bind, Prog.bind_assoc, roundLog, Prog.emits, progAt, if_true]

theorem sentTo_roundLog (d : Nat) (tx : Option Tx) (rx : Option Rx) :
    sentTo d (roundLog tx rx) = match tx with
      | none => []
      | some t => if t.dst = d then [t.len] else [] := by
  cases tx <;> cases rx <;> simp only [roundLog, sentTo, List.filterMap_cons, List.filterMap_nil]
  all_goals split <;> simp_all

theorem postedFrom_roundLog (s : Nat) (tx : Option Tx) (rx : Option Rx) :
    postedFrom s (roundLog tx rx) = match rx with
      | none => []
      | some x => if x.src = s then [x.cap] else [] := by
  cases tx <;> cases rx <;>
    simp only [roundLog, postedFrom, List.filterMap_cons, List.filterMap_nil]
  all_goals split <;> simp_all

theorem exists_bound (f : Nat → Nat) (P : Nat) : ∃ n, ∀ r, r < P → f r ≤ n := by
  induction P with
  | zero => exact ⟨0, fun r hr => absurd hr (Nat.not_lt_zero r)⟩
  | succ P ih =>
    obtain ⟨n, hn⟩ := ih
    refine ⟨max n (f P), fun r hr => ?_⟩
    rcases Nat.lt_succ_iff_lt_or_eq.mp hr with h | rfl
    · exact Nat.le_trans (hn r h) (Nat.le_max_left ..)
    · exact Nat.le_max_right ..

section Round

variable {P : Nat} {m : Nat → Mem} {tx : Nat → Option Tx} {rx : Nat → Option Rx}

theorem RoundOk.matched (h : RoundOk P m tx rx) : Matched fun r => roundLog (tx r) (rx r) := by
  intro s d
  rw [sentTo_roundLog, postedFrom_roundLog]
  cases ht : tx s with
  | some t =>
    obtain ⟨-, -, x, hx, hsrc, hcap, -⟩ := h.sent s t ht
    by_cases hd : t.dst = d
    · subst hd
      simp only [if_true, hx, hsrc]
      exact .cons hcap .nil
    · simp only [if_neg hd]
      cases hx' : rx d with
      | none => exact .nil
      | some x' =>
        obtain ⟨t', ht', hd'⟩ := h.posted d x' hx'
        have hne : x'.src ≠ s := by
          rintro rfl
          rw [ht] at ht'
          exact hd (Option.some.inj ht' ▸ hd')
        simp only [if_neg hne]
        exact .nil
  | none =>
    cases hx' : rx d with
    | none => exact .nil
    | some x' =>
      obtain ⟨t', ht', -⟩ := h.posted d x' hx'
      have hne : x'.src ≠ s := by
        rintro rfl
        rw [ht] at ht'
        cases ht'
      simp only [if_neg hne]
      exact .nil

theorem RoundOk.incoming_eq (h : RoundOk P m tx rx) {r : Nat} {x : Rx} (hx : rx r = some x) :
    ∃ t, tx x.src = some t ∧ t.dst = r ∧ incoming m tx rx r = t.data (m x.src) ∧
      (incoming m tx rx r).length = t.len := by
  obtain ⟨t, ht, hd⟩ := h.posted r x hx
  have hin : incoming m tx rx r = t.data (m x.src) := by
    unfold incoming
    rw [hx]
    simp only [ht]
  exact ⟨t, ht, hd, hin, by rw [hin]; exact length_slice (h.sent _ t ht).2.1⟩

theorem RoundOk.exchange (h : RoundOk P m tx rx) (k : Nat → Nat × Mem → Rank α) (i : Nat) :
    Reach (fun r => progAt (m r) (incoming m tx rx r) (k r) i (tx r) (rx r))
      (fun r => progAt (m r) (incoming m tx rx r) (k r) (i + 1) (tx r) (rx r)) fun _ => [] := by
  have hstep : ∀ r, ∃ K, progAt (m r) (incoming m tx rx r) (k r) i (tx r) (rx r)
        = Prog.sends (txAt (m r) (tx r) i) (Prog.recvs (rxAt (incoming m tx rx r) (rx r) i) K) ∧
      K ((rxAt (incoming m tx rx r) (rx r) i).map fun _ => chunkOf (incoming m tx rx r) i)
        = progAt (m r) (incoming m tx rx r) (k r) (i + 1) (tx r) (rx r) := by
    intro r
    apply progAt_step
    · intro t ht
      exact (h.sent r t ht).2.1
    · intro x hx
      obtain ⟨t, ht, hd, -, hlen⟩ := h.incoming_eq hx
      obtain ⟨-, -, x', hx', -, hcap, hfit⟩ := h.sent _ t ht
      rw [hd, hx] at hx'
      obtain rfl := Option.some.inj hx'
      rw [hd] at hfit
      rw [hlen]
      exact ⟨hfit, hcap⟩
    · intro t x ht hx
      obtain ⟨t', ht', -, -, hlen⟩ := h.incoming_eq hx
      rw [hlen]
      exact h.apart r t x t' ht hx ht'
  choose K hK hK' using hstep
  have hex := Reach.exchange (E := Event) (List.nodup_range (n := P))
    (fun r => txAt (m r) (tx r) i) (fun r => rxAt (incoming m tx rx r) (rx r) i)
    (by
      intro r hr
      obtain ⟨ht, hx⟩ := h.idle r (by simpa using hr)
      simp only [ht, hx, txAt, rxAt, and_self])
    (by
      intro s d c hs
      unfold txAt at hs
      split at hs
      · cases hs
      · next t ht =>
        split at hs
        · next hi =>
          obtain ⟨-, hft, x, hx, hsrc, -, -⟩ := h.sent s t ht
          obtain ⟨rfl, -⟩ := Prod.mk.inj (Option.some.inj hs)
          obtain ⟨t', ht', -, -, hlen⟩ := h.incoming_eq hx
          rw [hsrc, ht] at ht'
          obtain rfl := Option.some.inj ht'
          simp only [rxAt, hx, hlen, if_pos hi, hsrc]
        · cases hs)
    (by
      intro d s hd
      unfold rxAt at hd
      split at hd
      · cases hd
      · next x hx =>
        split at hd
        · next hi =>
          obtain ⟨t, ht, hdst, -, hlen⟩ := h.incoming_eq hx
          obtain rfl := Option.some.inj hd
          rw [hlen] at hi
          exact ⟨_, by simp only [txAt, ht, if_pos hi, hdst]; rfl⟩
        · cases hd)
    K
  have hin : ∀ r, inbox (fun r => txAt (m r) (tx r) i) (rxAt (incoming m tx rx r) (rx r) i)
      = (rxAt (incoming m tx rx r) (rx r) i).map fun _ => chunkOf (incoming m tx rx r) i := by
    intro r
    cases hx : rx r with
    | none => simp only [rxAt, inbox, Option.map_none]
    | some x =>
      obtain ⟨t, ht, -, hdata, hlen⟩ := h.incoming_eq hx
      simp only [rxAt]
      by_cases hi : i < chunksOf (incoming m tx rx r).length
      · rw [if_pos hi]
        rw [hlen] at hi
        simp only [inbox, txAt, ht, if_pos hi, Option.map_some, hdata]
      · rw [if_neg hi]
        rfl
  simp only [← hK, hin, hK'] at hex
  exact hex

/-- **A round completes.** Every rank whose program starts with its part of the
round gets past it: receivers with their peer's bytes, everyone else unchanged. -/
theorem Sync.round (h : RoundOk P m tx rx) {k : Nat → Nat × Mem → Rank α} {p : Nat → Rank α}
    (hp : ∀ r, p r = (comm P (m r) (tx r) (rx r) >>= k r)) :
    Sync p fun r => k r ((incoming m tx rx r).length, received m tx rx r) := by
  refine ⟨fun r => roundLog (tx r) (rx r), ?_, h.matched⟩
  have hsrc : ∀ r x, rx r = some x → x.src < P := by
    intro r x hx
    obtain ⟨t, ht, -⟩ := h.posted r x hx
    by_contra hge
    rw [(h.idle x.src (by omega)).1] at ht
    cases ht
  have hlog : Reach p (fun r => progAt (m r) (incoming m tx rx r) (k r) 0 (tx r) (rx r))
      fun r => roundLog (tx r) (rx r) := by
    rw [show p = fun r => Prog.emits (roundLog (tx r) (rx r))
        (progAt (m r) (incoming m tx rx r) (k r) 0 (tx r) (rx r)) from by
      funext r
      rw [hp r]
      exact comm_eq (k r) _ _ h.two (fun t ht => (h.sent r t ht).1) (hsrc r)]
    refine Reach.emits (List.nodup_range (n := P)) _ ?_ _
    intro r hr
    obtain ⟨ht, hx⟩ := h.idle r (by simpa using hr)
    rw [ht, hx]
    rfl
  -- enough exchanges for the longest message of the round
  obtain ⟨n, hn⟩ : ∃ n, ∀ r, (∀ t, tx r = some t → chunksOf t.len ≤ n) := by
    obtain ⟨n, hn⟩ := exists_bound (fun r => match tx r with
      | none => 0
      | some t => chunksOf t.len) P
    refine ⟨n, ?_⟩
    intro r t ht
    have hr : r < P := by
      by_contra hge
      rw [(h.idle r (by omega)).1] at ht
      cases ht
    have := hn r hr
    simp only [ht] at this
    exact this
  have hrun : ∀ i, Reach (fun r => progAt (m r) (incoming m tx rx r) (k r) 0 (tx r) (rx r))
      (fun r => progAt (m r) (incoming m tx rx r) (k r) i (tx r) (rx r)) fun _ => [] := by
    intro i
    induction i with
    | zero => exact .refl _
    | succ i ih => exact ih.trans (h.exchange k i)
  have hend : (fun r => progAt (m r) (incoming m tx rx r) (k r) (n + 1) (tx r) (rx r))
      = fun r => k r ((incoming m tx rx r).length, received m tx rx r) := by
    funext r
    rw [progAt_end (k r) (by omega) (tx r) (rx r) (fun t ht => Nat.le_succ_of_le (hn r t ht))]
    · rfl
    · intro hx
      unfold incoming
      rw [hx]
    · cases hx : rx r with
      | none =>
        have hnil : incoming m tx rx r = [] := by
          unfold incoming
          rw [hx]
        rw [hnil]
        show 1 ≤ n + 1
        omega
      | some x =>
        obtain ⟨t, ht, -, -, hlen⟩ := h.incoming_eq hx
        rw [hlen]
        exact Nat.le_succ_of_le (hn _ t ht)
  have hall := hlog.trans (hrun (n + 1))
  rw [hend] at hall
  simpa only [List.append_nil] using hall

end Round

end Pimid.Mpi
