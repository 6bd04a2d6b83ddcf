import Pimid.Net.Sync
import Pimid.Mpi.Mem

/-!
# Byte-level point-to-point messages

`send_bytes`, `recv_bytes` and `xchg_bytes` in thread mode. A message travels as
chunks of at most `maxMsgBytes`; a channel `s → d` carries the chunks `s`
enqueued for `d`, oldest first, which is what a receive that matches on the
source alone sees of the transport. `xchg_bytes` alternates — send chunk `i`,
receive chunk `i` — so it is not a send followed by a receive, and it reads its
send buffer while it is already writing its receive buffer.

The receive loops run until a chunk says it is the last one. The model bounds
them by the chunk count the first chunk announces; a stream that would exceed
that bound faults, and `Round` proves that none does.

Each call logs what it asks of its peer: the bytes sent, or the capacity posted.
-/

namespace Pimid.Mpi

open Pimid.Net

/-- `PIMID_MPI_MAX_MSG_BYTES`. -/
def maxMsgBytes : Nat := 64 * 1024

/-- One chunk on the wire; `payload` is the slot's first `size` bytes. -/
structure Chunk where
  tag : Nat
  chunkIdx : Nat
  nChunks : Nat
  msgBytes : Nat
  payload : Bytes

/-- What a rank logs: a message of `bytes` sent to `dst`, a receive of capacity
`cap` posted for `src`, and the memory a collective call returned with. -/
inductive Event where
  | sent (dst bytes : Nat)
  | posted (src cap : Nat)
  | returned (call : Nat) (m : Mem)

abbrev Rank := Prog Nat Chunk Event

/-- An access that faults stops the rank. -/
def access {α : Type} : Option α → Rank α
  | none => .fail
  | some a => .ret a

@[simp] theorem access_some {α : Type} (a : α) : access (some a) = .ret a := rfl

def chunksOf (nbytes : Nat) : Nat :=
  if nbytes = 0 then 1 else (nbytes + maxMsgBytes - 1) / maxMsgBytes

/-- Send chunk `i` of the `n` chunks of `b[off, off + nbytes)`. -/
def sendChunkAt (m : Mem) (b : BufId) (off nbytes dest tag i n : Nat) : Rank Unit := do
  let o := i * maxMsgBytes
  let left := if nbytes > o then nbytes - o else 0
  let take := if left < maxMsgBytes then left else maxMsgBytes
  let d ← access (m.read b (off + o) take)
  .send dest ⟨tag, i, n, nbytes, d⟩ (.ret ())

/-- Chunks `i, i + 1, …` of `n`, `todo` of them. -/
def sendChunks (m : Mem) (b : BufId) (off nbytes dest tag n : Nat) : Nat → Nat → Rank Unit
  | 0, _ => .ret ()
  | todo + 1, i => do
    sendChunkAt m b off nbytes dest tag i n
    sendChunks m b off nbytes dest tag n todo (i + 1)

def sendBytes (P : Nat) (m : Mem) (b : BufId) (off nbytes dest tag : Nat) : Rank Unit :=
  if P ≤ 1 then .ret ()
  else if P ≤ dest then .ret ()
  else .emit (.sent dest nbytes)
    (sendChunks m b off nbytes dest tag (chunksOf nbytes) (chunksOf nbytes) 0)

/-- Receive progress of one message. -/
structure RecvState where
  written : Nat
  done : Bool

/-- Write what fits of chunk `c` into `b[off, off + cap)` behind the bytes already
written. -/
def takeChunk (m : Mem) (b : BufId) (off cap : Nat) (r : RecvState) (c : Chunk) :
    Rank (Nat × RecvState × Mem) := do
  let space := if cap > r.written then cap - r.written else 0
  let take := if c.payload.length < space then c.payload.length else space
  let m ← access (m.write b (off + r.written) (c.payload.take take))
  .ret (c.nChunks, ⟨r.written + take, decide (c.chunkIdx + 1 ≥ c.nChunks)⟩, m)

/-- `recv_chunk_thread`: take the next chunk of `src`. -/
def recvChunk (m : Mem) (b : BufId) (off cap src : Nat) (r : RecvState) :
    Rank (Nat × RecvState × Mem) :=
  .recv src (takeChunk m b off cap r)

/-- The rest of the receive loop. -/
def recvMore (b : BufId) (off cap src : Nat) : Nat → RecvState → Mem → Rank (Nat × Mem)
  | fuel, r, m =>
    if r.done then .ret (r.written, m)
    else match fuel with
      | 0 => .fail
      | fuel + 1 => do
        let (_, r, m) ← recvChunk m b off cap src r
        recvMore b off cap src fuel r m

/-- Returns the bytes received and the memory with the message in place. -/
def recvBytes (P : Nat) (m : Mem) (b : BufId) (off cap src : Nat) : Rank (Nat × Mem) :=
  if P ≤ 1 then .ret (0, m)
  else if P ≤ src then .ret (0, m)
  else .emit (.posted src cap) do
    let (n, r, m) ← recvChunk m b off cap src ⟨0, false⟩
    recvMore b off cap src n r m

/-- The exchange loop from chunk `i` on. -/
def xchgMore (sb : BufId) (soff sbytes dest : Nat) (rb : BufId) (roff rbytes src : Nat) :
    Nat → Nat → RecvState → Mem → Rank (Nat × Mem)
  | fuel, i, r, m =>
    if i < chunksOf sbytes ∨ r.done = false then
      match fuel with
      | 0 => .fail
      | fuel + 1 => do
        if i < chunksOf sbytes then
          sendChunkAt m sb soff sbytes dest 0 i (chunksOf sbytes)
        if r.done then xchgMore sb soff sbytes dest rb roff rbytes src fuel (i + 1) r m
        else do
          let (_, r, m) ← recvChunk m rb roff rbytes src r
          xchgMore sb soff sbytes dest rb roff rbytes src fuel (i + 1) r m
    else .ret (r.written, m)

/-- One exchange step: send `sb[soff, soff + sbytes)` to `dest` and receive into
`rb[roff, roff + rbytes)` from `src`, chunk by chunk. The loop's first pass sends
and receives chunk 0, since every message has one. -/
def xchgBytes (P : Nat) (m : Mem) (sb : BufId) (soff sbytes dest : Nat)
    (rb : BufId) (roff rbytes src : Nat) : Rank (Nat × Mem) :=
  if P ≤ 1 then .ret (0, m)
  else if P ≤ dest ∨ P ≤ src then do
    sendBytes P m sb soff sbytes dest 0
    recvBytes P m rb roff rbytes src
  else .emit (.sent dest sbytes) <| .emit (.posted src rbytes) do
    sendChunkAt m sb soff sbytes dest 0 0 (chunksOf sbytes)
    let (n, r, m) ← recvChunk m rb roff rbytes src ⟨0, false⟩
    xchgMore sb soff sbytes dest rb roff rbytes src (chunksOf sbytes + n) 1 r m

end Pimid.Mpi
