import Mathlib.Logic.Function.Basic
import Pimid.Lib.Slice

/-!
# A rank's memory

What one rank can address: the buffers its program passes in, the shim's own
per-rank scratch slots, and the work array `allgatherv_bruck` keeps on its
stack. A buffer is the list of its bytes and an access outside it is a fault, so
"this call never reads or writes past the buffer" is part of "this call
finishes".

`scratchOrVec` is the source's `scratch_or_vec`: under the PIM runtime a slot is
kept between calls and only ever grows, and a new slot is not zeroed — its
content is whatever `Runtime.fresh` says; otherwise the temporary is a
zero-filled vector of the requested size.
-/

namespace Pimid.Mpi

abbrev Bytes := List UInt8

/-- The buffers a rank addresses. -/
inductive BufId where
  | user (k : Nat)
  | scratch (slot : Nat)
  | stack
  deriving DecidableEq, Repr, Inhabited

abbrev Mem := BufId → Bytes

namespace Mem

/-- Overwrite `b` with `d` from `off` on. -/
def put (m : Mem) (b : BufId) (off : Nat) (d : Bytes) : Mem :=
  Function.update m b (splice (m b) off d)

/-- Read `len` bytes at `b + off`; `none` is an access outside the buffer. -/
def read (m : Mem) (b : BufId) (off len : Nat) : Option Bytes :=
  if Fits (m b) off len then some (slice (m b) off len) else none

/-- Write `d` at `b + off`; `none` is an access outside the buffer. -/
def write (m : Mem) (b : BufId) (off : Nat) (d : Bytes) : Option Mem :=
  if Fits (m b) off d.length then some (m.put b off d) else none

/-- `memcpy(dst + doff, src + soff, len)`. -/
def copy (m : Mem) (dst : BufId) (doff : Nat) (src : BufId) (soff len : Nat) : Option Mem :=
  (m.read src soff len).bind (m.write dst doff)

variable {m : Mem} {b b' : BufId} {off : Nat} {d : Bytes}

theorem read_eq {len : Nat} (h : Fits (m b) off len) :
    m.read b off len = some (slice (m b) off len) := if_pos h

theorem write_eq (h : Fits (m b) off d.length) : m.write b off d = some (m.put b off d) := if_pos h

theorem copy_eq {dst src : BufId} {doff soff len : Nat} (hs : Fits (m src) soff len)
    (hd : Fits (m dst) doff len) :
    m.copy dst doff src soff len = some (m.put dst doff (slice (m src) soff len)) := by
  unfold copy
  rw [read_eq hs]
  exact write_eq (by rw [length_slice hs]; exact hd)

@[simp] theorem put_self : m.put b off d b = splice (m b) off d := Function.update_self ..

theorem put_ne (h : b' ≠ b) : m.put b off d b' = m b' := Function.update_of_ne h ..

@[simp] theorem put_nil : m.put b off [] = m := by
  unfold put
  rw [splice_nil, Function.update_eq_self]

theorem length_put (h : Fits (m b) off d.length) : (m.put b off d b').length = (m b').length := by
  by_cases hb : b' = b
  · subst hb; rw [put_self, length_splice h]
  · rw [put_ne hb]

theorem getElem?_put (h : Fits (m b) off d.length) (i : Nat) :
    (m.put b off d b)[i]? = if off ≤ i ∧ i < off + d.length then d[i - off]? else (m b)[i]? := by
  rw [put_self, getElem?_splice h]

end Mem

/-! ## Scratch buffers -/

/-- Whether the PIM runtime applies to a rank, and what newly allocated scratch
memory holds. -/
structure Runtime where
  on : Bool
  fresh : (c : Nat) → Vector UInt8 c

def kScratchInit : Nat := 64 * 1024

/-- The capacity a scratch slot of capacity `cap` grows to for `bytes`. -/
def scratchGrow (cap bytes : Nat) : Nat :=
  let c := cap * 2
  let c := if c < kScratchInit then kScratchInit else c
  let c := if c < bytes then bytes else c
  (c + 4095) / 4096 * 4096

/-- `scratch_or_vec`: make scratch buffer `slot` at least `bytes` long. -/
def scratchOrVec (rt : Runtime) (slot bytes : Nat) (m : Mem) : Mem :=
  if rt.on then
    if (m (.scratch slot)).length < bytes then
      Function.update m (.scratch slot)
        (rt.fresh (scratchGrow (m (.scratch slot)).length bytes)).toList
    else m
  else Function.update m (.scratch slot) (List.replicate bytes 0)

theorem le_scratchGrow (cap bytes : Nat) : bytes ≤ scratchGrow cap bytes := by
  simp only [scratchGrow]
  split <;> split <;> omega

theorem le_length_scratchOrVec (rt : Runtime) (slot bytes : Nat) (m : Mem) :
    bytes ≤ (scratchOrVec rt slot bytes m (.scratch slot)).length := by
  unfold scratchOrVec
  split
  · split
    · rw [Function.update_self, Vector.length_toList]
      exact le_scratchGrow _ _
    · omega
  · exact Nat.le_of_eq (by rw [Function.update_self, List.length_replicate])

theorem scratchOrVec_ne (rt : Runtime) (slot bytes : Nat) (m : Mem) {b : BufId}
    (h : b ≠ .scratch slot) : scratchOrVec rt slot bytes m b = m b := by
  unfold scratchOrVec
  split
  · split
    · exact Function.update_of_ne h ..
    · rfl
  · exact Function.update_of_ne h ..

end Pimid.Mpi
