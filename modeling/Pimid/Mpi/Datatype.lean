import Mathlib.Algebra.Group.Nat.Defs
import Mathlib.Data.Nat.Notation
import Pimid.Mpi.P2P

/-!
# Arguments of a call

A buffer argument is null, `MPI_IN_PLACE` or a buffer. `dtype_size`: the size in bytes of a datatype handle. The shim knows the handles
of its own header and decodes the size MPICH keeps inside its builtin handles;
any other handle aborts the rank. A handle is its 32-bit pattern.
-/

namespace Pimid.Mpi

/-- A buffer argument. -/
inductive Arg where
  | null
  | inPlace
  | buf (b : BufId)
  deriving DecidableEq

/-- The block a rank contributes. -/
def ownBlock (m : Mem) (sendbuf : Arg) (recvbuf : BufId) (off len : Nat) : Bytes :=
  match sendbuf with
  | .buf b => slice (m b) 0 len
  | _ => slice (m recvbuf) off len

/-- `(h & 0xfc000000) == 0x4c000000`, and the size in bits 8 to 15 of such a handle. -/
def mpichSize (h : Nat) : Option Nat :=
  if h &&& 0xfc000000 = 0x4c000000 then
    let sz := (h >>> 8) &&& 0xff
    if sz > 0 then some sz else none
  else none

def dtypeSize (dt : Nat) : Option Nat :=
  match dt with
  | 1 | 8 => some 1
  | 2 | 6 | 3 => some 4
  | 4 | 5 | 7 | 9 => some 8
  | h => mpichSize h

/-- `(size_t)count * dtype_size(datatype)`. -/
def bytesOf (count datatype : Nat) : Option Nat := (dtypeSize datatype).map (count * ·)

/-- A handle with a size, and that size. -/
abbrev Sized (dt n : Nat) : Prop := dtypeSize dt = some n

/-- `n > 0 && (n & (n - 1)) == 0`. -/
def isPof2 (n : Nat) : Bool := decide (n > 0) && decide (n &&& (n - 1) = 0)

theorem isPof2_iff {n : Nat} : isPof2 n = true ↔ ∃ K, n = 2 ^ K := by
  unfold isPof2
  rw [Bool.and_eq_true, decide_eq_true_eq, decide_eq_true_eq]
  constructor
  · rintro ⟨hpos, h⟩
    exact (Nat.and_sub_one_eq_zero_iff_isPowerOfTwo (by omega)).mp h
  · rintro ⟨K, rfl⟩
    have hpos := Nat.two_pow_pos K
    exact ⟨hpos, (Nat.and_sub_one_eq_zero_iff_isPowerOfTwo (by omega)).mpr ⟨K, rfl⟩⟩

end Pimid.Mpi
