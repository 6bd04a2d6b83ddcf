import Mathlib.Algebra.GroupWithZero.Nat
import Mathlib.Data.List.Basic

/-!
# Little-endian numbers

Numbers as bytes, and records of numbers of given widths as the bytes of their fields in
order.
-/

namespace Pimid

/-- The number with little-endian bytes `l`. -/
def ofBytes : List UInt8 → Nat
  | [] => 0
  | x :: l => x.toNat + 256 * ofBytes l

/-- The `n` low bytes of `x`, little-endian. -/
def toBytes : Nat → Nat → List UInt8
  | 0, _ => []
  | n + 1, x => UInt8.ofNat x :: toBytes n (x / 256)

theorem length_toBytes (n x : Nat) : (toBytes n x).length = n := by
  induction n generalizing x with
  | zero => rfl
  | succ n ih => rw [toBytes, List.length_cons, ih]

theorem ofBytes_toBytes (n x : Nat) : ofBytes (toBytes n x) = x % 2 ^ (8 * n) := by
  induction n generalizing x with
  | zero => rw [toBytes, ofBytes, Nat.mul_zero, Nat.pow_zero, Nat.mod_one]
  | succ n ih =>
    have hpow : 2 ^ (8 * (n + 1)) = 256 * 2 ^ (8 * n) := by
      rw [Nat.mul_add, Nat.pow_add, Nat.mul_comm]
    have hmod := Nat.mod_mul (x := x) (a := 256) (b := 2 ^ (8 * n))
    rw [toBytes, ofBytes, ih, hpow, hmod]
    rfl

/-! ## Records -/

/-- The bytes of fields of given widths. -/
def putFields (fs : List (Nat × Nat)) : List UInt8 := fs.flatMap fun f => toBytes f.1 f.2

/-- The fields of given widths that `l` starts with. -/
def getFields : List Nat → List UInt8 → List Nat
  | [], _ => []
  | w :: ws, l => ofBytes (l.take w) :: getFields ws (l.drop w)

theorem length_putFields (fs : List (Nat × Nat)) : (putFields fs).length = (fs.map Prod.fst).sum := by
  induction fs with
  | nil => rfl
  | cons f fs ih =>
    rw [putFields, List.flatMap_cons, List.length_append, length_toBytes, List.map_cons, List.sum_cons, ← ih, putFields]

theorem getFields_putFields (fs : List (Nat × Nat)) (rest : List UInt8) :
    getFields (fs.map Prod.fst) (putFields fs ++ rest) = fs.map fun f => f.2 % 2 ^ (8 * f.1) := by
  induction fs with
  | nil => rfl
  | cons f fs ih =>
    have hlen := length_toBytes f.1 f.2
    have hput : putFields (f :: fs) ++ rest = toBytes f.1 f.2 ++ (putFields fs ++ rest) := by
      rw [putFields, List.flatMap_cons, List.append_assoc, putFields]
    rw [List.map_cons, getFields, hput, List.take_left' hlen, List.drop_left' hlen, ih, ofBytes_toBytes, List.map_cons]

end Pimid
