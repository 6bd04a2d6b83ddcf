import Pimid.Lib.Bytes
import Mathlib.Data.BitVec
import Pimid.Lib.Blocks
import Pimid.Lib.Combine
import Pimid.Mpi.Datatype
import Pimid.Mpi.Frame

/-!
# Reduction operations

`reduce_local`: `io = in (op) io`, element by element. An operation handle names a
`RedOp`, a datatype handle a `RedType`; both tables know the handles of the shim's
own header and of MPICH, and abort on any other. An element is the `size` bytes of
a little-endian bit pattern, and `red_arith` and `red_int` are the source's
templates over the element type: `Arith` is what they use of it. For the integer
types that is `BitVec` arithmetic; for `float` and `double` it is a parameter.

What the collectives need to know about an operation is `combine`, a function on
element bytes, and `reduceLocal_spec`, which says where it is applied.
-/

namespace Pimid.Mpi

inductive RedOp where
  | sum | prod | max | min | land | lor | lxor | band | bor | bxor
  deriving DecidableEq, Repr

inductive RedType where
  | i8 | u8 | i16 | u16 | i32 | u32 | i64 | u64 | f32 | f64
  deriving DecidableEq, Repr

def redOp (op : Nat) : Option RedOp :=
  match op with
  | 1 => some .sum
  | 2 => some .max
  | 3 => some .min
  | 4 => some .prod
  | 5 => some .land
  | 6 => some .lor
  | 7 => some .band
  | 8 => some .bor
  | 0x58000001 => some .max
  | 0x58000002 => some .min
  | 0x58000003 => some .sum
  | 0x58000004 => some .prod
  | 0x58000005 => some .land
  | 0x58000006 => some .band
  | 0x58000007 => some .lor
  | 0x58000008 => some .bor
  | 0x58000009 => some .lxor
  | 0x5800000a => some .bxor
  | _ => none

def redType (dt : Nat) : Option RedType :=
  match dt with
  | 1 => some .i8
  | 2 => some .i32
  | 3 => some .f32
  | 4 => some .f64
  | 5 => some .i64
  | 6 => some .u32
  | 7 => some .u64
  | 8 => some .u8
  | 9 => some .i64
  | 0x4c000101 | 0x4c000118 | 0x4c000137 => some .i8
  | 0x4c000102 | 0x4c00010d | 0x4c00013b | 0x4c00013f => some .u8
  | 0x4c000203 | 0x4c000238 => some .i16
  | 0x4c000204 | 0x4c00023c => some .u16
  | 0x4c000405 | 0x4c000439 => some .i32
  | 0x4c000406 | 0x4c00043d => some .u32
  | 0x4c000807 | 0x4c000809 | 0x4c00083a => some .i64
  | 0x4c000808 | 0x4c000819 | 0x4c00083e => some .u64
  | 0x4c00040a => some .f32
  | 0x4c00080b => some .f64
  | _ => none

/-- `sizeof(T)`. -/
def RedType.size : RedType → Nat
  | .i8 | .u8 => 1
  | .i16 | .u16 => 2
  | .i32 | .u32 | .f32 => 4
  | .i64 | .u64 | .f64 => 8

def RedType.signed : RedType → Bool
  | .i8 | .i16 | .i32 | .i64 => true
  | _ => false

def RedType.isInt : RedType → Bool
  | .f32 | .f64 => false
  | _ => true

theorem RedType.size_pos (ty : RedType) : 0 < ty.size := by cases ty <;> decide

/-- A type that can be reduced has the size the rest of the shim moves. -/
theorem sized_of_redType {dt : Nat} {ty : RedType} (h : redType dt = some ty) : Sized dt ty.size := by
  unfold redType at h
  split at h <;> first | (obtain rfl := Option.some.inj h; decide) | cases h

/-! ## Element types -/

/-- What the templates use of an element type `T`: `+`, `*`, `>`, `<`, `!= 0` and
`(T)(bool)`. -/
structure Arith (w : Nat) where
  add : BitVec w → BitVec w → BitVec w
  mul : BitVec w → BitVec w → BitVec w
  gt : BitVec w → BitVec w → Bool
  lt : BitVec w → BitVec w → Bool
  nonzero : BitVec w → Bool
  ofBool : Bool → BitVec w

/-- The fixed-width integers. -/
def intArith (w : Nat) (signed : Bool) : Arith w where
  add a b := a + b
  mul a b := a * b
  gt a b := if signed then b.slt a else b.ult a
  lt a b := if signed then a.slt b else a.ult b
  nonzero a := a != 0
  ofBool c := if c then 1 else 0

/-- The machine's `float` and `double`. -/
structure Floats where
  f32 : Arith (8 * 4)
  f64 : Arith (8 * 8)

variable {w : Nat}

/-- `red_arith`: `in (op) io`. A bitwise operation aborts. -/
def redArith (T : Arith w) : RedOp → Option (BitVec w → BitVec w → BitVec w)
  | .sum => some T.add
  | .prod => some T.mul
  | .max => some fun a b => if T.gt a b then a else b
  | .min => some fun a b => if T.lt a b then a else b
  | .land => some fun a b => T.ofBool (T.nonzero a && T.nonzero b)
  | .lor => some fun a b => T.ofBool (T.nonzero a || T.nonzero b)
  | .lxor => some fun a b => T.ofBool (T.nonzero a != T.nonzero b)
  | _ => none

/-- `red_int`. -/
def redInt (T : Arith w) : RedOp → Option (BitVec w → BitVec w → BitVec w)
  | .band => some fun a b => a &&& b
  | .bor => some fun a b => a ||| b
  | .bxor => some fun a b => a ^^^ b
  | o => redArith T o

/-! ## Elements in memory -/

/-- The element with bytes `l`. -/
def elem (n : Nat) (l : Bytes) : BitVec (8 * n) := BitVec.ofNat _ (ofBytes l)

/-- An operation on elements as one on their bytes. -/
def onBytes (n : Nat) (g : BitVec (8 * n) → BitVec (8 * n) → BitVec (8 * n)) (a b : Bytes) : Bytes :=
  toBytes n (g (elem n a) (elem n b)).toNat

theorem elem_onBytes (n : Nat) (g : BitVec (8 * n) → BitVec (8 * n) → BitVec (8 * n)) (a b : Bytes) :
    elem n (onBytes n g a b) = g (elem n a) (elem n b) := by
  apply BitVec.eq_of_toNat_eq
  rw [onBytes, elem, BitVec.toNat_ofNat, ofBytes_toBytes, Nat.mod_mod, Nat.mod_eq_of_lt (BitVec.isLt _)]

/-- The operation `reduce_local` applies to the bytes of an element of `in` and one of
`io`; `none` aborts. -/
def combine (fp : Floats) (ty : RedType) (o : RedOp) : Option (Bytes → Bytes → Bytes) :=
  match ty with
  | .f32 => (redArith fp.f32 o).map (onBytes 4)
  | .f64 => (redArith fp.f64 o).map (onBytes 8)
  | ty => (redInt (intArith (8 * ty.size) ty.signed) o).map (onBytes ty.size)

theorem combine_int {fp : Floats} {ty : RedType} (o : RedOp) (h : ty.isInt = true) :
    combine fp ty o = (redInt (intArith (8 * ty.size) ty.signed) o).map (onBytes ty.size) := by
  cases ty <;> first | rfl | cases h

theorem length_combine {fp : Floats} {ty : RedType} {o : RedOp} {f : Bytes → Bytes → Bytes}
    (h : combine fp ty o = some f) (a b : Bytes) : (f a b).length = ty.size := by
  cases ty <;> (obtain ⟨g, -, rfl⟩ := Option.map_eq_some_iff.mp h; exact length_toBytes ..)

/-- The result does not depend on the order of the operands. -/
def Commutes (f : Bytes → Bytes → Bytes) : Prop := ∀ a b, f a b = f b a

/-! ## Laws of the integer operations -/

section Laws

variable {signed : Bool}

/-- Keeping the operand with the greater key. -/
def pick (key : BitVec w → Int) (a b : BitVec w) : BitVec w := if key b < key a then a else b

theorem pick_comm {key : BitVec w → Int} (hinj : ∀ a b, key a = key b → a = b) (a b : BitVec w) :
    pick key a b = pick key b a := by
  unfold pick
  rcases Int.lt_trichotomy (key a) (key b) with h | h | h
  · rw [if_neg (by omega), if_pos h]
  · rw [hinj a b h]
  · rw [if_pos h, if_neg (by omega)]

theorem pick_assoc (key : BitVec w → Int) (a b c : BitVec w) :
    pick key (pick key a b) c = pick key a (pick key b c) := by
  unfold pick
  by_cases hab : key b < key a <;> by_cases hbc : key c < key b <;> by_cases hac : key c < key a <;>
    simp only [hab, hbc, hac, if_true, if_false] <;> omega

/-- The value a comparison goes by. -/
def intKey (signed : Bool) (a : BitVec w) : Int := if signed then a.toInt else a.toNat

theorem intKey_inj (a b : BitVec w) (h : intKey signed a = intKey signed b) : a = b := by
  unfold intKey at h
  cases signed
  · exact BitVec.eq_of_toNat_eq (by simpa using h)
  · exact BitVec.eq_of_toInt_eq (by simpa using h)

theorem intArith_gt (a b : BitVec w) :
    (intArith w signed).gt a b = decide (intKey signed b < intKey signed a) := by
  cases signed
  · simp [intArith, intKey, BitVec.ult]
  · simp [intArith, intKey, BitVec.slt]

theorem intArith_lt (a b : BitVec w) :
    (intArith w signed).lt a b = decide (- intKey signed b < - intKey signed a) := by
  cases signed
  · simp [intArith, intKey, BitVec.ult]
  · simp [intArith, intKey, BitVec.slt]

/-- The maximum and the minimum keep an operand by its value. -/
theorem redInt_max : redInt (intArith w signed) .max = some (pick (intKey signed)) := by
  simp only [redInt, redArith, intArith_gt, decide_eq_true_eq]
  rfl

theorem redInt_min : redInt (intArith w signed) .min = some (pick fun a => - intKey signed a) := by
  simp only [redInt, redArith, intArith_lt, decide_eq_true_eq]
  rfl

theorem nonzero_ofBool (hw : 0 < w) (c : Bool) :
    (intArith w signed).nonzero ((intArith w signed).ofBool c) = c := by
  have hone : (1 : BitVec w) ≠ 0 := by
    intro h
    have := congrArg BitVec.toNat h
    simp [hw] at this
  cases c
  · simp [intArith]
  · simpa [intArith] using hone

variable {o : RedOp} {g : BitVec w → BitVec w → BitVec w}

theorem redInt_comm (h : redInt (intArith w signed) o = some g) (a b : BitVec w) :
    g a b = g b a := by
  cases o with
  | sum => obtain rfl := Option.some.inj h; exact BitVec.add_comm a b
  | prod => obtain rfl := Option.some.inj h; exact BitVec.mul_comm a b
  | max =>
    obtain rfl := Option.some.inj (redInt_max.symm.trans h)
    exact pick_comm intKey_inj a b
  | min =>
    obtain rfl := Option.some.inj (redInt_min.symm.trans h)
    exact pick_comm (fun a b hab => intKey_inj a b (Int.neg_inj.mp hab)) a b
  | land => obtain rfl := Option.some.inj h; simp only [Bool.and_comm]
  | lor => obtain rfl := Option.some.inj h; simp only [Bool.or_comm]
  | lxor => obtain rfl := Option.some.inj h; simp only [bne_comm]
  | band => obtain rfl := Option.some.inj h; exact BitVec.and_comm a b
  | bor => obtain rfl := Option.some.inj h; exact BitVec.or_comm a b
  | bxor => obtain rfl := Option.some.inj h; exact BitVec.xor_comm a b

theorem redInt_assoc (hw : 0 < w) (h : redInt (intArith w signed) o = some g) (a b c : BitVec w) :
    g (g a b) c = g a (g b c) := by
  cases o with
  | sum => obtain rfl := Option.some.inj h; exact BitVec.add_assoc a b c
  | prod => obtain rfl := Option.some.inj h; exact BitVec.mul_assoc a b c
  | max =>
    obtain rfl := Option.some.inj (redInt_max.symm.trans h)
    exact pick_assoc _ a b c
  | min =>
    obtain rfl := Option.some.inj (redInt_min.symm.trans h)
    exact pick_assoc _ a b c
  | land => obtain rfl := Option.some.inj h; simp only [nonzero_ofBool hw, Bool.and_assoc]
  | lor => obtain rfl := Option.some.inj h; simp only [nonzero_ofBool hw, Bool.or_assoc]
  | lxor => obtain rfl := Option.some.inj h; simp only [nonzero_ofBool hw, Bool.bne_assoc]
  | band => obtain rfl := Option.some.inj h; exact BitVec.and_assoc a b c
  | bor => obtain rfl := Option.some.inj h; exact BitVec.or_assoc a b c
  | bxor => obtain rfl := Option.some.inj h; exact BitVec.xor_assoc a b c

end Laws

theorem commutes_of_int {fp : Floats} {ty : RedType} {o : RedOp} {f : Bytes → Bytes → Bytes}
    (hint : ty.isInt = true) (h : combine fp ty o = some f) : Commutes f := by
  rw [combine_int o hint] at h
  obtain ⟨g, hg, rfl⟩ := Option.map_eq_some_iff.mp h
  intro a b
  rw [onBytes, onBytes, redInt_comm hg]

/-- **On the integer types a bracketing of all the elements is their reduction.** -/
theorem elem_of_reduces {fp : Floats} {ty : RedType} {o : RedOp} {f : Bytes → Bytes → Bytes}
    {g : BitVec (8 * ty.size) → BitVec (8 * ty.size) → BitVec (8 * ty.size)} (hint : ty.isInt = true)
    (hf : combine fp ty o = some f) (hg : redInt (intArith (8 * ty.size) ty.signed) o = some g)
    {n : Nat} {v : Nat → Bytes} {a : Bytes} (h : Reduces f v (Finset.range (n + 1)) a) :
    elem ty.size a = reduceAll g (fun s => elem ty.size (v s)) n := by
  rw [combine_int o hint, hg, Option.map_some] at hf
  obtain rfl := Option.some.inj hf
  have : Std.Commutative g := ⟨redInt_comm hg⟩
  have : Std.Associative g := ⟨redInt_assoc (by have := ty.size_pos; omega) hg⟩
  exact (h.map (elem ty.size) (elem_onBytes ty.size g)).eq_reduceAll

/-! ## The loop -/

/-- `reduce_local`: combine the `n` elements at `in` into those at `io`. -/
def reduceLocal (fp : Floats) (m : Mem) (inb : BufId) (ioff : Nat) (io : BufId) (off n dt op : Nat) :
    Option Mem := do
  let o ← redOp op
  let ty ← redType dt
  let f ← combine fp ty o
  forRange (fun i m => do
    let a ← m.read inb (ioff + i * ty.size) ty.size
    let b ← m.read io (off + i * ty.size) ty.size
    m.write io (off + i * ty.size) (f a b)) n 0 m

/-- Each element of `io` ends combined with its partner of `in`, and nothing else
changes. -/
theorem reduceLocal_spec {fp : Floats} {m : Mem} {inb io : BufId} {ioff off n dt op : Nat} {o : RedOp}
    {ty : RedType} {f : Bytes → Bytes → Bytes} (hop : redOp op = some o) (hty : redType dt = some ty)
    (hf : combine fp ty o = some f) (hne : inb ≠ io) (hin : Fits (m inb) ioff (n * ty.size))
    (hio : Fits (m io) off (n * ty.size)) :
    ∃ M, reduceLocal fp m inb ioff io off n dt op = some M ∧
      Keeps io (fun x => off ≤ x ∧ x < off + n * ty.size) m M ∧
      ∀ i, i < n → slice (M io) (off + i * ty.size) ty.size
        = f (slice (m inb) (ioff + i * ty.size) ty.size) (slice (m io) (off + i * ty.size) ty.size) := by
  have hsub : ∀ {l : Bytes} {a : Nat}, Fits l a (n * ty.size) → ∀ i, i < n →
      Fits l (a + i * ty.size) ty.size := fun h i hi =>
    h.sub (by omega) (by have := mul_add_le_mul hi ty.size; omega)
  obtain ⟨M, hM, hk, hdone, -⟩ := forRange_spec (n := n)
    (f := fun i m => do
      let a ← m.read inb (ioff + i * ty.size) ty.size
      let b ← m.read io (off + i * ty.size) ty.size
      m.write io (off + i * ty.size) (f a b))
    (fun k M => Keeps io (fun x => off ≤ x ∧ x < off + n * ty.size) m M ∧
      (∀ i, i < k → slice (M io) (off + i * ty.size) ty.size
        = f (slice (m inb) (ioff + i * ty.size) ty.size) (slice (m io) (off + i * ty.size) ty.size)) ∧
      ∀ i, k ≤ i → i < n →
        slice (M io) (off + i * ty.size) ty.size = slice (m io) (off + i * ty.size) ty.size)
    (by
      rintro k M hk ⟨hK, hdone, htodo⟩
      have hfin : Fits (M inb) (ioff + k * ty.size) ty.size := hK.fits (hsub hin k hk)
      have hfio : Fits (M io) (off + k * ty.size) ty.size := hK.fits (hsub hio k hk)
      have hlen : ∀ a b, (f a b).length = ty.size := length_combine hf
      have hput : ∀ a b, Fits (M io) (off + k * ty.size) (f a b).length := fun a b => by
        rw [hlen]
        exact hfio
      have helse : ∀ i, i ≠ k → ∀ a b,
          slice (M.put io (off + k * ty.size) (f a b) io) (off + i * ty.size) ty.size
            = slice (M io) (off + i * ty.size) ty.size := by
        intro i hi a b
        rw [Mem.put_self, slice_splice_disjoint (hput a b)]
        rw [hlen]
        have := apart_mul hi ty.size
        unfold Apart at *
        omega
      refine ⟨_, by simp only [Mem.read_eq hfin, Mem.read_eq hfio]; exact Mem.write_eq (hput _ _),
        hK.trans (Keeps.put (hput _ _) fun x h₁ h₂ => ?_), fun i hi => ?_, fun i hi hin => ?_⟩
      · rw [hlen] at h₂
        have := mul_add_le_mul hk ty.size
        omega
      · by_cases hik : i = k
        · subst hik
          have := slice_put_self (hput (slice (M inb) (ioff + i * ty.size) ty.size)
            (slice (M io) (off + i * ty.size) ty.size))
          rw [hlen] at this
          rw [this, hK.other inb hne, htodo i (Nat.le_refl i) hk]
        · rw [helse i hik]
          exact hdone i (by omega)
      · rw [helse i (by omega)]
        exact htodo i (by omega) hin)
    (Nat.zero_le n) (m := m) ⟨.refl .., fun i hi => absurd hi (Nat.not_lt_zero i), fun _ _ _ => rfl⟩
  refine ⟨M, ?_, hk, hdone⟩
  simp only [reduceLocal, hop, hty, hf, Option.bind_eq_bind, Option.bind_some]
  exact hM

end Pimid.Mpi
