import Mathlib.Algebra.Group.Nat.Defs
import Mathlib.Data.List.Basic

/-!
# What the cores read

The decoded uops of a basic block, and the first-level caches as the cores see them: an access goes
out at a cycle, comes back at another, and may leave a timing record behind.
-/

namespace Pimid.Core

/-! ## Blocks -/

abbrev Address := Nat

/-- `(Address)-1L`: the address of an access that is not made. -/
def noAddr : Address := 2 ^ 64 - 1

inductive UopType where
  | general
  | load
  | store
  | storeAddr
  | fence
  deriving DecidableEq, Repr

structure DynUop where
  rs0 : Nat
  rs1 : Nat
  rd0 : Nat
  rd1 : Nat
  lat : Nat
  decCycle : Nat
  type : UopType
  portMask : Nat
  extraSlots : Nat
  deriving DecidableEq, Repr

/-- The uop writes register `r`; register 0 stands for none. -/
def DynUop.Writes (u : DynUop) (r : Nat) : Prop := r ≠ 0 ∧ (u.rd0 = r ∨ u.rd1 = r)

instance (u : DynUop) (r : Nat) : Decidable (u.Writes r) := inferInstanceAs (Decidable (_ ∧ _))

/-- The uop reads register `r`. -/
def DynUop.Reads (u : DynUop) (r : Nat) : Prop := r ≠ 0 ∧ (u.rs0 = r ∨ u.rs1 = r)

/-- A decoded block. One without uops is synthetic. -/
structure DynBbl where
  uops : List DynUop
  repInstrs : Nat
  deriving DecidableEq, Repr

structure BblInfo where
  instrs : Nat
  bytes : Nat
  nFp : Nat
  oooBbl : DynBbl
  deriving DecidableEq, Repr

/-! ## Caches -/

inductive AccessKind where
  | fetch
  | load
  | store
  deriving DecidableEq, Repr

/-- A call of a first-level cache. -/
structure Access where
  kind : AccessKind
  addr : Address
  start : Nat
  deriving DecidableEq, Repr

/-- The timing record an access leaves for the weave phase. -/
structure TimingRecord where
  isGet : Bool
  reqCycle : Nat
  respCycle : Nat
  deriving DecidableEq, Repr

/-- What comes back from a cache: the response cycle, the record left behind, and whether a line was replaced in the
filter. -/
structure Answer where
  resp : Nat
  record : Option TimingRecord
  replaced : Bool
  deriving DecidableEq, Repr

/-- The caches of a core. An answer may depend on all that was asked before. -/
abbrev Caches := List Access → Access → Answer

/-- No response comes before its request. -/
def Caches.Prompt (l1 : Caches) : Prop := ∀ sent a, a.start ≤ (l1 sent a).resp

/-- A timing record lies between the request and the response. -/
def Caches.Recorded (l1 : Caches) : Prop :=
  ∀ sent a r, (l1 sent a).record = some r → a.start ≤ r.reqCycle ∧ r.respCycle ≤ (l1 sent a).resp

end Pimid.Core
