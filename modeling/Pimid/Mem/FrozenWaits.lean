import Pimid.Lib.Machine
import Pimid.Lib.Settle
import Mathlib.Algebra.Order.Floor.Ring
import Mathlib.Algebra.Group.Prod
import Mathlib.Data.Rat.Floor
import Mathlib.Logic.Function.Basic

/-!
# Waits frozen per epoch

Waits that the replay does not price come from counts of a past epoch. On the axis of the
consistent cut an access is counted in its own epoch `k` and reads epoch `k - 2`, which the
cut has passed. Whoever comes after the cut has moved settles the epochs below it.

An interface's queue and the shared channel count accesses (`cutFrozenScalar`). A bank of
the device counts occupancy and accesses per epoch, its reads apart, and the elements that
used it; every interface counts its own use too, which is taken off again
(`sharedBankWait`). The published cut is one for all of them.

Times are exact rationals. `compute` of a scalar is a function of the count.
-/

namespace Pimid.Mem

open Std (TreeMap)

def kNocReadLagEpochs : Nat := 2

/-- The cut that is not published. -/
def noCut : Nat := 2 ^ 64 - 1

/-- With posted writes a bank serves its reads first; without, all accesses alike. -/
inductive BankClass where
  | single
  | read
  | write
deriving DecidableEq, Repr

/-- An access to a bank by an element of an interface, in its epoch. -/
structure BankAccess where
  mi : Nat
  srcId : Nat
  key : Nat
  bank : Nat
  occ : ℚ
  cls : BankClass
deriving DecidableEq

/-- The occupancy in thousandths of a cycle. -/
def BankAccess.om (a : BankAccess) : Nat :=
  ⌊a.occ * 1000 + 1 / 2⌋₊

/-- Occupancy, and accesses. -/
abbrev Use := Nat × Nat

def addUse (m : Nat → Use) (a : BankAccess) : Nat → Use :=
  Function.update m a.bank (m a.bank + (a.om, 1))

def addSource (m : Nat → Finset Nat) (a : BankAccess) : Nat → Finset Nat :=
  Function.update m a.bank (insert (a.srcId % 64) (m a.bank))

def uses : Tally BankAccess (Nat → Use) (Nat → Use) :=
  ⟨BankAccess.key, addUse, fun _ => 0, id⟩

def sources : Tally BankAccess (Nat → Finset Nat) (Nat → Finset Nat) :=
  ⟨BankAccess.key, addSource, fun _ => ∅, id⟩

/-- The accesses of one scalar: their epochs. -/
def scalarTally (compute : Nat → Nat) : Tally Nat Nat Nat :=
  ⟨id, fun n _ => n + 1, 0, compute⟩

/-- The device's banks: all uses, who used them, and the reads. -/
structure BankShare where
  dev : Settling (Nat → Use) (Nat → Use) := {}
  src : Settling (Nat → Finset Nat) (Nat → Finset Nat) := {}
  devR : Settling (Nat → Use) (Nat → Use) := {}

namespace BankShare

def count (sh : BankShare) (a : BankAccess) : BankShare where
  dev := uses.count sh.dev a
  src := sources.count sh.src a
  devR := if a.cls = .read then uses.count sh.devR a else sh.devR

/-- The sources go with the uses. -/
def settle (done : Nat) (sh : BankShare) : BankShare where
  dev := (below sh.dev.acc done).foldl uses.move sh.dev
  src := (below sh.dev.acc done).foldl sources.move sh.src
  devR := uses.settle done sh.devR

def keep (sh : BankShare) : BankShare where
  dev := sh.dev.keep 64
  src := sh.src.keep 64
  devR := sh.devR.keep 64

/-- The epoch that an access in epoch `k` reads: the latest settled one where its own is not final. -/
def epochRead (sh : BankShare) (done k : Nat) : Option Nat :=
  if kNocReadLagEpochs ≤ k then
    if k - kNocReadLagEpochs < done then some (k - kNocReadLagEpochs)
    else (sh.dev.frozen.getEntryLE? (k - kNocReadLagEpochs)).map (·.1)
  else none

end BankShare

structure CutParams where
  epochLen : Nat
  nocMlpDegree : Nat
  compute : Nat → Nat → Nat

/-- The published cut, the scalars, the device's banks and each interface's own use of them. -/
structure CutWaits where
  cut : Nat := 0
  scalars : Nat → Settling Nat Nat := fun _ => {}
  share : BankShare := {}
  bankOwn : Nat → TreeMap Nat (Nat → Use) := fun _ => ∅
  bankOwnR : Nat → TreeMap Nat (Nat → Use) := fun _ => ∅

/-- What an access reads: of the device, of its own interface, and who used the bank. -/
structure BankRead where
  epoch : Option Nat
  dev : Use
  own : Use
  devR : Use
  ownR : Use
  src : Finset Nat

def useAt (m : TreeMap Nat (Nat → Use)) (epoch : Option Nat) (bank : Nat) : Use :=
  match epoch with
  | some r => ((m[r]?).getD fun _ => 0) bank
  | none => 0

def sourcesAt (m : TreeMap Nat (Nat → Finset Nat)) (epoch : Option Nat) (bank : Nat) : Finset Nat :=
  match epoch with
  | some r => ((m[r]?).getD fun _ => ∅) bank
  | none => ∅

/-- The wait for the others' use of a bank: of one queue, or of two where reads go first, and never more than what `No`
elements can have in flight. -/
def waitFor (p : CutParams) (cls : BankClass) (use reads : Use) (others : Nat) : ℚ :=
  if use.2 = 0 ∨ use.1 = 0 then 0
  else
    let O : ℚ := use.1 / 1000
    let n : ℚ := use.2
    let rho := O / p.epochLen
    let S := O / n
    let M : ℚ := if p.nocMlpDegree < 1 then 1 else p.nocMlpDegree
    let bound := others * M * S
    let Or : ℚ := reads.1 / 1000
    let nr : ℚ := reads.2
    let Ow := if Or < O then O - Or else 0
    let nw := if nr < n then n - nr else 0
    let rr := Or / p.epochLen
    let R := ((if 0 < nr then Or * Or / nr else 0) + if 0 < nw then Ow * Ow / nw else 0) / (2 * p.epochLen)
    let md1 :=
      match cls with
      | .single => if rho < 1 then rho * S / (2 * (1 - rho)) else bound
      | .read => if rr < 1 then R / (1 - rr) else bound
      | .write => if rho < 1 ∧ rr < 1 then R / ((1 - rr) * (1 - rho)) else bound
    if md1 < bound then md1 else bound

def BankRead.wait (p : CutParams) (a : BankAccess) (x : BankRead) : ℚ :=
  if x.epoch = none then 0
  else waitFor p a.cls (x.dev.1 - x.own.1, x.dev.2 - x.own.2) (x.devR.1 - x.ownR.1, x.devR.2 - x.ownR.2)
    (x.src.erase (a.srcId % 64)).card

namespace CutWaits

variable (p : CutParams) (s : CutWaits)

/-- The epochs below are final. -/
def done : Nat := s.cut / p.epochLen

def publishDeviceCut (cut : Nat) : CutWaits :=
  if cut = noCut then s else { s with cut := cut }

/-- The scalar with the access counted and the final epochs settled. -/
def scalarNext (i k : Nat) : Settling Nat Nat :=
  (scalarTally (p.compute i)).settle (s.done p) ((scalarTally (p.compute i)).count (s.scalars i) k)

def scalarWait (i k : Nat) : Nat :=
  if kNocReadLagEpochs ≤ k then
    let r := k - kNocReadLagEpochs
    match (s.scalarNext p i k).frozen[r]? with
    | some v => v
    | none =>
      if r < s.done p then p.compute i 0
      else (((s.scalarNext p i k).frozen.getEntryLE? r).map (·.2)).getD 0
  else 0

def cutFrozenScalar (i k : Nat) : CutWaits × Nat :=
  ({ s with scalars := Function.update s.scalars i (s.scalarNext p i k) }, s.scalarWait p i k)

/-- The banks with the access counted and the final epochs settled. -/
def shareNext (a : BankAccess) : BankShare :=
  (s.share.count a).settle (s.done p)

def ownNext (a : BankAccess) : TreeMap Nat (Nat → Use) :=
  uses.counted (s.bankOwn a.mi) a

def ownRNext (a : BankAccess) : TreeMap Nat (Nat → Use) :=
  if a.cls = .read then uses.counted (s.bankOwnR a.mi) a else s.bankOwnR a.mi

def bankRead (a : BankAccess) : BankRead :=
  let sh := s.shareNext p a
  let r := sh.epochRead (s.done p) a.key
  let rR := if a.cls = .single then none else r
  { epoch := r
    dev := useAt sh.dev.frozen r a.bank
    own := useAt (s.ownNext a) r a.bank
    devR := useAt sh.devR.frozen rR a.bank
    ownR := useAt (s.ownRNext a) rR a.bank
    src := sourcesAt sh.src.frozen r a.bank }

def sharedBankWait (a : BankAccess) : CutWaits × ℚ :=
  ({ s with
      share := (s.shareNext p a).keep
      bankOwn := Function.update s.bankOwn a.mi (keepLast 72 (s.ownNext a))
      bankOwnR := Function.update s.bankOwnR a.mi (keepLast 72 (s.ownRNext a)) },
    (s.bankRead p a).wait p a)

end CutWaits

/-- One call, or one publication of the cut. -/
inductive CutOp where
  | publishDeviceCut (cut : Nat)
  | cutFrozenScalar (i k : Nat)
  | sharedBankWait (a : BankAccess)

namespace CutOp

def step (p : CutParams) (s : CutWaits) : CutOp → CutWaits
  | publishDeviceCut cut => s.publishDeviceCut cut
  | cutFrozenScalar i k => (s.cutFrozenScalar p i k).1
  | sharedBankWait a => (s.sharedBankWait p a).1

/-- No access is made in a final epoch, and what it reads is final. -/
def InTime (p : CutParams) (s : CutWaits) (k : Nat) : Prop :=
  s.done p ≤ k ∧ (kNocReadLagEpochs ≤ k → k - kNocReadLagEpochs < s.done p)

/-- The cut never goes back. -/
def Valid (p : CutParams) (s : CutWaits) : CutOp → Prop
  | publishDeviceCut cut => cut = noCut ∨ s.cut ≤ cut
  | cutFrozenScalar _ k => InTime p s k
  | sharedBankWait a => InTime p s a.key

instance (p : CutParams) (s : CutWaits) (k : Nat) : Decidable (InTime p s k) :=
  inferInstanceAs (Decidable (_ ∧ (_ → _)))

instance (p : CutParams) (s : CutWaits) : (op : CutOp) → Decidable (Valid p s op)
  | publishDeviceCut _ => inferInstanceAs (Decidable (_ ∨ _))
  | cutFrozenScalar _ k => inferInstanceAs (Decidable (InTime p s k))
  | sharedBankWait a => inferInstanceAs (Decidable (InTime p s a.key))

/-- The accesses of one scalar. -/
def scalarLog (i : Nat) (ops : List CutOp) : List Nat :=
  ops.filterMap fun
    | cutFrozenScalar j k => if j = i then some k else none
    | _ => none

def bankLog (ops : List CutOp) : List BankAccess :=
  ops.filterMap fun
    | sharedBankWait a => some a
    | _ => none

end CutOp

/-! ## What the counters hold -/

section Invariant

variable {p : CutParams} {s : CutWaits}

def readsOf (log : List BankAccess) : List BankAccess :=
  log.filter (·.cls = .read)

def ofMi (mi : Nat) (log : List BankAccess) : List BankAccess :=
  log.filter (·.mi = mi)

/-- The banks' counters of a log. -/
structure BankShare.Inv (log : List BankAccess) (done : Nat) (sh : BankShare) : Prop where
  dev : uses.Inv log done 64 sh.dev
  src : sources.Inv log done 64 sh.src
  devR : uses.Inv (readsOf log) done 64 sh.devR
  together : ∀ k : Nat, sh.src.acc[k]? = none ↔ sh.dev.acc[k]? = none

namespace BankShare.Inv

variable {log : List BankAccess} {done done' : Nat} {sh : BankShare} {a : BankAccess}

theorem init (done : Nat) : BankShare.Inv [] done {} :=
  ⟨.init _ _ _, .init _ _ _, .init _ _ _, fun k => by simp⟩

theorem mono (h : BankShare.Inv log done sh) (hle : done ≤ done') : BankShare.Inv log done' sh :=
  ⟨h.dev.mono hle, h.src.mono hle, h.devR.mono hle, h.together⟩

theorem count (h : BankShare.Inv log done sh) (ha : done ≤ a.key) : BankShare.Inv (log ++ [a]) done (sh.count a) := by
  refine ⟨h.dev.count ha, h.src.count ha, ?_, fun k => ?_⟩
  · unfold BankShare.count readsOf
    dsimp only
    rw [List.filter_append]
    by_cases hr : a.cls = .read
    · rw [if_pos hr, List.filter_cons_of_pos (by exact decide_eq_true hr)]
      exact h.devR.count ha
    · rw [if_neg hr, List.filter_cons_of_neg (by simpa using hr), List.filter_nil, List.append_nil]
      exact h.devR
  · have hdev : (sh.count a).dev.acc = uses.counted sh.dev.acc a := rfl
    have hsrc : (sh.count a).src.acc = sources.counted sh.src.acc a := rfl
    have hkey : sources.key a = uses.key a := rfl
    rw [hdev, hsrc, Tally.counted, Tally.counted, getElem?_insert_eq, getElem?_insert_eq, hkey]
    split
    · simp
    · exact h.together k

theorem settle (h : BankShare.Inv log done sh) : BankShare.Inv log done (sh.settle done) := by
  have hks : ∀ k ∈ below sh.dev.acc done, k < done := fun _ hk => (mem_below.mp hk).1
  refine ⟨h.dev.moves hks, h.src.moves hks, h.devR.settle, fun k => ?_⟩
  have hdev : (sh.settle done).dev.acc[k]? = if k ∈ below sh.dev.acc done then none else sh.dev.acc[k]? :=
    Tally.moves_acc ..
  have hsrc : (sh.settle done).src.acc[k]? = if k ∈ below sh.dev.acc done then none else sh.src.acc[k]? :=
    Tally.moves_acc ..
  rw [hdev, hsrc]
  split
  · simp
  · exact h.together k

theorem keep (h : BankShare.Inv log done sh) : BankShare.Inv log done sh.keep :=
  ⟨h.dev.keep (by decide), h.src.keep (by decide), h.devR.keep (by decide), h.together⟩

/-- After settling, no final epoch is open in any of the maps. -/
theorem settled (h : BankShare.Inv log done sh) {r : Nat} (hr : r < done) :
    (sh.settle done).dev.acc[r]? = none ∧ (sh.settle done).src.acc[r]? = none ∧
      (sh.settle done).devR.acc[r]? = none := by
  have hdev : (sh.settle done).dev.acc[r]? = none := Tally.settle_acc sh.dev hr
  exact ⟨hdev, (h.settle.together r).mpr hdev, Tally.settle_acc sh.devR hr⟩

end BankShare.Inv

/-- The counters after a list of calls. -/
structure CutWaits.Inv (p : CutParams) (ops : List CutOp) (s : CutWaits) : Prop where
  scalar : ∀ i, (scalarTally (p.compute i)).Inv (CutOp.scalarLog i ops) (s.done p) 2 (s.scalars i)
  share : s.share.Inv (CutOp.bankLog ops) (s.done p)
  own : ∀ mi, uses.Held (ofMi mi (CutOp.bankLog ops)) (s.done p) 72 (s.bankOwn mi)
  ownR : ∀ mi, uses.Held (readsOf (ofMi mi (CutOp.bankLog ops))) (s.done p) 72 (s.bankOwnR mi)

end Invariant

end Pimid.Mem
