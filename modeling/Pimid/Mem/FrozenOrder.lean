import Pimid.Mem.FrozenWaits

/-!
# Frozen waits and the order of simulation

Two runs that make the same accesses, in any two orders and with the cut published at any
times, answer each access alike, if no access is made in an epoch that is already final and
each reads one that is. The answer of a bank access comes from the accesses of the other
interfaces to the bank in the epoch it reads, and from the number of elements but its own
that used the bank in it. These are told apart by their source numbers modulo 64, and those
behind its own interface are among them.
-/

namespace Pimid.Mem

open Std (TreeMap)
open CutOp (scalarLog bankLog InTime Valid)

variable {p : CutParams} {s : CutWaits} {ops : List CutOp} {log : List BankAccess} {a : BankAccess}

/-! ## Totals over a log -/

/-- The use of some accesses. -/
def useOf (l : List BankAccess) : Use :=
  (l.map fun b => (b.om, 1)).sum

/-- The elements that made them, by source number modulo 64. -/
def elementsOf (l : List BankAccess) : Finset Nat :=
  (l.map fun b => b.srcId % 64).toFinset

/-- The accesses to a bank in an epoch. -/
def onBank (log : List BankAccess) (epoch bank : Nat) : List BankAccess :=
  (log.filter (·.key = epoch)).filter (·.bank = bank)

theorem useOf_cons (b : BankAccess) (l : List BankAccess) : useOf (b :: l) = (b.om, 1) + useOf l := rfl

theorem foldl_addUse (l : List BankAccess) (m : Nat → Use) (bank : Nat) :
    l.foldl addUse m bank = m bank + useOf (l.filter (·.bank = bank)) := by
  induction l generalizing m with
  | nil => exact (add_zero _).symm
  | cons b l ih =>
    rw [List.foldl_cons, ih, addUse]
    by_cases hb : b.bank = bank
    · rw [hb, Function.update_self, List.filter_cons_of_pos (by exact decide_eq_true hb), useOf_cons, add_assoc]
    · rw [Function.update_of_ne (Ne.symm hb), List.filter_cons_of_neg (by simpa using hb)]

theorem foldl_addSource (l : List BankAccess) (m : Nat → Finset Nat) (bank : Nat) :
    l.foldl addSource m bank = m bank ∪ elementsOf (l.filter (·.bank = bank)) := by
  induction l generalizing m with
  | nil => exact (Finset.union_empty _).symm
  | cons b l ih =>
    rw [List.foldl_cons, ih, addSource]
    by_cases hb : b.bank = bank
    · rw [hb, Function.update_self, List.filter_cons_of_pos (by exact decide_eq_true hb), elementsOf, elementsOf,
        List.map_cons, List.toFinset_cons, Finset.insert_union, Finset.union_insert]
    · rw [Function.update_of_ne (Ne.symm hb), List.filter_cons_of_neg (by simpa using hb)]

theorem uses_total (log : List BankAccess) (epoch bank : Nat) :
    uses.total log epoch bank = useOf (onBank log epoch bank) := by
  refine (foldl_addUse _ _ bank).trans ?_
  exact zero_add _

theorem sources_total (log : List BankAccess) (epoch bank : Nat) :
    sources.total log epoch bank = elementsOf (onBank log epoch bank) := by
  refine (foldl_addSource _ _ bank).trans ?_
  exact Finset.empty_union _

theorem foldl_count (l : List Nat) (n : Nat) : l.foldl (fun n _ => n + 1) n = n + l.length := by
  induction l generalizing n with
  | nil => rfl
  | cons k l ih =>
    rw [List.foldl_cons, ih, List.length_cons]
    omega

theorem scalar_total (compute : Nat → Nat) (log : List Nat) (r : Nat) :
    (scalarTally compute).total log r = (log.filter (· = r)).length :=
  (foldl_count _ 0).trans (Nat.zero_add _)

/-- The use of an interface and that of the others make the whole. -/
theorem useOf_split (q : BankAccess → Bool) (l : List BankAccess) :
    useOf l = useOf (l.filter q) + useOf (l.filter fun b => !q b) := by
  induction l with
  | nil => rfl
  | cons b l ih =>
    by_cases hq : q b = true
    · rw [List.filter_cons_of_pos hq, List.filter_cons_of_neg (by simp [hq]), useOf_cons, useOf_cons, ih, add_assoc]
    · rw [List.filter_cons_of_neg hq, List.filter_cons_of_pos (by simpa using hq), useOf_cons, useOf_cons, ih,
        add_left_comm]

theorem useOf_perm {l l' : List BankAccess} (h : l.Perm l') : useOf l = useOf l' :=
  (h.map _).sum_eq

theorem elementsOf_perm {l l' : List BankAccess} (h : l.Perm l') : elementsOf l = elementsOf l' :=
  List.toFinset_eq_of_perm _ _ (h.map _)

/-! ## The logs -/

theorem bankLog_append (ops ops' : List CutOp) : bankLog (ops ++ ops') = bankLog ops ++ bankLog ops' :=
  List.filterMap_append

theorem scalarLog_append (i : Nat) (ops ops' : List CutOp) :
    scalarLog i (ops ++ ops') = scalarLog i ops ++ scalarLog i ops' :=
  List.filterMap_append

theorem scalarLog_self (i k : Nat) : scalarLog i [.cutFrozenScalar i k] = [k] := by
  simp [scalarLog]

theorem scalarLog_other {i j : Nat} (h : j ≠ i) (k : Nat) : scalarLog i [.cutFrozenScalar j k] = [] := by
  simp [scalarLog, h]

/-! ## The counters of every run -/

theorem CutOp.InTime.lt {k : Nat} (h : InTime p s k) : k < s.done p + 2 := by
  obtain ⟨-, hread⟩ := h
  unfold kNocReadLagEpochs at hread
  omega

namespace CutWaits.Inv

theorem init (p : CutParams) : CutWaits.Inv p [] {} :=
  ⟨fun _ => .init _ _ _, .init _, fun _ => .init _ _ _, fun _ => .init _ _ _⟩

theorem publishDeviceCut (h : CutWaits.Inv p ops s) {cut : Nat} (hcut : cut = noCut ∨ s.cut ≤ cut) :
    CutWaits.Inv p (ops ++ [.publishDeviceCut cut]) (s.publishDeviceCut cut) := by
  have hbank : bankLog (ops ++ [.publishDeviceCut cut]) = bankLog ops := by
    rw [bankLog_append]
    exact List.append_nil _
  have hscalar : ∀ i, scalarLog i (ops ++ [.publishDeviceCut cut]) = scalarLog i ops := by
    intro i
    rw [scalarLog_append]
    exact List.append_nil _
  have hle : s.done p ≤ (s.publishDeviceCut cut).done p := by
    unfold CutWaits.publishDeviceCut CutWaits.done
    split
    · exact Nat.le_refl _
    · next hne => exact Nat.div_le_div_right (hcut.resolve_left hne)
  have hrest : (s.publishDeviceCut cut).scalars = s.scalars ∧ (s.publishDeviceCut cut).share = s.share ∧
      (s.publishDeviceCut cut).bankOwn = s.bankOwn ∧ (s.publishDeviceCut cut).bankOwnR = s.bankOwnR := by
    unfold CutWaits.publishDeviceCut
    split <;> exact ⟨rfl, rfl, rfl, rfl⟩
  obtain ⟨hs, hsh, ho, hor⟩ := hrest
  refine ⟨fun i => ?_, ?_, fun mi => ?_, fun mi => ?_⟩
  · rw [hscalar i, hs]
    exact (h.scalar i).mono hle
  · rw [hbank, hsh]
    exact h.share.mono hle
  · rw [hbank, ho]
    exact (h.own mi).mono hle
  · rw [hbank, hor]
    exact (h.ownR mi).mono hle

theorem scalarNext (h : CutWaits.Inv p ops s) (i : Nat) {k : Nat} (hk : s.done p ≤ k) :
    (scalarTally (p.compute i)).Inv (scalarLog i ops ++ [k]) (s.done p) 2 (s.scalarNext p i k) :=
  ((h.scalar i).count (a := k) hk).settle

theorem cutFrozenScalar (h : CutWaits.Inv p ops s) (i : Nat) {k : Nat} (hk : s.done p ≤ k) :
    CutWaits.Inv p (ops ++ [.cutFrozenScalar i k]) (s.cutFrozenScalar p i k).1 := by
  have hbank : bankLog (ops ++ [.cutFrozenScalar i k]) = bankLog ops := by
    rw [bankLog_append]
    exact List.append_nil _
  refine ⟨fun j => ?_, ?_, fun mi => ?_, fun mi => ?_⟩
  · have hupd : (s.cutFrozenScalar p i k).1.scalars j = if j = i then s.scalarNext p i k else s.scalars j := by
      unfold CutWaits.cutFrozenScalar
      dsimp only
      rw [Function.update_apply]
    rw [hupd, scalarLog_append]
    split
    · next heq =>
      subst heq
      rw [scalarLog_self]
      exact h.scalarNext j hk
    · next hne =>
      rw [scalarLog_other (Ne.symm hne), List.append_nil]
      exact h.scalar j
  · rw [hbank]
    exact h.share
  · rw [hbank]
    exact h.own mi
  · rw [hbank]
    exact h.ownR mi

theorem ownNext (h : CutWaits.Inv p ops s) (ha : InTime p s a.key) :
    uses.Held (ofMi a.mi (bankLog ops ++ [a])) (s.done p) 72 (s.ownNext a) := by
  have hlog : ofMi a.mi (bankLog ops ++ [a]) = ofMi a.mi (bankLog ops) ++ [a] := by
    unfold ofMi
    rw [List.filter_append, List.filter_cons_of_pos (by simp), List.filter_nil]
  rw [hlog]
  exact (h.own a.mi).count ha.1 ha.lt (by decide)

theorem ownRNext (h : CutWaits.Inv p ops s) (ha : InTime p s a.key) :
    uses.Held (readsOf (ofMi a.mi (bankLog ops ++ [a]))) (s.done p) 72 (s.ownRNext a) := by
  have hlog : readsOf (ofMi a.mi (bankLog ops ++ [a])) =
      readsOf (ofMi a.mi (bankLog ops)) ++ if a.cls = .read then [a] else [] := by
    unfold readsOf ofMi
    rw [List.filter_append, List.filter_cons_of_pos (by simp), List.filter_nil, List.filter_append]
    congr 1
    split
    · next hr => rw [List.filter_cons_of_pos (by exact decide_eq_true hr), List.filter_nil]
    · next hr => rw [List.filter_cons_of_neg (by simpa using hr), List.filter_nil]
  rw [hlog]
  unfold CutWaits.ownRNext
  split
  · exact (h.ownR a.mi).count ha.1 ha.lt (by decide)
  · rw [List.append_nil]
    exact h.ownR a.mi

theorem shareNext (h : CutWaits.Inv p ops s) (ha : s.done p ≤ a.key) :
    (s.shareNext p a).Inv (bankLog ops ++ [a]) (s.done p) :=
  (h.share.count ha).settle

theorem sharedBankWait (h : CutWaits.Inv p ops s) (ha : InTime p s a.key) :
    CutWaits.Inv p (ops ++ [.sharedBankWait a]) (s.sharedBankWait p a).1 := by
  have hbank : bankLog (ops ++ [.sharedBankWait a]) = bankLog ops ++ [a] := bankLog_append ..
  have hother : ∀ mi, mi ≠ a.mi → ofMi mi (bankLog ops ++ [a]) = ofMi mi (bankLog ops) := by
    intro mi hne
    unfold ofMi
    rw [List.filter_append, List.filter_cons_of_neg (by simpa using Ne.symm hne), List.filter_nil, List.append_nil]
  refine ⟨fun i => ?_, ?_, fun mi => ?_, fun mi => ?_⟩
  · rw [scalarLog_append]
    show (scalarTally (p.compute i)).Inv (scalarLog i ops ++ []) _ _ _
    rw [List.append_nil]
    exact h.scalar i
  · rw [hbank]
    exact (h.shareNext ha.1).keep
  · rw [hbank]
    have hupd : (s.sharedBankWait p a).1.bankOwn mi = if mi = a.mi then keepLast 72 (s.ownNext a) else s.bankOwn mi := by
      unfold CutWaits.sharedBankWait
      dsimp only
      rw [Function.update_apply]
    rw [hupd]
    split
    · next heq =>
      rw [heq]
      exact (h.ownNext ha).keep (by decide)
    · next hne =>
      rw [hother mi hne]
      exact h.own mi
  · rw [hbank]
    have hupd : (s.sharedBankWait p a).1.bankOwnR mi =
        if mi = a.mi then keepLast 72 (s.ownRNext a) else s.bankOwnR mi := by
      unfold CutWaits.sharedBankWait
      dsimp only
      rw [Function.update_apply]
    rw [hupd]
    split
    · next heq =>
      rw [heq]
      exact (h.ownRNext ha).keep (by decide)
    · next hne =>
      rw [hother mi hne]
      exact h.ownR mi

theorem step (h : CutWaits.Inv p ops s) (op : CutOp) (hop : Valid p s op) :
    CutWaits.Inv p (ops ++ [op]) (CutOp.step p s op) := by
  cases op with
  | publishDeviceCut cut => exact h.publishDeviceCut hop
  | cutFrozenScalar i k => exact h.cutFrozenScalar i hop.1
  | sharedBankWait a => exact h.sharedBankWait hop

end CutWaits.Inv

/-- The state after a run. -/
def runCut (p : CutParams) (ops : List CutOp) : CutWaits :=
  ops.foldl (CutOp.step p) {}

theorem inv_runCut (h : Along (CutOp.step p) (Valid p) {} ops) : CutWaits.Inv p ops (runCut p ops) :=
  Along.inv (I := fun s as => CutWaits.Inv p as s) (fun hI hop => hI.step _ hop) (.init p) h

/-! ## The answers -/

/-- What a scalar access gets: the value of the count of the epoch two back. -/
def scalarAnswer (p : CutParams) (log : List Nat) (i k : Nat) : Nat :=
  if kNocReadLagEpochs ≤ k then p.compute i (log.filter (· = k - kNocReadLagEpochs)).length else 0

/-- The accesses to the bank in the epoch that an access reads. -/
def readBy (log : List BankAccess) (a : BankAccess) : List BankAccess :=
  onBank log (a.key - kNocReadLagEpochs) a.bank

def othersOf (a : BankAccess) (l : List BankAccess) : List BankAccess :=
  l.filter fun b => !decide (b.mi = a.mi)

/-- What a bank access gets: the wait for the others' use of the bank. -/
def bankAnswer (p : CutParams) (log : List BankAccess) (a : BankAccess) : ℚ :=
  if kNocReadLagEpochs ≤ a.key then
    waitFor p a.cls (useOf (othersOf a (readBy log a)))
      (if a.cls = .single then 0 else useOf (othersOf a (readsOf (readBy log a))))
      ((elementsOf (readBy log a)).erase (a.srcId % 64)).card
  else 0

theorem scalarWait_eq (h : CutWaits.Inv p ops s) (i : Nat) {k : Nat} (hk : InTime p s k) :
    s.scalarWait p i k = scalarAnswer p (scalarLog i ops) i k := by
  unfold CutWaits.scalarWait scalarAnswer
  split
  · next hlag =>
    have hr := hk.2 hlag
    have hne : k ≠ k - kNocReadLagEpochs := by
      unfold kNocReadLagEpochs at hlag ⊢
      omega
    have hread := (h.scalarNext i hk.1).read (Tally.settle_acc _ hr) (by
      have := hk.1
      have := hk.lt
      unfold kNocReadLagEpochs
      omega)
    rw [Tally.total_snoc, if_neg (by exact hne)] at hread
    dsimp only
    rw [← scalar_total (p.compute i)]
    refine Eq.trans ?_ hread
    split
    · next v hv => rw [hv, Option.getD_some]
    · next hnone =>
      rw [if_pos hr, hnone, Option.getD_none]
      rfl
  · rfl

theorem onBank_filter (q : BankAccess → Bool) (log : List BankAccess) (epoch bank : Nat) :
    onBank (log.filter q) epoch bank = (onBank log epoch bank).filter q := by
  unfold onBank
  rw [List.filter_comm q, List.filter_comm q]

/-- The access itself is in a later epoch than the one it reads. -/
theorem onBank_snoc {epoch bank : Nat} (h : a.key ≠ epoch) :
    onBank (log ++ [a]) epoch bank = onBank log epoch bank := by
  unfold onBank
  rw [List.filter_append, List.filter_cons_of_neg (by simpa using h), List.filter_nil, List.append_nil]

theorem useAt_read {limit r done : Nat} {sh : Settling (Nat → Use) (Nat → Use)} (bank : Nat)
    (h : uses.Inv log done limit sh) (hsettled : sh.acc[r]? = none) (hr : done ≤ r + limit) :
    useAt sh.frozen (some r) bank = useOf (onBank log r bank) :=
  (congrFun (h.read hsettled hr) bank).trans (uses_total log r bank)

theorem useAt_held {limit r done : Nat} {m : TreeMap Nat (Nat → Use)} (bank : Nat) (h : uses.Held log done limit m)
    (hr : done + 2 ≤ r + limit) : useAt m (some r) bank = useOf (onBank log r bank) :=
  (congrFun (h.read hr) bank).trans (uses_total log r bank)

theorem sourcesAt_read {limit r done : Nat} {sh : Settling (Nat → Finset Nat) (Nat → Finset Nat)} (bank : Nat)
    (h : sources.Inv log done limit sh) (hsettled : sh.acc[r]? = none) (hr : done ≤ r + limit) :
    sourcesAt sh.frozen (some r) bank = elementsOf (onBank log r bank) :=
  (congrFun (h.read hsettled hr) bank).trans (sources_total log r bank)

/-- **What a bank access reads** is all that was counted in its epoch, of the device and of its own interface. -/
theorem bankRead_eq (h : CutWaits.Inv p ops s) (ha : InTime p s a.key) (hlag : kNocReadLagEpochs ≤ a.key) :
    s.bankRead p a =
      { epoch := some (a.key - kNocReadLagEpochs)
        dev := useOf (readBy (bankLog ops) a)
        own := useOf (ofMi a.mi (readBy (bankLog ops) a))
        devR := if a.cls = .single then 0 else useOf (readsOf (readBy (bankLog ops) a))
        ownR := if a.cls = .single then 0 else useOf (readsOf (ofMi a.mi (readBy (bankLog ops) a)))
        src := elementsOf (readBy (bankLog ops) a) } := by
  have hr := ha.2 hlag
  have hlt := ha.lt
  have hge := ha.1
  have hne : a.key ≠ a.key - kNocReadLagEpochs := by
    unfold kNocReadLagEpochs at hlag ⊢
    omega
  have hnear : s.done p ≤ a.key - kNocReadLagEpochs + 2 := by
    unfold kNocReadLagEpochs
    omega
  have hsh := h.shareNext hge
  obtain ⟨hdev, hsrc, hdevR⟩ := (h.share.count hge).settled hr
  have hepoch : (s.shareNext p a).epochRead (s.done p) a.key = some (a.key - kNocReadLagEpochs) := by
    unfold BankShare.epochRead
    rw [if_pos hlag, if_pos hr]
  have hmi : ∀ epoch bank, onBank (ofMi a.mi (bankLog ops ++ [a])) epoch bank =
      ofMi a.mi (onBank (bankLog ops ++ [a]) epoch bank) := onBank_filter _ _
  have hreads : ∀ l epoch bank, onBank (readsOf l) epoch bank = readsOf (onBank l epoch bank) := onBank_filter _
  have hdevUse := useAt_read a.bank hsh.dev hdev (by omega)
  have hsrcUse := sourcesAt_read a.bank hsh.src hsrc (by omega)
  have hdevRUse := useAt_read a.bank hsh.devR hdevR (by omega)
  have hownUse := useAt_held a.bank (h.ownNext ha) (r := a.key - kNocReadLagEpochs) (by omega)
  have hownRUse := useAt_held a.bank (h.ownRNext ha) (r := a.key - kNocReadLagEpochs) (by omega)
  rw [onBank_snoc hne] at hdevUse hsrcUse
  rw [hmi, onBank_snoc hne] at hownUse
  rw [hreads, onBank_snoc hne] at hdevRUse
  rw [hreads, hmi, onBank_snoc hne] at hownRUse
  unfold CutWaits.bankRead readBy
  dsimp only
  rw [hepoch, hdevUse, hsrcUse, hownUse]
  by_cases hc : a.cls = .single
  · rw [if_pos hc, if_pos hc, if_pos hc]
    rfl
  · rw [if_neg hc, if_neg hc, if_neg hc, hdevRUse, hownRUse]

theorem useOf_sub (a : BankAccess) (l : List BankAccess) :
    ((useOf l).1 - (useOf (ofMi a.mi l)).1, (useOf l).2 - (useOf (ofMi a.mi l)).2) = useOf (othersOf a l) := by
  have hsplit := useOf_split (fun b => decide (b.mi = a.mi)) l
  unfold ofMi othersOf
  rw [hsplit, Prod.fst_add, Prod.snd_add, Nat.add_sub_cancel_left, Nat.add_sub_cancel_left]

theorem useOf_le (a : BankAccess) (l : List BankAccess) :
    (useOf (ofMi a.mi l)).1 ≤ (useOf l).1 ∧ (useOf (ofMi a.mi l)).2 ≤ (useOf l).2 := by
  have hsplit := useOf_split (fun b => decide (b.mi = a.mi)) l
  unfold ofMi
  rw [hsplit, Prod.fst_add, Prod.snd_add]
  exact ⟨Nat.le_add_right .., Nat.le_add_right ..⟩

/-- The own totals taken off are in the device's. -/
def BankRead.OwnLe (x : BankRead) : Prop :=
  (x.own.1 ≤ x.dev.1 ∧ x.own.2 ≤ x.dev.2) ∧ x.ownR.1 ≤ x.devR.1 ∧ x.ownR.2 ≤ x.devR.2

theorem readsOf_ofMi (mi : Nat) (l : List BankAccess) : readsOf (ofMi mi l) = ofMi mi (readsOf l) :=
  List.filter_comm ..

theorem bankRead_none (hlag : ¬kNocReadLagEpochs ≤ a.key) : s.bankRead p a = ⟨none, 0, 0, 0, 0, ∅⟩ := by
  have hnone : (s.shareNext p a).epochRead (s.done p) a.key = none := if_neg hlag
  unfold CutWaits.bankRead
  dsimp only
  rw [hnone, ite_self]
  rfl

theorem bankWait_eq (h : CutWaits.Inv p ops s) (ha : InTime p s a.key) :
    (s.sharedBankWait p a).2 = bankAnswer p (bankLog ops) a ∧ (s.bankRead p a).OwnLe := by
  show (s.bankRead p a).wait p a = _ ∧ _
  by_cases hlag : kNocReadLagEpochs ≤ a.key
  · rw [bankRead_eq h ha hlag]
    constructor
    · unfold BankRead.wait bankAnswer
      rw [if_neg (by simp), if_pos hlag]
      dsimp only
      rw [useOf_sub]
      by_cases hc : a.cls = .single
      · rw [if_pos hc, if_pos hc, if_pos hc]
        rfl
      · rw [if_neg hc, if_neg hc, if_neg hc, readsOf_ofMi, useOf_sub]
    · refine ⟨useOf_le a _, ?_⟩
      dsimp only
      by_cases hc : a.cls = .single
      · rw [if_pos hc, if_pos hc]
        exact ⟨Nat.le_refl _, Nat.le_refl _⟩
      · rw [if_neg hc, if_neg hc, readsOf_ofMi]
        exact useOf_le a _
  · rw [bankRead_none hlag]
    refine ⟨?_, ⟨Nat.le_refl _, Nat.le_refl _⟩, Nat.le_refl _, Nat.le_refl _⟩
    unfold bankAnswer
    rw [if_neg hlag]
    rfl

/-! ## Whole runs -/

theorem done_mono (op : CutOp) (hop : Valid p s op) : s.done p ≤ (CutOp.step p s op).done p := by
  cases op with
  | publishDeviceCut cut =>
    show s.done p ≤ (s.publishDeviceCut cut).done p
    unfold CutWaits.publishDeviceCut CutWaits.done
    split
    · exact Nat.le_refl _
    · next hne => exact Nat.div_le_div_right (hop.resolve_left hne)
  | cutFrozenScalar i k => exact Nat.le_refl _
  | sharedBankWait a => exact Nat.le_refl _

/-- From a state on, nothing is counted in an epoch that is final there. -/
theorem later_keys (h : Along (CutOp.step p) (Valid p) s ops) :
    (∀ b ∈ bankLog ops, s.done p ≤ b.key) ∧ ∀ i, ∀ k ∈ scalarLog i ops, s.done p ≤ k := by
  induction ops generalizing s with
  | nil => exact ⟨fun b hb => absurd hb List.not_mem_nil, fun i k hk => absurd hk List.not_mem_nil⟩
  | cons op ops ih =>
    obtain ⟨hop, hrest⟩ := h
    have hle := done_mono op hop
    obtain ⟨hbank, hscalar⟩ := ih hrest
    refine ⟨fun b hb => ?_, fun i k hk => ?_⟩
    · rw [show op :: ops = [op] ++ ops from rfl, bankLog_append] at hb
      rcases List.mem_append.mp hb with hb | hb
      · cases op with
        | publishDeviceCut cut => exact absurd hb List.not_mem_nil
        | cutFrozenScalar i k => exact absurd hb List.not_mem_nil
        | sharedBankWait a =>
          rw [show b = a from List.mem_singleton.mp hb]
          exact hop.1
      · exact Nat.le_trans hle (hbank b hb)
    · rw [show op :: ops = [op] ++ ops from rfl, scalarLog_append] at hk
      rcases List.mem_append.mp hk with hk | hk
      · cases op with
        | publishDeviceCut cut => exact absurd hk List.not_mem_nil
        | cutFrozenScalar j k' =>
          by_cases hj : j = i
          · rw [hj, scalarLog_self] at hk
            rw [List.mem_singleton.mp hk]
            exact hop.1
          · rw [scalarLog_other hj] at hk
            exact absurd hk List.not_mem_nil
        | sharedBankWait a => exact absurd hk List.not_mem_nil
      · exact Nat.le_trans hle (hscalar i k hk)

theorem filter_key_append {α : Type} (key : α → Nat) (l : List α) {l' : List α} {r : Nat} (h : ∀ x ∈ l', key x ≠ r) :
    (l ++ l').filter (fun x => key x = r) = l.filter fun x => key x = r := by
  have hnone : l'.filter (fun x => key x = r) = [] := List.filter_eq_nil_iff.mpr fun x hx => by simpa using h x hx
  rw [List.filter_append, hnone, List.append_nil]

variable {pre post : List CutOp}

/-- An access's answer is the one that all accesses of the run give it. -/
theorem scalarWait_run {i k : Nat} (h : Along (CutOp.step p) (Valid p) {} (pre ++ .cutFrozenScalar i k :: post)) :
    (runCut p pre).scalarWait p i k = scalarAnswer p (scalarLog i (pre ++ .cutFrozenScalar i k :: post)) i k := by
  obtain ⟨hpre, hrest⟩ := along_append.mp h
  have hk : InTime p (runCut p pre) k := hrest.1
  rw [scalarWait_eq (inv_runCut hpre) i hk, scalarLog_append]
  unfold scalarAnswer
  split
  · next hlag =>
    have hr := hk.2 hlag
    have hlater := (later_keys hrest).2 i
    have hfilter := filter_key_append id (scalarLog i pre) (r := k - kNocReadLagEpochs) fun j hj => by
      have := hlater j hj
      show j ≠ _
      exact Nat.ne_of_gt (Nat.lt_of_lt_of_le hr this)
    exact congrArg (fun l : List Nat => p.compute i l.length) hfilter.symm
  · rfl

theorem bankWait_run (h : Along (CutOp.step p) (Valid p) {} (pre ++ .sharedBankWait a :: post)) :
    ((runCut p pre).sharedBankWait p a).2 = bankAnswer p (bankLog (pre ++ .sharedBankWait a :: post)) a ∧
      ((runCut p pre).bankRead p a).OwnLe := by
  obtain ⟨hpre, hrest⟩ := along_append.mp h
  have ha : InTime p (runCut p pre) a.key := hrest.1
  obtain ⟨hwait, hown⟩ := bankWait_eq (inv_runCut hpre) ha
  refine ⟨hwait.trans ?_, hown⟩
  rw [bankLog_append]
  unfold bankAnswer
  split
  · next hlag =>
    have hr := ha.2 hlag
    have hlater := (later_keys hrest).1
    have hread : readBy (bankLog pre ++ bankLog (.sharedBankWait a :: post)) a = readBy (bankLog pre) a := by
      unfold readBy onBank
      rw [filter_key_append BankAccess.key (bankLog pre) fun b hb => ?_]
      exact Nat.ne_of_gt (Nat.lt_of_lt_of_le hr (hlater b hb))
    rw [hread]
  · rfl

theorem size_keepLast {β : Type} (limit : Nat) (m : TreeMap Nat β) : (keepLast limit m).size ≤ limit := by
  rw [← TreeMap.length_toList, toList_keepLast, List.length_drop]
  omega

theorem few_settled (p : CutParams) (ops : List CutOp) :
    (runCut p ops).share.dev.frozen.size ≤ 64 ∧ (runCut p ops).share.src.frozen.size ≤ 64 ∧
      (runCut p ops).share.devR.frozen.size ≤ 64 := by
  unfold runCut
  refine Along.keeps (P := fun _ _ => True) (I := fun s : CutWaits => s.share.dev.frozen.size ≤ 64 ∧
    s.share.src.frozen.size ≤ 64 ∧ s.share.devR.frozen.size ≤ 64) (fun s op hs _ => ?_) ?_ (along_of_forall (fun _ _ => trivial) _ _)
  · cases op with
    | publishDeviceCut cut =>
      have hshare : (CutOp.step p s (.publishDeviceCut cut)).share = s.share := by
        show (s.publishDeviceCut cut).share = _
        unfold CutWaits.publishDeviceCut
        split <;> rfl
      rw [hshare]
      exact hs
    | cutFrozenScalar i k => exact hs
    | sharedBankWait a => exact ⟨size_keepLast 64 _, size_keepLast 64 _, size_keepLast 64 _⟩
  · exact ⟨by decide, by decide, by decide⟩

theorem bankAnswer_perm {log' : List BankAccess} (h : log.Perm log') (a : BankAccess) :
    bankAnswer p log a = bankAnswer p log' a := by
  have hread : (readBy log a).Perm (readBy log' a) := (h.filter _).filter _
  have huse : useOf (othersOf a (readBy log a)) = useOf (othersOf a (readBy log' a)) := useOf_perm (hread.filter _)
  have hreads : useOf (othersOf a (readsOf (readBy log a))) = useOf (othersOf a (readsOf (readBy log' a))) :=
    useOf_perm ((hread.filter _).filter _)
  unfold bankAnswer
  rw [huse, hreads, elementsOf_perm hread]

/-- **Frozen waits do not depend on the order of simulation.** -/
theorem frozen_order_free {ops ops' : List CutOp} (h : Along (CutOp.step p) (Valid p) {} ops)
    (h' : Along (CutOp.step p) (Valid p) {} ops') (hscalar : ∀ i, (scalarLog i ops).Perm (scalarLog i ops'))
    (hbank : (bankLog ops).Perm (bankLog ops')) :
    (∀ i k pre post pre' post', ops = pre ++ .cutFrozenScalar i k :: post →
        ops' = pre' ++ .cutFrozenScalar i k :: post' →
        ((runCut p pre).cutFrozenScalar p i k).2 = ((runCut p pre').cutFrozenScalar p i k).2) ∧
      (∀ a pre post pre' post', ops = pre ++ .sharedBankWait a :: post → ops' = pre' ++ .sharedBankWait a :: post' →
        ((runCut p pre).sharedBankWait p a).2 = ((runCut p pre').sharedBankWait p a).2) ∧
      (∀ a pre post, ops = pre ++ .sharedBankWait a :: post →
        ((runCut p pre).sharedBankWait p a).2 = bankAnswer p (bankLog ops) a ∧ ((runCut p pre).bankRead p a).OwnLe) ∧
      ∀ pre post, ops = pre ++ post →
        (runCut p pre).share.dev.frozen.size ≤ 64 ∧ (runCut p pre).share.src.frozen.size ≤ 64 ∧
          (runCut p pre).share.devR.frozen.size ≤ 64 := by
  refine ⟨?_, ?_, ?_, fun pre _ _ => few_settled p pre⟩
  · intro i k pre post pre' post' hops hops'
    have heq := scalarWait_run (hops ▸ h)
    have heq' := scalarWait_run (hops' ▸ h')
    rw [← hops] at heq
    rw [← hops'] at heq'
    refine heq.trans (Eq.trans ?_ heq'.symm)
    unfold scalarAnswer
    rw [((hscalar i).filter _).length_eq]
  · intro a pre post pre' post' hops hops'
    have heq := (bankWait_run (hops ▸ h)).1
    have heq' := (bankWait_run (hops' ▸ h')).1
    rw [← hops] at heq
    rw [← hops'] at heq'
    exact heq.trans ((bankAnswer_perm hbank a).trans heq'.symm)
  · intro a pre post hops
    have := bankWait_run (hops ▸ h)
    rwa [← hops] at this

/-- Epochs of ten cycles, and one access in flight for an element. -/
def shortEpochs : CutParams :=
  ⟨10, 1, fun _ n => n⟩

/-- Element `srcId` of interface `mi` at the one bank. -/
def atBank (mi srcId key : Nat) (occ : ℚ) : BankAccess :=
  ⟨mi, srcId, key, 0, occ, .single⟩

/-- Two elements of interface 0 and one of interface 1 at the bank. -/
def ownAccess : CutOp := .sharedBankWait (atBank 0 1 0 5)
def otherAccess : CutOp := .sharedBankWait (atBank 1 2 0 20)
def readerAccess : BankAccess := atBank 0 0 2 5

theorem frozen_order_free_two :
    ((runCut shortEpochs [otherAccess, ownAccess, .publishDeviceCut 20]).sharedBankWait shortEpochs readerAccess).2 =
      ((runCut shortEpochs [ownAccess, otherAccess, .publishDeviceCut 20]).sharedBankWait shortEpochs readerAccess).2 := by
  have h : Along (CutOp.step shortEpochs) (Valid shortEpochs) {}
      [otherAccess, ownAccess, .publishDeviceCut 20, .sharedBankWait readerAccess] := by decide +kernel
  have h' : Along (CutOp.step shortEpochs) (Valid shortEpochs) {}
      [ownAccess, otherAccess, .publishDeviceCut 20, .sharedBankWait readerAccess] := by decide +kernel
  exact (frozen_order_free h h' (fun _ => .refl _) (.swap _ _ _)).2.1 readerAccess
    [otherAccess, ownAccess, .publishDeviceCut 20] [] [ownAccess, otherAccess, .publishDeviceCut 20] [] rfl rfl

/-- The use of the other interface is the same with and without the second element of the own one, which doubles the
wait: it is one more that may be ahead. -/
theorem own_interface_counts :
    othersOf readerAccess (readBy (bankLog [ownAccess, otherAccess]) readerAccess) = othersOf readerAccess (readBy (bankLog [otherAccess]) readerAccess) ∧
      Along (CutOp.step shortEpochs) (Valid shortEpochs) {} [otherAccess, .publishDeviceCut 20, .sharedBankWait readerAccess] ∧
      Along (CutOp.step shortEpochs) (Valid shortEpochs) {}
        [ownAccess, otherAccess, .publishDeviceCut 20, .sharedBankWait readerAccess] ∧
      ((runCut shortEpochs [otherAccess, .publishDeviceCut 20]).sharedBankWait shortEpochs readerAccess).2 = 20 ∧
      ((runCut shortEpochs [ownAccess, otherAccess, .publishDeviceCut 20]).sharedBankWait shortEpochs readerAccess).2 = 40 := by
  decide +kernel

end Pimid.Mem
