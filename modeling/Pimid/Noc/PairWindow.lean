import Pimid.Noc.Epochs
import Pimid.Lib.Ledger
import Pimid.Lib.Recent

/-!
# Windowed pair latencies

Under thread-MPI the latencies of a drained phase are added up per pair in its epoch, and a
pair is priced at its mean over the last `W` epochs. The means of an epoch's window are
computed on the first read of the epoch and held; of more than 64 snapshots the oldest is
dropped, and this may be the one just made. The read then goes through an iterator to an
entry that is gone, and has no value.
-/

namespace Pimid.Noc

open Std (TreeMap)

structure TmPairs where
  pairLatN : Nat
  detEpochPhases : Nat
  /-- `noc.mpi_pair_window_epochs` -/
  window : Nat
  tmPairAcc : TreeMap Nat PairAcc := ∅
  tmSnaps : TreeMap Nat (PairKey → Nat) := ∅

namespace TmPairs

/-- The epoch of a phase. -/
def epochOf (s : TmPairs) (phaseNum : Nat) : Nat :=
  phaseNum / if s.detEpochPhases > 0 then s.detEpochPhases else 1

def foldEpochPairs (s : TmPairs) (phaseNum : Nat) (pp : PairAcc) : TmPairs :=
  if pp.isEmpty then s
  else
    let epoch := s.epochOf phaseNum
    { s with tmPairAcc := s.tmPairAcc.insert epoch (pp.foldl PairAcc.add ((s.tmPairAcc[epoch]?).getD [])) }

/-- The first epoch of the window that ends with `e`. -/
def firstOf (s : TmPairs) (e : Nat) : Nat :=
  if e + 1 > s.window then e + 1 - s.window else 0

def inWindow (s : TmPairs) (e epoch : Nat) : Bool :=
  s.firstOf e ≤ epoch && epoch ≤ e

/-- The means over the window. -/
def means (s : TmPairs) (e : Nat) : PairKey → Nat :=
  let win : PairAcc := (s.tmPairAcc.toList.filter fun a => s.inWindow e a.1).foldl (fun win a => a.2.foldl PairAcc.add win) []
  win.foldl (Frozen.storeMean s.pairLatN) fun _ => 0

/-- The snapshot is held, and the oldest go. -/
def hold (s : TmPairs) (e : Nat) : TmPairs :=
  { s with tmSnaps := keepLast 64 (s.tmSnaps.insert e (s.means e)) }

/-- The latency of a pair as of epoch `e`; none where its snapshot is dropped at once. -/
def tmFrozenPairLatency (s : TmPairs) (e : Nat) (k : PairKey) : TmPairs × Option Nat :=
  if 0 < s.pairLatN ∧ k.src < s.pairLatN ∧ k.dst < s.pairLatN then
    match s.tmSnaps[e]? with
    | some snap => (s, some (snap k))
    | none => (s.hold e, ((s.hold e).tmSnaps[e]?).map fun snap => snap k)
  else (s, some 0)

end TmPairs

/-! ## Runs -/

inductive TmOp where
  | fold (phaseNum : Nat) (pp : PairAcc)
  | read (e : Nat) (k : PairKey)

namespace TmOp

def step (s : TmPairs) : TmOp → TmPairs
  | fold phaseNum pp => s.foldEpochPairs phaseNum pp
  | read e k => (s.tmFrozenPairLatency e k).1

/-- The buckets folded, each with its epoch. -/
def folded (epochOf : Nat → Nat) (ops : List TmOp) : List (Nat × PairAcc) :=
  ops.filterMap fun
    | fold phaseNum pp => some (epochOf phaseNum, pp)
    | read _ _ => none

end TmOp

/-- The samples of the buckets of some epochs. -/
def samplesIn (q : Nat → Bool) (buckets : List (Nat × PairAcc)) : PairAcc :=
  (buckets.filter fun x => q x.1).flatMap (·.2)

/-- The epochs `(e - w, e]`. -/
def within (w e epoch : Nat) : Bool :=
  e < epoch + w && epoch ≤ e

/-- The samples of a pair in the epochs `(e - w, e]`: their latency and their number. -/
def windowTotal (w : Nat) (buckets : List (Nat × PairAcc)) (e : Nat) (k : PairKey) : Nat × Nat :=
  (samplesIn (within w e) buckets).total (· = k)

/-- Latencies that are 32-bit on average. -/
def Bucket (pp : PairAcc) : Prop :=
  ∀ kv ∈ pp, kv.2.1 < 2 ^ 32 * kv.2.2

/-- A bucket is folded only outside the windows of the epochs held. An epoch is read that is held, or after which fewer
than 64 are. A pair outside the table is read only where its window has no sample of it. -/
def Timely (s : TmPairs) : TmOp → Prop
  | .fold phaseNum pp => Bucket pp ∧ (pp = [] ∨ ∀ e, s.tmSnaps[e]? ≠ none → s.inWindow e (s.epochOf phaseNum) = false)
  | .read e k => (k.InTable s.pairLatN → s.tmSnaps[e]? ≠ none ∨ (after s.tmSnaps e).length < 64) ∧
      (¬k.InTable s.pairLatN → sumBy (PairAcc.total (· = k)) s.tmPairAcc (s.inWindow e) = 0)

/-! ## The means are those of the samples -/

theorem total_foldl_buckets (p : PairKey → Bool) (l : List (Nat × PairAcc)) (acc : PairAcc) :
    (l.foldl (fun win a => a.2.foldl PairAcc.add win) acc).total p = acc.total p + (l.map fun a => a.2.total p).sum := by
  induction l generalizing acc with
  | nil => simp
  | cons a l ih => rw [List.foldl_cons, ih, PairAcc.total_foldl_add, List.map_cons, List.sum_cons, add_assoc]

theorem nodup_foldl_buckets (l : List (Nat × PairAcc)) (acc : PairAcc) (h : (acc.map (·.1)).Nodup) :
    ((l.foldl (fun win a => a.2.foldl PairAcc.add win) acc).map (·.1)).Nodup := by
  induction l generalizing acc with
  | nil => exact h
  | cons a l ih => exact ih _ (PairAcc.nodup_foldl_add h)

variable {s : TmPairs} {log : List (Nat × PairAcc)}

theorem inWindow_eq (s : TmPairs) (e : Nat) : s.inWindow e = within s.window e := by
  funext epoch
  rw [Bool.eq_iff_iff, TmPairs.inWindow, within, Bool.and_eq_true, Bool.and_eq_true, decide_eq_true_eq, decide_eq_true_eq,
    decide_eq_true_eq, TmPairs.firstOf]
  split <;> omega

theorem total_samplesIn_snoc (p : PairKey → Bool) (q : Nat → Bool) (x : Nat × PairAcc) :
    (samplesIn q (log ++ [x])).total p = (samplesIn q log).total p + if q x.1 then x.2.total p else 0 := by
  rw [samplesIn, List.filter_append, List.flatMap_append, PairAcc.total_append, samplesIn]
  congr 1
  by_cases h : q x.1 = true
  · rw [if_pos h, List.filter_cons_of_pos (by exact h), List.filter_nil, List.flatMap_singleton]
  · rw [if_neg h, List.filter_cons_of_neg (by exact h), List.filter_nil]
    rfl

/-- The accumulators hold the buckets folded, and a snapshot held is its window's means. -/
structure TmInv (s : TmPairs) (log : List (Nat × PairAcc)) : Prop where
  sums : ∀ p q, sumBy (PairAcc.total p) s.tmPairAcc q = (samplesIn q log).total p
  snaps : ∀ e snap, s.tmSnaps[e]? = some snap → ∀ k, k.InTable s.pairLatN →
    snap k = (windowTotal s.window log e k).1 / (windowTotal s.window log e k).2
  buckets : ∀ x ∈ log, Bucket x.2

theorem total_lt {pp : PairAcc} (h : Bucket pp) (p : PairKey → Bool) :
    (pp.total p).1 < 2 ^ 32 * (pp.total p).2 ∨ pp.total p = 0 := by
  induction pp with
  | nil => exact .inr rfl
  | cons kv pp ih =>
    have hkv := h kv List.mem_cons_self
    have hrest := ih fun x hx => h x (List.mem_cons_of_mem _ hx)
    rw [PairAcc.total_cons]
    split
    · left
      rw [Prod.fst_add, Prod.snd_add, Nat.mul_add]
      rcases hrest with hlt | hzero
      · omega
      · rw [hzero]
        simpa using hkv
    · rw [zero_add]
      exact hrest

theorem mean_eq {pp : PairAcc} (h : Bucket pp) (p : PairKey → Bool) :
    mean (pp.total p) = (pp.total p).1 / (pp.total p).2 := by
  rw [mean]
  refine Nat.mod_eq_of_lt ?_
  rcases total_lt h p with hlt | hzero
  · exact Nat.div_lt_of_lt_mul (by rwa [Nat.mul_comm])
  · rw [hzero]
    exact Nat.two_pow_pos 32

theorem TmInv.window (h : TmInv s log) (e : Nat) (k : PairKey) :
    sumBy (PairAcc.total (· = k)) s.tmPairAcc (s.inWindow e) = windowTotal s.window log e k := by
  rw [h.sums, inWindow_eq]
  rfl

theorem TmInv.means (h : TmInv s log) (e : Nat) {k : PairKey} (hk : k.InTable s.pairLatN) :
    s.means e k = (windowTotal s.window log e k).1 / (windowTotal s.window log e k).2 := by
  have htotal : PairAcc.total (· = k) ((s.tmPairAcc.toList.filter fun a => s.inWindow e a.1).foldl
      (fun win a => a.2.foldl PairAcc.add win) []) = windowTotal s.window log e k := by
    rw [total_foldl_buckets, show PairAcc.total (· = k) ([] : PairAcc) = 0 from rfl, zero_add]
    exact h.window e k
  have hbuckets : Bucket (samplesIn (within s.window e) log) := by
    intro kv hkv
    obtain ⟨x, hx, hkv⟩ := List.mem_flatMap.mp hkv
    exact h.buckets x (List.mem_filter.mp hx).1 kv hkv
  unfold TmPairs.means
  rw [foldl_storeMean (nodup_foldl_buckets _ [] List.nodup_nil) _ hk, htotal]
  split
  · exact mean_eq hbuckets (· = k)
  · next hzero =>
    rw [not_not] at hzero
    rw [hzero, Nat.div_zero]

theorem TmInv.fold (h : TmInv s log) {phaseNum : Nat} {pp : PairAcc} (ht : Timely s (.fold phaseNum pp)) :
    TmInv (s.foldEpochPairs phaseNum pp) (log ++ [(s.epochOf phaseNum, pp)]) := by
  obtain ⟨hbucket, hout⟩ := ht
  have hbuckets : ∀ x ∈ log ++ [(s.epochOf phaseNum, pp)], Bucket x.2 := by
    intro x hx
    rcases List.mem_append.mp hx with hx | hx
    · exact h.buckets x hx
    · rw [List.mem_singleton.mp hx]
      exact hbucket
  unfold TmPairs.foldEpochPairs
  split
  · next hempty =>
    rw [List.isEmpty_iff] at hempty
    subst hempty
    refine ⟨fun p q => ?_, fun e snap he k hk => ?_, hbuckets⟩
    · rw [total_samplesIn_snoc, h.sums, show PairAcc.total p ([] : PairAcc) = 0 from rfl, ite_self, add_zero]
    · rw [windowTotal, total_samplesIn_snoc, show PairAcc.total (· = k) ([] : PairAcc) = 0 from rfl, ite_self, add_zero]
      exact h.snaps e snap he k hk
  · next hne =>
    rw [List.isEmpty_iff] at hne
    refine ⟨fun p q => ?_, fun e snap he k hk => ?_, hbuckets⟩
    · rw [total_samplesIn_snoc, ← h.sums]
      refine sumBy_insert ?_ q
      rw [PairAcc.total_foldl_add]
      cases s.tmPairAcc[s.epochOf phaseNum]? <;> rfl
    · have hnot : within s.window e (s.epochOf phaseNum) = false := by
        rw [← inWindow_eq]
        exact hout.resolve_left hne e (by rw [he]; simp)
      show snap k = (windowTotal s.window _ e k).1 / _
      rw [windowTotal, total_samplesIn_snoc, hnot, if_neg Bool.false_ne_true, add_zero]
      exact h.snaps e snap he k hk

theorem TmInv.hold (h : TmInv s log) (e : Nat) : TmInv (s.hold e) log := by
  refine ⟨h.sums, fun e' snap he' k hk => ?_, h.buckets⟩
  have hmem := mem_of_keepLast he'
  rw [getElem?_insert_eq] at hmem
  split at hmem
  · next heq =>
    cases hmem
    rw [heq]
    exact h.means e hk
  · exact h.snaps e' snap hmem k hk

theorem TmInv.read (h : TmInv s log) (e : Nat) (k : PairKey) : TmInv (s.tmFrozenPairLatency e k).1 log := by
  unfold TmPairs.tmFrozenPairLatency
  split
  · split
    · exact h
    · exact h.hold e
  · exact h

theorem TmInv.latency (h : TmInv s log) {e : Nat} {k : PairKey} (ht : Timely s (.read e k)) :
    (s.tmFrozenPairLatency e k).2 = some ((windowTotal s.window log e k).1 / (windowTotal s.window log e k).2) := by
  unfold TmPairs.tmFrozenPairLatency
  split
  · next hin =>
    split
    · next snap hsnap => exact congrArg some (h.snaps e snap hsnap k hin.2)
    · next hnone =>
      have hlater : (after (s.tmSnaps.insert e (s.means e)) e).length < 64 := by
        rw [after_insert_same]
        exact (ht.1 hin.2).resolve_left fun hne => hne hnone
      have hheld : (s.hold e).tmSnaps[e]? = some (s.means e) := by
        show (keepLast 64 _)[e]? = _
        rw [getElem?_keepLast, if_pos hlater, getElem?_insert_same]
      rw [hheld]
      exact congrArg some (h.means e hin.2)
  · next hout =>
    have hnot : ¬k.InTable s.pairLatN := fun hin => hout ⟨Nat.lt_of_le_of_lt (Nat.zero_le _) hin.1, hin⟩
    rw [← h.window e k, ht.2 hnot]
    rfl

/-! ## Runs -/

/-- A run from an empty table. -/
def tmStart (n phases w : Nat) : TmPairs := { pairLatN := n, detEpochPhases := phases, window := w }

/-- The configuration stays. -/
def SameConfig (s s' : TmPairs) : Prop :=
  s'.pairLatN = s.pairLatN ∧ s'.detEpochPhases = s.detEpochPhases ∧ s'.window = s.window

theorem step_config (s : TmPairs) (op : TmOp) : SameConfig s (op.step s) := by
  cases op with
  | fold phaseNum pp =>
    show SameConfig s (if pp.isEmpty then s else _)
    split <;> exact ⟨rfl, rfl, rfl⟩
  | read e k =>
    show SameConfig s (if _ then _ else _ : TmPairs × Option Nat).1
    split
    · split <;> exact ⟨rfl, rfl, rfl⟩
    · exact ⟨rfl, rfl, rfl⟩

theorem run_config (n phases w : Nat) (ops : List TmOp) :
    (ops.foldl TmOp.step (tmStart n phases w)).detEpochPhases = phases ∧
      (ops.foldl TmOp.step (tmStart n phases w)).window = w := by
  refine (along_of_forall (P := fun _ (_ : TmOp) => True) (fun _ _ => trivial) _ ops).keeps
    (I := fun s => s.detEpochPhases = phases ∧ s.window = w) (fun s op h _ => ?_) (s := tmStart n phases w) ⟨rfl, rfl⟩
  have hc := step_config s op
  rw [hc.2.1, hc.2.2]
  exact h

theorem TmInv.step {ops : List TmOp} {op : TmOp} (h : TmInv s (TmOp.folded s.epochOf ops)) (ht : Timely s op) :
    TmInv (op.step s) (TmOp.folded (op.step s).epochOf (ops ++ [op])) := by
  have hepoch : (op.step s).epochOf = s.epochOf := by
    funext p
    rw [TmPairs.epochOf, (step_config s op).2.1]
    rfl
  rw [hepoch, TmOp.folded, List.filterMap_append]
  cases op with
  | fold phaseNum pp => exact h.fold ht
  | read e k =>
    rw [show List.filterMap _ [TmOp.read e k] = [] from rfl, List.append_nil]
    exact h.read e k

theorem tmInv_start (n phases w : Nat) : TmInv (tmStart n phases w) [] :=
  ⟨fun _ _ => rfl, fun e snap h => by simp [tmStart] at h, fun _ hx => absurd hx List.not_mem_nil⟩

/-- **Every read of a timely run has the windowed mean**: the quotient of the latency of the pair's samples in the last `w`
epochs by their number, 0 where there are none. -/
theorem timely_reads (n phases w : Nat) (ops : List TmOp) (h : Along TmOp.step Timely (tmStart n phases w) ops)
    (pre post : List TmOp) (e : Nat) (k : PairKey) (hops : ops = pre ++ .read e k :: post) :
    ((pre.foldl TmOp.step (tmStart n phases w)).tmFrozenPairLatency e k).2 =
      some ((windowTotal w (TmOp.folded (tmStart n phases w).epochOf pre) e k).1 /
        (windowTotal w (TmOp.folded (tmStart n phases w).epochOf pre) e k).2) := by
  subst hops
  obtain ⟨hpre, hread, -⟩ := along_append.mp h
  have hinv := hpre.inv (I := fun s ops => TmInv s (TmOp.folded s.epochOf ops)) (fun h ht => h.step ht)
    (show TmInv _ (TmOp.folded _ []) from tmInv_start n phases w)
  obtain ⟨hphases, hwindow⟩ := run_config n phases w pre
  have hepoch : (pre.foldl TmOp.step (tmStart n phases w)).epochOf = (tmStart n phases w).epochOf := by
    funext p
    rw [TmPairs.epochOf, hphases]
    rfl
  have hlat := hinv.latency hread
  rwa [List.nil_append, hepoch, hwindow] at hlat

/-- Two phases' samples of a pair, read an epoch later. -/
theorem timely_reads_two_phases :
    (([TmOp.fold 0 [(⟨0, 1, false⟩, 30, 3)], .fold 1 [(⟨0, 1, false⟩, 50, 1)]].foldl TmOp.step
      (tmStart 2 1 8)).tmFrozenPairLatency 1 ⟨0, 1, false⟩).2 = some 20 :=
  have hbucket : ∀ t : Nat × Nat, t.1 < 2 ^ 32 * t.2 → Bucket [(⟨0, 1, false⟩, t)] := fun t ht kv hkv => by
    rw [List.mem_singleton.mp hkv]
    exact ht
  timely_reads 2 1 8
    [.fold 0 [(⟨0, 1, false⟩, 30, 3)], .fold 1 [(⟨0, 1, false⟩, 50, 1)], .read 1 ⟨0, 1, false⟩]
    ⟨⟨hbucket (30, 3) (by decide), .inr fun e h => absurd (TreeMap.getElem?_emptyc (a := e)) h⟩,
      ⟨hbucket (50, 1) (by decide), .inr fun e h => absurd (TreeMap.getElem?_emptyc (a := e)) h⟩,
      ⟨fun _ => .inr (by decide), fun hout => absurd ⟨Nat.zero_lt_two, Nat.one_lt_two⟩ hout⟩, trivial⟩
    _ [] 1 ⟨0, 1, false⟩ rfl

/-- After reads of 64 epochs the read of an earlier one goes through a dropped entry. -/
theorem reads_dropped_entry :
    ((((List.range' 1 64).map fun e => TmOp.read e ⟨0, 1, false⟩).foldl TmOp.step (tmStart 2 1 8)).tmFrozenPairLatency 0
      ⟨0, 1, false⟩).2 ≠ some ((windowTotal 8 [] 0 ⟨0, 1, false⟩).1 / (windowTotal 8 [] 0 ⟨0, 1, false⟩).2) := by
  decide +kernel

end Pimid.Noc
