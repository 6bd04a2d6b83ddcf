import Pimid.Lib.Buckets
import Mathlib.Algebra.GroupWithZero.Nat

/-!
# The barrier fold of network records

Every remote access is recorded with its cycle. At a phase barrier the fold sorts the
records into phases and replays, through `runBatchDrain_`, the phases that lie wholly
below the cut; the rest wait for a later fold. The arithmetic is that of 64-bit words.
-/

namespace Pimid.Noc

open Std (TreeMap)

structure BatchAccess where
  src : Nat
  dst : Nat
  cycle : Nat
  ctrl : Bool
  deriving DecidableEq

/-- The part of the network the fold works on. -/
structure Folder where
  phaseBatch : List BatchAccess
  /-- Records not yet below the cut, by phase. -/
  pendingByPhase : TreeMap Nat (List BatchAccess)
  cycleAccurate : Bool
  cutAxis : Bool
  frozenPublish : Bool
  detEpochPhases : Nat
  lastFoldCut : Nat
  lateRecs : Nat
  tmFoldedEpochs : Nat

/-- One call of `runBatchDrain_`: the phase, the records handed over, and the cut of the
fold that did it. -/
structure Drain where
  phase : Nat
  records : List BatchAccess
  cut : Nat

/-- The cut that bounds nothing. -/
def noCut : Nat := 2 ^ 64 - 1

/-- The phase of a record. -/
def phaseOf (pl : Nat) (a : BatchAccess) : Nat := if pl > 0 then a.cycle / pl else 0

/-- The first cycle after a phase, as a 64-bit word. -/
def phaseEnd (pl p : Nat) : Nat := (p + 1) % 2 ^ 64 * pl % 2 ^ 64

namespace Folder

def recordBatchAccess (s : Folder) (a : BatchAccess) : Folder := { s with phaseBatch := s.phaseBatch ++ [a] }

/-- The leading buckets, up to the first one that is not yet final. -/
def takeFinal (pl cut : Nat) :
    List (Nat × List BatchAccess) → TreeMap Nat (List BatchAccess) →
    List (Nat × List BatchAccess) × TreeMap Nat (List BatchAccess)
  | [], m => ([], m)
  | kv :: rest, m =>
    if phaseEnd pl kv.1 > cut then ([], m)
    else
      let r := takeFinal pl cut rest (m.erase kv.1)
      (kv :: r.1, r.2)

/-- The single-threaded fold at a phase barrier. -/
def foldByCut (s : Folder) (cut pl : Nat) : Folder × List Drain :=
  let late := s.phaseBatch.filter fun a => s.cutAxis ∧ phaseEnd pl (phaseOf pl a) ≤ s.lastFoldCut
  let pending := pushBuckets (phaseOf pl) s.pendingByPhase s.phaseBatch
  let lastFoldCut := if s.cutAxis ∧ cut ≠ noCut ∧ cut > s.lastFoldCut then cut else s.lastFoldCut
  let ePl := (if pl > 0 then pl else 1) * (if s.detEpochPhases > 0 then s.detEpochPhases else 1)
  let nE := if cut = noCut then noCut else cut / ePl
  let tmFoldedEpochs := if ¬ s.frozenPublish ∧ nE > s.tmFoldedEpochs then nE else s.tmFoldedEpochs
  let r := takeFinal pl cut pending.toList pending
  ({ s with
      phaseBatch := []
      pendingByPhase := r.2
      lastFoldCut := lastFoldCut
      lateRecs := s.lateRecs + late.length
      tmFoldedEpochs := tmFoldedEpochs },
    r.1.map fun kv => ⟨kv.1, kv.2, cut⟩)

/-- Replay what is still waiting: the state, the drains and the number of records. -/
def drainPendingRecords (s : Folder) (threadMpi : Bool) (phaseLength phaseNum : Nat) :
    Folder × List Drain × Nat :=
  if ¬ s.cycleAccurate then (s, [], 0)
  else if threadMpi then
    let n := s.phaseBatch.length + (s.pendingByPhase.toList.map (·.2.length)).sum
    if n ≠ 0 then
      let r := s.foldByCut noCut phaseLength
      (r.1, r.2, n)
    else (s, [], n)
  else
    let n := s.phaseBatch.length
    ({ s with phaseBatch := [] }, if n ≠ 0 then [⟨phaseNum, s.phaseBatch, noCut⟩] else [], n)

end Folder

/-! ## Runs -/

inductive FoldOp where
  | record (a : BatchAccess)
  | fold (cut : Nat)

namespace FoldOp

def step (pl : Nat) (s : Folder) : FoldOp → Folder × List Drain
  | record a => (s.recordBatchAccess a, [])
  | fold cut => s.foldByCut cut pl

/-- The operations one after another, and the drains they make. -/
def run (pl : Nat) : Folder → List FoldOp → Folder × List Drain
  | s, [] => (s, [])
  | s, op :: ops =>
    let r := op.step pl s
    let r' := run pl r.1 ops
    (r'.1, r.2 ++ r'.2)

def records : List FoldOp → List BatchAccess
  | [] => []
  | record a :: ops => a :: records ops
  | fold _ :: ops => records ops

/-- A run that is closed by the final replay of a thread-MPI run. -/
def closedRun (pl phaseNum : Nat) (s : Folder) (ops : List FoldOp) : Folder × List Drain :=
  let r := run pl s ops
  let f := r.1.drainPendingRecords true pl phaseNum
  (f.1, r.2 ++ f.2.1)

/-- No record comes in with its whole phase below a cut already folded. -/
def Timely (pl : Nat) (ops : List FoldOp) : Prop :=
  ops.Pairwise fun x y => ∀ cut a, x = fold cut → y = record a → cut < (a.cycle / pl + 1) * pl

end FoldOp

/-! ## The fold takes whole phases -/

variable {pl : Nat}

theorem takeFinal_fst (cut : Nat) (l : List (Nat × List BatchAccess)) (m : TreeMap Nat (List BatchAccess)) :
    (Folder.takeFinal pl cut l m).1 = l.takeWhile fun kv => phaseEnd pl kv.1 ≤ cut := by
  induction l generalizing m with
  | nil => rfl
  | cons kv l ih =>
    rw [Folder.takeFinal]
    split
    next h => rw [List.takeWhile_cons_of_neg (by simpa using h)]
    next h =>
      rw [List.takeWhile_cons_of_pos (by simpa using h), ← ih (m.erase kv.1)]

theorem takeFinal_snd (cut : Nat) (l : List (Nat × List BatchAccess)) (m : TreeMap Nat (List BatchAccess)) (k : Nat) :
    (Folder.takeFinal pl cut l m).2[k]?
      = if k ∈ (Folder.takeFinal pl cut l m).1.map (·.1) then none else m[k]? := by
  induction l generalizing m with
  | nil => rfl
  | cons kv l ih =>
    rw [Folder.takeFinal]
    split
    next => rfl
    next =>
      simp only [List.map_cons, List.mem_cons]
      rw [ih, getElem?_erase_eq]
      by_cases h₁ : k ∈ (Folder.takeFinal pl cut l (m.erase kv.1)).1.map (·.1)
      · rw [if_pos h₁, if_pos (.inr h₁)]
      · rw [if_neg h₁]
        by_cases h₂ : k = kv.1
        · rw [if_pos h₂, if_pos (.inl h₂)]
        · rw [if_neg h₂, if_neg (by simp [h₁, h₂])]

/-- A record's phase ends before the words do. -/
def InRange (pl : Nat) (a : BatchAccess) : Prop := a.cycle + pl < 2 ^ 64

theorem phaseEnd_eq (hpl : 0 < pl) {a : BatchAccess} (ha : InRange pl a) :
    phaseEnd pl (phaseOf pl a) = (a.cycle / pl + 1) * pl ∧ phaseOf pl a = a.cycle / pl := by
  have hph : phaseOf pl a = a.cycle / pl := if_pos hpl
  have hle : a.cycle / pl * pl ≤ a.cycle := Nat.div_mul_le_self _ _
  have hend : (a.cycle / pl + 1) * pl < 2 ^ 64 := by
    rw [Nat.succ_mul]
    unfold InRange at ha
    omega
  have hone : a.cycle / pl + 1 < 2 ^ 64 := by
    refine Nat.lt_of_le_of_lt ?_ hend
    exact Nat.le_mul_of_pos_right _ hpl
  refine ⟨?_, hph⟩
  rw [hph, phaseEnd, Nat.mod_eq_of_lt hone, Nat.mod_eq_of_lt hend]

/-! ## What every run keeps -/

/-- After the records `R` and the folds at the cuts `C`, with the drains `log`: the
records up to the last fold are drained with their whole phase or wait in the bucket of
their phase, and what waits ends above every cut so far. -/
structure FoldInv (pl : Nat) (s : Folder) (R folded : List BatchAccess) (C : List Nat) (log : List Drain) : Prop where
  split : R = folded ++ s.phaseBatch
  pending : Bucketed (phaseOf pl) s.pendingByPhase (folded.filter fun a => phaseOf pl a ∉ log.map (·.phase))
  above : ∀ a ∈ (folded.filter fun a => phaseOf pl a ∉ log.map (·.phase)) ++ s.phaseBatch,
    ∀ c ∈ C, c < (phaseOf pl a + 1) * pl
  drains : ∀ d ∈ log, d.records = folded.filter (fun a => phaseOf pl a = d.phase) ∧ d.records ≠ []
    ∧ (d.phase + 1) * pl ≤ d.cut ∧ d.cut ∈ C
  order : (log.map (·.phase)).Pairwise (· < ·)
  range : ∀ a ∈ R, InRange pl a

variable {s : Folder} {R folded : List BatchAccess} {C : List Nat} {log : List Drain}

theorem FoldInv.later (h : FoldInv pl s R folded C log) {a : BatchAccess}
    (ha : a ∈ (folded.filter fun a => phaseOf pl a ∉ log.map (·.phase)) ++ s.phaseBatch) {d : Drain} (hd : d ∈ log) :
    d.phase < phaseOf pl a := by
  obtain ⟨_, _, hend, hcut⟩ := h.drains d hd
  have := h.above a ha d.cut hcut
  by_contra hge
  have := Nat.mul_le_mul_right pl (show phaseOf pl a + 1 ≤ d.phase + 1 by omega)
  omega

theorem FoldInv.record (h : FoldInv pl s R folded C log) {a : BatchAccess} (ha : InRange pl a)
    (ht : ∀ c ∈ C, c < (phaseOf pl a + 1) * pl) :
    FoldInv pl (s.recordBatchAccess a) (R ++ [a]) folded C log := by
  refine { h with split := ?_, above := ?_, range := ?_ }
  · rw [h.split, List.append_assoc]
    rfl
  · intro x hx
    simp only [Folder.recordBatchAccess, ← List.append_assoc, List.mem_append, List.mem_singleton] at hx
    rcases hx with hx | rfl
    · exact h.above x (List.mem_append.mpr hx)
    · exact ht
  · intro x hx
    rcases List.mem_append.mp hx with hx | hx
    · exact h.range x hx
    · rw [List.mem_singleton.mp hx]
      exact ha

theorem FoldInv.fold (hpl : 0 < pl) (h : FoldInv pl s R folded C log) (cut : Nat) :
    FoldInv pl (s.foldByCut cut pl).1 R R (C ++ [cut]) (log ++ (s.foldByCut cut pl).2) := by
  -- the records that wait, old ones first
  have hwait : (folded.filter fun a => phaseOf pl a ∉ log.map (·.phase)) ++ s.phaseBatch
      = R.filter fun a => phaseOf pl a ∉ log.map (·.phase) := by
    rw [h.split, List.filter_append]
    congr 1
    refine (List.filter_eq_self.mpr fun a ha => ?_).symm
    simp only [decide_eq_true_eq, List.mem_map, not_exists, not_and]
    intro d hd he
    have := h.later (List.mem_append_right _ ha) hd
    omega
  have hb := h.pending.pushAll s.phaseBatch
  rw [hwait] at hb
  have hsub : ∀ {a}, a ∈ R.filter (fun a => phaseOf pl a ∉ log.map (·.phase)) → a ∈ R := fun ha =>
    (List.mem_filter.mp ha).1
  have hkey : ∀ {k b}, (k, b) ∈ (pushBuckets (phaseOf pl) s.pendingByPhase s.phaseBatch).toList →
      ∃ a ∈ R.filter (fun a => phaseOf pl a ∉ log.map (·.phase)), phaseOf pl a = k := by
    intro k b hm
    obtain ⟨rfl, hne⟩ := hb.mem hm
    obtain ⟨a, ha⟩ := List.exists_mem_of_ne_nil _ hne
    simp only [List.mem_filter, decide_eq_true_eq] at ha
    exact ⟨a, by simpa using ha.1, ha.2⟩
  have hend : ∀ {k b}, (k, b) ∈ (pushBuckets (phaseOf pl) s.pendingByPhase s.phaseBatch).toList →
      phaseEnd pl k = (k + 1) * pl := by
    intro k b hm
    obtain ⟨a, ha, rfl⟩ := hkey hm
    obtain ⟨he, hph⟩ := phaseEnd_eq hpl (h.range a (hsub ha))
    rw [he, hph]
  generalize hm : pushBuckets (phaseOf pl) s.pendingByPhase s.phaseBatch = m at hb hkey hend
  -- the leading final buckets are the final buckets
  have htaken : (Folder.takeFinal pl cut m.toList m).1 = m.toList.filter fun kv => phaseEnd pl kv.1 ≤ cut := by
    rw [takeFinal_fst]
    refine takeWhile_eq_filter ((toList_pairwise_lt m).imp_of_mem fun {x y} hx hy hlt hp => ?_)
    simp only [decide_eq_true_eq] at hp ⊢
    rw [hend (k := x.1) (b := x.2) hx]
    rw [hend (k := y.1) (b := y.2) hy] at hp
    have := Nat.mul_le_mul_right pl (show x.1 + 1 ≤ y.1 + 1 by omega)
    omega
  have hdrains : (s.foldByCut cut pl).2
      = (m.toList.filter fun kv => phaseEnd pl kv.1 ≤ cut).map fun kv => ⟨kv.1, kv.2, cut⟩ := by
    rw [← htaken, ← hm]
    rfl
  have hphases : (s.foldByCut cut pl).2.map (·.phase)
      = (m.toList.filter fun kv => phaseEnd pl kv.1 ≤ cut).map (·.1) := by
    rw [hdrains, List.map_map]
    rfl
  have hpend : ∀ k, (s.foldByCut cut pl).1.pendingByPhase[k]?
      = if k ∈ (s.foldByCut cut pl).2.map (·.phase) then none else m[k]? := by
    intro k
    rw [hphases, ← htaken, ← takeFinal_snd, ← hm]
    rfl
  have hmem : ∀ {a}, a ∈ R → (phaseOf pl a ∉ (log ++ (s.foldByCut cut pl).2).map (·.phase) ↔
      phaseOf pl a ∉ log.map (·.phase) ∧ phaseOf pl a ∉ (s.foldByCut cut pl).2.map (·.phase)) := by
    intro a _
    rw [List.map_append, List.mem_append, not_or]
  -- a waiting record's phase is taken when it ends by the cut
  have hiff : ∀ {a}, a ∈ R.filter (fun a => phaseOf pl a ∉ log.map (·.phase)) →
      (phaseOf pl a ∈ (s.foldByCut cut pl).2.map (·.phase) ↔ (phaseOf pl a + 1) * pl ≤ cut) := by
    intro a ha
    have hin := hb.exists_of_mem ha
    rw [hphases]
    constructor
    · intro hx
      obtain ⟨kv, hkv, he⟩ := List.mem_map.mp hx
      obtain ⟨hkv, hle⟩ := List.mem_filter.mp hkv
      simp only [decide_eq_true_eq] at hle
      rw [← hend hin]
      rwa [he] at hle
    · intro hle
      refine List.mem_map.mpr ⟨_, List.mem_filter.mpr ⟨hin, ?_⟩, rfl⟩
      simp only [decide_eq_true_eq]
      rw [hend hin]
      exact hle
  have hrest : (R.filter fun a => phaseOf pl a ∉ (log ++ (s.foldByCut cut pl).2).map (·.phase))
      = (R.filter fun a => phaseOf pl a ∉ log.map (·.phase)).filter
        fun a => phaseOf pl a ∉ (s.foldByCut cut pl).2.map (·.phase) := by
    rw [List.filter_filter]
    refine List.filter_congr fun a ha => ?_
    rw [← Bool.decide_and]
    refine decide_eq_decide.mpr ?_
    rw [hmem ha]
    exact and_comm
  refine
    { split := by simp [Folder.foldByCut]
      pending := fun k => ?_
      above := ?_
      drains := ?_
      order := ?_
      range := h.range }
  · rw [hpend, hrest]
    by_cases hk : k ∈ (s.foldByCut cut pl).2.map (·.phase)
    · rw [if_pos hk, if_pos]
      refine List.filter_eq_nil_iff.mpr fun a ha hka => ?_
      simp only [List.mem_filter, decide_eq_true_eq] at ha hka
      exact ha.2 (hka ▸ hk)
    · rw [if_neg hk, hb k]
      have hsame : ((R.filter fun a => phaseOf pl a ∉ log.map (·.phase)).filter
          fun a => phaseOf pl a ∉ (s.foldByCut cut pl).2.map (·.phase)).filter (fun a => phaseOf pl a = k)
          = (R.filter fun a => phaseOf pl a ∉ log.map (·.phase)).filter fun a => phaseOf pl a = k := by
        rw [List.filter_filter]
        refine List.filter_congr fun a _ => ?_
        rw [← Bool.decide_and]
        refine decide_eq_decide.mpr ⟨fun hx => hx.1, fun hx => ⟨hx, hx ▸ hk⟩⟩
      rw [hsame]
  · intro a ha c hc
    rw [show (s.foldByCut cut pl).1.phaseBatch = [] from rfl, List.append_nil, hrest] at ha
    obtain ⟨ha, hnot⟩ := List.mem_filter.mp ha
    simp only [decide_eq_true_eq] at hnot
    rcases List.mem_append.mp hc with hc | hc
    · exact h.above a (hwait ▸ ha) c hc
    · rw [List.mem_singleton.mp hc]
      rw [hiff ha] at hnot
      omega
  · intro d hd
    rcases List.mem_append.mp hd with hd | hd
    · obtain ⟨hrec, hne, hle, hcut⟩ := h.drains d hd
      refine ⟨?_, hne, hle, List.mem_append_left _ hcut⟩
      rw [hrec, h.split, List.filter_append]
      -- no record of a drained phase came in since
      rw [show s.phaseBatch.filter (fun a => phaseOf pl a = d.phase) = [] from ?_, List.append_nil]
      refine List.filter_eq_nil_iff.mpr fun a ha he => ?_
      simp only [decide_eq_true_eq] at he
      have := h.later (List.mem_append_right _ ha) hd
      omega
    · rw [hdrains] at hd
      obtain ⟨kv, hkv, rfl⟩ := List.mem_map.mp hd
      obtain ⟨hkv, hle⟩ := List.mem_filter.mp hkv
      simp only [decide_eq_true_eq] at hle
      obtain ⟨hrec, hne⟩ := hb.mem (k := kv.1) (b := kv.2) hkv
      obtain ⟨a, ha, hka⟩ := hkey (k := kv.1) (b := kv.2) hkv
      refine ⟨?_, hne, ?_, by simp⟩
      · show kv.2 = _
        rw [hrec, List.filter_filter]
        refine List.filter_congr fun x hx => ?_
        rw [← Bool.decide_and]
        refine decide_eq_decide.mpr ⟨fun hx => hx.1, fun he => ⟨he, ?_⟩⟩
        have := (List.mem_filter.mp ha).2
        simp only [decide_eq_true_eq] at this
        rw [he]
        exact hka ▸ this
      · rw [hend (k := kv.1) (b := kv.2) hkv] at hle
        exact hle
  · rw [List.map_append, List.pairwise_append]
    refine ⟨h.order, ?_, fun p hp k hk => ?_⟩
    · rw [hphases, List.pairwise_map]
      exact (toList_pairwise_lt m).filter _
    · obtain ⟨d, hd, rfl⟩ := List.mem_map.mp hp
      rw [hphases] at hk
      obtain ⟨kv, hkv, rfl⟩ := List.mem_map.mp hk
      obtain ⟨a, ha, he⟩ := hkey (k := kv.1) (b := kv.2) (List.mem_filter.mp hkv).1
      rw [← he]
      exact h.later (hwait ▸ ha) hd

/-! ## Whole runs -/

namespace FoldOp

def cuts : List FoldOp → List Nat
  | [] => []
  | record _ :: ops => cuts ops
  | fold cut :: ops => cut :: cuts ops

theorem mem_cuts {cut : Nat} {ops : List FoldOp} : cut ∈ cuts ops ↔ fold cut ∈ ops := by
  induction ops with
  | nil => simp [cuts]
  | cons op ops ih => cases op <;> simp [cuts, ih]

end FoldOp

open FoldOp

theorem FoldInv.runOps (hpl : 0 < pl) (h : FoldInv pl s R folded C log) (ops : List FoldOp)
    (ht : Timely pl (C.map FoldOp.fold ++ ops)) (hr : ∀ a ∈ records ops, InRange pl a) :
    ∃ folded', FoldInv pl (run pl s ops).1 (R ++ records ops) folded' (C ++ cuts ops) (log ++ (run pl s ops).2) := by
  induction ops generalizing s R folded C log with
  | nil =>
    refine ⟨folded, ?_⟩
    simpa [FoldOp.run, records, cuts] using h
  | cons op ops ih =>
    cases op with
    | record a =>
      have ha : InRange pl a := hr a (by simp [records])
      have hnew : ∀ c ∈ C, c < (phaseOf pl a + 1) * pl := by
        intro c hc
        rw [(phaseEnd_eq hpl ha).2]
        rw [Timely, List.pairwise_append] at ht
        exact ht.2.2 (FoldOp.fold c) (List.mem_map_of_mem hc) (FoldOp.record a) (by simp) c a rfl rfl
      have hrest : Timely pl (C.map FoldOp.fold ++ ops) :=
        ht.sublist ((List.sublist_cons_self _ _).append_left _)
      have hi := ih (h.record ha hnew) hrest fun x hx => hr x (by simp [records, hx])
      rwa [List.append_assoc, List.singleton_append] at hi
    | fold cut =>
      have hrest : Timely pl ((C ++ [cut]).map FoldOp.fold ++ ops) := by
        rw [List.map_append, List.append_assoc]
        exact ht
      have hi := ih (h.fold hpl cut) hrest hr
      rw [List.append_assoc, List.append_assoc, List.singleton_append] at hi
      exact hi

/-- Once the buckets that wait end above every cut there is, none waits. -/
theorem FoldInv.closed (hpl : 0 < pl) (h : FoldInv pl s R R C log) (hc : noCut ∈ C) :
    (∀ a ∈ R, phaseOf pl a ∈ log.map (·.phase)) ∧ s.pendingByPhase.toList = [] := by
  have hall : ∀ a ∈ R, phaseOf pl a ∈ log.map (·.phase) := by
    intro a ha
    by_contra hnot
    have habove := h.above a (List.mem_append_left _ (List.mem_filter.mpr ⟨ha, by rwa [decide_eq_true_eq]⟩)) noCut hc
    obtain ⟨hend, hph⟩ := phaseEnd_eq hpl (h.range a ha)
    have hlt : phaseEnd pl (phaseOf pl a) < 2 ^ 64 := Nat.mod_lt _ (by decide)
    rw [hend, ← hph] at hlt
    have : noCut = 2 ^ 64 - 1 := rfl
    omega
  refine ⟨hall, List.eq_nil_iff_forall_not_mem.mpr fun kv hkv => ?_⟩
  obtain ⟨hb, hne⟩ := h.pending.mem (k := kv.1) (b := kv.2) hkv
  obtain ⟨a, ha⟩ := List.exists_mem_of_ne_nil _ hne
  rw [hb] at ha
  simp only [List.mem_filter, decide_eq_true_eq] at ha
  exact ha.1.2 (hall a ha.1.1)

/-- The final replay leaves the invariant at the unbounded cut. -/
theorem FoldInv.drainPending (hpl : 0 < pl) (h : FoldInv pl s R folded C log) (hacc : s.cycleAccurate = true)
    (phaseNum : Nat) :
    FoldInv pl (s.drainPendingRecords true pl phaseNum).1 R R (C ++ [noCut])
      (log ++ (s.drainPendingRecords true pl phaseNum).2.1) := by
  by_cases hn : s.phaseBatch.length + (s.pendingByPhase.toList.map (·.2.length)).sum = 0
  · -- nothing is left, so another cut changes nothing
    have hd : s.drainPendingRecords true pl phaseNum = (s, [], 0) := by
      simp [Folder.drainPendingRecords, hacc, hn]
    have hbatch : s.phaseBatch = [] := List.eq_nil_of_length_eq_zero (by omega)
    have hfold : folded = R := by rw [h.split, hbatch, List.append_nil]
    have hnone : (R.filter fun a => phaseOf pl a ∉ log.map (·.phase)) = [] := by
      refine List.eq_nil_iff_forall_not_mem.mpr fun a ha => ?_
      rw [← hfold] at ha
      have hm := h.pending.exists_of_mem ha
      have hne := (h.pending.mem hm).2
      have hz : (s.pendingByPhase.toList.map (·.2.length)).sum = 0 := by omega
      have := List.sum_eq_zero_iff_forall_eq_nat.mp hz _ (List.mem_map_of_mem hm)
      exact hne (List.eq_nil_of_length_eq_zero this)
    subst hfold
    rw [hd, List.append_nil]
    refine { h with above := fun a ha => ?_, drains := fun d hd => ?_ }
    · rw [hnone, hbatch] at ha
      exact absurd ha (by simp)
    · obtain ⟨hrec, hne, hle, hcut⟩ := h.drains d hd
      exact ⟨hrec, hne, hle, List.mem_append_left _ hcut⟩
  · have hd : s.drainPendingRecords true pl phaseNum
        = ((s.foldByCut noCut pl).1, (s.foldByCut noCut pl).2,
          s.phaseBatch.length + (s.pendingByPhase.toList.map (·.2.length)).sum) := by
      simp only [Folder.drainPendingRecords, hacc, not_true_eq_false, if_false, if_true, ne_eq, hn,
        not_false_eq_true]
    rw [hd]
    exact h.fold hpl noCut

theorem run_cycleAccurate (s : Folder) (ops : List FoldOp) :
    (run pl s ops).1.cycleAccurate = s.cycleAccurate := by
  induction ops generalizing s with
  | nil => rfl
  | cons op ops ih =>
    rw [FoldOp.run]
    refine (ih _).trans ?_
    cases op <;> rfl

theorem foldInv_start {s₀ : Folder} (hb : s₀.phaseBatch = []) (hp : s₀.pendingByPhase = ∅) :
    FoldInv pl s₀ [] [] [] [] where
  split := hb.symm
  pending := by
    rw [hp]
    exact Bucketed.nil _
  above := by simp [hb]
  drains := by simp
  order := List.Pairwise.nil
  range := by simp

theorem closedRun_inv (hpl : 0 < pl) {s₀ : Folder} (hacc : s₀.cycleAccurate = true) (hb : s₀.phaseBatch = [])
    (hp : s₀.pendingByPhase = ∅) (phaseNum : Nat) (ops : List FoldOp) (hr : ∀ a ∈ records ops, InRange pl a)
    (ht : Timely pl ops) :
    FoldInv pl (closedRun pl phaseNum s₀ ops).1 (records ops) (records ops) (cuts ops ++ [noCut])
      (closedRun pl phaseNum s₀ ops).2 := by
  obtain ⟨folded', h⟩ := (foldInv_start hb hp).runOps hpl ops ht hr
  rw [List.nil_append, List.nil_append, List.nil_append] at h
  exact h.drainPending hpl ((run_cycleAccurate s₀ ops).trans hacc) phaseNum

theorem FoldInv.classified (hpl : 0 < pl) (h : FoldInv pl s R R C log) (hc : noCut ∈ C) :
    Classified (fun a : BatchAccess => a.cycle / pl) R (log.map fun d => (d.phase, d.records)) := by
  have hph : ∀ a, phaseOf pl a = a.cycle / pl := fun a => if_pos hpl
  have hmap : (log.map fun d => (d.phase, d.records)).map (·.1) = log.map (·.phase) := by
    rw [List.map_map]
    rfl
  refine ⟨?_, fun c hc => ?_, fun c hc => ?_, fun a ha => ?_⟩
  · rw [hmap]
    exact h.order
  · obtain ⟨d, hd, rfl⟩ := List.mem_map.mp hc
    refine .of_eq ?_
    rw [(h.drains d hd).1]
    simp only [hph]
  · obtain ⟨d, hd, rfl⟩ := List.mem_map.mp hc
    exact (h.drains d hd).2.1
  · rw [hmap, ← hph]
    exact (h.closed hpl hc).1 a ha

/-- **Every phase is drained once and whole.** Whatever the order of recordings and folds,
a closed run drains the phases in increasing order, each with exactly its records and by a
fold past its end; every record is drained once and nothing is left. Another run of the
same records drains the same. -/
theorem closedRun_drains_whole_phases (hpl : 1 ≤ pl) {s₀ : Folder} (hacc : s₀.cycleAccurate = true)
    (hb : s₀.phaseBatch = []) (hp : s₀.pendingByPhase = ∅) (phaseNum : Nat) (ops : List FoldOp)
    (hr : ∀ a ∈ records ops, a.cycle < 2 ^ 64 - pl) (ht : Timely pl ops) :
    ((closedRun pl phaseNum s₀ ops).2.map (·.phase)).Pairwise (· < ·)
      ∧ (∀ d ∈ (closedRun pl phaseNum s₀ ops).2,
          d.records = (records ops).filter (fun a => a.cycle / pl = d.phase) ∧ d.records ≠ []
          ∧ (d.phase + 1) * pl ≤ d.cut ∧ (d.cut = noCut ∨ fold d.cut ∈ ops))
      ∧ ((closedRun pl phaseNum s₀ ops).2.flatMap (·.records)).Perm (records ops)
      ∧ (closedRun pl phaseNum s₀ ops).1.phaseBatch = []
      ∧ (closedRun pl phaseNum s₀ ops).1.pendingByPhase.toList = []
      ∧ ∀ ops' : List FoldOp, (records ops').Perm (records ops) → Timely pl ops' →
          List.Forall₂ (fun d' d => d'.phase = d.phase ∧ d'.records.Perm d.records)
            (closedRun pl phaseNum s₀ ops').2 (closedRun pl phaseNum s₀ ops).2 := by
  have hrange : ∀ {ops' : List FoldOp}, (records ops').Perm (records ops) → ∀ a ∈ records ops', InRange pl a := by
    intro ops' hperm a ha
    have := hr a (hperm.mem_iff.mp ha)
    unfold InRange
    omega
  have h := closedRun_inv hpl hacc hb hp phaseNum ops (hrange (.refl _)) ht
  have hclass := h.classified hpl (by simp)
  have hmap : ∀ log : List Drain, (log.map fun d => (d.phase, d.records)).flatMap (·.2) = log.flatMap (·.records) := by
    intro log
    rw [List.flatMap_map]
  refine ⟨h.order, fun d hd => ?_, ?_, ?_, (h.closed hpl (by simp)).2, fun ops' hperm ht' => ?_⟩
  · obtain ⟨hrec, hne, hle, hcut⟩ := h.drains d hd
    refine ⟨?_, hne, hle, ?_⟩
    · rw [hrec]
      simp only [phaseOf, if_pos (show pl > 0 from hpl)]
    · rcases List.mem_append.mp hcut with hcut | hcut
      · exact .inr (mem_cuts.mp hcut)
      · exact .inl (List.mem_singleton.mp hcut)
  · rw [← hmap]
    exact hclass.perm
  · exact List.self_eq_append_right.mp h.split
  · have h' := closedRun_inv hpl hacc hb hp phaseNum ops' (hrange hperm) ht'
    have hsame := (h'.classified hpl (by simp)).unique hclass hperm
    rwa [List.forall₂_map_left_iff, List.forall₂_map_right_iff] at hsame

/-- Two phases of ten cycles; the second has begun when the fold closes the first. -/
theorem closedRun_drains_whole_phases_two_phases :
    ((closedRun 10 0 ⟨[], ∅, true, true, true, 1, 0, 0, 0⟩
        [record ⟨0, 1, 3, false⟩, record ⟨1, 0, 12, false⟩, record ⟨1, 2, 7, true⟩, fold 11,
          record ⟨2, 0, 15, false⟩]).2.flatMap (·.records)).Perm
      [⟨0, 1, 3, false⟩, ⟨1, 0, 12, false⟩, ⟨1, 2, 7, true⟩, ⟨2, 0, 15, false⟩] :=
  (closedRun_drains_whole_phases (by decide) rfl rfl rfl 0 _ (by simp [records])
    (by simp [Timely])).2.2.1

end Pimid.Noc
