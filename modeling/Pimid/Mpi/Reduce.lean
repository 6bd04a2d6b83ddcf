import Pimid.Mpi.Allreduce

/-!
# MPI_Reduce

Short vectors go up the binomial tree, each rank combining its children's
vectors into its own. Long ones are folded (here the even rank of a pair
survives), reduced by recursive halving, and the pieces are gathered at the root:
going down the bits, the survivors whose bit differs from the root's send what
they have to their partner and leave.

A root that was itself folded away takes its mate's place: the mate hands it the
pieces it reduced. The range it hands over is computed again, by
`halving_final_idx`, and in the last step of the halving it still includes a
piece that is not reduced; the first message of the gather overwrites that one.
-/

namespace Pimid.Mpi

open Pimid.Net

def kReduceShort : Nat := 2048

/-! ## The code -/

/-- `reduce_binomial` from `mask = 2 ^ i` on. -/
def reduceBinomialFrom (c : RedArgs) (P rank : Nat) (acc : BufId) (count n root i : Nat) (m : Mem) :
    Rank Mem :=
  let rel := rel P root rank
  if 2 ^ i < P then
    if 2 ^ i &&& rel = 0 then
      let src := rel ||| 2 ^ i
      if src < P then do
        let (_, m) ← recvBytes P m (.scratch 0) 0 n ((src + root) % P)
        let m ← access (reduceLocal c.fp m (.scratch 0) 0 acc 0 count c.dt c.op)
        reduceBinomialFrom c P rank acc count n root (i + 1) m
      else reduceBinomialFrom c P rank acc count n root (i + 1) m
    else do
      sendBytes P m acc 0 n ((Nat.ldiff rel (2 ^ i) + root) % P) 0
      .ret m
  else .ret m
termination_by P - i
decreasing_by
  all_goals
    have := Nat.lt_two_pow_self (n := i)
    omega

def reduceBinomial (c : RedArgs) (rt : Runtime) (P rank : Nat) (acc : BufId) (count ext root : Nat)
    (m : Mem) : Rank Mem :=
  let n := count * ext
  reduceBinomialFrom c P rank acc count n root 0 (scratchOrVec rt 0 (if n ≠ 0 then n else 1) m)

/-- The real rank of survivor `nr`. -/
def reduceRealOf (rem nr : Nat) : Nat := if nr < rem then nr * 2 else nr + rem

/-- The first `2 * rem` ranks fold pairwise; the even one survives. -/
def reduceFold (c : RedArgs) (P rank rem : Nat) (acc : BufId) (count n : Nat) (m : Mem) :
    Rank (Option Nat × Mem) :=
  if rank < 2 * rem then
    if rank % 2 ≠ 0 then do
      sendBytes P m acc 0 n (rank - 1) 0
      .ret (none, m)
    else do
      let (_, m) ← recvBytes P m (.scratch 0) 0 n (rank + 1)
      let m ← access (reduceLocal c.fp m (.scratch 0) 0 acc 0 count c.dt c.op)
      .ret (some (rank / 2), m)
  else .ret (some (rank - rem), m)

/-- A folded root takes over from its mate, which leaves. -/
def reduceHandOver (P rank : Nat) (acc : BufId) (pof2 : Nat) (pieces : List Nat × List Nat)
    (ext root newroot : Nat) (rootFolded : Bool) (newrank : Option Nat) (sendIdx lastIdx : Nat)
    (m : Mem) : Rank (Option Nat × Nat × Nat × Mem) :=
  if rootFolded then do
    let p := halvingFinalIdx newroot pof2
    let off ← access pieces.2[p.1]?
    let cnt ← access (rsSum pieces.1 p.1 p.2)
    if rank = root then do
      let (_, m) ← recvBytes P m acc (off * ext) (cnt * ext) (root - 1)
      .ret (some newroot, p.1, p.2, m)
    else if rank = root - 1 then do
      sendBytes P m acc (off * ext) (cnt * ext) root 0
      .ret (none, sendIdx, lastIdx, m)
    else .ret (newrank, sendIdx, lastIdx, m)
  else .ret (newrank, sendIdx, lastIdx, m)

/-- `while (mask < pof2) { mask <<= 1; j++; }` from `mask = 2 ^ j` on. -/
def gatherTop (pof2 j : Nat) : Nat :=
  if 2 ^ j < pof2 then gatherTop pof2 (j + 1) else j
termination_by pof2 - j
decreasing_by
  have := Nat.lt_two_pow_self (n := j)
  omega

/-- The gather of the pieces, from `mask` down. -/
def reduceGatherFrom (P : Nat) (acc : BufId) (newrank pof2 : Nat) (pieces : List Nat × List Nat)
    (ext : Nat) (realOf : Nat → Nat) (root newroot : Nat) (rootFolded : Bool)
    (mask j sendIdx lastIdx : Nat) (m : Mem) : Rank Mem :=
  if mask > 0 then do
    let newdst := newrank ^^^ mask
    let dst := if rootFolded ∧ newdst = newroot then root else realOf newdst
    let v ← access (regatherMove pieces pof2 newrank mask sendIdx lastIdx)
    if (newdst >>> j) <<< j = (newroot >>> j) <<< j then do
      sendBytes P m acc (v.sendOff * ext) (v.sendCnt * ext) dst 0
      .ret m
    else do
      let (_, m) ← recvBytes P m acc (v.recvOff * ext) (v.recvCnt * ext) dst
      reduceGatherFrom P acc newrank pof2 pieces ext realOf root newroot rootFolded (mask / 2) (j - 1)
        (if newrank > newdst then v.recvIdx else sendIdx) v.lastIdx m
  else .ret m
termination_by mask

def reduceScatterGather (c : RedArgs) (rt : Runtime) (P rank : Nat) (acc : BufId)
    (count ext root : Nat) (m : Mem) : Rank Mem := do
  let n := count * ext
  let pof2 := pof2Floor P
  let rem := P - pof2
  let m := scratchOrVec rt 0 (if n ≠ 0 then n else 1) m
  let (newrank, m) ← reduceFold c P rank rem acc count n m
  let pieces := rsPieces count pof2
  let (sendIdx, lastIdx, m) ← match newrank with
    | none => .ret (0, pof2, m)
    | some newrank =>
      reduceScatterHalving c P acc (.scratch 0) newrank pof2 pieces ext (reduceRealOf rem) m
  let rootFolded := decide (root < 2 * rem) && decide (root % 2 ≠ 0)
  let newroot := if root < 2 * rem then root / 2 else root - rem
  let (newrank, sendIdx, lastIdx, m) ← reduceHandOver P rank acc pof2 pieces ext root newroot
    rootFolded newrank sendIdx lastIdx m
  match newrank with
  | none => .ret m
  | some newrank =>
    let j := gatherTop pof2 0
    reduceGatherFrom P acc newrank pof2 pieces ext (reduceRealOf rem) root newroot rootFolded
      (2 ^ j / 2) (j - 1) sendIdx lastIdx m

/-- The running result: the root's `recvbuf`, a scratch buffer elsewhere. -/
def reduceAcc (rt : Runtime) (isRoot : Bool) (recvbuf : Arg) (n : Nat) (m : Mem) :
    Option (BufId × Mem) :=
  let tmp := (BufId.scratch 1, scratchOrVec rt 1 (if n ≠ 0 then n else 1) m)
  if isRoot then
    match recvbuf with
    | .buf b => some (b, m)
    | .null => some tmp
    | .inPlace => none
  else some tmp

def mpiReduce (c : RedArgs) (rt : Runtime) (P rank : Nat) (m : Mem) (sendbuf recvbuf : Arg)
    (count root : Nat) : Rank Mem := do
  let ext ← access (dtypeSize c.dt)
  let n := count * ext
  if P ≤ 1 then
    match sendbuf, recvbuf with
    | .buf b, .buf r => access (m.copy r 0 b 0 n)
    | _, _ => .ret m
  else do
    let (acc, m) ← access (reduceAcc rt (decide (rank = root)) recvbuf n m)
    -- `MPI_IN_PLACE` is no address to copy from
    let m ← access (if rank ≠ root ∧ sendbuf = .inPlace then none else copyIn m acc sendbuf n)
    if n > kReduceShort ∧ count ≥ pof2Floor P then reduceScatterGather c rt P rank acc count ext root m
    else reduceBinomial c rt P rank acc count ext root m

/-! ## Up the binomial tree -/

section

variable {P count root : Nat} {c : RedArgs} {ty : RedType} {f : Bytes → Bytes → Bytes}
  {acc : Nat → BufId} {m : Nat → Mem}

/-- The ranks in the first `2 ^ i` of the subtree of `r`. -/
def binomialBlock (P root i r : Nat) : Finset Nat :=
  (Finset.range P).filter fun s => rel P root r ≤ rel P root s ∧ rel P root s < rel P root r + 2 ^ i

theorem mem_binomialBlock {i r s : Nat} : s ∈ binomialBlock P root i r ↔
    s < P ∧ rel P root r ≤ rel P root s ∧ rel P root s < rel P root r + 2 ^ i := by
  rw [binomialBlock, Finset.mem_filter, Finset.mem_range]

/-- After `i` levels a rank of level `i` has the combination of its block. -/
structure ReduceBinomialHas (P root : Nat) (f : Bytes → Bytes → Bytes) (ext count : Nat) (acc : Nat → BufId)
    (m : Nat → Mem) (i : Nat) (M : Nat → Mem) : Prop where
  work : ∀ r, r < P → Work (acc r) (count * ext) (m r) (M r)
  value : ∀ r, r < P → rel P root r % 2 ^ i = 0 → ∀ x, x < count →
    Reduces f (fun s => elt ext (m s (acc s)) x) (binomialBlock P root i r) (elt ext (M r (acc r)) x)

/-- Where the ranks are after `i` levels. -/
def reduceBinomialAt (c : RedArgs) (P root : Nat) (acc : Nat → BufId) (count n i : Nat) (M : Nat → Mem)
    (r : Nat) : Rank Mem :=
  if rel P root r % 2 ^ i = 0 then reduceBinomialFrom c P r (acc r) count n root i (M r)
  else .ret (M r)

theorem reduceBinomialFrom_recv {i n r : Nat} {A : BufId} {M : Mem} (hroot : root < P) (hr : r < P)
    (h0 : rel P root r % 2 ^ (i + 1) = 0) (hlt : rel P root r + 2 ^ i < P) :
    reduceBinomialFrom c P r A count n root i M
      = (recvBytes P M (.scratch 0) 0 n ((r + 2 ^ i) % P) >>= fun x =>
        access (reduceLocal c.fp x.2 (.scratch 0) 0 A 0 count c.dt c.op) >>=
        reduceBinomialFrom c P r A count n root (i + 1)) := by
  have hbit := (low_of_succ h0).2
  rw [reduceBinomialFrom]
  simp only [if_pos (show 2 ^ i < P by omega), Nat.and_comm (2 ^ i),
    if_pos (land_pow_eq_zero.mpr hbit), lor_pow hbit, if_pos hlt, ofRel_up hroot hr hlt]

theorem reduceBinomialFrom_skip {i n r : Nat} {A : BufId} {M : Mem} (hi : 2 ^ i < P)
    (h0 : rel P root r % 2 ^ (i + 1) = 0) (hlt : ¬ rel P root r + 2 ^ i < P) :
    reduceBinomialFrom c P r A count n root i M
      = reduceBinomialFrom c P r A count n root (i + 1) M := by
  have hbit := (low_of_succ h0).2
  rw [reduceBinomialFrom]
  simp only [if_pos hi, Nat.and_comm (2 ^ i), if_pos (land_pow_eq_zero.mpr hbit), lor_pow hbit,
    if_neg hlt]

theorem reduceBinomialFrom_send {i n r : Nat} {A : BufId} {M : Mem} (hroot : root < P) (hr : r < P)
    (h : rel P root r % 2 ^ (i + 1) = 2 ^ i) :
    reduceBinomialFrom c P r A count n root i M
      = (sendBytes P M A 0 n ((r + P - 2 ^ i) % P) 0 >>= fun _ => .ret M) := by
  have hbit := (low_of_pow h).2
  have hle := pow_le_of_testBit hbit
  have hrel := rel_lt (P := P) root r (by omega)
  rw [reduceBinomialFrom]
  simp only [if_pos (show 2 ^ i < P by omega), Nat.and_comm (2 ^ i),
    if_neg (land_pow_ne_zero.mpr hbit), ldiff_pow hbit, ofRel_down hroot hr hle]

theorem ReduceBinomialHas.step (hP : 2 ≤ P) (hroot : root < P) (hc : RedOk c ty f)
    (hroom : Room P count ty.size acc m) {i : Nat} (hi : 2 ^ i < P) {M : Nat → Mem}
    (hI : ReduceBinomialHas P root f ty.size count acc m i M) :
    ∃ M', ReduceBinomialHas P root f ty.size count acc m (i + 1) M' ∧
      Together P (reduceBinomialAt c P root acc count (count * ty.size) i M)
        (reduceBinomialAt c P root acc count (count * ty.size) (i + 1) M') := by
  have hroom' := hroom.of_work hI.work
  have hred := fun r (hr : r < P) =>
    recv_reduce hc (hroom'.ne r hr) (show 0 + count ≤ count by omega)
      (hroom'.acc r hr) (hroom'.tmp r hr) (hroom'.acc ((r + 2 ^ i) % P) (Nat.mod_lt _ (by omega)))
  simp only [Nat.zero_mul, Nat.zero_le, Nat.zero_add, true_imp_iff] at hred
  choose! M₁ hM₁ hwork hval using hred
  let M' : Nat → Mem := fun r =>
    if rel P root r % 2 ^ (i + 1) = 0 ∧ rel P root r + 2 ^ i < P then M₁ r else M r
  refine ⟨M', ⟨fun r hr => ?_, fun r hr h0 x hx => ?_⟩, ?_⟩
  · simp only [M']
    split
    · exact (hI.work r hr).trans (hwork r hr)
    · exact hI.work r hr
  · have hown := hI.value r hr (low_of_succ h0).1 x hx
    simp only [M', h0, true_and]
    split
    · next hlt =>
      obtain ⟨hs, hrel, hbit, -⟩ := child hroot hr h0 hlt
      have hchild := hI.value _ hs (low_of_pow hbit).1 x hx
      rw [hval r hr x hx]
      refine hchild.join hown (fun s h₁ h₂ => ?_) fun s => ?_
      · rw [mem_binomialBlock, hrel] at h₁
        rw [mem_binomialBlock] at h₂
        omega
      · rw [mem_binomialBlock, mem_binomialBlock, mem_binomialBlock, hrel, Nat.pow_succ]
        omega
    · next hlt =>
      refine hown.congr fun s => ?_
      have hs := rel_lt (P := P) root s (by omega)
      rw [mem_binomialBlock, mem_binomialBlock, Nat.pow_succ]
      omega
  · refine Together.deliver (m := M)
      (fun r => rel P root r % 2 ^ (i + 1) = 2 ^ i)
      (fun r => rel P root r % 2 ^ (i + 1) = 0 ∧ rel P root r + 2 ^ i < P) hP
      (fun r => ⟨(r + P - 2 ^ i) % P, acc r, 0, count * ty.size⟩)
      (fun r => ⟨(r + 2 ^ i) % P, .scratch 0, 0, count * ty.size⟩)
      (fun r x => access (reduceLocal c.fp x.2 (.scratch 0) 0 (acc r) 0 count c.dt c.op) >>=
        reduceBinomialFrom c P r (acc r) count (count * ty.size) root (i + 1))
      ?_ ?_ ?_ ?_ ?_ ?_ ?_ ?_ ?_ ?_
    · intro s hs h
      have hrel := rel_lt (P := P) root s (by omega)
      obtain ⟨hd, hsum, h0, hback⟩ := parent hroot hs h
      exact ⟨hd, ⟨h0, hsum.trans_lt hrel⟩, hback⟩
    · rintro d hd ⟨h0, hlt⟩
      obtain ⟨hs, -, hbit, hback⟩ := child hroot hd h0 hlt
      exact ⟨hs, hbit, hback⟩
    · exact fun r _ h h' => ne_of_level h'.1 h
    · exact fun r hr _ => .of_le (by have := hroom'.acc r hr; dsimp only; omega)
    · exact fun r hr _ => .of_le (by have := hroom'.tmp r hr; dsimp only; omega)
    · exact fun _ _ _ => Nat.le_refl _
    · intro s hs h
      have h0 : ¬ rel P root s % 2 ^ (i + 1) = 0 := fun h0 => ne_of_level h0 h
      have hR : ¬ (rel P root s % 2 ^ (i + 1) = 0 ∧ rel P root s + 2 ^ i < P) := fun h => h0 h.1
      simp only [reduceBinomialAt, M', if_pos (low_of_pow h).1, if_neg h0, if_neg hR,
        reduceBinomialFrom_send hroot hs h]
    · rintro d hd ⟨h0, hlt⟩
      simp only [reduceBinomialAt, if_pos (low_of_succ h0).1, reduceBinomialFrom_recv hroot hd h0 hlt]
    · rintro d hd ⟨h0, hlt⟩
      simp only [reduceBinomialAt, M', if_pos h0, if_pos (And.intro h0 hlt), Tx.data]
      rw [hM₁ d hd, access_some, Prog.ret_bind]
    · intro r hr hS hR
      by_cases hlow : rel P root r % 2 ^ i = 0
      · rcases low_cases hlow with ⟨h0, -⟩ | ⟨h, -⟩
        · have hlt : ¬ rel P root r + 2 ^ i < P := fun hlt => hR ⟨h0, hlt⟩
          simp only [reduceBinomialAt, M', if_pos hlow, if_pos h0, if_neg hR,
            reduceBinomialFrom_skip hi h0 hlt]
        · exact absurd h hS
      · have h0 : ¬ rel P root r % 2 ^ (i + 1) = 0 := fun h0 => hlow (low_of_succ h0).1
        simp only [reduceBinomialAt, M', if_neg hlow, if_neg h0, if_neg hR]

/-- **The binomial reduction.** The root ends with a combination of all vectors. -/
theorem reduceBinomialFrom_together (hP : 2 ≤ P) (hroot : root < P) (hc : RedOk c ty f)
    (hroom : Room P count ty.size acc m) :
    ∃ M : Nat → Mem, (∀ r, r < P → Work (acc r) (count * ty.size) (m r) (M r)) ∧
      (∀ x, x < count → Reduces f (fun s => elt ty.size (m s (acc s)) x) (Finset.range P)
        (elt ty.size (M root (acc root)) x)) ∧
      Together P (fun r => reduceBinomialFrom c P r (acc r) count (count * ty.size) root 0 (m r))
        (fun r => .ret (M r)) := by
  obtain ⟨K, hK, hpow⟩ := exists_pow_ge P
  have hinit : ReduceBinomialHas P root f ty.size count acc m 0 m := by
    refine ⟨fun _ _ => .refl, fun r hr _ x _ => (Reduces.leaf r).congr fun s => ?_⟩
    rw [Finset.mem_singleton, mem_binomialBlock]
    constructor
    · rintro rfl
      exact ⟨hr, by omega⟩
    · rintro ⟨hs, h₁, h₂⟩
      exact rel_inj hroot hs hr (by omega)
  obtain ⟨M, hM, hrun⟩ := Together.ascend (P := P) (n := K)
    (reduceBinomialAt c P root acc count (count * ty.size)) (ReduceBinomialHas P root f ty.size count acc m)
    (fun i M hi hI => hI.step hP hroot hc hroom ((hpow i).mpr hi)) hinit
  refine ⟨M, hM.work, fun x hx => ?_, .trans (.of_eq fun r hr => ?_) (hrun.trans (.of_eq fun r hr => ?_))⟩
  · refine (hM.value root hroot (by rw [rel_self hroot, Nat.zero_mod]) x hx).congr fun s => ?_
    have hs := rel_lt (P := P) root s (by omega)
    rw [mem_binomialBlock, rel_self hroot, Finset.mem_range]
    omega
  · rw [reduceBinomialAt, if_pos (by omega)]
  · unfold reduceBinomialAt
    split
    · rw [reduceBinomialFrom]
      simp only [if_neg (show ¬ 2 ^ K < P by omega)]
    · rfl

end

/-! ## The gather of the pieces -/

/-- The numbering of `reduce_scatter_gather`. -/
abbrev reduceTeam {P K : Nat} (h : Pof2 P K) : Team P K := foldTeam h 0 (by omega)

abbrev reducePairing {P K : Nat} (h : Pof2 P K) : Pairing (reduceTeam h) := foldPairing h 0 (by omega)

/-- The new rank the root has, or takes over. -/
def newRoot (P K root : Nat) : Nat :=
  if root < 2 * (P - 2 ^ K) then root / 2 else root - (P - 2 ^ K)

/-- The root was folded away. -/
def RootFolded (P K root : Nat) : Prop := root < 2 * (P - 2 ^ K) ∧ root % 2 ≠ 0

instance (P K root : Nat) : Decidable (RootFolded P K root) := inferInstanceAs (Decidable (_ ∧ _))

theorem newRoot_of_folded {P K root : Nat} (h : RootFolded P K root) : newRoot P K root = root / 2 :=
  if_pos h.1

/-- The survivors of the gather, by their old and their new ranks. -/
theorem gather_newOf {P K root r : Nat} (h : Pof2 P K) (hr : r < P)
    (hhas : decide (RootFolded P K root ∧ r = root ∨
      ¬ (RootFolded P K root ∧ r = root - 1) ∧ ¬ (r < 2 * (P - 2 ^ K) ∧ r % 2 ≠ 0)) = true) :
    (if r < 2 * (P - 2 ^ K) then r / 2 else r - (P - 2 ^ K)) < 2 ^ K ∧
      (if RootFolded P K root ∧ (if r < 2 * (P - 2 ^ K) then r / 2 else r - (P - 2 ^ K)) = newRoot P K root then root
        else reduceRealOf (P - 2 ^ K) (if r < 2 * (P - 2 ^ K) then r / 2 else r - (P - 2 ^ K))) = r := by
  have := h.le
  have := h.lt
  refine ⟨by split <;> omega, ?_⟩
  rw [decide_eq_true_eq] at hhas
  unfold reduceRealOf
  by_cases hf : RootFolded P K root
  · simp only [hf, true_and, newRoot_of_folded hf] at hhas ⊢
    obtain ⟨h₁, h₂⟩ := hf
    split_ifs <;> omega
  · simp only [hf, false_and, false_or, not_false_eq_true, true_and, if_false] at hhas ⊢
    split_ifs <;> omega

theorem gather_realOf {P K root k r : Nat} (h : Pof2 P K) (hroot : root < P) (hk : k < 2 ^ K)
    (hr : (if RootFolded P K root ∧ k = newRoot P K root then root else reduceRealOf (P - 2 ^ K) k) = r) :
    r < P ∧ decide (RootFolded P K root ∧ r = root ∨
      ¬ (RootFolded P K root ∧ r = root - 1) ∧ ¬ (r < 2 * (P - 2 ^ K) ∧ r % 2 ≠ 0)) = true ∧
      (if r < 2 * (P - 2 ^ K) then r / 2 else r - (P - 2 ^ K)) = k := by
  have := h.le
  have := h.lt
  subst hr
  rw [decide_eq_true_eq]
  unfold reduceRealOf
  by_cases hf : RootFolded P K root
  · simp only [hf, true_and, newRoot_of_folded hf]
    obtain ⟨h₁, h₂⟩ := hf
    split_ifs <;> omega
  · simp only [hf, false_and, false_or, not_false_eq_true, true_and, if_false]
    split_ifs <;> omega

/-- The survivors once a folded root has taken its mate's place. -/
def gatherTeam {P K root : Nat} (h : Pof2 P K) (hroot : root < P) : Team P K where
  has r := decide (RootFolded P K root ∧ r = root ∨
    ¬ (RootFolded P K root ∧ r = root - 1) ∧ ¬ (r < 2 * (P - 2 ^ K) ∧ r % 2 ≠ 0))
  newOf r := if r < 2 * (P - 2 ^ K) then r / 2 else r - (P - 2 ^ K)
  realOf nr := if RootFolded P K root ∧ nr = newRoot P K root then root
    else reduceRealOf (P - 2 ^ K) nr
  newOf_lt _ hr hhas := (gather_newOf h hr hhas).1
  realOf_newOf _ hr hhas := (gather_newOf h hr hhas).2
  realOf_lt _ hk := (gather_realOf h hroot hk rfl).1
  has_realOf _ hk := (gather_realOf h hroot hk rfl).2.1
  newOf_realOf _ hk := (gather_realOf h hroot hk rfl).2.2

section

variable {P K count root : Nat} {c : RedArgs} {ty : RedType} {f : Bytes → Bytes → Bytes}
  {acc : Nat → BufId} {m : Nat → Mem}

theorem realOf_newRoot (h : Pof2 P K) (hroot : root < P) :
    (gatherTeam h hroot).realOf (newRoot P K root) = root := by
  simp only [gatherTeam]
  by_cases hf : RootFolded P K root
  · rw [if_pos ⟨hf, trivial⟩]
  · rw [if_neg fun h => hf h.1]
    unfold RootFolded at hf
    unfold newRoot reduceRealOf
    split_ifs <;> omega

theorem newRoot_lt (h : Pof2 P K) (hroot : root < P) : newRoot P K root < 2 ^ K := by
  have := h.le
  have := h.lt
  unfold newRoot
  split <;> omega

theorem shift_eq_iff {x y i : Nat} : (x >>> i) <<< i = (y >>> i) <<< i ↔ x / 2 ^ i = y / 2 ^ i := by
  rw [Nat.shiftRight_eq_div_pow, Nat.shiftRight_eq_div_pow, Nat.shiftLeft_eq, Nat.shiftLeft_eq]
  exact Nat.mul_left_inj (Nat.two_pow_pos i).ne'

/-- The new ranks that still take part when the bits from `i` on have been looked at. -/
def Gathering (P K root i k : Nat) : Prop := k / 2 ^ i = newRoot P K root / 2 ^ i

instance (P K root i k : Nat) : Decidable (Gathering P K root i k) := inferInstanceAs (Decidable (_ = _))

/-- The gather loop of new rank `k`, about to look at bit `i - 1`. -/
def gatherLoop (P K ext count root : Nat) (A : BufId) (k i : Nat) (M : Mem) : Rank Mem :=
  reduceGatherFrom P A k (2 ^ K) (rsPieces count (2 ^ K)) ext (reduceRealOf (P - 2 ^ K)) root
    (newRoot P K root) (decide (RootFolded P K root)) (2 ^ i / 2) (i - 1) (first K k i) (lastAt K k i) M

/-- One step of it: in the root's half receive, in the other send and leave. -/
theorem gatherLoop_step (h : Pof2 P K) (hroot : root < P) {A : BufId} {ext k i : Nat} (hi : i < K)
    (M : Mem) :
    gatherLoop P K ext count root A k (i + 1) M =
      if Gathering P K root i (k ^^^ 2 ^ i) then
        sendBytes P M A (eltLo count K k (i + 1) * ext)
          ((eltHi count K k (i + 1) - eltLo count K k (i + 1)) * ext)
          ((gatherTeam h hroot).realOf (k ^^^ 2 ^ i)) 0 >>= fun _ => .ret M
      else
        recvBytes P M A (eltLo count K (k ^^^ 2 ^ i) (i + 1) * ext)
          ((eltHi count K (k ^^^ 2 ^ i) (i + 1) - eltLo count K (k ^^^ 2 ^ i) (i + 1)) * ext)
          ((gatherTeam h hroot).realOf (k ^^^ 2 ^ i)) >>= fun x =>
        gatherLoop P K ext count root A k i x.2 := by
  rw [gatherLoop, half_pow_succ, Nat.add_sub_cancel, reduceGatherFrom, if_pos (Nat.two_pow_pos i),
    regatherMove_eq hi, access_some, Prog.ret_bind]
  simp only [shift_eq_iff, regather_send hi, decide_eq_true_eq]
  rfl

/-- After bit `i` a rank that takes part has the pieces from `first` on. -/
structure GatherHas (h : Pof2 P K) (hroot : root < P) (ext count : Nat) (acc : Nat → BufId)
    (m : Nat → Mem) (W : Nat → Bytes) (i : Nat) (M : Nat → Mem) : Prop where
  work : ∀ r, r < P → Work (acc r) (count * ext) (m r) (M r)
  value : ∀ r, r < P → (gatherTeam h hroot).has r = true →
    Gathering P K root i ((gatherTeam h hroot).newOf r) →
    ∀ x, eltLo count K ((gatherTeam h hroot).newOf r) i ≤ x →
      x < eltHi count K ((gatherTeam h hroot).newOf r) i → elt ext (M r (acc r)) x = W x

/-- Where the ranks are then. -/
def gatherPoint (h : Pof2 P K) (hroot : root < P) (ext count : Nat) (acc : Nat → BufId) (i : Nat)
    (M : Nat → Mem) (r : Nat) : Rank Mem :=
  if (gatherTeam h hroot).has r = true ∧ Gathering P K root i ((gatherTeam h hroot).newOf r) then
    gatherLoop P K ext count root (acc r) ((gatherTeam h hroot).newOf r) i (M r)
  else .ret (M r)

theorem Gathering.up {i k : Nat} (h : Gathering P K root i k) : Gathering P K root (i + 1) k :=
  div_pow_succ_eq_iff.mpr (.inl h)

theorem Gathering.partner {i k : Nat} (h : Gathering P K root i k) :
    Gathering P K root (i + 1) (k ^^^ 2 ^ i) ∧ ¬ Gathering P K root i (k ^^^ 2 ^ i) := by
  refine ⟨div_pow_succ_eq_iff.mpr (.inr ?_), fun h' => div_xor_pow_ne k i (h'.trans h.symm)⟩
  rw [xor_pow_div, xor_pow_div, h]

theorem Gathering.down {i k : Nat} (h : Gathering P K root (i + 1) k) (h' : ¬ Gathering P K root i k) :
    Gathering P K root i (k ^^^ 2 ^ i) := by
  have hx := (div_pow_succ_eq_iff.mp h).resolve_left h'
  rw [Gathering, xor_pow_div, hx, ← xor_pow_div, Nat.xor_xor_cancel_right]

/-- **A step of the gather.** -/
theorem GatherHas.step {h : Pof2 P K} {hroot : root < P} (hP : 2 ≤ P)
    (hroom : Room P count ty.size acc m) {W : Nat → Bytes} {i : Nat} (hi : i < K) {M : Nat → Mem}
    (hI : GatherHas h hroot ty.size count acc m W (i + 1) M) :
    ∃ M', GatherHas h hroot ty.size count acc m W i M' ∧
      Together P (gatherPoint h hroot ty.size count acc (i + 1) M)
        (gatherPoint h hroot ty.size count acc i M') := by
  have hroom' := hroom.of_work hI.work
  let T := gatherTeam h hroot
  have hcnt : ∀ k, eltLo count K k (i + 1) + (eltHi count K k (i + 1) - eltLo count K k (i + 1))
      ≤ count := fun k => by
    rw [Nat.add_sub_cancel' (eltLo_le_eltHi ..)]
    exact eltHi_le hi
  let M' : Nat → Mem := fun r => if T.has r = true ∧ Gathering P K root i (T.newOf r) then
    (M r).put (acc r) (eltLo count K (T.newOf r ^^^ 2 ^ i) (i + 1) * ty.size)
      (slice (M (T.partner i r) (acc (T.partner i r)))
        (eltLo count K (T.newOf r ^^^ 2 ^ i) (i + 1) * ty.size)
        ((eltHi count K (T.newOf r ^^^ 2 ^ i) (i + 1)
          - eltLo count K (T.newOf r ^^^ 2 ^ i) (i + 1)) * ty.size)) else M r
  refine ⟨M', ⟨fun r hr => ?_, fun r hr hh hg x hlo hhi => ?_⟩, ?_⟩
  · simp only [M']
    split
    · next hR =>
      exact (hI.work r hr).trans
        (work_regather hi (hroom'.acc r hr) (hroom'.acc _ (T.partner_lt hi hr hR.1)))
    · exact hI.work r hr
  · have hnew := T.newOf_partner hi hr hh
    simp only [M']
    rw [if_pos ⟨hh, hg⟩]
    refine elt_regather hi (hroom'.acc r hr) (hroom'.acc _ (T.partner_lt hi hr hh))
      (hI.value r hr hh hg.up) (fun y h₁ h₂ => ?_) hlo hhi
    exact hI.value _ (T.partner_lt hi hr hh) (T.has_partner hi hr hh)
      (by rw [hnew]; exact hg.partner.1) y (by rw [hnew]; exact h₁) (by rw [hnew]; exact h₂)
  · refine Together.deliver (m := M)
      (fun r => T.has r = true ∧ Gathering P K root (i + 1) (T.newOf r) ∧
        ¬ Gathering P K root i (T.newOf r))
      (fun r => T.has r = true ∧ Gathering P K root i (T.newOf r)) hP
      (fun r => ⟨T.partner i r, acc r, eltLo count K (T.newOf r) (i + 1) * ty.size,
        (eltHi count K (T.newOf r) (i + 1) - eltLo count K (T.newOf r) (i + 1)) * ty.size⟩)
      (fun r => ⟨T.partner i r, acc r, eltLo count K (T.newOf r ^^^ 2 ^ i) (i + 1) * ty.size,
        (eltHi count K (T.newOf r ^^^ 2 ^ i) (i + 1)
          - eltLo count K (T.newOf r ^^^ 2 ^ i) (i + 1)) * ty.size⟩)
      (fun r x => gatherLoop P K ty.size count root (acc r) (T.newOf r) i x.2)
      ?_ ?_ ?_ ?_ ?_ ?_ ?_ ?_ ?_ ?_
    · rintro r hr ⟨hh, hg, hg'⟩
      refine ⟨T.partner_lt hi hr hh, ⟨T.has_partner hi hr hh, ?_⟩, T.partner_partner hi hr hh⟩
      rw [T.newOf_partner hi hr hh]
      exact hg.down hg'
    · rintro r hr ⟨hh, hg⟩
      refine ⟨T.partner_lt hi hr hh, ⟨T.has_partner hi hr hh, ?_⟩, T.partner_partner hi hr hh⟩
      rw [T.newOf_partner hi hr hh]
      exact hg.partner
    · exact fun r _ hS hR => hS.2.2 hR.2
    · exact fun r hr _ => fits_elts (hroom'.acc r hr) (hcnt _)
    · rintro r hr ⟨hh, -⟩
      dsimp only
      rw [T.newOf_partner hi hr hh]
      exact fits_elts (hroom'.acc r hr) (hcnt _)
    · rintro r hr ⟨hh, -⟩
      dsimp only
      rw [T.newOf_partner hi hr hh]
    · rintro r hr ⟨hh, hg, hg'⟩
      have hdown := hg.down hg'
      simp only [gatherPoint, M']
      rw [if_pos ⟨hh, hg⟩, if_neg fun hR => hg' hR.2, if_neg fun hR => hg' hR.2,
        gatherLoop_step h hroot hi, if_pos hdown]
      rfl
    · rintro r hr ⟨hh, hg⟩
      have hno := hg.partner.2
      simp only [gatherPoint]
      rw [if_pos ⟨hh, hg.up⟩, gatherLoop_step h hroot hi, if_neg hno]
      rfl
    · rintro r hr ⟨hh, hg⟩
      simp only [gatherPoint, M', Tx.data]
      rw [if_pos ⟨hh, hg⟩, if_pos ⟨hh, hg⟩, T.newOf_partner hi hr hh]
    · intro r hr hS hR
      have hno : ¬ (T.has r = true ∧ Gathering P K root (i + 1) (T.newOf r)) := fun hg => by
        by_cases hg' : Gathering P K root i (T.newOf r)
        · exact hR ⟨hg.1, hg'⟩
        · exact hS ⟨hg.1, hg.2, hg'⟩
      simp only [gatherPoint, M']
      rw [if_neg hR, if_neg hR, if_neg hno]

/-- **The gather.** The root ends with all pieces. -/
theorem gatherLoop_together {h : Pof2 P K} {hroot : root < P} (hP : 2 ≤ P)
    (hroom : Room P count ty.size acc m) {W : Nat → Bytes} {M : Nat → Mem}
    (hI : GatherHas h hroot ty.size count acc m W K M) :
    ∃ M' : Nat → Mem, (∀ r, r < P → Work (acc r) (count * ty.size) (m r) (M' r)) ∧
      (∀ x, x < count → elt ty.size (M' root (acc root)) x = W x) ∧
      Together P (fun r => if (gatherTeam h hroot).has r = true then
          gatherLoop P K ty.size count root (acc r) ((gatherTeam h hroot).newOf r) K (M r)
        else .ret (M r)) (fun r => .ret (M' r)) := by
  obtain ⟨M', hM', hrun⟩ := Together.descend (P := P) (n := K)
    (gatherPoint h hroot ty.size count acc) (GatherHas h hroot ty.size count acc m W)
    (fun i M hi hI => hI.step hP hroom hi) hI
  have hreal := realOf_newRoot h hroot
  have hnew := (gatherTeam h hroot).newOf_realOf _ (newRoot_lt h hroot)
  have hhas := (gatherTeam h hroot).has_realOf _ (newRoot_lt h hroot)
  rw [hreal] at hnew hhas
  refine ⟨M', hM'.work, fun x hx => ?_, .trans (.of_eq fun r hr => ?_) (hrun.trans (.of_eq fun r hr => ?_))⟩
  · refine hM'.value root hroot hhas (by rw [hnew]; rfl) x (Nat.zero_le x) ?_
    rw [eltHi_zero]
    exact hx
  · unfold gatherPoint
    by_cases hh : (gatherTeam h hroot).has r = true
    · have hg : Gathering P K root K ((gatherTeam h hroot).newOf r) := by
        rw [Gathering, Nat.div_eq_of_lt ((gatherTeam h hroot).newOf_lt r hr hh),
          Nat.div_eq_of_lt (newRoot_lt h hroot)]
      rw [if_pos hh, if_pos ⟨hh, hg⟩]
    · rw [if_neg hh, if_neg fun h => hh h.1]
  · unfold gatherPoint
    split
    · rw [gatherLoop, Nat.pow_zero, reduceGatherFrom, if_neg (by omega)]
    · rfl

/-! ## Handing over to a folded root -/

/-- What a rank does after the halving. -/
def reduceTail (P K rank : Nat) (acc : BufId) (count ext root : Nat) (newrank : Option Nat)
    (sendIdx lastIdx : Nat) (m : Mem) : Rank Mem :=
  reduceHandOver P rank acc (2 ^ K) (rsPieces count (2 ^ K)) ext root (newRoot P K root)
    (decide (RootFolded P K root)) newrank sendIdx lastIdx m >>= fun x =>
  match x.1 with
  | none => .ret x.2.2.2
  | some k => reduceGatherFrom P acc k (2 ^ K) (rsPieces count (2 ^ K)) ext (reduceRealOf (P - 2 ^ K))
      root (newRoot P K root) (decide (RootFolded P K root)) (2 ^ K / 2) (K - 1) x.2.1 x.2.2.1 x.2.2.2

/-- The elements that are handed over: at least the piece that is reduced. -/
theorem handOver_range (count : Nat) (hK : 1 ≤ K) (k : Nat) :
    rsSum (rsPieces count (2 ^ K)).1 (first K k K) (lastAt K k K)
        = some (pieceOff count (2 ^ K) (lastAt K k K) - eltLo count K k K) ∧
      (rsPieces count (2 ^ K)).2[first K k K]? = some (eltLo count K k K) ∧
      eltHi count K k K ≤ pieceOff count (2 ^ K) (lastAt K k K) ∧
      pieceOff count (2 ^ K) (lastAt K k K) ≤ count := by
  obtain ⟨i, rfl⟩ : ∃ i, K = i + 1 := ⟨K - 1, by omega⟩
  have hlast : lastAt (i + 1) k (i + 1) = first (i + 1) k i + 2 := by
    rw [lastAt_succ (by omega), if_neg (Nat.lt_irrefl _), Nat.add_sub_cancel_left, Nat.pow_one]
  have hle := first_add_le (K := i + 1) (k := k) (show i ≤ i + 1 by omega)
  rw [Nat.add_sub_cancel_left, Nat.pow_one] at hle
  have hfirst := first_cases (K := i + 1) (k := k) (show i < i + 1 by omega)
  rw [Nat.sub_self, Nat.pow_zero] at hfirst
  refine ⟨?_, disps_get (by omega), pieceOff_mono _ _ ?_, ?_⟩
  · rw [rsSum_eq (by omega) (by omega)]
    rfl
  · rw [Nat.sub_self, Nat.pow_zero, hlast]
    omega
  · have := pieceOff_mono count (2 ^ (i + 1)) (a := lastAt (i + 1) k (i + 1)) (b := 2 ^ (i + 1))
      (by omega)
    rwa [pieceOff_all (Nat.two_pow_pos _)] at this

theorem reduceTail_folded (hf : RootFolded P K root) (hK : 1 ≤ K) {r ext : Nat} {A : BufId}
    {newrank : Option Nat} {sendIdx lastIdx : Nat} (M : Mem) :
    reduceTail P K r A count ext root newrank sendIdx lastIdx M =
      let lo := eltLo count K (newRoot P K root) K
      let cnt := pieceOff count (2 ^ K) (lastAt K (newRoot P K root) K) - lo
      if r = root then
        recvBytes P M A (lo * ext) (cnt * ext) (root - 1) >>= fun x =>
          gatherLoop P K ext count root A (newRoot P K root) K x.2
      else if r = root - 1 then
        sendBytes P M A (lo * ext) (cnt * ext) root 0 >>= fun _ => .ret M
      else match newrank with
        | none => .ret M
        | some k => reduceGatherFrom P A k (2 ^ K) (rsPieces count (2 ^ K)) ext
            (reduceRealOf (P - 2 ^ K)) root (newRoot P K root) (decide (RootFolded P K root))
            (2 ^ K / 2) (K - 1) sendIdx lastIdx M := by
  obtain ⟨hsum, hoff, -, -⟩ := handOver_range count hK (newRoot P K root)
  simp only [reduceTail, reduceHandOver, hf, decide_true, if_true, halvingFinalIdx_eq, hsum, hoff,
    access_some, Prog.ret_bind]
  split
  · simp only [Prog.bind_assoc, Prog.ret_bind, gatherLoop, hf, decide_true]
  · split
    · simp only [Prog.bind_assoc, Prog.ret_bind]
    · simp only [Prog.ret_bind]

/-- From the reduced pieces in `M` the ranks come to the gather of `W`. -/
def HandsOver (h : Pof2 P K) (hroot : root < P) (ext count : Nat) (acc : Nat → BufId) (m : Nat → Mem) (W : Nat → Bytes)
    (M : Nat → Mem) : Prop :=
  ∃ M', GatherHas h hroot ext count acc m W K M' ∧
    Together P (fun r => if (reduceTeam h).has r = true then
        reduceTail P K r (acc r) count ext root (some ((reduceTeam h).newOf r))
          (first K ((reduceTeam h).newOf r) K) (lastAt K ((reduceTeam h).newOf r) K) (M r)
      else reduceTail P K r (acc r) count ext root none 0 (2 ^ K) (M r))
      (fun r => if (gatherTeam h hroot).has r = true then
        gatherLoop P K ext count root (acc r) ((gatherTeam h hroot).newOf r) K (M' r)
      else .ret (M' r))

theorem handOver_folded {h : Pof2 P K} {hroot : root < P} (hP : 2 ≤ P) (hf : RootFolded P K root)
    (hroom : Room P count ty.size acc m) {W : Nat → Bytes} {M : Nat → Mem}
    (hI : TeamHas (reduceTeam h) ty.size count acc m (eltLo count K · K) (eltHi count K · K)
      (fun _ => W) M) :
    HandsOver h hroot ty.size count acc m W M := by
  have hroom' := hroom.of_work hI.work
  have hK : 1 ≤ K := by
    by_contra h0
    obtain rfl : K = 0 := by omega
    have := h.lt
    rw [Nat.pow_zero] at this
    omega
  have hnr := newRoot_of_folded hf
  obtain ⟨hlt, hodd⟩ := id hf
  obtain ⟨-, -, hhi, hcount⟩ := handOver_range count hK (newRoot P K root)
  have hmono := eltLo_le_eltHi count K (newRoot P K root) K
  generalize hlo : eltLo count K (newRoot P K root) K = lo at *
  generalize hend : pieceOff count (2 ^ K) (lastAt K (newRoot P K root) K) = ende at *
  have hcnt : lo + (ende - lo) ≤ count := by omega
  -- the mate, and who takes part before and after
  have hmate : root - 1 < P ∧ (reduceTeam h).has (root - 1) = true ∧
      (reduceTeam h).newOf (root - 1) = newRoot P K root := by
    refine ⟨by omega, ?_, ?_⟩
    · rw [← Bool.not_eq_false, has_foldTeam_eq_false]
      omega
    · simp only [foldTeam, hnr]
      split_ifs <;> omega
  have hroot_out : (reduceTeam h).has root = false := (has_foldTeam_eq_false h (by omega)).mpr hf
  have hnew : ∀ r, (gatherTeam h hroot).newOf r = (reduceTeam h).newOf r := fun r => rfl
  have hnewroot : (gatherTeam h hroot).newOf root = newRoot P K root := rfl
  have hhas_root : (gatherTeam h hroot).has root = true := by
    simp only [gatherTeam, hf, true_and, true_or, decide_true]
  have hhas_mate : (gatherTeam h hroot).has (root - 1) = false := by
    have hne : root - 1 ≠ root := by omega
    simp [gatherTeam, hf, hne]
  have hhas : ∀ r, r ≠ root → r ≠ root - 1 → (gatherTeam h hroot).has r = (reduceTeam h).has r := by
    intro r h₁ h₂
    simp only [gatherTeam, foldTeam, hf, true_and, h₁, h₂, false_or, not_false_eq_true]
  let M' : Nat → Mem := fun r => if r = root then
    (M r).put (acc r) (lo * ty.size) (slice (M (root - 1) (acc (root - 1))) (lo * ty.size)
      ((ende - lo) * ty.size)) else M r
  have hfr := fits_elts (hroom'.acc root hroot) hcnt
  have hfm := fits_elts (hroom'.acc _ hmate.1) hcnt
  refine ⟨M', ⟨fun r hr => ?_, fun r hr hh _ x h₁ h₂ => ?_⟩, ?_⟩
  · simp only [M']
    split
    · next hrr =>
      subst hrr
      have hend := Nat.mul_le_mul_right ty.size hcnt
      rw [Nat.add_mul] at hend
      exact (hI.work r hr).trans (.of_acc (A := (· < count * ty.size))
        (keeps_put_slice hfr hfm fun x _ h => by omega) fun _ h => h)
    · exact hI.work r hr
  · by_cases hrr : r = root
    · subst hrr
      simp only [M', if_true]
      rw [hnewroot] at h₁ h₂
      rw [elt_put_in hfr hfm (by omega) (by omega)]
      exact hI.value _ hmate.1 hmate.2.1 x (by rw [hmate.2.2]; exact h₁) (by rw [hmate.2.2]; exact h₂)
    · have hrm : r ≠ root - 1 := by
        rintro rfl
        rw [hhas_mate] at hh
        cases hh
      simp only [M', if_neg hrr]
      exact hI.value r hr ((hhas r hrr hrm).symm.trans hh) x h₁ h₂
  · refine Together.deliver (m := M) (fun r => r = root - 1) (fun r => r = root) hP
      (fun r => ⟨root, acc r, lo * ty.size, (ende - lo) * ty.size⟩)
      (fun r => ⟨root - 1, acc r, lo * ty.size, (ende - lo) * ty.size⟩)
      (fun r x => gatherLoop P K ty.size count root (acc r) (newRoot P K root) K x.2)
      ?_ ?_ ?_ ?_ ?_ ?_ ?_ ?_ ?_ ?_
    · rintro r hr rfl
      exact ⟨hroot, rfl, rfl⟩
    · rintro r hr rfl
      exact ⟨hmate.1, rfl, rfl⟩
    · rintro r hr rfl
      omega
    · rintro r hr rfl
      exact hfm
    · rintro r hr rfl
      exact hfr
    · exact fun _ _ _ => Nat.le_refl _
    · rintro r hr rfl
      simp only [hmate.2.1, if_true, hhas_mate, Bool.false_eq_true, if_false, M',
        reduceTail_folded hf hK, hlo, hend, if_neg (show root - 1 ≠ root by omega)]
    · rintro r hr rfl
      simp only [hroot_out, Bool.false_eq_true, if_false, reduceTail_folded hf hK, hlo, hend, if_true]
    · rintro r hr rfl
      simp only [hhas_root, if_true, M', hnewroot, Tx.data]
    · intro r hr h₁ h₂
      simp only [hhas r h₂ h₁, reduceTail_folded hf hK, if_neg h₁, if_neg h₂, M']
      rfl

theorem reduceHandOver_together {h : Pof2 P K} (hroot : root < P) (hP : 2 ≤ P)
    (hroom : Room P count ty.size acc m) {W : Nat → Bytes} {M : Nat → Mem}
    (hI : TeamHas (reduceTeam h) ty.size count acc m (eltLo count K · K) (eltHi count K · K)
      (fun _ => W) M) :
    HandsOver h hroot ty.size count acc m W M := by
  by_cases hf : RootFolded P K root
  · exact handOver_folded hP hf hroom hI
  · have hhas : ∀ r, (gatherTeam h hroot).has r = (reduceTeam h).has r := fun r => by
      simp only [gatherTeam, foldTeam, hf, false_and, false_or, not_false_eq_true, true_and]
    refine ⟨M, ⟨hI.work, fun r hr hh _ => hI.value r hr ((hhas r).symm.trans hh)⟩,
      .of_eq fun r hr => ?_⟩
    rw [hhas]
    split
    · simp only [reduceTail, reduceHandOver, gatherLoop, hf, decide_false, Bool.false_eq_true, if_false,
        Prog.ret_bind]
      rfl
    · simp only [reduceTail, reduceHandOver, hf, decide_false, Bool.false_eq_true, if_false,
        Prog.ret_bind]

/-! ## The call -/

theorem gatherTop_eq {j : Nat} (hj : j ≤ K) : gatherTop (2 ^ K) j = K := by
  induction hd : K - j generalizing j with
  | zero =>
    obtain rfl : j = K := by omega
    rw [gatherTop, if_neg (Nat.lt_irrefl _)]
  | succ d ih =>
    rw [gatherTop, if_pos (lt_pof2_iff.mpr (by omega))]
    exact ih (by omega) (by omega)

/-- The code of rank `r`, by what becomes of it in the fold. -/
theorem reduceScatterGather_eq (rt : Runtime) (h : Pof2 P K) (hfloor : pof2Floor P = 2 ^ K)
    {r ext : Nat} {A : BufId} (M : Mem) :
    reduceScatterGather c rt P r A count ext root M =
      let M := scratchOrVec rt 0 (if count * ext ≠ 0 then count * ext else 1) M
      let core := fun M => reduceScatterHalving c P A (.scratch 0) ((reduceTeam h).newOf r) (2 ^ K)
        (rsPieces count (2 ^ K)) ext (reduceRealOf (P - 2 ^ K)) M >>= fun x =>
        reduceTail P K r A count ext root (some ((reduceTeam h).newOf r)) x.1 x.2.1 x.2.2
      if (reducePairing h).paired r then
        if (reduceTeam h).has r then
          recvBytes P M (.scratch 0) 0 (count * ext) ((reducePairing h).mate r) >>= fun x =>
            access (reduceLocal c.fp x.2 (.scratch 0) 0 A 0 count c.dt c.op) >>= core
        else sendBytes P M A 0 (count * ext) ((reducePairing h).mate r) 0 >>= fun _ =>
          reduceTail P K r A count ext root none 0 (2 ^ K) M
      else core M := by
  have hfold : (decide (root < 2 * (P - 2 ^ K)) && decide (root % 2 ≠ 0))
      = decide (RootFolded P K root) := (Bool.decide_and ..).symm
  simp only [reduceScatterGather, hfloor, reduceFold, foldPairing, foldTeam, decide_eq_true_eq, hfold,
    gatherTop_eq (Nat.zero_le K)]
  by_cases hlt : r < 2 * (P - 2 ^ K)
  · by_cases heven : r % 2 = 0
    · simp only [hlt, heven, ne_eq, not_true_eq_false, and_false, not_false_eq_true, if_true, if_false,
        Prog.bind_assoc, Prog.ret_bind]
      rfl
    · simp only [hlt, heven, ne_eq, not_false_eq_true, and_self, not_true_eq_false, if_true, if_false,
        Prog.bind_assoc, Prog.ret_bind]
      rfl
  · simp only [hlt, if_false, Prog.ret_bind]
    rfl

/-- A reduction on `acc`, with a temporary in scratch 0: whatever the ranks `run`, the root ends with a combination of all
vectors. -/
def RootReduces (P count root ext : Nat) (f : Bytes → Bytes → Bytes) (acc : Nat → BufId) (rt : Nat → Runtime)
    (m : Nat → Mem) (run : Nat → Rank Mem) : Prop :=
  ∃ M : Nat → Mem,
    (∀ r, r < P → Work (acc r) (count * ext)
      (scratchOrVec (rt r) 0 (if count * ext ≠ 0 then count * ext else 1) (m r)) (M r)) ∧
    (∀ x, x < count → Reduces f (fun s => elt ext (m s (acc s)) x) (Finset.range P) (elt ext (M root (acc root)) x)) ∧
    Together P run fun r => .ret (M r)

/-- **Reduce-scatter and gather.** The root ends with a combination of all vectors. -/
theorem reduceScatterGather_together (rt : Nat → Runtime) (hP : 2 ≤ P) (hroot : root < P)
    (hc : RedOk c ty f) (hne : ∀ r, r < P → acc r ≠ .scratch 0)
    (hlen : ∀ r, r < P → count * ty.size ≤ (m r (acc r)).length) :
    RootReduces P count root ty.size f acc rt m fun r => reduceScatterGather c (rt r) P r (acc r) count ty.size root (m r) := by
  obtain ⟨K, hfloor, h⟩ := pof2_of_floor (P := P) (by omega)
  have hroom := room_scratch rt acc hne hlen
  obtain ⟨M₁, hw₁, hrest₁, hred, hfold⟩ := fold_together (reducePairing h) hP hc hroom
    (fun r M => reduceScatterHalving c P (acc r) (.scratch 0) ((reduceTeam h).newOf r) (2 ^ K)
      (rsPieces count (2 ^ K)) ty.size (reduceRealOf (P - 2 ^ K)) M >>= fun x =>
      reduceTail P K r (acc r) count ty.size root (some ((reduceTeam h).newOf r)) x.1 x.2.1 x.2.2)
    (fun r => reduceTail P K r (acc r) count ty.size root none 0 (2 ^ K)
      (scratchOrVec (rt r) 0 (if count * ty.size ≠ 0 then count * ty.size else 1) (m r)))
  have hroom₁ := hroom.of_work hw₁
  obtain ⟨M₂, hM₂, hhalf⟩ := halving_together (T := reduceTeam h) hP hc hroom₁
    (fun r x => reduceTail P K r (acc r) count ty.size root (some ((reduceTeam h).newOf r)) x.1 x.2.1
      x.2.2)
    (fun r => reduceTail P K r (acc r) count ty.size root none 0 (2 ^ K)
      (scratchOrVec (rt r) 0 (if count * ty.size ≠ 0 then count * ty.size else 1) (m r)))
  obtain ⟨W, hW, hone⟩ := exists_pieces count K (teamValue (reduceTeam h) f ty.size acc M₁ K)
  obtain ⟨M₃, hM₃, hover⟩ := reduceHandOver_together hroot hP hroom₁ (W := W) (M := M₂)
    ⟨hM₂.work, hM₂.rest, fun r hr hh x hlo hhi => by
      rw [hM₂.value r hr hh x hlo hhi, hW _ ((reduceTeam h).newOf_lt r hr hh) x hlo hhi]⟩
  obtain ⟨M₄, hw₄, hval, hgather⟩ := gatherLoop_together hP hroom₁ hM₃
  refine ⟨M₄, fun r hr => (hw₁ r hr).trans (hw₄ r hr), fun x hx => ?_,
    .trans (.of_eq fun r hr => ?_) (hfold.trans (.trans hhalf (.trans (.of_eq fun r hr => ?_)
      (hover.trans hgather))))⟩
  · obtain ⟨i, hi, hV⟩ := hone x
    rw [hval x hx, hV]
    refine (reduces_teamValue (reducePairing h) (fun j hj => hred j hj x hx) hi).of_eqOn fun s hs => ?_
    rw [scratchOrVec_ne _ _ _ _ (hne s (Finset.mem_range.mp hs))]
  · exact reduceScatterGather_eq (rt r) h hfloor (m r)
  · split
    · rfl
    · next hh =>
      rw [Bool.not_eq_true] at hh
      rw [hM₂.rest r hr hh, hrest₁ r hr hh]

theorem reduceBinomial_together (rt : Nat → Runtime) (hP : 2 ≤ P) (hroot : root < P)
    (hc : RedOk c ty f) (hne : ∀ r, r < P → acc r ≠ .scratch 0)
    (hlen : ∀ r, r < P → count * ty.size ≤ (m r (acc r)).length) :
    RootReduces P count root ty.size f acc rt m fun r => reduceBinomial c (rt r) P r (acc r) count ty.size root (m r) := by
  obtain ⟨M, hw, hred, hrun⟩ := reduceBinomialFrom_together hP hroot hc (room_scratch rt acc hne hlen)
  refine ⟨M, hw, fun x hx => (hred x hx).of_eqOn fun s hs => ?_, hrun⟩
  rw [scratchOrVec_ne _ _ _ _ (hne s (Finset.mem_range.mp hs))]

/-- The buffers of a reduce: room for the result at the root, and a vector on every
rank, which the root may have in place. -/
structure ReduceArgs (P k n root : Nat) (m : Nat → Mem) (sendbuf recvbuf : Nat → Arg) : Prop where
  recv : recvbuf root = .buf (.user k)
  room : n ≤ (m root (.user k)).length
  inPlace : sendbuf root = .inPlace ∨ ∃ j, sendbuf root = .buf (.user j) ∧ Fits (m root (.user j)) 0 n
  send : ∀ r, r < P → r ≠ root → ∃ j, sendbuf r = .buf (.user j) ∧ Fits (m r (.user j)) 0 n

theorem mpiReduce_together {k : Nat} {sendbuf recvbuf : Nat → Arg} (rt : Nat → Runtime) (hP : 2 ≤ P)
    (hroot : root < P) (hc : RedOk c ty f)
    (h : ReduceArgs P k (count * ty.size) root m sendbuf recvbuf) :
    ∃ M : Nat → Mem, UserKeeps k (· < count * ty.size) (m root) (M root) ∧
      (∀ r, r < P → r ≠ root → ∀ j, M r (.user j) = m r (.user j)) ∧
      (∀ x, x < count → Reduces f
        (fun s => elt ty.size (ownBlock (m s) (sendbuf s) (.user k) 0 (count * ty.size)) x)
        (Finset.range P) (elt ty.size (M root (.user k)) x)) ∧
      Together P (fun r => mpiReduce c (rt r) P r (m r) (sendbuf r) (recvbuf r) count root)
        (fun r => .ret (M r)) := by
  let acc : Nat → BufId := fun r => if r = root then .user k else .scratch 1
  let m₁ : Nat → Mem := fun r => if r = root then m r
    else scratchOrVec (rt r) 1 (if count * ty.size ≠ 0 then count * ty.size else 1) (m r)
  have hacc : ∀ r, r ≠ root → acc r = .scratch 1 := fun r hr => if_neg hr
  have hacc_root : acc root = .user k := if_pos rfl
  have huser : ∀ r j, m₁ r (.user j) = m r (.user j) := fun r j => by
    simp only [m₁]
    split
    · rfl
    · exact scratchOrVec_ne _ _ _ _ (by simp)
  have hne : ∀ r, r < P → acc r ≠ .scratch 0 := fun r _ => by
    simp only [acc]
    split <;> simp
  have hlen : ∀ r, r < P → count * ty.size ≤ (m₁ r (acc r)).length := fun r _ => by
    by_cases hr : r = root
    · subst hr
      rw [hacc_root, huser]
      exact h.room
    · rw [hacc r hr]
      simp only [m₁, if_neg hr]
      exact Nat.le_trans (by split <;> omega) (le_length_scratchOrVec ..)
  have hsend : ∀ r, r < P → ∀ b, sendbuf r = .buf b → Fits (m₁ r b) 0 (count * ty.size) := by
    intro r hr b hb
    have hbuf : ∃ j, sendbuf r = .buf (.user j) ∧ Fits (m r (.user j)) 0 (count * ty.size) := by
      by_cases hrr : r = root
      · subst hrr
        exact h.inPlace.resolve_left (by rw [hb]; simp)
      · exact h.send r hr hrr
    obtain ⟨j, hj, hfit⟩ := hbuf
    obtain rfl : b = .user j := by rw [hb] at hj; simpa using hj
    rw [huser]
    exact hfit
  have hload := fun r hr => copyIn_spec (hlen r hr) (hsend r hr)
  choose! m₂ hm₂ hk₂ hown using hload
  have hown' : ∀ r, r < P → slice (m₂ r (acc r)) 0 (count * ty.size)
      = ownBlock (m r) (sendbuf r) (.user k) 0 (count * ty.size) := fun r hr => by
    rw [hown r hr]
    by_cases hrr : r = root
    · subst hrr
      rw [hacc_root]
      simp only [m₁, if_true]
    · obtain ⟨j, hj, -⟩ := h.send r hr hrr
      rw [hj]
      simp only [ownBlock, huser]
  have hlen₂ : ∀ r, r < P → count * ty.size ≤ (m₂ r (acc r)).length := fun r hr => by
    rw [(hk₂ r hr).len]
    exact hlen r hr
  -- both algorithms do the same for the caller
  have halg : RootReduces P count root ty.size f acc rt m₂ fun r =>
      if count * ty.size > kReduceShort ∧ count ≥ pof2Floor P then
        reduceScatterGather c (rt r) P r (acc r) count ty.size root (m₂ r)
      else reduceBinomial c (rt r) P r (acc r) count ty.size root (m₂ r) := by
    by_cases hlong : count * ty.size > kReduceShort ∧ count ≥ pof2Floor P
    · simp only [if_pos hlong]
      exact reduceScatterGather_together rt hP hroot hc hne hlen₂
    · simp only [if_neg hlong]
      exact reduceBinomial_together rt hP hroot hc hne hlen₂
  obtain ⟨M, hw, hred, hrun⟩ := halg
  refine ⟨M, ?_, fun r hr hrr j => ?_, fun x hx => ?_, .trans (.of_eq fun r hr => ?_) hrun⟩
  · have hwr := hw root hroot
    have hkr := hk₂ root hroot
    rw [hacc_root] at hwr hkr
    have hload : UserKeeps k (· < count * ty.size) (m root) (m₂ root) :=
      (UserKeeps.of_eq (huser root)).trans hkr.user
    exact hload.trans (hwr.user fun j => scratchOrVec_ne _ _ _ _ (by simp))
  · rw [(hw r hr).other _ (by rw [hacc r hrr]; simp) (by simp), scratchOrVec_ne _ _ _ _ (by simp),
      (hk₂ r hr).other _ (by rw [hacc r hrr]; simp), huser]
  · rw [← hacc_root]
    refine (hred x hx).of_eqOn fun s hs => ?_
    rw [← elt_slice hx, hown' s (Finset.mem_range.mp hs), hacc_root]
  · have hcopy : ¬ (r ≠ root ∧ sendbuf r = .inPlace) := by
      rintro ⟨hrr, hin⟩
      obtain ⟨j, hj, -⟩ := h.send r hr hrr
      rw [hin] at hj
      cases hj
    have hstart : reduceAcc (rt r) (decide (r = root)) (recvbuf r) (count * ty.size) (m r)
        = some (acc r, m₁ r) := by
      by_cases hrr : r = root
      · subst hrr
        simp only [reduceAcc, decide_true, if_true, h.recv, acc, m₁]
      · simp only [reduceAcc, hrr, decide_false, Bool.false_eq_true, if_false, acc, m₁]
    rw [mpiReduce, sized_of_redType hc.type, access_some, Prog.ret_bind]
    simp only [if_neg (show ¬ P ≤ 1 by omega), hstart, access_some, Prog.ret_bind, if_neg hcopy, hm₂ r hr]

end

/-- **MPI_Reduce.** Whatever the interleaving and whichever algorithm, the root's buffer
ends as the reduction of all vectors, element by element; no buffer of any other rank
changes, and nothing stays in flight. -/
theorem mpiReduce_completes {P k count root : Nat} {c : RedArgs} {ty : RedType} {o : RedOp}
    {g : BitVec (8 * ty.size) → BitVec (8 * ty.size) → BitVec (8 * ty.size)} {m : Nat → Mem}
    {sendbuf recvbuf : Nat → Arg} (rt : Nat → Runtime) (hP : 2 ≤ P) (hroot : root < P)
    (hty : redType c.dt = some ty) (hint : ty.isInt = true) (hop : redOp c.op = some o)
    (hg : redInt (intArith (8 * ty.size) ty.signed) o = some g)
    (h : ReduceArgs P k (count * ty.size) root m sendbuf recvbuf) :
    ∃ M : Nat → Mem,
      Completes (world P (fun r => mpiReduce c (rt r) P r (m r) (sendbuf r) (recvbuf r) count root) m) M ∧
      (∀ x, x < count → elem ty.size (elt ty.size (M root (.user k)) x)
        = reduceAll g (fun s => elem ty.size (elt ty.size
          (ownBlock (m s) (sendbuf s) (.user k) 0 (count * ty.size)) x)) (P - 1)) ∧
      UserKeeps k (· < count * ty.size) (m root) (M root) ∧
      ∀ r, r < P → r ≠ root → ∀ j, M r (.user j) = m r (.user j) := by
  have hf : combine c.fp ty o = some (onBytes ty.size g) := by
    rw [combine_int o hint, hg, Option.map_some]
  obtain ⟨M, hkeep, hother, hred, hrun⟩ :=
    mpiReduce_together rt hP hroot ⟨hty, o, hop, hf⟩ h
  refine ⟨_, hrun.completes, fun x hx => ?_, ?_, fun r hr hrr j => ?_⟩
  · have hall := hred x hx
    rw [show P = P - 1 + 1 by omega] at hall
    simp only [if_pos hroot]
    exact elem_of_reduces hint hf hg hall
  · simp only [if_pos hroot]
    exact hkeep
  · simp only [if_pos hr]
    exact hother r hr hrr j

theorem mpiReduce_completes_three_ranks :
    ∃ M : Nat → Mem,
      Completes (world 3 (fun r => mpiReduce ⟨⟨intArith _ true, intArith _ true⟩, 8, 1⟩
        ⟨false, fun c => Vector.replicate c 0⟩ 3 r (fun _ => [UInt8.ofNat r + 100]) (.buf (.user 0))
        (.buf (.user 1)) 1 1) fun r _ => [UInt8.ofNat r + 100]) M ∧
      elem 1 (elt 1 (M 1 (.user 1)) 0) = 47 := by
  obtain ⟨M, hM, hval, -⟩ := @mpiReduce_completes 3 1 1 1
    ⟨⟨intArith _ true, intArith _ true⟩, 8, 1⟩ .u8 .sum _ (fun r _ => [UInt8.ofNat r + 100])
    (fun _ => .buf (.user 0)) (fun _ => .buf (.user 1))
    (fun _ => ⟨false, fun c => Vector.replicate c 0⟩) (by decide) (by decide) rfl rfl rfl rfl
    ⟨rfl, Nat.le_refl 1, .inr ⟨0, rfl, .of_le (Nat.le_refl 1)⟩,
      fun _ _ _ => ⟨0, rfl, .of_le (Nat.le_refl 1)⟩⟩
  exact ⟨M, hM, hval 0 (by decide)⟩

end Pimid.Mpi
