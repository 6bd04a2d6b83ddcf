import Pimid.Lib.Blocks
import Pimid.Mpi.Datatype
import Pimid.Mpi.Tree

/-!
# MPI_Allgather and MPI_Allgatherv

Both end in `allgatherv_bytes`: rank `j` contributes `cnt[j]` bytes, which every
rank wants at `rbuf + dsp[j]`. Three algorithms. Recursive doubling works on a
buffer laid out by rank — the receive buffer itself if the displacements are
that layout, a scratch buffer otherwise — and tracks what it holds only through
the bytes it has received. Bruck works on a stack buffer in which each rank's
own block comes first, so sender and receiver measure the same message in two
different layouts. The ring works on the receive buffer.
-/

namespace Pimid.Mpi

open Pimid.Net

def kAllgatherShort : Nat := 81920
def kAllgatherLong : Nat := 524288

/-! ## The code -/

/-- The exchanges of `allgatherv_rd` from `mask = 2 ^ i` on, on the buffer `w + wo`. -/
def allgathervRdFrom (P rank : Nat) (w : BufId) (wo : Nat) (cnt : Nat → Nat) (i curr : Nat)
    (m : Mem) : Rank Mem :=
  if 2 ^ i < P then do
    let pos := prefixSum cnt
    let dst := rank ^^^ 2 ^ i
    let dtr := (dst >>> i) <<< i
    let mtr := (rank >>> i) <<< i
    let (got, m) ← xchgBytes P m w (wo + pos mtr) curr dst w (wo + pos dtr) (pos P - pos dtr) dst
    allgathervRdFrom P rank w wo cnt (i + 1) (curr + got) m
  else .ret m
termination_by P - i
decreasing_by
  have := Nat.lt_two_pow_self (n := i)
  omega

/-- Whether the displacements are the layout by rank. -/
def contiguous (P : Nat) (cnt dsp : Nat → Nat) : Bool :=
  (List.range P).all fun j => dsp j == dsp 0 + prefixSum cnt j

def allgathervRd (rt : Runtime) (P rank : Nat) (m : Mem) (rbuf : BufId) (cnt dsp : Nat → Nat) :
    Rank Mem :=
  let pos := prefixSum cnt
  if contiguous P cnt dsp then allgathervRdFrom P rank rbuf (dsp 0) cnt 0 (cnt rank) m
  else do
    let m := scratchOrVec rt 0 (if pos P ≠ 0 then pos P else 1) m
    let m ← access (m.copy (.scratch 0) (pos rank) rbuf (dsp rank) (cnt rank))
    let m ← allgathervRdFrom P rank (.scratch 0) 0 cnt 0 (cnt rank) m
    access (copyBlocks (· != rank) rbuf dsp (.scratch 0) pos cnt P 0 m)

/-- The exchanges of `allgatherv_bruck` from `pof2 = 2 ^ i` on; returns the last `pof2`. -/
def allgathervBruckFrom (P rank : Nat) (rpos : Nat → Nat) (i : Nat) (m : Mem) : Rank (Nat × Mem) :=
  if 2 ^ i ≤ P / 2 then do
    let (_, m) ← xchgBytes P m .stack 0 (rpos (2 ^ i)) ((rank + P - 2 ^ i) % P)
      .stack (rpos (2 ^ i)) (rpos (2 * 2 ^ i) - rpos (2 ^ i)) ((rank + 2 ^ i) % P)
    allgathervBruckFrom P rank rpos (i + 1) m
  else .ret (2 ^ i, m)
termination_by P - i
decreasing_by
  have := Nat.lt_two_pow_self (n := i)
  omega

/-- The work buffer is the rank's own stack array of `kAllgatherShort` bytes; block
`j` of it is that of rank `(rank + j) % P`. -/
def allgathervBruck (rt : Runtime) (P rank : Nat) (m : Mem) (rbuf : BufId) (cnt dsp : Nat → Nat) :
    Rank Mem := do
  let rpos := prefixSum fun j => cnt ((rank + j) % P)
  let m : Mem := Function.update m .stack (rt.fresh kAllgatherShort).toList
  let m ← access (m.copy .stack 0 rbuf (dsp rank) (cnt rank))
  let (pof2, m) ← allgathervBruckFrom P rank rpos 0 m
  let rem := P - pof2
  let m ← if rem ≠ 0 then do
      let (_, m) ← xchgBytes P m .stack 0 (rpos rem) ((rank + P - pof2) % P)
        .stack (rpos pof2) (rpos (pof2 + rem) - rpos pof2) ((rank + pof2) % P)
      .ret m
    else .ret m
  access (copyBlocks (fun _ => true) rbuf (fun j => dsp ((rank + j) % P)) .stack rpos
    (fun j => cnt ((rank + j) % P)) P 1 m)

/-- The ring of `allgatherv_ring`: step `i`, sending block `j`, receiving block `jnext`. -/
def allgathervRingFrom (P rank : Nat) (rbuf : BufId) (cnt dsp : Nat → Nat) (i j jnext : Nat)
    (m : Mem) : Rank Mem :=
  if i < P then do
    let left := (P + rank - 1) % P
    let right := (rank + 1) % P
    let (_, m) ← xchgBytes P m rbuf (dsp j) (cnt j) right rbuf (dsp jnext) (cnt jnext) left
    allgathervRingFrom P rank rbuf cnt dsp (i + 1) jnext ((P + jnext - 1) % P) m
  else .ret m
termination_by P - i

def allgathervRing (P rank : Nat) (m : Mem) (rbuf : BufId) (cnt dsp : Nat → Nat) : Rank Mem :=
  allgathervRingFrom P rank rbuf cnt dsp 1 rank ((P + rank - 1) % P) m

/-- The rank's own contribution put into its receive buffer. -/
def allgatherOwn (rank : Nat) (m : Mem) (sendbuf : Arg) (sbytes : Nat) (rbuf : BufId)
    (cnt dsp : Nat → Nat) : Option Mem :=
  match sendbuf with
  | .buf b => m.copy rbuf (dsp rank) b 0 (if sbytes < cnt rank then sbytes else cnt rank)
  | _ => some m

def allgathervBytes (rt : Runtime) (P rank : Nat) (m : Mem) (sendbuf : Arg) (sbytes : Nat)
    (rbuf : BufId) (cnt dsp : Nat → Nat) : Rank Mem := do
  let m ← access (allgatherOwn rank m sendbuf sbytes rbuf cnt dsp)
  if P ≤ 1 then .ret m
  else
    let total := prefixSum cnt P
    if total < kAllgatherLong ∧ isPof2 P then allgathervRd rt P rank m rbuf cnt dsp
    else if total < kAllgatherShort then allgathervBruck rt P rank m rbuf cnt dsp
    else allgathervRing P rank m rbuf cnt dsp

def mpiAllgather (rt : Runtime) (P rank : Nat) (m : Mem) (sendbuf : Arg) (sendcount sendtype : Nat)
    (recvbuf : BufId) (recvcount recvtype : Nat) : Rank Mem := do
  let ext ← access (dtypeSize recvtype)
  let blk := recvcount * ext
  let sb ← if sendbuf = .inPlace then .ret 0 else do
    let sext ← access (dtypeSize sendtype)
    .ret (sendcount * sext)
  allgathervBytes rt P rank m sendbuf sb recvbuf (fun _ => blk) (fun j => j * blk)

def mpiAllgatherv (rt : Runtime) (P rank : Nat) (m : Mem) (sendbuf : Arg)
    (sendcount sendtype : Nat) (recvbuf : BufId) (recvcounts displs : Nat → Nat) (recvtype : Nat) :
    Rank Mem := do
  let ext ← access (dtypeSize recvtype)
  let sb ← if sendbuf = .inPlace then .ret 0 else do
    let sext ← access (dtypeSize sendtype)
    .ret (sendcount * sext)
  allgathervBytes rt P rank m sendbuf sb recvbuf (fun j => recvcounts j * ext)
    (fun j => displs j * ext)

/-! ## Recursive doubling -/

section

variable {P : Nat} {m : Nat → Mem} {w : BufId} {wo : Nat} {cnt : Nat → Nat} {D : Bytes}

/-- The bytes of the `2 ^ i` blocks around `x`, as a stretch of the layout. -/
def runLen (cnt : Nat → Nat) (x i : Nat) : Nat :=
  prefixSum cnt (blockStart x i + 2 ^ i) - prefixSum cnt (blockStart x i)

/-- Where rank `r` is before exchange `i`, knowing how many bytes it holds. -/
def allgathervRdAt (P : Nat) (w : BufId) (wo : Nat) (cnt : Nat → Nat) (i : Nat) (M : Nat → Mem)
    (r : Nat) : Rank Mem :=
  allgathervRdFrom P r w wo cnt i (runLen cnt r i) (M r)

/-- Before exchange `i` rank `r` holds the blocks of the `2 ^ i` ranks around it. -/
structure RdHolds (P : Nat) (m : Nat → Mem) (w : BufId) (wo : Nat) (cnt : Nat → Nat) (D : Bytes)
    (i : Nat) (M : Nat → Mem) : Prop where
  keeps : ∀ r, r < P → Keeps w (fun x => wo ≤ x ∧ x < wo + prefixSum cnt P) (m r) (M r)
  holds : ∀ r, r < P → Holds D (M r w) (wo + prefixSum cnt (blockStart r i))
    (wo + prefixSum cnt (blockStart r i + 2 ^ i))

def allgathervRdMem (w : BufId) (wo : Nat) (cnt : Nat → Nat) (D : Bytes) (i : Nat)
    (M : Nat → Mem) (r : Nat) : Mem :=
  (M r).put w (wo + prefixSum cnt (blockStart (r ^^^ 2 ^ i) i))
    (slice D (wo + prefixSum cnt (blockStart (r ^^^ 2 ^ i) i)) (runLen cnt (r ^^^ 2 ^ i) i))

theorem run_end (cnt : Nat → Nat) (wo x i : Nat) :
    wo + prefixSum cnt (blockStart x i) + runLen cnt x i
      = wo + prefixSum cnt (blockStart x i + 2 ^ i) := by
  have := prefixSum_mono cnt (Nat.le_add_right (blockStart x i) (2 ^ i))
  unfold runLen
  omega

theorem fits_run {l : Bytes} {K : Nat} (hpow : P = 2 ^ K) (hl : Fits l wo (prefixSum cnt P))
    {x i : Nat} (hx : x < P) (hi : i ≤ K) :
    Fits l (wo + prefixSum cnt (blockStart x i)) (runLen cnt x i) := by
  refine hl.sub (Nat.le_add_right ..) ?_
  rw [run_end]
  have := prefixSum_mono cnt (hpow ▸ blockStart_add_le (hpow ▸ hx) hi)
  omega

theorem RdHolds.step {K : Nat} (hpow : P = 2 ^ K) (hD : Fits D wo (prefixSum cnt P))
    (hfit : ∀ r, r < P → Fits (m r w) wo (prefixSum cnt P)) {i : Nat} (hi : i < K)
    {M : Nat → Mem} (hI : RdHolds P m w wo cnt D i M) :
    RdHolds P m w wo cnt D (i + 1) (allgathervRdMem w wo cnt D i M) := by
  have hx : ∀ r, r < P → r ^^^ 2 ^ i < P := fun r hr => by
    rw [hpow] at hr ⊢
    exact xor_pow_lt hr hi
  have hf : ∀ r, r < P → _ := fun r hr =>
    fits_run hpow ((hI.keeps r hr).fits (hfit r hr)) (hx r hr) (Nat.le_of_lt hi)
  have hf' : ∀ r, r < P → _ := fun r hr => fits_run hpow hD (hx r hr) (Nat.le_of_lt hi)
  constructor
  · intro r hr
    refine (hI.keeps r hr).trans (keeps_put_slice (hf r hr) (hf' r hr) fun x hlo hhi => ?_)
    rw [run_end] at hhi
    have := prefixSum_mono cnt (hpow ▸ blockStart_add_le (hpow ▸ hx r hr) (Nat.le_of_lt hi))
    omega
  · intro r hr
    have hnew := holds_put (hf r hr) (hf' r hr)
    rw [run_end] at hnew
    have hold := (hI.holds r hr).put (hf r hr) (hf' r hr)
    rw [Nat.pow_succ', Nat.two_mul, ← Nat.add_assoc]
    rcases blockStart_cases r i with ⟨-, hb, hbase⟩ | ⟨-, hb, hbase⟩
    · rw [hbase, ← hb]
      refine Holds.join ?_ hnew
      rw [hb]
      exact hold
    · rw [hbase, ← hb]
      refine Holds.join ?_ hold
      rw [hb]
      exact hnew

theorem runLen_succ (cnt : Nat → Nat) (x i : Nat) :
    runLen cnt x i + runLen cnt (x ^^^ 2 ^ i) i = runLen cnt x (i + 1) := by
  have h₁ := run_end cnt 0 x i
  have h₂ := run_end cnt 0 (x ^^^ 2 ^ i) i
  have h₃ := run_end cnt 0 x (i + 1)
  have hpow : 2 ^ (i + 1) = 2 ^ i + 2 ^ i := by rw [Nat.pow_succ', Nat.two_mul]
  rcases blockStart_cases x i with ⟨-, hb, hbase⟩ | ⟨-, hb, hbase⟩
  · rw [hbase, hpow, ← Nat.add_assoc] at h₃
    rw [hb] at h₂
    omega
  · rw [hbase, hpow, ← Nat.add_assoc, ← hb] at h₃
    rw [hb] at h₁
    rw [hb] at h₃
    omega

theorem run_apart (cnt : Nat → Nat) (wo x i : Nat) :
    Apart (wo + prefixSum cnt (blockStart x i)) (runLen cnt x i)
      (wo + prefixSum cnt (blockStart (x ^^^ 2 ^ i) i)) (runLen cnt (x ^^^ 2 ^ i) i) := by
  have h₁ := run_end cnt wo x i
  have h₂ := run_end cnt wo (x ^^^ 2 ^ i) i
  unfold Apart
  rcases blockStart_cases x i with ⟨-, hb, -⟩ | ⟨-, hb, -⟩
  · rw [hb] at h₂ ⊢
    omega
  · rw [hb] at h₁ ⊢
    omega

theorem allgathervRdAt_step {K : Nat} (hP : 2 ≤ P) (hpow : P = 2 ^ K)
    (hfit : ∀ r, r < P → Fits (m r w) wo (prefixSum cnt P)) {i : Nat} (hi : i < K)
    {M : Nat → Mem} (hI : RdHolds P m w wo cnt D i M) :
    Together P (allgathervRdAt P w wo cnt i M)
      (allgathervRdAt P w wo cnt (i + 1) (allgathervRdMem w wo cnt D i M)) := by
  have hmask : 2 ^ i < P := by
    rw [hpow]
    exact Nat.pow_lt_pow_right (by omega) hi
  have hx : ∀ r, r < P → r ^^^ 2 ^ i < P := fun r hr => by
    rw [hpow] at hr ⊢
    exact xor_pow_lt hr hi
  have hback : ∀ r, r ^^^ 2 ^ i ^^^ 2 ^ i = r := fun r => by
    rw [Nat.xor_assoc, Nat.xor_self, Nat.xor_zero]
  refine Together.exchange (m := M) (fun _ => True) hP
    (fun r => ⟨r ^^^ 2 ^ i, w, wo + prefixSum cnt (blockStart r i), runLen cnt r i⟩)
    (fun r => ⟨r ^^^ 2 ^ i, w, wo + prefixSum cnt (blockStart (r ^^^ 2 ^ i) i),
      prefixSum cnt P - prefixSum cnt (blockStart (r ^^^ 2 ^ i) i)⟩)
    (fun r x => allgathervRdFrom P r w wo cnt (i + 1) (runLen cnt r i + x.1) x.2)
    ?_ ?_ ?_ ?_ ?_ ?_ ?_ ?_ ?_
  · exact fun r hr _ => ⟨hx r hr, trivial, hback r⟩
  · exact fun r hr _ => ⟨hx r hr, trivial, hback r⟩
  · exact fun r hr _ => fits_run hpow ((hI.keeps r hr).fits (hfit r hr)) hr (Nat.le_of_lt hi)
  · exact fun r hr _ =>
      fits_run hpow ((hI.keeps r hr).fits (hfit r hr)) (hx r hr) (Nat.le_of_lt hi)
  · intro r hr _
    have hend := run_end cnt 0 (r ^^^ 2 ^ i) i
    have := prefixSum_mono cnt (hpow ▸ blockStart_add_le (hpow ▸ hx r hr) (Nat.le_of_lt hi))
    dsimp only
    omega
  · exact fun r _ _ => .inr (run_apart ..)
  · intro r hr _
    rw [allgathervRdAt, allgathervRdFrom, if_pos hmask]
    simp only [shift_base]
  · intro r hr _
    have hslice := (hI.holds _ (hx r hr)).slice_eq
      (o := wo + prefixSum cnt (blockStart (r ^^^ 2 ^ i) i)) (n := runLen cnt (r ^^^ 2 ^ i) i)
      (.inr ⟨Nat.le_refl _, Nat.le_of_eq (run_end ..)⟩)
    simp only [allgathervRdAt, allgathervRdMem, Tx.data, runLen_succ, hslice]
  · exact fun r _ h => absurd trivial h

/-- Recursive doubling on a buffer laid out by rank gives every rank all of it. -/
theorem allgathervRdFrom_together {K : Nat} (hP : 2 ≤ P) (hpow : P = 2 ^ K)
    (hD : Fits D wo (prefixSum cnt P)) (hfit : ∀ r, r < P → Fits (m r w) wo (prefixSum cnt P))
    (hown : ∀ r, r < P → Holds D (m r w) (wo + prefixSum cnt r) (wo + prefixSum cnt (r + 1))) :
    ∃ M : Nat → Mem, (∀ r, r < P → Keeps w (fun x => wo ≤ x ∧ x < wo + prefixSum cnt P) (m r) (M r) ∧
        Holds D (M r w) wo (wo + prefixSum cnt P)) ∧
      Together P (fun r => allgathervRdFrom P r w wo cnt 0 (cnt r) (m r))
        (fun r => .ret (M r)) := by
  have hinit : RdHolds P m w wo cnt D 0 m := by
    refine ⟨fun _ _ => .refl .., fun r hr => ?_⟩
    rw [blockStart_zero]
    exact hown r hr
  obtain ⟨M, hM, hrun⟩ := Together.ascend (P := P) (n := K) (allgathervRdAt P w wo cnt)
    (RdHolds P m w wo cnt D)
    (fun i M hi hI => ⟨_, hI.step hpow hD hfit hi, allgathervRdAt_step hP hpow hfit hi hI⟩) hinit
  refine ⟨M, fun r hr => ⟨hM.keeps r hr, ?_⟩, .trans (.of_eq fun r hr => ?_)
    (hrun.trans (.of_eq fun r hr => ?_))⟩
  · have := hM.holds r hr
    rw [blockStart_of_lt (hpow ▸ hr), Nat.zero_add, ← hpow] at this
    exact this
  · have : runLen cnt r 0 = cnt r := by
      rw [runLen, blockStart_zero, Nat.pow_zero, prefixSum]
      omega
    rw [allgathervRdAt, this]
  · rw [allgathervRdAt, allgathervRdFrom, if_neg (by omega)]

end

/-! ## Who ends with what -/

/-- The bytes of the receive buffer that belong to some rank's block. -/
def InBlocks (P : Nat) (cnt dsp : Nat → Nat) (x : Nat) : Prop :=
  ∃ j, j < P ∧ dsp j ≤ x ∧ x < dsp j + cnt j

/-- The blocks of different ranks do not overlap. -/
def Separate (P : Nat) (cnt dsp : Nat → Nat) : Prop :=
  ∀ i j, i < P → j < P → i ≠ j → Apart (dsp i) (cnt i) (dsp j) (cnt j)

/-- What the three algorithms start from: room for every block, and the rank's own
block `B r` in place. -/
structure Ready (P k : Nat) (cnt dsp : Nat → Nat) (B : Nat → Bytes) (m : Nat → Mem) : Prop where
  fits : ∀ r, r < P → ∀ j, j < P → Fits (m r (.user k)) (dsp j) (cnt j)
  own : ∀ r, r < P → slice (m r (.user k)) (dsp r) (cnt r) = B r
  size : ∀ j, j < P → (B j).length = cnt j

/-- What they end with: every block in place, and nothing else changed. -/
structure Gathered (P k : Nat) (cnt dsp : Nat → Nat) (B : Nat → Bytes) (m M : Nat → Mem) :
    Prop where
  keeps : ∀ r, r < P → UserKeeps k (InBlocks P cnt dsp) (m r) (M r)
  blocks : ∀ r, r < P → ∀ j, j < P → slice (M r (.user k)) (dsp j) (cnt j) = B j

section

variable {P k : Nat} {cnt dsp : Nat → Nat} {B : Nat → Bytes} {m : Nat → Mem}

theorem contiguous_iff : contiguous P cnt dsp = true ↔
    ∀ j, j < P → dsp j = dsp 0 + prefixSum cnt j := by
  simp [contiguous]

/-- If every block fits, so does the contiguous whole. -/
theorem fits_contiguous {l : Bytes} (hc : ∀ j, j < P → dsp j = dsp 0 + prefixSum cnt j)
    (hf : ∀ j, j < P → Fits l (dsp j) (cnt j)) : Fits l (dsp 0) (prefixSum cnt P) := by
  induction P with
  | zero => exact .inl rfl
  | succ n ih =>
    have hn := ih (fun j hj => hc j (by omega)) fun j hj => hf j (by omega)
    have hl := hf n (by omega)
    rw [hc n (by omega)] at hl
    unfold Fits at *
    rw [prefixSum]
    omega

theorem allgathervRd_contiguous {K : Nat} (hP : 2 ≤ P) (hpow : P = 2 ^ K)
    (hc : ∀ j, j < P → dsp j = dsp 0 + prefixSum cnt j) (hR : Ready P k cnt dsp B m) :
    ∃ M : Nat → Mem, Gathered P k cnt dsp B m M ∧
      Together P (fun r => allgathervRdFrom P r (.user k) (dsp 0) cnt 0 (cnt r) (m r))
        (fun r => .ret (M r)) := by
  -- the receive buffer as it should be, up to the end of the blocks
  let D : Bytes := List.replicate (dsp 0) 0 ++ cat B P
  have hblock : ∀ j, j < P → slice D (dsp 0 + prefixSum cnt j) (cnt j) = B j := by
    intro j hj
    have := slice_append_right (List.replicate (dsp 0) (0 : UInt8)) (cat B P) (prefixSum cnt j) (cnt j)
    rw [List.length_replicate] at this
    rw [this, slice_cat hR.size hj]
  have hD : Fits D (dsp 0) (prefixSum cnt P) := by
    refine .of_le ?_
    rw [List.length_append, List.length_replicate, length_cat_eq hR.size]
  obtain ⟨M, hM, hrun⟩ := allgathervRdFrom_together hP hpow hD
    (fun r hr => fits_contiguous hc (hR.fits r hr)) (fun r hr => by
      have h := hR.own r hr
      rw [hc r hr, ← hblock r hr] at h
      rw [prefixSum, ← Nat.add_assoc]
      exact holds_of_slice h)
  refine ⟨M, ⟨fun r hr => (hM r hr).1.user.mono ?_, fun r hr j hj => ?_⟩, hrun⟩
  · rintro x ⟨hlo, hhi⟩
    obtain ⟨j, hj, h₁, h₂⟩ := exists_of_lt_prefixSum (c := cnt) (n := P) (x := x - dsp 0) (by omega)
    exact ⟨j, hj, by rw [hc j hj]; omega, by rw [hc j hj]; omega⟩
  · have := prefixSum_mono cnt (show j + 1 ≤ P by omega)
    rw [prefixSum] at this
    rw [hc j hj, (hM r hr).2.slice_eq (.inr ⟨by omega, by omega⟩), hblock j hj]

/-- Copying the other ranks' blocks out of a temporary that holds them. -/
theorem copyOut (t : BufId) (toff : Nat → Nat) (rank lo : Nat) (c : Nat → Bool) (idx : Nat → Nat)
    {M : Mem} (ht : ∀ k, t ≠ .user k) (hsep : Separate P cnt dsp) (hlo : lo ≤ P)
    (hidx : ∀ j, lo ≤ j → j < P → c j = true → idx j < P ∧ idx j ≠ rank)
    (hinj : ∀ i j, lo ≤ i → i < j → j < P → idx i ≠ idx j) (hrank : rank < P)
    (hall : ∀ q, q < P → q ≠ rank → ∃ j, lo ≤ j ∧ j < P ∧ c j = true ∧ idx j = q)
    (hfit : ∀ j, j < P → Fits (M (.user k)) (dsp j) (cnt j))
    (hown : slice (M (.user k)) (dsp rank) (cnt rank) = B rank)
    (htmp : ∀ j, lo ≤ j → j < P → Fits (M t) (toff j) (cnt (idx j)) ∧
      slice (M t) (toff j) (cnt (idx j)) = B (idx j)) :
    ∃ M', copyBlocks c (.user k) (fun j => dsp (idx j)) t toff (fun j => cnt (idx j)) P lo M
        = some M' ∧ UserKeeps k (InBlocks P cnt dsp) M M' ∧
      ∀ j, j < P → slice (M' (.user k)) (dsp j) (cnt j) = B j := by
  obtain ⟨M', hM', hk, hb⟩ := copyBlocks_spec c _ (fun j => dsp (idx j)) _ toff
    (fun j => cnt (idx j)) _ _ M (ht k) hlo (fun j h₁ h₂ _ => (htmp j h₁ h₂).1)
    (fun j h₁ h₂ hc => hfit _ (hidx j h₁ h₂ hc).1)
    (fun i j h₁ h₂ h₃ hi hj => hsep _ _ (hidx i h₁ (by omega) hi).1 (hidx j (by omega) h₃ hj).1
      (hinj i j h₁ h₂ h₃))
  refine ⟨M', hM', hk.user.mono ?_, fun q hq => ?_⟩
  · rintro x ⟨j, h₁, h₂, hc, hx⟩
    exact ⟨idx j, (hidx j h₁ h₂ hc).1, hx⟩
  · by_cases hqr : q = rank
    · subst hqr
      rw [hk.slice_eq, hown]
      rintro x hlo' hhi' ⟨j, h₁, h₂, hc, hx⟩
      have := hsep _ _ hq (hidx j h₁ h₂ hc).1 (hidx j h₁ h₂ hc).2.symm
      unfold Apart at this
      omega
    · obtain ⟨j, h₁, h₂, hc, rfl⟩ := hall q hq hqr
      rw [hb j h₁ h₂ hc, (htmp j h₁ h₂).2]

theorem allgathervRd_together {K : Nat} (rt : Nat → Runtime) (hP : 2 ≤ P) (hpow : P = 2 ^ K)
    (hsep : Separate P cnt dsp) (hR : Ready P k cnt dsp B m) :
    ∃ M : Nat → Mem, Gathered P k cnt dsp B m M ∧
      Together P (fun r => allgathervRd (rt r) P r (m r) (.user k) cnt dsp)
        (fun r => .ret (M r)) := by
  by_cases hc : contiguous P cnt dsp = true
  · obtain ⟨M, hM, hrun⟩ := allgathervRd_contiguous hP hpow (contiguous_iff.mp hc) hR
    exact ⟨M, hM, by simpa only [allgathervRd, hc, if_true] using hrun⟩
  · -- the scratch buffer, big enough for all blocks, with the own block in it
    let m₁ : Nat → Mem := fun r =>
      scratchOrVec (rt r) 0 (if prefixSum cnt P ≠ 0 then prefixSum cnt P else 1) (m r)
    have hroom : ∀ r, prefixSum cnt P ≤ (m₁ r (.scratch 0)).length := by
      intro r
      have := le_length_scratchOrVec (rt r) 0 (if prefixSum cnt P ≠ 0 then prefixSum cnt P else 1) (m r)
      refine Nat.le_trans ?_ this
      split <;> omega
    have huser : ∀ r k', m₁ r (.user k') = m r (.user k') :=
      fun r k' => scratchOrVec_ne _ _ _ _ (by simp)
    let m₂ : Nat → Mem := fun r => (m₁ r).put (.scratch 0) (prefixSum cnt r) (B r)
    have hpos : ∀ j, j < P → prefixSum cnt j + cnt j ≤ prefixSum cnt P := fun j hj =>
      prefixSum_mono cnt (show j + 1 ≤ P by omega)
    have hfit₁ : ∀ r, r < P → Fits (m₁ r (.scratch 0)) (prefixSum cnt r) (B r).length := by
      intro r hr
      rw [hR.size r hr]
      exact .of_le (Nat.le_trans (hpos r hr) (hroom r))
    have hcopy : ∀ r, r < P → (m₁ r).copy (.scratch 0) (prefixSum cnt r) (.user k) (dsp r) (cnt r)
        = some (m₂ r) := by
      intro r hr
      rw [Mem.copy_eq, huser, hR.own r hr]
      · rw [huser]
        exact hR.fits r hr r hr
      · rw [← hR.size r hr]
        exact hfit₁ r hr
    have hsize : (cat B P).length = prefixSum cnt P := length_cat_eq hR.size
    obtain ⟨M, hM, hrun⟩ := allgathervRdFrom_together (m := m₂) (w := .scratch 0) hP hpow
      (show Fits (cat B P) 0 (prefixSum cnt P) from .of_le (by omega))
      (fun r hr => .of_le (by
        rw [Nat.zero_add, Mem.length_put (hfit₁ r hr)]
        exact hroom r))
      (fun r hr => by
        rw [prefixSum, Nat.zero_add, Nat.zero_add]
        apply holds_of_slice
        rw [slice_cat hR.size hr, ← hR.size r hr]
        exact slice_put_self (hfit₁ r hr))
    have huser₂ : ∀ r, r < P → ∀ k', M r (.user k') = m r (.user k') := by
      intro r hr k'
      have hput : m₂ r (.user k') = m₁ r (.user k') := Mem.put_ne (by simp)
      rw [(hM r hr).1.other _ (by simp), hput, huser]
    have hout : ∀ r, ∃ M', r < P → copyBlocks (· != r) (.user k) dsp (.scratch 0) (prefixSum cnt)
          cnt P 0 (M r) = some M' ∧ UserKeeps k (InBlocks P cnt dsp) (M r) M' ∧
        ∀ j, j < P → slice (M' (.user k)) (dsp j) (cnt j) = B j := by
      intro r
      by_cases hr : r < P
      · obtain ⟨M', hM'⟩ := copyOut (k := k) (B := B) (M := M r) (.scratch 0) (prefixSum cnt) r 0
          (· != r) (fun j => j) (by simp) hsep (Nat.zero_le P) (fun j _ hj hc => ⟨hj, by simpa using hc⟩)
          (fun i j _ hij _ => Nat.ne_of_lt hij) hr
          (fun q hq hqr => ⟨q, Nat.zero_le q, hq, by simpa using hqr, rfl⟩)
          (fun j hj => by rw [huser₂ r hr]; exact hR.fits r hr j hj)
          (by rw [huser₂ r hr]; exact hR.own r hr)
          (fun j _ hj => ⟨(hM r hr).1.fits (.of_le (by
              rw [Mem.length_put (hfit₁ r hr)]
              exact Nat.le_trans (hpos j hj) (hroom r))), by
            rw [(hM r hr).2.slice_eq (.inr ⟨Nat.zero_le _, by rw [Nat.zero_add]; exact hpos j hj⟩),
              slice_cat hR.size hj]⟩)
        exact ⟨M', fun _ => hM'⟩
      · exact ⟨M r, fun h => absurd h hr⟩
    choose M' hM' using hout
    refine ⟨M', ⟨fun r hr => ?_, fun r hr => (hM' r hr).2.2⟩, ?_⟩
    · exact (UserKeeps.of_eq (huser₂ r hr)).trans (hM' r hr).2.1
    · refine .trans (.of_eq fun r hr => ?_) ((hrun.bind fun r m => access
        (copyBlocks (· != r) (.user k) dsp (.scratch 0) (prefixSum cnt) cnt P 0 m)).trans
        (.of_eq fun r hr => ?_))
      · simp only [allgathervRd, if_neg hc]
        rw [show scratchOrVec (rt r) 0 (if prefixSum cnt P ≠ 0 then prefixSum cnt P else 1) (m r)
          = m₁ r from rfl, hcopy r hr, access_some, Prog.ret_bind]
      · rw [Prog.ret_bind, (hM' r hr).1, access_some]

/-! ## Bruck -/

/-- Where block `j` starts in rank `r`'s work buffer. -/
def rpos (P : Nat) (cnt : Nat → Nat) (r : Nat) : Nat → Nat := prefixSum fun j => cnt ((r + j) % P)

/-- Rank `r`'s work buffer as it should be. -/
def bruckGoal (P : Nat) (B : Nat → Bytes) (r : Nat) : Bytes := cat (fun j => B ((r + j) % P)) P

/-- Rank `r` has the first `q` blocks of its work buffer. -/
structure BruckHolds (P : Nat) (cnt : Nat → Nat) (B : Nat → Bytes) (m : Nat → Mem) (q : Nat)
    (M : Nat → Mem) : Prop where
  keeps : ∀ r, r < P → Keeps .stack (fun _ => True) (m r) (M r)
  holds : ∀ r, r < P → Holds (bruckGoal P B r) (M r .stack) 0 (rpos P cnt r q)

/-- The next `l` blocks of rank `r`, which are the first `l` of the rank `q` further on. -/
def bruckMem (P : Nat) (cnt : Nat → Nat) (B : Nat → Bytes) (q l : Nat) (M : Nat → Mem) (r : Nat) :
    Mem :=
  (M r).put .stack (rpos P cnt r q)
    (slice (bruckGoal P B r) (rpos P cnt r q) (rpos P cnt ((r + q) % P) l))

theorem rpos_add (P : Nat) (cnt : Nat → Nat) (r q l : Nat) :
    rpos P cnt r (q + l) = rpos P cnt r q + rpos P cnt ((r + q) % P) l := by
  unfold rpos
  rw [prefixSum_add]
  congr 1
  refine prefixSum_congr fun j _ => ?_
  rw [Nat.mod_add_mod, Nat.add_assoc]

theorem bruck_prefix (hB : ∀ j, j < P → (B j).length = cnt j) (hP : 2 ≤ P) {r q l : Nat}
    (hq : q + l ≤ P) :
    slice (bruckGoal P B ((r + q) % P)) 0 (rpos P cnt ((r + q) % P) l)
      = slice (bruckGoal P B r) (rpos P cnt r q) (rpos P cnt ((r + q) % P) l) := by
  have hsize : ∀ r j, j < P → (B ((r + j) % P)).length = cnt ((r + j) % P) :=
    fun r j _ => hB _ (Nat.mod_lt _ (by omega))
  have hl := slice_cat_run (hsize ((r + q) % P)) (a := 0) (k := l) (by omega)
  have hr := slice_cat_run (hsize r) hq
  have hidx : ∀ j, ((r + q) % P + j) % P = (r + (q + j)) % P := fun j => by
    rw [Nat.mod_add_mod, Nat.add_assoc]
  simp only [Nat.zero_add, prefixSum] at hl
  unfold bruckGoal rpos
  rw [hl]
  simp only [hidx] at hr ⊢
  rw [hr]

theorem length_bruckGoal (hB : ∀ j, j < P → (B j).length = cnt j) (hP : 2 ≤ P) (r : Nat) :
    (bruckGoal P B r).length = rpos P cnt r P :=
  length_cat_eq fun _ _ => hB _ (Nat.mod_lt _ (by omega))

theorem bruck_exchange {α : Type} (hB : ∀ j, j < P → (B j).length = cnt j) (hP : 2 ≤ P)
    (hroom : ∀ r, r < P → rpos P cnt r P ≤ (m r .stack).length) {q l : Nat} (hlq : l ≤ q)
    (hq : q + l ≤ P) {M : Nat → Mem} (hI : BruckHolds P cnt B m q M) (K : Nat → Mem → Rank α) :
    BruckHolds P cnt B m (q + l) (bruckMem P cnt B q l M) ∧
    Together P
      (fun r => xchgBytes P (M r) .stack 0 (rpos P cnt r l) ((r + P - q) % P) .stack
        (rpos P cnt r q) (rpos P cnt r (q + l) - rpos P cnt r q) ((r + q) % P) >>= fun x => K r x.2)
      (fun r => K r (bruckMem P cnt B q l M r)) := by
  have hmod : ∀ x, x % P < P := fun x => Nat.mod_lt _ (by omega)
  have hmono : ∀ r, rpos P cnt r (q + l) ≤ rpos P cnt r P := fun r => prefixSum_mono _ hq
  have hadd := rpos_add P cnt
  have hfit : ∀ r, r < P → Fits (M r .stack) (rpos P cnt r q) (rpos P cnt ((r + q) % P) l) := by
    intro r hr
    refine (hI.keeps r hr).fits (.of_le ?_)
    rw [← hadd]
    exact Nat.le_trans (hmono r) (hroom r hr)
  have hfitG : ∀ r, Fits (bruckGoal P B r) (rpos P cnt r q) (rpos P cnt ((r + q) % P) l) := by
    intro r
    refine .of_le ?_
    rw [← hadd, length_bruckGoal hB hP]
    exact hmono r
  constructor
  · constructor
    · exact fun r hr => (hI.keeps r hr).trans
        (keeps_put_slice (hfit r hr) (hfitG r) fun _ _ _ => trivial)
    · intro r hr
      rw [hadd]
      exact ((hI.holds r hr).put (hfit r hr) (hfitG r)).join (holds_put (hfit r hr) (hfitG r))
  · refine Together.exchange (m := M) (fun _ => True) hP
      (fun r => ⟨(r + P - q) % P, .stack, 0, rpos P cnt r l⟩)
      (fun r => ⟨(r + q) % P, .stack, rpos P cnt r q, rpos P cnt r (q + l) - rpos P cnt r q⟩)
      (fun r x => K r x.2) ?_ ?_ ?_ ?_ ?_ ?_ ?_ ?_ ?_
    · exact fun r hr _ => ⟨hmod _, trivial, up_down hr (by omega)⟩
    · exact fun r hr _ => ⟨hmod _, trivial, down_up hr (by omega)⟩
    · intro r hr _
      refine (hI.keeps r hr).fits (.of_le ?_)
      rw [Nat.zero_add]
      exact Nat.le_trans (prefixSum_mono _ (by omega)) (hroom r hr)
    · exact fun r hr _ => hfit r hr
    · intro r hr _
      dsimp only
      rw [hadd]
      omega
    · intro r hr _
      have : rpos P cnt r l ≤ rpos P cnt r q := prefixSum_mono _ hlq
      right
      unfold Apart
      dsimp only
      omega
    · exact fun r _ _ => rfl
    · intro r hr _
      have hslice := (hI.holds _ (hmod (r + q))).slice_eq (o := 0)
        (n := rpos P cnt ((r + q) % P) l)
        (.inr ⟨Nat.le_refl 0, by rw [Nat.zero_add]; exact prefixSum_mono _ hlq⟩)
      simp only [bruckMem, Tx.data, hslice, bruck_prefix hB hP hq]
    · exact fun r _ h => absurd trivial h

/-- The loop: it stops at the last power of two that is at most `P`. -/
theorem allgathervBruckFrom_together (hB : ∀ j, j < P → (B j).length = cnt j) (hP : 2 ≤ P)
    (hroom : ∀ r, r < P → rpos P cnt r P ≤ (m r .stack).length) (hI : BruckHolds P cnt B m 1 m) :
    ∃ (q : Nat) (M : Nat → Mem), q ≤ P ∧ P ≤ 2 * q ∧ BruckHolds P cnt B m q M ∧
      Together P (fun r => allgathervBruckFrom P r (rpos P cnt r) 0 (m r))
        (fun r => .ret (q, M r)) := by
  obtain ⟨K, hK, hpow⟩ := exists_pow_ge (P / 2 + 1)
  obtain ⟨M, hM, hrun⟩ := Together.ascend (P := P) (n := K)
    (fun i M r => allgathervBruckFrom P r (rpos P cnt r) i (M r))
    (fun i M => BruckHolds P cnt B m (2 ^ i) M) (s := m) (by
      intro i M hi hI
      have hle := (hpow i).mpr hi
      obtain ⟨hnext, hx⟩ := bruck_exchange hB hP hroom (Nat.le_refl (2 ^ i)) (by omega) hI
        fun r => allgathervBruckFrom P r (rpos P cnt r) (i + 1)
      rw [← Nat.two_mul, ← Nat.pow_succ'] at hnext
      refine ⟨_, hnext, .trans (.of_eq fun r hr => ?_) hx⟩
      rw [allgathervBruckFrom, if_pos (by omega), Nat.two_mul]) hI
  refine ⟨2 ^ K, M, ?_, by omega, hM, hrun.trans (.of_eq fun r hr => ?_)⟩
  · cases K with
    | zero => omega
    | succ j =>
      have := (hpow j).mpr (by omega)
      rw [Nat.pow_succ']
      omega
  · rw [allgathervBruckFrom, if_neg (by omega)]

theorem up_dist {r q : Nat} (hr : r < P) (hq : q < P) (hne : q ≠ r) :
    1 ≤ rel P r q ∧ rel P r q < P ∧ (r + rel P r q) % P = q := by
  have h0 := (rel_eq_zero hr hq).not.mpr hne
  refine ⟨by omega, rel_lt _ _ (by omega), ?_⟩
  rw [Nat.add_comm, ofRel_rel hr hq]

theorem up_ne {r j : Nat} (hr : r < P) (h1 : 1 ≤ j) (hj : j < P) : (r + j) % P ≠ r := by
  rw [mod_of_lt_two_mul (by omega)]
  split <;> omega

theorem up_inj {r i j : Nat} (hr : r < P) (hij : i < j) (hj : j < P) :
    (r + i) % P ≠ (r + j) % P := by
  rw [mod_of_lt_two_mul (by omega), mod_of_lt_two_mul (by omega)]
  split <;> split <;> omega

theorem allgathervBruck_together (rt : Nat → Runtime) (hP : 2 ≤ P)
    (hshort : prefixSum cnt P < kAllgatherShort) (hsep : Separate P cnt dsp)
    (hR : Ready P k cnt dsp B m) :
    ∃ M : Nat → Mem, Gathered P k cnt dsp B m M ∧
      Together P (fun r => allgathervBruck (rt r) P r (m r) (.user k) cnt dsp)
        (fun r => .ret (M r)) := by
  have hmod : ∀ x, x % P < P := fun x => Nat.mod_lt _ (by omega)
  have htotal : ∀ r, r < P → rpos P cnt r P = prefixSum cnt P := fun r hr => prefixSum_rotate cnt hr
  -- the work buffer, with the own block first
  let m₁ : Nat → Mem := fun r =>
    Function.update (m r) .stack ((rt r).fresh kAllgatherShort).toList
  have hlen₁ : ∀ r, (m₁ r .stack).length = kAllgatherShort := fun r => by
    simp only [m₁, Function.update_self, Vector.length_toList]
  have huser₁ : ∀ r k', m₁ r (.user k') = m r (.user k') :=
    fun r k' => Function.update_of_ne (by simp) ..
  let m₂ : Nat → Mem := fun r => (m₁ r).put .stack 0 (B r)
  have hcnt : ∀ r, r < P → cnt r ≤ prefixSum cnt P := fun r hr =>
    Nat.le_trans (Nat.le_add_left ..) (prefixSum_mono cnt (show r + 1 ≤ P by omega))
  have hfit₁ : ∀ r, r < P → Fits (m₁ r .stack) 0 (B r).length := by
    intro r hr
    have := hcnt r hr
    rw [hR.size r hr]
    exact .of_le (by rw [hlen₁]; omega)
  have hcopy : ∀ r, r < P → (m₁ r).copy .stack 0 (.user k) (dsp r) (cnt r) = some (m₂ r) := by
    intro r hr
    rw [Mem.copy_eq, huser₁, hR.own r hr]
    · rw [huser₁]
      exact hR.fits r hr r hr
    · rw [← hR.size r hr]
      exact hfit₁ r hr
  have hlen₂ : ∀ r, r < P → (m₂ r .stack).length = kAllgatherShort := fun r hr =>
    (Mem.length_put (hfit₁ r hr)).trans (hlen₁ r)
  have hroom : ∀ r, r < P → rpos P cnt r P ≤ (m₂ r .stack).length := fun r hr => by
    rw [hlen₂ r hr, htotal r hr]
    omega
  have hsize : ∀ r j, j < P → (B ((r + j) % P)).length = cnt ((r + j) % P) :=
    fun r j _ => hR.size _ (hmod _)
  have hinit : BruckHolds P cnt B m₂ 1 m₂ := by
    refine ⟨fun _ _ => .refl .., fun r hr => ?_⟩
    have hone : rpos P cnt r 1 = cnt r := by
      rw [rpos, prefixSum, prefixSum, Nat.zero_add, Nat.add_zero, Nat.mod_eq_of_lt hr]
    have hblock := slice_cat (hsize r) (show 0 < P by omega)
    rw [Nat.add_zero, Nat.mod_eq_of_lt hr, prefixSum] at hblock
    rw [hone, ← Nat.zero_add (cnt r)]
    apply holds_of_slice
    rw [bruckGoal, hblock, ← hR.size r hr]
    exact slice_put_self (hfit₁ r hr)
  obtain ⟨q, M, hqP, hPq, hM, hloop⟩ := allgathervBruckFrom_together hR.size hP hroom hinit
  -- the last, partial exchange
  let rest : Nat → Mem → Rank Mem := fun r m => access (copyBlocks (fun _ => true) (.user k)
    (fun j => dsp ((r + j) % P)) .stack (rpos P cnt r) (fun j => cnt ((r + j) % P)) P 1 m)
  have hlast : ∃ M₃, BruckHolds P cnt B m₂ P M₃ ∧
      Together P (fun r => (if P - q ≠ 0 then
          xchgBytes P (M r) .stack 0 (rpos P cnt r (P - q)) ((r + P - q) % P) .stack
            (rpos P cnt r q) (rpos P cnt r (q + (P - q)) - rpos P cnt r q) ((r + q) % P)
            >>= fun x => rest r x.2
        else rest r (M r))) (fun r => rest r (M₃ r)) := by
    by_cases hrem : P - q ≠ 0
    · obtain ⟨hnext, hx⟩ := bruck_exchange hR.size hP hroom (show P - q ≤ q by omega)
        (by omega) hM rest
      rw [Nat.add_sub_cancel' hqP] at hnext
      exact ⟨_, hnext, by simpa only [if_pos hrem] using hx⟩
    · obtain rfl : q = P := by omega
      exact ⟨M, hM, .of_eq fun r _ => by rw [if_neg hrem]⟩
  obtain ⟨M₃, hM₃, hlast⟩ := hlast
  have huser₃ : ∀ r, r < P → ∀ k', M₃ r (.user k') = m r (.user k') := by
    intro r hr k'
    have hput : m₂ r (.user k') = m₁ r (.user k') := Mem.put_ne (by simp)
    rw [(hM₃.keeps r hr).other _ (by simp), hput, huser₁]
  have hout : ∀ r, ∃ M', r < P → rest r (M₃ r) = .ret M' ∧
      UserKeeps k (InBlocks P cnt dsp) (M₃ r) M' ∧
      ∀ j, j < P → slice (M' (.user k)) (dsp j) (cnt j) = B j := by
    intro r
    by_cases hr : r < P
    · obtain ⟨M', hM', hrest⟩ := copyOut (k := k) (B := B) (M := M₃ r) .stack (rpos P cnt r) r 1
        (fun _ => true) (fun j => (r + j) % P) (by simp) hsep (by omega)
        (fun j h₁ h₂ _ => ⟨hmod _, up_ne hr h₁ h₂⟩) (fun i j _ hij hj => up_inj hr hij hj) hr
        (fun q hq hqr => ⟨rel P r q, (up_dist hr hq hqr).1, (up_dist hr hq hqr).2.1, rfl,
          (up_dist hr hq hqr).2.2⟩)
        (fun j hj => by rw [huser₃ r hr]; exact hR.fits r hr j hj)
        (by rw [huser₃ r hr]; exact hR.own r hr)
        (fun j _ hj => by
          have hend : rpos P cnt r j + cnt ((r + j) % P) ≤ rpos P cnt r P :=
            prefixSum_mono _ (show j + 1 ≤ P by omega)
          refine ⟨(hM₃.keeps r hr).fits (.of_le (Nat.le_trans hend (hroom r hr))), ?_⟩
          rw [(hM₃.holds r hr).slice_eq (.inr ⟨Nat.zero_le _, hend⟩)]
          exact slice_cat (hsize r) hj)
      exact ⟨M', fun _ => ⟨by simp only [rest, hM', access_some], hrest⟩⟩
    · exact ⟨m r, fun h => absurd h hr⟩
  choose M' hM' using hout
  refine ⟨M', ⟨fun r hr => (UserKeeps.of_eq (huser₃ r hr)).trans (hM' r hr).2.1,
    fun r hr => (hM' r hr).2.2⟩, ?_⟩
  have hstart := hloop.bind fun r x => if P - x.1 ≠ 0 then
      xchgBytes P x.2 .stack 0 (rpos P cnt r (P - x.1)) ((r + P - x.1) % P) .stack
        (rpos P cnt r x.1) (rpos P cnt r (x.1 + (P - x.1)) - rpos P cnt r x.1) ((r + x.1) % P)
        >>= fun y => rest r y.2
    else rest r x.2
  refine .trans (.of_eq fun r hr => ?_) (hstart.trans (.trans (.of_eq fun r hr => ?_)
    (hlast.trans (.of_eq fun r hr => (hM' r hr).1))))
  · simp only [allgathervBruck]
    rw [show Function.update (m r) .stack ((rt r).fresh kAllgatherShort).toList = m₁ r from rfl,
      hcopy r hr, access_some, Prog.ret_bind]
    rfl
  · rw [Prog.ret_bind]

/-! ## The ring -/

/-- After `t` steps rank `r` has the blocks of the `t + 1` ranks up to itself. -/
structure RingBlocks (P k : Nat) (cnt dsp : Nat → Nat) (B : Nat → Bytes) (m : Nat → Mem) (t : Nat)
    (M : Nat → Mem) : Prop where
  keeps : ∀ r, r < P → Keeps (.user k) (InBlocks P cnt dsp) (m r) (M r)
  has : ∀ r, r < P → ∀ u, u ≤ t → slice (M r (.user k)) (dsp ((r + P - u) % P))
    (cnt ((r + P - u) % P)) = B ((r + P - u) % P)

def allgathervRingAt (P k : Nat) (cnt dsp : Nat → Nat) (t : Nat) (M : Nat → Mem) (r : Nat) :
    Rank Mem :=
  allgathervRingFrom P r (.user k) cnt dsp (t + 1) ((r + P - t) % P) ((r + P - (t + 1)) % P) (M r)

def allgathervRingMem (P k : Nat) (dsp : Nat → Nat) (B : Nat → Bytes) (t : Nat) (M : Nat → Mem)
    (r : Nat) : Mem :=
  (M r).put (.user k) (dsp ((r + P - (t + 1)) % P)) (B ((r + P - (t + 1)) % P))

theorem RingBlocks.step (hsep : Separate P cnt dsp) (hR : Ready P k cnt dsp B m) {t : Nat}
    (ht : t < P - 1) {M : Nat → Mem} (hI : RingBlocks P k cnt dsp B m t M) :
    RingBlocks P k cnt dsp B m (t + 1) (allgathervRingMem P k dsp B t M) := by
  have hmod : ∀ x, x % P < P := fun x => Nat.mod_lt _ (by omega)
  have hfit : ∀ r, r < P → ∀ j, j < P → Fits (M r (.user k)) (dsp j) (B j).length :=
    fun r hr j hj => by
      rw [hR.size j hj]
      exact (hI.keeps r hr).fits (hR.fits r hr j hj)
  constructor
  · intro r hr
    refine (hI.keeps r hr).trans (Keeps.put (hfit r hr _ (hmod _)) fun x hlo hhi => ?_)
    rw [hR.size _ (hmod _)] at hhi
    exact ⟨_, hmod _, hlo, hhi⟩
  · intro r hr u hu
    unfold allgathervRingMem
    rcases Nat.lt_or_ge t u with h | h
    · obtain rfl : u = t + 1 := by omega
      have := slice_put_self (hfit r hr _ (hmod (r + P - (t + 1))))
      rwa [hR.size _ (hmod _)] at this
    · rw [Mem.put_self, slice_splice_disjoint (hfit r hr _ (hmod _)), hI.has r hr u h]
      rw [hR.size _ (hmod _)]
      refine hsep _ _ (hmod _) (hmod _) fun heq => ?_
      have := down_inj hr (by omega) (by omega) heq
      omega

theorem allgathervRingAt_step (hP : 2 ≤ P) (hsep : Separate P cnt dsp)
    (hR : Ready P k cnt dsp B m) {t : Nat} (ht : t < P - 1) {M : Nat → Mem}
    (hI : RingBlocks P k cnt dsp B m t M) :
    Together P (allgathervRingAt P k cnt dsp t M)
      (allgathervRingAt P k cnt dsp (t + 1) (allgathervRingMem P k dsp B t M)) := by
  have hmod : ∀ x, x % P < P := fun x => Nat.mod_lt _ (by omega)
  have hleft : ∀ r, r < P → ((r + P - 1) % P + P - t) % P = (r + P - (t + 1)) % P :=
    fun r hr => down_down hr (by omega) (by omega)
  have hfit : ∀ r, r < P → ∀ j, j < P → Fits (M r (.user k)) (dsp j) (cnt j) :=
    fun r hr j hj => (hI.keeps r hr).fits (hR.fits r hr j hj)
  refine Together.exchange (m := M) (fun _ => True) hP
    (fun r => ⟨(r + 1) % P, .user k, dsp ((r + P - t) % P), cnt ((r + P - t) % P)⟩)
    (fun r => ⟨(r + P - 1) % P, .user k, dsp ((r + P - (t + 1)) % P),
      cnt ((r + P - (t + 1)) % P)⟩)
    (fun r x => allgathervRingFrom P r (.user k) cnt dsp (t + 1 + 1) ((r + P - (t + 1)) % P)
      ((P + (r + P - (t + 1)) % P - 1) % P) x.2)
    ?_ ?_ ?_ ?_ ?_ ?_ ?_ ?_ ?_
  · exact fun r hr _ => ⟨hmod _, trivial, down_up hr (by omega)⟩
  · exact fun r hr _ => ⟨hmod _, trivial, up_down hr (by omega)⟩
  · exact fun r hr _ => hfit r hr _ (hmod _)
  · intro r hr _
    simp only [hleft r hr]
    exact hfit r hr _ (hmod _)
  · intro r hr _
    simp only [hleft r hr]
    exact Nat.le_refl _
  · intro r hr _
    simp only [hleft r hr]
    refine .inr (hsep _ _ (hmod _) (hmod _) fun heq => ?_)
    have := down_inj hr (by omega) (by omega) heq
    omega
  · intro r hr _
    rw [allgathervRingAt, allgathervRingFrom, if_pos (by omega)]
    simp only [Nat.add_comm P r]
  · intro r hr _
    have hslice := hI.has ((r + P - 1) % P) (hmod _) t (Nat.le_refl t)
    rw [hleft r hr] at hslice
    simp only [allgathervRingAt, allgathervRingMem, Tx.data, hleft r hr, hslice]
    rw [Nat.add_comm P, down_down hr (by omega) (by omega), Nat.add_comm 1]
  · exact fun r _ h => absurd trivial h

theorem allgathervRing_together (hP : 2 ≤ P) (hsep : Separate P cnt dsp)
    (hR : Ready P k cnt dsp B m) :
    ∃ M : Nat → Mem, Gathered P k cnt dsp B m M ∧
      Together P (fun r => allgathervRing P r (m r) (.user k) cnt dsp) (fun r => .ret (M r)) := by
  have hinit : RingBlocks P k cnt dsp B m 0 m := by
    refine ⟨fun _ _ => .refl .., fun r hr u hu => ?_⟩
    obtain rfl : u = 0 := by omega
    rw [Nat.sub_zero, Nat.add_mod_right, Nat.mod_eq_of_lt hr]
    exact hR.own r hr
  obtain ⟨M, hM, hrun⟩ := Together.ascend (P := P) (n := P - 1) (allgathervRingAt P k cnt dsp)
    (RingBlocks P k cnt dsp B m)
    (fun t M ht hI => ⟨_, hI.step hsep hR ht, allgathervRingAt_step hP hsep hR ht hI⟩) hinit
  refine ⟨M, ⟨fun r hr => (hM.keeps r hr).user, fun r hr j hj => ?_⟩,
    .trans (.of_eq fun r hr => ?_) (hrun.trans (.of_eq fun r hr => ?_))⟩
  · have hlt : (r + P - j) % P < P := Nat.mod_lt _ (by omega)
    have := hM.has r hr ((r + P - j) % P) (by omega)
    rwa [down_dist hr hj] at this
  · rw [allgathervRingAt, allgathervRing, Nat.sub_zero, Nat.add_mod_right, Nat.mod_eq_of_lt hr,
      Nat.add_comm P]
  · rw [allgathervRingAt, allgathervRingFrom, if_neg (by omega)]

end

/-! ## The calls -/

/-- The arguments of one allgather: room for every block in every receive buffer,
blocks apart, and send buffers that hold as many bytes as they contribute. -/
structure AllgatherArgs (P k : Nat) (cnt dsp : Nat → Nat) (m : Nat → Mem) (sendbuf : Nat → Arg)
    (sbytes : Nat → Nat) : Prop where
  separate : Separate P cnt dsp
  fits : ∀ r, r < P → ∀ j, j < P → Fits (m r (.user k)) (dsp j) (cnt j)
  send : ∀ r, r < P → ∀ b, sendbuf r = .buf b → sbytes r = cnt r ∧ Fits (m r b) 0 (cnt r)

section

variable {P k : Nat} {cnt dsp : Nat → Nat} {m : Nat → Mem} {sendbuf : Nat → Arg}
  {sbytes : Nat → Nat}

theorem allgatherOwn_spec (h : AllgatherArgs P k cnt dsp m sendbuf sbytes) {r : Nat} (hr : r < P) :
    ∃ M, allgatherOwn r (m r) (sendbuf r) (sbytes r) (.user k) cnt dsp = some M ∧
      Keeps (.user k) (InBlocks P cnt dsp) (m r) M ∧
      slice (M (.user k)) (dsp r) (cnt r) = ownBlock (m r) (sendbuf r) (.user k) (dsp r) (cnt r) := by
  cases hs : sendbuf r with
  | null => exact ⟨m r, rfl, .refl .., rfl⟩
  | inPlace => exact ⟨m r, rfl, .refl .., rfl⟩
  | buf b =>
    obtain ⟨hsb, hfs⟩ := h.send r hr b hs
    have hfd := h.fits r hr r hr
    have hl := length_slice hfs
    refine ⟨(m r).put (.user k) (dsp r) (slice (m r b) 0 (cnt r)), ?_, ?_, ?_⟩
    · simp only [allgatherOwn, hsb, Nat.lt_irrefl, if_false]
      exact Mem.copy_eq hfs hfd
    · refine Keeps.put (by rw [hl]; exact hfd) fun x hlo hhi => ?_
      rw [hl] at hhi
      exact ⟨r, hr, hlo, hhi⟩
    · have := slice_put_self (m := m r) (b := .user k) (o := dsp r) (d := slice (m r b) 0 (cnt r))
        (by rw [hl]; exact hfd)
      rwa [hl] at this

theorem allgathervBytes_together (rt : Nat → Runtime) (hP : 1 ≤ P)
    (h : AllgatherArgs P k cnt dsp m sendbuf sbytes) :
    ∃ M : Nat → Mem, Gathered P k cnt dsp
        (fun j => ownBlock (m j) (sendbuf j) (.user k) (dsp j) (cnt j)) m M ∧
      Together P (fun r => allgathervBytes (rt r) P r (m r) (sendbuf r) (sbytes r) (.user k) cnt dsp)
        (fun r => .ret (M r)) := by
  have hown : ∀ r, ∃ M, r < P →
      allgatherOwn r (m r) (sendbuf r) (sbytes r) (.user k) cnt dsp = some M ∧
      Keeps (.user k) (InBlocks P cnt dsp) (m r) M ∧
      slice (M (.user k)) (dsp r) (cnt r)
        = ownBlock (m r) (sendbuf r) (.user k) (dsp r) (cnt r) := by
    intro r
    by_cases hr : r < P
    · obtain ⟨M, hM⟩ := allgatherOwn_spec h hr
      exact ⟨M, fun _ => hM⟩
    · exact ⟨m r, fun h => absurd h hr⟩
  choose m₁ hm₁ using hown
  have hR : Ready P k cnt dsp (fun j => ownBlock (m j) (sendbuf j) (.user k) (dsp j) (cnt j)) m₁ := by
    refine ⟨fun r hr j hj => (hm₁ r hr).2.1.fits (h.fits r hr j hj), fun r hr => (hm₁ r hr).2.2,
      fun j hj => ?_⟩
    rw [← (hm₁ j hj).2.2, length_slice ((hm₁ j hj).2.1.fits (h.fits j hj j hj))]
  have hfrom : ∀ M : Nat → Mem, Gathered P k cnt dsp
      (fun j => ownBlock (m j) (sendbuf j) (.user k) (dsp j) (cnt j)) m₁ M →
      Gathered P k cnt dsp (fun j => ownBlock (m j) (sendbuf j) (.user k) (dsp j) (cnt j)) m M :=
    fun M hM => ⟨fun r hr => (hm₁ r hr).2.1.user.trans (hM.keeps r hr), hM.blocks⟩
  rcases Nat.lt_or_ge P 2 with hone | htwo
  · refine ⟨m₁, hfrom m₁ ⟨fun _ _ => .refl, fun r hr j hj => ?_⟩, .of_eq fun r hr => ?_⟩
    · obtain rfl : r = j := by omega
      exact hR.own r hr
    · rw [allgathervBytes, (hm₁ r hr).1, access_some, Prog.ret_bind, if_pos (by omega)]
  · have hP1 : ¬ P ≤ 1 := by omega
    -- the algorithm is the same on all ranks: its choice depends on `cnt` and `P` only
    have hstart : ∀ alg : Nat → Mem → Rank Mem,
        (∀ r m, (if prefixSum cnt P < kAllgatherLong ∧ isPof2 P = true then
            allgathervRd (rt r) P r m (.user k) cnt dsp
          else if prefixSum cnt P < kAllgatherShort then
            allgathervBruck (rt r) P r m (.user k) cnt dsp
          else allgathervRing P r m (.user k) cnt dsp) = alg r m) →
        Together P (fun r => allgathervBytes (rt r) P r (m r) (sendbuf r) (sbytes r) (.user k)
          cnt dsp) (fun r => alg r (m₁ r)) := by
      intro alg halg
      refine .of_eq fun r hr => ?_
      rw [← halg, allgathervBytes, (hm₁ r hr).1, access_some, Prog.ret_bind, if_neg hP1]
    by_cases hrd : prefixSum cnt P < kAllgatherLong ∧ isPof2 P = true
    · obtain ⟨K, hK⟩ := isPof2_iff.mp hrd.2
      obtain ⟨M, hM, hrun⟩ := allgathervRd_together rt htwo hK h.separate hR
      exact ⟨M, hfrom M hM, (hstart _ fun r m => if_pos hrd).trans hrun⟩
    · by_cases hbruck : prefixSum cnt P < kAllgatherShort
      · obtain ⟨M, hM, hrun⟩ := allgathervBruck_together rt htwo hbruck h.separate hR
        exact ⟨M, hfrom M hM,
          (hstart _ fun r m => (if_neg hrd).trans (if_pos hbruck)).trans hrun⟩
      · obtain ⟨M, hM, hrun⟩ := allgathervRing_together htwo h.separate hR
        exact ⟨M, hfrom M hM,
          (hstart _ fun r m => (if_neg hrd).trans (if_neg hbruck)).trans hrun⟩

end

/-- The bytes rank `r` offers: none in place. -/
def sendBytesOf (sendbuf : Arg) (sendcount sext : Nat) : Nat :=
  if sendbuf = .inPlace then 0 else sendcount * sext

theorem mpiAllgatherv_eq {rt : Runtime} {P rank : Nat} {m : Mem} {sendbuf : Arg}
    {sendcount sendtype sext recvtype ext : Nat} {recvbuf : BufId} {recvcounts displs : Nat → Nat}
    (hr : Sized recvtype ext) (hs : sendbuf ≠ .inPlace → Sized sendtype sext) :
    mpiAllgatherv rt P rank m sendbuf sendcount sendtype recvbuf recvcounts displs recvtype
      = allgathervBytes rt P rank m sendbuf (sendBytesOf sendbuf sendcount sext) recvbuf
        (fun j => recvcounts j * ext) (fun j => displs j * ext) := by
  unfold mpiAllgatherv sendBytesOf
  rw [hr]
  by_cases h : sendbuf = .inPlace
  · simp only [if_pos h, access_some, Prog.ret_bind]
  · rw [hs h]
    simp only [if_neg h, access_some, Prog.ret_bind]

theorem mpiAllgather_eq (rt : Runtime) (P rank : Nat) (m : Mem) (sendbuf : Arg)
    (sendcount sendtype : Nat) (recvbuf : BufId) (recvcount recvtype : Nat) :
    mpiAllgather rt P rank m sendbuf sendcount sendtype recvbuf recvcount recvtype
      = mpiAllgatherv rt P rank m sendbuf sendcount sendtype recvbuf (fun _ => recvcount)
        (fun j => j * recvcount) recvtype := by
  unfold mpiAllgather mpiAllgatherv
  simp only [Nat.mul_assoc]

/-- **MPI_Allgather and MPI_Allgatherv.** Whatever the interleaving and whichever
algorithm, every rank ends with every rank's block in its place, no other byte of
its buffers changed, and nothing in flight. -/
theorem mpiAllgatherv_completes {P k : Nat} {m : Nat → Mem} {sendbuf : Nat → Arg}
    {sendcount sendtype sext recvcounts displs : Nat → Nat} {recvtype ext : Nat}
    (rt : Nat → Runtime) (hP : 1 ≤ P) (hrt : Sized recvtype ext)
    (hst : ∀ r, r < P → sendbuf r ≠ .inPlace → Sized (sendtype r) (sext r))
    (h : AllgatherArgs P k (fun j => recvcounts j * ext) (fun j => displs j * ext) m sendbuf
      fun r => sendBytesOf (sendbuf r) (sendcount r) (sext r)) :
    ∃ M : Nat → Mem,
      Completes (world P (fun r => mpiAllgatherv (rt r) P r (m r) (sendbuf r) (sendcount r)
        (sendtype r) (.user k) recvcounts displs recvtype) m) M ∧
      (∀ r, r < P → UserKeeps k (InBlocks P (fun j => recvcounts j * ext) fun j => displs j * ext)
        (m r) (M r)) ∧
      (∀ r, r < P → ∀ j, j < P → slice (M r (.user k)) (displs j * ext) (recvcounts j * ext)
        = ownBlock (m j) (sendbuf j) (.user k) (displs j * ext) (recvcounts j * ext)) ∧
      ∀ recvcount, recvcounts = (fun _ => recvcount) → displs = (fun j => j * recvcount) →
        Completes (world P (fun r => mpiAllgather (rt r) P r (m r) (sendbuf r) (sendcount r)
          (sendtype r) (.user k) recvcount recvtype) m) M := by
  obtain ⟨M, hM, hrun⟩ := allgathervBytes_together rt hP h
  have hv : Together P (fun r => mpiAllgatherv (rt r) P r (m r) (sendbuf r) (sendcount r)
      (sendtype r) (.user k) recvcounts displs recvtype) (fun r => .ret (M r)) :=
    .trans (.of_eq fun r hr => mpiAllgatherv_eq hrt (hst r hr)) hrun
  have hlt : ∀ r, r < P → (if r < P then M r else m r) = M r := fun r hr => if_pos hr
  refine ⟨_, hv.completes, fun r hr => ?_, fun r hr j hj => ?_, ?_⟩
  · simp only [hlt r hr]
    exact hM.keeps r hr
  · simp only [hlt r hr]
    exact hM.blocks r hr j hj
  · rintro recvcount rfl rfl
    exact Together.completes (.trans (.of_eq fun r _ => mpiAllgather_eq ..) hv)

theorem mpiAllgatherv_completes_two_ranks :
    ∃ M : Nat → Mem,
      Completes (world 2 (fun r => mpiAllgatherv ⟨false, fun c => Vector.replicate c 0⟩ 2 r
        (fun _ => [UInt8.ofNat r, 7]) (.buf (.user 1)) 1 8 (.user 0) (fun _ => 1) (fun j => 1 - j) 8)
        fun r _ => [UInt8.ofNat r, 7]) M ∧
      slice (M 0 (.user 0)) 1 1 = [0] ∧ slice (M 0 (.user 0)) 0 1 = [1] := by
  obtain ⟨M, hM, -, hb, -⟩ := @mpiAllgatherv_completes 2 0
    (fun r _ => [UInt8.ofNat r, 7]) (fun _ => .buf (.user 1)) (fun _ => 1) (fun _ => 8) (fun _ => 1)
    (fun _ => 1) (fun j => 1 - j) 8 1
    (fun _ => ⟨false, fun c => Vector.replicate c 0⟩) (by decide) rfl (fun _ _ _ => rfl)
    ⟨fun i j _ _ _ => by unfold Apart; omega,
      fun r _ j _ => .of_le (by simp only [List.length_cons, List.length_nil]; omega),
      fun r _ b hb => ⟨rfl, .of_le (by simp)⟩⟩
  exact ⟨M, hM, hb 0 (by decide) 0 (by decide), hb 0 (by decide) 1 (by decide)⟩

end Pimid.Mpi
