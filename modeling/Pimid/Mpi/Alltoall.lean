import Pimid.Lib.Blocks
import Pimid.Mpi.Datatype
import Pimid.Mpi.Tree

/-!
# MPI_Alltoall

Rank `s` has one block for every rank `d`; afterwards `d` has them by sender.
Scattered and pairwise move each block in one message. Bruck's algorithm, for
short blocks, moves it in up to `log2 P`: block `j` of the work buffer is the one
that still has to travel `j` ranks up the ring, and in the exchange at distance
`2 ^ i` a rank passes on all blocks whose index has bit `i` set. So after `i`
exchanges block `j` of rank `r` is the one that started `j % 2 ^ i` ranks below
(`bruckBlock`), and after the last it has arrived.
-/

namespace Pimid.Mpi

open Pimid.Net

def kAlltoallShort : Nat := 256
def kAlltoallMedium : Nat := 32768
def kAlltoallMinProcs : Nat := 8

/-! ## The code -/

/-- Pack the blocks of `w` (scratch 0) whose index has bit `i` set into `pk` (scratch 1);
`nb` counts them. -/
def packFrom (P sblk i j nb : Nat) (m : Mem) : Option (Nat × Mem) :=
  if j < P then
    if j &&& 2 ^ i ≠ 0 then
      (m.copy (.scratch 1) (nb * sblk) (.scratch 0) (j * sblk) sblk).bind
        (packFrom P sblk i (j + 1) (nb + 1))
    else packFrom P sblk i (j + 1) nb m
  else some (nb, m)
termination_by P - j

/-- Unpack `rk` (scratch 2) into the same blocks of `w`. -/
def unpackFrom (P sblk i j nb : Nat) (m : Mem) : Option Mem :=
  if j < P then
    if j &&& 2 ^ i ≠ 0 then
      (m.copy (.scratch 0) (j * sblk) (.scratch 2) (nb * sblk) sblk).bind
        (unpackFrom P sblk i (j + 1) (nb + 1))
    else unpackFrom P sblk i (j + 1) nb m
  else some m
termination_by P - j

/-- Bruck's exchanges from `pof2 = 2 ^ i` on. -/
def alltoallBruckFrom (P rank sblk i : Nat) (m : Mem) : Rank Mem :=
  if 2 ^ i < P then do
    let (nb, m) ← access (packFrom P sblk i 0 0 m)
    let (_, m) ← xchgBytes P m (.scratch 1) 0 (nb * sblk) ((rank + 2 ^ i) % P)
      (.scratch 2) 0 (nb * sblk) ((rank + P - 2 ^ i) % P)
    let m ← access (unpackFrom P sblk i 0 0 m)
    alltoallBruckFrom P rank sblk (i + 1) m
  else .ret m
termination_by P - i
decreasing_by
  have := Nat.lt_two_pow_self (n := i)
  omega

def alltoallBruck (rt : Runtime) (P rank : Nat) (m : Mem) (sbuf rbuf : BufId) (sblk rblk : Nat) :
    Rank Mem := do
  let m := scratchOrVec rt 0 (P * sblk) m
  let m := scratchOrVec rt 1 (P * sblk) m
  let m := scratchOrVec rt 2 (P * sblk) m
  let m ← access (copyBlocks (fun _ => true) (.scratch 0) (fun j => j * sblk) sbuf
    (fun j => (rank + j) % P * sblk) (fun _ => sblk) P 0 m)
  let m ← alltoallBruckFrom P rank sblk 0 m
  access (copyBlocks (fun _ => true) rbuf (fun j => (rank + P - j) % P * rblk) (.scratch 0)
    (fun j => j * sblk) (fun _ => rblk) P 1 m)

/-- Step `i` sends to `rank - i` and receives from `rank + i`. -/
def alltoallScattered (P rank : Nat) (sbuf rbuf : BufId) (sblk rblk i : Nat) (m : Mem) : Rank Mem :=
  if i < P then do
    let dst := (rank + P - i) % P
    let src := (rank + i) % P
    let (_, m) ← xchgBytes P m sbuf (dst * sblk) sblk dst rbuf (src * rblk) rblk src
    alltoallScattered P rank sbuf rbuf sblk rblk (i + 1) m
  else .ret m
termination_by P - i

/-- Step `i` pairs ranks by XOR when `P` is a power of two, else sends to `rank + i` and
receives from `rank - i`. -/
def alltoallPairwise (P rank : Nat) (sbuf rbuf : BufId) (sblk rblk i : Nat) (m : Mem) : Rank Mem :=
  if i < P then do
    let src := if isPof2 P then rank ^^^ i else (rank + P - i) % P
    let dst := if isPof2 P then rank ^^^ i else (rank + i) % P
    let (_, m) ← xchgBytes P m sbuf (dst * sblk) sblk dst rbuf (src * rblk) rblk src
    alltoallPairwise P rank sbuf rbuf sblk rblk (i + 1) m
  else .ret m
termination_by P - i

def mpiAlltoall (rt : Runtime) (P rank : Nat) (m : Mem) (sbuf : BufId) (sendcount sendtype : Nat)
    (rbuf : BufId) (recvcount recvtype : Nat) : Rank Mem := do
  let sblk ← access (bytesOf sendcount sendtype)
  let rblk ← access (bytesOf recvcount recvtype)
  let m ← access (m.copy rbuf (rank * rblk) sbuf (rank * sblk) sblk)
  if P ≤ 1 then .ret m
  else if sblk ≤ kAlltoallShort ∧ P ≥ kAlltoallMinProcs then
    alltoallBruck rt P rank m sbuf rbuf sblk rblk
  else if sblk ≤ kAlltoallMedium then alltoallScattered P rank sbuf rbuf sblk rblk 1 m
  else alltoallPairwise P rank sbuf rbuf sblk rblk 1 m

/-! ## One message per block -/

/-- What every rank must end with. -/
structure Exchanged (P ks kr b : Nat) (m M : Nat → Mem) : Prop where
  blocks : ∀ r, r < P → ∀ s, s < P →
    slice (M r (.user kr)) (s * b) b = slice (m s (.user ks)) (r * b) b
  keeps : ∀ r, r < P → UserKeeps kr (· < P * b) (m r) (M r)

/-- The buffers of an alltoall: `P` blocks to send and room for `P` blocks. -/
structure AlltoallArgs (P ks kr b : Nat) (m : Nat → Mem) : Prop where
  ne : ks ≠ kr
  send : ∀ r, r < P → P * b ≤ (m r (.user ks)).length
  recv : ∀ r, r < P → P * b ≤ (m r (.user kr)).length

section

variable {P ks kr b : Nat} {m : Nat → Mem}

/-- Ranks that have the blocks of the senders in `got`. -/
structure Got (P ks kr b : Nat) (m : Nat → Mem) (got : Nat → Nat → Prop) (M : Nat → Mem) : Prop where
  keeps : ∀ r, r < P → Keeps (.user kr) (· < P * b) (m r) (M r)
  has : ∀ r, r < P → ∀ s, s < P → got r s →
    slice (M r (.user kr)) (s * b) b = slice (m s (.user ks)) (r * b) b

/-- A round in which every rank sends the block its partner wants. -/
theorem Got.round {α : Type} (h : AlltoallArgs P ks kr b m) (hP : 2 ≤ P) {dst src : Nat → Nat}
    (hdst : ∀ r, r < P → dst r < P ∧ src (dst r) = r)
    (hsrc : ∀ r, r < P → src r < P ∧ dst (src r) = r) {got : Nat → Nat → Prop} {M : Nat → Mem}
    (hI : Got P ks kr b m got M) (K : Nat → Mem → Rank α) :
    ∃ M' : Nat → Mem, Got P ks kr b m (fun r s => got r s ∨ s = src r) M' ∧
      Together P (fun r => xchgBytes P (M r) (.user ks) (dst r * b) b (dst r) (.user kr) (src r * b) b
        (src r) >>= fun x => K r x.2) (fun r => K r (M' r)) := by
  have hsend : ∀ r, r < P → M r (.user ks) = m r (.user ks) := fun r hr =>
    (hI.keeps r hr).other _ (by simpa using h.ne)
  have hfs : ∀ r, r < P → ∀ d, d < P → Fits (m r (.user ks)) (d * b) b := fun r hr d hd =>
    .of_le (Nat.le_trans (mul_add_le_mul hd b) (h.send r hr))
  have hfr : ∀ r, r < P → ∀ s, s < P → Fits (M r (.user kr)) (s * b) b := fun r hr s hs =>
    (hI.keeps r hr).fits (.of_le (Nat.le_trans (mul_add_le_mul hs b) (h.recv r hr)))
  have hput : ∀ r, r < P → Fits (M r (.user kr)) (src r * b)
      (slice (m (src r) (.user ks)) (r * b) b).length := by
    intro r hr
    rw [length_slice (hfs _ (hsrc r hr).1 r hr)]
    exact hfr r hr _ (hsrc r hr).1
  refine ⟨fun r => (M r).put (.user kr) (src r * b) (slice (m (src r) (.user ks)) (r * b) b),
    ⟨fun r hr => ?_, fun r hr s hs hgot => ?_⟩, ?_⟩
  · refine (hI.keeps r hr).trans (Keeps.put (hput r hr) fun x _ hx => ?_)
    rw [length_slice (hfs _ (hsrc r hr).1 r hr)] at hx
    have := mul_add_le_mul (hsrc r hr).1 b
    omega
  · by_cases hsr : s = src r
    · subst hsr
      have := slice_put_self (hput r hr)
      rwa [length_slice (hfs _ hs r hr)] at this
    · rw [Mem.put_self, slice_splice_disjoint (hput r hr)]
      · exact hI.has r hr s hs (hgot.resolve_right hsr)
      · rw [length_slice (hfs _ (hsrc r hr).1 r hr)]
        exact apart_mul hsr b
  · refine Together.exchange (m := M) (fun _ => True) hP
      (fun r => ⟨dst r, .user ks, dst r * b, b⟩) (fun r => ⟨src r, .user kr, src r * b, b⟩)
      (fun r x => K r x.2) ?_ ?_ ?_ ?_ ?_ ?_ ?_ ?_ ?_
    · exact fun r hr _ => ⟨(hdst r hr).1, trivial, (hdst r hr).2⟩
    · exact fun r hr _ => ⟨(hsrc r hr).1, trivial, (hsrc r hr).2⟩
    · intro r hr _
      rw [hsend r hr]
      exact hfs r hr _ (hdst r hr).1
    · exact fun r hr _ => hfr r hr _ (hsrc r hr).1
    · exact fun _ _ _ => Nat.le_refl b
    · exact fun _ _ _ => .inl (by simpa using h.ne)
    · exact fun _ _ _ => rfl
    · intro r hr _
      simp only [Tx.data, (hsrc r hr).2, hsend _ (hsrc r hr).1]
    · exact fun r _ h => absurd trivial h

/-- A loop of such rounds, in which every rank meets every other. -/
theorem Got.loop (h : AlltoallArgs P ks kr b m) (hP : 2 ≤ P) (dst src : Nat → Nat → Nat)
    (hdst : ∀ i, 1 ≤ i → i < P → ∀ r, r < P → dst i r < P ∧ src i (dst i r) = r)
    (hsrc : ∀ i, 1 ≤ i → i < P → ∀ r, r < P → src i r < P ∧ dst i (src i r) = r)
    (hall : ∀ r, r < P → ∀ s, s < P → s ≠ r → ∃ i, 1 ≤ i ∧ i < P ∧ s = src i r)
    (loop : Nat → Nat → Mem → Rank Mem)
    (hloop : ∀ i, i < P → ∀ r m, loop i r m = (xchgBytes P m (.user ks) (dst i r * b) b (dst i r)
      (.user kr) (src i r * b) b (src i r) >>= fun x => loop (i + 1) r x.2))
    (hend : ∀ r m, loop P r m = .ret m) {m₀ : Nat → Mem}
    (hI : Got P ks kr b m (fun r s => s = r) m₀) :
    ∃ M : Nat → Mem, Exchanged P ks kr b m M ∧
      Together P (fun r => loop 1 r (m₀ r)) (fun r => .ret (M r)) := by
  obtain ⟨M, hM, hrun⟩ := Together.ascend (P := P) (n := P - 1)
    (fun t (M : Nat → Mem) r => loop (t + 1) r (M r))
    (fun t M => Got P ks kr b m (fun r s => s = r ∨ ∃ i, 1 ≤ i ∧ i ≤ t ∧ s = src i r) M)
    (s := m₀) (by
      intro t M ht hI
      obtain ⟨M', hM', hx⟩ := hI.round h hP (hdst (t + 1) (by omega) (by omega))
        (hsrc (t + 1) (by omega) (by omega)) (loop (t + 1 + 1))
      refine ⟨M', ⟨hM'.keeps, fun r hr s hs hgot => hM'.has r hr s hs ?_⟩,
        .trans (.of_eq fun r _ => hloop (t + 1) (by omega) r (M r)) hx⟩
      rcases hgot with rfl | ⟨i, h₁, h₂, hs⟩
      · exact .inl (.inl rfl)
      · rcases Nat.lt_or_ge t i with hlt | hge
        · obtain rfl : i = t + 1 := by omega
          exact .inr hs
        · exact .inl (.inr ⟨i, h₁, hge, hs⟩))
    ⟨hI.keeps, fun r hr s hs hgot => hI.has r hr s hs (by
      rcases hgot with rfl | ⟨i, h₁, h₂, -⟩
      · rfl
      · omega)⟩
  refine ⟨M, ⟨fun r hr s hs => hM.has r hr s hs ?_, fun r hr => (hM.keeps r hr).user⟩,
    hrun.trans (.of_eq fun r _ => ?_)⟩
  · by_cases hsr : s = r
    · exact .inl hsr
    · obtain ⟨i, h₁, h₂, hs⟩ := hall r hr s hs hsr
      exact .inr ⟨i, h₁, by omega, hs⟩
  · rw [Nat.sub_add_cancel (by omega)]
    exact hend r (M r)

theorem alltoallScattered_together (h : AlltoallArgs P ks kr b m) (hP : 2 ≤ P) {m₀ : Nat → Mem}
    (hI : Got P ks kr b m (fun r s => s = r) m₀) :
    ∃ M : Nat → Mem, Exchanged P ks kr b m M ∧
      Together P (fun r => alltoallScattered P r (.user ks) (.user kr) b b 1 (m₀ r))
        (fun r => .ret (M r)) := by
  have hmod : ∀ x, x % P < P := fun x => Nat.mod_lt _ (by omega)
  refine Got.loop h hP (fun i r => (r + P - i) % P) (fun i r => (r + i) % P)
    (fun i _ hi r hr => ⟨hmod _, up_down hr (by omega)⟩)
    (fun i _ hi r hr => ⟨hmod _, down_up hr (by omega)⟩)
    (fun r hr s hs hne => ⟨rel P r s, ?_, rel_lt _ _ (by omega), ?_⟩)
    (fun i r m => alltoallScattered P r (.user ks) (.user kr) b b i m)
    (fun i hi r m => by rw [alltoallScattered, if_pos hi])
    (fun r m => by rw [alltoallScattered, if_neg (Nat.lt_irrefl P)]) hI
  · have := (rel_eq_zero hr hs).not.mpr hne
    omega
  · rw [Nat.add_comm, ofRel_rel hr hs]

theorem alltoallPairwise_together (h : AlltoallArgs P ks kr b m) (hP : 2 ≤ P) {m₀ : Nat → Mem}
    (hI : Got P ks kr b m (fun r s => s = r) m₀) :
    ∃ M : Nat → Mem, Exchanged P ks kr b m M ∧
      Together P (fun r => alltoallPairwise P r (.user ks) (.user kr) b b 1 (m₀ r))
        (fun r => .ret (M r)) := by
  have hmod : ∀ x, x % P < P := fun x => Nat.mod_lt _ (by omega)
  by_cases hpow : isPof2 P = true
  · obtain ⟨K, hK⟩ := isPof2_iff.mp hpow
    have hlt : ∀ i r, i < P → r < P → r ^^^ i < P := by
      intro i r hi hr
      rw [hK] at *
      exact Nat.xor_lt_two_pow hr hi
    have hback : ∀ r i : Nat, r ^^^ i ^^^ i = r := fun r i => by
      rw [Nat.xor_assoc, Nat.xor_self, Nat.xor_zero]
    refine Got.loop h hP (fun i r => r ^^^ i) (fun i r => r ^^^ i)
      (fun i _ hi r hr => ⟨hlt i r hi hr, hback r i⟩) (fun i _ hi r hr => ⟨hlt i r hi hr, hback r i⟩)
      (fun r hr s hs hne => ⟨r ^^^ s, ?_, hlt s r hs hr, ?_⟩)
      (fun i r m => alltoallPairwise P r (.user ks) (.user kr) b b i m)
      (fun i hi r m => by
        rw [alltoallPairwise, if_pos hi]
        simp only [hpow, if_true])
      (fun r m => by rw [alltoallPairwise, if_neg (Nat.lt_irrefl P)]) hI
    · have : r ^^^ s ≠ 0 := by
        rw [ne_eq, Nat.xor_eq_zero_iff]
        exact fun h => hne h.symm
      omega
    · rw [← Nat.xor_assoc, Nat.xor_self, Nat.zero_xor]
  · refine Got.loop h hP (fun i r => (r + i) % P) (fun i r => (r + P - i) % P)
      (fun i _ hi r hr => ⟨hmod _, down_up hr (by omega)⟩)
      (fun i _ hi r hr => ⟨hmod _, up_down hr (by omega)⟩)
      (fun r hr s hs hne => ⟨rel P s r, ?_, rel_lt _ _ (by omega), ?_⟩)
      (fun i r m => alltoallPairwise P r (.user ks) (.user kr) b b i m)
      (fun i hi r m => by
        rw [alltoallPairwise, if_pos hi]
        simp only [if_neg hpow])
      (fun r m => by rw [alltoallPairwise, if_neg (Nat.lt_irrefl P)]) hI
    · have := (rel_eq_zero hs hr).not.mpr (Ne.symm hne)
      omega
    · exact (down_dist hr hs).symm

end

/-! ## Bruck -/

/-- How many indices below `j` have bit `i` set. -/
def ones (i j : Nat) : Nat := prefixSum (fun j => if j.testBit i then 1 else 0) j

theorem ones_succ {i j : Nat} (h : j.testBit i = true) : ones i (j + 1) = ones i j + 1 := by
  rw [ones, prefixSum, if_pos h]
  rfl

theorem ones_succ_of_clear {i j : Nat} (h : ¬ j.testBit i = true) : ones i (j + 1) = ones i j := by
  rw [ones, prefixSum, if_neg h]
  rfl

theorem ones_lt {i j n : Nat} (hj : j < n) (h : j.testBit i = true) : ones i j < ones i n := by
  have : ones i (j + 1) ≤ ones i n := prefixSum_mono _ hj
  rw [ones_succ h] at this
  omega

theorem ones_le (i n : Nat) : ones i n ≤ n := by
  induction n with
  | zero => exact Nat.le_refl 0
  | succ n ih =>
    by_cases h : n.testBit i = true
    · rw [ones_succ h]
      omega
    · rw [ones_succ_of_clear h]
      omega

theorem packFrom_eq {P b i j : Nat} (hj : j ≤ P) (m : Mem) :
    packFrom P b i j (ones i j) m
      = (copyBlocks (·.testBit i) (.scratch 1) (fun j => ones i j * b) (.scratch 0) (fun j => j * b)
          (fun _ => b) P j m).map fun m => (ones i P, m) := by
  induction hn : P - j generalizing j m with
  | zero =>
    obtain rfl : j = P := by omega
    rw [packFrom, copyBlocks, forRange, if_neg (by omega), if_neg (by omega)]
    rfl
  | succ n ih =>
    have hlt : j < P := by omega
    rw [packFrom, copyBlocks, forRange, if_pos hlt, if_pos hlt]
    by_cases hb : j.testBit i = true
    · rw [if_pos (land_pow_ne_zero.mpr hb), if_pos hb, ← ones_succ hb]
      cases m.copy (.scratch 1) (ones i j * b) (.scratch 0) (j * b) b with
      | none => rfl
      | some m' => exact ih (by omega) m' (by omega)
    · rw [if_neg (fun h => hb (land_pow_ne_zero.mp h)), if_neg hb, ← ones_succ_of_clear hb]
      exact ih (by omega) m (by omega)

theorem unpackFrom_eq {P b i j : Nat} (hj : j ≤ P) (m : Mem) :
    unpackFrom P b i j (ones i j) m
      = copyBlocks (·.testBit i) (.scratch 0) (fun j => j * b) (.scratch 2) (fun j => ones i j * b)
          (fun _ => b) P j m := by
  induction hn : P - j generalizing j m with
  | zero =>
    obtain rfl : j = P := by omega
    rw [unpackFrom, copyBlocks, forRange, if_neg (by omega), if_neg (by omega)]
  | succ n ih =>
    have hlt : j < P := by omega
    rw [unpackFrom, copyBlocks, forRange, if_pos hlt, if_pos hlt]
    by_cases hb : j.testBit i = true
    · rw [if_pos (land_pow_ne_zero.mpr hb), if_pos hb, ← ones_succ hb]
      cases m.copy (.scratch 0) (j * b) (.scratch 2) (ones i j * b) b with
      | none => rfl
      | some m' => exact ih (by omega) m' (by omega)
    · rw [if_neg (fun h => hb (land_pow_ne_zero.mp h)), if_neg hb, ← ones_succ_of_clear hb]
      exact ih (by omega) m (by omega)

/-- The block at index `j` of rank `r` after `i` exchanges: it started `j % 2 ^ i` ranks
below, and wants to go `j` ranks up from there. -/
def bruckBlock (P b : Nat) (S : Nat → Bytes) (i r j : Nat) : Bytes :=
  slice (S ((r + P - j % 2 ^ i) % P)) (((r + P - j % 2 ^ i) % P + j) % P * b) b

section

variable {P ks kr b : Nat} {m : Nat → Mem} {S : Nat → Bytes}

theorem bruckBlock_of_bit {i r j : Nat} (hr : r < P) (hj : j < P) (hb : j.testBit i = true) :
    bruckBlock P b S i ((r + P - 2 ^ i) % P) j = bruckBlock P b S (i + 1) r j := by
  have hmod : j % 2 ^ (i + 1) = j % 2 ^ i + 2 ^ i := by rw [mod_pow_succ, if_pos hb]
  have hle := Nat.mod_le j (2 ^ (i + 1))
  unfold bruckBlock
  rw [hmod, down_down hr (by omega) (by omega)]

theorem bruckBlock_of_clear {i r j : Nat} (hb : ¬ j.testBit i = true) :
    bruckBlock P b S i r j = bruckBlock P b S (i + 1) r j := by
  have hmod : j % 2 ^ (i + 1) = j % 2 ^ i := by rw [mod_pow_succ, if_neg hb, Nat.add_zero]
  unfold bruckBlock
  rw [hmod]

/-- Before exchange `i`. -/
structure BruckHas (P b : Nat) (S : Nat → Bytes) (m : Nat → Mem) (i : Nat) (M : Nat → Mem) :
    Prop where
  user : ∀ r, r < P → ∀ k, M r (.user k) = m r (.user k)
  room : ∀ r, r < P → ∀ t, t < 3 → P * b ≤ (M r (.scratch t)).length
  has : ∀ r, r < P → ∀ j, j < P → slice (M r (.scratch 0)) (j * b) b = bruckBlock P b S i r j

theorem bruck_pack {M : Mem} {i : Nat} (hroom : ∀ t, t < 3 → P * b ≤ (M (.scratch t)).length) :
    ∃ M', packFrom P b i 0 0 M = some (ones i P, M') ∧ Keeps (.scratch 1) (fun _ => True) M M' ∧
      ∀ j, j < P → j.testBit i = true →
        slice (M' (.scratch 1)) (ones i j * b) b = slice (M (.scratch 0)) (j * b) b := by
  obtain ⟨M', hM', hk, hb⟩ := copyBlocks_spec (·.testBit i) (.scratch 1)
    (fun j => ones i j * b) (.scratch 0) (fun j => j * b) (fun _ => b) P 0 M (by simp) (Nat.zero_le P)
    (fun j _ hj _ => .of_le (Nat.le_trans (mul_add_le_mul hj b) (hroom 0 (by omega))))
    (fun j _ hj hc => .of_le (by
      have := ones_lt hj hc
      have := ones_le i P
      exact Nat.le_trans (mul_add_le_mul (show ones i j < P by omega) b) (hroom 1 (by omega))))
    (fun j j' _ hjj _ hc _ => apart_mul (Nat.ne_of_lt (ones_lt hjj hc)) b)
  refine ⟨M', ?_, hk.mono fun _ _ => trivial, fun j hj => hb j (Nat.zero_le j) hj⟩
  have := packFrom_eq (b := b) (i := i) (Nat.zero_le P) M
  rw [hM'] at this
  exact this

theorem bruck_unpack {M : Mem} {i : Nat} (hroom : ∀ t, t < 3 → P * b ≤ (M (.scratch t)).length) :
    ∃ M', unpackFrom P b i 0 0 M = some M' ∧ Keeps (.scratch 0) (fun _ => True) M M' ∧
      ∀ j, j < P → slice (M' (.scratch 0)) (j * b) b =
        if j.testBit i = true then slice (M (.scratch 2)) (ones i j * b) b
        else slice (M (.scratch 0)) (j * b) b := by
  obtain ⟨M', hM', hk, hb⟩ := copyBlocks_spec (·.testBit i) (.scratch 0)
    (fun j => j * b) (.scratch 2) (fun j => ones i j * b) (fun _ => b) P 0 M (by simp) (Nat.zero_le P)
    (fun j _ hj hc => .of_le (by
      have := ones_lt hj hc
      have := ones_le i P
      exact Nat.le_trans (mul_add_le_mul (show ones i j < P by omega) b) (hroom 2 (by omega))))
    (fun j _ hj _ => .of_le (Nat.le_trans (mul_add_le_mul hj b) (hroom 0 (by omega))))
    (fun j j' _ hjj _ _ _ => apart_mul (Nat.ne_of_lt hjj) b)
  refine ⟨M', (unpackFrom_eq (Nat.zero_le P) M).trans hM', hk.mono fun _ _ => trivial,
    fun j hj => ?_⟩
  split
  · next hc => exact hb j (Nat.zero_le j) hj hc
  · next hc =>
    refine hk.slice_eq ?_
    rintro x hlo hhi ⟨j', -, hj', hc', hlo', hhi'⟩
    have hne : j ≠ j' := fun h => hc (h ▸ hc')
    have := apart_mul hne b
    unfold Apart at this
    omega

theorem alltoallBruckFrom_step (hP : 2 ≤ P) {i : Nat} (hi : 2 ^ i < P) {M : Nat → Mem}
    (hI : BruckHas P b S m i M) :
    ∃ M' : Nat → Mem, BruckHas P b S m (i + 1) M' ∧
      Together P (fun r => alltoallBruckFrom P r b i (M r))
        (fun r => alltoallBruckFrom P r b (i + 1) (M' r)) := by
  have hmod : ∀ x, x % P < P := fun x => Nat.mod_lt _ (by omega)
  have hnb := ones_le i P
  have hnbb := Nat.mul_le_mul_right b hnb
  have hpack := fun r hr => bruck_pack (i := i) (hI.room r hr)
  choose! M₁ hM₁ hk₁ hb₁ using hpack
  have hroom₁ : ∀ r, r < P → ∀ t, t < 3 → P * b ≤ (M₁ r (.scratch t)).length := fun r hr t ht => by
    rw [(hk₁ r hr).length]
    exact hI.room r hr t ht
  let M₂ : Nat → Mem := fun r =>
    (M₁ r).put (.scratch 2) 0 (slice (M₁ ((r + P - 2 ^ i) % P) (.scratch 1)) 0 (ones i P * b))
  have hsl : ∀ r, (slice (M₁ ((r + P - 2 ^ i) % P) (.scratch 1)) 0 (ones i P * b)).length
      = ones i P * b := fun r =>
    length_slice (.of_le (by have := hroom₁ _ (hmod (r + P - 2 ^ i)) 1 (by omega); omega))
  have hput : ∀ r, r < P → Fits (M₁ r (.scratch 2)) 0
      (slice (M₁ ((r + P - 2 ^ i) % P) (.scratch 1)) 0 (ones i P * b)).length := fun r hr => by
    rw [hsl]
    exact .of_le (by have := hroom₁ r hr 2 (by omega); omega)
  have hk₂ : ∀ r, r < P → Keeps (.scratch 2) (fun _ => True) (M₁ r) (M₂ r) := fun r hr =>
    Keeps.put (hput r hr) fun _ _ _ => trivial
  have hroom₂ : ∀ r, r < P → ∀ t, t < 3 → P * b ≤ (M₂ r (.scratch t)).length := fun r hr t ht => by
    rw [(hk₂ r hr).length]
    exact hroom₁ r hr t ht
  have hunpack := fun r hr => bruck_unpack (i := i) (hroom₂ r hr)
  choose! M₃ hM₃ hk₃ hb₃ using hunpack
  refine ⟨M₃, ⟨fun r hr k => ?_, fun r hr t ht => ?_, fun r hr j hj => ?_⟩, ?_⟩
  · rw [(hk₃ r hr).other _ (by simp), (hk₂ r hr).other _ (by simp), (hk₁ r hr).other _ (by simp),
      hI.user r hr]
  · rw [(hk₃ r hr).length]
    exact hroom₂ r hr t ht
  · rw [hb₃ r hr j hj]
    split
    · next hc =>
      have hlt := ones_lt hj hc
      have hmul := mul_add_le_mul hlt b
      have hwhole := slice_put_self (hput r hr)
      rw [hsl] at hwhole
      have hpart : slice (M₂ r (.scratch 2)) (ones i j * b) b
          = slice (M₁ ((r + P - 2 ^ i) % P) (.scratch 1)) (ones i j * b) b := by
        have h₁ := @slice_slice _ (M₂ r (.scratch 2)) 0 _ _ _ hmul
        have h₂ := @slice_slice _ (M₁ ((r + P - 2 ^ i) % P) (.scratch 1)) 0 _ _ _ hmul
        rw [Nat.zero_add] at h₁ h₂
        rw [← h₁, ← h₂, hwhole]
      rw [hpart, hb₁ _ (hmod _) j hj hc, hI.has _ (hmod _) j hj, bruckBlock_of_bit hr hj hc]
    · next hc =>
      rw [(hk₂ r hr).other _ (by simp), (hk₁ r hr).other _ (by simp), hI.has r hr j hj,
        bruckBlock_of_clear hc]
  · refine .trans (.of_eq fun r hr => ?_) (Together.exchange (m := M₁) (fun _ => True) hP
      (fun r => ⟨(r + 2 ^ i) % P, .scratch 1, 0, ones i P * b⟩)
      (fun r => ⟨(r + P - 2 ^ i) % P, .scratch 2, 0, ones i P * b⟩)
      (fun r x => access (unpackFrom P b i 0 0 x.2) >>= fun m => alltoallBruckFrom P r b (i + 1) m)
      ?_ ?_ ?_ ?_ ?_ ?_ (fun r _ _ => rfl) ?_ ?_)
    · rw [alltoallBruckFrom, if_pos hi, hM₁ r hr, access_some, Prog.ret_bind]
    · exact fun r hr _ => ⟨hmod _, trivial, down_up hr (by omega)⟩
    · exact fun r hr _ => ⟨hmod _, trivial, up_down hr (by omega)⟩
    · exact fun r hr _ => .of_le (by have := hroom₁ r hr 1 (by omega); dsimp only; omega)
    · exact fun r hr _ => .of_le (by have := hroom₁ r hr 2 (by omega); dsimp only; omega)
    · exact fun _ _ _ => Nat.le_refl _
    · exact fun _ _ _ => .inl (by simp)
    · intro r hr _
      have := hM₃ r hr
      simp only [Tx.data]
      rw [show (M₁ r).put (.scratch 2) 0 (slice (M₁ ((r + P - 2 ^ i) % P) (.scratch 1)) 0
        (ones i P * b)) = M₂ r from rfl, this, access_some, Prog.ret_bind]
    · exact fun r _ h => absurd trivial h

theorem bruck_scratch (rt : Runtime) (n : Nat) (M : Mem) :
    let M' := scratchOrVec rt 2 n (scratchOrVec rt 1 n (scratchOrVec rt 0 n M))
    (∀ k, M' (.user k) = M (.user k)) ∧ ∀ t, t < 3 → n ≤ (M' (.scratch t)).length := by
  refine ⟨fun k => ?_, fun t ht => ?_⟩
  · rw [scratchOrVec_ne _ _ _ _ (by simp), scratchOrVec_ne _ _ _ _ (by simp),
      scratchOrVec_ne _ _ _ _ (by simp)]
  · rcases (by omega : t = 0 ∨ t = 1 ∨ t = 2) with rfl | rfl | rfl
    · rw [scratchOrVec_ne _ _ _ _ (by simp), scratchOrVec_ne _ _ _ _ (by simp)]
      exact le_length_scratchOrVec ..
    · rw [scratchOrVec_ne _ _ _ _ (by simp)]
      exact le_length_scratchOrVec ..
    · exact le_length_scratchOrVec ..

/-- The rotated copy of the send buffer a rank starts from. -/
theorem bruck_init (rt : Runtime) (ks r : Nat) (hP : 2 ≤ P) {M : Mem}
    (hsend : P * b ≤ (M (.user ks)).length) :
    ∃ M', copyBlocks (fun _ => true) (.scratch 0) (fun j => j * b) (.user ks)
        (fun j => (r + j) % P * b) (fun _ => b) P 0
        (scratchOrVec rt 2 (P * b) (scratchOrVec rt 1 (P * b) (scratchOrVec rt 0 (P * b) M)))
        = some M' ∧
      (∀ k, M' (.user k) = M (.user k)) ∧ (∀ t, t < 3 → P * b ≤ (M' (.scratch t)).length) ∧
      ∀ j, j < P → slice (M' (.scratch 0)) (j * b) b = slice (M (.user ks)) ((r + j) % P * b) b := by
  obtain ⟨huser, hroom⟩ := bruck_scratch rt (P * b) M
  have hmod : ∀ x, x % P < P := fun x => Nat.mod_lt _ (by omega)
  obtain ⟨M', hM', hk, hb⟩ := copyBlocks_spec (fun _ => true) (.scratch 0)
    (fun j => j * b) (.user ks) (fun j => (r + j) % P * b) (fun _ => b) P 0
    (scratchOrVec rt 2 (P * b) (scratchOrVec rt 1 (P * b) (scratchOrVec rt 0 (P * b) M)))
    (by simp) (Nat.zero_le P)
    (fun j _ _ _ => .of_le (by
      rw [huser]
      exact Nat.le_trans (mul_add_le_mul (hmod _) b) hsend))
    (fun j _ hj _ => .of_le (Nat.le_trans (mul_add_le_mul hj b) (hroom 0 (by omega))))
    (fun i j _ hij _ _ _ => apart_mul (Nat.ne_of_lt hij) b)
  refine ⟨M', hM', fun k => ?_, fun t ht => ?_, fun j hj => ?_⟩
  · rw [hk.other _ (by simp), huser]
  · rw [hk.length]
    exact hroom t ht
  · have := hb j (Nat.zero_le j) hj rfl
    rwa [huser] at this

/-- The copy of the arrived blocks into the receive buffer. -/
theorem bruck_finish (kr : Nat) (hP : 2 ≤ P) {r : Nat} (hr : r < P) {B : Nat → Bytes} {M : Mem}
    (hroom : P * b ≤ (M (.scratch 0)).length) (hrecv : P * b ≤ (M (.user kr)).length)
    (hown : slice (M (.user kr)) (r * b) b = B r)
    (hhas : ∀ j, j < P → slice (M (.scratch 0)) (j * b) b = B ((r + P - j) % P)) :
    ∃ M', copyBlocks (fun _ => true) (.user kr) (fun j => (r + P - j) % P * b) (.scratch 0)
        (fun j => j * b) (fun _ => b) P 1 M = some M' ∧ UserKeeps kr (· < P * b) M M' ∧
      ∀ s, s < P → slice (M' (.user kr)) (s * b) b = B s := by
  have hmod : ∀ x, x % P < P := fun x => Nat.mod_lt _ (by omega)
  obtain ⟨M', hM', hk, hb⟩ := copyBlocks_spec (fun _ => true) (.user kr)
    (fun j => (r + P - j) % P * b) (.scratch 0) (fun j => j * b) (fun _ => b) P 1 M (by simp) (by omega)
    (fun j _ hj _ => .of_le (Nat.le_trans (mul_add_le_mul hj b) hroom))
    (fun j _ _ _ => .of_le (Nat.le_trans (mul_add_le_mul (hmod _) b) hrecv))
    (fun i j _ hij hj _ _ => apart_mul (fun h => by
      have := down_inj hr (by omega) (by omega) h
      omega) b)
  refine ⟨M', hM', hk.user.mono ?_, fun s hs => ?_⟩
  · rintro x ⟨j, -, -, -, -, hx⟩
    have := mul_add_le_mul (hmod (r + P - j)) b
    omega
  · by_cases hsr : s = r
    · subst hsr
      rw [hk.slice_eq, hown]
      rintro x hlo hhi ⟨j, h₁, h₂, -, hx⟩
      have hne : s ≠ (s + P - j) % P := by
        intro h
        have h' : (s + P - 0) % P = (s + P - j) % P := by
          rw [Nat.sub_zero, Nat.add_mod_right, Nat.mod_eq_of_lt hr]
          exact h
        have := down_inj hr (by omega) h₂ h'
        omega
      have := apart_mul hne b
      unfold Apart at this
      omega
    · have hdist := down_dist hr hs
      have hne : (r + P - s) % P ≠ 0 := by
        intro h
        rw [h, Nat.sub_zero, Nat.add_mod_right, Nat.mod_eq_of_lt hr] at hdist
        exact hsr hdist.symm
      have := hb ((r + P - s) % P) (by omega) (hmod _) rfl
      simp only [hdist] at this
      rw [this, hhas _ (hmod _), hdist]

theorem alltoallBruck_together (rt : Nat → Runtime) (h : AlltoallArgs P ks kr b m) (hP : 2 ≤ P)
    {m₀ : Nat → Mem} (hI : Got P ks kr b m (fun r s => s = r) m₀) :
    ∃ M : Nat → Mem, Exchanged P ks kr b m M ∧
      Together P (fun r => alltoallBruck (rt r) P r (m₀ r) (.user ks) (.user kr) b b)
        (fun r => .ret (M r)) := by
  obtain ⟨K, hK, hpow⟩ := exists_pow_ge P
  have hsend : ∀ r, r < P → m₀ r (.user ks) = m r (.user ks) := fun r hr =>
    (hI.keeps r hr).other _ (by simpa using h.ne)
  have hinit := fun r hr => bruck_init (rt r) ks r hP (M := m₀ r)
    (by rw [hsend r hr]; exact h.send r hr)
  choose! M₁ hM₁ huser hroom hblk using hinit
  have hstart : BruckHas P b (fun s => m s (.user ks)) m₀ 0 M₁ := by
    refine ⟨huser, hroom, fun r hr j hj => ?_⟩
    rw [hblk r hr j hj, hsend r hr, bruckBlock, Nat.pow_zero, Nat.mod_one, Nat.sub_zero,
      Nat.add_mod_right, Nat.mod_eq_of_lt hr]
  obtain ⟨M₂, hM₂, hrun⟩ := Together.ascend (P := P) (n := K)
    (fun i (M : Nat → Mem) r => alltoallBruckFrom P r b i (M r))
    (BruckHas P b (fun s => m s (.user ks)) m₀)
    (fun i M hi hI => alltoallBruckFrom_step hP ((hpow i).mpr hi) hI) hstart
  have hfin := fun r hr => bruck_finish (b := b) kr hP hr (M := M₂ r)
    (B := fun s => slice (m s (.user ks)) (r * b) b) (hM₂.room r hr 0 (by omega))
    (by rw [hM₂.user r hr, (hI.keeps r hr).len]; exact h.recv r hr)
    (by rw [hM₂.user r hr]; exact hI.has r hr r hr rfl)
    (fun j hj => by
      have hjK : j % 2 ^ K = j := Nat.mod_eq_of_lt (by omega)
      rw [hM₂.has r hr j hj, bruckBlock, hjK, up_down hr (by omega)])
  choose! M₃ hM₃ hk₃ hb₃ using hfin
  refine ⟨M₃, ⟨hb₃, fun r hr => ?_⟩, .trans (.of_eq fun r hr => ?_) ((hrun.bind fun r m =>
    access (copyBlocks (fun _ => true) (.user kr) (fun j => (r + P - j) % P * b) (.scratch 0)
      (fun j => j * b) (fun _ => b) P 1 m)).trans (.of_eq fun r hr => ?_))⟩
  · exact (hI.keeps r hr).user.trans ((UserKeeps.of_eq (hM₂.user r hr)).trans (hk₃ r hr))
  · simp only [alltoallBruck, hM₁ r hr, access_some, Prog.ret_bind]
  · rw [alltoallBruckFrom, if_neg (by omega), Prog.ret_bind, hM₃ r hr, access_some]

/-! ## The call -/

theorem mpiAlltoall_together {scount stype rcount rtype : Nat → Nat} (rt : Nat → Runtime) (hP : 1 ≤ P)
    (hs : ∀ r, r < P → bytesOf (scount r) (stype r) = some b)
    (hr : ∀ r, r < P → bytesOf (rcount r) (rtype r) = some b)
    (h : AlltoallArgs P ks kr b m) :
    ∃ M : Nat → Mem, Exchanged P ks kr b m M ∧
      Together P (fun r => mpiAlltoall (rt r) P r (m r) (.user ks) (scount r) (stype r) (.user kr)
        (rcount r) (rtype r)) (fun r => .ret (M r)) := by
  have hfs : ∀ r, r < P → Fits (m r (.user ks)) (r * b) b := fun r hr =>
    .of_le (Nat.le_trans (mul_add_le_mul hr b) (h.send r hr))
  have hfr : ∀ r, r < P → Fits (m r (.user kr)) (r * b) b := fun r hr =>
    .of_le (Nat.le_trans (mul_add_le_mul hr b) (h.recv r hr))
  -- the own block
  let m₀ : Nat → Mem := fun r => (m r).put (.user kr) (r * b) (slice (m r (.user ks)) (r * b) b)
  have hput : ∀ r, r < P →
      Fits (m r (.user kr)) (r * b) (slice (m r (.user ks)) (r * b) b).length := fun r hr => by
    rw [length_slice (hfs r hr)]
    exact hfr r hr
  have hI : Got P ks kr b m (fun r s => s = r) m₀ := by
    refine ⟨fun r hr => Keeps.put (hput r hr) fun x _ hx => ?_, fun r hr s hs hsr => ?_⟩
    · rw [length_slice (hfs r hr)] at hx
      have := mul_add_le_mul hr b
      omega
    · subst hsr
      have := slice_put_self (hput s hr)
      rwa [length_slice (hfs s hr)] at this
  have hcopy : ∀ r, r < P → (m r).copy (.user kr) (r * b) (.user ks) (r * b) b = some (m₀ r) :=
    fun r hr => Mem.copy_eq (hfs r hr) (hfr r hr)
  have hstart : ∀ alg : Nat → Mem → Rank Mem, (∀ r m, (if P ≤ 1 then .ret m
        else if b ≤ kAlltoallShort ∧ P ≥ kAlltoallMinProcs then
          alltoallBruck (rt r) P r m (.user ks) (.user kr) b b
        else if b ≤ kAlltoallMedium then alltoallScattered P r (.user ks) (.user kr) b b 1 m
        else alltoallPairwise P r (.user ks) (.user kr) b b 1 m) = alg r m) →
      Together P (fun r => mpiAlltoall (rt r) P r (m r) (.user ks) (scount r) (stype r) (.user kr)
        (rcount r) (rtype r)) (fun r => alg r (m₀ r)) := by
    intro alg halg
    refine .of_eq fun r hrP => ?_
    rw [← halg]
    simp only [mpiAlltoall, hs r hrP, hr r hrP, access_some, Prog.ret_bind, hcopy r hrP]
  by_cases hone : P ≤ 1
  · refine ⟨m₀, ⟨fun r hr s hs => hI.has r hr s hs (by omega), fun r hr => (hI.keeps r hr).user⟩,
      hstart _ fun r m => if_pos hone⟩
  · have hP2 : 2 ≤ P := by omega
    by_cases hb : b ≤ kAlltoallShort ∧ P ≥ kAlltoallMinProcs
    · obtain ⟨M, hM, hrun⟩ := alltoallBruck_together rt h hP2 hI
      exact ⟨M, hM, (hstart _ fun r m => (if_neg hone).trans (if_pos hb)).trans hrun⟩
    · by_cases hm : b ≤ kAlltoallMedium
      · obtain ⟨M, hM, hrun⟩ := alltoallScattered_together h hP2 hI
        exact ⟨M, hM, (hstart _ fun r m =>
          (if_neg hone).trans ((if_neg hb).trans (if_pos hm))).trans hrun⟩
      · obtain ⟨M, hM, hrun⟩ := alltoallPairwise_together h hP2 hI
        exact ⟨M, hM, (hstart _ fun r m =>
          (if_neg hone).trans ((if_neg hb).trans (if_neg hm))).trans hrun⟩

end

/-- **MPI_Alltoall.** Whatever the interleaving and whichever algorithm, block `s` of rank
`r`'s receive buffer ends as block `r` of rank `s`'s send buffer, nothing else changes,
and nothing stays in flight. -/
theorem mpiAlltoall_completes {P ks kr b scount stype rcount rtype : Nat} {m : Nat → Mem}
    (rt : Nat → Runtime) (hP : 1 ≤ P) (hs : bytesOf scount stype = some b)
    (hr : bytesOf rcount rtype = some b) (h : AlltoallArgs P ks kr b m) :
    ∃ M : Nat → Mem,
      Completes (world P (fun r => mpiAlltoall (rt r) P r (m r) (.user ks) scount stype (.user kr)
        rcount rtype) m) M ∧
      (∀ r, r < P → ∀ s, s < P →
        slice (M r (.user kr)) (s * b) b = slice (m s (.user ks)) (r * b) b) ∧
      ∀ r, r < P → UserKeeps kr (· < P * b) (m r) (M r) := by
  obtain ⟨M, hM, hrun⟩ := mpiAlltoall_together rt hP (fun _ _ => hs) (fun _ _ => hr) h
  refine ⟨_, hrun.completes, fun r hr => ?_, fun r hr => ?_⟩
  · simp only [if_pos hr]
    exact hM.blocks r hr
  · simp only [if_pos hr]
    exact hM.keeps r hr

theorem mpiAlltoall_completes_two_ranks :
    ∃ M : Nat → Mem,
      Completes (world 2 (fun r => mpiAlltoall ⟨false, fun c => Vector.replicate c 0⟩ 2 r
        (fun _ => [UInt8.ofNat r, 7]) (.user 0) 1 8 (.user 1) 1 8) fun r _ => [UInt8.ofNat r, 7]) M ∧
      slice (M 1 (.user 1)) (0 * 1) 1 = [7] := by
  obtain ⟨M, hM, hb, -⟩ := @mpiAlltoall_completes 2 0 1 1 1 8 1 8 (fun r _ => [UInt8.ofNat r, 7])
    (fun _ => ⟨false, fun c => Vector.replicate c 0⟩) (by decide) rfl rfl
    ⟨by decide, fun _ _ => Nat.le_refl 2, fun _ _ => Nat.le_refl 2⟩
  exact ⟨M, hM, hb 1 (by decide) 0 (by decide)⟩

end Pimid.Mpi
