import Pimid.Lib.Blocks
import Pimid.Mpi.Datatype
import Pimid.Mpi.Tree

/-!
# MPI_Gather and MPI_Scatter

Gather and scatter walk the binomial tree in the two directions. A rank's subtree
is a run of consecutive relative ranks, clipped at `P`; its blocks travel as one
message, packed in relative order with the rank's own block first. Only the root
unpacks (or packs) by absolute rank, and only if it is not rank 0. A leaf of the
tree uses the caller's buffer directly.

The number of blocks in a message is known at both ends on different grounds: a
parent from the blocks it holds, a child from its own rank's low bits.
-/

namespace Pimid.Mpi

open Pimid.Net

/-! ## The code -/

/-- How many blocks the subtree of a relative rank has. -/
def subtree (P rel : Nat) : Nat :=
  let sub := scanMask P rel 0
  if rel = 0 then P else if sub > P - rel then P - rel else sub

/-- The tree walk of `MPI_Gather` from `mask = 2 ^ i` on, on the buffer `w`. -/
def gatherFrom (P rank : Nat) (w : BufId) (blk root i curr : Nat) (m : Mem) : Rank Mem :=
  let rel := rel P root rank
  if 2 ^ i < P then
    if rel &&& 2 ^ i = 0 then
      let src := rel ||| 2 ^ i
      if src < P then do
        let nb := if 2 ^ i < P - src then 2 ^ i else P - src
        let (_, m) ← recvBytes P m w (2 ^ i * blk) (nb * blk) ((src + root) % P)
        gatherFrom P rank w blk root (i + 1) (curr + nb) m
      else gatherFrom P rank w blk root (i + 1) curr m
    else do
      sendBytes P m w 0 (curr * blk) ((Nat.ldiff rel (2 ^ i) + root) % P) 0
      .ret m
  else .ret m
termination_by P - i
decreasing_by
  all_goals
    have := Nat.lt_two_pow_self (n := i)
    omega

/-- Where a rank's own block is: `none` is a null pointer. -/
def gatherOwn (sendbuf : Arg) (rbuf : BufId) (root blk : Nat) : Option (BufId × Nat) :=
  match sendbuf with
  | .inPlace => some (rbuf, root * blk)
  | .buf b => some (b, 0)
  | .null => none

/-- Put the own block at the start of `w`, unless it is there. -/
def gatherCopy (m : Mem) (sendbuf : Arg) (rbuf : BufId) (blk root : Nat) (w : BufId) : Option Mem :=
  match gatherOwn sendbuf rbuf root blk with
  | none => some m
  | some (o, off) =>
    if (o, off) ≠ (w, 0) ∧ sendbuf ≠ .buf w then m.copy w 0 o off blk else some m

/-- `w`, with scratch memory made available where that is what it is. A leaf sends
from the caller's buffer, which may be no buffer when there is nothing to send. -/
def gatherBuf (rt : Runtime) (P rank : Nat) (m : Mem) (sendbuf : Arg) (rbuf : BufId)
    (blk root : Nat) : Option (BufId × Mem) :=
  let rel := rel P root rank
  let sub := subtree P rel
  if rel = 0 ∧ root = 0 then some (rbuf, m)
  else if sub = 1 then
    match sendbuf with
    | .buf b => some (b, m)
    | _ => if blk = 0 then some (rbuf, m) else none
  else some (.scratch 0, scratchOrVec rt 0 (sub * blk) m)

def mpiGather (rt : Runtime) (P rank : Nat) (m : Mem) (sendbuf : Arg) (sendcount sendtype : Nat)
    (rbuf : BufId) (recvcount recvtype root : Nat) : Rank Mem := do
  let rel := rel P root rank
  let blk ← access (if rank = root then bytesOf recvcount recvtype else bytesOf sendcount sendtype)
  if P ≤ 1 then
    match sendbuf with
    | .buf b => access (m.copy rbuf 0 b 0 blk)
    | _ => .ret m
  else do
    let (w, m) ← access (gatherBuf rt P rank m sendbuf rbuf blk root)
    let m ← access (gatherCopy m sendbuf rbuf blk root w)
    let m ← gatherFrom P rank w blk root 0 1 m
    if rel = 0 ∧ root ≠ 0 then
      access (copyBlocks (fun _ => true) rbuf (fun j => (j + root) % P * blk) w (fun j => j * blk)
        (fun _ => blk) P 0 m)
    else .ret m

/-- The sends of `MPI_Scatter` from `mask` down, with `curr` blocks in `w`. -/
def scatterDown (P rank : Nat) (m : Mem) (w : BufId) (blk root curr mask : Nat) : Rank Unit :=
  if mask > 0 then
    if rel P root rank + mask < P ∧ curr > mask then do
      sendBytes P m w (mask * blk) ((curr - mask) * blk) ((rank + mask) % P) 0
      scatterDown P rank m w blk root mask (mask / 2)
    else scatterDown P rank m w blk root curr (mask / 2)
  else .ret ()
termination_by mask

/-- What a rank does last: its own block goes into the receive buffer. -/
def scatterFin (recvbuf : Arg) (w : BufId) (blk : Nat) (m : Mem) : Rank Mem :=
  match recvbuf with
  | .buf b => access (m.copy b 0 w 0 blk)
  | _ => .ret m

/-- The sends and the copy of the own block. -/
def scatterRest (P rank : Nat) (w : BufId) (recvbuf : Arg) (blk root curr : Nat) (m : Mem) :
    Rank Mem := do
  scatterDown P rank m w blk root curr (scanMask P (rel P root rank) 0 / 2)
  scatterFin recvbuf w blk m

/-- `MPI_Scatter` on two or more ranks, for blocks of `blk` bytes. -/
def scatterTree (rt : Runtime) (P rank : Nat) (m : Mem) (sbuf : BufId) (recvbuf : Arg)
    (blk root : Nat) : Rank Mem :=
  let rel := rel P root rank
  let sub := subtree P rel
  if rel = 0 then
    if root = 0 then scatterRest P rank sbuf recvbuf blk root P m
    else do
      let m := scratchOrVec rt 0 (P * blk) m
      let m ← access (copyBlocks (fun _ => true) (.scratch 0) (fun j => j * blk) sbuf
        (fun j => (j + root) % P * blk) (fun _ => blk) P 0 m)
      scatterRest P rank (.scratch 0) recvbuf blk root P m
  else
    let parent := (rank + P - scanMask P rel 0) % P
    if sub = 1 then
      match recvbuf with
      | .buf b => do
        let (_, m) ← recvBytes P m b 0 blk parent
        .ret m
      | _ =>
        if blk = 0 then do
          let (_, m) ← recvBytes P m sbuf 0 0 parent
          .ret m
        else .fail
    else do
      let m := scratchOrVec rt 0 (sub * blk) m
      let (_, m) ← recvBytes P m (.scratch 0) 0 (sub * blk) parent
      scatterRest P rank (.scratch 0) recvbuf blk root sub m

def mpiScatter (rt : Runtime) (P rank : Nat) (m : Mem) (sbuf : BufId) (sendcount sendtype : Nat)
    (recvbuf : Arg) (recvcount recvtype root : Nat) : Rank Mem := do
  let blk ← access (if rank = root then bytesOf sendcount sendtype else bytesOf recvcount recvtype)
  if P ≤ 1 then
    match recvbuf with
    | .buf b => access (m.copy b 0 sbuf 0 blk)
    | _ => .ret m
  else scatterTree rt P rank m sbuf recvbuf blk root

/-! ## Subtrees -/

theorem subtree_zero (P : Nat) : subtree P 0 = P := by simp [subtree]

theorem subtree_of_bit {P x j : Nat} (hx : x < P) (h0 : x % 2 ^ j = 0) (hb : x.testBit j = true) :
    subtree P x = min (2 ^ j) (P - x) := by
  have hne : x ≠ 0 := by
    rintro rfl
    simp at hb
  rw [subtree, if_neg hne, scanMask_of_bit hx h0 hb (Nat.zero_le j)]
  split <;> omega

theorem le_subtree {P x i : Nat} (hx : x < P) (h0 : x % 2 ^ i = 0) :
    min (2 ^ i) (P - x) ≤ subtree P x := by
  by_cases hne : x = 0
  · subst hne
    rw [subtree_zero]
    omega
  · obtain ⟨j, hj, hb⟩ := exists_low_bit hne
    have hij : i ≤ j := by
      by_contra hlt
      rw [testBit_low h0 (by omega)] at hb
      cases hb
    have := Nat.pow_le_pow_right (n := 2) (by omega) hij
    rw [subtree_of_bit hx hj hb]
    omega

theorem subtree_le {P x : Nat} (hx : x < P) : subtree P x ≤ P - x := by
  simp only [subtree]
  split
  · omega
  · split <;> omega

theorem slice_drop {α : Type} (l : List α) (a o n : Nat) :
    slice (l.drop a) o n = slice l (a + o) n := by
  unfold slice
  rw [List.drop_drop]

/-! ## Up the tree -/

section

variable {P : Nat} {m : Nat → Mem} {w : Nat → BufId} {blk root : Nat} {D : Bytes}

/-- How many blocks a rank of level `i` holds. -/
def span (P i x : Nat) : Nat := min (2 ^ i) (P - x)

/-- Where rank `r` is after `i` levels: about to receive from its child at distance
`2 ^ i`, or done. -/
def gatherAt (P : Nat) (w : Nat → BufId) (blk root i : Nat) (M : Nat → Mem) (r : Nat) : Rank Mem :=
  if rel P root r % 2 ^ i = 0 then
    gatherFrom P r (w r) blk root i (span P i (rel P root r)) (M r)
  else .ret (M r)

/-- After `i` levels a rank of level `i` holds its first `span` blocks. -/
structure GatherHolds (P : Nat) (m : Nat → Mem) (w : Nat → BufId) (blk root : Nat) (D : Bytes)
    (i : Nat) (M : Nat → Mem) : Prop where
  keeps : ∀ r, r < P → Keeps (w r) (fun x => blk ≤ x ∧ x < subtree P (rel P root r) * blk)
    (m r) (M r)
  holds : ∀ r, r < P → rel P root r % 2 ^ i = 0 →
    Holds (D.drop (rel P root r * blk)) (M r (w r)) 0 (span P i (rel P root r) * blk)

def gatherMem (P : Nat) (w : Nat → BufId) (blk root : Nat) (D : Bytes) (i : Nat) (M : Nat → Mem)
    (r : Nat) : Mem :=
  if rel P root r % 2 ^ (i + 1) = 0 ∧ rel P root r + 2 ^ i < P then
    (M r).put (w r) (2 ^ i * blk) (slice (D.drop (rel P root r * blk)) (2 ^ i * blk)
      (span P i (rel P root r + 2 ^ i) * blk))
  else M r

/-- A rank that receives holds `2 ^ i` blocks and then `span` more. -/
theorem span_succ {i x : Nat} (h : x + 2 ^ i < P) :
    span P i x = 2 ^ i ∧ span P (i + 1) x = 2 ^ i + span P i (x + 2 ^ i) := by
  unfold span
  rw [Nat.pow_succ']
  omega

theorem span_succ_of_ge {i x : Nat} (h : ¬ x + 2 ^ i < P) : span P (i + 1) x = span P i x := by
  unfold span
  rw [Nat.pow_succ']
  omega

theorem gather_fits (hD : D.length = P * blk)
    (hroom : ∀ r, r < P → Fits (m r (w r)) 0 (subtree P (rel P root r) * blk)) {i r : Nat}
    (hP : 2 ≤ P) (hr : r < P) (h0 : rel P root r % 2 ^ (i + 1) = 0)
    (hlt : rel P root r + 2 ^ i < P) {M : Mem} {A : Nat → Prop} (hk : Keeps (w r) A (m r) M) :
    Fits (M (w r)) (2 ^ i * blk) (span P i (rel P root r + 2 ^ i) * blk) ∧
      Fits (D.drop (rel P root r * blk)) (2 ^ i * blk) (span P i (rel P root r + 2 ^ i) * blk) ∧
      2 ^ i * blk + span P i (rel P root r + 2 ^ i) * blk ≤ subtree P (rel P root r) * blk := by
  have hrel := rel_lt (P := P) root r (by omega)
  have hsub := le_subtree hrel h0
  have hspan := (span_succ hlt).2
  have hle : 2 ^ i + span P i (rel P root r + 2 ^ i) ≤ subtree P (rel P root r) := by
    rw [← hspan]
    exact hsub
  have hmul := Nat.mul_le_mul_right blk hle
  rw [Nat.add_mul] at hmul
  refine ⟨hk.fits ((hroom r hr).sub (Nat.zero_le _) (by omega)), .of_le ?_, hmul⟩
  have hle' : rel P root r + (2 ^ i + span P i (rel P root r + 2 ^ i)) ≤ P := by
    unfold span
    omega
  have hmul' := Nat.mul_le_mul_right blk hle'
  rw [Nat.add_mul, Nat.add_mul] at hmul'
  rw [List.length_drop, hD]
  omega

theorem GatherHolds.step (hP : 2 ≤ P) (hD : D.length = P * blk)
    (hroom : ∀ r, r < P → Fits (m r (w r)) 0 (subtree P (rel P root r) * blk)) {i : Nat}
    {M : Nat → Mem} (hI : GatherHolds P m w blk root D i M) :
    GatherHolds P m w blk root D (i + 1) (gatherMem P w blk root D i M) := by
  constructor
  · intro r hr
    unfold gatherMem
    split
    · next h =>
      obtain ⟨hf, hf', hend⟩ := gather_fits hD hroom hP hr h.1 h.2 (hI.keeps r hr)
      refine (hI.keeps r hr).trans (keeps_put_slice hf hf' fun x hlo hhi => ⟨?_, by omega⟩)
      have := Nat.mul_le_mul_right blk (Nat.two_pow_pos i)
      omega
    · exact hI.keeps r hr
  · intro r hr h0
    have hold := hI.holds r hr (low_of_succ h0).1
    unfold gatherMem
    split
    · next h =>
      obtain ⟨hf, hf', hend⟩ := gather_fits hD hroom hP hr h.1 h.2 (hI.keeps r hr)
      obtain ⟨h₁, h₂⟩ := span_succ h.2
      rw [h₂, Nat.add_mul]
      rw [h₁] at hold
      exact (hold.put hf hf').join (holds_put hf hf')
    · next h =>
      rw [span_succ_of_ge fun hlt => h ⟨h0, hlt⟩]
      exact hold

/-- The next pass of the walk, for a rank that has a child there. -/
theorem gatherFrom_recv {i curr r : Nat} {W : BufId} {M : Mem} (hroot : root < P) (hr : r < P)
    (h0 : rel P root r % 2 ^ (i + 1) = 0) (hlt : rel P root r + 2 ^ i < P) :
    gatherFrom P r W blk root i curr M
      = (recvBytes P M W (2 ^ i * blk) (span P i (rel P root r + 2 ^ i) * blk) ((r + 2 ^ i) % P)
        >>= fun x => gatherFrom P r W blk root (i + 1)
          (curr + span P i (rel P root r + 2 ^ i)) x.2) := by
  have hbit := (low_of_succ h0).2
  have hnb : (if 2 ^ i < P - (rel P root r + 2 ^ i) then 2 ^ i
      else P - (rel P root r + 2 ^ i)) = span P i (rel P root r + 2 ^ i) := by
    unfold span
    split <;> omega
  rw [gatherFrom]
  simp only [if_pos (show 2 ^ i < P by omega), if_pos (land_pow_eq_zero.mpr hbit), lor_pow hbit,
    if_pos hlt, hnb, ofRel_up hroot hr hlt]

theorem gatherFrom_skip {i curr r : Nat} {W : BufId} {M : Mem} (hi : 2 ^ i < P)
    (h0 : rel P root r % 2 ^ (i + 1) = 0) (hlt : ¬ rel P root r + 2 ^ i < P) :
    gatherFrom P r W blk root i curr M = gatherFrom P r W blk root (i + 1) curr M := by
  have hbit := (low_of_succ h0).2
  rw [gatherFrom]
  simp only [if_pos hi, if_pos (land_pow_eq_zero.mpr hbit), lor_pow hbit, if_neg hlt]

theorem gatherFrom_send {i curr r : Nat} {W : BufId} {M : Mem} (hroot : root < P) (hr : r < P)
    (h : rel P root r % 2 ^ (i + 1) = 2 ^ i) :
    gatherFrom P r W blk root i curr M
      = (sendBytes P M W 0 (curr * blk) ((r + P - 2 ^ i) % P) 0 >>= fun _ => .ret M) := by
  have hbit := (low_of_pow h).2
  have hle := pow_le_of_testBit hbit
  have hrel := rel_lt (P := P) root r (by omega)
  rw [gatherFrom]
  simp only [if_pos (show 2 ^ i < P by omega), if_neg (land_pow_ne_zero.mpr hbit), ldiff_pow hbit,
    ofRel_down hroot hr hle]

theorem gatherAt_step (hP : 2 ≤ P) (hroot : root < P) (hD : D.length = P * blk)
    (hroom : ∀ r, r < P → Fits (m r (w r)) 0 (subtree P (rel P root r) * blk)) {i : Nat}
    (hi : 2 ^ i < P) {M : Nat → Mem} (hI : GatherHolds P m w blk root D i M) :
    Together P (gatherAt P w blk root i M)
      (gatherAt P w blk root (i + 1) (gatherMem P w blk root D i M)) := by
  refine Together.deliver (m := M)
    (fun r => rel P root r % 2 ^ (i + 1) = 2 ^ i)
    (fun r => rel P root r % 2 ^ (i + 1) = 0 ∧ rel P root r + 2 ^ i < P) hP
    (fun r => ⟨(r + P - 2 ^ i) % P, w r, 0, span P i (rel P root r) * blk⟩)
    (fun r => ⟨(r + 2 ^ i) % P, w r, 2 ^ i * blk, span P i (rel P root r + 2 ^ i) * blk⟩)
    (fun r x => gatherFrom P r (w r) blk root (i + 1)
      (span P i (rel P root r) + span P i (rel P root r + 2 ^ i)) x.2)
    ?_ ?_ ?_ ?_ ?_ ?_ ?_ ?_ ?_ ?_
  · intro s hs h
    have hrel := rel_lt (P := P) root s (by omega)
    obtain ⟨hd, hsum, h0, hback⟩ := parent hroot hs h
    exact ⟨hd, ⟨h0, hsum.trans_lt hrel⟩, hback⟩
  · rintro d hd ⟨h0, hlt⟩
    obtain ⟨hs, -, hbit, hback⟩ := child hroot hd h0 hlt
    exact ⟨hs, hbit, hback⟩
  · exact fun r _ h h' => ne_of_level h'.1 h
  · intro s hs h
    have hrel := rel_lt (P := P) root s (by omega)
    have hsub := Nat.mul_le_mul_right blk (le_subtree hrel (low_of_pow h).1)
    exact (hI.keeps s hs).fits ((hroom s hs).sub (Nat.le_refl 0) (by rwa [Nat.zero_add, Nat.zero_add]))
  · rintro d hd ⟨h0, hlt⟩
    obtain ⟨-, hrel, -, -⟩ := child hroot hd h0 hlt
    simp only [hrel]
    exact (gather_fits hD hroom hP hd h0 hlt (hI.keeps d hd)).1
  · rintro d hd ⟨h0, hlt⟩
    obtain ⟨-, hrel, -, -⟩ := child hroot hd h0 hlt
    simp only [hrel]
    exact Nat.le_refl _
  · intro s hs h
    have h0 : ¬ rel P root s % 2 ^ (i + 1) = 0 := fun h0 => ne_of_level h0 h
    have hR : ¬ (rel P root s % 2 ^ (i + 1) = 0 ∧ rel P root s + 2 ^ i < P) := fun h => h0 h.1
    simp only [gatherAt, gatherMem, if_pos (low_of_pow h).1, if_neg h0, if_neg hR,
      gatherFrom_send hroot hs h]
  · rintro d hd ⟨h0, hlt⟩
    simp only [gatherAt, if_pos (low_of_succ h0).1, gatherFrom_recv hroot hd h0 hlt]
  · rintro d hd ⟨h0, hlt⟩
    obtain ⟨hs, hrel, hbit, -⟩ := child hroot hd h0 hlt
    have hslice := (hI.holds _ hs (low_of_pow hbit).1).slice_eq (o := 0)
      (n := span P i (rel P root ((d + 2 ^ i) % P)) * blk) (.inr ⟨Nat.le_refl 0, by omega⟩)
    obtain ⟨hspan, hspan'⟩ := span_succ hlt
    simp only [gatherAt, gatherMem, if_pos h0, if_pos (And.intro h0 hlt), Tx.data, hslice, hspan']
    rw [hrel, slice_drop, slice_drop, Nat.add_mul, hspan]
    rfl
  · intro r hr hS hR
    by_cases hlow : rel P root r % 2 ^ i = 0
    · rcases low_cases hlow with ⟨h0, -⟩ | ⟨h, -⟩
      · have hlt : ¬ rel P root r + 2 ^ i < P := fun hlt => hR ⟨h0, hlt⟩
        simp only [gatherAt, gatherMem, if_pos hlow, if_pos h0, if_neg hR, span_succ_of_ge hlt,
          gatherFrom_skip hi h0 hlt]
      · exact absurd h hS
    · have h0 : ¬ rel P root r % 2 ^ (i + 1) = 0 := fun h0 => hlow (low_of_succ h0).1
      simp only [gatherAt, gatherMem, if_neg hlow, if_neg h0, if_neg hR]

/-- **Up the tree.** The root ends with all blocks in relative order. -/
theorem gatherFrom_together (hP : 2 ≤ P) (hroot : root < P) (hD : D.length = P * blk)
    (hroom : ∀ r, r < P → Fits (m r (w r)) 0 (subtree P (rel P root r) * blk))
    (hown : ∀ r, r < P → Holds (D.drop (rel P root r * blk)) (m r (w r)) 0 blk) :
    ∃ M : Nat → Mem, (∀ r, r < P → Keeps (w r)
        (fun x => blk ≤ x ∧ x < subtree P (rel P root r) * blk) (m r) (M r)) ∧
      Holds D (M root (w root)) 0 (P * blk) ∧
      Together P (fun r => gatherFrom P r (w r) blk root 0 1 (m r)) (fun r => .ret (M r)) := by
  obtain ⟨K, hK, hpow⟩ := exists_pow_ge P
  have hone : ∀ r, span P 0 (rel P root r) = 1 := fun r => by
    have hrel := rel_lt (P := P) root r (by omega)
    unfold span
    omega
  have hinit : GatherHolds P m w blk root D 0 m := by
    refine ⟨fun _ _ => .refl .., fun r hr _ => ?_⟩
    rw [hone, Nat.one_mul]
    exact hown r hr
  obtain ⟨M, hM, hrun⟩ := Together.ascend (P := P) (n := K) (gatherAt P w blk root)
    (GatherHolds P m w blk root D)
    (fun i M hi hI => ⟨_, hI.step hP hD hroom, gatherAt_step hP hroot hD hroom ((hpow i).mpr hi) hI⟩)
    hinit
  refine ⟨M, hM.keeps, ?_, .trans (.of_eq fun r hr => ?_) (hrun.trans (.of_eq fun r hr => ?_))⟩
  · have := hM.holds root hroot (by rw [rel_self hroot, Nat.zero_mod])
    rw [rel_self hroot, Nat.zero_mul, List.drop_zero] at this
    have hall : span P K 0 = P := by unfold span; omega
    rwa [hall] at this
  · rw [gatherAt, if_pos (by omega), hone]
  · unfold gatherAt
    split
    · rw [gatherFrom]
      simp only [if_neg (show ¬ 2 ^ K < P by omega)]
    · rfl

end

/-! ## MPI_Gather -/

/-- The arguments of a gather: room for all blocks at the root, and a block to send on
every rank, which the root may have in place. -/
structure GatherArgs (P k blk root : Nat) (m : Nat → Mem) (sendbuf : Nat → Arg) : Prop where
  room : P * blk ≤ (m root (.user k)).length
  send : ∀ r, r < P → r = root ∧ sendbuf r = .inPlace ∨
    ∃ b, sendbuf r = .buf (.user b) ∧ Fits (m r (.user b)) 0 blk

/-- The block rank `r` contributes. -/
def gatherBlock (k blk root : Nat) (m : Nat → Mem) (sendbuf : Nat → Arg) (r : Nat) : Bytes :=
  ownBlock (m r) (sendbuf r) (.user k) (root * blk) blk

/-- What a gather ends with: the blocks by rank at the root, and nothing else changed. -/
structure GatheredAt (P k blk root : Nat) (B : Nat → Bytes) (m M : Nat → Mem) : Prop where
  blocks : ∀ r, r < P → slice (M root (.user k)) (r * blk) blk = B r
  keeps : UserKeeps k (· < P * blk) (m root) (M root)
  others : ∀ r, r < P → r ≠ root → ∀ k', M r (.user k') = m r (.user k')

/-- Where a rank's blocks are, ready for the tree walk. -/
structure GatherReady (P k blk root : Nat) (B : Nat → Bytes) (m : Nat → Mem) (r : Nat) (w : BufId)
    (M : Mem) : Prop where
  room : Fits (M w) 0 (subtree P (rel P root r) * blk)
  own : slice (M w) 0 blk = B r
  keeps : r = root → UserKeeps k (· < P * blk) (m r) M
  others : r ≠ root → ∀ k', M (.user k') = m r (.user k')
  buf : if r = root ∧ root = 0 then w = .user k
    else (∀ k', w ≠ .user k') ∨ r ≠ root ∧ subtree P (rel P root r) = 1

section

variable {P k blk root : Nat} {m : Nat → Mem} {sendbuf : Nat → Arg}

theorem GatherArgs.fits_own (h : GatherArgs P k blk root m sendbuf) (hroot : root < P) {r : Nat}
    (hr : r < P) {o : BufId} {off : Nat}
    (ho : gatherOwn (sendbuf r) (.user k) root blk = some (o, off)) :
    (∃ b, o = .user b) ∧ Fits (m r o) off blk ∧
      slice (m r o) off blk = gatherBlock k blk root m sendbuf r := by
  rcases h.send r hr with ⟨rfl, hs⟩ | ⟨b, hs, hf⟩
  · rw [hs] at ho
    obtain ⟨rfl, rfl⟩ := Prod.mk.inj (Option.some.inj ho)
    have hle := Nat.mul_le_mul_right blk (show r + 1 ≤ P by omega)
    rw [Nat.add_mul, Nat.one_mul] at hle
    have := h.room
    exact ⟨⟨k, rfl⟩, .of_le (by omega), by rw [gatherBlock, hs]; rfl⟩
  · rw [hs] at ho
    obtain ⟨rfl, rfl⟩ := Prod.mk.inj (Option.some.inj ho)
    exact ⟨⟨b, rfl⟩, hf, by rw [gatherBlock, hs]; rfl⟩

theorem GatherArgs.own_isSome (h : GatherArgs P k blk root m sendbuf) {r : Nat} (hr : r < P) :
    ∃ o off, gatherOwn (sendbuf r) (.user k) root blk = some (o, off) := by
  rcases h.send r hr with ⟨-, hs⟩ | ⟨b, hs, -⟩
  · exact ⟨_, _, by rw [hs]; rfl⟩
  · exact ⟨_, _, by rw [hs]; rfl⟩

theorem gatherReady_scratch (rt : Runtime) (h : GatherArgs P k blk root m sendbuf)
    (hroot : root < P) {r : Nat} (hr : r < P) (hpos : 1 ≤ subtree P (rel P root r))
    (hn : ¬ (r = root ∧ root = 0)) :
    ∃ M, gatherCopy (scratchOrVec rt 0 (subtree P (rel P root r) * blk) (m r)) (sendbuf r) (.user k)
        blk root (.scratch 0) = some M ∧
      GatherReady P k blk root (gatherBlock k blk root m sendbuf) m r (.scratch 0) M := by
  obtain ⟨o, off, ho⟩ := h.own_isSome hr
  obtain ⟨⟨b, rfl⟩, hf, hb⟩ := h.fits_own hroot hr ho
  have huser : ∀ k', scratchOrVec rt 0 (subtree P (rel P root r) * blk) (m r) (.user k')
      = m r (.user k') := fun k' => scratchOrVec_ne _ _ _ _ (by simp)
  have hlen := le_length_scratchOrVec rt 0 (subtree P (rel P root r) * blk) (m r)
  generalize hm : scratchOrVec rt 0 (subtree P (rel P root r) * blk) (m r) = m₁ at *
  have hblk : blk ≤ subtree P (rel P root r) * blk := Nat.le_mul_of_pos_left blk hpos
  have hfs : Fits (m₁ (.user b)) off blk := by rw [huser]; exact hf
  have hfd : Fits (m₁ (.scratch 0)) 0 blk := .of_le (by omega)
  have hsl := length_slice hfs
  have hput : Fits (m₁ (.scratch 0)) 0 (slice (m₁ (.user b)) off blk).length := by
    rw [hsl]
    exact hfd
  refine ⟨m₁.put (.scratch 0) 0 (slice (m₁ (.user b)) off blk), ?_, ?_⟩
  · have hne : sendbuf r ≠ .buf (.scratch 0) := by
      rcases h.send r hr with ⟨-, hs⟩ | ⟨b', hs, -⟩ <;> rw [hs] <;> simp
    simp only [gatherCopy, ho]
    rw [if_pos ⟨by simp, hne⟩]
    exact Mem.copy_eq hfs hfd
  · constructor
    · exact .of_le (by rw [Mem.length_put hput]; omega)
    · have := slice_put_self hput
      rw [hsl] at this
      rw [this, huser, hb]
    · exact fun _ => .of_eq fun k' => (Mem.put_ne (by simp)).trans (huser k')
    · exact fun _ k' => (Mem.put_ne (by simp)).trans (huser k')
    · rw [if_neg hn]
      exact .inl (by simp)

theorem gatherReady_root (h : GatherArgs P k blk root m sendbuf) (hroot : root < P)
    (h0 : root = 0) :
    ∃ M, gatherCopy (m root) (sendbuf root) (.user k) blk root (.user k) = some M ∧
      GatherReady P k blk root (gatherBlock k blk root m sendbuf) m root (.user k) M := by
  obtain ⟨o, off, ho⟩ := h.own_isSome hroot
  obtain ⟨-, hf, hb⟩ := h.fits_own hroot hroot ho
  have hroom := h.room
  have hblk : blk ≤ P * blk := Nat.le_mul_of_pos_left blk (by omega)
  have hsub : subtree P (rel P root root) = P := by rw [rel_self hroot, subtree_zero]
  have hfd : Fits (m root (.user k)) 0 blk := .of_le (by omega)
  by_cases hsame : (o, off) ≠ (.user k, 0) ∧ sendbuf root ≠ .buf (.user k)
  · have hsl := length_slice hf
    have hput : Fits (m root (.user k)) 0 (slice (m root o) off blk).length := by
      rw [hsl]
      exact hfd
    refine ⟨(m root).put (.user k) 0 (slice (m root o) off blk), ?_, ?_⟩
    · simp only [gatherCopy, ho]
      rw [if_pos hsame]
      exact Mem.copy_eq hf hfd
    · constructor
      · rw [hsub]
        exact .of_le (by rw [Mem.length_put hput]; omega)
      · have := slice_put_self hput
        rw [hsl] at this
        rw [this, hb]
      · intro _
        exact (Keeps.put hput fun x _ hx => by rw [hsl] at hx; omega).user
      · exact fun hne => absurd rfl hne
      · rw [if_pos ⟨rfl, h0⟩]
  · refine ⟨m root, ?_, ?_⟩
    · simp only [gatherCopy, ho]
      rw [if_neg hsame]
    · have hown : slice (m root (.user k)) 0 blk = gatherBlock k blk root m sendbuf root := by
        by_cases hoff : (o, off) = (.user k, 0)
        · obtain ⟨rfl, rfl⟩ := Prod.mk.inj hoff
          exact hb
        · have hs : sendbuf root = .buf (.user k) := by
            by_contra hs
            exact hsame ⟨hoff, hs⟩
          rw [gatherBlock, hs]
          rfl
      exact ⟨by rw [hsub]; exact .of_le (by omega), hown, fun _ => .refl,
        fun hne => absurd rfl hne, by rw [if_pos ⟨rfl, h0⟩]⟩

theorem gatherReady_leaf (h : GatherArgs P k blk root m sendbuf) {r : Nat}
    (hr : r < P) (hne : r ≠ root) (hsub : subtree P (rel P root r) = 1) :
    ∃ b, sendbuf r = .buf b ∧ gatherCopy (m r) (sendbuf r) (.user k) blk root b = some (m r) ∧
      GatherReady P k blk root (gatherBlock k blk root m sendbuf) m r b (m r) := by
  rcases h.send r hr with ⟨rfl, -⟩ | ⟨b, hs, hf⟩
  · exact absurd rfl hne
  · refine ⟨.user b, hs, ?_, ?_⟩
    · rw [hs, gatherCopy]
      simp only [gatherOwn]
      rw [if_neg (by simp)]
    · refine ⟨by rw [hsub, Nat.one_mul]; exact hf, ?_, fun h => absurd h hne, fun _ _ => rfl, ?_⟩
      · rw [gatherBlock, hs]
        rfl
      · rw [if_neg fun h => hne h.1]
        exact .inr ⟨hne, hsub⟩

theorem subtree_pos {x : Nat} (hx : x < P) : 1 ≤ subtree P x := by
  have := le_subtree (i := 0) hx (by omega)
  omega

theorem gather_ready (rt : Runtime) (h : GatherArgs P k blk root m sendbuf) (hP : 2 ≤ P)
    (hroot : root < P) {r : Nat} (hr : r < P) :
    ∃ w m₁ M, gatherBuf rt P r (m r) (sendbuf r) (.user k) blk root = some (w, m₁) ∧
      gatherCopy m₁ (sendbuf r) (.user k) blk root w = some M ∧
      GatherReady P k blk root (gatherBlock k blk root m sendbuf) m r w M := by
  have hrel := rel_lt (P := P) root r (by omega)
  have hz := rel_eq_zero hroot hr
  simp only [gatherBuf]
  by_cases h₁ : rel P root r = 0 ∧ root = 0
  · obtain rfl := hz.mp h₁.1
    obtain ⟨M, hM⟩ := gatherReady_root h hroot h₁.2
    exact ⟨_, _, M, if_pos h₁, hM⟩
  · by_cases h₂ : subtree P (rel P root r) = 1
    · have hne : r ≠ root := by
        rintro rfl
        rw [rel_self hr, subtree_zero] at h₂
        omega
      obtain ⟨b, hs, hc, hM⟩ := gatherReady_leaf h hr hne h₂
      exact ⟨b, m r, m r, by rw [if_neg h₁, if_pos h₂, hs], hc, hM⟩
    · obtain ⟨M, hM⟩ := gatherReady_scratch rt h hroot hr (subtree_pos hrel)
        fun hn => h₁ ⟨hz.mpr hn.1, hn.2⟩
      exact ⟨_, _, M, by rw [if_neg h₁, if_neg h₂], hM⟩

theorem length_gatherBlock (h : GatherArgs P k blk root m sendbuf) (hroot : root < P) {r : Nat}
    (hr : r < P) : (gatherBlock k blk root m sendbuf r).length = blk := by
  obtain ⟨o, off, ho⟩ := h.own_isSome hr
  obtain ⟨-, hf, hb⟩ := h.fits_own hroot hr ho
  rw [← hb, length_slice hf]

theorem gather_unpack {B : Nat → Bytes} {M : Mem} {t : BufId} (hP : 2 ≤ P) (hroot : root < P)
    (ht : ∀ k', t ≠ .user k') (hroom : P * blk ≤ (M (.user k)).length)
    (hlen : P * blk ≤ (M t).length)
    (hh : ∀ j, j < P → slice (M t) (j * blk) blk = B ((j + root) % P)) :
    ∃ M', copyBlocks (fun _ => true) (.user k) (fun j => (j + root) % P * blk) t (fun j => j * blk)
        (fun _ => blk) P 0 M = some M' ∧ UserKeeps k (· < P * blk) M M' ∧
      ∀ r, r < P → slice (M' (.user k)) (r * blk) blk = B r := by
  have hmod : ∀ x, x % P < P := fun x => Nat.mod_lt _ (by omega)
  have hinj : ∀ i j, i < j → j < P → (i + root) % P ≠ (j + root) % P := by
    intro i j hij hj heq
    have := congrArg (rel P root) heq
    rw [rel_ofRel hroot (by omega), rel_ofRel hroot hj] at this
    omega
  obtain ⟨M', hM', hk, hb⟩ := copyBlocks_spec (fun _ => true) (.user k)
    (fun j => (j + root) % P * blk) t (fun j => j * blk) (fun _ => blk) P 0 M (ht k) (Nat.zero_le P)
    (fun j _ hj _ => .of_le (Nat.le_trans (mul_add_le_mul hj blk) hlen))
    (fun j _ _ _ => .of_le (Nat.le_trans (mul_add_le_mul (hmod _) blk) hroom))
    (fun i j _ hij hj _ _ => apart_mul (hinj i j hij hj) blk)
  refine ⟨M', hM', hk.user.mono ?_, fun r hr => ?_⟩
  · rintro x ⟨j, -, -, -, -, hx⟩
    have := mul_add_le_mul (hmod (j + root)) blk
    omega
  · have hrel := rel_lt (P := P) root r (by omega)
    have := hb (rel P root r) (Nat.zero_le _) hrel rfl
    simp only [ofRel_rel hroot hr] at this
    rw [this, hh _ hrel, ofRel_rel hroot hr]

/-- The walk and the unpacking, from memories that are ready. -/
theorem gather_run {B : Nat → Bytes} (hP : 2 ≤ P) (hroot : root < P)
    (hroom : P * blk ≤ (m root (.user k)).length) (hB : ∀ r, r < P → (B r).length = blk)
    {w : Nat → BufId} {M : Nat → Mem} (hM : ∀ r, r < P → GatherReady P k blk root B m r (w r) (M r)) :
    ∃ M' : Nat → Mem, GatheredAt P k blk root B m M' ∧
      Together P (fun r => gatherFrom P r (w r) blk root 0 1 (M r) >>= fun m =>
          if rel P root r = 0 ∧ root ≠ 0 then
            access (copyBlocks (fun _ => true) (.user k) (fun j => (j + root) % P * blk) (w r)
              (fun j => j * blk) (fun _ => blk) P 0 m)
          else .ret m)
        (fun r => .ret (M' r)) := by
  have hmod : ∀ x, x % P < P := fun x => Nat.mod_lt _ (by omega)
  have hsize : ∀ j, j < P → (B ((j + root) % P)).length = blk := fun j _ => hB _ (hmod _)
  -- all blocks in relative order
  let D : Bytes := cat (fun j => B ((j + root) % P)) P
  have hD : D.length = P * blk := length_cat_const hsize
  have hblock : ∀ j, j < P → slice D (j * blk) blk = B ((j + root) % P) :=
    fun j hj => slice_cat_const hsize hj
  obtain ⟨M₁, hk, hall, hrun⟩ := gatherFrom_together hP hroot hD (fun r hr => (hM r hr).room)
    (fun r hr => by
      have hrel := rel_lt (P := P) root r (by omega)
      rw [← Nat.zero_add blk]
      apply holds_of_slice
      rw [(hM r hr).own, Nat.zero_add, slice_drop, Nat.add_zero, hblock _ hrel, ofRel_rel hroot hr])
  have hsub : subtree P (rel P root root) = P := by rw [rel_self hroot, subtree_zero]
  -- a leaf receives nothing, and nobody but root 0 receives into a user buffer
  have huser : ∀ r, r < P → r ≠ root → ∀ k', M₁ r (.user k') = m r (.user k') := by
    intro r hr hne k'
    rw [← (hM r hr).others hne k']
    have hbuf := (hM r hr).buf
    rw [if_neg fun h => hne h.1] at hbuf
    rcases hbuf with ht | ⟨-, hs⟩
    · exact (hk r hr).other _ (ht k').symm
    · by_cases hw : .user k' = w r
      · rw [hw]
        refine ext_getElem?_lt (hk r hr).len fun x _ => (hk r hr).out x ?_
        rw [hs, Nat.one_mul]
        omega
      · exact (hk r hr).other _ hw
  have hbuf := (hM root hroot).buf
  have hrootk : UserKeeps k (· < P * blk) (m root) (M₁ root) := by
    refine ((hM root hroot).keeps rfl).trans ?_
    split at hbuf
    · have := hk root hroot
      rw [hbuf, hsub] at this
      exact this.user.mono fun x hx => hx.2
    · rcases hbuf with ht | ⟨hne, -⟩
      · exact (hk root hroot).tmp ht
      · exact absurd rfl hne
  have hslice : ∀ j, j < P → slice (M₁ root (w root)) (j * blk) blk = B ((j + root) % P) := by
    intro j hj
    have := mul_add_le_mul hj blk
    rw [hall.slice_eq (.inr ⟨Nat.zero_le _, this⟩), hblock j hj]
  by_cases h0 : root = 0
  · rw [if_pos ⟨rfl, h0⟩] at hbuf
    refine ⟨M₁, ⟨fun r hr => ?_, hrootk, huser⟩, (hrun.bind _).trans (.of_eq fun r hr => ?_)⟩
    · have := hslice r hr
      rw [hbuf, h0, Nat.add_zero, Nat.mod_eq_of_lt hr] at this
      rw [h0]
      exact this
    · rw [Prog.ret_bind, if_neg fun h => h.2 h0]
  · rw [if_neg fun h => h0 h.2] at hbuf
    have ht : ∀ k', w root ≠ .user k' := hbuf.resolve_right fun h => h.1 rfl
    have hlen : P * blk ≤ (M₁ root (w root)).length := by
      have := (hM root hroot).room
      rw [hsub] at this
      rw [(hk root hroot).len]
      unfold Fits at this
      omega
    obtain ⟨M₂, hM₂, hk₂, hb₂⟩ := gather_unpack hP hroot ht
      (by rw [hrootk.length]; exact hroom) hlen hslice
    refine ⟨fun r => if r = root then M₂ else M₁ r, ⟨fun r hr => ?_, ?_, fun r hr hne k' => ?_⟩,
      (hrun.bind _).trans (.of_eq fun r hr => ?_)⟩
    · rw [if_pos rfl]
      exact hb₂ r hr
    · rw [if_pos rfl]
      exact hrootk.trans hk₂
    · rw [if_neg hne]
      exact huser r hr hne k'
    · rw [Prog.ret_bind]
      dsimp only
      by_cases hrr : r = root
      · subst hrr
        rw [if_pos ⟨rel_self hr, h0⟩, hM₂, access_some, if_pos rfl]
      · rw [if_neg fun h => hrr ((rel_eq_zero hroot hr).mp h.1), if_neg hrr]

theorem mpiGather_together {recvcount recvtype : Nat} {sendcount sendtype : Nat → Nat}
    (rt : Nat → Runtime) (hroot : root < P) (hrecv : bytesOf recvcount recvtype = some blk)
    (hsend : ∀ r, r < P → r ≠ root → bytesOf (sendcount r) (sendtype r) = some blk)
    (h : GatherArgs P k blk root m sendbuf) :
    ∃ M : Nat → Mem, GatheredAt P k blk root (gatherBlock k blk root m sendbuf) m M ∧
      Together P (fun r => mpiGather (rt r) P r (m r) (sendbuf r) (sendcount r) (sendtype r)
        (.user k) recvcount recvtype root) (fun r => .ret (M r)) := by
  have hblk : ∀ r, r < P → (if r = root then bytesOf recvcount recvtype
      else bytesOf (sendcount r) (sendtype r)) = some blk := by
    intro r hr
    split
    · exact hrecv
    · next hne => exact hsend r hr hne
  rcases Nat.lt_or_ge P 2 with hone | hP
  · obtain rfl : P = 1 := by omega
    obtain rfl : root = 0 := by omega
    have hroom := h.room
    rcases h.send 0 hroot with ⟨-, hs⟩ | ⟨b, hs, hf⟩
    · refine ⟨m, ⟨fun r hr => ?_, .refl, fun _ _ _ _ => rfl⟩, .of_eq fun r hr => ?_⟩
      · obtain rfl : r = 0 := by omega
        rw [gatherBlock, hs]
        rfl
      · obtain rfl : r = 0 := by omega
        simp only [mpiGather, hrecv, access_some, Prog.ret_bind, hs, Nat.le_refl, if_true]
    · have hsl := length_slice hf
      have hfd : Fits (m 0 (.user k)) 0 blk := .of_le (by omega)
      have hput : Fits (m 0 (.user k)) 0 (slice (m 0 (.user b)) 0 blk).length := by
        rw [hsl]
        exact hfd
      refine ⟨fun r => (m r).put (.user k) 0 (slice (m r (.user b)) 0 blk), ⟨fun r hr => ?_, ?_, ?_⟩,
        .of_eq fun r hr => ?_⟩
      · obtain rfl : r = 0 := by omega
        have := slice_put_self hput
        rw [hsl] at this
        rw [Nat.zero_mul, this, gatherBlock, hs]
        rfl
      · exact (Keeps.put hput fun x _ hx => by rw [hsl] at hx; omega).user
      · exact fun r hr hne => absurd (by omega : r = 0) hne
      · obtain rfl : r = 0 := by omega
        simp only [mpiGather, hrecv, access_some, Prog.ret_bind, hs, Nat.le_refl, if_true]
        rw [Mem.copy_eq hf hfd, access_some]
  · have hready := fun r => gather_ready (rt r) h hP hroot (r := r)
    choose! w m₁ M hbuf hcopy hM using hready
    obtain ⟨M', hM', hrun⟩ := gather_run (k := k) hP hroot h.room
      (fun r hr => length_gatherBlock h hroot hr) hM
    refine ⟨M', hM', .trans (.of_eq fun r hr => ?_) hrun⟩
    have hP1 : ¬ P ≤ 1 := by omega
    simp only [mpiGather, hblk r hr, access_some, Prog.ret_bind, if_neg hP1, hbuf r hr, hcopy r hr]

end

/-! ## Down the tree -/

section

variable {P : Nat} {m : Nat → Mem} {w : Nat → BufId} {recvbuf : Nat → Arg} {blk root : Nat}
  {D : Bytes}

theorem scatterDown_zero (P rank : Nat) (M : Mem) (W : BufId) (curr : Nat) :
    scatterDown P rank M W blk root curr (2 ^ 0 / 2) = .ret () := by
  rw [scatterDown]
  rfl

theorem scatterDown_send {rank : Nat} {M : Mem} {W : BufId} {j : Nat}
    (hlt : rel P root rank + 2 ^ j < P) :
    scatterDown P rank M W blk root (span P (j + 1) (rel P root rank)) (2 ^ (j + 1) / 2)
      = (sendBytes P M W (2 ^ j * blk) (span P j (rel P root rank + 2 ^ j) * blk)
          ((rank + 2 ^ j) % P) 0 >>= fun _ =>
        scatterDown P rank M W blk root (span P j (rel P root rank)) (2 ^ j / 2)) := by
  obtain ⟨h₁, h₂⟩ := span_succ hlt
  have hpos : 0 < span P j (rel P root rank + 2 ^ j) := by
    have := Nat.two_pow_pos j
    unfold span
    omega
  rw [half_pow_succ, scatterDown, if_pos (Nat.two_pow_pos j), if_pos ⟨hlt, by omega⟩, h₂, h₁,
    Nat.add_sub_cancel_left]

theorem scatterDown_skip {rank : Nat} {M : Mem} {W : BufId} {j : Nat}
    (hlt : ¬ rel P root rank + 2 ^ j < P) :
    scatterDown P rank M W blk root (span P (j + 1) (rel P root rank)) (2 ^ (j + 1) / 2)
      = scatterDown P rank M W blk root (span P j (rel P root rank)) (2 ^ j / 2) := by
  rw [half_pow_succ, scatterDown, if_pos (Nat.two_pow_pos j), if_neg fun h => hlt h.1,
    span_succ_of_ge hlt]

/-- What a rank with its subtree's blocks still has to do at level `j`; a leaf received
its block where it belongs. -/
def scatterGive (P : Nat) (w : Nat → BufId) (recvbuf : Nat → Arg) (blk root j r : Nat) (M : Mem) :
    Rank Mem :=
  if rel P root r ≠ 0 ∧ subtree P (rel P root r) = 1 then .ret M
  else scatterDown P r M (w r) blk root (span P j (rel P root r)) (2 ^ j / 2) >>= fun _ =>
    scatterFin (recvbuf r) (w r) blk M

/-- What a rank does that waits for its parent. -/
def scatterWait (P : Nat) (w : Nat → BufId) (recvbuf : Nat → Arg) (blk root r : Nat) (M : Mem) :
    Rank Mem :=
  recvBytes P M (w r) 0 (subtree P (rel P root r) * blk)
      ((r + P - scanMask P (rel P root r) 0) % P) >>= fun x =>
    if subtree P (rel P root r) = 1 then .ret x.2
    else scatterDown P r x.2 (w r) blk root (subtree P (rel P root r))
        (scanMask P (rel P root r) 0 / 2) >>= fun _ => scatterFin (recvbuf r) (w r) blk x.2

def scatterTreeAt (P : Nat) (w : Nat → BufId) (recvbuf : Nat → Arg) (blk root j : Nat)
    (M : Nat → Mem) (r : Nat) : Rank Mem :=
  if rel P root r % 2 ^ j = 0 then scatterGive P w recvbuf blk root j r (M r)
  else scatterWait P w recvbuf blk root r (M r)

/-- The ranks of level `j` have the blocks of their subtrees. -/
structure ScatterHolds (P : Nat) (m : Nat → Mem) (w : Nat → BufId) (blk root : Nat) (D : Bytes)
    (j : Nat) (M : Nat → Mem) : Prop where
  keeps : ∀ r, r < P → Keeps (w r) (fun x => rel P root r ≠ 0 ∧ x < subtree P (rel P root r) * blk)
    (m r) (M r)
  holds : ∀ r, r < P → rel P root r % 2 ^ j = 0 →
    Holds (D.drop (rel P root r * blk)) (M r (w r)) 0 (subtree P (rel P root r) * blk)

def scatterTreeMem (P : Nat) (w : Nat → BufId) (blk root : Nat) (D : Bytes) (j : Nat)
    (M : Nat → Mem) (r : Nat) : Mem :=
  if rel P root r % 2 ^ (j + 1) = 2 ^ j then
    (M r).put (w r) 0 (slice (D.drop (rel P root r * blk)) 0 (subtree P (rel P root r) * blk))
  else M r

theorem fits_subtree (hD : D.length = P * blk) {x : Nat} (hx : x < P) :
    Fits (D.drop (x * blk)) 0 (subtree P x * blk) := by
  have h₁ := subtree_le hx
  have h₂ := Nat.mul_le_mul_right blk (show x + subtree P x ≤ P by omega)
  rw [Nat.add_mul] at h₂
  exact .of_le (by rw [List.length_drop, hD]; omega)

theorem ScatterHolds.step (hP : 2 ≤ P) (hD : D.length = P * blk)
    (hroom : ∀ r, r < P → Fits (m r (w r)) 0 (subtree P (rel P root r) * blk)) {j : Nat}
    {M : Nat → Mem} (hI : ScatterHolds P m w blk root D (j + 1) M) :
    ScatterHolds P m w blk root D j (scatterTreeMem P w blk root D j M) := by
  have hrel : ∀ r, rel P root r < P := fun r => rel_lt _ _ (by omega)
  constructor
  · intro r hr
    unfold scatterTreeMem
    split
    · next h =>
      refine (hI.keeps r hr).trans (keeps_put_slice ((hI.keeps r hr).fits (hroom r hr))
        (fits_subtree hD (hrel r)) fun x _ hx => ⟨?_, by omega⟩)
      intro h0
      rw [h0, Nat.zero_mod] at h
      have := Nat.two_pow_pos j
      omega
    · exact hI.keeps r hr
  · intro r hr hlow
    unfold scatterTreeMem
    split
    · next h =>
      have := holds_put ((hI.keeps r hr).fits (hroom r hr)) (fits_subtree hD (hrel r))
      rwa [Nat.zero_add] at this
    · next h =>
      rcases low_cases hlow with ⟨h0, -⟩ | ⟨h', -⟩
      · exact hI.holds r hr h0
      · exact absurd h' h

theorem scatterTreeAt_step (hP : 2 ≤ P) (hroot : root < P)
    (hroom : ∀ r, r < P → Fits (m r (w r)) 0 (subtree P (rel P root r) * blk)) {j : Nat}
    {M : Nat → Mem} (hI : ScatterHolds P m w blk root D (j + 1) M) :
    Together P (scatterTreeAt P w recvbuf blk root (j + 1) M)
      (scatterTreeAt P w recvbuf blk root j (scatterTreeMem P w blk root D j M)) := by
  have hrel : ∀ r, rel P root r < P := fun r => rel_lt _ _ (by omega)
  -- a rank that has a child is no leaf
  have hinner : ∀ r, rel P root r % 2 ^ (j + 1) = 0 → rel P root r + 2 ^ j < P →
      2 ^ j + span P j (rel P root r + 2 ^ j) ≤ subtree P (rel P root r) ∧
      ¬ (rel P root r ≠ 0 ∧ subtree P (rel P root r) = 1) := by
    intro r h0 hlt
    have hsub := le_subtree (hrel r) h0
    rw [show min (2 ^ (j + 1)) (P - rel P root r) = span P (j + 1) (rel P root r) from rfl,
      (span_succ hlt).2] at hsub
    have := Nat.two_pow_pos j
    refine ⟨hsub, fun h => ?_⟩
    have : 0 < span P j (rel P root r + 2 ^ j) := by unfold span; omega
    omega
  refine Together.deliver (m := M)
    (fun r => rel P root r % 2 ^ (j + 1) = 0 ∧ rel P root r + 2 ^ j < P)
    (fun r => rel P root r % 2 ^ (j + 1) = 2 ^ j) hP
    (fun r => ⟨(r + 2 ^ j) % P, w r, 2 ^ j * blk, span P j (rel P root r + 2 ^ j) * blk⟩)
    (fun r => ⟨(r + P - 2 ^ j) % P, w r, 0, subtree P (rel P root r) * blk⟩)
    (fun r x => if subtree P (rel P root r) = 1 then .ret x.2
      else scatterDown P r x.2 (w r) blk root (subtree P (rel P root r)) (2 ^ j / 2) >>= fun _ =>
        scatterFin (recvbuf r) (w r) blk x.2)
    ?_ ?_ ?_ ?_ ?_ ?_ ?_ ?_ ?_ ?_
  · rintro s hs ⟨h0, hlt⟩
    obtain ⟨hd, -, hbit, hback⟩ := child hroot hs h0 hlt
    exact ⟨hd, hbit, hback⟩
  · intro d hd h
    obtain ⟨hs, hsum, h0, hback⟩ := parent hroot hd h
    exact ⟨hs, ⟨h0, hsum.trans_lt (hrel d)⟩, hback⟩
  · exact fun r _ h => ne_of_level h.1
  · rintro s hs ⟨h0, hlt⟩
    have hmul := Nat.mul_le_mul_right blk (hinner s h0 hlt).1
    rw [Nat.add_mul] at hmul
    exact (hI.keeps s hs).fits ((hroom s hs).sub (Nat.zero_le _) (by rwa [Nat.zero_add]))
  · intro d hd h
    obtain ⟨-, hsum, -, -⟩ := parent hroot hd h
    obtain ⟨hlow, hbit⟩ := low_of_pow h
    simp only [hsum]
    have := hroom d hd
    rw [subtree_of_bit (hrel d) hlow hbit] at this
    exact (hI.keeps d hd).fits this
  · intro d hd h
    obtain ⟨-, hsum, -, -⟩ := parent hroot hd h
    obtain ⟨hlow, hbit⟩ := low_of_pow h
    simp only [hsum, subtree_of_bit (hrel d) hlow hbit]
    exact Nat.le_refl _
  · rintro s hs ⟨h0, hlt⟩
    have hR : ¬ rel P root s % 2 ^ (j + 1) = 2 ^ j := ne_of_level h0
    simp only [scatterTreeAt, scatterTreeMem, scatterGive, if_pos h0, if_pos (low_of_succ h0).1,
      if_neg (hinner s h0 hlt).2, if_neg hR, scatterDown_send hlt, Prog.bind_assoc]
  · intro d hd h
    obtain ⟨hlow, hbit⟩ := low_of_pow h
    have h0 : ¬ rel P root d % 2 ^ (j + 1) = 0 := fun h0 => ne_of_level h0 h
    simp only [scatterTreeAt, scatterWait, if_neg h0, scanMask_of_bit (hrel d) hlow hbit (Nat.zero_le j)]
  · intro d hd h
    obtain ⟨hlow, hbit⟩ := low_of_pow h
    obtain ⟨hs, hsum, h0, -⟩ := parent hroot hd h
    have hne : rel P root d ≠ 0 := fun hz => by simp [hz] at hbit
    have hspan : span P j (rel P root d) = subtree P (rel P root d) :=
      (subtree_of_bit (hrel d) hlow hbit).symm
    have hsub := (hinner _ h0 (hsum.trans_lt (hrel d))).1
    rw [hsum, hspan] at hsub
    have hmul := Nat.mul_le_mul_right blk hsub
    rw [Nat.add_mul] at hmul
    have hslice := (hI.holds _ hs h0).slice_eq (o := 2 ^ j * blk)
      (n := subtree P (rel P root d) * blk) (.inr ⟨Nat.zero_le _, by omega⟩)
    have hoff : rel P root ((d + P - 2 ^ j) % P) * blk + 2 ^ j * blk = rel P root d * blk := by
      rw [← hsum, Nat.add_mul]
    rw [slice_drop, hoff] at hslice
    simp only [scatterTreeAt, scatterTreeMem, scatterGive, if_pos hlow, if_pos h, Tx.data, hsum,
      hspan, hslice, hne, ne_eq, not_false_eq_true, true_and, slice_drop, Nat.add_zero]
  · intro r hr hS hR
    by_cases hlow : rel P root r % 2 ^ j = 0
    · rcases low_cases hlow with ⟨h0, -⟩ | ⟨h, -⟩
      · have hlt : ¬ rel P root r + 2 ^ j < P := fun hlt => hS ⟨h0, hlt⟩
        simp only [scatterTreeAt, scatterTreeMem, scatterGive, if_pos hlow, if_pos h0, if_neg hR,
          scatterDown_skip hlt]
      · exact absurd h hR
    · have h0 : ¬ rel P root r % 2 ^ (j + 1) = 0 := fun h0 => hlow (low_of_succ h0).1
      simp only [scatterTreeAt, scatterTreeMem, if_neg hlow, if_neg h0, if_neg hR]

end

/-! ## MPI_Scatter -/

/-- The arguments of a scatter: all blocks at the root, and room for one block on every
rank, where the root may leave its own in place. -/
structure ScatterArgs (P k blk root : Nat) (m : Nat → Mem) (recvbuf : Nat → Arg) : Prop where
  room : P * blk ≤ (m root (.user k)).length
  recv : ∀ r, r < P → r = root ∧ recvbuf r = .inPlace ∨
    ∃ b, recvbuf r = .buf (.user b) ∧ Fits (m r (.user b)) 0 blk

/-- What a scatter ends with: rank `r` has block `r`, and nothing else changed. -/
structure ScatteredTo (P k blk root : Nat) (recvbuf : Nat → Arg) (m M : Nat → Mem) : Prop where
  block : ∀ r, r < P → ∀ b, recvbuf r = .buf (.user b) →
    slice (M r (.user b)) 0 blk = slice (m root (.user k)) (r * blk) blk ∧
      UserKeeps b (· < blk) (m r) (M r)
  inPlace : ∀ r, r < P → recvbuf r = .inPlace → ∀ k', M r (.user k') = m r (.user k')

/-- A rank about to take part in the tree. -/
structure ScatterReady (P k blk root : Nat) (D : Bytes) (recvbuf : Arg) (m : Mem) (r : Nat)
    (p : Rank Mem) (w : BufId) (M : Mem) : Prop where
  wait : rel P root r ≠ 0 →
    p = scatterWait P (fun _ => w) (fun _ => recvbuf) blk root r M
  give : rel P root r = 0 → p = scatterRest P r w recvbuf blk root P M
  room : Fits (M w) 0 (subtree P (rel P root r) * blk)
  user : ∀ k', M (.user k') = m (.user k')
  holds : rel P root r = 0 → Holds D (M w) 0 (P * blk)
  leaf : rel P root r ≠ 0 → subtree P (rel P root r) = 1 → recvbuf = .buf w
  inner : rel P root r ≠ 0 → subtree P (rel P root r) ≠ 1 → w = .scratch 0

section

variable {P k blk root : Nat} {m : Nat → Mem} {recvbuf : Nat → Arg}

/-- The root's blocks in relative order. -/
def scatterGoal (P k blk root : Nat) (m : Mem) : Bytes :=
  cat (fun j => slice (m (.user k)) ((j + root) % P * blk) blk) P

theorem ScatterArgs.size (h : ScatterArgs P k blk root m recvbuf) (hP : 2 ≤ P) (j : Nat) :
    (slice (m root (.user k)) ((j + root) % P * blk) blk).length = blk := by
  have := mul_add_le_mul (Nat.mod_lt (j + root) (show 0 < P by omega)) blk
  have := h.room
  exact length_slice (.of_le (by omega))

theorem ScatterArgs.length_goal (h : ScatterArgs P k blk root m recvbuf) (hP : 2 ≤ P) :
    (scatterGoal P k blk root (m root)).length = P * blk :=
  length_cat_const fun j _ => h.size hP j

theorem ScatterArgs.slice_goal (h : ScatterArgs P k blk root m recvbuf) (hP : 2 ≤ P) {j : Nat}
    (hj : j < P) : slice (scatterGoal P k blk root (m root)) (j * blk) blk
      = slice (m root (.user k)) ((j + root) % P * blk) blk :=
  slice_cat_const (fun j _ => h.size hP j) hj

theorem scatterReady_root_zero (rt : Runtime) (h : ScatterArgs P k blk root m recvbuf) (hP : 2 ≤ P)
    (hroot : root < P) (h0 : root = 0) :
    ScatterReady P k blk root (scatterGoal P k blk root (m root)) (recvbuf root) (m root) root
      (scatterTree rt P root (m root) (.user k) (recvbuf root) blk root) (.user k) (m root) := by
  have hz := rel_self hroot
  have hroom := h.room
  refine ⟨fun hne => absurd hz hne, fun _ => ?_, ?_, fun _ => rfl, fun _ => ?_,
    fun hne => absurd hz hne, fun hne => absurd hz hne⟩
  · simp only [scatterTree, hz, if_true]
    rw [if_pos h0]
  · rw [hz, subtree_zero]
    exact .of_le (by omega)
  · refine holds_of_blocks fun j hj => ?_
    rw [h.slice_goal hP hj, h0, Nat.add_zero, Nat.mod_eq_of_lt hj]

theorem scatterReady_root (rt : Runtime) (h : ScatterArgs P k blk root m recvbuf) (hP : 2 ≤ P)
    (hroot : root < P) (h0 : root ≠ 0) :
    ∃ M, ScatterReady P k blk root (scatterGoal P k blk root (m root)) (recvbuf root) (m root) root
      (scatterTree rt P root (m root) (.user k) (recvbuf root) blk root) (.scratch 0) M := by
  have hz := rel_self hroot
  have hroom := h.room
  have hmod : ∀ x, x % P < P := fun x => Nat.mod_lt _ (by omega)
  have huser : ∀ k', scratchOrVec rt 0 (P * blk) (m root) (.user k') = m root (.user k') :=
    fun k' => scratchOrVec_ne _ _ _ _ (by simp)
  have hlen := le_length_scratchOrVec rt 0 (P * blk) (m root)
  generalize hm : scratchOrVec rt 0 (P * blk) (m root) = m₁ at *
  obtain ⟨M, hM, hk, hb⟩ := copyBlocks_spec (fun _ => true) (.scratch 0)
    (fun j => j * blk) (.user k) (fun j => (j + root) % P * blk) (fun _ => blk) P 0 m₁ (by simp) (Nat.zero_le P)
    (fun j _ _ _ => .of_le (by
      rw [huser]
      exact Nat.le_trans (mul_add_le_mul (hmod _) blk) hroom))
    (fun j _ hj _ => .of_le (Nat.le_trans (mul_add_le_mul hj blk) hlen))
    (fun i j _ hij _ _ _ => apart_mul (Nat.ne_of_lt hij) blk)
  refine ⟨M, fun hne => absurd hz hne, fun _ => ?_, ?_, fun k' => ?_, fun _ => ?_,
    fun hne => absurd hz hne, fun hne => absurd hz hne⟩
  · simp only [scatterTree, hz, if_true]
    rw [if_neg h0, hm, hM, access_some, Prog.ret_bind]
  · rw [hz, subtree_zero]
    exact hk.fits (.of_le (by omega))
  · rw [hk.other _ (by simp), huser]
  · refine holds_of_blocks fun j hj => ?_
    have := hb j (Nat.zero_le j) hj rfl
    rw [huser] at this
    rw [this, h.slice_goal hP hj]

theorem scatterReady_leaf (rt : Runtime) (h : ScatterArgs P k blk root m recvbuf)
    (hroot : root < P) {D : Bytes} {r : Nat} (hr : r < P) (hne : rel P root r ≠ 0)
    (hsub : subtree P (rel P root r) = 1) :
    ∃ w, ScatterReady P k blk root D (recvbuf r) (m r) r
      (scatterTree rt P r (m r) (.user k) (recvbuf r) blk root) w (m r) := by
  rcases h.recv r hr with ⟨rfl, -⟩ | ⟨b, hs, hf⟩
  · exact absurd (rel_self hr) hne
  · refine ⟨.user b, fun _ => ?_, fun hz => absurd hz hne, ?_, fun _ => rfl, fun hz => absurd hz hne,
      fun _ _ => hs, fun _ h1 => absurd hsub h1⟩
    · simp only [scatterTree, scatterWait, if_neg hne, hsub, if_true, hs, Nat.one_mul]
    · rw [hsub, Nat.one_mul]
      exact hf

theorem scatterReady_inner (rt : Runtime) {D : Bytes} {r : Nat} (hne : rel P root r ≠ 0)
    (hsub : subtree P (rel P root r) ≠ 1) :
    ScatterReady P k blk root D (recvbuf r) (m r) r
      (scatterTree rt P r (m r) (.user k) (recvbuf r) blk root) (.scratch 0)
      (scratchOrVec rt 0 (subtree P (rel P root r) * blk) (m r)) := by
  have hlen := le_length_scratchOrVec rt 0 (subtree P (rel P root r) * blk) (m r)
  refine ⟨fun _ => ?_, fun hz => absurd hz hne, .of_le (by omega),
    fun k' => scratchOrVec_ne _ _ _ _ (by simp), fun hz => absurd hz hne,
    fun _ h1 => absurd h1 hsub, fun _ _ => rfl⟩
  simp only [scatterTree, scatterWait, if_neg hne, if_neg hsub, scatterRest]

theorem scatter_ready (rt : Runtime) (h : ScatterArgs P k blk root m recvbuf) (hP : 2 ≤ P)
    (hroot : root < P) {r : Nat} (hr : r < P) :
    ∃ w M, ScatterReady P k blk root (scatterGoal P k blk root (m root)) (recvbuf r) (m r) r
      (scatterTree rt P r (m r) (.user k) (recvbuf r) blk root) w M := by
  by_cases hz : rel P root r = 0
  · obtain rfl := (rel_eq_zero hroot hr).mp hz
    by_cases h0 : r = 0
    · exact ⟨_, _, scatterReady_root_zero rt h hP hroot h0⟩
    · obtain ⟨M, hM⟩ := scatterReady_root rt h hP hroot h0
      exact ⟨_, M, hM⟩
  · by_cases hsub : subtree P (rel P root r) = 1
    · obtain ⟨w, hw⟩ := scatterReady_leaf rt h hroot hr hz hsub
      exact ⟨w, _, hw⟩
    · exact ⟨_, _, scatterReady_inner rt hz hsub⟩

/-- Down the tree, from memories that are ready: every rank gets the blocks of its
subtree where it wants them, and has only its own left to take care of. -/
theorem scatter_descend {D : Bytes} {p : Nat → Rank Mem} {w : Nat → BufId} {M : Nat → Mem}
    (hP : 2 ≤ P) (hroot : root < P) (hD : D.length = P * blk)
    (hM : ∀ r, r < P → ScatterReady P k blk root D (recvbuf r) (m r) r (p r) (w r) (M r)) :
    ∃ M' : Nat → Mem, (∀ r, r < P → Keeps (w r)
        (fun x => rel P root r ≠ 0 ∧ x < subtree P (rel P root r) * blk) (M r) (M' r) ∧
      Holds (D.drop (rel P root r * blk)) (M' r (w r)) 0 (subtree P (rel P root r) * blk)) ∧
      Together P p (fun r =>
        if rel P root r ≠ 0 ∧ subtree P (rel P root r) = 1 then .ret (M' r)
        else scatterFin (recvbuf r) (w r) blk (M' r)) := by
  obtain ⟨K, hK, hpow⟩ := exists_pow_ge P
  have hrel : ∀ r, rel P root r < P := fun r => rel_lt _ _ (by omega)
  have htop : ∀ r, rel P root r % 2 ^ K = rel P root r := fun r =>
    Nat.mod_eq_of_lt (by have := hrel r; omega)
  have hinit : ScatterHolds P M w blk root D K M := by
    refine ⟨fun _ _ => .refl .., fun r hr h0 => ?_⟩
    rw [htop] at h0
    rw [h0, Nat.zero_mul, List.drop_zero, subtree_zero]
    exact (hM r hr).holds h0
  have hstart : Together P p (scatterTreeAt P w recvbuf blk root K M) := by
    refine .of_eq fun r hr => ?_
    unfold scatterTreeAt
    rw [htop]
    split
    · next h0 =>
      have hall : span P K 0 = P := by unfold span; omega
      rw [(hM r hr).give h0, scatterGive, if_neg fun h => h.1 h0, scatterRest, h0,
        scanMask_zero hpow (Nat.zero_le K), hall]
    · next h0 => exact (hM r hr).wait h0
  obtain ⟨M', hM', hrun⟩ := Together.descend (P := P) (n := K) (scatterTreeAt P w recvbuf blk root)
    (ScatterHolds P M w blk root D)
    (fun j M' _ hI => ⟨_, hI.step hP hD fun r hr => (hM r hr).room,
      scatterTreeAt_step hP hroot (fun r hr => (hM r hr).room) hI⟩) hinit
  refine ⟨M', fun r hr => ⟨hM'.keeps r hr, hM'.holds r hr (by omega)⟩,
    hstart.trans (hrun.trans (.of_eq fun r hr => ?_))⟩
  rw [scatterTreeAt, if_pos (by omega), scatterGive, scatterDown_zero, Prog.ret_bind]

theorem scatterTree_together (rt : Nat → Runtime) (hP : 2 ≤ P) (hroot : root < P)
    (h : ScatterArgs P k blk root m recvbuf) :
    ∃ M : Nat → Mem, ScatteredTo P k blk root recvbuf m M ∧
      Together P (fun r => scatterTree (rt r) P r (m r) (.user k) (recvbuf r) blk root)
        (fun r => .ret (M r)) := by
  have hready := fun r => scatter_ready (rt r) h hP hroot (r := r)
  choose! w M₀ hM₀ using hready
  obtain ⟨M₁, hM₁, hrun⟩ := scatter_descend hP hroot (h.length_goal hP) hM₀
  have hrel : ∀ r, rel P root r < P := fun r => rel_lt _ _ (by omega)
  -- the own block is the first of the subtree's
  have hblock : ∀ r, r < P → slice (M₁ r (w r)) 0 blk = slice (m root (.user k)) (r * blk) blk := by
    intro r hr
    have hle : blk ≤ subtree P (rel P root r) * blk :=
      Nat.le_mul_of_pos_left blk (subtree_pos (hrel r))
    rw [(hM₁ r hr).2.slice_eq (.inr ⟨Nat.le_refl 0, by omega⟩), slice_drop, Nat.add_zero,
      h.slice_goal hP (hrel r), ofRel_rel hroot hr]
  -- only a leaf has received into a user buffer
  have huser : ∀ r, r < P → ¬ (rel P root r ≠ 0 ∧ subtree P (rel P root r) = 1) →
      ∀ k', M₁ r (.user k') = m r (.user k') := by
    intro r hr hleaf k'
    rw [← (hM₀ r hr).user k']
    by_cases hz : rel P root r = 0
    · by_cases hw : .user k' = w r
      · rw [hw]
        exact ext_getElem?_lt (hM₁ r hr).1.len fun x _ => (hM₁ r hr).1.out x fun h => h.1 hz
      · exact (hM₁ r hr).1.other _ hw
    · have hw := (hM₀ r hr).inner hz fun hs => hleaf ⟨hz, hs⟩
      exact (hM₁ r hr).1.other _ (by rw [hw]; simp)
  have hfin : ∀ r, r < P → ∃ M, (if rel P root r ≠ 0 ∧ subtree P (rel P root r) = 1 then
        .ret (M₁ r) else scatterFin (recvbuf r) (w r) blk (M₁ r)) = .ret M ∧
      (∀ b, recvbuf r = .buf (.user b) →
        slice (M (.user b)) 0 blk = slice (m root (.user k)) (r * blk) blk ∧
          UserKeeps b (· < blk) (m r) M) ∧
      (recvbuf r = .inPlace → ∀ k', M (.user k') = m r (.user k')) := by
    intro r hr
    by_cases hleaf : rel P root r ≠ 0 ∧ subtree P (rel P root r) = 1
    · have hw := (hM₀ r hr).leaf hleaf.1 hleaf.2
      refine ⟨M₁ r, if_pos hleaf, fun b hb => ?_, fun hin => ?_⟩
      · rw [hb] at hw
        have hb' := hblock r hr
        have hk := (hM₁ r hr).1
        rw [← Arg.buf.inj hw] at hb' hk
        rw [hleaf.2, Nat.one_mul] at hk
        exact ⟨hb', (UserKeeps.of_eq (hM₀ r hr).user).trans (hk.user.mono fun x hx => hx.2)⟩
      · rw [hin] at hw
        cases hw
    · rw [if_neg hleaf]
      rcases h.recv r hr with ⟨-, hs⟩ | ⟨b, hs, hf⟩
      · refine ⟨M₁ r, by rw [hs]; rfl, fun b hb => ?_, fun _ => huser r hr hleaf⟩
        rw [hs] at hb
        cases hb
      · have hle : blk ≤ subtree P (rel P root r) * blk :=
          Nat.le_mul_of_pos_left blk (subtree_pos (hrel r))
        have hfs : Fits (M₁ r (w r)) 0 blk :=
          (hM₁ r hr).1.fits ((hM₀ r hr).room.sub (Nat.le_refl 0) (by omega))
        have hfd : Fits (M₁ r (.user b)) 0 blk := by rw [huser r hr hleaf]; exact hf
        have hsl := length_slice hfs
        have hput : Fits (M₁ r (.user b)) 0 (slice (M₁ r (w r)) 0 blk).length := by
          rw [hsl]
          exact hfd
        refine ⟨(M₁ r).put (.user b) 0 (slice (M₁ r (w r)) 0 blk), ?_, fun b' hb' => ?_, fun hin => ?_⟩
        · rw [hs]
          simp only [scatterFin, Mem.copy_eq hfs hfd, access_some]
        · rw [hs] at hb'
          obtain rfl : b = b' := by simpa using hb'
          refine ⟨?_, (UserKeeps.of_eq (huser r hr hleaf)).trans
            (Keeps.put hput fun x _ hx => by rw [hsl] at hx; omega).user⟩
          have := slice_put_self hput
          rw [hsl] at this
          rw [this, hblock r hr]
        · rw [hs] at hin
          cases hin
  choose! M hM hbuf hin using hfin
  exact ⟨M, ⟨hbuf, hin⟩, hrun.trans (.of_eq hM)⟩

theorem mpiScatter_together {sendcount sendtype : Nat} {recvcount recvtype : Nat → Nat}
    (rt : Nat → Runtime) (hroot : root < P) (hsend : bytesOf sendcount sendtype = some blk)
    (hrecv : ∀ r, r < P → r ≠ root → bytesOf (recvcount r) (recvtype r) = some blk)
    (h : ScatterArgs P k blk root m recvbuf) :
    ∃ M : Nat → Mem, ScatteredTo P k blk root recvbuf m M ∧
      Together P (fun r => mpiScatter (rt r) P r (m r) (.user k) sendcount sendtype (recvbuf r)
        (recvcount r) (recvtype r) root) (fun r => .ret (M r)) := by
  have hblk : ∀ r, r < P → (if r = root then bytesOf sendcount sendtype
      else bytesOf (recvcount r) (recvtype r)) = some blk := by
    intro r hr
    split
    · exact hsend
    · next hne => exact hrecv r hr hne
  rcases Nat.lt_or_ge P 2 with hone | hP
  · obtain rfl : P = 1 := by omega
    obtain rfl : root = 0 := by omega
    have hroom := h.room
    rcases h.recv 0 hroot with ⟨-, hs⟩ | ⟨b, hs, hf⟩
    · refine ⟨m, ⟨fun r hr b hb => ?_, fun _ _ _ _ => rfl⟩, .of_eq fun r hr => ?_⟩
      · obtain rfl : r = 0 := by omega
        rw [hs] at hb
        cases hb
      · obtain rfl : r = 0 := by omega
        simp only [mpiScatter, hsend, access_some, Prog.ret_bind, hs, Nat.le_refl, if_true]
    · have hfs : Fits (m 0 (.user k)) 0 blk := .of_le (by omega)
      have hsl := length_slice hfs
      have hput : Fits (m 0 (.user b)) 0 (slice (m 0 (.user k)) 0 blk).length := by
        rw [hsl]
        exact hf
      refine ⟨fun r => (m r).put (.user b) 0 (slice (m r (.user k)) 0 blk),
        ⟨fun r hr b' hb' => ?_, fun r hr hin => ?_⟩, .of_eq fun r hr => ?_⟩
      · obtain rfl : r = 0 := by omega
        rw [hs] at hb'
        obtain rfl : b = b' := by simpa using hb'
        have := slice_put_self hput
        rw [hsl] at this
        exact ⟨by rw [this, Nat.zero_mul],
          (Keeps.put hput fun x _ hx => by rw [hsl] at hx; omega).user⟩
      · obtain rfl : r = 0 := by omega
        rw [hs] at hin
        cases hin
      · obtain rfl : r = 0 := by omega
        simp only [mpiScatter, hsend, access_some, Prog.ret_bind, hs, Nat.le_refl, if_true]
        rw [Mem.copy_eq hfs hf, access_some]
  · obtain ⟨M, hM, hrun⟩ := scatterTree_together rt hP hroot h
    refine ⟨M, hM, .trans (.of_eq fun r hr => ?_) hrun⟩
    have hP1 : ¬ P ≤ 1 := by omega
    simp only [mpiScatter, hblk r hr, access_some, Prog.ret_bind, if_neg hP1]

end

/-! ## Scatter, then gather -/

section

variable {P k blk root k' root' : Nat} {m : Nat → Mem} {recvbuf sendbuf : Nat → Arg}

/-- Where a rank gathers from what it was scattered: the same buffer, or in place at a
root that kept its block in place. -/
def SameBlock (k root k' root' : Nat) (recvbuf sendbuf : Nat → Arg) (r : Nat) : Prop :=
  (∃ b, recvbuf r = .buf (.user b) ∧ sendbuf r = .buf (.user b)) ∨
    (r = root ∧ root' = root ∧ k' = k ∧ recvbuf r = .inPlace ∧ sendbuf r = .inPlace)

theorem ScatteredTo.length {M : Nat → Mem} (hM : ScatteredTo P k blk root recvbuf m M)
    (h : ScatterArgs P k blk root m recvbuf) {r : Nat} (hr : r < P) (b : Nat) :
    (M r (.user b)).length = (m r (.user b)).length := by
  rcases h.recv r hr with ⟨-, hs⟩ | ⟨b', hs, -⟩
  · rw [hM.inPlace r hr hs]
  · exact (hM.block r hr b' hs).2.length b

/-- After the scatter, the gather's arguments are in order and its blocks are the
scattered ones. -/
theorem ScatteredTo.gather (sendbuf : Nat → Arg) {M : Nat → Mem} (hM : ScatteredTo P k blk root recvbuf m M)
    (h : ScatterArgs P k blk root m recvbuf) (hroot' : root' < P)
    (hroom : P * blk ≤ (m root' (.user k')).length)
    (hsame : ∀ r, r < P → SameBlock k root k' root' recvbuf sendbuf r) :
    GatherArgs P k' blk root' M sendbuf ∧ ∀ r, r < P →
      gatherBlock k' blk root' M sendbuf r = slice (m root (.user k)) (r * blk) blk := by
  refine ⟨⟨?_, fun r hr => ?_⟩, fun r hr => ?_⟩
  · rw [hM.length h hroot']
    exact hroom
  · rcases hsame r hr with ⟨b, hb, hs⟩ | ⟨rfl, rfl, -, -, hs⟩
    · refine .inr ⟨b, hs, ?_⟩
      rcases h.recv r hr with ⟨-, hin⟩ | ⟨b', hb', hf⟩
      · rw [hb] at hin
        cases hin
      · rw [hb] at hb'
        obtain rfl : b = b' := by simpa using hb'
        unfold Fits at *
        rw [hM.length h hr]
        exact hf
    · exact .inl ⟨rfl, hs⟩
  · rcases hsame r hr with ⟨b, hb, hs⟩ | ⟨rfl, rfl, rfl, hin, hs⟩
    · rw [gatherBlock, hs]
      exact (hM.block r hr b hb).1
    · rw [gatherBlock, hs]
      show slice (M _ _) _ _ = _
      rw [hM.inPlace _ hr hin]

end

/-- **MPI_Scatter and MPI_Gather.** Whatever the interleaving: after a scatter rank `r`
has block `r` of the root's buffer; after a gather the root has rank `r`'s block at
`r`; nothing else changes and nothing stays in flight. So a scatter followed by a
gather, with the same root or another, reproduces the buffer. -/
theorem mpiScatter_mpiGather_completes {P blk root root' k k' : Nat} {m mg : Nat → Mem}
    {recvbuf sendbuf recvbuf' sendbuf' : Nat → Arg} {scount stype : Nat} {rcount rtype : Nat → Nat}
    {gcount gtype : Nat} {pcount ptype : Nat → Nat} (rt : Nat → Runtime)
    (hroot : root < P) (hroot' : root' < P)
    (hs : bytesOf scount stype = some blk)
    (hr : ∀ r, r < P → r ≠ root → bytesOf (rcount r) (rtype r) = some blk)
    (hg : bytesOf gcount gtype = some blk)
    (hp : ∀ r, r < P → r ≠ root' → bytesOf (pcount r) (ptype r) = some blk)
    (hscatter : ScatterArgs P k blk root m recvbuf)
    (hgather : GatherArgs P k' blk root' mg sendbuf)
    (hscatter' : ScatterArgs P k blk root m recvbuf')
    (hroom : P * blk ≤ (m root' (.user k')).length)
    (hsame : ∀ r, r < P → SameBlock k root k' root' recvbuf' sendbuf' r) :
    (∃ M, Completes (world P (fun r => mpiScatter (rt r) P r (m r) (.user k) scount stype (recvbuf r)
        (rcount r) (rtype r) root) m) M ∧ ScatteredTo P k blk root recvbuf m M) ∧
    (∃ M, Completes (world P (fun r => mpiGather (rt r) P r (mg r) (sendbuf r) (pcount r) (ptype r)
        (.user k') gcount gtype root') mg) M ∧
      GatheredAt P k' blk root' (gatherBlock k' blk root' mg sendbuf) mg M) ∧
    ∃ M, Completes (world P (fun r => mpiScatter (rt r) P r (m r) (.user k) scount stype (recvbuf' r)
          (rcount r) (rtype r) root >>= fun m => mpiGather (rt r) P r m (sendbuf' r) (pcount r)
          (ptype r) (.user k') gcount gtype root') m) M ∧
      slice (M root' (.user k')) 0 (P * blk) = slice (m root (.user k)) 0 (P * blk) := by
  refine ⟨?_, ?_, ?_⟩
  · obtain ⟨M, hM, hrun⟩ := mpiScatter_together rt hroot hs hr hscatter
    refine ⟨_, hrun.completes, ⟨fun r hr => ?_, fun r hr => ?_⟩⟩
    · simp only [if_pos hr]
      exact hM.block r hr
    · simp only [if_pos hr]
      exact hM.inPlace r hr
  · obtain ⟨M, hM, hrun⟩ := mpiGather_together rt hroot' hg hp hgather
    refine ⟨_, hrun.completes, ⟨fun r hr => ?_, ?_, fun r hr => ?_⟩⟩
    · simp only [if_pos hroot']
      exact hM.blocks r hr
    · simp only [if_pos hroot']
      exact hM.keeps
    · simp only [if_pos hr]
      exact hM.others r hr
  · obtain ⟨M, hM, hrun⟩ := mpiScatter_together rt hroot hs hr hscatter'
    obtain ⟨hargs, hblocks⟩ := hM.gather sendbuf' hscatter' hroot' hroom hsame
    obtain ⟨M', hM', hrun'⟩ := mpiGather_together rt hroot' hg hp hargs
    refine ⟨_, ((hrun.bind fun r m => mpiGather (rt r) P r m (sendbuf' r) (pcount r) (ptype r)
      (.user k') gcount gtype root').trans hrun').completes, ?_⟩
    rw [if_pos hroot']
    have hall : Holds (m root (.user k)) (M' root' (.user k')) 0 (P * blk) :=
      holds_of_blocks fun j hj => by rw [hM'.blocks j hj, hblocks j hj]
    exact hall.slice_eq (.inr ⟨Nat.le_refl 0, by omega⟩)

theorem mpiScatter_mpiGather_completes_two_ranks :
    ∃ M, Completes (world 2 (fun r => mpiScatter ⟨false, fun c => Vector.replicate c 0⟩ 2 r
          (fun _ => [UInt8.ofNat r, 7]) (.user 0) 1 8 (.buf (.user 1)) 1 8 1 >>= fun m =>
          mpiGather ⟨false, fun c => Vector.replicate c 0⟩ 2 r m (.buf (.user 1)) 1 8 (.user 2) 1 8 0)
        fun r _ => [UInt8.ofNat r, 7]) M ∧
      slice (M 0 (.user 2)) 0 2 = [1, 7] := by
  have hroom : ∀ r k, 2 * 1 ≤ ((fun r _ => [UInt8.ofNat r, 7] : Nat → Mem) r (.user k)).length :=
    fun _ _ => Nat.le_refl 2
  have hfits : ∀ r k, Fits ((fun r _ => [UInt8.ofNat r, 7] : Nat → Mem) r (.user k)) 0 1 :=
    fun _ _ => .of_le (by simp)
  obtain ⟨-, -, M, hM, hslice⟩ := @mpiScatter_mpiGather_completes 2 1 1 0 0 2
    (fun r _ => [UInt8.ofNat r, 7]) (fun r _ => [UInt8.ofNat r, 7]) (fun _ => .buf (.user 1))
    (fun _ => .buf (.user 1)) (fun _ => .buf (.user 1)) (fun _ => .buf (.user 1)) 1 8 (fun _ => 1)
    (fun _ => 8) 1 8 (fun _ => 1) (fun _ => 8)
    (fun _ => ⟨false, fun c => Vector.replicate c 0⟩) (by decide) (by decide) rfl
    (fun _ _ _ => rfl) rfl (fun _ _ _ => rfl) ⟨hroom 1 0, fun r _ => .inr ⟨1, rfl, hfits r 1⟩⟩
    ⟨hroom 0 2, fun r _ => .inr ⟨1, rfl, hfits r 1⟩⟩
    ⟨hroom 1 0, fun r _ => .inr ⟨1, rfl, hfits r 1⟩⟩ (hroom 0 2)
    (fun _ _ => .inl ⟨1, rfl, rfl⟩)
  exact ⟨M, hM, hslice⟩

end Pimid.Mpi
