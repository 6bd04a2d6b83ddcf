import Pimid.Mpi.Team

/-!
# MPI_Allreduce

The first `2 * rem` ranks fold pairwise into the odd ones, the survivors reduce
among themselves — recursive doubling for short vectors, Rabenseifner's halving
and spreading for long ones — and the odd ranks hand the result back.

Every survivor combines in the order its own partners come, so the ranks bracket
the same inputs differently. For an operation that only commutes they still agree
(`butterfly_congr`); for one that is associative as well the result is the
reduction.
-/

namespace Pimid.Mpi

open Pimid.Net

def kAllreduceShort : Nat := 2048

/-! ## The code -/

/-- Recursive doubling from `mask = 2 ^ i` on. -/
def allreduceRd (c : RedArgs) (P : Nat) (acc : BufId) (count n newrank pof2 : Nat)
    (realOf : Nat → Nat) (i : Nat) (m : Mem) : Rank Mem :=
  if 2 ^ i < pof2 then do
    let dst := realOf (newrank ^^^ 2 ^ i)
    let (_, m) ← xchgBytes P m acc 0 n dst (.scratch 0) 0 n dst
    let m ← access (reduceLocal c.fp m (.scratch 0) 0 acc 0 count c.dt c.op)
    allreduceRd c P acc count n newrank pof2 realOf (i + 1) m
  else .ret m
termination_by pof2 - i
decreasing_by
  have := Nat.lt_two_pow_self (n := i)
  omega

/-- The allgather of Rabenseifner's algorithm, from `mask` down. -/
def allreduceSpread (P : Nat) (acc : BufId) (newrank pof2 : Nat) (pieces : List Nat × List Nat)
    (ext : Nat) (realOf : Nat → Nat) (mask sendIdx lastIdx : Nat) (m : Mem) : Rank Mem :=
  if mask > 0 then do
    let newdst := newrank ^^^ mask
    let dst := realOf newdst
    let v ← access (regatherMove pieces pof2 newrank mask sendIdx lastIdx)
    let (_, m) ← xchgBytes P m acc (v.sendOff * ext) (v.sendCnt * ext) dst
      acc (v.recvOff * ext) (v.recvCnt * ext) dst
    allreduceSpread P acc newrank pof2 pieces ext realOf (mask / 2)
      (if newrank > newdst then v.recvIdx else sendIdx) v.lastIdx m
  else .ret m
termination_by mask

/-- The real rank of survivor `nr`. -/
def allreduceRealOf (rem nr : Nat) : Nat := if nr < rem then nr * 2 + 1 else nr + rem

/-- The first `2 * rem` ranks fold pairwise; the odd one survives. Returns the new
rank, `none` for a rank that was folded away. -/
def allreduceFold (c : RedArgs) (P rank rem : Nat) (acc : BufId) (count n : Nat) (m : Mem) :
    Rank (Option Nat × Mem) :=
  if rank < 2 * rem then
    if rank % 2 = 0 then do
      sendBytes P m acc 0 n (rank + 1) 0
      .ret (none, m)
    else do
      let (_, m) ← recvBytes P m (.scratch 0) 0 n (rank - 1)
      let m ← access (reduceLocal c.fp m (.scratch 0) 0 acc 0 count c.dt c.op)
      .ret (some (rank / 2), m)
  else .ret (some (rank - rem), m)

/-- The survivors' part. -/
def allreduceCore (c : RedArgs) (P : Nat) (acc : BufId) (count ext newrank pof2 rem : Nat) (m : Mem) :
    Rank Mem :=
  if count * ext ≤ kAllreduceShort ∨ count < pof2 then
    allreduceRd c P acc count (count * ext) newrank pof2 (allreduceRealOf rem) 0 m
  else do
    let pieces := rsPieces count pof2
    let (sendIdx, lastIdx, m) ← reduceScatterHalving c P acc (.scratch 0) newrank pof2 pieces ext
      (allreduceRealOf rem) m
    allreduceSpread P acc newrank pof2 pieces ext (allreduceRealOf rem) (pof2 / 2) sendIdx lastIdx m

/-- Hand the result back to the folded ranks. -/
def allreduceHandBack (P rank rem : Nat) (acc : BufId) (n : Nat) (m : Mem) : Rank Mem :=
  if rank < 2 * rem then
    if rank % 2 ≠ 0 then do
      sendBytes P m acc 0 n (rank - 1) 0
      .ret m
    else do
      let (_, m) ← recvBytes P m acc 0 n (rank + 1)
      .ret m
  else .ret m

def allreduceBytes (c : RedArgs) (rt : Runtime) (P rank : Nat) (acc : BufId) (count ext : Nat)
    (m : Mem) : Rank Mem := do
  let n := count * ext
  let pof2 := pof2Floor P
  let rem := P - pof2
  let m := scratchOrVec rt 0 (if n ≠ 0 then n else 1) m
  let (newrank, m) ← allreduceFold c P rank rem acc count n m
  let m ← match newrank with
    | none => .ret m
    | some newrank => allreduceCore c P acc count ext newrank pof2 rem m
  allreduceHandBack P rank rem acc n m

def mpiAllreduce (c : RedArgs) (rt : Runtime) (P rank : Nat) (m : Mem) (sendbuf : Arg)
    (recvbuf : BufId) (count : Nat) : Rank Mem := do
  let ext ← access (dtypeSize c.dt)
  let m ← access (copyIn m recvbuf sendbuf (count * ext))
  if P ≤ 1 then .ret m else allreduceBytes c rt P rank recvbuf count ext m

/-! ## The survivors -/

/-- The numbering of `allreduce_bytes`. -/
abbrev allreduceTeam {P K : Nat} (h : Pof2 P K) : Team P K := foldTeam h 1 (by omega)

abbrev allreducePairing {P K : Nat} (h : Pof2 P K) : Pairing (allreduceTeam h) :=
  foldPairing h 1 (by omega)

section

variable {P K count : Nat} {c : RedArgs} {ty : RedType} {f : Bytes → Bytes → Bytes}
  {acc : Nat → BufId} {m : Nat → Mem}

/-- **Recursive doubling.** Every member ends with the combination over the team. -/
theorem doubling_together {α : Type} {T : Team P K} (hP : 2 ≤ P) (hc : RedOk c ty f)
    (hroom : Room P count ty.size acc m) (cont : Nat → Mem → Rank α) (q : Nat → Rank α) :
    ∃ M, Combined T f ty.size count acc m (fun _ => 0) (fun _ => count) K M ∧
      Together P (fun r => if T.has r then
          allreduceRd c P (acc r) count (count * ty.size) (T.newOf r) (2 ^ K) T.realOf 0 (m r)
            >>= cont r
        else q r)
        (fun r => if T.has r then cont r (M r) else q r) := by
  let loop : Nat → Nat → Mem → Rank α := fun i r M =>
    allreduceRd c P (acc r) count (count * ty.size) (T.newOf r) (2 ^ K) T.realOf i M >>= cont r
  obtain ⟨M, hM, hrun⟩ := Together.ascend (P := P) (n := K)
    (fun i (M : Nat → Mem) r => if T.has r then loop i r (M r) else q r)
    (Combined T f ty.size count acc m (fun _ => 0) fun _ => count)
    (fun i M hi hI => by
      obtain ⟨M', hM', hstep⟩ := Combined.step hP hc hroom hi (fun _ => 0)
        (fun _ => count) (fun _ => ⟨Nat.zero_le _, Nat.le_refl _⟩)
        (fun _ => ⟨Nat.zero_le _, Nat.le_refl _⟩) (fun _ => ⟨Nat.zero_le _, Nat.le_refl _⟩) hI
        (loop (i + 1)) q
      refine ⟨M', hM', .trans (.of_eq fun r _ => ?_) hstep⟩
      simp only [loop, Nat.zero_mul, Nat.sub_zero]
      rw [allreduceRd, if_pos (lt_pof2_iff.mpr hi)]
      simp only [Prog.bind_assoc])
    (Combined.start ..)
  refine ⟨M, hM, hrun.trans (.of_eq fun r hr => ?_)⟩
  split
  · simp only [loop]
    rw [allreduceRd, if_neg (Nat.lt_irrefl _), Prog.ret_bind]
  · rfl

theorem allreduceSpread_step {A : BufId} {realOf : Nat → Nat} {ext k i : Nat} (hi : i < K) (M : Mem) :
    allreduceSpread P A k (2 ^ K) (rsPieces count (2 ^ K)) ext realOf (2 ^ (i + 1) / 2)
        (first K k (i + 1)) (lastAt K k (i + 1)) M
      = (xchgBytes P M A (eltLo count K k (i + 1) * ext)
          ((eltHi count K k (i + 1) - eltLo count K k (i + 1)) * ext) (realOf (k ^^^ 2 ^ i))
          A (eltLo count K (k ^^^ 2 ^ i) (i + 1) * ext)
          ((eltHi count K (k ^^^ 2 ^ i) (i + 1) - eltLo count K (k ^^^ 2 ^ i) (i + 1)) * ext)
          (realOf (k ^^^ 2 ^ i))
        >>= fun x => allreduceSpread P A k (2 ^ K) (rsPieces count (2 ^ K)) ext realOf (2 ^ i / 2)
          (first K k i) (lastAt K k i) x.2) := by
  rw [half_pow_succ, allreduceSpread, if_pos (Nat.two_pow_pos i), regatherMove_eq hi, access_some,
    Prog.ret_bind]
  simp only [regather_send hi]

theorem spread_step {α : Type} {T : Team P K} (hP : 2 ≤ P) (hroom : Room P count ty.size acc m) {i : Nat}
    (hi : i < K) {W : Nat → Bytes} {M : Nat → Mem}
    (hI : TeamHas T ty.size count acc m (eltLo count K · (i + 1)) (eltHi count K · (i + 1))
      (fun _ => W) M) (cont : Nat → Mem → Rank α) (q : Nat → Rank α) :
    ∃ M', TeamHas T ty.size count acc m (eltLo count K · i) (eltHi count K · i) (fun _ => W) M' ∧
      Together P
        (fun r => if T.has r then
          (xchgBytes P (M r) (acc r) (eltLo count K (T.newOf r) (i + 1) * ty.size)
            ((eltHi count K (T.newOf r) (i + 1) - eltLo count K (T.newOf r) (i + 1)) * ty.size)
            (T.realOf (T.newOf r ^^^ 2 ^ i)) (acc r)
            (eltLo count K (T.newOf r ^^^ 2 ^ i) (i + 1) * ty.size)
            ((eltHi count K (T.newOf r ^^^ 2 ^ i) (i + 1)
              - eltLo count K (T.newOf r ^^^ 2 ^ i) (i + 1)) * ty.size)
            (T.realOf (T.newOf r ^^^ 2 ^ i))
          >>= fun x => cont r x.2) else q r)
        (fun r => if T.has r then cont r (M' r) else q r) := by
  have hroom' := hroom.of_work hI.work
  have hcnt : ∀ k, eltLo count K k (i + 1) + (eltHi count K k (i + 1) - eltLo count K k (i + 1))
      ≤ count := fun k => by
    rw [Nat.add_sub_cancel' (eltLo_le_eltHi ..)]
    exact eltHi_le hi
  refine ⟨fun r => if T.has r then (M r).put (acc r)
      (eltLo count K (T.newOf r ^^^ 2 ^ i) (i + 1) * ty.size)
      (slice (M (T.partner i r) (acc (T.partner i r)))
        (eltLo count K (T.newOf r ^^^ 2 ^ i) (i + 1) * ty.size)
        ((eltHi count K (T.newOf r ^^^ 2 ^ i) (i + 1)
          - eltLo count K (T.newOf r ^^^ 2 ^ i) (i + 1)) * ty.size)) else M r,
    ⟨fun r hr => ?_, fun r hr h => ?_, fun r hr h x hlo hhi => ?_⟩, ?_⟩
  · split
    · next h =>
      exact (hI.work r hr).trans
        (work_regather hi (hroom'.acc r hr) (hroom'.acc _ (T.partner_lt hi hr h)))
    · exact hI.work r hr
  · rw [if_neg (by simp [h]), hI.rest r hr h]
  · have hnew := T.newOf_partner hi hr h
    rw [if_pos h]
    refine elt_regather hi (hroom'.acc r hr) (hroom'.acc _ (T.partner_lt hi hr h))
      (hI.value r hr h) (fun y h₁ h₂ => ?_) hlo hhi
    exact hI.value _ (T.partner_lt hi hr h) (T.has_partner hi hr h) y (by rw [hnew]; exact h₁)
      (by rw [hnew]; exact h₂)
  · refine .trans (.of_eq fun r hr => ?_) (.trans (T.swap hP hi M acc acc
      (fun r => eltLo count K (T.newOf r ^^^ 2 ^ i) (i + 1) * ty.size)
      (fun r => (eltHi count K (T.newOf r ^^^ 2 ^ i) (i + 1)
        - eltLo count K (T.newOf r ^^^ 2 ^ i) (i + 1)) * ty.size) (fun r x => cont r x.2) q
      (fun r hr h => fits_elts (hroom'.acc r hr) (hcnt _))
      (fun r hr h => fits_elts (hroom'.acc r hr) (hcnt _))
      (fun r hr h => .inr ?_)) (.of_eq fun r hr => ?_))
    · split
      · next h =>
        rw [T.newOf_partner hi hr h, Nat.xor_xor_cancel_right]
        rfl
      · rfl
    · -- the two ranges lie side by side
      rw [T.newOf_partner hi hr h, Nat.xor_xor_cancel_right]
      have hmono := eltLo_le_eltHi count K (T.newOf r) (i + 1)
      have hmono' := eltLo_le_eltHi count K (T.newOf r ^^^ 2 ^ i) (i + 1)
      unfold Apart
      rw [← Nat.add_mul, ← Nat.add_mul, Nat.add_sub_cancel' hmono, Nat.add_sub_cancel' hmono']
      rcases elt_cases count (T.newOf r) hi with ⟨-, h, -⟩ | ⟨-, h, -⟩
      · exact .inr (.inr (.inl (by rw [h])))
      · exact .inr (.inr (.inr (by rw [h])))
    · split
      · next h => simp only [h, if_true]
      · rfl

/-- **Halving and spreading.** Every member ends with the same vector, in which each
element is what one of the members had combined. -/
theorem rabenseifner_together {α : Type} {T : Team P K} (hP : 2 ≤ P) (hc : RedOk c ty f)
    (hroom : Room P count ty.size acc m) (cont : Nat → Mem → Rank α) (q : Nat → Rank α) :
    ∃ (M : Nat → Mem) (W : Nat → Bytes),
      TeamHas T ty.size count acc m (fun _ => 0) (fun _ => count) (fun _ => W) M ∧
      (∀ x, ∃ k, k < 2 ^ K ∧ W x = teamValue T f ty.size acc m K k x) ∧
      Together P (fun r => if T.has r then
          (reduceScatterHalving c P (acc r) (.scratch 0) (T.newOf r) (2 ^ K) (rsPieces count (2 ^ K))
            ty.size T.realOf (m r) >>= fun x =>
          allreduceSpread P (acc r) (T.newOf r) (2 ^ K) (rsPieces count (2 ^ K)) ty.size T.realOf
            (2 ^ K / 2) x.1 x.2.1 x.2.2 >>= cont r)
        else q r)
        (fun r => if T.has r then cont r (M r) else q r) := by
  let loop : Nat → Nat → Mem → Rank α := fun i r M =>
    allreduceSpread P (acc r) (T.newOf r) (2 ^ K) (rsPieces count (2 ^ K)) ty.size T.realOf (2 ^ i / 2)
      (first K (T.newOf r) i) (lastAt K (T.newOf r) i) M >>= cont r
  obtain ⟨W, hW, hone⟩ := exists_pieces count K (teamValue T f ty.size acc m K)
  obtain ⟨M₁, hM₁, hhalf⟩ := halving_together hP hc hroom (fun r x =>
    allreduceSpread P (acc r) (T.newOf r) (2 ^ K) (rsPieces count (2 ^ K)) ty.size T.realOf (2 ^ K / 2)
      x.1 x.2.1 x.2.2 >>= cont r) q (T := T)
  obtain ⟨M, hM, hrun⟩ := Together.descend (P := P) (n := K)
    (fun i (M : Nat → Mem) r => if T.has r then loop i r (M r) else q r)
    (fun i => TeamHas T ty.size count acc m (eltLo count K · i) (eltHi count K · i) fun _ => W)
    (fun i M hi hI => by
      obtain ⟨M', hM', hstep⟩ := spread_step hP hroom hi hI (loop i) q
      refine ⟨M', hM', .trans (.of_eq fun r _ => ?_) hstep⟩
      simp only [loop, allreduceSpread_step hi, Prog.bind_assoc])
    (s := M₁) ⟨hM₁.work, hM₁.rest, fun r hr h x hlo hhi => by
      rw [hM₁.value r hr h x hlo hhi, hW _ (T.newOf_lt r hr h) x hlo hhi]⟩
  refine ⟨M, W, ⟨hM.work, hM.rest, fun r hr h x hlo hhi => hM.value r hr h x (Nat.zero_le x) ?_⟩, hone,
    hhalf.trans (hrun.trans (.of_eq fun r hr => ?_))⟩
  · rw [eltHi_zero]
    exact hhi
  · split
    · simp only [loop, Nat.pow_zero, Nat.reduceDiv]
      rw [allreduceSpread, if_neg (Nat.lt_irrefl 0), Prog.ret_bind]
    · rfl

end

/-! ## The call -/

section

variable {P K k count : Nat} {c : RedArgs} {ty : RedType} {f : Bytes → Bytes → Bytes}
  {m : Nat → Mem}

/-- The survivors' part, whichever algorithm: each element a member ends with is what
one of them combined. -/
theorem allreduceCore_together {α : Type} (h : Pof2 P K) (hP : 2 ≤ P) (hc : RedOk c ty f)
    (hroom : Room P count ty.size (fun _ => .user k) m)
    (cont : Nat → Mem → Rank α) (q : Nat → Rank α) :
    ∃ (M : Nat → Mem) (V : Nat → Nat → Bytes),
      TeamHas (allreduceTeam h) ty.size count (fun _ => .user k) m (fun _ => 0) (fun _ => count) V M ∧
      (∀ j, j < 2 ^ K → ∀ x, ∃ i, i < 2 ^ K ∧
        V j x = teamValue (allreduceTeam h) f ty.size (fun _ => .user k) m K i x) ∧
      Together P (fun r => if (allreduceTeam h).has r then
          allreduceCore c P (.user k) count ty.size ((allreduceTeam h).newOf r) (2 ^ K) (P - 2 ^ K) (m r)
            >>= cont r
        else q r)
        (fun r => if (allreduceTeam h).has r then cont r (M r) else q r) := by
  by_cases hshort : count * ty.size ≤ kAllreduceShort ∨ count < 2 ^ K
  · obtain ⟨M, hM, hrun⟩ := doubling_together (T := allreduceTeam h) hP hc hroom cont q
    refine ⟨M, _, hM, fun j hj x => ⟨j, hj, rfl⟩, .trans (.of_eq fun r hr => ?_) hrun⟩
    rw [allreduceCore, if_pos hshort]
    rfl
  · obtain ⟨M, W, hM, hone, hrun⟩ := rabenseifner_together (T := allreduceTeam h) hP hc hroom cont q
    refine ⟨M, _, hM, fun j hj x => hone x, .trans (.of_eq fun r hr => ?_) hrun⟩
    rw [allreduceCore, if_neg hshort]
    simp only [Prog.bind_assoc]
    rfl

theorem allreduceHandBack_together (h : Pof2 P K) (hP : 2 ≤ P) {m₀ : Nat → Mem}
    (hroom : Room P count ty.size (fun _ => .user k) m₀) {V : Nat → Nat → Bytes}
    (hI : TeamHas (allreduceTeam h) ty.size count (fun _ => .user k) m₀ (fun _ => 0) (fun _ => count)
      V m) :
    ∃ M : Nat → Mem, (∀ r, r < P → Work (.user k) (count * ty.size) (m₀ r) (M r)) ∧
      (∀ r, r < P → ∀ x, x < count →
        elt ty.size (M r (.user k)) x = V ((allreduceTeam h).newOf r) x) ∧
      Together P (fun r => allreduceHandBack P r (P - 2 ^ K) (.user k) (count * ty.size) (m r))
        (fun r => .ret (M r)) := by
  have hroom' := hroom.of_work hI.work
  have hlt : ∀ r, (allreduceTeam h).has r = false ↔ r < 2 * (P - 2 ^ K) ∧ r % 2 = 0 := fun r => by
    rw [has_foldTeam_eq_false]
    omega
  have hfit : ∀ r, r < P → Fits (m r (.user k)) 0 (count * ty.size) := fun r hr =>
    .of_le (by have := hroom'.acc r hr; omega)
  let M : Nat → Mem := fun r => if r < 2 * (P - 2 ^ K) ∧ r % 2 = 0 then
    (m r).put (.user k) 0 (slice (m (r + 1) (.user k)) 0 (count * ty.size)) else m r
  have hup : ∀ r, r < 2 * (P - 2 ^ K) ∧ r % 2 = 0 → r + 1 < P ∧ (allreduceTeam h).has (r + 1) = true := by
    intro r hr
    have := h.lt
    refine ⟨by omega, ?_⟩
    rw [← Bool.not_eq_false, hlt]
    omega
  refine ⟨M, fun r hr => ?_, fun r hr x hx => ?_, ?_⟩
  · simp only [M]
    split
    · next hh =>
      refine (hI.work r hr).trans (.of_acc (A := (· < count * ty.size))
        (keeps_put_slice (hfit r hr) (hfit _ (hup r hh).1) fun x _ h => by omega) fun _ h => h)
    · exact hI.work r hr
  · simp only [M]
    split
    · next hh =>
      have hput := elt_put_in (x := x)
        (show Fits (m r (.user k)) (0 * ty.size) (count * ty.size) by
          rw [Nat.zero_mul]; exact hfit r hr)
        (show Fits (m (r + 1) (.user k)) (0 * ty.size) (count * ty.size) by
          rw [Nat.zero_mul]; exact hfit _ (hup r hh).1) (Nat.zero_le x) (by omega)
      rw [Nat.zero_mul] at hput
      -- the two ranks of a pair share their new rank
      have hnew : (allreduceTeam h).newOf (r + 1) = (allreduceTeam h).newOf r := by
        simp only [foldTeam]
        rw [if_pos hh.1, if_pos (by omega)]
        omega
      rw [hput, ← hnew]
      exact hI.value _ (hup r hh).1 (hup r hh).2 x (Nat.zero_le x) hx
    · next hh =>
      have hhas : (allreduceTeam h).has r = true := by
        rw [← Bool.not_eq_false, hlt]
        exact hh
      exact hI.value r hr hhas x (Nat.zero_le x) hx
  · refine Together.deliver (m := m) (fun r => r < 2 * (P - 2 ^ K) ∧ r % 2 ≠ 0)
      (fun r => r < 2 * (P - 2 ^ K) ∧ r % 2 = 0) hP
      (fun r => ⟨r - 1, .user k, 0, count * ty.size⟩) (fun r => ⟨r + 1, .user k, 0, count * ty.size⟩)
      (fun r x => .ret x.2) ?_ ?_ ?_ ?_ ?_ ?_ ?_ ?_ ?_ ?_
    · rintro r hr ⟨h₁, h₂⟩
      dsimp only
      omega
    · rintro r hr ⟨h₁, h₂⟩
      have := h.lt
      dsimp only
      omega
    · rintro r hr ⟨-, h₁⟩ ⟨-, h₂⟩
      exact h₁ h₂
    · exact fun r hr _ => hfit r hr
    · exact fun r hr _ => hfit r hr
    · exact fun _ _ _ => Nat.le_refl _
    · rintro r hr ⟨h₁, h₂⟩
      simp only [allreduceHandBack, if_pos h₁, if_pos h₂, M, if_neg (not_and_of_not_right _ h₂)]
    · rintro r hr ⟨h₁, h₂⟩
      simp only [allreduceHandBack, if_pos h₁, h₂, ne_eq, not_true_eq_false, if_false]
    · rintro r hr hh
      simp only [M, if_pos hh, Tx.data]
    · intro r hr hs hR
      have hlt' : ¬ r < 2 * (P - 2 ^ K) := fun hlt => by
        by_cases hodd : r % 2 = 0
        · exact hR ⟨hlt, hodd⟩
        · exact hs ⟨hlt, hodd⟩
      simp only [allreduceHandBack, if_neg hlt', M, if_neg hR]

theorem Work.user {k n : Nat} {m m₁ M : Mem} (h : Work (.user k) n m₁ M)
    (hm : ∀ j, m₁ (.user j) = m (.user j)) : UserKeeps k (· < n) m M :=
  ⟨fun j hj => by rw [h.other _ (by simpa using hj) (by simp), hm], by rw [h.length, hm],
    fun x hx => by rw [h.out x (Nat.not_lt.mp hx), hm]⟩

/-- The vectors, with the scratch memory an algorithm asks for. -/
theorem room_scratch (rt : Nat → Runtime) (acc : Nat → BufId) {ext : Nat}
    (hne : ∀ r, r < P → acc r ≠ .scratch 0)
    (hlen : ∀ r, r < P → count * ext ≤ (m r (acc r)).length) :
    Room P count ext acc
      fun r => scratchOrVec (rt r) 0 (if count * ext ≠ 0 then count * ext else 1) (m r) := by
  refine ⟨hne, fun r hr => ?_, fun r hr => Nat.le_trans ?_ (le_length_scratchOrVec ..)⟩
  · rw [scratchOrVec_ne _ _ _ _ (hne r hr)]
    exact hlen r hr
  · split <;> omega

/-- The code of rank `r`, by what becomes of it in the fold. -/
theorem allreduceBytes_eq (rt : Runtime) (h : Pof2 P K) (hfloor : pof2Floor P = 2 ^ K) {r ext : Nat}
    {acc : BufId} (m : Mem) :
    allreduceBytes c rt P r acc count ext m =
      let m := scratchOrVec rt 0 (if count * ext ≠ 0 then count * ext else 1) m
      let core := fun m => allreduceCore c P acc count ext ((allreduceTeam h).newOf r) (2 ^ K)
        (P - 2 ^ K) m >>= allreduceHandBack P r (P - 2 ^ K) acc (count * ext)
      if (allreducePairing h).paired r then
        if (allreduceTeam h).has r then
          recvBytes P m (.scratch 0) 0 (count * ext) ((allreducePairing h).mate r) >>= fun x =>
            access (reduceLocal c.fp x.2 (.scratch 0) 0 acc 0 count c.dt c.op) >>= core
        else sendBytes P m acc 0 (count * ext) ((allreducePairing h).mate r) 0 >>= fun _ =>
          allreduceHandBack P r (P - 2 ^ K) acc (count * ext) m
      else core m := by
  simp only [allreduceBytes, hfloor, allreduceFold, foldPairing, foldTeam, decide_eq_true_eq]
  by_cases hlt : r < 2 * (P - 2 ^ K)
  · by_cases heven : r % 2 = 0
    · simp only [hlt, heven, if_true, Nat.zero_ne_one, ne_eq, not_false_eq_true, and_self,
        not_true_eq_false, if_false, Prog.bind_assoc, Prog.ret_bind]
    · have hodd : r % 2 = 1 := by omega
      simp only [hlt, hodd, Nat.one_ne_zero, ne_eq, not_true_eq_false, and_false, not_false_eq_true,
        if_true, if_false, Prog.bind_assoc, Prog.ret_bind]
  · simp only [hlt, if_false, Prog.ret_bind]

/-- **Allreduce on the vector at `k`.** Each rank ends with a bracketing of the ranks'
elements, and if the operation commutes, all with the same. -/
theorem allreduceBytes_together (rt : Nat → Runtime) (hP : 2 ≤ P) (hc : RedOk c ty f)
    (hlen : ∀ r, r < P → count * ty.size ≤ (m r (.user k)).length) :
    ∃ M : Nat → Mem,
      (∀ r, r < P → UserKeeps k (· < count * ty.size) (m r) (M r)) ∧
      (∀ r, r < P → ∀ x, x < count → Reduces f (fun s => elt ty.size (m s (.user k)) x)
        (Finset.range P) (elt ty.size (M r (.user k)) x)) ∧
      (Commutes f → ∀ r, r < P → ∀ s, s < P → ∀ x, x < count →
        elt ty.size (M r (.user k)) x = elt ty.size (M s (.user k)) x) ∧
      Together P (fun r => allreduceBytes c (rt r) P r (.user k) count ty.size (m r))
        (fun r => .ret (M r)) := by
  obtain ⟨K, hfloor, h⟩ := pof2_of_floor (P := P) (by omega)
  have hroom := room_scratch rt (fun _ => .user k) (fun _ _ => by simp) hlen
  have huser : ∀ r j, scratchOrVec (rt r) 0 (if count * ty.size ≠ 0 then count * ty.size else 1) (m r)
      (.user j) = m r (.user j) := fun r j => scratchOrVec_ne _ _ _ _ (by simp)
  obtain ⟨M₁, hw₁, hrest₁, hred, hfold⟩ := fold_together (allreducePairing h) hP hc hroom
    (fun r M => allreduceCore c P (.user k) count ty.size ((allreduceTeam h).newOf r) (2 ^ K)
      (P - 2 ^ K) M >>= allreduceHandBack P r (P - 2 ^ K) (.user k) (count * ty.size))
    (fun r => allreduceHandBack P r (P - 2 ^ K) (.user k) (count * ty.size)
      (scratchOrVec (rt r) 0 (if count * ty.size ≠ 0 then count * ty.size else 1) (m r)))
  have hroom₁ := hroom.of_work hw₁
  obtain ⟨M₂, V, hM₂, hone, hcore⟩ := allreduceCore_together h hP hc hroom₁
    (fun r => allreduceHandBack P r (P - 2 ^ K) (.user k) (count * ty.size))
    (fun r => allreduceHandBack P r (P - 2 ^ K) (.user k) (count * ty.size)
      (scratchOrVec (rt r) 0 (if count * ty.size ≠ 0 then count * ty.size else 1) (m r)))
  obtain ⟨M₃, hw₃, hval, hback⟩ := allreduceHandBack_together h hP hroom₁ hM₂
  have hlt := fun r hr => (allreducePairing h).newOf_lt r hr
  refine ⟨M₃, fun r hr => ((hw₁ r hr).trans (hw₃ r hr)).user (huser r), fun r hr x hx => ?_,
    fun hcomm r hr s hs x hx => ?_, .trans (.of_eq fun r hr => ?_) (hfold.trans (hcore.trans (.trans (.of_eq fun r hr => ?_) hback)))⟩
  · obtain ⟨i, hi, hV⟩ := hone _ (hlt r hr) x
    have := reduces_teamValue (allreducePairing h) (fun j hj => hred j hj x hx) hi
    rw [hval r hr x hx, hV]
    simpa only [huser] using this
  · obtain ⟨i, hi, hV⟩ := hone _ (hlt r hr) x
    obtain ⟨j, hj, hV'⟩ := hone _ (hlt s hs) x
    rw [hval r hr x hx, hval s hs x hx, hV, hV', teamValue_congr _ hcomm ty.size hi,
      teamValue_congr _ hcomm ty.size hj]
  · exact allreduceBytes_eq (rt r) h hfloor (m r)
  · split
    · rfl
    · next hh =>
      rw [Bool.not_eq_true] at hh
      rw [hM₂.rest r hr hh, hrest₁ r hr hh]

/-- The buffers of an allreduce: room for the result everywhere, and the vector of a
rank that does not work in place. -/
structure AllreduceArgs (P k n : Nat) (m : Nat → Mem) (sendbuf : Nat → Arg) : Prop where
  room : ∀ r, r < P → n ≤ (m r (.user k)).length
  send : ∀ r, r < P → ∀ b, sendbuf r = .buf b → Fits (m r b) 0 n

theorem mpiAllreduce_together {sendbuf : Nat → Arg} (rt : Nat → Runtime) (hP : 2 ≤ P)
    (hc : RedOk c ty f) (h : AllreduceArgs P k (count * ty.size) m sendbuf) :
    ∃ M : Nat → Mem,
      (∀ r, r < P → UserKeeps k (· < count * ty.size) (m r) (M r)) ∧
      (∀ r, r < P → ∀ x, x < count → Reduces f
        (fun s => elt ty.size (ownBlock (m s) (sendbuf s) (.user k) 0 (count * ty.size)) x)
        (Finset.range P) (elt ty.size (M r (.user k)) x)) ∧
      (Commutes f → ∀ r, r < P → ∀ s, s < P → ∀ x, x < count →
        elt ty.size (M r (.user k)) x = elt ty.size (M s (.user k)) x) ∧
      Together P (fun r => mpiAllreduce c (rt r) P r (m r) (sendbuf r) (.user k) count)
        (fun r => .ret (M r)) := by
  have hload := fun r hr => copyIn_spec (h.room r hr) (h.send r hr)
  choose! m₁ hm₁ hk₁ hown using hload
  obtain ⟨M, hkeep, hred, hagree, hrun⟩ := allreduceBytes_together (m := m₁) rt hP hc
    fun r hr => by rw [(hk₁ r hr).len]; exact h.room r hr
  refine ⟨M, fun r hr => (hk₁ r hr).user.trans (hkeep r hr), fun r hr x hx => ?_, hagree,
    .trans (.of_eq fun r hr => ?_) hrun⟩
  · refine (hred r hr x hx).of_eqOn fun s hs => ?_
    rw [← hown s (Finset.mem_range.mp hs), elt_slice hx]
  · rw [mpiAllreduce, sized_of_redType hc.type, access_some, Prog.ret_bind, hm₁ r hr, access_some,
      Prog.ret_bind, if_neg (by omega)]

end

/-- **MPI_Allreduce.** Whatever the interleaving and whichever algorithm, all ranks
finish, nothing but the result changes and nothing stays in flight. On the integer
types each element is the reduction of the ranks' elements; for every operation that
commutes, a floating-point one too, all ranks have the same vector. -/
theorem mpiAllreduce_completes {P k count : Nat} {c : RedArgs} {ty : RedType} {o : RedOp}
    {f : Bytes → Bytes → Bytes} {m : Nat → Mem} {sendbuf : Nat → Arg} (rt : Nat → Runtime)
    (hP : 2 ≤ P) (hty : redType c.dt = some ty) (hop : redOp c.op = some o)
    (hf : combine c.fp ty o = some f) (h : AllreduceArgs P k (count * ty.size) m sendbuf) :
    ∃ M : Nat → Mem,
      Completes (world P (fun r => mpiAllreduce c (rt r) P r (m r) (sendbuf r) (.user k) count) m) M ∧
      (∀ r, r < P → UserKeeps k (· < count * ty.size) (m r) (M r)) ∧
      (ty.isInt = true ∨ Commutes f → ∀ r, r < P → ∀ s, s < P →
        slice (M r (.user k)) 0 (count * ty.size) = slice (M s (.user k)) 0 (count * ty.size)) ∧
      (ty.isInt = true → ∀ g, redInt (intArith (8 * ty.size) ty.signed) o = some g →
        ∀ r, r < P → ∀ x, x < count → elem ty.size (elt ty.size (M r (.user k)) x)
          = reduceAll g (fun s => elem ty.size (elt ty.size
            (ownBlock (m s) (sendbuf s) (.user k) 0 (count * ty.size)) x)) (P - 1)) := by
  obtain ⟨M, hkeep, hred, hagree, hrun⟩ := mpiAllreduce_together rt hP ⟨hty, o, hop, hf⟩ h
  have hlt : ∀ r, r < P → (if r < P then M r else m r) = M r := fun r hr => if_pos hr
  refine ⟨_, hrun.completes, fun r hr => ?_, fun hcomm r hr s hs => ?_, fun hint g hg r hr x hx => ?_⟩
  · simp only [hlt r hr]
    exact hkeep r hr
  · have hcomm' : Commutes f := hcomm.elim (fun hint => commutes_of_int hint hf) id
    simp only [hlt r hr, hlt s hs]
    exact slice_of_elt (hagree hcomm' r hr s hs)
  · have hall := hred r hr x hx
    rw [show P = P - 1 + 1 by omega] at hall
    simp only [hlt r hr]
    exact elem_of_reduces hint hf hg hall

theorem mpiAllreduce_completes_two_ranks :
    ∃ M : Nat → Mem,
      Completes (world 2 (fun r => mpiAllreduce ⟨⟨intArith _ true, intArith _ true⟩, 8, 1⟩
        ⟨false, fun c => Vector.replicate c 0⟩ 2 r (fun _ => [UInt8.ofNat r + 200, 100]) .inPlace
        (.user 0) 2) fun r _ => [UInt8.ofNat r + 200, 100]) M ∧
      elem 1 (elt 1 (M 0 (.user 0)) 0) = 145 := by
  obtain ⟨M, hM, -, -, hval⟩ := @mpiAllreduce_completes 2 0 2
    ⟨⟨intArith _ true, intArith _ true⟩, 8, 1⟩ .u8 .sum _ (fun r _ => [UInt8.ofNat r + 200, 100])
    (fun _ => .inPlace) (fun _ => ⟨false, fun c => Vector.replicate c 0⟩) (by decide) rfl rfl rfl
    ⟨fun _ _ => Nat.le_refl 2, fun _ _ _ h => by cases h⟩
  exact ⟨M, hM, hval rfl _ rfl 0 (by decide) 0 (by decide)⟩

end Pimid.Mpi
