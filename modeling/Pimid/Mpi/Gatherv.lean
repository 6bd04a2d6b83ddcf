import Pimid.Mpi.Allgather

/-!
# MPI_Gatherv

Every other rank sends its block to the root, which receives them in rank order and
copies its own in between. The blocks come in any skew; that rank `i`'s block is the
one the root's `i`-th receive takes is what matching on the source gives.
-/

namespace Pimid.Mpi

open Pimid.Net

/-! ## The code -/

/-- The root's receives of `MPI_Gatherv`, from rank `i` on. -/
def gathervFrom (P : Nat) (sendbuf : Arg) (sbytes : Nat) (rbuf : BufId) (recvcounts displs : Nat → Nat)
    (rtsz root i : Nat) (m : Mem) : Rank Mem :=
  if i < P then
    if i = root then do
      let m ← match sendbuf with
        | .buf b => access (m.copy rbuf (displs i * rtsz) b 0 sbytes)
        | _ => .ret m
      gathervFrom P sendbuf sbytes rbuf recvcounts displs rtsz root (i + 1) m
    else do
      let (_, m) ← recvBytes P m rbuf (displs i * rtsz) (recvcounts i * rtsz) i
      gathervFrom P sendbuf sbytes rbuf recvcounts displs rtsz root (i + 1) m
  else .ret m
termination_by P - i

/-- Linear: every other rank sends to the root, which receives in rank order. -/
def mpiGatherv (P rank : Nat) (m : Mem) (sendbuf : Arg) (sendcount sendtype : Nat)
    (rbuf : BufId) (recvcounts displs : Nat → Nat) (recvtype root : Nat) : Rank Mem := do
  let rtsz ← access (dtypeSize recvtype)
  if rank ≠ root then do
    let sbytes ← access (bytesOf sendcount sendtype)
    match sendbuf with
    | .buf b => do
      sendBytes P m b 0 sbytes root 0
      .ret m
    | _ =>
      if sbytes = 0 then do
        sendBytes P m rbuf 0 0 root 0
        .ret m
      else .fail
  else do
    let sbytes ← match sendbuf with
      | .buf _ => access (bytesOf sendcount sendtype)
      | _ => .ret 0
    gathervFrom P sendbuf sbytes rbuf recvcounts displs rtsz root 0 m

/-! ## The loop of the root -/

/-- The arguments of a gatherv: room at the root for every block, blocks apart, and a
block to send on every rank, which the root may have in place. -/
structure GathervArgs (P k root : Nat) (cnt dsp : Nat → Nat) (m : Nat → Mem) (sendbuf : Nat → Arg) :
    Prop where
  separate : Separate P cnt dsp
  room : ∀ j, j < P → Fits (m root (.user k)) (dsp j) (cnt j)
  send : ∀ r, r < P → r = root ∧ sendbuf r = .inPlace ∨
    ∃ b, sendbuf r = .buf b ∧ Fits (m r b) 0 (cnt r) ∧ (r = root → b ≠ .user k)

section

variable {P k root : Nat} {cnt dsp : Nat → Nat} {m : Nat → Mem} {sendbuf : Nat → Arg}

/-- The root when the blocks of the ranks below `i` are in place. -/
structure GathervHolds (k root : Nat) (cnt dsp : Nat → Nat) (m : Nat → Mem) (sendbuf : Nat → Arg)
    (i : Nat) (M : Mem) : Prop where
  keeps : Keeps (.user k) (InBlocks i cnt dsp) (m root) M
  blocks : ∀ j, j < i → slice (M (.user k)) (dsp j) (cnt j)
    = ownBlock (m j) (sendbuf j) (.user k) (dsp j) (cnt j)

theorem GathervHolds.put (h : GathervArgs P k root cnt dsp m sendbuf) {i : Nat} (hi : i < P) {M : Mem}
    (hM : GathervHolds k root cnt dsp m sendbuf i M) {l : Bytes} (hl : Fits l 0 (cnt i))
    (hblock : slice l 0 (cnt i) = ownBlock (m i) (sendbuf i) (.user k) (dsp i) (cnt i)) :
    GathervHolds k root cnt dsp m sendbuf (i + 1) (M.put (.user k) (dsp i) (slice l 0 (cnt i))) := by
  have hlen := length_slice hl
  have hfit : Fits (M (.user k)) (dsp i) (slice l 0 (cnt i)).length := by
    rw [hlen]
    exact hM.keeps.fits (h.room i hi)
  refine ⟨(hM.keeps.mono ?_).trans (Keeps.put hfit fun x hlo hhi => ?_), fun j hj => ?_⟩
  · rintro x ⟨j, hj, hx⟩
    exact ⟨j, by omega, hx⟩
  · rw [hlen] at hhi
    exact ⟨i, by omega, hlo, hhi⟩
  · rcases Nat.lt_or_ge j i with hlt | hge
    · rw [Mem.put_self, slice_splice_disjoint hfit, hM.blocks j hlt]
      rw [hlen]
      exact h.separate j i (by omega) hi (by omega)
    · obtain rfl : j = i := by omega
      rw [← hblock]
      have := slice_put_self hfit
      rwa [hlen] at this

theorem GathervHolds.inPlace (h : GathervArgs P k root cnt dsp m sendbuf) (hroot : root < P) {M : Mem}
    (hM : GathervHolds k root cnt dsp m sendbuf root M) (hin : sendbuf root = .inPlace) :
    GathervHolds k root cnt dsp m sendbuf (root + 1) M := by
  refine ⟨hM.keeps.mono ?_, fun j hj => ?_⟩
  · rintro x ⟨j, hj, hx⟩
    exact ⟨j, by omega, hx⟩
  · rcases Nat.lt_or_ge j root with hlt | hge
    · exact hM.blocks j hlt
    · obtain rfl : j = root := by omega
      rw [hin]
      refine hM.keeps.slice_eq fun x hlo hhi ⟨i, hi, hx⟩ => ?_
      have := h.separate i j (by omega) hroot (by omega)
      unfold Apart at this
      omega

/-- Before the root's `i`-th turn: the ranks below `i` are done. -/
def gathervAt (P k root : Nat) (recvcounts displs : Nat → Nat) (rtsz : Nat) (m : Nat → Mem)
    (sendbuf : Nat → Arg) (i : Nat) (M : Mem) (r : Nat) : Rank Mem :=
  if r = root then
    gathervFrom P (sendbuf root) (recvcounts root * rtsz) (.user k) recvcounts displs rtsz root i M
  else if i ≤ r then
    match sendbuf r with
    | .buf b => sendBytes P (m r) b 0 (recvcounts r * rtsz) root 0 >>= fun _ => .ret (m r)
    | _ => .fail
  else .ret (m r)

theorem gathervAt_step {recvcounts displs : Nat → Nat} {rtsz : Nat} (hroot : root < P)
    (h : GathervArgs P k root (fun j => recvcounts j * rtsz) (fun j => displs j * rtsz) m sendbuf)
    {i : Nat} (hi : i < P) {M : Mem}
    (hM : GathervHolds k root (fun j => recvcounts j * rtsz) (fun j => displs j * rtsz) m sendbuf i M) :
    ∃ M', GathervHolds k root (fun j => recvcounts j * rtsz) (fun j => displs j * rtsz) m sendbuf (i + 1)
        M' ∧
      Together P (gathervAt P k root recvcounts displs rtsz m sendbuf i M)
        (gathervAt P k root recvcounts displs rtsz m sendbuf (i + 1) M') := by
  by_cases hir : i = root
  · subst hir
    -- the root's own block: no message
    have hothers : ∀ M' r, r ≠ i → gathervAt P k i recvcounts displs rtsz m sendbuf i M r
        = gathervAt P k i recvcounts displs rtsz m sendbuf (i + 1) M' r := fun M' r hr => by
      unfold gathervAt
      rw [if_neg hr, if_neg hr]
      by_cases hle : i ≤ r
      · rw [if_pos hle, if_pos (by omega)]
      · rw [if_neg hle, if_neg (by omega)]
    rcases h.send i hi with ⟨-, hin⟩ | ⟨b, hb, hf, hne⟩
    · refine ⟨M, hM.inPlace h hroot hin, .of_eq fun r hr => ?_⟩
      by_cases hrr : r = i
      · subst hrr
        simp only [gathervAt, if_true, hin]
        rw [gathervFrom, if_pos hi, if_pos rfl]
        rfl
      · exact hothers M r hrr
    · have hother := hM.keeps.other b (hne rfl)
      have hf' : Fits (M b) 0 (recvcounts i * rtsz) := by rw [hother]; exact hf
      refine ⟨_, hM.put h hi hf' (by rw [hother, hb]; rfl), .of_eq fun r hr => ?_⟩
      by_cases hrr : r = i
      · subst hrr
        simp only [gathervAt, if_true, hb]
        rw [gathervFrom, if_pos hi, if_pos rfl]
        simp only [Mem.copy_eq hf' (hM.keeps.fits (h.room r hi)), access_some, Prog.ret_bind]
      · exact hothers _ r hrr
  · obtain ⟨b, hb, hf, -⟩ := (h.send i hi).resolve_left fun h => hir h.1
    refine ⟨_, hM.put h hi hf (by rw [hb]; rfl), ?_⟩
    refine Together.deliver (m := fun r => if r = root then M else m r) (fun r => r = i)
      (fun r => r = root) (by omega) (fun _ => ⟨root, b, 0, recvcounts i * rtsz⟩)
      (fun _ => ⟨i, .user k, displs i * rtsz, recvcounts i * rtsz⟩)
      (fun _ x => gathervFrom P (sendbuf root) (recvcounts root * rtsz) (.user k) recvcounts displs rtsz
        root (i + 1) x.2) ?_ ?_ ?_ ?_ ?_ ?_ ?_ ?_ ?_ ?_
    · rintro r hr rfl
      exact ⟨hroot, rfl, rfl⟩
    · rintro r hr rfl
      exact ⟨hi, rfl, rfl⟩
    · rintro r hr rfl
      exact hir
    · rintro r hr rfl
      simp only [if_neg hir]
      exact hf
    · rintro r hr rfl
      simp only [if_true]
      exact hM.keeps.fits (h.room i hi)
    · exact fun _ _ _ => Nat.le_refl _
    · rintro r hr rfl
      simp only [gathervAt, if_neg hir, Nat.le_refl, if_true, hb, if_neg (show ¬ r + 1 ≤ r by omega)]
    · rintro r hr rfl
      simp only [gathervAt, if_true]
      rw [gathervFrom, if_pos hi, if_neg hir]
    · rintro r hr rfl
      simp only [gathervAt, if_true, Tx.data, if_neg hir]
    · intro r hr h₁ h₂
      unfold gathervAt
      rw [if_neg h₂, if_neg h₂]
      by_cases hle : i ≤ r
      · rw [if_pos hle, if_pos (by omega)]
      · rw [if_neg hle, if_neg (by omega)]

/-! ## The call -/

/-- In place, the size of the send block is not looked at. -/
theorem gathervFrom_inPlace {P : Nat} {n n' : Nat} {rbuf : BufId} {recvcounts displs : Nat → Nat}
    {rtsz root i : Nat} (m : Mem) :
    gathervFrom P .inPlace n rbuf recvcounts displs rtsz root i m
      = gathervFrom P .inPlace n' rbuf recvcounts displs rtsz root i m := by
  induction hd : P - i generalizing i m with
  | zero =>
    rw [gathervFrom, if_neg (by omega)]
    conv_rhs => rw [gathervFrom, if_neg (by omega)]
  | succ d ih =>
    rw [gathervFrom, if_pos (by omega)]
    conv_rhs => rw [gathervFrom, if_pos (by omega)]
    by_cases hir : i = root
    · rw [if_pos hir, if_pos hir]
      exact ih m (by omega)
    · rw [if_neg hir, if_neg hir]
      congr 1
      funext x
      exact ih x.2 (by omega)

/-- **MPI_Gatherv.** The root ends with every rank's block in its place, and nothing else
changes. -/
theorem mpiGatherv_together {recvcounts displs sendcount sendtype : Nat → Nat} {recvtype ext : Nat}
    (hroot : root < P) (hrt : Sized recvtype ext)
    (hst : ∀ r, r < P → sendbuf r ≠ .inPlace →
      bytesOf (sendcount r) (sendtype r) = some (recvcounts r * ext))
    (h : GathervArgs P k root (fun j => recvcounts j * ext) (fun j => displs j * ext) m sendbuf) :
    ∃ M : Mem, GathervHolds k root (fun j => recvcounts j * ext) (fun j => displs j * ext) m sendbuf P M ∧
      Together P (fun r => mpiGatherv P r (m r) (sendbuf r) (sendcount r) (sendtype r) (.user k) recvcounts
        displs recvtype root) (fun r => .ret (if r = root then M else m r)) := by
  obtain ⟨M, hM, hrun⟩ := Together.ascend (P := P) (n := P)
    (gathervAt P k root recvcounts displs ext m sendbuf)
    (GathervHolds k root (fun j => recvcounts j * ext) (fun j => displs j * ext) m sendbuf)
    (fun i M hi hM => gathervAt_step hroot h hi hM)
    (s := m root) ⟨.refl .., fun j hj => absurd hj (Nat.not_lt_zero j)⟩
  refine ⟨M, hM, .trans (.of_eq fun r hr => ?_) (hrun.trans (.of_eq fun r hr => ?_))⟩
  · rw [mpiGatherv, hrt, access_some, Prog.ret_bind, gathervAt]
    by_cases hrr : r = root
    · subst hrr
      rw [if_neg (not_not_intro rfl), if_pos rfl]
      rcases h.send r hr with ⟨-, hin⟩ | ⟨b, hb, -⟩
      · -- in place, the size is never used
        simp only [hin, Prog.ret_bind]
        exact gathervFrom_inPlace ..
      · rw [hst r hr (by rw [hb]; simp), hb, access_some]
        simp only [Prog.ret_bind]
    · obtain ⟨b, hb, -⟩ := (h.send r hr).resolve_left fun h => hrr h.1
      rw [if_pos hrr, if_neg hrr, if_pos (Nat.zero_le r), hst r hr (by rw [hb]; simp), hb, access_some,
        Prog.ret_bind]
  · rw [gathervAt]
    split
    · rw [gathervFrom, if_neg (Nat.lt_irrefl P)]
    · rw [if_neg (by omega)]

end

end Pimid.Mpi
