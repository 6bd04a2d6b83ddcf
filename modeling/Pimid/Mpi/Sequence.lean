import Pimid.Mpi.Alltoall
import Pimid.Mpi.Bcast
import Pimid.Mpi.Gather
import Pimid.Mpi.Gatherv
import Pimid.Mpi.Reduce

/-!
# Collectives back to back

A receive matches on its source and on nothing else: no tag, no communicator and
no sequence number tells the messages of one call from those of the next. A rank
may be several calls ahead of another, with its messages already waiting.

That is harmless exactly because every call, run on its own, is matched: for every
pair of ranks as many messages are sent as receives are posted, in that order and
none too long. The lockstep schedule therefore runs one call after the other, and
since all interleavings end alike (`Reach.settles`), every rank gets from each call
what it would get if all ranks waited for one another before and after it.
-/

namespace Pimid.Mpi

open Pimid.Net

/-! ## Calls -/

/-- A collective call, with the arguments of every rank. An argument MPI lets the ranks
choose is a function of the rank; a result buffer goes by one name on all ranks. -/
inductive Call where
  | bcast (k : Nat) (count datatype : Nat → Nat) (root : Nat)
  | reduce (c : RedArgs) (sendbuf recvbuf : Nat → Arg) (k count root : Nat)
  | allreduce (c : RedArgs) (sendbuf : Nat → Arg) (k count : Nat)
  | allgather (sendbuf : Nat → Arg) (sendcount sendtype : Nat → Nat) (k : Nat)
      (recvcount recvtype : Nat → Nat)
  | allgatherv (sendbuf : Nat → Arg) (sendcount sendtype : Nat → Nat) (k : Nat)
      (recvcounts displs : Nat → Nat → Nat) (recvtype : Nat → Nat)
  | gather (sendbuf : Nat → Arg) (sendcount sendtype : Nat → Nat) (k recvcount recvtype root : Nat)
  | gatherv (sendbuf : Nat → Arg) (sendcount sendtype : Nat → Nat) (k : Nat)
      (recvcounts displs : Nat → Nat) (recvtype root : Nat)
  | scatter (k sendcount sendtype : Nat) (recvbuf : Nat → Arg) (recvcount recvtype : Nat → Nat)
      (root : Nat)
  | alltoall (ks : Nat) (sendcount sendtype : Nat → Nat) (kr : Nat) (recvcount recvtype : Nat → Nat)

namespace Call

/-- What rank `r` of `P` executes. -/
def run (rt : Runtime) (P r : Nat) (m : Mem) : Call → Rank Mem
  | bcast k count datatype root => mpiBcast P r m (.user k) (count r) (datatype r) root
  | reduce c sendbuf recvbuf _ count root => mpiReduce c rt P r m (sendbuf r) (recvbuf r) count root
  | allreduce c sendbuf k count => mpiAllreduce c rt P r m (sendbuf r) (.user k) count
  | allgather sendbuf sendcount sendtype k recvcount recvtype =>
    mpiAllgather rt P r m (sendbuf r) (sendcount r) (sendtype r) (.user k) (recvcount r) (recvtype r)
  | allgatherv sendbuf sendcount sendtype k recvcounts displs recvtype =>
    mpiAllgatherv rt P r m (sendbuf r) (sendcount r) (sendtype r) (.user k) (recvcounts r) (displs r)
      (recvtype r)
  | gather sendbuf sendcount sendtype k recvcount recvtype root =>
    mpiGather rt P r m (sendbuf r) (sendcount r) (sendtype r) (.user k) recvcount recvtype root
  | gatherv sendbuf sendcount sendtype k recvcounts displs recvtype root =>
    mpiGatherv P r m (sendbuf r) (sendcount r) (sendtype r) (.user k) recvcounts displs recvtype root
  | scatter k sendcount sendtype recvbuf recvcount recvtype root =>
    mpiScatter rt P r m (.user k) sendcount sendtype (recvbuf r) (recvcount r) (recvtype r) root
  | alltoall ks sendcount sendtype kr recvcount recvtype =>
    mpiAlltoall rt P r m (.user ks) (sendcount r) (sendtype r) (.user kr) (recvcount r) (recvtype r)

/-- The arguments are consistent across the ranks: the root is a rank, the ranks mean
the same numbers of bytes, and the buffers they pass have room for them. -/
def Ok (P : Nat) (m : Nat → Mem) : Call → Prop
  | bcast k count datatype root => root < P ∧ ∃ n,
      (∀ r, r < P → bytesOf (count r) (datatype r) = some n) ∧ ∀ r, r < P → n ≤ (m r (.user k)).length
  | reduce c sendbuf recvbuf k count root => root < P ∧ ∃ ty f, RedOk c ty f ∧
      ReduceArgs P k (count * ty.size) root m sendbuf recvbuf
  | allreduce c sendbuf k count => ∃ ty f, RedOk c ty f ∧
      AllreduceArgs P k (count * ty.size) m sendbuf
  | allgather sendbuf sendcount sendtype k recvcount recvtype => ∃ (n : Nat) (sext ext : Nat → Nat),
      (∀ r, r < P → Sized (recvtype r) (ext r) ∧ recvcount r * ext r = n) ∧
      (∀ r, r < P → sendbuf r ≠ .inPlace → Sized (sendtype r) (sext r)) ∧
      AllgatherArgs P k (fun _ => n) (fun j => j * n) m sendbuf
        fun r => sendBytesOf (sendbuf r) (sendcount r) (sext r)
  | allgatherv sendbuf sendcount sendtype k recvcounts displs recvtype =>
      ∃ cnt dsp sext ext : Nat → Nat,
      (∀ r, r < P → Sized (recvtype r) (ext r) ∧ (∀ j, recvcounts r j * ext r = cnt j) ∧
        ∀ j, displs r j * ext r = dsp j) ∧
      (∀ r, r < P → sendbuf r ≠ .inPlace → Sized (sendtype r) (sext r)) ∧
      AllgatherArgs P k cnt dsp m sendbuf fun r => sendBytesOf (sendbuf r) (sendcount r) (sext r)
  | gather sendbuf sendcount sendtype k recvcount recvtype root => root < P ∧ ∃ blk,
      bytesOf recvcount recvtype = some blk ∧
      (∀ r, r < P → r ≠ root → bytesOf (sendcount r) (sendtype r) = some blk) ∧
      GatherArgs P k blk root m sendbuf
  | gatherv sendbuf sendcount sendtype k recvcounts displs recvtype root => root < P ∧ ∃ ext,
      Sized recvtype ext ∧
      (∀ r, r < P → sendbuf r ≠ .inPlace →
        bytesOf (sendcount r) (sendtype r) = some (recvcounts r * ext)) ∧
      GathervArgs P k root (fun j => recvcounts j * ext) (fun j => displs j * ext) m sendbuf
  | scatter k sendcount sendtype recvbuf recvcount recvtype root => root < P ∧ ∃ blk,
      bytesOf sendcount sendtype = some blk ∧
      (∀ r, r < P → r ≠ root → bytesOf (recvcount r) (recvtype r) = some blk) ∧
      ScatterArgs P k blk root m recvbuf
  | alltoall ks sendcount sendtype kr recvcount recvtype => ∃ b,
      (∀ r, r < P → bytesOf (sendcount r) (sendtype r) = some b) ∧
      (∀ r, r < P → bytesOf (recvcount r) (recvtype r) = some b) ∧ AlltoallArgs P ks kr b m

/-! ## One call -/

section

variable {P : Nat} {m : Nat → Mem}

theorem reduce_alone {c : RedArgs} {ty : RedType} {f : Bytes → Bytes → Bytes} {k count root : Nat}
    {sendbuf recvbuf : Nat → Arg} (rt : Nat → Runtime) (hP : P ≤ 1) (hroot : root < P)
    (hc : RedOk c ty f) (h : ReduceArgs P k (count * ty.size) root m sendbuf recvbuf) :
    ∃ M : Nat → Mem, Together P
      (fun r => mpiReduce c (rt r) P r (m r) (sendbuf r) (recvbuf r) count root)
      (fun r => .ret (M r)) := by
  obtain rfl : P = 1 := by omega
  obtain rfl : root = 0 := by omega
  have hroom : Fits (m 0 (.user k)) 0 (count * ty.size) := .of_le (by have := h.room; omega)
  rcases h.inPlace with hin | ⟨j, hj, hf⟩
  · refine ⟨m, .of_eq fun r hr => ?_⟩
    obtain rfl : r = 0 := by omega
    rw [mpiReduce, sized_of_redType hc.type, access_some, Prog.ret_bind, hin, h.recv, if_pos hP]
  · refine ⟨fun r => (m r).put (.user k) 0 (slice (m r (.user j)) 0 (count * ty.size)),
      .of_eq fun r hr => ?_⟩
    obtain rfl : r = 0 := by omega
    rw [mpiReduce, sized_of_redType hc.type, access_some, Prog.ret_bind, hj, h.recv, if_pos hP]
    simp only [Mem.copy_eq hf hroom, access_some]

theorem allreduce_alone {c : RedArgs} {ty : RedType} {f : Bytes → Bytes → Bytes} {k count : Nat}
    {sendbuf : Nat → Arg} (rt : Nat → Runtime) (hP : P ≤ 1) (hc : RedOk c ty f)
    (h : AllreduceArgs P k (count * ty.size) m sendbuf) :
    ∃ M : Nat → Mem, Together P
      (fun r => mpiAllreduce c (rt r) P r (m r) (sendbuf r) (.user k) count)
      (fun r => .ret (M r)) := by
  have hload := fun r hr => copyIn_spec (h.room r hr) (h.send r hr)
  choose! M hM _ _ using hload
  refine ⟨M, .of_eq fun r hr => ?_⟩
  rw [mpiAllreduce, sized_of_redType hc.type, access_some, Prog.ret_bind, hM r hr, access_some,
    Prog.ret_bind, if_pos hP]

/-- **One call.** Ranks whose arguments are consistent get through it, with every
message matched by a receive of that call. -/
theorem together (rt : Nat → Runtime) (c : Call) (h : c.Ok P m) :
    ∃ M : Nat → Mem, Together P (fun r => c.run (rt r) P r (m r)) (fun r => .ret (M r)) := by
  rcases Nat.eq_zero_or_pos P with rfl | hpos
  · exact ⟨m, .of_eq fun r hr => absurd hr (Nat.not_lt_zero r)⟩
  cases c with
  | bcast k count datatype root =>
    obtain ⟨hroot, n, hdt, hn⟩ := h
    rcases Nat.lt_or_ge P 2 with hone | htwo
    · refine ⟨m, .of_eq fun r hr => ?_⟩
      rw [run, mpiBcast, if_pos (by omega)]
    · exact ⟨_, mpiBcast_together htwo hroot hdt hn⟩
  | reduce c sendbuf recvbuf k count root =>
    obtain ⟨hroot, ty, f, hc, hargs⟩ := h
    rcases Nat.lt_or_ge P 2 with hone | htwo
    · exact reduce_alone rt (by omega) hroot hc hargs
    · obtain ⟨M, -, -, -, hrun⟩ := mpiReduce_together rt htwo hroot hc hargs
      exact ⟨M, hrun⟩
  | allreduce c sendbuf k count =>
    obtain ⟨ty, f, hc, hargs⟩ := h
    rcases Nat.lt_or_ge P 2 with hone | htwo
    · exact allreduce_alone rt (by omega) hc hargs
    · obtain ⟨M, -, -, -, hrun⟩ := mpiAllreduce_together rt htwo hc hargs
      exact ⟨M, hrun⟩
  | allgather sendbuf sendcount sendtype k recvcount recvtype =>
    obtain ⟨n, sext, ext, hrt, hst, hargs⟩ := h
    obtain ⟨M, -, hrun⟩ := allgathervBytes_together rt hpos hargs
    refine ⟨M, .trans (.of_eq fun r hr => ?_) hrun⟩
    obtain ⟨hext, hn⟩ := hrt r hr
    rw [run, mpiAllgather_eq, mpiAllgatherv_eq hext (hst r hr)]
    simp only [Nat.mul_assoc, hn]
  | allgatherv sendbuf sendcount sendtype k recvcounts displs recvtype =>
    obtain ⟨cnt, dsp, sext, ext, hrt, hst, hargs⟩ := h
    obtain ⟨M, -, hrun⟩ := allgathervBytes_together rt hpos hargs
    refine ⟨M, .trans (.of_eq fun r hr => ?_) hrun⟩
    obtain ⟨hext, hcnt, hdsp⟩ := hrt r hr
    rw [run, mpiAllgatherv_eq hext (hst r hr)]
    simp only [hcnt, hdsp]
  | gather sendbuf sendcount sendtype k recvcount recvtype root =>
    obtain ⟨hroot, blk, hrecv, hsend, hargs⟩ := h
    obtain ⟨M, -, hrun⟩ := mpiGather_together rt hroot hrecv hsend hargs
    exact ⟨M, hrun⟩
  | gatherv sendbuf sendcount sendtype k recvcounts displs recvtype root =>
    obtain ⟨hroot, ext, hrt, hst, hargs⟩ := h
    obtain ⟨M, -, hrun⟩ := mpiGatherv_together hroot hrt hst hargs
    exact ⟨_, hrun⟩
  | scatter k sendcount sendtype recvbuf recvcount recvtype root =>
    obtain ⟨hroot, blk, hsend, hrecv, hargs⟩ := h
    obtain ⟨M, -, hrun⟩ := mpiScatter_together rt hroot hsend hrecv hargs
    exact ⟨M, hrun⟩
  | alltoall ks sendcount sendtype kr recvcount recvtype =>
    obtain ⟨b, hs, hr, hargs⟩ := h
    obtain ⟨M, -, hrun⟩ := mpiAlltoall_together rt hpos hs hr hargs
    exact ⟨M, hrun⟩

end

end Call

/-! ## A program of calls -/

/-- What the ranks do next: each computes on its own memory, then all make one call.
The computation may also bring a buffer under the name the call uses for it. -/
structure Stage where
  work : Nat → Mem → Mem
  rt : Nat → Runtime
  call : Call

/-- The part of rank `r` in one stage. -/
def Stage.run (s : Stage) (P r : Nat) (m : Mem) : Rank Mem := s.call.run (s.rt r) P r (s.work r m)

/-- Rank `r`'s program: the stages from the `i`-th on. What each call returned is
logged. -/
def runStages (P r : Nat) : Nat → List Stage → Mem → Rank Mem
  | _, [], m => .ret m
  | i, s :: rest, m => do
    let m ← s.run P r m
    .emit (.returned i m) (runStages P r (i + 1) rest m)

/-- **One stage between barriers.** From memories `m` with nothing in flight, the stage
always ends with logs `L` and memories `M`, and nothing in flight. -/
def Alone (P : Nat) (s : Stage) (m : Nat → Mem) (L : Nat → List Event) (M : Nat → Mem) : Prop :=
  Settles (quiet (world P (fun r => s.run P r (m r)) m) fun _ => []) (quiet (fun r => .ret (M r)) L)

/-- All stages, with the ranks waiting for one another in between; each record is the
logs and the memories of one stage. -/
inductive Synchronised (P : Nat) :
    List Stage → (Nat → Mem) → List ((Nat → List Event) × (Nat → Mem)) → Prop where
  | nil (m) : Synchronised P [] m []
  | cons {s rest m L M recs} (head : Alone P s m L M) (tail : Synchronised P rest M recs) :
      Synchronised P (s :: rest) m ((L, M) :: recs)

/-- Every call of the synchronised run finds its arguments in order. -/
def Consistent (P : Nat) : List Stage → (Nat → Mem) → Prop
  | [], _ => True
  | s :: rest, m => s.call.Ok P (fun r => s.work r (m r)) ∧ ∀ L M, Alone P s m L M → Consistent P rest M

/-- The logs of the stages from the `i`-th on, one after another. -/
def logs (r : Nat) : Nat → List ((Nat → List Event) × (Nat → Mem)) → List Event
  | _, [] => []
  | i, (L, M) :: recs => L r ++ .returned i (M r) :: logs r (i + 1) recs

/-- The memories after the last stage. -/
def lastMem (m : Nat → Mem) : List ((Nat → List Event) × (Nat → Mem)) → Nat → Mem
  | [] => m
  | (_, M) :: recs => lastMem M recs

section

variable {P : Nat} {m : Nat → Mem}

theorem Stage.reach (s : Stage) (h : s.call.Ok P fun r => s.work r (m r)) :
    ∃ (L : Nat → List Event) (M : Nat → Mem), Matched L ∧
      Reach (world P (fun r => s.run P r (m r)) m) (fun r => .ret (M r)) L := by
  obtain ⟨M, hrun⟩ := s.call.together s.rt h
  obtain ⟨L, hL, hmatched⟩ := hrun m
  refine ⟨L, fun r => if r < P then M r else m r, hmatched, ?_⟩
  have hend : (world P (fun r => .ret (M r)) m) = fun r => .ret (if r < P then M r else m r) := by
    funext r
    by_cases hr : r < P
    · rw [world_lt hr, if_pos hr]
    · rw [world_ge hr, if_neg hr]
  rw [hend] at hL
  exact hL

/-- The ranks log what a stage returned and go on with the next. -/
theorem reach_returned (i : Nat) (rest : List Stage) (M : Nat → Mem) :
    Reach (fun r => if r < P then .emit (.returned i (M r)) (runStages P r (i + 1) rest (M r))
        else .ret (M r))
      (world P (fun r => runStages P r (i + 1) rest (M r)) M)
      (fun r => if r < P then [.returned i (M r)] else []) := by
  have h := Reach.emits (List.nodup_range (n := P))
    (fun r => if r < P then [Event.returned i (M r)] else [])
    (fun r hr => if_neg fun h => hr (List.mem_range.mpr h))
    (world P (fun r => runStages P r (i + 1) rest (M r)) M)
  have hstart : (fun r => Prog.emits (if r < P then [Event.returned i (M r)] else [])
      (world P (fun r => runStages P r (i + 1) rest (M r)) M r))
      = fun r => if r < P then .emit (.returned i (M r)) (runStages P r (i + 1) rest (M r))
        else .ret (M r) := by
    funext r
    by_cases hr : r < P
    · rw [world_lt hr, if_pos hr, if_pos hr]
      rfl
    · rw [world_ge hr, if_neg hr, if_neg hr]
      rfl
  rw [hstart] at h
  exact h

theorem runStages_reach {stages : List Stage} (i : Nat) (h : Consistent P stages m) :
    ∃ recs lg, Synchronised P stages m recs ∧ (∀ x ∈ recs, Matched x.1) ∧
      (∀ r, r < P → lg r = logs r i recs) ∧
      Reach (world P (fun r => runStages P r i stages (m r)) m) (fun r => .ret (lastMem m recs r)) lg := by
  induction stages generalizing i m with
  | nil =>
    refine ⟨[], fun _ => [], .nil m, by simp, fun _ _ => rfl, ?_⟩
    have hend : (world P (fun r => runStages P r i [] (m r)) m) = fun r => .ret (m r) := by
      funext r
      unfold world
      split
      · rfl
      · rfl
    rw [hend]
    exact .refl _
  | cons s rest ih =>
    obtain ⟨L, M, hmatched, hL⟩ := s.reach h.1
    have halone : Alone P s m L M := hL.settles
    obtain ⟨recs, lg, hsync, hall, hlg, hrest⟩ := ih (i + 1) (h.2 L M halone)
    refine ⟨(L, M) :: recs, fun r => L r ++ (if r < P then [.returned i (M r)] else []) ++ lg r,
      .cons halone hsync, ?_, fun r hr => ?_, ?_⟩
    · intro x hx
      rcases List.mem_cons.mp hx with rfl | hx
      · exact hmatched
      · exact hall x hx
    · simp only [logs, if_pos hr, hlg r hr, List.append_assoc, List.singleton_append]
    · have hcall := hL.bind fun r m => if r < P then
        .emit (.returned i m) (runStages P r (i + 1) rest m) else .ret m
      have hstart : (fun r => world P (fun r => s.run P r (m r)) m r >>= fun m => if r < P then
          .emit (.returned i m) (runStages P r (i + 1) rest m) else .ret m)
          = world P (fun r => runStages P r i (s :: rest) (m r)) m := by
        funext r
        by_cases hr : r < P
        · rw [world_lt hr, world_lt hr, runStages]
          simp only [if_pos hr]
        · rw [world_ge hr, world_ge hr, Prog.ret_bind, if_neg hr]
      rw [hstart] at hcall
      exact (hcall.trans (reach_returned i rest M)).trans hrest

end

/-- **Collectives back to back.** `P` ranks run any sequence of collective calls, with no
barrier in between and whatever the skew. For every call and every pair of ranks the
messages sent and the receives posted in that call match one to one, none too long; and
every rank returns from every call with what it gets when all ranks are synchronised
before and after each call. Nothing stays in flight. -/
theorem runStages_synchronised {P : Nat} {stages : List Stage} {m : Nat → Mem}
    (h : Consistent P stages m) :
    ∃ recs lg, Synchronised P stages m recs ∧ (∀ x ∈ recs, Matched x.1) ∧
      (∀ r, r < P → lg r = logs r 0 recs) ∧
      Settles (quiet (world P (fun r => runStages P r 0 stages (m r)) m) fun _ => [])
        (quiet (fun r => .ret (lastMem m recs r)) lg) := by
  obtain ⟨recs, lg, hsync, hall, hlg, hrun⟩ := runStages_reach 0 h
  exact ⟨recs, lg, hsync, hall, hlg, hrun.settles⟩

theorem runStages_synchronised_two_ranks :
    ∃ recs lg, Synchronised 2
        [⟨fun _ m => m, fun _ => ⟨false, fun c => Vector.replicate c 0⟩, .bcast 0 (fun _ => 1) (fun _ => 8) 1⟩,
          ⟨fun _ m b => (m b).takeD 2 0, fun _ => ⟨false, fun c => Vector.replicate c 0⟩,
            .gatherv (fun _ => .buf (.user 0)) (fun _ => 1) (fun _ => 8) 1 (fun _ => 1) (fun j => j) 8 0⟩]
        (fun r _ => [UInt8.ofNat r]) recs ∧
      (∀ x ∈ recs, Matched x.1) ∧ (∀ r, r < 2 → lg r = logs r 0 recs) ∧
      Settles (quiet (world 2 (fun r => runStages 2 r 0
        [⟨fun _ m => m, fun _ => ⟨false, fun c => Vector.replicate c 0⟩, .bcast 0 (fun _ => 1) (fun _ => 8) 1⟩,
          ⟨fun _ m b => (m b).takeD 2 0, fun _ => ⟨false, fun c => Vector.replicate c 0⟩,
            .gatherv (fun _ => .buf (.user 0)) (fun _ => 1) (fun _ => 8) 1 (fun _ => 1) (fun j => j) 8 0⟩]
        fun _ => [UInt8.ofNat r]) fun r _ => [UInt8.ofNat r]) fun _ => [])
        (quiet (fun r => .ret (lastMem (fun r _ => [UInt8.ofNat r]) recs r)) lg) :=
  runStages_synchronised ⟨⟨by decide, 1, fun _ _ => rfl, fun _ _ => Nat.le_refl 1⟩, fun _ _ _ =>
    ⟨⟨by decide, 1, rfl, fun _ _ _ => rfl,
      fun i j _ _ _ => by unfold Apart; dsimp only; omega,
      fun j hj => .of_le (by rw [List.takeD_length]; dsimp only; omega),
      fun _ _ => .inr ⟨.user 0, rfl, .of_le (by rw [List.takeD_length]; dsimp only; omega), fun _ => by decide⟩⟩,
      fun _ _ _ => trivial⟩⟩

end Pimid.Mpi
