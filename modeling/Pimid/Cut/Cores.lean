import Pimid.Cut.Wake

/-!
# The wake bounds over any numbering of the cores

What `cutWakeBound` reads when no entry is stale and no core is lifted, with the cores apart
from the ranks: a rank's thread runs on a core, or waits on one, and the loop over the cores
takes them in the order of their numbers. Beside the bounds as the code computes them stand
the equations of its comment.
-/

namespace Pimid.Cut

/-- Core states 0 and 1, 4, and the others. -/
inductive CoreState where
  | active
  | waiting
  | gone
deriving DecidableEq, Repr

/-- What a waiting core's thread waits for: a receive from one source or from any, or the barrier `k` of `g_rankBarGen`. -/
inductive WaitsFor (N : Nat) where
  | recv (src : Option (Fin N))
  | barrier (k : Nat)
deriving DecidableEq, Repr

structure Cores (n N : Nat) where
  st : Fin n → CoreState
  -- a core's clock on the rendezvous axis, and what takes its record axis there
  rr : Fin n → Nat
  dl : Fin n → Int
  -- the rank of the core's thread and what it waits for
  info : Fin n → Option (Fin N × WaitsFor N)
  -- the rank has its thread in `g_cutWakeRankTid`
  rankKnown : Fin N → Bool
  coreOfRank : Fin N → Option (Fin n)
  rankBarGen : Fin N → Nat
  cutWakeGen : Nat
  cutWakeMsgs : Fin N → Fin N → List Entry
  cutWakeBars : Nat → Option Bar

namespace Cores

variable {n N : Nat}

/-- A rank without a core is bounded by 0. -/
def lrank (s : Cores n N) (L : Fin n → WithTop Nat) (r : Fin N) : WithTop Nat :=
  match s.coreOfRank r with
  | some c => L c
  | none => 0

/-- The oldest message posted, `⊤` with none. -/
def front (s : Cores n N) (src dst : Fin N) : WithTop Nat :=
  match s.cutWakeMsgs src dst with
  | [] => ⊤
  | e :: _ => e.t

def recvCand (s : Cores n N) (L : Fin n → WithTop Nat) (me : Fin N) : Option (Fin N) → WithTop Nat
  | some src =>
    match s.cutWakeMsgs src me with
    | [] => s.lrank L src
    | e :: _ => e.t
  | none => least (s.lrank L) (State.others me) (least (fun r => s.front r me) (List.finRange N) ⊤)

/-- The latest arrival at barrier `k` so far. -/
def sofar (s : Cores n N) (k : Nat) : Nat :=
  match s.cutWakeBars k with
  | some b => if b.gen = s.cutWakeGen then b.maxArr else 0
  | none => 0

def released (s : Cores n N) (k : Nat) : Bool :=
  match s.cutWakeBars k with
  | some b => N ≤ b.arr
  | none => false

/-- The other ranks that have not arrived at barrier `k`. -/
def missing (s : Cores n N) (me : Fin N) (k : Nat) : List (Fin N) :=
  (State.others me).filter (s.rankBarGen · < k)

/-- Every other rank has been seen. -/
def allKnown (s : Cores n N) (me : Fin N) : Bool := (State.others me).all s.rankKnown

/-- The loop over the other ranks ends at 0 when one of them has not been seen. -/
def late (s : Cores n N) (L : Fin n → WithTop Nat) (me : Fin N) (k : Nat) : WithTop Nat :=
  if s.allKnown me then least (s.lrank L) (s.missing me k) ⊤ else 0

def barrierCand (s : Cores n N) (L : Fin n → WithTop Nat) (me : Fin N) (k : Nat) : WithTop Nat :=
  if s.released k then s.sofar k
  else if s.late L me k = ⊤ then s.sofar k else max (s.sofar k : WithTop Nat) (s.late L me k)

def cand (s : Cores n N) (L : Fin n → WithTop Nat) (c : Fin n) : WithTop Nat :=
  match s.info c with
  | some (me, .recv src) => s.recvCand L me src
  | some (me, .barrier k) => s.barrierCand L me k
  | none => 0

/-- `nl`, the bound of a waiting core on the bounds of the others. -/
def wakeOf (s : Cores n N) (L : Fin n → WithTop Nat) (c : Fin n) : WithTop Nat := max (s.rr c : WithTop Nat) (s.cand L c)

/-- A core that does not wait is bounded by its clock, an exited one never acts. -/
def bounds₀ (s : Cores n N) (c : Fin n) : WithTop Nat := if s.st c = .active then s.rr c else ⊤

def waitingCores (s : Cores n N) : List (Fin n) := (List.finRange n).filter fun c => s.st c = .waiting

/-- `L` after the passes. -/
def bounds (s : Cores n N) : Fin n → WithTop Nat := solve s.wakeOf s.waitingCores (n + 2) s.bounds₀

/-- The bound of a waiting core on its record axis; its own clock where there is none. -/
def wakeRec (s : Cores n N) (c : Fin n) : Nat :=
  match s.bounds c with
  | none => (s.rr c - s.dl c).toNat
  | some b => ((b : Int) - s.dl c).toNat

def cutWakeBound (s : Cores n N) : WithTop Nat :=
  least (fun c => (s.wakeRec c : WithTop Nat)) (s.waitingCores.filter (s.rr · ≠ 0)) ⊤

/-! ## The equations -/

/-- A barrier is left no earlier than its latest arrival so far and, until it is released, than the first of the ranks
that have not arrived. -/
def barrierEq (s : Cores n N) (L : Fin n → WithTop Nat) (me : Fin N) (k : Nat) : WithTop Nat :=
  if s.released k ∨ s.missing me k = [] then s.sofar k else max (s.sofar k : WithTop Nat) (s.late L me k)

/-- What the comment makes of the bounds for a waiting core. -/
def eqOf (s : Cores n N) (L : Fin n → WithTop Nat) (c : Fin n) : WithTop Nat :=
  max (s.rr c : WithTop Nat) (match s.info c with
    | some (me, .recv src) => s.recvCand L me src
    | some (me, .barrier k) => s.barrierEq L me k
    | none => 0)

/-- The bounds solve the equations. -/
structure Solution (s : Cores n N) (L : Fin n → WithTop Nat) : Prop where
  waiting : ∀ c, s.st c = .waiting → L c = s.eqOf L c
  others : ∀ c, s.st c ≠ .waiting → L c = s.bounds₀ c

/-- The cores with other numbers. -/
def renumber (s : Cores n N) (σ : Equiv.Perm (Fin n)) : Cores n N :=
  { s with
    st := fun c => s.st (σ.symm c)
    rr := fun c => s.rr (σ.symm c)
    dl := fun c => s.dl (σ.symm c)
    info := fun c => s.info (σ.symm c)
    coreOfRank := fun r => (s.coreOfRank r).map σ }

/-- The passes leave the greatest solution of the equations, one more pass changes nothing, and other numbers of the
cores give the same bounds and the same minimum. -/
structure Solved (s : Cores n N) : Prop where
  solution : s.Solution s.bounds
  greatest : ∀ L, s.Solution L → ∀ c, L c ≤ s.bounds c
  settled : pass s.wakeOf s.waitingCores s.bounds = (s.bounds, false)
  renumbered : ∀ σ : Equiv.Perm (Fin n), (∀ c, (s.renumber σ).bounds (σ c) = s.bounds c) ∧
    (s.renumber σ).cutWakeBound = s.cutWakeBound

/-! ## Chains of waits -/

/-- What may release a waiting core: something posted at a time, or another rank. -/
inductive Release (N : Nat) where
  | posted (t : Nat)
  | rank (r : Fin N)

/-- The times and ranks that a core waits for, one of which is enough. -/
def releases (s : Cores n N) (c : Fin n) : List (Release N) :=
  match s.info c with
  | some (me, .recv (some src)) =>
    match s.cutWakeMsgs src me with
    | [] => [.rank src]
    | e :: _ => [.posted e.t]
  | some (me, .recv none) =>
    ((List.finRange N).filterMap fun r => (s.cutWakeMsgs r me).head?.map fun e => .posted e.t) ++
      (State.others me).map .rank
  | some (me, .barrier k) =>
    if s.released k ∨ s.missing me k = [] ∨ s.allKnown me = false then [.posted 0] else (s.missing me k).map .rank
  | none => [.posted 0]

/-- A waiting core's own clock, and at a barrier its latest arrival so far. -/
def earliest (s : Cores n N) (c : Fin n) : Nat :=
  match s.info c with
  | some (_, .barrier k) => max (s.rr c) (s.sofar k)
  | _ => s.rr c

/-- From the core a chain of waits, none of them later than `m`, ends at something posted by `m`, at a core that acts
by `m`, or at a rank without a core. -/
inductive Within (s : Cores n N) (m : Nat) : Fin n → Prop where
  | acts {c} (hst : s.st c = .active) (hle : s.rr c ≤ m) : Within s m c
  | posted {c t} (hst : s.st c = .waiting) (hle : s.earliest c ≤ m) (hr : .posted t ∈ s.releases c) (ht : t ≤ m) :
    Within s m c
  | unplaced {c r} (hst : s.st c = .waiting) (hle : s.earliest c ≤ m) (hr : .rank r ∈ s.releases c)
    (hnone : s.coreOfRank r = none) : Within s m c
  | waits {c r d} (hst : s.st c = .waiting) (hle : s.earliest c ≤ m) (hr : .rank r ∈ s.releases c)
    (hcore : s.coreOfRank r = some d) (h : Within s m d) : Within s m c

/-- The core's thread is at barrier `k`, which waits for ranks that have not arrived, and all are known. -/
structure AtBarrier (s : Cores n N) (c : Fin n) (me : Fin N) (k : Nat) : Prop where
  info : s.info c = some (me, .barrier k)
  unreleased : s.released k = false
  missing : s.missing me k ≠ []
  known : s.allKnown me = true

/-- A rank that a core waiting at a barrier misses acts, or a chain of waits leads from it on, none of them later than the
core's own clock and the arrivals so far. -/
def Answered (s : Cores n N) : Prop :=
  ∀ c me k, s.st c = .waiting → s.AtBarrier c me k → ∃ r ∈ s.missing me k, s.lrank s.bounds₀ r ≠ ⊤ ∨
    ∃ d, s.coreOfRank r = some d ∧ s.Within (s.earliest c) d

end Cores

/-! ## Cores numbered by their ranks -/

namespace State

variable {N : Nat}

/-- What the bound reads of a state. -/
def cores (s : State N) : Cores N N where
  st c := if (s.status c).isWaiting then .waiting else if (s.status c).isActive then .active else .gone
  rr := s.relAxisClock
  dl := s.cutRelDelta
  info c :=
    match s.status c with
    | .waiting (.recv src) => some (c, .recv src)
    | .waiting .barrier => some (c, .barrier (s.rankBarGen c))
    | _ => none
  rankKnown := s.rankKnown
  coreOfRank r := if s.rankKnown r then some r else none
  rankBarGen := s.rankBarGen
  cutWakeGen := s.cutWakeGen
  cutWakeMsgs := s.cutWakeMsgs
  cutWakeBars := s.cutWakeBars

theorem lrank_cores (s : State N) : s.cores.lrank = s.lrank := by
  funext L r
  unfold Cores.lrank lrank
  show (match (if s.rankKnown r = true then some r else none) with
    | some c => L c
    | none => 0) = _
  by_cases hr : s.rankKnown r = true
  · rw [if_pos hr, if_pos hr]
  · rw [if_neg hr, if_neg hr]

theorem late_cores (s : State N) (L : Fin N → WithTop Nat) (me : Fin N) (k : Nat) : s.cores.late L me k = s.late L me k := by
  unfold Cores.late late
  rw [lrank_cores]
  by_cases hall : s.cores.allKnown me = true
  · rw [if_pos hall, if_neg]
    · rfl
    · intro hany
      obtain ⟨r, hr, hno⟩ := List.any_eq_true.mp hany
      have hknown : s.rankKnown r = true := List.all_eq_true.mp hall r hr
      rw [hknown] at hno
      cases hno
  · rw [if_neg hall, if_pos]
    refine List.any_eq_true.mpr ?_
    by_contra hno
    push Not at hno
    refine hall (List.all_eq_true.mpr fun r hr => ?_)
    have := hno r hr
    rcases hk : s.rankKnown r with _ | _
    · rw [hk] at this
      exact absurd rfl this
    · exact hk

theorem cand_cores {s : State N} (h : s.cutWakeStale = 0) (L : Fin N → WithTop Nat) (c : Fin N) :
    s.cores.cand L c = s.cand L c := by
  unfold Cores.cand cand
  rw [if_pos h]
  show (match (match s.status c with
      | .waiting (.recv src) => some (c, WaitsFor.recv src)
      | .waiting .barrier => some (c, .barrier (s.rankBarGen c))
      | _ => none) with
    | some (me, .recv src) => s.cores.recvCand L me src
    | some (me, .barrier k) => s.cores.barrierCand L me k
    | none => 0) = _
  rcases s.status c with _ | _ | ⟨⟨_ | src⟩ | _⟩ | _
  · rfl
  · rfl
  · dsimp only [Cores.recvCand, recvCand]
    rw [lrank_cores]
    rfl
  · dsimp only [Cores.recvCand, recvCand]
    rw [lrank_cores]
    rfl
  · dsimp only [Cores.barrierCand, barrierCand]
    rw [late_cores]
    rfl
  · rfl

theorem bounds_cores {s : State N} (h : s.cutWakeStale = 0) : s.cores.bounds = s.bounds := by
  have hwake : s.cores.wakeOf = s.wakeOf := by
    funext L c
    unfold Cores.wakeOf wakeOf
    rw [cand_cores h]
    rfl
  have hst (c : Fin N) : s.cores.st c = if (s.status c).isWaiting then .waiting else
      if (s.status c).isActive then .active else .gone := rfl
  have hwaiting : s.cores.waitingCores = s.waitingCores := by
    refine List.filter_congr fun c _ => ?_
    rw [hst]
    rcases s.status c with _ | _ | _ | _ <;> rfl
  have hstart : s.cores.bounds₀ = s.bounds₀ := by
    funext c
    unfold Cores.bounds₀ bounds₀
    rw [hst]
    rcases s.status c with _ | _ | _ | _ <;> rfl
  unfold Cores.bounds bounds
  rw [hwake, hwaiting, hstart]

end State

end Pimid.Cut
