import Mathlib.Data.Finset.Lattice.Fold
import Mathlib.Order.Lattice.Nat
import Pimid.Lib.Machine

/-!
# MPI_Barrier in thread mode

Each critical section under `bar_mtx` is one step: an arrival, up to its release or
its first wait, and a wake-up, up to its return or its next wait. A parked rank may
wake at any time, so spurious wake-ups are included, and the order in which a
broadcast wakes the ranks is arbitrary.

The arrival count, the running maximum, the release time and the generation are
shared by all barriers. A rank that is slow to wake reads the release time while
others are already arriving at the next barrier. It cannot be too slow: the next
barrier does not complete without it, so when it looks the generation is one past
its own and the release time is still its own barrier's.
-/

namespace Pimid.Mpi.Barrier

open Function (update update_of_ne update_self)

/-! ## The code -/

/-- Where a rank is: outside the barrier, or waiting for the generation to leave `gen`. -/
inductive Phase where
  | outside
  | parked (gen : BitVec 32)
  deriving DecidableEq

/-- The barrier fields of `SharedHeader`, and every rank's place and `sim_send_time`. -/
structure State where
  barrierCount : Nat
  barrierGen : BitVec 32
  barMaxArr : Nat
  barRelease : Nat
  phase : Nat → Phase
  simSendTime : Nat → Nat

inductive Act where
  | arrive (rank simNow : Nat)
  | wake (rank : Nat)

/-- Rank `rank` entered a barrier at time `simNow`, or left one with `simSendTime`. -/
inductive Event where
  | entered (rank simNow : Nat)
  | left (rank simSendTime : Nat)

def init : State := ⟨0, 1, 0, 0, fun _ => .outside, fun _ => 0⟩

/-- The critical section of an arrival: the last arriver releases the others and leaves. -/
def arrive (N : Nat) (s : State) (r myArr : Nat) : State × List Event :=
  let gen := s.barrierGen
  let s := if myArr > s.barMaxArr then { s with barMaxArr := myArr } else s
  let s := { s with barrierCount := s.barrierCount + 1 }
  if s.barrierCount ≥ N then
    let s := { s with
      barrierCount := 0
      barRelease := s.barMaxArr
      barMaxArr := 0
      barrierGen := gen + 1 }
    let s := { s with simSendTime := update s.simSendTime r s.barRelease }
    (s, [.entered r myArr, .left r (s.simSendTime r)])
  else ({ s with phase := update s.phase r (.parked gen) }, [.entered r myArr])

/-- A parked rank has the mutex again. -/
def wake (s : State) (r : Nat) (gen : BitVec 32) : State × List Event :=
  if s.barrierGen = gen then (s, [])
  else
    let s := { s with
      simSendTime := update s.simSendTime r s.barRelease
      phase := update s.phase r .outside }
    (s, [.left r (s.simSendTime r)])

def step (N : Nat) (s : State) : Act → Option (State × List Event)
  | .arrive r simNow => if r < N ∧ s.phase r = .outside then some (arrive N s r simNow) else none
  | .wake r => match s.phase r with
    | .outside => none
    | .parked gen => if r < N then some (wake s r gen) else none

/-- The barrier of `N` ranks. -/
def machine (N : Nat) : Machine State Act Event := ⟨init, step N⟩

/-! ## What a run did -/

/-- The arrival times of rank `r`, barrier by barrier. -/
def entries (r : Nat) (l : List Event) : List Nat :=
  l.filterMap fun
    | .entered r' t => if r' = r then some t else none
    | .left .. => none

/-- The release times rank `r` left with, barrier by barrier. -/
def exits (r : Nat) (l : List Event) : List Nat :=
  l.filterMap fun
    | .left r' t => if r' = r then some t else none
    | .entered .. => none

/-- The latest arrival at barrier `k` (from 0). -/
def latest (N : Nat) (l : List Event) (k : Nat) : Nat :=
  (Finset.range N).sup fun r => ((entries r l)[k]?).getD 0

section

variable {N K r t v : Nat} {l : List Event}

theorem entries_entered (r' : Nat) :
    entries r' (l ++ [.entered r t]) = if r' = r then entries r' l ++ [t] else entries r' l := by
  unfold entries
  rw [List.filterMap_append]
  by_cases h : r' = r
  · simp [h]
  · simp [h, Ne.symm h]

theorem entries_left (r' : Nat) : entries r' (l ++ [.left r v]) = entries r' l := by
  unfold entries
  rw [List.filterMap_append]
  simp

theorem exits_entered (r' : Nat) : exits r' (l ++ [.entered r t]) = exits r' l := by
  unfold exits
  rw [List.filterMap_append]
  simp

theorem exits_left (r' : Nat) :
    exits r' (l ++ [.left r v]) = if r' = r then exits r' l ++ [v] else exits r' l := by
  unfold exits
  rw [List.filterMap_append]
  by_cases h : r' = r
  · simp [h]
  · simp [h, Ne.symm h]

theorem latest_left (k : Nat) : latest N (l ++ [.left r v]) k = latest N l k := by
  unfold latest
  simp only [entries_left]

/-- An arrival counts for the barrier it is at, and for no other. -/
theorem latest_entered (hr : r < N) (hK : (entries r l).length = K) (k : Nat) :
    latest N (l ++ [.entered r t]) k = if k = K then max t (latest N l K) else latest N l k := by
  have hval : ∀ r', ((entries r' (l ++ [.entered r t]))[k]?).getD 0
      = if r' = r ∧ k = K then t else ((entries r' l)[k]?).getD 0 := by
    intro r'
    rw [entries_entered]
    by_cases h : r' = r
    · subst h
      rw [if_pos rfl, List.getElem?_append, hK]
      by_cases hk : k = K
      · subst hk
        simp
      · rw [if_neg (show ¬ (r' = r' ∧ k = K) from fun h => hk h.2)]
        rcases Nat.lt_or_ge k K with hlt | hge
        · rw [if_pos hlt]
        · rw [if_neg (by omega), List.getElem?_eq_none (by rw [List.length_singleton]; omega),
            List.getElem?_eq_none (by omega)]
    · rw [if_neg h, if_neg fun h' => h h'.1]
  unfold latest
  simp only [hval]
  by_cases hk : k = K
  · subst hk
    rw [if_pos rfl]
    have hnone : ((entries r l)[k]?).getD 0 = 0 := by
      rw [List.getElem?_eq_none (by omega)]
      rfl
    apply le_antisymm
    · refine Finset.sup_le fun r' hr' => ?_
      split
      · exact le_max_left ..
      · exact le_max_of_le_right (Finset.le_sup (f := fun r' => ((entries r' l)[k]?).getD 0) hr')
    · refine max_le ?_ (Finset.sup_le fun r' hr' => ?_)
      · refine le_trans ?_ (Finset.le_sup (Finset.mem_range.mpr hr))
        rw [if_pos ⟨rfl, rfl⟩]
      · by_cases h : r' = r
        · rw [h, hnone]
          exact Nat.zero_le _
        · refine le_trans ?_ (Finset.le_sup hr')
          rw [if_neg fun h' => h h'.1]
  · rw [if_neg hk]
    simp only [hk, and_false, if_false]

theorem latest_eq_zero {k : Nat} (h : ∀ r, r < N → (entries r l).length ≤ k) : latest N l k = 0 := by
  refine Nat.le_zero.mp (Finset.sup_le fun r hr => ?_)
  rw [List.getElem?_eq_none (h r (Finset.mem_range.mp hr))]
  exact Nat.le_refl 0

end

/-! ## The invariant -/

/-- Where a rank can be when `K` barriers are complete, with the barriers it has entered
and left. -/
inductive Place (K : Nat) : Phase → Nat → Nat → Prop where
  /-- It left the last complete barrier. -/
  | outside : Place K .outside K K
  /-- It has yet to wake from the last complete barrier. -/
  | late {k} (h : k + 1 = K) : Place K (.parked (BitVec.ofNat 32 K)) K k
  /-- It waits in the barrier that is not complete. -/
  | waiting : Place K (.parked (BitVec.ofNat 32 (K + 1))) (K + 1) K

/-- The ranks that are in the barrier that is not complete. -/
def arrived (N K : Nat) (l : List Event) : Finset Nat :=
  (Finset.range N).filter fun r => (entries r l).length = K + 1

/-- `K` barriers are complete; the shared fields are about the next one alone, but for
the release time, which is the last one's. -/
structure Inv (N K : Nat) (s : State) (l : List Event) : Prop where
  gen : s.barrierGen = BitVec.ofNat 32 (K + 1)
  place : ∀ r, r < N → Place K (s.phase r) (entries r l).length (exits r l).length
  count : s.barrierCount = (arrived N K l).card
  short : 0 < N → s.barrierCount < N
  maxArr : s.barMaxArr = latest N l K
  release : ∀ k, k + 1 = K → s.barRelease = latest N l k
  exit : ∀ r, r < N → ∀ k v, (exits r l)[k]? = some v → v = latest N l k

theorem ofNat_ne_succ (K : Nat) : BitVec.ofNat 32 K ≠ BitVec.ofNat 32 (K + 1) := by
  intro h
  have := congrArg BitVec.toNat h
  simp only [BitVec.toNat_ofNat] at this
  omega

section

variable {N K r t : Nat} {s : State} {l : List Event}

theorem Place.entered {ph : Phase} {e x : Nat} (h : Place K ph e x) :
    K ≤ e ∧ e ≤ K + 1 ∧ x ≤ K ∧ x ≤ e := by
  cases h <;> omega

theorem Place.of_outside {ph : Phase} {e x : Nat} (h : Place K ph e x) (hout : ph = .outside) :
    e = K ∧ x = K := by
  cases h with
  | outside => exact ⟨rfl, rfl⟩
  | late => cases hout
  | waiting => cases hout

/-- A parked rank finds the generation changed exactly if its barrier is complete. -/
theorem Place.of_parked {ph : Phase} {e x : Nat} {gen : BitVec 32} (h : Place K ph e x)
    (hph : ph = .parked gen) :
    BitVec.ofNat 32 (K + 1) ≠ gen ∧ e = K ∧ x + 1 = K ∨
      BitVec.ofNat 32 (K + 1) = gen ∧ e = K + 1 ∧ x = K := by
  cases h with
  | outside => cases hph
  | late hk =>
    obtain rfl := Phase.parked.inj hph
    exact .inl ⟨(ofNat_ne_succ K).symm, rfl, hk⟩
  | waiting =>
    obtain rfl := Phase.parked.inj hph
    exact .inr ⟨rfl, rfl, rfl⟩

theorem inv_init : Inv N 0 init [] := by
  have hnone : ∀ r, (entries r []).length = 0 := fun _ => rfl
  refine ⟨rfl, fun r _ => .outside, ?_, id, (latest_eq_zero fun r _ => Nat.le_refl 0).symm,
    fun k hk => by omega, fun r _ k v hv => by cases hv⟩
  simp only [arrived, hnone, init]
  simp

/-- A rank that is outside is not in the barrier, and joins those that are. -/
theorem arrived_entered (hr : r < N) (hK : (entries r l).length = K) :
    (arrived N K (l ++ [.entered r t])).card = (arrived N K l).card + 1 := by
  have hout : r ∉ arrived N K l := fun h => by
    have := (Finset.mem_filter.mp h).2
    omega
  rw [← Finset.card_insert_of_notMem hout]
  congr 1
  ext r'
  rw [Finset.mem_insert, arrived, arrived, Finset.mem_filter, Finset.mem_filter, Finset.mem_range,
    entries_entered]
  by_cases h : r' = r
  · subst h
    simp [hr, hK]
  · simp [h]

/-- Exits are about complete barriers, which an arrival does not change. -/
theorem Inv.exit_entered (h : Inv N K s l) (hr : r < N) (hK : (entries r l).length = K) {r' : Nat}
    (hr' : r' < N) {k v : Nat} (hv : (exits r' l)[k]? = some v) :
    v = latest N (l ++ [.entered r t]) k := by
  have hlt : k < K := by
    have hx := (h.place r' hr').entered
    have := (List.getElem?_eq_some_iff.mp hv).1
    omega
  rw [latest_entered hr hK, if_neg (by omega)]
  exact h.exit r' hr' k v hv

/-- **An arrival that is not the last.** -/
theorem Inv.park (h : Inv N K s l) (hr : r < N) (hout : s.phase r = .outside)
    (hmore : ¬ s.barrierCount + 1 ≥ N) :
    Inv N K { s with
      barMaxArr := max t s.barMaxArr
      barrierCount := s.barrierCount + 1
      phase := update s.phase r (.parked s.barrierGen) } (l ++ [.entered r t]) := by
  obtain ⟨hK, hx⟩ := (h.place r hr).of_outside hout
  refine ⟨h.gen, fun r' hr' => ?_, ?_, fun _ => by dsimp only; omega, ?_, fun k hk => ?_,
    fun r' hr' k v hv => ?_⟩
  · rw [entries_entered, exits_entered]
    dsimp only
    by_cases hrr : r' = r
    · subst hrr
      rw [update_self, if_pos rfl, List.length_append, hK, hx, h.gen]
      exact .waiting
    · rw [update_of_ne hrr, if_neg hrr]
      exact h.place r' hr'
  · rw [arrived_entered hr hK, h.count]
  · rw [latest_entered hr hK, if_pos rfl, h.maxArr]
  · rw [latest_entered hr hK, if_neg (by omega)]
    exact h.release k hk
  · rw [exits_entered] at hv
    exact h.exit_entered hr hK hr' hv

/-- **The last arrival.** Everybody is in, the barrier is complete, and the fields are
as they were before it. -/
theorem Inv.complete (h : Inv N K s l) (hr : r < N) (hout : s.phase r = .outside)
    (hlast : s.barrierCount + 1 ≥ N) :
    Inv N (K + 1) { s with
      barMaxArr := 0
      barRelease := max t s.barMaxArr
      barrierCount := 0
      barrierGen := s.barrierGen + 1
      simSendTime := update s.simSendTime r (max t s.barMaxArr) }
      (l ++ [.entered r t] ++ [.left r (max t s.barMaxArr)]) := by
  obtain ⟨hK, hx⟩ := (h.place r hr).of_outside hout
  -- all others are waiting, by counting
  have hall : ∀ r', r' < N → r' ≠ r → (entries r' l).length = K + 1 := by
    intro r' hr' hne
    have hsub : arrived N K l ⊆ (Finset.range N).erase r := fun x hx' => by
      obtain ⟨hxN, hxK⟩ := Finset.mem_filter.mp hx'
      refine Finset.mem_erase.mpr ⟨?_, hxN⟩
      rintro rfl
      omega
    have hcard : ((Finset.range N).erase r).card = N - 1 := by
      rw [Finset.card_erase_of_mem (Finset.mem_range.mpr hr), Finset.card_range]
    have heq := Finset.eq_of_subset_of_card_le hsub (by rw [hcard, ← h.count]; omega)
    have hmem : r' ∈ arrived N K l := by
      rw [heq]
      exact Finset.mem_erase.mpr ⟨hne, Finset.mem_range.mpr hr'⟩
    exact (Finset.mem_filter.mp hmem).2
  have hlen : ∀ r', r' < N → (entries r' (l ++ [.entered r t])).length = K + 1 := by
    intro r' hr'
    rw [entries_entered]
    by_cases hrr : r' = r
    · rw [if_pos hrr, List.length_append, hrr, hK]
      rfl
    · rw [if_neg hrr]
      exact hall r' hr' hrr
  have hmax : latest N (l ++ [.entered r t]) K = max t s.barMaxArr := by
    rw [latest_entered hr hK, if_pos rfl, h.maxArr]
  refine ⟨?_, fun r' hr' => ?_, ?_, id, ?_, fun k hk => ?_, fun r' hr' k v hv => ?_⟩
  · show s.barrierGen + 1 = _
    exact h.gen ▸ (BitVec.ofNat_add (K + 1) 1).symm
  · rw [entries_left, exits_left, exits_entered, hlen r' hr']
    by_cases hrr : r' = r
    · subst hrr
      rw [if_pos rfl, List.length_append, hx, hout]
      exact .outside
    · rw [if_neg hrr]
      have hp := h.place r' hr'
      rw [hall r' hr' hrr] at hp
      generalize s.phase r' = ph at hp
      generalize (exits r' l).length = x at hp
      generalize he : K + 1 = e at hp
      cases hp with
      | outside => omega
      | late h => omega
      | waiting => exact .late rfl
  · have hnone : arrived N (K + 1) (l ++ [.entered r t] ++ [.left r (max t s.barMaxArr)]) = ∅ := by
      refine Finset.filter_eq_empty_iff.mpr fun r' hr' => ?_
      rw [entries_left, hlen r' (Finset.mem_range.mp hr')]
      omega
    rw [hnone]
    rfl
  · rw [latest_left, latest_eq_zero fun r' hr' => by rw [hlen r' hr']]
  · obtain rfl : k = K := by omega
    rw [latest_left, hmax]
  · rw [latest_left]
    rw [exits_left, exits_entered] at hv
    by_cases hrr : r' = r
    · subst hrr
      rw [if_pos rfl, List.getElem?_append, hx] at hv
      split at hv
      · exact h.exit_entered hr hK hr' hv
      · obtain rfl : k = K := by
          have := (List.getElem?_eq_some_iff.mp hv).1
          simp at this
          omega
        rw [hmax]
        simpa using hv.symm
    · rw [if_neg hrr] at hv
      exact h.exit_entered hr hK hr' hv

/-- **A wake-up after the release.** The barrier the rank was in is the last complete one,
and the release time is its own. -/
theorem Inv.leave (h : Inv N K s l) (hr : r < N) {gen : BitVec 32} (hph : s.phase r = .parked gen)
    (hgen : s.barrierGen ≠ gen) :
    Inv N K { s with
      simSendTime := update s.simSendTime r s.barRelease
      phase := update s.phase r .outside } (l ++ [.left r s.barRelease]) := by
  obtain ⟨k, hk, hK, hx⟩ : ∃ k, k + 1 = K ∧ (entries r l).length = K ∧ (exits r l).length = k := by
    rw [h.gen] at hgen
    rcases (h.place r hr).of_parked hph with ⟨-, he, hx⟩ | ⟨hg, -⟩
    · exact ⟨_, hx, he, rfl⟩
    · exact absurd hg hgen
  have hrel := h.release k hk
  refine ⟨h.gen, fun r' hr' => ?_, ?_, h.short, ?_, fun k hk => ?_, fun r' hr' k' v hv => ?_⟩
  · rw [entries_left, exits_left]
    dsimp only
    by_cases hrr : r' = r
    · subst hrr
      rw [update_self, if_pos rfl, List.length_append, hK, hx, ← hk]
      exact .outside
    · rw [update_of_ne hrr, if_neg hrr]
      exact h.place r' hr'
  · simp only [arrived, entries_left]
    exact h.count
  · rw [latest_left]
    exact h.maxArr
  · rw [latest_left]
    exact h.release k hk
  · rw [latest_left]
    rw [exits_left] at hv
    by_cases hrr : r' = r
    · subst hrr
      rw [if_pos rfl, List.getElem?_append, hx] at hv
      split at hv
      · exact h.exit r' hr' k' v hv
      · obtain rfl : k' = k := by
          have := (List.getElem?_eq_some_iff.mp hv).1
          simp at this
          omega
        rw [← hrel]
        simpa using hv.symm
    · rw [if_neg hrr] at hv
      exact h.exit r' hr' k' v hv

/-! ## Every run -/

theorem arrive_eq (N : Nat) (s : State) (r t : Nat) : arrive N s r t =
    if s.barrierCount + 1 ≥ N then
      ({ s with
        barMaxArr := 0
        barRelease := max t s.barMaxArr
        barrierCount := 0
        barrierGen := s.barrierGen + 1
        simSendTime := update s.simSendTime r (max t s.barMaxArr) },
        [.entered r t, .left r (max t s.barMaxArr)])
    else
      ({ s with
        barMaxArr := max t s.barMaxArr
        barrierCount := s.barrierCount + 1
        phase := update s.phase r (.parked s.barrierGen) }, [.entered r t]) := by
  by_cases ht : t > s.barMaxArr
  · rw [max_eq_left (Nat.le_of_lt ht)]
    simp only [arrive, if_pos ht, update_self]
  · rw [max_eq_right (Nat.le_of_not_lt ht)]
    simp only [arrive, if_neg ht, update_self]

theorem step_wake (hr : r < N) {gen : BitVec 32} (hph : s.phase r = .parked gen) :
    step N s (.wake r) = some (wake s r gen) := by
  rw [step, hph]
  exact if_pos hr

/-- Every step keeps the invariant; the last arrival completes a barrier. -/
theorem Inv.step (h : Inv N K s l) {a : Act} {s' : State} {es : List Event}
    (hs : step N s a = some (s', es)) : ∃ K', Inv N K' s' (l ++ es) := by
  cases a with
  | arrive r t =>
    rw [Barrier.step] at hs
    split at hs
    · next hr =>
      rw [arrive_eq] at hs
      split at hs
      · next hlast =>
        obtain ⟨rfl, rfl⟩ := Prod.mk.inj (Option.some.inj hs)
        refine ⟨K + 1, ?_⟩
        rw [show l ++ [Event.entered r t, Event.left r (max t s.barMaxArr)]
          = l ++ [.entered r t] ++ [.left r (max t s.barMaxArr)] by simp]
        exact h.complete hr.1 hr.2 hlast
      · next hmore =>
        obtain ⟨rfl, rfl⟩ := Prod.mk.inj (Option.some.inj hs)
        exact ⟨K, h.park hr.1 hr.2 hmore⟩
    · cases hs
  | wake r =>
    rw [Barrier.step] at hs
    split at hs
    · cases hs
    · next gen hph =>
      split at hs
      · next hr =>
        rw [wake] at hs
        split at hs
        · obtain ⟨rfl, rfl⟩ := Prod.mk.inj (Option.some.inj hs)
          rw [List.append_nil]
          exact ⟨K, h⟩
        · next hgen =>
          simp only [update_self] at hs
          obtain ⟨rfl, rfl⟩ := Prod.mk.inj (Option.some.inj hs)
          exact ⟨K, h.leave hr hph hgen⟩
      · cases hs

theorem exists_inv (h : (machine N).Run s l) : ∃ K, Inv N K s l :=
  h.inv (I := fun s l => ∃ K, Inv N K s l) ⟨0, inv_init⟩ fun ⟨_, hI⟩ hs => hI.step hs

end

/-- **MPI_Barrier.** In every run of `N` ranks: no rank has left more barriers than
every rank has entered; every rank left every barrier with the latest arrival at that
barrier; and with `K` barriers complete, the count and the running maximum are those of
the arrivals at the next one. A rank that waits gets out at its next wake-up exactly if
all ranks have entered the barrier it waits in; until then the wake-up changes nothing. -/
theorem barrier_run {N : Nat} {s : State} {l : List Event} (h : (machine N).Run s l) :
    (∀ r, r < N → ∀ r', r' < N → (exits r l).length ≤ (entries r' l).length) ∧
    (∀ r, r < N → ∀ k v, (exits r l)[k]? = some v → v = latest N l k) ∧
    (∃ K, (∀ r, r < N → K ≤ (entries r l).length ∧ (entries r l).length ≤ K + 1 ∧
        (exits r l).length ≤ K) ∧
      s.barrierCount = (arrived N K l).card ∧ s.barMaxArr = latest N l K) ∧
    ∀ r, r < N → ∀ gen, s.phase r = .parked gen →
      (s.barrierGen ≠ gen ↔ ∀ r', r' < N → (entries r l).length ≤ (entries r' l).length) ∧
      (s.barrierGen ≠ gen → ∃ s', step N s (.wake r) = some (s', [.left r s.barRelease]) ∧ s'.phase r = .outside) ∧
      (s.barrierGen = gen → step N s (.wake r) = some (s, [])) := by
  obtain ⟨K, hI⟩ := exists_inv h
  have hplace := fun r hr => (hI.place r hr).entered
  refine ⟨fun r hr r' hr' => ?_, hI.exit, ⟨K, fun r hr => ?_, hI.count, hI.maxArr⟩,
    fun r hr gen hph => ⟨?_, fun hgen => ?_, fun hgen => ?_⟩⟩
  · have := hplace r hr
    have := hplace r' hr'
    omega
  · have := hplace r hr
    omega
  · rw [hI.gen]
    rcases (hI.place r hr).of_parked hph with ⟨hgen, he, -⟩ | ⟨hgen, he, -⟩
    · refine ⟨fun _ r' hr' => ?_, fun _ => hgen⟩
      have := hplace r' hr'
      omega
    · refine ⟨fun hne => absurd hgen hne, fun hall => ?_⟩
      -- a barrier that all ranks are in would be complete
      have hfull : arrived N K l = Finset.range N := Finset.filter_true_of_mem fun r' hr' => by
        have := hall r' (Finset.mem_range.mp hr')
        have := hplace r' (Finset.mem_range.mp hr')
        omega
      have hcount := hI.count
      rw [hfull, Finset.card_range] at hcount
      have := hI.short (by omega)
      omega
  · rw [step_wake hr hph, wake, if_neg hgen]
    simp only [update_self]
    exact ⟨_, rfl, update_self ..⟩
  · rw [step_wake hr hph, wake, if_pos hgen]

theorem barrier_run_two_ranks :
    7 = latest 2 [.entered 0 5, .entered 1 7, .left 1 7, .left 0 7] 0 :=
  (barrier_run ((((Machine.Run.start (M := machine 2)).step (a := .arrive 0 5) rfl).step
    (a := .arrive 1 7) rfl).step (a := .wake 0) rfl)).2.1 0 (by decide) 0 7 rfl

end Pimid.Mpi.Barrier
