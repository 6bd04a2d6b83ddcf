import Mathlib.Algebra.BigOperators.Group.Finset.Basic
import Mathlib.Data.Multiset.Lattice
import Mathlib.Tactic.Abel
import Pimid.Cut.Tables

/-!
# The wake tables over moving origins

The calls of the plugin's wake tables, from any ranks in any order, with the clocks' origins
moving between any two of them. Beside the tables stands what was posted, from the calls
alone: the messages sent and not received and the arrivals at the barriers not yet left by
all. The floor holds the times posted under the current origin and the stale count the
others, so no removal finds its entry missing.
-/

namespace Pimid.Cut

open Finset
open Function (update update_of_ne update_self)

/-! ## A tally over two origins -/

/-- `floor` has the times of the outstanding entries of origin `gen`, and `stale` counts the older ones. -/
structure Tally (out : Multiset Entry) (gen : Nat) (floor : Multiset Nat) (stale : Nat) : Prop where
  floor_eq : floor = (out.filter fun e => e.gen = gen).map Entry.t
  stale_eq : stale = (out.filter fun e => e.gen ≠ gen).card
  le : ∀ e ∈ out, e.gen ≤ gen

namespace Tally

variable {out : Multiset Entry} {e : Entry} {gen gen' stale : Nat} {floor : Multiset Nat}

theorem card (h : Tally out gen floor stale) : stale + floor.card = out.card := by
  rw [h.floor_eq, h.stale_eq, Multiset.card_map, ← Multiset.card_add, add_comm, Multiset.filter_add_not]

theorem rebase (h : Tally out gen floor stale) (hlt : gen < gen') : Tally out gen' 0 (stale + floor.card) := by
  have hne (e : Entry) (he : e ∈ out) : e.gen ≠ gen' := by
    have := h.le e he
    omega
  refine ⟨?_, ?_, fun e he => Nat.le_trans (h.le e he) hlt.le⟩
  · rw [Multiset.filter_eq_nil.mpr hne]
    rfl
  · rw [h.card, Multiset.filter_eq_self.mpr hne]

theorem add (h : Tally out gen floor stale) (hgen : e.gen = gen) : Tally (e ::ₘ out) gen (e.t ::ₘ floor) stale := by
  refine ⟨?_, ?_, fun x hx => ?_⟩
  · rw [Multiset.filter_cons_of_pos (p := fun e : Entry => e.gen = gen) _ hgen, Multiset.map_cons, h.floor_eq]
  · rw [Multiset.filter_cons_of_neg (p := fun e : Entry => e.gen ≠ gen) _ (not_not.mpr hgen), h.stale_eq]
  · rcases Multiset.mem_cons.mp hx with rfl | hx
    · exact hgen.le
    · exact h.le x hx

theorem addOlder (h : Tally out gen floor stale) (hgen : e.gen < gen) : Tally (e ::ₘ out) gen floor (stale + 1) := by
  refine ⟨?_, ?_, fun x hx => ?_⟩
  · rw [Multiset.filter_cons_of_neg (p := fun e : Entry => e.gen = gen) _ (by omega), h.floor_eq]
  · rw [Multiset.filter_cons_of_pos (p := fun e : Entry => e.gen ≠ gen) _ (by omega), Multiset.card_cons, h.stale_eq]
  · rcases Multiset.mem_cons.mp hx with rfl | hx
    · exact hgen.le
    · exact h.le x hx

/-- An entry of the current origin is in the floor. -/
theorem drop (h : Tally (e ::ₘ out) gen floor stale) (hgen : e.gen = gen) :
    e.t ∈ floor ∧ Tally out gen (floor.erase e.t) stale := by
  have hfloor := h.floor_eq
  rw [Multiset.filter_cons_of_pos (p := fun e : Entry => e.gen = gen) _ hgen, Multiset.map_cons] at hfloor
  refine ⟨hfloor ▸ Multiset.mem_cons_self _ _, ?_, ?_, fun x hx => h.le x (Multiset.mem_cons_of_mem hx)⟩
  · rw [hfloor, Multiset.erase_cons_head]
  · rw [h.stale_eq, Multiset.filter_cons_of_neg (p := fun e : Entry => e.gen ≠ gen) _ (not_not.mpr hgen)]

theorem dropOlder (h : Tally (e ::ₘ out) gen floor stale) (hgen : e.gen ≠ gen) :
    0 < stale ∧ Tally out gen floor (stale - 1) := by
  have hstale := h.stale_eq
  rw [Multiset.filter_cons_of_pos (p := fun e : Entry => e.gen ≠ gen) _ hgen, Multiset.card_cons] at hstale
  refine ⟨by omega, ?_, by omega, fun x hx => h.le x (Multiset.mem_cons_of_mem hx)⟩
  rw [h.floor_eq, Multiset.filter_cons_of_neg (p := fun e : Entry => e.gen = gen) _ hgen]

end Tally

/-! ## What was posted -/

/-- The messages sent and not received, and for each barrier not yet left by all the arrivals and how many have left
it. An entry has the time of its call and the origin it was made under. -/
structure Posted (N : Nat) where
  sent : Fin N → Fin N → List Entry := fun _ _ => []
  arrived : Nat → List Entry := fun _ => []
  advanced : Nat → Nat := fun _ => 0
  open_ : Finset Nat := ∅

/-- The latest of the arrivals. -/
def latest (arrivals : List Entry) : Nat := (arrivals.map Entry.t).foldr max 0

/-- A barrier that is released: its latest arrival, and the origin of the first. -/
def release (arrivals : List Entry) : Entry := ⟨latest arrivals, (arrivals.head?.map Entry.gen).getD 0⟩

namespace Posted

variable {N : Nat}

/-- The messages sent and not received and the barriers released and not yet left by all. -/
def outstanding (p : Posted N) : Multiset Entry :=
  ∑ src, ∑ dst, (p.sent src dst : Multiset Entry) +
    ∑ k ∈ p.open_, if (p.arrived k).length = N then {release (p.arrived k)} else 0

def setSent (p : Posted N) (src dst : Fin N) (q : List Entry) : Posted N :=
  { p with sent := update p.sent src (update (p.sent src) dst q) }

def send (p : Posted N) (src dst : Fin N) (e : Entry) : Posted N := p.setSent src dst (p.sent src dst ++ [e])

def receive (p : Posted N) (src dst : Fin N) : Posted N := p.setSent src dst (p.sent src dst).tail

def arrive (p : Posted N) (k : Nat) (e : Entry) : Posted N :=
  { p with arrived := update p.arrived k (p.arrived k ++ [e]), open_ := insert k p.open_ }

/-- The last to leave forgets the barrier. -/
def advance (p : Posted N) (k : Nat) : Posted N :=
  if p.advanced k + 1 = N then
    { p with
      arrived := update p.arrived k []
      advanced := update p.advanced k 0
      open_ := p.open_.erase k }
  else { p with advanced := update p.advanced k (p.advanced k + 1) }

end Posted

/-! ## The calls -/

/-- A call of the tables, the clocks' running on, or a move of the origins. -/
inductive Call (N : Nat) where
  | send (src dst : Fin N)
  | recv (src dst : Fin N)
  | arrive (r : Fin N) (k : Nat)
  | advance (k : Nat)
  | floor
  | clocks (clock : Fin N → Nat) (delta : Fin N → Int)
  | origin

/-- A call of the tables. -/
def Call.isTable {N : Nat} : Call N → Bool
  | .clocks .. => false
  | .origin => false
  | _ => true

/-- The earliest posted wake; `⊤` when none. -/
def cutWakeFloor {N : Nat} (s₀ : State N) : State N × WithTop Nat :=
  let s := s₀.cutWakeRebase
  (s, if s.cutWakeStale ≠ 0 then 0 else (s.cutWakeFloor.map fun t : Nat => (t : WithTop Nat)).inf)

/-- The tables and what was posted, side by side. A receive comes after its send, and the advances from a barrier after
the arrivals of all. -/
def tables (N : Nat) (delta : Fin N → Int) : Machine (State N × Posted N) (Call N) Empty where
  init := (State.init delta, {})
  step x
    | .send src dst => some ((x.1.cutWakeSend src dst, x.2.send src dst ⟨x.1.relAxisClock src, x.1.roiBaseGen⟩), [])
    | .recv src dst =>
      if x.2.sent src dst ≠ [] then some ((x.1.cutWakeRecv src dst, x.2.receive src dst), []) else none
    | .arrive r k =>
      if (x.2.arrived k).length < N then
        some ((x.1.cutWakeArrive r k, x.2.arrive k ⟨x.1.relAxisClock r, x.1.roiBaseGen⟩), [])
      else none
    | .advance k =>
      if (x.2.arrived k).length = N ∧ x.2.advanced k < N then some ((x.1.cutWakeAdvance k, x.2.advance k), []) else none
    | .floor => some (((cutWakeFloor x.1).1, x.2), [])
    | .clocks clock delta => some (({ x.1 with cutAxisClock := clock, cutRelDelta := delta }, x.2), [])
    | .origin => some (({ x.1 with roiBaseGen := x.1.roiBaseGen + 1 }, x.2), [])

/-! ## What was posted, step by step -/

namespace Posted

variable {N : Nat} {p : Posted N} {k : Nat} {e : Entry}

theorem sum_update {ι β : Type} [Fintype ι] [DecidableEq ι] (F : β → Multiset Entry) (f : ι → β) (i : ι) (b : β) :
    ∑ x, F (update f i b x) + F (f i) = ∑ x, F (f x) + F b := by
  have hrest : ∑ x ∈ univ.erase i, F (update f i b x) = ∑ x ∈ univ.erase i, F (f x) :=
    sum_congr rfl fun x hx => by rw [update_of_ne (ne_of_mem_erase hx)]
  rw [← add_sum_erase univ _ (mem_univ i), ← add_sum_erase univ (fun x => F (f x)) (mem_univ i), update_self, hrest]
  abel

theorem outstanding_setSent (src dst : Fin N) (q : List Entry) {a b : Multiset Entry}
    (h : (q : Multiset Entry) + a = (p.sent src dst : Multiset Entry) + b) :
    (p.setSent src dst q).outstanding + a = p.outstanding + b := by
  have hout := sum_update (fun g : Fin N → List Entry => ∑ d, (g d : Multiset Entry)) p.sent src
    (update (p.sent src) dst q)
  have hin := sum_update (fun l : List Entry => (l : Multiset Entry)) (p.sent src) dst q
  have hqueues : ∀ bars : Multiset Entry,
      ∑ s, ∑ d, ((p.setSent src dst q).sent s d : Multiset Entry) + bars + a =
        ∑ s, ∑ d, (p.sent s d : Multiset Entry) + bars + b := by
    intro bars
    refine add_right_cancel (b := ∑ d, (p.sent src d : Multiset Entry) + (p.sent src dst : Multiset Entry)) ?_
    calc _ = (∑ s, ∑ d, (update p.sent src (update (p.sent src) dst q) s d : Multiset Entry) +
          ∑ d, (p.sent src d : Multiset Entry)) + (p.sent src dst : Multiset Entry) + a + bars := by
          show ∑ s, ∑ d, (update p.sent src (update (p.sent src) dst q) s d : Multiset Entry) + _ + a + _ = _
          abel
      _ = ∑ s, ∑ d, (p.sent s d : Multiset Entry) + (∑ d, (update (p.sent src) dst q d : Multiset Entry) +
          (p.sent src dst : Multiset Entry)) + a + bars := by
          rw [hout]
          abel
      _ = ∑ s, ∑ d, (p.sent s d : Multiset Entry) + ∑ d, (p.sent src d : Multiset Entry) + ((q : Multiset Entry) + a) +
          bars := by
          rw [hin]
          abel
      _ = _ := by
          rw [h]
          abel
  exact hqueues _

theorem outstanding_send (src dst : Fin N) : (p.send src dst e).outstanding = e ::ₘ p.outstanding := by
  have h := outstanding_setSent (p := p) src dst (p.sent src dst ++ [e]) (a := 0) (b := {e}) (by
    rw [add_zero, ← Multiset.coe_add]
    rfl)
  rw [add_zero, add_comm] at h
  exact h

theorem outstanding_receive {src dst : Fin N} {q : List Entry} (hq : p.sent src dst = e :: q) :
    p.outstanding = e ::ₘ (p.receive src dst).outstanding := by
  have h := outstanding_setSent (p := p) src dst q (a := {e}) (b := 0) (by
    rw [hq, add_zero, add_comm]
    rfl)
  rw [add_zero, add_comm] at h
  have hrecv : p.receive src dst = p.setSent src dst q := by
    unfold receive
    rw [hq]
    rfl
  rw [hrecv]
  exact h.symm

/-- A barrier counts while it is open: there the arrivals are. -/
structure Ok (p : Posted N) : Prop where
  open_iff : ∀ k, k ∈ p.open_ ↔ p.arrived k ≠ []
  length_le : ∀ k, (p.arrived k).length ≤ N
  advanced_lt : ∀ k, p.arrived k ≠ [] → p.advanced k < N
  advanced_zero : ∀ k, (p.arrived k).length < N → p.advanced k = 0

/-- What barrier `k` counts. -/
def released (p : Posted N) (k : Nat) : Multiset Entry :=
  if (p.arrived k).length = N ∧ p.arrived k ≠ [] then {release (p.arrived k)} else 0

theorem Ok.outstanding_eq (h : p.Ok) (k : Nat) : p.outstanding = p.released k +
    (∑ src, ∑ dst, (p.sent src dst : Multiset Entry) +
      ∑ j ∈ p.open_.erase k, if (p.arrived j).length = N then {release (p.arrived j)} else 0) := by
  unfold outstanding released
  by_cases hk : k ∈ p.open_
  · rw [← add_sum_erase p.open_ _ hk]
    have hne := (h.open_iff k).mp hk
    simp only [hne, ne_eq, not_false_eq_true, and_true]
    abel
  · have hnil : p.arrived k = [] := not_not.mp (mt (h.open_iff k).mpr hk)
    rw [if_neg (by rw [hnil]; simp), zero_add, erase_eq_of_notMem hk]

theorem Ok.init : ({} : Posted N).Ok :=
  ⟨fun _ => by simp, fun _ => Nat.zero_le _, fun _ h => absurd rfl h, fun _ _ => rfl⟩

theorem Ok.setSent (h : p.Ok) (src dst : Fin N) (q : List Entry) : (p.setSent src dst q).Ok :=
  ⟨h.open_iff, h.length_le, h.advanced_lt, h.advanced_zero⟩

theorem Ok.arrive (h : p.Ok) (hlt : (p.arrived k).length < N) (e : Entry) : (p.arrive k e).Ok := by
  refine ⟨fun j => ?_, fun j => ?_, fun j hj => ?_, fun j hj => ?_⟩
  · show j ∈ insert k p.open_ ↔ update p.arrived k (p.arrived k ++ [e]) j ≠ []
    by_cases hjk : j = k
    · simp [hjk]
    · rw [update_of_ne hjk, mem_insert, ← h.open_iff]
      simp [hjk]
  · show (update p.arrived k (p.arrived k ++ [e]) j).length ≤ N
    by_cases hjk : j = k
    · rw [hjk, update_self, List.length_append]
      exact hlt
    · rw [update_of_ne hjk]
      exact h.length_le j
  · show p.advanced j < N
    by_cases hjk : j = k
    · rw [hjk, h.advanced_zero k hlt]
      omega
    · exact h.advanced_lt j ((update_of_ne hjk _ p.arrived) ▸ (hj : update p.arrived k _ j ≠ []))
  · show p.advanced j = 0
    by_cases hjk : j = k
    · rw [hjk, h.advanced_zero k hlt]
    · exact h.advanced_zero j ((update_of_ne hjk _ p.arrived) ▸ (hj : (update p.arrived k _ j).length < N))

theorem Ok.advance (h : p.Ok) (hlen : (p.arrived k).length = N) (hadv : p.advanced k < N) : (p.advance k).Ok := by
  unfold Posted.advance
  split
  · next hlast =>
    refine ⟨fun j => ?_, fun j => ?_, fun j hj => ?_, fun j hj => ?_⟩
    · show j ∈ p.open_.erase k ↔ update p.arrived k [] j ≠ []
      by_cases hjk : j = k
      · simp [hjk]
      · rw [update_of_ne hjk, mem_erase, ← h.open_iff]
        simp [hjk]
    · show (update p.arrived k [] j).length ≤ N
      by_cases hjk : j = k
      · rw [hjk, update_self]
        exact Nat.zero_le _
      · rw [update_of_ne hjk]
        exact h.length_le j
    · show update p.advanced k 0 j < N
      by_cases hjk : j = k
      · rw [hjk, update_self]
        omega
      · rw [update_of_ne hjk]
        exact h.advanced_lt j ((update_of_ne hjk _ p.arrived) ▸ (hj : update p.arrived k _ j ≠ []))
    · show update p.advanced k 0 j = 0
      by_cases hjk : j = k
      · rw [hjk, update_self]
      · rw [update_of_ne hjk]
        exact h.advanced_zero j ((update_of_ne hjk _ p.arrived) ▸ (hj : (update p.arrived k _ j).length < N))
  · next hmore =>
    refine ⟨h.open_iff, h.length_le, fun j hj => ?_, fun j hj => ?_⟩
    · show update p.advanced k (p.advanced k + 1) j < N
      by_cases hjk : j = k
      · rw [hjk, update_self]
        omega
      · rw [update_of_ne hjk]
        exact h.advanced_lt j hj
    · show update p.advanced k (p.advanced k + 1) j = 0
      by_cases hjk : j = k
      · subst hjk
        have hj : (p.arrived j).length < N := hj
        omega
      · rw [update_of_ne hjk]
        exact h.advanced_zero j hj

theorem Ok.outstanding_bar {p' : Posted N} (h : p.Ok) (h' : p'.Ok) (hsent : p'.sent = p.sent)
    (hother : ∀ j, j ≠ k → p'.arrived j = p.arrived j) (hopen : p'.open_.erase k = p.open_.erase k) :
    p'.outstanding + p.released k = p.outstanding + p'.released k := by
  have hrest : ∑ j ∈ p.open_.erase k, (if (p'.arrived j).length = N then {release (p'.arrived j)} else 0) =
      ∑ j ∈ p.open_.erase k, (if (p.arrived j).length = N then {release (p.arrived j)} else (0 : Multiset Entry)) :=
    sum_congr rfl fun j hj => by rw [hother j (ne_of_mem_erase hj)]
  rw [h.outstanding_eq k, h'.outstanding_eq k, hopen, hrest, hsent]
  abel

theorem Ok.outstanding_arrive (h : p.Ok) (hlt : (p.arrived k).length < N) (e : Entry) : (p.arrive k e).outstanding =
    if (p.arrived k).length + 1 = N then release (p.arrived k ++ [e]) ::ₘ p.outstanding else p.outstanding := by
  have hbar := h.outstanding_bar (k := k) (h.arrive hlt e) rfl (fun j hj => update_of_ne hj _ _)
    (erase_insert_eq_erase _ _)
  have hold : p.released k = 0 := if_neg fun hr => by omega
  have hself : (p.arrive k e).arrived k = p.arrived k ++ [e] := update_self _ _ _
  rw [hold, add_zero] at hbar
  rw [hbar]
  unfold released
  rw [hself, List.length_append, List.length_singleton]
  by_cases hN : (p.arrived k).length + 1 = N
  · rw [if_pos ⟨hN, by simp⟩, if_pos hN, add_comm]
    rfl
  · rw [if_neg fun hr => hN hr.1, if_neg hN, add_zero]

theorem Ok.outstanding_advance (h : p.Ok) (hlen : (p.arrived k).length = N) (hadv : p.advanced k < N) :
    p.outstanding = if p.advanced k + 1 = N then release (p.arrived k) ::ₘ (p.advance k).outstanding
      else (p.advance k).outstanding := by
  have hok := h.advance hlen hadv
  by_cases hlast : p.advanced k + 1 = N
  · have hne : p.arrived k ≠ [] := fun hnil => by rw [hnil, List.length_nil] at hlen; omega
    have heq : p.advance k = { p with arrived := update p.arrived k [], advanced := update p.advanced k 0,
                                      open_ := p.open_.erase k } := if_pos hlast
    rw [heq] at hok
    have hbar := h.outstanding_bar (k := k) hok rfl (fun j hj => update_of_ne hj _ _) erase_idem
    have hold : p.released k = {release (p.arrived k)} := if_pos ⟨hlen, hne⟩
    rw [if_pos hlast, heq]
    rw [hold] at hbar
    unfold released at hbar
    rw [if_neg (by simp), add_zero, add_comm] at hbar
    exact hbar.symm
  · rw [if_neg hlast]
    unfold Posted.advance
    rw [if_neg hlast]
    rfl

end Posted

/-! ## The tables keep the tally -/

namespace Posted

variable {N : Nat} {p : Posted N} {k : Nat} {e : Entry}

/-- The entry of barrier `k`. -/
def bar (p : Posted N) (k : Nat) : Option Bar :=
  if p.arrived k = [] then none
  else some { arr := (p.arrived k).length, adv := p.advanced k, maxArr := (release (p.arrived k)).t
              gen := (release (p.arrived k)).gen }

theorem latest_append (l : List Entry) (e : Entry) : latest (l ++ [e]) = max (latest l) e.t := by
  induction l with
  | nil => simp [latest]
  | cons x l ih =>
    show max x.t (latest (l ++ [e])) = max (max x.t (latest l)) e.t
    rw [ih, max_assoc]

theorem bar_arrive (hadv : p.arrived k = [] → p.advanced k = 0) :
    some (((p.bar k).getD {}).arrival e.gen e.t) = (p.arrive k e).bar k := by
  have hself : (p.arrive k e).arrived k = p.arrived k ++ [e] := update_self _ _ _
  unfold bar
  rw [hself, if_neg (by simp : ¬ p.arrived k ++ [e] = [])]
  rcases hl : p.arrived k with _ | ⟨x, l⟩
  · have hadv : p.advanced k = 0 := hadv hl
    rw [if_pos rfl]
    simp [Bar.arrival, release, latest, Posted.arrive, hadv]
  · rw [if_neg (by simp)]
    simp [Bar.arrival, release, ← latest_append, Posted.arrive]

theorem bar_of_arrived (h : p.arrived k ≠ []) : p.bar k = some { arr := (p.arrived k).length, adv := p.advanced k
                                                                 maxArr := (release (p.arrived k)).t
                                                                 gen := (release (p.arrived k)).gen } := if_neg h

end Posted

namespace State

variable {N : Nat} {s : State N} {p : Posted N}

/-- The tables against what was posted. -/
structure Tallied (s : State N) (p : Posted N) : Prop where
  msgs : s.cutWakeMsgs = p.sent
  bars : ∀ k, s.cutWakeBars k = p.bar k
  ok : p.Ok
  gen_le : s.cutWakeGen ≤ s.roiBaseGen
  arrived_le : ∀ k, ∀ e ∈ p.arrived k, e.gen ≤ s.cutWakeGen
  tally : Tally p.outstanding s.cutWakeGen s.cutWakeFloor s.cutWakeStale

theorem tallied_init (delta : Fin N → Int) : (State.init delta).Tallied {} := by
  have hout : ({} : Posted N).outstanding = 0 := by simp [Posted.outstanding]
  refine ⟨rfl, fun _ => rfl, Posted.Ok.init, Nat.le_refl 0, (fun _ _ h => nomatch h), ?_⟩
  rw [hout]
  exact ⟨rfl, rfl, (fun _ h => absurd h (Multiset.notMem_zero _))⟩

theorem cutWakeRebase_roiBaseGen (s : State N) : s.cutWakeRebase.roiBaseGen = s.roiBaseGen := by
  obtain ⟨stale, floor, h⟩ := cutWakeRebase_eq s
  rw [h]

theorem cutWakeRebase_relAxisClock (s : State N) (r : Fin N) : s.cutWakeRebase.relAxisClock r = s.relAxisClock r := by
  obtain ⟨stale, floor, h⟩ := cutWakeRebase_eq s
  rw [h]
  rfl

/-- An origin older than the tables' last is counted. -/
theorem Tallied.rebase (h : s.Tallied p) : s.cutWakeRebase.Tallied p ∧ s.cutWakeRebase.cutWakeGen = s.roiBaseGen := by
  unfold cutWakeRebase
  by_cases hgen : s.roiBaseGen = s.cutWakeGen
  · rw [if_pos hgen]
    exact ⟨h, hgen.symm⟩
  · rw [if_neg hgen]
    have hlt : s.cutWakeGen < s.roiBaseGen := by
      have := h.gen_le
      omega
    exact ⟨⟨h.msgs, h.bars, h.ok, Nat.le_refl _, fun k e he => Nat.le_trans (h.arrived_le k e he) hlt.le, h.tally.rebase hlt⟩, rfl⟩

/-- The entry's removal finds it. -/
structure Found (s : State N) (e : Entry) : Prop where
  older : e.gen ≠ s.cutWakeGen → 0 < s.cutWakeStale
  now : e.gen = s.cutWakeGen → e.t ∈ s.cutWakeFloor

theorem Tally.found {out : Multiset Entry} {e : Entry} (h : Tally (e ::ₘ out) s.cutWakeGen s.cutWakeFloor s.cutWakeStale) :
    s.Found e ∧ Tally out (s.cutWakeDrop e).cutWakeGen (s.cutWakeDrop e).cutWakeFloor (s.cutWakeDrop e).cutWakeStale := by
  refine ⟨⟨fun hne => (h.dropOlder hne).1, fun heq => (h.drop heq).1⟩, ?_⟩
  unfold cutWakeDrop
  by_cases hgen : e.gen = s.cutWakeGen
  · rw [if_neg (not_not.mpr hgen)]
    exact (h.drop hgen).2
  · rw [if_pos hgen]
    exact (h.dropOlder hgen).2

/-- The tables at the current origin. -/
structure InStep (s : State N) (p : Posted N) : Prop extends s.Tallied p where
  gen_eq : s.cutWakeGen = s.roiBaseGen

theorem Tallied.inStep (h : s.Tallied p) : s.cutWakeRebase.InStep p :=
  ⟨h.rebase.1, h.rebase.2.trans (by rw [cutWakeRebase_roiBaseGen])⟩

theorem InStep.send (h : s.InStep p) (src dst : Fin N) (known : Fin N → Bool) {e : Entry} (hgen : e.gen = s.cutWakeGen) :
    InStep { s with
      rankKnown := known
      cutWakeMsgs := update s.cutWakeMsgs src (update (s.cutWakeMsgs src) dst (s.cutWakeMsgs src dst ++ [e]))
      cutWakeFloor := e.t ::ₘ s.cutWakeFloor } (p.send src dst e) := by
  refine ⟨⟨?_, h.bars, h.ok.setSent _ _ _, h.gen_le, h.arrived_le, ?_⟩, h.gen_eq⟩
  · show update s.cutWakeMsgs src _ = update p.sent src _
    rw [h.msgs]
  · rw [Posted.outstanding_send]
    exact h.tally.add hgen

theorem InStep.recv (h : s.InStep p) {src dst : Fin N} {e : Entry} {q : List Entry} (hq : s.cutWakeMsgs src dst = e :: q) :
    s.Found e ∧ ((s.cutWakeDrop e).setMsgs src dst q).InStep (p.receive src dst) := by
  have hsent : p.sent src dst = e :: q := by rw [← h.msgs, hq]
  have htally := h.tally
  rw [Posted.outstanding_receive hsent] at htally
  obtain ⟨hfound, htally⟩ := Tally.found htally
  obtain ⟨stale, floor, hdrop⟩ := cutWakeDrop_eq s e
  rw [hdrop] at htally ⊢
  refine ⟨hfound, ⟨?_, h.bars, h.ok.setSent _ _ _, h.gen_le, h.arrived_le, htally⟩, h.gen_eq⟩
  show update s.cutWakeMsgs src (update (s.cutWakeMsgs src) dst q) =
    update p.sent src (update (p.sent src) dst (p.sent src dst).tail)
  rw [h.msgs, hsent]
  rfl

theorem InStep.arrive (h : s.InStep p) {k : Nat} (hlt : (p.arrived k).length < N) {b : Bar} {e : Entry}
    (hgen : e.gen = s.cutWakeGen) (hb : some b = (p.arrive k e).bar k) :
    InStep (if b.arr = N then
      if b.gen = s.cutWakeGen then { s.setBar k (some b) with cutWakeFloor := b.maxArr ::ₘ s.cutWakeFloor }
      else { s.setBar k (some b) with cutWakeStale := s.cutWakeStale + 1 }
    else s.setBar k (some b)) (p.arrive k e) := by
  have hself : (p.arrive k e).arrived k = p.arrived k ++ [e] := update_self _ _ _
  have hne : (p.arrive k e).arrived k ≠ [] := by
    rw [hself]
    simp
  rw [Posted.bar_of_arrived hne, hself] at hb
  obtain rfl := Option.some.inj hb
  have hbars : ∀ j, (s.setBar k (some { arr := (p.arrived k ++ [e]).length, adv := (p.arrive k e).advanced k
                                        maxArr := (release (p.arrived k ++ [e])).t
                                        gen := (release (p.arrived k ++ [e])).gen })).cutWakeBars j =
      (p.arrive k e).bar j := by
    intro j
    by_cases hjk : j = k
    · rw [hjk, Posted.bar_of_arrived hne, hself]
      exact update_self _ _ _
    · refine (update_of_ne hjk _ _).trans ((h.bars j).trans ?_)
      unfold Posted.bar
      rw [show (p.arrive k e).arrived j = p.arrived j from update_of_ne hjk _ _]
      rfl
  have harr : ∀ j, ∀ x ∈ (p.arrive k e).arrived j, x.gen ≤ s.cutWakeGen := by
    intro j x hx
    by_cases hjk : j = k
    · rw [hjk, hself, List.mem_append, List.mem_singleton] at hx
      rcases hx with hx | rfl
      · exact h.arrived_le k x hx
      · exact hgen.le
    · exact h.arrived_le j x ((update_of_ne hjk _ p.arrived) ▸ (hx : x ∈ update p.arrived k _ j))
  have hrel : (release (p.arrived k ++ [e])).gen ≤ s.cutWakeGen := by
    rcases hl : p.arrived k with _ | ⟨x, l⟩
    · exact hgen.le
    · exact h.arrived_le k x (by rw [hl]; exact List.mem_cons_self)
  have htally := h.tally
  have hout := h.ok.outstanding_arrive hlt e
  have hlen : (p.arrived k ++ [e]).length = (p.arrived k).length + 1 := List.length_append
  dsimp only
  rw [hlen]
  by_cases hN : (p.arrived k).length + 1 = N
  · rw [if_pos hN] at hout
    rw [if_pos hN]
    by_cases hnow : (release (p.arrived k ++ [e])).gen = s.cutWakeGen
    · rw [if_pos hnow]
      exact ⟨⟨h.msgs, hlen ▸ hbars, h.ok.arrive hlt e, h.gen_le, harr, hout ▸ htally.add hnow⟩, h.gen_eq⟩
    · rw [if_neg hnow]
      exact ⟨⟨h.msgs, hlen ▸ hbars, h.ok.arrive hlt e, h.gen_le, harr,
        hout ▸ htally.addOlder (Nat.lt_of_le_of_ne hrel hnow)⟩, h.gen_eq⟩
  · rw [if_neg hN] at hout
    rw [if_neg hN]
    exact ⟨⟨h.msgs, hlen ▸ hbars, h.ok.arrive hlt e, h.gen_le, harr, hout ▸ htally⟩, h.gen_eq⟩

theorem InStep.advance (h : s.InStep p) {k : Nat} (hlen : (p.arrived k).length = N) (hadv : p.advanced k < N)
    {b : Bar} (hb : s.cutWakeBars k = some b) :
    (N ≤ b.adv + 1 → s.Found ⟨b.maxArr, b.gen⟩) ∧
      InStep (if N ≤ b.adv + 1 then (if N ≤ b.arr then s.cutWakeDrop ⟨b.maxArr, b.gen⟩ else s).setBar k none
        else s.setBar k (some { b with adv := b.adv + 1 })) (p.advance k) := by
  have hne : p.arrived k ≠ [] := fun hnil => by
    rw [hnil, List.length_nil] at hlen
    omega
  rw [h.bars k, Posted.bar_of_arrived hne] at hb
  obtain rfl := Option.some.inj hb
  have hok := h.ok.advance hlen hadv
  have hout := h.ok.outstanding_advance hlen hadv
  dsimp only
  rw [if_pos hlen.ge]
  by_cases hlast : p.advanced k + 1 = N
  · -- the last to leave
    have htally := h.tally
    rw [hout, if_pos hlast] at htally
    obtain ⟨hfound, htally⟩ := Tally.found htally
    rw [if_pos hlast.ge]
    obtain ⟨stale, floor, hdrop⟩ := cutWakeDrop_eq s (release (p.arrived k))
    rw [hdrop] at htally ⊢
    have hsent : (p.advance k).sent = p.sent := by
      unfold Posted.advance
      rw [if_pos hlast]
    have harrived : (p.advance k).arrived = update p.arrived k [] := by
      unfold Posted.advance
      rw [if_pos hlast]
    have hadvanced : (p.advance k).advanced = update p.advanced k 0 := by
      unfold Posted.advance
      rw [if_pos hlast]
    refine ⟨fun _ => hfound, ⟨hsent ▸ h.msgs, fun j => ?_, hok, h.gen_le, fun j x hx => ?_, htally⟩, h.gen_eq⟩
    · show update s.cutWakeBars k none j = (p.advance k).bar j
      unfold Posted.bar
      rw [harrived, hadvanced]
      by_cases hjk : j = k
      · rw [hjk, update_self, update_self, if_pos rfl]
      · rw [update_of_ne hjk, update_of_ne hjk, update_of_ne hjk]
        exact h.bars j
    · rw [harrived] at hx
      by_cases hjk : j = k
      · rw [hjk, update_self] at hx
        cases hx
      · rw [update_of_ne hjk] at hx
        exact h.arrived_le j x hx
  · have hmore : ¬ N ≤ p.advanced k + 1 := by omega
    have heq : p.advance k = { p with advanced := update p.advanced k (p.advanced k + 1) } := if_neg hlast
    rw [if_neg hmore]
    rw [heq] at hok ⊢
    rw [if_neg hlast, heq] at hout
    refine ⟨fun hle => absurd hle hmore, ⟨h.msgs, fun j => ?_, hok, h.gen_le, h.arrived_le, hout ▸ h.tally⟩, h.gen_eq⟩
    by_cases hjk : j = k
    · subst hjk
      refine (update_self _ _ _).trans ?_
      unfold Posted.bar
      rw [if_neg hne]
      dsimp only
      rw [update_self]
    · refine (update_of_ne hjk _ _).trans ((h.bars j).trans ?_)
      unfold Posted.bar
      dsimp only
      rw [update_of_ne hjk]

theorem cutWakeArrive_at {s₁ : State N} (h₁ : s.cutWakeRebase = s₁) (r : Fin N) (k : Nat) {b : Bar}
    (hb : ((s₁.cutWakeBars k).getD {}).arrival s₁.cutWakeGen (s₁.relAxisClock r) = b) : s.cutWakeArrive r k =
      if b.arr = N then
        if b.gen = s₁.cutWakeGen then { s₁.setBar k (some b) with cutWakeFloor := b.maxArr ::ₘ s₁.cutWakeFloor }
        else { s₁.setBar k (some b) with cutWakeStale := s₁.cutWakeStale + 1 }
      else s₁.setBar k (some b) := by
  subst h₁ hb
  rfl

theorem Tallied.arrive (h : s.Tallied p) {k : Nat} (hlt : (p.arrived k).length < N) (r : Fin N) :
    (s.cutWakeArrive r k).InStep (p.arrive k ⟨s.relAxisClock r, s.roiBaseGen⟩) := by
  have hin := h.inStep
  have hgen := hin.gen_eq
  rw [cutWakeRebase_roiBaseGen] at hgen
  have hrel := cutWakeRebase_relAxisClock s r
  have hzero : p.arrived k = [] → p.advanced k = 0 := fun hnil => h.ok.advanced_zero k (by
    rw [hnil]
    rw [hnil] at hlt
    exact hlt)
  generalize hs₁ : s.cutWakeRebase = s₁ at hin hgen hrel
  have hb := Posted.bar_arrive (e := ⟨s.relAxisClock r, s.roiBaseGen⟩) hzero
  rw [← hin.bars k] at hb
  rw [cutWakeArrive_at hs₁ r k (by rw [hgen, hrel])]
  exact hin.arrive hlt hgen.symm hb

end State

open State

/-- The entry that a call takes out. -/
def drops {N : Nat} (s : State N) : Call N → Option Entry
  | .recv src dst => (s.cutWakeMsgs src dst).head?
  | .advance k =>
    let b := (s.cutWakeBars k).getD {}
    if N ≤ b.adv + 1 ∧ N ≤ b.arr then some ⟨b.maxArr, b.gen⟩ else none
  | _ => none

variable {N : Nat} {delta : Fin N → Int} {x x' : State N × Posted N} {c : Call N} {es : List Empty}

theorem step_inStep (h : x.1.Tallied x.2) (hs : (tables N delta).step x c = some (x', es)) (hc : c.isTable = true) :
    x'.1.InStep x'.2 ∧ ∀ e, drops x.1 c = some e → x.1.cutWakeRebase.Found e := by
  obtain ⟨s, p⟩ := x
  have hin : s.cutWakeRebase.InStep p := State.Tallied.inStep h
  have hgen : s.cutWakeRebase.cutWakeGen = s.roiBaseGen := (State.Tallied.rebase h).2
  have hmsgs : s.cutWakeRebase.cutWakeMsgs = s.cutWakeMsgs := hin.msgs.trans (Eq.symm h.msgs)
  cases c with
  | send src dst =>
    obtain ⟨rfl, -⟩ := Prod.mk.inj (Option.some.inj hs)
    have hsend := hin.send src dst (s.cutWakeRebase.cutWakeNoteRank src).rankKnown (e := ⟨s.relAxisClock src, s.roiBaseGen⟩)
      hgen.symm
    refine ⟨?_, (fun _ he => nomatch he)⟩
    show (s.cutWakeSend src dst).InStep _
    unfold cutWakeSend
    dsimp only
    rw [cutWakeRebase_relAxisClock, show (s.cutWakeRebase.cutWakeNoteRank src).cutWakeGen = s.roiBaseGen from hgen]
    exact hsend
  | recv src dst =>
    have hs : (if p.sent src dst ≠ [] then some ((s.cutWakeRecv src dst, p.receive src dst), []) else none) =
      some (x', es) := hs
    split at hs
    · next hne =>
      obtain ⟨rfl, -⟩ := Prod.mk.inj (Option.some.inj hs)
      obtain ⟨e, q, hq⟩ := List.exists_cons_of_ne_nil hne
      rw [← show s.cutWakeRebase.cutWakeMsgs = p.sent from hin.msgs] at hq
      obtain ⟨hfound, hrecv⟩ := hin.recv hq
      refine ⟨?_, fun e' he' => ?_⟩
      · show (s.cutWakeRecv src dst).InStep _
        unfold cutWakeRecv
        dsimp only
        rw [hq]
        exact hrecv
      · have hhead : (s.cutWakeMsgs src dst).head? = some e' := he'
        rw [← hmsgs, hq] at hhead
        exact Option.some.inj hhead ▸ hfound
    · cases hs
  | arrive r k =>
    have hs : (if (p.arrived k).length < N then
      some ((s.cutWakeArrive r k, p.arrive k ⟨s.relAxisClock r, s.roiBaseGen⟩), []) else none) = some (x', es) := hs
    split at hs
    · next hlt =>
      obtain ⟨rfl, -⟩ := Prod.mk.inj (Option.some.inj hs)
      exact ⟨State.Tallied.arrive h hlt r, (fun _ he => nomatch he)⟩
    · cases hs
  | advance k =>
    have hs : (if (p.arrived k).length = N ∧ p.advanced k < N then some ((s.cutWakeAdvance k, p.advance k), []) else none) =
      some (x', es) := hs
    split at hs
    · next hguard =>
      obtain ⟨rfl, -⟩ := Prod.mk.inj (Option.some.inj hs)
      have hne : p.arrived k ≠ [] := fun hnil => by
        rw [hnil, List.length_nil] at hguard
        omega
      have hb := hin.bars k
      rw [Posted.bar_of_arrived hne] at hb
      obtain ⟨hfound, hadv⟩ := hin.advance hguard.1 hguard.2 hb
      refine ⟨?_, fun e he => ?_⟩
      · show (s.cutWakeAdvance k).InStep _
        unfold cutWakeAdvance
        dsimp only
        rw [hb]
        exact hadv
      · have hb' : s.cutWakeBars k = s.cutWakeRebase.cutWakeBars k := (h.bars k).trans (hin.bars k).symm
        unfold drops at he
        dsimp only at he
        rw [hb', hb] at he
        split at he
        · next hlast =>
          exact Option.some.inj he ▸ hfound hlast.1
        · cases he
    · cases hs
  | floor =>
    obtain ⟨rfl, -⟩ := Prod.mk.inj (Option.some.inj hs)
    exact ⟨hin, (fun _ he => nomatch he)⟩
  | clocks => cases hc
  | origin => cases hc

theorem step_tallied (h : x.1.Tallied x.2) (hs : (tables N delta).step x c = some (x', es)) : x'.1.Tallied x'.2 := by
  by_cases hc : c.isTable = true
  · exact (step_inStep h hs hc).1.toTallied
  · cases c with
    | clocks clock delta =>
      obtain ⟨rfl, -⟩ := Prod.mk.inj (Option.some.inj hs)
      exact ⟨h.msgs, h.bars, h.ok, h.gen_le, h.arrived_le, h.tally⟩
    | origin =>
      obtain ⟨rfl, -⟩ := Prod.mk.inj (Option.some.inj hs)
      exact ⟨h.msgs, h.bars, h.ok, Nat.le_succ_of_le h.gen_le, h.arrived_le, h.tally⟩
    | _ => exact absurd rfl hc

theorem run_tallied {l : List Empty} (run : (tables N delta).Run x l) : x.1.Tallied x.2 :=
  run.inv (I := fun x _ => x.1.Tallied x.2) (tallied_init delta) fun hx hs => step_tallied hx hs

/-- **After every call of the tables, whatever origins the entries were made under, the floor holds the times of the
outstanding entries of the current origin, the stale count is the number of the older ones, what the call took out it
found, and the earliest wake is 0 while an older entry is outstanding and the earliest of the outstanding ones after.** -/
theorem floor_and_stale {l : List Empty} (run : (tables N delta).Run x l)
    (hs : (tables N delta).step x c = some (x', es)) (hc : c.isTable = true) :
    x'.1.cutWakeFloor = (x'.2.outstanding.filter fun e => e.gen = x'.1.roiBaseGen).map Entry.t ∧
      x'.1.cutWakeStale = (x'.2.outstanding.filter fun e => e.gen < x'.1.roiBaseGen).card ∧
      (∀ e, drops x.1 c = some e → x.1.cutWakeRebase.Found e) ∧
      (cutWakeFloor x'.1).2 = if x'.2.outstanding.filter (fun e => e.gen < x'.1.roiBaseGen) ≠ 0 then 0
        else (x'.2.outstanding.map fun e => (e.t : WithTop Nat)).inf := by
  obtain ⟨hin, hfound⟩ := step_inStep (run_tallied run) hs hc
  obtain ⟨hfloor, hstale, hle⟩ := hin.tally
  rw [hin.gen_eq] at hfloor hstale hle
  have hother : (x'.2.outstanding.filter fun e => e.gen ≠ x'.1.roiBaseGen) =
      x'.2.outstanding.filter fun e => e.gen < x'.1.roiBaseGen := by
    refine Multiset.filter_congr fun e he => ?_
    have := hle e he
    omega
  rw [hother] at hstale
  refine ⟨hfloor, hstale, hfound, ?_⟩
  have hre : x'.1.cutWakeRebase = x'.1 := if_pos hin.gen_eq.symm
  unfold cutWakeFloor
  dsimp only
  rw [hre]
  by_cases hnone : x'.2.outstanding.filter (fun e => e.gen < x'.1.roiBaseGen) = 0
  · rw [hnone, Multiset.card_zero] at hstale
    rw [if_neg (not_not.mpr hstale), if_neg (not_not.mpr hnone), hfloor, Multiset.map_map]
    have hall : (x'.2.outstanding.filter fun e => e.gen = x'.1.roiBaseGen) = x'.2.outstanding := by
      refine Multiset.filter_eq_self.mpr fun e he => ?_
      have := hle e he
      have := Multiset.filter_eq_nil.mp hnone e he
      omega
    rw [hall]
    rfl
  · have hpos := Multiset.card_pos.mpr hnone
    rw [if_pos hnone, if_pos (by omega)]

/-- A message and the first of two arrivals, a move of the origins, and the second arrival. -/
def straddle : State 2 × Posted 2 :=
  let a : Fin 2 := ⟨0, Nat.two_pos⟩
  let b : Fin 2 := ⟨1, Nat.one_lt_two⟩
  let s := ((State.init fun _ => 0).cutWakeSend a b).cutWakeArrive a 0
  (({ s with roiBaseGen := s.roiBaseGen + 1 } : State 2).cutWakeArrive b 0,
    ((({} : Posted 2).send a b ⟨0, 0⟩).arrive 0 ⟨0, 0⟩).arrive 0 ⟨0, 1⟩)

theorem straddle_run : (tables 2 fun _ => 0).Run straddle [] := by
  have hexec : (tables 2 fun _ => 0).exec (tables 2 fun _ => 0).init [.send 0 1, .arrive 0 0, .origin, .arrive 1 0] =
      some (straddle, []) := rfl
  exact Machine.Run.start.exec hexec

/-- The receive takes one of the two older entries. -/
theorem floor_and_stale_straddle : straddle.1.cutWakeStale = 2 ∧
    (straddle.1.cutWakeRecv 0 1).cutWakeStale =
      ((straddle.2.receive 0 1).outstanding.filter fun e => e.gen < (straddle.1.cutWakeRecv 0 1).roiBaseGen).card ∧
    straddle.1.cutWakeRebase.Found ⟨0, 0⟩ := by
  have h := floor_and_stale straddle_run (c := .recv 0 1) rfl rfl
  exact ⟨rfl, h.2.1, h.2.2.1 ⟨0, 0⟩ rfl⟩

end Pimid.Cut
