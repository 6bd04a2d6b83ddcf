import Pimid.Dram.Balance
import Pimid.Lib.Sweep
import Pimid.Lib.Ties
import Mathlib.Data.Prod.Lex

/-!
# Feeding an epoch to the replay

At an epoch's end, or before it for the settling cores, the records that the threads have
appended are sorted by stamp, interface, address and type and handed one by one to their
core's queue, or to the controller. On the way each core's charged accesses are united:
their charges over the time they cover is the core's overlap.

`std::sort` leaves open how records stand that the comparison does not tell apart. Doubles
are exact rationals.
-/

namespace Pimid.Dram.Feed

/-! ## The order -/

structure Rec where
  stamp : Nat
  addr : Nat
  mi : Nat
  wr : Bool
  core : Nat
  chg : Nat
  hold : Bool
  shadow : Bool := false
  tail : Bool := false
deriving DecidableEq

/-- The comparison of the sort. -/
def before (a b : Rec) : Bool :=
  if a.stamp ≠ b.stamp then decide (a.stamp < b.stamp)
  else if a.mi ≠ b.mi then decide (a.mi < b.mi)
  else if a.addr ≠ b.addr then decide (a.addr < b.addr)
  else decide (a.wr < b.wr)

/-- What `std::sort` may make of the records. -/
structure Sorted (recs out : List Rec) : Prop where
  perm : out.Perm recs
  ordered : out.Pairwise fun a b => before b a = false

/-- What the feed knows of the ROI. -/
structure Gate where
  ticksPerCycle : ℚ
  cutMode : Bool
  roiTick0 : Nat
  closeArmed : Bool
  closeTick : Nat

def Gate.target (g : Gate) (r : Rec) : Nat :=
  Nat.floor ((r.stamp : ℚ) * g.ticksPerCycle) + if g.cutMode then g.roiTick0 else 0

/-- Outside the ROI. -/
def Gate.out (g : Gate) (r : Rec) : Bool :=
  (g.closeArmed && decide (g.target r > g.closeTick)) || r.tail

structure Waiting where
  r : Rec
  target : Nat
  out : Bool

/-- The sorted records as they are handed on: each to its core's queue where the closed loop
has the core, else to the controller. -/
def handOn (g : Gate) (closed : Nat → Bool) (recs : List Rec) : List (Option Nat × Waiting) :=
  recs.map fun r => (if closed r.core then some r.core else none, ⟨r, g.target r, g.out r⟩)

/-! ## The arrival order -/

/-- What is compared: stamp, interface, address and type, then core, charge and hold. -/
def seen (r : Rec) : (Nat ×ₗ Nat ×ₗ Nat ×ₗ Bool) × (Nat × Nat × Bool) :=
  (toLex (r.stamp, toLex (r.mi, toLex (r.addr, r.wr))), (r.core, r.chg, r.hold))

def seenOf (handed : List (Option Nat × Waiting)) : List ((Nat ×ₗ Nat ×ₗ Nat ×ₗ Bool) × (Nat × Nat × Bool)) :=
  handed.map fun d => seen d.2.r

theorem seenOf_handOn (g : Gate) (closed : Nat → Bool) (recs : List Rec) : seenOf (handOn g closed recs) = recs.map seen := by
  rw [seenOf, handOn, List.map_map]
  rfl

theorem before_eq (a b : Rec) : before a b = decide ((seen a).1 < (seen b).1) := by
  rw [before, seen, seen, Bool.eq_iff_iff, decide_eq_true_iff]
  simp only [Prod.Lex.toLex_lt_toLex]
  by_cases h₁ : a.stamp = b.stamp
  · by_cases h₂ : a.mi = b.mi
    · by_cases h₃ : a.addr = b.addr
      · simp [h₁, h₂, h₃]
      · simp [h₁, h₂, h₃]
    · simp [h₁, h₂]
  · simp [h₁]

theorem Sorted.le {recs out : List Rec} (h : Sorted recs out) :
    out.Pairwise fun a b => (seen a).1 ≤ (seen b).1 :=
  h.ordered.imp fun hab => not_lt.mp fun hlt => by
    rw [before_eq, decide_eq_true hlt] at hab
    exact absurd hab (by decide)

theorem notBefore_eq : (fun a b => !before b a) = keyLe (fun s => s.1) seen := by
  funext a b
  rw [before_eq, keyLe, ← decide_not]
  exact decide_eq_decide.mpr not_lt

theorem sorted_stable (recs : List Rec) : Sorted recs (recs.mergeSort fun a b => !before b a) := by
  refine ⟨List.mergeSort_perm _ _, ?_⟩
  rw [notBefore_eq]
  refine (sorted_mergeSort recs).imp fun hab => ?_
  rw [before_eq]
  exact decide_eq_false (not_lt.mpr hab)

/-- Records that the comparison does not tell apart have one core, charge and hold. -/
def TiesAlike (recs : List Rec) : Prop :=
  ∀ a ∈ recs, ∀ b ∈ recs, a.stamp = b.stamp → a.mi = b.mi → a.addr = b.addr → a.wr = b.wr →
    a.core = b.core ∧ a.chg = b.chg ∧ a.hold = b.hold

instance (recs : List Rec) : Decidable (TiesAlike recs) := inferInstanceAs (Decidable (∀ _ ∈ recs, ∀ _ ∈ recs, _))

theorem tiesAlike_iff (recs : List Rec) : TiesAlike recs ↔ LookAlike (fun s => s.1) seen recs := by
  refine forall₂_congr fun a _ => forall₂_congr fun b _ => ?_
  simp only [seen, Prod.mk.injEq, EmbeddingLike.apply_eq_iff_eq]
  tauto

/-- **The arrival order**: it leaves no trace in what is handed on, whatever the sort does with
ties, exactly when tied records have one core, charge and hold; and a stable sort shows it
in every other epoch. -/
theorem arrival_order_free (recs : List Rec) :
    ((∀ recs₁ recs₂ out₁ out₂ : List Rec, recs₁.Perm recs → recs₂.Perm recs → Sorted recs₁ out₁ → Sorted recs₂ out₂ →
        ∀ (g : Gate) (closed : Nat → Bool), seenOf (handOn g closed out₁) = seenOf (handOn g closed out₂)) ↔
      TiesAlike recs) ∧
    ((∀ recs₁ recs₂ : List Rec, recs₁.Perm recs → recs₂.Perm recs → ∀ (g : Gate) (closed : Nat → Bool),
        seenOf (handOn g closed (recs₁.mergeSort fun a b => !before b a)) =
          seenOf (handOn g closed (recs₂.mergeSort fun a b => !before b a))) ↔
      TiesAlike recs) := by
  have hany : TiesAlike recs → ∀ recs₁ recs₂ out₁ out₂ : List Rec, recs₁.Perm recs → recs₂.Perm recs → Sorted recs₁ out₁ →
      Sorted recs₂ out₂ → ∀ (g : Gate) (closed : Nat → Bool), seenOf (handOn g closed out₁) = seenOf (handOn g closed out₂) := by
    intro h recs₁ recs₂ out₁ out₂ h₁ h₂ hs₁ hs₂ g closed
    rw [seenOf_handOn, seenOf_handOn]
    exact ((tiesAlike_iff recs).mp h).sorted_eq (hs₁.perm.trans h₁) (hs₂.perm.trans h₂) hs₁.le hs₂.le
  have hstable : (∀ recs₁ recs₂ : List Rec, recs₁.Perm recs → recs₂.Perm recs → ∀ (g : Gate) (closed : Nat → Bool),
      seenOf (handOn g closed (recs₁.mergeSort fun a b => !before b a)) =
        seenOf (handOn g closed (recs₂.mergeSort fun a b => !before b a))) → TiesAlike recs := by
    intro h
    rw [tiesAlike_iff, ← mergeSort_view_iff]
    intro recs₁ recs₂ h₁ h₂
    have hsame := h recs₁ recs₂ h₁ h₂ ⟨1, false, 0, false, 0⟩ fun _ => true
    rwa [seenOf_handOn, seenOf_handOn, notBefore_eq] at hsame
  refine ⟨⟨fun h => hstable fun recs₁ recs₂ h₁ h₂ => ?_, hany⟩, hstable, fun h recs₁ recs₂ h₁ h₂ => ?_⟩
  · exact h recs₁ recs₂ _ _ h₁ h₂ (sorted_stable _) (sorted_stable _)
  · exact hany h recs₁ recs₂ _ _ h₁ h₂ (sorted_stable _) (sorted_stable _)

/-- Two cores that read one line through one interface in the same cycle, charged differently:
who comes first goes first. -/
theorem arrival_order_seen :
    let a : Rec := ⟨100, 64, 0, false, 0, 20, true, false, false⟩
    let b : Rec := ⟨100, 64, 0, false, 1, 30, true, false, false⟩
    [a, b].Perm [b, a] ∧ Sorted [a, b] [a, b] ∧ Sorted [b, a] [b, a] ∧
      (seenOf (handOn ⟨1, false, 0, false, 0⟩ (fun _ => false) ([a, b].mergeSort fun a b => !before b a))).map (·.2.1) = [0, 1] ∧
      (seenOf (handOn ⟨1, false, 0, false, 0⟩ (fun _ => false) ([b, a].mergeSort fun a b => !before b a))).map (·.2.1) = [1, 0] := by
  refine ⟨by decide, ⟨.refl _, by decide⟩, ⟨.refl _, by decide⟩, ?_, ?_⟩
  · rw [seenOf_handOn, List.mergeSort_of_pairwise (by decide)]
    decide
  · rw [seenOf_handOn, List.mergeSort_of_pairwise (by decide)]
    decide

/-! ## The overlap -/

/-- Held, charged, of a core, and in the ROI. -/
def Gate.counts (g : Gate) (r : Rec) : Bool :=
  r.hold && decide (r.chg ≠ 0) && decide (r.core ≠ noCore) && !r.shadow && !g.out r

/-- A record joins its core's accounts: it extends the open interval, or opens one. -/
def add (a : RecAcc) (r : Rec) : RecAcc :=
  let s : ℚ := r.stamp
  let e : ℚ := (r.stamp + r.chg : Nat)
  if a.ropen = false ∨ s > a.re then
    { chg := a.chg + r.chg, uni := if a.ropen then a.uni + (a.re - a.rs) else a.uni, rs := s, re := e, ropen := true }
  else if e > a.re then { a with chg := a.chg + r.chg, re := e }
  else { a with chg := a.chg + r.chg }

def fresh : RecAcc := ⟨0, 0, 0, 0, false⟩

/-- An epoch's `acc.rec`. -/
abbrev Accs := Nat → Option RecAcc

def recFeed (g : Gate) (acc : Accs) (recs : List Rec) : Accs :=
  recs.foldl (fun acc r =>
    if g.counts r then Function.update acc r.core (some (add ((acc r.core).getD fresh) r)) else acc) acc

/-- An epoch fed in parts, each as the gate stands then. -/
def feedParts (parts : List (Gate × List Rec)) : Accs :=
  parts.foldl (fun acc p => recFeed p.1 acc p.2) fun _ => none

/-- The records that count, in the order they are fed. -/
def counted (parts : List (Gate × List Rec)) : List Rec := parts.flatMap fun p => p.2.filter p.1.counts

def ofCore (core : Nat) (recs : List Rec) : List Rec := recs.filter fun r => decide (r.core = core)

/-- The charged intervals. -/
def charged (recs : List Rec) : List (Nat × Nat) := recs.map fun r => (r.stamp, r.stamp + r.chg)

/-- The accounts of a core after its records. -/
def account (recs : List Rec) : RecAcc := recs.foldl add fresh

theorem recFeed_eq (g : Gate) (acc : Accs) (recs : List Rec) (core : Nat) :
    ((recFeed g acc recs) core).getD fresh = (ofCore core (recs.filter g.counts)).foldl add ((acc core).getD fresh) := by
  induction recs generalizing acc with
  | nil => rfl
  | cons r recs ih =>
    have hstep : recFeed g acc (r :: recs) = recFeed g (if g.counts r then
        Function.update acc r.core (some (add ((acc r.core).getD fresh) r)) else acc) recs := rfl
    rw [hstep, ih]
    by_cases hc : g.counts r
    · rw [if_pos hc, List.filter_cons_of_pos hc]
      by_cases hr : r.core = core
      · have hmine : ofCore core (r :: recs.filter g.counts) = r :: ofCore core (recs.filter g.counts) :=
          List.filter_cons_of_pos (by simp [hr])
        rw [hmine, List.foldl_cons, hr, Function.update_self]
        rfl
      · have hother : ofCore core (r :: recs.filter g.counts) = ofCore core (recs.filter g.counts) :=
          List.filter_cons_of_neg (by simp [hr])
        rw [hother, Function.update_of_ne (Ne.symm hr)]
    · rw [if_neg hc, List.filter_cons_of_neg hc]

theorem feedParts_eq (parts : List (Gate × List Rec)) (core : Nat) :
    ((feedParts parts) core).getD fresh = account (ofCore core (counted parts)) := by
  rw [account]
  induction parts using List.reverseRecOn with
  | nil => rfl
  | append_singleton parts p ih =>
    have hlast : feedParts (parts ++ [p]) = recFeed p.1 (feedParts parts) p.2 := by
      rw [feedParts, List.foldl_append]
      rfl
    rw [hlast, recFeed_eq, ih, ← List.foldl_append]
    simp [ofCore, counted]

/-- What the accounts hold: the charges, and a sweep of the charged intervals. -/
structure Swept (recs : List Rec) (a : RecAcc) : Prop where
  chg : a.chg = ((recs.map (·.chg)).sum : Nat)
  uni : uniOf a = (swept (charged recs) : Nat)
  opened : a.ropen = true ↔ recs ≠ []
  reached : a.ropen = true → a.re = (reach (charged recs) : Nat)

theorem Swept.snoc {recs : List Rec} {a : RecAcc} (h : Swept recs a) (r : Rec) : Swept (recs ++ [r]) (add a r) := by
  have hchg : a.chg + (r.chg : ℚ) = (((recs ++ [r]).map (·.chg)).sum : Nat) := by
    rw [h.chg]
    simp
  have hlist : charged (recs ++ [r]) = charged recs ++ [(r.stamp, r.stamp + r.chg)] := by simp [charged]
  have hopened : true = true ↔ recs ++ [r] ≠ [] := by simp
  have huni := h.uni
  rw [uniOf] at huni
  by_cases ho : a.ropen = true
  · have hre := h.reached ho
    rw [if_pos ho] at huni
    rcases Nat.lt_or_ge (reach (charged recs)) r.stamp with hs | hs
    · -- past the open interval
      have hnew : add a r = ⟨a.chg + r.chg, a.uni + (a.re - a.rs), r.stamp, (r.stamp + r.chg : Nat), true⟩ := by
        rw [add]
        rw [if_pos (.inr (by rw [hre]; exact_mod_cast hs)), if_pos ho]
      rw [hnew]
      refine ⟨hchg, ?_, hopened, fun _ => ?_⟩
      · rw [uniOf, if_pos rfl, huni, hlist, swept_concat]
        dsimp only
        rw [max_eq_left hs.le, Nat.add_sub_cancel_left]
        push_cast
        ring
      · rw [hlist, reach_concat, max_eq_right (by dsimp only; omega)]
    · have hinside : ¬(a.ropen = false ∨ (r.stamp : ℚ) > a.re) := by
        rw [hre, ho, not_or]
        exact ⟨by decide, not_lt.mpr (by exact_mod_cast hs)⟩
      rcases Nat.lt_or_ge (reach (charged recs)) (r.stamp + r.chg) with he | he
      · -- it extends the open interval
        have hnew : add a r = { a with chg := a.chg + r.chg, re := (r.stamp + r.chg : Nat) } := by
          rw [add]
          rw [if_neg hinside, if_pos (by rw [hre]; exact_mod_cast he)]
        rw [hnew]
        refine ⟨hchg, ?_, ho.symm ▸ hopened, fun _ => ?_⟩
        · rw [uniOf, hlist, swept_concat]
          dsimp only
          rw [if_pos ho, max_eq_right hs, Nat.cast_add (swept _), ← huni, hre, Nat.cast_sub he.le]
          ring
        · rw [hlist, reach_concat, max_eq_right he.le]
      · -- it lies within what is reached
        have hnew : add a r = { a with chg := a.chg + r.chg } := by
          rw [add]
          rw [if_neg hinside, if_neg (by rw [hre]; exact not_lt.mpr (by exact_mod_cast he))]
        rw [hnew]
        refine ⟨hchg, ?_, ho.symm ▸ hopened, fun _ => ?_⟩
        · rw [uniOf, hlist, swept_concat]
          dsimp only
          rw [if_pos ho, max_eq_right hs, Nat.sub_eq_zero_of_le he, Nat.add_zero]
          exact huni
        · rw [hlist, reach_concat, max_eq_left he]
          exact hre
  · -- the first record
    have hnil : recs = [] := by
      by_contra hne
      exact ho (h.opened.mpr hne)
    have hnew : add a r = ⟨a.chg + r.chg, a.uni, r.stamp, (r.stamp + r.chg : Nat), true⟩ := by
      rw [add]
      rw [if_pos (.inl (Bool.eq_false_iff.mpr ho)), if_neg ho]
    rw [if_neg ho, add_zero] at huni
    rw [hnew]
    subst hnil
    refine ⟨hchg, ?_, hopened, fun _ => ?_⟩
    · rw [uniOf, if_pos rfl, huni, hlist, swept_concat]
      simp [charged, reach]
    · rw [hlist, reach_concat]
      simp [charged, reach]

theorem swept_account (recs : List Rec) : Swept recs (account recs) := by
  induction recs using List.reverseRecOn with
  | nil => exact ⟨by simp [account, fresh], by simp [account, fresh, uniOf, charged], by simp [account, fresh],
      fun h => absurd h (by simp [account, fresh])⟩
  | append_singleton recs r ih =>
    have hlast : account (recs ++ [r]) = add (account recs) r := by
      rw [account, List.foldl_append]
      rfl
    rw [hlast]
    exact ih.snoc r

/-- The length of the union of a core's charged intervals as the accounts have it. -/
def uniAt (acc : Accs) (core : Nat) : ℚ := uniOf ((acc core).getD fresh)

def chgAt (acc : Accs) (core : Nat) : ℚ := ((acc core).getD fresh).chg

/-- The parts unite as the whole: the accounts of a core are its charges and the measure of
the union, and those of one feed of the same records in stamp order. -/
structure Unites (parts : List (Gate × List Rec)) (core : Nat) : Prop where
  chg : chgAt (feedParts parts) core = (((ofCore core (counted parts)).map (·.chg)).sum : Nat)
  uni : uniAt (feedParts parts) core = ((covered (charged (ofCore core (counted parts)))).card : Nat)
  whole : ∀ (g : Gate) (recs : List Rec), recs.Perm (counted parts) → recs.Pairwise (fun a b => a.stamp ≤ b.stamp) →
    (∀ r ∈ recs, g.counts r = true) → let acc := recFeed g (fun _ => none) recs
      uniAt acc core = uniAt (feedParts parts) core ∧ chgAt acc core = chgAt (feedParts parts) core

theorem uniAt_feedParts (parts : List (Gate × List Rec)) (core : Nat) :
    uniAt (feedParts parts) core = (swept (charged (ofCore core (counted parts))) : Nat) := by
  rw [uniAt, feedParts_eq]
  exact (swept_account _).uni

theorem chgAt_feedParts (parts : List (Gate × List Rec)) (core : Nat) :
    chgAt (feedParts parts) core = (((ofCore core (counted parts)).map (·.chg)).sum : Nat) := by
  rw [chgAt, feedParts_eq]
  exact (swept_account _).chg

theorem covered_perm {xs ys : List (Nat × Nat)} (h : xs.Perm ys) : covered xs = covered ys := by
  ext n
  simp only [mem_covered, h.mem_iff]

/-- **The overlap of an epoch fed in parts**: the charges add up, the time is never more than
the union, and it is the union, as of one feed, exactly when no record meets a gap that the
records fed before it left below their furthest end. -/
theorem overlap_parts (parts : List (Gate × List Rec)) (core : Nat) :
    uniAt (feedParts parts) core ≤ ((covered (charged (ofCore core (counted parts)))).card : Nat) ∧
      (Unites parts core ↔ Filled (charged (ofCore core (counted parts)))) := by
  have huni := uniAt_feedParts parts core
  refine ⟨by rw [huni]; exact_mod_cast swept_le_card _, fun h => ?_, fun h => ?_⟩
  · have hcard := h.uni
    rw [huni] at hcard
    exact (swept_eq_card_iff _).mp (by exact_mod_cast hcard)
  · have hcard := (swept_eq_card_iff _).mpr h
    refine ⟨chgAt_feedParts parts core, by rw [huni, hcard], fun g recs hperm hsorted hcounts => ?_⟩
    -- one feed in stamp order passes no gap that is filled later
    have hone : feedParts [(g, recs)] = recFeed g (fun _ => none) recs := rfl
    have hall : counted [(g, recs)] = recs := by
      rw [counted, List.flatMap_singleton]
      exact List.filter_eq_self.mpr hcounts
    have hmine : (ofCore core recs).Perm (ofCore core (counted parts)) := hperm.filter _
    have hfilled : Filled (charged (ofCore core recs)) :=
      filled_of_sorted (List.pairwise_map.mpr (hsorted.sublist List.filter_sublist))
    have hsame : covered (charged (ofCore core recs)) = covered (charged (ofCore core (counted parts))) :=
      covered_perm (hmine.map _)
    refine ⟨?_, ?_⟩
    · rw [← hone, uniAt_feedParts, hall, huni, (swept_eq_card_iff _).mpr hfilled, hcard, hsame]
    · rw [← hone, chgAt_feedParts, hall, chgAt_feedParts, (hmine.map (·.chg)).sum_eq]

/-- A core charged a cycle at 5, fed, and then a cycle at 0: one of the two is not covered. -/
theorem overlap_parts_gap :
    let g : Gate := ⟨1, false, 0, false, 0⟩
    let parts : List (Gate × List Rec) := [(g, [⟨5, 64, 0, false, 0, 1, true, false, false⟩]), (g, [⟨0, 128, 0, false, 0, 1, true, false, false⟩])]
    uniAt (feedParts parts) 0 = 1 ∧ (covered (charged (ofCore 0 (counted parts)))).card = 2 ∧ ¬Unites parts 0 := by
  intro g parts
  have hcounted : charged (ofCore 0 (counted parts)) = [(5, 6), (0, 1)] := by decide
  have huni : uniAt (feedParts parts) 0 = 1 := by
    rw [uniAt_feedParts, hcounted]
    rfl
  have hcard : (covered (charged (ofCore 0 (counted parts)))).card = 2 := by
    rw [hcounted]
    decide
  refine ⟨huni, hcard, fun h => ?_⟩
  have hequal := h.uni
  rw [huni, hcard] at hequal
  norm_num at hequal

end Pimid.Dram.Feed
