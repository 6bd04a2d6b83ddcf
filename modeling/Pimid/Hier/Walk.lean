import Mathlib.Algebra.BigOperators.Fin
import Mathlib.Algebra.Order.BigOperators.Group.List
import Mathlib.Algebra.Order.Ring.Nat
import Mathlib.Order.Interval.Finset.Nat
import Mathlib.Data.List.Range
import Pimid.Hier.Position

/-!
# The tier walk

`computeHierTraversal` charges the walk from one unit up to the lowest common ancestor and
down to the other; `hierTraversalLevels` counts the tiers it visits. The host controller,
placement 7, has no tree: one crossing, one link.
-/

namespace Pimid.Hier

open Finset (range)

/-! ## The code -/

def computeLCA (a b : HierPos) : Nat :=
  if a.system ≠ b.system then 6
  else if a.channel ≠ b.channel then 5
  else if a.rank ≠ b.rank then 4
  else if a.chip ≠ b.chip then 3
  else if a.bank_group ≠ b.bank_group then 2
  else if a.bank ≠ b.bank then 1
  else if a.subarray ≠ b.subarray then 0
  else 0

/-- The levels of the loops `for (int l = start; l < lca; l++)`. -/
def levels (start lca : Nat) : List Nat := List.range' start (lca - start)

def computeHierTraversal (src dst : UInt32) (levelLatency bridgeLatency : Nat → UInt32) (placement : UInt32) (f : Fans) :
    UInt64 :=
  if src = dst then 0
  else if placement ≥ 7 then (levelLatency 7).toUInt64
  else
    let lca := computeLCA (unitToHierPos src placement f) (unitToHierPos dst placement f)
    let start := placement.toNat
    let up := (levels start lca).foldl (fun total l =>
      let total := total + (levelLatency l).toUInt64
      if l < 6 then total + (bridgeLatency l).toUInt64 else total) 0
    let atLca := up + (levelLatency lca).toUInt64
    (levels start lca).reverse.foldl (fun total l =>
      let total := if l < 6 then total + (bridgeLatency l).toUInt64 else total
      total + (levelLatency l).toUInt64) atLca

/-- The link count, and `perLevel`. -/
def hierTraversalLevels (src dst placement : UInt32) (f : Fans) : UInt32 × (Nat → UInt32) :=
  let perLevel : Nat → UInt32 := fun _ => 0
  if placement ≥ 7 then (1, Function.update perLevel 7 1)
  else if src = dst then (0, perLevel)
  else
    let lca := computeLCA (unitToHierPos src placement f) (unitToHierPos dst placement f)
    let start := placement.toNat
    let below := (levels start lca).foldl (fun per l => if l < 7 then Function.update per l (per l + 2) else per) perLevel
    (if lca > start then .ofNat (2 * (lca - start)) else 0,
      if lca < 7 then Function.update below lca (below lca + 1) else below)

/-! ## What a walk visits -/

theorem computeLCA_le (a b : HierPos) : computeLCA a b ≤ 6 := by
  unfold computeLCA
  split_ifs <;> omega

theorem computeLCA_comm (a b : HierPos) : computeLCA a b = computeLCA b a := by
  simp only [computeLCA, ne_comm (a := a.system), ne_comm (a := a.channel), ne_comm (a := a.rank), ne_comm (a := a.chip),
    ne_comm (a := a.bank_group), ne_comm (a := a.bank), ne_comm (a := a.subarray)]

/-- Twice below the ancestor, once at it. -/
def visits (start lca l : Nat) : Nat := (if start ≤ l ∧ l < lca then 2 else 0) + if l = lca then 1 else 0

variable {src dst placement : UInt32} {f : Fans} {level bridge : Nat → UInt32} {start lca : Nat}

/-- The ancestor of two units. -/
def ancestor (src dst placement : UInt32) (f : Fans) : Nat :=
  computeLCA (unitToHierPos src placement f) (unitToHierPos dst placement f)

theorem ancestor_le : ancestor src dst placement f ≤ 6 := computeLCA_le _ _

theorem foldl_perLevel {n : Nat} (hn : start + n ≤ 7) (l : Nat) :
    ((List.range' start n).foldl (fun per l => if l < 7 then Function.update per l (per l + 2) else per)
      (fun _ => (0 : UInt32))) l = if start ≤ l ∧ l < start + n then 2 else 0 := by
  induction n generalizing l with
  | zero =>
    rw [if_neg (by omega)]
    rfl
  | succ n ih =>
    rw [List.range'_concat, List.foldl_append, List.foldl_cons, List.foldl_nil, Nat.one_mul, if_pos (by omega)]
    by_cases hl : l = start + n
    · -- the level is new to the walk
      rw [hl, Function.update_self, ih (by omega), if_neg (by omega), if_pos (by omega)]
      rfl
    · rw [Function.update_of_ne hl, ih (by omega)]
      exact if_congr (by omega) rfl rfl

/-- What the counting walk returns for two units of the tree. -/
theorem hierTraversalLevels_eq (hp : placement.toNat < 7) (hne : src ≠ dst) :
    (hierTraversalLevels src dst placement f).1.toNat = 2 * (ancestor src dst placement f - placement.toNat) ∧
      ∀ l, ((hierTraversalLevels src dst placement f).2 l).toNat =
        visits placement.toNat (ancestor src dst placement f) l := by
  have hlca : ancestor src dst placement f ≤ 6 := ancestor_le
  have hge : ¬placement ≥ 7 := by
    rw [ge_iff_le, UInt32.le_iff_toNat_le]
    exact Nat.not_le.mpr hp
  have hlevels : levels placement.toNat (ancestor src dst placement f) =
      List.range' placement.toNat (ancestor src dst placement f - placement.toNat) := rfl
  have hcount := @foldl_perLevel placement.toNat (ancestor src dst placement f - placement.toNat) (by omega)
  have hsame : computeLCA (unitToHierPos src placement f) (unitToHierPos dst placement f) = ancestor src dst placement f := rfl
  rw [hierTraversalLevels, if_neg hge, if_neg hne]
  simp only [hsame, hlevels]
  generalize ancestor src dst placement f = lca at *
  refine ⟨?_, fun l => ?_⟩
  · split
    next => exact UInt32.toNat_ofNat_of_lt' (by rw [UInt32.size]; omega)
    next =>
      show 0 = _
      omega
  · rw [if_pos (by omega), visits]
    by_cases hl : l = lca
    · rw [hl, Function.update_self, hcount, if_neg (by omega), if_neg (by omega), if_pos rfl]
      rfl
    · rw [Function.update_of_ne hl, hcount, if_neg hl]
      by_cases hin : placement.toNat ≤ l ∧ l < lca
      · rw [if_pos (by omega), if_pos hin]
        rfl
      · rw [if_neg (by omega), if_neg hin]
        rfl

/-! ## What a walk charges -/

theorem toUInt64_eq (x : UInt32) : x.toUInt64 = .ofNat x.toNat := by
  apply UInt64.toNat_inj.mp
  rw [UInt32.toNat_toUInt64, UInt64.toNat_ofNat_of_lt' (Nat.lt_trans x.toNat_lt (by decide))]

/-- A loop that adds the wire and the bridge of each level. -/
theorem foldl_charge {step : UInt64 → Nat → UInt64} {ls : List Nat} (t : Nat)
    (hstep : ∀ l ∈ ls, ∀ total, step total l = total + ((level l).toUInt64 + (bridge l).toUInt64)) :
    ls.foldl step (UInt64.ofNat t) = .ofNat (t + (ls.map fun l => (level l).toNat + (bridge l).toNat).sum) := by
  induction ls generalizing t with
  | nil => rfl
  | cons l ls ih =>
    have hl : UInt64.ofNat t + ((level l).toUInt64 + (bridge l).toUInt64) = .ofNat (t + ((level l).toNat + (bridge l).toNat)) := by
      rw [UInt64.ofNat_add, UInt64.ofNat_add, toUInt64_eq, toUInt64_eq]
    rw [List.foldl_cons, hstep l List.mem_cons_self, hl, ih _ fun l' hl' => hstep l' (List.mem_cons_of_mem _ hl'),
      List.map_cons, List.sum_cons, Nat.add_assoc]

theorem foldl_up {ls : List Nat} (hls : ∀ l ∈ ls, l < 6) (t : Nat) :
    ls.foldl (fun total l =>
        let total := total + (level l).toUInt64
        if l < 6 then total + (bridge l).toUInt64 else total) (UInt64.ofNat t) =
      .ofNat (t + (ls.map fun l => (level l).toNat + (bridge l).toNat).sum) := by
  refine foldl_charge t fun l hl total => ?_
  simp only [if_pos (hls l hl)]
  rw [UInt64.add_assoc]

theorem foldl_down {ls : List Nat} (hls : ∀ l ∈ ls, l < 6) (t : Nat) :
    ls.foldl (fun total l =>
        let total := if l < 6 then total + (bridge l).toUInt64 else total
        total + (level l).toUInt64) (UInt64.ofNat t) =
      .ofNat (t + (ls.map fun l => (level l).toNat + (bridge l).toNat).sum) := by
  refine foldl_charge t fun l hl total => ?_
  simp only [if_pos (hls l hl)]
  rw [UInt64.add_assoc, UInt64.add_comm (bridge l).toUInt64]

/-- The charge of a walk, in numbers. -/
def walkCost (start lca : Nat) (level bridge : Nat → UInt32) : Nat :=
  2 * ((levels start lca).map fun l => (level l).toNat + (bridge l).toNat).sum + (level lca).toNat

theorem walkCost_lt (hlca : lca ≤ 6) : walkCost start lca level bridge < 2 ^ 64 := by
  have hsum : ((levels start lca).map fun l => (level l).toNat + (bridge l).toNat).sum ≤ (levels start lca).length * 2 ^ 33 := by
    have hle := List.sum_le_card_nsmul ((levels start lca).map fun l => (level l).toNat + (bridge l).toNat) (2 ^ 33) ?_
    · rwa [List.length_map, smul_eq_mul] at hle
    · intro x hx
      obtain ⟨l, -, rfl⟩ := List.mem_map.mp hx
      have hlevel := (level l).toNat_lt
      have hbridge := (bridge l).toNat_lt
      omega
  have hlen : (levels start lca).length ≤ 6 := by
    rw [levels, List.length_range']
    omega
  have hlevel := (level lca).toNat_lt
  rw [walkCost]
  omega

theorem computeHierTraversal_eq (hp : placement.toNat < 7) (hne : src ≠ dst) :
    (computeHierTraversal src dst level bridge placement f).toNat =
      walkCost placement.toNat (ancestor src dst placement f) level bridge := by
  have hlca : ancestor src dst placement f ≤ 6 := ancestor_le
  have hge : ¬placement ≥ 7 := by
    rw [ge_iff_le, UInt32.le_iff_toNat_le]
    exact Nat.not_le.mpr hp
  have hsame : computeLCA (unitToHierPos src placement f) (unitToHierPos dst placement f) = ancestor src dst placement f := rfl
  have hlow : ∀ l ∈ levels placement.toNat (ancestor src dst placement f), l < 6 := by
    intro l hl
    have hrange := List.mem_range'_1.mp hl
    omega
  have hlow' : ∀ l ∈ (levels placement.toNat (ancestor src dst placement f)).reverse, l < 6 :=
    fun l hl => hlow l (List.mem_reverse.mp hl)
  have hzero : (0 : UInt64) = .ofNat 0 := rfl
  have hup : ∀ t : Nat, UInt64.ofNat t + (level (ancestor src dst placement f)).toUInt64 =
      .ofNat (t + (level (ancestor src dst placement f)).toNat) := by
    intro t
    rw [UInt64.ofNat_add, toUInt64_eq]
  rw [computeHierTraversal, if_neg hne, if_neg hge]
  simp only [hsame]
  rw [hzero, foldl_up hlow, hup, foldl_down hlow', List.map_reverse, List.sum_reverse, UInt64.toNat_ofNat_of_lt']
  · rw [walkCost]
    omega
  · have hlt : walkCost placement.toNat (ancestor src dst placement f) level bridge < 2 ^ 64 := walkCost_lt hlca
    rw [walkCost] at hlt
    rw [UInt64.size]
    omega

/-! ## Counting and charging -/

theorem sum_levels (g : Nat → Nat) : ((levels start lca).map g).sum = ∑ l ∈ Finset.Ico start lca, g l := rfl

theorem sum_visits (hlca : lca ≤ 6) (g : Nat → Nat) :
    ∑ l ∈ range 8, visits start lca l * g l = 2 * ∑ l ∈ Finset.Ico start lca, g l + g lca := by
  have hbelow : (range 8).filter (fun l => start ≤ l ∧ l < lca) = Finset.Ico start lca := by
    ext l
    rw [Finset.mem_filter, Finset.mem_range, Finset.mem_Ico]
    omega
  calc ∑ l ∈ range 8, visits start lca l * g l
      = ∑ l ∈ range 8, ((if start ≤ l ∧ l < lca then 2 * g l else 0) + if l = lca then g l else 0) := by
        refine Finset.sum_congr rfl fun l _ => ?_
        rw [visits, Nat.add_mul, ite_mul, Nat.zero_mul, ite_mul, Nat.one_mul, Nat.zero_mul]
    _ = ∑ l ∈ Finset.Ico start lca, 2 * g l + g lca := by
        rw [Finset.sum_add_distrib, ← Finset.sum_filter, hbelow, Finset.sum_ite_eq' (range 8) lca,
          if_pos (Finset.mem_range.mpr (by omega))]
    _ = 2 * ∑ l ∈ Finset.Ico start lca, g l + g lca := by rw [Finset.mul_sum]

theorem climbed_eq (hlca : lca ≤ 6) :
    (range 7).filter (fun l => visits start lca l = 2) = Finset.Ico start lca := by
  ext l
  rw [Finset.mem_filter, Finset.mem_range, Finset.mem_Ico, visits]
  split_ifs <;> omega

/-- What the counts charge. -/
def counted (per : Nat → UInt32) (level bridge : Nat → UInt32) : Nat :=
  ∑ l ∈ range 8, (per l).toNat * (level l).toNat +
    2 * ∑ l ∈ (range 7).filter (fun l => (per l).toNat = 2), (bridge l).toNat

theorem counted_tree (hp : placement.toNat < 7) (hne : src ≠ dst) :
    (computeHierTraversal src dst level bridge placement f).toNat =
      counted (hierTraversalLevels src dst placement f).2 level bridge := by
  have hlca : ancestor src dst placement f ≤ 6 := ancestor_le
  have hcosts : ((levels placement.toNat (ancestor src dst placement f)).map fun l => (level l).toNat + (bridge l).toNat).sum =
      ((levels placement.toNat (ancestor src dst placement f)).map fun l => (level l).toNat).sum +
        ((levels placement.toNat (ancestor src dst placement f)).map fun l => (bridge l).toNat).sum := List.sum_map_add
  rw [counted]
  simp only [(hierTraversalLevels_eq hp hne).2, climbed_eq hlca]
  rw [computeHierTraversal_eq hp hne, walkCost, hcosts, sum_levels, sum_levels,
    sum_visits hlca fun l => (level l).toNat]
  omega

theorem counted_same (hp : placement.toNat < 7) (level bridge : Nat → UInt32) :
    (computeHierTraversal src src level bridge placement f).toNat =
      counted (hierTraversalLevels src src placement f).2 level bridge := by
  have hge : ¬placement ≥ 7 := by
    rw [ge_iff_le, UInt32.le_iff_toNat_le]
    exact Nat.not_le.mpr hp
  rw [computeHierTraversal, if_pos rfl, hierTraversalLevels, if_neg hge, if_pos rfl, counted]
  simp

theorem counted_host (hp : 7 ≤ placement.toNat) (hne : src ≠ dst) (level bridge : Nat → UInt32) :
    (computeHierTraversal src dst level bridge placement f).toNat =
      counted (hierTraversalLevels src dst placement f).2 level bridge := by
  have hge : placement ≥ 7 := UInt32.le_iff_toNat_le.mpr hp
  rw [computeHierTraversal, if_neg hne, if_pos hge, hierTraversalLevels, if_pos hge, counted, UInt32.toNat_toUInt64]
  simp only [Finset.sum_filter, Finset.sum_range_succ, Finset.sum_range_zero, Function.update_apply]
  simp

theorem computeHierTraversal_comm (src dst : UInt32) (level bridge : Nat → UInt32) (placement : UInt32) (f : Fans) :
    computeHierTraversal src dst level bridge placement f = computeHierTraversal dst src level bridge placement f := by
  simp only [computeHierTraversal, eq_comm (a := src), computeLCA_comm (unitToHierPos src placement f)]

theorem hierTraversalLevels_comm (src dst placement : UInt32) (f : Fans) :
    hierTraversalLevels src dst placement f = hierTraversalLevels dst src placement f := by
  simp only [hierTraversalLevels, eq_comm (a := src), computeLCA_comm (unitToHierPos src placement f)]

/-- A walk that charges nothing, whatever the tables, visits nothing. -/
theorem visits_none_iff {per : Nat → UInt32} {charge : (Nat → UInt32) → (Nat → UInt32) → UInt64}
    (h : ∀ level bridge, (charge level bridge).toNat = counted per level bridge) :
    (∀ l ∈ range 8, per l = 0) ↔ ∀ level bridge, charge level bridge = 0 := by
  constructor
  · intro hnone level bridge
    have hsum : ∑ l ∈ range 8, (per l).toNat * (level l).toNat = 0 := by
      refine Finset.sum_eq_zero fun l hl => ?_
      rw [hnone l hl, UInt32.toNat_zero, Nat.zero_mul]
    have hclimbed : (range 7).filter (fun l => (per l).toNat = 2) = ∅ := by
      refine Finset.filter_eq_empty_iff.mpr fun l hl => ?_
      rw [hnone l (Finset.range_subset_range.mpr (by omega) hl)]
      decide
    apply UInt64.toNat_inj.mp
    rw [h, counted, hsum, hclimbed, Finset.sum_empty]
    rfl
  · intro hfree l hl
    have hzero := h (fun _ => 1) (fun _ => 0)
    have hone : (1 : UInt32).toNat = 1 := rfl
    rw [hfree, counted] at hzero
    have hsum : ∑ l ∈ range 8, (per l).toNat * (1 : UInt32).toNat = 0 := (Nat.add_eq_zero_iff.mp hzero.symm).1
    have hl' := Finset.sum_eq_zero_iff.mp hsum l hl
    rw [hone, Nat.mul_one] at hl'
    exact UInt32.toNat_inj.mp hl'

/-- **Counting and charging walk the same hierarchy**, also at the host controller, where
the walk is a single crossing. -/
theorem traversal_agrees (src dst placement : UInt32) (f : Fans) (hf : placement.toNat < 7 → f.Divide)
    (hwalk : placement.toNat < 7 ∨ src ≠ dst) :
    (placement.toNat < 7 → ∀ d ∈ f.divisors, d ≠ 0) ∧ (∀ level bridge : Nat → UInt32, (computeHierTraversal src dst level bridge placement f).toNat =
      ∑ l ∈ range 8, ((hierTraversalLevels src dst placement f).2 l).toNat * (level l).toNat +
        2 * ∑ l ∈ (range 7).filter (fun l => ((hierTraversalLevels src dst placement f).2 l).toNat = 2), (bridge l).toNat) ∧
      (src ≠ dst → placement.toNat < 7 → ∑ l ∈ range 8, ((hierTraversalLevels src dst placement f).2 l).toNat =
        (hierTraversalLevels src dst placement f).1.toNat + 1) ∧
      (src ≠ dst → 7 ≤ placement.toNat → ∑ l ∈ range 8, ((hierTraversalLevels src dst placement f).2 l).toNat = 1 ∧
        (hierTraversalLevels src dst placement f).1 = 1) ∧
      ((∀ l ∈ range 8, (hierTraversalLevels src dst placement f).2 l = 0) ↔
        ∀ level bridge : Nat → UInt32, computeHierTraversal src dst level bridge placement f = 0) ∧
      (∀ level bridge : Nat → UInt32,
        computeHierTraversal src dst level bridge placement f = computeHierTraversal dst src level bridge placement f) ∧
      hierTraversalLevels src dst placement f = hierTraversalLevels dst src placement f := by
  have hcounted : ∀ level bridge : Nat → UInt32, (computeHierTraversal src dst level bridge placement f).toNat =
      counted (hierTraversalLevels src dst placement f).2 level bridge := by
    intro level bridge
    by_cases hp : placement.toNat < 7
    · by_cases hne : src = dst
      · rw [← hne]
        exact counted_same hp level bridge
      · exact counted_tree hp hne
    · exact counted_host (Nat.not_lt.mp hp) (hwalk.resolve_left hp) level bridge
  refine ⟨fun hp => (hf hp).ne_zero, hcounted, fun hne hp => ?_, fun _ hp => ?_, visits_none_iff hcounted,
    fun level bridge => computeHierTraversal_comm src dst level bridge placement f,
    hierTraversalLevels_comm src dst placement f⟩
  · have hlca : ancestor src dst placement f ≤ 6 := ancestor_le
    have hsum : ∑ l ∈ range 8, visits placement.toNat (ancestor src dst placement f) l * 1 = _ := sum_visits hlca fun _ => 1
    simp only [Nat.mul_one, Finset.sum_const, Nat.card_Ico, smul_eq_mul] at hsum
    simp only [hierTraversalLevels_eq hp hne]
    rw [hsum]
  · have hge : placement ≥ 7 := UInt32.le_iff_toNat_le.mpr hp
    rw [hierTraversalLevels, if_pos hge]
    refine ⟨?_, rfl⟩
    simp [Finset.sum_range_succ, Function.update_apply]

/-- Two banks of different ranks: up through group, chip and rank, and down. -/
theorem traversal_agrees_banks :
    computeHierTraversal 0 255 (fun _ => 3) (fun _ => 2) 1 ⟨16, 4, 8, 4, 2⟩ =
        computeHierTraversal 255 0 (fun _ => 3) (fun _ => 2) 1 ⟨16, 4, 8, 4, 2⟩ ∧
      ∑ l ∈ range 8, ((hierTraversalLevels 0 255 1 ⟨16, 4, 8, 4, 2⟩).2 l).toNat = 7 := by
  have h := traversal_agrees 0 255 1 ⟨16, 4, 8, 4, 2⟩ (fun _ => ⟨by decide, by decide⟩) (.inr (by decide))
  exact ⟨h.2.2.2.2.2.1 _ _, (h.2.2.1 (by decide) (by decide)).trans (by decide)⟩

/-- At the host controller the counting walk does not ask whether the units differ, and
its one crossing is one link. And fan-outs at least one can multiply to a divisor of 0. -/
theorem host_controller_walk :
    (∀ level bridge : Nat → UInt32, computeHierTraversal 0 0 level bridge 7 ⟨16, 4, 8, 4, 2⟩ = 0) ∧
      (hierTraversalLevels 0 0 7 ⟨16, 4, 8, 4, 2⟩).2 7 ≠ 0 ∧
      ∑ l ∈ range 8, ((hierTraversalLevels 0 1 7 ⟨16, 4, 8, 4, 2⟩).2 l).toNat ≠
        (hierTraversalLevels 0 1 7 ⟨16, 4, 8, 4, 2⟩).1.toNat + 1 ∧
      (⟨1, 65536, 65536, 1, 1⟩ : Fans).banksPerChip = 0 :=
  ⟨fun _ _ => rfl, by decide, by decide, by decide⟩

end Pimid.Hier
