import Pimid.Htree.Units

/-!
# The position of a unit

`unitToHierPos` decodes a unit id into its place in the DRAM hierarchy, one case per
placement level, in the machine's integers. `decompose`, which the placement tree is built
with, is a loop over the fan-outs. They agree wherever nothing overflows.
-/

namespace Pimid.Hier

open Htree (Dims fan fineToCoarse decompose orOne orOne_eq reverse_fineToCoarse)

/-! ## The code -/

structure HierPos where
  subarray : Int32 := 0
  bank : Int32 := 0
  bank_group : Int32 := 0
  chip : Int32 := 0
  rank : Int32 := 0
  channel : Int32 := 0
  system : Int32 := 0
deriving DecidableEq

/-- The fan-outs that the callers pass. -/
structure Fans where
  saPerBank : UInt32
  banksPerBg : UInt32
  bgPerChip : UInt32
  chipsPerRank : UInt32 := 1
  ranksPerChannel : UInt32 := 1

def Fans.banksPerChip (f : Fans) : Int32 := (f.banksPerBg * f.bgPerChip).toInt32

/-- The chip, rank and channel of a chip id, which three levels end with. -/
def ofChip (f : Fans) (chipId : Int32) (pos : HierPos) : HierPos :=
  let rankId := chipId / f.chipsPerRank.toInt32
  { pos with
    chip := chipId % f.chipsPerRank.toInt32
    rank := rankId % f.ranksPerChannel.toInt32
    channel := rankId / f.ranksPerChannel.toInt32 }

/-- An unsigned operand makes the operation unsigned. -/
def unitToHierPos (unit placement : UInt32) (f : Fans) : HierPos :=
  if placement = 0 then
    let bankId := (unit / f.saPerBank).toInt32
    ofChip f (bankId / f.banksPerChip) {
      subarray := (unit % f.saPerBank).toInt32
      bank := bankId % f.banksPerBg.toInt32
      bank_group := (bankId / f.banksPerBg.toInt32) % f.bgPerChip.toInt32 }
  else if placement = 1 then
    ofChip f (unit / f.banksPerChip.toUInt32).toInt32 {
      bank := (unit % f.banksPerBg).toInt32
      bank_group := ((unit / f.banksPerBg) % f.bgPerChip).toInt32 }
  else if placement = 2 then
    ofChip f (unit / f.bgPerChip).toInt32 { bank_group := (unit % f.bgPerChip).toInt32 }
  else if placement = 3 then
    let rankId := (unit / f.chipsPerRank).toInt32
    { chip := (unit % f.chipsPerRank).toInt32
      rank := rankId % f.ranksPerChannel.toInt32, channel := rankId / f.ranksPerChannel.toInt32 }
  else if placement = 4 then
    { rank := (unit % f.ranksPerChannel).toInt32, channel := (unit / f.ranksPerChannel).toInt32 }
  else if placement = 5 then { channel := unit.toInt32 }
  else if placement = 6 then { system := unit.toInt32 }
  else { bank := unit.toInt32 }

/-- The fields as `decompose` orders them. -/
def HierPos.path (pos : HierPos) : List Int :=
  [pos.channel.toInt, pos.rank.toInt, pos.chip.toInt, pos.bank_group.toInt, pos.bank.toInt, pos.subarray.toInt]

/-! ## Without overflow

Below 2^31 the machine's integers are numbers. -/

theorem toInt32_eq (x : UInt32) : x.toInt32 = Int32.ofNat x.toNat := by
  apply Int32.toBitVec_inj.mp
  rw [UInt32.toBitVec_toInt32, Int32.toBitVec_ofNat']
  exact BitVec.eq_of_toNat_eq (by simp)

theorem toNat_banksPerChip {f : Fans} (h : f.banksPerBg.toNat * f.bgPerChip.toNat < 2 ^ 31) :
    f.banksPerChip = Int32.ofNat (f.banksPerBg.toNat * f.bgPerChip.toNat) ∧
      f.banksPerChip.toUInt32.toNat = f.banksPerBg.toNat * f.bgPerChip.toNat := by
  have hmul : (f.banksPerBg * f.bgPerChip).toNat = f.banksPerBg.toNat * f.bgPerChip.toNat := by
    rw [UInt32.toNat_mul, Nat.mod_eq_of_lt (by omega)]
  refine ⟨?_, ?_⟩
  · rw [Fans.banksPerChip, toInt32_eq, hmul]
  · rw [Fans.banksPerChip, UInt32.toUInt32_toInt32, hmul]

/-- The dimensions of the tree with these fan-outs. -/
def Fans.dims (f : Fans) (channels : Nat) : Dims :=
  ⟨channels, f.saPerBank.toNat, f.banksPerBg.toNat, f.bgPerChip.toNat, f.chipsPerRank.toNat, f.ranksPerChannel.toNat⟩

/-- Every fan-out is at least one, and their products are ints. -/
structure Fans.Fit (f : Fans) : Prop where
  sa : 1 ≤ f.saPerBank.toNat ∧ f.saPerBank.toNat < 2 ^ 31
  banks : 1 ≤ f.banksPerBg.toNat
  groups : 1 ≤ f.bgPerChip.toNat
  chips : 1 ≤ f.chipsPerRank.toNat
  ranks : 1 ≤ f.ranksPerChannel.toNat
  products : f.banksPerBg.toNat * f.bgPerChip.toNat * f.chipsPerRank.toNat * f.ranksPerChannel.toNat < 2 ^ 31

instance (f : Fans) : Decidable f.Fit :=
  decidable_of_iff ((1 ≤ f.saPerBank.toNat ∧ f.saPerBank.toNat < 2 ^ 31) ∧ 1 ≤ f.banksPerBg.toNat ∧
      1 ≤ f.bgPerChip.toNat ∧ 1 ≤ f.chipsPerRank.toNat ∧ 1 ≤ f.ranksPerChannel.toNat ∧
      f.banksPerBg.toNat * f.bgPerChip.toNat * f.chipsPerRank.toNat * f.ranksPerChannel.toNat < 2 ^ 31)
    ⟨fun h => ⟨h.1, h.2.1, h.2.2.1, h.2.2.2.1, h.2.2.2.2.1, h.2.2.2.2.2⟩, fun h => ⟨h.1, h.2, h.3, h.4, h.5, h.6⟩⟩

section Fit

variable {f : Fans} (h : f.Fit)

include h

theorem Fans.Fit.chip_lt : f.banksPerBg.toNat * f.bgPerChip.toNat < 2 ^ 31 :=
  Nat.lt_of_le_of_lt ((Nat.le_mul_of_pos_right _ h.chips).trans (Nat.le_mul_of_pos_right _ h.ranks)) h.products

theorem Fans.Fit.each_lt : f.banksPerBg.toNat < 2 ^ 31 ∧ f.bgPerChip.toNat < 2 ^ 31 ∧ f.chipsPerRank.toNat < 2 ^ 31 ∧
    f.ranksPerChannel.toNat < 2 ^ 31 := by
  have hchip := h.chip_lt
  have hgroups : f.bgPerChip.toNat ≤ f.banksPerBg.toNat * f.bgPerChip.toNat := Nat.le_mul_of_pos_left _ h.banks
  have hbanks : f.banksPerBg.toNat ≤ f.banksPerBg.toNat * f.bgPerChip.toNat := Nat.le_mul_of_pos_right _ h.groups
  have hpos : 0 < f.banksPerBg.toNat * f.bgPerChip.toNat := Nat.mul_pos h.banks h.groups
  have hchips : f.chipsPerRank.toNat ≤ f.banksPerBg.toNat * f.bgPerChip.toNat * f.chipsPerRank.toNat * f.ranksPerChannel.toNat :=
    (Nat.le_mul_of_pos_left _ hpos).trans (Nat.le_mul_of_pos_right _ h.ranks)
  have hranks : f.ranksPerChannel.toNat ≤ f.banksPerBg.toNat * f.bgPerChip.toNat * f.chipsPerRank.toNat * f.ranksPerChannel.toNat :=
    Nat.le_mul_of_pos_left _ (Nat.mul_pos hpos h.chips)
  have hproducts := h.products
  omega

theorem fan_dims (channels : Nat) : fan (f.dims channels) 0 = f.saPerBank.toNat ∧ fan (f.dims channels) 1 = f.banksPerBg.toNat ∧
    fan (f.dims channels) 2 = f.bgPerChip.toNat ∧ fan (f.dims channels) 3 = f.chipsPerRank.toNat ∧
    fan (f.dims channels) 4 = f.ranksPerChannel.toNat := by
  simp only [fan, Fans.dims, orOne_eq]
  exact ⟨max_eq_right h.sa.1, max_eq_right h.banks, max_eq_right h.groups, max_eq_right h.chips, max_eq_right h.ranks⟩

theorem ofChip_eq {c : Nat} (hc : c < 2 ^ 31) (pos : HierPos) : ofChip f (Int32.ofNat c) pos = { pos with
    chip := Int32.ofNat (c % f.chipsPerRank.toNat)
    rank := Int32.ofNat (c / f.chipsPerRank.toNat % f.ranksPerChannel.toNat)
    channel := Int32.ofNat (c / f.chipsPerRank.toNat / f.ranksPerChannel.toNat) } := by
  obtain ⟨-, -, hchips, hranks⟩ := h.each_lt
  have hrank : c / f.chipsPerRank.toNat < 2 ^ 31 := Nat.lt_of_le_of_lt (Nat.div_le_self _ _) hc
  simp only [ofChip, toInt32_eq, ← Int32.ofNat_div hc hchips, ← Int32.ofNat_mod hc hchips, ← Int32.ofNat_div hrank hranks,
    ← Int32.ofNat_mod hrank hranks]

theorem unitToHierPos_eq {u : UInt32} (hu : u.toNat < 2 ^ 31) {p : Nat} (hp : p ≤ 5) (channels : Nat) :
    (unitToHierPos u (.ofNat p) f).path = (decompose (f.dims channels) u.toNat p).map Int.ofNat ++ List.replicate p 0 ∧
      (unitToHierPos u (.ofNat p) f).system = 0 := by
  obtain ⟨hsa, hbanks, hgroups, hchips, hranks⟩ := fan_dims h channels
  obtain ⟨hbanks', hgroups', hchips', hranks'⟩ := h.each_lt
  have hchip := h.chip_lt
  have hdiv {a : Nat} (b : Nat) (ha : a < 2 ^ 31) : a / b < 2 ^ 31 := Nat.lt_of_le_of_lt (Nat.div_le_self _ _) ha
  have hmod {a : Nat} (b : Nat) (ha : a < 2 ^ 31) : a % b < 2 ^ 31 := Nat.lt_of_le_of_lt (Nat.mod_le _ _) ha
  have hint {a : Nat} (ha : a < 2 ^ 31) : (Int32.ofNat a).toInt = Int.ofNat a := Int32.toInt_ofNat_of_lt ha
  match p, hp with
  | 0, _ =>
    have hbank := hdiv f.saPerBank.toNat hu
    have hpos : unitToHierPos u (.ofNat 0) f = ofChip f ((u / f.saPerBank).toInt32 / f.banksPerChip) {
        subarray := (u % f.saPerBank).toInt32, bank := (u / f.saPerBank).toInt32 % f.banksPerBg.toInt32
        bank_group := ((u / f.saPerBank).toInt32 / f.banksPerBg.toInt32) % f.bgPerChip.toInt32 } := rfl
    rw [hpos, (toNat_banksPerChip hchip).1]
    simp only [toInt32_eq, UInt32.toNat_div, UInt32.toNat_mod, ← Int32.ofNat_div hbank hbanks',
      ← Int32.ofNat_div hbank hchip, ← Int32.ofNat_mod hbank hbanks', ← Int32.ofNat_mod (hdiv _ hbank) hgroups']
    rw [ofChip_eq h (hdiv _ hbank)]
    refine ⟨?_, rfl⟩
    simp only [HierPos.path]
    rw [hint (hdiv _ (hdiv _ (hdiv _ hbank))), hint (hmod _ (hdiv _ (hdiv _ hbank))), hint (hmod _ (hdiv _ hbank)),
      hint (hmod _ (hdiv _ hbank)), hint (hmod _ hbank), hint (hmod _ hu)]
    simp [decompose, fineToCoarse, hsa, hbanks, hgroups, hchips, hranks, Nat.div_div_eq_div_mul, Nat.mul_assoc]
  | 1, _ =>
    have hpos : unitToHierPos u (.ofNat 1) f = ofChip f (u / f.banksPerChip.toUInt32).toInt32 {
        bank := (u % f.banksPerBg).toInt32, bank_group := ((u / f.banksPerBg) % f.bgPerChip).toInt32 } := rfl
    rw [hpos]
    simp only [toInt32_eq, UInt32.toNat_div, UInt32.toNat_mod, (toNat_banksPerChip hchip).2]
    rw [ofChip_eq h (hdiv _ hu)]
    refine ⟨?_, rfl⟩
    simp only [HierPos.path]
    rw [hint (hdiv _ (hdiv _ (hdiv _ hu))), hint (hmod _ (hdiv _ (hdiv _ hu))), hint (hmod _ (hdiv _ hu)),
      hint (hmod _ (hdiv _ hu)), hint (hmod _ hu)]
    simp [decompose, fineToCoarse, hbanks, hgroups, hchips, hranks, Nat.div_div_eq_div_mul, Nat.mul_assoc]
  | 2, _ =>
    have hpos : unitToHierPos u (.ofNat 2) f =
        ofChip f (u / f.bgPerChip).toInt32 { bank_group := (u % f.bgPerChip).toInt32 } := rfl
    rw [hpos]
    simp only [toInt32_eq, UInt32.toNat_div, UInt32.toNat_mod]
    rw [ofChip_eq h (hdiv _ hu)]
    refine ⟨?_, rfl⟩
    simp only [HierPos.path]
    rw [hint (hdiv _ (hdiv _ (hdiv _ hu))), hint (hmod _ (hdiv _ (hdiv _ hu))), hint (hmod _ (hdiv _ hu)), hint (hmod _ hu)]
    simp [decompose, fineToCoarse, hgroups, hchips, hranks]
  | 3, _ =>
    have hrank := hdiv f.chipsPerRank.toNat hu
    have hpos : unitToHierPos u (.ofNat 3) f = {
        chip := (u % f.chipsPerRank).toInt32, rank := (u / f.chipsPerRank).toInt32 % f.ranksPerChannel.toInt32
        channel := (u / f.chipsPerRank).toInt32 / f.ranksPerChannel.toInt32 } := rfl
    rw [hpos]
    simp only [toInt32_eq, UInt32.toNat_div, UInt32.toNat_mod, ← Int32.ofNat_div hrank hranks', ← Int32.ofNat_mod hrank hranks']
    refine ⟨?_, trivial⟩
    simp only [HierPos.path]
    rw [hint (hdiv _ hrank), hint (hmod _ hrank), hint (hmod _ hu)]
    simp [decompose, fineToCoarse, hchips, hranks]
  | 4, _ =>
    have hpos : unitToHierPos u (.ofNat 4) f = {
        rank := (u % f.ranksPerChannel).toInt32, channel := (u / f.ranksPerChannel).toInt32 } := rfl
    rw [hpos]
    simp only [toInt32_eq, UInt32.toNat_div, UInt32.toNat_mod]
    refine ⟨?_, trivial⟩
    simp only [HierPos.path]
    rw [hint (hdiv _ hu), hint (hmod _ hu)]
    simp [decompose, fineToCoarse, hranks]
  | 5, _ =>
    have hpos : unitToHierPos u (.ofNat 5) f = { channel := u.toInt32 } := rfl
    rw [hpos, toInt32_eq]
    refine ⟨?_, rfl⟩
    simp only [HierPos.path]
    rw [hint hu]
    simp [decompose, fineToCoarse]

end Fit

/-! ## No division traps -/

/-- What `unitToHierPos` divides by. -/
def Fans.divisors (f : Fans) : List Int32 :=
  [f.saPerBank.toInt32, f.banksPerBg.toInt32, f.bgPerChip.toInt32, f.banksPerChip, f.chipsPerRank.toInt32,
    f.ranksPerChannel.toInt32]

/-- Every fan-out is at least one, and the products below a channel are ints. -/
def Fans.Divide (f : Fans) : Prop :=
  0 < f.saPerBank ∧ ({ f with saPerBank := 1 } : Fans).Fit

theorem toInt32_ne_zero {x : UInt32} (hx : 0 < x) : x.toInt32 ≠ 0 := by
  intro h
  have hzero : x = 0 := by rw [← UInt32.toUInt32_toInt32 x, h]; rfl
  rw [hzero] at hx
  exact absurd hx (by decide)

theorem Fans.Divide.ne_zero {f : Fans} (h : f.Divide) : ∀ d ∈ f.divisors, d ≠ 0 := by
  obtain ⟨hsa, hfit⟩ := h
  have hchip : 0 < f.banksPerBg * f.bgPerChip := by
    rw [UInt32.lt_iff_toNat_lt, UInt32.toNat_mul, Nat.mod_eq_of_lt (Nat.lt_trans hfit.chip_lt (by decide))]
    exact Nat.mul_pos hfit.banks hfit.groups
  simp only [divisors, List.forall_mem_cons, List.not_mem_nil, false_imp_iff, implies_true, and_true]
  exact ⟨toInt32_ne_zero hsa, toInt32_ne_zero hfit.banks, toInt32_ne_zero hfit.groups, toInt32_ne_zero hchip,
    toInt32_ne_zero hfit.chips, toInt32_ne_zero hfit.ranks⟩

/-! ## A bijection -/

/-- The fan-outs above a placement level, from the ranks down. -/
def upperFans (d : Dims) (p : Nat) : List Nat := ((List.range' p (5 - p)).map (fan d)).reverse

/-- `decompose` gives the digits; the channel, first, is not reduced. -/
theorem decompose_eq_digits (d : Dims) (c u p : Nat) : decompose d u p = digits (c :: upperFans d p) u :=
  reverse_fineToCoarse d c (5 - p) p u

theorem upperFans_prod_pos (d : Dims) (p : Nat) : 0 < (upperFans d p).prod := by
  refine List.prod_pos_iff_forall_pos_nat.mpr fun x hx => ?_
  obtain ⟨l, -, rfl⟩ := List.mem_map.mp (List.mem_reverse.mp hx)
  unfold fan
  split <;> first | exact Htree.orOne_pos _ | exact Nat.one_pos

theorem decompose_cons (d : Dims) (u p : Nat) :
    ∃ ds, decompose d u p = u / (upperFans d p).prod :: ds ∧ List.Forall₂ (· < ·) ds (upperFans d p) := by
  refine ⟨digits (upperFans d p) (u % (upperFans d p).prod), ?_, digits_lt (Nat.mod_lt _ (upperFans_prod_pos d p))⟩
  rw [decompose_eq_digits d 0, digits]

theorem toNat_path {f : Fans} (h : f.Fit) {u : UInt32} (hu : u.toNat < 2 ^ 31) {p : Nat} (hp : p ≤ 5) (channels : Nat) :
    (unitToHierPos u (.ofNat p) f).path.map Int.toNat = decompose (f.dims channels) u.toNat p ++ List.replicate p 0 := by
  rw [(unitToHierPos_eq h hu hp channels).1, List.map_append, List.map_map, List.map_replicate]
  congr 1
  exact List.map_id _

/-- **Unit decomposition**: the two implementations agree, every coordinate but the channel
is below its fan-out, and units and coordinates correspond. -/
theorem decompose_agrees (f : Fans) (h : f.Fit) (channels : Nat) (u : UInt32) (hu : u.toNat < 2 ^ 31) (p : Nat) (hp : p ≤ 5) :
    (unitToHierPos u (.ofNat p) f).path = (decompose (f.dims channels) u.toNat p).map Int.ofNat ++ List.replicate p 0 ∧
      (unitToHierPos u (.ofNat p) f).system = 0 ∧
      List.Forall₂ (· < ·) (decompose (f.dims channels) u.toNat p).tail (upperFans (f.dims channels) p) ∧
      ofDigits (channels :: upperFans (f.dims channels) p) (decompose (f.dims channels) u.toNat p) = u.toNat ∧
      ∀ c ds, List.Forall₂ (· < ·) ds (upperFans (f.dims channels) p) →
        decompose (f.dims channels) (ofDigits (channels :: upperFans (f.dims channels) p) (c :: ds)) p = c :: ds := by
  have hpos := upperFans_prod_pos (f.dims channels) p
  obtain ⟨hpath, hsystem⟩ := unitToHierPos_eq h hu hp channels
  refine ⟨hpath, hsystem, ?_, ?_, fun c ds hds => ?_⟩
  · rw [decompose_eq_digits _ channels, digits, List.tail_cons]
    exact digits_lt (Nat.mod_lt _ hpos)
  · rw [decompose_eq_digits _ channels, digits, ofDigits, ofDigits_digits (Nat.mod_lt _ hpos), Nat.mul_comm]
    exact Nat.div_add_mod _ _
  · have hlt := ofDigits_lt hds
    have hrest := digits_ofDigits hds
    rw [decompose_eq_digits _ channels, digits, ofDigits, Nat.add_comm, Nat.add_mul_div_right _ _ hpos,
      Nat.div_eq_of_lt hlt, Nat.zero_add, Nat.add_mul_mod_self_right, Nat.mod_eq_of_lt hlt, hrest]

/-- Bank 500 of two channels of two ranks, each of 4 chips of 8 groups of 4 banks. -/
theorem decompose_agrees_bank :
    (unitToHierPos 500 1 ⟨16, 4, 8, 4, 2⟩).path = [1, 1, 3, 5, 0, 0] ∧
      ofDigits (2 :: upperFans (Fans.dims ⟨16, 4, 8, 4, 2⟩ 2) 1) (decompose (Fans.dims ⟨16, 4, 8, 4, 2⟩ 2) 500 1) = 500 := by
  have h := decompose_agrees ⟨16, 4, 8, 4, 2⟩ (by decide) 2 500 (by decide) 1 (by decide)
  refine ⟨h.1.trans (by decide), h.2.2.2.1⟩

end Pimid.Hier
