import Mathlib.Tactic.Ring
import Pimid.Hier.Position

/-!
# The replay's addresses

`composeAddr` turns a placement unit, a bank slot in it, a row and a line into the address
that Ramulator's ChRaBaRoCo mapper takes apart again: a mixed-radix number, channel first.
The flat index of the bank in its channel is spread over the levels between channel and
row, whatever they are. The sums and products are those of 64-bit numbers.
-/

namespace Pimid.Dram

open Hier (Fans HierPos unitToHierPos unitToHierPos_eq toNat_path upperFans upperFans_prod_pos fan_dims decompose_cons decompose_eq_digits)
open Htree (decompose fineToCoarse)

/-! ## The code -/

/-- The replayed organisation: `counts_` with channel first, then the levels down to row
`rowIdx_`; the columns are counted in transactions. -/
structure Replay where
  counts : List Nat
  rowIdx : Nat
  colCount : Nat
  txBits : Nat
  lineBits : Nat
  hasRankLevel : Bool
  colCount_pos : 0 < colCount

namespace Replay

def count (o : Replay) (i : Nat) : Nat := max 1 (o.counts.getD i 0)

def channels (o : Replay) : Nat := o.count 0

def rows (o : Replay) : Nat := o.count o.rowIdx

/-- The levels between channel and row. -/
def middle (o : Replay) : List Nat := (List.range' 1 (o.rowIdx - 1)).map o.count

def banksPerChannel (o : Replay) : Nat := o.middle.foldl (· * ·) 1 % 2 ^ 64

variable (o : Replay) (f : Fans)

/-- HBM: the chip is the channel. -/
def foldedChannels : Prop := o.channels > 1 ∧ f.chipsPerRank.toNat = o.channels

/-- Each chip of a rank has its own banks; else they work in lock step. -/
def chipSplit (placement : Nat) : Prop :=
  o.hasRankLevel = true ∧ f.chipsPerRank.toNat > 1 ∧ placement ≤ 3 ∧ ¬o.foldedChannels f

instance : Decidable (o.foldedChannels f) := inferInstanceAs (Decidable (_ ∧ _))

instance (placement : Nat) : Decidable (o.chipSplit f placement) := inferInstanceAs (Decidable (_ ∧ _))

def chips (placement : Nat) : Nat := if o.chipSplit f placement then f.chipsPerRank.toNat else 1

/-- `flat % c` and `flat /= c` from the last level up: the digits, and what is left. -/
def bankDigits : List Nat → Nat → List Nat × Nat
  | [], flat => ([], flat)
  | c :: cs, flat =>
    let r := bankDigits cs flat
    (r.2 % c :: r.1, r.2 / c)

def column (lineAddr : Nat) : Nat := (((lineAddr <<< o.lineBits) % 2 ^ 64) >>> o.txBits) % o.colCount

/-- `(uint64_t)` of an int. -/
def u64 (x : Int) : Nat := (x % 2 ^ 64).toNat

/-- The address, and the channel. `chipSel` is -1 unless the caller names a chip; next to
`(uint32_t)chipSel` the chip of a position is unsigned too. -/
def composeAddr (placement : Nat) (unit slot : UInt32) (row lineAddr : Nat) (chipSel : Int) : Nat × Nat :=
  let pos := unitToHierPos unit (.ofNat placement) f
  let chSel := if placement = 6 then pos.system else if placement = 5 then pos.channel
    else if o.foldedChannels f then pos.chip else pos.channel
  let ch := u64 chSel.toInt % o.channels
  let bpg := max 1 f.banksPerBg.toNat
  let bgc := max 1 f.bgPerChip.toNat
  let chip := if o.chipSplit f placement then
      ((if chipSel ≥ 0 then chipSel else pos.chip.toInt) % 2 ^ 32).toNat % o.chips f placement
    else 0
  let rank := if o.foldedChannels f then 0 else u64 pos.rank.toInt
  let flat := (((rank * o.chips f placement + chip) * bgc + u64 pos.bank_group.toInt) * bpg +
    u64 pos.bank.toInt + slot.toNat) % 2 ^ 64 % o.banksPerChannel
  let banks := (o.middle.zip (bankDigits o.middle flat).1).foldl (fun addr cd => addr * cd.1 + cd.2) ch
  let addr := (banks * o.rows + row % o.rows) * o.colCount + o.column lineAddr
  ((addr <<< o.txBits) % 2 ^ 64, ch)

/-! ## Taking an address apart -/

/-- The ChRaBaRoCo digits of an address. -/
def decodeAddr (addr : Nat) : List Nat := digits (o.channels :: (o.middle ++ [o.rows, o.colCount])) (addr >>> o.txBits)

variable {o f}

theorem bankDigits_eq (cs : List Nat) (flat : Nat) :
    (bankDigits cs flat).1 = digits cs (flat % cs.prod) ∧ (bankDigits cs flat).2 = flat / cs.prod := by
  induction cs with
  | nil => exact ⟨rfl, (Nat.div_one flat).symm⟩
  | cons c cs ih =>
    obtain ⟨hdigits, hrest⟩ := ih
    rw [bankDigits, digits, List.prod_cons]
    dsimp only
    rw [hdigits, hrest, Nat.mod_mul_left_div_self, Nat.mod_mul_left_mod, Nat.div_div_eq_div_mul, Nat.mul_comm cs.prod]
    exact ⟨rfl, rfl⟩

theorem foldl_zip (cs ds : List Nat) (h : ds.length = cs.length) (ch : Nat) :
    (cs.zip ds).foldl (fun addr cd => addr * cd.1 + cd.2) ch = ch * cs.prod + ofDigits cs ds := by
  induction cs generalizing ds ch with
  | nil => simp [ofDigits]
  | cons c cs ih =>
    cases ds with
    | nil => cases h
    | cons d ds =>
      rw [List.zip_cons_cons, List.foldl_cons, ih ds (Nat.succ.inj h), ofDigits, List.prod_cons, Nat.add_mul, Nat.mul_assoc,
        Nat.add_assoc]

theorem count_pos (i : Nat) : 0 < o.count i := Nat.lt_of_lt_of_le Nat.one_pos (Nat.le_max_left _ _)

theorem middle_prod_pos : 0 < o.middle.prod := by
  refine List.prod_pos_iff_forall_pos_nat.mpr fun x hx => ?_
  obtain ⟨i, -, rfl⟩ := List.mem_map.mp hx
  exact count_pos i

theorem banksPerChannel_eq (h : o.middle.prod < 2 ^ 64) : o.banksPerChannel = o.middle.prod := by
  rw [banksPerChannel, ← List.prod_eq_foldl, Nat.mod_eq_of_lt h]

/-- The address of a bank, a row and a column. -/
def address (o : Replay) (ch flat row col : Nat) : Nat :=
  ((ch * o.middle.prod + flat) * (o.rows * o.colCount) + (row * o.colCount + col)) <<< o.txBits

theorem address_lt {ch flat row col : Nat} (hch : ch < o.channels) (hflat : flat < o.middle.prod) (hrow : row < o.rows)
    (hcol : col < o.colCount) :
    o.address ch flat row col < o.channels * o.middle.prod * (o.rows * o.colCount) * 2 ^ o.txBits := by
  rw [address, Nat.shiftLeft_eq]
  exact Nat.mul_lt_mul_of_pos_right (two_digits_lt (two_digits_lt hch hflat) (two_digits_lt hrow hcol)) (Nat.two_pow_pos _)

theorem decodeAddr_address {ch flat row col : Nat} (hflat : flat < o.middle.prod) (hrow : row < o.rows)
    (hcol : col < o.colCount) :
    o.decodeAddr (o.address ch flat row col) = ch :: (digits o.middle flat ++ [row, col]) := by
  have hcols : 0 < o.colCount := Nat.zero_lt_of_lt hcol
  have hprod : [o.rows, o.colCount].prod = o.rows * o.colCount := by simp
  have hlow : row * o.colCount + col < o.rows * o.colCount := two_digits_lt hrow hcol
  have hpos : 0 < o.rows * o.colCount := Nat.zero_lt_of_lt hlow
  have hin : flat * (o.rows * o.colCount) + (row * o.colCount + col) < o.middle.prod * (o.rows * o.colCount) :=
    two_digits_lt hflat hlow
  have hall : (o.middle ++ [o.rows, o.colCount]).prod = o.middle.prod * (o.rows * o.colCount) := by
    rw [List.prod_append, hprod]
  have htotal : (ch * o.middle.prod + flat) * (o.rows * o.colCount) + (row * o.colCount + col) =
      o.middle.prod * (o.rows * o.colCount) * ch + (flat * (o.rows * o.colCount) + (row * o.colCount + col)) := by ring
  have hlast : digits [o.rows, o.colCount] (row * o.colCount + col) = [row, col] := by
    simp only [digits, List.prod_cons, List.prod_nil, Nat.mul_one, Nat.div_one]
    rw [Nat.mul_comm, Nat.mul_add_div hcols, Nat.div_eq_of_lt hcol, Nat.mul_add_mod, Nat.mod_eq_of_lt hcol, Nat.add_zero]
  rw [decodeAddr, address, Nat.shiftLeft_shiftRight, digits, hall, htotal, Nat.mul_add_div (Nat.zero_lt_of_lt hin),
    Nat.div_eq_of_lt hin, Nat.add_zero, Nat.mul_add_mod, Nat.mod_eq_of_lt hin, digits_append _ _ (by rw [hall]; exact hin),
    hprod, Nat.mul_comm flat, Nat.mul_add_div hpos, Nat.div_eq_of_lt hlow, Nat.add_zero, Nat.mul_add_mod,
    Nat.mod_eq_of_lt hlow, hlast]

theorem address_inj {ch flat row col ch' flat' row' col' : Nat} (hflat : flat < o.middle.prod) (hrow : row < o.rows)
    (hcol : col < o.colCount) (hflat' : flat' < o.middle.prod) (hrow' : row' < o.rows) (hcol' : col' < o.colCount) :
    o.address ch flat row col = o.address ch' flat' row' col' ↔ (ch = ch' ∧ flat = flat') ∧ row = row' ∧ col = col' := by
  constructor
  · intro h
    have hdecoded : o.decodeAddr (o.address ch flat row col) = _ := decodeAddr_address hflat hrow hcol
    rw [h, decodeAddr_address hflat' hrow' hcol', List.cons.injEq] at hdecoded
    obtain ⟨hch, hrest⟩ := hdecoded
    have hlen : (digits o.middle flat').length = (digits o.middle flat).length := by rw [length_digits, length_digits]
    obtain ⟨hdigits, hlast⟩ := List.append_inj hrest hlen
    simp only [List.cons.injEq, and_true] at hlast
    exact ⟨⟨hch.symm, (digits_inj hflat' hflat hdigits).symm⟩, hlast.1.symm, hlast.2.symm⟩
  · intro ⟨⟨hch, hf⟩, hr, hc⟩
    rw [hch, hf, hr, hc]

/-! ## The parts of an address -/

/-- The channel of a unit, as `composeAddr` has it. -/
def channelOf (o : Replay) (f : Fans) (placement : Nat) (unit : UInt32) : Nat :=
  let pos := unitToHierPos unit (.ofNat placement) f
  let chSel := if placement = 6 then pos.system else if placement = 5 then pos.channel
    else if o.foldedChannels f then pos.chip else pos.channel
  u64 chSel.toInt % o.channels

/-- The index of a bank before the remainder. -/
def flatSum (o : Replay) (f : Fans) (placement : Nat) (unit slot : UInt32) (chipSel : Int) : Nat :=
  let pos := unitToHierPos unit (.ofNat placement) f
  let bpg := max 1 f.banksPerBg.toNat
  let bgc := max 1 f.bgPerChip.toNat
  let chip := if o.chipSplit f placement then
      ((if chipSel ≥ 0 then chipSel else pos.chip.toInt) % 2 ^ 32).toNat % o.chips f placement
    else 0
  let rank := if o.foldedChannels f then 0 else u64 pos.rank.toInt
  ((rank * o.chips f placement + chip) * bgc + u64 pos.bank_group.toInt) * bpg + u64 pos.bank.toInt + slot.toNat

/-- The index of the bank in its channel, as `composeAddr` has it. -/
def flatOf (o : Replay) (f : Fans) (placement : Nat) (unit slot : UInt32) (chipSel : Int) : Nat :=
  o.flatSum f placement unit slot chipSel % 2 ^ 64 % o.banksPerChannel

section Compose

variable {placement : Nat} {unit slot : UInt32} {chipSel : Int}

theorem flatOf_lt (h : o.middle.prod < 2 ^ 64) : o.flatOf f placement unit slot chipSel < o.middle.prod := by
  rw [flatOf, banksPerChannel_eq h]
  exact Nat.mod_lt _ middle_prod_pos

theorem channelOf_lt : o.channelOf f placement unit < o.channels := Nat.mod_lt _ (count_pos 0)

/-- **What `composeAddr` writes**: the address of a channel, an index, a row and a column, in 64 bits. -/
theorem composeAddr_parts (h : o.middle.prod < 2 ^ 64) (placement : Nat) (unit slot : UInt32) (row lineAddr : Nat)
    (chipSel : Int) : o.composeAddr f placement unit slot row lineAddr chipSel =
      (o.address (o.channelOf f placement unit) (o.flatOf f placement unit slot chipSel) (row % o.rows)
        (o.column lineAddr) % 2 ^ 64, o.channelOf f placement unit) := by
  have hflat : o.flatOf f placement unit slot chipSel < o.middle.prod := flatOf_lt h
  have hdigits := (bankDigits_eq o.middle (o.flatOf f placement unit slot chipSel)).1
  rw [Nat.mod_eq_of_lt hflat] at hdigits
  change (((((o.middle.zip (bankDigits o.middle (o.flatOf f placement unit slot chipSel)).1).foldl
    (fun addr cd => addr * cd.1 + cd.2) (o.channelOf f placement unit) * o.rows + row % o.rows) * o.colCount +
      o.column lineAddr) <<< o.txBits) % 2 ^ 64, o.channelOf f placement unit) = _
  rw [hdigits, foldl_zip _ _ (length_digits _ _), ofDigits_digits hflat, address]
  congr 3
  ring

end Compose

/-! ## The bank that is meant -/

/-- A bank of the replayed device. -/
structure Bank where
  channel : Nat
  rank : Nat
  chip : Nat
  group : Nat
  bank : Nat
deriving DecidableEq

/-- The fan-outs that a slot counts inside a unit. Chips in lock step count as one. -/
def lowerFans (f : Fans) : Nat → List Nat
  | 1 => []
  | 2 => [f.banksPerBg.toNat]
  | 3 => [f.bgPerChip.toNat, f.banksPerBg.toNat]
  | 4 => [1, f.bgPerChip.toNat, f.banksPerBg.toNat]
  | _ => [f.ranksPerChannel.toNat, 1, f.bgPerChip.toNat, f.banksPerBg.toNat]

/-- Channel, rank, chip, group and bank of a slot of a unit. -/
def bankPath (o : Replay) (f : Fans) (placement u slot : Nat) : List Nat :=
  (if placement = 6 then [u] else decompose (f.dims o.channels) u placement) ++ digits (lowerFans f placement) slot

/-- What of it names a bank: a folded part has its channels in the chips, under one rank, and
chips in lock step are one. -/
def bankOf (o : Replay) (f : Fans) (placement u slot : Nat) : Bank :=
  match o.bankPath f placement u slot with
  | [channel, rank, chip, group, bank] =>
    if o.foldedChannels f then ⟨if placement ≥ 5 then channel else chip, 0, 0, group, bank⟩
    else ⟨channel, rank, if o.chipSplit f placement then chip else 0, group, bank⟩
  | _ => ⟨0, 0, 0, 0, 0⟩

/-- The units of the device: a folded part has the one channel of the tree. -/
def InRange (o : Replay) (f : Fans) (placement u slot : Nat) : Prop :=
  (if placement ≥ 5 then u < o.channels
    else u < (if o.foldedChannels f then 1 else o.channels) * (upperFans (f.dims o.channels) placement).prod) ∧
  slot < (lowerFans f placement).prod

instance (placement u slot : Nat) : Decidable (o.InRange f placement u slot) := inferInstanceAs (Decidable (_ ∧ _))

/-- The flat index of a bank in its channel. -/
def index (o : Replay) (f : Fans) (placement : Nat) (b : Bank) : Nat :=
  ((b.rank * o.chips f placement + b.chip) * f.bgPerChip.toNat + b.group) * f.banksPerBg.toNat + b.bank

/-- A bank that the organisation has. -/
structure Has (o : Replay) (f : Fans) (placement : Nat) (b : Bank) : Prop where
  channel : b.channel < o.channels
  rank : b.rank < if o.foldedChannels f then 1 else f.ranksPerChannel.toNat
  chip : b.chip < o.chips f placement
  group : b.group < f.bgPerChip.toNat
  bank : b.bank < f.banksPerBg.toNat

/-- The organisation has as many banks in a channel as the hierarchy, and 64 bits number its bytes. -/
structure Fits (o : Replay) (f : Fans) (placement : Nat) : Prop where
  fit : f.Fit
  bits : o.channels * o.middle.prod * (o.rows * o.colCount) * 2 ^ o.txBits ≤ 2 ^ 64
  banks : o.banksPerChannel = (if o.foldedChannels f then 1 else f.ranksPerChannel.toNat * o.chips f placement) *
    f.bgPerChip.toNat * f.banksPerBg.toNat

theorem chips_folded {placement : Nat} (h : o.foldedChannels f) : o.chips f placement = 1 :=
  if_neg fun hs => hs.2.2.2 h

/-- How the position of a unit and a slot in it make up the parts of a bank. -/
structure Parts (o : Replay) (f : Fans) (placement : Nat) (u slot : UInt32) (channel rank chip group bank : Nat) : Prop where
  path : o.bankPath f placement u.toNat slot.toNat = [channel, rank, chip, group, bank]
  channel_lt : if placement ≥ 5 ∨ ¬o.foldedChannels f then channel < o.channels else channel = 0
  rank_lt : rank < f.ranksPerChannel.toNat
  chip_lt : chip < f.chipsPerRank.toNat ∧ (4 ≤ placement → chip = 0)
  group_lt : group < f.bgPerChip.toNat
  bank_lt : bank < f.banksPerBg.toNat
  low : placement ≤ 4 → u64 (unitToHierPos u (.ofNat placement) f).channel.toInt = channel ∧
    u64 (unitToHierPos u (.ofNat placement) f).rank.toInt = rank ∧
    u64 (unitToHierPos u (.ofNat placement) f).chip.toInt = chip ∧
    u64 (unitToHierPos u (.ofNat placement) f).bank_group.toInt * f.banksPerBg.toNat +
      u64 (unitToHierPos u (.ofNat placement) f).bank.toInt + slot.toNat = group * f.banksPerBg.toNat + bank
  high : 5 ≤ placement →
    u64 (if placement = 6 then (unitToHierPos u (.ofNat placement) f).system
      else (unitToHierPos u (.ofNat placement) f).channel).toInt = channel ∧
    u64 (unitToHierPos u (.ofNat placement) f).rank.toInt = 0 ∧
    u64 (unitToHierPos u (.ofNat placement) f).bank_group.toInt = 0 ∧
    u64 (unitToHierPos u (.ofNat placement) f).bank.toInt = 0 ∧
    slot.toNat = (rank * f.bgPerChip.toNat + group) * f.banksPerBg.toNat + bank

theorem channel_lt_of_inRange {placement u slot : Nat} (hp : placement ≤ 4) (hin : o.InRange f placement u slot) :
    if placement ≥ 5 ∨ ¬o.foldedChannels f then u / (upperFans (f.dims o.channels) placement).prod < o.channels
    else u / (upperFans (f.dims o.channels) placement).prod = 0 := by
  have hunit := hin.1
  rw [if_neg (by omega)] at hunit
  by_cases hfold : o.foldedChannels f
  · rw [if_pos hfold, Nat.one_mul] at hunit
    rw [if_neg (by simp [hfold]; omega)]
    exact Nat.div_eq_of_lt hunit
  · rw [if_neg hfold, Nat.mul_comm] at hunit
    rw [if_pos (.inr hfold)]
    exact Nat.div_lt_of_lt_mul hunit

theorem u32_eq {x : Int} {n : Nat} (h : u64 x = n) (hn : n < 2 ^ 32) : (x % 2 ^ 32).toNat = n := by
  unfold u64 at h
  omega

theorem u64_ofNat {n : Nat} (h : n < 2 ^ 64) : u64 n = n := by
  have hlt : (n : Int) < 2 ^ 64 := by exact_mod_cast h
  rw [u64, Int.emod_eq_of_lt (Int.natCast_nonneg n) hlt, Int.toNat_natCast]

theorem u64_path (h : f.Fit) {u : UInt32} (hu : u.toNat < 2 ^ 31) {p : Nat} (hp : p ≤ 5) (channels : Nat) :
    (unitToHierPos u (.ofNat p) f).path.map u64 = decompose (f.dims channels) u.toNat p ++ List.replicate p 0 := by
  rw [← toNat_path h hu hp channels]
  refine List.map_congr_left fun x hx => ?_
  have hint : x < 2 ^ 64 := by
    simp only [HierPos.path, List.mem_cons, List.not_mem_nil, or_false] at hx
    rcases hx with rfl | rfl | rfl | rfl | rfl | rfl <;> exact Int.lt_trans (Int32.toInt_lt _) (by decide)
  rw [(unitToHierPos_eq h hu hp channels).1, List.mem_append] at hx
  have hpos : 0 ≤ x := by
    rcases hx with hx | hx
    · obtain ⟨n, -, rfl⟩ := List.mem_map.mp hx
      exact Int.natCast_nonneg n
    · rw [List.eq_of_mem_replicate hx]
  rw [u64, Int.emod_eq_of_lt hpos hint]

/-- Up to a whole channel the digits of the unit and of the slot are, one after the other, those of the bank. -/
theorem parts_low {placement : Nat} {u slot : UInt32} (hp : 1 ≤ placement ∧ placement ≤ 4) (h : f.Fit) (hu : u.toNat < 2 ^ 31)
    (hin : o.InRange f placement u.toNat slot.toNat) :
    ∃ channel rank chip group bank, Parts o f placement u slot channel rank chip group bank := by
  obtain ⟨-, hbanks, hgroups, hchips, hranks⟩ := fan_dims h o.channels
  obtain ⟨ds, hdec, hds⟩ := decompose_cons (f.dims o.channels) u.toNat placement
  have hchannel := channel_lt_of_inRange hp.2 hin
  have hes := digits_lt hin.2
  have hval := ofDigits_digits hin.2
  have hpath : o.bankPath f placement u.toNat slot.toNat = u.toNat / (upperFans (f.dims o.channels) placement).prod ::
      (ds ++ digits (lowerFans f placement) slot.toNat) := by
    rw [bankPath, if_neg (by omega), hdec, List.cons_append]
  have hpos := u64_path h hu (Nat.le_succ_of_le hp.2) o.channels
  rw [hdec] at hpos
  generalize u.toNat / (upperFans (f.dims o.channels) placement).prod = channel at *
  generalize digits (lowerFans f placement) slot.toNat = es at *
  -- together the digits are below the fan-outs of the whole tree; the placement says where the list is cut
  have hfans : upperFans (f.dims o.channels) placement ++ lowerFans f placement =
      [f.ranksPerChannel.toNat, if placement = 4 then 1 else f.chipsPerRank.toNat, f.bgPerChip.toNat, f.banksPerBg.toNat] := by
    obtain rfl | rfl | rfl | rfl : placement = 1 ∨ placement = 2 ∨ placement = 3 ∨ placement = 4 := by omega
    all_goals simp [upperFans, List.range'_succ, lowerFans, hbanks, hgroups, hchips, hranks]
  have hlen : ds.length = 5 - placement := by
    rw [hds.length_eq, upperFans, List.length_reverse, List.length_map, List.length_range']
  have hall : List.Forall₂ (· < ·) (ds ++ es) (upperFans (f.dims o.channels) placement ++ lowerFans f placement) :=
    List.rel_append hds hes
  rw [hfans] at hall
  simp only [List.forall₂_cons_right_iff, List.forall₂_nil_right_iff] at hall
  obtain ⟨rank, _, hrank, ⟨chip, _, hchip, ⟨group, _, hgroup, ⟨bank, _, hbank, rfl, rfl⟩, rfl⟩, rfl⟩, hsplit⟩ := hall
  have hchip' : chip < f.chipsPerRank.toNat ∧ (4 ≤ placement → chip = 0) := by
    have := h.chips
    split at hchip <;> omega
  refine ⟨channel, rank, chip, group, bank, by rw [hpath, hsplit], hchannel, hrank, hchip', hgroup, hbank, fun _ => ?_,
    fun h5 => by omega⟩
  obtain rfl | rfl | rfl | rfl : placement = 1 ∨ placement = 2 ∨ placement = 3 ∨ placement = 4 := by omega
  · obtain ⟨rfl, rfl⟩ := List.append_inj (show ds ++ es = [rank, chip, group, bank] ++ [] from hsplit) hlen
    simp only [HierPos.path, List.map_cons, List.map_nil, List.cons_append, List.nil_append, List.replicate_one, List.cons.injEq,
      and_true] at hpos
    obtain ⟨h₁, h₂, h₃, h₄, h₅, -⟩ := hpos
    have hslot : slot.toNat = 0 := hval.symm
    exact ⟨h₁, h₂, h₃, by rw [h₄, h₅, hslot]; rfl⟩
  · obtain ⟨rfl, rfl⟩ := List.append_inj (show ds ++ es = [rank, chip, group] ++ [bank] from hsplit) hlen
    simp only [HierPos.path, List.map_cons, List.map_nil, List.cons_append, List.nil_append, List.replicate_succ,
      List.replicate_zero, List.cons.injEq, and_true] at hpos
    obtain ⟨h₁, h₂, h₃, h₄, h₅, -⟩ := hpos
    simp only [lowerFans, ofDigits, List.prod_nil, Nat.mul_one, Nat.add_zero] at hval
    exact ⟨h₁, h₂, h₃, by rw [h₄, h₅, ← hval, Nat.add_zero]⟩
  · obtain ⟨rfl, rfl⟩ := List.append_inj (show ds ++ es = [rank, chip] ++ [group, bank] from hsplit) hlen
    simp only [HierPos.path, List.map_cons, List.map_nil, List.cons_append, List.nil_append, List.replicate_succ,
      List.replicate_zero, List.cons.injEq, and_true] at hpos
    obtain ⟨h₁, h₂, h₃, h₄, h₅, -⟩ := hpos
    simp only [lowerFans, ofDigits, List.prod_cons, List.prod_nil, Nat.mul_one, Nat.add_zero] at hval
    exact ⟨h₁, h₂, h₃, by rw [h₄, h₅, ← hval, Nat.zero_mul, Nat.zero_add]⟩
  · obtain ⟨rfl, rfl⟩ := List.append_inj (show ds ++ es = [rank] ++ [chip, group, bank] from hsplit) hlen
    simp only [HierPos.path, List.map_cons, List.map_nil, List.cons_append, List.nil_append, List.replicate_succ,
      List.replicate_zero, List.cons.injEq, and_true] at hpos
    obtain ⟨h₁, h₂, h₃, h₄, h₅, -⟩ := hpos
    obtain rfl := hchip'.2 (Nat.le_refl 4)
    simp only [lowerFans, ofDigits, List.prod_cons, List.prod_nil, Nat.mul_one, Nat.add_zero, Nat.zero_mul, Nat.zero_add] at hval
    exact ⟨h₁, h₂, h₃, by rw [h₄, h₅, ← hval, Nat.zero_mul, Nat.zero_add]⟩

theorem parts {placement : Nat} {u slot : UInt32} (hp : 1 ≤ placement ∧ placement ≤ 6) (h : f.Fit) (hu : u.toNat < 2 ^ 31)
    (hin : o.InRange f placement u.toNat slot.toNat) :
    ∃ channel rank chip group bank, Parts o f placement u slot channel rank chip group bank := by
  by_cases hlow : placement ≤ 4
  · exact parts_low ⟨hp.1, hlow⟩ h hu hin
  have hchannel := hin.1
  rw [if_pos (by omega)] at hchannel
  have hes := digits_lt hin.2
  have hval := ofDigits_digits hin.2
  -- a unit is a channel or a device: every other digit is the slot's
  have hfans : lowerFans f placement = [f.ranksPerChannel.toNat, 1, f.bgPerChip.toNat, f.banksPerBg.toNat] := by
    obtain rfl | rfl : placement = 5 ∨ placement = 6 := by omega
    all_goals rfl
  have hdec : (if placement = 6 then [u.toNat] else decompose (f.dims o.channels) u.toNat placement) = [u.toNat] := by
    obtain rfl | rfl : placement = 5 ∨ placement = 6 := by omega
    all_goals rfl
  have hpath : o.bankPath f placement u.toNat slot.toNat = u.toNat :: digits (lowerFans f placement) slot.toNat := by
    rw [bankPath, hdec, List.singleton_append]
  generalize digits (lowerFans f placement) slot.toNat = es at *
  rw [hfans] at hes hval
  simp only [List.forall₂_cons_right_iff, List.forall₂_nil_right_iff] at hes
  obtain ⟨rank, _, hrank, ⟨chip, _, hchip, ⟨group, _, hgroup, ⟨bank, _, hbank, rfl, rfl⟩, rfl⟩, rfl⟩, rfl⟩ := hes
  obtain rfl : chip = 0 := by omega
  have hslot : slot.toNat = (rank * f.bgPerChip.toNat + group) * f.banksPerBg.toNat + bank := by
    simp only [ofDigits, List.prod_cons, List.prod_nil, Nat.mul_one, Nat.one_mul, Nat.add_zero, Nat.zero_mul, Nat.zero_add] at hval
    rw [← hval]
    ring
  refine ⟨u.toNat, rank, 0, group, bank, hpath, ?_, hrank, ⟨h.chips, fun _ => rfl⟩, hgroup, hbank, fun h4 => absurd h4 hlow,
    fun _ => ?_⟩
  · rw [if_pos (by omega)]
    exact hchannel
  obtain rfl | rfl : placement = 5 ∨ placement = 6 := by omega
  · have hpos := u64_path h hu (Nat.le_refl 5) o.channels
    rw [show decompose (f.dims o.channels) u.toNat 5 = [u.toNat] from rfl] at hpos
    simp only [HierPos.path, List.map_cons, List.map_nil, List.cons_append, List.nil_append, List.replicate_succ,
      List.replicate_zero, List.cons.injEq, and_true] at hpos
    obtain ⟨h₁, h₂, h₃, h₄, h₅, -⟩ := hpos
    exact ⟨h₁, h₂, h₄, h₅, hslot⟩
  · rw [show unitToHierPos u (.ofNat 6) f = { system := u.toInt32 } from rfl]
    refine ⟨?_, rfl, rfl, rfl, hslot⟩
    show u64 u.toInt32.toInt = u.toNat
    rw [Hier.toInt32_eq, Int32.toInt_ofNat_of_lt hu, u64_ofNat (Nat.lt_trans hu (by decide))]

/-! ## The address names the bank -/

theorem mul_add_inj {a b a' b' n : Nat} (hb : b < n) (hb' : b' < n) : a * n + b = a' * n + b' ↔ a = a' ∧ b = b' :=
  ⟨two_digits_inj hb hb', fun h => by rw [h.1, h.2]⟩

section Names

variable {placement : Nat} {u slot u' slot' : UInt32} {b b' : Bank} {channel rank chip group bank : Nat}

theorem chips_pos (h : f.Fit) : 0 < o.chips f placement := by
  rw [chips]
  split
  · exact h.chips
  · exact Nat.one_pos

theorem bankOf_eq (P : Parts o f placement u slot channel rank chip group bank) :
    o.bankOf f placement u.toNat slot.toNat =
      if o.foldedChannels f then ⟨if placement ≥ 5 then channel else chip, 0, 0, group, bank⟩
      else ⟨channel, rank, if o.chipSplit f placement then chip else 0, group, bank⟩ := by
  rw [bankOf, P.path]

theorem bankOf_has (h : o.Fits f placement) (P : Parts o f placement u slot channel rank chip group bank) :
    o.Has f placement (o.bankOf f placement u.toNat slot.toNat) := by
  have hchannel := P.channel_lt
  have hchips := (chips_pos h.fit : 0 < o.chips f placement)
  rw [bankOf_eq P]
  by_cases hfold : o.foldedChannels f
  · rw [if_pos hfold]
    refine ⟨?_, by rw [if_pos hfold]; exact Nat.one_pos, hchips, P.group_lt, P.bank_lt⟩
    by_cases hp : placement ≥ 5
    · rw [if_pos (.inl hp)] at hchannel
      rw [if_pos hp]
      exact hchannel
    · rw [if_neg hp, ← hfold.2]
      exact P.chip_lt.1
  · rw [if_pos (.inr hfold)] at hchannel
    rw [if_neg hfold]
    refine ⟨hchannel, by rw [if_neg hfold]; exact P.rank_lt, ?_, P.group_lt, P.bank_lt⟩
    show (if o.chipSplit f placement then chip else 0) < o.chips f placement
    rw [chips]
    split
    · exact P.chip_lt.1
    · exact Nat.one_pos

/-- The banks of a channel are not folded onto none. -/
theorem Fits.middle_lt (h : o.Fits f placement) : o.middle.prod < 2 ^ 64 := by
  have hbanks := h.banks
  rw [banksPerChannel, ← List.prod_eq_foldl] at hbanks
  have hrest : 0 < o.channels * (o.rows * o.colCount) * 2 ^ o.txBits :=
    Nat.mul_pos (Nat.mul_pos (count_pos _) (Nat.mul_pos (count_pos _) o.colCount_pos)) (Nat.two_pow_pos _)
  have hle : o.middle.prod ≤ 2 ^ 64 :=
    calc o.middle.prod ≤ o.middle.prod * (o.channels * (o.rows * o.colCount) * 2 ^ o.txBits) := Nat.le_mul_of_pos_right _ hrest
      _ = o.channels * o.middle.prod * (o.rows * o.colCount) * 2 ^ o.txBits := by ring
      _ ≤ 2 ^ 64 := h.bits
  refine Nat.lt_of_le_of_ne hle fun heq => ?_
  rw [heq, Nat.mod_self] at hbanks
  refine absurd hbanks (Nat.ne_of_lt (Nat.mul_pos (Nat.mul_pos ?_ h.fit.groups) h.fit.banks))
  split
  · exact Nat.one_pos
  · exact Nat.mul_pos h.fit.ranks (chips_pos h.fit)

theorem index_lt (h : o.Fits f placement) (hb : o.Has f placement b) : o.index f placement b < o.middle.prod := by
  rw [← banksPerChannel_eq h.middle_lt, h.banks, index]
  refine two_digits_lt (two_digits_lt ?_ hb.group) hb.bank
  have hrank := hb.rank
  have hchip := hb.chip
  by_cases hfold : o.foldedChannels f
  · rw [if_pos hfold] at hrank ⊢
    rw [chips_folded hfold] at hchip ⊢
    omega
  · rw [if_neg hfold] at hrank ⊢
    exact two_digits_lt hrank hchip

theorem index_inj (hb : o.Has f placement b) (hb' : o.Has f placement b') :
    b.channel = b'.channel ∧ o.index f placement b = o.index f placement b' ↔ b = b' := by
  rw [index, index, mul_add_inj hb.bank hb'.bank, mul_add_inj hb.group hb'.group, mul_add_inj hb.chip hb'.chip]
  constructor
  · intro ⟨hchannel, ⟨⟨hrank, hchip⟩, hgroup⟩, hbank⟩
    cases b
    cases b'
    simp only [Bank.mk.injEq]
    exact ⟨hchannel, hrank, hchip, hgroup, hbank⟩
  · intro h
    rw [h]
    exact ⟨rfl, ⟨⟨rfl, rfl⟩, rfl⟩, rfl⟩

theorem channelOf_eq (hp : placement ≤ 6) (P : Parts o f placement u slot channel rank chip group bank)
    (hb : o.Has f placement (o.bankOf f placement u.toNat slot.toNat)) :
    o.channelOf f placement u = (o.bankOf f placement u.toNat slot.toNat).channel := by
  rw [← Nat.mod_eq_of_lt hb.channel]
  refine congrArg (· % o.channels) ?_
  rw [bankOf_eq P]
  by_cases hp5 : 5 ≤ placement
  · have hhigh := (P.high hp5).1
    by_cases h6 : placement = 6
    · rw [if_pos h6] at hhigh ⊢
      rw [hhigh, if_pos hp5]
      split <;> rfl
    · rw [if_neg h6] at hhigh ⊢
      rw [if_pos (show placement = 5 by omega), hhigh, if_pos hp5]
      split <;> rfl
  · have hlow := P.low (by omega)
    rw [if_neg (show ¬placement = 6 by omega), if_neg (show ¬placement = 5 by omega), if_neg hp5]
    split
    · exact hlow.2.2.1
    · exact hlow.1

/-- The index before the remainder: the bank's, or of a unit of a whole channel the slot. -/
theorem flatSum_eq (h : f.Fit) (P : Parts o f placement u slot channel rank chip group bank) :
    o.flatSum f placement u slot (-1) =
      if 5 ≤ placement then slot.toNat else o.index f placement (o.bankOf f placement u.toNat slot.toNat) := by
  have hminus : ¬(-1 : Int) ≥ 0 := by decide
  have hbpg : max 1 f.banksPerBg.toNat = f.banksPerBg.toNat := max_eq_right h.banks
  have hbgc : max 1 f.bgPerChip.toNat = f.bgPerChip.toNat := max_eq_right h.groups
  rw [flatSum, hbpg, hbgc, if_neg hminus]
  by_cases hp5 : 5 ≤ placement
  · have hsplit : ¬o.chipSplit f placement := fun hs => by
      have h3 := hs.2.2.1
      omega
    obtain ⟨-, hrank, hgroup, hbank, -⟩ := P.high hp5
    rw [if_pos hp5, if_neg hsplit, hrank, hgroup, hbank, ite_self]
    simp only [Nat.zero_mul, Nat.zero_add]
  · obtain ⟨-, hrank, hchip, hslot⟩ := P.low (by omega)
    have hsum : ∀ x, x * f.banksPerBg.toNat + (group * f.banksPerBg.toNat + bank) =
        (x + group) * f.banksPerBg.toNat + bank := fun x => by ring
    rw [if_neg hp5, bankOf_eq P, index]
    by_cases hfold : o.foldedChannels f
    · have hsplit : ¬o.chipSplit f placement := fun hs => hs.2.2.2 hfold
      simp only [if_pos hfold, if_neg hsplit, Nat.zero_mul, Nat.zero_add]
      exact hslot
    · have hchip' : (if o.chipSplit f placement then
            ((unitToHierPos u (.ofNat placement) f).chip.toInt % 2 ^ 32).toNat % o.chips f placement else 0) =
          if o.chipSplit f placement then chip else 0 := by
        split
        next hs =>
          have hlt : chip < 2 ^ 32 := P.chip_lt.1.trans f.chipsPerRank.toNat_lt
          rw [chips, if_pos hs, u32_eq hchip hlt]
          exact Nat.mod_eq_of_lt P.chip_lt.1
        next => rfl
      simp only [if_neg hfold, hrank]
      rw [hchip', Nat.add_mul, Nat.add_assoc, Nat.add_assoc, ← Nat.add_assoc (_ * f.banksPerBg.toNat) _ slot.toNat, hslot, hsum]

theorem flatOf_eq (h : o.Fits f placement) (P : Parts o f placement u slot channel rank chip group bank) :
    o.flatOf f placement u slot (-1) = o.index f placement (o.bankOf f placement u.toNat slot.toNat) := by
  have hlt := index_lt h (bankOf_has h P)
  rw [flatOf, flatSum_eq h.fit P, banksPerChannel_eq h.middle_lt]
  by_cases hp5 : 5 ≤ placement
  · rw [if_pos hp5, Nat.mod_eq_of_lt (slot.toNat_lt.trans (by decide)), ← Nat.mod_eq_of_lt hlt, bankOf_eq P, index,
      (P.high hp5).2.2.2.2]
    have hsplit : ¬o.chipSplit f placement := fun hs => by
      have h3 := hs.2.2.1
      omega
    by_cases hfold : o.foldedChannels f
    · -- a folded part wraps over its ranks
      have hprod : o.middle.prod = f.bgPerChip.toNat * f.banksPerBg.toNat := by
        rw [← banksPerChannel_eq h.middle_lt, h.banks, if_pos hfold, Nat.one_mul]
      have hwrap : (rank * f.bgPerChip.toNat + group) * f.banksPerBg.toNat + bank =
          f.bgPerChip.toNat * f.banksPerBg.toNat * rank + (group * f.banksPerBg.toNat + bank) := by ring
      simp only [if_pos hfold, hprod, hwrap, Nat.zero_mul, Nat.zero_add, Nat.mul_add_mod]
    · have hchips : o.chips f placement = 1 := if_neg hsplit
      simp [hfold, hsplit, hchips]
  · rw [if_neg hp5, Nat.mod_eq_of_lt (hlt.trans h.middle_lt), Nat.mod_eq_of_lt hlt]

theorem composeAddr_eq (hp : 1 ≤ placement ∧ placement ≤ 6) (h : o.Fits f placement) (hu : u.toNat < 2 ^ 31)
    (hin : o.InRange f placement u.toNat slot.toNat) (row lineAddr : Nat) :
    o.composeAddr f placement u slot row lineAddr (-1) =
      (o.address (o.bankOf f placement u.toNat slot.toNat).channel
        (o.index f placement (o.bankOf f placement u.toNat slot.toNat)) (row % o.rows) (o.column lineAddr),
        (o.bankOf f placement u.toNat slot.toNat).channel) ∧
      o.Has f placement (o.bankOf f placement u.toNat slot.toNat) := by
  obtain ⟨channel, rank, chip, group, bank, P⟩ := parts hp h.fit hu hin
  have hhas := bankOf_has h P
  refine ⟨?_, hhas⟩
  have hcol : o.column lineAddr < o.colCount := Nat.mod_lt _ o.colCount_pos
  have hlt := address_lt hhas.channel (index_lt h hhas) (Nat.mod_lt row (count_pos o.rowIdx)) hcol
  rw [composeAddr_parts h.middle_lt, channelOf_eq hp.2 P hhas, flatOf_eq h P, Nat.mod_eq_of_lt (Nat.lt_of_lt_of_le hlt h.bits)]

theorem bankPath_inj {u slot u' slot' : Nat} (hslot : slot < (lowerFans f placement).prod)
    (hslot' : slot' < (lowerFans f placement).prod)
    (heq : o.bankPath f placement u slot = o.bankPath f placement u' slot') : u = u' ∧ slot = slot' := by
  have hlen : (decompose (f.dims o.channels) u placement).length = (decompose (f.dims o.channels) u' placement).length := by
    rw [decompose_eq_digits _ 0, decompose_eq_digits _ 0, length_digits, length_digits]
  obtain ⟨hunit, hdigits⟩ := List.append_inj heq (by split <;> simp [hlen])
  refine ⟨?_, digits_inj hslot hslot' hdigits⟩
  split at hunit
  · exact (List.cons.inj hunit).1
  · have hpos := upperFans_prod_pos (f.dims o.channels) placement
    have hvalue := congrArg (ofDigits (0 :: upperFans (f.dims o.channels) placement)) hunit
    rw [decompose_eq_digits _ 0, decompose_eq_digits _ 0, digits, digits, ofDigits, ofDigits,
      ofDigits_digits (Nat.mod_lt _ hpos), ofDigits_digits (Nat.mod_lt _ hpos), Nat.mul_comm, Nat.div_add_mod, Nat.mul_comm,
      Nat.div_add_mod] at hvalue
    exact hvalue

/-- No two units share a bank: a folded part has one rank, and chips are told apart. -/
def Apart (o : Replay) (f : Fans) (placement : Nat) : Prop :=
  (o.foldedChannels f → f.ranksPerChannel.toNat = 1) ∧
    (placement ≤ 3 → o.foldedChannels f ∨ o.chipSplit f placement ∨ f.chipsPerRank.toNat = 1)

instance : Decidable (o.Apart f placement) := inferInstanceAs (Decidable (_ ∧ _))

theorem bankOf_inj (hp : 1 ≤ placement ∧ placement ≤ 6) (h : f.Fit) (hu : u.toNat < 2 ^ 31) (hu' : u'.toNat < 2 ^ 31)
    (hin : o.InRange f placement u.toNat slot.toNat) (hin' : o.InRange f placement u'.toNat slot'.toNat)
    (hapart : o.Apart f placement)
    (heq : o.bankOf f placement u.toNat slot.toNat = o.bankOf f placement u'.toNat slot'.toNat) : u = u' ∧ slot = slot' := by
  obtain ⟨channel, rank, chip, group, bank, P⟩ := parts hp h hu hin
  obtain ⟨channel', rank', chip', group', bank', P'⟩ := parts hp h hu' hin'
  have hparts : [channel, rank, chip, group, bank] = [channel', rank', chip', group', bank'] := by
    rw [bankOf_eq P, bankOf_eq P'] at heq
    have hchannel := P.channel_lt
    have hchannel' := P'.channel_lt
    have hchip := P.chip_lt
    have hchip' := P'.chip_lt
    by_cases hfold : o.foldedChannels f
    · have hrank := P.rank_lt
      have hrank' := P'.rank_lt
      rw [hapart.1 hfold] at hrank hrank'
      rw [if_pos hfold, if_pos hfold] at heq
      simp only [Bank.mk.injEq, true_and] at heq
      obtain ⟨hfirst, hgroup, hbank⟩ := heq
      have hupper : channel = channel' ∧ chip = chip' := by
        by_cases hp5 : placement ≥ 5
        · rw [if_pos hp5, if_pos hp5] at hfirst
          exact ⟨hfirst, by rw [hchip.2 (by omega), hchip'.2 (by omega)]⟩
        · rw [if_neg hp5, if_neg hp5] at hfirst
          rw [if_neg (by simp [hp5, hfold])] at hchannel hchannel'
          exact ⟨by rw [hchannel, hchannel'], hfirst⟩
      rw [hupper.1, hupper.2, hgroup, hbank, show rank = rank' by omega]
    · rw [if_neg hfold, if_neg hfold] at heq
      simp only [Bank.mk.injEq] at heq
      obtain ⟨hch, hrank, hsplit, hgroup, hbank⟩ := heq
      have hc : chip = chip' := by
        by_cases hs : o.chipSplit f placement
        · rw [if_pos hs, if_pos hs] at hsplit
          exact hsplit
        · by_cases hp3 : placement ≤ 3
          · have hone := ((hapart.2 hp3).resolve_left hfold).resolve_left hs
            rw [hone] at hchip hchip'
            omega
          · rw [hchip.2 (by omega), hchip'.2 (by omega)]
      rw [hch, hrank, hc, hgroup, hbank]
  rw [← P.path, ← P'.path] at hparts
  obtain ⟨hunit, hslot⟩ := bankPath_inj hin.2 hin'.2 hparts
  exact ⟨UInt32.toNat_inj.mp hunit, UInt32.toNat_inj.mp hslot⟩

end Names

/-- The channel digit and the bank digits. -/
def bankPart (o : Replay) (addr : Nat) : List Nat := (o.decodeAddr addr).take (o.middle.length + 1)

/-- **The address names the bank.** Taken apart it gives the channel, the digits of the bank's
index, the row folded onto the rows and the column; two units and slots meet in the channel
and bank digits exactly at one bank, and in the address exactly when row and column meet
too; and where units do not share banks, the bank is the unit and the slot. -/
theorem composeAddr_names (o : Replay) (f : Fans) (placement : Nat) (hp : 1 ≤ placement ∧ placement ≤ 6)
    (h : o.Fits f placement) (u slot : UInt32) (hu : u.toNat < 2 ^ 31)
    (hin : o.InRange f placement u.toNat slot.toNat) (row lineAddr : Nat) :
    let b := o.bankOf f placement u.toNat slot.toNat
    let composed := o.composeAddr f placement u slot row lineAddr (-1)
    o.Has f placement b ∧ composed.2 = b.channel ∧
    o.decodeAddr composed.1 =
      b.channel :: (digits o.middle (o.index f placement b) ++ [row % o.rows, o.column lineAddr]) ∧
    ∀ (u' slot' : UInt32) (_ : u'.toNat < 2 ^ 31) (_ : o.InRange f placement u'.toNat slot'.toNat) (row' lineAddr' : Nat),
      let b' := o.bankOf f placement u'.toNat slot'.toNat
      let composed' := o.composeAddr f placement u' slot' row' lineAddr' (-1)
      (o.bankPart composed.1 = o.bankPart composed'.1 ↔ b = b') ∧
      (composed.1 = composed'.1 ↔ b = b' ∧ row % o.rows = row' % o.rows ∧ o.column lineAddr = o.column lineAddr') ∧
      (o.Apart f placement → (b = b' ↔ u = u' ∧ slot = slot')) := by
  intro b composed
  have hcolumn (line : Nat) : o.column line < o.colCount := Nat.mod_lt _ o.colCount_pos
  have hrow (row : Nat) : row % o.rows < o.rows := Nat.mod_lt _ (count_pos _)
  obtain ⟨hcomposed, hhas⟩ := composeAddr_eq hp h hu hin row lineAddr
  have hdecoded : o.decodeAddr (o.address b.channel _ _ _) = _ := decodeAddr_address (index_lt h hhas) (hrow row) (hcolumn lineAddr)
  have hfirst : composed.1 = o.address b.channel (o.index f placement b) (row % o.rows) (o.column lineAddr) :=
    congrArg Prod.fst hcomposed
  refine ⟨hhas, congrArg Prod.snd hcomposed, by rw [hfirst]; exact hdecoded, fun u' slot' hu' hin' row' lineAddr' => ?_⟩
  intro b' composed'
  obtain ⟨hcomposed', hhas'⟩ := composeAddr_eq hp h hu' hin' row' lineAddr'
  have hdecoded' : o.decodeAddr (o.address b'.channel _ _ _) = _ := decodeAddr_address (index_lt h hhas') (hrow row') (hcolumn lineAddr')
  have hfirst' : composed'.1 = o.address b'.channel (o.index f placement b') (row' % o.rows) (o.column lineAddr') :=
    congrArg Prod.fst hcomposed'
  have hpart : ∀ ch flat x y, ((ch :: (digits o.middle flat ++ [x, y])).take (o.middle.length + 1)) = ch :: digits o.middle flat :=
    fun ch flat x y => by rw [List.take_succ_cons, List.take_left' (length_digits _ _)]
  refine ⟨?_, ?_, fun hapart => ⟨bankOf_inj hp h.fit hu hu' hin hin' hapart, fun ⟨hunit, hslot⟩ => ?_⟩⟩
  · rw [bankPart, bankPart, hfirst, hfirst', hdecoded, hdecoded', hpart, hpart, List.cons.injEq, ← index_inj hhas hhas']
    refine and_congr_right fun _ => ⟨digits_inj (index_lt h hhas) (index_lt h hhas'), fun hindex => ?_⟩
    rw [hindex]
  · rw [hfirst, hfirst', address_inj (index_lt h hhas) (hrow row) (hcolumn lineAddr) (index_lt h hhas') (hrow row')
      (hcolumn lineAddr'), index_inj hhas hhas']
  · show o.bankOf f placement u.toNat slot.toNat = o.bankOf f placement u'.toNat slot'.toNat
    rw [hunit, hslot]

/-- Two channels of two ranks of 4 groups of 4 banks. -/
def ddr : Replay := ⟨[2, 2, 4, 4, 65536, 1024], 4, 128, 6, 6, true, by decide⟩

def ddrFans : Fans := ⟨1, 4, 4, 1, 2⟩

/-- Unit 59 is bank 3 of group 2 of rank 1 in channel 1. -/
theorem composeAddr_names_ddr :
    let b := ddr.bankOf ddrFans 1 59 0
    b = ⟨1, 1, 0, 2, 3⟩ ∧
      ddr.decodeAddr (ddr.composeAddr ddrFans 1 59 0 70000 5 (-1)).1 = [1, 1, 2, 3, 4464, 5] ∧
      (ddr.bankPart (ddr.composeAddr ddrFans 1 59 0 70000 5 (-1)).1 = ddr.bankPart (ddr.composeAddr ddrFans 1 58 0 0 0 (-1)).1 ↔
        b = ddr.bankOf ddrFans 1 58 0) ∧
      (b = ddr.bankOf ddrFans 1 58 0 ↔ (59 : UInt32) = 58 ∧ (0 : UInt32) = 0) := by
  have h := composeAddr_names ddr ddrFans 1 (by decide) ⟨by decide, by decide, by decide⟩ 59 0 (by decide) (by decide) 70000 5
  obtain ⟨-, -, hdecoded, hothers⟩ := h
  obtain ⟨hpart, -, hapart⟩ := hothers 58 0 (by decide) (by decide) 0 0
  exact ⟨by decide, hdecoded.trans (by decide), hpart, hapart (by decide)⟩

/-- A part without ranks keeps its two chips in lock step: their units have one address. Where
the banks of a chip are not an int, a unit goes to a channel that is not its own. And where 64
bits do not number the bytes, units of two channels have one address. -/
theorem lockStep_not_apart :
    (let o : Replay := ⟨[1, 2, 4, 65536, 1024], 3, 128, 6, 6, false, by decide⟩
      let f : Fans := ⟨1, 4, 2, 2, 1⟩
      o.Fits f 3 ∧ o.InRange f 3 0 0 ∧ o.InRange f 3 1 0 ∧
        (o.composeAddr f 3 0 0 0 0 (-1)).1 = (o.composeAddr f 3 1 0 0 0 (-1)).1) ∧
    (let o : Replay := ⟨[3, 1, 1431655766, 3, 1, 1024], 4, 128, 6, 6, true, by decide⟩
      let f : Fans := ⟨1, 3, 1431655766, 1, 1⟩
      o.banksPerChannel = 1 * 1 * 1431655766 * 3 ∧ o.InRange f 1 4 0 ∧
        decompose (f.dims o.channels) 4 1 = [0, 0, 0, 1, 1] ∧ (o.composeAddr f 1 4 0 0 0 (-1)).2 = 2) ∧
    (let o : Replay := ⟨[2, 16, 2 ^ 30, 2 ^ 30], 2, 2 ^ 30, 3, 6, false, by decide⟩
      let f : Fans := ⟨1, 4, 4, 1, 1⟩
      f.Fit ∧ o.banksPerChannel = 1 * 1 * 4 * 4 ∧ o.InRange f 1 31 0 ∧ o.InRange f 1 1 0 ∧
        (o.composeAddr f 1 31 0 0 0 (-1)).1 = (o.composeAddr f 1 1 0 0 0 (-1)).1) := by
  refine ⟨⟨⟨by decide, by decide, by decide⟩, by decide, by decide, by decide⟩, ⟨by decide, by decide, by decide, by decide⟩,
    by decide, by decide, by decide, by decide, by decide⟩

end Replay

end Pimid.Dram
