import Mathlib.Data.Nat.Log
import Mathlib.Data.Nat.ModEq
import Mathlib.Data.Nat.Prime.Basic
import Pimid.Dram.Address

/-!
# The mapper's bit slices

ChRaBaRoCo takes an address apart from its last level up, each level as a slice of as many bits as the logarithm of its
count, rounded down. `composeAddr` puts it together as a mixed-radix number over the counts themselves. The two are one
number system where every count is a power of two, and only there.
-/

namespace Pimid.Dram

open Hier (Fans unitToHierPos)

/-! ## The code -/

/-- An organisation: the counts of the levels down to the row, with those between channel and row in a list, the columns,
the prefetch and the width of a channel; and the replay's lines and their bursts. -/
structure Org where
  channel : ℕ
  banks : List ℕ
  row : ℕ
  columns : ℕ
  prefetch : ℕ
  channelWidth : ℕ
  hasRankLevel : Bool
  lineBits : ℕ
  burstsPerLine : ℕ

namespace Org

variable (g : Org)

/-- The counts down to the row. -/
def upper : List ℕ := g.channel :: (g.banks ++ [g.row])

/-- What the replay makes of it. `txBits` is the first power of two that is not below the bytes of a transaction. -/
def replay : Replay where
  counts := g.upper ++ [g.columns]
  rowIdx := g.banks.length + 1
  colCount := max 1 (g.columns / max 1 g.prefetch)
  txBits := Nat.clog 2 (max 1 (max 1 g.prefetch * g.channelWidth / 8))
  lineBits := g.lineBits
  hasRankLevel := g.hasRankLevel
  colCount_pos := Nat.lt_of_lt_of_le Nat.one_pos (Nat.le_max_left _ _)

def bursts : ℕ := max 1 g.burstsPerLine

/-- The bytes from a burst of a line to the next. -/
def step : ℕ := 2 ^ g.lineBits / g.bursts

/-- `slice_lower_bits` of every level, from the last up: the slices, and what is left. An `Addr_t` has a sign, which a shift
keeps; its lower bits are its remainder. -/
def slices : List ℕ → ℤ → List ℕ × ℤ
  | [], addr => ([], addr)
  | num_bits :: rest, addr =>
    let r := slices rest addr
    ((r.2 % 2 ^ num_bits).toNat :: r.1, r.2 >>> num_bits)

/-- The bits of the column level, which has the granularity of the prefetch. -/
def columnBits : ℤ := Nat.log2 g.columns - Nat.log2 g.prefetch

def txOffset : ℕ := Nat.log2 (g.prefetch * g.channelWidth / 8)

/-- `m_addr_bits` of the levels down to the row. -/
def upperBits : List ℕ := g.upper.map Nat.log2

/-- `m_addr_bits`. -/
def widths : List ℕ := g.upperBits ++ [g.columnBits.toNat]

/-- `ChRaBaRoCo::apply`, where the `uint64_t` becomes an `Addr_t`: none where the column level has a negative number of bits,
which is no shift. -/
def apply (addr : ℕ) : Option (List ℕ) :=
  if g.columnBits < 0 then none
  else some (slices g.widths ((addr : ℤ).bmod (2 ^ 64) >>> g.txOffset)).1

end Org

namespace Org

variable {g : Org}

/-! ## What is read back -/

/-- The counts of all levels as the replay has them, the columns in transactions. -/
def levels (g : Org) : List ℕ := g.replay.channels :: (g.replay.middle ++ [g.replay.rows, g.replay.colCount])

/-- The rows of the whole device. -/
def allRows (g : Org) : ℕ := g.replay.channels * (g.replay.middle.prod * g.replay.rows)

/-- The column of a burst of a line. -/
def burstColumn (g : Org) (lineAddr b : ℕ) : ℕ :=
  (((lineAddr <<< g.lineBits) % 2 ^ 64 + b * g.step) >>> g.replay.txBits) % g.replay.colCount

/-- What `composeAddr` encodes, with the column of a burst. -/
def parts (g : Org) (f : Fans) (placement : ℕ) (unit slot : UInt32) (row lineAddr : ℕ) (chipSel : ℤ) (b : ℕ) : List ℕ :=
  g.replay.channelOf f placement unit ::
    ((Replay.bankDigits g.replay.middle (g.replay.flatOf f placement unit slot chipSel)).1 ++
      [row % g.replay.rows, g.burstColumn lineAddr b])

/-- The address of a burst of a line. -/
def burstAddr (g : Org) (f : Fans) (placement : ℕ) (unit slot : UInt32) (row lineAddr : ℕ) (chipSel : ℤ) (b : ℕ) : ℕ :=
  ((g.replay.composeAddr f placement unit slot row lineAddr chipSel).1 + b * g.step) % 2 ^ 64

/-- **The mapper reads back** what `composeAddr` wrote, for every hierarchy without a division by zero, unit, slot, row, line
and burst: the channel it returned, the bank digits, the row and the burst's column, each below its count; and banks that
differ are read as different. -/
structure ReadsBack (g : Org) : Prop where
  channel : ∀ f : Fans, f.Divide → ∀ placement unit slot row lineAddr chipSel,
    (g.replay.composeAddr f placement unit slot row lineAddr chipSel).2 = g.replay.channelOf f placement unit
  read : ∀ f : Fans, f.Divide → ∀ placement unit slot row lineAddr chipSel b, b < g.bursts →
    g.apply (g.burstAddr f placement unit slot row lineAddr chipSel b) =
      some (g.parts f placement unit slot row lineAddr chipSel b)
  below : ∀ f : Fans, f.Divide → ∀ placement unit slot row lineAddr chipSel b, b < g.bursts →
    List.Forall₂ (· < ·) (g.parts f placement unit slot row lineAddr chipSel b) g.levels
  apart : ∀ f : Fans, f.Divide → ∀ placement unit slot row lineAddr chipSel b unit' slot' row' lineAddr' chipSel' b',
    b < g.bursts → b' < g.bursts →
    (g.apply (g.burstAddr f placement unit slot row lineAddr chipSel b)).map (List.take (g.banks.length + 1)) =
      (g.apply (g.burstAddr f placement unit' slot' row' lineAddr' chipSel' b')).map (List.take (g.banks.length + 1)) →
    g.replay.channelOf f placement unit = g.replay.channelOf f placement unit' ∧
      g.replay.flatOf f placement unit slot chipSel = g.replay.flatOf f placement unit' slot' chipSel'

/-- The organisations whose slices are digits: the counts are powers of two, a prefetch is no more than the columns, 64 bits
number the bytes, and the bursts of a line do not leave their row, or come back to it. -/
structure Sliceable (g : Org) : Prop where
  counts : ∀ c ∈ g.upper, ∃ k, max 1 c = 2 ^ k
  prefetch : g.prefetch ≤ g.columns
  banks : g.replay.middle.prod < 2 ^ 64
  bits : g.allRows * g.replay.colCount * 2 ^ g.replay.txBits ≤ 2 ^ 64
  bursts : ∀ b < g.bursts, g.allRows ∣ ((b * g.step) >>> g.replay.txBits) / g.replay.colCount

/-! ## Slices and digits -/

theorem prod_two_pow (ns : List ℕ) : (ns.map (2 ^ ·)).prod = 2 ^ ns.sum := by
  induction ns with
  | nil => rfl
  | cons n ns ih => rw [List.map_cons, List.prod_cons, ih, List.sum_cons, Nat.pow_add]

/-- A remainder's digits are those of the number, whatever its sign. -/
theorem toNat_emod_mul (addr : ℤ) {A B : ℕ} (hA : 0 < A) (hB : 0 < B) :
    (addr % ((A * B : ℕ) : ℤ)).toNat / A = (addr / A % B).toNat ∧
      (addr % ((A * B : ℕ) : ℤ)).toNat % A = (addr % A).toNat := by
  have hA' : (A : ℤ) ≠ 0 := by exact_mod_cast hA.ne'
  have hpos : (0 : ℤ) < ((A * B : ℕ) : ℤ) := by exact_mod_cast Nat.mul_pos hA hB
  obtain ⟨r, hr⟩ := Int.eq_ofNat_of_zero_le (Int.emod_nonneg addr hpos.ne')
  have hlt : r < A * B := by
    have := Int.emod_lt_of_pos addr hpos
    rw [hr] at this
    exact_mod_cast this
  have haddr : addr = r + A * (B * (addr / ((A * B : ℕ) : ℤ))) := by
    rw [← hr, ← Int.mul_assoc, ← Int.natCast_mul]
    exact (Int.emod_add_mul_ediv addr _).symm
  rw [hr, Int.toNat_natCast, haddr, Int.add_mul_ediv_left _ _ hA', Int.add_mul_emod_self_left, Int.add_mul_emod_self_left,
    ← Int.natCast_ediv, ← Int.natCast_emod, ← Int.natCast_emod, Int.toNat_natCast, Int.toNat_natCast,
    Nat.mod_eq_of_lt (Nat.div_lt_of_lt_mul hlt)]
  exact ⟨rfl, rfl⟩

theorem slices_eq (bits : List ℕ) (addr : ℤ) :
    slices bits addr = (digits (bits.map (2 ^ ·)) (addr % (2 ^ bits.sum : ℕ)).toNat, addr / (2 ^ bits.sum : ℕ)) := by
  induction bits with
  | nil => rw [slices, List.map_nil, digits, List.sum_nil, Nat.pow_zero, Int.natCast_one, Int.ediv_one]
  | cons n bits ih =>
    obtain ⟨hhigh, hlow⟩ := toNat_emod_mul addr (Nat.two_pow_pos bits.sum) (Nat.two_pow_pos n)
    have hpow : 2 ^ (n + bits.sum) = 2 ^ bits.sum * 2 ^ n := by rw [Nat.add_comm, Nat.pow_add]
    rw [slices, ih, List.sum_cons, List.map_cons, digits, prod_two_pow, hpow, hhigh, hlow, Int.shiftRight_eq_div_pow,
      Int.natCast_mul, Int.ediv_ediv_of_nonneg (Int.natCast_nonneg _), Int.natCast_pow 2 n]
    rfl

theorem bmod_shift {addr W k m : ℕ} (h : 2 ^ (k + W) ∣ m) :
    ((addr : ℤ).bmod m >>> k % (2 ^ W : ℕ)).toNat = (addr >>> k) % 2 ^ W := by
  obtain ⟨d, hd⟩ := h
  obtain ⟨c, hc⟩ := @Int.dvd_bmod_sub_self addr m
  have hbmod : (addr : ℤ).bmod m = addr + ((2 ^ k : ℕ) : ℤ) * (((2 ^ W : ℕ) : ℤ) * (d * c)) := by
    rw [← Int.mul_assoc ((2 ^ W : ℕ) : ℤ), ← Int.mul_assoc, ← Int.natCast_mul, ← Int.natCast_mul, ← Nat.mul_assoc, ← Nat.pow_add,
      ← hd, ← hc, Int.add_comm, Int.sub_add_cancel]
  have hk : ((2 ^ k : ℕ) : ℤ) ≠ 0 := by exact_mod_cast (Nat.two_pow_pos k).ne'
  rw [hbmod, Int.shiftRight_eq_div_pow, Int.add_mul_ediv_left _ _ hk, Int.add_mul_emod_self_left, ← Int.natCast_ediv,
    ← Int.natCast_emod, Int.toNat_natCast, Nat.shiftRight_eq_div_pow]

theorem apply_eq {addr : ℕ} (h : 0 ≤ g.columnBits) (hbits : g.txOffset + g.widths.sum ≤ 64) :
    g.apply (addr % 2 ^ 64) = some (digits (g.widths.map (2 ^ ·)) ((addr >>> g.txOffset) % 2 ^ g.widths.sum)) := by
  rw [apply, if_neg (Int.not_lt.mpr h), slices_eq, Int.natCast_emod]
  change some (digits _ (((addr : ℤ) % (2 ^ 64 : ℕ)).bmod (2 ^ 64) >>> g.txOffset % _).toNat) = _
  rw [Int.emod_bmod, bmod_shift (Nat.pow_dvd_pow 2 hbits)]

theorem channels_eq (g : Org) : g.replay.channels = max 1 g.channel := rfl

theorem rows_eq (g : Org) : g.replay.rows = max 1 g.row := by
  change max 1 ((g.channel :: (g.banks ++ [g.row]) ++ [g.columns]).getD (g.banks.length + 1) 0) = max 1 g.row
  rw [List.cons_append, List.getD_cons_succ, List.append_assoc, List.getD_eq_getElem?_getD,
    List.getElem?_append_right (Nat.le_refl _), Nat.sub_self]
  rfl

theorem middle_eq (g : Org) : g.replay.middle = g.banks.map (max 1) := by
  change (List.range' 1 (g.banks.length + 1 - 1)).map g.replay.count = _
  refine List.ext_getElem (by simp) fun i h₁ h₂ => ?_
  rw [List.length_map] at h₂
  rw [List.getElem_map, List.getElem_map, List.getElem_range', Nat.one_mul, Nat.add_comm]
  change max 1 ((g.channel :: (g.banks ++ [g.row]) ++ [g.columns]).getD (i + 1) 0) = _
  rw [List.cons_append, List.getD_cons_succ, List.append_assoc, List.getD_eq_getElem?_getD, List.getElem?_append_left h₂,
    List.getElem?_eq_getElem h₂, Option.getD_some]

/-- The transaction's offset, where the sizes are powers of two. -/
theorem txOffset_eq {p w : ℕ} (hp : g.prefetch = 2 ^ p) (hw : g.channelWidth = 2 ^ w) : g.txOffset = g.replay.txBits := by
  change Nat.log2 (g.prefetch * g.channelWidth / 8) = Nat.clog 2 (max 1 (max 1 g.prefetch * g.channelWidth / 8))
  have hone : max 1 g.prefetch = g.prefetch := max_eq_right (hp ▸ Nat.one_le_two_pow)
  rw [hone, hp, hw, ← Nat.pow_add]
  rcases Nat.lt_or_ge (p + w) 3 with h | h
  · have hlt : 2 ^ (p + w) < 8 := Nat.pow_lt_pow_right (by decide) h
    rw [Nat.div_eq_of_lt hlt]
    rfl
  · obtain ⟨k, hk⟩ := Nat.exists_eq_add_of_le h
    have hdiv : 2 ^ (p + w) / 8 = 2 ^ k := by
      rw [hk, Nat.pow_add]
      exact Nat.mul_div_cancel_left _ (by decide)
    rw [hdiv, max_eq_right Nat.one_le_two_pow, Nat.log2_two_pow, Nat.clog_pow 2 k (by decide)]

/-- The columns in transactions are a power of two: that of the column level's bits, if there are enough. -/
theorem colCount_eq {a p : ℕ} (ha : g.columns = 2 ^ a) (hp : g.prefetch = 2 ^ p) :
    g.replay.colCount = 2 ^ (a - p) ∧ g.columnBits = (a : ℤ) - p := by
  have hone : max 1 g.prefetch = 2 ^ p := by rw [hp]; exact max_eq_right Nat.one_le_two_pow
  constructor
  · change max 1 (g.columns / max 1 g.prefetch) = _
    rw [hone, ha]
    rcases Nat.lt_or_ge a p with h | h
    · rw [Nat.div_eq_of_lt (Nat.pow_lt_pow_right (by decide) h), Nat.sub_eq_zero_of_le h.le]
      rfl
    · rw [Nat.pow_div h (by decide), max_eq_right Nat.one_le_two_pow]
  · rw [columnBits, ha, hp, Nat.log2_two_pow, Nat.log2_two_pow]

theorem two_pow_log2 {c k : ℕ} (h : max 1 c = 2 ^ k) : 2 ^ Nat.log2 c = max 1 c := by
  rcases Nat.eq_zero_or_pos c with rfl | hc
  · rfl
  · rw [max_eq_right hc] at h ⊢
    rw [h, Nat.log2_two_pow]

theorem levels_eq (g : Org) : g.levels = g.upper.map (max 1) ++ [g.replay.colCount] := by
  rw [levels, upper, channels_eq, middle_eq, rows_eq]
  simp

theorem allRows_eq (g : Org) : g.allRows = (g.upper.map (max 1)).prod := by
  rw [allRows, upper, channels_eq, middle_eq, rows_eq]
  simp

theorem allRows_pos (g : Org) : 0 < g.allRows := by
  rw [allRows_eq]
  refine List.prod_pos_iff_forall_pos_nat.mpr fun x hx => ?_
  obtain ⟨c, -, rfl⟩ := List.mem_map.mp hx
  exact Nat.lt_of_lt_of_le Nat.one_pos (Nat.le_max_left 1 c)

/-- Where the counts are powers of two they are those of the slices. -/
theorem widths_levels {a p : ℕ} (ha : g.columns = 2 ^ a) (hp : g.prefetch = 2 ^ p)
    (hcounts : ∀ c ∈ g.upper, ∃ k, max 1 c = 2 ^ k) (hle : g.prefetch ≤ g.columns) :
    g.widths.map (2 ^ ·) = g.levels ∧ 0 ≤ g.columnBits := by
  have hpa : p ≤ a := by
    rw [ha, hp] at hle
    exact (Nat.pow_le_pow_iff_right (by decide)).mp hle
  obtain ⟨hcols, hbits⟩ := colCount_eq ha hp
  have hupper : (g.upper.map Nat.log2).map (2 ^ ·) = g.upper.map (max 1) := by
    rw [List.map_map]
    refine List.map_congr_left fun c hc => ?_
    obtain ⟨k, hk⟩ := hcounts c hc
    exact two_pow_log2 hk
  have hlast : 2 ^ g.columnBits.toNat = g.replay.colCount := by
    rw [hbits, hcols]
    congr 1
    omega
  rw [widths, upperBits, List.map_append, hupper, List.map_singleton, hlast, levels_eq]
  exact ⟨rfl, by rw [hbits]; omega⟩

theorem levels_prod (g : Org) : g.levels.prod = g.allRows * g.replay.colCount := by
  rw [levels_eq, List.prod_append, ← allRows_eq, List.prod_singleton]

theorem apply_digits {a p w : ℕ} (ha : g.columns = 2 ^ a) (hp : g.prefetch = 2 ^ p) (hw : g.channelWidth = 2 ^ w)
    (hcounts : ∀ c ∈ g.upper, ∃ k, max 1 c = 2 ^ k) (hle : g.prefetch ≤ g.columns)
    (h64 : g.allRows * g.replay.colCount * 2 ^ g.replay.txBits ≤ 2 ^ 64) (addr : ℕ) :
    g.apply (addr % 2 ^ 64) = some (digits g.levels ((addr >>> g.replay.txBits) % g.levels.prod)) := by
  obtain ⟨hlevels, hbits⟩ := widths_levels ha hp hcounts hle
  have hprod : 2 ^ g.widths.sum = g.levels.prod := by rw [← prod_two_pow, hlevels]
  rw [← levels_prod, ← hprod, ← Nat.pow_add] at h64
  have hsum := (Nat.pow_le_pow_iff_right (by decide)).mp h64
  rw [apply_eq hbits (by rw [txOffset_eq hp hw]; omega), hlevels, hprod, txOffset_eq hp hw]

/-- The number of a row among those of the device. -/
def place (g : Org) (f : Fans) (placement : ℕ) (unit slot : UInt32) (row : ℕ) (chipSel : ℤ) : ℕ :=
  (g.replay.channelOf f placement unit * g.replay.middle.prod + g.replay.flatOf f placement unit slot chipSel) *
    g.replay.rows + row % g.replay.rows

variable {f : Fans} {placement : ℕ} {unit slot : UInt32} {row lineAddr : ℕ} {chipSel : ℤ} {b : ℕ}

theorem place_lt (h : g.replay.middle.prod < 2 ^ 64) : g.place f placement unit slot row chipSel < g.allRows := by
  have hch : g.replay.channelOf f placement unit < g.replay.channels := Replay.channelOf_lt
  have hflat : g.replay.flatOf f placement unit slot chipSel < g.replay.middle.prod := Replay.flatOf_lt h
  have hrow : row % g.replay.rows < g.replay.rows := Nat.mod_lt _ (Replay.count_pos _)
  rw [allRows, ← Nat.mul_assoc]
  exact two_digits_lt (two_digits_lt hch hflat) hrow

theorem burst_lt (hb : b < g.bursts) : b * g.step < 2 ^ g.lineBits := by
  have hle : g.bursts * g.step ≤ 2 ^ g.lineBits := Nat.mul_div_le _ _
  rcases Nat.eq_zero_or_pos g.step with h | h
  · rw [h, Nat.mul_zero]
    exact Nat.two_pow_pos _
  · exact Nat.lt_of_lt_of_le (Nat.mul_lt_mul_of_pos_right hb h) hle

theorem address_eq (col : ℕ) : g.replay.address (g.replay.channelOf f placement unit)
      (g.replay.flatOf f placement unit slot chipSel) (row % g.replay.rows) col =
    (g.place f placement unit slot row chipSel * g.replay.colCount + col) * 2 ^ g.replay.txBits := by
  rw [Replay.address, Nat.shiftLeft_eq, place]
  ring

theorem burstAddr_eq (h : g.replay.middle.prod < 2 ^ 64) :
    g.burstAddr f placement unit slot row lineAddr chipSel b =
      ((g.place f placement unit slot row chipSel * g.replay.colCount + g.replay.column lineAddr) * 2 ^ g.replay.txBits +
        b * g.step) % 2 ^ 64 := by
  rw [burstAddr, Replay.composeAddr_parts h, address_eq, Nat.mod_add_mod]

theorem burst_shift (n c : ℕ) : (n * 2 ^ g.replay.txBits + c) >>> g.replay.txBits = n + c >>> g.replay.txBits := by
  rw [Nat.shiftRight_eq_div_pow, Nat.shiftRight_eq_div_pow, Nat.mul_comm, Nat.mul_add_div (Nat.two_pow_pos _)]

theorem line_eq (lineBits lineAddr : ℕ) :
    (lineAddr <<< lineBits) % 2 ^ 64 = (lineAddr % 2 ^ (64 - lineBits)) <<< lineBits := by
  rw [Nat.shiftLeft_eq, Nat.shiftLeft_eq]
  rcases Nat.le_total lineBits 64 with h | h
  · rw [show 2 ^ 64 = 2 ^ (64 - lineBits) * 2 ^ lineBits by rw [← Nat.pow_add, Nat.sub_add_cancel h], Nat.mul_mod_mul_right]
  · obtain ⟨k, rfl⟩ := Nat.exists_eq_add_of_le h
    rw [Nat.sub_eq_zero_of_le h, Nat.pow_zero, Nat.mod_one, Nat.zero_mul, Nat.pow_add, ← Nat.mul_assoc,
      Nat.mul_right_comm, Nat.mul_mod_left]

theorem column_eq : g.replay.column lineAddr =
    ((lineAddr % 2 ^ (64 - g.lineBits)) <<< g.lineBits) >>> g.replay.txBits % g.replay.colCount := by
  rw [← line_eq]
  rfl

theorem burstColumn_eq (hb : b < g.bursts) :
    g.burstColumn lineAddr b = (g.replay.column lineAddr + (b * g.step) >>> g.replay.txBits) % g.replay.colCount := by
  have hlt := burst_lt hb
  rw [burstColumn, line_eq, column_eq]
  generalize lineAddr % 2 ^ (64 - g.lineBits) = line
  have hsplit : (line <<< g.lineBits + b * g.step) >>> g.replay.txBits =
      (line <<< g.lineBits) >>> g.replay.txBits + (b * g.step) >>> g.replay.txBits := by
    rw [Nat.shiftLeft_eq, Nat.shiftRight_eq_div_pow, Nat.shiftRight_eq_div_pow, Nat.shiftRight_eq_div_pow]
    rcases Nat.lt_or_ge g.lineBits g.replay.txBits with h | h
    · -- a line within a transaction
      obtain ⟨k, hk⟩ := Nat.exists_eq_add_of_le h.le
      rw [hk, Nat.pow_add, ← Nat.div_div_eq_div_mul, ← Nat.div_div_eq_div_mul, ← Nat.div_div_eq_div_mul,
        Nat.mul_comm line, Nat.mul_add_div (Nat.two_pow_pos _), Nat.div_eq_of_lt hlt, Nat.zero_div, Nat.add_zero,
        Nat.add_zero, Nat.mul_div_cancel_left _ (Nat.two_pow_pos _)]
    · obtain ⟨k, hk⟩ := Nat.exists_eq_add_of_le h
      have hmul : line * 2 ^ g.lineBits = 2 ^ g.replay.txBits * (line * 2 ^ k) := by
        rw [hk, Nat.pow_add]
        ring
      rw [hmul, Nat.mul_add_div (Nat.two_pow_pos _), Nat.mul_div_cancel_left _ (Nat.two_pow_pos _)]
  rw [hsplit, Nat.mod_add_mod]

theorem parts_eq (h : g.replay.middle.prod < 2 ^ 64) : g.parts f placement unit slot row lineAddr chipSel b =
    digits g.levels (g.place f placement unit slot row chipSel * g.replay.colCount + g.burstColumn lineAddr b) := by
  have hflat : g.replay.flatOf f placement unit slot chipSel < g.replay.middle.prod := Replay.flatOf_lt h
  have hrow : row % g.replay.rows < g.replay.rows := Nat.mod_lt _ (Replay.count_pos _)
  have hcol : g.burstColumn lineAddr b < g.replay.colCount := Nat.mod_lt _ g.replay.colCount_pos
  have hdecoded : digits g.levels (g.replay.address (g.replay.channelOf f placement unit) _ _ _ >>> g.replay.txBits) = _ :=
    Replay.decodeAddr_address hflat hrow hcol
  rw [Replay.address, Nat.shiftLeft_shiftRight] at hdecoded
  have hnum : g.place f placement unit slot row chipSel * g.replay.colCount + g.burstColumn lineAddr b =
      (g.replay.channelOf f placement unit * g.replay.middle.prod + g.replay.flatOf f placement unit slot chipSel) *
        (g.replay.rows * g.replay.colCount) + (row % g.replay.rows * g.replay.colCount + g.burstColumn lineAddr b) := by
    rw [place]
    ring
  have hdigits := (Replay.bankDigits_eq g.replay.middle (g.replay.flatOf f placement unit slot chipSel)).1
  rw [Nat.mod_eq_of_lt hflat] at hdigits
  rw [hnum, hdecoded, parts, hdigits]

theorem parts_lt (h : g.replay.middle.prod < 2 ^ 64) :
    List.Forall₂ (· < ·) (g.parts f placement unit slot row lineAddr chipSel b) g.levels := by
  rw [parts_eq h]
  refine digits_lt ?_
  rw [levels_prod]
  exact two_digits_lt (place_lt h) (Nat.mod_lt _ g.replay.colCount_pos)

/-- A carry out of the columns is without effect if it comes back to the same row. -/
theorem mod_eq_self_iff {M N c s : ℕ} (hc : 0 < c) (hN : N < M) :
    (N * c + s) % (M * c) = N * c + s % c ↔ M ∣ s / c := by
  have hsum : N * c + s = (N + s / c) * c + s % c := by
    calc N * c + s = N * c + (c * (s / c) + s % c) := by rw [Nat.div_add_mod]
      _ = (N + s / c) * c + s % c := by ring
  have hmod : (N * c + s) % (M * c) = (N + s / c) % M * c + s % c := by
    have hlow : ((N + s / c) * c + s % c) % c = s % c := by
      rw [Nat.mul_comm, Nat.mul_add_mod, Nat.mod_mod]
    have hhigh : ((N + s / c) * c + s % c) / c = N + s / c := by
      rw [Nat.mul_comm, Nat.mul_add_div hc, Nat.div_eq_of_lt (Nat.mod_lt _ hc), Nat.add_zero]
    rw [hsum, Nat.mul_comm M c, Nat.mod_mul, hlow, hhigh]
    ring
  rw [hmod]
  constructor
  · intro h
    have heq : (N + s / c) % M = N := Nat.eq_of_mul_eq_mul_right hc (Nat.add_right_cancel h)
    have hcong : N ≡ N + s / c [MOD M] := by
      rw [Nat.ModEq, heq, Nat.mod_eq_of_lt hN]
    have := (Nat.modEq_iff_dvd' (Nat.le_add_right N _)).mp hcong
    rwa [Nat.add_sub_cancel_left] at this
  · intro ⟨k, hk⟩
    rw [hk, Nat.add_mul_mod_self_left, Nat.mod_eq_of_lt hN]

/-- A line of whole columns is aligned to them: its bursts carry no more than from the first column. -/
theorem carry_cases {x : ℕ} (hx : g.replay.colCount = 2 ^ x) (hb : b < g.bursts) :
    (g.replay.column lineAddr + (b * g.step) >>> g.replay.txBits) / g.replay.colCount =
        ((b * g.step) >>> g.replay.txBits) / g.replay.colCount ∨
      (g.replay.column lineAddr + (b * g.step) >>> g.replay.txBits) / g.replay.colCount = 0 := by
  have hlt := burst_lt hb
  rw [column_eq, Nat.shiftLeft_eq, Nat.shiftRight_eq_div_pow, Nat.shiftRight_eq_div_pow, hx]
  generalize lineAddr % 2 ^ (64 - g.lineBits) = line
  rcases Nat.lt_or_ge g.lineBits g.replay.txBits with h | h
  · have hzero : b * g.step / 2 ^ g.replay.txBits = 0 :=
      Nat.div_eq_of_lt (hlt.trans_le (Nat.pow_le_pow_right (by decide) h.le))
    rw [hzero, Nat.add_zero]
    exact .inr (Nat.div_eq_of_lt (Nat.mod_lt _ (Nat.two_pow_pos _)))
  · obtain ⟨k, hk⟩ := Nat.exists_eq_add_of_le h
    have hmul : line * 2 ^ g.lineBits / 2 ^ g.replay.txBits = 2 ^ k * line := by
      have : line * 2 ^ g.lineBits = 2 ^ g.replay.txBits * (2 ^ k * line) := by
        rw [hk, Nat.pow_add]
        ring
      rw [this, Nat.mul_div_cancel_left _ (Nat.two_pow_pos _)]
    have hshift : b * g.step / 2 ^ g.replay.txBits < 2 ^ k :=
      Nat.div_lt_of_lt_mul (by rwa [← Nat.pow_add, ← hk])
    rw [hmul]
    rcases Nat.lt_or_ge x k with hxk | hkx
    · obtain ⟨j, hj⟩ := Nat.exists_eq_add_of_le hxk.le
      have hzero : 2 ^ k * line % 2 ^ x = 0 := by
        rw [hj, Nat.pow_add, Nat.mul_assoc, Nat.mul_mod_right]
      rw [hzero, Nat.zero_add]
      exact .inl rfl
    · -- the line's first column is a multiple of its columns, and so is the count
      obtain ⟨j, hj⟩ := Nat.exists_eq_add_of_le hkx
      refine .inr (Nat.div_eq_of_lt ?_)
      rw [hj, Nat.pow_add, Nat.mul_mod_mul_left]
      have hlow : line % 2 ^ j + 1 ≤ 2 ^ j := Nat.mod_lt _ (Nat.two_pow_pos _)
      calc 2 ^ k * (line % 2 ^ j) + b * g.step / 2 ^ g.replay.txBits
          < 2 ^ k * (line % 2 ^ j) + 2 ^ k := Nat.add_lt_add_left hshift _
        _ = 2 ^ k * (line % 2 ^ j + 1) := (Nat.mul_succ _ _).symm
        _ ≤ 2 ^ k * 2 ^ j := Nat.mul_le_mul_left _ hlow

/-- Where the slices are digits, a burst reads back if its carry comes back to the row. -/
theorem read_iff {a p w : ℕ} (ha : g.columns = 2 ^ a) (hp : g.prefetch = 2 ^ p) (hw : g.channelWidth = 2 ^ w)
    (hcounts : ∀ c ∈ g.upper, ∃ k, max 1 c = 2 ^ k) (hle : g.prefetch ≤ g.columns) (h : g.replay.middle.prod < 2 ^ 64)
    (h64 : g.allRows * g.replay.colCount * 2 ^ g.replay.txBits ≤ 2 ^ 64) (hb : b < g.bursts) :
    g.apply (g.burstAddr f placement unit slot row lineAddr chipSel b) =
        some (g.parts f placement unit slot row lineAddr chipSel b) ↔
      g.allRows ∣ (g.replay.column lineAddr + (b * g.step) >>> g.replay.txBits) / g.replay.colCount := by
  have hplace : g.place f placement unit slot row chipSel < g.allRows := place_lt h
  rw [burstAddr_eq h, apply_digits ha hp hw hcounts hle h64, Option.some.injEq, burst_shift, parts_eq h, burstColumn_eq hb,
    levels_prod, Nat.add_assoc, ← mod_eq_self_iff g.replay.colCount_pos hplace]
  constructor
  · refine digits_inj ?_ ?_
    · rw [levels_prod]
      exact Nat.mod_lt _ (Nat.mul_pos (allRows_pos g) g.replay.colCount_pos)
    · rw [levels_prod]
      exact two_digits_lt hplace (Nat.mod_lt _ g.replay.colCount_pos)
  · exact congrArg _

theorem parts_take (h : g.replay.middle.prod < 2 ^ 64) : (g.parts f placement unit slot row lineAddr chipSel b).take (g.banks.length + 1) =
    g.replay.channelOf f placement unit ::
      digits g.replay.middle (g.replay.flatOf f placement unit slot chipSel) := by
  have hflat : g.replay.flatOf f placement unit slot chipSel < g.replay.middle.prod := Replay.flatOf_lt h
  have hdigits := (Replay.bankDigits_eq g.replay.middle (g.replay.flatOf f placement unit slot chipSel)).1
  rw [Nat.mod_eq_of_lt hflat] at hdigits
  rw [parts, hdigits, List.take_succ_cons, List.take_left']
  rw [length_digits, middle_eq, List.length_map]

/-- **Enough**: an organisation whose slices are digits is read back. -/
theorem readsBack_of_sliceable {a p w : ℕ} (ha : g.columns = 2 ^ a) (hp : g.prefetch = 2 ^ p)
    (hw : g.channelWidth = 2 ^ w) (h : g.Sliceable) : g.ReadsBack := by
  have hread : ∀ f placement unit slot row lineAddr chipSel b, b < g.bursts →
      g.apply (g.burstAddr f placement unit slot row lineAddr chipSel b) =
        some (g.parts f placement unit slot row lineAddr chipSel b) := by
    intro f placement unit slot row lineAddr chipSel b hb
    rw [read_iff ha hp hw h.counts h.prefetch h.banks h.bits hb]
    have hcarry := @carry_cases g lineAddr b _ (colCount_eq ha hp).1 hb
    rcases hcarry with hc | hc
    · rw [hc]
      exact h.bursts b hb
    · rw [hc]
      exact Nat.dvd_zero _
  refine ⟨fun f _ placement unit slot row lineAddr chipSel => ?_, fun f _ => hread f, fun _ _ _ _ _ _ _ _ _ _ => parts_lt h.banks,
    ?_⟩
  · rw [Replay.composeAddr_parts h.banks]
  · intro f _ placement unit slot row lineAddr chipSel b unit' slot' row' lineAddr' chipSel' b' hb hb' heq
    rw [hread _ _ _ _ _ _ _ _ hb, hread _ _ _ _ _ _ _ _ hb', Option.map_some, Option.map_some, Option.some.injEq,
      parts_take h.banks, parts_take h.banks, List.cons.injEq] at heq
    exact ⟨heq.1, digits_inj (Replay.flatOf_lt h.banks) (Replay.flatOf_lt h.banks) heq.2⟩

/-! ## The slices of the last bank -/

theorem digits_last {fs : List ℕ} (h : ∀ f ∈ fs, 0 < f) : digits fs (fs.prod - 1) = fs.map (· - 1) := by
  induction fs with
  | nil => rfl
  | cons f fs ih =>
    have hf : 0 < f := h f List.mem_cons_self
    have hfs : ∀ f ∈ fs, 0 < f := fun x hx => h x (List.mem_cons_of_mem _ hx)
    have hprod : 0 < fs.prod := List.prod_pos_iff_forall_pos_nat.mpr hfs
    have hlast : f * fs.prod - 1 = fs.prod * (f - 1) + (fs.prod - 1) := by
      obtain ⟨k, rfl⟩ := Nat.exists_eq_succ_of_ne_zero hf.ne'
      rw [Nat.succ_mul, Nat.add_sub_assoc hprod, Nat.succ_sub_one, Nat.mul_comm]
    have hlow : fs.prod - 1 < fs.prod := Nat.sub_lt hprod Nat.one_pos
    rw [digits, List.prod_cons, hlast, Nat.mul_add_div hprod, Nat.div_eq_of_lt hlow, Nat.add_zero, Nat.mul_add_mod,
      Nat.mod_eq_of_lt hlow, ih hfs, List.map_cons]

/-- The hierarchy of one of everything. -/
def single : Fans := ⟨1, 1, 1, 1, 1⟩

theorem channelOf_single {c : ℕ} (h : g.replay.channels ≤ 2 ^ 31) (hc : c < g.replay.channels) :
    g.replay.channelOf single 6 (.ofNat c) = c := by
  have hlt : c < 2 ^ 31 := by omega
  have hunit : (UInt32.ofNat c).toNat = c := UInt32.toNat_ofNat_of_lt (hlt.trans (by decide))
  change Replay.u64 (UInt32.ofNat c).toInt32.toInt % g.replay.channels = _
  rw [Hier.toInt32_eq, hunit, Int32.toInt_ofNat_of_lt hlt, Replay.u64_ofNat (hlt.trans (by decide)), Nat.mod_eq_of_lt hc]

theorem flatOf_single {c : ℕ} (h : g.replay.middle.prod ≤ 2 ^ 32) (hc : c < g.replay.middle.prod) (unit : UInt32) :
    g.replay.flatOf single 6 unit (.ofNat c) (-1) = c := by
  have hslot : (UInt32.ofNat c).toNat = c := UInt32.toNat_ofNat_of_lt (by change _ < 2 ^ 32; omega)
  have hsplit : ¬g.replay.chipSplit single 6 := fun hs => absurd hs.2.1 (by decide)
  have hrank : (if g.replay.foldedChannels single then 0
      else Replay.u64 (unitToHierPos unit (.ofNat 6) single).rank.toInt) = 0 := by
    split <;> rfl
  rw [Replay.flatOf, Replay.banksPerChannel_eq (by omega), Replay.flatSum, hslot, if_neg hsplit, hrank, Nat.zero_mul]
  change (((0 + 0) * 1 + 0) * 1 + 0 + c) % 2 ^ 64 % _ = _
  rw [Nat.add_zero, Nat.zero_mul, Nat.zero_add, Nat.mod_eq_of_lt (by omega : c < 2 ^ 64), Nat.mod_eq_of_lt hc]

theorem slices_lt (bits : List ℕ) (addr : ℤ) : List.Forall₂ (· < ·) (slices bits addr).1 (bits.map (2 ^ ·)) := by
  have hpos : (0 : ℤ) < ((2 ^ bits.sum : ℕ) : ℤ) := by exact_mod_cast Nat.two_pow_pos bits.sum
  rw [slices_eq]
  refine digits_lt ?_
  rw [prod_two_pow, Int.toNat_lt (Int.emod_nonneg _ hpos.ne')]
  exact Int.emod_lt_of_pos _ hpos

theorem parts_last (hch : g.replay.channels ≤ 2 ^ 31) (hbanks : g.replay.middle.prod ≤ 2 ^ 32) (lineAddr b : ℕ) :
    g.parts single 6 (.ofNat (g.replay.channels - 1)) (.ofNat (g.replay.middle.prod - 1)) (g.replay.rows - 1) lineAddr (-1) b =
      g.upper.map (max 1 · - 1) ++ [g.burstColumn lineAddr b] := by
  have hpos : 0 < g.replay.rows := Replay.count_pos _
  have hprod : 0 < g.replay.middle.prod := Replay.middle_prod_pos
  have hfactor : ∀ c ∈ g.replay.middle, 0 < c := List.prod_pos_iff_forall_pos_nat.mp hprod
  have hrow : (g.replay.rows - 1) % g.replay.rows = g.replay.rows - 1 := Nat.mod_eq_of_lt (by omega)
  have hlow : g.replay.middle.prod - 1 < g.replay.middle.prod := by omega
  rw [parts, channelOf_single hch (Nat.sub_lt (Replay.count_pos 0) Nat.one_pos), flatOf_single hbanks hlow, (Replay.bankDigits_eq _ _).1, Nat.mod_eq_of_lt hlow,
    digits_last hfactor, hrow, channels_eq, middle_eq, rows_eq, upper]
  simp

/-- A slice that holds a count's last value makes it a power of two. -/
theorem max_eq_two_pow {c : ℕ} (h : max 1 c - 1 < 2 ^ Nat.log2 c) : max 1 c = 2 ^ Nat.log2 c := by
  rcases Nat.eq_zero_or_pos c with rfl | hc
  · rfl
  · have hle : 2 ^ Nat.log2 c ≤ c := Nat.log2_self_le hc.ne'
    rw [max_eq_right hc] at h ⊢
    omega

/-- A row in the upper half of the device has a number. -/
theorem exists_place (hch : g.replay.channels ≤ 2 ^ 31) (hbanks : g.replay.middle.prod ≤ 2 ^ 32) {r : ℕ}
    (hrows : g.allRows = 2 ^ (r + 1)) : ∃ unit slot row, g.place single 6 unit slot row (-1) = 2 ^ r := by
  have hprod : 0 < g.replay.middle.prod := Replay.middle_prod_pos
  have hrow : 0 < g.replay.rows := Replay.count_pos _
  have hchannels : 0 < g.replay.channels := Replay.count_pos 0
  have heven : ∀ c, c ∣ 2 ^ (r + 1) → c ≠ 1 → ∃ k, c = 2 * k := by
    intro c hc hne
    obtain ⟨k, -, rfl⟩ := (Nat.dvd_prime_pow Nat.prime_two).mp hc
    cases k with
    | zero => exact absurd rfl hne
    | succ k => exact ⟨2 ^ k, Nat.pow_succ'⟩
  have hplace : ∀ ch flat row, ch < g.replay.channels → flat < g.replay.middle.prod → row < g.replay.rows →
      2 * ((ch * g.replay.middle.prod + flat) * g.replay.rows + row) = g.allRows →
      ∃ unit slot row, g.place single 6 unit slot row (-1) = 2 ^ r := by
    intro ch flat row hc hf hr heq
    refine ⟨.ofNat ch, .ofNat flat, row, ?_⟩
    rw [place, channelOf_single hch hc, flatOf_single hbanks hf, Nat.mod_eq_of_lt hr]
    rw [hrows, Nat.pow_succ'] at heq
    omega
  have hall : g.allRows = g.replay.channels * (g.replay.middle.prod * g.replay.rows) := rfl
  have hdvd : g.replay.channels * (g.replay.middle.prod * g.replay.rows) ∣ 2 ^ (r + 1) := hrows ▸ Nat.dvd_refl _
  -- the first level with more than one number has a half
  by_cases hone : g.replay.channels = 1
  · by_cases hbank : g.replay.middle.prod = 1
    · by_cases hr : g.replay.rows = 1
      · rw [hall, hone, hbank, hr, Nat.pow_succ'] at hrows
        omega
      · obtain ⟨k, hk⟩ := heven _ (dvd_of_mul_left_dvd (dvd_of_mul_left_dvd hdvd)) hr
        refine hplace 0 0 k hchannels hprod (by omega) ?_
        rw [hall, hone, hbank, hk]
        ring
    · obtain ⟨k, hk⟩ := heven _ (dvd_of_mul_right_dvd (dvd_of_mul_left_dvd hdvd)) hbank
      refine hplace 0 k 0 hchannels (by omega) hrow ?_
      rw [hall, hone, hk]
      ring
  · obtain ⟨k, hk⟩ := heven _ (dvd_of_mul_right_dvd hdvd) hone
    refine hplace k 0 0 (by omega) hprod hrow ?_
    rw [hall, hk]
    ring

/-- An organisation whose bytes 64 bits do not number reads the upper half of the device as the lower. -/
theorem bits_of_read {a p w : ℕ} (ha : g.columns = 2 ^ a) (hp : g.prefetch = 2 ^ p) (hw : g.channelWidth = 2 ^ w)
    (hch : g.replay.channels ≤ 2 ^ 31) (hbanks : g.replay.middle.prod ≤ 2 ^ 32) (hcolumns : g.columns < 2 ^ 31)
    (hwidth : g.prefetch * g.channelWidth < 2 ^ 31) (hcounts : ∀ c ∈ g.upper, ∃ k, max 1 c = 2 ^ k)
    (hle : g.prefetch ≤ g.columns)
    (hread : ∀ unit slot row, g.apply (g.burstAddr single 6 unit slot row 0 (-1) 0) =
      some (g.parts single 6 unit slot row 0 (-1) 0)) :
    g.allRows * g.replay.colCount * 2 ^ g.replay.txBits ≤ 2 ^ 64 := by
  have hmiddle : g.replay.middle.prod < 2 ^ 64 := by omega
  obtain ⟨hlevels, hbits⟩ := widths_levels ha hp hcounts hle
  have hcols := (colCount_eq ha hp).1
  have hprod : g.allRows * g.replay.colCount = 2 ^ g.widths.sum := by rw [← levels_prod, ← prod_two_pow, hlevels]
  obtain ⟨R, -, hR⟩ := (Nat.dvd_prime_pow Nat.prime_two).mp (Dvd.intro _ hprod : g.allRows ∣ 2 ^ g.widths.sum)
  cases R with
  | zero =>
    -- columns and transactions are below 2^31
    have hcol : g.replay.colCount ≤ 2 ^ 31 := by
      have hdiv := Nat.div_le_self g.columns (max 1 g.prefetch)
      change max 1 (g.columns / max 1 g.prefetch) ≤ _
      omega
    have htx : 2 ^ g.replay.txBits ≤ 2 ^ 31 := by
      rw [← txOffset_eq hp hw, txOffset]
      rcases Nat.eq_zero_or_pos (g.prefetch * g.channelWidth / 8) with h | h
      · rw [h]
        decide
      · have hlog := Nat.log2_self_le h.ne'
        omega
    rw [hR, Nat.pow_zero, Nat.one_mul]
    exact (Nat.mul_le_mul hcol htx).trans (by decide)
  | succ r =>
    by_contra hgt
    obtain ⟨unit, slot, row, hplace⟩ := exists_place hch hbanks hR
    have hcolumn : g.replay.column 0 = 0 := by
      rw [Replay.column, Nat.zero_shiftLeft, Nat.zero_mod, Nat.zero_shiftRight, Nat.zero_mod]
    have hburst : g.burstColumn 0 0 = 0 := by
      rw [burstColumn, Nat.zero_shiftLeft, Nat.zero_mod, Nat.zero_mul, Nat.zero_add, Nat.zero_shiftRight, Nat.zero_mod]
    have hzero : g.burstAddr single 6 unit slot row 0 (-1) 0 = 0 := by
      rw [hR, hcols, ← Nat.pow_add, ← Nat.pow_add] at hgt
      have hsum := (Nat.pow_lt_pow_iff_right (by decide)).mp (not_le.mp hgt)
      rw [burstAddr_eq hmiddle, hplace, hcolumn, hcols, Nat.zero_mul, Nat.add_zero, Nat.add_zero, ← Nat.pow_add, ← Nat.pow_add]
      exact Nat.mod_eq_zero_of_dvd (Nat.pow_dvd_pow 2 (by omega))
    have hpos : 0 < g.levels.prod := levels_prod g ▸ Nat.mul_pos (allRows_pos g) g.replay.colCount_pos
    have heq := hread unit slot row
    rw [hzero, apply, if_neg (Int.not_lt.mpr hbits), slices_eq, hlevels, parts_eq hmiddle, hburst, hplace, Nat.add_zero,
      Option.some.injEq, Nat.cast_zero, Int.zero_bmod, Int.zero_shiftRight, Int.zero_emod] at heq
    have hlt : 2 ^ r * g.replay.colCount < g.levels.prod := by
      rw [levels_prod, ← hplace]
      exact Nat.mul_lt_mul_of_pos_right (place_lt hmiddle) g.replay.colCount_pos
    exact absurd (digits_inj hpos hlt heq) (Nat.mul_pos (Nat.two_pow_pos r) g.replay.colCount_pos).ne

/-- No division of the hierarchy of one of everything is by zero. -/
theorem single_divide : single.Divide := ⟨by decide, by decide⟩

/-- **Needed**: an organisation that is read back, and whose last bank has numbers, has slices that are digits. -/
theorem sliceable_of_readsBack {a p w : ℕ} (ha : g.columns = 2 ^ a) (hp : g.prefetch = 2 ^ p)
    (hw : g.channelWidth = 2 ^ w) (hch : g.replay.channels ≤ 2 ^ 31) (hbanks : g.replay.middle.prod ≤ 2 ^ 32)
    (hcolumns : g.columns < 2 ^ 31) (hwidth : g.prefetch * g.channelWidth < 2 ^ 31) (h : g.ReadsBack) : g.Sliceable := by
  have hmiddle : g.replay.middle.prod < 2 ^ 64 := by omega
  have hread := fun unit slot row b => h.read single single_divide 6 unit slot row 0 (-1) b
  have hzero : 0 < g.bursts := Nat.lt_of_lt_of_le Nat.one_pos (Nat.le_max_left _ _)
  have hfirst := hread (.ofNat (g.replay.channels - 1)) (.ofNat (g.replay.middle.prod - 1)) (g.replay.rows - 1) 0 hzero
  rw [parts_last hch hbanks, apply] at hfirst
  have hbits : ¬g.columnBits < 0 := by
    intro hneg
    rw [if_pos hneg] at hfirst
    exact absurd hfirst.symm (Option.some_ne_none _)
  have hle : g.prefetch ≤ g.columns := by
    rw [(colCount_eq ha hp).2] at hbits
    rw [ha, hp]
    exact Nat.pow_le_pow_right (by decide) (by omega)
  have hcounts : ∀ c ∈ g.upper, ∃ k, max 1 c = 2 ^ k := by
    intro c hc
    rw [if_neg hbits, Option.some.injEq] at hfirst
    have hlt := slices_lt g.widths ((g.burstAddr single 6 (.ofNat (g.replay.channels - 1)) (.ofNat (g.replay.middle.prod - 1))
      (g.replay.rows - 1) 0 (-1) 0 : ℤ).bmod (2 ^ 64) >>> g.txOffset)
    rw [hfirst, widths, upperBits, List.map_append, List.map_map] at hlt
    have hupper : List.Forall₂ (· < ·) (g.upper.map (max 1 · - 1)) (g.upper.map ((2 ^ ·) ∘ Nat.log2)) := by
      have := List.forall₂_take g.upper.length hlt
      rwa [List.take_left' (List.length_map _), List.take_left' (List.length_map _)] at this
    rw [List.forall₂_map_left_iff, List.forall₂_map_right_iff, List.forall₂_same] at hupper
    exact ⟨_, max_eq_two_pow (hupper c hc)⟩
  have h64 := bits_of_read ha hp hw hch hbanks hcolumns hwidth hcounts hle fun unit slot row => hread unit slot row 0 hzero
  refine ⟨hcounts, hle, hmiddle, h64, fun b hb => ?_⟩
  have hburst := (read_iff ha hp hw hcounts hle hmiddle h64 hb).mp (hread 0 0 0 b hb)
  have hcolumn : g.replay.column 0 = 0 := by
    rw [Replay.column, Nat.zero_shiftLeft, Nat.zero_mod, Nat.zero_shiftRight, Nat.zero_mod]
  rwa [hcolumn, Nat.zero_add] at hburst

/-! ## The result -/

/-- **Where the mapper reads back**: exactly on the organisations whose slices are digits. A unit is an int and a slot an
unsigned int, so the last of more channels or banks than these count has no number; the columns and the bits of a prefetch
are ints. -/
theorem readsBack_iff (g : Org) {a p w : ℕ} (ha : g.columns = 2 ^ a) (hp : g.prefetch = 2 ^ p)
    (hw : g.channelWidth = 2 ^ w) :
    (g.Sliceable → g.ReadsBack) ∧
      (g.replay.channels ≤ 2 ^ 31 → g.replay.middle.prod ≤ 2 ^ 32 → g.columns < 2 ^ 31 →
        g.prefetch * g.channelWidth < 2 ^ 31 → (g.ReadsBack ↔ g.Sliceable)) :=
  ⟨readsBack_of_sliceable ha hp hw, fun hch hbanks hcolumns hwidth =>
    ⟨sliceable_of_readsBack ha hp hw hch hbanks hcolumns hwidth, readsBack_of_sliceable ha hp hw⟩⟩

/-- Two ranks of four groups of four banks. -/
def twoRanks : Org := ⟨1, [2, 4, 4], 65536, 1024, 8, 64, true, 6, 1⟩

theorem readsBack_iff_twoRanks : twoRanks.ReadsBack ↔ twoRanks.Sliceable :=
  (readsBack_iff twoRanks (show 1024 = 2 ^ 10 from rfl) (show 8 = 2 ^ 3 from rfl) (show 64 = 2 ^ 6 from rfl)).2
    (by decide) (by decide) (by decide) (by decide)

/-- Three ranks of `DDR4_8Gb_x8`. -/
def threeRanks : Org := ⟨1, [3, 4, 4], 65536, 1024, 8, 64, true, 6, 1⟩

/-- The rank's one bit takes the third rank for the first, and the banks 37 and 5 meet. -/
theorem threeRanks_not_readsBack :
    threeRanks.replay.flatOf ⟨1, 4, 4, 1, 3⟩ 1 37 0 (-1) = 37 ∧ threeRanks.replay.flatOf ⟨1, 4, 4, 1, 3⟩ 1 5 0 (-1) = 5 ∧
    threeRanks.apply (threeRanks.burstAddr ⟨1, 4, 4, 1, 3⟩ 1 37 0 0 0 (-1) 0) = some [0, 0, 1, 1, 0, 0] ∧
    threeRanks.apply (threeRanks.burstAddr ⟨1, 4, 4, 1, 3⟩ 1 5 0 0 0 (-1) 0) = some [0, 0, 1, 1, 0, 0] ∧
    ¬threeRanks.ReadsBack := by
  have hone : threeRanks.apply (threeRanks.burstAddr ⟨1, 4, 4, 1, 3⟩ 1 37 0 0 0 (-1) 0) = some [0, 0, 1, 1, 0, 0] := by decide
  refine ⟨by decide, by decide, hone, by decide, fun h => ?_⟩
  have hread := h.read ⟨1, 4, 4, 1, 3⟩ ⟨by decide, by decide⟩ 1 37 0 0 0 (-1) 0 (by decide)
  rw [hone, Option.some.injEq] at hread
  exact absurd hread (by decide)

end Org

end Pimid.Dram
