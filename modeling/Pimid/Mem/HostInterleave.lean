import Mathlib.Tactic.Ring
import Pimid.Lib.Radix
import Pimid.Mem.Pages

/-!
# Pages of the host's own

A page that no element has placed is spread over the device in chunks of `g` bytes: chunk
`c` goes to a bank group, then a chip where the chips are channels, then a bank, a rank and
a channel, least significant first. The unit is those digits put together in the order of
the tree, and keeps its chunks in the order it gets them. No two bytes meet, and each of
the places that the host sees gets one chunk of any `spread` in a row.
-/

namespace Pimid.Mem

namespace Interleave

variable (h : Interleave)

def nsa : Nat := max 1 h.subarraysPerBank
def nb : Nat := max 1 h.banksPerBG
def nbg : Nat := max 1 h.bgPerChip
def nchip : Nat := max 1 h.chipsPerRank
def nrk : Nat := max 1 h.ranksPerChannel

/-- The units of a chip. -/
def perChip : Nat :=
  if h.placementLevel = 0 then h.nsa * h.nb * h.nbg else if h.placementLevel = 1 then h.nb * h.nbg else h.nbg

def perCh : Nat := h.perChip * h.nchip * h.nrk

/-- The chips are the channels: no lock step. -/
def folded : Prop := 1 < h.dramChannels ∧ h.chipsPerRank = h.dramChannels

instance : Decidable h.folded := inferInstanceAs (Decidable (_ ∧ _))

/-- The chips spread over. -/
def nc : Nat := if h.folded then h.nchip else 1

/-- The banks of a group that are units or hold some. -/
def banks : Nat := if h.placementLevel = 2 then 1 else h.nb

end Interleave

/-- Where a chunk goes. -/
structure ChunkPlace where
  bg : Nat
  chip : Nat
  b : Nat
  rk : Nat
  chn : Nat
deriving DecidableEq, Repr

/-- The rows of a bank. -/
structure RowModel where
  rowStrideBytes : Nat
  rowSlotsPerUnit : Nat
  rowsPerBank : Nat

structure RowPlace where
  slot : Nat
  row : Nat
  whole : Nat
deriving DecidableEq, Repr

def RowModel.rowOf (r : RowModel) (byteAddr : Nat) : RowPlace :=
  let stripe := byteAddr / r.rowStrideBytes
  let whole := stripe / r.rowSlotsPerUnit
  { slot := stripe % r.rowSlotsPerUnit
    row := if r.rowsPerBank = 0 then whole else whole % r.rowsPerBank
    whole := whole }

namespace Device

variable (d : Device)

def nch : Nat := max 1 (d.totalUnits / d.host.perCh)

/-- The host-visible banks. -/
def spread : Nat :=
  (if d.host.placementLevel = 2 then d.host.nbg else d.host.nbg * d.host.nb) * d.host.nc * d.host.nrk * d.nch

/-- The digits of a chunk's number in its run of `spread`. -/
def placeOf (x : Nat) : ChunkPlace :=
  let bg := x % d.host.nbg
  let x := x / d.host.nbg
  let chip := x % d.host.nc
  let x := x / d.host.nc
  let b := if d.host.placementLevel = 2 then 0 else x % d.host.nb
  let x := if d.host.placementLevel = 2 then x else x / d.host.nb
  let rk := x % d.host.nrk
  let x := x / d.host.nrk
  ⟨bg, chip, b, rk, x % d.nch⟩

def inChip (p : ChunkPlace) : Nat :=
  if d.host.placementLevel = 0 then (p.bg * d.host.nb + p.b) * d.host.nsa
  else if d.host.placementLevel = 1 then p.bg * d.host.nb + p.b else p.bg

def unitOf (p : ChunkPlace) : Nat :=
  (((p.chn * d.host.nrk + p.rk) * d.host.nchip + p.chip) * d.host.perChip + d.inChip p) % d.totalUnits

/-- The place of the chunk a byte is in. -/
def chunkPlace (c : Nat) : ChunkPlace :=
  d.placeOf (c % d.spread)

/-- The unit of a byte of an interleaved page. -/
def hostUnit (byteAddr : Nat) : Nat :=
  d.unitOf (d.chunkPlace (byteAddr / d.host.hostInterleaveBytes))

/-- Its place in the unit. -/
def hostRowAddr (byteAddr : Nat) : Nat :=
  byteAddr / d.host.hostInterleaveBytes / d.spread * d.host.hostInterleaveBytes +
    byteAddr % d.host.hostInterleaveBytes

/-- The host's pages are spread in chunks, on a device of whole channels. -/
structure Interleaved : Prop where
  granularity : 64 ≤ d.host.hostInterleaveBytes ∧ d.host.hostInterleaveBytes < 4096
  level : d.host.placementLevel ≤ 2
  units : 0 < d.totalUnits
  channels : d.host.perCh ∣ d.totalUnits

/-- A place the host sees: the banks of a group at bank-group placement, and the chips of a rank in lock step, are one. -/
structure Visible (p : ChunkPlace) : Prop where
  bg : p.bg < d.host.nbg
  chip : p.chip < d.host.nc
  b : p.b < d.host.banks
  rk : p.rk < d.host.nrk
  chn : p.chn < d.nch

variable {d} {p : Placement} {line : Nat}

/-- The host's own rule, step by step, goes by the digits. -/
theorem hostOwn_eq (hd : d.Interleaved) (line : Nat) : d.hostOwn line = d.hostUnit (line * 64) := by
  unfold hostOwn
  rw [if_pos ⟨hd.granularity.1, hd.granularity.2, hd.level⟩]
  rfl

theorem hostTarget_unplaced (hd : d.Interleaved) (hstack : d.stackOf (line * 64) = none)
    (hp : p.table (line * 64 / 4096) = none) : d.hostTarget p line = d.hostUnit (line * 64) := by
  unfold hostTarget hostPage
  rw [hstack]
  dsimp only
  rw [hp]
  dsimp only
  rw [if_pos hd.units, hostOwn_eq hd]

/-! ## The digits of a chunk -/

section Digits

variable (d)

theorem nbg_pos : 0 < d.host.nbg := Nat.le_max_left ..
theorem nchip_pos : 0 < d.host.nchip := Nat.le_max_left ..
theorem nsa_pos : 0 < d.host.nsa := Nat.le_max_left ..
theorem nb_pos : 0 < d.host.nb := Nat.le_max_left ..
theorem nrk_pos : 0 < d.host.nrk := Nat.le_max_left ..
theorem nch_pos : 0 < d.nch := Nat.le_max_left ..

theorem nc_le : d.host.nc ≤ d.host.nchip := by
  unfold Interleave.nc
  split
  · exact Nat.le_refl _
  · exact nchip_pos d

/-- The bases, most significant first. -/
def bases : List Nat :=
  [d.nch, d.host.nrk, d.host.banks, d.host.nc, d.host.nbg]

theorem prod_bases : d.bases.prod = d.spread := by
  unfold bases spread Interleave.banks
  simp only [List.prod_cons, List.prod_nil]
  split <;> ring

theorem spread_pos : 0 < d.spread := by
  have hnc : 0 < d.host.nc := by
    unfold Interleave.nc
    split
    · exact nchip_pos d
    · exact Nat.one_pos
  have hlevel : 0 < if d.host.placementLevel = 2 then d.host.nbg else d.host.nbg * d.host.nb := by
    split
    · exact nbg_pos d
    · exact Nat.mul_pos (nbg_pos d) (nb_pos d)
  exact Nat.mul_pos (Nat.mul_pos (Nat.mul_pos hlevel hnc) (nrk_pos d)) (nch_pos d)

end Digits

def ChunkPlace.digits (p : ChunkPlace) : List Nat :=
  [p.chn, p.rk, p.b, p.chip, p.bg]

theorem ChunkPlace.digits_inj {p q : ChunkPlace} (h : digits p = digits q) : p = q := by
  cases p
  cases q
  simp_all [digits]

theorem visible_iff {p : ChunkPlace} : d.Visible p ↔ List.Forall₂ (· < ·) (ChunkPlace.digits p) d.bases := by
  simp only [ChunkPlace.digits, bases, List.forall₂_cons, List.Forall₂.nil, and_true]
  exact ⟨fun h => ⟨h.chn, h.rk, h.b, h.chip, h.bg⟩, fun ⟨chn, rk, b, chip, bg⟩ => ⟨bg, chip, b, rk, chn⟩⟩

theorem placeOf_digits {x : Nat} (hx : x < d.spread) : ChunkPlace.digits (d.placeOf x) = Pimid.digits d.bases x := by
  have hb : (if d.host.placementLevel = 2 then 0 else x / d.host.nbg / d.host.nc % d.host.nb) =
      x / d.host.nbg / d.host.nc % d.host.banks := by
    unfold Interleave.banks
    split
    · exact (Nat.mod_one _).symm
    · rfl
  have hrest : (if d.host.placementLevel = 2 then x / d.host.nbg / d.host.nc
      else x / d.host.nbg / d.host.nc / d.host.nb) = x / d.host.nbg / d.host.nc / d.host.banks := by
    unfold Interleave.banks
    split
    · exact (Nat.div_one _).symm
    · rfl
  have hlast : x / d.host.nbg / d.host.nc / d.host.banks / d.host.nrk < d.nch := by
    rw [← prod_bases] at hx
    simp only [bases, List.prod_cons, List.prod_nil, Nat.mul_one] at hx
    rw [Nat.div_div_eq_div_mul, Nat.div_div_eq_div_mul, Nat.div_div_eq_div_mul]
    refine Nat.div_lt_of_lt_mul (Nat.lt_of_lt_of_eq hx ?_)
    ring
  have hsplit : Pimid.digits d.bases x =
      [x / d.host.nbg / d.host.nc / d.host.banks / d.host.nrk, x / d.host.nbg / d.host.nc / d.host.banks % d.host.nrk,
        x / d.host.nbg / d.host.nc % d.host.banks, x / d.host.nbg % d.host.nc, x % d.host.nbg] := by
    show Pimid.digits (d.nch :: [d.host.nrk, d.host.banks, d.host.nc] ++ [d.host.nbg]) x = _
    rw [digits_snoc]
    show Pimid.digits (d.nch :: [d.host.nrk, d.host.banks] ++ [d.host.nc]) _ ++ _ = _
    rw [digits_snoc]
    show Pimid.digits (d.nch :: [d.host.nrk] ++ [d.host.banks]) _ ++ _ ++ _ = _
    rw [digits_snoc]
    show Pimid.digits (d.nch :: [] ++ [d.host.nrk]) _ ++ _ ++ _ ++ _ = _
    rw [digits_snoc]
    simp [Pimid.digits]
  rw [hsplit]
  unfold placeOf ChunkPlace.digits
  dsimp only
  rw [hb, hrest, Nat.mod_eq_of_lt hlast]

theorem placeOf_visible {x : Nat} (hx : x < d.spread) : d.Visible (d.placeOf x) := by
  rw [visible_iff, placeOf_digits hx]
  exact digits_lt (by rwa [prod_bases])

theorem placeOf_inj {x y : Nat} (hx : x < d.spread) (hy : y < d.spread) (h : d.placeOf x = d.placeOf y) : x = y := by
  refine @digits_inj d.bases _ _ (by rwa [prod_bases]) (by rwa [prod_bases]) ?_
  rw [← placeOf_digits hx, ← placeOf_digits hy, h]

theorem exists_placeOf {p : ChunkPlace} (hp : d.Visible p) : ∃ x, x < d.spread ∧ d.placeOf x = p := by
  have hdig := visible_iff.mp hp
  have hlt : ofDigits d.bases (ChunkPlace.digits p) < d.spread := by
    rw [← prod_bases]
    exact ofDigits_lt hdig
  refine ⟨_, hlt, ChunkPlace.digits_inj ?_⟩
  rw [placeOf_digits hlt, digits_ofDigits hdig]

/-! ## The unit of a place -/

theorem inChip_lt {p : ChunkPlace} (hp : d.Visible p) : d.inChip p < d.host.perChip := by
  have hb : d.host.placementLevel ≠ 2 → p.b < d.host.nb := by
    intro hlv
    have := hp.b
    rwa [Interleave.banks, if_neg hlv] at this
  unfold inChip Interleave.perChip
  split
  · next hlv =>
    have := two_digits_lt hp.bg (hb (by omega))
    have := two_digits_lt this (nsa_pos d)
    calc _ < d.host.nbg * d.host.nb * d.host.nsa := by omega
      _ = _ := by ring
  · split
    · next hlv =>
      have := two_digits_lt hp.bg (hb (by omega))
      rwa [Nat.mul_comm d.host.nb]
    · exact hp.bg

/-- The group and the bank are read off the unit's number in its chip. -/
theorem inChip_inj {p q : ChunkPlace} (hlevel : d.host.placementLevel ≤ 2) (hp : d.Visible p) (hq : d.Visible q)
    (h : d.inChip p = d.inChip q) : p.bg = q.bg ∧ p.b = q.b := by
  have hpb := hp.b
  have hqb := hq.b
  unfold Interleave.banks at hpb hqb
  unfold inChip at h
  split at h
  · next hlv =>
    rw [if_neg (by omega)] at hpb hqb
    exact two_digits_inj hpb hqb (Nat.eq_of_mul_eq_mul_right (nsa_pos d) h)
  · split at h
    · next hlv =>
      rw [if_neg (by omega)] at hpb hqb
      exact two_digits_inj hpb hqb h
    · rw [if_pos (by omega)] at hpb hqb
      exact ⟨h, by omega⟩

theorem totalUnits_eq (hd : d.Interleaved) : d.nch * d.host.perCh = d.totalUnits := by
  have hle := Nat.le_of_dvd hd.units hd.channels
  have hpos : 0 < d.host.perCh := Nat.pos_of_dvd_of_pos hd.channels hd.units
  have := Nat.div_pos hle hpos
  rw [nch, Nat.max_eq_right this]
  exact Nat.div_mul_cancel hd.channels

theorem unitOf_eq (hd : d.Interleaved) {p : ChunkPlace} (hp : d.Visible p) :
    d.unitOf p = ((p.chn * d.host.nrk + p.rk) * d.host.nchip + p.chip) * d.host.perChip + d.inChip p := by
  have hchip : p.chip < d.host.nchip := Nat.lt_of_lt_of_le hp.chip (nc_le d)
  refine Nat.mod_eq_of_lt ?_
  have := two_digits_lt (two_digits_lt (two_digits_lt hp.chn hp.rk) hchip) (inChip_lt hp)
  refine Nat.lt_of_lt_of_eq this ((totalUnits_eq hd).symm ▸ ?_)
  unfold Interleave.perCh
  ring

theorem unitOf_inj (hd : d.Interleaved) {p q : ChunkPlace} (hp : d.Visible p) (hq : d.Visible q)
    (h : d.unitOf p = d.unitOf q) : p = q := by
  rw [unitOf_eq hd hp, unitOf_eq hd hq] at h
  obtain ⟨h, hin⟩ := two_digits_inj (inChip_lt hp) (inChip_lt hq) h
  obtain ⟨h, hchip⟩ :=
    two_digits_inj (Nat.lt_of_lt_of_le hp.chip (nc_le d)) (Nat.lt_of_lt_of_le hq.chip (nc_le d)) h
  obtain ⟨hchn, hrk⟩ := two_digits_inj hp.rk hq.rk h
  obtain ⟨hbg, hb⟩ := inChip_inj hd.level hp hq hin
  cases p
  cases q
  simp_all

/-! ## Chunks, units and bytes -/

theorem chunkPlace_visible (d : Device) (c : Nat) : d.Visible (d.chunkPlace c) :=
  placeOf_visible (Nat.mod_lt _ (spread_pos d))

theorem chunkPlace_eq_iff {c c' : Nat} : d.chunkPlace c = d.chunkPlace c' ↔ c % d.spread = c' % d.spread := by
  constructor
  · exact placeOf_inj (Nat.mod_lt _ (spread_pos d)) (Nat.mod_lt _ (spread_pos d))
  · intro h
    unfold chunkPlace
    rw [h]

/-- The units of two chunks are one when the chunks stand alike in their runs. -/
theorem unitOf_chunk_iff (hd : d.Interleaved) {c c' : Nat} :
    d.unitOf (d.chunkPlace c) = d.unitOf (d.chunkPlace c') ↔ c % d.spread = c' % d.spread := by
  rw [← chunkPlace_eq_iff]
  exact ⟨unitOf_inj hd (chunkPlace_visible d c) (chunkPlace_visible d c'), congrArg _⟩

theorem gran_pos (hd : d.Interleaved) : 0 < d.host.hostInterleaveBytes := by
  have := hd.granularity.1
  omega

theorem hostRowAddr_chunk (hd : d.Interleaved) (c : Nat) {i : Nat} (hi : i < d.host.hostInterleaveBytes) :
    d.hostRowAddr (c * d.host.hostInterleaveBytes + i) = c / d.spread * d.host.hostInterleaveBytes + i := by
  unfold hostRowAddr
  rw [Nat.mul_comm c, Nat.mul_add_div (gran_pos hd), Nat.div_eq_of_lt hi, Nat.add_zero, Nat.mul_add_mod,
    Nat.mod_eq_of_lt hi]

theorem host_inj (hd : d.Interleaved) {a a' : Nat} (hunit : d.hostUnit a = d.hostUnit a')
    (hrow : d.hostRowAddr a = d.hostRowAddr a') : a = a' := by
  have hg := gran_pos hd
  obtain ⟨hquot, hbyte⟩ := two_digits_inj (Nat.mod_lt a hg) (Nat.mod_lt a' hg) hrow
  have hrest := (unitOf_chunk_iff hd).mp hunit
  have hchunk : a / d.host.hostInterleaveBytes = a' / d.host.hostInterleaveBytes := by
    rw [← Nat.div_add_mod (a / d.host.hostInterleaveBytes) d.spread, hquot, hrest, Nat.div_add_mod]
  rw [← Nat.div_add_mod a d.host.hostInterleaveBytes, hchunk, hbyte, Nat.div_add_mod]

theorem unit_chunk (hd : d.Interleaved) (c k : Nat) :
    ∃! c', d.unitOf (d.chunkPlace c') = d.unitOf (d.chunkPlace c) ∧ c' / d.spread = k := by
  have hpos := spread_pos d
  refine ⟨k * d.spread + c % d.spread, ⟨?_, ?_⟩, ?_⟩
  · rw [unitOf_chunk_iff hd, Nat.mul_comm, Nat.mul_add_mod, Nat.mod_mod]
  · rw [Nat.mul_comm, Nat.mul_add_div hpos, Nat.div_eq_of_lt (Nat.mod_lt _ hpos), Nat.add_zero]
  · intro c' ⟨hunit, hquot⟩
    have hmod := (unitOf_chunk_iff hd).mp hunit
    rw [← hquot, ← hmod, Nat.mul_comm, Nat.div_add_mod]

theorem rowOf_inj (r : RowModel) {a a' : Nat} (hslot : (r.rowOf a).slot = (r.rowOf a').slot)
    (hwhole : (r.rowOf a).whole = (r.rowOf a').whole) (hbyte : a % r.rowStrideBytes = a' % r.rowStrideBytes) :
    a = a' := by
  simp only [RowModel.rowOf] at hslot hwhole
  have hstripe : a / r.rowStrideBytes = a' / r.rowStrideBytes := by
    rw [← Nat.div_add_mod (a / r.rowStrideBytes) r.rowSlotsPerUnit, hwhole, hslot, Nat.div_add_mod]
  rw [← Nat.div_add_mod a r.rowStrideBytes, hstripe, hbyte, Nat.div_add_mod]

theorem hostRowAddr_base (hd : d.Interleaved) (c : Nat) :
    d.hostRowAddr (c * d.host.hostInterleaveBytes) = c / d.spread * d.host.hostInterleaveBytes :=
  hostRowAddr_chunk hd c (gran_pos hd)

theorem hostRowAddr_lt (hd : d.Interleaved) {c c' : Nat}
    (hunit : d.unitOf (d.chunkPlace c) = d.unitOf (d.chunkPlace c')) (hlt : c < c') :
    d.hostRowAddr (c * d.host.hostInterleaveBytes) < d.hostRowAddr (c' * d.host.hostInterleaveBytes) := by
  rw [hostRowAddr_base hd, hostRowAddr_base hd]
  refine Nat.mul_lt_mul_of_pos_right (Nat.lt_of_le_of_ne (Nat.div_le_div_right (Nat.le_of_lt hlt)) ?_) (gran_pos hd)
  intro hquot
  have hmod := (unitOf_chunk_iff hd).mp hunit
  have : c = c' := by rw [← Nat.div_add_mod c d.spread, hquot, hmod, Nat.div_add_mod]
  omega

/-- **The host's pages on the device.** No two bytes share a place in a unit; a unit that
gets a chunk gets one of each run of `spread`, in order, at consecutive places; each place
the host sees gets one of any `spread` chunks in a row; and lines of one unit differ in
the bank, the row or the byte of its stripe. -/
theorem host_interleave (hd : d.Interleaved) (r : RowModel) :
    Function.Injective (fun a => (d.hostUnit a, d.hostRowAddr a)) ∧
      (∀ c k, ∃! c', d.unitOf (d.chunkPlace c') = d.unitOf (d.chunkPlace c) ∧
        ∀ i < d.host.hostInterleaveBytes, d.hostRowAddr (c' * d.host.hostInterleaveBytes + i) =
          k * d.host.hostInterleaveBytes + i) ∧
      (∀ c c', d.unitOf (d.chunkPlace c) = d.unitOf (d.chunkPlace c') → c < c' →
        d.hostRowAddr (c * d.host.hostInterleaveBytes) < d.hostRowAddr (c' * d.host.hostInterleaveBytes)) ∧
      (∀ p, d.Visible p → ∀ s, ∃! c, (s ≤ c ∧ c < s + d.spread) ∧ d.chunkPlace c = p) ∧
      ∀ l l', l ≠ l' → d.hostUnit (l * 64) = d.hostUnit (l' * 64) →
        let a := d.hostRowAddr (l * 64)
        let a' := d.hostRowAddr (l' * 64)
        ¬((r.rowOf a).slot = (r.rowOf a').slot ∧ (r.rowOf a).whole = (r.rowOf a').whole ∧
          a % r.rowStrideBytes = a' % r.rowStrideBytes) := by
  refine ⟨?_, fun c k => ?_, fun c c' => hostRowAddr_lt hd, fun p hp s => ?_, fun l l' hne hunit => ?_⟩
  · intro a a' heq
    obtain ⟨hunit, hrow⟩ := Prod.mk.inj heq
    exact host_inj hd hunit hrow
  · obtain ⟨c', ⟨hunit, hquot⟩, huniq⟩ := unit_chunk hd c k
    refine ⟨c', ⟨hunit, fun i hi => ?_⟩, ?_⟩
    · rw [hostRowAddr_chunk hd c' hi, hquot]
    · intro c'' ⟨hunit', hplace⟩
      have hbase := hplace 0 (gran_pos hd)
      rw [hostRowAddr_chunk hd c'' (gran_pos hd)] at hbase
      exact huniq c'' ⟨hunit', Nat.eq_of_mul_eq_mul_right (gran_pos hd) hbase⟩
  · obtain ⟨x, hx, rfl⟩ := exists_placeOf hp
    obtain ⟨c, ⟨hwin, hmod⟩, huniq⟩ := existsUnique_mod hx s
    refine ⟨c, ⟨hwin, by rw [chunkPlace, hmod]⟩, ?_⟩
    intro c' ⟨hwin', hplace⟩
    exact huniq c' ⟨hwin', placeOf_inj (Nat.mod_lt _ (spread_pos d)) hx hplace⟩
  · intro _ _ ⟨hslot, hwhole, hbyte⟩
    have := host_inj hd hunit (rowOf_inj r hslot hwhole hbyte)
    omega

/-- Two groups of two banks, two folded channels, one rank: eight units of bank size. -/
def foldedPart : Device :=
  { twoInterfaces with totalUnits := 8, host := ⟨256, 1, 4, 2, 2, 2, 1, 2⟩ }

theorem host_interleave_folded :
    ∃! c, (5 ≤ c ∧ c < 5 + foldedPart.spread) ∧ foldedPart.chunkPlace c = ⟨1, 0, 1, 0, 0⟩ :=
  (host_interleave (d := foldedPart) ⟨by decide, by decide, by decide, by decide⟩ ⟨1024, 1, 0⟩).2.2.2.1 _
    ⟨by decide, by decide, by decide, by decide, by decide⟩ 5

end Device

end Pimid.Mem
