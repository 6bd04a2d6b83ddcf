import Mathlib.Data.Finset.Card
import Mathlib.Data.Nat.Bitwise
import Pimid.Dram.Mapper

/-!
# The linear mappers

Three mappers take a transaction's number apart into the bits of the levels: ChRaBaRoCo from the last level up,
RoBaRaCoCh from the channel, the column and the rest on, MOP4CLXOR with a column split in two and the other levels turned
by its bits. Whatever the counts, each is one to one between the transactions and the level numbers of as many bits, so
they differ only in where a transaction goes.
-/

namespace Pimid.Dram

namespace Org

variable (g : Org)

/-! ## The code -/

/-- `slice_lower_bits` of an address that is not negative: the bits, and what is left. -/
def slice (num_bits addr : ℕ) : ℕ × ℕ := (addr &&& (1 <<< num_bits - 1), addr >>> num_bits)

/-- Slices of several levels, from the first on. -/
def slicesUp : List ℕ → ℕ → List ℕ × ℕ
  | [], addr => ([], addr)
  | num_bits :: rest, addr =>
    let r := slicesUp rest (slice num_bits addr).2
    ((slice num_bits addr).1 :: r.1, r.2)

/-- `RoBaRaCoCh::apply`: the channel, the column, and the levels down to the row. -/
def roBaRaCoCh (addr : ℕ) : Option (List ℕ) :=
  if g.columnBits < 0 then none
  else
    let channel := slice (Nat.log2 g.channel) (addr >>> g.txOffset)
    let column := slice g.columnBits.toNat channel.2
    let rest := slicesUp ((g.banks ++ [g.row]).map Nat.log2) column.2
    some (channel.1 :: (rest.1 ++ [column.1]))

/-- The last loop of `MOP4CLXOR::apply`: each level's bits are turned by the next bits of the column. -/
def xorLevels (column : ℕ) : ℕ → List (ℕ × ℕ) → List ℕ
  | _, [] => []
  | row_xor_index, (bits, v) :: rest =>
    if 0 < bits then
      (v ^^^ ((column >>> row_xor_index) &&& (1 <<< bits - 1))) :: xorLevels column (row_xor_index + bits) rest
    else v :: xorLevels column row_xor_index rest

/-- `MOP4CLXOR::apply`: two bits of the column, the levels above the row, the column's other bits, the row. -/
def mop4clxor (addr : ℕ) : Option (List ℕ) :=
  if g.columnBits < 2 then none
  else
    let low := slice 2 (addr >>> g.txOffset)
    let levels := slicesUp ((g.channel :: g.banks).map Nat.log2) low.2
    let high := slice (g.columnBits.toNat - 2) levels.2
    let column := low.1 + high.1 <<< 2
    some (xorLevels column 0 (g.upperBits.zip (levels.1 ++ [high.2])) ++ [column])

variable {g}

/-! ## Slices -/

theorem slice_lt (n addr : ℕ) : (slice n addr).1 < 2 ^ n := by
  change addr &&& (1 <<< n - 1) < 2 ^ n
  rw [Nat.one_shiftLeft, Nat.and_two_pow_sub_one_eq_mod]
  exact Nat.mod_lt _ (Nat.two_pow_pos n)

theorem slice_inj {n a b : ℕ} (h : slice n a = slice n b) : a = b := by
  have hlow : a % 2 ^ n = b % 2 ^ n := by
    have := congrArg Prod.fst h
    simpa only [slice, Nat.one_shiftLeft, Nat.and_two_pow_sub_one_eq_mod] using this
  have hhigh : a / 2 ^ n = b / 2 ^ n := by
    have := congrArg Prod.snd h
    simpa only [slice, Nat.shiftRight_eq_div_pow] using this
  rw [← Nat.div_add_mod a (2 ^ n), hlow, hhigh, Nat.div_add_mod]

theorem slicesUp_lt (ns : List ℕ) (addr : ℕ) : List.Forall₂ (· < ·) (slicesUp ns addr).1 (ns.map (2 ^ ·)) := by
  induction ns generalizing addr with
  | nil => exact .nil
  | cons n ns ih => exact .cons (slice_lt n addr) (ih _)

theorem slicesUp_snd (ns : List ℕ) (addr : ℕ) : (slicesUp ns addr).2 = addr >>> ns.sum := by
  induction ns generalizing addr with
  | nil => rfl
  | cons n ns ih =>
    change (slicesUp ns (addr >>> n)).2 = _
    rw [ih, List.sum_cons, Nat.shiftRight_add]

theorem slicesUp_inj {ns : List ℕ} {a b : ℕ} (h : slicesUp ns a = slicesUp ns b) : a = b := by
  induction ns generalizing a b with
  | nil => exact congrArg Prod.snd h
  | cons n ns ih =>
    obtain ⟨hhead, htail⟩ := List.cons.inj (congrArg Prod.fst h)
    have hleft : (slicesUp (n :: ns) a).2 = (slicesUp (n :: ns) b).2 := congrArg Prod.snd h
    have hrest : (slice n a).2 = (slice n b).2 := ih (Prod.ext htail hleft)
    exact slice_inj (Prod.ext hhead hrest)

/-! ## Turned levels -/

theorem xorLevels_lt {column i : ℕ} {ns vs : List ℕ} (h : List.Forall₂ (· < ·) vs (ns.map (2 ^ ·))) :
    List.Forall₂ (· < ·) (xorLevels column i (ns.zip vs)) (ns.map (2 ^ ·)) := by
  induction ns generalizing i vs with
  | nil => exact .nil
  | cons n ns ih =>
    cases h with
    | cons hv hvs =>
      rw [List.zip_cons_cons, xorLevels]
      split
      · have hmask : (column >>> i) &&& (1 <<< n - 1) < 2 ^ n := slice_lt n (column >>> i)
        exact .cons (Nat.xor_lt_two_pow hv hmask) (ih hvs)
      · exact .cons hv (ih hvs)

theorem xorLevels_inj {column i : ℕ} {ns vs vs' : List ℕ} (hlen : vs.length = ns.length) (hlen' : vs'.length = ns.length)
    (h : xorLevels column i (ns.zip vs) = xorLevels column i (ns.zip vs')) : vs = vs' := by
  induction ns generalizing i vs vs' with
  | nil => rw [List.length_eq_zero_iff.mp hlen, List.length_eq_zero_iff.mp hlen']
  | cons n ns ih =>
    cases vs with
    | nil => cases hlen
    | cons v vs =>
      cases vs' with
      | nil => cases hlen'
      | cons v' vs' =>
        rw [List.zip_cons_cons, List.zip_cons_cons, xorLevels, xorLevels] at h
        split at h
        · obtain ⟨hhead, htail⟩ := List.cons.inj h
          rw [Nat.xor_right_injective.eq_iff.mp ((Nat.xor_comm _ _).trans (hhead.trans (Nat.xor_comm _ _))),
            ih (Nat.succ.inj hlen) (Nat.succ.inj hlen') htail]
        · obtain ⟨hhead, htail⟩ := List.cons.inj h
          rw [hhead, ih (Nat.succ.inj hlen) (Nat.succ.inj hlen') htail]

/-! ## One to one -/

/-- The numbers of levels that have so many bits. -/
def LevelsOf (ns : List ℕ) : Set (Option (List ℕ)) := {o | ∃ v, o = some v ∧ List.Forall₂ (· < ·) v (ns.map (2 ^ ·))}

/-- There are as many level numbers as transactions, so what is one to one into them reaches them all. -/
theorem bijOn_of_injOn {f : ℕ → Option (List ℕ)} {ns : List ℕ} (hmaps : Set.MapsTo f (Set.Iio (2 ^ ns.sum)) (LevelsOf ns))
    (hinj : Set.InjOn f (Set.Iio (2 ^ ns.sum))) : Set.BijOn f (Set.Iio (2 ^ ns.sum)) (LevelsOf ns) := by
  refine ⟨hmaps, hinj, ?_⟩
  have hrange : ((Finset.range (2 ^ ns.sum) : Finset ℕ) : Set ℕ) = Set.Iio (2 ^ ns.sum) := by
    rw [Finset.coe_range]
  let all := (Finset.range (2 ^ ns.sum)).image fun t => some (digits (ns.map (2 ^ ·)) t)
  have hall : LevelsOf ns ⊆ all := by
    rintro o ⟨v, rfl, hv⟩
    have hlt := ofDigits_lt hv
    rw [prod_two_pow] at hlt
    exact Finset.mem_coe.mpr (Finset.mem_image.mpr ⟨_, Finset.mem_range.mpr hlt, congrArg some (digits_ofDigits hv)⟩)
  have hsurj : Set.SurjOn f (Finset.range (2 ^ ns.sum)) all :=
    Finset.surjOn_of_injOn_of_card_le f (hrange ▸ hmaps.mono_right hall) (hrange ▸ hinj)
      (Finset.card_image_le.trans (Nat.le_refl _))
  rw [hrange] at hsurj
  exact hsurj.mono (Set.Subset.refl _) hall

theorem sum_widths (g : Org) : g.widths.sum = (g.upper.map Nat.log2).sum + g.columnBits.toNat := by
  rw [widths, List.sum_append, List.sum_singleton]
  rfl

theorem shift_lt {t n : ℕ} (h : t < 2 ^ n) : t >>> n = 0 := by
  rw [Nat.shiftRight_eq_div_pow]
  exact Nat.div_eq_of_lt h

theorem apply_bijOn (h : 0 ≤ g.columnBits) (hbits : g.widths.sum + g.txOffset ≤ 63) :
    Set.BijOn (fun t => g.apply (t <<< g.txOffset)) (Set.Iio (2 ^ g.widths.sum)) (LevelsOf g.widths) := by
  have happly : ∀ t < 2 ^ g.widths.sum,
      g.apply (t <<< g.txOffset) = some (digits (g.widths.map (2 ^ ·)) t) := by
    intro t ht
    have haddr : t <<< g.txOffset < 2 ^ 64 := by
      rw [Nat.shiftLeft_eq]
      refine (Nat.mul_lt_mul_of_pos_right ht (Nat.two_pow_pos _)).trans_le ?_
      rw [← Nat.pow_add]
      exact Nat.pow_le_pow_right (by decide) (by omega)
    have heq := @apply_eq g (t <<< g.txOffset) h (by omega)
    rwa [Nat.mod_eq_of_lt haddr, Nat.shiftLeft_shiftRight, Nat.mod_eq_of_lt ht] at heq
  refine bijOn_of_injOn (fun t ht => ⟨_, happly t ht, digits_lt ?_⟩) fun t ht t' ht' heq => ?_
  · rw [prod_two_pow]
    exact ht
  · rw [happly t ht, happly t' ht', Option.some.injEq] at heq
    refine digits_inj ?_ ?_ heq <;> rw [prod_two_pow] <;> assumption

theorem roBaRaCoCh_bijOn (h : 0 ≤ g.columnBits) :
    Set.BijOn (fun t => g.roBaRaCoCh (t <<< g.txOffset)) (Set.Iio (2 ^ g.widths.sum)) (LevelsOf g.widths) := by
  let f : ℕ → ℕ × ℕ := slice (Nat.log2 g.channel)
  let c : ℕ → ℕ × ℕ := fun t => slice g.columnBits.toNat (f t).2
  let r : ℕ → List ℕ × ℕ := fun t => slicesUp ((g.banks ++ [g.row]).map Nat.log2) (c t).2
  have hmap : ∀ t, g.roBaRaCoCh (t <<< g.txOffset) = some ((f t).1 :: ((r t).1 ++ [(c t).1])) := by
    intro t
    rw [roBaRaCoCh, if_neg (Int.not_lt.mpr h), Nat.shiftLeft_shiftRight]
  -- nothing is left of a transaction of the device
  have hleft : ∀ t < 2 ^ g.widths.sum, (r t).2 = 0 := by
    intro t ht
    rw [sum_widths, upper, List.map_cons, List.sum_cons] at ht
    change (slicesUp _ (t >>> Nat.log2 g.channel >>> g.columnBits.toNat)).2 = 0
    rw [slicesUp_snd, ← Nat.shiftRight_add, ← Nat.shiftRight_add]
    refine shift_lt ?_
    rwa [Nat.add_comm g.columnBits.toNat, ← Nat.add_assoc]
  refine bijOn_of_injOn (fun t ht => ⟨_, hmap t, ?_⟩) fun t ht t' ht' heq => ?_
  · rw [widths, upperBits, upper, List.map_cons, List.cons_append, List.map_cons, List.map_append]
    exact .cons (slice_lt _ _) (List.rel_append (slicesUp_lt _ _) (.cons (slice_lt _ _) .nil))
  · rw [hmap, hmap, Option.some.injEq, List.cons.injEq] at heq
    obtain ⟨hch, hrest⟩ := heq
    obtain ⟨hlevels, hcol⟩ := List.append_inj' hrest rfl
    have hr : r t = r t' := Prod.ext hlevels ((hleft t ht).trans (hleft t' ht').symm)
    have hc : c t = c t' := Prod.ext (List.cons.inj hcol).1 (slicesUp_inj hr)
    exact slice_inj (Prod.ext hch (slice_inj hc))

theorem mop4clxor_bijOn (h : 2 ≤ g.columnBits) :
    Set.BijOn (fun t => g.mop4clxor (t <<< g.txOffset)) (Set.Iio (2 ^ g.widths.sum)) (LevelsOf g.widths) := by
  let ns : List ℕ := (g.channel :: g.banks).map Nat.log2
  let k : ℕ := g.columnBits.toNat - 2
  let low : ℕ → ℕ × ℕ := slice 2
  let levels : ℕ → List ℕ × ℕ := fun t => slicesUp ns (low t).2
  let high : ℕ → ℕ × ℕ := fun t => slice k (levels t).2
  let column : ℕ → ℕ := fun t => (low t).1 + (high t).1 <<< 2
  have hk : g.columnBits.toNat = k + 2 := by omega
  have hupper : g.upperBits = ns ++ [Nat.log2 g.row] := by
    rw [upperBits, upper, ← List.cons_append, List.map_append, List.map_singleton]
  have hmap : ∀ t, g.mop4clxor (t <<< g.txOffset) =
      some (xorLevels (column t) 0 (g.upperBits.zip ((levels t).1 ++ [(high t).2])) ++ [column t]) := by
    intro t
    rw [mop4clxor, if_neg (Int.not_lt.mpr h), Nat.shiftLeft_shiftRight]
  have hlow : ∀ t, (low t).1 < 4 := slice_lt 2
  have hcolumn : ∀ t, column t = (low t).1 + (high t).1 * 4 := fun t => by rw [← Nat.shiftLeft_eq _ 2]
  have hlen : ∀ t, ((levels t).1 ++ [(high t).2]).length = g.upperBits.length := by
    intro t
    rw [hupper, List.length_append, List.length_append, (slicesUp_lt ns (low t).2).length_eq, List.length_map]
    rfl
  -- what is left of a transaction of the device is a row
  have hrow : ∀ t < 2 ^ g.widths.sum, (high t).2 < 2 ^ Nat.log2 g.row := by
    intro t ht
    rw [widths, hupper, List.sum_append, List.sum_append, List.sum_singleton, List.sum_singleton, hk] at ht
    change (slicesUp ns (t >>> 2)).2 >>> k < _
    rw [slicesUp_snd, ← Nat.shiftRight_add, ← Nat.shiftRight_add, Nat.shiftRight_eq_div_pow]
    refine Nat.div_lt_of_lt_mul ?_
    rw [← Nat.pow_add]
    refine ht.trans_le (Nat.pow_le_pow_right (by decide) ?_)
    omega
  refine bijOn_of_injOn (fun t ht => ⟨_, hmap t, ?_⟩) fun t ht t' ht' heq => ?_
  · rw [widths, List.map_append]
    refine List.rel_append (xorLevels_lt ?_) (.cons ?_ .nil)
    · rw [hupper, List.map_append]
      exact List.rel_append (slicesUp_lt _ _) (.cons (hrow t ht) .nil)
    · have hhigh : (high t).1 < 2 ^ k := slice_lt k (levels t).2
      rw [hcolumn, hk]
      change (low t).1 + (high t).1 * 4 < 2 ^ (k + 2)
      rw [Nat.pow_add]
      have := hlow t
      omega
  · rw [hmap, hmap, Option.some.injEq] at heq
    obtain ⟨hturned, hcol⟩ := List.append_inj' heq rfl
    have hcol : column t = column t' := (List.cons.inj hcol).1
    rw [hcol] at hturned
    obtain ⟨hlevels, hleft⟩ := List.append_inj' (xorLevels_inj (hlen t) (hlen t') hturned) rfl
    rw [hcolumn, hcolumn] at hcol
    have := hlow t
    have := hlow t'
    have hfirst : (low t).1 = (low t').1 := by omega
    have hhigh : high t = high t' := Prod.ext (by omega) (List.cons.inj hleft).1
    have hlevels : levels t = levels t' := Prod.ext hlevels (slice_inj hhigh)
    exact slice_inj (Prod.ext hfirst (slicesUp_inj hlevels))

/-- **The linear mappers are one to one**: of the transactions that the levels have bits for, and an `Addr_t` below its sign,
each mapper makes every level number of so many bits, and none twice. -/
theorem mappers_bijOn (g : Org) (h : 2 ≤ g.columnBits) (hbits : g.widths.sum + g.txOffset ≤ 63) :
    ∀ m ∈ [g.apply, g.roBaRaCoCh, g.mop4clxor],
      Set.BijOn (fun t => m (t <<< g.txOffset)) (Set.Iio (2 ^ g.widths.sum)) (LevelsOf g.widths) := by
  have hpos : 0 ≤ g.columnBits := Int.le_trans (by decide) h
  intro m hm
  rcases List.mem_cons.mp hm with rfl | hm
  · exact apply_bijOn hpos hbits
  rcases List.mem_cons.mp hm with rfl | hm
  · exact roBaRaCoCh_bijOn hpos
  · rw [List.mem_singleton.mp hm]
    exact mop4clxor_bijOn h

theorem mappers_bijOn_twoRanks : Set.BijOn (fun t => twoRanks.mop4clxor (t <<< twoRanks.txOffset))
    (Set.Iio (2 ^ twoRanks.widths.sum)) (LevelsOf twoRanks.widths) :=
  mappers_bijOn twoRanks (by decide) (by decide) _ (List.mem_cons_of_mem _ (List.mem_cons_of_mem _ List.mem_cons_self))

end Org

end Pimid.Dram
