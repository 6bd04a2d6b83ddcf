import Pimid.Htree.Build
import Pimid.Lib.Radix

/-!
# Units and their coordinates

The placement units are numbered in mixed radix over the fan-outs between the root and
the leaf level, so the coordinates the builder and the lookup walk are the digits of
the unit's number.
-/

namespace Pimid.Htree

variable {P : Params}

/-- The fan-outs from the root down to the leaves. -/
def Params.unitFans (P : Params) : List Nat :=
  ((List.range' (P.leafLevel + 1) (P.top - P.leafLevel)).map P.fanout).reverse

/-- The number of placement units. -/
def Params.units (P : Params) : Nat := P.unitFans.prod

/-- How far the leaves are below the root. -/
def Params.depth (P : Params) : Nat := P.top - P.leafLevel

/-- The coordinates of a unit below the root. -/
def Params.unitPath (P : Params) (u : Nat) : List Nat := (decompose P.d u P.peLevel).drop (6 - P.top)

/-- The placement lies below the root. -/
def Params.Placed (P : Params) : Prop := P.leafLevel < P.top

theorem Params.top_le (P : Params) : P.top ≤ 6 := by
  unfold Params.top
  split <;> omega

theorem leafLevel_le (P : Params) : P.leafLevel ≤ 5 := by
  unfold Params.leafLevel
  split <;> omega

@[simp]
theorem length_unitFans (P : Params) : P.unitFans.length = P.depth := by
  simp [Params.unitFans, Params.depth]

theorem orOne_pos (x : Nat) : 0 < orOne x := by
  unfold orOne
  split <;> omega

theorem orOne_eq (x : Nat) : orOne x = max 1 x := by
  unfold orOne
  split <;> omega

theorem childFanout_pos (d : Dims) (L : Nat) : 0 < childFanout d L := by
  unfold childFanout
  split <;> first | exact orOne_pos _ | exact Nat.one_pos

theorem fan_eq {d : Dims} {l : Nat} (h : l ≤ 4) : fan d l = childFanout d (l + 1) := by
  match l, h with
  | 0, _ | 1, _ | 2, _ | 3, _ | 4, _ => rfl

theorem fanout_of_le {L : Nat} (h : L ≤ 5) : P.fanout L = childFanout P.d L :=
  if_neg (by omega)

/-! ## Coordinates are digits -/

/-- The leftover that comes last is the unreduced leading digit. -/
theorem reverse_fineToCoarse (d : Dims) (f n lvl id : Nat) :
    (fineToCoarse d n lvl id).reverse = digits (f :: ((List.range' lvl n).map (fan d)).reverse) id := by
  induction n generalizing lvl id with
  | zero => simp [fineToCoarse, digits]
  | succ n ih =>
    rw [fineToCoarse, List.reverse_cons, ih, List.range'_succ, List.map_cons, List.reverse_cons,
      ← List.cons_append, digits_snoc]

theorem map_fan_range' (P : Params) :
    ((List.range' P.peLevel (5 - P.peLevel)).map (fan P.d))
      = (List.range' (P.leafLevel + 1) (5 - P.leafLevel)).map P.fanout := by
  have hleaf : 5 - P.leafLevel = 5 - P.peLevel := by
    unfold Params.leafLevel
    split <;> omega
  rw [hleaf]
  apply List.ext_getElem
  · simp
  · intro i h₁ h₂
    simp only [List.length_map, List.length_range'] at h₁
    have hpe : P.leafLevel = P.peLevel := by
      unfold Params.leafLevel
      split <;> omega
    simp only [List.getElem_map, List.getElem_range', hpe, Nat.one_mul]
    rw [fan_eq (by omega), fanout_of_le (by omega)]
    congr 1
    omega

theorem unitFans_split (hp : P.Placed) :
    ((List.range' (P.leafLevel + 1) (6 - P.leafLevel)).map P.fanout).reverse
      = ((List.range' (P.top + 1) (6 - P.top)).map P.fanout).reverse ++ P.unitFans := by
  have htop := P.top_le
  have hp : P.leafLevel < P.top := hp
  have hlen : 6 - P.leafLevel = (P.top - P.leafLevel) + (6 - P.top) := by omega
  have hstart : P.leafLevel + 1 + 1 * (P.top - P.leafLevel) = P.top + 1 := by omega
  rw [hlen, ← List.range'_append, List.map_append, List.reverse_append, hstart]
  rfl

/-- **The walk's coordinates are the digits of the unit.** -/
theorem unitPath_eq (hp : P.Placed) {u : Nat} (hu : u < P.units) : P.unitPath u = digits P.unitFans u := by
  have hleaf := leafLevel_le P
  have hall : decompose P.d u P.peLevel
      = digits (((List.range' (P.leafLevel + 1) (6 - P.leafLevel)).map P.fanout).reverse) u := by
    have hlast : 6 - P.leafLevel = (5 - P.leafLevel) + 1 := by omega
    have hsix : P.leafLevel + 1 + 1 * (5 - P.leafLevel) = 6 := by omega
    rw [decompose, reverse_fineToCoarse P.d (P.fanout 6), map_fan_range', hlast,
      List.range'_concat, List.map_append, List.reverse_append, hsix]
    rfl
  have hlen : (((List.range' (P.top + 1) (6 - P.top)).map P.fanout).reverse).length = 6 - P.top := by simp
  have hdrop := digits_append_of_lt (((List.range' (P.top + 1) (6 - P.top)).map P.fanout).reverse) hu
  rw [hlen] at hdrop
  rw [Params.unitPath, hall, unitFans_split hp]
  exact hdrop

theorem length_unitPath (hp : P.Placed) {u : Nat} (hu : u < P.units) : (P.unitPath u).length = P.depth := by
  rw [unitPath_eq hp hu, length_digits, length_unitFans]

theorem unitPath_inj (hp : P.Placed) {u v : Nat} (hu : u < P.units) (hv : v < P.units)
    (h : P.unitPath u = P.unitPath v) : u = v := by
  rw [unitPath_eq hp hu, unitPath_eq hp hv] at h
  exact digits_inj hu hv h

/-! ## Fan-outs along a path -/

/-- Every coordinate is below the fan-out of the router it leaves. -/
def Params.Valid (P : Params) (q : List Nat) : Prop := ∀ i c, q[i]? = some c → c < P.fanout (P.top - i)

theorem Params.Valid.nil (P : Params) : P.Valid [] := by
  intro i c h
  simp at h

theorem Params.Valid.snoc {q : List Nat} {c : Nat} (hq : P.Valid q) (hc : c < P.fanout (P.top - q.length)) :
    P.Valid (q ++ [c]) := by
  intro i x hx
  rcases Nat.lt_or_ge i q.length with hi | hi
  · rw [List.getElem?_append_left hi] at hx
    exact hq i x hx
  · obtain rfl : i = q.length := by
      have := (List.getElem?_eq_some_iff.mp hx).1
      simp at this
      omega
    rw [List.getElem?_concat_length] at hx
    injection hx with hx
    exact hx ▸ hc

theorem getElem?_unitFans {i : Nat} (h : i < P.depth) : P.unitFans[i]? = some (P.fanout (P.top - i)) := by
  have hd : P.depth = P.top - P.leafLevel := rfl
  unfold Params.unitFans
  rw [List.getElem?_reverse (by simp; omega), List.getElem?_map, List.length_map, List.length_range',
    List.getElem?_range' (by omega)]
  simp only [Option.map_some, Nat.one_mul]
  congr 2
  omega

theorem valid_iff {q : List Nat} (h : q.length ≤ P.depth) :
    P.Valid q ↔ List.Forall₂ (· < ·) q (P.unitFans.take q.length) := by
  rw [List.forall₂_iff_get]
  constructor
  · intro hv
    refine ⟨by simp [h], ?_⟩
    intro i h₁ h₂
    have hf := getElem?_unitFans (P := P) (i := i) (by omega)
    have := hv i q[i] (List.getElem?_eq_getElem h₁)
    simp only [List.get_eq_getElem, List.getElem_take]
    rw [List.getElem?_eq_some_iff] at hf
    rw [hf.2]
    exact this
  · rintro ⟨_, hv⟩ i c hc
    obtain ⟨hi, rfl⟩ := List.getElem?_eq_some_iff.mp hc
    have hf := getElem?_unitFans (P := P) (i := i) (by omega)
    have := hv i hi (by simp; omega)
    simp only [List.get_eq_getElem, List.getElem_take] at this
    rw [List.getElem?_eq_some_iff] at hf
    rw [hf.2] at this
    exact this

theorem valid_unitPath (hp : P.Placed) {u : Nat} (hu : u < P.units) : P.Valid (P.unitPath u) := by
  rw [valid_iff (length_unitPath hp hu).le, length_unitPath hp hu, ← length_unitFans P, List.take_length,
    unitPath_eq hp hu]
  exact digits_lt hu

theorem prod_map_foldl (f : Nat → Nat) (l : List Nat) (a : Nat) :
    l.foldl (fun n x => n * f x) a = a * (l.map f).prod := by
  induction l generalizing a with
  | nil => simp
  | cons x l ih => rw [List.foldl_cons, ih, List.map_cons, List.prod_cons, Nat.mul_assoc]

theorem prod_drop_unitFans {k : Nat} (h : k < P.depth) :
    (P.unitFans.drop (k + 1)).prod = orgsBelow P.d (P.top - k - 1) P.peLevel := by
  have hd : P.depth = P.top - P.leafLevel := rfl
  have htop := P.top_le
  have hlen : P.top - P.leafLevel - (k + 1) = P.top - k - 1 - P.peLevel := by
    unfold Params.leafLevel at *
    split at hd <;> split <;> omega
  have htake : (List.range' (P.leafLevel + 1) (P.top - P.leafLevel)).take (P.top - k - 1 - P.peLevel)
      = List.range' (P.leafLevel + 1) (P.top - k - 1 - P.peLevel) := by
    rw [List.take_range'_of_length_ge]
    omega
  rw [Params.unitFans, List.drop_reverse, List.length_map, List.length_range', List.prod_reverse,
    ← List.map_take, hlen, htake, orgsBelow, prod_map_foldl, Nat.one_mul]
  congr 1
  apply List.ext_getElem
  · simp
  · intro i h₁ h₂
    simp only [List.length_map, List.length_range'] at h₁
    have hpe : P.leafLevel = P.peLevel := by
      have := leafLevel_le P
      unfold Params.leafLevel at *
      split at this <;> split <;> omega
    simp only [List.getElem_map, List.getElem_range', hpe]
    exact fanout_of_le (by omega)

/-- The units of the tree: the root's fan-out times what one of its children holds. -/
theorem units_eq (hp : P.Placed) : P.units = P.fanout P.top * orgsBelow P.d (P.top - 1) P.peLevel := by
  have hd : 0 < P.depth := Nat.sub_pos_of_lt hp
  have h0 := getElem?_unitFans (P := P) hd
  have hsplit : P.unitFans = P.fanout P.top :: P.unitFans.drop 1 := by
    cases hf : P.unitFans with
    | nil => simp [hf] at h0
    | cons f fs =>
      rw [hf] at h0
      simpa using h0
  rw [Params.units, hsplit, List.prod_cons]
  exact congrArg _ (prod_drop_unitFans hd)

end Pimid.Htree
