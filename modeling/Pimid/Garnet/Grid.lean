import Pimid.Garnet.Topology
import Mathlib.Tactic.Ring

/-!
# Grids of routers

Meshes, tori and rings are grids: a router is a row and a column, and a direction
leads to at most one neighbour. Here the link lists of the builders are read as such
a neighbour function, and the directions of the routing algorithms as comparisons of
coordinates. A ring is a grid of one row.
-/

namespace Pimid.Garnet

/-! ## Coordinates -/

theorem grid_mod {cols r c : Nat} (hc : c < cols) : (r * cols + c) % cols = c := by
  rw [Nat.add_comm, Nat.add_mul_mod_self_right, Nat.mod_eq_of_lt hc]

theorem grid_div {cols r c : Nat} (hc : c < cols) : (r * cols + c) / cols = r := by
  rw [Nat.add_comm, Nat.add_mul_div_right _ _ (Nat.zero_lt_of_lt hc), Nat.div_eq_of_lt hc, Nat.zero_add]

theorem grid_inj {cols r c r' c' : Nat} (hc : c < cols) (hc' : c' < cols) (h : r * cols + c = r' * cols + c') :
    r = r' ∧ c = c' := by
  constructor
  · rw [← grid_div (r := r) hc, h, grid_div hc']
  · rw [← grid_mod (r := r) hc, h, grid_mod hc']

theorem grid_lt {rows cols r c : Nat} (hr : r < rows) (hc : c < cols) : r * cols + c < rows * cols :=
  calc r * cols + c < r * cols + cols := Nat.add_lt_add_left hc _
    _ = (r + 1) * cols := by ring
    _ ≤ rows * cols := Nat.mul_le_mul_right _ hr

theorem grid_split {rows cols x : Nat} (h : x < rows * cols) : ∃ r c, r < rows ∧ c < cols ∧ x = r * cols + c := by
  have hpos : 0 < cols := by
    rcases Nat.eq_zero_or_pos cols with h0 | h0
    · rw [h0, Nat.mul_zero] at h
      omega
    · exact h0
  exact ⟨x / cols, x % cols, (Nat.div_lt_iff_lt_mul hpos).mpr h, Nat.mod_lt _ hpos, (Nat.div_add_mod' x cols).symm⟩

/-! ## Neighbours -/

def opposite : PortDirection → PortDirection
  | .East => .West
  | .West => .East
  | .North => .South
  | .South => .North
  | d => d

/-- One place on, round a ring of `n`. -/
def stepCw (n a : Nat) : Nat := if a + 1 = n then 0 else a + 1

/-- One place back. -/
def stepCcw (n a : Nat) : Nat := if a = 0 then n - 1 else a - 1

theorem stepCw_lt {n a : Nat} (h : a < n) : stepCw n a < n := by
  unfold stepCw
  split <;> omega

theorem stepCcw_lt {n a : Nat} (h : a < n) : stepCcw n a < n := by
  unfold stepCcw
  split <;> omega

/-- The neighbour of row `r`, column `c` in a direction. -/
abbrev Neighbour := PortDirection → Nat → Nat → Option (Nat × Nat)

def meshNext (rows cols : Nat) : Neighbour
  | .East, r, c => if c + 1 < cols then some (r, c + 1) else none
  | .West, r, c => if 0 < c then some (r, c - 1) else none
  | .North, r, c => if r + 1 < rows then some (r + 1, c) else none
  | .South, r, c => if 0 < r then some (r - 1, c) else none
  | _, _, _ => none

def torusNext (rows cols : Nat) : Neighbour
  | .East, r, c => some (r, stepCw cols c)
  | .West, r, c => some (r, stepCcw cols c)
  | .North, r, c => some (stepCw rows r, c)
  | .South, r, c => some (stepCcw rows r, c)
  | _, _, _ => none

def ringNext (n : Nat) (unidirectional : Bool) : Neighbour
  | .East, r, c => some (r, stepCw n c)
  | .West, r, c => if unidirectional then none else some (r, stepCcw n c)
  | _, _, _ => none

/-- The link from row `r`, column `c` in direction `d` to row `r'`, column `c'`. -/
def gridLink (cols : Nat) (d : PortDirection) (r c r' c' : Nat) : IntLink :=
  ⟨r * cols + c, r' * cols + c', d, opposite d⟩

/-- The links are exactly those of the neighbour function. -/
structure GridLinks (links : List IntLink) (rows cols : Nat) (next : Neighbour) : Prop where
  mem : ∀ {l}, l ∈ links ↔ ∃ d r c r' c', r < rows ∧ c < cols ∧ next d r c = some (r', c') ∧ l = gridLink cols d r c r' c'
  range : ∀ {d r c r' c'}, r < rows → c < cols → next d r c = some (r', c') → r' < rows ∧ c' < cols
  notLocal : ∀ {r c}, next .Local r c = none

theorem GridLinks.linkFor {t : Topology} {rows cols : Nat} {next : Neighbour} (h : GridLinks t.intLinks rows cols next)
    {d : PortDirection} {r c r' c' : Nat} (hr : r < rows) (hc : c < cols) (hn : next d r c = some (r', c')) :
    t.linkFor (r * cols + c) d = some (gridLink cols d r c r' c') := by
  refine Topology.linkFor_eq (l := gridLink cols d r c r' c') (h.mem.mpr ⟨d, r, c, r', c', hr, hc, hn, rfl⟩) ?_ ?_
  · rintro rfl
    rw [h.notLocal] at hn
    cases hn
  · intro l' hl' hsrc hdir
    obtain ⟨d₁, r₁, c₁, r₁', c₁', -, hc₁, hn₁, rfl⟩ := h.mem.mp hl'
    obtain rfl : d₁ = d := hdir
    obtain ⟨rfl, rfl⟩ := grid_inj hc₁ hc hsrc
    rw [hn] at hn₁
    cases hn₁
    rfl

/-! ## The builders' links -/

theorem mem_meshLinks {rows cols : Nat} {l : IntLink} :
    l ∈ meshLinks rows cols ↔ ∃ r c, r < rows ∧ c < cols ∧ l ∈ meshLinksAt rows cols r c := by
  simp only [meshLinks, List.mem_flatMap, List.mem_range]
  constructor
  · rintro ⟨r, hr, c, hc, hl⟩
    exact ⟨r, c, hr, hc, hl⟩
  · rintro ⟨r, c, hr, hc, hl⟩
    exact ⟨r, hr, c, hc, hl⟩

theorem mem_meshLinksAt {rows cols r c : Nat} {l : IntLink} :
    l ∈ meshLinksAt rows cols r c ↔
      (c + 1 < cols ∧ (l = gridLink cols .East r c r (c + 1) ∨ l = gridLink cols .West r (c + 1) r c)) ∨
        (r + 1 < rows ∧ (l = gridLink cols .North r c (r + 1) c ∨ l = gridLink cols .South (r + 1) c r c)) := by
  unfold meshLinksAt gridLink opposite
  by_cases h₁ : c + 1 < cols <;> by_cases h₂ : r + 1 < rows <;> simp [h₁, h₂, or_assoc]

theorem meshNext_range {rows cols r c r' c' : Nat} {d : PortDirection} (hr : r < rows) (hc : c < cols)
    (h : meshNext rows cols d r c = some (r', c')) : r' < rows ∧ c' < cols := by
  cases d <;> simp only [meshNext, Option.ite_none_right_eq_some, Option.some.injEq, Prod.mk.injEq, reduceCtorEq] at h <;>
    omega

theorem gridLinks_mesh (rows cols : Nat) : GridLinks (meshLinks rows cols) rows cols (meshNext rows cols) where
  range := meshNext_range
  notLocal := rfl
  mem {l} := by
    rw [mem_meshLinks]
    constructor
    · rintro ⟨r, c, hr, hc, hl⟩
      rcases mem_meshLinksAt.mp hl with ⟨h, rfl | rfl⟩ | ⟨h, rfl | rfl⟩
      · exact ⟨.East, r, c, r, c + 1, hr, hc, if_pos h, rfl⟩
      · exact ⟨.West, r, c + 1, r, c, hr, h, by simp [meshNext], rfl⟩
      · exact ⟨.North, r, c, r + 1, c, hr, hc, if_pos h, rfl⟩
      · exact ⟨.South, r + 1, c, r, c, h, hc, by simp [meshNext], rfl⟩
    · rintro ⟨d, r, c, r', c', hr, hc, hn, rfl⟩
      cases d with
      | East =>
        obtain ⟨h, ⟨⟩⟩ := Option.ite_none_right_eq_some.mp hn
        exact ⟨r, c, hr, hc, mem_meshLinksAt.mpr (.inl ⟨h, .inl rfl⟩)⟩
      | West =>
        obtain ⟨h, ⟨⟩⟩ := Option.ite_none_right_eq_some.mp hn
        obtain ⟨c, rfl⟩ : ∃ x, c = x + 1 := ⟨c - 1, by omega⟩
        exact ⟨r, c, hr, by omega, mem_meshLinksAt.mpr (.inl ⟨hc, .inr rfl⟩)⟩
      | North =>
        obtain ⟨h, ⟨⟩⟩ := Option.ite_none_right_eq_some.mp hn
        exact ⟨r, c, hr, hc, mem_meshLinksAt.mpr (.inr ⟨h, .inl rfl⟩)⟩
      | South =>
        obtain ⟨h, ⟨⟩⟩ := Option.ite_none_right_eq_some.mp hn
        obtain ⟨r, rfl⟩ : ∃ x, r = x + 1 := ⟨r - 1, by omega⟩
        exact ⟨r, c, by omega, hc, mem_meshLinksAt.mpr (.inr ⟨hr, .inr rfl⟩)⟩
      | _ => cases hn

theorem torusNext_range {rows cols r c r' c' : Nat} {d : PortDirection} (hr : r < rows) (hc : c < cols)
    (h : torusNext rows cols d r c = some (r', c')) : r' < rows ∧ c' < cols := by
  cases d <;> simp only [torusNext, Option.some.injEq, Prod.mk.injEq, reduceCtorEq] at h
  · exact ⟨h.1 ▸ stepCw_lt hr, h.2 ▸ hc⟩
  · exact ⟨h.1 ▸ stepCcw_lt hr, h.2 ▸ hc⟩
  · exact ⟨h.1 ▸ hr, h.2 ▸ stepCw_lt hc⟩
  · exact ⟨h.1 ▸ hr, h.2 ▸ stepCcw_lt hc⟩

theorem mem_wrapRow {cols r : Nat} {l : IntLink} :
    l ∈ wrapRow cols r ↔ l = gridLink cols .East r (cols - 1) r 0 ∨ l = gridLink cols .West r 0 r (cols - 1) := by
  simp [wrapRow, gridLink, opposite]

theorem mem_wrapCol {rows cols c : Nat} {l : IntLink} :
    l ∈ wrapCol rows cols c ↔ l = gridLink cols .North (rows - 1) c 0 c ∨ l = gridLink cols .South 0 c (rows - 1) c := by
  simp [wrapCol, gridLink, opposite]

theorem mem_torusLinks {rows cols n : Nat} {l : IntLink} :
    l ∈ (buildTorus rows cols n).intLinks ↔
      (∃ r c, r < rows ∧ c < cols ∧ l ∈ meshLinksAt rows cols r c) ∨ (∃ r, r < rows ∧ l ∈ wrapRow cols r) ∨
        ∃ c, c < cols ∧ l ∈ wrapCol rows cols c := by
  simp only [buildTorus, List.mem_append, List.mem_flatMap, List.mem_range, mem_meshLinks, or_assoc]

theorem gridLinks_torus {rows cols : Nat} (hrows : 0 < rows) (hcols : 0 < cols) (n : Nat) :
    GridLinks (buildTorus rows cols n).intLinks rows cols (torusNext rows cols) where
  range := torusNext_range
  notLocal := rfl
  mem {l} := by
    rw [mem_torusLinks]
    constructor
    · rintro (⟨r, c, hr, hc, hl⟩ | ⟨r, hr, hl⟩ | ⟨c, hc, hl⟩)
      · rcases mem_meshLinksAt.mp hl with ⟨h, rfl | rfl⟩ | ⟨h, rfl | rfl⟩
        · exact ⟨.East, r, c, r, c + 1, hr, hc, by simp [torusNext, stepCw, Nat.ne_of_lt h], rfl⟩
        · exact ⟨.West, r, c + 1, r, c, hr, h, by simp [torusNext, stepCcw], rfl⟩
        · exact ⟨.North, r, c, r + 1, c, hr, hc, by simp [torusNext, stepCw, Nat.ne_of_lt h], rfl⟩
        · exact ⟨.South, r + 1, c, r, c, h, hc, by simp [torusNext, stepCcw], rfl⟩
      · rcases mem_wrapRow.mp hl with rfl | rfl
        · exact ⟨.East, r, cols - 1, r, 0, hr, by omega, by simp [torusNext, stepCw]; omega, rfl⟩
        · exact ⟨.West, r, 0, r, cols - 1, hr, hcols, by simp [torusNext, stepCcw], rfl⟩
      · rcases mem_wrapCol.mp hl with rfl | rfl
        · exact ⟨.North, rows - 1, c, 0, c, by omega, hc, by simp [torusNext, stepCw]; omega, rfl⟩
        · exact ⟨.South, 0, c, rows - 1, c, hrows, hc, by simp [torusNext, stepCcw], rfl⟩
    · rintro ⟨d, r, c, r', c', hr, hc, hn, rfl⟩
      cases d with
      | East =>
        cases hn
        unfold stepCw
        split
        · next h =>
          obtain rfl : c = cols - 1 := by omega
          exact .inr (.inl ⟨r, hr, mem_wrapRow.mpr (.inl rfl)⟩)
        · exact .inl ⟨r, c, hr, hc, mem_meshLinksAt.mpr (.inl ⟨by omega, .inl rfl⟩)⟩
      | West =>
        cases hn
        unfold stepCcw
        split
        · next h =>
          subst h
          exact .inr (.inl ⟨r, hr, mem_wrapRow.mpr (.inr rfl)⟩)
        · obtain ⟨c, rfl⟩ : ∃ x, c = x + 1 := ⟨c - 1, by omega⟩
          exact .inl ⟨r, c, hr, by omega, mem_meshLinksAt.mpr (.inl ⟨hc, .inr rfl⟩)⟩
      | North =>
        cases hn
        unfold stepCw
        split
        · next h =>
          obtain rfl : r = rows - 1 := by omega
          exact .inr (.inr ⟨c, hc, mem_wrapCol.mpr (.inl rfl)⟩)
        · exact .inl ⟨r, c, hr, hc, mem_meshLinksAt.mpr (.inr ⟨by omega, .inl rfl⟩)⟩
      | South =>
        cases hn
        unfold stepCcw
        split
        · next h =>
          subst h
          exact .inr (.inr ⟨c, hc, mem_wrapCol.mpr (.inr rfl)⟩)
        · obtain ⟨r, rfl⟩ : ∃ x, r = x + 1 := ⟨r - 1, by omega⟩
          exact .inl ⟨r, c, by omega, hc, mem_meshLinksAt.mpr (.inr ⟨hr, .inr rfl⟩)⟩
      | _ => cases hn

theorem succ_mod {n a : Nat} (h : a < n) : (a + 1) % n = stepCw n a := by
  unfold stepCw
  split
  · next he => rw [he, Nat.mod_self]
  · exact Nat.mod_eq_of_lt (by omega)

theorem stepCcw_stepCw (n a : Nat) : stepCcw n (stepCw n a) = a := by
  unfold stepCw stepCcw
  split <;> split <;> omega

theorem stepCw_stepCcw {n a : Nat} (h : a < n) : stepCw n (stepCcw n a) = a := by
  unfold stepCw stepCcw
  split <;> split <;> omega

theorem gridLink_ring (n : Nat) (d : PortDirection) (a b : Nat) : gridLink n d 0 a 0 b = ⟨a, b, d, opposite d⟩ := by
  simp [gridLink]

theorem ringNext_range {n : Nat} {uni : Bool} {r c r' c' : Nat} {d : PortDirection} (hr : r < 1) (hc : c < n)
    (h : ringNext n uni d r c = some (r', c')) : r' < 1 ∧ c' < n := by
  cases d <;> simp only [ringNext, Option.some.injEq, Prod.mk.injEq, reduceCtorEq, Option.ite_none_left_eq_some] at h
  · exact ⟨h.1 ▸ hr, h.2 ▸ stepCw_lt hc⟩
  · exact ⟨h.2.1 ▸ hr, h.2.2 ▸ stepCcw_lt hc⟩

theorem mem_ringLinks {n e : Nat} {uni : Bool} {l : IntLink} :
    l ∈ (buildRing n e uni).intLinks ↔
      ∃ i < n, l = ⟨i, stepCw n i, .East, .West⟩ ∨ uni = false ∧ l = ⟨stepCw n i, i, .West, .East⟩ := by
  simp only [buildRing, List.mem_flatMap, List.mem_range]
  refine exists_congr fun i => and_congr_right fun hi => ?_
  rw [ringLinksAt, succ_mod hi]
  cases uni <;> simp

theorem ringCwOnly_ring (n e : Nat) (uni : Bool) (hn : 0 < n) : (buildRing n e uni).ringCwOnly = uni := by
  cases uni with
  | true =>
    rw [Topology.ringCwOnly, List.all_eq_true]
    intro l hl
    obtain ⟨i, -, rfl | ⟨h, -⟩⟩ := mem_ringLinks.mp hl
    · rfl
    · cases h
  | false =>
    rw [Topology.ringCwOnly, List.all_eq_false]
    exact ⟨⟨stepCw n 0, 0, .West, .East⟩, mem_ringLinks.mpr ⟨0, hn, .inr ⟨rfl, rfl⟩⟩, by simp⟩

theorem gridLinks_ring (n e : Nat) (uni : Bool) : GridLinks (buildRing n e uni).intLinks 1 n (ringNext n uni) where
  range := ringNext_range
  notLocal := rfl
  mem {l} := by
    rw [mem_ringLinks]
    constructor
    · rintro ⟨i, hi, rfl | ⟨rfl, rfl⟩⟩
      · exact ⟨.East, 0, i, 0, stepCw n i, Nat.one_pos, hi, rfl, (gridLink_ring n .East i _).symm⟩
      · refine ⟨.West, 0, stepCw n i, 0, i, Nat.one_pos, stepCw_lt hi, ?_, (gridLink_ring n .West _ i).symm⟩
        simp [ringNext, stepCcw_stepCw]
    · rintro ⟨d, r, c, r', c', hr, hc, hn, rfl⟩
      obtain rfl : r = 0 := by omega
      cases d with
      | East =>
        cases hn
        exact ⟨c, hc, .inl (gridLink_ring n .East c _)⟩
      | West =>
        obtain ⟨huni, ⟨⟩⟩ := Option.ite_none_left_eq_some.mp hn
        refine ⟨stepCcw n c, stepCcw_lt hc, .inr ⟨by simpa using huni, ?_⟩⟩
        rw [stepCw_stepCcw hc]
        exact gridLink_ring n .West c _
      | _ => cases hn

/-! ## Directions -/

section Directions

variable {rows cols r c r' c' : Nat}

theorem tmod_grid (hc : c < cols) : ((r * cols + c : Nat) : Int).tmod cols = c := by
  rw [← Int.ofNat_tmod, grid_mod hc]

theorem tdiv_grid (hc : c < cols) : ((r * cols + c : Nat) : Int).tdiv cols = r := by
  rw [← Int.ofNat_tdiv, grid_div hc]

/-- `XY` in coordinates: the column first. -/
def xyDirection (r c r' c' : Nat) : Option PortDirection :=
  if c < c' then some .East else if c' < c then some .West
  else if r < r' then some .North else if r' < r then some .South else none

theorem directionFor_XY (hc : c < cols) (hc' : c' < cols) (rs n : Int) (cw : Bool) :
    directionFor .XY (r * cols + c : Nat) (r' * cols + c' : Nat) rs cols n cw = xyDirection r c r' c' := by
  simp only [directionFor, tmod_grid hc, tmod_grid hc', tdiv_grid hc, tdiv_grid hc', xyDirection]
  rcases Nat.lt_trichotomy c c' with h | h | h
  · rw [if_pos (by omega), if_pos (by omega), if_pos h]
  · subst h
    rw [if_neg (by omega), if_neg (Nat.lt_irrefl c), if_neg (Nat.lt_irrefl c)]
    rcases Nat.lt_trichotomy r r' with h | h | h
    · rw [if_pos (by omega), if_pos (by omega), if_pos h]
    · rw [if_neg (by omega), if_neg (by omega), if_neg (by omega)]
    · rw [if_pos (by omega), if_neg (by omega), if_neg (by omega), if_pos h]
  · rw [if_pos (by omega), if_neg (by omega), if_neg (by omega), if_pos h]

/-- `DOR` in one dimension of `n` places: up, from `a` to `b`? -/
def dorUp (n a b : Nat) : Bool :=
  if a < b then b - a ≤ n - (b - a) else ¬a - b ≤ n - (a - b)

def dorDirection (rows cols r c r' c' : Nat) : Option PortDirection :=
  if c ≠ c' then some (if dorUp cols c c' then .East else .West)
  else if r ≠ r' then some (if dorUp rows r r' then .North else .South)
  else none

/-- The source's comparison of a difference with what is left of the dimension. -/
private theorem dor_dim {n a b : Nat} (ha : a < n) (hne : a ≠ b) (p m : PortDirection) :
    (if (if 0 ≤ (b : Int) - a then (b : Int) - a else -((b : Int) - a)) ≤
        n - (if 0 ≤ (b : Int) - a then (b : Int) - a else -((b : Int) - a)) then
      some (if 0 < (b : Int) - a then p else m) else some (if 0 < (b : Int) - a then m else p)) =
    some (if dorUp n a b then p else m) := by
  unfold dorUp
  rcases Nat.lt_or_gt_of_ne hne with h | h
  · have habs : (if 0 ≤ (b : Int) - a then (b : Int) - a else -((b : Int) - a)) = ((b - a : Nat) : Int) := by
      rw [if_pos (by omega)]
      omega
    have hup : 0 < (b : Int) - a := by omega
    have hle : ((b - a : Nat) : Int) ≤ n - ((b - a : Nat) : Int) ↔ b - a ≤ n - (b - a) := by omega
    rw [habs]
    simp only [hup, hle, h, if_true, decide_eq_true_eq]
    split <;> rfl
  · have habs : (if 0 ≤ (b : Int) - a then (b : Int) - a else -((b : Int) - a)) = ((a - b : Nat) : Int) := by
      rw [if_neg (by omega)]
      omega
    have hup : ¬0 < (b : Int) - a := by omega
    have hle : ((a - b : Nat) : Int) ≤ n - ((a - b : Nat) : Int) ↔ a - b ≤ n - (a - b) := by omega
    have hlt : ¬a < b := by omega
    rw [habs]
    simp only [hup, hle, hlt, if_false, decide_not, Bool.not_eq_true', decide_eq_false_iff_not]
    by_cases hd : a - b ≤ n - (a - b)
    · rw [if_pos hd, if_neg (not_not_intro hd)]
    · rw [if_neg hd, if_pos hd]

theorem directionFor_DOR (hc : c < cols) (hc' : c' < cols) (hr : r < rows) (n : Int) (cw : Bool) :
    directionFor .DOR (r * cols + c : Nat) (r' * cols + c' : Nat) rows cols n cw = dorDirection rows cols r c r' c' := by
  have hpos {a b : Nat} : 0 < (if 0 ≤ (b : Int) - a then (b : Int) - a else -((b : Int) - a)) ↔ a ≠ b := by
    split <;> omega
  simp only [directionFor, tmod_grid hc, tmod_grid hc', tdiv_grid hc, tdiv_grid hc', dorDirection, hpos]
  by_cases h₁ : c = c'
  · subst h₁
    simp only [ne_eq, not_true_eq_false, if_false]
    by_cases h₂ : r = r'
    · subst h₂
      simp only [not_true_eq_false, if_false]
    · simp only [h₂, not_false_eq_true, if_true]
      exact dor_dim hr h₂ _ _
  · simp only [ne_eq, h₁, not_false_eq_true, if_true]
    exact dor_dim hc h₁ _ _

/-- How far it is round a ring of `n`, in order. -/
def cwDist (n a b : Nat) : Nat := if a ≤ b then b - a else n - (a - b)

/-- `SHORTEST`: up, from `a` to `b`? -/
def shortestUp (n a b : Nat) : Bool := cwDist n a b ≤ n - cwDist n a b

theorem directionFor_SHORTEST {n a b : Nat} (ha : a < n) (hb : b < n) (hne : a ≠ b) (rs cs : Int) :
    directionFor .SHORTEST (a : Nat) (b : Nat) rs cs n false = some (if shortestUp n a b then .East else .West) := by
  have hmod {x y : Nat} (hx : x < n) (hy : y < n) : (((y : Int) - x).tmod n + n).tmod n = cwDist n x y := by
    unfold cwDist
    split
    · next h =>
      rw [← Int.ofNat_sub h, ← Int.ofNat_tmod, Nat.mod_eq_of_lt (by omega), ← Int.natCast_add, ← Int.ofNat_tmod,
        Nat.add_mod_right, Nat.mod_eq_of_lt (by omega)]
    · next h =>
      have hneg : ((y : Int) - x) = -((x - y : Nat) : Int) := by omega
      rw [hneg, Int.neg_tmod, ← Int.ofNat_tmod, Nat.mod_eq_of_lt (by omega)]
      have hsum : -((x - y : Nat) : Int) + n = ((n - (x - y) : Nat) : Int) := by omega
      rw [hsum, ← Int.ofNat_tmod, Nat.mod_eq_of_lt (by omega)]
  have hback : cwDist n b a = n - cwDist n a b := by
    unfold cwDist
    split <;> split <;> omega
  simp only [directionFor, Bool.false_eq_true, if_false, hmod ha hb, hmod hb ha, hback, Int.ofNat_le, shortestUp,
    decide_eq_true_eq]

end Directions

/-! ## Shortest ways round a ring -/

/-- One place up or down a ring of `n`. -/
def ringStep (n : Nat) (up : Bool) (a : Nat) : Nat := if up then stepCw n a else stepCcw n a

theorem ringStep_lt {n a : Nat} (up : Bool) (h : a < n) : ringStep n up a < n := by
  unfold ringStep
  split
  · exact stepCw_lt h
  · exact stepCcw_lt h

section Ways

variable {n a b : Nat}

theorem cwDist_lt (ha : a < n) (hb : b < n) : cwDist n a b < n := by
  unfold cwDist
  split <;> omega

theorem cwDist_stepCw (ha : a < n) (hb : b < n) (hne : a ≠ b) : cwDist n a b = cwDist n (stepCw n a) b + 1 := by
  unfold cwDist stepCw
  by_cases h : a + 1 = n
  · rw [if_pos h, if_pos (Nat.zero_le b), if_neg (by omega)]
    omega
  · rw [if_neg h]
    by_cases hab : a ≤ b
    · rw [if_pos hab, if_pos (by omega)]
      omega
    · rw [if_neg hab, if_neg (by omega)]
      omega

theorem cwDist_stepCcw (ha : a < n) (hb : b < n) (hne : stepCcw n a ≠ b) :
    cwDist n (stepCcw n a) b = cwDist n a b + 1 := by
  have h := cwDist_stepCw (stepCcw_lt ha) hb hne
  rwa [stepCw_stepCcw ha] at h

theorem cwDist_stepCcw_last (ha : a < n) (hb : b < n) (h : stepCcw n a = b) (hne : a ≠ b) : cwDist n a b = n - 1 := by
  have hstep := cwDist_stepCw ha hb hne
  unfold cwDist stepCw stepCcw at *
  subst h
  split <;> split <;> omega

/-- A choice of direction that never takes the longer way. -/
structure ShortestWay (way : Nat → Nat → Nat → Bool) : Prop where
  up : ∀ {n a b}, a < n → b < n → a ≠ b → way n a b = true → cwDist n a b ≤ n - cwDist n a b
  down : ∀ {n a b}, a < n → b < n → a ≠ b → way n a b = false → n - cwDist n a b ≤ cwDist n a b

theorem shortestWay_dorUp : ShortestWay dorUp where
  up ha hb hne h := by
    unfold dorUp at h
    unfold cwDist
    split at h
    · have := of_decide_eq_true h
      rw [if_pos (by omega)]
      omega
    · have := of_decide_eq_true h
      rw [if_neg (by omega)]
      omega
  down ha hb hne h := by
    unfold dorUp at h
    unfold cwDist
    split at h
    · have := of_decide_eq_false h
      rw [if_pos (by omega)]
      omega
    · have := of_decide_eq_false h
      rw [if_neg (by omega)]
      omega

theorem shortestWay_shortestUp : ShortestWay shortestUp where
  up _ _ _ h := of_decide_eq_true h
  down _ _ _ h := by
    have := of_decide_eq_false h
    omega

/-- The way stays the same until the packet is there. -/
theorem ShortestWay.keeps {way : Nat → Nat → Nat → Bool} (h : ShortestWay way) (ha : a < n) (hb : b < n) (hab : a ≠ b)
    (hne : ringStep n (way n a b) a ≠ b) : way n (ringStep n (way n a b) a) b = way n a b := by
  have hs := ringStep_lt (way n a b) ha
  by_cases hup : way n a b = true
  · rw [hup] at hne hs ⊢
    have h₁ := h.up ha hb hab hup
    have h₂ : cwDist n a b = cwDist n (ringStep n true a) b + 1 := cwDist_stepCw ha hb hab
    -- the other way would be longer by two
    by_contra hdown
    have h₃ := h.down hs hb hne (Bool.not_eq_true _ ▸ hdown)
    omega
  · rw [Bool.not_eq_true] at hup
    rw [hup] at hne hs ⊢
    have h₁ := h.down ha hb hab hup
    have h₂ : cwDist n (ringStep n false a) b = cwDist n a b + 1 := cwDist_stepCcw ha hb hne
    have h₄ := cwDist_lt hs hb
    by_contra hdown
    have h₃ := h.up hs hb hne (by simpa using hdown)
    omega

theorem ShortestWay.nearer {way : Nat → Nat → Nat → Bool} (h : ShortestWay way) (ha : a < n) (hb : b < n) (hab : a ≠ b) :
    min (cwDist n a b) (n - cwDist n a b) =
      min (cwDist n (ringStep n (way n a b) a) b) (n - cwDist n (ringStep n (way n a b) a) b) + 1 := by
  have hlt := cwDist_lt ha hb
  by_cases hup : way n a b = true
  · rw [hup]
    have h₁ := h.up ha hb hab hup
    have h₂ : cwDist n a b = cwDist n (ringStep n true a) b + 1 := cwDist_stepCw ha hb hab
    omega
  · rw [Bool.not_eq_true] at hup
    rw [hup]
    have h₁ := h.down ha hb hab hup
    by_cases hne : stepCcw n a = b
    · have h₂ := cwDist_stepCcw_last ha hb hne hab
      have h₃ : cwDist n (ringStep n false a) b = 0 := by
        show cwDist n (stepCcw n a) b = 0
        rw [hne, cwDist, if_pos (Nat.le_refl b), Nat.sub_self]
      omega
    · have h₂ : cwDist n (ringStep n false a) b = cwDist n a b + 1 := cwDist_stepCcw ha hb hne
      omega

end Ways

end Pimid.Garnet
