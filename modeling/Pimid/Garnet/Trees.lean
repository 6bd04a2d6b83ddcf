import Pimid.Garnet.Topology
import Mathlib.Tactic.Ring

/-!
# Binary trees of routers

Number the nodes of a binary tree as a heap does: the root is 1, the children of `v`
are `2 * v` and `2 * v + 1`. The distance of two nodes is then what the H-tree's hop
count computes: halve the larger number until both are equal. Both tree builders
make such a tree, the fat tree with its rows of routers numbered from the leaves.
-/

namespace Pimid.Garnet

/-! ## Distances in a heap -/

/-- `while (a != b) { if (a > b) a >>= 1; else b >>= 1; hops++; }` -/
def heapHops (a b : Nat) : Nat :=
  if a = b then 0
  else if b < a then heapHops (a / 2) b + 1
  else heapHops a (b / 2) + 1
termination_by a + b
decreasing_by all_goals omega

/-- `while (s != d) { s /= 2; d /= 2; level++; }` -/
def lcaLevel (s d : Nat) : Nat :=
  if s = d then 0 else lcaLevel (s / 2) (d / 2) + 1
termination_by s + d
decreasing_by omega

theorem heapHops_self (a : Nat) : heapHops a a = 0 := by
  rw [heapHops, if_pos rfl]

theorem heapHops_of_gt {a b : Nat} (h : b < a) : heapHops a b = heapHops (a / 2) b + 1 := by
  rw [heapHops, if_neg (by omega), if_pos h]

theorem heapHops_of_lt {a b : Nat} (h : a < b) : heapHops a b = heapHops a (b / 2) + 1 := by
  rw [heapHops, if_neg (by omega), if_neg (by omega)]

theorem lcaLevel_of_ne {s d : Nat} (h : s ≠ d) : lcaLevel s d = lcaLevel (s / 2) (d / 2) + 1 := by
  rw [lcaLevel, if_neg h]

theorem heapHops_parent {v b : Nat} (hv : 2 ≤ v) (hb : 1 ≤ b) :
    heapHops v b = heapHops (v / 2) b + 1 ∨ heapHops (v / 2) b = heapHops v b + 1 := by
  induction b using Nat.strongRecOn with
  | _ b ih =>
    rcases Nat.lt_trichotomy v b with h | h | h
    · rw [heapHops_of_lt h, heapHops_of_lt (show v / 2 < b by omega)]
      rcases ih (b / 2) (by omega) (by omega) with ih | ih
      · exact .inl (by rw [ih])
      · exact .inr (by rw [ih])
    · subst h
      exact .inr (by rw [heapHops_of_lt (by omega), heapHops_self, heapHops_self])
    · exact .inl (heapHops_of_gt h)

/-- From any other node, one step goes towards `b`: to the parent, or to the child that has `b` below it. -/
theorem heapHops_step {v b : Nat} (hv : 1 ≤ v) (hne : v ≠ b) (hb : 1 ≤ b) :
    (2 ≤ v ∧ heapHops v b = heapHops (v / 2) b + 1) ∨
      ∃ k, b / 2 ^ k / 2 = v ∧ heapHops v b = heapHops (b / 2 ^ k) b + 1 := by
  induction b using Nat.strongRecOn with
  | _ b ih =>
    rcases Nat.lt_or_gt_of_ne hne with h | h
    · rcases Nat.lt_trichotomy v (b / 2) with h' | h' | h'
      · rcases ih (b / 2) (by omega) (by omega) (by omega) with ⟨hv2, hup⟩ | ⟨k, hk, hdown⟩
        · exact .inl ⟨hv2, by rw [heapHops_of_lt h, heapHops_of_lt (show v / 2 < b by omega), hup]⟩
        · -- the child lies above `b / 2`, and so above `b`
          have hpow : b / 2 / 2 ^ k = b / 2 ^ (k + 1) := by rw [Nat.div_div_eq_div_mul, Nat.pow_succ']
          have hle : b / 2 / 2 ^ k ≤ b / 2 := Nat.div_le_self _ _
          rw [hpow] at hk hdown hle
          refine .inr ⟨k + 1, hk, ?_⟩
          rw [heapHops_of_lt h, hdown, heapHops_of_lt (show b / 2 ^ (k + 1) < b by omega)]
      · refine .inr ⟨0, by rw [Nat.pow_zero, Nat.div_one]; exact h'.symm, ?_⟩
        rw [heapHops_of_lt h, ← h', heapHops_self, Nat.pow_zero, Nat.div_one, heapHops_self]
      · exact .inl ⟨by omega, by
          rw [heapHops_of_lt h, heapHops_of_gt h', heapHops_of_lt (show v / 2 < b by omega)]⟩
    · exact .inl ⟨by omega, heapHops_of_gt h⟩

/-- Two nodes of one row are twice as far apart as their row is below their common ancestor. -/
theorem heapHops_row {k a b : Nat} (ha : a < 2 ^ k) (hb : b < 2 ^ k) :
    heapHops (2 ^ k + a) (2 ^ k + b) = 2 * lcaLevel a b := by
  induction k generalizing a b with
  | zero =>
    obtain rfl : a = b := by omega
    rw [heapHops_self, lcaLevel, if_pos rfl]
  | succ k ih =>
    by_cases hab : a = b
    · rw [hab, heapHops_self, lcaLevel, if_pos rfl]
    · have hhalf (x : Nat) : (2 ^ (k + 1) + x) / 2 = 2 ^ k + x / 2 := by rw [Nat.pow_succ]; omega
      have hpos : 1 ≤ 2 ^ k := Nat.one_le_two_pow
      rw [Nat.pow_succ] at ha hb
      have hrec := ih (show a / 2 < 2 ^ k by omega) (show b / 2 < 2 ^ k by omega)
      rw [lcaLevel_of_ne hab, Nat.mul_add, ← hrec]
      rcases Nat.lt_or_gt_of_ne hab with h | h
      · rw [heapHops_of_lt (by omega), hhalf, heapHops_of_gt (by rw [Nat.pow_succ]; omega), hhalf]
      · rw [heapHops_of_gt (by omega), hhalf, heapHops_of_lt (by rw [Nat.pow_succ]; omega), hhalf]

/-! ## Topologies numbered as heaps -/

/-- The routers are nodes of a heap, with a link each way between every node but the root and its parent. -/
structure HeapLinks (t : Topology) (heap : Nat → Nat) : Prop where
  pos : ∀ x < t.numRouters, 1 ≤ heap x
  inj : ∀ x < t.numRouters, ∀ y < t.numRouters, heap x = heap y → x = y
  edge : ∀ l ∈ t.intLinks, (2 ≤ heap l.src ∧ heap l.dst = heap l.src / 2) ∨ (2 ≤ heap l.dst ∧ heap l.src = heap l.dst / 2)
  parent : ∀ x < t.numRouters, 2 ≤ heap x → ∃ y < t.numRouters, heap y = heap x / 2 ∧
    (∃ l ∈ t.intLinks, l.src = x ∧ l.dst = y) ∧ ∃ l ∈ t.intLinks, l.src = y ∧ l.dst = x

theorem HeapLinks.ancestor {t : Topology} {heap : Nat → Nat} (h : HeapLinks t heap) {x : Nat} (hx : x < t.numRouters)
    {k : Nat} (hk : 1 ≤ heap x / 2 ^ k) : ∃ y < t.numRouters, heap y = heap x / 2 ^ k := by
  induction k with
  | zero => exact ⟨x, hx, by rw [Nat.pow_zero, Nat.div_one]⟩
  | succ k ih =>
    rw [Nat.pow_succ, ← Nat.div_div_eq_div_mul] at hk ⊢
    obtain ⟨y, hy, heq⟩ := ih (by omega)
    obtain ⟨z, hz, hzeq, -⟩ := h.parent y hy (by omega)
    exact ⟨z, hz, by rw [hzeq, heq]⟩

theorem HeapLinks.isDist {t : Topology} {heap : Nat → Nat} (h : HeapLinks t heap) {x y : Nat} (hx : x < t.numRouters)
    (hy : y < t.numRouters) : IsDist IntLink.src IntLink.dst t.intLinks x y (heapHops (heap x) (heap y)) := by
  have hb := h.pos y hy
  refine isDist_of_rank (fun v => heapHops (heap v) (heap y)) (· < t.numRouters) (heapHops_self _) ?_ ?_ hx
  · intro l hl
    show heapHops (heap l.src) _ ≤ heapHops (heap l.dst) _ + 1
    rcases h.edge l hl with ⟨h2, hd⟩ | ⟨h2, hd⟩
    · rw [hd]
      rcases heapHops_parent h2 hb with he | he <;> omega
    · rw [hd]
      rcases heapHops_parent h2 hb with he | he <;> omega
  · intro v hv hne
    have hne' : heap v ≠ heap y := fun he => hne (h.inj v hv y hy he)
    rcases heapHops_step (h.pos v hv) hne' hb with ⟨h2, hup⟩ | ⟨k, hk, hdown⟩
    · obtain ⟨u, hu, heq, ⟨l, hl, hs, hd⟩, -⟩ := h.parent v hv h2
      refine ⟨l, hl, hs, by rw [hd]; exact hu, ?_⟩
      show heapHops (heap v) _ = heapHops (heap l.dst) _ + 1
      rw [hd, heq, hup]
    · have hone := h.pos v hv
      obtain ⟨u, hu, heq⟩ := h.ancestor hy (k := k) (by omega)
      obtain ⟨w, hw, hweq, -, l, hl, hs, hd⟩ := h.parent u hu (by omega)
      obtain rfl : w = v := h.inj w hw v hv (by rw [hweq, heq, hk])
      refine ⟨l, hl, hs, by rw [hd]; exact hu, ?_⟩
      show heapHops (heap w) _ = heapHops (heap l.dst) _ + 1
      rw [hd, heq, hdown]

/-! ## Levels -/

theorem levelsLoop_spec {n fuel levels : Nat} (hfuel : n ≤ 2 ^ levels * 2 ^ fuel) :
    n ≤ 2 ^ levelsLoop 2 n fuel (2 ^ levels) levels ∧ levels ≤ levelsLoop 2 n fuel (2 ^ levels) levels := by
  induction fuel generalizing levels with
  | zero => exact ⟨by simpa [levelsLoop] using hfuel, Nat.le_refl _⟩
  | succ fuel ih =>
    rw [levelsLoop]
    split
    · rw [show 2 ^ levels * 2 = 2 ^ (levels + 1) from (Nat.pow_succ ..).symm]
      have hfuel' : n ≤ 2 ^ (levels + 1) * 2 ^ fuel := by
        calc n ≤ 2 ^ levels * 2 ^ (fuel + 1) := hfuel
          _ = 2 ^ (levels + 1) * 2 ^ fuel := by ring
      obtain ⟨h₁, h₂⟩ := ih hfuel'
      exact ⟨h₁, by omega⟩
    · exact ⟨by omega, Nat.le_refl _⟩

/-- The tree has room for `n` endpoints, two to a leaf. -/
theorem treeLevels_spec (n : Nat) : n ≤ 2 ^ treeLevels 2 n ∧ 1 ≤ treeLevels 2 n := by
  have hfuel : n ≤ 2 ^ 1 * 2 ^ n := by
    have := Nat.lt_two_pow_self (n := n)
    omega
  exact levelsLoop_spec hfuel

/-! ## The H-tree -/

theorem heapLinks_hTree (n : Nat) : HeapLinks (buildHTree n) (· + 1) where
  pos _ _ := Nat.succ_pos _
  inj _ _ _ _ h := Nat.succ.inj h
  edge l hl := by
    obtain ⟨i, -, hi⟩ := List.mem_flatMap.mp hl
    simp only [hTreeLinksAt, List.mem_append] at hi
    rcases hi with hi | hi <;> split at hi <;> simp only [List.mem_cons, List.not_mem_nil, or_false] at hi <;>
      rcases hi with rfl | rfl <;> dsimp only <;> omega
  parent x hx h2 := by
    have hx' : x < 2 ^ treeLevels 2 n - 1 := hx
    refine ⟨(x - 1) / 2, by omega, by omega, ?_⟩
    have hmem {l : IntLink} (hl : l ∈ hTreeLinksAt (2 ^ treeLevels 2 n - 1) ((x - 1) / 2)) : l ∈ (buildHTree n).intLinks :=
      List.mem_flatMap.mpr ⟨(x - 1) / 2, List.mem_range.mpr (show (x - 1) / 2 < 2 ^ treeLevels 2 n - 1 by omega), hl⟩
    rcases Nat.mod_two_eq_zero_or_one x with hpar | hpar
    · have hc : 2 * ((x - 1) / 2) + 2 = x := by omega
      refine ⟨⟨⟨x, (x - 1) / 2, .Up, .Right⟩, hmem ?_, rfl, rfl⟩, ⟨(x - 1) / 2, x, .Right, .Up⟩, hmem ?_, rfl, rfl⟩ <;>
        simp [hTreeLinksAt, hc, hx']
    · have hc : 2 * ((x - 1) / 2) + 1 = x := by omega
      refine ⟨⟨⟨x, (x - 1) / 2, .Up, .Left⟩, hmem ?_, rfl, rfl⟩, ⟨(x - 1) / 2, x, .Left, .Up⟩, hmem ?_, rfl, rfl⟩ <;>
        simp [hTreeLinksAt, hc, hx']

/-! ## The fat tree -/

/-- The heap number of router `x`, when the rows of routers, leaves first, have the lengths in the list. -/
def heapOf : List Nat → Nat → Nat
  | [], _ => 0
  | n :: rest, x => if x < n then 2 ^ rest.length + x else heapOf rest (x - n)

/-- Each row has half as many routers as the one below, and no more than a heap has room for. -/
def Rows : List Nat → Prop
  | [] => True
  | n :: rest => n ≤ 2 ^ rest.length ∧ (∀ m ∈ rest.head?, m = (n + 1) / 2) ∧ Rows rest

theorem length_routersPerLevel (arity levels n : Nat) : (routersPerLevel arity levels n).length = levels := by
  induction levels generalizing n with
  | zero => rfl
  | succ levels ih => rw [routersPerLevel, List.length_cons, ih]

theorem rows_routersPerLevel {levels n : Nat} (h : n ≤ 2 ^ levels) : Rows (routersPerLevel 2 levels n) := by
  induction levels generalizing n with
  | zero => exact trivial
  | succ levels ih =>
    rw [Nat.pow_succ] at h
    have hhalf : (n + 2 - 1) / 2 ≤ 2 ^ levels := by omega
    refine ⟨by rw [length_routersPerLevel]; exact hhalf, fun m hm => ?_, ih hhalf⟩
    cases levels with
    | zero => cases hm
    | succ levels =>
      rw [routersPerLevel, List.head?_cons, Option.mem_some] at hm
      omega

theorem heapOf_row {n x : Nat} {rest : List Nat} (h : x < n) : heapOf (n :: rest) x = 2 ^ rest.length + x := if_pos h

theorem heapOf_above (n x : Nat) (rest : List Nat) : heapOf (n :: rest) (n + x) = heapOf rest x := by
  rw [heapOf, if_neg (by omega), Nat.add_sub_cancel_left]

theorem heapOf_lt {ns : List Nat} (h : Rows ns) (x : Nat) : heapOf ns x < 2 ^ ns.length := by
  induction ns generalizing x with
  | nil => exact Nat.one_pos
  | cons n rest ih =>
    rw [heapOf, List.length_cons, Nat.pow_succ]
    split
    · have := h.1
      omega
    · have := ih h.2.2 (x - n)
      omega

theorem heapOf_pos {ns : List Nat} {x : Nat} (hx : x < ns.sum) : 1 ≤ heapOf ns x := by
  induction ns generalizing x with
  | nil => cases hx
  | cons n rest ih =>
    rw [heapOf]
    rw [List.sum_cons] at hx
    split
    · exact Nat.le_trans Nat.one_le_two_pow (Nat.le_add_right _ _)
    · exact ih (by omega)

theorem heapOf_inj {ns : List Nat} (h : Rows ns) {x y : Nat} (hx : x < ns.sum) (hy : y < ns.sum)
    (he : heapOf ns x = heapOf ns y) : x = y := by
  induction ns generalizing x y with
  | nil => cases hx
  | cons n rest ih =>
    rw [List.sum_cons] at hx hy
    -- a row's numbers are all above those of the rows over it
    have hrest (z : Nat) := heapOf_lt h.2.2 z
    rw [heapOf, heapOf] at he
    split at he <;> split at he
    · omega
    · have := hrest (y - n)
      omega
    · have := hrest (x - n)
      omega
    · have := ih h.2.2 (x := x - n) (y := y - n) (by omega) (by omega) he
      omega

theorem heapOf_half {n m c : Nat} {rest : List Nat} (h : Rows (n :: m :: rest)) (hc : c < n) :
    heapOf (n :: m :: rest) (n + c / 2) = heapOf (n :: m :: rest) c / 2 ∧ 2 ≤ heapOf (n :: m :: rest) c ∧ c / 2 < m := by
  have hm : m = (n + 1) / 2 := h.2.1 m rfl
  have hlt : c / 2 < m := by omega
  have hpow : 2 ^ (m :: rest).length = 2 ^ rest.length * 2 := Nat.pow_succ ..
  have hpos : 1 ≤ 2 ^ rest.length := Nat.one_le_two_pow
  rw [heapOf_above, heapOf_row hlt, heapOf_row hc, hpow]
  exact ⟨by omega, by omega, hlt⟩

theorem fatTreeLinks_edge {ns : List Nat} (h : Rows ns) {base : Nat} {l : IntLink} (hl : l ∈ fatTreeLinks 2 base ns) :
    ∃ c p, 2 ≤ heapOf ns c ∧ heapOf ns p = heapOf ns c / 2 ∧
      ((l.src = base + c ∧ l.dst = base + p) ∨ (l.src = base + p ∧ l.dst = base + c)) := by
  induction ns generalizing base with
  | nil => cases hl
  | cons n rest ih =>
    cases rest with
    | nil => cases hl
    | cons m rest =>
      rw [fatTreeLinks, List.mem_append] at hl
      rcases hl with hl | hl
      · obtain ⟨c, hc, hl⟩ := List.mem_flatMap.mp hl
        obtain ⟨hp, h2, -⟩ := heapOf_half h (List.mem_range.mp hc)
        refine ⟨c, n + c / 2, h2, hp, ?_⟩
        simp only [List.mem_cons, List.not_mem_nil, or_false] at hl
        rcases hl with rfl | rfl
        · exact .inl ⟨rfl, Nat.add_assoc ..⟩
        · exact .inr ⟨Nat.add_assoc .., rfl⟩
      · obtain ⟨c, p, h2, hp, hends⟩ := ih h.2.2 hl
        refine ⟨n + c, n + p, by rw [heapOf_above]; exact h2, by rw [heapOf_above, heapOf_above]; exact hp, ?_⟩
        rw [← Nat.add_assoc, ← Nat.add_assoc]
        exact hends

theorem fatTreeLinks_parent {ns : List Nat} (h : Rows ns) (base : Nat) {c : Nat} (hc : c < ns.sum) (h2 : 2 ≤ heapOf ns c) :
    ∃ p < ns.sum, heapOf ns p = heapOf ns c / 2 ∧
      (∃ l ∈ fatTreeLinks 2 base ns, l.src = base + c ∧ l.dst = base + p) ∧
        ∃ l ∈ fatTreeLinks 2 base ns, l.src = base + p ∧ l.dst = base + c := by
  induction ns generalizing base c with
  | nil => cases hc
  | cons n rest ih =>
    rw [List.sum_cons] at hc ⊢
    cases rest with
    | nil =>
      -- the root has no parent
      have hlt := heapOf_lt h c
      rw [List.length_singleton] at hlt
      omega
    | cons m rest =>
      rw [fatTreeLinks]
      by_cases hcn : c < n
      · obtain ⟨hp, -, hlt⟩ := heapOf_half h hcn
        have hrow : c / 2 < (m :: rest).sum := by
          rw [List.sum_cons]
          omega
        refine ⟨n + c / 2, by omega, hp, ?_, ?_⟩
        · exact ⟨_, List.mem_append_left _ (List.mem_flatMap.mpr ⟨c, List.mem_range.mpr hcn, List.mem_cons_self⟩), rfl,
            Nat.add_assoc ..⟩
        · exact ⟨_, List.mem_append_left _ (List.mem_flatMap.mpr ⟨c, List.mem_range.mpr hcn,
            List.mem_cons_of_mem _ List.mem_cons_self⟩), Nat.add_assoc .., rfl⟩
      · obtain ⟨c, rfl⟩ : ∃ x, c = n + x := ⟨c - n, by omega⟩
        rw [heapOf_above] at h2 ⊢
        obtain ⟨p, hp, heq, ⟨l, hl, hs, hd⟩, l', hl', hs', hd'⟩ := ih h.2.2 (base + n) (by omega) h2
        refine ⟨n + p, by omega, by rw [heapOf_above]; exact heq, ?_, ?_⟩
        · exact ⟨l, List.mem_append_right _ hl, by rw [hs, Nat.add_assoc], by rw [hd, Nat.add_assoc]⟩
        · exact ⟨l', List.mem_append_right _ hl', by rw [hs', Nat.add_assoc], by rw [hd', Nat.add_assoc]⟩

/-- The fat tree's rows of routers. -/
def fatTreeRows (n : Nat) : List Nat := routersPerLevel 2 (treeLevels 2 n) n

theorem rows_fatTree (n : Nat) : Rows (fatTreeRows n) := rows_routersPerLevel (treeLevels_spec n).1

theorem heapLinks_fatTree (n : Nat) : HeapLinks (buildFatTree n 2) (heapOf (fatTreeRows n)) where
  pos _ hx := heapOf_pos hx
  inj _ hx _ hy h := heapOf_inj (rows_fatTree n) hx hy h
  edge l hl := by
    obtain ⟨c, p, h2, hp, ⟨hs, hd⟩ | ⟨hs, hd⟩⟩ := fatTreeLinks_edge (rows_fatTree n) hl
    · rw [Nat.zero_add] at hs hd
      exact .inl ⟨by rw [hs]; exact h2, by rw [hs, hd]; exact hp⟩
    · rw [Nat.zero_add] at hs hd
      exact .inr ⟨by rw [hd]; exact h2, by rw [hs, hd]; exact hp⟩
  parent x hx h2 := by
    obtain ⟨p, hp, heq, hup, hdown⟩ := fatTreeLinks_parent (rows_fatTree n) 0 hx h2
    rw [Nat.zero_add, Nat.zero_add] at hup hdown
    exact ⟨p, hp, heq, hup, hdown⟩

end Pimid.Garnet
