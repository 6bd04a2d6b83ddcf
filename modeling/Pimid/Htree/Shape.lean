import Pimid.Htree.Keys
import Pimid.Htree.Units
import Pimid.Lib.Maps

/-!
# The shape of a tree under construction

A tree has routers at a prefix-closed set `T` of coordinates. Where a die carries an
in-die fabric its chip is in `D`: the chip has no tree routers below it but one grid
node for every placement unit of the die. `Shape` says what the builder's maps hold in
those terms, and the passes over elements and channels are followed through it.
-/

namespace Pimid.Htree

open SparseHTree (keyStep)

variable {P : Params}

/-- The router entered under the coordinates `q`. -/
def SparseHTree.routerAt (t : SparseHTree) (q : List Nat) : Option Nat := t.routerOf[keyOf q]?

/-- The fan-outs from the chip down to the placement level. -/
def Params.dieFans (P : Params) : List Nat :=
  ((List.range' (P.peLevel + 1) (3 - P.peLevel)).map (childFanout P.d)).reverse

/-- A placement unit of one of the dies `D`. -/
def DieNode (P : Params) (D : Set (List Nat)) (q : List Nat) : Prop :=
  ∃ d ∈ D, ∃ w, List.Forall₂ (· < ·) w P.dieFans ∧ q = d ++ w

/-- The coordinates below a chip are those of a unit of its die. -/
theorem forall₂_dieFans {d v : List Nat} (hd : d.length + 3 = P.top) (hpe : P.peLevel ≤ 2)
    (hlen : v.length = 3 - P.peLevel) (hv : P.Valid (d ++ v)) : List.Forall₂ (· < ·) v P.dieFans := by
  rw [List.forall₂_iff_get]
  refine ⟨by simp [Params.dieFans, hlen], fun i h₁ h₂ => ?_⟩
  have hv := hv (d.length + i) v[i] (by rw [List.getElem?_append_right (by omega)]; simp)
  simp only [List.get_eq_getElem, Params.dieFans, List.getElem_reverse, List.getElem_map, List.getElem_range',
    List.length_map, List.length_range']
  have hlev : P.top - (d.length + i) = P.peLevel + 1 + 1 * (3 - P.peLevel - 1 - i) := by omega
  rwa [hlev, fanout_of_le (by omega)] at hv

/-- The routers of `b` are the tree routers `T` and the grid nodes of the dies `D`. -/
structure Shape (P : Params) (b : Build) (T D : Set (List Nat)) : Prop where
  rootMem : [] ∈ T
  root : b.t.routerAt [] = some 0
  keys : ∀ {k r}, b.t.routerOf[k]? = some r → ∃ q, k = keyOf q
  live : ∀ q, (∃ r, b.t.routerAt q = some r) ↔ q ∈ T ∨ DieNode P D q
  inj : ∀ {q q' r}, b.t.routerAt q = some r → b.t.routerAt q' = some r → q = q'
  lt : ∀ {q r}, b.t.routerAt q = some r → r < b.nextRouter
  infoLt : ∀ {r nd}, b.info[r]? = some nd → r < b.nextRouter
  owner : ∀ {r nd}, b.info[r]? = some nd →
    (∃ q, b.t.routerAt q = some r) ∨ (Build.isHub b.t r ∧ nd = ⟨P.peLevel, ∅⟩ ∧ P.peLevel ≤ 2)
  notHub : ∀ {q r}, b.t.routerAt q = some r → ¬ Build.isHub b.t r
  closed : ∀ {q c}, q ++ [c] ∈ T → q ∈ T
  valid : ∀ {q}, q ∈ T → P.Valid q
  treeInfo : ∀ {q r}, q ∈ T → q ∉ D → b.t.routerAt q = some r →
    ∃ live, b.info[r]? = some ⟨P.top - q.length, live⟩ ∧ ∀ c, c ∈ live ↔ q ++ [c] ∈ T
  die : ∀ {q}, q ∈ D → q ∈ T ∧ q.length + 3 = P.top ∧ P.peLevel ≤ 2 ∧ ∀ c, q ++ [c] ∉ T
  dieInfo : ∀ {q r}, q ∈ D → b.t.routerAt q = some r →
    b.info[r]? = some ⟨3, Finset.range (childFanout P.d 3)⟩
  nodeInfo : ∀ {q r}, DieNode P D q → b.t.routerAt q = some r → b.info[r]? = some ⟨P.peLevel, ∅⟩
  grid : b.t.gridDie.length ≤ b.nextRouter
  exit : ∀ r, b.t.dieExitOf.contains r = true ↔ ∃ d ∈ D, b.t.routerAt d = some r

/-- Nothing but routers, links and live children changed from `b` to `b'`. -/
structure Frame (b b' : Build) : Prop where
  routers : ∀ {q r}, b.t.routerAt q = some r → b'.t.routerAt q = some r
  rest : b'.t = { b.t with routerOf := b'.t.routerOf, intLinks := b'.t.intLinks }

theorem Frame.refl (b : Build) : Frame b b := ⟨id, rfl⟩

theorem Frame.trans {b₁ b₂ b₃ : Build} (h₁ : Frame b₁ b₂) (h₂ : Frame b₂ b₃) : Frame b₁ b₃ := by
  refine ⟨fun h => h₂.routers (h₁.routers h), h₂.rest.trans ?_⟩
  rw [h₁.rest]

namespace Shape

variable {b b' : Build} {T D : Set (List Nat)} {q : List Nat} {c r : Nat}

theorem routerAt_of_mem (h : Shape P b T D) (hq : q ∈ T) : ∃ r, b.t.routerAt q = some r :=
  (h.live q).mpr (.inl hq)

/-- Every stretch of leading coordinates of a tree router is a tree router. -/
theorem mem_of_leading (h : Shape P b T D) {q' : List Nat} (hp : q' <+: q) (hq : q ∈ T) : q' ∈ T := by
  obtain ⟨w, rfl⟩ := hp
  induction w using List.reverseRecOn with
  | nil => simpa using hq
  | append_singleton w c ih =>
    rw [← List.append_assoc] at hq
    exact ih (h.closed hq)

theorem level_eq (h : Shape P b T D) (hq : q ∈ T) (hr : b.t.routerAt q = some r) :
    b.level r = P.top - q.length := by
  by_cases hd : q ∈ D
  · rw [Build.level, Build.node, Std.TreeMap.getD_eq_getD_getElem?, h.dieInfo hd hr]
    have := (h.die hd).2.1
    show 3 = _
    omega
  · obtain ⟨live, hi, _⟩ := h.treeInfo hq hd hr
    rw [Build.level, Build.node, Std.TreeMap.getD_eq_getD_getElem?, hi]
    rfl

/-! ## A new child -/

/-- What the maps of `b'` hold after child `c` of the router `parent` at `q` came in. -/
structure Grows (P : Params) (b b' : Build) (q : List Nat) (c parent : Nat) : Prop where
  router : ∀ k, b'.t.routerOf[k]? = if k = keyOf (q ++ [c]) then some b.nextRouter else b.t.routerOf[k]?
  info : ∀ r, b'.info[r]? = if r = b.nextRouter then some ⟨P.top - (q.length + 1), ∅⟩
    else if r = parent then some ⟨(b.node parent).level, insert c (b.node parent).live⟩ else b.info[r]?
  next : b'.nextRouter = b.nextRouter + 1
  grid : b'.t.gridDie = b.t.gridDie ∧ b'.t.gridX = b.t.gridX
  exit : b'.t.dieExitOf = b.t.dieExitOf

theorem Grows.routerAt {parent : Nat} (g : Grows P b b' q c parent) (q' : List Nat) :
    b'.t.routerAt q' = if q' = q ++ [c] then some b.nextRouter else b.t.routerAt q' := by
  rw [SparseHTree.routerAt, g.router]
  by_cases hq : q' = q ++ [c]
  · rw [if_pos hq, if_pos (by rw [hq])]
  · rw [if_neg hq, if_neg fun he => hq (keyOf_inj he)]
    rfl

theorem isHub_fresh {t : SparseHTree} {r : Nat} (h : t.gridDie.length ≤ r) : ¬ Build.isHub t r := by
  simp only [Build.isHub, decide_eq_true_eq]
  omega

theorem isHub_congr {t t' : SparseHTree} (hd : t'.gridDie = t.gridDie) (hx : t'.gridX = t.gridX) :
    Build.isHub t' = Build.isHub t := by
  funext r
  rw [Build.isHub, Build.isHub, hd, hx]

theorem node_eq {nd : Node} (h : b.info[r]? = some nd) : b.node r = nd := by
  rw [Build.node, Std.TreeMap.getD_eq_getD_getElem?, h]
  rfl

/-- **A child of a tree router extends the tree.** -/
theorem addChild (h : Shape P b T D) {parent : Nat} (hq : q ∈ T) (hD : q ∉ D)
    (hr : b.t.routerAt q = some parent) (hnew : b.t.routerAt (q ++ [c]) = none)
    (hc : c < P.fanout (P.top - q.length)) (g : Grows P b b' q c parent) :
    Shape P b' (insert (q ++ [c]) T) D := by
  obtain ⟨live, hpi, hlive⟩ := h.treeInfo hq hD hr
  have hpar : b.node parent = ⟨P.top - q.length, live⟩ := node_eq hpi
  have hfresh : ∀ {r}, b.t.routerAt q ≠ some b.nextRouter ∧ (b.t.routerAt r ≠ some b.nextRouter) :=
    fun {r} => ⟨fun hx => Nat.lt_irrefl _ (h.lt hx), fun hx => Nat.lt_irrefl _ (h.lt hx)⟩
  have hnotT : q ++ [c] ∉ T := fun hm => by
    obtain ⟨r, hx⟩ := h.routerAt_of_mem hm
    rw [hnew] at hx
    exact absurd hx (by simp)
  have hnotN : ¬ DieNode P D (q ++ [c]) := fun hm => by
    obtain ⟨r, hx⟩ := (h.live _).mpr (.inr hm)
    rw [hnew] at hx
    exact absurd hx (by simp)
  have hold : ∀ {q' r}, q' ≠ q ++ [c] → b'.t.routerAt q' = some r → b.t.routerAt q' = some r := by
    intro q' r hne hx
    rwa [g.routerAt, if_neg hne] at hx
  have hinfo : ∀ {q' r}, q' ≠ q → b.t.routerAt q' = some r → b'.info[r]? = b.info[r]? := by
    intro q' r hne hx
    rw [g.info, if_neg (by rintro rfl; exact hfresh.2 hx), if_neg]
    rintro rfl
    exact hne (h.inj hx hr)
  refine
    { rootMem := .inr h.rootMem
      root := ?_
      keys := ?_
      live := ?_
      inj := ?_
      lt := ?_
      infoLt := ?_
      owner := ?_
      notHub := ?_
      closed := ?_
      valid := ?_
      treeInfo := ?_
      die := ?_
      dieInfo := ?_
      nodeInfo := ?_
      grid := ?_
      exit := ?_ }
  · rw [g.routerAt, if_neg (by simp)]
    exact h.root
  · intro k r hk
    rw [g.router] at hk
    split at hk
    next he => exact ⟨_, he⟩
    next => exact h.keys hk
  · intro q'
    rw [g.routerAt]
    by_cases he : q' = q ++ [c]
    · simp [he]
    · rw [if_neg he, h.live q', Set.mem_insert_iff]
      simp [he]
  · intro q₁ q₂ r h₁ h₂
    rw [g.routerAt] at h₁ h₂
    split at h₁ <;> split at h₂
    next e₁ e₂ => rw [e₁, e₂]
    next => exact absurd (h₂.trans h₁.symm) hfresh.2
    next => exact absurd (h₁.trans h₂.symm) hfresh.2
    next => exact h.inj h₁ h₂
  · intro q' r hx
    rw [g.next]
    rw [g.routerAt] at hx
    split at hx
    · injection hx with hx
      omega
    · exact Nat.lt_succ_of_lt (h.lt hx)
  · intro r nd hi
    rw [g.next]
    rw [g.info] at hi
    split at hi
    next he => omega
    next =>
      split at hi
      next he => exact he ▸ Nat.lt_succ_of_lt (h.lt hr)
      next => exact Nat.lt_succ_of_lt (h.infoLt hi)
  · intro r nd hi
    rw [g.info] at hi
    split at hi
    next he => exact .inl ⟨q ++ [c], by rw [g.routerAt, if_pos rfl, he]⟩
    next =>
      split at hi
      next he => exact .inl ⟨q, by rw [g.routerAt, if_neg (by simp), he, hr]⟩
      next =>
        rcases h.owner hi with ⟨q', hx⟩ | ⟨hhub, hnd⟩
        · refine .inl ⟨q', ?_⟩
          rw [g.routerAt, if_neg, hx]
          rintro rfl
          rw [hnew] at hx
          exact absurd hx (by simp)
        · exact .inr ⟨by rw [isHub_congr g.grid.1 g.grid.2]; exact hhub, hnd⟩
  · intro q' r hx
    rw [isHub_congr g.grid.1 g.grid.2]
    rw [g.routerAt] at hx
    split at hx
    · injection hx with hx
      exact isHub_fresh (hx ▸ h.grid)
    · exact h.notHub hx
  · intro q' c' hm
    rcases hm with he | hm
    · obtain ⟨rfl, -⟩ := List.append_inj' he rfl
      exact .inr hq
    · exact .inr (h.closed hm)
  · intro q' hm
    rcases hm with rfl | hm
    · exact (h.valid hq).snoc hc
    · exact h.valid hm
  · intro q' r hm hd hx
    rcases hm with rfl | hm
    · -- the new router has no children yet
      rw [g.routerAt, if_pos rfl] at hx
      injection hx with hx
      refine ⟨∅, by rw [g.info, if_pos hx.symm]; simp, fun x => ?_⟩
      simp only [Finset.notMem_empty, Set.mem_insert_iff, false_iff, not_or]
      refine ⟨by simp, fun hm => hnotT (h.closed hm)⟩
    · have hne : q' ≠ q ++ [c] := fun he => hnotT (he ▸ hm)
      have hx := hold hne hx
      by_cases he : q' = q
      · subst he
        obtain rfl : parent = r := by
          rw [hr] at hx
          exact Option.some.inj hx
        refine ⟨insert c live, ?_, fun x => ?_⟩
        · rw [g.info, if_neg (by rintro he; exact hfresh.2 (he ▸ hx)), if_pos rfl, hpar]
        · rw [Finset.mem_insert, hlive, Set.mem_insert_iff]
          refine or_congr_left ⟨fun e => by rw [e], fun e => ?_⟩
          exact List.singleton_inj.mp (List.append_cancel_left e)
      · obtain ⟨l, hi, hl⟩ := h.treeInfo hm hd hx
        refine ⟨l, by rw [hinfo he hx]; exact hi, fun x => ?_⟩
        rw [hl, Set.mem_insert_iff]
        refine ⟨.inr, fun hx => hx.resolve_left fun e => he ?_⟩
        exact (List.append_inj' e rfl).1
  · intro d hd
    obtain ⟨hm, hlen, hpe, hno⟩ := h.die hd
    refine ⟨.inr hm, hlen, hpe, fun x hx => ?_⟩
    rcases hx with he | hx
    · obtain ⟨rfl, -⟩ := List.append_inj' he rfl
      exact hD hd
    · exact hno x hx
  · intro d r hd hx
    have hm := (h.die hd).1
    have hx := hold (fun he => hnotT (he ▸ hm)) hx
    rw [hinfo (fun he => hD (he ▸ hd)) hx]
    exact h.dieInfo hd hx
  · intro q' r hn hx
    have hx := hold (fun he => hnotN (he ▸ hn)) hx
    rw [hinfo ?_ hx]
    · exact h.nodeInfo hn hx
    · -- a grid node is no tree router
      rintro rfl
      obtain ⟨d, hd, w, hw, rfl⟩ := hn
      obtain ⟨_, _, hpe, hno⟩ := h.die hd
      cases w with
      | nil =>
        have := hw.length_eq
        simp [Params.dieFans] at this
        omega
      | cons x w => exact hno x (h.mem_of_leading ⟨w, by simp⟩ hq)
  · rw [g.grid.1, g.next]
    exact Nat.le_succ_of_le h.grid
  · intro r
    rw [g.exit, h.exit]
    refine exists_congr fun d => and_congr_right fun hd => ?_
    rw [g.routerAt, if_neg fun he : d = q ++ [c] => hnotT (he ▸ (h.die hd).1)]

end Shape

end Pimid.Htree
