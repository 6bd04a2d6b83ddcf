import Pimid.Htree.Elements

/-!
# The grid of a die

A gridded die gets one node for every placement unit of its chip, keyed by the chip's
key and the node's coordinates, and a crossbar also a hub, which has no key. The die's
elements are put on the nodes of their own units.
-/

namespace Pimid.Htree

variable {P : Params}

/-! ## Nodes and coordinates -/

theorem gridFan_eq {d : Dims} {l : Nat} (h : l ≤ 2) : Build.gridFan d l = childFanout d (l + 1) := by
  match l, h with
  | 0, _ | 1, _ | 2, _ => exact (orOne_eq _).symm

theorem dieFans_eq (hpe : P.peLevel ≤ 2) :
    P.dieFans = ((List.range' P.peLevel (3 - P.peLevel)).map (Build.gridFan P.d)).reverse := by
  unfold Params.dieFans
  congr 1
  apply List.ext_getElem
  · simp
  · intro i h₁ h₂
    simp only [List.length_map, List.length_range'] at h₁
    simp only [List.getElem_map, List.getElem_range', Nat.one_mul]
    rw [gridFan_eq (by omega)]
    congr 1
    omega

theorem reverse_nodeCoords (d : Dims) (n lvl m : Nat)
    (h : m < (((List.range' lvl n).map (Build.gridFan d)).reverse).prod) :
    (Build.nodeCoords d n lvl m).reverse
      = digits ((List.range' lvl n).map (Build.gridFan d)).reverse m := by
  induction n generalizing lvl m with
  | zero => rfl
  | succ n ih =>
    simp only [List.range'_succ, List.map_cons, List.reverse_cons, List.prod_append, List.prod_singleton] at h ⊢
    have hlt := Nat.div_lt_of_lt_mul (by rwa [Nat.mul_comm] at h)
    rw [Build.nodeCoords, List.reverse_cons, ih _ _ hlt]
    cases hf : ((List.range' (lvl + 1) n).map (Build.gridFan d)).reverse with
    | nil =>
      rw [hf, List.prod_nil, Nat.one_mul] at h
      simp [digits, Nat.mod_eq_of_lt h]
    | cons f fs => rw [digits_snoc]

theorem ofDigits_snoc {fs ds : List Nat} (h : ds.length = fs.length) (f d : Nat) :
    ofDigits (fs ++ [f]) (ds ++ [d]) = ofDigits fs ds * f + d := by
  induction fs generalizing ds with
  | nil =>
    obtain rfl := List.eq_nil_of_length_eq_zero h
    simp [ofDigits]
  | cons g fs ih =>
    cases ds with
    | nil => simp at h
    | cons x ds =>
      have h : ds.length = fs.length := by simpa using h
      simp only [List.cons_append, ofDigits, ih h, List.prod_append, List.prod_singleton]
      rw [Nat.add_mul, Nat.mul_assoc, Nat.add_assoc]

/-- The elements' loop over the coordinates gives the node's number back. -/
theorem nodeIndex_eq (d : Dims) (lvl mult : Nat) (cs : List Nat) :
    Build.nodeIndex d lvl mult cs
      = mult * ofDigits ((List.range' lvl cs.length).map (Build.gridFan d)).reverse cs.reverse := by
  induction cs generalizing lvl mult with
  | nil => simp [Build.nodeIndex, ofDigits]
  | cons c cs ih =>
    rw [Build.nodeIndex, ih, List.length_cons, List.range'_succ, List.map_cons, List.reverse_cons,
      List.reverse_cons, ofDigits_snoc (by simp)]
    rw [Nat.mul_add, Nat.add_comm, Nat.mul_comm c, Nat.mul_assoc, Nat.mul_comm (Build.gridFan d lvl)]

/-! ## The nodes come in -/

variable {b : Build} {T D : Set (List Nat)} {d : List Nat}

/-- The state after nodes `n … n + k - 1` of the die at `d` came in. -/
structure NodesAdded (P : Params) (b b' : Build) (d : List Nat) (n k : Nat) (rs : List Nat) : Prop where
  routers : rs = List.range' b.nextRouter k
  next : b'.nextRouter = b.nextRouter + k
  node : ∀ {m}, n ≤ m → m < n + k → b'.t.routerAt (d ++ digits P.dieFans m) = some (b.nextRouter + (m - n))
  other : ∀ {s}, (∀ m, n ≤ m → m < n + k → s ≠ keyOf (d ++ digits P.dieFans m)) →
    b'.t.routerOf[s]? = b.t.routerOf[s]?
  info : ∀ r : Nat, b'.info[r]? = if b.nextRouter ≤ r ∧ r < b.nextRouter + k then some ⟨P.peLevel, ∅⟩ else b.info[r]?
  rest : b'.t = { b.t with routerOf := b'.t.routerOf, gridLinks := b'.t.gridLinks }

theorem addNode_key (hpe : P.peLevel ≤ 2) {n : Nat} (hn : n < P.dieFans.prod) :
    (Build.nodeCoords P.d (3 - P.peLevel) P.peLevel n).reverse.foldl SparseHTree.keyStep (keyOf d)
      = keyOf (d ++ digits P.dieFans n) := by
  rw [dieFans_eq hpe] at hn ⊢
  rw [reverse_nodeCoords _ _ _ _ hn, keyOf_append]

theorem addNodes_spec (hpe : P.peLevel ≤ 2) {n k : Nat} (hub : Option Nat) (li : Nat)
    (hk : n + k ≤ P.dieFans.prod) :
    NodesAdded P b (Build.addNodes P (keyOf d) hub li b n k).1 d n k (Build.addNodes P (keyOf d) hub li b n k).2 := by
  induction k generalizing b n with
  | zero =>
    refine ⟨rfl, rfl, fun h₁ h₂ => absurd h₂ (by omega), fun _ => rfl, fun r => ?_, rfl⟩
    rw [if_neg (by omega)]
    rfl
  | succ k ih =>
    have h := ih (b := b.addNode P (keyOf d) hub li n) (n := n + 1) (by omega)
    rw [Build.addNodes]
    generalize Build.addNodes P (keyOf d) hub li (b.addNode P (keyOf d) hub li n) (n + 1) k = s at h
    have hkey := addNode_key (d := d) hpe (n := n) (by omega)
    have hinj : ∀ {m}, m < P.dieFans.prod → keyOf (d ++ digits P.dieFans n) = keyOf (d ++ digits P.dieFans m) → n = m :=
      fun hm he => digits_inj (by omega) hm (List.append_cancel_left (keyOf_inj he))
    have hrouter : ∀ s, (b.addNode P (keyOf d) hub li n).t.routerOf[s]?
        = if s = keyOf (d ++ digits P.dieFans n) then some b.nextRouter else b.t.routerOf[s]? := by
      intro s
      rw [← hkey]
      exact getElem?_insert_eq _ _ _ _
    have hnext : (b.addNode P (keyOf d) hub li n).nextRouter = b.nextRouter + 1 := rfl
    refine ⟨?_, ?_, fun {m} h₁ h₂ => ?_, fun {s} hs => ?_, fun r => ?_, ?_⟩
    · rw [h.routers, hnext]
      rfl
    · rw [h.next, hnext]
      omega
    · by_cases he : m = n
      · subst he
        rw [SparseHTree.routerAt, h.other, hrouter, if_pos rfl, Nat.sub_self]
        · rfl
        · intro m' h' h'' hk
          have := hinj (by omega) hk
          omega
      · rw [h.node (by omega) (by omega), hnext]
        congr 1
        omega
    · rw [h.other fun m h₁ h₂ => hs m (by omega) (by omega), hrouter, if_neg (hs n (by omega) (by omega))]
    · rw [h.info, hnext]
      by_cases hr : r = b.nextRouter
      · rw [if_neg (by omega), if_pos (by omega), hr]
        exact getElem?_insert_same _ _ _
      · have hold : (b.addNode P (keyOf d) hub li n).info[r]? = b.info[r]? := getElem?_insert_other _ hr
        rw [hold]
        by_cases hin : b.nextRouter ≤ r ∧ r < b.nextRouter + (k + 1)
        · rw [if_pos hin, if_pos (by omega)]
        · rw [if_neg hin, if_neg (by omega)]
    · rw [h.rest]
      rfl

/-! ## Positions on the grid -/

theorem getD_resize (xs : List (Option Nat)) (n r : Nat) : (Build.resize xs n).getD r none = xs.getD r none := by
  unfold Build.resize
  rw [List.getD_eq_getElem?_getD, List.getD_eq_getElem?_getD]
  rcases Nat.lt_or_ge r xs.length with h | h
  · rw [List.getElem?_append_left h]
  · rw [List.getElem?_append_right h, List.getElem?_eq_none h, List.getElem?_replicate]
    split <;> rfl

theorem length_resize (xs : List (Option Nat)) (n : Nat) : (Build.resize xs n).length = max xs.length n := by
  simp [Build.resize]
  omega

theorem length_foldl_set (l : List (Nat × Nat)) (f : Nat → Option Nat) (xs : List (Option Nat)) :
    (l.foldl (fun xs rn => xs.set rn.1 (f rn.2)) xs).length = xs.length := by
  induction l generalizing xs with
  | nil => rfl
  | cons x l ih => rw [List.foldl_cons, ih, List.length_set]

theorem getD_set (xs : List (Option Nat)) {i : Nat} (hi : i < xs.length) (v : Option Nat) (r : Nat) :
    (xs.set i v).getD r none = if r = i then v else xs.getD r none := by
  rw [List.getD_eq_getElem?_getD, List.getD_eq_getElem?_getD, List.getElem?_set]
  by_cases h : i = r
  · rw [if_pos h, if_pos h.symm, if_pos hi]
    rfl
  · rw [if_neg h, if_neg (Ne.symm h)]

/-- The nodes' positions, written one after another. -/
theorem getD_place (f : Nat → Option Nat) (base k i : Nat) (xs : List (Option Nat)) (h : base + k ≤ xs.length)
    (r : Nat) :
    (((List.range' base k).zipIdx i).foldl (fun xs rn => xs.set rn.1 (f rn.2)) xs).getD r none
      = if base ≤ r ∧ r < base + k then f (i + (r - base)) else xs.getD r none := by
  induction k generalizing base i xs with
  | zero =>
    rw [if_neg (by omega)]
    rfl
  | succ k ih =>
    rw [List.range'_succ, List.zipIdx_cons, List.foldl_cons, ih _ _ _ (by rw [List.length_set]; omega)]
    by_cases hin : base + 1 ≤ r ∧ r < base + 1 + k
    · rw [if_pos hin, if_pos (by omega)]
      congr 1
      omega
    · rw [if_neg hin, getD_set _ (by omega)]
      by_cases hr : r = base
      · rw [if_pos hr, if_pos (by omega), hr, Nat.sub_self]
        rfl
      · rw [if_neg hr, if_neg (by omega)]

theorem length_placeNodes (xs : List (Option Nat)) (n : Nat) (rs : List Nat) (f : Nat → Option Nat) :
    (Build.placeNodes xs n rs f).length = max xs.length n := by
  rw [Build.placeNodes, length_foldl_set, length_resize]

theorem getD_placeNodes (xs : List (Option Nat)) {base k n : Nat} (h : base + k ≤ n) (f : Nat → Option Nat) (r : Nat) :
    (Build.placeNodes xs n (List.range' base k) f).getD r none
      = if base ≤ r ∧ r < base + k then f (r - base) else xs.getD r none := by
  have hlen : base + k ≤ (Build.resize xs n).length := by
    rw [length_resize]
    omega
  rw [Build.placeNodes, getD_place f base k 0 _ hlen, getD_resize, Nat.zero_add]

theorem foldl_insert_range (n : Nat) (s : Finset Nat) :
    (List.range n).foldl (fun s c => insert c s) s = s ∪ Finset.range n := by
  induction n with
  | zero => simp
  | succ n ih =>
    rw [List.range_succ, List.foldl_append, ih]
    ext x
    simp only [List.foldl_cons, List.foldl_nil, Finset.mem_insert, Finset.mem_union, Finset.mem_range,
      Nat.lt_succ_iff_lt_or_eq]
    tauto

/-! ## A whole die -/

/-- What the maps of `b'` hold after the die at `d` came in: its nodes from router
`base` on, and a hub before them if there is room. -/
structure DieAdded (P : Params) (b b' : Build) (d : List Nat) (chip base : Nat) : Prop where
  room : b.nextRouter ≤ base
  node : ∀ {v}, List.Forall₂ (· < ·) v P.dieFans → b'.t.routerAt (d ++ v) = some (base + ofDigits P.dieFans v)
  other : ∀ {s}, (∀ v, List.Forall₂ (· < ·) v P.dieFans → s ≠ keyOf (d ++ v)) →
    b'.t.routerOf[s]? = b.t.routerOf[s]?
  next : b'.nextRouter = base + P.dieFans.prod
  info : ∀ r : Nat, b'.info[r]? = if r = chip then some ⟨3, Finset.range (childFanout P.d 3)⟩
    else if b.nextRouter ≤ r ∧ r < b'.nextRouter then some ⟨P.peLevel, ∅⟩ else b.info[r]?
  hub : ∀ r, Build.isHub b'.t r = true ↔ Build.isHub b.t r = true ∨ (b.nextRouter ≤ r ∧ r < base)
  exit : ∀ r : Nat, b'.t.dieExitOf[r]? = if r = chip then some b.nextRouter else b.t.dieExitOf[r]?
  grid : b'.t.gridDie.length ≤ b'.nextRouter

/-- **A die extends the shape by its grid.** -/
theorem Shape.addDie {b' : Build} {chip base : Nat} (h : Shape P b T D) (hd : d ∈ T) (hD : d ∉ D)
    (hchip : b.t.routerAt d = some chip) (hlen : d.length + 3 = P.top) (hpe : P.peLevel ≤ 2)
    (hno : ∀ c, d ++ [c] ∉ T) (g : DieAdded P b b' d chip base) : Shape P b' T (insert d D) := by
  have hvl : ∀ {v}, List.Forall₂ (· < ·) v P.dieFans → v.length = 3 - P.peLevel := by
    intro v hv
    simpa [Params.dieFans] using hv.length_eq
  -- no node of the die was there before
  have hfree : ∀ {v}, List.Forall₂ (· < ·) v P.dieFans → d ++ v ∉ T ∧ ¬ DieNode P D (d ++ v) := by
    intro v hv
    have hl := hvl hv
    constructor
    · intro hm
      cases v with
      | nil => simp at hl; omega
      | cons c v => exact hno c (h.mem_of_leading ⟨v, by simp⟩ hm)
    · rintro ⟨d', hd', v', hv', he⟩
      have := (h.die hd').2.1
      obtain ⟨rfl, -⟩ := List.append_inj he (by omega)
      exact hD hd'
  have hold : ∀ {q}, (∀ v, List.Forall₂ (· < ·) v P.dieFans → q ≠ d ++ v) → b'.t.routerAt q = b.t.routerAt q := by
    intro q hq
    exact g.other fun v hv he => hq v hv (keyOf_inj he)
  have hmono : ∀ {q r}, b.t.routerAt q = some r → b'.t.routerAt q = some r := by
    intro q r hx
    rw [hold, hx]
    rintro v hv rfl
    rcases (h.live _).mp ⟨r, hx⟩ with hm | hm
    · exact (hfree hv).1 hm
    · exact (hfree hv).2 hm
  have hback : ∀ {q r}, b'.t.routerAt q = some r →
      b.t.routerAt q = some r ∨ ∃ v, List.Forall₂ (· < ·) v P.dieFans ∧ q = d ++ v
        ∧ r = base + ofDigits P.dieFans v := by
    intro q r hx
    by_cases hq : ∃ v, List.Forall₂ (· < ·) v P.dieFans ∧ q = d ++ v
    · obtain ⟨v, hv, rfl⟩ := hq
      rw [g.node hv] at hx
      exact .inr ⟨v, hv, rfl, (Option.some.inj hx).symm⟩
    · exact .inl ((hold fun v hv he => hq ⟨v, hv, he⟩).symm.trans hx)
  have hbase := g.room
  have hnext := g.next
  have hinfo : ∀ {q r}, q ≠ d → b.t.routerAt q = some r → b'.info[r]? = b.info[r]? := by
    intro q r hq hx
    have := h.lt hx
    rw [g.info, if_neg (by rintro rfl; exact hq (h.inj hx hchip)), if_neg (by omega)]
  have hnode : ∀ q, DieNode P (insert d D) q ↔
      (∃ v, List.Forall₂ (· < ·) v P.dieFans ∧ q = d ++ v) ∨ DieNode P D q := by
    intro q
    constructor
    · rintro ⟨d', rfl | hd', v, hv, rfl⟩
      · exact .inl ⟨v, hv, rfl⟩
      · exact .inr ⟨d', hd', v, hv, rfl⟩
    · rintro (⟨v, hv, rfl⟩ | ⟨d', hd', v, hv, rfl⟩)
      · exact ⟨d, .inl rfl, v, hv, rfl⟩
      · exact ⟨d', .inr hd', v, hv, rfl⟩
  refine
    { rootMem := h.rootMem
      root := hmono h.root
      keys := ?_
      live := ?_
      inj := ?_
      lt := ?_
      infoLt := ?_
      owner := ?_
      notHub := ?_
      closed := h.closed
      valid := h.valid
      treeInfo := ?_
      die := ?_
      dieInfo := ?_
      nodeInfo := ?_
      grid := g.grid
      exit := ?_ }
  · intro k r hk
    by_cases hs : ∃ v, List.Forall₂ (· < ·) v P.dieFans ∧ k = keyOf (d ++ v)
    · obtain ⟨v, _, rfl⟩ := hs
      exact ⟨_, rfl⟩
    · rw [g.other fun v hv he => hs ⟨v, hv, he⟩] at hk
      exact h.keys hk
  · intro q
    rw [hnode]
    constructor
    · rintro ⟨r, hx⟩
      rcases hback hx with hx | ⟨v, hv, rfl, _⟩
      · rcases (h.live q).mp ⟨r, hx⟩ with hm | hm
        · exact .inl hm
        · exact .inr (.inr hm)
      · exact .inr (.inl ⟨v, hv, rfl⟩)
    · rintro (hm | ⟨v, hv, rfl⟩ | hm)
      · obtain ⟨r, hx⟩ := (h.live q).mpr (.inl hm)
        exact ⟨r, hmono hx⟩
      · exact ⟨_, g.node hv⟩
      · obtain ⟨r, hx⟩ := (h.live q).mpr (.inr hm)
        exact ⟨r, hmono hx⟩
  · intro q q' r h₁ h₂
    rcases hback h₁ with h₁ | ⟨v, hv, rfl, hr⟩ <;> rcases hback h₂ with h₂ | ⟨v', hv', rfl, hr'⟩
    · exact h.inj h₁ h₂
    · have := h.lt h₁
      omega
    · have := h.lt h₂
      omega
    · have : ofDigits P.dieFans v = ofDigits P.dieFans v' := by omega
      rw [← digits_ofDigits hv, this, digits_ofDigits hv']
  · intro q r hx
    rcases hback hx with hx | ⟨v, hv, rfl, hr⟩
    · have := h.lt hx
      omega
    · have := ofDigits_lt hv
      omega
  · intro r nd hi
    rw [g.info] at hi
    split at hi
    next he =>
      have := h.lt hchip
      omega
    next =>
      split at hi
      next hr => exact hr.2
      next =>
        have := h.infoLt hi
        omega
  · intro r nd hi
    rw [g.info] at hi
    split at hi
    next he => exact .inl ⟨d, he ▸ hmono hchip⟩
    next =>
      split at hi
      next hr =>
        by_cases hb : r < base
        · exact .inr ⟨(g.hub r).mpr (.inr ⟨hr.1, hb⟩), (Option.some.inj hi).symm, hpe⟩
        · have hm : r - base < P.dieFans.prod := by omega
          refine .inl ⟨d ++ digits P.dieFans (r - base), ?_⟩
          rw [g.node (digits_lt hm), ofDigits_digits hm]
          congr 1
          omega
      next =>
        rcases h.owner hi with ⟨q, hq⟩ | ⟨hhub, hnd⟩
        · exact .inl ⟨q, hmono hq⟩
        · exact .inr ⟨(g.hub r).mpr (.inl hhub), hnd⟩
  · intro q r hx hh
    rcases hback hx with hx | ⟨v, hv, rfl, hr⟩
    · rcases (g.hub r).mp hh with hh | hh
      · exact h.notHub hx hh
      · have := h.lt hx
        omega
    · rcases (g.hub r).mp hh with hh | hh
      · refine Shape.isHub_fresh ?_ hh
        have := h.grid
        omega
      · omega
  · intro q r hq hqD hx
    simp only [Set.mem_insert_iff, not_or] at hqD
    rcases hback hx with hx | ⟨v, hv, rfl, _⟩
    · obtain ⟨live, hi, hl⟩ := h.treeInfo hq hqD.2 hx
      exact ⟨live, by rw [hinfo hqD.1 hx]; exact hi, hl⟩
    · exact absurd hq (hfree hv).1
  · rintro q (rfl | hq)
    · exact ⟨hd, hlen, hpe, hno⟩
    · exact h.die hq
  · rintro q r (rfl | hq) hx
    · obtain rfl := Option.some.inj ((hmono hchip).symm.trans hx)
      rw [g.info, if_pos rfl]
    · obtain ⟨r', hr'⟩ := h.routerAt_of_mem (h.die hq).1
      obtain rfl := Option.some.inj ((hmono hr').symm.trans hx)
      rw [hinfo (fun he => hD (he ▸ hq)) hr']
      exact h.dieInfo hq hr'
  · intro q r hn hx
    rcases (hnode q).mp hn with ⟨v, hv, rfl⟩ | hbefore
    · obtain rfl := Option.some.inj ((g.node hv).symm.trans hx)
      have := ofDigits_lt hv
      have := h.lt hchip
      rw [g.info, if_neg (by omega), if_pos (by omega)]
    · obtain ⟨r', hr'⟩ := (h.live q).mpr (.inr hbefore)
      obtain rfl := Option.some.inj ((hmono hr').symm.trans hx)
      rw [hinfo _ hr']
      · exact h.nodeInfo hbefore hr'
      · rintro rfl
        obtain ⟨d', hd', v, hv, he⟩ := hbefore
        have hl := hvl hv
        have := (h.die hd').2.1
        rw [he, List.length_append] at hlen
        omega
  · intro r
    have hexit : b'.t.dieExitOf.contains r = true ↔ b.t.dieExitOf.contains r = true ∨ r = chip := by
      rw [contains_eq_true_iff, contains_eq_true_iff, g.exit]
      by_cases hr : r = chip
      · simp [hr]
      · simp [hr]
    rw [hexit, h.exit]
    constructor
    · rintro (⟨d', hd', hx⟩ | rfl)
      · exact ⟨d', .inr hd', hmono hx⟩
      · exact ⟨d, .inl rfl, hmono hchip⟩
    · rintro ⟨d', rfl | hd', hx⟩
      · exact .inr (Option.some.inj (hx.symm.trans (hmono hchip)))
      · obtain ⟨r', hr'⟩ := h.routerAt_of_mem (h.die hd').1
        obtain rfl := Option.some.inj ((hmono hr').symm.trans hx)
        exact .inl ⟨d', hd', hr'⟩

/-! ## The builder's die -/

theorem keyOfRouter_eq (h : Shape P b T D) {chip : Nat} (hchip : b.t.routerAt d = some chip) :
    b.keyOfRouter chip = keyOf d := by
  have hmem : (keyOf d, chip) ∈ b.t.routerOf.toList :=
    Std.TreeMap.mem_toList_iff_getElem?_eq_some.mpr hchip
  unfold Build.keyOfRouter
  cases hf : b.t.routerOf.toList.find? fun rk => rk.2 = chip with
  | none =>
    have := List.find?_eq_none.mp hf _ hmem
    simp at this
  | some rk =>
    have hv : rk.2 = chip := by simpa using List.find?_some hf
    have hk := Std.TreeMap.mem_toList_iff_getElem?_eq_some.mp (List.mem_of_find?_eq_some hf)
    obtain ⟨q, hq⟩ := h.keys hk
    rw [hq, hv] at hk
    show rk.1 = keyOf d
    rw [hq, h.inj hk hchip]

/-- Attaching elements to nodes touches the leaves and the endpoint links only. -/
theorem foldl_attachNode_rest (rs : List Nat) (pes : List (Nat × List Nat)) (b : Build) :
    (pes.foldl (Build.attachNode P rs) b).t
        = { b.t with
            peOfLeaf := (pes.foldl (Build.attachNode P rs) b).t.peOfLeaf
            extLinks := (pes.foldl (Build.attachNode P rs) b).t.extLinks }
      ∧ (pes.foldl (Build.attachNode P rs) b).nextRouter = b.nextRouter
      ∧ (pes.foldl (Build.attachNode P rs) b).info = b.info := by
  induction pes generalizing b with
  | nil => exact ⟨rfl, rfl, rfl⟩
  | cons x pes ih =>
    obtain ⟨h₁, h₂, h₃⟩ := ih (Build.attachNode P rs b x)
    exact ⟨h₁, h₂, h₃⟩

/-- The hub's router, where the fabric has one. -/
def hubOf (b : Build) : Option Nat := if b.t.fabricKind = .crossbar then some b.nextRouter else none

/-- The router of a die's first node. -/
def baseOf (b : Build) : Nat := if b.t.fabricKind = .crossbar then b.nextRouter + 1 else b.nextRouter

theorem hubOf_eq_some {r : Nat} : hubOf b = some r ↔ b.nextRouter ≤ r ∧ r < baseOf b := by
  unfold hubOf baseOf
  split
  · rw [Option.some.injEq]
    omega
  · simp only [reduceCtorEq, false_iff]
    omega

/-- The state in which a die's nodes come in. -/
def hubbed (P : Params) (b : Build) (chip : Nat) : Build :=
  if b.t.fabricKind = .crossbar then b.addHub P chip (layerForLevel P.peLevel P.chanLevel) else b

theorem hubbed_next (b : Build) (chip : Nat) : (hubbed P b chip).nextRouter = baseOf b := by
  unfold hubbed baseOf
  split <;> rfl

theorem hubbed_info (b : Build) (chip r : Nat) :
    (hubbed P b chip).info[r]? = if hubOf b = some r then some ⟨P.peLevel, ∅⟩ else b.info[r]? := by
  unfold hubbed hubOf
  split
  · rw [show (b.addHub P chip (layerForLevel P.peLevel P.chanLevel)).info
      = b.info.insert b.nextRouter ⟨P.peLevel, ∅⟩ from rfl, getElem?_insert_eq]
    by_cases hr : r = b.nextRouter
    · rw [if_pos hr, if_pos (congrArg some hr.symm)]
    · rw [if_neg hr, if_neg fun he => hr (Option.some.inj he).symm]
  · rw [if_neg (by simp)]

theorem hubbed_rest (b : Build) (chip : Nat) :
    (hubbed P b chip).t = { b.t with
      intLinks := (hubbed P b chip).t.intLinks, dieExitOf := (hubbed P b chip).t.dieExitOf } := by
  unfold hubbed
  split <;> rfl

theorem getD_setHub {xs : List (Option Nat)} {hub : Option Nat} (v : Option Nat) (r : Nat)
    (hh : ∀ h, hub = some h → h < xs.length) :
    (Build.setHub xs hub v).getD r none = if hub = some r then v else xs.getD r none := by
  cases hub with
  | none =>
    rw [if_neg (by simp)]
    rfl
  | some h =>
    show (xs.set h v).getD r none = _
    rw [getD_set _ (hh h rfl)]
    by_cases hr : r = h
    · rw [if_pos hr, if_pos (congrArg some hr.symm)]
    · rw [if_neg hr, if_neg fun he => hr (Option.some.inj he).symm]

/-- The state with the die's nodes, and their routers. -/
def gridNodes (P : Params) (b : Build) (chip : Nat) : Build × List Nat :=
  Build.addNodes P (b.keyOfRouter chip) (hubOf b) (layerForLevel P.peLevel P.chanLevel) (hubbed P b chip) 0
    (b.t.gridW * b.t.gridH)

theorem buildDie_eq (b : Build) (chip : Nat) (pes : List (Nat × List Nat)) :
    Build.buildDie P b chip pes
      = pes.foldl (Build.attachNode P (gridNodes P b chip).2)
          ((gridNodes P b chip).1.wireDie P chip (layerForLevel P.peLevel P.chanLevel) (hubOf b) (gridNodes P b chip).2) := by
  have hg : (hubbed P b chip).t.gridW * (hubbed P b chip).t.gridH = b.t.gridW * b.t.gridH := by
    rw [hubbed_rest]
  unfold gridNodes
  rw [← hg]
  rfl

section Wire

variable {chip li base k : Nat} {hub : Option Nat}

theorem wireDie_gridDie (hnext : b.nextRouter = base + k)
    (hh : ∀ h, hub = some h → h < b.nextRouter) (r : Nat) :
    (b.wireDie P chip li hub (List.range' base k)).t.gridDie.getD r none
      = if hub = some r then some chip
        else if base ≤ r ∧ r < base + k then some chip else b.t.gridDie.getD r none := by
  show (Build.setHub (Build.placeNodes b.t.gridDie b.nextRouter (List.range' base k) fun _ => some chip)
    hub (some chip)).getD r none = _
  rw [getD_setHub, getD_placeNodes _ (by omega)]
  intro h he
  have := hh h he
  rw [length_placeNodes]
  omega

theorem wireDie_gridX (hnext : b.nextRouter = base + k)
    (hh : ∀ h, hub = some h → h < b.nextRouter) (r : Nat) :
    (b.wireDie P chip li hub (List.range' base k)).t.gridX.getD r none
      = if hub = some r then none
        else if base ≤ r ∧ r < base + k then some ((r - base) % b.t.gridW) else b.t.gridX.getD r none := by
  show (Build.setHub (Build.placeNodes b.t.gridX b.nextRouter (List.range' base k)
    fun n => some (n % b.t.gridW)) hub none).getD r none = _
  rw [getD_setHub, getD_placeNodes _ (by omega)]
  intro h he
  have := hh h he
  rw [length_placeNodes]
  omega

theorem wireDie_length (hub : Option Nat) (hgrid : b.t.gridDie.length ≤ b.nextRouter) (rs : List Nat) :
    (b.wireDie P chip li hub rs).t.gridDie.length = b.nextRouter := by
  show (Build.setHub (Build.placeNodes b.t.gridDie b.nextRouter rs fun _ => some chip) hub (some chip)).length = _
  have hlen : (Build.placeNodes b.t.gridDie b.nextRouter rs fun _ => some chip).length = b.nextRouter := by
    rw [length_placeNodes]
    omega
  cases hub with
  | none => exact hlen
  | some h => exact List.length_set.trans hlen

theorem wireDie_isHub (hnext : b.nextRouter = base + k) (hgrid : b.t.gridDie.length ≤ base)
    (hh : ∀ h, hub = some h → h < base) (r : Nat) :
    Build.isHub (b.wireDie P chip li hub (List.range' base k)).t r = true
      ↔ Build.isHub b.t r = true ∨ hub = some r := by
  have hh' : ∀ h, hub = some h → h < b.nextRouter := fun h he => by
    have := hh h he
    omega
  simp only [Build.isHub, decide_eq_true_eq, wireDie_gridDie hnext hh', wireDie_gridX hnext hh',
    wireDie_length hub (by omega : b.t.gridDie.length ≤ b.nextRouter)]
  by_cases hr : hub = some r
  · have := hh r hr
    rw [if_pos hr, if_pos hr]
    exact iff_of_true ⟨rfl, by omega, rfl⟩ (.inr hr)
  rw [if_neg hr, if_neg hr, or_iff_left hr]
  by_cases hin : base ≤ r ∧ r < base + k
  · rw [if_pos hin, if_pos hin]
    exact iff_of_false (fun h => absurd h.2.2 (by simp)) (by omega)
  · rw [if_neg hin, if_neg hin]
    constructor
    · rintro ⟨h₁, _, h₃⟩
      refine ⟨h₁, ?_, h₃⟩
      by_contra hge
      rw [List.getD_eq_getElem?_getD, List.getElem?_eq_none (by omega)] at h₁
      exact absurd h₁ (by simp)
    · rintro ⟨h₁, h₂, h₃⟩
      exact ⟨h₁, by omega, h₃⟩

end Wire

theorem buildDie_rest (b : Build) (chip : Nat) (pes : List (Nat × List Nat))
    (hn : NodesAdded P (hubbed P b chip) (gridNodes P b chip).1 d 0 (b.t.gridW * b.t.gridH) (gridNodes P b chip).2) :
    (Build.buildDie P b chip pes).t = { b.t with
      routerOf := (Build.buildDie P b chip pes).t.routerOf
      intLinks := (Build.buildDie P b chip pes).t.intLinks
      extLinks := (Build.buildDie P b chip pes).t.extLinks
      peOfLeaf := (Build.buildDie P b chip pes).t.peOfLeaf
      gridLinks := (Build.buildDie P b chip pes).t.gridLinks
      gridX := (Build.buildDie P b chip pes).t.gridX
      gridY := (Build.buildDie P b chip pes).t.gridY
      gridDie := (Build.buildDie P b chip pes).t.gridDie
      dieExitOf := (Build.buildDie P b chip pes).t.dieExitOf
      gridRouters := (Build.buildDie P b chip pes).t.gridRouters } := by
  rw [buildDie_eq, (foldl_attachNode_rest _ _ _).1]
  generalize gridNodes P b chip = s at hn ⊢
  unfold Build.wireDie
  rw [hn.rest, hubbed_rest]

theorem buildDie_nodes (h : Shape P b T D) {chip : Nat} (hchip : b.t.routerAt d = some chip)
    (hpe : P.peLevel ≤ 2) (hnodes : b.t.gridW * b.t.gridH = P.dieFans.prod) :
    NodesAdded P (hubbed P b chip) (gridNodes P b chip).1 d 0 (b.t.gridW * b.t.gridH) (gridNodes P b chip).2 := by
  unfold gridNodes
  rw [keyOfRouter_eq h hchip]
  exact addNodes_spec hpe _ _ (by omega)

/-- **The builder's die is a die.** -/
theorem buildDie_added (h : Shape P b T D) {chip : Nat} (hd : d ∈ T) (hD : d ∉ D)
    (hchip : b.t.routerAt d = some chip) (hlen : d.length + 3 = P.top) (hpe : P.peLevel ≤ 2)
    (hno : ∀ c, d ++ [c] ∉ T) (hnodes : b.t.gridW * b.t.gridH = P.dieFans.prod) (pes : List (Nat × List Nat)) :
    DieAdded P b (Build.buildDie P b chip pes) d chip (baseOf b) := by
  have hn := buildDie_nodes h hchip hpe hnodes
  rw [buildDie_eq]
  obtain ⟨hrest, hnext, hinfo⟩ := foldl_attachNode_rest (P := P)
    (gridNodes P b chip).2 pes
    ((gridNodes P b chip).1.wireDie P chip (layerForLevel P.peLevel P.chanLevel) (hubOf b) (gridNodes P b chip).2)
  generalize hb' : pes.foldl _ _ = b' at hrest hnext hinfo ⊢
  generalize gridNodes P b chip = s at hn hrest hnext hinfo hb'
  obtain ⟨b₂, rs⟩ := s
  dsimp only at hn hrest hnext hinfo
  have hbase := hubbed_next (P := P) b chip
  have hroom : b.nextRouter ≤ baseOf b := by
    unfold baseOf
    split <;> omega
  have hrs := hn.routers
  have hnx := hn.next
  rw [hbase, hnodes] at hrs hnx
  have hgrid₂ : b₂.t.gridDie = b.t.gridDie ∧ b₂.t.gridX = b.t.gridX := by
    rw [hn.rest, hubbed_rest]
    exact ⟨rfl, rfl⟩
  have hlevel : b₂.node chip = ⟨3, ∅⟩ := by
    obtain ⟨live, hi, hlive⟩ := h.treeInfo hd hD hchip
    have hl : live = ∅ := Finset.eq_empty_of_forall_notMem fun c hc => hno c ((hlive c).mp hc)
    have hlt := h.lt hchip
    have h₂ : b₂.info[chip]? = b.info[chip]? := by
      rw [hn.info, if_neg (by omega), hubbed_info, if_neg]
      intro he
      have := hubOf_eq_some.mp he
      omega
    rw [hi, hl] at h₂
    rw [Shape.node_eq h₂]
    congr 1
    omega
  have hisHub : ∀ r, Build.isHub b'.t r = true ↔ Build.isHub b.t r = true ∨ hubOf b = some r := by
    intro r
    rw [hrest, hrs, ← Shape.isHub_congr hgrid₂.1 hgrid₂.2]
    show Build.isHub (b₂.wireDie P chip (layerForLevel P.peLevel P.chanLevel) (hubOf b)
      (List.range' (baseOf b) P.dieFans.prod)).t r = true ↔ _
    refine wireDie_isHub hnx ?_ ?_ r
    · rw [hgrid₂.1]
      exact Nat.le_trans h.grid hroom
    · intro x hx
      exact (hubOf_eq_some.mp hx).2
  refine
    { room := hroom
      node := fun {v} hv => ?_
      other := fun {s} hs => ?_
      next := ?_
      info := fun r => ?_
      hub := fun r => by rw [hisHub, hubOf_eq_some]
      exit := fun r => ?_
      grid := ?_ }
  · have hlt := ofDigits_lt hv
    have := hn.node (m := ofDigits P.dieFans v) (Nat.zero_le _) (by omega)
    rw [digits_ofDigits hv, hbase, Nat.sub_zero] at this
    rw [SparseHTree.routerAt, hrest]
    exact this
  · have hk := hn.other (s := s) fun m _ hm => hs _ (digits_lt (by omega))
    rw [hrest]
    refine hk.trans ?_
    rw [hubbed_rest]
  · rw [hnext]
    exact hnx
  · rw [hinfo, hnext]
    show (b₂.info.insert chip ⟨(b₂.node chip).level, _⟩)[r]? = _
    rw [getElem?_insert_eq, hlevel, foldl_insert_range, Finset.empty_union]
    by_cases hr : r = chip
    · rw [if_pos hr, if_pos hr]
    · rw [if_neg hr, if_neg hr, hn.info, hbase, hnodes, hubbed_info, show
        (b₂.wireDie P chip (layerForLevel P.peLevel P.chanLevel) (hubOf b) rs).nextRouter = b₂.nextRouter from rfl, hnx]
      by_cases h₁ : baseOf b ≤ r ∧ r < baseOf b + P.dieFans.prod
      · rw [if_pos h₁, if_pos (by omega)]
      · rw [if_neg h₁]
        by_cases h₂ : hubOf b = some r
        · have := hubOf_eq_some.mp h₂
          rw [if_pos h₂, if_pos (by omega)]
        · have : ¬ (b.nextRouter ≤ r ∧ r < baseOf b) := fun hx => h₂ (hubOf_eq_some.mpr hx)
          rw [if_neg h₂, if_neg (by omega)]
  · have hk : b₂.t.fabricKind = b.t.fabricKind ∧ b₂.t.dieExitOf = (hubbed P b chip).t.dieExitOf := by
      rw [hn.rest, hubbed_rest]
      exact ⟨rfl, rfl⟩
    rw [hrest]
    show (if b₂.t.fabricKind ≠ .crossbar then b₂.t.dieExitOf.insert chip (rs.getD 0 0) else b₂.t.dieExitOf)[r]? = _
    rw [hk.1, hk.2]
    unfold hubbed
    by_cases hc : b.t.fabricKind = .crossbar
    · rw [if_neg (not_not_intro hc), if_pos hc]
      exact getElem?_insert_eq _ _ _ _
    · -- the exit is the first node
      have hfirst : rs.getD 0 0 = b.nextRouter := by
        have hpos : 0 < P.dieFans.prod := by
          refine List.prod_pos_iff_forall_pos_nat.mpr fun f hf => ?_
          simp only [Params.dieFans, List.mem_reverse, List.mem_map] at hf
          obtain ⟨l, _, rfl⟩ := hf
          exact childFanout_pos _ _
        rw [hrs, List.getD_eq_getElem?_getD, List.getElem?_range' hpos]
        unfold baseOf
        rw [if_neg hc]
        simp
      rw [if_pos hc, if_neg hc, hfirst]
      exact getElem?_insert_eq _ _ _ _
  · have hg : b₂.t.gridDie.length ≤ b₂.nextRouter := by
      rw [hgrid₂.1, hnx]
      exact Nat.le_trans h.grid (by omega)
    rw [hnext, hrest]
    show (b₂.wireDie P chip (layerForLevel P.peLevel P.chanLevel) (hubOf b) rs).t.gridDie.length ≤ b₂.nextRouter
    exact (wireDie_length _ hg rs).le

end Pimid.Htree
