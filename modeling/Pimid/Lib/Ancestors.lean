import Pimid.Lib.Search

/-!
# The way through a rooted tree

Parents and depths. The way from `a` to `b` goes up from both, the deeper one first,
until the two meet. Every common ancestor lies above the meeting point, and every walk
over the edges of the tree passes a common ancestor, so no walk is shorter.
-/

namespace Pimid

variable {V : Type}

/-- The vertices of `mem` hang below `root`, each one deeper than its parent. -/
structure Rooted (parent : V → Option V) (depth : V → Nat) (mem : V → Prop) (root : V) : Prop where
  depth_root : depth root = 0
  depth_parent : ∀ v u, parent v = some u → depth v = depth u + 1
  mem_parent : ∀ v u, mem v → parent v = some u → mem u
  has_parent : ∀ v, mem v → v ≠ root → ∃ u, parent v = some u

namespace Rooted

/-- Up from `a` while it is deeper than `d`: what was left behind, and where it ends. -/
def raise (parent : V → Option V) (depth : V → Nat) (d : Nat) : Nat → V → Option (List V × V)
  | 0, _ => none
  | fuel + 1, a =>
    if d < depth a then do
      let p ← parent a
      let (out, c) ← raise parent depth d fuel p
      some (a :: out, c)
    else some ([], a)

/-- Up from both until they are one. -/
def join [DecidableEq V] (parent : V → Option V) : Nat → V → V → Option (List V × List V × V)
  | 0, _, _ => none
  | fuel + 1, a, b =>
    if a = b then some ([], [], a)
    else do
      let p ← parent a
      let q ← parent b
      let (out, down, c) ← join parent fuel p q
      some (a :: out, b :: down, c)

/-- The vertices from `a` to `b`. -/
def between [DecidableEq V] (parent : V → Option V) (depth : V → Nat) (fuel : Nat) (a b : V) : Option (List V) := do
  let (out, a) ← raise parent depth (depth b) fuel a
  let (down, b) ← raise parent depth (depth a) fuel b
  let (out', down', c) ← join parent fuel a b
  some (out ++ out' ++ [c] ++ (down ++ down').reverse)

/-- `x` is `a` or above it. -/
def Above (parent : V → Option V) (a x : V) : Prop :=
  Relation.ReflTransGen (fun v u => parent v = some u) a x

section

variable {parent : V → Option V} {depth : V → Nat} {mem : V → Prop} {root : V} {a b c x : V} {d fuel : Nat}

theorem Above.refl (a : V) : Above parent a a :=
  Relation.ReflTransGen.refl

theorem Above.head {p : V} (hp : parent a = some p) (h : Above parent p x) : Above parent a x :=
  Relation.ReflTransGen.head hp h

theorem Above.cases (h : Above parent a x) : a = x ∨ ∃ p, parent a = some p ∧ Above parent p x :=
  Relation.ReflTransGen.cases_head h

theorem above_depth (h : Rooted parent depth mem root) (ha : Above parent a x) : a = x ∨ depth x < depth a := by
  induction ha using Relation.ReflTransGen.head_induction_on with
  | refl => exact .inl rfl
  | head hp _ ih =>
    have := h.depth_parent _ _ hp
    rcases ih with rfl | ih <;> exact .inr (by omega)

/-! ## Where the ways meet -/

theorem raise_spec (h : Rooted parent depth mem root) {out : List V} (hr : raise parent depth d fuel a = some (out, c))
    (ha : mem a) : mem c ∧ (∀ v ∈ out, mem v) ∧ Above parent a c ∧ depth a = depth c + out.length ∧ (d ≤ depth a → depth c = d) ∧
      (depth a ≤ d → c = a) ∧ ∀ y, Above parent a y → depth y ≤ d → Above parent c y := by
  induction fuel generalizing a out with
  | zero => exact absurd hr (by simp [raise])
  | succ fuel ih =>
    unfold raise at hr
    split at hr
    next hd =>
      simp only [Option.bind_eq_bind, Option.bind_eq_some_iff, Option.some.injEq] at hr
      obtain ⟨p, hp, ⟨out', c'⟩, hr', heq⟩ := hr
      dsimp only at heq
      obtain ⟨rfl, rfl⟩ := Prod.mk.inj heq
      have hdp := h.depth_parent _ _ hp
      obtain ⟨hc, hout, habove, hlen, hto, hstay, hpass⟩ := ih hr' (h.mem_parent _ _ ha hp)
      refine ⟨hc, fun v hv => ?_, habove.head hp, by rw [List.length_cons]; omega, fun _ => hto (by omega),
        fun hle => absurd hle (by omega), fun y hy hyd => ?_⟩
      · rcases List.mem_cons.mp hv with rfl | hv
        · exact ha
        · exact hout v hv
      · rcases hy.cases with rfl | ⟨p', hp', hy'⟩
        · omega
        · rw [hp] at hp'
          exact hpass y (Option.some.inj hp' ▸ hy') hyd
    next hd =>
      obtain ⟨rfl, rfl⟩ := Prod.mk.inj (Option.some.inj hr)
      exact ⟨ha, nofun, .refl a, rfl, fun _ => by omega, fun _ => rfl, fun _ hy _ => hy⟩

theorem raise_isSome (h : Rooted parent depth mem root) (ha : mem a) (hfuel : depth a < fuel) :
    ∃ out c, raise parent depth d fuel a = some (out, c) := by
  induction fuel generalizing a with
  | zero => omega
  | succ fuel ih =>
    unfold raise
    split
    next hd =>
      obtain ⟨p, hp⟩ := h.has_parent a ha fun hroot => by rw [hroot, h.depth_root] at hd; omega
      have hdp := h.depth_parent _ _ hp
      obtain ⟨out, c, hr⟩ := ih (h.mem_parent _ _ ha hp) (by omega)
      exact ⟨a :: out, c, by simp [hp, hr]⟩
    next => exact ⟨[], a, rfl⟩

variable [DecidableEq V]

/-- From one depth, `join` meets at the lowest common ancestor. -/
theorem join_spec (h : Rooted parent depth mem root) {out down : List V}
    (hj : join parent fuel a b = some (out, down, c)) (ha : mem a) (hb : mem b) (hd : depth a = depth b) :
    mem c ∧ (∀ v ∈ out, mem v) ∧ (∀ v ∈ down, mem v) ∧ Above parent a c ∧ Above parent b c ∧
      depth a = depth c + out.length ∧ depth b = depth c + down.length ∧
      ∀ y, Above parent a y → Above parent b y → Above parent c y := by
  induction fuel generalizing a b out down with
  | zero => exact absurd hj (by simp [join])
  | succ fuel ih =>
    unfold join at hj
    split at hj
    next hab =>
      obtain ⟨rfl, heq⟩ := Prod.mk.inj (Option.some.inj hj)
      obtain ⟨rfl, rfl⟩ := Prod.mk.inj heq
      subst hab
      exact ⟨ha, nofun, nofun, .refl a, .refl a, rfl, rfl, fun _ hy _ => hy⟩
    next hab =>
      simp only [Option.bind_eq_bind, Option.bind_eq_some_iff, Option.some.injEq] at hj
      obtain ⟨p, hp, q, hq, ⟨out', down', c'⟩, hj', heq⟩ := hj
      simp only [Prod.mk.injEq] at heq
      obtain ⟨rfl, rfl, rfl⟩ := heq
      have hdp := h.depth_parent _ _ hp
      have hdq := h.depth_parent _ _ hq
      obtain ⟨hc, hout, hdown, hac, hbc, hlen, hlen', hpass⟩ :=
        ih hj' (h.mem_parent _ _ ha hp) (h.mem_parent _ _ hb hq) (by omega)
      refine ⟨hc, fun v hv => ?_, fun v hv => ?_, hac.head hp, hbc.head hq, by rw [List.length_cons]; omega,
        by rw [List.length_cons]; omega, fun y hay hby => ?_⟩
      · rcases List.mem_cons.mp hv with rfl | hv
        · exact ha
        · exact hout v hv
      · rcases List.mem_cons.mp hv with rfl | hv
        · exact hb
        · exact hdown v hv
      · -- a common ancestor of two vertices of one depth is neither of them
        have hay' : a ≠ y := by
          rintro rfl
          rcases above_depth h hby with heq | hlt
          · exact hab heq.symm
          · omega
        have hby' : b ≠ y := by
          rintro rfl
          rcases above_depth h hay with heq | hlt
          · exact hab heq
          · omega
        obtain ⟨p', hp', hpy⟩ := hay.cases.resolve_left hay'
        obtain ⟨q', hq', hqy⟩ := hby.cases.resolve_left hby'
        rw [hp] at hp'
        rw [hq] at hq'
        exact hpass y (Option.some.inj hp' ▸ hpy) (Option.some.inj hq' ▸ hqy)

theorem join_isSome (h : Rooted parent depth mem root) (ha : mem a) (hb : mem b) (hd : depth a = depth b)
    (hfuel : depth a < fuel) : ∃ out down c, join parent fuel a b = some (out, down, c) := by
  induction fuel generalizing a b with
  | zero => omega
  | succ fuel ih =>
    unfold join
    split
    next => exact ⟨[], [], a, rfl⟩
    next hab =>
      -- the root is the only vertex of its depth
      have hroot : ∀ v w, mem w → v ≠ w → depth v = depth w → v ≠ root := by
        rintro v w hw hne hvw rfl
        obtain ⟨u, hu⟩ := h.has_parent w hw fun hwr => hne hwr.symm
        have := h.depth_parent _ _ hu
        have := h.depth_root
        omega
      obtain ⟨p, hp⟩ := h.has_parent a ha (hroot a b hb hab hd)
      obtain ⟨q, hq⟩ := h.has_parent b hb (hroot b a ha (fun heq => hab heq.symm) hd.symm)
      have hdp := h.depth_parent _ _ hp
      have hdq := h.depth_parent _ _ hq
      obtain ⟨out, down, c, hj⟩ := ih (h.mem_parent _ _ ha hp) (h.mem_parent _ _ hb hq) (by omega) (by omega)
      exact ⟨a :: out, b :: down, c, by simp [hp, hq, hj]⟩

/-- **The way between two vertices** goes over their lowest common ancestor. -/
theorem between_spec (h : Rooted parent depth mem root) (ha : mem a) (hb : mem b) (hfa : depth a < fuel)
    (hfb : depth b < fuel) :
    ∃ path c, between parent depth fuel a b = some path ∧ (∀ v ∈ path, mem v) ∧ Above parent a c ∧ Above parent b c ∧
      path.length + 2 * depth c = depth a + depth b + 1 ∧
      ∀ y, Above parent a y → Above parent b y → Above parent c y := by
  obtain ⟨out, a', hra⟩ := raise_isSome (d := depth b) h ha hfa
  obtain ⟨hma, hout, haa, hla, htoa, hstaya, hpassa⟩ := raise_spec h hra ha
  obtain ⟨down, b', hrb⟩ := raise_isSome (d := depth a') h hb hfb
  obtain ⟨hmb, hdown, hbb, hlb, htob, hstayb, hpassb⟩ := raise_spec h hrb hb
  have hd : depth a' = depth b' := by
    by_cases hle : depth b ≤ depth a
    · rw [hstayb (by rw [htoa hle])]
      exact htoa hle
    · rw [hstaya (by omega)] at htob ⊢
      exact (htob (by omega)).symm
  obtain ⟨out', down', c, hj⟩ := join_isSome h hma hmb hd (show depth a' < fuel by omega)
  obtain ⟨hmc, hout', hdown', hac, hbc, hlen, hlen', hpass⟩ := join_spec h hj hma hmb hd
  refine ⟨out ++ out' ++ [c] ++ (down ++ down').reverse, c, ?_, fun v hv => ?_, haa.trans hac, hbb.trans hbc, ?_,
    fun y hay hby => ?_⟩
  · simp only [between, Option.bind_eq_bind, hra, hrb, hj, Option.bind_some]
  · simp only [List.mem_append, List.mem_reverse, List.mem_singleton] at hv
    rcases hv with ((hv | hv) | rfl) | hv | hv
    · exact hout v hv
    · exact hout' v hv
    · exact hmc
    · exact hdown v hv
    · exact hdown' v hv
  · simp only [List.length_append, List.length_reverse, List.length_singleton]
    omega
  · have hya := above_depth h hay
    have hyb := above_depth h hby
    have hyb' : depth y ≤ depth b := by
      rcases hyb with rfl | hlt <;> omega
    have hya' : depth y ≤ depth a := by
      rcases hya with rfl | hlt <;> omega
    have hc := hpassa y hay hyb'
    have hda' : depth y ≤ depth a' := by
      rcases above_depth h hc with rfl | hlt <;> omega
    exact hpass y hc (hpassb y hby hda')

/-! ## The way, link by link -/

/-- One is the other's parent. -/
def Near (parent : V → Option V) (v u : V) : Prop :=
  parent v = some u ∨ parent u = some v

omit [DecidableEq V] in
theorem Near.symm {v u : V} (h : Near parent v u) : Near parent u v :=
  Or.symm h

omit [DecidableEq V] in
/-- A chain up from `a`, and the way on from where it ends. -/
theorem raise_chain {out : List V} (hr : raise parent depth d fuel a = some (out, c)) :
    (out ++ [c]).IsChain (Near parent) ∧ (out ++ [c]).head? = some a := by
  induction fuel generalizing a out with
  | zero => exact absurd hr (by simp [raise])
  | succ fuel ih =>
    unfold raise at hr
    split at hr
    next =>
      simp only [Option.bind_eq_bind, Option.bind_eq_some_iff, Option.some.injEq] at hr
      obtain ⟨p, hp, ⟨out', c'⟩, hr', heq⟩ := hr
      dsimp only at heq
      obtain ⟨rfl, rfl⟩ := Prod.mk.inj heq
      obtain ⟨hchain, hhead⟩ := ih hr'
      refine ⟨List.isChain_cons.mpr ⟨fun y hy => ?_, hchain⟩, rfl⟩
      have hy : (out' ++ [c']).head? = some y := hy
      rw [hhead] at hy
      exact .inl (Option.some.inj hy ▸ hp)
    next =>
      obtain ⟨rfl, rfl⟩ := Prod.mk.inj (Option.some.inj hr)
      exact ⟨List.isChain_singleton _, rfl⟩

theorem join_chain {out down : List V} (hj : join parent fuel a b = some (out, down, c)) :
    (out ++ [c] ++ down.reverse).IsChain (Near parent) ∧ (out ++ [c] ++ down.reverse).head? = some a ∧
      (out ++ [c] ++ down.reverse).getLast? = some b := by
  induction fuel generalizing a b out down with
  | zero => exact absurd hj (by simp [join])
  | succ fuel ih =>
    unfold join at hj
    split at hj
    next hab =>
      obtain ⟨rfl, heq⟩ := Prod.mk.inj (Option.some.inj hj)
      obtain ⟨rfl, rfl⟩ := Prod.mk.inj heq
      exact ⟨List.isChain_singleton _, rfl, congrArg some hab⟩
    next =>
      simp only [Option.bind_eq_bind, Option.bind_eq_some_iff, Option.some.injEq] at hj
      obtain ⟨p, hp, q, hq, ⟨out', down', c'⟩, hj', heq⟩ := hj
      simp only [Prod.mk.injEq] at heq
      obtain ⟨rfl, rfl, rfl⟩ := heq
      obtain ⟨hchain, hhead, hlast⟩ := ih hj'
      have hlist : a :: out' ++ [c'] ++ (b :: down').reverse = a :: (out' ++ [c'] ++ down'.reverse ++ [b]) := by
        simp
      rw [hlist]
      refine ⟨List.isChain_cons.mpr ⟨fun y hy => ?_, List.isChain_append.mpr ⟨hchain, List.isChain_singleton _, ?_⟩⟩, rfl, ?_⟩
      · rw [Option.mem_def, List.head?_append, hhead] at hy
        exact .inl (Option.some.inj hy ▸ hp)
      · intro x hx y hy
        rw [Option.mem_def, hlast] at hx
        obtain rfl := Option.some.inj hx
        obtain rfl : b = y := Option.some.inj hy
        exact .inr hq
      · rw [← List.cons_append, List.getLast?_append]
        rfl

omit [DecidableEq V] in
theorem isChain_splice {r : V → V → Prop} {x : V} {l m : List V} (hl : (l ++ [x]).IsChain r) (hm : (x :: m).IsChain r) :
    (l ++ x :: m).IsChain r := by
  rw [List.isChain_append] at hl ⊢
  refine ⟨hl.1, hm, fun u hu v hv => ?_⟩
  exact hl.2.2 u hu v hv

/-- The way goes from `a` to `b`, from a vertex to its parent or to one it is the parent of. -/
theorem between_chain {path : List V} (h : between parent depth fuel a b = some path) :
    path.IsChain (Near parent) ∧ path.head? = some a ∧ path.getLast? = some b := by
  simp only [between, Option.bind_eq_bind, Option.bind_eq_some_iff, Option.some.injEq] at h
  obtain ⟨⟨out, a'⟩, hra, ⟨down, b'⟩, hrb, ⟨out', down', c⟩, hj, rfl⟩ := h
  dsimp only at hra hrb hj ⊢
  obtain ⟨hua, hha⟩ := raise_chain hra
  obtain ⟨hub, hhb⟩ := raise_chain hrb
  obtain ⟨hmid, hhm, hlm⟩ := join_chain hj
  -- the way down from `b'` is the way up to it, reversed
  have hdown : (b' :: down.reverse).IsChain (Near parent) ∧ (b' :: down.reverse).getLast? = some b := by
    have hrev : b' :: down.reverse = (down ++ [b']).reverse := by simp
    rw [hrev, List.isChain_reverse, List.getLast?_reverse]
    exact ⟨hub.imp fun _ _ hn => hn.symm, hhb⟩
  obtain ⟨rest, hrest⟩ : ∃ rest, out' ++ [c] ++ down'.reverse = a' :: rest := List.head?_eq_some_iff.mp hhm
  obtain ⟨init, hinit⟩ : ∃ init, out' ++ [c] ++ down'.reverse = init ++ [b'] := List.getLast?_eq_some_iff.mp hlm
  have hleft : (out ++ (init ++ [b'])).IsChain (Near parent) := by
    rw [← hinit, hrest]
    exact isChain_splice hua (hrest ▸ hmid)
  have hlist : out ++ out' ++ [c] ++ (down ++ down').reverse = out ++ init ++ b' :: down.reverse := by
    rw [show out ++ out' ++ [c] ++ (down ++ down').reverse = out ++ (out' ++ [c] ++ down'.reverse) ++ down.reverse by simp,
      hinit]
    simp
  refine ⟨?_, ?_, ?_⟩
  · rw [hlist]
    rw [← List.append_assoc] at hleft
    exact isChain_splice hleft hdown.1
  · have hhead : (out ++ (a' :: rest) ++ down.reverse).head? = some a := by
      cases out with
      | nil => exact hha
      | cons x out => exact hha
    rw [← hhead, ← hrest]
    simp
  · rw [hlist, List.getLast?_append, hdown.2]
    rfl

end

/-! ## Walks -/

section

variable {E : Type} {src dst : E → V} {links : List E} {parent : V → Option V} {depth : V → Nat} {mem : V → Prop}
  {root a b : V}

/-- The edges are those of the tree, both ways. -/
structure Edges (src dst : E → V) (links : List E) (parent : V → Option V) (mem : V → Prop) : Prop where
  tree : ∀ e ∈ links, parent (src e) = some (dst e) ∨ parent (dst e) = some (src e)
  up : ∀ v u, mem v → parent v = some u → ∃ e ∈ links, src e = v ∧ dst e = u
  down : ∀ v u, mem v → parent v = some u → ∃ e ∈ links, src e = u ∧ dst e = v

theorem Above.walks (h : Rooted parent depth mem root) (he : Edges src dst links parent mem) {x : V}
    (hx : Above parent a x) (ha : mem a) :
    (∃ p, IsWalk src dst links a x p ∧ depth a = depth x + p.length) ∧
      ∃ p, IsWalk src dst links x a p ∧ depth a = depth x + p.length := by
  induction hx using Relation.ReflTransGen.head_induction_on with
  | refl => exact ⟨⟨[], rfl, rfl⟩, [], rfl, rfl⟩
  | head hp _ ih =>
    have hd := h.depth_parent _ _ hp
    obtain ⟨⟨p, hw, hlen⟩, q, hw', hlen'⟩ := ih (h.mem_parent _ _ ha hp)
    obtain ⟨e, hel, hs, ht⟩ := he.up _ _ ha hp
    obtain ⟨e', hel', hs', ht'⟩ := he.down _ _ ha hp
    refine ⟨⟨e :: p, ⟨hel, hs, ht ▸ hw⟩, by rw [List.length_cons]; omega⟩, q ++ [e'], ?_, ?_⟩
    · rw [← hs'] at hw'
      exact ht' ▸ hw'.snoc hel'
    · rw [List.length_append, List.length_singleton]
      omega

theorem IsWalk.common (h : Rooted parent depth mem root) (he : Edges src dst links parent mem) {p : List E}
    (hw : IsWalk src dst links a b p) :
    ∃ x, Above parent a x ∧ Above parent b x ∧ depth a + depth b ≤ 2 * depth x + p.length := by
  induction p generalizing a with
  | nil =>
    obtain rfl : a = b := hw
    exact ⟨a, .refl a, .refl a, by omega⟩
  | cons e p ih =>
    obtain ⟨hel, rfl, hrest⟩ := hw
    obtain ⟨x, hax, hbx, hlen⟩ := ih hrest
    rw [List.length_cons]
    rcases he.tree e hel with hup | hdown
    · have := h.depth_parent _ _ hup
      exact ⟨x, hax.head hup, hbx, by omega⟩
    · have hd := h.depth_parent _ _ hdown
      rcases hax.cases with rfl | ⟨q, hq, hqx⟩
      · -- the walk starts one above what was the common ancestor
        exact ⟨src e, .refl _, Relation.ReflTransGen.tail hbx hdown, by omega⟩
      · rw [hdown] at hq
        exact ⟨x, Option.some.inj hq ▸ hqx, hbx, by omega⟩

/-- **The way between two vertices is a shortest one.** -/
theorem between_isDist [DecidableEq V] (h : Rooted parent depth mem root) (he : Edges src dst links parent mem)
    {fuel n : Nat} (ha : mem a) (hb : mem b) (hfa : depth a < fuel) (hfb : depth b < fuel)
    (hn : IsDist src dst links a b n) :
    ∃ path, between parent depth fuel a b = some path ∧ (∀ v ∈ path, mem v) ∧ path.length = n + 1 := by
  obtain ⟨path, c, hpath, hmem, hac, hbc, hlen, hlow⟩ := between_spec h ha hb hfa hfb
  refine ⟨path, hpath, hmem, ?_⟩
  obtain ⟨⟨up, hup, hul⟩, -⟩ := Above.walks h he hac ha
  obtain ⟨-, down, hdown, hdl⟩ := Above.walks h he hbc hb
  have hle := hn.2 _ (hup.append hdown)
  rw [List.length_append] at hle
  obtain ⟨⟨p, hp, hpl⟩, -⟩ := hn
  obtain ⟨x, hax, hbx, hge⟩ := IsWalk.common h he hp
  have hxc : depth x ≤ depth c := by
    rcases above_depth h (hlow x hax hbx) with rfl | hlt <;> omega
  omega

end

end Rooted

end Pimid
