import Pimid.Garnet.Grid
import Pimid.Garnet.VcClass

/-!
# Dateline routers

`RingRouter` moves a packet to class 1 when it crosses the dateline of its ring, and
a torus router starts again in class 0 when the packet turns from a row onto a
column. `buildRing` finds the dateline's port by counting the ports it adds,
`buildTorus` names its direction.
-/

namespace Pimid.Garnet

structure RingRouter where
  datelineOutports : List Nat := []
  datelineDirns : List PortDirection := []
  dimensionReset : Bool := false

namespace RingRouter

def isDatelineCrossing (r : RingRouter) (outport : Nat) : Bool :=
  r.datelineOutports.contains outport

/-- The outport once more, if its direction is the dateline's and it is not noted yet. -/
def noteDirn (d : PortDirection) (o : Nat) (r : RingRouter) (dd : PortDirection) : RingRouter :=
  if d = dd ∧ ¬r.isDatelineCrossing o then { r with datelineOutports := r.datelineOutports ++ [o] } else r

/-- The directions become outport numbers, once the links exist. -/
def init (r : RingRouter) (ports : List Outport) : RingRouter :=
  ports.zipIdx.foldl (fun r p => r.datelineDirns.foldl (noteDirn p.1.direction p.2) r) r

/-- X is East and West, Y is North and South. -/
def dimensionOf : PortDirection → Option Nat
  | .East | .West => some 0
  | .North | .South => some 1
  | _ => none

/-- The class a head flit has to take. -/
def targetClass (r : RingRouter) (vcPerVnet : Nat) (inDirn : PortDirection) (invc outport : Nat) (outDirn : PortDirection) :
    Nat :=
  if r.isDatelineCrossing outport then 1
  else if inDirn = .Local then 0
  else if r.dimensionReset then
    match dimensionOf inDirn, dimensionOf outDirn with
    | some din, some dout => if din ≠ dout then 0 else vcClassOf vcPerVnet invc
    | _, _ => vcClassOf vcPerVnet invc
  else vcClassOf vcPerVnet invc

end RingRouter

/-! ## The routers of the builders -/

/-- While `buildRing` adds links: each router's next outport, and the ones marked. -/
structure RingBuild where
  intOutportIdx : Nat → Nat
  dateline : Nat → List Nat

namespace RingBuild

def addDatelineOutport (b : RingBuild) (router : Nat) : RingBuild :=
  { b with dateline := fun r => if r = router then b.dateline r ++ [b.intOutportIdx router] else b.dateline r }

def next (b : RingBuild) (router : Nat) : RingBuild :=
  { b with intOutportIdx := fun r => if r = router then b.intOutportIdx r + 1 else b.intOutportIdx r }

/-- The clockwise and the counterclockwise link at router `i`. -/
def addLinks (ringSize : Nat) (b : RingBuild) (i : Nat) : RingBuild :=
  let nxt := (i + 1) % ringSize
  let b := if i = ringSize - 1 ∧ nxt = 0 then b.addDatelineOutport i else b
  let b := b.next i
  let b := if nxt = 0 ∧ i = ringSize - 1 then b.addDatelineOutport nxt else b
  b.next nxt

end RingBuild

/-- Endpoints of each router. -/
def extOutportCount (ringSize numEndpoints router : Nat) : Nat :=
  (List.range numEndpoints).countP fun i => i % ringSize == router

def ringBuild (ringSize numEndpoints : Nat) : RingBuild :=
  (List.range ringSize).foldl (RingBuild.addLinks ringSize) ⟨extOutportCount ringSize numEndpoints, fun _ => []⟩

/-- The routers of the bidirectional ring. -/
def ringRouters (ringSize numEndpoints router : Nat) : RingRouter :=
  { datelineOutports := (ringBuild ringSize numEndpoints).dateline router }

/-- The routers of the torus: a dateline for each direction that wraps here. -/
def torusRouters (rows cols router : Nat) : RingRouter :=
  let r := router / cols
  let c := router % cols
  { datelineDirns :=
      (if c = cols - 1 then [.East] else []) ++ (if c = 0 then [.West] else []) ++
        (if r = rows - 1 then [.North] else []) ++ if r = 0 then [.South] else []
    dimensionReset := true }

/-! ## The dateline's ports -/

namespace RingRouter

theorem mem_noteDirns (d : PortDirection) (o : Nat) (dds : List PortDirection) (r : RingRouter) (x : Nat) :
    (dds.foldl (noteDirn d o) r).datelineDirns = r.datelineDirns ∧
      (dds.foldl (noteDirn d o) r).dimensionReset = r.dimensionReset ∧
        (x ∈ (dds.foldl (noteDirn d o) r).datelineOutports ↔ x ∈ r.datelineOutports ∨ x = o ∧ d ∈ dds) := by
  induction dds generalizing r with
  | nil => simp
  | cons dd dds ih =>
    rw [List.foldl_cons]
    obtain ⟨h₁, h₂, h₃⟩ := ih (noteDirn d o r dd)
    rw [h₁, h₂, h₃]
    unfold noteDirn
    split
    · next h =>
      refine ⟨rfl, rfl, ?_⟩
      rw [List.mem_append, List.mem_singleton, List.mem_cons]
      have := h.1
      tauto
    · next h =>
      refine ⟨rfl, rfl, ?_⟩
      rw [isDatelineCrossing, List.contains_iff_mem, not_and, not_not] at h
      rw [List.mem_cons]
      constructor
      · rintro (hx | ⟨rfl, hd⟩)
        · exact .inl hx
        · exact .inr ⟨rfl, .inr hd⟩
      · rintro (hx | ⟨rfl, rfl | hd⟩)
        · exact .inl hx
        · exact .inl (h rfl)
        · exact .inr ⟨rfl, hd⟩

theorem init_fold (ps : List (Outport × Nat)) (r : RingRouter) (x : Nat) :
    (ps.foldl (fun r p => r.datelineDirns.foldl (noteDirn p.1.direction p.2) r) r).dimensionReset = r.dimensionReset ∧
      (x ∈ (ps.foldl (fun r p => r.datelineDirns.foldl (noteDirn p.1.direction p.2) r) r).datelineOutports ↔
        x ∈ r.datelineOutports ∨ ∃ p, (p, x) ∈ ps ∧ p.direction ∈ r.datelineDirns) := by
  induction ps generalizing r with
  | nil => simp
  | cons q ps ih =>
    rw [List.foldl_cons]
    obtain ⟨h₁, h₂, h₃⟩ := mem_noteDirns q.1.direction q.2 r.datelineDirns r x
    obtain ⟨h₄, h₅⟩ := ih (r.datelineDirns.foldl (noteDirn q.1.direction q.2) r)
    refine ⟨h₄.trans h₂, ?_⟩
    rw [h₅, h₃, h₁]
    constructor
    · rintro ((hx | ⟨rfl, hd⟩) | ⟨p, hp, hd⟩)
      · exact .inl hx
      · exact .inr ⟨q.1, List.mem_cons_self, hd⟩
      · exact .inr ⟨p, List.mem_cons_of_mem _ hp, hd⟩
    · rintro (hx | ⟨p, hp, hd⟩)
      · exact .inl (.inl hx)
      · rcases List.mem_cons.mp hp with rfl | hp
        · exact .inl (.inr ⟨rfl, hd⟩)
        · exact .inr ⟨p, hp, hd⟩

theorem isDatelineCrossing_init (r : RingRouter) (ports : List Outport) (o : Nat) :
    (r.init ports).isDatelineCrossing o = true ↔
      o ∈ r.datelineOutports ∨ ∃ p, ports[o]? = some p ∧ p.direction ∈ r.datelineDirns := by
  rw [isDatelineCrossing, List.contains_iff_mem, init, (init_fold _ r o).2]
  simp only [List.mem_zipIdx_iff_getElem?]

theorem dimensionReset_init (r : RingRouter) (ports : List Outport) :
    (r.init ports).dimensionReset = r.dimensionReset :=
  (init_fold _ r 0).1

/-! ### The class -/

theorem ne_local_of_dimension {d : PortDirection} {dim : Nat} (h : dimensionOf d = some dim) : d ≠ .Local := by
  rintro rfl
  cases h

section TargetClass

variable {r : RingRouter} {v vc o : Nat} {inDirn outDirn : PortDirection}

theorem targetClass_local : r.targetClass v .Local vc o outDirn = if r.isDatelineCrossing o then 1 else 0 := by
  rw [targetClass, if_pos (rfl : PortDirection.Local = .Local)]

theorem targetClass_le (r : RingRouter) (v : Nat) (inDirn : PortDirection) (vc o : Nat) (outDirn : PortDirection) :
    r.targetClass v inDirn vc o outDirn ≤ 1 := by
  have hle := vcClassOf_le v vc
  unfold targetClass
  split
  · exact Nat.le_refl 1
  · split
    · exact Nat.zero_le 1
    · split
      · split
        · split
          · exact Nat.zero_le 1
          · exact hle
        · exact hle
      · exact hle

theorem targetClass_keep (hin : inDirn ≠ .Local) (hdim : r.dimensionReset = true → dimensionOf inDirn = dimensionOf outDirn) :
    r.targetClass v inDirn vc o outDirn = if r.isDatelineCrossing o then 1 else vcClassOf v vc := by
  rw [targetClass, if_neg hin]
  by_cases hreset : r.dimensionReset = true
  · rw [if_pos hreset, hdim hreset]
    cases dimensionOf outDirn <;> simp
  · rw [if_neg hreset]

theorem targetClass_turn {din dout : Nat} (hreset : r.dimensionReset = true) (hin : dimensionOf inDirn = some din)
    (hout : dimensionOf outDirn = some dout) (hne : din ≠ dout) :
    r.targetClass v inDirn vc o outDirn = if r.isDatelineCrossing o then 1 else 0 := by
  rw [targetClass, if_neg (ne_local_of_dimension hin), if_pos hreset, hin, hout]
  simp only [if_pos hne]

end TargetClass

end RingRouter

/-! ### The ring's -/

/-- The links of the first `k` rounds of `buildRing`. -/
def ringLinksBelow (n k : Nat) : List IntLink := (List.range k).flatMap (ringLinksAt n false)

/-- The router's outports when the first `k` rounds have added theirs. -/
def ringPortsBelow (n e k router : Nat) : List Outport :=
  ((roundRobin e n).filter (·.2 == router)).map (.ext ·.1) ++ ((ringLinksBelow n k).filter (·.src == router)).map .int

theorem length_ringPortsBelow (n e k router : Nat) : (ringPortsBelow n e k router).length =
    extOutportCount n e router + ((ringLinksBelow n k).filter (·.src == router)).length := by
  rw [ringPortsBelow, List.length_append, List.length_map, List.length_map, roundRobin, List.filter_map, List.length_map,
    extOutportCount, List.countP_eq_length_filter]
  rfl

/-- Before the last round no port is marked, and the next port of a router is the one after those it has. -/
theorem ringBuild_below {n e k : Nat} (hk : k < n) :
    (List.range k).foldl (RingBuild.addLinks n) ⟨extOutportCount n e, fun _ => []⟩ =
      ⟨fun r => (ringPortsBelow n e k r).length, fun _ => []⟩ := by
  induction k with
  | zero =>
    simp only [List.range_zero, List.foldl_nil, length_ringPortsBelow]
    rfl
  | succ k ih =>
    rw [List.range_succ, List.foldl_append, ih (by omega)]
    have hnext : (k + 1) % n = k + 1 := Nat.mod_eq_of_lt hk
    have hlinks : ringLinksBelow n (k + 1) =
        ringLinksBelow n k ++ [⟨k, k + 1, .East, .West⟩, ⟨k + 1, k, .West, .East⟩] := by
      rw [ringLinksBelow, List.range_succ, List.flatMap_append, ringLinksBelow]
      simp [ringLinksAt, hnext]
    rw [List.foldl_cons, List.foldl_nil, RingBuild.addLinks, hnext]
    have hlast : ¬(k = n - 1 ∧ k + 1 = 0) := by omega
    have hlast' : ¬(k + 1 = 0 ∧ k = n - 1) := by omega
    simp only [if_neg hlast, if_neg hlast', RingBuild.next, RingBuild.mk.injEq, and_true]
    funext r
    rw [length_ringPortsBelow, length_ringPortsBelow, hlinks, List.filter_append, List.length_append]
    by_cases h₁ : r = k
    · subst h₁
      simp [Nat.add_assoc]
    · by_cases h₂ : r = k + 1
      · subst h₂
        simp
        omega
      · have h₁' : ¬k = r := fun h => h₁ h.symm
        have h₂' : ¬k + 1 = r := fun h => h₂ h.symm
        simp [h₁, h₂, h₁', h₂']

theorem ringLinks_last {n e : Nat} (hn : 0 < n) : (buildRing n e false).intLinks =
    ringLinksBelow n (n - 1) ++ [⟨n - 1, 0, .East, .West⟩, ⟨0, n - 1, .West, .East⟩] := by
  obtain ⟨k, rfl⟩ : ∃ k, n = k + 1 := ⟨n - 1, by omega⟩
  rw [buildRing, List.range_succ, List.flatMap_append, ringLinksBelow]
  simp [ringLinksAt]

/-- What `buildRing` marks: the next port of router `n - 1`, and of router 0, when the last round comes to them. -/
theorem ringBuild_dateline {n e : Nat} (hn : 2 ≤ n) (r : Nat) : (ringBuild n e).dateline r =
    if r = n - 1 ∨ r = 0 then [(ringPortsBelow n e (n - 1) r).length] else [] := by
  obtain ⟨k, rfl⟩ : ∃ k, n = k + 1 := ⟨n - 1, by omega⟩
  rw [ringBuild, List.range_succ, List.foldl_append, ringBuild_below (Nat.lt_succ_self k)]
  have hnext : (k + 1) % (k + 1) = 0 := Nat.mod_self _
  have hk : ¬0 = k := by omega
  simp only [List.foldl_cons, List.foldl_nil, RingBuild.addLinks, hnext, Nat.add_sub_cancel, and_self, if_true,
    RingBuild.next, RingBuild.addDatelineOutport, List.nil_append, if_neg hk]
  by_cases h₁ : r = k
  · subst h₁
    have hr : ¬r = 0 := by omega
    simp [hr]
  · by_cases h₂ : r = 0
    · subst h₂
      simp [h₁]
    · simp [h₁, h₂]

theorem getElem?_snoc_iff {α : Type} {Q : α → Prop} {pre : List α} {x y : α} {o : Nat} (hpre : ∀ z ∈ pre, ¬Q z) (hx : Q x)
    (h : (pre ++ [x])[o]? = some y) : o = pre.length ↔ Q y := by
  constructor
  · rintro rfl
    rw [List.getElem?_append_right (Nat.le_refl _), Nat.sub_self] at h
    exact Option.some.inj h ▸ hx
  · intro hy
    rcases Nat.lt_trichotomy o pre.length with hlt | heq | hgt
    · rw [List.getElem?_append_left hlt] at h
      exact absurd hy (hpre y (List.mem_of_getElem? h))
    · exact heq
    · rw [List.getElem?_append_right (by omega)] at h
      have : o < (pre ++ [x]).length := by
        have := List.getElem?_eq_some_iff.mp h
        obtain ⟨hlen, -⟩ := this
        rw [List.length_append]
        omega
      rw [List.length_append, List.length_singleton] at this
      omega

/-- The port of a link between the last router and the first that closes the ring, in either direction. -/
def ClosesRing (n : Nat) (p : Outport) : Prop :=
  p = .int ⟨n - 1, 0, .East, .West⟩ ∨ p = .int ⟨0, n - 1, .West, .East⟩

/-- **The dateline's ports.** Once the external links and then the internal links are added in order, the ports that
`buildRing` marked are those of the links between router `n - 1` and router 0, one in each direction. -/
theorem ring_isDatelineCrossing {n e : Nat} (hn : 2 ≤ n) {r o : Nat} {p : Outport}
    (hp : ((buildRing n e false).outports r)[o]? = some p) :
    ((ringRouters n e r).init ((buildRing n e false).outports r)).isDatelineCrossing o = true ↔ ClosesRing n p := by
  rw [RingRouter.isDatelineCrossing_init]
  have hports : (buildRing n e false).outports r = ringPortsBelow n e (n - 1) r ++
      (([⟨n - 1, 0, .East, .West⟩, ⟨0, n - 1, .West, .East⟩] : List IntLink).filter (·.src == r)).map .int := by
    rw [Topology.outports, ringLinks_last (by omega), List.filter_append, List.map_append, ← List.append_assoc]
    rfl
  have hbelow : ∀ z ∈ ringPortsBelow n e (n - 1) r, ¬ClosesRing n z := by
    intro z hz
    rcases List.mem_append.mp hz with hz | hz
    · obtain ⟨x, -, rfl⟩ := List.mem_map.mp hz
      rintro (h | h) <;> cases h
    · obtain ⟨l, hl, rfl⟩ := List.mem_map.mp hz
      obtain ⟨i, hi, hl⟩ := List.mem_flatMap.mp (List.mem_filter.mp hl).1
      have hi := List.mem_range.mp hi
      rw [ringLinksAt, Nat.mod_eq_of_lt (by omega)] at hl
      simp only [Bool.false_eq_true, if_false, List.mem_cons, List.not_mem_nil, or_false] at hl
      -- an earlier round joins router `i` and router `i + 1`, neither of them over the end
      rcases hl with rfl | rfl <;> rintro (h | h) <;> simp at h
  have hmarked : o ∈ (ringRouters n e r).datelineOutports ↔
      (r = n - 1 ∨ r = 0) ∧ o = (ringPortsBelow n e (n - 1) r).length := by
    rw [ringRouters, ringBuild_dateline hn]
    split
    · next h => simp [h]
    · next h => simp [h]
  have hdirns : ¬∃ q, ((buildRing n e false).outports r)[o]? = some q ∧ q.direction ∈ (ringRouters n e r).datelineDirns := by
    rintro ⟨q, -, hq⟩
    exact List.not_mem_nil hq
  rw [hmarked, or_iff_left hdirns]
  rw [hports] at hp
  have hne : n - 1 ≠ 0 := by omega
  by_cases h₁ : r = n - 1
  · subst h₁
    have htail : ([⟨n - 1, 0, .East, .West⟩, ⟨0, n - 1, .West, .East⟩] : List IntLink).filter (·.src == n - 1) =
        [⟨n - 1, 0, .East, .West⟩] := by simp [hne.symm]
    rw [htail] at hp
    rw [and_iff_right (.inl rfl)]
    have hlast : ClosesRing n (.int ⟨n - 1, 0, .East, .West⟩) := Or.inl rfl
    exact getElem?_snoc_iff hbelow hlast hp
  · by_cases h₂ : r = 0
    · subst h₂
      have htail : ([⟨n - 1, 0, .East, .West⟩, ⟨0, n - 1, .West, .East⟩] : List IntLink).filter (·.src == 0) =
          [⟨0, n - 1, .West, .East⟩] := by simp [hne]
      rw [htail] at hp
      rw [and_iff_right (.inr rfl)]
      have hlast : ClosesRing n (.int ⟨0, n - 1, .West, .East⟩) := Or.inr rfl
      exact getElem?_snoc_iff hbelow hlast hp
    · have htail : ([⟨n - 1, 0, .East, .West⟩, ⟨0, n - 1, .West, .East⟩] : List IntLink).filter (·.src == r) = [] := by
        simp [Ne.symm h₁, Ne.symm h₂]
      rw [htail, List.map_nil, List.append_nil] at hp
      refine iff_of_false (fun h => ?_) (hbelow p (List.mem_of_getElem? hp))
      rcases h.1 with h | h
      · exact h₁ h
      · exact h₂ h

/-! ### The torus's -/

theorem torus_isDatelineCrossing {rows cols e r c : Nat} (hc : c < cols) {o : Nat} {l : IntLink}
    (hp : ((buildTorus rows cols e).outports (r * cols + c))[o]? = some (.int l)) :
    ((torusRouters rows cols (r * cols + c)).init ((buildTorus rows cols e).outports (r * cols + c))).isDatelineCrossing o =
        true ↔
      (c = cols - 1 ∧ l.srcOutport = .East) ∨ (c = 0 ∧ l.srcOutport = .West) ∨
        (r = rows - 1 ∧ l.srcOutport = .North) ∨ (r = 0 ∧ l.srcOutport = .South) := by
  rw [RingRouter.isDatelineCrossing_init]
  have hmark : o ∉ (torusRouters rows cols (r * cols + c)).datelineOutports := nofun
  have hq : (∃ q, ((buildTorus rows cols e).outports (r * cols + c))[o]? = some q ∧
      q.direction ∈ (torusRouters rows cols (r * cols + c)).datelineDirns) ↔
        l.srcOutport ∈ (torusRouters rows cols (r * cols + c)).datelineDirns := by
    rw [hp]
    constructor
    · rintro ⟨q, ⟨⟩, hd⟩
      exact hd
    · exact fun hd => ⟨_, rfl, hd⟩
  rw [or_iff_right hmark, hq, torusRouters, grid_mod hc, grid_div hc]
  simp only [List.mem_append]
  have hsplit {P : Prop} [Decidable P] {d : PortDirection} : l.srcOutport ∈ (if P then [d] else []) ↔ P ∧ l.srcOutport = d := by
    split <;> simp_all
  rw [hsplit, hsplit, hsplit, hsplit, or_assoc, or_assoc]

end Pimid.Garnet
