import Pimid.Garnet.RingRouter

/-!
# Datelines make rings and tori free of cyclic waits

A packet holds the channel it came in on, a link and a class of its virtual channels,
while it waits for the next one. Going round a ring it crosses the dateline at most
once: in class 1 its destination is ahead of it before the dateline. So the channels
of a ring can be numbered along the way: class 0 up to the dateline, the link over
it, class 1 from there. On a torus the channels of the columns come after those of
the rows.
-/

namespace Pimid.Garnet

/-! ## Packets -/

/-- A packet at a router. It came in over a link, or from an endpoint, and sits in virtual channel `vc`. -/
structure Packet where
  router : Nat
  dest : Nat
  inLink : Option IntLink
  vc : Nat

/-- `get_direction()` of the inport. -/
def Packet.inDirn (p : Packet) : PortDirection :=
  match p.inLink with
  | some l => l.dstInport
  | none => .Local

/-- A network of dateline routers, with the direction each router gives a packet. -/
structure DatelineNet where
  topology : Topology
  routers : Nat → RingRouter
  vcPerVnet : Nat
  direction : Nat → Nat → Option PortDirection

namespace DatelineNet

/-- The router as it runs: `init` has seen its outports. -/
def router (net : DatelineNet) (r : Nat) : RingRouter := (net.routers r).init (net.topology.outports r)

/-- The packet leaves over `l` into virtual channel `vc'`: one of its virtual network, of the class `vc_allocate` asks for. -/
structure Moves (net : DatelineNet) (p : Packet) (l : IntLink) (vc' : Nat) : Prop where
  away : p.router ≠ p.dest
  out : ∃ d o, net.direction p.dest p.router = some d ∧ outportForDirection (net.topology.outports p.router) d = some o ∧
    (net.topology.outports p.router)[o]? = some (.int l) ∧
    let range := getClassRange net.vcPerVnet (p.vc / net.vcPerVnet)
      ((net.router p.router).targetClass net.vcPerVnet p.inDirn p.vc o l.srcOutport)
    range.1 ≤ vc' ∧ vc' < range.2

/-- The packets between any two endpoints. The channel one holds is the link it came in on, with the class. -/
def traffic (net : DatelineNet) : Traffic Packet (IntLink × Nat) where
  start p := p.inLink = none ∧ ∃ src dst, net.topology.routerOf src = some p.router ∧ net.topology.routerOf dst = some p.dest
  step p p' := ∃ l vc', net.Moves p l vc' ∧ p' = ⟨l.dst, p.dest, some l, vc'⟩
  held p := p.inLink.map fun l => (l, vcClassOf net.vcPerVnet p.vc)

/-- The bidirectional ring under `SHORTEST`. -/
def ring (n numEndpoints vcPerVnet : Nat) : DatelineNet where
  topology := buildRing n numEndpoints false
  routers := ringRouters n numEndpoints
  vcPerVnet
  direction dest router := directionFor .SHORTEST router dest (-1) (-1) n (buildRing n numEndpoints false).ringCwOnly

/-- The torus under `DOR`. -/
def torus (rows cols numEndpoints vcPerVnet : Nat) : DatelineNet where
  topology := buildTorus rows cols numEndpoints
  routers := torusRouters rows cols
  vcPerVnet
  direction dest router := directionFor .DOR router dest rows cols (rows * cols : Nat)
    (buildTorus rows cols numEndpoints).ringCwOnly

end DatelineNet

/-! ## One ring -/

/-- Places counted the way the packet goes: the dateline is behind the last of them. -/
def along (n : Nat) (up : Bool) (a : Nat) : Nat := if up then a else n - 1 - a

/-- The number of the channel from place `a`, in a class. -/
def legRank (n : Nat) (up : Bool) (a cls : Nat) : Nat :=
  if cls = 0 then along n up a else if along n up a = n - 1 then n else n + 1 + along n up a

/-- The class after the step from place `a`. -/
def legClass (n : Nat) (up : Bool) (a cls : Nat) : Nat :=
  if along n up a = n - 1 then 1 else cls

/-- A packet for place `b` has come from place `a` one step `up` or down, in class `cls`. -/
structure Leg (n b : Nat) (up : Bool) (a cls : Nat) : Prop where
  src_lt : a < n
  dest_lt : b < n
  cls_le : cls ≤ 1
  -- the link over the dateline is never taken in class 0
  crossed : cls = 0 → along n up a ≠ n - 1
  -- in class 1 the dateline is behind
  ahead : cls = 1 → along n up (ringStep n up a) ≤ along n up b

section Legs

variable {n a b cls : Nat} {up : Bool}

theorem along_lt (up : Bool) (h : a < n) : along n up a < n := by
  unfold along
  split <;> omega

theorem along_inj (ha : a < n) (hb : b < n) (h : along n up a = along n up b) : a = b := by
  unfold along at h
  split at h <;> omega

theorem along_ringStep (up : Bool) (h : a < n) : along n up (ringStep n up a) = stepCw n (along n up a) := by
  unfold along ringStep stepCw stepCcw
  cases up
  · simp only [Bool.false_eq_true, if_false]
    split <;> split <;> omega
  · rfl

theorem legClass_le (h : cls ≤ 1) : legClass n up a cls ≤ 1 := by
  unfold legClass
  split
  · exact Nat.le_refl 1
  · exact h

theorem legRank_le (up : Bool) (cls : Nat) (h : a < n) : legRank n up a cls ≤ 2 * n := by
  have := along_lt up h
  unfold legRank
  split
  · omega
  · split <;> omega

/-- A packet that enters the ring starts in class 0, or over the dateline. -/
theorem Leg.enter (ha : a < n) (hb : b < n) : Leg n b up a (legClass n up a 0) where
  src_lt := ha
  dest_lt := hb
  cls_le := legClass_le (Nat.zero_le 1)
  crossed h := by
    unfold legClass at h
    split at h
    · cases h
    · next hx => exact hx
  ahead h := by
    unfold legClass at h
    split at h
    · next hx =>
      rw [along_ringStep up ha, hx, stepCw, if_pos (by omega)]
      exact Nat.zero_le _
    · cases h

/-- Further round the ring it keeps its class up to the dateline. -/
theorem Leg.advance (h : Leg n b up a cls) (hne : ringStep n up a ≠ b) :
    Leg n b up (ringStep n up a) (legClass n up (ringStep n up a) cls) := by
  have hs := ringStep_lt up h.src_lt
  rcases Nat.le_one_iff_eq_zero_or_eq_one.mp h.cls_le with rfl | rfl
  · exact Leg.enter hs h.dest_lt
  · -- the destination lies before the dateline, so the dateline is not here
    have hlt : along n up (ringStep n up a) < along n up b :=
      Nat.lt_of_le_of_ne (h.ahead rfl) fun he => hne (along_inj hs h.dest_lt he)
    have hbn := along_lt up h.dest_lt
    rw [legClass, if_neg (by omega)]
    refine ⟨hs, h.dest_lt, Nat.le_refl 1, nofun, fun _ => ?_⟩
    rw [along_ringStep up hs, stepCw, if_neg (by omega)]
    omega

theorem Leg.rank_lt (h : Leg n b up a cls) (hne : ringStep n up a ≠ b) :
    legRank n up a cls < legRank n up (ringStep n up a) (legClass n up (ringStep n up a) cls) := by
  have hs := ringStep_lt up h.src_lt
  have hq := along_lt up h.src_lt
  have hstep := along_ringStep up h.src_lt
  unfold stepCw at hstep
  unfold legRank legClass
  rcases Nat.le_one_iff_eq_zero_or_eq_one.mp h.cls_le with rfl | rfl
  · have hc := h.crossed rfl
    rw [if_neg (by omega)] at hstep
    by_cases hlast : along n up (ringStep n up a) = n - 1
    · simp only [hlast, if_true, Nat.one_ne_zero, if_false]
      omega
    · simp only [hlast, if_true, if_false]
      omega
  · have hlt : along n up (ringStep n up a) < along n up b :=
      Nat.lt_of_le_of_ne (h.ahead rfl) fun he => hne (along_inj hs h.dest_lt he)
    have hbn := along_lt up h.dest_lt
    have hlast : along n up (ringStep n up a) ≠ n - 1 := by omega
    simp only [hlast, if_false, Nat.one_ne_zero]
    split at hstep <;> split <;> omega

end Legs

/-! ## Links of a grid -/

/-- Along row `r`, from column `a`. -/
def rowLink (cols r : Nat) (up : Bool) (a : Nat) : IntLink :=
  gridLink cols (if up then .East else .West) r a r (ringStep cols up a)

/-- Along column `c`, from row `a`. -/
def colLink (rows cols c : Nat) (up : Bool) (a : Nat) : IntLink :=
  gridLink cols (if up then .North else .South) a c (ringStep rows up a) c

/-- The number of a channel: those of the columns come after those of the rows. -/
def channelRank (rows cols : Nat) (chan : IntLink × Nat) : Nat :=
  match chan.1.srcOutport with
  | .East => legRank cols true (chan.1.src % cols) chan.2
  | .West => legRank cols false (chan.1.src % cols) chan.2
  | .North => 2 * cols + 1 + legRank rows true (chan.1.src / cols) chan.2
  | .South => 2 * cols + 1 + legRank rows false (chan.1.src / cols) chan.2
  | _ => 0

section Links

variable {rows cols r c a cls : Nat} {up : Bool}

theorem channelRank_rowLink (ha : a < cols) : channelRank rows cols (rowLink cols r up a, cls) = legRank cols up a cls := by
  cases up <;> simp [channelRank, rowLink, gridLink, Nat.mod_eq_of_lt ha]

theorem channelRank_colLink (hc : c < cols) :
    channelRank rows cols (colLink rows cols c up a, cls) = 2 * cols + 1 + legRank rows up a cls := by
  cases up <;> simp [channelRank, colLink, gridLink, grid_div hc]

theorem rowLink_dimension : RingRouter.dimensionOf (rowLink cols r up a).srcOutport = some 0 ∧
    RingRouter.dimensionOf (rowLink cols r up a).dstInport = some 0 := by
  cases up <;> exact ⟨rfl, rfl⟩

theorem colLink_dimension : RingRouter.dimensionOf (colLink rows cols c up a).srcOutport = some 1 ∧
    RingRouter.dimensionOf (colLink rows cols c up a).dstInport = some 1 := by
  cases up <;> exact ⟨rfl, rfl⟩

theorem closesRing_rowLink {n : Nat} (ha : a < n) : ClosesRing n (.int (rowLink n 0 up a)) ↔ along n up a = n - 1 := by
  unfold ClosesRing rowLink
  rw [gridLink_ring]
  cases up with
  | true =>
    simp only [if_true, Outport.int.injEq, IntLink.mk.injEq, reduceCtorEq, and_false, or_false, along, ringStep,
      stepCw, opposite, and_true]
    constructor
    · exact fun h => h.1
    · exact fun h => ⟨h, if_pos (by omega)⟩
  | false =>
    simp only [Bool.false_eq_true, if_false, Outport.int.injEq, IntLink.mk.injEq, reduceCtorEq, and_false, false_or, along, ringStep, stepCcw, opposite, and_true]
    constructor
    · rintro ⟨rfl, -⟩
      rfl
    · intro h
      obtain rfl : a = 0 := by omega
      exact ⟨rfl, rfl⟩

end Links

/-! ## What a move does -/

namespace DatelineNet

theorem Moves.spec {net : DatelineNet} (hv : 2 ≤ net.vcPerVnet) {p : Packet} {l : IntLink} {vc' : Nat} (h : net.Moves p l vc') :
    ∃ d o, net.direction p.dest p.router = some d ∧ net.topology.linkFor p.router d = some l ∧
      (net.topology.outports p.router)[o]? = some (.int l) ∧
      vcClassOf net.vcPerVnet vc' =
        (net.router p.router).targetClass net.vcPerVnet p.inDirn p.vc o l.srcOutport := by
  obtain ⟨d, o, hd, ho, hl, hlo, hhi⟩ := h.out
  refine ⟨d, o, hd, ?_, hl, vcClassOf_of_range hv ?_ hlo hhi⟩
  · unfold Topology.linkFor
    rw [ho, Option.bind_eq_bind, Option.bind_some, hl]
  · exact RingRouter.targetClass_le _ _ _ _ _ _

/-! ## Rings -/

section Ring

variable {n e v : Nat} {p p' : Packet}

/-- A packet on a ring: if it came over a link, it is on its way round. -/
structure OnRing (n v : Nat) (p : Packet) : Prop where
  router_lt : p.router < n
  dest_lt : p.dest < n
  leg : ∀ l, p.inLink = some l → ∃ a, a ≠ p.dest ∧ l = rowLink n 0 (shortestUp n a p.dest) a ∧
    p.router = ringStep n (shortestUp n a p.dest) a ∧ Leg n p.dest (shortestUp n a p.dest) a (vcClassOf v p.vc)

theorem ring_moves (hn : 2 ≤ n) (hv : 2 ≤ v) (hr : p.router < n) (hd : p.dest < n)
    (hin : ∀ l, p.inLink = some l → l.dstInport ≠ .Local) {l : IntLink} {vc' : Nat} (h : (ring n e v).Moves p l vc') :
    l = rowLink n 0 (shortestUp n p.router p.dest) p.router ∧
      vcClassOf v vc' = legClass n (shortestUp n p.router p.dest) p.router (if p.inLink = none then 0 else vcClassOf v p.vc) := by
  obtain ⟨d, o, hdir, hlink, hport, hcls⟩ := h.spec hv
  have hcw : (buildRing n e false).ringCwOnly = false := ringCwOnly_ring n e false (by omega)
  replace hdir : directionFor .SHORTEST p.router p.dest (-1) (-1) n (buildRing n e false).ringCwOnly = some d := hdir
  rw [hcw, directionFor_SHORTEST hr hd h.away, Option.some.injEq] at hdir
  have hnext : ringNext n false d 0 p.router = some (0, ringStep n (shortestUp n p.router p.dest) p.router) := by
    subst hdir
    unfold ringStep
    cases shortestUp n p.router p.dest <;> rfl
  have hl := (gridLinks_ring n e false).linkFor Nat.one_pos hr hnext
  rw [Nat.zero_mul, Nat.zero_add] at hl
  obtain rfl : l = rowLink n 0 (shortestUp n p.router p.dest) p.router := by
    rw [rowLink, hdir]
    exact Option.some.inj (hlink.symm.trans hl)
  refine ⟨rfl, ?_⟩
  have hreset : ((ring n e v).router p.router).dimensionReset = false := RingRouter.dimensionReset_init _ _
  have hcross : ((ring n e v).router p.router).isDatelineCrossing o = true ↔
      along n (shortestUp n p.router p.dest) p.router = n - 1 :=
    (ring_isDatelineCrossing hn hport).trans (closesRing_rowLink hr)
  rw [show vcClassOf v vc' = _ from hcls, legClass]
  simp only [← hcross]
  cases hl : p.inLink with
  | none =>
    rw [Packet.inDirn, hl]
    exact RingRouter.targetClass_local
  | some l =>
    rw [Packet.inDirn, hl]
    simp only [reduceCtorEq, if_false]
    exact RingRouter.targetClass_keep (hin l hl) fun h => absurd h (by rw [hreset]; decide)

/-- A step goes on round the ring, and the channel it takes has a higher number than the one it had. -/
theorem OnRing.step (hn : 2 ≤ n) (hv : 2 ≤ v) (h : OnRing n v p) {l : IntLink} {vc' : Nat}
    (hm : (ring n e v).Moves p l vc') :
    OnRing n v ⟨l.dst, p.dest, some l, vc'⟩ ∧ ∀ l₀, p.inLink = some l₀ →
      channelRank 1 n (l₀, vcClassOf v p.vc) < channelRank 1 n (l, vcClassOf v vc') := by
  have hin : ∀ l, p.inLink = some l → l.dstInport ≠ .Local := by
    intro l hl
    obtain ⟨a, -, rfl, -⟩ := h.leg l hl
    exact RingRouter.ne_local_of_dimension rowLink_dimension.2
  obtain ⟨rfl, hcls⟩ := ring_moves hn hv h.router_lt h.dest_lt hin hm
  have hdst : (rowLink n 0 (shortestUp n p.router p.dest) p.router).dst =
      ringStep n (shortestUp n p.router p.dest) p.router := by
    rw [rowLink, gridLink_ring]
  have hleg : Leg n p.dest (shortestUp n p.router p.dest) p.router (vcClassOf v vc') := by
    rw [hcls]
    cases hl : p.inLink with
    | none => exact Leg.enter h.router_lt h.dest_lt
    | some l =>
      obtain ⟨a, hne, -, hrouter, hleg⟩ := h.leg l hl
      have hkeep := shortestWay_shortestUp.keeps hleg.src_lt h.dest_lt hne (hrouter ▸ hm.away)
      rw [hrouter, hkeep]
      simp only [reduceCtorEq, if_false]
      exact hleg.advance (hrouter ▸ hm.away)
  refine ⟨⟨?_, h.dest_lt, ?_⟩, ?_⟩
  · show (rowLink n 0 _ p.router).dst < n
    rw [hdst]
    exact ringStep_lt _ h.router_lt
  · rintro _ ⟨⟩
    exact ⟨p.router, hm.away, rfl, hdst, hleg⟩
  · intro l₀ hl₀
    obtain ⟨a, hne, rfl, hrouter, hleg₀⟩ := h.leg l₀ hl₀
    have hkeep := shortestWay_shortestUp.keeps hleg₀.src_lt h.dest_lt hne (hrouter ▸ hm.away)
    rw [channelRank_rowLink hleg₀.src_lt, channelRank_rowLink h.router_lt, hcls, hl₀]
    simp only [reduceCtorEq, if_false]
    rw [hrouter, hkeep]
    exact hleg₀.rank_lt (hrouter ▸ hm.away)

end Ring

/-! ## Tori -/

section Torus

variable {rows cols e v : Nat} {p p' : Packet} {l : IntLink} {vc' r c r' c' : Nat}

/-- On a row: the packet turns up or down it, over the dateline at its end. -/
theorem torus_moves_row (hv : 2 ≤ v) (hr : r < rows) (hc : c < cols) (hc' : c' < cols) (hrouter : p.router = r * cols + c)
    (hdest : p.dest = r' * cols + c') (hne : c ≠ c') (hin : ∀ l, p.inLink = some l → RingRouter.dimensionOf l.dstInport = some 0)
    (h : (torus rows cols e v).Moves p l vc') :
    l = rowLink cols r (dorUp cols c c') c ∧
      vcClassOf v vc' = legClass cols (dorUp cols c c') c (if p.inLink = none then 0 else vcClassOf v p.vc) := by
  obtain ⟨d, o, hdir, hlink, hport, hcls⟩ := h.spec hv
  replace hdir : directionFor .DOR p.router p.dest rows cols (rows * cols : Nat) (buildTorus rows cols e).ringCwOnly = some d := hdir
  rw [hrouter, hdest, directionFor_DOR hc hc' hr, dorDirection, if_pos hne, Option.some.injEq] at hdir
  have hnext : torusNext rows cols d r c = some (r, ringStep cols (dorUp cols c c') c) := by
    subst hdir
    unfold ringStep
    cases dorUp cols c c' <;> rfl
  have hlinks := gridLinks_torus (Nat.zero_lt_of_lt hr) (Nat.zero_lt_of_lt hc) e
  rw [hrouter] at hlink hport hcls
  obtain rfl : l = rowLink cols r (dorUp cols c c') c := by
    rw [rowLink, hdir]
    exact Option.some.inj (hlink.symm.trans (hlinks.linkFor hr hc hnext))
  refine ⟨rfl, ?_⟩
  have hcross : ((torus rows cols e v).router (r * cols + c)).isDatelineCrossing o = true ↔
      along cols (dorUp cols c c') c = cols - 1 := by
    refine (torus_isDatelineCrossing hc hport).trans ?_
    unfold along rowLink gridLink
    cases dorUp cols c c' <;> simp
    omega
  rw [show vcClassOf v vc' = _ from hcls, legClass]
  simp only [← hcross]
  cases hl : p.inLink with
  | none =>
    rw [Packet.inDirn, hl]
    exact RingRouter.targetClass_local
  | some l =>
    rw [Packet.inDirn, hl]
    simp only [reduceCtorEq, if_false]
    exact RingRouter.targetClass_keep (RingRouter.ne_local_of_dimension (hin l hl)) fun _ =>
      (hin l hl).trans rowLink_dimension.1.symm

/-- In its column: a packet that comes from a row, or from an endpoint, starts in class 0. -/
theorem torus_moves_col (hv : 2 ≤ v) (hr : r < rows) (hc : c < cols) (hrouter : p.router = r * cols + c)
    (hdest : p.dest = r' * cols + c) (hne : r ≠ r') (h : (torus rows cols e v).Moves p l vc') :
    l = colLink rows cols c (dorUp rows r r') r ∧
      (∀ cls₀, (p.inLink = none ∧ cls₀ = 0) ∨
        (∃ l₀ dim, p.inLink = some l₀ ∧ RingRouter.dimensionOf l₀.dstInport = some dim ∧
          cls₀ = if dim = 1 then vcClassOf v p.vc else 0) →
        vcClassOf v vc' = legClass rows (dorUp rows r r') r cls₀) := by
  obtain ⟨d, o, hdir, hlink, hport, hcls⟩ := h.spec hv
  replace hdir : directionFor .DOR p.router p.dest rows cols (rows * cols : Nat) (buildTorus rows cols e).ringCwOnly = some d := hdir
  rw [hrouter, hdest, directionFor_DOR hc hc hr, dorDirection, if_neg (fun h => h rfl), if_pos hne, Option.some.injEq] at hdir
  have hnext : torusNext rows cols d r c = some (ringStep rows (dorUp rows r r') r, c) := by
    subst hdir
    unfold ringStep
    cases dorUp rows r r' <;> rfl
  have hlinks := gridLinks_torus (Nat.zero_lt_of_lt hr) (Nat.zero_lt_of_lt hc) e
  rw [hrouter] at hlink hport hcls
  obtain rfl : l = colLink rows cols c (dorUp rows r r') r := by
    rw [colLink, hdir]
    exact Option.some.inj (hlink.symm.trans (hlinks.linkFor hr hc hnext))
  refine ⟨rfl, ?_⟩
  have hcross : ((torus rows cols e v).router (r * cols + c)).isDatelineCrossing o = true ↔
      along rows (dorUp rows r r') r = rows - 1 := by
    refine (torus_isDatelineCrossing hc hport).trans ?_
    unfold along colLink gridLink
    cases dorUp rows r r' <;> simp
    omega
  have hreset : ((torus rows cols e v).router (r * cols + c)).dimensionReset = true := RingRouter.dimensionReset_init _ _
  intro cls₀ hcls₀
  rw [show vcClassOf v vc' = _ from hcls, legClass]
  simp only [← hcross]
  rcases hcls₀ with ⟨hl, rfl⟩ | ⟨l₀, dim, hl, hdim, rfl⟩
  · rw [Packet.inDirn, hl]
    exact RingRouter.targetClass_local
  · rw [Packet.inDirn, hl]
    by_cases h1 : dim = 1
    · subst h1
      rw [if_pos rfl]
      exact RingRouter.targetClass_keep (RingRouter.ne_local_of_dimension hdim) fun _ => hdim.trans colLink_dimension.1.symm
    · rw [if_neg h1]
      exact RingRouter.targetClass_turn hreset hdim colLink_dimension.1 h1

/-- A packet on a torus: if it came over a link, it is on its way along its row, or in its column. -/
structure OnTorus (rows cols v : Nat) (p : Packet) (r' c' : Nat) : Prop where
  router_lt : p.router < rows * cols
  row_lt : r' < rows
  col_lt : c' < cols
  dest : p.dest = r' * cols + c'
  leg : ∀ l, p.inLink = some l →
    (∃ r a, r < rows ∧ a ≠ c' ∧ l = rowLink cols r (dorUp cols a c') a ∧
      p.router = r * cols + ringStep cols (dorUp cols a c') a ∧ Leg cols c' (dorUp cols a c') a (vcClassOf v p.vc)) ∨
    ∃ a, a ≠ r' ∧ l = colLink rows cols c' (dorUp rows a r') a ∧
      p.router = ringStep rows (dorUp rows a r') a * cols + c' ∧ Leg rows r' (dorUp rows a r') a (vcClassOf v p.vc)

theorem OnTorus.stepRow (hv : 2 ≤ v) (h : OnTorus rows cols v p r' c') (hr : r < rows) (hc : c < cols)
    (hrouter : p.router = r * cols + c) (hne : c ≠ c') (hm : (torus rows cols e v).Moves p l vc') :
    OnTorus rows cols v ⟨l.dst, p.dest, some l, vc'⟩ r' c' ∧ ∀ l₀, p.inLink = some l₀ →
      channelRank rows cols (l₀, vcClassOf v p.vc) < channelRank rows cols (l, vcClassOf v vc') := by
  -- it is not in its column yet, so it came along the row
  have hcame : ∀ l₀, p.inLink = some l₀ → ∃ a, a ≠ c' ∧ l₀ = rowLink cols r (dorUp cols a c') a ∧
      c = ringStep cols (dorUp cols a c') a ∧ Leg cols c' (dorUp cols a c') a (vcClassOf v p.vc) := by
    intro l₀ hl₀
    rcases h.leg l₀ hl₀ with ⟨r₀, a, -, hne₀, hlink, hat, hleg⟩ | ⟨a, -, -, hat, -⟩
    · obtain ⟨rfl, rfl⟩ := grid_inj hc (ringStep_lt _ hleg.src_lt) (hrouter.symm.trans hat)
      exact ⟨a, hne₀, hlink, rfl, hleg⟩
    · exact absurd (grid_inj hc h.col_lt (hrouter.symm.trans hat)).2 hne
  have hin : ∀ l₀, p.inLink = some l₀ → RingRouter.dimensionOf l₀.dstInport = some 0 := by
    intro l₀ hl₀
    obtain ⟨a, -, rfl, -⟩ := hcame l₀ hl₀
    exact rowLink_dimension.2
  obtain ⟨rfl, hcls⟩ := torus_moves_row hv hr hc h.col_lt hrouter h.dest hne hin hm
  have hleg : Leg cols c' (dorUp cols c c') c (vcClassOf v vc') := by
    rw [hcls]
    cases hl : p.inLink with
    | none => exact Leg.enter hc h.col_lt
    | some l₀ =>
      obtain ⟨a, hne₀, -, rfl, hleg⟩ := hcame l₀ hl
      rw [shortestWay_dorUp.keeps hleg.src_lt h.col_lt hne₀ hne]
      simp only [reduceCtorEq, if_false]
      exact hleg.advance hne
  refine ⟨⟨?_, h.row_lt, h.col_lt, h.dest, ?_⟩, ?_⟩
  · exact grid_lt hr (ringStep_lt _ hc)
  · rintro _ ⟨⟩
    exact .inl ⟨r, c, hr, hne, rfl, rfl, hleg⟩
  · intro l₀ hl₀
    obtain ⟨a, hne₀, rfl, rfl, hleg₀⟩ := hcame l₀ hl₀
    rw [channelRank_rowLink hleg₀.src_lt, channelRank_rowLink hc, hcls, hl₀]
    simp only [reduceCtorEq, if_false]
    rw [shortestWay_dorUp.keeps hleg₀.src_lt h.col_lt hne₀ hne]
    exact hleg₀.rank_lt hne

theorem OnTorus.stepCol (hv : 2 ≤ v) (h : OnTorus rows cols v p r' c') (hr : r < rows)
    (hrouter : p.router = r * cols + c') (hm : (torus rows cols e v).Moves p l vc') :
    OnTorus rows cols v ⟨l.dst, p.dest, some l, vc'⟩ r' c' ∧ ∀ l₀, p.inLink = some l₀ →
      channelRank rows cols (l₀, vcClassOf v p.vc) < channelRank rows cols (l, vcClassOf v vc') := by
  have hne : r ≠ r' := by
    rintro rfl
    exact hm.away (hrouter.trans h.dest.symm)
  obtain ⟨rfl, hcls⟩ := torus_moves_col hv hr h.col_lt hrouter h.dest hne hm
  have hlast : Leg rows r' (dorUp rows r r') r (vcClassOf v vc') ∧ ∀ l₀, p.inLink = some l₀ →
      channelRank rows cols (l₀, vcClassOf v p.vc) < 2 * cols + 1 + legRank rows (dorUp rows r r') r (vcClassOf v vc') := by
    cases hl : p.inLink with
    | none =>
      rw [hcls 0 (.inl ⟨hl, rfl⟩)]
      exact ⟨Leg.enter hr h.row_lt, nofun⟩
    | some l₀ =>
      rcases h.leg l₀ hl with ⟨r₀, a, -, -, rfl, -, hleg⟩ | ⟨a, hne₀, rfl, hat, hleg⟩
      · -- the turn from its row
        rw [hcls 0 (.inr ⟨_, 0, hl, rowLink_dimension.2, rfl⟩)]
        refine ⟨Leg.enter hr h.row_lt, ?_⟩
        rintro _ ⟨⟩
        rw [channelRank_rowLink hleg.src_lt]
        have := legRank_le (dorUp cols a c') (vcClassOf v p.vc) hleg.src_lt
        omega
      · obtain ⟨rfl, -⟩ := grid_inj h.col_lt h.col_lt (hrouter.symm.trans hat)
        rw [hcls _ (.inr ⟨_, 1, hl, colLink_dimension.2, rfl⟩), if_pos rfl,
          shortestWay_dorUp.keeps hleg.src_lt h.row_lt hne₀ hne]
        refine ⟨hleg.advance hne, ?_⟩
        rintro _ ⟨⟩
        rw [channelRank_colLink h.col_lt]
        exact Nat.add_lt_add_left (hleg.rank_lt hne) _
  refine ⟨⟨grid_lt (ringStep_lt _ hr) h.col_lt, h.row_lt, h.col_lt, h.dest, ?_⟩, ?_⟩
  · rintro _ ⟨⟩
    exact .inr ⟨r, hne, rfl, rfl, hlast.1⟩
  · intro l₀ hl₀
    rw [channelRank_colLink h.col_lt]
    exact hlast.2 l₀ hl₀

theorem OnTorus.step (hv : 2 ≤ v) (h : OnTorus rows cols v p r' c') (hm : (torus rows cols e v).Moves p l vc') :
    OnTorus rows cols v ⟨l.dst, p.dest, some l, vc'⟩ r' c' ∧ ∀ l₀, p.inLink = some l₀ →
      channelRank rows cols (l₀, vcClassOf v p.vc) < channelRank rows cols (l, vcClassOf v vc') := by
  obtain ⟨r, c, hr, hc, hrouter⟩ := grid_split h.router_lt
  by_cases hne : c = c'
  · subst hne
    exact h.stepCol hv hr hrouter hm
  · exact h.stepRow hv hr hc hrouter hne hm

end Torus

/-! ## No cyclic waits -/

theorem roundRobin_lt {e n x r : Nat} (hn : 0 < n) (h : (roundRobin e n).lookup x = some r) : r < n := by
  obtain ⟨l₁, l₂, hsplit, -⟩ := List.lookup_eq_some_iff.mp h
  have hmem : (x, r) ∈ roundRobin e n := by
    rw [hsplit]
    exact List.mem_append_right _ List.mem_cons_self
  obtain ⟨i, -, hi⟩ := List.mem_map.mp hmem
  cases hi
  exact Nat.mod_lt _ hn

theorem acyclic_ring {n e v : Nat} (hn : 2 ≤ n) (hv : 2 ≤ v) : Acyclic (ring n e v).traffic.Waits := by
  have hinv {p : Packet} (hp : (ring n e v).traffic.OnRoute p) : OnRing n v p := by
    refine hp.inv ?_ ?_
    · rintro p ⟨hlink, src, dst, hs, hd⟩
      exact ⟨roundRobin_lt (by omega) hs, roundRobin_lt (by omega) hd, fun l hl => by rw [hlink] at hl; cases hl⟩
    · rintro p _ h ⟨l, vc', hm, rfl⟩
      exact (h.step hn hv hm).1
  refine Traffic.acyclic_waits (channelRank 1 n) ?_
  rintro p _ chan chan' hp ⟨l, vc', hm, rfl⟩ hc hc'
  obtain ⟨l₀, hl₀, rfl⟩ := Option.map_eq_some_iff.mp hc
  cases hc'
  exact ((hinv hp).step hn hv hm).2 l₀ hl₀

theorem acyclic_torus {rows cols e v : Nat} (hrows : 0 < rows) (hcols : 0 < cols) (hv : 2 ≤ v) :
    Acyclic (torus rows cols e v).traffic.Waits := by
  have hpos : 0 < rows * cols := Nat.mul_pos hrows hcols
  have hinv {p : Packet} (hp : (torus rows cols e v).traffic.OnRoute p) : ∃ r' c', OnTorus rows cols v p r' c' := by
    refine hp.inv (I := fun p => ∃ r' c', OnTorus rows cols v p r' c') ?_ ?_
    · rintro p ⟨hlink, src, dst, hs, hd⟩
      obtain ⟨r', c', hr', hc', hdest⟩ := grid_split (roundRobin_lt hpos hd)
      exact ⟨r', c', roundRobin_lt hpos hs, hr', hc', hdest, fun l hl => by rw [hlink] at hl; cases hl⟩
    · rintro p _ ⟨r', c', h⟩ ⟨l, vc', hm, rfl⟩
      exact ⟨r', c', (h.step hv hm).1⟩
  refine Traffic.acyclic_waits (channelRank rows cols) ?_
  rintro p _ chan chan' hp ⟨l, vc', hm, rfl⟩ hc hc'
  obtain ⟨l₀, hl₀, rfl⟩ := Option.map_eq_some_iff.mp hc
  cases hc'
  obtain ⟨r', c', h⟩ := hinv hp
  exact (h.step hv hm).2 l₀ hl₀

/-- **No cyclic waits on rings and tori.** With two or more virtual channels for each virtual network, no packets on a
bidirectional ring or on a torus wait for each other's channels in a cycle. The ports `buildRing` counts as crossing
the dateline are those of the two links that close the ring. -/
theorem dateline_acyclic {v : Nat} (hv : 2 ≤ v) :
    (∀ n e, 2 ≤ n → Acyclic (ring n e v).traffic.Waits ∧
      ∀ r o p, ((buildRing n e false).outports r)[o]? = some p →
        (((ring n e v).router r).isDatelineCrossing o = true ↔ ClosesRing n p)) ∧
      ∀ rows cols e, 0 < rows → 0 < cols → Acyclic (torus rows cols e v).traffic.Waits :=
  ⟨fun _ _ hn => ⟨acyclic_ring hn hv, fun _ _ _ hp => ring_isDatelineCrossing hn hp⟩,
    fun _ _ _ hrows hcols => acyclic_torus hrows hcols hv⟩

/-- A packet from router 0 to router 2 of a ring of four holds the first link while it waits for the second. -/
theorem dateline_acyclic_four :
    (ring 4 4 2).traffic.Waits (⟨0, 1, .East, .West⟩, 0) (⟨1, 2, .East, .West⟩, 0) ∧
      Acyclic (ring 4 4 2).traffic.Waits ∧ Acyclic (torus 3 3 9 2).traffic.Waits := by
  have hfirst : (ring 4 4 2).Moves ⟨0, 2, none, 0⟩ ⟨0, 1, .East, .West⟩ 0 :=
    ⟨by decide, .East, 1, by decide, by decide, by decide, by decide, by decide⟩
  have hsecond : (ring 4 4 2).Moves ⟨1, 2, some ⟨0, 1, .East, .West⟩, 0⟩ ⟨1, 2, .East, .West⟩ 0 :=
    ⟨by decide, .East, 2, by decide, by decide, by decide, by decide, by decide⟩
  have hstart : (ring 4 4 2).traffic.OnRoute ⟨0, 2, none, 0⟩ := .start ⟨rfl, 0, 2, by decide, by decide⟩
  refine ⟨⟨_, _, .step hstart ⟨_, _, hfirst, rfl⟩, ⟨_, _, hsecond, rfl⟩, by decide, by decide⟩, ?_, ?_⟩
  · exact ((dateline_acyclic (by decide)).1 4 4 (by decide)).1
  · exact (dateline_acyclic (by decide)).2 3 3 9 (by decide) (by decide)

end DatelineNet

end Pimid.Garnet
