import Pimid.Garnet.Custom
import Pimid.Garnet.VcClass
import Mathlib.Algebra.Order.Ring.Int

/-!
# Up and down classes make tree routing free of cyclic waits

Where the links of a file are both directions of a tree, `buildFromFile` finds it out
and names the ports by the depths. Every hop of a route is one link nearer to the
destination, so a packet that has come down does not go up again: the way up would
lead back to where it came from. Up links are taken in class 0 and down links in
class 1, and the channels are numbered first up the tree, then down it, then out.
-/

namespace Pimid.Garnet

/-! ## The classes of a hop -/

/-- The class both kinds of tree router ask for. -/
def upDownClass (vcPerVnet : Nat) (inDirn : PortDirection) (invc : Nat) (outDirn : PortDirection) : Nat :=
  if outDirn = .Down then 1
  else if inDirn = .Local then 0
  else vcClassOf vcPerVnet invc

/-- One shared class with one virtual channel. -/
def upDownRange (vcPerVnet vnet vcClass : Nat) : Nat × Nat :=
  if vcPerVnet ≤ 1 then (vnet * vcPerVnet, vnet * vcPerVnet + vcPerVnet) else getClassRange vcPerVnet vnet vcClass

def TreeRouter.targetClass := upDownClass
def TreeRouter.getClassRange := upDownRange
def BusArbiter.targetClass := upDownClass
def BusArbiter.getClassRange := upDownRange

inductive RouterKind where
  | Router
  | TreeRouter
  | BusArbiter
deriving DecidableEq, Repr

namespace TopoParsed

/-- A level outside 0 .. 6 counts as none. -/
def lvlOf (f : TopoParsed) (r : Nat) : Int :=
  match (Std.TreeMap.ofList f.routerLevel)[r]? with
  | some l => if 0 ≤ l ∧ l ≤ 6 then l else -1
  | none => -1

def kindOf (f : TopoParsed) (r : Nat) : RouterKind :=
  if f.isTree && f.busLevels.contains (f.lvlOf r) then .BusArbiter
  else if f.isTree then .TreeRouter
  else .Router

/-- The virtual channels `vc_allocate` takes one from. -/
def vcRange (f : TopoParsed) (vcPerVnet r : Nat) (inDirn : PortDirection) (invc : Nat) (outDirn : PortDirection) : Nat × Nat :=
  let vnet := invc / vcPerVnet
  match f.kindOf r with
  | .TreeRouter => TreeRouter.getClassRange vcPerVnet vnet (TreeRouter.targetClass vcPerVnet inDirn invc outDirn)
  | .BusArbiter => BusArbiter.getClassRange vcPerVnet vnet (BusArbiter.targetClass vcPerVnet inDirn invc outDirn)
  | .Router => (vnet * vcPerVnet, vnet * vcPerVnet + vcPerVnet)

end TopoParsed

/-! ## Packets -/

/-- A packet for an endpoint. `via` is the port it left its last router by, none before the first; it sits in virtual
channel `vc` behind it. -/
structure TablePacket where
  router : Nat
  dest : Nat
  via : Option Outport
  vc : Nat

/-- `get_direction()` of the inport. -/
def TablePacket.inDirn (p : TablePacket) : PortDirection :=
  match p.via with
  | some (.int l) => l.dstInport
  | _ => .Local

namespace TopoParsed

/-- The packet leaves by a candidate outport of its router, into a virtual channel of the class asked for. -/
structure Leaves (f : TopoParsed) (vcPerVnet : Nat) (p : TablePacket) (o : Outport) (vc' : Nat) : Prop where
  inside : ∀ e, p.via ≠ some (.ext e)
  out : ∃ i ∈ f.buildFromFile.candidates p.router p.dest, (f.buildFromFile.outports p.router)[i]? = some o
  lo : (f.vcRange vcPerVnet p.router p.inDirn p.vc o.direction).1 ≤ vc'
  hi : vc' < (f.vcRange vcPerVnet p.router p.inDirn p.vc o.direction).2

/-- The router behind an outport: an ejected packet stays. -/
def behind (r : Nat) : Outport → Nat
  | .ext _ => r
  | .int l => l.dst

/-- The packets between any two endpoints. The channel one holds is the link it came over, or was ejected by, with the
class. -/
def traffic (f : TopoParsed) (vcPerVnet : Nat) : Traffic TablePacket (Outport × Nat) where
  start p := p.via = none ∧ (∃ s, (s, p.router) ∈ f.buildFromFile.extLinks) ∧ ∃ home, (p.dest, home) ∈ f.buildFromFile.extLinks
  step p p' := ∃ o vc', f.Leaves vcPerVnet p o vc' ∧ p' = ⟨behind p.router o, p.dest, some o, vc'⟩
  held p := p.via.map fun o => (o, vcClassOf vcPerVnet p.vc)

/-! ## Trees -/

/-- The `int` lines are both directions of the edges of a tree rooted at router 0: every other router has a parent, one
level up. -/
structure TreeLinks (f : TopoParsed) (parent level : Nat → Nat) : Prop where
  root : level 0 = 0
  parent_lt : ∀ r, 0 < r → r < f.numRouters → parent r < f.numRouters
  level_parent : ∀ r, 0 < r → r < f.numRouters → level r = level (parent r) + 1
  edges : f.intEntries.Perm ((List.range' 1 (f.numRouters - 1)).flatMap fun r => [(r, parent r), (parent r, r)])

section Tree

variable {f : TopoParsed} {parent level : Nat → Nat}

theorem TreeLinks.mem_iff (h : f.TreeLinks parent level) {a b : Nat} : (a, b) ∈ f.intEntries ↔
    (0 < a ∧ a < f.numRouters ∧ b = parent a) ∨ (0 < b ∧ b < f.numRouters ∧ a = parent b) := by
  rw [h.edges.mem_iff, List.mem_flatMap]
  constructor
  · intro hmem
    obtain ⟨r, hr, hab⟩ := hmem
    rw [List.mem_range'_1] at hr
    rcases List.mem_cons.mp hab with heq | hab
    · obtain ⟨rfl, rfl⟩ := Prod.mk.inj heq
      exact .inl ⟨by omega, by omega, rfl⟩
    · obtain ⟨rfl, rfl⟩ := Prod.mk.inj (List.mem_singleton.mp hab)
      exact .inr ⟨by omega, by omega, rfl⟩
  · intro hab
    rcases hab with ⟨h0, hlt, rfl⟩ | ⟨h0, hlt, rfl⟩
    · exact ⟨a, by rw [List.mem_range'_1]; omega, List.mem_cons_self ..⟩
    · exact ⟨b, by rw [List.mem_range'_1]; omega, List.mem_cons_of_mem _ (List.mem_cons_self ..)⟩

theorem TreeLinks.length (h : f.TreeLinks parent level) : f.intEntries.length = (f.numRouters - 1) * 2 := by
  rw [h.edges.length_eq, List.length_flatMap]
  show ((List.range' 1 (f.numRouters - 1)).map fun _ => 2).sum = _
  rw [List.map_const', List.sum_replicate, List.length_range']
  rfl

theorem TreeLinks.level_edge (h : f.TreeLinks parent level) {l : IntLink} (hl : l ∈ f.buildFromFile.intLinks) :
    (l.dst = parent l.src ∧ level l.src = level l.dst + 1) ∨ (l.src = parent l.dst ∧ level l.dst = level l.src + 1) := by
  rcases h.mem_iff.mp (mem_intEntries_of_mem hl) with ⟨h0, hlt, heq⟩ | ⟨h0, hlt, heq⟩
  · exact .inl ⟨heq, by rw [heq]; exact h.level_parent _ h0 hlt⟩
  · exact .inr ⟨heq, by rw [heq]; exact h.level_parent _ h0 hlt⟩

theorem TreeLinks.isDist_level (h : f.TreeLinks parent level) {r : Nat} (hr : r < f.numRouters) :
    IsDist IntLink.src IntLink.dst f.buildFromFile.intLinks 0 r (level r) := by
  constructor
  · obtain ⟨n, hn⟩ : ∃ n, n = level r := ⟨_, rfl⟩
    induction n generalizing r with
    | zero =>
      have hr0 : r = 0 := by
        by_contra hne
        have := h.level_parent r (Nat.pos_of_ne_zero hne) hr
        omega
      exact ⟨[], hr0.symm, by rw [← hn]; rfl⟩
    | succ n ih =>
      have h0 : 0 < r := by
        refine Nat.pos_of_ne_zero fun hr0 => ?_
        rw [hr0, h.root] at hn
        cases hn
      have hlevel := h.level_parent r h0 hr
      obtain ⟨path, hpath, hlen⟩ := ih (h.parent_lt r h0 hr) (by omega)
      obtain ⟨l, hl, hs, rfl⟩ := exists_intLink (h.mem_iff.mpr (.inr ⟨h0, hr, rfl⟩))
      refine ⟨path ++ [l], (hs ▸ hpath : IsWalk _ _ _ 0 l.src path).snoc hl, ?_⟩
      rw [List.length_append, hlen, hlevel]
      rfl
  · -- no edge leads more than one level down
    have hbound : ∀ {path : List IntLink} {a b : Nat}, IsWalk IntLink.src IntLink.dst f.buildFromFile.intLinks a b path →
        level b ≤ level a + path.length := by
      intro path
      induction path with
      | nil =>
        intro a b hw
        rw [show a = b from hw]
        exact Nat.le_refl _
      | cons l path ih =>
        intro a b hw
        obtain ⟨hl, rfl, hrest⟩ := hw
        have := ih hrest
        rw [List.length_cons]
        rcases h.level_edge hl with ⟨-, hlev⟩ | ⟨-, hlev⟩ <;> omega
    intro path hpath
    have := hbound hpath
    rwa [h.root, Nat.zero_add] at this

theorem WellFormed.explored_bfs (hwf : f.WellFormed) :
    Explored IntLink.src IntLink.dst f.buildFromFile.intLinks 0 f.bfs.dist f.bfs.prev (fun _ => False) ∧
      Bfs.Counted (List.range f.numRouters) f.bfs := by
  have h0 : 0 ∈ List.range f.numRouters := List.mem_range.mpr hwf.pos
  refine Bfs.run_spec (lists_undirectedAdj f) List.nodup_range hwf.dst_mem (Bfs.ready_init 0)
    (Bfs.counted_init List.nodup_range h0) ?_
  rw [Bfs.todo_init List.nodup_range h0, List.length_range]

/-- **The builder sees the tree**, and its depths are the levels. -/
theorem TreeLinks.depth_eq (h : f.TreeLinks parent level) (hwf : f.WellFormed) :
    f.isTree = true ∧ ∀ r, r < f.numRouters → f.depth r = some (level r) := by
  obtain ⟨hex, hcount⟩ := hwf.explored_bfs
  have hlabel : ∀ r, r < f.numRouters → f.bfs.dist r = some (level r) := fun r hr => hex.dist_iff.mpr (h.isDist_level hr)
  have hvisited : f.bfs.visited = f.numRouters := by
    have hnone : (List.range f.numRouters).countP (fun r => f.bfs.dist r = none) = 0 := by
      refine List.countP_eq_zero.mpr fun r hr => ?_
      rw [hlabel r (List.mem_range.mp hr), decide_eq_true_eq]
      nofun
    have := hcount.visited
    rw [hnone, List.length_range] at this
    exact this
  have hrange : f.inRange = true := by
    refine List.all_eq_true.mpr fun e he => ?_
    obtain ⟨h₁, h₂⟩ := hwf.int_lt e he
    rw [decide_eq_true h₁, decide_eq_true h₂]
    rfl
  have htree : f.isTree = true := by
    unfold isTree
    rw [hrange, hvisited, h.length, beq_self_eq_true, beq_self_eq_true]
    rfl
  exact ⟨htree, fun r hr => by rw [depth, if_pos htree]; exact hlabel r hr⟩

/-- **The port names say where a link leads**: up to the parent, or down from it. -/
theorem TreeLinks.names (h : f.TreeLinks parent level) (hwf : f.WellFormed) {l : IntLink}
    (hl : l ∈ f.buildFromFile.intLinks) :
    (l.srcOutport = .Up ∧ l.dstInport = .Down ∧ l.dst = parent l.src ∧ level l.src = level l.dst + 1) ∨
    (l.srcOutport = .Down ∧ l.dstInport = .Up ∧ l.src = parent l.dst ∧ level l.dst = level l.src + 1) := by
  obtain ⟨-, hdepth⟩ := h.depth_eq hwf
  have hedge := h.level_edge hl
  obtain ⟨i, e, he, rfl⟩ := mem_intLinks.mp hl
  obtain ⟨hlt₁, hlt₂⟩ := hwf.int_lt e (List.mem_of_getElem? he)
  have hnames : f.portNames e i = if level e.2 > level e.1 then (.Down, .Up) else (.Up, .Down) := by
    unfold portNames
    rw [hdepth e.1 hlt₁, hdepth e.2 hlt₂]
    refine if_pos ?_
    rcases hedge with ⟨-, hlev⟩ | ⟨-, hlev⟩
    · exact fun heq => by have : level e.1 = level e.2 + 1 := hlev; omega
    · exact fun heq => by have : level e.2 = level e.1 + 1 := hlev; omega
  unfold intLink at hedge ⊢
  dsimp only at hedge ⊢
  rw [hnames]
  rcases hedge with ⟨hpar, hlev⟩ | ⟨hpar, hlev⟩
  · rw [if_neg (by omega)]
    exact .inl ⟨rfl, rfl, hpar, hlev⟩
  · rw [if_pos (by omega)]
    exact .inr ⟨rfl, rfl, hpar, hlev⟩

end Tree

/-! ## Routes -/

section Routes

variable {f : TopoParsed} {parent level : Nat → Nat} {v : Nat}

theorem TreeLinks.class_of_range (h : f.TreeLinks parent level) (hwf : f.WellFormed) (hv : 2 ≤ v) {r invc vc' : Nat}
    {inDirn outDirn : PortDirection} (hlo : (f.vcRange v r inDirn invc outDirn).1 ≤ vc')
    (hhi : vc' < (f.vcRange v r inDirn invc outDirn).2) : vcClassOf v vc' = upDownClass v inDirn invc outDirn := by
  have hrange : f.vcRange v r inDirn invc outDirn = getClassRange v (invc / v) (upDownClass v inDirn invc outDirn) := by
    have hkind : f.kindOf r = .TreeRouter ∨ f.kindOf r = .BusArbiter := by
      unfold kindOf
      rw [(h.depth_eq hwf).1]
      split
      · exact .inr rfl
      · exact .inl rfl
    have hshared : ¬v ≤ 1 := by omega
    unfold vcRange
    rcases hkind with hk | hk <;> (rw [hk]; exact if_neg hshared)
  have hcls : upDownClass v inDirn invc outDirn ≤ 1 := by
    unfold upDownClass
    split
    · exact Nat.le_refl 1
    · split
      · exact Nat.zero_le 1
      · exact vcClassOf_le v invc
  rw [hrange] at hlo hhi
  exact vcClassOf_of_range hv hcls hlo hhi

/-- A packet on its way came over a link one nearer to its destination, up in class 0 or down in class 1. -/
structure OnTheWay (f : TopoParsed) (v : Nat) (p : TablePacket) (l : IntLink) : Prop where
  mem : l ∈ f.buildFromFile.intLinks
  here : p.router = l.dst
  nearer : ∃ home n, (p.dest, home) ∈ f.buildFromFile.extLinks ∧
    IsDist IntLink.src IntLink.dst f.buildFromFile.intLinks l.src home (n + 1) ∧
    IsDist IntLink.src IntLink.dst f.buildFromFile.intLinks l.dst home n
  vcClass : vcClassOf v p.vc = if l.srcOutport = .Down then 1 else 0

/-- What holds of every packet on a route. -/
def Routed (f : TopoParsed) (v : Nat) (p : TablePacket) : Prop :=
  match p.via with
  | none => ∃ home n, (p.dest, home) ∈ f.buildFromFile.extLinks ∧
      IsDist IntLink.src IntLink.dst f.buildFromFile.intLinks p.router home n
  | some (.int l) => f.OnTheWay v p l
  | some (.ext _) => True

theorem TreeLinks.reachable (h : f.TreeLinks parent level) {a b : Nat} (ha : a < f.numRouters) (hb : b < f.numRouters) :
    ∃ n, IsDist IntLink.src IntLink.dst f.buildFromFile.intLinks a b n := by
  have hup : ∀ n r, r < f.numRouters → level r = n →
      ∃ path, IsWalk IntLink.src IntLink.dst f.buildFromFile.intLinks r 0 path := by
    intro n
    induction n with
    | zero =>
      intro r hr hlev
      refine ⟨[], ?_⟩
      by_contra hne
      have := h.level_parent r (Nat.pos_of_ne_zero hne) hr
      omega
    | succ n ih =>
      intro r hr hlev
      have h0 : 0 < r := by
        refine Nat.pos_of_ne_zero fun hr0 => ?_
        rw [hr0, h.root] at hlev
        cases hlev
      have := h.level_parent r h0 hr
      obtain ⟨path, hpath⟩ := ih (parent r) (h.parent_lt r h0 hr) (by omega)
      obtain ⟨l, hl, hs, hd⟩ := exists_intLink (h.mem_iff.mpr (.inl ⟨h0, hr, rfl⟩))
      exact ⟨l :: path, hl, hs, hd ▸ hpath⟩
  obtain ⟨up, hwalk⟩ := hup _ a ha rfl
  obtain ⟨⟨down, hdown, -⟩, -⟩ := h.isDist_level hb
  exact exists_isDist (hwalk.append hdown)

theorem TreeLinks.routed_start (h : f.TreeLinks parent level) (hwf : f.WellFormed) {p : TablePacket}
    (hp : (f.traffic v).start p) : f.Routed v p := by
  obtain ⟨hvia, ⟨s, hs⟩, home, hhome⟩ := hp
  unfold Routed
  rw [hvia]
  obtain ⟨n, hn⟩ := h.reachable (hwf.buildFromFile.ext_lt _ hs) (hwf.buildFromFile.ext_lt _ hhome)
  exact ⟨home, n, hhome, hn⟩

theorem Routed.distance {p : TablePacket} (h : f.Routed v p) (hin : ∀ e, p.via ≠ some (.ext e)) :
    ∃ home n, (p.dest, home) ∈ f.buildFromFile.extLinks ∧
      IsDist IntLink.src IntLink.dst f.buildFromFile.intLinks p.router home n := by
  unfold Routed at h
  split at h
  · exact h
  · next l hvia =>
    obtain ⟨home, n, hhome, -, hd⟩ := h.nearer
    exact ⟨home, n, hhome, h.here ▸ hd⟩
  · next e hvia => exact absurd hvia (hin e)

/-- A packet that came down goes on down: up is where it came from. -/
theorem TreeLinks.down_stays_down (h : f.TreeLinks parent level) (hwf : f.WellFormed) {p : TablePacket} {l l' : IntLink}
    (hl : f.OnTheWay v p l) (hdown : l.srcOutport = .Down) (hl' : l' ∈ f.buildFromFile.intLinks) (hs : l'.src = p.router)
    {home n : Nat} (hhome : (p.dest, home) ∈ f.buildFromFile.extLinks)
    (hd : IsDist IntLink.src IntLink.dst f.buildFromFile.intLinks l'.src home (n + 1))
    (hd' : IsDist IntLink.src IntLink.dst f.buildFromFile.intLinks l'.dst home n) : l'.srcOutport = .Down := by
  rcases h.names hwf hl' with ⟨-, -, hup, -⟩ | ⟨hdown', -⟩
  · exfalso
    rcases h.names hwf hl.mem with ⟨hup', -⟩ | ⟨-, -, hpar, -⟩
    · rw [hup'] at hdown
      cases hdown
    · obtain ⟨home', m, hhome', hm, hm'⟩ := hl.nearer
      have hsame : home' = home := by
        have h₁ := (Topology.getElem?_nodeToRouter hwf.buildFromFile).mpr hhome'
        rw [(Topology.getElem?_nodeToRouter hwf.buildFromFile).mpr hhome] at h₁
        exact (Option.some.inj h₁).symm
      subst hsame
      -- the parent of where the packet is, is where it was two links further on
      have hback : l'.dst = l.src := by rw [hup, hs, hl.here, ← hpar]
      rw [hback] at hd'
      rw [hs, hl.here] at hd
      have h₁ := hd.unique hm'
      have h₂ := hd'.unique hm
      omega
  · exact hdown'

/-- **One hop**: the link taken is one nearer, and in the class of its direction. -/
theorem TreeLinks.hop (h : f.TreeLinks parent level) (hwf : f.WellFormed) (hv : 2 ≤ v) {p : TablePacket} (hp : f.Routed v p)
    {l' : IntLink} {vc' : Nat} (hleave : f.Leaves v p (.int l') vc') :
    f.OnTheWay v ⟨l'.dst, p.dest, some (.int l'), vc'⟩ l' ∧
      ∀ l, p.via = some (.int l) → l'.src = l.dst ∧ (l.srcOutport = .Down → l'.srcOutport = .Down) := by
  obtain ⟨home, m, hhome, hm⟩ := hp.distance hleave.inside
  obtain ⟨i, hi, ho⟩ := hleave.out
  obtain ⟨o, ho', hd⟩ := Topology.mem_candidates.mp hi
  rw [ho] at ho'
  cases ho'
  have hcand := (Topology.candidate_nearer hwf.buildFromFile hhome hm (List.mem_of_getElem? ho)).mp hd
  cases m with
  | zero => cases hcand
  | succ n =>
    obtain ⟨l₀, hl₀, heq, hs, -, hdist⟩ := hcand
    cases heq
    have hdown : ∀ l, p.via = some (.int l) → l'.src = l.dst ∧ (l.srcOutport = .Down → l'.srcOutport = .Down) := by
      intro l hvia
      have hway : f.OnTheWay v p l := by
        unfold Routed at hp
        rw [hvia] at hp
        exact hp
      exact ⟨hs.trans hway.here, fun hd => h.down_stays_down hwf hway hd hl₀ hs hhome (hs ▸ hm) hdist⟩
    refine ⟨⟨hl₀, rfl, ⟨home, n, hhome, hs ▸ hm, hdist⟩, ?_⟩, hdown⟩
    show vcClassOf v vc' = _
    rw [h.class_of_range hwf hv hleave.lo hleave.hi]
    show upDownClass v p.inDirn p.vc l'.srcOutport = _
    unfold upDownClass
    by_cases hd' : l'.srcOutport = .Down
    · rw [if_pos hd', if_pos hd']
    · rw [if_neg hd', if_neg hd']
      -- up: the packet was injected here, or has come up in class 0
      unfold TablePacket.inDirn
      split
      · next l hvia =>
        have hway : f.OnTheWay v p l := by
          unfold Routed at hp
          rw [hvia] at hp
          exact hp
        have hup : ¬l.srcOutport = .Down := fun hd => hd' ((hdown l hvia).2 hd)
        rw [if_neg ?_, hway.vcClass, if_neg hup]
        rcases h.names hwf hway.mem with ⟨-, hin, -⟩ | ⟨hdn, -⟩
        · rw [hin]
          nofun
        · exact absurd hdn hup
      · exact if_pos rfl

theorem TreeLinks.routed_step (h : f.TreeLinks parent level) (hwf : f.WellFormed) (hv : 2 ≤ v) {p p' : TablePacket}
    (hp : f.Routed v p) (hs : (f.traffic v).step p p') : f.Routed v p' := by
  obtain ⟨o, vc', hleave, rfl⟩ := hs
  cases o with
  | ext e => exact trivial
  | int l => exact (h.hop hwf hv hp hleave).1

theorem TreeLinks.routed (h : f.TreeLinks parent level) (hwf : f.WellFormed) (hv : 2 ≤ v) {p : TablePacket}
    (hp : (f.traffic v).OnRoute p) : f.Routed v p :=
  hp.inv (h.routed_start hwf) fun hp hs => h.routed_step hwf hv hp hs

/-! ## The numbering -/

/-- First the up links, those of deeper routers before; then the down links; then the ejection links. -/
def channelRank (level : Nat → Nat) : Outport × Nat → ℕ ×ₗ ℤ
  | (.int l, _) => if l.srcOutport = .Down then toLex (1, (level l.dst : ℤ)) else toLex (0, -(level l.src : ℤ))
  | (.ext _, _) => toLex (2, 0)

theorem TreeLinks.rank_lt (h : f.TreeLinks parent level) (hwf : f.WellFormed) (hv : 2 ≤ v) {p p' : TablePacket}
    {c c' : Outport × Nat} (hp : (f.traffic v).OnRoute p) (hs : (f.traffic v).step p p')
    (hc : (f.traffic v).held p = some c) (hc' : (f.traffic v).held p' = some c') :
    channelRank level c < channelRank level c' := by
  obtain ⟨o', vc', hleave, rfl⟩ := hs
  obtain ⟨o, hvia, rfl⟩ := Option.map_eq_some_iff.mp hc
  cases hc'
  cases o with
  | ext e => exact absurd hvia (hleave.inside e)
  | int l =>
    have hl : l ∈ f.buildFromFile.intLinks := by
      have hr := h.routed hwf hv hp
      unfold Routed at hr
      rw [hvia] at hr
      exact hr.mem
    unfold channelRank
    cases o' with
    | ext e =>
      dsimp only
      split
      · exact Prod.Lex.toLex_lt_toLex.mpr (.inl (show (1 : ℕ) < 2 from Nat.one_lt_two))
      · exact Prod.Lex.toLex_lt_toLex.mpr (.inl (show (0 : ℕ) < 2 from Nat.zero_lt_two))
    | int l' =>
      obtain ⟨hway, hnext⟩ := h.hop hwf hv (h.routed hwf hv hp) hleave
      obtain ⟨hmeet, hdown⟩ := hnext l hvia
      dsimp only
      by_cases hd : l.srcOutport = .Down
      · rw [if_pos hd, if_pos (hdown hd)]
        refine Prod.Lex.toLex_lt_toLex.mpr (.inr ⟨rfl, ?_⟩)
        rcases h.names hwf hway.mem with ⟨hup, -⟩ | ⟨-, -, -, hlev⟩
        · rw [hdown hd] at hup
          cases hup
        · rw [hmeet] at hlev
          show (level l.dst : ℤ) < level l'.dst
          omega
      · rw [if_neg hd]
        by_cases hd' : l'.srcOutport = .Down
        · rw [if_pos hd']
          exact Prod.Lex.toLex_lt_toLex.mpr (.inl (show (0 : ℕ) < 1 from Nat.zero_lt_one))
        · rw [if_neg hd']
          refine Prod.Lex.toLex_lt_toLex.mpr (.inr ⟨rfl, ?_⟩)
          rcases h.names hwf hl with ⟨-, -, -, hlev⟩ | ⟨hdn, -⟩
          · show -(level l.src : ℤ) < -level l'.src
            rw [hmeet]
            omega
          · exact absurd hdn hd

theorem TreeLinks.stays_down (h : f.TreeLinks parent level) (hwf : f.WellFormed) (hv : 2 ≤ v) {p q : TablePacket}
    (hp : (f.traffic v).OnRoute p) (hq : Relation.ReflTransGen (f.traffic v).step p q) {l : IntLink}
    (hvia : p.via = some (.int l)) (hd : l.srcOutport = .Down) :
    (f.traffic v).OnRoute q ∧ ((∃ l', q.via = some (.int l') ∧ l'.srcOutport = .Down) ∨ ∃ e, q.via = some (.ext e)) := by
  induction hq with
  | refl => exact ⟨hp, .inl ⟨l, hvia, hd⟩⟩
  | tail _ hs ih =>
    obtain ⟨hon, hdown⟩ := ih
    refine ⟨.step hon hs, ?_⟩
    obtain ⟨o, vc', hleave, rfl⟩ := hs
    rcases hdown with ⟨l₁, hvia₁, hd₁⟩ | ⟨e, he⟩
    · cases o with
      | ext e => exact .inr ⟨e, rfl⟩
      | int l₂ => exact .inl ⟨l₂, rfl, ((h.hop hwf hv (h.routed hwf hv hon) hleave).2 l₁ hvia₁).2 hd₁⟩
    · exact absurd he (hleave.inside e)

/-- **Tree routing is free of cyclic waits.** Every link up is taken in class 0 and every link down in class 1, no packet
takes a link up after a link down, and the waits for links, ejection links included, form no cycle. -/
theorem upDown_acyclic (htree : f.TreeLinks parent level) (hwf : f.WellFormed) (hv : 2 ≤ v) :
    (∀ p l c, (f.traffic v).OnRoute p → (f.traffic v).held p = some (.int l, c) →
      (l.srcOutport = .Up ∧ l.dst = parent l.src ∧ c = 0) ∨ (l.srcOutport = .Down ∧ l.src = parent l.dst ∧ c = 1)) ∧
    (∀ p q l l', (f.traffic v).OnRoute p → Relation.ReflTransGen (f.traffic v).step p q → p.via = some (.int l) →
      q.via = some (.int l') → l.srcOutport = .Down → l'.srcOutport ≠ .Up) ∧
    Acyclic (f.traffic v).Waits := by
  refine ⟨fun p l c hp hc => ?_, fun p q l l' hp hq hl hl' hd hup => ?_, ?_⟩
  · obtain ⟨o, hvia, heq⟩ := Option.map_eq_some_iff.mp hc
    obtain ⟨rfl, rfl⟩ := Prod.mk.inj heq
    have hr := htree.routed hwf hv hp
    unfold Routed at hr
    rw [hvia] at hr
    have hcls := hr.vcClass
    rcases htree.names hwf hr.mem with ⟨hup, -, hpar, -⟩ | ⟨hdown, -, hpar, -⟩
    · rw [hup, if_neg nofun] at hcls
      exact .inl ⟨hup, hpar, hcls⟩
    · rw [hdown, if_pos rfl] at hcls
      exact .inr ⟨hdown, hpar, hcls⟩
  · rcases (htree.stays_down hwf hv hp hq hl hd).2 with ⟨l₁, hl₁, hd₁⟩ | ⟨e, he⟩
    · rw [hl'] at hl₁
      cases hl₁
      rw [hup] at hd₁
      cases hd₁
    · rw [hl'] at he
      cases he
  · exact Traffic.acyclic_waits (channelRank level) fun hp hs hc hc' => htree.rank_lt hwf hv hp hs hc hc'

/-- A root that is a shared bus, over two leaves. -/
theorem upDown_acyclic_bus_root :
    Acyclic ((⟨3, 2, [(0, 1), (1, 2)], [(1, 0), (0, 1), (2, 0), (0, 2)], [(0, 6)], [6]⟩ : TopoParsed).traffic 2).Waits := by
  have htree : (⟨3, 2, [(0, 1), (1, 2)], [(1, 0), (0, 1), (2, 0), (0, 2)], [(0, 6)], [6]⟩ : TopoParsed).TreeLinks
      (fun _ => 0) (fun r => if r = 0 then 0 else 1) := by
    refine ⟨rfl, fun _ _ _ => by decide, fun r h0 _ => ?_, .refl _⟩
    rw [if_neg (Nat.ne_of_gt h0)]
    rfl
  exact (upDown_acyclic htree ⟨by decide, by decide, by decide, by decide⟩ (by decide)).2.2

end Routes

end TopoParsed

end Pimid.Garnet
