import Pimid.Garnet.Topology
import Pimid.Lib.Maps
import Pimid.Lib.Search
import Mathlib.Data.List.Sort
import Mathlib.Data.Prod.Lex
import Mathlib.Order.Interval.Finset.Nat

/-!
# Routing tables

`createRoutingTable` runs Dijkstra's algorithm from every router, walks back from each
destination to the first hop, and writes into the entry of every link the endpoints
whose first hop it is. `lookupRoutingTable` takes any of the outports of least weight
whose entry has the destination.

Every link has weight 1, so Dijkstra's labels are distances in links. Each router's
table comes from its own shortest-path tree, but whatever the ties: the first hop
from a router at distance `n + 1` is at distance `n`. That alone makes every sequence
of choices deliver after the right number of links.
-/

namespace Pimid.Garnet

open Function (update update_of_ne update_self)

/-! ## First hops -/

/-- `dist` and `prev` are -1 or the largest integer where there is none. `pq` is the heap, least first. -/
structure Dijkstra where
  dist : Nat → Option Nat
  prev : Nat → Option Nat
  pq : List (Nat × Nat)

namespace Dijkstra

def init (src : Nat) : Dijkstra :=
  ⟨update (fun _ => none) src (some 0), fun _ => none, [(0, src)]⟩

/-- Distance first, then router. -/
def push (entry : Nat × Nat) (pq : List (Nat × Nat)) : List (Nat × Nat) :=
  pq.orderedInsert (fun a b => toLex a ≤ toLex b) entry

/-- `nd < dist[v]`. -/
def improves (nd : Nat) : Option Nat → Bool
  | none => true
  | some d => nd < d

/-- The link from `u` to `v`, of weight `w`. -/
def relax (u : Nat) (s : Dijkstra) : Nat × Nat → Dijkstra
  | (v, w) =>
    match s.dist u with
    | none => s
    | some d =>
      let nd := d + w
      if improves nd (s.dist v) then
        ⟨update s.dist v (some nd), update s.prev v (some u), push (nd, v) s.pq⟩
      else s

/-- Until the heap is empty. -/
def loop (adj : Nat → List (Nat × Nat)) : Nat → Dijkstra → Dijkstra
  | 0, s => s
  | fuel + 1, s =>
    match s.pq with
    | [] => s
    | (d, u) :: rest =>
      -- d > dist[u]: an entry that was improved on
      if (s.dist u).any (· < d) then loop adj fuel { s with pq := rest }
      else loop adj fuel ((adj u).foldl (relax u) { s with pq := rest })

end Dijkstra

/-- The builders leave every link's weight at its default. -/
def linkWeight : Nat := 1

namespace Topology

def adj (t : Topology) (r : Nat) : List (Nat × Nat) :=
  (t.intLinks.filter (·.src == r)).map fun l => (l.dst, linkWeight)

def dijkstra (t : Topology) (src : Nat) : Dijkstra :=
  Dijkstra.loop t.adj t.numRouters (Dijkstra.init src)

/-- `while (prev[cur] != src && prev[cur] != -1) cur = prev[cur];` -/
def traceBack (prev : Nat → Option Nat) (src : Nat) : Nat → Nat → Nat
  | 0, cur => cur
  | fuel + 1, cur =>
    match prev cur with
    | none => cur
    | some p => if p = src then cur else traceBack prev src fuel p

/-- The next router on the way from `src` to `dst`. The labels fall on the way back, so `dist[dst]` rounds are enough. -/
def nextHop (t : Topology) (src dst : Nat) : Option Nat :=
  let s := t.dijkstra src
  if dst = src then none
  else if s.prev dst = none then none
  else
    let cur := traceBack s.prev src ((s.dist dst).getD 0) dst
    if s.prev cur = some src then some cur else none

/-! ## Tables -/

def nodeToRouter (t : Topology) : Std.TreeMap Nat Nat :=
  Std.TreeMap.ofList t.extLinks

/-- The endpoints whose way from router `src` goes on to router `dst`. -/
def intEntry (t : Topology) (src dst : Nat) : List Nat :=
  (t.nodeToRouter.toList.filter fun n => n.2 != src && t.nextHop src n.2 == some dst).map (·.1)

/-- `routingTable_`, by router and neighbour; the endpoints are numbered after the routers. An entry is the same for
every virtual network. -/
def createRoutingTable (t : Topology) : Nat × Nat → List Nat :=
  let ext := t.extLinks.foldl (fun table l => update table (l.2, l.1 + t.numRouters) [l.1]) fun _ => []
  t.intLinks.foldl (fun table l => update table (l.src, l.dst) (t.intEntry l.src l.dst)) ext

/-- The table entry of an outport. -/
def entryOf (t : Topology) (router : Nat) : Outport → List Nat
  | .ext e => t.createRoutingTable (router, e + t.numRouters)
  | .int l => t.createRoutingTable (l.src, l.dst)

end Topology

def Outport.weight : Outport → Nat
  | ext _ => linkWeight
  | int _ => linkWeight

namespace Topology

/-- The outports of least weight (`INFINITE_` is 10000) that lead to the endpoint. -/
def candidates (t : Topology) (router dest : Nat) : List Nat :=
  let leads := (t.outports router).zipIdx.filter fun p => (t.entryOf router p.1).contains dest
  let minWeight := leads.foldl (fun m p => if p.1.weight ≤ m then p.1.weight else m) 10000
  (leads.filter (·.1.weight == minWeight)).map (·.2)

/-- The first candidate on an ordered virtual network, else any. `none` is the source's fatal error. -/
def lookupRoutingTable (t : Topology) (router dest : Nat) (ordered : Bool) (rand : Nat) : Option Nat :=
  let cs := t.candidates router dest
  if cs.isEmpty then none else cs[if ordered then 0 else rand % cs.length]?

/-- The links a packet takes from a router, and the endpoint it is ejected at. `rand k` is the number drawn at its `k`-th
router. -/
def deliver (t : Topology) (dest : Nat) (ordered : Bool) (rand : Nat → Nat) : Nat → Nat → Nat → Option (List IntLink × Nat)
  | 0, _, _ => none
  | fuel + 1, k, router => do
    let outport ← t.lookupRoutingTable router dest ordered (rand k)
    match (t.outports router)[outport]? with
    | some (.ext e) => some ([], e)
    | some (.int l) =>
      let (path, e) ← t.deliver dest ordered rand fuel (k + 1) l.dst
      some (l :: path, e)
    | none => none

/-- The links join routers, and every endpoint is attached to one router. -/
structure WellFormed (t : Topology) : Prop where
  src_lt : ∀ l ∈ t.intLinks, l.src < t.numRouters
  dst_lt : ∀ l ∈ t.intLinks, l.dst < t.numRouters
  ext_lt : ∀ x ∈ t.extLinks, x.2 < t.numRouters
  attached : (t.extLinks.map (·.1)).Nodup

end Topology

/-! ## Dijkstra's labels are distances -/

namespace Dijkstra

theorem mem_push {x e : Nat × Nat} {pq : List (Nat × Nat)} : x ∈ push e pq ↔ x = e ∨ x ∈ pq :=
  List.mem_orderedInsert _

theorem sorted_push {pq : List (Nat × Nat)} (e : Nat × Nat) (h : pq.Pairwise fun a b => toLex a ≤ toLex b) :
    (push e pq).Pairwise fun a b => toLex a ≤ toLex b := by
  have : Std.Total fun a b : Nat × Nat => toLex a ≤ toLex b := ⟨fun a b => le_total (toLex a) (toLex b)⟩
  have : IsTrans (Nat × Nat) fun a b => toLex a ≤ toLex b := ⟨fun a b c => le_trans⟩
  exact h.orderedInsert e

/-- What is in the heap has its label there, least first. -/
structure Heaped (s : Dijkstra) : Prop where
  entries : ∀ x ∈ s.pq, s.dist x.2 = some x.1
  sorted : s.pq.Pairwise fun a b => toLex a ≤ toLex b

/-- Between two pops. -/
structure Ready (t : Topology) (src : Nat) (s : Dijkstra) : Prop extends Heaped s where
  explored : Explored IntLink.src IntLink.dst t.intLinks src s.dist s.prev fun x => ∃ d, (d, x) ∈ s.pq

/-- `u` is off the heap and its links are being relaxed. -/
structure Relaxing (t : Topology) (src u n : Nat) (s : Dijkstra) : Prop extends Heaped s where
  label : s.dist u = some n
  least : ∀ x ∈ s.pq, n ≤ x.1
  explored : Explored IntLink.src IntLink.dst t.intLinks src s.dist s.prev fun x => (∃ d, (d, x) ∈ s.pq) ∨ x = u

/-- What is left to do. -/
def todo (t : Topology) (s : Dijkstra) : Nat :=
  s.pq.length + (List.range t.numRouters).countP fun r => s.dist r = none

section Steps

variable {t : Topology} {src u n : Nat} {s : Dijkstra} {l : IntLink}

/-- A router with a label is not improved: no path is shorter than its label. -/
theorem Relaxing.relax_labelled (h : Relaxing t src u n s) (hl : l ∈ t.intLinks) (hu : l.src = u) {m : Nat}
    (hm : s.dist l.dst = some m) : s.relax u (l.dst, linkWeight) = s := by
  have hle : m ≤ n + 1 := (h.explored.exact (hu ▸ h.label)).le_succ (h.explored.exact hm) hl
  unfold relax
  simp only [h.label]
  rw [hm]
  refine if_neg ?_
  show ¬decide (n + linkWeight < m) = true
  rw [decide_eq_true_eq]
  unfold linkWeight
  omega

theorem Relaxing.relax_unlabelled (h : Relaxing t src u n s) (hm : s.dist l.dst = none) :
    s.relax u (l.dst, linkWeight) = ⟨update s.dist l.dst (some (n + 1)), update s.prev l.dst (some u),
      push (n + 1, l.dst) s.pq⟩ := by
  unfold relax
  simp only [h.label]
  rw [hm]
  rfl

/-- **One link relaxed.** Its target has a label, the old labels stay, and the heap grows by what is newly labelled. -/
theorem Relaxing.relax (h : Relaxing t src u n s) (hwf : t.WellFormed) (hl : l ∈ t.intLinks) (hu : l.src = u) :
    Relaxing t src u n (s.relax u (l.dst, linkWeight)) ∧ (s.relax u (l.dst, linkWeight)).dist l.dst ≠ none ∧
    (∀ x m, s.dist x = some m → (s.relax u (l.dst, linkWeight)).dist x = some m) ∧
    todo t (s.relax u (l.dst, linkWeight)) = todo t s := by
  cases hm : s.dist l.dst with
  | some m =>
    rw [h.relax_labelled hl hu hm, hm]
    exact ⟨h, nofun, fun _ _ hx => hx, rfl⟩
  | none =>
    rw [h.relax_unlabelled hm]
    have hold : ∀ x m, s.dist x = some m → update s.dist l.dst (some (n + 1)) x = some m := by
      intro x m hx
      rw [update_of_ne]
      · exact hx
      · intro heq
        rw [heq, hm] at hx
        cases hx
    refine ⟨⟨⟨fun x hx => ?_, sorted_push _ h.sorted⟩, hold u n h.label, fun x hx => ?_, ?_⟩, ?_, hold, ?_⟩
    · rcases mem_push.mp hx with rfl | hx
      · exact update_self ..
      · exact hold _ _ (h.entries x hx)
    · rcases mem_push.mp hx with rfl | hx
      · exact Nat.le_succ n
      · exact h.least x hx
    · subst hu
      refine h.explored.label hl h.label (fun {x m} hx hxm => ?_) hm (fun {x} hx => ?_) ?_
      · rcases hx with ⟨d, hd⟩ | hx
        · have hd' : s.dist x = some d := h.entries _ hd
          rw [hd'] at hxm
          cases hxm
          exact h.least _ hd
        · rw [hx, h.label] at hxm
          cases hxm
          exact Nat.le_refl n
      · rcases hx with ⟨d, hd⟩ | hx
        · exact .inl ⟨d, mem_push.mpr (.inr hd)⟩
        · exact .inr hx
      · exact .inl ⟨n + 1, mem_push.mpr (.inl rfl)⟩
    · show update s.dist l.dst (some (n + 1)) l.dst ≠ none
      rw [update_self]
      nofun
    · have hcount := countP_update List.nodup_range (List.mem_range.mpr (hwf.dst_lt l hl)) s.dist (some (n + 1)) none
      rw [if_pos hm, if_neg nofun] at hcount
      show (push (n + 1, l.dst) s.pq).length +
        (List.range t.numRouters).countP (fun r => update s.dist l.dst (some (n + 1)) r = none) = todo t s
      rw [push, List.orderedInsert_length]
      unfold todo
      omega

theorem Relaxing.relaxAll (h : Relaxing t src u n s) (hwf : t.WellFormed) {ls : List IntLink}
    (hls : ∀ l ∈ ls, l ∈ t.intLinks ∧ l.src = u) :
    let s' := (ls.map fun l => (l.dst, linkWeight)).foldl (Dijkstra.relax u) s
    Relaxing t src u n s' ∧ (∀ l ∈ ls, s'.dist l.dst ≠ none) ∧ (∀ x m, s.dist x = some m → s'.dist x = some m) ∧
      todo t s' = todo t s := by
  induction ls generalizing s with
  | nil => exact ⟨h, nofun, fun _ _ hx => hx, rfl⟩
  | cons l ls ih =>
    obtain ⟨hl, hu⟩ := hls l (List.mem_cons_self ..)
    obtain ⟨hr, hd, hkeep, htodo⟩ := h.relax hwf hl hu
    obtain ⟨hr', hall, hkeep', htodo'⟩ := ih hr fun l hl => hls l (List.mem_cons_of_mem _ hl)
    refine ⟨hr', fun l' hl' => ?_, fun x m hx => hkeep' x m (hkeep x m hx), htodo'.trans htodo⟩
    rcases List.mem_cons.mp hl' with rfl | hl'
    · obtain ⟨m, hm⟩ := Option.ne_none_iff_exists'.mp hd
      exact Option.ne_none_iff_exists'.mpr ⟨m, hkeep' _ m hm⟩
    · exact hall l' hl'

/-- **One pop.** -/
theorem Ready.pop (h : Ready t src s) (hwf : t.WellFormed) {d : Nat} {rest : List (Nat × Nat)}
    (hpq : s.pq = (d, u) :: rest) :
    (s.dist u).any (· < d) = false ∧ Ready t src ((t.adj u).foldl (Dijkstra.relax u) { s with pq := rest }) ∧
      todo t ((t.adj u).foldl (Dijkstra.relax u) { s with pq := rest }) + 1 = todo t s := by
  have hlabel : s.dist u = some d := h.entries (d, u) (hpq ▸ List.mem_cons_self ..)
  have hsorted := h.sorted
  rw [hpq, List.pairwise_cons] at hsorted
  have hstart : Relaxing t src u d { s with pq := rest } := by
    refine ⟨⟨fun x hx => h.entries x (hpq ▸ List.mem_cons_of_mem _ hx), hsorted.2⟩, hlabel, fun x hx => ?_, ?_⟩
    · exact Prod.Lex.monotone_fst _ _ (hsorted.1 x hx)
    · refine h.explored.mono fun {x} hx => ?_
      obtain ⟨k, hk⟩ := hx
      rw [hpq] at hk
      rcases List.mem_cons.mp hk with heq | hk
      · exact .inr (Prod.mk.inj heq).2
      · exact .inl ⟨k, hk⟩
  have hls : ∀ l ∈ t.intLinks.filter (·.src == u), l ∈ t.intLinks ∧ l.src = u := by
    intro l hl
    obtain ⟨hl, hs⟩ := List.mem_filter.mp hl
    exact ⟨hl, beq_iff_eq.mp hs⟩
  obtain ⟨hr, hall, -, htodo⟩ := hstart.relaxAll hwf hls
  refine ⟨by rw [hlabel]; exact decide_eq_false (Nat.lt_irrefl d), ⟨hr.toHeaped, ?_⟩, ?_⟩
  · refine hr.explored.close (u := u) (fun l hl hs => ?_) fun hx => hx.symm
    exact hall l (List.mem_filter.mpr ⟨hl, beq_iff_eq.mpr hs⟩)
  · rw [show t.adj u = (t.intLinks.filter (·.src == u)).map fun l => (l.dst, linkWeight) from rfl, htodo]
    unfold todo
    rw [hpq, List.length_cons]
    show rest.length + (List.range t.numRouters).countP (fun r => s.dist r = none) + 1 = _
    omega

theorem Ready.loop (h : Ready t src s) (hwf : t.WellFormed) {fuel : Nat} (hfuel : todo t s ≤ fuel) :
    Explored IntLink.src IntLink.dst t.intLinks src (Dijkstra.loop t.adj fuel s).dist (Dijkstra.loop t.adj fuel s).prev
      fun _ => False := by
  have hdone : ∀ {s : Dijkstra}, Ready t src s → s.pq = [] →
      Explored IntLink.src IntLink.dst t.intLinks src s.dist s.prev fun _ => False := by
    intro s hs hnil
    refine hs.explored.mono fun {x} hx => ?_
    obtain ⟨d, hd⟩ := hx
    rw [hnil] at hd
    cases hd
  induction fuel generalizing s with
  | zero =>
    have hnil : s.pq = [] := List.length_eq_zero_iff.mp (by unfold todo at hfuel; omega)
    exact hdone h hnil
  | succ fuel ih =>
    unfold Dijkstra.loop
    split
    · next hnil => exact hdone h hnil
    · next d u rest hpq =>
      obtain ⟨hfresh, hr, htodo⟩ := h.pop hwf hpq
      rw [if_neg (by rw [hfresh]; nofun)]
      exact ih hr (by omega)

end Steps

end Dijkstra

namespace Topology

variable {t : Topology} {src dst n : Nat}

theorem explored_dijkstra (hwf : t.WellFormed) (hsrc : src < t.numRouters) :
    Explored IntLink.src IntLink.dst t.intLinks src (t.dijkstra src).dist (t.dijkstra src).prev fun _ => False := by
  have hready : Dijkstra.Ready t src (Dijkstra.init src) := by
    refine ⟨⟨fun x hx => ?_, List.pairwise_singleton _ _⟩, (Explored.init src).mono fun heq => ⟨0, ?_⟩⟩
    · rw [List.mem_singleton.mp hx]
      show update (fun _ => none) src (some 0) src = some 0
      rw [update_self]
    · rw [heq]
      exact List.mem_singleton.mpr rfl
  refine hready.loop hwf ?_
  have hcount := countP_update List.nodup_range (List.mem_range.mpr hsrc) (fun _ => (none : Option Nat)) (some 0) none
  rw [if_pos rfl, if_neg nofun] at hcount
  have hle := List.countP_le_length (p := fun _ => decide ((none : Option Nat) = none)) (l := List.range t.numRouters)
  rw [List.length_range] at hle
  show 1 + (List.range t.numRouters).countP (fun r => update (fun _ => none) src (some 0) r = (none : Option Nat)) ≤ _
  omega

/-! ## The first hop is one link nearer -/

section TraceBack

variable {dist prev : Nat → Option Nat} {src : Nat}

/-- The walk back ends at a neighbour of the source, with the way on from there behind it. -/
theorem traceBack_spec (h : Explored IntLink.src IntLink.dst t.intLinks src dist prev fun _ => False) {fuel k cur : Nat}
    (hcur : dist cur = some (k + 1)) (hfuel : k ≤ fuel) {path : List IntLink}
    (hpath : IsWalk IntLink.src IntLink.dst t.intLinks cur dst path) :
    prev (traceBack prev src fuel cur) = some src ∧ ∃ path',
      IsWalk IntLink.src IntLink.dst t.intLinks (traceBack prev src fuel cur) dst path' ∧
      path'.length = path.length + k := by
  have hne : cur ≠ src := by
    intro heq
    rw [heq, h.root_dist] at hcur
    cases hcur
  obtain ⟨p, hp⟩ := h.has_prev hcur hne
  obtain ⟨e, he, hsrc, hdst, m, hm, hm'⟩ := h.prev_edge hp
  have hmk : m = k := by
    rw [hm'] at hcur
    exact Nat.succ.inj (Option.some.inj hcur)
  subst hmk
  by_cases hps : p = src
  · have hk : m = 0 := by
      rw [hps, h.root_dist] at hm
      exact (Option.some.inj hm).symm
    have hstop : traceBack prev src fuel cur = cur := by
      cases fuel with
      | zero => rfl
      | succ fuel => rw [traceBack, hp]; exact if_pos hps
    rw [hstop]
    exact ⟨hps ▸ hp, path, hpath, by rw [hk]; rfl⟩
  · -- `p` is not the source, so it has a label above 0 and the walk goes on
    cases m with
    | zero =>
      obtain ⟨⟨q, hq, hlen⟩, -⟩ := h.exact hm
      rw [List.length_eq_zero_iff.mp hlen] at hq
      exact absurd (show src = p from hq).symm hps
    | succ m =>
      cases fuel with
      | zero => omega
      | succ fuel =>
        rw [traceBack, hp]
        simp only [hps, if_false]
        subst hsrc
        have hlonger : IsWalk IntLink.src IntLink.dst t.intLinks e.src dst (e :: path) := ⟨he, rfl, hdst ▸ hpath⟩
        obtain ⟨hprev, path', hpath', hlen⟩ := traceBack_spec h hm (Nat.le_of_succ_le_succ hfuel) hlonger
        refine ⟨hprev, path', hpath', ?_⟩
        rw [hlen, List.length_cons]
        omega

end TraceBack

/-- **The first hop** towards a router at distance `n + 1` is a neighbour at distance `n` from it. -/
theorem nextHop_spec (hwf : t.WellFormed) (hd : IsDist IntLink.src IntLink.dst t.intLinks src dst (n + 1)) :
    ∃ r, t.nextHop src dst = some r ∧ (∃ l ∈ t.intLinks, l.src = src ∧ l.dst = r) ∧
      IsDist IntLink.src IntLink.dst t.intLinks r dst n := by
  have hsrc : src < t.numRouters := by
    obtain ⟨⟨path, hpath, hlen⟩, -⟩ := hd
    cases path with
    | nil => cases hlen
    | cons e path => exact hpath.2.1 ▸ hwf.src_lt e hpath.1
  have hex := explored_dijkstra hwf hsrc
  have hdist : (t.dijkstra src).dist dst = some (n + 1) := hex.dist_iff.mpr hd
  have hne : dst ≠ src := by
    intro heq
    rw [heq, hex.root_dist] at hdist
    cases hdist
  obtain ⟨p, hp⟩ := hex.has_prev hdist hne
  have hhere : IsWalk IntLink.src IntLink.dst t.intLinks dst dst [] := rfl
  obtain ⟨hprev, path, hpath, hlen⟩ := traceBack_spec hex hdist (Nat.le_succ n) hhere
  obtain ⟨e, he, hes, hed, -⟩ := hex.prev_edge hprev
  refine ⟨traceBack (t.dijkstra src).prev src (n + 1) dst, ?_, ⟨e, he, hes, hed⟩, ⟨path, hpath, ?_⟩, fun q hq => ?_⟩
  · unfold nextHop
    simp only [hne, if_false, hp, hdist, Option.getD_some]
    rw [if_neg nofun, if_pos hprev]
  · rw [hlen]
    exact Nat.zero_add n
  · have := hd.2 (e :: q) ⟨he, hes, hed ▸ hq⟩
    rw [List.length_cons] at this
    omega

/-! ## What the entries hold -/

theorem foldl_update_other {α β γ : Type} [DecidableEq α] {key : γ → α} {val : γ → β} {k : α} {xs : List γ} (f : α → β)
    (h : ∀ x ∈ xs, key x ≠ k) : xs.foldl (fun f x => update f (key x) (val x)) f k = f k := by
  induction xs generalizing f with
  | nil => rfl
  | cons x xs ih =>
    rw [List.foldl_cons, ih _ fun y hy => h y (List.mem_cons_of_mem _ hy),
      update_of_ne (h x (List.mem_cons_self ..)).symm]

/-- A key whose elements all have the same value has that value. -/
theorem foldl_update_same {α β γ : Type} [DecidableEq α] {key : γ → α} {val : γ → β} {k : α} {v : β} {xs : List γ}
    (f : α → β) (h : ∀ x ∈ xs, key x = k → val x = v) (hmem : ∃ x ∈ xs, key x = k) :
    xs.foldl (fun f x => update f (key x) (val x)) f k = v := by
  induction xs generalizing f with
  | nil =>
    obtain ⟨x, hx, -⟩ := hmem
    cases hx
  | cons x xs ih =>
    rw [List.foldl_cons]
    by_cases hrest : ∃ y ∈ xs, key y = k
    · exact ih _ (fun y hy => h y (List.mem_cons_of_mem _ hy)) hrest
    · have hother : ∀ y ∈ xs, key y ≠ k := fun y hy hk => hrest ⟨y, hy, hk⟩
      obtain ⟨y, hy, hk⟩ := hmem
      rcases List.mem_cons.mp hy with rfl | hy
      · rw [foldl_update_other _ hother, ← hk, update_self]
        exact h y (List.mem_cons_self ..) hk
      · exact absurd hk (hother y hy)

theorem getElem?_nodeToRouter (hwf : t.WellFormed) {d r : Nat} : t.nodeToRouter[d]? = some r ↔ (d, r) ∈ t.extLinks := by
  have hdistinct : t.extLinks.Pairwise fun a b => ¬compare a.1 b.1 = .eq := by
    refine (List.pairwise_map.mp hwf.attached).imp fun hne heq => hne ?_
    exact Nat.compare_eq_eq.mp heq
  constructor
  · intro h
    by_cases hmem : ∃ r', (d, r') ∈ t.extLinks
    · obtain ⟨r', hr'⟩ := hmem
      have := Std.TreeMap.getElem?_ofList_of_mem (Nat.compare_eq_eq.mpr rfl) hdistinct hr'
      rw [show t.nodeToRouter[d]? = some r' from this] at h
      cases h
      exact hr'
    · have hnone : (t.extLinks.map Prod.fst).contains d = false := by
        rw [Bool.eq_false_iff]
        intro hc
        obtain ⟨x, hx, rfl⟩ := List.mem_map.mp (List.contains_iff_mem.mp hc)
        exact hmem ⟨x.2, hx⟩
      have : t.nodeToRouter[d]? = none := Std.TreeMap.getElem?_ofList_of_contains_eq_false hnone
      rw [this] at h
      cases h
  · exact Std.TreeMap.getElem?_ofList_of_mem (Nat.compare_eq_eq.mpr rfl) hdistinct

theorem mem_intEntry (hwf : t.WellFormed) {d a b : Nat} :
    d ∈ t.intEntry a b ↔ ∃ r, (d, r) ∈ t.extLinks ∧ r ≠ a ∧ t.nextHop a r = some b := by
  unfold intEntry
  constructor
  · intro h
    obtain ⟨⟨d', r⟩, hmem, rfl⟩ := List.mem_map.mp h
    obtain ⟨hmem, hcond⟩ := List.mem_filter.mp hmem
    obtain ⟨hne, hnext⟩ := Bool.and_eq_true_iff.mp hcond
    refine ⟨r, ?_, bne_iff_ne.mp hne, beq_iff_eq.mp hnext⟩
    exact (getElem?_nodeToRouter hwf).mp (Std.TreeMap.mem_toList_iff_getElem?_eq_some.mp hmem)
  · intro h
    obtain ⟨r, hr, hne, hnext⟩ := h
    refine List.mem_map.mpr ⟨(d, r), List.mem_filter.mpr ⟨?_, ?_⟩, rfl⟩
    · exact Std.TreeMap.mem_toList_iff_getElem?_eq_some.mpr ((getElem?_nodeToRouter hwf).mpr hr)
    · exact Bool.and_eq_true_iff.mpr ⟨bne_iff_ne.mpr hne, beq_iff_eq.mpr hnext⟩

theorem entryOf_ext (hwf : t.WellFormed) {e r : Nat} (he : (e, r) ∈ t.extLinks) : t.entryOf r (.ext e) = [e] := by
  unfold entryOf createRoutingTable
  dsimp only
  rw [foldl_update_other]
  · refine foldl_update_same _ (fun x _ hk => ?_) ⟨(e, r), he, rfl⟩
    have : x.1 = e := Nat.add_right_cancel (Prod.mk.inj hk).2
    rw [this]
  · -- the endpoints' numbers are above the routers'
    intro l hl hk
    have hlt := hwf.dst_lt l hl
    have := (Prod.mk.inj hk).2
    omega

theorem entryOf_int {l : IntLink} (hl : l ∈ t.intLinks) (r : Nat) : t.entryOf r (.int l) = t.intEntry l.src l.dst := by
  unfold entryOf createRoutingTable
  dsimp only
  refine foldl_update_same _ (fun x _ hk => ?_) ⟨l, hl, rfl⟩
  obtain ⟨hs, hd⟩ := Prod.mk.inj hk
  rw [hs, hd]

/-! ## Candidates -/

theorem weight_eq (p : Outport) : p.weight = 1 := by
  cases p <;> rfl

theorem mem_candidates {r d i : Nat} :
    i ∈ t.candidates r d ↔ ∃ p, (t.outports r)[i]? = some p ∧ d ∈ t.entryOf r p := by
  have hkeep : ∀ ps : List (Outport × Nat), ps.foldl (fun m p => if p.1.weight ≤ m then p.1.weight else m) 1 = 1 := by
    intro ps
    induction ps with
    | nil => rfl
    | cons p ps ih => rw [List.foldl_cons, weight_eq, if_pos (Nat.le_refl 1), ih]
  have hmin : ∀ ps : List (Outport × Nat), ps ≠ [] →
      ps.foldl (fun m p => if p.1.weight ≤ m then p.1.weight else m) 10000 = 1 := by
    intro ps hne
    cases ps with
    | nil => exact absurd rfl hne
    | cons p ps => rw [List.foldl_cons, weight_eq, if_pos (by decide), hkeep]
  unfold candidates
  dsimp only
  rw [List.mem_map]
  constructor
  · intro h
    obtain ⟨⟨p, j⟩, hp, rfl⟩ := h
    obtain ⟨hp, hc⟩ := List.mem_filter.mp (List.mem_filter.mp hp).1
    exact ⟨p, List.mem_zipIdx_iff_getElem?.mp hp, List.contains_iff_mem.mp hc⟩
  · intro h
    obtain ⟨p, hp, hd⟩ := h
    have hlead : (p, i) ∈ (t.outports r).zipIdx.filter fun p => (t.entryOf r p.1).contains d :=
      List.mem_filter.mpr ⟨List.mem_zipIdx_iff_getElem?.mpr hp, List.contains_iff_mem.mpr hd⟩
    refine ⟨(p, i), List.mem_filter.mpr ⟨hlead, ?_⟩, rfl⟩
    rw [hmin _ (List.ne_nil_of_mem hlead)]
    exact beq_iff_eq.mpr (weight_eq p)

/-! ## Delivery -/

variable {r d home : Nat}

/-- At the destination's router its own port is the candidate; further away, the ports one link nearer are. -/
theorem candidate_nearer (hwf : t.WellFormed) (hhome : (d, home) ∈ t.extLinks)
    (hd : IsDist IntLink.src IntLink.dst t.intLinks r home n) {p : Outport} (hp : p ∈ t.outports r) :
    d ∈ t.entryOf r p ↔ match n with
      | 0 => p = .ext d
      | n + 1 => ∃ l ∈ t.intLinks, p = .int l ∧ l.src = r ∧ t.nextHop r home = some l.dst ∧
          IsDist IntLink.src IntLink.dst t.intLinks l.dst home n := by
  have hhere : ∀ {r' : Nat}, (d, r') ∈ t.extLinks → r' = home := by
    intro r' hr'
    have h₁ := (getElem?_nodeToRouter hwf).mpr hr'
    rw [(getElem?_nodeToRouter hwf).mpr hhome] at h₁
    exact (Option.some.inj h₁).symm
  cases n with
  | zero =>
    have hr : r = home := by
      obtain ⟨⟨path, hpath, hlen⟩, -⟩ := hd
      rw [List.length_eq_zero_iff.mp hlen] at hpath
      exact hpath
    subst hr
    rcases mem_outports.mp hp with ⟨e, he, rfl⟩ | ⟨l, hl, hs, rfl⟩
    · rw [entryOf_ext hwf he]
      simp only [List.mem_singleton, Outport.ext.injEq]
      exact eq_comm
    · rw [entryOf_int hl, mem_intEntry hwf]
      refine ⟨fun h => ?_, nofun⟩
      obtain ⟨r', hr', hne, -⟩ := h
      exact absurd ((hhere hr').trans hs.symm) hne
  | succ n =>
    have hne : home ≠ r := by
      intro heq
      have := hd.2 [] heq.symm
      cases this
    obtain ⟨next, hnext, -, hdist⟩ := nextHop_spec hwf hd
    rcases mem_outports.mp hp with ⟨e, he, rfl⟩ | ⟨l, hl, hs, rfl⟩
    · rw [entryOf_ext hwf he, List.mem_singleton]
      refine ⟨fun h => ?_, fun h => ?_⟩
      · rw [← h] at he
        exact absurd (hhere he).symm hne
      · obtain ⟨l, -, heq, -⟩ := h
        cases heq
    · rw [entryOf_int hl, mem_intEntry hwf, hs]
      constructor
      · intro h
        obtain ⟨r', hr', -, hhop⟩ := h
        rw [hhere hr'] at hhop
        rw [hhop] at hnext
        cases hnext
        exact ⟨l, hl, rfl, hs, hhop, hdist⟩
      · intro h
        obtain ⟨l', -, heq, -, hhop, -⟩ := h
        cases heq
        exact ⟨home, hhome, hne, hhop⟩

theorem candidates_ne_nil (hwf : t.WellFormed) (hhome : (d, home) ∈ t.extLinks)
    (hd : IsDist IntLink.src IntLink.dst t.intLinks r home n) : t.candidates r d ≠ [] := by
  have hport : ∃ p ∈ t.outports r, d ∈ t.entryOf r p := by
    cases n with
    | zero =>
      obtain ⟨⟨path, hpath, hlen⟩, -⟩ := id hd
      rw [List.length_eq_zero_iff.mp hlen] at hpath
      have hp : Outport.ext d ∈ t.outports r := mem_outports.mpr (.inl ⟨d, (show r = home from hpath) ▸ hhome, rfl⟩)
      exact ⟨_, hp, (candidate_nearer hwf hhome hd hp).mpr rfl⟩
    | succ n =>
      obtain ⟨next, hnext, ⟨l, hl, hs, hdst⟩, hdist⟩ := nextHop_spec hwf hd
      have hp : Outport.int l ∈ t.outports r := mem_outports.mpr (.inr ⟨l, hl, hs, rfl⟩)
      exact ⟨_, hp, (candidate_nearer hwf hhome hd hp).mpr ⟨l, hl, rfl, hs, hdst ▸ hnext, hdst ▸ hdist⟩⟩
  obtain ⟨p, hp, hdp⟩ := hport
  obtain ⟨i, hi⟩ := List.mem_iff_getElem?.mp hp
  exact List.ne_nil_of_mem (mem_candidates.mpr ⟨p, hi, hdp⟩)

theorem lookupRoutingTable_mem (hne : t.candidates r d ≠ []) (ordered : Bool) (rand : Nat) :
    ∃ i ∈ t.candidates r d, t.lookupRoutingTable r d ordered rand = some i := by
  have hpos : 0 < (t.candidates r d).length := List.length_pos_of_ne_nil hne
  have hlt : (if ordered then 0 else rand % (t.candidates r d).length) < (t.candidates r d).length := by
    split
    · exact hpos
    · exact Nat.mod_lt _ hpos
  refine ⟨_, List.getElem_mem hlt, ?_⟩
  unfold lookupRoutingTable
  dsimp only
  rw [if_neg (by rw [List.isEmpty_iff]; exact hne), List.getElem?_eq_getElem hlt]

/-- **Whatever is chosen on the way, the packet goes along a shortest path and is ejected at its destination.** -/
theorem deliver_spec (hwf : t.WellFormed) (hhome : (d, home) ∈ t.extLinks)
    (hd : IsDist IntLink.src IntLink.dst t.intLinks r home n) (ordered : Bool) (rand : Nat → Nat) {fuel k : Nat}
    (hfuel : n < fuel) : ∃ path, t.deliver d ordered rand fuel k r = some (path, d) ∧ path.length = n ∧
      IsWalk IntLink.src IntLink.dst t.intLinks r home path := by
  induction n generalizing r fuel k with
  | zero =>
    obtain ⟨fuel, rfl⟩ : ∃ f, fuel = f + 1 := ⟨fuel - 1, by omega⟩
    obtain ⟨i, hi, hlook⟩ := lookupRoutingTable_mem (candidates_ne_nil hwf hhome hd) ordered (rand k)
    obtain ⟨p, hp, hdp⟩ := mem_candidates.mp hi
    have hpd : p = .ext d := (candidate_nearer hwf hhome hd (List.mem_of_getElem? hp)).mp hdp
    obtain ⟨⟨path, hpath, hlen⟩, -⟩ := hd
    rw [List.length_eq_zero_iff.mp hlen] at hpath
    refine ⟨[], ?_, rfl, hpath⟩
    rw [deliver, hlook]
    simp only [Option.bind_eq_bind, Option.bind_some]
    rw [hp, hpd]
  | succ n ih =>
    obtain ⟨fuel, rfl⟩ : ∃ f, fuel = f + 1 := ⟨fuel - 1, by omega⟩
    obtain ⟨i, hi, hlook⟩ := lookupRoutingTable_mem (candidates_ne_nil hwf hhome hd) ordered (rand k)
    obtain ⟨p, hp, hdp⟩ := mem_candidates.mp hi
    obtain ⟨l, hl, rfl, hs, -, hdist⟩ := (candidate_nearer hwf hhome hd (List.mem_of_getElem? hp)).mp hdp
    obtain ⟨path, hdel, hlen, hwalk⟩ := ih hdist (k := k + 1) (Nat.lt_of_succ_lt_succ hfuel)
    refine ⟨l :: path, ?_, by rw [List.length_cons, hlen], ⟨hl, hs, hwalk⟩⟩
    rw [deliver, hlook]
    simp only [Option.bind_eq_bind, Option.bind_some]
    rw [hp]
    simp only [hdel, Option.bind_some]

end Topology

end Pimid.Garnet
