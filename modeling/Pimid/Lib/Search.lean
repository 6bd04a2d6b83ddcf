import Pimid.Lib.Walks
import Pimid.Lib.Places

/-!
# Shortest paths by labelling

A search labels vertices with their distance from a root and keeps those it has not
expanded yet. If it always expands one of the smallest label, a vertex without a
label is further away than every vertex expanded so far, so the label it gets is its
distance. Breadth-first search with a queue is such a search, and so is Dijkstra's
on edges of one weight.
-/

namespace Pimid

open Function (update update_of_ne update_self)

variable {V E : Type} {src dst : E → V} {links : List E}

/-! ## Walks end to end -/

theorem IsWalk.append {a b c : V} {p q : List E} (hp : IsWalk src dst links a b p) (hq : IsWalk src dst links b c q) :
    IsWalk src dst links a c (p ++ q) := by
  induction p generalizing a with
  | nil =>
    rw [show a = b from hp]
    exact hq
  | cons e p ih => exact ⟨hp.1, hp.2.1, ih hp.2.2⟩

theorem IsWalk.snoc {a : V} {p : List E} {e : E} (hp : IsWalk src dst links a (src e) p) (he : e ∈ links) :
    IsWalk src dst links a (dst e) (p ++ [e]) :=
  hp.append ⟨he, rfl, rfl⟩

theorem IsDist.le_succ {a : V} {e : E} {m n : Nat} (hm : IsDist src dst links a (src e) m)
    (hn : IsDist src dst links a (dst e) n) (he : e ∈ links) : n ≤ m + 1 := by
  obtain ⟨⟨p, hp, rfl⟩, -⟩ := hm
  have := hn.2 _ (hp.snoc he)
  rwa [List.length_append] at this

theorem exists_isDist {a b : V} {path : List E} (h : IsWalk src dst links a b path) :
    ∃ n, IsDist src dst links a b n := by
  classical
  have hex : ∃ n, ∃ p, IsWalk src dst links a b p ∧ p.length = n := ⟨_, path, h, rfl⟩
  exact ⟨Nat.find hex, Nat.find_spec hex, fun p hp => Nat.find_min' hex ⟨p, hp, rfl⟩⟩

theorem IsDist.lt_length {verts : List V} {a b : V} {n : Nat} (hmem : ∀ e ∈ links, dst e ∈ verts) (ha : a ∈ verts)
    (h : IsDist src dst links a b n) : n < verts.length := by
  obtain ⟨⟨path, hpath, rfl⟩, hmin⟩ := h
  have hsplit : ∀ (p q : List E) (u : V), u ∈ verts → IsWalk src dst links u b (p ++ q) →
      ∃ c ∈ verts, IsWalk src dst links u c p ∧ IsWalk src dst links c b q := by
    intro p q
    induction p with
    | nil => exact fun u hu hw => ⟨u, hu, rfl, hw⟩
    | cons e p ih =>
      intro u hu hw
      obtain ⟨c, hc, hp, hq⟩ := ih (dst e) (hmem e hw.1) hw.2.2
      exact ⟨c, hc, ⟨hw.1, hw.2.1, hp⟩, hq⟩
  -- the vertices on the way are at all the distances up to its length
  have hat : ∀ i, ∃ c, i ≤ path.length → c ∈ verts ∧ IsDist src dst links a c i := by
    intro i
    obtain ⟨c, hc, hp, hq⟩ := hsplit (path.take i) (path.drop i) a ha (by rwa [List.take_append_drop])
    refine ⟨c, fun hi => ⟨hc, ⟨_, hp, List.length_take_of_le hi⟩, fun p' hp' => ?_⟩⟩
    have hlen := hmin _ (hp'.append hq)
    rw [List.length_append, List.length_drop] at hlen
    omega
  choose c hc using hat
  have hnodup : ((List.range (path.length + 1)).map c).Nodup := by
    refine List.Nodup.map_on (fun i hi j hj heq => ?_) List.nodup_range
    have hdi := (hc i (Nat.lt_succ_iff.mp (List.mem_range.mp hi))).2
    rw [heq] at hdi
    exact hdi.unique (hc j (Nat.lt_succ_iff.mp (List.mem_range.mp hj))).2
  have hsub : (List.range (path.length + 1)).map c ⊆ verts := by
    intro x hx
    obtain ⟨i, hi, rfl⟩ := List.mem_map.mp hx
    exact (hc i (Nat.lt_succ_iff.mp (List.mem_range.mp hi))).1
  have hle := (List.subperm_of_subset hnodup hsub).length_le
  rwa [List.length_map, List.length_range] at hle

/-! ## Labels -/

/-- What a search from `root` knows: the labels given are distances, each but the root's came over the edge from
`prev`, and beyond the vertices still `pending` nothing labelled has an edge to something that is not. -/
structure Explored (src dst : E → V) (links : List E) (root : V) (dist : V → Option Nat) (prev : V → Option V)
    (pending : V → Prop) : Prop where
  root_dist : dist root = some 0
  root_prev : prev root = none
  exact : ∀ {v n}, dist v = some n → IsDist src dst links root v n
  prev_edge : ∀ {v u}, prev v = some u → ∃ e ∈ links, src e = u ∧ dst e = v ∧ ∃ n, dist u = some n ∧ dist v = some (n + 1)
  has_prev : ∀ {v n}, dist v = some n → v ≠ root → ∃ u, prev v = some u
  closed : ∀ {e}, e ∈ links → dist (src e) ≠ none → ¬pending (src e) → dist (dst e) ≠ none

namespace Explored

variable {root : V} {dist : V → Option Nat} {prev : V → Option V} {pending : V → Prop}

/-- On the way from a labelled vertex to one without a label, a pending vertex is passed. -/
theorem le_walk (h : Explored src dst links root dist prev pending) {n : Nat}
    (hmin : ∀ {x m}, pending x → dist x = some m → n ≤ m) {v : V} (hv : dist v = none) {path : List E} {a : V} {m : Nat}
    (ha : dist a = some m) (hw : IsWalk src dst links a v path) : n + 1 ≤ m + path.length := by
  induction path generalizing a m with
  | nil =>
    rw [show a = v from hw, hv] at ha
    cases ha
  | cons e path ih =>
    obtain ⟨he, rfl, hrest⟩ := hw
    rw [List.length_cons]
    cases hd : dist (dst e) with
    | some k =>
      have hk : k ≤ m + 1 := (h.exact ha).le_succ (h.exact hd) he
      have := ih hd hrest
      omega
    | none =>
      -- the edge leaves the labelled vertices, so its source is pending
      have hpend : pending (src e) := by
        by_contra hnot
        exact h.closed he (by rw [ha]; nofun) hnot hd
      have := hmin hpend ha
      omega

/-- The vertex over an edge of a pending vertex of the smallest label gets its distance. -/
theorem label [DecidableEq V] (h : Explored src dst links root dist prev pending) {e : E} (he : e ∈ links) {n : Nat}
    (hu : dist (src e) = some n) (hmin : ∀ {x m}, pending x → dist x = some m → n ≤ m) (hv : dist (dst e) = none)
    {pending' : V → Prop} (hpend : ∀ {x}, pending x → pending' x) (hnew : pending' (dst e)) :
    Explored src dst links root (update dist (dst e) (some (n + 1)))
      (update prev (dst e) (some (src e))) pending' := by
  have hroot : root ≠ dst e := by
    intro heq
    rw [← heq, h.root_dist] at hv
    cases hv
  have hold : ∀ {x m}, dist x = some m → update dist (dst e) (some (n + 1)) x = some m := by
    intro x m hx
    rw [update_of_ne]
    · exact hx
    · intro heq
      rw [heq, hv] at hx
      cases hx
  refine ⟨hold h.root_dist, ?_, ?_, ?_, ?_, ?_⟩
  · rw [update_of_ne hroot]
    exact h.root_prev
  · intro v m hm
    by_cases hve : v = dst e
    · rw [hve, update_self] at hm
      cases hm
      rw [hve]
      obtain ⟨⟨p, hp, hlen⟩, -⟩ := h.exact hu
      refine ⟨⟨p ++ [e], hp.snoc he, by rw [List.length_append, hlen]; rfl⟩, fun path hpath => ?_⟩
      have := h.le_walk hmin hv h.root_dist hpath
      omega
    · rw [update_of_ne hve] at hm
      exact h.exact hm
  · intro v u hp
    by_cases hve : v = dst e
    · rw [hve, update_self] at hp
      cases hp
      exact ⟨e, he, rfl, hve.symm, n, hold hu, by rw [hve, update_self]⟩
    · rw [update_of_ne hve] at hp
      obtain ⟨e', he', hs, hd, k, hk, hk'⟩ := h.prev_edge hp
      exact ⟨e', he', hs, hd, k, hold hk, hold hk'⟩
  · intro v m hm hvr
    by_cases hve : v = dst e
    · exact ⟨src e, by rw [hve, update_self]⟩
    · rw [update_of_ne hve] at hm ⊢
      exact h.has_prev hm hvr
  · intro e' he' hs hnot
    by_cases hd' : dst e' = dst e
    · rw [hd', update_self]
      nofun
    · rw [update_of_ne hd']
      by_cases hse : src e' = dst e
      · exact absurd (hse ▸ hnew) hnot
      · rw [update_of_ne hse] at hs
        exact h.closed he' hs fun hp => hnot (hpend hp)

theorem mono (h : Explored src dst links root dist prev pending) {pending' : V → Prop}
    (hpend : ∀ {x}, pending x → pending' x) : Explored src dst links root dist prev pending' where
  root_dist := h.root_dist
  root_prev := h.root_prev
  exact := h.exact
  prev_edge := h.prev_edge
  has_prev := h.has_prev
  closed he hs hnot := h.closed he hs fun hp => hnot (hpend hp)

/-- A vertex whose edges all lead to labelled vertices need not be kept. -/
theorem close (h : Explored src dst links root dist prev pending) {u : V}
    (hall : ∀ e ∈ links, src e = u → dist (dst e) ≠ none) {pending' : V → Prop}
    (hpend : ∀ {x}, pending x → x = u ∨ pending' x) : Explored src dst links root dist prev pending' where
  root_dist := h.root_dist
  root_prev := h.root_prev
  exact := h.exact
  prev_edge := h.prev_edge
  has_prev := h.has_prev
  closed := by
    intro e he hs hnot
    by_cases hu : src e = u
    · exact hall e he hu
    · refine h.closed he hs fun hp => ?_
      rcases hpend hp with heq | hp'
      · exact hu heq
      · exact hnot hp'

/-- When nothing is pending, what can be reached is labelled. -/
theorem labelled (h : Explored src dst links root dist prev fun _ => False) {path : List E} {a v : V} (ha : dist a ≠ none)
    (hw : IsWalk src dst links a v path) : dist v ≠ none := by
  induction path generalizing a with
  | nil =>
    rw [← show a = v from hw]
    exact ha
  | cons e path ih =>
    obtain ⟨he, rfl, hrest⟩ := hw
    exact ih (h.closed he ha id) hrest

theorem dist_iff (h : Explored src dst links root dist prev fun _ => False) {v : V} {n : Nat} :
    dist v = some n ↔ IsDist src dst links root v n := by
  refine ⟨h.exact, fun hd => ?_⟩
  obtain ⟨⟨path, hpath, -⟩, -⟩ := id hd
  cases hv : dist v with
  | none => exact absurd hv (h.labelled (by rw [h.root_dist]; nofun) hpath)
  | some m => rw [(h.exact hv).unique hd]

theorem init [DecidableEq V] (root : V) : Explored src dst links root (update (fun _ => none) root (some 0))
    (fun _ => none) (· = root) where
  root_dist := update_self ..
  root_prev := rfl
  exact := by
    intro v n hv
    by_cases hvr : v = root
    · rw [hvr, update_self] at hv
      cases hv
      exact ⟨⟨[], hvr.symm, rfl⟩, fun _ _ => Nat.zero_le _⟩
    · rw [update_of_ne hvr] at hv
      cases hv
  prev_edge := nofun
  has_prev := by
    intro v n hv hvr
    rw [update_of_ne hvr] at hv
    cases hv
  closed := by
    intro e _ hs hnot
    rw [update_of_ne hnot] at hs
    exact absurd rfl hs

end Explored

/-! ## Breadth-first search -/

/-- Labels, how each was reached, the vertices still to expand, and how many have a label. -/
structure Bfs (V : Type) where
  dist : V → Option Nat
  prev : V → Option V
  queue : List V
  visited : Nat

namespace Bfs

section Search

variable [DecidableEq V]

def init (root : V) : Bfs V :=
  ⟨update (fun _ => none) root (some 0), fun _ => none, [root], 1⟩

/-- Over the edge from `u` to `v`. -/
def visit (u : V) (s : Bfs V) (v : V) : Bfs V :=
  if s.dist v = none then
    ⟨update s.dist v ((s.dist u).map (· + 1)), update s.prev v (some u), s.queue ++ [v], s.visited + 1⟩
  else s

/-- Take `u` off the queue. -/
def expand (adj : V → List V) (s : Bfs V) (u : V) (rest : List V) : Bfs V :=
  (adj u).foldl (visit u) { s with queue := rest }

/-- Until the queue is empty. -/
def run (adj : V → List V) : Nat → Bfs V → Bfs V
  | 0, s => s
  | fuel + 1, s =>
    match s.queue with
    | [] => s
    | u :: rest => run adj fuel (s.expand adj u rest)

/-- Until `target` comes off the queue; its label. -/
def search (adj : V → List V) (target : V) : Nat → Bfs V → Option Nat
  | 0, _ => none
  | fuel + 1, s =>
    match s.queue with
    | [] => none
    | u :: rest => if u = target then s.dist u else search adj target fuel (s.expand adj u rest)

end Search

/-- Every edge and no other. -/
def Lists (src dst : E → V) (links : List E) (adj : V → List V) : Prop :=
  ∀ u v, v ∈ adj u ↔ ∃ e ∈ links, src e = u ∧ dst e = v

/-- The queue holds two layers, the nearer first. -/
def Layered (s : Bfs V) (n : Nat) : Prop :=
  ∃ now later, s.queue = now ++ later ∧ (∀ x ∈ now, s.dist x = some n) ∧ ∀ x ∈ later, s.dist x = some (n + 1)

/-- `u`, of the nearer layer, is off the queue but not expanded to the end. -/
structure Expanding (src dst : E → V) (links : List E) (root u : V) (n : Nat) (s : Bfs V) : Prop where
  label : s.dist u = some n
  layered : s.Layered n
  explored : Explored src dst links root s.dist s.prev fun x => x ∈ s.queue ∨ x = u

/-- Between two expansions. -/
structure Ready (src dst : E → V) (links : List E) (root : V) (s : Bfs V) : Prop where
  layered : ∃ n, s.Layered n
  explored : Explored src dst links root s.dist s.prev (· ∈ s.queue)

/-- Every label is of a vertex in `verts`, counted once. -/
structure Counted (verts : List V) (s : Bfs V) : Prop where
  mem : ∀ {x}, s.dist x ≠ none → x ∈ verts
  visited : s.visited + verts.countP (fun x => s.dist x = none) = verts.length

theorem Layered.bounds {s : Bfs V} {n : Nat} (h : s.Layered n) {x : V} (hx : x ∈ s.queue) :
    s.dist x = some n ∨ s.dist x = some (n + 1) := by
  obtain ⟨now, later, hq, hnow, hlater⟩ := h
  rw [hq] at hx
  rcases List.mem_append.mp hx with hx | hx
  · exact .inl (hnow x hx)
  · exact .inr (hlater x hx)

theorem Ready.done {root : V} {s : Bfs V} (h : Ready src dst links root s) (hnil : s.queue = []) :
    Explored src dst links root s.dist s.prev fun _ => False := by
  refine h.explored.mono fun hmem => ?_
  rw [hnil] at hmem
  cases hmem

section Proofs

variable [DecidableEq V] {root u : V} {n : Nat} {s : Bfs V} {adj : V → List V} {verts : List V}

theorem visit_of_labelled {v : V} (h : s.dist v ≠ none) : s.visit u v = s :=
  if_neg h

theorem visit_of_unlabelled {v : V} (hu : s.dist u = some n) (h : s.dist v = none) : s.visit u v =
    ⟨update s.dist v (some (n + 1)), update s.prev v (some u), s.queue ++ [v], s.visited + 1⟩ := by
  unfold visit
  rw [if_pos h, hu]
  rfl

theorem Expanding.visit (h : Expanding src dst links root u n s) {e : E} (he : e ∈ links) (hs : src e = u) :
    Expanding src dst links root u n (s.visit u (dst e)) := by
  by_cases hv : s.dist (dst e) = none
  · rw [visit_of_unlabelled h.label hv]
    have hold : ∀ {x m}, s.dist x = some m → update s.dist (dst e) (some (n + 1)) x = some m := by
      intro x m hx
      rw [update_of_ne]
      · exact hx
      · intro heq
        rw [heq, hv] at hx
        cases hx
    refine ⟨hold h.label, ?_, ?_⟩
    · obtain ⟨now, later, hq, hnow, hlater⟩ := h.layered
      refine ⟨now, later ++ [dst e], by rw [hq, List.append_assoc], fun x hx => hold (hnow x hx), fun x hx => ?_⟩
      rcases List.mem_append.mp hx with hx | hx
      · exact hold (hlater x hx)
      · rw [List.mem_singleton.mp hx]
        exact update_self ..
    · subst hs
      refine h.explored.label he h.label ?_ hv ?_ ?_
      · intro x m hx hm
        rcases hx with hx | hx
        · rcases h.layered.bounds hx with hb | hb <;> (rw [hb] at hm; cases hm; omega)
        · rw [hx, h.label] at hm
          cases hm
          exact Nat.le_refl n
      · intro x hx
        rcases hx with hx | hx
        · exact .inl (List.mem_append_left _ hx)
        · exact .inr hx
      · exact .inl (List.mem_append_right _ (List.mem_singleton.mpr rfl))
  · rw [visit_of_labelled hv]
    exact h

theorem Counted.visit (h : Counted verts s) (hnd : verts.Nodup) (hu : s.dist u = some n) {v : V} (hv : v ∈ verts) :
    Counted verts (s.visit u v) ∧ (s.visit u v).visited + s.queue.length = s.visited + (s.visit u v).queue.length := by
  by_cases hd : s.dist v = none
  · rw [visit_of_unlabelled hu hd]
    refine ⟨⟨fun {x} hx => ?_, ?_⟩, ?_⟩
    · by_cases hxv : x = v
      · rw [hxv]
        exact hv
      · refine h.mem ?_
        have : update s.dist v (some (n + 1)) x ≠ none := hx
        rwa [update_of_ne hxv] at this
    · have hcount := countP_update hnd hv s.dist (some (n + 1)) none
      rw [if_pos hd, if_neg nofun] at hcount
      have := h.visited
      show s.visited + 1 + verts.countP (fun x => update s.dist v (some (n + 1)) x = none) = verts.length
      omega
    · show s.visited + 1 + s.queue.length = s.visited + (s.queue ++ [v]).length
      rw [List.length_append, List.length_singleton]
      omega
  · rw [visit_of_labelled hd]
    exact ⟨h, rfl⟩

theorem visit_dist {x v : V} {m : Nat} (hx : s.dist x = some m) : (s.visit u v).dist x = some m := by
  unfold Bfs.visit
  split
  · next hv =>
    show update s.dist v _ x = some m
    rw [update_of_ne]
    · exact hx
    · intro heq
      rw [heq, hv] at hx
      cases hx
  · exact hx

theorem visit_labels {v : V} (hu : s.dist u = some n) : (s.visit u v).dist v ≠ none := by
  by_cases hv : s.dist v = none
  · rw [visit_of_unlabelled hu hv]
    show update s.dist v _ v ≠ none
    rw [update_self]
    nofun
  · rw [visit_of_labelled hv]
    exact hv

theorem Expanding.visits (h : Expanding src dst links root u n s) {vs : List V}
    (hvs : ∀ v ∈ vs, ∃ e ∈ links, src e = u ∧ dst e = v) :
    Expanding src dst links root u n (vs.foldl (Bfs.visit u) s) ∧
    (∀ x m, s.dist x = some m → (vs.foldl (Bfs.visit u) s).dist x = some m) ∧
    ∀ v ∈ vs, (vs.foldl (Bfs.visit u) s).dist v ≠ none := by
  induction vs generalizing s with
  | nil => exact ⟨h, fun _ _ hx => hx, nofun⟩
  | cons v vs ih =>
    obtain ⟨e, he, hs, rfl⟩ := hvs v (List.mem_cons_self ..)
    obtain ⟨hexp, hkeep, hall⟩ := ih (h.visit he hs) fun v hv => hvs v (List.mem_cons_of_mem _ hv)
    refine ⟨hexp, fun x m hx => hkeep x m (visit_dist hx), fun v hv => ?_⟩
    rcases List.mem_cons.mp hv with rfl | hv
    · obtain ⟨m, hm⟩ := Option.ne_none_iff_exists'.mp (visit_labels (v := dst e) h.label)
      rw [List.foldl_cons, hkeep _ m hm]
      nofun
    · exact hall v hv

theorem Counted.visits (h : Counted verts s) (hnd : verts.Nodup) (hu : s.dist u = some n) {vs : List V}
    (hvs : ∀ v ∈ vs, v ∈ verts) : Counted verts (vs.foldl (Bfs.visit u) s) ∧
      (vs.foldl (Bfs.visit u) s).visited + s.queue.length = s.visited + (vs.foldl (Bfs.visit u) s).queue.length := by
  induction vs generalizing s with
  | nil => exact ⟨h, rfl⟩
  | cons v vs ih =>
    obtain ⟨hc, hlen⟩ := h.visit hnd hu (hvs v (List.mem_cons_self ..))
    obtain ⟨hc', hlen'⟩ := ih hc (visit_dist hu) fun v hv => hvs v (List.mem_cons_of_mem _ hv)
    refine ⟨hc', ?_⟩
    rw [List.foldl_cons]
    omega

/-- **One vertex expanded.** -/
theorem Ready.expand (h : Ready src dst links root s) (hadj : Lists src dst links adj) {rest : List V}
    (hq : s.queue = u :: rest) : Ready src dst links root (s.expand adj u rest) ∧
      ∀ x m, s.dist x = some m → (s.expand adj u rest).dist x = some m := by
  obtain ⟨n, hlayered⟩ := h.layered
  have hexp : ∃ k, Expanding src dst links root u k { s with queue := rest } := by
    have hpend : Explored src dst links root s.dist s.prev fun x => x ∈ rest ∨ x = u := by
      refine h.explored.mono fun hmem => ?_
      rw [hq] at hmem
      exact (List.mem_cons.mp hmem).symm
    obtain ⟨now, later, hsplit, hnow, hlater⟩ := hlayered
    rw [hq] at hsplit
    cases now with
    | nil =>
      -- the nearer layer is done, `u` starts the next one
      have hlater' : u :: rest = later := hsplit
      refine ⟨n + 1, hlater u (hlater' ▸ List.mem_cons_self ..), ⟨rest, [], (List.append_nil _).symm, ?_, nofun⟩, hpend⟩
      exact fun x hx => hlater x (hlater' ▸ List.mem_cons_of_mem _ hx)
    | cons u' now =>
      obtain ⟨rfl, hrest⟩ := List.cons.inj hsplit
      refine ⟨n, hnow u (List.mem_cons_self ..), ⟨now, later, hrest, ?_, hlater⟩, hpend⟩
      exact fun x hx => hnow x (List.mem_cons_of_mem _ hx)
  obtain ⟨k, hexp⟩ := hexp
  obtain ⟨hdone, hkeep, hall⟩ := hexp.visits fun v (hv : v ∈ adj u) => (hadj _ _).mp hv
  refine ⟨⟨⟨k, hdone.layered⟩, hdone.explored.close (u := u) ?_ ?_⟩, hkeep⟩
  · intro e he hs
    exact hall _ ((hadj _ _).mpr ⟨e, he, hs, rfl⟩)
  · exact fun {x} hx => hx.symm

theorem Counted.expand (h : Counted verts s) (hr : Ready src dst links root s) (hadj : Lists src dst links adj)
    (hnd : verts.Nodup) (hmem : ∀ e ∈ links, dst e ∈ verts) {rest : List V} (hq : s.queue = u :: rest) :
    Counted verts (s.expand adj u rest) ∧
      (s.expand adj u rest).visited + rest.length = s.visited + (s.expand adj u rest).queue.length := by
  obtain ⟨n, hlayered⟩ := hr.layered
  have hu : ∃ m, s.dist u = some m := by
    rcases hlayered.bounds (hq ▸ List.mem_cons_self ..) with hb | hb
    · exact ⟨_, hb⟩
    · exact ⟨_, hb⟩
  obtain ⟨m, hm⟩ := hu
  have hc : Counted verts { s with queue := rest } := ⟨h.mem, h.visited⟩
  refine hc.visits hnd hm fun v hv => ?_
  obtain ⟨e, he, -, rfl⟩ := (hadj _ _).mp hv
  exact hmem e he

theorem ready_init (root : V) : Ready src dst links root (init root) where
  layered := by
    refine ⟨0, [root], [], rfl, fun x hx => ?_, nofun⟩
    show update (fun _ => none) root (some 0) x = some 0
    rw [List.mem_singleton.mp hx, update_self]
  explored := (Explored.init root).mono fun heq => List.mem_singleton.mpr heq

theorem counted_init (hnd : verts.Nodup) (hroot : root ∈ verts) : Counted verts (init root) where
  mem := by
    intro x hx
    by_cases hxr : x = root
    · rw [hxr]
      exact hroot
    · have : update (fun _ => none) root (some 0) x ≠ (none : Option Nat) := hx
      rw [update_of_ne hxr] at this
      exact absurd rfl this
  visited := by
    have hcount := countP_update hnd hroot (fun _ => (none : Option Nat)) (some 0) none
    have hall : verts.countP (fun _ => (none : Option Nat) = none) = verts.length :=
      List.countP_eq_length.mpr fun _ _ => decide_eq_true rfl
    rw [if_pos rfl, if_neg nofun, hall] at hcount
    show 1 + verts.countP (fun x => update (fun _ => none) root (some 0) x = (none : Option Nat)) = verts.length
    omega

/-- What is left to do: the queue, and the vertices that may still come on it. -/
def todo (verts : List V) (s : Bfs V) : Nat :=
  s.queue.length + verts.countP fun x => s.dist x = none

theorem todo_expand (h : Counted verts s) (hr : Ready src dst links root s) (hadj : Lists src dst links adj)
    (hnd : verts.Nodup) (hmem : ∀ e ∈ links, dst e ∈ verts) {rest : List V} (hq : s.queue = u :: rest) :
    todo verts (s.expand adj u rest) + 1 = todo verts s := by
  obtain ⟨hc, hlen⟩ := h.expand hr hadj hnd hmem hq
  have h₁ := h.visited
  have h₂ := hc.visited
  unfold todo
  rw [hq, List.length_cons]
  omega

theorem todo_init (hnd : verts.Nodup) (hroot : root ∈ verts) : todo verts (init root) = verts.length :=
  (counted_init hnd hroot).visited

/-- **The search ends, with the distance of every vertex that can be reached.** -/
theorem run_spec (hadj : Lists src dst links adj) (hnd : verts.Nodup) (hmem : ∀ e ∈ links, dst e ∈ verts) {fuel : Nat}
    (hr : Ready src dst links root s) (hc : Counted verts s) (hfuel : todo verts s ≤ fuel) :
    Explored src dst links root (run adj fuel s).dist (run adj fuel s).prev (fun _ => False) ∧
      Counted verts (run adj fuel s) := by
  induction fuel generalizing s with
  | zero =>
    have hnil : s.queue = [] := List.length_eq_zero_iff.mp (by unfold todo at hfuel; omega)
    exact ⟨hr.done hnil, hc⟩
  | succ fuel ih =>
    unfold run
    split
    · next hnil => exact ⟨hr.done hnil, hc⟩
    · next u rest hq =>
      have := todo_expand hc hr hadj hnd hmem hq
      exact ih (hr.expand hadj hq).1 (hc.expand hr hadj hnd hmem hq).1 (by omega)

/-- A vertex still to be expanded is on the queue once it has a label. -/
theorem visit_waits {x v : V} (h : s.dist x ≠ none → x ∈ s.queue) (hx : (s.visit u v).dist x ≠ none) :
    x ∈ (s.visit u v).queue := by
  unfold Bfs.visit at hx ⊢
  split at hx
  · next hv =>
    rw [if_pos hv]
    show x ∈ s.queue ++ [v]
    by_cases hxv : x = v
    · exact List.mem_append_right _ (List.mem_singleton.mpr hxv)
    · have : update s.dist v _ x ≠ none := hx
      rw [update_of_ne hxv] at this
      exact List.mem_append_left _ (h this)
  · next hv =>
    rw [if_neg hv]
    exact h hx

theorem visits_waits {x : V} {vs : List V} (h : s.dist x ≠ none → x ∈ s.queue) (hx : (vs.foldl (Bfs.visit u) s).dist x ≠ none) :
    x ∈ (vs.foldl (Bfs.visit u) s).queue := by
  induction vs generalizing s with
  | nil => exact h hx
  | cons v vs ih => exact ih (visit_waits h) hx

/-- **The search for a target finds its distance**, or nothing if it cannot be reached. -/
theorem search_spec (hadj : Lists src dst links adj) (hnd : verts.Nodup) (hmem : ∀ e ∈ links, dst e ∈ verts) {target : V}
    {fuel : Nat} (hr : Ready src dst links root s) (hc : Counted verts s) (hfuel : todo verts s ≤ fuel)
    (htarget : s.dist target ≠ none → target ∈ s.queue) :
    search adj target fuel s = some n ↔ IsDist src dst links root target n := by
  induction fuel generalizing s with
  | zero =>
    have hnil : s.queue = [] := List.length_eq_zero_iff.mp (by unfold todo at hfuel; omega)
    refine ⟨nofun, fun hd => ?_⟩
    have := htarget (by rw [(hr.done hnil).dist_iff.mpr hd]; nofun)
    rw [hnil] at this
    cases this
  | succ fuel ih =>
    unfold search
    split
    · next hnil =>
      refine ⟨nofun, fun hd => ?_⟩
      have := htarget (by rw [(hr.done hnil).dist_iff.mpr hd]; nofun)
      rw [hnil] at this
      cases this
    · next u rest hq =>
      by_cases hu : u = target
      · rw [if_pos hu]
        refine ⟨fun h => hu ▸ hr.explored.exact h, fun hd => ?_⟩
        obtain ⟨k, hlayered⟩ := hr.layered
        rcases hlayered.bounds (hq ▸ List.mem_cons_self ..) with hb | hb
        · rw [hb, (hr.explored.exact hb).unique (hu ▸ hd)]
        · rw [hb, (hr.explored.exact hb).unique (hu ▸ hd)]
      · rw [if_neg hu]
        have htodo := todo_expand hc hr hadj hnd hmem hq
        refine ih (hr.expand hadj hq).1 (hc.expand hr hadj hnd hmem hq).1 (by omega) (visits_waits fun hd => ?_)
        have := htarget hd
        rw [hq] at this
        exact (List.mem_cons.mp this).resolve_left fun heq => hu heq.symm

end Proofs

end Bfs

end Pimid
