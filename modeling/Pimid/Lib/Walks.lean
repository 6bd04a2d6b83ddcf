import Mathlib.Logic.Relation
import Mathlib.Order.Basic

/-!
# Walks in a graph, and what a rank says about them

Edges are any type with a source and a target. A rank that falls by one on every
edge taken counts the edges of a routed walk; if it never falls by more than one, it
is the distance. A rank that rises along a relation makes the relation acyclic.
-/

namespace Pimid

section Walks

variable {V E : Type} {src dst : E → V}

/-- Take the edge `next` gives at each vertex until the target. -/
def follow [DecidableEq V] (dst : E → V) (next : V → Option E) (target : V) : Nat → V → Option (List E)
  | 0, v => if v = target then some [] else none
  | fuel + 1, v =>
    if v = target then some []
    else do
      let e ← next v
      let path ← follow dst next target fuel (dst e)
      some (e :: path)

/-- If every edge taken lowers the rank by one, the rank counts the edges to the target. -/
theorem follow_of_rank [DecidableEq V] {next : V → Option E} {target : V} (rank : V → Nat) (P : V → Prop)
    (hzero : rank target = 0)
    (hstep : ∀ v, P v → v ≠ target → ∃ e, next v = some e ∧ P (dst e) ∧ rank v = rank (dst e) + 1) {v : V} (hv : P v) :
    ∃ path, follow dst next target (rank v) v = some path ∧ path.length = rank v := by
  obtain ⟨n, hn⟩ : ∃ n, n = rank v := ⟨_, rfl⟩
  induction n generalizing v with
  | zero =>
    by_cases hvt : v = target
    · exact ⟨[], by rw [← hn, follow, if_pos hvt], hn⟩
    · obtain ⟨e, -, -, hr⟩ := hstep v hv hvt
      omega
  | succ n ih =>
    by_cases hvt : v = target
    · rw [hvt, hzero] at hn
      cases hn
    · obtain ⟨e, hnext, hP, hr⟩ := hstep v hv hvt
      have hn' : n = rank (dst e) := by omega
      obtain ⟨path, hpath, hlen⟩ := ih hP hn'
      refine ⟨e :: path, ?_, by rw [List.length_cons, hlen, hr]⟩
      rw [hr, follow, if_neg hvt, hnext]
      show (follow dst next target (rank (dst e)) (dst e)).bind (fun path => some (e :: path)) = _
      rw [hpath]
      rfl

/-- The edges of `path`, all of `links`, lead from `a` to `b`. -/
def IsWalk (src dst : E → V) (links : List E) : V → V → List E → Prop
  | a, b, [] => a = b
  | a, b, e :: path => e ∈ links ∧ src e = a ∧ IsWalk src dst links (dst e) b path

/-- The distance from `a` to `b`, in edges. -/
def IsDist (src dst : E → V) (links : List E) (a b : V) (n : Nat) : Prop :=
  (∃ path, IsWalk src dst links a b path ∧ path.length = n) ∧
    ∀ path, IsWalk src dst links a b path → n ≤ path.length

theorem IsDist.unique {links : List E} {a b : V} {m n : Nat} (hm : IsDist src dst links a b m)
    (hn : IsDist src dst links a b n) : m = n := by
  obtain ⟨⟨p, hp, rfl⟩, hmin⟩ := hm
  obtain ⟨⟨q, hq, rfl⟩, hmin'⟩ := hn
  exact Nat.le_antisymm (hmin q hq) (hmin' p hp)

/-- A rank that an edge lowers by at most one bounds every walk from below. -/
theorem rank_le_length {links : List E} {target : V} {rank : V → Nat} (hzero : rank target = 0)
    (hle : ∀ e ∈ links, rank (src e) ≤ rank (dst e) + 1) {path : List E} {v : V}
    (h : IsWalk src dst links v target path) : rank v ≤ path.length := by
  induction path generalizing v with
  | nil =>
    rw [show v = target from h, hzero]
    exact Nat.zero_le _
  | cons e path ih =>
    obtain ⟨he, rfl, hrest⟩ := h
    calc rank (src e) ≤ rank (dst e) + 1 := hle e he
      _ ≤ path.length + 1 := Nat.succ_le_succ (ih hrest)

/-- A rank that an edge lowers by at most one, and some edge by exactly one, is the distance. -/
theorem isDist_of_rank {links : List E} {target : V} (rank : V → Nat) (P : V → Prop) (hzero : rank target = 0)
    (hle : ∀ e ∈ links, rank (src e) ≤ rank (dst e) + 1)
    (hstep : ∀ v, P v → v ≠ target → ∃ e ∈ links, src e = v ∧ P (dst e) ∧ rank v = rank (dst e) + 1) {v : V} (hv : P v) :
    IsDist src dst links v target (rank v) := by
  constructor
  · obtain ⟨n, hn⟩ : ∃ n, n = rank v := ⟨_, rfl⟩
    induction n generalizing v with
    | zero =>
      by_cases hvt : v = target
      · exact ⟨[], hvt, hn⟩
      · obtain ⟨e, -, -, -, hr⟩ := hstep v hv hvt
        omega
    | succ n ih =>
      have hvt : v ≠ target := by
        rintro rfl
        omega
      obtain ⟨e, he, hsrc, hP, hr⟩ := hstep v hv hvt
      obtain ⟨path, hpath, hlen⟩ := ih hP (by omega)
      exact ⟨e :: path, ⟨he, hsrc, hpath⟩, by rw [List.length_cons, hlen, hr]⟩
  · exact fun path hpath => rank_le_length hzero hle hpath

end Walks

/-! ## Acyclic relations -/

/-- No element is related to itself in one or more steps. -/
def Acyclic {α : Type} (r : α → α → Prop) : Prop :=
  ∀ a, ¬Relation.TransGen r a a

theorem acyclic_of_rank {α β : Type} [Preorder β] {r : α → α → Prop} (rank : α → β)
    (h : ∀ {a b}, r a b → rank a < rank b) : Acyclic r := by
  intro a hcycle
  have hlt : ∀ {b}, Relation.TransGen r a b → rank a < rank b := by
    intro b hab
    induction hab with
    | single hr => exact h hr
    | tail _ hr ih => exact ih.trans (h hr)
  exact lt_irrefl _ (hlt hcycle)

/-! ## Packets that hold one channel and wait for the next -/

/-- Packets as they enter, how one moves on, and the channel it holds. -/
structure Traffic (Pkt Chan : Type) where
  start : Pkt → Prop
  step : Pkt → Pkt → Prop
  held : Pkt → Option Chan

namespace Traffic

variable {Pkt Chan : Type} {T : Traffic Pkt Chan}

/-- A packet somewhere on its route. -/
inductive OnRoute (T : Traffic Pkt Chan) : Pkt → Prop where
  | start {p} (h : T.start p) : OnRoute T p
  | step {p p'} (h : OnRoute T p) (hs : T.step p p') : OnRoute T p'

/-- Some packet holds `c` while it waits for `c'`. -/
def Waits (T : Traffic Pkt Chan) (c c' : Chan) : Prop :=
  ∃ p p', T.OnRoute p ∧ T.step p p' ∧ T.held p = some c ∧ T.held p' = some c'

theorem OnRoute.inv {I : Pkt → Prop} (hstart : ∀ {p}, T.start p → I p) (hstep : ∀ {p p'}, I p → T.step p p' → I p')
    {p : Pkt} (h : T.OnRoute p) : I p := by
  induction h with
  | start h => exact hstart h
  | step _ hs ih => exact hstep ih hs

/-- If every packet's next channel ranks above the one it holds, no packets wait for each other in a cycle. -/
theorem acyclic_waits {β : Type} [Preorder β] (rank : Chan → β)
    (h : ∀ {p p' c c'}, T.OnRoute p → T.step p p' → T.held p = some c → T.held p' = some c' → rank c < rank c') :
    Acyclic T.Waits :=
  acyclic_of_rank rank fun ⟨_, _, hp, hs, hc, hc'⟩ => h hp hs hc hc'

end Traffic

end Pimid
