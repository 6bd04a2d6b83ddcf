import Mathlib.Algebra.Order.BigOperators.Group.List
import Mathlib.Tactic.Ring
import Pimid.Garnet.LinkTraffic
import Pimid.Noc.BatchDrain

/-!
# The floor the links set

The run time is at least what the busiest link of the tree serves. When it closes, the
records of the last phases still wait for their drain, so their service is projected over
the counters by a walk of its own. The counted service comes later, from `countPacket`.

The two walks cross the same links. The projection charges every one that has a width; the
count leaves out those with no level from 0 to 6. The floor is the one the drain gives,
whatever was counted before, just when no waiting record crosses a link with a width and no
level.
-/

namespace Pimid.Garnet

open Noc (FabricClock)

/-- A record that waits for its drain. -/
structure PendingRecord where
  src : Nat
  dst : Nat
  ctrl : Bool
  cycle : Nat
deriving DecidableEq, Repr

/-- The service counters. -/
structure Busy where
  edge : Nat → Nat
  seg : Nat → Nat

def GarnetStats.busy (s : GarnetStats) : Busy :=
  ⟨s.edgeBusy, s.segBusy⟩

/-- The lengths of the tables of a file, its endpoints and the clocks. -/
structure FloorTables (n : Wrapper) where
  upCount : Nat
  segCount : Nat
  numNodes : Nat
  clock : FabricClock
  up_zero : ∀ r, upCount ≤ r → n.routerUpBits r = 0
  router_slot : ∀ r, ∀ g ∈ n.segOfRouter r, g.slot < segCount
  ep_slot : ∀ e, ∀ g ∈ n.segOfEp e, g.slot < segCount

namespace Wrapper

/-! ## The projection's walk -/

def segService (n : Wrapper) (ctrl : Bool) (segs : List LinkSeg) (b : Busy) : Busy :=
  segs.foldl (fun b g =>
    let c := n.segServiceCycles g.bits ctrl
    if c = 0 then b else { b with seg := bump b.seg g.slot c }) b

/-- The deeper router of a link. -/
def childOf (n : Wrapper) (e : Nat × Nat) : Nat :=
  if n.file.routerDepth e.2 < n.file.routerDepth e.1 then e.1 else e.2

def linkService (n : Wrapper) (ctrl : Bool) (b : Busy) (e : Nat × Nat) : Busy :=
  let child := n.childOf e
  let b := n.segService ctrl (n.segOfRouter child) b
  let sv := n.linkServiceCycles child ctrl
  if sv = 0 then b else { b with edge := bump b.edge child sv }

def addPathService (n : Wrapper) (t : FloorTables n) (src dst : Nat) (ctrl : Bool) (b : Busy) : Busy :=
  if (t.upCount = 0 ∧ t.segCount = 0) ∨ n.topology ≠ .CUSTOM then b
  else
    match n.file.pathRouters src dst with
    | none => b
    | some path =>
      let b := n.segService ctrl (n.segOfEp src) b
      let b := n.segService ctrl (n.segOfEp dst) b
      (path.zip path.tail).foldl (n.linkService ctrl) b

end Wrapper

namespace FloorTables

variable {n : Wrapper} (t : FloorTables n)

def busyMax (b : Busy) : Nat :=
  ((List.range t.upCount).map b.edge ++ (List.range t.segCount).map b.seg).foldl max 0

def linkBusyMaxCycles (s : GarnetStats) : Nat :=
  t.busyMax s.busy

/-- The waiting records that are priced. -/
def Counted (roiEnd : Nat) (a : PendingRecord) : Prop :=
  a.src ≠ a.dst ∧ a.src < t.numNodes ∧ a.dst < t.numNodes ∧ a.cycle ≤ roiEnd

instance (roiEnd : Nat) (a : PendingRecord) : Decidable (t.Counted roiEnd a) :=
  inferInstanceAs (Decidable (_ ∧ _ ∧ _ ∧ _))

def addPending (roiEnd : Nat) (b : Busy) (a : PendingRecord) : Busy :=
  if t.Counted roiEnd a then n.addPathService t a.src a.dst a.ctrl b else b

/-- The open phase's records, then those of the closed phases that wait. -/
def linkBusyMaxCyclesProjected (roiEnd : Nat) (phaseBatch : List PendingRecord)
    (pendingByPhase : List (Nat × List PendingRecord)) (s : GarnetStats) : Nat :=
  if t.upCount = 0 ∧ t.segCount = 0 then 0
  else
    let b := phaseBatch.foldl (t.addPending roiEnd) s.busy
    let b := pendingByPhase.foldl (fun b kv => kv.2.foldl (t.addPending roiEnd) b) b
    t.clock.fabToDev (t.busyMax b)

/-- The drain's count of the records, in their order. -/
def drained (nodes : List (String × Nat)) (hops : PendingRecord → Nat) (roiEnd : Nat) (as : List PendingRecord)
    (s : GarnetStats) : GarnetStats :=
  (as.filter (t.Counted roiEnd)).foldl (fun s a => n.countPacket nodes a.src a.dst (hops a) a.ctrl s) s

end FloorTables

/-! ## What a packet crosses -/

inductive LinkId where
  | up (router : Nat)
  | seg (slot : Nat)
deriving DecidableEq, Repr

def Busy.at (b : Busy) : LinkId → Nat
  | .up r => b.edge r
  | .seg k => b.seg k

structure Crossing where
  link : LinkId
  level : Int
  service : Nat
deriving DecidableEq, Repr

def Crossing.OnLevel (x : Crossing) : Prop :=
  0 ≤ x.level ∧ x.level ≤ 6

instance (x : Crossing) : Decidable x.OnLevel :=
  inferInstanceAs (Decidable (_ ∧ _))

/-- The service of one link in all. -/
def total (l : LinkId) (xs : List Crossing) : Nat :=
  ((xs.filter (·.link = l)).map (·.service)).sum

/-- The counters have grown by the crossings' service. -/
def Adds (b : Busy) (xs : List Crossing) (b' : Busy) : Prop :=
  ∀ l, b'.at l = b.at l + total l xs

section

variable {b b' b'' : Busy} {xs ys : List Crossing} {x : Crossing} {l : LinkId}

theorem total_append (l : LinkId) (xs ys : List Crossing) : total l (xs ++ ys) = total l xs + total l ys := by
  unfold total
  rw [List.filter_append, List.map_append, List.sum_append]

theorem total_cons (l : LinkId) (x : Crossing) (xs : List Crossing) : total l (x :: xs) = total l [x] + total l xs :=
  total_append l [x] xs

theorem total_singleton (l : LinkId) (x : Crossing) : total l [x] = if x.link = l then x.service else 0 := by
  unfold total
  by_cases h : x.link = l <;> simp [h]

theorem Adds.refl (b : Busy) : Adds b [] b :=
  fun _ => rfl

theorem Adds.trans (h : Adds b xs b') (h' : Adds b' ys b'') : Adds b (xs ++ ys) b'' := by
  intro l
  rw [h' l, h l, total_append, Nat.add_assoc]

theorem Adds.idle (b : Busy) (h : x.service = 0) : Adds b [x] b := by
  intro l
  rw [total_singleton, h, ite_self, Nat.add_zero]

theorem Adds.up (b : Busy) (r : Nat) (level : Int) (c : Nat) :
    Adds b [⟨.up r, level, c⟩] { b with edge := bump b.edge r c } := by
  intro l
  rw [total_singleton]
  cases l with
  | up r' =>
    simp only [Busy.at, bump, LinkId.up.injEq, eq_comm (a := r)]
  | seg k => simp [Busy.at]

theorem Adds.seg (b : Busy) (k : Nat) (level : Int) (c : Nat) :
    Adds b [⟨.seg k, level, c⟩] { b with seg := bump b.seg k c } := by
  intro l
  rw [total_singleton]
  cases l with
  | up r => simp [Busy.at]
  | seg k' =>
    simp only [Busy.at, bump, LinkId.seg.injEq, eq_comm (a := k)]

theorem Adds.foldl {α β : Type} {f : β → α → β} {cross : α → List Crossing} (out : β → Busy)
    (hf : ∀ b a, Adds (out b) (cross a) (out (f b a))) (as : List α) (b : β) :
    Adds (out b) (as.flatMap cross) (out (as.foldl f b)) := by
  induction as generalizing b with
  | nil => exact .refl _
  | cons a as ih =>
    rw [List.flatMap_cons]
    exact (hf b a).trans (ih (f b a))

end

namespace Wrapper

variable (n : Wrapper)

def segCrossing (ctrl : Bool) (g : LinkSeg) : Crossing :=
  ⟨.seg g.slot, g.lv, n.segServiceCycles g.bits ctrl⟩

def segCrossings (ctrl : Bool) (segs : List LinkSeg) : List Crossing :=
  segs.flatMap fun g => [n.segCrossing ctrl g]

def upCrossing (ctrl : Bool) (child : Nat) : Crossing :=
  ⟨.up child, n.file.levelOf child, n.linkServiceCycles child ctrl⟩

def edgeCrossings (ctrl : Bool) (e : Nat × Nat) : List Crossing :=
  n.segCrossings ctrl (n.segOfRouter (n.childOf e)) ++ [n.upCrossing ctrl (n.childOf e)]

/-- The links of a packet's way: those of its ends, and those of the tree. -/
def crossings (src dst : Nat) (ctrl : Bool) : List Crossing :=
  match if n.topology = .CUSTOM then n.file.pathRouters src dst else none with
  | none => []
  | some path =>
    n.segCrossings ctrl (n.segOfEp src) ++ n.segCrossings ctrl (n.segOfEp dst) ++
      (path.zip path.tail).flatMap (n.edgeCrossings ctrl)

variable {n} {ctrl : Bool}

theorem segService_adds (segs : List LinkSeg) (b : Busy) : Adds b (n.segCrossings ctrl segs) (n.segService ctrl segs b) := by
  refine Adds.foldl id (fun b g => ?_) segs b
  dsimp only
  split
  · next hzero => exact .idle b hzero
  · exact .seg b g.slot g.lv _

theorem linkService_adds (b : Busy) (e : Nat × Nat) : Adds b (n.edgeCrossings ctrl e) (n.linkService ctrl b e) := by
  refine (segService_adds (n.segOfRouter (n.childOf e)) b).trans ?_
  unfold linkService
  dsimp only
  split
  · next hzero => exact .idle _ hzero
  · exact .up _ _ _ _

theorem addPathService_adds {t : FloorTables n} (ht : ¬(t.upCount = 0 ∧ t.segCount = 0)) (src dst : Nat) (b : Busy) :
    Adds b (n.crossings src dst ctrl) (n.addPathService t src dst ctrl b) := by
  unfold addPathService crossings
  by_cases htop : n.topology = .CUSTOM
  · have hgo : ¬((t.upCount = 0 ∧ t.segCount = 0) ∨ n.topology ≠ .CUSTOM) := by
      rintro (h | h)
      · exact ht h
      · exact h htop
    rw [if_pos htop, if_neg hgo]
    cases n.file.pathRouters src dst with
    | none => exact .refl b
    | some path =>
      dsimp only
      refine ((segService_adds _ b).trans (segService_adds _ _)).trans ?_
      exact Adds.foldl id linkService_adds _ _
  · have hstop : (t.upCount = 0 ∧ t.segCount = 0) ∨ n.topology ≠ .CUSTOM := .inr htop
    rw [if_neg htop, if_pos hstop]
    exact .refl b

/-! ## The count's walk -/

section Count

variable {flits : Nat} {acc : PathAcc} {s : GarnetStats}

/-- The crossings at a level. -/
def onLevel (xs : List Crossing) : List Crossing :=
  xs.filter (·.OnLevel)

theorem onLevel_append (xs ys : List Crossing) : onLevel (xs ++ ys) = onLevel xs ++ onLevel ys :=
  List.filter_append ..

theorem onLevel_flatMap {α : Type} (f : α → List Crossing) (as : List α) :
    onLevel (as.flatMap f) = as.flatMap fun a => onLevel (f a) := by
  induction as with
  | nil => rfl
  | cons a as ih => rw [List.flatMap_cons, List.flatMap_cons, onLevel_append, ih]

theorem onLevel_of {x : Crossing} (h : x.OnLevel) : onLevel [x] = [x] :=
  List.filter_cons_of_pos (decide_eq_true h)

theorem onLevel_of_not {x : Crossing} (h : ¬x.OnLevel) : onLevel [x] = [] :=
  List.filter_cons_of_neg (by simpa using h)

theorem crossDie_busy (acc : PathAcc) (flits die : Nat) : (acc.crossDie flits die).stats.busy = acc.stats.busy := rfl

theorem addSeg_adds (n : Wrapper) (flits : Nat) (ctrl : Bool) (acc : PathAcc) (g : LinkSeg) :
    Adds acc.stats.busy (onLevel [n.segCrossing ctrl g]) (n.addSeg flits ctrl acc g).stats.busy := by
  unfold addSeg
  dsimp only
  by_cases hlv : g.lv < 0 ∨ 6 < g.lv
  · rw [if_pos hlv, onLevel_of_not (by simp only [Crossing.OnLevel, segCrossing]; omega)]
    exact .refl _
  · rw [if_neg hlv, onLevel_of (by simp only [Crossing.OnLevel, segCrossing]; omega), apply_ite PathAcc.stats,
      apply_ite GarnetStats.busy, crossDie_busy, ite_self]
    split
    · exact .seg acc.stats.busy g.slot g.lv _
    · next hbits =>
      refine .idle _ ?_
      show n.serviceCycles g.bits ctrl = 0
      rw [serviceCycles, if_pos (by omega)]

theorem addSegs_adds (n : Wrapper) (flits : Nat) (ctrl : Bool) (segs : List LinkSeg) (acc : PathAcc) :
    Adds acc.stats.busy (onLevel (n.segCrossings ctrl segs)) (n.addSegs flits ctrl segs acc).stats.busy := by
  rw [segCrossings, onLevel_flatMap]
  exact Adds.foldl (fun acc : PathAcc => acc.stats.busy) (addSeg_adds n flits ctrl) segs acc

theorem addEdge_adds (n : Wrapper) (flits : Nat) (ctrl : Bool) (acc : PathAcc) (e : Nat × Nat) :
    Adds acc.stats.busy (onLevel (n.edgeCrossings ctrl e)) (n.addEdge flits ctrl acc e).stats.busy := by
  rw [edgeCrossings, onLevel_append]
  refine (addSegs_adds n flits ctrl (n.segOfRouter (n.childOf e)) acc).trans ?_
  unfold addEdge
  dsimp only
  rw [← childOf]
  by_cases hlv : n.file.levelOf (n.childOf e) < 0 ∨ 6 < n.file.levelOf (n.childOf e)
  · rw [if_pos hlv, onLevel_of_not (by simp only [Crossing.OnLevel, upCrossing]; omega)]
    exact .refl _
  · rw [if_neg hlv, onLevel_of (by simp only [Crossing.OnLevel, upCrossing]; omega), apply_ite PathAcc.stats,
      apply_ite GarnetStats.busy, crossDie_busy, ite_self]
    split
    · exact .up _ _ _ _
    · next hbits =>
      refine .idle _ ?_
      show n.serviceCycles (n.routerUpBits (n.childOf e)) ctrl = 0
      rw [serviceCycles, if_pos (by omega)]

theorem countLevel_busy (s : GarnetStats) (r : Nat) : (n.countLevel s r).busy = s.busy := by
  unfold countLevel
  dsimp only
  split <;> rfl

theorem countNi_busy (s : GarnetStats) (ep : Nat) : (n.countNi flits s ep).busy = s.busy := by
  unfold countNi
  dsimp only
  split <;> rfl

/-- Steps that leave the service alone leave it alone in a fold. -/
theorem foldl_busy {α : Type} {f : GarnetStats → α → GarnetStats} (hf : ∀ s a, (f s a).busy = s.busy) (as : List α)
    (s : GarnetStats) : (as.foldl f s).busy = s.busy := by
  induction as generalizing s with
  | nil => rfl
  | cons a as ih => exact (ih _).trans (hf s a)

theorem ends_adds (n : Wrapper) (flits : Nat) (ctrl : Bool) (src dst : Nat) (acc : PathAcc) :
    Adds acc.stats.busy (onLevel (n.segCrossings ctrl (n.segOfEp src) ++ n.segCrossings ctrl (n.segOfEp dst)))
      (n.addSegs flits ctrl (n.segOfEp dst) (n.addSegs flits ctrl (n.segOfEp src) acc)).stats.busy := by
  rw [onLevel_append]
  exact (addSegs_adds n flits ctrl _ acc).trans (addSegs_adds n flits ctrl _ _)

theorem edges_adds (n : Wrapper) (flits : Nat) (ctrl : Bool) (es : List (Nat × Nat)) (acc : PathAcc) :
    Adds acc.stats.busy (onLevel (es.flatMap (n.edgeCrossings ctrl)))
      (es.foldl (n.addEdge flits ctrl) acc).stats.busy := by
  rw [onLevel_flatMap]
  exact Adds.foldl (fun acc : PathAcc => acc.stats.busy) (addEdge_adds n flits ctrl) es acc

theorem countPath_adds (n : Wrapper) (flits : Nat) (ctrl : Bool) (src dst : Nat) (path : List Nat) (s : GarnetStats) :
    Adds s.busy (onLevel (n.segCrossings ctrl (n.segOfEp src) ++ n.segCrossings ctrl (n.segOfEp dst) ++
      (path.zip path.tail).flatMap (n.edgeCrossings ctrl))) (n.countPath src dst flits ctrl path s).stats.busy := by
  let start : PathAcc := ⟨path.foldl n.countLevel s, 0, 0, 0⟩
  let ends := n.addSegs flits ctrl (n.segOfEp dst) (n.addSegs flits ctrl (n.segOfEp src) start)
  let counted : PathAcc := { ends with stats := [src, dst].foldl (n.countNi flits) ends.stats }
  have hstart : start.stats.busy = s.busy := foldl_busy countLevel_busy path s
  have hcounted : counted.stats.busy = ends.stats.busy := foldl_busy countNi_busy [src, dst] ends.stats
  have hlast : (n.countPath src dst flits ctrl path s).stats.busy =
      ((path.zip path.tail).foldl (n.addEdge flits ctrl) counted).stats.busy := by
    unfold countPath
    dsimp only
    split <;> rfl
  have hends := ends_adds n flits ctrl src dst start
  have hedges := edges_adds n flits ctrl (path.zip path.tail) counted
  rw [hstart] at hends
  rw [hcounted] at hedges
  rw [hlast, onLevel_append]
  exact hends.trans hedges

theorem finishPacket_busy (hops flits routers treeLinks linkAttributed : Nat) (s : GarnetStats) :
    (finishPacket ctrl hops flits routers treeLinks linkAttributed s).busy = s.busy := by
  unfold finishPacket judge
  dsimp only
  split <;> (unfold countKind; split <;> rfl)

theorem countVisits_busy (w : TierWalk) (mult : Nat) (s : GarnetStats) (l : Nat) :
    (countVisits w flits mult s l).busy = s.busy := by
  unfold countVisits
  split <;> rfl

theorem credit_busy (acc : WalkAcc) (f l e : Nat) : (acc.credit f l e).stats.busy = acc.stats.busy := by
  unfold WalkAcc.credit
  split <;> rfl

theorem attributeLevel_busy (w : TierWalk) (f : Nat) (acc : WalkAcc) (l : Nat) :
    (attributeLevel w f acc l).stats.busy = acc.stats.busy := by
  unfold attributeLevel
  dsimp only
  split
  · rfl
  · split <;> exact credit_busy ..

theorem attributeWalk_busy (w : TierWalk) (f : Nat) (s : GarnetStats) : (attributeWalk w f s).1.busy = s.busy := by
  have hfold : ∀ (ls : List Nat) (acc : WalkAcc), (ls.foldl (attributeLevel w f) acc).stats.busy = acc.stats.busy := by
    intro ls
    induction ls with
    | nil => intro _; rfl
    | cons l ls ih =>
      intro acc
      exact (ih _).trans (attributeLevel_busy w f acc l)
  have := hfold (List.range 7) ⟨s, 0, 0⟩
  unfold attributeWalk
  dsimp only
  split <;> exact this

theorem stackWalk_busy (w : TierWalk) (mult : Nat) (s : GarnetStats) : (stackWalk w flits mult s).busy = s.busy := by
  unfold stackWalk
  split <;> rfl

/-- A walk over the tiers has no link of the tree. -/
theorem msgWalk_busy {nodes : List (String × Nat)} {src dst mult : Nat} {r : GarnetStats × Nat × Nat × Nat}
    (h : n.msgWalk nodes src dst flits mult s = some r) : r.1.busy = s.busy := by
  simp only [msgWalk, Option.bind_eq_bind, Option.bind_eq_some_iff, Option.some.injEq] at h
  obtain ⟨walk, -, sp, -, dp, -, w, -, rfl⟩ := h
  rw [stackWalk_busy, attributeWalk_busy]
  exact foldl_busy (countVisits_busy w mult) _ s

theorem countPacket_adds (nodes : List (String × Nat)) (src dst hops : Nat) (s : GarnetStats) :
    Adds s.busy (onLevel (n.crossings src dst ctrl)) (n.countPacket nodes src dst hops ctrl s).busy := by
  unfold countPacket crossings
  dsimp only
  cases (if n.topology = .CUSTOM then n.file.pathRouters src dst else none) with
  | some path =>
    dsimp only
    rw [finishPacket_busy]
    exact countPath_adds n _ ctrl src dst path s
  | none =>
    dsimp only
    split
    · next hwalk =>
      rw [finishPacket_busy]
      split at hwalk
      · exact absurd hwalk (by simp)
      · have := msgWalk_busy hwalk
        dsimp only at this
        rw [this]
        exact .refl _
    · rw [finishPacket_busy]
      exact .refl _

end Count

end Wrapper

/-! ## The two floors -/

namespace FloorTables

variable {n : Wrapper} {t : FloorTables n}

/-- The link has a place in the counters. -/
def InRange (t : FloorTables n) : LinkId → Prop
  | .up r => r < t.upCount
  | .seg k => k < t.segCount

theorem foldl_max_le {xs : List Nat} {a m : Nat} : xs.foldl max a ≤ m ↔ a ≤ m ∧ ∀ x ∈ xs, x ≤ m := by
  induction xs generalizing a with
  | nil => simp
  | cons x xs ih => rw [List.foldl_cons, ih, Nat.max_le, List.forall_mem_cons, and_assoc]

theorem busyMax_le {b : Busy} {m : Nat} : t.busyMax b ≤ m ↔ ∀ l, t.InRange l → b.at l ≤ m := by
  unfold busyMax
  rw [foldl_max_le]
  constructor
  · intro ⟨_, h⟩ l hl
    refine h _ (List.mem_append.mpr ?_)
    cases l with
    | up r => exact .inl (List.mem_map_of_mem (List.mem_range.mpr hl))
    | seg k => exact .inr (List.mem_map_of_mem (List.mem_range.mpr hl))
  · intro h
    refine ⟨Nat.zero_le m, fun x hx => ?_⟩
    rcases List.mem_append.mp hx with hx | hx
    · obtain ⟨r, hr, rfl⟩ := List.mem_map.mp hx
      exact h (.up r) (List.mem_range.mp hr)
    · obtain ⟨k, hk, rfl⟩ := List.mem_map.mp hx
      exact h (.seg k) (List.mem_range.mp hk)

theorem le_busyMax {b : Busy} {l : LinkId} (h : t.InRange l) : b.at l ≤ t.busyMax b :=
  busyMax_le.mp (Nat.le_refl _) l h

theorem segCrossings_inRange {ctrl : Bool} {segs : List LinkSeg} (hslot : ∀ g ∈ segs, g.slot < t.segCount)
    {x : Crossing} (hx : x ∈ n.segCrossings ctrl segs) : t.InRange x.link := by
  obtain ⟨g, hg, hx⟩ := List.mem_flatMap.mp hx
  rw [List.mem_singleton.mp hx]
  exact hslot g hg

theorem crossings_inRange {src dst : Nat} {ctrl : Bool} {x : Crossing} (hx : x ∈ n.crossings src dst ctrl)
    (hpos : 0 < x.service) : t.InRange x.link := by
  unfold Wrapper.crossings at hx
  split at hx
  · exact absurd hx List.not_mem_nil
  · rcases List.mem_append.mp hx with hx | hx
    · rcases List.mem_append.mp hx with hx | hx
      · exact segCrossings_inRange (t.ep_slot src) hx
      · exact segCrossings_inRange (t.ep_slot dst) hx
    · obtain ⟨e, -, hx⟩ := List.mem_flatMap.mp hx
      rcases List.mem_append.mp hx with hx | hx
      · exact segCrossings_inRange (t.router_slot _) hx
      · rw [List.mem_singleton.mp hx] at hpos ⊢
        refine Nat.lt_of_not_le fun hle => ?_
        have hzero : n.serviceCycles (n.routerUpBits (n.childOf e)) ctrl = 0 := by
          rw [t.up_zero _ hle, Wrapper.serviceCycles, if_pos rfl]
        exact absurd hpos (Nat.not_lt_of_le (Nat.le_of_eq hzero))

/-- The crossings of the records that are priced. -/
def waiting (t : FloorTables n) (roiEnd : Nat) (as : List PendingRecord) : List Crossing :=
  (as.filter (t.Counted roiEnd)).flatMap fun a => n.crossings a.src a.dst a.ctrl

theorem waiting_inRange {roiEnd : Nat} {as : List PendingRecord} {x : Crossing} (hx : x ∈ t.waiting roiEnd as)
    (hpos : 0 < x.service) : t.InRange x.link := by
  obtain ⟨a, -, hx⟩ := List.mem_flatMap.mp hx
  exact crossings_inRange hx hpos

theorem addPending_adds (ht : ¬(t.upCount = 0 ∧ t.segCount = 0)) (roiEnd : Nat) (as : List PendingRecord) (b : Busy) :
    Adds b (t.waiting roiEnd as) (as.foldl (t.addPending roiEnd) b) := by
  induction as generalizing b with
  | nil => exact .refl b
  | cons a as ih =>
    rw [List.foldl_cons]
    unfold waiting
    by_cases ha : t.Counted roiEnd a
    · rw [List.filter_cons_of_pos (by exact decide_eq_true ha), List.flatMap_cons]
      have hstep : t.addPending roiEnd b a = n.addPathService t a.src a.dst a.ctrl b := if_pos ha
      rw [hstep]
      exact (Wrapper.addPathService_adds ht a.src a.dst b).trans (ih _)
    · rw [List.filter_cons_of_neg (by simpa using ha)]
      have hstep : t.addPending roiEnd b a = b := if_neg ha
      rw [hstep]
      exact ih b

theorem drained_adds (nodes : List (String × Nat)) (hops : PendingRecord → Nat) (roiEnd : Nat)
    (as : List PendingRecord) (s : GarnetStats) :
    Adds s.busy (Wrapper.onLevel (t.waiting roiEnd as)) (t.drained nodes hops roiEnd as s).busy := by
  unfold waiting
  rw [Wrapper.onLevel_flatMap]
  exact Adds.foldl _ (fun s a => Wrapper.countPacket_adds nodes a.src a.dst (hops a) s) _ s

/-- The records that wait, in the order of the projection. -/
def pending (phaseBatch : List PendingRecord) (pendingByPhase : List (Nat × List PendingRecord)) : List PendingRecord :=
  phaseBatch ++ pendingByPhase.flatMap (·.2)

theorem projected_eq (ht : ¬(t.upCount = 0 ∧ t.segCount = 0)) (roiEnd : Nat) (phaseBatch : List PendingRecord)
    (pendingByPhase : List (Nat × List PendingRecord)) (s : GarnetStats) :
    t.linkBusyMaxCyclesProjected roiEnd phaseBatch pendingByPhase s =
      t.clock.fabToDev (t.busyMax ((pending phaseBatch pendingByPhase).foldl (t.addPending roiEnd) s.busy)) := by
  unfold linkBusyMaxCyclesProjected pending
  rw [if_neg ht, List.foldl_append, List.foldl_flatMap]

/-! ### Crossings with no level -/

theorem total_onLevel (l : LinkId) (xs : List Crossing) :
    total l xs = total l (Wrapper.onLevel xs) + total l (xs.filter fun x => !decide x.OnLevel) := by
  induction xs with
  | nil => rfl
  | cons x xs ih =>
    unfold Wrapper.onLevel at ih ⊢
    by_cases hx : x.OnLevel
    · rw [List.filter_cons_of_pos (by simpa using hx), List.filter_cons_of_neg (by simpa using hx), total_cons l x xs,
        total_cons l x (xs.filter _), ih, Nat.add_assoc]
    · rw [List.filter_cons_of_neg (by simpa using hx), List.filter_cons_of_pos (by simpa using hx), total_cons l x xs,
        total_cons l x (xs.filter _), ih]
      exact Nat.add_left_comm _ _ _

theorem total_onLevel_of {l : LinkId} {xs : List Crossing} (h : ∀ x ∈ xs, 0 < x.service → x.OnLevel) :
    total l (Wrapper.onLevel xs) = total l xs := by
  have hidle : total l (xs.filter fun x => !decide x.OnLevel) = 0 := by
    refine List.sum_eq_zero fun c hc => ?_
    obtain ⟨x, hx, rfl⟩ := List.mem_map.mp hc
    have hx := List.mem_filter.mp (List.mem_filter.mp hx).1
    refine Nat.eq_zero_of_not_pos fun hpos => ?_
    have := h x hx.1 hpos
    simp [this] at hx
  rw [total_onLevel l xs, hidle, Nat.add_zero]

theorem total_onLevel_lt {xs : List Crossing} {x : Crossing} (hx : x ∈ xs) (hlv : ¬x.OnLevel) (hpos : 0 < x.service) :
    total x.link (Wrapper.onLevel xs) < total x.link xs := by
  have hmem : x.service ∈ ((xs.filter fun x => !decide x.OnLevel).filter (·.link = x.link)).map (·.service) := by
    refine List.mem_map_of_mem (List.mem_filter.mpr ⟨List.mem_filter.mpr ⟨hx, ?_⟩, ?_⟩)
    · simpa using hlv
    · exact decide_eq_true rfl
  have hle : x.service ≤ total x.link (xs.filter fun x => !decide x.OnLevel) := List.single_le_sum (by simp) _ hmem
  rw [total_onLevel x.link xs]
  omega

theorem total_le (l : LinkId) (xs : List Crossing) : total l xs ≤ (xs.map (·.service)).sum :=
  (List.filter_sublist.map _).sum_le_sum fun _ _ => Nat.zero_le _

theorem fabToDev_lt (k : FabricClock) (q e : Nat) (he : 0 < e) :
    k.fabToDev (k.fabNum * q) < k.fabToDev (k.fabNum * q + e) := by
  unfold FabricClock.fabToDev
  split
  · omega
  · have hnum := k.num_pos
    have hleft : (k.fabNum * q * k.fabDen + k.fabNum - 1) / k.fabNum = q * k.fabDen := by
      rw [Nat.mul_assoc, Nat.add_sub_assoc hnum, Nat.mul_add_div hnum, Nat.div_eq_of_lt (by omega), Nat.add_zero]
    rw [hleft, Nat.lt_iff_add_one_le, Nat.le_div_iff_mul_le hnum]
    have hone : 1 ≤ e * k.fabDen := Nat.mul_pos he k.den_pos
    calc (q * k.fabDen + 1) * k.fabNum = k.fabNum * q * k.fabDen + k.fabNum := by ring
      _ ≤ k.fabNum * q * k.fabDen + e * k.fabDen + k.fabNum - 1 := by omega
      _ = _ := by rw [Nat.add_mul]

theorem fabToDev_mono (k : FabricClock) {a b : Nat} (h : a ≤ b) : k.fabToDev a ≤ k.fabToDev b := by
  unfold FabricClock.fabToDev
  split
  · exact h
  · have := Nat.mul_le_mul_right k.fabDen h
    exact Nat.div_le_div_right (by omega)

theorem fabToDev_zero (k : FabricClock) : k.fabToDev 0 = 0 := by
  unfold FabricClock.fabToDev
  have := k.num_pos
  split
  · rfl
  · exact Nat.div_eq_of_lt (by omega)

theorem busyMax_congr {b b' : Busy} (h : ∀ l, b.at l = b'.at l) : t.busyMax b = t.busyMax b' := by
  refine Nat.le_antisymm (busyMax_le.mpr fun l hl => ?_) (busyMax_le.mpr fun l hl => ?_)
  · rw [h l]
    exact le_busyMax hl
  · rw [← h l]
    exact le_busyMax hl

/-- Counters at `c` on one link. -/
def alone (l : LinkId) (c : Nat) : GarnetStats :=
  match l with
  | .up r => { edgeBusy := fun i => if i = r then c else 0 }
  | .seg k => { segBusy := fun i => if i = k then c else 0 }

theorem alone_at (l l' : LinkId) (c : Nat) : (alone l c).busy.at l' = if l' = l then c else 0 := by
  cases l <;> cases l' <;> simp [alone, GarnetStats.busy, Busy.at]

theorem mem_waiting {roiEnd : Nat} {as : List PendingRecord} {x : Crossing} :
    x ∈ t.waiting roiEnd as ↔ ∃ a ∈ as, t.Counted roiEnd a ∧ x ∈ n.crossings a.src a.dst a.ctrl := by
  simp only [waiting, List.mem_flatMap, List.mem_filter, decide_eq_true_eq, and_assoc]

/-- With the levels there, both walks end with the same counters. -/
theorem projected_floor_of (nodes : List (String × Nat)) (hops : PendingRecord → Nat) {roiEnd : Nat}
    {phaseBatch : List PendingRecord} {pendingByPhase : List (Nat × List PendingRecord)}
    (h : ∀ x ∈ t.waiting roiEnd (pending phaseBatch pendingByPhase), 0 < x.service → x.OnLevel) (s : GarnetStats) :
    t.linkBusyMaxCyclesProjected roiEnd phaseBatch pendingByPhase s =
      t.clock.fabToDev (t.linkBusyMaxCycles (t.drained nodes hops roiEnd (pending phaseBatch pendingByPhase) s)) := by
  by_cases ht : t.upCount = 0 ∧ t.segCount = 0
  · -- no link is served
    have hzero : t.linkBusyMaxCycles (t.drained nodes hops roiEnd (pending phaseBatch pendingByPhase) s) ≤ 0 := by
      refine busyMax_le.mpr fun l hl => ?_
      cases l with
      | up r => exact absurd hl (by simp [InRange, ht.1])
      | seg k => exact absurd hl (by simp [InRange, ht.2])
    rw [Nat.le_zero.mp hzero, fabToDev_zero]
    exact if_pos ht
  · rw [projected_eq ht]
    refine congrArg _ (busyMax_congr fun l => ?_)
    rw [addPending_adds ht roiEnd _ s.busy l, drained_adds nodes hops roiEnd _ s l, total_onLevel_of h]

/-- A link with no level that the records cross: counters high enough on it show its service. -/
theorem exists_floor_lt (nodes : List (String × Nat)) (hops : PendingRecord → Nat) {roiEnd : Nat}
    {phaseBatch : List PendingRecord} {pendingByPhase : List (Nat × List PendingRecord)} {x : Crossing}
    (hx : x ∈ t.waiting roiEnd (pending phaseBatch pendingByPhase)) (hpos : 0 < x.service) (hlv : ¬x.OnLevel) :
    ∃ s, t.clock.fabToDev
        (t.linkBusyMaxCycles (t.drained nodes hops roiEnd (pending phaseBatch pendingByPhase) s)) <
      t.linkBusyMaxCyclesProjected roiEnd phaseBatch pendingByPhase s := by
  have hin := waiting_inRange hx hpos
  have ht : ¬(t.upCount = 0 ∧ t.segCount = 0) := by
    intro h
    cases hl : x.link with
    | up r => simp [hl, InRange, h.1] at hin
    | seg k => simp [hl, InRange, h.2] at hin
  -- the counted service, a bound for all of it, and a multiple of the clock's numerator above it
  have hlt := total_onLevel_lt hx hlv hpos
  have hle : ∀ l, total l (Wrapper.onLevel (t.waiting roiEnd (pending phaseBatch pendingByPhase))) ≤
      ((t.waiting roiEnd (pending phaseBatch pendingByPhase)).map (·.service)).sum := by
    intro l
    have := total_le l (t.waiting roiEnd (pending phaseBatch pendingByPhase))
    have := total_onLevel l (t.waiting roiEnd (pending phaseBatch pendingByPhase))
    omega
  generalize hW : t.waiting roiEnd (pending phaseBatch pendingByPhase) = W at hlt hle
  have hbase : (W.map (·.service)).sum + 1 ≤ t.clock.fabNum * ((W.map (·.service)).sum + 1) :=
    Nat.le_mul_of_pos_left _ t.clock.num_pos
  have hleLink := hle x.link
  obtain ⟨q, hq⟩ : ∃ q, q = (W.map (·.service)).sum + 1 := ⟨_, rfl⟩
  rw [← hq] at hbase
  refine ⟨alone x.link (t.clock.fabNum * q - total x.link (Wrapper.onLevel W)), ?_⟩
  rw [projected_eq ht]
  have hdrained := drained_adds nodes hops roiEnd (pending phaseBatch pendingByPhase) (t := t)
    (alone x.link (t.clock.fabNum * q - total x.link (Wrapper.onLevel W)))
  have hprojected := addPending_adds ht roiEnd (pending phaseBatch pendingByPhase)
    (alone x.link (t.clock.fabNum * q - total x.link (Wrapper.onLevel W))).busy
  rw [hW] at hdrained hprojected
  refine Nat.lt_of_le_of_lt (fabToDev_mono _ (busyMax_le.mpr fun l _ => ?_))
    (Nat.lt_of_lt_of_le (fabToDev_lt t.clock q (total x.link W - total x.link (Wrapper.onLevel W)) (by omega))
      (fabToDev_mono _ (Nat.le_trans ?_ (le_busyMax hin))))
  · rw [hdrained l, alone_at]
    have := hle l
    split
    · next heq =>
      rw [heq]
      omega
    · omega
  · rw [hprojected x.link, alone_at, if_pos rfl]
    omega

/-- **The projected floor is the drain's**, for any counters so far, just when every waiting
record that is priced has a level for each link with a width that it crosses. -/
theorem projected_floor (t : FloorTables n) (nodes : List (String × Nat)) (hops : PendingRecord → Nat) (roiEnd : Nat)
    (phaseBatch : List PendingRecord) (pendingByPhase : List (Nat × List PendingRecord)) :
    (∀ s, t.linkBusyMaxCyclesProjected roiEnd phaseBatch pendingByPhase s =
        t.clock.fabToDev (t.linkBusyMaxCycles (t.drained nodes hops roiEnd (pending phaseBatch pendingByPhase) s))) ↔
      ∀ a ∈ pending phaseBatch pendingByPhase, t.Counted roiEnd a →
        ∀ x ∈ n.crossings a.src a.dst a.ctrl, 0 < x.service → x.OnLevel := by
  constructor
  · intro h a ha hcounted x hx hpos
    by_contra hlv
    obtain ⟨s, hs⟩ := exists_floor_lt nodes hops (mem_waiting.mpr ⟨a, ha, hcounted, hx⟩) hpos hlv
    exact absurd (h s) (Nat.ne_of_gt hs)
  · intro h
    refine projected_floor_of nodes hops fun x hx => ?_
    obtain ⟨a, ha, hcounted, hx⟩ := mem_waiting.mp hx
    exact h a ha hcounted x hx

end FloorTables

/-- Two routers with a link of 64 bits between them, and no level for either. -/
def unlevelled : Wrapper :=
  { topology := .CUSTOM, cycleAccurate := true, flitSizeBits := 128, dataMsgBits := 576, controlMsgBits := 64
    file := ⟨2, 2, [(0, 0), (1, 1)], [(0, 1), (1, 0)], [], []⟩
    routerUpBits := fun r => if r = 1 then 64 else 0 }

def unlevelledTables : FloorTables unlevelled where
  upCount := 2
  segCount := 0
  numNodes := 2
  clock := {}
  up_zero := fun r hr => if_neg (by omega)
  router_slot := fun _ _ hg => absurd hg List.not_mem_nil
  ep_slot := fun _ _ hg => absurd hg List.not_mem_nil

/-- One data message waits: its nine cycles are in the floor and are never counted. -/
theorem floor_without_level :
    unlevelledTables.linkBusyMaxCyclesProjected 0 [⟨0, 1, false, 0⟩] [] {} = 9 ∧
      unlevelledTables.linkBusyMaxCycles
        (unlevelledTables.drained [] (fun _ => 1) 0 (FloorTables.pending [⟨0, 1, false, 0⟩] []) {}) = 0 := by
  decide +kernel

end Pimid.Garnet
