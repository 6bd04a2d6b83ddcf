import Pimid.Lib.Machine
import Mathlib.Algebra.Order.Floor.Ring
import Mathlib.Data.Rat.Floor
import Mathlib.Logic.Function.Basic

/-!
# The release of a core's records in the closed loop

In the closed loop a record waits in its core's queue until the core can issue it. It is
then released: it gets a tick on the replay's clock, from its stamp and what the core owes
so far, and is moved to its controller's door when the clock has come that far. The released
records of all cores wait in one map, ordered by tick and then by number.

What completions do to the fields that a release reads is one operation with arbitrary
values. Doubles are exact rationals; statistics and the ledger are left out.
-/

namespace Pimid.Dram.Release

open Function (update update_of_ne update_self)

/-! ## State -/

structure Cfg where
  ticksPerCycle : ℚ
  cutMode : Bool
  roiTick0 : Nat
  roiMarked : Bool
  miTicks : Nat → ℚ
  superqueueOf : Nat → Nat
  closed : Nat → Bool
  ooo : Nat → Bool
  capacity : Nat → Nat

structure Rec where
  stamp : Nat
  core : Nat
  hold : Bool
  chg : Nat := 0
  ref : Nat := 0
  refT : ℚ := 0
  dly : Int := 0
  pf : Bool := false
  sync : Bool := false
  dmab : Nat := 0
  mi : Nat := 0
  seq : Nat := 0
deriving DecidableEq

structure Waiting where
  r : Rec
  target : Nat := 0
  out : Bool := false
  gated : Bool := false
  pfg : Bool := false
  late : Nat := 0
deriving DecidableEq

/-- What completions change of a core. -/
structure Done where
  out : Nat := 0
  pfOut : Nat := 0
  diff : ℚ := 0
  dmaOpen : Nat := 0
  dmaComp : Nat := 0
  dmaChgEnd : ℚ := 0
  lastDoneT : Nat := 0
  lastChgEndS : ℚ := 0
  rt : Bool := false

structure CoreCL extends Done where
  id : Nat
  ooo : Bool
  cap : Nat
  sqCap : Nat := 0
  fifo : List Waiting := []
  refSeen : ℚ := 0
  dlySeen : ℚ := 0
  pendChgEndS : ℚ := 0
  dmaTpc : ℚ := 1
  dmaT0 : ℚ := 0
  dmaS0 : Nat := 0
  dmaSeq : Nat := 0

/-- A released record in the map; `owner` is the core whose queue it left. -/
structure Entry where
  tick : Nat
  seq : Nat
  owner : Option Nat
  w : Waiting
deriving DecidableEq

/-- `released`, `served` and `fed` are not in the code: the entries in the order of their
release, those that have reached their doors, and what each core's queue was given. -/
structure St where
  cl : Nat → CoreCL
  rel : List Entry := []
  relSeq : Nat := 0
  curTick : Nat := 0
  released : List Entry := []
  served : List Entry := []
  fed : Nat → List Rec := fun _ => []

/-! ## A release -/

section Core

variable (cfg : Cfg) (k : CoreCL) (r : Rec)

/-- A line of the DMA transfer that the core has started. -/
def inDma : Bool := decide (r.dmab ≠ 0) && decide (r.dmab = k.dmaOpen)

def sqCapOf : Nat := if k.sqCap = 0 then cfg.superqueueOf k.id else k.sqCap

def sqFull : Bool := decide (sqCapOf cfg k ≠ 0) && decide (k.out + k.pfOut ≥ sqCapOf cfg k)

/-- The core cannot issue the record yet. -/
def blocked : Bool :=
  (r.pf && sqFull cfg k) || (r.hold && !inDma k r && !(r.sync && !k.ooo) &&
    (decide (k.out ≥ k.cap) || sqFull cfg k || (decide (k.dmaOpen ≠ 0) && decide (k.out > 0))))

def recDmaClose : CoreCL :=
  let d : ℚ := if k.dmaOpen ≠ 0 ∧ k.dmaComp ≠ 0 ∧ cfg.roiMarked then ((k.dmaComp : ℚ) - k.dmaChgEnd) / k.dmaTpc else 0
  { k with
    diff := k.diff + d
    lastDoneT := if k.dmaComp ≠ 0 then k.dmaComp else k.lastDoneT
    lastChgEndS := if k.dmaComp ≠ 0 then k.pendChgEndS else k.lastChgEndS
    dmaOpen := 0, dmaComp := 0, dmaChgEnd := 0 }

/-- Before a record is timed: its core's transfer ends, and the delay it carries counts. -/
def prepare : CoreCL :=
  let k' := if r.hold && !inDma k r && decide (k.dmaOpen ≠ 0) then recDmaClose cfg k else k
  { k' with sqCap := sqCapOf cfg k, dlySeen := k'.dlySeen + r.dly }

/-- The balance that is not applied yet. -/
def shift : ℚ :=
  let bal := k.diff + k.refSeen - k.dlySeen
  if k.ooo then max 0 bal else bal

/-- When the record is due on the core's timeline: at its stamp and the shift; in a blocking
core no sooner than its own time after its last access; in a transfer at the engine's pace. -/
def dueAt (dma : Bool) : ℚ :=
  let t := ((r.stamp : ℚ) + shift k) * cfg.ticksPerCycle + if cfg.cutMode then (cfg.roiTick0 : ℚ) else 0
  let t := if !k.ooo && r.hold && !dma && !r.sync && decide (k.lastDoneT ≠ 0) then
      max t ((k.lastDoneT : ℚ) + max 0 ((r.stamp : ℚ) - k.lastChgEndS - r.dly) * cfg.ticksPerCycle)
    else t
  if dma && r.hold then k.dmaT0 + ((r.stamp - k.dmaS0 : Nat) : ℚ) * cfg.ticksPerCycle else t

/-- When the next record would be due if it were released now. -/
def due : ℚ := dueAt cfg (prepare cfg k r) r (inDma k r)

/-- The core after the release, timed at `t` and put at `tgt`. -/
def issued (dma : Bool) (out : Bool) (t : ℚ) (tgt : Nat) : CoreCL :=
  let ce : ℚ := r.stamp + ((r.chg - min r.chg r.ref : Nat) : ℚ)
  let k := { k with
    refSeen := k.refSeen + r.refT
    out := if r.hold then k.out + 1 else k.out
    pfOut := if r.pf then k.pfOut + 1 else k.pfOut
    pendChgEndS := if r.hold && !k.ooo then
        (if decide (r.dmab ≠ 0) && dma then max k.pendChgEndS ce else ce) else k.pendChgEndS }
  if r.hold && decide (r.dmab ≠ 0) then
    let tpc := cfg.miTicks r.mi
    let k := if dma then k else { k with dmaOpen := r.dmab, dmaComp := 0, dmaChgEnd := 0, dmaT0 := tgt, dmaS0 := r.stamp }
    { k with
      dmaTpc := tpc
      dmaSeq := if dma then max k.dmaSeq r.seq else r.seq
      dmaChgEnd := if !out && cfg.roiMarked then max k.dmaChgEnd (t + ((r.chg - min r.chg r.ref : Nat) : ℚ) * tpc) else k.dmaChgEnd }
  else k

end Core

/-- The order of the map. -/
def keyLt (x y : Entry) : Prop := x.tick < y.tick ∨ x.tick = y.tick ∧ x.seq < y.seq

instance (x y : Entry) : Decidable (keyLt x y) := inferInstanceAs (Decidable (_ ∨ _))

def insert (e : Entry) : List Entry → List Entry
  | [] => [e]
  | x :: xs => if keyLt e x then e :: x :: xs else x :: insert e xs

def clQueue (s : St) (owner : Option Nat) (w : Waiting) (tick : Nat) : St :=
  let e : Entry := ⟨tick, s.relSeq, owner, w⟩
  { s with rel := insert e s.rel, relSeq := s.relSeq + 1, released := s.released ++ [e] }

/-- One turn of `clRelease`: the first record of the queue, if the core can issue it. It is
never put behind the clock. -/
def releaseOne (cfg : Cfg) (core : Nat) (s : St) : Option St :=
  let k := s.cl core
  match k.fifo with
  | [] => none
  | h :: rest =>
    if blocked cfg k h.r then none
    else
      let dma := inDma k h.r
      let t := due cfg k h.r
      let t₀ := Nat.floor t
      let tgt := max s.curTick t₀
      let late := if t₀ < s.curTick ∧ cfg.roiMarked ∧ !h.out ∧ k.rt ∧ h.r.hold then s.curTick - t₀ else h.late
      let k' := { issued cfg (prepare cfg k h.r) h.r dma h.out t tgt with fifo := rest }
      some (clQueue { s with cl := update s.cl core k' } (some core)
        { h with target := tgt, gated := h.r.hold || h.gated, pfg := h.r.pf || h.pfg, late } tgt)

/-- `clRelease`, at most `n` turns. -/
def clRelease (cfg : Cfg) (core : Nat) : Nat → St → St
  | 0, s => s
  | n + 1, s =>
    match releaseOne cfg core s with
    | none => s
    | some s' => clRelease cfg core n s'

/-! ## Steps -/

inductive Op where
  | feed (w : Waiting)
  | done (core : Nat) (d : Done) (goOn : Bool)
  | tick
  | serve

/-- A record joins its core's queue. -/
def push (s : St) (w : Waiting) : St :=
  let k := s.cl w.r.core
  { s with
    cl := update s.cl w.r.core { k with fifo := k.fifo ++ [w] }
    fed := update s.fed w.r.core (s.fed w.r.core ++ [w.r]) }

def complete (s : St) (core : Nat) (d : Done) : St :=
  { s with cl := update s.cl core { s.cl core with toDone := d } }

/-- The first of the released records, if its tick has come. -/
def serveOne (s : St) : St :=
  match s.rel with
  | [] => s
  | e :: rest => if e.tick ≤ s.curTick then { s with rel := rest, served := s.served ++ [e] } else s

/-- The turns that a queue can take. -/
def turns (s : St) (core : Nat) : Nat := (s.cl core).fifo.length

def exec (cfg : Cfg) (s : St) : Op → St
  | .feed w =>
    if cfg.closed w.r.core then clRelease cfg w.r.core (turns (push s w) w.r.core) (push s w)
    else clQueue s none w w.target
  | .done core d goOn =>
    if goOn then clRelease cfg core (turns (complete s core d) core) (complete s core d) else complete s core d
  | .tick => { s with curTick := s.curTick + 1 }
  | .serve => serveOne s

def init (cfg : Cfg) : St := { cl := fun core => { id := core, ooo := cfg.ooo core, cap := max 1 (cfg.capacity core) } }

/-! ## The order -/

/-- The entries of one core's queue. -/
def ofCore (core : Nat) (es : List Entry) : List Entry := es.filter fun e => decide (e.owner = some core)

/-- Each core's records reach their doors, and will reach them, in the order of their release. -/
def InOrder (s : St) : Prop := ∀ core, ofCore core (s.served ++ s.rel) = ofCore core s.released

/-- The next record of the core is due no sooner than its released records that still wait. -/
def OnTime (cfg : Cfg) (core : Nat) (s : St) : Prop :=
  match (s.cl core).fifo with
  | [] => True
  | h :: _ => ∀ x ∈ s.rel, x.owner = some core → s.curTick < x.tick → (x.tick : ℚ) ≤ due cfg (s.cl core) h.r

/-- So is every record that `clRelease` releases. -/
def Paced (cfg : Cfg) (core : Nat) : Nat → St → Prop
  | 0, _ => True
  | n + 1, s =>
    match releaseOne cfg core s with
    | none => True
    | some s' => OnTime cfg core s ∧ Paced cfg core n s'

/-- So is every record that the step releases. -/
def StepPaced (cfg : Cfg) (s : St) : Op → Prop
  | .feed w => cfg.closed w.r.core = true → Paced cfg w.r.core (turns (push s w) w.r.core) (push s w)
  | .done core d goOn => goOn = true → Paced cfg core (turns (complete s core d) core) (complete s core d)
  | .tick => True
  | .serve => True

section Insert

variable {e : Entry} {xs : List Entry}

theorem insert_perm : (insert e xs).Perm (e :: xs) := by
  induction xs with
  | nil => exact .refl _
  | cons x xs ih =>
    rw [insert]
    split
    · exact .refl _
    · exact (ih.cons x).trans (.swap e x xs)

theorem keyLt_trans {x y z : Entry} (h : keyLt x y) (h' : keyLt y z) : keyLt x z := by
  unfold keyLt at *
  omega

theorem keyLt_of_not {x : Entry} (h : ¬keyLt e x) (hseq : x.seq < e.seq) : keyLt x e := by
  unfold keyLt at *
  omega

theorem insert_sorted (h : xs.Pairwise keyLt) (hseq : ∀ x ∈ xs, x.seq < e.seq) : (insert e xs).Pairwise keyLt := by
  induction xs with
  | nil => exact List.pairwise_singleton _ _
  | cons x xs ih =>
    obtain ⟨hx, hxs⟩ := List.pairwise_cons.mp h
    rw [insert]
    split
    next hlt =>
      refine List.pairwise_cons.mpr ⟨fun y hy => ?_, h⟩
      rcases List.mem_cons.mp hy with rfl | hy
      · exact hlt
      · exact keyLt_trans hlt (hx y hy)
    next hlt =>
      refine List.pairwise_cons.mpr ⟨fun y hy => ?_, ih hxs fun y hy => hseq y (List.mem_cons_of_mem _ hy)⟩
      rcases List.mem_cons.mp (insert_perm.mem_iff.mp hy) with rfl | hy
      · exact keyLt_of_not hlt (hseq x (List.mem_cons_self ..))
      · exact hx y hy

theorem ofCore_insert_other {core : Nat} (h : e.owner ≠ some core) : ofCore core (insert e xs) = ofCore core xs := by
  induction xs with
  | nil => exact List.filter_cons_of_neg (by simp [h])
  | cons x xs ih =>
    rw [insert]
    split
    · exact List.filter_cons_of_neg (by simp [h])
    · rw [ofCore, ofCore, List.filter_cons, List.filter_cons]
      rw [ofCore, ofCore] at ih
      rw [ih]

/-- The newest entry keeps its core's numbers in order exactly when it overtakes none of its
core's. -/
theorem numbered_insert {core : Nat} (h : xs.Pairwise keyLt) (hseq : ∀ x ∈ xs, x.seq < e.seq) (hown : e.owner = some core) :
    (ofCore core (insert e xs)).Pairwise (fun x y => x.seq < y.seq) ↔
      (ofCore core xs).Pairwise (fun x y => x.seq < y.seq) ∧ ∀ x ∈ xs, x.owner = some core → x.tick ≤ e.tick := by
  induction xs with
  | nil => simp [insert, ofCore, hown]
  | cons x xs ih =>
    obtain ⟨hx, hxs⟩ := List.pairwise_cons.mp h
    have hseq' : ∀ y ∈ xs, y.seq < e.seq := fun y hy => hseq y (List.mem_cons_of_mem _ hy)
    have hlater := hseq x (List.mem_cons_self ..)
    rw [insert]
    split
    next hlt =>
      -- everything from here on has a later tick
      have htick : ∀ y ∈ x :: xs, e.tick < y.tick := by
        intro y hy
        have hkey : keyLt e y := by
          rcases List.mem_cons.mp hy with rfl | hy
          · exact hlt
          · exact keyLt_trans hlt (hx y hy)
        have hnum := hseq y hy
        unfold keyLt at hkey
        omega
      have hmine : ofCore core (e :: x :: xs) = e :: ofCore core (x :: xs) := List.filter_cons_of_pos (by simp [hown])
      rw [hmine, List.pairwise_cons]
      constructor
      · intro ⟨hall, hrest⟩
        refine ⟨hrest, fun y hy howner => ?_⟩
        have hnum := hall y (List.mem_filter.mpr ⟨hy, decide_eq_true howner⟩)
        have hold := hseq y hy
        omega
      · intro ⟨hrest, hticks⟩
        refine ⟨fun y hy => ?_, hrest⟩
        obtain ⟨hmem, howner⟩ := List.mem_filter.mp hy
        have hle := hticks y hmem (of_decide_eq_true howner)
        have hlt := htick y hmem
        omega
    next hlt =>
      have hkey := keyLt_of_not hlt hlater
      have hle : x.tick ≤ e.tick := by
        unfold keyLt at hkey
        omega
      rw [List.forall_mem_cons]
      by_cases howner : x.owner = some core
      · have hhead : ∀ ys, ofCore core (x :: ys) = x :: ofCore core ys := fun ys => List.filter_cons_of_pos (by simp [howner])
        rw [hhead, hhead, List.pairwise_cons, List.pairwise_cons, ih hxs hseq']
        have hmem : (∀ y ∈ ofCore core (insert e xs), x.seq < y.seq) ↔ ∀ y ∈ ofCore core xs, x.seq < y.seq := by
          constructor
          · intro hall y hy
            obtain ⟨hy, hown'⟩ := List.mem_filter.mp hy
            exact hall y (List.mem_filter.mpr ⟨insert_perm.mem_iff.mpr (List.mem_cons_of_mem _ hy), hown'⟩)
          · intro hall y hy
            obtain ⟨hy, hown'⟩ := List.mem_filter.mp hy
            rcases List.mem_cons.mp (insert_perm.mem_iff.mp hy) with rfl | hy
            · exact hlater
            · exact hall y (List.mem_filter.mpr ⟨hy, hown'⟩)
        rw [hmem]
        constructor
        · intro ⟨hall, hnum, hticks⟩
          exact ⟨⟨hall, hnum⟩, fun _ => hle, hticks⟩
        · intro ⟨⟨hall, hnum⟩, _, hticks⟩
          exact ⟨hall, hnum, hticks⟩
      · have hhead : ∀ ys, ofCore core (x :: ys) = ofCore core ys := fun ys => List.filter_cons_of_neg (by simp [howner])
        rw [hhead, hhead, ih hxs hseq']
        constructor
        · intro ⟨hnum, hticks⟩
          exact ⟨hnum, fun hown' => absurd hown' howner, hticks⟩
        · intro ⟨hnum, _, hticks⟩
          exact ⟨hnum, hticks⟩

end Insert

/-! ## Invariants -/

structure Inv (s : St) : Prop where
  sorted : s.rel.Pairwise keyLt
  numbered : s.released.Pairwise fun x y => x.seq < y.seq
  old : ∀ x ∈ s.released, x.seq < s.relSeq
  perm : (s.served ++ s.rel).Perm s.released
  queue : ∀ core, (ofCore core s.released).map (·.w.r) ++ (s.cl core).fifo.map (·.r) = s.fed core

variable {cfg : Cfg} {s s' : St} {core : Nat}

theorem Inv.old_rel (h : Inv s) : ∀ x ∈ s.rel, x.seq < s.relSeq := fun x hx =>
  h.old x (h.perm.mem_iff.mp (List.mem_append_right _ hx))

theorem inv_init (cfg : Cfg) : Inv (init cfg) where
  sorted := List.Pairwise.nil
  numbered := List.Pairwise.nil
  old := fun _ h => nomatch h
  perm := .refl _
  queue := fun _ => rfl

theorem inOrder_iff (h : Inv s) :
    InOrder s ↔ ∀ core, (ofCore core (s.served ++ s.rel)).Pairwise fun x y => x.seq < y.seq := by
  constructor
  · intro hin core
    rw [hin core]
    exact h.numbered.sublist List.filter_sublist
  · intro hnum core
    refine List.Perm.eq_of_pairwise (fun x y _ _ hxy hyx => ?_) (hnum core) (h.numbered.sublist List.filter_sublist)
      (h.perm.filter _)
    omega

theorem Inv.clQueue (h : Inv s) (owner : Option Nat) (w : Waiting) (tick : Nat) (cl : Nat → CoreCL)
    (hqueue : ∀ core, (ofCore core (s.released ++ [⟨tick, s.relSeq, owner, w⟩])).map (·.w.r) ++ (cl core).fifo.map (·.r) =
      s.fed core) :
    Inv (clQueue { s with cl } owner w tick) ∧
      (InOrder (clQueue { s with cl } owner w tick) ↔
        InOrder s ∧ ∀ core, owner = some core → ∀ x ∈ s.rel, x.owner = some core → x.tick ≤ tick) := by
  generalize he : (⟨tick, s.relSeq, owner, w⟩ : Entry) = e at hqueue
  have hseq : e.seq = s.relSeq := by rw [← he]
  have hown : e.owner = owner := by rw [← he]
  have htick : e.tick = tick := by rw [← he]
  have hnew : Release.clQueue { s with cl } owner w tick =
      { s with cl, rel := insert e s.rel, relSeq := s.relSeq + 1, released := s.released ++ [e] } := by
    rw [← he]
    rfl
  have hold : ∀ x ∈ s.rel, x.seq < e.seq := fun x hx => hseq.symm ▸ h.old_rel x hx
  have hinv : Inv (Release.clQueue { s with cl } owner w tick) := by
    rw [hnew]
    refine ⟨insert_sorted h.sorted hold, ?_, fun x hx => ?_, ?_, hqueue⟩
    · refine List.pairwise_append.mpr ⟨h.numbered, List.pairwise_singleton _ _, fun x hx y hy => ?_⟩
      rw [List.mem_singleton.mp hy, hseq]
      exact h.old x hx
    · rcases List.mem_append.mp hx with hx | hx
      · exact Nat.lt_succ_of_lt (h.old x hx)
      · rw [List.mem_singleton.mp hx, hseq]
        exact Nat.lt_succ_self _
    · refine ((insert_perm : (insert e s.rel).Perm (e :: s.rel)).append_left s.served).trans ?_
      exact (List.perm_middle.trans (h.perm.cons e)).trans (List.perm_append_singleton _ _).symm
  refine ⟨hinv, ?_⟩
  rw [inOrder_iff hinv, inOrder_iff h, hnew, ← forall_and]
  refine forall_congr' fun core => ?_
  dsimp only
  have hsplit (xs : List Entry) : ofCore core (s.served ++ xs) = ofCore core s.served ++ ofCore core xs := List.filter_append ..
  rw [hsplit, hsplit, List.pairwise_append, List.pairwise_append]
  by_cases hc : owner = some core
  · rw [numbered_insert h.sorted hold (hown.trans hc), htick]
    have hcross : (∀ x ∈ ofCore core s.served, ∀ y ∈ ofCore core (insert e s.rel), x.seq < y.seq) ↔
        ∀ x ∈ ofCore core s.served, ∀ y ∈ ofCore core s.rel, x.seq < y.seq := by
      refine forall₂_congr fun x hx => ⟨fun hall y hy => ?_, fun hall y hy => ?_⟩
      · obtain ⟨hy, hown'⟩ := List.mem_filter.mp hy
        exact hall y (List.mem_filter.mpr ⟨insert_perm.mem_iff.mpr (List.mem_cons_of_mem _ hy), hown'⟩)
      · obtain ⟨hy, hown'⟩ := List.mem_filter.mp hy
        rcases List.mem_cons.mp (insert_perm.mem_iff.mp hy) with rfl | hy
        · rw [hseq]
          exact h.old x (h.perm.mem_iff.mp (List.mem_append_left _ (List.mem_filter.mp hx).1))
        · exact hall y (List.mem_filter.mpr ⟨hy, hown'⟩)
    rw [hcross]
    constructor
    · intro ⟨hserved, ⟨hrel, hticks⟩, hall⟩
      exact ⟨⟨hserved, hrel, hall⟩, fun _ => hticks⟩
    · intro ⟨⟨hserved, hrel, hall⟩, hticks⟩
      exact ⟨hserved, ⟨hrel, hticks hc⟩, hall⟩
  · rw [ofCore_insert_other (fun h => hc (hown.symm.trans h))]
    exact ⟨fun hall => ⟨hall, fun h => absurd h hc⟩, fun hall => hall.1⟩

theorem ofCore_snoc_same {e : Entry} {es : List Entry} (h : e.owner = some core) : ofCore core (es ++ [e]) = ofCore core es ++ [e] := by
  rw [ofCore, List.filter_append]
  congr 1
  exact List.filter_cons_of_pos (by simp [h])

theorem ofCore_snoc_other {e : Entry} {es : List Entry} (h : e.owner ≠ some core) : ofCore core (es ++ [e]) = ofCore core es := by
  rw [ofCore, List.filter_append]
  conv_rhs => rw [ofCore, ← List.append_nil (List.filter _ es)]
  congr 1
  exact List.filter_cons_of_neg (by simp [h])

theorem Inv.releaseOne (h : Inv s) (hs : releaseOne cfg core s = some s') :
    Inv s' ∧ (InOrder s' ↔ InOrder s ∧ OnTime cfg core s) := by
  rw [Release.releaseOne] at hs
  dsimp only at hs
  split at hs
  · cases hs
  next first rest hfifo =>
    split at hs
    · cases hs
    next hfree =>
      rw [← Option.some.inj hs]
      refine (h.clQueue _ _ _ _ fun c => ?_).imp_right fun hin => ?_
      · by_cases hc : c = core
        · subst hc
          rw [ofCore_snoc_same rfl, update_self, ← h.queue c, hfifo]
          simp
        · rw [ofCore_snoc_other (fun he => hc (Option.some.inj he).symm), update_of_ne hc, h.queue c]
      · rw [hin, OnTime, hfifo]
        refine and_congr_right fun _ => ⟨fun hall x hx hown hlate => ?_, fun hall c hc x hx hown => ?_⟩
        · have hle := hall core rfl x hx hown
          rcases le_max_iff.mp hle with hle | hle
          · omega
          · exact (Nat.le_floor_iff' (by omega)).mp hle
        · obtain rfl := Option.some.inj hc
          rcases Nat.lt_or_ge s.curTick x.tick with hlate | hpast
          · exact le_max_of_le_right ((Nat.le_floor_iff' (by omega)).mpr (hall x hx hown hlate))
          · exact le_max_of_le_left hpast

theorem Inv.clRelease (h : Inv s) (cfg : Cfg) (core n : Nat) :
    Inv (clRelease cfg core n s) ∧ (InOrder (clRelease cfg core n s) ↔ InOrder s ∧ Paced cfg core n s) := by
  induction n generalizing s with
  | zero => exact ⟨h, (and_iff_left trivial).symm⟩
  | succ n ih =>
    rw [Release.clRelease, Paced]
    cases hone : Release.releaseOne cfg core s with
    | none => exact ⟨h, (and_iff_left trivial).symm⟩
    | some s' =>
      obtain ⟨hinv, hin⟩ := h.releaseOne hone
      obtain ⟨hinv', hin'⟩ := ih hinv
      exact ⟨hinv', by rw [hin', hin, and_assoc]⟩

theorem Inv.push (h : Inv s) (w : Waiting) : Inv (push s w) where
  sorted := h.sorted
  numbered := h.numbered
  old := h.old
  perm := h.perm
  queue := fun c => by
    have hq := h.queue c
    rw [Release.push]
    dsimp only
    by_cases hc : c = w.r.core
    · subst hc
      rw [update_self, update_self, ← hq]
      simp
    · rw [update_of_ne hc, update_of_ne hc, hq]

theorem Inv.complete (h : Inv s) (core : Nat) (d : Done) : Inv (complete s core d) where
  sorted := h.sorted
  numbered := h.numbered
  old := h.old
  perm := h.perm
  queue := fun c => by
    have hq := h.queue c
    rw [Release.complete]
    dsimp only
    by_cases hc : c = core
    · subst hc
      rw [update_self]
      exact hq
    · rw [update_of_ne hc, hq]

theorem Inv.serveOne (h : Inv s) : Inv (serveOne s) ∧ (InOrder (serveOne s) ↔ InOrder s) := by
  rw [Release.serveOne]
  split
  · exact ⟨h, .rfl⟩
  next e rest hrel =>
    split
    · have hlist : (s.served ++ [e]) ++ rest = s.served ++ s.rel := by rw [hrel, List.append_assoc, List.singleton_append]
      refine ⟨⟨?_, h.numbered, h.old, by rw [hlist]; exact h.perm, h.queue⟩, ?_⟩
      · have hsorted := h.sorted
        rw [hrel] at hsorted
        exact (List.pairwise_cons.mp hsorted).2
      · rw [InOrder, InOrder]
        dsimp only
        rw [hlist]
    · exact ⟨h, .rfl⟩

theorem Inv.exec (h : Inv s) (cfg : Cfg) (op : Op) :
    Inv (exec cfg s op) ∧ (InOrder (exec cfg s op) ↔ InOrder s ∧ StepPaced cfg s op) := by
  cases op with
  | feed w =>
    rw [Release.exec, StepPaced]
    split
    next hclosed =>
      obtain ⟨hinv, hin⟩ := (h.push w).clRelease cfg w.r.core (turns (Release.push s w) w.r.core)
      exact ⟨hinv, hin.trans (and_congr_right fun _ => (imp_iff_right hclosed).symm)⟩
    next hopen =>
      obtain ⟨hinv, hin⟩ := h.clQueue none w w.target s.cl fun c => by
        rw [ofCore_snoc_other (by simp), h.queue c]
      refine ⟨hinv, hin.trans (and_congr_right fun _ => ?_)⟩
      exact ⟨fun _ hc => absurd hc hopen, fun _ c hc => nomatch hc⟩
  | done core d goOn =>
    rw [Release.exec, StepPaced]
    split
    next hgo =>
      obtain ⟨hinv, hin⟩ := (h.complete core d).clRelease cfg core (turns (Release.complete s core d) core)
      exact ⟨hinv, hin.trans (and_congr_right fun _ => (imp_iff_right hgo).symm)⟩
    next hstop => exact ⟨h.complete core d, ⟨fun hin => ⟨hin, fun hgo => absurd hgo hstop⟩, fun hin => hin.1⟩⟩
  | tick => exact ⟨⟨h.sorted, h.numbered, h.old, h.perm, h.queue⟩, (and_iff_left trivial).symm⟩
  | serve =>
    obtain ⟨hinv, hin⟩ := h.serveOne
    exact ⟨hinv, hin.trans (and_iff_left trivial).symm⟩

/-! ## Runs -/

theorem along_iff (h : Inv s) (hin : InOrder s) (cfg : Cfg) (ops : List Op) :
    Along (exec cfg) (StepPaced cfg) s ops ↔ ∀ done rest, ops = done ++ rest → InOrder (done.foldl (exec cfg) s) := by
  induction ops generalizing s with
  | nil =>
    refine ⟨fun _ done rest heq => ?_, fun _ => trivial⟩
    rw [(List.append_eq_nil_iff.mp heq.symm).1]
    exact hin
  | cons op ops ih =>
    obtain ⟨hinv, hstep⟩ := h.exec cfg op
    constructor
    · intro ⟨hpaced, hrest⟩ done rest heq
      cases done with
      | nil => exact hin
      | cons op' done =>
        obtain ⟨rfl, htail⟩ := List.cons.inj heq
        exact (ih hinv (hstep.mpr ⟨hin, hpaced⟩)).mp hrest done rest htail
    · intro hall
      have hone := hall [op] ops rfl
      refine ⟨(hstep.mp hone).2, (ih hinv hone).mpr fun done rest heq => ?_⟩
      exact hall (op :: done) rest (by rw [heq]; rfl)

theorem inv_run (cfg : Cfg) (ops : List Op) : Inv (ops.foldl (exec cfg) (init cfg)) := by
  have hall : Along (exec cfg) (fun _ _ => True) (init cfg) ops := along_of_forall (fun _ _ => trivial) _ _
  exact hall.keeps (fun s op h _ => (h.exec cfg op).1) (inv_init cfg)

/-- **The order of a core's accesses.** In a run every state has the records of every core at
their doors, and then in the map, in the order of their release, exactly when every record
that was released was due no sooner than the records of its core that still waited; and then
the doors get a core's records in the order in which they stood in its queue. -/
theorem closed_loop_order (cfg : Cfg) (ops : List Op) :
    (Along (exec cfg) (StepPaced cfg) (init cfg) ops ↔
      ∀ done rest, ops = done ++ rest → InOrder (done.foldl (exec cfg) (init cfg))) ∧
    (Along (exec cfg) (StepPaced cfg) (init cfg) ops → ∀ core, let s := ops.foldl (exec cfg) (init cfg)
      ((ofCore core s.served).map (·.w.r) ++ (ofCore core s.rel).map (·.w.r)) ++ (s.cl core).fifo.map (·.r) = s.fed core) := by
  have hiff := along_iff (inv_init cfg) (fun _ => rfl) cfg ops
  refine ⟨hiff, fun hpaced core => ?_⟩
  dsimp only
  have hin := hiff.mp hpaced ops [] (List.append_nil ops).symm core
  have hqueue := (inv_run cfg ops).queue core
  rw [← hin] at hqueue
  rw [← hqueue, ofCore, ofCore, ofCore, List.filter_append, List.map_append]

/-- An out-of-order core that may have four accesses in flight. -/
def oooCfg : Cfg := ⟨1, false, 0, true, fun _ => 1, fun _ => 0, fun c => decide (c = 0), fun _ => true, fun _ => 4⟩

/-- The first access is charged 10 cycles and done at tick 15, the second goes out at tick 10, is charged 30 and done at
36: the balance falls from 5 to 1 while the record of stamp 40 waits for tick 45. -/
def fallingBalance : List Op := List.flatten [
  [.feed ⟨⟨0, 0, true, 10, 0, 0, 0, false, false, 0, 0, 0⟩, 0, false, false, false, 0⟩,
    .feed ⟨⟨10, 0, true, 30, 0, 0, 0, false, false, 0, 0, 1⟩, 10, false, false, false, 0⟩, .serve],
  List.replicate 10 .tick, [.serve], List.replicate 5 .tick,
  [.done 0 { out := 1, diff := 5, lastDoneT := 15, rt := true } true,
    .feed ⟨⟨40, 0, true, 10, 0, 0, 0, false, false, 0, 0, 2⟩, 40, false, false, false, 0⟩],
  List.replicate 21 .tick,
  [.done 0 { out := 1, diff := 1, lastDoneT := 36, rt := true } true,
    .feed ⟨⟨41, 0, true, 10, 0, 0, 0, false, false, 0, 0, 3⟩, 41, false, false, false, 0⟩],
  List.replicate 6 .tick, [.serve]]

/-- The record of stamp 41 is at its door while the one of stamp 40, released first, waits. -/
theorem closed_loop_overtaken :
    let s := fallingBalance.foldl (exec oooCfg) (init oooCfg)
    (ofCore 0 s.released).map (·.w.r.stamp) = [0, 10, 40, 41] ∧ (ofCore 0 s.served).map (·.w.r.stamp) = [0, 10, 41] ∧
      (ofCore 0 s.rel).map (·.w.r.stamp) = [40] ∧ s.curTick = 42 ∧ ¬InOrder s := by
  intro s
  have hrun : (ofCore 0 s.released).map (·.w.r.stamp) = [0, 10, 40, 41] ∧ (ofCore 0 s.served).map (·.w.r.stamp) = [0, 10, 41] ∧
      (ofCore 0 s.rel).map (·.w.r.stamp) = [40] ∧ s.curTick = 42 := by
    decide +kernel
  obtain ⟨hreleased, hserved, hrel, htick⟩ := hrun
  refine ⟨hreleased, hserved, hrel, htick, fun hin => ?_⟩
  have hsame := congrArg (List.map (·.w.r.stamp)) (hin 0)
  rw [hreleased, ofCore, List.filter_append, List.map_append] at hsame
  rw [ofCore] at hserved hrel
  rw [hserved, hrel] at hsame
  exact absurd hsame (by decide)

end Pimid.Dram.Release
