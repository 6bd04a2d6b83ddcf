import Pimid.Lib.Machine
import Mathlib.Algebra.Group.Nat.Defs
import Mathlib.Logic.Function.Basic
import Mathlib.Tactic.ByContra

/-!
# Page placement

Which unit of the device a line is in. A registered stack lies in the memory of its
owner, the first interface that touches it below the thread's initial stack pointer;
any other page in the memory of the interface that first touches it; what is left to
an interface without memory goes by the address. The host looks the line up without
claiming anything.

A placed page stays where it is and an owned stack keeps its owner, so the answer for a
line is final once one of these two rules has given it. The exception is a stack
nobody owns yet: above the initial stack pointer a touch places the page like any
other, and when the stack gets its owner the line moves.

The first-touch table is a map by page. `placer` of an entry is the interface that placed
it, which nothing reads.
-/

namespace Pimid.Mem

open Function (update update_of_ne update_self)

/-- The units of an interface. -/
inductive Coverage where
  | range (start stop : Nat)
  | set (units : List Nat)
deriving DecidableEq, Repr

def Coverage.covN : Coverage → Nat
  | range start stop => if start < stop then stop - start else 0
  | set units => units.length

def Coverage.unitAt : Coverage → Nat → Nat
  | range start _, i => start + i
  | set units, i => units.getD i 0

def Coverage.units : Coverage → List Nat
  | range start stop => List.range' start (stop - start)
  | set units => units

structure Stack where
  lo : Nat
  hi : Nat
  sp : Nat
deriving DecidableEq, Repr

/-- How the host's own pages are spread. -/
structure Interleave where
  hostInterleaveBytes : Nat
  placementLevel : Nat
  subarraysPerBank : Nat
  banksPerBG : Nat
  bgPerChip : Nat
  chipsPerRank : Nat
  ranksPerChannel : Nat
  dramChannels : Nat

/-- What does not change: the device, its interfaces, the registered stacks and the rank of the process. -/
structure Device where
  totalUnits : Nat
  pagesPerUnit : Nat
  slotRowBytes : Nat
  coverage : Nat → Coverage
  stackMin : Nat
  stackMax : Nat
  stackRanges : List Stack
  mpiRank : Nat
  mpiRanks : Nat
  host : Interleave

structure FtEntry where
  unit : Nat
  seq : Nat
  cov : Nat
  placer : Nat
deriving DecidableEq, Repr

structure Placement where
  stackOwner : Nat → Nat
  stackCovLo : Nat → Nat
  stackCovN : Nat → Nat
  table : Nat → Option FtEntry
  ftSeq : Nat → Nat

def Placement.init : Placement :=
  ⟨fun _ => 0, fun _ => 0, fun _ => 0, fun _ => none, fun _ => 0⟩

namespace Device

/-! ## The rules -/

def ppu (d : Device) : Nat :=
  if 0 < d.pagesPerUnit then d.pagesPerUnit else 1

/-- `ppu` pages to a unit, then the next unit. -/
def blockUnitOf (k ppu n : Nat) : Nat :=
  k / ppu % n

/-- Consecutive rows to consecutive units. -/
def rowUnitOf (d : Device) (o n : Nat) : Nat :=
  o / d.slotRowBytes % if n = 0 then 1 else n

/-- The registered stack an address is in. -/
def stackOf (d : Device) (byteAddr : Nat) : Option Nat :=
  if d.stackMin ≤ byteAddr ∧ byteAddr < d.stackMax then
    d.stackRanges.findIdx? fun s => s.lo ≤ byteAddr && byteAddr < s.hi
  else none

def stackAt (d : Device) (i : Nat) : Stack :=
  d.stackRanges.getD i ⟨0, 0, 0⟩

/-- The unit of an address in the stack, in its owner's coverage. -/
def stackUnit (d : Device) (p : Placement) (i byteAddr : Nat) : Nat :=
  let o := byteAddr - (d.stackAt i).lo
  p.stackCovLo i +
    if 0 < d.slotRowBytes then d.rowUnitOf o (p.stackCovN i) else blockUnitOf (o / 4096) d.ppu (p.stackCovN i)

/-- The entry of a page `me` places: its `idx`-th. The row layout keeps the index and the coverage with it. -/
def newEntry (d : Device) (me idx : Nat) : FtEntry :=
  let covN := (d.coverage me).covN
  let u := (d.coverage me).unitAt (blockUnitOf idx d.ppu covN)
  match d.coverage me with
  | .range start _ =>
    if 0 < d.slotRowBytes ∧ start < 2 ^ 20 ∧ covN < 4096 ∧ idx < 0xFFFFFFFF then
      ⟨start + d.rowUnitOf (idx * 4096) covN, idx + 1, start * 4096 + covN, me⟩
    else ⟨u, 0, 0, me⟩
  | .set _ => ⟨u, 0, 0, me⟩

/-- The page's entry, made now if there is none. `none`: not placed, and the interface has no memory to place it in. -/
def firstTouchUnit (d : Device) (p : Placement) (me page : Nat) : Option (FtEntry × Placement) :=
  match p.table page with
  | some e => some (e, p)
  | none =>
    if (d.coverage me).covN = 0 then none
    else
      let e := d.newEntry me (p.ftSeq me)
      some (e, { p with
        table := update p.table page (some e)
        ftSeq := update p.ftSeq me (p.ftSeq me + 1) })

/-- The unit of an address in a placed page. -/
def entryUnit (d : Device) (e : FtEntry) (byteAddr : Nat) : Nat :=
  if 0 < e.seq ∧ e.cov ≠ 0 then
    e.cov / 4096 + d.rowUnitOf ((e.seq - 1) * 4096 + byteAddr % 4096) (e.cov % 4096)
  else e.unit

/-- The address map, each rank's in its own share. -/
def mapUnit (d : Device) (line : Nat) : Nat :=
  let unit := blockUnitOf (line / 64 % 2 ^ 32) d.ppu d.totalUnits
  if 1 < d.mpiRanks then
    let upr := if d.totalUnits / d.mpiRanks = 0 then 1 else d.totalUnits / d.mpiRanks
    (unit + d.mpiRank * upr) % d.totalUnits
  else unit

/-- The first-touch rule, then the address map. -/
def pageUnit (d : Device) (p : Placement) (me line : Nat) : Nat × Placement :=
  match d.firstTouchUnit p me (line * 64 / 4096) with
  | some (e, p) => (d.entryUnit e (line * 64), p)
  | none => (d.mapUnit line, p)

/-- The stack's owner is `me`. -/
def own (p : Placement) (me i start stop : Nat) : Placement :=
  { p with
    stackOwner := update p.stackOwner i (me + 1)
    stackCovLo := update p.stackCovLo i start
    stackCovN := update p.stackCovN i (stop - start) }

/-- The unit of a line for an access by interface `me`. `none` is a panic. -/
def addrToUnit (d : Device) (p : Placement) (me line : Nat) : Option (Nat × Placement) :=
  let byteAddr := line * 64
  match d.stackOf byteAddr with
  | none => some (d.pageUnit p me line)
  | some i =>
    if p.stackOwner i = 0 ∧ byteAddr < (d.stackAt i).sp then
      match d.coverage me with
      | .range start stop =>
        if start < stop then
          let p := own p me i start stop
          some (d.stackUnit p i byteAddr, p)
        else none
      | .set _ => none
    else if 0 < p.stackOwner i then some (d.stackUnit p i byteAddr, p)
    else some (d.pageUnit p me line)

/-- A page is claimed for `me` ahead of any access; a registered stack keeps its own rule. -/
def claimForPlacement (d : Device) (p : Placement) (me byteAddr : Nat) : Placement :=
  match d.stackOf byteAddr with
  | some _ => p
  | none =>
    match d.firstTouchUnit p me (byteAddr / 4096) with
    | some (_, p) => p
    | none => p

/-- A page of the host's own: chunks over the bank groups, chips, banks, ranks and channels, or page by page. -/
def hostOwn (d : Device) (line : Nat) : Nat :=
  let h := d.host
  let g := h.hostInterleaveBytes
  if 64 ≤ g ∧ g < 4096 ∧ h.placementLevel ≤ 2 then
    let nsa := max 1 h.subarraysPerBank
    let nb := max 1 h.banksPerBG
    let nbg := max 1 h.bgPerChip
    let nchip := max 1 h.chipsPerRank
    let nrk := max 1 h.ranksPerChannel
    let lv := h.placementLevel
    let perChip := if lv = 0 then nsa * nb * nbg else if lv = 1 then nb * nbg else nbg
    let perCh := perChip * nchip * nrk
    let nch := max 1 (d.totalUnits / perCh)
    let nc := if 1 < h.dramChannels ∧ h.chipsPerRank = h.dramChannels then nchip else 1
    let spread := (if lv = 2 then nbg else nbg * nb) * nc * nrk * nch
    let x := line * 64 / g % spread
    let bg := x % nbg
    let x := x / nbg
    let chip := x % nc
    let x := x / nc
    let b := if lv = 2 then 0 else x % nb
    let x := if lv = 2 then x else x / nb
    let rk := x % nrk
    let chn := x / nrk % nch
    let inChip := if lv = 0 then (bg * nb + b) * nsa else if lv = 1 then bg * nb + b else bg
    (((chn * nrk + rk) * nchip + chip) * perChip + inChip) % d.totalUnits
  else line / 64 % 2 ^ 32 % d.totalUnits

/-- The unit of a page the table has, else the host's own. -/
def hostPage (d : Device) (p : Placement) (line : Nat) : Nat :=
  match p.table (line * 64 / 4096) with
  | some e => d.entryUnit e (line * 64)
  | none => if 0 < d.totalUnits then d.hostOwn line else 0

/-- The unit of a line for the host. -/
def hostTarget (d : Device) (p : Placement) (line : Nat) : Nat :=
  match d.stackOf (line * 64) with
  | some i =>
    if 0 < p.stackOwner i ∧ 0 < p.stackCovN i then d.stackUnit p i (line * 64) else d.hostPage p line
  | none => d.hostPage p line

inductive Call where
  | addrToUnit (me line : Nat)
  | claimForPlacement (me byteAddr : Nat)
  | hostTarget (line : Nat)
deriving DecidableEq, Repr

/-- A panic ends the process: nothing is placed by it. -/
def step (d : Device) (p : Placement) : Call → Placement
  | .addrToUnit me line => ((d.addrToUnit p me line).map (·.2)).getD p
  | .claimForPlacement me byteAddr => d.claimForPlacement p me byteAddr
  | .hostTarget _ => p

/-! ## Where a line is for good

An owned stack or a placed page. -/

/-- The interface whose memory the line stays in, and its unit there. -/
def home (d : Device) (p : Placement) (line : Nat) : Option (Nat × Nat) :=
  match d.stackOf (line * 64) with
  | some i =>
    if 0 < p.stackOwner i then some (p.stackOwner i - 1, d.stackUnit p i (line * 64)) else none
  | none => (p.table (line * 64 / 4096)).map fun e => (e.placer, d.entryUnit e (line * 64))

variable {d : Device} {p q r : Placement} {me line : Nat}

/-- An owned stack has the coverage of its owner, and a placed page is in the memory of who placed it. -/
structure Placed (d : Device) (p : Placement) : Prop where
  stack : ∀ i, 0 < p.stackOwner i → ∃ stop, p.stackCovLo i < stop ∧
    d.coverage (p.stackOwner i - 1) = .range (p.stackCovLo i) stop ∧ p.stackCovN i = stop - p.stackCovLo i
  page : ∀ pg e, p.table pg = some e → ∀ b, d.entryUnit e b ∈ (d.coverage e.placer).units

/-- No owner changes and no page moves. -/
structure Keeps (p q : Placement) : Prop where
  stack : ∀ i, 0 < p.stackOwner i →
    q.stackOwner i = p.stackOwner i ∧ q.stackCovLo i = p.stackCovLo i ∧ q.stackCovN i = p.stackCovN i
  page : ∀ pg e, p.table pg = some e → q.table pg = some e

theorem Keeps.refl (p : Placement) : Keeps p p :=
  ⟨fun _ _ => ⟨rfl, rfl, rfl⟩, fun _ _ h => h⟩

theorem Keeps.trans (h : Keeps p q) (h' : Keeps q r) : Keeps p r := by
  refine ⟨fun i hi => ?_, fun pg e he => h'.page pg e (h.page pg e he)⟩
  obtain ⟨ho, hl, hn⟩ := h.stack i hi
  obtain ⟨ho', hl', hn'⟩ := h'.stack i (ho ▸ hi)
  exact ⟨ho'.trans ho, hl'.trans hl, hn'.trans hn⟩

theorem Keeps.home (h : Keeps p q) {x : Nat × Nat} (hx : d.home p line = some x) : d.home q line = some x := by
  unfold Device.home at hx ⊢
  split at hx
  next i _ =>
    split at hx
    next ho =>
      obtain ⟨hown, hlo, hn⟩ := h.stack i ho
      dsimp only [stackUnit] at hx ⊢
      rwa [hown, hlo, hn, if_pos ho]
    next => exact absurd hx (by simp)
  next =>
    obtain ⟨e, he, rfl⟩ := Option.map_eq_some_iff.mp hx
    rw [h.page _ e he]
    rfl

theorem Placed.init (d : Device) : Placed d .init :=
  ⟨fun _ h => absurd h (Nat.lt_irrefl 0), fun _ _ h => absurd h (by simp [Placement.init])⟩

/-! ### Units in a coverage -/

theorem unitAt_mem {c : Coverage} {i : Nat} (h : i < c.covN) : c.unitAt i ∈ c.units := by
  cases c with
  | range start stop =>
    simp only [Coverage.covN] at h
    split at h
    next => exact List.mem_range'_1.mpr ⟨Nat.le_add_right .., by simp only [Coverage.unitAt]; omega⟩
    next => omega
  | set units =>
    simp only [Coverage.covN] at h
    simp only [Coverage.unitAt, Coverage.units, List.getD_eq_getElem?_getD, List.getElem?_eq_getElem h]
    exact List.getElem_mem h

theorem rowUnitOf_lt (d : Device) (o : Nat) {n : Nat} (h : 0 < n) : d.rowUnitOf o n < n := by
  unfold rowUnitOf
  rw [if_neg (by omega)]
  exact Nat.mod_lt _ h

theorem blockUnitOf_lt (k ppu : Nat) {n : Nat} (h : 0 < n) : blockUnitOf k ppu n < n :=
  Nat.mod_lt _ h

/-- The row layout puts the lines of a page over the coverage packed with its entry. -/
theorem entryUnit_newEntry_mem (hcov : 0 < (d.coverage me).covN) (idx b : Nat) :
    d.entryUnit (d.newEntry me idx) b ∈ (d.coverage me).units := by
  have hblock := unitAt_mem (blockUnitOf_lt idx d.ppu hcov)
  unfold newEntry
  dsimp only
  split
  next start stop hr =>
    split
    next hrow =>
      obtain ⟨_, _, hn, _⟩ := hrow
      have hdiv : (start * 4096 + (d.coverage me).covN) / 4096 = start := by omega
      have hmod : (start * 4096 + (d.coverage me).covN) % 4096 = (d.coverage me).covN := by omega
      have hmem := unitAt_mem (rowUnitOf_lt d (idx * 4096 + b % 4096) hcov)
      simp only [entryUnit]
      rw [if_pos ⟨by omega, by omega⟩, hdiv, hmod]
      simpa [hr, Coverage.unitAt] using hmem
    next => simpa [entryUnit] using hblock
  next => simpa [entryUnit] using hblock

theorem newEntry_placer (d : Device) (me idx : Nat) : (d.newEntry me idx).placer = me := by
  unfold newEntry
  dsimp only
  split
  · split <;> rfl
  · rfl

/-! ### One call -/

/-- A page that is placed stays; a new one goes to the interface that touches it. -/
theorem firstTouchUnit_spec {pg : Nat} {e : FtEntry} (hp : Placed d p) (h : d.firstTouchUnit p me pg = some (e, q)) :
    q.table pg = some e ∧ Keeps p q ∧ Placed d q := by
  unfold firstTouchUnit at h
  split at h
  next e' he =>
    obtain ⟨rfl, rfl⟩ := Prod.mk.inj (Option.some.inj h)
    exact ⟨he, .refl p, hp⟩
  next hnone =>
    split at h
    next => exact absurd h (by simp)
    next hcov =>
      obtain ⟨rfl, rfl⟩ := Prod.mk.inj (Option.some.inj h)
      refine ⟨by simp, ⟨fun _ _ => ⟨rfl, rfl, rfl⟩, fun pg' e he => ?_⟩, hp.stack, fun pg' e he b => ?_⟩
      · -- the page touched had no entry
        have hne : pg' ≠ pg := fun heq => by simp [heq, hnone] at he
        simpa [update_of_ne hne] using he
      · by_cases hpg : pg' = pg
        · simp only [hpg, update_self, Option.some.injEq] at he
          rw [← he, newEntry_placer]
          exact entryUnit_newEntry_mem (Nat.pos_of_ne_zero hcov) _ b
        · simp only [update_of_ne hpg] at he
          exact hp.page pg' e he b

theorem own_spec {i start stop : Nat} (hp : Placed d p) (hfree : p.stackOwner i = 0)
    (hr : d.coverage me = .range start stop) (hlt : start < stop) :
    Keeps p (own p me i start stop) ∧ Placed d (own p me i start stop) := by
  refine ⟨⟨fun j hj => ?_, fun _ _ he => he⟩, fun j hj => ?_, hp.page⟩
  · have hne : j ≠ i := fun he => by simp [he, hfree] at hj
    simp [own, update_of_ne hne]
  · by_cases hji : j = i
    · subst hji
      exact ⟨stop, by simpa [own] using ⟨hlt, hr⟩⟩
    · have := hp.stack j (by simpa [own, update_of_ne hji] using hj)
      simpa [own, update_of_ne hji] using this

theorem pageUnit_spec {u : Nat} (hp : Placed d p) (h : d.pageUnit p me line = (u, q)) :
    Keeps p q ∧ Placed d q ∧
      (0 < (d.coverage me).covN → ∃ e, q.table (line * 64 / 4096) = some e ∧ d.entryUnit e (line * 64) = u) := by
  unfold pageUnit at h
  split at h
  next e q' hft =>
    obtain ⟨rfl, rfl⟩ := Prod.mk.inj h
    obtain ⟨he, hk, hq⟩ := firstTouchUnit_spec hp hft
    exact ⟨hk, hq, fun _ => ⟨e, he, rfl⟩⟩
  next hnone =>
    obtain ⟨rfl, rfl⟩ := Prod.mk.inj h
    refine ⟨.refl p, hp, fun hcov => ?_⟩
    -- an interface with memory places the page
    unfold firstTouchUnit at hnone
    split at hnone
    next => exact absurd hnone (by simp)
    next => exact absurd hnone (by simp; omega)

/-- The stack of a line, if it is in one, is owned or gets its owner by this touch. -/
def StackRule (d : Device) (p : Placement) (line : Nat) : Prop :=
  ∀ i, d.stackOf (line * 64) = some i → 0 < p.stackOwner i ∨ line * 64 < (d.stackAt i).sp

theorem addrToUnit_spec {u : Nat} (hp : Placed d p) (h : d.addrToUnit p me line = some (u, q)) :
    Keeps p q ∧ Placed d q ∧
      (0 < (d.coverage me).covN → StackRule d p line → ∃ w, d.home q line = some (w, u)) := by
  unfold addrToUnit at h
  dsimp only at h
  split at h
  next hs =>
    obtain ⟨hk, hq, hplaced⟩ := pageUnit_spec hp (Option.some.inj h)
    refine ⟨hk, hq, fun hcov _ => ?_⟩
    obtain ⟨e, he, rfl⟩ := hplaced hcov
    exact ⟨e.placer, by simp [home, hs, he]⟩
  next i hs =>
    split at h
    next hclaim =>
      obtain ⟨hfree, hsp⟩ := hclaim
      split at h
      next start stop hr =>
        split at h
        next hlt =>
          obtain ⟨rfl, rfl⟩ := Prod.mk.inj (Option.some.inj h)
          obtain ⟨hk, hq⟩ := own_spec hp hfree hr hlt
          exact ⟨hk, hq, fun _ _ => ⟨me, by simp [home, hs, own]⟩⟩
        next => exact absurd h (by simp)
      next => exact absurd h (by simp)
    next hkeep =>
      split at h
      next ho =>
        obtain ⟨rfl, rfl⟩ := Prod.mk.inj (Option.some.inj h)
        exact ⟨.refl p, hp, fun _ _ => ⟨p.stackOwner i - 1, by simp [home, hs, ho]⟩⟩
      next ho =>
        obtain ⟨hk, hq, _⟩ := pageUnit_spec hp (Option.some.inj h)
        refine ⟨hk, hq, fun _ hrule => ?_⟩
        -- nobody owns the stack and the touch is not below the initial stack pointer
        rcases hrule i hs with hown | hsp
        · exact absurd hown ho
        · exact absurd ⟨by omega, hsp⟩ hkeep

theorem claimForPlacement_spec {byteAddr : Nat} (hp : Placed d p) :
    Keeps p (d.claimForPlacement p me byteAddr) ∧ Placed d (d.claimForPlacement p me byteAddr) := by
  unfold claimForPlacement
  split
  next => exact ⟨.refl p, hp⟩
  next =>
    split
    next e q hft => exact (firstTouchUnit_spec hp hft).2
    next => exact ⟨.refl p, hp⟩

theorem step_spec (hp : Placed d p) (c : Call) : Keeps p (d.step p c) ∧ Placed d (d.step p c) := by
  cases c with
  | addrToUnit me line =>
    simp only [step]
    cases h : d.addrToUnit p me line with
    | none => exact ⟨.refl p, hp⟩
    | some x =>
      obtain ⟨hk, hq, _⟩ := addrToUnit_spec (u := x.1) (q := x.2) hp h
      exact ⟨hk, hq⟩
  | claimForPlacement me byteAddr => exact claimForPlacement_spec hp
  | hostTarget line => exact ⟨.refl p, hp⟩

/-! ## Any sequence of calls -/

theorem Placed.run (hp : Placed d p) (cs : List Call) : Keeps p (cs.foldl d.step p) ∧ Placed d (cs.foldl d.step p) := by
  induction cs generalizing p with
  | nil => exact ⟨.refl p, hp⟩
  | cons c cs ih =>
    obtain ⟨hk, hq⟩ := step_spec hp c
    obtain ⟨hk', hr⟩ := ih hq
    exact ⟨hk.trans hk', hr⟩

/-- Whoever asks gets the line's home, and nothing is claimed. -/
theorem addrToUnit_of_home {w u : Nat} (h : d.home p line = some (w, u)) (other : Nat) :
    d.addrToUnit p other line = some (u, p) := by
  unfold home at h
  unfold addrToUnit
  dsimp only
  split at h
  next i hs =>
    split at h
    next ho =>
      obtain ⟨_, rfl⟩ := Prod.mk.inj (Option.some.inj h)
      simp only [hs]
      rw [if_neg (by omega), if_pos ho]
    next => exact absurd h (by simp)
  next hs =>
    obtain ⟨e, he, hx⟩ := Option.map_eq_some_iff.mp h
    obtain ⟨_, rfl⟩ := Prod.mk.inj hx
    simp only [hs, pageUnit, firstTouchUnit, he]

theorem hostTarget_of_home {w u : Nat} (hp : Placed d p) (h : d.home p line = some (w, u)) :
    d.hostTarget p line = u := by
  unfold home at h
  unfold hostTarget
  split at h
  next i hs =>
    split at h
    next ho =>
      obtain ⟨_, rfl⟩ := Prod.mk.inj (Option.some.inj h)
      obtain ⟨stop, hlt, _, hn⟩ := hp.stack i ho
      exact if_pos ⟨ho, by omega⟩
    next => exact absurd h (by simp)
  next hs =>
    obtain ⟨e, he, hx⟩ := Option.map_eq_some_iff.mp h
    obtain ⟨_, rfl⟩ := Prod.mk.inj hx
    simp only [hostPage, he]

theorem home_mem {w u : Nat} (hp : Placed d p) (h : d.home p line = some (w, u)) : u ∈ (d.coverage w).units := by
  unfold home at h
  split at h
  next i hs =>
    split at h
    next ho =>
      obtain ⟨rfl, rfl⟩ := Prod.mk.inj (Option.some.inj h)
      obtain ⟨stop, hlt, hr, hn⟩ := hp.stack i ho
      have hpos : 0 < p.stackCovN i := by omega
      have hrow := rowUnitOf_lt d (line * 64 - (d.stackAt i).lo) hpos
      have hblock := blockUnitOf_lt ((line * 64 - (d.stackAt i).lo) / 4096) d.ppu hpos
      rw [hr]
      refine List.mem_range'_1.mpr ?_
      unfold stackUnit
      dsimp only
      split <;> omega
    next => exact absurd h (by simp)
  next =>
    obtain ⟨e, he, hx⟩ := Option.map_eq_some_iff.mp h
    obtain ⟨rfl, rfl⟩ := Prod.mk.inj hx
    exact hp.page _ e he _

/-- **A placed line stays.** Whatever was called before, once an interface with memory is
answered `u` for a line, under the stack's rule where the line is in a stack, every later
answer for it is `u`, to any interface and to the host, and `u` is a unit of the interface
that placed the page or owns the stack. -/
theorem placement_stable {u : Nat} {cs : List Call} (hcov : 0 < (d.coverage me).covN)
    (hrule : StackRule d (cs.foldl d.step .init) line)
    (h : d.addrToUnit (cs.foldl d.step .init) me line = some (u, p)) (later : List Call) :
    (∀ other, (d.addrToUnit (later.foldl d.step p) other line).map (·.1) = some u) ∧
      d.hostTarget (later.foldl d.step p) line = u ∧
      ∃ w, d.home (later.foldl d.step p) line = some (w, u) ∧ u ∈ (d.coverage w).units := by
  have hbefore := (Placed.run (Placed.init d) cs).2
  obtain ⟨_, hp, hhome⟩ := addrToUnit_spec hbefore h
  obtain ⟨w, hw⟩ := hhome hcov hrule
  obtain ⟨hk, hq⟩ := hp.run later
  have hw' := hk.home hw
  refine ⟨fun other => ?_, hostTarget_of_home hq hw', w, hw', home_mem hq hw'⟩
  rw [addrToUnit_of_home hw' other]
  rfl

/-- Two interfaces of one unit each, and one stack with a page below the initial stack pointer and one above. -/
def twoInterfaces : Device :=
  { totalUnits := 2, pagesPerUnit := 1, slotRowBytes := 0
    coverage := fun me => .range me (me + 1)
    stackMin := 0, stackMax := 8192, stackRanges := [⟨0, 8192, 4096⟩]
    mpiRank := 0, mpiRanks := 1, host := ⟨0, 0, 1, 1, 1, 1, 1, 1⟩ }

theorem placement_stable_owned_stack :
    ∃ p, twoInterfaces.addrToUnit ([Call.addrToUnit 0 64].foldl twoInterfaces.step .init) 1 0 = some (1, p) ∧
      (∀ other, (twoInterfaces.addrToUnit ([Call.claimForPlacement 0 0, .addrToUnit 0 64].foldl twoInterfaces.step p)
        other 0).map (·.1) = some 1) ∧
      twoInterfaces.hostTarget ([Call.claimForPlacement 0 0, .addrToUnit 0 64].foldl twoInterfaces.step p) 0 = 1 ∧
      ∃ w, twoInterfaces.home ([Call.claimForPlacement 0 0, .addrToUnit 0 64].foldl twoInterfaces.step p) 0 =
        some (w, 1) ∧ 1 ∈ (twoInterfaces.coverage w).units := by
  obtain ⟨p, h⟩ : ∃ p, twoInterfaces.addrToUnit ([Call.addrToUnit 0 64].foldl twoInterfaces.step .init) 1 0 =
    some (1, p) := ⟨_, rfl⟩
  refine ⟨p, h, placement_stable (by decide) ?_ h _⟩
  intro i hi
  have hi0 : i = 0 := by
    have : twoInterfaces.stackOf (0 * 64) = some 0 := by decide
    rw [this] at hi
    exact (Option.some.inj hi).symm
  subst hi0
  exact .inr (by decide)

/-- Interface 0 touches the stack above its initial stack pointer and is answered unit 0. Interface 1 then touches it
below, owns it, and the first line is in unit 1, for interface 0 and for the host. -/
theorem stack_line_moves :
    ∃ p, 0 < (twoInterfaces.coverage 0).covN ∧ twoInterfaces.addrToUnit .init 0 64 = some (0, p) ∧
      (twoInterfaces.addrToUnit (twoInterfaces.step p (.addrToUnit 1 0)) 0 64).map (·.1) = some 1 ∧
      twoInterfaces.hostTarget (twoInterfaces.step p (.addrToUnit 1 0)) 64 = 1 :=
  ⟨_, by decide, rfl, by decide, by decide⟩

end Device

end Pimid.Mem
