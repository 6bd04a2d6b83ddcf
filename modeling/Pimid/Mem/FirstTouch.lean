import Pimid.Lib.Machine
import Pimid.Lib.Radix
import Pimid.Mem.Pages

/-!
# The first-touch table

The table that holds the units of first-touched pages is shared by all threads without a
lock: open addressing with linear probing, a slot claimed by a compare-and-swap on its key
and filled by a store of its unit after everything else. Every atomic load,
compare-and-swap, `fetch_add` and store is a step of its own, and the threads take them in
any order.

`placed`, `returned` and `called` record what happened; nothing reads them.
-/

namespace Pimid.Mem

/-- The size of the table and the hash of a page. -/
structure FtTable where
  slots : Nat
  hash : Nat → Nat
  slots_pos : 0 < slots

/-- The slot of the `n`-th probe. -/
def FtTable.slotAt (t : FtTable) (page n : Nat) : Nat :=
  (t.hash page + n) % t.slots

def kBits : Nat := 22

/-- 4 M pages. -/
def ftTable : FtTable where
  slots := 2 ^ kBits
  hash page := page * 0x9E3779B97F4A7C15 % 2 ^ 64 / 2 ^ (64 - kBits)
  slots_pos := Nat.two_pow_pos _

/-- A call for an interface; with `ask` the touch index and the coverage are wanted too. -/
structure FtCall where
  me : Nat
  page : Nat
  ask : Bool
deriving DecidableEq, Repr

/-- Where a thread is: before the step of that name. -/
inductive FtPc where
  | idle
  | loadKey (c : FtCall) (n : Nat)
  | swapKey (c : FtCall) (n : Nat)
  | loadUnit (c : FtCall) (h : Nat)
  | loadSeq (c : FtCall) (h u : Nat)
  | loadCov (c : FtCall) (h u sq : Nat)
  | fetchSeq (c : FtCall) (h : Nat)
  | storeSeq (c : FtCall) (h idx : Nat)
  | storeCov (c : FtCall) (h idx : Nat)
  | storeUnit (c : FtCall) (h idx : Nat)
  | full (c : FtCall)
deriving DecidableEq, Repr

/-- The slot that the thread has claimed and not filled yet. -/
def FtPc.claims : FtPc → Option Nat
  | fetchSeq _ h | storeSeq _ h _ | storeCov _ h _ | storeUnit _ h _ => some h
  | _ => none

/-- A page that an interface placed, as its `idx`-th. -/
structure FtPlaced where
  me : Nat
  page : Nat
  slot : Nat
  idx : Nat
deriving DecidableEq, Repr

structure FtReturn where
  page : Nat
  ask : Bool
  unit : Nat
  seq : Nat
  cov : Nat
deriving DecidableEq, Repr

structure FtState where
  key : Nat → Nat := fun _ => 0
  unit : Nat → Nat := fun _ => 0
  seq : Nat → Nat := fun _ => 0
  cov : Nat → Nat := fun _ => 0
  ftSeq : Nat → Nat := fun _ => 0
  pc : Nat → FtPc := fun _ => .idle
  placed : List FtPlaced := []
  returned : List FtReturn := []
  called : List Nat := []

namespace FtState

def goto (s : FtState) (tid : Nat) (pc : FtPc) : FtState :=
  { s with pc := Function.update s.pc tid pc }

def ret (s : FtState) (tid : Nat) (x : FtReturn) : FtState :=
  { s.goto tid .idle with returned := s.returned ++ [x] }

def putKey (s : FtState) (h k : Nat) : FtState :=
  { s with key := Function.update s.key h k }

def putUnit (s : FtState) (h u : Nat) : FtState :=
  { s with unit := Function.update s.unit h u }

def putSeq (s : FtState) (h sq : Nat) : FtState :=
  { s with seq := Function.update s.seq h sq }

def putCov (s : FtState) (h cv : Nat) : FtState :=
  { s with cov := Function.update s.cov h cv }

/-- The interface's next touch index is taken for the page. -/
def place (s : FtState) (c : FtCall) (h : Nat) : FtState :=
  { s with
    ftSeq := Function.update s.ftSeq c.me (s.ftSeq c.me + 1)
    placed := s.placed ++ [⟨c.me, c.page, h, s.ftSeq c.me⟩] }

end FtState

/-- The row layout keeps the touch index and the coverage of a page: a contiguous coverage that fits the packed word. -/
def Device.rowPlaced (d : Device) (me idx : Nat) : Bool :=
  match d.coverage me with
  | .range start _ => 0 < d.slotRowBytes ∧ start < 2 ^ 20 ∧ (d.coverage me).covN < 4096 ∧ idx < 0xFFFFFFFF
  | .set _ => false

/-- What the call reports besides the unit. -/
def FtCall.report (c : FtCall) (unit : Nat) (e : FtEntry) : FtReturn :=
  ⟨c.page, c.ask, unit, if c.ask then e.seq else 0, if c.ask then e.cov else 0⟩

/-- One step of `firstTouchUnit` by a thread. -/
def ftStep (d : Device) (t : FtTable) (s : FtState) (tid : Nat) : FtState :=
  match s.pc tid with
  | .idle => s
  | .full _ => s
  | .loadKey c n =>
    if n = t.slots then s.goto tid (.full c)
    else if s.key (t.slotAt c.page n) = c.page + 1 then s.goto tid (.loadUnit c (t.slotAt c.page n))
    else if s.key (t.slotAt c.page n) ≠ 0 then s.goto tid (.loadKey c (n + 1))
    else if (d.coverage c.me).covN = 0 then s.goto tid .idle
    else s.goto tid (.swapKey c n)
  | .swapKey c n =>
    if s.key (t.slotAt c.page n) = 0 then
      (s.putKey (t.slotAt c.page n) (c.page + 1)).goto tid (.fetchSeq c (t.slotAt c.page n))
    else if s.key (t.slotAt c.page n) = c.page + 1 then s.goto tid (.loadUnit c (t.slotAt c.page n))
    else s.goto tid (.loadKey c (n + 1))
  | .loadUnit c h =>
    -- a spin
    if s.unit h = 0 then s
    else if c.ask ∧ 0 < d.slotRowBytes then s.goto tid (.loadSeq c h (s.unit h - 1))
    else s.ret tid ⟨c.page, c.ask, s.unit h - 1, 0, 0⟩
  | .loadSeq c h u => s.goto tid (.loadCov c h u (s.seq h))
  | .loadCov c h u sq => s.ret tid ⟨c.page, c.ask, u, sq, s.cov h⟩
  | .fetchSeq c h =>
    if d.rowPlaced c.me (s.ftSeq c.me) then (s.place c h).goto tid (.storeSeq c h (s.ftSeq c.me))
    else (s.place c h).goto tid (.storeUnit c h (s.ftSeq c.me))
  | .storeSeq c h idx => (s.putSeq h (d.newEntry c.me idx).seq).goto tid (.storeCov c h idx)
  | .storeCov c h idx => (s.putCov h (d.newEntry c.me idx).cov).goto tid (.storeUnit c h idx)
  | .storeUnit c h idx =>
    (s.putUnit h ((d.newEntry c.me idx).unit + 1)).ret tid (c.report (d.newEntry c.me idx).unit (d.newEntry c.me idx))

inductive FtAction where
  | call (tid : Nat) (c : FtCall)
  | step (tid : Nat)
deriving DecidableEq, Repr

/-- A thread that is in a call takes no other. -/
def FtAction.act (d : Device) (t : FtTable) (s : FtState) : FtAction → FtState
  | call tid c =>
    if s.pc tid = .idle then { s.goto tid (.loadKey c 0) with called := s.called ++ [c.page] } else s
  | step tid => ftStep d t s tid

/-- The pages of the calls. -/
def pagesOf (acts : List FtAction) : List Nat :=
  acts.filterMap fun
    | .call _ c => some c.page
    | .step _ => none

def runFt (d : Device) (t : FtTable) (acts : List FtAction) : FtState :=
  acts.foldl (FtAction.act d t) {}

/-! ## The invariant -/

section Invariant

variable {d : Device} {t : FtTable} {s s' : FtState} {c : FtCall} {pc : FtPc} {tid h n idx page : Nat}

/-- The first `n` slots of a page's probes have keys of other pages. -/
def Passed (t : FtTable) (s : FtState) (page n : Nat) : Prop :=
  ∀ j < n, s.key (t.slotAt page j) ≠ 0 ∧ s.key (t.slotAt page j) ≠ page + 1

/-- A slot claimed for the page of a call, not filled. -/
def Claimed (s : FtState) (c : FtCall) (h sq cv : Nat) : Prop :=
  s.key h = c.page + 1 ∧ s.unit h = 0 ∧ s.seq h = sq ∧ s.cov h = cv

/-- What a thread relies on where it is. -/
def ThreadOk (d : Device) (t : FtTable) (s : FtState) : FtPc → Prop
  | .idle => True
  | .loadKey c n => n ≤ t.slots ∧ Passed t s c.page n ∧ c.page ∈ s.called
  | .swapKey c n => n < t.slots ∧ Passed t s c.page n ∧ c.page ∈ s.called
  | .loadUnit c h => s.key h = c.page + 1
  | .loadSeq c h u => s.key h = c.page + 1 ∧ s.unit h = u + 1
  | .loadCov c h u sq => s.key h = c.page + 1 ∧ s.unit h = u + 1 ∧ s.seq h = sq
  | .fetchSeq c h => Claimed s c h 0 0 ∧ ∀ r ∈ s.placed, r.page ≠ c.page
  | .storeSeq c h idx => Claimed s c h 0 0 ∧ ⟨c.me, c.page, h, idx⟩ ∈ s.placed
  | .storeCov c h idx => Claimed s c h (d.newEntry c.me idx).seq 0 ∧ ⟨c.me, c.page, h, idx⟩ ∈ s.placed
  | .storeUnit c h idx =>
    Claimed s c h (d.newEntry c.me idx).seq (d.newEntry c.me idx).cov ∧ ⟨c.me, c.page, h, idx⟩ ∈ s.placed
  | .full c => Passed t s c.page t.slots ∧ c.page ∈ s.called

/-- A slot holds the entry of a placed page. -/
def Holds (d : Device) (s : FtState) (r : FtPlaced) : Prop :=
  s.unit r.slot = (d.newEntry r.me r.idx).unit + 1 ∧ s.seq r.slot = (d.newEntry r.me r.idx).seq ∧
    s.cov r.slot = (d.newEntry r.me r.idx).cov

/-- A call that returned got the entry of its page, which is filled. -/
def ReturnOk (d : Device) (s : FtState) (x : FtReturn) : Prop :=
  ∃ r ∈ s.placed, r.page = x.page ∧ s.unit r.slot ≠ 0 ∧ x.unit = (d.newEntry r.me r.idx).unit ∧
    (x.ask = true → x.seq = (d.newEntry r.me r.idx).seq ∧ x.cov = (d.newEntry r.me r.idx).cov)

structure FtInv (d : Device) (t : FtTable) (s : FtState) : Prop where
  path : ∀ h, s.key h ≠ 0 → ∃ page n, page ∈ s.called ∧ s.key h = page + 1 ∧ h = t.slotAt page n ∧ Passed t s page n
  free : ∀ h, s.key h = 0 → s.unit h = 0 ∧ s.seq h = 0 ∧ s.cov h = 0
  thread : ∀ tid, ThreadOk d t s (s.pc tid)
  owned : ∀ h, s.key h ≠ 0 → s.unit h = 0 → ∃ tid, (s.pc tid).claims = some h
  alone : ∀ tid tid' h, (s.pc tid).claims = some h → (s.pc tid').claims = some h → tid = tid'
  filled : ∀ h, s.unit h ≠ 0 → ∃ r ∈ s.placed, r.slot = h ∧ Holds d s r
  slot : ∀ r ∈ s.placed, s.key r.slot = r.page + 1
  pages : (s.placed.map (·.page)).Nodup
  indices : ∀ me, (s.placed.filter (·.me = me)).map (·.idx) = List.range (s.ftSeq me)
  returned : ∀ x ∈ s.returned, ReturnOk d s x

/-- Claims and entries stay. -/
structure Grows (s s' : FtState) : Prop where
  key : ∀ h, s.key h ≠ 0 → s'.key h = s.key h
  unit : ∀ h, s.unit h ≠ 0 → s'.unit h = s.unit h ∧ s'.seq h = s.seq h ∧ s'.cov h = s.cov h
  placed : ∀ r ∈ s.placed, r ∈ s'.placed
  called : ∀ page ∈ s.called, page ∈ s'.called

/-- Nobody touches a slot that is claimed, nor places its page. -/
def Undisturbed (s s' : FtState) (h : Nat) : Prop :=
  (s'.unit h = s.unit h ∧ s'.seq h = s.seq h ∧ s'.cov h = s.cov h) ∧
    ∀ r ∈ s'.placed, r.page + 1 = s.key h → r ∈ s.placed

theorem Passed.mono (hg : Grows s s') (hp : Passed t s page n) : Passed t s' page n := by
  intro j hj
  obtain ⟨hne, hpage⟩ := hp j hj
  rw [hg.key _ hne]
  exact ⟨hne, hpage⟩

theorem Passed.succ (hp : Passed t s page n) (hne : s.key (t.slotAt page n) ≠ 0)
    (hpage : s.key (t.slotAt page n) ≠ page + 1) : Passed t s page (n + 1) := by
  intro j hj
  rcases Nat.lt_succ_iff_lt_or_eq.mp hj with hj | rfl
  · exact hp j hj
  · exact ⟨hne, hpage⟩

theorem Claimed.mono {sq cv : Nat} (hg : Grows s s') (hu : Undisturbed s s' h) (hc : Claimed s c h sq cv) :
    Claimed s' c h sq cv := by
  obtain ⟨hk, hrest⟩ := hc
  obtain ⟨⟨hunit, hseq, hcov⟩, -⟩ := hu
  refine ⟨(hg.key h (by omega)).trans hk, ?_⟩
  rwa [hunit, hseq, hcov]

theorem ThreadOk.mono (hg : Grows s s') (hu : ∀ h, pc.claims = some h → Undisturbed s s' h) (hok : ThreadOk d t s pc) :
    ThreadOk d t s' pc := by
  cases pc with
  | idle => trivial
  | loadKey c n => exact ⟨hok.1, hok.2.1.mono hg, hg.called _ hok.2.2⟩
  | swapKey c n => exact ⟨hok.1, hok.2.1.mono hg, hg.called _ hok.2.2⟩
  | full c => exact ⟨hok.1.mono hg, hg.called _ hok.2⟩
  | loadUnit c h =>
    have hk : s.key h = c.page + 1 := hok
    exact (hg.key h (by omega)).trans hk
  | loadSeq c h u =>
    obtain ⟨hk, hunit⟩ := hok
    exact ⟨(hg.key h (by omega)).trans hk, (hg.unit h (by omega)).1.trans hunit⟩
  | loadCov c h u sq =>
    obtain ⟨hk, hunit, hseq⟩ := hok
    obtain ⟨hunit', hseq', -⟩ := hg.unit h (by omega)
    exact ⟨(hg.key h (by omega)).trans hk, hunit'.trans hunit, hseq'.trans hseq⟩
  | fetchSeq c h =>
    obtain ⟨hc, hnone⟩ := hok
    refine ⟨hc.mono hg (hu h rfl), fun r hr heq => ?_⟩
    refine hnone r ((hu h rfl).2 r hr ?_) heq
    rw [hc.1, heq]
  | storeSeq c h idx => exact ⟨hok.1.mono hg (hu h rfl), hg.placed _ hok.2⟩
  | storeCov c h idx => exact ⟨hok.1.mono hg (hu h rfl), hg.placed _ hok.2⟩
  | storeUnit c h idx => exact ⟨hok.1.mono hg (hu h rfl), hg.placed _ hok.2⟩

theorem ThreadOk.claimed (hok : ThreadOk d t s pc) (hc : pc.claims = some h) : s.key h ≠ 0 ∧ s.unit h = 0 := by
  have hkey : ∀ {c : FtCall} {sq cv : Nat}, Claimed s c h sq cv → s.key h ≠ 0 ∧ s.unit h = 0 :=
    fun hc => ⟨by rw [hc.1]; exact Nat.succ_ne_zero _, hc.2.1⟩
  cases pc with
  | fetchSeq c h' =>
    obtain rfl := Option.some.inj hc
    exact hkey hok.1
  | storeSeq c h' idx =>
    obtain rfl := Option.some.inj hc
    exact hkey hok.1
  | storeCov c h' idx =>
    obtain rfl := Option.some.inj hc
    exact hkey hok.1
  | storeUnit c h' idx =>
    obtain rfl := Option.some.inj hc
    exact hkey hok.1
  | _ => cases hc

theorem FtInv.key_inj (hs : FtInv d t s) {h h' : Nat} (hk : s.key h = page + 1) (hk' : s.key h' = page + 1) : h = h' := by
  obtain ⟨pg, n, -, hpg, hslot, hpass⟩ := hs.path h (by omega)
  obtain ⟨pg', n', -, hpg', hslot', hpass'⟩ := hs.path h' (by omega)
  obtain rfl : pg = page := by omega
  obtain rfl : pg' = pg := by omega
  rcases Nat.lt_trichotomy n n' with hlt | rfl | hlt
  · exact absurd (hslot ▸ hk) (hpass' n hlt).2
  · rw [hslot, hslot']
  · exact absurd (hslot' ▸ hk') (hpass n' hlt).2

theorem FtInv.placed_inj (hs : FtInv d t s) {r r' : FtPlaced} (hr : r ∈ s.placed) (hr' : r' ∈ s.placed)
    (heq : r.page = r'.page) : r = r' :=
  List.inj_on_of_nodup_map hs.pages hr hr' heq

end Invariant

end Pimid.Mem
