import Mathlib.Data.List.Nodup
import Pimid.Lib.Radix
import Pimid.Ramulator.Units

/-!
# The row timer of the host

In timeout mode the row policy keeps a timer for each bank: a host column access arms it, in lock step on every chip of
the rank; an access of a processing element, and a closing or refresh command, disarm it. A bank that stays armed for the
timeout has its row closed by a request to the priority buffer.

A command disarms the banks that its request's own address covers. A rank-wide command of a lock-step request goes to
other addresses.
-/

namespace Pimid.Ramulator

open Function (update_apply update_of_ne update_self)

/-- The policy in timeout mode, and what it reads of a command. -/
structure RowPolicy (D : Type) where
  ctrl : Config D
  isRefreshing : Nat → Bool
  isAccessing : Nat → Bool
  timeout : Int

/-- The fields of the policy. -/
structure RowTimer where
  armed : Nat → Bool := fun _ => false
  last : Nat → Int := fun _ => 0
  addr : Nat → AddrVec := fun _ _ => 0
  scanned : Int := -1

/-- The command that the controller found, and the request it serves. -/
structure Found where
  cmd : Nat
  request : Request

/-- A call of `update`: the controller's clock, what the priority buffer answers to a request for a bank, and the
command. -/
structure Call where
  clk : Int
  accepts : Nat → Bool
  found : Option Found

namespace RowPolicy

variable {D : Type} (p : RowPolicy D)

/-! ## The code -/

def hostSrc (s : Int) : Bool := s == 1 || s == 3 || s == 4 || s == 6

/-- `flat`, by the levels down to `l`. -/
def flatTo (a : AddrVec) : Nat → Nat
  | 0 => 0
  | l + 1 => flatTo a l * p.ctrl.pdRadix (l + 1) + (a (l + 1)).toNat

def flat (a : AddrVec) : Nat := p.flatTo a p.ctrl.dram.bankLevel

def covers (scope bank : AddrVec) : Bool :=
  (List.range p.ctrl.dram.bankLevel).all fun l => scope (l + 1) == -1 || scope (l + 1) == bank (l + 1)

def closing (f : Found) : Bool := p.ctrl.dram.isClosing f.cmd || p.isRefreshing f.cmd

/-- The banks a host access holds: in lock step on every chip of the rank. -/
def chips (r : Request) : List AddrVec :=
  if p.ctrl.pimidLs r ∧ p.ctrl.dram.rankLevel.isSome then p.ctrl.lsChips r.addrVec else [r.addrVec]

/-- The banks whose row is closed now. -/
def closed (s : RowTimer) (u : Call) : List Nat :=
  (List.range p.ctrl.banksPerChannel).filter fun b =>
    s.armed b && decide (p.timeout ≤ u.clk - s.last b) && u.accepts b

/-- Once a clock: the close requests of the idle banks. -/
def scan (s : RowTimer) (u : Call) : RowTimer × List AddrVec :=
  if u.clk = s.scanned then (s, [])
  else
    let closed := p.closed s u
    ({ s with scanned := u.clk, armed := fun b => s.armed b && !closed.contains b }, closed.map s.addr)

def disarm (s : RowTimer) (scope : AddrVec) : RowTimer :=
  { s with armed := fun b => s.armed b && !p.covers scope (s.addr b) }

def arm (clk : Int) (s : RowTimer) (a : AddrVec) : RowTimer :=
  if p.flat a < p.ctrl.banksPerChannel then
    { s with
      armed := Function.update s.armed (p.flat a) true
      last := Function.update s.last (p.flat a) clk
      addr := Function.update s.addr (p.flat a) a }
  else s

def access (s : RowTimer) (clk : Int) (r : Request) : RowTimer :=
  if p.ctrl.banksPerChannel ≤ p.flat r.addrVec then s
  else if !hostSrc r.sourceId then { s with armed := Function.update s.armed (p.flat r.addrVec) false }
  else (p.chips r).foldl (p.arm clk) s

/-- `update`: the policy after a call, and the addresses of its close requests. -/
def update (s : RowTimer) (u : Call) : RowTimer × List AddrVec :=
  let r := p.scan s u
  match u.found with
  | none => r
  | some f =>
    if p.closing f then (p.disarm r.1 f.request.addrVec, r.2)
    else if !p.isAccessing f.cmd then r
    else (p.access r.1 u.clk f.request, r.2)

def run (us : List Call) : RowTimer := us.foldl (fun s u => (p.update s u).1) {}

/-- The calls of a run, each with its close requests. -/
def log (us : List Call) : List (Call × List AddrVec) :=
  (us.foldl (fun r u => ((p.update r.1 u).1, r.2 ++ [(u, (p.update r.1 u).2)])) (({} : RowTimer), [])).2

/-! ## Banks -/

/-- An address that names a bank of the organisation. -/
def Names (a : AddrVec) : Prop := p.ctrl.InRange a ∧ ∀ l, 1 ≤ l → l ≤ p.ctrl.dram.bankLevel → 0 ≤ a l

/-- Two addresses name the same bank. -/
def Same (a k : AddrVec) : Prop := ∀ l, 1 ≤ l → l ≤ p.ctrl.dram.bankLevel → a l = k l

variable {p} {a k : AddrVec}

theorem flatTo_lt (ha : p.Names a) {l : Nat} (hl : l ≤ p.ctrl.dram.bankLevel) :
    p.flatTo a l < ((List.range l).map fun l => p.ctrl.pdRadix (l + 1)).prod := by
  induction l with
  | zero => exact Nat.one_pos
  | succ l ih =>
    have hdigit : (a (l + 1)).toNat < p.ctrl.pdRadix (l + 1) := by
      have hlt := ha.1 (l + 1) (by omega) hl
      have hnonneg := ha.2 (l + 1) (by omega) hl
      unfold Config.pdRadix
      omega
    rw [List.range_succ, List.map_append, List.prod_append, List.map_singleton, List.prod_singleton, flatTo]
    exact two_digits_lt (ih (by omega)) hdigit

theorem flat_lt (ha : p.Names a) : p.flat a < p.ctrl.banksPerChannel := flatTo_lt ha (Nat.le_refl _)

theorem flatTo_inj (ha : p.Names a) (hk : p.Names k) {l : Nat} (hl : l ≤ p.ctrl.dram.bankLevel)
    (h : p.flatTo a l = p.flatTo k l) : ∀ m, 1 ≤ m → m ≤ l → a m = k m := by
  induction l with
  | zero =>
    intro m hm hml
    omega
  | succ l ih =>
    have hdigit : ∀ {x : AddrVec}, p.Names x → (x (l + 1)).toNat < p.ctrl.pdRadix (l + 1) := by
      intro x hx
      have hlt := hx.1 (l + 1) (by omega) hl
      have hnonneg := hx.2 (l + 1) (by omega) hl
      unfold Config.pdRadix
      omega
    obtain ⟨hupper, hlast⟩ := two_digits_inj (hdigit ha) (hdigit hk) h
    intro m hm hml
    rcases Nat.lt_or_ge l m with hlt | hge
    · obtain rfl : m = l + 1 := by omega
      have := ha.2 (l + 1) hm hl
      have := hk.2 (l + 1) hm hl
      omega
    · exact ih (by omega) hupper m hm hge

theorem flatTo_congr {l : Nat} (h : ∀ m, 1 ≤ m → m ≤ l → a m = k m) : p.flatTo a l = p.flatTo k l := by
  induction l with
  | zero => rfl
  | succ l ih => rw [flatTo, flatTo, ih fun m hm hml => h m hm (by omega), h (l + 1) (by omega) (Nat.le_refl _)]

theorem flat_eq_iff (ha : p.Names a) (hk : p.Names k) : p.flat a = p.flat k ↔ p.Same a k :=
  ⟨flatTo_inj ha hk (Nat.le_refl _), flatTo_congr⟩

theorem covers_congr {scope : AddrVec} (h : p.Same a k) : p.covers scope a = p.covers scope k := by
  rw [Bool.eq_iff_iff, covers, covers, List.all_eq_true, List.all_eq_true]
  refine forall₂_congr fun l hl => ?_
  rw [h (l + 1) (Nat.le_add_left 1 l) (List.mem_range.mp hl)]

theorem names_chips (hc : p.ctrl.SetUp) {r : Request} (hr : p.Names r.addrVec) : ∀ x ∈ p.chips r, p.Names x := by
  intro x hx
  unfold chips at hx
  split at hx
  next h =>
    have hls : 1 < p.ctrl.lockstepChips := by
      have := h.1
      unfold Config.pimidLs at this
      exact of_decide_eq_true (Bool.and_eq_true_iff.mp this).1
    refine ⟨hr.1.chips hc hls hx, fun l hl hlb => ?_⟩
    obtain ⟨i, -, rfl⟩ := List.mem_map.mp hx
    unfold Config.chip
    rw [update_apply]
    split
    · omega
    · exact hr.2 l hl hlb
  next =>
    rw [List.mem_singleton.mp hx]
    exact hr

/-! ## What a call says of a bank -/

/-- The banks that a column command reads or writes for the policy. -/
def reach (p : RowPolicy D) (r : Request) : List AddrVec := if hostSrc r.sourceId then p.chips r else [r.addrVec]

/-- A column access of a bank. A command that also closes counts as a closing one. -/
def Accesses (p : RowPolicy D) (u : Call) (k : AddrVec) : Prop :=
  ∃ f, u.found = some f ∧ p.closing f = false ∧ p.isAccessing f.cmd = true ∧ ∃ a ∈ p.reach f.request, p.Same a k

def Host (u : Call) : Prop := ∃ f, u.found = some f ∧ hostSrc f.request.sourceId = true

/-- A closing or refresh command whose request's own address covers a bank. -/
def Reports (p : RowPolicy D) (u : Call) (k : AddrVec) : Prop :=
  ∃ f, u.found = some f ∧ p.closing f = true ∧ p.covers f.request.addrVec k = true

/-- A call asked for a bank's row to be closed. -/
def Asked (p : RowPolicy D) (e : Call × List AddrVec) (k : AddrVec) : Prop := ∃ a ∈ e.2, p.Same a k

/-- A column command names a bank. -/
def Issued (p : RowPolicy D) (u : Call) : Prop :=
  ∀ f, u.found = some f → p.closing f = false → p.isAccessing f.cmd = true → p.Names f.request.addrVec

/-! ## One call -/

/-- An armed bank's address is its own. -/
def Kept (p : RowPolicy D) (s : RowTimer) : Prop := ∀ b, s.armed b = true → p.Names (s.addr b) ∧ p.flat (s.addr b) = b

variable {s : RowTimer} {u : Call}

theorem mem_closed {b : Nat} : b ∈ p.closed s u ↔
    b < p.ctrl.banksPerChannel ∧ s.armed b = true ∧ p.timeout ≤ u.clk - s.last b ∧ u.accepts b = true := by
  rw [closed, List.mem_filter, List.mem_range, Bool.and_eq_true, Bool.and_eq_true, decide_eq_true_eq, and_assoc]

theorem update_sent : (p.update s u).2 = (p.scan s u).2 := by
  unfold update
  dsimp only
  split
  · rfl
  · split
    · rfl
    · split <;> rfl

/-- **What is asked for**: in a clock's first call the banks that are armed, idle for the timeout and accepted. -/
theorem asked_iff (hs : p.Kept s) (hk : p.Names k) : p.Asked (u, (p.update s u).2) k ↔
    u.clk ≠ s.scanned ∧ s.armed (p.flat k) = true ∧ p.timeout ≤ u.clk - s.last (p.flat k) ∧
      u.accepts (p.flat k) = true := by
  unfold Asked
  rw [update_sent, scan]
  by_cases hclk : u.clk = s.scanned
  · rw [if_pos hclk]
    constructor
    · rintro ⟨a, ha, -⟩
      exact absurd ha List.not_mem_nil
    · intro h
      exact absurd hclk h.1
  rw [if_neg hclk]
  constructor
  · rintro ⟨a, ha, hsame⟩
    obtain ⟨b, hb, rfl⟩ := List.mem_map.mp ha
    obtain ⟨-, harmed, hidle, haccepts⟩ := mem_closed.mp hb
    obtain ⟨hnames, hflat⟩ := hs b harmed
    obtain rfl : b = p.flat k := by rw [← hflat]; exact (flat_eq_iff hnames hk).mpr hsame
    exact ⟨hclk, harmed, hidle, haccepts⟩
  · rintro ⟨-, harmed, hidle, haccepts⟩
    obtain ⟨hnames, hflat⟩ := hs _ harmed
    exact ⟨_, List.mem_map_of_mem (mem_closed.mpr ⟨flat_lt hk, harmed, hidle, haccepts⟩), (flat_eq_iff hnames hk).mp hflat⟩

theorem asked_apart (hs : p.Kept s) : (p.update s u).2.Pairwise fun a b => ¬p.Same a b := by
  rw [update_sent, scan]
  split
  · exact .nil
  · have hnodup : (p.closed s u).Nodup := List.nodup_range.filter _
    rw [List.pairwise_map]
    refine hnodup.imp_of_mem fun {b b'} hb hb' hne hsame => hne ?_
    obtain ⟨hnames, hflat⟩ := hs b (mem_closed.mp hb).2.1
    obtain ⟨hnames', hflat'⟩ := hs b' (mem_closed.mp hb').2.1
    rw [← hflat, ← hflat']
    exact (flat_eq_iff hnames hnames').mpr hsame

theorem scan_scanned : (p.scan s u).1.scanned = u.clk := by
  unfold scan
  split
  next h => exact h.symm
  next => rfl

theorem scan_kept (hs : p.Kept s) : p.Kept (p.scan s u).1 := by
  unfold scan
  split
  · exact hs
  · exact fun b hb => hs b (Bool.and_eq_true_iff.mp hb).1

theorem scan_last : (p.scan s u).1.last = s.last := by
  unfold scan
  split <;> rfl

theorem scan_addr : (p.scan s u).1.addr = s.addr := by
  unfold scan
  split <;> rfl

theorem scan_armed (hs : p.Kept s) (hk : p.Names k) : (p.scan s u).1.armed (p.flat k) = true ↔
    s.armed (p.flat k) = true ∧ ¬p.Asked (u, (p.update s u).2) k := by
  rw [asked_iff hs hk]
  unfold scan
  split
  next h => simp [h]
  next h =>
    have hmem : p.flat k ∈ p.closed s u ↔ s.armed (p.flat k) = true ∧ p.timeout ≤ u.clk - s.last (p.flat k) ∧
        u.accepts (p.flat k) = true := by
      rw [mem_closed]
      exact and_iff_right (flat_lt hk)
    change (s.armed (p.flat k) && !(p.closed s u).contains (p.flat k)) = true ↔ _
    rw [Bool.and_eq_true, Bool.not_eq_true', ← Bool.not_eq_true, List.contains_iff_mem, hmem]
    exact and_congr_right fun _ => not_congr (and_iff_right h).symm

/-- Arming some banks: those are armed now, the others are as they were. -/
theorem arms_spec (clk : Int) {as : List AddrVec} (has : ∀ a ∈ as, p.Names a) (hk : p.Names k) :
    ((∃ a ∈ as, p.Same a k) → (as.foldl (p.arm clk) s).armed (p.flat k) = true ∧
      (as.foldl (p.arm clk) s).last (p.flat k) = clk) ∧
    ((¬∃ a ∈ as, p.Same a k) → (as.foldl (p.arm clk) s).armed (p.flat k) = s.armed (p.flat k) ∧
      (as.foldl (p.arm clk) s).last (p.flat k) = s.last (p.flat k)) := by
  induction as using List.reverseRecOn with
  | nil => exact ⟨fun ⟨a, ha, _⟩ => absurd ha List.not_mem_nil, fun _ => ⟨rfl, rfl⟩⟩
  | append_singleton as a ih =>
    have hnames : p.Names a := has a (List.mem_append_right _ List.mem_cons_self)
    have ih := ih fun x hx => has x (List.mem_append_left _ hx)
    rw [List.foldl_append, List.foldl_cons, List.foldl_nil, arm, if_pos (flat_lt hnames)]
    by_cases hsame : p.Same a k
    · have hflat : p.flat a = p.flat k := (flat_eq_iff hnames hk).mpr hsame
      rw [hflat]
      exact ⟨fun _ => ⟨update_self .., update_self ..⟩,
        fun h => absurd ⟨a, List.mem_append_right _ List.mem_cons_self, hsame⟩ h⟩
    · have hflat : p.flat k ≠ p.flat a := fun h => hsame ((flat_eq_iff hnames hk).mp h.symm)
      have hex : (∃ x ∈ as ++ [a], p.Same x k) ↔ ∃ x ∈ as, p.Same x k := by
        constructor
        · rintro ⟨x, hx, hxk⟩
          rcases List.mem_append.mp hx with hx | hx
          · exact ⟨x, hx, hxk⟩
          · exact absurd (List.mem_singleton.mp hx ▸ hxk) hsame
        · rintro ⟨x, hx, hxk⟩
          exact ⟨x, List.mem_append_left _ hx, hxk⟩
      rw [hex]
      dsimp only
      rw [update_of_ne hflat, update_of_ne hflat]
      exact ih

theorem arm_kept (clk : Int) (hs : p.Kept s) (ha : p.Names a) : p.Kept (p.arm clk s a) := by
  intro b hb
  rw [arm, if_pos (flat_lt ha)] at hb ⊢
  dsimp only at hb ⊢
  rw [update_apply] at hb ⊢
  split at hb
  next h =>
    rw [if_pos h]
    exact ⟨ha, h.symm⟩
  next h =>
    rw [if_neg h]
    exact hs b hb

theorem arms_kept (clk : Int) {as : List AddrVec} (has : ∀ a ∈ as, p.Names a) (hs : p.Kept s) :
    p.Kept (as.foldl (p.arm clk) s) := by
  induction as generalizing s with
  | nil => exact hs
  | cons a as ih =>
    exact ih (fun x hx => has x (List.mem_cons_of_mem _ hx)) (arm_kept clk hs (has a List.mem_cons_self))

theorem arms_scanned (clk : Int) (as : List AddrVec) : (as.foldl (p.arm clk) s).scanned = s.scanned := by
  induction as generalizing s with
  | nil => rfl
  | cons a as ih =>
    rw [List.foldl_cons, ih, arm]
    split <;> rfl

/-- **An access**: a bank that it reaches is armed if it is the host's, and disarmed if not; others are as they were. -/
theorem access_spec (hc : p.ctrl.SetUp) (clk : Int) {r : Request} (hr : p.Names r.addrVec) (hk : p.Names k) :
    ((∃ a ∈ p.reach r, p.Same a k) → (p.access s clk r).armed (p.flat k) = hostSrc r.sourceId ∧
      (hostSrc r.sourceId = true → (p.access s clk r).last (p.flat k) = clk)) ∧
    ((¬∃ a ∈ p.reach r, p.Same a k) → (p.access s clk r).armed (p.flat k) = s.armed (p.flat k) ∧
      (p.access s clk r).last (p.flat k) = s.last (p.flat k)) := by
  rw [access, if_neg (Nat.not_le.mpr (flat_lt hr)), reach]
  cases hhost : hostSrc r.sourceId with
  | true =>
    have harms := arms_spec (s := s) clk (names_chips hc hr) hk
    exact ⟨fun h => ⟨(harms.1 h).1, fun _ => (harms.1 h).2⟩, harms.2⟩
  | false =>
    have hmem : (∃ a ∈ [r.addrVec], p.Same a k) ↔ p.flat k = p.flat r.addrVec := by
      rw [eq_comm, flat_eq_iff hr hk]
      simp
    rw [if_neg Bool.false_ne_true, hmem]
    constructor
    · intro h
      rw [h]
      exact ⟨update_self .., fun h => absurd h Bool.false_ne_true⟩
    · intro h
      exact ⟨update_of_ne h .., rfl⟩

theorem access_kept (hc : p.ctrl.SetUp) (clk : Int) {r : Request} (hr : p.Names r.addrVec) (hs : p.Kept s) :
    p.Kept (p.access s clk r) := by
  unfold access
  split
  · exact hs
  · split
    · intro b hb
      dsimp only at hb
      rw [update_apply] at hb
      split at hb
      · exact absurd hb Bool.false_ne_true
      · exact hs b hb
    · exact arms_kept clk (names_chips hc hr) hs

theorem update_scanned : (p.update s u).1.scanned = u.clk := by
  have haccess : ∀ (s : RowTimer) (r : Request), (p.access s u.clk r).scanned = s.scanned := by
    intro s r
    unfold access
    split
    · rfl
    · split
      · rfl
      · exact arms_scanned _ _
  unfold update
  dsimp only
  split
  · exact scan_scanned
  · split
    · exact scan_scanned
    · split
      · exact scan_scanned
      · rw [haccess]
        exact scan_scanned

theorem update_kept (hc : p.ctrl.SetUp) (hu : p.Issued u) (hs : p.Kept s) : p.Kept (p.update s u).1 := by
  unfold update
  dsimp only
  split
  · exact scan_kept hs
  next f hf =>
    split
    · exact fun b hb => scan_kept hs b (Bool.and_eq_true_iff.mp hb).1
    next hclosing =>
      split
      · exact scan_kept hs
      next haccess =>
        exact access_kept hc _ (hu f hf (Bool.not_eq_true _ ▸ hclosing) (by simpa using haccess)) (scan_kept hs)

/-- **A call for a bank**: an access arms or disarms it; without one it stays armed if it is not asked for and no closing
command is reported for it. -/
theorem update_spec (hc : p.ctrl.SetUp) (hu : p.Issued u) (hs : p.Kept s) (hk : p.Names k) :
    (p.Accesses u k → ((p.update s u).1.armed (p.flat k) = true ↔ Host u) ∧
      (Host u → (p.update s u).1.last (p.flat k) = u.clk)) ∧
    (¬p.Accesses u k → ((p.update s u).1.armed (p.flat k) = true ↔
        s.armed (p.flat k) = true ∧ ¬p.Asked (u, (p.update s u).2) k ∧ ¬p.Reports u k) ∧
      (p.update s u).1.last (p.flat k) = s.last (p.flat k)) := by
  have hscan := scan_armed (u := u) hs hk
  unfold Accesses Host Reports
  generalize (p.update s u).2 = sent at hscan ⊢
  unfold update
  dsimp only
  cases hfound : u.found with
  | none =>
    refine ⟨fun ⟨f, hf, _⟩ => absurd hf.symm (Option.some_ne_none f), fun _ => ⟨?_, congrFun scan_last _⟩⟩
    rw [hscan]
    exact and_congr_right fun _ => ⟨fun h => ⟨h, fun ⟨f, hf, _⟩ => absurd hf.symm (Option.some_ne_none f)⟩, fun h => h.1⟩
  | some f =>
    simp only [Option.some.injEq, exists_eq_left']
    cases hclosing : p.closing f with
    | true =>
      rw [if_pos rfl]
      refine ⟨fun h => absurd h.1.symm Bool.false_ne_true, fun _ => ⟨?_, congrFun scan_last _⟩⟩
      have hcovers : s.armed (p.flat k) = true →
          p.covers f.request.addrVec ((p.scan s u).1.addr (p.flat k)) = p.covers f.request.addrVec k := by
        intro harmed
        obtain ⟨hnames, hflat⟩ := hs _ harmed
        rw [scan_addr]
        exact covers_congr ((flat_eq_iff hnames hk).mp hflat)
      rw [disarm, Bool.and_eq_true, hscan, and_assoc]
      refine and_congr_right fun harmed => and_congr_right fun _ => ?_
      rw [hcovers harmed, Bool.not_eq_true', ← Bool.not_eq_true]
      exact not_congr (and_iff_right rfl).symm
    | false =>
      rw [if_neg Bool.false_ne_true]
      cases haccess : p.isAccessing f.cmd with
      | false =>
        refine ⟨fun h => absurd h.2.1.symm Bool.false_ne_true.symm, fun _ => ⟨?_, congrFun scan_last _⟩⟩
        change (p.scan s u).1.armed (p.flat k) = true ↔ _
        rw [hscan]
        exact and_congr_right fun _ => ⟨fun h => ⟨h, fun h => absurd h.1 Bool.false_ne_true⟩, fun h => h.1⟩
      | true =>
        change _ ∧ (¬_ → ((p.access (p.scan s u).1 u.clk f.request).armed (p.flat k) = true ↔ _) ∧ _)
        have hspec := access_spec (s := (p.scan s u).1) hc u.clk (hu f hfound hclosing haccess) hk
        constructor
        · intro h
          obtain ⟨harmed, hlast⟩ := hspec.1 h.2.2
          exact ⟨by rw [← harmed]; rfl, hlast⟩
        · intro h
          obtain ⟨harmed, hlast⟩ := hspec.2 fun hex => h ⟨rfl, rfl, hex⟩
          refine ⟨?_, hlast.trans (congrFun scan_last _)⟩
          rw [harmed, hscan]
          exact and_congr_right fun _ => ⟨fun h => ⟨h, fun h => absurd h.1 Bool.false_ne_true⟩, fun h => h.1⟩

/-! ## Runs -/

/-- The calls of a controller: its column commands name banks, and its clock does not go back. -/
structure Driven (p : RowPolicy D) (us : List Call) : Prop where
  issued : ∀ u ∈ us, p.Issued u
  clocks : us.Pairwise fun u v => u.clk ≤ v.clk
  started : ∀ u ∈ us, 0 ≤ u.clk

variable {us : List Call}

theorem run_snoc : p.run (us ++ [u]) = (p.update (p.run us) u).1 := by
  rw [run, List.foldl_append]
  rfl

theorem log_snoc : p.log (us ++ [u]) = p.log us ++ [(u, (p.update (p.run us) u).2)] := by
  have hrun : ∀ (us : List Call) (r : RowTimer × List (Call × List AddrVec)),
      (us.foldl (fun r u => ((p.update r.1 u).1, r.2 ++ [(u, (p.update r.1 u).2)])) r).1 =
        us.foldl (fun s u => (p.update s u).1) r.1 := by
    intro us
    induction us with
    | nil => exact fun _ => rfl
    | cons u us ih => exact fun r => ih _
  rw [log, List.foldl_append, List.foldl_cons, List.foldl_nil, hrun]
  rfl

theorem run_kept (hc : p.ctrl.SetUp) (hus : ∀ u ∈ us, p.Issued u) : p.Kept (p.run us) := by
  induction us using List.reverseRecOn with
  | nil => exact fun b hb => absurd hb Bool.false_ne_true
  | append_singleton us u ih =>
    rw [run_snoc]
    exact update_kept hc (hus u (List.mem_append_right _ List.mem_cons_self))
      (ih fun v hv => hus v (List.mem_append_left _ hv))

/-- The latest scan was in the latest call's clock. -/
theorem run_scanned (hus : p.Driven us) (hu : p.Driven (us ++ [u])) :
    u.clk ≠ (p.run us).scanned ↔ ∀ v ∈ us, v.clk ≠ u.clk := by
  rcases List.eq_nil_or_concat us with rfl | ⟨vs, w, rfl⟩
  · have hclk := hu.started u List.mem_cons_self
    refine ⟨fun _ v hv => absurd hv List.not_mem_nil, fun _ => ?_⟩
    change u.clk ≠ -1
    omega
  · rw [List.concat_eq_append] at hus hu ⊢
    rw [run_snoc, update_scanned]
    constructor
    · intro hne v hv heq
      have hvw : v.clk ≤ w.clk := by
        rcases List.mem_append.mp hv with hv | hv
        · exact (List.pairwise_append.mp hus.clocks).2.2 v hv w List.mem_cons_self
        · rw [List.mem_singleton.mp hv]
      have hwu : w.clk ≤ u.clk :=
        (List.pairwise_append.mp hu.clocks).2.2 w (List.mem_append_right _ List.mem_cons_self) u List.mem_cons_self
      omega
    · intro h heq
      exact h w (List.mem_append_right _ List.mem_cons_self) heq.symm

/-- Over a run: what a bank's timer is since the latest access. -/
theorem run_spec (hc : p.ctrl.SetUp) (hus : ∀ u ∈ us, p.Issued u) (hk : p.Names k) :
    ((∀ e ∈ p.log us, ¬p.Accesses e.1 k) → (p.run us).armed (p.flat k) = false) ∧
    ∀ pre e post, p.log us = pre ++ e :: post → p.Accesses e.1 k → (∀ e' ∈ post, ¬p.Accesses e'.1 k) →
      ((p.run us).armed (p.flat k) = true ↔ Host e.1 ∧ ∀ e' ∈ post, ¬p.Asked e' k ∧ ¬p.Reports e'.1 k) ∧
      (Host e.1 → (p.run us).last (p.flat k) = e.1.clk) := by
  induction us using List.reverseRecOn with
  | nil =>
    refine ⟨fun _ => rfl, fun pre e post h => ?_⟩
    exact absurd (congrArg List.length h) (by simp [log])
  | append_singleton us u ih =>
    have hlast : p.Issued u := hus u (List.mem_append_right _ List.mem_cons_self)
    have hfirst : ∀ v ∈ us, p.Issued v := fun v hv => hus v (List.mem_append_left _ hv)
    obtain ⟨hacc, hnone⟩ := update_spec hc hlast (run_kept hc hfirst) hk
    obtain ⟨ihnone, ihsplit⟩ := ih hfirst
    rw [log_snoc, run_snoc]
    constructor
    · intro h
      have hu : ¬p.Accesses u k := h _ (List.mem_append_right _ List.mem_cons_self)
      have hfalse := ihnone fun e he => h e (List.mem_append_left _ he)
      rw [← Bool.not_eq_true, (hnone hu).1, hfalse]
      exact fun h => absurd h.1 Bool.false_ne_true
    · intro pre e post hlog he hpost
      rcases List.eq_nil_or_concat post with rfl | ⟨post, e', rfl⟩
      · -- the call is the access
        obtain ⟨-, heq⟩ := List.append_inj' hlog rfl
        obtain rfl := (List.cons.inj heq).1
        refine ⟨(hacc he).1.trans ⟨fun h => ⟨h, fun e' h' => absurd h' List.not_mem_nil⟩, fun h => h.1⟩, (hacc he).2⟩
      · rw [List.concat_eq_append, ← List.cons_append, ← List.append_assoc] at hlog
        obtain ⟨hfront, heq⟩ := List.append_inj' hlog rfl
        obtain rfl := (List.cons.inj heq).1
        rw [List.concat_eq_append] at hpost ⊢
        have hu : ¬p.Accesses u k := hpost _ (List.mem_append_right _ List.mem_cons_self)
        obtain ⟨harmed, hclk⟩ := ihsplit pre e post hfront he fun x hx => hpost x (List.mem_append_left _ hx)
        refine ⟨?_, fun h => (hnone hu).2.trans (hclk h)⟩
        rw [(hnone hu).1, harmed, and_assoc, List.forall_mem_append, List.forall_mem_singleton]

/-- **The host's row timer** over any run. A bank is armed exactly if its latest column access was the host's and since
then it has not been asked for and no closing or refresh command was reported that covers it. It is asked for while it is
armed, in the first call of a clock that is the timeout or more past that access and in which the priority buffer accepts
it, and then not again until the next access. -/
theorem run_timer (hc : p.ctrl.SetUp) (hus : p.Driven us) (hk : p.Names k) :
    ((∀ e ∈ p.log us, ¬p.Accesses e.1 k) → (p.run us).armed (p.flat k) = false) ∧
    (∀ pre e post, p.log us = pre ++ e :: post → p.Accesses e.1 k → (∀ e' ∈ post, ¬p.Accesses e'.1 k) →
      ((p.run us).armed (p.flat k) = true ↔ Host e.1 ∧ ∀ e' ∈ post, ¬p.Asked e' k ∧ ¬p.Reports e'.1 k) ∧
      ∀ v, p.Driven (us ++ [v]) → (p.Asked (v, (p.update (p.run us) v).2) k ↔
        (∀ u ∈ us, u.clk ≠ v.clk) ∧ (Host e.1 ∧ ∀ e' ∈ post, ¬p.Asked e' k ∧ ¬p.Reports e'.1 k) ∧
          p.timeout ≤ v.clk - e.1.clk ∧ v.accepts (p.flat k) = true)) ∧
    ∀ v, (p.update (p.run us) v).2.Pairwise fun a b => ¬p.Same a b := by
  have hkept : p.Kept (p.run us) := run_kept hc hus.issued
  obtain ⟨hnone, hsplit⟩ := run_spec hc hus.issued hk
  refine ⟨hnone, fun pre e post hlog he hpost => ?_, fun v => asked_apart hkept⟩
  obtain ⟨harmed, hlast⟩ := hsplit pre e post hlog he hpost
  refine ⟨harmed, fun v hv => ?_⟩
  rw [asked_iff hkept hk, run_scanned hus hv, harmed]
  refine and_congr_right fun _ => and_congr_right fun h => ?_
  rw [hlast h.1]

/-- A timer of five clocks over two ranks in lock step, and a host access of their first bank. -/
def hostTimer : RowPolicy Unit := ⟨Controller.twoRanks, fun _ => false, fun cmd => decide (cmd ≤ 1), 5⟩

def hostAccess : Call where
  clk := 1
  accepts _ := true
  found := some ⟨0, { addrVec := fun _ => 0, typeId := Read, sourceId := 1 }⟩

/-- The other chip's bank is armed too. -/
theorem run_timer_hostAccess : (hostTimer.run [hostAccess]).armed (hostTimer.flat fun l => if l = 1 then 1 else 0) = true := by
  have hdriven : hostTimer.Driven [hostAccess] := by
    refine ⟨fun u hu => ?_, List.pairwise_singleton _ _, fun u hu => ?_⟩
    · obtain rfl := List.mem_singleton.mp hu
      rintro f hf - -
      obtain rfl := Option.some.inj hf
      exact ⟨fun l _ _ => (by decide : (0 : Int) < 2), fun l _ _ => Int.le_refl 0⟩
    · obtain rfl := List.mem_singleton.mp hu
      exact (by decide : (0 : Int) ≤ 1)
  have hnames : hostTimer.Names fun l => if l = 1 then 1 else 0 := by
    refine ⟨fun l _ _ => ?_, fun l _ _ => ?_⟩
    · change (if l = 1 then (1 : Int) else 0) < 2
      split <;> decide
    · change (0 : Int) ≤ if l = 1 then 1 else 0
      split <;> decide
  refine ((run_timer Controller.twoRanks_setUp hdriven hnames).2.1 [] (hostAccess, []) [] rfl ?_ fun e he =>
    absurd he List.not_mem_nil).1.mpr ⟨⟨_, rfl, rfl⟩, fun e he => absurd he List.not_mem_nil⟩
  refine ⟨_, rfl, rfl, rfl, Controller.twoRanks.chip (fun _ => 0) 1, ?_, fun l _ _ => ?_⟩
  · exact List.mem_cons_of_mem _ List.mem_cons_self
  · change Function.update (fun _ => (0 : Int)) 1 1 l = if l = 1 then 1 else 0
    exact update_apply _ _ _ _

end RowPolicy

end Pimid.Ramulator
