import Pimid.Ramulator.Runs
import Pimid.Ramulator.Units

/-!
# Closing commands and the active buffer

A request that has opened its row waits for its column command in the active buffer, and another
request's closing command there would waste the activation. Reads and writes of the bank-parallel
mode and lock-step requests of the plain mode are held back from that on every chip. What the mode
does not hold back are closing commands for priority and active requests, the auto-precharging
commands chosen at the issue, and in the plain mode those on a chip of a lock-step request that is
not the one its address names. A run in which none of these meets a request of the active buffer,
whenever a command is chosen, spares the active buffer.
-/

namespace Pimid.Ramulator

variable {D : Type} {c : Config D}

namespace Config

/-- A request is on the bank of an address: with its own address, or with that of a chip it drives. -/
def OnBank (c : Config D) (q : Request) (a : AddrVec) : Prop :=
  ∃ k ∈ (if c.pimidLs q then c.lsChips q.addrVec else [q.addrVec]), c.sameBank k a = true

theorem sameBank_iff {a b : AddrVec} :
    c.sameBank a b = true ↔ ∀ l, l ≤ c.dram.bankLevel → a l = b l ∨ a l = -1 ∨ b l = -1 := by
  unfold sameBank
  rw [List.all_eq_true]
  refine forall_congr' fun l => ?_
  rw [List.mem_range, Nat.lt_succ_iff]
  refine imp_congr_right fun _ => ?_
  simp only [Bool.not_eq_true', Bool.and_eq_false_iff, bne_eq_false_iff_eq, or_assoc]

theorem sameBank_chip {l : Nat} (hl : c.rankLv = l) (hlb : l ≤ c.dram.bankLevel) (q a : AddrVec) (k : Nat) :
    c.sameBank (c.chip q k) a = true ↔
      (∀ j, j ≤ c.dram.bankLevel → j ≠ l → q j = a j ∨ q j = -1 ∨ a j = -1) ∧ ((k : Int) = a l ∨ a l = -1) := by
  rw [sameBank_iff]
  unfold chip
  rw [hl]
  constructor
  · intro h
    refine ⟨fun j hj hjl => ?_, ?_⟩
    · have := h j hj
      rwa [Function.update_of_ne hjl] at this
    · have := h l hlb
      rw [Function.update_self] at this
      omega
  · rintro ⟨h, hk⟩ j hj
    by_cases hjl : j = l
    · subst hjl
      rw [Function.update_self]
      omega
    · rw [Function.update_of_ne hjl]
      exact h j hj hjl

/-- The controller's own check is that of every chip, where an address names a rank or all of them. -/
theorem holds_iff (hc : c.SetUp) {q : Request} {a : AddrVec} (ha : -1 ≤ a c.rankLv) (hq : -1 ≤ q.addrVec c.rankLv) :
    c.holds q a = true ↔ c.OnBank q a := by
  unfold holds OnBank
  by_cases hls : c.pimidLs q = true
  · rw [hls, if_pos rfl, Bool.true_and]
    have hmany : 1 < c.lockstepChips := by
      rw [pimidLs, Bool.and_eq_true] at hls
      exact of_decide_eq_true hls.1
    obtain ⟨l, hl, -⟩ := hc.lockstep hmany
    have hrank : c.rankLv = l := by
      rw [rankLv, hl]
      rfl
    have hlb := Nat.le_of_lt (hc.rank l hl).2.1
    have hchips : (∃ k ∈ c.lsChips q.addrVec, c.sameBank k a = true) ↔
        ∃ i < c.lockstepChips, c.sameBank (c.chip q.addrVec (c.lsChip0 q.addrVec + i)) a = true := by
      unfold lsChips
      simp only [List.mem_map, List.mem_range, exists_exists_and_eq_and]
    rw [hchips, hrank]
    rw [hrank] at ha hq
    simp only [sameBank_chip hrank hlb]
    by_cases hneg : 0 ≤ a l
    · rw [if_pos (decide_eq_true hneg), sameBank_chip hrank hlb]
      constructor
      · rintro ⟨hrest, hk⟩
        refine ⟨(a l).toNat % c.lockstepChips, Nat.mod_lt _ (by omega), hrest, hk⟩
      · rintro ⟨i, hi, hrest, hk⟩
        refine ⟨hrest, ?_⟩
        -- the chip's number within its rank is what is left of it
        have hal : (a l).toNat = c.lsChip0 q.addrVec + i := by omega
        have hmod : (a l).toNat % c.lockstepChips = i := by
          rw [hal, lsChip0, Nat.mul_comm, Nat.mul_add_mod, Nat.mod_eq_of_lt hi]
        rw [hmod]
        exact hk
    · rw [decide_eq_false hneg, if_neg Bool.false_ne_true, sameBank_iff]
      have hal : a l = -1 := by omega
      constructor
      · exact fun h => ⟨0, by omega, fun j hj _ => h j hj, .inr hal⟩
      · rintro ⟨-, -, hrest, -⟩ j hj
        by_cases hjl : j = l
        · subst hjl
          exact .inr (.inr hal)
        · exact hrest j hj hjl
  · rw [Bool.eq_false_iff.mpr hls, Bool.false_and, if_neg Bool.false_ne_true, if_neg Bool.false_ne_true]
    simp

end Config

/-- A closing command leaves the rows alone that other requests of the active buffer have opened. -/
def Issue.Spares (c : Config D) (e : Issue) : Prop :=
  c.dram.isClosing e.cmd = true → ∀ q ∈ e.others, ∀ a ∈ e.addrs, ¬c.OnBank q a

namespace Controller

open Ramulator.Config

variable {s : Controller D}

/-- A request that a step can serve, with its command. -/
def Served (c : Config D) (s : Controller D) (b : Buffer) (i : Nat) (r : Request) (cmd : Nat) : Prop :=
  (s.buffers b)[i]? = some r ∧
    if c.bankParallel = true then s.Due c b r cmd else s.Ready c b i cmd r ∧ s.closesActive c r cmd = false

/-- The commands that are issued without a look at the active buffer, or with one at the addresses it names alone. -/
inductive Unchecked (c : Config D) (s : Controller D) (b : Buffer) (r : Request) (cmd : Nat) : Prop
  | bankParallel (hb : c.bankParallel = true) (h : b = .active ∨ b = .priority)
  -- a column command that closes its row as well
  | precharged (h : s.issueCmd c r cmd ≠ (s.issueTo c r cmd).1)
  | ofOneChip (hb : c.bankParallel = false) (hls : c.pimidLs r = false)

/-- The check of the reads and the writes would let every closing command through that is issued without it. -/
def Clear (c : Config D) (s : Controller D) : Prop := ∀ b i r cmd, s.Served c b i r cmd → s.Unchecked c b r cmd →
  c.dram.isClosing (s.issueCmd c r cmd) = true → c.lsCloseBlocked (s.others (selfIn b i)) (s.issueTo c r cmd).2 = false

theorem others_subset {q : Request} {self : Option Nat} (h : q ∈ s.others self) : q ∈ s.buffers .active := by
  cases self with
  | none => exact h
  | some i => exact List.mem_of_mem_eraseIdx h

theorem closeBlocked_false {others : List Request} {a : AddrVec} (h : c.closeBlocked others a = false) {q : Request}
    (hq : q ∈ others) : c.holds q a = false :=
  Bool.eq_false_iff.mpr (List.any_eq_false.mp h q hq)

theorem lsCloseBlocked_false {others : List Request} {sel : List AddrVec} (h : c.lsCloseBlocked others sel = false)
    {q : Request} (hq : q ∈ others) {a : AddrVec} (ha : a ∈ sel) : c.holds q a = false :=
  closeBlocked_false (Bool.eq_false_iff.mpr (List.any_eq_false.mp h a ha)) hq

theorem issueTo_rank {r : Request} (hr : -1 ≤ r.addrVec c.rankLv) {cmd : Nat} {a : AddrVec}
    (ha : a ∈ (s.issueTo c r cmd).2) : -1 ≤ a c.rankLv := by
  by_cases hls : c.pimidLs r = true
  · rw [issueTo_ls hls] at ha
    obtain ⟨hin, -⟩ := List.mem_filter.mp ha
    obtain ⟨i, -, rfl⟩ := List.mem_map.mp hin
    unfold chip
    rw [Function.update_self]
    omega
  · rw [issueTo_single hls] at ha
    rw [List.mem_singleton.mp ha]
    exact hr

/-- **A command spares the active buffer** that is checked, or that the check would let through. -/
theorem Issuable.spares (hc : c.SetUp) (hranks : BuffersAre (fun a => -1 ≤ a c.rankLv) s) {buses : Bool} {b : Buffer} {i : Nat}
    {r : Request} {cmd : Nat} (h : s.Issuable c buses b i r cmd)
    (hclear : s.Unchecked c b r cmd → c.dram.isClosing (s.issueCmd c r cmd) = true →
      c.lsCloseBlocked (s.others (selfIn b i)) (s.issueTo c r cmd).2 = false) :
    (s.issueOf c b i r cmd).Spares c := by
  intro hclosing q hq a ha hon
  have hr : -1 ≤ r.addrVec c.rankLv := hranks b r (List.mem_of_getElem? h.mem)
  have hqa : q ∈ s.buffers .active := others_subset hq
  have hheld := (holds_iff hc (issueTo_rank hr ha) (hranks _ q hqa)).mpr hon
  suffices hfree : c.lsCloseBlocked (s.others (selfIn b i)) (s.issueTo c r cmd).2 = false by
    rw [lsCloseBlocked_false hfree hq ha] at hheld
    cases hheld
  by_cases hno : s.Unchecked c b r cmd
  · exact hclear hno hclosing
  -- the command is the one that was looked at
  have hcmd : s.issueCmd c r cmd = cmd := by
    by_contra hne
    exact hno (.precharged fun hsame => hne (hsame.trans h.cmd_eq))
  have hclosing : c.dram.isClosing cmd = true := by
    rw [← hcmd]
    exact hclosing
  by_cases hb : c.bankParallel = true
  · have hrw : b = .read ∨ b = .write := by
      cases b with
      | active => exact absurd (.bankParallel hb (.inl rfl)) hno
      | priority => exact absurd (.bankParallel hb (.inr rfl)) hno
      | read => exact .inl rfl
      | write => exact .inr rfl
    have hself : selfIn b i = none := by rcases hrw with rfl | rfl <;> rfl
    rw [hself]
    exact h.close hb hrw hclosing
  · have hb := Bool.eq_false_iff.mpr hb
    refine (h.plain hb).closeLs hclosing ?_
    by_contra hls
    exact hno (.ofOneChip hb (Bool.eq_false_iff.mpr hls))

/-! ## Where a run chooses -/

/-- The states in which the picks of a tick are made. -/
def pickStates (c : Config D) (input : TickInput) (bankScopedHead : Bool) :
    Nat → Controller D → List AddrVec → Nat → List (Controller D)
  | 0, _, _, _ => []
  | n + 1, s, used, issued =>
    s :: match s.pick c bankScopedHead used issued (input.slots issued) with
      | .found b i cmd =>
        match (s.buffers b)[i]? with
        | some r =>
          if b = .priority ∧ !bankScopedHead then []
          else
            let s := s.prioritySends c (input.update issued (some (r, cmd)))
            pickStates c input bankScopedHead n (s.pimidIssue c true b i r cmd) (used ++ [r.addrVec]) (issued + 1)
        | none => []
      | _ => []

/-- The states in which a tick chooses a command. -/
def tickStates (c : Config D) (s : Controller D) (input : TickInput) : List (Controller D) :=
  let s := s.begun c input
  if c.bankParallel then
    let s := (s.setWriteMode c).hdbSetMode c
    let bankScopedHead := match s.buffers .priority with
      | [] => false
      | r :: _ => r.addrVec c.dram.bankLevel != -1
    pickStates c input bankScopedHead c.banksPerChannel s [] 0
  else [(s.scheduleRequest c).2]

/-- The states in which a run from a state chooses a command. -/
def runStates (c : Config D) (s : Controller D) : List (Op D) → List (Controller D)
  | [] => []
  | .tick input :: ops => s.tickStates c input ++ (s.tick c input).runStates c ops
  | op :: ops => (s.apply c op).runStates c ops

/-! ## Runs -/

/-- What the steps of a run keep: the commands have spared the active buffer. -/
structure SparesKept (c : Config D) (s : Controller D) : Prop where
  clk : 0 ≤ s.clk
  priority : PriorityOk s
  ranks : BuffersAre (fun a => -1 ≤ a c.rankLv) s
  spares : ∀ e ∈ s.issues, e.Spares c

theorem SparesKept.same (h : SparesKept c s) {t : Controller D} (hclk : s.clk ≤ t.clk) (hiss : t.issues = s.issues)
    (hp : PriorityOk t) (hr : BuffersAre (fun a => -1 ≤ a c.rankLv) t) : SparesKept c t where
  clk := Int.le_trans h.clk hclk
  priority := hp
  ranks := hr
  spares := by
    rw [hiss]
    exact h.spares

theorem SparesKept.prioritySends (h : SparesKept c s) {xs : List (AddrVec × Nat)} (hxs : ∀ x ∈ xs, -1 ≤ x.1 c.rankLv) :
    SparesKept c (s.prioritySends c xs) := by
  have hp := h.priority.prioritySends (c := c) xs
  have hr := BuffersAre.prioritySends (c := c) h.ranks hxs
  obtain ⟨l, hl, -⟩ := prioritySends_eq (c := c) (s := s) xs
  rw [hl] at hp hr ⊢
  exact h.same (Int.le_refl _) rfl hp hr

theorem SparesKept.modes (h : SparesKept c s) : SparesKept c ((s.setWriteMode c).hdbSetMode c) := by
  obtain ⟨w, hw⟩ := setWriteMode_eq (c := c) (s := s)
  obtain ⟨m, hm⟩ := hdbSetMode_eq (c := c) (s := { s with isWriteMode := w })
  rw [hw, hm]
  exact h.same (Int.le_refl _) rfl h.priority h.ranks

theorem SparesKept.begun (h : SparesKept c s) {input : TickInput} (hin : input.All fun x => -1 ≤ x.1 c.rankLv) :
    SparesKept c (s.begun c input) := by
  unfold Controller.begun
  obtain ⟨pending, called, hs⟩ := serveCompletedReads_eq (s := { s with clk := s.clk + 1 })
  have hclk : SparesKept c { s with clk := s.clk + 1, pending, called } :=
    h.same (by dsimp only; omega) rfl h.priority h.ranks
  rw [hs]
  have hrefresh := hclk.prioritySends hin.1
  obtain ⟨pdIn, since, last, wake, cycles, exits, log, ht⟩ :=
    pdTick_eq (c := c) (s := Controller.prioritySends c { s with clk := s.clk + 1, pending, called } input.refresh)
  rw [ht]
  exact hrefresh.same (Int.le_refl _) rfl hrefresh.priority hrefresh.ranks

/-- Priority requests that come between the choice of a command and its issue change nothing of the issue. -/
theorem issueOf_prioritySends (xs : List (AddrVec × Nat)) (b : Buffer) (i : Nat) (r : Request) (cmd : Nat) :
    (s.prioritySends c xs).issueOf c b i r cmd = s.issueOf c b i r cmd := by
  obtain ⟨l, hl, -⟩ := prioritySends_eq (c := c) (s := s) xs
  rw [hl]
  rfl

/-- A request chosen in a state that is clear is issued after the priority requests that its choice brings in. -/
theorem SparesKept.issue (hc : c.SetUp) (h : SparesKept c s) {xs : List (AddrVec × Nat)} (hxs : ∀ x ∈ xs, -1 ≤ x.1 c.rankLv)
    {buses : Bool} {b : Buffer} {i : Nat} {r : Request} {cmd : Nat} (hi : s.Issuable c buses b i r cmd)
    (hclear : s.Unchecked c b r cmd → c.dram.isClosing (s.issueCmd c r cmd) = true →
      c.lsCloseBlocked (s.others (selfIn b i)) (s.issueTo c r cmd).2 = false) :
    SparesKept c ((s.prioritySends c xs).pimidIssue c buses b i r cmd) := by
  have hs := h.prioritySends hxs
  have ht := pimidIssue_issued (c := c) (s := s.prioritySends c xs) buses b i r cmd
  refine ⟨by rw [ht.clk]; exact hs.clk, hs.priority.issue,
    BuffersAre.issue hs.ranks (h.ranks b r (List.mem_of_getElem? hi.mem)), fun e he => ?_⟩
  rw [ht.issues, issueOf_prioritySends] at he
  rcases List.mem_append.mp he with he | he
  · exact hs.spares e he
  · obtain rfl := List.mem_singleton.mp he
    exact hi.spares hc h.ranks hclear

theorem SparesKept.pickLoop (hc : c.SetUp) (hb : c.bankParallel = true) {input : TickInput}
    (hin : input.All fun x => -1 ≤ x.1 c.rankLv) {head : Bool} (fuel : Nat) {used : List AddrVec} {n : Nat}
    (h : SparesKept c s) (hclear : ∀ t ∈ pickStates c input head fuel s used n, t.Clear c) :
    SparesKept c (Controller.pickLoop c input head fuel s used n) := by
  induction fuel generalizing s used n with
  | zero => exact h
  | succ fuel ih =>
    rw [pickStates] at hclear
    have hhere := hclear s (List.mem_cons_self ..)
    rw [Controller.pickLoop]
    rcases hpick : s.pick c head used n (input.slots n) with _ | _ | ⟨b, i, cmd⟩
    · exact h
    · exact h.prioritySends (hin.2 n _)
    · obtain ⟨r, hr, hdue⟩ := pick_picked h.clk h.priority hpick
      rw [hpick] at hclear
      dsimp only at hclear ⊢
      rw [hr.mem] at hclear ⊢
      dsimp only at hclear ⊢
      have hserved : s.Served c b i r cmd := ⟨hr.mem, by rw [if_pos hb]; exact hdue⟩
      have hissued := h.issue hc (hin.2 n (some (r, cmd))) (hr.issuable hb) (hhere b i r cmd hserved)
      split
      · exact hissued
      · next hmore =>
        rw [if_neg hmore] at hclear
        exact ih hissued fun t ht => hclear t (List.mem_cons_of_mem _ ht)

theorem SparesKept.bankParallel (hc : c.SetUp) (hb : c.bankParallel = true) {input : TickInput}
    (hin : input.All fun x => -1 ≤ x.1 c.rankLv) (h : SparesKept c (s.begun c input))
    (hclear : ∀ t ∈ s.tickStates c input, t.Clear c) :
    SparesKept c ((s.begun c input).pimidTickBankParallel c input) := by
  have hm := h.modes
  unfold tickStates at hclear
  dsimp only at hclear
  rw [if_pos hb] at hclear
  unfold pimidTickBankParallel
  dsimp only
  split
  · exact hm.prioritySends (hin.2 _ _)
  · exact hm.pickLoop hc hb hin _ hclear

theorem lsScheduled_same {b b' : Buffer} {i i' cmd cmd' : Nat} {r r' : Request}
    (h : s.lsScheduled c (b, i, cmd, r) = some (b', i', cmd', r')) :
    b' = b ∧ i' = i ∧ r' = r ∧ s.issueTo c r cmd' = s.issueTo c r cmd := by
  unfold lsScheduled at h
  dsimp only at h
  by_cases hls : c.pimidLs r = true
  · rw [if_pos hls] at h
    split at h
    · obtain ⟨rfl, rfl, rfl, rfl⟩ := Option.some.inj h
      exact ⟨rfl, rfl, rfl, by rw [issueTo_ls hls, issueTo_ls hls]⟩
    · cases h
  · rw [if_neg hls] at h
    obtain ⟨rfl, rfl, rfl, rfl⟩ := Option.some.inj h
    exact ⟨rfl, rfl, rfl, rfl⟩

theorem SparesKept.plainTick (hc : c.SetUp) (hb : c.bankParallel = false) {input : TickInput}
    (hin : input.All fun x => -1 ≤ x.1 c.rankLv) (h : SparesKept c (s.begun c input))
    (hclear : ∀ t ∈ s.tickStates c input, t.Clear c) : SparesKept c ((s.begun c input).plainTick c input) := by
  have hhere : ((s.begun c input).scheduleRequest c).2.Clear c := by
    refine hclear _ ?_
    unfold tickStates
    rw [if_neg (by rw [hb]; exact Bool.false_ne_true)]
    exact List.mem_singleton_self _
  have hmode : SparesKept c ((s.begun c input).scheduleRequest c).2 := by
    obtain ⟨w, hw⟩ := scheduleRequest_mode (c := c) (s := s.begun c input)
    rw [hw]
    exact h.same (Int.le_refl _) rfl h.priority h.ranks
  unfold Controller.plainTick
  dsimp only
  cases hfound : ((s.begun c input).scheduleRequest c).1 with
  | none => exact hmode.prioritySends (hin.2 _ _)
  | some x =>
    obtain ⟨b, i, cmd, r⟩ := x
    obtain ⟨hready, hclose⟩ := scheduleRequest_spec hfound
    dsimp only [Option.bind]
    rcases hls : ((s.begun c input).scheduleRequest c).2.lsScheduled c (b, i, cmd, r) with _ | ⟨b', i', cmd', r'⟩
    · exact hmode.prioritySends (hin.2 _ _)
    · obtain ⟨rfl, rfl, rfl, hto⟩ := lsScheduled_same hls
      have hs := lsScheduled_spec hready hclose hls
      refine hmode.issue hc (hin.2 _ _) (hs.issuable hb) fun hno => ?_
      -- the check looks at what goes out, which is the same for the command that was found
      have hcmd : ((s.begun c input).scheduleRequest c).2.issueCmd c r' cmd' =
          ((s.begun c input).scheduleRequest c).2.issueCmd c r' cmd := by
        rw [issueCmd, issueCmd, hto]
      rw [hcmd, hto]
      refine hhere b' i' r' cmd ⟨hready.mem, ?_⟩ ?_
      · rw [if_neg (by rw [hb]; exact Bool.false_ne_true)]
        exact ⟨hready, hclose⟩
      · cases hno with
        | bankParallel hyes _ =>
          rw [hb] at hyes
          cases hyes
        | precharged hne =>
          rw [hcmd, hto] at hne
          exact .precharged hne
        | ofOneChip _ hone => exact .ofOneChip hb hone

theorem SparesKept.tick (hc : c.SetUp) (h : SparesKept c s) {input : TickInput} (hin : input.All fun x => -1 ≤ x.1 c.rankLv)
    (hclear : ∀ t ∈ s.tickStates c input, t.Clear c) : SparesKept c (s.tick c input) := by
  have hb := h.begun hin
  unfold Controller.tick
  by_cases hp : c.bankParallel = true
  · rw [if_pos hp]
    exact hb.bankParallel hc hp hin hclear
  · rw [if_neg hp]
    exact hb.plainTick hc (Bool.eq_false_iff.mpr hp) hin hclear

theorem SparesKept.outside (h : SparesKept c s) {op : Op D} (hop : op.All fun a => -1 ≤ a c.rankLv)
    (hno : ∀ input, op ≠ .tick input) : SparesKept c (s.apply c op) := by
  cases op with
  | send r =>
    rcases apply_send (c := c) (s := s) r with ⟨q, hq⟩ | ⟨b, q, hb, ha, hq⟩ | hq <;> rw [hq]
    · exact h.same (Int.le_refl _) rfl h.priority h.ranks
    · have hp := h.priority.enqueue (c := c) (r := q) hb
      have hr := BuffersAre.enqueue (c := c) (b := b) (r := q) h.ranks (by rw [ha]; exact hop)
      obtain ⟨l, hl⟩ := enqueue_eq (c := c) (s := s) b q
      rw [hl] at hp hr ⊢
      exact h.same (Int.le_refl _) rfl hp hr
    · exact h
  | prioritySend x =>
    show SparesKept c (s.prioritySends c [x])
    refine h.prioritySends fun y hy => ?_
    rw [List.mem_singleton.mp hy]
    exact hop
  | tick input => exact absurd rfl (hno input)
  | dram d => exact h.same (Int.le_refl _) rfl h.priority h.ranks

theorem SparesKept.run (hc : c.SetUp) (h : SparesKept c s) {ops : List (Op D)} (hops : ∀ op ∈ ops, op.All fun a => -1 ≤ a c.rankLv)
    (hclear : ∀ t ∈ s.runStates c ops, t.Clear c) : SparesKept c (ops.foldl (Controller.apply c) s) := by
  induction ops generalizing s with
  | nil => exact h
  | cons op ops ih =>
    have hop := hops op (List.mem_cons_self ..)
    have hrest : ∀ op ∈ ops, op.All fun a => -1 ≤ a c.rankLv := fun x hx => hops x (List.mem_cons_of_mem _ hx)
    by_cases htick : ∃ input, op = .tick input
    · obtain ⟨input, rfl⟩ := htick
      rw [runStates] at hclear
      refine ih (h.tick hc hop fun t ht => hclear t ?_) hrest fun t ht => hclear t ?_
      · exact List.mem_append_left _ ht
      · exact List.mem_append_right _ ht
    · have hno : ∀ input, op ≠ .tick input := fun input heq => htick ⟨input, heq⟩
      rw [runStates] at hclear
      · exact ih (h.outside hop hno) hrest hclear
      · exact hno

end Controller

end Pimid.Ramulator
