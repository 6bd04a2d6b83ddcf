import Mathlib.Data.List.Induction
import Mathlib.Logic.Function.Basic
import Pimid.Ramulator.Controller

/-!
# The timing of the DRAM

A channel is a tree of nodes. Each keeps the clock from which a command may be issued there, which a command raises by the
constraints of its level: at the nodes it goes to by the clock of their latest commands, as many as the constraint's
window, and at a node beside them by its own clock. A command is ready if the clock has come to that of every node it
goes to, down to its scope.

So no constraint is ever broken: that is the result over runs.
-/

namespace Pimid.Ramulator

structure TimingCons where
  cmd : Nat
  val : Int
  window : Nat := 1
  sibling : Bool := false

/-- `m_timing_cons` by level and command, and `m_command_scopes`. -/
structure Timing where
  cons : Nat → Nat → List TimingCons
  scope : Nat → Nat

/-- `m_cmd_ready_clk` and `m_cmd_history` of a node, its latest clock first. -/
structure NodeClocks where
  ready : Nat → Int
  history : Nat → List Int

inductive Node where
  | leaf (clocks : NodeClocks)
  | inner (clocks : NodeClocks) (n : Nat) (children : Nat → Node)

/-- A command as it is issued. -/
structure Issued where
  command : Nat
  addr : AddrVec
  clk : Int

/-! ## The code -/

def raise (ready : Nat → Int) (t : TimingCons) : Option Int → Nat → Int
  | none => ready
  | some future => Function.update ready t.cmd (max (ready t.cmd) future)

/-- The loop over the constraints of a command: each that says from when its command may follow raises that. -/
def raiseAll (f : TimingCons → Option Int) (ts : List TimingCons) (ready : Nat → Int) : Nat → Int :=
  ts.foldl (fun ready t => raise ready t (f t)) ready

namespace NodeClocks

variable (c : NodeClocks)

/-- A node beside the one that a command goes to. -/
def beside (clk : Int) (ts : List TimingCons) : NodeClocks :=
  { c with ready := raiseAll (fun t => if t.sibling then some (clk + t.val) else none) ts c.ready }

/-- A node that a command goes to. -/
def target (command : Nat) (clk : Int) (ts : List TimingCons) : NodeClocks :=
  let history := if c.history command = [] then c.history
    else Function.update c.history command (clk :: (c.history command).dropLast)
  { history
    ready := raiseAll (fun t =>
      let past := (history command).getD (t.window - 1) (-1)
      if t.sibling ∨ past < 0 then none else some (past + t.val)) ts c.ready }

end NodeClocks

/-- A node is not one that an address names at its level. -/
def misses (addr : AddrVec) (level id : Nat) : Bool := (id : Int) != addr level && addr level != -1

namespace Timing

variable (s : Timing)

/-- The clocks of a history. -/
def window (level p : Nat) : Nat := (s.cons level p).foldl (fun w t => max w t.window) 0

def fresh (level : Nat) : NodeClocks := ⟨fun _ => -1, fun p => List.replicate (s.window level p) (-1)⟩

/-- A node of a level, with the counts of the levels below. -/
def build : Nat → List Nat → Node
  | level, [] => .leaf (s.fresh level)
  | level, n :: ns => if n = 0 then .leaf (s.fresh level) else .inner (s.fresh level) n fun _ => build (level + 1) ns

def updateTiming (e : Issued) : Nat → Nat → Node → Node
  | level, id, .leaf c =>
    .leaf (if misses e.addr level id then c.beside e.clk (s.cons level e.command)
      else c.target e.command e.clk (s.cons level e.command))
  | level, id, .inner c n children =>
    if misses e.addr level id then .inner (c.beside e.clk (s.cons level e.command)) n children
    else .inner (c.target e.command e.clk (s.cons level e.command)) n fun i => updateTiming e (level + 1) i (children i)

def checkReady (e : Issued) : Nat → Node → Bool
  | _, .leaf c => !(c.ready e.command != -1 && decide (e.clk < c.ready e.command))
  | level, .inner c n children =>
    !(c.ready e.command != -1 && decide (e.clk < c.ready e.command)) &&
      (if level = s.scope e.command then true
      else if e.addr (level + 1) = -1 then (List.range n).all fun i => checkReady e (level + 1) (children i)
      else checkReady e (level + 1) (children (e.addr (level + 1)).toNat))

/-- `ready_at`: the latest ready clock of the nodes that a command goes to, down to its scope. -/
def readyAt (command : Nat) (addr : AddrVec) : Nat → Node → Int
  | _, .leaf c => c.ready command
  | level, .inner c n children =>
    if level = s.scope command then c.ready command
    else if addr (level + 1) = -1 then
      (List.range n).foldl (fun r i => max r (readyAt command addr (level + 1) (children i))) (c.ready command)
    else max (c.ready command) (readyAt command addr (level + 1) (children (addr (level + 1)).toNat))

/-- A channel after some commands. -/
def run (channel : Nat) (counts : List Nat) (es : List Issued) : Node :=
  es.foldl (fun x e => s.updateTiming e 0 channel x) (s.build 0 counts)

/-- Every command was ready when it was issued. -/
def Legal (channel : Nat) (counts : List Nat) (es : List Issued) : Prop :=
  ∀ pre e post, es = pre ++ e :: post → 0 ≤ e.clk ∧ s.checkReady e 0 (s.run channel counts pre) = true

end Timing

/-! ## The nodes of a channel -/

/-- The clocks of a node below another, by its path. -/
def Node.at : Node → List Nat → Option NodeClocks
  | .leaf c, [] => some c
  | .inner c _ _, [] => some c
  | .leaf _, _ :: _ => none
  | .inner _ n children, i :: is => if i < n then (children i).at is else none

/-- An address names a node, by the path to it from a node of a level. -/
def targets (addr : AddrVec) : Nat → Nat → List Nat → Bool
  | level, id, [] => !misses addr level id
  | level, id, i :: is => !misses addr level id && targets addr (level + 1) i is

/-- An address names a sibling of a node and not the node. -/
def isBeside (addr : AddrVec) : Nat → Nat → List Nat → Bool
  | level, id, [] => misses addr level id
  | level, id, i :: is => !misses addr level id && isBeside addr (level + 1) i is

variable {s : Timing} {e : Issued} {is : List Nat}

/-- **What a command does to a node**: it is gone to, it stands beside, or it stays as it is. -/
theorem updateTiming_at (x : Node) (level id : Nat) : (s.updateTiming e level id x).at is = (x.at is).map fun c =>
    if targets e.addr level id is then c.target e.command e.clk (s.cons (level + is.length) e.command)
    else if isBeside e.addr level id is then c.beside e.clk (s.cons (level + is.length) e.command) else c := by
  induction x generalizing level id is with
  | leaf c =>
    cases is with
    | nil => cases hm : misses e.addr level id <;> simp [Timing.updateTiming, Node.at, targets, isBeside, hm]
    | cons i is => rfl
  | inner c n children ih =>
    cases is with
    | nil => cases hm : misses e.addr level id <;> simp [Timing.updateTiming, Node.at, targets, isBeside, hm]
    | cons i is =>
      have hlevel : level + (i :: is).length = level + 1 + is.length := by rw [List.length_cons]; omega
      rw [hlevel]
      cases hm : misses e.addr level id with
      | true => simp [Timing.updateTiming, Node.at, targets, isBeside, hm]
      | false =>
        simp only [Timing.updateTiming, hm, Bool.false_eq_true, if_false, Node.at, targets, isBeside, Bool.not_false,
          Bool.true_and]
        split
        · exact ih i _ _
        · rfl

theorem own_ready_iff (hclk : 0 ≤ e.clk) (c : NodeClocks) :
    (!(c.ready e.command != -1 && decide (e.clk < c.ready e.command))) = true ↔ c.ready e.command ≤ e.clk := by
  simp only [Bool.not_eq_true', Bool.and_eq_false_iff, bne_eq_false_iff_eq, decide_eq_false_iff_not]
  omega

theorem foldl_max_le {f : Nat → Int} {l : List Nat} {r x : Int} :
    l.foldl (fun r i => max r (f i)) r ≤ x ↔ r ≤ x ∧ ∀ i ∈ l, f i ≤ x := by
  induction l generalizing r with
  | nil => simp
  | cons i l ih => rw [List.foldl_cons, ih, Int.max_le, List.forall_mem_cons, and_assoc]

/-- **The kept clock decides readiness**: a command is ready exactly from the latest ready clock on. -/
theorem checkReady_iff (hclk : 0 ≤ e.clk) (level : Nat) (x : Node) :
    s.checkReady e level x = true ↔ s.readyAt e.command e.addr level x ≤ e.clk := by
  induction x generalizing level with
  | leaf c => exact own_ready_iff hclk c
  | inner c n children ih =>
    rw [Timing.checkReady, Bool.and_eq_true, own_ready_iff hclk, Timing.readyAt]
    split
    · exact and_iff_left rfl
    · split
      · rw [foldl_max_le, List.all_eq_true]
        exact and_congr_right fun _ => forall₂_congr fun i _ => ih i (level + 1)
      · rw [Int.max_le]
        exact and_congr_right fun _ => ih _ (level + 1)

/-- A command that is ready finds the clock come to that of every node it goes to, down to its scope. -/
theorem ready_le (hclk : 0 ≤ e.clk) {x : Node} {level id : Nat} (h : s.checkReady e level x = true)
    (ht : targets e.addr level id is = true) (hs : level + is.length ≤ s.scope e.command) {c : NodeClocks}
    (hc : x.at is = some c) : c.ready e.command ≤ e.clk := by
  induction x generalizing level id is with
  | leaf c' =>
    cases is with
    | nil =>
      obtain rfl := Option.some.inj hc
      exact (own_ready_iff hclk _).mp h
    | cons i is => exact absurd hc.symm (Option.some_ne_none c)
  | inner c' n children ih =>
    obtain ⟨hhere, hbelow⟩ := Bool.and_eq_true_iff.mp h
    cases is with
    | nil =>
      obtain rfl := Option.some.inj hc
      exact (own_ready_iff hclk _).mp hhere
    | cons i is =>
      rw [List.length_cons] at hs
      obtain ⟨-, ht⟩ := Bool.and_eq_true_iff.mp ht
      have hnamed : (i : Int) = e.addr (level + 1) ∨ e.addr (level + 1) = -1 := by
        have hmiss : misses e.addr (level + 1) i = false := by
          cases is with
          | nil => exact Bool.not_eq_true' _ ▸ ht
          | cons j is => exact Bool.not_eq_true' _ ▸ (Bool.and_eq_true_iff.mp ht).1
        simpa [misses, or_iff_not_imp_left] using hmiss
      rw [Node.at] at hc
      split at hc
      next hi =>
        rw [if_neg (by omega)] at hbelow
        refine ih i ?_ ht (by omega) hc
        rcases hnamed with hname | hall
        · rw [if_neg (by omega), ← hname] at hbelow
          exact hbelow
        · rw [if_pos hall] at hbelow
          exact List.all_eq_true.mp hbelow i (List.mem_range.mpr hi)
      next => exact absurd hc.symm (Option.some_ne_none c)

/-! ## What a node keeps -/

theorem le_raiseAll {f : TimingCons → Option Int} {ts : List TimingCons} {ready : Nat → Int} :
    (∀ k, ready k ≤ raiseAll f ts ready k) ∧ ∀ t ∈ ts, ∀ x, f t = some x → x ≤ raiseAll f ts ready t.cmd := by
  have hraise : ∀ (ready : Nat → Int) (t : TimingCons) (o : Option Int) (k : Nat), ready k ≤ raise ready t o k := by
    intro ready t o k
    cases o with
    | none => exact Int.le_refl _
    | some x =>
      rw [raise, Function.update_apply]
      split
      next h => rw [h]; exact Int.le_max_left _ _
      next => exact Int.le_refl _
  induction ts generalizing ready with
  | nil => exact ⟨fun _ => Int.le_refl _, fun t ht => absurd ht List.not_mem_nil⟩
  | cons t ts ih =>
    obtain ⟨hmono, hmem⟩ := @ih (raise ready t (f t))
    refine ⟨fun k => Int.le_trans (hraise _ _ _ _) (hmono k), fun t' ht' x hx => ?_⟩
    rcases List.mem_cons.mp ht' with rfl | ht'
    · refine Int.le_trans ?_ (hmono t'.cmd)
      rw [hx, raise, Function.update_self]
      exact Int.le_max_right _ _
    · exact hmem t' ht' x hx

/-- The clocks of the commands of a kind that went to a node. -/
def hits (es : List Issued) (channel : Nat) (is : List Nat) (p : Nat) : List Int :=
  (es.filter fun e => e.command == p && targets e.addr 0 channel is).map Issued.clk

/-- A node against the commands issued so far: its histories are the latest clocks, and its ready clocks hold every
constraint of its level that a command started. -/
structure Kept (s : Timing) (es : List Issued) (channel : Nat) (is : List Nat) (c : NodeClocks) : Prop where
  history : ∀ p, c.history p = ((hits es channel is p).reverse ++
    List.replicate (s.window is.length p) (-1)).take (s.window is.length p)
  near : ∀ p, ∀ t ∈ s.cons is.length p, t.sibling = false → ∀ pre x post, hits es channel is p = pre ++ x :: post →
    t.window ≤ post.length + 1 → x + t.val ≤ c.ready t.cmd
  aside : ∀ e ∈ es, isBeside e.addr 0 channel is = true → ∀ t ∈ s.cons is.length e.command, t.sibling = true →
    e.clk + t.val ≤ c.ready t.cmd

variable {channel : Nat} {es : List Issued} {c : NodeClocks} {p : Nat}

theorem hits_snoc : hits (es ++ [e]) channel is p =
    hits es channel is p ++ if e.command = p ∧ targets e.addr 0 channel is = true then [e.clk] else [] := by
  rw [hits, List.filter_append, List.map_append]
  congr 1
  by_cases h : e.command = p ∧ targets e.addr 0 channel is = true
  · rw [if_pos h, List.filter_cons_of_pos (by simpa using h)]
    rfl
  · rw [if_neg h, List.filter_cons_of_neg (by simpa using h)]
    rfl

theorem not_beside_of_targets {addr : AddrVec} {level id : Nat} (h : targets addr level id is = true) :
    isBeside addr level id is = false := by
  induction is generalizing level id with
  | nil => exact Bool.not_eq_true' _ ▸ h
  | cons i is ih =>
    obtain ⟨hmiss, hrest⟩ := Bool.and_eq_true_iff.mp h
    rw [isBeside, ih hrest, Bool.and_false]

theorem window_le {level : Nat} {t : TimingCons} (ht : t ∈ s.cons level p) : t.window ≤ s.window level p := by
  have hfold : ∀ (ts : List TimingCons) (w : Nat), w ≤ ts.foldl (fun w t => max w t.window) w ∧
      ∀ t ∈ ts, t.window ≤ ts.foldl (fun w t => max w t.window) w := by
    intro ts
    induction ts with
    | nil => exact fun w => ⟨Nat.le_refl _, fun t ht => absurd ht List.not_mem_nil⟩
    | cons t ts ih =>
      intro w
      obtain ⟨hmono, hmem⟩ := ih (max w t.window)
      refine ⟨Nat.le_trans (Nat.le_max_left _ _) hmono, fun t' ht' => ?_⟩
      rcases List.mem_cons.mp ht' with rfl | ht'
      · exact Nat.le_trans (Nat.le_max_right _ _) hmono
      · exact hmem t' ht'
  exact (hfold _ 0).2 t ht

theorem push_take {w : Nat} {l : List Int} {x : Int} (hw : w ≤ l.length) :
    (if l.take w = [] then l.take w else x :: (l.take w).dropLast) = (x :: l).take w := by
  cases w with
  | zero => rfl
  | succ w =>
    have hne : l.take (w + 1) ≠ [] := fun h => by
      have := congrArg List.length h
      rw [List.length_take, List.length_nil] at this
      omega
    rw [if_neg hne, List.take_succ_cons, List.dropLast_eq_take, List.length_take, List.take_take]
    congr 2
    omega

theorem target_history {ts : List TimingCons} {clk : Int} (q : Nat) : (c.target p clk ts).history q =
    if p = q then if c.history q = [] then c.history q else clk :: (c.history q).dropLast else c.history q := by
  unfold NodeClocks.target
  dsimp only
  split
  next hnil =>
    by_cases hq : p = q
    · subst hq
      rw [if_pos rfl, if_pos hnil]
    · rw [if_neg hq]
  next hne =>
    rw [Function.update_apply]
    by_cases hq : p = q
    · subst hq
      rw [if_pos rfl, if_pos rfl, if_neg hne]
    · rw [if_neg (Ne.symm hq), if_neg hq]

theorem Kept.target (hw : ∀ p, ∀ t ∈ s.cons is.length p, t.sibling = false → 1 ≤ t.window) (hes : ∀ e' ∈ es ++ [e], 0 ≤ e'.clk)
    (h : Kept s es channel is c) (ht : targets e.addr 0 channel is = true) :
    Kept s (es ++ [e]) channel is (c.target e.command e.clk (s.cons is.length e.command)) := by
  have hlog : ∀ p, hits (es ++ [e]) channel is p = hits es channel is p ++ if e.command = p then [e.clk] else [] := by
    intro p
    rw [hits_snoc]
    simp only [ht, and_true]
  have hhistory : ∀ p, (c.target e.command e.clk (s.cons is.length e.command)).history p =
      ((hits (es ++ [e]) channel is p).reverse ++ List.replicate (s.window is.length p) (-1)).take
        (s.window is.length p) := by
    intro q
    rw [target_history, hlog]
    by_cases hq : e.command = q
    · rw [if_pos hq, if_pos hq, h.history q, List.reverse_append]
      refine push_take ?_
      rw [List.length_append, List.length_replicate]
      exact Nat.le_add_left _ _
    · rw [if_neg hq, if_neg hq, h.history q, List.append_nil]
  refine ⟨hhistory, fun p t htc hsib pre x post hsplit hwin => ?_, fun e' he' hbes t htc hsib => ?_⟩
  · by_cases hp : e.command = p ∧ t.window = post.length + 1
    · -- the clock is the oldest of the constraint's window
      obtain ⟨rfl, hlen⟩ := hp
      have hpast : ((c.target e.command e.clk (s.cons is.length e.command)).history e.command).getD (t.window - 1) (-1) =
          x := by
        have hle := window_le htc
        rw [hhistory, hsplit, List.reverse_append, List.reverse_cons, List.append_assoc, List.append_assoc,
          List.getD_eq_getElem?_getD, List.getElem?_take_of_lt (by omega),
          List.getElem?_append_right (by rw [List.length_reverse]; omega), List.length_reverse]
        have hzero : t.window - 1 - post.length = 0 := by omega
        rw [hzero]
        rfl
      have hpos : 0 ≤ x := by
        have hmem : x ∈ hits (es ++ [e]) channel is e.command := by
          rw [hsplit]
          exact List.mem_append_right _ List.mem_cons_self
        obtain ⟨e', he', rfl⟩ := List.mem_map.mp hmem
        exact hes e' (List.mem_filter.mp he').1
      refine le_raiseAll.2 t htc _ ?_
      rw [← hpast] at hpos ⊢
      exact if_neg fun hno => hno.elim (fun hyes => absurd (hyes.symm.trans hsib) (by decide)) (Int.not_lt.mpr hpos)
    · -- it was in the node's clocks before
      have hold : ∃ post', hits es channel is p = pre ++ x :: post' ∧ t.window ≤ post'.length + 1 := by
        rw [hlog] at hsplit
        by_cases hq : e.command = p
        · have hshort : t.window ≤ post.length := by
            have : t.window ≠ post.length + 1 := fun hlen => hp ⟨hq, hlen⟩
            omega
          have hone : 1 ≤ t.window := hw p t htc hsib
          rw [if_pos hq] at hsplit
          rcases List.eq_nil_or_concat post with rfl | ⟨post', y, rfl⟩
          · exact absurd (Nat.le_trans hone hshort) (by decide)
          · rw [List.concat_eq_append, ← List.cons_append, ← List.append_assoc] at hsplit
            refine ⟨post', (List.append_inj' hsplit rfl).1, ?_⟩
            rw [List.concat_eq_append, List.length_append] at hshort
            exact hshort
        · rw [if_neg hq, List.append_nil] at hsplit
          exact ⟨post, hsplit, hwin⟩
      obtain ⟨post', hold, hwin'⟩ := hold
      exact Int.le_trans (h.near p t htc hsib pre x post' hold hwin') (le_raiseAll.1 t.cmd)
  · refine Int.le_trans ?_ (le_raiseAll.1 t.cmd)
    rcases List.mem_append.mp he' with he' | he'
    · exact h.aside e' he' hbes t htc hsib
    · rw [List.mem_singleton.mp he', not_beside_of_targets ht] at hbes
      exact absurd hbes Bool.false_ne_true

/-- **A command keeps what the nodes keep.** -/
theorem Kept.update (hw : ∀ p, ∀ t ∈ s.cons is.length p, t.sibling = false → 1 ≤ t.window) (hes : ∀ e' ∈ es ++ [e], 0 ≤ e'.clk)
    (h : Kept s es channel is c) : Kept s (es ++ [e]) channel is
      (if targets e.addr 0 channel is then c.target e.command e.clk (s.cons is.length e.command)
      else if isBeside e.addr 0 channel is then c.beside e.clk (s.cons is.length e.command) else c) := by
  by_cases ht : targets e.addr 0 channel is = true
  · rw [if_pos ht]
    exact h.target hw hes ht
  have hlog : ∀ p, hits (es ++ [e]) channel is p = hits es channel is p := by
    intro p
    rw [hits_snoc, if_neg fun h => ht h.2, List.append_nil]
  rw [if_neg ht]
  by_cases hb : isBeside e.addr 0 channel is = true
  · rw [if_pos hb]
    refine ⟨fun p => (h.history p).trans (by rw [hlog]), fun p t htc hsib pre x post hsplit hwin => ?_,
      fun e' he' hbes t htc hsib => ?_⟩
    · exact Int.le_trans (h.near p t htc hsib pre x post (hlog p ▸ hsplit) hwin) (le_raiseAll.1 t.cmd)
    · rcases List.mem_append.mp he' with he' | he'
      · exact Int.le_trans (h.aside e' he' hbes t htc hsib) (le_raiseAll.1 t.cmd)
      · obtain rfl := List.mem_singleton.mp he'
        exact le_raiseAll.2 t htc _ (if_pos hsib)
  · rw [if_neg hb]
    refine ⟨fun p => (h.history p).trans (by rw [hlog]), fun p t htc hsib pre x post hsplit hwin =>
      h.near p t htc hsib pre x post (hlog p ▸ hsplit) hwin, fun e' he' hbes t htc hsib => ?_⟩
    rcases List.mem_append.mp he' with he' | he'
    · exact h.aside e' he' hbes t htc hsib
    · exact absurd (List.mem_singleton.mp he' ▸ hbes) hb

/-! ## Runs -/

theorem run_snoc (s : Timing) (channel : Nat) (counts : List Nat) (es : List Issued) (e : Issued) :
    s.run channel counts (es ++ [e]) = s.updateTiming e 0 channel (s.run channel counts es) := by
  rw [Timing.run, List.foldl_append]
  rfl

theorem build_at {level : Nat} {ns : List Nat} {c : NodeClocks} (h : (s.build level ns).at is = some c) :
    c = s.fresh (level + is.length) := by
  induction is generalizing level ns with
  | nil =>
    cases ns with
    | nil => exact (Option.some.inj h).symm
    | cons n ns =>
      rw [Timing.build] at h
      split at h <;> exact (Option.some.inj h).symm
  | cons i is ih =>
    cases ns with
    | nil => exact absurd h.symm (Option.some_ne_none c)
    | cons n ns =>
      rw [Timing.build] at h
      split at h
      · exact absurd h.symm (Option.some_ne_none c)
      · rw [Node.at] at h
        split at h
        · rw [ih h, List.length_cons]
          congr 1
          omega
        · exact absurd h.symm (Option.some_ne_none c)

theorem run_kept {counts : List Nat} (hw : ∀ p, ∀ t ∈ s.cons is.length p, t.sibling = false → 1 ≤ t.window)
    (hnode : (s.build 0 counts).at is ≠ none) (hes : ∀ e ∈ es, 0 ≤ e.clk) :
    ∃ c, (s.run channel counts es).at is = some c ∧ Kept s es channel is c := by
  induction es using List.reverseRecOn with
  | nil =>
    obtain ⟨c, hc⟩ := Option.ne_none_iff_exists'.mp hnode
    refine ⟨c, hc, ?_⟩
    obtain rfl := build_at hc
    rw [Nat.zero_add]
    refine ⟨fun p => ?_, fun p t _ _ pre x post h => ?_, fun e he => absurd he List.not_mem_nil⟩
    · change List.replicate _ _ = (List.replicate _ _).take _
      rw [List.take_replicate, Nat.min_self]
    · exact absurd (congrArg List.length h) (by simp [hits])
  | append_singleton es e ih =>
    obtain ⟨c, hc, hkept⟩ := ih fun e he => hes e (List.mem_append_left _ he)
    rw [run_snoc, updateTiming_at, hc, Nat.zero_add]
    exact ⟨_, rfl, hkept.update hw hes⟩

/-- **No timing constraint is ever broken.** Over any run whose commands were ready when they were issued, a command that
goes to a node comes no earlier than every constraint of the node's level says, after each command that went to the node
and is the window's or more commands of its kind back, and after each command that went to a sibling of the node. -/
theorem run_respects {counts : List Nat} (hw : ∀ l p, ∀ t ∈ s.cons l p, t.sibling = false → 1 ≤ t.window)
    (hlegal : s.Legal channel counts es) {pre post : List Issued} (hes : es = pre ++ e :: post)
    (hnode : (s.build 0 counts).at is ≠ none) (ht : targets e.addr 0 channel is = true)
    (hscope : is.length ≤ s.scope e.command) {t : TimingCons} (htc : t ∈ s.cons is.length p) (hcmd : t.cmd = e.command) :
    (t.sibling = false → ∀ a x b, hits pre channel is p = a ++ x :: b → t.window ≤ b.length + 1 → x + t.val ≤ e.clk) ∧
    (t.sibling = true → ∀ e' ∈ pre, e'.command = p → isBeside e'.addr 0 channel is = true → e'.clk + t.val ≤ e.clk) := by
  obtain ⟨hclk, hready⟩ := hlegal pre e post hes
  have hpre : ∀ e' ∈ pre, 0 ≤ e'.clk := by
    intro e' he'
    obtain ⟨a, b, rfl⟩ := List.append_of_mem he'
    exact (hlegal a e' (b ++ e :: post) (by rw [hes, List.append_assoc, List.cons_append])).1
  have hrun : ∃ c, (s.run channel counts pre).at is = some c ∧ Kept s pre channel is c := run_kept (hw is.length) hnode hpre
  obtain ⟨c, hc, hkept⟩ := hrun
  have hle : c.ready t.cmd ≤ e.clk := by
    rw [hcmd]
    exact ready_le hclk hready ht (by omega) hc
  refine ⟨fun hsib a x b hsplit hwin => Int.le_trans (hkept.near p t htc hsib a x b hsplit hwin) hle, ?_⟩
  rintro hsib e' he' rfl hbes
  exact Int.le_trans (hkept.aside e' he' hbes t htc hsib) hle

/-- Two commands of a kind in any four clocks. -/
def twoInFour : Timing := ⟨fun _ _ => [⟨0, 4, 2, false⟩], fun _ => 0⟩

def command (clk : Int) : Issued := ⟨0, fun _ => 0, clk⟩

theorem checkReady_iff_twoInFour : twoInFour.checkReady (command 3) 0 (twoInFour.run 0 [] [command 1, command 2]) = true ↔
    twoInFour.readyAt 0 (fun _ => 0) 0 (twoInFour.run 0 [] [command 1, command 2]) ≤ 3 :=
  checkReady_iff (e := command 3) (by decide) 0 _

/-- The third of three comes four clocks after the first. -/
theorem run_respects_twoInFour : twoInFour.Legal 0 [] [command 3, command 4, command 7] ∧ (3 : Int) + 4 ≤ 7 := by
  have hlegal : twoInFour.Legal 0 [] [command 3, command 4, command 7] := by
    intro pre e post h
    rcases pre with _ | ⟨a, _ | ⟨b, _ | ⟨c, pre⟩⟩⟩
    · obtain rfl := (List.cons.inj h).1
      decide
    · obtain ⟨ha, h⟩ := List.cons.inj h
      obtain rfl := (List.cons.inj h).1
      rw [← ha]
      decide
    · obtain ⟨ha, h⟩ := List.cons.inj h
      obtain ⟨hb, h⟩ := List.cons.inj h
      obtain rfl := (List.cons.inj h).1
      rw [← ha, ← hb]
      decide
    · have := congrArg List.length h
      simp at this
  refine ⟨hlegal, ?_⟩
  have hone : ∀ l p, ∀ t ∈ twoInFour.cons l p, t.sibling = false → 1 ≤ t.window := fun _ _ t ht _ => by
    rw [List.mem_singleton.mp ht]
    decide
  have hsplit : [command 3, command 4, command 7] = [command 3, command 4] ++ command 7 :: [] := rfl
  have hnode : (twoInFour.build 0 []).at [] ≠ none := Option.some_ne_none _
  have hcons : (⟨0, 4, 2, false⟩ : TimingCons) ∈ twoInFour.cons ([] : List Nat).length 0 := List.mem_cons_self
  exact (run_respects hone hlegal hsplit hnode rfl (Nat.le_refl 0) hcons rfl).1 rfl [] 3 [4] rfl (Nat.le_refl 2)

end Pimid.Ramulator
