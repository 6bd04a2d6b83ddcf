import Pimid.Noc.Visits

/-!
# The order of a batch

The sort key of a batch is its records' time, source and destination; the message class is
not in it. Records of one key that would be injected as messages of different classes keep
an order that depends on the input and on the sort. Where there are none, the drain is the
same for every order of the records; where there are, a network that delivers nothing shows
the difference.
-/

namespace Pimid.Noc

variable {σ : Type}

/-- A record as the drain sees it: the class of one that is not injected does not matter. -/
def canon (numNodes : Nat) (a : BatchAccess) : BatchAccess :=
  { a with ctrl := valid numNodes a && a.ctrl }

@[simp]
theorem valid_canon (n : Nat) (a : BatchAccess) : valid n (canon n a) = valid n a := rfl

theorem canon_of_valid {n : Nat} {a : BatchAccess} (h : valid n a = true) : canon n a = a := by
  unfold canon
  rw [h, Bool.true_and]

namespace Drainer

variable {N : Network σ} {c : Batch} {s t : Drainer σ}

/-! ## The records left -/

def withTodo (s : Drainer σ) (l : List BatchAccess) : Drainer σ :=
  { s with todo := l }

/-- With the records left in canonical form. -/
def canonical (c : Batch) (s : Drainer σ) : Drainer σ :=
  s.withTodo (s.todo.map (canon c.numNodes))

variable (l : List BatchAccess)

theorem enqueues_todo (es : List Enqueue) (s : Drainer σ) :
    es.foldl (enqueue c) (s.withTodo l) = (es.foldl (enqueue c) s).withTodo l := by
  induction es generalizing s with
  | nil => rfl
  | cons e es ih => exact ih (s.enqueue c e)

theorem injectOne_todo (s : Drainer σ) (a : BatchAccess) :
    (s.withTodo l).injectOne N c a = (s.injectOne N c a).withTodo l :=
  enqueues_todo l _ (s.sent _ a)

theorem deliver_todo (s : Drainer σ) (msg : SimpleMessage) :
    (s.withTodo l).deliver c msg = (s.deliver c msg).withTodo l := by
  unfold deliver withTodo
  dsimp only
  cases s.inTransit msg.tag <;> rfl

theorem take_todo (d : Nat) (e : BufferEntry) (rest : List BufferEntry) (s : Drainer σ) :
    (s.withTodo l).take N c d e rest = (s.take N c d e rest).withTodo l := by
  unfold take
  exact (congrArg (deliver c · e.msg) (enqueues_todo l _ (s.popped _ d e rest))).trans (deliver_todo l _ e.msg)

theorem drainBuffer_todo (d fuel : Nat) (s : Drainer σ) :
    (s.withTodo l).drainBuffer N c d fuel = (s.drainBuffer N c d fuel).map (withTodo · l) := by
  induction fuel generalizing s with
  | zero =>
    unfold drainBuffer
    rw [show (s.withTodo l).bufs = s.bufs from rfl, show (s.withTodo l).curTick = s.curTick from rfl]
    split <;> rfl
  | succ fuel ih =>
    unfold drainBuffer
    rw [show (s.withTodo l).bufs = s.bufs from rfl, show (s.withTodo l).curTick = s.curTick from rfl]
    split
    · rfl
    · next e rest _ =>
      split
      · rw [take_todo]
        exact ih _
      · rfl

theorem visit_todo (fuel : Nat) (s : Drainer σ) :
    (s.withTodo l).visit N c fuel = (s.visit N c fuel).map (withTodo · l) := by
  have hfold : ∀ (ds : List Nat) (s : Drainer σ), ds.foldlM (visitOne N c fuel) (s.withTodo l) =
      (ds.foldlM (visitOne N c fuel) s).map (withTodo · l) := by
    intro ds
    induction ds with
    | nil => exact fun _ => rfl
    | cons d ds ih =>
      intro s
      rw [List.foldlM_cons, List.foldlM_cons, visitOne, visitOne, drainBuffer_todo]
      cases drainBuffer N c d fuel s with
      | none => rfl
      | some s' => exact ih { s' with minReady := min s'.minReady (s'.bufs d).readyTime }
  exact hfold c.dsts { s with minReady := maxTick }

theorem advance_todo (s : Drainer σ) : (s.withTodo l).advance N c = (s.advance N c).withTodo l := by
  unfold advance
  rw [show (s.withTodo l).bufs = s.bufs from rfl, show (s.withTodo l).curTick = s.curTick from rfl,
    show (s.withTodo l).net = s.net from rfl]
  split
  · next net tick es _ => exact enqueues_todo l es (s.moved net tick)
  · rfl

theorem finish_todo (s : Drainer σ) : (s.withTodo l).finish N c = (s.finish N c).withTodo l := by
  unfold finish
  rw [show (s.withTodo l).delivered = s.delivered from rfl]
  split
  · rfl
  · exact advance_todo l s

/-- What follows the injections does not look at the records left, and leaves them. -/
theorem rest_todo (guard : Guard) (fuel : Nat) (s : Drainer σ) :
    ((s.withTodo l).visitIf N c guard fuel).map (finish N c) = ((s.visitIf N c guard fuel).map (finish N c)).map (withTodo · l) := by
  have hvisit : (s.withTodo l).visitIf N c guard fuel = (s.visitIf N c guard fuel).map (withTodo · l) := by
    unfold visitIf
    rw [show (s.withTodo l).minReady = s.minReady from rfl, show (s.withTodo l).curTick = s.curTick from rfl]
    split
    · exact visit_todo l fuel s
    · rfl
  rw [hvisit, Option.map_map, Option.map_map]
  exact congrArg (Option.map · _) (funext fun s => finish_todo l s)

theorem rest_keeps {guard : Guard} {fuel : Nat} (h : (s.visitIf N c guard fuel).map (finish N c) = some t) :
    t.todo = s.todo := by
  have hsame := rest_todo (N := N) (c := c) s.todo guard fuel s
  rw [show s.withTodo s.todo = s from rfl, h, Option.map_some] at hsame
  exact (congrArg todo (Option.some.inj hsame)).trans rfl

theorem injectDue_canon (rest : List BatchAccess) (s : Drainer σ) :
    (s.withTodo l).injectDue N c (rest.map (canon c.numNodes)) = (s.injectDue N c rest).canonical c := by
  induction rest generalizing s with
  | nil => rfl
  | cons a rest ih =>
    rw [List.map_cons]
    unfold injectDue
    rw [show injectTick c (canon c.numNodes a) = injectTick c a from rfl, valid_canon,
      show (s.withTodo l).curTick = s.curTick from rfl]
    split
    · rfl
    · split
      · next hv =>
        rw [canon_of_valid hv, injectOne_todo]
        exact ih _
      · exact ih s

theorem turn_canon (guard : Guard) (fuel : Nat) (s : Drainer σ) :
    (s.canonical c).turn N c guard fuel = (s.turn N c guard fuel).map (canonical c) := by
  have hinject : (s.canonical c).injectDue N c (s.canonical c).todo = (s.injectDue N c s.todo).canonical c :=
    injectDue_canon _ s.todo s
  unfold turn
  rw [hinject]
  refine (rest_todo _ guard fuel (s.injectDue N c s.todo)).trans ?_
  cases h : ((s.injectDue N c s.todo).visitIf N c guard fuel).map (finish N c) with
  | none => rfl
  | some t =>
    rw [Option.map_some, Option.map_some, canonical, rest_keeps h]

theorem loop_canon (guard : Guard) (fuel turns : Nat) (s : Drainer σ) :
    (s.canonical c).loop N c guard fuel turns = (s.loop N c guard fuel turns).map (canonical c) := by
  induction turns generalizing s with
  | zero => rfl
  | succ turns ih =>
    unfold loop
    rw [show (s.canonical c).delivered = s.delivered from rfl, show (s.canonical c).curTick = s.curTick from rfl, turn_canon]
    split
    · cases s.turn N c guard fuel with
      | none => rfl
      | some t => exact ih t
    · rfl

end Drainer

namespace Drains

open Drainer

variable {w : Drains} {records batch : List BatchAccess}

theorem batchOf_canon (w : Drains) (batch : List BatchAccess) :
    w.batchOf (batch.map (canon w.numNodes)) = w.batchOf batch := by
  have hvalid : (batch.map (canon w.numNodes)).filter (valid w.numNodes) = (batch.filter (valid w.numNodes)).map (canon w.numNodes) := by
    rw [List.filter_map]
    rfl
  have hdst : ((batch.filter (valid w.numNodes)).map (canon w.numNodes)).map (·.dst) =
      (batch.filter (valid w.numNodes)).map (·.dst) := by
    rw [List.map_map]
    rfl
  have hcycle (a : Option BatchAccess) : cycleOf (a.map (canon w.numNodes)) = cycleOf a := by
    cases a <;> rfl
  unfold batchOf
  dsimp only
  rw [hvalid, hdst, List.length_map, List.head?_map, List.getLast?_map, hcycle, hcycle]

/-- A drain sees its records in canonical form only. -/
theorem run_canon (w : Drains) (N : Network σ) (guard : Guard) (fuel turns : Nat) (batch : List BatchAccess) (net : σ)
    (bufs : Nat → MessageBuffer) :
    w.runBatchDrain N guard fuel turns (batch.map (canon w.numNodes)) net bufs =
      (w.runBatchDrain N guard fuel turns batch net bufs).map (canonical (w.batchOf batch)) := by
  have hstart : w.start (batch.map (canon w.numNodes)) net bufs = (w.start batch net bufs).canonical (w.batchOf batch) := by
    unfold start
    rw [batchOf_canon]
    rfl
  unfold runBatchDrain
  rw [batchOf_canon, hstart]
  exact loop_canon guard fuel turns _

end Drains

/-! ## A network that delivers nothing -/

def idle : Network Unit where
  inject s _ _ := (s, [])
  processOneEvent _ _ _ := none
  dequeueCallback s _ _ _ := (s, [])

def pairOf (a : BatchAccess) : PairKey :=
  ⟨a.src, a.dst, a.ctrl⟩

def SimpleMessage.pair (m : SimpleMessage) : PairKey :=
  ⟨m.src, m.dst, m.ctrl⟩

namespace Drainer

variable {c : Batch} {s : Drainer Unit}

/-- Nothing has come out of the network. -/
structure Silent (s : Drainer Unit) : Prop where
  bufs : ∀ d, (s.bufs d).buffer = []
  delivered : s.delivered = 0

theorem Silent.injectDue (h : s.Silent) (l : List BatchAccess) : (s.injectDue idle c l).Silent := by
  induction l generalizing s with
  | nil => exact ⟨h.bufs, h.delivered⟩
  | cons a rest ih =>
    unfold Drainer.injectDue
    split
    · exact ⟨h.bufs, h.delivered⟩
    · refine ih ?_
      split
      · exact ⟨h.bufs, h.delivered⟩
      · exact h

/-- The records injected and those left are all there were, in order. -/
theorem injected_todo (s : Drainer Unit) (l : List BatchAccess) :
    (s.injectDue idle c l).curTick = s.curTick ∧ (s.injectDue idle c l).todo ⊆ l ∧
      ((∀ a ∈ l, injectTick c a ≤ s.curTick) → (s.injectDue idle c l).todo = []) ∧
      (s.injectDue idle c l).injected.map (·.pair) ++ ((s.injectDue idle c l).todo.filter (valid c.numNodes)).map pairOf =
        s.injected.map (·.pair) ++ (l.filter (valid c.numNodes)).map pairOf := by
  induction l generalizing s with
  | nil => exact ⟨rfl, List.Subset.refl _, fun _ => rfl, rfl⟩
  | cons a rest ih =>
    unfold injectDue
    split
    · next hlate =>
      exact ⟨rfl, List.Subset.refl _, fun h => absurd (h a List.mem_cons_self) (Nat.not_le.mpr hlate), rfl⟩
    · split
      · next hv =>
        obtain ⟨htick, hsub, hnil, hlog⟩ := ih (s.injectOne idle c a)
        refine ⟨htick, fun x hx => List.mem_cons_of_mem _ (hsub hx), fun h => hnil fun x hx => h x (List.mem_cons_of_mem _ hx), ?_⟩
        have hone : (s.injectOne idle c a).injected.map (·.pair) = s.injected.map (·.pair) ++ [pairOf a] := List.map_append
        rw [hlog, hone, List.filter_cons_of_pos hv, List.map_cons, List.append_assoc, List.singleton_append]
      · next hv =>
        obtain ⟨htick, hsub, hnil, hlog⟩ := ih s
        refine ⟨htick, fun x hx => List.mem_cons_of_mem _ (hsub hx), fun h => hnil fun x hx => h x (List.mem_cons_of_mem _ hx), ?_⟩
        rw [hlog, List.filter_cons_of_neg hv]

theorem turn_idle (fuel : Nat) (h : s.Silent) (hvalid : 0 < c.validCount) : ∃ t, s.turn idle c whenReady fuel = some t ∧
    t.Silent ∧ t.curTick = s.curTick + 1 ∧ t.todo = (s.injectDue idle c s.todo).todo ∧
      t.injected = (s.injectDue idle c s.todo).injected := by
  have hs : (s.injectDue idle c s.todo).Silent := h.injectDue s.todo
  have htick : (s.injectDue idle c s.todo).curTick = s.curTick := (injected_todo s s.todo).1
  obtain ⟨t, ht, m, rfl⟩ : ∃ t, (s.injectDue idle c s.todo).visitIf idle c whenReady fuel = some t ∧
      Alike (s.injectDue idle c s.todo) t := by
    unfold visitIf
    split
    · refine visit_idle idle fuel fun d _ => ?_
      rw [MessageBuffer.isReady, hs.bufs]
      rfl
    · exact ⟨_, rfl, Alike.refl _⟩
  unfold turn
  rw [ht, Option.map_some, finish, if_neg (by rw [show Drainer.delivered _ = _ from hs.delivered]; omega)]
  exact ⟨_, rfl, ⟨hs.bufs, hs.delivered⟩, congrArg (· + 1) htick, rfl, rfl⟩

theorem loop_idle (fuel turns last : Nat) (h : s.Silent) (hvalid : 0 < c.validCount) (hlast : last < c.lastTick)
    (hticks : ∀ a ∈ s.todo, injectTick c a ≤ last) (hdone : last < s.curTick → s.todo = []) :
    ∃ t, s.loop idle c whenReady fuel turns = some t ∧ (last < s.curTick + turns → t.todo = []) ∧
      t.injected.map (·.pair) ++ (t.todo.filter (valid c.numNodes)).map pairOf =
        s.injected.map (·.pair) ++ (s.todo.filter (valid c.numNodes)).map pairOf := by
  induction turns generalizing s with
  | zero => exact ⟨s, rfl, hdone, rfl⟩
  | succ turns ih =>
    unfold loop
    split
    · obtain ⟨t, ht, hst, htick, htodo, hinj⟩ := turn_idle fuel h hvalid
      obtain ⟨-, hsub, hnil, hlog⟩ := injected_todo (c := c) s s.todo
      have hticks' : ∀ a ∈ t.todo, injectTick c a ≤ last := fun a ha => hticks a (hsub (htodo ▸ ha))
      have hdone' : last < t.curTick → t.todo = [] := fun hlt => by
        rw [htodo]
        exact hnil fun a ha => Nat.le_trans (hticks a ha) (by omega)
      obtain ⟨t', ht', hnil', hlog'⟩ := ih hst hticks' hdone'
      rw [ht]
      refine ⟨t', ht', fun hlt => hnil' (by omega), ?_⟩
      rw [hlog', htodo, hinj, hlog]
    · next hstop =>
      have hover : last < s.curTick := by
        have hdel := h.delivered
        omega
      exact ⟨s, rfl, fun _ => hdone hover, rfl⟩

end Drainer

namespace Drains

open Drainer

variable {w : Drains} {records batch : List BatchAccess}

/-! ## The order of the records -/

/-- Whatever the network, the order the records were appended in and the order the sort leaves ties in, the same messages are
injected and the pairs' totals are the same. -/
def OrderFree (w : Drains) (records : List BatchAccess) : Prop :=
  ∀ (σ : Type) (N : Network σ) (net : σ) (bufs : Nat → MessageBuffer) (fuel turns : Nat) (appended appended' ys zs : List BatchAccess),
    appended.Perm records → appended'.Perm records → w.Sorted appended ys → w.Sorted appended' zs →
    (w.runBatchDrain N whenReady fuel turns ys net bufs).map (fun s => (s.injected, s.perPairLat)) =
      (w.runBatchDrain N whenReady fuel turns zs net bufs).map fun s => (s.injected, s.perPairLat)

/-- No two of the records that are injected agree in time, source and destination and differ in class. -/
def OneClass (w : Drains) (records : List BatchAccess) : Prop :=
  ∀ a ∈ w.priced records, ∀ b ∈ w.priced records, valid w.numNodes a = true → valid w.numNodes b = true →
    sortKey a = sortKey b → a.ctrl = b.ctrl

theorem sortKey_inj {a b : BatchAccess} (h : sortKey a = sortKey b) : a.cycle = b.cycle ∧ a.src = b.src ∧ a.dst = b.dst := by
  obtain ⟨hcycle, hpair⟩ := Prod.mk.inj (toLex.injective h)
  obtain ⟨hsrc, hdst⟩ := Prod.mk.inj (toLex.injective hpair)
  exact ⟨hcycle, hsrc, hdst⟩

theorem lookAlike_iff : LookAlike sortKey (canon w.numNodes) (w.priced records) ↔ w.OneClass records := by
  constructor
  · intro h a ha b hb hva hvb hkey
    have hsame := h a ha b hb hkey
    rw [canon_of_valid hva, canon_of_valid hvb] at hsame
    rw [hsame]
  · intro h a ha b hb hkey
    have hkey : sortKey a = sortKey b := hkey
    obtain ⟨hcycle, hsrc, hdst⟩ := sortKey_inj hkey
    have hvalid : valid w.numNodes a = valid w.numNodes b := by
      rw [valid, valid, hsrc, hdst]
    have hctrl : (valid w.numNodes a && a.ctrl) = (valid w.numNodes b && b.ctrl) := by
      cases hva : valid w.numNodes a with
      | false => rw [← hvalid, hva, Bool.false_and, Bool.false_and]
      | true => rw [h a ha b hb hva (hvalid ▸ hva) hkey, ← hvalid, hva]
    unfold canon
    rw [hctrl]
    cases a
    cases b
    simp only at hcycle hsrc hdst ⊢
    rw [hcycle, hsrc, hdst]

theorem priced_perm {l l' : List BatchAccess} (h : l.Perm l') : (w.priced l).Perm (w.priced l') := by
  unfold priced
  split
  · exact h.filter _
  · exact h

theorem OneClass.orderFree (h : w.OneClass records) : w.OrderFree records := by
  intro σ N net bufs fuel turns appended appended' ys zs hp hp' hy hz
  have hsame : ys.map (canon w.numNodes) = zs.map (canon w.numNodes) :=
    (lookAlike_iff.mpr h).sorted_eq (hy.perm.trans (priced_perm hp)) (hz.perm.trans (priced_perm hp')) hy.sorted hz.sorted
  have hys := w.run_canon N whenReady fuel turns ys net bufs
  have hzs := w.run_canon N whenReady fuel turns zs net bufs
  rw [hsame, hzs] at hys
  have hout := congrArg (Option.map fun s : Drainer σ => (s.injected, s.perPairLat)) hys
  rw [Option.map_map, Option.map_map] at hout
  exact hout.symm

theorem devToFab_mono (k : FabricClock) {c c' : Nat} (h : c ≤ c') : k.devToFab c ≤ k.devToFab c' := by
  unfold FabricClock.devToFab
  split
  · exact h
  · exact Nat.div_le_div_right (Nat.sub_le_sub_right (Nat.add_le_add_right (Nat.mul_le_mul_right _ h) _) _)

theorem devToFab_pos (k : FabricClock) {c : Nat} (h : 0 < c) : 0 < k.devToFab c := by
  unfold FabricClock.devToFab
  split
  · exact h
  · have hden := k.den_pos
    refine Nat.div_pos ?_ hden
    have : 1 ≤ c * k.fabNum := Nat.mul_pos h k.num_pos
    omega

/-- On a network that delivers nothing the batch is injected in its order. -/
theorem run_idle (w : Drains) (hsorted : batch.Pairwise fun a b => sortKey a ≤ sortKey b)
    (hvalid : batch.filter (valid w.numNodes) ≠ []) : ∃ n, ∀ turns, n ≤ turns →
      ∃ t, w.runBatchDrain idle whenReady 0 turns batch () (fun _ => {}) = some t ∧
        t.injected.map (·.pair) = (batch.filter (valid w.numNodes)).map pairOf := by
  have hcount : 0 < (w.batchOf batch).validCount := List.length_pos_iff.mpr hvalid
  have hlast : w.clock.devToFab (cycleOf batch.getLast? - (w.batchOf batch).baseTime) < (w.batchOf batch).lastTick :=
    Nat.lt_add_of_pos_right (devToFab_pos _ (by omega))
  have hticks : ∀ a ∈ batch, injectTick (w.batchOf batch) a ≤
      w.clock.devToFab (cycleOf batch.getLast? - (w.batchOf batch).baseTime) := by
    intro a ha
    refine devToFab_mono _ (Nat.sub_le_sub_right ?_ _)
    obtain ⟨l, z, rfl⟩ := (List.eq_nil_or_concat' batch).resolve_left (List.ne_nil_of_mem ha)
    rw [List.getLast?_concat]
    rcases List.mem_append.mp ha with ha | ha
    · have hle := (List.pairwise_append.mp hsorted).2.2 a ha z List.mem_cons_self
      rcases Prod.Lex.le_iff.mp hle with hlt | heq
      · exact Nat.le_of_lt hlt
      · exact Nat.le_of_eq heq.1
    · rw [List.mem_singleton.mp ha]
      exact Nat.le_refl _
  refine ⟨w.clock.devToFab (cycleOf batch.getLast? - (w.batchOf batch).baseTime) + 1, fun turns hturns => ?_⟩
  obtain ⟨t, ht, hnil, hlog⟩ := loop_idle 0 turns _ (s := w.start batch () fun _ => {}) ⟨fun _ => rfl, rfl⟩ hcount hlast hticks
    (fun h => absurd h (Nat.not_lt_zero _))
  refine ⟨t, ht, ?_⟩
  rw [hnil (Nat.lt_of_lt_of_le (Nat.lt_succ_self _) (Nat.le_trans hturns (Nat.le_add_left ..)))] at hlog
  exact (List.append_nil _).symm.trans hlog

theorem OrderFree.oneClass (h : w.OrderFree records) : w.OneClass records := by
  intro a ha b hb hva hvb hkey
  by_contra hctrl
  obtain ⟨pre, post, hperm, hsorted⟩ := exists_swapped sortKey id ha hb (fun hab => hctrl (by rw [hab])) hkey
  have hab := hsorted a b (.inl rfl)
  have hba := hsorted b a (.inr rfl)
  have hswap : (pre ++ b :: a :: post).Perm (pre ++ a :: b :: post) := (List.Perm.swap a b post).append_left pre
  have hfilter {x y : BatchAccess} (hx : valid w.numNodes x = true) (hy : valid w.numNodes y = true) :
      ((pre ++ x :: y :: post).filter (valid w.numNodes)) =
        pre.filter (valid w.numNodes) ++ x :: y :: post.filter (valid w.numNodes) := by
    rw [List.filter_append, List.filter_cons_of_pos hx, List.filter_cons_of_pos hy]
  obtain ⟨n, hn⟩ := w.run_idle hab (by rw [hfilter hva hvb]; simp)
  obtain ⟨n', hn'⟩ := w.run_idle hba (by rw [hfilter hvb hva]; simp)
  obtain ⟨t, ht, hlog⟩ := hn (max n n') (Nat.le_max_left ..)
  obtain ⟨t', ht', hlog'⟩ := hn' (max n n') (Nat.le_max_right ..)
  have hsame := h Unit idle () (fun _ => {}) 0 (max n n') records records _ _ (List.Perm.refl _) (List.Perm.refl _)
    ⟨hperm, hab⟩ ⟨hswap.trans hperm, hba⟩
  rw [ht, ht'] at hsame
  have hinjected : t.injected = t'.injected := (Prod.mk.inj (Option.some.inj hsame)).1
  rw [hinjected, hlog', hfilter hva hvb, hfilter hvb hva, List.map_append, List.map_append] at hlog
  have hpair := (List.cons.inj (List.append_cancel_left hlog)).1
  exact hctrl (congrArg PairKey.ctrl hpair).symm

/-- **A drain depends only on the set of its records exactly when no two that are injected agree in time, source and
destination and differ in class.** -/
theorem drain_order_free (w : Drains) (records : List BatchAccess) : w.OrderFree records ↔ w.OneClass records :=
  ⟨OrderFree.oneClass, OneClass.orderFree⟩

/-- A request and a datum of one pair in one cycle are injected as they come. -/
theorem drain_order_seen :
    ¬ ({ numNodes := 2, clock := {}, roiEndCycle := none, setOrder := id } : Drains).OrderFree
      [⟨0, 1, 5, true⟩, ⟨0, 1, 5, false⟩] := by
  intro h
  have hsame := h Unit idle () (fun _ => {}) 0 1 [⟨0, 1, 5, true⟩, ⟨0, 1, 5, false⟩] [⟨0, 1, 5, false⟩, ⟨0, 1, 5, true⟩]
    [⟨0, 1, 5, true⟩, ⟨0, 1, 5, false⟩] [⟨0, 1, 5, false⟩, ⟨0, 1, 5, true⟩] (.refl _) (.swap _ _ _)
    ⟨.refl _, by simp [sortKey]⟩ ⟨.refl _, by simp [sortKey]⟩
  revert hsame
  decide

end Drains

end Pimid.Noc
