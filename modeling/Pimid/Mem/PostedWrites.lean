import Pimid.Mem.Postings
import Mathlib.Data.List.Perm.Basic

/-!
# Posted writes

What the controller does with a write it posts, and with a read of a line it holds, on
top of the agreement of the containers. A write's own entry completes after its issue,
so it is still there when its completion is set; the buffer takes it when so many of
the others have completed that no more than its entries are taken; and a read is
answered from the buffer as long as a write to its line has not completed.
-/

namespace Pimid.Mem

namespace WriteBuffer

section

variable {s s' : WriteBuffer} {c : BankTiming} {id issue : Nat} {e : WbEntry}

/-! ## How many entries complete later -/

/-- The entries that complete after `a`. -/
def pendingAfter (s : WriteBuffer) (a : Nat) : Nat :=
  (List.range s.wbNext).countP fun id => (s.wb id).any fun e => a < e.done

theorem Base.perm (h : Base s) :
    s.wbByDone.Perm ((List.range s.wbNext).filterMap fun id => (s.wb id).map fun e => (e.done, id)) := by
  refine (List.perm_ext_iff_of_nodup h.nodup ?_).mpr fun p => ?_
  · refine List.nodup_range.filterMap fun a b x ha hb => ?_
    obtain ⟨_, -, rfl⟩ := Option.map_eq_some_iff.mp ha
    obtain ⟨_, -, heq⟩ := Option.map_eq_some_iff.mp hb
    exact (Prod.mk.inj heq).2.symm
  · obtain ⟨d, id⟩ := p
    rw [h.byDone, List.mem_filterMap]
    constructor
    · intro hex
      obtain ⟨e, he, rfl⟩ := hex
      exact ⟨id, List.mem_range.mpr (h.lt he), by rw [he]; rfl⟩
    · intro hex
      obtain ⟨id', -, hx⟩ := hex
      obtain ⟨e, he, heq⟩ := Option.map_eq_some_iff.mp hx
      obtain ⟨rfl, rfl⟩ := Prod.mk.inj heq
      exact ⟨e, he, rfl⟩

theorem Base.pendingAfter_eq (h : Base s) (a : Nat) : s.pendingAfter a = s.wbByDone.countP fun p => a < p.1 := by
  rw [h.perm.countP_eq, List.countP_filterMap]
  refine List.countP_congr fun id _ => ?_
  cases s.wb id <;> simp

theorem Base.size_eq (h : Base s) : s.size = s.wbByDone.length := by
  rw [h.perm.length_eq, List.length_filterMap_eq_countP]
  refine List.countP_congr fun id _ => ?_
  cases s.wb id <;> simp

theorem Fixes.pendingAfter (h : Fixes s s') (a : Nat) : s'.pendingAfter a = s.pendingAfter a := by
  unfold WriteBuffer.pendingAfter
  rw [h.wbNext]
  refine List.countP_congr fun id _ => ?_
  cases hs : s.wb id with
  | none => rw [h.none id hs]
  | some e =>
    obtain ⟨b, hb⟩ := h.wb id e hs
    rw [hb]
    rfl

theorem Base.others (h : Base s) (he : s.wb id = some e) :
    s.wbByDone.filter (·.2 ≠ id) = s.wbByDone.filter (· ≠ (e.done, id)) ∧
      (s.wbByDone.filter (·.2 ≠ id)).length + 1 = s.wbByDone.length := by
  have hfilter : s.wbByDone.filter (·.2 ≠ id) = s.wbByDone.filter (· ≠ (e.done, id)) := by
    refine List.filter_congr fun p hp => ?_
    rw [decide_eq_decide]
    refine ⟨fun hne heq => hne (by rw [heq]), fun hne heq => hne ?_⟩
    obtain ⟨e', he', hd⟩ := (h.byDone p.1 p.2).mp hp
    rw [heq, he] at he'
    cases he'
    exact Prod.ext hd.symm heq
  refine ⟨hfilter, ?_⟩
  have hmem : (e.done, id) ∈ s.wbByDone := (h.byDone _ _).mpr ⟨e, he, rfl⟩
  have hcount : s.wbByDone.count (e.done, id) = 1 := List.count_eq_one_of_mem h.nodup hmem
  have hlen := List.length_eq_countP_add_countP (fun p => p = (e.done, id)) (l := s.wbByDone)
  rw [hfilter, ← List.countP_eq_length_filter, hlen]
  have hone : s.wbByDone.countP (fun p => decide (p = (e.done, id))) = 1 := by
    rw [← hcount, List.count_eq_countP]
    exact List.countP_congr fun p _ => by simp
  rw [hone, Nat.add_comm]
  refine congrArg _ (List.countP_congr fun p _ => by simp)

/-- Of a list in order, what comes after its `k`-th first component comes behind it. -/
theorem countP_after_le {l : List (Nat × Nat)} (hl : l.Pairwise fun a b => toLex a ≤ toLex b) {k : Nat} {p : Nat × Nat}
    (hp : l[k]? = some p) {a : Nat} (ha : p.1 ≤ a) : l.countP (fun x => a < x.1) + (k + 1) ≤ l.length := by
  obtain ⟨hk, rfl⟩ := List.getElem?_eq_some_iff.mp hp
  have hnone : (l.take (k + 1)).countP (fun x => a < x.1) = 0 := by
    refine List.countP_eq_zero.mpr fun x hx => ?_
    obtain ⟨i, hi, rfl⟩ := List.mem_iff_getElem.mp hx
    rw [List.length_take] at hi
    rw [List.getElem_take, decide_eq_true_eq]
    rcases Nat.lt_or_ge i k with hlt | hge
    · have hle := Prod.Lex.toLex_le_toLex.mp (List.pairwise_iff_getElem.mp hl i k (by omega) hk hlt)
      omega
    · have hik : i = k := by omega
      subst hik
      omega
  have hsplit : l.countP (fun x => a < x.1) =
      (l.take (k + 1)).countP (fun x => a < x.1) + (l.drop (k + 1)).countP (fun x => a < x.1) := by
    rw [← List.countP_append, List.take_append_drop]
  have hdrop := List.countP_le_length (p := fun x : Nat × Nat => decide (a < x.1)) (l := l.drop (k + 1))
  rw [List.length_drop] at hdrop
  omega

/-- **The write is accepted when there is room for it.** -/
theorem Inv.acceptTime (h : Inv s) (hD : 0 < c.entries) (he : s.wb id = some e) (done : Nat) :
    (s.complete id (acceptTime c s id issue) done).pendingAfter (acceptTime c s id issue) ≤ c.entries := by
  obtain ⟨hothers, hlen⟩ := h.toBase.others he
  generalize hacc : WriteBuffer.acceptTime c s id issue = accept
  have hcomplete : s.complete id accept done = s.wbSetDone id e (if done < accept then accept else done) := by
    rw [complete, he]
  rw [hcomplete, (h.setDone he _).toBase.pendingAfter_eq]
  generalize (if done < accept then accept else done) = done'
  -- the others and the write itself
  have hcount : (s.wbSetDone id e done').wbByDone.countP (fun p => accept < p.1) ≤
      (s.wbByDone.filter (·.2 ≠ id)).countP (fun p => accept < p.1) + 1 := by
    have hperm : (s.wbSetDone id e done').wbByDone.Perm ((done', id) :: s.wbByDone.filter (·.2 ≠ id)) := by
      rw [hothers]
      exact List.perm_orderedInsert _ _ _
    rw [hperm.countP_eq, List.countP_cons]
    split <;> omega
  have hsize := h.toBase.size_eq
  by_cases hfull : c.entries < s.size
  · have hk : s.size - c.entries - 1 < (s.wbByDone.filter (·.2 ≠ id)).length := by omega
    obtain ⟨p, hp⟩ : ∃ p, (s.wbByDone.filter (·.2 ≠ id))[s.size - c.entries - 1]? = some p :=
      ⟨_, List.getElem?_eq_getElem hk⟩
    have hle : p.1 ≤ accept := by
      rw [← hacc, WriteBuffer.acceptTime, if_pos hfull, hp]
      dsimp only
      split <;> omega
    have hafter := countP_after_le (h.sorted.filter _) hp hle
    omega
  · have hall := List.countP_le_length (p := fun p : Nat × Nat => decide (accept < p.1))
      (l := s.wbByDone.filter (·.2 ≠ id))
    omega

/-! ## The oldest keep their place -/

/-- Every waiting entry older than `m` has started by `issue`. -/
def StartedBelow (s : WriteBuffer) (issue m : Nat) : Prop :=
  ∀ id e, id < m → s.wb id = some e → e.fixed = false → e.start ≤ issue

theorem Fixes.startedBelow (h : Fixes s s') {m : Nat} (hs : s.StartedBelow issue m) : s'.StartedBelow issue m := by
  intro id e hid he hf
  obtain ⟨e₀, b, he₀, rfl⟩ := h.back he
  exact hs id e₀ hid he₀ (Bool.or_eq_false_iff.mp hf).1

/-- The oldest entry that has not started is the first in its bank's queue once the started ones are committed. -/
theorem Inv.head_of_oldest (h : Inv s) (hs : s.StartedBelow issue id) (he : s.wb id = some e) (hf : e.fixed = false)
    (hlate : ∀ id' e', s.wb id' = some e' → id' ∈ (s.wbBank e.unit).q → (issue : Rat) < e'.start) :
    ∃ q, (s.wbBank e.unit).q = id :: q := by
  have hmem : id ∈ (s.wbBank e.unit).q := (mem_queue_iff h.toBase).mpr ⟨e, he, rfl, hf⟩
  cases hq : (s.wbBank e.unit).q with
  | nil =>
    rw [hq] at hmem
    cases hmem
  | cons a q =>
    refine ⟨q, ?_⟩
    rw [hq] at hmem
    rcases List.mem_cons.mp hmem with heq | hmem
    · rw [heq]
    · -- an older one in the queue would have started, and be committed
      have hsorted : ((s.wbBank e.unit).q).Pairwise (· < ·) := by
        rw [h.queue]
        exact List.pairwise_lt_range.filter _
      rw [hq] at hsorted
      have hlt : a < id := List.rel_of_pairwise_cons hsorted hmem
      have ha : a ∈ (s.wbBank e.unit).q := by rw [hq]; exact List.mem_cons_self ..
      obtain ⟨e', he', -, hf'⟩ := (mem_queue_iff h.toBase).mp ha
      exact absurd (hs a e' hlt he' hf') (not_le.mpr (hlate a e' he' ha))

theorem Inv.keepOne {r : WriteBuffer × Nat} {bound : Nat} (h : Inv r.1) (hs : r.2 < bound → r.1.StartedBelow issue id) :
    Inv (keepOne issue bound r id).1 ∧ Fixes r.1 (keepOne issue bound r id).1 ∧
      ((keepOne issue bound r id).2 < bound → (keepOne issue bound r id).1.StartedBelow issue (id + 1)) := by
  unfold WriteBuffer.keepOne
  split
  next hroom =>
    have hbelow := hs hroom
    split
    next e he =>
      split
      next hplace =>
        refine ⟨h, .refl _, fun _ id' e' hid he' hf => ?_⟩
        by_cases heq : id' = id
        · rw [heq, he] at he'
          cases he'
          exact hplace.resolve_left fun hfix => Bool.false_ne_true (hf.symm.trans hfix)
        · exact hbelow id' e' (by omega) he' hf
      next hplace =>
        rw [not_or, not_le] at hplace
        obtain ⟨hnf, hstart⟩ := hplace
        obtain ⟨hc, hfixes, hkept, hlate⟩ := h.commit e.unit issue
        have he' := hkept id e he hstart
        obtain ⟨q, hq⟩ := hc.head_of_oldest (hfixes.startedBelow hbelow) he' (Bool.eq_false_iff.mpr hnf) hlate
        dsimp only
        rw [hq, List.erase_cons_head]
        refine ⟨hc.fix hq he', hfixes.trans (Fixes.fix he'), fun _ id' e₁ hid he₁ hf => ?_⟩
        by_cases heq : id' = id
        · rw [heq, fix_wb_self] at he₁
          cases he₁
          cases hf
        · rw [fix_wb_ne heq] at he₁
          exact hfixes.startedBelow hbelow id' e₁ (by omega) he₁ hf
    next he =>
      refine ⟨h, .refl _, fun _ id' e' hid he' hf => ?_⟩
      refine hbelow id' e' (Nat.lt_of_le_of_ne (Nat.le_of_lt_succ hid) fun heq => ?_) he' hf
      rw [heq, he] at he'
      cases he'
  next hfull => exact ⟨h, .refl _, fun hroom => absurd hroom hfull⟩

theorem Inv.keepOldest (h : Inv s) (c : BankTiming) (issue : Nat) :
    Inv (keepOldest c s issue) ∧ Fixes s (keepOldest c s issue) := by
  have hfold : ∀ (bound kept m : Nat), Inv ((List.range m).foldl (WriteBuffer.keepOne issue bound) (s, kept)).1 ∧
      Fixes s ((List.range m).foldl (WriteBuffer.keepOne issue bound) (s, kept)).1 ∧
      (((List.range m).foldl (WriteBuffer.keepOne issue bound) (s, kept)).2 < bound →
        ((List.range m).foldl (WriteBuffer.keepOne issue bound) (s, kept)).1.StartedBelow issue m) := by
    intro bound kept m
    induction m with
    | zero => exact ⟨h, .refl s, fun _ _ _ hid => absurd hid (Nat.not_lt_zero _)⟩
    | succ m ih =>
      obtain ⟨hinv, hfixes, hbelow⟩ := ih
      rw [List.range_succ, List.foldl_append]
      obtain ⟨hinv', hfixes', hbelow'⟩ := hinv.keepOne hbelow
      exact ⟨hinv', hfixes.trans hfixes', hbelow'⟩
  unfold WriteBuffer.keepOldest
  dsimp only
  split
  next =>
    obtain ⟨hinv, hfixes, -⟩ := hfold (s.size - c.entries * 4 / 5) _ s.wbNext
    exact ⟨hinv, hfixes⟩
  next => exact ⟨h, .refl s⟩

/-! ## A posted write -/

theorem lt_roundHalf {x : Rat} {n : Nat} (h : (n : Rat) + 1 ≤ x) : n < roundHalf x := by
  have hfloor : ((n + 1 : Nat) : Int) ≤ (x + 1 / 2).floor := by
    rw [Rat.le_floor_iff]
    push_cast
    linarith
  unfold roundHalf
  omega

/-- **The entry is still there** when its completion is set. -/
theorem postTake_spec (h : Inv s) (hsvc : 0 < c.svc) (hextra : 0 < c.writeExtra) (line u done : Nat) {arrive : Nat}
    {wait : Rat} (hwait : 0 ≤ wait) (harrive : issue ≤ arrive) :
    Inv ((bookPosted c s line u arrive wait).postTake line u issue done).1 ∧
      ((bookPosted c s line u arrive wait).postTake line u issue done).2 = s.wbNext ∧
      ∃ e, ((bookPosted c s line u arrive wait).postTake line u issue done).1.wb s.wbNext = some e ∧ e.line = line := by
  obtain ⟨hb, e, hstart, hline, hdone, hlast, he⟩ := h.bookPosted hsvc line u hwait
  generalize bookPosted c s line u arrive wait = b at hb hlast he
  have htake : b.takeEntry line u issue done = ({ b with wbLast := none }, s.wbNext) := by
    have hsome : ((b.wb s.wbNext).isSome : Bool) = true := by rw [he]; rfl
    rw [takeEntry, hlast, Option.filter_some, if_pos hsome]
  have hb' : Inv { b with wbLast := none } :=
    ⟨⟨hb.fresh, hb.sorted, hb.nodup, hb.byDone, hb.lines, hb.queue, hb.gone, hb.posted⟩, hb.queued, hb.settled⟩
  obtain ⟨hfree, -, -, hkept, -⟩ := hb'.wbFree issue
  -- it completes no earlier than its service, which is after the issue
  have hlate : issue < e.done := by
    rw [hdone]
    have hextra' : (1 : Rat) ≤ c.writeExtra := by exact_mod_cast hextra
    have harrive' : (issue : Rat) ≤ arrive := by exact_mod_cast harrive
    exact lt_roundHalf (by linarith)
  obtain ⟨x, hx⟩ := hkept s.wbNext e he hlate
  rw [postTake, htake]
  exact ⟨hfree, rfl, _, hx, hline⟩

theorem postWrite_spec (h : Inv s) (hD : 0 < c.entries) (hsvc : 0 < c.svc) (hextra : 0 < c.writeExtra) (line u : Nat)
    {arrive : Nat} (done : Nat) {wait : Rat} (hwait : 0 ≤ wait) (harrive : issue ≤ arrive) :
    Inv (postWrite c (bookPosted c s line u arrive wait) line u issue done).1 ∧
      (postWrite c (bookPosted c s line u arrive wait) line u issue done).1.pendingAfter
        (postWrite c (bookPosted c s line u arrive wait) line u issue done).2 ≤ c.entries := by
  obtain ⟨hinv, hid, e, he, -⟩ := postTake_spec h hsvc hextra line u done hwait harrive
  unfold postWrite
  generalize (bookPosted c s line u arrive wait).postTake line u issue done = r at hinv hid he
  rw [← hid] at he
  dsimp only
  have hcomplete : Inv (r.1.complete r.2 (acceptTime c r.1 r.2 issue) done) := by
    rw [complete, he]
    exact hinv.setDone he _
  obtain ⟨hkeep, hfixes⟩ := hcomplete.keepOldest c issue
  refine ⟨hkeep, ?_⟩
  rw [hfixes.pendingAfter]
  exact hinv.acceptTime hD he done

/-! ## A read of a buffered line -/

/-- **A read is answered from the buffer** while a write to its line has not completed. -/
theorem Inv.forwarded_iff (h : Inv s) (line cycle : Nat) :
    s.forwarded line cycle = true ↔ ∃ id e, s.wb id = some e ∧ e.line = line ∧ cycle < e.done := by
  obtain ⟨hfree, -, -, hkept, hback⟩ := h.wbFree cycle
  rw [forwarded, decide_eq_true_eq, hfree.lines, List.countP_pos_iff]
  constructor
  · intro hex
    obtain ⟨id, -, hline⟩ := hex
    rw [decide_eq_true_eq, lineOf] at hline
    obtain ⟨e', he', hl⟩ := Option.map_eq_some_iff.mp hline
    obtain ⟨hdone, e, b, he, rfl⟩ := hback id e' he'
    exact ⟨id, e, he, hl, hdone⟩
  · intro hex
    obtain ⟨id, e, he, hl, hdone⟩ := hex
    obtain ⟨b, hb⟩ := hkept id e he hdone
    refine ⟨id, List.mem_range.mpr (hfree.lt hb), ?_⟩
    rw [decide_eq_true_eq, lineOf, hb]
    exact congrArg some hl

end

/-! ## Every reachable buffer -/

/-- The slots booked at bank `u`: accesses ahead of the waiting writes, and posted writes. -/
def slot (s : WriteBuffer) (u : Nat) : Nat ⊕ Nat → Option (Rat × Rat)
  | .inl i => (s.ahead u)[i]?
  | .inr id => (s.made id).bind fun e => if e.unit = u then some (e.start, e.stop) else none

/-- The request is at the bank no earlier than it is issued, completes no earlier either, and waits are not negative. -/
def Access.Ok : Access → Prop
  | .read _ _ _ _ wait => 0 ≤ wait
  | .ahead _ _ _ wait => 0 ≤ wait
  | .post _ _ issue arrive done wait => issue ≤ arrive ∧ issue ≤ done ∧ 0 ≤ wait

/-- What holds of the buffer between two accesses. -/
structure Sound (c : BankTiming) (s : WriteBuffer) : Prop where
  /-- `wbByDone` has the completion of every entry, once. -/
  byDone : ∀ d id, (d, id) ∈ s.wbByDone ↔ ∃ e, s.wb id = some e ∧ e.done = d
  once : s.wbByDone.Nodup
  /-- `wbLines` counts the entries of each line. -/
  lines : ∀ l, s.wbLines l = (List.range s.wbNext).countP fun id => s.lineOf id = some l
  below : ∀ id e, s.wb id = some e → id < s.wbNext
  /-- A bank's queue has its entries that are not fixed, by age and start. -/
  queue : ∀ u id, id ∈ (s.wbBank u).q ↔ ∃ e, s.wb id = some e ∧ e.unit = u ∧ e.fixed = false
  order : ∀ u, (s.wbBank u).q.Pairwise fun a b =>
    a < b ∧ ∃ e e', s.wb a = some e ∧ s.wb b = some e' ∧ e.start < e'.start
  /-- `fixedEnd` is not before the end of what is committed. -/
  fixedEnd : ∀ id e, s.wb id = some e → e.fixed = true → e.stop ≤ (s.wbBank e.unit).fixedEnd
  aheadEnd : ∀ u, ∀ x ∈ s.ahead u, x.2 ≤ (s.wbBank u).fixedEnd
  /-- A bank serves one access at a time. -/
  disjoint : ∀ u a b x y, a ≠ b → s.slot u a = some x → s.slot u b = some y → x.2 ≤ y.1 ∨ y.2 ≤ x.1
  /-- The entry of a posted write is there when its completion is set. -/
  stays : ∀ (line u issue arrive done : Nat) (wait : Rat), issue ≤ arrive → issue ≤ done → 0 ≤ wait →
    ∃ e, ((bookPosted c s line u arrive wait).postTake line u issue done).1.wb
      ((bookPosted c s line u arrive wait).postTake line u issue done).2 = some e ∧ e.line = line
  /-- When it is accepted, at most the buffer's entries complete later. -/
  room : ∀ (line u issue arrive done : Nat) (wait : Rat), issue ≤ arrive → issue ≤ done → 0 ≤ wait →
    (postWrite c (bookPosted c s line u arrive wait) line u issue done).1.pendingAfter
      (postWrite c (bookPosted c s line u arrive wait) line u issue done).2 ≤ c.entries
  /-- A read is answered from the buffer while a write to its line has not completed. -/
  forward : ∀ line cycle, s.forwarded line cycle = true ↔ ∃ id e, s.wb id = some e ∧ e.line = line ∧ cycle < e.done
  /-- A write is in the buffer until an access at its completion or later. -/
  left : ∀ id, id < s.wbNext → s.wb id ≠ none ∨ ∃ e t, s.gone id = some (e, t) ∧ e.done ≤ t

section

variable {s : WriteBuffer} {c : BankTiming}

theorem Inv.slot_cases (h : Inv s) {u : Nat} {a : Nat ⊕ Nat} {x : Rat × Rat} (hx : s.slot u a = some x) :
    s.settled u a = some x ∨ ∃ id, a = .inr id ∧ id ∈ (s.wbBank u).q ∧ s.slotOf id = some x := by
  cases a with
  | inl i => exact .inl hx
  | inr id =>
    obtain ⟨e, he, hu⟩ := Option.bind_eq_some_iff.mp hx
    split at hu
    next heu =>
      cases hf : e.fixed with
      | true =>
        refine .inl (Option.bind_eq_some_iff.mpr ⟨e, he, ?_⟩)
        rw [if_pos ⟨heu, hf⟩]
        exact hu
      | false =>
        -- what has left the buffer is fixed
        cases hwb : s.wb id with
        | none =>
          rw [made, hwb, Option.none_or] at he
          obtain ⟨⟨e', t⟩, hg, rfl⟩ := Option.map_eq_some_iff.mp he
          rw [(h.gone id e' t hg).2.1] at hf
          cases hf
        | some e' =>
          rw [made, hwb, Option.some_or] at he
          cases he
          exact .inr ⟨id, rfl, (mem_queue_iff h.toBase).mpr ⟨e, hwb, heu, hf⟩, (slotOf_eq hwb).trans hu⟩
    next => cases hu

/-- Settled work is over before the waiting writes start, and these follow one another. -/
theorem Inv.disjoint (h : Inv s) (u : Nat) {a b : Nat ⊕ Nat} {x y : Rat × Rat} (hab : a ≠ b) (hx : s.slot u a = some x)
    (hy : s.slot u b = some y) : NoOverlap x y := by
  have hahead : ∀ (c : Nat ⊕ Nat) id z w, s.settled u c = some z → id ∈ (s.wbBank u).q → s.slotOf id = some w →
      z.2 ≤ w.1 := by
    intro c id z w hz hm hw
    obtain ⟨w', hw', hlo, -⟩ := (h.queued u).mem hm
    rw [hw] at hw'
    cases hw'
    exact le_trans ((h.settled u).ends c z hz) hlo
  rcases h.slot_cases hx with hx | ⟨i, rfl, hi, hx⟩
  · rcases h.slot_cases hy with hy | ⟨j, rfl, hj, hy⟩
    · exact (h.settled u).apart a b x y hab hx hy
    · exact .inl (hahead a j x y hx hj hy)
  · rcases h.slot_cases hy with hy | ⟨j, rfl, hj, hy⟩
    · exact .inr (hahead b i y x hy hi hx)
    · exact (h.queued u).apart hi hj (fun heq => hab (congrArg _ heq)) hx hy

theorem Inv.sound (h : Inv s) (hD : 0 < c.entries) (hsvc : 0 < c.svc) (hextra : 0 < c.writeExtra) : Sound c s where
  byDone := h.byDone
  once := h.nodup
  lines := h.lines
  below _ _ he := h.lt he
  queue u id := mem_queue_iff h.toBase
  order u := by
    have hage : ((s.wbBank u).q).Pairwise (· < ·) := by
      rw [h.queue]
      exact List.pairwise_lt_range.filter _
    refine hage.imp₂ (fun a b hlt hstart => ⟨hlt, ?_⟩) (h.queued u).pairwise
    obtain ⟨x, y, hx, hy, -, hxy⟩ := hstart
    obtain ⟨e, he, rfl⟩ := Option.map_eq_some_iff.mp hx
    obtain ⟨e', he', rfl⟩ := Option.map_eq_some_iff.mp hy
    exact ⟨e, e', he, he', hxy⟩
  fixedEnd id e he hf := by
    refine (h.settled e.unit).ends (.inr id) (e.start, e.stop) ?_
    rw [WriteBuffer.settled, made, he]
    exact if_pos ⟨rfl, hf⟩
  aheadEnd u x hx := by
    obtain ⟨i, hi⟩ := List.mem_iff_getElem?.mp hx
    exact (h.settled u).ends (.inl i) x hi
  disjoint u _ _ _ _ hab hx hy := h.disjoint u hab hx hy
  stays line u issue arrive done wait harrive _ hwait := by
    obtain ⟨-, hid, e, he, hline⟩ := postTake_spec h hsvc hextra line u done hwait harrive
    exact ⟨e, hid ▸ he, hline⟩
  room line u issue arrive done wait harrive _ hwait :=
    (postWrite_spec h hD hsvc hextra line u done hwait harrive).2
  forward := h.forwarded_iff
  left id hid := by
    refine (h.posted id hid).imp_right fun hg => ?_
    obtain ⟨⟨e, t⟩, hg⟩ := Option.ne_none_iff_exists'.mp hg
    exact ⟨e, t, hg, (h.gone id e t hg).2.2⟩

theorem Inv.access (h : Inv s) (hD : 0 < c.entries) (hsvc : 0 < c.svc) (hextra : 0 < c.writeExtra) {a : Access}
    (ha : a.Ok) : Inv (access c s a) := by
  cases a with
  | read line u cycle arrive wait =>
    obtain ⟨hfree, -⟩ := h.wbFree cycle
    show Inv (if s.forwarded line cycle then _ else _)
    split
    next => exact hfree
    next => exact hfree.bookAhead hsvc false u arrive ha
  | ahead wr u arrive wait => exact h.bookAhead hsvc wr u arrive ha
  | post line u issue arrive done wait => exact (postWrite_spec h hD hsvc hextra line u done ha.2.2 ha.1).1

/-- **The posted-write buffer is sound** after any accesses, at any times and with any waits. -/
theorem write_buffer_sound (hD : 0 < c.entries) (hsvc : 0 < c.svc) (hextra : 0 < c.writeExtra) {accesses : List Access}
    (hok : ∀ a ∈ accesses, a.Ok) : Sound c (accesses.foldl (access c) {}) := by
  have hinv : ∀ s : WriteBuffer, Inv s → Inv (accesses.foldl (WriteBuffer.access c) s) := by
    induction accesses with
    | nil => exact fun _ h => h
    | cons a accesses ih =>
      intro s h
      exact ih (fun a ha => hok a (List.mem_cons_of_mem _ ha)) _ (h.access hD hsvc hextra (hok a (List.mem_cons_self ..)))
  exact (hinv {} .init).sound hD hsvc hextra

/-- Line 7 is posted, completing at 9, and leaves at a read at 20: a read at 6 is not answered from it. And an entry booked
before the write is issued is gone when its completion is set. -/
theorem left_before_read :
    ¬((([.post 7 0 5 5 9 0, .read 9 0 20 20 0].foldl (access ⟨1, 3 / 2, 2⟩) {} : WriteBuffer).forwarded 7 6 = true) ↔
      ∃ id e, ([.post 7 0 5 5 9 0, .read 9 0 20 20 0].foldl (access ⟨1, 3 / 2, 2⟩) {} : WriteBuffer).made id = some e ∧
        e.line = 7 ∧ 6 < e.done) ∧
    ((bookPosted ⟨1, 3 / 2, 2⟩ {} 7 0 2 0).postTake 7 0 50 60).1.wb
      ((bookPosted ⟨1, 3 / 2, 2⟩ {} 7 0 2 0).postTake 7 0 50 60).2 = none := by
  refine ⟨fun h => ?_, by decide +kernel⟩
  have hmade : (([.post 7 0 5 5 9 0, .read 9 0 20 20 0].foldl (access ⟨1, 3 / 2, 2⟩) {} : WriteBuffer).made 0).map
      (fun e => (e.line, e.done)) = some (7, 9) := by decide +kernel
  obtain ⟨e, he, heq⟩ := Option.map_eq_some_iff.mp hmade
  obtain ⟨hline, hdone⟩ := Prod.mk.inj heq
  have hmiss : ¬(([.post 7 0 5 5 9 0, .read 9 0 20 20 0].foldl (access ⟨1, 3 / 2, 2⟩) {} : WriteBuffer).forwarded 7 6 = true) := by
    decide +kernel
  exact hmiss (h.mpr ⟨0, e, he, hline, by omega⟩)

/-- Two writes and a read to one bank. -/
theorem write_buffer_sound_one_bank :
    Sound ⟨1, 3 / 2, 2⟩ ([.post 7 0 5 6 9 0, .post 8 0 6 6 12 1, .read 9 0 7 8 0].foldl (access ⟨1, 3 / 2, 2⟩) {}) := by
  refine write_buffer_sound (by decide) (by norm_num) (by decide) fun a ha => ?_
  simp only [List.mem_cons, List.not_mem_nil, or_false] at ha
  rcases ha with rfl | rfl | rfl
  · exact ⟨by decide, by decide, le_refl _⟩
  · exact ⟨by decide, by decide, zero_le_one⟩
  · exact le_refl _

end

end WriteBuffer

end Pimid.Mem
