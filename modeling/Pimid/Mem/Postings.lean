import Pimid.Mem.WriteBuffer
import Pimid.Lib.Bookings
import Pimid.Lib.Places
import Mathlib.Tactic.Linarith

/-!
# The containers of the write buffer agree

The buffer's entries are kept by age, by completion, by line and by bank. `Inv` says
that the four agree, that the work settled at a bank ends by `fixedEnd`, and that its
waiting writes follow one another behind it. Every operation is made of five updates:
an entry is fixed, leaves, changes its completion, is posted, or an access is booked
ahead of those that wait. Each keeps `Inv`.
-/

namespace Pimid.Mem

open Function (update update_of_ne update_self)

namespace WriteBuffer

/-! ## The invariant -/

def lineOf (s : WriteBuffer) (id : Nat) : Option Nat :=
  (s.wb id).map (·.line)

/-- The entry waits for bank `u`. -/
def waits (s : WriteBuffer) (u id : Nat) : Bool :=
  (s.wb id).any fun e => e.unit == u && !e.fixed

/-- When the entry's write is at the bank. -/
def slotOf (s : WriteBuffer) (id : Nat) : Option (Rat × Rat) :=
  (s.wb id).map fun e => (e.start, e.stop)

/-- Every write posted, in the buffer or not any more. -/
def made (s : WriteBuffer) (id : Nat) : Option WbEntry :=
  (s.wb id).or ((s.gone id).map (·.1))

/-- What is settled at bank `u`: the accesses booked ahead, and the writes no read goes ahead of. -/
def settled (s : WriteBuffer) (u : Nat) : Nat ⊕ Nat → Option (Rat × Rat)
  | .inl i => (s.ahead u)[i]?
  | .inr id => (s.made id).bind fun e => if e.unit = u ∧ e.fixed then some (e.start, e.stop) else none

/-- The entries by age, by completion, by line and by bank are the same. -/
structure Base (s : WriteBuffer) : Prop where
  fresh : ∀ id, s.wbNext ≤ id → s.wb id = none ∧ s.gone id = none
  sorted : s.wbByDone.Pairwise fun a b => toLex a ≤ toLex b
  nodup : s.wbByDone.Nodup
  byDone : ∀ d id, (d, id) ∈ s.wbByDone ↔ ∃ e, s.wb id = some e ∧ e.done = d
  lines : ∀ l, s.wbLines l = (List.range s.wbNext).countP fun id => s.lineOf id = some l
  queue : ∀ u, (s.wbBank u).q = (List.range s.wbNext).filter (s.waits u)
  gone : ∀ id e t, s.gone id = some (e, t) → s.wb id = none ∧ e.fixed = true ∧ e.done ≤ t
  posted : ∀ id, id < s.wbNext → s.wb id ≠ none ∨ s.gone id ≠ none

/-- And no two slots of a bank overlap. -/
structure Inv (s : WriteBuffer) : Prop extends Base s where
  queued : ∀ u, Queued s.slotOf (s.wbBank u).fixedEnd (s.wbBank u).q (s.bankFree u)
  settled : ∀ u, Settled (s.settled u) (s.wbBank u).fixedEnd

theorem Inv.init : Inv {} where
  fresh _ _ := ⟨rfl, rfl⟩
  sorted := .nil
  nodup := .nil
  byDone d id := ⟨nofun, fun h => by obtain ⟨e, he, -⟩ := h; cases he⟩
  lines l := rfl
  queue u := rfl
  gone _ _ _ h := by cases h
  posted _ h := absurd h (Nat.not_lt_zero _)
  queued u := le_refl _
  settled u := by
    have hnone : WriteBuffer.settled {} u = fun _ => none := by
      funext a
      cases a <;> rfl
    rw [hnone]
    exact .none _

section

variable {s s' : WriteBuffer} {id u t : Nat} {e : WbEntry} {q : List Nat}

theorem Base.lt (h : Base s) (he : s.wb id = some e) : id < s.wbNext := by
  by_contra hge
  rw [(h.fresh id (by omega)).1] at he
  cases he

theorem mem_queue_iff (h : Base s) : id ∈ (s.wbBank u).q ↔ ∃ e, s.wb id = some e ∧ e.unit = u ∧ e.fixed = false := by
  rw [h.queue, List.mem_filter, List.mem_range, waits, Option.any_eq_true]
  constructor
  · intro hm
    obtain ⟨-, e, he, hw⟩ := hm
    rw [Bool.and_eq_true, beq_iff_eq, Bool.not_eq_true'] at hw
    exact ⟨e, he, hw.1, hw.2⟩
  · intro hm
    obtain ⟨e, he, hu, hf⟩ := hm
    refine ⟨h.lt he, e, he, ?_⟩
    rw [Bool.and_eq_true, beq_iff_eq, Bool.not_eq_true']
    exact ⟨hu, hf⟩

theorem Base.nodup_queue (h : Base s) (u : Nat) : (s.wbBank u).q.Nodup := by
  rw [h.queue]
  exact List.nodup_range.filter _

theorem slotOf_eq (he : s.wb id = some e) : s.slotOf id = some (e.start, e.stop) := by
  rw [slotOf, he]
  rfl

/-! ## An entry is fixed -/

theorem fix_wb_ne {id' : Nat} (hne : id' ≠ id) : (s.fix id e q).wb id' = s.wb id' :=
  update_of_ne hne ..

theorem fix_wb_self : (s.fix id e q).wb id = some { e with fixed := true } :=
  update_self ..

/-- Of a field that the flag does not touch, nothing changes. -/
theorem fix_map {α : Type} (he : s.wb id = some e) (g : WbEntry → α) (hg : ∀ e b, g { e with fixed := b } = g e) (id' : Nat) :
    ((s.fix id e q).wb id').map g = (s.wb id').map g := by
  by_cases hid : id' = id
  · rw [hid, fix_wb_self, he, Option.map_some, Option.map_some, hg]
  · rw [fix_wb_ne hid]

/-- The first in the queue is fixed, and leaves the queue. -/
theorem Inv.fix (h : Inv s) (hq : (s.wbBank u).q = id :: q) (he : s.wb id = some e) : Inv (s.fix id e q) := by
  obtain ⟨e', he', rfl, hfixed⟩ := (mem_queue_iff h.toBase).mp (hq ▸ List.mem_cons_self ..)
  obtain rfl : e = e' := Option.some.inj (he.symm.trans he')
  have hbank : ∀ {u'}, u' ≠ e.unit → (s.fix id e q).wbBank u' = s.wbBank u' := fun hne => update_of_ne hne ..
  obtain ⟨x, hx, hlo, hlt, hrest⟩ := hq ▸ h.queued e.unit
  rw [slotOf_eq he] at hx
  cases hx
  have hself : (s.fix id e q).wbBank e.unit = ⟨e.stop, q⟩ := by
    show update s.wbBank e.unit _ e.unit = _
    rw [update_self, if_pos (lt_of_le_of_lt hlo hlt)]
  have hslot : (s.fix id e q).slotOf = s.slotOf := funext fun id' => fix_map he _ (fun _ _ => rfl) id'
  have hwaits : ∀ u' id', (s.fix id e q).waits u' id' = (s.waits u' id' && decide (id' ≠ id)) := by
    intro u' id'
    by_cases hid : id' = id
    · rw [hid, waits, fix_wb_self, decide_eq_false (by simp), Bool.and_false]
      simp
    · rw [waits, fix_wb_ne hid, decide_eq_true hid, Bool.and_true]
      rfl
  have hnotin : id ∉ q := by
    have := h.nodup_queue e.unit
    rw [hq, List.nodup_cons] at this
    exact this.1
  refine ⟨⟨fun id' hid => ?_, h.sorted, h.nodup, fun d id' => ?_, fun l => ?_, fun u' => ?_, fun id' e' t hg => ?_,
    fun id' hid => ?_⟩, fun u' => ?_, fun u' => ?_⟩
  · have hid : s.wbNext ≤ id' := hid
    have hne : id' ≠ id := fun heq => by have := h.lt he; omega
    exact ⟨(fix_wb_ne hne).trans (h.fresh id' hid).1, (h.fresh id' hid).2⟩
  · rw [show (s.fix id e q).wbByDone = s.wbByDone from rfl, h.byDone, ← Option.map_eq_some_iff, ← Option.map_eq_some_iff,
      fix_map he (·.done) fun _ _ => rfl]
  · rw [show (s.fix id e q).wbLines l = s.wbLines l from rfl, h.lines]
    refine List.countP_congr fun id' _ => ?_
    rw [decide_eq_true_eq, decide_eq_true_eq, lineOf, lineOf, fix_map he _ fun _ _ => rfl]
  · have hfilter : (List.range s.wbNext).filter ((s.fix id e q).waits u') =
        ((List.range s.wbNext).filter (s.waits u')).filter (· ≠ id) := by
      rw [List.filter_filter]
      refine List.filter_congr fun id' _ => ?_
      rw [hwaits, Bool.and_comm]
    show _ = (List.range s.wbNext).filter _
    rw [hfilter, ← h.queue]
    by_cases hu : u' = e.unit
    · rw [hu, hself, hq, List.filter_cons, if_neg (by simp)]
      refine (List.filter_eq_self.mpr fun id' hid => ?_).symm
      exact decide_eq_true fun heq => hnotin (heq ▸ hid)
    · rw [hbank hu]
      refine (List.filter_eq_self.mpr fun id' hid => ?_).symm
      rw [decide_eq_true_eq]
      intro heq
      obtain ⟨e', he', hu', -⟩ := (mem_queue_iff h.toBase).mp hid
      rw [heq, he] at he'
      exact hu (hu' ▸ Option.some.inj he' ▸ rfl)
  · obtain ⟨hnone, hrest⟩ := h.gone id' e' t hg
    have hne : id' ≠ id := fun heq => by rw [heq, he] at hnone; cases hnone
    exact ⟨(fix_wb_ne hne).trans hnone, hrest⟩
  · by_cases hid' : id' = id
    · rw [hid', fix_wb_self]
      exact .inl nofun
    · rw [fix_wb_ne hid']
      exact h.posted id' hid
  · rw [hslot]
    by_cases hu : u' = e.unit
    · rw [hu, hself]
      exact hrest
    · rw [hbank hu]
      exact h.queued u'
  · have hmade : ∀ id', id' ≠ id → (s.fix id e q).made id' = s.made id' := by
      intro id' hne
      rw [made, fix_wb_ne hne]
      rfl
    by_cases hu : u' = e.unit
    · have hset : (s.fix id e q).settled u' = update (s.settled u') (.inr id) (some (e.start, e.stop)) := by
        funext a
        by_cases ha : a = .inr id
        · rw [ha, update_self, WriteBuffer.settled, made, fix_wb_self]
          exact if_pos ⟨hu.symm, rfl⟩
        · rw [update_of_ne ha]
          cases a with
          | inl i => rfl
          | inr id' =>
            rw [WriteBuffer.settled, WriteBuffer.settled, hmade id' fun heq => ha (congrArg _ heq)]
      rw [hset, hu, hself]
      exact (h.settled e.unit).add (.inr id) hlo (le_refl _) (le_trans hlo (le_of_lt hlt))
    · have hset : (s.fix id e q).settled u' = s.settled u' := by
        funext a
        cases a with
        | inl i => rfl
        | inr id' =>
          by_cases hid : id' = id
          · rw [hid, WriteBuffer.settled, WriteBuffer.settled, made, made, fix_wb_self, he]
            show (if e.unit = u' ∧ true = true then _ else _) = if e.unit = u' ∧ e.fixed = true then _ else _
            rw [if_neg (fun hh => hu hh.1.symm), if_neg (fun hh => hu hh.1.symm)]
          · rw [WriteBuffer.settled, WriteBuffer.settled, hmade id' hid]
      rw [hset, hbank hu]
      exact h.settled u'

/-- Some entries are fixed, nothing else of an entry changes. -/
structure Fixes (s s' : WriteBuffer) : Prop where
  wb : ∀ id e, s.wb id = some e → ∃ b, s'.wb id = some { e with fixed := e.fixed || b }
  none : ∀ id, s.wb id = none → s'.wb id = none
  wbByDone : s'.wbByDone = s.wbByDone
  wbNext : s'.wbNext = s.wbNext
  wbLast : s'.wbLast = s.wbLast

theorem Fixes.refl (s : WriteBuffer) : Fixes s s :=
  ⟨fun _ _ he => ⟨false, by rw [he, Bool.or_false]⟩, fun _ h => h, rfl, rfl, rfl⟩

theorem Fixes.trans {s'' : WriteBuffer} (h : Fixes s s') (h' : Fixes s' s'') : Fixes s s'' where
  wb id e he := by
    obtain ⟨b, hb⟩ := h.wb id e he
    obtain ⟨c, hc⟩ := h'.wb id _ hb
    exact ⟨b || c, by rw [hc, Bool.or_assoc]⟩
  none id he := h'.none id (h.none id he)
  wbByDone := h'.wbByDone.trans h.wbByDone
  wbNext := h'.wbNext.trans h.wbNext
  wbLast := h'.wbLast.trans h.wbLast

theorem Fixes.fix (he : s.wb id = some e) : Fixes s (s.fix id e q) where
  wb id' e' he' := by
    by_cases hid : id' = id
    · rw [hid, he] at he'
      cases he'
      exact ⟨true, by rw [hid, fix_wb_self, Bool.or_true]⟩
    · exact ⟨false, by rw [fix_wb_ne hid, he', Bool.or_false]⟩
  none id' hn := by
    rw [fix_wb_ne, hn]
    intro hid
    rw [hid, he] at hn
    cases hn
  wbByDone := rfl
  wbNext := rfl
  wbLast := rfl

theorem Fixes.back (h : Fixes s s') {e' : WbEntry} (he : s'.wb id = some e') :
    ∃ e b, s.wb id = some e ∧ e' = { e with fixed := e.fixed || b } := by
  cases hs : s.wb id with
  | none =>
    rw [h.none id hs] at he
    cases he
  | some e =>
    obtain ⟨b, hb⟩ := h.wb id e hs
    exact ⟨e, b, rfl, Option.some.inj (he.symm.trans hb)⟩

theorem Inv.wbCommit (h : Inv s) (u : Nat) (t : Rat) {fuel : Nat} (hfuel : (s.wbBank u).q.length ≤ fuel) :
    Inv (wbCommit u t fuel s) ∧ Fixes s (wbCommit u t fuel s) ∧
      (∀ id e, s.wb id = some e → t < e.start → (wbCommit u t fuel s).wb id = some e) ∧
      ∀ id e, (wbCommit u t fuel s).wb id = some e → id ∈ ((wbCommit u t fuel s).wbBank u).q → t < e.start := by
  induction fuel generalizing s with
  | zero =>
    refine ⟨h, .refl s, fun _ _ he _ => he, fun id e _ (hmem : id ∈ (s.wbBank u).q) => ?_⟩
    rw [List.length_eq_zero_iff.mp (Nat.le_zero.mp hfuel)] at hmem
    cases hmem
  | succ fuel ih =>
    unfold WriteBuffer.wbCommit
    split
    next hnil =>
      refine ⟨h, .refl s, fun _ _ he _ => he, fun id e _ hmem => ?_⟩
      rw [hnil] at hmem
      cases hmem
    next id q hq =>
      obtain ⟨e, he, hu, -⟩ := (mem_queue_iff h.toBase).mp (show id ∈ (s.wbBank u).q from hq ▸ List.mem_cons_self ..)
      simp only [he]
      split
      next hlt =>
        -- those behind the first start later still
        refine ⟨h, .refl s, fun _ _ he _ => he, fun id' e' he' hmem => ?_⟩
        have hqueued := h.queued u
        rw [hq] at hqueued
        obtain ⟨x, hx, -, hxlt, hrest⟩ := hqueued
        rw [slotOf_eq he] at hx
        cases hx
        rw [hq] at hmem
        rcases List.mem_cons.mp hmem with rfl | hmem
        · rw [he] at he'
          cases he'
          exact hlt
        · obtain ⟨y, hy, hle, -⟩ := hrest.mem hmem
          rw [slotOf_eq he'] at hy
          cases hy
          exact lt_trans hlt (lt_of_lt_of_le hxlt hle)
      next hstarted =>
        have hfuel' : ((s.fix id e q).wbBank u).q.length ≤ fuel := by
          have hself : ((s.fix id e q).wbBank u).q = q := by
            rw [← hu]
            show (update s.wbBank e.unit _ e.unit).q = q
            rw [update_self]
          rw [hself]
          rw [hq, List.length_cons] at hfuel
          exact Nat.le_of_succ_le_succ hfuel
        obtain ⟨hinv, hfixes, hkept, hlate⟩ := ih (h.fix hq he) hfuel'
        refine ⟨hinv, (Fixes.fix he).trans hfixes, fun id' e' he' hlt => hkept id' e' ?_ hlt, hlate⟩
        rw [fix_wb_ne, he']
        intro heq
        rw [heq, he] at he'
        cases he'
        exact hstarted hlt

theorem Inv.commit (h : Inv s) (u : Nat) (t : Rat) : Inv (s.commit u t) ∧ Fixes s (s.commit u t) ∧
    (∀ id e, s.wb id = some e → t < e.start → (s.commit u t).wb id = some e) ∧
    ∀ id e, (s.commit u t).wb id = some e → id ∈ ((s.commit u t).wbBank u).q → t < e.start :=
  h.wbCommit u t (Nat.le_refl _)

/-! ## An entry leaves -/

theorem Inv.leave (h : Inv s) {d : Nat} {rest : List (Nat × Nat)} (hdone : s.wbByDone = (d, id) :: rest)
    (he : s.wb id = some e) (hfixed : e.fixed = true) (ht : e.done ≤ t) : Inv { s.leave id e t with wbByDone := rest } := by
  have hid := h.lt he
  have hd : e.done = d := by
    obtain ⟨e', he', hd⟩ := (h.byDone d id).mp (hdone ▸ List.mem_cons_self ..)
    rw [he] at he'
    cases he'
    exact hd
  have hwb : ∀ {id'}, id' ≠ id → (s.leave id e t).wb id' = s.wb id' := fun hne => update_of_ne hne ..
  have hself : (s.leave id e t).wb id = none := update_self ..
  have hgone : ∀ {id'}, id' ≠ id → (s.leave id e t).gone id' = s.gone id' := fun hne => update_of_ne hne ..
  have hgoneSelf : (s.leave id e t).gone id = some (e, t) := update_self ..
  have hwaits : ∀ u' id', (s.leave id e t).waits u' id' = s.waits u' id' := by
    intro u' id'
    by_cases hne : id' = id
    · rw [hne, waits, waits, hself, he]
      simp [hfixed]
    · rw [waits, waits, hwb hne]
  have hlines : (s.leave id e t).lineOf = update s.lineOf id none := by
    funext id'
    by_cases hne : id' = id
    · rw [hne, update_self, lineOf, hself]
      rfl
    · rw [update_of_ne hne, lineOf, hwb hne]
      rfl
  have hmade : (s.leave id e t).made = s.made := by
    funext id'
    by_cases hne : id' = id
    · rw [hne, made, made, hself, hgoneSelf, he]
      rfl
    · rw [made, made, hwb hne, hgone hne]
  have hnodup := h.nodup
  rw [hdone, List.nodup_cons] at hnodup
  refine ⟨⟨fun id' hle => ?_, ?_, hnodup.2, fun d' id' => ?_, fun l => ?_, fun u' => ?_, fun id' e' t' hg => ?_,
    fun id' hlt => ?_⟩, fun u' => ?_, fun u' => ?_⟩
  · have hle : s.wbNext ≤ id' := hle
    have hne : id' ≠ id := by omega
    exact ⟨(hwb hne).trans (h.fresh id' hle).1, (hgone hne).trans (h.fresh id' hle).2⟩
  · have := h.sorted
    rw [hdone] at this
    exact this.of_cons
  · show (d', id') ∈ rest ↔ ∃ e', (s.leave id e t).wb id' = some e' ∧ e'.done = d'
    have hold := h.byDone d' id'
    rw [hdone, List.mem_cons] at hold
    by_cases hne : id' = id
    · rw [hne, hself]
      refine ⟨fun hmem => ?_, fun hex => by obtain ⟨_, hn, -⟩ := hex; cases hn⟩
      obtain ⟨e', he', hd'⟩ := hold.mp (.inr (hne ▸ hmem))
      rw [hne, he] at he'
      cases he'
      rw [← hd', hd] at hmem
      exact absurd hmem hnodup.1
    · rw [hwb hne, ← hold]
      refine ⟨.inr, fun hor => hor.resolve_left fun heq => hne ?_⟩
      exact (Prod.mk.inj heq).2
  · show update s.wbLines e.line (s.wbLines e.line - 1) l =
      (List.range s.wbNext).countP fun id' => (s.leave id e t).lineOf id' = some l
    have hcount := countP_update List.nodup_range (List.mem_range.mpr hid) s.lineOf none (some l)
    rw [if_neg (show ¬(none : Option Nat) = some l from nofun), ← hlines, ← h.lines l] at hcount
    have hline : s.lineOf id = some e.line := by rw [lineOf, he]; rfl
    by_cases hl : l = e.line
    · rw [hl, if_pos hline] at hcount
      rw [hl, update_self]
      omega
    · rw [if_neg (fun heq => hl (Option.some.inj (heq.symm.trans hline)))] at hcount
      rw [update_of_ne hl]
      omega
  · show (s.wbBank u').q = (List.range s.wbNext).filter ((s.leave id e t).waits u')
    rw [h.queue]
    exact List.filter_congr fun id' _ => (hwaits u' id').symm
  · by_cases hne : id' = id
    · have hg : (s.leave id e t).gone id' = some (e', t') := hg
      rw [hne, hgoneSelf] at hg
      cases hg
      exact ⟨hne ▸ hself, hfixed, ht⟩
    · have hg : (s.leave id e t).gone id' = some (e', t') := hg
      rw [hgone hne] at hg
      obtain ⟨hn, hrest⟩ := h.gone id' e' t' hg
      exact ⟨(hwb hne).trans hn, hrest⟩
  · by_cases hne : id' = id
    · exact .inr (by show (s.leave id e t).gone id' ≠ none; rw [hne, hgoneSelf]; nofun)
    · show (s.leave id e t).wb id' ≠ none ∨ (s.leave id e t).gone id' ≠ none
      rw [hwb hne, hgone hne]
      exact h.posted id' hlt
  · refine (h.queued u').congr fun id' hmem => ?_
    show (s.leave id e t).slotOf id' = s.slotOf id'
    have hne : id' ≠ id := by
      intro heq
      obtain ⟨e', he', -, hf⟩ := (mem_queue_iff h.toBase).mp hmem
      rw [heq, he] at he'
      cases he'
      rw [hfixed] at hf
      cases hf
    rw [slotOf, slotOf, hwb hne]
  · have hset : WriteBuffer.settled { s.leave id e t with wbByDone := rest } u' = s.settled u' := by
      funext a
      cases a with
      | inl i => rfl
      | inr id' =>
        show ((s.leave id e t).made id').bind _ = (s.made id').bind _
        rw [hmade]
    rw [hset]
    exact h.settled u'

/-- The entries complete by `t` leave, the others stay. -/
theorem Inv.wbFreeLoop (h : Inv s) (t : Nat) {fuel : Nat} (hfuel : s.wbByDone.length ≤ fuel) :
    Inv (wbFreeLoop t fuel s) ∧ (wbFreeLoop t fuel s).wbNext = s.wbNext ∧ (wbFreeLoop t fuel s).wbLast = s.wbLast ∧
      (∀ id e, s.wb id = some e → t < e.done → ∃ b, (wbFreeLoop t fuel s).wb id = some { e with fixed := e.fixed || b }) ∧
      ∀ id e', (wbFreeLoop t fuel s).wb id = some e' →
        t < e'.done ∧ ∃ e b, s.wb id = some e ∧ e' = { e with fixed := e.fixed || b } := by
  induction fuel generalizing s with
  | zero =>
    have hnil := List.length_eq_zero_iff.mp (Nat.le_zero.mp hfuel)
    refine ⟨h, rfl, rfl, fun id e he _ => ⟨false, by rw [Bool.or_false]; exact he⟩, fun id e' he => ?_⟩
    have := (h.byDone e'.done id).mpr ⟨e', he, rfl⟩
    rw [hnil] at this
    cases this
  | succ fuel ih =>
    unfold WriteBuffer.wbFreeLoop
    split
    next hnil =>
      refine ⟨h, rfl, rfl, fun id e he _ => ⟨false, by rw [Bool.or_false]; exact he⟩, fun id e' he => ?_⟩
      have := (h.byDone e'.done id).mpr ⟨e', he, rfl⟩
      rw [hnil] at this
      cases this
    next d id rest hdone =>
      split
      next hd =>
        obtain ⟨e, he, hed⟩ := (h.byDone d id).mp (hdone ▸ List.mem_cons_self ..)
        obtain ⟨s₁, hs₁, hinv, hfixes, hwb⟩ : ∃ s₁, (if e.fixed then s else s.commit e.unit e.start) = s₁ ∧ Inv s₁ ∧
            Fixes s s₁ ∧ s₁.wb id = some { e with fixed := true } := by
          by_cases hf : e.fixed = true
          · exact ⟨s, if_pos hf, h, .refl s, by rw [he, ← hf]⟩
          · obtain ⟨hinv, hfixes, -, hlate⟩ := h.commit e.unit e.start
            refine ⟨_, if_neg hf, hinv, hfixes, ?_⟩
            obtain ⟨b, hb⟩ := hfixes.wb id e he
            -- the entry has started by its own start, so it does not wait any more
            cases hfix : (e.fixed || b) with
            | false =>
              rw [hfix] at hb
              exact absurd (hlate id _ hb ((mem_queue_iff hinv.toBase).mpr ⟨_, hb, rfl, rfl⟩)) (lt_irrefl _)
            | true => rw [hb, hfix]
        have hfree : s.freeOne t id = s₁.leave id { e with fixed := true } t := by
          rw [freeOne, he]
          dsimp only
          rw [hs₁]
        have hleave := hinv.leave (hfixes.wbByDone.trans hdone) hwb rfl (show e.done ≤ t by omega)
        rw [hfree]
        obtain ⟨hinv', hnext, hlast, hkept, hback⟩ := ih hleave (by
          rw [hdone, List.length_cons] at hfuel
          exact Nat.le_of_succ_le_succ hfuel)
        have hne : ∀ {id'}, id' ≠ id → (s₁.leave id { e with fixed := true } t).wb id' = s₁.wb id' :=
          fun hne => update_of_ne hne ..
        refine ⟨hinv', hnext.trans hfixes.wbNext, hlast.trans hfixes.wbLast, fun id' e' he' ht => ?_, fun id' e' he' => ?_⟩
        · have hid : id' ≠ id := by
            intro heq
            rw [heq, he] at he'
            cases he'
            omega
          obtain ⟨b, hb⟩ := hfixes.wb id' e' he'
          obtain ⟨c, hc⟩ := hkept id' _ ((hne hid).trans hb) ht
          exact ⟨b || c, by rw [hc, Bool.or_assoc]⟩
        · obtain ⟨ht, e₁, c, he₁, rfl⟩ := hback id' e' he'
          have hid : id' ≠ id := by
            intro heq
            have hnone : (s₁.leave id { e with fixed := true } t).wb id = none := update_self ..
            rw [heq] at he₁
            rw [show (s₁.leave id { e with fixed := true } t).wb id = some e₁ from he₁] at hnone
            cases hnone
          obtain ⟨e₀, b, he₀, rfl⟩ := hfixes.back ((hne hid).symm.trans he₁)
          exact ⟨ht, e₀, b || c, he₀, by rw [Bool.or_assoc]⟩
      next hd =>
        refine ⟨h, rfl, rfl, fun id e he _ => ⟨false, by rw [Bool.or_false]; exact he⟩, fun id' e' he => ?_⟩
        refine ⟨?_, e', false, he, by rw [Bool.or_false]⟩
        -- the first to complete has not, so none has
        have hmem := (h.byDone e'.done id').mpr ⟨e', he, rfl⟩
        have hsorted := h.sorted
        rw [hdone] at hmem hsorted
        rcases List.mem_cons.mp hmem with heq | hmem
        · have := (Prod.mk.inj heq).1
          omega
        · have hle := Prod.Lex.toLex_le_toLex.mp (List.rel_of_pairwise_cons hsorted hmem)
          dsimp only at hle
          omega

theorem Inv.wbFree (h : Inv s) (t : Nat) :
    Inv (s.wbFree t) ∧ (s.wbFree t).wbNext = s.wbNext ∧ (s.wbFree t).wbLast = s.wbLast ∧
      (∀ id e, s.wb id = some e → t < e.done → ∃ b, (s.wbFree t).wb id = some { e with fixed := e.fixed || b }) ∧
      ∀ id e', (s.wbFree t).wb id = some e' → t < e'.done ∧ ∃ e b, s.wb id = some e ∧ e' = { e with fixed := e.fixed || b } :=
  h.wbFreeLoop t (Nat.le_refl _)

/-! ## An entry changes its completion -/

theorem mem_insertDone {p x : Nat × Nat} {l : List (Nat × Nat)} : x ∈ insertDone p l ↔ x = p ∨ x ∈ l :=
  List.mem_orderedInsert _

theorem nodup_insertDone {p : Nat × Nat} {l : List (Nat × Nat)} (hl : l.Nodup) (hp : p ∉ l) : (insertDone p l).Nodup :=
  (List.perm_orderedInsert _ p l).nodup_iff.mpr (List.nodup_cons.mpr ⟨hp, hl⟩)

theorem sorted_insertDone {p : Nat × Nat} {l : List (Nat × Nat)} (hl : l.Pairwise fun a b => toLex a ≤ toLex b) :
    (insertDone p l).Pairwise fun a b => toLex a ≤ toLex b :=
  List.Pairwise.orderedInsert _ _ hl

/-- The same entry, at other times. -/
structure Retimed (e e' : WbEntry) : Prop where
  line : e'.line = e.line
  unit : e'.unit = e.unit
  fixed : e'.fixed = e.fixed

theorem setDone_wb_ne {id' done : Nat} (hne : id' ≠ id) : (s.wbSetDone id e done).wb id' = s.wb id' :=
  update_of_ne hne ..

theorem setDone_wb_self {done : Nat} : (s.wbSetDone id e done).wb id = some { e with done := done } :=
  update_self ..

theorem Base.setDone (h : Base s) {e' : WbEntry} (he : s.wb id = some e) (hr : Retimed e e') (hd : e'.done = e.done)
    (done : Nat) : Base (s.wbSetDone id e' done) := by
  have hid := h.lt he
  have hmap : ∀ {α : Type} (g : WbEntry → α), g { e' with done := done } = g e → ∀ id',
      ((s.wbSetDone id e' done).wb id').map g = (s.wb id').map g := by
    intro α g hg id'
    by_cases hne : id' = id
    · rw [hne, setDone_wb_self, he, Option.map_some, Option.map_some, hg]
    · rw [setDone_wb_ne hne]
  have hwaits : ∀ u' id', (s.wbSetDone id e' done).waits u' id' = s.waits u' id' := by
    intro u' id'
    by_cases hne : id' = id
    · rw [hne, waits, waits, setDone_wb_self, he, Option.any_some, Option.any_some]
      dsimp only
      rw [hr.unit, hr.fixed]
    · rw [waits, waits, setDone_wb_ne hne]
  have hnew : (done, id) ∉ s.wbByDone.filter (· ≠ (e'.done, id)) := by
    intro hmem
    obtain ⟨hmem, hne⟩ := List.mem_filter.mp hmem
    obtain ⟨e₀, he₀, hd₀⟩ := (h.byDone done id).mp hmem
    rw [he] at he₀
    cases he₀
    rw [decide_eq_true_eq, hd, hd₀] at hne
    exact hne rfl
  refine ⟨fun id' hle => ?_, sorted_insertDone (h.sorted.filter _), nodup_insertDone (h.nodup.filter _) hnew,
    fun d id' => ?_, fun l => ?_, fun u' => ?_, fun id' e₀ t hg => ?_, fun id' hlt => ?_⟩
  · have hle : s.wbNext ≤ id' := hle
    exact ⟨(setDone_wb_ne (by omega)).trans (h.fresh id' hle).1, (h.fresh id' hle).2⟩
  · show (d, id') ∈ insertDone _ _ ↔ _
    rw [mem_insertDone, List.mem_filter, decide_eq_true_eq]
    by_cases hne : id' = id
    · rw [hne, setDone_wb_self]
      constructor
      · intro hor
        rcases hor with heq | ⟨hmem, hneq⟩
        · exact ⟨_, rfl, (Prod.mk.inj heq).1.symm⟩
        · obtain ⟨e₀, he₀, hd₀⟩ := (h.byDone d id).mp hmem
          rw [he] at he₀
          cases he₀
          exact absurd (by rw [hd, hd₀]) hneq
      · intro hex
        obtain ⟨e₀, he₀, rfl⟩ := hex
        cases he₀
        exact .inl rfl
    · rw [setDone_wb_ne hne, ← h.byDone]
      constructor
      · intro hor
        rcases hor with heq | ⟨hmem, -⟩
        · exact absurd (Prod.mk.inj heq).2 hne
        · exact hmem
      · exact fun hmem => .inr ⟨hmem, fun heq => hne (Prod.mk.inj heq).2⟩
  · rw [show (s.wbSetDone id e' done).wbLines l = s.wbLines l from rfl, h.lines]
    refine List.countP_congr fun id' _ => ?_
    rw [decide_eq_true_eq, decide_eq_true_eq, lineOf, lineOf, hmap _ hr.line]
  · show (s.wbBank u').q = (List.range s.wbNext).filter _
    rw [h.queue]
    exact List.filter_congr fun id' _ => (hwaits u' id').symm
  · obtain ⟨hn, hrest⟩ := h.gone id' e₀ t hg
    refine ⟨(setDone_wb_ne fun heq => ?_).trans hn, hrest⟩
    rw [heq, he] at hn
    cases hn
  · by_cases hne : id' = id
    · exact .inl (by rw [hne, setDone_wb_self]; nofun)
    · rw [setDone_wb_ne hne]
      exact h.posted id' hlt

/-- Where only waiting entries differ, the settled slots are the same. -/
theorem settled_congr (hahead : s'.ahead u = s.ahead u) (hgone : s'.gone = s.gone)
    (hwb : ∀ id, s'.wb id = s.wb id ∨
      ∃ e e', s.wb id = some e ∧ s'.wb id = some e' ∧
        ((e.fixed = false ∧ e'.fixed = false) ∨
          (e'.unit = e.unit ∧ e'.fixed = e.fixed ∧ e'.start = e.start ∧ e'.stop = e.stop))) :
    s'.settled u = s.settled u := by
  funext a
  cases a with
  | inl i =>
    show (s'.ahead u)[i]? = (s.ahead u)[i]?
    rw [hahead]
  | inr id =>
    rw [WriteBuffer.settled, WriteBuffer.settled, made, made, hgone]
    rcases hwb id with heq | ⟨e, e', he, he', ⟨hf, hf'⟩ | ⟨hu, hf, hs, ht⟩⟩
    · rw [heq]
    · rw [he, he']
      show (if e'.unit = u ∧ e'.fixed then _ else _) = if e.unit = u ∧ e.fixed then _ else _
      rw [hf, hf', if_neg (fun hh => Bool.false_ne_true hh.2), if_neg (fun hh => Bool.false_ne_true hh.2)]
    · rw [he, he']
      show (if e'.unit = u ∧ e'.fixed then some (e'.start, e'.stop) else _) = if e.unit = u ∧ e.fixed then _ else _
      rw [hu, hf, hs, ht]

theorem Inv.setDone (h : Inv s) (he : s.wb id = some e) (done : Nat) : Inv (s.wbSetDone id e done) := by
  have hslot : (s.wbSetDone id e done).slotOf = s.slotOf := by
    funext id'
    by_cases hne : id' = id
    · rw [hne, slotOf, slotOf, setDone_wb_self, he]
      rfl
    · rw [slotOf, slotOf, setDone_wb_ne hne]
  refine ⟨h.toBase.setDone he ⟨rfl, rfl, rfl⟩ rfl done, fun u' => ?_, fun u' => ?_⟩
  · rw [hslot]
    exact h.queued u'
  · have hset : (s.wbSetDone id e done).settled u' = s.settled u' := by
      refine settled_congr rfl rfl fun id' => ?_
      by_cases hne : id' = id
      · refine .inr ⟨e, { e with done := done }, hne ▸ he, ?_, .inr ⟨rfl, rfl, rfl, rfl⟩⟩
        rw [hne]
        exact setDone_wb_self
      · exact .inl (setDone_wb_ne hne)
    rw [hset]
    exact h.settled u'

/-! ## A write is posted -/

theorem le_later_left (a b : Rat) : a ≤ later a b := by
  unfold later
  split
  · exact le_refl _
  · exact not_lt.mp ‹_›

theorem le_later_right (a b : Rat) : b ≤ later a b := by
  unfold later
  split
  · exact le_of_lt ‹_›
  · exact le_refl _

/-- Entry `e` is new and waits last at its bank. -/
structure Posted (s s' : WriteBuffer) (e : WbEntry) : Prop where
  wb_ne : ∀ id', id' ≠ s.wbNext → s'.wb id' = s.wb id'
  wb_self : s'.wb s.wbNext = some e
  waiting : e.fixed = false
  wbNext : s'.wbNext = s.wbNext + 1
  wbByDone : s'.wbByDone = insertDone (e.done, s.wbNext) s.wbByDone
  wbLines : s'.wbLines = update s.wbLines e.line (s.wbLines e.line + 1)
  wbBank : s'.wbBank = update s.wbBank e.unit { s.wbBank e.unit with q := (s.wbBank e.unit).q ++ [s.wbNext] }
  bankFree : s'.bankFree = update s.bankFree e.unit e.stop
  gone : s'.gone = s.gone
  ahead : s'.ahead = s.ahead

theorem Posted.lines (hp : Posted s s' e) (h : Base s) (l : Nat) :
    s'.wbLines l = (List.range s'.wbNext).countP fun id => s'.lineOf id = some l := by
  have hold : (List.range s.wbNext).countP (fun id' => s'.lineOf id' = some l) = s.wbLines l := by
    rw [h.lines]
    refine List.countP_congr fun id' hm => ?_
    rw [lineOf, lineOf, hp.wb_ne id' (Nat.ne_of_lt (List.mem_range.mp hm))]
  have hline : s'.lineOf s.wbNext = some e.line := by rw [lineOf, hp.wb_self]; rfl
  rw [hp.wbLines, hp.wbNext, List.range_succ, List.countP_append, hold, List.countP_singleton]
  by_cases hl : l = e.line
  · rw [hl, update_self, if_pos (decide_eq_true hline)]
  · have hno : ¬decide (s'.lineOf s.wbNext = some l) = true := by
      rw [decide_eq_true_eq, hline]
      exact fun heq => hl (Option.some.inj heq).symm
    rw [update_of_ne hl, if_neg hno]
    rfl

theorem Posted.queue (hp : Posted s s' e) (h : Base s) (u : Nat) :
    (s'.wbBank u).q = (List.range s'.wbNext).filter (s'.waits u) := by
  have hold : (List.range s.wbNext).filter (s'.waits u) = (s.wbBank u).q := by
    rw [h.queue]
    refine List.filter_congr fun id' hm => ?_
    rw [waits, waits, hp.wb_ne id' (Nat.ne_of_lt (List.mem_range.mp hm))]
  rw [hp.wbNext, List.range_succ, List.filter_append, hold, List.filter_singleton, waits, hp.wb_self, Option.any_some,
    hp.waiting, hp.wbBank]
  by_cases hu : u = e.unit
  · rw [hu, update_self]
    simp
  · have hne : (e.unit == u) = false := beq_eq_false_iff_ne.mpr fun heq => hu heq.symm
    rw [update_of_ne hu, hne]
    simp

theorem Posted.base (hp : Posted s s' e) (h : Base s) : Base s' := by
  obtain ⟨hnone, hgone⟩ := h.fresh s.wbNext (Nat.le_refl _)
  refine ⟨fun id' hle => ?_, ?_, ?_, fun d id' => ?_, hp.lines h, hp.queue h, fun id' e' t hg => ?_, fun id' hid => ?_⟩
  · rw [hp.wbNext] at hle
    rw [hp.wb_ne id' (by omega), hp.gone]
    exact h.fresh id' (by omega)
  · rw [hp.wbByDone]
    exact sorted_insertDone h.sorted
  · rw [hp.wbByDone]
    refine nodup_insertDone h.nodup fun hmem => ?_
    obtain ⟨e', he', -⟩ := (h.byDone _ _).mp hmem
    rw [hnone] at he'
    cases he'
  · rw [hp.wbByDone, mem_insertDone, h.byDone]
    by_cases hne : id' = s.wbNext
    · rw [hne, hp.wb_self, hnone]
      constructor
      · intro hor
        rcases hor with heq | ⟨e', he', -⟩
        · exact ⟨e, rfl, (Prod.mk.inj heq).1.symm⟩
        · cases he'
      · intro hex
        obtain ⟨e', he', rfl⟩ := hex
        cases he'
        exact .inl rfl
    · rw [hp.wb_ne id' hne]
      exact ⟨fun hor => hor.resolve_left fun heq => hne (Prod.mk.inj heq).2, .inr⟩
  · rw [hp.gone] at hg
    obtain ⟨hn, hrest⟩ := h.gone id' e' t hg
    refine ⟨(hp.wb_ne id' fun heq => ?_).trans hn, hrest⟩
    rw [heq, hgone] at hg
    cases hg
  · rw [hp.gone]
    rw [hp.wbNext] at hid
    by_cases hne : id' = s.wbNext
    · exact .inl (by rw [hne, hp.wb_self]; nofun)
    · rw [hp.wb_ne id' hne]
      exact h.posted id' (by omega)

theorem Posted.inv (hp : Posted s s' e) (h : Inv s) (hfree : s.bankFree e.unit ≤ e.start) (hlt : e.start < e.stop) :
    Inv s' := by
  obtain ⟨hnone, hgone⟩ := h.fresh s.wbNext (Nat.le_refl _)
  refine ⟨hp.base h.toBase, fun u' => ?_, fun u' => ?_⟩
  · have hold : Queued s'.slotOf (s.wbBank u').fixedEnd (s.wbBank u').q (s.bankFree u') := by
      refine (h.queued u').congr fun id' hm => ?_
      obtain ⟨e', he', -⟩ := (mem_queue_iff h.toBase).mp hm
      rw [slotOf, slotOf, hp.wb_ne id' (Nat.ne_of_lt (h.lt he'))]
    rw [hp.wbBank, hp.bankFree]
    by_cases hu : u' = e.unit
    · rw [hu] at hold ⊢
      rw [update_self, update_self]
      exact hold.snoc (slotOf_eq hp.wb_self) hfree hlt
    · rw [update_of_ne hu, update_of_ne hu]
      exact hold
  · have hset : s'.settled u' = s.settled u' := by
      funext a
      cases a with
      | inl i =>
        show (s'.ahead u')[i]? = (s.ahead u')[i]?
        rw [hp.ahead]
      | inr id' =>
        rw [WriteBuffer.settled, WriteBuffer.settled, made, made, hp.gone]
        by_cases hne : id' = s.wbNext
        · rw [hne, hp.wb_self, hnone, hgone]
          exact if_neg fun hh => Bool.false_ne_true (hp.waiting.symm.trans hh.2)
        · rw [hp.wb_ne id' hne]
    have hend : (s'.wbBank u').fixedEnd = (s.wbBank u').fixedEnd := by
      rw [hp.wbBank]
      by_cases hu : u' = e.unit
      · rw [hu, update_self]
      · rw [update_of_ne hu]
    rw [hset, hend]
    exact h.settled u'

theorem occ_pos {c : BankTiming} (hsvc : 0 < c.svc) (wr : Bool) : 0 < c.svc + if wr then (c.writeExtra : Rat) else 0 := by
  have : (0 : Rat) ≤ c.writeExtra := Nat.cast_nonneg _
  split <;> linarith

/-- **A write is posted**: its entry waits, and starts no earlier than it arrives. -/
theorem Inv.bookPosted (h : Inv s) {c : BankTiming} (hsvc : 0 < c.svc) (line : Nat) (u : Nat) {arrive : Nat} {wait : Rat}
    (hwait : 0 ≤ wait) : Inv (bookPosted c s line u arrive wait) ∧ ∃ e : WbEntry, (arrive : Rat) ≤ e.start ∧ e.line = line ∧
      e.done = roundHalf (e.start + (c.svc + c.writeExtra)) ∧ (bookPosted c s line u arrive wait).wbLast = some s.wbNext ∧
      (bookPosted c s line u arrive wait).wb s.wbNext = some e := by
  obtain ⟨hc, hfixes, -, -⟩ := h.commit u arrive
  have hocc := occ_pos hsvc true
  rw [if_pos rfl] at hocc
  have hfree := le_later_left ((s.commit u arrive).bankFree u) arrive
  have harrive := le_later_right ((s.commit u arrive).bankFree u) arrive
  have hp : Posted (s.commit u arrive) (WriteBuffer.bookPosted c s line u arrive wait) ⟨line, u,
      later ((s.commit u arrive).bankFree u) arrive + wait,
      later ((s.commit u arrive).bankFree u) arrive + wait + (c.svc + c.writeExtra),
      roundHalf (later ((s.commit u arrive).bankFree u) arrive + wait + (c.svc + c.writeExtra)), false⟩ :=
    ⟨fun id' hne => update_of_ne hne .., update_self .., rfl, rfl, rfl, rfl, rfl, rfl, rfl, rfl⟩
  have hinv := hp.inv hc (by show _ ≤ later _ _ + wait; linarith)
    (by show later _ _ + wait < later _ _ + wait + _; linarith)
  have hself := hp.wb_self
  rw [hfixes.wbNext] at hself
  refine ⟨hinv, _, ?_, rfl, rfl, ?_, hself⟩
  · show (arrive : Rat) ≤ later _ _ + wait
    linarith
  · rw [← hfixes.wbNext]
    rfl

/-! ## An access is booked ahead -/

/-- The waiting writes of a queue are at other times, nothing else is different. -/
structure Pushed (q : List Nat) (s s' : WriteBuffer) : Prop where
  outside : ∀ id, id ∉ q → s'.wb id = s.wb id
  inside : ∀ id ∈ q, ∃ e e', s.wb id = some e ∧ s'.wb id = some e' ∧ Retimed e e'
  wbBank : s'.wbBank = s.wbBank
  bankFree : s'.bankFree = s.bankFree
  gone : s'.gone = s.gone
  ahead : s'.ahead = s.ahead

/-- The writes pushed back follow the work before them. -/
theorem pushBack_spec (h : Base s) (hq : q.Nodup) (hin : ∀ id ∈ q, ∃ e, s.wb id = some e ∧ e.start < e.stop) (prev : Rat) :
    Base (pushBack q prev s).1 ∧ Pushed q s (pushBack q prev s).1 ∧
      Queued (pushBack q prev s).1.slotOf prev q (pushBack q prev s).2 := by
  induction q generalizing s prev with
  | nil => exact ⟨h, ⟨fun _ _ => rfl, nofun, rfl, rfl, rfl, rfl⟩, le_refl _⟩
  | cons id q ih =>
    rw [List.nodup_cons] at hq
    obtain ⟨e, he, hlt⟩ := hin id (List.mem_cons_self ..)
    simp only [pushBack, he]
    split
    next hearly =>
      have hr : Retimed e { e with start := e.start + (prev - e.start), stop := e.stop + (prev - e.start) } := ⟨rfl, rfl, rfl⟩
      have hbase := h.setDone he hr rfl (e.done + roundHalf (prev - e.start))
      generalize hs₁ : s.wbSetDone id _ (e.done + roundHalf (prev - e.start)) = s₁ at hbase
      have hne : ∀ id', id' ≠ id → s₁.wb id' = s.wb id' := fun id' hne => by rw [← hs₁]; exact setDone_wb_ne hne
      have hself : s₁.wb id = some { e with
          start := e.start + (prev - e.start), stop := e.stop + (prev - e.start),
          done := e.done + roundHalf (prev - e.start) } := by
        rw [← hs₁]
        exact setDone_wb_self
      obtain ⟨hb, hp, hqd⟩ := ih hbase hq.2 (fun id' hm => by
        rw [hne id' fun heq => hq.1 (heq ▸ hm)]
        exact hin id' (List.mem_cons_of_mem _ hm)) (e.stop + (prev - e.start))
      refine ⟨hb, ⟨fun id' hm => ?_, fun id' hm => ?_, ?_, ?_, ?_, ?_⟩, ?_⟩
      · rw [hp.outside id' fun h => hm (List.mem_cons_of_mem _ h), hne id' fun heq => hm (heq ▸ List.mem_cons_self ..)]
      · by_cases hid : id' = id
        · rw [hid]
          exact ⟨e, _, he, (hp.outside id hq.1).trans hself, ⟨rfl, rfl, rfl⟩⟩
        · obtain ⟨e₁, e₂, he₁, he₂, hr'⟩ := hp.inside id' ((List.mem_cons.mp hm).resolve_left hid)
          exact ⟨e₁, e₂, (hne id' hid).symm.trans he₁, he₂, hr'⟩
      · rw [hp.wbBank, ← hs₁]
        rfl
      · rw [hp.bankFree, ← hs₁]
        rfl
      · rw [hp.gone, ← hs₁]
        rfl
      · rw [hp.ahead, ← hs₁]
        rfl
      · refine ⟨_, slotOf_eq ((hp.outside id hq.1).trans hself), ?_, ?_, hqd⟩
        · show prev ≤ e.start + (prev - e.start)
          linarith
        · show e.start + (prev - e.start) < e.stop + (prev - e.start)
          linarith
    next hlate =>
      obtain ⟨hb, hp, hqd⟩ := ih h hq.2 (fun id' hm => hin id' (List.mem_cons_of_mem _ hm)) e.stop
      refine ⟨hb, ⟨fun id' hm => hp.outside id' fun h => hm (List.mem_cons_of_mem _ h), fun id' hm => ?_, hp.wbBank,
        hp.bankFree, hp.gone, hp.ahead⟩, ?_⟩
      · by_cases hid : id' = id
        · rw [hid]
          exact ⟨e, e, he, (hp.outside id hq.1).trans he, ⟨rfl, rfl, rfl⟩⟩
        · exact hp.inside id' ((List.mem_cons.mp hm).resolve_left hid)
      · exact ⟨_, slotOf_eq ((hp.outside id hq.1).trans he), not_lt.mp hlate, hlt, hqd⟩

theorem settled_snoc {x : Rat × Rat} (hahead : s'.ahead u = s.ahead u ++ [x]) (hwrites : ∀ id, s'.settled u (.inr id) = s.settled u (.inr id)) :
    s'.settled u = update (s.settled u) (.inl (s.ahead u).length) (some x) := by
  funext a
  cases a with
  | inl i =>
    show (s'.ahead u)[i]? = _
    rw [hahead]
    by_cases hi : i = (s.ahead u).length
    · rw [hi, update_self, List.getElem?_append_right (Nat.le_refl _), Nat.sub_self]
      rfl
    · rw [update_of_ne fun heq => hi (Sum.inl.inj heq)]
      by_cases hlt : i < (s.ahead u).length
      · rw [List.getElem?_append_left hlt]
        rfl
      · show _ = (s.ahead u)[i]?
        rw [List.getElem?_eq_none (by rw [List.length_append, List.length_singleton]; omega),
          List.getElem?_eq_none (by omega)]
  | inr id =>
    rw [hwrites id, update_of_ne Sum.inr_ne_inl]

theorem settleAhead_q (x : Rat × Rat) (u' : Nat) : ((s.settleAhead u x).wbBank u').q = (s.wbBank u').q := by
  show (update s.wbBank u _ u').q = _
  by_cases hu : u' = u
  · rw [hu, update_self]
  · rw [update_of_ne hu]

theorem Base.settleAhead (h : Base s) (x : Rat × Rat) : Base (s.settleAhead u x) :=
  ⟨h.fresh, h.sorted, h.nodup, h.byDone, h.lines, fun u' => (settleAhead_q x u').trans (h.queue u'), h.gone, h.posted⟩

/-- Writes that wait for a bank are not settled at any, at whatever times they are. -/
theorem Pushed.settled {x : Rat × Rat} (hp : Pushed (s.wbBank u).q (s.settleAhead u x) s') (h : Base s) (u' id : Nat) :
    s'.settled u' (.inr id) = s.settled u' (.inr id) := by
  have hcongr : WriteBuffer.settled { s' with ahead := s.ahead } u' = s.settled u' := by
    refine settled_congr rfl hp.gone fun id => ?_
    by_cases hm : id ∈ (s.wbBank u).q
    · obtain ⟨e, e', he, he', hr⟩ := hp.inside id hm
      obtain ⟨e₀, he₀, -, hf⟩ := (mem_queue_iff h).mp hm
      obtain rfl : e = e₀ := Option.some.inj (he.symm.trans he₀)
      exact .inr ⟨e, e', he, he', .inl ⟨hf, hr.fixed.trans hf⟩⟩
    · exact .inl (hp.outside id hm)
  exact congrFun hcongr (.inr id)

/-- An access settled behind the bank's committed work, and the waiting writes behind it. -/
theorem Inv.makeRoom (h : Inv s) {x : Rat × Rat} (hx : (s.wbBank u).fixedEnd ≤ x.1) (hlt : x.1 < x.2) :
    Inv (s.makeRoom u x) := by
  have hbase := h.toBase.settleAhead (u := u) x
  have hin : ∀ id ∈ (s.wbBank u).q, ∃ e, (s.settleAhead u x).wb id = some e ∧ e.start < e.stop := by
    intro id hm
    obtain ⟨y, hy, -, hylt, -⟩ := (h.queued u).mem hm
    obtain ⟨e, he, rfl⟩ := Option.map_eq_some_iff.mp hy
    exact ⟨e, he, hylt⟩
  obtain ⟨hb, hp, hqd⟩ := pushBack_spec hbase (h.nodup_queue u) hin x.2
  unfold WriteBuffer.makeRoom
  generalize pushBack (s.wbBank u).q x.2 (s.settleAhead u x) = r at hb hp hqd
  have hend : (r.1.wbBank u).fixedEnd = x.2 := by
    rw [hp.wbBank]
    show (update s.wbBank u _ u).fixedEnd = x.2
    rw [update_self]
  have hendNe : ∀ u', u' ≠ u → (r.1.wbBank u').fixedEnd = (s.wbBank u').fixedEnd := by
    intro u' hu
    rw [hp.wbBank]
    show (update s.wbBank u _ u').fixedEnd = _
    rw [update_of_ne hu]
  have hq : ∀ u', (r.1.wbBank u').q = (s.wbBank u').q := fun u' => by rw [hp.wbBank, settleAhead_q]
  refine ⟨⟨hb.fresh, hb.sorted, hb.nodup, hb.byDone, hb.lines, hb.queue, hb.gone, hb.posted⟩, fun u' => ?_, fun u' => ?_⟩
  · show Queued r.1.slotOf (r.1.wbBank u').fixedEnd (r.1.wbBank u').q (update r.1.bankFree u r.2 u')
    by_cases hu : u' = u
    · rw [hu, update_self, hend, hq]
      exact hqd
    · rw [update_of_ne hu, hp.bankFree, hendNe u' hu, hq]
      refine (h.queued u').congr fun id hm => ?_
      -- a write waits for one bank
      have hout : id ∉ (s.wbBank u).q := by
        intro hm'
        obtain ⟨e, he, heu, -⟩ := (mem_queue_iff h.toBase).mp hm
        obtain ⟨e', he', heu', -⟩ := (mem_queue_iff h.toBase).mp hm'
        rw [he] at he'
        cases he'
        exact hu (heu.symm.trans heu')
      rw [slotOf, slotOf, hp.outside id hout]
      rfl
  · show Settled (r.1.settled u') (r.1.wbBank u').fixedEnd
    by_cases hu : u' = u
    · have hahead : r.1.ahead u = s.ahead u ++ [x] := by
        rw [hp.ahead]
        show update s.ahead u _ u = _
        rw [update_self]
      rw [hu, settled_snoc hahead (hp.settled h.toBase u), hend]
      exact (h.settled u).add _ hx (le_refl _) (le_trans hx (le_of_lt hlt))
    · have hsame : r.1.settled u' = s.settled u' := by
        funext a
        cases a with
        | inl i =>
          show (r.1.ahead u')[i]? = (s.ahead u')[i]?
          rw [hp.ahead]
          show (update s.ahead u _ u')[i]? = _
          rw [update_of_ne hu]
        | inr id => exact hp.settled h.toBase u' id
      rw [hsame, hendNe u' hu]
      exact h.settled u'

/-- **An access is booked ahead** of the waiting writes, behind the bank's committed work. -/
theorem Inv.bookAhead (h : Inv s) {c : BankTiming} (hsvc : 0 < c.svc) (wr : Bool) (u arrive : Nat) {wait : Rat}
    (hwait : 0 ≤ wait) : Inv (bookAhead c s wr u arrive wait) := by
  obtain ⟨hc, -, -, -⟩ := h.commit u arrive
  have hocc := occ_pos hsvc wr
  have hstart := le_later_left ((s.commit u arrive).wbBank u).fixedEnd arrive
  refine hc.makeRoom ?_ ?_
  · show _ ≤ later _ _ + wait
    linarith
  · show later _ _ + wait < later _ _ + wait + _
    linarith

end

end WriteBuffer

end Pimid.Mem
