import Pimid.Dram.Prefetch
import Mathlib.Algebra.BigOperators.Group.List.Basic
import Mathlib.Algebra.Ring.Int.Defs

/-!
# Prefetches settle in the order of their waits

The shard never depends on when a completion came, only on which have come: its entries
are read off the calls and the completions so far (`entry`), the settled waits are a
prefix of the consumed ones, and the first one left has not completed. So once all
have completed, every order has folded `settle` over the same list.
-/

namespace Pimid.Dram.PfShard

variable {comp : Nat → Completion} {evs evs' : List Ev} {b : Books} {cs : List Nat} {d p : List Wait}

/-! ## Waits folded -/

/-- The entry of a consumed prefetch that has completed. -/
def settledEnt (comp : Nat → Completion) (w : Wait) : PfEnt where
  isDone := true
  cons := true
  delta := (comp w.tag).delta
  waitStart := w.waitStart
  estArr := w.estArr
  iss := w.iss

/-- The settlement of the waits, in order. -/
def after (comp : Nat → Completion) (ws : List Wait) : Stall :=
  ws.foldl (fun k w => k.settle (settledEnt comp w) w.tag) {}

@[simp] theorem after_concat (ws : List Wait) (w : Wait) :
    after comp (ws ++ [w]) = (after comp ws).settle (settledEnt comp w) w.tag := by
  simp [after]

theorem after_log (ws : List Wait) : (after comp ws).log.map Prod.fst = ws.map Wait.tag := by
  induction ws using List.reverseRecOn with
  | nil => rfl
  | append_singleton ws w ih => simp [Stall.settle, ih]

theorem after_estEnd (ws : List Wait) : (after comp ws).estEnd = reach (ws.map charged) := by
  induction ws using List.reverseRecOn with
  | nil => rfl
  | append_singleton ws w ih =>
    rw [after_concat, List.map_append, List.map_singleton, reach_concat]
    simp only [Stall.settle, ih, PfEnt.eEnd, settledEnt, charged]
    omega

theorem after_growth {ws : List Wait} (h : ws.Pairwise fun v w => v.waitStart ≤ w.waitStart) :
    ((after comp ws).log.map Prod.snd).sum = (covered (ws.map charged)).card := by
  induction ws using List.reverseRecOn with
  | nil => rfl
  | append_singleton ws w ih =>
    obtain ⟨hws, -, hlast⟩ := List.pairwise_append.mp h
    have hstart : ∀ y ∈ ws.map charged, y.1 ≤ (charged w).1 := by
      intro y hy
      obtain ⟨v, hv, rfl⟩ := List.mem_map.mp hy
      exact hlast v hv w (List.mem_singleton_self w)
    rw [List.map_append, List.map_singleton, card_covered_concat hstart, Int.natCast_add, ← ih hws, after_concat]
    have hde : (after comp ws).de (settledEnt comp w) =
        (((charged w).2 - max (charged w).1 (reach (ws.map charged)) : Nat) : Int) := by
      simp only [Stall.de, after_estEnd, PfEnt.eEnd, settledEnt, charged]
      omega
    simp only [Stall.settle, List.map_append, List.map_singleton, List.sum_append, List.sum_singleton, hde]

/-! ## The books of a run -/

@[simp] theorem calls_concat_call (evs : List Ev) (c : Call) : calls (evs ++ [.call c]) = calls evs ++ [c] := by
  simp [calls]

@[simp] theorem calls_concat_completed (evs : List Ev) (t : Nat) : calls (evs ++ [.completed t]) = calls evs := by
  simp [calls]

@[simp] theorem completions_concat_call (evs : List Ev) (c : Call) :
    completions (evs ++ [.call c]) = completions evs := by
  simp [completions]

@[simp] theorem completions_concat_completed (evs : List Ev) (t : Nat) :
    completions (evs ++ [.completed t]) = completions evs ++ [t] := by
  simp [completions]

@[simp] theorem books_concat_call (evs : List Ev) (c : Call) : books (evs ++ [.call c]) = (books evs).note c := by
  simp [books]

@[simp] theorem books_concat_completed (evs : List Ev) (t : Nat) : books (evs ++ [.completed t]) = books evs := by
  simp [books]

theorem consumptions_concat (evs : List Ev) (w : Wait) :
    consumptions (evs ++ [.call (.consumed w)]) = consumptions evs ++ [w] := by
  simp [consumptions]

theorem consumptions_mono (evs : List Ev) (e : Ev) : ∀ w ∈ consumptions evs, w ∈ consumptions (evs ++ [e]) := by
  intro w hw
  simp only [consumptions, calls, List.filterMap_append, List.mem_append]
  exact .inl hw

/-- What the order of the events keeps of the books. -/
structure Kept (b : Books) (cs : List Nat) (ws : List Wait) : Prop where
  tags : (b.waits.map Wait.tag).Nodup
  waits : ∀ w ∈ b.waits, w.tag ∈ b.recorded ∧ w ∈ ws
  order : b.waits.Pairwise fun v w => v.waitStart ≤ w.waitStart
  dropped : ∀ t ∈ b.dropped, t ∈ b.recorded ∧ t ∉ b.waits.map Wait.tag
  comps : ∀ t ∈ cs, t ∈ b.recorded
  tag : 0 ∉ b.recorded

theorem Schedule.kept (h : Schedule evs) : Kept (books evs) (completions evs) (consumptions evs) := by
  induction h with
  | nil => exact ⟨List.nodup_nil, nofun, .nil, nofun, nofun, nofun⟩
  | @snoc evs e _ hallow ih =>
    have hmono := consumptions_mono evs e
    rcases e with c | t
    · rw [books_concat_call, completions_concat_call]
      cases c with
      | recorded t =>
        refine ⟨ih.tags, fun w hw => ⟨List.mem_cons_of_mem _ (ih.waits w hw).1, hmono w (ih.waits w hw).2⟩, ih.order,
          fun u hu => ⟨List.mem_cons_of_mem _ (ih.dropped u hu).1, (ih.dropped u hu).2⟩,
          fun u hu => List.mem_cons_of_mem _ (ih.comps u hu), fun h0 => ?_⟩
        rcases List.mem_cons.mp h0 with rfl | h0
        · exact hallow.1 rfl
        · exact ih.tag h0
      | consumed w =>
        simp only [Books.note]
        split
        next hnote =>
          refine ⟨?_, ?_, ?_, ?_, ih.comps, ih.tag⟩
          · rw [List.map_append, List.map_singleton]
            exact List.nodup_append.mpr ⟨ih.tags, List.nodup_singleton _, fun a ha c hc => by
              obtain rfl := List.mem_singleton.mp hc
              exact fun heq => hnote.2 (heq ▸ ha)⟩
          · intro v hv
            rcases List.mem_append.mp hv with hv | hv
            · exact ⟨(ih.waits v hv).1, hmono v (ih.waits v hv).2⟩
            · obtain rfl := List.mem_singleton.mp hv
              exact ⟨hnote.1, by rw [consumptions_concat]; simp⟩
          · refine List.pairwise_append.mpr ⟨ih.order, List.pairwise_singleton _ _, fun v hv u hu => ?_⟩
            obtain rfl := List.mem_singleton.mp hu
            exact hallow.1 v (ih.waits v hv).2
          · intro t ht
            refine ⟨(ih.dropped t ht).1, fun hin => ?_⟩
            rw [List.map_append, List.map_singleton] at hin
            rcases List.mem_append.mp hin with hin | hin
            · exact (ih.dropped t ht).2 hin
            · exact hallow.2 (List.mem_singleton.mp hin ▸ ht)
        next => exact ⟨ih.tags, fun v hv => ⟨(ih.waits v hv).1, hmono v (ih.waits v hv).2⟩, ih.order, ih.dropped, ih.comps, ih.tag⟩
      | dropped t =>
        simp only [Books.note]
        split
        next hnote =>
          refine ⟨ih.tags, fun v hv => ⟨(ih.waits v hv).1, hmono v (ih.waits v hv).2⟩, ih.order, fun u hu => ?_, ih.comps, ih.tag⟩
          rcases List.mem_cons.mp hu with rfl | hu
          · exact hnote
          · exact ih.dropped u hu
        next => exact ⟨ih.tags, fun v hv => ⟨(ih.waits v hv).1, hmono v (ih.waits v hv).2⟩, ih.order, ih.dropped, ih.comps, ih.tag⟩
    · rw [books_concat_completed, completions_concat_completed]
      refine ⟨ih.tags, fun v hv => ⟨(ih.waits v hv).1, hmono v (ih.waits v hv).2⟩, ih.order, ih.dropped, fun u hu => ?_, ih.tag⟩
      rcases List.mem_append.mp hu with hu | hu
      · exact ih.comps u hu
      · exact List.mem_singleton.mp hu ▸ hallow.1

/-! ## The entries -/

/-- The wait of a tag, all 0 if it has none. -/
def Books.waitOf (b : Books) (t : Nat) : Wait := (b.waits.find? fun w => w.tag = t).getD ⟨t, 0, 0, 0⟩

/-- The entry of a tag, by the books and the completions. -/
def entry (comp : Nat → Completion) (b : Books) (cs : List Nat) (t : Nat) : PfEnt where
  isDone := decide (t ∈ cs)
  cons := decide (t ∈ b.waits.map Wait.tag)
  dropped := decide (t ∈ b.dropped)
  delta := if t ∈ cs then (comp t).delta else 0
  waitStart := (b.waitOf t).waitStart
  estArr := (b.waitOf t).estArr
  iss := (b.waitOf t).iss

/-- A tag that still has its entry. -/
def Live (b : Books) (cs : List Nat) (d : List Wait) (t : Nat) : Prop :=
  t ∈ b.recorded ∧ t ∉ d.map Wait.tag ∧ ¬(t ∈ b.dropped ∧ t ∈ cs)

instance (b : Books) (cs : List Nat) (d : List Wait) (t : Nat) : Decidable (Live b cs d t) :=
  inferInstanceAs (Decidable (_ ∧ _))

theorem waitOf_mem (h : (b.waits.map Wait.tag).Nodup) {w : Wait} (hw : w ∈ b.waits) : b.waitOf w.tag = w := by
  obtain ⟨v, hv⟩ : ∃ v, (b.waits.find? fun v => v.tag = w.tag) = some v :=
    Option.isSome_iff_exists.mp (List.find?_isSome.mpr ⟨w, hw, by simp⟩)
  have htag : v.tag = w.tag := by simpa using List.find?_some hv
  rw [Books.waitOf, hv]
  exact List.inj_on_of_nodup_map h (List.mem_of_find?_eq_some hv) hw htag

theorem waitOf_not_mem {t : Nat} (h : t ∉ b.waits.map Wait.tag) : b.waitOf t = ⟨t, 0, 0, 0⟩ := by
  have hnone : (b.waits.find? fun w => w.tag = t) = none := by
    rw [List.find?_eq_none]
    intro v hv heq
    exact h (List.mem_map.mpr ⟨v, hv, by simpa using heq⟩)
  rw [Books.waitOf, hnone]
  rfl

/-- The shard as the books have it: `d` settled, `p` in `ord` (here `l`). -/
structure Held (comp : Nat → Completion) (b : Books) (cs : List Nat) (d p : List Wait)
    (l : List ((Nat × Nat) × Nat)) (k : PfShard) : Prop where
  split : b.waits = d ++ p
  stall : k.toStall = after comp d
  done : ∀ w ∈ d, w.tag ∈ cs
  ord : l.map Prod.snd = p.map Wait.tag
  keys : ∀ f ∈ l, f.1.2 < k.ordSeq ∧ ∃ w ∈ b.waits, f.1.1 = w.waitStart
  ent : ∀ t, k.ent t = if Live b cs d t then some (entry comp b cs t) else none

theorem Held.waiting {ws : List Wait} {l : List ((Nat × Nat) × Nat)} {k : PfShard} (h : Held comp b cs d p l k)
    (hk : Kept b cs ws) {w : Wait} (hw : w ∈ p) :
    k.ent w.tag = some { settledEnt comp w with
      isDone := decide (w.tag ∈ cs), delta := if w.tag ∈ cs then (comp w.tag).delta else 0 } := by
  have hmem : w ∈ b.waits := h.split ▸ List.mem_append_right d hw
  have hdrop : w.tag ∉ b.dropped := fun hd => (hk.dropped _ hd).2 (List.mem_map_of_mem hmem)
  have hnodup := hk.tags
  rw [h.split, List.map_append] at hnodup
  have hlive : Live b cs d w.tag :=
    ⟨(hk.waits w hmem).1, fun hd => (List.nodup_append.mp hnodup).2.2 _ hd _ (List.mem_map_of_mem hw) rfl,
      fun hb => hdrop hb.1⟩
  have hwait : w.tag ∈ b.waits.map Wait.tag := List.mem_map_of_mem hmem
  rw [h.ent, if_pos hlive]
  simp only [entry, settledEnt, waitOf_mem hk.tags hmem, hwait, hdrop, decide_true, decide_false]

/-! ## Draining -/

/-- The first wait left has not completed. -/
def Stuck (cs : List Nat) (p : List Wait) : Prop := ∀ w r, p = w :: r → w.tag ∉ cs

/-- `pfDrain` settles the longest prefix that has completed. -/
theorem drain_held {ws : List Wait} (hk : Kept b cs ws) {l : List ((Nat × Nat) × Nat)} {k : PfShard}
    (h : Held comp b cs d p l k) :
    ∃ d' p', Held comp b cs d' p' (k.drain l).1.ord (k.drain l).1 ∧ Stuck cs p' ∧
      (k.drain l).2 = (k.drain l).1.C - k.C := by
  induction l generalizing k d p with
  | nil =>
    have hp : p = [] := List.map_eq_nil_iff.mp h.ord.symm
    refine ⟨d, p, ⟨h.split, h.stall, h.done, h.ord, nofun, h.ent⟩, fun w r heq => ?_, (Int.sub_self _).symm⟩
    exact absurd (hp ▸ heq) (List.cons_ne_nil w r).symm
  | cons f r ih =>
    obtain ⟨w, p', rfl⟩ : ∃ w p', p = w :: p' := by
      cases p with
      | nil => exact absurd h.ord (by simp)
      | cons w p' => exact ⟨w, p', rfl⟩
    obtain ⟨hf, hr⟩ := List.cons_eq_cons.mp h.ord
    have hent := h.waiting hk (List.mem_cons_self)
    rw [drain, hf]
    by_cases hc : w.tag ∈ cs
    · have hent' : k.ent w.tag = some (settledEnt comp w) := by
        rw [hent]
        simp only [hc, decide_true, if_true]
        rfl
      have hdone : (settledEnt comp w).isDone = true := rfl
      simp only [hent', hdone, if_true]
      -- the wait at the front is settled, and the loop goes on with the rest
      have hheld : Held comp b cs (d ++ [w]) p' r (k.settleFront w.tag (settledEnt comp w)) := by
        refine ⟨by rw [h.split]; simp, ?_, fun v hv => ?_, hr, fun g hg => h.keys g (List.mem_cons_of_mem _ hg), fun t => ?_⟩
        · show k.toStall.settle _ _ = _
          rw [after_concat, h.stall]
        · rcases List.mem_append.mp hv with hv | hv
          · exact h.done v hv
          · exact List.mem_singleton.mp hv ▸ hc
        · show Function.update k.ent w.tag none t = _
          by_cases ht : t = w.tag
          · rw [ht, Function.update_self, if_neg fun hl => hl.2.1 (by simp)]
          · have hiff : Live b cs (d ++ [w]) t ↔ Live b cs d t := by simp [Live, ht]
            simp only [Function.update_of_ne ht, h.ent, hiff]
      obtain ⟨d', q, hd, hstuck, hsum⟩ := ih hheld
      refine ⟨d', q, hd, hstuck, ?_⟩
      show k.correction (settledEnt comp w) + _ = _
      have hC : (k.settleFront w.tag (settledEnt comp w)).C = k.C + k.correction (settledEnt comp w) := rfl
      rw [hsum, hC]
      omega
    · simp only [hent, hc, decide_false, Bool.false_eq_true, if_false]
      refine ⟨d, w :: p', ⟨h.split, h.stall, h.done, h.ord, h.keys, h.ent⟩, fun v q heq => ?_, (Int.sub_self _).symm⟩
      obtain ⟨rfl, -⟩ := List.cons_eq_cons.mp heq
      exact hc

/-- The shard between two events, with the corrections returned so far. -/
structure Good (comp : Nat → Completion) (b : Books) (cs : List Nat) (d p : List Wait) (s : PfShard × Int) : Prop where
  held : Held comp b cs d p s.1.ord s.1
  stuck : Stuck cs p
  total : s.2 = s.1.C

theorem pfDrain_good {ws : List Wait} (hk : Kept b cs ws) {k : PfShard} (h : Held comp b cs d p k.ord k) {n : Int}
    (hn : n = k.C) : ∃ d' p', Good comp b cs d' p' (k.pfDrain.1, n + k.pfDrain.2) := by
  obtain ⟨d', p', hheld, hstuck, hsum⟩ := drain_held hk h
  refine ⟨d', p', ⟨hheld.split, hheld.stall, hheld.done, hheld.ord, hheld.keys, hheld.ent⟩, hstuck, ?_⟩
  show n + (k.drain k.ord).2 = (k.drain k.ord).1.C
  omega

/-! ## One event -/

variable {ws : List Wait} {s : PfShard × Int}

/-- A tag with no entry changed keeps what the books say of it. -/
theorem Held.update {b' : Books} {cs' : List Nat} {l : List ((Nat × Nat) × Nat)} {k : PfShard} {t : Nat}
    {x : Option PfEnt} (h : Held comp b cs d p l k)
    (hx : x = if Live b' cs' d t then some (entry comp b' cs' t) else none)
    (hlive : ∀ u, u ≠ t → (Live b' cs' d u ↔ Live b cs d u))
    (hentry : ∀ u, u ≠ t → entry comp b' cs' u = entry comp b cs u) (u : Nat) :
    Function.update k.ent t x u = if Live b' cs' d u then some (entry comp b' cs' u) else none := by
  by_cases hu : u = t
  · rw [hu, Function.update_self, hx]
  · simp only [Function.update_of_ne hu, h.ent, hlive u hu, hentry u hu]

theorem Kept.tag_recorded (hk : Kept b cs ws) {t : Nat} (h : t ∈ b.waits.map Wait.tag) : t ∈ b.recorded := by
  obtain ⟨w, hw, rfl⟩ := List.mem_map.mp h
  exact (hk.waits w hw).1

theorem good_recorded (hk : Kept b cs ws) (h : Good comp b cs d p s) {t : Nat} (h0 : t ≠ 0) (ht : t ∉ b.recorded) :
    Good comp (b.note (.recorded t)) cs d p (s.1.recorded t, s.2) := by
  have hwait : t ∉ b.waits.map Wait.tag := fun hw => ht (hk.tag_recorded hw)
  have hd : t ∉ d.map Wait.tag := fun hd => hwait (by rw [h.held.split, List.map_append]; exact List.mem_append_left _ hd)
  have hdrop : t ∉ b.dropped := fun hb => ht (hk.dropped t hb).1
  have hcs : t ∉ cs := fun hc => ht (hk.comps t hc)
  rw [recorded, if_neg h0]
  refine ⟨⟨h.held.split, h.held.stall, h.held.done, h.held.ord, h.held.keys, ?_⟩, h.stuck, h.total⟩
  refine h.held.update ?_ (fun u hu => ?_) fun u _ => rfl
  · have hlive : Live (b.note (.recorded t)) cs d t := ⟨List.mem_cons_self, hd, fun hb => hdrop hb.1⟩
    have hwait' : t ∉ (b.note (.recorded t)).waits.map Wait.tag := hwait
    have hdrop' : t ∉ (b.note (.recorded t)).dropped := hdrop
    rw [if_pos hlive, entry, waitOf_not_mem hwait']
    simp only [hcs, hwait', hdrop', decide_false, if_false]
  · simp [Live, Books.note, hu]

theorem good_dropped (hk : Kept b cs ws) (h : Good comp b cs d p s) (t : Nat) :
    Good comp (b.note (.dropped t)) cs d p (s.1.prefetchDropped t, s.2) := by
  by_cases hnote : t ∈ b.recorded ∧ t ∉ b.waits.map Wait.tag
  · have h0 : t ≠ 0 := fun h0 => hk.tag (h0 ▸ hnote.1)
    have hd : t ∉ d.map Wait.tag :=
      fun hd => hnote.2 (by rw [h.held.split, List.map_append]; exact List.mem_append_left _ hd)
    have hb : b.note (.dropped t) = { b with dropped := t :: b.dropped } := by rw [Books.note, if_pos hnote]
    have hlive : ∀ u, u ≠ t → (Live { b with dropped := t :: b.dropped } cs d u ↔ Live b cs d u) := by
      intro u hu
      simp [Live, hu]
    have hentry : ∀ u, u ≠ t → entry comp { b with dropped := t :: b.dropped } cs u = entry comp b cs u := by
      intro u hu
      simp only [entry, List.mem_cons, hu, false_or]
      rfl
    have hcons : (entry comp b cs t).cons = false := decide_eq_false hnote.2
    rw [hb, prefetchDropped, if_neg h0, h.held.ent]
    by_cases hc : t ∈ cs
    · -- the completion came first: the entry goes now, or went with an earlier drop
      have hgone : ¬Live { b with dropped := t :: b.dropped } cs d t := fun hl => hl.2.2 ⟨List.mem_cons_self, hc⟩
      by_cases hl : Live b cs d t
      · have hdone : (entry comp b cs t).isDone = true := decide_eq_true hc
        simp only [if_pos hl, hcons, hdone, Bool.false_eq_true, if_false, if_true]
        refine ⟨⟨h.held.split, h.held.stall, h.held.done, h.held.ord, h.held.keys, ?_⟩, h.stuck, h.total⟩
        exact h.held.update (by rw [if_neg hgone]) hlive hentry
      · simp only [if_neg hl]
        refine ⟨⟨h.held.split, h.held.stall, h.held.done, h.held.ord, h.held.keys, fun u => ?_⟩, h.stuck, h.total⟩
        have heq := h.held.update (by rw [if_neg hgone]) hlive hentry u
        rwa [Function.update_eq_self_iff.mpr (by rw [h.held.ent, if_neg hl])] at heq
    · have hl : Live b cs d t := ⟨hnote.1, hd, fun hb => hc hb.2⟩
      have hl' : Live { b with dropped := t :: b.dropped } cs d t := ⟨hnote.1, hd, fun hb => hc hb.2⟩
      have hdone : (entry comp b cs t).isDone = false := decide_eq_false hc
      simp only [if_pos hl, hcons, hdone, Bool.false_eq_true, if_false]
      refine ⟨⟨h.held.split, h.held.stall, h.held.done, h.held.ord, h.held.keys, ?_⟩, h.stuck, h.total⟩
      refine h.held.update ?_ hlive hentry
      rw [if_pos hl']
      simp only [entry, List.mem_cons, true_or, hc, hnote.2, decide_true, decide_false]
      rfl
  · have hb : b.note (.dropped t) = b := by rw [Books.note, if_neg hnote]
    have hsame : s.1.prefetchDropped t = s.1 := by
      rw [prefetchDropped, h.held.ent]
      split
      next => rfl
      · by_cases hl : Live b cs d t
        · have hwait : t ∈ b.waits.map Wait.tag := by
            by_contra hno
            exact hnote ⟨hl.1, hno⟩
          have hcons : (entry comp b cs t).cons = true := decide_eq_true hwait
          simp only [if_pos hl, hcons, if_true]
        · simp only [if_neg hl]
    rw [hb, hsame]
    exact ⟨h.held, h.stuck, h.total⟩

theorem emplace_last {key : Nat × Nat} {tag : Nat} {l : List ((Nat × Nat) × Nat)}
    (h : ∀ f ∈ l, f.1.1 ≤ key.1 ∧ f.1.2 < key.2) : emplace key tag l = l ++ [(key, tag)] := by
  induction l with
  | nil => rfl
  | cons f r ih =>
    obtain ⟨h₁, h₂⟩ := h f List.mem_cons_self
    have hne : key ≠ f.1 := fun heq => by rw [heq] at h₂; exact Nat.lt_irrefl _ h₂
    have hnlt : ¬(key.1 < f.1.1 ∨ (key.1 = f.1.1 ∧ key.2 < f.1.2)) := by omega
    rw [emplace, if_neg hne, if_neg hnlt, ih fun g hg => h g (List.mem_cons_of_mem _ hg), List.cons_append]

theorem good_consumed (hk : Kept b cs ws) (h : Good comp b cs d p s) {w : Wait}
    (hk' : Kept (b.note (.consumed w)) cs (ws ++ [w])) (hlast : ∀ v ∈ ws, v.waitStart ≤ w.waitStart)
    (hdrop : w.tag ∉ b.dropped) :
    ∃ d' p', Good comp (b.note (.consumed w)) cs d' p'
      ((s.1.prefetchConsumed w).1, s.2 + (s.1.prefetchConsumed w).2) := by
  by_cases hnote : w.tag ∈ b.recorded ∧ w.tag ∉ b.waits.map Wait.tag
  · have h0 : w.tag ≠ 0 := fun h0 => hk.tag (h0 ▸ hnote.1)
    have hd : w.tag ∉ d.map Wait.tag :=
      fun hd => hnote.2 (by rw [h.held.split, List.map_append]; exact List.mem_append_left _ hd)
    have hb : b.note (.consumed w) = { b with waits := b.waits ++ [w] } := by rw [Books.note, if_pos hnote]
    have hl : Live b cs d w.tag := ⟨hnote.1, hd, fun hx => hdrop hx.1⟩
    have hl' : Live { b with waits := b.waits ++ [w] } cs d w.tag := hl
    have hcons : (entry comp b cs w.tag).cons = false := decide_eq_false hnote.2
    rw [hb] at hk' ⊢
    rw [prefetchConsumed, if_neg h0, h.held.ent, if_pos hl]
    simp only [hcons, Bool.false_eq_true, if_false]
    -- it is the last of its core's waits, so it goes last into the map
    have hlt : ∀ f ∈ s.1.ord, f.1.1 ≤ w.waitStart ∧ f.1.2 < s.1.ordSeq := by
      intro f hf
      obtain ⟨hseq, v, hv, hstart⟩ := h.held.keys f hf
      exact ⟨hstart ▸ hlast v (hk.waits v hv).2, hseq⟩
    rw [emplace_last hlt]
    refine pfDrain_good (d := d) (p := p ++ [w]) hk' ?_ h.total
    refine ⟨?_, h.held.stall, h.held.done, ?_, fun f hf => ?_, ?_⟩
    · rw [h.held.split, List.append_assoc]
    · rw [List.map_append, h.held.ord, List.map_append]
      rfl
    · rcases List.mem_append.mp hf with hf | hf
      · obtain ⟨hseq, v, hv, hstart⟩ := h.held.keys f hf
        exact ⟨Nat.lt_succ_of_lt hseq, v, List.mem_append_left _ hv, hstart⟩
      · obtain rfl := List.mem_singleton.mp hf
        exact ⟨Nat.lt_succ_self _, w, by simp, rfl⟩
    · refine h.held.update ?_ (fun u _ => Iff.rfl) fun u hu => ?_
      · have hmem : w.tag ∈ (b.waits ++ [w]).map Wait.tag := by simp
        have hwait := waitOf_mem hk'.tags (by simp : w ∈ b.waits ++ [w])
        rw [if_pos hl']
        simp only [entry, hmem, hwait, decide_true]
      · have hwait : ({ b with waits := b.waits ++ [w] } : Books).waitOf u = b.waitOf u := by
          simp [Books.waitOf, List.find?_append, Ne.symm hu]
        simp only [entry, hwait, List.map_append, List.map_singleton, List.mem_append, List.mem_singleton, hu, or_false]
  · have hb : b.note (.consumed w) = b := by rw [Books.note, if_neg hnote]
    have hsame : s.1.prefetchConsumed w = (s.1, 0) := by
      rw [prefetchConsumed, h.held.ent]
      split
      next => rfl
      · by_cases hl : Live b cs d w.tag
        · have hwait : w.tag ∈ b.waits.map Wait.tag := by
            by_contra hno
            exact hnote ⟨hl.1, hno⟩
          have hcons : (entry comp b cs w.tag).cons = true := decide_eq_true hwait
          simp only [if_pos hl, hcons, if_true]
        · simp only [if_neg hl]
    rw [hb, hsame]
    exact ⟨d, p, h.held, h.stuck, by rw [h.total]; exact Int.add_zero _⟩

theorem good_completed (hk : Kept b cs ws) (h : Good comp b cs d p s) {t : Nat} (hk' : Kept b (cs ++ [t]) ws)
    (hrec : t ∈ b.recorded) (ht : t ∉ cs) :
    ∃ d' p', Good comp b (cs ++ [t]) d' p'
      ((s.1.completed t (comp t)).1, s.2 + (s.1.completed t (comp t)).2) := by
  have h0 : t ≠ 0 := fun h0 => hk.tag (h0 ▸ hrec)
  have hlive : ∀ u, u ≠ t → (Live b (cs ++ [t]) d u ↔ Live b cs d u) := fun u hu => by simp [Live, hu]
  have hentry : ∀ u, u ≠ t → entry comp b (cs ++ [t]) u = entry comp b cs u := fun u hu => by simp [entry, hu]
  have hd : t ∉ d.map Wait.tag := by
    intro hd
    obtain ⟨w, hw, rfl⟩ := List.mem_map.mp hd
    exact ht (h.held.done w hw)
  have hdone : ∀ w ∈ d, w.tag ∈ cs ++ [t] := fun w hw => List.mem_append_left _ (h.held.done w hw)
  have hl : Live b cs d t := ⟨hrec, hd, fun hb => ht hb.2⟩
  -- a prefetch that no one waits for leaves the first wait as it is
  have hstuck : t ∉ b.waits.map Wait.tag → Stuck (cs ++ [t]) p := by
    intro hwait w r heq hin
    rcases List.mem_append.mp hin with hin | hin
    · exact h.stuck w r heq hin
    · refine hwait (List.mem_singleton.mp hin ▸ List.mem_map_of_mem ?_)
      rw [h.held.split, heq]
      simp
  rw [completed, if_neg h0, h.held.ent, if_pos hl]
  by_cases hdrop : t ∈ b.dropped
  · have hdr : (entry comp b cs t).dropped = true := decide_eq_true hdrop
    have hgone : ¬Live b (cs ++ [t]) d t := fun hl => hl.2.2 ⟨hdrop, by simp⟩
    simp only [hdr, if_true]
    refine ⟨d, p, ⟨h.held.split, h.held.stall, hdone, h.held.ord, h.held.keys, ?_⟩, hstuck (hk.dropped t hdrop).2, ?_⟩
    · exact h.held.update (by rw [if_neg hgone]) hlive hentry
    · rw [h.total]
      exact Int.add_zero _
  · have hdr : (entry comp b cs t).dropped = false := decide_eq_false hdrop
    have hl' : Live b (cs ++ [t]) d t := ⟨hrec, hd, fun hb => hdrop hb.1⟩
    have hnew : ({ entry comp b cs t with delta := (comp t).delta, isDone := true, dropped := false } : PfEnt) =
        entry comp b (cs ++ [t]) t := by
      simp [entry, hdrop]
    have hheld : Held comp b (cs ++ [t]) d p s.1.ord
        { s.1 with ent := Function.update s.1.ent t (some (entry comp b (cs ++ [t]) t)) } :=
      ⟨h.held.split, h.held.stall, hdone, h.held.ord, h.held.keys, h.held.update (by rw [if_pos hl']) hlive hentry⟩
    simp only [hnew, hdr, Bool.false_eq_true, if_false]
    split
    next => exact pfDrain_good hk' hheld h.total
    next hcons =>
      have hwait : t ∉ b.waits.map Wait.tag := fun hwait => hcons (decide_eq_true hwait)
      refine ⟨d, p, ⟨h.held.split, h.held.stall, hdone, h.held.ord, h.held.keys, hheld.ent⟩, hstuck hwait, ?_⟩
      rw [h.total]
      exact Int.add_zero _

/-! ## A run -/

theorem run_concat (evs : List Ev) (e : Ev) : run comp (evs ++ [e]) = step comp (run comp evs) e := by
  simp [run]

theorem Schedule.good (h : Schedule evs) :
    ∃ d p, Good comp (books evs) (completions evs) d p (run comp evs) := by
  induction h with
  | nil =>
    refine ⟨[], [], ⟨rfl, rfl, nofun, rfl, nofun, fun t => ?_⟩, nofun, rfl⟩
    have hl : ¬Live (books []) (completions []) [] t := fun hl => absurd hl.1 List.not_mem_nil
    rw [if_neg hl]
    rfl
  | @snoc evs e hs hallow ih =>
    obtain ⟨d, p, hg⟩ := ih
    have hk := hs.kept
    have hk' := (hs.snoc hallow).kept
    rw [run_concat]
    rcases e with c | t
    · rw [books_concat_call, completions_concat_call] at *
      cases c with
      | recorded t => exact ⟨d, p, good_recorded hk hg hallow.1 hallow.2⟩
      | consumed w => exact good_consumed hk hg (consumptions_concat evs w ▸ hk') hallow.1 hallow.2
      | dropped t => exact ⟨d, p, good_dropped hk hg t⟩
    · rw [books_concat_completed, completions_concat_completed] at *
      refine good_completed hk hg ?_ hallow.1 hallow.2
      exact ⟨hk'.tags, fun w hw => hk.waits w hw, hk'.order, hk'.dropped, hk'.comps, hk'.tag⟩

/-- Once every consumed prefetch has completed, all are settled, in order. -/
theorem Schedule.settled (h : Schedule evs) (hdone : ∀ w ∈ (books evs).waits, w.tag ∈ completions evs) :
    Good comp (books evs) (completions evs) (books evs).waits [] (run comp evs) := by
  obtain ⟨d, p, hg⟩ : ∃ d p, Good comp (books evs) (completions evs) d p (run comp evs) := h.good
  have hp : p = [] := by
    cases p with
    | nil => rfl
    | cons w r =>
      refine absurd (hdone w ?_) (hg.stuck w r rfl)
      rw [hg.held.split]
      simp
  have hd : (books evs).waits = d := by rw [hg.held.split, hp, List.append_nil]
  rw [hp, ← hd] at hg
  exact hg

/-- **Prefetches settle alike in every order.** Two orders of the same calls and of the
completions give the same total once every consumed prefetch has completed. Then each
consumed tag was settled once; a tag still has an entry if it was not consumed, and not
dropped or not completed, so none has once the others were dropped and completed; and the
charged waits grew by the length of their union. -/
theorem prefetch_settlement (h : Schedule evs) (h' : Schedule evs') (hcalls : calls evs = calls evs')
    (hdone : ∀ w ∈ (books evs).waits, w.tag ∈ completions evs)
    (hdone' : ∀ w ∈ (books evs').waits, w.tag ∈ completions evs') :
    (run comp evs).2 = (run comp evs').2 ∧
      (run comp evs).1.log.map Prod.fst = (books evs).waits.map Wait.tag ∧
      ((run comp evs).1.log.map Prod.fst).Nodup ∧
      (∀ t, (run comp evs).1.ent t ≠ none ↔
        t ∈ (books evs).recorded ∧ t ∉ (books evs).waits.map Wait.tag ∧ ¬(t ∈ (books evs).dropped ∧ t ∈ completions evs)) ∧
      ((∀ t ∈ (books evs).recorded,
          t ∈ (books evs).waits.map Wait.tag ∨ (t ∈ (books evs).dropped ∧ t ∈ completions evs)) →
        ∀ t, (run comp evs).1.ent t = none) ∧
      ((run comp evs).1.log.map Prod.snd).sum = (covered ((books evs).waits.map charged)).card := by
  have hg : Good comp (books evs) (completions evs) (books evs).waits [] (run comp evs) := h.settled hdone
  have hg' : Good comp (books evs') (completions evs') (books evs').waits [] (run comp evs') := h'.settled hdone'
  have hbooks : books evs = books evs' := by rw [books, hcalls, books]
  have htags : (after comp (books evs).waits).log.map Prod.fst = _ := after_log (books evs).waits
  refine ⟨?_, ?_, ?_, fun t => ?_, fun hall t => ?_, ?_⟩
  · rw [hg.total, hg'.total, hg.held.stall, hg'.held.stall, hbooks]
  · rw [hg.held.stall, htags]
  · rw [hg.held.stall, htags]
    exact h.kept.tags
  · rw [hg.held.ent]
    split
    next hl => exact ⟨fun _ => hl, fun _ => Option.some_ne_none _⟩
    next hl => exact ⟨fun hne => absurd rfl hne, fun hl' => absurd hl' hl⟩
  · rw [hg.held.ent, if_neg]
    intro hl
    rcases hall t hl.1 with hw | hd
    · exact hl.2.1 hw
    · exact hl.2.2 hd
  · rw [hg.held.stall]
    exact after_growth h.kept.order

/-- Two overlapping waits and a dropped line; the first prefetch completes last, or first. -/
theorem prefetch_settlement_overlap :
    let one : List Ev := [.call (.recorded 1), .call (.recorded 2), .call (.recorded 3), .call (.consumed ⟨1, 10, 20, 0⟩),
      .call (.consumed ⟨2, 12, 30, 5⟩), .call (.dropped 3), .completed 3, .completed 2, .completed 1]
    let two : List Ev := [.call (.recorded 1), .completed 1, .call (.recorded 2), .call (.recorded 3),
      .call (.consumed ⟨1, 10, 20, 0⟩), .completed 3, .completed 2, .call (.consumed ⟨2, 12, 30, 5⟩), .call (.dropped 3)]
    (run (fun _ => ⟨30, 20, false⟩) one).2 = 10 ∧
      (run (fun _ => ⟨30, 20, false⟩) one).2 = (run (fun _ => ⟨30, 20, false⟩) two).2 ∧
      ∀ t, (run (fun _ => ⟨30, 20, false⟩) one).1.ent t = none := by
  intro one two
  have hone : Schedule one :=
    (((((((((Schedule.nil.snoc (by decide)).snoc (by decide)).snoc (by decide)).snoc (by decide)).snoc (by decide)).snoc
      (by decide)).snoc (by decide)).snoc (by decide)).snoc (by decide))
  have htwo : Schedule two :=
    (((((((((Schedule.nil.snoc (by decide)).snoc (by decide)).snoc (by decide)).snoc (by decide)).snoc (by decide)).snoc
      (by decide)).snoc (by decide)).snoc (by decide)).snoc (by decide))
  have h := @prefetch_settlement (fun _ => ⟨30, 20, false⟩) one two hone htwo rfl (by decide) (by decide)
  exact ⟨by decide, h.1, h.2.2.2.2.1 (by decide)⟩

end Pimid.Dram.PfShard
