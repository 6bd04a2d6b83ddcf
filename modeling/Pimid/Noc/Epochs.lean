import Pimid.Noc.Frozen
import Pimid.Lib.Machine

/-!
# Frozen prices are the means of published epochs

Epochs are published in increasing order and nothing is added to an epoch once it is
published, so a snapshot, once taken, stays right: it holds for every pair the mean of the
last epoch that sampled it. Only the last 16 snapshots are kept.
-/

namespace Pimid.Noc

/-! ## Sums of samples -/

namespace PairAcc

variable {p : PairKey → Bool} {acc b : PairAcc} {kv : PairKey × Nat × Nat}

theorem total_cons (p : PairKey → Bool) (kv : PairKey × Nat × Nat) (acc : PairAcc) :
    total p (kv :: acc) = (if p kv.1 then kv.2 else 0) + acc.total p := by
  unfold total
  by_cases h : p kv.1 = true
  · rw [List.filter_cons_of_pos (by exact h), if_pos h, List.map_cons, List.sum_cons]
  · rw [List.filter_cons_of_neg (by exact h), if_neg h, zero_add]

theorem total_append (p : PairKey → Bool) (acc b : PairAcc) : (acc ++ b).total p = acc.total p + b.total p := by
  unfold total
  rw [List.filter_append, List.map_append, List.sum_append]

theorem total_add (p : PairKey → Bool) (acc : PairAcc) (kv : PairKey × Nat × Nat) :
    (acc.add kv).total p = acc.total p + if p kv.1 then kv.2 else 0 := by
  induction acc with
  | nil => rw [add, total_cons, add_comm]
  | cons kv' acc ih =>
    rw [add]
    split
    next h =>
      rw [total_cons, total_cons, h]
      split
      · rw [add_assoc, add_assoc, add_comm kv.2]
      · rw [add_zero]
    next => rw [total_cons, total_cons, ih, add_assoc]

theorem mem_keys_add {k : PairKey} : k ∈ (acc.add kv).map (·.1) ↔ k ∈ acc.map (·.1) ∨ k = kv.1 := by
  induction acc with
  | nil => simp [add]
  | cons kv' acc ih =>
    rw [add]
    split
    next h => simp only [List.map_cons, List.mem_cons, ← h]; tauto
    next => simp only [List.map_cons, List.mem_cons, ih]; tauto

theorem nodup_add (h : (acc.map (·.1)).Nodup) : ((acc.add kv).map (·.1)).Nodup := by
  induction acc with
  | nil => exact List.nodup_singleton _
  | cons kv' acc ih =>
    rw [List.map_cons, List.nodup_cons] at h
    rw [add]
    split
    next => exact List.nodup_cons.mpr h
    next hne =>
      rw [List.map_cons, List.nodup_cons]
      refine ⟨fun hm => ?_, ih h.2⟩
      rcases mem_keys_add.mp hm with hm | hm
      · exact h.1 hm
      · exact hne hm

theorem total_foldl_add (p : PairKey → Bool) (acc b : PairAcc) :
    PairAcc.total p (b.foldl add acc) = acc.total p + b.total p := by
  induction b generalizing acc with
  | nil => exact (add_zero _).symm
  | cons kv b ih => rw [List.foldl_cons, ih, total_add, total_cons, add_assoc]

theorem nodup_foldl_add (h : (acc.map (·.1)).Nodup) : ((b.foldl add acc).map (·.1)).Nodup := by
  induction b generalizing acc with
  | nil => exact h
  | cons kv b ih => exact ih (nodup_add h)

theorem total_eq_zero {k : PairKey} (h : k ∉ acc.map (·.1)) : acc.total (· = k) = 0 := by
  unfold total
  rw [List.filter_eq_nil_iff.mpr]
  · rfl
  · intro x hx he
    rw [decide_eq_true_eq] at he
    exact h (he ▸ List.mem_map_of_mem hx)

end PairAcc

/-- A pair of the table. -/
def PairKey.InTable (n : Nat) (k : PairKey) : Prop := k.src < n ∧ k.dst < n

/-- The table after one epoch's means: the sampled pairs take theirs. -/
theorem foldl_storeMean {n : Nat} {acc : PairAcc} (h : (acc.map (·.1)).Nodup) (tab : PairKey → Nat) {k : PairKey}
    (hk : k.InTable n) :
    acc.foldl (Frozen.storeMean n) tab k
      = if (acc.total (· = k)).2 ≠ 0 then mean (acc.total (· = k)) else tab k := by
  induction acc generalizing tab with
  | nil => rfl
  | cons kv acc ih =>
    rw [List.map_cons, List.nodup_cons] at h
    rw [List.foldl_cons, ih h.2, PairAcc.total_cons]
    by_cases he : kv.1 = k
    · subst he
      rw [PairAcc.total_eq_zero h.1]
      have hin : ¬ (kv.1.src ≥ n ∨ kv.1.dst ≥ n) := by
        obtain ⟨h₁, h₂⟩ := hk
        omega
      by_cases hz : kv.2.2 = 0
      · simp [Frozen.storeMean, hz]
      · simp [Frozen.storeMean, hz, hin]
    · have hother : Frozen.storeMean n tab kv k = tab k := by
        unfold Frozen.storeMean
        split
        · rfl
        · split
          · rfl
          · exact if_neg (Ne.symm he)
      rw [hother, decide_eq_false he, if_neg Bool.false_ne_true, zero_add]

/-! ## The last 16 snapshots -/

open Std (TreeMap)

theorem evict_toList {l : List (Nat × FrozenSnap)} {m : TreeMap Nat FrozenSnap} (h : m.toList = l) :
    (Frozen.evict l m).toList = l.drop (l.length - 16) := by
  induction l generalizing m with
  | nil => rw [Frozen.evict, h]; rfl
  | cons kv l ih =>
    have hsize : m.size = l.length + 1 := by
      rw [← TreeMap.length_toList, h, List.length_cons]
    rw [Frozen.evict]
    split
    next hgt =>
      rw [ih (toList_erase_head h), List.length_cons, show l.length + 1 - 16 = (l.length - 16) + 1 by omega]
      rfl
    next hle =>
      rw [h, List.length_cons, show l.length + 1 - 16 = 0 by omega]
      rfl

theorem drop_snoc {α : Type} (l : List α) (x : α) :
    (l.drop (l.length - 16) ++ [x]).drop ((l.drop (l.length - 16) ++ [x]).length - 16)
      = (l ++ [x]).drop ((l ++ [x]).length - 16) := by
  have hlen : l.length - 16 ≤ l.length := by omega
  have hout : l.drop (l.length - 16) ++ [x] = (l ++ [x]).drop (l.length - 16) := (List.drop_append_of_le_length hlen).symm
  rw [hout, List.drop_drop]
  congr 1
  simp only [List.length_drop, List.length_append, List.length_singleton]
  omega

/-! ## Prices -/

variable {g : FrozenLog} {p : PairKey → Bool} {base e : Nat}

/-- Prices agree where the epochs they are taken from and their samples do. -/
theorem FrozenLog.price_congr {g g' : FrozenLog} {e' : Nat}
    (hpub : g'.published.filter (· ≤ e') = g.published.filter (· ≤ e))
    (hs : ∀ ep ∈ g.published, ep ≤ e → g'.samples ep = g.samples ep) : g'.price p base e' = g.price p base e := by
  have hsplit : ∀ (h : FrozenLog) (e : Nat),
      (h.published.filter fun ep => ep ≤ e ∧ ((h.samples ep).total p).2 ≠ 0)
        = (h.published.filter (· ≤ e)).filter fun ep => ((h.samples ep).total p).2 ≠ 0 := by
    intro h e
    rw [List.filter_filter]
    refine List.filter_congr fun ep _ => ?_
    rw [Bool.decide_and, Bool.and_comm]
  have hlist : (g'.published.filter (· ≤ e')).filter (fun ep => ((g'.samples ep).total p).2 ≠ 0)
      = (g.published.filter (· ≤ e)).filter fun ep => ((g.samples ep).total p).2 ≠ 0 := by
    rw [hpub]
    refine List.filter_congr fun ep hep => ?_
    simp only [List.mem_filter, decide_eq_true_eq] at hep
    rw [hs ep hep.1 hep.2]
  unfold FrozenLog.price
  rw [hsplit, hsplit, hlist]
  split
  next ep hep =>
    have := List.mem_of_getLast? hep
    simp only [List.mem_filter, decide_eq_true_eq] at this
    rw [hs ep this.1.1 this.1.2]
  next => rfl

theorem FrozenLog.price_publish {ep : Nat} (hep : ep ≤ e) :
    (⟨g.landed, g.published ++ [ep]⟩ : FrozenLog).price p base e
      = if ((g.samples ep).total p).2 ≠ 0 then mean ((g.samples ep).total p) else g.price p base e := by
  have hsame : ∀ q, (⟨g.landed, g.published ++ [ep]⟩ : FrozenLog).samples q = g.samples q := fun _ => rfl
  unfold FrozenLog.price
  simp only [hsame, List.filter_append]
  by_cases hz : ((g.samples ep).total p).2 ≠ 0
  · rw [if_pos hz, List.filter_cons_of_pos (by simp [hep, hz])]
    simp
  · rw [if_neg hz, List.filter_cons_of_neg (by simp [hz])]
    simp

/-- The prices of epoch `e`, as far as the table goes. -/
structure Priced (n : Nat) (boot : FrozenSnap) (g : FrozenLog) (e : Nat) (sn : FrozenSnap) : Prop where
  pair : ∀ k : PairKey, k.InTable n → sn.pair k = g.pairPrice boot e k
  avg : sn.avg = g.avgPrice boot e

theorem Priced.congr {n : Nat} {boot sn : FrozenSnap} {g g' : FrozenLog} {e e' : Nat}
    (h : Priced n boot g e sn) (heq : ∀ p base, g'.price p base e' = g.price p base e) : Priced n boot g' e' sn :=
  ⟨fun k hk => (h.pair k hk).trans (heq _ _).symm, h.avg.trans (heq _ _).symm⟩

/-- The table as it stands. -/
def Frozen.current (s : Frozen) : FrozenSnap := ⟨s.pairLat, s.batchAvgLatency⟩

/-! ## What every run keeps -/

/-- After a run with the log `g`: what is held back is of epochs past the published ones,
and the table and the snapshots have the prices of their epochs. -/
structure FrozenInv (n ph : Nat) (boot : FrozenSnap) (s : Frozen) (g : FrozenLog) : Prop where
  size : s.pairLatN = n
  phases : s.phases = ph
  axis : s.cutAxis = true
  base : s.bootSnap = boot
  held : ∀ (ep : Nat) (a : PairAcc), s.epochPairAcc[ep]? = some a →
    (a.map (·.1)).Nodup ∧ (∀ p, a.total p = (g.samples ep).total p) ∧ ∀ q ∈ g.published, q < ep
  landed : ∀ x ∈ g.landed, x.1 ∈ g.published ∨ ∃ a, s.epochPairAcc[x.1]? = some a
  order : g.published.Pairwise (· < ·)
  unpublished : s.anyPublished = false → g.published = []
  last : ∀ q ∈ g.published, q ≤ s.lastPublishedEpoch
  table : ∀ e, (∀ q ∈ g.published, q ≤ e) → Priced n boot g e s.current
  keys : s.snaps.toList.map (·.1) = g.published.drop (g.published.length - 16)
  snap : ∀ kv ∈ s.snaps.toList, Priced n boot g kv.1 kv.2

variable {n ph : Nat} {boot : FrozenSnap} {s : Frozen}

theorem frozenInv_start (s : Frozen) :
    FrozenInv s.pairLatN s.phases s.current s.enterCutAxis ⟨[], []⟩ where
  size := rfl
  phases := rfl
  axis := rfl
  base := rfl
  held := fun ep a h => absurd h (by simp [Frozen.enterCutAxis])
  landed := fun x hx => absurd hx (by simp)
  order := List.Pairwise.nil
  unpublished := fun _ => rfl
  last := fun q hq => absurd hq (by simp)
  table := fun e _ => ⟨fun k _ => rfl, rfl⟩
  keys := rfl
  snap := fun kv hkv => absurd (show kv ∈ [] from hkv) List.not_mem_nil

/-- A drained phase is added past everything published. -/
theorem FrozenInv.lt_landing (h : FrozenInv n ph boot s g) (phaseNum : Nat) {q : Nat} (hq : q ∈ g.published) :
    q < s.landing phaseNum := by
  have hlast := h.last q hq
  unfold Frozen.landing
  split
  next => omega
  next hnot =>
    rw [h.axis] at hnot
    by_cases ha : s.anyPublished = true
    · simp only [ha, true_and, not_le] at hnot
      omega
    · rw [h.unpublished (by simpa using ha)] at hq
      exact absurd hq (by simp)

theorem samples_landed {x : Nat × PairAcc} {ep : Nat} :
    (⟨g.landed ++ [x], g.published⟩ : FrozenLog).samples ep
      = g.samples ep ++ if x.1 = ep then x.2 else [] := by
  unfold FrozenLog.samples
  rw [List.filter_append, List.flatMap_append]
  congr 1
  by_cases hx : x.1 = ep
  · simp [hx]
  · simp [hx]

theorem FrozenInv.accumulate (h : FrozenInv n ph boot s g) (phaseNum : Nat) {b : PairAcc}
    (hb : (b.total fun _ => true).2 > 0) :
    FrozenInv n ph boot (s.accumulate phaseNum b) ⟨g.landed ++ [(s.landing phaseNum, b)], g.published⟩ := by
  have hlt := fun {q} => h.lt_landing phaseNum (q := q)
  rw [Frozen.accumulate, if_pos hb]
  -- no published epoch gets new samples
  have hsame : ∀ ep ∈ g.published,
      (⟨g.landed ++ [(s.landing phaseNum, b)], g.published⟩ : FrozenLog).samples ep = g.samples ep := by
    intro ep hep
    rw [samples_landed, if_neg (hlt hep).ne', List.append_nil]
  have hprice : ∀ e p base, (⟨g.landed ++ [(s.landing phaseNum, b)], g.published⟩ : FrozenLog).price p base e
      = g.price p base e := fun e p base =>
    FrozenLog.price_congr rfl fun ep hep _ => hsame ep hep
  refine { h with held := fun ep a ha => ?_, landed := fun x hx => ?_, table := fun e he => ?_, snap := fun kv hkv => ?_ }
  · rw [getElem?_insert_eq] at ha
    by_cases hep : ep = s.landing phaseNum
    · subst hep
      rw [if_pos rfl] at ha
      obtain rfl := Option.some.inj ha
      have hold : ((s.epochPairAcc.getD (s.landing phaseNum) []).map (·.1)).Nodup
          ∧ ∀ p, (s.epochPairAcc.getD (s.landing phaseNum) []).total p = (g.samples (s.landing phaseNum)).total p := by
        rw [Std.TreeMap.getD_eq_getD_getElem?]
        cases hc : s.epochPairAcc[s.landing phaseNum]? with
        | some a => exact ⟨(h.held _ a hc).1, (h.held _ a hc).2.1⟩
        | none =>
          -- nothing was added to this epoch before
          have hnil : g.samples (s.landing phaseNum) = [] := by
            unfold FrozenLog.samples
            rw [List.filter_eq_nil_iff.mpr, List.flatMap_nil]
            intro x hx he
            rw [decide_eq_true_eq] at he
            rcases h.landed x hx with hp | ⟨a, ha⟩
            · exact absurd (hlt hp) (by omega)
            · rw [he, hc] at ha
              exact absurd ha (by simp)
          rw [hnil]
          exact ⟨List.nodup_nil, fun p => rfl⟩
      refine ⟨PairAcc.nodup_foldl_add hold.1, fun p => ?_, fun q hq => hlt hq⟩
      rw [samples_landed, if_pos rfl, PairAcc.total_append, PairAcc.total_foldl_add, hold.2]
    · rw [if_neg hep] at ha
      obtain ⟨hnd, htot, hgt⟩ := h.held ep a ha
      refine ⟨hnd, fun p => ?_, hgt⟩
      rw [samples_landed, if_neg (Ne.symm hep), List.append_nil]
      exact htot p
  · rcases List.mem_append.mp hx with hx | hx
    · rcases h.landed x hx with hp | ⟨a, ha⟩
      · exact .inl hp
      · right
        by_cases hep : x.1 = s.landing phaseNum
        · rw [hep]
          exact ⟨_, getElem?_insert_same _ _ _⟩
        · exact ⟨a, (getElem?_insert_other _ hep).trans ha⟩
    · rw [List.mem_singleton.mp hx]
      exact .inr ⟨_, getElem?_insert_same _ _ _⟩
  · exact (h.table e he).congr (hprice e)
  · exact (h.snap kv hkv).congr (hprice kv.1)

/-- The first epoch held back is published: everything else held back is later. -/
theorem FrozenInv.publishEpoch (h : FrozenInv n ph boot s g) {kv : Nat × PairAcc} {rest : List (Nat × PairAcc)}
    (hl : s.epochPairAcc.toList = kv :: rest) :
    FrozenInv n ph boot (s.publishEpoch kv) ⟨g.landed, g.published ++ [kv.1]⟩ := by
  have hkv : s.epochPairAcc[kv.1]? = some kv.2 :=
    Std.TreeMap.mem_toList_iff_getElem?_eq_some.mp (by rw [hl]; exact List.mem_cons_self)
  obtain ⟨hnd, htot, hgt⟩ := h.held kv.1 kv.2 hkv
  have hfirst := toList_pairwise_lt s.epochPairAcc
  rw [hl, List.pairwise_cons] at hfirst
  -- the table after this epoch's means
  have htable : ∀ e, kv.1 ≤ e → (∀ q ∈ g.published, q ≤ e) →
      Priced n boot ⟨g.landed, g.published ++ [kv.1]⟩ e (s.publishEpoch kv).current := by
    intro e hep he
    refine ⟨fun k hk => ?_, ?_⟩
    · rw [FrozenLog.pairPrice, FrozenLog.price_publish hep, ← htot]
      show kv.2.foldl (Frozen.storeMean s.pairLatN) s.pairLat k = _
      rw [h.size, foldl_storeMean hnd _ hk]
      split
      · rfl
      · exact (h.table e he).pair k hk
    · rw [FrozenLog.avgPrice, FrozenLog.price_publish hep, ← htot]
      show (if (kv.2.total fun _ => true).2 ≠ 0 then mean (kv.2.total fun _ => true) else s.batchAvgLatency) = _
      split
      · rfl
      · exact (h.table e he).avg
  -- the new snapshot is the last one
  have hsnaps : (s.publishEpoch kv).snaps.toList
      = (s.snaps.toList ++ [(kv.1, (s.publishEpoch kv).current)]).drop
        ((s.snaps.toList ++ [(kv.1, (s.publishEpoch kv).current)]).length - 16) := by
    have hins : (s.snaps.insert kv.1 (s.publishEpoch kv).current).toList
        = s.snaps.toList ++ [(kv.1, (s.publishEpoch kv).current)] := by
      refine toList_insert_last fun x hx => hgt x.1 ?_
      have : x.1 ∈ s.snaps.toList.map (·.1) := List.mem_map_of_mem hx
      rw [h.keys] at this
      exact List.mem_of_mem_drop this
    rw [← hins, ← evict_toList rfl]
    simp only [Frozen.publishEpoch, Frozen.current, h.axis, if_true]
  refine
    { size := h.size
      phases := h.phases
      axis := h.axis
      base := h.base
      held := fun ep a ha => ?_
      landed := fun x hx => ?_
      order := ?_
      unpublished := fun hn => ?_
      last := fun q hq => ?_
      table := fun e he => htable e (he kv.1 (by simp)) fun q hq => he q (by simp [hq])
      keys := ?_
      snap := fun x hx => ?_ }
  · have ha : (s.epochPairAcc.erase kv.1)[ep]? = some a := ha
    rw [getElem?_erase_eq] at ha
    split at ha
    next => exact absurd ha (by simp)
    next hne =>
      obtain ⟨hnd, htot, hgt⟩ := h.held ep a ha
      refine ⟨hnd, htot, fun q hq => ?_⟩
      rcases List.mem_append.mp hq with hq | hq
      · exact hgt q hq
      · rw [List.mem_singleton.mp hq]
        have hmem : (ep, a) ∈ kv :: rest := by
          rw [← hl]
          exact Std.TreeMap.mem_toList_iff_getElem?_eq_some.mpr ha
        rcases List.mem_cons.mp hmem with he | hr
        · exact absurd (congrArg Prod.fst he) hne
        · exact hfirst.1 _ hr
  · show x.1 ∈ g.published ++ [kv.1] ∨ ∃ a, (s.epochPairAcc.erase kv.1)[x.1]? = some a
    rcases h.landed x hx with hp | ⟨a, ha⟩
    · exact .inl (List.mem_append_left _ hp)
    · by_cases hx : x.1 = kv.1
      · exact .inl (by simp [hx])
      · exact .inr ⟨a, by rw [getElem?_erase_eq, if_neg hx, ha]⟩
  · rw [List.pairwise_append]
    refine ⟨h.order, List.pairwise_singleton _ _, fun q hq r hr => ?_⟩
    rw [List.mem_singleton.mp hr]
    exact hgt q hq
  · simp [Frozen.publishEpoch, h.axis] at hn
  · have hlast : (s.publishEpoch kv).lastPublishedEpoch = kv.1 := by simp [Frozen.publishEpoch, h.axis]
    rw [hlast]
    rcases List.mem_append.mp hq with hq | hq
    · exact (hgt q hq).le
    · exact (List.mem_singleton.mp hq).le
  · rw [hsnaps, List.map_drop, List.map_append, h.keys]
    rw [← drop_snoc, ← h.keys]
    simp
  · rw [hsnaps] at hx
    rcases List.mem_append.mp (List.mem_of_mem_drop hx) with hx | hx
    · refine (h.snap x hx).congr fun p base => FrozenLog.price_congr ?_ fun ep _ _ => rfl
      have hlt : x.1 < kv.1 := by
        have : x.1 ∈ s.snaps.toList.map (·.1) := List.mem_map_of_mem hx
        rw [h.keys] at this
        exact hgt x.1 (List.mem_of_mem_drop this)
      rw [List.filter_append, List.filter_cons_of_neg (by simpa using hlt), List.filter_nil, List.append_nil]
    · rw [List.mem_singleton.mp hx]
      exact htable kv.1 (Nat.le_refl _) fun q hq => (hgt q hq).le

/-- Publication leaves nothing up to the last complete epoch. -/
theorem FrozenInv.publishLoop (h : FrozenInv n ph boot s g) (lastEpoch : Nat) {l : List (Nat × PairAcc)}
    (hl : s.epochPairAcc.toList = l) :
    FrozenInv n ph boot (Frozen.publishLoop lastEpoch l s).1
        ⟨g.landed, g.published ++ (Frozen.publishLoop lastEpoch l s).2⟩
      ∧ ∀ x ∈ (Frozen.publishLoop lastEpoch l s).1.epochPairAcc.toList, lastEpoch < x.1 := by
  induction l generalizing s g with
  | nil =>
    simp only [Frozen.publishLoop, List.append_nil]
    refine ⟨h, fun x hx => ?_⟩
    rw [hl] at hx
    exact absurd hx List.not_mem_nil
  | cons kv rest ih =>
    rw [Frozen.publishLoop]
    split
    next hle =>
      have hrest : (s.publishEpoch kv).epochPairAcc.toList = rest := toList_erase_head hl
      have := ih (h.publishEpoch hl) hrest
      simp only [List.append_assoc, List.singleton_append] at this
      exact this
    next hgt =>
      simp only [List.append_nil]
      refine ⟨h, fun x hx => ?_⟩
      have hord := toList_pairwise_lt s.epochPairAcc
      rw [hl, List.pairwise_cons] at hord
      rw [hl] at hx
      rcases List.mem_cons.mp hx with rfl | hx
      · omega
      · have := hord.1 x hx
        omega

/-! ## Reads -/

theorem snapFor_fst (s : Frozen) (e : Int) :
    ∃ c d, (s.snapFor e).1 = { s with keyedReads := c, staleReads := d } := by
  unfold Frozen.snapFor
  simp only
  split
  · exact ⟨_, _, rfl⟩
  · split
    · exact ⟨_, _, rfl⟩
    · split <;> exact ⟨_, _, rfl⟩

theorem FrozenInv.read (h : FrozenInv n ph boot s g) (e : Int) : FrozenInv n ph boot (s.snapFor e).1 g := by
  obtain ⟨c, d, he⟩ := snapFor_fst s e
  rw [he]
  exact ⟨h.size, h.phases, h.axis, h.base, h.held, h.landed, h.order, h.unpublished, h.last, h.table, h.keys, h.snap⟩

/-- Before the first published epoch the baseline holds. -/
theorem priced_boot (hnone : ∀ q ∈ g.published, ¬ q ≤ e) : Priced n boot g e boot := by
  have hnil : ∀ p : PairKey → Bool,
      (g.published.filter fun ep => ep ≤ e ∧ ((g.samples ep).total p).2 ≠ 0) = [] := fun p =>
    List.filter_eq_nil_iff.mpr fun q hq he => hnone q hq (of_decide_eq_true he).1
  refine ⟨fun k _ => ?_, ?_⟩
  · rw [FrozenLog.pairPrice, FrozenLog.price, hnil]
    rfl
  · rw [FrozenLog.avgPrice, FrozenLog.price, hnil]
    rfl

/-- An epoch whose snapshot is gone comes before every snapshot there is. -/
theorem FrozenInv.lt_of_dropped (h : FrozenInv n ph boot s g) {q r : Nat} (hq : q ∈ g.published)
    (hgone : q ∉ s.snaps.toList.map (·.1)) (hr : r ∈ s.snaps.toList.map (·.1)) : q < r := by
  rw [h.keys] at hgone hr
  have hord := h.order
  rw [← List.take_append_drop (g.published.length - 16) g.published] at hord hq
  rw [List.pairwise_append] at hord
  rcases List.mem_append.mp hq with hq | hq
  · exact hord.2.2 q hq r hr
  · exact absurd hq hgone

/-- The last snapshot not past `e`. -/
def Frozen.lastSnap (s : Frozen) (e : Nat) : Option (Nat × FrozenSnap) :=
  (s.snaps.toList.filter fun kv => kv.1 ≤ e).getLast?

theorem lastSnap_of_exact {sn : FrozenSnap} (h : s.snaps[e]? = some sn) : s.lastSnap e = some (e, sn) := by
  obtain ⟨pre, post, hl⟩ := List.append_of_mem (Std.TreeMap.mem_toList_iff_getElem?_eq_some.mpr h)
  have hord := toList_pairwise_lt s.snaps
  rw [hl, List.pairwise_append, List.pairwise_cons] at hord
  have hpost : (post.filter fun kv => kv.1 ≤ e) = [] :=
    List.filter_eq_nil_iff.mpr fun x hx he => by
      have hlt := hord.2.1.1 x hx
      have hle := of_decide_eq_true he
      simp only at hlt hle
      omega
  unfold Frozen.lastSnap
  rw [hl, List.filter_append, List.filter_cons_of_pos (by simp), hpost]
  exact List.getLast?_concat

/-- A read is from the last snapshot not past the epoch, or from the baseline. -/
theorem snapFor_snd (s : Frozen) (e : Nat) : (s.snapFor e).2 = ((s.lastSnap e).map (·.2)).getD s.bootSnap := by
  unfold Frozen.snapFor
  simp only [Int.toNat_natCast]
  split
  next hhead =>
    rw [Frozen.lastSnap, List.head?_eq_none_iff.mp hhead]
    rfl
  next first hhead =>
    obtain ⟨rest, hl⟩ := List.head?_eq_some_iff.mp hhead
    split
    next hlt =>
      have hsorted := toList_pairwise_lt s.snaps
      have hnil : (s.snaps.toList.filter fun kv => kv.1 ≤ e) = [] := by
        refine List.filter_eq_nil_iff.mpr fun x hx he => ?_
        have hle := of_decide_eq_true he
        rw [hl, List.pairwise_cons] at hsorted
        rw [hl] at hx
        rcases List.mem_cons.mp hx with rfl | hx
        · omega
        · have := hsorted.1 x hx
          omega
      rw [Frozen.lastSnap, hnil]
      rfl
    next =>
      split
      next sn hsn =>
        rw [lastSnap_of_exact hsn]
        rfl
      next => rfl

/-- The snapshot an epoch is read from has the epoch's prices, as long as it is kept. -/
theorem FrozenInv.priced_snapFor (h : FrozenInv n ph boot s g)
    (hfew : (g.published.filter (e < ·)).length ≤ 15) : Priced n boot g e (s.snapFor e).2 := by
  rw [snapFor_snd]
  cases hlast : s.lastSnap e with
  | some kv =>
    obtain ⟨pre, hpre⟩ := List.getLast?_eq_some_iff.mp hlast
    have hin : kv ∈ s.snaps.toList ∧ kv.1 ≤ e := by
      have := List.mem_of_getLast? hlast
      simpa using this
    -- no epoch was published between that snapshot's and `e`
    have hup : ∀ q ∈ g.published, q ≤ e → q ≤ kv.1 := by
      intro q hq hle
      by_cases hk : q ∈ s.snaps.toList.map (·.1)
      · obtain ⟨x, hx, rfl⟩ := List.mem_map.mp hk
        have hx' : x ∈ s.snaps.toList.filter fun kv => kv.1 ≤ e := List.mem_filter.mpr ⟨hx, decide_eq_true hle⟩
        have hord : (s.snaps.toList.filter fun kv => kv.1 ≤ e).Pairwise fun x y => x.1 < y.1 :=
          (toList_pairwise_lt s.snaps).filter _
        rw [hpre] at hx' hord
        rw [List.pairwise_append] at hord
        rcases List.mem_append.mp hx' with hx' | hx'
        · exact (hord.2.2 x hx' kv (by simp)).le
        · rw [List.mem_singleton.mp hx']
      · exact (h.lt_of_dropped hq hk (List.mem_map_of_mem hin.1)).le
    refine (h.snap kv hin.1).congr fun p base => FrozenLog.price_congr ?_ fun _ _ _ => rfl
    refine List.filter_congr fun q hq => decide_eq_decide.mpr ⟨hup q hq, fun hle => ?_⟩
    exact hle.trans hin.2
  | none =>
    show Priced n boot g e s.bootSnap
    rw [h.base]
    refine priced_boot fun q hq hle => ?_
    -- every snapshot is past `e`, so that of `q` is gone and 16 later ones are kept
    have hall : ∀ r ∈ g.published.drop (g.published.length - 16), e < r := by
      intro r hr
      rw [← h.keys] at hr
      obtain ⟨x, hx, rfl⟩ := List.mem_map.mp hr
      have := List.filter_eq_nil_iff.mp (List.getLast?_eq_none_iff.mp hlast) x hx
      simpa using this
    have hlong : 16 < g.published.length := by
      by_contra hshort
      rw [show g.published.length - 16 = 0 by omega, List.drop_zero] at hall
      have := hall q hq
      omega
    have hself : (g.published.drop (g.published.length - 16)).filter (e < ·)
        = g.published.drop (g.published.length - 16) :=
      List.filter_eq_self.mpr fun r hr => decide_eq_true (hall r hr)
    have hsub : (g.published.drop (g.published.length - 16)).Sublist (g.published.filter (e < ·)) := by
      rw [← hself]
      exact (List.drop_sublist _ _).filter _
    have hlen := hsub.length_le
    rw [List.length_drop] at hlen
    omega

/-! ## Runs -/

open FrozenOp (next run)

variable {x : Frozen × FrozenLog}

theorem FrozenInv.publishCompleted (h : FrozenInv n ph boot s g) (q : Nat) :
    FrozenInv n ph boot (s.publishCompletedEpochs q).1 ⟨g.landed, g.published ++ (s.publishCompletedEpochs q).2⟩ := by
  unfold Frozen.publishCompletedEpochs
  split
  · rw [List.append_nil]
    exact h
  · exact (h.publishLoop _ rfl).1

theorem FrozenInv.next (h : FrozenInv n ph boot x.1 x.2) (op : FrozenOp) :
    FrozenInv n ph boot (next x op).1 (next x op).2 := by
  cases op with
  | drain phaseNum b =>
    simp only [FrozenOp.next, FrozenOp.step, List.append_nil]
    by_cases hb : (b.total fun _ => true).2 > 0
    · rw [if_pos hb]
      exact h.accumulate phaseNum hb
    · rw [if_neg hb, List.append_nil, Frozen.accumulate, if_neg hb]
      exact h
  | publish q =>
    simp only [FrozenOp.next, FrozenOp.step, List.append_nil]
    exact h.publishCompleted q
  | readPair e k =>
    simp only [FrozenOp.next, FrozenOp.step, List.append_nil]
    exact h.read e
  | readAvg e =>
    simp only [FrozenOp.next, FrozenOp.step, List.append_nil]
    exact h.read e

theorem frozenInv_run (s : Frozen) (ops : List FrozenOp) :
    FrozenInv s.pairLatN s.phases s.current (run s ops).1 (run s ops).2 :=
  (along_of_forall (P := fun _ _ => True) (fun _ _ => trivial) _ ops).keeps
    (I := fun x : Frozen × FrozenLog => FrozenInv s.pairLatN s.phases s.current x.1 x.2)
    (fun _ op h _ => h.next op) (frozenInv_start s)

/-! ## Complete epochs -/

/-- The step adds no samples to an epoch up to `e`. -/
def AddsAfter (e : Nat) (x : Frozen × FrozenLog) (op : FrozenOp) : Prop := ∀ y ∈ (op.step x.1).2.landed, e < y.1

instance (e : Nat) (x : Frozen × FrozenLog) (op : FrozenOp) : Decidable (AddsAfter e x op) :=
  inferInstanceAs (Decidable (∀ y ∈ (op.step x.1).2.landed, e < y.1))

theorem publishLoop_sub (lastEpoch : Nat) {l : List (Nat × PairAcc)} (hl : s.epochPairAcc.toList = l) :
    (∀ ep ∈ (Frozen.publishLoop lastEpoch l s).2, ep ∈ l.map (·.1))
      ∧ ∀ y ∈ (Frozen.publishLoop lastEpoch l s).1.epochPairAcc.toList, y ∈ l := by
  induction l generalizing s with
  | nil => simp [Frozen.publishLoop, hl]
  | cons kv rest ih =>
    rw [Frozen.publishLoop]
    split
    next =>
      have hrest : (s.publishEpoch kv).epochPairAcc.toList = rest := toList_erase_head hl
      obtain ⟨h₁, h₂⟩ := ih hrest
      refine ⟨fun ep hep => ?_, fun y hy => List.mem_cons_of_mem _ (h₂ y hy)⟩
      rcases List.mem_cons.mp hep with rfl | hep
      · exact List.mem_cons_self
      · exact List.mem_cons_of_mem _ (h₁ ep hep)
    next => exact ⟨fun ep hep => absurd hep List.not_mem_nil, fun y hy => hl ▸ hy⟩

/-- Nothing up to `e` is held back, and since `g₀` nothing was added or published there. -/
structure Closed (e : Nat) (g₀ : FrozenLog) (s : Frozen) (g : FrozenLog) : Prop where
  beyond : ∀ y ∈ s.epochPairAcc.toList, e < y.1
  published : g.published.filter (· ≤ e) = g₀.published.filter (· ≤ e)
  samples : ∀ ep ≤ e, g.samples ep = g₀.samples ep

theorem Closed.next {g₀ : FrozenLog} (h : Closed e g₀ x.1 x.2) {op : FrozenOp} (ha : AddsAfter e x op) :
    Closed e g₀ (next x op).1 (next x op).2 := by
  have hread : ∀ i, Closed e g₀ (x.1.snapFor i).1 x.2 := by
    intro i
    obtain ⟨c, d, he⟩ := snapFor_fst x.1 i
    rw [he]
    exact ⟨h.beyond, h.published, h.samples⟩
  cases op with
  | drain phaseNum b =>
    simp only [FrozenOp.next, FrozenOp.step, List.append_nil]
    by_cases hb : (b.total fun _ => true).2 > 0
    · have hlt : e < x.1.landing phaseNum := ha (x.1.landing phaseNum, b) (by simp [FrozenOp.step, hb])
      rw [if_pos hb]
      refine ⟨fun y hy => ?_, h.published, fun ep hep => ?_⟩
      · rw [Frozen.accumulate, if_pos hb, Std.TreeMap.mem_toList_iff_getElem?_eq_some, getElem?_insert_eq] at hy
        split at hy
        next he => omega
        next => exact h.beyond y (Std.TreeMap.mem_toList_iff_getElem?_eq_some.mpr hy)
      · rw [samples_landed, if_neg (by simp only; omega), List.append_nil]
        exact h.samples ep hep
    · rw [if_neg hb, List.append_nil, Frozen.accumulate, if_neg hb]
      exact ⟨h.beyond, h.published, h.samples⟩
  | publish q =>
    simp only [FrozenOp.next, FrozenOp.step, List.append_nil]
    unfold Frozen.publishCompletedEpochs
    split
    next =>
      rw [List.append_nil]
      exact ⟨h.beyond, h.published, h.samples⟩
    next =>
      obtain ⟨hpub, hheld⟩ := publishLoop_sub ((q + 1) / x.1.phases - 1) (s := x.1) rfl
      refine ⟨fun y hy => h.beyond y (hheld y hy), ?_, h.samples⟩
      have hnone : (Frozen.publishLoop ((q + 1) / x.1.phases - 1) x.1.epochPairAcc.toList x.1).2.filter (· ≤ e)
          = [] := by
        refine List.filter_eq_nil_iff.mpr fun ep hep hle => ?_
        obtain ⟨y, hy, rfl⟩ := List.mem_map.mp (hpub ep hep)
        have := h.beyond y hy
        rw [decide_eq_true_eq] at hle
        omega
      rw [List.filter_append, hnone, List.append_nil]
      exact h.published
  | readPair i k =>
    simp only [FrozenOp.next, FrozenOp.step, List.append_nil]
    exact hread i
  | readAvg i =>
    simp only [FrozenOp.next, FrozenOp.step, List.append_nil]
    exact hread i

/-- A publication closes the epochs it finds complete. -/
theorem closed_publish (h : FrozenInv n ph boot x.1 x.2) {q : Nat} (hq : e + 1 ≤ (q + 1) / ph) :
    Closed e (next x (.publish q)).2 (next x (.publish q)).1 (next x (.publish q)).2 := by
  refine ⟨?_, rfl, fun _ _ => rfl⟩
  have hph : x.1.phases = ph := h.phases
  have hlt : ¬ q + 1 < x.1.phases := by
    intro hlt
    rw [Nat.div_eq_of_lt (hph ▸ hlt)] at hq
    omega
  simp only [FrozenOp.next, FrozenOp.step, Frozen.publishCompletedEpochs, if_neg hlt]
  intro y hy
  have := (h.publishLoop ((q + 1) / x.1.phases - 1) rfl).2 y hy
  rw [hph] at this
  omega

theorem published_sublist (x : Frozen × FrozenLog) (ops : List FrozenOp) :
    x.2.published.Sublist (ops.foldl next x).2.published := by
  induction ops generalizing x with
  | nil => exact .refl _
  | cons op ops ih => exact (List.sublist_append_left _ _).trans (ih (next x op))

theorem FrozenInv.reads (h : FrozenInv n ph boot s g) (hfew : (g.published.filter (e < ·)).length ≤ 15) :
    (∀ k, (s.frozenPairLatency e k).2 = if k.src < n ∧ k.dst < n then g.pairPrice boot e k else 0)
      ∧ (s.frozenAvgLatency e).2 = g.avgPrice boot e := by
  have hp := h.priced_snapFor hfew
  refine ⟨fun k => ?_, hp.avg⟩
  simp only [Frozen.frozenPairLatency, h.size]
  split
  next hk => exact hp.pair k hk
  next => rfl

/-- **Frozen prices are right, and stay.** While at most 15 epochs were published after
`e`, a read of `e` gives every pair its mean in the last published epoch up to `e` that
sampled it, and the baseline where there is none. Once `e` is complete its reads do not
change, as long as no late samples are added to an epoch up to `e`. -/
theorem run_frozen_prices (s : Frozen) (ops : List FrozenOp) (e : Nat) :
    (((run s ops).2.published.filter (e < ·)).length ≤ 15 →
      (∀ k, ((run s ops).1.frozenPairLatency e k).2
          = if k.src < s.pairLatN ∧ k.dst < s.pairLatN then (run s ops).2.pairPrice s.current e k else 0)
        ∧ ((run s ops).1.frozenAvgLatency e).2 = (run s ops).2.avgPrice s.current e)
      ∧ ∀ (q : Nat) (ops' : List FrozenOp), e + 1 ≤ (q + 1) / s.phases →
        Along next (AddsAfter e) (run s (ops ++ [.publish q])) ops' →
        ((run s (ops ++ [.publish q] ++ ops')).2.published.filter (e < ·)).length ≤ 15 →
        (∀ k, ((run s (ops ++ [.publish q] ++ ops')).1.frozenPairLatency e k).2
            = ((run s (ops ++ [.publish q])).1.frozenPairLatency e k).2)
          ∧ ((run s (ops ++ [.publish q] ++ ops')).1.frozenAvgLatency e).2
            = ((run s (ops ++ [.publish q])).1.frozenAvgLatency e).2 := by
  refine ⟨(frozenInv_run s ops).reads, fun q ops' hq ha hfew => ?_⟩
  have hrun : run s (ops ++ [.publish q]) = next (run s ops) (.publish q) := by
    rw [run, List.foldl_append]
    rfl
  have hrun' : run s (ops ++ [.publish q] ++ ops') = ops'.foldl next (run s (ops ++ [.publish q])) :=
    List.foldl_append
  have hclosed : Closed e (run s (ops ++ [.publish q])).2 (run s (ops ++ [.publish q] ++ ops')).1
      (run s (ops ++ [.publish q] ++ ops')).2 := by
    rw [hrun']
    refine ha.keeps (I := fun x => Closed e (run s (ops ++ [.publish q])).2 x.1 x.2) (fun _ _ h hp => h.next hp) ?_
    rw [hrun]
    exact closed_publish (frozenInv_run s ops) hq
  -- the earlier read had no more snapshots after `e`
  have hfew₀ : ((run s (ops ++ [.publish q])).2.published.filter (e < ·)).length ≤ 15 := by
    refine Nat.le_trans ?_ hfew
    refine (List.Sublist.filter _ ?_).length_le
    rw [hrun']
    exact published_sublist _ _
  obtain ⟨hpair, havg⟩ := (frozenInv_run s (ops ++ [.publish q] ++ ops')).reads hfew
  obtain ⟨hpair₀, havg₀⟩ := (frozenInv_run s (ops ++ [.publish q])).reads hfew₀
  have hprice : ∀ p base, (run s (ops ++ [.publish q] ++ ops')).2.price p base e
      = (run s (ops ++ [.publish q])).2.price p base e := fun p base =>
    FrozenLog.price_congr hclosed.published fun ep _ hep => hclosed.samples ep hep
  refine ⟨fun k => ?_, ?_⟩
  · rw [hpair, hpair₀, FrozenLog.pairPrice, hprice]
    rfl
  · rw [havg, havg₀, FrozenLog.avgPrice, hprice]
    rfl

/-- Two nodes, one phase per epoch, an empty baseline. -/
def twoNodes : Frozen :=
  ⟨2, 1, false, ∅, fun _ => 0, 0, ∅, ⟨fun _ => 0, 0⟩, false, 0, 0, 0, 0, 0⟩

/-- Epoch 0 has a mean of 5, and still has it after epoch 1 is published. -/
theorem run_frozen_prices_two_epochs :
    ((run twoNodes [.drain 0 [(⟨0, 1, false⟩, 10, 2)], .publish 0]).1.frozenPairLatency 0 ⟨0, 1, false⟩).2 = 5
      ∧ ((run twoNodes ([.drain 0 [(⟨0, 1, false⟩, 10, 2)]] ++ [.publish 0]
            ++ [.drain 1 [(⟨0, 1, false⟩, 30, 1)], .publish 1])).1.frozenPairLatency 0 ⟨0, 1, false⟩).2
          = ((run twoNodes ([.drain 0 [(⟨0, 1, false⟩, 10, 2)]] ++ [.publish 0])).1.frozenPairLatency 0
              ⟨0, 1, false⟩).2 :=
  ⟨((run_frozen_prices twoNodes [.drain 0 [(⟨0, 1, false⟩, 10, 2)], .publish 0] 0).1 (by decide +kernel)).1
      ⟨0, 1, false⟩ |>.trans (by decide +kernel),
    ((run_frozen_prices twoNodes [.drain 0 [(⟨0, 1, false⟩, 10, 2)]] 0).2 0
      [.drain 1 [(⟨0, 1, false⟩, 30, 1)], .publish 1] (by decide) (by decide +kernel) (by decide +kernel)).1
      ⟨0, 1, false⟩⟩

/-- With 16 epochs published after epoch 0 its snapshot is gone and the baseline is read.
And an epoch that was empty when it became complete changes when late samples are added. -/
theorem frozen_prices_evicted_and_late :
    (((run twoNodes ((List.range 17).flatMap fun i => [.drain i [(⟨0, 1, false⟩, 7, 1)], .publish i])).2.published.filter
          (0 < ·)).length = 16
        ∧ (run twoNodes ((List.range 17).flatMap fun i => [.drain i [(⟨0, 1, false⟩, 7, 1)], .publish i])).2.pairPrice
            twoNodes.current 0 ⟨0, 1, false⟩ = 7
        ∧ ((run twoNodes ((List.range 17).flatMap fun i => [.drain i [(⟨0, 1, false⟩, 7, 1)],
            .publish i])).1.frozenPairLatency 0 ⟨0, 1, false⟩).2 = 0)
      ∧ ((run twoNodes [.publish 0]).1.frozenPairLatency 0 ⟨0, 1, false⟩).2 = 0
      ∧ ((run twoNodes [.publish 0, .drain 0 [(⟨0, 1, false⟩, 7, 1)], .publish 0]).1.frozenPairLatency 0
          ⟨0, 1, false⟩).2 = 7 := by
  refine ⟨⟨?_, ?_, ?_⟩, ?_, ?_⟩ <;> decide +kernel

end Pimid.Noc
