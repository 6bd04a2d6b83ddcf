import Mathlib.Tactic.Abel
import Pimid.Cache.StreamerRuns

/-!
# Accesses to the streamer

One access, and every sequence of them: the table stays in order, every prefetch is within
its limits, each one that fetched its line is reported once, and the lookup never has more
timing records than it has room for as long as the parameters leave room for the pair line.
-/

namespace Pimid.Cache.Streamer.L2StreamPrefetcher

variable {f g : L2StreamPrefetcher} {page : Nat}

/-! ## One access -/

/-- The parameters leave room for the pair line's timing record. -/
def RoomFor (p : Params) : Prop :=
  p.perLookup + 1 ≤ MAX_RECS ∨ p.spatial = false ∨ p.distance + 1 ≤ MAX_RECS ∨ p.queue = 1

/-- The line of a report was in an entry that is now the training entry of the request's page. -/
structure Evicted (f g : L2StreamPrefetcher) (page : Nat) (r : Report) : Prop where
  kind : ∃ tag core serial line, r = .prefetchDropped tag core serial line
  entry : ∃ i < f.p.streams, (∃ pos, (f.streamTab i).pending pos = true ∧ r.token = (f.streamTab i).token pos) ∧
    ((f.streamTab i).page = some page → (f.streamTab i).dir ≠ 0) ∧
    (g.streamTab i).page = some page ∧ (g.streamTab i).dir = 0

/-- What one access does. -/
structure Accessed (f : L2StreamPrefetcher) (req : Req) (x : Looked) (g : L2StreamPrefetcher) : Prop where
  req_eq : x.req = req
  p : g.p = f.p
  lat : g.parentHitLat = f.parentHitLat
  table : g.TableOk
  balance : g.outstanding + reported x.reports = f.outstanding + fetchedOf x.issues
  issued : g.profIssued = f.profIssued + x.issues.length
  serials : x.issues.map (·.serial) = List.range' (f.profIssued + 1) x.issues.length
  limits : Limits f.p (req.lineAddr / 64) (req.lineAddr % 64) x.l2Miss x.issues
  reports : ∀ r ∈ x.reports, r.token ∈ f.outstanding ∧ (Settles req x.l2Miss r ∨ Evicted f g (req.lineAddr / 64) r)

theorem mem_reported {r : Report} {rs : List Report} (h : r ∈ rs) : r.token ∈ reported rs :=
  Multiset.mem_coe.mpr (List.mem_map_of_mem h)

theorem detect_slots (pos : Int) : (f.detect page pos).2.2.slots = f.slots := by
  unfold detect
  dsimp only
  rcases f.findStream (continues page pos) with _ | i
  · rcases f.findStream (trains page) with _ | t
    · rfl
    · dsimp only
      by_cases hpos : pos ≠ (f.streamTab t).lastPos
      · rw [if_pos hpos]
        by_cases h : ¬ f.hasDir page (if pos > (f.streamTab t).lastPos then 1 else -1) = true
        · rw [if_pos h]
          rfl
        · rw [if_neg h]
          rfl
      · rw [if_neg hpos]
  · rfl

theorem train_slots (pos : Int) : (f.train page pos).2.2.2.slots = f.slots := by
  have hdet := @detect_slots f page pos
  unfold train
  dsimp only
  rcases h : f.detect page pos with ⟨s, tr, g⟩
  rw [h] at hdet
  dsimp only at hdet ⊢
  split
  · exact hdet
  · split
    · by_cases hs : s = none
      · rw [if_pos hs]
        exact hdet
      · rw [if_neg hs]
        exact hdet
    · split
      · exact hdet
      · exact hdet

/-- The table after step 1, with the demand's slot. -/
def demanded (f : L2StreamPrefetcher) (req : Req) (resp : Nat) (l2Miss : Bool) : L2StreamPrefetcher :=
  if l2Miss then (f.consume req resp l2Miss).2.2.takeSlot req.cycle (f.consume req resp l2Miss).1
  else (f.consume req resp l2Miss).2.2

theorem demanded_spec (ht : f.TableOk) (req : Req) (resp : Nat) (l2Miss : Bool) :
    Reports f (f.demanded req resp l2Miss) (f.consume req resp l2Miss).2.1 ∧
      (∀ r ∈ (f.consume req resp l2Miss).2.1, Settles req l2Miss r) ∧
      ∀ i, Fewer (f.streamTab i) ((f.demanded req resp l2Miss).streamTab i) := by
  obtain ⟨h₁, h₂, h₃⟩ := consume_spec ht req resp l2Miss
  cases l2Miss with
  | true =>
    have hlike := like_takeSlot (f := (f.consume req resp true).2.2) req.cycle (f.consume req resp true).1
    have := h₁.trans (hlike.reports h₁.table)
    rw [List.append_nil] at this
    exact ⟨this, h₂, h₃⟩
  | false => exact ⟨h₁, h₂, h₃⟩

theorem consume_miss (req : Req) (resp : Nat) : (f.consume req resp true).1 = resp := by
  unfold consume
  dsimp only
  split <;> rfl

/-- With one slot only, a demand that missed leaves none. -/
theorem room (hqueue : 0 < f.p.queue) (hp : g.p = f.p) (hroom : RoomFor f.p) (req : Req) {resp : Nat} {l2Miss : Bool}
    (hmiss : l2Miss = true → req.cycle < resp) (hc : (f.consume req resp l2Miss).2.2.p = f.p)
    (hslots : g.slots = (f.demanded req resp l2Miss).slots) : Room g req.cycle l2Miss := by
  unfold Room
  rw [hp]
  rcases hroom with h | h | h | h
  · exact .inl h
  · exact .inr (.inl h)
  · exact .inr (.inr (.inl h))
  · refine .inr (.inr (.inr fun hm => ?_))
    subst hm
    have hpos := inFlight_takeSlot (f := (f.consume req resp true).2.2) (hc ▸ hqueue) (hmiss rfl)
    have hsame : g.inFlight req.cycle = ((f.consume req resp true).2.2.takeSlot req.cycle resp).inFlight req.cycle := by
      unfold inFlight
      rw [hslots, hp]
      show _ = (List.range (f.consume req resp true).2.2.p.queue).countP _
      rw [hc]
      unfold demanded
      rw [if_pos rfl, consume_miss]
    omega

theorem access_eq {req : Req} (htype : ¬ (req.type ≠ .GETS ∧ req.type ≠ .GETX)) (parent : Parent) {f₁ : L2StreamPrefetcher}
    {l2Miss : Bool} {t : Option Nat × Nat × List Report × L2StreamPrefetcher} (hf₁ : f₁ = { f with core := req.srcId })
    (hmiss : l2Miss = decide (parent.demand > req.cycle + f.parentHitLat))
    (ht : t = (f₁.demanded req parent.demand l2Miss).train (req.lineAddr / 64) (req.lineAddr % 64 : Nat)) :
    f.access req parent = (do
      let l ← prefetch req l2Miss t.1 t.2.1 parent.pf t.2.2.2
      .ok ({ req, l2Miss, resp := (f₁.consume req parent.demand l2Miss).1,
             reports := (f₁.consume req parent.demand l2Miss).2.1 ++ t.2.2.1, issues := l.issues }, l.pf)) := by
  subst ht
  unfold access demanded
  rw [if_neg htype, hf₁]
  dsimp only
  rw [← hmiss]

theorem access_spec (ht : f.TableOk) (hstreams : 0 < f.p.streams) (hqueue : 0 < f.p.queue)
    (hper : f.p.perLookup ≤ MAX_RECS) (hroom : RoomFor f.p) (req : Req) (parent : Parent) :
    ∃ x g, f.access req parent = .ok (x, g) ∧ Accessed f req x g := by
  by_cases htype : req.type ≠ .GETS ∧ req.type ≠ .GETX
  · unfold access
    rw [if_pos htype]
    refine ⟨_, _, rfl, rfl, rfl, rfl, ht, rfl, rfl, rfl, ⟨⟨0, 1, [], [], rfl, .inl rfl, ?_, Nat.zero_le _, ?_, ?_⟩, ?_⟩, ?_⟩
    · exact fun _ h => nomatch h
    · exact fun _ h => nomatch h
    · exact Nat.zero_le _
    · exact fun _ h => nomatch h
    · exact fun _ h => nomatch h
  obtain ⟨f₁, hf₁⟩ : ∃ f₁ : L2StreamPrefetcher, f₁ = { f with core := req.srcId } := ⟨_, rfl⟩
  obtain ⟨l2Miss, hmiss⟩ : ∃ b, b = decide (parent.demand > req.cycle + f.parentHitLat) := ⟨_, rfl⟩
  obtain ⟨f₂, hf₂⟩ : ∃ f₂, f₂ = f₁.demanded req parent.demand l2Miss := ⟨_, rfl⟩
  have ht₁ : f₁.TableOk := by rw [hf₁]; exact ⟨ht.dirs, ht.one, ht.once, ht.known⟩
  have hp₁ : f₁.p = f.p := by rw [hf₁]
  have hout₁ : f₁.outstanding = f.outstanding := by rw [hf₁]; rfl
  obtain ⟨hrep₂, hset, hfew⟩ := demanded_spec ht₁ req parent.demand l2Miss
  have htr := @train_spec _ (req.lineAddr / 64) hrep₂.table (by rw [hrep₂.p, hp₁]; exact hstreams)
    (req.lineAddr % 64 : Nat)
  have hslots := @train_slots f₂ (req.lineAddr / 64) (req.lineAddr % 64 : Nat)
  rw [← hf₂] at hrep₂ htr hfew
  rcases htrain : f₂.train (req.lineAddr / 64) (req.lineAddr % 64 : Nat) with ⟨s, home, dropped, f₃⟩
  rw [htrain] at htr hslots
  dsimp only at htr hslots
  have hp₃ : f₃.p = f.p := htr.reports.p.trans (hrep₂.p.trans hp₁)
  have hcons : (f₁.consume req parent.demand l2Miss).2.2.p = f₁.p := (consume_spec ht₁ req parent.demand l2Miss).1.p
  have hroom₃ : Room f₃ req.cycle l2Miss := by
    refine room (hp₁.symm ▸ hqueue) (hp₃.trans hp₁.symm) (hp₁.symm ▸ hroom) req (fun hm => ?_) hcons (hf₂ ▸ hslots)
    rw [hm] at hmiss
    have := of_decide_eq_true hmiss.symm
    omega
  obtain ⟨l, hl⟩ := prefetch_spec htr.reports.table req l2Miss s parent.pf htr.ofPage htr.stream (by rw [hp₃]; exact hper) hroom₃
  have hbal := htr.reports.balance
  have hbal₂ := hrep₂.balance
  refine ⟨{ req, l2Miss, resp := (f₁.consume req parent.demand l2Miss).1,
            reports := (f₁.consume req parent.demand l2Miss).2.1 ++ dropped, issues := l.issues }, l.pf, ?_, ?_⟩
  · rw [access_eq htype parent hf₁ hmiss (htrain.symm.trans (by rw [hf₂]))]
    dsimp only
    rw [hl.ok]
    rfl
  · have hlat : f₃.parentHitLat = f.parentHitLat := htr.reports.lat.trans (hrep₂.lat.trans (by rw [hf₁]))
    have hissued : f₃.profIssued = f.profIssued := htr.reports.issued.trans (hrep₂.issued.trans (by rw [hf₁]))
    refine ⟨rfl, hl.going.p.trans hp₃, hl.going.lat.trans hlat, hl.going.table, ?_, ?_, ?_, hp₃ ▸ hl.limits, ?_⟩
    · show l.pf.outstanding + reported ((f₁.consume req parent.demand l2Miss).2.1 ++ dropped) = _
      rw [hl.going.balance, reported_append, ← hout₁, ← hbal₂, ← hbal]
      abel
    · rw [hl.going.issued, hissued]
    · rw [hl.going.serials, hissued]
    · intro r hr
      have hheld : r.token ∈ f.outstanding := by
        rw [← hout₁, ← hbal₂, ← hbal, Multiset.mem_add, Multiset.mem_add]
        rcases List.mem_append.mp hr with hr | hr
        · exact .inr (mem_reported hr)
        · exact .inl (.inr (mem_reported hr))
      refine ⟨hheld, ?_⟩
      rcases List.mem_append.mp hr with hr | hr
      · exact .inl (hset r hr)
      · obtain ⟨hrepl, hhome, hdir, hnot⟩ := htr.replaced r hr
        obtain ⟨pos, hpend, htok⟩ := hrepl.token
        obtain ⟨tag, serial, line, hkind⟩ := hrepl.kind
        have hf : f.streamTab = f₁.streamTab := by rw [hf₁]
        rw [← hhome] at hpend htok
        obtain ⟨h₁, h₂⟩ := (hfew home).pending pos hpend
        refine .inr ⟨⟨tag, _, serial, line, hkind⟩, home, ?_, ⟨pos, hf ▸ h₁, htok.trans (hf ▸ h₂)⟩, ?_, ?_, ?_⟩
        · rw [← hp₃]
          exact htr.ofPage.lt
        · rw [hf, ← (hfew home).page, ← (hfew home).dir]
          exact hnot
        · exact (hl.going.frame home).1.trans htr.ofPage.page
        · exact (hl.going.frame home).2.trans hdir

/-! ## Every sequence of accesses -/

/-- The ranges the constructor accepts. -/
structure Accepted (p : Params) : Prop where
  streams : 1 ≤ p.streams ∧ p.streams ≤ MAX_STREAMS
  queue : 1 ≤ p.queue ∧ p.queue ≤ MAX_QUEUE
  distance : 1 ≤ p.distance ∧ p.distance ≤ 63
  perLookup : 1 ≤ p.perLookup ∧ p.perLookup ≤ 8

theorem new_ok {name : String} {p : Params} {lat : Nat} (h : new name p lat = .ok f) :
    f = { name, p, parentHitLat := lat } ∧ Accepted p := by
  unfold new at h
  split at h
  · cases h
  · split at h
    · cases h
    · split at h
      · cases h
      · split at h
        · cases h
        · cases h
          exact ⟨rfl, by omega, by omega, by omega, by omega⟩

theorem tableOk_new (name : String) (p : Params) (lat : Nat) :
    TableOk { name, p, parentHitLat := lat } ∧
      outstanding { name, p, parentHitLat := lat } = 0 := by
  refine ⟨⟨fun i _ => .inr (.inr rfl), ?_, ?_, ?_⟩, ?_⟩
  · exact fun _ _ _ _ _ h => nomatch h
  · exact fun _ _ _ _ _ _ h => nomatch h
  · exact fun _ _ _ h => nomatch h
  · exact Finset.sum_eq_zero fun i _ => Finset.sum_eq_zero fun pos _ => if_neg Bool.false_ne_true

def allIssues (xs : List Looked) : List Issue := xs.flatMap (·.issues)

def allReports (xs : List Looked) : List Report := xs.flatMap (·.reports)

/-- What a sequence of accesses keeps. -/
structure Ran (f : L2StreamPrefetcher) (xs : List Looked) (g : L2StreamPrefetcher) : Prop where
  p : g.p = f.p
  lat : g.parentHitLat = f.parentHitLat
  table : g.TableOk
  balance : g.outstanding + reported (allReports xs) = f.outstanding + fetchedOf (allIssues xs)
  issued : g.profIssued = f.profIssued + (allIssues xs).length
  serials : (allIssues xs).map (·.serial) = List.range' (f.profIssued + 1) (allIssues xs).length

theorem run_spec (ht : f.TableOk) (hstreams : 0 < f.p.streams) (hqueue : 0 < f.p.queue) (hper : f.p.perLookup ≤ MAX_RECS)
    (hroom : RoomFor f.p) (accs : List (Req × Parent)) : ∃ xs g, f.run accs = .ok (xs, g) ∧ Ran f xs g := by
  induction accs generalizing f with
  | nil => exact ⟨[], f, rfl, rfl, rfl, ht, rfl, rfl, rfl⟩
  | cons a accs ih =>
    obtain ⟨req, parent⟩ := a
    obtain ⟨x, g, hacc, h⟩ := access_spec ht hstreams hqueue hper hroom req parent
    obtain ⟨xs, k, hrun, h'⟩ := ih h.table (by rw [h.p]; exact hstreams) (by rw [h.p]; exact hqueue)
      (by rw [h.p]; exact hper) (by rw [h.p]; exact hroom)
    refine ⟨x :: xs, k, ?_, h'.p.trans h.p, h'.lat.trans h.lat, h'.table, ?_, ?_, ?_⟩
    · unfold run
      rw [hacc]
      simp only [bind, Except.bind, hrun]
    · show k.outstanding + reported (x.reports ++ allReports xs) = f.outstanding + fetchedOf (x.issues ++ allIssues xs)
      have h₁ := h.balance
      have h₂ := h'.balance
      calc k.outstanding + reported (x.reports ++ allReports xs)
          = k.outstanding + reported (allReports xs) + reported x.reports := by rw [reported_append]; abel
        _ = g.outstanding + reported x.reports + fetchedOf (allIssues xs) := by rw [h₂]; abel
        _ = f.outstanding + fetchedOf (x.issues ++ allIssues xs) := by rw [h₁, fetchedOf_append, add_assoc]
    · show k.profIssued = f.profIssued + (x.issues ++ allIssues xs).length
      rw [h'.issued, h.issued, List.length_append, Nat.add_assoc]
    · show (x.issues ++ allIssues xs).map (·.serial) = List.range' (f.profIssued + 1) (x.issues ++ allIssues xs).length
      rw [List.map_append, h.serials, h'.serials, h.issued, List.length_append, ← List.range'_append_1]
      congr 2
      omega

/-- No prefetch is fetched twice: the numbers differ. -/
theorem Ran.nodup {xs : List Looked} (h : Ran f xs g) : (fetchedOf (allIssues xs)).Nodup := by
  have hserials : ((allIssues xs).map (·.serial)).Nodup := by
    rw [h.serials]
    exact List.nodup_range'
  have hsub : (((allIssues xs).filter (·.fetched)).map Issue.token).map Token.serial =
      ((allIssues xs).filter (·.fetched)).map (·.serial) := by
    rw [List.map_map]
    rfl
  refine Multiset.coe_nodup.mpr (List.Nodup.of_map Token.serial ?_)
  rw [hsub]
  exact hserials.sublist (List.filter_sublist.map _)

/-- **The table's order, the prefetches' limits and the account of the tags**, after any
sequence of accesses, and of every access after it. -/
theorem streamer_table {name : String} {p : Params} {lat : Nat} {f₀ : L2StreamPrefetcher} (hnew : new name p lat = .ok f₀)
    (hrecs : p.perLookup + p.spatial.toNat ≤ MAX_RECS) (accs : List (Req × Parent)) :
    ∃ xs f, f₀.run accs = .ok (xs, f) ∧ f.TableOk ∧
      f.outstanding + reported (allReports xs) = fetchedOf (allIssues xs) ∧ (fetchedOf (allIssues xs)).Nodup ∧
      ∀ req parent, ∃ x g, f.access req parent = .ok (x, g) ∧ x.req = req ∧
        Limits p (req.lineAddr / 64) (req.lineAddr % 64) x.l2Miss x.issues ∧
        ∀ r ∈ x.reports, r.token ∈ f.outstanding ∧ (Settles req x.l2Miss r ∨ Evicted f g (req.lineAddr / 64) r) := by
  obtain ⟨rfl, hacc⟩ := new_ok hnew
  obtain ⟨ht, hout⟩ := tableOk_new name p lat
  have hper : p.perLookup ≤ MAX_RECS := hacc.perLookup.2
  have hroom : RoomFor p := by
    rcases hs : p.spatial with _ | _
    · exact .inr (.inl hs)
    · rw [hs] at hrecs
      exact .inl hrecs
  obtain ⟨xs, f, hrun, h⟩ := run_spec ht hacc.streams.1 hacc.queue.1 hper hroom accs
  refine ⟨xs, f, hrun, h.table, ?_, h.nodup, fun req parent => ?_⟩
  · rw [h.balance, hout, zero_add]
  · obtain ⟨x, g, hx, ha⟩ := access_spec h.table (by rw [h.p]; exact hacc.streams.1) (by rw [h.p]; exact hacc.queue.1)
      (by rw [h.p]; exact hper) (by rw [h.p]; exact hroom) req parent
    have hlim := ha.limits
    rw [h.p] at hlim
    exact ⟨x, g, hx, ha.req_eq, hlim, ha.reports⟩

/-- A stream of two prefetches, then a request for the first of them. -/
theorem streamer_table_two : ∃ f₀, new "l2pf" {} 10 = .ok f₀ ∧ ∃ xs f,
    f₀.run [({ lineAddr := 2, type := .GETS, cycle := 0, srcId := 0 }, { demand := 0, pf := fun _ => ⟨0, false⟩ }),
      ({ lineAddr := 4, type := .GETS, cycle := 5, srcId := 0 }, { demand := 5, pf := fun _ => ⟨90, true⟩ }),
      ({ lineAddr := 5, type := .GETS, cycle := 9, srcId := 0 }, { demand := 9, pf := fun _ => ⟨90, true⟩ })] =
      .ok (xs, f) ∧ f.TableOk ∧ f.outstanding + reported (allReports xs) = fetchedOf (allIssues xs) := by
  obtain ⟨xs, f, h₁, h₂, h₃, -⟩ := streamer_table (p := {}) (show new "l2pf" {} 10 = .ok _ from rfl) (by decide)
    [({ lineAddr := 2, type := .GETS, cycle := 0, srcId := 0 }, { demand := 0, pf := fun _ => ⟨0, false⟩ }),
      ({ lineAddr := 4, type := .GETS, cycle := 5, srcId := 0 }, { demand := 5, pf := fun _ => ⟨90, true⟩ }),
      ({ lineAddr := 5, type := .GETS, cycle := 9, srcId := 0 }, { demand := 9, pf := fun _ => ⟨90, true⟩ })]
  exact ⟨_, rfl, xs, f, h₁, h₂, h₃⟩

end Pimid.Cache.Streamer.L2StreamPrefetcher
