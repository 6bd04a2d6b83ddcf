import Mathlib.Algebra.BigOperators.Group.Finset.Basic
import Pimid.Cache.Streamer

/-!
# The streamer's table

Two invariants. The table keeps one entry of each direction for a page and each pending line
in one entry of its page (`TableOk`); and the prefetches that are pending, as a multiset of
tokens, change by exactly what a step fetches and what it reports (`outstanding`).
-/

namespace Pimid.Cache.Streamer

open Finset

/-! ## Tokens -/

/-- A fetched prefetch: its number, its line and its tag. -/
structure Token where
  serial : Nat
  line : Nat
  tag : Nat
deriving DecidableEq

def Report.token : Report → Token
  | .prefetchConsumed tag _ _ _ _ serial line => ⟨serial, line, tag⟩
  | .prefetchDropped tag _ serial line => ⟨serial, line, tag⟩

def Issue.token (x : Issue) : Token := ⟨x.serial, x.line, x.tag⟩

def reported (rs : List Report) : Multiset Token := rs.map Report.token

/-- The prefetches that fetched their line. -/
def fetchedOf (xs : List Issue) : Multiset Token := (xs.filter (·.fetched)).map Issue.token

theorem reported_append (rs ss : List Report) : reported (rs ++ ss) = reported rs + reported ss := by
  simp [reported]

theorem fetchedOf_append (xs ys : List Issue) : fetchedOf (xs ++ ys) = fetchedOf xs + fetchedOf ys := by
  simp [fetchedOf]

namespace Stream

def token (e : Stream) (pos : Nat) : Token := ⟨e.serial pos, e.page.getD 0 * 64 + pos, e.tag pos⟩

/-- What the entry holds. -/
def held (e : Stream) : Multiset Token := ∑ pos ∈ range 64, if e.pending pos then {e.token pos} else 0

/-- The entry's page, direction and pending lines are the same. -/
structure Like (e e' : Stream) : Prop where
  page : e'.page = e.page
  dir : e'.dir = e.dir
  pending : e'.pending = e.pending
  tag : e'.tag = e.tag
  serial : e'.serial = e.serial

theorem Like.refl (e : Stream) : Like e e := ⟨rfl, rfl, rfl, rfl, rfl⟩

theorem Like.held {e e' : Stream} (h : Like e e') : e'.held = e.held := by
  unfold Stream.held token
  rw [h.page, h.pending, h.tag, h.serial]

theorem held_add {e e' : Stream} {pos : Nat} (hpos : pos < 64) (hnew : e.pending pos = false) (hp : e'.pending pos = true)
    (hne : ∀ i, i ≠ pos → e'.pending i = e.pending i ∧ e'.token i = e.token i) :
    e'.held = e.held + {e'.token pos} := by
  unfold held
  rw [← add_sum_erase _ _ (mem_range.mpr hpos), ← add_sum_erase (range 64) _ (mem_range.mpr hpos), hp, hnew, if_pos rfl,
    if_neg Bool.false_ne_true, zero_add, add_comm]
  refine congrArg (· + {e'.token pos}) (sum_congr rfl fun i hi => ?_)
  obtain ⟨h₁, h₂⟩ := hne i (ne_of_mem_erase hi)
  rw [h₁, h₂]

end Stream

namespace L2StreamPrefetcher

variable {f g : L2StreamPrefetcher} {page pos i : Nat}

/-- The prefetches fetched and neither used nor dropped. -/
def outstanding (f : L2StreamPrefetcher) : Multiset Token := ∑ i ∈ range f.p.streams, (f.streamTab i).held

theorem outstanding_setStream (hi : i < f.p.streams) {e : Stream} {a b : Multiset Token}
    (h : e.held + a = (f.streamTab i).held + b) :
    (f.setStream i e).outstanding + a = f.outstanding + b := by
  have hi' : i ∈ range f.p.streams := mem_range.mpr hi
  have hrest : ∑ j ∈ (range f.p.streams).erase i, ((f.setStream i e).streamTab j).held =
      ∑ j ∈ (range f.p.streams).erase i, (f.streamTab j).held :=
    sum_congr rfl fun j hj => by rw [setStream_ne _ (ne_of_mem_erase hj)]
  show ∑ j ∈ range f.p.streams, ((f.setStream i e).streamTab j).held + a = _
  unfold outstanding
  rw [← add_sum_erase _ _ hi', ← add_sum_erase (range f.p.streams) _ hi', hrest, setStream_same, add_right_comm, h,
    add_right_comm]

/-! ## The table -/

/-- One entry a page and direction; a line is pending in one entry, with a tag. -/
structure TableOk (f : L2StreamPrefetcher) : Prop where
  dirs : ∀ i < f.p.streams, (f.streamTab i).dir = 1 ∨ (f.streamTab i).dir = -1 ∨ (f.streamTab i).dir = 0
  one : ∀ i < f.p.streams, ∀ j < f.p.streams, ∀ pg, (f.streamTab i).page = some pg → (f.streamTab j).page = some pg →
    (f.streamTab i).dir = (f.streamTab j).dir → i = j
  once : ∀ i < f.p.streams, ∀ j < f.p.streams, ∀ pg pos, (f.streamTab i).page = some pg → (f.streamTab j).page = some pg →
    (f.streamTab i).pending pos = true → (f.streamTab j).pending pos = true → i = j
  known : ∀ i < f.p.streams, ∀ pos, (f.streamTab i).pending pos = true →
    pos < 64 ∧ (∃ pg, (f.streamTab i).page = some pg) ∧ (f.streamTab i).tag pos ≠ 0

/-- Parameters and table are the same as far as the invariants go. -/
structure Like (f g : L2StreamPrefetcher) : Prop where
  p : g.p = f.p
  lat : g.parentHitLat = f.parentHitLat
  tagSeq : g.tagSeq = f.tagSeq
  issued : g.profIssued = f.profIssued
  stream : ∀ i, Stream.Like (f.streamTab i) (g.streamTab i)

theorem Like.trans {k : L2StreamPrefetcher} (h : Like f g) (h' : Like g k) : Like f k := by
  refine ⟨h'.p.trans h.p, h'.lat.trans h.lat, h'.tagSeq.trans h.tagSeq, h'.issued.trans h.issued, fun i => ?_⟩
  have a := h.stream i
  have b := h'.stream i
  exact ⟨b.page.trans a.page, b.dir.trans a.dir, b.pending.trans a.pending, b.tag.trans a.tag, b.serial.trans a.serial⟩

theorem Like.table (h : Like f g) (ht : f.TableOk) : g.TableOk := by
  have hs : g.p.streams = f.p.streams := by rw [h.p]
  refine ⟨?_, ?_, ?_, ?_⟩
  · intro i hi
    rw [(h.stream i).dir]
    exact ht.dirs i (hs ▸ hi)
  · intro i hi j hj pg
    rw [(h.stream i).dir, (h.stream j).dir, (h.stream i).page, (h.stream j).page]
    exact ht.one i (hs ▸ hi) j (hs ▸ hj) pg
  · intro i hi j hj pg pos
    rw [(h.stream i).page, (h.stream j).page, (h.stream i).pending, (h.stream j).pending]
    exact ht.once i (hs ▸ hi) j (hs ▸ hj) pg pos
  · intro i hi pos
    rw [(h.stream i).page, (h.stream i).pending, (h.stream i).tag]
    exact ht.known i (hs ▸ hi) pos

theorem Like.outstanding (h : Like f g) : g.outstanding = f.outstanding := by
  unfold L2StreamPrefetcher.outstanding
  rw [h.p]
  exact sum_congr rfl fun i _ => (h.stream i).held

theorem Like.setStream {e : Stream} (h : Stream.Like (f.streamTab i) e) : Like f (f.setStream i e) := by
  refine ⟨rfl, rfl, rfl, rfl, fun j => ?_⟩
  by_cases hj : j = i
  · subst hj
    rw [setStream_same]
    exact h
  · rw [setStream_ne _ hj]
    exact Stream.Like.refl _

theorem like_touch : Like f (f.touch i) :=
  ⟨rfl, rfl, rfl, rfl, (Like.setStream (f := f) (e := { f.streamTab i with ts := f.timestamp + 1 })
    ⟨rfl, rfl, rfl, rfl, rfl⟩).stream⟩

theorem like_setLastPos (pos : Int) : Like f (f.setLastPos i pos) := Like.setStream ⟨rfl, rfl, rfl, rfl, rfl⟩

theorem like_setPfPos (pos : Int) : Like f (f.setPfPos i pos) := Like.setStream ⟨rfl, rfl, rfl, rfl, rfl⟩

theorem like_takeSlot (start till : Nat) : Like f (f.takeSlot start till) :=
  ⟨rfl, rfl, rfl, rfl, fun _ => Stream.Like.refl _⟩

/-! ## Looking entries up -/

theorem findStream_some {q : Stream → Bool} (h : f.findStream q = some i) : i < f.p.streams ∧ q (f.streamTab i) = true := by
  have hq := List.find?_some h
  exact ⟨List.mem_range.mp (List.mem_of_find?_eq_some h), hq⟩

theorem findStream_none {q : Stream → Bool} (h : f.findStream q = none) (hi : i < f.p.streams) : q (f.streamTab i) = false := by
  have := List.find?_eq_none.mp h i (List.mem_range.mpr hi)
  simpa using this

theorem isPending_eq_false : f.isPending page pos = false ↔
    ∀ i < f.p.streams, (f.streamTab i).page = some page → (f.streamTab i).pending pos = false := by
  unfold isPending
  simp [List.any_eq_false]

theorem foldl_lt {n : Nat} {q : Nat → Nat → Prop} [DecidableRel q] (l : List Nat) (v : Nat) (hv : v < n)
    (hl : ∀ i ∈ l, i < n) : l.foldl (fun best i => if q i best then i else best) v < n := by
  induction l generalizing v with
  | nil => exact hv
  | cons i l ih =>
    rw [List.foldl_cons]
    refine ih _ ?_ fun j hj => hl j (List.mem_cons_of_mem i hj)
    split
    · exact hl i List.mem_cons_self
    · exact hv

theorem lruStream_lt (h : 0 < f.p.streams) : f.lruStream < f.p.streams :=
  foldl_lt (q := fun i v => (f.streamTab i).ts < (f.streamTab v).ts) _ 0 h fun _ hi => List.mem_range.mp hi

theorem bestSlot_lt (h : 0 < f.p.queue) (start : Nat) : f.bestSlot start < f.p.queue := by
  unfold bestSlot
  split
  · next i hi => exact List.mem_range.mp (List.mem_of_find?_eq_some hi)
  · exact foldl_lt (q := fun i best => (f.slots i).till < (f.slots best).till) _ 0 h fun _ hi => List.mem_range.mp hi

theorem inFlight_takeSlot (h : 0 < f.p.queue) {start till : Nat} (hlt : start < till) :
    0 < (f.takeSlot start till).inFlight start := by
  unfold inFlight
  rw [List.countP_pos_iff]
  refine ⟨f.bestSlot start, List.mem_range.mpr (bestSlot_lt h start), ?_⟩
  simp [takeSlot, Slot.holds, hlt]

/-! ## The steps -/

/-- A step that reports `rs`: the table stays in order and nothing else is lost. -/
structure Reports (f g : L2StreamPrefetcher) (rs : List Report) : Prop where
  p : g.p = f.p
  lat : g.parentHitLat = f.parentHitLat
  tagSeq : g.tagSeq = f.tagSeq
  issued : g.profIssued = f.profIssued
  table : g.TableOk
  balance : g.outstanding + reported rs = f.outstanding

theorem Like.reports (h : Like f g) (ht : f.TableOk) : Reports f g [] :=
  ⟨h.p, h.lat, h.tagSeq, h.issued, h.table ht, by rw [h.outstanding]; exact add_zero _⟩

theorem Reports.trans {k : L2StreamPrefetcher} {rs ss : List Report} (h : Reports f g rs) (h' : Reports g k ss) :
    Reports f k (rs ++ ss) := by
  refine ⟨h'.p.trans h.p, h'.lat.trans h.lat, h'.tagSeq.trans h.tagSeq, h'.issued.trans h.issued, h'.table, ?_⟩
  rw [reported_append, ← h.balance, ← h'.balance, add_comm (reported rs), add_assoc]

/-- Replacing one entry by one that is pending in fewer lines of the same page, or in none. -/
theorem TableOk.setStream (ht : f.TableOk) {e : Stream}
    (hdir : e.dir = 1 ∨ e.dir = -1 ∨ e.dir = 0)
    (hone : ∀ j < f.p.streams, j ≠ i → ∀ pg, e.page = some pg → (f.streamTab j).page = some pg → e.dir ≠ (f.streamTab j).dir)
    (hpend : ∀ pos, e.pending pos = true → pos < 64 ∧ (∃ pg, e.page = some pg) ∧ e.tag pos ≠ 0 ∧
      ∀ j < f.p.streams, j ≠ i → (f.streamTab j).page = e.page → (f.streamTab j).pending pos = false) :
    (f.setStream i e).TableOk := by
  refine ⟨?_, ?_, ?_, ?_⟩
  · intro j hj
    by_cases hji : j = i
    · rw [hji, setStream_same]
      exact hdir
    · rw [setStream_ne _ hji]
      exact ht.dirs j hj
  · intro j hj k hk pg
    by_cases hji : j = i
    · by_cases hki : k = i
      · exact fun _ _ _ => hji.trans hki.symm
      · rw [hji, setStream_same, setStream_ne _ hki]
        exact fun h₁ h₂ h₃ => absurd h₃ (hone k hk hki pg h₁ h₂)
    · by_cases hki : k = i
      · rw [hki, setStream_same, setStream_ne _ hji]
        exact fun h₁ h₂ h₃ => absurd h₃.symm (hone j hj hji pg h₂ h₁)
      · rw [setStream_ne _ hji, setStream_ne _ hki]
        exact ht.one j hj k hk pg
  · intro j hj k hk pg pos
    by_cases hji : j = i
    · by_cases hki : k = i
      · exact fun _ _ _ _ => hji.trans hki.symm
      · rw [hji, setStream_same, setStream_ne _ hki]
        intro h₁ h₂ h₃ h₄
        rw [(hpend pos h₃).2.2.2 k hk hki (h₂.trans h₁.symm)] at h₄
        cases h₄
    · by_cases hki : k = i
      · rw [hki, setStream_same, setStream_ne _ hji]
        intro h₁ h₂ h₃ h₄
        rw [(hpend pos h₄).2.2.2 j hj hji (h₁.trans h₂.symm)] at h₃
        cases h₃
      · rw [setStream_ne _ hji, setStream_ne _ hki]
        exact ht.once j hj k hk pg pos
  · intro j hj pos
    by_cases hji : j = i
    · rw [hji, setStream_same]
      intro h
      obtain ⟨h₁, h₂, h₃, -⟩ := hpend pos h
      exact ⟨h₁, h₂, h₃⟩
    · rw [setStream_ne _ hji]
      exact ht.known j hj pos

theorem TableOk.pending_other (ht : f.TableOk) {j : Nat} (hi : i < f.p.streams) (hj : j < f.p.streams) (hji : j ≠ i)
    (hpage : (f.streamTab j).page = (f.streamTab i).page) (hpend : (f.streamTab i).pending pos = true) :
    (f.streamTab j).pending pos = false := by
  obtain ⟨-, ⟨pg, hpg⟩, -⟩ := ht.known i hi pos hpend
  by_contra hp
  rw [Bool.not_eq_false] at hp
  exact hji (ht.once j hj i hi pg pos (hpage.trans hpg) hpg hp hpend)

/-! ### A prefetched line is asked for -/

/-- What `consume` reports of a line. -/
structure Settles (req : Req) (l2Miss : Bool) (r : Report) : Prop where
  line : r.token.line = req.lineAddr
  kind : (∃ tag hit resp iss serial line, r = .prefetchConsumed tag req.srcId hit resp iss serial line ∧ l2Miss = false) ∨
    ∃ tag core serial line, r = .prefetchDropped tag core serial line ∧ l2Miss = true

/-- The same entry, with no line pending that was not. -/
structure Fewer (e e' : Stream) : Prop where
  page : e'.page = e.page
  dir : e'.dir = e.dir
  pending : ∀ pos, e'.pending pos = true → e.pending pos = true ∧ e'.token pos = e.token pos

theorem Fewer.refl (e : Stream) : Fewer e e := ⟨rfl, rfl, fun _ h => ⟨h, rfl⟩⟩

theorem Fewer.setStream {e : Stream} (h : Fewer (f.streamTab i) e) (j : Nat) :
    Fewer (f.streamTab j) ((f.setStream i e).streamTab j) := by
  by_cases hj : j = i
  · rw [hj, setStream_same]
    exact h
  · rw [setStream_ne _ hj]
    exact Fewer.refl _

theorem fewer_settled (e : Stream) (pos : Nat) :
    Fewer e { e with pending := Function.update e.pending pos false, tag := Function.update e.tag pos 0 } := by
  refine ⟨rfl, rfl, fun k hk => ?_⟩
  dsimp only at hk
  by_cases hkp : k = pos
  · subst hkp
    simp at hk
  · rw [Function.update_of_ne hkp] at hk
    refine ⟨hk, ?_⟩
    simp [Stream.token, hkp]

theorem Reports.settle (ht : f.TableOk) (hi : i < f.p.streams) (hpend : (f.streamTab i).pending pos = true) {r : Report}
    (hr : r.token = (f.streamTab i).token pos) :
    Reports f (f.setStream i { f.streamTab i with
      pending := Function.update (f.streamTab i).pending pos false
      tag := Function.update (f.streamTab i).tag pos 0 }) [r] := by
  obtain ⟨e, he⟩ : ∃ e : Stream, e = { f.streamTab i with
      pending := Function.update (f.streamTab i).pending pos false
      tag := Function.update (f.streamTab i).tag pos 0 } := ⟨_, rfl⟩
  rw [← he]
  have hpos := (ht.known i hi pos hpend).1
  have hsame : e.page = (f.streamTab i).page ∧ e.dir = (f.streamTab i).dir := by rw [he]; exact ⟨rfl, rfl⟩
  have hfalse : e.pending pos = false := by rw [he]; exact Function.update_self _ _ _
  have hother (k : Nat) (hk : k ≠ pos) :
      (f.streamTab i).pending k = e.pending k ∧ (f.streamTab i).token k = e.token k := by
    rw [he]
    simp [Stream.token, hk]
  have hle (k : Nat) (hk : e.pending k = true) : (f.streamTab i).pending k = true ∧ k ≠ pos := by
    have hne : k ≠ pos := fun h => by rw [h, hfalse] at hk; cases hk
    exact ⟨(hother k hne).1.trans hk, hne⟩
  refine ⟨rfl, rfl, rfl, rfl, ?_, ?_⟩
  · refine ht.setStream ?_ ?_ ?_
    · rw [hsame.2]
      exact ht.dirs i hi
    · intro j hj hji pg h₁ h₂ hdir
      rw [hsame.1] at h₁
      rw [hsame.2] at hdir
      exact hji (ht.one j hj i hi pg h₂ h₁ hdir.symm)
    · intro k hk
      obtain ⟨hk', hne⟩ := hle k hk
      obtain ⟨h₁, h₂, h₃⟩ := ht.known i hi k hk'
      have htag : e.tag k = (f.streamTab i).tag k := congrArg Token.tag (hother k hne).2.symm
      refine ⟨h₁, hsame.1 ▸ h₂, htag ▸ h₃, fun j hj hji hpage => ?_⟩
      exact ht.pending_other hi hj hji (hpage.trans hsame.1) hk'
  · have hheld : (f.streamTab i).held = e.held + {(f.streamTab i).token pos} := Stream.held_add hpos hfalse hpend hother
    have hrep : reported [r] = {(f.streamTab i).token pos} := by rw [← hr]; rfl
    rw [hrep]
    exact outstanding_setStream hi (by rw [← hheld, add_zero] : e.held + _ = (f.streamTab i).held + 0) |>.trans (add_zero _)

theorem consume_spec (ht : f.TableOk) (req : Req) (resp : Nat) (l2Miss : Bool) :
    Reports f (f.consume req resp l2Miss).2.2 (f.consume req resp l2Miss).2.1 ∧
      (∀ r ∈ (f.consume req resp l2Miss).2.1, Settles req l2Miss r) ∧
      ∀ i, Fewer (f.streamTab i) ((f.consume req resp l2Miss).2.2.streamTab i) := by
  unfold consume
  dsimp only
  cases hfind : f.findStream fun e => decide (e.page = some (req.lineAddr / 64)) && e.pending (req.lineAddr % 64) with
  | none => exact ⟨⟨rfl, rfl, rfl, rfl, ht, add_zero _⟩, by simp, fun _ => Fewer.refl _⟩
  | some i =>
    dsimp only
    obtain ⟨hi, hq⟩ := findStream_some hfind
    simp only [Bool.and_eq_true, decide_eq_true_eq] at hq
    obtain ⟨hpage, hpend⟩ := hq
    have htag := (ht.known i hi _ hpend).2.2
    have hline : (f.streamTab i).page.getD 0 * 64 + req.lineAddr % 64 = req.lineAddr := by
      rw [hpage]
      exact Nat.div_add_mod' req.lineAddr 64
    cases l2Miss with
    | true =>
      have hforget : f.forget (f.streamTab i) (req.lineAddr % 64) =
          [.prefetchDropped ((f.streamTab i).tag (req.lineAddr % 64)) f.core ((f.streamTab i).serial (req.lineAddr % 64))
            ((f.streamTab i).page.getD 0 * 64 + req.lineAddr % 64)] := if_pos htag
      rw [if_pos rfl, hforget]
      refine ⟨Reports.settle ht hi hpend rfl, fun r hr => ?_, (fewer_settled _ _).setStream⟩
      obtain rfl := List.mem_singleton.mp hr
      exact ⟨hline, .inr ⟨_, _, _, _, rfl, rfl⟩⟩
    | false =>
      rw [if_neg Bool.false_ne_true]
      refine ⟨Reports.settle ht hi hpend ?_, fun r hr => ?_, (fewer_settled _ _).setStream⟩
      · show Token.mk _ req.lineAddr _ = Token.mk _ ((f.streamTab i).page.getD 0 * 64 + req.lineAddr % 64) _
        rw [hline]
      · obtain rfl := List.mem_singleton.mp hr
        exact ⟨rfl, .inl ⟨_, _, _, _, _, _, rfl, rfl⟩⟩

/-! ### An entry is replaced -/

theorem reported_flatMap (h : Nat → List Report) (n : Nat) :
    reported ((List.range n).flatMap h) = ∑ i ∈ range n, reported (h i) := by
  induction n with
  | zero => simp [reported]
  | succ n ih =>
    rw [List.range_succ, List.flatMap_append, reported_append, ih, sum_range_succ]
    simp

/-- What `allocate` reports of a line of the entry it replaces. -/
structure Replaced (f : L2StreamPrefetcher) (r : Report) : Prop where
  token : ∃ pos, (f.streamTab f.lruStream).pending pos = true ∧ r.token = (f.streamTab f.lruStream).token pos
  kind : ∃ tag serial line, r = .prefetchDropped tag f.core serial line

theorem allocate_spec (ht : f.TableOk) (hs : 0 < f.p.streams) (pos : Int)
    (hno : ∀ i < f.p.streams, (f.streamTab i).page = some page → (f.streamTab i).dir ≠ 0) :
    Reports f (f.allocate page pos).2.2 (f.allocate page pos).2.1 ∧
      (∀ r ∈ (f.allocate page pos).2.1, Replaced f r) ∧
      (f.allocate page pos).1 = f.lruStream ∧
      ((f.allocate page pos).2.2.streamTab f.lruStream).page = some page ∧
      ((f.allocate page pos).2.2.streamTab f.lruStream).dir = 0 ∧
      ∀ i, i ≠ f.lruStream → (f.allocate page pos).2.2.streamTab i = f.streamTab i := by
  have hv := lruStream_lt hs
  obtain ⟨v, hvdef⟩ : ∃ v, v = f.lruStream := ⟨_, rfl⟩
  obtain ⟨e, he⟩ : ∃ e, e = freshStream page pos (f.timestamp + 1)
      { f.streamTab v with tag := fun i => if (f.streamTab v).pending i ∧ i < 64 then 0 else (f.streamTab v).tag i } := ⟨_, rfl⟩
  have hdropped : reported ((List.range 64).flatMap fun i =>
      if (f.streamTab v).pending i then f.forget (f.streamTab v) i else []) = (f.streamTab v).held := by
    rw [reported_flatMap]
    refine sum_congr rfl fun i _ => ?_
    by_cases hp : (f.streamTab v).pending i = true
    · have htag := (ht.known v (hvdef ▸ hv) i hp).2.2
      rw [if_pos hp, if_pos hp, show f.forget (f.streamTab v) i = [.prefetchDropped ((f.streamTab v).tag i) f.core
        ((f.streamTab v).serial i) ((f.streamTab v).page.getD 0 * 64 + i)] from if_pos htag]
      rfl
    · rw [if_neg hp, if_neg hp]
      rfl
  have hempty : e.held = 0 := by
    rw [he]
    exact sum_eq_zero fun i _ => if_neg Bool.false_ne_true
  unfold allocate
  rw [← hvdef] at hv ⊢
  dsimp only
  rw [← he]
  refine ⟨⟨rfl, rfl, rfl, rfl, ?_, ?_⟩, ?_, rfl, ?_, ?_, ?_⟩
  · have hset : (f.setStream v e).TableOk := by
      refine ht.setStream (.inr (.inr (by rw [he]; rfl))) ?_ ?_
      · intro j hj _ pg h₁ h₂ hdir
        rw [he] at h₁ hdir
        cases h₁
        exact hno j hj h₂ hdir.symm
      · intro k hk
        rw [he] at hk
        cases hk
    exact ⟨hset.dirs, hset.one, hset.once, hset.known⟩
  · rw [hdropped]
    show (f.setStream v e).outstanding + _ = _
    rw [outstanding_setStream hv (by rw [hempty, zero_add, add_zero] : e.held + _ = (f.streamTab v).held + 0), add_zero]
  · intro r hr
    obtain ⟨k, -, hk⟩ := List.mem_flatMap.mp hr
    split at hk
    · next hp =>
      unfold forget at hk
      split at hk
      · obtain rfl := List.mem_singleton.mp hk
        exact ⟨⟨k, hvdef ▸ hp, by rw [← hvdef]; rfl⟩, ⟨_, _, _, rfl⟩⟩
      · cases hk
    · cases hk
  · show ((f.setStream v e).streamTab v).page = _
    rw [setStream_same, he]
    rfl
  · show ((f.setStream v e).streamTab v).dir = _
    rw [setStream_same, he]
    rfl
  · intro i hi
    exact f.setStream_ne hi _

/-! ### Training -/

/-- Entry `i` is one of the page. -/
structure OfPage (f : L2StreamPrefetcher) (page i : Nat) : Prop where
  lt : i < f.p.streams
  page : (f.streamTab i).page = some page

/-- Step 2 up to the detection of a stream. -/
structure Detected (f : L2StreamPrefetcher) (page : Nat) (s tr : Option Nat) (g : L2StreamPrefetcher) : Prop where
  reports : Reports f g []
  stream : ∀ i, s = some i → OfPage g page i ∧ (g.streamTab i).dir ≠ 0
  training : ∀ i, tr = some i → OfPage g page i ∧ (g.streamTab i).dir = 0
  same : s = none → tr = none → g = f ∧ ∀ i < f.p.streams, (f.streamTab i).page = some page → (f.streamTab i).dir ≠ 0

theorem hasDir_eq_false {d : Int} (h : ¬ f.hasDir page d = true) (hi : i < f.p.streams)
    (hpage : (f.streamTab i).page = some page) : (f.streamTab i).dir ≠ d := by
  intro hd
  refine h (List.any_eq_true.mpr ⟨i, List.mem_range.mpr hi, ?_⟩)
  simp [hpage, hd]

/-- A training entry becomes a stream the page does not have yet. -/
theorem Reports.detect (ht : f.TableOk) (hi : i < f.p.streams) (hpage : (f.streamTab i).page = some page) {d : Int}
    (hd : d = 1 ∨ d = -1) (hno : ¬ f.hasDir page d = true) :
    Reports f (f.setStream i { f.streamTab i with dir := d, pfPos := -1 }) [] := by
  refine ⟨rfl, rfl, rfl, rfl, ?_, ?_⟩
  · refine ht.setStream ?_ ?_ ?_
    · rcases hd with hd | hd
      · exact .inl hd
      · exact .inr (.inl hd)
    · intro j hj _ pg h₁ h₂ hdir
      have hpg : pg = page := Option.some.inj ((show (f.streamTab i).page = some pg from h₁).symm.trans hpage)
      rw [hpg] at h₂
      exact hasDir_eq_false hno hj h₂ hdir.symm
    · intro k hk
      obtain ⟨h₁, h₂, h₃⟩ := ht.known i hi k hk
      exact ⟨h₁, h₂, h₃, fun j hj hji hp => ht.pending_other hi hj hji hp hk⟩
  · have h := outstanding_setStream (a := 0) (b := 0) (e := { f.streamTab i with dir := d, pfPos := -1 }) hi rfl
    exact h.trans (add_zero _)

theorem detect_spec (ht : f.TableOk) (pos : Int) :
    Detected f page (f.detect page pos).1 (f.detect page pos).2.1 (f.detect page pos).2.2 := by
  have hrefl : Reports f f [] := ⟨rfl, rfl, rfl, rfl, ht, add_zero _⟩
  have htrains (t : Nat) (h : f.findStream (trains page) = some t) : OfPage f page t ∧ (f.streamTab t).dir = 0 := by
    obtain ⟨hi, hq⟩ := findStream_some h
    simp only [trains, Bool.and_eq_true, decide_eq_true_eq] at hq
    exact ⟨⟨hi, hq.1⟩, hq.2⟩
  unfold detect
  dsimp only
  rcases hs : f.findStream (continues page pos) with _ | i
  · rcases htr : f.findStream (trains page) with _ | t
    · refine ⟨hrefl, (fun _ h => nomatch h), (fun _ h => nomatch h), fun _ _ => ⟨rfl, fun i hi hpage hdir => ?_⟩⟩
      have hq := findStream_none htr hi
      simp [trains, hpage, hdir] at hq
    · obtain ⟨hof, hdir⟩ := htrains t htr
      dsimp only
      by_cases hpos : pos ≠ (f.streamTab t).lastPos
      · rw [if_pos hpos]
        obtain ⟨d, hd⟩ : ∃ d : Int, d = if pos > (f.streamTab t).lastPos then 1 else -1 := ⟨_, rfl⟩
        have hd' : d = 1 ∨ d = -1 := by
          rw [hd]
          split
          · exact .inl rfl
          · exact .inr rfl
        rw [← hd]
        by_cases hno : ¬ f.hasDir page d = true
        · rw [if_pos hno]
          refine ⟨Reports.detect ht hof.lt hof.page hd' hno, ?_, (fun _ h => nomatch h), (fun h => nomatch h)⟩
          rintro i ⟨⟩
          refine ⟨⟨hof.lt, ?_⟩, ?_⟩
          · rw [setStream_same]
            exact hof.page
          · rw [setStream_same]
            show d ≠ 0
            omega
        · rw [if_neg hno]
          have hlike : Like f (f.setLastPos t pos) := like_setLastPos pos
          refine ⟨hlike.reports ht, (fun _ h => nomatch h), ?_, (fun _ h => nomatch h)⟩
          rintro i ⟨⟩
          exact ⟨⟨hof.lt, (hlike.stream t).page.trans hof.page⟩, (hlike.stream t).dir.trans hdir⟩
      · rw [if_neg hpos]
        refine ⟨hrefl, (fun _ h => nomatch h), ?_, (fun _ h => nomatch h)⟩
        rintro i ⟨⟩
        exact ⟨hof, hdir⟩
  · obtain ⟨hi, hq⟩ := findStream_some hs
    simp only [continues, Bool.and_eq_true, decide_eq_true_eq] at hq
    refine ⟨hrefl, ?_, htrains, (fun h => nomatch h)⟩
    rintro i ⟨⟩
    exact ⟨⟨hi, hq.1⟩, hq.2.1⟩

/-- Step 2, whole: the stream, the entry the pair line goes to and what was dropped for it. -/
structure Trained (f : L2StreamPrefetcher) (page : Nat) (s : Option Nat) (home : Nat) (dropped : List Report)
    (g : L2StreamPrefetcher) : Prop where
  reports : Reports f g dropped
  ofPage : OfPage g page home
  stream : ∀ i, s = some i → OfPage g page i ∧ (g.streamTab i).dir ≠ 0
  replaced : ∀ r ∈ dropped, Replaced f r ∧ home = f.lruStream ∧ (g.streamTab home).dir = 0 ∧
    ((f.streamTab home).page = some page → (f.streamTab home).dir ≠ 0)

theorem Like.ofPage (h : Like f g) (ho : OfPage f page i) : OfPage g page i :=
  ⟨by rw [h.p]; exact ho.lt, (h.stream i).page.trans ho.page⟩

theorem train_spec (ht : f.TableOk) (hstreams : 0 < f.p.streams) (pos : Int) :
    Trained f page (f.train page pos).1 (f.train page pos).2.1 (f.train page pos).2.2.1 (f.train page pos).2.2.2 := by
  have hd := @detect_spec f page ht pos
  unfold train
  dsimp only
  rcases hdet : f.detect page pos with ⟨s, tr, g⟩
  rw [hdet] at hd
  dsimp only at hd ⊢
  have hrepeats (m : Nat) (h : f.findStream (repeats page pos) = some m) : OfPage f page m := by
    obtain ⟨hi, hq⟩ := findStream_some h
    simp only [repeats, Bool.and_eq_true, decide_eq_true_eq] at hq
    exact ⟨hi, hq.1⟩
  have htouch (i j : Nat) (h : OfPage g page i) : Reports f (g.touch j) [] ∧ OfPage (g.touch j) page i :=
    ⟨hd.reports.trans (like_touch.reports hd.reports.table), like_touch.ofPage h⟩
  rcases s with _ | i
  · rcases tr with _ | t
    · obtain ⟨hgf, hno⟩ := hd.same rfl rfl
      rcases hsame : f.findStream (repeats page pos) with _ | m
      · -- no entry of the page is at hand
        have ha := allocate_spec ht hstreams pos hno
        rcases hall : f.allocate page pos with ⟨v, dropped, k⟩
        rw [hall] at ha
        obtain ⟨hrep, hdrop, hv, hpage, hdir, -⟩ := ha
        dsimp only at hrep hdrop hv hpage hdir
        rw [hgf, hall]
        refine ⟨hrep, ⟨?_, hv ▸ hpage⟩, (fun _ h => nomatch h), fun r hr => ⟨hdrop r hr, hv, hv ▸ hdir, hv ▸ hno _ (lruStream_lt hstreams)⟩⟩
        show v < k.p.streams
        rw [hrep.p, hv]
        exact lruStream_lt hstreams
      · obtain ⟨h₁, h₂⟩ := htouch m m (hgf ▸ hrepeats m hsame)
        exact ⟨h₁, h₂, (fun _ h => nomatch h), (fun _ h => nomatch h)⟩
    · obtain ⟨h₁, h₂⟩ := htouch t t (hd.training t rfl).1
      refine ⟨h₁.trans ((like_setLastPos pos).reports h₁.table), (like_setLastPos pos).ofPage h₂, (fun _ h => nomatch h),
        (fun _ h => nomatch h)⟩
  · obtain ⟨hof, hdir⟩ := hd.stream i rfl
    have hstream (k : L2StreamPrefetcher) (hlike : Like g k) (hk : Reports f k []) : Trained f page (some i) i [] k := by
      refine ⟨hk, hlike.ofPage hof, ?_, (fun _ h => nomatch h)⟩
      rintro j ⟨⟩
      refine ⟨hlike.ofPage hof, ?_⟩
      rw [(hlike.stream i).dir]
      exact hdir
    rcases tr with _ | t
    · rcases hsame : f.findStream (repeats page pos) with _ | m
      · exact hstream g ⟨rfl, rfl, rfl, rfl, fun _ => Stream.Like.refl _⟩ hd.reports
      · exact hstream _ like_touch (htouch i m hof).1
    · exact hstream _ like_touch (htouch i t hof).1

end L2StreamPrefetcher

end Pimid.Cache.Streamer
