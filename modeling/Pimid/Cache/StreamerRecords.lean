import Pimid.Cache.StreamerAccesses

/-!
# Timing records of one lookup

A lookup has room for eight timing records. The stream takes at most `perLookup` of them and
at most one for each line of `distance`; the pair line may take one more. So the parameters
leave room unless the stream alone can take all eight: then two accesses to a new page, the
second a miss three lines on, take nine.
-/

namespace Pimid.Cache.Streamer.L2StreamPrefetcher

open Function (update update_of_ne update_self)

variable {f : L2StreamPrefetcher} {l : Lookup} {page i : Nat}

theorem findStream_eq_none {q : Stream → Bool} (h : ∀ i < f.p.streams, q (f.streamTab i) = false) : f.findStream q = none := by
  refine List.find?_eq_none.mpr fun i hi => ?_
  rw [h i (List.mem_range.mp hi)]
  exact Bool.false_ne_true

theorem findStream_zero {q : Stream → Bool} (hs : 0 < f.p.streams) (h : q (f.streamTab 0) = true) : f.findStream q = some 0 := by
  obtain ⟨n, hn⟩ : ∃ n, f.p.streams = n + 1 := ⟨f.p.streams - 1, by omega⟩
  unfold findStream
  rw [hn, List.range_succ_eq_map]
  exact List.find?_cons_of_pos (p := fun i => q (f.streamTab i)) h

/-! ## A stream that is never held up -/

/-- A parent that leaves a record of every prefetch, of lines the L2 has. -/
def recording : Nat → Answer := fun _ => ⟨0, true⟩

/-- The lookup of a stream of entry 0 that goes up, `n` prefetches made and none pending. -/
structure Quiet (name : String) (p : Params) (n : Nat) (l : Lookup) : Prop where
  name : l.pf.name = name
  p : l.pf.p = p
  nrec : l.nrec = n
  free : ∀ page pos, l.pf.isPending page pos = false
  slot : l.pf.inFlight 0 < l.pf.p.queue
  dir : (l.pf.streamTab 0).dir = 1

theorem Quiet.issue {name : String} {p : Params} {n : Nat} (h : Quiet name p n l) (line owner : Nat) (spatial : Bool)
    (hn : n < MAX_RECS) :
    ∃ l', issue 0 line owner spatial recording l = .ok (true, l') ∧ Quiet name p (n + 1) l' := by
  unfold L2StreamPrefetcher.issue
  dsimp only
  rw [if_neg (Nat.not_le.mpr h.slot), if_neg fun hr => hr.2 (h.nrec ▸ hn)]
  refine ⟨_, rfl, ?_⟩
  have hzero : ¬ (recording l.issues.length).resp > 0 + l.pf.parentHitLat := Nat.not_lt_zero _
  rw [if_neg (by simpa using hzero)]
  exact ⟨h.name, h.p, congrArg (· + 1) h.nrec, h.free, h.slot, h.dir⟩

theorem Quiet.full {name : String} {p : Params} {n line owner : Nat} {spatial : Bool} (h : Quiet name p n l)
    (hn : MAX_RECS ≤ n) :
    L2StreamPrefetcher.issue 0 line owner spatial recording l =
      .error s!"{name}: more than 8 prefetch timing records in one lookup" := by
  unfold L2StreamPrefetcher.issue
  dsimp only
  rw [if_neg (Nat.not_le.mpr h.slot), if_pos ⟨rfl, by rw [h.nrec]; exact Nat.not_lt.mpr hn⟩, h.name]

theorem Quiet.setPfPos {name : String} {p : Params} {n : Nat} (h : Quiet name p n l) (x : Int) :
    Quiet name p n { l with pf := l.pf.setPfPos 0 x } := by
  refine ⟨h.name, h.p, h.nrec, fun page pos => ?_, h.slot, ?_⟩
  · have hfree := isPending_eq_false.mp (h.free page pos)
    refine isPending_eq_false.mpr fun i hi hpage => ?_
    have hlike := (like_setPfPos (f := l.pf) (i := 0) x).stream i
    rw [hlike.pending]
    exact hfree i hi (hlike.page ▸ hpage)
  · exact ((like_setPfPos (f := l.pf) (i := 0) x).stream 0).dir.trans h.dir

theorem Quiet.ahead {name : String} {p : Params} {k n : Nat} (page : Nat) (pos : Int) (fuel : Nat) (next : Int)
    (h : Quiet name p n l) (hfuel : k < fuel) (hn : n + k ≤ MAX_RECS)
    (hper : p.perLookup = n + k) (hnext : 0 ≤ next) (hend : next + k ≤ 64)
    (hdist : next + k - 1 - pos ≤ p.distance) :
    ∃ l', ahead 0 page pos 0 recording fuel n next l = .ok l' ∧ Quiet name p (n + k) l' := by
  induction k generalizing n fuel next l with
  | zero =>
    obtain ⟨fuel, rfl⟩ : ∃ m, fuel = m + 1 := ⟨fuel - 1, by omega⟩
    rw [ahead.eq_2]
    dsimp only
    rw [h.p, if_neg (by omega)]
    exact ⟨l, rfl, h⟩
  | succ k ih =>
    obtain ⟨fuel, rfl⟩ : ∃ m, fuel = m + 1 := ⟨fuel - 1, by omega⟩
    rw [ahead.eq_2]
    dsimp only
    rw [h.dir, h.p, if_pos ⟨by omega, hnext, by omega, by omega⟩, h.free, if_neg Bool.false_ne_true]
    obtain ⟨l', hl', h'⟩ := h.issue (page * 64 + next.toNat) 0 false (by omega)
    rw [hl']
    obtain ⟨l'', hl'', h''⟩ := ih fuel (next + 1) (h'.setPfPos next) (by omega) (by omega) (by omega)
      (by omega) (by omega) (by omega)
    exact ⟨l'', hl'', by rw [show n + (k + 1) = n + 1 + k by omega]; exact h''⟩

/-! ## Two accesses to a new page -/

/-- A load of line `line` of page 0, answered at `resp`. -/
def load (line resp : Nat) : Req × Parent :=
  ({ lineAddr := line, type := .GETS, cycle := 0, srcId := 0 }, { demand := resp, pf := recording })

/-- The table with one training entry, at line 2 of page 0, and nothing pending. -/
structure Trains (f : L2StreamPrefetcher) : Prop where
  page : (f.streamTab 0).page = some 0
  dir : (f.streamTab 0).dir = 0
  lastPos : (f.streamTab 0).lastPos = 2
  pfPos : (f.streamTab 0).pfPos = -1
  empty : ∀ i pos, (f.streamTab i).pending pos = false
  others : ∀ i, i ≠ 0 → (f.streamTab i).page = none

theorem foldl_same {α β : Type} {h : α → β → α} {a : α} (l : List β) (hl : ∀ b, h a b = a) : l.foldl h a = a := by
  induction l with
  | nil => rfl
  | cons b l ih => rw [List.foldl_cons, hl, ih]

theorem prefetch_none (req : Req) (home : Nat) (pf : Nat → Answer) (f : L2StreamPrefetcher) :
    prefetch req false none home pf f = .ok { pf := f } := by
  show complete req false home pf { pf := f } = _
  unfold complete
  exact if_neg fun h => Bool.false_ne_true h.2.1

/-- A first request, found in the L2: its page starts training in entry 0. -/
theorem access_first (name : String) (p : Params) (lat : Nat) :
    ∃ x g, access { name, p, parentHitLat := lat } (load 2 0).1 (load 2 0).2 = .ok (x, g) ∧ Trains g ∧
      (g.slots = fun _ => {}) ∧ g.p = p ∧ g.parentHitLat = lat ∧ g.name = name := by
  obtain ⟨f₁, hf₁⟩ : ∃ f₁ : L2StreamPrefetcher, f₁ = { name, p, parentHitLat := lat, core := 0 } := ⟨_, rfl⟩
  have htab : f₁.streamTab = fun _ => {} := by rw [hf₁]
  have hnone {q : Stream → Bool} (hq : q {} = false) : f₁.findStream q = none :=
    findStream_eq_none fun i _ => by rw [htab]; exact hq
  have hdem : f₁.demanded (load 2 0).1 0 false = f₁ := by
    unfold demanded consume
    dsimp only
    rw [hnone rfl]
    rfl
  have hlru : f₁.lruStream = 0 := foldl_same _ fun i => by rw [htab]; rfl
  have htrain : f₁.train 0 2 = (none, (f₁.allocate 0 2).1, (f₁.allocate 0 2).2.1, (f₁.allocate 0 2).2.2) := by
    unfold train detect
    dsimp only
    rw [hnone rfl, hnone rfl, hnone rfl]
    rfl
  have hmiss : false = decide (0 > 0 + lat) := (decide_eq_false (Nat.not_lt_zero _)).symm
  have hacc : ∃ x, access { name, p, parentHitLat := lat } (load 2 0).1 (load 2 0).2 = .ok (x, (f₁.allocate 0 2).2.2) := by
    have ht : f₁.train 0 2 = (f₁.demanded (load 2 0).1 (load 2 0).2.demand false).train ((load 2 0).1.lineAddr / 64)
        ((load 2 0).1.lineAddr % 64 : Nat) := congrArg (fun f => f.train 0 2) hdem.symm
    rw [access_eq (f := { name, p, parentHitLat := lat }) (by decide) (load 2 0).2 hf₁ hmiss ht, htrain]
    dsimp only
    rw [prefetch_none]
    exact ⟨_, rfl⟩
  obtain ⟨x, hx⟩ := hacc
  have hentry : (f₁.allocate 0 2).2.2.streamTab = update (fun _ => {}) 0
      (freshStream 0 2 (f₁.timestamp + 1) { tag := fun i => if (false : Bool) = true ∧ i < 64 then 0 else 0 }) := by
    unfold allocate
    dsimp only
    rw [hlru, htab]
    show update f₁.streamTab 0 _ = _
    rw [htab]
  refine ⟨x, (f₁.allocate 0 2).2.2, hx, ⟨?_, ?_, ?_, ?_, ?_, ?_⟩, ?_, ?_, ?_, ?_⟩
  · rw [hentry, update_self]
    rfl
  · rw [hentry, update_self]
    rfl
  · rw [hentry, update_self]
    rfl
  · rw [hentry, update_self]
    rfl
  · intro i pos
    rw [hentry]
    by_cases hi : i = 0
    · rw [hi, update_self]
      rfl
    · rw [update_of_ne hi]
  · intro i hi
    rw [hentry, update_of_ne hi]
  · rw [hf₁]
    rfl
  · rw [hf₁]
    rfl
  · rw [hf₁]
    rfl
  · rw [hf₁]
    rfl

/-- A slot taken of an empty queue: the others are free. -/
theorem inFlight_takeSlot_le (hslots : f.slots = fun _ => {}) (start till : Nat) :
    (f.takeSlot start till).inFlight start ≤ 1 := by
  have hone : (List.range f.p.queue).count (f.bestSlot start) ≤ 1 := List.nodup_iff_count_le_one.mp List.nodup_range _
  refine Nat.le_trans (List.countP_mono_left fun i _ hi => ?_) hone
  by_contra hne
  have hne' : i ≠ f.bestSlot start := by simpa using hne
  have hslot : (f.takeSlot start till).slots i = {} := by
    simp [takeSlot, hne', hslots]
  rw [hslot] at hi
  simp [Slot.holds] at hi

theorem Trains.train (h : Trains f) (hs : 1 ≤ f.p.streams) :
    f.train 0 5 = (some 0, 0, [], f.setStream 0 { f.streamTab 0 with dir := 1, pfPos := -1 }) := by
  have hoff (i : Nat) (q : Stream → Bool) (hq : ∀ e : Stream, e.page = none → q e = false) (h0 : q (f.streamTab 0) = false) :
      q (f.streamTab i) = false := by
    by_cases hi : i = 0
    · rw [hi]
      exact h0
    · exact hq _ (h.others i hi)
  have hcont : f.findStream (continues 0 5) = none :=
    findStream_eq_none fun i _ => hoff i _ (fun e he => by simp [continues, he]) (by simp [continues, h.dir])
  have hrep : f.findStream (repeats 0 5) = none :=
    findStream_eq_none fun i _ => hoff i _ (fun e he => by simp [repeats, he]) (by simp [repeats, h.dir])
  have htr : f.findStream (trains 0) = some 0 := findStream_zero hs (by simp [trains, h.page, h.dir])
  have hdir : ¬ f.hasDir 0 1 = true := by
    intro hany
    obtain ⟨i, -, hi⟩ := List.any_eq_true.mp hany
    rw [hoff i (fun e => decide (e.page = some 0) && decide (e.dir = 1)) (fun e he => by simp [he]) (by simp [h.dir])] at hi
    exact Bool.false_ne_true hi
  have hdet : f.detect 0 5 = (some 0, none, f.setStream 0 { f.streamTab 0 with dir := 1, pfPos := -1 }) := by
    unfold detect
    dsimp only
    rw [hcont, htr]
    dsimp only
    rw [h.lastPos, if_pos (by decide : (5 : Int) ≠ 2), if_pos (by decide : (5 : Int) > 2), if_pos hdir]
  unfold L2StreamPrefetcher.train
  rw [hdet, hrep]
  rfl

/-- **Nine records of one lookup**: the second request misses the L2, the stream makes eight
prefetches and the pair line's is the ninth. -/
theorem access_second (h : Trains f) (hslots : f.slots = fun _ => {}) (hs : 1 ≤ f.p.streams) (hq : 2 ≤ f.p.queue) (hper : f.p.perLookup = 8)
    (hspatial : f.p.spatial = true) (hdist : 8 ≤ f.p.distance) :
    f.access (load 5 (f.parentHitLat + 1)).1 (load 5 (f.parentHitLat + 1)).2 =
      .error s!"{f.name}: more than 8 prefetch timing records in one lookup" := by
  obtain ⟨resp, hresp⟩ : ∃ r, r = f.parentHitLat + 1 := ⟨_, rfl⟩
  obtain ⟨f₁, hf₁⟩ : ∃ f₁ : L2StreamPrefetcher, f₁ = { f with core := 0 } := ⟨_, rfl⟩
  obtain ⟨f₂, hf₂⟩ : ∃ f₂, f₂ = f₁.takeSlot 0 resp := ⟨_, rfl⟩
  have h₂ : Trains f₂ := by
    rw [hf₂, hf₁]
    exact ⟨h.page, h.dir, h.lastPos, h.pfPos, h.empty, h.others⟩
  have hp₂ : f₂.p = f.p := by rw [hf₂, hf₁]; rfl
  have hline : (load 5 resp).1.lineAddr = 5 := rfl
  have hdem : f₁.demanded (load 5 resp).1 resp true = f₂ := by
    have hfind : f₁.findStream (fun e => decide (e.page = some (5 / 64)) && e.pending (5 % 64)) = none :=
      findStream_eq_none fun i _ => by rw [hf₁, h.empty i _, Bool.and_false]
    have hcons : f₁.consume (load 5 resp).1 resp true = (resp, [], f₁) := by
      unfold consume
      dsimp only
      rw [hline, hfind]
    unfold demanded
    rw [if_pos rfl, hcons, hf₂]
    rfl
  have hmiss : true = decide ((load 5 resp).2.demand > (load 5 resp).1.cycle + f.parentHitLat) :=
    (decide_eq_true (show resp > 0 + f.parentHitLat by omega)).symm
  obtain ⟨g, hg⟩ : ∃ g, g = f₂.setStream 0 { f₂.streamTab 0 with dir := 1, pfPos := -1 } := ⟨_, rfl⟩
  have htrain : f₂.train 0 5 = (some 0, 0, [], g) := hg ▸ h₂.train (hp₂ ▸ hs)
  have ht : f₂.train 0 5 = (f₁.demanded (load 5 resp).1 (load 5 resp).2.demand true).train ((load 5 resp).1.lineAddr / 64)
      ((load 5 resp).1.lineAddr % 64 : Nat) := by
    rw [hline]
    exact congrArg (fun f => f.train 0 5) hdem.symm
  rw [← hresp, access_eq (by rw [show (load 5 resp).1.type = .GETS from rfl]; decide) (load 5 resp).2 hf₁ hmiss ht, htrain]
  dsimp only
  -- the stream: eight prefetches from line 6 on
  obtain ⟨k, hk⟩ : ∃ k, k = (g.touch 0).setLastPos 0 (5 % 64 : Nat) := ⟨_, rfl⟩
  have hentry : k.streamTab 0 = { f₂.streamTab 0 with dir := 1, pfPos := -1, ts := g.timestamp + 1, lastPos := 5 } := by
    rw [hk, hg]
    simp [setLastPos, touch, setStream]
  have hquiet : Quiet f.name f.p 0 { pf := k } := by
    refine ⟨?_, ?_, rfl, fun page pos => ?_, ?_, ?_⟩
    · rw [hk, hg, hf₂, hf₁]
      rfl
    · rw [hk, hg, hf₂, hf₁]
      rfl
    · refine isPending_eq_false.mpr fun i _ _ => ?_
      have hgi : (g.streamTab i).pending = (f₂.streamTab i).pending := by
        by_cases hi : i = 0
        · rw [hi, hg, setStream_same]
        · rw [hg, setStream_ne _ hi]
      rw [hk, (like_touch.trans (like_setLastPos _)).stream i |>.pending, hgi]
      exact h₂.empty i pos
    · have hone := inFlight_takeSlot_le (f := f₁) (hf₁ ▸ hslots) 0 resp
      have hsame : k.inFlight 0 = (f₁.takeSlot 0 resp).inFlight 0 := by rw [hk, hg, hf₂]; rfl
      have hkp : k.p = f.p := by rw [hk, hg, hf₂, hf₁]; rfl
      show k.inFlight 0 < k.p.queue
      rw [hsame, hkp]
      omega
    · exact congrArg Stream.dir hentry
  have hnext : nextPos (k.streamTab 0) (5 % 64 : Nat) = 6 := by
    rw [hentry]
    rfl
  obtain ⟨l, hl, hq'⟩ := hquiet.ahead (k := 8) (5 / 64) (5 % 64 : Nat) 64 6
    (by decide) (by decide) hper (by decide) (by decide) (by push_cast; omega)
  have hfollow : follow (load 5 resp).1 (some 0) recording g = .ok l := by
    unfold follow
    dsimp only
    rw [hline, ← hk, hnext]
    exact hl
  -- the pair line: one record too many
  have hcomplete : complete (load 5 resp).1 true 0 recording l =
      .error s!"{f.name}: more than 8 prefetch timing records in one lookup" := by
    unfold complete
    dsimp only
    rw [hq'.p, hq'.free, if_pos ⟨hspatial, rfl, Bool.false_ne_true⟩, show (load 5 resp).1.cycle = 0 from rfl,
      hq'.full (Nat.le_refl 8)]
    rfl
  unfold prefetch
  rw [show (load 5 resp).2.pf = recording from rfl, hfollow]
  show ((complete (load 5 resp).1 true 0 recording l) >>= fun l => _) = _
  rw [hcomplete]
  rfl

theorem run_overflows {name : String} {p : Params} {lat : Nat} (hacc : Accepted p) (hper : p.perLookup = 8)
    (hspatial : p.spatial = true) (hdist : 8 ≤ p.distance) (hqueue : 2 ≤ p.queue) :
    run { name, p, parentHitLat := lat } [load 2 0, load 5 (lat + 1)] =
      .error s!"{name}: more than 8 prefetch timing records in one lookup" := by
  obtain ⟨x, g, hfirst, htrains, hslots, hp, hlat, hname⟩ := access_first name p lat
  have hsecond := access_second htrains hslots (hp ▸ hacc.streams.1) (hp ▸ hqueue) (hp ▸ hper) (hp ▸ hspatial) (hp ▸ hdist)
  rw [hlat, hname] at hsecond
  have hrest : g.run [load 5 (lat + 1)] = .error s!"{name}: more than 8 prefetch timing records in one lookup" := by
    show ((g.access (load 5 (lat + 1)).1 (load 5 (lat + 1)).2) >>= fun y => _) = _
    rw [hsecond]
    rfl
  show ((access { name, p, parentHitLat := lat } (load 2 0).1 (load 2 0).2) >>= fun y => _) = _
  rw [hfirst]
  show ((g.run [load 5 (lat + 1)]) >>= fun y => _) = _
  rw [hrest]
  rfl

/-- **The lookup never runs out of timing records exactly when the parameters leave room for
the pair line's.** -/
theorem run_ok_iff {name : String} {p : Params} {lat : Nat} (hnew : new name p lat = .ok f) :
    (∀ accs : List (Req × Parent), ∃ r, f.run accs = .ok r) ↔
      p.perLookup ≤ 7 ∨ p.spatial = false ∨ p.distance ≤ 7 ∨ p.queue = 1 := by
  obtain ⟨rfl, hacc⟩ := new_ok hnew
  have hroom : RoomFor p ↔ p.perLookup ≤ 7 ∨ p.spatial = false ∨ p.distance ≤ 7 ∨ p.queue = 1 := by
    unfold RoomFor MAX_RECS
    rw [Nat.succ_le_succ_iff, Nat.succ_le_succ_iff]
  constructor
  · intro hall
    by_contra hno
    simp only [not_or, Nat.not_le, Bool.not_eq_false] at hno
    obtain ⟨hper, hspatial, hdist, hqueue⟩ := hno
    have hq := hacc.queue.1
    have hper' := hacc.perLookup.2
    obtain ⟨r, hr⟩ := hall [load 2 0, load 5 (lat + 1)]
    rw [run_overflows hacc (by omega) hspatial hdist (by omega)] at hr
    cases hr
  · intro h accs
    obtain ⟨xs, g, hrun, -⟩ := run_spec (tableOk_new name p lat).1 hacc.streams.1 hacc.queue.1 hacc.perLookup.2
      (hroom.mpr h) accs
    exact ⟨_, hrun⟩

/-- Of the default parameters. -/
theorem run_ok_iff_default : ∃ f, new "l2pf" {} 10 = .ok f ∧
    ((∀ accs : List (Req × Parent), ∃ r, f.run accs = .ok r) ↔ True) := by
  refine ⟨_, rfl, (run_ok_iff (p := {}) (show new "l2pf" {} 10 = .ok _ from rfl)).trans ?_⟩
  decide

/-- Two loads that miss the L2, and whose prefetches do. -/
def twoMisses : List (Req × Parent) :=
  [({ lineAddr := 2, type := .GETS, cycle := 0, srcId := 0 }, { demand := 100, pf := fun _ => ⟨100, true⟩ }),
    ({ lineAddr := 5, type := .GETS, cycle := 5, srcId := 0 }, { demand := 105, pf := fun _ => ⟨105, true⟩ })]

/-- With eight prefetches a lookup and the pair line the second of them aborts. -/
theorem streamer_aborts : ∃ f, new "l2pf" { perLookup := 8 } 10 = .ok f ∧
    f.run twoMisses = .error "l2pf: more than 8 prefetch timing records in one lookup" := by
  refine ⟨_, rfl, ?_⟩
  have h : (match run { name := "l2pf", p := { perLookup := 8 }, parentHitLat := 10 } twoMisses with
      | .error m => some m
      | .ok _ => none) = some "l2pf: more than 8 prefetch timing records in one lookup" := by decide +kernel
  rcases hr : run { name := "l2pf", p := { perLookup := 8 }, parentHitLat := 10 } twoMisses with m | r
  · rw [hr] at h
    exact congrArg Except.error (Option.some.inj h)
  · rw [hr] at h
    cases h

end Pimid.Cache.Streamer.L2StreamPrefetcher
