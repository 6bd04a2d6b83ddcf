import Mathlib.Data.Multiset.UnionInter
import Pimid.Cache.StreamerTable

/-!
# Runs of the streamer

What one prefetch, one stream's step ahead and one access do, and from these what every
sequence of accesses keeps.
-/

namespace Pimid.Cache.Streamer.L2StreamPrefetcher

open Finset

variable {f g : L2StreamPrefetcher} {l l' : Lookup} {page : Nat}

/-! ## One prefetch -/

theorem TableOk.fetch (ht : f.TableOk) {owner pos : Nat} (ho : OfPage f page owner) (hpos : pos < 64)
    (hfree : f.isPending page pos = false) {tag : Nat} (htag : tag ≠ 0) (cycle resp : Nat) :
    (f.fetch owner pos cycle resp tag).TableOk ∧
      (f.fetch owner pos cycle resp tag).outstanding = f.outstanding + {⟨f.profIssued, page * 64 + pos, tag⟩} ∧
      ∀ i, ((f.fetch owner pos cycle resp tag).streamTab i).page = (f.streamTab i).page ∧
        ((f.fetch owner pos cycle resp tag).streamTab i).dir = (f.streamTab i).dir := by
  obtain ⟨e, he⟩ : ∃ e : Stream, e = { f.streamTab owner with
      pending := Function.update (f.streamTab owner).pending pos true
      resp := Function.update (f.streamTab owner).resp pos resp
      iss := Function.update (f.streamTab owner).iss pos cycle
      tag := Function.update (f.streamTab owner).tag pos tag
      serial := Function.update (f.streamTab owner).serial pos f.profIssued } := ⟨_, rfl⟩
  have hfetch : f.fetch owner pos cycle resp tag = (f.takeSlot cycle resp).setStream owner e := by
    rw [he]
    rfl
  have hlike : Like f (f.takeSlot cycle resp) := like_takeSlot cycle resp
  have ht' := hlike.table ht
  have hfree' := isPending_eq_false.mp hfree
  have hpage : e.page = some page := by rw [he]; exact ho.page
  have hdir : e.dir = (f.streamTab owner).dir := by rw [he]
  have hpend : e.pending pos = true := by rw [he]; exact Function.update_self _ _ _
  have htok : e.token pos = ⟨f.profIssued, page * 64 + pos, tag⟩ := by
    unfold Stream.token
    rw [hpage, he]
    simp
  have hother (k : Nat) (hk : k ≠ pos) :
      e.pending k = (f.streamTab owner).pending k ∧ e.token k = (f.streamTab owner).token k := by
    rw [he]
    simp [Stream.token, hk]
  rw [hfetch]
  refine ⟨?_, ?_, ?_⟩
  · refine ht'.setStream ?_ ?_ ?_
    · rw [hdir]
      exact ht.dirs owner ho.lt
    · intro j hj hjo pg h₁ h₂ h
      rw [hpage] at h₁
      cases h₁
      exact hjo (ht.one j hj owner ho.lt page h₂ ho.page (h.symm.trans hdir))
    · intro k hk
      by_cases hkp : k = pos
      · subst hkp
        refine ⟨hpos, ⟨page, hpage⟩, ?_, fun j hj _ hjp => hfree' j hj (hjp.trans hpage)⟩
        rw [show e.tag k = tag from congrArg Token.tag htok]
        exact htag
      · obtain ⟨h₁, h₂⟩ := hother k hkp
        rw [h₁] at hk
        obtain ⟨hk₁, -, hk₃⟩ := ht.known owner ho.lt k hk
        refine ⟨hk₁, ⟨page, hpage⟩, ?_, fun j hj hjo hjp => ?_⟩
        · rw [show e.tag k = (f.streamTab owner).tag k from congrArg Token.tag h₂]
          exact hk₃
        · exact ht.pending_other ho.lt hj hjo (hjp.trans (hpage.trans ho.page.symm)) hk
  · have hheld : e.held = (f.streamTab owner).held + {e.token pos} :=
      Stream.held_add hpos (hfree' owner ho.lt ho.page) hpend hother
    have h := outstanding_setStream (f := f.takeSlot cycle resp) (a := 0) (b := {e.token pos}) ho.lt
      ((add_zero _).trans hheld)
    rw [← htok, ← hlike.outstanding, ← h, add_zero]
  · intro i
    by_cases hi : i = owner
    · rw [hi, setStream_same]
      exact ⟨hpage.trans ho.page.symm, hdir⟩
    · rw [setStream_ne _ hi]
      exact ⟨rfl, rfl⟩

theorem nextTag_ne_zero (t : Nat) : nextTag t ≠ 0 := by
  unfold nextTag
  split
  · exact Nat.one_ne_zero
  · assumption

/-- An access on its way, from the table `f`: what it has made so far. -/
structure Going (f : L2StreamPrefetcher) (l : Lookup) : Prop where
  p : l.pf.p = f.p
  lat : l.pf.parentHitLat = f.parentHitLat
  table : l.pf.TableOk
  balance : l.pf.outstanding = f.outstanding + fetchedOf l.issues
  issued : l.pf.profIssued = f.profIssued + l.issues.length
  serials : l.issues.map (·.serial) = List.range' (f.profIssued + 1) l.issues.length
  frame : ∀ i, (l.pf.streamTab i).page = (f.streamTab i).page ∧ (l.pf.streamTab i).dir = (f.streamTab i).dir
  nrec : l.nrec ≤ l.issues.length
  free : ∀ x ∈ l.issues, x.wasPending = false ∧ x.held < f.p.queue

theorem Going.start (ht : f.TableOk) : Going f { pf := f } :=
  ⟨rfl, rfl, ht, (add_zero _).symm, rfl, rfl, fun _ => ⟨rfl, rfl⟩, Nat.le_refl 0, (fun _ h => nomatch h)⟩

theorem Going.ofPage (h : Going f l) {i : Nat} (ho : OfPage f page i) : OfPage l.pf page i :=
  ⟨by rw [h.p]; exact ho.lt, (h.frame i).1.trans ho.page⟩

theorem Going.like (h : Going f l) (hlike : Like l.pf g) : Going f { l with pf := g } :=
  ⟨hlike.p.trans h.p, hlike.lat.trans h.lat, hlike.table h.table, hlike.outstanding.trans h.balance,
    hlike.issued.trans h.issued, h.serials,
    fun i => ⟨(hlike.stream i).page.trans (h.frame i).1, (hlike.stream i).dir.trans (h.frame i).2⟩, h.nrec, h.free⟩

/-- What `issue` can do, other than abort. -/
inductive Issued (f : L2StreamPrefetcher) (l : Lookup) (cycle line owner : Nat) (spatial : Bool) : Bool × Lookup → Prop
  | held (h : l.pf.p.queue ≤ l.pf.inFlight cycle) : Issued f l cycle line owner spatial (false, l)
  | made (l' : Lookup) (x : Issue) (going : Going f l') (issues : l'.issues = l.issues ++ [x]) (line_eq : x.line = line)
      (owner_eq : x.owner = owner) (spatial_eq : x.spatial = spatial) (page_eq : x.page = (f.streamTab owner).page)
      (dir_eq : x.dir = (f.streamTab owner).dir) : Issued f l cycle line owner spatial (true, l')

theorem Going.issue (h : Going f l) {owner pos : Nat} (ho : OfPage f page owner) (hpos : pos < 64)
    (hfree : l.pf.isPending page pos = false) (cycle : Nat) (spatial : Bool) (pf : Nat → Answer) (hrec : l.nrec < MAX_RECS) :
    ∃ r, issue cycle (page * 64 + pos) owner spatial pf l = .ok r ∧ Issued f l cycle (page * 64 + pos) owner spatial r := by
  have hdiv : (page * 64 + pos) / 64 = page := by omega
  have hmod : (page * 64 + pos) % 64 = pos := by omega
  unfold L2StreamPrefetcher.issue
  dsimp only
  rw [hdiv, hmod]
  by_cases hheld : l.pf.inFlight cycle ≥ l.pf.p.queue
  · rw [if_pos hheld]
    exact ⟨_, rfl, .held hheld⟩
  rw [if_neg hheld, if_neg fun hr => hr.2 hrec]
  obtain ⟨a, ha⟩ : ∃ a, a = pf l.issues.length := ⟨_, rfl⟩
  obtain ⟨tag, htag⟩ : ∃ tag, tag = nextTag l.pf.tagSeq := ⟨_, rfl⟩
  obtain ⟨g, hg⟩ : ∃ g : L2StreamPrefetcher, g = { l.pf with tagSeq := tag, profIssued := l.pf.profIssued + 1 } := ⟨_, rfl⟩
  rw [← htag, ← ha, ← hg]
  have hgt : g.TableOk := by rw [hg]; exact ⟨h.table.dirs, h.table.one, h.table.once, h.table.known⟩
  have hgout : g.outstanding = l.pf.outstanding := by rw [hg]; rfl
  have hgi : g.profIssued = f.profIssued + (l.issues.length + 1) := by
    rw [hg]
    show l.pf.profIssued + 1 = _
    rw [h.issued, Nat.add_assoc]
  have hgo : OfPage g page owner := by rw [hg]; exact ⟨(h.ofPage ho).lt, (h.ofPage ho).page⟩
  have hgfree : g.isPending page pos = false := by rw [hg]; exact hfree
  have hgframe (i : Nat) : (g.streamTab i).page = (f.streamTab i).page ∧ (g.streamTab i).dir = (f.streamTab i).dir := by
    rw [hg]
    exact h.frame i
  have hnrec : (if a.record = true then l.nrec + 1 else l.nrec) ≤ l.issues.length + 1 := by
    have := h.nrec
    split <;> omega
  have hp : g.p = f.p := by rw [hg]; exact h.p
  have hlat : g.parentHitLat = f.parentHitLat := by rw [hg]; exact h.lat
  have hserials (x : Issue) (hx : x.serial = l.pf.profIssued + 1) :
      (l.issues ++ [x]).map (·.serial) = List.range' (f.profIssued + 1) (l.issues ++ [x]).length := by
    rw [List.length_append, List.length_singleton, List.range'_concat, List.map_append, h.serials, List.map_singleton, hx, h.issued]
    congr 2
    omega
  have hfreed (x : Issue) (h₁ : x.wasPending = l.pf.isPending page pos) (h₂ : x.held = l.pf.inFlight cycle) :
      ∀ y ∈ l.issues ++ [x], y.wasPending = false ∧ y.held < f.p.queue := by
    intro y hy
    rcases List.mem_append.mp hy with hy | hy
    · exact h.free y hy
    · obtain rfl := List.mem_singleton.mp hy
      rw [h₁, h₂, hfree, ← h.p]
      exact ⟨rfl, Nat.not_le.mp hheld⟩
  have hlen (x : Issue) : g.profIssued = f.profIssued + (l.issues ++ [x]).length := by
    rw [hgi, List.length_append, List.length_singleton]
  obtain ⟨fetched, hf⟩ : ∃ b, b = decide (a.resp > cycle + l.pf.parentHitLat) := ⟨_, rfl⟩
  rw [← hf]
  refine ⟨_, rfl, .made _ _ ?_ rfl rfl rfl rfl (h.frame owner).1 (h.frame owner).2⟩
  cases fetched with
  | true =>
    obtain ⟨ht₁, ht₂, ht₃⟩ := hgt.fetch hgo hpos hgfree (htag ▸ nextTag_ne_zero _ : tag ≠ 0) cycle a.resp
    rw [if_pos rfl]
    refine ⟨hp, hlat, ht₁, ?_, hlen _, hserials _ rfl, fun i => ?_, ?_, hfreed _ rfl rfl⟩
    · rw [ht₂, hgout, h.balance, fetchedOf_append, add_assoc, show g.profIssued = l.pf.profIssued + 1 by rw [hg]]
      rfl
    · exact ⟨(ht₃ i).1.trans (hgframe i).1, (ht₃ i).2.trans (hgframe i).2⟩
    · rw [List.length_append]
      exact hnrec
  | false =>
    rw [if_neg Bool.false_ne_true]
    refine ⟨hp, hlat, hgt, ?_, hlen _, hserials _ rfl, hgframe, ?_, hfreed _ rfl rfl⟩
    · rw [hgout, h.balance, fetchedOf_append]
      exact congrArg _ (add_zero _).symm
    · rw [List.length_append]
      exact hnrec

/-! ## A stream goes ahead -/

/-- A prefetch of stream `s`, which goes `d`, for a request at `pos` of the page. -/
structure Ahead (p : Params) (page : Nat) (pos : Int) (s : Nat) (d : Int) (x : Issue) : Prop where
  owner : x.owner = s
  spatial : x.spatial = false
  page_eq : x.page = some page
  dir_eq : x.dir = d
  line : ∃ next < 64, x.line = page * 64 + next ∧ 1 ≤ (next - pos) * d ∧ (next - pos) * d ≤ p.distance

theorem Going.ahead {s : Nat} {pos : Int} (ho : OfPage f page s)
    (hdir : (f.streamTab s).dir = 1 ∨ (f.streamTab s).dir = -1) (hrecs : f.p.perLookup ≤ MAX_RECS) (cycle : Nat)
    (pf : Nat → Answer) (fuel n : Nat) (next : Int) (l : Lookup) (h : Going f l) (hn : l.issues.length = n)
    (hper : n ≤ f.p.perLookup) (hgone : n + 1 ≤ (next - pos) * (f.streamTab s).dir) (hdist : n ≤ f.p.distance)
    (hahead : ∀ x ∈ l.issues, Ahead f.p page pos s (f.streamTab s).dir x) :
    ∃ l', ahead cycle page pos s pf fuel n next l = .ok l' ∧ Going f l' ∧ (∀ x ∈ l'.issues, Ahead f.p page pos s (f.streamTab s).dir x) ∧
      l'.issues.length ≤ f.p.perLookup ∧ l'.issues.length ≤ f.p.distance := by
  induction fuel generalizing n next l with
  | zero => exact ⟨l, rfl, h, hahead, hn ▸ hper, hn ▸ hdist⟩
  | succ fuel ih =>
    unfold L2StreamPrefetcher.ahead
    dsimp only
    rw [h.p, (h.frame s).2]
    by_cases hcond : n < f.p.perLookup ∧ next ≥ 0 ∧ next < 64 ∧ (next - pos) * (f.streamTab s).dir ≤ f.p.distance
    · rw [if_pos hcond]
      have hgone' : n + 1 + 1 ≤ (next + (f.streamTab s).dir - pos) * (f.streamTab s).dir := by
        rcases hdir with hd | hd <;> rw [hd] at hgone ⊢ <;> omega
      by_cases hp : l.pf.isPending page next.toNat = true
      · rw [if_pos hp]
        exact ih n _ _ (h.like (like_setPfPos next)) hn hper (by omega) hdist hahead
      · rw [if_neg hp]
        have hrec : l.nrec < MAX_RECS := by
          have := h.nrec
          omega
        obtain ⟨⟨done, l'⟩, hr, hi⟩ := @Going.issue f l page h s next.toNat ho (by omega) (Bool.not_eq_true _ ▸ hp) cycle false pf hrec
        rw [hr]
        cases hi with
        | held => exact ⟨l, rfl, h, hahead, hn ▸ hper, hn ▸ hdist⟩
        | made _ x going issues line_eq owner_eq spatial_eq page_eq dir_eq =>
          have hx : Ahead f.p page pos s (f.streamTab s).dir x := by
            refine ⟨owner_eq, spatial_eq, page_eq.trans ho.page, dir_eq, next.toNat, by omega, line_eq, ?_, ?_⟩
            · rw [show ((next.toNat : Nat) : Int) = next by omega]
              omega
            · rw [show ((next.toNat : Nat) : Int) = next by omega]
              exact hcond.2.2.2
          refine ih (n + 1) _ _ (going.like (like_setPfPos next)) ?_ (by omega) ?_ ?_ ?_
          · show l'.issues.length = n + 1
            rw [issues, List.length_append, List.length_singleton, hn]
          · push_cast
            exact hgone'
          · omega
          · intro y hy
            rw [issues] at hy
            rcases List.mem_append.mp hy with hy | hy
            · exact hahead y hy
            · exact List.mem_singleton.mp hy ▸ hx
    · rw [if_neg hcond]
      exact ⟨l, rfl, h, hahead, hn ▸ hper, hn ▸ hdist⟩

/-- While every slot is held, a stream only notes what is pending already. -/
theorem ahead_held {s : Nat} {pos : Int} (cycle : Nat) (pf : Nat → Answer) (fuel n : Nat) (next : Int) (l : Lookup)
    (hfull : l.pf.p.queue ≤ l.pf.inFlight cycle) :
    ∃ l', L2StreamPrefetcher.ahead cycle page pos s pf fuel n next l = .ok l' ∧ l'.issues = l.issues ∧ l'.nrec = l.nrec := by
  induction fuel generalizing n next l with
  | zero => exact ⟨l, rfl, rfl, rfl⟩
  | succ fuel ih =>
    unfold L2StreamPrefetcher.ahead
    dsimp only
    split
    · split
      · obtain ⟨l', hl', h₁, h₂⟩ := ih n (next + (l.pf.streamTab s).dir) { l with pf := l.pf.setPfPos s next } hfull
        exact ⟨l', hl', h₁, h₂⟩
      · unfold L2StreamPrefetcher.issue
        rw [if_pos hfull]
        exact ⟨l, rfl, rfl, rfl⟩
    · exact ⟨l, rfl, rfl, rfl⟩

theorem fetch_dir (owner pos cycle resp tag i : Nat) :
    ((f.fetch owner pos cycle resp tag).streamTab i).dir = (f.streamTab i).dir := by
  unfold fetch
  dsimp only
  by_cases hi : i = owner
  · rw [hi, setStream_same]
    rfl
  · rw [setStream_ne _ hi]
    rfl

theorem issue_dir {cycle line owner : Nat} {spatial done : Bool} {pf : Nat → Answer}
    (h : issue cycle line owner spatial pf l = .ok (done, l')) (i : Nat) :
    (l'.pf.streamTab i).dir = (l.pf.streamTab i).dir := by
  unfold issue at h
  dsimp only at h
  split at h
  · cases h
    rfl
  · split at h
    · cases h
    · cases h
      dsimp only
      split
      · exact fetch_dir _ _ _ _ _ i
      · rfl

/-- How many lines of the page are ahead. -/
def remaining (dir next : Int) : Int := if dir = 1 then 64 - next else next + 1

/-- The `while` ends within a page: more fuel changes nothing. -/
theorem ahead_fuel {s : Nat} {pos d : Int} (hd : d = 1 ∨ d = -1) (cycle : Nat) (pf : Nat → Answer) (fuel n : Nat)
    (next : Int) (l : Lookup) (hdir : (l.pf.streamTab s).dir = d) (hfuel : remaining d next ≤ fuel) :
    ahead cycle page pos s pf (fuel + 1) n next l = ahead cycle page pos s pf fuel n next l := by
  induction fuel generalizing n next l with
  | zero =>
    unfold ahead
    refine if_neg fun h => ?_
    unfold remaining at hfuel
    split at hfuel <;> omega
  | succ fuel ih =>
    have hnext : remaining d (next + d) ≤ fuel := by
      unfold remaining at hfuel ⊢
      rcases hd with rfl | rfl
      · rw [if_pos rfl] at hfuel ⊢
        omega
      · rw [if_neg (by decide)] at hfuel ⊢
        omega
    conv_lhs => rw [ahead.eq_2]
    conv_rhs => rw [ahead.eq_2]
    dsimp only
    rw [hdir]
    by_cases hcond : n < l.pf.p.perLookup ∧ next ≥ 0 ∧ next < 64 ∧ (next - pos) * d ≤ l.pf.p.distance
    · rw [if_pos hcond, if_pos hcond]
      by_cases hp : l.pf.isPending page next.toNat = true
      · rw [if_pos hp, if_pos hp]
        exact ih n _ _ ((like_setPfPos next).stream s |>.dir.trans hdir) hnext
      · rw [if_neg hp, if_neg hp]
        rcases hi : issue cycle (page * 64 + next.toNat) s false pf l with _ | ⟨done, l'⟩
        · rfl
        · cases done with
          | false => rfl
          | true =>
            have h' : (l'.pf.streamTab s).dir = d := (issue_dir hi s).trans hdir
            exact ih (n + 1) _ _ ((like_setPfPos next).stream s |>.dir.trans h') hnext
    · rw [if_neg hcond, if_neg hcond]

/-! ## Steps 3 and 4 -/

/-- The prefetch of the pair line. -/
structure Pair (page pos : Nat) (x : Issue) : Prop where
  spatial : x.spatial = true
  line : x.line = page * 64 + (pos ^^^ 1)

/-- What the prefetches of one access are: a stream's, which goes `d`, and then the pair
line's. -/
structure Limits (p : Params) (page pos : Nat) (l2Miss : Bool) (issues : List Issue) : Prop where
  split : ∃ s d ahead pair, issues = ahead ++ pair ∧ (d = 1 ∨ d = -1) ∧ (∀ x ∈ ahead, Ahead p page pos s d x) ∧
    ahead.length ≤ p.perLookup ∧ (∀ x ∈ pair, Pair page pos x) ∧ pair.length ≤ (p.spatial && l2Miss).toNat
  free : ∀ x ∈ issues, x.wasPending = false ∧ x.held < p.queue

/-- There is a timing record to spare for the pair line, if one can be asked for. -/
def Room (f : L2StreamPrefetcher) (cycle : Nat) (l2Miss : Bool) : Prop :=
  f.p.perLookup + 1 ≤ MAX_RECS ∨ f.p.spatial = false ∨ f.p.distance + 1 ≤ MAX_RECS ∨
    (l2Miss = true → f.p.queue ≤ f.inFlight cycle)

theorem xor_one_lt {pos : Nat} (h : pos < 64) : pos ^^^ 1 < 64 := Nat.xor_lt_two_pow (n := 6) h (by decide)

theorem follow_spec (ht : f.TableOk) (req : Req) (s : Option Nat) (pf : Nat → Answer)
    (hs : ∀ i, s = some i → OfPage f (req.lineAddr / 64) i ∧ (f.streamTab i).dir ≠ 0) (hper : f.p.perLookup ≤ MAX_RECS) :
    ∃ i d l, follow req s pf f = .ok l ∧ Going f l ∧ (d = 1 ∨ d = -1) ∧
      (∀ x ∈ l.issues, Ahead f.p (req.lineAddr / 64) (req.lineAddr % 64 : Nat) i d x) ∧ l.issues.length ≤ f.p.perLookup ∧
      l.issues.length ≤ f.p.distance ∧ (f.p.queue ≤ f.inFlight req.cycle → l.issues = []) := by
  cases s with
  | none => exact ⟨0, 1, _, rfl, Going.start ht, .inl rfl, (fun _ h => nomatch h), Nat.zero_le _, Nat.zero_le _, fun _ => rfl⟩
  | some i =>
    obtain ⟨hof, hdir⟩ := hs i rfl
    have hdir' : (f.streamTab i).dir = 1 ∨ (f.streamTab i).dir = -1 := by
      have := ht.dirs i hof.lt
      omega
    unfold follow
    dsimp only
    obtain ⟨pos, hpos⟩ : ∃ pos : Nat, pos = req.lineAddr % 64 := ⟨_, rfl⟩
    obtain ⟨g, hg⟩ : ∃ g, g = (f.touch i).setLastPos i pos := ⟨_, rfl⟩
    rw [← hpos, ← hg]
    have hlike : Like f g := hg ▸ like_touch.trans (like_setLastPos _)
    have hgoing := (Going.start ht).like hlike
    have hnext : 1 ≤ (nextPos (g.streamTab i) pos - pos) * (f.streamTab i).dir := by
      unfold nextPos
      rw [(hlike.stream i).dir]
      rcases hdir' with hd | hd <;> rw [hd] <;> split <;> omega
    obtain ⟨l, hl, h₁, h₂, h₃, h₄⟩ := Going.ahead hof hdir' hper req.cycle pf 64 0 _ _ hgoing rfl (Nat.zero_le _) hnext
      (Nat.zero_le _) (fun _ h => nomatch h)
    refine ⟨i, _, l, hl, h₁, hdir', h₂, h₃, h₄, fun hfull => ?_⟩
    have hfull' : g.p.queue ≤ g.inFlight req.cycle := by rw [hg]; exact hfull
    obtain ⟨l', hl', h₅, -⟩ := @ahead_held (req.lineAddr / 64) i pos req.cycle pf 64 0
      (nextPos (g.streamTab i) pos) { pf := g } hfull'
    rw [hl] at hl'
    cases hl'
    exact h₅

theorem complete_spec {home : Nat} (req : Req) (l2Miss : Bool) (pf : Nat → Answer) (h : Going f l)
    (hhome : OfPage f (req.lineAddr / 64) home) (hroom : f.p.spatial = true → l2Miss = true → l.nrec < MAX_RECS) :
    ∃ l' pair, complete req l2Miss home pf l = .ok l' ∧ Going f l' ∧ l'.issues = l.issues ++ pair ∧
      (∀ x ∈ pair, Pair (req.lineAddr / 64) (req.lineAddr % 64) x) ∧ pair.length ≤ (f.p.spatial && l2Miss).toNat := by
  unfold complete
  dsimp only
  rw [h.p]
  by_cases hcond : f.p.spatial = true ∧ l2Miss = true ∧
      ¬ l.pf.isPending (req.lineAddr / 64) (req.lineAddr % 64 ^^^ 1) = true
  · rw [if_pos hcond]
    obtain ⟨⟨done, l'⟩, hr, hi⟩ := h.issue hhome (xor_one_lt (Nat.mod_lt _ (by decide)))
      (Bool.not_eq_true _ ▸ hcond.2.2) req.cycle true pf (hroom hcond.1 hcond.2.1)
    rw [hr]
    cases hi with
    | held => exact ⟨l, [], rfl, h, (List.append_nil _).symm, (fun _ h => nomatch h), Nat.zero_le _⟩
    | made _ x going issues line_eq owner_eq spatial_eq page_eq dir_eq =>
      refine ⟨l', [x], rfl, going, issues, fun y hy => ?_, ?_⟩
      · rw [List.mem_singleton.mp hy]
        exact ⟨spatial_eq, line_eq⟩
      · rw [hcond.1, hcond.2.1]
        exact Nat.le_refl 1
  · rw [if_neg hcond]
    exact ⟨l, [], rfl, h, (List.append_nil _).symm, (fun _ h => nomatch h), Nat.zero_le _⟩

/-- The access goes on as `prefetch` leaves it. -/
structure Prefetched (f : L2StreamPrefetcher) (req : Req) (l2Miss : Bool) (s : Option Nat) (home : Nat) (pf : Nat → Answer)
    (l : Lookup) : Prop where
  ok : prefetch req l2Miss s home pf f = .ok l
  going : Going f l
  limits : Limits f.p (req.lineAddr / 64) (req.lineAddr % 64) l2Miss l.issues

theorem prefetch_spec (ht : f.TableOk) (req : Req) (l2Miss : Bool) (s : Option Nat) {home : Nat} (pf : Nat → Answer)
    (hhome : OfPage f (req.lineAddr / 64) home)
    (hs : ∀ i, s = some i → OfPage f (req.lineAddr / 64) i ∧ (f.streamTab i).dir ≠ 0)
    (hper : f.p.perLookup ≤ MAX_RECS) (hroom : Room f req.cycle l2Miss) :
    ∃ l, Prefetched f req l2Miss s home pf l := by
  obtain ⟨i, d, l, hl, hgoing, hd, hahead, hlen, hlen', hfull⟩ := follow_spec ht req s pf hs hper
  have hspare : f.p.spatial = true → l2Miss = true → l.nrec < MAX_RECS := by
    intro hspatial hmiss
    have hnrec := hgoing.nrec
    rcases hroom with h | h | h | h
    · omega
    · rw [hspatial] at h
      cases h
    · omega
    · rw [hfull (h hmiss)] at hnrec
      exact Nat.lt_of_le_of_lt hnrec (by decide)
  obtain ⟨l', pair, hl', hgoing', hissues, hpair, hpair'⟩ := complete_spec req l2Miss pf hgoing hhome hspare
  refine ⟨l', ?_, hgoing', ⟨⟨i, d, l.issues, pair, hissues, hd, hahead, hlen, hpair, hpair'⟩, hgoing'.free⟩⟩
  unfold prefetch
  rw [hl]
  exact hl'

end Pimid.Cache.Streamer.L2StreamPrefetcher
