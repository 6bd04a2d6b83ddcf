import Pimid.Noc.Shared
import Mathlib.Data.List.Perm.Basic

/-!
# What the drains of the shared stream replay

A reader replays every record it reads, once, and counts the records it lost. Whether its
windows are whole phases depends on the cuts: a cut inside a phase splits the phase over
two drains, and a rank exempt from the cut may publish behind it.
-/

namespace Pimid.Noc

open NocOp
open Function (update update_of_ne update_self)

variable {n : Nat} {h : PimidNocHdr}

/-! ## Reading the rings -/

/-- The records of a ring from sequence number `start` on. -/
def unread (h : PimidNocHdr) (rk : PimidNocRank) (start : Nat) : List BatchAccess :=
  (List.range' start (rk.seq - start)).map fun i => (rk.ring (h.slot i)).batch

theorem readFrom_le {rk : PimidNocRank} {cur : Nat} (hc : cur ≤ rk.seq) :
    cur ≤ readFrom h rk cur ∧ readFrom h rk cur ≤ rk.seq ∧ rk.seq ≤ readFrom h rk cur + h.ringSlots := by
  unfold readFrom
  split <;> omega

theorem copyRing_eq {rk : PimidNocRank} (fuel start : Nat) (pending : List BatchAccess)
    (hfuel : start + fuel = rk.seq) (hlap : rk.seq ≤ start + h.ringSlots) :
    copyRing h rk fuel start pending = (rk.seq, pending ++ unread h rk start) := by
  induction fuel generalizing start pending with
  | zero =>
    obtain rfl : start = rk.seq := by omega
    simp [copyRing, unread]
  | succ fuel ih =>
    rw [copyRing, if_pos (by omega), if_neg (by omega), ih (start + 1) _ (by omega) (by omega)]
    have hlen : rk.seq - start = (rk.seq - (start + 1)) + 1 := by omega
    rw [unread, unread, hlen, List.range'_succ, List.map_cons, List.append_assoc, List.singleton_append]

/-- The ring read into `pending`: nothing of it is left unread. -/
theorem consumeRing_eq {ranks : Fin n → PimidNocRank} {sn : SharedNoc n} {r : Fin n}
    (hc : sn.cursor r ≤ (ranks r).seq) :
    consumeRing h ranks sn r =
      { sn with
        lost := update sn.lost r (sn.lost r + (readFrom h (ranks r) (sn.cursor r) - sn.cursor r))
        cursor := update sn.cursor r (ranks r).seq
        pending := sn.pending ++ unread h (ranks r) (readFrom h (ranks r) (sn.cursor r)) } := by
  obtain ⟨_, hle, hlap⟩ := readFrom_le (h := h) hc
  rw [consumeRing, copyRing_eq _ _ _ (by omega) hlap]

/-- What a drain finds: the records waiting and those still in the rings. -/
def found (h : PimidNocHdr) (ranks : Fin n → PimidNocRank) (sn : SharedNoc n) (l : List (Fin n)) : List BatchAccess :=
  sn.pending ++ l.flatMap fun r => unread h (ranks r) (readFrom h (ranks r) (sn.cursor r))

theorem foldl_consumeRing {ranks : Fin n → PimidNocRank} {sn : SharedNoc n} {l : List (Fin n)}
    (hc : ∀ r, sn.cursor r ≤ (ranks r).seq) (hl : l.Nodup) :
    (l.foldl (consumeRing h ranks) sn).pending = found h ranks sn l
      ∧ ∀ r, (r ∉ l → (l.foldl (consumeRing h ranks) sn).cursor r = sn.cursor r
            ∧ (l.foldl (consumeRing h ranks) sn).lost r = sn.lost r)
          ∧ (r ∈ l → (l.foldl (consumeRing h ranks) sn).cursor r = (ranks r).seq
            ∧ (l.foldl (consumeRing h ranks) sn).lost r
              = sn.lost r + (readFrom h (ranks r) (sn.cursor r) - sn.cursor r)) := by
  induction l generalizing sn with
  | nil => simp [found]
  | cons r₀ l ih =>
    rw [List.nodup_cons] at hl
    have hstep := consumeRing_eq (h := h) (hc r₀)
    have hother : ∀ {r}, r ≠ r₀ → (consumeRing h ranks sn r₀).cursor r = sn.cursor r
        ∧ (consumeRing h ranks sn r₀).lost r = sn.lost r := by
      intro r hr
      rw [hstep]
      exact ⟨update_of_ne hr _ _, update_of_ne hr _ _⟩
    have hself : (consumeRing h ranks sn r₀).cursor r₀ = (ranks r₀).seq
        ∧ (consumeRing h ranks sn r₀).lost r₀
          = sn.lost r₀ + (readFrom h (ranks r₀) (sn.cursor r₀) - sn.cursor r₀) := by
      rw [hstep]
      exact ⟨update_self _ _ _, update_self _ _ _⟩
    have hc' : ∀ r, (consumeRing h ranks sn r₀).cursor r ≤ (ranks r).seq := by
      intro r
      by_cases hr : r = r₀
      · subst hr
        exact hself.1.le
      · rw [(hother hr).1]
        exact hc r
    obtain ⟨hpend, hrest⟩ := ih hc' hl.2
    rw [List.foldl_cons]
    refine ⟨?_, fun r => ⟨fun hr => ?_, fun hr => ?_⟩⟩
    · rw [hpend, found, found, List.flatMap_cons, ← List.append_assoc]
      congr 1
      · rw [hstep]
      · refine List.flatMap_congr fun r hr => ?_
        rw [(hother fun he => hl.1 (he ▸ hr)).1]
    · rw [List.mem_cons, not_or] at hr
      rw [((hrest r).1 hr.2).1, ((hrest r).1 hr.2).2]
      exact hother hr.1
    · by_cases he : r = r₀
      · subst he
        rw [((hrest r).1 hl.1).1, ((hrest r).1 hl.1).2]
        exact hself
      · obtain ⟨h₁, h₂⟩ := (hrest r).2 ((List.mem_cons.mp hr).resolve_left he)
        rw [h₁, h₂, (hother he).1, (hother he).2]
        exact ⟨rfl, rfl⟩

/-- What one drain does, with `w` the records it finds. -/
theorem sharedNocDrain_spec {ranks : Fin n → PimidNocRank} {sn : SharedNoc n}
    (hc : ∀ r, sn.cursor r ≤ (ranks r).seq) {w : List BatchAccess} (hw : w = found h ranks sn (List.finRange n)) :
    (sharedNocDrain h ranks sn).1.pending = w.filter (fun a => ¬ a.cycle ≤ pimidNocCut ranks)
      ∧ (∀ r, (sharedNocDrain h ranks sn).1.cursor r = (ranks r).seq)
      ∧ (∀ r, (sharedNocDrain h ranks sn).1.lost r
          = sn.lost r + (readFrom h (ranks r) (sn.cursor r) - sn.cursor r))
      ∧ Classified (fun a : BatchAccess => a.cycle / h.pl) (w.filter fun a => a.cycle ≤ pimidNocCut ranks)
          (sharedNocDrain h ranks sn).2 := by
  obtain ⟨hpend, hrest⟩ := foldl_consumeRing (h := h) hc (List.nodup_finRange n)
  rw [← hw] at hpend
  refine ⟨?_, fun r => ((hrest r).2 (List.mem_finRange r)).1, fun r => ((hrest r).2 (List.mem_finRange r)).2, ?_⟩
  · rw [← hpend]
    rfl
  · have hb := (Bucketed.nil fun a : BatchAccess => a.cycle / h.pl).pushAll
      (w.filter fun a => a.cycle ≤ pimidNocCut ranks)
    rw [List.nil_append] at hb
    rw [← hpend] at hb ⊢
    exact hb.classified

/-! ## The rings hold the last records -/

/-- After the records `pub`, the ring holds the last `ringSlots` of them. -/
structure Ring (h : PimidNocHdr) (rk : PimidNocRank) (pub : List BatchAccess) : Prop where
  seq_eq : rk.seq = pub.length
  slots : ∀ i : Nat, ∀ hi : i < pub.length, pub.length ≤ i + h.ringSlots →
    (rk.ring (h.slot i)).batch = pub[i]

theorem slot_eq (h : PimidNocHdr) (i : Nat) : h.slot i = i % h.ringSlots := Nat.and_two_pow_sub_one_eq_mod _ _

theorem Ring.publish {rk : PimidNocRank} {pub : List BatchAccess} (hr : Ring h rk pub) (rec : PimidNocRec) :
    Ring h (rk.publish h rec) (pub ++ [rec.batch]) := by
  have hseq := hr.seq_eq
  refine ⟨by simp [PimidNocRank.publish, hseq], fun i hi hlap => ?_⟩
  simp only [List.length_append, List.length_singleton] at hi hlap
  by_cases he : i = pub.length
  · subst he
    simp [PimidNocRank.publish, hseq]
  · -- an older record that is still held is in another slot
    have hne : h.slot i ≠ h.slot rk.seq := by
      rw [slot_eq, slot_eq, hseq]
      intro hmod
      have hd := Nat.dvd_of_mod_eq_zero (Nat.sub_mod_eq_zero_of_mod_eq hmod.symm)
      have := Nat.le_of_dvd (by omega) hd
      omega
    have hlt : i < pub.length := by omega
    rw [List.getElem_append_left hlt, ← hr.slots i hlt (by omega)]
    simp [PimidNocRank.publish, hne]

theorem Ring.unread_eq {rk : PimidNocRank} {pub : List BatchAccess} (hr : Ring h rk pub) {start : Nat}
    (hlap : rk.seq ≤ start + h.ringSlots) : unread h rk start = pub.drop start := by
  have hseq := hr.seq_eq
  refine List.ext_getElem ?_ fun i h₁ h₂ => ?_
  · simp [unread, hseq]
  · simp only [unread, List.length_map, List.length_range'] at h₁
    simp only [unread, List.getElem_map, List.getElem_range', List.getElem_drop, Nat.one_mul]
    exact hr.slots (start + i) (by omega) (by omega)

/-- The records a reader at `cur` has not read: those that are gone, then those it finds. -/
theorem Ring.drop_split {rk : PimidNocRank} {pub : List BatchAccess} (hr : Ring h rk pub) {cur : Nat}
    (hc : cur ≤ rk.seq) :
    ∃ gone, pub.drop cur = gone ++ unread h rk (readFrom h rk cur) ∧ gone.length = readFrom h rk cur - cur := by
  obtain ⟨hge, hle, hlap⟩ := readFrom_le (h := h) hc
  have hseq := hr.seq_eq
  refine ⟨(pub.drop cur).take (readFrom h rk cur - cur), ?_, ?_⟩
  · have hdrop : (pub.drop cur).drop (readFrom h rk cur - cur) = pub.drop (readFrom h rk cur) := by
      rw [List.drop_drop]
      congr 1
      omega
    rw [hr.unread_eq hlap, ← hdrop, List.take_append_drop]
  · rw [List.length_take, List.length_drop]
    omega

/-! ## Nothing is replayed twice and every loss is counted -/

/-- After the steps `ops`: every record published is in one of the reader's windows, waits
with it, is still unread, or is one of the `lost`. -/
structure Conserved (h : PimidNocHdr) (j : Fin n) (s : NocSystem n) (ops : List (NocOp n)) : Prop where
  rings : ∀ r, Ring h (s.ranks r) (published r ops)
  cursor_le : ∀ r, (s.replicas j).sn.cursor r ≤ (s.ranks r).seq
  whole : ∀ w ∈ (s.replicas j).windows, w.2 ≠ [] ∧ ∀ a ∈ w.2, a.cycle / h.pl = w.1
  kept : ∃ dropped : Fin n → List BatchAccess, (∀ r, (dropped r).length = (s.replicas j).sn.lost r)
    ∧ ((s.replicas j).windows.flatMap (·.2) ++ (s.replicas j).sn.pending ++ (List.finRange n).flatMap dropped
        ++ (List.finRange n).flatMap fun r => (published r ops).drop ((s.replicas j).sn.cursor r)).Perm
      (allPublished ops)

theorem published_append (r : Fin n) (ops ops' : List (NocOp n)) :
    published r (ops ++ ops') = published r ops ++ published r ops' := List.filterMap_append ..

theorem allPublished_append (ops ops' : List (NocOp n)) :
    (allPublished (ops ++ ops')).Perm (allPublished ops ++ allPublished ops') := by
  simp only [allPublished, published_append]
  exact (List.flatMap_append_perm _ _ _).symm

theorem published_of_none {ops : List (NocOp n)} (op : NocOp n) (hop : ∀ r, publishedBy r op = none) (r : Fin n) :
    published r (ops ++ [op]) = published r ops := by
  rw [published_append]
  simp [published, hop]

theorem published_publish (r : Fin n) (rec : PimidNocRec) (ops : List (NocOp n)) (r' : Fin n) :
    published r' (ops ++ [NocOp.publish r rec]) = published r' ops ++ if r' = r then [rec.batch] else [] := by
  rw [published_append]
  by_cases hr : r' = r
  · subst hr
    simp [published, publishedBy]
  · simp [published, publishedBy, hr, Ne.symm hr]

variable {j : Fin n} {s : NocSystem n} {ops : List (NocOp n)}

theorem flatMap_nil (l : List (Fin n)) : l.flatMap (fun _ => ([] : List BatchAccess)) = [] :=
  List.flatMap_eq_nil_iff.mpr fun _ _ => rfl

theorem Conserved.start (h : PimidNocHdr) (j : Fin n) : Conserved h j (NocSystem.start n) [] where
  rings := fun r => ⟨rfl, fun i hi => absurd hi (by simp [published])⟩
  cursor_le := fun r => Nat.le_refl _
  whole := by simp [NocSystem.start]
  kept := ⟨fun _ => [], fun r => rfl, by simp [NocSystem.start, allPublished, published, flatMap_nil]⟩

theorem drain_self (j : Fin n) (s : NocSystem n) :
    ((NocOp.drain j).step h s).replicas j
      = ⟨(sharedNocDrain h s.ranks (s.replicas j).sn).1,
        (s.replicas j).windows ++ (sharedNocDrain h s.ranks (s.replicas j).sn).2⟩ := update_self _ _ _

theorem drain_other {i j : Fin n} (hij : j ≠ i) (s : NocSystem n) :
    ((NocOp.drain i).step h s).replicas j = s.replicas j := update_of_ne hij _ _

/-- A step of a rank that publishes nothing leaves rings and readers alone. -/
theorem Conserved.quiet (hs : Conserved h j s ops) {op : NocOp n} (hop : ∀ r, publishedBy r op = none)
    {ranks : Fin n → PimidNocRank} (hr : ∀ r, (ranks r).seq = (s.ranks r).seq ∧ (ranks r).ring = (s.ranks r).ring) :
    Conserved h j { s with ranks := ranks } (ops ++ [op]) where
  rings := fun r => by
    obtain ⟨hseq, hring⟩ := hr r
    rw [published_of_none _ hop]
    refine ⟨hseq.trans (hs.rings r).seq_eq, ?_⟩
    show ∀ i : Nat, ∀ hi : i < _, _ → ((ranks r).ring (h.slot i)).batch = _
    rw [hring]
    exact (hs.rings r).slots
  cursor_le := fun r => by
    show _ ≤ (ranks r).seq
    rw [(hr r).1]
    exact hs.cursor_le r
  whole := hs.whole
  kept := by
    simp only [allPublished, published_of_none _ hop]
    exact hs.kept

theorem Conserved.publish (hs : Conserved h j s ops) (r : Fin n) (rec : PimidNocRec) :
    Conserved h j (step h s (NocOp.publish r rec)) (ops ++ [NocOp.publish r rec]) := by
  have hpub := published_publish r rec ops
  have hle : ∀ r', (s.replicas j).sn.cursor r' ≤ (published r' ops).length := fun r' =>
    (hs.rings r').seq_eq ▸ hs.cursor_le r'
  refine ⟨fun r' => ?_, fun r' => ?_, hs.whole, ?_⟩
  · rw [hpub]
    show Ring h (update s.ranks r ((s.ranks r).publish h rec) r') _
    by_cases hr : r' = r
    · subst hr
      rw [update_self, if_pos rfl]
      exact (hs.rings r').publish rec
    · rw [update_of_ne hr, if_neg hr, List.append_nil]
      exact hs.rings r'
  · show _ ≤ (update s.ranks r ((s.ranks r).publish h rec) r').seq
    by_cases hr : r' = r
    · subst hr
      rw [update_self]
      exact Nat.le_succ_of_le (hs.cursor_le r')
    · rw [update_of_ne hr]
      exact hs.cursor_le r'
  · obtain ⟨dropped, hlen, hperm⟩ := hs.kept
    refine ⟨dropped, hlen, ?_⟩
    have hrep : (step h s (NocOp.publish r rec)).replicas = s.replicas := rfl
    have hdrop : ∀ r' (l : List BatchAccess), (published r' ops ++ l).drop ((s.replicas j).sn.cursor r')
        = (published r' ops).drop ((s.replicas j).sn.cursor r') ++ l := fun r' l =>
      List.drop_append_of_le_length (hle r')
    simp only [hrep, allPublished, hpub, hdrop]
    -- the new record joins both sides
    refine .trans (.append_left _ (List.flatMap_append_perm _ _ _).symm) ?_
    refine .trans ?_ (List.flatMap_append_perm _ _ _)
    rw [← List.append_assoc]
    exact hperm.append_right _

theorem Conserved.drain (hs : Conserved h j s ops) (i : Fin n) :
    Conserved h j (step h s (NocOp.drain i)) (ops ++ [NocOp.drain i]) := by
  have hpub : ∀ r, published r (ops ++ [NocOp.drain i]) = published r ops := published_of_none _ fun _ => rfl
  by_cases hij : j = i
  · subst hij
    have hcur := hs.cursor_le
    obtain ⟨hpend, hcursor, hlost, hclass⟩ := sharedNocDrain_spec (h := h) hcur rfl
    have hrep := drain_self (h := h) j s
    refine ⟨fun r => ?_, fun r => ?_, fun w hw => ?_, ?_⟩
    · rw [hpub]
      exact hs.rings r
    · rw [hrep]
      exact (hcursor r).le
    · rw [hrep] at hw
      rcases List.mem_append.mp hw with hw | hw
      · exact hs.whole w hw
      · exact ⟨hclass.inhabited w hw, fun a ha => hclass.key_of_mem hw ha⟩
    · obtain ⟨dropped, hlen, hperm⟩ := hs.kept
      -- what was unread is gone or found
      choose gone hsplit hgone using fun r => (hs.rings r).drop_split (hcur r)
      refine ⟨fun r => dropped r ++ gone r, fun r => ?_, ?_⟩
      · rw [hrep, List.length_append, hlen, hgone]
        exact (hlost r).symm
      · have hnone : ∀ r, (published r ops).drop ((s.ranks r).seq) = [] := fun r =>
          List.drop_eq_nil_of_le (hs.rings r).seq_eq.ge
        simp only [hrep, allPublished, hpub, hcursor, hnone, flatMap_nil, List.append_nil, List.flatMap_append]
        simp only [hsplit] at hperm
        have hparts := (List.filter_append_perm (fun a => decide (a.cycle ≤ pimidNocCut s.ranks))
          (found h s.ranks (s.replicas j).sn (List.finRange n)))
        have hrec := hclass.perm
        have hd := List.flatMap_append_perm (List.finRange n) dropped gone
        have hu := List.flatMap_append_perm (List.finRange n) gone
          fun r => unread h (s.ranks r) (readFrom h (s.ranks r) ((s.replicas j).sn.cursor r))
        rw [hpend]
        rw [List.perm_iff_count] at hperm hparts hrec hd hu ⊢
        intro a
        have h₁ := hperm a
        have h₂ := hparts a
        have h₃ := hrec a
        have h₄ := hd a
        have h₅ := hu a
        simp only [found, List.count_append, List.filter_append] at h₁ h₂ h₃ h₄ h₅ ⊢
        simp only [decide_not] at h₂ ⊢
        rw [allPublished] at h₁
        omega
  · have hrep := drain_other (h := h) hij s
    refine ⟨fun r => ?_, fun r => ?_, ?_, ?_⟩
    · rw [hpub]
      exact hs.rings r
    · rw [hrep]
      exact hs.cursor_le r
    · rw [hrep]
      exact hs.whole
    · simp only [hrep, allPublished, hpub]
      exact hs.kept

theorem Conserved.step (hs : Conserved h j s ops) (op : NocOp n) : Conserved h j (op.step h s) (ops ++ [op]) := by
  cases op with
  | publish r rec => exact hs.publish r rec
  | touch r cycle =>
    refine hs.quiet (fun _ => rfl) fun r' => ?_
    by_cases hr : r' = r
    · subst hr
      rw [update_self]
      exact ⟨rfl, rfl⟩
    · rw [update_of_ne hr]
      exact ⟨rfl, rfl⟩
  | setState r st =>
    refine hs.quiet (fun _ => rfl) fun r' => ?_
    by_cases hr : r' = r
    · subst hr
      rw [update_self]
      exact ⟨rfl, rfl⟩
    · rw [update_of_ne hr]
      exact ⟨rfl, rfl⟩
  | drain i => exact hs.drain i

theorem conserved_run (h : PimidNocHdr) (j : Fin n) (ops : List (NocOp n)) :
    Conserved h j (run h (NocSystem.start n) ops) ops :=
  (along_of_forall (P := fun _ _ => True) (fun _ _ => trivial) _ ops).inv (fun hs _ => hs.step _) (Conserved.start h j)

/-! ## The final drain -/

theorem pimidNocCut_eq_noCut {ranks : Fin n → PimidNocRank} (hst : ∀ r, (ranks r).state = .exited) :
    pimidNocCut ranks = noCut := by
  unfold pimidNocCut
  generalize List.finRange n = l
  induction l with
  | nil => rfl
  | cons r l ih =>
    rw [List.foldl_cons, if_pos (by rw [hst r]; decide)]
    exact ih

/-- The stamps are 64-bit words. -/
def CyclesFit (ops : List (NocOp n)) : Prop := ∀ a ∈ allPublished ops, a.cycle < 2 ^ 64

theorem allPublished_drain (ops : List (NocOp n)) (j : Fin n) :
    allPublished (ops ++ [NocOp.drain j]) = allPublished ops := by
  unfold allPublished
  refine List.flatMap_congr fun r _ => published_of_none _ (fun _ => rfl) r

/-- Once every rank has exited, a drain leaves nothing waiting or unread. -/
theorem final_drain (hs : Conserved h j s ops) (hst : ∀ r, (s.ranks r).state = .exited) (hfit : CyclesFit ops) :
    (((NocOp.drain j).step h s).replicas j).sn.pending = []
      ∧ ∀ r, (published r ops).drop ((((NocOp.drain j).step h s).replicas j).sn.cursor r) = [] := by
  obtain ⟨hpend, hcursor, _, _⟩ := sharedNocDrain_spec (h := h) hs.cursor_le rfl
  have hrep := drain_self (h := h) j s
  have hin : ∀ a ∈ (((NocOp.drain j).step h s).replicas j).sn.pending, a.cycle < 2 ^ 64 := by
    intro a ha
    obtain ⟨dropped, _, hperm⟩ := (hs.step (NocOp.drain j)).kept
    refine hfit a ?_
    rw [← allPublished_drain ops j]
    exact hperm.mem_iff.mp (by simp [ha])
  constructor
  · refine List.eq_nil_iff_forall_not_mem.mpr fun a ha => ?_
    have hlt := hin a ha
    rw [hrep, hpend, pimidNocCut_eq_noCut hst] at ha
    have hgt := of_decide_eq_true (List.mem_filter.mp ha).2
    unfold noCut at hgt
    omega
  · intro r
    rw [hrep]
    show (published r ops).drop ((sharedNocDrain h s.ranks (s.replicas j).sn).1.cursor r) = []
    rw [hcursor]
    exact List.drop_eq_nil_of_le (hs.rings r).seq_eq.ge

theorem final_kept (hs : Conserved h j s ops) (hst : ∀ r, (s.ranks r).state = .exited) (hfit : CyclesFit ops) :
    ∃ dropped : Fin n → List BatchAccess,
      (∀ r, (dropped r).length = (((NocOp.drain j).step h s).replicas j).sn.lost r)
      ∧ ((((NocOp.drain j).step h s).replicas j).windows.flatMap (·.2) ++ (List.finRange n).flatMap dropped).Perm
        (allPublished ops) := by
  obtain ⟨hpend, hdrop⟩ := final_drain hs hst hfit
  obtain ⟨dropped, hlen, hperm⟩ := (hs.step (NocOp.drain j)).kept
  refine ⟨dropped, hlen, ?_⟩
  rw [allPublished_drain] at hperm
  simp only [published_of_none (NocOp.drain j) (fun _ => rfl), hdrop, hpend, flatMap_nil,
    List.append_nil] at hperm
  exact hperm

/-! ## Readers that are never overrun -/

/-- The reader comes before the producers lap it. -/
def InTime (h : PimidNocHdr) (j : Fin n) (s : NocSystem n) : NocOp n → Prop
  | .drain i => i = j → ∀ r, (s.ranks r).seq ≤ (s.replicas j).sn.cursor r + h.ringSlots
  | _ => True

/-- The records a drain by `j` would find. -/
def waiting (h : PimidNocHdr) (j : Fin n) (s : NocSystem n) : List BatchAccess :=
  (s.replicas j).sn.pending
    ++ (List.finRange n).flatMap fun r => unread h (s.ranks r) ((s.replicas j).sn.cursor r)

/-- The records published and not yet replayed. -/
def ahead (j : Fin n) (s : NocSystem n) (ops : List (NocOp n)) : List BatchAccess :=
  (s.replicas j).sn.pending
    ++ (List.finRange n).flatMap fun r => (published r ops).drop ((s.replicas j).sn.cursor r)

instance (h : PimidNocHdr) (j : Fin n) (s : NocSystem n) : (op : NocOp n) → Decidable (InTime h j s op)
  | .drain i => inferInstanceAs
      (Decidable (i = j → ∀ r, (s.ranks r).seq ≤ (s.replicas j).sn.cursor r + h.ringSlots))
  | .publish _ _ => inferInstanceAs (Decidable True)
  | .touch _ _ => inferInstanceAs (Decidable True)
  | .setState _ _ => inferInstanceAs (Decidable True)

theorem readFrom_inTime {rk : PimidNocRank} {cur : Nat} (ht : rk.seq ≤ cur + h.ringSlots) :
    readFrom h rk cur = cur := by
  unfold readFrom
  rw [if_neg (by omega)]

theorem waiting_eq_ahead (hs : Conserved h j s ops) (ht : InTime h j s (.drain j)) :
    waiting h j s = ahead j s ops ∧ found h s.ranks (s.replicas j).sn (List.finRange n) = ahead j s ops := by
  constructor
  · refine congrArg _ (List.flatMap_congr fun r _ => ?_)
    exact (hs.rings r).unread_eq (ht rfl r)
  · refine congrArg _ (List.flatMap_congr fun r _ => ?_)
    rw [readFrom_inTime (ht rfl r)]
    exact (hs.rings r).unread_eq (ht rfl r)

/-- `Conserved`, with nothing lost. -/
structure Flowing (h : PimidNocHdr) (j : Fin n) (s : NocSystem n) (ops : List (NocOp n)) : Prop extends
    Conserved h j s ops where
  lost_eq : ∀ r, (s.replicas j).sn.lost r = 0

theorem Flowing.perm (hs : Flowing h j s ops) :
    ((s.replicas j).windows.flatMap (·.2) ++ ahead j s ops).Perm (allPublished ops) := by
  obtain ⟨dropped, hlen, hperm⟩ := hs.kept
  obtain rfl : dropped = fun _ => [] := by
    funext r
    exact List.eq_nil_of_length_eq_zero ((hlen r).trans (hs.lost_eq r))
  rw [flatMap_nil, List.append_nil, List.append_assoc] at hperm
  exact hperm

theorem Flowing.step (hs : Flowing h j s ops) {op : NocOp n} (ht : InTime h j s op) :
    Flowing h j (op.step h s) (ops ++ [op]) := by
  refine ⟨hs.toConserved.step op, fun r => ?_⟩
  cases op with
  | publish r' rec => exact hs.lost_eq r
  | touch r' cycle => exact hs.lost_eq r
  | setState r' st => exact hs.lost_eq r
  | drain i =>
    by_cases hij : j = i
    · subst hij
      obtain ⟨_, _, hlost, _⟩ := sharedNocDrain_spec (h := h) hs.cursor_le rfl
      rw [drain_self, hlost, readFrom_inTime (ht rfl r), hs.lost_eq]
      omega
    · rw [drain_other hij]
      exact hs.lost_eq r

theorem flowing_run {ops : List (NocOp n)} (ht : Along (NocOp.step h) (InTime h j) (NocSystem.start n) ops) :
    Flowing h j (run h (NocSystem.start n) ops) ops :=
  have hstart : Flowing h j (NocSystem.start n) [] := ⟨Conserved.start h j, fun _ => rfl⟩
  ht.inv (fun {_ _ _} hs hp => hs.step hp) hstart

/-! ## When the windows are whole phases -/

/-- The step keeps the phases apart: no record is published in a phase that is not past
what reader `j` has replayed, and no drain by `j` cuts through a phase. -/
def Separates (h : PimidNocHdr) (j : Fin n) (s : NocSystem n) : NocOp n → Prop
  | .publish _ rec => ∀ w ∈ (s.replicas j).windows, w.1 < rec.cycle / h.pl
  | .drain i => i = j → ∀ a ∈ waiting h j s, ∀ b ∈ waiting h j s,
      a.cycle ≤ pimidNocCut s.ranks → pimidNocCut s.ranks < b.cycle → a.cycle / h.pl < b.cycle / h.pl
  | _ => True

instance (h : PimidNocHdr) (j : Fin n) (s : NocSystem n) : (op : NocOp n) → Decidable (Separates h j s op)
  | .drain i => inferInstanceAs (Decidable (i = j → ∀ a ∈ waiting h j s, ∀ b ∈ waiting h j s, _ → _ → _))
  | .publish _ _ => inferInstanceAs (Decidable (∀ w ∈ (s.replicas j).windows, _))
  | .touch _ _ => inferInstanceAs (Decidable True)
  | .setState _ _ => inferInstanceAs (Decidable True)

/-- The windows so far are in order and what is ahead is of later phases. -/
structure Ordered (h : PimidNocHdr) (j : Fin n) (s : NocSystem n) (ops : List (NocOp n)) : Prop extends
    Flowing h j s ops where
  order : ((s.replicas j).windows.map (·.1)).Pairwise (· < ·)
  later : ∀ w ∈ (s.replicas j).windows, ∀ a ∈ ahead j s ops, w.1 < a.cycle / h.pl

theorem drain_inTime (hs : Conserved h j s ops) (ht : InTime h j s (.drain j)) :
    ∃ bk, (((NocOp.drain j).step h s).replicas j).windows = (s.replicas j).windows ++ bk
      ∧ Classified (fun a : BatchAccess => a.cycle / h.pl)
          ((ahead j s ops).filter fun a => a.cycle ≤ pimidNocCut s.ranks) bk
      ∧ ahead j ((NocOp.drain j).step h s) (ops ++ [NocOp.drain j])
        = (ahead j s ops).filter fun a => ¬ a.cycle ≤ pimidNocCut s.ranks := by
  obtain ⟨hpend, hcursor, _, hclass⟩ := sharedNocDrain_spec (h := h) hs.cursor_le rfl
  rw [(waiting_eq_ahead hs ht).2] at hpend hclass
  have hrep := drain_self (h := h) j s
  refine ⟨_, by rw [hrep], hclass, ?_⟩
  have hnone : ∀ r, (published r ops).drop ((s.ranks r).seq) = [] := fun r =>
    List.drop_eq_nil_of_le (hs.rings r).seq_eq.ge
  simp only [ahead, hrep, hpend, hcursor, published_of_none (NocOp.drain j) (fun _ => rfl), hnone,
    flatMap_nil, List.append_nil]

theorem mem_ahead_publish (hs : Conserved h j s ops) {r : Fin n} {rec : PimidNocRec} {a : BatchAccess} :
    a ∈ ahead j ((NocOp.publish r rec).step h s) (ops ++ [NocOp.publish r rec])
      ↔ a ∈ ahead j s ops ∨ a = rec.batch := by
  have hle : ∀ r', (s.replicas j).sn.cursor r' ≤ (published r' ops).length := fun r' =>
    (hs.rings r').seq_eq ▸ hs.cursor_le r'
  have hrep : ((NocOp.publish r rec).step h s).replicas = s.replicas := rfl
  have hdrop : ∀ r' (l : List BatchAccess), (published r' ops ++ l).drop ((s.replicas j).sn.cursor r')
      = (published r' ops).drop ((s.replicas j).sn.cursor r') ++ l := fun r' l =>
    List.drop_append_of_le_length (hle r')
  simp only [ahead, hrep, published_publish, hdrop, List.mem_append, List.mem_flatMap, List.mem_finRange, true_and]
  constructor
  · rintro (ha | ⟨r', ha | ha⟩)
    · exact .inl (.inl ha)
    · exact .inl (.inr ⟨r', ha⟩)
    · split at ha
      · exact .inr (List.mem_singleton.mp ha)
      · exact absurd ha (by simp)
  · rintro ((ha | ⟨r', ha⟩) | rfl)
    · exact .inl ha
    · exact .inr ⟨r', .inl ha⟩
    · exact .inr ⟨r, .inr (by simp)⟩

theorem Ordered.step (hs : Ordered h j s ops) {op : NocOp n} (ht : InTime h j s op) (hsep : Separates h j s op) :
    Ordered h j (op.step h s) (ops ++ [op]) := by
  have hf := hs.toFlowing.step ht
  cases op with
  | publish r rec =>
    refine ⟨hf, hs.order, fun w hw a ha => ?_⟩
    rcases (mem_ahead_publish hs.toConserved).mp ha with ha | rfl
    · exact hs.later w hw a ha
    · exact hsep w hw
  | touch r cycle =>
    refine ⟨hf, hs.order, ?_⟩
    simp only [ahead, published_of_none (NocOp.touch r cycle) (fun _ => rfl)]
    exact hs.later
  | setState r st =>
    refine ⟨hf, hs.order, ?_⟩
    simp only [ahead, published_of_none (NocOp.setState r st) (fun _ => rfl)]
    exact hs.later
  | drain i =>
    by_cases hij : j = i
    · subst hij
      obtain ⟨bk, hwin, hclass, hahead⟩ := drain_inTime hs.toConserved ht
      have hmem : ∀ c ∈ bk, ∃ a ∈ ahead j s ops, a.cycle ≤ pimidNocCut s.ranks ∧ a.cycle / h.pl = c.1 := by
        intro c hc
        obtain ⟨a, ha, he⟩ := hclass.mem_keys.mp (List.mem_map_of_mem hc)
        simp only [List.mem_filter, decide_eq_true_eq] at ha
        exact ⟨a, ha.1, ha.2, he⟩
      refine ⟨hf, ?_, ?_⟩
      · rw [hwin, List.map_append, List.pairwise_append]
        refine ⟨hs.order, hclass.order, fun p hp q hq => ?_⟩
        obtain ⟨w, hw, rfl⟩ := List.mem_map.mp hp
        obtain ⟨c, hc, rfl⟩ := List.mem_map.mp hq
        obtain ⟨a, ha, _, he⟩ := hmem c hc
        rw [← he]
        exact hs.later w hw a ha
      · rw [hwin, hahead]
        intro w hw b hb
        simp only [List.mem_filter, decide_eq_true_eq] at hb
        rcases List.mem_append.mp hw with hw | hw
        · exact hs.later w hw b hb.1
        · obtain ⟨a, ha, hle, he⟩ := hmem w hw
          have hsep := hsep rfl a
          rw [(waiting_eq_ahead hs.toConserved ht).1] at hsep
          rw [← he]
          exact hsep ha b hb.1 hle (by omega)
    · have hrep := drain_other (h := h) hij s
      refine ⟨hf, ?_, ?_⟩
      · rw [hrep]
        exact hs.order
      · simp only [ahead, hrep, published_of_none (NocOp.drain i) (fun _ => rfl)]
        exact hs.later

theorem ordered_run {ops : List (NocOp n)} (ht : Along (NocOp.step h) (InTime h j) (NocSystem.start n) ops)
    (hsep : Along (NocOp.step h) (Separates h j) (NocSystem.start n) ops) :
    Ordered h j (run h (NocSystem.start n) ops) ops :=
  have hstart : Ordered h j (NocSystem.start n) [] :=
    ⟨⟨Conserved.start h j, fun _ => rfl⟩, List.Pairwise.nil, fun w hw => absurd hw (by simp [NocSystem.start])⟩
  (ht.and hsep).inv (fun {_ _ _} hs hp => hs.step hp.1 hp.2) hstart

/-! ## The converse: whole windows come only from steps that keep phases apart -/

theorem step_windows (s : NocSystem n) (op : NocOp n) :
    ∃ ws, ((op.step h s).replicas j).windows = (s.replicas j).windows ++ ws := by
  cases op with
  | publish r rec => exact ⟨[], (List.append_nil _).symm⟩
  | touch r cycle => exact ⟨[], (List.append_nil _).symm⟩
  | setState r st => exact ⟨[], (List.append_nil _).symm⟩
  | drain i =>
    by_cases hij : j = i
    · subst hij
      exact ⟨_, congrArg Replica.windows (drain_self j s)⟩
    · refine ⟨[], ?_⟩
      rw [List.append_nil]
      exact congrArg Replica.windows (drain_other hij s)

theorem run_snoc (s : NocSystem n) (ops : List (NocOp n)) (op : NocOp n) :
    run h s (ops ++ [op]) = op.step h (run h s ops) := by
  rw [run, List.foldl_append]
  rfl

theorem run_windows (s : NocSystem n) (ops : List (NocOp n)) :
    ∃ ws, ((run h s ops).replicas j).windows = (s.replicas j).windows ++ ws := by
  induction ops generalizing s with
  | nil => exact ⟨[], (List.append_nil _).symm⟩
  | cons op ops ih =>
    obtain ⟨ws₁, h₁⟩ := step_windows (h := h) (j := j) s op
    obtain ⟨ws₂, h₂⟩ := ih (op.step h s)
    refine ⟨ws₁ ++ ws₂, ?_⟩
    rw [← List.append_assoc, ← h₁]
    exact h₂

/-- In a run that leaves nothing ahead, what is ahead at some point is replayed after it. -/
theorem replayed_after {pre post : List (NocOp n)}
    (ht : Along (NocOp.step h) (InTime h j) (NocSystem.start n) (pre ++ post))
    (hend : ahead j (run h (NocSystem.start n) (pre ++ post)) (pre ++ post) = []) {a : BatchAccess}
    (ha : a ∈ ahead j (run h (NocSystem.start n) pre) pre) :
    ∃ ws, ((run h (NocSystem.start n) (pre ++ post)).replicas j).windows
        = ((run h (NocSystem.start n) pre).replicas j).windows ++ ws
      ∧ a.cycle / h.pl ∈ ws.map (·.1) := by
  have hpre := flowing_run (along_append.mp ht).1
  have hall := flowing_run ht
  have hrun : run h (NocSystem.start n) (pre ++ post) = run h (run h (NocSystem.start n) pre) post :=
    List.foldl_append
  obtain ⟨ws, hws⟩ := run_windows (h := h) (j := j) (run h (NocSystem.start n) pre) post
  rw [← hrun] at hws
  refine ⟨ws, hws, ?_⟩
  have hperm : ((run h (NocSystem.start n) pre).replicas j |>.windows.flatMap (·.2)) ++ ws.flatMap (·.2) |>.Perm
      (((run h (NocSystem.start n) pre).replicas j |>.windows.flatMap (·.2))
        ++ (ahead j (run h (NocSystem.start n) pre) pre ++ allPublished post)) := by
    have h₁ := hall.perm
    rw [hend, List.append_nil, hws, List.flatMap_append] at h₁
    rw [← List.append_assoc]
    exact h₁.trans ((allPublished_append pre post).trans (hpre.perm.symm.append_right _))
  have hmem := ((List.perm_append_left_iff _).mp hperm).mem_iff.mpr (List.mem_append_left _ ha)
  obtain ⟨w, hw, haw⟩ := List.mem_flatMap.mp hmem
  rw [(hall.whole w (by rw [hws]; exact List.mem_append_right _ hw)).2 a haw]
  exact List.mem_map_of_mem hw

theorem separates_of_order {ops : List (NocOp n)}
    (ht : Along (NocOp.step h) (InTime h j) (NocSystem.start n) ops)
    (hend : ahead j (run h (NocSystem.start n) ops) ops = [])
    (horder : (((run h (NocSystem.start n) ops).replicas j).windows.map (·.1)).Pairwise (· < ·)) :
    Along (NocOp.step h) (Separates h j) (NocSystem.start n) ops := by
  refine along_iff_split.mpr fun pre op post he => ?_
  subst he
  have hpre := flowing_run (along_append.mp ht).1
  have hin : InTime h j (run h (NocSystem.start n) pre) op := (along_append.mp ht).2.1
  have hrun := run_snoc (h := h) (NocSystem.start n) pre op
  rw [List.append_cons] at ht hend horder
  -- every window so far comes before every phase that is ahead after the step
  have hbefore : ∀ w ∈ ((op.step h (run h (NocSystem.start n) pre)).replicas j).windows,
      ∀ a ∈ ahead j (op.step h (run h (NocSystem.start n) pre)) (pre ++ [op]), w.1 < a.cycle / h.pl := by
    intro w hw a ha
    rw [← hrun] at hw ha
    obtain ⟨ws, hws, hmem⟩ := replayed_after ht hend ha
    rw [hws, List.map_append, List.pairwise_append] at horder
    exact horder.2.2 _ (List.mem_map_of_mem hw) _ hmem
  show Separates h j (run h (NocSystem.start n) pre) op
  cases op with
  | publish r rec =>
    intro w hw
    exact hbefore w hw rec.batch ((mem_ahead_publish hpre.toConserved).mpr (.inr rfl))
  | touch r cycle => trivial
  | setState r st => trivial
  | drain i =>
    intro hij a ha b hb hle hgt
    subst hij
    obtain ⟨bk, hwin, hclass, hahead⟩ := drain_inTime hpre.toConserved hin
    rw [(waiting_eq_ahead hpre.toConserved hin).1] at ha hb
    have hkey := hclass.covers a (List.mem_filter.mpr ⟨ha, by simpa using hle⟩)
    obtain ⟨c, hc, hca⟩ := List.mem_map.mp hkey
    rw [← hca]
    refine hbefore c ?_ b ?_
    · rw [hwin]
      exact List.mem_append_right _ hc
    · rw [hahead]
      exact List.mem_filter.mpr ⟨hb, by simpa using hgt⟩

/-! ## Two interleavings of the same ranks -/

theorem published_filter (r : Fin n) (ops : List (NocOp n)) : published r (ops.filter (isBy r)) = published r ops := by
  rw [published, published, List.filterMap_filter]
  refine List.filterMap_congr fun op _ => ?_
  cases op with
  | publish r' rec =>
    by_cases hr : r' = r
    · simp [isBy, hr]
    · simp [isBy, publishedBy, hr]
  | touch r' cycle => simp [publishedBy]
  | setState r' st => simp [publishedBy]
  | drain i => simp [publishedBy]

theorem allPublished_eq {ops₁ ops₂ : List (NocOp n)} (hsame : ∀ r, ops₁.filter (isBy r) = ops₂.filter (isBy r)) :
    allPublished ops₁ = allPublished ops₂ := by
  refine List.flatMap_congr fun r _ => ?_
  rw [← published_filter r ops₁, hsame, published_filter]

/-- A closed run of a reader that is never overrun: every record is replayed once, and the
windows are the phases exactly when every step kept the phases apart. -/
theorem closed_classified_iff {ops : List (NocOp n)} (hfit : CyclesFit ops) (hst : AllExited h ops)
    (ht : Along (NocOp.step h) (InTime h j) (NocSystem.start n) (ops ++ [.drain j])) :
    ((closed h j ops).windows.flatMap (·.2)).Perm (allPublished ops)
      ∧ (Classified (fun a : BatchAccess => a.cycle / h.pl) (allPublished ops) (closed h j ops).windows
        ↔ Along (NocOp.step h) (Separates h j) (NocSystem.start n) (ops ++ [.drain j])) := by
  have hrun := run_snoc (h := h) (NocSystem.start n) ops (.drain j)
  have hf := flowing_run ht
  have hend : ahead j (run h (NocSystem.start n) (ops ++ [.drain j])) (ops ++ [.drain j]) = [] := by
    obtain ⟨hpend, hdrop⟩ := final_drain (conserved_run h j ops) hst hfit
    simp only [ahead, hrun, hpend, published_of_none (NocOp.drain j) (fun _ => rfl), hdrop, flatMap_nil,
      List.append_nil]
  have hperm := hf.perm
  rw [hend, List.append_nil, allPublished_drain] at hperm
  refine ⟨hperm, fun hc => separates_of_order ht hend hc.order, fun hsep => ?_⟩
  exact .of_order (ordered_run ht hsep).order hf.whole hperm

/-- **When the replay does not depend on the host.** A reader replays every record once or
counts it as lost. For two interleavings of the same ranks' steps, neither overrunning the
reader, the windows are the phases of the run, in order and the same in both, exactly when
every step of both kept the phases apart. -/
theorem sharedNocDrain_windows_iff (h : PimidNocHdr) (j : Fin n) :
    (∀ ops : List (NocOp n), CyclesFit ops → AllExited h ops →
      ∃ dropped : Fin n → List BatchAccess, (∀ r, (dropped r).length = (closed h j ops).sn.lost r)
        ∧ ((closed h j ops).windows.flatMap (·.2) ++ (List.finRange n).flatMap dropped).Perm (allPublished ops))
      ∧ ∀ ops₁ ops₂ : List (NocOp n), (∀ r, ops₁.filter (isBy r) = ops₂.filter (isBy r)) → CyclesFit ops₁ →
        AllExited h ops₁ → AllExited h ops₂ →
        Along (NocOp.step h) (InTime h j) (NocSystem.start n) (ops₁ ++ [.drain j]) →
        Along (NocOp.step h) (InTime h j) (NocSystem.start n) (ops₂ ++ [.drain j]) →
        ((closed h j ops₁).windows.flatMap (·.2)).Perm (allPublished ops₁)
          ∧ ((closed h j ops₂).windows.flatMap (·.2)).Perm (allPublished ops₁)
          ∧ (List.Forall₂ (fun w₁ w₂ => w₁.1 = w₂.1 ∧ w₁.2.Perm w₂.2)
                (closed h j ops₁).windows (closed h j ops₂).windows
              ∧ Classified (fun a : BatchAccess => a.cycle / h.pl) (allPublished ops₁) (closed h j ops₁).windows
              ∧ Classified (fun a : BatchAccess => a.cycle / h.pl) (allPublished ops₁) (closed h j ops₂).windows
            ↔ Along (NocOp.step h) (Separates h j) (NocSystem.start n) (ops₁ ++ [.drain j])
              ∧ Along (NocOp.step h) (Separates h j) (NocSystem.start n) (ops₂ ++ [.drain j])) := by
  refine ⟨fun ops hfit hst => ?_, fun ops₁ ops₂ hsame hfit hst₁ hst₂ ht₁ ht₂ => ?_⟩
  · rw [closed, run_snoc]
    exact final_kept (conserved_run h j ops) hst hfit
  · have hall := allPublished_eq hsame
    have hfit₂ : CyclesFit ops₂ := by
      unfold CyclesFit
      rw [← hall]
      exact hfit
    obtain ⟨hperm₁, hiff₁⟩ := closed_classified_iff hfit hst₁ ht₁
    obtain ⟨hperm₂, hiff₂⟩ := closed_classified_iff hfit₂ hst₂ ht₂
    rw [← hall] at hperm₂ hiff₂
    refine ⟨hperm₁, hperm₂, ?_⟩
    rw [← hiff₁, ← hiff₂]
    constructor
    · rintro ⟨-, h₁, h₂⟩
      exact ⟨h₁, h₂⟩
    · rintro ⟨h₁, h₂⟩
      exact ⟨h₁.unique h₂ (.refl _), h₁, h₂⟩

/-- Records in two phases: a drain between them replays the same windows. -/
theorem sharedNocDrain_windows_iff_two_phases :
    List.Forall₂ (fun w₁ w₂ => w₁.1 = w₂.1 ∧ w₁.2.Perm w₂.2)
      (closed ⟨17, 10⟩ (0 : Fin 1) [publish 0 ⟨0, 1, 1⟩, publish 0 ⟨0, 1, 12⟩, setState 0 .exited]).windows
      (closed ⟨17, 10⟩ (0 : Fin 1)
        [publish 0 ⟨0, 1, 1⟩, NocOp.drain 0, publish 0 ⟨0, 1, 12⟩, setState 0 .exited]).windows :=
  (((sharedNocDrain_windows_iff ⟨17, 10⟩ (0 : Fin 1)).2 _ _ (by decide) (by unfold CyclesFit; decide)
    (by unfold AllExited; decide) (by unfold AllExited; decide) (by decide +kernel) (by decide +kernel)).2.2.mpr
    ⟨by decide +kernel, by decide +kernel⟩).1

/-- A drain whose cut falls inside a phase replays that phase in two windows; without the
drain it is one. -/
theorem sharedNocDrain_splits_phase :
    (∀ r : Fin 1,
        [publish 0 ⟨0, 1, 1⟩, NocOp.drain 0, publish 0 ⟨0, 1, 5⟩, setState 0 .exited].filter (isBy r)
          = [publish 0 ⟨0, 1, 1⟩, publish 0 ⟨0, 1, 5⟩, setState 0 .exited].filter (isBy r))
      ∧ AllExited ⟨17, 10⟩ [publish (0 : Fin 1) ⟨0, 1, 1⟩, NocOp.drain 0, publish 0 ⟨0, 1, 5⟩, setState 0 .exited]
      ∧ AllExited ⟨17, 10⟩ [publish (0 : Fin 1) ⟨0, 1, 1⟩, publish 0 ⟨0, 1, 5⟩, setState 0 .exited]
      ∧ (closed ⟨17, 10⟩ (0 : Fin 1)
            [publish 0 ⟨0, 1, 1⟩, NocOp.drain 0, publish 0 ⟨0, 1, 5⟩, setState 0 .exited]).sn.lost 0 = 0
      ∧ (closed ⟨17, 10⟩ (0 : Fin 1)
            [publish 0 ⟨0, 1, 1⟩, NocOp.drain 0, publish 0 ⟨0, 1, 5⟩, setState 0 .exited]).windows
          = [(0, [⟨0, 1, 1, false⟩]), (0, [⟨0, 1, 5, false⟩])]
      ∧ (closed ⟨17, 10⟩ (0 : Fin 1) [publish 0 ⟨0, 1, 1⟩, publish 0 ⟨0, 1, 5⟩, setState 0 .exited]).windows
          = [(0, [⟨0, 1, 1, false⟩, ⟨0, 1, 5, false⟩])]
      ∧ ¬ List.Forall₂ (fun w₁ w₂ => w₁.1 = w₂.1 ∧ w₁.2.Perm w₂.2)
          (closed ⟨17, 10⟩ (0 : Fin 1)
            [publish 0 ⟨0, 1, 1⟩, NocOp.drain 0, publish 0 ⟨0, 1, 5⟩, setState 0 .exited]).windows
          (closed ⟨17, 10⟩ (0 : Fin 1) [publish 0 ⟨0, 1, 1⟩, publish 0 ⟨0, 1, 5⟩, setState 0 .exited]).windows := by
  refine ⟨by decide, by unfold AllExited; decide, by unfold AllExited; decide, by decide +kernel, by decide +kernel,
    by decide +kernel, fun hf => ?_⟩
  have hlen := hf.length_eq
  revert hlen
  decide +kernel

end Pimid.Noc
