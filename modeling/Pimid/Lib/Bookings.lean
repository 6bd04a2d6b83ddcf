import Mathlib.Logic.Function.Basic
import Mathlib.Order.Basic
import Mathlib.Order.Lattice
import Mathlib.Tactic.ByContra

/-!
# Bookings of one server

Work is booked in slots of time. What is settled ends by a limit and stays; what waits
is queued behind the limit, one slot after the other. Work settled behind the limit
moves it, so no two slots ever overlap.
-/

namespace Pimid

open Function (update update_of_ne update_self)

variable {ι K : Type} [LinearOrder K]

/-- One ends before the other starts. -/
def NoOverlap (x y : K × K) : Prop :=
  x.2 ≤ y.1 ∨ y.2 ≤ x.1

theorem NoOverlap.symm {x y : K × K} (h : NoOverlap x y) : NoOverlap y x :=
  Or.symm h

/-- The settled slots end by `limit` and do not overlap. -/
structure Settled (slot : ι → Option (K × K)) (limit : K) : Prop where
  ends : ∀ a x, slot a = some x → x.2 ≤ limit
  apart : ∀ a b x y, a ≠ b → slot a = some x → slot b = some y → NoOverlap x y

namespace Settled

variable {slot : ι → Option (K × K)} {limit limit' : K}

theorem none (limit : K) : Settled (fun _ : ι => (Option.none : Option (K × K))) limit :=
  ⟨nofun, nofun⟩

theorem add [DecidableEq ι] (h : Settled slot limit) (a : ι) {x : K × K} (hx : limit ≤ x.1) (hlim : x.2 ≤ limit')
    (hle : limit ≤ limit') : Settled (update slot a (some x)) limit' := by
  constructor
  · intro b y hy
    by_cases hba : b = a
    · rw [hba, update_self] at hy
      exact Option.some.inj hy ▸ hlim
    · rw [update_of_ne hba] at hy
      exact le_trans (h.ends b y hy) hle
  · -- what was settled ends before the new slot starts
    have hnew : ∀ b y, b ≠ a → update slot a (some x) b = some y → NoOverlap y x := by
      intro b y hba hy
      rw [update_of_ne hba] at hy
      exact .inl (le_trans (h.ends b y hy) hx)
    intro b c y z hbc hy hz
    by_cases hba : b = a
    · have hy' : x = y := by
        rw [hba, update_self] at hy
        exact Option.some.inj hy
      exact hy' ▸ (hnew c z (fun hca => hbc (hba.trans hca.symm)) hz).symm
    · by_cases hca : c = a
      · have hz' : x = z := by
          rw [hca, update_self] at hz
          exact Option.some.inj hz
        exact hz' ▸ hnew b y hba hy
      · rw [update_of_ne hba] at hy
        rw [update_of_ne hca] at hz
        exact h.apart b c y z hbc hy hz

end Settled

/-- The slots of a queue follow each other between `lo` and `hi`. -/
def Queued (slot : ι → Option (K × K)) : K → List ι → K → Prop
  | lo, [], hi => lo ≤ hi
  | lo, a :: q, hi => ∃ x, slot a = some x ∧ lo ≤ x.1 ∧ x.1 < x.2 ∧ Queued slot x.2 q hi

namespace Queued

variable {slot slot' : ι → Option (K × K)} {lo hi : K} {q : List ι}

theorem le (h : Queued slot lo q hi) : lo ≤ hi := by
  induction q generalizing lo with
  | nil => exact h
  | cons a q ih =>
    obtain ⟨x, -, hlo, hlt, hrest⟩ := h
    exact le_trans hlo (le_trans (le_of_lt hlt) (ih hrest))

theorem congr (h : Queued slot lo q hi) (hs : ∀ a ∈ q, slot' a = slot a) : Queued slot' lo q hi := by
  induction q generalizing lo with
  | nil => exact h
  | cons a q ih =>
    obtain ⟨x, hx, hlo, hlt, hrest⟩ := h
    refine ⟨x, (hs a (List.mem_cons_self ..)).trans hx, hlo, hlt, ih hrest fun b hb => ?_⟩
    exact hs b (List.mem_cons_of_mem _ hb)

theorem mem (h : Queued slot lo q hi) {a : ι} (ha : a ∈ q) : ∃ x, slot a = some x ∧ lo ≤ x.1 ∧ x.1 < x.2 ∧ x.2 ≤ hi := by
  induction q generalizing lo with
  | nil => cases ha
  | cons b q ih =>
    obtain ⟨x, hx, hlo, hlt, hrest⟩ := h
    rcases List.mem_cons.mp ha with rfl | ha
    · exact ⟨x, hx, hlo, hlt, hrest.le⟩
    · obtain ⟨y, hy, hle, hylt, hyhi⟩ := ih hrest ha
      exact ⟨y, hy, le_trans hlo (le_trans (le_of_lt hlt) hle), hylt, hyhi⟩

theorem snoc (h : Queued slot lo q hi) {a : ι} {x : K × K} (hx : slot a = some x) (hhi : hi ≤ x.1) (hlt : x.1 < x.2) :
    Queued slot lo (q ++ [a]) x.2 := by
  induction q generalizing lo with
  | nil => exact ⟨x, hx, le_trans h hhi, hlt, le_refl _⟩
  | cons b q ih =>
    obtain ⟨y, hy, hlo, hylt, hrest⟩ := h
    exact ⟨y, hy, hlo, hylt, ih hrest⟩

theorem pairwise (h : Queued slot lo q hi) :
    q.Pairwise fun a b => ∃ x y, slot a = some x ∧ slot b = some y ∧ x.2 ≤ y.1 ∧ x.1 < y.1 := by
  induction q generalizing lo with
  | nil => exact .nil
  | cons a q ih =>
    obtain ⟨x, hx, hlo, hlt, hrest⟩ := h
    refine .cons (fun b hb => ?_) (ih hrest)
    obtain ⟨y, hy, hle, -, -⟩ := hrest.mem hb
    exact ⟨x, y, hx, hy, hle, lt_of_lt_of_le hlt hle⟩

theorem apart (h : Queued slot lo q hi) {a b : ι} (ha : a ∈ q) (hb : b ∈ q) (hab : a ≠ b) {x y : K × K}
    (hx : slot a = some x) (hy : slot b = some y) : NoOverlap x y := by
  induction q generalizing lo with
  | nil => cases ha
  | cons c q ih =>
    obtain ⟨z, hz, -, -, hrest⟩ := h
    -- the first slot ends before any other starts
    have hfirst : ∀ d w, d ∈ q → slot d = some w → z.2 ≤ w.1 := by
      intro d w hd hw
      obtain ⟨w', hw', hle, -, -⟩ := hrest.mem hd
      rw [hw] at hw'
      exact Option.some.inj hw' ▸ hle
    rcases List.mem_cons.mp ha with hac | ha
    · rw [hac, hz] at hx
      cases hx
      exact .inl (hfirst b y ((List.mem_cons.mp hb).resolve_left fun hbc => hab (hac.trans hbc.symm)) hy)
    · rcases List.mem_cons.mp hb with hbc | hb
      · rw [hbc, hz] at hy
        cases hy
        exact .inr (hfirst a x ha hx)
      · exact ih hrest ha hb

end Queued

end Pimid
