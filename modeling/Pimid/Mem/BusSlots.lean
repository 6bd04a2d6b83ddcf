import Mathlib.Data.List.Induction
import Mathlib.Data.List.TakeWhile
import Pimid.Lib.FirstFit

/-!
# Slots on a shared medium

The transfers of an element's local bus, or of a router port, each book the first free slot
at or after their time. The slots are kept by their start, and those that ended more than
4096 cycles before the current call are dropped. Requests and replies book out of time
order; as long as none reaches back further than 4096 cycles, every transfer has the first
place that is free of all the transfers booked before it, dropped ones included.
-/

namespace Pimid.Mem

/-- Slots that ended long before `t` are dropped. -/
def forget (busy : List (Nat × Nat)) (t : Nat) : List (Nat × Nat) :=
  busy.dropWhile fun x => x.2 + 4096 < t

/-- Behind the slot that `t` is in, if there is one: the last that starts at or before it. -/
def behind (busy : List (Nat × Nat)) (t : Nat) : Nat :=
  match (busy.filter (·.1 ≤ t)).getLast? with
  | some x => if t < x.2 then x.2 else t
  | none => t

/-- The slots that start at or after `s` are scanned. -/
def freeSlot (busy : List (Nat × Nat)) (t f : Nat) : Nat :=
  scan f (behind busy t) (busy.filter (behind busy t ≤ ·.1))

/-- The medium with the first free slot of `f` cycles at or after `t` booked, and the slot's start. -/
def busBook (busy : List (Nat × Nat)) (t f : Nat) : List (Nat × Nat) × Nat :=
  let busy := forget busy t
  let s := freeSlot busy t f
  (putSlot s (s + f) busy, s)

/-! ## The first free slot -/

variable {busy : List (Nat × Nat)} {t f : Nat}

/-- The last slot that starts at or before `t` ends last of them. -/
theorem behind_spec (h : Slots busy) :
    (behind busy t = t ∨ ∃ y ∈ busy, y.1 ≤ t ∧ t < y.2 ∧ behind busy t = y.2) ∧
      (∀ x ∈ busy, x.1 ≤ t → x.2 ≤ behind busy t) ∧ ∀ x ∈ busy, t < x.1 → behind busy t ≤ x.1 := by
  unfold behind
  cases hlast : (busy.filter (·.1 ≤ t)).getLast? with
  | none =>
    have hnone := List.getLast?_eq_none_iff.mp hlast
    refine ⟨.inl rfl, fun x hx hle => ?_, fun x _ hlt => Nat.le_of_lt hlt⟩
    have : x ∈ busy.filter (·.1 ≤ t) := List.mem_filter.mpr ⟨hx, decide_eq_true hle⟩
    rw [hnone] at this
    exact absurd this List.not_mem_nil
  | some y =>
    obtain ⟨front, hfront⟩ := List.getLast?_eq_some_iff.mp hlast
    obtain ⟨hy, hyt⟩ := List.mem_filter.mp (List.mem_of_getLast? hlast)
    have hyt : y.1 ≤ t := of_decide_eq_true hyt
    have hends : ∀ x ∈ busy, x.1 ≤ t → x.2 ≤ y.2 := by
      intro x hx hle
      have hmem : x ∈ front ++ [y] := hfront ▸ List.mem_filter.mpr ⟨hx, decide_eq_true hle⟩
      rcases List.mem_append.mp hmem with hmem | hmem
      · have hsorted : Slots (front ++ [y]) := hfront ▸ h.sublist List.filter_sublist
        have hxy := (List.pairwise_append.mp hsorted.apart).2.2 x hmem y List.mem_cons_self
        exact Nat.le_trans hxy (Nat.le_of_lt (h.pos y hy))
      · exact Nat.le_of_eq (congrArg Prod.snd (List.mem_singleton.mp hmem))
    have hnext : ∀ x ∈ busy, t < x.1 → y.2 ≤ x.1 := by
      intro x hx hlt
      have hne : x ≠ y := by
        intro heq
        rw [heq] at hlt
        omega
      have := h.pos x hx
      rcases h.apart_of_ne hx hy hne with hle | hle <;> omega
    dsimp only
    split
    · next hlt => exact ⟨.inr ⟨y, hy, hyt, hlt, rfl⟩, hends, hnext⟩
    · next hge =>
      have hle : y.2 ≤ t := Nat.le_of_not_lt hge
      exact ⟨.inl rfl, fun x hx hxt => Nat.le_trans (hends x hx hxt) hle, fun x _ hlt => Nat.le_of_lt hlt⟩

theorem le_behind (h : Slots busy) : t ≤ behind busy t := by
  rcases (behind_spec h (t := t)).1 with heq | ⟨y, -, -, hlt, heq⟩ <;> omega

theorem le_freeSlot (h : Slots busy) : t ≤ freeSlot busy t f :=
  Nat.le_trans (le_behind h) (le_scan ..)

/-- The scan misses no slot: those before its first end at its start. -/
theorem freeAt_freeSlot (h : Slots busy) : FreeAt busy (freeSlot busy t f) f := by
  intro x hx
  by_cases hin : behind busy t ≤ x.1
  · exact freeAt_scan (h.sublist List.filter_sublist) x (List.mem_filter.mpr ⟨hx, decide_eq_true hin⟩)
  · left
    obtain ⟨-, hends, hnext⟩ := behind_spec h (t := t)
    by_cases hxt : x.1 ≤ t
    · exact Nat.le_trans (hends x hx hxt) (le_scan ..)
    · exact absurd (hnext x hx (Nat.lt_of_not_le hxt)) hin

theorem freeSlot_le (h : Slots busy) (hf : 1 ≤ f) {r : Nat} (hr : t ≤ r) (hfree : FreeAt busy r f) :
    freeSlot busy t f ≤ r := by
  refine scan_le ?_ fun x hx => hfree x (List.mem_filter.mp hx).1
  rcases (behind_spec h (t := t)).1 with heq | ⟨y, hy, hyt, -, heq⟩
  · omega
  · rcases hfree y hy with hle | hle <;> omega

/-! ## A run of calls -/

/-- The medium, and every interval booked on it. -/
structure Medium where
  busy : List (Nat × Nat)
  booked : List (Nat × Nat)

/-- A transfer's time and its cycles. -/
def Medium.call (m : Medium) (c : Nat × Nat) : Medium where
  busy := (busBook m.busy c.1 c.2).1
  booked := m.booked ++ [((busBook m.busy c.1 c.2).2, (busBook m.busy c.1 c.2).2 + c.2)]

def Medium.run (calls : List (Nat × Nat)) : Medium :=
  calls.foldl Medium.call ⟨[], []⟩

theorem Medium.run_concat (calls : List (Nat × Nat)) (c : Nat × Nat) : run (calls ++ [c]) = (run calls).call c := by
  rw [run, List.foldl_append]
  rfl

/-- No call reaches back more than 4096 cycles behind one before it. -/
def InReach (calls : List (Nat × Nat)) : Prop :=
  calls.Pairwise fun a b => a.1 ≤ b.1 + 4096

theorem mem_forget {x : Nat × Nat} (hx : x ∈ busy) : x ∈ forget busy t ∨ x.2 + 4096 < t := by
  rw [← List.takeWhile_append_dropWhile (p := fun x => decide (x.2 + 4096 < t)) (l := busy)] at hx
  rcases List.mem_append.mp hx with hx | hx
  · have hend := List.mem_takeWhile_imp hx
    exact .inr (of_decide_eq_true hend)
  · exact .inl hx

/-- Every interval booked is on the medium, or ended out of every later call's reach. -/
structure Medium.Inv (m : Medium) (calls : List (Nat × Nat)) : Prop where
  slots : Slots m.busy
  booked : ∀ x ∈ m.busy, x ∈ m.booked
  kept : ∀ x ∈ m.booked, x ∈ m.busy ∨ ∃ a ∈ calls, x.2 + 4096 < a.1
  apart : m.booked.Pairwise fun x y => x.2 ≤ y.1 ∨ y.2 ≤ x.1

variable {m : Medium} {calls : List (Nat × Nat)} {c : Nat × Nat}

theorem Medium.Inv.forget (h : m.Inv calls) (t : Nat) : Slots (forget m.busy t) :=
  h.slots.sublist (List.dropWhile_sublist _)

/-- What was dropped is behind the call, so only the slots kept are in its way. -/
theorem Medium.Inv.freeAt_booked (h : m.Inv calls) (hreach : ∀ a ∈ calls, a.1 ≤ t + 4096) {r : Nat} (hr : t ≤ r) :
    FreeAt m.booked r f ↔ FreeAt (Mem.forget m.busy t) r f := by
  constructor
  · intro hfree x hx
    exact hfree x (h.booked x ((List.dropWhile_sublist _).subset hx))
  · intro hfree x hx
    have hold : x.2 + 4096 < t + 4096 → x.2 ≤ r := by omega
    rcases h.kept x hx with hbusy | ⟨a, ha, hend⟩
    · rcases mem_forget hbusy (t := t) with hkept | hend
      · exact hfree x hkept
      · exact .inl (by omega)
    · exact .inl (hold (Nat.lt_of_lt_of_le hend (hreach a ha)))

/-- The call's place: the first at or after its time that no interval booked covers. -/
theorem Medium.Inv.busBook (h : m.Inv calls) (hreach : ∀ a ∈ calls, a.1 ≤ t + 4096) (hf : 1 ≤ f) :
    t ≤ (busBook m.busy t f).2 ∧ FreeAt m.booked (busBook m.busy t f).2 f ∧
      ∀ r, t ≤ r → FreeAt m.booked r f → (busBook m.busy t f).2 ≤ r := by
  have hle := le_freeSlot (h.forget t) (t := t) (f := f)
  refine ⟨hle, (h.freeAt_booked hreach hle).mpr (freeAt_freeSlot (h.forget t)), fun r hr hfree => ?_⟩
  exact freeSlot_le (h.forget t) hf hr ((h.freeAt_booked hreach hr).mp hfree)

theorem Medium.Inv.mem_busBook (h : m.Inv calls) (hf : 1 ≤ f) (x : Nat × Nat) :
    x ∈ (Mem.busBook m.busy t f).1 ↔
      x = ((Mem.busBook m.busy t f).2, (Mem.busBook m.busy t f).2 + f) ∨ x ∈ Mem.forget m.busy t :=
  mem_putSlot fun _ hy => (freeAt_freeSlot (h.forget t)).ne_start (h.forget t) hf hy

theorem Medium.Inv.call (h : m.Inv calls) (hreach : ∀ a ∈ calls, a.1 ≤ c.1 + 4096) (hf : 1 ≤ c.2) :
    (m.call c).Inv (calls ++ [c]) := by
  obtain ⟨-, hfree, -⟩ := h.busBook hreach hf
  refine ⟨(h.forget c.1).putSlot (freeAt_freeSlot (h.forget c.1)) hf, ?_, ?_, ?_⟩
  · intro x hx
    rcases (h.mem_busBook hf x).mp hx with heq | hkept
    · exact List.mem_append.mpr (.inr (List.mem_singleton.mpr heq))
    · exact List.mem_append.mpr (.inl (h.booked x ((List.dropWhile_sublist _).subset hkept)))
  · intro x hx
    rcases List.mem_append.mp hx with hx | hx
    · rcases h.kept x hx with hbusy | ⟨a, ha, hend⟩
      · rcases mem_forget hbusy (t := c.1) with hkept | hend
        · exact .inl ((h.mem_busBook hf x).mpr (.inr hkept))
        · exact .inr ⟨c, List.mem_append.mpr (.inr List.mem_cons_self), hend⟩
      · exact .inr ⟨a, List.mem_append.mpr (.inl ha), hend⟩
    · exact .inl ((h.mem_busBook hf x).mpr (.inl (List.mem_singleton.mp hx)))
  · refine List.pairwise_append.mpr ⟨h.apart, List.pairwise_singleton .., fun x hx y hy => ?_⟩
    rw [List.mem_singleton.mp hy]
    exact hfree x hx

theorem Medium.inv_run (hreach : InReach calls) (hf : ∀ c ∈ calls, 1 ≤ c.2) : (run calls).Inv calls := by
  induction calls using List.reverseRecOn with
  | nil => exact ⟨Slots.nil, fun _ h => h, fun _ h => absurd h List.not_mem_nil, .nil⟩
  | append_singleton calls c ih =>
    obtain ⟨hrest, -, hlast⟩ := List.pairwise_append.mp hreach
    rw [run_concat]
    refine (ih hrest fun a ha => hf a (List.mem_append.mpr (.inl ha))).call (fun a ha => ?_) ?_
    · exact hlast a ha c List.mem_cons_self
    · exact hf c (List.mem_append.mpr (.inr List.mem_cons_self))

/-- **Calls on one medium that keep within reach of one another book the first free place
each, apart from all the others, and no booking takes another's place in the map.** -/
theorem Medium.first_fit (hreach : InReach calls) (hf : ∀ c ∈ calls, 1 ≤ c.2) :
    (run calls).booked.Pairwise (fun x y => x.2 ≤ y.1 ∨ y.2 ≤ x.1) ∧
      ∀ before c after, calls = before ++ c :: after →
        let m := run before
        let s := (Mem.busBook m.busy c.1 c.2).2
        c.1 ≤ s ∧ FreeAt m.booked s c.2 ∧ (∀ r, c.1 ≤ r → FreeAt m.booked r c.2 → s ≤ r) ∧
          (∀ x ∈ Mem.forget m.busy c.1, x.1 ≠ s) ∧
          ∀ x, x ∈ (m.call c).busy ↔ x = (s, s + c.2) ∨ x ∈ Mem.forget m.busy c.1 := by
  refine ⟨(inv_run hreach hf).apart, fun before c after heq => ?_⟩
  subst heq
  obtain ⟨hrest, -, hlast⟩ := List.pairwise_append.mp hreach
  have hinv := inv_run hrest fun a ha => hf a (List.mem_append.mpr (.inl ha))
  have hc : 1 ≤ c.2 := hf c (List.mem_append.mpr (.inr List.mem_cons_self))
  obtain ⟨hle, hfree, hleast⟩ := hinv.busBook (fun a ha => hlast a ha c List.mem_cons_self) hc
  refine ⟨hle, hfree, hleast, fun x hx => ?_, hinv.mem_busBook hc⟩
  exact (freeAt_freeSlot (hinv.forget c.1)).ne_start (hinv.forget c.1) hc hx

/-- A reply far ahead, two requests in the gap before it, and one that no longer fits there. -/
theorem Medium.first_fit_gap :
    (run [(100, 4), (90, 5), (92, 4), (93, 3)]).booked.Pairwise (fun x y => x.2 ≤ y.1 ∨ y.2 ≤ x.1) ∧
      (run [(100, 4), (90, 5), (92, 4), (93, 3)]).booked = [(100, 104), (90, 95), (95, 99), (104, 107)] :=
  ⟨(@first_fit [(100, 4), (90, 5), (92, 4), (93, 3)] (by unfold InReach; decide) (by decide)).1, by decide⟩

end Pimid.Mem
