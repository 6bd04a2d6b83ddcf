import Mathlib.Data.List.Pairwise

/-!
# First fit

Slots on a line, half open, in order and apart. A scan from `s` that moves behind every slot
in its way finds the first place at or after `s` where `f` units are free.
-/

namespace Pimid

/-- In order, apart, and none empty. -/
structure Slots (l : List (Nat × Nat)) : Prop where
  apart : l.Pairwise fun x y => x.2 ≤ y.1
  pos : ∀ x ∈ l, x.1 < x.2

/-- The `f` units from `s` on are in no slot. -/
def FreeAt (l : List (Nat × Nat)) (s f : Nat) : Prop :=
  ∀ x ∈ l, x.2 ≤ s ∨ s + f ≤ x.1

def scan (f : Nat) : Nat → List (Nat × Nat) → Nat
  | s, [] => s
  | s, x :: rest => if x.1 < s + f then scan f (max s x.2) rest else s

/-- A slot put in its place, over one of the same start. -/
def putSlot (s e : Nat) : List (Nat × Nat) → List (Nat × Nat)
  | [] => [(s, e)]
  | x :: rest => if s < x.1 then (s, e) :: x :: rest else if s = x.1 then (s, e) :: rest else x :: putSlot s e rest

variable {l l' : List (Nat × Nat)} {x : Nat × Nat} {s e f r : Nat}

theorem Slots.nil : Slots [] :=
  ⟨.nil, fun _ h => absurd h List.not_mem_nil⟩

theorem Slots.sublist (h : Slots l) (hs : l'.Sublist l) : Slots l' :=
  ⟨h.apart.sublist hs, fun x hx => h.pos x (hs.subset hx)⟩

theorem Slots.tail (h : Slots (x :: l)) : Slots l :=
  h.sublist (List.sublist_cons_self x l)

theorem Slots.head_le (h : Slots (x :: l)) {y : Nat × Nat} (hy : y ∈ l) : x.2 ≤ y.1 :=
  (List.pairwise_cons.mp h.apart).1 y hy

theorem Slots.cons (h : Slots l) (hx : x.1 < x.2) (hle : ∀ y ∈ l, x.2 ≤ y.1) : Slots (x :: l) := by
  refine ⟨List.pairwise_cons.mpr ⟨hle, h.apart⟩, fun y hy => ?_⟩
  rcases List.mem_cons.mp hy with rfl | hy
  · exact hx
  · exact h.pos y hy

theorem Slots.apart_of_ne (h : Slots l) {y : Nat × Nat} (hx : x ∈ l) (hy : y ∈ l) (hne : x ≠ y) :
    x.2 ≤ y.1 ∨ y.2 ≤ x.1 := by
  have : Std.Symm fun x y : Nat × Nat => x.2 ≤ y.1 ∨ y.2 ≤ x.1 := ⟨fun _ _ => Or.symm⟩
  exact (h.apart.imp (S := fun x y => x.2 ≤ y.1 ∨ y.2 ≤ x.1) Or.inl).forall hx hy hne

/-! ## The scan -/

theorem le_scan (f s : Nat) (l : List (Nat × Nat)) : s ≤ scan f s l := by
  induction l generalizing s with
  | nil => exact Nat.le_refl s
  | cons x rest ih =>
    rw [scan]
    split
    · exact Nat.le_trans (Nat.le_max_left ..) (ih _)
    · exact Nat.le_refl s

theorem freeAt_scan (h : Slots l) : FreeAt l (scan f s l) f := by
  induction l generalizing s with
  | nil => exact fun _ hx => absurd hx List.not_mem_nil
  | cons x rest ih =>
    rw [scan]
    split
    · intro y hy
      rcases List.mem_cons.mp hy with rfl | hy
      · exact .inl (Nat.le_trans (Nat.le_max_right s y.2) (le_scan ..))
      · exact ih h.tail y hy
    · next hfits =>
      intro y hy
      right
      have hx := h.pos x List.mem_cons_self
      rcases List.mem_cons.mp hy with rfl | hy
      · omega
      · have := h.head_le hy
        omega

theorem scan_le (hr : s ≤ r) (hfree : FreeAt l r f) : scan f s l ≤ r := by
  induction l generalizing s with
  | nil => exact hr
  | cons x rest ih =>
    rw [scan]
    split
    · refine ih (Nat.max_le.mpr ⟨hr, ?_⟩) fun y hy => hfree y (List.mem_cons_of_mem _ hy)
      rcases hfree x List.mem_cons_self with hle | hlt
      · exact hle
      · omega
    · exact hr

/-! ## A slot put -/

theorem FreeAt.ne_start (h : FreeAt l s f) (hl : Slots l) (hf : 0 < f) (hx : x ∈ l) : x.1 ≠ s := by
  have := hl.pos x hx
  rcases h x hx with hle | hle <;> omega

theorem mem_putSlot (hne : ∀ x ∈ l, x.1 ≠ s) : x ∈ putSlot s e l ↔ x = (s, e) ∨ x ∈ l := by
  induction l with
  | nil => exact List.mem_cons
  | cons y rest ih =>
    rw [putSlot]
    split
    · exact List.mem_cons
    · rw [if_neg (Ne.symm (hne y List.mem_cons_self)), List.mem_cons, List.mem_cons,
        ih fun x hx => hne x (List.mem_cons_of_mem _ hx)]
      exact or_left_comm

theorem Slots.putSlot (h : Slots l) (hfree : FreeAt l s f) (hf : 0 < f) : Slots (putSlot s (s + f) l) := by
  induction l with
  | nil => exact Slots.nil.cons (Nat.lt_add_of_pos_right hf) fun _ hy => absurd hy List.not_mem_nil
  | cons x rest ih =>
    have hx := h.pos x List.mem_cons_self
    have hrest : FreeAt rest s f := fun y hy => hfree y (List.mem_cons_of_mem _ hy)
    rw [Pimid.putSlot]
    split
    · refine h.cons (Nat.lt_add_of_pos_right hf) fun y hy => ?_
      have hlast : s + f ≤ x.1 := by
        rcases hfree x List.mem_cons_self with hle | hle <;> omega
      rcases List.mem_cons.mp hy with rfl | hy
      · exact hlast
      · have := h.head_le hy
        omega
    · next hge =>
      have hbefore : x.2 ≤ s := by
        rcases hfree x List.mem_cons_self with hle | hle <;> omega
      rw [if_neg (by omega)]
      refine (ih h.tail hrest).cons hx fun y hy => ?_
      rcases (mem_putSlot fun z hz => hrest.ne_start h.tail hf hz).mp hy with rfl | hy
      · exact hbefore
      · exact h.head_le hy

end Pimid
