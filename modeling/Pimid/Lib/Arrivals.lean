import Mathlib.Data.List.Perm.Basic

/-!
# Arrivals, and who has been served

Items arrive one after another and are taken in any order that keeps the order of
each key. Arrivals are numbered, so two equal items are still two items: what is
held and what was taken are lists of numbered arrivals.
-/

namespace Pimid

variable {α κ : Type}

/-- Of the arrivals `arr`, the items `taken` were taken, in that order, and `held` are
still there, oldest first. -/
structure Served [DecidableEq κ] (key : α → κ) (arr : List α) (taken held : List (α × Nat)) : Prop where
  order : held.Sublist arr.zipIdx
  once : (taken ++ held).Perm arr.zipIdx
  fifo : ∀ k, taken.filter (fun x => key x.1 = k) ++ held.filter (fun x => key x.1 = k)
    = arr.zipIdx.filter fun x => key x.1 = k

namespace Served

variable [DecidableEq κ] {key : α → κ} {arr : List α} {taken held : List (α × Nat)}

theorem nil : Served key ([] : List α) [] [] := ⟨.slnil, .nil, fun _ => rfl⟩

theorem arrive (h : Served key arr taken held) (a : α) :
    Served key (arr ++ [a]) taken (held ++ [(a, arr.length)]) := by
  have hidx : (arr ++ [a]).zipIdx = arr.zipIdx ++ [(a, arr.length)] := by
    rw [List.zipIdx_append]
    simp
  refine ⟨?_, ?_, fun k => ?_⟩
  · rw [hidx]
    exact h.order.append (.refl _)
  · rw [hidx, ← List.append_assoc]
    exact h.once.append_right _
  · rw [hidx, List.filter_append, List.filter_append, ← List.append_assoc, h.fifo k]

theorem take {pre post : List (α × Nat)} {x : α × Nat}
    (h : Served key arr taken (pre ++ x :: post)) (hpre : ∀ y ∈ pre, key y.1 ≠ key x.1) :
    Served key arr (taken ++ [x]) (pre ++ post) := by
  refine ⟨?_, ?_, fun k => ?_⟩
  · exact ((List.sublist_cons_self x post).append_left pre).trans h.order
  · refine .trans ?_ h.once
    rw [List.append_assoc]
    show (taken ++ x :: (pre ++ post)).Perm (taken ++ (pre ++ x :: post))
    exact List.perm_middle.symm.append_left taken
  · rw [← h.fifo k]
    simp only [List.filter_append, List.append_assoc, List.append_cancel_left_eq]
    by_cases hk : key x.1 = k
    · have hnone : pre.filter (fun y => key y.1 = k) = [] :=
        List.filter_eq_nil_iff.mpr fun y hy => by
          rw [decide_eq_true_eq, ← hk]
          exact hpre y hy
      rw [hnone, List.filter_cons_of_pos (by rwa [decide_eq_true_eq])]
      simp [hk]
    · rw [List.filter_cons_of_neg (by rwa [decide_eq_true_eq])]
      simp [hk]

end Served

end Pimid
