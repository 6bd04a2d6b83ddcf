import Mathlib.Data.List.Basic
import Mathlib.Algebra.Order.Group.Int
import Mathlib.Order.Basic

/-!
# A queue that lets one entry go a tick

An entry is due at a clock; at a tick the first entry leaves if it is due. So an entry leaves at the
first clock that is its due clock or later, after the clock at which it was put in and after the
entry before it. It leaves when it is due exactly when every entry before it leaves it the room.
-/

namespace Pimid.Lib.Departures

variable {α : Type} (due pushed : α → Int)

/-- When the entries leave, after something has left at `t`. -/
def leaves : Int → List α → List Int
  | _, [] => []
  | t, x :: xs =>
    let t' := max (max (due x) (pushed x + 1)) (t + 1)
    t' :: leaves t' xs

variable {due pushed}

theorem leaves_length (t : Int) (xs : List α) : (leaves due pushed t xs).length = xs.length := by
  induction xs generalizing t with
  | nil => rfl
  | cons x xs ih => rw [leaves, List.length_cons, List.length_cons, ih]

theorem leaves_append (t : Int) (xs ys : List α) :
    leaves due pushed t (xs ++ ys) =
      leaves due pushed t xs ++ leaves due pushed ((leaves due pushed t xs).getLastD t) ys := by
  induction xs generalizing t with
  | nil => rfl
  | cons x xs ih =>
    rw [List.cons_append, leaves, leaves, ih, List.cons_append, List.getLastD_cons]

/-- An entry has left by a clock when each entry up to it could leave with the others after it. -/
theorem leaves_le_iff {t b : Int} {xs : List α} {i : Nat} {l : Int} (hl : (leaves due pushed t xs)[i]? = some l) :
    l ≤ b ↔ t + 1 + i ≤ b ∧
      ∀ k x, k ≤ i → xs[k]? = some x → max (due x) (pushed x + 1) + (i - k : Int) ≤ b := by
  induction xs generalizing t i with
  | nil => cases hl
  | cons x xs ih =>
    rw [leaves] at hl
    cases i with
    | zero =>
      obtain rfl := Option.some.inj hl
      constructor
      · intro h
        refine ⟨by omega, fun k y hk hy => ?_⟩
        obtain rfl : k = 0 := by omega
        obtain rfl := Option.some.inj hy
        omega
      · intro h
        have := h.2 0 x (Nat.le_refl 0) rfl
        have := h.1
        omega
    | succ i =>
      rw [List.getElem?_cons_succ] at hl
      rw [ih hl]
      constructor
      · intro h
        refine ⟨by omega, fun k y hk hy => ?_⟩
        cases k with
        | zero =>
          obtain rfl := Option.some.inj hy
          omega
        | succ k =>
          have := h.2 k y (by omega) hy
          omega
      · intro h
        have h0 := h.2 0 x (by omega) rfl
        refine ⟨by omega, fun k y hk hy => ?_⟩
        have := h.2 (k + 1) y (by omega) hy
        omega

theorem due_le_leaves {t : Int} {xs : List α} {i : Nat} {l : Int} {x : α}
    (hl : (leaves due pushed t xs)[i]? = some l) (hx : xs[i]? = some x) : due x ≤ l := by
  have := ((leaves_le_iff hl).mp (Int.le_refl l)).2 i x (Nat.le_refl i) hx
  omega

/-! ## The queue -/

structure Queue (α : Type) where
  clock : Int
  waiting : List α
  gone : List (α × Int)

inductive Op (α : Type) where
  | push (x : α)
  | tick

variable (due) in
def Queue.apply (q : Queue α) : Op α → Queue α
  | .push x => { q with waiting := q.waiting ++ [x] }
  | .tick =>
    match q.waiting with
    | [] => { q with clock := q.clock + 1 }
    | x :: rest =>
      if due x ≤ q.clock + 1 then ⟨q.clock + 1, rest, q.gone ++ [(x, q.clock + 1)]⟩
      else { q with clock := q.clock + 1 }

/-- Everything that was put in. -/
def Queue.all (q : Queue α) : List α := q.gone.map Prod.fst ++ q.waiting

theorem Queue.all_tick (q : Queue α) : (q.apply due .tick).all = q.all := by
  obtain ⟨clock, waiting, gone⟩ := q
  cases waiting with
  | nil => rfl
  | cons x rest =>
    unfold Queue.apply
    dsimp only
    split
    · unfold Queue.all
      rw [List.map_append, List.append_assoc]
      rfl
    · rfl

variable (due pushed) in
/-- What has left has left when it could, and the rest cannot have left yet. -/
structure Queue.Ok (t : Int) (q : Queue α) : Prop where
  started : t ≤ q.clock
  gone : q.gone.map Prod.snd = leaves due pushed t (q.gone.map Prod.fst)
  past : (q.gone.map Prod.snd).getLastD t ≤ q.clock
  waiting : ∀ l ∈ leaves due pushed ((q.gone.map Prod.snd).getLastD t) q.waiting, q.clock < l
  pushed_le : ∀ x ∈ q.waiting, pushed x ≤ q.clock

theorem lt_leaves {t : Int} {xs : List α} {l : Int} (hl : l ∈ leaves due pushed t xs) : t < l := by
  induction xs generalizing t with
  | nil => cases hl
  | cons x xs ih =>
    rw [leaves] at hl
    rcases List.mem_cons.mp hl with rfl | hl
    · omega
    · have := ih hl
      omega

theorem Queue.Ok.push {t : Int} {q : Queue α} (hq : q.Ok due pushed t) {x : α} (hx : pushed x = q.clock) :
    (q.apply due (.push x)).Ok due pushed t := by
  refine ⟨hq.started, hq.gone, hq.past, fun l hl => ?_, fun y hy => ?_⟩
  · change l ∈ leaves due pushed _ (q.waiting ++ [x]) at hl
    rw [leaves_append] at hl
    rcases List.mem_append.mp hl with hl | hl
    · exact hq.waiting l hl
    · obtain rfl := List.mem_singleton.mp hl
      show q.clock < _
      omega
  · rcases List.mem_append.mp hy with hy | hy
    · exact hq.pushed_le y hy
    · obtain rfl := List.mem_singleton.mp hy
      exact hx.le

theorem Queue.Ok.wait {t : Int} {q : Queue α} (hq : q.Ok due pushed t)
    (hw : ∀ l ∈ leaves due pushed ((q.gone.map Prod.snd).getLastD t) q.waiting, q.clock + 1 < l) :
    Queue.Ok due pushed t { q with clock := q.clock + 1 } where
  started := by
    have := hq.started
    show t ≤ q.clock + 1
    omega
  gone := hq.gone
  past := by
    have := hq.past
    show (q.gone.map Prod.snd).getLastD t ≤ q.clock + 1
    omega
  waiting := hw
  pushed_le x hx := by
    have := hq.pushed_le x hx
    show pushed x ≤ q.clock + 1
    omega

/-- A tick: the first entry leaves exactly when this is its clock. -/
theorem Queue.Ok.tick {t : Int} {q : Queue α} (hq : q.Ok due pushed t) : (q.apply due .tick).Ok due pushed t := by
  obtain ⟨clock, waiting, gone⟩ := q
  cases waiting with
  | nil => exact hq.wait fun l hl => nomatch hl
  | cons x rest =>
    have hok := hq
    obtain ⟨hstart, hgone, hpast, hwait, hpush⟩ := hq
    dsimp only at hstart hgone hpast hwait hpush
    have hfirst := hwait _ (List.mem_cons_self ..)
    have hpx := hpush x (List.mem_cons_self ..)
    unfold Queue.apply
    dsimp only
    split
    · next hdue =>
      have hnow : max (max (due x) (pushed x + 1)) ((gone.map Prod.snd).getLastD t + 1) = clock + 1 := by omega
      have hlast : ((gone ++ [(x, clock + 1)]).map Prod.snd).getLastD t = clock + 1 := by
        rw [List.map_append]
        simp
      constructor
      · show t ≤ clock + 1
        omega
      · show (gone ++ [(x, clock + 1)]).map Prod.snd = leaves due pushed t ((gone ++ [(x, clock + 1)]).map Prod.fst)
        rw [List.map_append, List.map_append, leaves_append, ← hgone]
        show _ = _ ++ leaves due pushed _ [x]
        rw [leaves, hnow]
        rfl
      · exact hlast.le
      · show ∀ l ∈ leaves due pushed (((gone ++ [(x, clock + 1)]).map Prod.snd).getLastD t) rest, clock + 1 < l
        rw [hlast]
        exact fun l hl => lt_leaves hl
      · intro y hy
        have := hpush y (List.mem_cons_of_mem _ hy)
        show pushed y ≤ clock + 1
        omega
    · next hdue =>
      refine hok.wait fun l hl => ?_
      rw [leaves] at hl
      show clock + 1 < l
      rcases List.mem_cons.mp hl with rfl | hl
      · omega
      · have := lt_leaves hl
        omega

/-- **An entry that is due has left at its clock exactly when each entry up to it left it the room.** -/
theorem Queue.Ok.onTime_iff {t : Int} {q : Queue α} (hq : q.Ok due pushed t) {i : Nat} {x : α} (hx : q.all[i]? = some x)
    (hstart : ∀ y ∈ q.all, t ≤ pushed y) (hdue : due x ≤ q.clock) :
    q.gone[i]? = some (x, due x) ↔
      ∀ k y, k ≤ i → q.all[k]? = some y → max (due y) (pushed y + 1) + (i - k : Int) ≤ due x := by
  have hall : leaves due pushed t q.all =
      q.gone.map Prod.snd ++ leaves due pushed ((q.gone.map Prod.snd).getLastD t) q.waiting := by
    rw [Queue.all, leaves_append, ← hq.gone]
  have hlen : i < q.all.length := (List.getElem?_eq_some_iff.mp hx).1
  obtain ⟨l, hl⟩ : ∃ l, (leaves due pushed t q.all)[i]? = some l :=
    ⟨_, List.getElem?_eq_getElem (by rw [leaves_length]; exact hlen)⟩
  have hle := leaves_le_iff (b := due x) hl
  have hge := due_le_leaves hl hx
  have hroom : (∀ k y, k ≤ i → q.all[k]? = some y → max (due y) (pushed y + 1) + (i - k : Int) ≤ due x) ↔ l = due x := by
    constructor
    · intro h
      obtain ⟨y, hy⟩ : ∃ y, q.all[0]? = some y := ⟨_, List.getElem?_eq_getElem (by omega)⟩
      have h0 := h 0 y (Nat.zero_le _) hy
      have := hstart y (List.mem_of_getElem? hy)
      have := hle.mpr ⟨by omega, h⟩
      omega
    · intro h
      exact (hle.mp h.le).2
  rw [hroom]
  rw [hall] at hl
  constructor
  · intro hg
    have hin : i < (q.gone.map Prod.snd).length := by
      rw [List.length_map]
      exact (List.getElem?_eq_some_iff.mp hg).1
    rw [List.getElem?_append_left hin, List.getElem?_map, hg] at hl
    exact (Option.some.inj hl).symm
  · rintro rfl
    by_cases hin : i < q.gone.length
    · rw [List.getElem?_append_left (by rw [List.length_map]; exact hin), List.getElem?_map] at hl
      rw [Queue.all, List.getElem?_append_left (by rw [List.length_map]; exact hin), List.getElem?_map] at hx
      obtain ⟨e, he, he'⟩ := Option.map_eq_some_iff.mp hl
      rw [he] at hx ⊢
      rw [← he', ← Option.some.inj hx]
    · -- still waiting, so its clock has not come
      have hnot : (q.gone.map Prod.snd).length ≤ i := by rw [List.length_map]; omega
      rw [List.getElem?_append_right hnot] at hl
      have := hq.waiting _ (List.mem_of_getElem? hl)
      omega

end Pimid.Lib.Departures
