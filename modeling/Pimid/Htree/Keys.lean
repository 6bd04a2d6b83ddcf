import Pimid.Htree.Build
import Std.Data.String.ToNat

/-!
# Coordinate keys

A router is entered under the decimal coordinates on its way down, each after a slash.
Two coordinate lists never share a key, so the map from keys to routers is a map from
coordinates to routers.
-/

namespace Pimid.Htree

open SparseHTree (keyStep)

/-- The key of a list of coordinates. -/
def keyOf (q : List Nat) : String := q.foldl keyStep ""

@[simp]
theorem keyOf_nil : keyOf [] = "" := rfl

theorem keyOf_append (q w : List Nat) : keyOf (q ++ w) = w.foldl keyStep (keyOf q) :=
  List.foldl_append

theorem keyOf_snoc (q : List Nat) (c : Nat) : keyOf (q ++ [c]) = keyStep (keyOf q) c :=
  keyOf_append q [c]

theorem toList_keyStep (k : String) (c : Nat) :
    (keyStep k c).toList = k.toList ++ '/' :: Nat.toDigits 10 c := by
  show (k ++ ("/" ++ c.repr)).toList = _
  rw [String.toList_append, String.toList_append, Nat.toList_repr]
  rfl

theorem toList_foldl_keyStep (q : List Nat) (k : String) :
    (q.foldl keyStep k).toList = k.toList ++ q.flatMap fun c => '/' :: Nat.toDigits 10 c := by
  induction q generalizing k with
  | nil => simp
  | cons c q ih =>
    rw [List.foldl_cons, ih, toList_keyStep, List.flatMap_cons, List.append_assoc]

theorem slash_notMem_toDigits (c : Nat) : '/' ∉ Nat.toDigits 10 c := by
  intro h
  have := Nat.isDigit_of_mem_toDigits (by decide) (by decide) h
  exact absurd this (by decide)

theorem append_inj_of_slash {a b s t : List Char} (ha : '/' ∉ a) (hb : '/' ∉ b)
    (hs : s = [] ∨ s.head? = some '/') (ht : t = [] ∨ t.head? = some '/') (h : a ++ s = b ++ t) :
    a = b ∧ s = t := by
  induction a generalizing b with
  | nil =>
    cases b with
    | nil => exact ⟨rfl, h⟩
    | cons y b =>
      -- `s` would start with a character of `b`
      rcases hs with rfl | hs
      · simp at h
      · rw [List.nil_append] at h
        rw [h] at hs
        simp only [List.cons_append, List.head?_cons, Option.some.injEq] at hs
        exact absurd (by simp [hs]) hb
  | cons x a ih =>
    cases b with
    | nil =>
      rcases ht with rfl | ht
      · simp at h
      · rw [List.nil_append] at h
        rw [← h] at ht
        simp only [List.cons_append, List.head?_cons, Option.some.injEq] at ht
        exact absurd (by simp [ht]) ha
    | cons y b =>
      simp only [List.cons_append, List.cons.injEq] at h
      obtain ⟨rfl, h⟩ := h
      obtain ⟨rfl, hst⟩ := ih (fun hm => ha (List.mem_cons_of_mem _ hm))
        (fun hm => hb (List.mem_cons_of_mem _ hm)) h
      exact ⟨rfl, hst⟩

theorem flatMap_slash (q : List Nat) :
    (q.flatMap fun c => '/' :: Nat.toDigits 10 c) = []
      ∨ (q.flatMap fun c => '/' :: Nat.toDigits 10 c).head? = some '/' := by
  cases q with
  | nil => exact .inl rfl
  | cons c q => exact .inr rfl

theorem toDigits_inj {c d : Nat} (h : Nat.toDigits 10 c = Nat.toDigits 10 d) : c = d := by
  rw [← Nat.ofDigitChars_ten_toDigits (n := c), h, Nat.ofDigitChars_ten_toDigits]

/-- **Different coordinates have different keys.** -/
theorem keyOf_inj {q q' : List Nat} (h : keyOf q = keyOf q') : q = q' := by
  replace h : (keyOf q).toList = (keyOf q').toList := by rw [h]
  simp only [keyOf, toList_foldl_keyStep, String.toList_empty, List.nil_append] at h
  induction q generalizing q' with
  | nil =>
    cases q' with
    | nil => rfl
    | cons d q' => simp at h
  | cons c q ih =>
    cases q' with
    | nil => simp at h
    | cons d q' =>
      simp only [List.flatMap_cons, List.cons_append, List.cons.injEq, true_and] at h
      obtain ⟨hcd, hrest⟩ := append_inj_of_slash (slash_notMem_toDigits c) (slash_notMem_toDigits d)
        (flatMap_slash q) (flatMap_slash q') h
      rw [toDigits_inj hcd, ih hrest]

end Pimid.Htree
