import Mathlib.Algebra.BigOperators.Group.List.Basic
import Mathlib.Data.Finset.Card
import Mathlib.Data.Finset.Prod

/-!
# Mixed radix

A number below `f₀ * f₁ * … * fₙ` is a string of digits, one below each base, most
significant first: the path from the root of a tree with those fan-outs to one of its
leaves. What shares a stretch of leading digits is a subtree, and `card_diverge` counts
the leaves of a subtree that leave it through one of its missing children.
-/

namespace Pimid

/-- The digits of `u`, most significant first. The first one is not reduced. -/
def digits : List Nat → Nat → List Nat
  | [], _ => []
  | _ :: fs, u => u / fs.prod :: digits fs (u % fs.prod)

/-- The number the digits stand for. -/
def ofDigits : List Nat → List Nat → Nat
  | _ :: fs, d :: ds => d * fs.prod + ofDigits fs ds
  | _, _ => 0

@[simp]
theorem length_digits (fs : List Nat) (u : Nat) : (digits fs u).length = fs.length := by
  induction fs generalizing u with
  | nil => rfl
  | cons f fs ih => simp [digits, ih]

/-! ## Digits and numbers -/

theorem digits_lt {fs : List Nat} {u : Nat} (h : u < fs.prod) :
    List.Forall₂ (· < ·) (digits fs u) fs := by
  induction fs generalizing u with
  | nil => exact .nil
  | cons f fs ih =>
    rw [List.prod_cons] at h
    have hp : 0 < fs.prod := Nat.pos_of_mul_pos_left (Nat.zero_lt_of_lt h)
    exact .cons (Nat.div_lt_of_lt_mul (by rwa [Nat.mul_comm] at h)) (ih (Nat.mod_lt _ hp))

theorem ofDigits_digits {fs : List Nat} {u : Nat} (h : u < fs.prod) :
    ofDigits fs (digits fs u) = u := by
  induction fs generalizing u with
  | nil =>
    simp only [List.prod_nil] at h
    simp only [ofDigits]
    omega
  | cons f fs ih =>
    rw [List.prod_cons] at h
    have hp : 0 < fs.prod := Nat.pos_of_mul_pos_left (Nat.zero_lt_of_lt h)
    simp only [digits, ofDigits]
    rw [ih (Nat.mod_lt _ hp), Nat.mul_comm]
    exact Nat.div_add_mod _ _

theorem digits_inj {fs : List Nat} {u v : Nat} (hu : u < fs.prod) (hv : v < fs.prod)
    (h : digits fs u = digits fs v) : u = v := by
  rw [← ofDigits_digits hu, h, ofDigits_digits hv]

theorem ofDigits_lt {fs ds : List Nat} (h : List.Forall₂ (· < ·) ds fs) :
    ofDigits fs ds < fs.prod := by
  induction h with
  | nil => simp [ofDigits]
  | @cons d f ds fs hd _ ih =>
    simp only [ofDigits, List.prod_cons]
    calc d * fs.prod + ofDigits fs ds < d * fs.prod + fs.prod := Nat.add_lt_add_left ih _
      _ = (d + 1) * fs.prod := (Nat.succ_mul _ _).symm
      _ ≤ f * fs.prod := Nat.mul_le_mul_right _ hd

theorem digits_ofDigits {fs ds : List Nat} (h : List.Forall₂ (· < ·) ds fs) :
    digits fs (ofDigits fs ds) = ds := by
  induction h with
  | nil => rfl
  | @cons d f ds fs hd hds ih =>
    have hlt := ofDigits_lt hds
    simp only [ofDigits, digits]
    rw [Nat.mul_comm, Nat.mul_add_div (Nat.zero_lt_of_lt hlt), Nat.div_eq_of_lt hlt,
      Nat.mul_add_mod, Nat.mod_eq_of_lt hlt, ih, Nat.add_zero]

theorem digits_snoc (fs : List Nat) (f g u : Nat) :
    digits (f :: fs ++ [g]) u = digits (f :: fs) (u / g) ++ [u % g] := by
  induction fs generalizing f u with
  | nil => simp [digits]
  | cons f' fs ih =>
    have hp : ((f' :: fs) ++ [g]).prod = (f' :: fs).prod * g := by
      simp [Nat.mul_assoc]
    have hd : u % ((f' :: fs).prod * g) / g = u / g % (f' :: fs).prod := Nat.mod_mul_left_div_self ..
    have hm : u % ((f' :: fs).prod * g) % g = u % g := Nat.mod_mul_left_mod ..
    calc digits (f :: f' :: fs ++ [g]) u
        = u / ((f' :: fs) ++ [g]).prod :: digits (f' :: fs ++ [g]) (u % ((f' :: fs) ++ [g]).prod) := rfl
      _ = u / g / (f' :: fs).prod :: (digits (f' :: fs) (u / g % (f' :: fs).prod) ++ [u % g]) := by
        rw [hp, ih, hd, hm, Nat.div_div_eq_div_mul, Nat.mul_comm g]
      _ = digits (f :: f' :: fs) (u / g) ++ [u % g] := rfl

theorem digits_append_of_lt (fs : List Nat) {gs : List Nat} {u : Nat} (h : u < gs.prod) :
    (digits (fs ++ gs) u).drop fs.length = digits gs u := by
  induction fs generalizing u with
  | nil => rfl
  | cons f fs ih =>
    simp only [List.cons_append, digits, List.length_cons, List.drop_succ_cons]
    exact (ih (Nat.lt_of_le_of_lt (Nat.mod_le _ _) h)).trans (by
      by_cases hf : fs.prod = 0
      · simp [hf]
      · rw [Nat.mod_eq_of_lt]
        rw [List.prod_append]
        exact Nat.lt_of_lt_of_le h (Nat.le_mul_of_pos_left _ (Nat.pos_of_ne_zero hf)))

/-- The digits in the leading bases are those of the number without its trailing part. -/
theorem digits_append (fs gs : List Nat) {u : Nat} (h : u < (fs ++ gs).prod) :
    digits (fs ++ gs) u = digits fs (u / gs.prod) ++ digits gs (u % gs.prod) := by
  induction fs generalizing u with
  | nil =>
    rw [List.nil_append] at h ⊢
    rw [Nat.mod_eq_of_lt h]
    rfl
  | cons f fs ih =>
    have hp : (fs ++ gs).prod = fs.prod * gs.prod := List.prod_append
    have hpos : 0 < (fs ++ gs).prod := by
      rw [List.cons_append, List.prod_cons] at h
      exact Nat.pos_of_mul_pos_left (Nat.zero_lt_of_lt h)
    have hd : u % (fs.prod * gs.prod) / gs.prod = u / gs.prod % fs.prod := Nat.mod_mul_left_div_self ..
    have hm : u % (fs.prod * gs.prod) % gs.prod = u % gs.prod := Nat.mod_mul_left_mod ..
    calc digits (f :: fs ++ gs) u
        = u / (fs ++ gs).prod :: digits (fs ++ gs) (u % (fs ++ gs).prod) := rfl
      _ = u / gs.prod / fs.prod :: (digits fs (u / gs.prod % fs.prod) ++ digits gs (u % gs.prod)) := by
        rw [ih (Nat.mod_lt _ hpos), hp, hd, hm, Nat.div_div_eq_div_mul, Nat.mul_comm gs.prod]
      _ = digits (f :: fs) (u / gs.prod) ++ digits gs (u % gs.prod) := rfl

/-! ## Counting -/

theorem card_filter_divMod {f m : Nat} (A P : Nat → Prop) [DecidablePred A] [DecidablePred P] :
    ((Finset.range (f * m)).filter fun u => A (u / m) ∧ P (u % m)).card
      = ((Finset.range f).filter A).card * ((Finset.range m).filter P).card := by
  by_cases hm : m = 0
  · simp [hm]
  have hm : 0 < m := Nat.pos_of_ne_zero hm
  rw [← Finset.card_product]
  refine Finset.card_nbij' (fun u => (u / m, u % m)) (fun p => p.1 * m + p.2) ?_ ?_ ?_ ?_
  · intro u hu
    simp only [Finset.coe_filter, Finset.mem_range, Set.mem_ofPred_eq] at hu
    simp only [Finset.coe_product, Finset.coe_filter, Finset.mem_range, Set.mem_prod, Set.mem_ofPred_eq]
    exact ⟨⟨Nat.div_lt_of_lt_mul (by rw [Nat.mul_comm]; exact hu.1), hu.2.1⟩, Nat.mod_lt _ hm, hu.2.2⟩
  · rintro ⟨a, b⟩ hp
    simp only [Finset.coe_product, Finset.coe_filter, Finset.mem_range, Set.mem_prod,
      Set.mem_ofPred_eq] at hp
    obtain ⟨⟨ha, hA⟩, hb, hP⟩ := hp
    have hdiv : (a * m + b) / m = a := by
      rw [Nat.mul_comm, Nat.mul_add_div hm, Nat.div_eq_of_lt hb, Nat.add_zero]
    have hmod : (a * m + b) % m = b := by rw [Nat.mul_comm, Nat.mul_add_mod, Nat.mod_eq_of_lt hb]
    simp only [Finset.coe_filter, Finset.mem_range, Set.mem_ofPred_eq, hdiv, hmod]
    refine ⟨?_, hA, hP⟩
    calc a * m + b < a * m + m := Nat.add_lt_add_left hb _
      _ = (a + 1) * m := (Nat.succ_mul _ _).symm
      _ ≤ f * m := Nat.mul_le_mul_right _ ha
  · intro u _
    show u / m * m + u % m = u
    rw [Nat.mul_comm]
    exact Nat.div_add_mod _ _
  · rintro ⟨a, b⟩ hp
    simp only [Finset.coe_product, Finset.coe_filter, Finset.mem_range, Set.mem_prod,
      Set.mem_ofPred_eq] at hp
    show ((a * m + b) / m, (a * m + b) % m) = (a, b)
    rw [Nat.mul_comm, Nat.mul_add_div hm, Nat.div_eq_of_lt hp.2.1, Nat.add_zero, Nat.mul_add_mod,
      Nat.mod_eq_of_lt hp.2.1]

open Classical in
/-- Of the numbers whose digits start with `q`, those whose next digit is not in `live`. -/
theorem card_diverge {q fs : List Nat} (live : Finset Nat) (hq : List.Forall₂ (· < ·) q (fs.take q.length))
    {f : Nat} (hf : fs[q.length]? = some f) (hl : ∀ c ∈ live, c < f) :
    ((Finset.range fs.prod).filter fun u => ∃ c, c ∉ live ∧ q ++ [c] <+: digits fs u).card
      = (f - live.card) * (fs.drop (q.length + 1)).prod := by
  induction q generalizing fs with
  | nil =>
    obtain ⟨g, gs, rfl⟩ : ∃ g gs, fs = g :: gs := by
      cases fs with
      | nil => simp at hf
      | cons g gs => exact ⟨g, gs, rfl⟩
    obtain rfl : g = f := by simpa using hf
    have hsplit := card_filter_divMod (f := g) (m := gs.prod) (· ∉ live) (fun _ => True)
    have hdead : ((Finset.range g).filter (· ∉ live)).card = g - live.card := by
      rw [Finset.filter_notMem_eq_sdiff, Finset.card_sdiff_of_subset, Finset.card_range]
      intro c hc
      exact Finset.mem_range.mpr (hl c hc)
    rw [hdead, Finset.filter_true, Finset.card_range] at hsplit
    simp only [List.prod_cons, List.length_nil, Nat.zero_add, List.drop_succ_cons, List.drop_zero]
    rw [← hsplit]
    congr 1
    refine Finset.filter_congr fun u _ => ?_
    simp [digits]
  | cons a q ih =>
    obtain ⟨g, gs, rfl⟩ : ∃ g gs, fs = g :: gs := by
      cases fs with
      | nil => simp at hf
      | cons g gs => exact ⟨g, gs, rfl⟩
    simp only [List.length_cons, List.take_succ_cons, List.forall₂_cons] at hq
    simp only [List.length_cons, List.getElem?_cons_succ] at hf
    have hsplit := card_filter_divMod (f := g) (m := gs.prod) (· = a)
      (fun v => ∃ c, c ∉ live ∧ q ++ [c] <+: digits gs v)
    have hone : ((Finset.range g).filter (· = a)).card = 1 := by
      rw [Finset.filter_eq' , if_pos (Finset.mem_range.mpr hq.1), Finset.card_singleton]
    rw [hone, Nat.one_mul, ih hq.2 hf] at hsplit
    simp only [List.prod_cons, List.length_cons, List.drop_succ_cons]
    rw [← hsplit]
    congr 1
    refine Finset.filter_congr fun u _ => ?_
    simp only [digits, List.cons_append, List.cons_prefix_cons]
    exact ⟨fun ⟨c, hc, h, hp⟩ => ⟨h.symm, c, hc, hp⟩, fun ⟨h, c, hc, hp⟩ => ⟨c, hc, h.symm, hp⟩⟩

/-! ## Two digits -/

theorem two_digits_lt {m n a b : Nat} (ha : a < m) (hb : b < n) : a * n + b < m * n :=
  calc a * n + b < a * n + n := Nat.add_lt_add_left hb _
    _ = (a + 1) * n := (Nat.succ_mul _ _).symm
    _ ≤ m * n := Nat.mul_le_mul_right _ ha

theorem two_digits_inj {n a a' b b' : Nat} (hb : b < n) (hb' : b' < n) (h : a * n + b = a' * n + b') :
    a = a' ∧ b = b' := by
  have hn : 0 < n := Nat.zero_lt_of_lt hb
  have hleft := (Nat.div_mod_unique hn).mpr ⟨Nat.add_comm b (n * a), hb⟩
  have hright := (Nat.div_mod_unique hn).mpr ⟨Nat.add_comm b' (n * a'), hb'⟩
  rw [Nat.mul_comm a, Nat.mul_comm a'] at h
  exact ⟨hleft.1.symm.trans (h ▸ hright.1), hleft.2.symm.trans (h ▸ hright.2)⟩

/-- Of `m` consecutive numbers exactly one has the remainder `r`. -/
theorem existsUnique_mod {m r : Nat} (hr : r < m) (s : Nat) : ∃! c, (s ≤ c ∧ c < s + m) ∧ c % m = r := by
  have hs := Nat.div_add_mod s m
  have hlt := Nat.mod_lt s (Nat.zero_lt_of_lt hr)
  refine existsUnique_of_exists_of_unique ?_ ?_
  · by_cases hle : s % m ≤ r
    · refine ⟨m * (s / m) + r, by omega, ?_⟩
      rw [Nat.mul_add_mod, Nat.mod_eq_of_lt hr]
    · refine ⟨m * (s / m + 1) + r, ?_, ?_⟩
      · rw [Nat.mul_succ]
        omega
      · rw [Nat.mul_add_mod, Nat.mod_eq_of_lt hr]
  · -- two of them differ by a multiple of `m` that is below `m`
    have hle : ∀ c c', c ≤ c' → s ≤ c → c' < s + m → c % m = r → c' % m = r → c = c' := by
      intro c c' hcc hc hc' h h'
      have hdvd : m ∣ c' - c := Nat.dvd_of_mod_eq_zero (Nat.sub_mod_eq_zero_of_mod_eq (h'.trans h.symm))
      have := Nat.eq_zero_of_dvd_of_lt hdvd (by omega)
      omega
    intro c c' ⟨⟨hc, hlc⟩, h⟩ ⟨⟨hc', hlc'⟩, h'⟩
    rcases Nat.le_total c c' with hcc | hcc
    · exact hle c c' hcc hc hlc' h h'
    · exact (hle c' c hcc hc' hlc h' h).symm

end Pimid
