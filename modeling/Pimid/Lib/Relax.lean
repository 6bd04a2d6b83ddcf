import Mathlib.Data.List.Count
import Mathlib.Logic.Function.Basic
import Mathlib.Order.MinMax

/-!
# Bounds that are solved together

Each member of a list has a bound, and `F` says what the bounds let it be at most. A
pass lowers the members one after the other, each on the bounds as they stand; passes
are made until one changes nothing or their number is used up.

`F` need not be monotone. What is asked is a map `G` above it whose value is at most
`v` or not by which bounds are (`Levelled`), and that `F` departs from `G` only at a
value it never goes below (`Pins`). One pass more than there are members is then
enough: at the end every member is at most what `G` makes of the bounds.
-/

namespace Pimid

theorem countP_lt_countP {κ : Type} {p q : κ → Bool} {xs : List κ} {x : κ} (h : ∀ y ∈ xs, p y → q y) (hx : x ∈ xs)
    (hp : ¬p x) (hq : q x) : xs.countP p < xs.countP q := by
  obtain ⟨ys, zs, rfl⟩ := List.append_of_mem hx
  have hys : ys.countP p ≤ ys.countP q := List.countP_mono_left fun y hy => h y (by simp [hy])
  have hzs : zs.countP p ≤ zs.countP q := List.countP_mono_left fun z hz => h z (by simp [hz])
  rw [List.countP_append, List.countP_append, List.countP_cons_of_neg hp, List.countP_cons_of_pos hq]
  omega

variable {ι α : Type} [LinearOrder α]

/-! ## The least of a list -/

/-- The least of `a` and the values of `f` on the list. -/
def least {κ : Type} (f : κ → α) (xs : List κ) (a : α) : α :=
  xs.foldl (fun m x => min m (f x)) a

theorem least_le_iff {κ : Type} {f : κ → α} {xs : List κ} {a v : α} :
    least f xs a ≤ v ↔ a ≤ v ∨ ∃ x ∈ xs, f x ≤ v := by
  induction xs generalizing a with
  | nil => simp [least]
  | cons x xs ih =>
    have h : least f (x :: xs) a = least f xs (min a (f x)) := rfl
    rw [h, ih, min_le_iff]
    simp [or_assoc]

theorem least_le {κ : Type} {f : κ → α} {xs : List κ} {x : κ} (hx : x ∈ xs) (a : α) : least f xs a ≤ f x :=
  least_le_iff.mpr (Or.inr ⟨x, hx, le_refl _⟩)

/-! ## Levels -/

section Levels

variable {G : (ι → α) → ι → α} {cs : List ι}

/-- Whether `G` is at most `v` is told by which of the bounds are. -/
def Levelled (G : (ι → α) → ι → α) : Prop :=
  ∀ (v : α) (L L' : ι → α), (∀ r, L r ≤ v ↔ L' r ≤ v) → ∀ c, G L c ≤ v → G L' c ≤ v

/-- No member that `G` puts at or under `v` is above it. -/
def ClosedAt (G : (ι → α) → ι → α) (cs : List ι) (v : α) (L : ι → α) : Prop :=
  ∀ c ∈ cs, G L c ≤ v → L c ≤ v

theorem ClosedAt.of_level (hG : Levelled G) {v : α} {L L' : ι → α} (h : ClosedAt G cs v L)
    (hl : ∀ r, L r ≤ v ↔ L' r ≤ v) : ClosedAt G cs v L' := by
  intro c hc hle
  exact (hl c).mp (h c hc (hG v L' L (fun r => (hl r).symm) c hle))

end Levels

/-! ## A map that is lower at first -/

section Alike

variable {F G : (ι → α) → ι → α} {cs : List ι} {L : ι → α}

/-- `F` is `G`, there and below, or has its least value. -/
def Pins (F G : (ι → α) → ι → α) : Prop :=
  ∀ (L : ι → α) (c : ι),
    (∀ L' : ι → α, (∀ r, L' r ≤ L r) → F L' c = G L' c) ∨ ∀ L' : ι → α, F L c ≤ F L' c ∧ F L c ≤ G L' c

/-- From these bounds on, `F` and `G` lower the members alike. -/
def Alike (F G : (ι → α) → ι → α) (cs : List ι) (L : ι → α) : Prop :=
  ∀ L' : ι → α, (∀ r, L' r ≤ L r) → ∀ c ∈ cs, F L' c = G L' c ∨ (L c ≤ F L' c ∧ L c ≤ G L' c)

theorem Alike.mono {L' : ι → α} (h : Alike F G cs L) (hle : ∀ r, L' r ≤ L r) : Alike F G cs L' := by
  intro M hM c hc
  rcases h M (fun r => (hM r).trans (hle r)) c hc with heq | ⟨hF, hG⟩
  · exact Or.inl heq
  · exact Or.inr ⟨(hle c).trans hF, (hle c).trans hG⟩

end Alike

variable [DecidableEq ι]
variable {F G : (ι → α) → ι → α} {cs : List ι} {L M : ι → α} {p : (ι → α) × Bool}

/-! ## The passes -/

def relax (F : (ι → α) → ι → α) (p : (ι → α) × Bool) (c : ι) : (ι → α) × Bool :=
  if F p.1 c < p.1 c then (Function.update p.1 c (F p.1 c), true) else p

def pass (F : (ι → α) → ι → α) (cs : List ι) (L : ι → α) : (ι → α) × Bool :=
  cs.foldl (relax F) (L, false)

def solve (F : (ι → α) → ι → α) (cs : List ι) : Nat → (ι → α) → (ι → α)
  | 0, L => L
  | n + 1, L =>
    match pass F cs L with
    | (L', true) => solve F cs n L'
    | (L', false) => L'

theorem relax_le (c r : ι) : (relax F p c).1 r ≤ p.1 r := by
  unfold relax
  split
  next h =>
    by_cases hr : r = c
    · subst hr
      simpa using h.le
    · simp [hr]
  next => exact le_refl _

theorem relax_self_le (c : ι) : (relax F p c).1 c ≤ F p.1 c := by
  unfold relax
  split
  next h => simp
  next h => exact not_lt.mp h

theorem relax_of_ne {c r : ι} (hr : r ≠ c) : (relax F p c).1 r = p.1 r := by
  unfold relax
  split
  next => simp [hr]
  next => rfl

theorem foldl_relax_le (r : ι) : (cs.foldl (relax F) p).1 r ≤ p.1 r := by
  induction cs generalizing p with
  | nil => exact le_refl _
  | cons c cs ih => exact ih.trans (relax_le c r)

theorem foldl_relax_of_not_mem {r : ι} (hr : r ∉ cs) : (cs.foldl (relax F) p).1 r = p.1 r := by
  induction cs generalizing p with
  | nil => rfl
  | cons c cs ih =>
    rw [List.mem_cons, not_or] at hr
    exact (ih hr.2).trans (relax_of_ne hr.1)

/-- Each member is at most what `F` made of the bounds when its turn came. -/
theorem foldl_relax_turn {c : ι} (hc : c ∈ cs) :
    ∃ M : ι → α, (∀ r, (cs.foldl (relax F) p).1 r ≤ M r) ∧ (∀ r, M r ≤ p.1 r) ∧
      (cs.foldl (relax F) p).1 c ≤ F M c := by
  induction cs generalizing p with
  | nil => cases hc
  | cons d cs ih =>
    by_cases hd : c = d
    · subst hd
      have hrest : (cs.foldl (relax F) (relax F p c)).1 c ≤ (relax F p c).1 c := foldl_relax_le c
      exact ⟨p.1, fun r => foldl_relax_le r, fun r => le_refl _, hrest.trans (relax_self_le c)⟩
    · have hc' : c ∈ cs := (List.mem_cons.mp hc).resolve_left hd
      obtain ⟨M, hlo, hhi, hF⟩ := ih (p := relax F p d) hc'
      exact ⟨M, hlo, fun r => (hhi r).trans (relax_le d r), hF⟩

theorem foldl_relax_quiet (h : (cs.foldl (relax F) p).2 = false) :
    p.2 = false ∧ (cs.foldl (relax F) p).1 = p.1 ∧ ∀ c ∈ cs, p.1 c ≤ F p.1 c := by
  induction cs generalizing p with
  | nil => exact ⟨h, rfl, fun c hc => absurd hc List.not_mem_nil⟩
  | cons d cs ih =>
    obtain ⟨hp, heq, hle⟩ := ih (p := relax F p d) h
    -- the flag is never taken back, so this member was not lowered
    have hd : relax F p d = p := by
      unfold relax at hp ⊢
      split at hp
      next => cases hp
      next hn => rw [if_neg hn]
    have hself : p.1 d ≤ F p.1 d := by
      have := relax_self_le (F := F) (p := p) d
      rwa [hd] at this
    rw [hd] at hp hle
    refine ⟨hp, by rw [List.foldl_cons, heq, hd], ?_⟩
    intro c hc
    rcases List.mem_cons.mp hc with rfl | hc
    · exact hself
    · exact hle c hc

theorem solve_succ (n : Nat) :
    solve F cs (n + 1) L = if (pass F cs L).2 then solve F cs n (pass F cs L).1 else (pass F cs L).1 := by
  rw [solve]
  split
  next L' heq => simp [heq]
  next L' heq => simp [heq]

theorem solve_of_not_mem {r : ι} (hr : r ∉ cs) (n : Nat) : solve F cs n L r = L r := by
  induction n generalizing L with
  | zero => rfl
  | succ n ih =>
    have hp : (pass F cs L).1 r = L r := foldl_relax_of_not_mem hr
    rw [solve_succ]
    split
    next => rw [ih, hp]
    next => exact hp

/-- What every lowering keeps holds after the passes. -/
theorem solve_keeps {I : (ι → α) → Prop}
    (step : ∀ L, ∀ c ∈ cs, I L → F L c < L c → I (Function.update L c (F L c))) (n : Nat) (hL : I L) :
    I (solve F cs n L) := by
  have hpass : ∀ ds : List ι, (∀ d ∈ ds, d ∈ cs) → ∀ p : (ι → α) × Bool, I p.1 → I (ds.foldl (relax F) p).1 := by
    intro ds hds
    induction ds with
    | nil => exact fun _ hp => hp
    | cons d ds ih =>
      intro p hp
      refine ih (fun e he => hds e (List.mem_cons_of_mem d he)) _ ?_
      unfold relax
      split
      · next hlt => exact step p.1 d (hds d List.mem_cons_self) hp hlt
      · exact hp
  induction n generalizing L with
  | zero => exact hL
  | succ n ih =>
    have hnext := hpass cs (fun _ hd => hd) (L, false) hL
    rw [solve_succ]
    split
    · exact ih hnext
    · exact hnext

theorem solve_le_start (n : Nat) (r : ι) : solve F cs n L r ≤ L r := by
  refine solve_keeps (I := fun L' => L' r ≤ L r) (fun L' c _ hI hlt => ?_) n (le_refl _)
  by_cases hr : r = c
  · subst hr
    rw [Function.update_self]
    exact hlt.le.trans hI
  · rw [Function.update_of_ne hr]
    exact hI

/-- The first member is at most what `F` makes of the bounds it starts from. -/
theorem solve_head_le {c : ι} {ds : List ι} (hcs : cs = c :: ds) (n : Nat) : solve F cs (n + 1) L c ≤ F L c := by
  have hfirst : (pass F cs L).1 c ≤ F L c := by
    unfold pass
    rw [hcs, List.foldl_cons]
    exact (foldl_relax_le c).trans (relax_self_le c)
  rw [solve_succ]
  split
  · exact (solve_le_start n c).trans hfirst
  · exact hfirst

/-- Where no member is above what `F` makes of the bounds, a pass changes nothing. -/
theorem pass_of_le (h : ∀ c ∈ cs, L c ≤ F L c) : pass F cs L = (L, false) := by
  have hrest : ∀ ds : List ι, (∀ d ∈ ds, d ∈ cs) → ds.foldl (relax F) (L, false) = (L, false) := by
    intro ds hds
    induction ds with
    | nil => rfl
    | cons d ds ih =>
      have hd : relax F (L, false) d = (L, false) := if_neg (not_lt.mpr (h d (hds d List.mem_cons_self)))
      rw [List.foldl_cons, hd]
      exact ih fun e he => hds e (List.mem_cons_of_mem d he)
  exact hrest cs fun _ hd => hd

/-! ## A pass and a level -/

theorem ClosedAt.foldl_relax (hG : Levelled G) {ds : List ι} (hds : ∀ d ∈ ds, d ∈ cs) {v : α}
    (h : ClosedAt G cs v p.1) (r : ι) : p.1 r ≤ v ↔ (ds.foldl (relax G) p).1 r ≤ v := by
  induction ds generalizing p with
  | nil => exact Iff.rfl
  | cons d ds ih =>
    have hd : ∀ r, p.1 r ≤ v ↔ (relax G p d).1 r ≤ v := by
      intro r
      refine ⟨(relax_le d r).trans, fun hr => ?_⟩
      by_cases hrd : r = d
      · subst hrd
        unfold relax at hr
        split at hr
        next => exact h r (hds r List.mem_cons_self) (by simpa using hr)
        next => exact hr
      · rwa [relax_of_ne hrd] at hr
    exact (hd r).trans (ih (fun e he => hds e (List.mem_cons_of_mem d he)) (h.of_level hG hd))

theorem ClosedAt.solve (hG : Levelled G) {v : α} (h : ClosedAt G cs v L) (n : Nat) :
    ClosedAt G cs v (solve G cs n L) := by
  induction n generalizing L with
  | zero => exact h
  | succ n ih =>
    have hp : ClosedAt G cs v (pass G cs L).1 :=
      h.of_level hG fun r => ClosedAt.foldl_relax (p := (L, false)) hG (fun _ hd => hd) h r
    rw [solve_succ]
    split
    next => exact ih hp
    next => exact hp

theorem closedAt_pass (hG : Levelled G) {v : α} (h : ∀ c ∈ cs, (pass G cs L).1 c ≤ v → L c ≤ v) :
    ClosedAt G cs v (pass G cs L).1 := by
  intro c hc hle
  obtain ⟨M, hlo, hhi, hM⟩ := foldl_relax_turn (F := G) (p := (L, false)) hc
  have hlevel : ∀ r, (pass G cs L).1 r ≤ v ↔ M r ≤ v := by
    intro r
    constructor
    · intro hr
      by_cases hrc : r ∈ cs
      · exact (hhi r).trans (h r hrc hr)
      · have heq : (pass G cs L).1 r = L r := foldl_relax_of_not_mem hrc
        rw [heq] at hr
        exact (hhi r).trans hr
    · exact (hlo r).trans
  exact hM.trans (hG v _ M hlevel c hle)

theorem closedAt_solve (hG : Levelled G) {v : α} {n : Nat} (hn : cs.countP (fun c => v < L c) ≤ n) :
    ClosedAt G cs v (solve G cs n L) := by
  induction n generalizing L with
  | zero =>
    -- nothing is above the level
    intro c hc _
    have h0 : cs.countP (fun c => v < L c) = 0 := by omega
    have hle : L c ≤ v := by simpa using List.countP_eq_zero.mp h0 c hc
    exact hle
  | succ n ih =>
    rw [solve_succ]
    by_cases hgrow : ∀ c ∈ cs, (pass G cs L).1 c ≤ v → L c ≤ v
    · have hcl := closedAt_pass hG hgrow
      split
      next => exact hcl.solve hG n
      next => exact hcl
    · push Not at hgrow
      obtain ⟨c, hc, hnew, hold⟩ := hgrow
      have hlt : cs.countP (fun c => v < (pass G cs L).1 c) < cs.countP (fun c => v < L c) := by
        refine countP_lt_countP ?_ hc ?_ ?_
        · intro d _ hd
          have : (cs.foldl (relax G) (L, false)).1 d ≤ L d := foldl_relax_le d
          simp only [decide_eq_true_eq] at hd ⊢
          exact lt_of_lt_of_le hd this
        · simpa using hnew
        · simpa using hold
      split
      next => exact ih (by omega)
      next hq =>
        -- a pass that lowers somebody says so
        have hq' : (cs.foldl (relax G) (L, false)).2 = false := by simpa [pass] using hq
        have heq : (pass G cs L).1 = L := (foldl_relax_quiet hq').2.1
        rw [heq] at hnew
        exact absurd hnew (not_le.mpr hold)

/-! ## Both maps -/

theorem Alike.relax {c : ι} (h : Alike F G cs p.1) (hc : c ∈ cs) : relax F p c = relax G p c := by
  rcases h p.1 (fun _ => le_refl _) c hc with heq | ⟨hF, hG⟩
  · simp only [Pimid.relax, heq]
  · simp only [Pimid.relax, if_neg (not_lt.mpr hF), if_neg (not_lt.mpr hG)]

theorem Alike.foldl_relax {ds : List ι} (h : Alike F G cs p.1) (hds : ∀ d ∈ ds, d ∈ cs) :
    ds.foldl (Pimid.relax F) p = ds.foldl (Pimid.relax G) p := by
  induction ds generalizing p with
  | nil => rfl
  | cons d ds ih =>
    rw [List.foldl_cons, List.foldl_cons, h.relax (hds d List.mem_cons_self)]
    exact ih (h.mono fun r => relax_le d r) fun e he => hds e (List.mem_cons_of_mem d he)

theorem Alike.solve (h : Alike F G cs L) (n : Nat) : solve F cs n L = solve G cs n L := by
  induction n generalizing L with
  | zero => rfl
  | succ n ih =>
    have hp : pass F cs L = pass G cs L := Alike.foldl_relax (p := (L, false)) h fun _ hd => hd
    have hle : ∀ r, (pass G cs L).1 r ≤ L r := fun r => foldl_relax_le (p := (L, false)) r
    rw [solve_succ, solve_succ, hp, ih (h.mono hle)]

theorem alike_pass (h : Pins F G) : Alike F G cs (pass F cs L).1 := by
  intro L' hL' c hc
  obtain ⟨M, hlo, _, hM⟩ := foldl_relax_turn (F := F) (p := (L, false)) hc
  rcases h M c with heq | hpin
  · exact Or.inl (heq L' fun r => (hL' r).trans (hlo r))
  · exact Or.inr ⟨hM.trans (hpin L').1, hM.trans (hpin L').2⟩

/-- **With one pass more than there are members, every member ends at or under what `G`
makes of the bounds.** -/
theorem solve_le (hle : ∀ L c, F L c ≤ G L c) (hG : Levelled G) (hpin : Pins F G) {n : Nat}
    (hn : cs.length < n) {c : ι} (hc : c ∈ cs) : solve F cs n L c ≤ G (solve F cs n L) c := by
  obtain ⟨m, rfl⟩ : ∃ m, n = m + 1 := ⟨n - 1, by omega⟩
  rw [solve_succ]
  split
  next =>
    rw [(alike_pass hpin).solve m]
    refine closedAt_solve hG ?_ c hc (le_refl _)
    exact List.countP_le_length.trans (by omega)
  next hq =>
    have hq' : (cs.foldl (relax F) (L, false)).2 = false := by simpa [pass] using hq
    obtain ⟨_, heq, hquiet⟩ := foldl_relax_quiet hq'
    have heq' : (pass F cs L).1 = L := heq
    rw [heq']
    exact (hquiet c hc).trans (hle L c)

end Pimid
