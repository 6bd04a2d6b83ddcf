import Mathlib.Data.Set.Card
import Pimid.Lib.Probing

/-!
# The controller's counting table

`PlCount` counts 64-bit keys in an open-addressing table: linear probing, deletion by shifting back, and
doubling before more than half of the slots are in use. A slot with count 0 is free, whatever its key. The
hash is any function. Each loop gets as many steps as the table has slots; one that needs more gives
`none`.
-/

namespace Pimid.Ramulator

open Function (update update_eq_self update_of_ne update_self)

abbrev Key := BitVec 64

/-- `PlCount`, with `size` for `K.size()`. -/
structure PlCount where
  K : Nat → Key
  V : Nat → Nat
  size : Nat
  n : Nat
  mask : Nat

namespace PlCount

def init : PlCount := ⟨fun _ => 0, fun _ => 0, 0, 0, 0⟩

variable (h : Key → Key)

def home (t : PlCount) (k : Key) : Nat := (h k).toNat &&& t.mask

def next (t : PlCount) (j : Nat) : Nat := (j + 1) &&& t.mask

/-- `(x - j) & mask`. -/
def dist (t : PlCount) (j x : Nat) : Nat := (x + t.size - j) &&& t.mask

/-- `while (V[j] > 0) j = (j + 1) & mask;` -/
def freeFrom (t : PlCount) : Nat → Nat → Option Nat
  | 0, _ => none
  | fuel + 1, j => if 0 < t.V j then freeFrom t fuel (t.next j) else some j

/-- `while (V[j] > 0 && K[j] != k) j = (j + 1) & mask;` -/
def findFrom (t : PlCount) (k : Key) : Nat → Nat → Option Nat
  | 0, _ => none
  | fuel + 1, j => if 0 < t.V j ∧ t.K j ≠ k then findFrom t k fuel (t.next j) else some j

def find (t : PlCount) (k : Key) : Option Nat := t.findFrom k t.size (t.home h k)

/-- `K[j] = k; V[j] = v;` -/
def put (t : PlCount) (j : Nat) (k : Key) (v : Nat) : PlCount :=
  { t with K := update t.K j k, V := update t.V j v }

/-- A new key is put in a slot. -/
def putNew (t : PlCount) (j : Nat) (k : Key) (v : Nat) : PlCount := { t.put j k v with n := t.n + 1 }

/-- A table of free slots. -/
def assign (cap : Nat) : PlCount := ⟨fun _ => 0, fun _ => 0, cap, 0, cap - 1⟩

/-- Slot `i` of the old table gets its slot in this one. -/
def rehome (old t : PlCount) (i : Nat) : Option PlCount :=
  if 0 < old.V i then (t.freeFrom t.size (t.home h (old.K i))).map fun j => t.putNew j (old.K i) (old.V i)
  else some t

def grow (t : PlCount) : Option PlCount :=
  (List.range t.size).foldlM (rehome h t) (assign (if t.size = 0 then 64 else t.size * 2))

def get (t : PlCount) (k : Key) : Option Nat := if t.size = 0 then some 0 else (t.find h k).map t.V

/-- `inc` behind its growth. -/
def incAt (t : PlCount) (k : Key) : Option PlCount :=
  (t.find h k).map fun j => if 0 < t.V j then t.put j (t.K j) (t.V j + 1) else t.putNew j k 1

def inc (t : PlCount) (k : Key) : Option PlCount :=
  if t.size < (t.n + 1) * 2 then (t.grow h).bind fun t => t.incAt h k else t.incAt h k

/-- A slot is freed, its key stays. -/
def free (t : PlCount) (j : Nat) : PlCount := { t with V := update t.V j 0 }

/-- `K[i] = K[x]; V[i] = V[x]; V[x] = 0;` -/
def moveTo (t : PlCount) (i x : Nat) : PlCount := (t.put i (t.K x) (t.V x)).free x

/-- The loop behind a removal: `i` is the free slot, and `x` the slot looked at. -/
def shiftBack : Nat → PlCount → Nat → Nat → Option PlCount
  | 0, _, _, _ => none
  | fuel + 1, t, i, x =>
    if 0 < t.V x then
      if t.dist i x ≤ t.dist (t.home h (t.K x)) x then shiftBack fuel (t.moveTo i x) x (t.next x)
      else shiftBack fuel t i (t.next x)
    else some t

/-- `n--`, and slot `j` is free. -/
def emptySlot (t : PlCount) (j : Nat) : PlCount := { t.free j with n := t.n - 1 }

/-- A key's last count goes. -/
def remove (t : PlCount) (j : Nat) : Option PlCount := shiftBack h t.size (t.emptySlot j) j (t.next j)

def dec (t : PlCount) (k : Key) : Option PlCount :=
  if t.size = 0 then some t
  else
    (t.find h k).bind fun j =>
      if t.V j = 0 then some t
      else if 1 < t.V j then some (t.put j (t.K j) (t.V j - 1))
      else t.remove h j

/-! ## Runs -/

inductive Op where
  | inc (k : Key)
  | dec (k : Key)
  | get (k : Key)
  deriving DecidableEq, Repr

/-- An operation on the table; a look-up leaves it as it is. -/
def step (t : PlCount) : Op → Option PlCount
  | .inc k => t.inc h k
  | .dec k => t.dec h k
  | .get k => (t.get h k).map fun _ => t

def run (t : PlCount) (ops : List Op) : Option PlCount := ops.foldlM (step h) t

/-- The counts the table stands for. A `dec` at count 0 has no effect. -/
def counted (m : Key → Nat) : Op → Key → Nat
  | .inc k => update m k (m k + 1)
  | .dec k => update m k (m k - 1)
  | .get _ => m

def counts (ops : List Op) : Key → Nat := ops.foldl counted fun _ => 0

/-! ## The table is one of linear probing -/

variable {h : Key → Key} {t : PlCount} {k : Key} {j : Nat}

/-- A slot's key and its count. -/
def cell (t : PlCount) (j : Nat) : Option (Key × Nat) := if t.V j = 0 then none else some (t.K j, t.V j)

theorem cell_none : t.cell j = none ↔ t.V j = 0 := by
  unfold cell
  split
  next hz => exact ⟨fun _ => hz, fun _ => rfl⟩
  next hz => exact ⟨(fun hc => nomatch hc), fun hz' => absurd hz' hz⟩

theorem cell_some (hj : 0 < t.V j) : t.cell j = some (t.K j, t.V j) := if_neg (Nat.ne_of_gt hj)

theorem of_cell {v : Nat} (hj : t.cell j = some (k, v)) : t.K j = k ∧ t.V j = v ∧ 0 < v := by
  unfold cell at hj
  split at hj
  next => cases hj
  next hz =>
    obtain ⟨rfl, rfl⟩ := Prod.mk.inj (Option.some.inj hj)
    exact ⟨rfl, rfl, Nat.pos_of_ne_zero hz⟩

theorem cell_put {v : Nat} (hv : 0 < v) : (t.put j k v).cell = update t.cell j (some (k, v)) := by
  funext s
  unfold cell put
  dsimp only
  by_cases hs : s = j
  · subst hs
    simp only [update_self, if_neg (Nat.ne_of_gt hv)]
  · simp only [update_of_ne hs]

theorem cell_free : (t.free j).cell = update t.cell j none := by
  funext s
  unfold cell free
  dsimp only
  by_cases hs : s = j
  · subst hs
    simp only [update_self, if_true]
  · simp only [update_of_ne hs]

/-- The slots are a power of two, and a key is found on its way from its home. -/
structure Table (h : Key → Key) (t : PlCount) : Prop where
  pow : ∃ e, t.size = 2 ^ e
  mask : t.mask = t.size - 1
  probed : Probed t.size (t.home h) t.cell
  used : t.n = (occupied t.size t.cell).card

theorem and_mask (hpow : ∃ e, t.size = 2 ^ e) (hmask : t.mask = t.size - 1) (x : Nat) : x &&& t.mask = x % t.size := by
  obtain ⟨e, he⟩ := hpow
  rw [hmask, he, Nat.and_two_pow_sub_one_eq_mod]

namespace Table

theorem next_eq (ht : Table h t) (s : Nat) : t.next s = nextSlot t.size s := and_mask ht.pow ht.mask _

theorem size_pos (ht : Table h t) : 0 < t.size := by
  obtain ⟨e, he⟩ := ht.pow
  rw [he]
  exact Nat.two_pow_pos e

theorem freeFrom_eq (ht : Table h t) (fuel s : Nat) :
    t.freeFrom fuel s = probe t.size (fun s => decide (t.V s = 0)) fuel s := by
  induction fuel generalizing s with
  | zero => rfl
  | succ fuel ih =>
    unfold freeFrom probe
    rw [ht.next_eq, ih]
    by_cases hv : t.V s = 0
    · rw [if_neg (by omega), if_pos (decide_eq_true hv)]
    · rw [if_pos (by omega), if_neg (by simpa using hv)]

theorem findFrom_eq (ht : Table h t) (fuel s : Nat) :
    t.findFrom k fuel s = probe t.size (fun s => decide (t.V s = 0 ∨ t.K s = k)) fuel s := by
  induction fuel generalizing s with
  | zero => rfl
  | succ fuel ih =>
    unfold findFrom probe
    rw [ht.next_eq, ih]
    by_cases hv : t.V s = 0 ∨ t.K s = k
    · rw [if_neg (fun hgo => hv.elim (Nat.ne_of_gt hgo.1) hgo.2), if_pos (decide_eq_true hv)]
    · rw [if_pos ⟨Nat.pos_of_ne_zero fun hz => hv (Or.inl hz), fun hk => hv (Or.inr hk)⟩, if_neg (by simpa using hv)]

/-- With a slot free the loop gets to the first one. -/
theorem freeFrom_spec (ht : Table h t) (hroom : t.n < t.size) {s : Nat} (hs : s < t.size) :
    ∃ j < t.size, t.freeFrom t.size s = some j ∧ t.cell j = none ∧
      ∀ p < t.size, rel t.size s p < rel t.size s j → t.cell p ≠ none := by
  obtain ⟨e, he, hfree⟩ := exists_free (ht.used ▸ hroom)
  obtain ⟨j, hj, hprobe, hstop, hfirst⟩ := @probe_spec _ _ _ (fun s => decide (t.V s = 0)) hs he
    (decide_eq_true (cell_none.mp hfree)) _ (rel_lt s e ht.size_pos)
  refine ⟨j, hj, (ht.freeFrom_eq _ _).trans hprobe, cell_none.mpr (of_decide_eq_true hstop), fun p hp hlt hnone => ?_⟩
  exact of_decide_eq_false (hfirst p hp hlt) (cell_none.mp hnone)

/-- With a slot free a key is found in its slot, or at the first free slot from its home. -/
theorem find_spec (ht : Table h t) (hroom : t.n < t.size) (k : Key) :
    ∃ j < t.size, t.find h k = some j ∧
      (t.cell j = none → (∀ v, ¬ Stored t.size t.cell k v) ∧
        ∀ p < t.size, rel t.size (t.home h k) p < rel t.size (t.home h k) j → t.cell p ≠ none) ∧
      (0 < t.V j → t.cell j = some (k, t.V j)) := by
  obtain ⟨e, he, hfree⟩ := exists_free (ht.used ▸ hroom)
  obtain ⟨j, hj, hprobe, hstop, hfirst⟩ := @probe_spec _ _ _ (fun s => decide (t.V s = 0 ∨ t.K s = k))
    (ht.probed.home_lt k) he (decide_eq_true (Or.inl (cell_none.mp hfree))) _ (rel_lt _ e ht.size_pos)
  refine ⟨j, hj, (ht.findFrom_eq _ _).trans hprobe, fun hnone => ⟨fun v => ?_, fun p hp hlt hp' => ?_⟩, fun hv => ?_⟩
  · refine ht.probed.absent hj hnone (fun p hp hlt w hp' => ?_) v
    exact of_decide_eq_false (hfirst p hp hlt) (Or.inr (of_cell hp').1)
  · exact of_decide_eq_false (hfirst p hp hlt) (Or.inl (cell_none.mp hp'))
  · rw [cell_some hv, (of_decide_eq_true hstop).resolve_left (Nat.ne_of_gt hv)]

/-! ## Growing -/

theorem putNew (ht : Table h t) {v : Nat} (hv : 0 < v) (hj : j < t.size) (hfree : t.cell j = none)
    (hfirst : ∀ p < t.size, rel t.size (t.home h k) p < rel t.size (t.home h k) j → t.cell p ≠ none)
    (habs : ∀ v, ¬ Stored t.size t.cell k v) :
    Table h (t.putNew j k v) ∧
      ∀ k' v', Stored t.size (t.putNew j k v).cell k' v' ↔ if k' = k then v' = v else Stored t.size t.cell k' v' := by
  have hcell : (t.putNew j k v).cell = update t.cell j (some (k, v)) := cell_put hv
  refine ⟨⟨ht.pow, ht.mask, ?_, ?_⟩, fun k' v' => ?_⟩
  · rw [hcell]
    exact ht.probed.insert hj hfree hfirst habs
  · change t.n + 1 = (occupied t.size (t.putNew j k v).cell).card
    rw [hcell, occupied_insert hj, Finset.card_insert_of_notMem (fun hm => (mem_occupied.mp hm).2 hfree), ht.used]
  · rw [hcell]
    exact stored_insert hj hfree habs

end Table

theorem table_assign {cap : Nat} (hcap : ∃ e, cap = 2 ^ e) : Table h (assign cap) := by
  have hcell : (assign cap).cell = fun _ => none := rfl
  refine ⟨hcap, rfl, ?_, ?_⟩
  · rw [hcell]
    refine ⟨fun k => ?_, (fun _ hc => nomatch hc), (fun _ _ hc => nomatch hc)⟩
    have hpos : 0 < cap := by
      obtain ⟨e, rfl⟩ := hcap
      exact Nat.two_pow_pos e
    exact Nat.lt_of_le_of_lt Nat.and_le_right (Nat.sub_lt hpos Nat.one_pos)
  · rw [hcell]
    unfold occupied
    simp [assign]

/-- The keys of the first `m` slots have their slots in the new table. -/
structure Rehomed (h : Key → Key) (old : PlCount) (m : Nat) (t : PlCount) : Prop extends Table h t where
  n_eq : t.n = (occupied m old.cell).card
  stored : ∀ k v, Stored t.size t.cell k v ↔ Stored m old.cell k v

theorem card_occupied_le (m : Nat) (cell : Nat → Option (Key × Nat)) : (occupied m cell).card ≤ m := by
  have hle := Finset.card_filter_le (Finset.range m) fun s => (cell s).isSome
  rw [Finset.card_range] at hle
  exact hle

theorem occupied_succ (m : Nat) (cell : Nat → Option (Key × Nat)) :
    occupied (m + 1) cell = if (cell m).isSome then insert m (occupied m cell) else occupied m cell := by
  unfold occupied
  rw [Finset.range_add_one, Finset.filter_insert]

theorem Rehomed.step {old : PlCount} {m : Nat} (ht : Rehomed h old m t) (hold : Table h old) (hm : m < old.size)
    (hsize : m < t.size) : ∃ t', rehome h old t m = some t' ∧ t'.size = t.size ∧ Rehomed h old (m + 1) t' := by
  unfold rehome
  by_cases hv : 0 < old.V m
  · rw [if_pos hv]
    have hcell := cell_some hv
    have habs : ∀ v, ¬ Stored t.size t.cell (old.K m) v := by
      intro v hstored
      obtain ⟨s, hs, hc⟩ := (ht.stored _ _).mp hstored
      exact absurd (hold.probed.one (Nat.lt_trans hs hm) hm hc hcell) (Nat.ne_of_lt hs)
    have hroom : t.n < t.size := by
      have hle := card_occupied_le m old.cell
      rw [ht.n_eq]
      omega
    obtain ⟨j, hj, hto, hfree, hfirst⟩ := ht.freeFrom_spec hroom (ht.probed.home_lt (old.K m))
    obtain ⟨htable, hstored⟩ := ht.putNew hv hj hfree hfirst habs
    rw [hto]
    refine ⟨_, rfl, rfl, htable, ?_, fun k v => ?_⟩
    · have hnot : m ∉ occupied m old.cell := fun hin => Nat.lt_irrefl m (mem_occupied.mp hin).1
      rw [occupied_succ, hcell, if_pos Option.isSome_some, Finset.card_insert_of_notMem hnot, ← ht.n_eq]
      rfl
    · refine (hstored k v).trans ?_
      constructor
      · intro hk
        split at hk
        next he => exact ⟨m, Nat.lt_succ_self m, by rw [hcell, he, hk]⟩
        next =>
          obtain ⟨s, hs, hc⟩ := (ht.stored k v).mp hk
          exact ⟨s, Nat.lt_succ_of_lt hs, hc⟩
      · rintro ⟨s, hs, hc⟩
        by_cases hsm : s = m
        · rw [hsm, hcell] at hc
          obtain ⟨hk, hv'⟩ := Prod.mk.inj (Option.some.inj hc)
          rw [if_pos hk.symm, hv']
        · have hne : k ≠ old.K m := by
            rintro rfl
            exact hsm (hold.probed.one (by omega) hm hc hcell)
          rw [if_neg hne]
          exact (ht.stored k v).mpr ⟨s, by omega, hc⟩
  · rw [if_neg hv]
    have hcell : old.cell m = none := cell_none.mpr (by omega)
    refine ⟨t, rfl, rfl, ht.toTable, ?_, fun k v => (ht.stored k v).trans ?_⟩
    · rw [occupied_succ, hcell]
      exact ht.n_eq
    · constructor
      · rintro ⟨s, hs, hc⟩
        exact ⟨s, Nat.lt_succ_of_lt hs, hc⟩
      · rintro ⟨s, hs, hc⟩
        have hsm : s ≠ m := by
          rintro rfl
          rw [hcell] at hc
          cases hc
        exact ⟨s, by omega, hc⟩

/-- **Growing** keeps every key and its count. -/
theorem Table.grow (ht : Table h t) :
    ∃ t', t.grow h = some t' ∧ Table h t' ∧ t'.size = t.size * 2 ∧ t'.n = t.n ∧
      ∀ k v, Stored t'.size t'.cell k v ↔ Stored t.size t.cell k v := by
  have hpos := ht.size_pos
  have hpow : ∃ e, t.size * 2 = 2 ^ e := by
    obtain ⟨e, he⟩ := ht.pow
    exact ⟨e + 1, by rw [he, Nat.pow_succ]⟩
  have hfold (m : Nat) (hm : m ≤ t.size) :
      ∃ t', (List.range m).foldlM (rehome h t) (assign (t.size * 2)) = some t' ∧ t'.size = t.size * 2 ∧
        Rehomed h t m t' := by
    induction m with
    | zero =>
      refine ⟨_, rfl, rfl, table_assign hpow, rfl, fun k v => ?_⟩
      constructor
      · rintro ⟨_, _, hc⟩
        cases hc
      · rintro ⟨s, hs, _⟩
        exact absurd hs (Nat.not_lt_zero s)
    | succ m ih =>
      obtain ⟨t', hrun, hsize, hrehomed⟩ := ih (by omega)
      obtain ⟨t'', hstep, hsize', hrehomed'⟩ := hrehomed.step ht hm (by omega)
      refine ⟨t'', ?_, hsize'.trans hsize, hrehomed'⟩
      rw [List.range_succ, List.foldlM_append, hrun]
      simp only [Option.bind_eq_bind, Option.bind_some, List.foldlM_cons, List.foldlM_nil, hstep, Option.pure_def]
  obtain ⟨t', hrun, hsize, hrehomed⟩ := hfold t.size (Nat.le_refl _)
  unfold PlCount.grow
  rw [if_neg (Nat.ne_of_gt hpos)]
  exact ⟨t', hrun, hrehomed.toTable, hsize, hrehomed.n_eq.trans ht.used.symm, hrehomed.stored⟩

/-! ## A removal -/

/-- What the loop keeps: the size, and what is stored. -/
structure Shifted (t t' : PlCount) : Prop where
  size : t'.size = t.size
  mask : t'.mask = t.mask
  n : t'.n = t.n
  stored : ∀ k v, Stored t.size t'.cell k v ↔ Stored t.size t.cell k v
  card : (occupied t.size t'.cell).card = (occupied t.size t.cell).card

theorem Shifted.refl (t : PlCount) : Shifted t t := ⟨rfl, rfl, rfl, fun _ _ => Iff.rfl, rfl⟩

theorem Shifted.trans {t' t'' : PlCount} (h₁ : Shifted t t') (h₂ : Shifted t' t'') : Shifted t t'' := by
  obtain ⟨hsize, hmask, hn, hstored, hcard⟩ := h₂
  rw [h₁.size] at hstored hcard
  exact ⟨hsize.trans h₁.size, hmask.trans h₁.mask, hn.trans h₁.n, fun k v => (hstored k v).trans (h₁.stored k v),
    hcard.trans h₁.card⟩

/-- A key whose home is as far as the hole, or farther, may move there. -/
theorem moves_iff {n i x k : Nat} (hi : i < n) (hx : x < n) (hk : k < n) :
    rel n i x ≤ rel n k x ↔ ¬ (0 < rel n i k ∧ rel n i k ≤ rel n i x) := by
  rw [rel_eq hi hx, rel_eq hk hx, rel_eq hi hk]
  split_ifs <;> omega

/-- The loop ends at the first free slot after the removed one, and every key is found again. -/
theorem shiftBack_spec {i e : Nat} (hpow : ∃ e, t.size = 2 ^ e) (hmask : t.mask = t.size - 1) (fuel : Nat)
    (hi : i < t.size) (hj : j < t.size) (he : e < t.size) (hfree : t.cell e = none)
    (hholed : Holed t.size (t.home h) t.cell i j) (hbefore : rel t.size i j < rel t.size i e)
    (hfuel : rel t.size j e ≤ fuel) :
    ∃ t', shiftBack h fuel t i (nextSlot t.size j) = some t' ∧ Shifted t t' ∧ Probed t.size (t.home h) t'.cell := by
  induction fuel generalizing t i j with
  | zero =>
    have hje : e = j := (rel_eq_zero hj he).mp (Nat.le_zero.mp hfuel)
    rw [hje] at hbefore
    exact absurd hbefore (Nat.lt_irrefl _)
  | succ fuel ih =>
    have hne := nextSlot_ne hi hj he hbefore
    have hje : j ≠ e := fun heq => by
      rw [heq] at hbefore
      exact Nat.lt_irrefl _ hbefore
    have hq := nextSlot_lt hj
    have hnear := nextSlot_rel hj he hje
    have hrel := rel_nextSlot hi hj hne
    have hnext : t.next (nextSlot t.size j) = nextSlot t.size (nextSlot t.size j) := and_mask hpow hmask _
    have hdist (a x : Nat) : t.dist a x = rel t.size a x := and_mask hpow hmask _
    unfold shiftBack
    rw [hnext, hdist, hdist]
    by_cases hv : 0 < t.V (nextSlot t.size j)
    · rw [if_pos hv]
      have hcell := cell_some hv
      have hqe : nextSlot t.size j ≠ e := fun heq => by
        rw [heq, hfree] at hcell
        cases hcell
      have hmoves := moves_iff hi hq (hholed.home_lt (t.K (nextSlot t.size j)))
      by_cases hmove : rel t.size i (nextSlot t.size j) ≤ rel t.size (t.home h (t.K (nextSlot t.size j))) (nextSlot t.size j)
      · rw [if_pos hmove]
        have hmoved := hholed.move hi hj hne hcell (hmoves.mp hmove)
        have hstored (k : Key) (v : Nat) := stored_move hi hq hholed.hole hcell hne k v
        have hcard := occupied_move hi hq hholed.hole hcell
        have hcell' : (t.moveTo i (nextSlot t.size j)).cell = update (update t.cell i
            (some (t.K (nextSlot t.size j), t.V (nextSlot t.size j)))) (nextSlot t.size j) none := by
          unfold moveTo
          rw [cell_free, cell_put hv]
        rw [← hcell'] at hmoved hcard
        simp only [← hcell'] at hstored
        have hei : e ≠ i := fun heq => by
          rw [heq, rel_self hi] at hbefore
          exact Nat.not_lt_zero _ hbefore
        have hfree' : (t.moveTo i (nextSlot t.size j)).cell e = none := by
          rw [hcell', update_of_ne hqe.symm, update_of_ne hei]
          exact hfree
        generalize nextSlot t.size j = q at *
        have hbefore' : rel t.size q q < rel t.size q e := by
          rw [rel_self hq]
          exact Nat.pos_of_ne_zero fun hz => hqe ((rel_eq_zero hq he).mp hz).symm
        obtain ⟨t', hrun, hshifted, hprobed⟩ := @ih (t.moveTo i q) q q hpow hmask hq hq he hfree' hmoved hbefore'
          (show rel t.size q e ≤ fuel by omega)
        have hmid : Shifted t (t.moveTo i q) := ⟨rfl, rfl, rfl, hstored, hcard⟩
        exact ⟨t', hrun, hmid.trans hshifted, hprobed⟩
      · rw [if_neg hmove]
        have hstay : 0 < rel t.size i (t.home h (t.K (nextSlot t.size j))) ∧
            rel t.size i (t.home h (t.K (nextSlot t.size j))) ≤ rel t.size i (nextSlot t.size j) := by
          by_contra hno
          exact hmove (hmoves.mpr hno)
        refine ih hpow hmask hi hq he hfree (hholed.stay hi hj hne hcell hstay.1 hstay.2) ?_ (by omega)
        exact Nat.lt_of_le_of_ne (by omega) fun heq => hqe (rel_inj hi hq he heq)
    · rw [if_neg hv]
      exact ⟨t, rfl, Shifted.refl t, hholed.stop hi hj hne (cell_none.mpr (by omega))⟩

/-- **A key's last count goes**, and every other key stays. -/
theorem Table.remove (ht : Table h t) (hroom : t.n < t.size) (hj : j < t.size) {v : Nat} (hcell : t.cell j = some (k, v)) :
    ∃ t', t.remove h j = some t' ∧ Table h t' ∧ t'.size = t.size ∧ t'.n + 1 = t.n ∧
      ∀ k' v', Stored t.size t'.cell k' v' ↔ k' ≠ k ∧ Stored t.size t.cell k' v' := by
  obtain ⟨e, he, hfree⟩ := exists_free (ht.used ▸ hroom)
  have hej : e ≠ j := fun heq => by
    rw [heq, hcell] at hfree
    cases hfree
  have hcellFree : (t.emptySlot j).cell = update t.cell j none := cell_free
  have hholed := ht.probed.punch hj
  rw [← hcellFree] at hholed
  have hfree' : (t.emptySlot j).cell e = none := by
    rw [hcellFree, update_of_ne hej]
    exact hfree
  have hbefore : rel t.size j j < rel t.size j e := by
    rw [rel_self hj]
    exact Nat.pos_of_ne_zero fun hz => hej ((rel_eq_zero hj he).mp hz)
  obtain ⟨t', hrun, hshifted, hprobed⟩ := shiftBack_spec (t := t.emptySlot j) ht.pow ht.mask t.size hj hj he
    hfree' hholed hbefore (rel_lt j e ht.size_pos).le
  have hin : j ∈ occupied t.size t.cell := mem_occupied.mpr ⟨hj, by rw [hcell]; exact Option.some_ne_none _⟩
  have hpos : 0 < t.n := by
    rw [ht.used]
    exact Finset.card_pos.mpr ⟨j, hin⟩
  have hn : t'.n = t.n - 1 := hshifted.n
  have hcard : (occupied t.size t'.cell).card = t.n - 1 := by
    have hsame : (occupied t.size t'.cell).card = (occupied t.size (t.emptySlot j).cell).card := hshifted.card
    rw [hcellFree, occupied_erase, Finset.card_erase_of_mem hin, ← ht.used] at hsame
    exact hsame
  have hstored := hshifted.stored
  rw [hcellFree] at hstored
  have hnext : t.next j = nextSlot t.size j := ht.next_eq j
  have hsize : t'.size = t.size := hshifted.size
  have hmask : t'.mask = t.mask := hshifted.mask
  have hhome : t'.home h = t.home h := by
    unfold home
    rw [hmask]
  refine ⟨t', ?_, ⟨hsize ▸ ht.pow, ?_, ?_, ?_⟩, hsize, by omega, fun k' v' => (hstored k' v').trans (stored_erase ht.probed hj hcell)⟩
  · unfold PlCount.remove
    rw [hnext]
    exact hrun
  · rw [hmask, ht.mask, hsize]
  · rw [hsize, hhome]
    exact hprobed
  · rw [hsize, hcard, hn]

/-! ## The table is a multiset -/

/-- The table counts `m`: a key with a positive count is in a slot with it, and half of the slots are free. -/
structure Counts (h : Key → Key) (t : PlCount) (m : Key → Nat) : Prop where
  table : t.size ≠ 0 → Table h t
  unused : t.size = 0 → t.n = 0
  half : 2 * t.n ≤ t.size
  stored : ∀ k v, Stored t.size t.cell k v ↔ m k = v ∧ 0 < v

variable {m : Key → Nat}

theorem counts_init : Counts h init fun _ => 0 := by
  refine ⟨fun hne => absurd rfl hne, fun _ => rfl, Nat.le_refl _, fun k v => ?_⟩
  constructor
  · rintro ⟨s, hs, _⟩
    exact absurd hs (Nat.not_lt_zero s)
  · rintro ⟨hz, hv⟩
    exact absurd (hz ▸ hv) (Nat.lt_irrefl 0)

theorem Counts.zero (hc : Counts h t m) (hz : t.size = 0) (k : Key) : m k = 0 := by
  by_contra hne
  obtain ⟨s, hs, -⟩ := (hc.stored k (m k)).mpr ⟨rfl, Nat.pos_of_ne_zero hne⟩
  rw [hz] at hs
  exact absurd hs (Nat.not_lt_zero s)

theorem Counts.find (hc : Counts h t m) (hne : t.size ≠ 0) (hroom : t.n < t.size) (k : Key) :
    ∃ j < t.size, t.find h k = some j ∧ t.V j = m k ∧ (0 < m k → t.cell j = some (k, m k)) ∧
      (m k = 0 → t.cell j = none ∧ (∀ v, ¬ Stored t.size t.cell k v) ∧
        ∀ p < t.size, rel t.size (t.home h k) p < rel t.size (t.home h k) j → t.cell p ≠ none) := by
  obtain ⟨j, hj, hfind, hfree, htaken⟩ := (hc.table hne).find_spec hroom k
  have hvalue : t.V j = m k := by
    rcases Nat.eq_zero_or_pos (t.V j) with hz | hv
    · have hnone := (hfree (cell_none.mpr hz)).1
      by_contra hdiff
      exact hnone (m k) ((hc.stored k (m k)).mpr ⟨rfl, by omega⟩)
    · exact ((hc.stored k (t.V j)).mp ⟨j, hj, htaken hv⟩).1.symm
  refine ⟨j, hj, hfind, hvalue, fun hpos => ?_, fun hz => ?_⟩
  · rw [← hvalue] at hpos ⊢
    exact htaken hpos
  · have hnone := cell_none.mpr (hvalue.trans hz)
    exact ⟨hnone, hfree hnone⟩

theorem Counts.room (hc : Counts h t m) (hne : t.size ≠ 0) : t.n < t.size := by
  have := hc.half
  omega

/-- **A look-up** returns the count. -/
theorem Counts.get (hc : Counts h t m) (k : Key) : t.get h k = some (m k) := by
  unfold PlCount.get
  by_cases hz : t.size = 0
  · rw [if_pos hz, hc.zero hz]
  · obtain ⟨j, -, hfind, hvalue, -⟩ := hc.find hz (hc.room hz) k
    rw [if_neg hz, hfind, Option.map_some, hvalue]

/-- Another count is put to a key that has one. -/
theorem Counts.put (hc : Counts h t m) (hne : t.size ≠ 0) {j v : Nat} {k : Key} (hj : j < t.size)
    (hcell : t.cell j = some (k, m k)) (hv : 0 < v) : Counts h (t.put j (t.K j) v) (update m k v) := by
  have ht := hc.table hne
  have hcell' : (t.put j (t.K j) v).cell = update t.cell j (some (k, v)) := by
    rw [cell_put hv, (of_cell hcell).1]
  have hin : j ∈ occupied t.size t.cell := mem_occupied.mpr ⟨hj, by rw [hcell]; exact Option.some_ne_none _⟩
  refine ⟨fun _ => ⟨ht.pow, ht.mask, ?_, ?_⟩, fun hz' => absurd hz' hne, hc.half, fun k' v' => ?_⟩
  · rw [hcell']
    exact ht.probed.store hcell
  · change t.n = (occupied t.size (t.put j (t.K j) v).cell).card
    rw [hcell', occupied_insert hj, Finset.insert_eq_of_mem hin, ht.used]
  · change Stored t.size (t.put j (t.K j) v).cell k' v' ↔ _
    rw [hcell', stored_store ht.probed hj hcell]
    by_cases hk : k' = k
    · rw [if_pos hk, hk, update_self]
      omega
    · rw [if_neg hk, update_of_ne hk]
      exact hc.stored k' v'

/-- A key is counted once more where there is room for one more. -/
theorem Counts.incAt (hc : Counts h t m) (hne : t.size ≠ 0) (hroom : 2 * (t.n + 1) ≤ t.size) (k : Key) :
    ∃ t', t.incAt h k = some t' ∧ Counts h t' (update m k (m k + 1)) := by
  have ht := hc.table hne
  obtain ⟨j, hj, hfind, hvalue, htaken, hfree⟩ := hc.find hne (by omega) k
  unfold PlCount.incAt
  rw [hfind, Option.map_some]
  rcases Nat.eq_zero_or_pos (m k) with hz | hpos
  · rw [if_neg (by omega)]
    obtain ⟨hnone, habs, hfirst⟩ := hfree hz
    obtain ⟨htable, hstored⟩ := ht.putNew Nat.one_pos hj hnone hfirst habs
    refine ⟨_, rfl, fun _ => htable, fun hz' => absurd hz' hne, by rw [Nat.mul_add] at hroom; exact hroom, fun k' v' => ?_⟩
    refine (hstored k' v').trans ?_
    by_cases hk : k' = k
    · rw [if_pos hk, hk, update_self, hz]
      omega
    · rw [if_neg hk, update_of_ne hk]
      exact hc.stored k' v'
  · rw [if_pos (by omega), hvalue]
    exact ⟨_, rfl, hc.put hne hj (htaken hpos) (Nat.succ_pos _)⟩

/-- **One more** of a key. -/
theorem Counts.inc (hc : Counts h t m) (k : Key) :
    ∃ t', t.inc h k = some t' ∧ Counts h t' (update m k (m k + 1)) := by
  unfold PlCount.inc
  by_cases hfull : t.size < (t.n + 1) * 2
  · rw [if_pos hfull]
    by_cases hz : t.size = 0
    · have hgrow : t.grow h = some (assign 64) := by
        unfold PlCount.grow
        rw [if_pos hz, hz]
        rfl
      have hfresh : Counts h (assign 64) m := by
        refine ⟨fun _ => table_assign ⟨6, rfl⟩, (fun hz' => nomatch hz'), Nat.zero_le _, fun k' v' => ?_⟩
        rw [hc.zero hz]
        constructor
        · rintro ⟨_, _, hcell⟩
          cases hcell
        · rintro ⟨rfl, hv⟩
          exact absurd hv (Nat.lt_irrefl 0)
      rw [hgrow, Option.bind_some]
      exact hfresh.incAt (by decide) (by decide) k
    · obtain ⟨t', hgrow, htable, hsize, hn, hstored⟩ := (hc.table hz).grow
      have hhalf := hc.half
      have hgrown : Counts h t' m := by
        refine ⟨fun _ => htable, fun hz' => by omega, by omega, fun k' v' => ?_⟩
        exact (hstored k' v').trans (hc.stored k' v')
      rw [hgrow, Option.bind_some]
      exact hgrown.incAt (by omega) (by omega) k
  · rw [if_neg hfull]
    exact hc.incAt (by omega) (by omega) k

/-- **One less** of a key, if it has one. -/
theorem Counts.dec (hc : Counts h t m) (k : Key) :
    ∃ t', t.dec h k = some t' ∧ Counts h t' (update m k (m k - 1)) := by
  have hnone (hz : m k = 0) : update m k (m k - 1) = m := by
    rw [hz, Nat.zero_sub, ← hz, update_eq_self]
  unfold PlCount.dec
  by_cases hne : t.size = 0
  · rw [if_pos hne]
    exact ⟨t, rfl, by rw [hnone (hc.zero hne k)]; exact hc⟩
  · rw [if_neg hne]
    have ht := hc.table hne
    obtain ⟨j, hj, hfind, hvalue, htaken, -⟩ := hc.find hne (hc.room hne) k
    rw [hfind, Option.bind_some]
    by_cases hz : t.V j = 0
    · rw [if_pos hz]
      exact ⟨t, rfl, by rw [hnone (hvalue.symm.trans hz)]; exact hc⟩
    · rw [if_neg hz]
      have hcell := htaken (by omega)
      by_cases hmany : 1 < t.V j
      · rw [if_pos hmany, hvalue]
        exact ⟨_, rfl, hc.put hne hj hcell (by omega)⟩
      · rw [if_neg hmany]
        obtain ⟨t', hremove, htable, hsize, hn, hstored⟩ := ht.remove (hc.room hne) hj hcell
        have hhalf := hc.half
        refine ⟨t', hremove, fun _ => htable, fun hz' => absurd (hsize.symm.trans hz') hne, by omega, fun k' v' => ?_⟩
        rw [hsize, hstored, hc.stored]
        by_cases hk : k' = k
        · rw [hk, update_self]
          exact iff_of_false (fun hs => hs.1 rfl) fun hs => by omega
        · rw [update_of_ne hk]
          exact ⟨And.right, fun hs => ⟨hk, hs⟩⟩

/-- Every operation returns, and the table goes on counting. -/
theorem Counts.step (hc : Counts h t m) (op : Op) : ∃ t', t.step h op = some t' ∧ Counts h t' (counted m op) := by
  cases op with
  | inc k => exact hc.inc k
  | dec k => exact hc.dec k
  | get k =>
    refine ⟨t, ?_, hc⟩
    change (t.get h k).map (fun _ => t) = some t
    rw [hc.get k, Option.map_some]

theorem Counts.run (hc : Counts h t m) (ops : List Op) :
    ∃ t', t.run h ops = some t' ∧ Counts h t' (ops.foldl counted m) := by
  induction ops generalizing t m with
  | nil => exact ⟨t, rfl, hc⟩
  | cons op ops ih =>
    obtain ⟨t', hstep, hc'⟩ := hc.step op
    obtain ⟨t'', hrun, hc''⟩ := ih hc'
    refine ⟨t'', ?_, hc''⟩
    unfold PlCount.run
    rw [List.foldlM_cons, hstep]
    exact hrun

theorem Counts.n_eq (hc : Counts h t m) : t.n = Set.ncard {k | 0 < m k} := by
  by_cases hz : t.size = 0
  · have hempty : {k | 0 < m k} = ∅ := by
      refine Set.eq_empty_iff_forall_notMem.mpr fun k hk => ?_
      rw [Set.mem_ofPred_eq, hc.zero hz k] at hk
      exact Nat.lt_irrefl 0 hk
    rw [hc.unused hz, hempty, Set.ncard_empty]
  · have ht := hc.table hz
    have hkey {s : Nat} (hs : s ∈ occupied t.size t.cell) : s < t.size ∧ t.cell s = some (t.K s, t.V s) := by
      obtain ⟨hlt, hsome⟩ := mem_occupied.mp hs
      exact ⟨hlt, cell_some (Nat.pos_of_ne_zero fun hz => hsome (cell_none.mpr hz))⟩
    have hkeys : ((occupied t.size t.cell).image t.K : Set Key) = {k | 0 < m k} := by
      ext k
      rw [Finset.mem_coe, Finset.mem_image, Set.mem_ofPred_eq]
      constructor
      · rintro ⟨s, hs, rfl⟩
        obtain ⟨hlt, hcell⟩ := hkey hs
        obtain ⟨hm, hv⟩ := (hc.stored _ _).mp ⟨s, hlt, hcell⟩
        exact hm.symm ▸ hv
      · intro hk
        obtain ⟨s, hs, hcell⟩ := (hc.stored k (m k)).mpr ⟨rfl, hk⟩
        exact ⟨s, mem_occupied.mpr ⟨hs, by rw [hcell]; exact Option.some_ne_none _⟩, (of_cell hcell).1⟩
    have hinj : Set.InjOn t.K (occupied t.size t.cell) := by
      intro s hs s' hs' heq
      obtain ⟨hlt, hcell⟩ := hkey hs
      obtain ⟨hlt', hcell'⟩ := hkey hs'
      exact ht.probed.one hlt hlt' hcell (heq ▸ hcell')
    rw [← hkeys, Set.ncard_coe_finset, Finset.card_image_of_injOn hinj, ht.used]

/-- **The counting table is a multiset**, whatever the hash: every run of operations ends, a look-up then returns what is
counted, `n` is the number of keys with a positive count, and at most half of the slots are in use. -/
theorem run_counts (h : Key → Key) (ops : List Op) :
    ∃ t, init.run h ops = some t ∧ (∀ k, t.get h k = some (counts ops k)) ∧ t.n = Set.ncard {k | 0 < counts ops k} ∧
      2 * ((Finset.range t.size).filter fun j => 0 < t.V j).card ≤ t.size := by
  obtain ⟨t, hrun, hc⟩ := (counts_init (h := h)).run ops
  refine ⟨t, hrun, hc.get, hc.n_eq, ?_⟩
  by_cases hz : t.size = 0
  · rw [hz]
    exact Nat.le_refl 0
  · have hsame : ((Finset.range t.size).filter fun j => 0 < t.V j) = occupied t.size t.cell := by
      refine Finset.filter_congr fun j _ => ?_
      rw [Option.isSome_iff_ne_none, ne_eq, cell_none]
      exact Nat.pos_iff_ne_zero
    rw [hsame, ← (hc.table hz).used]
    exact hc.half

end PlCount

end Pimid.Ramulator
