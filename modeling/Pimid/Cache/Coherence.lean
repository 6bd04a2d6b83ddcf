import Pimid.Cache.DataArray

/-!
# The non-inclusive cache is coherent and loses no write

What is known of one line is put in one invariant over its snoop-filter entry, the
children's states and copies, the copy in the data array and memory. The snoop filter
knows exactly the holders; every holder has the latest value; the copy in the data
array has it too unless a child has the line modified, which happens after a
write-back that kept the line exclusive; and memory has it if nobody says the line is
dirty. The entry's state with respect to memory is what makes it safe to drop the
array's copy of a dirty line that clean holders have.
-/

namespace Pimid.Cache.Ninc

variable {n : Nat} {Val : Type}

/-! ## One line -/

structure Coherent (e : Option (SFEntry n)) (child : Fin n → MESIState) (copy : Fin n → Val)
    (d : Option (MESIState × Val)) (memory latest : Val) : Prop where
  free : e = none → ∀ c, child c = .I
  bits : ∀ x, e = some x → ∀ c, x.sharers c = true ↔ child c ≠ .I
  count : ∀ x, e = some x → x.numSharers = (List.finRange n).countP fun c => x.sharers c = true
  held : ∀ x, e = some x → 0 < x.numSharers
  known : ∀ x, e = some x → x.mem ≠ .I
  alone : ∀ c, child c = .E ∨ child c = .M → (∀ c', child c' ≠ .I → c' = c) ∧ ∃ x, e = some x ∧ x.exclusive = true
  owner : ∀ x, e = some x → x.exclusive = true → ∃ c, child c = .E ∨ child c = .M
  firm : ∀ x, e = some x → x.exclusive = true → x.mem ≠ .S
  same : ∀ x st v, e = some x → d = some (st, v) → st = x.mem
  copies : ∀ c, child c ≠ .I → copy c = latest
  data : ∀ st v, d = some (st, v) → (∀ c, child c ≠ .M) → v = latest
  clean : (∀ c, child c ≠ .M) → (∀ x, e = some x → x.mem ≠ .M) → (e = none → ∀ v, d ≠ some (.M, v)) → memory = latest

namespace Coherent

variable {e : Option (SFEntry n)} {child : Fin n → MESIState} {copy : Fin n → Val} {d : Option (MESIState × Val)}
  {memory latest : Val} {x : SFEntry n} {c : Fin n}

/-- The array's copy is evicted. Dirty and held by nobody, it goes to memory; held, its state is in the entry. -/
theorem evict {st : MESIState} {v : Val} (h : Coherent e child copy (some (st, v)) memory latest) :
    Coherent e child copy none (if st = .M ∧ e = none then v else memory) latest where
  free := h.free
  bits := h.bits
  count := h.count
  held := h.held
  known := h.known
  alone := h.alone
  owner := h.owner
  firm := h.firm
  same := nofun
  copies := h.copies
  data := nofun
  clean := by
    intro hM hmem _
    split
    · exact h.data st v rfl hM
    · next hdirty =>
      refine h.clean hM hmem fun he v' hd => hdirty ⟨?_, he⟩
      exact (Prod.mk.inj (Option.some.inj hd)).1

theorem exists_holder (h : Coherent e child copy d memory latest) (he : e = some x) : ∃ c, child c ≠ .I := by
  have hpos := h.held x he
  rw [h.count x he, List.countP_pos_iff] at hpos
  obtain ⟨c, -, hc⟩ := hpos
  exact ⟨c, (h.bits x he c).mp (of_decide_eq_true hc)⟩

theorem alone_count (h : Coherent e child copy d memory latest) (he : e = some x) {o : Fin n}
    (ho : child o = .E ∨ child o = .M) : x.numSharers = 1 ∧ x.exclusive = true := by
  obtain ⟨honly, y, hy, hexcl⟩ := h.alone o ho
  rw [he] at hy
  cases hy
  refine ⟨?_, hexcl⟩
  have hsharers : ∀ c, decide (x.sharers c = true) = decide (c = o) := by
    intro c
    rw [decide_eq_decide, h.bits x he c]
    refine ⟨honly c, fun hco => ?_⟩
    rw [hco]
    rcases ho with ho | ho <;> (rw [ho]; nofun)
  rw [h.count x he]
  simp only [hsharers]
  rw [show (fun c => decide (c = o)) = (· == o) from rfl]
  exact List.count_eq_one_of_mem (List.nodup_finRange n) (List.mem_finRange o)

theorem shared_of_not_exclusive (h : Coherent e child copy d memory latest) (he : e = some x)
    (hx : x.isExclusive = false) (c : Fin n) : child c = .I ∨ child c = .S := by
  have hno : ∀ o, ¬(child o = .E ∨ child o = .M) := by
    intro o ho
    obtain ⟨hone, hexcl⟩ := h.alone_count he ho
    unfold SFEntry.isExclusive at hx
    rw [hone, hexcl] at hx
    cases hx
  cases hc : child c with
  | I => exact .inl rfl
  | S => exact .inr rfl
  | E => exact absurd (.inl hc) (hno c)
  | M => exact absurd (.inr hc) (hno c)

end Coherent

theorem countP_add {sharers : Fin n → Bool} {c : Fin n} (h : sharers c = false) :
    (List.finRange n).countP (fun o => Function.update sharers c true o = true) =
      (List.finRange n).countP (fun o => sharers o = true) + 1 := by
  have := countP_update (List.nodup_finRange n) (List.mem_finRange c) sharers true true
  rw [h, if_neg (by decide), if_pos rfl] at this
  exact this

theorem countP_remove {sharers : Fin n → Bool} {c : Fin n} (h : sharers c = true) :
    (List.finRange n).countP (fun o => Function.update sharers c false o = true) =
      (List.finRange n).countP (fun o => sharers o = true) - 1 := by
  have := countP_update (List.nodup_finRange n) (List.mem_finRange c) sharers false true
  rw [h, if_pos rfl, if_neg (by decide)] at this
  omega

theorem countP_none : (List.finRange n).countP (fun _ => (false : Bool) = true) = 0 :=
  List.countP_eq_zero.mpr fun _ _ => by decide

/-- One child has the line, exclusively, and the array does not. -/
theorem coherent_owned {c : Fin n} {child : Fin n → MESIState} {copy : Fin n → Val} {mem st : MESIState} {memory latest : Val}
    (hc : child c = st) (hst : st = .E ∨ st = .M) (hothers : ∀ o, o ≠ c → child o = .I) (hmem : mem ≠ .I)
    (hfirm : mem ≠ .S) (hcopy : copy c = latest) (hclean : st = .E → mem ≠ .M → memory = latest) :
    Coherent (some ⟨Function.update (fun _ => false) c true, 1, true, mem⟩) child copy none memory latest := by
  have hhold : ∀ o, child o ≠ .I ↔ o = c := by
    intro o
    constructor
    · intro ho
      by_contra hne
      exact ho (hothers o hne)
    · intro hoc
      rw [hoc, hc]
      rcases hst with h | h <;> (rw [h]; nofun)
  refine ⟨nofun, ?_, ?_, ?_, ?_, ?_, ?_, ?_, nofun, ?_, nofun, ?_⟩
  · intro x hx o
    cases hx
    rw [hhold o]
    show Function.update (fun _ => false) c true o = true ↔ o = c
    by_cases hoc : o = c
    · rw [hoc, Function.update_self]
      exact ⟨fun _ => rfl, fun _ => rfl⟩
    · rw [Function.update_of_ne hoc]
      exact ⟨nofun, fun h => absurd h hoc⟩
  · intro x hx
    cases hx
    show 1 = (List.finRange n).countP fun o => Function.update (fun _ => false) c true o = true
    rw [countP_add rfl, countP_none]
  · intro x hx
    cases hx
    exact Nat.one_pos
  · intro x hx
    cases hx
    exact hmem
  · intro o ho
    have hoc : o = c := (hhold o).mp (by rcases ho with h | h <;> (rw [h]; nofun))
    rw [hoc]
    exact ⟨fun c' hc' => (hhold c').mp hc', _, rfl, rfl⟩
  · intro x hx _
    exact ⟨c, by rw [hc]; exact hst⟩
  · intro x hx _
    cases hx
    exact hfirm
  · intro o ho
    rw [(hhold o).mp ho]
    exact hcopy
  · intro hM hno _
    rcases hst with hE | hM'
    · exact hclean hE (hno _ rfl)
    · exact absurd (hc.trans hM') (hM c)

theorem coherent_shared {x : SFEntry n} {child : Fin n → MESIState} {copy : Fin n → Val} {d : Option (MESIState × Val)}
    {memory latest : Val} (hstates : ∀ c, child c = .I ∨ child c = .S) (hbits : ∀ c, x.sharers c = true ↔ child c ≠ .I)
    (hcount : x.numSharers = (List.finRange n).countP fun c => x.sharers c = true) (hpos : 0 < x.numSharers)
    (hexcl : x.exclusive = false) (hmem : x.mem ≠ .I) (hcopies : ∀ c, child c ≠ .I → copy c = latest)
    (hd : ∀ st v, d = some (st, v) → st = x.mem ∧ v = latest) (hclean : x.mem ≠ .M → memory = latest) :
    Coherent (some x) child copy d memory latest := by
  have hno : ∀ c, ¬(child c = .E ∨ child c = .M) := by
    intro c h
    rcases hstates c with hc | hc <;> rw [hc] at h <;> rcases h with h | h <;> cases h
  refine ⟨nofun, ?_, ?_, ?_, ?_, fun c h => absurd h (hno c), ?_, ?_, ?_, hcopies, fun st v h _ => (hd st v h).2, ?_⟩
  · intro y hy
    cases hy
    exact hbits
  · intro y hy
    cases hy
    exact hcount
  · intro y hy
    cases hy
    exact hpos
  · intro y hy
    cases hy
    exact hmem
  · intro y hy hx
    cases hy
    rw [hexcl] at hx
    cases hx
  · intro y hy hx
    cases hy
    rw [hexcl] at hx
    cases hx
  · intro y st v hy h
    cases hy
    exact (hd st v h).1
  · intro _ h _
    exact hclean (h x rfl)

theorem coherent_free {child : Fin n → MESIState} {copy : Fin n → Val} {d : Option (MESIState × Val)} {memory latest : Val}
    (hfree : ∀ c, child c = .I) (hd : ∀ st v, d = some (st, v) → v = latest)
    (hclean : (∀ v, d ≠ some (.M, v)) → memory = latest) : Coherent none child copy d memory latest := by
  refine ⟨fun _ => hfree, nofun, nofun, nofun, nofun, fun c h => ?_, nofun, nofun, nofun, fun c h => absurd (hfree c) h,
    fun st v h _ => hd st v h, fun _ _ h => hclean (h rfl)⟩
  rw [hfree c] at h
  rcases h with h | h <;> cases h

/-! ## The whole state -/

variable {g : Geometry} {s s' : Ninc n Val} {c : Fin n} {line : Nat}

def CoherentAt (g : Geometry) (s : Ninc n Val) (line : Nat) : Prop :=
  Coherent (s.sf line) (fun c => s.child c line) (fun c => s.copy c line) (dCopy g s line) (s.memory line) (s.latest line)

structure Inv (g : Geometry) (s : Ninc n Val) : Prop where
  placed : Placed g s.way
  line : ∀ l, CoherentAt g s l

/-- Nothing but `line` has changed, and not in the data array. -/
structure Only (s s' : Ninc n Val) (line : Nat) : Prop where
  way : s'.way = s.way
  memory : s'.memory = s.memory
  sf : ∀ l ≠ line, s'.sf l = s.sf l
  child : ∀ c, ∀ l ≠ line, s'.child c l = s.child c l
  copy : ∀ c, ∀ l ≠ line, s'.copy c l = s.copy c l
  latest : ∀ l ≠ line, s'.latest l = s.latest l

theorem dCopy_congr (h : s'.way = s.way) (l : Nat) : dCopy g s' l = dCopy g s l := by
  unfold dCopy dLookup
  rw [h]

theorem CoherentAt.congr {l : Nat} (h : CoherentAt g s l) (hsf : s'.sf l = s.sf l) (hchild : ∀ c, s'.child c l = s.child c l)
    (hcopy : ∀ c, s'.copy c l = s.copy c l) (hd : dCopy g s' l = dCopy g s l) (hmem : s'.memory l = s.memory l)
    (hlatest : s'.latest l = s.latest l) : CoherentAt g s' l := by
  unfold CoherentAt
  rw [hsf, hd, hmem, hlatest, funext hchild, funext hcopy]
  exact h

theorem Only.coherent (ho : Only s s' line) {l : Nat} (hne : l ≠ line) (h : CoherentAt g s l) : CoherentAt g s' l :=
  h.congr (ho.sf l hne) (fun c => ho.child c l hne) (fun c => ho.copy c l hne) (dCopy_congr ho.way l) (by rw [ho.memory])
    (ho.latest l hne)

theorem Filled.coherent (hf : Filled g s s' line) {l : Nat} (hne : l ≠ line) (h : CoherentAt g s l) : CoherentAt g s' l := by
  rcases hf.others l hne with ⟨hd, hmem⟩ | ⟨st, x, hd, hd', hmem⟩
  · exact h.congr (by rw [hf.sf]) (fun c => by rw [hf.child]) (fun c => by rw [hf.copy]) hd hmem (by rw [hf.latest])
  · unfold CoherentAt at h ⊢
    rw [hd] at h
    rw [hd', hmem, hf.sf, hf.child, hf.copy, hf.latest]
    exact h.evict

theorem Inv.fill (hi : Inv g s) (hw : 0 < g.dWays) (ho : Only s s' line) {st : MESIState} (hst : st ≠ .I) {data : Val}
    (h : Coherent (s'.sf line) (fun c => s'.child c line) (fun c => s'.copy c line) (some (st, data)) (s.memory line)
      (s'.latest line)) : Inv g (s'.dFill g line st data) := by
  have hplaced : Placed g s'.way := ho.way ▸ hi.placed
  obtain ⟨hcopy, hf⟩ := dFill_spec hw hplaced line hst data
  refine ⟨hf.placed, fun l => ?_⟩
  by_cases hl : l = line
  · subst hl
    unfold CoherentAt
    rw [hcopy, hf.memory, hf.sf, hf.child, hf.copy, hf.latest, ho.memory]
    exact h
  · exact hf.coherent hl (ho.coherent hl (hi.line l))

theorem Inv.drop (hi : Inv g s) (hw : 0 < g.dWays) (ho : Only s s' line)
    (h : Coherent (s'.sf line) (fun c => s'.child c line) (fun c => s'.copy c line) none (s.memory line) (s'.latest line)) :
    Inv g (s'.dropCopy (s.dLookup g line)) := by
  have hplaced : Placed g s'.way := ho.way ▸ hi.placed
  have hlook : s.dLookup g line = s'.dLookup g line := by
    unfold dLookup
    rw [ho.way]
  rw [hlook]
  obtain ⟨hp, hnone, hothers⟩ := dropCopy_spec hw hplaced line
  have hframe : ∀ did, (s'.dropCopy did).sf = s'.sf ∧ (s'.dropCopy did).child = s'.child ∧ (s'.dropCopy did).copy = s'.copy ∧
      (s'.dropCopy did).memory = s'.memory ∧ (s'.dropCopy did).latest = s'.latest := by
    intro did
    cases did <;> exact ⟨rfl, rfl, rfl, rfl, rfl⟩
  obtain ⟨hsf, hchild, hcopy, hmem, hlatest⟩ := hframe (s'.dLookup g line)
  refine ⟨hp, fun l => ?_⟩
  by_cases hl : l = line
  · subst hl
    unfold CoherentAt
    rw [hnone, hsf, hchild, hcopy, hmem, hlatest, ho.memory]
    exact h
  · exact (ho.coherent hl (hi.line l)).congr (by rw [hsf]) (fun c => by rw [hchild]) (fun c => by rw [hcopy]) (hothers l hl)
      (by rw [hmem]) (by rw [hlatest])

theorem Inv.only (hi : Inv g s) (ho : Only s s' line)
    (h : Coherent (s'.sf line) (fun c => s'.child c line) (fun c => s'.copy c line) (dCopy g s line) (s.memory line)
      (s'.latest line)) : Inv g s' := by
  refine ⟨ho.way ▸ hi.placed, fun l => ?_⟩
  by_cases hl : l = line
  · subst hl
    unfold CoherentAt
    rw [dCopy_congr ho.way, ho.memory]
    exact h
  · exact ho.coherent hl (hi.line l)

end Pimid.Cache.Ninc
