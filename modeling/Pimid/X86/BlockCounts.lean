import Pimid.X86.Tables

/-!
# The uops and the counts of a block

Every uop of a block has registers, ports and a decode cycle the core can use, and the class counters, the memory
counters and the two censuses agree with the instructions and the uops.
-/

namespace Pimid.X86

open Pimid.Core (DynUop UopType)

/-! ## One uop -/

/-- What a register slot of a uop can hold: nothing, an architectural register, the flags, or a temporary. -/
def SlotId (r : Nat) : Prop := Named r ∨ r = sbFlags ∨ r = regLoadTemp ∨ r = regExecTemp

structure UopOk (u : DynUop) : Prop where
  rs0 : SlotId u.rs0
  rs1 : SlotId u.rs1
  rd0 : SlotId u.rd0
  rd1 : SlotId u.rd1
  port : u.portMask ≠ 0
  ports : u.portMask < 64

theorem slotId_none : SlotId sbNone := Or.inl (Or.inl rfl)

theorem slotId_temp : SlotId regLoadTemp := Or.inr (Or.inr (Or.inl rfl))

theorem slotId_gpr {r : Nat} (hr : r < 16) : SlotId (gprId r) := Or.inl (named_gprId hr)

theorem pushUop_ok {ty : UopType} {a b c e lat port ex dec : Nat} (ha : SlotId a) (hb : SlotId b) (hc : SlotId c)
    (he : SlotId e) (hport : port < 64) : UopOk (pushUop ty a b c e lat port ex dec) where
  rs0 := ha
  rs1 := hb
  rd0 := hc
  rd1 := he
  port := by
    unfold pushUop
    dsimp only
    split
    · assumption
    · decide
  ports := by
    unfold pushUop
    dsimp only
    split
    · exact hport
    · decide

theorem classInfo_port (c : OpClass) : (classInfo c).port < 64 := by
  cases c <;> decide

/-- A filled slot holds what was offered. -/
def SlotsOk (l : List Nat) : Prop := ∀ r ∈ l, SlotId r

theorem slotsOk_nil : SlotsOk [] := fun _ h => absurd h List.not_mem_nil

theorem addSlot_ok {l : List Nat} (hl : SlotsOk l) {r : Nat} (hr : SlotId r) : SlotsOk (addSlot l r) := by
  intro x hx
  unfold addSlot at hx
  split at hx
  · rcases List.mem_append.mp hx with h | h
    · exact hl x h
    · rw [List.mem_singleton.mp h]
      exact hr
  · exact hl x hx

theorem addSlot_ok_ite {l : List Nat} (hl : SlotsOk l) {c : Prop} [Decidable c] {r : Nat} (hr : SlotId r) :
    SlotsOk (if c then addSlot l r else l) := by
  split
  · exact addSlot_ok hl hr
  · exact hl

theorem slot_ok {l : List Nat} (hl : SlotsOk l) (k : Nat) : SlotId (slot l k) := by
  unfold slot
  rw [List.getD_eq_getElem?_getD]
  cases h : l[k]? with
  | none => exact slotId_none
  | some r => exact hl r (List.mem_of_getElem? h)

/-! ## The uops of an instruction -/

/-- What one call of `emitUops` appends. -/
structure Emitted.Ok (e : Emitted) (dec : Nat) : Prop where
  uops : ∀ u ∈ e.uops, UopOk u ∧ u.decCycle = dec % 2 ^ 16
  length : e.uops.length ≤ 4
  loads : e.loads = e.uops.countP (·.type = .load)
  stores : e.stores = e.uops.countP (·.type = .store)
  loads_le : e.loads ≤ 1
  stores_le : e.stores ≤ 1

namespace Decoded

variable {d : Decoded} {dec : Nat}

section

variable (hids : d.Ids)

include hids

theorem computeSrc_ok : SlotsOk d.computeSrc := by
  unfold computeSrc
  dsimp only
  refine addSlot_ok_ite (addSlot_ok_ite (addSlot_ok_ite (addSlot_ok_ite (addSlot_ok_ite slotsOk_nil ?_) ?_) ?_) ?_) ?_
  · exact slotId_temp
  · exact Or.inl hids.rm
  · exact Or.inl hids.reg
  · exact Or.inl hids.vvvv
  · exact Or.inr (Or.inl rfl)

theorem computeDst_ok : SlotsOk d.computeDst := by
  unfold computeDst
  dsimp only
  refine addSlot_ok_ite (addSlot_ok_ite (addSlot_ok_ite (addSlot_ok_ite slotsOk_nil ?_) ?_) ?_) ?_
  · exact Or.inl hids.reg
  · exact Or.inl hids.rm
  · exact slotId_temp
  · exact Or.inr (Or.inl rfl)

theorem moveSrc_ok : SlotsOk d.moveSrc :=
  addSlot_ok_ite (addSlot_ok_ite slotsOk_nil (Or.inl hids.rm)) (Or.inl hids.reg)

theorem moveDst_ok : SlotsOk d.moveDst :=
  addSlot_ok_ite (addSlot_ok_ite slotsOk_nil (Or.inl hids.reg)) (Or.inl hids.rm)

theorem leaSrc_ok : SlotsOk d.leaSrc :=
  addSlot_ok (addSlot_ok slotsOk_nil (Or.inl (hids.base.imp_right Or.inl))) (Or.inl (hids.index.imp_right Or.inl))

theorem loadUop_ok {rd : Nat} (hrd : SlotId rd) : UopOk (d.loadUop dec rd) :=
  pushUop_ok (Or.inl (hids.base.imp_right Or.inl)) (Or.inl (hids.index.imp_right Or.inl)) hrd slotId_none (by decide)

theorem storeUop_ok {val : Nat} (hval : SlotId val) : UopOk (d.storeUop dec val) :=
  pushUop_ok hval (Or.inl (hids.base.imp_right Or.inl)) slotId_none slotId_none (by decide)

omit hids in
theorem slotUop_ok {src dst : List Nat} (hsrc : SlotsOk src) (hdst : SlotsOk dst) : UopOk (d.slotUop dec src dst) :=
  pushUop_ok (slot_ok hsrc 0) (slot_ok hsrc 1) (slot_ok hdst 0) (slot_ok hdst 1) (classInfo_port _)

omit hids in
theorem fenceUop_ok : UopOk (fenceUop dec) :=
  pushUop_ok slotId_none slotId_none slotId_none slotId_none (by decide)

omit hids in
theorem emitted_single {u : DynUop} (hu : UopOk u) (hdec : u.decCycle = dec % 2 ^ 16) {l s : Nat}
    (hl : l = if u.type = .load then 1 else 0) (hs : s = if u.type = .store then 1 else 0) :
    Emitted.Ok { uops := [u], loads := l, stores := s } dec := by
  refine ⟨fun w hw => ?_, (by simp), ?_, ?_, ?_, ?_⟩
  · rw [List.mem_singleton.mp hw]
    exact ⟨hu, hdec⟩
  · rw [hl, List.countP_singleton]
    simp
  · rw [hs, List.countP_singleton]
    simp
  · dsimp only
    rw [hl]
    split <;> omega
  · dsimp only
    rw [hs]
    split <;> omega

theorem emitGeneral_ok : (d.emitGeneral dec).Ok dec where
  uops := by
    intro u hu
    unfold emitGeneral at hu
    simp only [List.mem_append, List.mem_singleton, List.mem_ite_nil_right] at hu
    rcases hu with ((⟨-, rfl⟩ | rfl) | ⟨-, rfl⟩) | ⟨-, rfl⟩
    · exact ⟨loadUop_ok hids slotId_temp, rfl⟩
    · exact ⟨slotUop_ok (computeSrc_ok hids) (computeDst_ok hids), rfl⟩
    · exact ⟨storeUop_ok hids slotId_temp, rfl⟩
    · exact ⟨fenceUop_ok, rfl⟩
  length := by
    unfold emitGeneral
    cases d.doLoad <;> cases d.doStore <;> cases d.fence <;> simp
  loads := by
    unfold emitGeneral
    cases d.doLoad <;> cases d.doStore <;> cases d.fence <;>
      simp [loadUop, storeUop, slotUop, classUop, fenceUop, pushUop]
  stores := by
    unfold emitGeneral
    cases d.doLoad <;> cases d.doStore <;> cases d.fence <;>
      simp [loadUop, storeUop, slotUop, classUop, fenceUop, pushUop]
  loads_le := by
    unfold emitGeneral
    cases d.doLoad <;> simp
  stores_le := by
    unfold emitGeneral
    cases d.doStore <;> simp

omit hids in
/-- The uops of a multiplication or division: one or two, none of them a memory uop. -/
theorem pairUops_ok {src : Nat} (hsrc : SlotId src) :
    (∀ u ∈ d.pairUops dec src, UopOk u ∧ u.decCycle = dec % 2 ^ 16 ∧ u.type = .general) ∧
      (d.pairUops dec src).length ≤ 2 := by
  have hrax : SlotId rax := slotId_gpr (by decide)
  have hrdx : SlotId rdx := slotId_gpr (by decide)
  have hexec : SlotId regExecTemp := Or.inr (Or.inr (Or.inr rfl))
  have hclass {a b c e : Nat} (ha : SlotId a) (hb : SlotId b) (hc : SlotId c) (he : SlotId e) :
      UopOk (d.classUop dec a b c e) := pushUop_ok ha hb hc he (classInfo_port _)
  unfold pairUops
  split
  · refine ⟨fun u hu => ?_, Nat.le_refl 2⟩
    rcases List.mem_pair.mp hu with rfl | rfl
    · exact ⟨pushUop_ok hrax hrdx hexec slotId_none (by decide), rfl, rfl⟩
    · exact ⟨hclass hexec hsrc hrax hrdx, rfl, rfl⟩
  · split
    · refine ⟨fun u hu => ?_, Nat.le_succ 1⟩
      rw [List.mem_singleton.mp hu]
      exact ⟨hclass hrax hsrc hrax hrdx, rfl, rfl⟩
    · refine ⟨fun u hu => ?_, Nat.le_succ 1⟩
      rw [List.mem_singleton.mp hu]
      exact ⟨hclass hrax hsrc hrax slotId_none, rfl, rfl⟩

theorem emitPair_ok : (d.emitPair dec).Ok dec := by
  have hno {us : List DynUop} (h : ∀ u ∈ us, UopOk u ∧ u.decCycle = dec % 2 ^ 16 ∧ u.type = .general) (ty : UopType)
      (hty : ty ≠ .general) : us.countP (·.type = ty) = 0 := by
    rw [List.countP_eq_zero]
    intro u hu
    rw [(h u hu).2.2]
    simpa using hty.symm
  unfold emitPair
  split
  · obtain ⟨hp, hlen⟩ := @pairUops_ok d dec _ slotId_temp
    refine ⟨fun u hu => ?_, ?_, ?_, ?_, Nat.le_refl 1, Nat.zero_le 1⟩
    · rcases List.mem_cons.mp hu with rfl | hu
      · exact ⟨loadUop_ok hids slotId_temp, rfl⟩
      · exact ⟨(hp u hu).1, (hp u hu).2.1⟩
    · rw [List.length_cons]
      omega
    · rw [List.countP_cons_of_pos (by simp [loadUop, pushUop]), hno hp _ (by decide)]
    · rw [List.countP_cons_of_neg (by simp [loadUop, pushUop]), hno hp _ (by decide)]
  · obtain ⟨hp, hlen⟩ := @pairUops_ok d dec d.rmRegId (Or.inl hids.rm)
    refine ⟨fun u hu => ⟨(hp u hu).1, (hp u hu).2.1⟩, Nat.le_trans hlen (by decide), ?_, ?_, Nat.zero_le 1,
      Nat.zero_le 1⟩
    · rw [hno hp _ (by decide)]
    · rw [hno hp _ (by decide)]

omit hids in
theorem emitRep_ok : (d.emitRep dec).Ok dec := by
  have hreg {a b c e : Nat} (ha : a < 16) (hb : b < 16) (hc : c < 16) (he : SlotId e) :
      UopOk (pushUop .general (gprId a) (gprId b) (gprId c) e 1 portsAlu 0 dec) :=
    pushUop_ok (slotId_gpr ha) (slotId_gpr hb) (slotId_gpr hc) he (by decide)
  have h1 : UopOk (pushUop .general rcx rsi rsi sbNone 1 portsAlu 0 dec) :=
    hreg (by decide) (by decide) (by decide) slotId_none
  have h2 : UopOk (pushUop .general rcx rdi rdi rcx 1 portsAlu 0 dec) :=
    hreg (by decide) (by decide) (by decide) (slotId_gpr (by decide))
  have h3 : UopOk (pushUop .general rcx rsi rsi rax 1 portsAlu 0 dec) :=
    hreg (by decide) (by decide) (by decide) (slotId_gpr (by decide))
  unfold emitRep
  split
  · refine ⟨fun u hu => ?_, (by simp), rfl, rfl, Nat.zero_le 1, Nat.zero_le 1⟩
    rcases List.mem_pair.mp hu with rfl | rfl
    · exact ⟨h1, rfl⟩
    · exact ⟨h2, rfl⟩
  · split
    · exact emitted_single h2 rfl rfl rfl
    · exact emitted_single h3 rfl rfl rfl

omit hids in
theorem emitString_ok : (d.emitString dec).Ok dec := by
  have hrax : SlotId rax := slotId_gpr (by decide)
  have hrsi : SlotId rsi := slotId_gpr (by decide)
  have hrdi : SlotId rdi := slotId_gpr (by decide)
  unfold emitString
  split
  · refine ⟨fun u hu => ?_, (by simp), rfl, rfl, Nat.le_refl 1, Nat.le_refl 1⟩
    rcases List.mem_pair.mp hu with rfl | rfl
    · exact ⟨pushUop_ok hrsi slotId_none slotId_temp hrsi (by decide), rfl⟩
    · exact ⟨pushUop_ok slotId_temp hrdi hrdi slotId_none (by decide), rfl⟩
  · split
    · exact emitted_single (pushUop_ok hrax hrdi hrdi slotId_none (by decide)) rfl rfl rfl
    · exact emitted_single (pushUop_ok hrsi slotId_none hrax hrsi (by decide)) rfl rfl rfl

/-- **What an instruction appends**: at most four uops the core can use, with its memory uops counted. -/
theorem emitUops_ok : (d.emitUops dec).Ok dec := by
  have hmove {r q : Nat} (hr : Named r) (hq : Named q) {a b : Bool} :
      SlotId (if a then r else if b then q else sbNone) := by
    split
    · exact Or.inl hr
    · split
      · exact Or.inl hq
      · exact slotId_none
  unfold emitUops
  split
  · split
    · exact emitRep_ok
    · exact emitString_ok
  split
  · exact emitPair_ok hids
  split
  · exact emitted_single (loadUop_ok hids (hmove hids.reg hids.rm)) rfl rfl rfl
  split
  · exact emitted_single (storeUop_ok hids (hmove hids.reg hids.rm)) rfl rfl rfl
  split
  · exact emitted_single (slotUop_ok (moveSrc_ok hids) (moveDst_ok hids)) rfl rfl rfl
  split
  · exact emitted_single (slotUop_ok (leaSrc_ok hids) (addSlot_ok slotsOk_nil (Or.inl hids.reg))) rfl rfl rfl
  · exact emitGeneral_ok hids

end

end Decoded

/-! ## The census -/

/-- The number of entries of a census. -/
def total (f : Nat → Nat) : Nat := ∑ k ∈ Finset.range 9, f k

theorem total_bump {f : Nat → Nat} {k : Nat} (hk : k < 9) (n : Nat) : total (bump f k n) = total f + n := by
  unfold total
  rw [← Finset.add_sum_erase _ _ (Finset.mem_range.mpr hk), ← Finset.add_sum_erase _ f (Finset.mem_range.mpr hk)]
  have hrest : ∑ x ∈ (Finset.range 9).erase k, bump f k n x = ∑ x ∈ (Finset.range 9).erase k, f x := by
    refine Finset.sum_congr rfl fun x hx => ?_
    rw [bump, if_neg (Finset.ne_of_mem_erase hx)]
  rw [hrest, bump, if_pos rfl]
  omega

theorem Decoded.intWidth_le (d : Decoded) : d.intWidth ≤ 3 := by
  unfold intWidth
  split
  · omega
  · split
    · omega
    · split <;> omega

/-- An integer category belongs to an instruction counted as integer or as multiplication. -/
theorem Decoded.intCensusCat_fits {d : Decoded} (h : d.intCensusCat ≠ 0) :
    d.intCensusCat ≤ intCensusCats ∧ (d.bucket = .int ∨ d.bucket = .mul) := by
  have hw := d.intWidth_le
  revert h
  unfold intCensusCat intCensusCats
  split
  next hc =>
    refine fun _ => ⟨by omega, Or.inl ?_⟩
    unfold bucket
    rw [hc]
  · split
    next hc =>
      refine fun _ => ⟨by omega, Or.inr ?_⟩
      unfold bucket
      rw [hc.1]
    · split
      next hc =>
        refine fun _ => ⟨by omega, Or.inr ?_⟩
        unfold bucket
        rw [hc]
      · exact fun h => absurd rfl h

/-! ## The loop over the instructions -/

/-- The counters that have to agree. -/
structure Counts where
  uops : List DynUop
  cInt : Nat
  cMul : Nat
  cFp : Nat
  cBr : Nat
  cLd : Nat
  cSt : Nat
  ins : Nat → Nat
  iops : Nat → Nat

def Building.counts (s : Building) : Counts :=
  ⟨s.uops, s.cInt, s.cMul, s.cFp, s.cBr, s.cLd, s.cSt, s.fpc.ins, s.fpc.iops⟩

/-- What one instruction does to them. -/
def Counts.add (c : Counts) (d : Decoded) : Counts where
  uops := c.uops ++ (d.emitUops (c.uops.length / decWidth)).uops
  cInt := c.cInt + if d.bucket = .int then 1 else 0
  cMul := c.cMul + if d.bucket = .mul then 1 else 0
  cFp := c.cFp + if d.bucket = .fp then 1 else 0
  cBr := c.cBr + if d.bucket = .br then 1 else 0
  cLd := c.cLd + (d.emitUops (c.uops.length / decWidth)).loads
  cSt := c.cSt + (d.emitUops (c.uops.length / decWidth)).stores
  ins := if d.fpCat1 ≠ 0 ∧ d.vecInt = false then bump c.ins (d.fpCat1 - 1) 1 else c.ins
  iops := if d.intCensusCat ≠ 0 then bump c.iops (d.intCensusCat - 1) 1 else c.iops

namespace Building

variable {s : Building} {d : Decoded}

theorem countApprox_counts : (s.countApprox d).counts = s.counts := by
  unfold countApprox
  dsimp only
  split <;> split <;> rfl

theorem countMove_counts : (s.countMove d).counts = s.counts := by
  unfold countMove
  split
  · cases d.mem <;> rfl
  · rfl

theorem countFp_counts : (s.countFp d).counts = { s.counts with
    ins := if d.fpCat1 ≠ 0 ∧ d.vecInt = false then bump s.fpc.ins (d.fpCat1 - 1) 1 else s.fpc.ins } := by
  unfold countFp
  split <;> rfl

theorem countInt_counts : (s.countInt d).counts = { s.counts with
    iops := if d.intCensusCat ≠ 0 then bump s.fpc.iops (d.intCensusCat - 1) 1 else s.fpc.iops } := by
  unfold countInt
  split <;> rfl

theorem countClass_counts : (s.countClass d).counts = { s.counts with
    cInt := s.cInt + if d.bucket = .int then 1 else 0
    cMul := s.cMul + if d.bucket = .mul then 1 else 0
    cFp := s.cFp + if d.bucket = .fp then 1 else 0
    cBr := s.cBr + if d.bucket = .br then 1 else 0 } := by
  unfold countClass
  cases d.bucket <;> rfl

theorem add_counts : (s.add d).counts = s.counts.add d := by
  unfold add
  rw [countApprox_counts, countInt_counts]
  have hins (t : Building) : t.fpc.iops = t.counts.iops := rfl
  have hins' (t : Building) : t.fpc.ins = t.counts.ins := rfl
  rw [hins, countFp_counts, hins', countMove_counts, countClass_counts]
  rfl

end Building

/-- The counters after `n` instructions. -/
structure Counts.Ok (c : Counts) (n : Nat) : Prop where
  uops : ∀ u ∈ c.uops, UopOk u
  length : c.uops.length ≤ 4 * n
  count : c.cInt + c.cMul + c.cFp + c.cBr = n
  loads : c.cLd = c.uops.countP (·.type = .load)
  stores : c.cSt = c.uops.countP (·.type = .store)
  loads_le : c.cLd ≤ n
  stores_le : c.cSt ≤ n
  fp : total c.ins ≤ c.cFp
  int : total c.iops ≤ c.cInt + c.cMul

/-- The decode cycles along the block do not decrease, and none is later than the group the next instruction starts
in. -/
structure Counts.InOrder (c : Counts) : Prop where
  last : ∀ u ∈ c.uops, u.decCycle ≤ c.uops.length / decWidth
  mono : c.uops.Pairwise fun u w => u.decCycle ≤ w.decCycle

namespace Counts

variable {c : Counts} {d : Decoded} {n : Nat}

theorem Ok.add (h : c.Ok n) (hids : d.Ids) (hfp : d.FpFits) : (c.add d).Ok (n + 1) := by
  have he := @Decoded.emitUops_ok d (c.uops.length / decWidth) hids
  have hbucket : (if d.bucket = .int then 1 else 0) + (if d.bucket = .mul then 1 else 0) +
      (if d.bucket = .fp then 1 else 0) + (if d.bucket = .br then 1 else 0) = 1 := by
    cases d.bucket <;> rfl
  unfold Counts.add
  refine ⟨fun u hu => ?_, ?_, ?_, ?_, ?_, ?_, ?_, ?_, ?_⟩
  · rcases List.mem_append.mp hu with hu | hu
    · exact h.uops u hu
    · exact (he.uops u hu).1
  · dsimp only
    have := h.length
    have := he.length
    rw [List.length_append]
    omega
  · dsimp only
    have := h.count
    omega
  · dsimp only
    rw [List.countP_append, ← he.loads, ← h.loads]
  · dsimp only
    rw [List.countP_append, ← he.stores, ← h.stores]
  · exact Nat.add_le_add h.loads_le he.loads_le
  · exact Nat.add_le_add h.stores_le he.stores_le
  · dsimp only
    split
    next hc =>
      have hcat := hfp.cat
      unfold fpCensusCats at hcat
      rw [total_bump (by have := hc.1; omega), hfp.bucket hc.1 hc.2, if_pos rfl]
      exact Nat.add_le_add_right h.fp 1
    next => exact Nat.le_trans h.fp (Nat.le_add_right _ _)
  · dsimp only
    have hint := h.int
    split
    next hc =>
      obtain ⟨hcat, hb⟩ := Decoded.intCensusCat_fits hc
      unfold intCensusCats at hcat
      rw [total_bump (by omega)]
      rcases hb with hb | hb <;> rw [hb] <;> simp <;> omega
    next => omega

theorem InOrder.add (h : c.InOrder) (hids : d.Ids) (hlen : c.uops.length / decWidth < 2 ^ 16) :
    (c.add d).InOrder := by
  have he := @Decoded.emitUops_ok d (c.uops.length / decWidth) hids
  have hdec {u : DynUop} (hu : u ∈ (d.emitUops (c.uops.length / decWidth)).uops) :
      u.decCycle = c.uops.length / decWidth := by
    rw [(he.uops u hu).2, Nat.mod_eq_of_lt hlen]
  unfold Counts.add
  refine ⟨fun u hu => ?_, ?_⟩
  · dsimp only at hu ⊢
    have hle : c.uops.length / decWidth ≤
        (c.uops ++ (d.emitUops (c.uops.length / decWidth)).uops).length / decWidth := by
      rw [List.length_append]
      exact Nat.div_le_div_right (Nat.le_add_right _ _)
    rcases List.mem_append.mp hu with hu | hu
    · exact Nat.le_trans (h.last u hu) hle
    · rw [hdec hu]
      exact hle
  · dsimp only
    rw [List.pairwise_append]
    refine ⟨h.mono, ?_, fun u hu w hw => ?_⟩
    · refine List.pairwise_of_forall_mem_list fun u hu w hw => ?_
      rw [hdec hu, hdec hw]
    · rw [hdec hw]
      exact h.last u hu

end Counts

/-! ## Blocks -/

theorem decodeOne_ok (b : List UInt8) : ∃ d, decodeOne b = some d ∧ d.Ids ∧ d.FpFits := by
  rcases decodeOne_eq b with ⟨cls, -, -, hdec⟩ | ⟨f, hok, -, hdec⟩
  · refine ⟨_, hdec, ⟨Or.inl rfl, Or.inl rfl, Or.inl rfl, Or.inl rfl, Or.inl rfl⟩, ?_⟩
    exact ⟨Nat.zero_le _, fun h => absurd rfl h⟩
  · exact ⟨_, hdec, Front.classify_ids hok.x hok.o, Front.classify_fpFits⟩

/-- The whole loop: as long as there are at most 65535 instructions, no decode cycle wraps. -/
theorem Building.addAll_ok {s : Building} {n : Nat} (hok : s.counts.Ok n) (hord : s.counts.InOrder)
    (insns : List (List UInt8)) (hlen : n + insns.length ≤ 65535) :
    ∃ s', s.addAll insns = some s' ∧ s'.counts.Ok (n + insns.length) ∧ s'.counts.InOrder := by
  induction insns generalizing s n with
  | nil => exact ⟨s, rfl, hok, hord⟩
  | cons b insns ih =>
    obtain ⟨d, hd, hids, hfp⟩ := decodeOne_ok b
    rw [List.length_cons] at hlen
    have hwrap : s.counts.uops.length / decWidth < 2 ^ 16 := by
      have := hok.length
      unfold decWidth
      omega
    have hok' : (s.add d).counts.Ok (n + 1) := add_counts ▸ hok.add hids hfp
    have hord' : (s.add d).counts.InOrder := add_counts ▸ hord.add hids hwrap
    obtain ⟨s', hs', hok'', hord''⟩ := ih hok' hord' (by omega)
    refine ⟨s', ?_, ?_, hord''⟩
    · rw [addAll, hd]
      exact hs'
    · rw [List.length_cons, show n + (insns.length + 1) = n + 1 + insns.length by omega]
      exact hok''

theorem sat16_of_le {v : Nat} (h : v ≤ 65535) : sat16 v = v := if_neg (Nat.not_lt.mpr h)

theorem total_zero : total (fun _ => 0) = 0 := Finset.sum_const_zero

theorem gprId_inj {r q : Nat} (hr : r < 16) (hq : q < 16) (h : gprId r = gprId q) : r = q := by
  unfold gprId sbGprBase at h
  omega

theorem xmmId_inj {r q : Nat} (hr : r < 32) (hq : q < 32) (h : xmmId r = xmmId q) : r = q := by
  unfold xmmId sbXmmBase at h
  omega

theorem SlotId.lt {r : Nat} (h : SlotId r) : r < maxRegisters := by
  unfold maxRegisters regExecTemp regLoadTemp regLast
  unfold SlotId sbFlags regExecTemp regLoadTemp regLast at h
  rcases h with (h | h | h) | h | h | h
  · rw [h]
    decide
  · have := h.2
    omega
  · have := h.2
    omega
  all_goals omega

/-- **A decoded block is safe to run and its counts add up.** No read leaves an instruction; every register slot
holds none, an architectural register, the flags or a temporary, all below the size of the scoreboard; ports and
decode cycles are in order; and the counters agree with the instructions and the uops. -/
theorem createDecodedBblInfo_sound (bblAddr tbBytes : Nat) (insns : List (List UInt8)) (hcount : insns.length ≤ 65535) :
    (∀ b ∈ insns, ∃ d, decodeOne b = some d ∧ d.Ids) ∧
      (∀ r q, r < 16 → q < 16 → gprId r = gprId q → r = q) ∧
      (∀ r q, r < 32 → q < 32 → xmmId r = xmmId q → r = q) ∧
      (∀ r, SlotId r → r < maxRegisters) ∧
      ∃ bbl, createDecodedBblInfo bblAddr insns tbBytes = some bbl ∧
        (∀ u ∈ bbl.uops, UopOk u) ∧ (bbl.uops.Pairwise fun u w => u.decCycle ≤ w.decCycle) ∧
        bbl.nInt + bbl.nMul + bbl.nFp + bbl.nBr = insns.length ∧
        bbl.nLoad = bbl.uops.countP (·.type = .load) ∧ bbl.nStore = bbl.uops.countP (·.type = .store) ∧
        ∀ c, bbl.census = some c → total c.ins ≤ bbl.nFp ∧ total c.iops ≤ bbl.nInt + bbl.nMul := by
  refine ⟨fun b _ => ?_, fun _ _ => gprId_inj, fun _ _ => xmmId_inj, fun _ => SlotId.lt, ?_⟩
  · obtain ⟨d, hd, hids, -⟩ := decodeOne_ok b
    exact ⟨d, hd, hids⟩
  have hinit : (Building.counts {}).Ok 0 :=
    ⟨(fun _ h => nomatch h), Nat.le_refl _, rfl, rfl, rfl, Nat.le_refl _, Nat.le_refl _, total_zero.le, total_zero.le⟩
  have hord : (Building.counts {}).InOrder := ⟨(fun _ h => nomatch h), List.Pairwise.nil⟩
  obtain ⟨s, hs, hok, hord⟩ := Building.addAll_ok hinit hord insns (by omega)
  rw [Nat.zero_add] at hok
  have hsum := hok.count
  have hInt : sat16 s.cInt = s.cInt := sat16_of_le (by change s.cInt + s.cMul + s.cFp + s.cBr = _ at hsum; omega)
  have hMul : sat16 s.cMul = s.cMul := sat16_of_le (by change s.cInt + s.cMul + s.cFp + s.cBr = _ at hsum; omega)
  have hFp : sat16 s.cFp = s.cFp := sat16_of_le (by change s.cInt + s.cMul + s.cFp + s.cBr = _ at hsum; omega)
  have hBr : sat16 s.cBr = s.cBr := sat16_of_le (by change s.cInt + s.cMul + s.cFp + s.cBr = _ at hsum; omega)
  have hLd : sat16 s.cLd = s.cLd := sat16_of_le (Nat.le_trans hok.loads_le hcount)
  have hSt : sat16 s.cSt = s.cSt := sat16_of_le (Nat.le_trans hok.stores_le hcount)
  refine ⟨s.finish bblAddr insns.length tbBytes, ?_, hok.uops, hord.mono, ?_, ?_, ?_, fun c hc => ?_⟩
  · rw [createDecodedBblInfo, hs]
    rfl
  · change sat16 s.cInt + sat16 s.cMul + sat16 s.cFp + sat16 s.cBr = _
    rw [hInt, hMul, hFp, hBr]
    exact hsum
  · exact hLd.trans hok.loads
  · exact hSt.trans hok.stores
  · change (if s.anyFpc = true then some s.fpc else none) = some c at hc
    split at hc
    · obtain rfl := Option.some.inj hc
      change total s.fpc.ins ≤ sat16 s.cFp ∧ total s.fpc.iops ≤ sat16 s.cInt + sat16 s.cMul
      rw [hFp, hInt, hMul]
      exact ⟨hok.fp, hok.int⟩
    · cases hc

theorem createDecodedBblInfo_sound_two : ([[0x01, 0xC8], [0x0F, 0x58, 0xC1]] : List (List UInt8)).length ≤ 65535 ∧
    ∃ bbl, createDecodedBblInfo 0 [[0x01, 0xC8], [0x0F, 0x58, 0xC1]] 5 = some bbl ∧ bbl.nInt + bbl.nMul + bbl.nFp +
      bbl.nBr = 2 := by
  obtain ⟨-, -, -, -, bbl, hbbl, -, -, hsum, -⟩ :=
    createDecodedBblInfo_sound 0 5 [[0x01, 0xC8], [0x0F, 0x58, 0xC1]] (by decide)
  exact ⟨by decide, bbl, hbbl, hsum⟩

/-- add eax, [rbx]: the loaded value goes through a temporary numbered above the architectural registers. -/
theorem temporary_above_last : ¬ ∀ (insns : List (List UInt8)) (bbl : BblInfo), insns.length ≤ 65535 →
    createDecodedBblInfo 0 insns 2 = some bbl →
      ∀ u ∈ bbl.uops, u.rs0 < regLast ∧ u.rs1 < regLast ∧ u.rd0 < regLast ∧ u.rd1 < regLast := by
  intro h
  have hlt := h [[0x03, 0x03]] _ (by decide) rfl (Decoded.loadUop { baseId := gprId 3 } 0 regLoadTemp) (by decide)
  exact absurd hlt.2.2.1 (by decide)

end Pimid.X86
