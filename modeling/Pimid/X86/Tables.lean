import Pimid.X86.Reads

/-!
# What every entry of the opcode tables keeps

Whatever the opcode, the registers of a decoded instruction are architectural ones, and it has a floating-point
category only if its class is counted as floating point. The tables are gone through once, entry by entry.
-/

namespace Pimid.X86

namespace Decoded

variable (d : Decoded)

/-- The register fields name architectural registers, the address fields general ones. -/
structure Ids : Prop where
  reg : Named d.regId
  rm : Named d.rmRegId
  base : NamedGpr d.baseId
  index : NamedGpr d.indexId
  vvvv : Named d.vvvvId

/-- A category of the floating-point census belongs to an instruction counted as floating point. -/
structure FpFits : Prop where
  cat : d.fpCat1 ≤ fpCensusCats
  bucket : d.fpCat1 ≠ 0 → d.vecInt = false → d.bucket = .fp

end Decoded

theorem named_gprId {r : Nat} (hr : r < 16) : Named (gprId r) := Or.inr (Or.inl (isGpr_gprId hr))

/-! ## Registers -/

namespace Front

variable (f : Front)

section

variable {f : Front} (hx : f.x.Ok)

include hx

theorem start_ids : f.start.Ids where
  reg := Or.inl rfl
  rm := Or.inl rfl
  base := hx.base
  index := hx.index
  vvvv := by
    unfold start
    dsimp only
    split
    · exact Or.inr (Or.inr (isVec_xmmId _))
    · exact Or.inl rfl

theorem setRegIds_ids (rfReg rfRm : RegFile) : (f.setRegIds rfReg rfRm).Ids where
  reg := rfReg.named_id hx.reg
  rm := by
    unfold setRegIds
    dsimp only
    split
    · exact Or.inl rfl
    · exact rfRm.named_id hx.rm
  base := hx.base
  index := hx.index
  vvvv := (start_ids hx).vvvv

theorem setRm_ids (rfRm : RegFile) : (f.setRm rfRm).Ids where
  reg := Or.inl rfl
  rm := by
    unfold setRm
    dsimp only
    split
    · exact Or.inl rfl
    · exact rfRm.named_id hx.rm
  base := hx.base
  index := hx.index
  vvvv := (start_ids hx).vvvv

theorem arith_ids : f.arith.Ids := by
  have h := setRegIds_ids hx .gpr .gpr
  unfold arith
  dsimp only
  refine iteInduction (fun _ => ?_) fun _ => iteInduction (fun _ => ?_) fun _ => ?_
  · exact ⟨named_gprId (Nat.zero_lt_succ 15), Or.inl rfl, h.base, h.index, h.vvvv⟩
  · exact ⟨h.reg, h.rm, h.base, h.index, h.vvvv⟩
  · exact ⟨h.reg, h.rm, h.base, h.index, h.vvvv⟩

theorem group3_ids : f.group3.Ids := by
  have h := setRegIds_ids hx .gpr .gpr
  unfold group3
  dsimp only
  refine iteInduction (fun _ => ?_) fun _ => iteInduction (fun _ => ?_) fun _ => ?_
  · exact ⟨h.reg, h.rm, h.base, h.index, h.vvvv⟩
  · exact ⟨h.reg, h.rm, h.base, h.index, h.vvvv⟩
  · exact ⟨named_gprId (Nat.zero_lt_succ 15), h.rm, h.base, h.index, h.vvvv⟩

theorem group5_ids : f.group5.Ids := by
  have h := setRegIds_ids hx .gpr .gpr
  unfold group5
  dsimp only
  refine iteInduction (fun _ => ?_) fun _ => iteInduction (fun _ => ?_) fun _ => ?_
  all_goals exact ⟨h.reg, h.rm, h.base, h.index, h.vvvv⟩

theorem moveOpReg_ids (src : Bool) (mem : MemRole) : (f.moveOpReg src mem).Ids :=
  have h := start_ids hx
  ⟨named_gprId (field_lt _ _), h.rm, h.base, h.index, h.vvvv⟩

theorem intoReg_ids (rfReg rfRm : RegFile) (cls : OpClass) (regSrc : Bool) : (f.intoReg rfReg rfRm cls regSrc).Ids :=
  have h := setRegIds_ids hx rfReg rfRm
  ⟨h.reg, h.rm, h.base, h.index, h.vvvv⟩

theorem moveTo_ids (rfReg rfRm : RegFile) (cls : OpClass) (toRm : Bool) : (f.moveTo rfReg rfRm cls toRm).Ids :=
  have h := setRegIds_ids hx rfReg rfRm
  ⟨h.reg, h.rm, h.base, h.index, h.vvvv⟩

theorem oneByte_ids : f.oneByte.Ids := by
  have h := start_ids hx
  have hregs := setRegIds_ids hx .gpr .gpr
  have hrm := setRm_ids hx .gpr
  have hzero : Named (gprId 0) := named_gprId (Nat.zero_lt_succ 15)
  unfold oneByte
  dsimp only
  repeat' with_reducible refine iteInduction (fun _ => ?_) fun _ => ?_
  all_goals first
    | exact arith_ids hx
    | exact group3_ids hx
    | exact group5_ids hx
    | exact moveTo_ids hx _ _ _ _
    | exact moveOpReg_ids hx _ _
    | exact ⟨h.reg, h.rm, h.base, h.index, h.vvvv⟩
    | exact ⟨hregs.reg, hregs.rm, hregs.base, hregs.index, hregs.vvvv⟩
    | exact ⟨hrm.reg, hrm.rm, hrm.base, hrm.index, hrm.vvvv⟩
    | exact ⟨hzero, h.rm, h.base, h.index, h.vvvv⟩
    | exact ⟨named_gprId (field_lt _ _), hzero, h.base, h.index, h.vvvv⟩
    | exact ⟨named_gprId (by decide), h.rm, h.base, h.index, h.vvvv⟩

theorem twoByte_ids : f.twoByte.Ids := by
  have h := start_ids hx
  have hregs := setRegIds_ids hx
  have hrm := setRm_ids hx
  unfold twoByte
  dsimp only
  repeat' with_reducible refine iteInduction (fun _ => ?_) fun _ => ?_
  all_goals first
    | exact intoReg_ids hx _ _ _ _
    | exact moveTo_ids hx _ _ _ _
    | exact ⟨h.reg, h.rm, h.base, h.index, h.vvvv⟩
    | exact ⟨(hregs .gpr .gpr).reg, (hregs .gpr .gpr).rm, h.base, h.index, h.vvvv⟩
    | exact ⟨(hregs .vec .vec).reg, (hregs .vec .vec).rm, h.base, h.index, h.vvvv⟩
    | exact ⟨(hregs .gpr .vec).reg, (hregs .gpr .vec).rm, h.base, h.index, h.vvvv⟩
    | exact ⟨(hregs .vec .gpr).reg, (hregs .vec .gpr).rm, h.base, h.index, h.vvvv⟩
    | exact ⟨(hrm .gpr).reg, (hrm .gpr).rm, h.base, h.index, h.vvvv⟩
    | exact ⟨(hrm .vec).reg, (hrm .vec).rm, h.base, h.index, h.vvvv⟩

/-- A third operand read as a general register is one: its four bits are the register's. -/
theorem bitDeposit_ids (ho : f.o.Ok) : f.bitDeposit.Ids := by
  have h := intoReg_ids hx .gpr .gpr .alu false
  refine ⟨h.reg, h.rm, h.base, h.index, ?_⟩
  have hv := ho.vvvv
  change Named (if f.start.vvvvId ≠ 0 then gprId (f.start.vvvvId - sbXmmBase) else f.start.vvvvId)
  split
  · apply named_gprId
    unfold start xmmId sbXmmBase sbNone
    dsimp only
    split <;> omega
  · exact h.vvvv

theorem classify_ids (ho : f.o.Ok) : f.classify.Ids := by
  have h := start_ids hx
  have hregs := setRegIds_ids hx .vec .vec
  unfold classify threeByte38 threeByte3A
  dsimp only
  repeat' with_reducible refine iteInduction (fun _ => ?_) fun _ => ?_
  all_goals first
    | exact oneByte_ids hx
    | exact twoByte_ids hx
    | exact bitDeposit_ids hx ho
    | exact intoReg_ids hx _ _ _ _
    | exact moveTo_ids hx _ _ _ _
    | exact ⟨h.reg, h.rm, h.base, h.index, h.vvvv⟩
    | exact ⟨hregs.reg, hregs.rm, hregs.base, hregs.index, hregs.vvvv⟩

end

/-! ## Census categories -/

section

variable {f : Front}

theorem fpFits_of_zero {d : Decoded} (h : d.fpCat1 = 0) : d.FpFits :=
  ⟨by rw [h]; exact Nat.zero_le _, fun hne => absurd h hne⟩

theorem sseCat1_le (kind : Nat) : f.sseCat1 kind ≤ 8 := by
  unfold sseCat1
  split_ifs <;> omega

theorem sseArith_fpFits {cls : OpClass} (hcls : cls = .fadd ∨ cls = .fmul ∨ cls = .fdiv) (regSrc : Bool) (kind : Nat) :
    (f.sseArith cls regSrc kind).FpFits where
  cat := Nat.le_succ_of_le (sseCat1_le kind)
  bucket := by
    intro _ _
    rcases hcls with rfl | rfl | rfl <;> rfl

theorem arith_fpCat : f.arith.fpCat1 = 0 := by
  unfold arith
  dsimp only
  repeat' with_reducible refine iteInduction (motive := fun d : Decoded => d.fpCat1 = 0) (fun _ => ?_) fun _ => ?_
  all_goals rfl

theorem group3_fpCat : f.group3.fpCat1 = 0 := by
  unfold group3
  dsimp only
  repeat' with_reducible refine iteInduction (motive := fun d : Decoded => d.fpCat1 = 0) (fun _ => ?_) fun _ => ?_
  all_goals rfl

theorem group5_fpCat : f.group5.fpCat1 = 0 := by
  unfold group5
  dsimp only
  repeat' with_reducible refine iteInduction (motive := fun d : Decoded => d.fpCat1 = 0) (fun _ => ?_) fun _ => ?_
  all_goals rfl

/-- The one-byte table has no category: its default comes before the x87 entry. -/
theorem oneByte_fpCat : f.oneByte.fpCat1 = 0 := by
  unfold oneByte
  dsimp only
  repeat' with_reducible refine iteInduction (motive := fun d : Decoded => d.fpCat1 = 0) (fun _ => ?_) fun _ => ?_
  all_goals first
    | exact arith_fpCat
    | exact group3_fpCat
    | exact group5_fpCat
    | rfl

theorem classify_fpFits : f.classify.FpFits := by
  unfold classify twoByte threeByte38 threeByte3A
  dsimp only
  repeat' with_reducible refine iteInduction (fun _ => ?_) fun _ => ?_
  all_goals first
    | exact fpFits_of_zero oneByte_fpCat
    | exact sseArith_fpFits (by decide) _ _
    | exact fpFits_of_zero rfl
    | exact ⟨by dsimp only; unfold fpCensusCats; split <;> omega, fun _ _ => rfl⟩
    | exact ⟨Nat.le_refl _, fun _ _ => rfl⟩

end

end Front

end Pimid.X86
