import Pimid.X86.BlockCounts
import Mathlib.Tactic.FinCases

/-!
# Floating-point and packed-integer instructions in the census

x87 is floating point, and packed-integer instructions are not; which of them the counters take for that.
-/

namespace Pimid.X86

namespace Front

variable (f : Front)

/-- An x87 instruction. -/
def IsX87 : Prop := f.o.map = .oneByte ∧ 0xD8 ≤ f.o.op ∧ f.o.op ≤ 0xDF

/-- Packed averages, insertion, extraction, and the mask of the sign bits. -/
def packedOther (op : Nat) : Prop := op ∈ [0xE0, 0xE3, 0xC4, 0xC5, 0xD7]

/-- A packed-integer instruction of the 0F map that is no pure move. -/
def IsPackedInt : Prop :=
  f.o.map = .map0F ∧ (packedLogic f.o.op ∨ packedAlu f.o.op ∨ packedMul f.o.op ∨ packedShift f.o.op ∨
    packedShiftImm f.o.op ∨ packedShuffle f.o.op ∨ packedOther f.o.op)

/-- The packed-integer instructions without an integer marker. -/
def Unmarked : Prop :=
  f.o.map = .map0F ∧ (packedShift f.o.op ∨ packedShiftImm f.o.op ∨ packedShuffle f.o.op)

end Front

/-- x87 is the last category of the census. -/
def x87Cat : Nat := 8

/-- An instruction is counted as floating point and as x87. -/
def Building.CountsX87 (s : Building) (d : Decoded) : Prop :=
  (s.add d).cFp = s.cFp + 1 ∧ (s.add d).fpc.ins x87Cat = s.fpc.ins x87Cat + 1

/-- An instruction is counted as integer or multiplication, and not as floating point. -/
def Building.CountsInt (s : Building) (d : Decoded) : Prop :=
  ((s.add d).cInt = s.cInt + 1 ∨ (s.add d).cMul = s.cMul + 1) ∧ (s.add d).cFp = s.cFp

namespace Front

variable {f : Front}

/-! ## The class of an entry -/

theorem oneByte_bucket (hop : 0xD8 ≤ f.o.op ∧ f.o.op ≤ 0xDF) : f.oneByte.bucket = .int := by
  unfold oneByte
  dsimp only
  repeat' with_reducible refine iteInduction (motive := fun d : Decoded => d.bucket = .int) (fun _ => ?_) fun _ => ?_
  all_goals first
    | omega
    | rfl

theorem twoByte_bucket {ops : List Nat} {c : Bucket}
    (hops : ∀ op ∈ ops, ∀ g : Front, ({ g with o := { g.o with op := op } } : Front).twoByte.bucket = c)
    (hop : f.o.op ∈ ops) : f.twoByte.bucket = c := hops _ hop f

theorem twoByte_int (hop : packedLogic f.o.op ∨ packedAlu f.o.op ∨ packedOther f.o.op) :
    f.twoByte.bucket = .int := by
  rcases hop with hop | hop | hop
  all_goals
    refine twoByte_bucket (fun op hmem g => ?_) hop
    fin_cases hmem <;> rfl

theorem twoByte_mul (hop : packedMul f.o.op) : f.twoByte.bucket = .mul := by
  refine twoByte_bucket (fun op hmem g => ?_) hop
  fin_cases hmem <;> rfl

theorem twoByte_fp (hop : packedShift f.o.op ∨ packedShiftImm f.o.op ∨ packedShuffle f.o.op) :
    f.twoByte.bucket = .fp := by
  rcases hop with hop | hop | hop
  all_goals
    refine twoByte_bucket (fun op hmem g => ?_) hop
    fin_cases hmem <;> rfl

end Front

/-! ## What is counted -/

namespace Building

variable {s : Building} {d : Decoded}

theorem add_cFp : (s.add d).cFp = s.cFp + if d.bucket = .fp then 1 else 0 := congrArg Counts.cFp add_counts

theorem add_cInt : (s.add d).cInt = s.cInt + if d.bucket = .int then 1 else 0 := congrArg Counts.cInt add_counts

theorem add_cMul : (s.add d).cMul = s.cMul + if d.bucket = .mul then 1 else 0 := congrArg Counts.cMul add_counts

/-- An instruction is counted as integer work exactly if that is its class. -/
theorem countsInt_iff : s.CountsInt d ↔ d.bucket = .int ∨ d.bucket = .mul := by
  unfold CountsInt
  rw [add_cFp, add_cInt, add_cMul]
  cases d.bucket <;> simp

theorem not_countsX87 (h : d.bucket = .int) : ¬ s.CountsX87 d := by
  intro hc
  have hfp := hc.1
  rw [add_cFp, h] at hfp
  simp at hfp

end Building

/-- **Where the census is right about an instruction**: it is no x87 instruction, since these are left to the default
of the one-byte map and counted as integer; and if it is a packed-integer instruction, it is one with a marker, which
the shifts, unpack, pack and shuffle are not. -/
theorem counted_iff (b : List UInt8) (f : Front) (s : Building) (hf : f.Of b) :
    ∃ d, decodeOne b = some d ∧
      ((f.IsX87 → s.CountsX87 d) ∧ (f.IsPackedInt → s.CountsInt d) ↔ ¬ f.IsX87 ∧ ¬ f.Unmarked) := by
  have hdec : decodeOne b = some f.classify := by
    unfold decodeOne
    rw [hf.1, Option.bind_some]
    dsimp only
    rw [hf.2]
    rfl
  refine ⟨_, hdec, ⟨fun h => ⟨fun hx => ?_, fun hu => ?_⟩, fun h => ⟨fun hx => absurd hx h.1, fun hp => ?_⟩⟩⟩
  · have hcls : f.classify = f.oneByte := if_pos hx.1
    refine Building.not_countsX87 ?_ (h.1 hx)
    rw [hcls]
    exact Front.oneByte_bucket hx.2
  · have hcls : f.classify = f.twoByte := by
      unfold Front.classify
      rw [hu.1, if_neg (by decide), if_pos rfl]
    have hp : f.IsPackedInt :=
      ⟨hu.1, Or.inr (Or.inr (Or.inr (hu.2.imp_right fun h => h.imp_right Or.inl)))⟩
    have hcount := Building.countsInt_iff.mp (h.2 hp)
    rw [hcls, Front.twoByte_fp hu.2] at hcount
    simp at hcount
  · have hcls : f.classify = f.twoByte := by
      unfold Front.classify
      rw [hp.1, if_neg (by decide), if_pos rfl]
    rw [Building.countsInt_iff, hcls]
    rcases hp.2 with hl | ha | hm | hs | hi | hu | ho
    · exact Or.inl (Front.twoByte_int (Or.inl hl))
    · exact Or.inl (Front.twoByte_int (Or.inr (Or.inl ha)))
    · exact Or.inr (Front.twoByte_mul hm)
    · exact absurd ⟨hp.1, Or.inl hs⟩ h.2
    · exact absurd ⟨hp.1, Or.inr (Or.inl hi)⟩ h.2
    · exact absurd ⟨hp.1, Or.inr (Or.inr hu)⟩ h.2
    · exact Or.inl (Front.twoByte_int (Or.inr (Or.inr ho)))

/-- The opcode and operands of fadd st, st(1). -/
def faddFront : Front where
  o := { next := 1, map := .oneByte, op := 0xD8, rex := 0, vex := false, vvvv := 0, vexW := false, vexL := false,
         pfx := {} }
  x := { reg := 0, rm := 1 }

/-- Those of paddb xmm0, xmm1. -/
def paddbFront : Front where
  o := { next := 3, map := .map0F, op := 0xFC, rex := 0, vex := false, vvvv := 0, vexW := false, vexL := false,
         pfx := { p66 := true } }
  x := { reg := 0, rm := 1 }

theorem counted_iff_paddb : ∃ d, decodeOne [0x66, 0x0F, 0xFC, 0xC1] = some d ∧ Building.CountsInt {} d := by
  obtain ⟨d, hd, hiff⟩ := counted_iff [0x66, 0x0F, 0xFC, 0xC1] paddbFront {} ⟨rfl, rfl⟩
  have h : ¬ paddbFront.IsX87 ∧ ¬ paddbFront.Unmarked := by
    refine ⟨(fun h => nomatch h.1), fun h => ?_⟩
    exact absurd h.2 (by decide)
  exact ⟨d, hd, (hiff.mpr h).2 ⟨rfl, Or.inr (Or.inl (by decide))⟩⟩

/-- fadd st, st(1) is counted as an integer instruction, and pslld xmm0, 4 as floating point. -/
theorem fadd_counted_as_int :
    (∃ d, decodeOne [0xD8, 0xC1] = some d ∧ faddFront.Of [0xD8, 0xC1] ∧ faddFront.IsX87 ∧
      (Building.add {} d).cFp = 0 ∧ (Building.add {} d).cInt = 1) ∧
    ¬ ∀ (b : List UInt8) (f : Front) (s : Building) (d : Decoded), f.Of b → decodeOne b = some d →
      (f.IsX87 → s.CountsX87 d) ∧ (f.IsPackedInt → s.CountsInt d) := by
  have hof : faddFront.Of [0xD8, 0xC1] := ⟨rfl, rfl⟩
  have hx : faddFront.IsX87 := ⟨rfl, by decide, by decide⟩
  refine ⟨⟨_, rfl, hof, hx, rfl, rfl⟩, fun h => ?_⟩
  have hc := (h [0xD8, 0xC1] faddFront {} _ hof rfl).1 hx
  exact absurd hc.1 (by decide)

end Pimid.X86
