import Pimid.X86.Census

/-!
# What the decoder reads

Every read of the decoder is inside the instruction, so `decodeOne` has a value for every list of bytes; and the
register numbers it fills in are those of architectural registers.
-/

namespace Pimid.X86

/-! ## Reads -/

theorem rd_eq {b : List UInt8} {i : Nat} (hi : i < b.length) : ∃ c, rd b i = some c ∧ c < 256 := by
  refine ⟨b[i].toNat, ?_, b[i].toNat_lt⟩
  unfold rd
  rw [List.getElem?_eq_getElem hi]
  rfl

/-- The loop over the prefixes ends at the end of the bytes or before a byte that is no prefix. -/
theorem legacyPrefixes_eq {b : List UInt8} {fuel i : Nat} {p : Prefixes} (hfuel : b.length ≤ i + fuel) :
    ∃ i' p', legacyPrefixes b fuel i p = some (i', p') ∧
      (b.length ≤ i' ∨ ∃ c, rd b i' = some c ∧ p'.add c = none) := by
  induction fuel generalizing i p with
  | zero => exact ⟨i, p, rfl, Or.inl hfuel⟩
  | succ fuel ih =>
    unfold legacyPrefixes
    by_cases hi : i < b.length
    · obtain ⟨c, hc, -⟩ := rd_eq hi
      rw [if_pos hi, hc, Option.bind_some]
      cases hadd : p.add c with
      | some p' => exact ih (by omega)
      | none => exact ⟨i, p, rfl, Or.inr ⟨c, hc, hadd⟩⟩
    · rw [if_neg hi]
      exact ⟨i, p, rfl, Or.inl (by omega)⟩

/-- An opcode is a byte, and the third operand of a VEX form has four bits; the one-byte map has no VEX forms. -/
structure Opcode.Ok (o : Opcode) : Prop where
  op : o.op < 256
  vvvv : o.vvvv < 16
  one : o.map = .oneByte → o.vvvv = 0

/-- What a fetch returns is the end of the bytes or a well-formed opcode. -/
def Fetched.Ok : Fetched → Prop
  | .ended cls => cls = .nop ∨ cls = .generic
  | .opcode o => o.Ok

theorem fetchVex2_eq {b : List UInt8} {i : Nat} {p : Prefixes} (hi : i + 1 < b.length) :
    ∃ r, fetchVex2 b i p = some r ∧ r.Ok := by
  obtain ⟨v1, h1, -⟩ := rd_eq hi
  unfold fetchVex2
  rw [h1, Option.bind_some]
  by_cases hend : b.length ≤ i + 2
  · rw [if_pos hend]
    exact ⟨_, rfl, Or.inr rfl⟩
  · obtain ⟨op, hop, hlt⟩ := rd_eq (Nat.lt_of_not_le hend)
    rw [if_neg hend, hop, Option.bind_some]
    exact ⟨_, rfl, hlt, by dsimp only; omega, fun h => nomatch h⟩

theorem vexMap_ne (v1 : Nat) : vexMap v1 ≠ .oneByte := by
  unfold vexMap
  split
  · decide
  · split <;> decide

theorem fetchVex3_eq {b : List UInt8} {i : Nat} {p : Prefixes} (hi : i + 2 < b.length) :
    ∃ r, fetchVex3 b i p = some r ∧ r.Ok := by
  obtain ⟨v1, h1, -⟩ := rd_eq (b := b) (i := i + 1) (by omega)
  obtain ⟨v2, h2, -⟩ := rd_eq hi
  unfold fetchVex3
  rw [h1, Option.bind_some, h2, Option.bind_some]
  by_cases hend : b.length ≤ i + 3
  · rw [if_pos hend]
    exact ⟨_, rfl, Or.inr rfl⟩
  · obtain ⟨op, hop, hlt⟩ := rd_eq (Nat.lt_of_not_le hend)
    rw [if_neg hend, hop, Option.bind_some]
    exact ⟨_, rfl, hlt, by dsimp only; omega, fun h => absurd h (vexMap_ne v1)⟩

theorem plainOpcode_ok {next : Nat} {map : OpMap} {op rex : Nat} {p : Prefixes} (hop : op < 256) :
    (plainOpcode next map op rex p).Ok := ⟨hop, Nat.zero_lt_succ 15, fun _ => rfl⟩

theorem fetchMap_eq (b : List UInt8) (i rex : Nat) (p : Prefixes) : ∃ r, fetchMap b i rex p = some r ∧ r.Ok := by
  unfold fetchMap
  by_cases h0 : b.length ≤ i
  · rw [if_pos h0]
    exact ⟨_, rfl, Or.inr rfl⟩
  obtain ⟨c, hc, hlt⟩ := rd_eq (Nat.lt_of_not_le h0)
  rw [if_neg h0, hc, Option.bind_some]
  by_cases hesc : c = 0x0F
  · rw [if_pos hesc]
    by_cases h1 : b.length ≤ i + 1
    · rw [if_pos h1]
      exact ⟨_, rfl, Or.inr rfl⟩
    obtain ⟨c1, hc1, hlt1⟩ := rd_eq (Nat.lt_of_not_le h1)
    rw [if_neg h1, hc1, Option.bind_some]
    by_cases hesc2 : c1 = 0x38 ∨ c1 = 0x3A
    · rw [if_pos hesc2]
      by_cases h2 : b.length ≤ i + 2
      · rw [if_pos h2]
        exact ⟨_, rfl, Or.inr rfl⟩
      obtain ⟨op, hop, hlt2⟩ := rd_eq (Nat.lt_of_not_le h2)
      rw [if_neg h2, hop, Option.bind_some]
      exact ⟨_, rfl, plainOpcode_ok hlt2⟩
    · rw [if_neg hesc2]
      exact ⟨_, rfl, plainOpcode_ok hlt1⟩
  · rw [if_neg hesc]
    exact ⟨_, rfl, plainOpcode_ok hlt⟩

theorem fetch_eq (b : List UInt8) : ∃ r, fetch b = some r ∧ r.Ok := by
  obtain ⟨i, p, hp, -⟩ := @legacyPrefixes_eq b b.length 0 {} (by omega)
  unfold fetch
  rw [hp, Option.bind_some]
  dsimp only
  by_cases hend : b.length ≤ i
  · rw [if_pos hend]
    exact ⟨_, rfl, Or.inl rfl⟩
  obtain ⟨c, hc, -⟩ := rd_eq (Nat.lt_of_not_le hend)
  rw [if_neg hend, hc, Option.bind_some]
  by_cases h2 : c = 0xC5 ∧ i + 1 < b.length
  · rw [if_pos h2]
    exact fetchVex2_eq h2.2
  rw [if_neg h2]
  by_cases h3 : c = 0xC4 ∧ i + 2 < b.length
  · rw [if_pos h3]
    exact fetchVex3_eq h3.2
  rw [if_neg h3]
  unfold fetchRex
  rw [if_pos (Nat.lt_of_not_le hend), hc, Option.bind_some]
  by_cases hrex : 0x40 ≤ c ∧ c ≤ 0x4F
  · rw [if_pos hrex]
    exact fetchMap_eq b _ _ p
  · rw [if_neg hrex]
    exact fetchMap_eq b _ _ p

/-! ## Register numbers -/

/-- The numbers of the general registers. -/
def IsGpr (r : Nat) : Prop := 1 ≤ r ∧ r ≤ 16

/-- The numbers of the vector registers. -/
def IsVec (r : Nat) : Prop := 64 ≤ r ∧ r ≤ 95

/-- No register, or an architectural one. -/
def Named (r : Nat) : Prop := r = sbNone ∨ IsGpr r ∨ IsVec r

/-- No register, or a general one, as addresses have. -/
def NamedGpr (r : Nat) : Prop := r = sbNone ∨ IsGpr r

theorem field_lt (bits : Nat) (ext : Bool) : field bits ext < 16 := by
  unfold field
  split <;> omega

theorem isGpr_gprId {r : Nat} (hr : r < 16) : IsGpr (gprId r) := by
  unfold IsGpr gprId sbGprBase
  omega

theorem isVec_xmmId (r : Nat) : IsVec (xmmId r) := by
  unfold IsVec xmmId sbXmmBase
  omega

theorem RegFile.named_id (rf : RegFile) {r : Nat} (hr : r < 16) : Named (rf.id r) := by
  cases rf with
  | gpr => exact Or.inr (Or.inl (isGpr_gprId hr))
  | vec => exact Or.inr (Or.inr (isVec_xmmId r))

structure Operands.Ok (x : Operands) : Prop where
  reg : x.reg < 16
  rm : x.rm < 16
  base : NamedGpr x.baseId
  index : NamedGpr x.indexId
  mem : x.memOperand = false → x.baseId = sbNone ∧ x.indexId = sbNone

theorem operands_eq (b : List UInt8) (o : Opcode) : ∃ x, operands b o = some x ∧ x.Ok ∧
    (o.hasModrm = false → x.indexId = sbNone) := by
  unfold operands
  by_cases hm : o.hasModrm ∧ o.next < b.length
  · obtain ⟨m, hrd, -⟩ := rd_eq hm.2
    have hnone {x : Operands} : o.hasModrm = false → x.indexId = sbNone := by
      intro h
      rw [hm.1] at h
      cases h
    rw [if_pos hm, hrd, Option.bind_some]
    dsimp only
    by_cases hmem : m / 64 ≠ 3
    · rw [if_pos hmem]
      have hbase : NamedGpr (gprId (field m o.rexB)) := Or.inr (isGpr_gprId (field_lt _ _))
      by_cases hsib : m % 8 = 4
      · rw [if_pos hsib]
        by_cases hlen : o.next + 1 < b.length
        · obtain ⟨s, hs, -⟩ := rd_eq hlen
          rw [if_pos hlen, hs, Option.bind_some]
          refine ⟨_, rfl, ⟨field_lt _ _, field_lt _ _, ?_, ?_, ?_⟩, hnone⟩
          · unfold sibOperands
            dsimp only
            split
            · exact Or.inl rfl
            · exact Or.inr (isGpr_gprId (field_lt _ _))
          · unfold sibOperands
            dsimp only
            split
            · exact Or.inr (isGpr_gprId (field_lt _ _))
            · exact Or.inl rfl
          · intro hno
            exact absurd (of_decide_eq_false hno) (not_not_intro hmem)
        · rw [if_neg hlen]
          exact ⟨_, rfl, ⟨field_lt _ _, field_lt _ _, Or.inl rfl, Or.inl rfl, fun _ => ⟨rfl, rfl⟩⟩, hnone⟩
      · rw [if_neg hsib]
        by_cases hrip : m / 64 = 0 ∧ m % 8 = 5
        · rw [if_pos hrip]
          exact ⟨_, rfl, ⟨field_lt _ _, field_lt _ _, Or.inl rfl, Or.inl rfl, fun _ => ⟨rfl, rfl⟩⟩, hnone⟩
        · rw [if_neg hrip]
          refine ⟨_, rfl, ⟨field_lt _ _, field_lt _ _, hbase, Or.inl rfl, ?_⟩, hnone⟩
          intro hno
          exact absurd (of_decide_eq_false hno) (not_not_intro hmem)
    · rw [if_neg hmem]
      exact ⟨_, rfl, ⟨field_lt _ _, field_lt _ _, Or.inl rfl, Or.inl rfl, fun _ => ⟨rfl, rfl⟩⟩, hnone⟩
  · rw [if_neg hm]
    exact ⟨_, rfl, ⟨Nat.zero_lt_succ 15, Nat.zero_lt_succ 15, Or.inl rfl, Or.inl rfl, fun _ => ⟨rfl, rfl⟩⟩, fun _ => rfl⟩

/-- An opcode and operands as the bytes of an instruction give them. -/
structure Front.Ok (f : Front) : Prop where
  o : f.o.Ok
  x : f.x.Ok
  index : f.o.hasModrm = false → f.x.indexId = sbNone

/-- The bytes give this opcode and these operands. -/
def Front.Of (f : Front) (b : List UInt8) : Prop := fetch b = some (.opcode f.o) ∧ operands b f.o = some f.x

/-- **Every read is inside the instruction**: the decoder has a value for every list of bytes, the end of the
bytes or what the tables say of a well-formed opcode. -/
theorem decodeOne_eq (b : List UInt8) :
    (∃ cls, (cls = .nop ∨ cls = .generic) ∧ fetch b = some (.ended cls) ∧ decodeOne b = some { cls := cls }) ∨
      ∃ f : Front, f.Ok ∧ f.Of b ∧ decodeOne b = some f.classify := by
  obtain ⟨r, hr, hok⟩ := fetch_eq b
  unfold decodeOne
  rw [hr, Option.bind_some]
  cases r with
  | ended cls => exact Or.inl ⟨cls, hok, rfl, rfl⟩
  | opcode o =>
    obtain ⟨x, hx, hxok, hnone⟩ := operands_eq b o
    refine Or.inr ⟨⟨o, x⟩, ⟨hok, hxok, hnone⟩, ⟨hr, hx⟩, ?_⟩
    dsimp only
    rw [hx]
    rfl

end Pimid.X86
