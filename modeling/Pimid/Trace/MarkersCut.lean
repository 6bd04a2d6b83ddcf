import Pimid.Trace.Markers

/-!
# Markers and the cutting of the code

An instruction's marker is that of the stream exactly when the slot holds what it should. What the
slot holds at an instruction depends on how the code is cut, so this says when the cutting does not
show.
-/

namespace Pimid.Trace

/-! ## Splits -/

/-- What holds at every place of a list with one more element. -/
theorem forall_split_concat {α : Type} {l : List α} {x : α} {P : List α → α → Prop} :
    (∀ u y v, l ++ [x] = u ++ y :: v → P u y) ↔ (∀ u y v, l = u ++ y :: v → P u y) ∧ P l x := by
  constructor
  · intro h
    refine ⟨fun u y v hl => h u y (v ++ [x]) ?_, h l x [] rfl⟩
    rw [hl, List.append_assoc]
    rfl
  · rintro ⟨h, hx⟩ u y v hl
    rcases List.eq_nil_or_concat v with rfl | ⟨v', z, rfl⟩
    · obtain ⟨rfl, h1⟩ := List.append_inj' hl rfl
      obtain rfl := List.singleton_inj.mp h1
      exact hx
    · rw [List.concat_eq_append, ← List.cons_append, ← List.append_assoc] at hl
      exact h u y v' (List.append_inj' hl rfl).1

/-! ## Opcodes -/

theorem markerOf_inj {a b : Nat} {m : Marker} (ha : markerOf a = some m) (hb : markerOf b = some m) : a = b := by
  unfold markerOf at ha hb
  split_ifs at ha hb <;> first | omega | (rw [← hb] at ha; cases ha)

theorem marker_lt {a : Nat} {m : Marker} (h : markerOf a = some m) : 0 < a ∧ a < 2 ^ 31 := by
  unfold markerOf at h
  split_ifs at h <;> omega

theorem leNat_append (a b : List (BitVec 8)) : leNat (a ++ b) = leNat a + 256 ^ a.length * leNat b := by
  induction a with
  | nil => simp [leNat]
  | cons x a ih =>
    rw [List.cons_append, leNat, leNat, ih, List.length_cons, Nat.pow_succ, Nat.mul_add, Nat.mul_comm (256 ^ a.length) 256,
      Nat.mul_assoc, Nat.add_assoc]

/-- A `mov` of a marker's opcode is read as that opcode. -/
theorem magicOp_of_loaded {insn : Insn} {v : Nat} {m : Marker} (h : rcxLoaded insn = some v) (hm : markerOf v = some m) :
    magicOp insn = v := by
  have hlt := marker_lt hm
  unfold rcxLoaded at h
  unfold magicOp
  split at h
  · next hc =>
    obtain rfl := Option.some.inj h
    rw [if_pos hc, List.take_of_length_le (by rw [List.length_drop]; omega)]
  · next hc =>
    rw [if_neg hc]
    split at h
    · next hc =>
      rw [if_pos hc, List.take_of_length_le (by rw [List.length_drop]; omega)]
      have h := Option.some.inj h
      split at h
      · exact h
      · omega
    · next hc =>
      rw [if_neg hc]
      split at h
      · next hc =>
        rw [if_pos hc]
        obtain rfl := Option.some.inj h
        have hsplit := leNat_append ((insn.drop 2).take 4) ((insn.drop 2).drop 4)
        rw [List.take_append_drop, List.length_take, List.length_drop, hc.1, show min 4 (10 - 2) = 4 from rfl] at hsplit
        rcases Nat.eq_zero_or_pos (leNat ((insn.drop 2).drop 4)) with h0 | h0
        · rw [hsplit, h0, Nat.mul_zero, Nat.add_zero]
        · omega
      · cases h

theorem magicOp_xchg {insn : Insn} (h : isXchg insn = true) : magicOp insn = 0 := by
  rw [show insn = [0x48#8, 0x87#8, 0xc9#8] from beq_iff_eq.mp h]
  rfl

theorem lastOp_concat (u : List Insn) (x : Insn) : lastOp (u ++ [x]) = magicOp x := by
  unfold lastOp
  rw [List.getLast?_concat]
  rfl

theorem markers_concat (before : Option Insn) (u : List Insn) (x : Insn) :
    markers before (u ++ [x]) = markers before u ++ [if isXchg x then markerAfter (u.getLast?.or before) else none] := by
  induction u generalizing before with
  | nil => rfl
  | cons y u ih =>
    rw [List.cons_append, markers, markers, ih, List.cons_append]
    congr 3
    cases u with
    | nil => rfl
    | cons z u => rw [List.getLast?_cons_cons]; cases h : (z :: u).getLast? <;> simp_all

theorem markers_length (before : Option Insn) (u : List Insn) : (markers before u).length = u.length := by
  induction u generalizing before with
  | nil => rfl
  | cons y u ih => rw [markers, List.length_cons, List.length_cons, ih]

theorem markers_append (before : Option Insn) (u v : List Insn) :
    markers before (u ++ v) = markers before u ++ markers (u.getLast?.or before) v := by
  induction v using List.reverseRecOn with
  | nil => rw [List.append_nil, markers, List.append_nil]
  | append_singleton v x ih =>
    rw [← List.append_assoc, markers_concat, markers_concat, ih, List.append_assoc]
    congr 4
    rw [List.getLast?_append]
    cases v.getLast? <;> rfl

/-! ## The translation -/

variable {vcpu slot : Nat} {before : Option Insn} {u tb : List Insn}

theorem translation_concat (u : List Insn) (x : Insn) :
    (u ++ [x]).foldl Translation.insn {} = (u.foldl Translation.insn {}).insn x := by
  rw [List.foldl_append]
  rfl

theorem prevMagicOp_eq (u : List Insn) : (u.foldl Translation.insn {}).prevMagicOp = lastOp u := by
  induction u using List.reverseRecOn with
  | nil => rfl
  | append_singleton u x _ =>
    rw [translation_concat, lastOp_concat, Translation.insn]
    split
    · next hx => exact (magicOp_xchg hx).symm
    · rfl

/-- The callback of an instruction behind `u`, the one at the end of a block apart. -/
def callbackAfter (u : List Insn) (x : Insn) : Option Callback :=
  if isXchg x then some (if (markerOf (lastOp u)).isSome then .magicInsn (lastOp u) else .xchgPending) else none

theorem callbacks_concat (u : List Insn) (x : Insn) :
    ((u ++ [x]).foldl Translation.insn {}).callbacks = (u.foldl Translation.insn {}).callbacks ++ [callbackAfter u x] := by
  rw [translation_concat, Translation.insn, callbackAfter, prevMagicOp_eq]
  split <;> rfl

theorem slotIn_concat (slot : Nat) (u : List Insn) (x : Insn) :
    slotIn slot (u ++ [x]) = if isXchg x ∧ Unpaired u then 0 else slotIn slot u := by
  have hget {k : Nat} (hk : k < u.length) : (u ++ [x]).getD k [] = u.getD k [] ∧ (u ++ [x]).take k = u.take k := by
    refine ⟨?_, List.take_append_of_le_length (by omega)⟩
    rw [List.getD_eq_getElem?_getD, List.getElem?_append_left hk, List.getD_eq_getElem?_getD]
  have hlast : (u ++ [x]).getD u.length [] = x ∧ (u ++ [x]).take u.length = u := by
    refine ⟨?_, List.take_left⟩
    rw [List.getD_eq_getElem?_getD, List.getElem?_concat_length]
    rfl
  unfold slotIn
  by_cases hx : isXchg x = true ∧ Unpaired u
  · rw [if_pos hx, if_pos]
    refine ⟨u.length, by rw [List.length_append]; exact Nat.lt_succ_self _, ?_⟩
    rw [hlast.1, hlast.2]
    exact hx
  · rw [if_neg hx]
    refine if_congr ⟨?_, ?_⟩ rfl rfl
    · rintro ⟨k, hk, h⟩
      rw [List.length_append, List.length_singleton] at hk
      by_cases hku : k < u.length
      · rw [(hget hku).1, (hget hku).2] at h
        exact ⟨k, hku, h⟩
      · obtain rfl : k = u.length := by omega
        rw [hlast.1, hlast.2] at h
        exact absurd h hx
    · rintro ⟨k, hk, h⟩
      refine ⟨k, by rw [List.length_append]; omega, ?_⟩
      rw [(hget hk).1, (hget hk).2]
      exact h

/-! ## One instruction -/

/-- The slot as the vCPU has it. -/
def slotOf (vcpu slot : Nat) : Nat := if vcpu < MAX_VCPUS then slot else 0

/-- What the slot holds where a block begins, if the instruction before is a `mov` of an opcode. -/
def Stored (slot : Nat) (before : Option Insn) : Prop := ∀ x, before = some x → magicOp x ≠ 0 → slot = magicOp x

theorem markerAfter_eq_some {m : Marker} (h : markerAfter before = some m) :
    ∃ x v, before = some x ∧ rcxLoaded x = some v ∧ markerOf v = some m ∧ magicOp x = v ∧ v ≠ 0 := by
  obtain ⟨v, hv, hm⟩ := Option.bind_eq_some_iff.mp h
  obtain ⟨x, hx, hload⟩ := Option.bind_eq_some_iff.mp hv
  exact ⟨x, v, hx, hload, hm, magicOp_of_loaded hload hm, Nat.pos_iff_ne_zero.mp (marker_lt hm).1⟩

/-- An `xchg` without a pair in its block has no `mov` of a marker before it there. -/
theorem markerAfter_unpaired (h : Unpaired u) (hu : u ≠ []) : markerAfter (u.getLast?.or before) = none := by
  obtain ⟨w, x, rfl⟩ := List.eq_nil_or_concat u |>.resolve_left hu
  rw [List.concat_eq_append] at h ⊢
  rw [List.getLast?_concat, Option.some_or]
  cases hm : markerAfter (some x) with
  | none => rfl
  | some m =>
    obtain ⟨y, v, hy, -, hv, hop, -⟩ := markerAfter_eq_some hm
    obtain rfl := Option.some.inj hy
    unfold Unpaired at h
    rw [lastOp_concat, hop, hv] at h
    cases h

/-- **One `xchg`**: the plugin's marker is the stream's exactly when the slot is right. -/
theorem xchg_right (hs : Stored slot before) {x : Insn} (hx : isXchg x = true) :
    (execCb vcpu (slotOf vcpu (slotIn slot u)) (callbackAfter u x)).2 = markerAfter (u.getLast?.or before) ↔
      Right vcpu slot before u := by
  unfold callbackAfter Right
  rw [if_pos hx]
  by_cases hun : Unpaired u
  · have hnone : (markerOf (lastOp u)).isSome = false := by
      rw [show markerOf (lastOp u) = none from hun]
      rfl
    rw [if_pos hun, hnone]
    unfold execCb slotOf
    by_cases hv : vcpu < MAX_VCPUS
    · simp only [hv, if_true, Bool.false_eq_true, if_false]
      by_cases hu : u = []
      · subst hu
        rw [show slotIn slot [] = slot by unfold slotIn; exact if_neg fun ⟨k, hk, _⟩ => absurd hk (Nat.not_lt_zero k)]
        rw [List.getLast?_nil, Option.none_or]
        cases hm : markerOf slot with
        | none =>
          refine iff_of_true ?_ (.inl rfl)
          cases ha : markerAfter before with
          | none => rfl
          | some m =>
            obtain ⟨y, v, hy, -, hv, hop, hne⟩ := markerAfter_eq_some ha
            rw [hs y hy (by rw [hop]; exact hne), hop, hv] at hm
            cases hm
        | some m =>
          constructor
          · intro h
            obtain ⟨y, v, hy, hload, hv, -, -⟩ := markerAfter_eq_some h.symm
            refine .inr ⟨rfl, ?_⟩
            rw [hy, Option.bind_some, hload, markerOf_inj hv hm]
          · rintro (h | ⟨-, h⟩)
            · cases h
            · rw [markerAfter, h, Option.bind_some, hm]
      · rw [markerAfter_unpaired hun hu]
        exact ⟨.inl, fun h => h.resolve_right fun h => hu h.1⟩
    · simp only [hv, if_false, Bool.false_eq_true]
      exact eq_comm
  · have hsome : (markerOf (lastOp u)).isSome = true := Option.isSome_iff_ne_none.mpr hun
    rw [if_neg hun, hsome, if_pos rfl]
    show markerOf (lastOp u) = _ ↔ _
    have hu : u ≠ [] := by
      rintro rfl
      exact hun rfl
    obtain ⟨w, y, rfl⟩ := List.eq_nil_or_concat u |>.resolve_left hu
    rw [List.concat_eq_append] at hsome ⊢
    obtain ⟨m, hm⟩ := Option.isSome_iff_exists.mp hsome
    rw [List.getLast?_concat, Option.some_or, hm, Option.bind_some]
    constructor
    · intro h
      obtain ⟨z, v, hz, hload, hv, -, -⟩ := markerAfter_eq_some h.symm
      obtain rfl := Option.some.inj hz
      rw [hload, markerOf_inj hv hm]
    · intro h
      rw [markerAfter, Option.bind_some, h, Option.bind_some, hm]

/-! ## One block -/

theorem slotOf_concat (u : List Insn) (x : Insn) :
    (execCb vcpu (slotOf vcpu (slotIn slot u)) (callbackAfter u x)).1 = slotOf vcpu (slotIn slot (u ++ [x])) := by
  rw [slotIn_concat]
  unfold callbackAfter
  by_cases hx : isXchg x = true
  · by_cases hun : Unpaired u
    · have hnone : (markerOf (lastOp u)).isSome = false := by
        rw [show markerOf (lastOp u) = none from hun]
        rfl
      rw [if_pos hx, hnone, if_neg Bool.false_ne_true, if_pos (show isXchg x = true ∧ Unpaired u from ⟨hx, hun⟩)]
      unfold execCb slotOf
      by_cases hv : vcpu < MAX_VCPUS <;> simp [hv]
    · have hsome : (markerOf (lastOp u)).isSome = true := Option.isSome_iff_ne_none.mpr hun
      rw [if_pos hx, hsome, if_pos rfl, if_neg (show ¬(isXchg x = true ∧ Unpaired u) from fun h => hun h.2)]
      rfl
  · rw [if_neg hx, if_neg (show ¬(isXchg x = true ∧ Unpaired u) from fun h => hx h.1)]
    rfl

/-- What the places of a list of instructions have to be like. -/
def AllRight (vcpu slot : Nat) (before : Option Insn) (tb : List Insn) : Prop :=
  ∀ u x v, tb = u ++ x :: v → isXchg x = true → Right vcpu slot before u

theorem execTb_concat (s : Nat × List (Option Marker)) (cbs : List (Option Callback)) (cb : Option Callback) :
    execTb vcpu s (cbs ++ [cb]) =
      ((execCb vcpu (execTb vcpu s cbs).1 cb).1, (execTb vcpu s cbs).2 ++ [(execCb vcpu (execTb vcpu s cbs).1 cb).2]) := by
  unfold execTb
  rw [List.foldl_append]
  rfl

/-- The instructions of a block, before the one at its end is watched. -/
theorem execTb_insns (hs : Stored slot before) (out : List (Option Marker)) (tb : List Insn) :
    ∃ ms, execTb vcpu (slotOf vcpu slot, out) (tb.foldl Translation.insn {}).callbacks =
        (slotOf vcpu (slotIn slot tb), out ++ ms) ∧
      ms.length = tb.length ∧ (ms = markers before tb ↔ AllRight vcpu slot before tb) := by
  induction tb using List.reverseRecOn with
  | nil =>
    refine ⟨[], ?_, rfl, iff_of_true rfl fun u x v h => ?_⟩
    · rw [List.append_nil]
      rfl
    · cases u <;> cases h
  | append_singleton u x ih =>
    obtain ⟨ms, hexec, hlen, hiff⟩ := ih
    refine ⟨ms ++ [(execCb vcpu (slotOf vcpu (slotIn slot u)) (callbackAfter u x)).2], ?_, ?_, ?_⟩
    · rw [callbacks_concat, execTb_concat, hexec, slotOf_concat, List.append_assoc]
    · rw [List.length_append, List.length_append, hlen]
      rfl
    · rw [markers_concat]
      unfold AllRight
      rw [forall_split_concat (P := fun u x => isXchg x = true → Right vcpu slot before u)]
      constructor
      · intro h
        obtain ⟨h₁, h₂⟩ := List.append_inj h (hlen.trans (markers_length before u).symm)
        refine ⟨hiff.mp h₁, fun hx => (xchg_right hs hx).mp ?_⟩
        rw [if_pos hx] at h₂
        exact List.singleton_inj.mp h₂
      · rintro ⟨h₁, h₂⟩
        rw [hiff.mpr h₁]
        congr 2
        by_cases hx : isXchg x = true
        · rw [if_pos hx]
          exact (xchg_right hs hx).mpr (h₂ hx)
        · unfold callbackAfter
          rw [if_neg hx, if_neg hx]
          rfl

theorem execTb_tb (hs : Stored slot before) (out : List (Option Marker)) (tb : List Insn) :
    ∃ ms, execTb vcpu (slotOf vcpu slot, out) (tbTransCb tb) = (slotOf vcpu (slotOut slot tb), out ++ ms) ∧
      ms.length = tb.length ∧ (ms = markers before tb ↔ AllRight vcpu slot before tb) := by
  obtain ⟨ms, hexec, hlen, hiff⟩ := @execTb_insns vcpu slot before hs out tb
  refine ⟨ms, ?_, hlen, hiff⟩
  unfold tbTransCb slotOut
  dsimp only
  rw [prevMagicOp_eq]
  by_cases hop : lastOp tb = 0
  · rw [if_neg (not_not.mpr hop), if_neg (not_not.mpr hop), hexec]
  · rw [if_pos hop, if_pos hop]
    -- the block ends with the `mov`, on which nothing is registered yet
    have htb : tb ≠ [] := by
      rintro rfl
      exact hop rfl
    obtain ⟨u, x, rfl⟩ := List.eq_nil_or_concat tb |>.resolve_left htb
    rw [List.concat_eq_append] at *
    have hx : ¬isXchg x = true := by
      intro hx
      rw [lastOp_concat, magicOp_xchg hx] at hop
      exact hop rfl
    have hcb : callbackAfter u x = none := if_neg hx
    rw [callbacks_concat, hcb] at hexec ⊢
    rw [execTb_concat] at hexec
    rw [List.dropLast_concat, execTb_concat]
    obtain ⟨-, hms⟩ := Prod.mk.inj hexec
    refine Prod.ext ?_ hms
    show (if vcpu < MAX_VCPUS then _ else (execTb vcpu (slotOf vcpu slot, out) _).1) = _
    have hslot : (execTb vcpu (slotOf vcpu slot, out) (u.foldl Translation.insn {}).callbacks).1 =
        slotOf vcpu (slotIn slot (u ++ [x])) := (Prod.mk.inj hexec).1
    rw [hslot]
    unfold slotOf
    split <;> rfl

theorem Stored.block (hs : Stored slot before) (tb : List Insn) : Stored (slotOut slot tb) (tb.getLast?.or before) := by
  intro x hx hop
  rcases List.eq_nil_or_concat tb with rfl | ⟨u, y, rfl⟩
  · rw [List.getLast?_nil, Option.none_or] at hx
    have hout : slotOut slot [] = slot := by
      unfold slotOut slotIn
      rw [if_neg (show ¬lastOp [] ≠ 0 from not_not.mpr rfl), if_neg fun ⟨k, hk, _⟩ => absurd hk (Nat.not_lt_zero k)]
    rw [hout]
    exact hs x hx hop
  · rw [List.concat_eq_append, List.getLast?_concat, Option.some_or] at hx
    obtain rfl := Option.some.inj hx
    unfold slotOut
    rw [List.concat_eq_append, lastOp_concat, if_pos hop]

/-! ## All blocks -/

/-- The places of all blocks. -/
def Clean (vcpu : Nat) (tbs : List (List Insn)) : Prop :=
  ∀ pre tb post, tbs = pre ++ tb :: post → AllRight vcpu (leftover pre) pre.flatten.getLast? tb

theorem stored_leftover (tbs : List (List Insn)) : Stored (leftover tbs) tbs.flatten.getLast? := by
  induction tbs using List.reverseRecOn with
  | nil => exact fun x hx => nomatch hx
  | append_singleton tbs tb ih =>
    have h := ih.block tb
    unfold leftover at h ⊢
    rw [List.foldl_append, List.flatten_append, List.flatten_singleton, List.getLast?_append]
    exact h

theorem execBlocks_spec (vcpu : Nat) (tbs : List (List Insn)) :
    (execBlocks vcpu tbs).1 = slotOf vcpu (leftover tbs) ∧ (execBlocks vcpu tbs).2.length = tbs.flatten.length ∧
      ((execBlocks vcpu tbs).2 = markers none tbs.flatten ↔ Clean vcpu tbs) := by
  induction tbs using List.reverseRecOn with
  | nil =>
    refine ⟨?_, rfl, iff_of_true rfl fun pre tb post h => ?_⟩
    · unfold slotOf
      split <;> rfl
    · cases pre <;> cases h
  | append_singleton tbs tb ih =>
    obtain ⟨hslot, hlen, hiff⟩ := ih
    obtain ⟨ms, hexec, hmlen, hmiff⟩ := @execTb_tb vcpu _ _ (stored_leftover tbs) (execBlocks vcpu tbs).2 tb
    have hstep : execBlocks vcpu (tbs ++ [tb]) = (slotOf vcpu (slotOut (leftover tbs) tb), (execBlocks vcpu tbs).2 ++ ms) := by
      rw [← hexec, ← hslot]
      unfold execBlocks
      rw [List.foldl_append]
      rfl
    rw [hstep, List.flatten_append, List.flatten_singleton]
    refine ⟨?_, ?_, ?_⟩
    · unfold leftover
      rw [List.foldl_append]
      rfl
    · rw [List.length_append, List.length_append, hlen, hmlen]
    · rw [markers_append, Option.or_none]
      unfold Clean
      rw [forall_split_concat (P := fun pre tb => AllRight vcpu (leftover pre) pre.flatten.getLast? tb), ← hmiff]
      constructor
      · intro h
        obtain ⟨h₁, h₂⟩ := List.append_inj h (hlen.trans (markers_length none _).symm)
        exact ⟨hiff.mp h₁, h₂⟩
      · rintro ⟨h₁, h₂⟩
        rw [hiff.mpr h₁, h₂]

/-- **The cutting does not show exactly when the slot is right at every `xchg`.** For every vCPU and
every stream cut into blocks in any way, the plugin emits on each instruction the stream's marker iff
every `xchg` that has a pair in its block follows a `mov` that loads what is read of it, and every
other finds no marker's opcode in the slot unless the `mov` right before it loads that. -/
theorem execBlocks_markers_iff (vcpu : Nat) (tbs : List (List Insn)) :
    (execBlocks vcpu tbs).2 = markers none tbs.flatten ↔
      ∀ pre tb post, tbs = pre ++ tb :: post → ∀ u x v, tb = u ++ x :: v → isXchg x = true →
        Right vcpu (leftover pre) pre.flatten.getLast? u :=
  (execBlocks_spec vcpu tbs).2.2

/-- `mov $1025, %ecx`, `nop` and `xchg %rcx, %rcx` in one block, and cut behind the `mov`. -/
def oneBlock : List (List Insn) := [[[0xb9#8, 0x01#8, 0x04#8, 0#8, 0#8], [0x90#8], [0x48#8, 0x87#8, 0xc9#8]]]

def twoBlocks : List (List Insn) := [[[0xb9#8, 0x01#8, 0x04#8, 0#8, 0#8]], [[0x90#8], [0x48#8, 0x87#8, 0xc9#8]]]

/-- One stream, cut in two ways, with two sequences of events. -/
theorem execBlocks_cut : oneBlock.flatten = twoBlocks.flatten ∧
    (execBlocks 0 oneBlock).2.filterMap id = [] ∧ (execBlocks 0 twoBlocks).2.filterMap id = [.ROI_BEGIN] ∧
    (markers none twoBlocks.flatten).filterMap id = [] := by
  decide

end Pimid.Trace
