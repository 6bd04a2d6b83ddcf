import Pimid.Dram.DqCounts
import Pimid.Noc.WireData

/-!
# The counts of a stream are its transitions

Both ways to count a packet give the transitions along its flits from the flit before, and leave
its last flit. So does a stream, packet after packet.
-/

namespace Pimid.Noc.WireData

open Finset
open Dram (pimidPop8 pimidPop64 pimidLoad64 pimidPop64_eq lane_load sum_add_eight)

/-! ## Along a walk -/

section Along

variable {α : Type} {d : α → α → Nat} {p : α}

theorem getLastD_append (xs ys : List α) (p : α) : (xs ++ ys).getLastD p = ys.getLastD (xs.getLastD p) := by
  induction xs generalizing p with
  | nil => rfl
  | cons x xs ih =>
    rw [List.cons_append, List.getLastD_cons, List.getLastD_cons]
    exact ih x

theorem along_append (xs ys : List α) (p : α) : along d p (xs ++ ys) = along d p xs + along d (xs.getLastD p) ys := by
  induction xs generalizing p with
  | nil => exact (Nat.zero_add _).symm
  | cons x xs ih =>
    rw [List.cons_append, List.getLastD_cons]
    show d p x + along d x (xs ++ ys) = d p x + along d x xs + _
    rw [ih, Nat.add_assoc]

theorem along_concat (xs : List α) (c p : α) : along d p (xs ++ [c]) = along d p xs + d (xs.getLastD p) c := by
  rw [along_append]
  rfl

end Along

/-! ## Pairs of bytes -/

/-- The wires of a byte that rise. -/
def risen (a b : BitVec 8) : Nat := pimidPop8 (~~~a &&& b)

/-- The wires of a byte that change. -/
def switched (a b : BitVec 8) : Nat := pimidPop8 (a ^^^ b)

/-- The sum over the bytes of a flit. -/
def perByte (e : BitVec 8 → BitVec 8 → Nat) (wb : Nat) (p c : Nat → BitVec 8) : Nat := ∑ j ∈ range wb, e (p j) (c j)

variable {e : BitVec 8 → BitVec 8 → Nat} {wb : Nat} {B prev : Nat → BitVec 8} {p : Packet}

/-- The flit before counts by the bytes that a flit has. -/
theorem along_congr {u v : Nat → BitVec 8} (h : ∀ j < wb, u j = v j) (xs : List (Nat → BitVec 8)) :
    along (perByte e wb) u xs = along (perByte e wb) v xs := by
  cases xs with
  | nil => rfl
  | cons c xs =>
    show perByte e wb u c + _ = perByte e wb v c + _
    congr 1
    exact sum_congr rfl fun j hj => by rw [h j (mem_range.mp hj)]

theorem getLastD_congr {u v : Nat → BitVec 8} {j : Nat} (h : u j = v j) (xs : List (Nat → BitVec 8)) :
    xs.getLastD u j = xs.getLastD v j := by
  cases xs with
  | nil => exact h
  | cons c xs => rw [List.getLastD_cons, List.getLastD_cons]

theorem risen_word (B : Nat → BitVec 8) (o wb : Nat) :
    pimidPop64 (~~~(pimidLoad64 B o) &&& pimidLoad64 B (o + wb)) = ∑ k ∈ range 8, risen (B (o + k)) (B (o + k + wb)) := by
  rw [pimidPop64_eq]
  refine sum_congr rfl fun k hk => ?_
  have hk := mem_range.mp hk
  rw [lane_and, lane_not _ hk, lane_load o hk, lane_load (o + wb) hk, Nat.add_right_comm]
  rfl

theorem switched_word (B : Nat → BitVec 8) (o wb : Nat) :
    pimidPop64 (pimidLoad64 B o ^^^ pimidLoad64 B (o + wb)) = ∑ k ∈ range 8, switched (B (o + k)) (B (o + k + wb)) :=
  Dram.pop_load_xor B o wb

/-! ## The packet against itself -/

/-- The first `o` pairs are counted. -/
structure Compared (B : Nat → BitVec 8) (wb o : Nat) (c : Cut) : Prop where
  r : c.r = ∑ j ∈ range o, risen (B j) (B (j + wb))
  t : c.t = ∑ j ∈ range o, switched (B j) (B (j + wb))

theorem Compared.word {c : Cut} {o : Nat} (h : Compared B wb o c) : Compared B wb (o + 8) (shiftedWord B wb c o) := by
  refine ⟨?_, ?_⟩
  · rw [sum_add_eight fun j => risen (B j) (B (j + wb)), ← h.r, ← risen_word]
    rfl
  · rw [sum_add_eight fun j => switched (B j) (B (j + wb)), ← h.t, ← switched_word]
    rfl

theorem Compared.byte {c : Cut} {o : Nat} (h : Compared B wb o c) : Compared B wb (o + 1) (shiftedByte B wb c o) := by
  refine ⟨?_, ?_⟩
  · rw [sum_range_succ, ← h.r]
    rfl
  · rw [sum_range_succ, ← h.t]
    rfl

theorem shifted_compared (prev : Nat → BitVec 8) (wb f : Nat) (p : Packet) :
    Compared (buffer prev wb p) wb (f * wb) (shifted prev wb f p) := by
  generalize hB : buffer prev wb p = B
  have hwords (m : Nat) : Compared B wb (8 * m) ((List.range m).foldl (fun c m => shiftedWord B wb c (8 * m)) { prev }) := by
    induction m with
    | zero => exact ⟨rfl, rfl⟩
    | succ m ih =>
      rw [List.range_succ, List.foldl_append]
      exact ih.word
  have hbytes (r : Nat) {c : Cut} {o : Nat} (h : Compared B wb o c) :
      Compared B wb (o + r) ((List.range' o r).foldl (shiftedByte B wb) c) := by
    induction r with
    | zero => exact h
    | succ r ih =>
      rw [List.range'_concat, List.foldl_append, Nat.one_mul]
      exact ih.byte
  have h := hbytes (f * wb % 8) (hwords (f * wb / 8))
  rw [Nat.mul_comm 8, Nat.div_add_mod'] at h
  unfold shifted
  dsimp only
  rw [hB]
  exact ⟨h.r, h.t⟩

/-- The flits in the buffer, behind the flit before. -/
def flitIn (wb : Nat) (p : Packet) (k j : Nat) : BitVec 8 := if k * wb + j < p.n then p.pkt (k * wb + j) else 0

theorem buffer_flit (prev : Nat → BitVec 8) (k j : Nat) : buffer prev wb p (k * wb + j + wb) = flitIn wb p k j := by
  unfold buffer flitIn
  rw [if_neg (by omega), Nat.add_sub_cancel]
  exact if_congr (by omega) rfl rfl

theorem buffer_along (prev : Nat → BitVec 8) (f : Nat) :
    along (perByte e wb) prev ((List.range f).map (flitIn wb p)) =
      ∑ o ∈ range (f * wb), e (buffer prev wb p o) (buffer prev wb p (o + wb)) ∧
    ∀ j < wb, ((List.range f).map (flitIn wb p)).getLastD prev j = buffer prev wb p (f * wb + j) := by
  induction f with
  | zero =>
    refine ⟨?_, fun j hj => ?_⟩
    · rw [Nat.zero_mul]
      rfl
    · rw [Nat.zero_mul, Nat.zero_add, buffer, if_pos hj]
      rfl
  | succ f ih =>
    rw [List.range_succ, List.map_append, List.map_cons, List.map_nil, Nat.succ_mul]
    refine ⟨?_, fun j _ => ?_⟩
    · rw [along_concat, ih.1, sum_range_add]
      congr 1
      refine sum_congr rfl fun j hj => ?_
      rw [ih.2 j (mem_range.mp hj), buffer_flit]
    · rw [getLastD_append, Nat.add_right_comm, buffer_flit]
      rfl

/-! ## Flit by flit -/

/-- The first `j` bytes of flit `k` are compared with those before it. -/
structure InFlit (wb : Nat) (p : Packet) (k : Nat) (s₀ : FlitLoop) (j : Nat) (s : FlitLoop) : Prop where
  r : s.r = s₀.r + ∑ i ∈ range j, risen (s₀.prev i) (flitIn wb p k i)
  t : s.t = s₀.t + ∑ i ∈ range j, switched (s₀.prev i) (flitIn wb p k i)
  cur : ∀ i < j, s.cur i = flitIn wb p k i
  prev : s.prev = s₀.prev

theorem InFlit.byte {k j : Nat} {s₀ s : FlitLoop} (h : InFlit wb p k s₀ j s) :
    InFlit wb p k s₀ (j + 1) (flitByte wb p k s j) := by
  refine ⟨?_, ?_, Dram.update_lt h.cur, h.prev⟩
  · show s.r + pimidPop8 (~~~(s.prev j) &&& Function.update s.cur j (flitIn wb p k j) j) = _
    rw [Function.update_self, h.r, h.prev, sum_range_succ, Nat.add_assoc]
    rfl
  · show s.t + pimidPop8 (s.prev j ^^^ Function.update s.cur j (flitIn wb p k j) j) = _
    rw [Function.update_self, h.t, h.prev, sum_range_succ, Nat.add_assoc]
    rfl

theorem inFlit (wb : Nat) (p : Packet) (k : Nat) (s : FlitLoop) :
    InFlit wb p k s wb ((List.range wb).foldl (flitByte wb p k) s) := by
  have hbytes (j : Nat) : InFlit wb p k s j ((List.range j).foldl (flitByte wb p k) s) := by
    induction j with
    | zero => exact ⟨rfl, rfl, fun _ h => absurd h (Nat.not_lt_zero _), rfl⟩
    | succ j ih =>
      rw [List.range_succ, List.foldl_append]
      exact ih.byte
  exact hbytes wb

/-- The counts along the flits, and the last of them. -/
structure Walked (wb : Nat) (prev : Nat → BitVec 8) (fs : List (Nat → BitVec 8)) (c : Cut) : Prop where
  r : c.r = along (perByte risen wb) prev fs
  t : c.t = along (perByte switched wb) prev fs
  last : ∀ j < wb, c.prev j = fs.getLastD prev j

theorem Walked.flit {fs : List (Nat → BitVec 8)} {s : FlitLoop} (h : Walked wb prev fs s.toCut) (k : Nat) :
    Walked wb prev (fs ++ [flitIn wb p k]) (flit wb p s k).toCut := by
  have hin := inFlit wb p k s
  unfold WireData.flit
  dsimp only
  refine ⟨?_, ?_, fun j hj => ?_⟩
  · rw [along_concat, ← h.r, hin.r]
    congr 1
    exact sum_congr rfl fun j hj => by rw [h.last j (mem_range.mp hj)]
  · rw [along_concat, ← h.t, hin.t]
    congr 1
    exact sum_congr rfl fun j hj => by rw [h.last j (mem_range.mp hj)]
  · dsimp only
    rw [if_pos hj, hin.cur j hj, getLastD_append]
    rfl

theorem flitByFlit_walked (prev : Nat → BitVec 8) (wb f : Nat) (p : Packet) :
    Walked wb prev ((List.range f).map (flitIn wb p)) (flitByFlit prev wb f p) := by
  unfold flitByFlit
  induction f with
  | zero => exact ⟨rfl, rfl, fun _ _ => rfl⟩
  | succ f ih =>
    rw [List.range_succ, List.foldl_append, List.map_append]
    exact ih.flit f

theorem shifted_walked (prev : Nat → BitVec 8) (wb f : Nat) (p : Packet) :
    Walked wb prev ((List.range f).map (flitIn wb p)) (shifted prev wb f p) := by
  have h := shifted_compared prev wb f p
  refine ⟨?_, ?_, fun j hj => ?_⟩
  · rw [h.r, ← (buffer_along prev f).1]
  · rw [h.t, ← (buffer_along prev f).1]
  · rw [(buffer_along (e := risen) prev f).2 j hj]
    rfl

/-! ## Packet after packet -/

theorem width_eq (i : Fin NW) : width i = 8 * (width i / 8) ∧ 0 < width i / 8 := by
  revert i
  decide

theorem flits_eq (n wb : Nat) (hwb : 0 < wb) : (8 * n + 8 * wb - 1) / (8 * wb) = (n + wb - 1) / wb := by
  rw [← Nat.div_div_eq_div_mul]
  congr 1
  omega

theorem flitsOf_eq (i : Fin NW) (p : Packet) :
    flitsOf (width i) p = (List.range ((p.n + width i / 8 - 1) / (width i / 8))).map (flitIn (width i / 8) p) := by
  obtain ⟨hw, hpos⟩ := width_eq i
  have hf := flits_eq p.n (width i / 8) hpos
  rw [← hw] at hf
  unfold flitsOf
  rw [hf]
  rfl

theorem cutAt_walked (st : Stream) (p : Packet) (i : Fin NW) :
    Walked (width i / 8) (st.before i) (flitsOf (width i) p) (cutAt st p i) := by
  unfold cutAt
  dsimp only
  rw [flitsOf_eq]
  split
  · exact shifted_walked _ _ _ p
  · exact flitByFlit_walked _ _ _ p

/-- The state after the packets of a stream. -/
structure Counted (ps : List Packet) (s : NocWireData × Stream) : Prop where
  packets : s.1.packets = ps.length
  bits : ∀ i : Fin NW, s.1.bits i = width i * (stream (width i) ps).length
  rise : ∀ i : Fin NW, s.1.rise i = along (rises (width i)) (fun _ => 0) (stream (width i) ps)
  toggles : ∀ i : Fin NW, s.1.toggles i = along (switches (width i)) (fun _ => 0) (stream (width i) ps)
  before : ∀ i : Fin NW, ∀ j < width i / 8, s.2.before i j = (stream (width i) ps).getLastD (fun _ => 0) j

theorem stream_concat (W : Nat) (ps : List Packet) (p : Packet) : stream W (ps ++ [p]) = stream W ps ++ flitsOf W p := by
  unfold stream
  rw [List.flatMap_append, List.flatMap_singleton]

theorem Counted.countPacket {ps : List Packet} {s : NocWireData × Stream} (h : Counted ps s) (p : Packet) :
    Counted (ps ++ [p]) (countPacket s p 0 (NW - 1)) := by
  have hon (i : Fin NW) : decide (0 ≤ i.val ∧ i.val ≤ NW - 1) = true := by
    revert i
    decide
  have hcut (i : Fin NW) := cutAt_walked s.2 p i
  unfold WireData.countPacket
  dsimp only
  refine ⟨?_, fun i => ?_, fun i => ?_, fun i => ?_, fun i j hj => ?_⟩
  · rw [List.length_append, h.packets]
    rfl
  · dsimp only
    rw [if_pos (hon i), h.bits, stream_concat, List.length_append, flitsOf_eq, List.length_map, List.length_range,
      Nat.mul_add, Nat.mul_comm (_ / _)]
  · dsimp only
    rw [if_pos (hon i), h.rise, (hcut i).r, stream_concat, along_append]
    congr 1
    exact along_congr (h.before i) _
  · dsimp only
    rw [if_pos (hon i), h.toggles, (hcut i).t, stream_concat, along_append]
    congr 1
    exact along_congr (h.before i) _
  · unfold Stream.before
    dsimp only
    rw [if_pos rfl, if_pos ⟨hon i, hj⟩, (hcut i).last j hj, stream_concat, getLastD_append]
    exact getLastD_congr (h.before i j hj) _

theorem run_counted (last : Nat → Nat → BitVec 8) (ps : List Packet) : Counted ps (run last ps) := by
  induction ps using List.reverseRecOn with
  | nil => exact ⟨rfl, fun _ => rfl, fun _ => rfl, fun _ => rfl, fun _ _ _ => rfl⟩
  | append_singleton ps p ih =>
    unfold run at ih ⊢
    rw [List.foldl_append]
    exact ih.countPacket p

theorem run_last (last : Nat → Nat → BitVec 8) (ps : List Packet) (p : Packet) (i : Nat) :
    (run last (ps ++ [p])).2.before i = (run last (ps ++ [p])).2.last i := by
  unfold run
  rw [List.foldl_append]
  rfl

/-- **A stream counts its transitions.** For every sequence of packets on one stream, at every
width `W`, the bits are `W` times the flits, the rises and toggles are those between successive
flits of the whole stream from an all-zero wire, and after every packet the stream holds its last
flit. The shifted comparison and the loop over the flits count the same and leave the same flit. -/
theorem stream_counts (last : Nat → Nat → BitVec 8) (i : Fin NW) :
    (∀ ps : List Packet,
      (run last ps).1.bits i = width i * (stream (width i) ps).length ∧
      (run last ps).1.rise i = along (rises (width i)) (fun _ => 0) (stream (width i) ps) ∧
      (run last ps).1.toggles i = along (switches (width i)) (fun _ => 0) (stream (width i) ps)) ∧
    (∀ (ps : List Packet) (p : Packet) (j : Fin (width i / 8)),
      (run last (ps ++ [p])).2.last i j = (stream (width i) (ps ++ [p])).getLastD (fun _ => 0) j) ∧
    ∀ (prev : Nat → BitVec 8) (wb f : Nat) (p : Packet),
      (shifted prev wb f p).r = (flitByFlit prev wb f p).r ∧ (shifted prev wb f p).t = (flitByFlit prev wb f p).t ∧
      ∀ j : Fin wb, (shifted prev wb f p).prev j = (flitByFlit prev wb f p).prev j := by
  refine ⟨fun ps => ?_, fun ps p j => ?_, fun prev wb f p => ?_⟩
  · have h := run_counted last ps
    exact ⟨h.bits i, h.rise i, h.toggles i⟩
  · rw [← run_last]
    exact (run_counted last (ps ++ [p])).before i j j.isLt
  · have hs := shifted_walked prev wb f p
    have hf := flitByFlit_walked prev wb f p
    exact ⟨hs.r.trans hf.r.symm, hs.t.trans hf.t.symm, fun j => (hs.last j j.isLt).trans (hf.last j j.isLt).symm⟩

end Pimid.Noc.WireData
