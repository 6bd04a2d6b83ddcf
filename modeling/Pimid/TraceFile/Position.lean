import Pimid.TraceFile.Reader
import Pimid.TraceFile.Written

/-!
# A trace reader keeps its place

A reader whose stream is at the event of its index (`At`) stays so, whatever it is asked,
and answers what the list of the events says.
-/

namespace Pimid.TraceFile

variable {D : Type}

namespace TraceReader

variable {r : TraceReader D} {es : List TraceEvent} {off : Nat}

/-- A reader of a file with `es` from `off` on, at the event of its index. -/
structure At (es : List TraceEvent) (off : Nat) (r : TraceReader D) : Prop where
  isOpen : r.isOpen = true
  good : r.file.fail = false
  data : ∃ pre : List UInt8, pre.length = off ∧ r.file.data = pre ++ encodeAll es
  count : r.header.numEvents.toNat = es.length
  last : (∀ e ∈ es, e.cycle ≤ r.header.lastCycle) ∧ (es ≠ [] → ∃ e ∈ es, e.cycle = r.header.lastCycle)
  offset : r.eventsOffset.toNat = off
  fits : off + sizeofEvent * es.length < 2 ^ 63
  index : r.currentIndex.toNat ≤ es.length
  pos : r.file.pos = off + sizeofEvent * r.currentIndex.toNat

theorem At.hasNextEvent (h : At es off r) : r.hasNextEvent = decide (r.currentIndex.toNat < es.length) := by
  rw [TraceReader.hasNextEvent, h.isOpen, Bool.true_and, ← h.count]
  exact decide_eq_decide.mpr UInt64.lt_iff_toNat_lt

theorem At.bytes (h : At es off r) {i : Nat} {e : TraceEvent} (he : es[i]? = some e) :
    slice r.file.data (off + sizeofEvent * i) sizeofEvent = e.encode := by
  obtain ⟨pre, hpre, hdata⟩ := h.data
  rw [hdata, ← hpre, slice_append_right, slice_encodeAll he]

theorem At.readAt (h : At es off r) {i : Nat} {e : TraceEvent} (he : es[i]? = some e) :
    ({ r.file with pos := off + sizeofEvent * i } : InFile).read sizeofEvent =
      (e.encode, { r.file with pos := off + sizeofEvent * (i + 1) }) := by
  have hslice := h.bytes he
  have hlen := TraceEvent.length_encode e
  rw [InFile.read, if_neg (by simp [h.good])]
  simp only [hslice, hlen, Nat.lt_irrefl, decide_false]
  rw [Nat.mul_succ, Nat.add_assoc, h.good]

theorem At.read_next (h : At es off r) {e : TraceEvent} (he : es[r.currentIndex.toNat]? = some e) :
    r.file.read sizeofEvent = (e.encode, { r.file with pos := off + sizeofEvent * (r.currentIndex.toNat + 1) }) := by
  have hread := h.readAt he
  rwa [← h.pos] at hread

theorem At.place (h : At es off r) {index : UInt64} (hi : index.toNat ≤ es.length) :
    (r.eventsOffset + index * .ofNat sizeofEvent).toNat = off + sizeofEvent * index.toNat := by
  have hle := Nat.mul_le_mul_left sizeofEvent hi
  have hfits := h.fits
  have hsize : (UInt64.ofNat sizeofEvent).toNat = sizeofEvent := by decide
  rw [UInt64.toNat_add, UInt64.toNat_mul, h.offset, hsize, Nat.mul_comm index.toNat, Nat.mod_eq_of_lt (by omega),
    Nat.mod_eq_of_lt (by omega)]

theorem At.seekg (h : At es off r) {index : UInt64} (hi : index.toNat ≤ es.length) :
    r.file.seekg (r.eventsOffset + index * .ofNat sizeofEvent) =
      { r.file with pos := off + sizeofEvent * index.toNat } := by
  have hle := Nat.mul_le_mul_left sizeofEvent hi
  have hfits := h.fits
  rw [InFile.seekg, if_neg (by simp [h.good]), h.place hi, if_neg (by omega)]

/-- The reader with its stream put at the event of an index. -/
theorem At.move (h : At es off r) {index : UInt64} (hi : index.toNat ≤ es.length) {f : InFile}
    (hf : f = { r.file with pos := off + sizeofEvent * index.toNat }) :
    At es off { r with file := f, currentIndex := index } := by
  rw [hf]
  exact ⟨h.isOpen, h.good, h.data, h.count, h.last, h.offset, h.fits, hi, rfl⟩

theorem toNat_succ {i : UInt64} {m : Nat} (hi : i.toNat < m) (hm : m < 2 ^ 63) : (i + 1).toNat = i.toNat + 1 := by
  have hone : (1 : UInt64).toNat = 1 := rfl
  rw [UInt64.toNat_add, hone, Nat.mod_eq_of_lt (by omega)]

theorem At.length_lt (h : At es off r) : es.length < 2 ^ 63 := by
  have hfits := h.fits
  have hle : es.length ≤ sizeofEvent * es.length := Nat.le_mul_of_pos_left _ (by decide)
  omega

theorem At.back (h : At es off r) : { r with file := { data := r.file.data, pos := r.file.pos } } = r := by
  obtain ⟨o, ⟨data, pos, fail⟩, header, config, index, offset, size⟩ := r
  obtain rfl : fail = false := h.good
  rfl

/-! ### One call -/

theorem At.readNextEvent (h : At es off r) {e : TraceEvent} (he : es[r.currentIndex.toNat]? = some e) :
    r.readNextEvent.1 = .ok e ∧ At es off r.readNextEvent.2 ∧
      r.readNextEvent.2.currentIndex.toNat = r.currentIndex.toNat + 1 ∧ r.readNextEvent.2.header = r.header := by
  have hlt : r.currentIndex.toNat < es.length := (List.getElem?_eq_some_iff.mp he).1
  have hnext : r.hasNextEvent = true := by rw [h.hasNextEvent, decide_eq_true hlt]
  have hsucc := toNat_succ hlt h.length_lt
  rw [TraceReader.readNextEvent, if_neg (by simp [hnext]), h.read_next he]
  simp only [TraceEvent.length_encode, ne_eq, not_true_eq_false, if_false]
  refine ⟨?_, h.move (by omega) (by rw [hsucc]), hsucc, trivial⟩
  have hdec := TraceEvent.decode_encode e []
  rw [List.append_nil] at hdec
  rw [hdec]

theorem At.readNextEvent_end (h : At es off r) (hend : es[r.currentIndex.toNat]? = none) :
    r.readNextEvent = (.error (.runtimeError "TraceReader: No more events"), r) := by
  have hnext : r.hasNextEvent = false := by
    rw [h.hasNextEvent, decide_eq_false (Nat.not_lt.mpr (List.getElem?_eq_none_iff.mp hend))]
  rw [TraceReader.readNextEvent, if_pos (by simp [hnext])]

theorem At.peekNextEvent (h : At es off r) {e : TraceEvent} (he : es[r.currentIndex.toNat]? = some e) :
    r.peekNextEvent = (.ok e, r) := by
  have hlt : r.currentIndex.toNat < es.length := (List.getElem?_eq_some_iff.mp he).1
  have hnext : r.hasNextEvent = true := by rw [h.hasNextEvent, decide_eq_true hlt]
  have hdec := TraceEvent.decode_encode e []
  rw [List.append_nil] at hdec
  rw [TraceReader.peekNextEvent, if_neg (by simp [hnext]), h.read_next he]
  simp only [TraceEvent.length_encode, ne_eq, not_true_eq_false, if_false, hdec, InFile.seekBack, h.good,
    Bool.false_eq_true, h.back]

theorem At.peekNextEvent_end (h : At es off r) (hend : es[r.currentIndex.toNat]? = none) :
    r.peekNextEvent = (.error (.runtimeError "TraceReader: No more events"), r) := by
  have hnext : r.hasNextEvent = false := by
    rw [h.hasNextEvent, decide_eq_false (Nat.not_lt.mpr (List.getElem?_eq_none_iff.mp hend))]
  rw [TraceReader.peekNextEvent, if_pos (by simp [hnext])]

theorem At.readEvents (h : At es off r) (count : Nat) : At es off (r.readEvents count).2 := by
  induction count generalizing r with
  | zero => exact h
  | succ count ih =>
    rw [TraceReader.readEvents]
    split
    next => exact h
    next hnext =>
      have hlt : r.currentIndex.toNat < es.length := by simpa [h.hasNextEvent] using hnext
      obtain ⟨hval, hat, -, -⟩ := h.readNextEvent (List.getElem?_eq_getElem hlt)
      have hrest := ih hat
      generalize r.readNextEvent = p at hval hat hrest
      obtain ⟨v, r'⟩ := p
      obtain rfl : v = _ := hval
      dsimp only
      split
      next heq => rw [heq] at hrest; exact hrest
      next heq => rw [heq] at hrest; exact hrest

theorem At.seekToEvent (h : At es off r) (index : UInt64) :
    ((r.seekToEvent index).1 = true ↔ index.toNat < es.length) ∧ At es off (r.seekToEvent index).2 ∧
      (index.toNat < es.length → (r.seekToEvent index).2.currentIndex = index) := by
  rw [TraceReader.seekToEvent]
  have hiff : index ≥ r.header.numEvents ↔ ¬index.toNat < es.length := by
    rw [← h.count, Nat.not_lt]
    exact UInt64.le_iff_toNat_le
  by_cases hi : index.toNat < es.length
  · rw [if_neg (hiff.not.mpr (not_not.mpr hi)), h.seekg (by omega)]
    exact ⟨⟨fun _ => hi, fun _ => by simp [h.good]⟩, h.move (by omega) rfl, fun _ => rfl⟩
  · rw [if_pos (hiff.mpr hi)]
    exact ⟨⟨fun hf => absurd hf Bool.false_ne_true, fun hlt => absurd hlt hi⟩, h, fun hlt => absurd hlt hi⟩

theorem At.readEventAt (h : At es off r) (index : UInt64) :
    (r.readEventAt index).2 = r ∧ ∀ e, es[index.toNat]? = some e → (r.readEventAt index).1 = .ok e := by
  rw [TraceReader.readEventAt]
  have hiff : index ≥ r.header.numEvents ↔ ¬index.toNat < es.length := by
    rw [← h.count, Nat.not_lt]
    exact UInt64.le_iff_toNat_le
  by_cases hi : index.toNat < es.length
  · have hget := List.getElem?_eq_getElem hi
    have hdec := TraceEvent.decode_encode es[index.toNat] []
    rw [List.append_nil] at hdec
    rw [if_neg (hiff.not.mpr (not_not.mpr hi)), h.seekg (by omega), h.readAt hget]
    simp only [hdec, InFile.seekBack, h.good, Bool.false_eq_true, if_false]
    refine ⟨h.back, fun e he => ?_⟩
    rw [Option.some.inj (hget.symm.trans he)]
  · rw [if_pos (hiff.mpr hi)]
    refine ⟨rfl, fun e he => ?_⟩
    exact absurd (List.getElem?_eq_some_iff.mp he).1 hi

theorem At.rewind (h : At es off r) : At es off r.rewind ∧ r.rewind.currentIndex = 0 ∧ r.rewind.header = r.header := by
  have hseek := @At.seekg D r es off h 0 (Nat.zero_le _)
  have hzero : r.eventsOffset + 0 * .ofNat sizeofEvent = r.eventsOffset := by simp
  rw [hzero] at hseek
  rw [TraceReader.rewind, if_pos h.isOpen, hseek]
  exact ⟨@At.move D r es off h 0 (Nat.zero_le _) _ rfl, rfl, rfl⟩

/-- The first of the events from the present one on that is not before `cycle`. -/
def Found (es : List TraceEvent) (cycle : UInt64) (from_ i : Nat) : Prop :=
  from_ ≤ i ∧ (∃ e, es[i]? = some e ∧ cycle ≤ e.cycle) ∧
    ∀ j e, from_ ≤ j → j < i → es[j]? = some e → ¬cycle ≤ e.cycle

theorem At.scan {cycle : UInt64} {fuel : Nat} (h : At es off r) (hfuel : es.length ≤ fuel + r.currentIndex.toNat) :
    At es off (r.scan cycle fuel).2 ∧
      (((r.scan cycle fuel).1 = .ok true ∧ Found es cycle r.currentIndex.toNat (r.scan cycle fuel).2.currentIndex.toNat) ∨
        ((r.scan cycle fuel).1 = .ok false ∧ ∀ j e, r.currentIndex.toNat ≤ j → es[j]? = some e → ¬cycle ≤ e.cycle)) := by
  induction fuel generalizing r with
  | zero =>
    refine ⟨h, .inr ⟨rfl, fun j e hj he => ?_⟩⟩
    have := (List.getElem?_eq_some_iff.mp he).1
    omega
  | succ fuel ih =>
    rw [TraceReader.scan]
    by_cases hlt : r.currentIndex.toNat < es.length
    · have hget := List.getElem?_eq_getElem hlt
      have hnext : r.hasNextEvent = true := by rw [h.hasNextEvent, decide_eq_true hlt]
      have hread := h.read_next hget
      have hdec := TraceEvent.decode_encode es[r.currentIndex.toNat] []
      rw [List.append_nil] at hdec
      have hsucc := toNat_succ hlt h.length_lt
      have hstep : r.readNextEvent = (.ok es[r.currentIndex.toNat], { r with
          file := { r.file with pos := off + sizeofEvent * (r.currentIndex.toNat + 1) }
          currentIndex := r.currentIndex + 1 }) := by
        rw [TraceReader.readNextEvent, if_neg (by simp [hnext]), hread]
        simp only [TraceEvent.length_encode, ne_eq, not_true_eq_false, if_false, hdec]
      have hat := @At.move D r es off h (r.currentIndex + 1) (by omega) _ (by rw [hsucc])
      rw [if_neg (by simp [hnext]), hstep]
      dsimp only
      by_cases hc : es[r.currentIndex.toNat].cycle ≥ cycle
      · -- found: back by one event
        have hback : r.currentIndex + 1 - 1 = r.currentIndex := by simp
        rw [if_pos hc, hback]
        simp only [InFile.seekBack, h.good, Bool.false_eq_true, if_false]
        rw [h.back]
        refine ⟨h, .inl ⟨trivial, Nat.le_refl _, ⟨_, hget, hc⟩, fun j e hj hlt => by omega⟩⟩
      · rw [if_neg hc]
        obtain ⟨hat', hres⟩ := ih hat (by show es.length ≤ fuel + (r.currentIndex + 1).toNat; omega)
        have hmiss : ∀ e, es[r.currentIndex.toNat]? = some e → ¬cycle ≤ e.cycle := by
          intro e he
          rw [← Option.some.inj (hget.symm.trans he)]
          exact hc
        refine ⟨hat', ?_⟩
        rcases hres with ⟨hok, hle, hsome, hbefore⟩ | ⟨hok, hnone⟩
        · have hge : r.currentIndex.toNat ≤ (r.currentIndex + 1).toNat := by omega
          refine .inl ⟨hok, Nat.le_trans hge hle, hsome, fun j e hj hlt he => ?_⟩
          by_cases hj' : j = r.currentIndex.toNat
          · exact hmiss e (hj' ▸ he)
          · exact hbefore j e (by show (r.currentIndex + 1).toNat ≤ j; omega) hlt he
        · refine .inr ⟨hok, fun j e hj he => ?_⟩
          by_cases hj' : j = r.currentIndex.toNat
          · exact hmiss e (hj' ▸ he)
          · exact hnone j e (by show (r.currentIndex + 1).toNat ≤ j; omega) he
    · have hnext : r.hasNextEvent = false := by rw [h.hasNextEvent, decide_eq_false hlt]
      rw [if_pos (by simp [hnext])]
      refine ⟨h, .inr ⟨rfl, fun j e hj he => ?_⟩⟩
      have := (List.getElem?_eq_some_iff.mp he).1
      omega

theorem At.seekToCycle (h : At es off r) (cycle : UInt64) :
    At es off (r.seekToCycle cycle).2 ∧
      (((r.seekToCycle cycle).1 = .ok true ∧ Found es cycle 0 (r.seekToCycle cycle).2.currentIndex.toNat) ∨
        ((r.seekToCycle cycle).1 = .ok false ∧ ∀ e ∈ es, ¬cycle ≤ e.cycle)) := by
  rw [TraceReader.seekToCycle]
  split
  next hpast =>
    refine ⟨h, .inr ⟨rfl, fun e he hle => ?_⟩⟩
    exact UInt64.not_lt.mpr (UInt64.le_trans hle (h.last.1 e he)) hpast
  next =>
    obtain ⟨hat, hzero, -⟩ := h.rewind
    have hidx : r.rewind.currentIndex.toNat = 0 := by rw [hzero]; rfl
    have hscan := @At.scan D r.rewind es off cycle r.header.numEvents.toNat hat (by rw [h.count]; omega)
    rw [hidx] at hscan
    refine ⟨hscan.1, ?_⟩
    rcases hscan.2 with hfound | ⟨hok, hnone⟩
    · exact .inl hfound
    · refine .inr ⟨hok, fun e he => ?_⟩
      obtain ⟨j, hj, heq⟩ := List.mem_iff_getElem.mp he
      exact hnone j e (Nat.zero_le _) (by rw [List.getElem?_eq_getElem hj, heq])

/-! ### Sequences of calls -/

theorem At.call (h : At es off r) (c : Call) : At es off (r.call c) := by
  cases c with
  | readNextEvent =>
    show At es off r.readNextEvent.2
    by_cases hlt : r.currentIndex.toNat < es.length
    · exact (h.readNextEvent (List.getElem?_eq_getElem hlt)).2.1
    · rw [h.readNextEvent_end (List.getElem?_eq_none (Nat.not_lt.mp hlt))]
      exact h
  | peekNextEvent =>
    show At es off r.peekNextEvent.2
    by_cases hlt : r.currentIndex.toNat < es.length
    · rw [h.peekNextEvent (List.getElem?_eq_getElem hlt)]
      exact h
    · rw [h.peekNextEvent_end (List.getElem?_eq_none (Nat.not_lt.mp hlt))]
      exact h
  | readEvents count => exact h.readEvents count
  | seekToEvent index => exact (h.seekToEvent index).2.1
  | readEventAt index =>
    show At es off (r.readEventAt index).2
    rw [(h.readEventAt index).1]
    exact h
  | seekToCycle cycle => exact (h.seekToCycle cycle).1
  | rewind => exact h.rewind.1

theorem At.calls (h : At es off r) (cs : List Call) : At es off (cs.foldl TraceReader.call r) := by
  induction cs generalizing r with
  | nil => exact h
  | cons c cs ih => exact ih (h.call c)

theorem At.reads (h : At es off r) {n : Nat} (hn : r.currentIndex.toNat + n = es.length) :
    (r.reads n).1 = (es.drop r.currentIndex.toNat).map .ok ∧ (r.reads n).2.hasNextEvent = false := by
  induction n generalizing r with
  | zero =>
    rw [List.drop_eq_nil_of_le (by omega)]
    refine ⟨rfl, ?_⟩
    show r.hasNextEvent = false
    rw [h.hasNextEvent, decide_eq_false (by omega)]
  | succ n ih =>
    have hlt : r.currentIndex.toNat < es.length := by omega
    obtain ⟨hval, hat, hidx, -⟩ := h.readNextEvent (List.getElem?_eq_getElem hlt)
    obtain ⟨hrest, hend⟩ := ih hat (by omega)
    refine ⟨?_, hend⟩
    rw [List.drop_eq_getElem_cons hlt, List.map_cons, ← hidx, ← hrest, ← hval]
    rfl

end TraceReader

end Pimid.TraceFile
