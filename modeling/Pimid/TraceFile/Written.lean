import Pimid.TraceFile.Writer

/-!
# What a trace writer leaves

However the events were buffered, the file is a header with their counts, the metadata
and the events, in order.
-/

namespace Pimid.TraceFile

variable {D : Type}

/-! ## The bytes of events -/

def encodeAll (es : List TraceEvent) : List UInt8 := es.flatMap TraceEvent.encode

@[simp] theorem encodeAll_append (es es' : List TraceEvent) : encodeAll (es ++ es') = encodeAll es ++ encodeAll es' := by
  simp [encodeAll]

theorem length_encodeAll (es : List TraceEvent) : (encodeAll es).length = sizeofEvent * es.length := by
  induction es with
  | nil => rfl
  | cons e es ih =>
    rw [encodeAll, List.flatMap_cons, List.length_append, TraceEvent.length_encode, ← encodeAll, ih, List.length_cons,
      Nat.mul_succ, Nat.add_comm]

theorem slice_encodeAll {es : List TraceEvent} {i : Nat} {e : TraceEvent} (h : es[i]? = some e) :
    slice (encodeAll es) (sizeofEvent * i) sizeofEvent = e.encode := by
  induction es generalizing i with
  | nil => cases h
  | cons e' es ih =>
    have hlen := TraceEvent.length_encode e'
    cases i with
    | zero =>
      obtain rfl := Option.some.inj h
      exact List.take_left' hlen
    | succ i =>
      have hdrop : sizeofEvent * (i + 1) = e'.encode.length + sizeofEvent * i := by rw [hlen, Nat.mul_succ, Nat.add_comm]
      rw [← ih (by simpa using h), slice, slice, hdrop, ← List.drop_drop, encodeAll, List.flatMap_cons,
        List.drop_left' rfl, ← encodeAll]

/-! ## Writing -/

namespace TraceWriter

variable {n : Doubles D} {w : TraceWriter D} {config : TraceConfig D} {timestamp : List UInt8} {es : List TraceEvent}

theorem write_end {f : OutFile} (h : f.pos = f.data.length) (d : List UInt8) :
    f.write d = ⟨f.data ++ d, (f.data ++ d).length⟩ := by
  rw [OutFile.write, splice, h, List.take_length, List.drop_eq_nil_of_le (by omega), List.append_nil, List.length_append]

theorem write_events (es : List TraceEvent) {f : OutFile} (h : f.pos = f.data.length) :
    es.foldl (fun f e => f.write e.encode) f = ⟨f.data ++ encodeAll es, (f.data ++ encodeAll es).length⟩ := by
  induction es generalizing f with
  | nil =>
    obtain ⟨data, pos⟩ := f
    obtain rfl : pos = data.length := h
    simp [encodeAll]
  | cons e es ih =>
    rw [List.foldl_cons, write_end h, ih rfl]
    simp [encodeAll]

/-- The cycles the writer keeps are the least and the greatest of the events. -/
structure Cycles (es : List TraceEvent) (first last : UInt64) : Prop where
  le : ∀ e ∈ es, first ≤ e.cycle
  ge : ∀ e ∈ es, e.cycle ≤ last
  isFirst : es ≠ [] → ∃ e ∈ es, e.cycle = first
  isLast : es ≠ [] → ∃ e ∈ es, e.cycle = last
  firstNil : es = [] → first = .ofNat (2 ^ 64 - 1)
  lastNil : es = [] → last = 0

/-- An open writer that was given `es`: what it wrote, and what waits in its buffer. -/
structure Wrote (n : Doubles D) (config : TraceConfig D) (timestamp : List UInt8) (es : List TraceEvent)
    (w : TraceWriter D) : Prop where
  isOpen : w.isOpen = true
  written : w.config = config
  offset : w.headerOffset = 0
  eventsOffset : w.eventsOffset = .ofNat (sizeofHeader + (metadata n config timestamp).length)
  pos : w.file.pos = w.file.data.length
  data : ∃ (h : TraceHeader) (sent : List TraceEvent), w.file.data = h.encode ++ metadata n config timestamp ++ encodeAll sent ∧
    sent ++ w.buffer = es ∧ w.eventCount = .ofNat sent.length
  cycles : Cycles es w.firstCycle w.lastCycle

theorem openFile_eq (hw : w.isOpen = false) :
    w.openFile n config timestamp = (true, { w with
      isOpen := true
      file := ⟨(header config 0 0 0 0).encode ++ metadata n config timestamp,
        sizeofHeader + (metadata n config timestamp).length⟩
      config := config, eventCount := 0, firstCycle := .ofNat (2 ^ 64 - 1), lastCycle := 0, headerOffset := 0
      eventsOffset := .ofNat (sizeofHeader + (metadata n config timestamp).length), buffer := [] }) := by
  have hwrite : ∀ h d : List UInt8, (({} : OutFile).write h).write d = ⟨h ++ d, h.length + d.length⟩ := by
    intro h d
    have hfirst : ({} : OutFile).write h = ⟨h, h.length⟩ := by simp [OutFile.write, splice]
    rw [hfirst, write_end rfl, List.length_append]
  simp only [openFile, hw, Bool.false_eq_true, if_false, writeYAMLMetadata, writeHeader, hwrite,
    TraceHeader.length_encode]

theorem wrote_open (hw : w.isOpen = false) : Wrote n config timestamp [] (w.openFile n config timestamp).2 := by
  rw [openFile_eq hw]
  refine ⟨rfl, rfl, rfl, rfl, ?_, ⟨header config 0 0 0 0, [], ?_, rfl, rfl⟩,
    nofun, nofun, fun h => absurd rfl h, fun h => absurd rfl h, fun _ => rfl, fun _ => rfl⟩
  · rw [List.length_append, TraceHeader.length_encode]
  · rw [encodeAll, List.flatMap_nil, List.append_nil]

theorem Wrote.flushBuffer (h : Wrote n config timestamp es w) :
    Wrote n config timestamp es w.flushBuffer ∧ w.flushBuffer.buffer = [] := by
  obtain ⟨hd, sent, hdata, hes, hcount⟩ := h.data
  rw [TraceWriter.flushBuffer]
  split
  next hempty => exact ⟨h, List.isEmpty_iff.mp hempty⟩
  next =>
    rw [write_events _ h.pos]
    refine ⟨⟨h.isOpen, h.written, h.offset, h.eventsOffset, rfl, ⟨hd, es, ?_, List.append_nil _, ?_⟩, h.cycles⟩, rfl⟩
    · show w.file.data ++ encodeAll w.buffer = _
      rw [hdata, ← hes, encodeAll_append, List.append_assoc]
    · show w.eventCount + .ofNat w.buffer.length = .ofNat es.length
      rw [hcount, ← hes, List.length_append, ← UInt64.ofNat_add]

theorem Cycles.concat {first last : UInt64} (h : Cycles es first last) (e : TraceEvent) :
    Cycles (es ++ [e]) (if e.cycle < first then e.cycle else first) (if e.cycle > last then e.cycle else last) := by
  have hne : ¬es ++ [e] = [] := by simp
  refine ⟨fun x hx => ?_, fun x hx => ?_, fun _ => ?_, fun _ => ?_, fun hnil => absurd hnil hne, fun hnil => absurd hnil hne⟩
  · rcases List.mem_append.mp hx with hx | hx
    · have := h.le x hx
      split
      next hlt => exact UInt64.le_trans (UInt64.le_of_lt hlt) this
      next => exact this
    · obtain rfl := List.mem_singleton.mp hx
      split
      next => exact UInt64.le_refl _
      next hge => exact UInt64.not_lt.mp hge
  · rcases List.mem_append.mp hx with hx | hx
    · have := h.ge x hx
      split
      next hlt => exact UInt64.le_trans this (UInt64.le_of_lt hlt)
      next => exact this
    · obtain rfl := List.mem_singleton.mp hx
      split
      next => exact UInt64.le_refl _
      next hge => exact UInt64.not_lt.mp hge
  · split
    next => exact ⟨e, by simp, rfl⟩
    next hge =>
      by_cases hes : es = []
      · -- nothing is above the first cycle of no events
        refine ⟨e, by simp, UInt64.le_antisymm ?_ (UInt64.not_lt.mp hge)⟩
        have hlt := e.cycle.toNat_lt
        rw [h.firstNil hes, UInt64.le_iff_toNat_le, UInt64.toNat_ofNat_of_lt' (by decide)]
        omega
      · obtain ⟨x, hx, heq⟩ := h.isFirst hes
        exact ⟨x, List.mem_append_left _ hx, heq⟩
  · split
    next => exact ⟨e, by simp, rfl⟩
    next hge =>
      by_cases hes : es = []
      · refine ⟨e, by simp, UInt64.le_antisymm (UInt64.not_lt.mp hge) ?_⟩
        rw [h.lastNil hes]
        exact (UInt64.zero_le)
      · obtain ⟨x, hx, heq⟩ := h.isLast hes
        exact ⟨x, List.mem_append_left _ hx, heq⟩

theorem Wrote.call (h : Wrote n config timestamp es w) (c : Call) :
    Wrote n config timestamp (es ++ c.event?.toList) (w.call c) := by
  cases c with
  | writeEvent e =>
    obtain ⟨hd, sent, hdata, hes, hcount⟩ := h.data
    have hnew : Wrote n config timestamp (es ++ [e]) { w with
        buffer := w.buffer ++ [e]
        firstCycle := if e.cycle < w.firstCycle then e.cycle else w.firstCycle
        lastCycle := if e.cycle > w.lastCycle then e.cycle else w.lastCycle } :=
      ⟨h.isOpen, h.written, h.offset, h.eventsOffset, h.pos,
        ⟨hd, sent, hdata, by rw [← hes, List.append_assoc], hcount⟩, h.cycles.concat e⟩
    show Wrote n config timestamp (es ++ [e]) (w.writeEvent e)
    rw [TraceWriter.writeEvent, if_neg (by simp [h.isOpen])]
    dsimp only
    split
    · exact hnew.flushBuffer.1
    · exact hnew
  | flush =>
    show Wrote n config timestamp (es ++ []) w.flush
    rw [TraceWriter.flush, if_pos h.isOpen, List.append_nil]
    exact h.flushBuffer.1
  | setBufferSize size =>
    show Wrote n config timestamp (es ++ []) (w.setBufferSize size)
    rw [List.append_nil]
    exact ⟨h.isOpen, h.written, h.offset, h.eventsOffset, h.pos, h.data, h.cycles⟩

theorem Wrote.calls (h : Wrote n config timestamp es w) (calls : List Call) :
    Wrote n config timestamp (es ++ events calls) (calls.foldl TraceWriter.call w) := by
  induction calls generalizing es w with
  | nil => simpa [events] using h
  | cons c calls ih =>
    have := ih (h.call c)
    rw [List.append_assoc] at this
    cases hc : c.event? with
    | none => simpa [events, hc] using this
    | some e => simpa [events, hc] using this

theorem updateHeader_data {h : TraceHeader} {rest : List UInt8} (hoff : w.headerOffset = 0)
    (hdata : w.file.data = h.encode ++ rest) :
    w.updateHeader.file.data = (header w.config w.eventCount w.eventsOffset w.firstCycle w.lastCycle).encode ++ rest := by
  have hdrop : (h.encode ++ rest).drop sizeofHeader = rest := List.drop_left' (TraceHeader.length_encode h)
  rw [updateHeader]
  dsimp only [OutFile.write, splice]
  rw [hoff, hdata, List.take_zero, List.nil_append, TraceHeader.length_encode, Nat.zero_add, hdrop]

/-- **What a writer leaves**: a header with the counts, the metadata, and the events. -/
theorem written_eq (hw : w.isOpen = false) (calls : List Call) :
    ∃ first last, Cycles (events calls) first last ∧
      written n w config timestamp calls =
        (header config (.ofNat (events calls).length) (.ofNat (sizeofHeader + (metadata n config timestamp).length))
          first last).encode ++ (metadata n config timestamp ++ encodeAll (events calls)) := by
  have hwrote := (@wrote_open D n w config timestamp hw).calls calls
  rw [List.nil_append] at hwrote
  have hclose : written n w config timestamp calls =
      (calls.foldl call (w.openFile n config timestamp).2).flushBuffer.updateHeader.file.data := by
    rw [written, close, if_neg (by simp [hwrote.isOpen])]
  obtain ⟨hflush, hbuf⟩ := hwrote.flushBuffer
  rw [hclose]
  generalize (calls.foldl call (w.openFile n config timestamp).2).flushBuffer = w' at hflush hbuf
  obtain ⟨hd, sent, hdata, hes, hcount⟩ := hflush.data
  rw [hbuf, List.append_nil] at hes
  rw [List.append_assoc] at hdata
  refine ⟨w'.firstCycle, w'.lastCycle, hflush.cycles, ?_⟩
  rw [updateHeader_data hflush.offset hdata, hflush.written, hcount, hflush.eventsOffset, hes]

end TraceWriter

end Pimid.TraceFile
