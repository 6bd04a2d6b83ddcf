import Pimid.TraceFile.Opening
import Pimid.TraceFile.Position

/-!
# Trace files round-trip

A file that a writer left gives its events back, however the reader is moved about, if
and only if it opens. It does unless one of the lines of its metadata, which is whatever
the configuration's strings make of it, sets a number to something else.
-/

namespace Pimid.TraceFile

variable {D : Type}

/-! ## What a reader of `es` should do -/

/-- A reader answers as the list does from its index on. -/
structure Positioned (es : List TraceEvent) (r : TraceReader D) : Prop where
  hasNext : r.hasNextEvent = decide (r.currentIndex.toNat < es.length)
  next : ∀ e, es[r.currentIndex.toNat]? = some e → r.readNextEvent.1 = .ok e ∧ r.peekNextEvent.1 = .ok e
  seek : ∀ i, (r.seekToEvent i).1 = true ↔ i.toNat < es.length
  seekTo : ∀ i, i.toNat < es.length → (r.seekToEvent i).2.currentIndex = i
  eventAt : ∀ i e, es[i.toNat]? = some e → (r.readEventAt i).1 = .ok e
  cycle : ∀ c, (r.seekToCycle c).1 = .ok true ↔ ∃ e ∈ es, c ≤ e.cycle
  cycleTo : ∀ c, (r.seekToCycle c).1 = .ok true → TraceReader.Found es c 0 (r.seekToCycle c).2.currentIndex.toNat

/-- **A file of `es`**: a reader opens it and reads `es`, the header has their number and
their first and last cycle, and the reader keeps its place whatever is called. -/
def RoundTrip (n : Doubles D) (r : TraceReader D) (data : List UInt8) (es : List TraceEvent) : Prop :=
  ∃ r', r.openFile n data = (.ok true, r') ∧ r'.header.numEvents.toNat = es.length ∧
    (es ≠ [] → (∀ e ∈ es, r'.header.firstCycle ≤ e.cycle ∧ e.cycle ≤ r'.header.lastCycle) ∧
      (∃ e ∈ es, e.cycle = r'.header.firstCycle) ∧ ∃ e ∈ es, e.cycle = r'.header.lastCycle) ∧
    (r'.reads es.length).1 = es.map .ok ∧ (r'.reads es.length).2.hasNextEvent = false ∧
    ∀ cs : List TraceReader.Call, Positioned es (cs.foldl TraceReader.call r')

theorem TraceReader.At.positioned {es : List TraceEvent} {off : Nat} {r : TraceReader D} (h : At es off r) :
    Positioned es r where
  hasNext := h.hasNextEvent
  next e he := ⟨(h.readNextEvent he).1, by rw [h.peekNextEvent he]⟩
  seek i := (h.seekToEvent i).1
  seekTo i := (h.seekToEvent i).2.2
  eventAt i e he := (h.readEventAt i).2 e he
  cycle c := by
    rcases (h.seekToCycle c).2 with ⟨hok, -, ⟨e, he, hle⟩, -⟩ | ⟨hok, hnone⟩
    · exact ⟨fun _ => ⟨e, List.mem_of_getElem? he, hle⟩, fun _ => hok⟩
    · refine ⟨fun ht => ?_, fun ⟨e, he, hle⟩ => absurd hle (hnone e he)⟩
      rw [hok] at ht
      cases ht
  cycleTo c hc := by
    rcases (h.seekToCycle c).2 with ⟨-, hfound⟩ | ⟨hok, -⟩
    · exact hfound
    · rw [hok] at hc
      cases hc

/-! ## The file of a writer -/

section File

variable {n : Doubles D} {w : TraceWriter D} {r : TraceReader D} {config : TraceConfig D} {timestamp : List UInt8}
  {es : List TraceEvent} {first last : UInt64}

/-- The bytes of a file, by its events and their cycles. -/
def fileOf (n : Doubles D) (config : TraceConfig D) (timestamp : List UInt8) (es : List TraceEvent)
    (first last : UInt64) : List UInt8 :=
  (TraceWriter.header config (.ofNat es.length) (.ofNat (sizeofHeader + (metadata n config timestamp).length))
    first last).encode ++ (metadata n config timestamp ++ encodeAll es)

theorem fileHeader_fileOf : fileHeader (fileOf n config timestamp es first last) =
    TraceWriter.header config (.ofNat es.length) (.ofNat (sizeofHeader + (metadata n config timestamp).length))
      first last := by
  have hdec := TraceHeader.decode_encode (TraceWriter.header config (.ofNat es.length)
    (.ofNat (sizeofHeader + (metadata n config timestamp).length)) first last) []
  rw [List.append_nil] at hdec
  rw [fileHeader, fileOf, slice, List.drop_zero, List.take_left' (TraceHeader.length_encode _), hdec]

theorem length_fileOf : (fileOf n config timestamp es first last).length =
    sizeofHeader + (metadata n config timestamp).length + sizeofEvent * es.length := by
  rw [fileOf, List.length_append, List.length_append, TraceHeader.length_encode, length_encodeAll, Nat.add_assoc]

theorem headerOk_fileOf : HeaderOk (fileOf n config timestamp es first last) := by
  refine ⟨by rw [length_fileOf]; omega, ?_, ?_⟩
  · rw [fileHeader_fileOf]
    rfl
  · rw [fileHeader_fileOf]
    show (UInt16.ofNat traceVersion).toNat >>> 8 = traceVersionMajor
    decide

variable (hfit : sizeofHeader + (metadata n config timestamp).length + sizeofEvent * es.length < 2 ^ 63)

include hfit in
theorem yamlSize_fileOf : (yamlSize (fileOf n config timestamp es first last)).toNat = (metadata n config timestamp).length := by
  have hsize : (UInt64.ofNat (sizeofHeader + (metadata n config timestamp).length)).toNat =
      sizeofHeader + (metadata n config timestamp).length := UInt64.toNat_ofNat_of_lt' (by rw [UInt64.size]; omega)
  have hheader : (UInt64.ofNat sizeofHeader).toNat = sizeofHeader := rfl
  rw [yamlSize, fileHeader_fileOf]
  show (UInt64.ofNat _ - UInt64.ofNat sizeofHeader).toNat = _
  rw [UInt64.toNat_sub_of_le _ _ (by rw [UInt64.le_iff_toNat_le, hsize, hheader]; omega), hsize, hheader]
  omega

include hfit in
theorem yamlText_fileOf : yamlText (fileOf n config timestamp es first last) = metadata n config timestamp := by
  have hslice : slice (fileOf n config timestamp es first last) sizeofHeader (metadata n config timestamp).length =
      metadata n config timestamp := by
    rw [fileOf, slice, List.drop_left' (TraceHeader.length_encode _), List.take_left' rfl]
  rw [yamlText, yamlSize_fileOf hfit, hslice, Nat.sub_self, List.replicate_zero, List.append_nil]

include hfit in
/-- The text is there, so it is read unless it is a megabyte. -/
theorem readsText_fileOf : ReadsText (fileOf n config timestamp es first last) ↔ (metadata n config timestamp).length < 2 ^ 20 := by
  have hpos : 0 < (metadata n config timestamp).length := by
    have htail : (text "---\n").length = 4 := rfl
    rw [metadata, List.length_append, htail]
    omega
  have hmega : (1024 * 1024 : UInt64).toNat = 2 ^ 20 := rfl
  have hzero : (0 : UInt64).toNat = 0 := rfl
  rw [ReadsText, gt_iff_lt, UInt64.lt_iff_toNat_lt, UInt64.lt_iff_toNat_lt, yamlSize_fileOf hfit, hmega, hzero]
  omega

include hfit in
theorem at_fileOf (hcycles : TraceWriter.Cycles es first last) (r : TraceReader D) (o : Nat) (c : TraceConfig D) :
    TraceReader.At es (sizeofHeader + (metadata n config timestamp).length) { r with
      isOpen := true, fileSize := o, header := fileHeader (fileOf n config timestamp es first last), config := c
      eventsOffset := (fileHeader (fileOf n config timestamp es first last)).headerSize, currentIndex := 0
      file := (TraceReader.afterText (fileOf n config timestamp es first last)).seekg
        (fileHeader (fileOf n config timestamp es first last)).headerSize } := by
  have hsize : (fileHeader (fileOf n config timestamp es first last)).headerSize.toNat =
      sizeofHeader + (metadata n config timestamp).length := by
    rw [fileHeader_fileOf]
    exact UInt64.toNat_ofNat_of_lt' (by rw [UInt64.size]; omega)
  have hlen : (fileOf n config timestamp es first last).length < 2 ^ 63 := by
    rw [length_fileOf]
    exact hfit
  have hfile := TraceReader.afterText_seekg hlen (by rw [hsize, length_fileOf]; omega)
  have hes : es.length < 2 ^ 63 := by
    have hle : es.length ≤ sizeofEvent * es.length := Nat.le_mul_of_pos_left _ (by decide)
    omega
  rw [hfile, hsize]
  refine ⟨rfl, rfl, ⟨_ ++ metadata n config timestamp, ?_, (List.append_assoc ..).symm⟩, ?_, ?_, hsize, hfit, Nat.zero_le _, ?_⟩
  · rw [List.length_append, TraceHeader.length_encode]
  · show (fileHeader _).numEvents.toNat = _
    rw [fileHeader_fileOf]
    exact UInt64.toNat_ofNat_of_lt' (by rw [UInt64.size]; omega)
  · show (∀ e ∈ es, e.cycle ≤ (fileHeader _).lastCycle) ∧ (es ≠ [] → ∃ e ∈ es, e.cycle = (fileHeader _).lastCycle)
    rw [fileHeader_fileOf]
    exact ⟨hcycles.ge, hcycles.isLast⟩
  · show _ = _ + sizeofEvent * 0
    rw [Nat.mul_zero, Nat.add_zero]

include hfit in
/-- What a reader does with the file: throw over its metadata, or open it at its first
event. -/
theorem openFile_fileOf (hcycles : TraceWriter.Cycles es first last) (r : TraceReader D) :
    ((metadata n config timestamp).length < 2 ^ 20 ∧ yamlReads n (metadata n config timestamp) = false ∧
      ∃ e, (r.openFile n (fileOf n config timestamp es first last)).1 = .error e) ∨
    ((2 ^ 20 ≤ (metadata n config timestamp).length ∨ yamlReads n (metadata n config timestamp) = true) ∧
      ∃ r', r.openFile n (fileOf n config timestamp es first last) = (.ok true, r') ∧
        r'.header = fileHeader (fileOf n config timestamp es first last) ∧ r'.currentIndex = 0 ∧
        TraceReader.At es (sizeofHeader + (metadata n config timestamp).length) r') := by
  have htext : yamlText (fileOf n config timestamp es first last) = _ := yamlText_fileOf hfit
  have hreads : ReadsText (fileOf n config timestamp es first last) ↔ _ := readsText_fileOf hfit
  have hheader : HeaderOk (fileOf n config timestamp es first last) := headerOk_fileOf
  rcases TraceReader.openFile_good (n := n) (r := r) hheader with ⟨hread, hbad, hthrows⟩ | ⟨hok, c, hopen⟩
  · rw [htext] at hbad
    exact .inl ⟨hreads.mp hread, hbad, hthrows⟩
  · rw [htext] at hok
    refine .inr ⟨?_, _, hopen, rfl, rfl, at_fileOf hfit hcycles r _ c⟩
    by_cases hlong : 2 ^ 20 ≤ (metadata n config timestamp).length
    · exact .inl hlong
    · exact .inr (hok (hreads.mpr (Nat.not_le.mp hlong)))

end File

/-- A file whose metadata does not read back does not open: the reader throws. -/
theorem written_not_roundTrip {n : Doubles D} {w : TraceWriter D} (hw : w.isOpen = false) (r : TraceReader D)
    {config : TraceConfig D} {timestamp : List UInt8} (calls : List TraceWriter.Call)
    (hfit : sizeofHeader + (metadata n config timestamp).length +
      sizeofEvent * (TraceWriter.events calls).length < 2 ^ 63)
    (hshort : (metadata n config timestamp).length < 2 ^ 20)
    (hbad : yamlReads n (metadata n config timestamp) = false) :
    ¬RoundTrip n r (TraceWriter.written n w config timestamp calls) (TraceWriter.events calls) := by
  intro ⟨r', hopen, _⟩
  obtain ⟨first, last, hcycles, hwritten⟩ := @TraceWriter.written_eq D n w config timestamp hw calls
  have hfile : TraceWriter.written n w config timestamp calls =
      fileOf n config timestamp (TraceWriter.events calls) first last := hwritten
  rw [hfile] at hopen
  rcases openFile_fileOf hfit hcycles r with ⟨-, -, e, hthrows⟩ | ⟨hok, -⟩
  · rw [hopen] at hthrows
    cases hthrows
  · rcases hok with hok | hok
    · omega
    · rw [hbad] at hok
      cases hok

/-- **Trace files round-trip** if and only if the metadata reads back, or is so long that
it is not read. -/
theorem trace_file_round_trip (n : Doubles D) (w : TraceWriter D) (hw : w.isOpen = false) (r : TraceReader D)
    (config : TraceConfig D) (timestamp : List UInt8) (calls : List TraceWriter.Call)
    (hfit : sizeofHeader + (metadata n config timestamp).length +
      sizeofEvent * (TraceWriter.events calls).length < 2 ^ 63) :
    RoundTrip n r (TraceWriter.written n w config timestamp calls) (TraceWriter.events calls) ↔
      2 ^ 20 ≤ (metadata n config timestamp).length ∨ yamlReads n (metadata n config timestamp) = true := by
  constructor
  · intro h
    by_contra hnot
    obtain ⟨hshort, hbad⟩ := not_or.mp hnot
    exact written_not_roundTrip hw r calls hfit (Nat.not_le.mp hshort) (Bool.not_eq_true _ ▸ hbad) h
  · intro hreads
    obtain ⟨first, last, hcycles, hwritten⟩ := @TraceWriter.written_eq D n w config timestamp hw calls
    have hfile : TraceWriter.written n w config timestamp calls =
        fileOf n config timestamp (TraceWriter.events calls) first last := hwritten
    generalize TraceWriter.events calls = es at *
    rw [hfile]
    rcases openFile_fileOf hfit hcycles r with ⟨hshort, hbad, -⟩ | ⟨-, r', hopen, hheader, hstart, hat⟩
    · rcases hreads with hlong | hreads
      · omega
      · rw [hbad] at hreads
        cases hreads
    · have hindex : r'.currentIndex.toNat + es.length = es.length := by
        rw [hstart]
        exact Nat.zero_add _
      have hall := hat.reads hindex
      rw [hstart] at hall
      refine ⟨r', hopen, hat.count, fun hne => ?_, hall.1, hall.2, fun cs => (hat.calls cs).positioned⟩
      rw [hheader, fileHeader_fileOf]
      exact ⟨fun e he => ⟨hcycles.le e he, hcycles.ge e he⟩, hcycles.isFirst hne, hcycles.isLast hne⟩

/-- Doubles that are whole numbers. -/
def wholes : Doubles Nat := ⟨putNat, fun l => (stoul l).toOption.map UInt64.toNat⟩

theorem trace_file_round_trip_two : RoundTrip wholes { config := .default 1000 }
    (TraceWriter.written wholes { config := .default 1000 } (.default 1000) (text "now")
      [.writeEvent ⟨7, 0, 0, 0, 64, 0, 0, 0, 1, 0⟩, .flush, .setBufferSize 0, .writeEvent ⟨3, 64, 0, 0, 64, 0, 0, 0, 1, 0⟩])
    [⟨7, 0, 0, 0, 64, 0, 0, 0, 1, 0⟩, ⟨3, 64, 0, 0, 64, 0, 0, 0, 1, 0⟩] :=
  (trace_file_round_trip wholes { config := .default 1000 } rfl { config := .default 1000 } (.default 1000) (text "now")
    [.writeEvent ⟨7, 0, 0, 0, 64, 0, 0, 0, 1, 0⟩, .flush, .setBufferSize 0, .writeEvent ⟨3, 64, 0, 0, 64, 0, 0, 0, 1, 0⟩]
    (by decide +kernel)).mpr (.inr (by decide))

/-- A custom key that is also the name of a number. -/
def manyPes : TraceConfig Nat := { TraceConfig.default 1000 with customMetadata := [(text "num_pes", text "many")] }

/-- A configuration whose metadata does not read back. -/
theorem manyPes_not_roundTrip : ¬RoundTrip wholes { config := .default 1000 }
    (TraceWriter.written wholes { config := .default 1000 } manyPes (text "now") []) [] :=
  written_not_roundTrip rfl _ [] (by decide +kernel) (by decide +kernel) (by decide)

end Pimid.TraceFile
