import Pimid.TraceFile.RoundTrip

/-!
# Files that are not traces

A file need not come from a writer. `open` looks at its header and, where there is one,
at the metadata; `validate` then compares the size of the file with the size that the
header says, which it computes modulo 2^64. What the header says is the file's to choose.
-/

namespace Pimid.TraceFile

variable {D : Type} {n : Doubles D} {data : List UInt8} {r : TraceReader D}

namespace TraceReader

/-- In 64 bits, as the code computes it. -/
def getExpectedFileSize (r : TraceReader D) : UInt64 :=
  r.header.headerSize + r.header.numEvents * .ofNat sizeofEvent

def validate (r : TraceReader D) : Bool :=
  if !r.isOpen then false
  else if r.header.magic.toNat ≠ traceMagic then false
  else if r.header.version.toNat >>> 8 ≠ traceVersionMajor then false
  else if UInt64.ofNat r.fileSize < r.getExpectedFileSize then false
  else true

end TraceReader

/-! ## What a file says -/

/-- The size of the file that the header promises. -/
def promisedSize (data : List UInt8) : Nat :=
  (fileHeader data).headerSize.toNat + sizeofEvent * (fileHeader data).numEvents.toNat

/-- **The reader is safe from a file**: `open` returns, true only for a good header, and
after a `validate` the events are there, all of them, and read one by one. -/
def OpensSafely (n : Doubles D) (r : TraceReader D) (data : List UInt8) : Prop :=
  (∃ opened, (r.openFile n data).1 = .ok opened) ∧
  ((r.openFile n data).1 = .ok true → HeaderOk data) ∧
  ((r.openFile n data).2.validate = true →
    promisedSize data ≤ data.length ∧
    (∀ e ∈ ((r.openFile n data).2.reads (fileHeader data).numEvents.toNat).1, e.isOk = true) ∧
    ((r.openFile n data).2.reads (fileHeader data).numEvents.toNat).2.hasNextEvent = false)

/-! ## Reading through -/

namespace TraceReader

/-- A reader of a file that has room for all the events of its header, at its place. -/
structure Within (off : Nat) (r : TraceReader D) : Prop where
  isOpen : r.isOpen = true
  good : r.file.fail = false
  room : off + sizeofEvent * r.header.numEvents.toNat ≤ r.file.data.length
  index : r.currentIndex.toNat ≤ r.header.numEvents.toNat
  pos : r.file.pos = off + sizeofEvent * r.currentIndex.toNat

theorem Within.hasNextEvent {off : Nat} (h : Within off r) :
    r.hasNextEvent = decide (r.currentIndex.toNat < r.header.numEvents.toNat) := by
  rw [TraceReader.hasNextEvent, h.isOpen, Bool.true_and]
  exact decide_eq_decide.mpr UInt64.lt_iff_toNat_lt

theorem Within.readNextEvent {off : Nat} (h : Within off r)
    (hlt : r.currentIndex.toNat < r.header.numEvents.toNat) :
    r.readNextEvent.1.isOk = true ∧ Within off r.readNextEvent.2 ∧
      r.readNextEvent.2.currentIndex.toNat = r.currentIndex.toNat + 1 ∧ r.readNextEvent.2.header = r.header := by
  have hnext : r.hasNextEvent = true := by rw [h.hasNextEvent, decide_eq_true hlt]
  have hroom := h.room
  have hstep : sizeofEvent * (r.currentIndex.toNat + 1) ≤ sizeofEvent * r.header.numEvents.toNat :=
    Nat.mul_le_mul_left _ hlt
  rw [Nat.mul_succ] at hstep
  have hlen : (slice r.file.data r.file.pos sizeofEvent).length = sizeofEvent :=
    length_slice (.of_le (by rw [h.pos]; omega))
  have hread : r.file.read sizeofEvent =
      (slice r.file.data r.file.pos sizeofEvent, { r.file with pos := r.file.pos + sizeofEvent, fail := false }) := by
    rw [InFile.read, if_neg (by simp [h.good])]
    simp only [hlen, Nat.lt_irrefl, decide_false]
  have hsucc : (r.currentIndex + 1).toNat = r.currentIndex.toNat + 1 := by
    have hsize := r.header.numEvents.toNat_lt
    have hone : (1 : UInt64).toNat = 1 := rfl
    rw [UInt64.toNat_add, hone, Nat.mod_eq_of_lt (by omega)]
  rw [TraceReader.readNextEvent, if_neg (by simp [hnext]), hread]
  simp only [hlen, ne_eq, not_true_eq_false, if_false]
  refine ⟨rfl, ⟨h.isOpen, rfl, h.room, ?_, ?_⟩, hsucc, trivial⟩
  · show (r.currentIndex + 1).toNat ≤ _
    rw [hsucc]
    exact hlt
  · show r.file.pos + sizeofEvent = off + sizeofEvent * (r.currentIndex + 1).toNat
    rw [hsucc, h.pos, Nat.mul_succ, Nat.add_assoc]

theorem Within.reads {off k : Nat} (h : Within off r) (hk : r.currentIndex.toNat + k = r.header.numEvents.toNat) :
    (∀ e ∈ (r.reads k).1, e.isOk = true) ∧ (r.reads k).2.hasNextEvent = false := by
  induction k generalizing r with
  | zero =>
    refine ⟨fun e he => absurd he (List.not_mem_nil), ?_⟩
    rw [TraceReader.reads, h.hasNextEvent, decide_eq_false (by omega)]
  | succ k ih =>
    obtain ⟨hok, hwithin, hindex, hheader⟩ := h.readNextEvent (by omega)
    obtain ⟨hrest, hend⟩ := ih hwithin (by rw [hindex, hheader]; omega)
    refine ⟨fun e he => ?_, hend⟩
    rcases List.mem_cons.mp he with rfl | he
    · exact hok
    · exact hrest e he

end TraceReader

/-! ## Opening any file -/

theorem openFile_refused (h : (r.openFile n data).1 = .ok false) : (r.openFile n data).2.isOpen = false := by
  rw [TraceReader.openFile] at h ⊢
  cases hread : TraceReader.readHeader n { r with isOpen := true, file := { data }, fileSize := data.length } with
  | mk result r' =>
    rw [hread] at h
    rcases result with e | _ | _
    · cases h
    · rfl
    · cases h

theorem not_validate_of_closed (h : r.isOpen = false) : r.validate = false := by
  rw [TraceReader.validate, h]
  rfl

theorem opensSafely_of_badHeader (h : ¬HeaderOk data) : OpensSafely n r data := by
  have hbad := TraceReader.openFile_bad (n := n) (r := r) h
  have hclosed := not_validate_of_closed (openFile_refused hbad)
  refine ⟨⟨false, hbad⟩, fun hopen => ?_, fun hvalid => ?_⟩
  · rw [hbad] at hopen
    cases hopen
  · rw [hclosed] at hvalid
    cases hvalid

theorem not_opensSafely_of_text (h : HeaderOk data) (hread : ReadsText data) (hbad : yamlReads n (yamlText data) = false) :
    ¬OpensSafely n r data := by
  intro ⟨⟨opened, hopened⟩, _⟩
  rcases TraceReader.openFile_good (n := n) (r := r) h with ⟨-, -, e, he⟩ | ⟨hok, -⟩
  · rw [hopened] at he
    cases he
  · rw [hok hread] at hbad
    cases hbad

theorem opensSafely_iff_of_text (h : HeaderOk data) (htext : ReadsText data → yamlReads n (yamlText data) = true)
    (hsize : data.length < 2 ^ 63) :
    OpensSafely n r data ↔ (promisedSize data % 2 ^ 64 ≤ data.length → promisedSize data < 2 ^ 64) := by
  rcases TraceReader.openFile_good (n := n) (r := r) h with ⟨hread, hbad, -⟩ | ⟨-, config, hopen⟩
  · rw [htext hread] at hbad
    cases hbad
  · generalize hr' : (⟨true, (TraceReader.afterText data).seekg (fileHeader data).headerSize, fileHeader data, config, 0,
      (fileHeader data).headerSize, data.length⟩ : TraceReader D) = r'
    have hopened : r.openFile n data = (.ok true, r') := by
      rw [hopen, ← hr']
    have hexpected : r'.getExpectedFileSize.toNat = promisedSize data % 2 ^ 64 := by
      have hevent : (UInt64.ofNat sizeofEvent).toNat = sizeofEvent := by decide
      rw [← hr', TraceReader.getExpectedFileSize, UInt64.toNat_add, UInt64.toNat_mul, hevent, Nat.add_mod_mod, promisedSize,
        Nat.mul_comm sizeofEvent]
    have hvalid : r'.validate = true ↔ promisedSize data % 2 ^ 64 ≤ data.length := by
      have hlength : (UInt64.ofNat data.length).toNat = data.length :=
        UInt64.toNat_ofNat_of_lt' (by rw [UInt64.size]; omega)
      have hshort : UInt64.ofNat r'.fileSize < r'.getExpectedFileSize ↔ data.length < promisedSize data % 2 ^ 64 := by
        rw [UInt64.lt_iff_toNat_lt, hexpected, ← hr', hlength]
      have hisOpen : r'.isOpen = true := by rw [← hr']
      have hheader : r'.header = fileHeader data := by rw [← hr']
      rw [TraceReader.validate, hisOpen, hheader, if_neg (by simp), if_neg (not_not.mpr h.2.1), if_neg (not_not.mpr h.2.2)]
      by_cases hlt : data.length < promisedSize data % 2 ^ 64
      · rw [if_pos (hshort.mpr hlt)]
        exact ⟨fun hf => absurd hf Bool.false_ne_true, fun hle => absurd hlt (Nat.not_lt.mpr hle)⟩
      · rw [if_neg (fun hs => hlt (hshort.mp hs))]
        exact ⟨fun _ => Nat.not_lt.mp hlt, fun _ => rfl⟩
    rw [OpensSafely, hopened]
    constructor
    · intro h' hle
      obtain ⟨_, _, hsafe⟩ := h'
      have hholds := (hsafe (hvalid.mpr hle)).1
      omega
    · intro hwrap
      refine ⟨⟨true, rfl⟩, fun _ => h, fun hv => ?_⟩
      have hle := hvalid.mp hv
      rw [Nat.mod_eq_of_lt (hwrap hle)] at hle
      have hfits := hle
      rw [promisedSize] at hfits
      have hwithin : TraceReader.Within (fileHeader data).headerSize.toNat r' := by
        have hfile := TraceReader.afterText_seekg hsize (by omega)
        rw [← hr', hfile]
        refine ⟨rfl, rfl, hfits, Nat.zero_le _, ?_⟩
        show _ = _ + sizeofEvent * 0
        rw [Nat.mul_zero, Nat.add_zero]
      have hall := hwithin.reads (k := (fileHeader data).numEvents.toNat) (by rw [← hr']; exact Nat.zero_add _)
      exact ⟨hle, hall⟩

/-- **A bad trace file is refused or read safely** if and only if its metadata, where it
is read, parses, and the size its header promises does not wrap below its own. -/
theorem trace_file_safe (n : Doubles D) (r : TraceReader D) (data : List UInt8) (hsize : data.length < 2 ^ 63) :
    OpensSafely n r data ↔
      (HeaderOk data →
        (ReadsText data → yamlReads n (yamlText data) = true) ∧
        (promisedSize data % 2 ^ 64 ≤ data.length → promisedSize data < 2 ^ 64)) := by
  by_cases hheader : HeaderOk data
  · by_cases htext : ReadsText data → yamlReads n (yamlText data) = true
    · rw [opensSafely_iff_of_text hheader htext hsize]
      exact ⟨fun h _ => ⟨htext, h⟩, fun h => (h hheader).2⟩
    · obtain ⟨hread, hbad⟩ := Classical.not_imp.mp htext
      refine ⟨fun h => absurd h (not_opensSafely_of_text hheader hread (Bool.not_eq_true _ ▸ hbad)), fun h => ?_⟩
      exact absurd (h hheader).1 htext
  · exact ⟨fun _ h => absurd h hheader, fun _ => opensSafely_of_badHeader hheader⟩

/-- A header with a size and a count. -/
def sizedHeader (headerSize numEvents : UInt64) : TraceHeader :=
  { TraceHeader.zero with
    magic := .ofNat traceMagic, version := .ofNat traceVersion, headerSize, numEvents }

theorem trace_file_safe_one : OpensSafely wholes { config := .default 1000 }
    ((sizedHeader 64 1).encode ++ List.replicate sizeofEvent 0) :=
  (trace_file_safe wholes { config := .default 1000 } ((sizedHeader 64 1).encode ++ List.replicate sizeofEvent 0)
    (by decide +kernel)).mpr (by decide +kernel)

/-- 2^60 events in a file that is a header, and text that sets a number to a word. -/
theorem trace_file_unsafe :
    ¬OpensSafely wholes { config := .default 1000 } (sizedHeader 64 (.ofNat (2 ^ 60))).encode ∧
    ¬OpensSafely wholes { config := .default 1000 } ((sizedHeader 77 0).encode ++ text "num_pes: many") := by
  constructor
  · rw [opensSafely_iff_of_text (by decide +kernel) (by decide +kernel) (by decide +kernel)]
    decide +kernel
  · exact not_opensSafely_of_text (by decide +kernel) (by decide +kernel) (by decide +kernel)

end Pimid.TraceFile
