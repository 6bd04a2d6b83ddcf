import Pimid.TraceFile.Reader

/-!
# Opening a trace file

What `open` does with a file is decided by its first 64 bytes and, when that is neither
empty nor a megabyte, the text after them.
-/

namespace Pimid.TraceFile

variable {D : Type}

/-- The header of a file. -/
def fileHeader (data : List UInt8) : TraceHeader := TraceHeader.decode (slice data 0 sizeofHeader)

/-- A complete header, with the right magic and major version. -/
def HeaderOk (data : List UInt8) : Prop :=
  sizeofHeader ≤ data.length ∧ (fileHeader data).magic.toNat = traceMagic ∧
    (fileHeader data).version.toNat >>> 8 = traceVersionMajor

instance (data : List UInt8) : Decidable (HeaderOk data) := inferInstanceAs (Decidable (_ ∧ _))

/-- The size of the text, modulo 2^64. -/
def yamlSize (data : List UInt8) : UInt64 := (fileHeader data).headerSize - .ofNat sizeofHeader

/-- The text is read. -/
def ReadsText (data : List UInt8) : Prop := yamlSize data > 0 ∧ yamlSize data < 1024 * 1024

instance (data : List UInt8) : Decidable (ReadsText data) := inferInstanceAs (Decidable (_ ∧ _))

/-- The text, filled up with zeros where the file ends before it does. -/
def yamlText (data : List UInt8) : List UInt8 :=
  slice data sizeofHeader (yamlSize data).toNat ++
    List.replicate ((yamlSize data).toNat - (slice data sizeofHeader (yamlSize data).toNat).length) 0

namespace TraceReader

variable {n : Doubles D} {r : TraceReader D} {data : List UInt8}

theorem read_header (data : List UInt8) :
    ({ data := data } : InFile).read sizeofHeader =
      (slice data 0 sizeofHeader,
        ⟨data, (slice data 0 sizeofHeader).length, decide ((slice data 0 sizeofHeader).length < sizeofHeader)⟩) := by
  simp [InFile.read]

theorem length_header : (slice data 0 sizeofHeader).length = sizeofHeader ↔ sizeofHeader ≤ data.length := by
  rw [slice, List.drop_zero, List.length_take]
  omega

theorem openFile_bad (h : ¬HeaderOk data) : (r.openFile n data).1 = .ok false := by
  rw [openFile, readHeader, read_header]
  dsimp only
  by_cases hlen : sizeofHeader ≤ data.length
  · have hlen' := length_header.mpr hlen
    rw [if_neg (by simpa using hlen')]
    by_cases hmagic : (fileHeader data).magic.toNat = traceMagic
    · have hversion : ¬(fileHeader data).version.toNat >>> 8 = traceVersionMajor := fun hv => h ⟨hlen, hmagic, hv⟩
      rw [fileHeader] at hmagic hversion
      rw [if_neg (not_not.mpr hmagic), if_pos hversion]
    · rw [fileHeader] at hmagic
      rw [if_pos hmagic]
  · rw [if_pos (fun hlen' => hlen (length_header.mp hlen'))]

/-- The stream after the text. -/
def afterText (data : List UInt8) : InFile :=
  if ReadsText data then
    (({ data := data, pos := sizeofHeader } : InFile).read (yamlSize data).toNat).2
  else { data := data, pos := sizeofHeader }

theorem openFile_header (h : HeaderOk data) : r.openFile n data =
    if ReadsText data then
      match parseYAMLMetadata n r.config (yamlText data) with
      | .error e => (.error e, { r with
          isOpen := true, fileSize := data.length, header := fileHeader data, file := afterText data })
      | .ok config => (.ok true, { r with
          isOpen := true, fileSize := data.length, header := fileHeader data, config := config
          eventsOffset := (fileHeader data).headerSize, currentIndex := 0
          file := (afterText data).seekg (fileHeader data).headerSize })
    else (.ok true, { r with
      isOpen := true, fileSize := data.length, header := fileHeader data
      eventsOffset := (fileHeader data).headerSize, currentIndex := 0
      file := (afterText data).seekg (fileHeader data).headerSize }) := by
  obtain ⟨hlen, hmagic, hversion⟩ := h
  have hlen' := length_header.mpr hlen
  have hread := read_header data
  rw [hlen'] at hread
  simp only [Nat.lt_irrefl, decide_false] at hread
  rw [fileHeader] at hmagic hversion
  rw [openFile, readHeader]
  dsimp only
  rw [hread]
  dsimp only
  rw [if_neg (by simpa using hlen'), if_neg (not_not.mpr hmagic), if_neg (not_not.mpr hversion)]
  by_cases htext : ReadsText data
  · have htext' := htext
    rw [ReadsText, yamlSize, fileHeader] at htext'
    have hafter : afterText data = (({ data := data, pos := sizeofHeader } : InFile).read (yamlSize data).toNat).2 := if_pos htext
    have hgot : (({ data := data, pos := sizeofHeader } : InFile).read (yamlSize data).toNat).1 =
        slice data sizeofHeader (yamlSize data).toNat := by simp [InFile.read]
    rw [if_pos htext', if_pos htext, yamlText, hafter, ← hgot, yamlSize, fileHeader]
    cases parseYAMLMetadata n r.config _ <;> rfl
  · have htext' := htext
    rw [ReadsText, yamlSize, fileHeader] at htext'
    have hafter : afterText data = { data := data, pos := sizeofHeader } := if_neg htext
    rw [if_neg htext', if_neg htext, hafter]
    rfl

/-- With a good header the reader throws when the text is read and does not parse. -/
theorem openFile_good (h : HeaderOk data) :
    (ReadsText data ∧ yamlReads n (yamlText data) = false ∧ ∃ e, (r.openFile n data).1 = .error e) ∨
    ((ReadsText data → yamlReads n (yamlText data) = true) ∧ ∃ config, r.openFile n data =
      (.ok true, { r with
        isOpen := true, fileSize := data.length, header := fileHeader data, config := config
        eventsOffset := (fileHeader data).headerSize, currentIndex := 0
        file := (afterText data).seekg (fileHeader data).headerSize })) := by
  rw [openFile_header h]
  by_cases htext : ReadsText data
  · have hok := parseYAMLMetadata_isOk n r.config (yamlText data)
    rw [if_pos htext]
    cases hparse : parseYAMLMetadata n r.config (yamlText data) with
    | error e =>
      rw [hparse] at hok
      exact .inl ⟨htext, hok.symm, e, rfl⟩
    | ok config =>
      rw [hparse] at hok
      exact .inr ⟨fun _ => hok.symm, config, rfl⟩
  · rw [if_neg htext]
    exact .inr ⟨fun ht => absurd ht htext, r.config, rfl⟩

/-- When the header says no more than there is, the stream is where the events start. -/
theorem afterText_seekg (hsize : data.length < 2 ^ 63) (hle : (fileHeader data).headerSize.toNat ≤ data.length) :
    (afterText data).seekg (fileHeader data).headerSize = { data := data, pos := (fileHeader data).headerSize.toNat } := by
  have hgood : (afterText data).fail = false ∧ (afterText data).data = data := by
    rw [afterText]
    split
    next htext =>
      have hge : sizeofHeader ≤ (fileHeader data).headerSize.toNat := by
        -- else the size of the text is beyond any megabyte
        by_contra hlt
        have hlt : (fileHeader data).headerSize.toNat < 64 := Nat.not_le.mp hlt
        have hsmall := UInt64.lt_iff_toNat_lt.mp htext.2
        have hsub : (yamlSize data).toNat = (2 ^ 64 - 64 + (fileHeader data).headerSize.toNat) % 2 ^ 64 := by
          rw [yamlSize, UInt64.toNat_sub]
          rfl
        have hmega : (1024 * 1024 : UInt64).toNat = 1048576 := rfl
        omega
      have hsub : (yamlSize data).toNat = (fileHeader data).headerSize.toNat - sizeofHeader := by
        have hle : UInt64.ofNat sizeofHeader ≤ (fileHeader data).headerSize := UInt64.le_iff_toNat_le.mpr (by exact hge)
        rw [yamlSize, UInt64.toNat_sub_of_le _ _ hle]
        rfl
      have hlen : (slice data sizeofHeader (yamlSize data).toNat).length = (yamlSize data).toNat :=
        length_slice (.of_le (by omega))
      simp [InFile.read, hlen]
    next => exact ⟨rfl, rfl⟩
  rw [InFile.seekg, if_neg (by simp [hgood.1]), if_neg (by omega)]
  simp [hgood]

end TraceReader

end Pimid.TraceFile
