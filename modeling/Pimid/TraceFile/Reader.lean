import Pimid.TraceFile.Writer

/-!
# The trace reader

`TraceReader` keeps a stream and the index of its next event side by side. A call that
throws leaves the reader as it was at the throw.
-/

namespace Pimid.TraceFile

variable {D : Type}

/-- An `std::ifstream`: after a read beyond the end, it has failed. -/
structure InFile where
  data : List UInt8 := []
  pos : Nat := 0
  fail : Bool := false

namespace InFile

/-- The bytes read, `gcount()` of them. -/
def read (f : InFile) (n : Nat) : List UInt8 × InFile :=
  if f.fail then ([], f)
  else
    let got := slice f.data f.pos n
    (got, { f with pos := f.pos + got.length, fail := decide (got.length < n) })

/-- A `streamoff` is signed. -/
def seekg (f : InFile) (off : UInt64) : InFile :=
  if f.fail then f
  else if off.toNat ≥ 2 ^ 63 then { f with fail := true }
  else { f with pos := off.toNat }

/-- `seekg` to what `tellg` gave. -/
def seekBack (f : InFile) (pos : Nat) : InFile := if f.fail then f else { f with pos }

end InFile

structure TraceReader (D : Type) where
  isOpen : Bool := false
  file : InFile := {}
  header : TraceHeader := TraceHeader.zero
  config : TraceConfig D
  currentIndex : UInt64 := 0
  eventsOffset : UInt64 := 0
  fileSize : Nat := 0

namespace TraceReader

/-- The result of a call, or why it threw, and the reader after it. -/
abbrev Result (D α : Type) := Except Thrown α × TraceReader D

/-- The metadata is skipped when it is a megabyte or more. -/
def readHeader (n : Doubles D) (r : TraceReader D) : Result D Bool :=
  let p := r.file.read sizeofHeader
  let r₁ := { r with file := p.2, header := TraceHeader.decode p.1 }
  if p.1.length ≠ sizeofHeader then (.ok false, { r with file := p.2 })
  else if r₁.header.magic.toNat ≠ traceMagic then (.ok false, r₁)
  else if r₁.header.version.toNat >>> 8 ≠ traceVersionMajor then (.ok false, r₁)
  else
    let yamlSize := r₁.header.headerSize - .ofNat sizeofHeader
    if yamlSize > 0 ∧ yamlSize < 1024 * 1024 then
      let q := r₁.file.read yamlSize.toNat
      let yaml := q.1 ++ List.replicate (yamlSize.toNat - q.1.length) 0
      match parseYAMLMetadata n r₁.config yaml with
      | .error e => (.error e, { r₁ with file := q.2 })
      | .ok config => (.ok true, { r₁ with file := q.2, config })
    else (.ok true, r₁)

/-- `open` of a file that there is. -/
def openFile (n : Doubles D) (r : TraceReader D) (data : List UInt8) : Result D Bool :=
  let r₁ := { r with isOpen := true, file := { data }, fileSize := data.length }
  match r₁.readHeader n with
  | (.error e, r₂) => (.error e, r₂)
  | (.ok false, r₂) => (.ok false, { r₂ with isOpen := false })
  | (.ok true, r₂) =>
    (.ok true, { r₂ with
      eventsOffset := r₂.header.headerSize, currentIndex := 0, file := r₂.file.seekg r₂.header.headerSize })

def hasNextEvent (r : TraceReader D) : Bool := r.isOpen && decide (r.currentIndex < r.header.numEvents)

def readNextEvent (r : TraceReader D) : Result D TraceEvent :=
  if !r.hasNextEvent then (.error (.runtimeError "TraceReader: No more events"), r)
  else
    let p := r.file.read sizeofEvent
    if p.1.length ≠ sizeofEvent then (.error (.runtimeError "TraceReader: Failed to read event"), { r with file := p.2 })
    else (.ok (TraceEvent.decode p.1), { r with file := p.2, currentIndex := r.currentIndex + 1 })

def peekNextEvent (r : TraceReader D) : Result D TraceEvent :=
  if !r.hasNextEvent then (.error (.runtimeError "TraceReader: No more events"), r)
  else
    let p := r.file.read sizeofEvent
    if p.1.length ≠ sizeofEvent then (.error (.runtimeError "TraceReader: Failed to read event"), { r with file := p.2 })
    else (.ok (TraceEvent.decode p.1), { r with file := p.2.seekBack r.file.pos })

/-- `readEvents(count)`: up to `count` times the next event. -/
def readEvents (r : TraceReader D) : Nat → Result D (List TraceEvent)
  | 0 => (.ok [], r)
  | count + 1 =>
    if !r.hasNextEvent then (.ok [], r)
    else
      match r.readNextEvent with
      | (.error e, r') => (.error e, r')
      | (.ok e, r') =>
        match readEvents r' count with
        | (.error e, r'') => (.error e, r'')
        | (.ok es, r'') => (.ok (e :: es), r'')

def seekToEvent (r : TraceReader D) (index : UInt64) : Bool × TraceReader D :=
  if index ≥ r.header.numEvents then (false, r)
  else
    let f := r.file.seekg (r.eventsOffset + index * .ofNat sizeofEvent)
    (!f.fail, { r with file := f, currentIndex := index })

def rewind (r : TraceReader D) : TraceReader D :=
  if r.isOpen then { r with file := r.file.seekg r.eventsOffset, currentIndex := 0 } else r

/-- The loop of `seekToCycle`, at most `fuel` turns: the index grows with each. -/
def scan (cycle : UInt64) (r : TraceReader D) : Nat → Result D Bool
  | 0 => (.ok false, r)
  | fuel + 1 =>
    if !r.hasNextEvent then (.ok false, r)
    else
      match r.readNextEvent with
      | (.error e, r') => (.error e, r')
      | (.ok e, r') =>
        if e.cycle ≥ cycle then
          (.ok true, { r' with file := r'.file.seekBack r.file.pos, currentIndex := r'.currentIndex - 1 })
        else scan cycle r' fuel

def seekToCycle (r : TraceReader D) (cycle : UInt64) : Result D Bool :=
  if cycle > r.header.lastCycle then (.ok false, r)
  else r.rewind.scan cycle r.header.numEvents.toNat

def readEventAt (r : TraceReader D) (index : UInt64) : Result D TraceEvent :=
  if index ≥ r.header.numEvents then (.error (.runtimeError "TraceReader: Event index out of range"), r)
  else
    let p := (r.file.seekg (r.eventsOffset + index * .ofNat sizeofEvent)).read sizeofEvent
    (.ok (TraceEvent.decode p.1), { r with file := p.2.seekBack r.file.pos })

/-! ## Sequences of calls -/

inductive Call where
  | readNextEvent
  | peekNextEvent
  | readEvents (count : Nat)
  | seekToEvent (index : UInt64)
  | readEventAt (index : UInt64)
  | seekToCycle (cycle : UInt64)
  | rewind

/-- The reader after a call, thrown out of or not. -/
def call (r : TraceReader D) : Call → TraceReader D
  | .readNextEvent => r.readNextEvent.2
  | .peekNextEvent => r.peekNextEvent.2
  | .readEvents count => (r.readEvents count).2
  | .seekToEvent index => (r.seekToEvent index).2
  | .readEventAt index => (r.readEventAt index).2
  | .seekToCycle cycle => (r.seekToCycle cycle).2
  | .rewind => r.rewind

/-- `n` times `readNextEvent`. -/
def reads (r : TraceReader D) : Nat → List (Except Thrown TraceEvent) × TraceReader D
  | 0 => ([], r)
  | n + 1 => (r.readNextEvent.1 :: (reads r.readNextEvent.2 n).1, (reads r.readNextEvent.2 n).2)

end TraceReader

end Pimid.TraceFile
