import Pimid.Lib.Slice
import Pimid.TraceFile.Metadata

/-!
# The trace writer

`TraceWriter`: a header with no counts yet, the metadata, the events through a buffer,
and at the close the header again, over the first one.

The file system does not fail, so a stream is its bytes and its position. The lock is
left out.
-/

namespace Pimid.TraceFile

variable {D : Type}

/-- An `std::ofstream`. -/
structure OutFile where
  data : List UInt8 := []
  pos : Nat := 0
deriving DecidableEq

def OutFile.write (f : OutFile) (d : List UInt8) : OutFile := ⟨splice f.data f.pos d, f.pos + d.length⟩

/-- `file` keeps the bytes of a closed file. -/
structure TraceWriter (D : Type) where
  isOpen : Bool := false
  file : OutFile := {}
  config : TraceConfig D
  eventCount : UInt64 := 0
  firstCycle : UInt64 := .ofNat (2 ^ 64 - 1)
  lastCycle : UInt64 := 0
  headerOffset : Nat := 0
  eventsOffset : UInt64 := 0
  buffer : List TraceEvent := []
  bufferSize : Nat := 10000

namespace TraceWriter

/-- The header of a file of these counts; what is not named is 0. -/
def header (config : TraceConfig D) (numEvents headerSize firstCycle lastCycle : UInt64) : TraceHeader :=
  { TraceHeader.zero with
    magic := .ofNat traceMagic, version := .ofNat traceVersion, numEvents, headerSize, numPes := config.numPes.toUInt64,
    firstCycle, lastCycle }

def writeHeader (w : TraceWriter D) : TraceWriter D :=
  { w with headerOffset := w.file.pos, file := w.file.write (header w.config 0 0 0 0).encode }

def writeYAMLMetadata (n : Doubles D) (timestamp : List UInt8) (w : TraceWriter D) : TraceWriter D :=
  { w with file := w.file.write (metadata n w.config timestamp) }

/-- `open` of a file that can be opened; `timestamp` is the time of the call. -/
def openFile (n : Doubles D) (w : TraceWriter D) (config : TraceConfig D) (timestamp : List UInt8) :
    Bool × TraceWriter D :=
  if w.isOpen then (false, w)
  else
    let w₁ := { w with
      isOpen := true, file := {}, config, eventCount := 0, firstCycle := .ofNat (2 ^ 64 - 1), lastCycle := 0, buffer := [] }
    let w₂ := w₁.writeHeader.writeYAMLMetadata n timestamp
    (true, { w₂ with eventsOffset := .ofNat w₂.file.pos })

def flushBuffer (w : TraceWriter D) : TraceWriter D :=
  if w.buffer.isEmpty then w
  else
    { w with
      file := w.buffer.foldl (fun f e => f.write e.encode) w.file
      eventCount := w.eventCount + .ofNat w.buffer.length
      buffer := [] }

def writeEvent (w : TraceWriter D) (e : TraceEvent) : TraceWriter D :=
  if !w.isOpen then w
  else
    let w₁ := { w with
      buffer := w.buffer ++ [e]
      firstCycle := if e.cycle < w.firstCycle then e.cycle else w.firstCycle
      lastCycle := if e.cycle > w.lastCycle then e.cycle else w.lastCycle }
    if w₁.buffer.length ≥ w₁.bufferSize then w₁.flushBuffer else w₁

def flush (w : TraceWriter D) : TraceWriter D := if w.isOpen then w.flushBuffer else w

def setBufferSize (w : TraceWriter D) (size : Nat) : TraceWriter D := { w with bufferSize := max size 1 }

/-- The header with the counts, written over the first one. -/
def updateHeader (w : TraceWriter D) : TraceWriter D :=
  let f := { w.file with pos := w.headerOffset }.write
    (header w.config w.eventCount w.eventsOffset w.firstCycle w.lastCycle).encode
  { w with file := { f with pos := f.data.length } }

def close (w : TraceWriter D) : TraceWriter D :=
  if !w.isOpen then w else { w.flushBuffer.updateHeader with isOpen := false }

/-! ## A file written -/

/-- The calls after `open` and before `close`. -/
inductive Call where
  | writeEvent (e : TraceEvent)
  | flush
  | setBufferSize (size : Nat)

def call (w : TraceWriter D) : Call → TraceWriter D
  | .writeEvent e => w.writeEvent e
  | .flush => w.flush
  | .setBufferSize size => w.setBufferSize size

def Call.event? : Call → Option TraceEvent
  | .writeEvent e => some e
  | _ => none

/-- The events of the calls, in order. -/
def events (calls : List Call) : List TraceEvent := calls.filterMap Call.event?

/-- The bytes of the file after `open`, the calls and `close`. -/
def written (n : Doubles D) (w : TraceWriter D) (config : TraceConfig D) (timestamp : List UInt8) (calls : List Call) :
    List UInt8 :=
  (calls.foldl call (w.openFile n config timestamp).2).close.file.data

end TraceWriter

end Pimid.TraceFile
