import Pimid.Lib.Bytes

/-!
# The trace file format

A file is a header of 64 bytes, the configuration as YAML text, and the events, 48 bytes
each. Both records have no padding; their bytes are those of the fields in order,
little-endian. A `std::string` is its bytes.

What the C++ library does with doubles is a parameter.
-/

namespace Pimid.TraceFile

/-- The bytes of an ASCII literal. -/
def text (s : String) : List UInt8 := s.toList.map fun c => c.toNat.toUInt8

def traceMagic : Nat := 0x50494D54
def traceVersionMajor : Nat := 1
def traceVersionMinor : Nat := 0
def traceVersion : Nat := traceVersionMajor <<< 8 ||| traceVersionMinor

/-! ## Events -/

structure TraceEvent where
  cycle : UInt64
  address : UInt64
  auxData : UInt64
  peId : UInt32
  size : UInt32
  srcNode : UInt32
  dstNode : UInt32
  reserved : UInt32
  eventType : UInt16
  flags : UInt16
deriving DecidableEq

def TraceEvent.fields (e : TraceEvent) : List (Nat × Nat) :=
  [(8, e.cycle.toNat), (8, e.address.toNat), (8, e.auxData.toNat), (4, e.peId.toNat), (4, e.size.toNat),
    (4, e.srcNode.toNat), (4, e.dstNode.toNat), (4, e.reserved.toNat), (2, e.eventType.toNat), (2, e.flags.toNat)]

def TraceEvent.widths : List Nat := [8, 8, 8, 4, 4, 4, 4, 4, 2, 2]

/-- `sizeof(TraceEvent)` -/
def sizeofEvent : Nat := 48

def TraceEvent.encode (e : TraceEvent) : List UInt8 := putFields e.fields

def TraceEvent.decode (l : List UInt8) : TraceEvent :=
  match getFields widths l with
  | [cycle, address, aux, pe, size, src, dst, reserved, type, flags] =>
    ⟨.ofNat cycle, .ofNat address, .ofNat aux, .ofNat pe, .ofNat size, .ofNat src, .ofNat dst, .ofNat reserved,
      .ofNat type, .ofNat flags⟩
  | _ => ⟨0, 0, 0, 0, 0, 0, 0, 0, 0, 0⟩

@[simp] theorem TraceEvent.length_encode (e : TraceEvent) : e.encode.length = sizeofEvent := by
  rw [encode, length_putFields]
  rfl

theorem TraceEvent.decode_encode (e : TraceEvent) (rest : List UInt8) : decode (e.encode ++ rest) = e := by
  have hfields := getFields_putFields e.fields rest
  have hwidths : e.fields.map Prod.fst = widths := rfl
  rw [hwidths] at hfields
  rw [decode, encode, hfields]
  simp [fields]

/-! ## The header -/

structure TraceHeader where
  magic : UInt32
  version : UInt16
  headerFlags : UInt16
  numEvents : UInt64
  headerSize : UInt64
  numPes : UInt64
  firstCycle : UInt64
  lastCycle : UInt64
  reserved : UInt32 × UInt32 × UInt32 × UInt32
deriving DecidableEq

def TraceHeader.fields (h : TraceHeader) : List (Nat × Nat) :=
  [(4, h.magic.toNat), (2, h.version.toNat), (2, h.headerFlags.toNat), (8, h.numEvents.toNat), (8, h.headerSize.toNat),
    (8, h.numPes.toNat), (8, h.firstCycle.toNat), (8, h.lastCycle.toNat), (4, h.reserved.1.toNat),
    (4, h.reserved.2.1.toNat), (4, h.reserved.2.2.1.toNat), (4, h.reserved.2.2.2.toNat)]

def TraceHeader.widths : List Nat := [4, 2, 2, 8, 8, 8, 8, 8, 4, 4, 4, 4]

/-- `sizeof(TraceHeader)` -/
def sizeofHeader : Nat := 64

def TraceHeader.zero : TraceHeader := ⟨0, 0, 0, 0, 0, 0, 0, 0, (0, 0, 0, 0)⟩

def TraceHeader.encode (h : TraceHeader) : List UInt8 := putFields h.fields

def TraceHeader.decode (l : List UInt8) : TraceHeader :=
  match getFields widths l with
  | [magic, version, flags, events, size, pes, first, last, r₀, r₁, r₂, r₃] =>
    ⟨.ofNat magic, .ofNat version, .ofNat flags, .ofNat events, .ofNat size, .ofNat pes, .ofNat first, .ofNat last,
      (.ofNat r₀, .ofNat r₁, .ofNat r₂, .ofNat r₃)⟩
  | _ => zero

@[simp] theorem TraceHeader.length_encode (h : TraceHeader) : h.encode.length = sizeofHeader := by
  rw [encode, length_putFields]
  rfl

theorem TraceHeader.decode_encode (h : TraceHeader) (rest : List UInt8) : decode (h.encode ++ rest) = h := by
  have hfields := getFields_putFields h.fields rest
  have hwidths : h.fields.map Prod.fst = widths := rfl
  rw [hwidths] at hfields
  rw [decode, encode, hfields]
  simp [fields]

/-! ## The configuration -/

/-- What the C++ library does with doubles: `<<`, and `std::stod`, which may throw. -/
structure Doubles (D : Type) where
  put : D → List UInt8
  stod : List UInt8 → Option D

/-- `customMetadata` is the `std::map` in key order. -/
structure TraceConfig (D : Type) where
  generator : List UInt8
  timestamp : List UInt8
  workload : List UInt8
  memoryTechnology : List UInt8
  channels : UInt32
  ranksPerChannel : UInt32
  banks : UInt32
  subarraysPerBank : UInt32
  nocTopology : List UInt8
  nocRows : UInt32
  nocCols : UInt32
  numPes : UInt32
  peType : List UInt8
  frequencyMhz : D
  numEvents : UInt64
  customMetadata : List (List UInt8 × List UInt8)

/-- A configuration with the defaults of the declaration. -/
def TraceConfig.default {D : Type} (frequencyMhz : D) : TraceConfig D :=
  ⟨[], [], [], [], 1, 1, 4, 1, [], 1, 1, 1, [], frequencyMhz, 0, []⟩

/-- Why a call throws. -/
inductive Thrown where
  | invalidArgument
  | outOfRange
  | runtimeError (what : String)
deriving DecidableEq

end Pimid.TraceFile
