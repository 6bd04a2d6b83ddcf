import Pimid.Lib.Lanes

/-!
# Data statistics of a DRAM line

The bytes of a line that crosses a DRAM interface, counted as they are, under POD data bus
inversion and under LVSTL data bus inversion: the bits, the pins driven, the bytes inverted
and the pin transitions between beats. The code takes eight bytes at a time in the lanes of a
word, and the rest byte by byte; beside it stand the counts as they are defined.
-/

namespace Pimid.Dram

open Finset

/-! ## Words -/

/-- The bits set in a byte. -/
def pimidPop8 (x : BitVec 8) : Nat := ((List.range 8).map fun k => (x.getLsbD k).toNat).sum

/-- The bits set in each lane, in that lane. -/
def pimidLanePop (x : BitVec 64) : BitVec 64 :=
  let x := x - (x >>> 1 &&& 0x5555555555555555#64)
  let x := (x &&& 0x3333333333333333#64) + (x >>> 2 &&& 0x3333333333333333#64)
  (x + x >>> 4) &&& 0x0F0F0F0F0F0F0F0F#64

def pimidPop64 (x : BitVec 64) : Nat := ((pimidLanePop x * 0x0101010101010101#64) >>> 56).toNat

def pimidLoad64 (b : Nat → BitVec 8) (i : Nat) : BitVec 64 := word fun k => b (i + k)

/-- Unsigned 32-bit arithmetic. -/
def u32 (x : Int) : Nat := (x % 2 ^ 32).toNat

/-! ## A line -/

structure DqDataStats where
  lines : Bool → Nat := fun _ => 0
  unread : Bool → Nat := fun _ => 0
  ones : Bool → Nat := fun _ => 0
  lowPodDbi : Bool → Nat := fun _ => 0
  highLvstlDbi : Bool → Nat := fun _ => 0
  invPod : Bool → Nat := fun _ => 0
  invLvstl : Bool → Nat := fun _ => 0
  toggles : Bool → Nat := fun _ => 0
  togglesPodDbi : Bool → Nat := fun _ => 0
  togglesLvstlDbi : Bool → Nat := fun _ => 0
  beatBytes : Nat := 8

/-- The locals of the loops over the bytes: the counts, the encoded bytes and the inversions. -/
structure DqLine where
  o : Nat := 0
  lp : Nat := 0
  hl : Nat := 0
  ip : Nat := 0
  il : Nat := 0
  ep : Nat → BitVec 8 := fun _ => 0
  el : Nat → BitVec 8 := fun _ => 0
  fp : Nat → Bool := fun _ => false
  fl : Nat → Bool := fun _ => false

/-- Eight elements from `i₀` on are written. -/
def put8 {α : Type} (a : Nat → α) (i₀ : Nat) (x : Nat → α) : Nat → α :=
  fun i => if i₀ ≤ i ∧ i < i₀ + 8 then x (i - i₀) else a i

/-- The bytes `i₀` to `i₀ + 7`. -/
def DqLine.word (b : Nat → BitVec 8) (s : DqLine) (i₀ : Nat) : DqLine :=
  let v := pimidLoad64 b i₀
  let c := pimidLanePop v
  let ge4 := ((c &&& 0x0C0C0C0C0C0C0C0C#64) + 0x7F7F7F7F7F7F7F7F#64) &&& 0x8080808080808080#64
  let pH := ~~~ge4 &&& 0x8080808080808080#64
  let lH := (c + 0x0303030303030303#64) <<< 4 &&& 0x8080808080808080#64
  let pM := pH >>> 7 * 0xFF#64
  let lM := lH >>> 7 * 0xFF#64
  let sc := ((c * 0x0101010101010101#64) >>> 56).toNat
  let scp := (((c &&& pM) * 0x0101010101010101#64) >>> 56).toNat
  let np := pimidPop64 pH
  let scl := (((c &&& lM) * 0x0101010101010101#64) >>> 56).toNat
  let nl := pimidPop64 lH
  { o := s.o + sc
    ip := s.ip + np
    il := s.il + nl
    lp := s.lp + u32 (((scp : Int) + np) + (8 * (8 - np) - (sc - scp)))
    hl := s.hl + u32 ((9 * (nl : Int) - scl) + (sc - scl))
    ep := put8 s.ep i₀ (lane (v ^^^ pM))
    el := put8 s.el i₀ (lane (v ^^^ lM))
    fp := put8 s.fp i₀ fun k => pH.getLsbD (8 * k + 7)
    fl := put8 s.fl i₀ fun k => lH.getLsbD (8 * k + 7) }

/-- Byte `i`. -/
def DqLine.byte (b : Nat → BitVec 8) (s : DqLine) (i : Nat) : DqLine :=
  let c := pimidPop8 (b i)
  let fp := decide (8 - c > 4)
  let fl := decide (c > 4)
  { o := s.o + c
    fp := Function.update s.fp i fp
    fl := Function.update s.fl i fl
    ep := Function.update s.ep i (if fp then ~~~(b i) else b i)
    el := Function.update s.el i (if fl then ~~~(b i) else b i)
    lp := s.lp + if fp then c + 1 else 8 - c
    hl := s.hl + if fl then 8 - c + 1 else c
    ip := s.ip + fp.toNat
    il := s.il + fl.toNat }

/-- The loops over the bytes: words while eight are left, then bytes. -/
def encode (b : Nat → BitVec 8) (n : Nat) : DqLine :=
  (List.range' (n / 8 * 8) (n % 8)).foldl (DqLine.byte b)
    ((List.range (n / 8)).foldl (fun s m => DqLine.word b s (8 * m)) {})

/-- The transitions counted so far: raw, POD and LVSTL. -/
structure Toggles where
  t : Nat := 0
  tp : Nat := 0
  tl : Nat := 0

/-- The pairs of bytes `j₀` to `j₀ + 7`. -/
def Toggles.word (b : Nat → BitVec 8) (e : DqLine) (w : Nat) (s : Toggles) (j₀ : Nat) : Toggles where
  t := s.t + pimidPop64 (pimidLoad64 b j₀ ^^^ pimidLoad64 b (j₀ + w))
  tp := s.tp + pimidPop64 (pimidLoad64 e.ep j₀ ^^^ pimidLoad64 e.ep (j₀ + w)) +
    ((List.range 8).map fun k => (e.fp (j₀ + k) != e.fp (j₀ + k + w)).toNat).sum
  tl := s.tl + pimidPop64 (pimidLoad64 e.el j₀ ^^^ pimidLoad64 e.el (j₀ + w)) +
    ((List.range 8).map fun k => (e.fl (j₀ + k) != e.fl (j₀ + k + w)).toNat).sum

/-- The pair of byte `i`. -/
def Toggles.byte (b : Nat → BitVec 8) (e : DqLine) (w : Nat) (s : Toggles) (i : Nat) : Toggles where
  t := s.t + pimidPop8 (b i ^^^ b (i + w))
  tp := s.tp + (pimidPop8 (e.ep i ^^^ e.ep (i + w)) + (e.fp i != e.fp (i + w)).toNat)
  tl := s.tl + (pimidPop8 (e.el i ^^^ e.el (i + w)) + (e.fl i != e.fl (i + w)).toNat)

/-- The loops over the pairs: words while `j₀ + w + 8 ≤ n`, then bytes while `i + w < n`. -/
def pairs (b : Nat → BitVec 8) (n w : Nat) (e : DqLine) : Toggles :=
  let j₀ := (n - w) / 8 * 8
  (List.range' j₀ (n - w - j₀)).foldl (Toggles.byte b e w)
    ((List.range ((n - w) / 8)).foldl (fun s m => Toggles.word b e w s (8 * m)) {})

/-- The beat's bytes if they divide the line, else eight. -/
def beatOf (beatBytes n : Nat) : Nat := if beatBytes > 0 ∧ beatBytes ≤ n ∧ n % beatBytes = 0 then beatBytes else 8

/-- `count.atomicInc(x)` in direction `d` -/
def inc (count : Bool → Nat) (d : Bool) (x : Nat) : Bool → Nat := Function.update count d (count d + x)

/-- A line of `n` bytes, read or written. -/
def DqDataStats.countBytes (st : DqDataStats) (b : Nat → BitVec 8) (n : Nat) (isWrite : Bool) : DqDataStats :=
  if n > 256 then { st with unread := inc st.unread isWrite 1 }
  else
    let e := encode b n
    let s := pairs b n (beatOf st.beatBytes n) e
    { st with
      lines := inc st.lines isWrite 1
      ones := inc st.ones isWrite e.o
      lowPodDbi := inc st.lowPodDbi isWrite e.lp
      highLvstlDbi := inc st.highLvstlDbi isWrite e.hl
      invPod := inc st.invPod isWrite e.ip
      invLvstl := inc st.invLvstl isWrite e.il
      toggles := inc st.toggles isWrite s.t
      togglesPodDbi := inc st.togglesPodDbi isWrite s.tp
      togglesLvstlDbi := inc st.togglesLvstlDbi isWrite s.tl }

/-! ## The definitions -/

/-- A rule of data bus inversion: the bytes it inverts. -/
def podInverts (b : BitVec 8) : Bool := decide (8 - pimidPop8 b > 4)

def lvstlInverts (b : BitVec 8) : Bool := decide (pimidPop8 b > 4)

/-- The byte on the pins. -/
def encoded (inverts : BitVec 8 → Bool) (b : BitVec 8) : BitVec 8 := if inverts b then ~~~b else b

/-- The pins of a byte driven low under POD, with DBI_n, which is low when the byte is inverted. -/
def podLow (b : BitVec 8) : Nat := 8 - pimidPop8 (encoded podInverts b) + (podInverts b).toNat

/-- The pins of a byte driven high under LVSTL, with DMI, which is high when the byte is inverted. -/
def lvstlHigh (b : BitVec 8) : Nat := pimidPop8 (encoded lvstlInverts b) + (lvstlInverts b).toNat

/-- The pins that change between two encoded bytes, the inversion's pin included. -/
def changes (inverts : BitVec 8 → Bool) (b b' : BitVec 8) : Nat :=
  pimidPop8 (encoded inverts b ^^^ encoded inverts b') + (inverts b != inverts b').toNat

end Pimid.Dram
