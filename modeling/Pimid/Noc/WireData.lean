import Pimid.Dram.DqLanes

/-!
# Wire activity of a stream

A link of `W` wires carries the packets of a stream cut into flits of `W` bits, the last flit of
a packet padded with zeros. What is counted are the transitions between successive flits, and a
stream keeps its last flit, so that a packet's first flit is compared with the one before it. A
short packet is compared with itself, shifted by a flit, eight bytes at a time; a long one flit
by flit.
-/

namespace Pimid.Noc.WireData

open Finset
open Dram (pimidPop8 pimidPop64 pimidLoad64)

/-- The widths counted. -/
def NW : Nat := 6

def width (i : Nat) : Nat := [8, 16, 32, 64, 128, 256].getD i 8

/-- The last flit at each width, meaningful once a packet is sent. -/
structure Stream where
  last : Nat → Nat → BitVec 8
  «have» : Bool := false

structure Packet where
  n : Nat
  pkt : Nat → BitVec 8

/-- The counters of one network. -/
structure NocWireData where
  packets : Nat := 0
  bits : Nat → Nat := fun _ => 0
  rise : Nat → Nat := fun _ => 0
  toggles : Nat → Nat := fun _ => 0

/-- What one packet adds at one width, and the flit it leaves. -/
structure Cut where
  r : Nat := 0
  t : Nat := 0
  prev : Nat → BitVec 8

/-- The flit before the packet. -/
def Stream.before (st : Stream) (i : Nat) : Nat → BitVec 8 := if st.have then st.last i else fun _ => 0

/-! ## The two ways to count -/

/-- The flit before, the packet and zeros. -/
def buffer (prev : Nat → BitVec 8) (wb : Nat) (p : Packet) (o : Nat) : BitVec 8 :=
  if o < wb then prev o else if o < wb + p.n then p.pkt (o - wb) else 0

def shiftedWord (B : Nat → BitVec 8) (wb : Nat) (c : Cut) (o : Nat) : Cut :=
  let pv := pimidLoad64 B o
  let cv := pimidLoad64 B (o + wb)
  { c with r := c.r + pimidPop64 (~~~pv &&& cv), t := c.t + pimidPop64 (pv ^^^ cv) }

def shiftedByte (B : Nat → BitVec 8) (wb : Nat) (c : Cut) (o : Nat) : Cut :=
  { c with r := c.r + pimidPop8 (~~~(B o) &&& B (o + wb)), t := c.t + pimidPop8 (B o ^^^ B (o + wb)) }

/-- The pairs `(B[o], B[o + wb])`, words while `o + 8 ≤ L`, then bytes. -/
def shifted (prev : Nat → BitVec 8) (wb f : Nat) (p : Packet) : Cut :=
  let B := buffer prev wb p
  let L := f * wb
  let c := (List.range' (L / 8 * 8) (L % 8)).foldl (shiftedByte B wb)
    ((List.range (L / 8)).foldl (fun c m => shiftedWord B wb c (8 * m)) { prev })
  { c with prev := fun o => B (L + o) }

/-- The locals of the loop over the flits. -/
structure FlitLoop extends Cut where
  cur : Nat → BitVec 8 := fun _ => 0

def flitByte (wb : Nat) (p : Packet) (k : Nat) (s : FlitLoop) (j : Nat) : FlitLoop :=
  let o := k * wb + j
  let cur := Function.update s.cur j (if o < p.n then p.pkt o else 0)
  { s with cur, r := s.r + pimidPop8 (~~~(s.prev j) &&& cur j), t := s.t + pimidPop8 (s.prev j ^^^ cur j) }

def flit (wb : Nat) (p : Packet) (s : FlitLoop) (k : Nat) : FlitLoop :=
  let s := (List.range wb).foldl (flitByte wb p k) s
  { s with prev := fun j => if j < wb then s.cur j else s.prev j }

def flitByFlit (prev : Nat → BitVec 8) (wb f : Nat) (p : Packet) : Cut :=
  ((List.range f).foldl (flit wb p) { prev }).toCut

/-- One width of `countPacket`. -/
def cutAt (st : Stream) (p : Packet) (i : Nat) : Cut :=
  let wb := width i / 8
  let f := (p.n + wb - 1) / wb
  if p.n ≤ 256 then shifted (st.before i) wb f p else flitByFlit (st.before i) wb f p

/-- A packet sent by a stream, cut at every width of an interval of indices. -/
def countPacket (s : NocWireData × Stream) (p : Packet) (wlo whi : Nat) : NocWireData × Stream :=
  let (w, st) := s
  let on (i : Nat) : Bool := decide (wlo ≤ i ∧ i ≤ whi)
  ({ packets := w.packets + 1
     bits := fun i => if on i then w.bits i + (p.n + width i / 8 - 1) / (width i / 8) * width i else w.bits i
     rise := fun i => if on i then w.rise i + (cutAt st p i).r else w.rise i
     toggles := fun i => if on i then w.toggles i + (cutAt st p i).t else w.toggles i },
   { last := fun i j => if on i ∧ j < width i / 8 then (cutAt st p i).prev j else st.last i j
     «have» := true })

/-- The packets of a stream, each cut at all widths, from counters at zero and a stream that has
sent nothing. -/
def run (last : Nat → Nat → BitVec 8) (ps : List Packet) : NocWireData × Stream :=
  ps.foldl (fun s p => countPacket s p 0 (NW - 1)) ({}, { last })

/-! ## The flits of a stream -/

/-- Byte `j` of flit `k`, zero behind the packet's end. -/
def flitOf (W : Nat) (p : Packet) (k j : Nat) : BitVec 8 :=
  if k * (W / 8) + j < p.n then p.pkt (k * (W / 8) + j) else 0

/-- The flits of a packet: `⌈8n / W⌉` of them. -/
def flitsOf (W : Nat) (p : Packet) : List (Nat → BitVec 8) := (List.range ((8 * p.n + W - 1) / W)).map (flitOf W p)

/-- The flits of a stream. -/
def stream (W : Nat) (ps : List Packet) : List (Nat → BitVec 8) := ps.flatMap (flitsOf W)

/-- The wires that rise between two flits of `W` bits. -/
def rises (W : Nat) (p c : Nat → BitVec 8) : Nat := ∑ j ∈ range (W / 8), pimidPop8 (~~~(p j) &&& c j)

/-- The wires that change. -/
def switches (W : Nat) (p c : Nat → BitVec 8) : Nat := ∑ j ∈ range (W / 8), pimidPop8 (p j ^^^ c j)

/-- The sum over the steps of a walk. -/
def along {α : Type} (d : α → α → Nat) : α → List α → Nat
  | _, [] => 0
  | p, c :: rest => d p c + along d c rest

end Pimid.Noc.WireData
