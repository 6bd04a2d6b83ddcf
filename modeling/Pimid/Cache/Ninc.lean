import Pimid.Lib.Machine
import Pimid.Lib.Places

/-!
# The non-inclusive last-level cache

`NonInclusiveCache::access` with its data array and its snoop filter, over `n`
children that are MESI caches with atomic accesses and over memory. The snoop filter
is a map by line. Way `id` of the data array belongs to set `id / dWays`.

The source moves no data. Here every copy has a value, so that it can be said which
copies are up to date: `copy`, `data`, `memory` and `latest` are read by nothing that
decides an access. `memReqs` counts the requests to memory.
-/

namespace Pimid.Cache

open Function (update)

inductive MESIState where
  | I
  | S
  | E
  | M
deriving DecidableEq, Repr

structure SFEntry (n : Nat) where
  sharers : Fin n → Bool
  numSharers : Nat
  exclusive : Bool
  mem : MESIState

def SFEntry.isExclusive {n : Nat} (e : SFEntry n) : Bool :=
  e.numSharers == 1 && e.exclusive

/-- A way of the data array. -/
structure Way (Val : Type) where
  tag : Nat
  state : MESIState
  stamp : Nat
  data : Val

structure Geometry where
  dSets : Nat
  dWays : Nat

structure Ninc (n : Nat) (Val : Type) where
  way : Nat → Way Val
  dClock : Nat
  sf : Nat → Option (SFEntry n)
  child : Fin n → Nat → MESIState
  copy : Fin n → Nat → Val
  memory : Nat → Val
  latest : Nat → Val
  memReqs : Nat

namespace Ninc

variable {n : Nat} {Val : Type}

/-- Nothing is cached. -/
def init (memory : Nat → Val) : Ninc n Val where
  way _ := ⟨0, .I, 0, memory 0⟩
  dClock := 0
  sf _ := none
  child _ _ := .I
  copy _ _ := memory 0
  memory
  latest := memory
  memReqs := 0

/-! ## Data array -/

/-- The ways of the line's set. -/
def Geometry.ways (g : Geometry) (line : Nat) : List Nat :=
  List.range' (line % g.dSets * g.dWays) g.dWays

def dLookup (g : Geometry) (s : Ninc n Val) (line : Nat) : Option Nat :=
  (Geometry.ways g line).find? fun id => (s.way id).state != .I && (s.way id).tag == line

def dTouch (s : Ninc n Val) (id : Nat) : Ninc n Val :=
  { s with way := update s.way id { s.way id with stamp := s.dClock + 1 }, dClock := s.dClock + 1 }

def dDrop (s : Ninc n Val) (id : Nat) : Ninc n Val :=
  { s with way := update s.way id { s.way id with tag := 0, state := .I, stamp := 0 } }

/-- A free way, else the least recently used. -/
def findVictim (way : Nat → Way Val) : List Nat → Nat → Nat
  | [], victim => victim
  | id :: ids, victim =>
    if (way id).state = .I then id
    else findVictim way ids (if (way id).stamp < (way victim).stamp then id else victim)

/-- The write-back of a victim. -/
def writeBack (s : Ninc n Val) (id : Nat) : Ninc n Val :=
  { s with memory := update s.memory (s.way id).tag (s.way id).data, memReqs := s.memReqs + 1 }

/-- A victim a child still holds is dropped, its state is in the snoop filter; a dirty one no child holds is written back. -/
def evict (s : Ninc n Val) (victim : Nat) : Ninc n Val :=
  if (s.way victim).state ≠ .I then
    (if (s.way victim).state = .M ∧ s.sf (s.way victim).tag = none then s.writeBack victim else s).dDrop victim
  else s

def dFill (g : Geometry) (s : Ninc n Val) (line : Nat) (st : MESIState) (data : Val) : Ninc n Val :=
  match s.dLookup g line with
  | some hit => ({ s with way := update s.way hit { s.way hit with state := st, data } }).dTouch hit
  | none =>
    let victim := findVictim s.way (Geometry.ways g line) (line % g.dSets * g.dWays)
    let s := s.evict victim
    ({ s with way := update s.way victim { s.way victim with tag := line, state := st, data } }).dTouch victim

/-- `if (did >= 0) dDrop(did);` -/
def dropCopy (s : Ninc n Val) : Option Nat → Ninc n Val
  | some id => s.dDrop id
  | none => s

/-! ## Snoop filter -/

def setEntry (s : Ninc n Val) (line : Nat) (e : Option (SFEntry n)) : Ninc n Val :=
  { s with sf := update s.sf line e }

/-- The line, in the state and with the value, in child `c`. -/
def setChild (s : Ninc n Val) (c : Fin n) (line : Nat) (st : MESIState) (data : Val) : Ninc n Val :=
  { s with
    child := update s.child c (update (s.child c) line st)
    copy := update s.copy c (update (s.copy c) line data) }

inductive InvType where
  | INV
  | INVX
deriving DecidableEq, Repr

/-- A child's state after an invalidation. -/
def InvType.apply : InvType → MESIState → MESIState
  | INV, _ => .I
  | INVX, .E => .S
  | INVX, .M => .S
  | INVX, st => st

/-- Every holder gets the invalidation; `true` if one of them had the line modified. -/
def sendInvalidates (s : Ninc n Val) (line : Nat) (e : SFEntry n) (type : InvType) : Ninc n Val × SFEntry n × Bool :=
  if type = .INVX ∧ e.isExclusive = false then (s, e, false)
  else
    ({ s with child := fun c => if e.sharers c then update (s.child c) line (type.apply (s.child c line)) else s.child c },
      if type = .INV then { e with sharers := fun _ => false, numSharers := 0, exclusive := false }
      else { e with exclusive := false },
      (List.finRange n).any fun c => e.sharers c && s.child c line == .M)

/-- The first other child that holds the line. -/
def peer (e : SFEntry n) (c : Fin n) : Option (Fin n) :=
  (List.finRange n).find? fun o => o != c && e.sharers o

/-- The value a requester gets that memory does not serve: from another child, else from the data array. -/
def onChip (s : Ninc n Val) (line : Nat) (fromPeer : Option (Fin n)) (did : Option Nat) : Val :=
  match fromPeer, did with
  | some o, _ => s.copy o line
  | none, some id => (s.way id).data
  | none, none => s.memory line

/-! ## Accesses -/

/-- The state of a line with respect to memory, as far as it is on chip. -/
def memState (g : Geometry) (s : Ninc n Val) (line : Nat) : MESIState :=
  match s.sf line with
  | some e => e.mem
  | none =>
    match s.dLookup g line with
    | some id => (s.way id).state
    | none => .I

/-- `sfAdd` for a line no child holds. -/
def entryFor (s : Ninc n Val) (line : Nat) (mem : MESIState) : SFEntry n :=
  { (s.sf line).getD ⟨fun _ => false, 0, false, mem⟩ with mem }

/-- A read. `noexcl` is the flag of a request that does not want the line exclusively. -/
def gets (g : Geometry) (s : Ninc n Val) (c : Fin n) (line : Nat) (noexcl : Bool) : Ninc n Val :=
  let did := s.dLookup g line
  let fromMem := s.memState g line = .I
  let mem := if fromMem then (if noexcl then .S else .E) else s.memState g line
  let s := if fromMem then { s with memReqs := s.memReqs + 1 } else s
  let e := s.entryFor line mem
  let mine := e.sharers c
  let others := e.numSharers - if mine then 1 else 0
  if e.numSharers = 0 ∧ (mem = .E ∨ mem = .M) ∧ noexcl = false then
    -- the requester holds it alone, and a copy found here moves to it
    let data := if fromMem then s.memory line else s.onChip line none did
    let e := { e with exclusive := true, sharers := update e.sharers c true, numSharers := 1 }
    ((s.setEntry line (some e)).setChild c line .E data).dropCopy did
  else
    -- another child sends the line if it holds it exclusively or there is no copy here
    let forward := (e.isExclusive && !mine) || (others != 0 && did.isNone)
    let data := if fromMem then s.memory line else s.onChip line (if forward then peer e c else none) did
    let (s, e, wb) := if e.isExclusive && !mine then s.sendInvalidates line e .INVX else (s, e, false)
    let mem := if wb then .M else mem
    let e := { e with mem }
    let e := if mine then e else { e with sharers := update e.sharers c true, numSharers := e.numSharers + 1 }
    let e := { e with exclusive := false }
    let s := (s.setEntry line (some e)).setChild c line .S data
    if others ≠ 0 then s.dFill g line mem data
    else
      match did with
      | some id => ({ s with way := update s.way id { s.way id with state := mem } }).dTouch id
      | none => s

/-- A request for writing. An upgrade keeps the value the child has. -/
def getx (g : Geometry) (s : Ninc n Val) (c : Fin n) (line : Nat) : Ninc n Val :=
  let did := s.dLookup g line
  let fromMem := s.memState g line = .I ∨ s.memState g line = .S
  let s := if fromMem then { s with memReqs := s.memReqs + 1 } else s
  let e := s.entryFor line (if fromMem then .M else s.memState g line)
  let mine := e.sharers c
  let data := if mine then s.copy c line else if fromMem then s.memory line else s.onChip line (peer e c) did
  let e := if mine then { e with sharers := update e.sharers c false, numSharers := e.numSharers - 1 } else e
  let (s, e, _) := s.sendInvalidates line e .INV
  let e := { e with sharers := update e.sharers c true, numSharers := 1, exclusive := true, mem := .M }
  ((s.setEntry line (some e)).setChild c line .M data).dropCopy did

inductive PutType where
  | PUTS
  | PUTX
  | PUTX_KEEPEXCL
deriving DecidableEq, Repr

/-- An eviction, or a write-back that keeps the line. The child's line goes into the data array. -/
def put (g : Geometry) (s : Ninc n Val) (c : Fin n) (line : Nat) (type : PutType) : Ninc n Val :=
  match s.sf line with
  | none => s.setChild c line .I (s.copy c line)
  | some e =>
    if e.sharers c = false then s.setChild c line .I (s.copy c line)
    else
      let data := s.copy c line
      let e := if type = .PUTS then e else { e with mem := .M }
      if type = .PUTX_KEEPEXCL then
        (((s.setChild c line .E data).setEntry line (some e)).dFill g line e.mem data)
      else
        let e := { e with sharers := update e.sharers c false, numSharers := e.numSharers - 1 }
        let e := if e.numSharers = 0 then { e with exclusive := false } else e
        let s := s.setChild c line .I data
        (s.setEntry line (if e.numSharers = 0 then none else some e)).dFill g line e.mem data

/-- A write to a line the child holds exclusively. -/
def write (s : Ninc n Val) (c : Fin n) (line : Nat) (v : Val) : Ninc n Val :=
  { s.setChild c line .M v with latest := update s.latest line v }

inductive Access (n : Nat) (Val : Type) where
  | gets (c : Fin n) (line : Nat) (noexcl : Bool)
  | getx (c : Fin n) (line : Nat)
  | write (c : Fin n) (line : Nat) (v : Val)
  | put (c : Fin n) (line : Nat) (type : PutType)

def step (g : Geometry) (s : Ninc n Val) : Access n Val → Ninc n Val
  | .gets c line noexcl => s.gets g c line noexcl
  | .getx c line => s.getx g c line
  | .write c line v => s.write c line v
  | .put c line type => s.put g c line type

/-- What a MESI child asks for, from the state it has the line in. -/
def Allowed (s : Ninc n Val) : Access n Val → Prop
  | .gets c line _ => s.child c line = .I
  | .getx c line => s.child c line = .I ∨ s.child c line = .S
  | .write c line _ => s.child c line = .E ∨ s.child c line = .M
  | .put c line .PUTS => s.child c line = .S ∨ s.child c line = .E
  | .put c line _ => s.child c line = .M

end Ninc

end Pimid.Cache
