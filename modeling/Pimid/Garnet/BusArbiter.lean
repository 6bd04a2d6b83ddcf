import Pimid.Garnet.UpDown
import Pimid.Lib.RoundRobin

/-!
# The shared bus

`BusArbiter` lets one flit a cycle cross the switch. A wakeup takes what has arrived at the input ports and the credits
that have come back to the output ports; then every input port picks one of its channels that has a flit to send, in
turn from the port's pointer, and the bus takes one of the ports that have picked, in turn from its own. The bus's
pointer goes past the port that won. The port's goes past its channel only where the up and down classes are on.
-/

namespace Pimid.Garnet.BusArbiter

open Function (update)

/-! ## Units -/

inductive FlitType where
  | HEAD
  | BODY
  | TAIL
  | HEAD_TAIL
deriving DecidableEq, Repr

/-- A flit with the channel it comes on and, for a head, the output port its route leads to. -/
structure Flit where
  type : FlitType
  vc : ℕ
  route : ℕ
deriving DecidableEq, Repr

/-- `HEAD_` or `HEAD_TAIL_`. -/
def Flit.isHead (f : Flit) : Bool := f.type = .HEAD ∨ f.type = .HEAD_TAIL

/-- `TAIL_` or `HEAD_TAIL_`. -/
def Flit.isTail (f : Flit) : Bool := f.type = .TAIL ∨ f.type = .HEAD_TAIL

/-- An input port's channel: its flits, each with the tick its switch allocation begins, and the port and the channel
its packet goes out by. -/
structure VirtualChannel where
  inputBuffer : List (Flit × ℕ)
  active : Bool
  enqueue_time : ℕ
  output_port : Option ℕ
  output_vc : Option ℕ

def INFINITE : ℕ := 10000

def VirtualChannel.set_idle (c : VirtualChannel) : VirtualChannel :=
  { c with active := false, enqueue_time := INFINITE, output_port := none, output_vc := none }

/-- What an output port knows of a channel of the next router. -/
structure OutVcState where
  idle : Bool
  time : ℕ
  credit_count : ℤ

/-- A bus: its ports, its channels and those of the routers it leads to, its networks' order and its pipeline. -/
structure Bus where
  num_inports : ℕ
  virt_nets : ℕ
  vc_per_vnet : ℕ
  consumerVcs : ℕ → ℕ
  updown : Bool
  isVNetOrdered : ℕ → Bool
  inDirn : ℕ → PortDirection
  outDirn : ℕ → PortDirection
  pipe_stages : ℕ
  period : ℕ

def Bus.num_vcs (b : Bus) : ℕ := b.vc_per_vnet * b.virt_nets

structure Arbiter where
  bus_rr : ℕ
  round_robin_invc : ℕ → ℕ
  input : ℕ → ℕ → VirtualChannel
  output : ℕ → ℕ → OutVcState

/-- A new arbiter, with the credits its output ports start with. -/
def init (credits : ℕ → ℕ → ℤ) : Arbiter where
  bus_rr := 0
  round_robin_invc _ := 0
  input _ _ := ⟨[], false, INFINITE, none, none⟩
  output outport vc := ⟨true, 0, credits outport vc⟩

/-- A wakeup: its tick, the flit that is ready on the link of an input port, and the credit that is ready on the credit
link of an output port, with whether it frees its channel. -/
structure Wake where
  now : ℕ
  flit : ℕ → Option Flit
  credit : ℕ → Option (ℕ × Bool)

/-- A flit that crosses the switch. -/
structure Grant where
  inport : ℕ
  invc : ℕ
  outport : ℕ
  outvc : ℕ
  flit : Flit
deriving DecidableEq, Repr

/-! ## A wakeup -/

variable (b : Bus)

/-- `InputUnit::wakeup` at the flit's channel: a head opens it and gives it its port. -/
def VirtualChannel.receive (now : ℕ) (f : Flit) (c : VirtualChannel) : VirtualChannel :=
  let c := if f.isHead then { c with active := true, enqueue_time := now, output_port := some f.route } else c
  { c with inputBuffer := c.inputBuffer ++ [(f, if b.pipe_stages = 1 then now else now + (b.pipe_stages - 1) * b.period)] }

/-- The input units take their flits. -/
def inputUnits (w : Wake) (s : Arbiter) : Arbiter :=
  { s with input := fun inport => match w.flit inport with
      | none => s.input inport
      | some f => update (s.input inport) f.vc ((s.input inport f.vc).receive b w.now f) }

/-- `OutputUnit::wakeup` at the credit's channel. -/
def OutVcState.receive (now : ℕ) (free : Bool) (o : OutVcState) : OutVcState :=
  let o := { o with credit_count := o.credit_count + 1 }
  if free then { o with idle := true, time := now } else o

/-- The output units take their credits. -/
def outputUnits (w : Wake) (s : Arbiter) : Arbiter :=
  { s with output := fun outport => match w.credit outport with
      | none => s.output outport
      | some (vc, free) => update (s.output outport) vc ((s.output outport vc).receive w.now free) }

/-- The state the arbitration of a wakeup finds. -/
def ready (w : Wake) (s : Arbiter) : Arbiter := outputUnits w (inputUnits b w s)

/-- `need_stage(SA_)`: the flits of an input port are all in that stage, from their tick on. -/
def need_stage (c : VirtualChannel) (now : ℕ) : Bool :=
  match c.inputBuffer with
  | [] => false
  | (_, t) :: _ => t ≤ now

def is_vc_idle (o : OutVcState) (now : ℕ) : Bool := o.idle && o.time ≤ now

/-- The output channels a packet without one may take. -/
def outVcs (inport invc outport : ℕ) : List ℕ :=
  let vnet := invc / b.vc_per_vnet
  let range := if b.updown then
      getClassRange b.vc_per_vnet vnet (targetClass b.vc_per_vnet (b.inDirn inport) invc (b.outDirn outport))
    else (vnet * b.consumerVcs outport, vnet * b.consumerVcs outport + b.consumerVcs outport)
  List.range' range.1 (range.2 - range.1)

/-- The protocol's order: an older packet of the network and the port waits at the input. -/
def olderWaits (s : Arbiter) (now inport invc outport : ℕ) : Bool :=
  let vnet := invc / b.vc_per_vnet
  (List.range b.vc_per_vnet).any fun vc_offset =>
    let temp := s.input inport (vnet * b.vc_per_vnet + vc_offset)
    need_stage temp now && temp.output_port = some outport && temp.enqueue_time < (s.input inport invc).enqueue_time

def send_allowed (s : Arbiter) (now inport invc outport : ℕ) : Bool :=
  (match (s.input inport invc).output_vc with
    | none => (outVcs b inport invc outport).any fun vc => is_vc_idle (s.output outport vc) now
    | some outvc => decide (0 < (s.output outport outvc).credit_count)) &&
  !(b.isVNetOrdered (invc / b.vc_per_vnet) && olderWaits b s now inport invc outport)

/-- The output port a channel asks for, if it has a flit that may be sent. -/
def wants (s : Arbiter) (now inport invc : ℕ) : Option ℕ :=
  if need_stage (s.input inport invc) now then
    (s.input inport invc).output_port.filter fun outport => send_allowed b s now inport invc outport
  else none

/-- `arbitrate_inports` at a port: the channel that wins it and the output port it asks for. -/
def portRequest (s : Arbiter) (now inport : ℕ) : Option (ℕ × ℕ) :=
  (scanFrom b.num_vcs (fun invc => (wants b s now inport invc).isSome) b.num_vcs (s.round_robin_invc inport)).bind
    fun invc => (wants b s now inport invc).map fun outport => (invc, outport)

/-- `vc_allocate`: the first of the channels that is free. -/
def vc_allocate (s : Arbiter) (now inport invc outport : ℕ) : ℕ :=
  ((outVcs b inport invc outport).find? fun vc => is_vc_idle (s.output outport vc) now).getD 0

/-- The body of `arbitrate_bus` for the port that wins: its flit leaves, and its channel too with the last one. -/
def grant (s : Arbiter) (now inport invc outport : ℕ) : Arbiter × List Grant :=
  let c := s.input inport invc
  let outvc := c.output_vc.getD (vc_allocate b s now inport invc outport)
  let o := s.output outport outvc
  let o := if c.output_vc = none then { o with idle := false, time := now } else o
  match c.inputBuffer with
  | [] => (s, [])
  | (f, _) :: rest =>
    let c := { c with output_vc := some outvc, inputBuffer := rest }
    let c := if f.isTail then c.set_idle else c
    ({ bus_rr := (inport + 1) % b.num_inports
       round_robin_invc := if b.updown then
           update s.round_robin_invc inport ((invc + 1) % b.num_vcs) else s.round_robin_invc
       input := update s.input inport (update (s.input inport) invc c)
       output := update s.output outport
         (update (s.output outport) outvc { o with credit_count := o.credit_count - 1 }) },
      [⟨inport, invc, outport, outvc, f⟩])

/-- `arbitrate_bus`: the first port in turn that has a request gets the bus. -/
def arbitrate_bus (s : Arbiter) (now : ℕ) : Arbiter × List Grant :=
  match scanFrom b.num_inports (fun inport => (portRequest b s now inport).isSome) b.num_inports
      (s.bus_rr % b.num_inports) with
  | none => (s, [])
  | some inport => match portRequest b s now inport with
    | none => (s, [])
    | some (invc, outport) => grant b s now inport invc outport

/-- A wakeup: the arbiter behind it, and the flits that cross the switch. -/
def wakeup (s : Arbiter) (w : Wake) : Arbiter × List Grant := arbitrate_bus b (ready b w s) w.now

/-! ## Runs -/

/-- The arbiter after some wakeups. -/
def after : Arbiter → List Wake → Arbiter
  | s, [] => s
  | s, w :: ws => after (wakeup b s w).1 ws

/-- The flits that cross the switch in some wakeups. -/
def granted : Arbiter → List Wake → List Grant
  | _, [] => []
  | s, w :: ws => (wakeup b s w).2 ++ granted (wakeup b s w).1 ws

/-- What holds in every one of some wakeups. -/
def During (P : Arbiter → Wake → List Grant → Prop) : Arbiter → List Wake → Prop
  | _, [] => True
  | s, w :: ws => P s w (wakeup b s w).2 ∧ During P (wakeup b s w).1 ws

/-- The channel has a flit that may be sent in a wakeup. -/
def Grantable (s : Arbiter) (w : Wake) (inport invc : ℕ) : Prop :=
  invc < b.num_vcs ∧ (wants b (ready b w s) w.now inport invc).isSome

/-- Some channel of the port has. -/
def PortGrantable (s : Arbiter) (w : Wake) (inport : ℕ) : Prop := ∃ invc, Grantable b s w inport invc

end Pimid.Garnet.BusArbiter
