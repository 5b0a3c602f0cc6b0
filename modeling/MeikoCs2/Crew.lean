import MeikoCs2.Cancon
import MeikoCs2.ConsoleStream
import MeikoCs2.FanOut

/-! The cancons on one node, over the open files of its driver. Each packet that
the bottom half takes has a number, which the code does not keep. -/

namespace MeikoCs2

structure Client where
  fd : Fin canMaxUsecount
  consobj : Option Int
  consoleObject : CanHeaderExt

/-- A node and the cancons on it. `waiting` numbers the packets in the ring of
each open file, and each ACK for packet `k` is an entry `k` of `acks`. -/
structure Crew (P : Type) where
  node : Node
  clients : P → Option Client
  drained : List CanPacket
  waiting : Fin canMaxUsecount → List Nat
  acks : List Nat

inductive CrewOp (P : Type) where
  | open (p : P)
  | getConsobj (p : P)
  | setConsoleObject (p : P)
  | read (p : P)
  | close (p : P)
  | bh
  -- whatever else happens on the node
  | event (op : NodeOp)

def readerAck (stack : CanPacket) (consoleObject : CanHeaderExt) (pkt : CanPacket) :
    Option CanPacket :=
  match pkt.ext.type with
  | .dat => if pkt.ext = consoleObject then some (canAckPkt stack pkt none 0 .ack) else none
  | .wo =>
    if pkt.ext.object = Canobj.forceDisconn ∧ pkt.dat = consoleObject.extDat then
      some (canAckPkt stack pkt (some 1) 4 .ack)
    else none
  | _ => none

def arrives (pkt : CanPacket) (s : Node) (fd : Fin canMaxUsecount) : Bool :=
  !(deliverPkt pkt s).1.halted &&
    (s.fds.openfd fd).any fun f =>
      received s.canNodeid ⟨pkt, f.inq.full, f.promiscuous, f.snoopy⟩

def kernelAcks (pkt : CanPacket) (s : Node) : Nat :=
  if isMypacket s.canNodeid pkt then (replies pkt s).countP fun r => r.ext.type = .ack else 0

namespace Crew

variable {P : Type} [DecidableEq P]

def init (n : Node) : Crew P := ⟨canInit n, fun _ => none, [], fun _ => [], []⟩

def setClient (p : P) (c : Option Client) (s : Crew P) : Crew P :=
  { s with clients := Function.update s.clients p c }

def setFds (t : FdTable) (s : Crew P) : Crew P := { s with node := { s.node with fds := t } }

def openFile (p : P) (s : Crew P) : Option (Crew P) :=
  match s.clients p, canAllocOpenfd s.node.fds with
  | none, some (fd, t) =>
    some { (s.setFds t).setClient p (some ⟨fd, none, datExt 0⟩) with
      waiting := Function.update s.waiting fd [] }
  | _, _ => none

/-- A cancon asks once. If the call fails it goes on only to exit. -/
def askConsobj (p : P) (c : Client) (s : Crew P) : Option (Crew P) :=
  if c.consobj.isSome then none
  else
    let r := canIoctl c.fd .getConsobj false s.node
    let v := (r.1.fds.openfd c.fd).map FileState.consobj
    some ({ s with node := r.1 }.setClient p (some (if r.2 = 0 then { c with consobj := v } else c)))

def loadConsoleObject (p : P) (c : Client) (s : Crew P) : Option (Crew P) :=
  c.consobj.map fun v =>
    s.setClient p (some { c with
      consoleObject := loadExtNodeid c.consoleObject.xpriority .dat (BitVec.ofInt 10 v)
        s.node.canNodeid })

/-- One round of the loop of `reader`. -/
def readFile (c : Client) (s : Crew P) : Option (Crew P) :=
  match s.node.fds.openfd c.fd with
  | none => none
  | some f =>
    match (canRead pktsize f).1 with
    | [] => none
    | pkt :: _ =>
      let s₁ := { s.setFds (s.node.fds.modify c.fd fun f => (canRead pktsize f).2) with
        waiting := Function.update s.waiting c.fd (s.waiting c.fd).tail }
      match readerAck s.node.stack c.consoleObject pkt with
      | none => some s₁
      | some ack =>
        some { s₁ with
          node := (sendPkt ack s₁.node).1
          acks := s.acks ++ [(s.waiting c.fd).headD s.drained.length] }

def closeFile (p : P) (c : Client) (s : Crew P) : Option (Crew P) :=
  some ((s.setFds (canReleaseOpenfd c.fd s.node.canNodeid s.node.fds)).setClient p none)

def drain (s : Crew P) : Option (Crew P) :=
  (ringToPkt s.node.inq).map fun x =>
    let n : Node := { s.node with inq := x.2 }
    { s with
      node := (deliverPkt x.1 n).1
      drained := s.drained ++ [x.1]
      waiting := fun fd =>
        if arrives x.1 n fd then s.waiting fd ++ [s.drained.length] else s.waiting fd
      acks := s.acks ++ List.replicate (kernelAcks x.1 n) s.drained.length }

def act (s : Crew P) : CrewOp P → Option (Crew P)
  | .open p => s.openFile p
  | .getConsobj p => (s.clients p).bind fun c => s.askConsobj p c
  | .setConsoleObject p => (s.clients p).bind fun c => s.loadConsoleObject p c
  | .read p => (s.clients p).bind fun c => s.readFile c
  | .close p => (s.clients p).bind fun c => s.closeFile p c
  | .bh => s.drain
  | .event op => if op.isAside then (s.node.act op).map fun n => { s with node := n } else none

def step (s : Crew P) (op : CrewOp P) : Option (Crew P) :=
  if s.node.halted then none else s.act op

end Crew

def CrewStep {P : Type} [DecidableEq P] (s : Crew P) (op : CrewOp P) (u : Crew P) : Prop :=
  s.step op = some u

end MeikoCs2
