import MeikoCs2.Cancon
import MeikoCs2.Ownership
import MeikoCs2.Runs

/-! Clients, nodes and the CAN between them as one transition system. A packet
on the wire is carried to the node that its extended header names, and a reply
to the node that asked; any packet may be the next to arrive. Each mutex
section of a client, each read and each dispatch on a node is one step. Every
packet carries where it originates, which the code does not transmit. -/

namespace MeikoCs2

/-- A request as it was transmitted: from which node, by which process or by
the kernel, and as how manieth request of the run. -/
structure Origin (P : Type) where
  node : Canhostname
  sender : Option P
  id : Nat
  pkt : CanPacket

/-- A packet in flight or in the ring of a file. The origin of a reply is the
request that it answers. -/
structure Msg (P : Type) where
  src : Canhostname
  dst : Canhostname
  pkt : CanPacket
  origin : Origin P

structure AckPkt (P : Type) where
  ext : CanHeaderExt
  dat : CanDat
  origin : Origin P

structure Proc (P : Type) where
  cfg : Config
  consoleObject : CanHeaderExt
  fdq : List (Msg P)
  ackbuf : List (AckPkt P)
  -- the first one is main
  threads : List (CanProg Int)

/-- The history of a run: transmitted requests, packets dispatched on a node
with the console recorded before and after, and replies returned to a client
by `waitfor_acknak` or `can_recv_ack`. -/
inductive Event (P : Type) where
  | sent (o : Origin P)
  | dispatched (node : Canhostname) (m : Msg P) (rmt rmt' : CanHeaderExt)
  | returned (p : P) (target : CanHeaderExt) (type : CanType) (o : Origin P)

structure Net (P : Type) where
  nodes : Canhostname → Node
  procs : P → Proc P
  wire : List (Msg P)
  requests : Nat
  log : List (Event P)

variable {P : Type}

def Proc.home (x : Proc P) : Canhostname := nodeAddr x.cfg.nodeid

def signalAcknak (m : Msg P) (buf : List (AckPkt P)) : List (AckPkt P) :=
  if buf.length < ackbufLen then buf ++ [⟨m.pkt.ext, m.pkt.dat, m.origin⟩] else buf

/-- The loop of `waitfor_acknak` over the buffer: the last match counts. -/
def scanAckbuf (target : CanHeaderExt) (buf : List (AckPkt P)) : Option (AckPkt P) :=
  (buf.filter fun e => isOurAcknak e.ext target).getLast?

def Net.transmit (node : Canhostname) (sender : Option P) (pkt : CanPacket) (s : Net P) : Net P :=
  let o : Origin P := ⟨node, sender, s.requests, pkt⟩
  { s with
    wire := s.wire ++ [⟨node, pkt.ext.addr, pkt, o⟩]
    requests := s.requests + 1
    log := s.log ++ [.sent o] }

def Net.answer (m : Msg P) (pkt : CanPacket) (s : Net P) : Net P :=
  { s with wire := s.wire ++ [⟨m.dst, m.src, pkt, m.origin⟩] }

def Net.hand (m : Msg P) (s : Net P) (pkt : CanPacket) : Net P :=
  if pkt.ext.type.isAcknak then s.answer m pkt else s.transmit m.dst none pkt

def Node.flush (n : Node) : Node :=
  { n with
    inq := ringInit default
    outq := ringInit default
    bhQueued := false
    xmitAvail := true
    handed := []
    transmitted := [] }

variable [DecidableEq P]

def Net.setProc (p : P) (x : Proc P) (s : Net P) : Net P :=
  { s with procs := Function.update s.procs p x }

def Proc.setThread (i : Nat) (t : CanProg Int) (x : Proc P) : Proc P :=
  { x with threads := x.threads.set i t }

def readerStep (p : P) (m : Msg P) (x : Proc P) (s : Net P) : Net P :=
  match m.pkt.ext.type with
  | .ack => s.setProc p { x with ackbuf := signalAcknak m x.ackbuf }
  | .nak => s.setProc p { x with ackbuf := signalAcknak m x.ackbuf }
  | .dat =>
    if m.pkt.ext = x.consoleObject then
      (s.setProc p x).answer m (canAckPkt x.cfg.stack m.pkt none 0 .ack)
    else s.setProc p x
  | .wo =>
    if m.pkt.ext.object = Canobj.forceDisconn ∧ m.pkt.dat = x.consoleObject.extDat then
      -- the console has been stolen
      (s.setProc p { x with threads := x.threads ++ [disconnect x.cfg] }).answer m
        (canAckPkt x.cfg.stack m.pkt (some 1) 4 .ack)
    else s.setProc p x
  | _ => s.setProc p x

def Net.dispatch (m : Msg P) (s : Net P) : Net P :=
  let n := s.nodes m.dst
  let n' := (canobjPacket m.pkt n).1
  let s₁ : Net P :=
    { s with
      nodes := Function.update s.nodes m.dst n'.flush
      procs := fun p =>
        if (s.procs p).home = m.dst ∧ n'.halted = false then
          { s.procs p with fdq := (s.procs p).fdq ++ [m] }
        else s.procs p
      log := s.log ++ [.dispatched m.dst m n.canconRmt n'.canconRmt] }
  (n'.handed.map Handed.pkt).foldl (Net.hand m) s₁

def Net.output (a : Canhostname) (n' : Node) (s : Net P) : Net P :=
  (n'.handed.map Handed.pkt).foldl (fun s pkt => s.transmit a none pkt)
    { s with nodes := Function.update s.nodes a n'.flush }

inductive Label (P : Type) where
  | run (p : P) (i : Nat)
  | scan (p : P) (i : Nat) (timedout : Bool)
  | recvAck (p : P) (i : Nat)
  | interrupt (p : P) (i : Nat)
  | read (p : P)
  | deliver (i : Nat)
  | lose (i : Nat)
  | overflow (p : P)
  | spawn (p : P) (t : Task)
  | printk (a : Canhostname) (m : String)
  | ackTimeout (a : Canhostname)

def runThread (p : P) (i : Nat) (s : Net P) : Option (Net P) :=
  let x := s.procs p
  match x.threads[i]? with
  | some (.op (.canSend ext dat len) k) =>
    let pkt := fixup (s.nodes x.home) (canSendPkt x.cfg.nodeid x.cfg.stack ext dat len)
    some ((s.transmit x.home (some p) pkt).setProc p (x.setThread i (k ())))
  | some (.op (.setConsoleObject ext) k) =>
    some (s.setProc p { x.setThread i (k ()) with consoleObject := ext })
  | some (.op .getConsoleObject k) => some (s.setProc p (x.setThread i (k x.consoleObject)))
  | _ => none

/-- A round of the loop of `waitfor_acknak`, from the return of the timed wait
or from a buffer that is not empty. -/
def scanThread (p : P) (i : Nat) (timedout : Bool) (s : Net P) : Option (Net P) :=
  let x := s.procs p
  match x.threads[i]? with
  | some (.op (.waitforAcknak target dat) k) =>
    match scanAckbuf target x.ackbuf with
    | some e =>
      some { s.setProc p { x.setThread i (k (.ofType e.ext.type, e.dat)) with ackbuf := [] } with
        log := s.log ++ [.returned p target e.ext.type e.origin] }
    | none =>
      if timedout then
        some (s.setProc p { x.setThread i (k (.timedout, dat)) with ackbuf := [] })
      else some (s.setProc p { x with ackbuf := [] })
  | _ => none

def recvAckThread (p : P) (i : Nat) (s : Net P) : Option (Net P) :=
  let x := s.procs p
  match x.threads[i]?, x.fdq with
  | some (.op (.canRecvAck ext) k), m :: q =>
    if m.pkt.ext.type.isAcknak ∧ isOurAcknak m.pkt.ext ext then
      let r := (m.pkt.ext.type, m.pkt.dat, (m.pkt.can.length.toNat : Int) - 4)
      some { s.setProc p { x.setThread i (k (some r)) with fdq := q } with
        log := s.log ++ [.returned p ext m.pkt.ext.type m.origin] }
    else some (s.setProc p { x with fdq := q })
  | _, _ => none

def Net.step (l : Label P) (s : Net P) : Option (Net P) :=
  match l with
  | .run p i => runThread p i s
  | .scan p i timedout => scanThread p i timedout s
  | .recvAck p i => recvAckThread p i s
  | .interrupt p i =>
    match (s.procs p).threads[i]? with
    | some (.op (.canRecvAck _) k) => some (s.setProc p ((s.procs p).setThread i (k none)))
    | _ => none
  | .read p =>
    match (s.procs p).fdq with
    | m :: q => some (readerStep p m { s.procs p with fdq := q } s)
    | [] => none
  | .deliver i =>
    match s.wire[i]? with
    | some m =>
      if (s.nodes m.dst).halted then none
      else some ({ s with wire := s.wire.eraseIdx i }.dispatch m)
    | none => none
  | .lose i => if i < s.wire.length then some { s with wire := s.wire.eraseIdx i } else none
  | .overflow p => some (s.setProc p { s.procs p with fdq := (s.procs p).fdq.dropLast })
  | .spawn p t =>
    match (s.procs p).threads[0]? with
    | some (Prog.pure 0) =>
      some (s.setProc p
        { s.procs p with threads := (s.procs p).threads ++ [t.prog (s.procs p).cfg] })
    | _ => none
  | .printk a m => some (s.output a (MeikoCs2.printk m (s.nodes a)))
  | .ackTimeout a => some (s.output a (canconRecvAck true (s.nodes a)))

def NetStep (s : Net P) (l : Label P) (u : Net P) : Prop := s.step l = some u

theorem exists_run (s : Net P) (ok : Net P → Label P → Bool) (ls : List (Label P))
    (goal : Net P → Bool) (h : (steps (fun s l => s.step l) ok s ls).any goal = true) :
    ∃ tr u, Run NetStep s tr u ∧ tr.map Prod.snd = ls ∧ (∀ x ∈ tr, ok x.1 x.2 = true) ∧
      goal u = true := exists_run_of_any ok ls goal h

def packNodeid (a : Canhostname) : BitVec 32 :=
  a.cluster.setWidth 32 <<< 12 ||| a.module.setWidth 32 <<< 6 ||| a.node.setWidth 32

def Net.boot (procs : P → Proc P) : Net P where
  nodes a := Node.boot (packNodeid a) noConsole (.init (packNodeid a)) .empty
  procs := procs
  wire := []
  requests := 0
  log := []

def Proc.boot (c : Config) (main : CanProg Int) : Proc P where
  cfg := c
  consoleObject := ⟨0, .ro, 0, 0, 0, 0⟩
  fdq := []
  ackbuf := []
  threads := [main]

end MeikoCs2
