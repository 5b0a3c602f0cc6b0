import MeikoCs2.Packet
import MeikoCs2.Ring

/-! The state of the CAN driver on one node, grouped by the source file whose
static variables it holds, and the send path of `can_main.c`. -/

namespace MeikoCs2

abbrev maxring : Nat := 1024

abbrev PktRing := Ring maxring CanPacket

abbrev CharRing := Ring maxring Byte

def ringInit {α : Type} (x : α) : Ring maxring α := ⟨fun _ => x, 0, 0⟩

@[simp] theorem toList_ringInit {α : Type} (x : α) : (ringInit x).toList = [] := rfl

def pktToRing (pkt : CanPacket) (r : PktRing) : PktRing × Bool := r.put pkt

def ringToPkt (r : PktRing) : Option (CanPacket × PktRing) := r.get

def charToRing (c : Byte) (r : CharRing) : CharRing × Bool := r.put c

def ringToChar (r : CharRing) : Option (Byte × CharRing) := r.get

def clearRing (r : CharRing) : CharRing := r.clear

inductive ObpPath where
  | autoBoot | bootDevice | inputDevice | outputDevice | canconHost
  deriving DecidableEq, Repr

structure Prom where
  value : ObpPath → Option (List Char)
  writeOk : Nat → Bool
  writes : Nat

/-- State kept per open file. The sleepers on `readq` are not part of it. -/
structure FileState where
  inq : PktRing
  promiscuous : Bool
  snoopy : Bool
  consobj : Int

/-- CAN_MAX_USECOUNT, which is also the number of console objects. -/
abbrev canMaxUsecount : Nat := 256

instance : NeZero canMaxUsecount := ⟨by decide⟩

structure CanReg where
  control : Byte
  acceptMask : Byte
  acceptCode : Byte
  busTiming0 : Byte
  busTiming1 : Byte
  outControl : Byte
  deriving DecidableEq, Repr

/-- The part of the driver that only open, release and ioctl change. -/
structure FdTable where
  openfd : Fin canMaxUsecount → Option FileState
  consobjReserved : Fin canMaxUsecount → Bool
  promiscuousUsecount : Int
  reg : CanReg

structure Tty where
  charBufNull : Bool
  flip : List Byte
  stopped : Bool

/-- A packet handed to `send_pkt`, with what became of it. -/
structure Handed where
  pkt : CanPacket
  instat : Bool
  outstat : Bool

structure Node where
  -- can_main.c
  canNodeid : BitVec 32
  jiffies : BitVec 32
  canDebug : Bool
  inq : PktRing
  outq : PktRing
  bhQueued : Bool
  xmitAvail : Bool
  fds : FdTable
  -- can_obj.c
  canHbVal : BitVec 32
  canBoardtype : BitVec 32
  hbCount : BitVec 32
  hbTimer : Bool
  objVal : BitVec 32
  -- can_console.c
  canconRmt : CanHeaderExt
  canconOutbuf : CharRing
  canconInbuf : CharRing
  canconAckPending : Bool
  ackTimer : Bool
  ttyp : Option Tty
  -- the machine around the driver: the PROM, what uninitialised automatic
  -- variables hold, and the memory that follows a packet's payload
  prom : Prom
  stack : CanPacket
  beyond : Nat → Byte
  halted : Bool
  -- the record of the run: packets handed to send_pkt, and packets the chip
  -- was told to transmit, oldest first
  handed : List Handed
  transmitted : List CanPacket

def Prom.empty : Prom := ⟨fun _ => none, fun _ => true, 0⟩

/-- The address of no console, as the PROM provides it. -/
def noConsole : CanHeaderExt := ⟨0, .dat, 0x3f, 0x3f, 0x3f, 0x3f⟩

def Node.boot (nodeid : BitVec 32) (rmt : CanHeaderExt) (fds : FdTable) (prom : Prom) : Node where
  canNodeid := nodeid
  jiffies := 0
  canDebug := false
  inq := ringInit default
  outq := ringInit default
  bhQueued := false
  xmitAvail := true
  fds := fds
  -- HB_CAN_RUNNING << 2
  canHbVal := 0x1c
  canBoardtype := 0
  hbCount := 0
  hbTimer := true
  objVal := 0
  canconRmt := rmt
  canconOutbuf := ringInit 0
  canconInbuf := ringInit 0
  canconAckPending := false
  ackTimer := false
  ttyp := none
  prom := prom
  stack := default
  beyond := fun _ => 0
  halted := false
  handed := []
  transmitted := []

def isMypacket (nodeid : BitVec 32) (pkt : CanPacket) : Bool :=
  pkt.can.dest.setWidth 32 == unpackNode nodeid

def outgoingFixup (nodeid : BitVec 32) (pkt : CanPacket) : CanPacket :=
  { pkt with can := { pkt.can with src := (unpackNode nodeid).setWidth 5, remote := 0 } }

def incomingFixup (jiffies : BitVec 32) (pkt : CanPacket) : CanPacket :=
  { pkt with timestamp := jiffies }

/-- The loop of `try_xmit`. The TRANSMIT command takes XMIT_AVAIL away. -/
def tryXmitLoop : Nat → Node → Node
  | 0, s => s
  | k + 1, s =>
    if s.xmitAvail then
      match ringToPkt s.outq with
      | none => s
      | some (pkt, q) =>
        tryXmitLoop k
          { s with outq := q, xmitAvail := false, transmitted := s.transmitted ++ [pkt] }
    else s

/-- Every round takes a packet out of `outq`, so its size bounds the rounds. -/
def tryXmit (s : Node) : Node := tryXmitLoop s.outq.size s

theorem exists_tryXmitLoop_eq (k : Nat) (s : Node) :
    ∃ q x l, tryXmitLoop k s = { s with outq := q, xmitAvail := x, transmitted := l } := by
  induction k generalizing s with
  | zero => exact ⟨s.outq, s.xmitAvail, s.transmitted, rfl⟩
  | succ k ih =>
    unfold tryXmitLoop
    split_ifs
    · split
      · exact ⟨s.outq, s.xmitAvail, s.transmitted, rfl⟩
      · rename_i pkt q _
        obtain ⟨q', x, l, h⟩ :=
          ih { s with outq := q, xmitAvail := false, transmitted := s.transmitted ++ [pkt] }
        exact ⟨q', x, l, h⟩
    · exact ⟨s.outq, s.xmitAvail, s.transmitted, rfl⟩

/-- Transmitting reaches `outq` and the chip only. -/
theorem exists_tryXmit_eq (s : Node) :
    ∃ q x l, tryXmit s = { s with outq := q, xmitAvail := x, transmitted := l } :=
  exists_tryXmitLoop_eq s.outq.size s

def putInq (pkt : CanPacket) (s : Node) : Node × Bool :=
  ({ s with inq := (pktToRing pkt s.inq).1 }, (pktToRing pkt s.inq).2)

def putOutq (pkt : CanPacket) (s : Node) : Node × Bool :=
  ({ s with outq := (pktToRing pkt s.outq).1 }, (pktToRing pkt s.outq).2)

def enqueue (pkt : CanPacket) (s : Node) : Node × Bool × Bool :=
  if isMypacket s.canNodeid pkt then
    ((putInq pkt s).1, (putInq pkt s).2, false)
  else if (putOutq pkt s).2 then
    -- cansnoop should see sent packets without -p
    ((putInq pkt (putOutq pkt s).1).1, (putInq pkt (putOutq pkt s).1).2, true)
  else (s, false, false)

def queueBh (s : Node) : Node := { s with bhQueued := true }

def record (h : Handed) (s : Node) : Node := { s with handed := s.handed ++ [h] }

def sendPktNoOutFixup (pkt : CanPacket) (s : Node) : Node × Bool :=
  let pkt := incomingFixup s.jiffies pkt
  let e := enqueue pkt s
  let s₁ := if e.2.1 then queueBh e.1 else e.1
  let s₂ := if e.2.2 then tryXmit s₁ else s₁
  (record ⟨pkt, e.2.1, e.2.2⟩ s₂, e.2.1 || e.2.2)

def sendPkt (pkt : CanPacket) (s : Node) : Node × Bool :=
  sendPktNoOutFixup (outgoingFixup s.canNodeid pkt) s

end MeikoCs2
