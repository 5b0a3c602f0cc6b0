import MeikoCs2.Driver

/-! The tty side of `can_console.c`, and the events of one node as a step
function: calls of the tty layer, printk, the ACK timer, one round of the
bottom half, and the traffic of the queues. -/

namespace MeikoCs2

/-- The loop of `cantty_write`, with `i` characters written so far. An element
`none` of the buffer is one that `copy_from_user` cannot read. -/
def writeChars : List (Option Byte) → Int → CharRing → CharRing × Int
  | [], i, r => (r, i)
  | none :: _, _, r => (r, -efault)
  | some c :: cs, i, r =>
    if (charToRing c r).2 then writeChars cs (i + 1) (charToRing c r).1 else (r, i)

/-- Without a buffer `buf` is NULL. -/
def canttyWrite (stopped : Bool) (buf : Option (List (Option Byte))) (s : Node) : Node × Int :=
  if canconUnconnected s.canconRmt then (s, (buf.getD []).length)
  else
    match buf with
    | none => (s, 0)
    | some cs =>
      if stopped then (s, 0)
      else
        let w := writeChars cs 0 s.canconOutbuf
        let s₁ := { s with canconOutbuf := w.1 }
        (if 0 < w.2 then canconSendNext s₁ else s₁, w.2)

/-- The character is queued before the connection is looked at. -/
def canttyPutChar (ch : Byte) (s : Node) : Node :=
  canconSendNext { s with canconOutbuf := (charToRing ch s.canconOutbuf).1 }

def canttyFlushBuffer (s : Node) : Node := { s with canconOutbuf := clearRing s.canconOutbuf }

/-- A timer is disarmed before its function runs. -/
def ackTimerRun (s : Node) : Node := canconRecvAck true { s with ackTimer := false }

/-- One round of the loop of `can_bh`, unless `inq` is empty. -/
def bhRound (s : Node) : Option Node :=
  (ringToPkt s.inq).map fun x => (deliverPkt x.1 { s with inq := x.2 }).1

inductive NodeOp where
  | ttyOpen (tty : Tty)
  | ttyClose (last : Bool)
  | ttyWrite (stopped : Bool) (buf : Option (List (Option Byte)))
  | ttyPutChar (ch : Byte)
  | ttyFlushBuffer
  -- the line discipline takes the flip buffer
  | ttyFlip
  | printk (str : List Byte)
  | ackTimeout
  | bh
  | sendPkt (pkt : CanPacket)
  | sendPktNoOutFixup (pkt : CanPacket)
  | tryRecv (pkts : List CanPacket)
  | tryXmit
  | xmitDone
  | tick (jiffies : BitVec 32)
  -- open, release, ioctl and read on the files
  | files (fds : FdTable)

def Node.act (s : Node) : NodeOp → Option Node
  | .ttyOpen tty => some { s with ttyp := some tty }
  | .ttyClose last => some { s with ttyp := if last then none else s.ttyp }
  | .ttyWrite stopped buf => some (canttyWrite stopped buf s).1
  | .ttyPutChar ch => some (canttyPutChar ch s)
  | .ttyFlushBuffer => some (canttyFlushBuffer s)
  | .ttyFlip => some { s with ttyp := s.ttyp.map fun tty => { tty with flip := [] } }
  | .printk str => some (canconPrintkWrite str s)
  | .ackTimeout => if s.ackTimer then some (ackTimerRun s) else none
  | .bh => bhRound s
  | .sendPkt pkt => some (MeikoCs2.sendPkt pkt s).1
  | .sendPktNoOutFixup pkt => some (MeikoCs2.sendPktNoOutFixup pkt s).1
  | .tryRecv pkts => some (MeikoCs2.tryRecv pkts s)
  | .tryXmit => some (MeikoCs2.tryXmit s)
  | .xmitDone => some { s with xmitAvail := true }
  | .tick jiffies => some { s with jiffies := jiffies }
  | .files fds => some { s with fds := fds }

def Node.step (s : Node) (op : NodeOp) : Option Node := if s.halted then none else s.act op

theorem Node.step_eq_some {s u : Node} {op : NodeOp} (h : s.step op = some u) :
    s.halted = false ∧ s.act op = some u := by
  unfold Node.step at h
  split_ifs at h with hh
  exact ⟨by simpa using hh, h⟩

theorem Node.act_ackTimeout {s u : Node} (h : s.act .ackTimeout = some u) :
    s.ackTimer = true ∧ u = ackTimerRun s := by
  simp only [Node.act] at h
  split_ifs at h with ht
  exact ⟨ht, (Option.some.inj h).symm⟩

def NodeStep (s : Node) (op : NodeOp) (u : Node) : Prop := s.step op = some u

def NodeOp.isAside : NodeOp → Bool
  | .bh => false
  | .files _ => false
  | _ => true

structure Aside (s u : Node) : Prop where
  canNodeid : u.canNodeid = s.canNodeid
  canconRmt : u.canconRmt = s.canconRmt
  prom : u.prom = s.prom
  fds : u.fds = s.fds

theorem Emits.aside {s u : Node} (h : Emits s u) : Aside s u :=
  ⟨h.canNodeid, h.canconRmt, h.prom, h.fds⟩

theorem canttyWrite_aside (stopped : Bool) (buf : Option (List (Option Byte))) (s : Node) :
    Aside s (canttyWrite stopped buf s).1 := by
  cases buf with
  | none =>
    simp only [canttyWrite]
    split_ifs <;> exact ⟨rfl, rfl, rfl, rfl⟩
  | some cs =>
    have hn := (canconSendNext_prints
      { s with canconOutbuf := (writeChars cs 0 s.canconOutbuf).1 }).toEmits.aside
    simp only [canttyWrite]
    split_ifs
    · exact ⟨rfl, rfl, rfl, rfl⟩
    · exact ⟨rfl, rfl, rfl, rfl⟩
    · exact ⟨hn.canNodeid, hn.canconRmt, hn.prom, hn.fds⟩
    · exact ⟨rfl, rfl, rfl, rfl⟩

theorem Node.act_aside {s u : Node} {op : NodeOp} (h : s.act op = some u)
    (ho : op.isAside = true) : Aside s u := by
  cases op with
  | bh => cases ho
  | files t => cases ho
  | ackTimeout =>
    obtain ⟨_, rfl⟩ := Node.act_ackTimeout h
    have hk := (canconRecvAck_prints true { s with ackTimer := false }).toEmits.aside
    exact ⟨hk.canNodeid, hk.canconRmt, hk.prom, hk.fds⟩
  | ttyWrite stopped buf =>
    rw [← Option.some.inj h]
    exact canttyWrite_aside _ _ s
  | ttyPutChar ch =>
    rw [← Option.some.inj h]
    have hk := (canconSendNext_prints
      { s with canconOutbuf := (charToRing ch s.canconOutbuf).1 }).toEmits.aside
    exact ⟨hk.canNodeid, hk.canconRmt, hk.prom, hk.fds⟩
  | printk str =>
    rw [← Option.some.inj h]
    exact (canconPrintkWrite_prints str s).toEmits.aside
  | sendPkt pkt =>
    rw [← Option.some.inj h]
    exact (sendPkt_emits pkt s).aside
  | sendPktNoOutFixup pkt =>
    rw [← Option.some.inj h]
    exact (sendPktNoOutFixup_emits pkt s).aside
  | tryRecv pkts =>
    rw [← Option.some.inj h]
    exact (tryRecv_prints pkts s).toEmits.aside
  | tryXmit =>
    rw [← Option.some.inj h]
    exact (tryXmit_prints s).toEmits.aside
  | _ =>
    rw [← Option.some.inj h]
    exact ⟨rfl, rfl, rfl, rfl⟩

theorem bhRound_eq_some {s u : Node} (h : bhRound s = some u) :
    ∃ pkt q, ringToPkt s.inq = some (pkt, q) ∧ u = (deliverPkt pkt { s with inq := q }).1 := by
  obtain ⟨x, hx, rfl⟩ := Option.map_eq_some_iff.mp h
  exact ⟨x.1, x.2, hx, rfl⟩

end MeikoCs2
