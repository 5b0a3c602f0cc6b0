import MeikoCs2.Replies
import MeikoCs2.OpenFd
import MeikoCs2.Runs

/-! The driver of one node as a labelled transition system: receive, bottom
half and file operations of `can_main.c`. Beside the node it carries a log
that the code does not have, from which the streams of the open files can be
read off. -/

namespace MeikoCs2

def canInit (n : Node) : Node :=
  canobjCanconHostGet
    { n with
      inq := ringInit default
      outq := ringInit default
      bhQueued := false
      fds := FdTable.init n.canNodeid
      -- HB_CAN_RUNNING << 2
      canHbVal := 0x1c
      hbCount := 0
      hbTimer := true
      objVal := 0
      canconOutbuf := ringInit 0
      canconInbuf := ringInit 0
      canconAckPending := false
      ackTimer := false
      ttyp := none
      canDebug := false
      halted := false
      handed := []
      transmitted := [] }

def recvLoop (s : Node) : List CanPacket → Node
  | [] => s
  | p :: ps => recvLoop (putInq (incomingFixup s.jiffies p) s).1 ps

def tryRecv (pkts : List CanPacket) (s : Node) : Node :=
  if pkts.isEmpty then s else queueBh (recvLoop s pkts)

/-- Receiving reaches `inq` and marks the bottom half. -/
theorem exists_tryRecv_eq (pkts : List CanPacket) (s : Node) :
    ∃ q b, tryRecv pkts s = { s with inq := q, bhQueued := b } := by
  have hl : ∃ q, recvLoop s pkts = { s with inq := q } := by
    induction pkts generalizing s with
    | nil => exact ⟨s.inq, rfl⟩
    | cons p ps ih => exact ih (putInq (incomingFixup s.jiffies p) s).1
  obtain ⟨q, hq⟩ := hl
  unfold tryRecv
  split_ifs
  · exact ⟨s.inq, s.bhQueued, rfl⟩
  · exact ⟨q, true, by rw [hq]; rfl⟩

def takePkts : Nat → PktRing → List CanPacket × PktRing
  | 0, r => ([], r)
  | k + 1, r =>
    match ringToPkt r with
    | none => ([], r)
    | some (p, r') => (p :: (takePkts k r').1, (takePkts k r').2)

abbrev pktsize : Nat := 16

/-- One pass of `can_read` on a file, reads not faulting: the packets copied
out and the ring left behind. -/
def canRead (count : Nat) (f : FileState) : List CanPacket × FileState :=
  if count < pktsize then ([], f)
  else ((takePkts (count / pktsize) f.inq).1, { f with inq := (takePkts (count / pktsize) f.inq).2 })

def wants (mine : Bool) (f : FileState) : Bool := mine || f.promiscuous || f.snoopy

def deliverFds (mine : Bool) (pkt : CanPacket) (t : FdTable) : FdTable :=
  { t with openfd := fun i => (t.openfd i).map fun f =>
      if wants mine f then { f with inq := (pktToRing pkt f.inq).1 } else f }

/-- Give the kernel a chance to dispatch the object, then user space. The
second component lists the calls of `canobj_packet`. After `machine_halt`
nothing more happens. -/
def deliverPkt (pkt : CanPacket) (s : Node) : Node × List CanPacket :=
  let mine := isMypacket s.canNodeid pkt
  let s₁ := if mine then (canobjPacket pkt s).1 else s
  (if s₁.halted then s₁ else { s₁ with fds := deliverFds mine pkt s₁.fds },
    if mine then [pkt] else [])

/-- A drained packet as one open file met it. -/
structure Rec where
  pkt : CanPacket
  full : Bool
  promiscuous : Bool
  snoopy : Bool

/-- The history of an open file: how many packets had been drained when it was
opened, how it met each one drained since, and what it has read. -/
structure FdLog where
  openedAt : Nat
  recs : List Rec
  read : List CanPacket

/-- The packets drained from `inq`, the calls of `canobj_packet`, and for each
reply that a call put into `inq` the places of request and reply among the
drained packets. -/
structure Log where
  drained : List CanPacket
  calls : List CanPacket
  replies : List (Nat × Nat)
  fd : Fin canMaxUsecount → FdLog

structure Driver where
  node : Node
  log : Log

def Driver.init (n : Node) : Driver :=
  ⟨canInit n, ⟨[], [], [], fun _ => ⟨0, [], []⟩⟩⟩

/-- The places, among the packets drained now and later, of the replies that
the dispatch of the packet drained at place `i` put into the queue, behind the
`old` packets that were there. -/
def newReplies (i old : Nat) (sent inq : List CanPacket) : List (Nat × Nat) :=
  ((List.range inq.length).filter fun k =>
    decide (old ≤ k) && (inq[k]?).any fun p => decide (p ∈ sent)).map fun k => (i, i + 1 + k)

def Log.meet (pkt : CanPacket) (t : FdTable) (l : Log) (i : Fin canMaxUsecount) : FdLog :=
  match t.openfd i with
  | none => l.fd i
  | some f =>
    { l.fd i with recs := (l.fd i).recs ++ [⟨pkt, f.inq.full, f.promiscuous, f.snoopy⟩] }

def Driver.drain (pkt : CanPacket) (q : PktRing) (d : Driver) : Driver :=
  let s : Node := { d.node with inq := q }
  let r := deliverPkt pkt s
  let sent := if isMypacket s.canNodeid pkt then replies pkt s else []
  { node := r.1
    log :=
      { drained := d.log.drained ++ [pkt]
        calls := d.log.calls ++ r.2
        replies := d.log.replies ++ newReplies d.log.drained.length q.size sent r.1.inq.toList
        fd := d.log.meet pkt d.node.fds } }

/-- `can_bh` runs until `inq` is empty. A bottom half that halts the machine
does not return. -/
inductive BhRun : Driver → Driver → Prop where
  | done {d : Driver} : ringToPkt d.node.inq = none → BhRun d d
  | round {d d' : Driver} {pkt : CanPacket} {q : PktRing} :
      ringToPkt d.node.inq = some (pkt, q) → (d.drain pkt q).node.halted = false →
      BhRun (d.drain pkt q) d' → BhRun d d'

inductive DriverOp where
  | open
  | release (fd : Fin canMaxUsecount)
  | ioctl (fd : Fin canMaxUsecount) (cmd : IoctlCmd) (fault : Bool)
  | read (fd : Fin canMaxUsecount) (count : Nat)
  | sendPkt (pkt : CanPacket)
  | sendPktNoOutFixup (pkt : CanPacket)
  | tryRecv (pkts : List CanPacket)
  | tryXmit
  | xmitDone
  | canBh
  | printk (m : String)
  | ackTimeout
  | tick (jiffies : BitVec 32)

def Log.opened (fd : Fin canMaxUsecount) (l : Log) : Log :=
  { l with fd := Function.update l.fd fd ⟨l.drained.length, [], []⟩ }

def Log.didRead (fd : Fin canMaxUsecount) (pkts : List CanPacket) (l : Log) : Log :=
  { l with fd := Function.update l.fd fd { l.fd fd with read := (l.fd fd).read ++ pkts } }

/-- The steps of the driver, each atomic. -/
inductive DriverStep : Driver → DriverOp → Driver → Prop where
  | open {d : Driver} {fd : Fin canMaxUsecount} {t : FdTable}
      (h : canAllocOpenfd d.node.fds = some (fd, t)) :
      DriverStep d .open ⟨{ d.node with fds := t }, d.log.opened fd⟩
  | openBusy {d : Driver} (h : canAllocOpenfd d.node.fds = none) : DriverStep d .open d
  | release {d : Driver} {fd : Fin canMaxUsecount} {f : FileState}
      (h : d.node.fds.openfd fd = some f) :
      DriverStep d (.release fd)
        { d with node :=
            { d.node with fds := canReleaseOpenfd fd d.node.canNodeid d.node.fds } }
  | ioctl {d : Driver} {fd : Fin canMaxUsecount} {f : FileState}
      (h : d.node.fds.openfd fd = some f) (cmd : IoctlCmd) (fault : Bool) :
      DriverStep d (.ioctl fd cmd fault) { d with node := (canIoctl fd cmd fault d.node).1 }
  | read {d : Driver} {fd : Fin canMaxUsecount} {f : FileState}
      (h : d.node.fds.openfd fd = some f) (count : Nat) :
      DriverStep d (.read fd count)
        ⟨{ d.node with fds := d.node.fds.modify fd fun f => (canRead count f).2 },
          d.log.didRead fd (canRead count f).1⟩
  | sendPkt {d : Driver} (pkt : CanPacket) :
      DriverStep d (.sendPkt pkt) { d with node := (MeikoCs2.sendPkt pkt d.node).1 }
  | sendPktNoOutFixup {d : Driver} (pkt : CanPacket) :
      DriverStep d (.sendPktNoOutFixup pkt)
        { d with node := (MeikoCs2.sendPktNoOutFixup pkt d.node).1 }
  | tryRecv {d : Driver} (pkts : List CanPacket) :
      DriverStep d (.tryRecv pkts) { d with node := MeikoCs2.tryRecv pkts d.node }
  | tryXmit {d : Driver} : DriverStep d .tryXmit { d with node := MeikoCs2.tryXmit d.node }
  | xmitDone {d : Driver} : DriverStep d .xmitDone { d with node := { d.node with xmitAvail := true } }
  | canBh {d d' : Driver} (h : BhRun { d with node := { d.node with bhQueued := false } } d') :
      DriverStep d .canBh d'
  | printk {d : Driver} (m : String) :
      DriverStep d (.printk m) { d with node := MeikoCs2.printk m d.node }
  | ackTimeout {d : Driver} (h : d.node.ackTimer = true) :
      DriverStep d .ackTimeout { d with node := canconRecvAck true d.node }
  | tick {d : Driver} (jiffies : BitVec 32) :
      DriverStep d (.tick jiffies) { d with node := { d.node with jiffies := jiffies } }

def FileState.settings (f : FileState) : Bool × Bool × Int := (f.promiscuous, f.snoopy, f.consobj)

structure SameFiles (t t' : FdTable) : Prop where
  settings : ∀ i, (t'.openfd i).map FileState.settings = (t.openfd i).map FileState.settings
  consobjReserved : t'.consobjReserved = t.consobjReserved
  promiscuousUsecount : t'.promiscuousUsecount = t.promiscuousUsecount
  reg : t'.reg = t.reg

theorem SameFiles.refl (t : FdTable) : SameFiles t t := ⟨fun _ => rfl, rfl, rfl, rfl⟩

theorem SameFiles.of_eq {t t' : FdTable} (h : t' = t) : SameFiles t t' := h ▸ .refl t

theorem SameFiles.trans {t u v : FdTable} (h : SameFiles t u) (h' : SameFiles u v) :
    SameFiles t v where
  settings i := (h'.settings i).trans (h.settings i)
  consobjReserved := h'.consobjReserved.trans h.consobjReserved
  promiscuousUsecount := h'.promiscuousUsecount.trans h.promiscuousUsecount
  reg := h'.reg.trans h.reg

theorem canRead_settings (count : Nat) (f : FileState) :
    (canRead count f).2.settings = f.settings := by
  unfold canRead
  split_ifs <;> rfl

theorem sameFiles_modify {fd : Fin canMaxUsecount} {f : FileState → FileState} (t : FdTable)
    (hf : ∀ x, (f x).settings = x.settings) : SameFiles t (t.modify fd f) := by
  refine ⟨fun i => ?_, rfl, rfl, rfl⟩
  simp only [FdTable.modify]
  rcases eq_or_ne i fd with rfl | hi
  · rw [Function.update_self, Option.map_map]
    exact congrArg (Option.map · _) (funext hf)
  · rw [Function.update_of_ne hi]

theorem deliverFds_sameFiles (mine : Bool) (pkt : CanPacket) (t : FdTable) :
    SameFiles t (deliverFds mine pkt t) := by
  refine ⟨fun i => ?_, rfl, rfl, rfl⟩
  simp only [deliverFds, Option.map_map]
  congr 1
  funext f
  simp only [Function.comp]
  split_ifs <;> rfl

theorem deliverPkt_sameFiles (pkt : CanPacket) (s : Node) :
    SameFiles s.fds (deliverPkt pkt s).1.fds := by
  have hk : (if isMypacket s.canNodeid pkt then (canobjPacket pkt s).1 else s).fds = s.fds := by
    split_ifs
    · exact (canobjPacket_handles pkt s).fds
    · rfl
  simp only [deliverPkt]
  split_ifs at hk ⊢
  · exact .of_eq hk
  · exact (SameFiles.of_eq hk).trans (deliverFds_sameFiles _ _ _)
  · exact .of_eq hk
  · exact (SameFiles.of_eq hk).trans (deliverFds_sameFiles _ _ _)

theorem BhRun.sameFiles {d d' : Driver} (h : BhRun d d') : SameFiles d.node.fds d'.node.fds := by
  induction h with
  | done _ => exact .refl _
  | @round d _ pkt q _ _ _ ih =>
    exact (deliverPkt_sameFiles pkt { d.node with inq := q }).trans ih

theorem recvLoop_prints (pkts : List CanPacket) (s : Node) : Prints s (recvLoop s pkts) := by
  induction pkts generalizing s with
  | nil => exact .refl s
  | cons p ps ih => exact (putInq_prints _ s).trans (ih _)

theorem tryRecv_prints (pkts : List CanPacket) (s : Node) : Prints s (tryRecv pkts s) := by
  unfold tryRecv
  split_ifs
  · exact .refl s
  · exact (recvLoop_prints pkts s).trans (queueBh_prints _)

theorem sendPktNoOutFixup_emits (pkt : CanPacket) (s : Node) :
    Emits s (sendPktNoOutFixup pkt s).1 := by
  obtain ⟨t, i, o, ht, he⟩ := sendPktNoOutFixup_eq pkt s
  rw [he]
  exact ht.toEmits.trans (record_emits _ t)

theorem canDumpInfo_prints (s : Node) : Prints s (canDumpInfo s) := by
  have hinfo : ∀ s, Prints s (canconDumpInfo s) := fun s => by
    unfold canconDumpInfo
    split_ifs <;> exact printk_prints _ s
  have hdebug : ∀ s, Prints s (canconDumpDebug s) := fun s =>
    ((printk_prints _ s).trans (printk_prints _ _)).trans (printk_prints _ _)
  unfold canDumpInfo
  split_ifs
  · exact ((((hinfo s).trans (printk_prints _ _)).trans (printk_prints _ _)).trans
      (printk_prints _ _)).trans ((printk_prints _ _).trans (hdebug _))
  · exact .refl s

theorem Driver.init_fds (n : Node) : (Driver.init n).node.fds = FdTable.init n.canNodeid := by
  simp only [Driver.init, canInit, canobjCanconHostGet]
  split <;> rfl

/-- The steps that reach the table of open files: an open, a release and an
ioctl. Every other step at most moves packets into and out of the rings. -/
theorem DriverStep.fds_cases {d d' : Driver} {op : DriverOp} (h : DriverStep d op d') :
    (op = .open ∧ ∃ fd, canAllocOpenfd d.node.fds = some (fd, d'.node.fds)) ∨
    (∃ fd f, op = .release fd ∧ d.node.fds.openfd fd = some f ∧
      d'.node.fds = canReleaseOpenfd fd d.node.canNodeid d.node.fds) ∨
    (∃ fd f cmd fault, op = .ioctl fd cmd fault ∧ d.node.fds.openfd fd = some f ∧
      d'.node = (canIoctl fd cmd fault d.node).1) ∨
    ((∀ fd, op ≠ .release fd) ∧ (∀ fd cmd fault, op ≠ .ioctl fd cmd fault) ∧
      SameFiles d.node.fds d'.node.fds) := by
  cases h with
  | «open» h => exact .inl ⟨rfl, _, h⟩
  | release h => exact .inr (.inl ⟨_, _, rfl, h, rfl⟩)
  | ioctl h cmd fault => exact .inr (.inr (.inl ⟨_, _, _, _, rfl, h, rfl⟩))
  | openBusy _ => exact .inr (.inr (.inr ⟨nofun, nofun, .refl _⟩))
  | read _ count => exact .inr (.inr (.inr ⟨nofun, nofun, sameFiles_modify _ (canRead_settings count)⟩))
  | sendPkt pkt => exact .inr (.inr (.inr ⟨nofun, nofun, .of_eq (sendPkt_emits pkt _).fds⟩))
  | sendPktNoOutFixup pkt =>
    exact .inr (.inr (.inr ⟨nofun, nofun, .of_eq (sendPktNoOutFixup_emits pkt _).fds⟩))
  | tryRecv pkts => exact .inr (.inr (.inr ⟨nofun, nofun, .of_eq (tryRecv_prints pkts _).fds⟩))
  | tryXmit => exact .inr (.inr (.inr ⟨nofun, nofun, .of_eq (tryXmit_prints _).fds⟩))
  | xmitDone => exact .inr (.inr (.inr ⟨nofun, nofun, .refl _⟩))
  | canBh h => exact .inr (.inr (.inr ⟨nofun, nofun, h.sameFiles⟩))
  | printk m => exact .inr (.inr (.inr ⟨nofun, nofun, .of_eq (printk_prints m _).fds⟩))
  | ackTimeout _ => exact .inr (.inr (.inr ⟨nofun, nofun, .of_eq (canconRecvAck_prints true _).fds⟩))
  | tick j => exact .inr (.inr (.inr ⟨nofun, nofun, .refl _⟩))

end MeikoCs2
