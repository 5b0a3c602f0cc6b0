import MeikoCs2.Queues

/-! `send_pkt_no_out_fixup` step by step, as a write, a heartbeat or the bottom
half executes it, with `can_intr` as a whole between any two of the steps. The
chip sends its transmit registers on the TRANSMIT command, clears XMIT_AVAIL
until it is done, and ignores writes to the registers meanwhile. -/

namespace MeikoCs2

structure TxRegs where
  txdb1 : Byte
  txdb2 : Byte
  tx0 : Byte
  tx1 : Byte
  tx2 : Byte
  tx3 : Byte
  tx4 : Byte
  tx5 : Byte
  tx6 : Byte
  tx7 : Byte
  deriving DecidableEq, Repr, Inhabited

def CanHeader.bits (h : CanHeader) : BitVec 16 :=
  h.lpriority ++ h.dest ++ h.src ++ h.remote ++ h.length

def CanHeader.ofBits (b : BitVec 16) : CanHeader where
  lpriority := b.extractLsb' 15 1
  dest := b.extractLsb' 10 5
  src := b.extractLsb' 5 5
  remote := b.extractLsb' 4 1
  length := b.extractLsb' 0 4

theorem CanHeader.ofBits_bits (h : CanHeader) : CanHeader.ofBits h.bits = h := by
  obtain ⟨p, d, s, r, l⟩ := h
  simp only [CanHeader.ofBits, CanHeader.bits, CanHeader.mk.injEq]
  refine ⟨?_, ?_, ?_, ?_, ?_⟩
  · iterate 3 rw [BitVec.extractLsb'_append_eq_of_le (by decide)]
    exact BitVec.extractLsb'_append_eq_left
  · iterate 3 rw [BitVec.extractLsb'_append_eq_of_le (by decide)]
    exact BitVec.extractLsb'_append_eq_right
  · iterate 2 rw [BitVec.extractLsb'_append_eq_of_le (by decide)]
    exact BitVec.extractLsb'_append_eq_right
  · rw [BitVec.extractLsb'_append_eq_of_le (by decide)]
    exact BitVec.extractLsb'_append_eq_right
  · exact BitVec.extractLsb'_append_eq_right

/-- The bytes of the CAN header, as the chip counts them. -/
def CanHeader.canB (h : CanHeader) (i : Nat) : Byte := h.bits.extractLsb' (8 - 8 * i) 8

def canCopyTx (pkt : CanPacket) : TxRegs where
  txdb1 := pkt.can.canB 0
  txdb2 := pkt.can.canB 1
  tx0 := datB pkt.ext.extDat 0
  tx1 := datB pkt.ext.extDat 1
  tx2 := datB pkt.ext.extDat 2
  tx3 := datB pkt.ext.extDat 3
  tx4 := datB pkt.dat 0
  tx5 := datB pkt.dat 1
  tx6 := datB pkt.dat 2
  tx7 := datB pkt.dat 3

/-- The time stamp is not on the wire. -/
def canCopyRx (rx : TxRegs) (pkt : CanPacket) : CanPacket :=
  { pkt with
    can := CanHeader.ofBits (rx.txdb1 ++ rx.txdb2)
    ext := datExt (rx.tx0 ++ rx.tx1 ++ rx.tx2 ++ rx.tx3)
    dat := rx.tx4 ++ rx.tx5 ++ rx.tx6 ++ rx.tx7 }

theorem datB_append (d : CanDat) : datB d 0 ++ datB d 1 ++ datB d 2 ++ datB d 3 = d := by
  simp only [datB]
  iterate 3 rw [BitVec.extractLsb'_append_extractLsb'_eq_extractLsb' (by decide)]
  exact BitVec.extractLsb'_eq_self

theorem canB_append (h : CanHeader) : h.canB 0 ++ h.canB 1 = h.bits := by
  simp only [CanHeader.canB]
  rw [BitVec.extractLsb'_append_extractLsb'_eq_extractLsb' (by decide)]
  exact BitVec.extractLsb'_eq_self

/-- What one node copies to its chip another copies from its own. -/
theorem canCopyRx_canCopyTx (pkt old : CanPacket) :
    canCopyRx (canCopyTx pkt) old = { pkt with timestamp := old.timestamp } := by
  simp only [canCopyRx, canCopyTx, canB_append, datB_append, CanHeader.ofBits_bits, datExt_extDat]

/-- Where `send_pkt_no_out_fixup` is, by the step that it executes next. Once
the queues are done with, `h` says what became of its packet. -/
inductive Pc where
  | idle
  | outTest (pkt : CanPacket)
  | outStore (pkt : CanPacket)
  | outAdvance (pkt : CanPacket)
  | inTest (pkt : CanPacket) (outstat : Bool)
  | inStore (pkt : CanPacket) (outstat : Bool)
  | inAdvance (pkt : CanPacket) (outstat : Bool)
  | xmitStatus (h : Handed)
  | xmitTake (h : Handed)
  | xmitCopy (h : Handed) (pkt : CanPacket)
  | xmitCommand (h : Handed) (pkt : CanPacket)

/-- The node with what executes on it, and with the record of the packets that
the rings took and that left `inq`, and of what the chip sent. -/
structure Cpu where
  node : Node
  pc : Pc
  regs : TxRegs
  wire : List TxRegs
  inAccepted : List CanPacket
  inRemoved : List CanPacket
  outAccepted : List CanPacket

namespace Cpu

def finish (h : Handed) (c : Cpu) : Cpu := { c with node := record h c.node, pc := .idle }

/-- Both queues are done with. -/
def queued (h : Handed) (c : Cpu) : Cpu :=
  if h.outstat then { c with pc := .xmitStatus h } else finish h c

def next (c : Cpu) : Cpu :=
  match c.pc with
  | .idle => c
  | .outTest pkt =>
    if c.node.outq.full then finish ⟨pkt, false, false⟩ c else { c with pc := .outStore pkt }
  | .outStore pkt =>
    { c with node := { c.node with outq := c.node.outq.store pkt }, pc := .outAdvance pkt }
  | .outAdvance pkt =>
    { c with
      node := { c.node with outq := c.node.outq.advanceHead }
      pc := .inTest pkt true
      outAccepted := c.outAccepted ++ [pkt] }
  | .inTest pkt outstat =>
    if c.node.inq.full then queued ⟨pkt, false, outstat⟩ c
    else { c with pc := .inStore pkt outstat }
  | .inStore pkt outstat =>
    { c with node := { c.node with inq := c.node.inq.store pkt }, pc := .inAdvance pkt outstat }
  | .inAdvance pkt outstat =>
    queued ⟨pkt, true, outstat⟩
      { c with
        node := queueBh { c.node with inq := c.node.inq.advanceHead }
        inAccepted := c.inAccepted ++ [pkt] }
  | .xmitStatus h => if c.node.xmitAvail then { c with pc := .xmitTake h } else finish h c
  | .xmitTake h =>
    match ringToPkt c.node.outq with
    | none => finish h c
    | some (pkt, q) => { c with node := { c.node with outq := q }, pc := .xmitCopy h pkt }
  | .xmitCopy h pkt =>
    { c with
      regs := if c.node.xmitAvail then canCopyTx pkt else c.regs
      pc := .xmitCommand h pkt }
  | .xmitCommand h pkt =>
    { c with
      node := { c.node with xmitAvail := false, transmitted := c.node.transmitted ++ [pkt] }
      wire := c.wire ++ [c.regs]
      pc := .xmitStatus h }

section Next

variable {c : Cpu} {pkt : CanPacket} {outstat : Bool} {h : Handed}

theorem next_outTest (hpc : c.pc = .outTest pkt) :
    c.next = if c.node.outq.full then finish ⟨pkt, false, false⟩ c
      else { c with pc := .outStore pkt } := by
  rw [next, hpc]

theorem next_outStore (hpc : c.pc = .outStore pkt) :
    c.next =
      { c with node := { c.node with outq := c.node.outq.store pkt }, pc := .outAdvance pkt } := by
  rw [next, hpc]

theorem next_outAdvance (hpc : c.pc = .outAdvance pkt) :
    c.next =
      { c with
        node := { c.node with outq := c.node.outq.advanceHead }
        pc := .inTest pkt true
        outAccepted := c.outAccepted ++ [pkt] } := by
  rw [next, hpc]

theorem next_inTest (hpc : c.pc = .inTest pkt outstat) :
    c.next = if c.node.inq.full then queued ⟨pkt, false, outstat⟩ c
      else { c with pc := .inStore pkt outstat } := by
  rw [next, hpc]

theorem next_inStore (hpc : c.pc = .inStore pkt outstat) :
    c.next =
      { c with
        node := { c.node with inq := c.node.inq.store pkt }
        pc := .inAdvance pkt outstat } := by
  rw [next, hpc]

theorem next_inAdvance (hpc : c.pc = .inAdvance pkt outstat) :
    c.next = queued ⟨pkt, true, outstat⟩
      { c with
        node := queueBh { c.node with inq := c.node.inq.advanceHead }
        inAccepted := c.inAccepted ++ [pkt] } := by
  rw [next, hpc]

theorem next_xmitStatus (hpc : c.pc = .xmitStatus h) :
    c.next = if c.node.xmitAvail then { c with pc := .xmitTake h } else finish h c := by
  rw [next, hpc]

theorem next_xmitTake_none (hpc : c.pc = .xmitTake h) (hg : ringToPkt c.node.outq = none) :
    c.next = finish h c := by
  rw [next, hpc]
  simp only [hg]

theorem next_xmitTake_some {q : PktRing} (hpc : c.pc = .xmitTake h)
    (hg : ringToPkt c.node.outq = some (pkt, q)) :
    c.next = { c with node := { c.node with outq := q }, pc := .xmitCopy h pkt } := by
  rw [next, hpc]
  simp only [hg]

theorem next_xmitCopy (hpc : c.pc = .xmitCopy h pkt) :
    c.next =
      { c with
        regs := if c.node.xmitAvail then canCopyTx pkt else c.regs
        pc := .xmitCommand h pkt } := by
  rw [next, hpc]

theorem next_xmitCommand (hpc : c.pc = .xmitCommand h pkt) :
    c.next =
      { c with
        node := { c.node with xmitAvail := false, transmitted := c.node.transmitted ++ [pkt] }
        wire := c.wire ++ [c.regs]
        pc := .xmitStatus h } := by
  rw [next, hpc]

end Next

/-- `can_intr` as a whole. What it transmits goes through the registers. -/
def interrupt (st : CanStatus) (pkts : List CanPacket) (c : Cpu) : Cpu :=
  let handed := (canReport st c.node).handed.drop c.node.handed.length
  let sent := (canIntr st pkts c.node).transmitted.drop c.node.transmitted.length
  { c with
    node := canIntr st pkts c.node
    regs := (sent.getLast?.map canCopyTx).getD c.regs
    wire := c.wire ++ sent.map canCopyTx
    inAccepted := c.inAccepted ++ (queuedIn handed ++ recvAccepted (canReport st c.node) pkts)
    outAccepted := c.outAccepted ++ queuedOut handed }

/-- Everything but the queues and the chip from `n`. -/
def withQueues (n s : Node) : Node :=
  { n with
    inq := s.inq
    outq := s.outq
    xmitAvail := s.xmitAvail
    transmitted := s.transmitted
    handed := s.handed }

inductive Op where
  | start (pkt : CanPacket)
  | step
  | intr (st : CanStatus) (pkts : List CanPacket)
  | xmitDone
  -- ring_to_pkt in the bottom half
  | remove
  -- whatever else changes, outside the queues
  | other (n : Node)

def act (c : Cpu) : Op → Option Cpu
  | .start pkt =>
    match c.pc with
    | .idle =>
      let pkt := incomingFixup c.node.jiffies pkt
      some { c with
        pc := if isMypacket c.node.canNodeid pkt then .inTest pkt false else .outTest pkt }
    | _ => none
  | .step =>
    match c.pc with
    | .idle => none
    | _ => some c.next
  | .intr st pkts => some (c.interrupt st pkts)
  | .xmitDone => some { c with node := { c.node with xmitAvail := true } }
  | .remove =>
    (ringToPkt c.node.inq).map fun x =>
      { c with node := { c.node with inq := x.2 }, inRemoved := c.inRemoved ++ [x.1] }
  | .other n => some { c with node := withQueues n c.node }

def Step (c : Cpu) (op : Op) (u : Cpu) : Prop := c.act op = some u

/-- The queues as `can_init_queues` leaves them. -/
def boot (n : Node) (regs : TxRegs) : Cpu :=
  ⟨{ n with inq := ringInit default, outq := ringInit default }, .idle, regs, [], [], [], []⟩

/-- An interrupt adds to the ends of both queues, and takes from the front of
`outq` what it transmits. -/
theorem canIntr_queues (st : CanStatus) (pkts : List CanPacket) (s : Node) :
    ∃ l, (canReport st s).handed = s.handed ++ l ∧
      (canIntr st pkts s).inq.toList =
        s.inq.toList ++ (queuedIn l ++ recvAccepted (canReport st s) pkts) ∧
      (canIntr st pkts s).transmitted ++ (canIntr st pkts s).outq.toList =
        s.transmitted ++ s.outq.toList ++ queuedOut l ∧
      s.transmitted <+: (canIntr st pkts s).transmitted := by
  obtain ⟨l, hl⟩ := canReport_sends st s
  have hrecv := tryRecv_inq pkts (canReport st s)
  have hx := tryXmit_sends (tryRecv pkts (canReport st s))
  obtain ⟨q, b, hq⟩ := exists_tryRecv_eq pkts (canReport st s)
  refine ⟨l, hl.handed, ?_, ?_, ?_⟩
  · rw [canIntr, hx.inq, hrecv, hl.inq, queuedIn_nil, List.append_nil, List.append_assoc]
  · rw [canIntr, hx.outq, hq, hl.outq, queuedOut_nil, List.append_nil]
  · have ht := hx.transmitted
    rw [hq] at ht
    rw [canIntr, hq]
    exact hl.transmitted.trans ht

theorem interrupt_inq (st : CanStatus) (pkts : List CanPacket) (c : Cpu) :
    ∃ new, (c.interrupt st pkts).inAccepted = c.inAccepted ++ new ∧
      (c.interrupt st pkts).node.inq.toList = c.node.inq.toList ++ new := by
  obtain ⟨l, hh, hin, -, -⟩ := canIntr_queues st pkts c.node
  refine ⟨_, rfl, ?_⟩
  change (canIntr st pkts c.node).inq.toList = _
  rw [hin, hh, List.drop_left]

/-- An interrupt that sends nothing of its own inserts at most what it has
received. -/
theorem interrupt_inq_length {st : CanStatus} {c : Cpu} (h : quiet st c.node = true)
    (pkts : List CanPacket) :
    (c.interrupt st pkts).node.inq.toList.length ≤ c.node.inq.toList.length + pkts.length := by
  have hsame := canReport_of_quiet h
  have hx := tryXmit_sends (tryRecv pkts (canReport st c.node))
  change (canIntr st pkts c.node).inq.toList.length ≤ _
  rw [canIntr, hx.inq, tryRecv_inq, hsame.inq]
  have hle := recvAccepted_length_le (canReport st c.node) pkts
  simp only [queuedIn_nil, List.append_nil, List.length_append]
  omega

theorem interrupt_inq_of_none {st : CanStatus} {c : Cpu} (h : quiet st c.node = true) :
    (c.interrupt st []).node.inq = c.node.inq := by
  obtain ⟨q, x, l, hq⟩ := exists_tryXmit_eq (canReport st c.node)
  change (tryXmit (canReport st c.node)).inq = _
  rw [hq]
  exact (canReport_of_quiet h).inq

/-! Without interrupts the steps make up `sendPktNoOutFixup`. -/

/-- Some steps of the send alone lead from `c` to its end, with the node `n`. -/
def Reaches (c : Cpu) (n : Node) : Prop :=
  ∃ ls u, (∀ l ∈ ls, l = Op.step) ∧ Path Step c ls u ∧ u.pc = .idle ∧ u.node = n

theorem reaches_finish (h : Handed) (c : Cpu) : Reaches (finish h c) (record h c.node) :=
  ⟨[], _, by simp, .nil _, rfl, rfl⟩

theorem Reaches.step {c : Cpu} {n : Node} (hpc : c.act .step = some c.next)
    (h : Reaches c.next n) : Reaches c n := by
  obtain ⟨ls, u, hls, hp, hu⟩ := h
  refine ⟨.step :: ls, u, ?_, .cons hpc hp, hu⟩
  intro l hl
  rcases List.mem_cons.mp hl with rfl | hl
  · rfl
  · exact hls l hl

theorem reaches_xmitStatus {c : Cpu} {h : Handed} (hpc : c.pc = .xmitStatus h) :
    Reaches c (record h (tryXmit c.node)) := by
  -- once XMIT_AVAIL is clear the loop ends
  have hstop : ∀ d : Cpu, d.pc = .xmitStatus h → d.node.xmitAvail = false →
      Reaches d (record h d.node) := by
    intro d hd ha
    refine .step (by simp [act, hd]) ?_
    have hn : d.next = finish h d := by simp [next, hd, ha]
    rw [hn]
    exact reaches_finish h d
  rw [tryXmit_eq]
  cases ha : c.node.xmitAvail with
  | false => exact hstop c hpc ha
  | true =>
    refine .step (by simp [act, hpc]) ?_
    have hn : c.next = { c with pc := .xmitTake h } := by simp [next, hpc, ha]
    rw [hn]
    refine .step rfl ?_
    cases hg : ringToPkt c.node.outq with
    | none =>
      simp only [next, hg]
      exact reaches_finish h _
    | some x =>
      simp only [next, hg]
      refine .step rfl (.step rfl ?_)
      exact hstop _ rfl rfl

theorem reaches_queued (h : Handed) (c : Cpu) :
    Reaches (queued h c) (record h (if h.outstat then tryXmit c.node else c.node)) := by
  unfold queued
  split_ifs
  · exact reaches_xmitStatus rfl
  · exact reaches_finish h c

theorem reaches_inTest {c : Cpu} {pkt : CanPacket} {outstat : Bool}
    (hpc : c.pc = .inTest pkt outstat) :
    Reaches c (record ⟨pkt, (putInq pkt c.node).2, outstat⟩
      (if outstat then
        tryXmit (if (putInq pkt c.node).2 then queueBh (putInq pkt c.node).1
          else (putInq pkt c.node).1)
      else if (putInq pkt c.node).2 then queueBh (putInq pkt c.node).1
        else (putInq pkt c.node).1)) := by
  refine .step (by simp [act, hpc]) ?_
  cases hf : c.node.inq.full with
  | true =>
    have hn : c.next = queued ⟨pkt, false, outstat⟩ c := by simp [next, hpc, hf]
    have hput : putInq pkt c.node = (c.node, false) := by
      simp only [putInq, pktToRing, Ring.put_of_full hf]
    rw [hn, hput]
    exact reaches_queued _ c
  | false =>
    have hn : c.next = { c with pc := .inStore pkt outstat } := by simp [next, hpc, hf]
    have hput : putInq pkt c.node =
        ({ c.node with inq := (c.node.inq.store pkt).advanceHead }, true) := by
      simp only [putInq, pktToRing, Ring.put_eq hf]
    rw [hn, hput]
    exact .step rfl (.step rfl (reaches_queued ⟨pkt, true, outstat⟩ _))

theorem reaches_outTest {c : Cpu} {pkt : CanPacket} (hpc : c.pc = .outTest pkt)
    (hm : isMypacket c.node.canNodeid pkt = false) :
    Reaches c (record ⟨pkt, (enqueue pkt c.node).2.1, (enqueue pkt c.node).2.2⟩
      (if (enqueue pkt c.node).2.2 then
        tryXmit (if (enqueue pkt c.node).2.1 then queueBh (enqueue pkt c.node).1
          else (enqueue pkt c.node).1)
      else if (enqueue pkt c.node).2.1 then queueBh (enqueue pkt c.node).1
        else (enqueue pkt c.node).1)) := by
  refine .step (by simp [act, hpc]) ?_
  cases hf : c.node.outq.full with
  | true =>
    have hn : c.next = finish ⟨pkt, false, false⟩ c := by simp [next, hpc, hf]
    have hput : enqueue pkt c.node = (c.node, false, false) := by
      simp [enqueue, hm, putOutq, pktToRing, Ring.put_of_full hf]
    rw [hn, hput]
    exact reaches_finish _ c
  | false =>
    have hn : c.next = { c with pc := .outStore pkt } := by simp [next, hpc, hf]
    have hput : putOutq pkt c.node =
        ({ c.node with outq := (c.node.outq.store pkt).advanceHead }, true) := by
      simp only [putOutq, pktToRing, Ring.put_eq hf]
    have he : enqueue pkt c.node =
        ((putInq pkt (putOutq pkt c.node).1).1, (putInq pkt (putOutq pkt c.node).1).2, true) := by
      simp [enqueue, hm, hput]
    rw [hn, he, hput]
    exact .step rfl (.step rfl (reaches_inTest rfl))

/-- A send that no interrupt lands in is `sendPktNoOutFixup`. -/
theorem reaches_sendPktNoOutFixup {c : Cpu} (hpc : c.pc = .idle) (pkt : CanPacket) :
    ∃ d, Step c (.start pkt) d ∧ Reaches d (sendPktNoOutFixup pkt c.node).1 := by
  refine ⟨_, by simp only [Step, act, hpc]; rfl, ?_⟩
  cases hm : isMypacket c.node.canNodeid (incomingFixup c.node.jiffies pkt) with
  | true =>
    have he : enqueue (incomingFixup c.node.jiffies pkt) c.node =
        ((putInq (incomingFixup c.node.jiffies pkt) c.node).1,
          (putInq (incomingFixup c.node.jiffies pkt) c.node).2, false) := by
      simp [enqueue, hm]
    simp only [sendPktNoOutFixup, he]
    exact reaches_inTest rfl
  | false =>
    simp only [sendPktNoOutFixup]
    exact reaches_outTest rfl hm

end Cpu

end MeikoCs2
