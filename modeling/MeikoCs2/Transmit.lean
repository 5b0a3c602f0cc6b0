import Mathlib.Data.List.Forall2
import MeikoCs2.InqProducers

/-! The two callers of `try_xmit`. The note in `can_main.c` says that output
from `outq` is never concurrent, but a send and an interrupt that lands in it
both take packets from `outq` and write the transmit registers of the chip. -/

namespace MeikoCs2

/-- The packet that a send has taken from `outq` and not yet transmitted. -/
def Pc.held : Pc → List CanPacket
  | .xmitCopy _ pkt => [pkt]
  | .xmitCommand _ pkt => [pkt]
  | _ => []

def Pc.outserting : Pc → Bool
  | .outStore _ => true
  | .outAdvance _ => true
  | _ => false

/-- Whether the transmit registers have been written and not yet sent. -/
def Pc.loaded : Pc → Bool
  | .xmitCommand _ _ => true
  | _ => false

namespace Cpu

/-- The packets queued are those on the wire, the one held and those in `outq`,
in that order. -/
def OutAccounted (c : Cpu) : Prop :=
  ∃ sent, c.outAccepted = sent ++ (c.pc.held ++ c.node.outq.toList) ∧
    c.wire = sent.map canCopyTx

structure OutInv (c : Cpu) : Prop where
  queue : OutAccounted c
  room : c.pc.outserting = true → c.node.outq.full = false
  stored : ∀ pkt, c.pc = .outAdvance pkt → c.node.outq.buf c.node.outq.head = pkt
  ready : ∀ h pkt, c.pc = .xmitCommand h pkt →
    c.node.xmitAvail = true ∧ c.regs = canCopyTx pkt

variable {c u : Cpu}

theorem OutAccounted.frame (h : OutAccounted c) (ha : u.outAccepted = c.outAccepted)
    (hw : u.wire = c.wire) (hq : u.node.outq = c.node.outq)
    (hh : u.pc.held = c.pc.held) : OutAccounted u := by
  obtain ⟨sent, hsent, hwire⟩ := h
  exact ⟨sent, by rw [ha, hq, hh, hsent], by rw [hw, hwire]⟩

theorem OutAccounted.of_eq (sent held q : List CanPacket) (hh : c.pc.held = held)
    (hq : c.node.outq.toList = q) (ha : c.outAccepted = sent ++ (held ++ q))
    (hw : c.wire = sent.map canCopyTx) : OutAccounted c :=
  ⟨sent, by rw [hh, hq, ha], hw⟩

theorem OutInv.of_unloaded (hq : OutAccounted c)
    (hr : c.pc.outserting = true → c.node.outq.full = false)
    (hs : ∀ pkt, c.pc = .outAdvance pkt → c.node.outq.buf c.node.outq.head = pkt)
    (hc : c.pc.loaded = false) : OutInv c where
  queue := hq
  room := hr
  stored := hs
  ready x pkt hpc := by
    rw [hpc] at hc
    cases hc

/-- At the other steps only the account matters. -/
theorem OutInv.of_queue (h : OutAccounted c) (hp : c.pc.outserting = false)
    (hc : c.pc.loaded = false) : OutInv c := by
  refine .of_unloaded h ?_ ?_ hc
  · intro hi
    rw [hp] at hi
    cases hi
  · intro pkt hpc
    rw [hpc] at hp
    cases hp

theorem outInv_finish (h : OutAccounted c) (hh : c.pc.held = []) (x : Handed) :
    OutInv (finish x c) :=
  .of_queue (h.frame rfl rfl rfl hh.symm) rfl rfl

theorem outInv_queued (h : OutAccounted c) (hh : c.pc.held = []) (x : Handed) :
    OutInv (queued x c) := by
  unfold queued
  split_ifs
  · exact .of_queue (h.frame rfl rfl rfl hh.symm) rfl rfl
  · exact outInv_finish h hh x

/-- A send does not write the registers while XMIT_AVAIL is clear. An interrupt
that lands inside `pkt_to_ring` on `outq`, or while the send holds a packet,
sends nothing of its own, and in the second case it finds XMIT_AVAIL clear or
`outq` empty. -/
def outApart (c : Cpu) : Op → Bool
  | .intr st _ =>
    match c.pc with
    | .outStore _ => quiet st c.node
    | .outAdvance _ => quiet st c.node
    | .xmitCopy _ _ => quiet st c.node && (!c.node.xmitAvail || c.node.outq.empty)
    | .xmitCommand _ _ => quiet st c.node && (!c.node.xmitAvail || c.node.outq.empty)
    | _ => true
  | .step =>
    match c.pc with
    | .xmitCopy _ _ => c.node.xmitAvail
    | _ => true
  | _ => true

theorem OutInv.next (h : OutInv c) (hok : outApart c .step = true) : OutInv c.next := by
  have hq := h.queue
  cases hpc : c.pc with
  | idle =>
    rw [Cpu.next, hpc]
    exact h
  | outTest pkt =>
    have hh : c.pc.held = [] := by rw [hpc]; rfl
    rw [next_outTest hpc]
    split_ifs with hf
    · exact outInv_finish hq hh _
    · refine .of_unloaded (hq.frame rfl rfl rfl hh.symm) (fun _ => by simpa using hf) ?_ rfl
      intro pkt' hp
      cases hp
  | outStore pkt =>
    have hh : c.pc.held = [] := by rw [hpc]; rfl
    have hr := h.room (by rw [hpc]; rfl)
    rw [next_outStore hpc]
    refine .of_unloaded ?_ (fun _ => hr) ?_ rfl
    · obtain ⟨sent, ha, hw⟩ := hq
      rw [hh] at ha
      exact .of_eq sent [] _ rfl (Ring.toList_store pkt c.node.outq) ha hw
    · intro pkt' hp
      cases hp
      exact Ring.buf_store pkt c.node.outq
  | outAdvance pkt =>
    have hh : c.pc.held = [] := by rw [hpc]; rfl
    have hr := h.room (by rw [hpc]; rfl)
    have hl := Ring.toList_advanceHead (by decide) hr
    rw [h.stored pkt hpc] at hl
    rw [next_outAdvance hpc]
    refine .of_queue ?_ rfl rfl
    obtain ⟨sent, ha, hw⟩ := hq
    rw [hh] at ha
    refine .of_eq sent [] _ rfl hl ?_ hw
    simp only [ha, List.nil_append, List.append_assoc]
  | inTest pkt outstat =>
    have hh : c.pc.held = [] := by rw [hpc]; rfl
    rw [next_inTest hpc]
    split_ifs
    · exact outInv_queued hq hh _
    · exact .of_queue (hq.frame rfl rfl rfl hh.symm) rfl rfl
  | inStore pkt outstat =>
    have hh : c.pc.held = [] := by rw [hpc]; rfl
    rw [next_inStore hpc]
    exact .of_queue (hq.frame rfl rfl rfl hh.symm) rfl rfl
  | inAdvance pkt outstat =>
    have hh : c.pc.held = [] := by rw [hpc]; rfl
    rw [next_inAdvance hpc]
    apply outInv_queued
    · exact hq.frame rfl rfl rfl rfl
    · exact hh
  | xmitStatus x =>
    have hh : c.pc.held = [] := by rw [hpc]; rfl
    rw [next_xmitStatus hpc]
    split_ifs
    · exact .of_queue (hq.frame rfl rfl rfl hh.symm) rfl rfl
    · exact outInv_finish hq hh x
  | xmitTake x =>
    cases hg : ringToPkt c.node.outq with
    | none =>
      rw [next_xmitTake_none hpc hg]
      exact outInv_finish hq (by rw [hpc]; rfl) x
    | some y =>
      rw [next_xmitTake_some hpc hg]
      have hh : c.pc.held = [] := by rw [hpc]; rfl
      refine .of_queue ?_ rfl rfl
      obtain ⟨sent, ha, hw⟩ := hq
      rw [hh, Ring.toList_of_get (by decide) hg] at ha
      exact .of_eq sent [y.1] y.2.toList rfl rfl ha hw
  | xmitCopy x pkt =>
    have hav : c.node.xmitAvail = true := by
      simpa only [outApart, hpc] using hok
    have hh : c.pc.held = [pkt] := by rw [hpc]; rfl
    rw [next_xmitCopy hpc]
    refine ⟨hq.frame rfl rfl rfl hh.symm, fun ho => ?_, fun pkt' hp => ?_, fun x' pkt' hp => ?_⟩
    · cases ho
    · cases hp
    · cases hp
      exact ⟨hav, if_pos hav⟩
  | xmitCommand x pkt =>
    obtain ⟨-, hregs⟩ := h.ready x pkt hpc
    rw [next_xmitCommand hpc]
    refine .of_queue ?_ rfl rfl
    have hh : c.pc.held = [pkt] := by rw [hpc]; rfl
    obtain ⟨sent, ha, hw⟩ := hq
    rw [hh] at ha
    refine .of_eq (sent ++ [pkt]) [] c.node.outq.toList rfl rfl ?_ ?_
    · simp only [ha, List.nil_append, List.append_assoc]
    · simp only [hw, hregs, List.map_append, List.map_cons, List.map_nil]

/-- What an interrupt transmits comes from the front of `outq`. -/
theorem interrupt_out (st : CanStatus) (pkts : List CanPacket) (c : Cpu) :
    ∃ sent new, (c.interrupt st pkts).outAccepted = c.outAccepted ++ new ∧
      (c.interrupt st pkts).wire = c.wire ++ sent.map canCopyTx ∧
      c.node.outq.toList ++ new = sent ++ (c.interrupt st pkts).node.outq.toList := by
  obtain ⟨l, hh, -, hout, sent, hsent⟩ := canIntr_queues st pkts c.node
  refine ⟨sent, queuedOut l, ?_, ?_, ?_⟩
  · simp only [interrupt, hh, List.drop_left]
  · simp only [interrupt, ← hsent, List.drop_left]
  · rw [← hsent, List.append_assoc, List.append_assoc] at hout
    exact (List.append_cancel_left hout).symm

theorem interrupt_outq_of_quiet {st : CanStatus} {c : Cpu} (h : quiet st c.node = true)
    (pkts : List CanPacket) :
    ∃ s : Node, (c.interrupt st pkts).node = tryXmit s ∧ s.outq = c.node.outq ∧
      s.xmitAvail = c.node.xmitAvail ∧ s.transmitted = c.node.transmitted := by
  have hsame := canReport_of_quiet h
  obtain ⟨q, b, hq⟩ := exists_tryRecv_eq pkts (canReport st c.node)
  exact ⟨tryRecv pkts (canReport st c.node), rfl, by rw [hq]; exact hsame.outq,
    by rw [hq]; exact hsame.xmitAvail, by rw [hq]; exact hsame.transmitted⟩

/-- An interrupt that has nothing to transmit leaves the chip and `outq` alone. -/
theorem interrupt_of_stalled {st : CanStatus} {c : Cpu} (h : quiet st c.node = true)
    (hs : c.node.xmitAvail = false ∨ c.node.outq.toList = []) (pkts : List CanPacket) :
    (c.interrupt st pkts).node.xmitAvail = c.node.xmitAvail ∧
      (c.interrupt st pkts).regs = c.regs := by
  obtain ⟨s, hn, hq, ha, ht⟩ := interrupt_outq_of_quiet h pkts
  have hstall : tryXmit s = s := tryXmit_of_stalled (by rwa [ha, hq])
  have hnode : canIntr st pkts c.node = s := hn.trans hstall
  refine ⟨?_, ?_⟩
  · rw [hn, hstall, ha]
  · simp only [interrupt, hnode, ht, List.drop_length, List.getLast?_nil, Option.map_none,
      Option.getD_none]

theorem outAccounted_intr (h : OutAccounted c) {st : CanStatus} (pkts : List CanPacket)
    (hs : c.pc.held = [] ∨
      quiet st c.node = true ∧ (c.node.xmitAvail = false ∨ c.node.outq.toList = [])) :
    OutAccounted (c.interrupt st pkts) := by
  obtain ⟨done, ha, hw⟩ := h
  obtain ⟨sent, new, ha', hw', hq⟩ := interrupt_out st pkts c
  rcases hs with hh | ⟨hquiet, hstall⟩
  · refine .of_eq (done ++ sent) [] _ hh rfl ?_ ?_
    · rw [hh] at ha
      rw [ha', ha, List.nil_append, List.nil_append, List.append_assoc, List.append_assoc, hq]
    · rw [hw', hw, List.map_append]
  · obtain ⟨s, hn, hqs, hav, -⟩ := interrupt_outq_of_quiet hquiet pkts
    have hsame : (c.interrupt st pkts).node.outq = c.node.outq := by
      rw [hn, tryXmit_of_stalled (by rwa [hav, hqs]), hqs]
    have hreport := canReport_of_quiet hquiet
    have hnew : (c.interrupt st pkts).outAccepted = c.outAccepted := by
      simp only [interrupt, hreport.handed, List.drop_length, queuedOut_nil, List.append_nil]
    have hnone : new = [] := by
      rw [hnew] at ha'
      exact List.append_right_eq_self.mp ha'.symm
    have hsent : sent = [] := by
      rw [hnone, hsame, List.append_nil] at hq
      exact List.append_left_eq_self.mp hq.symm
    have hwire : (c.interrupt st pkts).wire = c.wire := by
      rw [hw', hsent]
      exact List.append_nil _
    exact OutAccounted.frame ⟨done, ha, hw⟩ hnew hwire hsame rfl

theorem OutInv.intr (h : OutInv c) {st : CanStatus} {pkts : List CanPacket}
    (hok : outApart c (.intr st pkts) = true) : OutInv (c.interrupt st pkts) := by
  have hout : ∀ hquiet : quiet st c.node = true, c.pc.outserting = true →
      (c.interrupt st pkts).node.outq.full = false ∧
        (c.interrupt st pkts).node.outq.buf (c.interrupt st pkts).node.outq.head =
          c.node.outq.buf c.node.outq.head := by
    intro hquiet hi
    obtain ⟨s, hn, hq, -, -⟩ := interrupt_outq_of_quiet hquiet pkts
    obtain ⟨hb, hd⟩ := tryXmit_outq s
    have hx := (tryXmit_sends s).outq
    obtain ⟨sent, hsent⟩ := (tryXmit_sends s).transmitted
    rw [← hsent, queuedOut_nil, List.append_nil, List.append_assoc] at hx
    have hx' := congrArg List.length (List.append_cancel_left hx)
    rw [List.length_append] at hx'
    rw [hn]
    refine ⟨Ring.full_of_length_le (by decide) (h.room hi) ?_, by rw [hb, hd, hq]⟩
    rw [← hq]
    omega
  have hidle : ∀ {x : Bool} {q : PktRing}, (!x || q.empty) = true →
      x = false ∨ q.toList = [] := by
    intro x q hx
    cases x with
    | false => exact .inl rfl
    | true =>
      have he : q.empty = true := hx
      right
      rw [← List.length_eq_zero_iff, Ring.length_toList]
      exact (Ring.empty_iff q).mp he
  cases hpc : c.pc with
  | outStore pkt =>
    simp only [outApart, hpc] at hok
    refine .of_unloaded (outAccounted_intr h.queue pkts (.inl (by rw [hpc]; rfl)))
      (fun hi => (hout hok hi).1) ?_ (by change c.pc.loaded = false; rw [hpc]; rfl)
    intro pkt' hp
    have hp' : c.pc = .outAdvance pkt' := hp
    rw [hpc] at hp'
    cases hp'
  | outAdvance pkt =>
    simp only [outApart, hpc] at hok
    have hi : c.pc.outserting = true := by rw [hpc]; rfl
    refine .of_unloaded (outAccounted_intr h.queue pkts (.inl (by rw [hpc]; rfl)))
      (fun _ => (hout hok hi).1) ?_ (by change c.pc.loaded = false; rw [hpc]; rfl)
    intro pkt' hp
    rw [(hout hok hi).2]
    exact h.stored pkt' hp
  | xmitCopy x pkt =>
    simp only [outApart, hpc, Bool.and_eq_true] at hok
    refine .of_queue (outAccounted_intr h.queue pkts (.inr ⟨hok.1, hidle hok.2⟩)) ?_ ?_
    · change c.pc.outserting = false
      rw [hpc]
      rfl
    · change c.pc.loaded = false
      rw [hpc]
      rfl
  | xmitCommand x pkt =>
    simp only [outApart, hpc, Bool.and_eq_true] at hok
    obtain ⟨hav, hregs⟩ := interrupt_of_stalled hok.1 (hidle hok.2) pkts
    refine ⟨outAccounted_intr h.queue pkts (.inr ⟨hok.1, hidle hok.2⟩), ?_, ?_, ?_⟩
    · intro hi
      have hi' : c.pc.outserting = true := hi
      rw [hpc] at hi'
      cases hi'
    · intro pkt' hp
      have hp' : c.pc = .outAdvance pkt' := hp
      rw [hpc] at hp'
      cases hp'
    · intro x' pkt' hp
      rw [hav, hregs]
      exact h.ready x' pkt' hp
  | _ =>
    refine .of_queue (outAccounted_intr h.queue pkts (.inl (by rw [hpc]; rfl))) ?_ ?_
    · change c.pc.outserting = false
      rw [hpc]
      rfl
    · change c.pc.loaded = false
      rw [hpc]
      rfl

theorem OutInv.step (h : OutInv c) {op : Op} (hok : outApart c op = true) (hst : Step c op u) :
    OutInv u := by
  unfold Step at hst
  cases op with
  | start pkt =>
    cases hpc : c.pc with
    | idle =>
      simp only [act, hpc, Option.some.injEq] at hst
      have hh : c.pc.held = [] := by rw [hpc]; rfl
      subst hst
      cases isMypacket c.node.canNodeid (incomingFixup c.node.jiffies pkt) with
      | true => exact .of_queue (h.queue.frame rfl rfl rfl hh.symm) rfl rfl
      | false => exact .of_queue (h.queue.frame rfl rfl rfl hh.symm) rfl rfl
    | _ => simp [act, hpc] at hst
  | step =>
    have hn : u = c.next := by
      cases hpc : c.pc <;> simp_all [act]
    rw [hn]
    exact h.next hok
  | intr st pkts =>
    rw [← Option.some.inj hst]
    exact h.intr hok
  | xmitDone =>
    rw [← Option.some.inj hst]
    exact ⟨h.queue, h.room, h.stored, fun x pkt hp => ⟨rfl, (h.ready x pkt hp).2⟩⟩
  | remove =>
    obtain ⟨x, hx, rfl⟩ := Option.map_eq_some_iff.mp hst
    exact ⟨h.queue, h.room, h.stored, h.ready⟩
  | other n =>
    rw [← Option.some.inj hst]
    exact ⟨h.queue, h.room, h.stored, h.ready⟩

theorem outInv_boot (n : Node) (regs : TxRegs) : OutInv (boot n regs) :=
  .of_queue ⟨[], rfl, rfl⟩ rfl rfl

/-- A receiver reads the packet off the wire. The time stamp is its own. -/
def Carries (frame : TxRegs) (pkt : CanPacket) : Prop :=
  ∀ old, canCopyRx frame old = { pkt with timestamp := old.timestamp }

/-- The packets that left `outq` are on the wire, one frame each, in the order
in which they were queued, but for the one that a send holds. -/
def OutSafe (c : Cpu) : Prop :=
  ∃ removed sent, c.outAccepted = removed ++ c.node.outq.toList ∧ removed = sent ++ c.pc.held ∧
    List.Forall₂ Carries c.wire sent

theorem OutInv.safe (h : OutInv c) : OutSafe c := by
  obtain ⟨sent, ha, hw⟩ := h.queue
  refine ⟨sent ++ c.pc.held, sent, by rw [ha, List.append_assoc], rfl, ?_⟩
  rw [hw, List.forall₂_map_left_iff, List.forall₂_same]
  exact fun pkt _ => canCopyRx_canCopyTx pkt

/-- Every packet is transmitted once, in order, in any run whose interrupts and
register writes keep out of each other's way. -/
theorem out_safe_of_apart {n : Node} {regs : TxRegs} {tr : List (Cpu × Op)}
    (h : Run Step (boot n regs) tr u) (hok : ∀ x ∈ tr, outApart x.1 x.2 = true) : OutSafe u := by
  have hi : OutInv u :=
    h.invariant_of (outInv_boot n regs) (fun _ _ _ hi ha hst => hi.step ha hst) hok
  exact hi.safe

theorem dats_of_carries {wire : List TxRegs} {sent : List CanPacket}
    (h : List.Forall₂ Carries wire sent) :
    wire.map (fun f => (canCopyRx f default).dat) = sent.map (fun p => p.dat) := by
  induction h with
  | nil => rfl
  | cons hc _ ih => rw [List.map_cons, List.map_cons, ih, hc default]

def otherPkt (v : CanDat) : CanPacket := { loopPkt v with can := ⟨0, 2, 1, 0, 8⟩ }

/-- The first six steps of a send queue the packet, the next four transmit it. -/
def sendSteps (v : CanDat) (k : Nat) : List Op := .start (otherPkt v) :: List.replicate k .step

/-- The chip is busy with the first packet when the second is queued, and
becomes free again. The third is queued, and the transmit interrupt comes while
its send is about to transmit the second. -/
def overwritten : List Op :=
  sendSteps 1 11 ++ sendSteps 2 7 ++ .xmitDone :: sendSteps 3 9 ++
    [.intr .clear [], .xmitDone, .step]

/-- The same, with the interrupt before the send looks at the status. -/
def handedOver : List Op :=
  sendSteps 1 11 ++ sendSteps 2 7 ++ .xmitDone :: sendSteps 3 6 ++
    [.intr .clear [], .step, .xmitDone, .intr .clear []]

theorem out_safe_interrupt_first :
    ∃ tr u, Run Step bootCpu tr u ∧ OutSafe u ∧ u.wire.length = 3 := by
  obtain ⟨tr, u, hr, -, hok, hg⟩ := exists_run_of_any (f := act) (s := bootCpu)
    outApart handedOver (fun u => u.wire.length == 3) (by decide +kernel)
  exact ⟨tr, u, hr, out_safe_of_apart hr hok, by simpa using hg⟩

/-- The third packet is on the wire twice and the second never. -/
theorem out_sends_twice :
    ¬ ∀ n regs tr u, Run Step (boot n regs) tr u → OutSafe u := by
  intro h
  obtain ⟨tr, u, hr, -, -, hg⟩ := exists_run_of_any (f := act) (s := bootCpu)
    (fun _ _ => true) overwritten
    (fun u => u.pc.held.isEmpty && u.node.outq.empty &&
      decide (u.wire.map (fun f => (canCopyRx f default).dat) = [1, 3, 3]) &&
      decide (u.outAccepted.map (fun p => p.dat) = [1, 2, 3])) (by decide +kernel)
  simp only [Bool.and_eq_true, decide_eq_true_eq, List.isEmpty_iff] at hg
  obtain ⟨⟨⟨hh, he⟩, hw⟩, ha⟩ := hg
  obtain ⟨removed, sent, hacc, hrem, hall⟩ := h _ _ tr u hr
  have hnil : u.node.outq.toList = [] := by
    rw [← List.length_eq_zero_iff, Ring.length_toList]
    exact (Ring.empty_iff _).mp he
  rw [hh, List.append_nil] at hrem
  rw [hnil, List.append_nil, hrem] at hacc
  rw [hacc] at ha
  have hdat := dats_of_carries hall
  rw [hw, ha] at hdat
  exact absurd hdat (by decide)

end Cpu

end MeikoCs2
