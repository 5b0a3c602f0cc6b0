import MeikoCs2.Queues

/-! What any event of a node does to the packets in its queues. All of it is
made of sends and of changes that concern no packet, so a relation that holds
over both holds over every event that does not take packets from a queue. For
the way out: new packets go behind those that wait in `outq`, and `try_xmit`
moves the front of `outq` to those transmitted, so as long as nothing is
transmitted a full `outq` stays full. -/

namespace MeikoCs2

structure SameTraffic (s u : Node) : Prop where
  canNodeid : u.canNodeid = s.canNodeid
  jiffies : u.jiffies = s.jiffies
  inq : u.inq = s.inq
  outq : u.outq = s.outq
  transmitted : u.transmitted = s.transmitted

/-- A relation between the node before and after that sending keeps up. -/
structure SendRule (R : Node → Node → Prop) : Prop where
  same : ∀ {s u}, SameTraffic s u → R s u
  trans : ∀ {s t u}, R s t → R t u → R s u
  send : ∀ pkt s, R s (sendPktNoOutFixup pkt s).1

namespace SendRule

variable {R : Node → Node → Prop} (h : SendRule R) (s : Node)

include h

theorem refl : R s s := h.same ⟨rfl, rfl, rfl, rfl, rfl⟩

theorem sendPkt (pkt : CanPacket) : R s (sendPkt pkt s).1 := h.send _ s

theorem canconSendNext : R s (canconSendNext s) := by
  have hp := h.sendPkt { s with canconOutbuf := (takeChars 4 s.canconOutbuf).2 }
    (consolePkt s (takeChars 4 s.canconOutbuf).1)
  have ht : R s { s with canconOutbuf := (takeChars 4 s.canconOutbuf).2 } :=
    h.same ⟨rfl, rfl, rfl, rfl, rfl⟩
  simp only [MeikoCs2.canconSendNext]
  split_ifs
  · exact h.same ⟨rfl, rfl, rfl, rfl, rfl⟩
  · exact h.refl s
  · exact h.refl s
  · exact h.trans (h.trans ht hp) (h.same ⟨rfl, rfl, rfl, rfl, rfl⟩)
  · exact h.trans ht hp

theorem canconPrintkWrite (str : List Byte) : R s (canconPrintkWrite str s) := by
  unfold MeikoCs2.canconPrintkWrite
  split_ifs
  · exact h.refl s
  · have hq : R s { s with canconOutbuf := putPrintk str s.canconOutbuf } :=
      h.same ⟨rfl, rfl, rfl, rfl, rfl⟩
    exact h.trans hq (h.canconSendNext _)

theorem printk (m : String) : R s (printk m s) := h.canconPrintkWrite s (messageBytes m)

theorem canobjAcknak (t : CanType) (p : CanPacket) (d : Option CanDat) :
    R s (canobjAcknak t p d s) := h.sendPkt s _

theorem canconRecvAck (timeout : Bool) : R s (canconRecvAck timeout s) := by
  have hclear : R s { s with ackTimer := false, canconAckPending := false } :=
    h.same ⟨rfl, rfl, rfl, rfl, rfl⟩
  rw [canconRecvAck_eq]
  cases ackMessage timeout s.canconAckPending with
  | none => exact h.trans hclear (h.canconSendNext _)
  | some m => exact h.trans (h.trans hclear (h.printk _ m)) (h.canconSendNext _)

theorem canobjConsobj (p : CanPacket) : R s (canobjConsobj p s).1 := by
  unfold MeikoCs2.canobjConsobj
  split
  · exact h.canconRecvAck s false
  · exact h.printk s _
  · exact h.refl s

theorem canttyRecvDat (cs : List Byte) : R s (canttyRecvDat cs s) := by
  unfold MeikoCs2.canttyRecvDat canttyRecvPush
  split
  · exact h.same ⟨rfl, rfl, rfl, rfl, rfl⟩
  · split_ifs
    · exact h.same ⟨rfl, rfl, rfl, rfl, rfl⟩
    · exact h.same ⟨rfl, rfl, rfl, rfl, rfl⟩

theorem switched {s u : Node} {p : CanPacket} {l : List ConEvent} (hs : Switched p s l u) :
    R s u := by
  cases hs with
  | ignored => exact h.refl s
  | @answered t d m _ _ _ =>
    have hm : R s { s with prom := m } := h.same ⟨rfl, rfl, rfl, rfl, rfl⟩
    exact h.trans hm (h.canobjAcknak _ t p d)
  | wrote _ =>
    exact h.trans (h.canobjAcknak s .ack p (some s.objVal)) (h.same ⟨rfl, rfl, rfl, rfl, rfl⟩)
  | connected _ _ =>
    have hc : R s (canobjCanconHostSet (canconSetcon (some p) s)) :=
      h.same ⟨rfl, rfl, rfl, rfl, rfl⟩
    exact h.trans hc (h.canobjAcknak _ _ p _)
  | disconnected _ _ =>
    have hc : R s (canobjCanconHostSet (canconSetcon none s)) := h.same ⟨rfl, rfl, rfl, rfl, rfl⟩
    exact h.trans (h.trans hc (h.canobjAcknak _ _ p _)) (h.same ⟨rfl, rfl, rfl, rfl, rfl⟩)
  | broke _ _ =>
    have hp := h.trans (h.canobjAcknak s .ack p none)
      (h.printk _ "can: received BREAK, restarting machine\n")
    exact h.trans hp (h.same ⟨rfl, rfl, rfl, rfl, rfl⟩)
  | received _ _ _ =>
    exact h.trans (h.canobjAcknak s .ack p none) (h.canttyRecvDat _ _)

theorem canobjPacket (p : CanPacket) : R s (canobjPacket p s).1 := by
  have hs := h.switched (canobjSwitch_switched p s)
  rw [canobjPacket_eq]
  split_ifs
  · exact h.trans hs (h.canobjConsobj _ p)
  · exact hs

theorem deliverPkt (p : CanPacket) : R s (deliverPkt p s).1 := by
  have hk : R s (if isMypacket s.canNodeid p then (MeikoCs2.canobjPacket p s).1 else s) := by
    split_ifs
    · exact h.canobjPacket s p
    · exact h.refl s
  simp only [MeikoCs2.deliverPkt]
  split_ifs at hk ⊢
  · exact hk
  · exact h.trans hk (h.same ⟨rfl, rfl, rfl, rfl, rfl⟩)
  · exact hk
  · exact h.trans hk (h.same ⟨rfl, rfl, rfl, rfl, rfl⟩)

theorem canttyWrite (stopped : Bool) (buf : Option (List (Option Byte))) :
    R s (canttyWrite stopped buf s).1 := by
  cases buf with
  | none =>
    simp only [MeikoCs2.canttyWrite]
    split_ifs <;> exact h.refl s
  | some cs =>
    have hout : R s { s with canconOutbuf := (writeChars cs 0 s.canconOutbuf).1 } :=
      h.same ⟨rfl, rfl, rfl, rfl, rfl⟩
    simp only [MeikoCs2.canttyWrite]
    split_ifs
    · exact h.refl s
    · exact h.refl s
    · exact h.trans hout (h.canconSendNext _)
    · exact hout

theorem canDumpInfo : R s (canDumpInfo s) := by
  have hinfo : ∀ s, R s (canconDumpInfo s) := by
    intro s
    unfold canconDumpInfo
    split_ifs
    · exact h.printk s _
    · exact h.printk s _
  have hdebug : ∀ s, R s (canconDumpDebug s) := by
    intro s
    exact h.trans (h.trans (h.printk s _) (h.printk _ _)) (h.printk _ _)
  unfold MeikoCs2.canDumpInfo
  split_ifs
  · refine h.trans ?_ (hdebug _)
    refine h.trans (h.trans (h.trans ?_ (h.printk _ _)) (h.printk _ _)) (h.printk _ _)
    exact h.trans (hinfo s) (h.printk _ _)
  · exact h.refl s

theorem canIoctl (fd : Fin canMaxUsecount) (cmd : IoctlCmd) (fault : Bool) :
    R s (canIoctl fd cmd fault s).1 := by
  cases cmd with
  | setHeartbeat val =>
    simp only [MeikoCs2.canIoctl]
    split_ifs
    · exact h.refl s
    · exact h.same ⟨rfl, rfl, rfl, rfl, rfl⟩
  | getConsobj =>
    simp only [MeikoCs2.canIoctl]
    split
    · exact h.refl s
    · exact h.same ⟨rfl, rfl, rfl, rfl, rfl⟩
  | setDebug =>
    have hd : R s { s with canDebug := true } := h.same ⟨rfl, rfl, rfl, rfl, rfl⟩
    have hi := h.trans hd (h.canDumpInfo { s with canDebug := true })
    simp only [MeikoCs2.canIoctl]
    exact hi
  | clrDebug =>
    have hd : R s { s with canDebug := false } := h.same ⟨rfl, rfl, rfl, rfl, rfl⟩
    have hp := h.trans hd (h.printk { s with canDebug := false } "can: debugging OFF\n")
    simp only [MeikoCs2.canIoctl]
    exact hp
  | _ => exact h.same ⟨rfl, rfl, rfl, rfl, rfl⟩

end SendRule

structure Pushes (s u : Node) : Prop where
  canNodeid : u.canNodeid = s.canNodeid
  outq : ∃ l, u.transmitted ++ u.outq.toList = s.transmitted ++ s.outq.toList ++ l
  transmitted : s.transmitted <+: u.transmitted

theorem Pushes.of_same {s u : Node} (hid : u.canNodeid = s.canNodeid) (ho : u.outq = s.outq)
    (ht : u.transmitted = s.transmitted) : Pushes s u where
  canNodeid := hid
  outq := ⟨[], by rw [ho, ht, List.append_nil]⟩
  transmitted := ht ▸ List.prefix_rfl

theorem Pushes.trans {s t u : Node} (h : Pushes s t) (h' : Pushes t u) : Pushes s u where
  canNodeid := h'.canNodeid.trans h.canNodeid
  outq := by
    obtain ⟨l, hl⟩ := h.outq
    obtain ⟨l', hl'⟩ := h'.outq
    exact ⟨l ++ l', by rw [hl', hl, List.append_assoc]⟩
  transmitted := h.transmitted.trans h'.transmitted

theorem Sends.pushes {s u : Node} {l : List Handed} (h : Sends s l u)
    (hid : u.canNodeid = s.canNodeid) : Pushes s u := ⟨hid, ⟨_, h.outq⟩, h.transmitted⟩

theorem pushes_sendRule : SendRule Pushes where
  same h := .of_same h.canNodeid h.outq h.transmitted
  trans := Pushes.trans
  send pkt s := by
    obtain ⟨h, hs⟩ := sendPktNoOutFixup_sends pkt s
    exact hs.pushes (sendPktNoOutFixup_emits pkt s).canNodeid

/-- A full `outq` from which nothing went to the chip. -/
theorem Pushes.full {s u : Node} (h : Pushes s u) (hf : s.outq.full = true)
    (ht : u.transmitted.length ≤ s.transmitted.length) : u.outq.full = true := by
  have he : u.transmitted = s.transmitted := (h.transmitted.eq_of_length_le ht).symm
  obtain ⟨l, hl⟩ := h.outq
  rw [he, List.append_assoc, List.append_cancel_left_eq] at hl
  have hlen := congrArg List.length hl
  have hlt : u.outq.size < maxring := u.outq.size_lt
  rw [Ring.full_iff _ (by decide)] at hf ⊢
  rw [List.length_append, Ring.length_toList, Ring.length_toList] at hlen
  omega

theorem tryXmit_pushes (s : Node) : Pushes s (tryXmit s) :=
  (tryXmit_sends s).pushes (tryXmit_prints s).canNodeid

theorem tryRecv_pushes (s : Node) (pkts : List CanPacket) : Pushes s (tryRecv pkts s) := by
  obtain ⟨q, b, h⟩ := exists_tryRecv_eq pkts s
  rw [h]
  exact .of_same rfl rfl rfl

theorem Node.act_pushes {s u : Node} {op : NodeOp} (h : s.act op = some u) : Pushes s u := by
  cases op with
  | bh =>
    obtain ⟨pkt, q, -, rfl⟩ := bhRound_eq_some h
    have hq : Pushes s { s with inq := q } := .of_same rfl rfl rfl
    exact hq.trans (pushes_sendRule.deliverPkt _ pkt)
  | ackTimeout =>
    obtain ⟨-, rfl⟩ := Node.act_ackTimeout h
    have ht : Pushes s { s with ackTimer := false } := .of_same rfl rfl rfl
    exact ht.trans (pushes_sendRule.canconRecvAck _ true)
  | ttyWrite stopped buf =>
    rw [← Option.some.inj h]
    exact pushes_sendRule.canttyWrite s stopped buf
  | ttyPutChar ch =>
    rw [← Option.some.inj h]
    have hc : Pushes s { s with canconOutbuf := (charToRing ch s.canconOutbuf).1 } :=
      .of_same rfl rfl rfl
    exact hc.trans (pushes_sendRule.canconSendNext _)
  | printk str =>
    rw [← Option.some.inj h]
    exact pushes_sendRule.canconPrintkWrite s str
  | sendPkt pkt =>
    rw [← Option.some.inj h]
    exact pushes_sendRule.sendPkt s pkt
  | sendPktNoOutFixup pkt =>
    rw [← Option.some.inj h]
    exact pushes_sendRule.send pkt s
  | tryRecv pkts =>
    rw [← Option.some.inj h]
    exact tryRecv_pushes s pkts
  | tryXmit =>
    rw [← Option.some.inj h]
    exact tryXmit_pushes s
  | _ =>
    rw [← Option.some.inj h]
    exact .of_same rfl rfl rfl

end MeikoCs2
