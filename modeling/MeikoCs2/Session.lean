import MeikoCs2.ConsoleLog
import MeikoCs2.Ownership

/-! The console as an automaton over the entries of its log, and the theorem
that every event of a node follows it. Queues, files and the PROM have gone:
what is left is who is connected, the characters on their way out and in, and
whether an ACK is awaited. -/

namespace MeikoCs2

structure Session where
  rmt : CanHeaderExt
  out : List Byte
  inb : List Byte
  pending : Bool
  timer : Bool

def Node.session (s : Node) : Session where
  rmt := s.canconRmt
  out := s.canconOutbuf.toList
  inb := s.canconInbuf.toList
  pending := s.canconAckPending
  timer := s.ackTimer

/-- `pkt` carries `cs`, the next characters, to the connected console. -/
structure Session.Batch (x : Session) (pkt : CanPacket) (cs : List Byte) : Prop where
  connected : canconUnconnected x.rmt = false
  idle : x.pending = false
  chars : cs = x.out.take 4
  ne_nil : cs ≠ []
  ext : pkt.ext = { x.rmt with type := .dat }
  length : pkt.can.length.toNat = 4 + cs.length
  bytes : (List.range cs.length).map (datB pkt.dat) = cs

/-- The ACK that `canobj_packet` hands to `cancon_recv_ack`. -/
def Session.Hears (x : Session) (pkt : CanPacket) : Prop :=
  pkt.ext.type = .ack ∧ canconUnconnected x.rmt = false ∧ pkt.ext.object = x.rmt.object

instance (x : Session) (pkt : CanPacket) : Decidable (x.Hears pkt) :=
  inferInstanceAs (Decidable (_ ∧ _ ∧ _))

inductive Session.Step : Session → ConEvent → Session → Prop where
  | queued {x : Session} {c : Byte} (h : x.out.length + 1 < maxring) :
      Step x (.queued c) { x with out := x.out ++ [c] }
  | refused {x : Session} {c : Byte} (h : x.out.length + 1 = maxring) : Step x (.refused c) x
  | cleared {x : Session} : Step x (.cleared x.out) { x with out := [] }
  | sent {x : Session} {pkt : CanPacket} {cs : List Byte} (h : x.Batch pkt cs) :
      Step x (.sent pkt cs x.timer) { x with out := x.out.drop 4, pending := true, timer := true }
  | dropped {x : Session} {pkt : CanPacket} {cs : List Byte} (h : x.Batch pkt cs) :
      Step x (.dropped pkt cs) { x with out := x.out.drop 4 }
  | expired {x : Session} (h : x.timer = true) :
      Step x .expired { x with pending := false, timer := false }
  | heard {x : Session} {pkt : CanPacket} (h : x.Hears pkt) :
      Step x (.dispatched pkt) { x with pending := false, timer := false }
  | passed {x : Session} {pkt : CanPacket} (h : ¬ x.Hears pkt) : Step x (.dispatched pkt) x
  | received {x : Session} {c : Byte} (h : x.inb.length + 1 < maxring) :
      Step x (.received c) { x with inb := x.inb ++ [c] }
  | overrun {x : Session} {c : Byte} (h : x.inb.length + 1 = maxring) : Step x (.overrun c) x
  | pushed {x : Session} (k : Nat) (h : canconUnconnected x.rmt = false) :
      Step x (.pushed (x.inb.take k)) { x with inb := x.inb.drop k }
  | discarded {x : Session} : Step x (.discarded x.inb) { x with inb := [] }
  | connected {x : Session} {rmt : CanHeaderExt} (h : canconUnconnected x.rmt = true)
      (hout : x.out = []) (hin : x.inb = []) : Step x (.connected rmt) { x with rmt := rmt }
  | disconnected {x : Session} (h : canconUnconnected x.rmt = false) :
      Step x .disconnected { x with rmt := dropConsole x.rmt }

/-- Without a console both buffers are empty. -/
def Quiet (s : Node) : Prop :=
  canconUnconnected s.canconRmt = true → s.canconOutbuf.toList = [] ∧ s.canconInbuf.toList = []

def Logs (s : Node) (l : List ConEvent) (u : Node) : Prop := Path Session.Step s.session l u.session

theorem Logs.refl (s : Node) : Logs s [] s := .nil _

theorem Logs.of_session_eq {s u : Node} (h : u.session = s.session) : Logs s [] u := by
  rw [Logs, h]
  exact .nil _

theorem Logs.trans {s t u : Node} {l l' : List ConEvent} (h : Logs s l t) (h' : Logs t l' u) :
    Logs s (l ++ l') u := h.append h'

theorem tryXmit_session (s : Node) : (tryXmit s).session = s.session := by
  obtain ⟨q, x, l, h⟩ := exists_tryXmit_eq s
  rw [h]
  rfl

theorem enqueue_session (pkt : CanPacket) (s : Node) : (enqueue pkt s).1.session = s.session := by
  unfold enqueue
  split_ifs <;> rfl

theorem queueBh_session (s : Node) : (queueBh s).session = s.session := rfl

theorem record_session (h : Handed) (s : Node) : (record h s).session = s.session := rfl

theorem halt_session (s : Node) : { s with halted := true }.session = s.session := rfl

theorem sendPktNoOutFixup_session (pkt : CanPacket) (s : Node) :
    (sendPktNoOutFixup pkt s).1.session = s.session := by
  have he := enqueue_session (incomingFixup s.jiffies pkt) s
  simp only [sendPktNoOutFixup]
  split_ifs
  · rw [record_session, tryXmit_session, queueBh_session, he]
  · rw [record_session, tryXmit_session, he]
  · rw [record_session, queueBh_session, he]
  · rw [record_session, he]

theorem sendPkt_session (pkt : CanPacket) (s : Node) : (sendPkt pkt s).1.session = s.session :=
  sendPktNoOutFixup_session _ s

theorem canobjAcknak_session (t : CanType) (p : CanPacket) (d : Option CanDat) (s : Node) :
    (canobjAcknak t p d s).session = s.session := sendPkt_session _ s

theorem tryRecv_session (pkts : List CanPacket) (s : Node) :
    (tryRecv pkts s).session = s.session := by
  obtain ⟨q, b, h⟩ := exists_tryRecv_eq pkts s
  rw [h]
  rfl

theorem length_lt_of_not_full {r : CharRing} (h : r.full = false) :
    r.toList.length + 1 < maxring := by
  have hlt := r.size_lt
  have hne : r.size + 1 ≠ maxring := by
    rw [Ne, ← Ring.full_iff r (by decide), h]
    simp
  rw [Ring.length_toList]
  omega

theorem length_eq_of_full {r : CharRing} (h : r.full = true) : r.toList.length + 1 = maxring := by
  rw [Ring.length_toList]
  exact (Ring.full_iff r (by decide)).mp h

theorem charToRing_step (c : Byte) (s : Node) :
    Session.Step s.session (if s.canconOutbuf.full then .refused c else .queued c)
      { s with canconOutbuf := (charToRing c s.canconOutbuf).1 }.session := by
  cases hf : s.canconOutbuf.full with
  | true =>
    rw [charToRing, Ring.put_of_full hf]
    exact .refused (length_eq_of_full hf)
  | false =>
    simp only [Node.session, charToRing, Ring.toList_put (by decide : 1 < maxring) hf]
    exact .queued (x := s.session) (length_lt_of_not_full hf)

theorem charToRing_inbuf_step (c : Byte) (s : Node) :
    Session.Step s.session (if s.canconInbuf.full then .overrun c else .received c)
      { s with canconInbuf := (charToRing c s.canconInbuf).1 }.session := by
  cases hf : s.canconInbuf.full with
  | true =>
    rw [charToRing, Ring.put_of_full hf]
    exact .overrun (length_eq_of_full hf)
  | false =>
    simp only [Node.session, charToRing, Ring.toList_put (by decide : 1 < maxring) hf]
    exact .received (x := s.session) (length_lt_of_not_full hf)

theorem queueLog_logs (cs : List Byte) (s : Node) :
    Logs s (queueLog cs s.canconOutbuf) { s with canconOutbuf := putChars cs s.canconOutbuf } := by
  induction cs generalizing s with
  | nil => exact .refl s
  | cons c cs ih => exact .cons (charToRing_step c s) (ih _)

theorem recvLog_logs (cs : List Byte) (s : Node) :
    Logs s (recvLog cs s.canconInbuf) { s with canconInbuf := putChars cs s.canconInbuf } := by
  induction cs generalizing s with
  | nil => exact .refl s
  | cons c cs ih => exact .cons (charToRing_inbuf_step c s) (ih _)

theorem putPrintk_eq (str : List Byte) (r : CharRing) :
    putPrintk str r = putChars (expandNl str) r := by
  induction str generalizing r with
  | nil => rfl
  | cons c cs ih =>
    simp only [putPrintk, expandNl, ih]
    split_ifs <;> rfl

theorem consolePkt_batch {s : Node} (hc : canconUnconnected s.canconRmt = false)
    (hp : s.canconAckPending = false) (hne : (takeChars 4 s.canconOutbuf).1 ≠ []) :
    s.session.Batch (consolePkt s (takeChars 4 s.canconOutbuf).1)
      (takeChars 4 s.canconOutbuf).1 := by
  have hl : (takeChars 4 s.canconOutbuf).1.length ≤ 4 := by
    rw [takeChars_fst, List.length_take]
    omega
  refine ⟨hc, hp, takeChars_fst 4 _, hne, rfl, ?_, copyBytes_bytes _ hl⟩
  simp only [consolePkt, BitVec.toNat_ofNat]
  omega

theorem canconSendNext_logs (s : Node) : Logs s (sendNextLog s) (canconSendNext s) := by
  unfold sendNextLog canconSendNext
  split_ifs with hc hp
  · have h : Session.Step s.session (.cleared s.canconOutbuf.toList) { s.session with out := [] } :=
      .cleared
    simpa [Logs, Node.session, clearRing] using Path.single h
  · exact .refl s
  · simp only
    split_ifs with he hs
    · exact .refl s
    · have hb := consolePkt_batch (by simpa using hc) (by simpa using hp)
        (by simpa [List.isEmpty_iff] using he)
      have hq := sendPkt_session (consolePkt s (takeChars 4 s.canconOutbuf).1)
        { s with canconOutbuf := (takeChars 4 s.canconOutbuf).2 }
      simp only [Node.session, Session.mk.injEq, takeChars_snd] at hq
      have h := Path.single (Session.Step.sent hb)
      simpa [Logs, Node.session, hq] using h
    · have hb := consolePkt_batch (by simpa using hc) (by simpa using hp)
        (by simpa [List.isEmpty_iff] using he)
      have hq := sendPkt_session (consolePkt s (takeChars 4 s.canconOutbuf).1)
        { s with canconOutbuf := (takeChars 4 s.canconOutbuf).2 }
      have h := Path.single (Session.Step.dropped hb)
      rw [Logs, hq]
      simpa [Node.session, takeChars_snd] using h

theorem canconPrintkWrite_logs (str : List Byte) (s : Node) :
    Logs s (printkLog str s) (canconPrintkWrite str s) := by
  unfold printkLog canconPrintkWrite
  split_ifs
  · exact .refl s
  · have h := queueLog_logs (expandNl str) s
    rw [← putPrintk_eq] at h
    exact h.trans (canconSendNext_logs _)

theorem printk_logs (m : String) (s : Node) :
    Logs s (printkLog (messageBytes m) s) (printk m s) := canconPrintkWrite_logs (messageBytes m) s

theorem canconRecvAck_eq (timeout : Bool) (s : Node) :
    canconRecvAck timeout s = canconSendNext
      ((ackMessage timeout s.canconAckPending).elim
        { s with ackTimer := false, canconAckPending := false }
        fun m => printk m { s with ackTimer := false, canconAckPending := false }) := by
  cases hp : s.canconAckPending <;> cases timeout <;> simp [canconRecvAck, ackMessage, hp]

theorem canconRecvAck_logs (timeout : Bool) (s : Node) :
    Logs { s with ackTimer := false, canconAckPending := false } (recvAckLog timeout s)
      (canconRecvAck timeout s) := by
  rw [canconRecvAck_eq]
  unfold recvAckLog
  cases ackMessage timeout s.canconAckPending with
  | none => exact canconSendNext_logs _
  | some m => exact (canconPrintkWrite_logs _ _).trans (canconSendNext_logs _)

theorem canttyRecvPush_logs {s : Node} (hc : canconUnconnected s.canconRmt = false) :
    Logs s (recvPushLog s) (canttyRecvPush s) := by
  unfold recvPushLog canttyRecvPush
  cases s.ttyp with
  | none => exact .refl s
  | some tty =>
    simp only
    split_ifs
    · exact .refl s
    · have h := Path.single
        (Session.Step.pushed (x := s.session) (ttyFlipbufSize - tty.flip.length) hc)
      simpa [Logs, Node.session, takeChars_fst, takeChars_snd] using h

theorem canttyRecvDat_logs (cs : List Byte) {s : Node}
    (hc : canconUnconnected s.canconRmt = false) : Logs s (recvDatLog cs s) (canttyRecvDat cs s) :=
  (recvLog_logs cs s).trans (canttyRecvPush_logs hc)

/-- Everything the switch of `canobj_packet` can do, with its log entries. -/
inductive Switched (p : CanPacket) (s : Node) : List ConEvent → Node → Prop where
  | ignored : Switched p s [] s
  | answered {t : CanType} {d : Option CanDat} {m : Prom} (hp : p.ext.type.ackable = true)
      (ht : t.isAcknak = true) (hm : SameHost s.prom m) :
      Switched p s [] (canobjAcknak t p d { s with prom := m })
  | wrote (hp : p.ext.type.ackable = true) :
      Switched p s [] { canobjAcknak .ack p (some s.objVal) s with objVal := p.dat }
  | connected (h : IsConnect p) (hc : canconUnconnected s.canconRmt = true) :
      Switched p s [.connected (datExt p.dat)]
        (canobjAcknak .ack p (some (datExt p.dat).extDat)
          (canobjCanconHostSet (canconSetcon (some p) s)))
  | disconnected (h : IsDisconn p) (hc : canconUnconnected s.canconRmt = false) :
      Switched p s [.disconnected, .cleared s.canconOutbuf.toList, .discarded s.canconInbuf.toList]
        (canttyHangup (canobjAcknak .ack p none (canobjCanconHostSet (canconSetcon none s))))
  | broke (hp : p.ext.type.ackable = true) (ho : p.ext.object = Canobj.brk) :
      Switched p s
        (printkLog (messageBytes "can: received BREAK, restarting machine\n")
          (canobjAcknak .ack p none s))
        { printk "can: received BREAK, restarting machine\n" (canobjAcknak .ack p none s) with
          halted := true }
  | received (ho : p.ext.object = 0) (ht : p.ext.type = .dat)
      (hc : canconUnconnected s.canconRmt = false) :
      Switched p s (recvDatLog (recvChars p s) (canobjAcknak .ack p none s))
        (canttyRecvDat (recvChars p s) (canobjAcknak .ack p none s))

section Switched

variable (p : CanPacket) (s : Node)

theorem canobjConnect_switched (ho : p.ext.object = Canobj.consoleConnect) :
    Switched p s (switchLog p s) (canobjConnect p s).1 := by
  simp only [canobjConnect, switchLog, ho, if_true]
  cases ht : p.ext.type with
  | ro => exact .answered (by rw [ht]; rfl) rfl (.refl _)
  | wo =>
    cases hc : canconUnconnected s.canconRmt with
    | true => exact .connected ⟨ho, ht⟩ hc
    | false => exact .answered (by rw [ht]; rfl) rfl (.refl _)
  | _ => exact .ignored

theorem canobjDisconnect_switched (ho : p.ext.object = Canobj.consoleDisconn) :
    Switched p s (switchLog p s) (canobjDisconnect p s).1 := by
  have hn : Canobj.consoleDisconn ≠ Canobj.consoleConnect := by decide
  simp only [canobjDisconnect, switchLog, ho, hn, if_true, if_false]
  cases ht : p.ext.type with
  | wo =>
    cases hc : canconUnconnected s.canconRmt with
    | true => exact .answered (by rw [ht]; rfl) rfl (.refl _)
    | false => exact .disconnected ⟨ho, ht⟩ hc
  | _ => exact .ignored

theorem canobjBreak_switched (ho : p.ext.object = Canobj.brk) :
    Switched p s (switchLog p s) (canobjBreak p s).1 := by
  have hc : Canobj.brk ≠ Canobj.consoleConnect := by decide
  have hd : Canobj.brk ≠ Canobj.consoleDisconn := by decide
  simp only [canobjBreak, switchLog, ho, hc, hd, if_true, if_false]
  cases ht : p.ext.type with
  | wo => exact .broke (by rw [ht]; rfl) ho
  | _ => exact .ignored

theorem canobjDat_switched (ho : p.ext.object = 0) :
    Switched p s (switchLog p s) (canobjDat p s).1 := by
  have hc : (0 : BitVec 10) ≠ Canobj.consoleConnect := by decide
  have hd : (0 : BitVec 10) ≠ Canobj.consoleDisconn := by decide
  have hb : (0 : BitVec 10) ≠ Canobj.brk := by decide
  simp only [canobjDat, switchLog, ho, hc, hd, hb, if_true, if_false]
  cases hu : canconUnconnected s.canconRmt with
  | true =>
    simp only [if_true, Bool.not_true, Bool.and_false, Bool.false_eq_true, if_false]
    exact .ignored
  | false =>
    cases ht : p.ext.type with
    | dat => exact .received ho ht hu
    | _ => exact .ignored

theorem canobjForceDisconn_switched : Switched p s [] (canobjForceDisconn p s).1 := by
  unfold canobjForceDisconn
  split
  · rename_i ht
    simp only
    split_ifs
    · exact .ignored
    · exact .ignored
    · exact .answered (by rw [ht]; rfl) rfl (.refl _)
  · exact .ignored

theorem canobjTestrw_switched : Switched p s [] (canobjTestrw p s).1 := by
  unfold canobjTestrw
  split
  · rename_i ht
    exact .wrote (by rw [ht]; rfl)
  · rename_i ht
    exact .answered (by rw [ht]; rfl) rfl (.refl _)
  · exact .ignored

theorem canobjReadProp_switched (path : ObpPath) (table : List (List Char)) :
    Switched p s [] (canobjReadProp path table p s).1 := by
  unfold canobjReadProp
  split
  · rename_i ht
    split
    · exact .answered (by rw [ht]; rfl) rfl (.refl _)
    · exact .answered (by rw [ht]; rfl) rfl (.refl _)
  · exact .ignored

theorem canobjResetIo_switched : Switched p s [] (canobjResetIo p s).1 := by
  unfold canobjResetIo
  split
  · rename_i ht
    split
    · exact .answered (by rw [ht]; rfl) rfl (.refl _)
    · exact .answered (by rw [ht]; rfl) rfl (.refl _)
  · rename_i ht
    split
    · exact .answered (by rw [ht]; rfl) rfl (.refl _)
    · exact .answered (by rw [ht]; rfl) (resetIoWrite_isAcknak _ _ _)
        (resetIoWrite_sameHost _ _ _)
  · exact .ignored

theorem canobjHeartbeat_switched : Switched p s [] (canobjHeartbeat p s).1 := by
  unfold canobjHeartbeat
  split
  · rename_i ht
    exact .answered (by rw [ht]; rfl) rfl (.refl _)
  · exact .ignored

theorem switchLog_eq_nil {p : CanPacket} (hc : p.ext.object ≠ Canobj.consoleConnect)
    (hd : p.ext.object ≠ Canobj.consoleDisconn) (hb : p.ext.object ≠ Canobj.brk)
    (h0 : p.ext.object ≠ 0) (s : Node) : switchLog p s = [] := by
  simp only [switchLog, hc, hd, hb, h0, if_false]

theorem switchLog_eq_nil_of_eq {p : CanPacket} {object : BitVec 10} (h : p.ext.object = object)
    (ho : object ≠ Canobj.consoleConnect ∧ object ≠ Canobj.consoleDisconn ∧
      object ≠ Canobj.brk ∧ object ≠ 0) (s : Node) : switchLog p s = [] := by
  subst h
  exact switchLog_eq_nil ho.1 ho.2.1 ho.2.2.1 ho.2.2.2 s

theorem canobjSwitch_switched : Switched p s (switchLog p s) (canobjSwitch p s).1 := by
  refine canobjSwitch_cases p s (P := fun r => Switched p s (switchLog p s) r.1)
    ?_ ?_ ?_ ?_ ?_ ?_ ?_ ?_ ?_ ?_ ?_
  · exact canobjConnect_switched p s
  · exact canobjDisconnect_switched p s
  · exact canobjBreak_switched p s
  · intro hf
    rw [switchLog_eq_nil_of_eq hf (by decide)]
    exact canobjForceDisconn_switched p s
  · intro ht
    rw [switchLog_eq_nil_of_eq ht (by decide)]
    exact canobjTestrw_switched p s
  · intro hh
    rw [switchLog_eq_nil_of_eq hh (by decide)]
    exact canobjHeartbeat_switched p s
  · intro ha
    rw [switchLog_eq_nil_of_eq ha (by decide)]
    exact canobjReadProp_switched p s _ _
  · intro hr
    rw [switchLog_eq_nil_of_eq hr (by decide)]
    exact canobjResetIo_switched p s
  · intro hv
    rw [switchLog_eq_nil_of_eq hv (by decide)]
    exact canobjReadProp_switched p s _ _
  · exact canobjDat_switched p s
  · intro hc hd hb h0
    rw [switchLog_eq_nil hc hd hb h0]
    exact .ignored

end Switched

theorem canttyHangup_session (s : Node) :
    (canttyHangup s).session = { s.session with out := [], inb := [] } := by
  simp [canttyHangup, Node.session, clearRing]

theorem Switched.logs {p : CanPacket} {s u : Node} {l : List ConEvent} (h : Switched p s l u)
    (hq : Quiet s) : Logs s l u := by
  cases h with
  | ignored => exact .refl s
  | answered _ _ => exact .of_session_eq (canobjAcknak_session _ _ _ _)
  | wrote _ => exact .of_session_eq (canobjAcknak_session .ack p (some s.objVal) s)
  | connected _ hc =>
    obtain ⟨hout, hin⟩ := hq hc
    rw [Logs, canobjAcknak_session]
    exact .single (.connected (x := s.session) hc hout hin)
  | disconnected _ hc =>
    have h₁ : Session.Step s.session .disconnected { s.session with rmt := dropConsole s.canconRmt } :=
      .disconnected hc
    rw [Logs, canttyHangup_session, canobjAcknak_session]
    exact .cons h₁ (.cons .cleared (.single .discarded))
  | broke _ _ =>
    have h := printk_logs "can: received BREAK, restarting machine\n" (canobjAcknak .ack p none s)
    rw [Logs, canobjAcknak_session] at h
    rw [Logs, halt_session]
    exact h
  | received _ _ hc =>
    have h := canttyRecvDat_logs (recvChars p s) (s := canobjAcknak .ack p none s) (by simpa using hc)
    rw [Logs, canobjAcknak_session] at h
    exact h

theorem switchLog_of_ack {p : CanPacket} (h : p.ext.type = .ack) (s : Node) :
    switchLog p s = [] := by
  simp [switchLog, h]

theorem canobjPacket_eq (p : CanPacket) (s : Node) :
    (canobjPacket p s).1 =
      if forConsole p (canobjSwitch p s).1 then (canobjConsobj p (canobjSwitch p s).1).1
      else (canobjSwitch p s).1 := by
  simp only [canobjPacket, forConsole, Bool.and_eq_true, decide_eq_true_eq]
  split_ifs <;> simp_all

theorem canobjPacket_of_not_acknak {p : CanPacket} (h : p.ext.type.isAcknak = false) (s : Node) :
    (canobjPacket p s).1 = (canobjSwitch p s).1 := by
  have hc : (canobjConsobj p (canobjSwitch p s).1).1 = (canobjSwitch p s).1 := by
    cases ht : p.ext.type with
    | ack | nak =>
      rw [ht] at h
      cases h
    | _ => simp only [canobjConsobj, ht]
  rw [canobjPacket_eq, hc, ite_self]

theorem packetLog_of_ack {p : CanPacket} (h : p.ext.type = .ack) (s : Node) :
    packetLog p s = .dispatched p :: if forConsole p s then recvAckLog false s else [] := by
  have hsw := canobjSwitch_of_acknak (p := p) (by rw [h]; rfl) s
  simp only [packetLog, switchLog_of_ack h, hsw, consobjLog, h, List.cons_append, List.nil_append]

theorem canobjConsobj_logs {p : CanPacket} (h : p.ext.type ≠ .ack) (s : Node) :
    Logs s (consobjLog p s) (canobjConsobj p s).1 := by
  simp only [consobjLog, canobjConsobj]
  cases ht : p.ext.type with
  | ack => exact absurd ht h
  | nak => exact canconPrintkWrite_logs _ s
  | _ => exact .refl s

theorem canobjPacket_logs (p : CanPacket) {s : Node} (hq : Quiet s) :
    Logs s (packetLog p s) (canobjPacket p s).1 := by
  rw [canobjPacket_eq]
  by_cases ht : p.ext.type = .ack
  · rw [packetLog_of_ack ht, canobjSwitch_of_acknak (by rw [ht]; rfl)]
    cases hf : forConsole p s with
    | true =>
      have hh : s.session.Hears p := ⟨ht, by simpa [forConsole, Node.session] using hf⟩
      simp only [if_true, canobjConsobj, ht]
      exact .cons (.heard hh) (canconRecvAck_logs false s)
    | false =>
      have hh : ¬ s.session.Hears p := fun hh => by
        have := hh.2
        simp_all [forConsole, Node.session]
      exact .single (.passed hh)
  · have hd : Logs s [.dispatched p] s := .single (.passed fun hh => ht hh.1)
    have hs := (canobjSwitch_switched p s).logs hq
    refine (hd.trans hs).trans ?_
    split_ifs
    · exact canobjConsobj_logs ht _
    · exact .refl _

theorem Quiet.of_connected {s : Node} (h : canconUnconnected s.canconRmt = false) : Quiet s :=
  fun hc => by rw [h] at hc; cases hc

theorem Quiet.of_session_eq {s u : Node} (h : u.session = s.session) (hq : Quiet s) : Quiet u := by
  simp only [Node.session, Session.mk.injEq] at h
  rw [Quiet, h.1, h.2.1, h.2.2.1]
  exact hq

theorem canconSendNext_quiet {s : Node}
    (h : canconUnconnected s.canconRmt = true → s.canconInbuf.toList = []) :
    Quiet (canconSendNext s) := by
  cases hc : canconUnconnected s.canconRmt with
  | true =>
    intro _
    simp only [canconSendNext, hc, if_true, clearRing]
    exact ⟨Ring.toList_clear _, h hc⟩
  | false => exact .of_connected (by rw [(canconSendNext_prints s).canconRmt, hc])

theorem canconPrintkWrite_quiet {s : Node} (str : List Byte) (hq : Quiet s) :
    Quiet (canconPrintkWrite str s) := by
  cases hc : canconUnconnected s.canconRmt with
  | true =>
    simp only [canconPrintkWrite, hc, Bool.true_or, if_true]
    exact hq
  | false => exact .of_connected (by rw [(canconPrintkWrite_prints str s).canconRmt, hc])

theorem printk_quiet {s : Node} (m : String) (hq : Quiet s) : Quiet (printk m s) :=
  canconPrintkWrite_quiet (messageBytes m) hq

theorem canconRecvAck_quiet {s : Node} (timeout : Bool) (hq : Quiet s) :
    Quiet (canconRecvAck timeout s) := by
  have h := canconRecvAck_prints timeout s
  cases hc : canconUnconnected s.canconRmt with
  | true =>
    rw [canconRecvAck_eq]
    apply canconSendNext_quiet
    intro _
    cases ackMessage timeout s.canconAckPending with
    | none => exact (hq hc).2
    | some m =>
      simp only [Option.elim_some, (printk_prints m _).canconInbuf]
      exact (hq hc).2
  | false => exact .of_connected (by rw [h.canconRmt, hc])

theorem Switched.quiet {p : CanPacket} {s u : Node} {l : List ConEvent} (h : Switched p s l u)
    (hq : Quiet s) : Quiet u := by
  cases h with
  | ignored => exact hq
  | answered _ _ => exact hq.of_session_eq (canobjAcknak_session _ _ _ _)
  | wrote _ => exact hq.of_session_eq (canobjAcknak_session .ack p (some s.objVal) s)
  | connected _ hc =>
    have hs := canobjAcknak_session .ack p (some (datExt p.dat).extDat)
      (canobjCanconHostSet (canconSetcon (some p) s))
    exact Quiet.of_session_eq hs fun _ => hq hc
  | disconnected _ _ =>
    intro _
    simp [canttyHangup, clearRing]
  | broke _ _ =>
    have ha := hq.of_session_eq (canobjAcknak_session .ack p none s)
    exact (printk_quiet _ ha).of_session_eq (halt_session _)
  | received _ _ hc => exact .of_connected (by simpa using hc)

theorem canobjPacket_quiet (p : CanPacket) {s : Node} (hq : Quiet s) :
    Quiet (canobjPacket p s).1 := by
  have hs := (canobjSwitch_switched p s).quiet hq
  rw [canobjPacket_eq]
  split_ifs
  · unfold canobjConsobj
    split
    · exact canconRecvAck_quiet false hs
    · exact canconPrintkWrite_quiet _ hs
    · exact hs
  · exact hs

theorem deliverPkt_session (pkt : CanPacket) (s : Node) :
    (deliverPkt pkt s).1.session =
      (if isMypacket s.canNodeid pkt then (canobjPacket pkt s).1 else s).session := by
  simp only [deliverPkt]
  split_ifs <;> rfl

theorem writeLog_logs (cs : List (Option Byte)) (i : Int) (s : Node) :
    Logs s (writeLog cs s.canconOutbuf)
      { s with canconOutbuf := (writeChars cs i s.canconOutbuf).1 } := by
  induction cs generalizing i s with
  | nil => exact .refl s
  | cons c cs ih =>
    cases c with
    | none => exact .refl s
    | some c =>
      have h := charToRing_step c s
      cases hf : s.canconOutbuf.full with
      | true =>
        simp only [writeLog, writeChars, charToRing, Ring.put_of_full hf, hf, if_true,
          Bool.false_eq_true, if_false] at h ⊢
        exact .single h
      | false =>
        have hp : (charToRing c s.canconOutbuf).2 = true := by rw [charToRing, Ring.put_snd, hf]; rfl
        simp only [writeLog, writeChars, hf, hp, if_true, Bool.false_eq_true, if_false] at h ⊢
        exact .cons h (ih (i + 1) _)

theorem canttyWrite_logs (stopped : Bool) (buf : Option (List (Option Byte))) (s : Node) :
    Logs s (ttyWriteLog stopped buf s) (canttyWrite stopped buf s).1 := by
  cases buf with
  | none =>
    simp only [ttyWriteLog, canttyWrite]
    split_ifs <;> exact .refl s
  | some cs =>
    simp only [ttyWriteLog, canttyWrite]
    split_ifs
    · exact .refl s
    · exact .refl s
    · exact (writeLog_logs cs 0 s).trans (canconSendNext_logs _)
    · exact (writeLog_logs cs 0 s).trans (.refl _)

theorem canttyWrite_quiet {s : Node} (stopped : Bool) (buf : Option (List (Option Byte)))
    (hq : Quiet s) : Quiet (canttyWrite stopped buf s).1 := by
  cases buf with
  | none =>
    simp only [canttyWrite]
    split_ifs <;> exact hq
  | some cs =>
    simp only [canttyWrite]
    split_ifs with hc _ _
    · exact hq
    · exact hq
    · exact canconSendNext_quiet fun h => absurd h hc
    · exact .of_connected (by simpa using hc)

/-- Every event follows the automaton. -/
theorem Node.step_logs {s u : Node} {op : NodeOp} (h : s.step op = some u) (hq : Quiet s) :
    Logs s (consoleLog s op) u := by
  replace h := (Node.step_eq_some h).2
  cases op with
  | ttyWrite stopped buf =>
    cases h
    exact canttyWrite_logs stopped buf s
  | ttyPutChar ch =>
    cases h
    exact (queueLog_logs [ch] s).trans (canconSendNext_logs _)
  | ttyFlushBuffer =>
    cases h
    have h : Session.Step s.session (.cleared s.canconOutbuf.toList) { s.session with out := [] } :=
      .cleared
    simpa [Logs, Node.session, canttyFlushBuffer, clearRing, consoleLog] using Path.single h
  | printk str =>
    cases h
    exact canconPrintkWrite_logs str s
  | ackTimeout =>
    obtain ⟨ht, rfl⟩ := Node.act_ackTimeout h
    exact .cons (.expired ht) (canconRecvAck_logs true { s with ackTimer := false })
  | bh =>
    obtain ⟨pkt, q, hg, rfl⟩ := bhRound_eq_some h
    have hp := canobjPacket_logs pkt (s := { s with inq := q }) hq
    simp only [consoleLog, bhLog, hg]
    rw [Logs, deliverPkt_session]
    split_ifs
    · exact hp
    · exact .nil _
  | sendPkt pkt =>
    cases h
    exact .of_session_eq (sendPkt_session pkt s)
  | sendPktNoOutFixup pkt =>
    cases h
    exact .of_session_eq (sendPktNoOutFixup_session pkt s)
  | tryRecv pkts =>
    cases h
    exact .of_session_eq (tryRecv_session pkts s)
  | tryXmit =>
    cases h
    exact .of_session_eq (tryXmit_session s)
  | _ =>
    cases h
    exact .of_session_eq rfl

theorem Node.step_quiet {s u : Node} {op : NodeOp} (h : s.step op = some u) (hq : Quiet s) :
    Quiet u := by
  replace h := (Node.step_eq_some h).2
  cases op with
  | ttyWrite stopped buf =>
    cases h
    exact canttyWrite_quiet stopped buf hq
  | ttyPutChar ch =>
    cases h
    exact canconSendNext_quiet fun hc => (hq hc).2
  | ttyFlushBuffer =>
    cases h
    exact fun hc => ⟨Ring.toList_clear _, (hq hc).2⟩
  | printk str =>
    cases h
    exact canconPrintkWrite_quiet str hq
  | ackTimeout =>
    obtain ⟨_, rfl⟩ := Node.act_ackTimeout h
    exact canconRecvAck_quiet (s := { s with ackTimer := false }) true hq
  | bh =>
    obtain ⟨pkt, q, _, rfl⟩ := bhRound_eq_some h
    refine Quiet.of_session_eq (deliverPkt_session pkt { s with inq := q }) ?_
    split_ifs
    · exact canobjPacket_quiet pkt (s := { s with inq := q }) hq
    · exact hq
  | sendPkt pkt =>
    cases h
    exact hq.of_session_eq (sendPkt_session pkt s)
  | sendPktNoOutFixup pkt =>
    cases h
    exact hq.of_session_eq (sendPktNoOutFixup_session pkt s)
  | tryRecv pkts =>
    cases h
    exact hq.of_session_eq (tryRecv_session pkts s)
  | tryXmit =>
    cases h
    exact hq.of_session_eq (tryXmit_session s)
  | _ =>
    cases h
    exact hq

end MeikoCs2
