import MeikoCs2.Session

/-! The log of the console against the node: the packets in it are the DAT
packets that the kernel hands to `send_pkt`, with what that returned, and the
characters passed on are those put into the flip buffer of the tty. -/

namespace MeikoCs2

/-- The DAT packets handed to `send_pkt`, with the values it returned. -/
def datsHanded (s : Node) : List (CanPacket × Bool) :=
  (s.handed.filter fun h => h.pkt.ext.type = .dat).map fun h => (h.pkt, h.instat || h.outstat)

def ConEvent.handed (f : CanPacket → CanPacket) : ConEvent → List (CanPacket × Bool)
  | .sent pkt _ _ => [(f pkt, true)]
  | .dropped pkt _ => [(f pkt, false)]
  | _ => []

def ConEvent.flipped : ConEvent → List Byte
  | .pushed cs => cs
  | _ => []

/-- The log entries `l` tell what went to `send_pkt` and to the tty. -/
structure Shows (s : Node) (l : List ConEvent) (u : Node) : Prop where
  canNodeid : u.canNodeid = s.canNodeid
  jiffies : u.jiffies = s.jiffies
  dats : datsHanded u = datsHanded s ++ l.flatMap (ConEvent.handed (fixup s))
  ttyp : u.ttyp = s.ttyp.map fun tty => { tty with flip := tty.flip ++ l.flatMap ConEvent.flipped }

theorem fixup_congr {s u : Node} (hid : u.canNodeid = s.canNodeid) (hj : u.jiffies = s.jiffies) :
    fixup u = fixup s := by
  funext pkt
  rw [fixup, fixup, hid, hj]

theorem Shows.trans {s t u : Node} {l l' : List ConEvent} (h : Shows s l t) (h' : Shows t l' u) :
    Shows s (l ++ l') u where
  canNodeid := h'.canNodeid.trans h.canNodeid
  jiffies := h'.jiffies.trans h.jiffies
  dats := by
    rw [h'.dats, h.dats, fixup_congr h.canNodeid h.jiffies, List.flatMap_append, List.append_assoc]
  ttyp := by
    rw [h'.ttyp, h.ttyp, Option.map_map]
    congr 1
    funext tty
    simp only [Function.comp_apply, List.flatMap_append, List.append_assoc]

/-- Entries that say nothing of packets and the tty. -/
theorem Shows.of_eq {s u : Node} {l : List ConEvent} (hl : ∀ e ∈ l, ∀ f, e.handed f = [])
    (hf : ∀ e ∈ l, e.flipped = []) (hid : u.canNodeid = s.canNodeid) (hj : u.jiffies = s.jiffies)
    (hh : u.handed = s.handed) (ht : u.ttyp = s.ttyp) : Shows s l u := by
  refine ⟨hid, hj, ?_, ?_⟩
  · rw [List.flatMap_eq_nil_iff.mpr fun e he => hl e he _, List.append_nil, datsHanded, hh]
    rfl
  · rw [List.flatMap_eq_nil_iff.mpr hf, ht]
    simp

theorem Shows.frame {s u : Node} (hid : u.canNodeid = s.canNodeid) (hj : u.jiffies = s.jiffies)
    (hh : u.handed = s.handed) (ht : u.ttyp = s.ttyp) : Shows s [] u :=
  .of_eq (by simp) (by simp) hid hj hh ht

theorem Shows.refl (s : Node) : Shows s [] s := .frame rfl rfl rfl rfl

theorem Shows.trans_nil {s t u : Node} {l : List ConEvent} (h : Shows s l t) (h' : Shows t [] u) :
    Shows s l u := by
  have hu := h.trans h'
  rwa [List.append_nil] at hu

section Send

variable (pkt : CanPacket) (s : Node)

theorem tryXmit_handed : (tryXmit s).handed = s.handed := by
  obtain ⟨q, x, l, h⟩ := exists_tryXmit_eq s
  rw [h]

theorem tryRecv_handed (pkts : List CanPacket) : (tryRecv pkts s).handed = s.handed := by
  obtain ⟨q, b, h⟩ := exists_tryRecv_eq pkts s
  rw [h]

theorem queueBh_handed : (queueBh s).handed = s.handed := rfl

theorem enqueue_handed : (enqueue pkt s).1.handed = s.handed := by
  unfold enqueue
  split_ifs <;> rfl

theorem sendPktNoOutFixup_handed :
    ∃ i o, (sendPktNoOutFixup pkt s).1.handed = s.handed ++ [⟨incomingFixup s.jiffies pkt, i, o⟩] ∧
      (sendPktNoOutFixup pkt s).2 = (i || o) := by
  have he := enqueue_handed (incomingFixup s.jiffies pkt) s
  refine ⟨_, _, ?_, rfl⟩
  simp only [sendPktNoOutFixup, record]
  congr 1
  split_ifs
  · rw [tryXmit_handed, queueBh_handed, he]
  · rw [tryXmit_handed, he]
  · rw [queueBh_handed, he]
  · rw [he]

theorem datsHanded_sendPktNoOutFixup :
    datsHanded (sendPktNoOutFixup pkt s).1 = datsHanded s ++ if pkt.ext.type = .dat then
      [(incomingFixup s.jiffies pkt, (sendPktNoOutFixup pkt s).2)] else [] := by
  obtain ⟨i, o, hh, hr⟩ := sendPktNoOutFixup_handed pkt s
  have ht : (incomingFixup s.jiffies pkt).ext.type = pkt.ext.type := rfl
  rw [datsHanded, hh, hr, List.filter_append, List.map_append, datsHanded]
  by_cases hd : pkt.ext.type = .dat
  · simp [ht, hd]
  · simp [ht, hd]

theorem datsHanded_sendPkt :
    datsHanded (sendPkt pkt s).1 = datsHanded s ++ if pkt.ext.type = .dat then
      [(fixup s pkt, (sendPkt pkt s).2)] else [] :=
  datsHanded_sendPktNoOutFixup (outgoingFixup s.canNodeid pkt) s

theorem canobjAcknak_shows {t : CanType} (ht : t.isAcknak = true) (d : Option CanDat) :
    Shows s [] (canobjAcknak t pkt d s) := by
  have he := canobjAcknak_emits t pkt d s
  refine ⟨he.canNodeid, he.jiffies, ?_, ?_⟩
  · have hne : (acknakPkt t pkt d).ext.type ≠ .dat := by
      intro h
      have : t = .dat := h
      rw [this] at ht
      cases ht
    rw [canobjAcknak, datsHanded_sendPkt, if_neg hne]
    rfl
  · rw [he.ttyp]
    simp

end Send

section Output

variable (s : Node)

theorem queueLog_shows (cs : List Byte) (r r' : CharRing) :
    Shows s (queueLog cs r) { s with canconOutbuf := r' } := by
  refine .of_eq (fun e he f => ?_) (fun e he => ?_) rfl rfl rfl rfl
  · obtain ⟨c, rfl | rfl⟩ := mem_queueLog he <;> rfl
  · obtain ⟨c, rfl | rfl⟩ := mem_queueLog he <;> rfl

theorem writeLog_shows (cs : List (Option Byte)) (r r' : CharRing) :
    Shows s (writeLog cs r) { s with canconOutbuf := r' } := by
  refine .of_eq (fun e he f => ?_) (fun e he => ?_) rfl rfl rfl rfl
  · obtain ⟨c, rfl | rfl⟩ := mem_writeLog he <;> rfl
  · obtain ⟨c, rfl | rfl⟩ := mem_writeLog he <;> rfl

theorem clear_shows (cs : List Byte) (r : CharRing) :
    Shows s [.cleared cs] { s with canconOutbuf := r } :=
  .of_eq (by simp [ConEvent.handed]) (by simp [ConEvent.flipped]) rfl rfl rfl rfl

theorem ack_shows (pending timer : Bool) :
    Shows s [] { s with canconAckPending := pending, ackTimer := timer } :=
  .frame rfl rfl rfl rfl

theorem sendPkt_shows {pkt : CanPacket} (hd : pkt.ext.type = .dat) (cs : List Byte) (armed : Bool) :
    Shows s [if (sendPkt pkt s).2 then .sent pkt cs armed else .dropped pkt cs]
      (sendPkt pkt s).1 := by
  have he := sendPkt_emits pkt s
  refine ⟨he.canNodeid, he.jiffies, ?_, ?_⟩
  · rw [datsHanded_sendPkt, if_pos hd]
    cases (sendPkt pkt s).2 <;> rfl
  · rw [he.ttyp]
    cases (sendPkt pkt s).2 <;> simp [ConEvent.flipped]

theorem canconSendNext_shows : Shows s (sendNextLog s) (canconSendNext s) := by
  unfold sendNextLog canconSendNext
  split_ifs
  · exact clear_shows s _ _
  · exact .refl s
  · simp only
    have hr : Shows s [] { s with canconOutbuf := (takeChars 4 s.canconOutbuf).2 } :=
      .frame rfl rfl rfl rfl
    have hd : (consolePkt s (takeChars 4 s.canconOutbuf).1).ext.type = .dat := rfl
    have hs := hr.trans (sendPkt_shows _ hd (takeChars 4 s.canconOutbuf).1 s.ackTimer)
    split_ifs with hn hp
    · exact .refl s
    · rw [if_pos hp] at hs
      exact hs.trans_nil (ack_shows _ true true)
    · rw [if_neg hp] at hs
      exact hs

theorem canconPrintkWrite_shows (str : List Byte) :
    Shows s (printkLog str s) (canconPrintkWrite str s) := by
  unfold printkLog canconPrintkWrite
  split_ifs
  · exact .refl s
  · exact (queueLog_shows s _ _ _).trans (canconSendNext_shows _)

theorem printk_shows (m : String) : Shows s (printkLog (messageBytes m) s) (printk m s) :=
  canconPrintkWrite_shows s (messageBytes m)

theorem canconRecvAck_shows (timeout : Bool) :
    Shows s (recvAckLog timeout s) (canconRecvAck timeout s) := by
  have ha := ack_shows s false false
  rw [canconRecvAck_eq]
  unfold recvAckLog
  cases ackMessage timeout s.canconAckPending with
  | none => exact ha.trans (canconSendNext_shows _)
  | some m => exact ha.trans ((printk_shows _ m).trans (canconSendNext_shows _))

theorem canobjConsobj_shows (p : CanPacket) : Shows s (consobjLog p s) (canobjConsobj p s).1 := by
  simp only [consobjLog, canobjConsobj]
  cases p.ext.type with
  | ack => exact canconRecvAck_shows s false
  | nak => exact canconPrintkWrite_shows s _
  | _ => exact .refl s

theorem canttyWrite_shows (stopped : Bool) (buf : Option (List (Option Byte))) :
    Shows s (ttyWriteLog stopped buf s) (canttyWrite stopped buf s).1 := by
  cases buf with
  | none =>
    simp only [ttyWriteLog, canttyWrite]
    split_ifs <;> exact .refl s
  | some cs =>
    have hw := writeLog_shows s cs s.canconOutbuf (writeChars cs 0 s.canconOutbuf).1
    simp only [ttyWriteLog, canttyWrite]
    split_ifs
    · exact .refl s
    · exact .refl s
    · exact hw.trans (canconSendNext_shows _)
    · exact hw.trans (.refl _)

end Output

section Input

variable (s : Node)

theorem recvLog_shows (cs : List Byte) (r r' : CharRing) :
    Shows s (recvLog cs r) { s with canconInbuf := r' } := by
  refine .of_eq (fun e he f => ?_) (fun e he => ?_) rfl rfl rfl rfl
  · obtain ⟨c, rfl | rfl⟩ := mem_recvLog he <;> rfl
  · obtain ⟨c, rfl | rfl⟩ := mem_recvLog he <;> rfl

theorem canttyRecvPush_shows : Shows s (recvPushLog s) (canttyRecvPush s) := by
  unfold recvPushLog canttyRecvPush
  cases ht : s.ttyp with
  | none => exact .refl s
  | some tty =>
    simp only
    split_ifs
    · exact .refl s
    · refine ⟨rfl, rfl, ?_, ?_⟩
      · simp [datsHanded, ConEvent.handed]
      · simp [ht, ConEvent.flipped]

theorem canttyRecvDat_shows (cs : List Byte) : Shows s (recvDatLog cs s) (canttyRecvDat cs s) :=
  (recvLog_shows s cs _ _).trans (canttyRecvPush_shows _)

theorem host_shows (l : List ConEvent) (hl : ∀ e ∈ l, ∀ f, e.handed f = [])
    (hf : ∀ e ∈ l, e.flipped = []) (rmt : CanHeaderExt) (m : Prom) :
    Shows s l { s with canconRmt := rmt, prom := m } := .of_eq hl hf rfl rfl rfl rfl

end Input

theorem Switched.shows {p : CanPacket} {s u : Node} {l : List ConEvent} (h : Switched p s l u) :
    Shows s l u := by
  have hack : ∀ {d : Option CanDat} {v : Node}, Shows v [] (canobjAcknak .ack p d v) :=
    fun {d v} => canobjAcknak_shows p v rfl d
  cases h with
  | ignored => exact .refl s
  | @answered t d m _ ht _ =>
    have hm : Shows s [] { s with prom := m } := .frame rfl rfl rfl rfl
    exact hm.trans (canobjAcknak_shows p _ ht d)
  | wrote _ =>
    have hv : ∀ v : Node, Shows v [] { v with objVal := p.dat } := fun v => .frame rfl rfl rfl rfl
    exact hack.trans (hv _)
  | connected _ _ =>
    have hm := host_shows s [.connected (datExt p.dat)] (by simp [ConEvent.handed])
      (by simp [ConEvent.flipped])
    exact (hm _ _).trans hack
  | disconnected _ _ =>
    have hm := host_shows s [.disconnected] (by simp [ConEvent.handed])
      (by simp [ConEvent.flipped])
    have hh : ∀ v : Node, Shows v [.cleared s.canconOutbuf.toList,
        .discarded s.canconInbuf.toList] (canttyHangup v) :=
      fun v => .of_eq (by simp [ConEvent.handed]) (by simp [ConEvent.flipped]) rfl rfl rfl rfl
    exact ((hm _ _).trans hack).trans (hh _)
  | broke _ _ =>
    have hh : ∀ v : Node, Shows v [] { v with halted := true } := fun v => .frame rfl rfl rfl rfl
    have hp := printk_shows (canobjAcknak .ack p none s)
      "can: received BREAK, restarting machine\n"
    exact (hack.trans hp).trans_nil (hh _)
  | received _ _ _ => exact hack.trans (canttyRecvDat_shows _ _)

theorem canobjPacket_shows (p : CanPacket) (s : Node) :
    Shows s (packetLog p s) (canobjPacket p s).1 := by
  have hd : Shows s [.dispatched p] s :=
    .of_eq (by simp [ConEvent.handed]) (by simp [ConEvent.flipped]) rfl rfl rfl rfl
  rw [canobjPacket_eq]
  refine (hd.trans (canobjSwitch_switched p s).shows).trans ?_
  split_ifs
  · exact canobjConsobj_shows _ p
  · exact .refl _

theorem bhRound_shows {s u : Node} (h : bhRound s = some u) : Shows s (bhLog s) u := by
  obtain ⟨pkt, q, hg, rfl⟩ := bhRound_eq_some h
  have hq : Shows s [] { s with inq := q } := .frame rfl rfl rfl rfl
  have hf : ∀ (v : Node) (t : FdTable), Shows v [] { v with fds := t } :=
    fun v t => .frame rfl rfl rfl rfl
  have hp := hq.trans (canobjPacket_shows pkt { s with inq := q })
  simp only [bhLog, hg, deliverPkt]
  split_ifs
  · exact hp
  · exact hp.trans_nil (hf _ _)
  · exact hq
  · exact hq.trans (hf _ _)

def NodeOp.isConsole : NodeOp → Bool
  | .ttyWrite _ _ => true
  | .ttyPutChar _ => true
  | .ttyFlushBuffer => true
  | .printk _ => true
  | .ackTimeout => true
  | .bh => true
  | _ => false

theorem Node.step_shows {s u : Node} {op : NodeOp} (h : s.step op = some u)
    (ho : op.isConsole = true) : Shows s (consoleLog s op) u := by
  replace h := (Node.step_eq_some h).2
  cases op with
  | ttyWrite stopped buf =>
    cases h
    exact canttyWrite_shows s stopped buf
  | ttyPutChar ch =>
    cases h
    exact (queueLog_shows s _ _ _).trans (canconSendNext_shows _)
  | ttyFlushBuffer =>
    cases h
    exact clear_shows s _ _
  | printk str =>
    cases h
    exact canconPrintkWrite_shows s str
  | ackTimeout =>
    obtain ⟨_, rfl⟩ := Node.act_ackTimeout h
    have he : Shows s [.expired] { s with ackTimer := false } :=
      .of_eq (by simp [ConEvent.handed]) (by simp [ConEvent.flipped]) rfl rfl rfl rfl
    exact he.trans (canconRecvAck_shows _ true)
  | bh => exact bhRound_shows h
  | _ => cases ho

/-- The DAT packets that users hand to `send_pkt`. -/
def userDats (s : Node) : NodeOp → List (CanPacket × Bool)
  | .sendPkt pkt => if pkt.ext.type = .dat then [(fixup s pkt, (sendPkt pkt s).2)] else []
  | .sendPktNoOutFixup pkt =>
    if pkt.ext.type = .dat then
      [(incomingFixup s.jiffies pkt, (sendPktNoOutFixup pkt s).2)]
    else []
  | _ => []

def eventDats (s : Node) (op : NodeOp) : List (CanPacket × Bool) :=
  userDats s op ++ (consoleLog s op).flatMap (ConEvent.handed (fixup s))

/-- Whatever else is handed to `send_pkt` as a DAT comes from a user. -/
theorem Node.step_dats {s u : Node} {op : NodeOp} (h : s.step op = some u) :
    datsHanded u = datsHanded s ++ eventDats s op := by
  cases ho : op.isConsole with
  | true =>
    have hd := (Node.step_shows h ho).dats
    cases op with
    | ttyWrite _ _ | ttyPutChar _ | ttyFlushBuffer | printk _ | ackTimeout | bh => exact hd
    | _ => cases ho
  | false =>
    replace h := (Node.step_eq_some h).2
    cases op with
    | ttyWrite _ _ | ttyPutChar _ | ttyFlushBuffer | printk _ | ackTimeout | bh => cases ho
    | sendPkt pkt =>
      cases h
      simp only [datsHanded_sendPkt, eventDats, userDats, consoleLog, List.flatMap_nil,
        List.append_nil]
    | sendPktNoOutFixup pkt =>
      cases h
      simp only [datsHanded_sendPktNoOutFixup, eventDats, userDats, consoleLog, List.flatMap_nil,
        List.append_nil]
    | tryRecv pkts =>
      cases h
      rw [datsHanded, tryRecv_handed]
      exact (List.append_nil _).symm
    | tryXmit =>
      cases h
      rw [datsHanded, tryXmit_handed]
      exact (List.append_nil _).symm
    | _ =>
      cases h
      exact (List.append_nil _).symm

end MeikoCs2
