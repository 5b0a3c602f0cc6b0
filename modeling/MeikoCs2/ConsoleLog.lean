import MeikoCs2.Tty

/-! A log of what the driver does with console characters. Every log function
follows one function of the source and lists, in order, what it does to the
character rings, the ACK timer and the connection. The code keeps no such log. -/

namespace MeikoCs2

inductive ConEvent where
  -- char_to_ring on cancon_outbuf, and its refusals
  | queued (c : Byte)
  | refused (c : Byte)
  -- clear_ring(&cancon_outbuf), with the characters thrown away
  | cleared (cs : List Byte)
  -- cancon_send_next: send_pkt took the packet, or returned 0; `armed` is the
  -- state of ack_timer when add_timer is called
  | sent (pkt : CanPacket) (cs : List Byte) (armed : Bool)
  | dropped (pkt : CanPacket) (cs : List Byte)
  | expired
  | dispatched (pkt : CanPacket)
  -- char_to_ring on cancon_inbuf, and its refusals
  | received (c : Byte)
  | overrun (c : Byte)
  -- cantty_recv_push, and clear_ring(&cancon_inbuf)
  | pushed (cs : List Byte)
  | discarded (cs : List Byte)
  -- cancon_setcon
  | connected (rmt : CanHeaderExt)
  | disconnected
  deriving DecidableEq

def queueLog : List Byte → CharRing → List ConEvent
  | [], _ => []
  | c :: cs, r => (if r.full then .refused c else .queued c) :: queueLog cs (charToRing c r).1

def recvLog : List Byte → CharRing → List ConEvent
  | [], _ => []
  | c :: cs, r => (if r.full then .overrun c else .received c) :: recvLog cs (charToRing c r).1

def sendNextLog (s : Node) : List ConEvent :=
  if canconUnconnected s.canconRmt then [.cleared s.canconOutbuf.toList]
  else if s.canconAckPending then []
  else
    let t := takeChars 4 s.canconOutbuf
    if t.1.isEmpty then []
    else
      let pkt := consolePkt s t.1
      if (sendPkt pkt { s with canconOutbuf := t.2 }).2 then [.sent pkt t.1 s.ackTimer]
      else [.dropped pkt t.1]

def expandNl : List Byte → List Byte
  | [] => []
  | c :: cs => if c = 0x0a then 0x0d :: c :: expandNl cs else c :: expandNl cs

def printkLog (str : List Byte) (s : Node) : List ConEvent :=
  if canconUnconnected s.canconRmt || str.isEmpty then []
  else
    queueLog (expandNl str) s.canconOutbuf ++
      sendNextLog { s with canconOutbuf := putPrintk str s.canconOutbuf }

def ackMessage (timeout pending : Bool) : Option String :=
  if !pending then
    some (if timeout then "can: unexpected ACK timeout\n" else "can: unexpected ACK received\n")
  else if timeout then some "can: consobj ACK timed out\n"
  else none

def recvAckLog (timeout : Bool) (s : Node) : List ConEvent :=
  let s₁ := { s with ackTimer := false, canconAckPending := false }
  match ackMessage timeout s.canconAckPending with
  | none => sendNextLog s₁
  | some m => printkLog (messageBytes m) s₁ ++ sendNextLog (printk m s₁)

def recvPushLog (s : Node) : List ConEvent :=
  match s.ttyp with
  | none => []
  | some tty =>
    if tty.charBufNull then []
    else [.pushed (takeChars (ttyFlipbufSize - tty.flip.length) s.canconInbuf).1]

def recvDatLog (chars : List Byte) (s : Node) : List ConEvent :=
  recvLog chars s.canconInbuf ++
    recvPushLog { s with canconInbuf := putChars chars s.canconInbuf }

def switchLog (pkt : CanPacket) (s : Node) : List ConEvent :=
  let object := pkt.ext.object
  if object = Canobj.consoleConnect then
    if pkt.ext.type = .wo && canconUnconnected s.canconRmt then [.connected (datExt pkt.dat)]
    else []
  else if object = Canobj.consoleDisconn then
    if pkt.ext.type = .wo && !canconUnconnected s.canconRmt then
      [.disconnected, .cleared s.canconOutbuf.toList, .discarded s.canconInbuf.toList]
    else []
  else if object = Canobj.brk then
    if pkt.ext.type = .wo then
      printkLog (messageBytes "can: received BREAK, restarting machine\n")
        (canobjAcknak .ack pkt none s)
    else []
  else if object = 0 then
    if pkt.ext.type = .dat && !canconUnconnected s.canconRmt then
      recvDatLog (recvChars pkt s) (canobjAcknak .ack pkt none s)
    else []
  else []

def consobjLog (pkt : CanPacket) (s : Node) : List ConEvent :=
  match pkt.ext.type with
  | .ack => recvAckLog false s
  | .nak => printkLog (messageBytes "can: consobj NAK - shouldn't happen\n") s
  | _ => []

def forConsole (pkt : CanPacket) (s : Node) : Bool :=
  !canconUnconnected s.canconRmt && pkt.ext.object = s.canconRmt.object

def packetLog (pkt : CanPacket) (s : Node) : List ConEvent :=
  let s₁ := (canobjSwitch pkt s).1
  .dispatched pkt :: switchLog pkt s ++ if forConsole pkt s₁ then consobjLog pkt s₁ else []

def writeLog : List (Option Byte) → CharRing → List ConEvent
  | [], _ => []
  | none :: _, _ => []
  | some c :: cs, r =>
    if r.full then [.refused c] else .queued c :: writeLog cs (charToRing c r).1

def ttyWriteLog (stopped : Bool) (buf : Option (List (Option Byte))) (s : Node) : List ConEvent :=
  if canconUnconnected s.canconRmt then []
  else
    match buf with
    | none => []
    | some cs =>
      if stopped then []
      else
        let w := writeChars cs 0 s.canconOutbuf
        writeLog cs s.canconOutbuf ++
          if 0 < w.2 then sendNextLog { s with canconOutbuf := w.1 } else []

def bhLog (s : Node) : List ConEvent :=
  match ringToPkt s.inq with
  | none => []
  | some (pkt, q) => if isMypacket s.canNodeid pkt then packetLog pkt { s with inq := q } else []

/-- What the event `op` does to the console. -/
def consoleLog (s : Node) : NodeOp → List ConEvent
  | .ttyWrite stopped buf => ttyWriteLog stopped buf s
  | .ttyPutChar ch =>
    queueLog [ch] s.canconOutbuf ++
      sendNextLog { s with canconOutbuf := (charToRing ch s.canconOutbuf).1 }
  | .ttyFlushBuffer => [.cleared s.canconOutbuf.toList]
  | .printk str => printkLog str s
  | .ackTimeout => .expired :: recvAckLog true { s with ackTimer := false }
  | .bh => bhLog s
  | _ => []

def ConEvent.isOutgoing : ConEvent → Bool
  | .queued _ => true
  | .refused _ => true
  | .cleared _ => true
  | .sent _ _ _ => true
  | .dropped _ _ => true
  | _ => false

/-- Entries about `cancon_outbuf` and its packets only. -/
def Outgoing (l : List ConEvent) : Prop := ∀ e ∈ l, e.isOutgoing = true

theorem Outgoing.nil : Outgoing [] := by simp [Outgoing]

theorem Outgoing.append {l l' : List ConEvent} (h : Outgoing l) (h' : Outgoing l') :
    Outgoing (l ++ l') := fun e he => (List.mem_append.mp he).elim (h e) (h' e)

theorem mem_queueLog {cs : List Byte} {r : CharRing} {e : ConEvent} (h : e ∈ queueLog cs r) :
    ∃ c, e = .queued c ∨ e = .refused c := by
  induction cs generalizing r with
  | nil => cases h
  | cons c cs ih =>
    rcases List.mem_cons.mp h with h | h
    · split_ifs at h
      · exact ⟨c, .inr h⟩
      · exact ⟨c, .inl h⟩
    · exact ih h

theorem mem_recvLog {cs : List Byte} {r : CharRing} {e : ConEvent} (h : e ∈ recvLog cs r) :
    ∃ c, e = .received c ∨ e = .overrun c := by
  induction cs generalizing r with
  | nil => cases h
  | cons c cs ih =>
    rcases List.mem_cons.mp h with h | h
    · split_ifs at h
      · exact ⟨c, .inr h⟩
      · exact ⟨c, .inl h⟩
    · exact ih h

theorem mem_writeLog {cs : List (Option Byte)} {r : CharRing} {e : ConEvent}
    (h : e ∈ writeLog cs r) : ∃ c, e = .queued c ∨ e = .refused c := by
  induction cs generalizing r with
  | nil => cases h
  | cons c cs ih =>
    cases c with
    | none => cases h
    | some c =>
      unfold writeLog at h
      split_ifs at h
      · exact ⟨c, .inr (List.mem_singleton.mp h)⟩
      · rcases List.mem_cons.mp h with h | h
        · exact ⟨c, .inl h⟩
        · exact ih h

theorem queueLog_outgoing (cs : List Byte) (r : CharRing) : Outgoing (queueLog cs r) := by
  intro e he
  obtain ⟨c, rfl | rfl⟩ := mem_queueLog he <;> rfl

theorem writeLog_outgoing (cs : List (Option Byte)) (r : CharRing) : Outgoing (writeLog cs r) := by
  intro e he
  obtain ⟨c, rfl | rfl⟩ := mem_writeLog he <;> rfl

theorem sendNextLog_outgoing (s : Node) : Outgoing (sendNextLog s) := by
  simp only [sendNextLog]
  split_ifs <;> simp [Outgoing, ConEvent.isOutgoing]

theorem printkLog_outgoing (str : List Byte) (s : Node) : Outgoing (printkLog str s) := by
  unfold printkLog
  split_ifs
  · exact .nil
  · exact (queueLog_outgoing _ _).append (sendNextLog_outgoing _)

theorem recvAckLog_outgoing (timeout : Bool) (s : Node) : Outgoing (recvAckLog timeout s) := by
  unfold recvAckLog
  cases ackMessage timeout s.canconAckPending with
  | none => exact sendNextLog_outgoing _
  | some m => exact (printkLog_outgoing _ _).append (sendNextLog_outgoing _)

theorem consobjLog_outgoing (p : CanPacket) (s : Node) : Outgoing (consobjLog p s) := by
  unfold consobjLog
  split
  · exact recvAckLog_outgoing false s
  · exact printkLog_outgoing _ s
  · exact .nil

theorem ttyWriteLog_outgoing (stopped : Bool) (buf : Option (List (Option Byte))) (s : Node) :
    Outgoing (ttyWriteLog stopped buf s) := by
  cases buf with
  | none =>
    simp only [ttyWriteLog]
    split_ifs <;> exact .nil
  | some cs =>
    simp only [ttyWriteLog]
    split_ifs
    · exact .nil
    · exact .nil
    · exact (writeLog_outgoing _ _).append (sendNextLog_outgoing _)
    · exact (writeLog_outgoing _ _).append .nil

end MeikoCs2
