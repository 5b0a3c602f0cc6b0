import MeikoCs2.AckTimer

/-! When console output comes to a stop. Characters that stay in the buffer are
sent on by the next ACK or timeout, so one of the two has to be awaited. A
refused packet and a write that faults leave characters and wait for nothing. -/

namespace MeikoCs2

def consoleRoom (s : Node) : Bool :=
  if isMypacket s.canNodeid (consolePkt s []) then !s.inq.full else !s.outq.full

/-- Characters for a connected console that no ACK and no timeout will send. -/
def Stalled (s : Node) : Prop :=
  canconUnconnected s.canconRmt = false ∧ s.canconOutbuf.toList ≠ [] ∧ s.canconAckPending = false

/-- A halting event does not complete. -/
def NoStall (s : Node) : Prop := s.halted = false → ¬ Stalled s

theorem sendPktNoOutFixup_snd (pkt : CanPacket) (s : Node) :
    (sendPktNoOutFixup pkt s).2 =
      if isMypacket s.canNodeid pkt then !s.inq.full else !s.outq.full := by
  have hm : isMypacket s.canNodeid (incomingFixup s.jiffies pkt) = isMypacket s.canNodeid pkt := rfl
  simp only [sendPktNoOutFixup, enqueue, hm, putInq, putOutq, pktToRing, Ring.put_snd]
  cases isMypacket s.canNodeid pkt with
  | true => simp
  | false => cases ho : s.outq.full <;> simp

theorem sendPkt_snd (pkt : CanPacket) (s : Node) :
    (sendPkt pkt s).2 = if isMypacket s.canNodeid pkt then !s.inq.full else !s.outq.full :=
  sendPktNoOutFixup_snd (outgoingFixup s.canNodeid pkt) s

theorem sendPkt_of_refused {pkt : CanPacket} {s : Node} (h : (sendPkt pkt s).2 = false) :
    ∃ r, (sendPkt pkt s).1 = { s with handed := r } := by
  rw [sendPkt_snd] at h
  have hm : isMypacket s.canNodeid (incomingFixup s.jiffies (outgoingFixup s.canNodeid pkt)) =
      isMypacket s.canNodeid pkt := rfl
  simp only [sendPkt, sendPktNoOutFixup, enqueue, hm, putInq, putOutq, pktToRing]
  cases hi : isMypacket s.canNodeid pkt with
  | true =>
    have hf : s.inq.full = true := by simpa [hi] using h
    exact ⟨_, by simp [Ring.put_of_full hf, record]; rfl⟩
  | false =>
    have hf : s.outq.full = true := by simpa [hi] using h
    exact ⟨_, by simp [Ring.put_of_full hf, record]; rfl⟩

section SendNext

variable {s : Node}

theorem canconSendNext_of_pending (hc : canconUnconnected s.canconRmt = false)
    (hp : s.canconAckPending = true) : canconSendNext s = s := by
  simp [canconSendNext, hc, hp]

theorem canconSendNext_of_nil (hc : canconUnconnected s.canconRmt = false)
    (hn : s.canconOutbuf.toList = []) : canconSendNext s = s := by
  have ht : (takeChars 4 s.canconOutbuf).1 = [] := by rw [takeChars_fst, hn, List.take_nil]
  simp [canconSendNext, hc, ht]

theorem canconSendNext_of_idle (hc : canconUnconnected s.canconRmt = false)
    (hp : s.canconAckPending = false) (ht : (takeChars 4 s.canconOutbuf).1.isEmpty = false) :
    canconSendNext s =
      let r := sendPkt (consolePkt s (takeChars 4 s.canconOutbuf).1)
        { s with canconOutbuf := (takeChars 4 s.canconOutbuf).2 }
      if r.2 then { r.1 with canconAckPending := true, ackTimer := true } else r.1 := by
  rw [canconSendNext, if_neg (by rw [hc]; decide), if_neg (by rw [hp]; decide)]
  exact if_neg (by rw [ht]; decide)

theorem canconSendNext_of_room (hc : canconUnconnected s.canconRmt = false)
    (hn : s.canconOutbuf.toList ≠ []) (hr : consoleRoom s = true) :
    (canconSendNext s).canconAckPending = true := by
  cases hp : s.canconAckPending with
  | true => rw [canconSendNext_of_pending hc hp, hp]
  | false =>
    have ht : (takeChars 4 s.canconOutbuf).1.isEmpty = false := by
      rw [takeChars_fst]
      cases hl : s.canconOutbuf.toList with
      | nil => exact absurd hl hn
      | cons c cs => rfl
    have hs : (sendPkt (consolePkt s (takeChars 4 s.canconOutbuf).1)
        { s with canconOutbuf := (takeChars 4 s.canconOutbuf).2 }).2 = true := by
      rw [sendPkt_snd]
      exact hr
    rw [canconSendNext_of_idle hc hp ht]
    simp only [hs, if_true]

theorem canconSendNext_of_full (hc : canconUnconnected s.canconRmt = false)
    (hp : s.canconAckPending = false) (hr : consoleRoom s = false) :
    (canconSendNext s).canconOutbuf.toList = s.canconOutbuf.toList.drop 4 ∧
      (canconSendNext s).canconAckPending = false ∧ (canconSendNext s).canconRmt = s.canconRmt ∧
      consoleRoom (canconSendNext s) = false := by
  cases ht : (takeChars 4 s.canconOutbuf).1.isEmpty with
  | true =>
    have hn : s.canconOutbuf.toList = [] := by
      rw [takeChars_fst, List.isEmpty_iff, List.take_eq_nil_iff] at ht
      simpa using ht
    rw [canconSendNext_of_nil hc hn, hn]
    exact ⟨rfl, hp, rfl, hr⟩
  | false =>
    have hs : (sendPkt (consolePkt s (takeChars 4 s.canconOutbuf).1)
        { s with canconOutbuf := (takeChars 4 s.canconOutbuf).2 }).2 = false := by
      rw [sendPkt_snd]
      exact hr
    obtain ⟨r, hr'⟩ := sendPkt_of_refused hs
    have he : canconSendNext s =
        { s with canconOutbuf := (takeChars 4 s.canconOutbuf).2, handed := r } := by
      rw [canconSendNext_of_idle hc hp ht]
      simp only [hs, Bool.false_eq_true, if_false, hr']
    rw [he]
    exact ⟨takeChars_snd 4 _, hp, rfl, hr⟩

theorem not_stalled_of_pending (h : s.canconAckPending = true) : ¬ Stalled s := fun hs => by
  have hp := hs.2.2
  rw [h] at hp
  cases hp

theorem stalled_sendNext_iff (hc : canconUnconnected s.canconRmt = false)
    (hp : s.canconAckPending = false) :
    Stalled (canconSendNext s) ↔ consoleRoom s = false ∧ 4 < s.canconOutbuf.toList.length := by
  by_cases hn : s.canconOutbuf.toList = []
  · rw [canconSendNext_of_nil hc hn]
    simp [Stalled, hn]
  · cases hr : consoleRoom s with
    | true => simp [not_stalled_of_pending (canconSendNext_of_room hc hn hr)]
    | false =>
      obtain ⟨ho, hp', hc', _⟩ := canconSendNext_of_full hc hp hr
      simp [Stalled, ho, hp', hc', hc]

theorem stalled_sendNext_sendNext_iff (hc : canconUnconnected s.canconRmt = false)
    (hp : s.canconAckPending = false) (h8 : 8 < s.canconOutbuf.toList.length) :
    Stalled (canconSendNext (canconSendNext s)) ↔ consoleRoom s = false := by
  cases hr : consoleRoom s with
  | true =>
    have hn : s.canconOutbuf.toList ≠ [] := fun hn => by
      rw [hn] at h8
      exact absurd h8 (by simp)
    have h₁ := canconSendNext_of_room hc hn hr
    have hc₁ : canconUnconnected (canconSendNext s).canconRmt = false := by
      rw [(canconSendNext_prints s).canconRmt, hc]
    rw [canconSendNext_of_pending hc₁ h₁]
    simp [not_stalled_of_pending h₁]
  | false =>
    obtain ⟨ho, hp', hc', hr'⟩ := canconSendNext_of_full hc hp hr
    rw [stalled_sendNext_iff (hc' ▸ hc) hp', ho, List.length_drop]
    simp only [hr', true_and, iff_true]
    omega

end SendNext

theorem length_acceptedChars (cs : List Byte) (r : CharRing) :
    (acceptedChars cs r).length = min cs.length r.room := by
  induction cs generalizing r with
  | nil => simp [acceptedChars]
  | cons c cs ih =>
    rw [acceptedChars, charToRing, Ring.put_snd]
    cases hf : r.full with
    | true =>
      have hsz := (Ring.full_iff r (by decide)).mp hf
      rw [Ring.put_of_full hf, Bool.not_true, if_neg (by decide), ih, Ring.room_eq]
      simp only [List.length_cons]
      omega
    | false =>
      have hsz := length_lt_of_not_full hf
      rw [Ring.length_toList] at hsz
      rw [Bool.not_false, if_pos rfl, List.length_cons, ih, Ring.room_eq, Ring.room_eq,
        Ring.size_put (by decide) hf]
      simp only [List.length_cons]
      omega

theorem length_putChars (cs : List Byte) (r : CharRing) :
    (putChars cs r).toList.length = min (r.toList.length + cs.length) 1023 := by
  have hlt : r.size < 1024 := r.size_lt
  rw [toList_putChars, List.length_append, length_acceptedChars, Ring.room_eq, Ring.length_toList]
  simp only [maxring]
  omega

def readable (cs : List (Option Byte)) : Nat := (cs.takeWhile Option.isSome).length

/-- The loop of `cantty_write` stops at a byte that cannot be read, if the
ring has room up to it, and else at the end of the buffer or of the room. -/
theorem writeChars_eq (cs : List (Option Byte)) (i : Int) (r : CharRing) :
    if readable cs < cs.length ∧ readable cs ≤ r.room then
      (writeChars cs i r).2 = -efault ∧
        (writeChars cs i r).1.toList.length = r.toList.length + readable cs
    else
      (writeChars cs i r).2 = i + min (readable cs) r.room ∧
        (writeChars cs i r).1.toList.length = r.toList.length + min (readable cs) r.room := by
  induction cs generalizing i r with
  | nil => simp [readable, writeChars]
  | cons c cs ih =>
    cases c with
    | none => simp [readable, writeChars]
    | some c =>
      have hrd : readable (some c :: cs) = readable cs + 1 := by simp [readable]
      rw [hrd, List.length_cons, writeChars, charToRing, Ring.put_snd]
      cases hf : r.full with
      | true =>
        have hsz := (Ring.full_iff r (by decide)).mp hf
        have hroom : r.room = 0 := by rw [Ring.room_eq]; omega
        simp [hroom]
      | false =>
        have hsz := length_lt_of_not_full hf
        rw [Ring.length_toList] at hsz
        have hroom : (r.put c).1.room + 1 = r.room := by
          rw [Ring.room_eq, Ring.room_eq, Ring.size_put (by decide) hf]
          omega
        have h := ih (i + 1) (r.put c).1
        simp only [Bool.not_false, if_true]
        rw [Ring.length_toList (r.put c).1, Ring.size_put (by decide) hf] at h
        rw [Ring.length_toList r, ← hroom]
        split_ifs at h ⊢ <;> omega

/-- What an event must find for the console to go on afterwards. -/
def Relieved (s : Node) : NodeOp → Prop
  | .ttyWrite stopped (some cs) =>
    canconUnconnected s.canconRmt = false → stopped = false → s.canconAckPending = false →
      if readable cs < cs.length ∧ readable cs ≤ s.canconOutbuf.room then readable cs = 0
      else consoleRoom s = true ∨ readable cs ≤ 4
  | .printk str =>
    canconUnconnected s.canconRmt = false → s.canconAckPending = false →
      consoleRoom s = true ∨ (expandNl str).length ≤ 4
  | .ackTimeout => canconUnconnected s.canconRmt = false → consoleRoom s = true
  | .bh => ∀ pkt q, ringToPkt s.inq = some (pkt, q) → isMypacket s.canNodeid pkt = true →
      forConsole pkt s = true → consoleRoom { s with inq := q } = true ∨
        (pkt.ext.type = .ack → s.canconAckPending = true ∧ s.canconOutbuf.toList.length ≤ 4) ∧
        (pkt.ext.type = .nak → s.canconAckPending = true)
  | _ => True

section Events

variable {s : Node}

theorem out_nil_of_idle (hs : ¬ Stalled s) (hc : canconUnconnected s.canconRmt = false)
    (hp : s.canconAckPending = false) : s.canconOutbuf.toList = [] :=
  by_contra fun hn => hs ⟨hc, hn, hp⟩

theorem not_stalled_of_unconnected (h : canconUnconnected s.canconRmt = true) : ¬ Stalled s :=
  fun hs => by
    have hc := hs.1
    rw [h] at hc
    cases hc

theorem stalled_queue_iff {r : CharRing} (hc : canconUnconnected s.canconRmt = false) :
    Stalled (canconSendNext { s with canconOutbuf := r }) ↔
      s.canconAckPending = false ∧ consoleRoom s = false ∧ 4 < r.toList.length := by
  by_cases hp : s.canconAckPending = true
  · have h := canconSendNext_of_pending (s := { s with canconOutbuf := r }) hc hp
    rw [h]
    refine iff_of_false (not_stalled_of_pending hp) fun hs => ?_
    rw [hp] at hs
    cases hs.1
  · have hp' : s.canconAckPending = false := by simpa using hp
    have h := stalled_sendNext_iff (s := { s with canconOutbuf := r }) hc hp'
    rw [h]
    simp only [hp', true_and]
    exact Iff.rfl

theorem stalled_printkWrite_iff {str : List Byte} (hs : ¬ Stalled s) :
    Stalled (canconPrintkWrite str s) ↔
      canconUnconnected s.canconRmt = false ∧ s.canconAckPending = false ∧
        consoleRoom s = false ∧ 4 < (expandNl str).length := by
  cases hc : canconUnconnected s.canconRmt with
  | true => simp [canconPrintkWrite, hc, hs]
  | false =>
    cases he : str.isEmpty with
    | true =>
      rw [List.isEmpty_iff] at he
      simp [canconPrintkWrite, he, hs, expandNl]
    | false =>
      have hk : canconPrintkWrite str s =
          canconSendNext { s with canconOutbuf := putPrintk str s.canconOutbuf } := by
        simp [canconPrintkWrite, hc, he]
      rw [hk, stalled_queue_iff hc, putPrintk_eq, length_putChars]
      simp only [true_and]
      refine and_congr_right fun hp => and_congr_right fun _ => ?_
      rw [out_nil_of_idle hs hc hp, List.length_nil]
      omega

theorem stalled_recvAck_of_message {timeout : Bool} {m : String}
    (hm : ackMessage timeout s.canconAckPending = some m)
    (h8 : 8 < (expandNl (messageBytes m)).length)
    (hc : canconUnconnected s.canconRmt = false) :
    Stalled (canconRecvAck timeout s) ↔ consoleRoom s = false := by
  have hne : (messageBytes m).isEmpty = false := by
    rw [Bool.eq_false_iff]
    intro he
    rw [List.isEmpty_iff.mp he] at h8
    exact absurd h8 (by simp [expandNl])
  have hk : printk m { s with ackTimer := false, canconAckPending := false } =
      canconSendNext
        { s with
          ackTimer := false, canconAckPending := false
          canconOutbuf := putPrintk (messageBytes m) s.canconOutbuf } := by
    simp [printk, canconPrintkWrite, hc, hne]
  rw [canconRecvAck_eq, hm, Option.elim_some, hk]
  refine stalled_sendNext_sendNext_iff hc rfl ?_
  simp only [putPrintk_eq, length_putChars]
  omega

theorem stalled_recvAck_of_expected (hp : s.canconAckPending = true)
    (hc : canconUnconnected s.canconRmt = false) :
    Stalled (canconRecvAck false s) ↔
      consoleRoom s = false ∧ 4 < s.canconOutbuf.toList.length := by
  rw [canconRecvAck_eq, hp]
  exact stalled_sendNext_iff (s := { s with ackTimer := false, canconAckPending := false }) hc rfl

theorem stalled_of_session_eq {u : Node} (h : u.session = s.session) : Stalled u ↔ Stalled s := by
  simp only [Node.session, Session.mk.injEq] at h
  rw [Stalled, Stalled, h.1, h.2.1, h.2.2.2.1]

theorem Switched.noStall {p : CanPacket} {u : Node} {l : List ConEvent} (h : Switched p s l u)
    (hq : Quiet s) (hs : ¬ Stalled s) : NoStall u := by
  intro hu
  cases h with
  | ignored => exact hs
  | answered _ _ =>
    rw [stalled_of_session_eq (canobjAcknak_session _ _ _ _)]
    exact hs
  | wrote _ =>
    have he := stalled_of_session_eq (canobjAcknak_session .ack p (some s.objVal) s)
    exact fun h => hs (he.mp h)
  | connected _ hc =>
    rw [stalled_of_session_eq (canobjAcknak_session _ _ _ _)]
    exact fun h => h.2.1 (hq hc).1
  | disconnected _ _ => exact fun h => h.2.1 (by simp [canttyHangup, clearRing])
  | broke _ _ => cases hu
  | received _ _ _ =>
    have he := canobjAcknak_session .ack p none s
    refine fun h => hs ((stalled_of_session_eq he).mp ?_)
    unfold canttyRecvDat canttyRecvPush at h
    split at h
    · exact h
    · split_ifs at h
      · exact h
      · exact h

theorem noStall_packet_iff {p : CanPacket} (hh : s.halted = false) (hq : Quiet s)
    (hs : ¬ Stalled s) :
    NoStall (canobjPacket p s).1 ↔ (forConsole p s = true → consoleRoom s = true ∨
      (p.ext.type = .ack → s.canconAckPending = true ∧ s.canconOutbuf.toList.length ≤ 4) ∧
      (p.ext.type = .nak → s.canconAckPending = true)) := by
  by_cases ha : p.ext.type.isAcknak = true
  · have hk : NoStall (canobjPacket p s).1 ↔ ¬ Stalled (canobjPacket p s).1 := by
      rw [NoStall, canobjPacket_halted_of_acknak ha, hh]
      simp
    rw [hk, canobjPacket_eq, canobjSwitch_of_acknak ha]
    cases hf : forConsole p s with
    | false => simp [hs]
    | true =>
      have hc : canconUnconnected s.canconRmt = false := by
        simp only [forConsole, Bool.and_eq_true, Bool.not_eq_true'] at hf
        exact hf.1
      simp only [if_true, canobjConsobj, true_implies]
      cases ht : p.ext.type with
      | ack =>
        simp only [true_implies, reduceCtorEq, false_implies, and_true]
        by_cases hp : s.canconAckPending = true
        · rw [stalled_recvAck_of_expected hp hc]
          simp only [hp, true_and]
          cases consoleRoom s <;> simp
        · have hp' : s.canconAckPending = false := by simpa using hp
          have hm : ackMessage false s.canconAckPending = some "can: unexpected ACK received\n" := by
            rw [hp']
            rfl
          rw [stalled_recvAck_of_message hm (by decide +kernel) hc]
          simp only [hp', Bool.false_eq_true, false_and, or_false]
          cases consoleRoom s <;> simp
      | nak =>
        have hl : 4 < (expandNl (messageBytes "can: consobj NAK - shouldn't happen\n")).length := by
          decide +kernel
        rw [printk, stalled_printkWrite_iff hs]
        simp only [hc, hl, true_and, and_true, true_implies, reduceCtorEq, false_implies]
        cases s.canconAckPending <;> cases consoleRoom s <;> simp
      | _ =>
        rw [ht] at ha
        cases ha
  · have hsw := (canobjSwitch_switched p s).noStall hq hs
    rw [canobjPacket_of_not_acknak (by simpa using ha)]
    refine iff_of_true hsw fun _ => .inr ⟨fun ht => ?_, fun ht => ?_⟩
    · rw [ht] at ha
      exact absurd rfl ha
    · rw [ht] at ha
      exact absurd rfl ha

theorem noStall_bh_iff {pkt : CanPacket} {q : PktRing} (hg : ringToPkt s.inq = some (pkt, q))
    (hh : s.halted = false) (hq : Quiet s) (hs : ¬ Stalled s) :
    NoStall (deliverPkt pkt { s with inq := q }).1 ↔ Relieved s .bh := by
  have hr : Relieved s .bh ↔ (isMypacket s.canNodeid pkt = true → forConsole pkt s = true →
      consoleRoom { s with inq := q } = true ∨
        (pkt.ext.type = .ack → s.canconAckPending = true ∧ s.canconOutbuf.toList.length ≤ 4) ∧
        (pkt.ext.type = .nak → s.canconAckPending = true)) := by
    simp only [Relieved, hg]
    exact ⟨fun h => h pkt q rfl, fun h pkt' q' he => by cases he; exact h⟩
  have hsess := deliverPkt_session pkt { s with inq := q }
  rw [hr]
  cases hm : isMypacket s.canNodeid pkt with
  | false =>
    simp only [hm, Bool.false_eq_true, if_false] at hsess
    simp only [Bool.false_eq_true, false_implies, iff_true]
    exact fun _ h => hs ((stalled_of_session_eq hsess).mp h)
  | true =>
    have hp := noStall_packet_iff (s := { s with inq := q }) (p := pkt) hh hq hs
    have hhalt : (deliverPkt pkt { s with inq := q }).1.halted =
        (canobjPacket pkt { s with inq := q }).1.halted := by
      simp only [deliverPkt, hm, if_true]
      split_ifs <;> rfl
    simp only [hm, if_true] at hsess
    rw [NoStall, stalled_of_session_eq hsess, hhalt]
    simp only [true_implies]
    exact hp

theorem room_of_nil {r : CharRing} (h : r.toList = []) : r.room = 1023 := by
  have hs : r.size = 0 := by rw [← Ring.length_toList, h, List.length_nil]
  rw [Ring.room_eq, hs]
  rfl

theorem canttyWrite_of_connected (hc : canconUnconnected s.canconRmt = false)
    (cs : List (Option Byte)) :
    (canttyWrite false (some cs) s).1 =
      if 0 < (writeChars cs 0 s.canconOutbuf).2 then
        canconSendNext { s with canconOutbuf := (writeChars cs 0 s.canconOutbuf).1 }
      else { s with canconOutbuf := (writeChars cs 0 s.canconOutbuf).1 } := by
  simp only [canttyWrite, hc, Bool.false_eq_true, if_false]

theorem stalled_write_iff {cs : List (Option Byte)} (hs : ¬ Stalled s)
    (hc : canconUnconnected s.canconRmt = false) :
    Stalled (canttyWrite false (some cs) s).1 ↔
      s.canconAckPending = false ∧
        if readable cs < cs.length ∧ readable cs ≤ s.canconOutbuf.room then readable cs ≠ 0
        else consoleRoom s = false ∧ 4 < readable cs := by
  have hw := writeChars_eq cs 0 s.canconOutbuf
  rw [canttyWrite_of_connected hc]
  by_cases hf : readable cs < cs.length ∧ readable cs ≤ s.canconOutbuf.room
  · -- the fault leaves the characters before it and sends nothing
    rw [if_pos hf] at hw ⊢
    rw [if_neg (by rw [hw.1]; decide)]
    constructor
    · rintro ⟨_, hn, hp⟩
      refine ⟨hp, fun hk => hn (List.length_eq_zero_iff.mp ?_)⟩
      rw [hw.2, hk, out_nil_of_idle hs hc hp]
      rfl
    · rintro ⟨hp, hk⟩
      refine ⟨hc, fun hn => hk ?_, hp⟩
      have hlen := hw.2
      rw [hn, List.length_nil] at hlen
      omega
  · rw [if_neg hf] at hw ⊢
    by_cases h₀ : 0 < (writeChars cs 0 s.canconOutbuf).2
    · rw [if_pos h₀, stalled_queue_iff hc, hw.2]
      refine and_congr_right fun hp => and_congr_right fun _ => ?_
      have hn := out_nil_of_idle hs hc hp
      rw [room_of_nil hn, hn, List.length_nil]
      omega
    · rw [if_neg h₀]
      rw [hw.1] at h₀
      constructor
      · rintro ⟨_, hn, hp⟩
        refine absurd (List.length_eq_zero_iff.mp ?_) hn
        rw [hw.2, out_nil_of_idle hs hc hp, List.length_nil]
        omega
      · rintro ⟨hp, _, h4⟩
        rw [room_of_nil (out_nil_of_idle hs hc hp)] at h₀
        omega

theorem noStall_write_iff {stopped : Bool} {buf : Option (List (Option Byte))}
    (hs : ¬ Stalled s) :
    ¬ Stalled (canttyWrite stopped buf s).1 ↔ Relieved s (.ttyWrite stopped buf) := by
  cases buf with
  | none =>
    simp only [canttyWrite, Relieved, iff_true]
    split_ifs <;> exact hs
  | some cs =>
    cases hc : canconUnconnected s.canconRmt with
    | true => simp [canttyWrite, Relieved, hc, hs]
    | false =>
      cases stopped with
      | true => simp [canttyWrite, Relieved, hc, hs]
      | false =>
        rw [stalled_write_iff hs hc]
        simp only [Relieved, hc, true_implies, not_and]
        refine imp_congr_right fun _ => ?_
        split_ifs
        · exact not_not
        · cases consoleRoom s <;> simp

theorem canttyWrite_halted (stopped : Bool) (buf : Option (List (Option Byte))) (s : Node) :
    (canttyWrite stopped buf s).1.halted = s.halted := by
  cases buf with
  | none =>
    simp only [canttyWrite]
    split_ifs <;> rfl
  | some cs =>
    simp only [canttyWrite]
    split_ifs
    · rfl
    · rfl
    · exact (canconSendNext_prints _).halted
    · rfl

theorem Node.step_timer {u : Node} {op : NodeOp} (h : s.step op = some u) (hq : Quiet s)
    (ht : s.ackTimer = s.canconAckPending) : u.ackTimer = u.canconAckPending := by
  have hp : Path Session.Step s.session (consoleLog s op) u.session := Node.step_logs h hq
  refine hp.invariant (P := fun x => x.timer = x.pending) ht ?_
  intro x e y hx hs
  cases hs <;> first | exact hx | rfl

/-- One event of a console that is not stalled. -/
theorem noStall_step_iff {u : Node} {op : NodeOp} (h : s.step op = some u) (hq : Quiet s)
    (ht : s.ackTimer = s.canconAckPending) (hs : NoStall s) : NoStall u ↔ Relieved s op := by
  obtain ⟨hh, hact⟩ := Node.step_eq_some h
  replace hs := hs hh
  -- but for a dispatch nothing halts the machine
  have halt : u.halted = false → (NoStall u ↔ ¬ Stalled u) := fun hu => by simp [NoStall, hu]
  cases op with
  | ttyWrite stopped buf =>
    cases hact
    rw [halt ((canttyWrite_halted stopped buf s).trans hh), noStall_write_iff hs]
  | ttyPutChar ch =>
    cases hact
    rw [halt ((canconSendNext_prints _).halted.trans hh)]
    refine iff_of_true (fun hst => ?_) trivial
    by_cases hc : canconUnconnected s.canconRmt = true
    · have hr : (canttyPutChar ch s).canconRmt = s.canconRmt := (canconSendNext_prints _).canconRmt
      exact not_stalled_of_unconnected (by rw [hr, hc]) hst
    · have hc' : canconUnconnected s.canconRmt = false := by simpa using hc
      obtain ⟨hp, _, h4⟩ := (stalled_queue_iff hc').mp hst
      have hn := out_nil_of_idle hs hc' hp
      have hl : (charToRing ch s.canconOutbuf).1 = putChars [ch] s.canconOutbuf := rfl
      rw [hl, length_putChars, hn, List.length_nil, List.length_singleton] at h4
      omega
  | ttyFlushBuffer =>
    cases hact
    exact iff_of_true (fun _ hst => hst.2.1 (Ring.toList_clear _)) trivial
  | printk str =>
    cases hact
    rw [halt ((canconPrintkWrite_prints str s).halted.trans hh), stalled_printkWrite_iff hs]
    simp only [Relieved]
    cases canconUnconnected s.canconRmt <;> cases s.canconAckPending <;> cases consoleRoom s <;>
      simp
  | ackTimeout =>
    obtain ⟨harm, rfl⟩ := Node.act_ackTimeout hact
    have hp : s.canconAckPending = true := ht ▸ harm
    rw [halt ((canconRecvAck_prints true _).halted.trans hh)]
    simp only [Relieved, ackTimerRun]
    by_cases hc : canconUnconnected s.canconRmt = true
    · have hr : (canconRecvAck true { s with ackTimer := false }).canconRmt = s.canconRmt :=
        (canconRecvAck_prints true _).canconRmt
      simp only [hc, Bool.true_eq_false, false_implies, iff_true]
      exact not_stalled_of_unconnected (by rw [hr, hc])
    · have hc' : canconUnconnected s.canconRmt = false := by simpa using hc
      have hm : ackMessage true s.canconAckPending = some "can: consobj ACK timed out\n" := by
        rw [hp]
        rfl
      have hst := stalled_recvAck_of_message (s := { s with ackTimer := false }) hm
        (by decide +kernel) hc'
      rw [hst]
      simp only [hc', true_implies, Bool.not_eq_false]
      exact Iff.rfl
  | bh =>
    obtain ⟨pkt, q, hg, rfl⟩ := bhRound_eq_some hact
    exact noStall_bh_iff hg hh hq hs
  | sendPkt pkt =>
    cases hact
    exact iff_of_true (fun _ h => hs ((stalled_of_session_eq (sendPkt_session pkt s)).mp h)) trivial
  | sendPktNoOutFixup pkt =>
    cases hact
    exact iff_of_true
      (fun _ h => hs ((stalled_of_session_eq (sendPktNoOutFixup_session pkt s)).mp h)) trivial
  | tryRecv pkts =>
    cases hact
    exact iff_of_true (fun _ h => hs ((stalled_of_session_eq (tryRecv_session pkts s)).mp h)) trivial
  | tryXmit =>
    cases hact
    exact iff_of_true (fun _ h => hs ((stalled_of_session_eq (tryXmit_session s)).mp h)) trivial
  | _ =>
    cases hact
    exact iff_of_true (fun _ => hs) trivial

end Events

/-- Console output never stalls exactly in the runs whose events all find what
they need. -/
theorem console_never_stalls {n : Node} {tr : List (Node × NodeOp)} {u : Node}
    (h : Run NodeStep (canInit n) tr u) :
    ((∀ x ∈ tr, NoStall x.1) ∧ NoStall u) ↔ ∀ x ∈ tr, Relieved x.1 x.2 := by
  have hinit := canInit_session n
  simp only [Node.session, Session.start, Session.mk.injEq] at hinit
  have hi : ∀ t l v, (Quiet t ∧ t.ackTimer = t.canconAckPending) → NodeStep t l v →
      Quiet v ∧ v.ackTimer = v.canconAckPending := fun t l v hi hs =>
    ⟨Node.step_quiet hs hi.1, Node.step_timer hs hi.1 hi.2⟩
  have h0 : Quiet (canInit n) ∧ (canInit n).ackTimer = (canInit n).canconAckPending :=
    ⟨canInit_quiet n, by rw [hinit.2.2.2.1, hinit.2.2.2.2]⟩
  obtain ⟨hall, hlast⟩ := h.invariant_all h0 hi
  have hiff := h.forall_ok_iff
    (P := fun s => (Quiet s ∧ s.ackTimer = s.canconAckPending) ∧ NoStall s)
    ⟨h0, fun _ hs => hs.2.1 hinit.2.1⟩
    fun t l v ht hs => by
      rw [and_iff_right (hi t l v ht.1 hs)]
      exact noStall_step_iff hs ht.1.1 ht.1.2 ht.2
  rw [← hiff]
  constructor
  · exact fun hn => ⟨fun x hx => ⟨hall x hx, hn.1 x hx⟩, hlast, hn.2⟩
  · exact fun hn => ⟨fun x hx => (hn.1 x hx).2, hn.2.2⟩

theorem console_never_stalls_line :
    ∃ tr u, Run NodeStep (canInit hosted) tr u ∧ u.canconOutbuf.toList ≠ [] ∧ NoStall u := by
  obtain ⟨tr, u, hr, _, hok, hg⟩ := exists_run_of_any (f := Node.step) (s := canInit hosted)
    (fun s op => match op with
      | .printk _ => consoleRoom s
      | _ => false)
    [.printk [0x61, 0x62, 0x63, 0x64, 0x65]] (fun u => u.canconOutbuf.toList ≠ [])
    (by decide +kernel)
  refine ⟨tr, u, hr, of_decide_eq_true hg, ((console_never_stalls hr).mpr ?_).2⟩
  rintro ⟨s, op⟩ hx
  have hop := hok _ hx
  cases op with
  | printk str => exact fun _ _ => .inl hop
  | _ => cases hop

theorem tryXmitLoop_of_busy {s : Node} (h : s.xmitAvail = false) (k : Nat) :
    tryXmitLoop k s = s := by
  cases k with
  | zero => rfl
  | succ k => simp [tryXmitLoop, h]

theorem sendPkt_of_busy {pkt : CanPacket} {s : Node} (hm : isMypacket s.canNodeid pkt = false)
    (hf : s.outq.full = false) (hx : s.xmitAvail = false) :
    (sendPkt pkt s).1.outq.size = s.outq.size + 1 ∧ (sendPkt pkt s).1.xmitAvail = false := by
  have hm' : isMypacket s.canNodeid (incomingFixup s.jiffies (outgoingFixup s.canNodeid pkt)) =
      false := hm
  have hsz := fun p : CanPacket => Ring.size_put (by decide : 1 < maxring) hf p
  have hsnd := fun p : CanPacket => Ring.put_snd p s.outq
  simp only [sendPkt, sendPktNoOutFixup, enqueue, hm', putInq, putOutq, pktToRing, hsnd, hf,
    Bool.not_false, if_true, Bool.false_eq_true, if_false, tryXmit, record]
  split_ifs
  · rw [tryXmitLoop_of_busy (by exact hx)]
    exact ⟨hsz _, hx⟩
  · rw [tryXmitLoop_of_busy (by exact hx)]
    exact ⟨hsz _, hx⟩

def toNode3 : CanPacket := ⟨0, ⟨0, 3, 0, 0, 8⟩, ⟨0, .wna, 0, 0, 3, Canobj.heartbeat⟩, 0⟩

theorem exists_run_outq (k : Nat) (hk : k ≤ 1023) :
    ∃ tr u, Run NodeStep (canInit hosted) tr u ∧ u.outq.size = k ∧ u.xmitAvail = false ∧
      u.session = (canInit hosted).session ∧ u.canNodeid = 1 ∧ u.halted = false := by
  induction k with
  | zero =>
    have hst : NodeStep (canInit hosted) (.sendPkt toNode3) (sendPkt toNode3 (canInit hosted)).1 :=
      rfl
    exact ⟨_, _, Run.nil.snoc hst, by decide +kernel, by decide +kernel, sendPkt_session _ _,
      by decide +kernel, by decide +kernel⟩
  | succ k ih =>
    obtain ⟨tr, u, hr, hsz, hx, hsess, hid, hh⟩ := ih (by omega)
    have hf : u.outq.full = false := by
      rw [Bool.eq_false_iff, Ne, Ring.full_iff u.outq (by decide), hsz]
      simp only [maxring]
      omega
    have hm : isMypacket u.canNodeid toNode3 = false := by
      rw [hid]
      decide
    have hst : NodeStep u (.sendPkt toNode3) (sendPkt toNode3 u).1 := by
      simp [NodeStep, Node.step, hh, Node.act]
    have he := sendPkt_emits toNode3 u
    obtain ⟨h₁, h₂⟩ := sendPkt_of_busy hm hf hx
    exact ⟨_, _, hr.snoc hst, by rw [h₁, hsz], h₂, (sendPkt_session _ _).trans hsess,
      he.canNodeid.trans hid, he.halted.trans hh⟩

/-- The chip is busy and `outq` full when five characters are printed. -/
theorem full_outq_stalls :
    ∃ tr u, Run NodeStep (canInit hosted) tr u ∧ u.halted = false ∧ Stalled u := by
  obtain ⟨tr, u, hr, hsz, _, hsess, hid, hh⟩ := exists_run_outq 1023 (Nat.le_refl _)
  have hfull : u.outq.full = true := (Ring.full_iff u.outq (by decide)).mpr (by rw [hsz])
  simp only [Node.session, Session.mk.injEq] at hsess
  obtain ⟨hrmt, hout, _, hpend, _⟩ := hsess
  have hdest : isMypacket u.canNodeid (consolePkt u []) = false := by
    simp only [isMypacket, consolePkt, hid, hrmt]
    decide +kernel
  have hroom : consoleRoom u = false := by simp [consoleRoom, hdest, hfull]
  have hc : canconUnconnected u.canconRmt = false := by
    rw [hrmt]
    decide +kernel
  have hp : u.canconAckPending = false := by
    rw [hpend]
    decide +kernel
  have hn : u.canconOutbuf.toList = [] := by
    rw [hout]
    decide +kernel
  have hst : NodeStep u (.printk [0x61, 0x62, 0x63, 0x64, 0x65])
      (canconPrintkWrite [0x61, 0x62, 0x63, 0x64, 0x65] u) := by
    simp [NodeStep, Node.step, hh, Node.act]
  refine ⟨_, _, hr.snoc hst, (canconPrintkWrite_prints _ u).halted.trans hh, ?_⟩
  rw [stalled_printkWrite_iff fun hs => hs.2.1 hn]
  exact ⟨hc, hp, hroom, by decide⟩

end MeikoCs2
