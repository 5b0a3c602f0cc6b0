import MeikoCs2.Network

/-! From the keyboard to the node: `send_dat` over a link that loses DAT packets
and their ACKs. A DAT carries no sequence number, so the node takes a repeated
one for new characters. -/

namespace MeikoCs2

def Node.received (n : Node) : List Byte :=
  (n.ttyp.elim [] Tty.flip) ++ n.canconInbuf.toList

theorem canttyRecvDat_received (cs : List Byte) (n : Node) :
    (canttyRecvDat cs n).received = n.received ++ acceptedChars cs n.canconInbuf := by
  have hput := toList_putChars cs n.canconInbuf
  unfold canttyRecvDat canttyRecvPush
  split
  · rename_i ht
    simp only [Node.received, hput, List.append_assoc]
  · rename_i tty ht
    split_ifs
    · simp only [Node.received, hput, List.append_assoc]
    · simp only at ht
      simp only [Node.received, ht, Option.elim_some, List.append_assoc, takeChars_append, hput]

def entering (pkt : CanPacket) (n : Node) : List Byte :=
  if pkt.ext.object = 0 ∧ pkt.ext.type = .dat ∧ canconUnconnected n.canconRmt = false then
    acceptedChars (recvChars pkt n) n.canconInbuf
  else []

structure IsConsoleDat (pkt : CanPacket) (n : Node) : Prop where
  object : pkt.ext.object = 0
  type : pkt.ext.type = .dat
  connected : canconUnconnected n.canconRmt = false

theorem canobjPacket_consoleDat {pkt : CanPacket} {n : Node} (h : IsConsoleDat pkt n) :
    (canobjPacket pkt n).1 =
      canttyRecvDat (recvChars pkt n) (canobjAcknak .ack pkt none n) := by
  have ha : pkt.ext.type.ackable = true := by
    rw [h.type]
    rfl
  rw [canobjPacket_of_ackable ha, canobjSwitch_dat h.object, canobjDat, h.connected, h.type]
  rfl

theorem replies_consoleDat {pkt : CanPacket} {n : Node} (h : IsConsoleDat pkt n) :
    replies pkt n = [fixup n (acknakPkt .ack pkt none)] := by
  rw [replies, canobjPacket_consoleDat h, (canttyRecvDat_owns _ _).acknaks,
    acknaks_canobjAcknak rfl, List.drop_left]

theorem received_consoleDat {pkt : CanPacket} {n : Node} (h : IsConsoleDat pkt n) :
    (canobjPacket pkt n).1.received = n.received ++ entering pkt n := by
  have he := canobjAcknak_emits .ack pkt none n
  rw [canobjPacket_consoleDat h, canttyRecvDat_received, entering,
    if_pos ⟨h.object, h.type, h.connected⟩, he.canconInbuf]
  simp only [Node.received, he.ttyp, he.canconInbuf]

/-- What becomes of a transmission: the packet is lost, its answer is lost, or
both arrive. -/
inductive Fate where
  | lost | unanswered | answered
  deriving DecidableEq

/-- A cancon and its node. `arrivals` records what has entered the input
buffer, packet by packet, and whether the answer arrived; `overflowed` whether
a packet found too little room. -/
structure Link where
  node : Node
  ackbuf : List (AckPkt Unit)
  consoleObject : CanHeaderExt
  sent : Nat
  arrivals : List (List Byte × Bool)
  overflowed : Bool

def Link.entered (s : Link) : List Byte := s.arrivals.flatMap Prod.fst

section Link

variable (fate : Nat → Fate) (tty : Nat → Option Tty) (c : Config)

/-- The node as the next transmission finds it. Between two of them the tty
does what it likes with the flip buffer. -/
def Link.nodeAt (s : Link) : Node := { s.node with ttyp := tty s.sent }

def Link.transmit (pkt : CanPacket) (s : Link) : Link :=
  let n := s.nodeAt tty
  let s₁ := { s with sent := s.sent + 1 }
  match fate s.sent with
  | .lost => s₁
  | f =>
    let o : Origin Unit := ⟨nodeAddr c.nodeid, some (), s.sent, pkt⟩
    { s₁ with
      node := (canobjPacket pkt n).1.flush
      ackbuf := if f = .answered then
          (replies pkt n).foldl (fun b r => signalAcknak ⟨pkt.ext.addr, o.node, r, o⟩ b) s.ackbuf
        else s.ackbuf
      arrivals := s.arrivals ++ [(entering pkt n, decide (f = .answered))]
      overflowed := s.overflowed || n.canconInbuf.room < (recvChars pkt n).length }

/-- The operations of a thread on the link. A wait ends with what has arrived,
or else with a timeout. -/
def Link.perform : (o : CanOp) → Link → CanOp.Res o × Link
  | .canSend ext dat len, s => ((), s.transmit fate tty c (canSendPkt c.nodeid c.stack ext dat len))
  | .waitforAcknak t d, s =>
    (((scanAckbuf t s.ackbuf).map fun e => (Acknak.ofType e.ext.type, e.dat)).getD (.timedout, d),
      { s with ackbuf := [] })
  | .canRecvAck _, s => (none, s)
  | .setConsoleObject ext, s => ((), { s with consoleObject := ext })
  | .getConsoleObject, s => (s.consoleObject, s)

def sendDatAck (buf : List Byte) : CanProg Acknak := do
  let r ← send (loadExtCh c.stack.ext.xpriority .dat 0 c.targetCh)
    (some (copyBytes buf c.stack.dat)) buf.length 0
  pure r.1

theorem exec_sendDat (buf : List Byte) (s : Link) :
    (sendDat c buf).exec (Link.perform fate tty c) s =
      ((), ((sendDatAck c buf).exec (Link.perform fate tty c) s).2) := by
  simp only [sendDat, sendDatAck, Prog.exec_bind]
  rfl

/-- The loop of `writer`, with the batches that `waitfor_outchars` will return. -/
def writerLoop : List (List Byte) → CanProg Int
  | [] => pure 0
  | buf :: bufs => do
    sendDat c buf
    writerLoop bufs

/-- The same, with what `send` has returned for each batch. -/
def writer : List (List Byte) → CanProg (List (List Byte × Acknak))
  | [] => pure []
  | buf :: bufs => do
    let r ← sendDatAck c buf
    let rs ← writer bufs
    pure ((buf, r) :: rs)

theorem exec_writerLoop (bufs : List (List Byte)) (s : Link) :
    (writerLoop c bufs).exec (Link.perform fate tty c) s =
      (0, ((writer c bufs).exec (Link.perform fate tty c) s).2) := by
  induction bufs generalizing s with
  | nil => rfl
  | cons buf bufs ih =>
    simp only [writerLoop, writer, Prog.exec_bind, exec_sendDat, ih]
    rfl

variable {fate tty c}

structure Ready (s : Link) : Prop where
  connected : canconUnconnected s.node.canconRmt = false
  ackbuf : s.ackbuf = []

def datPkt (c : Config) (buf : List Byte) : CanPacket :=
  canSendPkt c.nodeid c.stack (loadExtCh c.stack.ext.xpriority .dat 0 c.targetCh)
    (some (copyBytes buf c.stack.dat)) buf.length

theorem recvChars_datPkt {buf : List Byte} (h : buf.length ≤ 4) (n : Node) :
    recvChars (datPkt c buf) n = buf := by
  have hlen : (datPkt c buf).can.length.toNat - 4 = buf.length := by
    simp only [datPkt, canSendPkt, BitVec.toNat_ofNat]
    omega
  rw [recvChars, hlen]
  cases buf with
  | nil => rfl
  | cons b bs =>
    conv_rhs => rw [← copyBytes_bytes c.stack.dat h]
    refine List.map_congr_left fun i hi => ?_
    have hi' := List.mem_range.mp hi
    rw [if_pos (by omega)]
    rfl

theorem overflowed_perform (o : CanOp) (s : Link) (h : s.overflowed = true) :
    (Link.perform fate tty c o s).2.overflowed = true := by
  cases o with
  | canSend ext dat len =>
    simp only [Link.perform, Link.transmit]
    split <;> simp [h]
  | _ => exact h

theorem Ready.isConsoleDat {s : Link} (hs : Ready s) (buf : List Byte) :
    IsConsoleDat (datPkt c buf) (s.nodeAt tty) := ⟨rfl, rfl, hs.connected⟩

theorem entering_datPkt {s : Link} (hs : Ready s) {buf : List Byte} (hb : buf.length ≤ 4)
    (hroom : buf.length ≤ s.node.canconInbuf.room) :
    entering (datPkt c buf) (s.nodeAt tty) = buf := by
  have h : IsConsoleDat (datPkt c buf) (s.nodeAt tty) := hs.isConsoleDat buf
  rw [entering, if_pos ⟨h.object, h.type, h.connected⟩, recvChars_datPkt hb]
  exact acceptedChars_of_room hroom

theorem transmit_of_ne_lost {s : Link} (hf : fate s.sent ≠ .lost) (pkt : CanPacket) :
    (s.transmit fate tty c pkt).node = (canobjPacket pkt (s.nodeAt tty)).1.flush ∧
    (s.transmit fate tty c pkt).arrivals =
      s.arrivals ++ [(entering pkt (s.nodeAt tty), decide (fate s.sent = .answered))] ∧
    (s.transmit fate tty c pkt).overflowed = (s.overflowed ||
      decide ((s.nodeAt tty).canconInbuf.room < (recvChars pkt (s.nodeAt tty)).length)) := by
  unfold Link.transmit
  cases h : fate s.sent with
  | lost => exact absurd h hf
  | unanswered => exact ⟨rfl, rfl, rfl⟩
  | answered => exact ⟨rfl, rfl, rfl⟩

theorem transmit_arrives {s : Link} (hs : Ready s) {buf : List Byte} (hb : buf.length ≤ 4)
    (hf : fate s.sent ≠ .lost) (hov : (s.transmit fate tty c (datPkt c buf)).overflowed = false) :
    canconUnconnected (s.transmit fate tty c (datPkt c buf)).node.canconRmt = false ∧
    (s.transmit fate tty c (datPkt c buf)).arrivals =
      s.arrivals ++ [(buf, decide (fate s.sent = .answered))] := by
  obtain ⟨hn, harr, hover⟩ := @transmit_of_ne_lost fate tty c s hf (datPkt c buf)
  have hflush : ∀ n : Node, n.flush.canconRmt = n.canconRmt := fun _ => rfl
  have hrmt : (canobjPacket (datPkt c buf) (s.nodeAt tty)).1.canconRmt = s.node.canconRmt := by
    rw [canobjPacket_rmt]
    rfl
  have hroom : (s.nodeAt tty).canconInbuf.room = s.node.canconInbuf.room := rfl
  rw [hover, Bool.or_eq_false_iff, recvChars_datPkt hb, decide_eq_false_iff_not, hroom] at hov
  rw [hn, harr, hflush, hrmt, entering_datPkt hs hb (by omega)]
  exact ⟨hs.connected, rfl⟩

theorem scanAckbuf_transmit {s : Link} (hs : Ready s) (buf : List Byte) :
    (scanAckbuf (loadExtCh c.stack.ext.xpriority .dat 0 c.targetCh)
      (s.transmit fate tty c (datPkt c buf)).ackbuf).map (fun e => e.ext.type) =
      if fate s.sent = .answered then some .ack else none := by
  cases hf : fate s.sent with
  | lost => simp [Link.transmit, hf, hs.ackbuf, scanAckbuf]
  | unanswered => simp [Link.transmit, hf, hs.ackbuf, scanAckbuf]
  | answered =>
    have h : IsConsoleDat (datPkt c buf) (s.nodeAt tty) := hs.isConsoleDat buf
    have hr := replies_consoleDat h
    have hour : isOurAcknak (acknakPkt .ack (datPkt c buf) none).ext
        (loadExtCh c.stack.ext.xpriority .dat 0 c.targetCh) = true :=
      (isOurAcknak_iff _ _).mpr ⟨rfl, rfl⟩
    simp [Link.transmit, hf, hr, hs.ackbuf, signalAcknak, scanAckbuf]
    exact ⟨hour, rfl⟩

def arrival (f : Fate) (buf : List Byte) : List (List Byte × Bool) :=
  if f = .lost then [] else [(buf, decide (f = .answered))]

def Link.tryDat (fate : Nat → Fate) (tty : Nat → Option Tty) (c : Config) (buf : List Byte)
    (ack : CanDat) (s : Link) : (Acknak × CanDat) × Link :=
  Link.perform fate tty c (.waitforAcknak (loadExtCh c.stack.ext.xpriority .dat 0 c.targetCh) ack)
    (s.transmit fate tty c (datPkt c buf))

theorem tryDat_spec {s : Link} (hs : Ready s) {buf : List Byte} (hb : buf.length ≤ 4) {d : CanDat}
    (hov : (s.tryDat fate tty c buf d).2.overflowed = false) :
    Ready (s.tryDat fate tty c buf d).2 ∧
    (s.tryDat fate tty c buf d).2.arrivals = s.arrivals ++ arrival (fate s.sent) buf ∧
    (s.tryDat fate tty c buf d).1.1 = if fate s.sent = .answered then .ack else .timedout := by
  have hscan := @scanAckbuf_transmit fate tty c s hs buf
  have hres : ∀ o : Option (AckPkt Unit),
      o.map (fun e => e.ext.type) = (if fate s.sent = .answered then some .ack else none) →
      ((o.map fun e => (Acknak.ofType e.ext.type, e.dat)).getD (.timedout, d)).1 =
        if fate s.sent = .answered then .ack else .timedout := by
    intro o ho
    cases o with
    | none => split_ifs at ho ⊢ <;> simp_all
    | some e => split_ifs at ho ⊢ <;> simp_all [Acknak.ofType]
  by_cases hf : fate s.sent = .lost
  · refine ⟨⟨?_, rfl⟩, ?_, hres _ hscan⟩
    · simp [Link.tryDat, Link.perform, Link.transmit, hf, hs.connected]
    · simp [Link.tryDat, Link.perform, Link.transmit, hf, arrival]
  · obtain ⟨h₁, h₂⟩ := transmit_arrives hs hb hf hov
    refine ⟨⟨h₁, rfl⟩, ?_, hres _ hscan⟩
    rw [arrival, if_neg hf]
    exact h₂

def datLoop (c : Config) (buf : List Byte) (k : Nat) (ack : CanDat) : CanProg (Acknak × CanDat) :=
  mysendLoop (loadExtCh c.stack.ext.xpriority .dat 0 c.targetCh)
    (some (copyBytes buf c.stack.dat)) buf.length k ack

theorem exec_datLoop_succ (buf : List Byte) (k : Nat) (ack : CanDat) (s : Link) :
    (datLoop c buf (k + 1) ack).exec (Link.perform fate tty c) s =
      if (s.tryDat fate tty c buf ack).1.1 = .ack then s.tryDat fate tty c buf ack
      else (datLoop c buf k (s.tryDat fate tty c buf ack).1.2).exec (Link.perform fate tty c)
        (s.tryDat fate tty c buf ack).2 := by
  have hrest : ∀ (r : Acknak × CanDat) (u : Link),
      (if r.1 = .ack then pure r else datLoop c buf k r.2 : CanProg (Acknak × CanDat)).exec
        (Link.perform fate tty c) u =
      if r.1 = .ack then (r, u) else (datLoop c buf k r.2).exec (Link.perform fate tty c) u := by
    intro r u
    split_ifs <;> rfl
  exact hrest _ _

/-- The record of a call with `k` arrivals whose answer was lost. -/
def callArrivals (x : List Byte × Acknak) (k : Nat) : List (List Byte × Bool) :=
  List.replicate k (x.1, false) ++ if x.2 = .ack then [(x.1, true)] else []

theorem callArrivals_add {buf : List Byte} {a : Acknak} (ha : a ≠ .ack) (b : Acknak) (j k : Nat) :
    callArrivals (buf, a) j ++ callArrivals (buf, b) k = callArrivals (buf, b) (j + k) := by
  simp only [callArrivals, if_neg ha, List.append_nil]
  rw [← List.append_assoc, List.replicate_append_replicate]

theorem exists_arrival (f : Fate) (buf : List Byte) :
    ∃ j, arrival f buf = callArrivals (buf, if f = .answered then .ack else .timedout) j := by
  cases f with
  | lost => exact ⟨0, rfl⟩
  | unanswered => exact ⟨1, rfl⟩
  | answered => exact ⟨0, rfl⟩

theorem overflowed_exec {α : Type} (t : CanProg α) {s : Link}
    (h : (t.exec (Link.perform fate tty c) s).2.overflowed = false) : s.overflowed = false := by
  rw [← Bool.not_eq_true]
  intro hs
  have := @Prog.exec_invariant _ _ _ _ (Link.perform fate tty c) (fun s => s.overflowed = true)
    overflowed_perform t s hs
  rw [h] at this
  cases this

theorem tryDat_arrivals {buf : List Byte} (hb : buf.length ≤ 4) {s : Link} (hs : Ready s)
    {ack : CanDat} (hov : (s.tryDat fate tty c buf ack).2.overflowed = false) :
    Ready (s.tryDat fate tty c buf ack).2 ∧
    ∃ j, (s.tryDat fate tty c buf ack).2.arrivals =
      s.arrivals ++ callArrivals (buf, (s.tryDat fate tty c buf ack).1.1) j := by
  obtain ⟨h₁, h₂, h₃⟩ := tryDat_spec hs hb hov
  obtain ⟨j, hj⟩ := exists_arrival (fate s.sent) buf
  exact ⟨h₁, j, by rw [h₂, hj, h₃]⟩

theorem datLoop_spec {buf : List Byte} (hb : buf.length ≤ 4) (k : Nat) {s : Link} (hs : Ready s)
    (ack : CanDat)
    (hov : ((datLoop c buf k ack).exec (Link.perform fate tty c) s).2.overflowed = false) :
    Ready ((datLoop c buf k ack).exec (Link.perform fate tty c) s).2 ∧
    ∃ j, ((datLoop c buf k ack).exec (Link.perform fate tty c) s).2.arrivals = s.arrivals ++
      callArrivals (buf, ((datLoop c buf k ack).exec (Link.perform fate tty c) s).1.1) j := by
  induction k generalizing s ack with
  | zero => exact tryDat_arrivals hb hs hov
  | succ k ih =>
    rw [exec_datLoop_succ] at hov ⊢
    split_ifs at hov ⊢ with hack
    · exact tryDat_arrivals hb hs hov
    · obtain ⟨h₁, j, hj⟩ := tryDat_arrivals hb hs (overflowed_exec _ hov)
      obtain ⟨h₂, j', hj'⟩ := ih h₁ _ hov
      exact ⟨h₂, j + j', by rw [hj', hj, List.append_assoc, callArrivals_add hack]⟩

theorem sendDatAck_spec {buf : List Byte} (hb : buf.length ≤ 4) {s : Link} (hs : Ready s)
    (hov : ((sendDatAck c buf).exec (Link.perform fate tty c) s).2.overflowed = false) :
    let w := (sendDatAck c buf).exec (Link.perform fate tty c) s
    Ready w.2 ∧ ∃ j, w.2.arrivals = s.arrivals ++ callArrivals (buf, w.1) j := by
  simp only [sendDatAck, Prog.exec_bind] at hov ⊢
  exact datLoop_spec hb _ hs 0 hov

theorem writer_spec {bufs : List (List Byte)} (hb : ∀ buf ∈ bufs, buf.length ≤ 4) {s : Link}
    (hs : Ready s)
    (hov : ((writer c bufs).exec (Link.perform fate tty c) s).2.overflowed = false) :
    let w := (writer c bufs).exec (Link.perform fate tty c) s
    w.1.map Prod.fst = bufs ∧ ∃ ks : List Nat, ks.length = w.1.length ∧
      w.2.arrivals = s.arrivals ++ (List.zipWith callArrivals w.1 ks).flatten := by
  induction bufs generalizing s with
  | nil => exact ⟨rfl, [], rfl, (List.append_nil _).symm⟩
  | cons buf bufs ih =>
    simp only [writer, Prog.exec_bind] at hov ⊢
    obtain ⟨h₁, j, hj⟩ := sendDatAck_spec (hb buf List.mem_cons_self) hs (overflowed_exec _ hov)
    obtain ⟨h₂, ks, hlen, hks⟩ := ih (fun b hm => hb b (List.mem_cons_of_mem _ hm)) h₁ hov
    refine ⟨congrArg (buf :: ·) h₂, j :: ks, congrArg (· + 1) hlen, ?_⟩
    refine hks.trans ?_
    rw [hj, List.append_assoc]
    rfl

def ackedPayloads (rs : List (List Byte × Acknak)) : List Byte :=
  (rs.filter fun r => r.2 = .ack).flatMap Prod.fst

theorem flatMap_answered {rs : List (List Byte × Acknak)} {ks : List Nat}
    (h : ks.length = rs.length) :
    ((List.zipWith callArrivals rs ks).flatten.filter Prod.snd).flatMap Prod.fst =
      ackedPayloads rs := by
  induction rs generalizing ks with
  | nil => rfl
  | cons r rs ih =>
    cases ks with
    | nil => cases h
    | cons k ks =>
      have hr := ih (Nat.succ.inj h)
      rw [List.zipWith_cons_cons, List.flatten_cons, List.filter_append, List.flatMap_append, hr]
      by_cases ha : r.2 = .ack <;> simp [callArrivals, ackedPayloads, ha]

theorem length_flatMap_filter_le {α : Type} (l : List (List α × Bool)) :
    ((l.filter Prod.snd).flatMap Prod.fst).length ≤ (l.flatMap Prod.fst).length := by
  induction l with
  | nil => exact Nat.le_refl _
  | cons x l ih =>
    rw [List.filter_cons]
    split_ifs
    · simp only [List.flatMap_cons, List.length_append]
      omega
    · simp only [List.flatMap_cons, List.length_append]
      omega

theorem flatMap_filter_eq_iff {α : Type} (l : List (List α × Bool)) :
    l.flatMap Prod.fst = (l.filter Prod.snd).flatMap Prod.fst ↔
      ∀ x ∈ l, x.2 = false → x.1 = [] := by
  induction l with
  | nil => simp
  | cons x l ih =>
    rw [List.forall_mem_cons, ← ih, List.filter_cons]
    cases hx : x.2 with
    | true => simp [List.flatMap_cons]
    | false =>
      simp only [Bool.false_eq_true, if_false, List.flatMap_cons, true_implies]
      constructor
      · intro h
        have hlen := congrArg List.length h
        have hle := length_flatMap_filter_le l
        rw [List.length_append] at hlen
        have hnil : x.1 = [] := List.length_eq_zero_iff.mp (by omega)
        exact ⟨hnil, by rwa [hnil, List.nil_append] at h⟩
      · rintro ⟨hnil, h⟩
        rw [hnil, List.nil_append, h]

/-- The characters that enter the input buffer are, call by call and in order,
the payload once for every transmission that arrives: the one whose ACK is
returned, and those whose ACK is lost. They are exactly the payloads of the
acknowledged calls if and only if no ACK to a payload is lost. `send_dat` drops
what `send` returns, and the loop over it leaves everything the same. -/
theorem keystrokes_delivered {bufs : List (List Byte)} (hb : ∀ buf ∈ bufs, buf.length ≤ 4)
    {s : Link} (hs : Ready s) (harr : s.arrivals = [])
    (hov : ((writer c bufs).exec (Link.perform fate tty c) s).2.overflowed = false) :
    let w := (writer c bufs).exec (Link.perform fate tty c) s
    w.1.map Prod.fst = bufs ∧
    (∃ ks : List Nat, ks.length = w.1.length ∧
      w.2.arrivals = (List.zipWith callArrivals w.1 ks).flatten) ∧
    (w.2.entered = ackedPayloads w.1 ↔ ∀ x ∈ w.2.arrivals, x.2 = false → x.1 = []) ∧
    (writerLoop c bufs).exec (Link.perform fate tty c) s = (0, w.2) := by
  intro w
  obtain ⟨h₁, ks, hlen, hks⟩ := writer_spec hb hs hov
  rw [harr, List.nil_append] at hks
  refine ⟨h₁, ⟨ks, hlen, hks⟩, ?_, exec_writerLoop fate tty c bufs s⟩
  rw [← flatMap_filter_eq_iff, ← flatMap_answered hlen, ← hks]
  rfl

end Link

def typistConfig : Config where
  fopt := false
  targetCh := ⟨0, 0, 1⟩
  nodeid := packNodeid ⟨0, 0, 2⟩
  consobj := 0x100
  resetobj := 0x11
  stack := default

def typistLink : Link where
  node := Node.boot (packNodeid ⟨0, 0, 1⟩) typistConfig.consoleObject
    (.init (packNodeid ⟨0, 0, 1⟩)) .empty
  ackbuf := []
  consoleObject := typistConfig.consoleObject
  sent := 0
  arrivals := []
  overflowed := false

theorem typistLink_ready : Ready typistLink := ⟨by decide, rfl⟩

theorem keystrokes_delivered_lost :
    let w := (writer typistConfig [[0x61], [0x62, 0x63]]).exec
      (Link.perform (fun n => if n = 0 then .lost else .answered) (fun _ => none) typistConfig)
      typistLink
    w.2.sent = 3 ∧ w.2.entered = ackedPayloads w.1 := by
  refine ⟨by decide +kernel, ?_⟩
  exact (keystrokes_delivered (by decide) typistLink_ready rfl (by decide +kernel)).2.2.1.mpr
    (by decide +kernel)

/-- The ACK to the first transmission is lost: the character is typed once and
acknowledged, and enters twice. -/
theorem keystroke_repeated :
    let w := (writer typistConfig [[0x61]]).exec
      (Link.perform (fun n => if n = 0 then .unanswered else .answered) (fun _ => none)
        typistConfig) typistLink
    w.2.overflowed = false ∧ w.1 = [([0x61], .ack)] ∧ w.2.entered = [0x61, 0x61] ∧
      w.2.entered ≠ ackedPayloads w.1 := by
  decide +kernel

end MeikoCs2
