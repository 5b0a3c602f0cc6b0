import MeikoCs2.Objects

/-! What a dispatched packet can do to the node. Sending touches only the
queues and the record of the run; of the state the handlers own, each changes
its own part. A dispatch answers at most once, and only a request. -/

namespace MeikoCs2

structure Emits (s s' : Node) : Prop where
  canNodeid : s'.canNodeid = s.canNodeid
  jiffies : s'.jiffies = s.jiffies
  fds : s'.fds = s.fds
  objVal : s'.objVal = s.objVal
  canconRmt : s'.canconRmt = s.canconRmt
  canconInbuf : s'.canconInbuf = s.canconInbuf
  ttyp : s'.ttyp = s.ttyp
  prom : s'.prom = s.prom
  stack : s'.stack = s.stack
  beyond : s'.beyond = s.beyond
  halted : s'.halted = s.halted
  inq : s.inq.toList <+: s'.inq.toList
  handed : s.handed <+: s'.handed

theorem Emits.refl (s : Node) : Emits s s := by
  constructor <;> first | exact List.prefix_rfl | rfl

theorem Emits.trans {s t u : Node} (h : Emits s t) (h' : Emits t u) : Emits s u where
  canNodeid := h'.canNodeid.trans h.canNodeid
  jiffies := h'.jiffies.trans h.jiffies
  fds := h'.fds.trans h.fds
  objVal := h'.objVal.trans h.objVal
  canconRmt := h'.canconRmt.trans h.canconRmt
  canconInbuf := h'.canconInbuf.trans h.canconInbuf
  ttyp := h'.ttyp.trans h.ttyp
  prom := h'.prom.trans h.prom
  stack := h'.stack.trans h.stack
  beyond := h'.beyond.trans h.beyond
  halted := h'.halted.trans h.halted
  inq := h.inq.trans h'.inq
  handed := h.handed.trans h'.handed

def acknaks (s : Node) : List CanPacket :=
  (s.handed.map Handed.pkt).filter fun p => p.ext.type.isAcknak

/-- Emitting DAT packets only. -/
structure Prints (s s' : Node) : Prop extends Emits s s' where
  acknaks : acknaks s' = acknaks s
  dats : ∀ h ∈ s'.handed, h ∈ s.handed ∨ h.pkt.ext.type = .dat

theorem Prints.refl (s : Node) : Prints s s := ⟨Emits.refl s, rfl, fun _ => .inl⟩

theorem Prints.trans {s t u : Node} (h : Prints s t) (h' : Prints t u) : Prints s u where
  toEmits := h.toEmits.trans h'.toEmits
  acknaks := h'.acknaks.trans h.acknaks
  dats x hx := (h'.dats x hx).elim (h.dats x) .inr

theorem Prints.console (s : Node) (out : CharRing) (pending timer : Bool) :
    Prints s { s with canconOutbuf := out, canconAckPending := pending, ackTimer := timer } :=
  ⟨by constructor <;> first | exact List.prefix_rfl | rfl, rfl, fun _ => .inl⟩

theorem Prints.transmit (s : Node) (q : PktRing) (avail : Bool) (t : List CanPacket) :
    Prints s { s with outq := q, xmitAvail := avail, transmitted := t } :=
  ⟨by constructor <;> first | exact List.prefix_rfl | rfl, rfl, fun _ => .inl⟩

theorem putInq_prints (pkt : CanPacket) (s : Node) : Prints s (putInq pkt s).1 := by
  have hp : s.inq.toList <+: (pktToRing pkt s.inq).1.toList := by
    cases hf : s.inq.full with
    | true =>
      have he : s.inq.toList = (pktToRing pkt s.inq).1.toList := by
        rw [pktToRing, Ring.put_of_full hf]
      exact ⟨[], by rw [List.append_nil, he]⟩
    | false => rw [pktToRing, Ring.toList_put (by decide) hf]; exact List.prefix_append _ _
  exact ⟨by constructor <;> first | exact List.prefix_rfl | exact hp | rfl, rfl, fun _ => .inl⟩

theorem tryXmit_prints (s : Node) : Prints s (tryXmit s) := by
  obtain ⟨q, x, l, h⟩ := exists_tryXmit_eq s
  rw [h]
  exact Prints.transmit s q x l

theorem enqueue_prints (pkt : CanPacket) (s : Node) : Prints s (enqueue pkt s).1 := by
  unfold enqueue
  split_ifs
  · exact putInq_prints pkt s
  · exact (Prints.transmit s _ s.xmitAvail s.transmitted).trans (putInq_prints pkt _)
  · exact Prints.refl s

theorem queueBh_prints (s : Node) : Prints s (queueBh s) :=
  ⟨by constructor <;> first | exact List.prefix_rfl | rfl, rfl, fun _ => .inl⟩

def fixup (s : Node) (pkt : CanPacket) : CanPacket :=
  incomingFixup s.jiffies (outgoingFixup s.canNodeid pkt)

@[simp] theorem fixup_ext (s : Node) (pkt : CanPacket) : (fixup s pkt).ext = pkt.ext := rfl

/-- Up to the record, sending only moves packets between queues. -/
theorem sendPktNoOutFixup_eq (pkt : CanPacket) (s : Node) :
    ∃ t i o, Prints s t ∧
      (sendPktNoOutFixup pkt s).1 = record ⟨incomingFixup s.jiffies pkt, i, o⟩ t := by
  have he := enqueue_prints (incomingFixup s.jiffies pkt) s
  simp only [sendPktNoOutFixup]
  refine ⟨_, _, _, ?_, rfl⟩
  split_ifs
  · exact (he.trans (queueBh_prints _)).trans (tryXmit_prints _)
  · exact he.trans (tryXmit_prints _)
  · exact he.trans (queueBh_prints _)
  · exact he

theorem record_emits (h : Handed) (s : Node) : Emits s (record h s) := by
  constructor <;> first | exact List.prefix_rfl | exact List.prefix_append _ _ | rfl

theorem sendPkt_emits (pkt : CanPacket) (s : Node) : Emits s (sendPkt pkt s).1 := by
  obtain ⟨t, i, o, ht, he⟩ := sendPktNoOutFixup_eq (outgoingFixup s.canNodeid pkt) s
  rw [sendPkt, he]
  exact ht.toEmits.trans (record_emits _ t)

theorem acknaks_sendPkt (pkt : CanPacket) (s : Node) :
    acknaks (sendPkt pkt s).1 =
      acknaks s ++ if pkt.ext.type.isAcknak then [fixup s pkt] else [] := by
  obtain ⟨t, i, o, ht, he⟩ := sendPktNoOutFixup_eq (outgoingFixup s.canNodeid pkt) s
  rw [sendPkt, he, ← ht.acknaks]
  simp only [acknaks, record, List.map_append, List.filter_append, List.map_cons, List.map_nil]
  congr 1
  change List.filter _ [fixup s pkt] = _
  split_ifs with hk <;> simp [hk]

theorem canobjAcknak_emits (type : CanType) (p : CanPacket) (d : Option CanDat) (s : Node) :
    Emits s (canobjAcknak type p d s) := sendPkt_emits _ s

theorem acknaks_canobjAcknak {type : CanType} (ht : type.isAcknak = true) (p : CanPacket)
    (d : Option CanDat) (s : Node) :
    acknaks (canobjAcknak type p d s) = acknaks s ++ [fixup s (acknakPkt type p d)] := by
  simp [canobjAcknak, acknaks_sendPkt, acknakPkt, ht]

theorem sendPkt_prints {pkt : CanPacket} (h : pkt.ext.type = .dat) (s : Node) :
    Prints s (sendPkt pkt s).1 := by
  refine ⟨sendPkt_emits pkt s, ?_, fun x hx => ?_⟩
  · rw [acknaks_sendPkt, h]
    simp [CanType.isAcknak]
  · obtain ⟨t, i, o, ht, he⟩ := sendPktNoOutFixup_eq (outgoingFixup s.canNodeid pkt) s
    rw [sendPkt, he] at hx
    rcases List.mem_append.mp hx with hx | hx
    · exact ht.dats x hx
    · rw [List.mem_singleton.mp hx]
      exact .inr h

theorem sendConsole_prints (s : Node) (chars : List Byte) (out : CharRing) :
    Prints s (sendPkt (consolePkt s chars) { s with canconOutbuf := out }).1 :=
  (Prints.console s out s.canconAckPending s.ackTimer).trans (sendPkt_prints rfl _)

theorem canconSendNext_prints (s : Node) : Prints s (canconSendNext s) := by
  unfold canconSendNext
  split_ifs
  · exact Prints.console s _ s.canconAckPending s.ackTimer
  · exact Prints.refl s
  · simp only
    split_ifs
    · exact Prints.refl s
    · exact (sendConsole_prints s _ _).trans (Prints.console _ _ true true)
    · exact sendConsole_prints s _ _

theorem canconPrintkWrite_prints (str : List Byte) (s : Node) :
    Prints s (canconPrintkWrite str s) := by
  unfold canconPrintkWrite
  split_ifs
  · exact Prints.refl s
  · exact (Prints.console s _ s.canconAckPending s.ackTimer).trans (canconSendNext_prints _)

theorem printk_prints (m : String) (s : Node) : Prints s (printk m s) :=
  canconPrintkWrite_prints _ s

theorem canconRecvAck_prints (timeout : Bool) (s : Node) : Prints s (canconRecvAck timeout s) := by
  have h := Prints.console s s.canconOutbuf false false
  unfold canconRecvAck
  simp only
  split_ifs
  · exact (h.trans (printk_prints _ _)).trans (canconSendNext_prints _)
  · exact (h.trans (printk_prints _ _)).trans (canconSendNext_prints _)
  · exact (h.trans (printk_prints _ _)).trans (canconSendNext_prints _)
  · exact h.trans (canconSendNext_prints _)

theorem canobjConsobj_prints (p : CanPacket) (s : Node) : Prints s (canobjConsobj p s).1 := by
  unfold canobjConsobj
  split
  · exact canconRecvAck_prints false s
  · exact printk_prints _ s
  · exact Prints.refl s

/-- What every handler leaves alone, apart from the one reply it may send. -/
structure Keeps (s s' : Node) : Prop where
  canNodeid : s'.canNodeid = s.canNodeid
  jiffies : s'.jiffies = s.jiffies
  fds : s'.fds = s.fds
  stack : s'.stack = s.stack
  beyond : s'.beyond = s.beyond
  inq : s.inq.toList <+: s'.inq.toList
  handed : s.handed <+: s'.handed

theorem Keeps.refl (s : Node) : Keeps s s := by
  constructor <;> first | exact List.prefix_rfl | rfl

theorem Keeps.trans {s t u : Node} (h : Keeps s t) (h' : Keeps t u) : Keeps s u where
  canNodeid := h'.canNodeid.trans h.canNodeid
  jiffies := h'.jiffies.trans h.jiffies
  fds := h'.fds.trans h.fds
  stack := h'.stack.trans h.stack
  beyond := h'.beyond.trans h.beyond
  inq := h.inq.trans h'.inq
  handed := h.handed.trans h'.handed

theorem Emits.keeps {s s' : Node} (h : Emits s s') : Keeps s s' :=
  ⟨h.canNodeid, h.jiffies, h.fds, h.stack, h.beyond, h.inq, h.handed⟩

def IsReply (s : Node) (p r : CanPacket) : Prop :=
  p.ext.type.ackable = true ∧
    ∃ t d, t.isAcknak = true ∧ r = fixup s (acknakPkt t p d)

/-- One dispatch of `p`: at most one reply, and nothing outside the handler's
own state changes. -/
structure Handles (p : CanPacket) (s s' : Node) : Prop extends Keeps s s' where
  replies : ∃ l, acknaks s' = acknaks s ++ l ∧ l.length ≤ 1 ∧ ∀ r ∈ l, IsReply s p r
  dats : ∀ h ∈ s'.handed, h ∈ s.handed ∨ h.pkt.ext.type = .dat ∨ h.pkt.ext.type.isAcknak = true

structure Owns (s s' : Node) : Prop extends Keeps s s' where
  acknaks : acknaks s' = acknaks s
  dats : ∀ h ∈ s'.handed, h ∈ s.handed ∨ h.pkt.ext.type = .dat

theorem Prints.owns {s s' : Node} (h : Prints s s') : Owns s s' :=
  ⟨h.toEmits.keeps, h.acknaks, h.dats⟩

theorem Owns.refl (s : Node) : Owns s s := (Prints.refl s).owns

theorem Owns.trans {s t u : Node} (h : Owns s t) (h' : Owns t u) : Owns s u where
  toKeeps := h.toKeeps.trans h'.toKeeps
  acknaks := h'.acknaks.trans h.acknaks
  dats x hx := (h'.dats x hx).elim (h.dats x) .inr

theorem Owns.mk' {s s' : Node} (h₁ : s'.canNodeid = s.canNodeid) (h₂ : s'.jiffies = s.jiffies)
    (h₃ : s'.fds = s.fds) (h₄ : s'.stack = s.stack) (h₅ : s'.beyond = s.beyond)
    (h₆ : s'.inq = s.inq) (h₇ : s'.handed = s.handed) : Owns s s' :=
  ⟨⟨h₁, h₂, h₃, h₄, h₅, h₆ ▸ List.prefix_rfl, h₇ ▸ List.prefix_rfl⟩,
    by rw [MeikoCs2.acknaks, h₇]; rfl, fun _ hx => .inl (h₇ ▸ hx)⟩

theorem Owns.handles {s s' : Node} (h : Owns s s') (p : CanPacket) : Handles p s s' :=
  ⟨h.toKeeps, ⟨[], by simpa using h.acknaks, by simp, by simp⟩,
    fun x hx => (h.dats x hx).imp_right .inl⟩

theorem Handles.acknak {p : CanPacket} {s s₁ s' : Node} {t : CanType} {d : Option CanDat}
    (hp : p.ext.type.ackable = true) (ht : t.isAcknak = true) (h : Owns s s₁)
    (h' : Owns (canobjAcknak t p d s₁) s') : Handles p s s' := by
  refine ⟨(h.toKeeps.trans (canobjAcknak_emits t p d s₁).keeps).trans h'.toKeeps,
    ⟨[fixup s₁ (acknakPkt t p d)], ?_, by simp, ?_⟩, fun x hx => ?_⟩
  · rw [h'.acknaks, acknaks_canobjAcknak ht, h.acknaks]
  · intro r hr
    rw [List.mem_singleton.mp hr]
    exact ⟨hp, t, d, ht, by simp [fixup, h.canNodeid, h.jiffies]⟩
  · rcases h'.dats x hx with hx | hx
    · obtain ⟨u, i, o, hu, he⟩ := sendPktNoOutFixup_eq
        (outgoingFixup s₁.canNodeid (acknakPkt t p d)) s₁
      rw [canobjAcknak, sendPkt, he] at hx
      rcases List.mem_append.mp hx with hx | hx
      · exact (hu.dats x hx).elim
          (fun hx => (h.dats x hx).imp_right .inl) fun hx => .inr (.inl hx)
      · rw [List.mem_singleton.mp hx]
        exact .inr (.inr ht)
    · exact .inr (.inl hx)

theorem Owns.prom (s : Node) (m : Prom) : Owns s { s with prom := m } :=
  Owns.mk' rfl rfl rfl rfl rfl rfl rfl

theorem canobjCanconHostSet_owns (s : Node) : Owns s (canobjCanconHostSet s) := Owns.prom s _

theorem canconSetcon_owns (o : Option CanPacket) (s : Node) : Owns s (canconSetcon o s) := by
  cases o <;> exact Owns.mk' rfl rfl rfl rfl rfl rfl rfl

theorem canttyRecvDat_owns (cs : List Byte) (s : Node) : Owns s (canttyRecvDat cs s) := by
  unfold canttyRecvDat canttyRecvPush
  split
  · exact Owns.mk' rfl rfl rfl rfl rfl rfl rfl
  · split_ifs
    · exact Owns.mk' rfl rfl rfl rfl rfl rfl rfl
    · exact Owns.mk' rfl rfl rfl rfl rfl rfl rfl

section Handlers

variable (p : CanPacket) (s : Node)

theorem canobjConnect_handles : Handles p s (canobjConnect p s).1 := by
  unfold canobjConnect
  split
  · rename_i h
    exact .acknak (by rw [h]; rfl) rfl (.refl s) (.refl _)
  · rename_i h
    split_ifs
    · exact .acknak (by rw [h]; rfl) rfl (.refl s) (.refl _)
    · exact .acknak (by rw [h]; rfl) rfl
        ((canconSetcon_owns _ s).trans (canobjCanconHostSet_owns _)) (.refl _)
  · exact (Owns.refl s).handles p

theorem canobjDisconnect_handles : Handles p s (canobjDisconnect p s).1 := by
  unfold canobjDisconnect
  split
  · rename_i h
    split_ifs
    · exact .acknak (by rw [h]; rfl) rfl (.refl s) (.refl _)
    · exact .acknak (by rw [h]; rfl) rfl
        ((canconSetcon_owns _ s).trans (canobjCanconHostSet_owns _))
        (Owns.mk' rfl rfl rfl rfl rfl rfl rfl)
  · exact (Owns.refl s).handles p

theorem canobjDat_handles : Handles p s (canobjDat p s).1 := by
  unfold canobjDat
  split_ifs
  · exact (Owns.refl s).handles p
  · split
    · rename_i h
      exact .acknak (by rw [h]; rfl) rfl (.refl s) (canttyRecvDat_owns _ _)
    · exact (Owns.refl s).handles p

theorem canobjBreak_handles : Handles p s (canobjBreak p s).1 := by
  unfold canobjBreak
  split
  · rename_i h
    exact .acknak (by rw [h]; rfl) rfl (.refl s)
      ((printk_prints _ _).owns.trans (Owns.mk' rfl rfl rfl rfl rfl rfl rfl))
  · exact (Owns.refl s).handles p

theorem canobjTestrw_handles : Handles p s (canobjTestrw p s).1 := by
  unfold canobjTestrw
  split
  · rename_i h
    exact .acknak (by rw [h]; rfl) rfl (.refl s)
      (Owns.mk' rfl rfl rfl rfl rfl rfl rfl)
  · rename_i h
    exact .acknak (by rw [h]; rfl) rfl (.refl s) (.refl _)
  · exact (Owns.refl s).handles p

theorem canobjReadProp_handles (path : ObpPath) (table : List (List Char)) :
    Handles p s (canobjReadProp path table p s).1 := by
  unfold canobjReadProp
  split
  · rename_i h
    split
    · exact .acknak (by rw [h]; rfl) rfl (.refl s) (.refl _)
    · exact .acknak (by rw [h]; rfl) rfl (.refl s) (.refl _)
  · exact (Owns.refl s).handles p

theorem resetIoWrite_isAcknak (newval oldval : BitVec 32) (m : Prom) :
    (resetIoWrite newval oldval m).2.isAcknak = true := by
  unfold resetIoWrite
  simp only
  split_ifs <;> rfl

theorem canobjResetIo_handles : Handles p s (canobjResetIo p s).1 := by
  unfold canobjResetIo
  split
  · rename_i h
    split
    · exact .acknak (by rw [h]; rfl) rfl (.refl s) (.refl _)
    · exact .acknak (by rw [h]; rfl) rfl (.refl s) (.refl _)
  · rename_i h
    split
    · exact .acknak (by rw [h]; rfl) rfl (.refl s) (.refl _)
    · exact .acknak (by rw [h]; rfl) (resetIoWrite_isAcknak _ _ _)
        (Owns.prom s _) (.refl _)
  · exact (Owns.refl s).handles p

theorem canobjHeartbeat_handles : Handles p s (canobjHeartbeat p s).1 := by
  unfold canobjHeartbeat
  split
  · rename_i h
    exact .acknak (by rw [h]; rfl) rfl (.refl s) (.refl _)
  · exact (Owns.refl s).handles p

theorem canobjForceDisconn_handles : Handles p s (canobjForceDisconn p s).1 := by
  unfold canobjForceDisconn
  split
  · rename_i h
    simp only
    split_ifs
    · exact (Owns.refl s).handles p
    · exact (Owns.refl s).handles p
    · exact .acknak (by rw [h]; rfl) rfl (.refl s) (.refl _)
  · exact (Owns.refl s).handles p

theorem canobjSwitch_handles : Handles p s (canobjSwitch p s).1 := by
  refine canobjSwitch_cases p s (P := fun r => Handles p s r.1) ?_ ?_ ?_ ?_ ?_ ?_ ?_ ?_ ?_ ?_ ?_
  · intro _
    exact canobjConnect_handles p s
  · intro _
    exact canobjDisconnect_handles p s
  · intro _
    exact canobjBreak_handles p s
  · intro _
    exact canobjForceDisconn_handles p s
  · intro _
    exact canobjTestrw_handles p s
  · intro _
    exact canobjHeartbeat_handles p s
  · intro _
    exact canobjReadProp_handles p s _ _
  · intro _
    exact canobjResetIo_handles p s
  · intro _
    exact canobjReadProp_handles p s _ _
  · intro _
    exact canobjDat_handles p s
  · intro _ _ _ _
    exact (Owns.refl s).handles p

theorem canobjPacket_prints : Prints (canobjSwitch p s).1 (canobjPacket p s).1 := by
  simp only [canobjPacket]
  split_ifs
  · exact canobjConsobj_prints p _
  · exact Prints.refl _
  · exact Prints.refl _

theorem canobjPacket_handles : Handles p s (canobjPacket p s).1 := by
  have h := canobjSwitch_handles p s
  have hp := canobjPacket_prints p s
  exact ⟨h.toKeeps.trans hp.toEmits.keeps, by simpa only [hp.acknaks] using h.replies,
    fun x hx => (hp.dats x hx).elim (h.dats x) fun hx => .inr (.inl hx)⟩

end Handlers

/-- Only a reply makes the second dispatch do anything. -/
theorem canobjPacket_of_ackable {p : CanPacket} (h : p.ext.type.ackable = true) (s : Node) :
    (canobjPacket p s).1 = (canobjSwitch p s).1 := by
  have hc : (canobjConsobj p (canobjSwitch p s).1).1 = (canobjSwitch p s).1 := by
    unfold canobjConsobj
    split
    · rename_i ht
      rw [ht] at h
      cases h
    · rename_i ht
      rw [ht] at h
      cases h
    · rfl
  simp only [canobjPacket]
  split_ifs
  · exact hc
  · rfl
  · rfl

theorem canobjSwitch_of_acknak {p : CanPacket} (h : p.ext.type.isAcknak = true) (s : Node) :
    canobjSwitch p s = (s, false) := by
  cases ht : p.ext.type with
  | ack | nak =>
    simp only [canobjSwitch, canobjConnect, canobjDisconnect, canobjBreak, canobjForceDisconn,
      canobjTestrw, canobjHeartbeat, canobjAutoboot, canobjBootDev, canobjReadProp, canobjResetIo,
      canobjDat, ht, ite_self]
  | _ =>
    rw [ht] at h
    cases h

theorem canobjPacket_halted_of_acknak {p : CanPacket} (h : p.ext.type.isAcknak = true) (s : Node) :
    (canobjPacket p s).1.halted = s.halted := by
  rw [(canobjPacket_prints p s).halted, canobjSwitch_of_acknak h]

def replies (p : CanPacket) (s : Node) : List CanPacket :=
  (acknaks (canobjPacket p s).1).drop (acknaks s).length

theorem acknaks_canobjPacket (p : CanPacket) (s : Node) :
    acknaks (canobjPacket p s).1 = acknaks s ++ replies p s := by
  obtain ⟨l, hl, _⟩ := (canobjPacket_handles p s).replies
  simp [replies, hl]

theorem replies_length_le (p : CanPacket) (s : Node) : (replies p s).length ≤ 1 := by
  obtain ⟨l, hl, h, _⟩ := (canobjPacket_handles p s).replies
  simpa [replies, hl] using h

theorem isReply_of_mem_replies {p r : CanPacket} {s : Node} (h : r ∈ replies p s) :
    IsReply s p r := by
  obtain ⟨l, hl, _, hr⟩ := (canobjPacket_handles p s).replies
  exact hr r (by simpa [replies, hl] using h)

end MeikoCs2
