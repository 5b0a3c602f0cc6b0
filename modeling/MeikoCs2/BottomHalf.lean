import MeikoCs2.Stall

/-! The bottom half comes to an end. What it dispatches may put new packets into
the very queue it drains: a request its reply, and an ACK the next characters
of a console on this node. -/

namespace MeikoCs2

def canBh (k : Nat) (s : Node) : Option Node := loop (fun s => s.step .bh) k s

/-- The packets that will be dispatched on this node, and one more when no ACK
is awaited: that is when an ACK may start another packet. -/
def tokens (s : Node) : Nat :=
  s.inq.toList.countP (isMypacket s.canNodeid) + if s.canconAckPending then 0 else 1

/-- A request counts for itself and for its reply. -/
def weight (nodeid : BitVec 32) (p : CanPacket) : Nat :=
  if isMypacket nodeid p && p.ext.type.ackable then 2 else 1

def load (s : Node) : Nat := (s.inq.toList.map (weight s.canNodeid)).sum

def bhRank (s : Node) : Nat × Nat × Nat := (tokens s, s.canconOutbuf.toList.length, load s)

def Below : Nat × Nat × Nat → Nat × Nat × Nat → Prop :=
  Prod.Lex (· < ·) (Prod.Lex (· < ·) (· < ·))

theorem below_wf : WellFounded Below :=
  (Prod.lex ⟨_, Nat.lt_wfRel.wf⟩ (Prod.lex ⟨_, Nat.lt_wfRel.wf⟩ ⟨_, Nat.lt_wfRel.wf⟩)).wf

theorem Below.first {a a' b b' c c' : Nat} (h : a' < a) : Below (a', b', c') (a, b, c) :=
  .left _ _ h

theorem Below.second {a a' b b' c c' : Nat} (ha : a' ≤ a) (h : b' < b) :
    Below (a', b', c') (a, b, c) := by
  rcases Nat.lt_or_eq_of_le ha with ha | rfl
  · exact .first ha
  · exact .right _ (.left _ _ h)

theorem Below.third {a a' b b' c c' : Nat} (ha : a' ≤ a) (hb : b' ≤ b) (h : c' < c) :
    Below (a', b', c') (a, b, c) := by
  rcases Nat.lt_or_eq_of_le hb with hb | rfl
  · exact .second ha hb
  · rcases Nat.lt_or_eq_of_le ha with ha | rfl
    · exact .first ha
    · exact .right _ (.right _ h)

theorem toList_pktToRing (pkt : CanPacket) (r : PktRing) :
    (pktToRing pkt r).1.toList = r.toList ∨ (pktToRing pkt r).1.toList = r.toList ++ [pkt] := by
  cases hf : r.full with
  | true =>
    rw [pktToRing, Ring.put_of_full hf]
    exact .inl rfl
  | false => exact .inr (Ring.toList_put (by decide) hf pkt)

theorem tryXmit_inq (s : Node) : (tryXmit s).inq = s.inq := by
  obtain ⟨q, x, l, h⟩ := exists_tryXmit_eq s
  rw [h]

theorem queueBh_inq (s : Node) : (queueBh s).inq = s.inq := rfl

theorem record_inq (h : Handed) (s : Node) : (record h s).inq = s.inq := rfl

theorem sendPkt_inq (pkt : CanPacket) (s : Node) :
    (sendPkt pkt s).1.inq.toList = s.inq.toList ∨
      (sendPkt pkt s).1.inq.toList = s.inq.toList ++ [fixup s pkt] := by
  have he : (sendPkt pkt s).1.inq = (enqueue (fixup s pkt) s).1.inq := by
    simp only [sendPkt, sendPktNoOutFixup]
    split_ifs
    · rw [record_inq, tryXmit_inq, queueBh_inq, fixup]
    · rw [record_inq, tryXmit_inq, fixup]
    · rw [record_inq, queueBh_inq, fixup]
    · rw [record_inq, fixup]
  rw [he]
  unfold enqueue
  split_ifs
  · exact toList_pktToRing _ _
  · exact toList_pktToRing _ _
  · exact .inl rfl

theorem countP_inq_le {s u : Node} {p : CanPacket} (hid : u.canNodeid = s.canNodeid)
    (h : u.inq.toList = s.inq.toList ∨ u.inq.toList = s.inq.toList ++ [p]) :
    u.inq.toList.countP (isMypacket u.canNodeid) ≤
      s.inq.toList.countP (isMypacket s.canNodeid) + 1 := by
  rcases h with h | h
  · rw [hid, h]
    omega
  · have h₁ := List.countP_le_length (p := isMypacket s.canNodeid) (l := [p])
    rw [List.length_singleton] at h₁
    rw [hid, h, List.countP_append]
    omega

section SendNext

variable {s : Node}

theorem tokens_of_pending (h : s.canconAckPending = true) :
    tokens s = s.inq.toList.countP (isMypacket s.canNodeid) := by
  rw [tokens, h]
  rfl

theorem tokens_of_idle (h : s.canconAckPending = false) :
    tokens s = s.inq.toList.countP (isMypacket s.canNodeid) + 1 := by
  rw [tokens, h]
  rfl

/-- A packet that goes out takes the place of the one ACK that nobody awaits. -/
theorem tokens_canconSendNext_le : tokens (canconSendNext s) ≤ tokens s := by
  cases hc : canconUnconnected s.canconRmt with
  | true =>
    simp only [canconSendNext, hc, if_true]
    exact Nat.le_refl _
  | false =>
    by_cases hp : s.canconAckPending = true
    · exact Nat.le_of_eq (congrArg tokens (canconSendNext_of_pending hc hp))
    · have hp' : s.canconAckPending = false := by simpa using hp
      cases ht : (takeChars 4 s.canconOutbuf).1.isEmpty with
      | true =>
        have hn : s.canconOutbuf.toList = [] := by
          rw [takeChars_fst, List.isEmpty_iff, List.take_eq_nil_iff] at ht
          simpa using ht
        exact Nat.le_of_eq (congrArg tokens (canconSendNext_of_nil hc hn))
      | false =>
        rw [canconSendNext_of_idle hc hp' ht]
        simp only
        split_ifs with hs
        · have hq := sendPkt_inq (consolePkt s (takeChars 4 s.canconOutbuf).1)
            { s with canconOutbuf := (takeChars 4 s.canconOutbuf).2 }
          have hle := countP_inq_le (sendPkt_emits _ _).canNodeid hq
          rw [tokens_of_pending rfl, tokens_of_idle hp']
          exact hle
        · obtain ⟨r, hr⟩ := sendPkt_of_refused (by simpa using hs)
          rw [hr]
          exact Nat.le_refl _

theorem tokens_canconPrintkWrite_le (str : List Byte) :
    tokens (canconPrintkWrite str s) ≤ tokens s := by
  unfold canconPrintkWrite
  split_ifs
  · exact Nat.le_refl _
  · exact tokens_canconSendNext_le

theorem length_canconSendNext_lt (hc : canconUnconnected s.canconRmt = false)
    (hp : s.canconAckPending = false) (hn : s.canconOutbuf.toList ≠ []) :
    (canconSendNext s).canconOutbuf.toList.length < s.canconOutbuf.toList.length := by
  have hpos := List.length_pos_iff.mpr hn
  have ht : (takeChars 4 s.canconOutbuf).1.isEmpty = false := by
    rw [takeChars_fst]
    cases hl : s.canconOutbuf.toList with
    | nil => exact absurd hl hn
    | cons c cs => rfl
  have hout : (canconSendNext s).canconOutbuf.toList = s.canconOutbuf.toList.drop 4 := by
    have hs := sendPkt_session (consolePkt s (takeChars 4 s.canconOutbuf).1)
      { s with canconOutbuf := (takeChars 4 s.canconOutbuf).2 }
    simp only [Node.session, Session.mk.injEq] at hs
    rw [canconSendNext_of_idle hc hp ht, ← takeChars_snd, ← hs.2.1]
    simp only
    split_ifs <;> rfl
  rw [hout, List.length_drop]
  omega

end SendNext

structure Replied (s u : Node) : Prop where
  canNodeid : u.canNodeid = s.canNodeid
  pending : u.canconAckPending = s.canconAckPending
  out : u.canconOutbuf.toList.length ≤ s.canconOutbuf.toList.length
  inq : u.inq.toList = s.inq.toList ∨
    ∃ r : CanPacket, u.inq.toList = s.inq.toList ++ [r] ∧ r.ext.type.isAcknak = true

theorem Replied.input {s u : Node} (h : Replied s u) (d : CanDat) (r : CharRing)
    (tty : Option Tty) : Replied s { u with objVal := d, canconInbuf := r, ttyp := tty } :=
  ⟨h.canNodeid, h.pending, h.out, h.inq⟩

theorem canobjAcknak_replied {t : CanType} (ht : t.isAcknak = true) (p : CanPacket)
    (d : Option CanDat) (s : Node) : Replied s (canobjAcknak t p d s) := by
  have hs := canobjAcknak_session t p d s
  simp only [Node.session, Session.mk.injEq] at hs
  refine ⟨(canobjAcknak_emits t p d s).canNodeid, hs.2.2.2.1,
    Nat.le_of_eq (congrArg List.length hs.2.1), ?_⟩
  rcases sendPkt_inq (acknakPkt t p d) s with h | h
  · exact .inl h
  · exact .inr ⟨_, h, ht⟩

theorem Switched.replied_or {p : CanPacket} {s u : Node} {l : List ConEvent}
    (h : Switched p s l u) (hu : u.halted = false) :
    u = s ∨ (p.ext.type.ackable = true ∧ Replied s u) := by
  cases h with
  | ignored => exact .inl rfl
  | @answered t d m hp ht =>
    have ha := canobjAcknak_replied ht p d { s with prom := m }
    exact .inr ⟨hp, ⟨ha.canNodeid, ha.pending, ha.out, ha.inq⟩⟩
  | wrote hp =>
    have ha := canobjAcknak_replied (t := .ack) rfl p (some s.objVal) s
    exact .inr ⟨hp, ha.input _ _ _⟩
  | connected hp _ =>
    have ha := canobjAcknak_replied (t := .ack) rfl p (some (datExt p.dat).extDat)
      (canobjCanconHostSet (canconSetcon (some p) s))
    exact .inr ⟨by rw [hp.2]; rfl, ⟨ha.canNodeid, ha.pending, ha.out, ha.inq⟩⟩
  | disconnected hp _ =>
    have ha := canobjAcknak_replied (t := .ack) rfl p none
      (canobjCanconHostSet (canconSetcon none s))
    refine .inr ⟨by rw [hp.2]; rfl, ⟨ha.canNodeid, ha.pending, ?_, ha.inq⟩⟩
    simp [canttyHangup, clearRing]
  | broke _ _ => cases hu
  | received _ ht _ =>
    have ha := canobjAcknak_replied (t := .ack) rfl p none s
    refine .inr ⟨by rw [ht]; rfl, ?_⟩
    unfold canttyRecvDat canttyRecvPush
    split
    · exact ha.input _ _ _
    · split_ifs
      · exact ha.input _ _ _
      · exact ha.input _ _ _

theorem toList_of_ringToPkt {r q : PktRing} {pkt : CanPacket} (h : ringToPkt r = some (pkt, q)) :
    r.toList = pkt :: q.toList := Ring.toList_of_get (by decide) h

section Round

variable {s : Node} {pkt : CanPacket} {q : PktRing}

theorem load_of_ringToPkt (h : ringToPkt s.inq = some (pkt, q)) :
    load s = weight s.canNodeid pkt + load { s with inq := q } := by
  simp [load, toList_of_ringToPkt h]

theorem tokens_of_mine (h : ringToPkt s.inq = some (pkt, q))
    (hm : isMypacket s.canNodeid pkt = true) : tokens s = tokens { s with inq := q } + 1 := by
  simp only [tokens, toList_of_ringToPkt h, List.countP_cons_of_pos hm]
  omega

theorem tokens_of_not_mine (h : ringToPkt s.inq = some (pkt, q))
    (hm : isMypacket s.canNodeid pkt = false) : tokens s = tokens { s with inq := q } := by
  simp only [tokens, toList_of_ringToPkt h]
  rw [List.countP_cons_of_neg (by rw [hm]; decide)]

theorem Replied.below {u : Node} (h : ringToPkt s.inq = some (pkt, q))
    (hm : isMypacket s.canNodeid pkt = true) (hp : pkt.ext.type.ackable = true)
    (ha : Replied { s with inq := q } u) : Below (bhRank u) (bhRank s) := by
  have hw : weight s.canNodeid pkt = 2 := by simp [weight, hm, hp]
  have hl := load_of_ringToPkt h
  have ht := tokens_of_mine h hm
  have hid : u.canNodeid = s.canNodeid := ha.canNodeid
  have hq : u.inq.toList = q.toList ∨ ∃ r : CanPacket, u.inq.toList = q.toList ++ [r] ∧
    r.ext.type.isAcknak = true := ha.inq
  have htok : tokens u ≤ tokens s := by
    have hle : u.inq.toList.countP (isMypacket u.canNodeid) ≤
        q.toList.countP (isMypacket s.canNodeid) + 1 := by
      rcases hq with hq | ⟨r, hq, _⟩
      · exact countP_inq_le (s := { s with inq := q }) (p := pkt) hid (.inl hq)
      · exact countP_inq_le (s := { s with inq := q }) hid (.inr hq)
    have hpend : u.canconAckPending = s.canconAckPending := ha.pending
    rw [ht]
    simp only [tokens, hpend]
    omega
  refine .third htok ha.out ?_
  rcases hq with hq | ⟨r, hq, hr⟩
  · have hu : load u = load { s with inq := q } := by simp [load, hid, hq]
    omega
  · have hna : r.ext.type.ackable = false := by
      cases hk : r.ext.type <;> simp_all [CanType.ackable, CanType.isAcknak]
    have hu : load u = load { s with inq := q } + 1 := by
      simp [load, hid, hq, weight, hna]
    omega

theorem recvAck_below (h : ringToPkt s.inq = some (pkt, q))
    (hm : isMypacket s.canNodeid pkt = true) (hp : s.canconAckPending = true)
    (hc : canconUnconnected s.canconRmt = false) :
    Below (bhRank (canconRecvAck false { s with inq := q })) (bhRank s) := by
  have hk : canconRecvAck false { s with inq := q } =
      canconSendNext { s with inq := q, ackTimer := false, canconAckPending := false } := by
    rw [canconRecvAck_eq]
    simp [hp, ackMessage]
  have ht : tokens { s with inq := q, ackTimer := false, canconAckPending := false } = tokens s := by
    have h₁ := tokens_of_mine h hm
    simp only [tokens, hp, if_true] at h₁ ⊢
    simp only [Bool.false_eq_true, if_false]
    omega
  rw [hk]
  by_cases hn : s.canconOutbuf.toList = []
  · have he := canconSendNext_of_nil
      (s := { s with inq := q, ackTimer := false, canconAckPending := false }) hc hn
    have hl := load_of_ringToPkt h
    have hw : 0 < weight s.canNodeid pkt := by
      unfold weight
      split_ifs <;> omega
    rw [he]
    refine .third (Nat.le_of_eq ht) (Nat.le_refl _) ?_
    have hu : load { s with inq := q, ackTimer := false, canconAckPending := false } =
      load { s with inq := q } := rfl
    omega
  · refine .second ?_ (length_canconSendNext_lt
      (s := { s with inq := q, ackTimer := false, canconAckPending := false }) hc rfl hn)
    exact Nat.le_trans tokens_canconSendNext_le (Nat.le_of_eq ht)

theorem tokens_recvAck_le (timeout : Bool) (hp : s.canconAckPending = false) :
    tokens (canconRecvAck timeout s) ≤ tokens s := by
  have ht : tokens { s with ackTimer := false, canconAckPending := false } = tokens s := by
    simp only [tokens, hp]
  rw [canconRecvAck_eq]
  refine Nat.le_trans tokens_canconSendNext_le ?_
  cases ackMessage timeout s.canconAckPending with
  | none => exact Nat.le_of_eq ht
  | some m => exact Nat.le_trans (tokens_canconPrintkWrite_le _) (Nat.le_of_eq ht)

theorem packet_below (h : ringToPkt s.inq = some (pkt, q))
    (hm : isMypacket s.canNodeid pkt = true)
    (hu : (canobjPacket pkt { s with inq := q }).1.halted = false) :
    Below (bhRank (canobjPacket pkt { s with inq := q }).1) (bhRank s) := by
  have ht := tokens_of_mine h hm
  have hlt : ∀ u, tokens u ≤ tokens { s with inq := q } → Below (bhRank u) (bhRank s) :=
    fun u hle => .first (by omega)
  by_cases ha : pkt.ext.type.isAcknak = true
  · rw [canobjPacket_eq, canobjSwitch_of_acknak ha]
    cases hf : forConsole pkt { s with inq := q } with
    | false => exact hlt _ (Nat.le_refl _)
    | true =>
      simp only [if_true, canobjConsobj]
      cases hk : pkt.ext.type with
      | ack =>
        have hc : canconUnconnected s.canconRmt = false := by
          simp only [forConsole, Bool.and_eq_true, Bool.not_eq_true'] at hf
          exact hf.1
        by_cases hp : s.canconAckPending = true
        · exact recvAck_below h hm hp hc
        · exact hlt _ (tokens_recvAck_le (s := { s with inq := q }) false (by simpa using hp))
      | nak => exact hlt _ (tokens_canconPrintkWrite_le _)
      | _ =>
        rw [hk] at ha
        cases ha
  · rw [canobjPacket_of_not_acknak (by simpa using ha)] at hu ⊢
    rcases (canobjSwitch_switched pkt { s with inq := q }).replied_or hu with he | ⟨hp, hans⟩
    · rw [he]
      exact hlt _ (Nat.le_refl _)
    · exact hans.below h hm hp

/-- Every round of the bottom half that does not halt the machine goes down in
the order. -/
theorem bhRound_below {u : Node} (h : bhRound s = some u) (hu : u.halted = false) :
    Below (bhRank u) (bhRank s) := by
  obtain ⟨pkt, q, hg, rfl⟩ := bhRound_eq_some h
  have hrank : bhRank (deliverPkt pkt { s with inq := q }).1 =
      bhRank (if isMypacket s.canNodeid pkt then (canobjPacket pkt { s with inq := q }).1
        else { s with inq := q }) := by
    simp only [deliverPkt]
    split_ifs <;> rfl
  have hhalt : (deliverPkt pkt { s with inq := q }).1.halted =
      (if isMypacket s.canNodeid pkt then (canobjPacket pkt { s with inq := q }).1
        else { s with inq := q }).halted := by
    simp only [deliverPkt]
    split_ifs <;> rfl
  rw [hrank]
  rw [hhalt] at hu
  cases hm : isMypacket s.canNodeid pkt with
  | true =>
    rw [hm] at hu
    exact packet_below hg hm hu
  | false =>
    have hl := load_of_ringToPkt hg
    have hw : weight s.canNodeid pkt = 1 := by simp [weight, hm]
    refine .third (Nat.le_of_eq (tokens_of_not_mine hg hm).symm) (Nat.le_refl _) ?_
    change load { s with inq := q } < load s
    omega

end Round

def haltRank (s : Node) : Nat × Nat × Nat × Nat := (if s.halted then 0 else 1, bhRank s)

theorem step_bh_below {s u : Node} (h : s.step .bh = some u) :
    Prod.Lex (· < ·) Below (haltRank u) (haltRank s) := by
  obtain ⟨hs, hb⟩ := Node.step_eq_some h
  have hs₁ : haltRank s = (1, bhRank s) := by simp [haltRank, hs]
  rw [hs₁]
  cases hu : u.halted with
  | true =>
    have hu₀ : haltRank u = (0, bhRank u) := by simp [haltRank, hu]
    rw [hu₀]
    exact .left _ _ Nat.zero_lt_one
  | false =>
    have hu₁ : haltRank u = (1, bhRank u) := by simp [haltRank, hu]
    rw [hu₁]
    exact .right _ (bhRound_below hb hu)

theorem step_bh_eq_none {s : Node} (h : s.step .bh = none) :
    s.halted = true ∨ ringToPkt s.inq = none := by
  unfold Node.step at h
  split_ifs at h with hh
  · exact .inl hh
  · exact .inr (Option.map_eq_none_iff.mp h)

/-- A loop that ends on a running machine is a bottom half of the driver. -/
theorem exists_bhRun {k : Nat} {d : Driver} {u : Node} (h : canBh k d.node = some u)
    (hu : u.halted = false) : ∃ d', BhRun d d' ∧ d'.node = u := by
  induction k generalizing d with
  | zero => cases h
  | succ k ih =>
    rw [canBh, loop] at h
    cases hn : d.node.step .bh with
    | none =>
      simp only [hn, Option.some.injEq] at h
      rcases step_bh_eq_none hn with hh | hq
      · rw [← h, hh] at hu
        cases hu
      · exact ⟨d, .done hq, h⟩
    | some t =>
      simp only [hn] at h
      obtain ⟨pkt, q, hg, rfl⟩ := bhRound_eq_some (Node.step_eq_some hn).2
      obtain ⟨d', hd, he⟩ := ih (d := d.drain pkt q) h
      refine ⟨d', .round hg ?_ hd, he⟩
      -- a halted machine takes no further step, so it is the one that is left
      by_contra hh
      have hh' : (deliverPkt pkt { d.node with inq := q }).1.halted = true := by
        simpa [Driver.drain] using hh
      cases k with
      | zero => cases h
      | succ k =>
        rw [loop] at h
        simp only [Node.step, hh', if_true, Option.some.injEq] at h
        rw [← h, hh'] at hu
        cases hu

/-- From every state the loop of `can_bh` comes to its end: it halts the machine,
or it empties the queue and returns. -/
theorem bottom_half_terminates (d : Driver) :
    ∃ k u, canBh k d.node = some u ∧
      (u.halted = true ∨ (ringToPkt u.inq = none ∧ ∃ d', BhRun d d' ∧ d'.node = u)) := by
  obtain ⟨k, u, h⟩ := exists_loop (Prod.lex ⟨_, Nat.lt_wfRel.wf⟩ ⟨_, below_wf⟩).wf haltRank
    (fun _ _ h => step_bh_below h) d.node
  refine ⟨k, u, h, ?_⟩
  cases hu : u.halted with
  | true => exact .inl rfl
  | false =>
    rcases step_bh_eq_none (loop_stops h) with hh | hq
    · rw [hu] at hh
      cases hh
    · exact .inr ⟨hq, exists_bhRun h hu⟩

end MeikoCs2
