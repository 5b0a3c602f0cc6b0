import MeikoCs2.Session

/-! What the driver's code does to `inq`, `outq` and the chip, as lists: what
is handed to `send_pkt` and accepted goes to the end of a queue, `try_recv`
adds to the end of `inq`, and `try_xmit` moves packets from the front of `outq`
to those transmitted. -/

namespace MeikoCs2

def queuedIn (l : List Handed) : List CanPacket := (l.filter Handed.instat).map Handed.pkt

def queuedOut (l : List Handed) : List CanPacket := (l.filter Handed.outstat).map Handed.pkt

@[simp] theorem queuedIn_nil : queuedIn [] = [] := rfl

@[simp] theorem queuedOut_nil : queuedOut [] = [] := rfl

/-- From `s` to `u` the packets `l` were handed to `send_pkt`, and nothing else
happened to the queues. -/
structure Sends (s : Node) (l : List Handed) (u : Node) : Prop where
  handed : u.handed = s.handed ++ l
  inq : u.inq.toList = s.inq.toList ++ queuedIn l
  outq : u.transmitted ++ u.outq.toList = s.transmitted ++ s.outq.toList ++ queuedOut l
  transmitted : s.transmitted <+: u.transmitted

theorem Sends.trans {s t u : Node} {l l' : List Handed} (h : Sends s l t) (h' : Sends t l' u) :
    Sends s (l ++ l') u where
  handed := by rw [h'.handed, h.handed, List.append_assoc]
  inq := by
    rw [h'.inq, h.inq, List.append_assoc, queuedIn, queuedIn, queuedIn, List.filter_append,
      List.map_append]
  outq := by
    rw [h'.outq, h.outq, List.append_assoc _ (queuedOut l), queuedOut, queuedOut, queuedOut,
      List.filter_append, List.map_append]
  transmitted := h.transmitted.trans h'.transmitted

/-- A node that differs outside the queues and the chip only. -/
structure SameQueues (s u : Node) : Prop where
  handed : u.handed = s.handed
  inq : u.inq = s.inq
  outq : u.outq = s.outq
  transmitted : u.transmitted = s.transmitted
  xmitAvail : u.xmitAvail = s.xmitAvail

theorem SameQueues.refl (s : Node) : SameQueues s s := ⟨rfl, rfl, rfl, rfl, rfl⟩

theorem SameQueues.outbuf (s : Node) (out : CharRing) :
    SameQueues s { s with canconOutbuf := out } := ⟨rfl, rfl, rfl, rfl, rfl⟩

theorem SameQueues.trans {s t u : Node} (h : SameQueues s t) (h' : SameQueues t u) :
    SameQueues s u :=
  ⟨h'.handed.trans h.handed, h'.inq.trans h.inq, h'.outq.trans h.outq,
    h'.transmitted.trans h.transmitted, h'.xmitAvail.trans h.xmitAvail⟩

theorem SameQueues.sends {s u : Node} (h : SameQueues s u) : Sends s [] u where
  handed := by rw [h.handed, List.append_nil]
  inq := by
    rw [h.inq]
    exact (List.append_nil _).symm
  outq := by
    rw [h.transmitted, h.outq]
    exact (List.append_nil _).symm
  transmitted := h.transmitted ▸ List.prefix_rfl

theorem Sends.before {s t u : Node} {l : List Handed} (h : SameQueues s t) (h' : Sends t l u) :
    Sends s l u := h.sends.trans h'

theorem Sends.behind {s t u : Node} {l : List Handed} (h : Sends s l t) (h' : SameQueues t u) :
    Sends s l u := by
  have hu := h.trans h'.sends
  rwa [List.append_nil] at hu

/-- The TRANSMIT command takes XMIT_AVAIL away, so one call of `try_xmit` that
nothing interrupts transmits at most one packet. -/
theorem tryXmit_eq (s : Node) :
    tryXmit s =
      if s.xmitAvail then
        match ringToPkt s.outq with
        | none => s
        | some (pkt, q) =>
          { s with outq := q, xmitAvail := false, transmitted := s.transmitted ++ [pkt] }
      else s := by
  unfold tryXmit
  cases hs : s.outq.size with
  | zero =>
    have hg : ringToPkt s.outq = none := by
      rw [ringToPkt, Ring.get_eq_none_iff, ← List.length_eq_zero_iff, Ring.length_toList, hs]
    simp only [tryXmitLoop, hg, ite_self]
  | succ k =>
    unfold tryXmitLoop
    split_ifs
    · cases ringToPkt s.outq with
      | none => rfl
      | some x => cases k <;> rfl
    · rfl

theorem tryXmit_sends (s : Node) : Sends s [] (tryXmit s) := by
  rw [tryXmit_eq]
  split_ifs
  · cases hg : ringToPkt s.outq with
    | none => exact (SameQueues.refl s).sends
    | some x =>
      obtain ⟨pkt, q⟩ := x
      refine ⟨(List.append_nil _).symm, (List.append_nil _).symm, ?_, List.prefix_append _ _⟩
      rw [Ring.toList_of_get (by decide) hg]
      simp [queuedOut]
  · exact (SameQueues.refl s).sends

theorem tryXmit_of_stalled {s : Node} (h : s.xmitAvail = false ∨ s.outq.toList = []) :
    tryXmit s = s := by
  rw [tryXmit_eq]
  rcases h with h | h
  · rw [h]
    rfl
  · have hg : ringToPkt s.outq = none := (Ring.get_eq_none_iff s.outq).mpr h
    rw [hg]
    exact ite_self s

/-- Transmitting moves the tail of `outq` only. -/
theorem tryXmit_outq (s : Node) :
    (tryXmit s).outq.buf = s.outq.buf ∧ (tryXmit s).outq.head = s.outq.head := by
  rw [tryXmit_eq]
  split_ifs
  · cases hg : ringToPkt s.outq with
    | none => exact ⟨rfl, rfl⟩
    | some x => exact Ring.get_frame hg
  · exact ⟨rfl, rfl⟩

theorem toList_put_eq {n : Nat} {α : Type} (hn : 1 < n) (x : α) (r : Ring n α) :
    (r.put x).1.toList = r.toList ++ if (r.put x).2 then [x] else [] := by
  rw [Ring.put_snd]
  cases hf : r.full with
  | true =>
    rw [Ring.put_of_full hf]
    exact (List.append_nil _).symm
  | false => exact Ring.toList_put hn hf x

theorem queuedIn_singleton (h : Handed) : queuedIn [h] = if h.instat then [h.pkt] else [] := by
  cases hi : h.instat <;> simp [queuedIn, hi]

theorem queuedOut_singleton (h : Handed) : queuedOut [h] = if h.outstat then [h.pkt] else [] := by
  cases hi : h.outstat <;> simp [queuedOut, hi]

/-- Up to the record of the run. -/
theorem enqueue_queues (pkt : CanPacket) (s : Node) :
    (enqueue pkt s).1.inq.toList = s.inq.toList ++ (if (enqueue pkt s).2.1 then [pkt] else []) ∧
      (enqueue pkt s).1.outq.toList =
        s.outq.toList ++ (if (enqueue pkt s).2.2 then [pkt] else []) ∧
      (enqueue pkt s).1.transmitted = s.transmitted ∧ (enqueue pkt s).1.handed = s.handed := by
  have hin := toList_put_eq (by decide) pkt s.inq
  have hout := toList_put_eq (by decide) pkt s.outq
  unfold enqueue
  by_cases hm : isMypacket s.canNodeid pkt = true
  · simp only [hm, if_true]
    exact ⟨hin, (List.append_nil _).symm, rfl, rfl⟩
  · by_cases ho : (putOutq pkt s).2 = true
    · simp only [hm, ho, if_true]
      have ho' : (Ring.put pkt s.outq).2 = true := ho
      rw [ho', if_pos rfl] at hout
      exact ⟨hin, hout, rfl, rfl⟩
    · simp only [hm, ho]
      exact ⟨(List.append_nil _).symm, (List.append_nil _).symm, rfl, rfl⟩

theorem sendPktNoOutFixup_sends (pkt : CanPacket) (s : Node) :
    ∃ h, Sends s [h] (sendPktNoOutFixup pkt s).1 := by
  obtain ⟨hin, hout, htr, hh⟩ := enqueue_queues (incomingFixup s.jiffies pkt) s
  generalize he : enqueue (incomingFixup s.jiffies pkt) s = e at hin hout htr hh
  refine ⟨⟨incomingFixup s.jiffies pkt, e.2.1, e.2.2⟩, ?_⟩
  have hmid : ∀ u, Sends e.1 [] u →
      Sends s [⟨incomingFixup s.jiffies pkt, e.2.1, e.2.2⟩]
        (record ⟨incomingFixup s.jiffies pkt, e.2.1, e.2.2⟩ u) := by
    intro u hu
    refine ⟨?_, ?_, ?_, ?_⟩
    · have := hu.handed
      rw [List.append_nil, hh] at this
      rw [record, this]
    · rw [queuedIn_singleton, ← hin]
      exact hu.inq.trans (List.append_nil _)
    · rw [queuedOut_singleton, List.append_assoc, ← hout, ← htr]
      exact hu.outq.trans (List.append_nil _)
    · rw [← htr]
      exact hu.transmitted
  simp only [sendPktNoOutFixup, he]
  apply hmid
  have hq : Sends e.1 [] (if e.2.1 then queueBh e.1 else e.1) := by
    split_ifs
    · exact SameQueues.sends ⟨rfl, rfl, rfl, rfl, rfl⟩
    · exact (SameQueues.refl _).sends
  cases e.2.2 with
  | true => exact hq.trans (tryXmit_sends _)
  | false => exact hq

theorem sendPkt_sends (pkt : CanPacket) (s : Node) : ∃ h, Sends s [h] (sendPkt pkt s).1 :=
  sendPktNoOutFixup_sends _ s

theorem canconSendNext_sends (s : Node) : ∃ l, Sends s l (canconSendNext s) := by
  unfold canconSendNext
  simp only
  split_ifs
  · exact ⟨[], SameQueues.sends ⟨rfl, rfl, rfl, rfl, rfl⟩⟩
  · exact ⟨[], (SameQueues.refl s).sends⟩
  · exact ⟨[], (SameQueues.refl s).sends⟩
  all_goals
    obtain ⟨h, hs⟩ := sendPkt_sends (consolePkt s (takeChars 4 s.canconOutbuf).1)
      { s with canconOutbuf := (takeChars 4 s.canconOutbuf).2 }
    have hb := hs.before (SameQueues.outbuf s _)
  · exact ⟨[h], hb.behind ⟨rfl, rfl, rfl, rfl, rfl⟩⟩
  · exact ⟨[h], hb⟩

theorem canconPrintkWrite_sends (str : List Byte) (s : Node) :
    ∃ l, Sends s l (canconPrintkWrite str s) := by
  unfold canconPrintkWrite
  split_ifs
  · exact ⟨[], (SameQueues.refl s).sends⟩
  · obtain ⟨l, hl⟩ := canconSendNext_sends { s with canconOutbuf := putPrintk str s.canconOutbuf }
    exact ⟨l, hl.before (SameQueues.outbuf s _)⟩

theorem printk_sends (m : String) (s : Node) : ∃ l, Sends s l (printk m s) :=
  canconPrintkWrite_sends (messageBytes m) s

/-- The error bits that `can_intr` looks at before it receives and transmits. -/
structure CanStatus where
  overrun : Bool
  errorStat : Bool
  reset : Bool
  busStat : Bool
  deriving DecidableEq, Repr

def CanStatus.clear : CanStatus := ⟨false, false, false, false⟩

def printkIf (b : Bool) (m : String) (s : Node) : Node := if b then printk m s else s

def canReport (st : CanStatus) (s : Node) : Node :=
  printkIf st.busStat "can: bus stat\n"
    (printkIf st.reset "can: reset is active\n"
      (printkIf st.errorStat "can: error detected\n"
        (printkIf st.overrun "can: overrun cleared\n" s)))

/-- The interrupt service routine, with the packets that the chip has received
by the time `try_recv` stops looking. -/
def canIntr (st : CanStatus) (pkts : List CanPacket) (s : Node) : Node :=
  tryXmit (tryRecv pkts (canReport st s))

theorem printkIf_sends (b : Bool) (m : String) (s : Node) : ∃ l, Sends s l (printkIf b m s) := by
  cases b with
  | true => exact printk_sends m s
  | false => exact ⟨[], (SameQueues.refl s).sends⟩

theorem canReport_sends (st : CanStatus) (s : Node) : ∃ l, Sends s l (canReport st s) := by
  obtain ⟨l₁, h₁⟩ := printkIf_sends st.overrun "can: overrun cleared\n" s
  obtain ⟨l₂, h₂⟩ := printkIf_sends st.errorStat "can: error detected\n" _
  obtain ⟨l₃, h₃⟩ := printkIf_sends st.reset "can: reset is active\n" _
  obtain ⟨l₄, h₄⟩ := printkIf_sends st.busStat "can: bus stat\n" _
  exact ⟨_, ((h₁.trans h₂).trans h₃).trans h₄⟩

/-- A message is queued and not sent while there is no console, or while the
console has a packet to acknowledge. -/
def silent (s : Node) : Bool := canconUnconnected s.canconRmt || s.canconAckPending

/-- An interrupt that does not send a packet of its own. -/
def quiet (st : CanStatus) (s : Node) : Bool := decide (st = .clear) || silent s

theorem printkIf_of_silent {s : Node} (h : silent s = true) (b : Bool) (m : String) :
    SameQueues s (printkIf b m s) ∧ silent (printkIf b m s) = true := by
  have hsame : ∃ out, printk m s = { s with canconOutbuf := out } := by
    unfold printk canconPrintkWrite
    cases hu : canconUnconnected s.canconRmt with
    | true => exact ⟨s.canconOutbuf, rfl⟩
    | false =>
      have ha : s.canconAckPending = true := by
        rw [silent, hu] at h
        exact h
      split_ifs
      · exact ⟨s.canconOutbuf, rfl⟩
      · refine ⟨putPrintk (messageBytes m) s.canconOutbuf, ?_⟩
        simp only [canconSendNext, hu, ha, Bool.false_eq_true, if_false, if_true]
  obtain ⟨out, ho⟩ := hsame
  cases b with
  | true =>
    rw [printkIf, if_pos rfl, ho]
    exact ⟨.outbuf s out, h⟩
  | false => exact ⟨.refl s, h⟩

theorem canReport_of_quiet {st : CanStatus} {s : Node} (h : quiet st s = true) :
    SameQueues s (canReport st s) := by
  rw [quiet, Bool.or_eq_true, decide_eq_true_iff] at h
  rcases h with rfl | h
  · exact .refl s
  · obtain ⟨q₁, h₁⟩ := printkIf_of_silent h st.overrun "can: overrun cleared\n"
    obtain ⟨q₂, h₂⟩ := printkIf_of_silent h₁ st.errorStat "can: error detected\n"
    obtain ⟨q₃, h₃⟩ := printkIf_of_silent h₂ st.reset "can: reset is active\n"
    obtain ⟨q₄, -⟩ := printkIf_of_silent h₃ st.busStat "can: bus stat\n"
    exact ((q₁.trans q₂).trans q₃).trans q₄

/-- The received packets that `pkt_to_ring` took. -/
def recvAccepted (s : Node) : List CanPacket → List CanPacket
  | [] => []
  | p :: ps =>
    let r := putInq (incomingFixup s.jiffies p) s
    (if r.2 then [incomingFixup s.jiffies p] else []) ++ recvAccepted r.1 ps

theorem recvLoop_inq (s : Node) (pkts : List CanPacket) :
    (recvLoop s pkts).inq.toList = s.inq.toList ++ recvAccepted s pkts := by
  induction pkts generalizing s with
  | nil => exact (List.append_nil _).symm
  | cons p ps ih =>
    have hput := toList_put_eq (by decide) (incomingFixup s.jiffies p) s.inq
    rw [recvLoop, ih, recvAccepted, ← List.append_assoc]
    congr 1

theorem recvAccepted_length_le (s : Node) (pkts : List CanPacket) :
    (recvAccepted s pkts).length ≤ pkts.length := by
  induction pkts generalizing s with
  | nil => exact Nat.le_refl _
  | cons p ps ih =>
    have hi := ih (putInq (incomingFixup s.jiffies p) s).1
    simp only [recvAccepted, List.length_append, List.length_cons]
    split_ifs
    · rw [List.length_singleton]
      omega
    · rw [List.length_nil]
      omega

theorem tryRecv_inq (pkts : List CanPacket) (s : Node) :
    (tryRecv pkts s).inq.toList = s.inq.toList ++ recvAccepted s pkts := by
  unfold tryRecv
  split_ifs with h
  · rw [List.isEmpty_iff.mp h]
    exact (List.append_nil _).symm
  · exact recvLoop_inq s pkts

end MeikoCs2
