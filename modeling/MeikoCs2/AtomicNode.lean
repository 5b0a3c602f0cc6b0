import MeikoCs2.Queues
import MeikoCs2.Stall
import MeikoCs2.Network
import MeikoCs2.ResetIo

/-! What the queues of the driver hold does not matter to the handlers, but for a
packet of the console that `send_pkt` refuses: they do the same on a node that
dispatches a packet at once and hands its answers straight to the wire, as the
nodes of the network do. -/

namespace MeikoCs2

/-- Without the queues, the chip, the record of the run and the open files. -/
def Node.core (n : Node) : Node := { n.flush with fds := { n.fds with openfd := fun _ => none } }

/-- Every DAT packet was accepted. -/
def Took (l : List Handed) : Prop :=
  ∀ h ∈ l, h.pkt.ext.type = .dat → (h.instat || h.outstat) = true

instance (l : List Handed) : Decidable (Took l) :=
  inferInstanceAs (Decidable (∀ h ∈ l, h.pkt.ext.type = .dat → (h.instat || h.outstat) = true))

/-- Room for `k` more packets in both queues. -/
def Roomy (k : Nat) (s : Node) : Prop := s.inq.size + k < maxring ∧ s.outq.size + k < maxring

theorem Took.append {l m : List Handed} : Took (l ++ m) ↔ Took l ∧ Took m := by
  simp only [Took, List.mem_append, or_imp, forall_and]

theorem Sends.unique {s u : Node} {l m : List Handed} (h : Sends s l u) (h' : Sends s m u) :
    l = m := List.append_cancel_left (h.handed.symm.trans h'.handed)

theorem Sends.roomy {s u : Node} {l : List Handed} {j k : Nat} (h : Sends s l u) (hl : l.length ≤ j)
    (hr : Roomy (j + k) s) : Roomy k u := by
  have hin : (queuedIn l).length ≤ l.length := by
    rw [queuedIn, List.length_map]
    exact List.length_filter_le ..
  have hout : (queuedOut l).length ≤ l.length := by
    rw [queuedOut, List.length_map]
    exact List.length_filter_le ..
  have hi := congrArg List.length h.inq
  have ho := congrArg List.length h.outq
  have ht := h.transmitted.length_le
  simp only [List.length_append, Ring.length_toList] at hi ho
  obtain ⟨h₁, h₂⟩ := hr
  exact ⟨by omega, by omega⟩

/-- `F` sends at most `k` packets, all of them accepted where there is room, and
takes nodes that differ in their queues and files only to such nodes, unless one
of them refuses a packet of the console. -/
structure Respects (k : Nat) (F : Node → Node) : Prop where
  sends : ∀ s, ∃ l, Sends s l (F s) ∧ l.length ≤ k
  took : ∀ s l, Roomy k s → Sends s l (F s) → Took l
  echo : ∀ s t l m, s.core = t.core → Sends s l (F s) → Sends t m (F t) → Took l → Took m →
    (F s).core = (F t).core ∧ l.map Handed.pkt = m.map Handed.pkt

namespace Respects

variable {j k : Nat} {F G : Node → Node}

theorem mono (h : Respects j F) (hjk : j ≤ k) : Respects k F where
  sends s := by
    obtain ⟨l, hl, hlen⟩ := h.sends s
    exact ⟨l, hl, hlen.trans hjk⟩
  took s l hr := h.took s l ⟨by have := hr.1; omega, by have := hr.2; omega⟩
  echo := h.echo

theorem comp (hf : Respects j F) (hg : Respects k G) : Respects (j + k) fun s => G (F s) where
  sends s := by
    obtain ⟨l, hl, hj⟩ := hf.sends s
    obtain ⟨m, hm, hk⟩ := hg.sends (F s)
    refine ⟨l ++ m, hl.trans hm, ?_⟩
    rw [List.length_append]
    omega
  took s l hr hs := by
    obtain ⟨l₁, h₁, hj⟩ := hf.sends s
    obtain ⟨l₂, h₂, -⟩ := hg.sends (F s)
    rw [hs.unique (h₁.trans h₂), Took.append]
    have hr₁ : Roomy j s := ⟨by have := hr.1; omega, by have := hr.2; omega⟩
    exact ⟨hf.took s l₁ hr₁ h₁, hg.took _ l₂ (h₁.roomy hj hr) h₂⟩
  echo s t l m hst hs ht hl hm := by
    obtain ⟨l₁, h₁, -⟩ := hf.sends s
    obtain ⟨l₂, h₂, -⟩ := hg.sends (F s)
    obtain ⟨m₁, k₁, -⟩ := hf.sends t
    obtain ⟨m₂, k₂, -⟩ := hg.sends (F t)
    obtain rfl := hs.unique (h₁.trans h₂)
    obtain rfl := ht.unique (k₁.trans k₂)
    rw [Took.append] at hl hm
    obtain ⟨hc, hp⟩ := hf.echo s t l₁ m₁ hst h₁ k₁ hl.1 hm.1
    obtain ⟨hc', hp'⟩ := hg.echo _ _ l₂ m₂ hc h₂ k₂ hl.2 hm.2
    exact ⟨hc', by rw [List.map_append, List.map_append, hp, hp']⟩

/-- A step that sends nothing and does not look at the queues. -/
theorem silent (hq : ∀ s, SameQueues s (F s)) (hc : ∀ s, (F s).core = (F s.core).core) :
    Respects 0 F where
  sends s := ⟨[], (hq s).sends, Nat.le_refl 0⟩
  took s l _ hs := by
    rw [hs.unique (hq s).sends]
    exact fun h hh => absurd hh List.not_mem_nil
  echo s t l m hst hs ht _ _ := by
    rw [hs.unique (hq s).sends, ht.unique (hq t).sends]
    exact ⟨by rw [hc s, hc t, hst], rfl⟩

/-- A step that depends on a part of the core. -/
theorem param {α : Type} (g : Node → α) {F : α → Node → Node} (hg : ∀ s, g s.core = g s)
    (h : ∀ a, Respects k (F a)) : Respects k fun s => F (g s) s where
  sends s := (h (g s)).sends s
  took s := (h (g s)).took s
  echo s t l m hst hs ht hl hm := by
    have he : g t = g s := by rw [← hg t, ← hst, hg s]
    rw [he] at ht ⊢
    exact (h (g s)).echo s t l m hst hs ht hl hm

theorem ite (c : Node → Bool) (hc : ∀ s, c s.core = c s) (hf : Respects k F) (hg : Respects k G) :
    Respects k fun s => if c s then F s else G s := by
  refine param c (F := fun b s => if b then F s else G s) hc fun b => ?_
  cases b with
  | true => exact hf
  | false => exact hg

theorem ite_fst (c : Node → Bool) (hc : ∀ s, c s.core = c s) {F G : Node → Node × Bool}
    (hf : Respects k fun s => (F s).1) (hg : Respects k fun s => (G s).1) :
    Respects k fun s => (if c s then F s else G s).1 := by
  have he : (fun s => (if c s then F s else G s).1) = fun s => if c s then (F s).1 else (G s).1 :=
    funext fun s => apply_ite Prod.fst _ _ _
  rw [he]
  exact .ite c hc hf hg

/-- A test that does not look at the node. -/
theorem branch {c : Prop} [Decidable c] {F G : Node → Node × Bool}
    (hf : Respects k fun s => (F s).1) (hg : Respects k fun s => (G s).1) :
    Respects k fun s => (if c then F s else G s).1 := by
  by_cases hc : c
  · simp only [if_pos hc]
    exact hf
  · simp only [if_neg hc]
    exact hg

theorem same : Respects k fun s => s :=
  (silent SameQueues.refl fun _ => rfl).mono (Nat.zero_le k)

/-- An assignment to a part of the core. -/
theorem assign (hq : ∀ s, SameQueues s (F s)) (hc : ∀ s, (F s).core = (F s.core).core) :
    Respects k F := (silent hq hc).mono (Nat.zero_le k)

end Respects

theorem tryXmit_core (s : Node) : (tryXmit s).core = s.core := by
  obtain ⟨q, x, l, h⟩ := exists_tryXmit_eq s
  rw [h]
  rfl

theorem enqueue_core (pkt : CanPacket) (s : Node) : (enqueue pkt s).1.core = s.core := by
  unfold enqueue
  split_ifs <;> rfl

theorem record_core (h : Handed) (s : Node) : (record h s).core = s.core := rfl

theorem queueBh_core (s : Node) : (queueBh s).core = s.core := rfl

theorem sendPktNoOutFixup_core (pkt : CanPacket) (s : Node) :
    (sendPktNoOutFixup pkt s).1.core = s.core := by
  have he := enqueue_core (incomingFixup s.jiffies pkt) s
  simp only [sendPktNoOutFixup, record_core]
  split_ifs
  · rw [tryXmit_core, queueBh_core, he]
  · rw [tryXmit_core, he]
  · rw [queueBh_core, he]
  · exact he

theorem Sends.of_sendPkt {pkt : CanPacket} {s : Node} {l : List Handed}
    (h : Sends s l (sendPktNoOutFixup pkt s).1) :
    ∃ i o, l = [⟨incomingFixup s.jiffies pkt, i, o⟩] ∧
      (sendPktNoOutFixup pkt s).2 = (i || o) := by
  obtain ⟨i, o, hh, hio⟩ := sendPktNoOutFixup_handed pkt s
  exact ⟨i, o, List.append_cancel_left (h.handed.symm.trans hh), hio⟩

/-- Whether a packet is accepted does not show in the core. -/
theorem respects_sendPktNoOutFixup (pkt : CanPacket) :
    Respects 1 fun s => (sendPktNoOutFixup pkt s).1 where
  sends s := by
    obtain ⟨h, hs⟩ := sendPktNoOutFixup_sends pkt s
    exact ⟨[h], hs, Nat.le_refl 1⟩
  took s l hr hs := by
    obtain ⟨i, o, rfl, hio⟩ := hs.of_sendPkt
    intro h hh _
    rw [List.mem_singleton.mp hh, ← hio, sendPktNoOutFixup_snd]
    have hi : s.inq.full = false := by
      rw [Bool.eq_false_iff, Ne, Ring.full_iff _ (by decide)]
      have := hr.1
      omega
    have ho : s.outq.full = false := by
      rw [Bool.eq_false_iff, Ne, Ring.full_iff _ (by decide)]
      have := hr.2
      omega
    rw [hi, ho]
    exact ite_self _
  echo s t l m hst hs ht _ _ := by
    obtain ⟨i, o, rfl, -⟩ := hs.of_sendPkt
    obtain ⟨i', o', rfl, -⟩ := ht.of_sendPkt
    have hj : s.core.jiffies = t.core.jiffies := congrArg Node.jiffies hst
    change s.jiffies = t.jiffies at hj
    refine ⟨?_, by rw [List.map_singleton, List.map_singleton, hj]⟩
    rw [sendPktNoOutFixup_core, sendPktNoOutFixup_core, hst]

theorem respects_sendPkt (pkt : CanPacket) : Respects 1 fun s => (sendPkt pkt s).1 :=
  .param (fun s => outgoingFixup s.canNodeid pkt) (fun _ => rfl) respects_sendPktNoOutFixup

/-- A packet of the console, after which its ACK is awaited. -/
def sendAwaited (pkt : CanPacket) (s : Node) : Node :=
  let r := sendPkt pkt s
  if r.2 then { r.1 with canconAckPending := true, ackTimer := true } else r.1

theorem respects_sendAwaited {pkt : CanPacket} (hp : pkt.ext.type = .dat) :
    Respects 1 (sendAwaited pkt) := by
  have hq : ∀ s, SameQueues (sendPkt pkt s).1 (sendAwaited pkt s) := by
    intro s
    unfold sendAwaited
    dsimp only
    split_ifs
    · exact ⟨rfl, rfl, rfl, rfl, rfl⟩
    · exact .refl _
  have hback : ∀ {s l}, Sends s l (sendAwaited pkt s) → Sends s l (sendPkt pkt s).1 := by
    intro s l hs
    obtain ⟨h, hh⟩ := sendPkt_sends pkt s
    rwa [hs.unique (hh.behind (hq s))]
  have hacc : ∀ {s l}, Sends s l (sendAwaited pkt s) → Took l → (sendPkt pkt s).2 = true := by
    intro s l hs hl
    obtain ⟨i, o, rfl, hio⟩ := (hback hs).of_sendPkt
    exact hio.trans (hl _ (List.mem_singleton_self _) hp)
  refine ⟨fun s => ?_, fun s l hr hs => (respects_sendPkt pkt).took s l hr (hback hs),
    fun s t l m hst hs ht hl hm => ?_⟩
  · obtain ⟨h, hh⟩ := sendPkt_sends pkt s
    exact ⟨[h], hh.behind (hq s), Nat.le_refl 1⟩
  · obtain ⟨hc, hpkts⟩ := (respects_sendPkt pkt).echo s t l m hst (hback hs) (hback ht) hl hm
    refine ⟨?_, hpkts⟩
    simp only [sendAwaited, hacc hs hl, hacc ht hm, if_true]
    change { (sendPkt pkt s).1.core with canconAckPending := true, ackTimer := true } =
      { (sendPkt pkt t).1.core with canconAckPending := true, ackTimer := true }
    rw [hc]

theorem respects_canconSendNext : Respects 1 canconSendNext := by
  refine .ite (fun s => canconUnconnected s.canconRmt) (fun _ => rfl)
    (.assign (F := fun s => { s with canconOutbuf := clearRing s.canconOutbuf })
      (fun _ => ⟨rfl, rfl, rfl, rfl, rfl⟩) fun _ => rfl) ?_
  refine .ite (fun s => s.canconAckPending) (fun _ => rfl) .same ?_
  refine .param (fun s => takeChars 4 s.canconOutbuf)
    (F := fun t s => if t.1.isEmpty then s
      else sendAwaited (consolePkt s t.1) { s with canconOutbuf := t.2 }) (fun _ => rfl) fun t => ?_
  cases t.1.isEmpty with
  | true => exact .same
  | false =>
    have hout : Respects 0 fun s => { s with canconOutbuf := t.2 } :=
      .assign (fun s => .outbuf s t.2) fun _ => rfl
    exact hout.comp (.param (α := { p : CanPacket // p.ext.type = .dat })
      (fun s => ⟨consolePkt s t.1, rfl⟩) (F := fun p => sendAwaited p.1) (fun _ => rfl)
      fun p => respects_sendAwaited p.2)

theorem respects_printk (m : String) : Respects 1 (printk m) := by
  have hput : Respects 0 fun s : Node =>
      { s with canconOutbuf := putPrintk (messageBytes m) s.canconOutbuf } :=
    .assign (fun s => .outbuf s _) fun _ => rfl
  exact .ite (fun s => canconUnconnected s.canconRmt || (messageBytes m).isEmpty) (fun _ => rfl)
    .same (hput.comp respects_canconSendNext)

theorem respects_canconRecvAck (timeout : Bool) : Respects 2 (canconRecvAck timeout) := by
  have hidle : Respects 0 fun s : Node => { s with ackTimer := false, canconAckPending := false } :=
    .assign (fun _ => ⟨rfl, rfl, rfl, rfl, rfl⟩) fun _ => rfl
  have hmsg : ∀ pending : Bool, Respects 1 fun s : Node =>
      if !pending then
        if timeout then printk "can: unexpected ACK timeout\n" s
        else printk "can: unexpected ACK received\n" s
      else if timeout then printk "can: consobj ACK timed out\n" s
      else s := by
    intro pending
    cases pending <;> cases timeout
    · exact respects_printk _
    · exact respects_printk _
    · exact .same
    · exact respects_printk _
  exact .param (fun s => s.canconAckPending) (fun _ => rfl) fun pending =>
    (hidle.comp (hmsg pending)).comp respects_canconSendNext

theorem respects_canobjAcknak (type : CanType) (p : CanPacket) (data : Option CanDat) :
    Respects 1 (canobjAcknak type p data) := respects_sendPkt _

theorem respects_answer {α : Type} (g : Node → α) (hg : ∀ s, g s.core = g s) (type : CanType)
    (p : CanPacket) (data : α → Option CanDat) :
    Respects 1 fun s => canobjAcknak type p (data (g s)) s :=
  .param g hg fun a => respects_canobjAcknak type p (data a)

theorem respects_canobjConnect (p : CanPacket) : Respects 2 fun s => (canobjConnect p s).1 := by
  unfold canobjConnect
  cases p.ext.type with
  | ro =>
    exact (respects_answer (fun s => s.canconRmt.extDat) (fun _ => rfl) .ack p some).mono (by decide)
  | wo =>
    refine .mono (j := 0 + 1) (.ite_fst (fun s => !canconUnconnected s.canconRmt) (fun _ => rfl)
      (respects_canobjAcknak .nak p none) ?_) (by decide)
    have hset : Respects 0 fun s => canobjCanconHostSet (canconSetcon (some p) s) :=
      .assign (fun _ => ⟨rfl, rfl, rfl, rfl, rfl⟩) fun _ => rfl
    exact hset.comp (respects_answer (fun s => s.canconRmt.extDat) (fun _ => rfl) .ack p some)
  | _ => exact .same

theorem respects_canobjDisconnect (p : CanPacket) :
    Respects 2 fun s => (canobjDisconnect p s).1 := by
  unfold canobjDisconnect
  cases p.ext.type with
  | wo =>
    refine .mono (j := 0 + 1 + 0) (.ite_fst (fun s => canconUnconnected s.canconRmt) (fun _ => rfl)
      (respects_canobjAcknak .nak p none) ?_) (by decide)
    have hset : Respects 0 fun s => canobjCanconHostSet (canconSetcon none s) :=
      .assign (fun _ => ⟨rfl, rfl, rfl, rfl, rfl⟩) fun _ => rfl
    have hhang : Respects 0 canttyHangup :=
      .assign (fun _ => ⟨rfl, rfl, rfl, rfl, rfl⟩) fun _ => rfl
    exact (hset.comp (respects_canobjAcknak .ack p none)).comp hhang
  | _ => exact .same

theorem respects_canttyRecvDat (cs : List Byte) : Respects 0 (canttyRecvDat cs) := by
  have hpush : Respects 0 canttyRecvPush := by
    refine .silent (fun s => ?_) fun s => ?_
    · unfold canttyRecvPush
      split
      · exact .refl s
      · split_ifs
        · exact .refl s
        · exact ⟨rfl, rfl, rfl, rfl, rfl⟩
    · have htty : s.core.ttyp = s.ttyp := rfl
      simp only [canttyRecvPush, htty]
      split
      · rfl
      · split_ifs <;> rfl
  have hput : Respects 0 fun s => { s with canconInbuf := putChars cs s.canconInbuf } :=
    .assign (fun _ => ⟨rfl, rfl, rfl, rfl, rfl⟩) fun _ => rfl
  exact hput.comp hpush

theorem respects_canobjDat (p : CanPacket) : Respects 2 fun s => (canobjDat p s).1 := by
  unfold canobjDat
  refine .ite_fst (fun s => canconUnconnected s.canconRmt) (fun _ => rfl) .same ?_
  cases p.ext.type with
  | dat =>
    refine .mono (j := 1 + 0) ?_ (by decide)
    exact .param (fun s => recvChars p s) (fun _ => rfl) fun cs =>
      (respects_canobjAcknak .ack p none).comp (respects_canttyRecvDat cs)
  | _ => exact .same

theorem respects_canobjConsobj (p : CanPacket) : Respects 2 fun s => (canobjConsobj p s).1 := by
  unfold canobjConsobj
  cases p.ext.type with
  | ack => exact respects_canconRecvAck false
  | nak => exact (respects_printk _).mono (by decide)
  | _ => exact .same

theorem respects_canobjBreak (p : CanPacket) : Respects 2 fun s => (canobjBreak p s).1 := by
  unfold canobjBreak
  cases p.ext.type with
  | wo =>
    have hhalt : Respects 0 fun s : Node => { s with halted := true } :=
      .assign (fun _ => ⟨rfl, rfl, rfl, rfl, rfl⟩) fun _ => rfl
    exact ((respects_canobjAcknak .ack p none).comp (respects_printk _)).comp hhalt
  | _ => exact .same

theorem respects_canobjTestrw (p : CanPacket) : Respects 2 fun s => (canobjTestrw p s).1 := by
  have hans := respects_answer (fun s => s.objVal) (fun _ => rfl) .ack p some
  unfold canobjTestrw
  cases p.ext.type with
  | wo =>
    have hset : Respects 1 fun s : Node => { s with objVal := p.dat } :=
      .assign (fun _ => ⟨rfl, rfl, rfl, rfl, rfl⟩) fun _ => rfl
    exact hans.comp hset
  | ro => exact hans.mono (by decide)
  | _ => exact .same

theorem canobjReadProp_acknak {p : CanPacket} (h : p.ext.type = .ro) (path : ObpPath)
    (table : List (List Char)) (s : Node) :
    (canobjReadProp path table p s).1 =
      canobjAcknak (if (obpGetcan path table s.prom).isSome then .ack else .nak) p
        (some ((obpGetcan path table s.prom).getD s.stack.dat)) s := by
  simp only [canobjReadProp, h]
  cases obpGetcan path table s.prom with
  | none => rfl
  | some val => rfl

theorem respects_canobjReadProp (path : ObpPath) (table : List (List Char)) (p : CanPacket) :
    Respects 2 fun s => (canobjReadProp path table p s).1 := by
  cases ht : p.ext.type with
  | ro =>
    rw [funext (canobjReadProp_acknak ht path table)]
    refine .mono (j := 1) ?_ (by decide)
    exact .param (fun s => (obpGetcan path table s.prom, s.stack.dat)) (fun _ => rfl)
      (F := fun a => canobjAcknak (if a.1.isSome then .ack else .nak) p (some (a.1.getD a.2)))
      fun a => respects_canobjAcknak _ _ _
  | _ =>
    simp only [canobjReadProp, ht]
    exact .same

theorem canobjResetIo_acknak_ro {p : CanPacket} (h : p.ext.type = .ro) (s : Node) :
    (canobjResetIo p s).1 =
      canobjAcknak (if (obpGetcan .inputDevice obpInputDeviceValues s.prom).isSome then .ack
        else .nak) p (some ((obpGetcan .inputDevice obpInputDeviceValues s.prom).getD 0)) s := by
  simp only [canobjResetIo, h]
  cases obpGetcan .inputDevice obpInputDeviceValues s.prom with
  | none => rfl
  | some oldval => rfl

theorem canobjResetIo_acknak_wo {p : CanPacket} (h : p.ext.type = .wo) (s : Node) :
    (canobjResetIo p s).1 =
      canobjAcknak (resetIo p.dat s.prom).2 p
        (some ((obpGetcan .inputDevice obpInputDeviceValues s.prom).getD 0))
        { s with prom := (resetIo p.dat s.prom).1 } := by
  simp only [canobjResetIo, resetIo, h]
  cases obpGetcan .inputDevice obpInputDeviceValues s.prom with
  | none => rfl
  | some oldval => rfl

theorem respects_canobjResetIo (p : CanPacket) : Respects 2 fun s => (canobjResetIo p s).1 := by
  cases ht : p.ext.type with
  | ro =>
    rw [funext (canobjResetIo_acknak_ro ht)]
    refine .mono (j := 1) ?_ (by decide)
    exact .param (fun s => obpGetcan .inputDevice obpInputDeviceValues s.prom) (fun _ => rfl)
      (F := fun a => canobjAcknak (if a.isSome then .ack else .nak) p (some (a.getD 0)))
      fun a => respects_canobjAcknak _ _ _
  | wo =>
    rw [funext (canobjResetIo_acknak_wo ht)]
    refine .mono (j := 0 + 1) ?_ (by decide)
    refine .param
      (fun s => (resetIo p.dat s.prom, obpGetcan .inputDevice obpInputDeviceValues s.prom))
      (fun _ => rfl)
      (F := fun a s => canobjAcknak a.1.2 p (some (a.2.getD 0)) { s with prom := a.1.1 }) fun a => ?_
    have hset : Respects 0 fun s : Node => { s with prom := a.1.1 } :=
      .assign (fun _ => ⟨rfl, rfl, rfl, rfl, rfl⟩) fun _ => rfl
    exact hset.comp (respects_canobjAcknak _ _ _)
  | _ =>
    simp only [canobjResetIo, ht]
    exact .same

theorem respects_canobjHeartbeat (p : CanPacket) :
    Respects 2 fun s => (canobjHeartbeat p s).1 := by
  unfold canobjHeartbeat
  cases p.ext.type with
  | ro => exact (respects_answer (fun s => s.canHbVal) (fun _ => rfl) .ack p some).mono (by decide)
  | _ => exact .same

theorem respects_canobjForceDisconn (p : CanPacket) :
    Respects 2 fun s => (canobjForceDisconn p s).1 := by
  unfold canobjForceDisconn
  cases p.ext.type with
  | wo =>
    dsimp only
    split_ifs
    · exact .same
    · exact .ite_fst (fun s => canInuseConsobj (datExt p.dat).object s.fds) (fun _ => rfl) .same
        ((respects_canobjAcknak _ _ _).mono (by decide))
  | _ => exact .same

theorem respects_canobjSwitch (p : CanPacket) : Respects 2 fun s => (canobjSwitch p s).1 := by
  unfold canobjSwitch
  dsimp only
  refine .branch (respects_canobjConnect p) ?_
  refine .branch (respects_canobjDisconnect p) ?_
  refine .branch (respects_canobjBreak p) ?_
  refine .branch (respects_canobjForceDisconn p) ?_
  refine .branch (respects_canobjTestrw p) ?_
  refine .branch (respects_canobjHeartbeat p) ?_
  refine .branch (respects_canobjReadProp _ _ p) ?_
  refine .branch (respects_canobjResetIo p) ?_
  refine .branch (respects_canobjReadProp _ _ p) ?_
  exact .branch (respects_canobjDat p) .same

/-- A packet for the object of the connected console is dispatched twice. -/
theorem respects_canobjPacket (p : CanPacket) : Respects 4 fun s => (canobjPacket p s).1 := by
  have htwice : Respects 2 fun s =>
      if !canconUnconnected s.canconRmt && decide (p.ext.object = s.canconRmt.object) then
        (canobjConsobj p s).1 else s :=
    .ite (fun s => !canconUnconnected s.canconRmt && decide (p.ext.object = s.canconRmt.object))
      (fun _ => rfl) (respects_canobjConsobj p) .same
  have he : (fun s => (canobjPacket p s).1) = fun s =>
      (fun s => if !canconUnconnected s.canconRmt && decide (p.ext.object = s.canconRmt.object) then
        (canobjConsobj p s).1 else s) (canobjSwitch p s).1 := by
    funext s
    simp only [canobjPacket]
    cases canconUnconnected (canobjSwitch p s).1.canconRmt with
    | true => rfl
    | false =>
      by_cases ho : p.ext.object = (canobjSwitch p s).1.canconRmt.object
      · simp [ho]
      · simp [ho]
  rw [he]
  exact (respects_canobjSwitch p).comp htwice

end MeikoCs2
