import MeikoCs2.ConsoleStream

/-! Waiting for the ACK of a console packet: the timer that bounds the wait, and
what has to happen between one packet and the next. -/

namespace MeikoCs2

theorem Session.Step.timer_eq_pending {x y : Session} {e : ConEvent} (h : Session.Step x e y)
    (hx : x.timer = x.pending) : y.timer = y.pending := by
  cases h <;> first | exact hx | rfl

theorem Session.timer_eq_pending {rmt : CanHeaderExt} {l : List ConEvent} {x : Session}
    (h : Path Session.Step (.start rmt) l x) : x.timer = x.pending :=
  h.invariant (P := fun x => x.timer = x.pending) rfl fun _ _ _ hx hs => hs.timer_eq_pending hx

/-- The ACK timer is armed exactly while an ACK is pending, and `add_timer` never
finds it armed. -/
theorem ack_timer_invariant {n : Node} {tr : List (Traced × NodeOp)} {t : Traced}
    (h : Run TracedStep (.init n) tr t) :
    (t.node.ackTimer = true ↔ t.node.canconAckPending = true) ∧
    ∀ pkt cs armed, .sent pkt cs armed ∈ t.log → armed = false := by
  have hp := (Traced.run_follows h).2
  refine ⟨?_, fun pkt cs armed hm => ?_⟩
  · have ht : t.node.ackTimer = t.node.canconAckPending := Session.timer_eq_pending hp
    rw [ht]
  · obtain ⟨l, l', hl⟩ := List.append_of_mem hm
    rw [hl] at hp
    obtain ⟨x, hx, hs⟩ := hp.of_append
    cases hs with
    | cons hst _ =>
      cases hst with
      | sent hb => exact (Session.timer_eq_pending hx).trans hb.idle

theorem ack_timer_invariant_armed :
    ∃ tr t, Run TracedStep (.init hosted) tr t ∧ t.node.canconAckPending = true ∧
      t.node.ackTimer = true := by
  obtain ⟨tr, t, hr, _, _, hg⟩ := Traced.exists_run hosted (fun _ _ => true)
    [.ttyPutChar 0x61, .ackTimeout, .ttyPutChar 0x62] (fun t => t.node.canconAckPending)
    (by decide +kernel)
  exact ⟨tr, t, hr, hg, (ack_timer_invariant hr).1.mpr hg⟩

def SameObject (x y : CanHeaderExt) : Prop :=
  x.cluster = y.cluster ∧ x.module = y.module ∧ x.node = y.node ∧ x.object = y.object

instance (x y : CanHeaderExt) : Decidable (SameObject x y) :=
  inferInstanceAs (Decidable (_ ∧ _ ∧ _ ∧ _))

def ConEvent.isSent : ConEvent → Bool
  | .sent _ _ _ => true
  | _ => false

def ConEvent.isDispatched : ConEvent → Bool
  | .dispatched _ => true
  | _ => false

def Releases (pkt : CanPacket) : ConEvent → Prop
  | .expired => True
  | .dispatched p => p.ext.type = .ack ∧ SameObject p.ext pkt.ext
  | _ => False

/-- Between two consecutive console packets the timer of the first one expired
or its ACK was dispatched. -/
def StopAndWait (log : List ConEvent) : Prop :=
  ∀ a p cs armed b q cs' armed' c,
    log = a ++ .sent p cs armed :: (b ++ .sent q cs' armed' :: c) →
    (∀ e ∈ b, e.isSent = false) → ∃ e ∈ b, Releases p e

def LastSent (log : List ConEvent) (pkt : CanPacket) (b : List ConEvent) : Prop :=
  (∃ a cs armed, log = a ++ .sent pkt cs armed :: b) ∧ ∀ e ∈ b, e.isSent = false

/-- An ACK that ends the wait names the packet that is waited for. -/
def Genuine (t : Traced) : NodeOp → Prop
  | .bh => ∀ pkt q, ringToPkt t.node.inq = some (pkt, q) →
      isMypacket t.node.canNodeid pkt = true → t.node.session.Hears pkt →
      t.node.canconAckPending = true → ∀ p b, LastSent t.log p b → SameObject pkt.ext p.ext
  | _ => True

structure Waits (l : List ConEvent) (x : Session) : Prop where
  spaced : StopAndWait l
  idle : x.pending = false → ∀ p b, LastSent l p b → ∃ e ∈ b, Releases p e

theorem Session.Step.ends_wait {x y : Session} {e : ConEvent} (h : Session.Step x e y)
    (hx : x.pending = true) (hy : y.pending = false) :
    e = .expired ∨ ∃ pkt, e = .dispatched pkt ∧ x.Hears pkt := by
  cases h with
  | expired _ => exact .inl rfl
  | heard hh => exact .inr ⟨_, rfl, hh⟩
  | sent _ => cases hy
  | _ =>
    rw [hx] at hy
    cases hy

theorem LastSent.of_concat {l b : List ConEvent} {e : ConEvent} {p : CanPacket}
    (h : LastSent (l ++ [e]) p b) :
    (∃ cs armed, e = .sent p cs armed ∧ b = []) ∨ ∃ b', LastSent l p b' ∧ b = b' ++ [e] := by
  obtain ⟨⟨a, cs, armed, hl⟩, hb⟩ := h
  rcases List.eq_nil_or_concat b with rfl | ⟨b', z, rfl⟩
  · obtain ⟨_, he⟩ := List.append_inj' hl rfl
    exact .inl ⟨cs, armed, List.singleton_inj.mp he, rfl⟩
  · rw [List.concat_eq_append] at *
    have hl₁ : l ++ [e] = (a ++ .sent p cs armed :: b') ++ [z] := by simpa using hl
    obtain ⟨hl₂, he⟩ := List.append_inj' hl₁ rfl
    obtain rfl := List.singleton_inj.mp he
    exact .inr ⟨b', ⟨⟨a, cs, armed, hl₂⟩, fun e he => hb e (List.mem_append_left _ he)⟩, rfl⟩

theorem Waits.step {l : List ConEvent} {x y : Session} {e : ConEvent} (h : Waits l x)
    (hs : Session.Step x e y)
    (hg : ∀ pkt, e = .dispatched pkt → x.Hears pkt → x.pending = true →
      ∀ p b, LastSent l p b → SameObject pkt.ext p.ext) : Waits (l ++ [e]) y where
  spaced a p cs armed b q cs' armed' c hl hb := by
    rcases List.eq_nil_or_concat c with rfl | ⟨c', z, rfl⟩
    · -- the new entry is the second packet
      have hl₁ : l ++ [e] = (a ++ .sent p cs armed :: b) ++ [.sent q cs' armed'] := by
        simpa using hl
      obtain ⟨hl₂, he⟩ := List.append_inj' hl₁ rfl
      obtain rfl := List.singleton_inj.mp he
      cases hs with
      | sent hbt => exact h.idle hbt.idle p b ⟨⟨a, cs, armed, hl₂⟩, hb⟩
    · rw [List.concat_eq_append] at hl
      have hl' : l ++ [e] = (a ++ .sent p cs armed :: (b ++ .sent q cs' armed' :: c')) ++ [z] := by
        simpa using hl
      exact h.spaced a p cs armed b q cs' armed' c' (List.append_inj' hl' rfl).1 hb
  idle hy p b hl := by
    rcases hl.of_concat with ⟨cs, armed, rfl, rfl⟩ | ⟨b', hl', rfl⟩
    · cases hs with
      | sent _ => cases hy
    · cases hx : x.pending with
      | false =>
        obtain ⟨r, hr, hrel⟩ := h.idle hx p b' hl'
        exact ⟨r, List.mem_append_left _ hr, hrel⟩
      | true =>
        refine ⟨e, List.mem_append_right _ (List.mem_singleton_self e), ?_⟩
        rcases hs.ends_wait hx hy with rfl | ⟨pkt, rfl, hh⟩
        · trivial
        · exact ⟨hh.1, hg pkt rfl hh hx p b' hl'⟩

theorem Waits.path {l es : List ConEvent} {x y : Session} (h : Waits l x)
    (hp : Path Session.Step x es y) (hd : ∀ e ∈ es, e.isDispatched = false) :
    Waits (l ++ es) y := by
  induction hp generalizing l with
  | nil x => rwa [List.append_nil]
  | @cons x y z e es hs _ ih =>
    have he := hd e List.mem_cons_self
    have hw := h.step hs fun pkt hpkt => by
      rw [hpkt] at he
      cases he
    rw [List.append_cons]
    exact ih hw fun e' he' => hd e' (List.mem_cons_of_mem _ he')

def Inner (l : List ConEvent) : Prop := ∀ e ∈ l, e.isDispatched = false

theorem Inner.nil : Inner [] := by simp [Inner]

theorem Inner.append {l l' : List ConEvent} (h : Inner l) (h' : Inner l') : Inner (l ++ l') :=
  fun e he => (List.mem_append.mp he).elim (h e) (h' e)

theorem Outgoing.inner {l : List ConEvent} (h : Outgoing l) : Inner l := by
  intro e he
  have ho := h e he
  cases e with
  | dispatched pkt => cases ho
  | _ => rfl

theorem recvLog_inner (cs : List Byte) (r : CharRing) : Inner (recvLog cs r) := by
  intro e he
  obtain ⟨c, rfl | rfl⟩ := mem_recvLog he <;> rfl

theorem recvDatLog_inner (cs : List Byte) (s : Node) : Inner (recvDatLog cs s) := by
  refine (recvLog_inner cs _).append ?_
  unfold recvPushLog
  cases s.ttyp with
  | none => exact .nil
  | some tty =>
    simp only
    split_ifs <;> simp [Inner, ConEvent.isDispatched]

theorem Switched.inner {p : CanPacket} {s u : Node} {l : List ConEvent} (h : Switched p s l u) :
    Inner l := by
  cases h with
  | broke _ _ => exact (printkLog_outgoing _ _).inner
  | received _ _ _ => exact recvDatLog_inner _ _
  | _ => simp [Inner, ConEvent.isDispatched]

theorem packetLog_eq (p : CanPacket) (s : Node) :
    ∃ l, packetLog p s = .dispatched p :: l ∧ Inner l := by
  refine ⟨_, rfl, (canobjSwitch_switched p s).inner.append ?_⟩
  split_ifs
  · exact (consobjLog_outgoing p _).inner
  · exact .nil

theorem bhLog_cases (s : Node) :
    Inner (bhLog s) ∨
    ∃ pkt q l, ringToPkt s.inq = some (pkt, q) ∧ isMypacket s.canNodeid pkt = true ∧
      bhLog s = .dispatched pkt :: l ∧ Inner l := by
  unfold bhLog
  cases ringToPkt s.inq with
  | none => exact .inl .nil
  | some x =>
    obtain ⟨pkt, q⟩ := x
    simp only
    split_ifs with hm
    · obtain ⟨l, hl, hi⟩ := packetLog_eq pkt { s with inq := q }
      exact .inr ⟨pkt, q, l, rfl, hm, hl, hi⟩
    · exact .inl .nil

theorem consoleLog_cases (s : Node) (op : NodeOp) :
    Inner (consoleLog s op) ∨
    ∃ pkt q l, op = .bh ∧ ringToPkt s.inq = some (pkt, q) ∧ isMypacket s.canNodeid pkt = true ∧
      consoleLog s op = .dispatched pkt :: l ∧ Inner l := by
  cases op with
  | ttyWrite stopped buf => exact .inl (ttyWriteLog_outgoing stopped buf s).inner
  | ttyPutChar ch => exact .inl ((queueLog_outgoing _ _).append (sendNextLog_outgoing _)).inner
  | ttyFlushBuffer => exact .inl (List.forall_mem_singleton.mpr rfl)
  | printk str => exact .inl (printkLog_outgoing str s).inner
  | ackTimeout => exact .inl (List.forall_mem_cons.mpr ⟨rfl, (recvAckLog_outgoing true _).inner⟩)
  | bh =>
    rcases bhLog_cases s with h | ⟨pkt, q, l, hr, hm, hl, hi⟩
    · exact .inl h
    · exact .inr ⟨pkt, q, l, rfl, hr, hm, hl, hi⟩
  | _ => exact .inl .nil

theorem TracedStep.waits {t u : Traced} {op : NodeOp} (hs : TracedStep t op u)
    (hq : Quiet t.node) (hw : Waits t.log t.node.session) (hg : Genuine t op) :
    Waits u.log u.node.session := by
  obtain ⟨hst, hl⟩ := hs.eq
  have hp : Path Session.Step t.node.session (consoleLog t.node op) u.node.session :=
    Node.step_logs hst hq
  rw [hl]
  rcases consoleLog_cases t.node op with hi | ⟨pkt, q, l, rfl, hr, hm, hc, hi⟩
  · exact hw.path hp hi
  · rw [hc] at hp ⊢
    cases hp with
    | cons hd hp =>
      have h₁ := hw.step hd fun pkt' he hh hx => by
        cases he
        exact hg pkt q hr hm hh hx
      rw [List.append_cons]
      exact h₁.path hp hi

/-- Stop and wait on console output, as long as no ACK for another packet comes
in on the object of the console. -/
theorem stop_and_wait {n : Node} {tr : List (Traced × NodeOp)} {t : Traced}
    (h : Run TracedStep (.init n) tr t) (hg : ∀ x ∈ tr, Genuine x.1 x.2) : StopAndWait t.log := by
  suffices hw : Quiet t.node ∧ Waits t.log t.node.session from hw.2.spaced
  refine h.invariant_of (P := fun t => Quiet t.node ∧ Waits t.log t.node.session) ?_ ?_ hg
  · refine ⟨canInit_quiet n, ⟨fun a p cs armed b q cs' armed' c hl => ?_, fun _ p b hl => ?_⟩⟩
    · exact absurd hl (by simp [Traced.init])
    · obtain ⟨⟨a, cs, armed, hl⟩, _⟩ := hl
      exact absurd hl (by simp [Traced.init])
  · rintro t op u ⟨hq, hw⟩ hg hs
    exact ⟨Node.step_quiet hs.eq.1 hq, hs.waits hq hw hg⟩

def ackFrom (src : BitVec 6) : CanPacket :=
  ⟨0, ⟨0, 1, src.setWidth 5, 0, 4⟩, ⟨0, .ack, 0, 0, src, 0x100⟩, 0⟩

def ackedLog (src : BitVec 6) : List ConEvent :=
  [0x61, 0x62, 0x63, 0x64, 0x65].map .queued ++
    .sent (consolePkt hosted [0x61, 0x62, 0x63, 0x64]) [0x61, 0x62, 0x63, 0x64] false ::
      ([.dispatched (ackFrom src)] ++ .sent (consolePkt hosted [0x65]) [0x65] false :: [])

/-- A test that implies `Genuine`: every console packet in the log is named. -/
def namesAll (t : Traced) : NodeOp → Bool
  | .bh => (ringToPkt t.node.inq).all fun x =>
      !isMypacket t.node.canNodeid x.1 || t.log.all fun
        | .sent p _ _ => SameObject x.1.ext p.ext
        | _ => true
  | _ => true

theorem genuine_of_namesAll {t : Traced} {op : NodeOp} (h : namesAll t op = true) :
    Genuine t op := by
  cases op with
  | bh =>
    intro pkt q hr hm _ _ p b hl
    obtain ⟨⟨a, cs, armed, hl⟩, _⟩ := hl
    simp only [namesAll, hr, Option.all_some, hm, Bool.not_true, Bool.false_or, hl,
      List.all_append, List.all_cons, Bool.and_eq_true, decide_eq_true_eq] at h
    exact h.2.1
  | _ => trivial

theorem stop_and_wait_acked :
    ∃ tr t, Run TracedStep (.init hosted) tr t ∧ t.log = ackedLog 2 ∧ StopAndWait t.log := by
  obtain ⟨tr, t, hr, _, hok, hg⟩ := Traced.exists_run hosted namesAll
    [.printk [0x61, 0x62, 0x63, 0x64, 0x65], .tryRecv [ackFrom 2], .bh, .bh]
    (fun t => t.log = ackedLog 2) (by decide +kernel)
  exact ⟨tr, t, hr, of_decide_eq_true hg,
    stop_and_wait hr fun x hx => genuine_of_namesAll (hok x hx)⟩

/-- An ACK of node 5 on the number of the console's object. -/
theorem foreign_ack_releases :
    ∃ tr t, Run TracedStep (.init hosted) tr t ∧ ¬ StopAndWait t.log := by
  obtain ⟨tr, t, hr, _, _, hg⟩ := Traced.exists_run hosted (fun _ _ => true)
    [.printk [0x61, 0x62, 0x63, 0x64, 0x65], .tryRecv [ackFrom 5], .bh, .bh]
    (fun t => t.log = ackedLog 5) (by decide +kernel)
  refine ⟨tr, t, hr, fun h => ?_⟩
  obtain ⟨e, he, hrel⟩ := h _ _ _ _ [.dispatched (ackFrom 5)] _ _ _ [] (of_decide_eq_true hg)
    (by decide)
  rw [List.mem_singleton.mp he] at hrel
  exact absurd hrel.2.2.2.1 (by decide)

end MeikoCs2
