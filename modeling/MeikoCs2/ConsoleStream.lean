import MeikoCs2.SentLog

/-! What becomes of the characters of a console: along every run each one that
entered a ring left it once, in order, or is still in it, and those that leave
during a session entered during that session. -/

namespace MeikoCs2

structure Traced where
  node : Node
  log : List ConEvent

def Traced.init (n : Node) : Traced := ⟨canInit n, []⟩

def Traced.step (t : Traced) (op : NodeOp) : Option Traced :=
  (t.node.step op).map fun u => ⟨u, t.log ++ consoleLog t.node op⟩

def TracedStep (t : Traced) (op : NodeOp) (u : Traced) : Prop := t.step op = some u

theorem TracedStep.eq {t u : Traced} {op : NodeOp} (h : TracedStep t op u) :
    t.node.step op = some u.node ∧ u.log = t.log ++ consoleLog t.node op := by
  obtain ⟨v, hv, rfl⟩ := Option.map_eq_some_iff.mp h
  exact ⟨hv, rfl⟩

def Session.start (rmt : CanHeaderExt) : Session := ⟨rmt, [], [], false, false⟩

theorem canInit_session (n : Node) :
    (canInit n).session = Session.start (canInit n).canconRmt := by
  simp only [canInit, canobjCanconHostGet]
  split <;> rfl

theorem canInit_quiet (n : Node) : Quiet (canInit n) := by
  have h := canInit_session n
  simp only [Node.session, Session.start, Session.mk.injEq] at h
  exact fun _ => ⟨h.2.1, h.2.2.1⟩

/-- Every run of a node is a run of the automaton. -/
theorem Traced.run_follows {n : Node} {tr : List (Traced × NodeOp)} {t : Traced}
    (h : Run TracedStep (.init n) tr t) :
    Quiet t.node ∧ Path Session.Step (.start (canInit n).canconRmt) t.log t.node.session := by
  apply h.invariant
  · refine ⟨canInit_quiet n, ?_⟩
    rw [← canInit_session]
    exact .nil _
  · rintro t op u ⟨hq, hp⟩ hs
    obtain ⟨hst, hl⟩ := hs.eq
    rw [hl]
    exact ⟨Node.step_quiet hst hq, hp.append (Node.step_logs hst hq)⟩

theorem Traced.run_dats {n : Node} {tr : List (Traced × NodeOp)} {t : Traced}
    (h : Run TracedStep (.init n) tr t) :
    datsHanded t.node = datsHanded (canInit n) ++ tr.flatMap fun x => eventDats x.1.node x.2 := by
  induction h with
  | nil => exact (List.append_nil _).symm
  | snoc _ hst ih =>
    rw [Node.step_dats hst.eq.1, ih, List.flatMap_append, List.append_assoc, List.flatMap_singleton]

theorem Traced.exists_run (n : Node) (ok : Traced → NodeOp → Bool) (ls : List NodeOp)
    (goal : Traced → Bool) (h : (steps Traced.step ok (.init n) ls).any goal = true) :
    ∃ tr t, Run TracedStep (.init n) tr t ∧ tr.map Prod.snd = ls ∧ (∀ x ∈ tr, ok x.1 x.2 = true) ∧
      goal t = true := exists_run_of_any ok ls goal h

def Node.withHost (nodeid : BitVec 32) (rmt : CanHeaderExt) : Node :=
  .boot nodeid rmt (.init nodeid)
    ⟨fun p => if p = .canconHost then some (Nat.toDigits 10 rmt.extDat.toNat) else none,
      fun _ => true, 0⟩

def payload (pkt : CanPacket) : List Byte :=
  (List.range (pkt.can.length.toNat - 4)).map (datB pkt.dat)

def accepted (l : List ConEvent) : List Byte :=
  l.flatMap fun
    | .queued c => [c]
    | _ => []

def delivered (l : List ConEvent) : List Byte :=
  l.flatMap fun
    | .sent pkt _ _ => payload pkt
    | _ => []

/-- The characters that left `cancon_outbuf`: in a packet that was taken or
refused, or by a clear. -/
def taken (l : List ConEvent) : List Byte :=
  l.flatMap fun
    | .sent pkt _ _ => payload pkt
    | .dropped pkt _ => payload pkt
    | .cleared cs => cs
    | _ => []

def entered (l : List ConEvent) : List Byte :=
  l.flatMap fun
    | .received c => [c]
    | _ => []

def passedOn (l : List ConEvent) : List Byte :=
  l.flatMap fun
    | .pushed cs => cs
    | .discarded cs => cs
    | _ => []

theorem Session.Batch.payload_eq {x : Session} {pkt : CanPacket} {cs : List Byte}
    (h : x.Batch pkt cs) : payload pkt = cs := by
  rw [payload, h.length, Nat.add_sub_cancel_left]
  exact h.bytes

theorem Session.Step.out_eq {x y : Session} {e : ConEvent} (h : Session.Step x e y) :
    x.out ++ accepted [e] = taken [e] ++ y.out := by
  cases h with
  | sent h =>
    simp only [accepted, taken, List.flatMap_cons, List.flatMap_nil, List.append_nil, h.payload_eq,
      h.chars, List.take_append_drop]
  | dropped h =>
    simp only [accepted, taken, List.flatMap_cons, List.flatMap_nil, List.append_nil, h.payload_eq,
      h.chars, List.take_append_drop]
  | _ => simp [accepted, taken]

theorem Session.Step.inb_eq {x y : Session} {e : ConEvent} (h : Session.Step x e y) :
    x.inb ++ entered [e] = passedOn [e] ++ y.inb := by
  cases h <;> simp [entered, passedOn]

theorem accepted_append (l l' : List ConEvent) : accepted (l ++ l') = accepted l ++ accepted l' :=
  List.flatMap_append

theorem taken_append (l l' : List ConEvent) : taken (l ++ l') = taken l ++ taken l' :=
  List.flatMap_append

theorem entered_append (l l' : List ConEvent) : entered (l ++ l') = entered l ++ entered l' :=
  List.flatMap_append

theorem passedOn_append (l l' : List ConEvent) : passedOn (l ++ l') = passedOn l ++ passedOn l' :=
  List.flatMap_append

theorem delivered_sublist_taken (l : List ConEvent) : (delivered l).Sublist (taken l) := by
  induction l with
  | nil => exact .slnil
  | cons e l ih =>
    simp only [delivered, taken, List.flatMap_cons] at ih ⊢
    apply List.Sublist.append _ ih
    cases e <;> simp

theorem Session.out_accounts {x y : Session} {l : List ConEvent} (h : Path Session.Step x l y) :
    x.out ++ accepted l = taken l ++ y.out := by
  induction h with
  | nil x => simp [accepted, taken]
  | @cons x y z e l hst _ ih =>
    have he := hst.out_eq
    calc x.out ++ accepted ([e] ++ l) = (x.out ++ accepted [e]) ++ accepted l := by
          rw [accepted_append, List.append_assoc]
      _ = taken [e] ++ (y.out ++ accepted l) := by rw [he, List.append_assoc]
      _ = taken ([e] ++ l) ++ z.out := by rw [ih, taken_append, List.append_assoc]

theorem Session.Batch.length_payload {x : Session} {pkt : CanPacket} {cs : List Byte}
    (h : x.Batch pkt cs) : 1 ≤ (payload pkt).length ∧ (payload pkt).length ≤ 4 ∧
      pkt.can.length.toNat = 4 + (payload pkt).length := by
  have hne := List.length_pos_iff.mpr h.ne_nil
  have hle : cs.length ≤ 4 := by
    rw [h.chars, List.length_take]
    omega
  rw [h.payload_eq]
  exact ⟨hne, hle, h.length⟩

def offered (l : List ConEvent) : List Byte :=
  l.flatMap fun
    | .queued c => [c]
    | .refused c => [c]
    | _ => []

theorem offered_append (l l' : List ConEvent) : offered (l ++ l') = offered l ++ offered l' :=
  List.flatMap_append

theorem offered_queueLog (cs : List Byte) (r : CharRing) : offered (queueLog cs r) = cs := by
  induction cs generalizing r with
  | nil => rfl
  | cons c cs ih =>
    have h := ih (charToRing c r).1
    simp only [offered, queueLog, List.flatMap_cons] at h ⊢
    rw [h]
    cases r.full <;> rfl

theorem accepted_queueLog_prefix (cs : List Byte) (r : CharRing) :
    accepted (queueLog cs r) <+: cs := by
  induction cs generalizing r with
  | nil => exact List.prefix_rfl
  | cons c cs ih =>
    cases hf : r.full with
    | true =>
      have hnil : ∀ cs, accepted (queueLog cs r) = [] := fun cs => by
        induction cs with
        | nil => rfl
        | cons c cs ih' =>
          simp only [accepted, queueLog, charToRing, Ring.put_of_full hf, hf, if_true,
            List.flatMap_cons, List.nil_append] at ih' ⊢
          exact ih'
      rw [hnil]
      exact List.nil_prefix
    | false =>
      have h := ih (charToRing c r).1
      simp only [accepted, queueLog, hf, Bool.false_eq_true, if_false, List.flatMap_cons,
        List.singleton_append] at h ⊢
      exact List.prefix_cons_inj c |>.mpr h

theorem sendNextLog_offers_nothing (s : Node) :
    offered (sendNextLog s) = [] ∧ accepted (sendNextLog s) = [] := by
  simp only [sendNextLog]
  split_ifs <;> exact ⟨rfl, rfl⟩

theorem printkLog_offers {s : Node} {str : List Byte}
    (hc : canconUnconnected s.canconRmt = false) (hne : str ≠ []) :
    offered (printkLog str s) = expandNl str ∧ accepted (printkLog str s) <+: expandNl str := by
  have he : str.isEmpty = false := by simpa [List.isEmpty_iff] using hne
  have hn := sendNextLog_offers_nothing { s with canconOutbuf := putPrintk str s.canconOutbuf }
  simp only [printkLog, hc, he, Bool.or_false, Bool.false_eq_true, if_false]
  rw [offered_append, accepted_append, hn.1, hn.2, List.append_nil, List.append_nil]
  exact ⟨offered_queueLog _ _, accepted_queueLog_prefix _ _⟩

/-- The output stream of a console: the packets carry, in order and each once,
characters that were accepted, and what was accepted and is in neither the
packets nor the buffer was cleared or went with a refused packet. Apart from
the DATs of users the packets are all that `send_pkt` is handed as DAT. -/
theorem console_output_stream {n : Node} {tr : List (Traced × NodeOp)} {t : Traced}
    (h : Run TracedStep (.init n) tr t) :
    (∀ pkt cs armed, .sent pkt cs armed ∈ t.log →
      1 ≤ (payload pkt).length ∧ (payload pkt).length ≤ 4 ∧
      pkt.can.length.toNat = 4 + (payload pkt).length ∧ pkt.ext.type = .dat) ∧
    (delivered t.log).Sublist (accepted t.log) ∧
    accepted t.log = taken t.log ++ t.node.canconOutbuf.toList ∧
    (datsHanded t.node = datsHanded (canInit n) ++ tr.flatMap fun x => eventDats x.1.node x.2) ∧
    ∀ x ∈ tr, ∀ str, x.2 = .printk str → canconUnconnected x.1.node.canconRmt = false →
      str ≠ [] → offered (consoleLog x.1.node x.2) = expandNl str ∧
        accepted (consoleLog x.1.node x.2) <+: expandNl str := by
  have hp := (Traced.run_follows h).2
  have ha : accepted t.log = taken t.log ++ t.node.canconOutbuf.toList := Session.out_accounts hp
  refine ⟨fun pkt cs armed hm => ?_, ?_, ha, Traced.run_dats h, fun x _ str hx hc hne => ?_⟩
  · obtain ⟨x, y, hst⟩ := hp.exists_step hm
    cases hst with
    | sent hb =>
      obtain ⟨h1, h2, h3⟩ := hb.length_payload
      exact ⟨h1, h2, h3, by rw [hb.ext]⟩
  · rw [ha]
    exact (delivered_sublist_taken t.log).trans (List.sublist_append_left _ _)
  · rw [hx]
    exact printkLog_offers hc hne

def hosted : Node := .withHost 1 ⟨0, .dat, 0, 0, 2, 0x100⟩

theorem console_output_stream_two :
    ∃ tr t, Run TracedStep (.init hosted) tr t ∧ delivered t.log = [0x0d, 0x0a] ∧
      (delivered t.log).Sublist (accepted t.log) := by
  obtain ⟨tr, t, hr, _, _, hg⟩ := Traced.exists_run hosted (fun _ _ => true) [.printk [0x0a]]
    (fun t => delivered t.log = [0x0d, 0x0a]) (by decide +kernel)
  exact ⟨tr, t, hr, by simpa using hg, (console_output_stream hr).2.1⟩

def ConEvent.isSetcon : ConEvent → Bool
  | .connected _ => true
  | .disconnected => true
  | _ => false

/-- `b` is what a log that starts with `rmt₀` recorded ends with since `rmt` was
connected. -/
structure InSession (rmt₀ : CanHeaderExt) (l : List ConEvent) (rmt : CanHeaderExt)
    (b : List ConEvent) : Prop where
  since : (l = b ∧ rmt = rmt₀) ∨ ∃ a, l = a ++ .connected rmt :: b
  same : ∀ e ∈ b, e.isSetcon = false

theorem InSession.snoc {rmt₀ rmt : CanHeaderExt} {l b : List ConEvent} {e : ConEvent}
    (h : InSession rmt₀ l rmt b) (he : e.isSetcon = false) :
    InSession rmt₀ (l ++ [e]) rmt (b ++ [e]) where
  since := by
    rcases h.since with ⟨rfl, rfl⟩ | ⟨a, rfl⟩
    · exact .inl ⟨rfl, rfl⟩
    · exact .inr ⟨a, by simp⟩
  same e' he' := by
    rcases List.mem_append.mp he' with he' | he'
    · exact h.same e' he'
    · rw [List.mem_singleton.mp he']
      exact he

/-- The characters in the buffers of `x` came in during the session `b`. -/
structure Session.Opened (x : Session) (b : List ConEvent) : Prop where
  out : accepted b = taken b ++ x.out
  inb : entered b = passedOn b ++ x.inb

theorem Session.Opened.snoc {x y : Session} {b : List ConEvent} {e : ConEvent} (h : x.Opened b)
    (hs : Session.Step x e y) : y.Opened (b ++ [e]) where
  out := by
    rw [accepted_append, taken_append, h.out, List.append_assoc, List.append_assoc, hs.out_eq]
  inb := by
    rw [entered_append, passedOn_append, h.inb, List.append_assoc, List.append_assoc, hs.inb_eq]

theorem Session.Step.rmt_eq {x y : Session} {e : ConEvent} (h : Session.Step x e y)
    (he : e.isSetcon = false) : y.rmt = x.rmt := by
  cases h <;> first | rfl | cases he

/-- A connected console has a session, and both buffers are accounted for by
what happened in it. The induction is on the log, last entry first. -/
theorem Session.exists_inSession {rmt₀ : CanHeaderExt} {l : List ConEvent} {x : Session}
    (h : Path Session.Step (.start rmt₀) l x) (hc : canconUnconnected x.rmt = false) :
    ∃ b, InSession rmt₀ l x.rmt b ∧ x.Opened b := by
  induction l using List.reverseRecOn generalizing x with
  | nil =>
    cases h
    exact ⟨[], ⟨.inl ⟨rfl, rfl⟩, by simp⟩, ⟨rfl, rfl⟩⟩
  | append_singleton l e ih =>
    obtain ⟨y, hy, hs⟩ := h.of_append
    cases hs with
    | cons hst hnil =>
      cases hnil
      cases he : e.isSetcon with
      | false =>
        have hr := hst.rmt_eq he
        obtain ⟨b, hb, ho⟩ := ih hy (hr ▸ hc)
        exact ⟨b ++ [e], hr ▸ hb.snoc he, ho.snoc hst⟩
      | true =>
        cases hst with
        | connected _ hout hin =>
          refine ⟨[], ⟨.inr ⟨l, rfl⟩, by simp⟩, ⟨?_, ?_⟩⟩
          · simp [accepted, taken, hout]
          · simp [entered, passedOn, hin]
        | disconnected _ => cases hc
        | _ => cases he

/-- Session isolation: without a console nothing is buffered, a packet to a
console carries the next characters queued while it was connected, and the tty
is given the next characters received while it is connected. What the log says
of packets and the tty is what the node does. -/
theorem session_isolation {n : Node} {tr : List (Traced × NodeOp)} {t : Traced}
    (h : Run TracedStep (.init n) tr t) :
    (canconUnconnected t.node.canconRmt = true →
      t.node.canconOutbuf.toList = [] ∧ t.node.canconInbuf.toList = []) ∧
    (∀ l pkt cs armed l', t.log = l ++ .sent pkt cs armed :: l' →
      ∃ rmt b, InSession (canInit n).canconRmt l rmt b ∧ pkt.ext = { rmt with type := .dat } ∧
        taken b ++ payload pkt <+: accepted b) ∧
    (∀ l cs l', t.log = l ++ .pushed cs :: l' →
      ∃ rmt b, InSession (canInit n).canconRmt l rmt b ∧ canconUnconnected rmt = false ∧
        passedOn b ++ cs <+: entered b) ∧
    ∀ x ∈ tr, x.2.isConsole = true →
      ∃ v, TracedStep x.1 x.2 v ∧ Shows x.1.node (consoleLog x.1.node x.2) v.node := by
  obtain ⟨hq, hp⟩ := Traced.run_follows h
  refine ⟨hq, fun l pkt cs armed l' hl => ?_, fun l cs l' hl => ?_, fun x hx ho => ?_⟩
  · rw [hl] at hp
    obtain ⟨x, hx, hs⟩ := hp.of_append
    cases hs with
    | cons hst _ =>
      cases hst with
      | sent hb =>
        obtain ⟨b, hi, ho⟩ := Session.exists_inSession hx hb.connected
        refine ⟨x.rmt, b, hi, hb.ext, ?_⟩
        rw [ho.out, hb.payload_eq, hb.chars]
        exact (List.prefix_append_right_inj _).mpr (List.take_prefix 4 x.out)
  · rw [hl] at hp
    obtain ⟨x, hx, hs⟩ := hp.of_append
    cases hs with
    | cons hst _ =>
      cases hst with
      | pushed k hc =>
        obtain ⟨b, hi, ho⟩ := Session.exists_inSession hx hc
        refine ⟨x.rmt, b, hi, hc, ?_⟩
        rw [ho.inb]
        exact (List.prefix_append_right_inj _).mpr (List.take_prefix k x.inb)
  · obtain ⟨v, hv⟩ := h.exists_next x hx
    exact ⟨v, hv, Node.step_shows hv.eq.1 ho⟩

theorem session_isolation_hangup :
    ∃ tr t, Run TracedStep (.init hosted) tr t ∧
      canconUnconnected t.node.canconRmt = true ∧ t.node.canconOutbuf.toList = [] := by
  obtain ⟨tr, t, hr, _, _, hg⟩ := Traced.exists_run hosted (fun _ _ => true)
    [.printk [0x61, 0x62, 0x63, 0x64, 0x65],
      .tryRecv [⟨0, ⟨0, 1, 2, 0, 8⟩, ⟨0, .wo, 0, 0, 1, Canobj.consoleDisconn⟩, 0⟩], .bh, .bh,
      .ttyPutChar 0x0a]
    (fun t => canconUnconnected t.node.canconRmt) (by decide +kernel)
  exact ⟨tr, t, hr, hg, ((session_isolation hr).1 hg).1⟩

end MeikoCs2
