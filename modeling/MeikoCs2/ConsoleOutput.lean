import MeikoCs2.ConsoleTrip

/-! The runs of a network with a console in it: what the kernel writes to its
console comes out of the cancon at the other end, in order and not twice. -/

namespace MeikoCs2

variable {P : Type} {s u : Net P} {a : Canhostname} {p : P} {co : CanHeaderExt} {T : Nat}
  {W : List Byte} {S R : List (List Byte)}

theorem Attached.idle (h : Attached a p co s) (hco : IsConsole co) :
    canconUnconnected (s.nodes a).canconRmt = false ∧
      { (s.nodes a).session.rmt with type := .dat } = co := by
  have hr : (s.nodes a).session.rmt = co := h.rmt
  refine ⟨?_, ?_⟩
  · rw [h.rmt]
    exact hco.connected
  · rw [hr, ← hco.type]

/-- What is under way for the console comes from the kernel of its node. -/
theorem OnlyConsole.origin {log : List (Event P)} {m : Msg P} (ho : OnlyConsole a co log)
    (ht : Tracks log m) (hm : pertains co m = true) :
    m.origin.node = a ∧ m.origin.sender = none := by
  obtain ⟨hob, had⟩ := pertains_iff.mp hm
  have he : m.origin.pkt.ext.object = co.object ∧ m.origin.pkt.ext.addr = co.addr := by
    rcases ht.way with ⟨he, _⟩ | ⟨_, _, _, he⟩
    · rw [← he]
      exact ⟨hob, had⟩
    · obtain ⟨h₁, h₂⟩ := (isOurAcknak_iff _ _).mp he
      exact ⟨h₁.trans hob, h₂.trans had⟩
  exact ho _ ht.sent he.1 (.inr he.2)

/-- A request for the console comes from node `a`, and an answer goes there. -/
theorem OnlyConsole.ends {log : List (Event P)} {m : Msg P} (ho : OnlyConsole a co log)
    (ht : Tracks log m) (hm : pertains co m = true) :
    (m.pkt.ext.type.isAcknak = false → m.src = a) ∧
      (m.pkt.ext.type.isAcknak = true → m.dst = a) := by
  obtain ⟨hn, _⟩ := ho.origin ht hm
  exact ⟨fun hr => (ht.of_request hr).2.1.trans hn, fun ha => (ht.of_acknak ha).2.1.trans hn⟩

/-- The kernel of `a` hears the answers to its own packets only. -/
theorem OnlyConsole.hears {m : Msg P} (ho : OnlyConsole a co s.log)
    (hown : ∀ o, .sent o ∈ s.log → o.node = a → o.sender = none → o.pkt.ext = co)
    (ht : Tracks s.log m) (hr : (s.nodes a).canconRmt = co)
    (hh : (s.nodes a).session.Hears m.pkt) (hd : m.dst = a) : pertains co m = true := by
  obtain ⟨hty, _, hob⟩ := hh
  have hro : (s.nodes a).session.rmt = co := hr
  rw [hro] at hob
  obtain ⟨_, hdst, he⟩ := ht.of_acknak (by rw [hty]; rfl)
  obtain ⟨h₁, h₂⟩ := (isOurAcknak_iff _ _).mp he
  have hn : m.origin.node = a := hdst.symm.trans hd
  obtain ⟨_, hs⟩ := ho _ ht.sent (h₁.trans hob) (.inl hn)
  refine pertains_iff.mpr ⟨hob, ?_⟩
  rw [← h₂, hown _ ht.sent hn hs]

/-- A delivery: what it puts on the wire for the console, and what it logs. -/
theorem dispatch_wire (m : Msg P) (v : Net P) :
    ∃ ms, (v.dispatch m).wire = v.wire ++ ms ∧
      ms.map Msg.pkt = (canobjPacket m.pkt (v.nodes m.dst)).1.handed.map Handed.pkt ∧
      (∀ x ∈ ms, x.src = m.dst) ∧
      ∀ o, .sent o ∈ (v.dispatch m).log → .sent o ∈ v.log ∨ (o.node = m.dst ∧
        o.pkt ∈ (canobjPacket m.pkt (v.nodes m.dst)).1.handed.map Handed.pkt ∧
        o.pkt.ext.type.isAcknak = false) := by
  obtain ⟨ms, hw, hp, hs⟩ := foldl_hand_wire m
    ((canobjPacket m.pkt (v.nodes m.dst)).1.handed.map Handed.pkt)
    { v with
      nodes := Function.update v.nodes m.dst (canobjPacket m.pkt (v.nodes m.dst)).1.flush
      procs := fun p =>
        if (v.procs p).home = m.dst ∧ (canobjPacket m.pkt (v.nodes m.dst)).1.halted = false then
          { v.procs p with fdq := (v.procs p).fdq ++ [m] }
        else v.procs p
      log := v.log ++ [.dispatched m.dst m (v.nodes m.dst).canconRmt
        (canobjPacket m.pkt (v.nodes m.dst)).1.canconRmt] }
  refine ⟨ms, hw, hp, hs, fun o ho => ?_⟩
  obtain ⟨es, hl, he⟩ := (foldl_hand_leaves m
    ((canobjPacket m.pkt (v.nodes m.dst)).1.handed.map Handed.pkt) _).log
  rw [Net.dispatch, hl, List.append_assoc] at ho
  rcases List.mem_append.mp ho with ho | ho
  · exact .inl ho
  rcases List.mem_append.mp ho with ho | ho
  · cases List.mem_singleton.mp ho
  · obtain ⟨o', heq, -, hn, hm, ha⟩ := he _ ho
    rw [Event.sent.injEq] at heq
    subst heq
    exact .inr ⟨hn, hm, ha⟩

theorem output_wire (a : Canhostname) {n : Node}
    (hn : ∀ p ∈ n.handed.map Handed.pkt, p.ext.type.isAcknak = false) (s : Net P) :
    (s.output a n).nodes = Function.update s.nodes a n.flush ∧ (s.output a n).procs = s.procs ∧
      ∃ ms, (s.output a n).wire = s.wire ++ ms ∧ ms.map Msg.pkt = n.handed.map Handed.pkt ∧
      (∀ x ∈ ms, x.src = a) ∧
      ∀ o, .sent o ∈ (s.output a n).log → .sent o ∈ s.log ∨ (o.node = a ∧
        o.pkt ∈ n.handed.map Handed.pkt ∧ o.pkt.ext.type.isAcknak = false) := by
  obtain ⟨ms, hw, hp, hs⟩ := foldl_transmit_wire a (n.handed.map Handed.pkt)
    { s with nodes := Function.update s.nodes a n.flush }
  have hlv := foldl_transmit_leaves a hn { s with nodes := Function.update s.nodes a n.flush }
  refine ⟨hlv.nodes, hlv.procs, ms, hw, hp, hs, fun o ho => ?_⟩
  obtain ⟨es, hl, he⟩ := hlv.log
  rw [Net.output, hl] at ho
  rcases List.mem_append.mp ho with ho | ho
  · exact .inl ho
  · obtain ⟨o', heq, -, hno, hm, ha⟩ := he _ ho
    rw [Event.sent.injEq] at heq
    subst heq
    exact .inr ⟨hno, hm, ha⟩

/-- The answer to a packet for the console is not the business of the kernel. -/
theorem IsConsole.not_ours (hco : IsConsole co) {r q : CanPacket} {n : Node} (h₀ : n.handed = [])
    (hr : r ∈ (canobjPacket q n).1.handed.map Handed.pkt) (ha : r.ext.type.isAcknak = true) :
    isOurAcknak r.ext co = false := by
  rw [Bool.eq_false_iff]
  intro ho
  have hm : r ∈ acknaks (canobjPacket q n).1 := List.mem_filter.mpr ⟨hr, ha⟩
  rw [acknaks_canobjPacket, acknaks, h₀, List.map_nil, List.filter_nil, List.nil_append] at hm
  obtain ⟨_, t, d, _, he⟩ := isReply_of_mem_replies hm
  have hob : q.ext.object = co.object := by
    rw [he] at ho
    exact ((isOurAcknak_iff _ _).mp ho).1
  rw [hco.replies hob] at hm
  cases hm

theorem IsConsole.handed (hco : IsConsole co) {q : CanPacket} {n : Node} (h₀ : n.handed = []) :
    ∀ r ∈ (canobjPacket q n).1.handed.map Handed.pkt, r.ext.type = .dat ∨
      (r.ext.type.isAcknak = true ∧ isOurAcknak r.ext co = false) := by
  intro r hr
  have hn := hco.not_ours h₀ hr
  obtain ⟨h, hh, rfl⟩ := List.mem_map.mp hr
  rcases (canobjPacket_handles q n).dats h hh with hd | hd | hd
  · rw [h₀] at hd
    cases hd
  · exact .inl hd
  · exact .inr ⟨hd, hn hd⟩

theorem filter_pertains (ms : List (Msg P)) :
    (ms.filter (pertains co)).map Msg.pkt =
      (ms.map Msg.pkt).filter fun p => isOurAcknak p.ext co := by
  rw [List.filter_map]
  rfl

/-- The packets that a step of the console puts on the wire. -/
theorem ConTrip.handed {x y : Session} {n n' : Node} {l : List ConEvent} {ws qs ms : List (Msg P)}
    (h : ConTrip co T S R x.pending (ws.filter (pertains co)) qs)
    (hx : { x.rmt with type := .dat } = co) (hs : ConSends x (sents l) y)
    (hms : ms.map Msg.pkt = n'.handed.map Handed.pkt)
    (ho : ((n'.handed.map Handed.pkt).filter fun p => isOurAcknak p.ext co) =
      (sents l).map (fixup n)) :
    ConTrip co T (S ++ batches l) R y.pending ((ws ++ ms).filter (pertains co)) qs := by
  rw [List.filter_append]
  exact h.sends hx hs (by rw [filter_pertains, hms, ho])

/-- What is written to the console is sent or waits in the ring. -/
theorem text_append {x y : Session} {l : List ConEvent} (h : W = S.flatten ++ x.out)
    (hpath : Path Session.Step x l y) (hl : Undropped l) (hc : Uncleared l) :
    W ++ accepted l = (S ++ batches l).flatten ++ y.out := by
  rw [h, List.append_assoc, Session.out_accounts hpath, taken_of_kept hl hc, List.flatten_append,
    List.append_assoc]
  rfl

theorem ConsoleAt.output_self {n : Node} {l : List ConEvent} {x : Session}
    (htext : W = S.flatten ++ x.out) (hpath : Path Session.Step x l n.session) (hcl : Uncleared l)
    (hown : ∀ o, .sent o ∈ s.log → o.node = a → o.sender = none → o.pkt.ext = co)
    (htr : ConTrip co T S R x.pending (s.wire.filter (pertains co))
      ((s.procs p).fdq.filter (isData co)))
    (hx : { x.rmt with type := .dat } = co) (hs : ConSends x (sents l) n.session)
    (hsh : Shows (s.nodes a) l n) (hp : Prints (s.nodes a) n) (hf : Flushed s)
    (hl : Undropped l) : ConsoleAt a p co T (W ++ accepted l) (S ++ batches l) R (s.output a n) := by
  have hk : ∀ q ∈ n.handed.map Handed.pkt, q.ext.type = .dat := by
    intro q hq
    obtain ⟨h, hh, rfl⟩ := List.mem_map.mp hq
    rcases hp.dats h hh with hd | hd
    · rw [hf a] at hd
      cases hd
    · exact hd
  have hna : ∀ q ∈ n.handed.map Handed.pkt, q.ext.type.isAcknak = false := fun q hq => by
    rw [hk q hq]
    rfl
  obtain ⟨hours, hext⟩ := ours_of_shows hsh (hf a) hl hs hx fun q hq => .inl (hk q hq)
  obtain ⟨hn, hpr, ms, hw, hms, -, hlog⟩ := output_wire a hna s
  refine ⟨?_, fun o ho hno hso => ?_, ?_⟩
  · rw [hn, Function.update_self]
    exact text_append htext hpath hl hcl
  · rcases hlog o ho with ho | ⟨-, hm, ha⟩
    · exact hown o ho hno hso
    · exact hext _ hm ha
  · rw [hn, hpr, hw, Function.update_self]
    exact htr.handed hx hs hms hours

/-- The other kernels write to other consoles. -/
theorem ConsoleAt.output_other (hat : ConsoleAt a p co T W S R s) {b : Canhostname} (hb : b ≠ a)
    {n : Node} (hp : Prints (s.nodes b) n) (hf : Flushed s) (hc : Correlated (s.output b n))
    (ho : OnlyConsole a co (s.output b n).log) : ConsoleAt a p co T W S R (s.output b n) := by
  have hna : ∀ q ∈ n.handed.map Handed.pkt, q.ext.type.isAcknak = false := by
    intro q hq
    obtain ⟨h, hh, rfl⟩ := List.mem_map.mp hq
    rcases hp.dats h hh with hd | hd
    · rw [hf b] at hd
      cases hd
    · rw [hd]
      rfl
  obtain ⟨hn, hpr, ms, hw, hms, hsrc, hlog⟩ := output_wire b hna s
  refine ⟨?_, fun o hso hno hse => ?_, ?_⟩
  · rw [hn, Function.update_of_ne hb.symm]
    exact hat.text
  · rcases hlog o hso with hso | ⟨hnb, -, -⟩
    · exact hat.own o hso hno hse
    · exact absurd (hnb.symm.trans hno) hb
  · rw [hn, hpr, hw, Function.update_of_ne hb.symm, filter_append_of_neg]
    · exact hat.trip
    · intro x hx
      rw [Bool.eq_false_iff]
      intro hpt
      have htr := hc.items.wire x (by rw [hw]; exact List.mem_append_right _ hx)
      have hq : x.pkt.ext.type.isAcknak = false := by
        refine hna _ ?_
        rw [← hms]
        exact List.mem_map_of_mem hx
      exact hb ((hsrc x hx).symm.trans ((ho.ends htr hpt).1 hq))

theorem ConsoleAt.printk (hat : ConsoleAt a p co T W S R s) (hco : IsConsole co)
    (hc : Correlated s) {b : Canhostname} {m : String} (hok : SessionOk a p co s (.printk b m))
    (hcu : Correlated (s.output b (MeikoCs2.printk m (s.nodes b))))
    (ho : OnlyConsole a co (s.output b (MeikoCs2.printk m (s.nodes b))).log) :
    ConsoleAt a p co T (W ++ accepted (conLog a s (.printk b m)))
      (S ++ batches (conLog a s (.printk b m))) R
      (s.output b (MeikoCs2.printk m (s.nodes b))) := by
  by_cases hb : b = a
  · subst hb
    have hcl : conLog b s (.printk b m) = printkLog (messageBytes m) (s.nodes b) := if_pos rfl
    have hl := hok.undropped
    obtain ⟨hconn, hx⟩ := hok.attached.idle hco
    rw [hcl] at hl ⊢
    exact .output_self hat.text (printk_logs m _) (printkLog_uncleared _ hconn) hat.own hat.trip hx
      (printk_conSends m _) (printk_shows _ m) (printk_prints m _) hc.flushed hl
  · have hcl : conLog a s (.printk b m) = [] := if_neg hb
    have hnil : batches [] = [] ∧ accepted [] = [] := ⟨rfl, rfl⟩
    rw [hcl, hnil.1, hnil.2, List.append_nil, List.append_nil]
    exact hat.output_other hb (printk_prints m _) hc.flushed hcu ho

theorem ConsoleAt.ackTimeout (hat : ConsoleAt a p co T W S R s) (hco : IsConsole co)
    (hc : Correlated s) {b : Canhostname} (hok : SessionOk a p co s (.ackTimeout b))
    (hcu : Correlated (s.output b (canconRecvAck true (s.nodes b))))
    (ho : OnlyConsole a co (s.output b (canconRecvAck true (s.nodes b))).log) :
    ConsoleAt a p co (T + timeouts a [(s, .ackTimeout b)])
      (W ++ accepted (conLog a s (.ackTimeout b))) (S ++ batches (conLog a s (.ackTimeout b))) R
      (s.output b (canconRecvAck true (s.nodes b))) := by
  by_cases hb : b = a
  · subst hb
    have hcl : conLog b s (.ackTimeout b) = recvAckLog true (s.nodes b) := if_pos rfl
    have ht : timeouts b [(s, .ackTimeout b)] = 1 := by simp [timeouts]
    have hl := hok.undropped
    obtain ⟨hconn, hx⟩ := hok.attached.idle hco
    obtain ⟨hp, hw, hq⟩ := hok.timeout rfl
    rw [hcl, ht]
    rw [hcl] at hl
    have htr := hat.trip
    rw [hp, List.filter_eq_nil_iff.mpr fun m hm => by simp [hw m hm],
      List.filter_eq_nil_iff.mpr fun m hm => by simp [hq m hm]] at htr
    refine .output_self (x := { (s.nodes b).session with pending := false, timer := false })
      hat.text (canconRecvAck_logs true _) (recvAckLog_uncleared true hconn) hat.own ?_ hx
      (canconRecvAck_conSends true _) (canconRecvAck_shows _ true) (canconRecvAck_prints true _)
      hc.flushed hl
    rw [List.filter_eq_nil_iff.mpr fun m hm => by simp [hw m hm],
      List.filter_eq_nil_iff.mpr fun m hm => by simp [hq m hm]]
    exact htr.expired
  · have hcl : conLog a s (.ackTimeout b) = [] := if_neg hb
    have ht : timeouts a [(s, .ackTimeout b)] = 0 := by simp [timeouts, hb]
    have hnil : batches [] = [] ∧ accepted [] = [] := ⟨rfl, rfl⟩
    rw [hcl, ht, hnil.1, hnil.2, List.append_nil, List.append_nil]
    exact hat.output_other hb (canconRecvAck_prints true _) hc.flushed hcu ho

/-- Where the delivered packet leaves the trip, before the kernel sends on. -/
theorem ConsoleAt.arrive (hat : ConsoleAt a p co T W S R s) (hc : Correlated s)
    (ho : OnlyConsole a co s.log) (hrmt : (s.nodes a).canconRmt = co)
    (hco : IsConsole co) {i : Nat} {m : Msg P} (hm : s.wire[i]? = some m)
    (hd : Delivers s i m u) :
    ∃ b, ConTrip co T S R b ((s.wire.eraseIdx i).filter (pertains co))
        ((u.procs p).fdq.filter (isData co)) ∧
      (m.dst = a → b = ((s.nodes a).session.after m.pkt).pending) ∧
      (m.dst ≠ a → b = (s.nodes a).canconAckPending) := by
  have ht := hc.items.wire m (List.mem_of_getElem? hm)
  obtain ⟨-, hq, -⟩ := hd.fdq p
  have hsame : isData co m = false →
      (u.procs p).fdq.filter (isData co) = (s.procs p).fdq.filter (isData co) := by
    intro hn
    rcases hq with hq | ⟨-, hq⟩
    · rw [hq]
    · rw [hq]
      exact filter_append_of_neg fun x hx => by rw [List.mem_singleton.mp hx, hn]
  rcases filter_eraseIdx (f := pertains co) hm with ⟨hn, he⟩ | ⟨hpt, as, bs, hf, he⟩
  · refine ⟨(s.nodes a).canconAckPending, ?_, fun hda => ?_, fun _ => rfl⟩
    · rw [he, hsame (by simp [isData, hn])]
      exact hat.trip
    · have hh : ¬ (s.nodes a).session.Hears m.pkt := fun hh => by
        rw [ho.hears hat.own ht hrmt hh hda] at hn
        cases hn
      rw [Session.after, if_neg hh]
      rfl
  · obtain ⟨hb, rfl, rfl, hqs, htrip⟩ := hat.trip.at_wire hf
    rw [he, List.nil_append]
    rcases htrip with ⟨hext, harr⟩ | ⟨hty, hidle⟩
    · -- the packet of the console
      refine ⟨true, ?_, fun _ => ?_, fun _ => hb.symm⟩
      · rcases hq with hq | ⟨-, hq⟩
        · rw [hq, hqs]
          exact harr.lost
        · rw [hq, List.filter_append, hqs]
          cases hdm : isData co m with
          | true =>
            rw [List.filter_cons_of_pos hdm]
            exact harr
          | false =>
            rw [List.filter_cons_of_neg (by simp [hdm])]
            exact harr.lost
      · have hh : ¬ (s.nodes a).session.Hears m.pkt := fun hh => by
          have hty := hh.1
          rw [hext, hco.type] at hty
          cases hty
        rw [Session.after, if_neg hh]
        exact hb.symm
    · -- its ACK
      have hda : m.dst = a := (ho.ends ht hpt).2 (by rw [hty]; rfl)
      have hro : (s.nodes a).session.rmt = co := hrmt
      have hh : (s.nodes a).session.Hears m.pkt :=
        ⟨hty, by rw [hro]; exact hco.connected, by rw [hro]; exact (pertains_iff.mp hpt).1⟩
      refine ⟨false, ?_, fun _ => ?_, fun hne => absurd hda hne⟩
      · rw [hsame (by simp [isData, hty]), hqs]
        exact hidle
      · rw [Session.after, if_pos hh]

/-- A packet is delivered, whoever it is for. -/
theorem ConsoleAt.deliver (hat : ConsoleAt a p co T W S R s) (hco : IsConsole co)
    (hc : Correlated s) (ho : OnlyConsole a co s.log) (hok : Attached a p co s) {i : Nat} {m : Msg P}
    (hm : s.wire[i]? = some m) (hh : (s.nodes m.dst).halted = false)
    (hu : u = ({ s with wire := s.wire.eraseIdx i } : Net P).dispatch m) (hcu : Correlated u)
    (hou : OnlyConsole a co u.log) (hok' : Attached a p co u)
    (hl : Undropped (conLog a s (.deliver i))) :
    ConsoleAt a p co T (W ++ accepted (conLog a s (.deliver i)))
      (S ++ batches (conLog a s (.deliver i))) R u := by
  have hd : Delivers s i m u := by
    rw [hu]
    exact dispatch_delivers hc.flushed i hh
  obtain ⟨b, htr, hself, hother⟩ := hat.arrive hc ho hok.rmt hco hm hd
  obtain ⟨ms, hw, hms, hsrc, hlog⟩ := dispatch_wire m { s with wire := s.wire.eraseIdx i }
  rw [← hu] at hw hlog
  have hcl : conLog a s (.deliver i) =
      if m.dst = a then packetLog m.pkt (s.nodes a) else [] := by
    simp only [conLog, hm]
  by_cases hda : m.dst = a
  · rw [if_pos hda] at hcl
    subst hda
    rw [hcl] at hl ⊢
    obtain ⟨hconn, hx⟩ := hok.idle hco
    have hr : (canobjPacket m.pkt (s.nodes m.dst)).1.canconRmt = (s.nodes m.dst).canconRmt := by
      have h := hok'.rmt
      rw [hd.nodes, Function.update_self] at h
      exact h.trans hok.rmt.symm
    obtain ⟨hs, hclr⟩ := canobjPacket_conSends hconn hr
    have hxa : { ((s.nodes m.dst).session.after m.pkt).rmt with type := .dat } = co := by
      rw [← hx]
      unfold Session.after
      split_ifs <;> rfl
    obtain ⟨hours, hext⟩ := ours_of_shows (canobjPacket_shows m.pkt _) (hc.flushed m.dst) hl hs hxa
      (hco.handed (hc.flushed m.dst))
    refine ⟨?_, fun o hso hno hse => ?_, ?_⟩
    · rw [hd.nodes, Function.update_self]
      exact text_append (y := (canobjPacket m.pkt (s.nodes m.dst)).1.session) hat.text
        (canobjPacket_logs m.pkt (Quiet.of_connected hconn)) hl hclr
    · rcases hlog o hso with hso | ⟨-, hmem, ha⟩
      · exact hat.own o hso hno hse
      · exact hext _ hmem ha
    · rw [hw, hd.nodes, Function.update_self]
      rw [hself rfl] at htr
      exact htr.handed hxa hs hms hours
  · rw [if_neg hda] at hcl
    rw [hcl]
    have hnil : batches [] = [] ∧ accepted [] = [] := ⟨rfl, rfl⟩
    rw [hnil.1, hnil.2, List.append_nil, List.append_nil]
    refine ⟨?_, fun o hso hno hse => ?_, ?_⟩
    · rw [hd.nodes, Function.update_of_ne (Ne.symm hda)]
      exact hat.text
    · rcases hlog o hso with hso | ⟨hnd, -, -⟩
      · exact hat.own o hso hno hse
      · exact absurd (hnd.symm.trans hno) hda
    · rw [hw, hd.nodes, Function.update_of_ne (Ne.symm hda), filter_append_of_neg, ← hother hda]
      · exact htr
      · intro x hx
        rw [Bool.eq_false_iff]
        intro hpt
        have htx := hcu.items.wire x (by rw [hw]; exact List.mem_append_right _ hx)
        have hxm : x.pkt ∈ (canobjPacket m.pkt (s.nodes m.dst)).1.handed.map Handed.pkt := by
          rw [← hms]
          exact List.mem_map_of_mem hx
        cases hxa : x.pkt.ext.type.isAcknak with
        | true =>
          have hn := hco.not_ours (hc.flushed m.dst) hxm hxa
          rw [pertains, hn] at hpt
          cases hpt
        | false => exact hda ((hsrc x hx).symm.trans ((hou.ends htx hpt).1 hxa))

theorem ConsoleAt.lose (hat : ConsoleAt a p co T W S R s) {i : Nat} {m : Msg P}
    (hm : s.wire[i]? = some m) :
    ConsoleAt a p co T W S R { s with wire := s.wire.eraseIdx i } := by
  refine ⟨hat.text, hat.own, ?_⟩
  change ConTrip co T S R _ ((s.wire.eraseIdx i).filter _) _
  rcases filter_eraseIdx (f := pertains co) hm with ⟨-, he⟩ | ⟨-, as, bs, hf, he⟩
  · rw [he]
    exact hat.trip
  · have htr := hat.trip
    obtain ⟨hb, rfl, rfl, hqs, -⟩ := htr.at_wire hf
    rw [hb] at htr
    rw [he, hqs, hb]
    exact htr.lost

theorem ConsoleAt.frame (hat : ConsoleAt a p co T W S R s) (hlog : ∀ o, .sent o ∈ u.log →
      .sent o ∈ s.log ∨ o.node ≠ a ∨ o.sender ≠ none) (hn : u.nodes = s.nodes)
    (hw : u.wire.filter (pertains co) = s.wire.filter (pertains co))
    (hq : (u.procs p).fdq.filter (isData co) = (s.procs p).fdq.filter (isData co)) :
    ConsoleAt a p co T W S R u := by
  refine ⟨?_, fun o ho hno hso => ?_, ?_⟩
  · rw [hn]
    exact hat.text
  · rcases hlog o ho with ho | ho | ho
    · exact hat.own o ho hno hso
    · exact absurd hno ho
    · exact absurd hso ho
  · rw [hn, hw, hq]
    exact hat.trip

section Steps

variable [DecidableEq P]

theorem ConsoleAt.overflow (hat : ConsoleAt a p co T W S R s) (q : P) :
    ConsoleAt a p co T W S R (s.setProc q { s.procs q with fdq := (s.procs q).fdq.dropLast }) := by
  by_cases hq : q = p
  · subst hq
    refine ⟨hat.text, hat.own, ?_⟩
    have htr := hat.trip
    change ConTrip co T S R (s.nodes a).canconAckPending (s.wire.filter _)
      ((Function.update s.procs q _ q).fdq.filter _)
    rw [Function.update_self]
    change ConTrip co T S R _ _ ((s.procs q).fdq.dropLast.filter _)
    rcases filter_dropLast (f := isData co) (s.procs q).fdq with he | ⟨x, he⟩
    · rw [he]
      exact htr
    · obtain ⟨hb, hd, -, hws, -⟩ := htr.at_fdq he
      rw [hb] at htr ⊢
      rw [hd, hws]
      exact htr.lost
  · refine hat.frame (fun o ho => .inl ho) rfl rfl ?_
    change ((Function.update s.procs q _ p).fdq.filter _) = _
    rw [Function.update_of_ne (Ne.symm hq)]

theorem read_cases {q : P} (h : NetStep s (.read q) u) :
    ∃ m t, (s.procs q).fdq = m :: t ∧ u = readerStep q m { s.procs q with fdq := t } s := by
  simp only [NetStep, Net.step] at h
  split at h
  · rename_i m t hf
    exact ⟨m, t, hf, (Option.some.inj h).symm⟩
  · cases h

/-- What the reader leaves as it was, when it does not answer for the console. -/
theorem readerStep_frame (hco : IsConsole co) (q : P) {m : Msg P} {x : Proc P}
    (hne : m.pkt.ext.type = .dat → m.pkt.ext = x.consoleObject → pertains co m = false)
    (s : Net P) :
    (readerStep q m x s).nodes = s.nodes ∧ (readerStep q m x s).log = s.log ∧
      (readerStep q m x s).wire.filter (pertains co) = s.wire.filter (pertains co) ∧
      ∀ r, ((readerStep q m x s).procs r).fdq = if r = q then x.fdq else (s.procs r).fdq := by
  have hset : ∀ (y : Proc P), y.fdq = x.fdq → ∀ r,
      ((s.setProc q y).procs r).fdq = if r = q then x.fdq else (s.procs r).fdq := by
    intro y hy r
    change (Function.update s.procs q y r).fdq = _
    by_cases hr : r = q
    · rw [hr, Function.update_self, if_pos rfl, hy]
    · rw [Function.update_of_ne hr, if_neg hr]
  have hreply : ∀ pkt : CanPacket, pertains co (m.reply pkt) = false →
      (s.wire ++ [m.reply pkt]).filter (pertains co) = s.wire.filter (pertains co) := by
    intro pkt hn
    exact filter_append_of_neg fun y hy => by rw [List.mem_singleton.mp hy, hn]
  unfold readerStep
  cases hty : m.pkt.ext.type with
  | ack => exact ⟨rfl, rfl, rfl, hset _ rfl⟩
  | nak => exact ⟨rfl, rfl, rfl, hset _ rfl⟩
  | dat =>
    simp only
    split_ifs with he
    · exact ⟨rfl, rfl, hreply _ (hne hty he), hset _ rfl⟩
    · exact ⟨rfl, rfl, rfl, hset _ rfl⟩
  | wo =>
    simp only
    split_ifs with he
    · refine ⟨rfl, rfl, hreply _ ?_, hset _ rfl⟩
      rw [Bool.eq_false_iff]
      intro hpt
      have hob : m.pkt.ext.object = co.object := (pertains_iff.mp hpt).1
      exact hco.object_ne (by decide) (hob.symm.trans he.1)
    · exact ⟨rfl, rfl, rfl, hset _ rfl⟩
  | _ => exact ⟨rfl, rfl, rfl, hset _ rfl⟩

theorem ConsoleAt.read (hat : ConsoleAt a p co T W S R s) (hco : IsConsole co) (hc : Correlated s)
    (ho : OnlyConsole a co s.log) {q : P} (hok : SessionOk a p co s (.read q))
    (h : NetStep s (.read q) u) : ConsoleAt a p co T W S (R ++ prints p s (.read q)) u := by
  obtain ⟨m, t, hf, rfl⟩ := read_cases h
  have ht : Tracks s.log m := (hc.items.fdq q m (by rw [hf]; exact List.mem_cons_self)).1
  by_cases hq : q = p
  · subst hq
    have hmine := hok.attached.mine
    have htr := hat.trip
    cases hdm : isData co m with
    | true =>
      -- printed and acknowledged
      rw [hf, List.filter_cons_of_pos hdm] at htr
      obtain ⟨hb, -, hts, hws, hext, hback⟩ := htr.at_fdq (List.nil_append _).symm
      have hty : m.pkt.ext.type = .dat := by rw [hext, hco.type]
      have hpr : prints q s (.read q) = [payload m.pkt] := by
        simp only [prints, hf, hmine, hext, hco.type, and_self, if_true]
      have hstep : readerStep q m { s.procs q with fdq := t } s =
          (s.setProc q { s.procs q with fdq := t }).answer m
            (canAckPkt (s.procs q).cfg.stack m.pkt none 0 .ack) := by
        unfold readerStep
        rw [hty]
        change (if _ then _ else _) = _
        rw [if_pos (hext.trans hmine.symm)]
      rw [hpr, hstep]
      refine ⟨hat.text, hat.own, ?_⟩
      change ConTrip co T S _ (s.nodes a).canconAckPending ((s.wire ++ [_]).filter _)
        ((Function.update s.procs q _ q).fdq.filter _)
      have hpt : pertains co (m.reply (canAckPkt (s.procs q).cfg.stack m.pkt none 0 .ack)) = true := by
        rw [isData, Bool.and_eq_true] at hdm
        exact hdm.2
      rw [Function.update_self, List.filter_append, hws, hb]
      change ConTrip co T S _ true ([] ++ [m.reply _].filter _) (t.filter _)
      rw [hts, List.filter_cons_of_pos hpt]
      exact hback _ rfl
    | false =>
      have hne : m.pkt.ext.type = .dat → m.pkt.ext = (s.procs q).consoleObject →
          pertains co m = false := fun hty _ => by simpa [isData, hty] using hdm
      obtain ⟨hn, hl, hw, hp⟩ := readerStep_frame hco q (x := { s.procs q with fdq := t }) hne s
      have hpr : prints q s (.read q) = [] := by
        simp only [prints, hf, hmine]
        rw [if_neg]
        rintro ⟨-, hty, he⟩
        have hpt := hne hty (he.trans hmine.symm)
        rw [pertains, he, (isOurAcknak_iff co co).mpr ⟨rfl, rfl⟩] at hpt
        cases hpt
      rw [hpr, List.append_nil]
      refine hat.frame (fun o ho => .inl (hl ▸ ho)) hn hw ?_
      rw [hp, if_pos rfl, hf, List.filter_cons_of_neg (by simp [hdm])]
  · have hne : m.pkt.ext.type = .dat → m.pkt.ext = (s.procs q).consoleObject →
        pertains co m = false := by
      intro hty he
      rw [Bool.eq_false_iff]
      intro hpt
      obtain ⟨hn, hs⟩ := ho.origin ht hpt
      have hext := hat.own _ ht.sent hn hs
      rw [← (ht.of_request (by rw [IsRequest, hty]; rfl)).1] at hext
      exact hok.reader q rfl hq (he.symm.trans hext)
    obtain ⟨hn, hl, hw, hp⟩ := readerStep_frame hco q (x := { s.procs q with fdq := t }) hne s
    have hpr : prints p s (.read q) = [] := by
      simp only [prints, hq, false_and, if_false]
      split <;> rfl
    rw [hpr, List.append_nil]
    refine hat.frame (fun o ho => .inl (hl ▸ ho)) hn hw ?_
    rw [hp, if_neg (Ne.symm hq)]

theorem ConsoleAt.quiet {l : Label P} (hat : ConsoleAt a p co T W S R u)
    (h₁ : conLog a s l = []) (h₂ : prints p s l = []) (h₃ : timeouts a [(s, l)] = 0) :
    ConsoleAt a p co (T + timeouts a [(s, l)]) (W ++ accepted (conLog a s l))
      (S ++ batches (conLog a s l)) (R ++ prints p s l) u := by
  have hnil : batches [] = [] ∧ accepted [] = [] := ⟨rfl, rfl⟩
  rw [h₁, h₂, h₃, hnil.1, hnil.2, List.append_nil, List.append_nil, List.append_nil]
  exact hat

/-- One step of the network. -/
theorem ConsoleAt.step {l : Label P} (hat : ConsoleAt a p co T W S R s) (hco : IsConsole co)
    (hc : Correlated s) (hok : SessionOk a p co s l) (h : NetStep s l u)
    (ho : OnlyConsole a co u.log) (hok' : Attached a p co u) :
    ConsoleAt a p co (T + timeouts a [(s, l)]) (W ++ accepted (conLog a s l))
      (S ++ batches (conLog a s l)) (R ++ prints p s l) u := by
  have he := h.effect hc.flushed
  have hcu : Correlated u := hc.step h
  have hpre := he.log_prefix
  have hos : OnlyConsole a co s.log := fun o hm => ho o (hpre.subset hm)
  have hfdq : ∀ {q : P} (x : Proc P), x.fdq = (s.procs q).fdq →
      (Function.update s.procs q x p).fdq = (s.procs p).fdq := by
    intro q x hx
    by_cases hq : p = q
    · rw [hq, Function.update_self, hx]
    · rw [Function.update_of_ne hq]
  have hlocal : ∀ {q : P} (x : Proc P), x.fdq = (s.procs q).fdq →
      ConsoleAt a p co T W S R (s.setProc q x) := fun x hx =>
    hat.frame (fun o ho => .inl ho) rfl rfl (congrArg _ (hfdq x hx))
  cases l with
  | printk b m =>
    obtain rfl : s.output b (MeikoCs2.printk m (s.nodes b)) = u := Option.some.inj h
    have hst := hat.printk hco hc hok hcu ho
    have ht : timeouts a [(s, .printk b m)] = 0 := rfl
    have hp : prints p s (.printk b m) = [] := rfl
    rw [ht, hp, List.append_nil]
    exact hst
  | ackTimeout b =>
    obtain rfl : s.output b (canconRecvAck true (s.nodes b)) = u := Option.some.inj h
    have hst := hat.ackTimeout hco hc hok hcu ho
    have hp : prints p s (.ackTimeout b) = [] := rfl
    rw [hp, List.append_nil]
    exact hst
  | deliver i =>
    have hdel : ∃ m, s.wire[i]? = some m ∧ (s.nodes m.dst).halted = false ∧
        u = ({ s with wire := s.wire.eraseIdx i } : Net P).dispatch m := by
      simp only [NetStep, Net.step] at h
      split at h
      · rename_i m hm
        split_ifs at h with hh
        exact ⟨m, hm, by simpa using hh, (Option.some.inj h).symm⟩
      · cases h
    obtain ⟨m, hm, hh, hu⟩ := hdel
    have hst := hat.deliver hco hc hos hok.attached hm hh hu hcu ho hok' hok.undropped
    have ht : timeouts a [(s, .deliver i)] = 0 := rfl
    have hp : prints p s (.deliver i) = [] := rfl
    rw [ht, hp, List.append_nil]
    exact hst
  | read q =>
    have hst := hat.read hco hc hos hok h
    have ht : timeouts a [(s, .read q)] = 0 := rfl
    have hcl : conLog a s (.read q) = [] := rfl
    have hnil : batches [] = [] ∧ accepted [] = [] := ⟨rfl, rfl⟩
    rw [ht, hcl, hnil.1, hnil.2, List.append_nil, List.append_nil]
    exact hst
  | recvAck q i =>
    refine .quiet ?_ rfl rfl rfl
    have hq : p ≠ q := fun hq => hok.recvAck i (by rw [hq])
    have hother : ∀ x : Proc P, (Function.update s.procs q x p).fdq = (s.procs p).fdq := fun x => by
      rw [Function.update_of_ne hq]
    cases he with
    | recvFound _ _ _ _ =>
      refine hat.frame (fun o hm => ?_) rfl rfl (congrArg _ (hother _))
      rcases List.mem_append.mp hm with hm | hm
      · exact .inl hm
      · cases List.mem_singleton.mp hm
    | recvSkip _ _ => exact hat.frame (fun o ho => .inl ho) rfl rfl (congrArg _ (hother _))
    | output hl _ => rcases hl with ⟨_, hl⟩ | hl <;> cases hl
  | run q i =>
    refine .quiet ?_ rfl rfl rfl
    cases he with
    | @send _ _ ext dat len k _ =>
      have hsent : Event.sent (sentBy s q ext dat len) ∈ s.log ++ [.sent (sentBy s q ext dat len)] :=
        List.mem_append_right _ (List.mem_singleton_self _)
      refine hat.frame (fun o hm => ?_) rfl ?_ (congrArg _ (hfdq _ rfl))
      · rcases List.mem_append.mp hm with hm | hm
        · exact .inl hm
        · have heq := List.mem_singleton.mp hm
          rw [Event.sent.injEq] at heq
          rw [heq]
          exact .inr (.inr (by simp))
      · refine filter_append_of_neg fun x hx => ?_
        rw [List.mem_singleton.mp hx, Bool.eq_false_iff]
        intro hpt
        obtain ⟨hob, had⟩ := pertains_iff.mp hpt
        have hs := (ho _ hsent hob (.inr had)).2
        cases hs
    | setConsole _ => exact hlocal _ rfl
    | getConsole _ => exact hlocal _ rfl
    | output hl _ => rcases hl with ⟨_, hl⟩ | hl <;> cases hl
  | scan q i timedout =>
    refine .quiet ?_ rfl rfl rfl
    cases he with
    | found _ _ =>
      refine hat.frame (fun o hm => ?_) rfl rfl (congrArg _ (hfdq _ rfl))
      rcases List.mem_append.mp hm with hm | hm
      · exact .inl hm
      · cases List.mem_singleton.mp hm
    | timeout _ _ => exact hlocal _ rfl
    | discard _ _ => exact hlocal _ rfl
    | output hl _ => rcases hl with ⟨_, hl⟩ | hl <;> cases hl
  | interrupt q i =>
    refine .quiet ?_ rfl rfl rfl
    cases he with
    | interrupt _ => exact hlocal _ rfl
    | output hl _ => rcases hl with ⟨_, hl⟩ | hl <;> cases hl
  | lose i =>
    refine .quiet ?_ rfl rfl rfl
    cases he with
    | lose hm => exact hat.lose hm
    | output hl _ => rcases hl with ⟨_, hl⟩ | hl <;> cases hl
  | overflow q =>
    refine .quiet ?_ rfl rfl rfl
    cases he with
    | overflow => exact hat.overflow q
    | output hl _ => rcases hl with ⟨_, hl⟩ | hl <;> cases hl
  | spawn q t =>
    refine .quiet ?_ rfl rfl rfl
    cases he with
    | spawn _ => exact hlocal _ rfl
    | output hl _ => rcases hl with ⟨_, hl⟩ | hl <;> cases hl

theorem ConsoleAt.run {s₀ : Net P} {tr : List (Net P × Label P)} (hco : IsConsole co)
    (h₀ : Starts s₀) (hp : (s₀.nodes a).canconAckPending = false) (h : Run NetStep s₀ tr s)
    (hok : ∀ x ∈ tr, SessionOk a p co x.1 x.2) (hend : Attached a p co s)
    (ho : OnlyConsole a co s.log) :
    ConsoleAt a p co (timeouts a tr)
      ((s₀.nodes a).canconOutbuf.toList ++ accepted (conLogs a tr)) (batches (conLogs a tr))
      (printed p tr) s := by
  induction h with
  | nil =>
    refine ⟨List.append_nil _, fun o hm => ?_, ?_⟩
    · rw [h₀.log] at hm
      cases hm
    · rw [h₀.wire, h₀.fdq, hp]
      exact .idle (List.Sublist.refl _) (Nat.zero_le _)
  | @snoc tr t u l hr hst ih =>
    have hc : Correlated t := hr.invariant h₀.correlated fun _ _ _ hp hs => hp.step hs
    have hl := hok (t, l) (List.mem_append_right _ (List.mem_singleton_self _))
    have he := hst.effect hc.flushed
    have hpre := he.log_prefix
    have hi := ih (fun x hx => hok x (List.mem_append_left _ hx)) hl.attached
      fun o hm => ho o (hpre.subset hm)
    have hn := hi.step hco hc hl hst ho hend
    have h₁ : timeouts a (tr ++ [(t, l)]) = timeouts a tr + timeouts a [(t, l)] :=
      List.countP_append
    have h₂ : conLogs a (tr ++ [(t, l)]) = conLogs a tr ++ conLog a t l := by
      rw [conLogs, List.flatMap_append, List.flatMap_singleton, ← conLogs]
    have h₃ : printed p (tr ++ [(t, l)]) = printed p tr ++ prints p t l := by
      rw [printed, List.flatMap_append, List.flatMap_singleton, ← printed]
    rw [h₁, h₂, h₃, accepted_append, batches, sents_append, List.map_append, ← List.append_assoc]
    exact hn

end Steps

/-- While the session goes on, what comes out at the other end are packets of
what the kernel wrote to its console, in order, each at most once. No more are
missing than the ACK timer has expired for, but for the one that is awaited. -/
theorem console_output_printed [DecidableEq P] {s₀ s : Net P} {tr : List (Net P × Label P)}
    {a : Canhostname} {p : P} {co : CanHeaderExt} (hco : IsConsole co) (h₀ : Starts s₀)
    (hp : (s₀.nodes a).canconAckPending = false) (h : Run NetStep s₀ tr s)
    (hok : ∀ x ∈ tr, SessionOk a p co x.1 x.2) (hend : Attached a p co s)
    (ho : OnlyConsole a co s.log) :
    (s₀.nodes a).canconOutbuf.toList ++ accepted (conLogs a tr) =
        (batches (conLogs a tr)).flatten ++ (s.nodes a).canconOutbuf.toList ∧
      (printed p tr).Sublist (batches (conLogs a tr)) ∧
      (batches (conLogs a tr)).length ≤ (printed p tr).length + timeouts a tr +
        (if (s.nodes a).canconAckPending then 1 else 0) ∧
      (timeouts a tr = 0 → (s.nodes a).canconAckPending = false →
        (s₀.nodes a).canconOutbuf.toList ++ accepted (conLogs a tr) =
          (printed p tr).flatten ++ (s.nodes a).canconOutbuf.toList) := by
  have hat := ConsoleAt.run hco h₀ hp h hok hend ho
  obtain ⟨hs, hl⟩ := hat.trip.accounts
  refine ⟨hat.text, hs, hl, fun ht hpe => ?_⟩
  rw [ht, hpe] at hl
  rw [hs.eq_of_length_le hl]
  exact hat.text

def sessionOk [DecidableEq P] (a : Canhostname) (p : P) (co : CanHeaderExt) (s : Net P)
    (l : Label P) : Bool :=
  decide ((s.nodes a).canconRmt = co ∧ (s.procs p).consoleObject = co) &&
    ((conLog a s l).all fun e => match e with
      | .dropped _ _ => false
      | _ => true) &&
    match l with
    | .printk _ _ => true
    | .deliver _ => true
    | .lose _ => true
    | .read q => decide (q = p)
    | _ => false

theorem SessionOk.of_check [DecidableEq P] {l : Label P} (h : sessionOk a p co s l = true) :
    SessionOk a p co s l := by
  simp only [sessionOk, Bool.and_eq_true, decide_eq_true_eq] at h
  obtain ⟨⟨⟨hr, hm⟩, hu⟩, hl⟩ := h
  refine ⟨⟨hr, hm⟩, fun pkt cs hd => ?_, fun q hq hne => ?_, fun i hi => ?_, fun ht => ?_⟩
  · exact absurd (List.all_eq_true.mp hu _ hd) (by simp)
  · rw [hq] at hl
    exact absurd (of_decide_eq_true hl) hne
  · rw [hi] at hl
    cases hl
  · rw [ht] at hl
    cases hl

def Event.fromConsole (a : Canhostname) : Event P → Bool
  | .sent o => decide (o.node = a) && o.sender.isNone
  | _ => true

theorem onlyConsole_of_all {log : List (Event P)}
    (h : log.all (Event.fromConsole a) = true) : OnlyConsole a co log := by
  intro o ho _ _
  have hf := List.all_eq_true.mp h _ ho
  simpa [Event.fromConsole] using hf

def helloConsole : CanHeaderExt := ⟨0, .dat, 0, 0, 1, 0x100⟩

/-- The console of node 2 is on node 1, where a cancon is connected. -/
def consoleNet : Net Unit where
  nodes a := .withHost (packNodeid a) helloConsole
  procs _ :=
    { cfg := { clientConfig false with nodeid := packNodeid ⟨0, 0, 1⟩ }
      consoleObject := helloConsole
      fdq := []
      ackbuf := []
      threads := [] }
  wire := []
  requests := 0
  log := []

/-- Two packets, the second one sent when the first is acknowledged. -/
def consoleRun : List (Label Unit) :=
  [.printk ⟨0, 0, 2⟩ "hello", .deliver 0, .read (), .deliver 0, .deliver 0, .read (), .deliver 0]

theorem console_output_printed_hello :
    ∃ tr s, Run NetStep consoleNet tr s ∧ tr.map Prod.snd = consoleRun ∧
      (printed () tr).flatten = messageBytes "hello" := by
  have hst : Starts consoleNet := ⟨fun _ => rfl, rfl, rfl, fun _ => rfl, fun _ => rfl,
    fun _ t ht => absurd ht List.not_mem_nil⟩
  have hs : (steps (fun s l => Net.step l s) (sessionOk ⟨0, 0, 2⟩ () helloConsole) consoleNet
      consoleRun).map (fun s => ((s.nodes ⟨0, 0, 2⟩).canconOutbuf.toList,
        (s.nodes ⟨0, 0, 2⟩).canconAckPending, (s.nodes ⟨0, 0, 2⟩).canconRmt,
        (s.procs ()).consoleObject, s.log.all (Event.fromConsole ⟨0, 0, 2⟩))) =
      some ([], false, helloConsole, helloConsole, true) := rfl
  obtain ⟨s, hsteps, heq⟩ := Option.map_eq_some_iff.mp hs
  simp only [Prod.mk.injEq] at heq
  obtain ⟨hout, hpend, hrmt, hmine, hall⟩ := heq
  obtain ⟨hrun, hls, hok⟩ := run_visited hsteps
  obtain ⟨-, -, -, htext⟩ := console_output_printed ⟨rfl, rfl, rfl⟩ hst rfl hrun
    (fun x hx => .of_check (hok x hx)) ⟨hrmt, hmine⟩ (onlyConsole_of_all hall)
  refine ⟨_, s, hrun, hls, ?_⟩
  have hw := htext rfl hpend
  rw [hout, List.append_nil] at hw
  rw [← hw]
  rfl

end MeikoCs2
