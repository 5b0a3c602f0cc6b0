import MeikoCs2.Correlation
import MeikoCs2.ConsoleStream
import MeikoCs2.PingRounds

/-! From the log of a console to the wire. While a console stays connected, a
step of its node sends at most one packet to it, and only if none is awaited;
that packet is what the step puts on the wire for the console. -/

namespace MeikoCs2

/-- Entries that end the wait for an ACK. -/
def ConEvent.isSignal : ConEvent → Bool
  | .expired => true
  | .dispatched _ => true
  | _ => false

def sents (l : List ConEvent) : List CanPacket :=
  l.filterMap fun
    | .sent pkt _ _ => some pkt
    | _ => none

theorem sents_append (l l' : List ConEvent) : sents (l ++ l') = sents l ++ sents l' :=
  List.filterMap_append

def Undropped (l : List ConEvent) : Prop := ∀ pkt cs, .dropped pkt cs ∉ l

/-- What a console that stays connected does between two signals. -/
inductive ConSends (x : Session) : List CanPacket → Session → Prop where
  | none {y : Session} (hr : y.rmt = x.rmt) (hp : y.pending = x.pending) : ConSends x [] y
  | one {y : Session} {pkt : CanPacket} (hr : y.rmt = x.rmt) (hx : x.pending = false)
      (hy : y.pending = true) (he : pkt.ext = { x.rmt with type := .dat }) : ConSends x [pkt] y

theorem ConSends.trans {x y z : Session} {ps qs : List CanPacket} (h : ConSends x ps y)
    (h' : ConSends y qs z) : ConSends x (ps ++ qs) z := by
  cases h with
  | none hr hp =>
    cases h' with
    | none hr' hp' => exact .none (hr'.trans hr) (hp'.trans hp)
    | one hr' hx' hy' he' => exact .one (hr'.trans hr) (hp ▸ hx') hy' (by rw [he', hr])
  | one hr hx hy he =>
    cases h' with
    | none hr' hp' => exact .one (hr'.trans hr) hx (hp'.trans hy) he
    | one _ hx' _ _ =>
      rw [hy] at hx'
      cases hx'

theorem ConSends.ext {x y : Session} {ps : List CanPacket} (h : ConSends x ps y) :
    ∀ p ∈ ps, p.ext = { x.rmt with type := .dat } := by
  cases h with
  | none _ _ => exact fun p hp => absurd hp List.not_mem_nil
  | one _ _ _ he =>
    intro p hp
    rw [List.mem_singleton.mp hp]
    exact he

theorem Session.Step.sends {x y : Session} {e : ConEvent} (h : Session.Step x e y)
    (hs : e.isSignal = false) (hc : e.isSetcon = false) : ConSends x (sents [e]) y := by
  cases h with
  | sent hb => exact .one rfl hb.idle rfl hb.ext
  | expired _ => cases hs
  | heard _ => cases hs
  | passed _ => cases hs
  | connected _ _ _ => cases hc
  | disconnected _ => cases hc
  | _ => exact .none rfl rfl

theorem ConSends.of_path {x y : Session} {l : List ConEvent} (h : Path Session.Step x l y)
    (hs : ∀ e ∈ l, e.isSignal = false) (hc : ∀ e ∈ l, e.isSetcon = false) :
    ConSends x (sents l) y := by
  induction h with
  | nil x => exact .none rfl rfl
  | @cons x y z e l hst _ ih =>
    have h₁ := hst.sends (hs e List.mem_cons_self) (hc e List.mem_cons_self)
    have h₂ := ih (fun f hf => hs f (List.mem_cons_of_mem _ hf))
      fun f hf => hc f (List.mem_cons_of_mem _ hf)
    rw [show e :: l = [e] ++ l from rfl, sents_append]
    exact h₁.trans h₂

/-! The logs of what a connected console does. -/

theorem Outgoing.quiet {l : List ConEvent} (h : Outgoing l) :
    ∀ e ∈ l, e.isSignal = false ∧ e.isSetcon = false := by
  intro e he
  have ho := h e he
  cases e <;> first | exact ⟨rfl, rfl⟩ | cases ho

/-- No `clear_ring` of the output. -/
def Uncleared (l : List ConEvent) : Prop := ∀ cs, .cleared cs ∉ l

theorem Uncleared.append {l l' : List ConEvent} (h : Uncleared l) (h' : Uncleared l') :
    Uncleared (l ++ l') := by
  intro cs hm
  rcases List.mem_append.mp hm with hm | hm
  · exact h cs hm
  · exact h' cs hm

theorem sendNextLog_uncleared {s : Node} (h : canconUnconnected s.canconRmt = false) :
    Uncleared (sendNextLog s) := by
  intro cs
  simp only [sendNextLog, h, Bool.false_eq_true, if_false]
  split_ifs <;> simp

theorem queueLog_uncleared (cs : List Byte) (r : CharRing) : Uncleared (queueLog cs r) := by
  intro ds hm
  obtain ⟨c, h | h⟩ := mem_queueLog hm <;> cases h

theorem printkLog_uncleared (str : List Byte) {s : Node}
    (h : canconUnconnected s.canconRmt = false) : Uncleared (printkLog str s) := by
  unfold printkLog
  split_ifs
  · exact fun _ => List.not_mem_nil
  · exact (queueLog_uncleared _ _).append (sendNextLog_uncleared h)

theorem recvAckLog_uncleared (timeout : Bool) {s : Node}
    (h : canconUnconnected s.canconRmt = false) : Uncleared (recvAckLog timeout s) := by
  unfold recvAckLog
  cases ackMessage timeout s.canconAckPending with
  | none => exact sendNextLog_uncleared h
  | some m =>
    have hp : canconUnconnected
        (printk m { s with ackTimer := false, canconAckPending := false }).canconRmt = false := by
      rw [printk_rmt]
      exact h
    have hm : Uncleared
        (printkLog (messageBytes m) { s with ackTimer := false, canconAckPending := false }) :=
      printkLog_uncleared _ h
    exact hm.append (sendNextLog_uncleared hp)

theorem recvDatLog_events {cs : List Byte} {s : Node} {e : ConEvent} (h : e ∈ recvDatLog cs s) :
    e.isSignal = false ∧ e.isSetcon = false ∧ ∀ ds, e ≠ .cleared ds := by
  rcases List.mem_append.mp h with h | h
  · obtain ⟨c, rfl | rfl⟩ := mem_recvLog h <;> exact ⟨rfl, rfl, fun _ h => by cases h⟩
  · unfold recvPushLog at h
    split at h
    · cases h
    · split_ifs at h
      · cases h
      · rw [List.mem_singleton.mp h]
        exact ⟨rfl, rfl, fun _ h => by cases h⟩

/-- A dispatch that does not end the session. -/
theorem switchLog_events {p : CanPacket} {s : Node} (hc : canconUnconnected s.canconRmt = false)
    (hd : ¬ IsDisconn p) {e : ConEvent} (h : e ∈ switchLog p s) :
    e.isSignal = false ∧ e.isSetcon = false ∧ ∀ ds, e ≠ .cleared ds := by
  have hout : ∀ {l}, Outgoing l → Uncleared l → e ∈ l →
      e.isSignal = false ∧ e.isSetcon = false ∧ ∀ ds, e ≠ .cleared ds := by
    intro l ho hu hm
    exact ⟨(ho.quiet e hm).1, (ho.quiet e hm).2, fun ds he => hu ds (he ▸ hm)⟩
  unfold switchLog at h
  simp only at h
  split_ifs at h with h₁ h₂ h₃ h₄ h₅ h₆ h₇ h₈
  all_goals first
    | exact absurd h List.not_mem_nil
    | skip
  · simp [hc] at h₂
  · simp only [Bool.and_eq_true, decide_eq_true_eq] at h₄
    exact absurd ⟨h₃, h₄.1⟩ hd
  · refine hout (printkLog_outgoing _ _) (printkLog_uncleared _ ?_) h
    rw [canobjAcknak_rmt]
    exact hc
  · exact recvDatLog_events h

theorem taken_of_kept {l : List ConEvent} (hl : Undropped l) (hc : Uncleared l) :
    taken l = ((sents l).map payload).flatten := by
  induction l with
  | nil => rfl
  | cons e l ih =>
    have he := ih (fun pkt cs hm => hl pkt cs (List.mem_cons_of_mem _ hm))
      fun cs hm => hc cs (List.mem_cons_of_mem _ hm)
    rw [show e :: l = [e] ++ l from rfl, taken_append, sents_append, List.map_append,
      List.flatten_append, he]
    congr 1
    cases e with
    | dropped pkt cs => exact absurd List.mem_cons_self (hl pkt cs)
    | cleared cs => exact absurd List.mem_cons_self (hc cs)
    | sent pkt cs armed => simp [taken, sents]
    | _ => rfl

/-- The session behind the test of `canobj_packet` for the ACK of its console. -/
def Session.after (x : Session) (p : CanPacket) : Session :=
  if x.Hears p then { x with pending := false, timer := false } else x

theorem canobjPacket_conSends {p : CanPacket} {s : Node}
    (hc : canconUnconnected s.canconRmt = false)
    (hr : (canobjPacket p s).1.canconRmt = s.canconRmt) :
    ConSends (s.session.after p) (sents (packetLog p s)) (canobjPacket p s).1.session ∧
      Uncleared (packetLog p s) := by
  have hd : ¬ IsDisconn p := by
    intro hd
    have hn : ¬ IsConnect p := fun hcn => by
      rw [IsConnect, hd.1] at hcn
      exact absurd hcn.1 (by decide)
    rw [canobjPacket_rmt, nextRmt, if_neg hn, if_pos hd, hc] at hr
    simp only [Bool.false_eq_true, if_false] at hr
    rw [← hr, canconUnconnected_dropConsole] at hc
    cases hc
  have hsw : canconUnconnected (canobjSwitch p s).1.canconRmt = false := by
    rw [← (canobjPacket_prints p s).canconRmt, hr]
    exact hc
  have hcons : ∀ e ∈ consobjLog p (canobjSwitch p s).1,
      e.isSignal = false ∧ e.isSetcon = false ∧ ∀ ds, e ≠ .cleared ds := by
    intro e he
    have ho := (consobjLog_outgoing p (canobjSwitch p s).1).quiet e he
    refine ⟨ho.1, ho.2, fun ds hds => ?_⟩
    rw [hds] at he
    unfold consobjLog at he
    split at he
    · exact recvAckLog_uncleared false hsw ds he
    · exact printkLog_uncleared _ hsw ds he
    · cases he
  have hrest : ∀ e ∈ switchLog p s ++
      (if forConsole p (canobjSwitch p s).1 then consobjLog p (canobjSwitch p s).1 else []),
      e.isSignal = false ∧ e.isSetcon = false ∧ ∀ ds, e ≠ .cleared ds := by
    intro e he
    rcases List.mem_append.mp he with he | he
    · exact switchLog_events hc hd he
    · split_ifs at he
      · exact hcons e he
      · cases he
  have hp := canobjPacket_logs p (Quiet.of_connected hc)
  rw [Logs, packetLog, List.cons_append] at hp
  refine ⟨?_, fun ds hm => ?_⟩
  · cases hp with
    | cons hst hrst =>
      have hs := ConSends.of_path hrst (fun e he => (hrest e he).1) fun e he => (hrest e he).2.1
      cases hst with
      | heard hh =>
        rw [Session.after, if_pos hh]
        exact hs
      | passed hh =>
        rw [Session.after, if_neg hh]
        exact hs
  · rw [packetLog, List.cons_append] at hm
    rcases List.mem_cons.mp hm with hm | hm
    · cases hm
    · exact (hrest _ hm).2.2 ds rfl

theorem printk_conSends (m : String) (s : Node) :
    ConSends s.session (sents (printkLog (messageBytes m) s)) (printk m s).session :=
  .of_path (printk_logs m s) (fun e he => ((printkLog_outgoing _ s).quiet e he).1)
    fun e he => ((printkLog_outgoing _ s).quiet e he).2

theorem canconRecvAck_conSends (timeout : Bool) (s : Node) :
    ConSends { s.session with pending := false, timer := false } (sents (recvAckLog timeout s))
      (canconRecvAck timeout s).session :=
  .of_path (canconRecvAck_logs timeout s)
    (fun e he => ((recvAckLog_outgoing timeout s).quiet e he).1)
    fun e he => ((recvAckLog_outgoing timeout s).quiet e he).2

/-- The DATs handed to `send_pkt` in a step, none of them refused. -/
theorem Shows.handed_dats {s u : Node} {l : List ConEvent} (h : Shows s l u) (hs : s.handed = [])
    (hl : Undropped l) :
    ((u.handed.map Handed.pkt).filter fun p => p.ext.type = .dat) = (sents l).map (fixup s) := by
  have hd : datsHanded u = l.flatMap (ConEvent.handed (fixup s)) := by
    rw [h.dats, datsHanded, hs]
    rfl
  have hu : ((u.handed.map Handed.pkt).filter fun p => p.ext.type = .dat) =
      (datsHanded u).map Prod.fst := by
    rw [datsHanded, List.map_map, List.filter_map]
    rfl
  rw [hu, hd]
  clear hu hd h
  induction l with
  | nil => rfl
  | cons e l ih =>
    have hl' : Undropped l := fun pkt cs hm => hl pkt cs (List.mem_cons_of_mem _ hm)
    rw [List.flatMap_cons, List.map_append, ih hl', show e :: l = [e] ++ l from rfl, sents_append,
      List.map_append]
    congr 1
    cases e with
    | dropped pkt cs => exact absurd List.mem_cons_self (hl pkt cs)
    | _ => rfl

variable {P : Type}

/-- The packets handed on are on the wire, in order, and come from the node. -/
theorem foldl_hand_wire (m : Msg P) (ps : List CanPacket) (s : Net P) :
    ∃ ms, (ps.foldl (Net.hand m) s).wire = s.wire ++ ms ∧ ms.map Msg.pkt = ps ∧
      ∀ x ∈ ms, x.src = m.dst := by
  induction ps generalizing s with
  | nil => exact ⟨[], (List.append_nil _).symm, rfl, fun _ h => absurd h List.not_mem_nil⟩
  | cons p ps ih =>
    obtain ⟨ms, hw, hp, hs⟩ := ih (Net.hand m s p)
    have hone : ∃ x : Msg P, (Net.hand m s p).wire = s.wire ++ [x] ∧ x.pkt = p ∧ x.src = m.dst := by
      unfold Net.hand
      split_ifs
      · exact ⟨_, rfl, rfl, rfl⟩
      · exact ⟨_, rfl, rfl, rfl⟩
    obtain ⟨x, hx, hxp, hxs⟩ := hone
    refine ⟨x :: ms, ?_, ?_, fun y hy => ?_⟩
    · rw [List.foldl_cons, hw, hx, List.append_assoc]
      rfl
    · rw [List.map_cons, hp, hxp]
    · rcases List.mem_cons.mp hy with rfl | hy
      · exact hxs
      · exact hs y hy

theorem foldl_transmit_wire (a : Canhostname) (ps : List CanPacket) (s : Net P) :
    ∃ ms, (ps.foldl (fun s pkt => s.transmit a none pkt) s).wire = s.wire ++ ms ∧
      ms.map Msg.pkt = ps ∧ ∀ x ∈ ms, x.src = a := by
  induction ps generalizing s with
  | nil => exact ⟨[], (List.append_nil _).symm, rfl, fun _ h => absurd h List.not_mem_nil⟩
  | cons p ps ih =>
    obtain ⟨ms, hw, hp, hs⟩ := ih (s.transmit a none p)
    refine ⟨⟨a, p.ext.addr, p, ⟨a, none, s.requests, p⟩⟩ :: ms, ?_, ?_, fun y hy => ?_⟩
    · rw [List.foldl_cons, hw, Net.transmit, List.append_assoc]
      rfl
    · rw [List.map_cons, hp]
    · rcases List.mem_cons.mp hy with rfl | hy
      · rfl
      · exact hs y hy

end MeikoCs2
