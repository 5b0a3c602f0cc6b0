import MeikoCs2.Correlation

/-! The phases of `connect_protocol` in a process of the network: it looks at
CONSOLE_CONNECT, writes its console object there and waits for the answer. -/

namespace MeikoCs2

def IsConnReq (p : CanPacket) : Prop :=
  p.ext.object = Canobj.consoleConnect ∧ (p.ext.type = .ro ∨ p.ext.type = .wo)

instance (p : CanPacket) : Decidable (IsConnReq p) := inferInstanceAs (Decidable (_ ∧ _))

theorem IsConnect.isConnReq {p : CanPacket} (h : IsConnect p) : IsConnReq p := ⟨h.1, .inr h.2⟩

inductive Phase where
  | looking | waiting | refused | connected
  deriving DecidableEq

/-- The main thread of a cancon with configuration `c`: it reads the object
only before it has written it, writes its own console object, and waits for
each answer before it writes again. -/
def connectMonitor (c : Config) : Monitor CanOp.Res Phase where
  allows g o :=
    match o with
    | .canSend ext dat len => ext.object = Canobj.consoleConnect →
      (ext.type = .ro ∧ g = .looking) ∨
      (ext.type = .wo ∧ (g = .looking ∨ g = .refused) ∧ ext.addr = c.targetCh ∧
        dat = some c.consoleObject.extDat ∧ len = 4)
    | .waitforAcknak t _ =>
      g = .waiting → t.object = Canobj.consoleConnect ∧ t.addr = c.targetCh
    | .canRecvAck _ => False
    | .setConsoleObject ext => ext.object ≠ Canobj.consoleConnect
    | .getConsoleObject => True
  next g o r :=
    match o, r with
    | .canSend ext _ _, _ =>
      if ext.object = Canobj.consoleConnect ∧ ext.type = .wo then .waiting else g
    | .waitforAcknak _ _, r =>
      if g = .waiting then if r.1 = .ack then .connected else .refused else g
    | _, _ => g

def connectPost (g : Phase) (r : Int) : Prop :=
  (r = 0 ∧ g = .connected) ∨ (r = -1 ∧ (g = .looking ∨ g = .refused))

theorem canValidConsobj_ne {o : BitVec 10} (h : canValidConsobj o = true) :
    o ≠ Canobj.consoleConnect := by
  rintro rfl
  exact absurd h (by decide)

theorem obeys_look (c : Config) {α : Type} {t : CanProg α} (h : OpsOnly IsLookOp t) :
    Obeys (connectMonitor c) (fun g _ => g = .looking) .looking t := by
  induction t with
  | pure a => rfl
  | op o k ih =>
    have hnext : ∀ r, (connectMonitor c).next .looking o r = .looking := by
      intro r
      cases o with
      | canSend ext dat len =>
        rcases h.1 with ho | ho
        · simp [connectMonitor, ho.1]
        · rcases ho.2 with ho | ho <;> simp only [connectMonitor, ho] <;> rfl
      | waitforAcknak target dat => rfl
      | _ => rfl
    refine ⟨?_, fun r => ?_⟩
    · cases o with
      | canSend ext dat len =>
        intro hc
        rcases h.1 with ho | ho
        · exact .inl ⟨ho.1, rfl⟩
        · rcases ho.2 with ho | ho <;> rw [hc] at ho <;> exact absurd ho (by decide)
      | waitforAcknak target dat => exact fun hw => by cases hw
      | canRecvAck ext => exact h.1
      | setConsoleObject ext => exact absurd h.1 id
      | getConsoleObject => trivial
    · rw [hnext]
      exact ih r (h.2 r)

theorem obeys_sendConnectWo (c : Config) :
    Obeys (connectMonitor c) (fun g r => g = if r = .ack then .connected else .refused) .looking
      (sendConnectWo c c.consoleObject) := by
  have hsend : Obeys (connectMonitor c)
      (fun g r => g = if r.1 = .ack then .connected else .refused) .looking
      (send (loadExtCh c.stack.ext.xpriority .wo Canobj.consoleConnect c.targetCh)
        (some c.consoleObject.extDat) 4 0) := by
    refine obeys_mysendLoop (I := fun g => g = .looking ∨ g = .refused) (fun g hg _ => ?_)
      (fun _ _ _ _ => ⟨rfl, rfl⟩) (fun g d r _ => ⟨rfl, fun hr => ?_⟩) _ _ (.inl rfl)
    · exact .inr ⟨rfl, hg, rfl, rfl, rfl⟩
    · exact .inr (if_neg hr)
  exact hsend.bind fun _ _ hg => hg

theorem obeys_connectWrite {c : Config} (hc : c.consobj ≠ Canobj.consoleConnect) :
    Obeys (connectMonitor c) connectPost .looking (connectWrite c) := by
  refine ⟨hc, fun _ => ?_⟩
  refine (obeys_sendConnectWo c).bind fun g r hg => ?_
  split_ifs with ha
  · exact .inl ⟨rfl, by rw [hg, if_pos ha]⟩
  · exact .inr ⟨rfl, .inr (by rw [hg, if_neg ha])⟩

theorem obeys_connectProtocol_phases {c : Config} (hc : c.consobj ≠ Canobj.consoleConnect) :
    Obeys (connectMonitor c) connectPost .looking (connectProtocol c) :=
  obeys_connectProtocol c (obeys_look c) (obeys_connectWrite hc) (.inr ⟨rfl, .inl rfl⟩)

def IsQuietOp : CanOp → Prop
  | .canSend ext _ _ => ext.object ≠ Canobj.consoleConnect
  | .waitforAcknak _ _ => True
  | .canRecvAck _ => False
  | .setConsoleObject _ => False
  | .getConsoleObject => True

theorem IsTaskOp.isQuietOp {c : Config} (hc : c.resetobj ≠ Canobj.consoleConnect) {o : CanOp}
    (h : IsTaskOp c o) : IsQuietOp o := by
  cases o with
  | canSend ext dat len =>
    intro he
    rcases h.2 with ho | ho | ho | ho
    · rw [ho] at he
      exact absurd he (by decide)
    · rw [ho] at he
      exact absurd he (by decide)
    · exact hc (ho ▸ he)
    · rw [ho] at he
      exact absurd he (by decide)
  | canRecvAck ext => exact absurd h id
  | setConsoleObject ext => exact absurd h id
  | _ => trivial

/-- The recorded console object of a cancon counts as connected: its address
is masked to five bits. -/
theorem canconUnconnected_consoleObject (c : Config) :
    canconUnconnected c.consoleObject = false := by
  rw [Bool.eq_false_iff]
  intro h
  have hb : c.consoleObject.cluster.getLsbD 5 = true := by
    rw [((canconUnconnected_iff _).mp h).1]
    rfl
  simp [Config.consoleObject, loadExtNodeid, loadExtCh, nodeAddr, unpackCluster] at hb

theorem replies_consoleConnect {p r : CanPacket} {n : Node}
    (h : p.ext.object = Canobj.consoleConnect) (hr : r ∈ replies p n) :
    (p.ext.type = .ro ∧ r.ext.type = .ack) ∨
    (p.ext.type = .wo ∧
      r.ext.type = if canconUnconnected n.canconRmt then .ack else .nak) := by
  obtain ⟨ha, _⟩ := isReply_of_mem_replies hr
  cases ht : p.ext.type with
  | wo =>
    rw [replies_connect ⟨h, ht⟩] at hr
    split_ifs at hr ⊢ <;> rw [List.mem_singleton.mp hr] <;> exact .inr ⟨rfl, rfl⟩
  | ro =>
    rw [replies, canobjPacket_of_ackable ha, canobjSwitch_connect h, canobjConnect, ht] at hr
    simp only at hr
    rw [acknaks_canobjAcknak rfl, List.drop_left] at hr
    rw [List.mem_singleton.mp hr]
    exact .inl ⟨rfl, rfl⟩
  | dat =>
    rw [replies, canobjPacket_of_ackable ha, canobjSwitch_connect h, canobjConnect, ht] at hr
    simp at hr
  | _ =>
    rw [ht] at ha
    cases ha

variable {P : Type}

/-- What the command line and the driver give a cancon for node `T`: an object
of the range that CAN_GET_CONSOBJ hands out, and a RESET object from the table. -/
structure Proper (T : Canhostname) (c : Config) : Prop where
  target : c.targetCh = T
  consobj : canValidConsobj c.consobj = true
  resetobj : c.resetobj ≠ Canobj.consoleConnect

/-- A network at rest, with a cancon for node `T` about to start in every
process. -/
structure Connecting (T : Canhostname) (s : Net P) : Prop where
  flushed : Flushed s
  wire : s.wire = []
  log : s.log = []
  boot : ∀ p, s.procs p = .boot (s.procs p).cfg (connectProtocol (s.procs p).cfg)
  proper : ∀ p, Proper T (s.procs p).cfg

theorem Connecting.starts {T : Canhostname} {s : Net P} (h : Connecting T s) : Starts s where
  flushed := h.flushed
  wire := h.wire
  log := h.log
  fdq p := by
    rw [h.boot p]
    rfl
  ackbuf p := by
    rw [h.boot p]
    rfl
  threads p t ht := by
    rw [h.boot p] at ht
    rw [List.mem_singleton.mp ht]
    exact opsOnly_connectProtocol _

def AcceptedReq (log : List (Event P)) (o : Origin P) : Prop :=
  ∃ m rmt, .dispatched o.pkt.ext.addr m rmt (datExt o.pkt.dat) ∈ log ∧ m.origin = o ∧
    m.pkt = o.pkt ∧ canconUnconnected rmt = true

/-- What a reply for CONSOLE_CONNECT says of the request it answers. -/
def Answers (log : List (Event P)) (ext : CanHeaderExt) (o : Origin P) : Prop :=
  ext.type.isAcknak = true → ext.object = Canobj.consoleConnect →
    IsConnReq o.pkt ∧ (ext.type = .nak → IsConnect o.pkt) ∧
      (ext.type = .ack → IsConnect o.pkt → AcceptedReq log o)

theorem AcceptedReq.mono {log log' : List (Event P)} {o : Origin P} (h : AcceptedReq log o)
    (hl : log <+: log') : AcceptedReq log' o := by
  obtain ⟨m, rmt, he, hm⟩ := h
  exact ⟨m, rmt, hl.subset he, hm⟩

theorem Answers.mono {log log' : List (Event P)} {ext : CanHeaderExt} {o : Origin P}
    (h : Answers log ext o) (hl : log <+: log') : Answers log' ext o := fun ha hc =>
  have hx := h ha hc
  ⟨hx.1, hx.2.1, fun ht hw => (hx.2.2 ht hw).mono hl⟩

theorem answers_of_request {log : List (Event P)} {ext : CanHeaderExt} {o : Origin P}
    (h : IsRequest ext) : Answers log ext o := fun ha => by
  rw [h] at ha
  cases ha

theorem answers_reply {log : List (Event P)} {m : Msg P} {n : Node} {r : CanPacket}
    (hr : r ∈ replies m.pkt n) (hpkt : m.pkt = m.origin.pkt)
    (hdst : m.dst = m.origin.pkt.ext.addr)
    (hlog : .dispatched m.dst m n.canconRmt (nextRmt m.pkt n.canconRmt) ∈ log) :
    Answers log r.ext m.origin := by
  intro _ hc
  have hobj : m.pkt.ext.object = Canobj.consoleConnect := by
    obtain ⟨_, t, d, _, he⟩ := isReply_of_mem_replies hr
    rw [he] at hc
    exact hc
  rw [← hpkt]
  rcases replies_consoleConnect hobj hr with ⟨ht, hack⟩ | ⟨ht, htype⟩
  · refine ⟨⟨hobj, .inl ht⟩, fun hn => ?_, fun _ hw => ?_⟩
    · rw [hack] at hn
      cases hn
    · rw [hw.2] at ht
      cases ht
  · have hw : IsConnect m.pkt := ⟨hobj, ht⟩
    refine ⟨hw.isConnReq, fun _ => hw, fun hack _ => ?_⟩
    cases hu : canconUnconnected n.canconRmt with
    | false => rw [hu, hack] at htype; cases htype
    | true =>
      refine ⟨m, n.canconRmt, ?_, rfl, hpkt, hu⟩
      simpa only [hdst, hpkt, nextRmt, if_pos (hpkt ▸ hw), hu, if_true] using hlog

structure SentByCancon (T : Canhostname) (cfg : P → Config) (o : Origin P) (p : P) : Prop where
  sender : o.sender = some p
  node : o.node = nodeAddr (cfg p).nodeid
  write : IsConnect o.pkt → o.pkt.ext.addr = T ∧ datExt o.pkt.dat = (cfg p).consoleObject

/-- Cancons for node `T` in the phases `g`. -/
structure Clients (T : Canhostname) (g : P → Phase) (s : Net P) : Prop where
  correlated : Correlated s
  proper : ∀ p, Proper T (s.procs p).cfg
  console : ∀ p, (s.procs p).consoleObject.object ≠ Canobj.consoleConnect
  main : ∀ p, ∃ t, (s.procs p).threads[0]? = some t ∧
    Obeys (connectMonitor (s.procs p).cfg) connectPost (g p) t
  tasks : ∀ p i t, (s.procs p).threads[i + 1]? = some t → OpsOnly IsQuietOp t
  sent : ∀ o, .sent o ∈ s.log → IsConnReq o.pkt →
    ∃ p, SentByCancon T (fun p => (s.procs p).cfg) o p
  answers : Items (fun m => Answers s.log m.pkt.ext m.origin)
    (fun _ m => Answers s.log m.pkt.ext m.origin)
    (fun _ e => e.ext.type.isAcknak = true ∧ Answers s.log e.ext e.origin) s

theorem Connecting.clients {T : Canhostname} {s : Net P} (h : Connecting T s) :
    Clients T (fun _ => .looking) s where
  correlated := h.starts.correlated
  proper := h.proper
  console p := by
    rw [h.boot p]
    exact (by decide : (0 : BitVec 10) ≠ Canobj.consoleConnect)
  main p := by
    refine ⟨connectProtocol (s.procs p).cfg, ?_,
      obeys_connectProtocol_phases (canValidConsobj_ne (h.proper p).consobj)⟩
    rw [h.boot p]
    rfl
  tasks p i t ht := by
    rw [h.boot p] at ht
    cases ht
  sent o ho := by
    rw [h.log] at ho
    cases ho
  answers := h.starts.items _ _ _

def mainResult (x : Proc P) : Option Int :=
  match x.threads[0]? with
  | some (Prog.pure r) => some r
  | _ => none

theorem Clients.phase_of_mainResult {T : Canhostname} {g : P → Phase} {s : Net P}
    (h : Clients T g s) {p : P} {r : Int} (hr : mainResult (s.procs p) = some r) :
    connectPost (g p) r := by
  obtain ⟨t, ht, ho⟩ := h.main p
  unfold mainResult at hr
  rw [ht] at hr
  cases t with
  | pure a =>
    rw [← Option.some.inj hr]
    exact ho
  | op o k => cases hr

theorem Clients.object_ne_of_readerAcks {T : Canhostname} {g : P → Phase} {s : Net P}
    (h : Clients T g s) {p : P} {m : Msg P}
    (hr : ReaderAcks (s.procs p) m) : m.pkt.ext.object ≠ Canobj.consoleConnect := by
  rcases hr with ⟨_, hr⟩ | ⟨_, hr⟩
  · rw [hr]
    exact h.console p
  · rw [hr]
    decide

theorem Clients.not_connReq_of_readerAcks {T : Canhostname} {g : P → Phase} {s : Net P}
    (h : Clients T g s) {p : P} {m : Msg P}
    (hm : m ∈ (s.procs p).fdq) (hr : ReaderAcks (s.procs p) m) : ¬ IsConnReq m.origin.pkt := by
  have hreq : IsRequest m.pkt.ext := by
    rcases hr with hr | hr <;> rw [IsRequest, hr.1] <;> rfl
  have hpkt := ((h.correlated.items.fdq p m hm).1.of_request hreq).1
  intro hc
  rw [← hpkt] at hc
  exact h.object_ne_of_readerAcks hr hc.1

inductive PhaseStep (T : Canhostname) (s : Net P) (l : Label P) (p : P) : Phase → Phase → Prop where
  | quiet {g : Phase} (h : ∀ i, l = .run p i → ∀ pkt ∈ nextSend s p i, IsConnReq pkt →
      g = .looking ∧ pkt.ext.type = .ro)
      (hd : ∀ timedout, l = .scan p 0 timedout → g = .waiting → ∃ target : CanHeaderExt,
        target.object = Canobj.consoleConnect ∧ target.addr = T ∧
        scanAckbuf target (s.procs p).ackbuf = none) : PhaseStep T s l p g g
  | write {g : Phase} {i : Nat} {pkt : CanPacket} (hl : l = .run p i)
      (hg : g = .looking ∨ g = .refused) (hs : nextSend s p i = some pkt) (hw : IsConnect pkt) :
      PhaseStep T s l p g .waiting
  | answer {target : CanHeaderExt} {timedout : Bool} {e : AckPkt P}
      (hl : l = .scan p 0 timedout) (ho : target.object = Canobj.consoleConnect)
      (ha : target.addr = T) (he : scanAckbuf target (s.procs p).ackbuf = some e) :
      PhaseStep T s l p .waiting (if e.ext.type = .ack then .connected else .refused)
  | timeout {target : CanHeaderExt} (hl : l = .scan p 0 true)
      (ho : target.object = Canobj.consoleConnect) (ha : target.addr = T)
      (he : scanAckbuf target (s.procs p).ackbuf = none) :
      PhaseStep T s l p .waiting .refused

theorem nextSend_of_isLocal {s : Net P} {p : P} {i : Nat} {o : CanOp}
    {k : CanOp.Res o → CanProg Int} (h : (s.procs p).threads[i]? = some (.op o k))
    (ho : o.isLocal = true) : nextSend s p i = none := by
  simp only [nextSend, h]
  cases o with
  | canSend ext dat len => cases ho
  | _ => rfl

theorem connectMonitor_next_of_isLocal (c : Config) (g : Phase) {o : CanOp} {r : CanOp.Res o}
    (ho : o.isLocal = true) : (connectMonitor c).next g o r = g := by
  cases o with
  | canSend ext dat len => cases ho
  | waitforAcknak target dat => cases ho
  | _ => rfl

variable {T : Canhostname} {g : P → Phase} {s u : Net P} {l : Label P}

theorem PhaseStep.send {c : Config} {p : P} {g : Phase} {ext : CanHeaderExt} {dat : Option CanDat}
    {len : Nat} {k : Unit → CanProg Int} (hl : l = .run p 0)
    (hi : (s.procs p).threads[0]? = some (.op (.canSend ext dat len) k))
    (ha : (connectMonitor c).allows g (.canSend ext dat len)) :
    PhaseStep T s l p g ((connectMonitor c).next g (.canSend ext dat len) ()) := by
  simp only [connectMonitor]
  split_ifs with hw
  · have hg : g = .looking ∨ g = .refused := by
      rcases ha hw.1 with hr | hr
      · rw [hw.2] at hr
        cases hr.1
      · exact hr.2.1
    exact .write hl hg (nextSend_eq hi) hw
  · refine .quiet (fun j hj pkt hs hr => ?_) fun b hb => ?_
    · rw [hl, Label.run.injEq] at hj
      rw [← hj.2, nextSend_eq hi, Option.mem_some_iff] at hs
      rw [← hs] at hr ⊢
      rcases ha hr.1 with ht | ht
      · exact ⟨ht.2, ht.1⟩
      · exact absurd ⟨hr.1, ht.1⟩ hw
    · rw [hl] at hb
      cases hb

theorem PhaseStep.wait {c : Config} (hc : c.targetCh = T) {p : P} {g : Phase}
    {target : CanHeaderExt} {dat : CanDat} {r : Acknak × CanDat} {timedout : Bool}
    (hl : l = .scan p 0 timedout)
    (hr : (∃ e, scanAckbuf target (s.procs p).ackbuf = some e ∧ r.1 = .ofType e.ext.type) ∨
      (scanAckbuf target (s.procs p).ackbuf = none ∧ r.1 = .timedout ∧ timedout = true))
    (ha : (connectMonitor c).allows g (.waitforAcknak target dat)) :
    PhaseStep T s l p g ((connectMonitor c).next g (.waitforAcknak target dat) r) := by
  simp only [connectMonitor]
  by_cases hg : g = .waiting
  · obtain ⟨ho, ha⟩ := ha hg
    rw [hc] at ha
    rw [if_pos hg, hg]
    rcases hr with ⟨e, hs, hr⟩ | ⟨hs, hr, rfl⟩
    · have hif : (if r.1 = .ack then Phase.connected else .refused) =
          if e.ext.type = .ack then .connected else .refused := by
        rw [hr]
        unfold Acknak.ofType
        split_ifs <;> simp_all
      rw [hif]
      exact .answer hl ho ha hs
    · rw [hr]
      exact .timeout hl ho ha hs
  · rw [if_neg hg]
    refine .quiet (fun j hj => ?_) fun _ _ hw => absurd hw hg
    rw [hl] at hj
    cases hj

theorem PhaseStep.stay {p : P} {g : Phase}
    (h : ∀ i, l = .run p i → ∀ pkt ∈ nextSend s p i, ¬ IsConnReq pkt)
    (hs : ∀ b, l ≠ .scan p 0 b) : PhaseStep T s l p g g :=
  .quiet (fun i hi pkt hn hr => absurd hr (h i hi pkt hn)) fun b hb => absurd hb (hs b)

variable [DecidableEq P]

theorem Clients.main_step (h : Clients T g s) (he : Effect s l u) (p : P) :
    ∃ g' t, (u.procs p).threads[0]? = some t ∧
      Obeys (connectMonitor (s.procs p).cfg) connectPost g' t ∧ PhaseStep T s l p (g p) g' := by
  obtain ⟨t, ht, ho⟩ := h.main p
  have hstay : ∀ {i : Nat} {t' : CanProg Int},
      (u.procs p).threads = (s.procs p).threads.set (i + 1) t' → (u.procs p).threads[0]? = some t :=
    fun hu => by rw [hu, List.getElem?_set_ne (Nat.succ_ne_zero _), ht]
  have hset : ∀ {o : CanOp} {k : CanOp.Res o → CanProg Int} {r : CanOp.Res o},
      (s.procs p).threads[0]? = some (.op o k) →
      (u.procs p).threads = (s.procs p).threads.set 0 (k r) →
      (u.procs p).threads[0]? = some (k r) ∧ (connectMonitor (s.procs p).cfg).allows (g p) o ∧
        Obeys (connectMonitor (s.procs p).cfg) connectPost
          ((connectMonitor (s.procs p).cfg).next (g p) o r) (k r) := fun {o k r} hi hu => by
    rw [ht, Option.some.injEq] at hi
    subst hi
    refine ⟨?_, ho.1, ho.2 r⟩
    rw [hu, List.getElem?_set_self (List.getElem?_eq_some_iff.mp ht).1]
  cases he.threadStep p with
  | same hl hs hu =>
    exact ⟨g p, t, by rw [hu, ht], ho, .stay (fun i hi => absurd hi (hl i)) (hs 0)⟩
  | start task hl hs hu =>
    refine ⟨g p, t, ?_, ho, .stay (fun i hi => absurd hi (hl i)) (hs 0)⟩
    rw [hu, List.getElem?_append_left (List.getElem?_eq_some_iff.mp ht).1, ht]
  | @send i ext dat len k hl hi hu =>
    cases i with
    | zero =>
      obtain ⟨h₁, h₂, h₃⟩ := hset hi hu
      exact ⟨_, _, h₁, h₃, .send hl hi h₂⟩
    | succ i =>
      refine ⟨g p, t, hstay hu, ho, .stay (fun j hj pkt hs hr => ?_) fun b hb => ?_⟩
      · rw [hl, Label.run.injEq] at hj
        rw [← hj.2, nextSend_eq hi, Option.mem_some_iff] at hs
        rw [← hs] at hr
        exact (h.tasks p i _ hi).1 hr.1
      · rw [hl] at hb
        cases hb
  | @wait i target dat k r timedout hl hi hu hr =>
    cases i with
    | zero =>
      obtain ⟨h₁, h₂, h₃⟩ := hset hi hu
      exact ⟨_, _, h₁, h₃, .wait (h.proper p).target hl hr h₂⟩
    | succ i =>
      refine ⟨g p, t, hstay hu, ho, .stay (fun j hj => ?_) fun b hb => ?_⟩
      · rw [hl] at hj
        cases hj
      · rw [hl] at hb
        cases hb
  | @discard i target dat k hl hi hn hu =>
    refine ⟨g p, t, by rw [hu, ht], ho, .quiet (fun j hj => ?_) fun b hb hg => ?_⟩
    · rw [hl] at hj
      cases hj
    · rw [hl, Label.scan.injEq] at hb
      rw [hb.2.1, ht, Option.some.injEq] at hi
      subst hi
      obtain ⟨hobj, ha⟩ := ho.1 hg
      rw [(h.proper p).target] at ha
      exact ⟨target, hobj, ha, hn⟩
  | @other i o k r hl hs hloc hi hu =>
    have hq : PhaseStep T s l p (g p) (g p) := by
      refine .stay (fun j hj pkt hn => ?_) (hs 0)
      rw [hl j hj, nextSend_of_isLocal hi hloc] at hn
      cases hn
    cases i with
    | succ i => exact ⟨g p, t, hstay hu, ho, hq⟩
    | zero =>
      obtain ⟨h₁, _, h₃⟩ := hset hi hu
      rw [connectMonitor_next_of_isLocal _ _ hloc] at h₃
      exact ⟨g p, _, h₁, h₃, hq⟩

theorem mainResult_step (he : Effect s l u) {p : P} {r : Int}
    (hr : mainResult (s.procs p) = some r) : mainResult (u.procs p) = some r := by
  have ht : (s.procs p).threads[0]? = some (.pure r) := by
    unfold mainResult at hr
    split at hr
    · rename_i ht
      rw [ht, Option.some.inj hr]
    · cases hr
  suffices hu : (u.procs p).threads[0]? = some (.pure r) by simp only [mainResult, hu]
  have hset : ∀ {i o k} (r' : CanOp.Res o), (s.procs p).threads[i]? = some (.op o k) →
      (u.procs p).threads = (s.procs p).threads.set i (k r') →
      (u.procs p).threads[0]? = some (.pure r) := fun {i o k} r' hi hu => by
    have hne : i ≠ 0 := by
      rintro rfl
      rw [ht] at hi
      cases hi
    rw [hu, List.getElem?_set_ne hne, ht]
  cases he.threadStep p with
  | same _ _ hu => rw [hu, ht]
  | discard _ _ _ hu => rw [hu, ht]
  | send _ hi hu => exact hset _ hi hu
  | wait _ hi hu _ => exact hset _ hi hu
  | other _ _ _ hi hu => exact hset _ hi hu
  | start task _ _ hu =>
    rw [hu, List.getElem?_append_left (List.getElem?_eq_some_iff.mp ht).1, ht]

theorem Clients.tasks_step (h : Clients T g s) (he : Effect s l u) (p : P) (i : Nat)
    (t : CanProg Int) (ht : (u.procs p).threads[i + 1]? = some t) : OpsOnly IsQuietOp t := by
  have hset : ∀ {j o k} (r : CanOp.Res o), (s.procs p).threads[j]? = some (.op o k) →
      (u.procs p).threads = (s.procs p).threads.set j (k r) → OpsOnly IsQuietOp t :=
    fun {j o k} r hj hu => by
      rw [hu] at ht
      rcases eq_or_ne j (i + 1) with rfl | hne
      · rw [List.getElem?_set_self (List.getElem?_eq_some_iff.mp hj).1, Option.some.injEq] at ht
        rw [← ht]
        exact (h.tasks p i _ hj).2 r
      · rw [List.getElem?_set_ne hne] at ht
        exact h.tasks p i t ht
  cases he.threadStep p with
  | same _ _ hu => exact h.tasks p i t (hu ▸ ht)
  | discard _ _ _ hu => exact h.tasks p i t (hu ▸ ht)
  | send _ hj hu => exact hset _ hj hu
  | wait _ hj hu _ => exact hset _ hj hu
  | other _ _ _ hj hu => exact hset _ hj hu
  | start task _ _ hu =>
    rw [hu, List.getElem?_append] at ht
    split_ifs at ht with hlt
    · exact h.tasks p i t ht
    · have hmem := List.mem_of_getElem? ht
      rw [List.mem_singleton.mp hmem]
      exact opsOnly_task _ (fun _ => IsTaskOp.isQuietOp (h.proper p).resetobj) task

/-- Only a thread that runs `connect_protocol` assigns the console object. -/
theorem Clients.console_step (h : Clients T g s) (he : Effect s l u) (p : P) :
    (u.procs p).consoleObject.object ≠ Canobj.consoleConnect := by
  have hset : ∀ (q : P) (x : Proc P), x.consoleObject.object ≠ Canobj.consoleConnect →
      (Function.update s.procs q x p).consoleObject.object ≠ Canobj.consoleConnect :=
    fun q x hx => by
      rcases eq_or_ne p q with rfl | hne
      · rw [Function.update_self]
        exact hx
      · rw [Function.update_of_ne hne]
        exact h.console p
  cases he with
  | @setConsole q i ext k hi =>
    refine hset q _ ?_
    cases i with
    | zero =>
      obtain ⟨t, ht, ho⟩ := h.main q
      rw [hi, Option.some.injEq] at ht
      subst ht
      exact ho.1
    | succ i => exact absurd (h.tasks q i _ hi).1 id
  | deliver _ hd =>
    obtain ⟨given, hp, _⟩ := hd.procs
    rw [hp]
    unfold giveFiles
    split_ifs <;> exact h.console p
  | lose _ => exact h.console p
  | output _ ho =>
    rw [ho.procs]
    exact h.console p
  | _ => exact hset _ _ (h.console _)

theorem Clients.sent_step (h : Clients T g s) (he : Effect s l u) (o : Origin P)
    (ho : .sent o ∈ u.log) (hr : IsConnReq o.pkt) :
    ∃ p, SentByCancon T (fun p => (s.procs p).cfg) o p := by
  rcases he.sent_cases ho with ho | ⟨_, hd⟩ | ⟨p, i, ext, dat, len, k, _, hi, rfl⟩
  · exact h.sent o ho hr
  · rcases hr.2 with ht | ht <;> rw [hd] at ht <;> cases ht
  · refine ⟨p, rfl, rfl, fun hw => ?_⟩
    cases i with
    | succ i => exact absurd hr.1 (h.tasks p i _ hi).1
    | zero =>
      obtain ⟨t, ht, hobey⟩ := h.main p
      rw [hi, Option.some.injEq] at ht
      subst ht
      rcases hobey.1 hr.1 with ⟨ht, _⟩ | ⟨_, _, ha, hdat, hlen⟩
      · have hw' : ext.type = .wo := hw.2
        rw [ht] at hw'
        cases hw'
      · refine ⟨ha.trans (h.proper p).target, ?_⟩
        subst hdat hlen
        exact datExt_extDat _

theorem Clients.answers_step (h : Clients T g s) (he : Effect s l u) :
    Items (fun m => Answers u.log m.pkt.ext m.origin)
      (fun _ m => Answers u.log m.pkt.ext m.origin)
      (fun _ e => e.ext.type.isAcknak = true ∧ Answers u.log e.ext e.origin) u := by
  have hl := he.log_prefix
  have hi : Items (fun m => Answers u.log m.pkt.ext m.origin)
      (fun _ m => Answers u.log m.pkt.ext m.origin)
      (fun _ e => e.ext.type.isAcknak = true ∧ Answers u.log e.ext e.origin) s :=
    h.answers.mono (fun m hm => hm.mono hl) (fun _ m hm => hm.mono hl)
      (fun _ e hm => ⟨hm.1, hm.2.mono hl⟩)
  refine hi.step he ?_ ?_ ?_ (fun _ m hm _ => hi.wire m hm)
    (fun p m hm ha => ⟨ha, hi.fdq p m hm⟩) ?_
  · intro p i ext dat len k _ ht _
    exact answers_of_request (h.correlated.threads p _ (List.mem_of_getElem? ht)).1
  · intro i m _ hm hlog r hr
    have hreq : IsRequest m.pkt.ext := CanType.isAcknak_of_ackable (isReply_of_mem_replies hr).1
    obtain ⟨hpkt, _, hdst⟩ := (h.correlated.items.wire m hm).of_request hreq
    have ha : Answers u.log r.ext m.origin := answers_reply hr hpkt hdst hlog
    exact ha
  · intro a x _ hd _
    exact answers_of_request (by rw [IsRequest, hd]; rfl)
  · intro p m hm pkt hr hext _ hc
    have hobj : m.pkt.ext.object = Canobj.consoleConnect := by
      rw [Msg.reply, hext] at hc
      exact hc
    exact absurd hobj (h.object_ne_of_readerAcks hr)

theorem Clients.step (h : Clients T g s) (hs : NetStep s l u) :
    ∃ g', Clients T g' u ∧ ∀ p, PhaseStep T s l p (g p) (g' p) := by
  have he := hs.effect h.correlated.flushed
  have hcfg := he.cfg
  choose g' t ht ho hp using h.main_step he
  refine ⟨g', ⟨h.correlated.step hs, ?_, h.console_step he, ?_, h.tasks_step he, ?_,
    h.answers_step he⟩, hp⟩
  · simpa only [hcfg] using h.proper
  · intro p
    rw [hcfg]
    exact ⟨t p, ht p, ho p⟩
  · simpa only [hcfg] using h.sent_step he

end MeikoCs2
