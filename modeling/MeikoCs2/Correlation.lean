import MeikoCs2.Effects
import MeikoCs2.Protocols

/-! Where the replies come from that a client is given. A reply carries no more
than address and object of the request, and goes to every open file of the
node that asked. So what a client is given answers a request of its node for
the same object of the same target, but not always its own. -/

namespace MeikoCs2

def IsRequest (ext : CanHeaderExt) : Prop := ext.type.isAcknak = false

def IsRequestOp : CanOp → Prop
  | .canSend ext _ _ => IsRequest ext
  | _ => True

theorem IsTaskOp.isRequestOp {c : Config} {o : CanOp} (h : IsTaskOp c o) : IsRequestOp o := by
  cases o with
  | canSend ext dat len => rcases h.1 with ht | ht <;> simp [IsRequestOp, IsRequest, ht, CanType.isAcknak]
  | _ => trivial

theorem opsOnly_connectProtocol (c : Config) : OpsOnly IsRequestOp (connectProtocol c) := by
  refine obeys_connectProtocol c (fun {α t} ht => ?_) ?_ trivial
  · have hreq : OpsOnly IsRequestOp t := ht.weaken fun o ho => by
      cases o with
      | canSend ext dat len =>
        rcases ho with ho | ho <;> simp [IsRequestOp, IsRequest, ho.1, CanType.isAcknak]
      | _ => trivial
    exact hreq.mono fun _ _ _ => rfl
  · have hset : OpsOnly IsRequestOp (setConsoleObject c.consoleObject) := ⟨trivial, fun _ => trivial⟩
    refine OpsOnly.bind hset fun _ => OpsOnly.bind
      (OpsOnly.bind (opsOnly_mysend ?_ (fun _ => trivial) _ _) fun _ => trivial) fun r => ?_
    · exact (rfl : CanType.isAcknak .wo = false)
    · split_ifs <;> trivial

variable {P : Type}

/-- A request was transmitted from node `a` for the object that `ext` names. -/
structure Asked (log : List (Event P)) (a : Canhostname) (ext : CanHeaderExt) (o : Origin P) :
    Prop where
  sent : .sent o ∈ log
  node : o.node = a
  object : isOurAcknak o.pkt.ext ext = true
  request : IsRequest o.pkt.ext

theorem Asked.mono {log log' : List (Event P)} {a : Canhostname} {ext : CanHeaderExt}
    {o : Origin P} (h : Asked log a ext o) (hl : log <+: log') : Asked log' a ext o :=
  { h with sent := hl.subset h.sent }

theorem Asked.congr {log : List (Event P)} {a : Canhostname} {ext ext' : CanHeaderExt}
    {o : Origin P} (h : Asked log a ext o) (he : isOurAcknak ext ext' = true) :
    Asked log a ext' o := by
  have h₁ := (isOurAcknak_iff _ _).mp h.object
  have h₂ := (isOurAcknak_iff _ _).mp he
  exact { h with object := (isOurAcknak_iff _ _).mpr ⟨h₁.1.trans h₂.1, h₁.2.trans h₂.2⟩ }

/-- A packet is the request it originates from, on the way to the node that it
names, or a reply on the way back. -/
structure Tracks (log : List (Event P)) (m : Msg P) : Prop where
  sent : .sent m.origin ∈ log
  request : IsRequest m.origin.pkt.ext
  way : (m.pkt = m.origin.pkt ∧ m.src = m.origin.node ∧ m.dst = m.origin.pkt.ext.addr) ∨
    (m.pkt.ext.type.isAcknak = true ∧ m.src = m.origin.pkt.ext.addr ∧ m.dst = m.origin.node ∧
      isOurAcknak m.origin.pkt.ext m.pkt.ext = true)

theorem Tracks.mono {log log' : List (Event P)} {m : Msg P} (h : Tracks log m)
    (hl : log <+: log') : Tracks log' m := { h with sent := hl.subset h.sent }

theorem Tracks.of_request {log : List (Event P)} {m : Msg P} (h : Tracks log m)
    (hr : IsRequest m.pkt.ext) :
    m.pkt = m.origin.pkt ∧ m.src = m.origin.node ∧ m.dst = m.origin.pkt.ext.addr := by
  rcases h.way with hw | hw
  · exact hw
  · rw [IsRequest, hw.1] at hr
    cases hr

theorem Tracks.of_acknak {log : List (Event P)} {m : Msg P} (h : Tracks log m)
    (ha : m.pkt.ext.type.isAcknak = true) :
    m.src = m.origin.pkt.ext.addr ∧ m.dst = m.origin.node ∧
      isOurAcknak m.origin.pkt.ext m.pkt.ext = true := by
  rcases h.way with hw | hw
  · have hr := h.request
    rw [IsRequest, ← hw.1, ha] at hr
    cases hr
  · exact hw.2

theorem Tracks.reply {log : List (Event P)} {m : Msg P} (h : Tracks log m)
    (hr : IsRequest m.pkt.ext) {r : CanPacket} (ha : r.ext.type.isAcknak = true)
    (he : isOurAcknak m.pkt.ext r.ext = true) : Tracks log (m.reply r) := by
  obtain ⟨h₁, h₂, h₃⟩ := h.of_request hr
  rw [h₁] at he
  exact ⟨h.sent, h.request, .inr ⟨ha, h₃, h₂, he⟩⟩

/-- All packets are tracked, and every reply that was returned answers a
request that had been transmitted by then. -/
structure Correlated (s : Net P) : Prop where
  flushed : Flushed s
  items : Items (Tracks s.log) (fun p m => Tracks s.log m ∧ m.dst = (s.procs p).home)
    (fun p e => Asked s.log (s.procs p).home e.ext e.origin) s
  threads : ∀ p, ∀ t ∈ (s.procs p).threads, OpsOnly IsRequestOp t
  returned : ∀ pre p t ty o post, s.log = pre ++ .returned p t ty o :: post →
    Asked pre (s.procs p).home t o

structure Starts (s : Net P) : Prop where
  flushed : Flushed s
  wire : s.wire = []
  log : s.log = []
  fdq : ∀ p, (s.procs p).fdq = []
  ackbuf : ∀ p, (s.procs p).ackbuf = []
  threads : ∀ p, ∀ t ∈ (s.procs p).threads, OpsOnly IsRequestOp t

theorem Starts.items {s : Net P} (h : Starts s) (W : Msg P → Prop) (F : P → Msg P → Prop)
    (B : P → AckPkt P → Prop) : Items W F B s where
  wire m hm := by
    rw [h.wire] at hm
    cases hm
  fdq p m hm := by
    rw [h.fdq] at hm
    cases hm
  ackbuf p e he := by
    rw [h.ackbuf] at he
    cases he

theorem Starts.correlated {s : Net P} (h : Starts s) : Correlated s where
  flushed := h.flushed
  items := h.items _ _ _
  threads := h.threads
  returned pre p t ty o post hl := by
    rw [h.log] at hl
    exact absurd hl.symm (by simp)

theorem starts_boot {c : P → Config} {main : P → CanProg Int}
    (h : ∀ p, OpsOnly IsRequestOp (main p)) : Starts (Net.boot fun p => .boot (c p) (main p)) where
  flushed _ := rfl
  wire := rfl
  log := rfl
  fdq _ := rfl
  ackbuf _ := rfl
  threads p t ht := by
    rw [List.mem_singleton.mp ht]
    exact h p

variable [DecidableEq P] {s u : Net P} {l : Label P}

theorem Correlated.items_step (hc : Correlated s) (h : Effect s l u) :
    Items (Tracks u.log) (fun p m => Tracks u.log m ∧ m.dst = (s.procs p).home)
      (fun p e => Asked u.log (s.procs p).home e.ext e.origin) u := by
  have hl := h.log_prefix
  have hi : Items (Tracks u.log) (fun p m => Tracks u.log m ∧ m.dst = (s.procs p).home)
      (fun p e => Asked u.log (s.procs p).home e.ext e.origin) s :=
    hc.items.mono (fun m hm => hm.mono hl) (fun p m hm => ⟨hm.1.mono hl, hm.2⟩)
      (fun p e he => he.mono hl)
  refine hi.step h ?_ ?_ ?_ ?_ ?_ ?_
  · intro p i ext dat len k _ ht hs
    exact ⟨hs, (hc.threads p _ (List.mem_of_getElem? ht)).1, .inl ⟨rfl, rfl, rfl⟩⟩
  · intro i m _ hm _ r hr
    obtain ⟨ha, t, d, ht, rfl⟩ := isReply_of_mem_replies hr
    have hreq : IsRequest m.pkt.ext := CanType.isAcknak_of_ackable ha
    refine (hi.wire m hm).reply hreq ht ?_
    exact (isOurAcknak_iff _ _).mpr ⟨rfl, rfl⟩
  · intro a x ho hd hs
    have hr : IsRequest x.origin.pkt.ext := by
      rw [ho.pkt, IsRequest, hd]
      rfl
    exact ⟨hs, hr, .inl ⟨ho.pkt.symm, ho.src.trans ho.node.symm, by rw [ho.pkt]; exact ho.dst⟩⟩
  · exact fun p m hm hd => ⟨hi.wire m hm, hd.symm⟩
  · intro p m hf ha
    have hm := hi.fdq p m hf
    obtain ⟨_, h₂, h₃⟩ := hm.1.of_acknak ha
    exact ⟨hm.1.sent, h₂.symm.trans hm.2, h₃, hm.1.request⟩
  · intro p m hf pkt hr he
    have hm := hi.fdq p m hf
    have hreq : IsRequest m.pkt.ext := by
      rcases hr with hr | hr <;> rw [IsRequest, hr.1] <;> rfl
    exact hm.1.reply hreq (by rw [he]; rfl) ((isOurAcknak_iff _ _).mpr (by rw [he]; exact ⟨rfl, rfl⟩))

theorem Correlated.returned_step (hc : Correlated s) (h : Effect s l u) :
    ∀ pre p t ty o post, u.log = pre ++ .returned p t ty o :: post →
      Asked pre (s.procs p).home t o := by
  intro pre p t ty o post hl
  rcases h.log_cases with ⟨es, hu, hn⟩ | ⟨q, t', e, hu, hm, hfrom⟩
  · rw [hu] at hl
    rcases append_eq_append_cons hl with ⟨as, _, he⟩ | ⟨bs, hs, _⟩
    · exact absurd rfl (hn (.returned p t ty o) (by rw [he]; simp) p t ty o)
    · exact hc.returned pre p t ty o bs hs
  · rw [hu] at hl
    rcases append_eq_append_cons hl with ⟨as, hp, he⟩ | ⟨bs, hs, _⟩
    · -- the reply returned now, taken from the buffer or from the ring
      have has : as = [] := by
        cases as with
        | nil => rfl
        | cons a as => simp at he
      subst has
      simp only [List.nil_append, List.cons.injEq, Event.returned.injEq] at he
      obtain ⟨⟨rfl, rfl, rfl, rfl⟩, _⟩ := he
      rw [hp, List.append_nil]
      rcases hfrom with hb | ⟨m, hf, ha, rfl⟩
      · exact (hc.items.ackbuf q e hb).congr hm
      · obtain ⟨ht, hd⟩ := hc.items.fdq q m hf
        obtain ⟨_, h₂, h₃⟩ := ht.of_acknak ha
        exact Asked.congr ⟨ht.sent, h₂.symm.trans hd, h₃, ht.request⟩ hm
    · exact hc.returned pre p t ty o bs hs

theorem Correlated.step (hc : Correlated s) (h : NetStep s l u) : Correlated u := by
  have he := h.effect hc.flushed
  have hh : ∀ p, (u.procs p).home = (s.procs p).home := he.home
  refine ⟨he.flushed hc.flushed, ?_, ?_, fun pre p t ty o post hl => ?_⟩
  · simpa only [hh] using hc.items_step he
  · exact he.forall_threads hc.threads (fun _ _ _ r ht => ht.2 r)
      fun p t => opsOnly_task _ (fun _ => IsTaskOp.isRequestOp) t
  · rw [hh]
    exact hc.returned_step he pre p t ty o post hl

/-- Whatever clients do, wherever packets are lost or delayed: a reply that
`waitfor_acknak` or `can_recv_ack` returns answers a request that had been
transmitted from the same node, for the same object of the same target. -/
theorem reply_correlated {s₀ s : Net P} {tr : List (Net P × Label P)} (h₀ : Starts s₀)
    (h : Run NetStep s₀ tr s) (pre post : List (Event P)) (p : P) (t : CanHeaderExt) (ty : CanType)
    (o : Origin P) (hl : s.log = pre ++ .returned p t ty o :: post) :
    .sent o ∈ pre ∧ o.node = (s.procs p).home ∧ o.pkt.ext.object = t.object ∧
      o.pkt.ext.addr = t.addr := by
  have hc : Correlated s := h.invariant h₀.correlated fun _ _ _ hp hs => hp.step hs
  have ha := hc.returned pre p t ty o post hl
  obtain ⟨h₁, h₂⟩ := (isOurAcknak_iff _ _).mp ha.object
  exact ⟨ha.sent, ha.node, h₁, h₂⟩

def clientConfig (b : Bool) : Config where
  fopt := false
  targetCh := ⟨0, 0, 1⟩
  nodeid := packNodeid ⟨0, 0, 2⟩
  consobj := if b then 0x101 else 0x100
  resetobj := 0x11
  stack := default

def testrwClients : Net Bool :=
  Net.boot fun b => .boot (clientConfig b) do
    let _ ← mysend ⟨0, .ro, 0, 0, 1, Canobj.testrw⟩ none 0 0 1
    pure 0

/-- The second client's request is answered first, and the first client takes
the answer for its own. -/
def foreignRun : List (Label Bool) :=
  [.run true 0, .run false 0, .deliver 0, .deliver 1, .read false, .scan false 0 false]

theorem testrwClients_starts : Starts testrwClients :=
  starts_boot fun _ => OpsOnly.bind
    (opsOnly_mysend (show IsRequest ⟨0, .ro, 0, 0, 1, Canobj.testrw⟩ from rfl) (fun _ => trivial) _ _)
    fun _ => trivial

/-- What correlation by request would give: a returned reply answers a request
of the client itself. -/
def OwnReply : Event P → Prop
  | .returned p _ _ o => o.sender = some p
  | _ => True

instance (e : Event P) : Decidable (OwnReply e) :=
  match e with
  | .returned _ _ _ _ => inferInstanceAs (Decidable (_ = _))
  | .sent _ | .dispatched _ _ _ _ => isTrue trivial

theorem reply_correlated_testrw :
    ∃ tr s p t ty o pre, Run NetStep testrwClients tr s ∧ s.log = pre ++ [.returned p t ty o] ∧
      .sent o ∈ pre ∧ o.node = (s.procs p).home := by
  obtain ⟨tr, s, hr, -, -, hg⟩ := exists_run testrwClients (fun _ _ => true) foreignRun
    (fun s => s.log.getLast?.any fun e => decide (¬ OwnReply e)) (by decide +kernel)
  obtain ⟨e, he, hn⟩ := (Option.any_eq_true _ _).mp hg
  obtain ⟨pre, hl⟩ := List.getLast?_eq_some_iff.mp he
  cases e with
  | sent o => simp [OwnReply] at hn
  | dispatched a m rmt rmt' => simp [OwnReply] at hn
  | returned p t ty o =>
    obtain ⟨h₁, h₂, -⟩ := reply_correlated testrwClients_starts hr pre [] p t ty o hl
    exact ⟨tr, s, p, t, ty, o, _, hr, hl, h₁, h₂⟩

theorem foreign_reply_returned :
    ∃ tr s, Run NetStep testrwClients tr s ∧ tr.map Prod.snd = foreignRun ∧
      ¬ ∀ e ∈ s.log, OwnReply e := by
  obtain ⟨tr, s, hr, hl, -, hg⟩ := exists_run testrwClients (fun _ _ => true) foreignRun
    (fun s => decide (¬ ∀ e ∈ s.log, OwnReply e)) (by decide +kernel)
  exact ⟨tr, s, hr, hl, by simpa using hg⟩

end MeikoCs2
