import MeikoCs2.ConnectPhases
import MeikoCs2.Disconnect
import Mathlib.Data.Fintype.Basic

/-! Agreement between a connecting cancon and its target. A cancon takes any
ACK for the CONSOLE_CONNECT object of its target as the answer to its own WO,
also one to an RO or to another process of its node. Where nothing of the kind
is under way while it waits, a cancon that connects has been accepted. -/

namespace MeikoCs2

variable {P : Type}

def IsWoOf (p : P) : Event P → Prop
  | .sent o => o.sender = some p ∧ IsConnect o.pkt
  | _ => False

def Accepts (T : Canhostname) (p : P) (c : CanHeaderExt) : Event P → Prop
  | .dispatched a m rmt rmt' => a = T ∧ IsConnect m.pkt ∧ m.origin.sender = some p ∧
    canconUnconnected rmt = true ∧ rmt' = c
  | _ => False

def Drops (T : Canhostname) : Event P → Prop
  | .dispatched a m rmt _ => a = T ∧ IsDisconn m.pkt ∧ canconUnconnected rmt = false
  | _ => False

/-- Who has connected was accepted, and between two that were there is a
disconnect. -/
structure Agreement (T : Canhostname) (s : Net P) : Prop where
  accepted : ∀ p, mainResult (s.procs p) = some 0 →
    ∃ e ∈ s.log, Accepts T p (s.procs p).cfg.consoleObject e
  exclusive : ∀ p q, p ≠ q → mainResult (s.procs p) = some 0 → mainResult (s.procs q) = some 0 →
    ∃ x d y, Drops T d ∧
      ((Accepts T p (s.procs p).cfg.consoleObject x ∧ Accepts T q (s.procs q).cfg.consoleObject y) ∨
      (Accepts T q (s.procs q).cfg.consoleObject x ∧ Accepts T p (s.procs p).cfg.consoleObject y)) ∧
      [x, d, y].Sublist s.log

def SentWo (s : Net P) (p : P) : Prop := ∃ e ∈ s.log, IsWoOf p e

def Awaiting (s : Net P) (p : P) : Prop := SentWo s p ∧ mainResult (s.procs p) = none

def OwnOrigin (s : Net P) (p : P) (o : Origin P) : Prop :=
  o.node = (s.procs p).home → IsConnReq o.pkt → o.sender = some p ∧ IsConnect o.pkt

def OwnPending (s : Net P) (p : P) : Prop :=
  (∀ m ∈ s.wire, OwnOrigin s p m.origin) ∧ (∀ m ∈ (s.procs p).fdq, OwnOrigin s p m.origin) ∧
    ∀ e ∈ (s.procs p).ackbuf, OwnOrigin s p e.origin

/-- A request for CONSOLE_CONNECT is sent while no other process of the node
waits for the answer to its WO, and a WO while nothing else is pending. -/
def PoliteSend (s : Net P) (p : P) (pkt : CanPacket) : Prop :=
  IsConnReq pkt →
    (∀ q, q ≠ p → (s.procs q).home = (s.procs p).home → ¬ Awaiting s q) ∧
    (IsConnect pkt → OwnPending s p)

def Polite (s : Net P) : Label P → Prop
  | .run p i => ∀ pkt ∈ nextSend s p i, PoliteSend s p pkt
  | _ => True

def IsAccept (T : Canhostname) : Event P → Prop
  | .dispatched a m rmt _ => a = T ∧ IsConnect m.pkt ∧ canconUnconnected rmt = true
  | _ => False

theorem Accepts.isAccept {T : Canhostname} {p : P} {c : CanHeaderExt} {e : Event P}
    (h : Accepts T p c e) : IsAccept T e := by
  cases e with
  | dispatched a m rmt rmt' => exact ⟨h.1, h.2.1, h.2.2.2.1⟩
  | _ => exact absurd h id

theorem Accepts.unique {T : Canhostname} {p q : P} {c d : CanHeaderExt} {e : Event P}
    (h : Accepts T p c e) (h' : Accepts T q d e) : p = q := by
  cases e with
  | dispatched a m rmt rmt' => exact Option.some.inj (h.2.2.1.symm.trans h'.2.2.1)
  | _ => exact absurd h id

theorem SentWo.mono {s u : Net P} {p : P} (h : SentWo s p) (hl : s.log <+: u.log) : SentWo u p := by
  obtain ⟨e, he, hw⟩ := h
  exact ⟨e, hl.subset he, hw⟩

theorem nextSend_some {s : Net P} {p : P} {i : Nat} {pkt : CanPacket}
    (h : nextSend s p i = some pkt) :
    ∃ ext dat len k, (s.procs p).threads[i]? = some (.op (.canSend ext dat len) k) ∧
      pkt = sentPkt s p ext dat len := by
  unfold nextSend at h
  split at h
  · rename_i ht
    exact ⟨_, _, _, _, ht, (Option.some.inj h).symm⟩
  · cases h

/-- What holds along polite runs, in the phases `g`. -/
structure Agrees (T : Canhostname) (g : P → Phase) (s : Net P) : Prop where
  clients : Clients T g s
  sentWo : ∀ p, SentWo s p ↔ g p ≠ .looking
  pending : ∀ p, Awaiting s p → OwnPending s p
  accepted : ∀ p, g p = .connected → ∃ e ∈ s.log, Accepts T p (s.procs p).cfg.consoleObject e
  alternates : Alternates (IsAccept T) (Drops T) s.log (canconUnconnected (s.nodes T).canconRmt)

theorem Agrees.agreement {T : Canhostname} {g : P → Phase} {s : Net P} (h : Agrees T g s) :
    Agreement T s := by
  have hacc : ∀ p, mainResult (s.procs p) = some 0 →
      ∃ e ∈ s.log, Accepts T p (s.procs p).cfg.consoleObject e := fun p hr => by
    rcases h.clients.phase_of_mainResult hr with ⟨_, hg⟩ | ⟨hr, _⟩
    · exact h.accepted p hg
    · exact absurd hr (by decide)
  refine ⟨hacc, fun p q hne hp hq => ?_⟩
  obtain ⟨x, hx, hax⟩ := hacc p hp
  obtain ⟨y, hy, hay⟩ := hacc q hq
  have hxy : x ≠ y := by
    rintro rfl
    exact hne (hax.unique hay)
  rcases pair_sublist_or hx hy hxy with hs | hs
  · obtain ⟨d, hd, hs⟩ := h.alternates.between x y hax.isAccept hay.isAccept hs
    exact ⟨x, d, y, hd, .inl ⟨hax, hay⟩, hs⟩
  · obtain ⟨d, hd, hs⟩ := h.alternates.between y x hay.isAccept hax.isAccept hs
    exact ⟨y, d, x, hd, .inr ⟨hay, hax⟩, hs⟩

theorem Connecting.agrees {T : Canhostname} {s : Net P} (h : Connecting T s) :
    Agrees T (fun _ => .looking) s := by
  have hs : ∀ p, ¬ SentWo s p := fun p hs => by
    obtain ⟨e, he, _⟩ := hs
    rw [h.log] at he
    cases he
  refine ⟨h.clients, fun p => ?_, fun p ha => absurd ha.1 (hs p), fun p hg => ?_, ?_⟩
  · exact iff_of_false (hs p) fun hn => hn rfl
  · cases hg
  · rw [h.log]
    exact .nil _

variable [DecidableEq P] {T : Canhostname} {g : P → Phase} {s u : Net P} {l : Label P}

theorem Agrees.alternates_step (h : Agrees T g s) (he : Effect s l u) :
    Alternates (IsAccept T) (Drops T) u.log (canconUnconnected (u.nodes T).canconRmt) := by
  have hnot : ∀ {es : List (Event P)}, (∀ e ∈ es, ∀ a m r r', e ≠ .dispatched a m r r') →
      ∀ e ∈ es, ¬ IsAccept T e := fun hes e hmem ha => by
    cases e with
    | dispatched a m r r' => exact hes _ hmem a m r r' rfl
    | _ => exact absurd ha id
  rcases he.dispatch_cases with ⟨es, hl, hes, hrmt⟩ | ⟨i, m, es, _, hm, hl, hes, hrmt⟩
  · rw [hl, hrmt]
    exact h.alternates.skips (hnot hes)
  · rw [hl, hrmt, List.append_cons]
    refine Alternates.skips ?_ (hnot hes)
    have hskip := fun e => @Alternates.skip _ _ _ _ e _ h.alternates
    split_ifs with ht
    · subst ht
      unfold nextRmt
      split_ifs with hc hu hd hu
      · -- accepted: what is recorded is the object of a cancon
        have htr := h.clients.correlated.items.wire m (List.mem_of_getElem? hm)
        have hreq : IsRequest m.pkt.ext := by
          rw [IsRequest, hc.2]
          rfl
        obtain ⟨hpkt, _, _⟩ := htr.of_request hreq
        rw [hpkt] at hc
        obtain ⟨p, hp⟩ := h.clients.sent m.origin htr.sent hc.isConnReq
        rw [hpkt, (hp.write hc).2, canconUnconnected_consoleObject]
        have ha := h.alternates
        rw [hu] at ha
        exact ha.take
      · exact hskip _ fun ha => hu ha.2.2
      · exact hskip _ fun ha => hc ha.2.1
      · refine h.alternates.release ⟨rfl, hd, by simpa using hu⟩ fun ha => hc ha.2.1
      · exact hskip _ fun ha => hc ha.2.1
    · exact hskip _ fun ha => ht ha.1.symm

theorem sentWo_cases (he : Effect s l u) {p : P} (h : SentWo u p) :
    SentWo s p ∨ ∃ i pkt, l = .run p i ∧ nextSend s p i = some pkt ∧ IsConnect pkt := by
  obtain ⟨e, hmem, hw⟩ := h
  cases e with
  | sent o =>
    rcases he.sent_cases hmem with ho | ⟨hn, _⟩ | ⟨q, i, ext, dat, len, k, hl, ht, rfl⟩
    · exact .inl ⟨_, ho, hw⟩
    · rw [hw.1] at hn
      cases hn
    · obtain rfl : q = p := Option.some.inj hw.1
      exact .inr ⟨i, _, hl, nextSend_eq ht, hw.2⟩
  | _ => exact absurd hw id

theorem Agrees.sentWo_step (h : Agrees T g s) (he : Effect s l u) {p : P} {g' : Phase}
    (hp : PhaseStep T s l p (g p) g') : SentWo u p ↔ g' ≠ .looking := by
  have hmono : g p ≠ .looking → SentWo u p := fun hg => ((h.sentWo p).mpr hg).mono he.log_prefix
  generalize hgp : g p = gp at hp hmono
  cases hp with
  | quiet hq _ =>
    refine ⟨fun hs => ?_, hmono⟩
    rcases sentWo_cases he hs with hs | ⟨i, pkt, hl, hn, hw⟩
    · rw [← hgp]
      exact (h.sentWo p).mp hs
    · have ht := (hq i hl pkt hn hw.isConnReq).2
      rw [hw.2] at ht
      cases ht
  | write hl _ hs hw =>
    subst hl
    obtain ⟨ext, dat, len, k, ht, rfl⟩ := nextSend_some hs
    exact iff_of_true ⟨_, he.sent_mem ht, rfl, hw⟩ (by decide)
  | answer _ _ _ _ => exact iff_of_true (hmono (by decide)) (by split_ifs <;> decide)
  | timeout _ _ _ _ => exact iff_of_true (hmono (by decide)) (by decide)

/-- While `p` waits, and from the moment it sends its WO, only its own is
pending. -/
theorem Agrees.pending_step (h : Agrees T g s) (he : Effect s l u) (hpol : Polite s l) {p : P}
    {g' : Phase} (hp : PhaseStep T s l p (g p) g') (ha : Awaiting u p) : OwnPending u p := by
  have hnone : mainResult (s.procs p) = none := by
    by_contra hn
    obtain ⟨r, hr⟩ := Option.ne_none_iff_exists'.mp hn
    have := mainResult_step he hr
    rw [ha.2] at this
    cases this
  have hown : OwnPending s p := by
    rcases sentWo_cases he ha.1 with hs | ⟨i, pkt, rfl, hn, hw⟩
    · exact h.pending p ⟨hs, hnone⟩
    · exact (hpol pkt hn hw.isConnReq).2 hw
  have hsend : ∀ q i ext dat len k, l = .run q i →
      (s.procs q).threads[i]? = some (.op (.canSend ext dat len) k) →
      OwnOrigin s p (sentBy s q ext dat len) := fun q i ext dat len k hl ht hnode hreq => by
    have hn := nextSend_eq ht
    subst hl
    rcases eq_or_ne q p with rfl | hne
    · refine ⟨rfl, ?_⟩
      have hg' := (h.sentWo_step he hp).mp ha.1
      generalize g q = gp at hp
      cases hp with
      | quiet hq _ => exact absurd (hq i rfl _ hn hreq).1 hg'
      | write hl _ hs hw =>
        rw [← (Label.run.inj hl).2, hn, Option.some.injEq] at hs
        rw [← hs] at hw
        exact hw
      | answer hl _ _ _ => cases hl
      | timeout hl _ _ _ => cases hl
    · -- another process of the node does not send while `p` waits
      refine absurd ⟨?_, hnone⟩ ((hpol _ hn hreq).1 p hne.symm hnode.symm)
      rcases sentWo_cases he ha.1 with hs | ⟨j, _, hl, _⟩
      · exact hs
      · exact absurd (Label.run.inj hl).1 hne
  have hi : Items (fun m => OwnOrigin s p m.origin) (fun q m => q = p → OwnOrigin s p m.origin)
      (fun q e => q = p → OwnOrigin s p e.origin) s :=
    ⟨hown.1, fun q m hm hq => hown.2.1 m (hq ▸ hm), fun q e hm hq => hown.2.2 e (hq ▸ hm)⟩
  have hu := hi.step he (fun q i ext dat len k hl ht _ => hsend q i ext dat len k hl ht)
    (fun _ m _ hm _ r _ => hown.1 m hm) ?_ (fun _ m hm _ _ => hown.1 m hm)
    (fun q m hm _ hq => hown.2.1 m (hq ▸ hm)) ?_
  · simp only [OwnPending, OwnOrigin, he.home]
    exact ⟨hu.wire, fun m hm => hu.fdq p m hm rfl, fun e hm => hu.ackbuf p e hm rfl⟩
  · intro a x ho hd _ _ hreq
    rw [ho.pkt] at hreq
    rcases hreq.2 with ht | ht <;> rw [hd] at ht <;> cases ht
  · intro q m hm pkt hr _ _ hreq
    have hno : ¬ IsConnReq m.origin.pkt := h.clients.not_connReq_of_readerAcks hm hr
    exact absurd hreq hno

theorem Agrees.accepted_step (h : Agrees T g s) (he : Effect s l u) {p : P} {g' : Phase}
    (hp : PhaseStep T s l p (g p) g') (hg' : g' = .connected) :
    ∃ e ∈ u.log, Accepts T p (s.procs p).cfg.consoleObject e := by
  have hl := he.log_prefix
  generalize hgp : g p = gp at hp
  cases hp with
  | quiet _ _ =>
    obtain ⟨e, hmem, ha⟩ := h.accepted p (hgp.trans hg')
    exact ⟨e, hl.subset hmem, ha⟩
  | write _ _ _ _ => cases hg'
  | timeout _ _ _ _ => cases hg'
  | @answer target _ e hlab ho _ hscan =>
    have hack : e.ext.type = .ack := by
      split_ifs at hg' with hack
      exact hack
    obtain ⟨hmem, hours⟩ := mem_of_scanAckbuf hscan
    have hobj : e.ext.object = Canobj.consoleConnect := by
      rw [((isOurAcknak_iff _ _).mp hours).1, ho]
    obtain ⟨hreq, _, hacc⟩ := (h.clients.answers.ackbuf p e hmem).2 (by rw [hack]; rfl) hobj
    have hasked := h.clients.correlated.items.ackbuf p e hmem
    have hwait : Awaiting s p := by
      refine ⟨(h.sentWo p).mpr (by rw [hgp]; decide), ?_⟩
      by_contra hn
      obtain ⟨r, hr⟩ := Option.ne_none_iff_exists'.mp hn
      have hpost := h.clients.phase_of_mainResult hr
      rw [hgp] at hpost
      rcases hpost with ⟨_, hw⟩ | ⟨_, hw | hw⟩ <;> cases hw
    obtain ⟨hsender, hw⟩ := (h.pending p hwait).2.2 e hmem hasked.node hreq
    obtain ⟨m, rmt, hd, hm, hpkt, hu⟩ := hacc hack hw
    obtain ⟨q, hq⟩ := h.clients.sent e.origin hasked.sent hreq
    obtain rfl : q = p := Option.some.inj (hq.sender.symm.trans hsender)
    refine ⟨_, hl.subset hd, (hq.write hw).1, hpkt ▸ hw, ?_, hu, (hq.write hw).2⟩
    rw [hm, hsender]

theorem Agrees.step (h : Agrees T g s) (hs : NetStep s l u) (hpol : Polite s l) :
    ∃ g', Agrees T g' u := by
  have he := hs.effect h.clients.correlated.flushed
  obtain ⟨g', hc, hp⟩ := h.clients.step hs
  refine ⟨g', hc, fun p => h.sentWo_step he (hp p), fun p => h.pending_step he hpol (hp p),
    fun p hg => ?_, h.alternates_step he⟩
  rw [he.cfg]
  exact h.accepted_step he (hp p) hg

/-- In every run in which requests for CONSOLE_CONNECT are sent politely, a
cancon whose `connect_protocol` returns 0 has been accepted with its own
console object, and between two that have there is a disconnect. Packets may
be lost, and -f may be used. -/
theorem connect_agreement {s₀ : Net P} {tr : List (Net P × Label P)} (h₀ : Connecting T s₀)
    (h : Run NetStep s₀ tr s) (hpol : ∀ x ∈ tr, Polite x.1 x.2) : Agreement T s := by
  have hinv : ∃ g, Agrees T g s := by
    refine @Run.invariant_of _ _ _ _ _ _ (fun s => ∃ g, Agrees T g s) _ h ⟨_, h₀.agrees⟩ ?_ hpol
    rintro t l v ⟨g, hg⟩ hok hst
    exact hg.step hst hok
  obtain ⟨g, hg⟩ := hinv
  exact hg.agreement

section Decidable

instance (p : P) (e : Event P) : Decidable (IsWoOf p e) :=
  match e with
  | .sent _ => inferInstanceAs (Decidable (_ ∧ _))
  | .dispatched _ _ _ _ | .returned _ _ _ _ => isFalse id

instance (T : Canhostname) (p : P) (c : CanHeaderExt) (e : Event P) : Decidable (Accepts T p c e) :=
  match e with
  | .dispatched _ _ _ _ => inferInstanceAs (Decidable (_ ∧ _))
  | .sent _ | .returned _ _ _ _ => isFalse id

instance (T : Canhostname) (e : Event P) : Decidable (Drops T e) :=
  match e with
  | .dispatched _ _ _ _ => inferInstanceAs (Decidable (_ ∧ _))
  | .sent _ | .returned _ _ _ _ => isFalse id

instance (s : Net P) (p : P) : Decidable (Awaiting s p) :=
  inferInstanceAs (Decidable ((∃ e ∈ s.log, IsWoOf p e) ∧ _))

instance (s : Net P) (p : P) (o : Origin P) : Decidable (OwnOrigin s p o) :=
  inferInstanceAs (Decidable (_ → _ → _ ∧ _))

instance (s : Net P) (p : P) : Decidable (OwnPending s p) := inferInstanceAs (Decidable (_ ∧ _ ∧ _))

instance [Fintype P] (s : Net P) (p : P) (pkt : CanPacket) : Decidable (PoliteSend s p pkt) :=
  inferInstanceAs (Decidable (_ → _ ∧ _))

instance [Fintype P] (s : Net P) (l : Label P) : Decidable (Polite s l) :=
  match l with
  | .run _ _ => inferInstanceAs (Decidable (∀ pkt ∈ nextSend _ _ _, PoliteSend _ _ pkt))
  | .scan _ _ _ | .recvAck _ _ | .interrupt _ _ | .read _ | .deliver _ | .lose _ | .overflow _
  | .spawn _ _ | .printk _ _ | .ackTimeout _ => isTrue trivial

end Decidable

def rivals : Net Bool :=
  Net.boot fun b => .boot (clientConfig b) (connectProtocol (clientConfig b))

theorem rivals_connecting : Connecting ⟨0, 0, 1⟩ rivals where
  flushed _ := rfl
  wire := rfl
  log := rfl
  boot _ := rfl
  proper b := ⟨rfl, by cases b <;> decide, by cases b <;> decide⟩

def turnsRun : List (Label Bool) :=
  connectRun false 0 ++ [.spawn false .disconnect, .run false 1, .run false 1, .deliver 0, .deliver 0,
    .read true, .read true, .read true] ++ connectRun true 0

theorem connect_agreement_turns :
    ∃ tr s, Run NetStep rivals tr s ∧ (∀ b, mainResult (s.procs b) = some 0) ∧
      Agreement ⟨0, 0, 1⟩ s := by
  obtain ⟨tr, s, hr, -, hok, hg⟩ := exists_run rivals (fun s l => decide (Polite s l)) turnsRun
    (fun s => decide (∀ b, mainResult (s.procs b) = some 0)) (by decide +kernel)
  refine ⟨tr, s, hr, by simpa using hg, ?_⟩
  exact connect_agreement rivals_connecting hr fun x hx => by simpa using hok x hx

def rivalsRun : List (Label Bool) :=
  [.run false 0, .deliver 0, .deliver 0, .read false, .scan false 0 false,
    .run true 0, .deliver 0, .deliver 0, .read true, .read true, .scan true 0 false,
    .run false 0, .run false 0, .run true 0, .run true 0, .deliver 0, .deliver 1,
    .read false, .read false, .scan false 0 false, .read true, .scan true 0 false, .deliver 0]

/-- Both connect without -f, nothing is lost, and only one was accepted. -/
theorem both_connect :
    ∃ tr s, Run NetStep rivals tr s ∧ tr.map Prod.snd = rivalsRun ∧
      (∀ b, mainResult (s.procs b) = some 0) ∧ (∀ e ∈ s.log, ¬ Drops ⟨0, 0, 1⟩ e) ∧
      ¬ Agreement ⟨0, 0, 1⟩ s := by
  obtain ⟨tr, s, hr, hl, -, hg⟩ := exists_run rivals (fun _ _ => true) rivalsRun
    (fun s => decide ((∀ b, mainResult (s.procs b) = some 0) ∧
      (∀ e ∈ s.log, ¬ Drops ⟨0, 0, 1⟩ e) ∧
      ¬ ∃ e ∈ s.log, Accepts ⟨0, 0, 1⟩ true (s.procs true).cfg.consoleObject e)) (by decide +kernel)
  obtain ⟨h₁, h₂, h₃⟩ := of_decide_eq_true hg
  exact ⟨tr, s, hr, hl, h₁, h₂, fun ha => h₃ (ha.accepted true (h₁ true))⟩

end MeikoCs2
