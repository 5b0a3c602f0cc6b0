import MeikoCs2.Correlation

/-! Whose session a disconnect ends. `canobj_disconnect` does not look at the
payload of the request, so a CONSOLE_DISCONN that is still in flight when the
next console connects drops that one. -/

namespace MeikoCs2

variable {P : Type}

/-- A dispatched CONSOLE_DISCONN found no console, or the one it names. -/
def OwnDisconnect : Event P → Prop
  | .dispatched _ m rmt _ =>
    IsDisconn m.pkt → canconUnconnected rmt = false → datExt m.pkt.dat = rmt
  | _ => True

instance (e : Event P) : Decidable (OwnDisconnect e) :=
  match e with
  | .dispatched _ _ _ _ => inferInstanceAs (Decidable (_ → _))
  | .sent _ | .returned _ _ _ _ => isTrue trivial

def OwnDisconnects (s : Net P) : Prop := ∀ e ∈ s.log, OwnDisconnect e

instance (s : Net P) : Decidable (OwnDisconnects s) :=
  inferInstanceAs (Decidable (∀ e ∈ s.log, OwnDisconnect e))

/-- A CONSOLE_DISCONN is transmitted while its target has no console or the
one it names. -/
def SentTimely (s : Net P) (pkt : CanPacket) : Prop :=
  IsDisconn pkt → canconUnconnected (s.nodes pkt.ext.addr).canconRmt = true ∨
    datExt pkt.dat = (s.nodes pkt.ext.addr).canconRmt

/-- A CONSOLE_CONNECT is accepted while every CONSOLE_DISCONN in flight to the
node names the same console. -/
def AcceptedTimely (s : Net P) (m : Msg P) : Prop :=
  IsConnect m.pkt → canconUnconnected (s.nodes m.dst).canconRmt = true →
    ∀ d ∈ s.wire, IsDisconn d.pkt → d.dst = m.dst → d.pkt.dat = m.pkt.dat

instance (s : Net P) (pkt : CanPacket) : Decidable (SentTimely s pkt) :=
  inferInstanceAs (Decidable (_ → _))

instance (s : Net P) (m : Msg P) : Decidable (AcceptedTimely s m) :=
  inferInstanceAs (Decidable (_ → _))

def Timely (s : Net P) : Label P → Prop
  | .run p i => ∀ pkt ∈ nextSend s p i, SentTimely s pkt
  | .deliver i => ∀ m ∈ s.wire[i]?, AcceptedTimely s m
  | _ => True

instance (s : Net P) (l : Label P) : Decidable (Timely s l) :=
  match l with
  | .run _ _ => inferInstanceAs (Decidable (∀ pkt ∈ nextSend _ _ _, SentTimely _ pkt))
  | .deliver _ => inferInstanceAs (Decidable (∀ m ∈ (_ : Option (Msg P)), AcceptedTimely _ m))
  | .scan _ _ _ | .recvAck _ _ | .interrupt _ _ | .read _ | .lose _ | .overflow _ | .spawn _ _
  | .printk _ _ | .ackTimeout _ => isTrue trivial

def Harmless (nodes : Canhostname → Node) (m : Msg P) : Prop :=
  IsDisconn m.pkt → canconUnconnected (nodes m.dst).canconRmt = true ∨
    datExt m.pkt.dat = (nodes m.dst).canconRmt

structure Sessions (s : Net P) : Prop where
  flushed : Flushed s
  wire : ∀ m ∈ s.wire, Harmless s.nodes m
  dropped : OwnDisconnects s

theorem not_isDisconn_of_acknak {pkt : CanPacket} (h : pkt.ext.type.isAcknak = true) :
    ¬ IsDisconn pkt := fun hd => by
  rw [hd.2] at h
  cases h

theorem not_isDisconn_of_dat {pkt : CanPacket} (h : pkt.ext.type = .dat) : ¬ IsDisconn pkt :=
  fun hd => by
    rw [hd.2] at h
    cases h

theorem Harmless.dispatch {s : Net P} {m d : Msg P} (hd : Harmless s.nodes d) (hmem : d ∈ s.wire)
    (ha : AcceptedTimely s m) {nodes : Canhostname → Node}
    (hn : ∀ a, (nodes a).canconRmt =
      if a = m.dst then nextRmt m.pkt (s.nodes m.dst).canconRmt else (s.nodes a).canconRmt) :
    Harmless nodes d := by
  intro hdis
  rw [hn]
  split_ifs with he
  · unfold nextRmt
    split_ifs with hc hu hdm hu
    · right
      rw [ha hc hu d hmem hdis he]
    · exact he ▸ hd hdis
    · exact he ▸ hd hdis
    · exact .inl (canconUnconnected_dropConsole _)
    · exact he ▸ hd hdis
  · exact hd hdis

theorem forall_mem_concat {α : Type} {p : α → Prop} {l : List α} {x : α} (h : ∀ y ∈ l, p y)
    (hx : p x) : ∀ y ∈ l ++ [x], p y := by
  intro y hy
  rcases List.mem_append.mp hy with hy | hy
  · exact h y hy
  · rw [List.mem_singleton.mp hy]
    exact hx

theorem OwnDisconnects.append {s u : Net P} (h : OwnDisconnects s) {es : List (Event P)}
    (hl : u.log = s.log ++ es) (hes : ∀ e ∈ es, OwnDisconnect e) : OwnDisconnects u := by
  intro e he
  rw [hl] at he
  rcases List.mem_append.mp he with he | he
  · exact h e he
  · exact hes e he

variable {s u : Net P} {l : Label P}

theorem Sessions.deliver (h : Sessions s) {i : Nat} {m : Msg P} (hm : s.wire[i]? = some m)
    (hd : Delivers s i m u) (ht : AcceptedTimely s m) :
    (∀ d ∈ u.wire, Harmless u.nodes d) ∧ OwnDisconnects u := by
  have hn := hd.rmt
  obtain ⟨ms, hw, hr, hk⟩ := hd.wire
  obtain ⟨es, hl, he⟩ := hd.log
  constructor
  · intro d hmem
    rw [hw] at hmem
    rcases List.mem_append.mp hmem with hmem | hmem
    · have hmem' := List.mem_of_mem_eraseIdx hmem
      exact (h.wire d hmem').dispatch hmem' ht hn
    · -- what the node sends is no disconnect
      intro hdis
      cases ha : d.pkt.ext.type.isAcknak with
      | true => exact absurd hdis (not_isDisconn_of_acknak ha)
      | false => exact absurd hdis (not_isDisconn_of_dat (hk d hmem ha).1)
  · refine h.dropped.append hl fun e hmem => ?_
    rcases List.mem_cons.mp hmem with rfl | hmem
    · intro hdis hc
      rcases h.wire m (List.mem_of_getElem? hm) hdis with hu | hd
      · rw [hu] at hc
        cases hc
      · exact hd
    · obtain ⟨o, rfl, _⟩ := he e hmem
      trivial

variable [DecidableEq P]

theorem Sessions.step (h : Sessions s) (hs : NetStep s l u) (ht : Timely s l) : Sessions u := by
  have he := hs.effect h.flushed
  have hone : ∀ {e : Event P}, OwnDisconnect e → ∀ e' ∈ [e], OwnDisconnect e' := fun {e} hn e' he =>
    List.mem_singleton.mp he ▸ hn
  have hans : ∀ {m : Msg P} {pkt : CanPacket}, pkt.ext.type = .ack →
      ∀ y ∈ s.wire ++ [m.reply pkt], Harmless s.nodes y := fun {m pkt} ha =>
    forall_mem_concat h.wire fun hd => absurd hd (not_isDisconn_of_acknak (by rw [Msg.reply, ha]; rfl))
  refine ⟨he.flushed h.flushed, ?_, ?_⟩
  · cases he with
    | send hk => exact forall_mem_concat h.wire (ht _ (nextSend_eq hk))
    | readDat _ _ _ => exact hans rfl
    | readStolen _ _ _ _ => exact hans rfl
    | deliver hm hd => exact (h.deliver hm hd (ht _ hm)).1
    | lose _ => exact fun m hm => h.wire m (List.mem_of_mem_eraseIdx hm)
    | @output _ a _ _ ho =>
      obtain ⟨ms, hw, hk⟩ := ho.wire
      intro d hmem hdis
      rw [hw] at hmem
      rcases List.mem_append.mp hmem with hmem | hmem
      · rw [ho.rmt]
        exact h.wire d hmem hdis
      · exact absurd hdis (not_isDisconn_of_dat (hk d hmem).1)
    | _ => exact h.wire
  · cases he with
    | send _ => exact h.dropped.append rfl (hone trivial)
    | found _ _ => exact h.dropped.append rfl (hone trivial)
    | recvFound _ _ _ _ => exact h.dropped.append rfl (hone trivial)
    | deliver hm hd => exact (h.deliver hm hd (ht _ hm)).2
    | output _ ho =>
      obtain ⟨es, hl, he⟩ := ho.log
      refine h.dropped.append hl fun e hmem => ?_
      obtain ⟨o, rfl, _⟩ := he e hmem
      trivial
    | _ => exact h.dropped

/-- In every run in which each CONSOLE_DISCONN is transmitted while its target
has no console or the one it names, and each CONSOLE_CONNECT is accepted while
every CONSOLE_DISCONN in flight to the node names the same console, a
disconnect only ends the session it names. -/
theorem disconnect_own_session {s₀ : Net P} {tr : List (Net P × Label P)} (h₀ : Starts s₀)
    (h : Run NetStep s₀ tr s) (ht : ∀ x ∈ tr, Timely x.1 x.2) : OwnDisconnects s := by
  have hs₀ : Sessions s₀ := by
    refine ⟨h₀.flushed, fun m hm => ?_, fun e he => ?_⟩
    · rw [h₀.wire] at hm
      cases hm
    · rw [h₀.log] at he
      cases he
  exact (h.invariant_of hs₀ (fun _ _ _ hp hok hst => hp.step hst hok) ht).dropped

def canconConfig (b : Bool) : Config where
  fopt := b
  targetCh := ⟨0, 0, 1⟩
  nodeid := packNodeid ⟨0, 0, if b then 3 else 2⟩
  consobj := 0x100
  resetobj := 0x11
  stack := default

def cancons : Net Bool :=
  Net.boot fun b => .boot (canconConfig b) (connectProtocol (canconConfig b))

theorem cancons_starts : Starts cancons :=
  starts_boot fun b => opsOnly_connectProtocol (canconConfig b)

def connectRun (b : Bool) (i : Nat) : List (Label Bool) :=
  [.run b 0, .deliver i, .deliver i, .read b, .scan b 0 false,
    .run b 0, .run b 0, .deliver i, .deliver i, .read b, .scan b 0 false]

def sessionRun : List (Label Bool) :=
  connectRun false 0 ++ [.spawn false .disconnect, .run false 1, .run false 1, .deliver 0] ++
    connectRun true 1

theorem disconnect_own_session_two :
    ∃ tr s, Run NetStep cancons tr s ∧ tr.map Prod.snd = sessionRun ∧ OwnDisconnects s := by
  obtain ⟨tr, s, hr, hl, hok, -⟩ := exists_run cancons (fun s l => decide (Timely s l)) sessionRun
    (fun _ => true) (by decide +kernel)
  exact ⟨tr, s, hr, hl, disconnect_own_session cancons_starts hr fun x hx => by simpa using hok x hx⟩

/-- The first process repeats its disconnect after a timeout, and the repeated
one arrives when the second process has connected. -/
def staleRun : List (Label Bool) :=
  connectRun false 0 ++
    [.spawn false .disconnect, .run false 1, .run false 1, .scan false 1 true, .run false 1,
      .deliver 0] ++ connectRun true 2 ++ [.deliver 0]

theorem stale_disconnect_drops :
    ∃ tr s, Run NetStep cancons tr s ∧ tr.map Prod.snd = staleRun ∧ ¬ OwnDisconnects s := by
  obtain ⟨tr, s, hr, hl, -, hd⟩ := exists_run cancons (fun _ _ => true) staleRun
    (fun s => decide (¬ OwnDisconnects s)) (by decide +kernel)
  exact ⟨tr, s, hr, hl, by simpa using hd⟩

end MeikoCs2
