import MeikoCs2.AtomicNode
import MeikoCs2.Effects
import MeikoCs2.FanOut

/-! The driver of a node does what a node without queues does, and so do the
nodes of the network. -/

namespace MeikoCs2

/-- What a node does at once: the packets it dispatches, those that processes
hand it, its messages, the expiry of its timer, and what open, release and ioctl
assign. -/
inductive Deed where
  | dispatch (pkt : CanPacket)
  | sendPkt (pkt : CanPacket)
  | sendPktNoOutFixup (pkt : CanPacket)
  | printk (m : String)
  | ackTimeout
  | tick (jiffies : BitVec 32)
  | settings (fds : FdTable) (canDebug : Bool) (canHbVal : BitVec 32)

namespace Deed

def apply : Deed → Node → Node
  | .dispatch pkt, s => (canobjPacket pkt s).1
  | .sendPkt pkt, s => (MeikoCs2.sendPkt pkt s).1
  | .sendPktNoOutFixup pkt, s => (MeikoCs2.sendPktNoOutFixup pkt s).1
  | .printk m, s => MeikoCs2.printk m s
  | .ackTimeout, s => canconRecvAck true s
  | .tick jiffies, s => { s with jiffies := jiffies }
  | .settings fds canDebug canHbVal, s =>
    { s with fds := fds, canDebug := canDebug, canHbVal := canHbVal }

def dispatched : Deed → Option CanPacket
  | .dispatch pkt => some pkt
  | _ => none

/-- What a call on an open file can lead to. -/
def onRequest : Deed → Bool
  | .printk _ => true
  | .settings _ _ _ => true
  | _ => false

end Deed

def Only (p : Deed → Bool) (ks : List Deed) : Prop := ∀ k ∈ ks, p k = true

theorem Only.append {p : Deed → Bool} {ks js : List Deed} (h : Only p ks) (h' : Only p js) :
    Only p (ks ++ js) := List.forall_mem_append.mpr ⟨h, h'⟩

/-- What a step of the driver is without queues: receiving, transmitting and
reading are nothing, and a bottom half only dispatches. -/
def DriverOp.does : DriverOp → List Deed → Prop
  | .open, ks => ks = []
  | .release _, ks => Only Deed.onRequest ks
  | .ioctl _ _ _, ks => Only Deed.onRequest ks
  | .read _ _, ks => ks = []
  | .sendPkt pkt, ks => ks = [.sendPkt pkt]
  | .sendPktNoOutFixup pkt, ks => ks = [.sendPktNoOutFixup pkt]
  | .tryRecv _, ks => ks = []
  | .tryXmit, ks => ks = []
  | .xmitDone, ks => ks = []
  | .canBh, ks => Only (fun k => k.dispatched.isSome) ks
  | .printk m, ks => ks = [.printk m]
  | .ackTimeout, ks => ks = [.ackTimeout]
  | .tick jiffies, ks => ks = [.tick jiffies]

/-- The deeds, step by step. -/
def TraceDoes (tr : List (Driver × DriverOp)) (ks : List Deed) : Prop :=
  ∃ kss, List.Forall₂ (fun x ks => x.2.does ks) tr kss ∧ kss.flatten = ks

theorem TraceDoes.snoc {tr : List (Driver × DriverOp)} {ks js : List Deed} {d : Driver}
    {op : DriverOp} (h : TraceDoes tr ks) (hj : op.does js) :
    TraceDoes (tr ++ [(d, op)]) (ks ++ js) := by
  obtain ⟨kss, hf, rfl⟩ := h
  refine ⟨kss ++ [js], List.rel_append hf (.cons hj .nil), ?_⟩
  rw [List.flatten_append, List.flatten_singleton]

/-- A node without queues, and the packets it has handed to the wire. -/
structure Atomic where
  node : Node
  out : List CanPacket

def Atomic.act (a : Atomic) (k : Deed) : Atomic where
  node := (k.apply a.node).flush
  out := a.out ++ (k.apply a.node).handed.map Handed.pkt

theorem Deed.respects (k : Deed) : Respects 4 k.apply := by
  cases k with
  | dispatch pkt => exact respects_canobjPacket pkt
  | sendPkt pkt => exact (respects_sendPkt pkt).mono (by decide)
  | sendPktNoOutFixup pkt => exact (respects_sendPktNoOutFixup pkt).mono (by decide)
  | printk m => exact (respects_printk m).mono (by decide)
  | ackTimeout => exact (respects_canconRecvAck true).mono (by decide)
  | tick jiffies => exact .assign (fun _ => ⟨rfl, rfl, rfl, rfl, rfl⟩) fun _ => rfl
  | settings fds canDebug canHbVal =>
    exact .assign (fun _ => ⟨rfl, rfl, rfl, rfl, rfl⟩) fun _ => rfl

/-- The driver's node, and the node without queues that does the same. -/
structure Mirrors (s : Node) (a : Atomic) : Prop where
  core : s.core = a.node.core
  flushed : a.node.flush = a.node
  out : a.out = s.handed.map Handed.pkt

theorem roomy_flush (n : Node) : Roomy 4 n.flush := by
  have hroom : (ringInit default : PktRing).size + 4 < maxring := by decide
  exact ⟨hroom, hroom⟩

theorem Mirrors.act {s : Node} {a : Atomic} {l : List Handed} (h : Mirrors s a) (k : Deed)
    (hs : Sends s l (k.apply s)) (hl : Took l) : Mirrors (k.apply s) (a.act k) := by
  obtain ⟨m, hm, -⟩ := k.respects.sends a.node
  have hroom : Roomy 4 a.node := h.flushed ▸ roomy_flush a.node
  have htook := k.respects.took a.node m hroom hm
  obtain ⟨hc, hp⟩ := k.respects.echo s a.node l m h.core hs hm hl htook
  have hnil : a.node.handed = [] := by
    rw [← h.flushed]
    rfl
  refine ⟨hc, rfl, ?_⟩
  change a.out ++ (k.apply a.node).handed.map Handed.pkt = _
  rw [hm.handed, hnil, List.nil_append, hs.handed, List.map_append, h.out, hp]

/-- From `s` to `u` the packets `calls` are dispatched, and as long as no DAT
packet is refused a node without queues follows by deeds that meet `does`. -/
def Follows (does : List Deed → Prop) (calls : List CanPacket) (s u : Node) : Prop :=
  ∃ l, u.handed = s.handed ++ l ∧ ∀ a, Took l → Mirrors s a →
    ∃ ks, does ks ∧ Mirrors u (ks.foldl Atomic.act a) ∧ ks.filterMap Deed.dispatched = calls

namespace Follows

variable {does does' : List Deed → Prop} {p : Deed → Bool} {s t u : Node} {cs ds : List CanPacket}

theorem trans {both : List Deed → Prop} (h : Follows does cs s t) (h' : Follows does' ds t u)
    (hb : ∀ ks js, does ks → does' js → both (ks ++ js)) : Follows both (cs ++ ds) s u := by
  obtain ⟨l, hl, hf⟩ := h
  obtain ⟨m, hm, hg⟩ := h'
  refine ⟨l ++ m, by rw [hm, hl, List.append_assoc], fun a ht ha => ?_⟩
  obtain ⟨hlt, hmt⟩ := Took.append.mp ht
  obtain ⟨ks, hks, hk, hc⟩ := hf a hlt ha
  obtain ⟨js, hjs, hj, hd⟩ := hg _ hmt hk
  refine ⟨ks ++ js, hb ks js hks hjs, ?_, ?_⟩
  · rw [List.foldl_append]
    exact hj
  · rw [List.filterMap_append, hc, hd]

theorem only (h : Follows (Only p) cs s t) (h' : Follows (Only p) ds t u) :
    Follows (Only p) (cs ++ ds) s u := h.trans h' fun _ _ => Only.append

theorem deed {k : Deed} (hk : does [k]) (s : Node) :
    Follows does k.dispatched.toList s (k.apply s) := by
  obtain ⟨l, hs, -⟩ := k.respects.sends s
  refine ⟨l, hs.handed, fun a hl ha => ⟨[k], hk, ha.act k hs hl, ?_⟩⟩
  cases hd : k.dispatched <;> simp [hd]

/-- What does not show without the queues. -/
theorem of_core (hn : does []) (hh : u.handed = s.handed) (hc : u.core = s.core) :
    Follows does [] s u := by
  refine ⟨[], by rw [hh, List.append_nil], fun a _ ha => ⟨[], hn, ⟨?_, ha.flushed, ?_⟩, rfl⟩⟩
  · exact hc.trans ha.core
  · rw [hh]
    exact ha.out

theorem refl (hn : does []) (s : Node) : Follows does [] s s := of_core hn rfl rfl

end Follows

theorem only_nil (p : Deed → Bool) : Only p [] := fun _ h => absurd h List.not_mem_nil

theorem only_singleton {p : Deed → Bool} {k : Deed} (h : p k = true) : Only p [k] :=
  List.forall_mem_singleton.mpr h

/-- What a call on an open file makes of the node. -/
abbrev Requested : Node → Node → Prop := Follows (Only Deed.onRequest) []

namespace Requested

variable {s t : Node}

theorem refl (s : Node) : Requested s s := Follows.refl (only_nil _) s

theorem printk (h : Requested s t) (m : String) : Requested s (MeikoCs2.printk m t) :=
  Follows.only h (.deed (k := .printk m) (only_singleton rfl) t)

theorem settings (fds : FdTable) (canDebug : Bool) (canHbVal : BitVec 32) (s : Node) :
    Requested s { s with fds := fds, canDebug := canDebug, canHbVal := canHbVal } :=
  .deed (k := .settings fds canDebug canHbVal) (only_singleton rfl) s

end Requested

theorem canDumpInfo_requested {s t : Node} (h : Requested s t) : Requested s (canDumpInfo t) := by
  have hinfo : Requested s (canconDumpInfo t) := by
    unfold canconDumpInfo
    split_ifs
    · exact h.printk _
    · exact h.printk _
  have hdebug : ∀ {u}, Requested s u → Requested s (canconDumpDebug u) := by
    intro u hu
    unfold canconDumpDebug
    exact ((hu.printk _).printk _).printk _
  unfold canDumpInfo
  split_ifs
  · exact hdebug ((((hinfo.printk _).printk _).printk _).printk _)
  · exact h

theorem canIoctl_requested (fd : Fin canMaxUsecount) (cmd : IoctlCmd) (fault : Bool) (s : Node) :
    Requested s (canIoctl fd cmd fault s).1 := by
  cases cmd with
  | setPromiscuous => exact .settings _ s.canDebug s.canHbVal s
  | clrPromiscuous => exact .settings _ s.canDebug s.canHbVal s
  | setSnoopy => exact .settings _ s.canDebug s.canHbVal s
  | clrSnoopy => exact .settings _ s.canDebug s.canHbVal s
  | getHeartbeat => exact .refl s
  | setHeartbeat val =>
    simp only [canIoctl]
    split_ifs
    · exact .refl s
    · exact .settings s.fds s.canDebug val s
  | getAddr => exact .refl s
  | getConsobj =>
    simp only [canIoctl]
    split
    · exact .refl s
    · exact .settings _ s.canDebug s.canHbVal s
  | setReset => exact .settings _ s.canDebug s.canHbVal s
  | setDebug =>
    have hset : Requested s { s with canDebug := true } := .settings s.fds true s.canHbVal s
    simp only [canIoctl]
    exact canDumpInfo_requested hset
  | clrDebug =>
    have hset : Requested s { s with canDebug := false } := .settings s.fds false s.canHbVal s
    simp only [canIoctl]
    exact hset.printk _
  | other => exact .refl s

theorem deliverPkt_follows (pkt : CanPacket) (s : Node) :
    Follows (Only fun k => k.dispatched.isSome) (deliverPkt pkt s).2 s (deliverPkt pkt s).1 := by
  have hfds : ∀ (mine : Bool) (t : Node), Follows (Only fun k => k.dispatched.isSome) [] t
      (if t.halted then t else { t with fds := deliverFds mine pkt t.fds }) := by
    intro mine t
    split_ifs
    · exact .refl (only_nil _) t
    · exact .of_core (only_nil _) rfl rfl
  unfold deliverPkt
  cases isMypacket s.canNodeid pkt with
  | true => exact (Follows.deed (k := .dispatch pkt) (only_singleton rfl) s).only (hfds true _)
  | false => exact hfds false s

/-- The dispatched packets are those of the log. -/
def Driver.Follows (does : List Deed → Prop) (d d' : Driver) : Prop :=
  ∃ calls, MeikoCs2.Follows does calls d.node d'.node ∧ d'.log.calls = d.log.calls ++ calls

theorem Driver.Follows.of_node {does : List Deed → Prop} {d d' : Driver}
    (h : MeikoCs2.Follows does [] d.node d'.node) (hc : d'.log.calls = d.log.calls) :
    d.Follows does d' := ⟨[], h, by rw [hc, List.append_nil]⟩

theorem BhRun.follows {d d' : Driver} (h : BhRun d d') :
    d.Follows (Only fun k => k.dispatched.isSome) d' := by
  induction h with
  | @done d _ => exact .of_node (.refl (only_nil _) d.node) rfl
  | @round d d' pkt q _ _ _ ih =>
    obtain ⟨calls, hf, hc⟩ := ih
    have hq : Follows (Only fun k => k.dispatched.isSome) [] d.node { d.node with inq := q } :=
      .of_core (only_nil _) rfl rfl
    refine ⟨_, (hq.only (deliverPkt_follows pkt _)).only hf, ?_⟩
    rw [hc]
    exact List.append_assoc _ _ _

theorem DriverStep.follows {d d' : Driver} {op : DriverOp} (h : DriverStep d op d') :
    d.Follows op.does d' := by
  cases h with
  | «open» h =>
    obtain ⟨i, -, ht⟩ := Option.map_eq_some_iff.mp h
    obtain ⟨-, rfl⟩ := Prod.mk.inj ht
    exact .of_node (.of_core rfl rfl rfl) rfl
  | openBusy _ => exact .of_node (.refl (by rfl) _) rfl
  | release _ => exact .of_node (Requested.settings _ d.node.canDebug d.node.canHbVal d.node) rfl
  | ioctl _ cmd fault => exact .of_node (canIoctl_requested _ cmd fault d.node) rfl
  | read _ count => exact .of_node (.of_core rfl rfl rfl) rfl
  | sendPkt pkt => exact .of_node (.deed (k := .sendPkt pkt) (by rfl) d.node) rfl
  | sendPktNoOutFixup pkt => exact .of_node (.deed (k := .sendPktNoOutFixup pkt) (by rfl) d.node) rfl
  | tryRecv pkts =>
    obtain ⟨q, b, hq⟩ := exists_tryRecv_eq pkts d.node
    refine .of_node (.of_core rfl ?_ ?_) rfl
    · rw [hq]
    · rw [hq]
      rfl
  | tryXmit =>
    have hh := (tryXmit_sends d.node).handed
    rw [List.append_nil] at hh
    exact .of_node (.of_core rfl hh (tryXmit_core d.node)) rfl
  | xmitDone => exact .of_node (.of_core rfl rfl rfl) rfl
  | canBh h =>
    obtain ⟨calls, hf, hc⟩ := h.follows
    have hq : Follows (Only fun k => k.dispatched.isSome) [] d.node
        { d.node with bhQueued := false } := .of_core (only_nil _) rfl rfl
    exact ⟨calls, hq.only hf, hc⟩
  | printk m => exact .of_node (.deed (k := .printk m) (by rfl) d.node) rfl
  | ackTimeout _ => exact .of_node (.deed (k := .ackTimeout) (by rfl) d.node) rfl
  | tick jiffies => exact .of_node (.deed (k := .tick jiffies) (by rfl) d.node) rfl

theorem Run.follows {d d' : Driver} {tr : List (Driver × DriverOp)} (h : Run DriverStep d tr d') :
    d.Follows (TraceDoes tr) d' := by
  induction h with
  | nil => exact .of_node (.refl ⟨[], .nil, rfl⟩ _) rfl
  | snoc _ hst ih =>
    obtain ⟨cs, hf, hc⟩ := ih
    obtain ⟨ds, hg, hd⟩ := hst.follows
    exact ⟨cs ++ ds, hf.trans hg fun _ _ hk hj => hk.snoc hj, by rw [hd, hc, List.append_assoc]⟩

theorem canInit_handed (n : Node) : (canInit n).handed = [] := by
  simp only [canInit, canobjCanconHostGet]
  split <;> rfl

/-- In every run of the driver in which no DAT packet is refused, a node without
queues that does step by step what the driver is asked to do, and dispatches the
same packets in the same order, hands the same packets to the wire in the same
order, and ends with the same console, buffers, timers, values and PROM. -/
theorem driver_as_atomic {n : Node} {tr : List (Driver × DriverOp)} {d : Driver}
    (h : Run DriverStep (Driver.init n) tr d) (hd : Took d.node.handed) :
    ∃ kss : List (List Deed), ∃ a : Atomic,
      List.Forall₂ (fun x ks => x.2.does ks) tr kss ∧
      kss.flatten.foldl Atomic.act ⟨(canInit n).flush, []⟩ = a ∧
      kss.flatten.filterMap Deed.dispatched = d.log.calls ∧
      a.out = d.node.handed.map Handed.pkt ∧ a.node.core = d.node.core := by
  obtain ⟨calls, ⟨l, hl, hf⟩, hc⟩ := h.follows
  have hnil : (Driver.init n).node.handed = [] := canInit_handed n
  rw [hnil, List.nil_append] at hl
  have h₀ : Mirrors (Driver.init n).node ⟨(canInit n).flush, []⟩ :=
    ⟨rfl, rfl, by rw [hnil]; rfl⟩
  obtain ⟨ks, ⟨kss, hdoes, rfl⟩, hk, hcalls⟩ := hf _ (hl ▸ hd) h₀
  exact ⟨kss, _, hdoes, rfl, hcalls.trans hc.symm, hk.out, hk.core.symm⟩

theorem driver_as_atomic_testrw :
    ∃ tr d, Run DriverStep (Driver.init (Node.boot 1 noConsole (.init 1) .empty)) tr d ∧
      tr.map Prod.snd = [.sendPkt testrwPkt, .canBh] ∧ d.log.calls.length = 2 ∧
      ∃ kss : List (List Deed), ∃ a : Atomic,
        List.Forall₂ (fun x ks => x.2.does ks) tr kss ∧
        kss.flatten.filterMap Deed.dispatched = d.log.calls ∧
        a.out = d.node.handed.map Handed.pkt ∧ a.node.core = d.node.core := by
  have hr := Run.nil
    |>.snoc (DriverStep.sendPkt (d := Driver.init (Node.boot 1 noConsole (.init 1) .empty)) testrwPkt)
    |>.snoc (.canBh (.round rfl rfl (.round rfl rfl (.done rfl))))
  obtain ⟨kss, a, hdoes, -, hcalls, hout, hcore⟩ := driver_as_atomic hr (by decide)
  exact ⟨_, _, hr, rfl, rfl, kss, a, hdoes, hcalls, hout, hcore⟩

/-! The nodes of the network. -/

section Network

variable {P : Type}

def Event.dispatchedAt (a : Canhostname) : Event P → Option CanPacket
  | .sent _ => none
  | .dispatched node m _ _ => if node = a then some m.pkt else none
  | .returned _ _ _ _ => none

/-- From `s` to `u` node `a` does some deeds, and dispatches what the log says. -/
def Moves (a : Canhostname) (s u : Net P) : Prop :=
  ∃ ks : List Deed, (∀ out, (ks.foldl Atomic.act ⟨s.nodes a, out⟩).node = u.nodes a) ∧
    u.log.filterMap (Event.dispatchedAt a) =
      s.log.filterMap (Event.dispatchedAt a) ++ ks.filterMap Deed.dispatched

namespace Moves

variable {a : Canhostname} {s t u : Net P}

theorem still (hn : u.nodes a = s.nodes a)
    (hl : u.log.filterMap (Event.dispatchedAt a) = s.log.filterMap (Event.dispatchedAt a)) :
    Moves a s u := ⟨[], fun _ => hn.symm, hl.trans (List.append_nil _).symm⟩

theorem trans (h : Moves a s t) (h' : Moves a t u) : Moves a s u := by
  obtain ⟨ks, hn, hl⟩ := h
  obtain ⟨js, hn', hl'⟩ := h'
  refine ⟨ks ++ js, fun out => ?_, ?_⟩
  · rw [List.foldl_append, ← hn' (ks.foldl Atomic.act ⟨s.nodes a, out⟩).out, ← hn out]
  · rw [hl', hl, List.filterMap_append, List.append_assoc]

end Moves

theorem dispatchedAt_append {log es : List (Event P)} {a : Canhostname}
    (h : ∀ e ∈ es, e.dispatchedAt a = none) :
    (log ++ es).filterMap (Event.dispatchedAt a) = log.filterMap (Event.dispatchedAt a) := by
  rw [List.filterMap_append, List.filterMap_eq_nil_iff.mpr h, List.append_nil]

theorem dispatchedAt_of_sent {es : List (Event P)} {p : Origin P → Prop}
    (h : ∀ e ∈ es, ∃ o, e = .sent o ∧ p o) (a : Canhostname) :
    ∀ e ∈ es, e.dispatchedAt a = none := by
  intro e he
  obtain ⟨o, rfl, -⟩ := h e he
  rfl

theorem dispatchedAt_singleton {e : Event P} {a : Canhostname} (h : e.dispatchedAt a = none) :
    ∀ x ∈ [e], x.dispatchedAt a = none := by
  intro x hx
  rw [List.mem_singleton.mp hx]
  exact h

theorem output_nodes (a : Canhostname) (n : Node) (s : Net P) :
    (s.output a n).nodes = Function.update s.nodes a n.flush := by
  have hfold : ∀ (ps : List CanPacket) (t : Net P),
      (ps.foldl (fun t pkt => t.transmit a none pkt) t).nodes = t.nodes := by
    intro ps
    induction ps with
    | nil => exact fun _ => rfl
    | cons p ps ih => exact fun t => ih (t.transmit a none p)
  exact hfold _ _

theorem Delivers.moves {s u : Net P} {i : Nat} {m : Msg P} (h : Delivers s i m u)
    (a : Canhostname) : Moves a s u := by
  obtain ⟨es, hl, he⟩ := h.log
  have hlog : u.log.filterMap (Event.dispatchedAt a) =
      s.log.filterMap (Event.dispatchedAt a) ++ (if m.dst = a then [m.pkt] else []) := by
    rw [hl, List.append_cons, dispatchedAt_append (dispatchedAt_of_sent he a),
      List.filterMap_append]
    split_ifs with ha
    · simp [Event.dispatchedAt, ha]
    · simp [Event.dispatchedAt, ha]
  rcases eq_or_ne a m.dst with rfl | hne
  · refine ⟨[.dispatch m.pkt], fun _ => ?_, ?_⟩
    · rw [h.nodes, Function.update_self]
      rfl
    · rw [hlog, if_pos rfl]
      rfl
  · refine .still ?_ ?_
    · rw [h.nodes, Function.update_of_ne hne]
    · rw [hlog, if_neg hne.symm, List.append_nil]

theorem Outputs.moves {s : Net P} {b : Canhostname} {k : Deed} (hk : k.dispatched = none)
    (h : Outputs s b (s.output b (k.apply (s.nodes b)))) (a : Canhostname) :
    Moves a s (s.output b (k.apply (s.nodes b))) := by
  obtain ⟨es, hl, he⟩ := h.log
  have hlog : (s.log ++ es).filterMap (Event.dispatchedAt a) =
      s.log.filterMap (Event.dispatchedAt a) := dispatchedAt_append (dispatchedAt_of_sent he a)
  rw [← hl] at hlog
  rcases eq_or_ne a b with rfl | hne
  · refine ⟨[k], fun _ => ?_, ?_⟩
    · rw [output_nodes, Function.update_self]
      rfl
    · rw [hlog, List.filterMap_cons_none hk]
      exact (List.append_nil _).symm
  · refine .still ?_ hlog
    rw [output_nodes, Function.update_of_ne hne]

variable [DecidableEq P]

/-- A step of the network is at most one deed of a node. -/
theorem NetStep.moves {s u : Net P} {l : Label P} (hf : Flushed s) (h : NetStep s l u)
    (a : Canhostname) : Moves a s u := by
  cases h.effect hf with
  | send _ => exact .still rfl (dispatchedAt_append (dispatchedAt_singleton rfl))
  | found _ _ => exact .still rfl (dispatchedAt_append (dispatchedAt_singleton rfl))
  | recvFound _ _ _ _ => exact .still rfl (dispatchedAt_append (dispatchedAt_singleton rfl))
  | deliver _ hd => exact hd.moves a
  | output hl ho =>
    rcases hl with ⟨m, rfl⟩ | rfl
    · obtain rfl := Option.some.inj h
      exact Outputs.moves (k := .printk m) rfl ho a
    · obtain rfl := Option.some.inj h
      exact Outputs.moves (k := .ackTimeout) rfl ho a
  | _ => exact .still rfl rfl

/-- The nodes of the network do nothing else. -/
theorem Run.moves {procs : P → Proc P} {tr : List (Net P × Label P)} {u : Net P}
    (h : Run NetStep (Net.boot procs) tr u) (a : Canhostname) : Moves a (Net.boot procs) u := by
  have hinv : Flushed u ∧ Moves a (Net.boot procs) u := by
    refine h.invariant (P := fun u => Flushed u ∧ Moves a (Net.boot procs) u)
      ⟨fun _ => rfl, .still rfl rfl⟩ ?_
    rintro s l v ⟨hf, hm⟩ hst
    exact ⟨(hst.effect hf).flushed hf, hm.trans (hst.moves hf a)⟩
  exact hinv.2

end Network

end MeikoCs2
