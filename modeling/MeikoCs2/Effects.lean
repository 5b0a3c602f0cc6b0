import MeikoCs2.Network

/-! What one step of the network can do, said once. -/

namespace MeikoCs2

variable {P : Type}

structure IsOutput (a : Canhostname) (x : Msg P) : Prop where
  src : x.src = a
  dst : x.dst = x.pkt.ext.addr
  node : x.origin.node = a
  sender : x.origin.sender = none
  pkt : x.origin.pkt = x.pkt

/-- The wire and the log after the packets `ps` have left node `a`: the
requests among them are logged, and `rs` are the replies. -/
structure Leaves (a : Canhostname) (ps : List CanPacket) (rs : List (Msg P)) (s u : Net P) :
    Prop where
  nodes : u.nodes = s.nodes
  procs : u.procs = s.procs
  wire : ∃ ms, u.wire = s.wire ++ ms ∧
    (ms.filter fun x => x.pkt.ext.type.isAcknak) = rs ∧
    ∀ x ∈ ms, x.pkt.ext.type.isAcknak = false →
      x.pkt ∈ ps ∧ IsOutput a x ∧ .sent x.origin ∈ u.log
  log : ∃ es, u.log = s.log ++ es ∧ ∀ e ∈ es, ∃ o, e = .sent o ∧ o.sender = none ∧ o.node = a ∧
    o.pkt ∈ ps ∧ o.pkt.ext.type.isAcknak = false

theorem Leaves.refl (a : Canhostname) (s : Net P) : Leaves a [] [] s s :=
  ⟨rfl, rfl, ⟨[], by simp⟩, ⟨[], by simp⟩⟩

theorem Leaves.trans {a : Canhostname} {ps ps' : List CanPacket} {rs rs' : List (Msg P)}
    {s t u : Net P} (h : Leaves a ps rs s t) (h' : Leaves a ps' rs' t u) :
    Leaves a (ps ++ ps') (rs ++ rs') s u := by
  obtain ⟨ms, hw, hr, hm⟩ := h.wire
  obtain ⟨ms', hw', hr', hm'⟩ := h'.wire
  obtain ⟨es, hl, he⟩ := h.log
  obtain ⟨es', hl', he'⟩ := h'.log
  refine ⟨h'.nodes.trans h.nodes, h'.procs.trans h.procs, ⟨ms ++ ms', ?_, ?_, ?_⟩,
    ⟨es ++ es', ?_, ?_⟩⟩
  · rw [hw', hw, List.append_assoc]
  · rw [List.filter_append, hr, hr']
  · intro x hx ha
    rcases List.mem_append.mp hx with hx | hx
    · obtain ⟨h₁, h₂, h₃⟩ := hm x hx ha
      exact ⟨List.mem_append_left _ h₁, h₂, by rw [hl']; exact List.mem_append_left _ h₃⟩
    · obtain ⟨h₁, h₂, h₃⟩ := hm' x hx ha
      exact ⟨List.mem_append_right _ h₁, h₂, h₃⟩
  · rw [hl', hl, List.append_assoc]
  · intro e hx
    rcases List.mem_append.mp hx with hx | hx
    · obtain ⟨o, h₁, h₂, h₃, h₄, h₅⟩ := he e hx
      exact ⟨o, h₁, h₂, h₃, List.mem_append_left _ h₄, h₅⟩
    · obtain ⟨o, h₁, h₂, h₃, h₄, h₅⟩ := he' e hx
      exact ⟨o, h₁, h₂, h₃, List.mem_append_right _ h₄, h₅⟩

theorem transmit_leaves (a : Canhostname) {pkt : CanPacket}
    (h : pkt.ext.type.isAcknak = false) (s : Net P) :
    Leaves a [pkt] [] s (s.transmit a none pkt) where
  nodes := rfl
  procs := rfl
  wire := by
    refine ⟨_, rfl, by simp [h], fun x hx _ => ?_⟩
    rw [List.mem_singleton.mp hx]
    exact ⟨by simp, ⟨rfl, rfl, rfl, rfl, rfl⟩, List.mem_append_right _ (by simp)⟩
  log := by
    refine ⟨_, rfl, fun e he => ?_⟩
    rw [List.mem_singleton.mp he]
    exact ⟨_, rfl, rfl, rfl, by simp, h⟩

def Msg.reply (m : Msg P) (pkt : CanPacket) : Msg P := ⟨m.dst, m.src, pkt, m.origin⟩

theorem answer_leaves (a : Canhostname) (m : Msg P) {pkt : CanPacket}
    (h : pkt.ext.type.isAcknak = true) (s : Net P) :
    Leaves a [pkt] [m.reply pkt] s (s.answer m pkt) where
  nodes := rfl
  procs := rfl
  wire := by
    refine ⟨_, rfl, by simp [h, Msg.reply], fun x hx hn => ?_⟩
    rw [List.mem_singleton.mp hx, h] at hn
    cases hn
  log := ⟨[], by simp [Net.answer], by simp⟩

theorem foldl_hand_leaves (m : Msg P) (ps : List CanPacket) (s : Net P) :
    Leaves m.dst ps ((ps.filter fun p => p.ext.type.isAcknak).map m.reply) s
      (ps.foldl (Net.hand m) s) := by
  induction ps generalizing s with
  | nil => exact .refl _ s
  | cons p ps ih =>
    rw [List.foldl_cons]
    cases ha : p.ext.type.isAcknak with
    | true =>
      have hs : Net.hand m s p = s.answer m p := by simp [Net.hand, ha]
      rw [hs, List.filter_cons_of_pos (p := fun p : CanPacket => p.ext.type.isAcknak) ha]
      exact (answer_leaves m.dst m ha s).trans (ih _)
    | false =>
      have hs : Net.hand m s p = s.transmit m.dst none p := by simp [Net.hand, ha]
      rw [hs, List.filter_cons_of_neg (by simp [ha])]
      exact (transmit_leaves m.dst ha s).trans (ih _)

theorem foldl_transmit_leaves (a : Canhostname) {ps : List CanPacket}
    (h : ∀ p ∈ ps, p.ext.type.isAcknak = false) (s : Net P) :
    Leaves a ps [] s (ps.foldl (fun s pkt => s.transmit a none pkt) s) := by
  induction ps generalizing s with
  | nil => exact .refl a s
  | cons p ps ih =>
    exact (transmit_leaves a (h p (by simp)) s).trans (ih (fun q hq => h q (by simp [hq])) _)

/-- Between two steps no node holds packets that it has handed to
`send_pkt`. -/
def Flushed (s : Net P) : Prop := ∀ a, (s.nodes a).handed = []

def giveFiles (a : Canhostname) (m : Msg P) (given : Bool) (procs : P → Proc P) (p : P) : Proc P :=
  if (procs p).home = a ∧ given = true then { procs p with fdq := (procs p).fdq ++ [m] }
  else procs p

/-- The delivery of `m`, found at place `i` of the wire. -/
structure Delivers (s : Net P) (i : Nat) (m : Msg P) (u : Net P) : Prop where
  nodes : u.nodes = Function.update s.nodes m.dst (canobjPacket m.pkt (s.nodes m.dst)).1.flush
  procs : ∃ given, u.procs = giveFiles m.dst m given s.procs ∧
    (m.pkt.ext.type.isAcknak = true → given = true)
  wire : ∃ ms, u.wire = s.wire.eraseIdx i ++ ms ∧
    (ms.filter fun x => x.pkt.ext.type.isAcknak) =
      (replies m.pkt (s.nodes m.dst)).map m.reply ∧
    ∀ x ∈ ms, x.pkt.ext.type.isAcknak = false →
      x.pkt.ext.type = .dat ∧ IsOutput m.dst x ∧ .sent x.origin ∈ u.log
  log : ∃ es, u.log = s.log ++ .dispatched m.dst m (s.nodes m.dst).canconRmt
      (nextRmt m.pkt (s.nodes m.dst).canconRmt) :: es ∧
    ∀ e ∈ es, ∃ o, e = .sent o ∧ o.sender = none ∧ o.node = m.dst ∧ o.pkt.ext.type = .dat

theorem dispatch_delivers {s : Net P} (hf : Flushed s) (i : Nat) {m : Msg P}
    (hh : (s.nodes m.dst).halted = false) :
    Delivers s i m ({ s with wire := s.wire.eraseIdx i }.dispatch m) := by
  have hd := (canobjPacket_handles m.pkt (s.nodes m.dst)).dats
  have hrmt := canobjPacket_rmt m.pkt (s.nodes m.dst)
  have hr : ((canobjPacket m.pkt (s.nodes m.dst)).1.handed.map Handed.pkt).filter
      (fun p => p.ext.type.isAcknak) = replies m.pkt (s.nodes m.dst) := by
    have ha := acknaks_canobjPacket m.pkt (s.nodes m.dst)
    rw [acknaks, acknaks, hf m.dst] at ha
    simpa using ha
  have hdat : ∀ p ∈ (canobjPacket m.pkt (s.nodes m.dst)).1.handed.map Handed.pkt,
      p.ext.type.isAcknak = false → p.ext.type = .dat := by
    intro p hp hn
    obtain ⟨x, hx, rfl⟩ := List.mem_map.mp hp
    rcases hd x hx with h | h | h
    · rw [hf m.dst] at h
      cases h
    · exact h
    · rw [h] at hn
      cases hn
  simp only [Net.dispatch]
  obtain ⟨hn, hp, ⟨ms, hw, hra, hm⟩, ⟨es, hl, he⟩⟩ :=
    foldl_hand_leaves m ((canobjPacket m.pkt (s.nodes m.dst)).1.handed.map Handed.pkt)
      { s with
        wire := s.wire.eraseIdx i
        nodes := Function.update s.nodes m.dst (canobjPacket m.pkt (s.nodes m.dst)).1.flush
        procs := fun p =>
          if (s.procs p).home = m.dst ∧ (canobjPacket m.pkt (s.nodes m.dst)).1.halted = false then
            { s.procs p with fdq := (s.procs p).fdq ++ [m] }
          else s.procs p
        log := s.log ++ [.dispatched m.dst m (s.nodes m.dst).canconRmt
          (canobjPacket m.pkt (s.nodes m.dst)).1.canconRmt] }
  refine ⟨hn, ⟨!(canobjPacket m.pkt (s.nodes m.dst)).1.halted, ?_, fun ha => ?_⟩,
    ⟨ms, hw, ?_, ?_⟩, ⟨es, ?_, ?_⟩⟩
  · rw [hp]
    funext p
    simp [giveFiles]
  · rw [canobjPacket_halted_of_acknak ha, hh]
    rfl
  · rw [hra, hr]
  · intro x hx ha
    obtain ⟨h₁, h₂, h₃⟩ := hm x hx ha
    exact ⟨hdat _ h₁ ha, h₂, h₃⟩
  · rw [hl, hrmt]
    simp
  · intro e hx
    obtain ⟨o, h₁, h₂, h₃, h₄, h₅⟩ := he e hx
    exact ⟨o, h₁, h₂, h₃, hdat _ h₄ h₅⟩

structure Outputs (s : Net P) (a : Canhostname) (u : Net P) : Prop where
  nodes : ∃ n, u.nodes = Function.update s.nodes a n ∧ n.canconRmt = (s.nodes a).canconRmt ∧
    n.handed = []
  procs : u.procs = s.procs
  wire : ∃ ms, u.wire = s.wire ++ ms ∧
    ∀ x ∈ ms, x.pkt.ext.type = .dat ∧ IsOutput a x ∧ .sent x.origin ∈ u.log
  log : ∃ es, u.log = s.log ++ es ∧
    ∀ e ∈ es, ∃ o, e = .sent o ∧ o.sender = none ∧ o.node = a ∧ o.pkt.ext.type = .dat

theorem output_outputs {s : Net P} (hf : Flushed s) {a : Canhostname} {n : Node}
    (hn : Prints (s.nodes a) n) : Outputs s a (s.output a n) := by
  have hd : ∀ p ∈ n.handed.map Handed.pkt, p.ext.type = .dat := by
    intro p hp
    obtain ⟨x, hx, rfl⟩ := List.mem_map.mp hp
    rcases hn.dats x hx with h | h
    · rw [hf a] at h
      cases h
    · exact h
  have hna : ∀ p ∈ n.handed.map Handed.pkt, p.ext.type.isAcknak = false := fun p hp => by
    rw [hd p hp]
    rfl
  obtain ⟨h₁, h₂, ⟨ms, hw, hr, hm⟩, ⟨es, hl, he⟩⟩ :=
    foldl_transmit_leaves a hna { s with nodes := Function.update s.nodes a n.flush }
  refine ⟨⟨n.flush, h₁, hn.canconRmt, rfl⟩, h₂, ⟨ms, hw, fun x hx => ?_⟩, ⟨es, hl, fun e hx => ?_⟩⟩
  · have ha : x.pkt.ext.type.isAcknak = false := by
      have := List.filter_eq_nil_iff.mp hr x hx
      simpa using this
    obtain ⟨h₃, h₄, h₅⟩ := hm x hx ha
    exact ⟨hd _ h₃, h₄, h₅⟩
  · obtain ⟨o, h₃, h₄, h₅, h₆, _⟩ := he e hx
    exact ⟨o, h₃, h₄, h₅, hd _ h₆⟩

theorem Delivers.rmt {s u : Net P} {i : Nat} {m : Msg P} (h : Delivers s i m u) (a : Canhostname) :
    (u.nodes a).canconRmt =
      if a = m.dst then nextRmt m.pkt (s.nodes m.dst).canconRmt else (s.nodes a).canconRmt := by
  rw [h.nodes]
  split_ifs with ha
  · subst ha
    rw [Function.update_self]
    exact canobjPacket_rmt m.pkt _
  · rw [Function.update_of_ne ha]

theorem Delivers.fdq {s u : Net P} {i : Nat} {m : Msg P} (hd : Delivers s i m u) (p : P) :
    (u.procs p).threads = (s.procs p).threads ∧
      ((u.procs p).fdq = (s.procs p).fdq ∨
        ((s.procs p).home = m.dst ∧ (u.procs p).fdq = (s.procs p).fdq ++ [m])) ∧
      ((s.procs p).home = m.dst → m.pkt.ext.type.isAcknak = true →
        (u.procs p).fdq = (s.procs p).fdq ++ [m]) := by
  obtain ⟨given, hp, hg⟩ := hd.procs
  rw [hp]
  by_cases hh : (s.procs p).home = m.dst ∧ given = true
  · simp [giveFiles, hh]
  · have hn : giveFiles m.dst m given s.procs p = s.procs p := by simp only [giveFiles, if_neg hh]
    rw [hn]
    exact ⟨rfl, .inl rfl, fun h ha => absurd ⟨h, hg ha⟩ hh⟩

theorem Outputs.rmt {s u : Net P} {b : Canhostname} (h : Outputs s b u) (a : Canhostname) :
    (u.nodes a).canconRmt = (s.nodes a).canconRmt := by
  obtain ⟨n, hn, hrmt, _⟩ := h.nodes
  rw [hn]
  rcases eq_or_ne a b with rfl | hne
  · rw [Function.update_self, hrmt]
  · rw [Function.update_of_ne hne]

def sentPkt (s : Net P) (p : P) (ext : CanHeaderExt) (dat : Option CanDat) (len : Nat) : CanPacket :=
  fixup (s.nodes (s.procs p).home)
    (canSendPkt (s.procs p).cfg.nodeid (s.procs p).cfg.stack ext dat len)

def sentBy (s : Net P) (p : P) (ext : CanHeaderExt) (dat : Option CanDat) (len : Nat) : Origin P :=
  ⟨(s.procs p).home, some p, s.requests, sentPkt s p ext dat len⟩

def nextSend (s : Net P) (p : P) (i : Nat) : Option CanPacket :=
  match (s.procs p).threads[i]? with
  | some (.op (.canSend ext dat len) _) => some (sentPkt s p ext dat len)
  | _ => none

theorem nextSend_eq {s : Net P} {p : P} {i : Nat} {ext : CanHeaderExt} {dat : Option CanDat}
    {len : Nat} {k : Unit → CanProg Int}
    (h : (s.procs p).threads[i]? = some (.op (.canSend ext dat len) k)) :
    nextSend s p i = some (sentPkt s p ext dat len) := by
  simp only [nextSend, h]

theorem append_eq_append_cons {α : Type} {l es pre post : List α} {x : α}
    (h : l ++ es = pre ++ x :: post) :
    (∃ as, pre = l ++ as ∧ es = as ++ x :: post) ∨ ∃ bs, l = pre ++ x :: bs ∧ post = bs ++ es := by
  rcases List.append_eq_append_iff.mp h with ⟨as, h₁, h₂⟩ | ⟨bs, h₁, h₂⟩
  · exact .inl ⟨as, h₁, h₂⟩
  · cases bs with
    | nil => exact .inl ⟨[], by simpa using h₁.symm, by simpa using h₂.symm⟩
    | cons y bs =>
      rw [List.cons_append, List.cons.injEq] at h₂
      exact .inr ⟨bs, by rw [h₁, h₂.1], h₂.2⟩

/-- Every packet in flight meets `W`, every packet in the ring of a file `F`
and every buffered reply `B`. -/
structure Items (W : Msg P → Prop) (F : P → Msg P → Prop) (B : P → AckPkt P → Prop) (s : Net P) :
    Prop where
  wire : ∀ m ∈ s.wire, W m
  fdq : ∀ p, ∀ m ∈ (s.procs p).fdq, F p m
  ackbuf : ∀ p, ∀ e ∈ (s.procs p).ackbuf, B p e

theorem Items.mono {W : Msg P → Prop} {F : P → Msg P → Prop} {B : P → AckPkt P → Prop} {s : Net P}
    {W' : Msg P → Prop} {F' : P → Msg P → Prop} {B' : P → AckPkt P → Prop}
    (h : Items W F B s) (hW : ∀ m, W m → W' m) (hF : ∀ p m, F p m → F' p m)
    (hB : ∀ p e, B p e → B' p e) : Items W' F' B' s :=
  ⟨fun m hm => hW m (h.wire m hm), fun p m hm => hF p m (h.fdq p m hm),
    fun p e he => hB p e (h.ackbuf p e he)⟩

theorem mem_signalAcknak {m : Msg P} {buf : List (AckPkt P)} {e : AckPkt P}
    (h : e ∈ signalAcknak m buf) : e ∈ buf ∨ e = ⟨m.pkt.ext, m.pkt.dat, m.origin⟩ := by
  unfold signalAcknak at h
  split_ifs at h
  · rcases List.mem_append.mp h with h | h
    · exact .inl h
    · exact .inr (List.mem_singleton.mp h)
  · exact .inl h

theorem mem_of_scanAckbuf {target : CanHeaderExt} {buf : List (AckPkt P)} {e : AckPkt P}
    (h : scanAckbuf target buf = some e) : e ∈ buf ∧ isOurAcknak e.ext target = true :=
  List.mem_filter.mp (List.mem_of_getLast? h)

variable [DecidableEq P]

/-- The steps by what they do. -/
inductive Effect (s : Net P) : Label P → Net P → Prop where
  | send {p : P} {i : Nat} {ext : CanHeaderExt} {dat : Option CanDat} {len : Nat}
      {k : Unit → CanProg Int} (h : (s.procs p).threads[i]? = some (.op (.canSend ext dat len) k)) :
      Effect s (.run p i)
        ((s.transmit (s.procs p).home (some p) (sentPkt s p ext dat len)).setProc p
          ((s.procs p).setThread i (k ())))
  | setConsole {p : P} {i : Nat} {ext : CanHeaderExt} {k : Unit → CanProg Int}
      (h : (s.procs p).threads[i]? = some (.op (.setConsoleObject ext) k)) :
      Effect s (.run p i)
        (s.setProc p { (s.procs p).setThread i (k ()) with consoleObject := ext })
  | getConsole {p : P} {i : Nat} {k : CanHeaderExt → CanProg Int}
      (h : (s.procs p).threads[i]? = some (.op .getConsoleObject k)) :
      Effect s (.run p i)
        (s.setProc p ((s.procs p).setThread i (k (s.procs p).consoleObject)))
  | found {p : P} {i : Nat} {timedout : Bool} {target : CanHeaderExt} {dat : CanDat}
      {k : Acknak × CanDat → CanProg Int} {e : AckPkt P}
      (h : (s.procs p).threads[i]? = some (.op (.waitforAcknak target dat) k))
      (he : scanAckbuf target (s.procs p).ackbuf = some e) :
      Effect s (.scan p i timedout)
        { s.setProc p { (s.procs p).setThread i (k (.ofType e.ext.type, e.dat)) with ackbuf := [] }
          with log := s.log ++ [.returned p target e.ext.type e.origin] }
  | timeout {p : P} {i : Nat} {target : CanHeaderExt} {dat : CanDat}
      {k : Acknak × CanDat → CanProg Int}
      (h : (s.procs p).threads[i]? = some (.op (.waitforAcknak target dat) k))
      (hn : scanAckbuf target (s.procs p).ackbuf = none) :
      Effect s (.scan p i true)
        (s.setProc p { (s.procs p).setThread i (k (.timedout, dat)) with ackbuf := [] })
  | discard {p : P} {i : Nat} {target : CanHeaderExt} {dat : CanDat}
      {k : Acknak × CanDat → CanProg Int}
      (h : (s.procs p).threads[i]? = some (.op (.waitforAcknak target dat) k))
      (hn : scanAckbuf target (s.procs p).ackbuf = none) :
      Effect s (.scan p i false) (s.setProc p { s.procs p with ackbuf := [] })
  | recvFound {p : P} {i : Nat} {ext : CanHeaderExt}
      {k : Option (CanType × CanDat × Int) → CanProg Int} {m : Msg P} {q : List (Msg P)}
      (h : (s.procs p).threads[i]? = some (.op (.canRecvAck ext) k))
      (hf : (s.procs p).fdq = m :: q) (ht : m.pkt.ext.type.isAcknak = true)
      (hm : isOurAcknak m.pkt.ext ext = true) :
      Effect s (.recvAck p i)
        { s.setProc p { (s.procs p).setThread i (k (some (m.pkt.ext.type, m.pkt.dat,
              (m.pkt.can.length.toNat : Int) - 4))) with fdq := q }
          with log := s.log ++ [.returned p ext m.pkt.ext.type m.origin] }
  | recvSkip {p : P} {i : Nat} {ext : CanHeaderExt}
      {k : Option (CanType × CanDat × Int) → CanProg Int} {m : Msg P} {q : List (Msg P)}
      (h : (s.procs p).threads[i]? = some (.op (.canRecvAck ext) k))
      (hf : (s.procs p).fdq = m :: q) :
      Effect s (.recvAck p i) (s.setProc p { s.procs p with fdq := q })
  | interrupt {p : P} {i : Nat} {ext : CanHeaderExt}
      {k : Option (CanType × CanDat × Int) → CanProg Int}
      (h : (s.procs p).threads[i]? = some (.op (.canRecvAck ext) k)) :
      Effect s (.interrupt p i) (s.setProc p ((s.procs p).setThread i (k none)))
  | readAcknak {p : P} {m : Msg P} {q : List (Msg P)} (hf : (s.procs p).fdq = m :: q)
      (ht : m.pkt.ext.type.isAcknak = true) :
      Effect s (.read p)
        (s.setProc p
          { s.procs p with fdq := q, ackbuf := signalAcknak m (s.procs p).ackbuf })
  | readDat {p : P} {m : Msg P} {q : List (Msg P)} (hf : (s.procs p).fdq = m :: q)
      (ht : m.pkt.ext.type = .dat) (he : m.pkt.ext = (s.procs p).consoleObject) :
      Effect s (.read p)
        ((s.setProc p { s.procs p with fdq := q }).answer m
          (canAckPkt (s.procs p).cfg.stack m.pkt none 0 .ack))
  | readStolen {p : P} {m : Msg P} {q : List (Msg P)} (hf : (s.procs p).fdq = m :: q)
      (ht : m.pkt.ext.type = .wo) (ho : m.pkt.ext.object = Canobj.forceDisconn)
      (hd : m.pkt.dat = (s.procs p).consoleObject.extDat) :
      Effect s (.read p)
        ((s.setProc p { s.procs p with
            fdq := q, threads := (s.procs p).threads ++ [disconnect (s.procs p).cfg] }).answer m
          (canAckPkt (s.procs p).cfg.stack m.pkt (some 1) 4 .ack))
  | readSkip {p : P} {m : Msg P} {q : List (Msg P)} (hf : (s.procs p).fdq = m :: q)
      (ht : m.pkt.ext.type.isAcknak = false) :
      Effect s (.read p) (s.setProc p { s.procs p with fdq := q })
  | deliver {i : Nat} {m : Msg P} {u : Net P} (hm : s.wire[i]? = some m) (h : Delivers s i m u) :
      Effect s (.deliver i) u
  | lose {i : Nat} {m : Msg P} (hm : s.wire[i]? = some m) :
      Effect s (.lose i) { s with wire := s.wire.eraseIdx i }
  | overflow {p : P} :
      Effect s (.overflow p) (s.setProc p { s.procs p with fdq := (s.procs p).fdq.dropLast })
  | spawn {p : P} {t : Task} (h : (s.procs p).threads[0]? = some (.pure 0)) :
      Effect s (.spawn p t) (s.setProc p
        { s.procs p with threads := (s.procs p).threads ++ [t.prog (s.procs p).cfg] })
  | output {l : Label P} {a : Canhostname} {u : Net P}
      (hl : (∃ m, l = .printk a m) ∨ l = .ackTimeout a) (h : Outputs s a u) : Effect s l u

theorem runThread_effect {s u : Net P} {p : P} {i : Nat} (h : runThread p i s = some u) :
    Effect s (.run p i) u := by
  simp only [runThread] at h
  split at h
  · rename_i ht
    rw [← Option.some.inj h]
    exact .send ht
  · rename_i ht
    rw [← Option.some.inj h]
    exact .setConsole ht
  · rename_i ht
    rw [← Option.some.inj h]
    exact .getConsole ht
  · cases h

theorem scanThread_effect {s u : Net P} {p : P} {i : Nat} {timedout : Bool}
    (h : scanThread p i timedout s = some u) : Effect s (.scan p i timedout) u := by
  simp only [scanThread] at h
  split at h
  · rename_i ht
    split at h
    · rename_i he
      rw [← Option.some.inj h]
      exact .found ht he
    · rename_i he
      cases timedout with
      | true =>
        rw [← Option.some.inj h]
        exact .timeout ht he
      | false =>
        rw [← Option.some.inj h]
        exact .discard ht he
  · cases h

theorem recvAckThread_effect {s u : Net P} {p : P} {i : Nat} (h : recvAckThread p i s = some u) :
    Effect s (.recvAck p i) u := by
  simp only [recvAckThread] at h
  split at h
  · rename_i ht hf
    split_ifs at h with hm
    · rw [← Option.some.inj h]
      exact .recvFound ht hf hm.1 hm.2
    · rw [← Option.some.inj h]
      exact .recvSkip ht hf
  · cases h

theorem readerStep_effect {s : Net P} {p : P} {m : Msg P} {q : List (Msg P)}
    (hf : (s.procs p).fdq = m :: q) :
    Effect s (.read p) (readerStep p m { s.procs p with fdq := q } s) := by
  unfold readerStep
  split
  · rename_i ht
    exact .readAcknak hf (by rw [ht]; rfl)
  · rename_i ht
    exact .readAcknak hf (by rw [ht]; rfl)
  · rename_i ht
    split_ifs with he
    · exact .readDat hf ht he
    · exact .readSkip hf (by rw [ht]; rfl)
  · rename_i ht
    split_ifs with he
    · exact .readStolen hf ht he.1 he.2
    · exact .readSkip hf (by rw [ht]; rfl)
  · rename_i ha hn _ _
    refine .readSkip hf ?_
    cases ht : m.pkt.ext.type with
    | ack => exact absurd ht ha
    | nak => exact absurd ht hn
    | _ => rfl

theorem NetStep.effect {s u : Net P} {l : Label P} (hf : Flushed s) (h : NetStep s l u) :
    Effect s l u := by
  cases l with
  | run p i => exact runThread_effect h
  | scan p i timedout => exact scanThread_effect h
  | recvAck p i => exact recvAckThread_effect h
  | interrupt p i =>
    simp only [NetStep, Net.step] at h
    split at h
    · rename_i ht
      rw [← Option.some.inj h]
      exact .interrupt ht
    · cases h
  | read p =>
    simp only [NetStep, Net.step] at h
    split at h
    · rename_i hq
      rw [← Option.some.inj h]
      exact readerStep_effect hq
    · cases h
  | deliver i =>
    simp only [NetStep, Net.step] at h
    split at h
    · rename_i m hm
      split_ifs at h with hh
      rw [← Option.some.inj h]
      exact .deliver hm (dispatch_delivers hf i (by simpa using hh))
    · cases h
  | lose i =>
    simp only [NetStep, Net.step] at h
    split_ifs at h with hi
    rw [← Option.some.inj h]
    exact .lose (List.getElem?_eq_getElem hi)
  | overflow p =>
    rw [← Option.some.inj h]
    exact .overflow
  | spawn p t =>
    simp only [NetStep, Net.step] at h
    split at h
    · rename_i ht
      rw [← Option.some.inj h]
      exact .spawn ht
    · cases h
  | printk a m =>
    rw [← Option.some.inj h]
    exact .output (.inl ⟨m, rfl⟩) (output_outputs hf (printk_prints m _))
  | ackTimeout a =>
    rw [← Option.some.inj h]
    exact .output (.inr rfl) (output_outputs hf (canconRecvAck_prints true _))

theorem Effect.flushed {s u : Net P} {l : Label P} (hf : Flushed s) (h : Effect s l u) :
    Flushed u := by
  intro a
  cases h with
  | @deliver _ m _ _ h =>
    rw [h.nodes]
    rcases eq_or_ne a m.dst with rfl | hne
    · rw [Function.update_self]
      rfl
    · rw [Function.update_of_ne hne, hf a]
  | @output _ b _ _ h =>
    obtain ⟨n, hn, _, hh⟩ := h.nodes
    rw [hn]
    rcases eq_or_ne a b with rfl | hne
    · rw [Function.update_self, hh]
    · rw [Function.update_of_ne hne, hf a]
  | _ => exact hf a

theorem Effect.cfg {s u : Net P} {l : Label P} (h : Effect s l u) (p : P) :
    (u.procs p).cfg = (s.procs p).cfg := by
  have hset : ∀ (q : P) (x : Proc P), x.cfg = (s.procs q).cfg →
      (Function.update s.procs q x p).cfg = (s.procs p).cfg := fun q x hx => by
    rcases eq_or_ne p q with rfl | hne
    · rw [Function.update_self, hx]
    · rw [Function.update_of_ne hne]
  cases h with
  | deliver _ h =>
    obtain ⟨given, hp, _⟩ := h.procs
    rw [hp]
    unfold giveFiles
    split_ifs <;> rfl
  | lose _ => rfl
  | output _ h => rw [h.procs]
  | _ => exact hset _ _ rfl

theorem Effect.home {s u : Net P} {l : Label P} (h : Effect s l u) (p : P) :
    (u.procs p).home = (s.procs p).home := by
  rw [Proc.home, h.cfg p, Proc.home]

theorem Effect.log_prefix {s u : Net P} {l : Label P} (h : Effect s l u) : s.log <+: u.log := by
  cases h with
  | send _ => exact List.prefix_append _ _
  | found _ _ => exact List.prefix_append _ _
  | recvFound _ _ _ _ => exact List.prefix_append _ _
  | deliver _ h =>
    obtain ⟨es, hl, _⟩ := h.log
    exact ⟨_, hl.symm⟩
  | output _ h =>
    obtain ⟨es, hl, _⟩ := h.log
    exact ⟨_, hl.symm⟩
  | _ => exact List.prefix_rfl

/-- Only the two calls that return a reply log one, and they take it from the
buffer or from the ring of the file. -/
theorem Effect.log_cases {s u : Net P} {l : Label P} (h : Effect s l u) :
    (∃ es, u.log = s.log ++ es ∧ ∀ e ∈ es, ∀ p t ty o, e ≠ .returned p t ty o) ∨
    (∃ p t, ∃ e : AckPkt P, u.log = s.log ++ [.returned p t e.ext.type e.origin] ∧
      isOurAcknak e.ext t = true ∧ (e ∈ (s.procs p).ackbuf ∨
        ∃ m ∈ (s.procs p).fdq, m.pkt.ext.type.isAcknak = true ∧
          e = ⟨m.pkt.ext, m.pkt.dat, m.origin⟩)) := by
  cases h with
  | send _ =>
    refine .inl ⟨_, rfl, fun e he p t ty o => ?_⟩
    rw [List.mem_singleton.mp he]
    nofun
  | found _ he =>
    obtain ⟨hb, hm⟩ := mem_of_scanAckbuf he
    exact .inr ⟨_, _, _, rfl, hm, .inl hb⟩
  | @recvFound p _ ext _ m _ _ hf ht hm =>
    refine .inr ⟨p, ext, ⟨m.pkt.ext, m.pkt.dat, m.origin⟩, rfl, hm, .inr ⟨m, ?_, ht, rfl⟩⟩
    rw [hf]
    exact List.mem_cons_self
  | deliver _ h =>
    obtain ⟨es, hl, he⟩ := h.log
    refine .inl ⟨_, hl, fun e hx p t ty o hc => ?_⟩
    rcases List.mem_cons.mp hx with rfl | hx
    · cases hc
    · obtain ⟨o', rfl, _⟩ := he e hx
      cases hc
  | output _ h =>
    obtain ⟨es, hl, he⟩ := h.log
    refine .inl ⟨_, hl, fun e hx p t ty o hc => ?_⟩
    obtain ⟨o', rfl, _⟩ := he e hx
    cases hc
  | _ => exact .inl ⟨[], (List.append_nil _).symm, fun e he => absurd he List.not_mem_nil⟩

theorem Effect.dispatch_cases {s u : Net P} {l : Label P} (h : Effect s l u) :
    (∃ es, u.log = s.log ++ es ∧ (∀ e ∈ es, ∀ a m r r', e ≠ .dispatched a m r r') ∧
      ∀ a, (u.nodes a).canconRmt = (s.nodes a).canconRmt) ∨
    ∃ i m es, l = .deliver i ∧ s.wire[i]? = some m ∧
      u.log = s.log ++ .dispatched m.dst m (s.nodes m.dst).canconRmt
        (nextRmt m.pkt (s.nodes m.dst).canconRmt) :: es ∧
      (∀ e ∈ es, ∀ a m r r', e ≠ .dispatched a m r r') ∧
      ∀ a, (u.nodes a).canconRmt =
        if a = m.dst then nextRmt m.pkt (s.nodes m.dst).canconRmt else (s.nodes a).canconRmt := by
  have hone : ∀ {x : Event P}, (∀ a m r r', x ≠ .dispatched a m r r') →
      ∀ e ∈ [x], ∀ a m r r', e ≠ .dispatched a m r r' := fun hx e he => by
    rw [List.mem_singleton.mp he]
    exact hx
  cases h with
  | send _ => exact .inl ⟨_, rfl, hone (fun _ _ _ _ h => by cases h), fun _ => rfl⟩
  | found _ _ => exact .inl ⟨_, rfl, hone (fun _ _ _ _ h => by cases h), fun _ => rfl⟩
  | recvFound _ _ _ _ => exact .inl ⟨_, rfl, hone (fun _ _ _ _ h => by cases h), fun _ => rfl⟩
  | deliver hm hd =>
    obtain ⟨es, hl, he⟩ := hd.log
    refine .inr ⟨_, _, es, rfl, hm, hl, fun e hx a m r r' hc => ?_, hd.rmt⟩
    obtain ⟨o, rfl, _⟩ := he e hx
    cases hc
  | output _ ho =>
    obtain ⟨es, hl, he⟩ := ho.log
    refine .inl ⟨es, hl, fun e hx a m r r' hc => ?_, ho.rmt⟩
    obtain ⟨o, rfl, _⟩ := he e hx
    cases hc
  | _ =>
    exact .inl ⟨[], (List.append_nil _).symm, fun e he => absurd he List.not_mem_nil, fun _ => rfl⟩

theorem Effect.sent_mem {s u : Net P} {p : P} {i : Nat} {ext : CanHeaderExt}
    {dat : Option CanDat} {len : Nat} {k : Unit → CanProg Int} (h : Effect s (.run p i) u)
    (ht : (s.procs p).threads[i]? = some (.op (.canSend ext dat len) k)) :
    .sent (sentBy s p ext dat len) ∈ u.log := by
  cases h with
  | send h =>
    rw [ht, Option.some.injEq, Prog.op.injEq, CanOp.canSend.injEq] at h
    obtain ⟨⟨rfl, rfl, rfl⟩, _⟩ := h
    exact List.mem_append_right _ (List.mem_singleton_self _)
  | setConsole h => rw [ht] at h; cases h
  | getConsole h => rw [ht] at h; cases h
  | output hl _ => rcases hl with ⟨m, hl⟩ | hl <;> cases hl

/-- The requests logged by a step: console output of a node, or the packet that
the running thread sends. -/
theorem Effect.sent_cases {s u : Net P} {l : Label P} (h : Effect s l u) {o : Origin P}
    (ho : .sent o ∈ u.log) :
    .sent o ∈ s.log ∨ (o.sender = none ∧ o.pkt.ext.type = .dat) ∨
    ∃ p i ext dat len k, l = .run p i ∧
      (s.procs p).threads[i]? = some (.op (.canSend ext dat len) k) ∧
      o = sentBy s p ext dat len := by
  cases h with
  | send h =>
    rcases List.mem_append.mp ho with ho | ho
    · exact .inl ho
    · have he := List.mem_singleton.mp ho
      rw [Event.sent.injEq] at he
      exact .inr (.inr ⟨_, _, _, _, _, _, rfl, h, he⟩)
  | found _ _ =>
    rcases List.mem_append.mp ho with ho | ho
    · exact .inl ho
    · cases List.mem_singleton.mp ho
  | recvFound _ _ _ _ =>
    rcases List.mem_append.mp ho with ho | ho
    · exact .inl ho
    · cases List.mem_singleton.mp ho
  | deliver _ h =>
    obtain ⟨es, hl, he⟩ := h.log
    rw [hl] at ho
    rcases List.mem_append.mp ho with ho | ho
    · exact .inl ho
    · rcases List.mem_cons.mp ho with ho | ho
      · cases ho
      · obtain ⟨o', heq, h₁, _, h₂⟩ := he _ ho
        rw [Event.sent.injEq] at heq
        subst heq
        exact .inr (.inl ⟨h₁, h₂⟩)
  | output _ h =>
    obtain ⟨es, hl, he⟩ := h.log
    rw [hl] at ho
    rcases List.mem_append.mp ho with ho | ho
    · exact .inl ho
    · obtain ⟨o', heq, h₁, _, h₂⟩ := he _ ho
      rw [Event.sent.injEq] at heq
      subst heq
      exact .inr (.inl ⟨h₁, h₂⟩)
  | _ => exact .inl ho

def CanOp.isLocal : CanOp → Bool
  | .canSend _ _ _ => false
  | .waitforAcknak _ _ => false
  | _ => true

inductive ThreadStep (s : Net P) (l : Label P) (u : Net P) (q : P) : Prop where
  | same (hl : ∀ i, l ≠ .run q i) (hs : ∀ i b, l ≠ .scan q i b)
      (h : (u.procs q).threads = (s.procs q).threads)
  | discard {i : Nat} {target : CanHeaderExt} {dat : CanDat} {k : Acknak × CanDat → CanProg Int}
      (hl : l = .scan q i false)
      (h : (s.procs q).threads[i]? = some (.op (.waitforAcknak target dat) k))
      (hn : scanAckbuf target (s.procs q).ackbuf = none)
      (hu : (u.procs q).threads = (s.procs q).threads)
  | send {i : Nat} {ext : CanHeaderExt} {dat : Option CanDat} {len : Nat}
      {k : Unit → CanProg Int} (hl : l = .run q i)
      (h : (s.procs q).threads[i]? = some (.op (.canSend ext dat len) k))
      (hu : (u.procs q).threads = (s.procs q).threads.set i (k ()))
  | wait {i : Nat} {target : CanHeaderExt} {dat : CanDat} {k : Acknak × CanDat → CanProg Int}
      {r : Acknak × CanDat} {timedout : Bool} (hl : l = .scan q i timedout)
      (h : (s.procs q).threads[i]? = some (.op (.waitforAcknak target dat) k))
      (hu : (u.procs q).threads = (s.procs q).threads.set i (k r))
      (hr : (∃ e, scanAckbuf target (s.procs q).ackbuf = some e ∧ r.1 = .ofType e.ext.type) ∨
        (scanAckbuf target (s.procs q).ackbuf = none ∧ r.1 = .timedout ∧ timedout = true))
  | other {i : Nat} {o : CanOp} {k : CanOp.Res o → CanProg Int} {r : CanOp.Res o}
      (hl : ∀ j, l = .run q j → j = i) (hs : ∀ j b, l ≠ .scan q j b) (ho : o.isLocal = true)
      (h : (s.procs q).threads[i]? = some (.op o k))
      (hu : (u.procs q).threads = (s.procs q).threads.set i (k r))
  | start (t : Task) (hl : ∀ i, l ≠ .run q i) (hs : ∀ i b, l ≠ .scan q i b)
      (hu : (u.procs q).threads = (s.procs q).threads ++ [t.prog (s.procs q).cfg])

theorem Effect.threadStep {s u : Net P} {l : Label P} (h : Effect s l u) (q : P) :
    ThreadStep s l u q := by
  have hself : ∀ x : Proc P, (Function.update s.procs q x q).threads = x.threads := fun x => by
    rw [Function.update_self]
  have hne : ∀ {p : P} (x : Proc P), q ≠ p →
      (Function.update s.procs p x q).threads = (s.procs q).threads := fun x hn => by
    rw [Function.update_of_ne hn]
  have hsame : ∀ {p : P} (x : Proc P), x.threads = (s.procs p).threads →
      (Function.update s.procs p x q).threads = (s.procs q).threads := fun {p} x hx => by
    rcases eq_or_ne q p with rfl | hn
    · rw [Function.update_self, hx]
    · rw [Function.update_of_ne hn]
  have hrun : ∀ {p : P} {i : Nat}, q ≠ p → ∀ j, Label.run p i ≠ .run q j := fun hn j he => by
    rw [Label.run.injEq] at he
    exact hn he.1.symm
  have hscan : ∀ {p : P} {i : Nat} {b : Bool}, q ≠ p → ∀ j b', Label.scan p i b ≠ .scan q j b' :=
    fun hn j b' he => by
      rw [Label.scan.injEq] at he
      exact hn he.1.symm
  cases h with
  | @send p i _ _ _ _ h =>
    rcases eq_or_ne q p with rfl | hn
    · exact .send rfl h (hself _)
    · exact .same (hrun hn) (fun _ _ hl => by cases hl) (hne _ hn)
  | @setConsole p _ _ _ h =>
    rcases eq_or_ne q p with rfl | hn
    · exact .other (fun j hj => (Label.run.inj hj).2.symm) (fun _ _ hl => by cases hl) rfl h
        (hself _)
    · exact .same (hrun hn) (fun _ _ hl => by cases hl) (hne _ hn)
  | @getConsole p _ _ h =>
    rcases eq_or_ne q p with rfl | hn
    · exact .other (fun j hj => (Label.run.inj hj).2.symm) (fun _ _ hl => by cases hl) rfl h
        (hself _)
    · exact .same (hrun hn) (fun _ _ hl => by cases hl) (hne _ hn)
  | @found p _ _ _ _ _ e h he =>
    rcases eq_or_ne q p with rfl | hn
    · exact .wait rfl h (hself _) (.inl ⟨e, he, rfl⟩)
    · exact .same (fun _ hl => by cases hl) (hscan hn) (hne _ hn)
  | @timeout p _ _ _ _ h hs =>
    rcases eq_or_ne q p with rfl | hn
    · exact .wait rfl h (hself _) (.inr ⟨hs, rfl, rfl⟩)
    · exact .same (fun _ hl => by cases hl) (hscan hn) (hne _ hn)
  | @discard p _ _ _ _ h hs =>
    rcases eq_or_ne q p with rfl | hn
    · exact .discard rfl h hs (hself _)
    · exact .same (fun _ hl => by cases hl) (hscan hn) (hne _ hn)
  | @recvFound p _ _ _ _ _ h _ _ _ =>
    rcases eq_or_ne q p with rfl | hn
    · exact .other (fun _ hl => by cases hl) (fun _ _ hl => by cases hl) rfl h (hself _)
    · exact .same (fun _ hl => by cases hl) (fun _ _ hl => by cases hl) (hne _ hn)
  | @interrupt p _ _ _ h =>
    rcases eq_or_ne q p with rfl | hn
    · exact .other (fun _ hl => by cases hl) (fun _ _ hl => by cases hl) rfl h (hself _)
    · exact .same (fun _ hl => by cases hl) (fun _ _ hl => by cases hl) (hne _ hn)
  | @readStolen p _ _ _ _ _ _ =>
    rcases eq_or_ne q p with rfl | hn
    · exact .start .disconnect (fun _ hl => by cases hl) (fun _ _ hl => by cases hl) (hself _)
    · exact .same (fun _ hl => by cases hl) (fun _ _ hl => by cases hl) (hne _ hn)
  | @spawn p t _ =>
    rcases eq_or_ne q p with rfl | hn
    · exact .start t (fun _ hl => by cases hl) (fun _ _ hl => by cases hl) (hself _)
    · exact .same (fun _ hl => by cases hl) (fun _ _ hl => by cases hl) (hne _ hn)
  | deliver _ h =>
    obtain ⟨given, hp, _⟩ := h.procs
    refine .same (fun _ hl => by cases hl) (fun _ _ hl => by cases hl) ?_
    rw [hp]
    unfold giveFiles
    split_ifs <;> rfl
  | lose _ => exact .same (fun _ hl => by cases hl) (fun _ _ hl => by cases hl) rfl
  | output hl h =>
    refine .same (fun i hr => ?_) (fun i b hr => ?_) (by rw [h.procs]) <;>
      rcases hl with ⟨m, rfl⟩ | rfl <;> cases hr
  | _ => exact .same (fun _ hl => by cases hl) (fun _ _ hl => by cases hl) (hsame _ rfl)

theorem Effect.forall_threads {s u : Net P} {l : Label P} (h : Effect s l u)
    {Q : P → CanProg Int → Prop} (hq : ∀ p, ∀ t ∈ (s.procs p).threads, Q p t)
    (hop : ∀ p o k r, Q p (.op o k) → Q p (k r))
    (hnew : ∀ p (t : Task), Q p (t.prog (s.procs p).cfg)) :
    ∀ p, ∀ t ∈ (u.procs p).threads, Q p t := by
  intro p t ht
  have hset : ∀ {i o k} (r : CanOp.Res o), (s.procs p).threads[i]? = some (.op o k) →
      (u.procs p).threads = (s.procs p).threads.set i (k r) → Q p t := fun r hi he => by
    rw [he] at ht
    rcases List.mem_or_eq_of_mem_set ht with ht | rfl
    · exact hq p t ht
    · exact hop p _ _ r (hq p _ (List.mem_of_getElem? hi))
  cases h.threadStep p with
  | same _ _ he => exact hq p t (he ▸ ht)
  | discard _ _ _ he => exact hq p t (he ▸ ht)
  | send _ hi he => exact hset _ hi he
  | wait _ hi he _ => exact hset _ hi he
  | other _ _ _ hi he => exact hset _ hi he
  | start task _ _ he =>
    rw [he] at ht
    rcases List.mem_append.mp ht with ht | ht
    · exact hq p t ht
    · rw [List.mem_singleton.mp ht]
      exact hnew p task

section Items

variable {W : Msg P → Prop} {F : P → Msg P → Prop} {B : P → AckPkt P → Prop} {s u : Net P}

theorem Items.setProc (h : Items W F B s) {p : P} {x : Proc P} (hf : ∀ m ∈ x.fdq, F p m)
    (hb : ∀ e ∈ x.ackbuf, B p e) : Items W F B (s.setProc p x) where
  wire := h.wire
  fdq q m hm := by
    simp only [Net.setProc] at hm
    rcases eq_or_ne q p with rfl | hne
    · rw [Function.update_self] at hm
      exact hf m hm
    · rw [Function.update_of_ne hne] at hm
      exact h.fdq q m hm
  ackbuf q e he := by
    simp only [Net.setProc] at he
    rcases eq_or_ne q p with rfl | hne
    · rw [Function.update_self] at he
      exact hb e he
    · rw [Function.update_of_ne hne] at he
      exact h.ackbuf q e he

def ReaderAcks (x : Proc P) (m : Msg P) : Prop :=
  (m.pkt.ext.type = .dat ∧ m.pkt.ext = x.consoleObject) ∨
    (m.pkt.ext.type = .wo ∧ m.pkt.ext.object = Canobj.forceDisconn)

/-- Where packets come from and where they go: what is kept at the sources and
along the way is kept by every step. -/
theorem Items.step {l : Label P} (hi : Items W F B s) (h : Effect s l u)
    (hsend : ∀ p i ext dat len k, l = .run p i →
      (s.procs p).threads[i]? = some (.op (.canSend ext dat len) k) →
      .sent (sentBy s p ext dat len) ∈ u.log →
      W ⟨(s.procs p).home, ext.addr, sentPkt s p ext dat len, sentBy s p ext dat len⟩)
    (hreply : ∀ i m, l = .deliver i → m ∈ s.wire →
      .dispatched m.dst m (s.nodes m.dst).canconRmt
        (nextRmt m.pkt (s.nodes m.dst).canconRmt) ∈ u.log →
      ∀ r ∈ replies m.pkt (s.nodes m.dst), W (m.reply r))
    (hout : ∀ a x, IsOutput a x → x.pkt.ext.type = .dat → .sent x.origin ∈ u.log → W x)
    (hgive : ∀ p, ∀ m ∈ s.wire, (s.procs p).home = m.dst → F p m)
    (hread : ∀ p, ∀ m ∈ (s.procs p).fdq, m.pkt.ext.type.isAcknak = true →
      B p ⟨m.pkt.ext, m.pkt.dat, m.origin⟩)
    (hack : ∀ p, ∀ m ∈ (s.procs p).fdq, ∀ pkt : CanPacket, ReaderAcks (s.procs p) m →
      pkt.ext = { m.pkt.ext with type := .ack } → W (m.reply pkt)) : Items W F B u := by
  have htail : ∀ {p m q}, (s.procs p).fdq = m :: q → ∀ y ∈ q, F p y := fun {p m q} hf y hy =>
    hi.fdq p y (by rw [hf]; exact List.mem_cons_of_mem _ hy)
  have hhead : ∀ {p m q}, (s.procs p).fdq = m :: q → m ∈ (s.procs p).fdq := fun {p m q} hf => by
    rw [hf]
    exact List.mem_cons_self
  have hwire : ∀ {t : Net P} {m}, Items W F B t → W m → Items W F B { t with wire := t.wire ++ [m] } :=
    fun {t m} ht hm => ⟨fun x hx => by
      rcases List.mem_append.mp hx with hx | hx
      · exact ht.wire x hx
      · rw [List.mem_singleton.mp hx]
        exact hm, ht.fdq, ht.ackbuf⟩
  have hnil : ∀ {p}, ∀ e ∈ ([] : List (AckPkt P)), B p e := fun e he =>
    absurd he List.not_mem_nil
  cases h with
  | @send p i ext dat len k h =>
    have hl : Event.sent (sentBy s p ext dat len) ∈ s.log ++ [.sent (sentBy s p ext dat len)] :=
      List.mem_append_right _ (List.mem_singleton_self _)
    have ht := (hwire hi (hsend p i ext dat len k rfl h hl)).setProc
      (x := (s.procs p).setThread i (k ())) (hi.fdq p) (hi.ackbuf p)
    exact ⟨ht.wire, ht.fdq, ht.ackbuf⟩
  | setConsole _ => exact hi.setProc (hi.fdq _) (hi.ackbuf _)
  | getConsole _ => exact hi.setProc (hi.fdq _) (hi.ackbuf _)
  | @found p i _ _ _ k e _ _ =>
    have ht := hi.setProc
      (x := { (s.procs p).setThread i (k (.ofType e.ext.type, e.dat)) with ackbuf := [] })
      (hi.fdq p) hnil
    exact ⟨ht.wire, ht.fdq, ht.ackbuf⟩
  | timeout _ _ => exact hi.setProc (hi.fdq _) hnil
  | discard _ _ => exact hi.setProc (hi.fdq _) hnil
  | @recvFound p i _ k m q _ hf _ _ =>
    have ht := hi.setProc
      (x := { (s.procs p).setThread i (k (some (m.pkt.ext.type, m.pkt.dat,
        (m.pkt.can.length.toNat : Int) - 4))) with fdq := q })
      (htail hf) (hi.ackbuf p)
    exact ⟨ht.wire, ht.fdq, ht.ackbuf⟩
  | recvSkip _ hf => exact hi.setProc (htail hf) (hi.ackbuf _)
  | interrupt _ => exact hi.setProc (hi.fdq _) (hi.ackbuf _)
  | readAcknak hf ht =>
    refine hi.setProc (htail hf) fun e he => ?_
    rcases mem_signalAcknak he with he | rfl
    · exact hi.ackbuf _ e he
    · exact hread _ _ (hhead hf) ht
  | readDat hf ht he =>
    exact hwire (hi.setProc (htail hf) (hi.ackbuf _))
      (hack _ _ (hhead hf) _ (.inl ⟨ht, he⟩) rfl)
  | readStolen hf ht ho _ =>
    exact hwire (hi.setProc (htail hf) (hi.ackbuf _))
      (hack _ _ (hhead hf) _ (.inr ⟨ht, ho⟩) rfl)
  | readSkip hf _ => exact hi.setProc (htail hf) (hi.ackbuf _)
  | @deliver i m _ hm h =>
    obtain ⟨given, hp, _⟩ := h.procs
    obtain ⟨ms, hw, hr, hk⟩ := h.wire
    obtain ⟨es, hl, _⟩ := h.log
    have hmem := List.mem_of_getElem? hm
    refine ⟨fun x hx => ?_, fun q x hx => ?_, fun q e he => ?_⟩
    · rw [hw] at hx
      rcases List.mem_append.mp hx with hx | hx
      · exact hi.wire x (List.mem_of_mem_eraseIdx hx)
      · cases ha : x.pkt.ext.type.isAcknak with
        | true =>
          have hx' : x ∈ ms.filter fun x => x.pkt.ext.type.isAcknak := List.mem_filter.mpr ⟨hx, ha⟩
          rw [hr] at hx'
          obtain ⟨r, hr', rfl⟩ := List.mem_map.mp hx'
          exact hreply i m rfl hmem (by rw [hl]; simp) r hr'
        | false =>
          obtain ⟨h₁, h₂, h₃⟩ := hk x hx ha
          exact hout _ x h₂ h₁ h₃
    · rw [hp] at hx
      unfold giveFiles at hx
      split_ifs at hx with hc
      · rcases List.mem_append.mp hx with hx | hx
        · exact hi.fdq q x hx
        · rw [List.mem_singleton.mp hx]
          exact hgive q m hmem hc.1
      · exact hi.fdq q x hx
    · rw [hp] at he
      unfold giveFiles at he
      split_ifs at he <;> exact hi.ackbuf q e he
  | lose _ => exact ⟨fun x hx => hi.wire x (List.mem_of_mem_eraseIdx hx), hi.fdq, hi.ackbuf⟩
  | overflow => exact hi.setProc (fun m hm => hi.fdq _ m (List.dropLast_subset _ hm)) (hi.ackbuf _)
  | spawn _ => exact hi.setProc (hi.fdq _) (hi.ackbuf _)
  | output _ h =>
    obtain ⟨ms, hw, hk⟩ := h.wire
    refine ⟨fun x hx => ?_, fun q x hx => ?_, fun q e he => ?_⟩
    · rw [hw] at hx
      rcases List.mem_append.mp hx with hx | hx
      · exact hi.wire x hx
      · obtain ⟨h₁, h₂, h₃⟩ := hk x hx
        exact hout _ x h₂ h₁ h₃
    · rw [h.procs] at hx
      exact hi.fdq q x hx
    · rw [h.procs] at he
      exact hi.ackbuf q e he

end Items

end MeikoCs2
