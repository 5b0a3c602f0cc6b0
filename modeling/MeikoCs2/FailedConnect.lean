import MeikoCs2.ConnectPhases
import Mathlib.Data.List.Perm.Basic

/-! What a failed connect leaves behind. `connect_protocol` gives up on its WO
when no answer comes, although the WO may have been accepted. Where the ACK is
not lost and a wait for it does not end too early, a cancon that gives up does
not stand recorded as the console. -/

namespace MeikoCs2

def IsWoAck (ext : CanHeaderExt) (o : Origin Unit) : Prop := ext.type = .ack ∧ IsConnect o.pkt

/-- The console of `T` is not the one of a cancon that has given up. -/
def FailedClean (T : Canhostname) (s : Net Unit) : Prop :=
  mainResult (s.procs ()) = some (-1) →
    (s.nodes T).canconRmt ≠ (s.procs ()).cfg.consoleObject

/-- Neither a WO nor an answer to one is in flight or unread. -/
def WoSettled (s : Net Unit) : Prop :=
  (∀ m ∈ s.wire, ¬ IsConnect m.origin.pkt) ∧
    ∀ m ∈ (s.procs ()).fdq, m.pkt.ext.type.isAcknak = true → ¬ IsConnect m.origin.pkt

/-- The ACK to the WO is not lost: on the CAN, in the ring of the file, in a
full `ackbuf` or to another thread. And the main thread does not time out
before the WO is settled. -/
def Heard (s : Net Unit) : Label Unit → Prop
  | .lose i => ∀ m ∈ s.wire[i]?, ¬ IsWoAck m.pkt.ext m.origin
  | .overflow _ => ∀ m ∈ (s.procs ()).fdq.getLast?, ¬ IsWoAck m.pkt.ext m.origin
  | .read _ => ∀ m ∈ (s.procs ()).fdq.head?, IsWoAck m.pkt.ext m.origin →
    (s.procs ()).ackbuf.length < ackbufLen
  | .scan _ i timedout => (i = 0 → timedout = true → WoSettled s) ∧
    (i ≠ 0 → ∀ e ∈ (s.procs ()).ackbuf, ¬ IsWoAck e.ext e.origin)
  | _ => True

def woWire (w : List (Msg Unit)) : List CanHeaderExt :=
  (w.filter fun m => IsConnect m.origin.pkt).map fun m => m.pkt.ext

def woFdq (f : List (Msg Unit)) : List CanHeaderExt :=
  (f.filter fun m => m.pkt.ext.type.isAcknak ∧ IsConnect m.origin.pkt).map fun m => m.pkt.ext

def woBuf (b : List (AckPkt Unit)) : List CanHeaderExt :=
  (b.filter fun e => IsConnect e.origin.pkt).map fun e => e.ext

def pending (s : Net Unit) : List CanHeaderExt :=
  woWire s.wire ++ (woFdq (s.procs ()).fdq ++ woBuf (s.procs ()).ackbuf)

@[simp] theorem woWire_append (w w' : List (Msg Unit)) : woWire (w ++ w') = woWire w ++ woWire w' := by
  simp [woWire]

@[simp] theorem woFdq_append (f f' : List (Msg Unit)) : woFdq (f ++ f') = woFdq f ++ woFdq f' := by
  simp [woFdq]

@[simp] theorem woBuf_append (b b' : List (AckPkt Unit)) :
    woBuf (b ++ b') = woBuf b ++ woBuf b' := by
  simp [woBuf]

theorem woWire_eq_nil {w : List (Msg Unit)} (h : ∀ m ∈ w, ¬ IsConnect m.origin.pkt) :
    woWire w = [] := by
  rw [woWire, List.filter_eq_nil_iff.mpr (by simpa using h), List.map_nil]

theorem woFdq_eq_nil {f : List (Msg Unit)}
    (h : ∀ m ∈ f, m.pkt.ext.type.isAcknak = true → ¬ IsConnect m.origin.pkt) : woFdq f = [] := by
  rw [woFdq, List.filter_eq_nil_iff.mpr (by simpa using h), List.map_nil]

theorem woBuf_eq_nil {b : List (AckPkt Unit)} (h : ∀ e ∈ b, ¬ IsConnect e.origin.pkt) :
    woBuf b = [] := by
  rw [woBuf, List.filter_eq_nil_iff.mpr (by simpa using h), List.map_nil]

theorem mem_woWire {w : List (Msg Unit)} {m : Msg Unit} (h : m ∈ w) (hc : IsConnect m.origin.pkt) :
    m.pkt.ext ∈ woWire w :=
  List.mem_map_of_mem (List.mem_filter.mpr ⟨h, by simpa using hc⟩)

theorem mem_woBuf {b : List (AckPkt Unit)} {e : AckPkt Unit} (h : e ∈ b)
    (hc : IsConnect e.origin.pkt) : e.ext ∈ woBuf b :=
  List.mem_map_of_mem (List.mem_filter.mpr ⟨h, by simpa using hc⟩)

theorem perm_cons_woWire {w : List (Msg Unit)} {i : Nat} {m : Msg Unit} (h : w[i]? = some m) :
    (woWire w).Perm (woWire [m] ++ woWire (w.eraseIdx i)) := by
  have hp : w.Perm ([m] ++ w.eraseIdx i) := by
    obtain ⟨hi, rfl⟩ := List.getElem?_eq_some_iff.mp h
    exact (List.getElem_cons_eraseIdx_perm hi).symm
  rw [← woWire_append]
  exact (hp.filter _).map _

/-- Nothing is added, and an ACK stays. -/
structure Shrinks (l l' : List CanHeaderExt) : Prop where
  length : l'.length ≤ l.length
  ack : (∃ x ∈ l, x.type = .ack) → ∃ x ∈ l', x.type = .ack

theorem Shrinks.of_perm {l l' : List CanHeaderExt} (h : l.Perm l') : Shrinks l l' where
  length := Nat.le_of_eq h.length_eq.symm
  ack := fun ⟨x, hx, ha⟩ => ⟨x, h.mem_iff.mp hx, ha⟩

theorem Shrinks.of_drop {a d r l l' : List CanHeaderExt} (hl : l.Perm (d ++ r))
    (hl' : l'.Perm (a ++ r)) (hlen : a.length ≤ d.length) (hd : ∀ x ∈ d, x.type ≠ .ack) :
    Shrinks l l' where
  length := by
    rw [hl.length_eq, hl'.length_eq]
    simpa using hlen
  ack := by
    rintro ⟨x, hx, ha⟩
    rcases List.mem_append.mp (hl.mem_iff.mp hx) with hx | hx
    · exact absurd ha (hd x hx)
    · exact ⟨x, hl'.mem_iff.mpr (List.mem_append_right _ hx), ha⟩

theorem mem_woBuf_ack {b : List (AckPkt Unit)} (h : ∀ e ∈ b, ¬ IsWoAck e.ext e.origin) :
    ∀ x ∈ woBuf b, x.type ≠ .ack := by
  intro x hx ha
  obtain ⟨e, he, rfl⟩ := List.mem_map.mp hx
  obtain ⟨he, hc⟩ := List.mem_filter.mp he
  exact h e he ⟨ha, by simpa using hc⟩

variable {T : Canhostname} {g : Unit → Phase} {s u : Net Unit} {l : Label Unit}

theorem Clients.no_recvAck {P : Type} {g : P → Phase} {s : Net P} (h : Clients T g s) {p : P}
    {i : Nat} {ext : CanHeaderExt} {k : Option (CanType × CanDat × Int) → CanProg Int} :
    (s.procs p).threads[i]? ≠ some (.op (.canRecvAck ext) k) := by
  intro hi
  cases i with
  | zero =>
    obtain ⟨t, ht, ho⟩ := h.main p
    rw [hi, Option.some.injEq] at ht
    subst ht
    exact ho.1
  | succ i => exact (h.tasks p i _ hi).1

theorem Clients.home_eq_of_wo (h : Clients T g s) {m : Msg Unit} (hm : m ∈ s.wire)
    (ha : m.pkt.ext.type.isAcknak = true) (hc : IsConnect m.origin.pkt) :
    (s.procs ()).home = m.dst := by
  have htr := h.correlated.items.wire m hm
  obtain ⟨p, hp⟩ := h.sent m.origin htr.sent hc.isConnReq
  rw [(htr.of_acknak ha).2.1, hp.node]
  rfl

theorem pending_deliver (h : Clients T g s) {i : Nat} {m : Msg Unit} (hm : s.wire[i]? = some m)
    (hd : Delivers s i m u) : Shrinks (pending s) (pending u) := by
  obtain ⟨given, hp, hg⟩ := hd.procs
  obtain ⟨ms, hw, hr, hk⟩ := hd.wire
  have hmem := List.mem_of_getElem? hm
  have hperm := perm_cons_woWire hm
  -- of what the node sends, only a reply to a WO counts
  have hms : woWire ms = woWire ((replies m.pkt (s.nodes m.dst)).map m.reply) := by
    rw [← hr, woWire, woWire, List.filter_filter]
    congr 1
    refine List.filter_congr fun x hx => ?_
    cases ha : x.pkt.ext.type.isAcknak with
    | true => simp
    | false =>
      obtain ⟨h₁, h₂, _⟩ := hk x hx ha
      have hno : ¬ IsConnect x.origin.pkt := fun hc => by
        rw [h₂.pkt, IsConnect, h₁] at hc
        cases hc.2
      simp [hno]
  have hfdq : (u.procs ()).fdq =
      if (s.procs ()).home = m.dst ∧ given = true then (s.procs ()).fdq ++ [m]
      else (s.procs ()).fdq := by
    rw [hp]
    unfold giveFiles
    split_ifs <;> rfl
  have hbuf : (u.procs ()).ackbuf = (s.procs ()).ackbuf := by
    rw [hp]
    unfold giveFiles
    split_ifs <;> rfl
  have hu : pending u = woWire (s.wire.eraseIdx i) ++ woWire ms ++
      (woFdq (u.procs ()).fdq ++ woBuf (s.procs ()).ackbuf) := by
    rw [pending, hw, hbuf, woWire_append]
  by_cases hc : IsConnect m.origin.pkt
  · cases ha : m.pkt.ext.type.isAcknak with
    | true =>
      -- the answer moves into the ring of the file
      have hnone : replies m.pkt (s.nodes m.dst) = [] := by
        rw [List.eq_nil_iff_forall_not_mem]
        intro r hr
        have hreq := CanType.isAcknak_of_ackable (isReply_of_mem_replies hr).1
        rw [ha] at hreq
        cases hreq
      have hone : woFdq [m] = woWire [m] := by simp [woFdq, woWire, ha, hc]
      rw [hu, hms, hnone, hfdq, if_pos ⟨h.home_eq_of_wo hmem ha hc, hg ha⟩, woFdq_append, hone]
      have hmove := fun e f b : List CanHeaderExt =>
        (List.perm_append_comm_assoc (woWire [m]) e (f ++ b)).trans
          ((List.perm_append_comm_assoc (woWire [m]) f b).append_left e)
      refine .of_perm ((hperm.append_right _).trans ?_)
      simpa [woWire] using hmove _ _ _
    | false =>
      -- a WO is answered at most once
      have hpkt := ((h.correlated.items.wire m hmem).of_request ha).1
      have hone : woWire [m] = [m.pkt.ext] := by simp [woWire, hc]
      have hf : woFdq (u.procs ()).fdq = woFdq (s.procs ()).fdq := by
        rw [hfdq]
        split_ifs
        · simp [woFdq, ha]
        · rfl
      rw [hu, hf]
      refine @Shrinks.of_drop (woWire ms) (woWire [m])
        (woWire (s.wire.eraseIdx i) ++ (woFdq (s.procs ()).fdq ++ woBuf (s.procs ()).ackbuf))
        _ _ ?_ ?_ ?_ ?_
      · rw [← List.append_assoc]
        exact hperm.append_right _
      · rw [List.append_assoc]
        exact List.perm_append_comm_assoc _ _ _
      · rw [hms, hone, woWire, List.length_map]
        refine Nat.le_trans (List.length_filter_le _ _) ?_
        simpa using replies_length_le _ _
      · rw [hone]
        intro x hx hack
        rw [List.mem_singleton.mp hx, hpkt, hc.2] at hack
        cases hack
  · have hone : woWire [m] = [] := by simp [woWire, hc]
    have hnil : woWire ms = [] := by
      rw [hms]
      refine woWire_eq_nil fun x hx => ?_
      obtain ⟨r, _, rfl⟩ := List.mem_map.mp hx
      exact hc
    have hf : woFdq (u.procs ()).fdq = woFdq (s.procs ()).fdq := by
      rw [hfdq]
      split_ifs
      · simp [woFdq, hc]
      · rfl
    rw [hu, hnil, hf, List.append_nil]
    rw [hone, List.nil_append] at hperm
    exact .of_perm (hperm.append_right _)

theorem pending_other {ms : List (Msg Unit)} (hw : u.wire = s.wire ++ ms)
    (hms : ∀ m ∈ ms, ¬ IsConnect m.origin.pkt)
    (hf : woFdq (u.procs ()).fdq = woFdq (s.procs ()).fdq)
    (hb : (u.procs ()).ackbuf = (s.procs ()).ackbuf) : Shrinks (pending s) (pending u) := by
  have hp : pending u = pending s := by
    rw [pending, pending, hw, hf, hb, woWire_append, woWire_eq_nil hms, List.append_nil]
  rw [hp]
  exact .of_perm (.refl _)

theorem pending_clear (hw : u.wire = s.wire) (hf : (u.procs ()).fdq = (s.procs ()).fdq)
    (hb : (u.procs ()).ackbuf = []) (h : ∀ e ∈ (s.procs ()).ackbuf, ¬ IsWoAck e.ext e.origin) :
    Shrinks (pending s) (pending u) := by
  refine @Shrinks.of_drop [] (woBuf (s.procs ()).ackbuf)
    (woWire s.wire ++ woFdq (s.procs ()).fdq) _ _ ?_ ?_ (Nat.zero_le _) (mem_woBuf_ack h)
  · rw [pending, ← List.append_assoc]
    exact List.perm_append_comm
  · rw [pending, hw, hf, hb]
    simp [woBuf]

theorem pending_read {m : Msg Unit} {q : List (Msg Unit)} (hw : u.wire = s.wire)
    (hf : (s.procs ()).fdq = m :: q) (hf' : (u.procs ()).fdq = q)
    (hb : (u.procs ()).ackbuf = signalAcknak m (s.procs ()).ackbuf)
    (ha : m.pkt.ext.type.isAcknak = true)
    (hroom : IsWoAck m.pkt.ext m.origin → (s.procs ()).ackbuf.length < ackbufLen) :
    Shrinks (pending s) (pending u) := by
  have hcons : woFdq (m :: q) = woBuf [⟨m.pkt.ext, m.pkt.dat, m.origin⟩] ++ woFdq q := by
    by_cases hc : IsConnect m.origin.pkt <;> simp [woFdq, woBuf, ha, hc]
  rw [pending, pending, hw, hf', hb, hf, hcons, signalAcknak]
  split_ifs with hlen
  · rw [woBuf_append]
    refine .of_perm (List.Perm.append_left _ ?_)
    rw [List.append_assoc, ← List.append_assoc (woFdq q)]
    exact List.perm_append_comm
  · refine @Shrinks.of_drop [] (woBuf [⟨m.pkt.ext, m.pkt.dat, m.origin⟩])
      (woWire s.wire ++ (woFdq q ++ woBuf (s.procs ()).ackbuf)) _ _ ?_ (.refl _) (Nat.zero_le _)
      (mem_woBuf_ack fun e he hack => ?_)
    · rw [List.append_assoc]
      exact List.perm_append_comm_assoc _ _ _
    · rw [List.mem_singleton.mp he] at hack
      exact hlen (hroom hack)

theorem pending_lose {i : Nat} {m : Msg Unit} (hm : s.wire[i]? = some m)
    (h : ¬ IsWoAck m.pkt.ext m.origin) :
    Shrinks (pending s) (pending { s with wire := s.wire.eraseIdx i }) := by
  refine @Shrinks.of_drop [] (woWire [m]) (pending { s with wire := s.wire.eraseIdx i }) _ _ ?_
    (.refl _) (Nat.zero_le _) fun x hx hack => ?_
  · simp only [pending]
    rw [← List.append_assoc (woWire [m])]
    exact (perm_cons_woWire hm).append_right _
  · obtain ⟨y, hy, rfl⟩ := List.mem_map.mp hx
    obtain ⟨hy, hc⟩ := List.mem_filter.mp hy
    rw [List.mem_singleton.mp hy] at hack hc
    exact h ⟨hack, by simpa using hc⟩

theorem pending_overflow (hw : u.wire = s.wire)
    (hf : (u.procs ()).fdq = (s.procs ()).fdq.dropLast)
    (hb : (u.procs ()).ackbuf = (s.procs ()).ackbuf)
    (h : ∀ m ∈ (s.procs ()).fdq.getLast?, ¬ IsWoAck m.pkt.ext m.origin) :
    Shrinks (pending s) (pending u) := by
  rcases List.eq_nil_or_concat (s.procs ()).fdq with hq | ⟨q, m, hq⟩
  · have hw' : u.wire = s.wire ++ [] := by rw [hw, List.append_nil]
    refine pending_other hw' (by simp) ?_ hb
    rw [hf, hq]
    rfl
  · rw [List.concat_eq_append] at hq
    refine @Shrinks.of_drop [] (woFdq [m]) (pending u) _ _ ?_ (.refl _) (Nat.zero_le _)
      fun x hx hack => ?_
    · rw [pending, pending, hw, hf, hb, hq, List.dropLast_concat, woFdq_append]
      refine List.Perm.trans (List.Perm.append_left _ ?_) (List.perm_append_comm_assoc _ _ _)
      rw [List.append_assoc]
      exact List.perm_append_comm_assoc _ _ _
    · obtain ⟨y, hy, rfl⟩ := List.mem_map.mp hx
      obtain ⟨hy, hc⟩ := List.mem_filter.mp hy
      rw [List.mem_singleton.mp hy] at hack hc
      have hc' : m.pkt.ext.type.isAcknak = true ∧ IsConnect m.origin.pkt := by simpa using hc
      exact h m (by rw [hq]; simp) ⟨hack, hc'.2⟩

/-- A step that neither sends a WO nor takes an answer to one leaves no more
under way, and no less than the ACK. -/
theorem pending_step (h : Clients T g s) (he : Effect s l u) (hh : Heard s l)
    (hsend : ∀ i, l = .run () i → ∀ pkt ∈ nextSend s () i, ¬ IsConnect pkt)
    (hscan : ∀ b, l = .scan () 0 b → ∀ e ∈ (s.procs ()).ackbuf, ¬ IsConnect e.origin.pkt) :
    Shrinks (pending s) (pending u) := by
  have hnil : ∀ m ∈ ([] : List (Msg Unit)), ¬ IsConnect m.origin.pkt := by simp
  have hbuf : ∀ {i : Nat} {b : Bool}, l = .scan () i b →
      ∀ e ∈ (s.procs ()).ackbuf, ¬ IsWoAck e.ext e.origin := fun {i b} hl e hmem hack => by
    subst hl
    rcases eq_or_ne i 0 with rfl | hi
    · exact hscan b rfl e hmem hack.2
    · exact hh.2 hi e hmem hack
  have hskip : ∀ {m : Msg Unit} {q : List (Msg Unit)}, (s.procs ()).fdq = m :: q →
      m.pkt.ext.type.isAcknak = false → woFdq q = woFdq (s.procs ()).fdq := fun {m q} hf ha => by
    rw [hf]
    simp [woFdq, ha]
  have hans : ∀ {m : Msg Unit} {q : List (Msg Unit)} {pkt : CanPacket},
      (s.procs ()).fdq = m :: q → ReaderAcks (s.procs ()) m →
      (∀ x ∈ [m.reply pkt], ¬ IsConnect x.origin.pkt) ∧ woFdq q = woFdq (s.procs ()).fdq :=
    fun {m q pkt} hf hr => by
      have hno : ¬ IsConnReq m.origin.pkt :=
        h.not_connReq_of_readerAcks (by rw [hf]; exact List.mem_cons_self) hr
      refine ⟨fun x hx hc => ?_, hskip hf ?_⟩
      · rw [List.mem_singleton.mp hx] at hc
        exact hno hc.isConnReq
      · rcases hr with hr | hr <;> rw [hr.1] <;> rfl
  cases he with
  | send hi =>
    refine pending_other rfl (fun m hm => ?_) rfl rfl
    rw [List.mem_singleton.mp hm]
    exact hsend _ rfl _ (nextSend_eq hi)
  | setConsole _ => exact pending_other (List.append_nil _).symm hnil rfl rfl
  | getConsole _ => exact pending_other (List.append_nil _).symm hnil rfl rfl
  | found _ _ => exact pending_clear rfl rfl rfl (hbuf rfl)
  | timeout _ _ => exact pending_clear rfl rfl rfl (hbuf rfl)
  | discard _ _ => exact pending_clear rfl rfl rfl (hbuf rfl)
  | recvFound hi _ _ _ => exact absurd hi h.no_recvAck
  | recvSkip hi _ => exact absurd hi h.no_recvAck
  | interrupt _ => exact pending_other (List.append_nil _).symm hnil rfl rfl
  | readAcknak hf ha => exact pending_read rfl hf rfl rfl ha (hh _ (by rw [hf]; rfl))
  | readDat hf ht hx =>
    obtain ⟨h₁, h₂⟩ := hans hf (.inl ⟨ht, hx⟩)
    exact pending_other rfl h₁ h₂ rfl
  | readStolen hf ht ho _ =>
    obtain ⟨h₁, h₂⟩ := hans hf (.inr ⟨ht, ho⟩)
    exact pending_other rfl h₁ h₂ rfl
  | readSkip hf ha => exact pending_other (List.append_nil _).symm hnil (hskip hf ha) rfl
  | deliver hm hd => exact pending_deliver h hm hd
  | lose hm => exact pending_lose hm (hh _ hm)
  | overflow => exact pending_overflow rfl rfl rfl hh
  | spawn _ => exact pending_other (List.append_nil _).symm hnil rfl rfl
  | output _ ho =>
    obtain ⟨ms, hw, hk⟩ := ho.wire
    refine pending_other hw (fun m hm hc => ?_) (by rw [ho.procs]) (by rw [ho.procs])
    obtain ⟨hd, hout, _⟩ := hk m hm
    rw [hout.pkt, IsConnect, hd] at hc
    cases hc.2

/-- The cancon is recorded only by a WO of its own, and then the ACK is under
way. -/
theorem rmt_step (h : Clients T g s) (he : Effect s l u)
    (hc : (u.nodes T).canconRmt = (s.procs ()).cfg.consoleObject) :
    (s.nodes T).canconRmt = (s.procs ()).cfg.consoleObject ∨ ∃ x ∈ pending u, x.type = .ack := by
  cases he with
  | @deliver i m _ hm hd =>
    have hmem := List.mem_of_getElem? hm
    rw [hd.rmt] at hc
    split_ifs at hc with ht
    · subst ht
      unfold nextRmt at hc
      split_ifs at hc with hw hu hdis hu
      · right
        have hreq : IsRequest m.pkt.ext := by
          rw [IsRequest, hw.2]
          rfl
        have hpkt := ((h.correlated.items.wire m hmem).of_request hreq).1
        obtain ⟨ms, hwire, hr, _⟩ := hd.wire
        rw [replies_connect hw, if_pos hu, List.map_singleton] at hr
        set x := m.reply (fixup (s.nodes m.dst) (acknakPkt .ack m.pkt (some m.pkt.dat))) with hx
        have hxms : x ∈ ms := by
          refine List.mem_of_mem_filter (p := fun y : Msg Unit => y.pkt.ext.type.isAcknak) ?_
          rw [hr]
          exact List.mem_singleton_self _
        have hxw : x ∈ u.wire := by
          rw [hwire]
          exact List.mem_append_right _ hxms
        exact ⟨x.pkt.ext, List.mem_append_left _ (mem_woWire hxw (hpkt ▸ hw)), rfl⟩
      · exact .inl hc
      · exact .inl hc
      · have hno := canconUnconnected_consoleObject (s.procs ()).cfg
        rw [← hc, canconUnconnected_dropConsole] at hno
        cases hno
      · exact .inl hc
    · exact .inl hc
  | output _ ho => exact .inl (ho.rmt T ▸ hc)
  | _ => exact .inl hc

/-- What holds in each phase: before a WO is sent and after it was refused
none is under way, and while the cancon waits, its ACK is if it is recorded. -/
def PhaseInv (T : Canhostname) (s : Net Unit) : Phase → Prop
  | .looking => pending s = [] ∧ (s.nodes T).canconRmt ≠ (s.procs ()).cfg.consoleObject
  | .refused => pending s = [] ∧ (s.nodes T).canconRmt ≠ (s.procs ()).cfg.consoleObject
  | .waiting => (pending s).length ≤ 1 ∧
    ((s.nodes T).canconRmt = (s.procs ()).cfg.consoleObject → ∃ x ∈ pending s, x.type = .ack)
  | .connected => True

theorem scanAckbuf_none {P : Type} {target : CanHeaderExt} {buf : List (AckPkt P)}
    (h : scanAckbuf target buf = none) : ∀ e ∈ buf, isOurAcknak e.ext target = false := by
  intro e he
  rw [scanAckbuf, List.getLast?_eq_none_iff, List.filter_eq_nil_iff] at h
  simpa using h e he

theorem Clients.isOurAcknak_of_wo (h : Clients T g s) {e : AckPkt Unit}
    (he : e ∈ (s.procs ()).ackbuf) (hc : IsConnect e.origin.pkt) {target : CanHeaderExt}
    (ho : target.object = Canobj.consoleConnect) (ha : target.addr = T) :
    isOurAcknak e.ext target = true := by
  have hasked := h.correlated.items.ackbuf () e he
  obtain ⟨p, hp⟩ := h.sent e.origin hasked.sent hc.isConnReq
  obtain ⟨h₁, h₂⟩ := (isOurAcknak_iff _ _).mp hasked.object
  exact (isOurAcknak_iff _ _).mpr
    ⟨by rw [← h₁, hc.1, ho], by rw [← h₂, (hp.write hc).1, ha]⟩

theorem scan_effect {p : Unit} {i : Nat} {b : Bool} (he : Effect s (.scan p i b) u) :
    u.nodes = s.nodes ∧ u.wire = s.wire ∧ (u.procs ()).fdq = (s.procs ()).fdq ∧
      (u.procs ()).ackbuf = [] := by
  cases he with
  | found _ _ => exact ⟨rfl, rfl, rfl, rfl⟩
  | timeout _ _ => exact ⟨rfl, rfl, rfl, rfl⟩
  | discard _ _ => exact ⟨rfl, rfl, rfl, rfl⟩
  | output hl _ => rcases hl with ⟨m, hl⟩ | hl <;> cases hl

theorem run_effect {p : Unit} {i : Nat} (he : Effect s (.run p i) u) :
    u.nodes = s.nodes ∧ (pending u).length ≤ (pending s).length + 1 := by
  have hstep : u.nodes = s.nodes ∧ (∃ ms, u.wire = s.wire ++ ms ∧ ms.length ≤ 1) ∧
      (u.procs ()).fdq = (s.procs ()).fdq ∧ (u.procs ()).ackbuf = (s.procs ()).ackbuf := by
    cases he with
    | send _ => exact ⟨rfl, ⟨_, rfl, Nat.le_refl _⟩, rfl, rfl⟩
    | setConsole _ => exact ⟨rfl, ⟨[], (List.append_nil _).symm, Nat.zero_le _⟩, rfl, rfl⟩
    | getConsole _ => exact ⟨rfl, ⟨[], (List.append_nil _).symm, Nat.zero_le _⟩, rfl, rfl⟩
    | output hl _ => rcases hl with ⟨m, hl⟩ | hl <;> cases hl
  obtain ⟨hn, ⟨ms, hw, hlen⟩, hf, hb⟩ := hstep
  refine ⟨hn, ?_⟩
  have hms : (woWire ms).length ≤ 1 := by
    rw [woWire, List.length_map]
    exact Nat.le_trans (List.length_filter_le _ _) hlen
  rw [pending, pending, hw, hf, hb, woWire_append]
  simp only [List.length_append]
  omega

theorem phaseInv_quiet (h : Clients T g s) (he : Effect s l u) {q : Phase}
    (hp : Shrinks (pending s) (pending u)) (hi : PhaseInv T s q) : PhaseInv T u q := by
  have hcfg := he.cfg ()
  have hempty : pending s = [] ∧ (s.nodes T).canconRmt ≠ (s.procs ()).cfg.consoleObject →
      pending u = [] ∧ (u.nodes T).canconRmt ≠ (u.procs ()).cfg.consoleObject := fun hs => by
    have hu : pending u = [] := List.length_eq_zero_iff.mp
      (Nat.le_zero.mp (by simpa [hs.1] using hp.length))
    refine ⟨hu, fun hc => ?_⟩
    rw [hcfg] at hc
    rcases rmt_step h he hc with hc | ⟨x, hx, _⟩
    · exact hs.2 hc
    · rw [hu] at hx
      cases hx
  cases q with
  | looking => exact hempty hi
  | refused => exact hempty hi
  | connected => trivial
  | waiting =>
    refine ⟨Nat.le_trans hp.length hi.1, fun hc => ?_⟩
    rw [hcfg] at hc
    rcases rmt_step h he hc with hc | hx
    · exact hp.ack (hi.2 hc)
    · exact hx

theorem phaseInv_refused (h : Clients T g s) (hi : PhaseInv T s .waiting) {e : AckPkt Unit}
    (hmem : e ∈ (s.procs ()).ackbuf) (hobj : e.ext.object = Canobj.consoleConnect)
    (hack : e.ext.type ≠ .ack) :
    woWire s.wire = [] ∧ woFdq (s.procs ()).fdq = [] ∧
      (s.nodes T).canconRmt ≠ (s.procs ()).cfg.consoleObject := by
  obtain ⟨ha, hans⟩ := h.answers.ackbuf () e hmem
  have hnak : e.ext.type = .nak := by
    cases ht : e.ext.type with
    | nak => rfl
    | ack => exact absurd ht hack
    | _ =>
      rw [ht] at ha
      cases ha
  have hin := mem_woBuf hmem ((hans ha hobj).2.1 hnak)
  have hlen := hi.1
  have hpos := List.length_pos_of_mem hin
  rw [pending, List.length_append, List.length_append] at hlen
  have hw : woWire s.wire = [] := List.length_eq_zero_iff.mp (by omega)
  have hf : woFdq (s.procs ()).fdq = [] := List.length_eq_zero_iff.mp (by omega)
  refine ⟨hw, hf, fun hc => ?_⟩
  obtain ⟨x, hx, hxa⟩ := hi.2 hc
  rw [pending, hw, hf, List.nil_append, List.nil_append] at hx
  obtain ⟨y, hy⟩ := List.length_eq_one_iff.mp (show (woBuf (s.procs ()).ackbuf).length = 1 by omega)
  rw [hy, List.mem_singleton] at hx hin
  rw [hx, ← hin] at hxa
  exact hack hxa

theorem phaseInv_step (h : Clients T g s) (he : Effect s l u) (hh : Heard s l) {q : Phase}
    (hp : PhaseStep T s l () (g ()) q) (hi : PhaseInv T s (g ())) : PhaseInv T u q := by
  have hcfg := he.cfg ()
  have hnone : ∀ {target : CanHeaderExt}, target.object = Canobj.consoleConnect →
      target.addr = T → scanAckbuf target (s.procs ()).ackbuf = none →
      ∀ e ∈ (s.procs ()).ackbuf, ¬ IsConnect e.origin.pkt := fun ho ha hs e hmem hw => by
    have hm := scanAckbuf_none hs e hmem
    rw [h.isOurAcknak_of_wo hmem hw ho ha] at hm
    cases hm
  generalize g () = g₀ at hp hi
  cases hp with
  | quiet hq hd =>
    have hsend : ∀ i, l = .run () i → ∀ pkt ∈ nextSend s () i, ¬ IsConnect pkt :=
      fun i hl pkt hn hw => by
        have ht := (hq i hl pkt hn hw.isConnReq).2
        rw [hw.2] at ht
        cases ht
    have hempty : pending s = [] → ∀ e ∈ (s.procs ()).ackbuf, ¬ IsConnect e.origin.pkt :=
      fun hs e hmem hw => by
        have hin := List.mem_append_right (woWire s.wire)
          (List.mem_append_right (woFdq (s.procs ()).fdq) (mem_woBuf hmem hw))
        rw [← pending, hs] at hin
        cases hin
    cases q with
    | looking => exact phaseInv_quiet h he (pending_step h he hh hsend fun _ _ => hempty hi.1) hi
    | refused => exact phaseInv_quiet h he (pending_step h he hh hsend fun _ _ => hempty hi.1) hi
    | connected => trivial
    | waiting =>
      refine phaseInv_quiet h he (pending_step h he hh hsend fun b hl => ?_) hi
      obtain ⟨target, ho, ha, hs⟩ := hd b hl rfl
      exact hnone ho ha hs
  | write hl hg' hs hw =>
    subst hl
    obtain ⟨hn, hlen⟩ := run_effect he
    have hs : pending s = [] ∧ (s.nodes T).canconRmt ≠ (s.procs ()).cfg.consoleObject := by
      rcases hg' with rfl | rfl <;> exact hi
    refine ⟨by simpa [hs.1] using hlen, fun hc => ?_⟩
    rw [hn, hcfg] at hc
    exact absurd hc hs.2
  | @answer target b e hl ho ha hscan =>
    subst hl
    obtain ⟨hn, hw, hf, hb⟩ := scan_effect he
    split_ifs with hack
    · trivial
    · obtain ⟨hmem, hours⟩ := mem_of_scanAckbuf hscan
      have hobj : e.ext.object = Canobj.consoleConnect := by
        rw [((isOurAcknak_iff _ _).mp hours).1, ho]
      obtain ⟨hw', hf', hc⟩ := phaseInv_refused h hi hmem hobj hack
      refine ⟨?_, by rwa [hn, hcfg]⟩
      rw [pending, hw, hf, hb, hw', hf']
      rfl
  | timeout hl ho ha hscan =>
    subst hl
    obtain ⟨hn, hw, hf, hb⟩ := scan_effect he
    obtain ⟨h₁, h₂⟩ := hh.1 rfl rfl
    have hs : pending s = [] := by
      rw [pending, woWire_eq_nil h₁, woFdq_eq_nil h₂, woBuf_eq_nil (hnone ho ha hscan)]
      rfl
    refine ⟨?_, fun hc => ?_⟩
    · rw [pending, hw, hf, hb, woWire_eq_nil h₁, woFdq_eq_nil h₂]
      rfl
    · rw [hn, hcfg] at hc
      obtain ⟨x, hx, _⟩ := hi.2 hc
      rw [hs] at hx
      cases hx

/-- In every run from a target that has not recorded this cancon, in which the
ACK to the WO is not lost and no wait for it ends before it is settled, a
failed connect leaves another console or none at the target. All other packets
may be lost, delayed and repeated. -/
theorem failed_connect_clean {s₀ : Net Unit} {tr : List (Net Unit × Label Unit)}
    (h₀ : Connecting T s₀) (hr : (s₀.nodes T).canconRmt ≠ (s₀.procs ()).cfg.consoleObject)
    (h : Run NetStep s₀ tr s) (hh : ∀ x ∈ tr, Heard x.1 x.2) : FailedClean T s := by
  have hinv : ∃ g, Clients T g s ∧ PhaseInv T s (g ()) := by
    refine @Run.invariant_of _ _ _ _ _ _ (fun s => ∃ g, Clients T g s ∧ PhaseInv T s (g ())) _ h
      ⟨_, h₀.clients, ?_, hr⟩ ?_ hh
    · rw [pending, h₀.wire, h₀.starts.fdq, h₀.starts.ackbuf]
      rfl
    · rintro t l v ⟨g, hg, hi⟩ hok hst
      obtain ⟨g', hg', hp⟩ := hg.step hst
      exact ⟨g', hg', phaseInv_step hg (hst.effect hg.correlated.flushed) hok (hp ()) hi⟩
  obtain ⟨g, hg, hi⟩ := hinv
  intro hm
  rcases hg.phase_of_mainResult hm with ⟨h0, _⟩ | ⟨_, hq | hq⟩
  · exact absurd h0 (by decide)
  · rw [hq] at hi
    exact hi.2
  · rw [hq] at hi
    exact hi.2

instance (ext : CanHeaderExt) (o : Origin Unit) : Decidable (IsWoAck ext o) :=
  inferInstanceAs (Decidable (_ ∧ _))

instance (s : Net Unit) : Decidable (WoSettled s) := inferInstanceAs (Decidable (_ ∧ _))

instance (s : Net Unit) (l : Label Unit) : Decidable (Heard s l) :=
  match l with
  | .lose _ => inferInstanceAs (Decidable (∀ m ∈ (_ : Option (Msg Unit)), ¬ IsWoAck _ _))
  | .overflow _ => inferInstanceAs (Decidable (∀ m ∈ (_ : Option (Msg Unit)), ¬ IsWoAck _ _))
  | .read _ => inferInstanceAs (Decidable (∀ m ∈ (_ : Option (Msg Unit)), IsWoAck _ _ → _))
  | .scan _ _ _ => inferInstanceAs (Decidable (_ ∧ _))
  | .run _ _ | .recvAck _ _ | .interrupt _ _ | .deliver _ | .spawn _ _ | .printk _ _
  | .ackTimeout _ => isTrue trivial

def lone : Net Unit :=
  Net.boot fun _ => .boot (clientConfig false) (connectProtocol (clientConfig false))

theorem lone_connecting : Connecting ⟨0, 0, 1⟩ lone where
  flushed _ := rfl
  wire := rfl
  log := rfl
  boot _ := rfl
  proper := fun () => ⟨rfl, by decide, by decide⟩

def lookRun : List (Label Unit) :=
  [.run () 0, .deliver 0, .deliver 0, .read (), .scan () 0 false, .run () 0]

def deafRun : List (Label Unit) :=
  lookRun ++ (List.replicate maxRetries [.run () 0, .lose 0, .scan () 0 true]).flatten

theorem failed_connect_clean_deaf :
    ∃ tr s, Run NetStep lone tr s ∧ tr.map Prod.snd = deafRun ∧
      mainResult (s.procs ()) = some (-1) ∧ FailedClean ⟨0, 0, 1⟩ s := by
  obtain ⟨tr, s, hr, hl, hok, hg⟩ := exists_run lone (fun s l => decide (Heard s l)) deafRun
    (fun s => decide (mainResult (s.procs ()) = some (-1))) (by decide +kernel)
  refine ⟨tr, s, hr, hl, by simpa using hg, ?_⟩
  exact failed_connect_clean lone_connecting (by decide) hr fun x hx => by simpa using hok x hx

/-- The ACK to the first WO is lost, and so are the other WOs. -/
def ackLostRun : List (Label Unit) :=
  lookRun ++ [.run () 0, .deliver 0, .lose 0, .scan () 0 true] ++
    (List.replicate (maxRetries - 1) [.run () 0, .lose 0, .scan () 0 true]).flatten

/-- The connect fails, everything in flight is consumed, and the target is
connected to the cancon that is gone. -/
theorem failed_connect_recorded :
    ∃ tr s, Run NetStep lone tr s ∧ tr.map Prod.snd = ackLostRun ∧ s.wire = [] ∧
      (s.procs ()).fdq = [] ∧ ¬ FailedClean ⟨0, 0, 1⟩ s := by
  obtain ⟨tr, s, hr, hl, -, hg⟩ := exists_run lone (fun _ _ => true) ackLostRun
    (fun s => decide (s.wire.length = 0 ∧ (s.procs ()).fdq.length = 0 ∧
      mainResult (s.procs ()) = some (-1) ∧
      (s.nodes ⟨0, 0, 1⟩).canconRmt = (s.procs ()).cfg.consoleObject)) (by decide +kernel)
  obtain ⟨h₁, h₂, h₃, h₄⟩ := of_decide_eq_true hg
  exact ⟨tr, s, hr, hl, List.length_eq_zero_iff.mp h₁, List.length_eq_zero_iff.mp h₂,
    fun hf => hf h₃ h₄⟩

end MeikoCs2
