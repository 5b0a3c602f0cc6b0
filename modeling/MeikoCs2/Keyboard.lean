import MeikoCs2.KeyRounds

/-! From the keyboard of a cancon to the console of its node, over every run of
the network. -/

namespace MeikoCs2

variable {P : Type}

/-- What the run has done for the writer, thread `w` of the process `p`. -/
def KeyAt (p : P) (w : Nat) (c : Config) (bufs : List (List Byte)) (timeouts : List Nat)
    (s : Net P) : Prop :=
  ∃ reached t, (s.procs p).threads[w]? = some t ∧
    typed (keyReq c) s.log = reached.map (fun j => bufs.getD j []) ∧
    KeyRound c bufs timeouts reached t (s.wire.filter (pertains (keyReq c)))
      ((s.procs p).fdq.filter (isAnswer (keyReq c)))
      ((s.procs p).ackbuf.filter (isBuffered (keyReq c)))

/-- The requests of `p` leave its node, and what is addressed to the console of
the target is a batch. -/
structure Keying (p : P) (w : Nat) (c : Config) (bufs : List (List Byte)) (timeouts : List Nat)
    (s : Net P) : Prop where
  home : ∀ o, .sent o ∈ s.log → o.sender = some p → o.node = (s.procs p).home
  own : ∀ o, .sent o ∈ s.log → o.sender = some p → isOurAcknak o.pkt.ext (keyReq c) = true →
    o.pkt.ext = keyReq c
  phase : KeyAt p w c bufs timeouts s

theorem payload_canSendPkt {buf : List Byte} (h : buf.length ≤ 4) (nodeid : BitVec 32)
    (stack : CanPacket) (ext : CanHeaderExt) (d : CanDat) :
    payload (canSendPkt nodeid stack ext (some (copyBytes buf d)) buf.length) = buf := by
  have hlen : (canSendPkt nodeid stack ext (some (copyBytes buf d)) buf.length).can.length.toNat - 4 =
      buf.length := by
    simp only [canSendPkt, BitVec.toNat_ofNat]
    omega
  rw [payload, hlen]
  cases buf with
  | nil => rfl
  | cons b bs => exact copyBytes_bytes d h

theorem replies_unconnected {pkt : CanPacket} {n : Node} (ho : pkt.ext.object = 0)
    (ht : pkt.ext.type = .dat) (hu : canconUnconnected n.canconRmt = true) :
    replies pkt n = [] := by
  have ha : pkt.ext.type.ackable = true := by rw [ht]; rfl
  rw [replies, canobjPacket_of_ackable ha, canobjSwitch_dat ho, canobjDat, hu]
  exact List.drop_length

section Deliveries

variable {s u : Net P} {p : P} {w : Nat} {c : Config} {bufs : List (List Byte)}
  {timeouts : List Nat}

theorem typed_append_of {req : CanHeaderExt} {log es : List (Event P)}
    (h : ∀ e ∈ es, ∀ a m r r', e ≠ .dispatched a m r r') :
    typed req (log ++ es) = typed req log := by
  have hn : typed req es = [] := by
    refine List.filterMap_eq_nil_iff.mpr fun e he => ?_
    cases e with
    | dispatched a m r r' => exact absurd rfl (h _ he a m r r')
    | _ => rfl
  rw [typed, List.filterMap_append, ← typed, ← typed, hn, List.append_nil]

theorem typed_delivers {req : CanHeaderExt} {i : Nat} {m : Msg P} (hd : Delivers s i m u) :
    typed req u.log = typed req s.log ++
      if m.dst = req.addr ∧ m.pkt.ext.object = req.object ∧ m.pkt.ext.type = .dat ∧
          canconUnconnected (s.nodes m.dst).canconRmt = false then
        [payload m.pkt]
      else [] := by
  obtain ⟨es, hl, hes⟩ := hd.log
  have hn : ∀ e ∈ es, ∀ a m r r', e ≠ .dispatched a m r r' := by
    intro e he a m r r' h
    obtain ⟨o, ho, _⟩ := hes e he
    rw [ho] at h
    cases h
  rw [hl, List.append_cons, typed_append_of hn, typed, List.filterMap_append, ← typed]
  congr 1
  simp only [List.filterMap_cons, List.filterMap_nil]
  split_ifs <;> rfl

theorem Delivers.ackbuf {i : Nat} {m : Msg P} (hd : Delivers s i m u) (q : P) :
    (u.procs q).ackbuf = (s.procs q).ackbuf := by
  obtain ⟨given, hp, _⟩ := hd.procs
  rw [hp]
  unfold giveFiles
  split_ifs <;> rfl

theorem KeyAt.congr (h : KeyAt p w c bufs timeouts s)
    (ht : (u.procs p).threads[w]? = (s.procs p).threads[w]?)
    (hl : typed (keyReq c) u.log = typed (keyReq c) s.log)
    (hw : u.wire.filter (pertains (keyReq c)) = s.wire.filter (pertains (keyReq c)))
    (hq : (u.procs p).fdq.filter (isAnswer (keyReq c)) =
      (s.procs p).fdq.filter (isAnswer (keyReq c)))
    (hb : (u.procs p).ackbuf.filter (isBuffered (keyReq c)) =
      (s.procs p).ackbuf.filter (isBuffered (keyReq c))) : KeyAt p w c bufs timeouts u := by
  obtain ⟨reached, t, h₁, h₂, h₃⟩ := h
  refine ⟨reached, t, ht.trans h₁, hl.trans h₂, ?_⟩
  rwa [hw, hq, hb]

theorem KeyAt.frame (h : KeyAt p w c bufs timeouts s) (hp : u.procs p = s.procs p)
    (hl : typed (keyReq c) u.log = typed (keyReq c) s.log)
    (hw : u.wire.filter (pertains (keyReq c)) = s.wire.filter (pertains (keyReq c))) :
    KeyAt p w c bufs timeouts u :=
  h.congr (by rw [hp]) hl hw (by rw [hp]) (by rw [hp])

theorem getD_of_getElem? {i : Nat} {buf : List Byte} (h : bufs[i]? = some buf) :
    bufs.getD i [] = buf := by
  rw [List.getD_eq_getElem?_getD, h]
  rfl

/-- A batch reaches the console and is acknowledged, its acknowledgement reaches
the file of `p`, or the packet is none of the writer's. -/
theorem KeyAt.deliver (hp : Keying p w c bufs timeouts s) (hc : Correlated s)
    (ha : Alone p (keyReq c) u.log) {i : Nat} {m : Msg P} (hm : s.wire[i]? = some m)
    (hd : Delivers s i m u) : KeyAt p w c bufs timeouts u := by
  have has : Alone p (keyReq c) s.log := by
    obtain ⟨es, hl, _⟩ := hd.log
    exact ha.mono ⟨_, hl.symm⟩
  have ht := hc.items.wire m (List.mem_of_getElem? hm)
  obtain ⟨hth, hq, hqa⟩ := hd.fdq p
  have hab := hd.ackbuf p
  have hw := wire_delivers hd ha
  have hl : typed (keyReq c) u.log = _ := typed_delivers hd
  obtain ⟨reached, t, hs, hlog, hph⟩ := hp.phase
  rcases filter_eraseIdx (f := pertains (keyReq c)) hm with ⟨hn, hew⟩ | ⟨hpt, as, bs, hfw, hew⟩
  · -- a packet that is not the writer's types nothing and is answered elsewhere
    have hnw : ¬ (m.dst = (keyReq c).addr ∧ m.pkt.ext.object = (keyReq c).object ∧
        m.pkt.ext.type = .dat ∧ canconUnconnected (s.nodes m.dst).canconRmt = false) := by
      rintro ⟨h₁, h₂, h₃, -⟩
      obtain ⟨hpk, _, hdst⟩ := ht.of_request (by rw [IsRequest, h₃]; rfl)
      have hpt : pertains (keyReq c) m = true :=
        (isOurAcknak_iff _ _).mpr ⟨h₂, by rw [hpk, ← hdst, h₁]⟩
      rw [hn] at hpt
      cases hpt
    have hrn : ((replies m.pkt (s.nodes m.dst)).map m.reply).filter (pertains (keyReq c)) = [] := by
      refine List.filter_eq_nil_iff.mpr fun x hx => ?_
      obtain ⟨r, hr, rfl⟩ := List.mem_map.mp hx
      rw [pertains_reply hr, hn]
      simp
    have hna : isAnswer (keyReq c) m = false := by simp [isAnswer, hn]
    refine hp.phase.congr (by rw [hth]) ?_ ?_ ?_ (by rw [hab])
    · rw [hl, if_neg hnw, List.append_nil]
    · rw [hw, hew, hrn, List.append_nil]
    · rcases hq with hq | ⟨_, hq⟩
      · rw [hq]
      · rw [hq, List.filter_append]
        simp [hna]
  · have hso := ht.sender has hpt
    have hnode := hp.home _ ht.sent hso
    rcases hph.under_way with ⟨hwn, -, -⟩ | ⟨j, buf, failed, k, ack, hb, hk, rfl, htrip⟩
    · rw [hfw] at hwn
      exact absurd hwn (by simp)
    obtain ⟨rfl, rfl, hqs, hes, hwhere⟩ := htrip.at_wire hfw
    rcases hwhere with ⟨htal, he, hbuf⟩ | ⟨before, rfl, htal, hack⟩
    · -- the batch arrives
      have htd : m.pkt.ext.type = .dat := by rw [he]; rfl
      have hob : m.pkt.ext.object = 0 := by rw [he]; rfl
      have hreq : IsRequest m.pkt.ext := by rw [IsRequest, htd]; rfl
      have hdst : m.dst = (keyReq c).addr := by
        obtain ⟨hpk, -, h⟩ := ht.of_request hreq
        rw [h, ← hpk, he]
      have hna : isAnswer (keyReq c) m = false := by
        have hk : m.pkt.ext.type.isAcknak = false := hreq
        simp [isAnswer, hk]
      have hqe : (u.procs p).fdq.filter (isAnswer (keyReq c)) = [] := by
        rcases hq with hq | ⟨_, hq⟩
        · rw [hq, hqs]
        · rw [hq, List.filter_append, hqs]
          simp [hna]
      cases hu : canconUnconnected (s.nodes m.dst).canconRmt with
      | false =>
        refine ⟨reached ++ [j], _, by rw [hth, hs], ?_, ?_⟩
        · rw [hl, if_pos ⟨hdst, by rw [he], htd, hu⟩, hlog, List.map_append, List.map_singleton,
            getD_of_getElem? hb, hbuf]
        · rw [hw, hew, hqe, hab, hes, replies_consoleDat ⟨hob, htd, hu⟩, List.map_singleton]
          have hans : pertains (keyReq c) (m.reply (fixup (s.nodes m.dst)
              (acknakPkt .ack m.pkt none))) = true := hpt
          rw [List.filter_cons_of_pos hans]
          exact .waiting hb hk (.back htal hans rfl)
      | true =>
        refine ⟨reached, _, by rw [hth, hs], ?_, ?_⟩
        · rw [hl, if_neg fun h => by rw [hu] at h; exact absurd h.2.2.2 (by decide),
            List.append_nil, hlog]
        · rw [hw, hew, hqe, hab, hes, replies_unconnected hob htd hu]
          exact .waiting hb hk (.gone htal.attempted)
    · -- the acknowledgement arrives
      have hak : m.pkt.ext.type.isAcknak = true := by rw [hack]; rfl
      have hdst : (s.procs p).home = m.dst := by rw [(ht.of_acknak hak).2.1, hnode]
      have hnd : m.pkt.ext.type ≠ .dat := by rw [hack]; decide
      have hia : isAnswer (keyReq c) m = true := by simp [isAnswer, hak, hpt]
      refine ⟨before ++ [j], _, by rw [hth, hs], ?_, ?_⟩
      · rw [hl, if_neg fun h => hnd h.2.2.1, List.append_nil, hlog]
      · rw [hw, hew, hab, hes, replies_of_acknak hak, hqa hdst hak, List.filter_append, hqs]
        simp only [List.filter_cons_of_pos hia, List.filter_nil, List.map_nil, List.append_nil,
          List.nil_append]
        exact .waiting hb hk (.arrived htal hpt hack)

theorem KeyAt.lose (hp : KeyAt p w c bufs timeouts s) {i : Nat} {m : Msg P}
    (hm : s.wire[i]? = some m) :
    KeyAt p w c bufs timeouts { s with wire := s.wire.eraseIdx i } := by
  rcases filter_eraseIdx (f := pertains (keyReq c)) hm with ⟨-, he⟩ | ⟨-, as, bs, hf, he⟩
  · exact hp.frame rfl rfl he
  · obtain ⟨reached, t, hth, hl, hph⟩ := hp
    refine ⟨reached, t, hth, hl, ?_⟩
    change KeyRound _ _ _ _ _ ((s.wire.eraseIdx i).filter _) _ _
    rw [he]
    exact hph.drop_wire hf

/-- What may become of the process `p`: something vanishes from the ring of its
file, and its buffer of acknowledgements is emptied. -/
structure Dwindles (w : Nat) (req : CanHeaderExt) (x y : Proc P) : Prop where
  thread : y.threads[w]? = x.threads[w]?
  fdq : y.fdq.filter (isAnswer req) = x.fdq.filter (isAnswer req) ∨
    ∃ as m bs, x.fdq.filter (isAnswer req) = as ++ m :: bs ∧
      y.fdq.filter (isAnswer req) = as ++ bs
  ackbuf : y.ackbuf = x.ackbuf ∨ y.ackbuf = []

theorem KeyAt.shrink (h : KeyAt p w c bufs timeouts s)
    (hx : Dwindles w (keyReq c) (s.procs p) (u.procs p))
    (hl : typed (keyReq c) u.log = typed (keyReq c) s.log)
    (hw : u.wire.filter (pertains (keyReq c)) = s.wire.filter (pertains (keyReq c))) :
    KeyAt p w c bufs timeouts u := by
  obtain ⟨reached, t, h₁, h₂, h₃⟩ := h
  refine ⟨reached, t, hx.thread.trans h₁, hl.trans h₂, ?_⟩
  have hfile : KeyRound c bufs timeouts reached t (s.wire.filter (pertains (keyReq c)))
      ((u.procs p).fdq.filter (isAnswer (keyReq c)))
      ((s.procs p).ackbuf.filter (isBuffered (keyReq c))) := by
    rcases hx.fdq with hq | ⟨as, m, bs, hs, hq⟩
    · rwa [hq]
    · rw [hq]
      exact h₃.drop_fdq hs
  rw [hw]
  rcases hx.ackbuf with hb | hb
  · rwa [hb]
  · rw [hb]
    exact hfile.flushed

theorem filter_tail {f : Msg P → Bool} {m : Msg P} {q l : List (Msg P)} (h : l = m :: q) :
    q.filter f = l.filter f ∨ ∃ as x bs, l.filter f = as ++ x :: bs ∧ q.filter f = as ++ bs := by
  subst h
  cases hm : f m with
  | false => exact .inl (by rw [List.filter_cons_of_neg (by simp [hm])])
  | true => exact .inr ⟨[], m, q.filter f, by rw [List.filter_cons_of_pos hm]; rfl, rfl⟩

theorem typed_sent {req : CanHeaderExt} (log : List (Event P)) (o : Origin P) :
    typed req (log ++ [.sent o]) = typed req log := by
  refine typed_append_of fun e he a m r r' h => ?_
  rw [List.mem_singleton.mp he] at h
  cases h

theorem typed_returned {req : CanHeaderExt} (log : List (Event P)) (q : P) (ext : CanHeaderExt)
    (ty : CanType) (o : Origin P) : typed req (log ++ [.returned q ext ty o]) = typed req log := by
  refine typed_append_of fun e he a m r r' h => ?_
  rw [List.mem_singleton.mp he] at h
  cases h

/-- The writer makes no other calls than these two. -/
theorem KeyAt.thread_ne (h : KeyAt p w c bufs timeouts s) {i : Nat} {o : CanOp}
    {k : CanOp.Res o → CanProg Int} (ht : (s.procs p).threads[i]? = some (.op o k))
    (hs : ∀ ext dat len, o ≠ .canSend ext dat len)
    (hw : ∀ target dat, o ≠ .waitforAcknak target dat) : i ≠ w := by
  rintro rfl
  obtain ⟨reached, t, hth, -, hph⟩ := h
  obtain rfl := Option.some.inj (hth.symm.trans ht)
  rcases hph.no_other rfl with ⟨ext, dat, len, ho⟩ | ⟨target, dat, ho⟩
  · exact hs _ _ _ ho
  · exact hw _ _ ho

theorem KeyAt.spawned (h : KeyAt p w c bufs timeouts s) (ts : List (CanProg Int)) :
    ((s.procs p).threads ++ ts)[w]? = (s.procs p).threads[w]? := by
  obtain ⟨reached, t, hth, -⟩ := h
  exact List.getElem?_append_left (List.getElem?_eq_some_iff.mp hth).1

end Deliveries

/-- The number of the batch that thread `w` of the process `p` is at. -/
def batchAt (p : P) (w : Nat) (bufs : List (List Byte)) (s : Net P) : Nat :=
  ((s.procs p).threads[w]?).elim 0 (batchOf bufs)

theorem batchAt_of_thread {s : Net P} {p : P} {w : Nat} {bufs : List (List Byte)}
    {t : CanProg Int} (h : (s.procs p).threads[w]? = some t) : batchAt p w bufs s = batchOf bufs t := by
  rw [batchAt, h]
  rfl

section Steps

variable [DecidableEq P] {s u : Net P} {p : P} {w : Nat} {c : Config} {bufs : List (List Byte)}
  {timeouts : List Nat}

/-- The writer sends a batch. -/
theorem KeyAt.send (hp : KeyAt p w c bufs timeouts s) (hlen : ∀ buf ∈ bufs, buf.length ≤ 4)
    {ext : CanHeaderExt} {dat : Option CanDat} {len : Nat} {k : Unit → CanProg Int}
    (ht : (s.procs p).threads[w]? = some (.op (.canSend ext dat len) k)) :
    KeyAt p w c bufs timeouts
      ((s.transmit (s.procs p).home (some p) (sentPkt s p ext dat len)).setProc p
        ((s.procs p).setThread w (k ()))) := by
  obtain ⟨reached, t, hth, hl, hph⟩ := hp
  obtain rfl := Option.some.inj (hth.symm.trans ht)
  obtain ⟨i, buf, failed, j, ack, hb, hk, htal, rfl, rfl, rfl, hnext, hws, hqs, hes⟩ := hph.send rfl
  have hlog : ∀ o : Origin P, typed (keyReq c) (s.log ++ [.sent o]) = typed (keyReq c) s.log := by
    intro o
    refine typed_append_of fun e he a m r r' h => ?_
    rw [List.mem_singleton.mp he] at h
    cases h
  refine ⟨reached, k (), ?_, (hlog _).trans hl, ?_⟩
  · change (Function.update s.procs p _ p).threads[w]? = _
    rw [Function.update_self]
    exact List.getElem?_set_self (List.getElem?_eq_some_iff.mp ht).1
  · change KeyRound _ _ _ _ _ ((s.wire ++ [_]).filter _)
      ((Function.update s.procs p _ p).fdq.filter _)
      ((Function.update s.procs p _ p).ackbuf.filter _)
    rw [Function.update_self, Proc.setThread, hqs, hes, List.filter_append, hws, hnext,
      List.nil_append]
    have hpt : ∀ (d : Canhostname) (o : Origin P), pertains (keyReq c) (⟨(s.procs p).home, d,
        sentPkt s p (keyReq c) (some (copyBytes buf c.stack.dat)) buf.length, o⟩ : Msg P) = true :=
      fun _ _ => (isOurAcknak_iff _ _).mpr ⟨rfl, rfl⟩
    change KeyRound _ _ _ _ _ (List.filter _ [⟨_, (keyReq c).addr, _, _⟩]) [] []
    rw [List.filter_cons_of_pos (hpt _ _)]
    have hpay : payload (sentPkt s p (keyReq c) (some (copyBytes buf c.stack.dat)) buf.length) =
        buf :=
      payload_canSendPkt (hlen buf (List.mem_of_getElem? hb)) (s.procs p).cfg.nodeid
        (s.procs p).cfg.stack (keyReq c) c.stack.dat
    exact .waiting hb hk (.out htal rfl hpay)

/-- The wait of the writer ends with an acknowledgement or with a timeout. -/
theorem KeyAt.wait (hp : KeyAt p w c bufs timeouts s) {target : CanHeaderExt} {dat : CanDat}
    {k : Acknak × CanDat → CanProg Int}
    (ht : (s.procs p).threads[w]? = some (.op (.waitforAcknak target dat) k)) :
    target = keyReq c ∧
    (∀ e, scanAckbuf target (s.procs p).ackbuf = some e →
      ∀ o, KeyAt p w c bufs timeouts
        { s.setProc p { (s.procs p).setThread w (k (.ofType e.ext.type, e.dat)) with ackbuf := [] }
          with log := s.log ++ [.returned p target e.ext.type o] }) ∧
    (s.wire.filter (pertains (keyReq c)) = [] →
      (s.procs p).fdq.filter (isAnswer (keyReq c)) = [] →
      scanAckbuf target (s.procs p).ackbuf = none →
      KeyAt p w c bufs (timeouts ++ [batchAt p w bufs s])
        (s.setProc p { (s.procs p).setThread w (k (.timedout, dat)) with ackbuf := [] })) := by
  obtain ⟨reached, t, hth, hl, hph⟩ := hp
  obtain rfl := Option.some.inj (hth.symm.trans ht)
  obtain ⟨i, buf, failed, hb, hat, rfl, htrip, hack, hfail⟩ := hph.wait rfl
  have hi : i + 1 ≤ bufs.length := (List.getElem?_eq_some_iff.mp hb).1
  have hset : ∀ x, ((s.procs p).threads.set w x)[w]? = some x := fun x =>
    List.getElem?_set_self (List.getElem?_eq_some_iff.mp ht).1
  refine ⟨rfl, fun e he o => ?_, fun hw hq hn => ?_⟩
  · obtain ⟨hws, hqs, before, rfl, htal, hty⟩ := htrip.at_ackbuf he
    refine ⟨before ++ [i], writerLoop c (bufs.drop (i + 1)), ?_, ?_, ?_⟩
    · change (Function.update s.procs p _ p).threads[w]? = _
      rw [Function.update_self, ← hack e.dat]
      have hty' : Acknak.ofType e.ext.type = .ack := by rw [hty]; rfl
      rw [hty']
      exact hset _
    · refine (typed_append_of fun e he a m r r' h => ?_).trans hl
      rw [List.mem_singleton.mp he] at h
      cases h
    · change KeyRound _ _ _ _ _ (s.wire.filter _) ((Function.update s.procs p _ p).fdq.filter _)
        ((Function.update s.procs p _ p).ackbuf.filter _)
      rw [Function.update_self, hws]
      change KeyRound _ _ _ _ _ _ ((s.procs p).fdq.filter _) []
      rw [hqs]
      exact .next htal.acked hi
  · have hes : (s.procs p).ackbuf.filter (isBuffered (keyReq c)) = [] :=
      List.getLast?_eq_none_iff.mp hn
    have htried := htrip.tried
    rw [batchAt_of_thread hth, hat]
    refine ⟨reached, k (.timedout, dat), ?_, hl, ?_⟩
    · change (Function.update s.procs p _ p).threads[w]? = _
      rw [Function.update_self]
      exact hset _
    · change KeyRound _ _ _ _ _ (s.wire.filter _) ((Function.update s.procs p _ p).fdq.filter _)
        ((Function.update s.procs p _ p).ackbuf.filter _)
      rw [Function.update_self, hw]
      change KeyRound _ _ _ _ _ _ ((s.procs p).fdq.filter _) []
      rw [hq]
      rcases hfail with ⟨hlast, hk⟩ | ⟨j, hj, hk⟩
      · rw [hk]
        exact .next (htried.giveUp hlast) hi
      · rw [hk]
        exact .trying hb hj htried.retry

/-- The reader puts an acknowledgement into the buffer, if there is room. -/
theorem KeyAt.readAcknak (hp : KeyAt p w c bufs timeouts s) {m : Msg P} {q : List (Msg P)}
    (hf : (s.procs p).fdq = m :: q) (ht : m.pkt.ext.type.isAcknak = true) :
    KeyAt p w c bufs timeouts (s.setProc p
      { s.procs p with fdq := q, ackbuf := signalAcknak m (s.procs p).ackbuf }) := by
  obtain ⟨reached, t, hth, hl, hph⟩ := hp
  refine ⟨reached, t, ?_, hl, ?_⟩
  · change (Function.update s.procs p _ p).threads[w]? = _
    rw [Function.update_self]
    exact hth
  · change KeyRound _ _ _ _ _ (s.wire.filter _) ((Function.update s.procs p _ p).fdq.filter _)
      ((Function.update s.procs p _ p).ackbuf.filter _)
    rw [Function.update_self]
    cases hm : pertains (keyReq c) m with
    | false =>
      have hq : q.filter (isAnswer (keyReq c)) = (s.procs p).fdq.filter (isAnswer (keyReq c)) := by
        rw [hf, List.filter_cons_of_neg (by simp [isAnswer, hm])]
      have hb : (signalAcknak m (s.procs p).ackbuf).filter (isBuffered (keyReq c)) =
          (s.procs p).ackbuf.filter (isBuffered (keyReq c)) := by
        unfold signalAcknak
        split_ifs
        · refine filter_append_of_neg fun x hx => ?_
          rw [List.mem_singleton.mp hx]
          exact hm
        · rfl
      simp only [hq, hb]
      exact hph
    | true =>
      have hans : isAnswer (keyReq c) m = true := by simp [isAnswer, ht, hm]
      have hfq : (s.procs p).fdq.filter (isAnswer (keyReq c)) =
          [] ++ m :: q.filter (isAnswer (keyReq c)) := by
        rw [hf, List.filter_cons_of_pos hans]
        rfl
      rcases hph.under_way with ⟨-, hqn, -⟩ | ⟨i, buf, failed, j, ack, hb, hk, rfl, htrip⟩
      · rw [hfq] at hqn
        exact absurd hqn (by simp)
      obtain ⟨-, hq, hws, hes, before, rfl, htal, hty⟩ := htrip.at_fdq hfq
      simp only [hq, hws]
      unfold signalAcknak
      split_ifs
      · rw [List.filter_append, hes]
        have hbuf : isBuffered (keyReq c) (⟨m.pkt.ext, m.pkt.dat, m.origin⟩ : AckPkt P) = true := hm
        rw [List.filter_cons_of_pos hbuf]
        exact .waiting hb hk (.buffered htal hty)
      · rw [hes]
        exact .waiting hb hk htrip.lost

/-- The timed wait of the writer ends without an acknowledgement. -/
def timesOut (p : P) (w : Nat) (c : Config) (s : Net P) : Label P → Bool
  | .scan q i true =>
    decide (q = p ∧ i = w) && (scanAckbuf (keyReq c) (s.procs p).ackbuf).isNone
  | _ => false

/-- The batch of each wait of the writer that times out, oldest first. -/
def keyTimeouts (p : P) (w : Nat) (c : Config) (bufs : List (List Byte))
    (tr : List (Net P × Label P)) : List Nat :=
  (tr.filter fun x => timesOut p w c x.1 x.2).map fun x => batchAt p w bufs x.1

theorem keyTimeouts_snoc (p : P) (w : Nat) (c : Config) (bufs : List (List Byte))
    (tr : List (Net P × Label P)) (s : Net P) (l : Label P) :
    keyTimeouts p w c bufs (tr ++ [(s, l)]) = keyTimeouts p w c bufs tr ++
      if timesOut p w c s l then [batchAt p w bufs s] else [] := by
  rw [keyTimeouts, List.filter_append, List.map_append, ← keyTimeouts, List.filter_singleton]
  cases timesOut p w c s l <;> rfl

/-- Only the writer of `p` sends to the console of the target, nobody takes that
console for its own console object, and the writer times out only when nothing
of the batch is under way any more. -/
structure KeyOk (p : P) (w : Nat) (c : Config) (s : Net P) (l : Label P) : Prop where
  others : ∀ i pkt, l = .run p i → i ≠ w → nextSend s p i = some pkt →
    isOurAcknak pkt.ext (keyReq c) = false
  consoles : ∀ q, l = .read q → (s.procs q).consoleObject ≠ keyReq c
  timely : timesOut p w c s l = true → (∀ m ∈ s.wire, pertains (keyReq c) m = false) ∧
    ∀ m ∈ (s.procs p).fdq, isAnswer (keyReq c) m = false

theorem Keying.sent (hp : Keying p w c bufs timeouts s) {l : Label P} (hok : KeyOk p w c s l)
    (h : Effect s l u) : ∀ o, .sent o ∈ u.log → o.sender = some p →
      o.node = (u.procs p).home ∧
        (isOurAcknak o.pkt.ext (keyReq c) = true → o.pkt.ext = keyReq c) := by
  intro o ho hs
  rw [h.home p]
  rcases h.sent_cases ho with ho | ⟨hn, _⟩ | ⟨q, i, ext, dat, len, k, rfl, ht, rfl⟩
  · exact ⟨hp.home o ho hs, hp.own o ho hs⟩
  · rw [hn] at hs
    cases hs
  · obtain rfl : q = p := Option.some.inj hs
    refine ⟨rfl, fun hour => ?_⟩
    by_cases hi : i = w
    · subst hi
      obtain ⟨reached, t, hth, -, hph⟩ := hp.phase
      obtain rfl := Option.some.inj (hth.symm.trans ht)
      obtain ⟨_, _, _, _, _, _, _, _, hext, _⟩ := hph.send rfl
      exact hext
    · have hn := hok.others i _ rfl hi (nextSend_eq ht)
      rw [show isOurAcknak (sentPkt s q ext dat len).ext (keyReq c) = true from hour] at hn
      cases hn

theorem timesOut_iff {l : Label P} : timesOut p w c s l = true ↔
    l = .scan p w true ∧ scanAckbuf (keyReq c) (s.procs p).ackbuf = none := by
  constructor
  · intro h
    cases l with
    | scan q i timedout =>
      cases timedout with
      | true =>
        simp only [timesOut, Bool.and_eq_true, decide_eq_true_eq, Option.isNone_iff_eq_none] at h
        obtain ⟨⟨rfl, rfl⟩, hn⟩ := h
        exact ⟨rfl, hn⟩
      | false => cases h
    | _ => cases h
  · rintro ⟨rfl, hn⟩
    simp only [timesOut, hn, and_self, decide_true, Option.isNone_none, Bool.and_self]

/-- The wait of the writer times out, and nothing of the batch is under way. -/
theorem KeyAt.late (hp : KeyAt p w c bufs timeouts s) {l : Label P} (hok : KeyOk p w c s l)
    (hl : timesOut p w c s l = true) (h : Effect s l u) :
    KeyAt p w c bufs (timeouts ++ [batchAt p w bufs s]) u := by
  obtain ⟨hwire, hfdq⟩ := hok.timely hl
  obtain ⟨rfl, hn⟩ := timesOut_iff.mp hl
  cases h with
  | found ht he =>
    obtain ⟨rfl, -⟩ := hp.wait ht
    rw [hn] at he
    cases he
  | timeout ht hnone =>
    obtain ⟨rfl, -, htime⟩ := hp.wait ht
    refine htime (List.filter_eq_nil_iff.mpr fun m hm => ?_)
      (List.filter_eq_nil_iff.mpr fun m hm => ?_) hnone
    · rw [hwire m hm]
      simp
    · rw [hfdq m hm]
      simp
  | output hl => rcases hl with ⟨_, hl⟩ | hl <;> cases hl

/-- A step that changes one process. -/
theorem KeyAt.setProc (h : KeyAt p w c bufs timeouts s) {q : P} {x : Proc P}
    (hu : u.procs = Function.update s.procs q x)
    (hx : q = p → Dwindles w (keyReq c) (s.procs q) x)
    (hl : typed (keyReq c) u.log = typed (keyReq c) s.log)
    (hw : u.wire.filter (pertains (keyReq c)) = s.wire.filter (pertains (keyReq c))) :
    KeyAt p w c bufs timeouts u := by
  by_cases hq : q = p
  · subst hq
    refine h.shrink ?_ hl hw
    rw [hu, Function.update_self]
    exact hx rfl
  · refine h.frame ?_ hl hw
    rw [hu, Function.update_of_ne (Ne.symm hq)]

theorem KeyAt.step (hlen : ∀ buf ∈ bufs, buf.length ≤ 4) (hp : Keying p w c bufs timeouts s)
    (hc : Correlated s) (ha : Alone p (keyReq c) u.log) {l : Label P} (hok : KeyOk p w c s l)
    (hno : timesOut p w c s l = false) (h : Effect s l u) : KeyAt p w c bufs timeouts u := by
  have hph := hp.phase
  have has : Alone p (keyReq c) s.log := ha.mono h.log_prefix
  have hother : ∀ {q : P} (x : Proc P), q ≠ p → Function.update s.procs q x p = s.procs p :=
    fun x hne => Function.update_of_ne hne.symm ..
  cases h with
  | @send q i ext dat len k ht =>
    by_cases hq : q = p ∧ i = w
    · obtain ⟨rfl, rfl⟩ := hq
      exact hph.send hlen ht
    · have hne : pertains (keyReq c) (⟨(s.procs q).home, ext.addr, sentPkt s q ext dat len,
          sentBy s q ext dat len⟩ : Msg P) = false := by
        rw [Bool.eq_false_iff]
        intro hpt
        have hs := ha (sentBy s q ext dat len)
          (List.mem_append_right _ (List.mem_singleton_self _)) hpt
        obtain rfl : q = p := Option.some.inj hs
        have hn := hok.others i _ rfl (fun hi => hq ⟨rfl, hi⟩) (nextSend_eq ht)
        rw [show isOurAcknak (sentPkt s q ext dat len).ext (keyReq c) = true from hpt] at hn
        cases hn
      have hwire : (s.wire ++ [(⟨(s.procs q).home, ext.addr, sentPkt s q ext dat len,
          sentBy s q ext dat len⟩ : Msg P)]).filter (pertains (keyReq c)) =
          s.wire.filter (pertains (keyReq c)) := by
        refine filter_append_of_neg fun x hx => ?_
        rw [List.mem_singleton.mp hx]
        exact hne
      exact hph.setProc rfl
        (fun hqp => ⟨List.getElem?_set_ne fun hi => hq ⟨hqp, hi⟩, .inl rfl, .inl rfl⟩)
        (typed_sent _ _) hwire
  | @setConsole q i ext k ht =>
    refine hph.setProc rfl (fun hqp => ⟨List.getElem?_set_ne ?_, .inl rfl, .inl rfl⟩) rfl rfl
    subst hqp
    exact hph.thread_ne ht (fun _ _ _ h => by cases h) fun _ _ h => by cases h
  | @getConsole q i k ht =>
    refine hph.setProc rfl (fun hqp => ⟨List.getElem?_set_ne ?_, .inl rfl, .inl rfl⟩) rfl rfl
    subst hqp
    exact hph.thread_ne ht (fun _ _ _ h => by cases h) fun _ _ h => by cases h
  | @found q i timedout target dat k e ht he =>
    by_cases hq : q = p ∧ i = w
    · obtain ⟨rfl, rfl⟩ := hq
      obtain ⟨rfl, hfound, -⟩ := hph.wait ht
      exact hfound e he _
    · exact hph.setProc rfl
        (fun hqp => ⟨List.getElem?_set_ne fun hi => hq ⟨hqp, hi⟩, .inl rfl, .inr rfl⟩)
        (typed_returned _ _ _ _ _) rfl
  | @timeout q i target dat k ht hn =>
    by_cases hq : q = p ∧ i = w
    · obtain ⟨rfl, rfl⟩ := hq
      obtain ⟨rfl, -, -⟩ := hph.wait ht
      rw [timesOut_iff.mpr ⟨rfl, hn⟩] at hno
      cases hno
    · exact hph.setProc rfl
        (fun hqp => ⟨List.getElem?_set_ne fun hi => hq ⟨hqp, hi⟩, .inl rfl, .inr rfl⟩) rfl rfl
  | discard _ _ => exact hph.setProc rfl (fun _ => ⟨rfl, .inl rfl, .inr rfl⟩) rfl rfl
  | @recvFound q i ext k m q' ht hf _ _ =>
    refine hph.setProc rfl (fun hqp => ⟨List.getElem?_set_ne ?_, filter_tail hf, .inl rfl⟩)
      (typed_returned _ _ _ _ _) rfl
    subst hqp
    exact hph.thread_ne ht (fun _ _ _ h => by cases h) fun _ _ h => by cases h
  | recvSkip _ hf => exact hph.setProc rfl (fun _ => ⟨rfl, filter_tail hf, .inl rfl⟩) rfl rfl
  | @interrupt q i ext k ht =>
    refine hph.setProc rfl (fun hqp => ⟨List.getElem?_set_ne ?_, .inl rfl, .inl rfl⟩) rfl rfl
    subst hqp
    exact hph.thread_ne ht (fun _ _ _ h => by cases h) fun _ _ h => by cases h
  | @readAcknak q m q' hf ht =>
    by_cases hq : q = p
    · subst hq
      exact hph.readAcknak hf ht
    · exact hph.frame (hother _ hq) rfl rfl
  | @readDat q m q' hf ht hcons =>
    refine hph.setProc rfl (fun _ => ⟨rfl, filter_tail hf, .inl rfl⟩) rfl
      (filter_append_of_neg fun x hx => ?_)
    rw [List.mem_singleton.mp hx, Bool.eq_false_iff]
    intro hpt
    have hm := (hc.items.fdq q m (by rw [hf]; exact List.mem_cons_self)).1
    have hs := hm.sender has hpt
    have hreq : IsRequest m.pkt.ext := by rw [IsRequest, ht]; rfl
    have hpk := (hm.of_request hreq).1
    have hour : isOurAcknak m.origin.pkt.ext (keyReq c) = true := by
      rw [← hpk]
      exact hpt
    refine hok.consoles q rfl ?_
    rw [← hcons, hpk]
    exact hp.own _ hm.sent hs hour
  | @readStolen q m q' hf ht hob hdat =>
    refine hph.setProc rfl (fun hqp => ⟨?_, filter_tail hf, .inl rfl⟩) rfl
      (filter_append_of_neg fun x hx => ?_)
    · subst hqp
      exact hph.spawned _
    · rw [List.mem_singleton.mp hx, Bool.eq_false_iff]
      intro hpt
      have hobj : m.pkt.ext.object = 0 := ((isOurAcknak_iff _ _).mp hpt).1
      rw [hob] at hobj
      exact absurd hobj (by decide)
  | readSkip hf _ => exact hph.setProc rfl (fun _ => ⟨rfl, filter_tail hf, .inl rfl⟩) rfl rfl
  | deliver hm hd => exact KeyAt.deliver hp hc ha hm hd
  | lose hm => exact hph.lose hm
  | @overflow q =>
    refine hph.setProc rfl (fun _ => ⟨rfl, ?_, .inl rfl⟩) rfl rfl
    rcases filter_dropLast (f := isAnswer (keyReq c)) (s.procs q).fdq with he | ⟨x, he⟩
    · exact .inl he
    · exact .inr ⟨_, x, [], he, (List.append_nil _).symm⟩
  | @spawn q t ht =>
    refine hph.setProc rfl (fun hqp => ⟨?_, .inl rfl, .inl rfl⟩) rfl rfl
    subst hqp
    exact hph.spawned _
  | @output _ a _ hl hout =>
    obtain ⟨ms, hw, hms⟩ := hout.wire
    obtain ⟨es, hlog, hes⟩ := hout.log
    refine hph.frame (by rw [hout.procs]) ?_ ?_
    · rw [hlog]
      refine typed_append_of fun e he a m r r' h => ?_
      obtain ⟨o, ho, _⟩ := hes e he
      rw [ho] at h
      cases h
    · rw [hw]
      refine filter_append_of_neg fun x hx => Bool.eq_false_iff.mpr fun hpt => ?_
      obtain ⟨_, hx', hsent⟩ := hms x hx
      have hs := ha _ hsent (by rw [hx'.pkt]; exact hpt)
      rw [hx'.sender] at hs
      cases hs

theorem Keying.run {s₀ : Net P} {tr : List (Net P × Label P)} (h₀ : Starts s₀)
    (hp : (s₀.procs p).threads[w]? = some (writerLoop c bufs))
    (hlen : ∀ buf ∈ bufs, buf.length ≤ 4) (h : Run NetStep s₀ tr s)
    (hok : ∀ x ∈ tr, KeyOk p w c x.1 x.2) (ha : Alone p (keyReq c) s.log) :
    Keying p w c bufs (keyTimeouts p w c bufs tr) s := by
  induction h with
  | nil =>
    refine ⟨fun o ho => ?_, fun o ho => ?_, [], _, hp, ?_, ?_⟩
    · rw [h₀.log] at ho
      cases ho
    · rw [h₀.log] at ho
      cases ho
    · rw [h₀.log]
      rfl
    · rw [h₀.wire, h₀.fdq, h₀.ackbuf]
      exact .next (.start maxRetries) (Nat.zero_le _)
  | @snoc tr t u l hr hst ih =>
    have hc : Correlated t := hr.invariant h₀.correlated fun _ _ _ hp hs => hp.step hs
    have he := hst.effect hc.flushed
    have hl := hok (t, l) (List.mem_append_right _ (List.mem_singleton_self _))
    have hi := ih (fun x hx => hok x (List.mem_append_left _ hx)) (ha.mono he.log_prefix)
    have hsent := hi.sent hl he
    refine ⟨fun o ho hs => (hsent o ho hs).1, fun o ho hs => (hsent o ho hs).2, ?_⟩
    rw [keyTimeouts_snoc]
    cases hlate : timesOut p w c t l with
    | true => exact hi.phase.late hl hlate he
    | false =>
      rw [if_neg Bool.false_ne_true, List.append_nil]
      exact KeyAt.step hlen hi hc ha hl hlate he

end Steps

theorem map_range_getD {bufs : List (List Byte)} {i : Nat} (hi : i ≤ bufs.length) :
    (List.range i).map (fun j => bufs.getD j []) = bufs.take i := by
  refine List.ext_getElem (by simp [hi]) fun j hj hj' => ?_
  have hlt : j < bufs.length := by
    rw [List.length_map, List.length_range] at hj
    omega
  simp [List.getElem?_eq_getElem hlt]

/-- While only the writer of one cancon sends to the console of a node, and its
waits time out only when nothing of the batch is under way any more, the console
takes the batches in the order in which they were typed, each at most once more
than its waits have timed out. A batch that the writer is done with and that
never arrived has cost it all its tries. Without timeouts what is taken is what
was typed. -/
theorem keyboard_typed [DecidableEq P] {s₀ s : Net P} {tr : List (Net P × Label P)} {p : P}
    {w : Nat} {c : Config} {bufs : List (List Byte)} (h₀ : Starts s₀)
    (hp : (s₀.procs p).threads[w]? = some (writerLoop c bufs))
    (hlen : ∀ buf ∈ bufs, buf.length ≤ 4) (h : Run NetStep s₀ tr s)
    (hok : ∀ x ∈ tr, KeyOk p w c x.1 x.2) (ha : Alone p (keyReq c) s.log) :
    ∃ reached : List Nat,
      typed (keyReq c) s.log = reached.map (fun j => bufs.getD j []) ∧
      reached.Pairwise (· ≤ ·) ∧ (∀ j ∈ reached, j < bufs.length) ∧
      (∀ j, reached.count j ≤ (keyTimeouts p w c bufs tr).count j + 1) ∧
      reached.length ≤ bufs.length + (keyTimeouts p w c bufs tr).length ∧
      (∀ j < batchAt p w bufs s, j ∉ reached →
        (keyTimeouts p w c bufs tr).count j = maxRetries) ∧
      maxRetries * missing (batchAt p w bufs s) reached ≤ (keyTimeouts p w c bufs tr).length ∧
      ((s.procs p).threads[w]? = some (pure 0) → batchAt p w bufs s = bufs.length) ∧
      (keyTimeouts p w c bufs tr = [] → typed (keyReq c) s.log <+: bufs ∧
        ((s.procs p).threads[w]? = some (pure 0) → typed (keyReq c) s.log = bufs)) := by
  obtain ⟨reached, t, hth, hl, hph⟩ := (Keying.run h₀ hp hlen h hok ha).phase
  have hgiven : ∀ j < batchAt p w bufs s, j ∉ reached →
      (keyTimeouts p w c bufs tr).count j = maxRetries := by
    rw [batchAt_of_thread hth]
    exact fun j hj hn => hph.givenUp hj hn
  refine ⟨reached, hl, hph.sorted, hph.lt, fun j => ?_, ?_, hgiven, mul_missing_le hgiven,
    fun hd => ?_, fun hz => ?_⟩
  · have hle := hph.paid.count_le j
    have hone := List.nodup_iff_count.mp (List.nodup_range (n := bufs.length)) j
    rw [List.count_append] at hle
    omega
  · have hle := hph.paid.length_le
    rw [List.length_append, List.length_range] at hle
    omega
  · rw [batchAt_of_thread hd]
    rfl
  · rw [hz] at hph
    obtain ⟨n, hn, rfl, hall⟩ := hph.exact
    rw [hl, map_range_getD hn]
    refine ⟨List.take_prefix _ _, fun hd => ?_⟩
    rw [hall (Option.some.inj (hth.symm.trans hd)), List.take_length]

/-- A check of `KeyOk` for a writer that is the only thread of its process. -/
def keyOk [DecidableEq P] (p : P) (w : Nat) (c : Config) (s : Net P) (l : Label P) : Bool :=
  match l with
  | .run _ i => decide (i = w)
  | .read q => decide ((s.procs q).consoleObject ≠ keyReq c)
  | .scan _ _ true => (s.wire.all fun m => !pertains (keyReq c) m) &&
      (s.procs p).fdq.all fun m => !isAnswer (keyReq c) m
  | _ => true

theorem KeyOk.of_check [DecidableEq P] {p : P} {w : Nat} {c : Config} {s : Net P} {l : Label P}
    (h : keyOk p w c s l = true) : KeyOk p w c s l := by
  refine ⟨fun i pkt hl hi _ => ?_, fun q hl => ?_, fun ht => ?_⟩
  · subst hl
    exact absurd (of_decide_eq_true h) hi
  · subst hl
    exact of_decide_eq_true h
  · cases l with
    | scan q i timedout =>
      cases timedout with
      | true =>
        simpa only [keyOk, Bool.and_eq_true, List.all_eq_true, Bool.not_eq_true'] using h
      | false => cases ht
    | _ => cases ht

def isDone : List (CanProg Int) → Bool
  | .pure 0 :: _ => true
  | _ => false

theorem isDone_eq {ts : List (CanProg Int)} (h : isDone ts = true) : ts[0]? = some (pure 0) := by
  unfold isDone at h
  split at h
  · rfl
  · cases h

def lsKeys : List (List Byte) := [[108, 115], [10]]

def keyboardNet : Net Unit :=
  { Net.boot fun _ => Proc.boot (clientConfig false) (writerLoop (clientConfig false) lsKeys) with
    nodes := fun a => .withHost (packNodeid a) (clientConfig false).consoleObject }

/-- The first acknowledgement is lost, and the batch is typed a second time. -/
def keyboardRun : List (Label Unit) :=
  [.run () 0, .deliver 0, .lose 0, .scan () 0 true,
    .run () 0, .deliver 0, .deliver 0, .read (), .scan () 0 false,
    .run () 0, .deliver 0, .deliver 0, .read (), .scan () 0 false]

theorem keyboard_typed_ls :
    ∃ tr s, ∃ reached : List Nat,
      Run NetStep keyboardNet tr s ∧ tr.map Prod.snd = keyboardRun ∧
      typed (keyReq (clientConfig false)) s.log = reached.map (fun j => lsKeys.getD j []) ∧
      reached.Pairwise (· ≤ ·) ∧ reached.count 0 ≤ 2 ∧ reached.count 1 ≤ 1 ∧ 0 ∈ reached ∧
      1 ∈ reached := by
  have hst : Starts keyboardNet := by
    refine ⟨fun _ => rfl, rfl, rfl, fun _ => rfl, fun _ => rfl, fun _ t ht => ?_⟩
    rw [List.mem_singleton.mp ht]
    have hsend : ∀ buf, OpsOnly IsRequestOp (sendDat (clientConfig false) buf) := fun _ =>
      OpsOnly.bind (opsOnly_mysend (show IsRequest (keyReq (clientConfig false)) from rfl)
        (fun _ => trivial) _ _) fun _ => trivial
    exact OpsOnly.bind (hsend _) fun _ => OpsOnly.bind (hsend _) fun _ => trivial
  have hs : (steps (fun s l => Net.step l s) (keyOk () 0 (clientConfig false)) keyboardNet
      keyboardRun).any (fun s => isDone (s.procs ()).threads &&
        s.log.all (Event.fits () (keyReq (clientConfig false)))) = true := by decide +kernel
  obtain ⟨s, hsteps, heq⟩ := (Option.any_eq_true _ _).mp hs
  rw [Bool.and_eq_true] at heq
  obtain ⟨hdone, hall⟩ := heq
  obtain ⟨hrun, hls, hok⟩ := run_visited hsteps
  obtain ⟨reached, hl, hsort, -, hcount, -, hgiven, -, hat, -⟩ := keyboard_typed (w := 0) hst rfl
    (by decide) hrun (fun x hx => .of_check (hok x hx)) (alone_of_all hall)
  have hone : keyTimeouts () 0 (clientConfig false) lsKeys
      (visited (fun s l => Net.step l s) keyboardNet keyboardRun) = [0] := by decide +kernel
  rw [hat (isDone_eq hdone)] at hgiven
  rw [hone] at hcount hgiven
  refine ⟨_, s, reached, hrun, hls, hl, hsort, hcount 0, hcount 1, ?_, ?_⟩
  · by_contra hn
    exact absurd (hgiven 0 (by decide) hn) (by decide)
  · by_contra hn
    exact absurd (hgiven 1 (by decide) hn) (by decide)

end MeikoCs2
