import MeikoCs2.PingRounds

/-! The runs of a network with canping in it. What canping prints tells which
of its requests have reached the target. -/

namespace MeikoCs2

variable {P : Type}

section Deliveries

variable {s u : Net P} {p : P} {req : CanHeaderExt} {val : CanDat} {n : Nat}

/-- What pertains to the object comes from canping. -/
theorem Tracks.sender {log : List (Event P)} {m : Msg P} (ht : Tracks log m)
    (ha : Alone p req log) (hm : pertains req m = true) : m.origin.sender = some p := by
  refine ha _ ht.sent ?_
  obtain ⟨ho, had⟩ := (isOurAcknak_iff _ _).mp hm
  rcases ht.way with ⟨he, _⟩ | ⟨_, _, _, he⟩
  · rwa [← he]
  · obtain ⟨ho', had'⟩ := (isOurAcknak_iff _ _).mp he
    exact (isOurAcknak_iff _ _).mpr ⟨ho'.trans ho, had'.trans had⟩

/-- Other calls than those of the loop are made by other processes. -/
theorem PingAt.ne (hp : PingAt p req val n s) {q : P} {i : Nat} {o : CanOp}
    {k : CanOp.Res o → CanProg Int} (ht : (s.procs q).threads[i]? = some (.op o k))
    (hs : ∀ ext dat len, o ≠ .canSend ext dat len) (hr : ∀ ext, o ≠ .canRecvAck ext) : p ≠ q := by
  rintro rfl
  obtain ⟨_, t, hth, _, _, hph⟩ := hp
  rcases hph.no_other (eq_of_single hth ht).2 with ⟨ext, dat, len, ho⟩ | ⟨ext, ho⟩
  · exact hs _ _ _ ho
  · exact hr _ ho

theorem writes_delivers {i : Nat} {m : Msg P} (hd : Delivers s i m u) :
    writes req u.log = writes req s.log ++
      if m.dst = req.addr ∧ m.pkt.ext.object = req.object ∧ m.pkt.ext.type = .wo then [m.pkt.dat]
      else [] := by
  obtain ⟨es, hl, hes⟩ := hd.log
  have hn : ∀ e ∈ es, ∀ a m r r', e ≠ .dispatched a m r r' := by
    intro e he a m r r' h
    obtain ⟨o, ho, _⟩ := hes e he
    rw [ho] at h
    cases h
  rw [hl, List.append_cons, writes_append_of hn, writes, List.filterMap_append, ← writes]
  congr 1
  simp only [List.filterMap_cons, List.filterMap_nil]
  split_ifs <;> rfl

/-- Of what a delivery puts on the wire, only the reply can pertain. -/
theorem wire_delivers {i : Nat} {m : Msg P} (hd : Delivers s i m u) (ha : Alone p req u.log) :
    u.wire.filter (pertains req) = (s.wire.eraseIdx i).filter (pertains req) ++
      ((replies m.pkt (s.nodes m.dst)).map m.reply).filter (pertains req) := by
  obtain ⟨ms, hw, hms, hout⟩ := hd.wire
  rw [hw, List.filter_append, ← hms, List.filter_filter]
  congr 1
  refine List.filter_congr fun x hx => ?_
  cases hk : x.pkt.ext.type.isAcknak with
  | true => simp
  | false =>
    obtain ⟨_, ho, hs⟩ := hout x hx hk
    have hn : pertains req x = false := by
      rw [Bool.eq_false_iff]
      intro hpt
      have hsd := ha _ hs (by rw [ho.pkt]; exact hpt)
      rw [ho.sender] at hsd
      cases hsd
    simp [hn]

theorem pertains_reply {m : Msg P} {s : Node} {r : CanPacket} (hr : r ∈ replies m.pkt s) :
    pertains req (m.reply r) = pertains req m := by
  obtain ⟨_, t, d, _, rfl⟩ := isReply_of_mem_replies hr
  rfl

theorem PingAt.frame (h : PingAt p req val n s) (hp : u.procs p = s.procs p)
    (hl : writes req u.log = writes req s.log) (hv : u.nodes = s.nodes)
    (hw : u.wire.filter (pertains req) = s.wire.filter (pertains req)) : PingAt p req val n u :=
  h.congr (by rw [hp]) hl (by rw [hv]) hw (by rw [hp])

theorem Delivers.objVal {i : Nat} {m : Msg P} (hd : Delivers s i m u) (a : Canhostname) :
    (u.nodes a).objVal =
      if a = m.dst ∧ IsTestWrite m.pkt then m.pkt.dat else (s.nodes a).objVal := by
  rw [hd.nodes]
  by_cases ha : a = m.dst
  · rw [ha, Function.update_self]
    simp only [true_and]
    exact canobjPacket_objVal m.pkt (s.nodes m.dst)
  · rw [Function.update_of_ne ha, if_neg fun h => ha h.1]

/-- The ping reaches the target and is answered, its answer reaches the file of
canping, or the packet is none of canping's. -/
theorem PingAt.deliver (hr : req.type = .wo) (ho : req.object = Canobj.testrw)
    (hp : Pinging p req val n s) (hc : Correlated s) (ha : Alone p req u.log) {i : Nat} {m : Msg P}
    (hm : s.wire[i]? = some m) (hd : Delivers s i m u) : PingAt p req val n u := by
  have hv := hd.objVal
  have has : Alone p req s.log := by
    obtain ⟨es, hl, _⟩ := hd.log
    exact ha.mono ⟨_, hl.symm⟩
  have ht := hc.items.wire m (List.mem_of_getElem? hm)
  obtain ⟨hth, hq, hqa⟩ := hd.fdq p
  have hw := wire_delivers hd ha
  have hl : writes req u.log = _ := writes_delivers hd
  obtain ⟨reached, t, hs, hlog, hval, hph⟩ := hp.phase
  rcases filter_eraseIdx (f := pertains req) hm with ⟨hn, hew⟩ | ⟨hpt, as, bs, hfw, hew⟩
  · -- a packet that is not canping's writes nothing and is answered elsewhere
    have hnw : ¬ (m.dst = req.addr ∧ m.pkt.ext.object = req.object ∧ m.pkt.ext.type = .wo) := by
      rintro ⟨h₁, h₂, h₃⟩
      obtain ⟨_, _, hdst⟩ := ht.of_request (by rw [IsRequest, h₃]; rfl)
      obtain ⟨hpk, _, _⟩ := ht.of_request (by rw [IsRequest, h₃]; rfl)
      have hpt : pertains req m = true :=
        (isOurAcknak_iff _ _).mpr ⟨h₂, by rw [hpk, ← hdst, h₁]⟩
      rw [hn] at hpt
      cases hpt
    have hrn : ((replies m.pkt (s.nodes m.dst)).map m.reply).filter (pertains req) = [] := by
      refine List.filter_eq_nil_iff.mpr fun x hx => ?_
      obtain ⟨r, hr, rfl⟩ := List.mem_map.mp hx
      rw [pertains_reply hr, hn]
      simp
    have hna : isAnswer req m = false := by simp [isAnswer, hn]
    refine hp.phase.congr hth ?_ ?_ ?_ ?_
    · rw [hl, if_neg hnw, List.append_nil]
    · have hnv : ¬ (req.addr = m.dst ∧ IsTestWrite m.pkt) := fun h =>
        hnw ⟨h.1.symm, h.2.1.trans ho.symm, h.2.2⟩
      rw [hv, if_neg hnv]
    · rw [hw, hew, hrn, List.append_nil]
    · rcases hq with hq | ⟨_, hq⟩
      · rw [hq]
      · rw [hq, List.filter_append]
        simp [hna]
  · have hso := ht.sender has hpt
    obtain ⟨hext, hnode⟩ := hp.own _ ht.sent hso
    obtain ⟨r, count, resp, hn, rfl, rfl, rfl, hqs, -, htrip⟩ := hph.at_wire hfw
    rcases htrip with ⟨hsub, he, hdat⟩ | ⟨before, rfl, hsub, hans⟩
    · -- the ping arrives
      have htw : IsTestWrite m.pkt := ⟨by rw [he, ho], by rw [he, hr]⟩
      have hreq : IsRequest m.pkt.ext := by rw [IsRequest, htw.2]; rfl
      have hdst : m.dst = req.addr := by rw [(ht.of_request hreq).2.2, hext]
      have hna : isAnswer req m = false := by
        have hk : m.pkt.ext.type.isAcknak = false := hreq
        simp [isAnswer, hk]
      refine ⟨reached ++ [r], _, hth.trans hs, ?_, ?_, ?_⟩
      · rw [hl, if_pos ⟨hdst, by rw [he], htw.2⟩, hlog, hdat, List.map_append]
        rfl
      · rw [hv, if_pos ⟨hdst.symm, htw⟩, hdat]
        simp [lastVal]
      · have hqe : (u.procs p).fdq.filter (isAnswer req) = [] := by
          rcases hq with hq | ⟨_, hq⟩
          · rw [hq, hqs]
          · rw [hq, List.filter_append, hqs]
            simp [hna]
        rw [hw, hew, hqe, replies_testWrite htw]
        have hval' : (s.nodes m.dst).objVal = lastVal val reached := by rw [hdst, hval]
        have hans : PingAnswer req val reached (m.reply (fixup (s.nodes m.dst)
            (acknakPkt .ack m.pkt (some (s.nodes m.dst).objVal)))) := by
          refine ⟨?_, rfl, rfl, hval'⟩
          exact hpt
        rw [List.map_cons, List.map_nil, List.filter_cons_of_pos hans.object]
        exact .waiting hn (.back hsub hans)
    · -- the answer arrives
      have hak : m.pkt.ext.type.isAcknak = true := by rw [hans.type]; rfl
      have hdst : (s.procs p).home = m.dst := by rw [(ht.of_acknak hak).2.1, hnode]
      have hnw : m.pkt.ext.type ≠ .wo := by rw [hans.type]; decide
      have hia : isAnswer req m = true := by simp [isAnswer, hak, hpt]
      refine ⟨before ++ [r], _, hth.trans hs, ?_, ?_, ?_⟩
      · rw [hl, if_neg fun h => hnw h.2.2, List.append_nil, hlog]
      · rw [hv, if_neg fun h => hnw h.2.2, hval]
      · rw [hw, hew, replies_of_acknak hak, hqa hdst hak, List.filter_append, hqs]
        simp only [List.filter_cons_of_pos hia, List.filter_nil, List.map_nil, List.append_nil,
          List.nil_append]
        exact .waiting hn (.arrived hsub hans)

theorem PingAt.lose (hp : PingAt p req val n s) {i : Nat} {m : Msg P}
    (hm : s.wire[i]? = some m) : PingAt p req val n { s with wire := s.wire.eraseIdx i } := by
  rcases filter_eraseIdx (f := pertains req) hm with ⟨-, he⟩ | ⟨-, as, bs, hf, he⟩
  · exact hp.frame rfl rfl rfl he
  · obtain ⟨reached, t, hth, hl, hv, hph⟩ := hp
    obtain ⟨r, count, resp, hn, rfl, rfl, rfl, hqs, hsub, -⟩ := hph.at_wire hf
    refine ⟨reached, _, hth, hl, hv, ?_⟩
    change PingRound _ _ _ _ _ ((s.wire.eraseIdx i).filter _) _
    rw [he, hqs]
    exact .waiting hn (.gone hsub)

end Deliveries

section Steps

variable [DecidableEq P] {s u : Net P} {l : Label P}

theorem NetStep.objVal (h : NetStep s l u) {a : Canhostname}
    (hl : (∃ m, l = .printk a m) ∨ l = .ackTimeout a) (b : Canhostname) :
    (u.nodes b).objVal = (s.nodes b).objVal := by
  rcases hl with ⟨m, rfl⟩ | rfl
  · rw [← Option.some.inj h]
    exact objVal_output (printk_objVal m _) b
  · rw [← Option.some.inj h]
    exact objVal_output (canconRecvAck_prints true _).objVal b

/-- What canping leaves to others, and when its alarm may go off: it has no
reader and starts no tasks, and a ping is given up only when nothing of it is
under way any more. -/
def PingOk (p : P) (s : Net P) : Label P → Prop
  | .read q => q ≠ p
  | .spawn q _ => q ≠ p
  | .interrupt q _ => q = p → (∀ m ∈ s.wire, m.origin.sender ≠ some p) ∧
      ∀ m ∈ (s.procs p).fdq, m.origin.sender = some p → m.pkt.ext.type.isAcknak = false
  | _ => True

instance (p : P) (s : Net P) (l : Label P) : Decidable (PingOk p s l) := by
  cases l <;> simp only [PingOk] <;> infer_instance

variable {p : P} {req : CanHeaderExt} {val : CanDat} {n : Nat}

theorem Pinging.own_step (hp : Pinging p req val n s) (h : Effect s l u) :
    ∀ o, .sent o ∈ u.log → o.sender = some p → o.pkt.ext = req ∧ o.node = (u.procs p).home := by
  intro o ho hs
  rw [h.home p]
  rcases h.sent_cases ho with ho | ⟨hn, _⟩ | ⟨q, i, ext, dat, len, k, rfl, ht, rfl⟩
  · exact hp.own o ho hs
  · rw [hn] at hs
    cases hs
  · obtain rfl : q = p := Option.some.inj hs
    obtain ⟨reached, t, hth, _, _, hph⟩ := hp.phase
    obtain ⟨_, he⟩ := eq_of_single hth ht
    obtain ⟨_, _, _, _, _, hext, _⟩ := hph.send he
    exact ⟨hext, rfl⟩

theorem PingAt.send (hp : PingAt p req val n s) {i : Nat} {ext : CanHeaderExt}
    {dat : Option CanDat} {len : Nat} {k : Unit → CanProg Int}
    (ht : (s.procs p).threads[i]? = some (.op (.canSend ext dat len) k)) :
    PingAt p req val n ((s.transmit (s.procs p).home (some p) (sentPkt s p ext dat len)).setProc p
      ((s.procs p).setThread i (k ()))) := by
  obtain ⟨reached, t, hth, hl, hv, hph⟩ := hp
  obtain ⟨rfl, he⟩ := eq_of_single hth ht
  obtain ⟨r, count, resp, hn, hsub, rfl, rfl, rfl, hk, hws, hqs⟩ := hph.send he
  have hlog : ∀ o : Origin P, writes ext (s.log ++ [.sent o]) = writes ext s.log := by
    intro o
    refine writes_append_of fun e he a m r r' h => ?_
    rw [List.mem_singleton.mp he] at h
    cases h
  refine ⟨reached, k (), ?_, (hlog _).trans hl, hv, ?_⟩
  · change (Function.update s.procs p _ p).threads = _
    rw [Function.update_self, Proc.setThread, hth]
    rfl
  · change PingRound _ _ _ _ _ ((s.wire ++ [_]).filter _)
      ((Function.update s.procs p _ p).fdq.filter _)
    rw [Function.update_self, Proc.setThread, hqs, List.filter_append, hws, hk, List.nil_append]
    refine .waiting hn ?_
    have hpt : ∀ o : Origin P, pertains ext (⟨(s.procs p).home, ext.addr,
        sentPkt s p ext (some (pingNum r)) 4, o⟩ : Msg P) = true :=
      fun _ => (isOurAcknak_iff _ _).mpr ⟨rfl, rfl⟩
    change Trip ext val r reached (List.filter _ [⟨_, ext.addr, _, _⟩]) []
    rw [List.filter_cons_of_pos (hpt _)]
    exact .out hsub rfl rfl

/-- canping takes packets from its file: an answer ends the round, and so does
the alarm. -/
theorem PingAt.recv (hp : PingAt p req val n s) {i : Nat} {ext : CanHeaderExt}
    {k : Option (CanType × CanDat × Int) → CanProg Int}
    (ht : (s.procs p).threads[i]? = some (.op (.canRecvAck ext) k)) :
    ext = req ∧
    (∀ m q a, (s.procs p).fdq = m :: q → isAnswer req m = true →
      ∀ o, PingAt p req val n { s.setProc p { (s.procs p).setThread i (k a) with fdq := q } with
        log := s.log ++ [.returned p ext m.pkt.ext.type o] }) ∧
    (∀ m q, (s.procs p).fdq = m :: q →
      PingAt p req val n (s.setProc p { s.procs p with fdq := q })) ∧
    (s.wire.filter (pertains req) = [] → (s.procs p).fdq.filter (isAnswer req) = [] →
      PingAt p req val n (s.setProc p ((s.procs p).setThread i (k none)))) := by
  obtain ⟨reached, t, hth, hl, hv, hph⟩ := hp
  obtain ⟨rfl, he⟩ := eq_of_single hth ht
  obtain ⟨r, count, resp, hn, rfl, rfl, hk, htrip⟩ := hph.recv he
  have hset : ∀ x, ((s.procs p).threads.set 0 x) = [x] := fun x => by rw [hth]; rfl
  refine ⟨rfl, fun m q a hf hm o => ?_, fun m q hf => ?_, fun hw hq => ?_⟩
  · have hfq : (s.procs p).fdq.filter (isAnswer ext) = [] ++ m :: q.filter (isAnswer ext) := by
      rw [hf, List.filter_cons_of_pos hm]
      rfl
    obtain ⟨-, hq, hws, -⟩ := htrip.at_fdq hfq
    obtain ⟨resp, hka⟩ := hk a
    refine ⟨reached, k a, ?_, ?_, hv, ?_⟩
    · change (Function.update s.procs p _ p).threads = _
      rw [Function.update_self]
      exact hset _
    · refine (writes_append_of fun e he a m r r' h => ?_).trans hl
      rw [List.mem_singleton.mp he] at h
      cases h
    · change PingRound _ _ _ _ _ (s.wire.filter _) ((Function.update s.procs p _ p).fdq.filter _)
      rw [Function.update_self, hws, hka, hq]
      exact .idle (by omega) htrip.sublist
  · refine ⟨reached, pingWait ext count (pingNum r) resp, ?_, hl, hv, ?_⟩
    · change (Function.update s.procs p _ p).threads = _
      rw [Function.update_self]
      exact hth
    · change PingRound _ _ _ _ _ (s.wire.filter _) ((Function.update s.procs p _ p).fdq.filter _)
      rw [Function.update_self]
      cases hm : isAnswer ext m with
      | false =>
        have hq : q.filter (isAnswer ext) = (s.procs p).fdq.filter (isAnswer ext) := by
          rw [hf, List.filter_cons_of_neg (by simp [hm])]
        rw [hq]
        exact hph
      | true =>
        have hfq : (s.procs p).fdq.filter (isAnswer ext) = [] ++ m :: q.filter (isAnswer ext) := by
          rw [hf, List.filter_cons_of_pos hm]
          rfl
        obtain ⟨-, hq, hws, -⟩ := htrip.at_fdq hfq
        rw [hq, hws]
        exact .waiting hn htrip.of_gone
  · obtain ⟨resp, hka⟩ := hk none
    refine ⟨reached, k none, ?_, hl, hv, ?_⟩
    · change (Function.update s.procs p _ p).threads = _
      rw [Function.update_self]
      exact hset _
    · change PingRound _ _ _ _ _ (s.wire.filter _) ((Function.update s.procs p _ p).fdq.filter _)
      rw [Function.update_self, hka, hw]
      change PingRound _ _ _ _ _ _ ((s.procs p).fdq.filter _)
      rw [hq]
      exact .idle (by omega) htrip.sublist

theorem PingAt.overflow (hp : PingAt p req val n s) :
    PingAt p req val n (s.setProc p { s.procs p with fdq := (s.procs p).fdq.dropLast }) := by
  obtain ⟨reached, t, hth, hl, hv, hph⟩ := hp
  refine ⟨reached, t, ?_, hl, hv, ?_⟩
  · change (Function.update s.procs p _ p).threads = _
    rw [Function.update_self]
    exact hth
  · change PingRound _ _ _ _ _ (s.wire.filter _) ((Function.update s.procs p _ p).fdq.filter _)
    rw [Function.update_self]
    rcases filter_dropLast (f := isAnswer req) (s.procs p).fdq with he | ⟨x, he⟩
    · simpa only [he] using hph
    · obtain ⟨r, count, resp, hn, rfl, hd, -, hws, hsub, -⟩ := hph.at_fdq he
      simp only [hd, hws]
      exact .waiting hn (.gone hsub)

theorem PingAt.step (hr : req.type = .wo) (ho : req.object = Canobj.testrw)
    (hp : Pinging p req val n s) (hc : Correlated s) (ha : Alone p req u.log) (hok : PingOk p s l)
    (h : NetStep s l u) : PingAt p req val n u := by
  have hph := hp.phase
  have hother : ∀ {q : P} (x : Proc P), q ≠ p → Function.update s.procs q x p = s.procs p :=
    fun x hne => Function.update_of_ne hne.symm ..
  have he := h.effect hc.flushed
  have has : Alone p req s.log := ha.mono he.log_prefix
  have hfar : ∀ {m : Msg P}, m.origin.sender ≠ some p → Tracks s.log m → pertains req m = false :=
    fun hn ht => Bool.eq_false_iff.mpr fun hm => hn (ht.sender has hm)
  cases he with
  | @send q i ext dat len k ht =>
    by_cases hq : q = p
    · subst hq
      exact hph.send ht
    · have hne : pertains req (⟨(s.procs q).home, ext.addr, sentPkt s q ext dat len,
          sentBy s q ext dat len⟩ : Msg P) = false := by
        rw [Bool.eq_false_iff]
        intro hpt
        have hs := ha (sentBy s q ext dat len)
          (List.mem_append_right _ (List.mem_singleton_self _)) hpt
        exact hq (Option.some.inj hs)
      refine hph.frame (hother _ hq) ?_ rfl ?_
      · refine writes_append_of fun e he a m r r' h => ?_
        rw [List.mem_singleton.mp he] at h
        cases h
      · refine filter_append_of_neg fun x hx => ?_
        rw [List.mem_singleton.mp hx]
        exact hne
  | @setConsole q i ext k ht =>
    exact hph.frame (hother _ (hph.ne ht (fun _ _ _ h => by cases h) fun _ h => by cases h).symm)
      rfl rfl rfl
  | @getConsole q i k ht =>
    exact hph.frame (hother _ (hph.ne ht (fun _ _ _ h => by cases h) fun _ h => by cases h).symm)
      rfl rfl rfl
  | @found q i timedout target dat k e ht _ =>
    refine hph.frame (hother _ (hph.ne ht (fun _ _ _ h => by cases h) fun _ h => by cases h).symm)
      ?_ rfl rfl
    refine writes_append_of fun e he a m r r' h => ?_
    rw [List.mem_singleton.mp he] at h
    cases h
  | @timeout q i target dat k ht _ =>
    exact hph.frame (hother _ (hph.ne ht (fun _ _ _ h => by cases h) fun _ h => by cases h).symm)
      rfl rfl rfl
  | @discard q i target dat k ht _ =>
    exact hph.frame (hother _ (hph.ne ht (fun _ _ _ h => by cases h) fun _ h => by cases h).symm)
      rfl rfl rfl
  | @recvFound q i ext k m q' ht hf hty hm =>
    by_cases hq : q = p
    · subst hq
      obtain ⟨rfl, htake, -, -⟩ := hph.recv ht
      exact htake m q' _ hf (by simp [isAnswer, pertains, hty, hm]) _
    · refine hph.frame (hother _ hq) ?_ rfl rfl
      refine writes_append_of fun e he a m r r' h => ?_
      rw [List.mem_singleton.mp he] at h
      cases h
  | @recvSkip q i ext k m q' ht hf =>
    by_cases hq : q = p
    · subst hq
      obtain ⟨-, -, hskip, -⟩ := hph.recv ht
      exact hskip m q' hf
    · exact hph.frame (hother _ hq) rfl rfl rfl
  | @interrupt q i ext k ht =>
    by_cases hq : q = p
    · subst hq
      obtain ⟨-, -, -, halarm⟩ := hph.recv ht
      obtain ⟨hwire, hfdq⟩ := hok rfl
      refine halarm ?_ ?_
      · refine List.filter_eq_nil_iff.mpr fun m hm => ?_
        rw [hfar (hwire m hm) (hc.items.wire m hm)]
        simp
      · refine List.filter_eq_nil_iff.mpr fun m hm hans => ?_
        rw [isAnswer, Bool.and_eq_true] at hans
        have hs := (hc.items.fdq q m hm).1.sender has hans.2
        rw [hfdq m hm hs] at hans
        exact absurd hans.1 (by simp)
    · exact hph.frame (hother _ hq) rfl rfl rfl
  | @readAcknak q m q' hf ht => exact hph.frame (hother _ hok) rfl rfl rfl
  | @readDat q m q' hf ht hcons =>
    refine hph.frame (hother _ hok) rfl rfl (filter_append_of_neg fun x hx => ?_)
    rw [List.mem_singleton.mp hx, Bool.eq_false_iff]
    intro hpt
    -- canping sends no DAT packet
    have hm := (hc.items.fdq q m (by rw [hf]; exact List.mem_cons_self)).1
    have hs := hm.sender has hpt
    have hreq : IsRequest m.pkt.ext := by rw [IsRequest, ht]; rfl
    rw [(hm.of_request hreq).1, (hp.own _ hm.sent hs).1, hr] at ht
    cases ht
  | @readStolen q m q' hf ht hob hdat =>
    refine hph.frame (hother _ hok) rfl rfl (filter_append_of_neg fun x hx => ?_)
    rw [List.mem_singleton.mp hx, Bool.eq_false_iff]
    intro hpt
    have hobj : m.pkt.ext.object = req.object := ((isOurAcknak_iff _ _).mp hpt).1
    rw [hob, ho] at hobj
    exact absurd hobj (by decide)
  | @readSkip q m q' hf ht => exact hph.frame (hother _ hok) rfl rfl rfl
  | @deliver i m _ hm hd => exact PingAt.deliver hr ho hp hc ha hm hd
  | @lose i m hm => exact hph.lose hm
  | @overflow q =>
    by_cases hq : q = p
    · subst hq
      exact hph.overflow
    · exact hph.frame (hother _ hq) rfl rfl rfl
  | @spawn q t ht => exact hph.frame (hother _ hok) rfl rfl rfl
  | @output _ a _ hl hout =>
    obtain ⟨ms, hw, hms⟩ := hout.wire
    obtain ⟨es, hlog, hes⟩ := hout.log
    refine hph.congr (by rw [hout.procs]) ?_ (h.objVal hl _) ?_ (by rw [hout.procs])
    · rw [hlog]
      refine writes_append_of fun e he a m r r' h => ?_
      obtain ⟨o, ho, _⟩ := hes e he
      rw [ho] at h
      cases h
    · rw [hw]
      refine filter_append_of_neg fun x hx => Bool.eq_false_iff.mpr fun hpt => ?_
      obtain ⟨_, hx', hsent⟩ := hms x hx
      have hs := ha _ hsent (by rw [hx'.pkt]; exact hpt)
      rw [hx'.sender] at hs
      cases hs

theorem Pinging.run {s₀ : Net P} {tr : List (Net P × Label P)} {c : Config} (h₀ : Starts s₀)
    (hp : (s₀.procs p).threads = [canping c n]) (h : Run NetStep s₀ tr s)
    (hok : ∀ x ∈ tr, PingOk p x.1 x.2) (ha : Alone p (pingReq c) s.log) :
    Pinging p (pingReq c) (s₀.nodes c.targetCh).objVal n s := by
  have hstart : Pinging p (pingReq c) (s₀.nodes c.targetCh).objVal n s₀ := by
    refine ⟨fun o ho => ?_, [], _, hp, ?_, rfl, ?_⟩
    · rw [h₀.log] at ho
      cases ho
    · rw [h₀.log]
      rfl
    · rw [h₀.wire, h₀.fdq]
      exact .idle (Nat.zero_add n) (List.Sublist.refl _)
  induction h with
  | nil => exact hstart
  | @snoc tr t u l hr hst ih =>
    have hc : Correlated t := hr.invariant h₀.correlated fun _ _ _ hp hs => hp.step hs
    have he := hst.effect hc.flushed
    have hi := ih (fun x hx => hok x (List.mem_append_left _ hx)) (ha.mono he.log_prefix)
    exact ⟨hi.own_step he, PingAt.step rfl rfl hi hc ha
      (hok (t, l) (List.mem_append_right _ (List.mem_singleton_self _))) hst⟩

end Steps

theorem last_of_sublist_range {before : List Nat} {r : Nat} (h : before.Sublist (List.range r))
    (hm : r - 1 ∈ before) : before.getLast? = some (r - 1) := by
  cases r with
  | zero =>
    rw [List.range_zero, List.sublist_nil] at h
    rw [h] at hm
    cases hm
  | succ r =>
    rw [List.range_succ] at h
    obtain ⟨l₁, l₂, rfl, h₁, h₂⟩ := List.sublist_append_iff.mp h
    rw [Nat.add_sub_cancel] at hm ⊢
    have hn : r ∉ l₁ := fun hr => absurd (List.mem_range.mp (h₁.subset hr)) (Nat.lt_irrefl r)
    have hr : r ∈ l₂ := (List.mem_append.mp hm).resolve_left hn
    have hl : l₂ = [r] := ((List.singleton_sublist.mpr hr).eq_of_length_le h₂.length_le).symm
    rw [hl, List.getLast?_concat]

theorem pingNum_pred {r : Nat} (h : r ≠ 0) : pingNum r - 1 = pingNum (r - 1) := by
  obtain ⟨k, rfl⟩ := Nat.exists_eq_succ_of_ne_zero h
  have hs : pingNum (k + 1) = pingNum k + 1 := BitVec.ofNat_add k 1
  rw [Nat.succ_eq_add_one, hs, BitVec.add_sub_cancel, Nat.add_sub_cancel]

theorem lastVal_of_mem {val : CanDat} {before : List Nat} {r : Nat}
    (h : before.Sublist (List.range r)) (hm : r - 1 ∈ before) :
    lastVal val before = pingNum r - 1 := by
  have hr : r ≠ 0 := by
    rintro rfl
    rw [List.range_zero, List.sublist_nil] at h
    rw [h] at hm
    cases hm
  rw [lastVal, List.getLast?_map, last_of_sublist_range h hm, pingNum_pred hr]
  rfl

/-- Until the number wraps around, no other ping leaves the value that the ping
before does. -/
theorem mem_of_lastVal {val : CanDat} {before : List Nat} {r : Nat}
    (h : before.Sublist (List.range r)) (hb : before ≠ []) (hr : r < 2 ^ 32)
    (hl : lastVal val before = pingNum r - 1) : r - 1 ∈ before := by
  obtain ⟨x, hx⟩ := Option.isSome_iff_exists.mp (List.getLast?_isSome.mpr hb)
  have hm : x ∈ before := List.mem_of_getLast? hx
  have hlt : x < r := List.mem_range.mp (h.subset hm)
  rw [lastVal, List.getLast?_map, hx, pingNum_pred (by omega)] at hl
  have hn := congrArg BitVec.toNat hl
  simp only [Option.map_some, Option.getD_some, pingNum, BitVec.toNat_ofNat] at hn
  rw [Nat.mod_eq_of_lt (by omega), Nat.mod_eq_of_lt (by omega)] at hn
  rwa [← hn]

/-- While nobody else addresses the object and canping gives up lost pings
only, the answer to ping `r` is an ACK of four bytes with the number of the last
ping before it that reached the target, or with the value that was there. So
canping remarks on it only when the ping before was lost, and always does once a
ping has reached the target, until the numbers wrap around. -/
theorem canping_notes [DecidableEq P] {s₀ s : Net P} {tr : List (Net P × Label P)} {p : P}
    {c : Config} {n : Nat} (h₀ : Starts s₀) (hp : (s₀.procs p).threads = [canping c n])
    (h : Run NetStep s₀ tr s) (hok : ∀ x ∈ tr, PingOk p x.1 x.2) (ha : Alone p (pingReq c) s.log)
    {r count resp : Nat} (hr : r + count + 1 = n)
    (ht : (s.procs p).threads = [pingWait (pingReq c) count (pingNum r) resp]) {m : Msg P}
    {q : List (Msg P)} (hf : (s.procs p).fdq = m :: q) (hm : isAnswer (pingReq c) m = true) :
    ∃ before : List Nat, before.Sublist (List.range r) ∧
      writes (pingReq c) s.log = (before ++ [r]).map pingNum ∧
      m.pkt.ext.type = .ack ∧ m.pkt.can.length = 8 ∧
      m.pkt.dat = lastVal (s₀.nodes c.targetCh).objVal before ∧
      pingNote (pingNum r) m.pkt.ext.type m.pkt.dat (m.pkt.can.length.toNat - 4) =
        (if pingNum r ≠ 0 ∧ m.pkt.dat ≠ pingNum r - 1 then .response m.pkt.dat (pingNum r - 1)
        else .plain) ∧
      (r - 1 ∈ before → m.pkt.dat = pingNum r - 1) ∧
      (before ≠ [] → r < 2 ^ 32 → m.pkt.dat = pingNum r - 1 → r - 1 ∈ before) := by
  obtain ⟨reached, t, hth, hl, hv, hph⟩ := (Pinging.run h₀ hp h hok ha).phase
  have hfq : (s.procs p).fdq.filter (isAnswer (pingReq c)) =
      [] ++ m :: q.filter (isAnswer (pingReq c)) := by
    rw [hf, List.filter_cons_of_pos hm]
    rfl
  obtain ⟨r', count', resp', hn, rfl, -, -, -, -, before, rfl, hsub, hans⟩ := hph.at_fdq hfq
  have hc : count = count' := pingWait_inj (List.cons.inj (ht.symm.trans hth)).1
  obtain rfl : r = r' := by omega
  refine ⟨before, hsub, hl, hans.type, hans.length, hans.dat, ?_, fun hb => ?_,
    fun hb hlt hd => ?_⟩
  · have hlen : (m.pkt.can.length.toNat : Int) - 4 = 4 := by
      rw [hans.length]
      rfl
    rw [pingNote, hans.type, hlen]
    simp only [true_and, ne_eq, not_true_eq_false, if_false]
  · rw [hans.dat]
    exact lastVal_of_mem hsub hb
  · rw [hans.dat] at hd
    exact mem_of_lastVal hsub hb hlt hd

def pingers : Net Bool :=
  Net.boot fun b => .boot (clientConfig b) (if b then pure 0 else canping (clientConfig b) 3)

/-- The first ping is answered, the second one is lost, and the third one is
answered with the number of the first. -/
def lossyPings : List (Label Bool) :=
  [.run false 0, .deliver 0, .deliver 0, .recvAck false 0, .run false 0, .lose 0,
    .interrupt false 0, .run false 0, .deliver 0, .deliver 0]

def Event.fits [DecidableEq P] (p : P) (req : CanHeaderExt) : Event P → Bool
  | .sent o => !isOurAcknak o.pkt.ext req || decide (o.sender = some p)
  | _ => true

theorem alone_of_all [DecidableEq P] {p : P} {req : CanHeaderExt} {log : List (Event P)}
    (h : log.all (Event.fits p req) = true) : Alone p req log := by
  intro o ho he
  have hf := List.all_eq_true.mp h _ ho
  simpa [Event.fits, he] using hf

theorem canping_notes_lossy :
    ∃ tr s m before, Run NetStep pingers tr s ∧ (s.procs false).fdq = [m] ∧
      writes (pingReq (clientConfig false)) s.log = (before ++ [2]).map pingNum ∧
      pingNote (pingNum 2) m.pkt.ext.type m.pkt.dat (m.pkt.can.length.toNat - 4) =
        .response 0 1 := by
  have hst : Starts pingers := starts_boot fun b => by
    cases b with
    | true => trivial
    | false =>
      have hloop : ∀ count seq resp,
          OpsOnly IsRequestOp (pingLoop (pingReq (clientConfig false)) count seq resp) := by
        intro count
        induction count with
        | zero => exact fun _ _ => trivial
        | succ count ih => exact fun seq resp => ⟨rfl, fun _ => ⟨trivial, fun r => ih _ _⟩⟩
      exact hloop 3 0 0
  have hs : (steps (fun s l => Net.step l s) (fun s l => decide (PingOk false s l)) pingers
      lossyPings).map (fun s => ((s.procs false).threads, (s.procs false).fdq.map Msg.pkt,
        s.log.all (Event.fits false (pingReq (clientConfig false))))) =
      some ([pingWait (pingReq (clientConfig false)) 0 (pingNum 2) 1],
        [⟨0, ⟨0, 2, 1, 0, 8⟩, ⟨0, .ack, 0, 0, 1, Canobj.testrw⟩, 0⟩], true) := rfl
  obtain ⟨s, hsteps, heq⟩ := Option.map_eq_some_iff.mp hs
  obtain ⟨tr, hrun, -, hok⟩ := exists_run_of_steps hsteps
  simp only [Prod.mk.injEq] at heq
  obtain ⟨ht, hq, hall⟩ := heq
  obtain ⟨m, q, hf, hm, hnil⟩ := List.map_eq_cons_iff.mp hq
  rw [List.map_eq_nil_iff] at hnil
  subst hnil
  obtain ⟨before, -, hw, -, -, -, hnote, -, -⟩ := canping_notes hst rfl hrun
    (fun x hx => of_decide_eq_true (hok x hx)) (alone_of_all hall) (r := 2) rfl ht hf
    (by rw [isAnswer, pertains, hm]; rfl)
  refine ⟨tr, s, m, before, hrun, hf, hw, ?_⟩
  rw [hnote, hm]
  rfl

end MeikoCs2
