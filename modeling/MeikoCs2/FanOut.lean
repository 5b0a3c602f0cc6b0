import MeikoCs2.Consobj

/-! Fan-out of the drained packets to the open files. What a file has read and
what its ring still holds are, in order, the drained packets that it met with
room in the ring and that were for this node or that it asked to see. A reply
of the kernel comes behind its request, because the dispatch that sends it
runs before the request reaches the files. -/

namespace MeikoCs2

def received (nodeid : BitVec 32) (r : Rec) : Bool :=
  !r.full && (isMypacket nodeid r.pkt || r.promiscuous || r.snoopy)

theorem takePkts_append (k : Nat) (r : PktRing) :
    (takePkts k r).1 ++ (takePkts k r).2.toList = r.toList := by
  induction k generalizing r with
  | zero => rfl
  | succ k ih =>
    unfold takePkts
    split
    · rfl
    · rename_i p r' h
      rw [Ring.toList_of_get (by decide) h]
      exact congrArg (p :: ·) (ih r')

theorem canRead_append (count : Nat) (f : FileState) :
    (canRead count f).1 ++ (canRead count f).2.inq.toList = f.inq.toList := by
  unfold canRead
  split_ifs
  · rfl
  · exact takePkts_append _ f.inq

theorem toList_deliver (nodeid : BitVec 32) (pkt : CanPacket) (f : FileState) :
    (if wants (isMypacket nodeid pkt) f then { f with inq := (pktToRing pkt f.inq).1 }
      else f).inq.toList =
      f.inq.toList ++
        if received nodeid ⟨pkt, f.inq.full, f.promiscuous, f.snoopy⟩ then [pkt] else [] := by
  cases hw : wants (isMypacket nodeid pkt) f with
  | false =>
    have hr : received nodeid ⟨pkt, f.inq.full, f.promiscuous, f.snoopy⟩ = false := by
      simpa [received, wants] using fun _ => hw
    simp [hr]
  | true =>
    have hr : received nodeid ⟨pkt, f.inq.full, f.promiscuous, f.snoopy⟩ = !f.inq.full := by
      change (!f.inq.full && wants (isMypacket nodeid pkt) f) = _
      rw [hw, Bool.and_true]
    rw [hr, if_pos rfl]
    cases hf : f.inq.full with
    | true => simp [pktToRing, Ring.put_of_full hf]
    | false => simp [pktToRing, Ring.toList_put (by decide) hf]

/-- The stream of an open file, against the packets drained since its open. -/
structure Stream (nodeid : BitVec 32) (drained : List CanPacket) (l : FdLog) (f : FileState) :
    Prop where
  opened : l.openedAt ≤ drained.length
  recs : l.recs.map Rec.pkt = drained.drop l.openedAt
  stream : l.read ++ f.inq.toList = (l.recs.filter (received nodeid)).map Rec.pkt

/-- The kernel's reply at place `j` answers the request at place `i`. -/
structure Answered (nodeid : BitVec 32) (drained inq : List CanPacket) (i j : Nat) : Prop where
  before : i < j
  request : ∃ p, drained[i]? = some p ∧ isMypacket nodeid p = true ∧
    ∃ r s, (drained ++ inq)[j]? = some r ∧ IsReply s p r

structure Fans (d : Driver) : Prop where
  stream : ∀ fd f, d.node.fds.openfd fd = some f →
    Stream d.node.canNodeid d.log.drained (d.log.fd fd) f
  calls : d.log.calls = d.log.drained.filter (isMypacket d.node.canNodeid)
  replies : ∀ x ∈ d.log.replies,
    Answered d.node.canNodeid d.log.drained d.node.inq.toList x.1 x.2
  opened : ∀ x ∈ d.log.replies, ∀ fd f, d.node.fds.openfd fd = some f →
    (d.log.fd fd).openedAt ≤ x.2 → (d.log.fd fd).openedAt ≤ x.1

/-- Between two steps of the driver no reply is left in `inq`. -/
structure FanOut (d : Driver) : Prop extends Fans d where
  settled : ∀ x ∈ d.log.replies, x.2 < d.log.drained.length

theorem getElem?_of_prefix {xs ys : List CanPacket} {i : Nat} {p : CanPacket} (h : xs <+: ys)
    (hp : xs[i]? = some p) : ys[i]? = some p := by
  obtain ⟨zs, rfl⟩ := h
  obtain ⟨hi, _⟩ := List.getElem?_eq_some_iff.mp hp
  rw [List.getElem?_append_left hi, hp]

section Frame

variable {nodeid : BitVec 32} {drained drained' inq inq' : List CanPacket} {i j : Nat}

theorem Answered.mono (h : Answered nodeid drained inq i j) (hd : drained <+: drained')
    (hi : drained ++ inq <+: drained' ++ inq') : Answered nodeid drained' inq' i j := by
  obtain ⟨p, hp, hm, r, s, hr, ha⟩ := h.request
  exact ⟨h.before, p, getElem?_of_prefix hd hp, hm, r, s, getElem?_of_prefix hi hr, ha⟩

theorem Answered.lt (h : Answered nodeid drained inq i j) : j < drained.length + inq.length := by
  obtain ⟨_, _, _, r, _, hr, _⟩ := h.request
  simpa using (List.getElem?_eq_some_iff.mp hr).1

theorem FanOut.frame {d : Driver} (h : FanOut d) {s : Node} (hn : s.canNodeid = d.node.canNodeid)
    (hf : ∀ i, (s.fds.openfd i).map FileState.inq = (d.node.fds.openfd i).map FileState.inq)
    (hq : d.node.inq.toList <+: s.inq.toList) : FanOut { d with node := s } := by
  have hopen : ∀ fd f, s.fds.openfd fd = some f →
      ∃ g, d.node.fds.openfd fd = some g ∧ g.inq = f.inq := fun fd f hs => by
    have he := hf fd
    rw [hs, Option.map_some] at he
    exact Option.map_eq_some_iff.mp he.symm
  refine ⟨⟨fun fd f hs => ?_, ?_, fun x hx => ?_, fun x hx fd f hs => ?_⟩, h.settled⟩
  · obtain ⟨g, hg, he⟩ := hopen fd f hs
    have hst := h.stream fd g hg
    exact ⟨hst.opened, hst.recs, by simpa only [hn, he] using hst.stream⟩
  · simpa only [hn] using h.calls
  · have ha := h.replies x hx
    rw [← hn] at ha
    exact ha.mono List.prefix_rfl ((List.prefix_append_right_inj _).mpr hq)
  · obtain ⟨g, hg, _⟩ := hopen fd f hs
    exact h.opened x hx fd g hg

theorem FanOut.emits {d : Driver} (h : FanOut d) {s : Node} (he : Emits d.node s) :
    FanOut { d with node := s } :=
  h.frame he.canNodeid (fun i => by rw [he.fds]) he.inq

end Frame

theorem deliverPkt_spec (pkt : CanPacket) (s : Node) (hh : (deliverPkt pkt s).1.halted = false) :
    (deliverPkt pkt s).1.canNodeid = s.canNodeid ∧
    s.inq.toList <+: (deliverPkt pkt s).1.inq.toList ∧
    (deliverPkt pkt s).1.fds = deliverFds (isMypacket s.canNodeid pkt) pkt s.fds := by
  have hk : Keeps s (if isMypacket s.canNodeid pkt then (canobjPacket pkt s).1 else s) := by
    split_ifs
    · exact (canobjPacket_handles pkt s).toKeeps
    · exact .refl s
  have he : (deliverPkt pkt s).1 =
      (fun u : Node => if u.halted then u
        else { u with fds := deliverFds (isMypacket s.canNodeid pkt) pkt u.fds })
      (if isMypacket s.canNodeid pkt then (canobjPacket pkt s).1 else s) := rfl
  rw [he] at hh ⊢
  generalize (if isMypacket s.canNodeid pkt then (canobjPacket pkt s).1 else s) = u at hk hh ⊢
  by_cases hu : u.halted = true
  · simp [hu] at hh
  · simp only [hu, Bool.false_eq_true, if_false]
    exact ⟨hk.canNodeid, hk.inq, by rw [hk.fds]⟩

theorem deliverPkt_fds_of_halted {pkt : CanPacket} {s : Node}
    (h : (deliverPkt pkt s).1.halted = true) : (deliverPkt pkt s).1.fds = s.fds := by
  have hk : (if isMypacket s.canNodeid pkt then (canobjPacket pkt s).1 else s).fds = s.fds := by
    split_ifs
    · exact (canobjPacket_handles pkt s).fds
    · rfl
  simp only [deliverPkt] at h ⊢
  split_ifs at h hk ⊢
  all_goals first | exact hk | simp_all

theorem mem_newReplies {i old : Nat} {sent inq : List CanPacket} {x : Nat × Nat}
    (h : x ∈ newReplies i old sent inq) :
    x.1 = i ∧ ∃ k r, x.2 = i + 1 + k ∧ inq[k]? = some r ∧ r ∈ sent := by
  obtain ⟨k, hk, rfl⟩ := List.mem_map.mp h
  have hk' := (List.mem_filter.mp hk).2
  simp only [Bool.and_eq_true, Option.any_eq_true, decide_eq_true_eq] at hk'
  obtain ⟨_, r, hr, hs⟩ := hk'
  exact ⟨rfl, k, r, rfl, hr, hs⟩

theorem Stream.drain {nodeid : BitVec 32} {drained : List CanPacket} {l : FdLog} {f : FileState}
    (h : Stream nodeid drained l f) (pkt : CanPacket) :
    Stream nodeid (drained ++ [pkt])
      { l with recs := l.recs ++ [⟨pkt, f.inq.full, f.promiscuous, f.snoopy⟩] }
      (if wants (isMypacket nodeid pkt) f then { f with inq := (pktToRing pkt f.inq).1 } else f) where
  opened := by
    rw [List.length_append]
    exact Nat.le_add_right_of_le h.opened
  recs := by
    rw [List.map_append, h.recs, List.drop_append_of_le_length h.opened]
    rfl
  stream := by
    rw [toList_deliver, ← List.append_assoc, h.stream, List.filter_append, List.map_append]
    congr 1
    split_ifs with hr <;> simp [hr]

theorem Fans.drain {d : Driver} (h : Fans d) {pkt : CanPacket} {q : PktRing}
    (hq : ringToPkt d.node.inq = some (pkt, q)) (hh : (d.drain pkt q).node.halted = false) :
    Fans (d.drain pkt q) := by
  obtain ⟨hn, hi, hf⟩ := deliverPkt_spec pkt { d.node with inq := q } hh
  have hl : d.node.inq.toList = pkt :: q.toList := Ring.toList_of_get (by decide) hq
  have hn' : (d.drain pkt q).node.canNodeid = d.node.canNodeid := hn
  have hlog : (d.drain pkt q).log.drained = d.log.drained ++ [pkt] := rfl
  have hopen : ∀ fd g, (d.drain pkt q).node.fds.openfd fd = some g →
      ∃ f, d.node.fds.openfd fd = some f ∧
        (d.drain pkt q).log.fd fd =
          { d.log.fd fd with
            recs := (d.log.fd fd).recs ++ [⟨pkt, f.inq.full, f.promiscuous, f.snoopy⟩] } ∧
        g = if wants (isMypacket d.node.canNodeid pkt) f
          then { f with inq := (pktToRing pkt f.inq).1 } else f := by
    intro fd g hg
    have hg' : (deliverPkt pkt { d.node with inq := q }).1.fds.openfd fd = some g := hg
    rw [hf] at hg'
    obtain ⟨f, hf', rfl⟩ := Option.map_eq_some_iff.mp hg'
    replace hf' : d.node.fds.openfd fd = some f := hf'
    exact ⟨f, hf', by simp only [Driver.drain, Log.meet, hf'], rfl⟩
  refine ⟨fun fd g hg => ?_, ?_, fun x hx => ?_, fun x hx fd g hg hle => ?_⟩
  · obtain ⟨f, hf', hlf, rfl⟩ := hopen fd g hg
    rw [hn', hlog, hlf]
    exact (h.stream fd f hf').drain pkt
  · rw [hn', hlog, List.filter_append, ← h.calls]
    simp only [Driver.drain, deliverPkt]
    congr 1
    split_ifs with hm <;> simp [hm]
  · rw [hn', hlog]
    rcases List.mem_append.mp hx with hx | hx
    · refine (h.replies x hx).mono (List.prefix_append _ _) ?_
      rw [hl, List.append_assoc]
      exact (List.prefix_append_right_inj _).mpr ((List.prefix_append_right_inj [pkt]).mpr hi)
    · obtain ⟨h₁, k, r, h₂, hk, hs⟩ := mem_newReplies hx
      split_ifs at hs with hm
      · refine ⟨by omega, pkt, ?_, hm, r, { d.node with inq := q }, ?_, isReply_of_mem_replies hs⟩
        · rw [h₁, List.getElem?_append_right (Nat.le_refl _)]
          simp
        · have hj : x.2 - (d.log.drained ++ [pkt]).length = k := by
            rw [List.length_append, List.length_singleton]
            omega
          rw [List.getElem?_append_right (by rw [List.length_append, List.length_singleton]; omega), hj]
          exact hk
      · cases hs
  · obtain ⟨f, hf', hlf, _⟩ := hopen fd g hg
    have hat : ((d.drain pkt q).log.fd fd).openedAt = (d.log.fd fd).openedAt := by rw [hlf]
    rw [hat] at hle ⊢
    rcases List.mem_append.mp hx with hx | hx
    · exact h.opened x hx fd f hf' hle
    · rw [(mem_newReplies hx).1]
      exact (h.stream fd f hf').opened

theorem BhRun.fans {d d' : Driver} (h : BhRun d d') (hf : Fans d) : FanOut d' := by
  induction h with
  | done hq =>
    refine ⟨hf, fun x hx => ?_⟩
    have hl := (hf.replies x hx).lt
    rw [(Ring.get_eq_none_iff _).mp hq] at hl
    exact hl
  | round hq hh _ ih => exact ih (hf.drain hq hh)

theorem canIoctl_inq (fd : Fin canMaxUsecount) (cmd : IoctlCmd) (fault : Bool) (s : Node) :
    (canIoctl fd cmd fault s).1.canNodeid = s.canNodeid ∧
    (∀ i, ((canIoctl fd cmd fault s).1.fds.openfd i).map FileState.inq =
      (s.fds.openfd i).map FileState.inq) ∧
    s.inq.toList <+: (canIoctl fd cmd fault s).1.inq.toList := by
  have hm : ∀ (t : FdTable) (g : FileState → FileState), (∀ f, (g f).inq = f.inq) → ∀ i,
      ((t.modify fd g).openfd i).map FileState.inq = (t.openfd i).map FileState.inq :=
    fun t g hg i => by
      simp only [FdTable.modify]
      rcases eq_or_ne i fd with rfl | hi
      · rw [Function.update_self, Option.map_map]
        exact congrArg (Option.map · _) (funext hg)
      · rw [Function.update_of_ne hi]
  cases cmd with
  | setPromiscuous => exact ⟨rfl, hm s.fds _ fun _ => rfl, List.prefix_rfl⟩
  | clrPromiscuous => exact ⟨rfl, hm s.fds _ fun _ => rfl, List.prefix_rfl⟩
  | setSnoopy => exact ⟨rfl, hm s.fds _ fun _ => rfl, List.prefix_rfl⟩
  | clrSnoopy => exact ⟨rfl, hm s.fds _ fun _ => rfl, List.prefix_rfl⟩
  | getHeartbeat => exact ⟨rfl, fun _ => rfl, List.prefix_rfl⟩
  | setHeartbeat val =>
    simp only [canIoctl]
    split_ifs <;> exact ⟨rfl, fun _ => rfl, List.prefix_rfl⟩
  | getAddr => exact ⟨rfl, fun _ => rfl, List.prefix_rfl⟩
  | getConsobj =>
    simp only [canIoctl]
    split
    · exact ⟨rfl, fun _ => rfl, List.prefix_rfl⟩
    · rename_i f hf
      refine ⟨rfl, fun i => ?_, List.prefix_rfl⟩
      have ha : (canAllocConsobj s.jiffies (freed f s.fds)).1.openfd = s.fds.openfd := by
        unfold canAllocConsobj
        split <;> simp
      rw [← ha]
      exact hm (canAllocConsobj s.jiffies (freed f s.fds)).1
        (fun g => { g with consobj := (canAllocConsobj s.jiffies (freed f s.fds)).2 })
        (fun _ => rfl) i
  | setReset => exact ⟨rfl, fun _ => rfl, List.prefix_rfl⟩
  | setDebug =>
    have he := canDumpInfo_prints { s with canDebug := true }
    exact ⟨he.canNodeid, fun i => by rw [canIoctl, he.fds], he.inq⟩
  | clrDebug =>
    have he := printk_prints "can: debugging OFF\n" { s with canDebug := false }
    exact ⟨he.canNodeid, fun i => by rw [canIoctl, he.fds], he.inq⟩
  | other => exact ⟨rfl, fun _ => rfl, List.prefix_rfl⟩

theorem FanOut.open {d : Driver} (h : FanOut d) {fd : Fin canMaxUsecount} {t : FdTable}
    (ha : canAllocOpenfd d.node.fds = some (fd, t)) :
    FanOut ⟨{ d.node with fds := t }, d.log.opened fd⟩ := by
  obtain ⟨-, rfl⟩ := canAllocOpenfd_eq ha
  refine ⟨⟨fun fd' f hf => ?_, h.calls, h.replies, fun x hx fd' f hf hle => ?_⟩, h.settled⟩
  · rcases eq_or_ne fd' fd with rfl | hne
    · simp only [Function.update_self, Option.some.injEq] at hf
      subst hf
      simp only [Log.opened, Function.update_self]
      exact ⟨Nat.le_refl _, by simp, by simp⟩
    · simp only [Function.update_of_ne hne] at hf
      simp only [Log.opened, Function.update_of_ne hne]
      exact h.stream fd' f hf
  · rcases eq_or_ne fd' fd with rfl | hne
    · -- replies to earlier requests have left the queue by now
      simp only [Log.opened, Function.update_self] at hle
      exact absurd (h.settled x hx) (Nat.not_lt.mpr hle)
    · simp only [Function.update_of_ne hne] at hf
      simp only [Log.opened, Function.update_of_ne hne] at hle ⊢
      exact h.opened x hx fd' f hf hle

theorem FanOut.release {d : Driver} (h : FanOut d) {fd : Fin canMaxUsecount} {f : FileState}
    (hf : d.node.fds.openfd fd = some f) :
    FanOut { d with node :=
      { d.node with fds := canReleaseOpenfd fd d.node.canNodeid d.node.fds } } := by
  have ho : ∀ fd' g, (canReleaseOpenfd fd d.node.canNodeid d.node.fds).openfd fd' = some g →
      d.node.fds.openfd fd' = some g := fun fd' g hg => by
    rw [canReleaseOpenfd_openfd hf] at hg
    rcases eq_or_ne fd' fd with rfl | hne
    · rw [Function.update_self] at hg
      cases hg
    · rwa [Function.update_of_ne hne] at hg
  exact ⟨⟨fun fd' g hg => h.stream fd' g (ho fd' g hg), h.calls, h.replies,
    fun x hx fd' g hg => h.opened x hx fd' g (ho fd' g hg)⟩, h.settled⟩

theorem FanOut.read {d : Driver} (h : FanOut d) {fd : Fin canMaxUsecount} {f : FileState}
    (hf : d.node.fds.openfd fd = some f) (count : Nat) :
    FanOut ⟨{ d.node with fds := d.node.fds.modify fd fun f => (canRead count f).2 },
      d.log.didRead fd (canRead count f).1⟩ := by
  refine ⟨⟨fun fd' g hg => ?_, h.calls, h.replies, fun x hx fd' g hg hle => ?_⟩, h.settled⟩
  · rcases eq_or_ne fd' fd with rfl | hne
    · simp only [FdTable.modify, Function.update_self, hf, Option.map_some,
        Option.some.injEq] at hg
      subst hg
      have hs := h.stream fd' f hf
      simp only [Log.didRead, Function.update_self]
      refine ⟨hs.opened, hs.recs, ?_⟩
      rw [List.append_assoc, canRead_append]
      exact hs.stream
    · simp only [FdTable.modify, Function.update_of_ne hne] at hg
      simp only [Log.didRead, Function.update_of_ne hne]
      exact h.stream fd' g hg
  · rcases eq_or_ne fd' fd with rfl | hne
    · simp only [Log.didRead, Function.update_self] at hle ⊢
      exact h.opened x hx fd' f hf hle
    · simp only [FdTable.modify, Function.update_of_ne hne] at hg
      simp only [Log.didRead, Function.update_of_ne hne] at hle ⊢
      exact h.opened x hx fd' g hg hle

theorem FanOut.step {d d' : Driver} {op : DriverOp} (h : FanOut d) (hs : DriverStep d op d') :
    FanOut d' := by
  cases hs with
  | «open» ha => exact h.open ha
  | openBusy _ => exact h
  | release hf => exact h.release hf
  | ioctl _ cmd fault =>
    obtain ⟨hn, hi, hq⟩ := canIoctl_inq _ cmd fault d.node
    exact h.frame hn hi hq
  | read hf count => exact h.read hf count
  | sendPkt pkt => exact h.emits (sendPkt_emits pkt _)
  | sendPktNoOutFixup pkt => exact h.emits (sendPktNoOutFixup_emits pkt _)
  | tryRecv pkts => exact h.emits (tryRecv_prints pkts _).toEmits
  | tryXmit => exact h.emits (tryXmit_prints _).toEmits
  | xmitDone => exact h.frame rfl (fun _ => rfl) List.prefix_rfl
  | canBh hb =>
    have hq : FanOut { d with node := { d.node with bhQueued := false } } :=
      h.frame rfl (fun _ => rfl) List.prefix_rfl
    exact hb.fans hq.toFans
  | printk m => exact h.emits (printk_prints m _).toEmits
  | ackTimeout _ => exact h.emits (canconRecvAck_prints true _).toEmits
  | tick j => exact h.frame rfl (fun _ => rfl) List.prefix_rfl

theorem FanOut.init (n : Node) : FanOut (Driver.init n) := by
  refine ⟨⟨fun fd f hf => ?_, rfl, nofun, nofun⟩, nofun⟩
  rw [Driver.init_fds] at hf
  cases hf

/-- In every run of the driver the stream of an open file is the drained
packets since its open less those it met with a full ring and those it did not
want; `canobj_packet` is called once for each drained packet of this node; and
a file that received a reply of the kernel received the request first, unless
its ring overflowed. -/
theorem packet_fan_out {n : Node} {tr : List (Driver × DriverOp)} {d : Driver}
    (h : Run DriverStep (Driver.init n) tr d) :
    (∀ fd f, d.node.fds.openfd fd = some f →
      (d.log.fd fd).recs.map Rec.pkt = d.log.drained.drop (d.log.fd fd).openedAt ∧
      (d.log.fd fd).read ++ f.inq.toList =
        ((d.log.fd fd).recs.filter (received d.node.canNodeid)).map Rec.pkt ∧
      ((d.log.fd fd).read ++ f.inq.toList).Sublist
        (d.log.drained.drop (d.log.fd fd).openedAt)) ∧
    d.log.calls = d.log.drained.filter (isMypacket d.node.canNodeid) ∧
    (∀ i j, (i, j) ∈ d.log.replies →
      ∃ p r s, d.log.drained[i]? = some p ∧ d.log.drained[j]? = some r ∧ IsReply s p r ∧
        ∀ fd f, d.node.fds.openfd fd = some f → (d.log.fd fd).openedAt ≤ j →
          (∀ x ∈ (d.log.fd fd).recs, x.full = false) →
          (d.log.fd fd).openedAt ≤ i ∧ i < j ∧
          ∃ x, (d.log.fd fd).recs[i - (d.log.fd fd).openedAt]? = some x ∧ x.pkt = p ∧
            received d.node.canNodeid x = true) := by
  have hf : FanOut d := h.invariant (.init n) fun _ _ _ hp hs => hp.step hs
  refine ⟨fun fd f ho => ?_, hf.calls, fun i j hij => ?_⟩
  · have hs := hf.stream fd f ho
    refine ⟨hs.recs, hs.stream, ?_⟩
    rw [hs.stream, ← hs.recs]
    exact List.filter_sublist.map _
  · have ha := hf.replies (i, j) hij
    obtain ⟨p, hp, hm, r, s, hr, hrep⟩ := ha.request
    rw [List.getElem?_append_left (hf.settled (i, j) hij)] at hr
    refine ⟨p, r, s, hp, hr, hrep, fun fd f ho hle hfull => ?_⟩
    have hs := hf.stream fd f ho
    have hop := hf.opened (i, j) hij fd f ho hle
    have hx : ((d.log.fd fd).recs.map Rec.pkt)[i - (d.log.fd fd).openedAt]? = some p := by
      rw [hs.recs, List.getElem?_drop, Nat.add_sub_cancel' hop]
      exact hp
    rw [List.getElem?_map] at hx
    obtain ⟨x, hrec, hpkt⟩ := Option.map_eq_some_iff.mp hx
    refine ⟨hop, ha.before, x, hrec, hpkt, ?_⟩
    simp [received, hfull x (List.mem_of_getElem? hrec), hpkt, hm]

def testrwPkt : CanPacket where
  timestamp := 0
  can := ⟨0, 1, 1, 0, 4⟩
  ext := ⟨0, .ro, 0, 0, 1, Canobj.testrw⟩
  dat := 0

theorem packet_fan_out_testrw :
    ∃ tr d f, Run DriverStep (Driver.init (Node.boot 1 noConsole (.init 1) .empty)) tr d ∧
      tr.map Prod.snd = [.open, .sendPkt testrwPkt, .canBh] ∧
      d.node.fds.openfd 0 = some f ∧ d.log.drained.length = 2 ∧ d.log.replies = [(0, 1)] ∧
      ((d.log.fd 0).read ++ f.inq.toList).Sublist d.log.drained := by
  have hr := Run.nil
    |>.snoc (DriverStep.open (d := Driver.init (Node.boot 1 noConsole (.init 1) .empty)) rfl)
    |>.snoc (.sendPkt testrwPkt)
    |>.snoc (.canBh (.round rfl rfl (.round rfl rfl (.done rfl))))
  exact ⟨_, _, _, hr, rfl, rfl, rfl, rfl, ((packet_fan_out hr).1 0 _ rfl).2.2⟩

end MeikoCs2
