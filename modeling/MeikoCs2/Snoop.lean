import MeikoCs2.FanOut
import MeikoCs2.SentLog
import MeikoCs2.Outgoing

/-! The timestamps that `cansnoop` sees. Packets are stamped with `jiffies`
when they enter `inq`, and both queues on the way to the reader keep their
order, so the assertion in `decode` holds as long as the counter only grows.
It is 32 bits wide and wraps to 0, and a packet stamped after that is read
behind packets stamped before. -/

namespace MeikoCs2

/-- The static variables of `decode`. -/
structure Stamps where
  firstStamp : BitVec 32
  lastStamp : BitVec 32
  deriving DecidableEq

def skipped (noHeartbeat : Bool) (pkt : CanPacket) : Bool :=
  noHeartbeat && pkt.ext.object == Canobj.heartbeat

/-- Without what is printed. There is no result where the assertion fails. -/
def decode (noHeartbeat : Bool) (s : Stamps) (pkt : CanPacket) : Option Stamps :=
  if skipped noHeartbeat pkt then some s
  else
    let first := if s.firstStamp = 0 then pkt.timestamp else s.firstStamp
    -- bad packet length
    if pkt.can.length < 4 then some { s with firstStamp := first }
    else if s.lastStamp ≤ pkt.timestamp then some ⟨first, pkt.timestamp⟩
    else none

/-- The packets whose timestamp `decode` compares. -/
def checked (noHeartbeat : Bool) (pkt : CanPacket) : Bool :=
  !skipped noHeartbeat pkt && decide (4 ≤ pkt.can.length)

def checkedStamps (noHeartbeat : Bool) (pkts : List CanPacket) : List (BitVec 32) :=
  (pkts.filter (checked noHeartbeat)).map CanPacket.timestamp

section Decode

variable {noHeartbeat : Bool} {pkt : CanPacket} (s : Stamps)

theorem decode_of_not_checked (h : checked noHeartbeat pkt = false) :
    ∃ t, decode noHeartbeat s pkt = some t ∧ t.lastStamp = s.lastStamp := by
  cases hs : skipped noHeartbeat pkt with
  | true => exact ⟨s, by simp [decode, hs], rfl⟩
  | false =>
    have hl : pkt.can.length < 4 := by simpa [checked, hs] using h
    exact ⟨{ s with firstStamp := if s.firstStamp = 0 then pkt.timestamp else s.firstStamp },
      by simp only [decode, hs, hl, Bool.false_eq_true, if_false, if_true], rfl⟩

theorem decode_of_checked (h : checked noHeartbeat pkt = true) :
    (decode noHeartbeat s pkt).map Stamps.lastStamp =
      if s.lastStamp ≤ pkt.timestamp then some pkt.timestamp else none := by
  simp only [checked, Bool.and_eq_true, Bool.not_eq_true', decide_eq_true_eq] at h
  simp only [decode, h.1, Bool.false_eq_true, if_false, BitVec.not_lt.mpr h.2]
  split_ifs <;> rfl

/-- Packets whose stamps are in order, and not below the last one, are decoded
without a failure. -/
theorem decodeAll_of_pairwise {pkts : List CanPacket} {rest : List (BitVec 32)}
    (h : (s.lastStamp :: (checkedStamps noHeartbeat pkts ++ rest)).Pairwise (· ≤ ·)) :
    ∃ t, pkts.foldlM (decode noHeartbeat) s = some t ∧
      (t.lastStamp :: rest).Pairwise (· ≤ ·) := by
  induction pkts generalizing s with
  | nil => exact ⟨s, rfl, h⟩
  | cons p ps ih =>
    cases hc : checked noHeartbeat p with
    | false =>
      obtain ⟨t, ht, hl⟩ := decode_of_not_checked s hc
      have hps : checkedStamps noHeartbeat (p :: ps) = checkedStamps noHeartbeat ps := by
        simp [checkedStamps, hc]
      rw [hps, ← hl] at h
      obtain ⟨u, hu, hr⟩ := ih t h
      exact ⟨u, by rw [List.foldlM_cons, ht]; exact hu, hr⟩
    | true =>
      have hps : checkedStamps noHeartbeat (p :: ps) =
          p.timestamp :: checkedStamps noHeartbeat ps := by
        simp [checkedStamps, hc]
      rw [hps, List.cons_append] at h
      obtain ⟨hle, h⟩ := List.pairwise_cons.mp h
      have hd := decode_of_checked s hc
      rw [if_pos (hle _ List.mem_cons_self)] at hd
      obtain ⟨t, ht, hl⟩ := Option.map_eq_some_iff.mp hd
      rw [← hl] at h
      obtain ⟨u, hu, hr⟩ := ih t h
      exact ⟨u, by rw [List.foldlM_cons, ht]; exact hu, hr⟩

end Decode

/-! Packets on their way to the reader of one file. -/

/-- From `s` to `u` packets stamped with the current time went to the end of
`inq`. -/
structure Stamped (s u : Node) : Prop where
  jiffies : u.jiffies = s.jiffies
  inq : ∃ new, u.inq.toList = s.inq.toList ++ new ∧ ∀ p ∈ new, p.timestamp = s.jiffies

theorem Stamped.trans {s t u : Node} (h : Stamped s t) (h' : Stamped t u) : Stamped s u where
  jiffies := h'.jiffies.trans h.jiffies
  inq := by
    obtain ⟨l, hl, hs⟩ := h.inq
    obtain ⟨l', hl', hs'⟩ := h'.inq
    refine ⟨l ++ l', by rw [hl', hl, List.append_assoc], fun p hp => ?_⟩
    exact (List.mem_append.mp hp).elim (hs p) fun hp => (hs' p hp).trans h.jiffies

theorem Stamped.of_same {s u : Node} (hj : u.jiffies = s.jiffies) (hq : u.inq = s.inq) :
    Stamped s u := ⟨hj, [], by rw [hq, List.append_nil], by simp⟩

theorem stamped_sendRule : SendRule Stamped where
  same h := .of_same h.jiffies h.inq
  trans := Stamped.trans
  send pkt s := by
    refine ⟨(sendPktNoOutFixup_emits pkt s).jiffies, ?_⟩
    obtain ⟨x, hs⟩ := sendPktNoOutFixup_sends pkt s
    obtain ⟨i, o, hh, -⟩ := sendPktNoOutFixup_handed pkt s
    have hx : x = ⟨incomingFixup s.jiffies pkt, i, o⟩ :=
      List.singleton_inj.mp (List.append_cancel_left (hs.handed.symm.trans hh))
    refine ⟨queuedIn [x], hs.inq, fun p hp => ?_⟩
    obtain ⟨y, hy, rfl⟩ := List.mem_map.mp hp
    rw [List.mem_singleton.mp (List.mem_of_mem_filter hy), hx]
    rfl

theorem recvAccepted_stamped (s : Node) (pkts : List CanPacket) :
    ∀ p ∈ recvAccepted s pkts, p.timestamp = s.jiffies := by
  induction pkts generalizing s with
  | nil => simp [recvAccepted]
  | cons q qs ih =>
    intro p hp
    rcases List.mem_append.mp hp with hp | hp
    · split_ifs at hp
      · rw [List.mem_singleton.mp hp]
        rfl
      · cases hp
    · exact ih (putInq (incomingFixup s.jiffies q) s).1 p hp

theorem tryRecv_stamped (s : Node) (pkts : List CanPacket) : Stamped s (tryRecv pkts s) :=
  ⟨(tryRecv_prints pkts s).jiffies, _, tryRecv_inq pkts s, recvAccepted_stamped s pkts⟩

def ringOf (t : FdTable) (fd : Fin canMaxUsecount) : List CanPacket :=
  ((t.openfd fd).map fun f => f.inq.toList).getD []

/-- What the reader of `fd` may get without a packet being stamped, in order. -/
def onTheWay (fd : Fin canMaxUsecount) (s : Node) : List CanPacket :=
  ringOf s.fds fd ++ s.inq.toList

/-- Packets reach the reader in order, and the new ones, stamped now, last. -/
structure Flows (fd : Fin canMaxUsecount) (s u : Node) : Prop where
  jiffies : u.jiffies = s.jiffies
  packets : ∃ new, (onTheWay fd u).Sublist (onTheWay fd s ++ new) ∧ ∀ p ∈ new, p.timestamp = s.jiffies

section Flows

variable {fd : Fin canMaxUsecount} {s t u : Node}

theorem Flows.trans (h : Flows fd s t) (h' : Flows fd t u) : Flows fd s u where
  jiffies := h'.jiffies.trans h.jiffies
  packets := by
    obtain ⟨l, hl, hs⟩ := h.packets
    obtain ⟨l', hl', hs'⟩ := h'.packets
    refine ⟨l ++ l', ?_, fun p hp => ?_⟩
    · rw [← List.append_assoc]
      exact hl'.trans (hl.append_right l')
    · exact (List.mem_append.mp hp).elim (hs p) fun hp => (hs' p hp).trans h.jiffies

theorem Stamped.flows (h : Stamped s u) (hr : (ringOf u.fds fd).Sublist (ringOf s.fds fd)) :
    Flows fd s u where
  jiffies := h.jiffies
  packets := by
    obtain ⟨new, hq, hn⟩ := h.inq
    refine ⟨new, ?_, hn⟩
    rw [onTheWay, onTheWay, hq, List.append_assoc]
    exact hr.append_right _

theorem Stamped.flows_of_fds (h : Stamped s u) (hf : u.fds = s.fds) : Flows fd s u :=
  h.flows (by rw [hf])

theorem Flows.files {t : FdTable} (hr : (ringOf t fd).Sublist (ringOf s.fds fd)) :
    Flows fd s { s with fds := t } :=
  Stamped.flows (u := { s with fds := t }) (.of_same rfl rfl) hr

theorem ringOf_deliverFds (mine : Bool) (pkt : CanPacket) (t : FdTable) :
    (ringOf (deliverFds mine pkt t) fd).Sublist (ringOf t fd ++ [pkt]) := by
  simp only [ringOf, deliverFds]
  cases t.openfd fd with
  | none => exact List.nil_sublist _
  | some f =>
    simp only [Option.map_some, Option.getD_some]
    split_ifs
    · cases hf : f.inq.full with
      | true =>
        simp only [pktToRing, Ring.put_of_full hf]
        exact List.sublist_append_left _ _
      | false => rw [pktToRing, Ring.toList_put (by decide) hf]
    · exact List.sublist_append_left _ _

theorem deliverPkt_flows {pkt : CanPacket} {q : PktRing} (hq : ringToPkt s.inq = some (pkt, q))
    (hh : (deliverPkt pkt { s with inq := q }).1.halted = false) :
    Flows fd s (deliverPkt pkt { s with inq := q }).1 := by
  have hst := stamped_sendRule.deliverPkt { s with inq := q } pkt
  obtain ⟨-, -, hf⟩ := deliverPkt_spec pkt { s with inq := q } hh
  obtain ⟨new, hn, hs⟩ := hst.inq
  refine ⟨hst.jiffies, new, ?_, hs⟩
  have hl : s.inq.toList = [pkt] ++ q.toList := Ring.toList_of_get (by decide) hq
  rw [onTheWay, onTheWay, hf, hn, hl, ← List.append_assoc, ← List.append_assoc]
  exact (((ringOf_deliverFds _ pkt _).append_right _).append_right _)

theorem BhRun.flows {d d' : Driver} (h : BhRun d d') : Flows fd d.node d'.node := by
  induction h with
  | done _ => exact Stamped.flows_of_fds (.of_same rfl rfl) rfl
  | round hq hh _ ih => exact (deliverPkt_flows hq hh).trans ih

theorem ringOf_open {t t' : FdTable} {i : Fin canMaxUsecount} (h : canAllocOpenfd t = some (i, t')) :
    (ringOf t' fd).Sublist (ringOf t fd) := by
  obtain ⟨-, rfl⟩ := canAllocOpenfd_eq h
  simp only [ringOf]
  rcases eq_or_ne fd i with rfl | hne
  · rw [Function.update_self]
    exact List.nil_sublist _
  · rw [Function.update_of_ne hne]

theorem ringOf_release {t : FdTable} {i : Fin canMaxUsecount} {f : FileState} {id : BitVec 32}
    (h : t.openfd i = some f) : (ringOf (canReleaseOpenfd i id t) fd).Sublist (ringOf t fd) := by
  unfold ringOf
  rw [canReleaseOpenfd_openfd h]
  rcases eq_or_ne fd i with rfl | hne
  · rw [Function.update_self]
    exact List.nil_sublist _
  · rw [Function.update_of_ne hne]

theorem ringOf_read {t : FdTable} {f : FileState} (h : t.openfd fd = some f) (count : Nat) :
    ringOf t fd =
      (canRead count f).1 ++ ringOf (t.modify fd fun f => (canRead count f).2) fd := by
  simp only [ringOf, FdTable.modify, Function.update_self, h, Option.map_some, Option.getD_some]
  exact (canRead_append count f).symm

theorem ringOf_modify_ne {t : FdTable} {i : Fin canMaxUsecount} (g : FileState → FileState)
    (hne : fd ≠ i) : ringOf (t.modify i g) fd = ringOf t fd := by
  simp only [ringOf, FdTable.modify, Function.update_of_ne hne]

theorem canIoctl_ringOf (i : Fin canMaxUsecount) (cmd : IoctlCmd) (fault : Bool) :
    ringOf (canIoctl i cmd fault s).1.fds fd = ringOf s.fds fd := by
  have h := congrArg (Option.map Ring.toList) ((canIoctl_inq i cmd fault s).2.1 fd)
  rw [Option.map_map, Option.map_map] at h
  exact congrArg (·.getD []) h

end Flows

theorem DriverStep.flows {fd : Fin canMaxUsecount} {d d' : Driver} {op : DriverOp}
    (h : DriverStep d op d') (ht : ∀ j, op ≠ .tick j) : Flows fd d.node d'.node := by
  cases h with
  | «open» h => exact .files (ringOf_open h)
  | openBusy _ => exact .files (.refl _)
  | release h => exact .files (ringOf_release h)
  | @ioctl i f _ cmd fault =>
    have hr : ringOf (canIoctl i cmd fault d.node).1.fds fd = ringOf d.node.fds fd :=
      canIoctl_ringOf i cmd fault
    exact (stamped_sendRule.canIoctl d.node _ cmd fault).flows (by rw [hr])
  | @read i f h count =>
    refine .files ?_
    rcases eq_or_ne fd i with rfl | hne
    · rw [ringOf_read h count]
      exact List.sublist_append_right _ _
    · rw [ringOf_modify_ne _ hne]
  | sendPkt pkt =>
    exact (stamped_sendRule.sendPkt d.node pkt).flows_of_fds (sendPkt_emits pkt _).fds
  | sendPktNoOutFixup pkt =>
    exact (stamped_sendRule.send pkt d.node).flows_of_fds (sendPktNoOutFixup_emits pkt _).fds
  | tryRecv pkts => exact (tryRecv_stamped d.node pkts).flows_of_fds (tryRecv_prints pkts _).fds
  | tryXmit =>
    obtain ⟨q, x, l, he⟩ := exists_tryXmit_eq d.node
    exact Stamped.flows_of_fds (by rw [he]; exact .of_same rfl rfl) (tryXmit_prints _).fds
  | xmitDone => exact Stamped.flows_of_fds (.of_same rfl rfl) rfl
  | canBh h =>
    have hb : Flows fd d.node { d.node with bhQueued := false } :=
      Stamped.flows_of_fds (.of_same rfl rfl) rfl
    exact hb.trans h.flows
  | printk m => exact (stamped_sendRule.printk d.node m).flows_of_fds (printk_prints m _).fds
  | ackTimeout _ =>
    exact (stamped_sendRule.canconRecvAck d.node true).flows_of_fds (canconRecvAck_prints true _).fds
  | tick j => exact absurd rfl (ht j)

/-- The driver and a `cansnoop` that reads from one of its files. After a
failed assertion the process is gone. -/
structure Snooped where
  driver : Driver
  stamps : Option Stamps

def Snooped.init (n : Node) : Snooped := ⟨Driver.init n, some ⟨0, 0⟩⟩

inductive SnoopOp where
  | driver (op : DriverOp)
  | read

/-- The counter advances by one at a time. -/
inductive SnoopStep (fd : Fin canMaxUsecount) (noHeartbeat : Bool) :
    Snooped → SnoopOp → Snooped → Prop where
  | driver {d d' : Driver} {op : DriverOp} (st : Option Stamps) (h : DriverStep d op d')
      (hj : ∀ j, op = .tick j → j = d.node.jiffies + 1) :
      SnoopStep fd noHeartbeat ⟨d, st⟩ (.driver op) ⟨d', st⟩
  | read {d : Driver} {f : FileState} (s : Stamps) (h : d.node.fds.openfd fd = some f) :
      SnoopStep fd noHeartbeat ⟨d, some s⟩ .read
        ⟨⟨{ d.node with fds := d.node.fds.modify fd fun f => (canRead pktsize f).2 },
          d.log.didRead fd (canRead pktsize f).1⟩,
          (canRead pktsize f).1.foldlM (decode noHeartbeat) s⟩

/-- The stamps that are compared, from the last one that was to the one the
next packet would get. -/
def stampsFrom (fd : Fin canMaxUsecount) (noHeartbeat : Bool) (s : Stamps) (u : Node) :
    List (BitVec 32) :=
  s.lastStamp :: (checkedStamps noHeartbeat (onTheWay fd u) ++ [u.jiffies])

def InOrder (fd : Fin canMaxUsecount) (noHeartbeat : Bool) (x : Snooped) : Prop :=
  ∃ s, x.stamps = some s ∧ (stampsFrom fd noHeartbeat s x.driver.node).Pairwise (· ≤ ·)

def SnoopOp.wraps : SnoopOp → Bool
  | .driver (.tick j) => j == 0
  | _ => false

/-- When the counter wraps, everything that is still to be compared, and what
it is compared with, dates from its first instant. -/
def WrapsClean (fd : Fin canMaxUsecount) (noHeartbeat : Bool) (x : Snooped) (op : SnoopOp) : Prop :=
  op.wraps = true →
    (∀ s, x.stamps = some s → s.lastStamp = 0) ∧
    ∀ p ∈ onTheWay fd x.driver.node, checked noHeartbeat p = true → p.timestamp = 0

section Order

variable {fd : Fin canMaxUsecount} {noHeartbeat : Bool} {st : Stamps}

theorem mem_checkedStamps {pkts : List CanPacket} {j : BitVec 32} :
    j ∈ checkedStamps noHeartbeat pkts ↔
      ∃ p ∈ pkts, checked noHeartbeat p = true ∧ p.timestamp = j := by
  simp only [checkedStamps, List.mem_map, List.mem_filter, and_assoc]

/-- New packets are stamped with the time that closes the list. -/
theorem Flows.pairwise {s u : Node} (h : Flows fd s u)
    (hp : (stampsFrom fd noHeartbeat st s).Pairwise (· ≤ ·)) :
    (stampsFrom fd noHeartbeat st u).Pairwise (· ≤ ·) := by
  obtain ⟨new, hsub, hnew⟩ := h.packets
  have hstamps : (checkedStamps noHeartbeat (onTheWay fd u)).Sublist
      (checkedStamps noHeartbeat (onTheWay fd s) ++ checkedStamps noHeartbeat new) := by
    rw [checkedStamps, checkedStamps, checkedStamps, ← List.map_append, ← List.filter_append]
    exact (hsub.filter _).map _
  have hall : ∀ j ∈ checkedStamps noHeartbeat new ++ [s.jiffies], j = s.jiffies := by
    intro j hj
    rcases List.mem_append.mp hj with hj | hj
    · obtain ⟨p, hm, -, rfl⟩ := mem_checkedStamps.mp hj
      exact hnew p hm
    · exact List.mem_singleton.mp hj
  have hle : ∀ j ∈ st.lastStamp :: checkedStamps noHeartbeat (onTheWay fd s), j ≤ s.jiffies := by
    have hq : (st.lastStamp :: checkedStamps noHeartbeat (onTheWay fd s) ++ [s.jiffies]).Pairwise
        (· ≤ ·) := hp
    exact fun j hj => (List.pairwise_append.mp hq).2.2 j hj _ (List.mem_singleton_self _)
  have hkeep : (st.lastStamp :: checkedStamps noHeartbeat (onTheWay fd s) ++
      (checkedStamps noHeartbeat new ++ [s.jiffies])).Pairwise (· ≤ ·) := by
    refine List.pairwise_append.mpr ⟨hp.sublist ?_, ?_, ?_⟩
    · exact (List.sublist_append_left _ _).cons_cons _
    · refine List.pairwise_of_forall_mem_list fun a ha b hb => ?_
      rw [hall a ha, hall b hb]
      exact BitVec.le_refl _
    · intro a ha b hb
      rw [hall b hb]
      exact hle a ha
  rw [← List.append_assoc, List.cons_append] at hkeep
  rw [stampsFrom, h.jiffies]
  exact hkeep.sublist ((hstamps.append_right _).cons_cons _)

/-- A tick keeps the stamps in order unless it wraps. -/
theorem pairwise_tick {s : Node} {j : BitVec 32} (hj : j = s.jiffies + 1)
    (hp : (stampsFrom fd noHeartbeat st s).Pairwise (· ≤ ·)) :
    (stampsFrom fd noHeartbeat st { s with jiffies := j }).Pairwise (· ≤ ·) ↔
      (j = 0 → st.lastStamp = 0 ∧
        ∀ p ∈ onTheWay fd s, checked noHeartbeat p = true → p.timestamp = 0) := by
  have hq : (st.lastStamp :: checkedStamps noHeartbeat (onTheWay fd s) ++ [s.jiffies]).Pairwise
      (· ≤ ·) := hp
  obtain ⟨hold, -, hle⟩ := List.pairwise_append.mp hq
  have hiff : (stampsFrom fd noHeartbeat st { s with jiffies := j }).Pairwise (· ≤ ·) ↔
      ∀ i ∈ st.lastStamp :: checkedStamps noHeartbeat (onTheWay fd s), i ≤ j := by
    change (st.lastStamp :: checkedStamps noHeartbeat (onTheWay fd s) ++ [j]).Pairwise (· ≤ ·) ↔ _
    rw [List.pairwise_append]
    simp only [hold, List.pairwise_singleton, List.mem_singleton, forall_eq, true_and]
  rw [hiff]
  constructor
  · rintro h rfl
    refine ⟨BitVec.le_zero_iff.mp (h _ List.mem_cons_self), fun p hm hc => ?_⟩
    exact BitVec.le_zero_iff.mp
      (h _ (List.mem_cons_of_mem _ (mem_checkedStamps.mpr ⟨p, hm, hc, rfl⟩)))
  · intro h i hi
    by_cases h0 : j = 0
    · obtain ⟨hl, hz⟩ := h h0
      have hi0 : i = 0 := by
        rcases List.mem_cons.mp hi with rfl | hi
        · exact hl
        · obtain ⟨p, hm, hc, rfl⟩ := mem_checkedStamps.mp hi
          exact hz p hm hc
      rw [hi0, h0]
      exact BitVec.le_refl _
    · have hi' : i ≤ s.jiffies := hle i hi _ (List.mem_singleton_self _)
      bv_omega

theorem SnoopStep.inOrder_iff {x y : Snooped} {op : SnoopOp}
    (h : SnoopStep fd noHeartbeat x op y) (hx : InOrder fd noHeartbeat x) :
    InOrder fd noHeartbeat y ↔ WrapsClean fd noHeartbeat x op := by
  obtain ⟨s, hs, hp⟩ := hx
  cases h with
  | @driver d d' op st h hj =>
    replace hs : st = some s := hs
    subst hs
    by_cases ht : ∃ j, op = .tick j
    · obtain ⟨j, rfl⟩ := ht
      cases h with
      | tick _ =>
        have hiff := pairwise_tick (hj j rfl) hp
        have hw : ∀ P : Prop, (j = 0 → P) ↔ (SnoopOp.wraps (.driver (.tick j)) = true → P) := by
          simp [SnoopOp.wraps]
        rw [hw] at hiff
        refine Iff.trans ?_ (hiff.trans ?_)
        · simp [InOrder]
        · simp [WrapsClean]
    · have hn : ∀ j, op ≠ .tick j := fun j he => ht ⟨j, he⟩
      have hd : InOrder fd noHeartbeat ⟨d', some s⟩ := ⟨s, rfl, (h.flows hn).pairwise hp⟩
      refine iff_of_true hd fun hw => ?_
      cases op with
      | tick j => exact absurd rfl (hn j)
      | _ => cases hw
  | @read d f s' h =>
    refine iff_of_true ?_ nofun
    obtain rfl : s' = s := Option.some.inj hs
    have hr := ringOf_read h pktsize
    rw [stampsFrom, onTheWay, hr] at hp
    simp only [checkedStamps, List.append_assoc, List.filter_append, List.map_append] at hp
    obtain ⟨t, ht, hq⟩ := decodeAll_of_pairwise s' hp
    refine ⟨t, ht, ?_⟩
    simpa only [stampsFrom, onTheWay, checkedStamps, List.filter_append, List.map_append,
      List.append_assoc] using hq

end Order

theorem inOrder_init (fd : Fin canMaxUsecount) (noHeartbeat : Bool) (n : Node) :
    InOrder fd noHeartbeat (.init n) := by
  refine ⟨⟨0, 0⟩, rfl, ?_⟩
  have hq : (Driver.init n).node.inq.toList = [] := by
    simp only [Driver.init, canInit, canobjCanconHostGet]
    split <;> rfl
  have hw : onTheWay fd (Driver.init n).node = [] := by
    rw [onTheWay, hq, Driver.init_fds]
    rfl
  have hz : (0 : BitVec 32) ≤ (Driver.init n).node.jiffies := by bv_omega
  change List.Pairwise _ (_ :: (checkedStamps _ (onTheWay fd (Driver.init n).node) ++ _))
  rw [hw]
  simpa [checkedStamps, Snooped.init] using hz

/-- A packet to node 2, which only a snoopy file of node 1 gets to see. -/
def toNode2 : CanPacket := ⟨0, ⟨0, 2, 0, 0, 4⟩, ⟨0, .dat, 0, 0, 2, 0x100⟩, 0⟩

def snoopedAt (now : BitVec 32) : Snooped :=
  .init { Node.boot 1 noConsole (.init 1) .empty with jiffies := now }

theorem wrapsClean_of_no_wraps (fd : Fin canMaxUsecount) (noHeartbeat : Bool)
    {tr : List (Snooped × SnoopOp)} (h : true ∉ tr.map fun y => y.2.wraps) :
    ∀ y ∈ tr, WrapsClean fd noHeartbeat y.1 y.2 := by
  intro y hy hw
  have hl : y.2.wraps ∈ tr.map fun y => y.2.wraps := List.mem_map_of_mem hy
  rw [hw] at hl
  exact absurd hl h

/-- In every run in which the counter wraps cleanly, if at all, the assertion
holds for every packet that is decoded. -/
theorem snooped_stamps_ordered {fd : Fin canMaxUsecount} {noHeartbeat : Bool} {n : Node}
    {tr : List (Snooped × SnoopOp)} {x : Snooped}
    (h : Run (SnoopStep fd noHeartbeat) (.init n) tr x)
    (hw : ∀ y ∈ tr, WrapsClean fd noHeartbeat y.1 y.2) :
    (∀ y ∈ tr, y.1.stamps ≠ none) ∧ x.stamps ≠ none := by
  have hs : ∀ {y : Snooped}, InOrder fd noHeartbeat y → y.stamps ≠ none := by
    rintro y ⟨s, hs, -⟩ hn
    rw [hs] at hn
    cases hn
  obtain ⟨htr, hx⟩ := (h.forall_ok_iff (inOrder_init fd noHeartbeat n)
    fun _ _ _ hi hst => hst.inOrder_iff hi).mpr hw
  exact ⟨fun y hy => hs (htr y hy), hs hx⟩

theorem snooped_stamps_ordered_tick :
    ∃ tr x, Run (SnoopStep 0 false) (snoopedAt 5) tr x ∧ tr.length = 9 ∧
      x.stamps = some ⟨5, 6⟩ ∧ ∀ y ∈ tr, y.1.stamps ≠ none := by
  have hr := @Run.nil _ _ (SnoopStep 0 false) (snoopedAt 5)
    |>.snoc (l := .driver .open) (.driver _ (.open rfl) nofun)
    |>.snoc (l := .driver (.ioctl 0 .setSnoopy false)) (.driver _ (.ioctl rfl _ _) nofun)
    |>.snoc (l := .driver (.sendPkt toNode2)) (.driver _ (.sendPkt _) nofun)
    |>.snoc (l := .driver .canBh) (.driver _ (.canBh (.round rfl rfl (.done rfl))) nofun)
    |>.snoc (l := .read) (.read ⟨0, 0⟩ rfl)
    |>.snoc (l := .driver (.tick 6)) (.driver _ (.tick _) fun _ h => by cases h; rfl)
    |>.snoc (l := .driver (.sendPkt toNode2)) (.driver _ (.sendPkt _) nofun)
    |>.snoc (l := .driver .canBh) (.driver _ (.canBh (.round rfl rfl (.done rfl))) nofun)
    |>.snoc (l := .read) (.read ⟨5, 5⟩ rfl)
  have hc := snooped_stamps_ordered hr (wrapsClean_of_no_wraps 0 false (by decide))
  exact ⟨_, _, hr, rfl, rfl, hc.1⟩

/-- The second packet is stamped 0 and read behind one stamped 0xffffffff. -/
theorem snooped_wrap_aborts :
    ∃ tr x, Run (SnoopStep 0 false) (snoopedAt 0xffffffff) tr x ∧ x.stamps = none := by
  have hr := @Run.nil _ _ (SnoopStep 0 false) (snoopedAt 0xffffffff)
    |>.snoc (l := .driver .open) (.driver _ (.open rfl) nofun)
    |>.snoc (l := .driver (.ioctl 0 .setSnoopy false)) (.driver _ (.ioctl rfl _ _) nofun)
    |>.snoc (l := .driver (.sendPkt toNode2)) (.driver _ (.sendPkt _) nofun)
    |>.snoc (l := .driver .canBh) (.driver _ (.canBh (.round rfl rfl (.done rfl))) nofun)
    |>.snoc (l := .read) (.read ⟨0, 0⟩ rfl)
    |>.snoc (l := .driver (.tick 0)) (.driver _ (.tick _) fun _ h => by cases h; rfl)
    |>.snoc (l := .driver (.sendPkt toNode2)) (.driver _ (.sendPkt _) nofun)
    |>.snoc (l := .driver .canBh) (.driver _ (.canBh (.round rfl rfl (.done rfl))) nofun)
    |>.snoc (l := .read) (.read ⟨0xffffffff, 0xffffffff⟩ rfl)
  exact ⟨_, _, hr, rfl⟩

end MeikoCs2
