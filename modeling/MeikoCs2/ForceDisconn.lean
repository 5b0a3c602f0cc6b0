import MeikoCs2.Crew
import MeikoCs2.Roster

/-! Who answers a FORCE_DISCONN: the kernel, when the console object is not
reserved as the packet is dispatched, or the cancon whose `console_object` it
names as the packet is read. The crew is a roster, in which a request for an
object that its holder has answered is in nobody's way any more. -/

namespace MeikoCs2

def forceName (pkt : CanPacket) : Option (BitVec 10) :=
  if pkt.ext.type = .wo ∧ pkt.ext.object = Canobj.forceDisconn ∧
    canValidConsobj (datExt pkt.dat).object = true then some (datExt pkt.dat).object else none

theorem forceName_eq_some {pkt : CanPacket} {x : BitVec 10} (h : forceName pkt = some x) :
    pkt.ext.type = .wo ∧ pkt.ext.object = Canobj.forceDisconn ∧ canValidConsobj x = true ∧
      (datExt pkt.dat).object = x := by
  unfold forceName at h
  split_ifs at h with hp
  obtain rfl := Option.some.inj h
  exact ⟨hp.1, hp.2.1, hp.2.2, rfl⟩

theorem toNat_ofInt_consobj (i : Fin canMaxUsecount) :
    (BitVec.ofInt 10 ((i.val : Int) + 0x100)).toNat = i.val + 0x100 := by
  have hi : i.val < 256 := i.isLt
  rw [BitVec.toNat_ofInt]
  omega

theorem toList_of_canRead {f : FileState} {pkt : CanPacket} {rest : List CanPacket}
    (h : (canRead pktsize f).1 = pkt :: rest) :
    f.inq.toList = pkt :: (canRead pktsize f).2.inq.toList := by
  have happ := canRead_append pktsize f
  have hlen : (canRead pktsize f).1.length ≤ 1 := by
    simp only [canRead, pktsize, takePkts]
    split_ifs
    · exact Nat.zero_le _
    · split <;> simp
  rw [h] at happ hlen
  obtain rfl : rest = [] := List.length_eq_zero_iff.mp (by simpa using hlen)
  exact happ.symm

theorem deliverPkt_openfd {s : Node} {fd : Fin canMaxUsecount} {f : FileState} (pkt : CanPacket)
    (hf : s.fds.openfd fd = some f) :
    ∃ g, (deliverPkt pkt s).1.fds.openfd fd = some g ∧ g.settings = f.settings ∧
      g.inq.toList = f.inq.toList ++ if arrives pkt s fd then [pkt] else [] := by
  cases hh : (deliverPkt pkt s).1.halted with
  | true =>
    have ha : arrives pkt s fd = false := by simp [arrives, hh]
    exact ⟨f, by rw [deliverPkt_fds_of_halted hh, hf], rfl, by simp [ha]⟩
  | false =>
    obtain ⟨_, _, hfds⟩ := deliverPkt_spec pkt s hh
    have ha : arrives pkt s fd =
        received s.canNodeid ⟨pkt, f.inq.full, f.promiscuous, f.snoopy⟩ := by
      simp [arrives, hh, hf]
    have hg : (deliverPkt pkt s).1.fds.openfd fd =
        some (if wants (isMypacket s.canNodeid pkt) f then { f with inq := (pktToRing pkt f.inq).1 }
          else f) := by
      simp only [hfds, deliverFds, hf, Option.map_some]
    refine ⟨_, hg, ?_, ?_⟩
    · split_ifs <;> rfl
    · rw [toList_deliver, ha]

theorem kernelAcks_le_one (pkt : CanPacket) (s : Node) : kernelAcks pkt s ≤ 1 := by
  unfold kernelAcks
  split_ifs
  · exact Nat.le_trans List.countP_le_length (replies_length_le pkt s)
  · exact Nat.zero_le _

theorem replies_of_inuse {pkt : CanPacket} {x : BitVec 10} (hx : forceName pkt = some x) {s : Node}
    (hu : canInuseConsobj x s.fds = true) : replies pkt s = [] := by
  obtain ⟨hwo, hobj, hval, rfl⟩ := forceName_eq_some hx
  have he : (canobjPacket pkt s).1 = s := by
    rw [canobjPacket_of_ackable (by rw [hwo]; rfl), canobjSwitch_forceDisconn hobj]
    simp [canobjForceDisconn, hwo, hval, hu]
  rw [replies, he, List.drop_length]

section Crew

variable {P : Type} {s u : Crew P} {p : P} {c : Client}

/-- Who holds which console object, and which packets wait for whom. -/
def Crew.roster (s : Crew P) : Roster P (BitVec 10) where
  holds p := (s.clients p).bind fun c => c.consobj.map (BitVec.ofInt 10)
  box p := (s.clients p).elim [] fun c => s.waiting c.fd
  names := s.drained.map forceName
  acks := s.acks

structure CrewInv (s : Crew P) : Prop where
  consobj : ConsobjInv s.node.fds
  files : ∀ p c, s.clients p = some c → ∃ f, s.node.fds.openfd c.fd = some f ∧
    ∀ v, c.consobj = some v → f.consobj = v ∧ v ≠ -1
  distinct : ∀ p q c d, s.clients p = some c → s.clients q = some d → c.fd = d.fd → p = q
  named : ∀ p c, s.clients p = some c → canValidConsobj c.consoleObject.object = true →
    c.consobj.map (BitVec.ofInt 10) = some c.consoleObject.object
  rings : ∀ p c f, s.clients p = some c → s.node.fds.openfd c.fd = some f →
    (s.waiting c.fd).map (fun k => s.drained[k]?) = f.inq.toList.map some

theorem CrewInv.init (n : Node) : CrewInv (Crew.init n : Crew P) where
  consobj := by
    have h := Driver.init_fds n
    simp only [Driver.init] at h
    simp only [Crew.init, h]
    exact .init _
  files _ _ h := by cases h
  distinct _ _ _ _ h := by cases h
  named _ _ h := by cases h
  rings _ _ _ h := by cases h

theorem CrewInv.holds (h : CrewInv s) (hc : s.clients p = some c) {v : Int}
    (hv : c.consobj = some v) :
    ∃ i : Fin canMaxUsecount, Holds s.node.fds c.fd i ∧ v = i.val + 0x100 := by
  obtain ⟨f, hf, hcon⟩ := h.files p c hc
  obtain ⟨hfv, hne⟩ := hcon v hv
  rcases h.consobj.range c.fd f hf with hm | ⟨i, g, hg, hi⟩
  · exact absurd (hfv.symm.trans hm) hne
  · refine ⟨i, ⟨g, hg, hi⟩, ?_⟩
    rw [hf, Option.some.injEq] at hg
    rw [← hfv, hg, hi]

theorem CrewInv.mem_ring (h : CrewInv s) (hc : s.clients p = some c) {f : FileState}
    (hf : s.node.fds.openfd c.fd = some f) {k : Nat} {pkt : CanPacket} (hk : k ∈ s.waiting c.fd)
    (hp : s.drained[k]? = some pkt) : pkt ∈ f.inq.toList := by
  have hm : some pkt ∈ f.inq.toList.map some := by
    rw [← h.rings p c f hc hf]
    exact List.mem_map.mpr ⟨k, hk, hp⟩
  obtain ⟨x, hx, he⟩ := List.mem_map.mp hm
  exact Option.some.inj he ▸ hx

theorem CrewInv.pop (h : CrewInv s) {f : FileState} (hf : s.node.fds.openfd c.fd = some f)
    {ks : List Nat} (hks : ks.map (fun k => s.drained[k]?) =
      (canRead pktsize f).2.inq.toList.map some) :
    CrewInv { s.setFds (s.node.fds.modify c.fd fun f => (canRead pktsize f).2) with
      waiting := Function.update s.waiting c.fd ks } := by
  have hsame := @sameFiles_modify c.fd _ s.node.fds (canRead_settings pktsize)
  have hself : (s.node.fds.modify c.fd fun f => (canRead pktsize f).2).openfd c.fd =
      some (canRead pktsize f).2 := by
    simp [FdTable.modify, hf]
  have hother : ∀ fd, fd ≠ c.fd →
      (s.node.fds.modify c.fd fun f => (canRead pktsize f).2).openfd fd = s.node.fds.openfd fd :=
    fun fd hne => Function.update_of_ne hne _ _
  refine ⟨h.consobj.sameFiles hsame, fun q d hq => ?_, h.distinct, h.named, fun q d g hq hg => ?_⟩
  · obtain ⟨g, hg, hcon⟩ := h.files q d hq
    rcases eq_or_ne d.fd c.fd with he | hne
    · rw [he, hf, Option.some.injEq] at hg
      subst hg
      have hset := congrArg (fun x : Bool × Bool × Int => x.2.2) (canRead_settings pktsize f)
      exact ⟨_, he ▸ hself, fun v hv => ⟨hset.trans (hcon v hv).1, (hcon v hv).2⟩⟩
    · exact ⟨g, (hother d.fd hne).trans hg, hcon⟩
  · rcases eq_or_ne d.fd c.fd with he | hne
    · simp only [Crew.setFds, he, hself, Option.some.injEq] at hg
      simp only [Crew.setFds, he, Function.update_self, ← hg]
      exact hks
    · simp only [Crew.setFds, Function.update_of_ne hne]
      exact h.rings q d g hq ((hother d.fd hne).symm.trans hg)

theorem CrewInv.holds_of_readerAck (h : CrewInv s) (hc : s.clients p = some c) {pkt ack : CanPacket}
    {stack : CanPacket} (ha : readerAck stack c.consoleObject pkt = some ack) {x : BitVec 10}
    (hx : forceName pkt = some x) : s.roster.holds p = some x := by
  obtain ⟨hwo, _, hval, hobj⟩ := forceName_eq_some hx
  simp only [readerAck, hwo] at ha
  split_ifs at ha with hd
  have hcon : datExt pkt.dat = c.consoleObject := by rw [hd.2, datExt_extDat]
  rw [hcon] at hobj
  have hn := h.named p c hc (by rw [hobj]; exact hval)
  simp only [Crew.roster, hc, Option.bind_some]
  rw [hn, hobj]

/-- A packet that names an object somebody holds is not for the kernel. -/
theorem CrewInv.kernelAcks_eq_zero (h : CrewInv s) (q : PktRing) {pkt : CanPacket} {x : BitVec 10}
    (hx : forceName pkt = some x) (hp : s.roster.holds p = some x) :
    kernelAcks pkt { s.node with inq := q } = 0 := by
  obtain ⟨c, hc, hcv⟩ := Option.bind_eq_some_iff.mp hp
  obtain ⟨v, hv, hvx⟩ := Option.map_eq_some_iff.mp hcv
  obtain ⟨i, hi, rfl⟩ := h.holds hc hv
  have hres := (h.consobj.reserved i).mpr ⟨c.fd, hi⟩
  have hidx : Fin.ofNat canMaxUsecount (x - Canobj.consmin).toNat = i := by
    have hn := toNat_ofInt_consobj i
    rw [hvx] at hn
    have hlt : i.val < 256 := i.isLt
    apply Fin.ext
    simp only [Canobj.consmin, Fin.val_ofNat, BitVec.toNat_sub, canMaxUsecount]
    rw [hn]
    simp
    omega
  have hu : canInuseConsobj x { s.node with inq := q }.fds = true := by
    rw [canInuseConsobj, hidx]
    exact hres
  simp [kernelAcks, replies_of_inuse hx hu]

variable [DecidableEq P]

/-- A step of the crew is one of the roster, or none. -/
structure Refines (s u : Crew P) : Prop where
  inv : CrewInv u
  step : u.roster = s.roster ∨ Roster.Step s.roster u.roster

theorem Crew.roster_setClient (s : Crew P) (p : P) (o : Option Client) :
    (s.setClient p o).roster =
      { s.roster with
        holds := Function.update s.roster.holds p
          (o.bind fun c => c.consobj.map (BitVec.ofInt 10))
        box := Function.update s.roster.box p (o.elim [] fun c => s.waiting c.fd) } := by
  simp only [Crew.roster, Crew.setClient, Roster.mk.injEq, and_true]
  constructor
  · exact Function.comp_update (fun o : Option Client => o.bind _) s.clients p o
  · exact Function.comp_update (fun o : Option Client => o.elim [] _) s.clients p o

theorem CrewInv.event (h : CrewInv s) {n : Node} (hn : n.fds = s.node.fds) :
    Refines s { s with node := n } where
  inv := by
    refine ⟨?_, fun p c hc => ?_, h.distinct, h.named, fun p c f hc hf => ?_⟩
    · simpa only [hn] using h.consobj
    · simpa only [hn] using h.files p c hc
    · simp only [hn] at hf
      exact h.rings p c f hc hf
  step := .inl rfl

theorem CrewInv.openFile (h : CrewInv s) (hs : s.openFile p = some u) : Refines s u := by
  unfold Crew.openFile at hs
  split at hs
  · rename_i fd t hp ha
    obtain ⟨hfree, rfl⟩ := canAllocOpenfd_eq ha
    rw [← Option.some.inj hs]
    have hne : ∀ q d, s.clients q = some d → d.fd ≠ fd := fun q d hq he => by
      obtain ⟨f, hf, _⟩ := h.files q d hq
      rw [he, hfree] at hf
      cases hf
    have hinvalid : canValidConsobj (datExt 0).object = false := by decide
    refine ⟨⟨h.consobj.takes (canAllocOpenfd_takes ha), fun q d hq => ?_,
      fun q q' d d' hq hq' he => ?_, fun q d hq hval => ?_, fun q d f hq hf => ?_⟩, .inl ?_⟩
    · rcases update_some_eq_some hq with ⟨_, rfl⟩ | ⟨_, hd⟩
      · exact ⟨_, Function.update_self .., fun v hv => by cases hv⟩
      · obtain ⟨f, hf, hcon⟩ := h.files q d hd
        exact ⟨f, (Function.update_of_ne (hne q d hd) ..).trans hf, hcon⟩
    · rcases update_some_eq_some hq with ⟨hqp, rfl⟩ | ⟨_, hd⟩
      · rcases update_some_eq_some hq' with ⟨hqp', _⟩ | ⟨_, hd'⟩
        · exact hqp.trans hqp'.symm
        · exact absurd he.symm (hne q' d' hd')
      · rcases update_some_eq_some hq' with ⟨_, rfl⟩ | ⟨_, hd'⟩
        · exact absurd he (hne q d hd)
        · exact h.distinct q q' d d' hd hd' he
    · rcases update_some_eq_some hq with ⟨_, rfl⟩ | ⟨_, hd⟩
      · exact absurd (hinvalid.symm.trans hval) (by decide)
      · exact h.named q d hd hval
    · rcases update_some_eq_some hq with ⟨_, rfl⟩ | ⟨_, hd⟩
      · simp only [Crew.setClient, Crew.setFds, Function.update_self, Option.some.injEq] at hf ⊢
        rw [← hf]
        rfl
      · simp only [Crew.setClient, Crew.setFds, Function.update_of_ne (hne q d hd)] at hf ⊢
        exact h.rings q d f hd hf
    · -- the new cancon holds nothing and nothing waits for it
      simp only [Crew.roster, Crew.setClient, Crew.setFds, Roster.mk.injEq, and_true]
      constructor
      · funext q
        rcases eq_or_ne q p with rfl | hqp
        · simp [hp]
        · rw [Function.update_of_ne hqp]
      · funext q
        rcases eq_or_ne q p with rfl | hqp
        · simp [hp]
        · rw [Function.update_of_ne hqp]
          cases hq : s.clients q with
          | none => rfl
          | some d => simp [Function.update_of_ne (hne q d hq)]
  · cases hs

theorem distinct_update {f : P → Option Client} {c' : Client}
    (h : ∀ p q c d, f p = some c → f q = some d → c.fd = d.fd → p = q) (hc : f p = some c)
    (hfd : c'.fd = c.fd) (q q' : P) (d d' : Client)
    (hq : Function.update f p (some c') q = some d)
    (hq' : Function.update f p (some c') q' = some d') (he : d.fd = d'.fd) : q = q' := by
  have hold : ∀ q d, Function.update f p (some c') q = some d →
      ∃ e, f q = some e ∧ e.fd = d.fd := fun q d hq => by
    rcases update_some_eq_some hq with ⟨rfl, rfl⟩ | ⟨_, hd⟩
    · exact ⟨c, hc, hfd.symm⟩
    · exact ⟨d, hd, rfl⟩
  obtain ⟨e, hqe, hed⟩ := hold q d hq
  obtain ⟨e', hqe', hed'⟩ := hold q' d' hq'
  exact h q q' e e' hqe hqe' (hed.trans (he.trans hed'.symm))

theorem CrewInv.loadConsoleObject (h : CrewInv s) (hc : s.clients p = some c)
    (hs : s.loadConsoleObject p c = some u) : Refines s u := by
  obtain ⟨v, hv, rfl⟩ := Option.map_eq_some_iff.mp hs
  refine ⟨⟨h.consobj, fun q d hq => ?_, distinct_update h.distinct hc rfl, fun q d hq hval => ?_,
    fun q d f hq hf => ?_⟩, .inl ?_⟩
  · rcases update_some_eq_some hq with ⟨_, rfl⟩ | ⟨_, hd⟩
    · exact h.files p c hc
    · exact h.files q d hd
  · rcases update_some_eq_some hq with ⟨_, rfl⟩ | ⟨_, hd⟩
    · exact congrArg (Option.map (BitVec.ofInt 10)) hv
    · exact h.named q d hd hval
  · rcases update_some_eq_some hq with ⟨_, rfl⟩ | ⟨_, hd⟩
    · exact h.rings p c f hc hf
    · exact h.rings q d f hd hf
  · -- the object it loads is the one that it has been given
    rw [Crew.roster_setClient]
    simp only [Crew.roster, Roster.mk.injEq, Function.update_eq_self_iff, and_true]
    simp [hc]

theorem CrewInv.closeFile (h : CrewInv s) (hc : s.clients p = some c)
    (hs : s.closeFile p c = some u) : Refines s u := by
  obtain ⟨f, hf, _⟩ := h.files p c hc
  have ht := canReleaseOpenfd_takes h.consobj hf s.node.canNodeid
  have hother : ∀ q d, q ≠ p → s.clients q = some d →
      (canReleaseOpenfd c.fd s.node.canNodeid s.node.fds).openfd d.fd = s.node.fds.openfd d.fd :=
    fun q d hqp hq => ht.other d.fd fun he => hqp (h.distinct q p d c hq hc he)
  rw [← Option.some.inj hs]
  refine ⟨⟨h.consobj.takes ht, fun q d hq => ?_, fun q q' d d' hq hq' => ?_, fun q d hq => ?_,
    fun q d f hq hf => ?_⟩, .inr ?_⟩
  · obtain ⟨hqp, hd⟩ := update_none_eq_some hq
    obtain ⟨f, hf, hcon⟩ := h.files q d hd
    exact ⟨f, (hother q d hqp hd).trans hf, hcon⟩
  · exact h.distinct q q' d d' (update_none_eq_some hq).2 (update_none_eq_some hq').2
  · exact h.named q d (update_none_eq_some hq).2
  · obtain ⟨hqp, hd⟩ := update_none_eq_some hq
    exact h.rings q d f hd ((hother q d hqp hd).symm.trans hf)
  · have hr : ((s.setFds (canReleaseOpenfd c.fd s.node.canNodeid s.node.fds)).setClient p
        none).roster =
      { s.roster with
        holds := Function.update s.roster.holds p none
        box := Function.update s.roster.box p [] } := Crew.roster_setClient _ p none
    rw [hr]
    exact .leave p

theorem CrewInv.askConsobj_eq (h : CrewInv s) (hc : s.clients p = some c)
    (hs : s.askConsobj p c = some u) :
    c.consobj = none ∧ ∃ f, ∃ i : Fin canMaxUsecount, s.node.fds.openfd c.fd = some f ∧
      (getConsobj c.fd f s.node.jiffies s.node.fds).2 = i.val + 0x100 ∧
      Takes s.node.fds (getConsobj c.fd f s.node.jiffies s.node.fds).1 c.fd (some i) ∧
      u = (s.setFds (getConsobj c.fd f s.node.jiffies s.node.fds).1).setClient p
        (some { c with consobj := some (i.val + 0x100) }) := by
  obtain ⟨f, hf, _⟩ := h.files p c hc
  obtain ⟨i, hi, ht⟩ := getConsobj_takes h.consobj hf s.node.jiffies
  unfold Crew.askConsobj at hs
  split_ifs at hs with hn
  have hv : ((getConsobj c.fd f s.node.jiffies s.node.fds).1.openfd c.fd).map FileState.consobj =
      some ((i.val : Int) + 0x100) := by
    obtain ⟨g, hg⟩ := Option.isSome_iff_exists.mp (ht.taken i rfl).1
    rw [hg, Option.map_some, ht.self g hg]
    rfl
  have hio : canIoctl c.fd .getConsobj false s.node =
      ({ s.node with fds := (getConsobj c.fd f s.node.jiffies s.node.fds).1 }, 0) := by
    simp only [canIoctl, hf, hi]
    rw [if_neg (by omega)]
    rfl
  refine ⟨Option.not_isSome_iff_eq_none.mp hn, f, i, hf, hi, ht, ?_⟩
  rw [← Option.some.inj hs]
  simp only [hio, if_true, hv]
  rfl

theorem CrewInv.askConsobj (h : CrewInv s) (hc : s.clients p = some c)
    (hs : s.askConsobj p c = some u)
    (hu : ∀ f, s.node.fds.openfd c.fd = some f → ∀ pkt ∈ f.inq.toList, ∀ x,
      forceName pkt = some x →
        (getConsobj c.fd f s.node.jiffies s.node.fds).2 ≠ (x.toNat : Int)) : Refines s u := by
  obtain ⟨hnone, f, i, hf, hi, ht, rfl⟩ := h.askConsobj_eq hc hs
  have hother : ∀ q d, q ≠ p → s.clients q = some d →
      (getConsobj c.fd f s.node.jiffies s.node.fds).1.openfd d.fd = s.node.fds.openfd d.fd :=
    fun q d hqp hq => ht.other d.fd fun he => hqp (h.distinct q p d c hq hc he)
  have hself : (getConsobj c.fd f s.node.jiffies s.node.fds).1.openfd c.fd =
      some { f with consobj := i.val + 0x100 } := by
    rw [getConsobj_openfd, hf, Function.update_self, hi]
    rfl
  refine ⟨⟨h.consobj.takes ht, fun q d hq => ?_, distinct_update h.distinct hc rfl,
    fun q d hq hval => ?_, fun q d g hq hg => ?_⟩, .inr ?_⟩
  · rcases update_some_eq_some hq with ⟨_, rfl⟩ | ⟨hqp, hd⟩
    · refine ⟨_, hself, fun v hv => ?_⟩
      obtain rfl := Option.some.inj hv
      exact ⟨rfl, by omega⟩
    · obtain ⟨g, hg, hcon⟩ := h.files q d hd
      exact ⟨g, (hother q d hqp hd).trans hg, hcon⟩
  · rcases update_some_eq_some hq with ⟨_, rfl⟩ | ⟨_, hd⟩
    · have hold := h.named p c hc hval
      rw [hnone] at hold
      cases hold
    · exact h.named q d hd hval
  · rcases update_some_eq_some hq with ⟨_, rfl⟩ | ⟨hqp, hd⟩
    · obtain rfl := Option.some.inj (hself.symm.trans hg)
      exact h.rings p c f hc hf
    · exact h.rings q d g hd ((hother q d hqp hd).symm.trans hg)
  · have hr : ((s.setFds (getConsobj c.fd f s.node.jiffies s.node.fds).1).setClient p
        (some { c with consobj := some ((i.val : Int) + 0x100) })).roster =
      { s.roster with
        holds := Function.update s.roster.holds p (some (BitVec.ofInt 10 (i.val + 0x100))) } := by
      rw [Crew.roster_setClient]
      simp only [Roster.mk.injEq]
      refine ⟨rfl, Function.update_eq_self_iff.mpr ?_, rfl, rfl⟩
      simp [Crew.roster, Crew.setFds, hc]
    rw [hr]
    refine .acquire p _ (fun q hq => ?_) fun k hk hname => ?_
    · -- whoever held it already would have its file
      obtain ⟨d, hd, hdv⟩ := Option.bind_eq_some_iff.mp hq
      obtain ⟨v, hv, hvi⟩ := Option.map_eq_some_iff.mp hdv
      obtain ⟨j, hj, rfl⟩ := h.holds hd hv
      have hij : j = i := by
        have hn := congrArg BitVec.toNat hvi
        rw [toNat_ofInt_consobj, toNat_ofInt_consobj] at hn
        exact Fin.ext (by omega)
      rcases eq_or_ne d.fd c.fd with he | hne
      · obtain rfl := h.distinct q p d c hd hc he
        rw [hc, Option.some.injEq] at hd
        rw [← hd, hnone] at hv
        cases hv
      · exact (ht.taken i rfl).2 d.fd hne (hij ▸ hj)
    · have hk' : k ∈ s.waiting c.fd := by simpa [Crew.roster, hc] using hk
      simp only [Crew.roster, List.getElem?_map, Option.map_eq_some_iff] at hname
      obtain ⟨pkt, hp, hx⟩ := hname
      have hne := hu f hf pkt (h.mem_ring hc hf hk' hp) _ hx
      rw [hi, toNat_ofInt_consobj] at hne
      exact hne (by omega)

theorem CrewInv.box_update (h : CrewInv s) (hc : s.clients p = some c) (ks : List Nat) :
    (fun q => (s.clients q).elim [] fun d => Function.update s.waiting c.fd ks d.fd) =
      Function.update s.roster.box p ks := by
  funext q
  rcases eq_or_ne q p with rfl | hqp
  · simp [hc]
  · rw [Function.update_of_ne hqp]
    cases hq : s.clients q with
    | none => simp [Crew.roster, hq]
    | some d =>
      have hne : d.fd ≠ c.fd := fun he => hqp (h.distinct q p d c hq hc he)
      simp [Crew.roster, hq, Function.update_of_ne hne]

theorem CrewInv.readFile (h : CrewInv s) (hc : s.clients p = some c)
    (hs : s.readFile c = some u) : Refines s u := by
  unfold Crew.readFile at hs
  split at hs
  · cases hs
  · rename_i f hf
    split at hs
    · cases hs
    · rename_i pkt rest hr
      -- the number at the head of the queue is that of the packet read
      have hw := h.rings p c f hc hf
      rw [toList_of_canRead hr, List.map_cons] at hw
      obtain ⟨k, ks, hkks, hk, hks⟩ := List.map_eq_cons_iff.mp hw
      have hinv := h.pop hf hks
      have hbox : s.roster.box p = k :: ks := by
        simp [Crew.roster, hc, hkks]
      have hupd := h.box_update hc ks
      simp only [hkks, List.tail_cons, List.headD_cons] at hs
      split at hs
      · obtain rfl := Option.some.inj hs
        refine ⟨hinv, .inr ?_⟩
        have ht := Roster.Step.take (r := s.roster) p k ks false hbox nofun
        simpa only [Crew.roster, Crew.setFds, hupd, Bool.false_eq_true, if_false] using ht
      · rename_i ack ha
        obtain rfl := Option.some.inj hs
        have he := (sendPkt_emits ack (s.setFds (s.node.fds.modify c.fd fun f =>
          (canRead pktsize f).2)).node).fds
        have hi := (hinv.event he).inv
        refine ⟨⟨hi.consobj, hi.files, hi.distinct, hi.named, hi.rings⟩, .inr ?_⟩
        have ht := Roster.Step.take (r := s.roster) p k ks true hbox fun _ x hx => by
          simp only [Crew.roster, List.getElem?_map, hk, Option.map_some, Option.some.injEq] at hx
          exact h.holds_of_readerAck hc ha hx
        simpa only [Crew.roster, Crew.setFds, hupd, if_true] using ht

theorem CrewInv.drain (h : CrewInv s) (hs : s.drain = some u) : Refines s u := by
  obtain ⟨⟨pkt, q⟩, _, rfl⟩ := Option.map_eq_some_iff.mp hs
  have hlt : ∀ p c f, s.clients p = some c → s.node.fds.openfd c.fd = some f →
      ∀ k ∈ s.waiting c.fd, k < s.drained.length := fun p c f hc hf k hk => by
    have hm : s.drained[k]? ∈ f.inq.toList.map some := by
      rw [← h.rings p c f hc hf]
      exact List.mem_map_of_mem hk
    obtain ⟨x, _, hx⟩ := List.mem_map.mp hm
    exact (List.getElem?_eq_some_iff.mp hx.symm).1
  refine ⟨⟨h.consobj.sameFiles (deliverPkt_sameFiles pkt { s.node with inq := q }),
    fun p c hc => ?_, h.distinct, h.named, fun p c g hc hg => ?_⟩, .inr ?_⟩
  · obtain ⟨f, hf, hcon⟩ := h.files p c hc
    obtain ⟨g, hg, hset, _⟩ := deliverPkt_openfd (s := { s.node with inq := q }) pkt hf
    have hcg := congrArg (fun x : Bool × Bool × Int => x.2.2) hset
    exact ⟨g, hg, fun v hv => ⟨hcg.trans (hcon v hv).1, (hcon v hv).2⟩⟩
  · obtain ⟨f, hf, _⟩ := h.files p c hc
    obtain ⟨g', hg', _, hl⟩ := deliverPkt_openfd (s := { s.node with inq := q }) pkt hf
    obtain rfl := Option.some.inj (hg'.symm.trans hg)
    have hold : (s.waiting c.fd).map (fun k => (s.drained ++ [pkt])[k]?) =
        f.inq.toList.map some := by
      rw [← h.rings p c f hc hf]
      exact List.map_congr_left fun k hk => List.getElem?_append_left (hlt p c f hc hf k hk)
    rw [hl]
    simp only
    split_ifs
    · simp [hold]
    · simpa using hold
  · have hd := Roster.Step.deliver (r := s.roster) (forceName pkt)
      (fun p => (s.clients p).any fun c => arrives pkt { s.node with inq := q } c.fd)
      (kernelAcks pkt { s.node with inq := q }) fun x hx =>
        ⟨kernelAcks_le_one _ _, fun hne p hp => hne (h.kernelAcks_eq_zero q hx hp)⟩
    have hbox : (fun p => (s.clients p).elim [] fun c =>
        if arrives pkt { s.node with inq := q } c.fd then s.waiting c.fd ++ [s.drained.length]
        else s.waiting c.fd) =
        fun p => if (s.clients p).any fun c => arrives pkt { s.node with inq := q } c.fd then
          s.roster.box p ++ [s.roster.names.length] else s.roster.box p := by
      funext p
      cases hp : s.clients p with
      | none => simp [Crew.roster, hp]
      | some c => simp [Crew.roster, hp]
    have hlen : s.roster.names.length = s.drained.length := List.length_map _
    rw [← hbox, hlen] at hd
    simpa only [Crew.roster, List.map_append, List.map_cons, List.map_nil] using hd

/-- The console object that a cancon is given is not named by a FORCE_DISCONN
that waits in its file. -/
def Unnamed (s : Crew P) : CrewOp P → Prop
  | .getConsobj p => ∀ c f, s.clients p = some c → s.node.fds.openfd c.fd = some f →
      ∀ pkt ∈ f.inq.toList, ∀ x, forceName pkt = some x →
        (getConsobj c.fd f s.node.jiffies s.node.fds).2 ≠ (x.toNat : Int)
  | _ => True

theorem CrewInv.step (h : CrewInv s) {op : CrewOp P} (hs : CrewStep s op u)
    (hu : Unnamed s op) : Refines s u := by
  have ha : s.act op = some u := by
    unfold CrewStep Crew.step at hs
    split_ifs at hs
    exact hs
  cases op with
  | «open» p => exact h.openFile ha
  | getConsobj p =>
    obtain ⟨c, hc, ha⟩ := Option.bind_eq_some_iff.mp ha
    exact h.askConsobj hc ha fun f hf => hu c f hc hf
  | setConsoleObject p =>
    obtain ⟨c, hc, ha⟩ := Option.bind_eq_some_iff.mp ha
    exact h.loadConsoleObject hc ha
  | read p =>
    obtain ⟨c, hc, ha⟩ := Option.bind_eq_some_iff.mp ha
    exact h.readFile hc ha
  | close p =>
    obtain ⟨c, hc, ha⟩ := Option.bind_eq_some_iff.mp ha
    exact h.closeFile hc ha
  | bh => exact h.drain ha
  | event op =>
    simp only [Crew.act] at ha
    split_ifs at ha with ho
    obtain ⟨n, hn, rfl⟩ := Option.map_eq_some_iff.mp ha
    exact h.event (Node.act_aside hn ho).fds

/-- A FORCE_DISCONN for a valid console object is answered at most once, by the
kernel or by a cancon, if no cancon is given an object while a FORCE_DISCONN for
it waits in its file. -/
theorem force_disconn_once {n : Node} {tr : List (Crew P × CrewOp P)}
    (h : Run CrewStep (Crew.init n) tr s) (hu : ∀ x ∈ tr, Unnamed x.1 x.2) (k : Nat)
    (pkt : CanPacket) (hk : s.drained[k]? = some pkt) (ht : pkt.ext.type = .wo)
    (ho : pkt.ext.object = Canobj.forceDisconn)
    (hv : canValidConsobj (datExt pkt.dat).object = true) : s.acks.count k ≤ 1 := by
  obtain ⟨_, hr⟩ : CrewInv s ∧ s.roster.Inv := by
    refine h.invariant_of (P := fun s => CrewInv s ∧ s.roster.Inv) ⟨.init n, .start⟩ ?_ hu
    rintro t op v ⟨hi, hr⟩ ho hs
    have hv := hi.step hs ho
    refine ⟨hv.inv, ?_⟩
    rcases hv.step with he | hst
    · rwa [he]
    · exact hst.inv hr
  refine hr.once k (datExt pkt.dat).object ?_
  simp [Crew.roster, hk, forceName, ht, ho, hv]

end Crew

def forcePkt : CanPacket :=
  ⟨0, ⟨0, 1, 2, 0, 8⟩, ⟨0, .wo, 0, 0, 1, Canobj.forceDisconn⟩,
    CanHeaderExt.extDat ⟨0, .dat, 0, 0, 1, 0x100⟩⟩

/-- A test that implies `Unnamed`: nothing waits. -/
def nothingWaits (s : Crew Bool) : CrewOp Bool → Bool
  | .getConsobj p => (s.clients p).all fun c =>
      (s.node.fds.openfd c.fd).all fun f => f.inq.toList.isEmpty
  | _ => true

theorem unnamed_of_nothingWaits {s : Crew Bool} {op : CrewOp Bool}
    (h : nothingWaits s op = true) : Unnamed s op := by
  cases op with
  | getConsobj p =>
    intro c f hc hf pkt hp
    simp only [nothingWaits, hc, hf, Option.all_some, List.isEmpty_iff] at h
    rw [h] at hp
    cases hp
  | _ => trivial

theorem force_disconn_once_live :
    ∃ tr s, Run CrewStep (Crew.init (.withHost 1 noConsole) : Crew Bool) tr s ∧ s.acks = [0] ∧
      s.acks.count 0 ≤ 1 := by
  obtain ⟨tr, s, hr, _, hok, hg⟩ := exists_run_of_any (f := Crew.step)
    (s := (Crew.init (.withHost 1 noConsole) : Crew Bool)) nothingWaits
    [.open true, .open false, .getConsobj true, .getConsobj false, .setConsoleObject true,
      .setConsoleObject false, .event (.tryRecv [forcePkt]), .bh, .read false, .read true]
    (fun s => s.acks = [0] && s.drained = [forcePkt]) (by decide +kernel)
  simp only [Bool.and_eq_true, decide_eq_true_eq] at hg
  refine ⟨tr, s, hr, hg.1, force_disconn_once hr (fun x hx => unnamed_of_nothingWaits (hok x hx)) 0
    forcePkt ?_ rfl rfl (by decide)⟩
  rw [hg.2]
  rfl

/-- The kernel answers for a defunct cancon, and then one that has the packet in
its file is given the same object. -/
theorem force_disconn_twice :
    ∃ tr s, Run CrewStep (Crew.init (.withHost 1 noConsole) : Crew Bool) tr s ∧
      s.drained[0]? = some forcePkt ∧ s.acks.count 0 = 2 := by
  obtain ⟨tr, s, hr, _, _, hg⟩ := exists_run_of_any (f := Crew.step)
    (s := (Crew.init (.withHost 1 noConsole) : Crew Bool)) (fun _ _ => true)
    [.open true, .event (.tryRecv [forcePkt]), .bh, .getConsobj true, .setConsoleObject true,
      .read true]
    (fun s => s.acks = [0, 0] && s.drained[0]? = some forcePkt) (by decide +kernel)
  simp only [Bool.and_eq_true, decide_eq_true_eq] at hg
  refine ⟨tr, s, hr, hg.2, ?_⟩
  rw [hg.1]
  rfl

end MeikoCs2
