import MeikoCs2.Unload
import MeikoCs2.Scanf
import MeikoCs2.Testrw

/-! The heartbeat of a node. A timer sends the value last set to the H8 of the
board, and every so often, in the name of that H8, who the node is to the H8 of
the module. canhb sets the value by its name and shows it. -/

namespace MeikoCs2

def hbstr : List (Option String) :=
  [some "held in reset", some "at OK", some "running remote self test",
    some "ROM loading external code", some "ROM about to run external code",
    some "OS called panic", some "disk needs checking", some "the can module has been loaded",
    some "UNIX running single user", some "UNIX going to run level 0",
    some "UNIX running at level 1", some "UNIX running at level 2", some "UNIX running at level 3",
    some "UNIX running at level 4", some "UNIX running at level 5", some "UNIX running at level 6",
    some "module power is bad", some "processor is configured out", some "processor is running vrom",
    some "H8 did not respond to request", some "module is not responding"] ++
  List.replicate 11 none

def hbToStatus (hb : BitVec 32) : BitVec 32 := (hb >>> 2) &&& 0x1f

def statusToHb (st : Nat) : BitVec 32 := BitVec.ofNat 32 (st <<< 2)

def canHb2str (hb : BitVec 32) : Option String := (hbstr[(hbToStatus hb).toNat]?).join

/-- The loop of `can_str2hb` from row `i` on. -/
def str2hbFrom (str : List Char) : Nat → List (Option String) → Option (BitVec 32)
  | i, some name :: rest =>
    if foldCase str = foldCase name.toList then some (statusToHb i) else str2hbFrom str (i + 1) rest
  | _, _ => none

def canStr2hb (str : List Char) : Option (BitVec 32) := str2hbFrom str 0 hbstr

inductive CanhbCall where
  | get
  | set (val : BitVec 32)

/-- The ioctl that canhb makes; with `none` it prints its usage. -/
def canhb : List (List Char) → Option CanhbCall
  | [] => some .get
  | [str] => (canStr2hb str).map .set
  | _ => none

theorem str2hbFrom_some {str : List Char} {i : Nat} {rows : List (Option String)} {hb : BitVec 32}
    (h : str2hbFrom str i rows = some hb) :
    ∃ j name, rows[j]? = some (some name) ∧ hb = statusToHb (i + j) ∧
      foldCase name.toList = foldCase str := by
  induction rows generalizing i with
  | nil => cases h
  | cons row rows ih =>
    cases row with
    | none => cases h
    | some name =>
      unfold str2hbFrom at h
      split_ifs at h with hn
      · exact ⟨0, name, rfl, (Option.some.inj h).symm, hn.symm⟩
      · obtain ⟨j, name', hj, hhb, he⟩ := ih h
        exact ⟨j + 1, name', hj, by rw [hhb, Nat.add_right_comm, Nat.add_assoc], he⟩

theorem hbToStatus_statusToHb {st : Nat} (h : st < 32) : (hbToStatus (statusToHb st)).toNat = st := by
  have hd : ∀ k : Fin 32, (hbToStatus (statusToHb k)).toNat = k := by decide
  exact hd ⟨st, h⟩

/-- A state that `can_str2hb` accepts is the one that `can_hb2str` names. -/
theorem canHb2str_canStr2hb {str : List Char} {hb : BitVec 32} (h : canStr2hb str = some hb) :
    ∃ name, canHb2str hb = some name ∧ foldCase name.toList = foldCase str := by
  obtain ⟨j, name, hj, rfl, he⟩ := str2hbFrom_some h
  have hlt : j < 32 := (List.getElem?_eq_some_iff.mp hj).1
  refine ⟨name, ?_, he⟩
  rw [Nat.zero_add, canHb2str, hbToStatus_statusToHb hlt, hj]
  rfl

/-! What of the node the heartbeat depends on, and what leaves it alone. -/

structure Pulse where
  canNodeid : BitVec 32
  canHbVal : BitVec 32
  canBoardtype : BitVec 32
  hbCount : BitVec 32
  hbTimer : Bool

def Node.pulse (s : Node) : Pulse where
  canNodeid := s.canNodeid
  canHbVal := s.canHbVal
  canBoardtype := s.canBoardtype
  hbCount := s.hbCount
  hbTimer := s.hbTimer

section Pulse

variable (s : Node)

@[simp] theorem tryXmit_pulse : (tryXmit s).pulse = s.pulse := by
  obtain ⟨q, x, l, h⟩ := exists_tryXmit_eq s
  rw [h]
  rfl

@[simp] theorem tryRecv_pulse (pkts : List CanPacket) : (tryRecv pkts s).pulse = s.pulse := by
  obtain ⟨q, b, h⟩ := exists_tryRecv_eq pkts s
  rw [h]
  rfl

@[simp] theorem enqueue_pulse (pkt : CanPacket) : (enqueue pkt s).1.pulse = s.pulse := by
  unfold enqueue
  split_ifs <;> rfl

@[simp] theorem sendPktNoOutFixup_pulse (pkt : CanPacket) :
    (sendPktNoOutFixup pkt s).1.pulse = s.pulse := by
  have hr : ∀ (h : Handed) (u : Node), (record h u).pulse = u.pulse := fun _ _ => rfl
  have hq : ∀ u : Node, (queueBh u).pulse = u.pulse := fun _ => rfl
  simp only [sendPktNoOutFixup, hr]
  split_ifs <;> simp [hq]

@[simp] theorem sendPkt_pulse (pkt : CanPacket) : (sendPkt pkt s).1.pulse = s.pulse :=
  sendPktNoOutFixup_pulse s _

@[simp] theorem canobjAcknak_pulse (t : CanType) (p : CanPacket) (d : Option CanDat) :
    (canobjAcknak t p d s).pulse = s.pulse := sendPkt_pulse s _

@[simp] theorem canconSendNext_pulse : (canconSendNext s).pulse = s.pulse := by
  have hs := sendPkt_pulse { s with canconOutbuf := (takeChars 4 s.canconOutbuf).2 }
    (consolePkt s (takeChars 4 s.canconOutbuf).1)
  simp only [canconSendNext]
  split_ifs
  · rfl
  · rfl
  · rfl
  · exact hs
  · exact hs

@[simp] theorem canconPrintkWrite_pulse (str : List Byte) :
    (canconPrintkWrite str s).pulse = s.pulse := by
  unfold canconPrintkWrite
  split_ifs
  · rfl
  · exact canconSendNext_pulse _

@[simp] theorem printk_pulse (m : String) : (printk m s).pulse = s.pulse :=
  canconPrintkWrite_pulse s _

@[simp] theorem canconRecvAck_pulse (timeout : Bool) : (canconRecvAck timeout s).pulse = s.pulse := by
  rw [canconRecvAck_eq]
  cases ackMessage timeout s.canconAckPending with
  | none => exact canconSendNext_pulse _
  | some m => exact (canconSendNext_pulse _).trans (printk_pulse _ m)

@[simp] theorem canttyRecvDat_pulse (cs : List Byte) : (canttyRecvDat cs s).pulse = s.pulse := by
  unfold canttyRecvDat canttyRecvPush
  split
  · rfl
  · split_ifs <;> rfl

theorem Switched.pulse {s u : Node} {p : CanPacket} {l : List ConEvent} (h : Switched p s l u) :
    u.pulse = s.pulse := by
  cases h with
  | ignored => rfl
  | answered _ _ _ => exact canobjAcknak_pulse _ _ _ _
  | wrote _ => exact canobjAcknak_pulse s .ack p (some s.objVal)
  | connected _ _ => exact canobjAcknak_pulse _ _ _ _
  | disconnected _ _ =>
    exact canobjAcknak_pulse (canobjCanconHostSet (canconSetcon none s)) .ack p none
  | broke _ _ =>
    exact (printk_pulse (canobjAcknak .ack p none s) _).trans (canobjAcknak_pulse s .ack p none)
  | received _ _ _ => exact (canttyRecvDat_pulse _ _).trans (canobjAcknak_pulse s .ack p none)

@[simp] theorem canobjConsobj_pulse (p : CanPacket) : (canobjConsobj p s).1.pulse = s.pulse := by
  unfold canobjConsobj
  split <;> simp

@[simp] theorem canobjPacket_pulse (p : CanPacket) : (canobjPacket p s).1.pulse = s.pulse := by
  have hs := (canobjSwitch_switched p s).pulse
  rw [canobjPacket_eq]
  split_ifs
  · exact (canobjConsobj_pulse _ p).trans hs
  · exact hs

@[simp] theorem deliverPkt_pulse (p : CanPacket) : (deliverPkt p s).1.pulse = s.pulse := by
  have hk : (if isMypacket s.canNodeid p then (canobjPacket p s).1 else s).pulse = s.pulse := by
    split_ifs
    · exact canobjPacket_pulse s p
    · rfl
  simp only [deliverPkt]
  split_ifs at hk ⊢ <;> exact hk

@[simp] theorem canttyWrite_pulse (stopped : Bool) (buf : Option (List (Option Byte))) :
    (canttyWrite stopped buf s).1.pulse = s.pulse := by
  cases buf with
  | none =>
    simp only [canttyWrite]
    split_ifs <;> rfl
  | some cs =>
    simp only [canttyWrite]
    split_ifs
    · rfl
    · rfl
    · exact canconSendNext_pulse _
    · rfl

@[simp] theorem canDumpInfo_pulse : (canDumpInfo s).pulse = s.pulse := by
  have hinfo : ∀ s, (canconDumpInfo s).pulse = s.pulse := by
    intro s
    unfold canconDumpInfo
    split_ifs <;> exact printk_pulse s _
  have hdebug : ∀ s, (canconDumpDebug s).pulse = s.pulse := by
    intro s
    simp [canconDumpDebug]
  unfold canDumpInfo
  split_ifs
  · simp [hdebug, hinfo]
  · rfl

end Pulse

/-! The steps of the driver, and a whole run. -/

def ModuleOp.hbVal : ModuleOp → Option (BitVec 32)
  | .driver (.ioctl _ (.setHeartbeat val) false) => some val
  | _ => none

def ModuleOp.isHeartbeat : ModuleOp → Bool
  | .heartbeat => true
  | _ => false

/-- The value last set in a run, or HB_CAN_RUNNING. -/
def hbSet (tr : List (Module × ModuleOp)) : BitVec 32 :=
  ((tr.filterMap fun x => x.2.hbVal).getLast?).getD 0x1c

def hbFirings (tr : List (Module × ModuleOp)) : Nat := tr.countP fun x => x.2.isHeartbeat

def Pulse.after (x : Pulse) (op : ModuleOp) : Pulse :=
  { x with
    canHbVal := op.hbVal.getD x.canHbVal
    hbCount := if op.isHeartbeat then x.hbCount + 1 else x.hbCount
    hbTimer := x.hbTimer || op.isHeartbeat }

theorem Pulse.after_quiet (x : Pulse) {op : ModuleOp} (hv : op.hbVal = none)
    (hb : op.isHeartbeat = false) : x.after op = x := by
  simp [Pulse.after, hv, hb]

theorem canIoctl_pulse (fd : Fin canMaxUsecount) (cmd : IoctlCmd) (fault : Bool) (s : Node) :
    (canIoctl fd cmd fault s).1.pulse = s.pulse.after (.driver (.ioctl fd cmd fault)) := by
  cases cmd with
  | setHeartbeat val =>
    cases fault with
    | true => exact (s.pulse.after_quiet rfl rfl).symm
    | false => simp [MeikoCs2.canIoctl, Node.pulse, Pulse.after, ModuleOp.hbVal, ModuleOp.isHeartbeat]
  | getConsobj =>
    rw [Pulse.after_quiet _ rfl rfl]
    simp only [MeikoCs2.canIoctl]
    split <;> rfl
  | setDebug =>
    rw [Pulse.after_quiet _ rfl rfl]
    simp only [MeikoCs2.canIoctl]
    exact canDumpInfo_pulse { s with canDebug := true }
  | clrDebug =>
    rw [Pulse.after_quiet _ rfl rfl]
    simp only [MeikoCs2.canIoctl]
    exact printk_pulse { s with canDebug := false } _
  | _ =>
    rw [Pulse.after_quiet _ rfl rfl]
    rfl

theorem BhRun.pulse {d d' : Driver} (h : BhRun d d') : d'.node.pulse = d.node.pulse := by
  induction h with
  | done _ => rfl
  | @round d _ pkt q _ _ _ ih => exact ih.trans (deliverPkt_pulse { d.node with inq := q } pkt)

theorem DriverStep.pulse {d d' : Driver} {op : DriverOp} (h : DriverStep d op d') :
    d'.node.pulse = d.node.pulse.after (.driver op) := by
  cases h with
  | ioctl _ cmd fault => exact canIoctl_pulse _ cmd fault d.node
  | canBh h =>
    rw [Pulse.after_quiet _ rfl rfl]
    exact h.pulse
  | sendPkt pkt =>
    rw [Pulse.after_quiet _ rfl rfl]
    exact sendPkt_pulse _ pkt
  | sendPktNoOutFixup pkt =>
    rw [Pulse.after_quiet _ rfl rfl]
    exact sendPktNoOutFixup_pulse _ pkt
  | tryRecv pkts =>
    rw [Pulse.after_quiet _ rfl rfl]
    exact tryRecv_pulse _ pkts
  | tryXmit =>
    rw [Pulse.after_quiet _ rfl rfl]
    exact tryXmit_pulse _
  | printk m =>
    rw [Pulse.after_quiet _ rfl rfl]
    exact printk_pulse _ m
  | ackTimeout _ =>
    rw [Pulse.after_quiet _ rfl rfl]
    exact canconRecvAck_pulse _ true
  | _ => exact (Pulse.after_quiet _ rfl rfl).symm

theorem Node.step_pulse {s u : Node} {op : NodeOp} (h : s.step op = some u) :
    u.pulse = s.pulse := by
  replace h := (Node.step_eq_some h).2
  cases op with
  | ackTimeout =>
    obtain ⟨-, rfl⟩ := Node.act_ackTimeout h
    exact canconRecvAck_pulse { s with ackTimer := false } true
  | bh =>
    obtain ⟨pkt, q, -, rfl⟩ := bhRound_eq_some h
    exact deliverPkt_pulse { s with inq := q } pkt
  | ttyWrite stopped buf =>
    rw [← Option.some.inj h]
    exact canttyWrite_pulse s stopped buf
  | ttyPutChar ch =>
    rw [← Option.some.inj h]
    exact canconSendNext_pulse { s with canconOutbuf := (charToRing ch s.canconOutbuf).1 }
  | printk str =>
    rw [← Option.some.inj h]
    exact canconPrintkWrite_pulse s str
  | sendPkt pkt =>
    rw [← Option.some.inj h]
    exact sendPkt_pulse s pkt
  | sendPktNoOutFixup pkt =>
    rw [← Option.some.inj h]
    exact sendPktNoOutFixup_pulse s pkt
  | tryRecv pkts =>
    rw [← Option.some.inj h]
    exact tryRecv_pulse s pkts
  | tryXmit =>
    rw [← Option.some.inj h]
    exact tryXmit_pulse s
  | _ => exact (congrArg Node.pulse (Option.some.inj h)).symm

/-- A WNA packet between the node `nodeid` or its H8 and an H8. -/
structure ToH8 (nodeid : BitVec 32) (a b : BitVec 5) (o : BitVec 10) (d : CanDat)
    (p : CanPacket) : Prop where
  src : p.can.src = a
  dest : p.can.dest = b
  length : p.can.length = 8
  type : p.ext.type = .wna
  object : p.ext.object = o
  cluster : p.ext.cluster = (unpackCluster nodeid).setWidth 6
  module : p.ext.module = (unpackModule nodeid).setWidth 6
  node : p.ext.node = b.setWidth 6
  dat : p.dat = d

def boardH8 (nodeid : BitVec 32) : BitVec 5 := (canGetBoardH8 (unpackNode nodeid)).setWidth 5

/-- What `canobj_send_heartbeat` sends: `hb`, and perhaps an IAM. -/
structure Beats (nodeid val boardtype count : BitVec 32) (hb : CanPacket) (iams : List CanPacket) :
    Prop where
  beat : ToH8 nodeid ((unpackNode nodeid).setWidth 5) (boardH8 nodeid) Canobj.heartbeat val hb
  iam : if count % hbIamFactor = 0 then
      ∃ iam, iams = [iam] ∧ ToH8 nodeid (boardH8 nodeid) canModuleH8 Canobj.iam boardtype iam
    else iams = []

theorem canobjSendHeartbeat_pulse (s : Node) :
    (canobjSendHeartbeat s).pulse = { s.pulse with hbCount := s.hbCount + 1, hbTimer := true } := by
  have hset : ∀ u : Node, u.pulse = s.pulse →
      ({ u with hbCount := s.hbCount + 1, hbTimer := true } : Node).pulse =
        { s.pulse with hbCount := s.hbCount + 1, hbTimer := true } := by
    intro u hu
    rw [← hu]
    rfl
  refine hset _ ?_
  split_ifs
  · exact (sendPktNoOutFixup_pulse _ _).trans (sendPkt_pulse s _)
  · exact sendPkt_pulse s _

theorem canobjSendHeartbeat_handed (s : Node) :
    ∃ hb iams, (canobjSendHeartbeat s).handed.map Handed.pkt =
        s.handed.map Handed.pkt ++ hb :: iams ∧
      Beats s.canNodeid s.canHbVal s.canBoardtype s.hbCount hb iams := by
  have hsent : ∀ (pkt : CanPacket) (u : Node), (sendPktNoOutFixup pkt u).1.handed.map Handed.pkt =
      u.handed.map Handed.pkt ++ [incomingFixup u.jiffies pkt] := by
    intro pkt u
    obtain ⟨i, o, h, -⟩ := sendPktNoOutFixup_handed pkt u
    rw [h, List.map_append]
    rfl
  by_cases hc : s.hbCount % hbIamFactor = 0
  · simp only [canobjSendHeartbeat, if_pos hc]
    have htwo : ∀ (p q : CanPacket) (u : Node),
        (sendPktNoOutFixup q (sendPkt p u).1).1.handed.map Handed.pkt =
          u.handed.map Handed.pkt ++
            fixup u p :: [incomingFixup (sendPkt p u).1.jiffies q] := fun p q u => by
      rw [hsent, sendPkt, hsent, List.append_assoc]
      rfl
    refine ⟨_, _, htwo _ _ s, ⟨rfl, rfl, rfl, rfl, rfl, rfl, rfl, rfl, rfl⟩, ?_⟩
    rw [if_pos hc]
    exact ⟨_, rfl, rfl, rfl, rfl, rfl, rfl, rfl, rfl, rfl, rfl⟩
  · simp only [canobjSendHeartbeat, if_neg hc]
    refine ⟨_, _, hsent _ s, ⟨rfl, rfl, rfl, rfl, rfl, rfl, rfl, rfl, rfl⟩, ?_⟩
    rw [if_neg hc]

theorem ModuleStep.pulse {m m' : Module} {op : ModuleOp} (h : ModuleStep m op m') :
    m'.driver.node.pulse = m.driver.node.pulse.after op := by
  cases h with
  | driver h => exact h.pulse
  | tty h _ =>
    rw [Pulse.after_quiet _ rfl rfl]
    exact Node.step_pulse h
  | heartbeat ht =>
    rw [canobjSendHeartbeat_pulse]
    simp [Pulse.after, Node.pulse, ModuleOp.hbVal, ModuleOp.isHeartbeat]

theorem hbSet_concat (tr : List (Module × ModuleOp)) (x : Module × ModuleOp) :
    hbSet (tr ++ [x]) = x.2.hbVal.getD (hbSet tr) := by
  rw [hbSet, List.filterMap_append]
  cases hv : x.2.hbVal with
  | none => simp [hv, hbSet]
  | some val => simp [hv]

/-- The value last set, the number of heartbeats so far, and that the timer is
armed, whatever else the driver has done. -/
theorem Run.pulse {tty : Bool} {n : Node} {tr : List (Module × ModuleOp)} {m : Module}
    (h : Run ModuleStep (initModule tty n) tr m) :
    m.driver.node.pulse =
      ⟨n.canNodeid, hbSet tr, n.canBoardtype, BitVec.ofNat 32 (hbFirings tr), true⟩ := by
  induction h with
  | nil =>
    change (canInit n).pulse = _
    unfold canInit canobjCanconHostGet
    split <;> rfl
  | @snoc tr m m' op _ hst ih =>
    have hf : hbFirings (tr ++ [(m, op)]) = hbFirings tr + if op.isHeartbeat then 1 else 0 := by
      rw [hbFirings, List.countP_append]
      cases hb : op.isHeartbeat <;> simp [hb, hbFirings]
    rw [hst.pulse, ih, Pulse.after, hbSet_concat, hf]
    cases op.isHeartbeat with
    | true => simp [BitVec.ofNat_add]
    | false => simp

theorem replies_heartbeat {p : CanPacket} (ho : p.ext.object = Canobj.heartbeat)
    (ht : p.ext.type = .ro) (s : Node) :
    replies p s = [fixup s (acknakPkt .ack p (some s.canHbVal))] := by
  have ha : p.ext.type.ackable = true := by rw [ht]; rfl
  have hsw : canobjSwitch p s = canobjHeartbeat p s := by
    simp only [canobjSwitch, ho, if_true]
    iterate 5 rw [if_neg (by decide)]
  rw [replies, canobjPacket_of_ackable ha, hsw, canobjHeartbeat, ht]
  change List.drop _ (acknaks (canobjAcknak .ack p (some s.canHbVal) s)) = _
  rw [acknaks_canobjAcknak rfl, List.drop_left]

/-- Along every run of the loaded driver: the timer of the heartbeat is armed;
when it fires, the H8 of the board is sent the value last set, which bears the
name that canhb was given, and every 0x77th time, until the count of 32 bits
wraps, the H8 of the module is told who the node is; and a read of the HEARTBEAT
object is answered with the same value. -/
theorem heartbeat_tells {tty : Bool} {n : Node} {tr : List (Module × ModuleOp)} {m : Module}
    (h : Run ModuleStep (initModule tty n) tr m) :
    m.driver.node.hbTimer = true ∧
    (∀ m', ModuleStep m .heartbeat m' → ∃ hb iams,
      m'.driver.node.handed.map Handed.pkt =
        m.driver.node.handed.map Handed.pkt ++ hb :: iams ∧
      Beats n.canNodeid (hbSet tr) n.canBoardtype (BitVec.ofNat 32 (hbFirings tr)) hb iams ∧
      ∀ str, canhb [str] = some (.set (hbSet tr)) →
        ∃ name, canHb2str hb.dat = some name ∧ foldCase name.toList = foldCase str) ∧
    ∀ p, p.ext.object = Canobj.heartbeat → p.ext.type = .ro →
      replies p m.driver.node =
        [fixup m.driver.node (acknakPkt .ack p (some (hbSet tr)))] := by
  have hp := h.pulse
  have hid : m.driver.node.canNodeid = n.canNodeid := congrArg Pulse.canNodeid hp
  have hv : m.driver.node.canHbVal = hbSet tr := congrArg Pulse.canHbVal hp
  have hty : m.driver.node.canBoardtype = n.canBoardtype := congrArg Pulse.canBoardtype hp
  have hc : m.driver.node.hbCount = BitVec.ofNat 32 (hbFirings tr) := congrArg Pulse.hbCount hp
  refine ⟨congrArg Pulse.hbTimer hp, fun m' hst => ?_, fun p ho ht => ?_⟩
  · cases hst with
    | heartbeat _ =>
      obtain ⟨hb, iams, hh, hbeats⟩ :=
        canobjSendHeartbeat_handed { m.driver.node with hbTimer := false }
      refine ⟨hb, iams, hh, ?_, fun str hs => ?_⟩
      · rw [← hid, ← hv, ← hty, ← hc]
        exact hbeats
      · obtain ⟨val, hval, he⟩ := Option.map_eq_some_iff.mp hs
        rw [CanhbCall.set.injEq] at he
        rw [hbeats.beat.dat]
        exact canHb2str_canStr2hb (by rw [hval, he]; exact congrArg some hv.symm)
  · rw [replies_heartbeat ho ht, hv]

/-- Loading the driver, and `canhb "unix running single user"`. -/
theorem heartbeat_tells_single_user :
    ∃ tr m m' hb, Run ModuleStep (initModule true hosted) tr m ∧ ModuleStep m .heartbeat m' ∧
      m'.driver.node.handed.map Handed.pkt = m.driver.node.handed.map Handed.pkt ++ [hb] ∧
      canHb2str hb.dat = some "UNIX running single user" := by
  have hr := @Run.nil _ _ ModuleStep (initModule true hosted)
    |>.snoc (l := .driver .open) (.driver (@DriverStep.open _ 0 _ rfl))
    |>.snoc (l := .driver (.ioctl 0 (.setHeartbeat (statusToHb 8)) false))
      (.driver (.ioctl rfl _ _))
    |>.snoc (l := .heartbeat) (.heartbeat rfl)
  obtain ⟨-, htell, -⟩ := heartbeat_tells hr
  obtain ⟨hb, iams, hh, hbeats, hname⟩ := htell _ (.heartbeat rfl)
  have hiam := hbeats.iam
  rw [if_neg (by decide)] at hiam
  rw [hiam] at hh
  refine ⟨_, _, _, hb, hr, .heartbeat rfl, hh, ?_⟩
  rw [hbeats.beat.dat]
  rfl

end MeikoCs2
