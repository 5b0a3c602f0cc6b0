import MeikoCs2.AckTimer
import MeikoCs2.FanOut

/-! Loading and unloading the driver as a module. Three functions of it are
called later than they are asked for: `canobj_send_heartbeat` and
`cancon_recv_ack` by timers, `can_bh` from a task queue. Only the timer of the
heartbeat is stopped when the module goes. -/

namespace MeikoCs2

abbrev hbIamFactor : BitVec 32 := 0x77

def canobjSendHeartbeat (s : Node) : Node :=
  let h8 := canGetBoardH8 (unpackNode s.canNodeid)
  let cluster := (unpackCluster s.canNodeid).setWidth 6
  let module := (unpackModule s.canNodeid).setWidth 6
  let hb : CanPacket :=
    { timestamp := s.stack.timestamp
      can := { s.stack.can with dest := h8.setWidth 5, length := 8 }
      ext :=
        { s.stack.ext with
          type := .wna
          object := Canobj.heartbeat
          cluster := cluster
          module := module
          node := (h8.setWidth 5).setWidth 6 }
      dat := s.canHbVal }
  let s₁ := (sendPkt hb s).1
  -- from board H8, to module H8, in the packet that `send_pkt` has changed
  let iam : CanPacket :=
    { incomingFixup s.jiffies (outgoingFixup s.canNodeid hb) with
      can := { (outgoingFixup s.canNodeid hb).can with src := h8.setWidth 5, dest := canModuleH8 }
      ext := { hb.ext with object := Canobj.iam, node := canModuleH8.setWidth 6 }
      dat := s.canBoardtype }
  let s₂ := if s.hbCount % hbIamFactor = 0 then (sendPktNoOutFixup iam s₁).1 else s₁
  { s₂ with hbCount := s.hbCount + 1, hbTimer := true }

/-- The driver as a module. Beside its variables, what it has registered with
the rest of the kernel: `can_console`, `cantty_driver`, `can_dev` and
`can_intr`. -/
structure Module where
  driver : Driver
  canttyMyrefcount : Nat
  console : Bool
  canttyRegistered : Bool
  misc : Bool
  irq : Bool

/-- `tty` says whether `tty_register_driver` succeeds. -/
def initModule (tty : Bool) (n : Node) : Module where
  driver := Driver.init n
  canttyMyrefcount := 0
  console := true
  canttyRegistered := tty
  misc := true
  irq := true

def canconCleanup (m : Module) : Module := { m with console := false, canttyRegistered := false }

def canobjCleanup (m : Module) : Module :=
  { m with driver := { m.driver with node := { m.driver.node with hbTimer := false } } }

def canFini82c200 (m : Module) : Module :=
  let s := m.driver.node
  let fds := { s.fds with reg := { s.fds.reg with control := 0 } }
  { m with driver := { m.driver with node := { s with fds := fds } }, irq := false }

def cleanupModule (m : Module) : Module :=
  canFini82c200 { canobjCleanup (canconCleanup m) with misc := false }

/-- No file and no tty is open, so that the module can be removed. -/
def Module.Unused (m : Module) : Prop :=
  (∀ fd, m.driver.node.fds.openfd fd = none) ∧ m.canttyMyrefcount = 0

/-- Nothing is left through which the kernel would call the module. -/
structure Gone (m : Module) : Prop where
  hbTimer : m.driver.node.hbTimer = false
  ackTimer : m.driver.node.ackTimer = false
  bh : m.driver.node.bhQueued = false
  console : m.console = false
  tty : m.canttyRegistered = false
  misc : m.misc = false
  irq : m.irq = false

/-- How the tty layer may call, and the count of its opens afterwards. -/
def NodeOp.refcount (refs : Nat) : NodeOp → Option Nat
  | .ttyOpen _ => some (refs + 1)
  | .ttyClose last => if refs ≠ 0 ∧ (last = true ↔ refs = 1) then some (refs - 1) else none
  | .ttyWrite _ _ => if refs ≠ 0 then some refs else none
  | .ttyPutChar _ => if refs ≠ 0 then some refs else none
  | .ttyFlushBuffer => if refs ≠ 0 then some refs else none
  | .ttyFlip => if refs ≠ 0 then some refs else none
  | _ => none

inductive ModuleOp where
  | driver (op : DriverOp)
  | tty (op : NodeOp)
  | heartbeat

inductive ModuleStep : Module → ModuleOp → Module → Prop where
  | driver {m : Module} {d : Driver} {op : DriverOp} (h : DriverStep m.driver op d) :
      ModuleStep m (.driver op) { m with driver := d }
  | tty {m : Module} {s : Node} {op : NodeOp} {refs : Nat} (h : m.driver.node.step op = some s)
      (hr : op.refcount m.canttyMyrefcount = some refs) :
      ModuleStep m (.tty op)
        { m with driver := { m.driver with node := s }, canttyMyrefcount := refs }
  | heartbeat {m : Module} (h : m.driver.node.hbTimer = true) :
      ModuleStep m .heartbeat
        { m with driver :=
            { m.driver with node := canobjSendHeartbeat { m.driver.node with hbTimer := false } } }

/-- The timer runs exactly while an ACK is awaited. -/
structure Awaits (s : Node) : Prop where
  quiet : Quiet s
  timer : s.ackTimer = s.canconAckPending

section Awaits

variable {s u : Node}

theorem Awaits.of_logs {l : List ConEvent} (h : Awaits s) (hl : Logs s l u) (hq : Quiet u) :
    Awaits u where
  quiet := hq
  timer := hl.invariant (P := fun x => x.timer = x.pending) h.timer
    fun _ _ _ hx hs => hs.timer_eq_pending hx

theorem Awaits.of_session_eq (h : Awaits s) (hs : u.session = s.session) : Awaits u :=
  h.of_logs (.of_session_eq hs) (h.quiet.of_session_eq hs)

theorem Awaits.printk (h : Awaits s) (m : String) : Awaits (printk m s) :=
  h.of_logs (printk_logs m s) (printk_quiet m h.quiet)

theorem Awaits.canconRecvAck (h : Awaits s) (timeout : Bool) : Awaits (canconRecvAck timeout s) := by
  have hc : Awaits { s with ackTimer := false, canconAckPending := false } := ⟨h.quiet, rfl⟩
  exact hc.of_logs (canconRecvAck_logs timeout s) (canconRecvAck_quiet timeout h.quiet)

theorem Awaits.deliverPkt (h : Awaits s) (pkt : CanPacket) : Awaits (deliverPkt pkt s).1 := by
  have hp : Awaits (if isMypacket s.canNodeid pkt then (canobjPacket pkt s).1 else s) := by
    split_ifs
    · exact h.of_logs (canobjPacket_logs pkt h.quiet) (canobjPacket_quiet pkt h.quiet)
    · exact h
  exact hp.of_session_eq (deliverPkt_session pkt s)

theorem Awaits.canDumpInfo (h : Awaits s) : Awaits (canDumpInfo s) := by
  have hinfo : ∀ {s}, Awaits s → Awaits (canconDumpInfo s) := by
    intro s hs
    unfold canconDumpInfo
    split_ifs
    · exact hs.printk _
    · exact hs.printk _
  have hdebug : ∀ {s}, Awaits s → Awaits (canconDumpDebug s) := by
    intro s hs
    exact .printk (.printk (.printk hs _) _) _
  unfold MeikoCs2.canDumpInfo
  split_ifs
  · apply hdebug
    iterate 4 apply Awaits.printk
    exact hinfo h
  · exact h

theorem Awaits.canIoctl (h : Awaits s) (fd : Fin canMaxUsecount) (cmd : IoctlCmd) (fault : Bool) :
    Awaits (canIoctl fd cmd fault s).1 := by
  cases cmd with
  | setHeartbeat val =>
    simp only [MeikoCs2.canIoctl]
    split_ifs
    · exact h
    · exact h.of_session_eq rfl
  | getConsobj =>
    simp only [MeikoCs2.canIoctl]
    split
    · exact h
    · exact h.of_session_eq rfl
  | setDebug =>
    have hd : Awaits { s with canDebug := true } := h.of_session_eq rfl
    simp only [MeikoCs2.canIoctl]
    exact hd.canDumpInfo
  | clrDebug =>
    have hd : Awaits { s with canDebug := false } := h.of_session_eq rfl
    simp only [MeikoCs2.canIoctl]
    exact hd.printk "can: debugging OFF\n"
  | _ => exact h.of_session_eq rfl

theorem BhRun.awaits {d d' : Driver} (h : BhRun d d') (ha : Awaits d.node) : Awaits d'.node := by
  induction h with
  | done _ => exact ha
  | @round d _ pkt q _ _ _ ih =>
    have hq : Awaits { d.node with inq := q } := ha.of_session_eq rfl
    exact ih (hq.deliverPkt pkt)

theorem DriverStep.awaits {d d' : Driver} {op : DriverOp} (h : DriverStep d op d')
    (ha : Awaits d.node) : Awaits d'.node := by
  cases h with
  | openBusy _ => exact ha
  | ioctl _ cmd fault => exact ha.canIoctl _ cmd fault
  | sendPkt pkt => exact ha.of_session_eq (sendPkt_session pkt _)
  | sendPktNoOutFixup pkt => exact ha.of_session_eq (sendPktNoOutFixup_session pkt _)
  | tryRecv pkts => exact ha.of_session_eq (tryRecv_session pkts _)
  | tryXmit => exact ha.of_session_eq (tryXmit_session _)
  | canBh h => exact h.awaits (ha.of_session_eq rfl)
  | printk m => exact ha.printk m
  | ackTimeout _ => exact ha.canconRecvAck true
  | _ => exact ha.of_session_eq rfl

theorem Awaits.sendHeartbeat (h : Awaits s) : Awaits (canobjSendHeartbeat s) := by
  have hset : ∀ {u : Node} (c : BitVec 32), Awaits u →
      Awaits { u with hbCount := c, hbTimer := true } := fun _ hu => hu.of_session_eq rfl
  have hsent : ∀ pkt, Awaits (sendPkt pkt s).1 := fun pkt => h.of_session_eq (sendPkt_session pkt s)
  simp only [canobjSendHeartbeat]
  split_ifs
  · exact hset _ ((hsent _).of_session_eq (sendPktNoOutFixup_session _ _))
  · exact hset _ (hsent _)

theorem ModuleStep.awaits {m m' : Module} {op : ModuleOp} (h : ModuleStep m op m')
    (ha : Awaits m.driver.node) : Awaits m'.driver.node := by
  cases h with
  | driver h => exact h.awaits ha
  | tty h _ => exact ha.of_logs (Node.step_logs h ha.quiet) (Node.step_quiet h ha.quiet)
  | heartbeat _ =>
    have ht : Awaits { m.driver.node with hbTimer := false } := ha.of_session_eq rfl
    exact ht.sendHeartbeat

end Awaits

theorem awaits_init (n : Node) : Awaits (canInit n) where
  quiet := canInit_quiet n
  timer := by
    simp only [canInit, canobjCanconHostGet]
    split <;> rfl

/-- `cleanup_module` stops everything but the ACK timer and the bottom half. -/
theorem gone_cleanupModule_iff (m : Module) :
    Gone (cleanupModule m) ↔ m.driver.node.ackTimer = false ∧ m.driver.node.bhQueued = false :=
  ⟨fun h => ⟨h.ackTimer, h.bh⟩, fun h => ⟨rfl, h.1, h.2, rfl, rfl, rfl, rfl⟩⟩

/-- The removed module is not called again exactly if no ACK was awaited and
the bottom half was not queued when it was removed. -/
theorem unload_gone_iff {tty : Bool} {n : Node} {tr : List (Module × ModuleOp)} {m : Module}
    (h : Run ModuleStep (initModule tty n) tr m) :
    Gone (cleanupModule m) ↔
      m.driver.node.canconAckPending = false ∧ m.driver.node.bhQueued = false := by
  have ha : Awaits m.driver.node :=
    h.invariant (P := fun m => Awaits m.driver.node) (awaits_init n) fun _ _ _ hp hs => hs.awaits hp
  rw [gone_cleanupModule_iff, ha.timer]

theorem unload_gone_acked :
    ∃ tr m, Run ModuleStep (initModule true hosted) tr m ∧ tr.length = 4 ∧ m.Unused ∧
      Gone (cleanupModule m) := by
  have hr := @Run.nil _ _ ModuleStep (initModule true hosted)
    |>.snoc (l := .driver (.printk "a")) (.driver (.printk _))
    |>.snoc (l := .driver .canBh) (.driver (.canBh (.round rfl rfl (.done rfl))))
    |>.snoc (l := .driver (.tryRecv [ackFrom 2])) (.driver (.tryRecv _))
    |>.snoc (l := .driver .canBh) (.driver (.canBh (.round rfl rfl (.done rfl))))
  exact ⟨_, _, hr, rfl, ⟨fun _ => rfl, rfl⟩, (unload_gone_iff hr).mpr ⟨rfl, rfl⟩⟩

/-- One line of printk, and the module is removed before its ACK is there. -/
theorem ack_timer_survives_unload :
    ∃ tr m, Run ModuleStep (initModule true hosted) tr m ∧ m.Unused ∧
      m.driver.node.bhQueued = false ∧ (cleanupModule m).driver.node.ackTimer = true ∧
      ¬ Gone (cleanupModule m) := by
  have hr := @Run.nil _ _ ModuleStep (initModule true hosted)
    |>.snoc (l := .driver (.printk "a")) (.driver (.printk _))
    |>.snoc (l := .driver .canBh) (.driver (.canBh (.round rfl rfl (.done rfl))))
  exact ⟨_, _, hr, ⟨fun _ => rfl, rfl⟩, rfl, rfl, fun h => nomatch h.ackTimer⟩

end MeikoCs2
