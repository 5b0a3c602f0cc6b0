import MeikoCs2.Programs
import MeikoCs2.Node

/-! The CAN clients in user space: the library calls of `can.c` and the
protocols of `cancon.c`, written over the operations that reach outside the
calling thread. Messages on the terminal and the pauses of `usleep` leave no
trace here. -/

namespace MeikoCs2

abbrev maxRetries : Nat := 20

abbrev ackbufLen : Nat := 16

/-- `acknak_t`, without the NONE that no call returns. -/
inductive Acknak where
  | ack | nak | timedout
  deriving DecidableEq, Repr

def Acknak.ofType (t : CanType) : Acknak := if t = .ack then .ack else .nak

structure Canhostname where
  cluster : BitVec 6
  module : BitVec 6
  node : BitVec 6
  deriving DecidableEq, Repr

def CanHeaderExt.addr (e : CanHeaderExt) : Canhostname := ⟨e.cluster, e.module, e.node⟩

def nodeAddr (nodeid : BitVec 32) : Canhostname where
  cluster := (unpackCluster nodeid).setWidth 6
  module := (unpackModule nodeid).setWidth 6
  node := (unpackNode nodeid).setWidth 6

/-- The priority bit is not assigned and keeps the value of `old`. -/
def loadExtCh (old : BitVec 1) (tp : CanType) (obj : BitVec 10) (ch : Canhostname) : CanHeaderExt :=
  ⟨old, tp, ch.cluster, ch.module, ch.node, obj⟩

def loadExtNodeid (old : BitVec 1) (tp : CanType) (obj : BitVec 10) (nodeid : BitVec 32) :
    CanHeaderExt := loadExtCh old tp obj (nodeAddr nodeid)

/-- IS_OUR_ACKNAK: object and address agree, whatever the type. -/
def isOurAcknak (x y : CanHeaderExt) : Bool :=
  x.object == y.object && x.cluster == y.cluster && x.module == y.module && x.node == y.node

theorem isOurAcknak_iff (x y : CanHeaderExt) :
    isOurAcknak x y = true ↔ x.object = y.object ∧ x.addr = y.addr := by
  simp only [isOurAcknak, CanHeaderExt.addr, Canhostname.mk.injEq, Bool.and_eq_true, beq_iff_eq]
  tauto

/-- The packet that `can_send` writes. A missing payload, or one of length
zero, leaves whatever the stack holds. -/
def canSendPkt (nodeid : BitVec 32) (stack : CanPacket) (ext : CanHeaderExt) (dat : Option CanDat)
    (len : Nat) : CanPacket where
  timestamp := stack.timestamp
  can :=
    { stack.can with
      -- CAN_HIGH_PRIORITY
      lpriority := 0
      length := BitVec.ofNat 4 (4 + len)
      dest := if unpackModule nodeid = ext.module.setWidth 32 ∧
          unpackCluster nodeid = ext.cluster.setWidth 32 then ext.node.setWidth 5
        else canModuleH8 }
  ext := ext
  dat := if len = 0 then stack.dat else dat.getD stack.dat

def canAckPkt (stack : CanPacket) (pkt : CanPacket) (dat : Option CanDat) (len : Nat)
    (acknak : CanType) : CanPacket where
  timestamp := stack.timestamp
  can := { stack.can with lpriority := 0, length := BitVec.ofNat 4 (4 + len), dest := pkt.can.src }
  ext := { pkt.ext with type := acknak }
  dat := if len = 0 then stack.dat else dat.getD stack.dat

/-- What a client thread does outside its own memory. `waitforAcknak` starts
from the contents of its `dat` argument, which a timeout leaves there. -/
inductive CanOp where
  | canSend (ext : CanHeaderExt) (dat : Option CanDat) (len : Nat)
  | waitforAcknak (target : CanHeaderExt) (dat : CanDat)
  | canRecvAck (ext : CanHeaderExt)
  | setConsoleObject (ext : CanHeaderExt)
  | getConsoleObject

abbrev CanOp.Res : CanOp → Type
  | .canSend _ _ _ => Unit
  | .waitforAcknak _ _ => Acknak × CanDat
  | .canRecvAck _ => Option (CanType × CanDat × Int)
  | .setConsoleObject _ => Unit
  | .getConsoleObject => CanHeaderExt

abbrev CanProg := Prog CanOp.Res

def canSend (ext : CanHeaderExt) (dat : Option CanDat) (len : Nat) : CanProg Unit :=
  .perform (CanOp.canSend ext dat len)

def waitforAcknak (target : CanHeaderExt) (dat : CanDat) : CanProg (Acknak × CanDat) :=
  .perform (CanOp.waitforAcknak target dat)

def canRecvAck (ext : CanHeaderExt) : CanProg (Option (CanType × CanDat × Int)) :=
  .perform (CanOp.canRecvAck ext)

def setConsoleObject (ext : CanHeaderExt) : CanProg Unit :=
  .perform (CanOp.setConsoleObject ext)

def getConsoleObject : CanProg CanHeaderExt := .perform CanOp.getConsoleObject

def mysendLoop (target : CanHeaderExt) (dat : Option CanDat) (len : Nat) :
    Nat → CanDat → CanProg (Acknak × CanDat)
  | 0, ack => do
    canSend target dat len
    waitforAcknak target ack
  | k + 1, ack => do
    canSend target dat len
    let r ← waitforAcknak target ack
    if r.1 = .ack then pure r else mysendLoop target dat len k r.2

/-- The first try is made even if `max` is zero. -/
def mysend (target : CanHeaderExt) (dat : Option CanDat) (len : Nat) (ack : CanDat) (max : Nat) :
    CanProg (Acknak × CanDat) := mysendLoop target dat len (max - 1) ack

def send (target : CanHeaderExt) (dat : Option CanDat) (len : Nat) (ack : CanDat) :
    CanProg (Acknak × CanDat) := mysend target dat len ack maxRetries

def sendNb (target : CanHeaderExt) (dat : Option CanDat) (len : Nat) (ack : CanDat) :
    CanProg (Acknak × CanDat) := mysend target dat len ack 0

/-- What a thread of cancon reads without changing it: the command line, the
answers of the driver, and its uninitialised automatic variables. -/
structure Config where
  fopt : Bool
  targetCh : Canhostname
  nodeid : BitVec 32
  consobj : BitVec 10
  resetobj : BitVec 10
  stack : CanPacket

section Protocols

variable (c : Config)

/-- The console object this process asks the target to write to. The priority
bit of the static variable is zero. -/
def Config.consoleObject : CanHeaderExt := loadExtNodeid 0 .dat c.consobj c.nodeid

def sendDat (buf : List Byte) : CanProg Unit := do
  let target := loadExtCh c.stack.ext.xpriority .dat 0 c.targetCh
  let _ ← send target (some (copyBytes buf c.stack.dat)) buf.length 0

def sendBreak : CanProg Unit := do
  let _ ← send (loadExtCh c.stack.ext.xpriority .wo Canobj.brk c.targetCh) none 0 0

def sendResetH8 : CanProg Unit := do
  let target := loadExtCh c.stack.ext.xpriority .wo c.resetobj c.targetCh
  let h8 := (canGetBoardH8 (target.node.setWidth 32)).setWidth 6
  let _ ← send { target with node := h8 } (some 2) 4 0

def sendConnectRo : CanProg (Acknak × CanHeaderExt) := do
  let target := loadExtCh c.stack.ext.xpriority .ro Canobj.consoleConnect c.targetCh
  let r ← send target none 0 c.stack.ext.extDat
  pure (r.1, datExt r.2)

def sendConnectWo (cons : CanHeaderExt) : CanProg Acknak := do
  let target := loadExtCh c.stack.ext.xpriority .wo Canobj.consoleConnect c.targetCh
  let r ← send target (some cons.extDat) 4 0
  pure r.1

def sendDisconnect (cons : CanHeaderExt) : CanProg Acknak := do
  let target := loadExtCh c.stack.ext.xpriority .wo Canobj.consoleDisconn c.targetCh
  let r ← send target (some cons.extDat) 4 0
  pure r.1

def sendForceDisconnectNb (cons : CanHeaderExt) : CanProg Acknak := do
  let target := { cons with type := .wo, object := Canobj.forceDisconn }
  let r ← sendNb target (some cons.extDat) 4 0
  pure r.1

/-- The polling loop of `heist_connection` with `k` rounds left after this
one: the console read last and the value of `try`, or nothing for the return
of -1. -/
def heistLoop : Nat → CanProg (Option (CanHeaderExt × Nat))
  | 0 => do
    let r ← sendConnectRo c
    if r.1 = .ack then pure (some (r.2, 5)) else pure none
  | k + 1 => do
    let r ← sendConnectRo c
    if r.1 = .ack then
      if canconUnconnected r.2 then pure (some (r.2, 4 - k)) else heistLoop k
    else pure none

/-- The part of `heist_connection` behind the first request. A fifth poll is
followed by a disconnect whatever it found. -/
def heistPoll : CanProg Int := do
  match ← heistLoop c 4 with
  | none => pure (-1)
  | some (oldcon, tries) =>
    if tries = 5 then
      if (← sendDisconnect c oldcon) = .ack then pure 0 else pure (-1)
    else pure 0

def heistConnection (oldcon : CanHeaderExt) : CanProg Int := do
  if (← sendForceDisconnectNb oldcon) = .ack then heistPoll c
  else if (← sendDisconnect c oldcon) = .ack then heistPoll c
  else pure (-1)

/-- The part of `connect_protocol` behind the look at the old console. No other
thread assigns `console_object`, so what is sent is what was just loaded. -/
def connectWrite : CanProg Int := do
  setConsoleObject c.consoleObject
  if (← sendConnectWo c c.consoleObject) = .ack then pure 0 else pure (-1)

def connectProtocol : CanProg Int := do
  let r ← sendConnectRo c
  if r.1 = .ack then
    if canconUnconnected r.2 then connectWrite c
    else if c.fopt then
      if (← heistConnection c r.2) = -1 then pure (-1) else connectWrite c
    else pure (-1)
  else pure (-1)

def disconnect : CanProg Int := do
  let cons ← getConsoleObject
  let _ ← sendDisconnect c cons
  pure 0

end Protocols

inductive Task where
  | disconnect
  | dat (buf : List Byte)
  | brk
  | resetH8

def Task.prog (c : Config) : Task → CanProg Int
  | .disconnect => MeikoCs2.disconnect c
  | .dat buf => do sendDat c buf; pure 0
  | .brk => do sendBreak c; pure 0
  | .resetH8 => do sendResetH8 c; pure 0

end MeikoCs2
