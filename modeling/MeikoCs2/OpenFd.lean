import MeikoCs2.Objects

/-! Open files of `/dev/can`, from `can_main.c`: the table of open files, the
console object ids, promiscuous mode and the ioctl calls. An open file is
named by its slot in `openfd`; `kmalloc` is taken to succeed. -/

namespace MeikoCs2

def canInit82c200 (promiscuous : Bool) (nodeid : BitVec 32) : CanReg where
  -- RIE, EIE, OIE and TIE; the reset bit set on entry is clear again
  control := 0x1e
  acceptMask := if promiscuous then 0xff else 0x83
  acceptCode := (unpackNode nodeid <<< 2).setWidth 8
  busTiming0 := 0x40
  busTiming1 := 0x16
  outControl := 0xaa

def FdTable.init (nodeid : BitVec 32) : FdTable where
  openfd := fun _ => none
  consobjReserved := fun _ => false
  promiscuousUsecount := 0
  reg := canInit82c200 false nodeid

def FdTable.modify (fd : Fin canMaxUsecount) (f : FileState → FileState) (t : FdTable) : FdTable :=
  { t with openfd := Function.update t.openfd fd ((t.openfd fd).map f) }

/-- The probe loop of `can_alloc_consobj`, with the rounds left. -/
def probeConsobj (reserved : Fin canMaxUsecount → Bool) :
    Nat → Fin canMaxUsecount → Option (Fin canMaxUsecount)
  | 0, _ => none
  | k + 1, i => if reserved i then probeConsobj reserved k (i + 1) else some i

def canAllocConsobj (jiffies : BitVec 32) (t : FdTable) : FdTable × Int :=
  match probeConsobj t.consobjReserved canMaxUsecount (Fin.ofNat _ jiffies.toNat) with
  | none => (t, -1)
  | some i =>
    ({ t with consobjReserved := Function.update t.consobjReserved i true }, i.val + 0x100)

def canFreeConsobj (consobj : Int) (t : FdTable) : FdTable :=
  if 0 ≤ consobj - 0x100 ∧ consobj - 0x100 < canMaxUsecount then
    { t with consobjReserved :=
        Function.update t.consobjReserved (Fin.ofNat _ (consobj - 0x100).toNat) false }
  else t

def canAllocOpenfd (t : FdTable) : Option (Fin canMaxUsecount × FdTable) :=
  ((List.finRange canMaxUsecount).find? fun i => (t.openfd i).isNone).map fun i =>
    (i, { t with openfd := Function.update t.openfd i (some ⟨ringInit default, false, false, -1⟩) })

def setPromiscuous (fd : Fin canMaxUsecount) (nodeid : BitVec 32) (t : FdTable) : FdTable :=
  let t₁ := t.modify fd fun f => { f with promiscuous := true }
  { t₁ with
    reg := if t₁.promiscuousUsecount = 0 then canInit82c200 true nodeid else t₁.reg
    promiscuousUsecount := t₁.promiscuousUsecount + 1 }

def dropPromiscuous (nodeid : BitVec 32) (t : FdTable) : FdTable :=
  { t with
    reg := if t.promiscuousUsecount - 1 = 0 then canInit82c200 false nodeid else t.reg
    promiscuousUsecount := t.promiscuousUsecount - 1 }

def clrPromiscuous (fd : Fin canMaxUsecount) (nodeid : BitVec 32) (t : FdTable) : FdTable :=
  dropPromiscuous nodeid (t.modify fd fun f => { f with promiscuous := false })

def canReleaseOpenfd (fd : Fin canMaxUsecount) (nodeid : BitVec 32) (t : FdTable) : FdTable :=
  match t.openfd fd with
  | none => t
  | some f =>
    let t₁ := if f.consobj ≠ -1 then canFreeConsobj f.consobj t else t
    let t₂ := if f.promiscuous then dropPromiscuous nodeid t₁ else t₁
    { t₂ with openfd := Function.update t₂.openfd fd none }

/-- CAN_GET_CONSOBJ up to the copy to user space: free the id the file holds
and allocate one. -/
def getConsobj (fd : Fin canMaxUsecount) (f : FileState) (jiffies : BitVec 32) (t : FdTable) :
    FdTable × Int :=
  let t₁ := if f.consobj ≠ -1 then canFreeConsobj f.consobj t else t
  let a := canAllocConsobj jiffies t₁
  (a.1.modify fd fun f => { f with consobj := a.2 }, a.2)

inductive IoctlCmd where
  | setPromiscuous | clrPromiscuous | setSnoopy | clrSnoopy
  | getHeartbeat | setHeartbeat (val : BitVec 32) | getAddr | getConsobj
  | setReset | setDebug | clrDebug | other

def efault : Int := 14
def ebusy : Int := 16
def einval : Int := 22

def hexDigits (n : Nat) : String := String.ofList (Nat.toDigits 16 n)

def canconDumpInfo (s : Node) : Node :=
  if canconUnconnected s.canconRmt then printk "can: console not connected\n" s
  else
    printk ("can: console is connected to " ++ hexDigits s.canconRmt.cluster.toNat ++ "," ++
      hexDigits s.canconRmt.module.toNat ++ "," ++ hexDigits s.canconRmt.node.toNat ++ "\n") s

def canconDumpDebug (s : Node) : Node :=
  let s₁ := printk ("can: cancon_inbuf contains " ++ toString s.canconInbuf.size ++ " chars\n") s
  let s₂ :=
    printk ("can: cancon_outbuf contains " ++ toString s₁.canconOutbuf.size ++ " chars\n") s₁
  printk ("can: cancon_ack_pending = " ++ (if s₂.canconAckPending then "1" else "0") ++ "\n") s₂

def canDumpInfo (s : Node) : Node :=
  if s.canDebug then
    let s₁ := printk "can: debugging ON\n" (canconDumpInfo s)
    let s₂ := printk ("can: inq contains " ++ toString s₁.inq.size ++ " packets\n") s₁
    let s₃ := printk ("can: outq contains " ++ toString s₂.outq.size ++ " packets\n") s₂
    let fdcount := ((List.finRange canMaxUsecount).filter fun i => (s₃.fds.openfd i).isSome).length
    canconDumpDebug (printk ("can: there are " ++ toString fdcount ++ " fd's open\n") s₃)
  else s

/-- The ioctl of an open file. `fault` says that the copy from or to user
space fails; what is copied out is not modelled. -/
def canIoctl (fd : Fin canMaxUsecount) (cmd : IoctlCmd) (fault : Bool) (s : Node) : Node × Int :=
  match cmd with
  | .setPromiscuous => ({ s with fds := setPromiscuous fd s.canNodeid s.fds }, 0)
  | .clrPromiscuous => ({ s with fds := clrPromiscuous fd s.canNodeid s.fds }, 0)
  | .setSnoopy => ({ s with fds := s.fds.modify fd fun f => { f with snoopy := true } }, 0)
  | .clrSnoopy => ({ s with fds := s.fds.modify fd fun f => { f with snoopy := false } }, 0)
  | .getHeartbeat => (s, if fault then -efault else 0)
  | .setHeartbeat val => if fault then (s, -efault) else ({ s with canHbVal := val }, 0)
  | .getAddr => (s, if fault then -efault else 0)
  | .getConsobj =>
    match s.fds.openfd fd with
    | none => (s, 0)
    | some f =>
      let a := getConsobj fd f s.jiffies s.fds
      ({ s with fds := a.1 }, if a.2 = -1 then -ebusy else if fault then -efault else 0)
  | .setReset => ({ s with fds := { s.fds with reg := canInit82c200 false s.canNodeid } }, 0)
  | .setDebug => (canDumpInfo { s with canDebug := true }, 0)
  | .clrDebug => (printk "can: debugging OFF\n" { s with canDebug := false }, 0)
  | .other => (s, -einval)

end MeikoCs2
