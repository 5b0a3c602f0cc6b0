import MeikoCs2.Console

/-! The CAN objects handled in the kernel, from `can_obj.c`, and the OBP value
tables of `obp.h`. Every handler returns the new state and whether it handled
the packet. -/

namespace MeikoCs2

abbrev obpBootDeviceValues : List (List Char) :=
  ["", "elan", "disk", "net", "disk0", "disk1", "disk2", "disk3", "can", "eip"].map
    String.toList

abbrev obpInputDeviceValues : List (List Char) :=
  ["keyboard", "can", "ttya", "ttyb"].map String.toList

abbrev obpBoolean : List (List Char) := ["false", "true"].map String.toList

def obpStrtonum (str : List Char) (names : List (List Char)) : Int :=
  if str ∈ names then names.idxOf str else -1

def obpNumtostr (num : Int) (names : List (List Char)) : Option (List Char) :=
  if 0 ≤ num ∧ num < names.length then names[num.toNat]? else none

abbrev obpMaxstr : Nat := 80

/-- The property, unless it is absent or does not fit into `size` bytes
together with its NUL. -/
def obpGetprop (path : ObpPath) (size : Nat) (p : Prom) : Option (List Char) :=
  (p.value path).filter fun str => str.length < size

/-- A write to a property that does not exist fails in the lookup. -/
def obpSetprop (path : ObpPath) (str : List Char) (p : Prom) : Prom × Bool :=
  match p.value path with
  | none => (p, false)
  | some _ =>
    if p.writeOk p.writes then
      ({ p with value := Function.update p.value path (some str), writes := p.writes + 1 }, true)
    else ({ p with writes := p.writes + 1 }, false)

/-- The value of a table-coded property, unless it cannot be read. The -1 of
a string outside the table is stored into an unsigned word. -/
def obpGetcan (path : ObpPath) (table : List (List Char)) (p : Prom) : Option (BitVec 32) :=
  (obpGetprop path obpMaxstr p).map fun str => BitVec.ofInt 32 (obpStrtonum str table)

def obpSetcan (path : ObpPath) (table : List (List Char)) (val : Int) (p : Prom) : Prom × Bool :=
  match obpNumtostr val table with
  | none => (p, false)
  | some str => obpSetprop path str p

def acknakPkt (type : CanType) (inpkt : CanPacket) (data : Option CanDat) : CanPacket :=
  { inpkt with
    can := { inpkt.can with dest := inpkt.can.src, length := if data.isSome then 8 else 4 }
    ext := { inpkt.ext with type := type }
    dat := data.getD inpkt.dat }

def canobjAcknak (type : CanType) (inpkt : CanPacket) (data : Option CanDat) (s : Node) : Node :=
  (sendPkt (acknakPkt type inpkt data) s).1

/-- The SET half of `canobj_cancon_host`: record the connected console in the
PROM, in decimal. -/
def canobjCanconHostSet (s : Node) : Node :=
  { s with prom :=
      (obpSetprop .canconHost (Nat.toDigits 10 s.canconRmt.extDat.toNat) s.prom).1 }

def simpleStrtoul (cs : List Char) : Nat :=
  (cs.takeWhile Char.isDigit).foldl (fun n c => 10 * n + (c.toNat - '0'.toNat)) 0

abbrev canconHostSize : Nat := 16

/-- The GET half. If the property cannot be read, the string converted is
whatever the stack holds, and so is the console. -/
def canobjCanconHostGet (s : Node) : Node :=
  match obpGetprop .canconHost canconHostSize s.prom with
  | none => { s with canconRmt := s.stack.ext }
  | some str => { s with canconRmt := datExt (BitVec.ofNat 32 (simpleStrtoul str)) }

def canobjConnect (pkt : CanPacket) (s : Node) : Node × Bool :=
  match pkt.ext.type with
  | .ro => (canobjAcknak .ack pkt (some s.canconRmt.extDat) s, true)
  | .wo =>
    if !canconUnconnected s.canconRmt then (canobjAcknak .nak pkt none s, true)
    else
      let s₁ := canobjCanconHostSet (canconSetcon (some pkt) s)
      (canobjAcknak .ack pkt (some s₁.canconRmt.extDat) s₁, true)
  | _ => (s, false)

def canobjDisconnect (pkt : CanPacket) (s : Node) : Node × Bool :=
  match pkt.ext.type with
  | .wo =>
    if canconUnconnected s.canconRmt then (canobjAcknak .nak pkt none s, true)
    else
      let s₁ := canobjCanconHostSet (canconSetcon none s)
      (canttyHangup (canobjAcknak .ack pkt none s₁), true)
  | _ => (s, false)

/-- The bytes `cantty_recv_dat` reads: the length field counts them, and
those past the fourth lie outside the payload. A length below four makes the
count negative. -/
def recvChars (pkt : CanPacket) (s : Node) : List Byte :=
  (List.range (pkt.can.length.toNat - 4)).map fun i =>
    if i < 4 then datB pkt.dat i else s.beyond i

def canobjDat (pkt : CanPacket) (s : Node) : Node × Bool :=
  if canconUnconnected s.canconRmt then (s, false)
  else
    match pkt.ext.type with
    | .dat => (canttyRecvDat (recvChars pkt s) (canobjAcknak .ack pkt none s), true)
    | _ => (s, false)

def canobjConsobj (pkt : CanPacket) (s : Node) : Node × Bool :=
  match pkt.ext.type with
  | .ack => (canconRecvAck false s, true)
  | .nak => (printk "can: consobj NAK - shouldn't happen\n" s, true)
  | _ => (s, false)

/-- The BREAK object halts the machine: `machine_halt` does not return. -/
def canobjBreak (pkt : CanPacket) (s : Node) : Node × Bool :=
  match pkt.ext.type with
  | .wo =>
    let s₁ := printk "can: received BREAK, restarting machine\n" (canobjAcknak .ack pkt none s)
    ({ s₁ with halted := true }, true)
  | _ => (s, false)

def canobjTestrw (pkt : CanPacket) (s : Node) : Node × Bool :=
  match pkt.ext.type with
  | .wo => ({ canobjAcknak .ack pkt (some s.objVal) s with objVal := pkt.dat }, true)
  | .ro => (canobjAcknak .ack pkt (some s.objVal) s, true)
  | _ => (s, false)

/-- AUTOBOOT and BOOT_DEV: read a table-coded property. A failed read answers
with the uninitialised `val`. -/
def canobjReadProp (path : ObpPath) (table : List (List Char)) (pkt : CanPacket) (s : Node) :
    Node × Bool :=
  match pkt.ext.type with
  | .ro =>
    match obpGetcan path table s.prom with
    | none => (canobjAcknak .nak pkt (some s.stack.dat) s, true)
    | some val => (canobjAcknak .ack pkt (some val) s, true)
  | _ => (s, false)

def canobjAutoboot : CanPacket → Node → Node × Bool := canobjReadProp .autoBoot obpBoolean

def canobjBootDev : CanPacket → Node → Node × Bool :=
  canobjReadProp .bootDevice obpBootDeviceValues

/-- The WO branch of `canobj_reset_io`, with the type of its answer. Both
properties are written through the input device table. -/
def resetIoWrite (newval oldval : BitVec 32) (p : Prom) : Prom × CanType :=
  let p₁ := obpSetcan .inputDevice obpInputDeviceValues newval.toInt p
  if !p₁.2 then (p₁.1, .nak)
  else
    let p₂ := obpSetcan .outputDevice obpInputDeviceValues newval.toInt p₁.1
    if !p₂.2 then ((obpSetcan .inputDevice obpInputDeviceValues oldval.toInt p₂.1).1, .nak)
    else (p₂.1, .ack)

structure SameHost (m m' : Prom) : Prop where
  value : m'.value .canconHost = m.value .canconHost
  writeOk : m'.writeOk = m.writeOk

theorem SameHost.refl (m : Prom) : SameHost m m := ⟨rfl, rfl⟩

theorem SameHost.trans {m m' m'' : Prom} (h : SameHost m m') (h' : SameHost m' m'') :
    SameHost m m'' := ⟨h'.value.trans h.value, h'.writeOk.trans h.writeOk⟩

theorem obpSetprop_sameHost {path : ObpPath} (h : path ≠ .canconHost) (str : List Char)
    (m : Prom) : SameHost m (obpSetprop path str m).1 := by
  unfold obpSetprop
  split
  · exact .refl m
  · split_ifs
    · exact ⟨Function.update_of_ne h.symm _ _, rfl⟩
    · exact ⟨rfl, rfl⟩

theorem obpSetcan_sameHost {path : ObpPath} (h : path ≠ .canconHost) (table : List (List Char))
    (val : Int) (m : Prom) : SameHost m (obpSetcan path table val m).1 := by
  unfold obpSetcan
  split
  · exact .refl m
  · exact obpSetprop_sameHost h _ m

theorem resetIoWrite_sameHost (newval oldval : BitVec 32) (m : Prom) :
    SameHost m (resetIoWrite newval oldval m).1 := by
  have hin : ∀ val m, SameHost m (obpSetcan .inputDevice obpInputDeviceValues val m).1 :=
    fun val m => obpSetcan_sameHost (by decide) _ val m
  have hout := @obpSetcan_sameHost .outputDevice (by decide) obpInputDeviceValues newval.toInt
    (obpSetcan .inputDevice obpInputDeviceValues newval.toInt m).1
  unfold resetIoWrite
  simp only
  split_ifs
  · exact hin _ m
  · exact ((hin _ m).trans hout).trans (hin _ _)
  · exact (hin _ m).trans hout

def canobjResetIo (pkt : CanPacket) (s : Node) : Node × Bool :=
  match pkt.ext.type with
  | .ro =>
    match obpGetcan .inputDevice obpInputDeviceValues s.prom with
    | none => (canobjAcknak .nak pkt (some 0) s, true)
    | some oldval => (canobjAcknak .ack pkt (some oldval) s, true)
  | .wo =>
    match obpGetcan .inputDevice obpInputDeviceValues s.prom with
    | none => (canobjAcknak .nak pkt (some 0) s, true)
    | some oldval =>
      let w := resetIoWrite pkt.dat oldval s.prom
      (canobjAcknak w.2 pkt (some oldval) { s with prom := w.1 }, true)
  | _ => (s, false)

def canobjHeartbeat (pkt : CanPacket) (s : Node) : Node × Bool :=
  match pkt.ext.type with
  | .ro => (canobjAcknak .ack pkt (some s.canHbVal) s, true)
  | _ => (s, false)

def canInuseConsobj (consobj : BitVec 10) (t : FdTable) : Bool :=
  t.consobjReserved (Fin.ofNat canMaxUsecount (consobj - Canobj.consmin).toNat)

/-- Answer for a defunct cancon; a live one answers by itself. -/
def canobjForceDisconn (pkt : CanPacket) (s : Node) : Node × Bool :=
  match pkt.ext.type with
  | .wo =>
    let consobj := (datExt pkt.dat).object
    if !canValidConsobj consobj then (s, false)
    else if canInuseConsobj consobj s.fds then (s, false)
    else (canobjAcknak .ack pkt none s, true)
  | _ => (s, false)

def canobjSwitch (pkt : CanPacket) (s : Node) : Node × Bool :=
  let object := pkt.ext.object
  if object = Canobj.consoleConnect then canobjConnect pkt s
  else if object = Canobj.consoleDisconn then canobjDisconnect pkt s
  else if object = Canobj.brk then canobjBreak pkt s
  else if object = Canobj.forceDisconn then canobjForceDisconn pkt s
  else if object = Canobj.testrw then canobjTestrw pkt s
  else if object = Canobj.heartbeat then canobjHeartbeat pkt s
  else if object = Canobj.autoboot then canobjAutoboot pkt s
  else if object = Canobj.resetIo then canobjResetIo pkt s
  else if object = Canobj.bootDev then canobjBootDev pkt s
  else if object = 0 then canobjDat pkt s
  else (s, false)

/-- What the handlers meet, each for the packets of its object, the switch meets. -/
theorem canobjSwitch_cases {P : Node × Bool → Prop} (p : CanPacket) (s : Node)
    (connect : p.ext.object = Canobj.consoleConnect → P (canobjConnect p s))
    (disconn : p.ext.object = Canobj.consoleDisconn → P (canobjDisconnect p s))
    (brk : p.ext.object = Canobj.brk → P (canobjBreak p s))
    (force : p.ext.object = Canobj.forceDisconn → P (canobjForceDisconn p s))
    (testrw : p.ext.object = Canobj.testrw → P (canobjTestrw p s))
    (heartbeat : p.ext.object = Canobj.heartbeat → P (canobjHeartbeat p s))
    (autoboot : p.ext.object = Canobj.autoboot → P (canobjAutoboot p s))
    (resetIo : p.ext.object = Canobj.resetIo → P (canobjResetIo p s))
    (bootDev : p.ext.object = Canobj.bootDev → P (canobjBootDev p s))
    (dat : p.ext.object = 0 → P (canobjDat p s))
    (other : p.ext.object ≠ Canobj.consoleConnect → p.ext.object ≠ Canobj.consoleDisconn →
      p.ext.object ≠ Canobj.brk → p.ext.object ≠ 0 → P (s, false)) : P (canobjSwitch p s) := by
  unfold canobjSwitch
  by_cases hc : p.ext.object = Canobj.consoleConnect
  · rw [if_pos hc]
    exact connect hc
  rw [if_neg hc]
  by_cases hd : p.ext.object = Canobj.consoleDisconn
  · rw [if_pos hd]
    exact disconn hd
  rw [if_neg hd]
  by_cases hb : p.ext.object = Canobj.brk
  · rw [if_pos hb]
    exact brk hb
  rw [if_neg hb]
  by_cases hf : p.ext.object = Canobj.forceDisconn
  · rw [if_pos hf]
    exact force hf
  rw [if_neg hf]
  by_cases ht : p.ext.object = Canobj.testrw
  · rw [if_pos ht]
    exact testrw ht
  rw [if_neg ht]
  by_cases hh : p.ext.object = Canobj.heartbeat
  · rw [if_pos hh]
    exact heartbeat hh
  rw [if_neg hh]
  by_cases ha : p.ext.object = Canobj.autoboot
  · rw [if_pos ha]
    exact autoboot ha
  rw [if_neg ha]
  by_cases hr : p.ext.object = Canobj.resetIo
  · rw [if_pos hr]
    exact resetIo hr
  rw [if_neg hr]
  by_cases hv : p.ext.object = Canobj.bootDev
  · rw [if_pos hv]
    exact bootDev hv
  rw [if_neg hv]
  by_cases h0 : p.ext.object = 0
  · rw [if_pos h0]
    exact dat h0
  · rw [if_neg h0]
    exact other hc hd hb h0

theorem canobjSwitch_connect {p : CanPacket} (h : p.ext.object = Canobj.consoleConnect)
    (s : Node) : canobjSwitch p s = canobjConnect p s := by
  simp only [canobjSwitch, h, if_true]

theorem canobjSwitch_disconn {p : CanPacket} (h : p.ext.object = Canobj.consoleDisconn)
    (s : Node) : canobjSwitch p s = canobjDisconnect p s := by
  simp only [canobjSwitch, h, if_true]
  rw [if_neg (by decide)]

theorem canobjSwitch_forceDisconn {p : CanPacket} (h : p.ext.object = Canobj.forceDisconn)
    (s : Node) : canobjSwitch p s = canobjForceDisconn p s := by
  simp only [canobjSwitch, h, if_true]
  iterate 3 rw [if_neg (by decide)]

theorem canobjSwitch_dat {p : CanPacket} (h : p.ext.object = 0) (s : Node) :
    canobjSwitch p s = canobjDat p s := by
  simp only [canobjSwitch, h, if_true]
  iterate 9 rw [if_neg (by decide)]

/-- Dispatch locally handled CAN objects. After the switch, a packet for the
object of the connected console is dispatched a second time. -/
def canobjPacket (pkt : CanPacket) (s : Node) : Node × Bool :=
  let r := canobjSwitch pkt s
  if !canconUnconnected r.1.canconRmt then
    if pkt.ext.object = r.1.canconRmt.object then canobjConsobj pkt r.1 else r
  else r

end MeikoCs2
