import MeikoCs2.Node

/-! The console character path of `can_console.c`. The printk of the kernel
calls `cancon_printk_write` synchronously; waking sleepers and line
disciplines changes nothing here. -/

namespace MeikoCs2

def messageBytes (m : String) : List Byte := m.toList.map fun c => BitVec.ofNat 8 c.toNat

/-- With no packet the value the PROM provides when cancon-host is
unconnected; the type and priority bits keep their old values. -/
def canconSetcon (pkt : Option CanPacket) (s : Node) : Node :=
  match pkt with
  | none =>
    { s with canconRmt :=
        { s.canconRmt with cluster := 0x3f, module := 0x3f, node := 0x3f, object := 0x3f } }
  | some p => { s with canconRmt := datExt p.dat }

def isLocal (nodeid : BitVec 32) (x : CanHeaderExt) : Bool :=
  x.cluster.setWidth 32 == unpackCluster nodeid && x.module.setWidth 32 == unpackModule nodeid

def takeChars : Nat → CharRing → List Byte × CharRing
  | 0, r => ([], r)
  | k + 1, r =>
    match ringToChar r with
    | none => ([], r)
    | some (c, r') => (c :: (takeChars k r').1, (takeChars k r').2)

def consolePkt (s : Node) (chars : List Byte) : CanPacket :=
  { timestamp := s.stack.timestamp
    can :=
      { s.stack.can with
        length := BitVec.ofNat 4 (4 + chars.length)
        dest := if isLocal s.canNodeid s.canconRmt then s.canconRmt.node.setWidth 5
          else canModuleH8 }
    ext := { s.canconRmt with type := .dat }
    dat := copyBytes chars s.stack.dat }

def canconSendNext (s : Node) : Node :=
  if canconUnconnected s.canconRmt then { s with canconOutbuf := clearRing s.canconOutbuf }
  else if s.canconAckPending then s
  else
    let t := takeChars 4 s.canconOutbuf
    if t.1.isEmpty then s
    else
      -- a refused packet is dropped together with its characters
      let r := sendPkt (consolePkt s t.1) { s with canconOutbuf := t.2 }
      if r.2 then { r.1 with canconAckPending := true, ackTimer := true } else r.1

/-- Queue printk text, with a CR before each NL. Characters that find the
ring full are lost. -/
def putPrintk : List Byte → CharRing → CharRing
  | [], r => r
  | c :: cs, r =>
    let r' := if c = 0x0a then (charToRing 0x0d r).1 else r
    putPrintk cs (charToRing c r').1

def canconPrintkWrite (str : List Byte) (s : Node) : Node :=
  if canconUnconnected s.canconRmt || str.isEmpty then s
  else canconSendNext { s with canconOutbuf := putPrintk str s.canconOutbuf }

def printk (m : String) (s : Node) : Node := canconPrintkWrite (messageBytes m) s

/-- An ACK was received, or (`timeout`) `ack_timer` expired. -/
def canconRecvAck (timeout : Bool) (s : Node) : Node :=
  let s₁ := { s with ackTimer := false, canconAckPending := false }
  let s₂ :=
    if !s.canconAckPending then
      if timeout then printk "can: unexpected ACK timeout\n" s₁
      else printk "can: unexpected ACK received\n" s₁
    else if timeout then printk "can: consobj ACK timed out\n" s₁
    else s₁
  canconSendNext s₂

def canttyHangup (s : Node) : Node :=
  { s with canconOutbuf := clearRing s.canconOutbuf, canconInbuf := clearRing s.canconInbuf }

abbrev ttyFlipbufSize : Nat := 512

def canttyRecvPush (s : Node) : Node :=
  match s.ttyp with
  | none => s
  | some tty =>
    if tty.charBufNull then s
    else
      let t := takeChars (ttyFlipbufSize - tty.flip.length) s.canconInbuf
      { s with ttyp := some { tty with flip := tty.flip ++ t.1 }, canconInbuf := t.2 }

def putChars : List Byte → CharRing → CharRing
  | [], r => r
  | c :: cs, r => putChars cs (charToRing c r).1

def canttyRecvDat (chars : List Byte) (s : Node) : Node :=
  canttyRecvPush { s with canconInbuf := putChars chars s.canconInbuf }

def acceptedChars : List Byte → CharRing → List Byte
  | [], _ => []
  | c :: cs, r =>
    if (charToRing c r).2 then c :: acceptedChars cs (charToRing c r).1
    else acceptedChars cs (charToRing c r).1

theorem toList_putChars (cs : List Byte) (r : CharRing) :
    (putChars cs r).toList = r.toList ++ acceptedChars cs r := by
  induction cs generalizing r with
  | nil => simp [putChars, acceptedChars]
  | cons c cs ih =>
    rw [putChars, acceptedChars, ih]
    cases hf : r.full with
    | true => simp [charToRing, Ring.put_of_full hf]
    | false =>
      have hp : (charToRing c r).2 = true := by rw [charToRing, Ring.put_snd, hf]; rfl
      rw [if_pos hp, charToRing, Ring.toList_put (by decide) hf]
      simp

theorem acceptedChars_of_room {cs : List Byte} {r : CharRing} (h : cs.length ≤ r.room) :
    acceptedChars cs r = cs := by
  induction cs generalizing r with
  | nil => rfl
  | cons c cs ih =>
    rw [Ring.room_eq, List.length_cons] at h
    have hf : r.full = false := by
      rw [Bool.eq_false_iff, Ne, Ring.full_iff r (by decide)]
      omega
    have hp : (charToRing c r).2 = true := by rw [charToRing, Ring.put_snd, hf]; rfl
    rw [acceptedChars, if_pos hp, ih]
    rw [Ring.room_eq, charToRing, Ring.size_put (by decide) hf]
    omega

theorem takeChars_append (k : Nat) (r : CharRing) :
    (takeChars k r).1 ++ (takeChars k r).2.toList = r.toList := by
  induction k generalizing r with
  | zero => rfl
  | succ k ih =>
    rw [takeChars]
    split
    · rfl
    · rename_i c r' hg
      rw [List.cons_append, ih, Ring.toList_of_get (by decide) hg]

theorem takeChars_fst (k : Nat) (r : CharRing) : (takeChars k r).1 = r.toList.take k := by
  induction k generalizing r with
  | zero => rfl
  | succ k ih =>
    rw [takeChars]
    split
    · rename_i hg
      rw [(Ring.get_eq_none_iff r).mp hg, List.take_nil]
    · rename_i c r' hg
      rw [Ring.toList_of_get (by decide) hg, List.take_succ_cons, ih]

theorem takeChars_snd (k : Nat) (r : CharRing) : (takeChars k r).2.toList = r.toList.drop k := by
  have h := takeChars_append k r
  rw [takeChars_fst] at h
  exact List.append_cancel_left (h.trans (List.take_append_drop k r.toList).symm)

end MeikoCs2
