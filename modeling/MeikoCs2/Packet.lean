import Mathlib.Tactic.Common
import Mathlib.Algebra.Order.Ring.Int

/-! The Meiko CAN packet of `asm/meiko/can.h`. The bit-fields are laid out
from the most significant bit down, as the SPARC compiler places them. -/

namespace MeikoCs2

abbrev Byte := BitVec 8

/-- The three-bit packet type. The value 5 has no name in the source. -/
inductive CanType where
  | ro | wo | wna | dat | ack | unused | nak | sig
  deriving DecidableEq, Repr, Inhabited

def CanType.toBits : CanType → BitVec 3
  | .ro => 0
  | .wo => 1
  | .wna => 2
  | .dat => 3
  | .ack => 4
  | .unused => 5
  | .nak => 6
  | .sig => 7

def CanType.ofBits (b : BitVec 3) : CanType :=
  if b = 0 then .ro
  else if b = 1 then .wo
  else if b = 2 then .wna
  else if b = 3 then .dat
  else if b = 4 then .ack
  else if b = 5 then .unused
  else if b = 6 then .nak
  else .sig

theorem CanType.ofBits_toBits (t : CanType) : CanType.ofBits t.toBits = t := by
  cases t <;> rfl

theorem CanType.toBits_ofBits (b : BitVec 3) : (CanType.ofBits b).toBits = b := by
  revert b
  decide

def CanType.isAcknak : CanType → Bool
  | .ack => true
  | .nak => true
  | _ => false

def CanType.ackable : CanType → Bool
  | .ro => true
  | .wo => true
  | .dat => true
  | _ => false

theorem CanType.isAcknak_of_ackable {t : CanType} (h : t.ackable = true) : t.isAcknak = false := by
  cases t <;> simp_all [CanType.ackable, CanType.isAcknak]

structure CanHeader where
  lpriority : BitVec 1
  dest : BitVec 5
  src : BitVec 5
  remote : BitVec 1
  length : BitVec 4
  deriving DecidableEq, Repr, Inhabited

structure CanHeaderExt where
  xpriority : BitVec 1
  type : CanType
  cluster : BitVec 6
  module : BitVec 6
  node : BitVec 6
  object : BitVec 10
  deriving DecidableEq, Repr, Inhabited

/-- The payload. Its byte 0 is the most significant one. -/
abbrev CanDat := BitVec 32

def CanHeaderExt.extDat (e : CanHeaderExt) : CanDat :=
  e.xpriority ++ e.type.toBits ++ e.cluster ++ e.module ++ e.node ++ e.object

def datExt (d : CanDat) : CanHeaderExt where
  xpriority := d.extractLsb' 31 1
  type := CanType.ofBits (d.extractLsb' 28 3)
  cluster := d.extractLsb' 22 6
  module := d.extractLsb' 16 6
  node := d.extractLsb' 10 6
  object := d.extractLsb' 0 10

theorem datExt_extDat (e : CanHeaderExt) : datExt e.extDat = e := by
  obtain ⟨x, t, c, m, n, o⟩ := e
  simp only [datExt, CanHeaderExt.extDat, CanHeaderExt.mk.injEq]
  refine ⟨?_, ?_, ?_, ?_, ?_, ?_⟩
  · iterate 4 rw [BitVec.extractLsb'_append_eq_of_le (by decide)]
    exact BitVec.extractLsb'_append_eq_left
  · iterate 4 rw [BitVec.extractLsb'_append_eq_of_le (by decide)]
    exact (congrArg CanType.ofBits BitVec.extractLsb'_append_eq_right).trans t.ofBits_toBits
  · iterate 3 rw [BitVec.extractLsb'_append_eq_of_le (by decide)]
    exact BitVec.extractLsb'_append_eq_right
  · iterate 2 rw [BitVec.extractLsb'_append_eq_of_le (by decide)]
    exact BitVec.extractLsb'_append_eq_right
  · rw [BitVec.extractLsb'_append_eq_of_le (by decide)]
    exact BitVec.extractLsb'_append_eq_right
  · exact BitVec.extractLsb'_append_eq_right

theorem extDat_datExt (d : CanDat) : (datExt d).extDat = d := by
  simp only [datExt, CanHeaderExt.extDat, CanType.toBits_ofBits]
  iterate 5 rw [BitVec.extractLsb'_append_extractLsb'_eq_extractLsb' (by decide)]
  exact BitVec.extractLsb'_eq_self

def datB (d : CanDat) (i : Nat) : Byte := d.extractLsb' (24 - 8 * i) 8

def datOfB (b : Nat → Byte) : CanDat := b 0 ++ b 1 ++ b 2 ++ b 3

theorem datB_datOfB (b : Nat → Byte) {i : Nat} (hi : i < 4) : datB (datOfB b) i = b i := by
  simp only [datB, datOfB]
  match i, hi with
  | 0, _ =>
    iterate 2 rw [BitVec.extractLsb'_append_eq_of_le (by decide)]
    exact BitVec.extractLsb'_append_eq_left
  | 1, _ =>
    iterate 2 rw [BitVec.extractLsb'_append_eq_of_le (by decide)]
    exact BitVec.extractLsb'_append_eq_right
  | 2, _ =>
    rw [BitVec.extractLsb'_append_eq_of_le (by decide)]
    exact BitVec.extractLsb'_append_eq_right
  | 3, _ => exact BitVec.extractLsb'_append_eq_right

def copyBytes (buf : List Byte) (d : CanDat) : CanDat :=
  datOfB fun i => buf[i]?.getD (datB d i)

theorem copyBytes_bytes {buf : List Byte} (d : CanDat) (h : buf.length ≤ 4) :
    (List.range buf.length).map (datB (copyBytes buf d)) = buf := by
  apply List.ext_getElem (by simp)
  intro i hi _
  have hi' : i < buf.length := by simpa using hi
  simp [copyBytes, datB_datOfB _ (by omega : i < 4), hi']

structure CanPacket where
  timestamp : BitVec 32
  can : CanHeader
  ext : CanHeaderExt
  dat : CanDat
  deriving DecidableEq, Repr, Inhabited

/-! The macros that unpack the node id returned by CAN_GET_ADDR. Each masks
five bits, although the fields of the extended header have six. -/

def unpackNode (id : BitVec 32) : BitVec 32 := id &&& 0x1f#32

def unpackModule (id : BitVec 32) : BitVec 32 := (id >>> 6) &&& 0x1f#32

def unpackCluster (id : BitVec 32) : BitVec 32 := (id >>> 12) &&& 0x1f#32

def canGetBoardH8 (node : BitVec 32) : BitVec 32 := (node >>> 2) + 0x10#32

abbrev canModuleH8 : BitVec 5 := 0x1d

/-- The CANCON_UNCONNECTED macro. It tests the cluster twice and never the
node. -/
def canconUnconnected (x : CanHeaderExt) : Bool :=
  x.cluster == 0x3f && x.module == 0x3f && x.cluster == 0x3f

theorem canconUnconnected_iff (x : CanHeaderExt) :
    canconUnconnected x = true ↔ x.cluster = 0x3f ∧ x.module = 0x3f := by
  simp only [canconUnconnected, Bool.and_eq_true, beq_iff_eq]
  tauto

namespace Canobj

def heartbeat : BitVec 10 := 0x31
def iam : BitVec 10 := 0x76
def consmin : BitVec 10 := 0x100
def consmax : BitVec 10 := 0x1ff
def autoboot : BitVec 10 := 0x3e3
def forceDisconn : BitVec 10 := 0x3ef
def consoleConnect : BitVec 10 := 0x3f0
def consoleDisconn : BitVec 10 := 0x3f1
def resetIo : BitVec 10 := 0x3f2
def brk : BitVec 10 := 0x3f3
def bootDev : BitVec 10 := 0x3f4
def testrw : BitVec 10 := 0x3ff

end Canobj

def canValidConsobj (c : BitVec 10) : Bool := Canobj.consmin ≤ c && c ≤ Canobj.consmax

end MeikoCs2
