import Mathlib.Data.List.TakeWhile
import MeikoCs2.ConsoleStream

/-! The console across a reboot. Whatever changes `cancon_rmt` also writes it to
the PROM, in decimal, and what `canobj_init` reads back there is the same
header. -/

namespace MeikoCs2

theorem simpleStrtoul_toDigits (n : Nat) : simpleStrtoul (Nat.toDigits 10 n) = n := by
  have hd : (Nat.toDigits 10 n).takeWhile Char.isDigit = Nat.toDigits 10 n := by
    rw [List.takeWhile_eq_self_iff]
    exact fun c hc => Nat.isDigit_of_mem_toDigits (by decide) (by decide) hc
  rw [simpleStrtoul, hd, ← Nat.ofDigitChars_eq_foldl, Nat.ofDigitChars_ten_toDigits]

theorem length_toDigits_lt (d : CanDat) : (Nat.toDigits 10 d.toNat).length < canconHostSize := by
  have hle : (Nat.toDigits 10 d.toNat).length ≤ 10 := by
    rw [Nat.length_toDigits_le_iff (by decide) (by decide)]
    have hd := d.isLt
    omega
  exact Nat.lt_of_le_of_lt hle (by decide)

/-- The console is what the PROM records, and the PROM takes writes. -/
structure Recorded (s : Node) : Prop where
  host : ∃ str, obpGetprop .canconHost canconHostSize s.prom = some str ∧
    s.canconRmt = datExt (BitVec.ofNat 32 (simpleStrtoul str))
  writeOk : ∀ k, s.prom.writeOk k = true

structure KeepsHost (s u : Node) : Prop where
  rmt : u.canconRmt = s.canconRmt
  prom : SameHost s.prom u.prom

theorem KeepsHost.trans {s t u : Node} (h : KeepsHost s t) (h' : KeepsHost t u) :
    KeepsHost s u := ⟨h'.rmt.trans h.rmt, h.prom.trans h'.prom⟩

theorem KeepsHost.after {s t u : Node} (h : KeepsHost t u) (hr : t.canconRmt = s.canconRmt)
    (hp : SameHost s.prom t.prom) : KeepsHost s u := ⟨h.rmt.trans hr, hp.trans h.prom⟩

theorem Emits.keepsHost {s u : Node} (h : Emits s u) : KeepsHost s u :=
  ⟨h.canconRmt, by rw [h.prom]; exact .refl _⟩

theorem Recorded.of_keepsHost {s u : Node} (h : Recorded s) (hk : KeepsHost s u) : Recorded u := by
  obtain ⟨str, hs, hr⟩ := h.host
  refine ⟨⟨str, ?_, hk.rmt.trans hr⟩, fun k => ?_⟩
  · rw [obpGetprop, hk.prom.value]
    exact hs
  · rw [hk.prom.writeOk]
    exact h.writeOk k

theorem Recorded.set {s : Node} (h : Recorded s) (rmt : CanHeaderExt) :
    Recorded (canobjCanconHostSet { s with canconRmt := rmt }) := by
  obtain ⟨str, hs, _⟩ := h.host
  have hv : ∃ old, s.prom.value .canconHost = some old := by
    rw [obpGetprop, Option.filter_eq_some_iff] at hs
    exact ⟨str, hs.1⟩
  obtain ⟨old, hold⟩ := hv
  have hp : (canobjCanconHostSet { s with canconRmt := rmt }).prom =
      ⟨Function.update s.prom.value .canconHost (some (Nat.toDigits 10 rmt.extDat.toNat)),
        s.prom.writeOk, s.prom.writes + 1⟩ := by
    simp [canobjCanconHostSet, obpSetprop, hold, h.writeOk]
  refine ⟨⟨Nat.toDigits 10 rmt.extDat.toNat, ?_, ?_⟩, fun k => ?_⟩
  · rw [hp, obpGetprop]
    simpa [Option.filter] using length_toDigits_lt rmt.extDat
  · rw [simpleStrtoul_toDigits, BitVec.ofNat_toNat, BitVec.setWidth_eq, datExt_extDat]
    rfl
  · rw [hp]
    exact h.writeOk k

theorem setVal_keepsHost (d : CanDat) (s : Node) : KeepsHost s { s with objVal := d } :=
  ⟨rfl, .refl _⟩

theorem halt_keepsHost (s : Node) : KeepsHost s { s with halted := true } := ⟨rfl, .refl _⟩

theorem canttyHangup_keepsHost (s : Node) : KeepsHost s (canttyHangup s) := ⟨rfl, .refl _⟩

theorem canttyRecvDat_keepsHost (cs : List Byte) (s : Node) :
    KeepsHost s (canttyRecvDat cs s) := by
  unfold canttyRecvDat canttyRecvPush
  split
  · exact ⟨rfl, .refl _⟩
  · split_ifs
    · exact ⟨rfl, .refl _⟩
    · exact ⟨rfl, .refl _⟩

theorem Switched.recorded {p : CanPacket} {s u : Node} {l : List ConEvent} (h : Switched p s l u)
    (hs : Recorded s) : Recorded u := by
  have hack : ∀ {t d} {v : Node}, KeepsHost v (canobjAcknak t p d v) := fun {t d v} =>
    (canobjAcknak_emits t p d v).keepsHost
  cases h with
  | ignored => exact hs
  | answered _ _ hm => exact hs.of_keepsHost (hack.after rfl hm)
  | wrote _ => exact hs.of_keepsHost (hack.trans (setVal_keepsHost _ _))
  | connected _ _ => exact (hs.set (datExt p.dat)).of_keepsHost hack
  | disconnected _ _ => exact (hs.set _).of_keepsHost (hack.trans (canttyHangup_keepsHost _))
  | broke _ _ =>
    have hp := (printk_prints "can: received BREAK, restarting machine\n"
      (canobjAcknak .ack p none s)).toEmits.keepsHost
    exact hs.of_keepsHost (hack.trans (hp.trans (halt_keepsHost _)))
  | received _ _ _ => exact hs.of_keepsHost (hack.trans (canttyRecvDat_keepsHost _ _))

theorem bhRound_recorded {s u : Node} (h : bhRound s = some u) (hs : Recorded s) : Recorded u := by
  obtain ⟨pkt, q, _, rfl⟩ := bhRound_eq_some h
  have hq : Recorded { s with inq := q } := hs.of_keepsHost ⟨rfl, .refl _⟩
  have hd : Recorded (if isMypacket s.canNodeid pkt then (canobjPacket pkt { s with inq := q }).1
      else { s with inq := q }) := by
    split_ifs
    · exact ((canobjSwitch_switched pkt { s with inq := q }).recorded hq).of_keepsHost
        (canobjPacket_prints _ _).toEmits.keepsHost
    · exact hq
  refine hd.of_keepsHost ?_
  simp only [deliverPkt]
  split_ifs <;> exact ⟨rfl, .refl _⟩

theorem Node.step_recorded {s u : Node} {op : NodeOp} (h : s.step op = some u)
    (hs : Recorded s) : Recorded u := by
  have ha := (Node.step_eq_some h).2
  cases ho : op.isAside with
  | true =>
    have hk := Node.act_aside ha ho
    exact hs.of_keepsHost ⟨hk.canconRmt, by rw [hk.prom]; exact .refl _⟩
  | false =>
    cases op with
    | bh => exact bhRound_recorded ha hs
    | files t =>
      rw [← Option.some.inj ha]
      exact hs.of_keepsHost ⟨rfl, .refl _⟩
    | _ => cases ho

inductive MachineOp where
  | event (op : NodeOp)
  | reboot

/-- The reboot leaves the PROM and what is in memory; it may follow a halt. -/
def Node.machineStep (s : Node) : MachineOp → Option Node
  | .event op => s.step op
  | .reboot => some (canInit s)

def MachineStep (s : Node) (op : MachineOp) (u : Node) : Prop := s.machineStep op = some u

theorem canInit_recorded {s : Node} {str : List Char}
    (hr : obpGetprop .canconHost canconHostSize s.prom = some str)
    (hw : ∀ k, s.prom.writeOk k = true) :
    Recorded (canInit s) ∧
      (canInit s).canconRmt = datExt (BitVec.ofNat 32 (simpleStrtoul str)) := by
  have hp : (canInit s).prom = s.prom := by
    simp only [canInit, canobjCanconHostGet]
    split <;> rfl
  have hrmt : (canInit s).canconRmt = datExt (BitVec.ofNat 32 (simpleStrtoul str)) := by
    simp only [canInit, canobjCanconHostGet, hr]
  exact ⟨⟨⟨str, hp ▸ hr, hrmt⟩, hp ▸ hw⟩, hrmt⟩

theorem Recorded.reboot {s : Node} (h : Recorded s) : (canInit s).canconRmt = s.canconRmt := by
  obtain ⟨str, hs, hr⟩ := h.host
  rw [hr]
  exact (canInit_recorded hs h.writeOk).2

theorem MachineStep.recorded {s u : Node} {op : MachineOp} (h : MachineStep s op u)
    (hs : Recorded s) : Recorded u := by
  cases op with
  | event op => exact Node.step_recorded h hs
  | reboot =>
    rw [← Option.some.inj h]
    obtain ⟨str, hr, _⟩ := hs.host
    exact (canInit_recorded hr hs.writeOk).1

/-- On a PROM that returns the property and takes writes, the console survives
a reboot in every state of every run, and so would any other header. -/
theorem console_survives_reboot {n : Node}
    (hr : (obpGetprop .canconHost canconHostSize n.prom).isSome = true)
    (hw : ∀ k, n.prom.writeOk k = true) {tr : List (Node × MachineOp)} {u : Node}
    (h : Run MachineStep (canInit n) tr u) :
    (∀ x ∈ tr, (canInit x.1).canconRmt = x.1.canconRmt) ∧
    (canInit u).canconRmt = u.canconRmt ∧
    ∀ rmt, (canInit (canobjCanconHostSet { u with canconRmt := rmt })).canconRmt = rmt := by
  obtain ⟨str, hstr⟩ := Option.isSome_iff_exists.mp hr
  obtain ⟨hall, hu⟩ := h.invariant_all (canInit_recorded hstr hw).1
    fun _ _ _ ht hs => MachineStep.recorded hs ht
  exact ⟨fun x hx => (hall x hx).reboot, hu.reboot, fun rmt => (hu.set rmt).reboot⟩

/-- The console hangs up, the machine is rebooted, another console connects, and
BREAK halts the machine. -/
theorem console_survives_reboot_break :
    ∃ tr u, Run MachineStep (canInit hosted) tr u ∧ u.halted = true ∧
      u.canconRmt = ⟨1, .sig, 1, 2, 3, 0x1ff⟩ ∧ (canInit u).canconRmt = u.canconRmt := by
  obtain ⟨tr, u, hr, _, _, hg⟩ := exists_run_of_any (f := Node.machineStep) (s := canInit hosted)
    (fun _ _ => true)
    [.event (.tryRecv [⟨0, ⟨0, 1, 2, 0, 8⟩, ⟨0, .wo, 0, 0, 1, Canobj.consoleDisconn⟩, 0⟩]),
      .event .bh, .reboot,
      .event (.tryRecv [⟨0, ⟨0, 1, 3, 0, 8⟩, ⟨0, .wo, 0, 0, 1, Canobj.consoleConnect⟩,
          CanHeaderExt.extDat ⟨1, .sig, 1, 2, 3, 0x1ff⟩⟩,
        ⟨0, ⟨0, 1, 3, 0, 4⟩, ⟨0, .wo, 0, 0, 1, Canobj.brk⟩, 0⟩]),
      .event .bh, .event .bh]
    (fun u => u.halted && u.canconRmt = ⟨1, .sig, 1, 2, 3, 0x1ff⟩) (by decide +kernel)
  simp only [Bool.and_eq_true, decide_eq_true_eq] at hg
  exact ⟨tr, u, hr, hg.1, hg.2, (console_survives_reboot (by decide +kernel) (fun _ => rfl) hr).2.1⟩

end MeikoCs2
