import MeikoCs2.Heartbeat
import MeikoCs2.Sleepers

/-! Loading the driver where not all of it succeeds. `init_module` undoes what
it has done when a step fails, but not for the chip: `can_init_82c200` fails
with EIO, and its caller looks for -1. The interrupt is then asked for again
whenever the chip is reset. -/

namespace MeikoCs2

/-- What `request_irq` and the chip answer in one call of `can_init_82c200`. -/
structure ChipAnswer where
  irqRefused : Bool
  resetStays : Bool
  busStat : Bool

/-- The module with the mapping of the chip and the static `first_time`. -/
structure Loaded where
  module : Module
  mapped : Bool
  firstTime : Bool

namespace Loaded

def fds (l : Loaded) : FdTable := l.module.driver.node.fds

def setReg (reg : CanReg) (l : Loaded) : Loaded :=
  { l with module.driver.node.fds.reg := reg }

/-- The registers hold what was written last; what is read back is `a`. -/
def initChip (promiscuous : Bool) (a : ChipAnswer) (l : Loaded) : Loaded × Int :=
  let reg := canInit82c200 promiscuous l.module.driver.node.canNodeid
  let l₁ := l.setReg { reg with control := 0x01 }
  if l.firstTime && a.irqRefused then (l₁, -eio)
  else
    let l₂ := { l₁ with firstTime := false, module.irq := l₁.module.irq || l.firstTime }
    (l₂.setReg reg, if a.resetStays || a.busStat then -eio else 0)

end Loaded

/-- The mode in which a call of the driver resets the chip, if it does. -/
def ModuleOp.resets (t : FdTable) : ModuleOp → Option Bool
  | .driver (.ioctl _ .setPromiscuous _) => if t.promiscuousUsecount = 0 then some true else none
  | .driver (.ioctl _ .clrPromiscuous _) =>
    if t.promiscuousUsecount - 1 = 0 then some false else none
  | .driver (.ioctl _ .setReset _) => some false
  | .driver (.release fd) =>
    if (t.openfd fd).any FileState.promiscuous ∧ t.promiscuousUsecount - 1 = 0 then some false
    else none
  | _ => none

/-- The two parts of `can_intr`. -/
def ModuleOp.isIntr : ModuleOp → Bool
  | .driver (.tryRecv _) => true
  | .driver .tryXmit => true
  | _ => false

abbrev LoadedOp := ModuleOp × ChipAnswer

def Loaded.after (l : Loaded) (x : LoadedOp) (m : Module) : Loaded :=
  match x.1.resets l.fds with
  | none => { l with module := m }
  | some promiscuous => ({ l with module := m }.initChip promiscuous x.2).1

inductive LoadedStep (l : Loaded) (x : LoadedOp) : Loaded → Prop where
  | step {m : Module} (h : ModuleStep l.module x.1 m)
      (hi : x.1.isIntr = true → l.module.irq = true) : LoadedStep l x (l.after x m)

/-- A reset of the chip, with the interrupt granted. -/
def Grants (x : Loaded × LoadedOp) : Prop :=
  (x.2.1.resets x.1.fds).isSome = true ∧ x.2.2.irqRefused = false

/-! What a call of the driver leaves in the registers of the chip. -/

def regAfter (nodeid : BitVec 32) (reg : CanReg) : Option Bool → CanReg
  | none => reg
  | some promiscuous => canInit82c200 promiscuous nodeid

theorem canReleaseOpenfd_reg {t : FdTable} {fd : Fin canMaxUsecount} {f : FileState}
    (hf : t.openfd fd = some f) (nodeid : BitVec 32) :
    (canReleaseOpenfd fd nodeid t).reg =
      regAfter nodeid t.reg ((ModuleOp.driver (.release fd)).resets t) := by
  have hfree : (freed f t).promiscuousUsecount = t.promiscuousUsecount ∧ (freed f t).reg = t.reg := by
    unfold freed canFreeConsobj
    split_ifs <;> exact ⟨rfl, rfl⟩
  have hr : (canReleaseOpenfd fd nodeid t).reg =
      (if f.promiscuous then dropPromiscuous nodeid (freed f t) else freed f t).reg := by
    simp only [canReleaseOpenfd, hf, freed]
  rw [hr, ModuleOp.resets, hf, Option.any_some]
  by_cases hp : f.promiscuous = true
  · rw [if_pos hp, dropPromiscuous, hfree.1, hfree.2]
    by_cases hc : t.promiscuousUsecount - 1 = 0
    · rw [if_pos hc, if_pos ⟨hp, hc⟩]
      rfl
    · rw [if_neg hc, if_neg fun h => hc h.2]
      rfl
  · rw [if_neg hp, if_neg fun h => hp h.1]
    exact hfree.2

theorem canIoctl_reg {d : Driver} {fd : Fin canMaxUsecount} {f : FileState}
    (hf : d.node.fds.openfd fd = some f) (cmd : IoctlCmd) (fault : Bool) :
    (canIoctl fd cmd fault d.node).1.fds.reg =
      regAfter d.node.canNodeid d.node.fds.reg
        ((ModuleOp.driver (.ioctl fd cmd fault)).resets d.node.fds) := by
  cases cmd with
  | setPromiscuous =>
    have hreg : ∀ t : FdTable, (setPromiscuous fd d.node.canNodeid t).reg =
        if t.promiscuousUsecount = 0 then canInit82c200 true d.node.canNodeid else t.reg :=
      fun _ => rfl
    simp only [canIoctl, hreg, ModuleOp.resets]
    split_ifs <;> rfl
  | clrPromiscuous =>
    have hreg : ∀ t : FdTable, (clrPromiscuous fd d.node.canNodeid t).reg =
        if t.promiscuousUsecount - 1 = 0 then canInit82c200 false d.node.canNodeid else t.reg :=
      fun _ => rfl
    simp only [canIoctl, hreg, ModuleOp.resets]
    split_ifs <;> rfl
  | setHeartbeat val =>
    simp only [canIoctl]
    split_ifs <;> rfl
  | getConsobj =>
    simp only [canIoctl, hf, getConsobj, canAllocConsobj, canFreeConsobj]
    split <;> split_ifs <;> rfl
  | setDebug =>
    have he := (canDumpInfo_prints { d.node with canDebug := true }).fds
    simp only [canIoctl, he]
    rfl
  | clrDebug =>
    have he := (printk_prints "can: debugging OFF\n" { d.node with canDebug := false }).fds
    simp only [canIoctl, he]
    rfl
  | _ => rfl

theorem DriverStep.reg {d d' : Driver} {op : DriverOp} (h : DriverStep d op d') :
    d'.node.fds.reg =
      regAfter d.node.canNodeid d.node.fds.reg ((ModuleOp.driver op).resets d.node.fds) := by
  obtain ⟨rfl, fd, ha⟩ | ⟨fd, f, rfl, hf, he⟩ | ⟨fd, f, cmd, fault, rfl, hf, he⟩ |
    ⟨hrel, hio, hsame⟩ := h.fds_cases
  · rw [(canAllocOpenfd_eq ha).2]
    rfl
  · rw [he]
    exact canReleaseOpenfd_reg hf _
  · rw [he]
    exact canIoctl_reg hf cmd fault
  · have hn : (ModuleOp.driver op).resets d.node.fds = none := by
      cases op with
      | release fd => exact absurd rfl (hrel fd)
      | ioctl fd cmd fault => exact absurd rfl (hio fd cmd fault)
      | _ => rfl
    rw [hn]
    exact hsame.reg

theorem NodeOp.isAside_of_refcount {refs refs' : Nat} {op : NodeOp}
    (h : op.refcount refs = some refs') : op.isAside = true := by
  cases op with
  | bh => cases h
  | files t => cases h
  | _ => rfl

theorem canobjSendHeartbeat_fds (s : Node) : (canobjSendHeartbeat s).fds = s.fds := by
  have hset : ∀ (u : Node) (c : BitVec 32), ({ u with hbCount := c, hbTimer := true } : Node).fds =
      u.fds := fun _ _ => rfl
  simp only [canobjSendHeartbeat, hset]
  split_ifs
  · exact (sendPktNoOutFixup_emits _ _).fds.trans (sendPkt_emits _ s).fds
  · exact (sendPkt_emits _ s).fds

theorem ModuleStep.reg {m m' : Module} {op : ModuleOp} (h : ModuleStep m op m') :
    m'.driver.node.fds.reg =
      regAfter m.driver.node.canNodeid m.driver.node.fds.reg (op.resets m.driver.node.fds) := by
  cases h with
  | driver h => exact h.reg
  | tty h hr =>
    rw [(Node.act_aside (Node.step_eq_some h).2 (NodeOp.isAside_of_refcount hr)).fds]
    rfl
  | heartbeat _ => rw [canobjSendHeartbeat_fds]; rfl

theorem ModuleStep.irq {m m' : Module} {op : ModuleOp} (h : ModuleStep m op m') :
    m'.irq = m.irq := by
  cases h <;> rfl

/-- The registers are those of some mode, still in reset without an interrupt. -/
structure ChipOk (l : Loaded) : Prop where
  firstTime : l.firstTime = !l.module.irq
  reg : ∃ promiscuous, l.fds.reg =
    { canInit82c200 promiscuous l.module.driver.node.canNodeid with
      control := if l.module.irq then 0x1e else 0x01 }

theorem Loaded.initChip_spec {l : Loaded} (h : l.firstTime = !l.module.irq) (promiscuous : Bool)
    (a : ChipAnswer) :
    (l.initChip promiscuous a).1.module.irq = (l.module.irq || !a.irqRefused) ∧
      (l.initChip promiscuous a).1.firstTime = !(l.initChip promiscuous a).1.module.irq ∧
      (l.initChip promiscuous a).1.fds.reg =
        { canInit82c200 promiscuous l.module.driver.node.canNodeid with
          control := if (l.initChip promiscuous a).1.module.irq then 0x1e else 0x01 } := by
  by_cases hr : (l.firstTime && a.irqRefused) = true
  · obtain ⟨hf, ha⟩ := (Bool.and_eq_true _ _).mp hr
    have hirq : l.module.irq = false := by simpa [hf] using h
    have he : (l.initChip promiscuous a).1 =
        l.setReg { canInit82c200 promiscuous l.module.driver.node.canNodeid with control := 0x01 } := by
      simp only [Loaded.initChip, if_pos hr]
    have hirq' : (l.initChip promiscuous a).1.module.irq = false := by
      rw [he]
      exact hirq
    rw [hirq', hirq, ha]
    refine ⟨rfl, ?_, ?_⟩
    · rw [he]
      exact hf
    · rw [he]
      rfl
  · have he : (l.initChip promiscuous a).1 =
        { l with firstTime := false, module.irq := l.module.irq || l.firstTime }.setReg
          (canInit82c200 promiscuous l.module.driver.node.canNodeid) := by
      simp only [Loaded.initChip, if_neg hr]
      rfl
    have hirq' : (l.initChip promiscuous a).1.module.irq = true := by
      rw [he]
      change (l.module.irq || l.firstTime) = true
      rw [h]
      cases l.module.irq <;> rfl
    have ha : (l.module.irq || !a.irqRefused) = true := by
      cases hirq : l.module.irq with
      | true => rfl
      | false =>
        rw [h, hirq] at hr
        simpa using hr
    rw [hirq', ha]
    refine ⟨rfl, ?_, ?_⟩
    · rw [he]
      rfl
    · rw [he]
      rfl

theorem Loaded.initChip_canNodeid (l : Loaded) (promiscuous : Bool) (a : ChipAnswer) :
    (l.initChip promiscuous a).1.module.driver.node.canNodeid = l.module.driver.node.canNodeid := by
  unfold Loaded.initChip
  split_ifs <;> rfl

theorem Loaded.initChip_ok {l : Loaded} (h : l.firstTime = !l.module.irq) (promiscuous : Bool)
    (a : ChipAnswer) : ChipOk (l.initChip promiscuous a).1 := by
  obtain ⟨-, hf, hreg⟩ := Loaded.initChip_spec h promiscuous a
  refine ⟨hf, promiscuous, ?_⟩
  rw [Loaded.initChip_canNodeid]
  exact hreg

theorem LoadedStep.irq_iff {l l' : Loaded} {x : LoadedOp} (h : LoadedStep l x l')
    (hok : ChipOk l) : l'.module.irq = true ↔ l.module.irq = true ∨ Grants (l, x) := by
  obtain ⟨hm, -⟩ := h
  rename_i m
  unfold Loaded.after Grants
  cases hr : x.1.resets l.fds with
  | none => simpa using iff_of_eq (congrArg (· = true) hm.irq)
  | some promiscuous =>
    have hf : ({ l with module := m } : Loaded).firstTime = !m.irq := by
      rw [hm.irq]
      exact hok.firstTime
    have hs := (Loaded.initChip_spec hf promiscuous x.2).1
    simp only [hs, hm.irq, Bool.or_eq_true, Option.isSome_some, true_and, Bool.not_eq_true']

theorem LoadedStep.chipOk {l l' : Loaded} {x : LoadedOp} (h : LoadedStep l x l')
    (hok : ChipOk l) : ChipOk l' := by
  obtain ⟨hm, -⟩ := h
  rename_i m
  have hf : ({ l with module := m } : Loaded).firstTime = !m.irq := by
    rw [hm.irq]
    exact hok.firstTime
  unfold Loaded.after
  cases hr : x.1.resets l.fds with
  | none =>
    obtain ⟨promiscuous, hreg⟩ := hok.reg
    refine ⟨hf, promiscuous, ?_⟩
    have hid : m.driver.node.canNodeid = l.module.driver.node.canNodeid :=
      congrArg Pulse.canNodeid hm.pulse
    have hsame : m.driver.node.fds.reg = l.fds.reg := by
      have h := hm.reg
      rw [show x.1.resets l.module.driver.node.fds = none from hr] at h
      exact h
    change m.driver.node.fds.reg = _
    rw [hsame, hreg]
    change _ = { canInit82c200 promiscuous m.driver.node.canNodeid with
      control := if m.irq then 0x1e else 0x01 }
    rw [hid, hm.irq]
  | some promiscuous => exact Loaded.initChip_ok hf promiscuous x.2

/-- With the interrupt granted, a step is one of the module that is always
loaded whole. -/
theorem LoadedStep.module {l l' : Loaded} {x : LoadedOp} (h : LoadedStep l x l') (hok : ChipOk l)
    (hirq : l.module.irq = true) : ModuleStep l.module x.1 l'.module := by
  obtain ⟨hm, -⟩ := h
  rename_i m
  have hsame : (l.after x m).module = m := by
    unfold Loaded.after
    cases hr : x.1.resets l.fds with
    | none => rfl
    | some promiscuous =>
      have hreg := hm.reg
      rw [show x.1.resets l.module.driver.node.fds = some promiscuous from hr] at hreg
      have hid : m.driver.node.canNodeid = l.module.driver.node.canNodeid :=
        congrArg Pulse.canNodeid hm.pulse
      have hfirst : l.firstTime = false := by rw [hok.firstTime, hirq]; rfl
      have hmirq : m.irq = true := hm.irq.trans hirq
      rw [regAfter, ← hid] at hreg
      simp only [Loaded.initChip, hfirst, Bool.false_and, Bool.false_eq_true, if_false,
        Loaded.setReg, hmirq, Bool.true_or]
      rw [← hreg, ← hmirq]
  rw [hsame]
  exact hm

/-- What holds of the module after every run, with what has been granted. -/
theorem Run.loaded {l₀ l : Loaded} {tr : List (Loaded × LoadedOp)} (h₀ : ChipOk l₀)
    (h : Run LoadedStep l₀ tr l) :
    ChipOk l ∧ (l.module.irq = true ↔ l₀.module.irq = true ∨ ∃ x ∈ tr, Grants x) ∧
      (l.module.irq = false → ∀ x ∈ tr, x.2.1.isIntr = false) ∧
      (l₀.module.irq = true →
        Run ModuleStep l₀.module (tr.map fun x => (x.1.module, x.2.1)) l.module) := by
  induction h with
  | nil => exact ⟨h₀, by simp, fun _ x hx => absurd hx List.not_mem_nil, fun _ => .nil⟩
  | @snoc tr l l' x _ hst ih =>
    obtain ⟨hok, hirq, hquiet, hrun⟩ := ih
    have hgrant := hst.irq_iff hok
    refine ⟨hst.chipOk hok, ?_, fun hn y hy => ?_, fun hi => ?_⟩
    · rw [hgrant, hirq, or_assoc]
      refine or_congr_right ⟨?_, ?_⟩
      · rintro (⟨y, hy, hg⟩ | hg)
        · exact ⟨y, List.mem_append_left _ hy, hg⟩
        · exact ⟨(l, x), List.mem_append_right _ (List.mem_singleton_self _), hg⟩
      · rintro ⟨y, hy, hg⟩
        rcases List.mem_append.mp hy with hy | hy
        · exact .inl ⟨y, hy, hg⟩
        · rw [List.mem_singleton.mp hy] at hg
          exact .inr hg
    · have hb : l.module.irq = false := by
        by_contra hc
        rw [hgrant.mpr (.inl (by simpa using hc))] at hn
        cases hn
      rcases List.mem_append.mp hy with hy | hy
      · exact hquiet hb y hy
      · rw [List.mem_singleton.mp hy]
        obtain ⟨-, hi⟩ := hst
        by_contra hc
        rw [hi (by simpa using hc)] at hb
        cases hb
    · rw [List.map_append]
      exact (hrun hi).snoc (hst.module hok (hirq.mpr (.inl hi)))

end MeikoCs2
