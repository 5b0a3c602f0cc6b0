import Mathlib.Tactic.Common
import Mathlib.Algebra.Order.Ring.Int
import MeikoCs2.Runs

/-! The interrupt PALs, one for each processor. A processor and the handlers
that interrupt it write to its own PAL, and any processor writes to the soft
interrupts of another. No register is read before it is written: one write
sets bits and another clears them. -/

namespace MeikoCs2

structure Dino1IntregsPercpu where
  ctrLatch : BitVec 16
  mask : BitVec 16
  pend : BitVec 16

abbrev Dino1Intregs := Nat → Dino1IntregsPercpu

def irqToMask (irq : Nat) : BitVec 16 := (1#32 <<< irq).setWidth 16

abbrev dino1IntLatch10 : BitVec 16 := irqToMask 8

abbrev dino1IntLatch14 : BitVec 16 := irqToMask 15

namespace Dino1IntregsPercpu

def writeMask (v : BitVec 16) (p : Dino1IntregsPercpu) : Dino1IntregsPercpu :=
  { p with mask := p.mask &&& ~~~v }

def writeMset (v : BitVec 16) (p : Dino1IntregsPercpu) : Dino1IntregsPercpu :=
  { p with mask := p.mask ||| v }

def writePend (v : BitVec 16) (p : Dino1IntregsPercpu) : Dino1IntregsPercpu :=
  { p with pend := p.pend &&& ~~~v }

def writeSetPend (v : BitVec 16) (p : Dino1IntregsPercpu) : Dino1IntregsPercpu :=
  { p with pend := p.pend ||| v }

def writeCtrLatch (v : BitVec 16) (p : Dino1IntregsPercpu) : Dino1IntregsPercpu :=
  { p with ctrLatch := p.ctrLatch &&& ~~~v }

end Dino1IntregsPercpu

open Dino1IntregsPercpu

/-- The lines that may not be enabled or disabled. -/
def irqAssert (irqNr : Nat) : Bool :=
  irqNr != 0 && irqNr != 4 && irqNr != 6 && irqNr != 11 && irqNr != 13

def ipiAssert (level : Nat) : Bool :=
  level == 1 || level == 4 || level == 6 || level == 12 || level == 13 || level == 15

/-- A write to the PAL of one processor; none where an `ASSERT` panics. -/
def palWrite (ok : Bool) (cpu : Nat) (f : Dino1IntregsPercpu → Dino1IntregsPercpu)
    (r : Dino1Intregs) : Option Dino1Intregs :=
  if (cpu == 0 || cpu == 1) && ok then some (Function.update r cpu (f (r cpu))) else none

def dino1DisableIrq (cpu irqNr : Nat) : Dino1Intregs → Option Dino1Intregs :=
  palWrite (irqAssert irqNr) cpu (writeMask (irqToMask irqNr))

def dino1EnableIrq (cpu irqNr : Nat) : Dino1Intregs → Option Dino1Intregs :=
  palWrite (irqAssert irqNr) cpu (writeMset (irqToMask irqNr))

def dino1DisablePilIrq (cpu pil : Nat) : Dino1Intregs → Option Dino1Intregs :=
  palWrite (irqAssert pil) cpu (writeMask (irqToMask pil))

def dino1EnablePilIrq (cpu pil : Nat) : Dino1Intregs → Option Dino1Intregs :=
  palWrite (irqAssert pil) cpu (writeMset (irqToMask pil))

def dino1SendIpi (cpu level : Nat) : Dino1Intregs → Option Dino1Intregs :=
  palWrite (ipiAssert level) cpu (writeSetPend (irqToMask level))

def dino1ClearIpi (cpu level : Nat) : Dino1Intregs → Option Dino1Intregs :=
  palWrite (ipiAssert level) cpu (writePend (irqToMask level))

def dino1ClearClockIrq (cpu : Nat) : Dino1Intregs → Option Dino1Intregs :=
  palWrite true cpu (writeCtrLatch dino1IntLatch10)

def dino1ClearProfileIrq (cpu : Nat) : Dino1Intregs → Option Dino1Intregs :=
  palWrite true cpu (writeCtrLatch dino1IntLatch14)

def dino1InitIRQ : Nat → Dino1Intregs → Dino1Intregs
  | 0, r => r
  | cpu + 1, r =>
    let r' := dino1InitIRQ cpu r
    Function.update r' cpu ((r' cpu).writeMask 0xfffe |>.writePend 0xfffe)

inductive PalOp where
  | enableIrq (cpu irqNr : Nat)
  | disableIrq (cpu irqNr : Nat)
  | enablePilIrq (cpu pil : Nat)
  | disablePilIrq (cpu pil : Nat)
  | sendIpi (cpu level : Nat)
  | clearIpi (cpu level : Nat)
  | clearClockIrq (cpu : Nat)
  | clearProfileIrq (cpu : Nat)

def PalOp.exec (r : Dino1Intregs) : PalOp → Option Dino1Intregs
  | .enableIrq cpu irqNr => dino1EnableIrq cpu irqNr r
  | .disableIrq cpu irqNr => dino1DisableIrq cpu irqNr r
  | .enablePilIrq cpu pil => dino1EnablePilIrq cpu pil r
  | .disablePilIrq cpu pil => dino1DisablePilIrq cpu pil r
  | .sendIpi cpu level => dino1SendIpi cpu level r
  | .clearIpi cpu level => dino1ClearIpi cpu level r
  | .clearClockIrq cpu => dino1ClearClockIrq cpu r
  | .clearProfileIrq cpu => dino1ClearProfileIrq cpu r

/-- Whether the operation enables or disables line `k` of processor `cpu`. -/
def PalOp.line (cpu k : Nat) : PalOp → Option Bool
  | .enableIrq c i => if c = cpu ∧ i = k then some true else none
  | .enablePilIrq c i => if c = cpu ∧ i = k then some true else none
  | .disableIrq c i => if c = cpu ∧ i = k then some false else none
  | .disablePilIrq c i => if c = cpu ∧ i = k then some false else none
  | _ => none

def PalOp.soft (cpu k : Nat) : PalOp → Option Bool
  | .sendIpi c i => if c = cpu ∧ i = k then some true else none
  | .clearIpi c i => if c = cpu ∧ i = k then some false else none
  | _ => none

/-- What the last of the operations that say something says. -/
def lastSaid (said : PalOp → Option Bool) (ops : List PalOp) : Bool :=
  (ops.filterMap said).getLast?.getD false

theorem lastSaid_concat (said : PalOp → Option Bool) (ops : List PalOp) (op : PalOp) :
    lastSaid said (ops ++ [op]) = (said op).getD (lastSaid said ops) := by
  cases h : said op with
  | none => simp [lastSaid, h]
  | some b => simp [lastSaid, h]

theorem getLsbD_irqToMask {k : Nat} (hk : k < 16) (irq : Nat) :
    (irqToMask irq).getLsbD k = decide (irq = k) := by
  simp only [irqToMask, BitVec.getLsbD_setWidth, BitVec.getLsbD_shiftLeft, BitVec.getLsbD_one]
  by_cases h : irq = k
  · subst h
    simp [hk]
    omega
  · by_cases hlt : k < irq
    · simp [h, hlt]
    · have hne : k - irq ≠ 0 := by omega
      simp [h, hne]

theorem getLsbD_and_not {k : Nat} (hk : k < 16) (r v : BitVec 16) :
    (r &&& ~~~v).getLsbD k = (r.getLsbD k && !v.getLsbD k) := by
  simp only [BitVec.getLsbD_and, BitVec.getLsbD_not, hk, decide_true, Bool.true_and]

theorem getLsbD_or_irqToMask {k : Nat} (hk : k < 16) (r : BitVec 16) (irq : Nat) :
    (r ||| irqToMask irq).getLsbD k = if irq = k then true else r.getLsbD k := by
  rw [BitVec.getLsbD_or, getLsbD_irqToMask hk]
  by_cases h : irq = k <;> simp [h]

theorem getLsbD_and_not_irqToMask {k : Nat} (hk : k < 16) (r : BitVec 16) (irq : Nat) :
    (r &&& ~~~irqToMask irq).getLsbD k = if irq = k then false else r.getLsbD k := by
  rw [getLsbD_and_not hk, getLsbD_irqToMask hk]
  by_cases h : irq = k <;> simp [h]

theorem palWrite_eq_some {ok : Bool} {cpu : Nat} {f : Dino1IntregsPercpu → Dino1IntregsPercpu}
    {r r' : Dino1Intregs} (h : palWrite ok cpu f r = some r') :
    cpu < 2 ∧ ok = true ∧ r' = Function.update r cpu (f (r cpu)) := by
  simp only [palWrite] at h
  split_ifs at h with hc
  simp only [Bool.and_eq_true, Bool.or_eq_true, beq_iff_eq] at hc
  exact ⟨by omega, hc.2, (Option.some.inj h).symm⟩

theorem dino1InitIRQ_apply (n : Nat) (r : Dino1Intregs) (cpu : Nat) :
    dino1InitIRQ n r cpu =
      if cpu < n then ((r cpu).writeMask 0xfffe).writePend 0xfffe else r cpu := by
  induction n with
  | zero => simp [dino1InitIRQ]
  | succ n ih =>
    by_cases h : cpu = n
    · subst h
      simp [dino1InitIRQ, ih]
    · have hlt : cpu < n + 1 ↔ cpu < n := by omega
      simp only [dino1InitIRQ, Function.update_of_ne h, ih, hlt]

/-- The bits of one processor's PAL, as the operations so far left them. -/
structure Reflects (ops : List PalOp) (cpu : Nat) (p : Dino1IntregsPercpu) : Prop where
  mask : ∀ k, 1 ≤ k → k < 16 → p.mask.getLsbD k = lastSaid (PalOp.line cpu k) ops
  pend : ∀ k, 1 ≤ k → k < 16 → p.pend.getLsbD k = lastSaid (PalOp.soft cpu k) ops
  irqs : ∀ k, lastSaid (PalOp.line cpu k) ops = true → irqAssert k = true
  ipis : ∀ k, lastSaid (PalOp.soft cpu k) ops = true → ipiAssert k = true

theorem reflects_init {n cpu : Nat} (h : cpu < n) (r : Dino1Intregs) :
    Reflects [] cpu (dino1InitIRQ n r cpu) := by
  have hbit : ∀ k, 1 ≤ k → k < 16 → (0xfffe#16).getLsbD k = true := by decide
  rw [dino1InitIRQ_apply, if_pos h]
  constructor
  · intro k h1 hk
    show ((r cpu).mask &&& ~~~0xfffe#16).getLsbD k = false
    rw [getLsbD_and_not hk, hbit k h1 hk, Bool.not_true, Bool.and_false]
  · intro k h1 hk
    show ((r cpu).pend &&& ~~~0xfffe#16).getLsbD k = false
    rw [getLsbD_and_not hk, hbit k h1 hk, Bool.not_true, Bool.and_false]
  · intro k hl
    cases hl
  · intro k hl
    cases hl

theorem Reflects.concat {ops : List PalOp} {cpu : Nat} {p q : Dino1IntregsPercpu}
    (h : Reflects ops cpu p) {op : PalOp}
    (hm : ∀ k, 1 ≤ k → k < 16 → q.mask.getLsbD k = (op.line cpu k).getD (p.mask.getLsbD k))
    (hp : ∀ k, 1 ≤ k → k < 16 → q.pend.getLsbD k = (op.soft cpu k).getD (p.pend.getLsbD k))
    (hi : ∀ k, op.line cpu k = some true → irqAssert k = true)
    (hs : ∀ k, op.soft cpu k = some true → ipiAssert k = true) :
    Reflects (ops ++ [op]) cpu q := by
  constructor
  · intro k h1 hk
    rw [hm k h1 hk, h.mask k h1 hk, lastSaid_concat]
  · intro k h1 hk
    rw [hp k h1 hk, h.pend k h1 hk, lastSaid_concat]
  · intro k hl
    rw [lastSaid_concat] at hl
    cases ho : op.line cpu k with
    | none =>
      rw [ho] at hl
      exact h.irqs k hl
    | some b =>
      rw [ho] at hl
      exact hi k (ho.trans (congrArg some hl))
  · intro k hl
    rw [lastSaid_concat] at hl
    cases ho : op.soft cpu k with
    | none =>
      rw [ho] at hl
      exact h.ipis k hl
    | some b =>
      rw [ho] at hl
      exact hs k (ho.trans (congrArg some hl))

theorem update_apply_eq {β : Type} (r : Nat → β) (c cpu : Nat) (v : β) (g : β → β)
    (h : v = g (r c)) : Function.update r c v cpu = if c = cpu then g (r cpu) else r cpu := by
  by_cases hc : c = cpu
  · subst hc
    rw [if_pos rfl, Function.update_self, h]
  · rw [if_neg hc, Function.update_of_ne (Ne.symm hc)]

theorem Reflects.exec {ops : List PalOp} {cpu : Nat} {r r' : Dino1Intregs} {op : PalOp}
    (h : Reflects ops cpu (r cpu)) (he : op.exec r = some r') :
    Reflects (ops ++ [op]) cpu (r' cpu) := by
  cases op with
  | enableIrq c i | enablePilIrq c i =>
    obtain ⟨-, hok, rfl⟩ := palWrite_eq_some he
    rw [update_apply_eq r c cpu _ _ rfl]
    refine h.concat (fun k _ hk => ?_) (fun k _ hk => ?_) (fun k hl => ?_) fun k hl => ?_
    · by_cases hc : c = cpu
      · rw [if_pos hc, writeMset, getLsbD_or_irqToMask hk]
        by_cases hi : i = k <;> simp [PalOp.line, hc, hi]
      · simp [PalOp.line, hc]
    · by_cases hc : c = cpu <;> simp [PalOp.soft, hc, writeMset]
    · obtain ⟨-, rfl⟩ : c = cpu ∧ i = k := by simpa [PalOp.line] using hl
      exact hok
    · cases hl
  | disableIrq c i | disablePilIrq c i =>
    obtain ⟨-, hok, rfl⟩ := palWrite_eq_some he
    rw [update_apply_eq r c cpu _ _ rfl]
    refine h.concat (fun k _ hk => ?_) (fun k _ hk => ?_) (fun k hl => ?_) fun k hl => ?_
    · by_cases hc : c = cpu
      · rw [if_pos hc, writeMask, getLsbD_and_not_irqToMask hk]
        by_cases hi : i = k <;> simp [PalOp.line, hc, hi]
      · simp [PalOp.line, hc]
    · by_cases hc : c = cpu <;> simp [PalOp.soft, hc, writeMask]
    · simp [PalOp.line] at hl
    · cases hl
  | sendIpi c i =>
    obtain ⟨-, hok, rfl⟩ := palWrite_eq_some he
    rw [update_apply_eq r c cpu _ _ rfl]
    refine h.concat (fun k _ hk => ?_) (fun k _ hk => ?_) (fun k hl => ?_) fun k hl => ?_
    · by_cases hc : c = cpu <;> simp [PalOp.line, hc, writeSetPend]
    · by_cases hc : c = cpu
      · rw [if_pos hc, writeSetPend, getLsbD_or_irqToMask hk]
        by_cases hi : i = k <;> simp [PalOp.soft, hc, hi]
      · simp [PalOp.soft, hc]
    · cases hl
    · obtain ⟨-, rfl⟩ : c = cpu ∧ i = k := by simpa [PalOp.soft] using hl
      exact hok
  | clearIpi c i =>
    obtain ⟨-, hok, rfl⟩ := palWrite_eq_some he
    rw [update_apply_eq r c cpu _ _ rfl]
    refine h.concat (fun k _ hk => ?_) (fun k _ hk => ?_) (fun k hl => ?_) fun k hl => ?_
    · by_cases hc : c = cpu <;> simp [PalOp.line, hc, writePend]
    · by_cases hc : c = cpu
      · rw [if_pos hc, writePend, getLsbD_and_not_irqToMask hk]
        by_cases hi : i = k <;> simp [PalOp.soft, hc, hi]
      · simp [PalOp.soft, hc]
    · cases hl
    · simp [PalOp.soft] at hl
  | clearClockIrq c | clearProfileIrq c =>
    obtain ⟨-, -, rfl⟩ := palWrite_eq_some he
    rw [update_apply_eq r c cpu _ _ rfl]
    refine h.concat (fun k _ hk => ?_) (fun k _ hk => ?_) (fun k hl => ?_) fun k hl => ?_
    · by_cases hc : c = cpu <;> simp [PalOp.line, hc, writeCtrLatch]
    · by_cases hc : c = cpu <;> simp [PalOp.soft, hc, writeCtrLatch]
    · cases hl
    · cases hl

/-- The lines enabled and the soft interrupts pending are those of the last
writes, in whatever order the processors and their handlers write. -/
theorem pals_reflect {n : Nat} {r r' : Dino1Intregs} {tr : List (Dino1Intregs × PalOp)}
    (h : Run (fun r op u => PalOp.exec r op = some u) (dino1InitIRQ n r) tr r') {cpu : Nat}
    (hc : cpu < n) : Reflects (tr.map Prod.snd) cpu (r' cpu) := by
  induction h with
  | nil => exact reflects_init hc r
  | snoc _ hst ih =>
    rw [List.map_append]
    exact ih.exec hst

def quietPals : Dino1Intregs := fun _ => ⟨0, 0, 0⟩

theorem pals_reflect_two : ∃ tr r', Run (fun r op u => PalOp.exec r op = some u)
    (dino1InitIRQ 2 quietPals) tr r' ∧
    tr.map Prod.snd = [.enableIrq 0 5, .enableIrq 1 5, .disableIrq 0 5, .sendIpi 1 15] ∧
    Reflects (tr.map Prod.snd) 0 (r' 0) ∧ Reflects (tr.map Prod.snd) 1 (r' 1) := by
  obtain ⟨tr, r', h, hl, -, -⟩ := exists_run_of_any
    (f := fun r op => PalOp.exec r op) (s := dino1InitIRQ 2 quietPals) (fun _ _ => true)
    [.enableIrq 0 5, .enableIrq 1 5, .disableIrq 0 5, .sendIpi 1 15] (fun _ => true) (by decide)
  exact ⟨tr, r', h, hl, pals_reflect h (by decide), pals_reflect h (by decide)⟩

end MeikoCs2
