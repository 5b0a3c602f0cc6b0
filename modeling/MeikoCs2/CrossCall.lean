import Mathlib.Algebra.BigOperators.Fin
import MeikoCs2.Irq

/-! Cross calls: one processor has a function run on every processor. The call
is handed over in `ccall_info`, which all calls share, so that
`cross_call_lock` serializes them, and a soft interrupt of level 15 starts
`smp4m_cross_call_irq` on the others. The steps of all processors interleave,
and level 15 also interrupts a processor that waits for the lock. -/

namespace MeikoCs2

/-- What the processors were set up with at boot. -/
structure Smp where
  cpuPresentMap : BitVec 32
  smpNumCpus : Nat
  midXlate : Nat → Nat
  smpProcessorsReady : Bool

namespace Smp

def present (b : Smp) (i : Nat) : Bool := b.cpuPresentMap.getLsbD i

/-- The bits of `mask` in a call made by processor `me`. -/
def target (b : Smp) (me i : Nat) : Bool := (b.cpuPresentMap &&& ~~~(1#32 <<< me)).getLsbD i

theorem target_iff (b : Smp) (me i : Nat) :
    b.target me i = true ↔ b.present i = true ∧ i ≠ me := by
  simp only [target, present, BitVec.getLsbD_and, BitVec.getLsbD_not, BitVec.getLsbD_shiftLeft,
    BitVec.getLsbD_one, Bool.and_eq_true, Bool.not_eq_true', decide_eq_true_eq]
  constructor
  · rintro ⟨hp, hlt, hm⟩
    refine ⟨hp, ?_⟩
    rintro rfl
    simp [hlt] at hm
  · rintro ⟨hp, hne⟩
    have hlt : i < 32 := BitVec.lt_of_getLsbD hp
    refine ⟨hp, hlt, ?_⟩
    by_cases hi : i < me
    · simp [hi]
    · have : i - me ≠ 0 := by omega
      simp [hi, this]

end Smp

/-- A function to call and its arguments `arg1` to `arg5`. -/
structure Funcall (φ : Type) where
  func : φ
  arg : Fin 5 → BitVec 32

/-- The store of one field: `func`, then the arguments one after the other. -/
def Funcall.store {φ : Type} (k : Nat) (f info : Funcall φ) : Funcall φ :=
  match k with
  | 0 => { info with func := f.func }
  | k + 1 => { info with arg := fun i => if i.val = k then f.arg i else info.arg i }

/-- Where a processor is in `smp4m_cross_call`. The loops carry their index. -/
inductive CallPc (φ : Type) where
  | idle
  | lock (f : Funcall φ)
  | store (f : Funcall φ) (k : Nat)
  | send (f : Funcall φ) (i : Nat)
  | zeroOut (f : Funcall φ) (i : Nat)
  | fire (f : Funcall φ) (i : Nat)
  | setOut (f : Funcall φ) (i : Nat)
  | runLocal (f : Funcall φ)
  | waitIn (f : Funcall φ) (i : Nat)
  | waitOut (f : Funcall φ) (i : Nat)
  | unlock (f : Funcall φ)

/-- Where a processor is in `smp4m_cross_call_irq`. -/
inductive IrqPc where
  | setIn
  | run
  | setOut

inductive CallEvent (φ : Type) where
  | locked (cpu : Nat) (f : Funcall φ)
  | ran (cpu : Nat) (f : Funcall φ)
  | unlocked (cpu : Nat)

structure CrossCalls (φ : Type) where
  call : Nat → CallPc φ
  irq : Nat → Option IrqPc
  ccallInfo : Funcall φ
  processorsIn : Nat → Bool
  processorsOut : Nat → Bool
  crossCallLock : Option Nat
  pal : Dino1Intregs
  log : List (CallEvent φ)

inductive CallLabel (φ : Type) where
  | call (cpu : Nat) (f : Funcall φ)
  | caller (cpu : Nat)
  | trap (cpu : Nat)
  | handler (cpu : Nat)

abbrev irqCrossCall : Nat := 15

namespace CrossCalls

variable {φ : Type}

def callerStep (b : Smp) (c : Nat) (s : CrossCalls φ) : Option (CrossCalls φ) :=
  let goto (s : CrossCalls φ) (pc : CallPc φ) := { s with call := Function.update s.call c pc }
  match s.call c with
  | .idle => none
  | .lock f =>
    if s.crossCallLock.isNone then
      some (goto { s with crossCallLock := some c, log := s.log ++ [.locked c f] } (.store f 0))
    else none
  | .store f k =>
    some (goto { s with ccallInfo := f.store k s.ccallInfo }
      (if k + 1 < 6 then .store f (k + 1) else .send f 0))
  | .send f i =>
    if i < b.smpNumCpus then
      if b.target c i then
        some (goto { s with processorsIn := Function.update s.processorsIn i false } (.zeroOut f i))
      else
        some (goto { s with processorsIn := Function.update s.processorsIn i true } (.setOut f i))
    else some (goto s (.runLocal f))
  | .zeroOut f i =>
    some (goto { s with processorsOut := Function.update s.processorsOut i false } (.fire f i))
  | .fire f i =>
    (dino1SendIpi (b.midXlate i) irqCrossCall s.pal).map fun r =>
      goto { s with pal := r } (.send f (i + 1))
  | .setOut f i =>
    some (goto { s with processorsOut := Function.update s.processorsOut i true }
      (.send f (i + 1)))
  | .runLocal f => some (goto { s with log := s.log ++ [.ran c f] } (.waitIn f 0))
  | .waitIn f i =>
    if s.processorsIn i then
      some (goto s (if i + 1 < b.smpNumCpus then .waitIn f (i + 1) else .waitOut f 0))
    else none
  | .waitOut f i =>
    if s.processorsOut i then
      some (goto s (if i + 1 < b.smpNumCpus then .waitOut f (i + 1) else .unlock f))
    else none
  | .unlock _ =>
    some (goto { s with crossCallLock := none, log := s.log ++ [.unlocked c] } .idle)

def handlerStep (c : Nat) (s : CrossCalls φ) : Option (CrossCalls φ) :=
  match s.irq c with
  | none => none
  | some .setIn =>
    some { s with
      processorsIn := Function.update s.processorsIn c true
      irq := Function.update s.irq c (some .run) }
  | some .run =>
    some { s with
      log := s.log ++ [.ran c s.ccallInfo]
      irq := Function.update s.irq c (some .setOut) }
  | some .setOut =>
    some { s with
      processorsOut := Function.update s.processorsOut c true
      irq := Function.update s.irq c none }

/-- Whether level 15 is pending at processor `c`. -/
def pending (b : Smp) (s : CrossCalls φ) (c : Nat) : Bool :=
  (s.pal (b.midXlate c)).pend.getLsbD irqCrossCall

/-- The trap clears the soft interrupt before it calls the handler. A processor
goes on with its call when it has left the handler. -/
def step (b : Smp) (s : CrossCalls φ) : CallLabel φ → Option (CrossCalls φ)
  | .call c f =>
    match s.call c with
    | .idle =>
      if b.present c then
        if b.smpProcessorsReady then some { s with call := Function.update s.call c (.lock f) }
        else some { s with log := s.log ++ [.ran c f] }
      else none
    | _ => none
  | .caller c => if (s.irq c).isNone then s.callerStep b c else none
  | .trap c =>
    if b.present c && (s.irq c).isNone && s.pending b c then
      let p := s.pal (b.midXlate c)
      some { s with
        pal := Function.update s.pal (b.midXlate c) (p.writePend (irqToMask irqCrossCall))
        irq := Function.update s.irq c (some .setIn) }
    else none
  | .handler c => s.handlerStep c

abbrev Step (b : Smp) (s : CrossCalls φ) (l : CallLabel φ) (u : CrossCalls φ) : Prop :=
  s.step b l = some u

def start (r : Dino1Intregs) (info : Funcall φ) : CrossCalls φ where
  call := fun _ => .idle
  irq := fun _ => none
  ccallInfo := info
  processorsIn := fun _ => false
  processorsOut := fun _ => false
  crossCallLock := none
  pal := r
  log := []

end CrossCalls

/-- The processors that a call made by `c` is to run on. -/
def Smp.Callee (b : Smp) (c d : Nat) : Prop :=
  d = c ∨ b.target c d = true ∧ d < b.smpNumCpus

/-- How the processors are set up that the code relies on: there is one at
least, and every one has a PAL of its own. -/
structure Smp.Wired (b : Smp) : Prop where
  pos : 0 < b.smpNumCpus
  inj : ∀ i j, b.present i = true → b.present j = true → b.midXlate i = b.midXlate j → i = j

/-- The call that holds the lock, and the processors it has run on. -/
structure Holder (φ : Type) where
  cpu : Nat
  f : Funcall φ
  ran : List Nat

/-- A log made of one call after the other. Under the lock the function of the
call runs once on each of its processors and nothing else runs. -/
inductive Serial {φ : Type} (b : Smp) : List (CallEvent φ) → Option (Holder φ) → Prop where
  | nil : Serial b [] none
  | locked {l : List (CallEvent φ)} (c : Nat) (f : Funcall φ) :
      Serial b l none → b.present c = true → Serial b (l ++ [.locked c f]) (some ⟨c, f, []⟩)
  | ran {l : List (CallEvent φ)} {h : Holder φ} (d : Nat) :
      Serial b l (some h) → b.Callee h.cpu d → d ∉ h.ran →
      Serial b (l ++ [.ran d h.f]) (some { h with ran := d :: h.ran })
  | unlocked {l : List (CallEvent φ)} {h : Holder φ} :
      Serial b l (some h) → (∀ d, b.Callee h.cpu d → d ∈ h.ran) →
      Serial b (l ++ [.unlocked h.cpu]) none

end MeikoCs2
