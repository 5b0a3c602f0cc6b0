import Mathlib.Algebra.BigOperators.Intervals
import MeikoCs2.CrossCallSerial

/-! No cross call waits for ever. Whatever the processors are at, one of them
can go on, and the steps that remain are bounded: a fire sends the holder on
and gives the processor it interrupts four steps to do. -/

namespace MeikoCs2

def CallLabel.isCall {φ : Type} : CallLabel φ → Bool
  | .call _ _ => true
  | _ => false

namespace CrossCalls

open Dino1IntregsPercpu

variable {φ : Type} {b : Smp} {s u : CrossCalls φ}

/-- The steps that remain of a call, each of its fires counted as five. -/
def callRank (n : Nat) : CallPc φ → Nat
  | .idle => 0
  | .unlock _ => 1
  | .waitOut _ i => 2 + (n - i)
  | .waitIn _ i => 3 + n + (n - i)
  | .runLocal _ => 4 + 2 * n
  | .send _ i => 5 + 2 * n + 7 * (n - i)
  | .zeroOut _ i => 11 + 2 * n + 7 * (n - (i + 1))
  | .fire _ i => 10 + 2 * n + 7 * (n - (i + 1))
  | .setOut _ i => 11 + 2 * n + 7 * (n - (i + 1))
  | .store _ k => 6 + 9 * n + (6 - k)
  | .lock _ => 13 + 9 * n

def handlerRank : Option IrqPc → Nat
  | none => 0
  | some .setIn => 3
  | some .run => 2
  | some .setOut => 1

def trapRank (b : Smp) (s : CrossCalls φ) (d : Nat) : Nat :=
  if b.present d && s.pending b d then 4 else 0

def rank (b : Smp) (s : CrossCalls φ) : Nat :=
  (∑ d ∈ Finset.range 32, callRank b.smpNumCpus (s.call d)) +
    ∑ d ∈ Finset.range 32, (handlerRank (s.irq d) + trapRank b s d)

theorem sum_range_change {n c : Nat} (hc : c < n) {f g : Nat → Nat}
    (h : ∀ d, d ≠ c → f d = g d) :
    (∑ d ∈ Finset.range n, f d) + g c = (∑ d ∈ Finset.range n, g d) + f c := by
  have hm : c ∈ Finset.range n := Finset.mem_range.mpr hc
  have he : ∑ d ∈ (Finset.range n).erase c, f d = ∑ d ∈ (Finset.range n).erase c, g d :=
    Finset.sum_congr rfl fun d hd => h d (Finset.ne_of_mem_erase hd)
  rw [← Finset.add_sum_erase _ f hm, ← Finset.add_sum_erase _ g hm, he]
  omega

theorem present_lt {d : Nat} (h : b.present d = true) : d < 32 := BitVec.lt_of_getLsbD h

theorem trapRank_congr {d : Nat} (h : u.pending b d = s.pending b d) :
    trapRank b u d = trapRank b s d := by
  rw [trapRank, trapRank, h]

/-- A move of one processor in its call, which at most starts another. -/
theorem rank_lt_of_call {c : Nat} (hc : c < 32) (hcall : ∀ d, d ≠ c → u.call d = s.call d)
    (hirq : u.irq = s.irq) {x : Nat}
    (htrap : ∑ d ∈ Finset.range 32, (handlerRank (s.irq d) + trapRank b u d) ≤
      (∑ d ∈ Finset.range 32, (handlerRank (s.irq d) + trapRank b s d)) + x)
    (hlt : callRank b.smpNumCpus (u.call c) + x < callRank b.smpNumCpus (s.call c)) :
    rank b u < rank b s := by
  have hsum := sum_range_change hc (f := fun d => callRank b.smpNumCpus (u.call d))
    (g := fun d => callRank b.smpNumCpus (s.call d)) fun d hd => by rw [hcall d hd]
  simp only [rank, hirq]
  omega

theorem rank_lt_of_handler {c : Nat} (hc : c < 32) (hcall : u.call = s.call)
    (hirq : ∀ d, d ≠ c → u.irq d = s.irq d) (htrap : ∀ d, d ≠ c → trapRank b u d = trapRank b s d)
    (hlt : handlerRank (u.irq c) + trapRank b u c < handlerRank (s.irq c) + trapRank b s c) :
    rank b u < rank b s := by
  have hsum := sum_range_change hc (f := fun d => handlerRank (u.irq d) + trapRank b u d)
    (g := fun d => handlerRank (s.irq d) + trapRank b s d) fun d hd => by
      rw [hirq d hd, htrap d hd]
  simp only [rank, hcall]
  omega

/-- What a fire adds to the steps of the processor it interrupts. -/
theorem trapRank_fire {i : Nat} (hw : b.Wired) (hp : b.present i = true)
    (hpal : dino1SendIpi (b.midXlate i) irqCrossCall s.pal = some u.pal) :
    ∑ d ∈ Finset.range 32, (handlerRank (s.irq d) + trapRank b u d) ≤
      (∑ d ∈ Finset.range 32, (handlerRank (s.irq d) + trapRank b s d)) + 4 := by
  obtain ⟨-, -, hu⟩ := palWrite_eq_some hpal
  have hsum := sum_range_change (present_lt hp)
    (f := fun d => handlerRank (s.irq d) + trapRank b u d)
    (g := fun d => handlerRank (s.irq d) + trapRank b s d) fun d hd => by
      by_cases hpd : b.present d = true
      · rw [trapRank_congr (pending_update_ne hu fun he => hd (hw.inj d i hpd hp he))]
      · rw [trapRank, trapRank, Bool.eq_false_iff.mpr hpd, Bool.false_and, Bool.false_and]
  have hle : trapRank b u i ≤ 4 := by
    rw [trapRank]
    split_ifs <;> omega
  omega

theorem callerStep_rank {c : Nat} (hc32 : c < 32) (hw : b.Wired)
    (hplace : AtPc b s c (s.call c)) (hst : s.callerStep b c = some u) : rank b u < rank b s := by
  obtain ⟨pc, hirq, hcall⟩ := callerStep_frame hst
  have hoff : ∀ d, d ≠ c → u.call d = s.call d := fun d hd => by
    rw [hcall, Function.update_of_ne hd]
  have hstay : u.pal = s.pal → ∑ d ∈ Finset.range 32, (handlerRank (s.irq d) + trapRank b u d) ≤
      (∑ d ∈ Finset.range 32, (handlerRank (s.irq d) + trapRank b s d)) + 0 := by
    intro hpal
    rw [Nat.add_zero]
    refine Nat.le_of_eq (Finset.sum_congr rfl fun d _ => ?_)
    rw [trapRank_congr (pending_congr hpal)]
  simp only [callerStep] at hst
  cases hc : s.call c with
  | idle =>
    rw [hc] at hst
    cases hst
  | lock f =>
    simp only [hc] at hst
    split_ifs at hst
    cases hst
    refine rank_lt_of_call hc32 hoff hirq (hstay rfl) ?_
    simp only [Function.update_self, hc, callRank]
    omega
  | store f k =>
    rw [hc] at hst hplace
    cases hst
    have hk : k < 6 := hplace
    refine rank_lt_of_call hc32 hoff hirq (hstay rfl) ?_
    by_cases hk' : k + 1 < 6
    · simp only [Function.update_self, hc, if_pos hk', callRank]
      omega
    · simp only [Function.update_self, hc, if_neg hk', callRank]
      omega
  | send f i =>
    simp only [hc] at hst
    split_ifs at hst with hlt ht
    · cases hst
      refine rank_lt_of_call hc32 hoff hirq (hstay rfl) ?_
      simp only [Function.update_self, hc, callRank]
      omega
    · cases hst
      refine rank_lt_of_call hc32 hoff hirq (hstay rfl) ?_
      simp only [Function.update_self, hc, callRank]
      omega
    · cases hst
      refine rank_lt_of_call hc32 hoff hirq (hstay rfl) ?_
      simp only [Function.update_self, hc, callRank]
      omega
  | zeroOut f i | setOut f i =>
    rw [hc] at hst hplace
    cases hst
    have hlt := hplace.1
    refine rank_lt_of_call hc32 hoff hirq (hstay rfl) ?_
    simp only [Function.update_self, hc, callRank]
    omega
  | fire f i =>
    rw [hc] at hplace
    simp only [hc, Option.map_eq_some_iff] at hst
    obtain ⟨r, hr, rfl⟩ := hst
    have hp := ((b.target_iff _ _).mp hplace.2.1).1
    have hlt := hplace.1
    refine rank_lt_of_call hc32 hoff hirq (trapRank_fire hw hp hr) ?_
    simp only [Function.update_self, hc, callRank]
    omega
  | runLocal f | unlock f =>
    rw [hc] at hst
    cases hst
    refine rank_lt_of_call hc32 hoff hirq (hstay rfl) ?_
    simp only [Function.update_self, hc, callRank]
    omega
  | waitIn f i | waitOut f i =>
    simp only [hc] at hst
    split_ifs at hst with hm hlt
    · cases hst
      refine rank_lt_of_call hc32 hoff hirq (hstay rfl) ?_
      simp only [Function.update_self, hc, callRank]
      omega
    · cases hst
      refine rank_lt_of_call hc32 hoff hirq (hstay rfl) ?_
      simp only [Function.update_self, hc, callRank]
      omega

theorem Inv.place {o : Option (Holder φ)} (hi : Inv b s o) (c : Nat) : AtPc b s c (s.call c) := by
  cases hh : (s.call c).held with
  | some f =>
    obtain ⟨h, -, rfl, -, ha⟩ := hi.held.active hh
    exact ha.place
  | none =>
    cases hc : s.call c with
    | idle | lock => trivial
    | store | send | zeroOut | fire | setOut | runLocal | waitIn | waitOut | unlock =>
      rw [hc] at hh
      cases hh

theorem Inv.rank_lt {o : Option (Holder φ)} {l : CallLabel φ} (hw : b.Wired) (hi : Inv b s o)
    (hl : l.isCall = false) (hst : Step b s l u) : rank b u < rank b s := by
  cases l with
  | call c f => cases hl
  | caller c =>
    simp only [Step, CrossCalls.step] at hst
    split_ifs at hst
    have hp : b.present c = true := by
      by_contra hn
      rw [callerStep, (hi.away c (Bool.eq_false_iff.mpr hn)).2] at hst
      cases hst
    exact callerStep_rank (present_lt hp) hw (hi.place c) hst
  | trap d =>
    simp only [Step, CrossCalls.step, Bool.and_eq_true, Option.isNone_iff_eq_none] at hst
    split_ifs at hst with hd
    obtain ⟨⟨hp, hirq⟩, hpend⟩ := hd
    cases hst
    refine rank_lt_of_handler (present_lt hp) rfl (fun e he => Function.update_of_ne he _ _) ?_ ?_
    · intro e he
      by_cases hpe : b.present e = true
      · exact trapRank_congr (pending_update_ne rfl fun hm => he (hw.inj e d hpe hp hm))
      · rw [trapRank, trapRank, Bool.eq_false_iff.mpr hpe, Bool.false_and, Bool.false_and]
    · have hs : trapRank b s d = 4 := by rw [trapRank, hp, hpend]; rfl
      simp only [Function.update_self, hirq, hs, handlerRank]
      have hclear : trapRank b { s with
          pal := Function.update s.pal (b.midXlate d)
            ((s.pal (b.midXlate d)).writePend (irqToMask irqCrossCall))
          irq := Function.update s.irq d (some .setIn) } d = 0 := by
        rw [trapRank, if_neg]
        rw [Bool.and_eq_true, not_and]
        intro _
        show ¬ (Function.update s.pal (b.midXlate d) _ (b.midXlate d)).pend.getLsbD 15 = true
        rw [Function.update_self, writePend, getLsbD_and_not_irqToMask (by decide), if_pos rfl]
        exact Bool.false_ne_true
      omega
  | handler d =>
    have hst' : s.handlerStep d = some u := hst
    have hp : b.present d = true := by
      by_contra hn
      rw [handlerStep, (hi.away d (Bool.eq_false_iff.mpr hn)).1] at hst'
      cases hst'
    simp only [handlerStep] at hst'
    cases hc : s.irq d with
    | none =>
      rw [hc] at hst'
      cases hst'
    | some x =>
      cases x with
      | setIn | run | setOut =>
        rw [hc] at hst'
        cases hst'
        refine rank_lt_of_handler (present_lt hp) rfl (fun e he => Function.update_of_ne he _ _)
          (fun e _ => trapRank_congr rfl) ?_
        simp only [Function.update_self, hc, handlerRank]
        exact Nat.add_lt_add_of_lt_of_le (by decide) (Nat.le_refl _)

theorem exists_caller {c : Nat} (hirq : s.irq c = none) (h : s.callerStep b c ≠ none) :
    ∃ l u, l.isCall = false ∧ Step b s l u := by
  obtain ⟨u, hu⟩ := Option.ne_none_iff_exists'.mp h
  refine ⟨.caller c, u, rfl, ?_⟩
  simp only [Step, step, hirq, Option.isNone_none, if_true]
  exact hu

/-- A processor that has not set its second mark has a trap or its handler
before it. -/
theorem Served.exists_step {d : Nat} {r : Bool} (hv : Served b s d r) (hp : b.present d = true)
    (hout : s.processorsOut d = false) : ∃ l u, l.isCall = false ∧ Step b s l u := by
  cases hv with
  | sent h₁ h₂ _ _ =>
    have hst : s.step b (.trap d) ≠ none := by
      simp only [step, hp, h₁, h₂, Option.isNone_none, Bool.and_self, if_true]
      exact Option.some_ne_none _
    obtain ⟨u, hu⟩ := Option.ne_none_iff_exists'.mp hst
    exact ⟨.trap d, u, rfl, hu⟩
  | entered h₁ _ _ _ | inside h₁ _ _ _ | ran h₁ _ _ _ =>
    have hst : s.step b (.handler d) ≠ none := by
      simp only [step, handlerStep, h₁]
      exact Option.some_ne_none _
    obtain ⟨u, hu⟩ := Option.ne_none_iff_exists'.mp hst
    exact ⟨.handler d, u, rfl, hu⟩
  | done _ _ _ h₄ =>
    rw [h₄] at hout
    cases hout

theorem Served.out_of_in {d : Nat} {r : Bool} (hv : Served b s d r)
    (hin : s.processorsIn d = false) : s.processorsOut d = false := by
  cases hv with
  | sent _ _ _ h₄ | entered _ _ _ h₄ | inside _ _ _ h₄ | ran _ _ _ h₄ => exact h₄
  | done _ _ h₃ _ =>
    rw [h₃] at hin
    cases hin

/-- The holder goes on, or a processor that it waits for does. -/
theorem Active.exists_step {h : Holder φ} (hm : ∀ i, b.present i = true → b.midXlate i < 2)
    (ha : Active b s h) : ∃ l u, l.isCall = false ∧ Step b s l u := by
  have hirq : s.irq h.cpu = none :=
    (ha.quiet h.cpu ha.here fun hn => by rw [target_self] at hn; cases hn.1).1.irq
  have hheld := ha.held
  have hplace := ha.place
  cases hc : s.call h.cpu with
  | idle | lock =>
    rw [hc] at hheld
    cases hheld
  | store f k | zeroOut f i | setOut f i | runLocal f | unlock f =>
    refine exists_caller hirq ?_
    simp only [callerStep, hc]
    exact Option.some_ne_none _
  | send f i =>
    refine exists_caller hirq ?_
    simp only [callerStep, hc]
    split_ifs <;> exact Option.some_ne_none _
  | fire f i =>
    rw [hc] at hplace
    have hlt := hm i ((b.target_iff _ _).mp hplace.2.1).1
    have hsend : dino1SendIpi (b.midXlate i) irqCrossCall s.pal ≠ none := by
      have hok : ((b.midXlate i == 0 || b.midXlate i == 1) && ipiAssert irqCrossCall) = true := by
        simp only [Bool.and_eq_true, Bool.or_eq_true, beq_iff_eq]
        exact ⟨by omega, by decide⟩
      rw [dino1SendIpi, palWrite, if_pos hok]
      exact Option.some_ne_none _
    refine exists_caller hirq ?_
    simp only [callerStep, hc]
    intro hn
    exact hsend (Option.map_eq_none_iff.mp hn)
  | waitIn f i =>
    have hs : (s.call h.cpu).sent b.smpNumCpus = b.smpNumCpus := by rw [hc]; rfl
    rw [hc] at hplace
    have hlt : i < b.smpNumCpus := hplace
    by_cases hin : s.processorsIn i = true
    · refine exists_caller hirq ?_
      simp only [callerStep, hc, hin, if_true]
      exact Option.some_ne_none _
    · have hin' := Bool.eq_false_iff.mpr hin
      have ht : b.target h.cpu i = true := by
        by_contra hn
        exact hin (ha.marks i (by rwa [hs]) (Bool.eq_false_iff.mpr hn)).1
      obtain ⟨r, hv, -⟩ := ha.served i ht (by rwa [hs])
      exact hv.exists_step ((b.target_iff _ _).mp ht).1 (hv.out_of_in hin')
  | waitOut f i =>
    have hs : (s.call h.cpu).sent b.smpNumCpus = b.smpNumCpus := by rw [hc]; rfl
    rw [hc] at hplace
    have hlt : i < b.smpNumCpus := hplace.1
    by_cases hout : s.processorsOut i = true
    · refine exists_caller hirq ?_
      simp only [callerStep, hc, hout, if_true]
      exact Option.some_ne_none _
    · have ht : b.target h.cpu i = true := by
        by_contra hn
        exact hout (ha.marks i (by rwa [hs]) (Bool.eq_false_iff.mpr hn)).2
      obtain ⟨r, hv, -⟩ := ha.served i ht (by rwa [hs])
      exact hv.exists_step ((b.target_iff _ _).mp ht).1 (Bool.eq_false_iff.mpr hout)

theorem Inv.exists_step {o : Option (Holder φ)} (hm : ∀ i, b.present i = true → b.midXlate i < 2)
    (hi : Inv b s o) {c : Nat} (hc : s.call c ≠ .idle) :
    ∃ l u, l.isCall = false ∧ Step b s l u := by
  cases o with
  | some h => exact Active.exists_step hm hi.held
  | none =>
    have hf : Free b s := hi.held
    have hp : b.present c = true := by
      by_contra hn
      exact hc (hi.away c (Bool.eq_false_iff.mpr hn)).2
    obtain ⟨f, hw⟩ := (hf.waiting c).resolve_left hc
    refine exists_caller (hf.quiet c hp).irq ?_
    simp only [callerStep, hw, hf.lock, Option.isNone_none, if_true]
    exact Option.some_ne_none _

/-- Where no new call is made, the steps that remain are bounded, and where none
is left to take every call has returned. -/
theorem cross_calls_return {r : Dino1Intregs} {info : Funcall φ}
    {tr : List (CrossCalls φ × CallLabel φ)} (hw : b.Wired) (hb : b.smpProcessorsReady = true)
    (hm : ∀ i, b.present i = true → b.midXlate i < 2) (hr : b.Clear r)
    (h : Run (Step b) (start r info) tr s) :
    (∀ ls u, Path (Step b) s ls u → (∀ l ∈ ls, l.isCall = false) → ls.length ≤ rank b s) ∧
      ((∀ l u, Step b s l u → l.isCall = true) → ∀ c, s.call c = .idle) := by
  obtain ⟨o, hi⟩ := exists_inv hw hb hr h
  constructor
  · intro ls
    clear h
    induction ls generalizing s o with
    | nil => exact fun _ _ _ => Nat.zero_le _
    | cons l ls ih =>
      intro u hpath hls
      cases hpath with
      | cons hst hrest =>
        have hlt := hi.rank_lt hw (hls l List.mem_cons_self) hst
        obtain ⟨o', hi'⟩ := hi.step hw hb hst
        have hlen := ih o' hi' u hrest fun l' hl' => hls l' (List.mem_cons_of_mem l hl')
        rw [List.length_cons]
        omega
  · intro hstuck c
    by_contra hc
    obtain ⟨l, u, hl, hst⟩ := hi.exists_step hm hc
    have hcall := hstuck l u hst
    rw [hl] at hcall
    cases hcall

/-- Processor 1 has taken the interrupt and processor 0 is still in its call. -/
theorem cross_calls_return_two : ∃ tr s, Run (Step twoCpus) (start quietPals aCall) tr s ∧
    s.crossCallLock = some 0 ∧
    (∀ ls u, Path (Step twoCpus) s ls u → (∀ l ∈ ls, l.isCall = false) →
      ls.length ≤ rank twoCpus s) ∧
    ((∀ l u, Step twoCpus s l u → l.isCall = true) → ∀ c, s.call c = .idle) := by
  obtain ⟨tr, s, h, -, -, hg⟩ := exists_run_of_any
    (f := fun s l => s.step twoCpus l) (s := start quietPals aCall) (fun _ _ => true)
    (oneCall.take 17) (fun s => s.crossCallLock == some 0) (by decide)
  have hheld : s.crossCallLock = some 0 := by simpa using hg
  have hmid : ∀ i, twoCpus.present i = true → twoCpus.midXlate i < 2 := by
    intro i hi
    by_contra hge
    have hi' : (3#32).getLsbD i = true := hi
    have hlt := present_lt hi
    have hno : ∀ i < 32, ¬ i < 2 → (3#32).getLsbD i = false := by decide
    rw [hno i hlt hge] at hi'
    cases hi'
  exact ⟨tr, s, h, hheld, cross_calls_return twoCpus_wired rfl hmid (clear_quietPals _) h⟩

end CrossCalls

end MeikoCs2
