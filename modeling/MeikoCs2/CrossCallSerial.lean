import MeikoCs2.CrossCall

/-! Every cross call runs its function once on every processor it is meant for,
while it holds the lock, and no processor runs the function of another call.
The invariant follows the holder of the lock through its loops and the
processors it has interrupted through their handlers. -/

namespace MeikoCs2

namespace CallPc

variable {φ : Type}

/-- The call of a processor that holds the lock. -/
def held : CallPc φ → Option (Funcall φ)
  | .idle | .lock _ => none
  | .store f _ | .send f _ | .zeroOut f _ | .fire f _ | .setOut f _ | .runLocal f
  | .waitIn f _ | .waitOut f _ | .unlock f => some f

/-- The fields of the call that are stored. -/
def stored : CallPc φ → Nat
  | .store _ k => k
  | _ => 6

/-- The processors below this number have been set up. -/
def sent (n : Nat) : CallPc φ → Nat
  | .idle | .lock _ | .store _ _ => 0
  | .send _ i | .zeroOut _ i | .fire _ i | .setOut _ i => i
  | .runLocal _ | .waitIn _ _ | .waitOut _ _ | .unlock _ => n

def ranLocal : CallPc φ → Bool
  | .waitIn _ _ | .waitOut _ _ | .unlock _ => true
  | _ => false

end CallPc

def Funcall.Agree {φ : Type} (k : Nat) (f info : Funcall φ) : Prop :=
  (0 < k → info.func = f.func) ∧ ∀ i : Fin 5, i.val + 1 < k → info.arg i = f.arg i

theorem Funcall.Agree.store {φ : Type} {k : Nat} {f info : Funcall φ} (h : f.Agree k info) :
    f.Agree (k + 1) (f.store k info) := by
  cases k with
  | zero => exact ⟨fun _ => rfl, fun i hi => by omega⟩
  | succ k =>
    refine ⟨fun _ => h.1 (by omega), fun i hi => ?_⟩
    show (if i.val = k then f.arg i else info.arg i) = f.arg i
    by_cases he : i.val = k
    · rw [if_pos he]
    · rw [if_neg he]
      exact h.2 i (by omega)

theorem Funcall.Agree.eq {φ : Type} {f info : Funcall φ} (h : f.Agree 6 info) : info = f := by
  cases f
  cases info
  congr 1
  · exact h.1 (by decide)
  · exact funext fun i => h.2 i (by omega)

/-- No soft interrupt of level 15 is pending at a processor. -/
def Smp.Clear (b : Smp) (r : Dino1Intregs) : Prop :=
  ∀ d, b.present d = true → (r (b.midXlate d)).pend.getLsbD irqCrossCall = false

section History

variable {φ : Type} {b : Smp}

theorem Serial.of_append {l l' : List (CallEvent φ)} {o : Option (Holder φ)}
    (h : Serial b (l ++ l') o) : ∃ o', Serial b l o' := by
  induction l' using List.reverseRecOn generalizing o with
  | nil => exact ⟨o, by rwa [List.append_nil] at h⟩
  | append_singleton l' e ih =>
    rw [← List.append_assoc] at h
    generalize he : l ++ l' ++ [e] = m at h
    cases h with
    | nil => exact absurd he (by simp)
    | locked c f h _ | ran d h _ _ | unlocked h _ =>
      obtain ⟨rfl, -⟩ := List.append_inj' he rfl
      exact ih h

/-- The part of a log between the lock and the unlock of a call. -/
theorem Serial.block {pre mid : List (CallEvent φ)} {c : Nat} {f : Funcall φ}
    {o : Option (Holder φ)} (h : Serial b (pre ++ [.locked c f] ++ mid) o)
    (hm : ∀ e ∈ mid, ∃ d g, e = .ran d g) :
    b.present c = true ∧ ∃ ran : List Nat, o = some ⟨c, f, ran⟩ ∧
      mid = ran.reverse.map (.ran · f) ∧ ran.Nodup ∧ ∀ d ∈ ran, b.Callee c d := by
  induction mid using List.reverseRecOn generalizing o with
  | nil =>
    rw [List.append_nil] at h
    generalize he : pre ++ [CallEvent.locked c f] = m at h
    cases h with
    | nil => exact absurd he (by simp)
    | locked c' f' h hp =>
      obtain ⟨-, he⟩ := List.append_inj' he rfl
      cases he
      exact ⟨hp, [], rfl, rfl, List.nodup_nil, fun d hd => absurd hd List.not_mem_nil⟩
    | ran d h _ _ | unlocked h _ =>
      obtain ⟨-, he⟩ := List.append_inj' he rfl
      cases he
  | append_singleton mid e ih =>
    obtain ⟨d, g, rfl⟩ := hm e (List.mem_append_right _ (List.mem_singleton_self e))
    have hm' : ∀ e ∈ mid, ∃ d g, e = CallEvent.ran d g := fun e he =>
      hm e (List.mem_append_left _ he)
    rw [← List.append_assoc] at h
    generalize he : pre ++ [CallEvent.locked c f] ++ mid ++ [CallEvent.ran d g] = m at h
    cases h with
    | nil => exact absurd he (by simp)
    | locked c' f' h _ | unlocked h _ =>
      obtain ⟨-, he⟩ := List.append_inj' he rfl
      cases he
    | ran d' h hcallee hnot =>
      obtain ⟨hl, hlast⟩ := List.append_inj' he rfl
      subst hl
      cases hlast
      obtain ⟨hp, ran, ho, hmid, hnd, hall⟩ := ih h hm'
      cases ho
      refine ⟨hp, d :: ran, rfl, ?_, List.nodup_cons.mpr ⟨hnot, hnd⟩, ?_⟩
      · rw [hmid, List.reverse_cons, List.map_append]
        rfl
      · intro x hx
        rcases List.mem_cons.mp hx with rfl | hx
        · exact hcallee
        · exact hall x hx

/-- Between the lock and the unlock of a call its function has run once on each
of its processors, and nothing else has run. -/
theorem Serial.call {pre mid post : List (CallEvent φ)} {c : Nat} {f : Funcall φ}
    {o : Option (Holder φ)} (h : Serial b (pre ++ [.locked c f] ++ mid ++ [.unlocked c] ++ post) o)
    (hm : ∀ e ∈ mid, ∃ d g, e = .ran d g) :
    b.present c = true ∧ ∃ ran : List Nat, mid = ran.map (.ran · f) ∧ ran.Nodup ∧
      ∀ d, d ∈ ran ↔ b.Callee c d := by
  obtain ⟨o', h'⟩ := h.of_append
  generalize he : pre ++ [CallEvent.locked c f] ++ mid ++ [CallEvent.unlocked c] = m at h'
  cases h' with
  | nil => exact absurd he (by simp)
  | locked c' f' h' _ | ran d' h' _ _ =>
    obtain ⟨-, he⟩ := List.append_inj' he rfl
    cases he
  | unlocked h' hall =>
    obtain ⟨rfl, -⟩ := List.append_inj' he rfl
    obtain ⟨hp, ran, ho, hmid, hnd, hin⟩ := h'.block hm
    cases ho
    refine ⟨hp, ran.reverse, hmid, List.nodup_reverse.mpr hnd, fun d => ?_⟩
    rw [List.mem_reverse]
    exact ⟨hin d, hall d⟩

end History

namespace CrossCalls

open Dino1IntregsPercpu

variable {φ : Type} {b : Smp} {s u : CrossCalls φ}

/-- Nothing of a cross call is under way at processor `d`. -/
structure Quiet (b : Smp) (s : CrossCalls φ) (d : Nat) : Prop where
  irq : s.irq d = none
  pend : s.pending b d = false

/-- How far processor `d` is with the call that interrupts it, and whether it
has run the function. -/
inductive Served (b : Smp) (s : CrossCalls φ) (d : Nat) : Bool → Prop where
  | sent : s.irq d = none → s.pending b d = true → s.processorsIn d = false →
      s.processorsOut d = false → Served b s d false
  | entered : s.irq d = some .setIn → s.pending b d = false → s.processorsIn d = false →
      s.processorsOut d = false → Served b s d false
  | inside : s.irq d = some .run → s.pending b d = false → s.processorsIn d = true →
      s.processorsOut d = false → Served b s d false
  | ran : s.irq d = some .setOut → s.pending b d = false → s.processorsIn d = true →
      s.processorsOut d = false → Served b s d true
  | done : s.irq d = none → s.pending b d = false → s.processorsIn d = true →
      s.processorsOut d = true → Served b s d true

theorem Quiet.congr {d : Nat} (h : Quiet b s d) (hi : u.irq d = s.irq d)
    (hp : u.pending b d = s.pending b d) : Quiet b u d :=
  ⟨hi.trans h.irq, hp.trans h.pend⟩

theorem Served.congr {d : Nat} {r : Bool} (h : Served b s d r) (hi : u.irq d = s.irq d)
    (hp : u.pending b d = s.pending b d) (hin : u.processorsIn d = s.processorsIn d)
    (hout : u.processorsOut d = s.processorsOut d) : Served b u d r := by
  cases h with
  | sent h₁ h₂ h₃ h₄ => exact .sent (hi.trans h₁) (hp.trans h₂) (hin.trans h₃) (hout.trans h₄)
  | entered h₁ h₂ h₃ h₄ => exact .entered (hi.trans h₁) (hp.trans h₂) (hin.trans h₃) (hout.trans h₄)
  | inside h₁ h₂ h₃ h₄ => exact .inside (hi.trans h₁) (hp.trans h₂) (hin.trans h₃) (hout.trans h₄)
  | ran h₁ h₂ h₃ h₄ => exact .ran (hi.trans h₁) (hp.trans h₂) (hin.trans h₃) (hout.trans h₄)
  | done h₁ h₂ h₃ h₄ => exact .done (hi.trans h₁) (hp.trans h₂) (hin.trans h₃) (hout.trans h₄)

theorem Served.of_out {d : Nat} {r : Bool} (h : Served b s d r)
    (ho : s.processorsOut d = true) : r = true ∧ Quiet b s d := by
  cases h with
  | done h₁ h₂ _ _ => exact ⟨rfl, h₁, h₂⟩
  | sent _ _ _ h₄ | entered _ _ _ h₄ | inside _ _ _ h₄ | ran _ _ _ h₄ =>
    rw [h₄] at ho
    cases ho

/-- What holds at the place where the holder of the lock is. -/
def AtPc (b : Smp) (s : CrossCalls φ) (c : Nat) : CallPc φ → Prop
  | .store _ k => k < 6
  | .send _ i => i ≤ b.smpNumCpus
  | .zeroOut _ i => i < b.smpNumCpus ∧ b.target c i = true ∧ s.processorsIn i = false
  | .fire _ i =>
    i < b.smpNumCpus ∧ b.target c i = true ∧ s.processorsIn i = false ∧ s.processorsOut i = false
  | .setOut _ i => i < b.smpNumCpus ∧ b.target c i = false ∧ s.processorsIn i = true
  | .waitIn _ i => i < b.smpNumCpus
  | .waitOut _ i => i < b.smpNumCpus ∧ ∀ j < i, s.processorsOut j = true
  | .unlock _ => ∀ j < b.smpNumCpus, s.processorsOut j = true
  | _ => True

def Waiting (s : CrossCalls φ) (d : Nat) : Prop := s.call d = .idle ∨ ∃ f, s.call d = .lock f

structure Free (b : Smp) (s : CrossCalls φ) : Prop where
  lock : s.crossCallLock = none
  waiting : ∀ d, Waiting s d
  quiet : ∀ d, b.present d = true → Quiet b s d

structure Active (b : Smp) (s : CrossCalls φ) (h : Holder φ) : Prop where
  lock : s.crossCallLock = some h.cpu
  here : b.present h.cpu = true
  waiting : ∀ d, d ≠ h.cpu → Waiting s d
  held : (s.call h.cpu).held = some h.f
  info : h.f.Agree (s.call h.cpu).stored s.ccallInfo
  served : ∀ d, b.target h.cpu d = true → d < (s.call h.cpu).sent b.smpNumCpus →
    ∃ r, Served b s d r ∧ (d ∈ h.ran ↔ r = true)
  quiet : ∀ d, b.present d = true →
    ¬ (b.target h.cpu d = true ∧ d < (s.call h.cpu).sent b.smpNumCpus) →
    Quiet b s d ∧ (d ∈ h.ran → d = h.cpu)
  self : h.cpu ∈ h.ran ↔ (s.call h.cpu).ranLocal = true
  marks : ∀ j, j < (s.call h.cpu).sent b.smpNumCpus → b.target h.cpu j = false →
    s.processorsIn j = true ∧ s.processorsOut j = true
  place : AtPc b s h.cpu (s.call h.cpu)

/-- The lock is free, or one processor holds it and works through its call. -/
def Held (b : Smp) (s : CrossCalls φ) : Option (Holder φ) → Prop
  | none => Free b s
  | some h => Active b s h

structure Inv (b : Smp) (s : CrossCalls φ) (o : Option (Holder φ)) : Prop where
  serial : Serial b s.log o
  away : ∀ d, b.present d = false → s.irq d = none ∧ s.call d = .idle
  held : Held b s o

theorem pending_congr {d : Nat} (h : u.pal = s.pal) : u.pending b d = s.pending b d := by
  rw [pending, pending, h]

theorem callee_lt {c d : Nat} (hne : d ≠ c) (h : b.Callee c d) :
    b.target c d = true ∧ d < b.smpNumCpus :=
  h.resolve_left hne

theorem target_self (b : Smp) (c : Nat) : b.target c c = false := by
  apply Bool.eq_false_iff.mpr
  intro h
  exact ((b.target_iff c c).mp h).2 rfl

theorem Waiting.update {c d : Nat} {pc : CallPc φ} (h : Waiting s d) (hne : d ≠ c)
    (hu : u.call = Function.update s.call c pc) : Waiting u d := by
  have he : u.call d = s.call d := by rw [hu, Function.update_of_ne hne]
  rwa [Waiting, he]

/-- A move of the holder to a place up to which as many processors are set up. -/
theorem Active.goto {h : Holder φ} {pc₀ pc : CallPc φ} (ha : Active b s h)
    (hc₀ : s.call h.cpu = pc₀) (hu : u.call = Function.update s.call h.cpu pc) (hl : u.crossCallLock = s.crossCallLock)
    (hi : u.irq = s.irq) (hp : u.pal = s.pal) (hh : pc.held = some h.f)
    (hf : h.f.Agree pc.stored u.ccallInfo)
    (hs : pc.sent b.smpNumCpus = pc₀.sent b.smpNumCpus)
    (hm : ∀ d < pc₀.sent b.smpNumCpus,
      u.processorsIn d = s.processorsIn d ∧ u.processorsOut d = s.processorsOut d)
    (hr : pc.ranLocal = pc₀.ranLocal) (ht : AtPc b u h.cpu pc) : Active b u h := by
  subst hc₀
  have hc : u.call h.cpu = pc := by rw [hu, Function.update_self]
  constructor
  · exact hl.trans ha.lock
  · exact ha.here
  · exact fun d hd => (ha.waiting d hd).update hd hu
  · rw [hc, hh]
  · rwa [hc]
  · intro d hd hlt
    rw [hc, hs] at hlt
    obtain ⟨r, hv, hrn⟩ := ha.served d hd hlt
    exact ⟨r, hv.congr (congrFun hi d) (pending_congr hp) (hm d hlt).1 (hm d hlt).2, hrn⟩
  · intro d hd hn
    rw [hc, hs] at hn
    obtain ⟨hq, hrn⟩ := ha.quiet d hd hn
    exact ⟨hq.congr (congrFun hi d) (pending_congr hp), hrn⟩
  · rw [hc, hr]
    exact ha.self
  · intro j hj hn
    rw [hc, hs] at hj
    rw [(hm j hj).1, (hm j hj).2]
    exact ha.marks j hj hn
  · rwa [hc]

theorem Active.sent_le {h : Holder φ} (ha : Active b s h) :
    (s.call h.cpu).sent b.smpNumCpus ≤ b.smpNumCpus := by
  have hp := ha.place
  cases hc : s.call h.cpu with
  | idle | lock | store => exact Nat.zero_le _
  | send f i =>
    rw [hc] at hp
    exact hp
  | zeroOut f i | fire f i | setOut f i =>
    rw [hc] at hp
    exact hp.1.le
  | runLocal | waitIn | waitOut | unlock => exact Nat.le_refl _

theorem Active.info_eq {h : Holder φ} (ha : Active b s h)
    (hs : 0 < (s.call h.cpu).sent b.smpNumCpus) : s.ccallInfo = h.f := by
  have hi := ha.info
  cases hc : s.call h.cpu with
  | idle | lock | store =>
    rw [hc] at hs
    exact absurd hs (Nat.lt_irrefl 0)
  | send | zeroOut | fire | setOut | runLocal | waitIn | waitOut | unlock =>
    rw [hc] at hi
    exact hi.eq

theorem pending_update_ne {r : Dino1IntregsPercpu} {m d : Nat}
    (hu : u.pal = Function.update s.pal m r) (hne : b.midXlate d ≠ m) :
    u.pending b d = s.pending b d := by
  rw [pending, pending, hu, Function.update_of_ne hne]

theorem Active.fire {h : Holder φ} {i : Nat} (hw : b.Wired) (ha : Active b s h)
    (hc : s.call h.cpu = .fire h.f i) (hu : u.call = Function.update s.call h.cpu (.send h.f (i + 1)))
    (hp : dino1SendIpi (b.midXlate i) irqCrossCall s.pal = some u.pal)
    (hl : u.crossCallLock = s.crossCallLock) (hi : u.irq = s.irq) (hf : u.ccallInfo = s.ccallInfo)
    (hin : u.processorsIn = s.processorsIn) (hout : u.processorsOut = s.processorsOut) :
    Active b u h := by
  obtain ⟨hlt, ht, hin0, hout0⟩ : i < b.smpNumCpus ∧ b.target h.cpu i = true ∧
      s.processorsIn i = false ∧ s.processorsOut i = false := by
    have hpl := ha.place
    rwa [hc] at hpl
  have hs : (s.call h.cpu).sent b.smpNumCpus = i := by rw [hc]; rfl
  have hcu : u.call h.cpu = .send h.f (i + 1) := by rw [hu, Function.update_self]
  have hsu : (u.call h.cpu).sent b.smpNumCpus = i + 1 := by rw [hcu]; rfl
  obtain ⟨-, -, hpal⟩ := palWrite_eq_some hp
  have hpi := ((b.target_iff _ _).mp ht).1
  have hpend : ∀ d, b.present d = true → d ≠ i → u.pending b d = s.pending b d := by
    intro d hd hne
    exact pending_update_ne hpal fun he => hne (hw.inj d i hd hpi he)
  obtain ⟨hq, hrn⟩ := ha.quiet i hpi fun hn => by omega
  constructor
  · exact hl.trans ha.lock
  · exact ha.here
  · exact fun d hd => (ha.waiting d hd).update hd hu
  · rw [hcu]
    rfl
  · have hinfo := ha.info
    rw [hc] at hinfo
    rw [hcu, hf]
    exact hinfo
  · intro d hd hlt'
    rw [hsu] at hlt'
    by_cases hdi : d = i
    · subst hdi
      refine ⟨false, .sent ?_ ?_ ?_ ?_, ?_⟩
      · rw [hi]
        exact hq.irq
      · rw [pending, hpal, Function.update_self, writeSetPend,
          getLsbD_or_irqToMask (by decide), if_pos rfl]
      · rw [hin]
        exact hin0
      · rw [hout]
        exact hout0
      · have hne := ((b.target_iff _ _).mp ht).2
        exact ⟨fun hm => absurd (hrn hm) hne, fun hf => by cases hf⟩
    · obtain ⟨r, hv, hr⟩ := ha.served d hd (by omega)
      have hpd := ((b.target_iff _ _).mp hd).1
      exact ⟨r, hv.congr (congrFun hi d) (hpend d hpd hdi) (congrFun hin d) (congrFun hout d), hr⟩
  · intro d hd hn
    rw [hsu] at hn
    have hdi : d ≠ i := by
      rintro rfl
      exact hn ⟨ht, by omega⟩
    obtain ⟨hqd, hrd⟩ := ha.quiet d hd fun hn' => hn ⟨hn'.1, by omega⟩
    exact ⟨hqd.congr (congrFun hi d) (hpend d hd hdi), hrd⟩
  · rw [ha.self, hcu, hc]
    rfl
  · intro j hj hn
    rw [hsu] at hj
    have hji : j ≠ i := by
      rintro rfl
      rw [ht] at hn
      cases hn
    rw [hin, hout]
    exact ha.marks j (by omega) hn
  · rw [hcu]
    exact hlt

theorem Active.setOut {h : Holder φ} {i : Nat} (ha : Active b s h)
    (hc : s.call h.cpu = .setOut h.f i) :
    Active b { s with
      processorsOut := Function.update s.processorsOut i true
      call := Function.update s.call h.cpu (.send h.f (i + 1)) } h := by
  obtain ⟨hlt, ht, hin1⟩ : i < b.smpNumCpus ∧ b.target h.cpu i = false ∧
      s.processorsIn i = true := by
    have hpl := ha.place
    rwa [hc] at hpl
  have hs : (s.call h.cpu).sent b.smpNumCpus = i := by rw [hc]; rfl
  have hcu : (Function.update s.call h.cpu (.send h.f (i + 1))) h.cpu = .send h.f (i + 1) :=
    Function.update_self _ _ _
  constructor
  · exact ha.lock
  · exact ha.here
  · exact fun d hd => (ha.waiting d hd).update hd rfl
  · exact congrArg CallPc.held hcu
  · have hinfo := ha.info
    rw [hc] at hinfo
    show h.f.Agree (Function.update s.call h.cpu _ h.cpu).stored s.ccallInfo
    rw [hcu]
    exact hinfo
  · intro d hd hlt'
    simp only [hcu, CallPc.sent] at hlt'
    have hdi : d ≠ i := by
      rintro rfl
      rw [ht] at hd
      cases hd
    obtain ⟨r, hv, hr⟩ := ha.served d hd (by omega)
    exact ⟨r, hv.congr rfl rfl rfl (Function.update_of_ne hdi _ _), hr⟩
  · intro d hd hn
    simp only [hcu, CallPc.sent] at hn
    obtain ⟨hqd, hrd⟩ := ha.quiet d hd fun hn' => hn ⟨hn'.1, by omega⟩
    exact ⟨hqd.congr rfl rfl, hrd⟩
  · have hself := ha.self
    rw [hc] at hself
    show h.cpu ∈ h.ran ↔ (Function.update s.call h.cpu _ h.cpu).ranLocal = true
    rw [hcu]
    exact hself
  · intro j hj hn
    simp only [hcu, CallPc.sent] at hj
    by_cases hji : j = i
    · subst hji
      exact ⟨hin1, Function.update_self _ _ _⟩
    · have hm := ha.marks j (by omega) hn
      exact ⟨hm.1, (Function.update_of_ne hji _ _).trans hm.2⟩
  · show AtPc b _ h.cpu (Function.update s.call h.cpu _ h.cpu)
    rw [hcu]
    exact hlt

theorem Active.runLocal {h : Holder φ} (hw : b.Wired) (ha : Active b s h)
    (hc : s.call h.cpu = .runLocal h.f) :
    Active b { s with
      log := s.log ++ [.ran h.cpu h.f]
      call := Function.update s.call h.cpu (.waitIn h.f 0) } { h with ran := h.cpu :: h.ran } := by
  have hs : (s.call h.cpu).sent b.smpNumCpus = b.smpNumCpus := by rw [hc]; rfl
  have hcu : (Function.update s.call h.cpu (.waitIn h.f 0)) h.cpu = .waitIn h.f 0 :=
    Function.update_self _ _ _
  constructor
  · exact ha.lock
  · exact ha.here
  · exact fun d hd => (ha.waiting d hd).update hd rfl
  · exact congrArg CallPc.held hcu
  · have hinfo := ha.info
    rw [hc] at hinfo
    show h.f.Agree (Function.update s.call h.cpu _ h.cpu).stored s.ccallInfo
    rw [hcu]
    exact hinfo
  · intro d hd hlt
    simp only [hcu, CallPc.sent] at hlt
    obtain ⟨r, hv, hr⟩ := ha.served d hd (by omega)
    refine ⟨r, hv.congr rfl rfl rfl rfl, ?_⟩
    have hne := ((b.target_iff _ _).mp hd).2
    rw [List.mem_cons, or_iff_right hne]
    exact hr
  · intro d hd hn
    simp only [hcu, CallPc.sent] at hn
    obtain ⟨hqd, hrd⟩ := ha.quiet d hd (by rwa [hs])
    refine ⟨hqd.congr rfl rfl, fun hm => ?_⟩
    rcases List.mem_cons.mp hm with he | hm
    · exact he
    · exact hrd hm
  · show h.cpu ∈ h.cpu :: h.ran ↔ (Function.update s.call h.cpu _ h.cpu).ranLocal = true
    rw [hcu]
    exact iff_of_true List.mem_cons_self rfl
  · intro j hj hn
    simp only [hcu, CallPc.sent] at hj
    exact ha.marks j (by omega) hn
  · show AtPc b _ h.cpu (Function.update s.call h.cpu _ h.cpu)
    rw [hcu]
    exact hw.pos

/-- All marks are set when the holder gives the lock back, so that every
processor of the call is through with it. -/
theorem Active.unlock {h : Holder φ} (ha : Active b s h) (hc : s.call h.cpu = .unlock h.f) :
    (∀ d, b.Callee h.cpu d → d ∈ h.ran) ∧
    Free b { s with
      crossCallLock := none
      log := s.log ++ [.unlocked h.cpu]
      call := Function.update s.call h.cpu .idle } := by
  have hout : ∀ j < b.smpNumCpus, s.processorsOut j = true := by
    have hpl := ha.place
    rwa [hc] at hpl
  have hs : (s.call h.cpu).sent b.smpNumCpus = b.smpNumCpus := by rw [hc]; rfl
  have hself : h.cpu ∈ h.ran := by
    rw [ha.self, hc]
    rfl
  constructor
  · intro d hd
    by_cases hdc : d = h.cpu
    · rwa [hdc]
    · obtain ⟨ht, hlt⟩ := callee_lt hdc hd
      obtain ⟨r, hv, hr⟩ := ha.served d ht (by rwa [hs])
      exact hr.mpr (hv.of_out (hout d hlt)).1
  · constructor
    · rfl
    · intro d
      by_cases hdc : d = h.cpu
      · subst hdc
        exact .inl (Function.update_self _ _ _)
      · exact (ha.waiting d hdc).update hdc rfl
    · intro d hd
      by_cases hn : b.target h.cpu d = true ∧ d < (s.call h.cpu).sent b.smpNumCpus
      · obtain ⟨r, hv, -⟩ := ha.served d hn.1 hn.2
        rw [hs] at hn
        exact (hv.of_out (hout d hn.2)).2.congr rfl rfl
      · exact (ha.quiet d hd hn).1.congr rfl rfl

theorem Free.take {c : Nat} {f : Funcall φ} (hf : Free b s) (hp : b.present c = true) :
    Active b { s with
      crossCallLock := some c
      log := s.log ++ [.locked c f]
      call := Function.update s.call c (.store f 0) } ⟨c, f, []⟩ := by
  have hcu : (Function.update s.call c (.store f 0)) c = .store f 0 := Function.update_self _ _ _
  constructor
  · rfl
  · exact hp
  · exact fun d hd => (hf.waiting d).update hd rfl
  · exact congrArg CallPc.held hcu
  · show f.Agree (Function.update s.call c _ c).stored s.ccallInfo
    rw [hcu]
    exact ⟨fun h => absurd h (Nat.lt_irrefl 0), fun i h => absurd h (Nat.not_lt_zero _)⟩
  · intro d _ hlt
    simp only [hcu, CallPc.sent] at hlt
    exact absurd hlt (Nat.not_lt_zero d)
  · intro d hd _
    exact ⟨(hf.quiet d hd).congr rfl rfl, fun hm => absurd hm List.not_mem_nil⟩
  · show c ∈ [] ↔ (Function.update s.call c _ c).ranLocal = true
    rw [hcu]
    exact iff_of_false List.not_mem_nil Bool.false_ne_true
  · intro j hj
    simp only [hcu, CallPc.sent] at hj
    exact absurd hj (Nat.not_lt_zero j)
  · show AtPc b _ c (Function.update s.call c _ c)
    rw [hcu]
    exact (by decide : 0 < 6)

theorem Held.active {o : Option (Holder φ)} {c : Nat} {f : Funcall φ} (h : Held b s o)
    (hc : (s.call c).held = some f) : ∃ h : Holder φ, o = some h ∧ h.cpu = c ∧ h.f = f ∧
      Active b s h := by
  have hw : ¬ Waiting s c := by
    rintro (he | ⟨g, he⟩) <;> rw [he] at hc <;> cases hc
  cases o with
  | none => exact absurd (Free.waiting h c) hw
  | some h' =>
    have hcpu : h'.cpu = c := by
      by_contra hne
      exact hw (Active.waiting h c (Ne.symm hne))
    have hf := Active.held h
    rw [hcpu, hc] at hf
    exact ⟨h', rfl, hcpu, (Option.some.inj hf).symm, h⟩

theorem Inv.away_update {o : Option (Holder φ)} {c : Nat} {pc : CallPc φ} (hi : Inv b s o)
    (hp : b.present c = true) (hirq : u.irq = s.irq)
    (hu : u.call = Function.update s.call c pc) :
    ∀ d, b.present d = false → u.irq d = none ∧ u.call d = .idle := by
  intro d hd
  have hne : d ≠ c := by
    rintro rfl
    rw [hp] at hd
    cases hd
  rw [hirq, hu, Function.update_of_ne hne]
  exact hi.away d hd

/-- One step of the holder up to the release. -/
theorem Active.caller {h : Holder φ} (hw : b.Wired) (hs : Serial b s.log (some h))
    (ha : Active b s h) (hst : s.callerStep b h.cpu = some u) :
    ∃ o, Serial b u.log o ∧ Held b u o := by
  have hheld := ha.held
  have hinfo := ha.info
  have hplace := ha.place
  cases hc : s.call h.cpu with
  | idle | lock f =>
    rw [hc] at hheld
    cases hheld
  | store f k =>
    rw [hc] at hheld hinfo hplace
    cases hheld
    simp only [callerStep, hc, Option.some.injEq] at hst
    subst hst
    refine ⟨some h, hs, ?_⟩
    by_cases hk : k + 1 < 6
    · rw [if_pos hk]
      exact ha.goto hc rfl rfl rfl rfl rfl hinfo.store rfl (fun _ _ => ⟨rfl, rfl⟩) rfl hk
    · have hk6 : k + 1 = 6 := by
        have hlt : k < 6 := hplace
        omega
      rw [if_neg hk]
      have hall := Funcall.Agree.store hinfo
      simp only [CallPc.stored, hk6] at hall
      exact ha.goto hc rfl rfl rfl rfl rfl hall rfl (fun _ _ => ⟨rfl, rfl⟩) rfl (Nat.zero_le _)
  | send f i =>
    rw [hc] at hheld hinfo hplace
    cases hheld
    simp only [callerStep, hc] at hst
    split_ifs at hst with hlt ht
    · cases hst
      have hm : ∀ d < i, Function.update s.processorsIn i false d = s.processorsIn d :=
        fun d hd => Function.update_of_ne (by omega) _ _
      exact ⟨some h, hs, ha.goto hc rfl rfl rfl rfl rfl hinfo rfl (fun d hd => ⟨hm d hd, rfl⟩) rfl
        ⟨hlt, ht, Function.update_self _ _ _⟩⟩
    · cases hst
      have hm : ∀ d < i, Function.update s.processorsIn i true d = s.processorsIn d :=
        fun d hd => Function.update_of_ne (by omega) _ _
      exact ⟨some h, hs, ha.goto hc rfl rfl rfl rfl rfl hinfo rfl (fun d hd => ⟨hm d hd, rfl⟩) rfl
        ⟨hlt, Bool.eq_false_iff.mpr ht, Function.update_self _ _ _⟩⟩
    · cases hst
      have hle : i ≤ b.smpNumCpus := hplace
      have hin : i = b.smpNumCpus := by omega
      exact ⟨some h, hs,
        ha.goto hc rfl rfl rfl rfl rfl hinfo hin.symm (fun _ _ => ⟨rfl, rfl⟩) rfl trivial⟩
  | zeroOut f i =>
    rw [hc] at hheld hinfo hplace
    cases hheld
    simp only [callerStep, hc, Option.some.injEq] at hst
    subst hst
    have hm : ∀ d < i, Function.update s.processorsOut i false d = s.processorsOut d :=
      fun d hd => Function.update_of_ne (by omega) _ _
    exact ⟨some h, hs, ha.goto hc rfl rfl rfl rfl rfl hinfo rfl (fun d hd => ⟨rfl, hm d hd⟩) rfl
      ⟨hplace.1, hplace.2.1, hplace.2.2, Function.update_self _ _ _⟩⟩
  | fire f i =>
    rw [hc] at hheld
    cases hheld
    simp only [callerStep, hc, Option.map_eq_some_iff] at hst
    obtain ⟨r, hr, rfl⟩ := hst
    exact ⟨some h, hs, ha.fire hw hc rfl hr rfl rfl rfl rfl rfl⟩
  | setOut f i =>
    rw [hc] at hheld
    cases hheld
    simp only [callerStep, hc, Option.some.injEq] at hst
    subst hst
    exact ⟨some h, hs, ha.setOut hc⟩
  | runLocal f =>
    rw [hc] at hheld
    cases hheld
    simp only [callerStep, hc, Option.some.injEq] at hst
    subst hst
    refine ⟨some { h with ran := h.cpu :: h.ran }, hs.ran h.cpu (.inl rfl) ?_, ha.runLocal hw hc⟩
    rw [ha.self, hc]
    exact Bool.false_ne_true
  | waitIn f i =>
    rw [hc] at hheld hinfo
    cases hheld
    simp only [callerStep, hc] at hst
    split_ifs at hst with hin hlt
    · cases hst
      exact ⟨some h, hs,
        ha.goto hc rfl rfl rfl rfl rfl hinfo rfl (fun _ _ => ⟨rfl, rfl⟩) rfl hlt⟩
    · cases hst
      exact ⟨some h, hs, ha.goto hc rfl rfl rfl rfl rfl hinfo rfl (fun _ _ => ⟨rfl, rfl⟩) rfl
        ⟨hw.pos, fun j hj => absurd hj (Nat.not_lt_zero j)⟩⟩
  | waitOut f i =>
    rw [hc] at hheld hinfo hplace
    cases hheld
    obtain ⟨hi, hbelow⟩ : i < b.smpNumCpus ∧ ∀ j < i, s.processorsOut j = true := hplace
    simp only [callerStep, hc] at hst
    split_ifs at hst with hout hlt
    · cases hst
      have hupto : ∀ j < i + 1, s.processorsOut j = true := by
        intro j hj
        by_cases hji : j = i
        · rwa [hji]
        · exact hbelow j (by omega)
      exact ⟨some h, hs,
        ha.goto hc rfl rfl rfl rfl rfl hinfo rfl (fun _ _ => ⟨rfl, rfl⟩) rfl ⟨hlt, hupto⟩⟩
    · cases hst
      have hall : ∀ j < b.smpNumCpus, s.processorsOut j = true := by
        intro j hj
        by_cases hji : j = i
        · rwa [hji]
        · exact hbelow j (by omega)
      exact ⟨some h, hs,
        ha.goto hc rfl rfl rfl rfl rfl hinfo rfl (fun _ _ => ⟨rfl, rfl⟩) rfl hall⟩
  | unlock f =>
    rw [hc] at hheld
    cases hheld
    simp only [callerStep, hc, Option.some.injEq] at hst
    subst hst
    obtain ⟨hall, hfree⟩ := ha.unlock hc
    exact ⟨none, hs.unlocked hall, hfree⟩

/-- Between a fire and the mark behind it, a processor is at one of four
places, and only its own trap and handler move it on. -/
theorem Active.interrupted {h : Holder φ} {d : Nat} (ha : Active b s h)
    (hp : b.present d = true) (hq : ¬ Quiet b s d) :
    b.target h.cpu d = true ∧ d < (s.call h.cpu).sent b.smpNumCpus := by
  by_contra hn
  exact hq (ha.quiet d hp hn).1

/-- A step of a processor's trap or handler: the others see nothing of it. -/
theorem Active.serve {h : Holder φ} {d : Nat} {r : Bool} {ran : List Nat} (ha : Active b s h)
    (ht : b.target h.cpu d = true) (hlt : d < (s.call h.cpu).sent b.smpNumCpus)
    (hv : Served b u d r) (hr : d ∈ ran ↔ r = true) (hran : ∀ e, e ≠ d → (e ∈ ran ↔ e ∈ h.ran))
    (hc : u.call = s.call) (hl : u.crossCallLock = s.crossCallLock)
    (hf : u.ccallInfo = s.ccallInfo)
    (hi : ∀ e, e ≠ d → u.irq e = s.irq e)
    (hp : ∀ e, b.present e = true → e ≠ d → u.pending b e = s.pending b e)
    (hin : ∀ e, e ≠ d → u.processorsIn e = s.processorsIn e)
    (hout : ∀ e, e ≠ d → u.processorsOut e = s.processorsOut e)
    (hkeep : s.processorsOut d = true → u.processorsOut d = true) :
    Active b u { h with ran := ran } := by
  have hdc := ((b.target_iff _ _).mp ht).2
  have hfire : ∀ f i, s.call h.cpu = .zeroOut f i ∨ s.call h.cpu = .fire f i ∨
      s.call h.cpu = .setOut f i → i ≠ d := by
    rintro f i (he | he | he) rfl <;> rw [he] at hlt <;> exact absurd hlt (Nat.lt_irrefl _)
  constructor
  · exact hl.trans ha.lock
  · exact ha.here
  · intro e he
    rw [Waiting, hc]
    exact ha.waiting e he
  · rw [hc]
    exact ha.held
  · rw [hc, hf]
    exact ha.info
  · intro e he hlt'
    rw [hc] at hlt'
    by_cases hed : e = d
    · subst hed
      exact ⟨r, hv, hr⟩
    · obtain ⟨r', hv', hr'⟩ := ha.served e he hlt'
      have hpe := ((b.target_iff _ _).mp he).1
      refine ⟨r', hv'.congr (hi e hed) (hp e hpe hed) (hin e hed) (hout e hed), ?_⟩
      exact (hran e hed).trans hr'
  · intro e he hn
    rw [hc] at hn
    have hed : e ≠ d := by
      rintro rfl
      exact hn ⟨ht, hlt⟩
    obtain ⟨hq, hre⟩ := ha.quiet e he hn
    exact ⟨hq.congr (hi e hed) (hp e he hed), fun hm => hre ((hran e hed).mp hm)⟩
  · rw [hc]
    exact (hran h.cpu (Ne.symm hdc)).trans ha.self
  · intro j hj hn
    rw [hc] at hj
    have hjd : j ≠ d := by
      rintro rfl
      exact absurd ht (by rw [hn]; exact Bool.false_ne_true)
    rw [hin j hjd, hout j hjd]
    exact ha.marks j hj hn
  · rw [hc]
    have hpl := ha.place
    have hmono : ∀ j, s.processorsOut j = true → u.processorsOut j = true := by
      intro j hj
      by_cases hjd : j = d
      · subst hjd
        exact hkeep hj
      · rwa [hout j hjd]
    cases he : s.call h.cpu with
    | idle | lock | runLocal => trivial
    | store f k | send f k | waitIn f k =>
      rw [he] at hpl
      exact hpl
    | zeroOut f i =>
      rw [he] at hpl
      exact ⟨hpl.1, hpl.2.1, (hin i (hfire f i (.inl he))).trans hpl.2.2⟩
    | fire f i =>
      have hne := hfire f i (.inr (.inl he))
      rw [he] at hpl
      exact ⟨hpl.1, hpl.2.1, (hin i hne).trans hpl.2.2.1, (hout i hne).trans hpl.2.2.2⟩
    | setOut f i =>
      rw [he] at hpl
      exact ⟨hpl.1, hpl.2.1, (hin i (hfire f i (.inr (.inr he)))).trans hpl.2.2⟩
    | waitOut f i =>
      rw [he] at hpl
      exact ⟨hpl.1, fun j hj => hmono j (hpl.2 j hj)⟩
    | unlock f =>
      rw [he] at hpl
      exact fun j hj => hmono j (hpl j hj)

theorem Active.trap {h : Holder φ} {d : Nat} (hw : b.Wired) (ha : Active b s h)
    (hp : b.present d = true) (hpend : s.pending b d = true) :
    Active b { s with
      pal := Function.update s.pal (b.midXlate d)
        ((s.pal (b.midXlate d)).writePend (irqToMask irqCrossCall))
      irq := Function.update s.irq d (some .setIn) } h := by
  have hq : ¬ Quiet b s d := by
    intro hq
    rw [hq.pend] at hpend
    cases hpend
  obtain ⟨ht, hlt⟩ := ha.interrupted hp hq
  obtain ⟨r, hv, hr⟩ := ha.served d ht hlt
  cases hv with
  | entered _ h₂ _ _ | inside _ h₂ _ _ | ran _ h₂ _ _ | done _ h₂ _ _ =>
    rw [h₂] at hpend
    cases hpend
  | sent _ _ h₃ h₄ =>
    refine ha.serve ht hlt (.entered (Function.update_self _ _ _) ?_ h₃ h₄) hr (fun _ _ => .rfl)
      rfl rfl rfl (fun e he => Function.update_of_ne he _ _) ?_ (fun _ _ => rfl) (fun _ _ => rfl)
      id
    · show (Function.update s.pal (b.midXlate d) _ (b.midXlate d)).pend.getLsbD 15 = false
      rw [Function.update_self, writePend, getLsbD_and_not_irqToMask (by decide), if_pos rfl]
    · intro e he hed
      exact pending_update_ne rfl fun hm => hed (hw.inj e d he hp hm)

/-- One step of the handler. The call it reads is the one of the holder. -/
theorem Active.handler {h : Holder φ} {d : Nat} (hs : Serial b s.log (some h))
    (ha : Active b s h) (hp : b.present d = true) (hst : s.handlerStep d = some u) :
    ∃ o, Serial b u.log o ∧ Held b u o := by
  have hq : ¬ Quiet b s d := by
    intro hq
    rw [handlerStep, hq.irq] at hst
    cases hst
  obtain ⟨ht, hlt⟩ := ha.interrupted hp hq
  obtain ⟨r, hv, hr⟩ := ha.served d ht hlt
  cases hv with
  | sent h₁ _ _ _ | done h₁ _ _ _ =>
    rw [handlerStep, h₁] at hst
    cases hst
  | entered h₁ h₂ _ h₄ =>
    rw [handlerStep, h₁] at hst
    cases hst
    refine ⟨some h, hs, ?_⟩
    exact ha.serve ht hlt (.inside (Function.update_self _ _ _) h₂ (Function.update_self _ _ _) h₄)
      hr (fun _ _ => .rfl) rfl rfl rfl (fun e he => Function.update_of_ne he _ _)
      (fun _ _ _ => rfl) (fun e he => Function.update_of_ne he _ _) (fun _ _ => rfl) id
  | inside h₁ h₂ h₃ h₄ =>
    rw [handlerStep, h₁] at hst
    cases hst
    have hnot : d ∉ h.ran := fun hm => Bool.false_ne_true (hr.mp hm)
    have hinfo := ha.info_eq (Nat.lt_of_le_of_lt (Nat.zero_le d) hlt)
    refine ⟨some { h with ran := d :: h.ran }, ?_, ?_⟩
    · rw [hinfo]
      exact hs.ran d (.inr ⟨ht, Nat.lt_of_lt_of_le hlt ha.sent_le⟩) hnot
    · refine ha.serve ht hlt (.ran (Function.update_self _ _ _) h₂ h₃ h₄) ?_ ?_ rfl rfl rfl
        (fun e he => Function.update_of_ne he _ _) (fun _ _ _ => rfl) (fun _ _ => rfl)
        (fun _ _ => rfl) id
      · exact iff_of_true List.mem_cons_self rfl
      · intro e he
        rw [List.mem_cons, or_iff_right he]
  | ran h₁ h₂ h₃ _ =>
    rw [handlerStep, h₁] at hst
    cases hst
    refine ⟨some h, hs, ?_⟩
    exact ha.serve ht hlt (.done (Function.update_self _ _ _) h₂ h₃ (Function.update_self _ _ _))
      hr (fun _ _ => .rfl) rfl rfl rfl (fun e he => Function.update_of_ne he _ _)
      (fun _ _ _ => rfl) (fun _ _ => rfl) (fun e he => Function.update_of_ne he _ _)
      fun _ => Function.update_self _ _ _

theorem Inv.request {o : Option (Holder φ)} {c : Nat} {f : Funcall φ} (hi : Inv b s o)
    (hp : b.present c = true) (hc : s.call c = .idle) :
    Inv b { s with call := Function.update s.call c (.lock f) } o := by
  have hwait : ∀ d, Waiting s d →
      Waiting { s with call := Function.update s.call c (.lock f) } d := by
    intro d hd
    by_cases hdc : d = c
    · subst hdc
      exact .inr ⟨f, Function.update_self _ _ _⟩
    · exact hd.update hdc rfl
  refine ⟨hi.serial, hi.away_update hp rfl rfl, ?_⟩
  cases o with
  | none =>
    have hf : Free b s := hi.held
    exact ⟨hf.lock, fun d => hwait d (hf.waiting d), fun d hd => (hf.quiet d hd).congr rfl rfl⟩
  | some h =>
    have ha : Active b s h := hi.held
    have hne : h.cpu ≠ c := by
      intro he
      have hh := ha.held
      rw [he, hc] at hh
      cases hh
    have hcu : Function.update s.call c (.lock f) h.cpu = s.call h.cpu :=
      Function.update_of_ne hne _ _
    constructor
    · exact ha.lock
    · exact ha.here
    · exact fun d hd => hwait d (ha.waiting d hd)
    · exact (congrArg CallPc.held hcu).trans ha.held
    · show h.f.Agree (Function.update s.call c _ h.cpu).stored s.ccallInfo
      rw [hcu]
      exact ha.info
    · intro d hd hlt
      simp only [hcu] at hlt
      obtain ⟨r, hv, hr⟩ := ha.served d hd hlt
      exact ⟨r, hv.congr rfl rfl rfl rfl, hr⟩
    · intro d hd hn
      simp only [hcu] at hn
      obtain ⟨hq, hr⟩ := ha.quiet d hd hn
      exact ⟨hq.congr rfl rfl, hr⟩
    · show h.cpu ∈ h.ran ↔ (Function.update s.call c _ h.cpu).ranLocal = true
      rw [hcu]
      exact ha.self
    · intro j hj hn
      simp only [hcu] at hj
      exact ha.marks j hj hn
    · show AtPc b _ h.cpu (Function.update s.call c _ h.cpu)
      rw [hcu]
      exact ha.place

theorem callerStep_frame {c : Nat} (hst : s.callerStep b c = some u) :
    ∃ pc, u.irq = s.irq ∧ u.call = Function.update s.call c pc := by
  simp only [callerStep] at hst
  cases hc : s.call c with
  | idle =>
    rw [hc] at hst
    cases hst
  | store | zeroOut | setOut | runLocal | unlock =>
    rw [hc] at hst
    cases hst
    exact ⟨_, rfl, rfl⟩
  | lock | send | waitIn | waitOut =>
    simp only [hc] at hst
    split_ifs at hst <;> cases hst <;> exact ⟨_, rfl, rfl⟩
  | fire =>
    simp only [hc, Option.map_eq_some_iff] at hst
    obtain ⟨r, -, rfl⟩ := hst
    exact ⟨_, rfl, rfl⟩

theorem Inv.caller {o : Option (Holder φ)} {c : Nat} (hw : b.Wired) (hi : Inv b s o)
    (hst : s.callerStep b c = some u) : ∃ o', Inv b u o' := by
  have hp : b.present c = true := by
    by_contra hn
    rw [callerStep, (hi.away c (Bool.eq_false_iff.mpr hn)).2] at hst
    cases hst
  cases hh : (s.call c).held with
  | some f =>
    obtain ⟨h, rfl, rfl, rfl, ha⟩ := hi.held.active hh
    obtain ⟨o', hs, hheld⟩ := ha.caller hw hi.serial hst
    refine ⟨o', hs, ?_, hheld⟩
    obtain ⟨pc, hirq, hcall⟩ := callerStep_frame hst
    exact hi.away_update hp hirq hcall
  | none =>
    cases hc : s.call c with
    | idle =>
      rw [callerStep, hc] at hst
      cases hst
    | store | send | zeroOut | fire | setOut | runLocal | waitIn | waitOut | unlock =>
      rw [hc] at hh
      cases hh
    | lock f =>
      simp only [callerStep, hc] at hst
      split_ifs at hst with hl
      cases hst
      cases o with
      | some h =>
        have hlock := Active.lock hi.held
        rw [hlock] at hl
        cases hl
      | none =>
        exact ⟨_, hi.serial.locked c f hp, hi.away_update hp rfl rfl, Free.take hi.held hp⟩

theorem Inv.away_irq {o : Option (Holder φ)} {c : Nat} {x : Option IrqPc} (hi : Inv b s o)
    (hp : b.present c = true) (hirq : u.irq = Function.update s.irq c x) (hu : u.call = s.call) :
    ∀ d, b.present d = false → u.irq d = none ∧ u.call d = .idle := by
  intro d hd
  have hne : d ≠ c := by
    rintro rfl
    rw [hp] at hd
    cases hd
  rw [hirq, hu, Function.update_of_ne hne]
  exact hi.away d hd

theorem handlerStep_frame {c : Nat} (hst : s.handlerStep c = some u) :
    ∃ x, u.irq = Function.update s.irq c x ∧ u.call = s.call := by
  simp only [handlerStep] at hst
  cases hc : s.irq c with
  | none =>
    rw [hc] at hst
    cases hst
  | some x =>
    cases x with
    | setIn | run | setOut =>
      rw [hc] at hst
      cases hst
      exact ⟨_, rfl, rfl⟩

theorem Inv.step {o : Option (Holder φ)} {l : CallLabel φ} (hw : b.Wired)
    (hb : b.smpProcessorsReady = true) (hi : Inv b s o) (hst : Step b s l u) :
    ∃ o', Inv b u o' := by
  cases l with
  | call c f =>
    simp only [Step, CrossCalls.step] at hst
    split at hst
    · rename_i hc
      split_ifs at hst with hp
      cases hst
      exact ⟨o, hi.request hp hc⟩
    · cases hst
  | caller c =>
    simp only [Step, CrossCalls.step] at hst
    split_ifs at hst
    exact hi.caller hw hst
  | trap d =>
    simp only [Step, CrossCalls.step, Bool.and_eq_true, Option.isNone_iff_eq_none] at hst
    split_ifs at hst with hd
    obtain ⟨⟨hp, -⟩, hpend⟩ := hd
    cases hst
    refine ⟨o, hi.serial, hi.away_irq hp rfl rfl, ?_⟩
    cases o with
    | none =>
      have hq := (Free.quiet hi.held d hp).pend
      rw [hq] at hpend
      cases hpend
    | some h => exact Active.trap hw hi.held hp hpend
  | handler d =>
    have hst' : s.handlerStep d = some u := hst
    have hirq : s.irq d ≠ none := by
      intro hn
      rw [handlerStep, hn] at hst'
      cases hst'
    have hp : b.present d = true := by
      by_contra hn
      exact hirq (hi.away d (Bool.eq_false_iff.mpr hn)).1
    obtain ⟨x, hu, hcall⟩ := handlerStep_frame hst'
    cases o with
    | none => exact absurd (Free.quiet hi.held d hp).irq hirq
    | some h =>
      obtain ⟨o', hs, hheld⟩ := Active.handler hi.serial hi.held hp hst'
      exact ⟨o', hs, hi.away_irq hp hu hcall, hheld⟩

theorem inv_start {r : Dino1Intregs} (hr : b.Clear r) (info : Funcall φ) :
    Inv b (start r info) none where
  serial := .nil
  away _ _ := ⟨rfl, rfl⟩
  held := ⟨rfl, fun _ => .inl rfl, fun d hd => ⟨rfl, hr d hd⟩⟩

theorem exists_inv {r : Dino1Intregs} {info : Funcall φ} {tr : List (CrossCalls φ × CallLabel φ)}
    (hw : b.Wired) (hb : b.smpProcessorsReady = true) (hr : b.Clear r)
    (h : Run (Step b) (start r info) tr s) : ∃ o, Inv b s o := by
  refine h.invariant (P := fun s => ∃ o, Inv b s o) ⟨none, inv_start hr info⟩ ?_
  rintro t l v ⟨o, hi⟩ hst
  exact hi.step hw hb hst

def twoCpus : Smp := ⟨3, 2, id, true⟩

theorem twoCpus_wired : twoCpus.Wired := ⟨by decide, fun _ _ _ _ he => he⟩

theorem clear_quietPals (b : Smp) : b.Clear quietPals := fun _ _ => by simp [quietPals]

def aCall : Funcall Nat := ⟨7, fun i => BitVec.ofNat 32 i⟩

/-- One call made by processor 0, with processor 1 interrupted in it. -/
def oneCall : List (CallLabel Nat) :=
  .call 0 aCall :: List.replicate 14 (.caller 0) ++ .trap 1 :: List.replicate 3 (.handler 1) ++
    List.replicate 5 (.caller 0)

end CrossCalls

end MeikoCs2
