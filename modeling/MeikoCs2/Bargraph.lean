import MeikoCs2.Runs
import MeikoCs2.Accounting

/-! The bargraph driver. It keeps a default pattern going as long as no process
has the special file open. A system call, which holds the kernel lock, and the
timer run on different processors, one elementary step after the other. -/

namespace MeikoCs2

namespace Bargraph

/-- The one table of the four that is compiled in. -/
def patterns : List (BitVec 16) :=
  [0x040f, 0x0417, 0x0513, 0x1151, 0x3150, 0x7140, 0xf020, 0xe820, 0xc8a0, 0x8a88, 0x0a8c, 0x028e]

def patternAt (i : Nat) : BitVec 16 := ~~~patterns.getD (i % patterns.length) 0

/-- `bg_timer`, with the list of the kernel: an `init_timer` of a timer that is
in the list leaves the list broken. -/
inductive Timer where
  | idle
  | queued
  | broken
deriving DecidableEq

inductive Act where
  | delTimer
  | ledsOff
  | usecountUp
  | usecountDown
  | initTimer
  | addTimer
  | showNext
  | wrap
  | unmap
deriving DecidableEq

/-- What the LEDs are made to show and what is read from them, the opening and
the last close of the file, and a call into the unloaded module. -/
inductive Event where
  | opened
  | closed
  | stored (v : BitVec 16)
  | read (v : BitVec 16)
  | shown (v : BitVec 16)
  | wild
deriving DecidableEq

def bgStartPattern : List Act := [.initTimer, .addTimer]

def bgStopPattern : List Act := [.delTimer, .ledsOff]

def bgUpdatePattern : List Act := .showNext :: .wrap :: bgStartPattern

/-- `bg_open`, behind its checks. -/
def bgOpen : List Act := bgStopPattern ++ [.usecountUp]

def bgRelease : List Act := bgStartPattern ++ [.usecountDown]

def cleanupModule : List Act := bgStopPattern ++ [.unmap]

end Bargraph

/-- The driver, with what is left of the system call and of the timer function
that are under way. -/
structure Bargraph where
  usecount : Nat
  mapped : Bool
  mmapped : Bool
  leds : BitVec 16
  next : Nat
  timer : Bargraph.Timer
  call : List Bargraph.Act
  update : List Bargraph.Act
  log : List Bargraph.Event

namespace Bargraph

def exec (a : Act) (s : Bargraph) : Bargraph :=
  match a with
  | .delTimer => { s with timer := if s.timer = .queued then .idle else s.timer }
  | .ledsOff => { s with leds := ~~~0 }
  | .usecountUp => { s with usecount := s.usecount + 1, log := s.log ++ [.opened] }
  | .usecountDown => { s with usecount := s.usecount - 1 }
  | .initTimer => { s with timer := if s.timer = .queued then .broken else s.timer }
  | .addTimer => { s with timer := if s.timer = .idle then .queued else s.timer }
  | .showNext =>
    { s with
      leds := ~~~patterns.getD s.next 0
      next := s.next + 1
      log := s.log ++ [.shown (~~~patterns.getD s.next 0)] }
  | .wrap => { s with next := if s.next = patterns.length then 0 else s.next }
  | .unmap => { s with mapped := false }

@[simp] theorem exec_call (a : Act) (s : Bargraph) : (s.exec a).call = s.call := by cases a <;> rfl

@[simp] theorem exec_update (a : Act) (s : Bargraph) : (s.exec a).update = s.update := by
  cases a <;> rfl

@[simp] theorem exec_mmapped (a : Act) (s : Bargraph) : (s.exec a).mmapped = s.mmapped := by
  cases a <;> rfl

inductive Cmd where
  | bgget
  | bgset (v : BitVec 16)
  | other

def enxio : Int := 6

def pageSize : Nat := 4096

/-- What the checks of `bg_open` return. -/
def bgOpenCheck (s : Bargraph) : Int :=
  if 0 < s.usecount then -ebusy else if !s.mapped then -enxio else 0

def bgIoctl (cmd : Cmd) (fault : Bool) (s : Bargraph) : Bargraph × Int :=
  if !s.mapped then (s, -enxio)
  else match cmd with
    | .bgget => if fault then (s, -efault) else ({ s with log := s.log ++ [.read s.leds] }, 0)
    | .bgset v =>
      if fault then (s, -efault) else ({ s with leds := v, log := s.log ++ [.stored v] }, 0)
    | .other => (s, -einval)

def bgMmap (len offset : Nat) (fails : Bool) (s : Bargraph) : Bargraph × Int :=
  if pageSize < len then (s, -einval)
  else if offset ≠ 0 then (s, -einval)
  else if fails then (s, -eagain)
  else ({ s with mmapped := true }, 0)

/-- `init_module`, with what it finds: whether there is a bargraph, and what
`misc_register` returns. -/
def bgInit (reg : Bool) (misc : Int) (leds : BitVec 16) : Bargraph × Int :=
  let s : Bargraph := ⟨0, false, false, leds, 0, .idle, [], [], []⟩
  if !reg then (s, -1)
  else if misc ≠ 0 then (s, misc)
  else ({ s with mapped := true, call := bgStartPattern }, 0)

inductive Label where
  | open
  | release
  | ioctl (cmd : Cmd) (fault : Bool)
  | mmap (len offset : Nat) (fails : Bool)
  | store (v : BitVec 16)
  | load
  | unload
  | callStep
  | fire
  | updateStep

/-- The kernel calls `bg_release` when the last reference to the open file goes,
that of a mapping included, and does not unload a module that is in use. Timer
functions do not run beside each other. -/
def step (s : Bargraph) : Label → Option Bargraph
  | .open =>
    if s.call = [] then some (if s.bgOpenCheck = 0 then { s with call := bgOpen } else s) else none
  | .release =>
    if s.call = [] ∧ 0 < s.usecount then
      some { s with call := bgRelease, mmapped := false, log := s.log ++ [.closed] }
    else none
  | .ioctl cmd fault =>
    if s.call = [] ∧ 0 < s.usecount then some (s.bgIoctl cmd fault).1 else none
  | .mmap len offset fails =>
    if s.call = [] ∧ 0 < s.usecount then some (s.bgMmap len offset fails).1 else none
  | .store v => if s.mmapped then some { s with leds := v, log := s.log ++ [.stored v] } else none
  | .load => if s.mmapped then some { s with log := s.log ++ [.read s.leds] } else none
  | .unload =>
    if s.call = [] ∧ s.usecount = 0 ∧ s.mapped then some { s with call := cleanupModule } else none
  | .callStep =>
    match s.call with
    | [] => none
    | a :: as => some ({ s with call := as }.exec a)
  | .fire =>
    if s.timer = .queued ∧ s.update = [] then
      some (if s.mapped then { s with timer := .idle, update := bgUpdatePattern }
        else { s with timer := .idle, log := s.log ++ [.wild] })
    else none
  | .updateStep =>
    match s.update with
    | [] => none
    | a :: as =>
      some (if s.mapped then { s with update := as }.exec a
        else { s with update := as, log := s.log ++ [.wild] })

abbrev Step (s : Bargraph) (l : Label) (u : Bargraph) : Prop := s.step l = some u

def holds (o : Option (BitVec 16)) : Event → Option (BitVec 16)
  | .opened => some (~~~0)
  | .closed => none
  | .stored v => some v
  | .read _ => o
  | .shown _ => o
  | .wild => o

/-- What the LEDs are to show for the process that has the file open. -/
def holder (log : List Event) : Option (BitVec 16) := log.foldl holds none

def Event.shows : Event → Option (BitVec 16)
  | .shown v => some v
  | _ => none

/-- The file is opened by one process at a time. -/
def Exclusive (before : List Event) (e : Event) : Prop := e = .opened → holder before = none

/-- The pattern keeps off while a process has the file open, which reads back
what it has stored last, and nothing is called in the unloaded module. -/
def Undisturbed (before : List Event) : Event → Prop
  | .read v => holder before = some v
  | .shown _ => holder before = none
  | .wild => False
  | _ => True

/-- The pattern has just come up over an open file, or the timer function has
just been called in the unloaded module. -/
def Disturbed (log : List Event) : Prop :=
  ∃ before, log = before ++ [.wild] ∨
    ∃ v, log = before ++ [.shown v] ∧ (holder before).isSome = true

/-- The pattern is going, or is just about to be stopped. -/
def running (call : List Act) (usecount : Nat) (mapped : Bool) : Bool :=
  match call with
  | [] => decide (usecount = 0) && mapped
  | .delTimer :: _ => true
  | .usecountDown :: _ => true
  | _ => false

/-- While the pattern is going the timer is either queued or has fired, and
while it is stopped neither. -/
def Orderly (s : Bargraph) : Prop :=
  if running s.call s.usecount s.mapped then
    s.timer = .queued ∧ s.update = [] ∨ s.timer = .idle ∧ s.update ≠ []
  else s.timer = .idle ∧ s.update = []

/-- The timer is deleted while its function is under way. -/
def races (s : Bargraph) : Label → Bool
  | .callStep => decide (s.call.head? = some .delTimer) && !s.update.isEmpty
  | _ => false

def Calm (s : Bargraph) (l : Label) : Prop := s.races l = false

/-- Where the system calls stand, with the count, the mapping and the holder. -/
inductive Stage : List Act → Nat → Bool → Option (BitVec 16) → Prop where
  | starting : Stage [.initTimer, .addTimer] 0 true none
  | started : Stage [.addTimer] 0 true none
  | free : Stage [] 0 true none
  | opening : Stage [.delTimer, .ledsOff, .usecountUp] 0 true none
  | stopped : Stage [.ledsOff, .usecountUp] 0 true none
  | off : Stage [.usecountUp] 0 true none
  | held (v : BitVec 16) : Stage [] 1 true (some v)
  | closing : Stage [.initTimer, .addTimer, .usecountDown] 1 true none
  | resuming : Stage [.addTimer, .usecountDown] 1 true none
  | resumed : Stage [.usecountDown] 1 true none
  | unloading : Stage [.delTimer, .ledsOff, .unmap] 0 true none
  | leaving : Stage [.ledsOff, .unmap] 0 true none
  | dark : Stage [.unmap] 0 true none
  | unloaded : Stage [] 0 false none

/-- What holds of the system calls and of the timer function in every run. -/
structure Standing (s : Bargraph) : Prop where
  stage : Stage s.call s.usecount s.mapped (holder s.log)
  mapping : s.mmapped = true → (holder s.log).isSome = true
  updating : s.update <:+ bgUpdatePattern

theorem holder_concat (log : List Event) (e : Event) :
    holder (log ++ [e]) = holds (holder log) e := by
  rw [holder, List.foldl_append]
  rfl

/-- Whoever reads or stores has the file open, by a call or by the mapping. -/
def Grip (s : Bargraph) : Prop :=
  s.call = [] ∧ 0 < s.usecount ∧ s.mapped = true ∨ s.mmapped = true

inductive Effect (s : Bargraph) : Label → Bargraph → Prop where
  | skip {l : Label} (hl : l ≠ .callStep) : Effect s l s
  | open (hc : s.call = []) (hu : s.usecount = 0) (hm : s.mapped = true) :
      Effect s .open { s with call := bgOpen }
  | release (hc : s.call = []) (hu : 0 < s.usecount) :
      Effect s .release { s with call := bgRelease, mmapped := false, log := s.log ++ [.closed] }
  | store {l : Label} {v : BitVec 16} (hl : l ≠ .callStep) (hg : s.Grip) :
      Effect s l { s with leds := v, log := s.log ++ [.stored v] }
  | read {l : Label} (hl : l ≠ .callStep) (hg : s.Grip) :
      Effect s l { s with log := s.log ++ [.read s.leds] }
  | mmap {len offset : Nat} (hc : s.call = []) (hu : 0 < s.usecount) :
      Effect s (.mmap len offset false) { s with mmapped := true }
  | unload (hc : s.call = []) (hu : s.usecount = 0) (hm : s.mapped = true) :
      Effect s .unload { s with call := cleanupModule }
  | call {a : Act} {as : List Act} (hc : s.call = a :: as) :
      Effect s .callStep ({ s with call := as }.exec a)
  | fire (ht : s.timer = .queued) (hu : s.update = []) (hm : s.mapped = true) :
      Effect s .fire { s with timer := .idle, update := bgUpdatePattern }
  | fireWild (ht : s.timer = .queued) (hu : s.update = []) (hm : s.mapped = false) :
      Effect s .fire { s with timer := .idle, log := s.log ++ [.wild] }
  | update {a : Act} {as : List Act} (hu : s.update = a :: as) (hm : s.mapped = true) :
      Effect s .updateStep ({ s with update := as }.exec a)
  | updateWild {a : Act} {as : List Act} (hu : s.update = a :: as) (hm : s.mapped = false) :
      Effect s .updateStep { s with update := as, log := s.log ++ [.wild] }

theorem bgOpenCheck_eq_zero {s : Bargraph} (h : s.bgOpenCheck = 0) :
    s.usecount = 0 ∧ s.mapped = true := by
  unfold bgOpenCheck at h
  split_ifs at h with hu hm
  · exact absurd h (by decide)
  · exact absurd h (by decide)
  · exact ⟨by omega, by simpa using hm⟩

theorem bgIoctl_effect {s : Bargraph} {l : Label} (hl : l ≠ .callStep) (hc : s.call = [])
    (hu : 0 < s.usecount) (cmd : Cmd) (fault : Bool) : Effect s l (s.bgIoctl cmd fault).1 := by
  unfold bgIoctl
  split
  · exact .skip hl
  · next hm =>
    have hg : s.Grip := .inl ⟨hc, hu, by simpa using hm⟩
    cases cmd with
    | bgget =>
      dsimp only
      split
      · exact .skip hl
      · exact .read hl hg
    | bgset v =>
      dsimp only
      split
      · exact .skip hl
      · exact .store hl hg
    | other => exact .skip hl

theorem Step.effect {s u : Bargraph} {l : Label} (h : Step s l u) : Effect s l u := by
  cases l with
  | «open» =>
    simp only [Step, step] at h
    split_ifs at h with hc ho
    · obtain rfl := Option.some.inj h
      obtain ⟨hu, hm⟩ := bgOpenCheck_eq_zero ho
      exact .open hc hu hm
    · obtain rfl := Option.some.inj h
      exact .skip fun hl => by cases hl
  | release =>
    simp only [Step, step] at h
    split_ifs at h with hc
    obtain rfl := Option.some.inj h
    exact .release hc.1 hc.2
  | ioctl cmd fault =>
    simp only [Step, step] at h
    split_ifs at h with hc
    obtain rfl := Option.some.inj h
    exact bgIoctl_effect (fun hl => by cases hl) hc.1 hc.2 cmd fault
  | mmap len offset fails =>
    simp only [Step, step, bgMmap] at h
    split_ifs at h with hc h₁ h₂ h₃
    · obtain rfl := Option.some.inj h
      exact .skip fun hl => by cases hl
    · obtain rfl := Option.some.inj h
      exact .skip fun hl => by cases hl
    · obtain rfl := Option.some.inj h
      exact .skip fun hl => by cases hl
    · obtain rfl := Option.some.inj h
      obtain rfl : fails = false := by simpa using h₃
      exact .mmap hc.1 hc.2
  | store v =>
    simp only [Step, step] at h
    split_ifs at h with hm
    obtain rfl := Option.some.inj h
    exact .store (fun hl => by cases hl) (.inr hm)
  | load =>
    simp only [Step, step] at h
    split_ifs at h with hm
    obtain rfl := Option.some.inj h
    exact .read (fun hl => by cases hl) (.inr hm)
  | unload =>
    simp only [Step, step] at h
    split_ifs at h with hc
    obtain rfl := Option.some.inj h
    exact .unload hc.1 hc.2.1 hc.2.2
  | callStep =>
    simp only [Step, step] at h
    split at h
    · cases h
    · next hc =>
      obtain rfl := Option.some.inj h
      exact .call hc
  | fire =>
    simp only [Step, step] at h
    split_ifs at h with hf hm
    · obtain rfl := Option.some.inj h
      exact .fire hf.1 hf.2 hm
    · obtain rfl := Option.some.inj h
      exact .fireWild hf.1 hf.2 (by simpa using hm)
  | updateStep =>
    simp only [Step, step] at h
    split at h
    · cases h
    · next hu =>
      split_ifs at h with hm
      · obtain rfl := Option.some.inj h
        exact .update hu hm
      · obtain rfl := Option.some.inj h
        exact .updateWild hu (by simpa using hm)

namespace Stage

variable {call as : List Act} {a : Act} {n : Nat} {m : Bool} {o : Option (BitVec 16)}

theorem held_of_pos (h : Stage [] n m o) (hn : 0 < n) : ∃ v, o = some v := by
  cases h with
  | held v => exact ⟨v, rfl⟩
  | _ => cases hn

theorem of_holder {v : BitVec 16} (h : Stage call n m (some v)) :
    call = [] ∧ n = 1 ∧ m = true := by
  cases h
  exact ⟨rfl, rfl, rfl⟩

theorem of_running (h : Stage call n m o) (hr : running call n m = true) :
    m = true ∧ o = none := by
  cases h <;> first | exact ⟨rfl, rfl⟩ | cases hr

/-- The next step of a system call. -/
theorem exec {s : Bargraph} (h : Stage (a :: as) s.usecount s.mapped (holder s.log)) :
    Stage as (s.exec a).usecount (s.exec a).mapped (holder (s.exec a).log) := by
  generalize hn : s.usecount = n at h
  generalize hm : s.mapped = m at h
  generalize ho : holder s.log = o at h
  cases h with
  | off =>
    simp only [Bargraph.exec, holder_concat, holds, hn, hm]
    exact .held _
  | _ =>
    simp only [Bargraph.exec, hn, hm, ho]
    constructor

theorem calling (h : Stage (a :: as) n m o) : m = true ∧ o = none ∧ a ∉ [.showNext, .wrap] := by
  cases h <;> exact ⟨rfl, rfl, by decide⟩

/-- The LEDs have just been switched off. -/
theorem ledsOff_of (h : Stage (a :: as) n m o) (has : as = [.usecountUp] ∨ as = [.unmap]) :
    a = .ledsOff := by
  cases h <;> first | rfl | simp at has

theorem last (h : Stage (a :: as) n m o) (ha : a = .usecountUp ∨ a = .unmap) : as = [] := by
  cases h <;> first | rfl | simp at ha

end Stage

theorem updating_cases {a : Act} {as : List Act} (h : a :: as <:+ bgUpdatePattern) :
    a = .showNext ∧ as = [.wrap, .initTimer, .addTimer] ∨ a = .wrap ∧ as = [.initTimer, .addTimer] ∨
      a = .initTimer ∧ as = [.addTimer] ∨ a = .addTimer ∧ as = [] := by
  simp only [bgUpdatePattern, bgStartPattern, List.suffix_cons_iff, List.cons.injEq,
    List.suffix_nil, List.cons_ne_nil, or_false] at h
  exact h

/-- The timer function changes neither the calls nor who has the file open. -/
theorem exec_updating {a : Act} {as : List Act} (h : a :: as <:+ bgUpdatePattern) (s : Bargraph) :
    (s.exec a).usecount = s.usecount ∧ (s.exec a).mapped = s.mapped ∧
      holder (s.exec a).log = holder s.log := by
  rcases updating_cases h with ⟨rfl, -⟩ | ⟨rfl, -⟩ | ⟨rfl, -⟩ | ⟨rfl, -⟩
  · exact ⟨rfl, rfl, holder_concat _ _⟩
  all_goals exact ⟨rfl, rfl, rfl⟩

/-- Its last step queues the timer again. -/
theorem exec_updating_timer {a : Act} {as : List Act} (h : a :: as <:+ bgUpdatePattern)
    {s : Bargraph} (ht : s.timer = .idle) :
    (s.exec a).timer = .queued ∧ as = [] ∨ (s.exec a).timer = .idle ∧ as ≠ [] := by
  rcases updating_cases h with ⟨rfl, rfl⟩ | ⟨rfl, rfl⟩ | ⟨rfl, rfl⟩ | ⟨rfl, rfl⟩
  · exact .inr ⟨ht, List.cons_ne_nil _ _⟩
  · exact .inr ⟨ht, List.cons_ne_nil _ _⟩
  · exact .inr ⟨by simp [exec, ht], List.cons_ne_nil _ _⟩
  · exact .inl ⟨by simp [exec, ht], rfl⟩

namespace Standing

variable {s u : Bargraph} {l : Label}

theorem holder_open (hs : Standing s) (hc : s.call = []) (hu : 0 < s.usecount) :
    (holder s.log).isSome = true := by
  have hst := hs.stage
  rw [hc] at hst
  obtain ⟨v, hv⟩ := hst.held_of_pos hu
  rw [hv]
  rfl

theorem holder_of_grip (hs : Standing s) (hg : s.Grip) : (holder s.log).isSome = true := by
  rcases hg with ⟨hc, hu, -⟩ | hm
  · exact hs.holder_open hc hu
  · exact hs.mapping hm

/-- While the file is open no system call is under way, and the pattern is stopped. -/
theorem held (hs : Standing s) (ho : (holder s.log).isSome = true) :
    s.call = [] ∧ s.usecount = 1 ∧ s.mapped = true := by
  obtain ⟨v, hv⟩ := Option.isSome_iff_exists.mp ho
  have hst := hs.stage
  rw [hv] at hst
  exact hst.of_holder

theorem holder_free (hs : Standing s) (hu : s.usecount = 0) : holder s.log = none := by
  by_contra hne
  obtain ⟨-, h₁, -⟩ := hs.held (Option.isSome_iff_ne_none.mpr hne)
  omega

theorem holder_calling (hs : Standing s) {a : Act} {as : List Act} (hc : s.call = a :: as) :
    holder s.log = none := by
  by_contra hne
  obtain ⟨h₁, -, -⟩ := hs.held (Option.isSome_iff_ne_none.mpr hne)
  rw [hc] at h₁
  cases h₁

/-- What the next step of a system call does to the pattern. -/
theorem running_call (hs : Standing s) {a : Act} {as : List Act} (hc : s.call = a :: as)
    (hu : { s with call := as }.exec a = u) :
    running u.call u.usecount u.mapped =
      if a = .delTimer then false else if a = .addTimer then true
      else running s.call s.usecount s.mapped := by
  have hst := hs.stage
  rw [hc] at hst ⊢
  rw [← hu, exec_call]
  obtain ⟨usecount, mapped, _, _, _, _, _, _, log⟩ := s
  dsimp only at hst
  generalize holder log = o at hst
  cases hst <;> rfl

theorem suffix (hs : Standing s) {a : Act} {as : List Act} (hu : s.update = a :: as) :
    a :: as <:+ bgUpdatePattern := by
  rw [← hu]
  exact hs.updating

theorem step (hs : Standing s) (h : Effect s l u) : Standing u := by
  cases h with
  | skip _ => exact hs
  | «open» hc hu hm =>
    refine ⟨?_, hs.mapping, hs.updating⟩
    have ho := hs.holder_free hu
    change Stage bgOpen s.usecount s.mapped (holder s.log)
    rw [hu, hm, ho]
    exact .opening
  | release hc hu =>
    obtain ⟨-, h₁, hm⟩ := hs.held (hs.holder_open hc hu)
    refine ⟨?_, fun hmm => Bool.noConfusion hmm, hs.updating⟩
    change Stage bgRelease s.usecount s.mapped (holder (s.log ++ [.closed]))
    rw [holder_concat, h₁, hm]
    exact .closing
  | @store _ v _ hg =>
    obtain ⟨hc, h₁, hm⟩ := hs.held (hs.holder_of_grip hg)
    have ho := holder_concat s.log (.stored v)
    refine ⟨?_, fun _ => ?_, hs.updating⟩
    · change Stage s.call s.usecount s.mapped (holder (s.log ++ [.stored v]))
      rw [ho, hc, h₁, hm]
      exact .held v
    · change (holder (s.log ++ [.stored v])).isSome = true
      rw [ho]
      rfl
  | read _ hg =>
    have ho := holder_concat s.log (.read s.leds)
    refine ⟨?_, fun _ => ?_, hs.updating⟩
    · change Stage s.call s.usecount s.mapped (holder (s.log ++ [.read s.leds]))
      rw [ho]
      exact hs.stage
    · change (holder (s.log ++ [.read s.leds])).isSome = true
      rw [ho]
      exact hs.holder_of_grip hg
  | mmap hc hu => exact ⟨hs.stage, fun _ => hs.holder_open hc hu, hs.updating⟩
  | unload hc hu hm =>
    refine ⟨?_, hs.mapping, hs.updating⟩
    have ho := hs.holder_free hu
    change Stage cleanupModule s.usecount s.mapped (holder s.log)
    rw [hu, hm, ho]
    exact .unloading
  | call hc =>
    have hst := hs.stage
    rw [hc] at hst
    refine ⟨?_, fun hm => ?_, ?_⟩
    · rw [exec_call]
      exact Stage.exec (s := { s with call := _ }) hst
    · rw [exec_mmapped] at hm
      have hsome := hs.mapping hm
      rw [hs.holder_calling hc] at hsome
      cases hsome
    · rw [exec_update]
      exact hs.updating
  | fire _ _ _ => exact ⟨hs.stage, hs.mapping, List.suffix_rfl⟩
  | fireWild _ _ _ =>
    refine ⟨?_, ?_, hs.updating⟩
    · change Stage s.call s.usecount s.mapped (holder (s.log ++ [.wild]))
      rw [holder_concat]
      exact hs.stage
    · change s.mmapped = true → (holder (s.log ++ [.wild])).isSome = true
      rw [holder_concat]
      exact hs.mapping
  | @update a as hu _ =>
    have hsuf := hs.suffix hu
    obtain ⟨h₁, h₂, h₃⟩ := exec_updating hsuf { s with update := as }
    refine ⟨?_, ?_, ?_⟩
    · rw [exec_call, h₁, h₂, h₃]
      exact hs.stage
    · rw [exec_mmapped, h₃]
      exact hs.mapping
    · rw [exec_update]
      exact (List.suffix_cons a as).trans hsuf
  | @updateWild a as hu _ =>
    have hsuf := hs.suffix hu
    have ho := holder_concat s.log .wild
    refine ⟨?_, ?_, (List.suffix_cons a as).trans hsuf⟩
    · change Stage s.call s.usecount s.mapped (holder (s.log ++ [.wild]))
      rw [ho]
      exact hs.stage
    · change s.mmapped = true → (holder (s.log ++ [.wild])).isSome = true
      rw [ho]
      exact hs.mapping

end Standing

theorem races_of_ne {s : Bargraph} {l : Label} (hl : l ≠ .callStep) : s.races l = false := by
  cases l with
  | callStep => exact absurd rfl hl
  | _ => rfl

namespace Orderly

variable {s u : Bargraph} {l : Label}

theorem going (h : Orderly s) (hr : running s.call s.usecount s.mapped = true) :
    s.timer = .queued ∧ s.update = [] ∨ s.timer = .idle ∧ s.update ≠ [] := by
  rwa [Orderly, if_pos hr] at h

theorem still (h : Orderly s) (hr : running s.call s.usecount s.mapped = false) :
    s.timer = .idle ∧ s.update = [] := by
  rwa [Orderly, if_neg (by rw [hr]; exact Bool.false_ne_true)] at h

theorem of_going (hr : running s.call s.usecount s.mapped = true)
    (h : s.timer = .queued ∧ s.update = [] ∨ s.timer = .idle ∧ s.update ≠ []) : Orderly s := by
  rwa [Orderly, if_pos hr]

theorem of_still (hr : running s.call s.usecount s.mapped = false)
    (h : s.timer = .idle ∧ s.update = []) : Orderly s := by
  rwa [Orderly, if_neg (by rw [hr]; exact Bool.false_ne_true)]

theorem congr (h : Orderly s) (ht : u.timer = s.timer) (hu : u.update = s.update)
    (hr : running u.call u.usecount u.mapped = running s.call s.usecount s.mapped) :
    Orderly u := by
  rwa [Orderly, ht, hu, hr]

/-- The pattern is going where its timer is queued or its function under way. -/
theorem running_of (h : Orderly s) (hn : s.timer = .queued ∨ s.update ≠ []) :
    running s.call s.usecount s.mapped = true := by
  by_contra hr
  obtain ⟨ht, hu⟩ := h.still (Bool.eq_false_iff.mpr hr)
  rcases hn with hn | hn
  · rw [ht] at hn
    cases hn
  · exact hn hu

theorem running_updating (h : Orderly s) {a : Act} {as : List Act} (hu : s.update = a :: as) :
    running s.call s.usecount s.mapped = true := by
  refine h.running_of (.inr ?_)
  rw [hu]
  exact List.cons_ne_nil a as

/-- Nothing is left behind in the unloaded module. -/
theorem unloaded (h : Orderly s) (hs : Standing s) (hm : s.mapped = false) :
    s.timer = .idle ∧ s.update = [] := by
  refine h.still (Bool.eq_false_iff.mpr fun hr => ?_)
  rw [(hs.stage.of_running hr).1] at hm
  cases hm

theorem not_queued (h : Orderly s) (hs : Standing s) (hm : s.mapped = false) :
    s.timer ≠ .queued := by
  rw [(h.unloaded hs hm).1]
  exact Timer.noConfusion

theorem not_updating (h : Orderly s) (hs : Standing s) (hm : s.mapped = false) {a : Act}
    {as : List Act} : s.update ≠ a :: as := by
  rw [(h.unloaded hs hm).2]
  exact (List.cons_ne_nil a as).symm

/-- The step of a system call. -/
theorem call_iff {a : Act} {as : List Act} (h : Orderly s) (hs : Standing s)
    (hc : s.call = a :: as) (hu : { s with call := as }.exec a = u) :
    Orderly u ↔ s.races .callStep = false := by
  have hnext := hs.running_call hc hu
  have hrace : a ≠ .delTimer → s.races .callStep = false := fun ha => by
    simp [races, hc, ha]
  have hup : u.update = s.update := by rw [← hu, exec_update]
  cases a with
  | delTimer =>
    have hgo := h.going (by rw [hc]; rfl)
    have hidle : u.timer = .idle := by
      rw [← hu]
      rcases hgo with ⟨ht, -⟩ | ⟨ht, -⟩ <;> simp [exec, ht]
    rw [Orderly, hnext, hidle, hup]
    simp [races, hc]
  | addTimer =>
    obtain ⟨ht, hz⟩ := h.still (by rw [hc]; rfl)
    refine iff_of_true (of_going hnext (.inl ⟨?_, hup.trans hz⟩)) (hrace (by decide))
    rw [← hu]
    simp [exec, ht]
  | initTimer =>
    obtain ⟨ht, hz⟩ := h.still (by rw [hc]; rfl)
    refine iff_of_true (of_still (hnext.trans (by rw [hc]; rfl)) ⟨?_, hup.trans hz⟩)
      (hrace (by decide))
    rw [← hu]
    simp [exec, ht]
  | _ =>
    refine iff_of_true (h.congr ?_ hup hnext) (hrace (by decide))
    rw [← hu]
    rfl

theorem step_iff (h : Orderly s) (hs : Standing s) (he : Effect s l u) :
    Orderly u ↔ s.races l = false := by
  cases he with
  | skip hl => exact iff_of_true h (races_of_ne hl)
  | «open» hc hu hm =>
    refine iff_of_true (h.congr rfl rfl ?_) rfl
    rw [hc, hu, hm]
    rfl
  | release hc hu =>
    refine iff_of_true (h.congr rfl rfl ?_) rfl
    obtain ⟨-, h₁, -⟩ := hs.held (hs.holder_open hc hu)
    rw [hc, h₁]
    rfl
  | store hl _ => exact iff_of_true (h.congr rfl rfl rfl) (races_of_ne hl)
  | read hl _ => exact iff_of_true (h.congr rfl rfl rfl) (races_of_ne hl)
  | mmap _ _ => exact iff_of_true (h.congr rfl rfl rfl) rfl
  | unload hc hu hm =>
    refine iff_of_true (h.congr rfl rfl ?_) rfl
    rw [hc, hu, hm]
    rfl
  | call hc => exact h.call_iff hs hc rfl
  | fire ht hu hm =>
    refine iff_of_true (of_going (h.running_of (.inl ht)) (.inr ⟨rfl, ?_⟩)) rfl
    exact List.cons_ne_nil _ _
  | fireWild ht _ hm => exact absurd ht (h.not_queued hs hm)
  | @update a as hu hm =>
    have hr := h.running_updating hu
    have hsuf := hs.suffix hu
    obtain ⟨h₁, h₂, -⟩ := exec_updating hsuf { s with update := as }
    rcases h.going hr with ⟨-, hz⟩ | ⟨ht, -⟩
    · exact absurd (hu.symm.trans hz) (List.cons_ne_nil a as)
    refine iff_of_true (of_going ?_ ?_) rfl
    · rw [exec_call, h₁, h₂]
      exact hr
    · rw [exec_update]
      exact exec_updating_timer hsuf ht
  | updateWild hu hm => exact absurd hu (h.not_updating hs hm)

end Orderly

/-- What the LEDs show: the value of the process that has the file open, and
nothing when they have been switched off. -/
structure Kept (s : Bargraph) : Prop where
  held : ∀ v, holder s.log = some v → s.leds = v
  off : s.call = [.usecountUp] ∨ s.call = [.unmap] ∨ s.mapped = false → s.leds = ~~~0

namespace Kept

variable {s u : Bargraph} {l : Label}

theorem call {a : Act} {as : List Act} (hk : Kept s) (hs : Standing s) (hc : s.call = a :: as)
    (hu : { s with call := as }.exec a = u) : Kept u := by
  have hst := hs.stage
  rw [hc] at hst
  obtain ⟨hm, ho, -⟩ := hst.calling
  refine ⟨fun v hv => ?_, fun hoff => ?_⟩
  · cases a with
    | usecountUp =>
      have has := hst.last (.inl rfl)
      rw [← hu] at hv ⊢
      have hz : some (~~~0) = some v := (holder_concat s.log .opened).symm.trans hv
      rw [← Option.some.inj hz]
      exact hk.off (.inl (by rw [hc, has]))
    | showNext =>
      rw [← hu] at hv
      have hz := (holder_concat s.log _).symm.trans hv
      rw [ho] at hz
      cases hz
    | _ =>
      rw [← hu] at hv
      have hz : holder s.log = some v := hv
      rw [ho] at hz
      cases hz
  · have hcall : u.call = as := by rw [← hu, exec_call]
    rw [hcall, ← or_assoc] at hoff
    rcases hoff with hoff | hoff
    · obtain rfl := hst.ledsOff_of hoff
      rw [← hu]
      rfl
    · cases a with
      | unmap =>
        have has := hst.last (.inr rfl)
        rw [← hu]
        exact hk.off (.inr (.inl (by rw [hc, has])))
      | _ =>
        rw [← hu] at hoff
        have hz : s.mapped = false := hoff
        rw [hm] at hz
        cases hz

/-- Before the last step of an opening or an unloading only the mapping counts. -/
theorem off_of (hk : Kept s) (call : List Act) (hc : call ∉ [[.usecountUp], [.unmap]])
    (hoff : call = [.usecountUp] ∨ call = [.unmap] ∨ s.mapped = false) : s.leds = ~~~0 := by
  rw [List.mem_cons, List.mem_singleton, not_or] at hc
  rcases hoff with h | h | h
  · exact absurd h hc.1
  · exact absurd h hc.2
  · exact hk.off (.inr (.inr h))

theorem step (hk : Kept s) (hs : Standing s) (ho : Orderly s) (h : Effect s l u) : Kept u := by
  cases h with
  | skip _ => exact hk
  | «open» _ _ _ => exact ⟨hk.held, hk.off_of bgOpen (by decide)⟩
  | release _ _ =>
    refine ⟨fun v hv => ?_, fun hoff => ?_⟩
    · have hz : none = some v := (holder_concat s.log .closed).symm.trans hv
      cases hz
    · exact hk.off_of bgRelease (by decide) hoff
  | @store _ v _ hg =>
    obtain ⟨hc, -, hm⟩ := hs.held (hs.holder_of_grip hg)
    refine ⟨fun w hw => ?_, fun hoff => ?_⟩
    · have hz : some v = some w := (holder_concat s.log (.stored v)).symm.trans hw
      exact Option.some.inj hz
    · rcases hoff with hc' | hc' | hm'
      · exact absurd (hc.symm.trans hc') (by simp)
      · exact absurd (hc.symm.trans hc') (by simp)
      · exact absurd (hm.symm.trans hm') (by simp)
  | read _ _ => exact ⟨fun v hv => hk.held v ((holder_concat _ _).symm.trans hv), hk.off⟩
  | mmap _ _ => exact ⟨hk.held, hk.off⟩
  | unload _ _ _ => exact ⟨hk.held, hk.off_of cleanupModule (by decide)⟩
  | call hc => exact hk.call hs hc rfl
  | fire _ _ _ => exact ⟨hk.held, hk.off⟩
  | fireWild ht _ hm => exact absurd ht (ho.not_queued hs hm)
  | @update a as hu _ =>
    have hr := ho.running_updating hu
    obtain ⟨hm, hn⟩ := hs.stage.of_running hr
    have hsuf := hs.suffix hu
    obtain ⟨-, h₂, h₃⟩ := exec_updating hsuf { s with update := as }
    refine ⟨fun v hv => ?_, fun hoff => ?_⟩
    · rw [h₃] at hv
      exact absurd (hn.symm.trans hv) (by simp)
    · rw [exec_call, h₂] at hoff
      rcases hoff with hc | hc | hm'
      · rw [show s.call = _ from hc] at hr
        cases hr
      · rw [show s.call = _ from hc] at hr
        cases hr
      · exact absurd (hm.symm.trans hm') (by simp)
  | updateWild hu hm => exact absurd hu (ho.not_updating hs hm)

end Kept

theorem Effect.exclusive {s u : Bargraph} {l : Label} (h : Effect s l u) (hs : Standing s)
    (hx : Lawful Exclusive s.log) : Lawful Exclusive u.log := by
  cases h with
  | release _ _ => exact hx.concat fun he => by cases he
  | store _ _ => exact hx.concat fun he => by cases he
  | read _ _ => exact hx.concat fun he => by cases he
  | @call a as hc =>
    cases a with
    | usecountUp => exact hx.concat fun _ => hs.holder_calling hc
    | showNext => exact hx.concat fun he => by cases he
    | _ => exact hx
  | fireWild _ _ _ => exact hx.concat fun he => by cases he
  | @update a as hu _ =>
    have hsuf := hs.suffix hu
    rcases updating_cases hsuf with ⟨rfl, -⟩ | ⟨rfl, -⟩ | ⟨rfl, -⟩ | ⟨rfl, -⟩
    · exact hx.concat fun he => by cases he
    all_goals exact hx
  | updateWild _ _ => exact hx.concat fun he => by cases he
  | _ => exact hx

theorem Effect.undisturbed {s u : Bargraph} {l : Label} (h : Effect s l u) (hs : Standing s)
    (ho : Orderly s) (hk : Kept s) (hx : Lawful Undisturbed s.log) : Lawful Undisturbed u.log := by
  cases h with
  | release _ _ => exact hx.concat trivial
  | store _ _ => exact hx.concat trivial
  | read _ hg =>
    obtain ⟨v, hv⟩ := Option.isSome_iff_exists.mp (hs.holder_of_grip hg)
    refine hx.concat ?_
    rw [hk.held v hv]
    exact hv
  | @call a as hc =>
    cases a with
    | usecountUp => exact hx.concat trivial
    | showNext => exact hx.concat (hs.holder_calling hc)
    | _ => exact hx
  | fireWild ht _ hm => exact absurd ht (ho.not_queued hs hm)
  | @update a as hu _ =>
    have hsuf := hs.suffix hu
    rcases updating_cases hsuf with ⟨rfl, -⟩ | ⟨rfl, -⟩ | ⟨rfl, -⟩ | ⟨rfl, -⟩
    · exact hx.concat (hs.stage.of_running (ho.running_updating hu)).2
    all_goals exact hx
  | updateWild hu hm => exact absurd hu (ho.not_updating hs hm)
  | _ => exact hx

/-! The default pattern. -/

/-- The index of the next pattern, after `k` of them. -/
def InCycle (s : Bargraph) (k : Nat) : Prop :=
  s.update.head? = some .wrap ∧ 0 < k ∧ s.next = (k - 1) % patterns.length + 1 ∨
    s.update.head? ≠ some .wrap ∧ s.next = k % patterns.length

/-- The patterns have come in turn. -/
def Cycling (s : Bargraph) : Prop :=
  ∃ k, s.log.filterMap Event.shows = (List.range k).map patternAt ∧ (s.mapped = true → InCycle s k)

namespace Cycling

variable {s u : Bargraph} {l : Label}

theorem frame (h : Cycling s) (hl : u.log.filterMap Event.shows = s.log.filterMap Event.shows)
    (hn : u.next = s.next) (hu : u.update.head? = s.update.head?)
    (hm : u.mapped = true → s.mapped = true) : Cycling u := by
  obtain ⟨k, hk, hc⟩ := h
  refine ⟨k, hl.trans hk, fun hm' => ?_⟩
  rw [InCycle, hn, hu]
  exact hc (hm hm')

theorem shows_concat (log : List Event) {e : Event} (he : e.shows = none) :
    (log ++ [e]).filterMap Event.shows = log.filterMap Event.shows := by
  rw [List.filterMap_append, List.filterMap_cons_none he]
  exact List.append_nil _

theorem update {a : Act} {as : List Act} (h : Cycling s) (hu : s.update = a :: as)
    (hm : s.mapped = true) (hsuf : a :: as <:+ bgUpdatePattern) :
    Cycling ({ s with update := as }.exec a) := by
  obtain ⟨k, hk, hc⟩ := h
  have hin := hc hm
  have hlen : patterns.length = 12 := rfl
  rw [InCycle, hu] at hin
  rcases updating_cases hsuf with ⟨rfl, rfl⟩ | ⟨rfl, rfl⟩ | ⟨rfl, rfl⟩ | ⟨rfl, rfl⟩
  · -- the next pattern is shown
    obtain ⟨hw, -⟩ | ⟨-, hnext⟩ := hin
    · exact absurd hw (by decide)
    refine ⟨k + 1, ?_, fun _ => .inl ⟨rfl, Nat.succ_pos k, ?_⟩⟩
    · change (s.log ++ [Event.shown (~~~patterns.getD s.next 0)]).filterMap Event.shows = _
      rw [List.filterMap_append, hk, List.range_succ, List.map_append, hnext]
      rfl
    · change s.next + 1 = _
      rw [hnext, Nat.add_sub_cancel]
  · -- the index wraps
    obtain ⟨-, hpos, hnext⟩ | ⟨hw, -⟩ := hin
    · refine ⟨k, hk, fun _ => .inr ⟨(fun hw => by cases hw), ?_⟩⟩
      change (if s.next = patterns.length then 0 else s.next) = _
      rw [hnext, hlen]
      split_ifs <;> omega
    · exact absurd rfl hw
  · obtain ⟨hw, -⟩ | ⟨-, hnext⟩ := hin
    · exact absurd hw (by decide)
    exact ⟨k, hk, fun _ => .inr ⟨(fun hw => by cases hw), hnext⟩⟩
  · obtain ⟨hw, -⟩ | ⟨-, hnext⟩ := hin
    · exact absurd hw (by decide)
    exact ⟨k, hk, fun _ => .inr ⟨(fun hw => by cases hw), hnext⟩⟩

theorem step (h : Cycling s) (hs : Standing s) (he : Effect s l u) : Cycling u := by
  cases he with
  | release _ _ => exact h.frame (shows_concat _ rfl) rfl rfl id
  | store _ _ => exact h.frame (shows_concat _ rfl) rfl rfl id
  | read _ _ => exact h.frame (shows_concat _ rfl) rfl rfl id
  | @call a as hc =>
    have hst := hs.stage
    rw [hc] at hst
    obtain ⟨hm, -, hna⟩ := hst.calling
    have hupdate : ({ s with call := as }.exec a).update.head? = s.update.head? := by
      rw [exec_update]
    cases a with
    | usecountUp => exact h.frame (shows_concat _ rfl) rfl hupdate id
    | showNext => exact absurd List.mem_cons_self hna
    | wrap => exact absurd (List.mem_cons_of_mem _ List.mem_cons_self) hna
    | _ => exact h.frame rfl rfl hupdate fun _ => hm
  | fire _ hu _ =>
    obtain ⟨k, hk, hc⟩ := h
    refine ⟨k, hk, fun hm => .inr ⟨(fun hw => by cases hw), ?_⟩⟩
    rcases hc hm with ⟨hw, -⟩ | ⟨-, hnext⟩
    · rw [hu] at hw
      cases hw
    · exact hnext
  | fireWild _ _ _ => exact h.frame (shows_concat _ rfl) rfl rfl id
  | update hu hm =>
    have hsuf := hs.suffix hu
    exact h.update hu hm hsuf
  | updateWild _ hm =>
    obtain ⟨k, hk, -⟩ := h
    refine ⟨k, (shows_concat _ rfl).trans hk, fun hm' => ?_⟩
    rw [show s.mapped = true from hm'] at hm
    cases hm
  | _ => exact h.frame rfl rfl rfl id

end Cycling

/-- The module has been registered, and `bg_start_pattern` comes next. -/
def Starts (s : Bargraph) : Prop := ∃ leds, s = (bgInit true 0 leds).1

section Run

variable {s₀ s u : Bargraph} {tr : List (Bargraph × Label)} {l : Label}

theorem Starts.standing (h : Starts s) : Standing s ∧ Orderly s ∧ Kept s := by
  obtain ⟨leds, rfl⟩ := h
  have hs : Standing (bgInit true 0 leds).1 :=
    ⟨.starting, (fun hm => by cases hm), List.nil_suffix⟩
  refine ⟨hs, ⟨rfl, rfl⟩, (fun v hv => by cases hv), fun hoff => ?_⟩
  rcases hoff with h | h | h <;> cases h

theorem run_standing (h₀ : Starts s₀) (h : Run Step s₀ tr s) :
    Standing s ∧ Lawful Exclusive s.log ∧ Cycling s := by
  obtain ⟨hs, -, -⟩ := h₀.standing
  refine h.invariant (P := fun s => Standing s ∧ Lawful Exclusive s.log ∧ Cycling s) ?_ ?_
  · obtain ⟨leds, rfl⟩ := h₀
    exact ⟨hs, .nil, 0, rfl, fun _ => .inr ⟨(fun hw => by cases hw), rfl⟩⟩
  · rintro t l v ⟨hs, hx, hc⟩ hst
    exact ⟨hs.step hst.effect, hst.effect.exclusive hs hx, hc.step hs hst.effect⟩

/-- The timer and its function are in order exactly in the runs that have no race. -/
theorem run_orderly_iff (h₀ : Starts s₀) (h : Run Step s₀ tr s) :
    ((∀ x ∈ tr, Orderly x.1) ∧ Orderly s) ↔ ∀ x ∈ tr, Calm x.1 x.2 := by
  obtain ⟨hs, ho, -⟩ := h₀.standing
  have hall := h.invariant_all hs fun t l v ht hst => ht.step hst.effect
  have hstep : ∀ t l v, Standing t ∧ Orderly t → Step t l v →
      (Standing v ∧ Orderly v ↔ Calm t l) := by
    intro t l v ht hst
    rw [Calm, ← ht.2.step_iff ht.1 hst.effect]
    exact and_iff_right (ht.1.step hst.effect)
  have hiff := h.forall_ok_iff (P := fun s => Standing s ∧ Orderly s) ⟨hs, ho⟩ hstep
  rw [← hiff]
  exact ⟨fun h => ⟨fun x hx => ⟨hall.1 x hx, h.1 x hx⟩, hall.2, h.2⟩,
    fun h => ⟨fun x hx => (h.1 x hx).2, h.2.2⟩⟩

theorem run_kept (h₀ : Starts s₀) (h : Run Step s₀ tr s) (hr : ∀ x ∈ tr, Calm x.1 x.2) :
    Kept s ∧ Lawful Undisturbed s.log := by
  obtain ⟨hs, ho, hk⟩ := h₀.standing
  have hx : Lawful Undisturbed s₀.log := by
    obtain ⟨leds, rfl⟩ := h₀
    exact .nil
  have hinv : Standing s ∧ Orderly s ∧ Kept s ∧ Lawful Undisturbed s.log := by
    refine h.invariant_of (P := fun s => Standing s ∧ Orderly s ∧ Kept s ∧ Lawful Undisturbed s.log)
      ⟨hs, ho, hk, hx⟩ ?_ hr
    rintro t l v ⟨hs, ho, hk, hx⟩ hl hst
    have he := hst.effect
    exact ⟨hs.step he, (ho.step_iff hs he).mpr hl, hk.step hs ho he, he.undisturbed hs ho hk hx⟩
  exact hinv.2.2

theorem disturbed_of_opened (log : List Event) (v : BitVec 16) :
    Disturbed (log ++ [.opened] ++ [.shown v]) := by
  refine ⟨log ++ [.opened], .inr ⟨v, rfl, ?_⟩⟩
  rw [holder_concat]
  rfl

theorem Disturbed.not_lawful {log : List Event} (h : Disturbed log) : ¬ Lawful Undisturbed log := by
  intro hx
  obtain ⟨before, rfl | ⟨v, rfl, ho⟩⟩ := h
  · exact hx before .wild [] rfl
  · have hn : holder before = none := hx before (.shown v) [] rfl
    rw [hn] at ho
    cases ho

/-- After a race the pattern can come up while a process has the file open, or
the function be called in the unloaded module. -/
theorem race_disturbs (hs : Standing s) (ho : Orderly s) (hr : ¬ Calm s l) (hst : Step s l u) :
    ∃ ls v, Path Step u ls v ∧ Disturbed v.log := by
  have hl : l = .callStep := by
    by_contra hl
    exact hr (races_of_ne hl)
  subst hl
  have hhead : s.call.head? = some .delTimer ∧ s.update ≠ [] := by
    simpa [Calm, races] using hr
  obtain ⟨hhead, hne⟩ := hhead
  obtain ⟨as, hc⟩ := List.head?_eq_some_iff.mp hhead
  obtain ⟨ht, -⟩ : s.timer = .idle ∧ s.update ≠ [] := by
    rcases ho.going (by rw [hc]; rfl) with ⟨-, hz⟩ | hgo
    · exact absurd hz hne
    · exact hgo
  obtain ⟨a, bs, hu⟩ := List.exists_cons_of_ne_nil hne
  have hsuf := hs.updating
  have hstage := hs.stage
  obtain ⟨usecount, mapped, mmapped, leds, next, timer, call, update, log⟩ := s
  dsimp only at hc ht hu hsuf hstage
  subst hc ht hu
  generalize holder log = o at hstage
  cases hstage with
  | opening =>
    obtain rfl := Option.some.inj hst
    rcases updating_cases hsuf with ⟨rfl, rfl⟩ | ⟨rfl, rfl⟩ | ⟨rfl, rfl⟩ | ⟨rfl, rfl⟩
    · exact ⟨_, _, .cons (l := .callStep) rfl <| .cons (l := .callStep) rfl <|
        .cons (l := .updateStep) rfl <| .nil _, disturbed_of_opened log _⟩
    · exact ⟨_, _, .cons (l := .callStep) rfl <| .cons (l := .callStep) rfl <|
        .cons (l := .updateStep) rfl <| .cons (l := .updateStep) rfl <|
        .cons (l := .updateStep) rfl <| .cons (l := .fire) rfl <|
        .cons (l := .updateStep) rfl <| .nil _, disturbed_of_opened log _⟩
    · exact ⟨_, _, .cons (l := .callStep) rfl <| .cons (l := .callStep) rfl <|
        .cons (l := .updateStep) rfl <| .cons (l := .updateStep) rfl <|
        .cons (l := .fire) rfl <| .cons (l := .updateStep) rfl <| .nil _,
        disturbed_of_opened log _⟩
    · exact ⟨_, _, .cons (l := .callStep) rfl <| .cons (l := .callStep) rfl <|
        .cons (l := .updateStep) rfl <| .cons (l := .fire) rfl <|
        .cons (l := .updateStep) rfl <| .nil _, disturbed_of_opened log _⟩
  | unloading =>
    obtain rfl := Option.some.inj hst
    exact ⟨_, _, .cons (l := .callStep) rfl <| .cons (l := .callStep) rfl <|
      .cons (l := .updateStep) rfl <| .nil _, log, .inl rfl⟩

/-- In every run of the driver the file is open for one process at a time, and
the patterns come in turn from the table, going on after each close where they
have stopped. The pattern goes while nobody has the file open and stands while
somebody has, exactly if the timer is never deleted while its function is under
way. Then whoever has the file open reads back what it has stored last, and
nothing is left behind by an unloaded module. Where the timer is deleted while
its function is under way, the run can go on until the pattern comes up over an
open file, or the function is called in the unloaded module. -/
theorem bargraph_undisturbed (h₀ : Starts s₀) (h : Run Step s₀ tr s) :
    Lawful Exclusive s.log ∧
    (∃ k, s.log.filterMap Event.shows = (List.range k).map patternAt) ∧
    (((∀ x ∈ tr, Orderly x.1) ∧ Orderly s) ↔ ∀ x ∈ tr, Calm x.1 x.2) ∧
    ((∀ x ∈ tr, Calm x.1 x.2) →
      Lawful Undisturbed s.log ∧ (∀ v, holder s.log = some v → s.leds = v) ∧
      (s.mapped = false → s.leds = ~~~0 ∧ s.timer = .idle ∧ s.update = []) ∧
      ∀ l u, Step s l u → ¬ Calm s l →
        ∃ ls v, Path Step u ls v ∧ Disturbed v.log ∧ ¬ Lawful Undisturbed v.log) := by
  obtain ⟨hs, hx, k, hk, -⟩ := run_standing h₀ h
  have hiff := run_orderly_iff h₀ h
  refine ⟨hx, ⟨k, hk⟩, hiff, fun hr => ?_⟩
  obtain ⟨hkept, hu⟩ := run_kept h₀ h hr
  have ho := (hiff.mpr hr).2
  refine ⟨hu, hkept.held, fun hm => ⟨hkept.off (.inr (.inr hm)), ho.unloaded hs hm⟩,
    fun l u hst hrace => ?_⟩
  obtain ⟨ls, v, hpath, hd⟩ := race_disturbs hs ho hrace hst
  exact ⟨ls, v, hpath, hd, hd.not_lawful⟩

end Run

/-- One pattern, and then a process that lights a LED. -/
def ledRun : List Label :=
  [.callStep, .callStep, .fire, .updateStep, .updateStep, .updateStep, .updateStep,
    .open, .callStep, .callStep, .callStep, .ioctl (.bgset 0x7fff) false, .ioctl .bgget false]

theorem bargraph_undisturbed_led :
    ∃ tr s, Run Step (bgInit true 0 0).1 tr s ∧ tr.map Prod.snd = ledRun ∧
      Lawful Undisturbed s.log ∧ s.leds = 0x7fff := by
  have hs : (steps (fun s l => step s l) (fun s l => !s.races l) (bgInit true 0 0).1 ledRun).map
      (fun s => holder s.log) = some (some 0x7fff) := rfl
  obtain ⟨s, hsteps, hheld⟩ := Option.map_eq_some_iff.mp hs
  obtain ⟨tr, hrun, hls, hok⟩ := exists_run_of_steps hsteps
  have hcalm : ∀ x ∈ tr, Calm x.1 x.2 := fun x hx => by
    simpa [Calm] using hok x hx
  obtain ⟨-, -, -, hall⟩ := bargraph_undisturbed ⟨0, rfl⟩ hrun
  obtain ⟨hu, hkept, -, -⟩ := hall hcalm
  exact ⟨tr, s, hrun, hls, hu, hkept _ hheld⟩

end Bargraph

end MeikoCs2
