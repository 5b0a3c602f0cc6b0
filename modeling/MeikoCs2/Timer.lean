import Mathlib.Data.List.Pairwise
import MeikoCs2.Runs

/-! The time of day of `arch/sparc/meiko/timer.c`. Each timer interrupt notes
the value that xtime is to have once its bottom half has run, and the elan
clock, from which readers interpolate. The bottom half comes later. -/

namespace MeikoCs2

/-- A value stored in a long of 32 bits. -/
def long (x : Int) : Int := x.bmod (2 ^ 32)

structure Timeval where
  tvSec : Int
  tvUsec : Int
  deriving DecidableEq, Repr

/-- The register `clock` of the elan. -/
structure Timespec where
  tvSec : BitVec 32
  tvNsec : BitVec 32
  deriving DecidableEq, Repr

def elanGetclock (clock : Timespec) : BitVec 64 :=
  1000000000 * clock.tvSec.signExtend 64 + clock.tvNsec.signExtend 64

namespace Timeval

/-- The loop that carries from tv_usec to tv_sec. -/
def carryLoop : Nat → Timeval → Timeval
  | 0, tv => tv
  | k + 1, tv =>
    if 1000000 ≤ tv.tvUsec then carryLoop k ⟨long (tv.tvSec + 1), tv.tvUsec - 1000000⟩ else tv

/-- Add to tv_usec and carry. -/
def addUsec (tv : Timeval) (d : Int) : Timeval :=
  let usec := long (tv.tvUsec + d)
  carryLoop (usec / 1000000).toNat ⟨tv.tvSec, usec⟩

structure Normal (tv : Timeval) : Prop where
  sec_ge : -2 ^ 31 ≤ tv.tvSec
  sec_lt : tv.tvSec < 2 ^ 31
  usec_nonneg : 0 ≤ tv.tvUsec
  usec_lt : tv.tvUsec < 1000000

instance (tv : Timeval) : Decidable tv.Normal :=
  decidable_of_iff (-2 ^ 31 ≤ tv.tvSec ∧ tv.tvSec < 2 ^ 31 ∧ 0 ≤ tv.tvUsec ∧ tv.tvUsec < 1000000)
    ⟨fun ⟨h₁, h₂, h₃, h₄⟩ => ⟨h₁, h₂, h₃, h₄⟩, fun ⟨h₁, h₂, h₃, h₄⟩ => ⟨h₁, h₂, h₃, h₄⟩⟩

/-- In microseconds. -/
def value (tv : Timeval) : Int := tv.tvSec * 1000000 + tv.tvUsec

/-- No later than. -/
def Le (a b : Timeval) : Prop := a.tvSec < b.tvSec ∨ a.tvSec = b.tvSec ∧ a.tvUsec ≤ b.tvUsec

/-- The first microsecond that tv_sec has no room for. -/
def horizon : Int := 2 ^ 31 * 1000000

variable {tv a b : Timeval}

theorem Normal.le_iff (ha : a.Normal) (hb : b.Normal) : a.Le b ↔ a.value ≤ b.value := by
  have h₁ := ha.usec_nonneg
  have h₂ := ha.usec_lt
  have h₃ := hb.usec_nonneg
  have h₄ := hb.usec_lt
  simp only [Le, value]
  omega

theorem long_eq {x : Int} (h : -2 ^ 31 ≤ x) (h' : x < 2 ^ 31) : long x = x :=
  Int.bmod_eq_of_le (by simpa using h) (by simpa using h')

theorem carryLoop_spec {k : Nat} (hk : k = (tv.tvUsec / 1000000).toNat) (hs : -2 ^ 31 ≤ tv.tvSec)
    (hu : 0 ≤ tv.tvUsec) (hv : tv.value < horizon) :
    (carryLoop k tv).Normal ∧ (carryLoop k tv).value = tv.value := by
  induction k generalizing tv with
  | zero =>
    rw [value, horizon] at hv
    exact ⟨⟨hs, by simp only [carryLoop]; omega, hu, by simp only [carryLoop]; omega⟩, rfl⟩
  | succ k ih =>
    have hge : 1000000 ≤ tv.tvUsec := by omega
    have hlong : long (tv.tvSec + 1) = tv.tvSec + 1 := by
      rw [value, horizon] at hv
      exact long_eq (by omega) (by omega)
    have hvalue : (⟨tv.tvSec + 1, tv.tvUsec - 1000000⟩ : Timeval).value = tv.value := by
      simp only [value]
      omega
    rw [carryLoop, if_pos hge, hlong, ← hvalue]
    apply ih
    · simp only
      omega
    · simp only
      omega
    · simp only
      omega
    · rw [hvalue]
      exact hv

/-- Where nothing overflows. -/
theorem Normal.addUsec (h : tv.Normal) {d : Int} (hd : 0 ≤ d) (hu : tv.tvUsec + d < 2 ^ 31)
    (hv : tv.value + d < horizon) :
    (tv.addUsec d).Normal ∧ (tv.addUsec d).value = tv.value + d := by
  have hn := h.usec_nonneg
  have hlong : long (tv.tvUsec + d) = tv.tvUsec + d := long_eq (by omega) hu
  have hvalue : (⟨tv.tvSec, tv.tvUsec + d⟩ : Timeval).value = tv.value + d := by
    simp only [value]
    omega
  rw [Timeval.addUsec, hlong, ← hvalue]
  refine carryLoop_spec rfl h.sec_ge ?_ ?_
  · simp only
    omega
  · rw [hvalue]
    exact hv

end Timeval

/-- What xtime_lock protects, the interrupts that the bottom half has still to
account for, and the results so far. -/
structure Clocks where
  xtime : Timeval
  elanLasttick : BitVec 64
  xtimeLasttick : Timeval
  clock : Timespec
  pending : Nat
  results : List Timeval
  deriving DecidableEq, Repr

namespace Clocks

/-- What `dino1_gettimeofday` stores at `tvp`. -/
def dino1Gettimeofday (s : Clocks) : Option Timeval :=
  if 0 < s.elanLasttick then
    let delta := long ((elanGetclock s.clock - s.elanLasttick) / 1000).toNat
    -- ASSERT(delta >= 0)
    if 0 ≤ delta then some (s.xtimeLasttick.addUsec delta) else none
  else some s.xtime

section Steps

variable (hz : Nat)

/-- 1/HZ of a second. -/
def tick : Int := (1000000 / hz : Nat)

def dino1TimerIntr (s : Clocks) : Clocks :=
  { s with
    xtimeLasttick := s.xtime.addUsec (tick hz)
    elanLasttick := elanGetclock s.clock }

/-- `do_timer` marks the bottom half. -/
def timerInterrupt (s : Clocks) : Clocks :=
  dino1TimerIntr hz { s with pending := s.pending + 1 }

def addTicks : Nat → Timeval → Timeval
  | 0, tv => tv
  | k + 1, tv => addTicks k (tv.addUsec (tick hz))

def bottomHalf (s : Clocks) : Clocks :=
  { s with
    xtime := addTicks hz s.pending s.xtime
    pending := 0 }

inductive Op where
  /-- The elan clock goes on. -/
  | elapse (clock : Timespec)
  | timerInterrupt
  | bottomHalf
  | gettimeofday
  deriving DecidableEq, Repr

def step (s : Clocks) : Op → Option Clocks
  | .elapse clock =>
    if elanGetclock s.clock ≤ elanGetclock clock then some { s with clock := clock } else none
  | .timerInterrupt => some (timerInterrupt hz s)
  | .bottomHalf => some (bottomHalf hz s)
  | .gettimeofday =>
    s.dino1Gettimeofday.map fun tv => { s with results := s.results ++ [tv] }

abbrev Step (s : Clocks) (op : Op) (u : Clocks) : Prop := step hz s op = some u

end Steps

def boot (xtime : Timeval) (clock : Timespec) : Clocks := ⟨xtime, 0, ⟨0, 0⟩, clock, 0, []⟩

/-- The whole microseconds since the last tick. -/
def elapsed (s : Clocks) : Int := ((elanGetclock s.clock).toNat - s.elanLasttick.toNat) / 1000

/-- The value noted at the last tick and the time since then do not go beyond
the value that an interrupt notes, and nothing overflows. -/
def InTime (hz : Nat) (s : Clocks) : Op → Prop
  | .elapse _ => True
  | .timerInterrupt =>
    (0 < s.elanLasttick → s.xtimeLasttick.value + s.elapsed ≤ s.xtime.value + tick hz) ∧
      s.xtime.value + tick hz < Timeval.horizon
  | .bottomHalf => s.xtime.value + s.pending * tick hz < Timeval.horizon
  | .gettimeofday =>
    0 < s.elanLasttick →
      s.xtimeLasttick.tvUsec + s.elapsed < 2 ^ 31 ∧
        s.xtimeLasttick.value + s.elapsed < Timeval.horizon

instance (hz : Nat) (s : Clocks) : (op : Op) → Decidable (InTime hz s op)
  | .elapse _ => inferInstanceAs (Decidable True)
  | .timerInterrupt => inferInstanceAs (Decidable (_ ∧ _))
  | .bottomHalf => inferInstanceAs (Decidable (_ < _))
  | .gettimeofday => inferInstanceAs (Decidable (_ → _ ∧ _))

/-- The time of day at this moment, in microseconds, if nothing overflows. -/
def reading (s : Clocks) : Int :=
  if 0 < s.elanLasttick then s.xtimeLasttick.value + s.elapsed else s.xtime.value

structure WellTimed (s : Clocks) : Prop where
  xtime : s.xtime.Normal
  lasttick : 0 < s.elanLasttick → s.xtimeLasttick.Normal
  clock : s.elanLasttick ≤ elanGetclock s.clock

structure ClocksInv (s : Clocks) : Prop extends WellTimed s where
  normal : ∀ tv ∈ s.results, tv.Normal
  sorted : s.results.Pairwise Timeval.Le
  past : ∀ tv ∈ s.results, tv.value ≤ s.reading

variable {hz : Nat} {s u : Clocks}

theorem tick_nonneg (hz : Nat) : 0 ≤ tick hz := Int.natCast_nonneg _

theorem tick_le (hz : Nat) : tick hz ≤ 1000000 := by
  have h := Nat.div_le_self 1000000 hz
  rw [tick]
  omega

theorem addUsec_tick {tv : Timeval} (h : tv.Normal) (hv : tv.value + tick hz < Timeval.horizon) :
    (tv.addUsec (tick hz)).Normal ∧ (tv.addUsec (tick hz)).value = tv.value + tick hz := by
  have hlt := h.usec_lt
  have hle := tick_le hz
  exact h.addUsec (tick_nonneg hz) (by omega) hv

theorem addTicks_spec {k : Nat} {tv : Timeval} (h : tv.Normal)
    (hv : tv.value + k * tick hz < Timeval.horizon) :
    (addTicks hz k tv).Normal ∧ (addTicks hz k tv).value = tv.value + k * tick hz := by
  induction k generalizing tv with
  | zero =>
    refine ⟨h, ?_⟩
    rw [addTicks, Int.natCast_zero, Int.zero_mul, Int.add_zero]
  | succ k ih =>
    have hsum : tv.value + ((k + 1 : Nat) : Int) * tick hz =
        tv.value + tick hz + k * tick hz := by
      rw [Int.natCast_succ, Int.add_mul, Int.one_mul, Int.add_assoc, Int.add_comm (tick hz)]
    have hk : 0 ≤ (k : Int) * tick hz := Int.mul_nonneg (Int.natCast_nonneg _) (tick_nonneg hz)
    rw [hsum] at hv ⊢
    obtain ⟨hnormal, hvalue⟩ := @addUsec_tick hz tv h (by omega)
    rw [addTicks, ← hvalue]
    apply ih hnormal
    rw [hvalue]
    exact hv

theorem inv_boot {xtime : Timeval} (h : xtime.Normal) (clock : Timespec) :
    ClocksInv (boot xtime clock) where
  xtime := h
  lasttick hpos := absurd hpos (by simp [boot])
  clock := BitVec.le_def.mpr (Nat.zero_le _)
  normal := nofun
  sorted := .nil
  past := nofun

theorem elapsed_nonneg (h : WellTimed s) : 0 ≤ s.elapsed := by
  have hle := BitVec.le_def.mp h.clock
  rw [elapsed]
  omega

/-- The reading that a call returns where nothing overflows. -/
theorem dino1Gettimeofday_eq (h : WellTimed s) (hok : InTime hz s .gettimeofday) :
    ∃ tv, s.dino1Gettimeofday = some tv ∧ tv.Normal ∧ tv.value = s.reading := by
  by_cases hpos : 0 < s.elanLasttick
  · obtain ⟨hu, hv⟩ := hok hpos
    have hn := h.lasttick hpos
    have hnonneg := hn.usec_nonneg
    have hel := elapsed_nonneg h
    have hle := BitVec.le_def.mp h.clock
    have hdelta : (((elanGetclock s.clock - s.elanLasttick) / 1000).toNat : Int) = s.elapsed := by
      have hthousand : (1000 : BitVec 64).toNat = 1000 := rfl
      rw [BitVec.toNat_udiv, BitVec.toNat_sub_of_le h.clock, elapsed, hthousand]
      omega
    have hlong : long s.elapsed = s.elapsed := Timeval.long_eq (by omega) (by omega)
    obtain ⟨hnormal, hvalue⟩ := hn.addUsec hel hu hv
    refine ⟨_, ?_, hnormal, ?_⟩
    · rw [dino1Gettimeofday, if_pos hpos]
      simp only [hdelta, hlong, if_pos hel]
    · rw [hvalue, reading, if_pos hpos]
  · refine ⟨s.xtime, ?_, h.xtime, ?_⟩
    · rw [dino1Gettimeofday, if_neg hpos]
    · rw [reading, if_neg hpos]

/-- The results stay in order as long as the reading does not fall. -/
theorem ClocksInv.of_le (h : ClocksInv s) (hw : WellTimed u) (hr : u.results = s.results)
    (hle : s.reading ≤ u.reading) : ClocksInv u where
  toWellTimed := hw
  normal := by
    rw [hr]
    exact h.normal
  sorted := by
    rw [hr]
    exact h.sorted
  past tv htv := by
    rw [hr] at htv
    exact Int.le_trans (h.past tv htv) hle

theorem ClocksInv.elapse (h : ClocksInv s) {clock : Timespec}
    (hc : elanGetclock s.clock ≤ elanGetclock clock) : ClocksInv { s with clock := clock } := by
  refine h.of_le ⟨h.xtime, h.lasttick, BitVec.le_trans h.clock hc⟩ rfl ?_
  have hle := BitVec.le_def.mp hc
  simp only [reading, elapsed]
  split_ifs <;> omega

theorem timerInterrupt_elapsed (hz : Nat) (s : Clocks) : (timerInterrupt hz s).elapsed = 0 := by
  rw [elapsed, timerInterrupt, dino1TimerIntr, Int.sub_self]
  rfl

theorem timerInterrupt_reading (hz : Nat) (s : Clocks) :
    (timerInterrupt hz s).reading =
      if 0 < elanGetclock s.clock then (s.xtime.addUsec (tick hz)).value else s.xtime.value := by
  rw [reading, timerInterrupt_elapsed, Int.add_zero]
  rfl

theorem WellTimed.timerInterrupt (h : WellTimed s)
    (hv : s.xtime.value + tick hz < Timeval.horizon) : WellTimed (timerInterrupt hz s) :=
  ⟨h.xtime, fun _ => (addUsec_tick h.xtime hv).1, BitVec.le_refl _⟩

theorem WellTimed.clock_pos (h : WellTimed s) (hold : 0 < s.elanLasttick) :
    0 < elanGetclock s.clock :=
  BitVec.lt_def.mpr (Nat.lt_of_lt_of_le (BitVec.lt_def.mp hold) (BitVec.le_def.mp h.clock))

theorem ClocksInv.timerInterrupt (h : ClocksInv s) (hok : InTime hz s .timerInterrupt) :
    ClocksInv (timerInterrupt hz s) := by
  obtain ⟨hback, hv⟩ := hok
  have hnonneg := tick_nonneg hz
  refine h.of_le (h.toWellTimed.timerInterrupt hv) rfl ?_
  rw [timerInterrupt_reading, (addUsec_tick h.xtime hv).2]
  by_cases hold : 0 < s.elanLasttick
  · rw [if_pos (h.clock_pos hold), reading, if_pos hold]
    exact hback hold
  · rw [reading, if_neg hold]
    split_ifs
    · omega
    · exact Int.le_refl _

theorem ClocksInv.bottomHalf (h : ClocksInv s) (hok : InTime hz s .bottomHalf) :
    ClocksInv (bottomHalf hz s) := by
  have hnonneg : 0 ≤ s.pending * tick hz :=
    Int.mul_nonneg (Int.natCast_nonneg _) (tick_nonneg hz)
  obtain ⟨hnormal, hvalue⟩ := addTicks_spec h.xtime hok
  refine h.of_le ⟨hnormal, h.lasttick, h.clock⟩ rfl ?_
  simp only [reading, Clocks.bottomHalf, hvalue]
  split_ifs
  · exact Int.le_refl _
  · omega

theorem ClocksInv.gettimeofday (h : ClocksInv s) (hok : InTime hz s .gettimeofday)
    (hs : Step hz s .gettimeofday u) : ClocksInv u := by
  obtain ⟨tv, htv, hnormal, hvalue⟩ := dino1Gettimeofday_eq h.toWellTimed hok
  rw [Step, step, htv] at hs
  obtain rfl := Option.some.inj hs
  refine ⟨⟨h.xtime, h.lasttick, h.clock⟩, ?_, ?_, ?_⟩
  · intro r hr
    rcases List.mem_append.mp hr with hr | hr
    · exact h.normal r hr
    · rw [List.mem_singleton.mp hr]
      exact hnormal
  · refine List.pairwise_append.mpr ⟨h.sorted, List.pairwise_singleton _ _, ?_⟩
    intro r hr r' hr'
    rw [List.mem_singleton.mp hr', (h.normal r hr).le_iff hnormal, hvalue]
    exact h.past r hr
  · intro r hr
    change r.value ≤ s.reading
    rcases List.mem_append.mp hr with hr | hr
    · exact h.past r hr
    · rw [List.mem_singleton.mp hr]
      exact Int.le_of_eq hvalue

theorem ClocksInv.step (h : ClocksInv s) {op : Op} (hok : InTime hz s op) (hs : Step hz s op u) :
    ClocksInv u := by
  cases op with
  | elapse clock =>
    rw [Step, Clocks.step] at hs
    split_ifs at hs with hc
    obtain rfl := Option.some.inj hs
    exact h.elapse hc
  | timerInterrupt =>
    obtain rfl := Option.some.inj hs
    exact h.timerInterrupt hok
  | bottomHalf =>
    obtain rfl := Option.some.inj hs
    exact h.bottomHalf hok
  | gettimeofday => exact h.gettimeofday hok hs

theorem step_gettimeofday {tv : Timeval} (h : s.dino1Gettimeofday = some tv) :
    Step hz s .gettimeofday { s with results := s.results ++ [tv] } := by
  rw [Step, step, h]
  rfl

/-- Reads right before and right after an interrupt that comes too late after
the last one, or before its bottom half has run, go back. -/
theorem steps_back_of_late (h : WellTimed s) (hpos : 0 < s.elanLasttick)
    (hread : InTime hz s .gettimeofday) (hv : s.xtime.value + tick hz < Timeval.horizon)
    (hlate : s.xtime.value + tick hz < s.xtimeLasttick.value + s.elapsed) :
    ∃ a b u, Path (Step hz) s [.gettimeofday, .timerInterrupt, .gettimeofday] u ∧
      u.results = s.results ++ [a, b] ∧ ¬ a.Le b := by
  obtain ⟨a, ha, hna, hva⟩ := dino1Gettimeofday_eq h hread
  have h₁ : WellTimed { s with results := s.results ++ [a] } := ⟨h.xtime, h.lasttick, h.clock⟩
  have h₂ := h₁.timerInterrupt hv
  have hnoted : (timerInterrupt hz { s with results := s.results ++ [a] }).reading =
      s.xtime.value + tick hz := by
    rw [timerInterrupt_reading, if_pos (h.clock_pos hpos)]
    exact (addUsec_tick h.xtime hv).2
  have hread₂ : InTime hz (timerInterrupt hz { s with results := s.results ++ [a] })
      .gettimeofday := by
    intro hpos₂
    have hr := hnoted
    rw [reading, if_pos hpos₂] at hr
    have hel : (timerInterrupt hz { s with results := s.results ++ [a] }).elapsed = 0 :=
      timerInterrupt_elapsed hz _
    have hlt := (h₂.lasttick hpos₂).usec_lt
    rw [hel] at hr ⊢
    refine ⟨by omega, ?_⟩
    rw [hr]
    exact hv
  obtain ⟨b, hb, hnb, hvb⟩ := dino1Gettimeofday_eq h₂ hread₂
  refine ⟨a, b, _, .cons (step_gettimeofday ha) (.cons rfl (.single (step_gettimeofday hb))), ?_, ?_⟩
  · exact List.append_assoc s.results [a] [b]
  · rw [hna.le_iff hnb, hva, hvb, hnoted, reading, if_pos hpos]
    omega

/-- The time of day does not go back. -/
def Monotone (s : Clocks) : Prop :=
  s.results.Pairwise Timeval.Le ∧ ∀ tv ∈ s.results, 0 ≤ tv.tvUsec ∧ tv.tvUsec < 1000000

theorem monotone_of_inTime {xtime : Timeval} (hx : xtime.Normal) {clock : Timespec}
    {tr : List (Clocks × Op)} (hr : Run (Step hz) (boot xtime clock) tr u)
    (hok : ∀ x ∈ tr, InTime hz x.1 x.2) : Monotone u := by
  have h : ClocksInv u :=
    hr.invariant_of (inv_boot hx clock) (fun _ _ _ hi ho hst => hi.step ho hst) hok
  refine ⟨h.sorted, ?_⟩
  intro tv htv
  exact ⟨(h.normal tv htv).usec_nonneg, (h.normal tv htv).usec_lt⟩

/-- Two interrupts, ten milliseconds apart. The bottom half of the first runs
at once or only after the second. -/
def twoTicks (early : Bool) : List Op :=
  [.elapse ⟨1, 0⟩, .timerInterrupt] ++ (if early then [.bottomHalf] else []) ++
    [.gettimeofday, .elapse ⟨1, 9000000⟩, .gettimeofday, .elapse ⟨1, 10000000⟩, .timerInterrupt,
      .gettimeofday, .bottomHalf, .gettimeofday]

theorem monotone_prompt_bottomHalf :
    ∃ tr u, Run (Step 100) (boot ⟨0, 0⟩ ⟨0, 0⟩) tr u ∧ Monotone u ∧ u.results.length = 4 := by
  obtain ⟨tr, u, hr, -, hok, hg⟩ := exists_run_of_any (f := step 100) (s := boot ⟨0, 0⟩ ⟨0, 0⟩)
    (fun s op => decide (InTime 100 s op)) (twoTicks true) (fun u => u.results.length == 4)
    (by decide +kernel)
  refine ⟨tr, u, hr, monotone_of_inTime (by decide) hr ?_, by simpa using hg⟩
  intro x hx
  exact of_decide_eq_true (hok x hx)

/-- The second interrupt comes before the bottom half of the first, and notes
the value that xtime was to have after the first. -/
theorem time_steps_back :
    ¬ ∀ hz xtime clock tr u, xtime.Normal → Run (Step hz) (boot xtime clock) tr u →
      Monotone u := by
  intro h
  obtain ⟨tr, u, hr, -, -, hg⟩ := exists_run_of_any (f := step 100) (s := boot ⟨0, 0⟩ ⟨0, 0⟩)
    (fun _ _ => true) (twoTicks false)
    (fun u => u.results.take 3 == [⟨0, 10000⟩, ⟨0, 19000⟩, ⟨0, 10000⟩]) (by decide +kernel)
  have hm := (h 100 ⟨0, 0⟩ ⟨0, 0⟩ tr u (by decide) hr).1.sublist (List.take_sublist 3 _)
  rw [beq_iff_eq.mp hg] at hm
  rcases (List.pairwise_cons.mp hm.of_cons).1 ⟨0, 10000⟩ List.mem_cons_self with hlt | ⟨-, hle⟩
  · exact absurd hlt (by decide)
  · exact absurd hle (by decide)

end Clocks

end MeikoCs2
