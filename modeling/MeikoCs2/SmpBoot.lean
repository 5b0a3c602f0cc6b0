import MeikoCs2.Circle
import MeikoCs2.CrossCallSerial

/-! Starting the other processors. The boot processor goes through them one
after the other and waits a while for each to call in; one that does not is
taken to be stuck. What comes of it is what the cross calls, the rotation of
the interrupts and the started processors themselves rely on. -/

namespace MeikoCs2

/-- What the boot processor finds: the size of the arrays, the processors of the
PROM and their module ids, and whether each has called in when the wait is over
and when the table is cleaned up behind it. -/
structure BootEnv where
  nrCpus : Nat
  linuxNumCpus : Nat
  bootCpuId : Nat
  mid : Nat → BitVec 32
  callin : Nat → Bool
  callinLate : Nat → Bool

/-- `current_set` holds the index in `task` of the idle thread. -/
structure BootState where
  cpuPresentMap : BitVec 32
  cpuNumberMap : Nat → Int
  cpuLogicalMap : Nat → Int
  midXlate : Nat → Nat
  currentSet : Nat → Option Nat
  cpucount : Nat

/-- What is stored in `mid_xlate`, an array of bytes. -/
def BootEnv.midOf (e : BootEnv) (i : Nat) : Nat := ((e.mid i &&& ~~~8#32).setWidth 8).toNat

def promCpus : Nat → BitVec 32
  | 0 => 0
  | n + 1 => promCpus n ||| 1#32 <<< n

def BootEnv.start (e : BootEnv) (midXlate : Nat → Nat) : BootState where
  cpuPresentMap := promCpus e.linuxNumCpus
  cpuNumberMap := Function.update (fun _ => -1) e.bootCpuId 0
  cpuLogicalMap := Function.update (fun _ => -1) 0 (e.bootCpuId : Int)
  midXlate := Function.update midXlate e.bootCpuId (e.midOf e.bootCpuId)
  currentSet := fun _ => none
  cpucount := 0

/-- The idle thread made for processor `i` is the next in `task`, and the one of
a stuck processor is used again. -/
def BootEnv.startCpu (e : BootEnv) (i : Nat) (s : BootState) : BootState :=
  let s' : BootState :=
    { s with
      cpucount := s.cpucount + 1
      currentSet := Function.update s.currentSet i (some (s.cpucount + 1))
      midXlate := Function.update s.midXlate i (e.midOf i) }
  if e.callin i then
    { s' with
      cpuNumberMap := Function.update s'.cpuNumberMap i (i : Int)
      cpuLogicalMap := Function.update s'.cpuLogicalMap i (i : Int) }
  else { s' with cpucount := s'.cpucount - 1 }

def BootEnv.bootCpu (e : BootEnv) (i : Nat) (s : BootState) : BootState :=
  if i = e.bootCpuId then s
  else
    let s := if s.cpuPresentMap.getLsbD i then e.startCpu i s else s
    if e.callinLate i then s
    else
      { s with
        cpuPresentMap := s.cpuPresentMap &&& ~~~(1#32 <<< i)
        cpuNumberMap := Function.update s.cpuNumberMap i (-1) }

def BootEnv.bootCpus (e : BootEnv) (s : BootState) : Nat → BootState
  | 0 => s
  | i + 1 => e.bootCpu i (e.bootCpus s i)

/-- The circle in which interrupts are handed on. -/
def linkCpus (present : Nat → Bool) (next : Nat → Nat) : Nat → Links Nat
  | 0 => ⟨next, none, none⟩
  | i + 1 =>
    let l := linkCpus present next i
    if present i then l.add i else l

/-- Where `smp4m_boot_cpus` leaves the processors. -/
structure Booted where
  smp : Smp
  cpuNumberMap : Nat → Int
  cpuLogicalMap : Nat → Int
  currentSet : Nat → Option Nat
  smpActivated : Bool
  next : Nat → Nat

/-- `smp_num_cpus` is one until it is set here. -/
def BootEnv.smp4mBootCpus (e : BootEnv) (midXlate next : Nat → Nat) : Booted :=
  let s₀ := e.start midXlate
  if e.linuxNumCpus = 1 then
    ⟨⟨s₀.cpuPresentMap, 1, s₀.midXlate, false⟩, s₀.cpuNumberMap, s₀.cpuLogicalMap, s₀.currentSet,
      false, next⟩
  else
    let s := e.bootCpus s₀ e.nrCpus
    let map := if s.cpucount = 0 then 1#32 <<< e.bootCpuId else s.cpuPresentMap
    let num := if s.cpucount = 0 then 1 else s.cpucount + 1
    ⟨⟨map, num, s.midXlate, true⟩, s.cpuNumberMap, s.cpuLogicalMap, s.currentSet,
      s.cpucount != 0, (linkCpus map.getLsbD next e.nrCpus).close⟩

/-- A started processor leaves its loop in `smp4m_callin` when the idle thread
it was given is the one at its own index. -/
def Booted.leavesCallin (b : Booted) (cpu : Nat) : Bool := b.currentSet cpu == some cpu

/-- How the machine is: the boot processor is one of those the PROM lists, which
fit into the arrays. -/
structure BootEnv.Sound (e : BootEnv) : Prop where
  boot : e.bootCpuId < e.linuxNumCpus
  fits : e.linuxNumCpus ≤ e.nrCpus
  bits : e.nrCpus ≤ 32

/-- A processor other than the boot processor that was started and called in. -/
def BootEnv.started (e : BootEnv) (i : Nat) : Bool :=
  decide (i ≠ e.bootCpuId) && decide (i < e.linuxNumCpus) && e.callin i

theorem getLsbD_one_shiftLeft {i j : Nat} (hj : j < 32) :
    (1#32 <<< i).getLsbD j = decide (i = j) := by
  simp only [BitVec.getLsbD_shiftLeft, BitVec.getLsbD_one, hj, decide_true, Bool.true_and]
  by_cases hlt : j < i
  · have hne : i ≠ j := by omega
    simp [hlt, hne]
  · by_cases he : i = j
    · simp [he]
    · have hsub : j - i ≠ 0 := by omega
      simp [hlt, he, hsub]

theorem getLsbD_promCpus {j : Nat} (hj : j < 32) (n : Nat) :
    (promCpus n).getLsbD j = decide (j < n) := by
  induction n with
  | zero => simp [promCpus]
  | succ n ih =>
    rw [promCpus, BitVec.getLsbD_or, ih, getLsbD_one_shiftLeft hj]
    by_cases he : n = j
    · simp [he]
    · have hiff : j < n + 1 ↔ j < n := by omega
      simp [he, hiff]

/-- What the loop has done when it comes to processor `n`. -/
structure After (e : BootEnv) (midXlate : Nat → Nat) (n : Nat) (s : BootState) : Prop where
  present : ∀ j < 32, s.cpuPresentMap.getLsbD j =
    (decide (j < e.linuxNumCpus) && (decide (j = e.bootCpuId) || decide (n ≤ j) || e.callinLate j))
  cpucount : s.cpucount = (List.range n).countP e.started
  currentSet : ∀ j, s.currentSet j =
    if j < n ∧ j ≠ e.bootCpuId ∧ j < e.linuxNumCpus then
      some ((List.range j).countP e.started + 1)
    else none
  mid : ∀ j, (j = e.bootCpuId ∨ j < n ∧ j < e.linuxNumCpus) → s.midXlate j = e.midOf j

theorem countP_range_succ (p : Nat → Bool) (n : Nat) :
    (List.range (n + 1)).countP p = (List.range n).countP p + if p n then 1 else 0 := by
  rw [List.range_succ, List.countP_append, List.countP_singleton]

variable {e : BootEnv} {m next : Nat → Nat} {n : Nat} {s : BootState}

theorem after_start (e : BootEnv) (m : Nat → Nat) : After e m 0 (e.start m) where
  present j hj := by simp [BootEnv.start, getLsbD_promCpus hj]
  cpucount := rfl
  currentSet j := by simp [BootEnv.start]
  mid j hj := by
    have he : j = e.bootCpuId := hj.resolve_right fun h => Nat.not_lt_zero j h.1
    rw [he]
    exact Function.update_self _ _ _

/-- The boot processor is passed over. -/
theorem After.boot (h : After e m n s) (hn : n = e.bootCpuId) : After e m (n + 1) s where
  present j hj := by
    rw [h.present j hj]
    by_cases he : j = e.bootCpuId
    · simp [he]
    · have hiff : n + 1 ≤ j ↔ n ≤ j := by omega
      simp [he, hiff]
  cpucount := by
    have hs : e.started n = false := by simp [BootEnv.started, hn]
    rw [h.cpucount, countP_range_succ, hs]
    rfl
  currentSet j := by
    rw [h.currentSet j]
    have hiff : (j < n + 1 ∧ j ≠ e.bootCpuId ∧ j < e.linuxNumCpus) ↔
        (j < n ∧ j ≠ e.bootCpuId ∧ j < e.linuxNumCpus) := by omega
    simp only [hiff]
  mid j hj := h.mid j (by omega)

theorem startCpu_fields (e : BootEnv) (i : Nat) (s : BootState) :
    (e.startCpu i s).cpuPresentMap = s.cpuPresentMap ∧
      (e.startCpu i s).cpucount = s.cpucount + (if e.callin i then 1 else 0) ∧
      (e.startCpu i s).currentSet = Function.update s.currentSet i (some (s.cpucount + 1)) ∧
      (e.startCpu i s).midXlate = Function.update s.midXlate i (e.midOf i) := by
  by_cases hc : e.callin i = true <;> simp [BootEnv.startCpu, hc]

theorem bootCpu_present (hn : n ≠ e.bootCpuId) (s : BootState) {j : Nat} (hj : j < 32) :
    (e.bootCpu n s).cpuPresentMap.getLsbD j =
      (s.cpuPresentMap.getLsbD j && (decide (n ≠ j) || e.callinLate n)) := by
  obtain ⟨hp, -⟩ := startCpu_fields e n s
  simp only [BootEnv.bootCpu, if_neg hn]
  by_cases hl : e.callinLate n = true
  · by_cases hb : s.cpuPresentMap.getLsbD n = true <;> simp [hl, hb, hp]
  · have hclear : ∀ r : BitVec 32, (r &&& ~~~(1#32 <<< n)).getLsbD j =
        (r.getLsbD j && decide (n ≠ j)) := by
      intro r
      rw [BitVec.getLsbD_and, BitVec.getLsbD_not, getLsbD_one_shiftLeft hj]
      simp [hj]
    by_cases hb : s.cpuPresentMap.getLsbD n = true <;> simp [hl, hb, hp, hclear]

theorem bootCpu_fields (hn : n ≠ e.bootCpuId) (s : BootState) :
    (e.bootCpu n s).cpucount =
        s.cpucount + (if s.cpuPresentMap.getLsbD n && e.callin n then 1 else 0) ∧
      (e.bootCpu n s).currentSet =
        (if s.cpuPresentMap.getLsbD n then
          Function.update s.currentSet n (some (s.cpucount + 1)) else s.currentSet) ∧
      (e.bootCpu n s).midXlate =
        (if s.cpuPresentMap.getLsbD n then Function.update s.midXlate n (e.midOf n)
          else s.midXlate) := by
  obtain ⟨-, hc, hs, hm⟩ := startCpu_fields e n s
  simp only [BootEnv.bootCpu, if_neg hn]
  by_cases hl : e.callinLate n = true <;> by_cases hb : s.cpuPresentMap.getLsbD n = true <;>
    simp [hl, hb, hc, hs, hm]

theorem After.other (h : After e m n s) (hn : n ≠ e.bootCpuId) (h32 : n < 32) :
    After e m (n + 1) (e.bootCpu n s) := by
  obtain ⟨hc, hs, hm⟩ := bootCpu_fields hn s
  have hbit : s.cpuPresentMap.getLsbD n = decide (n < e.linuxNumCpus) := by
    rw [h.present n h32]
    simp
  rw [hbit] at hc hs hm
  constructor
  · intro j hj
    rw [bootCpu_present hn s hj, h.present j hj]
    by_cases he : n = j
    · subst he
      have hgt : ¬ n + 1 ≤ n := by omega
      simp [hn, hgt]
    · have hiff : n + 1 ≤ j ↔ n ≤ j := by omega
      simp [he, hiff]
  · have hst : e.started n = (decide (n < e.linuxNumCpus) && e.callin n) := by
      simp [BootEnv.started, hn]
    rw [hc, h.cpucount, countP_range_succ, hst]
  · intro j
    rw [hs]
    by_cases he : j = n
    · subst he
      by_cases hl : j < e.linuxNumCpus
      · simp [hl, hn, h.cpucount]
      · have hno := h.currentSet j
        simpa [hl] using hno
    · have hiff : (j < n + 1 ∧ j ≠ e.bootCpuId ∧ j < e.linuxNumCpus) ↔
          (j < n ∧ j ≠ e.bootCpuId ∧ j < e.linuxNumCpus) := by omega
      simp only [hiff]
      rw [← h.currentSet j]
      by_cases hl : n < e.linuxNumCpus
      · simp [hl, he]
      · simp [hl]
  · intro j hj
    rw [hm]
    by_cases he : j = n
    · subst he
      have hl : j < e.linuxNumCpus := (hj.resolve_left hn).2
      simp [hl]
    · have hold := h.mid j (by omega)
      by_cases hl : n < e.linuxNumCpus
      · simp [hl, he, hold]
      · simp [hl, hold]

theorem after_bootCpus (e : BootEnv) (m : Nat → Nat) (hn : n ≤ 32) :
    After e m n (e.bootCpus (e.start m) n) := by
  induction n with
  | zero => exact after_start e m
  | succ n ih =>
    have h := ih (by omega)
    by_cases hb : n = e.bootCpuId
    · rw [BootEnv.bootCpus, BootEnv.bootCpu, if_pos hb]
      exact h.boot hb
    · exact h.other hb (by omega)

namespace Booted

/-- The processors that run. -/
def cpus (b : Booted) (nrCpus : Nat) : List Nat := (List.range nrCpus).filter b.smp.present

end Booted

theorem getLsbD_ite {c : Prop} [Decidable c] (x y : BitVec 32) (j : Nat) :
    (if c then x else y).getLsbD j = if c then x.getLsbD j else y.getLsbD j := by
  split <;> rfl

/-- A processor runs when it is the boot processor, or when some processor
called in in time and this one did before the table was cleaned up. -/
theorem present_iff (he : e.Sound) (hl : e.linuxNumCpus ≠ 1) (j : Nat) :
    (e.smp4mBootCpus m next).smp.present j = true ↔
      j = e.bootCpuId ∨
        (List.range e.nrCpus).countP e.started ≠ 0 ∧ j < e.linuxNumCpus ∧ e.callinLate j = true := by
  have h := after_bootCpus e m he.bits
  have hb := he.boot
  have hf := he.fits
  have h32 := he.bits
  by_cases hj : j < 32
  · simp only [Smp.present, BootEnv.smp4mBootCpus, if_neg hl, h.cpucount]
    rw [getLsbD_ite, h.present j hj, getLsbD_one_shiftLeft hj]
    by_cases h0 : (List.range e.nrCpus).countP e.started = 0
    · rw [if_pos h0, decide_eq_true_eq, or_iff_left fun hn => hn.1 h0]
      exact eq_comm
    · rw [if_neg h0]
      simp only [Bool.and_eq_true, Bool.or_eq_true, decide_eq_true_eq, ne_eq, h0,
        not_false_eq_true, true_and]
      constructor
      · rintro ⟨hlt, (he' | hge) | hlate⟩
        · exact .inl he'
        · omega
        · exact .inr ⟨hlt, hlate⟩
      · rintro (rfl | ⟨hlt, hlate⟩)
        · exact ⟨hb, .inl (.inl rfl)⟩
        · exact ⟨hlt, .inr hlate⟩
  · have hno : (e.smp4mBootCpus m next).smp.present j = false :=
      BitVec.getLsbD_of_ge _ _ (by omega)
    rw [hno]
    refine iff_of_false Bool.false_ne_true ?_
    rintro (rfl | ⟨-, hlt, -⟩) <;> omega

/-- All processors call in before the boot processor has given them up, or not
at all. -/
def BootEnv.InTime (e : BootEnv) : Prop := ∀ i, e.callinLate i = e.callin i

theorem present_inTime (he : e.Sound) (hl : e.linuxNumCpus ≠ 1) (ht : e.InTime) (j : Nat) :
    (e.smp4mBootCpus m next).smp.present j = true ↔ j = e.bootCpuId ∨ e.started j = true := by
  rw [present_iff he hl, ht j]
  have hf := he.fits
  by_cases hj : j = e.bootCpuId
  · simp [hj]
  · simp only [hj, false_or, BootEnv.started, ne_eq, not_false_eq_true, decide_true, Bool.true_and,
      Bool.and_eq_true, decide_eq_true_eq]
    constructor
    · exact fun h => h.2
    · intro h
      refine ⟨fun h0 => ?_, h⟩
      have hno := List.countP_eq_zero.mp h0 j (List.mem_range.mpr (by omega))
      simp [BootEnv.started, hj, h.1, h.2] at hno

theorem countP_or_eq {p : Nat → Bool} {c n : Nat} (hc : c < n) (hp : p c = false) :
    (List.range n).countP (fun i => decide (i = c) || p i) = (List.range n).countP p + 1 := by
  induction n with
  | zero => omega
  | succ n ih =>
    rw [countP_range_succ, countP_range_succ]
    by_cases he : n = c
    · subst he
      have hsame : (List.range n).countP (fun i => decide (i = n) || p i) =
          (List.range n).countP p := by
        refine List.countP_congr fun i hi => ?_
        have hne : i ≠ n := (List.mem_range.mp hi).ne
        simp [hne]
      simp [hsame, hp]
    · rw [ih (by omega)]
      simp [he]
      omega

theorem smpNumCpus_eq (he : e.Sound) (hl : e.linuxNumCpus ≠ 1) :
    (e.smp4mBootCpus m next).smp.smpNumCpus = (List.range e.nrCpus).countP e.started + 1 := by
  have h := after_bootCpus e m he.bits
  simp only [BootEnv.smp4mBootCpus, if_neg hl, h.cpucount]
  split_ifs with h0
  · rw [h0]
  · rfl

theorem cpus_length (he : e.Sound) (hl : e.linuxNumCpus ≠ 1) (ht : e.InTime) :
    ((e.smp4mBootCpus m next).cpus e.nrCpus).length = (e.smp4mBootCpus m next).smp.smpNumCpus := by
  have hb := he.boot
  have hf := he.fits
  have hboot : e.started e.bootCpuId = false := by simp [BootEnv.started]
  rw [smpNumCpus_eq he hl, Booted.cpus, ← List.countP_eq_length_filter,
    ← countP_or_eq (show e.bootCpuId < e.nrCpus by omega) hboot]
  refine List.countP_congr fun i _ => ?_
  rw [present_inTime he hl ht i]
  simp

theorem mem_cpus (he : e.Sound) (hl : e.linuxNumCpus ≠ 1) {j : Nat}
    (hj : (e.smp4mBootCpus m next).smp.present j = true) :
    j ∈ (e.smp4mBootCpus m next).cpus e.nrCpus := by
  refine List.mem_filter.mpr ⟨List.mem_range.mpr ?_, hj⟩
  have hb := he.boot
  have hf := he.fits
  rcases (present_iff he hl j).mp hj with rfl | ⟨-, hlt, -⟩ <;> omega

theorem midXlate_eq (he : e.Sound) (hl : e.linuxNumCpus ≠ 1) {j : Nat}
    (hj : (e.smp4mBootCpus m next).smp.present j = true) :
    (e.smp4mBootCpus m next).smp.midXlate j = e.midOf j := by
  have h := after_bootCpus e m he.bits
  have hf := he.fits
  have hm := h.mid j
  simp only [BootEnv.smp4mBootCpus, if_neg hl]
  rcases (present_iff he hl j).mp hj with rfl | ⟨-, hlt, -⟩
  · exact hm (.inl rfl)
  · exact hm (.inr ⟨by omega, hlt⟩)

/-- Two processors, of which the first boots. -/
def twoBoot : BootEnv where
  nrCpus := 4
  linuxNumCpus := 2
  bootCpuId := 0
  mid := fun i => BitVec.ofNat 32 (8 + i)
  callin := fun i => decide (i < 2)
  callinLate := fun i => decide (i < 2)

theorem twoBoot_sound : twoBoot.Sound := ⟨by decide, by decide, by decide⟩

def twoBooted : Booted := twoBoot.smp4mBootCpus id id

/-- Every pair of running processors is a caller and a processor its calls run
on, unless one has its number beyond the count of the running ones. -/
theorem callee_iff (b : Smp) :
    (∀ c d, b.present c = true → b.present d = true → b.Callee c d) ↔
      ∀ c d, b.present c = true → b.present d = true → c ≠ d → d < b.smpNumCpus := by
  constructor
  · intro h c d hc hd hne
    exact ((h c d hc hd).resolve_left (Ne.symm hne)).2
  · intro h c d hc hd
    by_cases hdc : d = c
    · exact .inl hdc
    · exact .inr ⟨(b.target_iff c d).mpr ⟨hd, hdc⟩, h c d hc hd (Ne.symm hdc)⟩

/-- A set of as many numbers as `n` lies below `n` when it has no gap, and only
then. -/
theorem below_iff_no_gap {p : Nat → Bool} {n k : Nat} (hn : (List.range k).countP p = n)
    (hk : ∀ i, p i = true → i < k) :
    (∀ i, p i = true → i < n) ↔ ∀ i j, i < j → p j = true → p i = true := by
  have hle : n ≤ k := by
    rw [← hn]
    exact List.countP_le_length.trans (List.length_range).le
  constructor
  · intro h i j hij hj
    have hsplit : (List.range n).countP p = n := by
      have hall : (List.range k).countP p = (List.range n).countP p := by
        obtain ⟨m, rfl⟩ := Nat.exists_eq_add_of_le hle
        rw [List.range_add, List.countP_append, Nat.add_eq_left, List.countP_eq_zero]
        intro x hx hp
        obtain ⟨y, -, rfl⟩ := List.mem_map.mp hx
        have := h _ hp
        omega
      rw [← hall, hn]
    have hfull : (List.range n).countP p = (List.range n).length := by rw [hsplit, List.length_range]
    exact List.countP_eq_length.mp hfull i (List.mem_range.mpr (hij.trans (h j hj)))
  · intro h i hi
    by_contra hge
    have hbelow : (List.range (i + 1)).countP p = i + 1 := by
      have hall : (List.range (i + 1)).countP p = (List.range (i + 1)).length := by
        refine List.countP_eq_length.mpr fun x hx => ?_
        rcases Nat.lt_or_ge x i with hlt | hge'
        · exact h x i hlt hi
        · have hx' := List.mem_range.mp hx
          rwa [show x = i by omega]
      rw [hall, List.length_range]
    have hsub : (List.range (i + 1)).Sublist (List.range k) :=
      List.range_sublist.mpr (hk i hi)
    have hcount := hsub.countP_le (p := p)
    omega

/-- The running processors are as many as `smp_num_cpus` says, so that they lie
below it when none of them is missing in between. -/
theorem present_lt_iff (he : e.Sound) (hl : e.linuxNumCpus ≠ 1) (ht : e.InTime) :
    (∀ d, (e.smp4mBootCpus m next).smp.present d = true →
        d < (e.smp4mBootCpus m next).smp.smpNumCpus) ↔
      ∀ i j, i < j → (e.smp4mBootCpus m next).smp.present j = true →
        (e.smp4mBootCpus m next).smp.present i = true := by
  have hlen : (List.range e.nrCpus).countP (e.smp4mBootCpus m next).smp.present =
      (e.smp4mBootCpus m next).smp.smpNumCpus := by
    rw [List.countP_eq_length_filter]
    exact cpus_length he hl ht
  exact below_iff_no_gap hlen fun i hi =>
    List.mem_range.mp (List.mem_filter.mp (mem_cpus he hl hi)).1

/-- After the boot every cross call runs on all running processors when none
that is stuck has a lower number than a running one, and only then. -/
theorem cross_calls_cover_iff (he : e.Sound) (hl : e.linuxNumCpus ≠ 1) (ht : e.InTime) :
    let b := (e.smp4mBootCpus m next).smp
    (∀ c d, b.present c = true → b.present d = true → b.Callee c d) ↔
      (b.smpNumCpus = 1 ∨ ∀ i j, i < j → b.present j = true → b.present i = true) := by
  intro b
  rw [callee_iff, ← present_lt_iff he hl ht]
  have hboot : b.present e.bootCpuId = true := (present_inTime he hl ht _).mpr (.inl rfl)
  have hnum : b.smpNumCpus = (List.range e.nrCpus).countP e.started + 1 := smpNumCpus_eq he hl
  constructor
  · intro h
    by_cases hone : b.smpNumCpus = 1
    · exact .inl hone
    · refine .inr fun d hd => ?_
      -- there is another running processor, which calls `d`
      obtain ⟨i, -, hi⟩ := List.countP_pos_iff.mp
        (show 0 < (List.range e.nrCpus).countP e.started by omega)
      have hpi : b.present i = true := (present_inTime he hl ht i).mpr (.inr hi)
      have hne : i ≠ e.bootCpuId := by
        simp only [BootEnv.started, Bool.and_eq_true, decide_eq_true_eq] at hi
        exact hi.1.1
      by_cases hdb : d = e.bootCpuId
      · exact h i d hpi hd (hdb ▸ hne)
      · exact h e.bootCpuId d hboot hd (Ne.symm hdb)
  · rintro (hone | h) c d hc hd hcd
    · have honly : ∀ c, b.present c = true → c = e.bootCpuId := fun c hc =>
        ((present_iff he hl c).mp hc).resolve_right fun hn => hn.1 (by omega)
      exact absurd ((honly c hc).trans (honly d hd).symm) hcd
    · exact h d hd

theorem cross_calls_cover_iff_two :
    (∀ c d, twoBooted.smp.present c = true → twoBooted.smp.present d = true →
      twoBooted.smp.Callee c d) ↔
    (twoBooted.smp.smpNumCpus = 1 ∨ ∀ i j, i < j → twoBooted.smp.present j = true →
      twoBooted.smp.present i = true) :=
  cross_calls_cover_iff twoBoot_sound (by decide) fun _ => rfl

theorem booted_wired (he : e.Sound) (hl : e.linuxNumCpus ≠ 1)
    (hmid : ∀ i j, i < e.linuxNumCpus → j < e.linuxNumCpus → e.midOf i = e.midOf j → i = j) :
    (e.smp4mBootCpus m next).smp.Wired := by
  have hlt : ∀ i, (e.smp4mBootCpus m next).smp.present i = true → i < e.linuxNumCpus := by
    intro i hi
    rcases (present_iff he hl i).mp hi with rfl | ⟨-, hlt, -⟩
    · exact he.boot
    · exact hlt
  constructor
  · rw [smpNumCpus_eq he hl]
    exact Nat.succ_pos _
  · intro i j hi hj hij
    rw [midXlate_eq he hl hi, midXlate_eq he hl hj] at hij
    exact hmid i j (hlt i hi) (hlt j hj) hij

/-- From the boot to the end of a call: with no processor missing in between,
the function has run once on each running processor, and no other. -/
theorem cross_call_reaches_all {φ : Type} {r : Dino1Intregs} {info : Funcall φ}
    {tr : List (CrossCalls φ × CallLabel φ)} {s : CrossCalls φ} (he : e.Sound)
    (hl : e.linuxNumCpus ≠ 1) (ht : e.InTime)
    (hmid : ∀ i j, i < e.linuxNumCpus → j < e.linuxNumCpus → e.midOf i = e.midOf j → i = j)
    (hgap : ∀ i j, i < j → (e.smp4mBootCpus m next).smp.present j = true →
      (e.smp4mBootCpus m next).smp.present i = true)
    (hr : (e.smp4mBootCpus m next).smp.Clear r)
    (h : Run (CrossCalls.Step (e.smp4mBootCpus m next).smp) (CrossCalls.start r info) tr s)
    {pre mid post : List (CallEvent φ)} {c : Nat} {f : Funcall φ}
    (hlog : s.log = pre ++ [.locked c f] ++ mid ++ [.unlocked c] ++ post)
    (hm : ∀ e ∈ mid, ∃ d g, e = .ran d g) :
    ∃ ran : List Nat, mid = ran.map (.ran · f) ∧
      ran.Perm ((e.smp4mBootCpus m next).cpus e.nrCpus) := by
  have hready : (e.smp4mBootCpus m next).smp.smpProcessorsReady = true := by
    simp only [BootEnv.smp4mBootCpus, if_neg hl]
  obtain ⟨o, hi⟩ := CrossCalls.exists_inv (booted_wired he hl hmid) hready hr h
  have hs := hi.serial
  rw [hlog] at hs
  obtain ⟨hcp, ran, hmid', hnd, hran⟩ := hs.call hm
  have hbelow := (present_lt_iff he hl ht).mpr hgap
  refine ⟨ran, hmid', (List.perm_ext_iff_of_nodup hnd (List.nodup_range.filter _)).mpr
    fun d => ?_⟩
  rw [hran d]
  constructor
  · rintro (rfl | ⟨htd, -⟩)
    · exact mem_cpus he hl hcp
    · exact mem_cpus he hl ((Smp.target_iff _ c d).mp htd).1
  · intro hd
    have hdp := (List.mem_filter.mp hd).2
    by_cases hdc : d = c
    · exact .inl hdc
    · exact .inr ⟨(Smp.target_iff _ c d).mpr ⟨hdp, hdc⟩, hbelow d hdp⟩

/-- A log of one call of processor 0 that ran twice. -/
def isOneCall {φ : Type} : List (CallEvent φ) → Bool
  | [.locked 0 _, .ran _ _, .ran _ _, .unlocked 0] => true
  | _ => false

theorem exists_of_isOneCall {φ : Type} {l : List (CallEvent φ)} (h : isOneCall l = true) :
    ∃ f d g d' g', l = [] ++ [.locked 0 f] ++ [.ran d g, .ran d' g'] ++ [.unlocked 0] ++ [] := by
  unfold isOneCall at h
  split at h
  · exact ⟨_, _, _, _, _, rfl⟩
  · cases h

theorem cross_call_reaches_all_two : ∃ (tr : _) (s : CrossCalls Nat) (f : Funcall Nat)
    (mid : List (CallEvent Nat)) (ran : List Nat),
    Run (CrossCalls.Step twoBooted.smp) (CrossCalls.start quietPals CrossCalls.aCall) tr s ∧
      s.log = [] ++ [.locked 0 f] ++ mid ++ [.unlocked 0] ++ [] ∧
      mid = ran.map (CallEvent.ran · f) ∧ ran.Perm (twoBooted.cpus 4) := by
  obtain ⟨tr, s, h, -, -, hg⟩ := exists_run_of_any
    (f := fun s l => s.step twoBooted.smp l) (s := CrossCalls.start quietPals CrossCalls.aCall)
    (fun _ _ => true) CrossCalls.oneCall (fun s => isOneCall s.log) (by decide +kernel)
  obtain ⟨f, d, g, d', g', hlog⟩ := exists_of_isOneCall hg
  have hmid : ∀ i < 2, ∀ j < 2, twoBoot.midOf i = twoBoot.midOf j → i = j := by decide
  have hgap : ∀ i j, i < j → twoBooted.smp.present j = true →
      twoBooted.smp.present i = true := by
    intro i j hij hj
    have hsmall : ∀ j < 32, twoBooted.smp.present j = true → ∀ i < j,
        twoBooted.smp.present i = true := by decide +kernel
    exact hsmall j (BitVec.lt_of_getLsbD hj) hj i hij
  obtain ⟨ran, hr⟩ := cross_call_reaches_all twoBoot_sound (by decide) (fun _ => rfl)
    (fun i j hi hj => hmid i hi j hj) hgap (CrossCalls.clear_quietPals _) h hlog (by simp)
  exact ⟨tr, s, f, _, ran, h, hlog, hr⟩

/-- The idle thread of a started processor is at the index that counts those
newly started below it, behind the one of the boot processor. -/
theorem leavesCallin_slot (he : e.Sound) (hl : e.linuxNumCpus ≠ 1) {cpu : Nat}
    (hs : e.started cpu = true) :
    (e.smp4mBootCpus m next).leavesCallin cpu = true ↔
      (List.range cpu).countP e.started + 1 = cpu := by
  have h := after_bootCpus e m he.bits
  have hf := he.fits
  have hb := he.boot
  simp only [BootEnv.started, Bool.and_eq_true, decide_eq_true_eq] at hs
  obtain ⟨⟨hne, hlt⟩, -⟩ := hs
  have hslot : (e.smp4mBootCpus m next).currentSet cpu =
      some ((List.range cpu).countP e.started + 1) := by
    simp only [BootEnv.smp4mBootCpus, if_neg hl]
    rw [h.currentSet cpu, if_pos ⟨by omega, hne, hlt⟩]
  rw [Booted.leavesCallin, hslot, beq_iff_eq, Option.some.injEq]

/-- With boot processor 0, a processor is let go when none below it was stuck. -/
theorem leavesCallin_of_boot_zero (he : e.Sound) (hl : e.linuxNumCpus ≠ 1)
    (h0 : e.bootCpuId = 0) {cpu : Nat} (hs : e.started cpu = true) :
    (e.smp4mBootCpus m next).leavesCallin cpu = true ↔
      ∀ i, 0 < i → i < cpu → e.started i = true := by
  rw [leavesCallin_slot he hl hs]
  have hboot : e.started 0 = false := by simp [BootEnv.started, h0]
  cases cpu with
  | zero =>
    rw [hboot] at hs
    cases hs
  | succ k =>
    have hall := List.countP_eq_length (p := e.started) (l := (List.range k).map Nat.succ)
    rw [List.length_map, List.length_range] at hall
    rw [List.range_succ_eq_map, List.countP_cons_of_neg (by simp [hboot]), Nat.succ_inj, hall]
    simp only [List.forall_mem_map, List.mem_range]
    constructor
    · intro h i hi hlt
      obtain ⟨j, rfl⟩ := Nat.exists_eq_succ_of_ne_zero hi.ne'
      exact h j (Nat.lt_of_succ_lt_succ hlt)
    · exact fun h j hj => h (j + 1) (Nat.succ_pos j) (Nat.succ_lt_succ hj)

/-- When all up to a processor are newly started, so that the boot processor has
a higher number and none was stuck, it spins for ever. -/
theorem leavesCallin_of_all_started (he : e.Sound) (hl : e.linuxNumCpus ≠ 1) {cpu : Nat}
    (hall : ∀ i ≤ cpu, e.started i = true) :
    (e.smp4mBootCpus m next).leavesCallin cpu = false := by
  have hcount : (List.range cpu).countP e.started = cpu := by
    rw [List.countP_eq_length.mpr fun i hi => hall i (List.mem_range.mp hi).le, List.length_range]
  rw [Bool.eq_false_iff, Ne, leavesCallin_slot he hl (hall cpu (Nat.le_refl cpu)), hcount]
  exact Nat.succ_ne_self cpu

/-- A started processor is let go when exactly one processor with a lower number
is not newly started: the boot processor, with none stuck. -/
theorem leavesCallin_iff (he : e.Sound) (hl : e.linuxNumCpus ≠ 1) {cpu : Nat}
    (hs : e.started cpu = true) :
    (e.smp4mBootCpus m next).leavesCallin cpu = true ↔
      (List.range cpu).countP (fun i => !e.started i) = 1 := by
  have htotal := List.length_eq_countP_add_countP e.started (l := List.range cpu)
  rw [List.length_range] at htotal
  have hnot : (List.range cpu).countP (fun i => !e.started i) =
      (List.range cpu).countP (fun i => decide ¬ e.started i = true) :=
    List.countP_congr fun i _ => by simp
  rw [leavesCallin_slot he hl hs, hnot]
  omega

theorem leavesCallin_iff_two :
    twoBooted.leavesCallin 1 = true ↔ (List.range 1).countP (fun i => !twoBoot.started i) = 1 :=
  leavesCallin_iff twoBoot_sound (by decide) (by decide)

end MeikoCs2
