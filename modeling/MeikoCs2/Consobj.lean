import MeikoCs2.Driver
import Mathlib.Data.Fintype.EquivFin

/-! Console object ids. The bitmap `consobj_reserved` is the set of ids that
open files hold, each file holds at most one and no two the same. There are as
many ids as files, so an allocation on an open file always finds one. -/

namespace MeikoCs2

def Holds (t : FdTable) (fd i : Fin canMaxUsecount) : Prop :=
  ∃ f, t.openfd fd = some f ∧ f.consobj = i.val + 0x100

theorem Holds.inj {t : FdTable} {fd i j : Fin canMaxUsecount} (h : Holds t fd i)
    (h' : Holds t fd j) : i = j := by
  obtain ⟨f, hf, hi⟩ := h
  obtain ⟨f', hf', hj⟩ := h'
  rw [hf, Option.some.injEq] at hf'
  subst hf'
  exact Fin.ext (by omega)

structure ConsobjInv (t : FdTable) : Prop where
  reserved : ∀ i, t.consobjReserved i = true ↔ ∃ fd, Holds t fd i
  unique : ∀ fd fd' i, Holds t fd i → Holds t fd' i → fd = fd'
  range : ∀ fd f, t.openfd fd = some f → f.consobj = -1 ∨ ∃ i, Holds t fd i

theorem ConsobjInv.init (nodeid : BitVec 32) : ConsobjInv (FdTable.init nodeid) where
  reserved i := by simp [FdTable.init, Holds]
  unique fd fd' i h := by simp [FdTable.init, Holds] at h
  range fd f h := by simp [FdTable.init] at h

theorem ConsobjInv.of_consobj {t t' : FdTable} (h : ConsobjInv t)
    (hf : ∀ i, (t'.openfd i).map FileState.consobj = (t.openfd i).map FileState.consobj)
    (hr : t'.consobjReserved = t.consobjReserved) : ConsobjInv t' := by
  have hh : ∀ fd i, Holds t' fd i ↔ Holds t fd i := fun fd i => by
    have hs := hf fd
    unfold Holds
    cases hg : t.openfd fd <;> cases hg' : t'.openfd fd <;> simp_all
  refine ⟨fun i => by simp only [hr, h.reserved, hh],
    fun fd fd' i => by simpa only [hh] using h.unique fd fd' i, fun fd f hg => ?_⟩
  have hs := hf fd
  cases hg' : t.openfd fd with
  | none => rw [hg, hg'] at hs; exact absurd hs (by simp)
  | some g =>
    rw [hg, hg', Option.map_some, Option.map_some, Option.some.injEq] at hs
    simpa only [hh, hs] using h.range fd g hg'

theorem ConsobjInv.sameFiles {t t' : FdTable} (h : ConsobjInv t) (hs : SameFiles t t') :
    ConsobjInv t' := by
  refine h.of_consobj (fun i => ?_) hs.consobjReserved
  simpa [Function.comp_def, FileState.settings] using
    congrArg (Option.map fun x : Bool × Bool × Int => x.2.2) (hs.settings i)

/-- `t'` is `t` with the id of slot `fd`, if any, exchanged for `o`, which no
other file holds. -/
structure Takes (t t' : FdTable) (fd : Fin canMaxUsecount) (o : Option (Fin canMaxUsecount)) :
    Prop where
  other : ∀ fd', fd' ≠ fd → t'.openfd fd' = t.openfd fd'
  self : ∀ f, t'.openfd fd = some f → f.consobj = o.elim (-1 : Int) fun i => i.val + 0x100
  taken : ∀ i, o = some i → (t'.openfd fd).isSome ∧ ∀ fd', fd' ≠ fd → ¬ Holds t fd' i
  reserved : ∀ i, t'.consobjReserved i = true ↔
    (t.consobjReserved i = true ∧ ¬ Holds t fd i) ∨ o = some i

section Takes

variable {t t' : FdTable} {fd : Fin canMaxUsecount} {o : Option (Fin canMaxUsecount)}

theorem Takes.holds_self (h : Takes t t' fd o) (i : Fin canMaxUsecount) :
    Holds t' fd i ↔ o = some i := by
  constructor
  · rintro ⟨f, hf, hi⟩
    have hs := h.self f hf
    cases o with
    | none => simp only [Option.elim_none] at hs; omega
    | some j =>
      simp only [Option.elim_some] at hs
      exact congrArg some (Fin.ext (by omega))
  · intro ho
    obtain ⟨f, hf⟩ := Option.isSome_iff_exists.mp (h.taken i ho).1
    exact ⟨f, hf, by rw [h.self f hf, ho]; rfl⟩

theorem Takes.holds_other (h : Takes t t' fd o) {fd' : Fin canMaxUsecount} (hne : fd' ≠ fd)
    (i : Fin canMaxUsecount) : Holds t' fd' i ↔ Holds t fd' i := by
  unfold Holds
  rw [h.other fd' hne]

theorem ConsobjInv.takes (hi : ConsobjInv t) (h : Takes t t' fd o) : ConsobjInv t' where
  reserved i := by
    rw [h.reserved, hi.reserved]
    constructor
    · rintro (⟨⟨fd', hh⟩, hn⟩ | ho)
      · have hne : fd' ≠ fd := by rintro rfl; exact hn hh
        exact ⟨fd', (h.holds_other hne i).mpr hh⟩
      · exact ⟨fd, (h.holds_self i).mpr ho⟩
    · rintro ⟨fd', hh⟩
      rcases eq_or_ne fd' fd with rfl | hne
      · exact .inr ((h.holds_self i).mp hh)
      · have hh' := (h.holds_other hne i).mp hh
        exact .inl ⟨⟨fd', hh'⟩, fun hc => hne (hi.unique _ _ _ hh' hc)⟩
  unique fd₁ fd₂ i h₁ h₂ := by
    rcases eq_or_ne fd₁ fd with he₁ | hne₁ <;> rcases eq_or_ne fd₂ fd with he₂ | hne₂
    · rw [he₁, he₂]
    · exact absurd ((h.holds_other hne₂ i).mp h₂)
        ((h.taken i ((h.holds_self i).mp (he₁ ▸ h₁))).2 _ hne₂)
    · exact absurd ((h.holds_other hne₁ i).mp h₁)
        ((h.taken i ((h.holds_self i).mp (he₂ ▸ h₂))).2 _ hne₁)
    · exact hi.unique _ _ _ ((h.holds_other hne₁ i).mp h₁) ((h.holds_other hne₂ i).mp h₂)
  range fd' f hf := by
    rcases eq_or_ne fd' fd with rfl | hne
    · cases o with
      | none => exact .inl (h.self f hf)
      | some i => exact .inr ⟨i, (h.holds_self i).mpr rfl⟩
    · rw [h.other fd' hne] at hf
      simpa only [h.holds_other hne] using hi.range fd' f hf

end Takes

def freed (f : FileState) (t : FdTable) : FdTable :=
  if f.consobj ≠ -1 then canFreeConsobj f.consobj t else t

@[simp] theorem freed_openfd (f : FileState) (t : FdTable) : (freed f t).openfd = t.openfd := by
  unfold freed canFreeConsobj
  split_ifs <;> rfl

theorem freed_reserved {t : FdTable} (h : ConsobjInv t) {fd : Fin canMaxUsecount} {f : FileState}
    (hf : t.openfd fd = some f) (i : Fin canMaxUsecount) :
    (freed f t).consobjReserved i = true ↔ t.consobjReserved i = true ∧ ¬ Holds t fd i := by
  rcases h.range fd f hf with hm | ⟨j, hj⟩
  · have hn : ¬ Holds t fd i := by
      rintro ⟨g, hg, hc⟩
      rw [hf, Option.some.injEq] at hg
      subst hg
      omega
    simp [freed, hm, hn]
  · have hc : f.consobj = j.val + 0x100 := by
      obtain ⟨g, hg, hc⟩ := hj
      rw [hf, Option.some.injEq] at hg
      exact hg ▸ hc
    have hlt := j.isLt
    have hidx : Fin.ofNat canMaxUsecount (f.consobj - 0x100).toNat = j := by
      apply Fin.ext
      have : (f.consobj - 0x100).toNat = j.val := by omega
      rw [this]
      exact Nat.mod_eq_of_lt hlt
    have hfree : (freed f t).consobjReserved = Function.update t.consobjReserved j false := by
      rw [freed, if_pos (by omega), canFreeConsobj, if_pos (by omega), hidx]
    rw [hfree]
    rcases eq_or_ne i j with rfl | hne
    · simp [hj]
    · have hn : ¬ Holds t fd i := fun hi => hne (hi.inj hj)
      rw [Function.update_of_ne hne]
      simp [hn]

theorem canReleaseOpenfd_openfd {t : FdTable} {fd : Fin canMaxUsecount} {f : FileState}
    (hf : t.openfd fd = some f) (nodeid : BitVec 32) :
    (canReleaseOpenfd fd nodeid t).openfd = Function.update t.openfd fd none := by
  simp only [canReleaseOpenfd, hf]
  split_ifs <;> simp [canFreeConsobj, dropPromiscuous] <;> split_ifs <;> rfl

theorem canReleaseOpenfd_takes {t : FdTable} (h : ConsobjInv t) {fd : Fin canMaxUsecount}
    {f : FileState} (hf : t.openfd fd = some f) (nodeid : BitVec 32) :
    Takes t (canReleaseOpenfd fd nodeid t) fd none := by
  have ho := canReleaseOpenfd_openfd hf nodeid
  have hr : (canReleaseOpenfd fd nodeid t).consobjReserved = (freed f t).consobjReserved := by
    simp only [canReleaseOpenfd, hf, freed]
    split_ifs <;> rfl
  refine ⟨fun fd' hne => ?_, fun g hg => ?_, nofun, fun i => ?_⟩
  · rw [ho, Function.update_of_ne hne]
  · rw [ho, Function.update_self] at hg
    cases hg
  · rw [hr, freed_reserved h hf]
    simp

theorem canAllocOpenfd_eq {t t' : FdTable} {fd : Fin canMaxUsecount}
    (h : canAllocOpenfd t = some (fd, t')) :
    t.openfd fd = none ∧
      t' = { t with openfd := Function.update t.openfd fd
                      (some ⟨ringInit default, false, false, -1⟩) } := by
  obtain ⟨i, hi, he⟩ := Option.map_eq_some_iff.mp h
  rw [Prod.mk.injEq] at he
  obtain ⟨rfl, rfl⟩ := he
  have hn : (t.openfd i).isNone = true := List.find?_some (p := fun i => (t.openfd i).isNone) hi
  exact ⟨Option.isNone_iff_eq_none.mp hn, rfl⟩

theorem canAllocOpenfd_takes {t t' : FdTable} {fd : Fin canMaxUsecount}
    (h : canAllocOpenfd t = some (fd, t')) : Takes t t' fd none := by
  obtain ⟨hn, rfl⟩ := canAllocOpenfd_eq h
  refine ⟨fun fd' hne => ?_, fun g hg => ?_, nofun, fun i => ?_⟩
  · exact Function.update_of_ne hne _ _
  · simp only [Function.update_self, Option.some.injEq] at hg
    rw [← hg]
    rfl
  · have hh : ¬ Holds t fd i := by
      rintro ⟨f, hf, _⟩
      rw [hn] at hf
      cases hf
    simp [hh]

theorem probeConsobj_some {reserved : Fin canMaxUsecount → Bool} {k : Nat}
    {start i : Fin canMaxUsecount} (h : probeConsobj reserved k start = some i) :
    reserved i = false := by
  induction k generalizing start with
  | zero => cases h
  | succ k ih =>
    unfold probeConsobj at h
    split_ifs at h with hr
    · exact ih h
    · rw [← Option.some.inj h]
      exact Bool.eq_false_iff.mpr hr

theorem probeConsobj_none {reserved : Fin canMaxUsecount → Bool} {k : Nat}
    {start : Fin canMaxUsecount} (h : probeConsobj reserved k start = none) {m : Nat} (hm : m < k) :
    reserved (start + Fin.ofNat _ m) = true := by
  induction k generalizing start m with
  | zero => omega
  | succ k ih =>
    unfold probeConsobj at h
    split_ifs at h with hr
    cases m with
    | zero => simpa using hr
    | succ m =>
      have he : start + Fin.ofNat _ (m + 1) = start + 1 + Fin.ofNat _ m := by
        apply Fin.ext
        simp only [Fin.val_add, Fin.val_ofNat, Fin.val_one, canMaxUsecount]
        omega
      rw [he]
      exact ih h (Nat.lt_of_succ_lt_succ hm)

/-- The probe goes once around the table. -/
theorem probeConsobj_isSome {reserved : Fin canMaxUsecount → Bool} {j : Fin canMaxUsecount}
    (hj : reserved j = false) (start : Fin canMaxUsecount) :
    ∃ i, probeConsobj reserved canMaxUsecount start = some i := by
  cases h : probeConsobj reserved canMaxUsecount start with
  | some i => exact ⟨i, rfl⟩
  | none =>
    have hr := probeConsobj_none h (j - start).isLt
    have he : start + Fin.ofNat _ (j - start).val = j := by
      apply Fin.ext
      have hj : j.val < 256 := j.isLt
      simp only [Fin.val_add, Fin.val_ofNat, Fin.sub_def, canMaxUsecount]
      omega
    rw [he, hj] at hr
    cases hr

/-- The other files are fewer than the ids, so they leave one free. -/
theorem exists_not_held {t : FdTable} (fd : Fin canMaxUsecount) :
    ∃ i, ∀ fd', fd' ≠ fd → ¬ Holds t fd' i := by
  by_contra hc
  push Not at hc
  choose holder hne hh using hc
  have hinj : Function.Injective holder := fun i j hij => (hh i).inj (hij ▸ hh j)
  obtain ⟨i, hi⟩ := (Finite.injective_iff_surjective.mp hinj) fd
  exact hne i hi

theorem canAllocConsobj_openfd (jiffies : BitVec 32) (t : FdTable) :
    (canAllocConsobj jiffies t).1.openfd = t.openfd := by
  unfold canAllocConsobj
  split <;> rfl

theorem getConsobj_openfd (fd : Fin canMaxUsecount) (f : FileState) (jiffies : BitVec 32)
    (t : FdTable) :
    (getConsobj fd f jiffies t).1.openfd = Function.update t.openfd fd
      ((t.openfd fd).map fun g => { g with consobj := (getConsobj fd f jiffies t).2 }) := by
  have he : (canAllocConsobj jiffies (freed f t)).1.openfd = t.openfd := by
    rw [canAllocConsobj_openfd, freed_openfd]
  rw [← he]
  rfl

theorem getConsobj_takes {t : FdTable} (h : ConsobjInv t) {fd : Fin canMaxUsecount}
    {f : FileState} (hf : t.openfd fd = some f) (jiffies : BitVec 32) :
    ∃ i : Fin canMaxUsecount, (getConsobj fd f jiffies t).2 = i.val + 0x100 ∧
      Takes t (getConsobj fd f jiffies t).1 fd (some i) := by
  obtain ⟨j, hj⟩ := exists_not_held (t := t) fd
  have hjf : (freed f t).consobjReserved j = false := by
    refine Bool.eq_false_iff.mpr fun hr => ?_
    obtain ⟨hr, hn⟩ := (freed_reserved h hf j).mp hr
    obtain ⟨fd', hh⟩ := (h.reserved j).mp hr
    rcases eq_or_ne fd' fd with rfl | hne
    · exact hn hh
    · exact hj fd' hne hh
  obtain ⟨i, hi⟩ := probeConsobj_isSome hjf (Fin.ofNat _ jiffies.toNat)
  have ha : canAllocConsobj jiffies (freed f t) =
      ({ freed f t with
          consobjReserved := Function.update (freed f t).consobjReserved i true },
        (i.val + 0x100 : Int)) := by
    rw [canAllocConsobj, hi]
  have hg : getConsobj fd f jiffies t =
      ((canAllocConsobj jiffies (freed f t)).1.modify fd
          fun f' => { f' with consobj := (canAllocConsobj jiffies (freed f t)).2 },
        (canAllocConsobj jiffies (freed f t)).2) := rfl
  refine ⟨i, by rw [hg, ha], ?_⟩
  rw [hg, ha]
  refine ⟨fun fd' hne => ?_, fun g hgf => ?_, ?_, fun k => ?_⟩
  · simp only [FdTable.modify, freed_openfd]
    exact Function.update_of_ne hne _ _
  · simp only [FdTable.modify, freed_openfd, Function.update_self, hf, Option.map_some,
      Option.some.injEq] at hgf
    rw [← hgf]
    rfl
  · rintro k hk
    rw [Option.some.injEq] at hk
    subst hk
    refine ⟨by simp [FdTable.modify, hf], fun fd' hne hh => ?_⟩
    have hr := (freed_reserved h hf i).mpr
      ⟨(h.reserved i).mpr ⟨fd', hh⟩, fun hc => hne (h.unique _ _ _ hh hc)⟩
    rw [probeConsobj_some hi] at hr
    cases hr
  · simp only [FdTable.modify]
    rw [← freed_reserved h hf]
    rcases eq_or_ne k i with rfl | hne
    · simp
    · rw [Function.update_of_ne hne]
      simp [hne.symm]

theorem modify_consobj {fd : Fin canMaxUsecount} {g : FileState → FileState} (t : FdTable)
    (hg : ∀ f, (g f).consobj = f.consobj) (i : Fin canMaxUsecount) :
    ((t.modify fd g).openfd i).map FileState.consobj = (t.openfd i).map FileState.consobj := by
  simp only [FdTable.modify]
  rcases eq_or_ne i fd with rfl | hi
  · rw [Function.update_self, Option.map_map]
    exact congrArg (Option.map · _) (funext hg)
  · rw [Function.update_of_ne hi]

theorem ConsobjInv.canIoctl {s : Node} (h : ConsobjInv s.fds) {fd : Fin canMaxUsecount}
    {f : FileState} (hf : s.fds.openfd fd = some f) (cmd : IoctlCmd) (fault : Bool) :
    ConsobjInv (canIoctl fd cmd fault s).1.fds := by
  cases cmd with
  | setPromiscuous => exact h.of_consobj (modify_consobj s.fds fun _ => rfl) rfl
  | clrPromiscuous => exact h.of_consobj (modify_consobj s.fds fun _ => rfl) rfl
  | setSnoopy => exact h.of_consobj (modify_consobj s.fds fun _ => rfl) rfl
  | clrSnoopy => exact h.of_consobj (modify_consobj s.fds fun _ => rfl) rfl
  | getHeartbeat => exact h
  | setHeartbeat val =>
    simp only [MeikoCs2.canIoctl]
    split_ifs <;> exact h
  | getAddr => exact h
  | getConsobj =>
    simp only [MeikoCs2.canIoctl, hf]
    obtain ⟨i, _, ht⟩ := getConsobj_takes h hf s.jiffies
    exact h.takes ht
  | setReset => exact h.of_consobj (fun _ => rfl) rfl
  | setDebug =>
    have he := (canDumpInfo_prints { s with canDebug := true }).fds
    simp only [MeikoCs2.canIoctl, he]
    exact h
  | clrDebug =>
    have he := (printk_prints "can: debugging OFF\n" { s with canDebug := false }).fds
    simp only [MeikoCs2.canIoctl, he]
    exact h
  | other => exact h

theorem ConsobjInv.step {d d' : Driver} {op : DriverOp} (h : ConsobjInv d.node.fds)
    (hs : DriverStep d op d') : ConsobjInv d'.node.fds := by
  obtain ⟨-, fd, ha⟩ | ⟨fd, f, -, hf, he⟩ | ⟨fd, f, cmd, fault, -, hf, he⟩ | ⟨-, -, hsame⟩ :=
    hs.fds_cases
  · exact h.takes (canAllocOpenfd_takes ha)
  · rw [he]
    exact h.takes (canReleaseOpenfd_takes h hf _)
  · rw [he]
    exact h.canIoctl hf cmd fault
  · exact h.sameFiles hsame

theorem ConsobjInv.getConsobj_ne_ebusy {s : Node} (h : ConsobjInv s.fds)
    {fd : Fin canMaxUsecount} {f : FileState} (hf : s.fds.openfd fd = some f) (fault : Bool) :
    (MeikoCs2.canIoctl fd .getConsobj fault s).2 ≠ -ebusy := by
  obtain ⟨i, hi, _⟩ := getConsobj_takes h hf s.jiffies
  simp only [MeikoCs2.canIoctl, hf, hi]
  rw [if_neg (by omega)]
  split_ifs <;> decide

theorem ConsobjInv.consobj_range {t : FdTable} (h : ConsobjInv t) {fd : Fin canMaxUsecount}
    {f : FileState} (hf : t.openfd fd = some f) (hne : f.consobj ≠ -1) :
    0x100 ≤ f.consobj ∧ f.consobj ≤ 0x1ff := by
  rcases h.range fd f hf with hm | ⟨i, g, hg, hi⟩
  · exact absurd hm hne
  · rw [hf, Option.some.injEq] at hg
    subst hg
    have : i.val < 256 := i.isLt
    omega

/-- In every reachable state of the driver the bitmap records exactly the ids
held by open files, no two files hold the same one, ids lie between
CANOBJ_CONSMIN and CANOBJ_CONSMAX, and an open file always gets one. -/
theorem consobj_unique {n : Node} {tr : List (Driver × DriverOp)} {d : Driver}
    (h : Run DriverStep (Driver.init n) tr d) :
    (∀ i, d.node.fds.consobjReserved i = true ↔ ∃ fd, Holds d.node.fds fd i) ∧
    (∀ fd fd' f f', d.node.fds.openfd fd = some f → d.node.fds.openfd fd' = some f' →
      f.consobj ≠ -1 → f.consobj = f'.consobj → fd = fd') ∧
    (∀ fd f, d.node.fds.openfd fd = some f → f.consobj ≠ -1 →
      0x100 ≤ f.consobj ∧ f.consobj ≤ 0x1ff) ∧
    (∀ fd f fault, d.node.fds.openfd fd = some f →
      (canIoctl fd .getConsobj fault d.node).2 ≠ -ebusy) := by
  have h0 : ConsobjInv (Driver.init n).node.fds := by
    rw [Driver.init_fds]
    exact .init _
  have hi : ConsobjInv d.node.fds :=
    h.invariant (P := fun d => ConsobjInv d.node.fds) h0 fun _ _ _ hp hs => hp.step hs
  refine ⟨hi.reserved, ?_, fun fd f hf hne => hi.consobj_range hf hne,
    fun fd f fault hf => hi.getConsobj_ne_ebusy hf fault⟩
  intro fd fd' f f' hf hf' hne heq
  rcases hi.range fd f hf with hm | ⟨i, g, hg, hc⟩
  · exact absurd hm hne
  · rw [hf, Option.some.injEq] at hg
    subst hg
    exact hi.unique fd fd' i ⟨f, hf, hc⟩ ⟨f', hf', heq ▸ hc⟩

theorem consobj_unique_after_fault :
    ∃ tr d, Run DriverStep (Driver.init (Node.boot 1 noConsole (.init 1) .empty)) tr d ∧
      tr.map Prod.snd = [.open, .ioctl 0 .getConsobj true, .open] ∧
      Holds d.node.fds 0 0 ∧ (canIoctl 1 .getConsobj false d.node).2 ≠ -ebusy := by
  have hr := Run.nil
    |>.snoc (DriverStep.open (d := Driver.init (Node.boot 1 noConsole (.init 1) .empty)) rfl)
    |>.snoc (@DriverStep.ioctl _ 0 _ rfl .getConsobj true)
    |>.snoc (.open rfl)
  exact ⟨_, _, hr, rfl, ⟨_, rfl, rfl⟩, (consobj_unique hr).2.2.2 1 _ false rfl⟩

end MeikoCs2
