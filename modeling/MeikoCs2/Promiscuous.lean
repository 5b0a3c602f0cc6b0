import MeikoCs2.Consobj

/-! Promiscuous mode. The driver counts the files that asked for it and
programs the chip when the count leaves or reaches zero. The count follows the
flags of the files only as long as calls come in matching pairs, and the chip
follows the count only as long as nobody resets it. -/

namespace MeikoCs2

def promiscuousAt (t : FdTable) (fd : Fin canMaxUsecount) : Bool :=
  (t.openfd fd).any FileState.promiscuous

def promiscuousFds (t : FdTable) : Finset (Fin canMaxUsecount) :=
  Finset.univ.filter fun fd => promiscuousAt t fd = true

def promiscuousMode (r : CanReg) : Prop := r.acceptMask = 0xff

theorem promiscuousMode_canInit82c200 (b : Bool) (nodeid : BitVec 32) :
    promiscuousMode (canInit82c200 b nodeid) ↔ b = true := by
  cases b
  · simp [promiscuousMode, canInit82c200]
  · simp [promiscuousMode, canInit82c200]

/-- The use count counts the promiscuous files, and the chip is in promiscuous
mode exactly when there is one. -/
structure PromiscuousOk (t : FdTable) : Prop where
  usecount : t.promiscuousUsecount = (promiscuousFds t).card
  mode : promiscuousMode t.reg ↔ 0 < (promiscuousFds t).card

theorem PromiscuousOk.of_fds {t t' : FdTable} (h : PromiscuousOk t)
    (hf : promiscuousFds t' = promiscuousFds t)
    (hu : t'.promiscuousUsecount = t.promiscuousUsecount) (hr : t'.reg = t.reg) :
    PromiscuousOk t' := ⟨by rw [hu, hf, h.usecount], by rw [hr, hf, h.mode]⟩

theorem promiscuousFds_congr {t t' : FdTable} (h : ∀ fd, promiscuousAt t' fd = promiscuousAt t fd) :
    promiscuousFds t' = promiscuousFds t := by
  simp only [promiscuousFds, h]

theorem PromiscuousOk.init (nodeid : BitVec 32) : PromiscuousOk (FdTable.init nodeid) := by
  have hf : promiscuousFds (FdTable.init nodeid) = ∅ :=
    Finset.filter_eq_empty_iff.mpr fun fd _ => by simp [promiscuousAt, FdTable.init]
  refine ⟨by rw [hf]; rfl, ?_⟩
  rw [hf, FdTable.init, promiscuousMode_canInit82c200]
  simp

section Flag

variable {t t' : FdTable} {fd : Fin canMaxUsecount}

theorem promiscuousFds_set (h : ∀ fd', fd' ≠ fd → promiscuousAt t' fd' = promiscuousAt t fd')
    (hs : promiscuousAt t' fd = true) : promiscuousFds t' = insert fd (promiscuousFds t) := by
  ext fd'
  rcases eq_or_ne fd' fd with rfl | hne
  · simp [promiscuousFds, hs]
  · simp [promiscuousFds, h fd' hne, hne]

theorem promiscuousFds_clr (h : ∀ fd', fd' ≠ fd → promiscuousAt t' fd' = promiscuousAt t fd')
    (hs : promiscuousAt t' fd = false) : promiscuousFds t' = (promiscuousFds t).erase fd := by
  ext fd'
  rcases eq_or_ne fd' fd with rfl | hne
  · simp [promiscuousFds, hs]
  · simp [promiscuousFds, h fd' hne, hne]

theorem mem_promiscuousFds : fd ∈ promiscuousFds t ↔ promiscuousAt t fd = true := by
  simp [promiscuousFds]

theorem PromiscuousOk.set_iff (h : PromiscuousOk t) (nodeid : BitVec 32)
    (hf : promiscuousFds t' = insert fd (promiscuousFds t))
    (hu : t'.promiscuousUsecount = t.promiscuousUsecount + 1)
    (hr : t'.reg = if t.promiscuousUsecount = 0 then canInit82c200 true nodeid else t.reg) :
    PromiscuousOk t' ↔ promiscuousAt t fd = false := by
  rw [← Bool.not_eq_true, ← mem_promiscuousFds]
  constructor
  · intro h' hmem
    have hc := h'.usecount
    rw [hf, Finset.insert_eq_of_mem hmem, hu, h.usecount] at hc
    omega
  · intro hmem
    refine ⟨?_, ?_⟩
    · rw [hf, Finset.card_insert_of_notMem hmem, hu, h.usecount]
      rfl
    · rw [hf, Finset.card_insert_of_notMem hmem, hr, h.usecount]
      split_ifs with h0
      · simp [promiscuousMode_canInit82c200]
      · have hpos : 0 < (promiscuousFds t).card := by omega
        simp [h.mode.mpr hpos]

theorem PromiscuousOk.drop_iff (h : PromiscuousOk t) (nodeid : BitVec 32)
    (hf : promiscuousFds t' = (promiscuousFds t).erase fd)
    (hu : t'.promiscuousUsecount = t.promiscuousUsecount - 1)
    (hr : t'.reg = if t.promiscuousUsecount - 1 = 0 then canInit82c200 false nodeid else t.reg) :
    PromiscuousOk t' ↔ promiscuousAt t fd = true := by
  rw [← mem_promiscuousFds]
  constructor
  · intro h'
    by_contra hmem
    have hc := h'.usecount
    rw [hf, Finset.erase_eq_of_notMem hmem, hu, h.usecount] at hc
    omega
  · intro hmem
    have hpos : 0 < (promiscuousFds t).card := Finset.card_pos.mpr ⟨fd, hmem⟩
    refine ⟨?_, ?_⟩
    · rw [hf, Finset.card_erase_of_mem hmem, hu, h.usecount]
      omega
    · rw [hf, Finset.card_erase_of_mem hmem, hr, h.usecount]
      split_ifs with h0
      · simp only [promiscuousMode_canInit82c200, Bool.false_eq_true, false_iff]
        omega
      · simp only [h.mode.mpr hpos, true_iff]
        omega

theorem modify_promiscuousAt {g : FileState → FileState} {f : FileState} (hf : t.openfd fd = some f) :
    promiscuousAt (t.modify fd g) fd = (g f).promiscuous ∧
      ∀ fd', fd' ≠ fd → promiscuousAt (t.modify fd g) fd' = promiscuousAt t fd' := by
  refine ⟨by simp [promiscuousAt, FdTable.modify, hf], fun fd' hne => ?_⟩
  simp [promiscuousAt, FdTable.modify, Function.update_of_ne hne]

end Flag

/-- The steps that keep flags, count and chip together: the flag is set only
where it is clear and cleared only where it is set, and the chip is reset only
while no file is promiscuous. -/
def Matched (d : Driver) : DriverOp → Prop
  | .ioctl fd .setPromiscuous _ => promiscuousAt d.node.fds fd = false
  | .ioctl fd .clrPromiscuous _ => promiscuousAt d.node.fds fd = true
  | .ioctl _ .setReset _ => ∀ fd, promiscuousAt d.node.fds fd = false
  | _ => True

theorem PromiscuousOk.setPromiscuous_iff {t : FdTable} (h : PromiscuousOk t)
    {fd : Fin canMaxUsecount} {f : FileState} (hf : t.openfd fd = some f) (nodeid : BitVec 32) :
    PromiscuousOk (setPromiscuous fd nodeid t) ↔ promiscuousAt t fd = false := by
  obtain ⟨hs, ho⟩ := modify_promiscuousAt (g := fun f => { f with promiscuous := true }) hf
  exact h.set_iff nodeid (promiscuousFds_set ho hs) rfl rfl

theorem PromiscuousOk.clrPromiscuous_iff {t : FdTable} (h : PromiscuousOk t)
    {fd : Fin canMaxUsecount} {f : FileState} (hf : t.openfd fd = some f) (nodeid : BitVec 32) :
    PromiscuousOk (clrPromiscuous fd nodeid t) ↔ promiscuousAt t fd = true := by
  obtain ⟨hs, ho⟩ := modify_promiscuousAt (g := fun f => { f with promiscuous := false }) hf
  exact h.drop_iff nodeid (promiscuousFds_clr ho hs) rfl rfl

theorem PromiscuousOk.setReset_iff {t : FdTable} (h : PromiscuousOk t) (nodeid : BitVec 32) :
    PromiscuousOk { t with reg := canInit82c200 false nodeid } ↔
      ∀ fd, promiscuousAt t fd = false := by
  have hf : promiscuousFds { t with reg := canInit82c200 false nodeid } = promiscuousFds t := rfl
  have hz : (∀ fd, promiscuousAt t fd = false) ↔ (promiscuousFds t).card = 0 := by
    simp [promiscuousFds, Finset.filter_eq_empty_iff]
  rw [hz]
  constructor
  · intro h'
    have hm := h'.mode
    simp only [hf, promiscuousMode_canInit82c200, Bool.false_eq_true, false_iff] at hm
    omega
  · intro hc
    refine ⟨h.usecount, ?_⟩
    simp only [hf, promiscuousMode_canInit82c200, hc]
    simp

theorem PromiscuousOk.release {t : FdTable} (h : PromiscuousOk t) {fd : Fin canMaxUsecount}
    {f : FileState} (hf : t.openfd fd = some f) (nodeid : BitVec 32) :
    PromiscuousOk (canReleaseOpenfd fd nodeid t) := by
  have ho : ∀ fd', fd' ≠ fd →
      promiscuousAt (canReleaseOpenfd fd nodeid t) fd' = promiscuousAt t fd' := fun fd' hne => by
    simp [promiscuousAt, canReleaseOpenfd_openfd hf, Function.update_of_ne hne]
  have hs : promiscuousAt (canReleaseOpenfd fd nodeid t) fd = false := by
    simp [promiscuousAt, canReleaseOpenfd_openfd hf]
  have hfr : (freed f t).promiscuousUsecount = t.promiscuousUsecount ∧ (freed f t).reg = t.reg := by
    unfold freed canFreeConsobj
    split_ifs <;> exact ⟨rfl, rfl⟩
  have hat : promiscuousAt t fd = f.promiscuous := by simp [promiscuousAt, hf]
  cases hp : f.promiscuous with
  | true =>
    have hr : canReleaseOpenfd fd nodeid t =
        { dropPromiscuous nodeid (freed f t) with
          openfd := Function.update (freed f t).openfd fd none } := by
      simp only [canReleaseOpenfd, hf, hp, if_true, freed]
      rfl
    refine (h.drop_iff nodeid (promiscuousFds_clr ho hs) ?_ ?_).mpr (hat.trans hp)
    · rw [hr]
      simp [dropPromiscuous, hfr.1]
    · rw [hr]
      simp [dropPromiscuous, hfr]
  | false =>
    have hr : canReleaseOpenfd fd nodeid t =
        { freed f t with openfd := Function.update (freed f t).openfd fd none } := by
      simp only [canReleaseOpenfd, hf, hp, Bool.false_eq_true, if_false, freed]
    refine h.of_fds (promiscuousFds_congr fun fd' => ?_) (by rw [hr]; exact hfr.1)
      (by rw [hr]; exact hfr.2)
    rcases eq_or_ne fd' fd with rfl | hne
    · rw [hs, hat, hp]
    · exact ho fd' hne

theorem PromiscuousOk.sameFiles {t t' : FdTable} (h : PromiscuousOk t) (hs : SameFiles t t') :
    PromiscuousOk t' := by
  refine h.of_fds (promiscuousFds_congr fun fd => ?_) hs.promiscuousUsecount hs.reg
  have he := hs.settings fd
  unfold promiscuousAt
  cases hf : t.openfd fd <;> cases hf' : t'.openfd fd <;> simp_all [FileState.settings]

theorem PromiscuousOk.modify {t : FdTable} (h : PromiscuousOk t) {fd : Fin canMaxUsecount}
    {f : FileState} (hf : t.openfd fd = some f) {g : FileState → FileState}
    (hg : (g f).promiscuous = f.promiscuous) : PromiscuousOk (t.modify fd g) := by
  obtain ⟨hs, ho⟩ := modify_promiscuousAt (g := g) hf
  refine h.of_fds (promiscuousFds_congr fun fd' => ?_) rfl rfl
  rcases eq_or_ne fd' fd with rfl | hne
  · rw [hs, hg]
    simp [promiscuousAt, hf]
  · exact ho fd' hne

theorem PromiscuousOk.getConsobj {t : FdTable} (h : PromiscuousOk t) {fd : Fin canMaxUsecount}
    {f : FileState} (hf : t.openfd fd = some f) (jiffies : BitVec 32) :
    PromiscuousOk (getConsobj fd f jiffies t).1 := by
  have ha : PromiscuousOk (canAllocConsobj jiffies (freed f t)).1 := by
    unfold canAllocConsobj freed canFreeConsobj
    split <;> split_ifs <;> exact h.of_fds rfl rfl rfl
  have hfa : (canAllocConsobj jiffies (freed f t)).1.openfd fd = some f := by
    unfold canAllocConsobj
    split <;> simpa using hf
  exact ha.modify hfa rfl

theorem PromiscuousOk.ioctl_iff {d : Driver} (h : PromiscuousOk d.node.fds)
    {fd : Fin canMaxUsecount} {f : FileState} (hf : d.node.fds.openfd fd = some f)
    (cmd : IoctlCmd) (fault : Bool) :
    PromiscuousOk (canIoctl fd cmd fault d.node).1.fds ↔ Matched d (.ioctl fd cmd fault) := by
  cases cmd with
  | setPromiscuous => exact h.setPromiscuous_iff hf _
  | clrPromiscuous => exact h.clrPromiscuous_iff hf _
  | setReset => exact h.setReset_iff _
  | setSnoopy => exact iff_true_intro (h.modify hf rfl)
  | clrSnoopy => exact iff_true_intro (h.modify hf rfl)
  | getHeartbeat => exact iff_true_intro h
  | setHeartbeat val =>
    simp only [canIoctl]
    split_ifs <;> exact iff_true_intro h
  | getAddr => exact iff_true_intro h
  | getConsobj =>
    simp only [canIoctl, hf]
    exact iff_true_intro (h.getConsobj hf _)
  | setDebug =>
    have he := (canDumpInfo_prints { d.node with canDebug := true }).fds
    simp only [canIoctl, he]
    exact iff_true_intro h
  | clrDebug =>
    have he := (printk_prints "can: debugging OFF\n" { d.node with canDebug := false }).fds
    simp only [canIoctl, he]
    exact iff_true_intro h
  | other => exact iff_true_intro h

theorem PromiscuousOk.step_iff {d d' : Driver} {op : DriverOp} (h : PromiscuousOk d.node.fds)
    (hs : DriverStep d op d') : PromiscuousOk d'.node.fds ↔ Matched d op := by
  obtain ⟨rfl, fd, ha⟩ | ⟨fd, f, rfl, hf, he⟩ | ⟨fd, f, cmd, fault, rfl, hf, he⟩ |
    ⟨-, hio, hsame⟩ := hs.fds_cases
  · obtain ⟨hn, he⟩ := canAllocOpenfd_eq ha
    rw [he]
    refine iff_true_intro (h.of_fds (promiscuousFds_congr fun fd' => ?_) rfl rfl)
    rcases eq_or_ne fd' fd with rfl | hne
    · simp [promiscuousAt, hn]
    · simp [promiscuousAt, Function.update_of_ne hne]
  · rw [he]
    exact iff_true_intro (h.release hf _)
  · rw [he]
    exact h.ioctl_iff hf cmd fault
  · have hm : Matched d op := by
      cases op with
      | ioctl fd cmd fault => exact absurd rfl (hio fd cmd fault)
      | _ => trivial
    exact iff_of_true (h.sameFiles hsame) hm

theorem PromiscuousOk.driver_init (n : Node) : PromiscuousOk (Driver.init n).node.fds := by
  rw [Driver.init_fds]
  exact .init _

/-- Flags, count and chip agree throughout a run exactly when its calls match:
CAN_SET_PROMISCUOUS on files that are not promiscuous, CAN_CLR_PROMISCUOUS on
files that are, CAN_SET_RESET while none is. -/
theorem promiscuous_bookkeeping {n : Node} {tr : List (Driver × DriverOp)} {d : Driver}
    (h : Run DriverStep (Driver.init n) tr d) :
    ((∀ x ∈ tr, PromiscuousOk x.1.node.fds) ∧ PromiscuousOk d.node.fds) ↔
      ∀ x ∈ tr, Matched x.1 x.2 :=
  h.forall_ok_iff (P := fun d => PromiscuousOk d.node.fds) (.driver_init n)
    fun _ _ _ hp hs => hp.step_iff hs

theorem promiscuous_bookkeeping_close :
    ∃ tr d, Run DriverStep (Driver.init (Node.boot 1 noConsole (.init 1) .empty)) tr d ∧
      tr.map Prod.snd = [.open, .open, .ioctl 0 .setPromiscuous false,
        .ioctl 1 .setPromiscuous false, .release 0] ∧ PromiscuousOk d.node.fds := by
  have hr := Run.nil
    |>.snoc (DriverStep.open (d := Driver.init (Node.boot 1 noConsole (.init 1) .empty)) rfl)
    |>.snoc (.open rfl)
    |>.snoc (@DriverStep.ioctl _ 0 _ rfl .setPromiscuous false)
    |>.snoc (@DriverStep.ioctl _ 1 _ rfl .setPromiscuous false)
    |>.snoc (@DriverStep.release _ 0 _ rfl)
  refine ⟨_, _, hr, rfl, ((promiscuous_bookkeeping hr).mpr ?_).2⟩
  simp only [List.nil_append, List.cons_append, List.mem_cons, List.not_mem_nil, or_false]
  rintro x (rfl | rfl | rfl | rfl | rfl)
  · trivial
  · trivial
  · rfl
  · rfl
  · trivial

/-- One file asks for promiscuous mode twice. -/
theorem promiscuous_set_twice :
    ∃ tr d, Run DriverStep (Driver.init (Node.boot 1 noConsole (.init 1) .empty)) tr d ∧
      tr.map Prod.snd =
        [.open, .ioctl 0 .setPromiscuous false, .ioctl 0 .setPromiscuous false] ∧
      ¬ PromiscuousOk d.node.fds := by
  have h₁ := PromiscuousOk.driver_init (Node.boot 1 noConsole (.init 1) .empty)
  have hr := Run.nil
    |>.snoc (DriverStep.open (d := Driver.init (Node.boot 1 noConsole (.init 1) .empty)) rfl)
    |>.snoc (@DriverStep.ioctl _ 0 _ rfl .setPromiscuous false)
    |>.snoc (@DriverStep.ioctl _ 0 _ rfl .setPromiscuous false)
  refine ⟨_, _, hr, rfl, fun h₄ => ?_⟩
  have h₂ := (h₁.step_iff (DriverStep.open rfl)).mpr trivial
  have h₃ := (h₂.step_iff (@DriverStep.ioctl _ 0 _ rfl .setPromiscuous false)).mpr rfl
  -- the second call would need the flag, now set, to be clear
  have h₅ : true = false := (h₃.step_iff (@DriverStep.ioctl _ 0 _ rfl .setPromiscuous false)).mp h₄
  cases h₅

end MeikoCs2
