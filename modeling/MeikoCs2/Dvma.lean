import Mathlib.Data.List.Perm.Subperm
import MeikoCs2.Iommu

/-! The page table of the IOMMU over whole runs of allocations, releases and
area mappings. Callers give back what they were given, once, and map areas
outside the segment of the SCSI buffers only. -/

namespace MeikoCs2

namespace Dvma

inductive Op where
  | getScsiOne (vaddr len : Nat)
  | getScsiSgl (sg : List MmuSglist)
  | releaseScsiOne (iovaddr : Nat)
  | releaseScsiSgl (sg : List MmuSglist)
  | mapDmaArea (getFreePage : Nat → Nat) (iovaddr len : BitVec 32)

def mapping (x : MmuSglist) : Mapping := ⟨x.addr, x.dvmaAddr⟩

def dropSgl (sg : List MmuSglist) (l : List Mapping) : List Mapping :=
  sg.foldr (fun x l => dropLive x.dvmaAddr l) l

section Exec

variable (seg : ScsiSegment) (mmuV2p : Nat → BitVec 32)

/-- The state after a call, unless the call panics. -/
def exec (s : Dvma) : Op → Option Dvma
  | .getScsiOne vaddr len =>
    (iommu40GetScsiOne seg mmuV2p vaddr len s.pt).map fun r => ⟨r.2, ⟨vaddr, r.1⟩ :: s.live⟩
  | .getScsiSgl sg =>
    (iommu40GetScsiSgl seg mmuV2p sg s.pt).map fun r => ⟨r.2, r.1.map mapping ++ s.live⟩
  | .releaseScsiOne a => (iommu40ReleaseScsiOne a s.pt).map fun pt => ⟨pt, dropLive a s.live⟩
  | .releaseScsiSgl sg => (iommu40ReleaseScsiSgl sg s.pt).map fun pt => ⟨pt, dropSgl sg s.live⟩
  | .mapDmaArea getFreePage iovaddr len =>
    (iommu40MapDmaArea mmuV2p getFreePage iovaddr len s.pt).map fun pt => ⟨pt, s.live⟩

/-- What the callers see to. -/
def Allowed (s : Dvma) : Op → Prop
  | .releaseScsiOne a => a ∈ s.live.map Mapping.iovaddr
  | .releaseScsiSgl sg => (sg.map MmuSglist.dvmaAddr).Subperm (s.live.map Mapping.iovaddr)
  | .mapDmaArea _ iovaddr len => Outside seg iovaddr len
  | _ => True

def Step (s : Dvma) (op : Op) (u : Dvma) : Prop :=
  Allowed seg s op ∧ exec seg mmuV2p s op = some u

end Exec

/-- `iommu40_init` clears the page table. -/
def boot : Dvma := ⟨fun _ => 0, []⟩

variable {seg : ScsiSegment} {mmuV2p : Nat → BitVec 32} {s u : Dvma}

theorem inv_boot : DvmaInv seg mmuV2p boot where
  distinct := List.nodup_nil
  placed := by simp [boot]
  entry := by simp [boot]
  exact i _ := by
    have hz : iopteValid (0 : BitVec 32) = false := by decide
    refine iff_of_false (by rw [boot, hz]; exact Bool.false_ne_true) ?_
    rintro ⟨m, hm, -⟩
    exact List.not_mem_nil hm

theorem getScsiSgl_inv {sg : List MmuSglist} {r : List MmuSglist × PageTable}
    (h : DvmaInv seg mmuV2p s) (hr : iommu40GetScsiSgl seg mmuV2p sg s.pt = some r) :
    DvmaInv seg mmuV2p ⟨r.2, r.1.map mapping ++ s.live⟩ := by
  induction sg generalizing r with
  | nil =>
    obtain rfl := Option.some.inj hr
    exact h
  | cons x sg ih =>
    obtain ⟨r₁, hr₁, hr⟩ := Option.bind_eq_some_iff.mp hr
    obtain ⟨a, ha, hr⟩ := Option.bind_eq_some_iff.mp hr
    obtain rfl := Option.some.inj hr
    exact (ih hr₁).getArea ha

/-- A list for which the allocation panics has an element at which it does:
the ones behind it have been mapped. -/
theorem getScsiSgl_none {sg : List MmuSglist} (h : DvmaInv seg mmuV2p s)
    (hr : iommu40GetScsiSgl seg mmuV2p sg s.pt = none) :
    ∃ x tl v, (x :: tl) <:+ sg ∧ exec seg mmuV2p s (.getScsiSgl tl) = some v ∧
      (pageSize < x.len ∨ AllLive seg v) := by
  induction sg with
  | nil => cases hr
  | cons x sg ih =>
    cases hr₁ : iommu40GetScsiSgl seg mmuV2p sg s.pt with
    | none =>
      obtain ⟨y, tl, v, hsuf, hv⟩ := ih hr₁
      exact ⟨y, tl, v, hsuf.trans (List.suffix_cons x sg), hv⟩
    | some r =>
      have hinv := getScsiSgl_inv h hr₁
      have ha : iommu40GetArea seg mmuV2p x.addr x.len r.2 = none := by
        cases ha : iommu40GetArea seg mmuV2p x.addr x.len r.2 with
        | none => rfl
        | some a => simp [iommu40GetScsiSgl, hr₁, ha] at hr
      refine ⟨x, sg, ⟨r.2, r.1.map mapping ++ s.live⟩, List.suffix_rfl, ?_, hinv.getArea_none ha⟩
      simp only [exec, hr₁, Option.map_some]

theorem dropSgl_perm {sg : List MmuSglist} {l : List Mapping}
    (h : (sg.map MmuSglist.dvmaAddr).Subperm (l.map Mapping.iovaddr)) :
    (sg.map MmuSglist.dvmaAddr ++ (dropSgl sg l).map Mapping.iovaddr).Perm
      (l.map Mapping.iovaddr) ∧
    ∀ x tl, sg = x :: tl → x.dvmaAddr ∈ (dropSgl tl l).map Mapping.iovaddr := by
  induction sg with
  | nil => exact ⟨.refl _, nofun⟩
  | cons x sg ih =>
    obtain ⟨hp, -⟩ := ih ((List.sublist_cons_self _ _).subperm.trans h)
    have hmem : x.dvmaAddr ∈ (dropSgl sg l).map Mapping.iovaddr := by
      have hsub := hp.symm.subperm_left.mp h
      rw [List.map_cons] at hsub
      have hone := (List.perm_append_singleton _ _).subperm.trans hsub
      exact List.singleton_subperm_iff.mp ((List.subperm_append_left _).mp hone)
    refine ⟨?_, ?_⟩
    · rw [dropSgl, List.foldr_cons, map_dropLive, List.map_cons, List.cons_append]
      refine (List.perm_middle.symm.trans ?_).trans hp
      exact (List.perm_cons_erase hmem).symm.append_left _
    · intro y tl he
      obtain ⟨rfl, rfl⟩ := List.cons.inj he
      exact hmem

/-- The assertions hold when a list of addresses in use is released. -/
theorem releaseSgl_inv {sg : List MmuSglist} (h : DvmaInv seg mmuV2p s)
    (hsub : (sg.map MmuSglist.dvmaAddr).Subperm (s.live.map Mapping.iovaddr)) :
    ∃ pt, iommu40ReleaseScsiSgl sg s.pt = some pt ∧
      DvmaInv seg mmuV2p ⟨pt, dropSgl sg s.live⟩ := by
  induction sg with
  | nil => exact ⟨s.pt, rfl, h⟩
  | cons x sg ih =>
    obtain ⟨pt, hpt, hinv⟩ := ih ((List.sublist_cons_self _ _).subperm.trans hsub)
    obtain ⟨pt', hpt', hinv'⟩ := hinv.releaseOne ((dropSgl_perm hsub).2 x sg rfl)
    refine ⟨pt', ?_, hinv'⟩
    rw [iommu40ReleaseScsiSgl, hpt]
    exact hpt'

theorem step_inv {op : Op} (hs : Step seg mmuV2p s op u) (h : DvmaInv seg mmuV2p s) :
    DvmaInv seg mmuV2p u := by
  obtain ⟨hok, hx⟩ := hs
  cases op with
  | getScsiOne vaddr len =>
    obtain ⟨r, hr, rfl⟩ := Option.map_eq_some_iff.mp hx
    exact h.getArea hr
  | getScsiSgl sg =>
    obtain ⟨r, hr, rfl⟩ := Option.map_eq_some_iff.mp hx
    exact getScsiSgl_inv h hr
  | releaseScsiOne a =>
    obtain ⟨pt, hr, rfl⟩ := Option.map_eq_some_iff.mp hx
    obtain ⟨pt', hr', hinv⟩ := h.releaseOne hok
    obtain rfl := Option.some.inj (hr.symm.trans hr')
    exact hinv
  | releaseScsiSgl sg =>
    obtain ⟨pt, hr, rfl⟩ := Option.map_eq_some_iff.mp hx
    obtain ⟨pt', hr', hinv⟩ := releaseSgl_inv h hok
    obtain rfl := Option.some.inj (hr.symm.trans hr')
    exact hinv
  | mapDmaArea getFreePage iovaddr len =>
    obtain ⟨pt, hr, rfl⟩ := Option.map_eq_some_iff.mp hx
    exact h.mapDmaArea hok hr

theorem run_inv {tr : List (Dvma × Op)} (hr : Run (Step seg mmuV2p) boot tr u) :
    DvmaInv seg mmuV2p u :=
  hr.invariant inv_boot fun _ _ _ ht hs => step_inv hs ht

def Op.isRelease : Op → Bool
  | .releaseScsiOne _ | .releaseScsiSgl _ => true
  | _ => false

/-- What holds of the mappings in use, and of the calls that come next. -/
structure DvmaSafe (seg : ScsiSegment) (mmuV2p : Nat → BitVec 32) (s : Dvma) : Prop where
  distinct : (s.live.map fun m => iopteIndex m.iovaddr).Nodup
  placed : ∀ m ∈ s.live, seg.iommuVaddr ≤ m.iovaddr ∧ m.iovaddr < seg.iommuEnd ∧
    m.iovaddr % pageSize = m.vaddr % pageSize
  entry : ∀ m ∈ s.live, iopteValid (s.pt (iopteIndex m.iovaddr)) = true ∧
    ioptePfn (s.pt (iopteIndex m.iovaddr)) = (mmuV2p m.vaddr).toNat / pageSize
  exact : ∀ i, seg.Has i →
    (iopteValid (s.pt i) = true ↔ ∃ m ∈ s.live, iopteIndex m.iovaddr = i)
  releases : ∀ op : Op, op.isRelease = true → Allowed seg s op → exec seg mmuV2p s op ≠ none
  one_panics : ∀ vaddr len, exec seg mmuV2p s (.getScsiOne vaddr len) = none →
    pageSize < len ∨ AllLive seg s
  sgl_panics : ∀ sg, exec seg mmuV2p s (.getScsiSgl sg) = none →
    ∃ x tl v, (x :: tl) <:+ sg ∧ exec seg mmuV2p s (.getScsiSgl tl) = some v ∧
      (pageSize < x.len ∨ AllLive seg v)

theorem releases_of_inv (h : DvmaInv seg mmuV2p s) {op : Op} (hop : op.isRelease = true)
    (hok : Allowed seg s op) : exec seg mmuV2p s op ≠ none := by
  intro hx
  cases op with
  | releaseScsiOne a =>
    obtain ⟨pt, hpt, -⟩ := h.releaseOne hok
    rw [exec, hpt] at hx
    cases hx
  | releaseScsiSgl sg =>
    obtain ⟨pt, hpt, -⟩ := releaseSgl_inv h hok
    rw [exec, hpt] at hx
    cases hx
  | getScsiOne vaddr len => cases hop
  | getScsiSgl sg => cases hop
  | mapDmaArea getFreePage iovaddr len => cases hop

theorem dvma_safe {tr : List (Dvma × Op)} (hr : Run (Step seg mmuV2p) boot tr u) :
    DvmaSafe seg mmuV2p u := by
  have h := run_inv hr
  refine ⟨h.distinct, h.placed, ?_, h.exact, fun op => releases_of_inv h, ?_, ?_⟩
  · intro m hm
    rw [h.entry m hm]
    exact ⟨iopteValid_mkiopte _, ioptePfn_mkiopte _⟩
  · intro vaddr len hx
    exact h.getArea_none (Option.map_eq_none_iff.mp hx)
  · intro sg hx
    exact getScsiSgl_none h (Option.map_eq_none_iff.mp hx)

def twoPages : ScsiSegment where
  iommuVaddr := 0xff000000
  iommuEnd := 0xff002000
  vaddr_aligned := by decide
  end_aligned := by decide
  base_le := by decide
  vaddr_lt := by decide
  end_lt := by decide

def identity (vaddr : Nat) : BitVec 32 := BitVec.ofNat 32 vaddr

def twoBuffers : List MmuSglist := [⟨0x12345800, 0x100, 0⟩, ⟨0x22345000, 0x1000, 0⟩]

def afterSgl : Dvma := (exec twoPages identity boot (.getScsiSgl twoBuffers)).getD boot

theorem dvma_safe_two_buffers :
    afterSgl.live = [⟨0x12345800, 0xff001800⟩, ⟨0x22345000, 0xff000000⟩] ∧
      ∃ tr u, Run (Step twoPages identity) boot tr u ∧ DvmaSafe twoPages identity u ∧
        u.live = [⟨0x22345000, 0xff000000⟩] := by
  have h₁ : Step twoPages identity boot (.getScsiSgl twoBuffers) afterSgl := ⟨trivial, rfl⟩
  refine ⟨rfl, ?_⟩
  obtain ⟨u, hu, hlive⟩ : ∃ u,
      exec twoPages identity afterSgl (.releaseScsiOne 0xff001800) = some u ∧
        u.live = [⟨0x22345000, 0xff000000⟩] := ⟨_, rfl, rfl⟩
  have h₂ : Step twoPages identity afterSgl (.releaseScsiOne 0xff001800) u :=
    ⟨List.mem_cons_self, hu⟩
  have hr := (Run.nil.snoc h₁).snoc h₂
  exact ⟨_, u, hr, dvma_safe hr, hlive⟩

/-- A buffer longer than a page is refused while no page is handed out. -/
theorem long_buffer_panics :
    ¬ ∀ seg mmuV2p tr u, Run (Step seg mmuV2p) boot tr u → ∀ vaddr len,
      exec seg mmuV2p u (.getScsiOne vaddr len) = none → AllLive seg u := by
  intro h
  have hall := h twoPages identity [] boot .nil 0 4097 rfl twoPages.first ⟨Nat.le_refl _, by decide⟩
  obtain ⟨m, hm, -⟩ := hall
  exact List.not_mem_nil hm

end Dvma

end MeikoCs2
