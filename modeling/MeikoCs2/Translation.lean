import MeikoCs2.Dvma

/-! What a device sees of a SCSI buffer behind the IOMMU. A mapping is one
entry, which holds the page of the first byte. -/

namespace MeikoCs2

/-- The physical address behind an I/O virtual address. -/
def translate (pt : PageTable) (iovaddr : Nat) : Option Nat :=
  if iommu40BaseAddr ≤ iovaddr ∧ iovaddr < 2 ^ 32 ∧ iopteValid (pt (iopteIndex iovaddr)) = true then
    some (ioptePfn (pt (iopteIndex iovaddr)) * pageSize + iovaddr % pageSize)
  else none

/-- The translation of the CPU goes by pages. -/
structure PageWise (mmuV2p : Nat → BitVec 32) : Prop where
  offset : ∀ a, (mmuV2p a).toNat % pageSize = a % pageSize
  page : ∀ a b, a / pageSize = b / pageSize →
    (mmuV2p a).toNat / pageSize = (mmuV2p b).toNat / pageSize

/-- The device reads and writes the bytes of the buffer. -/
def Covers (mmuV2p : Nat → BitVec 32) (pt : PageTable) (vaddr len iovaddr : Nat) : Prop :=
  ∀ k < len, translate pt (iovaddr + k) = some (mmuV2p (vaddr + k)).toNat

/-- The number of the physical page behind an address of the CPU. -/
def frame (mmuV2p : Nat → BitVec 32) (a : Nat) : Nat := (mmuV2p a).toNat / pageSize

/-- The buffer does not go beyond the page it begins in. -/
def FitsPage (vaddr len : Nat) : Prop := vaddr % pageSize + len ≤ pageSize

def MapsTo (pt : PageTable) (i f : Nat) : Prop := iopteValid (pt i) = true ∧ ioptePfn (pt i) = f

section Covers

variable {mmuV2p : Nat → BitVec 32} {pt : PageTable}

theorem mapsTo_mkiopte {i a f : Nat} (h : pt i = mkiopte (mmuV2p a)) :
    MapsTo pt i f ↔ frame mmuV2p a = f := by
  rw [MapsTo, h, iopteValid_mkiopte, ioptePfn_mkiopte, frame]
  exact and_iff_right rfl

theorem translate_page {i off : Nat} (hoff : off < pageSize) (hi : ioAddress (i + 1) ≤ 2 ^ 32) :
    translate pt (ioAddress i + off) =
      if iopteValid (pt i) = true then some (ioptePfn (pt i) * pageSize + off) else none := by
  have hlow : iommu40BaseAddr ≤ ioAddress i + off := by
    rw [ioAddress, Nat.add_assoc]
    exact Nat.le_add_right _ _
  have hhigh : ioAddress i + off < 2 ^ 32 := by
    rw [ioAddress_succ] at hi
    exact Nat.lt_of_lt_of_le (Nat.add_lt_add_left hoff _) hi
  have hmod : (ioAddress i + off) % pageSize = off := by
    simp only [ioAddress, pageSize, iommu40BaseAddr] at hoff ⊢
    omega
  rw [translate, iopteIndex_page i hoff, hmod]
  simp only [hlow, hhigh, true_and]

theorem PageWise.toNat_eq (hv : PageWise mmuV2p) (a : Nat) :
    (mmuV2p a).toNat = frame mmuV2p a * pageSize + a % pageSize := by
  rw [frame, ← hv.offset a]
  exact (Nat.div_add_mod' _ _).symm

theorem PageWise.translate_eq_iff (hv : PageWise mmuV2p) {i a : Nat}
    (hi : ioAddress (i + 1) ≤ 2 ^ 32) :
    translate pt (ioAddress i + a % pageSize) = some (mmuV2p a).toNat ↔
      MapsTo pt i (frame mmuV2p a) := by
  rw [translate_page (Nat.mod_lt _ (by decide)) hi, hv.toNat_eq a, MapsTo]
  constructor
  · intro h
    split_ifs at h with hvalid
    have he := Option.some.inj h
    simp only [pageSize] at he
    exact ⟨hvalid, by omega⟩
  · rintro ⟨hvalid, hpfn⟩
    rw [if_pos hvalid, hpfn]

/-- Behind the end of the page a buffer goes on in the entry that follows. -/
theorem PageWise.covers_iff (hv : PageWise mmuV2p) {j vaddr len : Nat}
    (hj : ioAddress (j + 2) ≤ 2 ^ 32) (he : pt j = mkiopte (mmuV2p vaddr))
    (hlen : len ≤ pageSize) :
    Covers mmuV2p pt vaddr len (ioAddress j + vaddr % pageSize) ↔
      FitsPage vaddr len ∨ MapsTo pt (j + 1) (frame mmuV2p (vaddr + pageSize)) := by
  have hj' : ioAddress (j + 1) ≤ 2 ^ 32 :=
    Nat.le_trans (ioAddress_le (Nat.le_succ (j + 1))) hj
  have hfirst : ∀ k, vaddr % pageSize + k < pageSize →
      translate pt (ioAddress j + vaddr % pageSize + k) = some (mmuV2p (vaddr + k)).toNat := by
    intro k hk
    have haddr : ioAddress j + vaddr % pageSize + k = ioAddress j + (vaddr + k) % pageSize := by
      simp only [pageSize] at hk ⊢
      omega
    have hsame : frame mmuV2p vaddr = frame mmuV2p (vaddr + k) := by
      apply hv.page
      simp only [pageSize] at hk ⊢
      omega
    rw [haddr, hv.translate_eq_iff hj', ← hsame, mapsTo_mkiopte he]
  have hnext : ∀ k, k < len → pageSize ≤ vaddr % pageSize + k →
      (translate pt (ioAddress j + vaddr % pageSize + k) = some (mmuV2p (vaddr + k)).toNat ↔
        MapsTo pt (j + 1) (frame mmuV2p (vaddr + pageSize))) := by
    intro k hk hp
    have haddr : ioAddress j + vaddr % pageSize + k =
        ioAddress (j + 1) + (vaddr + k) % pageSize := by
      rw [ioAddress_succ]
      simp only [pageSize] at hk hp hlen ⊢
      omega
    have hsame : frame mmuV2p (vaddr + k) = frame mmuV2p (vaddr + pageSize) := by
      apply hv.page
      simp only [pageSize] at hk hp hlen ⊢
      omega
    rw [haddr, hv.translate_eq_iff hj, hsame]
  constructor
  · intro hc
    by_cases hfits : FitsPage vaddr len
    · exact .inl hfits
    · right
      rw [FitsPage] at hfits
      have hoff : vaddr % pageSize < pageSize := Nat.mod_lt _ (by decide)
      have hk : len - 1 < len := by omega
      exact (hnext (len - 1) hk (by omega)).mp (hc (len - 1) hk)
  · intro hor k hk
    by_cases hp : vaddr % pageSize + k < pageSize
    · exact hfirst k hp
    · rcases hor with hfits | hmaps
      · rw [FitsPage] at hfits
        omega
      · exact (hnext k hk (by omega)).mpr hmaps

end Covers

/-- The entries of the segment that are not valid, the lowest first. -/
def freeEntries (seg : ScsiSegment) (pt : PageTable) : List Nat :=
  freeSlots (fun j => iopteValid (pt j)) seg.pages seg.first

/-- The elements of a list, the last one first, with the entries they get. -/
def placed (seg : ScsiSegment) (pt : PageTable) (sg : List MmuSglist) : List (Nat × MmuSglist) :=
  (freeEntries seg pt).zip sg.reverse

section Placed

variable {seg : ScsiSegment} {mmuV2p : Nat → BitVec 32} {pt : PageTable}

theorem iommu40GetArea_some {vaddr len : Nat} {r : Nat × PageTable}
    (h : iommu40GetArea seg mmuV2p vaddr len pt = some r) :
    len ≤ pageSize ∧ ∃ j, freeEntries seg pt = j :: freeEntries seg r.2 ∧
      r = (ioAddress j + vaddr % pageSize, Function.update pt j (mkiopte (mmuV2p vaddr))) := by
  rw [iommu40GetArea_eq, firstFree_eq_head] at h
  split_ifs at h with hlen
  refine ⟨hlen, ?_⟩
  obtain ⟨j, hj, rfl⟩ := Option.map_eq_some_iff.mp h
  obtain ⟨rest, hrest⟩ := List.head?_eq_some_iff.mp hj
  refine ⟨j, ?_, rfl⟩
  have htail : freeEntries seg (Function.update pt j (mkiopte (mmuV2p vaddr))) = rest := by
    refine freeSlots_tail hrest ?_ ?_
    · rw [Function.update_self, iopteValid_mkiopte]
    · intro l hl
      rw [Function.update_of_ne hl]
  rw [htail]
  exact hrest

/-- What a call leaves behind. -/
structure Filled (seg : ScsiSegment) (mmuV2p : Nat → BitVec 32) (pt : PageTable)
    (sg : List MmuSglist) (r : List MmuSglist × PageTable) : Prop where
  length : sg.length ≤ (freeEntries seg pt).length
  fits : ∀ x ∈ sg, x.len ≤ pageSize
  free : freeEntries seg r.2 = (freeEntries seg pt).drop sg.length
  entry : ∀ p ∈ placed seg pt sg, r.2 p.1 = mkiopte (mmuV2p p.2.addr)
  other : ∀ i, (∀ p ∈ placed seg pt sg, p.1 ≠ i) → r.2 i = pt i
  addrs : r.1.reverse = (placed seg pt sg).map fun p =>
    { p.2 with dvmaAddr := ioAddress p.1 + p.2.addr % pageSize }

theorem placed_cons {x : MmuSglist} {sg : List MmuSglist} {j : Nat} {rest : List Nat}
    (hlen : sg.length ≤ (freeEntries seg pt).length)
    (h : (freeEntries seg pt).drop sg.length = j :: rest) :
    placed seg pt (x :: sg) = placed seg pt sg ++ [(j, x)] := by
  have hsplit := List.take_append_drop sg.length (freeEntries seg pt)
  have htake : ((freeEntries seg pt).take sg.length).length = sg.reverse.length := by
    rw [List.length_take, List.length_reverse]
    omega
  rw [placed, placed, List.reverse_cons, ← hsplit, h, List.zip_append htake]
  congr 1
  · rw [← List.append_nil sg.reverse, List.zip_append htake]
    simp
  · simp

theorem iommu40GetScsiSgl_filled {sg : List MmuSglist} {r : List MmuSglist × PageTable}
    (h : iommu40GetScsiSgl seg mmuV2p sg pt = some r) : Filled seg mmuV2p pt sg r := by
  induction sg generalizing r with
  | nil =>
    obtain rfl := Option.some.inj h
    refine ⟨Nat.zero_le _, nofun, rfl, ?_, fun _ _ => rfl, ?_⟩
    · intro p hp
      simp [placed] at hp
    · simp [placed]
  | cons x sg ih =>
    obtain ⟨r₁, hr₁, h⟩ := Option.bind_eq_some_iff.mp h
    obtain ⟨a, ha, h⟩ := Option.bind_eq_some_iff.mp h
    obtain rfl := Option.some.inj h
    have hf := ih hr₁
    obtain ⟨hlen, j, hj, ha⟩ := iommu40GetArea_some ha
    rw [hf.free] at hj
    have hplaced := placed_cons (x := x) hf.length hj
    have hjfree : iopteValid (r₁.2 j) = false := by
      have hmem : j ∈ freeEntries seg r₁.2 := by
        rw [hf.free, hj]
        exact List.mem_cons_self
      exact (mem_freeSlots.mp hmem).2
    have hpt : a.2 = Function.update r₁.2 j (mkiopte (mmuV2p x.addr)) := by rw [ha]
    have hne : ∀ p ∈ placed seg pt sg, p.1 ≠ j := by
      rintro p hp rfl
      rw [hf.entry p hp, iopteValid_mkiopte] at hjfree
      cases hjfree
    refine ⟨?_, ?_, ?_, ?_, ?_, ?_⟩
    · have hl := congrArg List.length hj
      rw [List.length_drop, List.length_cons] at hl
      rw [List.length_cons]
      omega
    · intro y hy
      rcases List.mem_cons.mp hy with rfl | hy
      · exact hlen
      · exact hf.fits y hy
    · rw [List.length_cons, ← List.tail_drop, hj, List.tail_cons]
    · intro p hp
      rw [hplaced] at hp
      rcases List.mem_append.mp hp with hp | hp
      · change a.2 p.1 = _
        rw [hpt, Function.update_of_ne (hne p hp)]
        exact hf.entry p hp
      · rw [List.mem_singleton.mp hp]
        change a.2 j = _
        rw [hpt, Function.update_self]
    · intro i hi
      rw [hplaced] at hi
      have hij : j ≠ i := hi (j, x) (List.mem_append_right _ List.mem_cons_self)
      change a.2 i = _
      rw [hpt, Function.update_of_ne hij.symm]
      exact hf.other i fun p hp => hi p (List.mem_append_left _ hp)
    · rw [hplaced, List.reverse_cons, hf.addrs, List.map_append, ha]
      rfl

theorem placed_mem {sg : List MmuSglist} {p : Nat × MmuSglist} (h : p ∈ placed seg pt sg) :
    p.1 ∈ freeEntries seg pt ∧ p.2 ∈ sg := by
  obtain ⟨h₁, h₂⟩ := List.of_mem_zip h
  exact ⟨h₁, List.mem_reverse.mp h₂⟩

/-- The entry behind that of a buffer holds the page that follows in the
buffer: it did before the call, or it went to such an element of the list. -/
def Behind (seg : ScsiSegment) (mmuV2p : Nat → BitVec 32) (pt : PageTable) (sg : List MmuSglist)
    (p : Nat × MmuSglist) : Prop :=
  MapsTo pt (p.1 + 1) (frame mmuV2p (p.2.addr + pageSize)) ∨
    ∃ q ∈ placed seg pt sg, q.1 = p.1 + 1 ∧
      frame mmuV2p q.2.addr = frame mmuV2p (p.2.addr + pageSize)

theorem Filled.mapsTo_iff {sg : List MmuSglist} {r : List MmuSglist × PageTable}
    (h : Filled seg mmuV2p pt sg r) (p : Nat × MmuSglist) :
    MapsTo r.2 (p.1 + 1) (frame mmuV2p (p.2.addr + pageSize)) ↔ Behind seg mmuV2p pt sg p := by
  by_cases hq : ∃ q ∈ placed seg pt sg, q.1 = p.1 + 1
  · obtain ⟨q, hq, hqp⟩ := hq
    have hentry := h.entry q hq
    rw [hqp] at hentry
    rw [mapsTo_mkiopte hentry]
    constructor
    · intro he
      exact .inr ⟨q, hq, hqp, he⟩
    · rintro (⟨hvalid, -⟩ | ⟨q', hq', hqp', he⟩)
      · have hfree := (mem_freeSlots.mp (placed_mem hq).1).2
        rw [hqp, hvalid] at hfree
        cases hfree
      · have hentry' := h.entry q' hq'
        rw [hqp', hentry] at hentry'
        have hpfn := congrArg ioptePfn hentry'
        rw [ioptePfn_mkiopte, ioptePfn_mkiopte] at hpfn
        exact Eq.trans hpfn he
  · have hnone : ∀ q ∈ placed seg pt sg, q.1 ≠ p.1 + 1 := fun q hqm hqp => hq ⟨q, hqm, hqp⟩
    rw [MapsTo, h.other _ hnone]
    constructor
    · exact fun hm => .inl hm
    · rintro (hm | ⟨q, hqm, hqp, -⟩)
      · exact hm
      · exact absurd hqp (hnone q hqm)

theorem ScsiSegment.Has.ioAddress_le {i : Nat} (h : seg.Has i) : ioAddress (i + 2) ≤ 2 ^ 32 := by
  have hend : ioAddress (i + 1) ≤ seg.iommuEnd := by
    rw [seg.iommuEnd_eq]
    exact MeikoCs2.ioAddress_le h.2
  have hlt := seg.end_lt
  obtain ⟨k, hk⟩ := seg.end_aligned
  rw [ioAddress_succ]
  simp only [pageSize] at hk ⊢
  omega

theorem Filled.covers_iff {sg : List MmuSglist} {r : List MmuSglist × PageTable}
    (h : Filled seg mmuV2p pt sg r) (hv : PageWise mmuV2p) {p : Nat × MmuSglist}
    (hp : p ∈ placed seg pt sg) :
    Covers mmuV2p r.2 p.2.addr p.2.len (ioAddress p.1 + p.2.addr % pageSize) ↔
      FitsPage p.2.addr p.2.len ∨ Behind seg mmuV2p pt sg p := by
  obtain ⟨hfree, hmem⟩ := placed_mem hp
  have hhas : seg.Has p.1 := (mem_freeSlots.mp hfree).1
  rw [hv.covers_iff hhas.ioAddress_le (h.entry p hp) (h.fits _ hmem), h.mapsTo_iff p]

theorem getScsiOne_covers_iff (hv : PageWise mmuV2p) {vaddr len : Nat} {r : Nat × PageTable}
    (hr : iommu40GetScsiOne seg mmuV2p vaddr len pt = some r) :
    Covers mmuV2p r.2 vaddr len r.1 ↔ FitsPage vaddr len ∨
      ∃ i, (freeEntries seg pt).head? = some i ∧
        MapsTo pt (i + 1) (frame mmuV2p (vaddr + pageSize)) := by
  obtain ⟨hlen, j, hj, rfl⟩ := iommu40GetArea_some hr
  have hmem : j ∈ freeEntries seg pt := by
    rw [hj]
    exact List.mem_cons_self
  have hhas : seg.Has j := (mem_freeSlots.mp hmem).1
  have hother : Function.update pt j (mkiopte (mmuV2p vaddr)) (j + 1) = pt (j + 1) :=
    Function.update_of_ne (Nat.succ_ne_self j) _ _
  rw [hv.covers_iff hhas.ioAddress_le (Function.update_self ..) hlen, MapsTo, hother, hj]
  simp only [List.head?_cons, Option.some.injEq, exists_eq_left', MapsTo]

theorem getScsiSgl_covers_iff (hv : PageWise mmuV2p) {sg : List MmuSglist}
    {r : List MmuSglist × PageTable} (hr : iommu40GetScsiSgl seg mmuV2p sg pt = some r) :
    (∀ x ∈ r.1, Covers mmuV2p r.2 x.addr x.len x.dvmaAddr) ↔
      ∀ p ∈ placed seg pt sg, FitsPage p.2.addr p.2.len ∨ Behind seg mmuV2p pt sg p := by
  have hf := iommu40GetScsiSgl_filled hr
  constructor
  · intro h p hp
    have hmem : { p.2 with dvmaAddr := ioAddress p.1 + p.2.addr % pageSize } ∈ r.1 := by
      rw [← List.mem_reverse, hf.addrs]
      exact List.mem_map.mpr ⟨p, hp, rfl⟩
    exact (hf.covers_iff hv hp).mp (h _ hmem)
  · intro h x hx
    rw [← List.mem_reverse, hf.addrs] at hx
    obtain ⟨p, hp, rfl⟩ := List.mem_map.mp hx
    exact (hf.covers_iff hv hp).mpr (h p hp)

end Placed

theorem dvma_covers_iff {mmuV2p : Nat → BitVec 32} (hv : PageWise mmuV2p) (seg : ScsiSegment)
    (pt : PageTable) :
    (∀ vaddr len r, iommu40GetScsiOne seg mmuV2p vaddr len pt = some r →
      (Covers mmuV2p r.2 vaddr len r.1 ↔ FitsPage vaddr len ∨
        ∃ i, (freeEntries seg pt).head? = some i ∧
          MapsTo pt (i + 1) (frame mmuV2p (vaddr + pageSize)))) ∧
    ∀ sg r, iommu40GetScsiSgl seg mmuV2p sg pt = some r →
      ((∀ x ∈ r.1, Covers mmuV2p r.2 x.addr x.len x.dvmaAddr) ↔
        ∀ p ∈ placed seg pt sg, FitsPage p.2.addr p.2.len ∨ Behind seg mmuV2p pt sg p) :=
  ⟨fun _ _ _ hr => getScsiOne_covers_iff hv hr, fun _ _ hr => getScsiSgl_covers_iff hv hr⟩

theorem pageWise_identity : PageWise Dvma.identity where
  offset a := by
    rw [Dvma.identity, BitVec.toNat_ofNat]
    simp only [pageSize]
    omega
  page a b h := by
    rw [Dvma.identity, Dvma.identity, BitVec.toNat_ofNat, BitVec.toNat_ofNat]
    simp only [pageSize] at h ⊢
    omega

/-- Two elements of one buffer: the second runs into the page of the first. -/
def adjacent : List MmuSglist := [⟨0x12346000, 0x1000, 0⟩, ⟨0x12345800, 0x1000, 0⟩]

theorem dvma_covers_adjacent :
    ∃ r, iommu40GetScsiSgl Dvma.twoPages Dvma.identity adjacent Dvma.boot.pt = some r ∧
      ∀ x ∈ r.1, Covers Dvma.identity r.2 x.addr x.len x.dvmaAddr := by
  have hcond : ∀ p ∈ placed Dvma.twoPages Dvma.boot.pt adjacent,
      FitsPage p.2.addr p.2.len ∨ Behind Dvma.twoPages Dvma.identity Dvma.boot.pt adjacent p := by
    have hplaced : placed Dvma.twoPages Dvma.boot.pt adjacent =
        [(4096, ⟨0x12345800, 0x1000, 0⟩), (4097, ⟨0x12346000, 0x1000, 0⟩)] := rfl
    intro p hp
    rw [hplaced] at hp
    rcases List.mem_cons.mp hp with rfl | hp
    · right
      right
      refine ⟨(4097, ⟨0x12346000, 0x1000, 0⟩), ?_, rfl, ?_⟩
      · rw [hplaced]
        exact List.mem_cons_of_mem _ List.mem_cons_self
      · decide
    · left
      rw [List.mem_singleton.mp hp, FitsPage]
      decide
  refine ⟨_, rfl, ?_⟩
  exact ((dvma_covers_iff pageWise_identity Dvma.twoPages Dvma.boot.pt).2 adjacent _ rfl).mpr hcond

/-- With an empty table the half of a buffer behind the end of its first page
is not mapped at all. -/
theorem second_page_not_mapped :
    ¬ ∀ seg mmuV2p pt vaddr len r, PageWise mmuV2p →
      iommu40GetScsiOne seg mmuV2p vaddr len pt = some r → Covers mmuV2p r.2 vaddr len r.1 := by
  intro h
  have hc := h Dvma.twoPages Dvma.identity Dvma.boot.pt 0x12345800 0x1000 _ pageWise_identity rfl
  have hlast := hc 0xfff (by decide)
  exact absurd hlast (by decide)

end MeikoCs2
