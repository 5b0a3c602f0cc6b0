import MeikoCs2.FirstFit
import MeikoCs2.Runs

/-! DVMA mappings of `arch/sparc/meiko/iommu.c`. The page table of the IOMMU
has one word for each page from IOMMU40_BASE_ADDR to the end of the address
space. The lower segment of it is handed out page by page to SCSI buffers, the
rest is mapped once and for all. A failed ASSERT panics. -/

namespace MeikoCs2

abbrev pageShift : Nat := 12

abbrev pageSize : Nat := 4096

abbrev iommu40BaseAddr : Nat := 0xfe000000

abbrev Iopte := BitVec 32

def iopte40Page : Iopte := 0xffffff00

def iopte40Write : Iopte := 0x7

def iopte40Valid : Iopte := 0x8

def ioperm : Iopte := iopte40Write ||| iopte40Valid

def mkiopte (phys : BitVec 32) : Iopte := ((phys >>> 4) &&& iopte40Page) ||| ioperm

def iopteValid (e : Iopte) : Bool := e &&& iopte40Valid != 0

def iopteRelease (e : Iopte) : Iopte := e &&& ~~~iopte40Valid

/-- The physical page number that an entry holds. -/
def ioptePfn (e : Iopte) : Nat := (e >>> 8).toNat

theorem iopteValid_eq (e : Iopte) : iopteValid e = e.getLsbD 3 := by
  have hv : iopte40Valid = BitVec.twoPow 32 3 := rfl
  rw [Bool.eq_iff_iff, iopteValid, hv, bne_iff_ne]
  constructor
  · intro h
    by_contra hb
    apply h
    apply BitVec.eq_of_getLsbD_eq
    intro i hi
    rw [BitVec.getLsbD_and, BitVec.getLsbD_twoPow]
    by_cases h3 : i = 3
    · subst h3
      rw [Bool.not_eq_true] at hb
      rw [hb, Bool.false_and]
      rfl
    · simp [Ne.symm h3]
  · intro h he
    have hb := congrArg (fun x : BitVec 32 => x.getLsbD 3) he
    simp only [BitVec.getLsbD_and, BitVec.getLsbD_twoPow, h] at hb
    exact absurd hb (by decide)

theorem iopteValid_mkiopte (phys : BitVec 32) : iopteValid (mkiopte phys) = true := by
  have hp : ioperm.getLsbD 3 = true := by decide
  rw [iopteValid_eq, mkiopte, BitVec.getLsbD_or, hp, Bool.or_true]

theorem iopteValid_release (e : Iopte) : iopteValid (iopteRelease e) = false := by
  have hv : (~~~iopte40Valid).getLsbD 3 = false := by decide
  rw [iopteValid_eq, iopteRelease, BitVec.getLsbD_and, hv, Bool.and_false]

theorem ioptePfn_mkiopte (phys : BitVec 32) : ioptePfn (mkiopte phys) = phys.toNat / pageSize := by
  have hpage : ∀ i < 24, iopte40Page.getLsbD (8 + i) = true := by decide
  have hperm : ∀ i < 24, ioperm.getLsbD (8 + i) = false := by decide
  have he : mkiopte phys >>> 8 = phys >>> 12 := by
    apply BitVec.eq_of_getLsbD_eq
    intro i hi
    simp only [mkiopte, BitVec.getLsbD_ushiftRight, BitVec.getLsbD_or, BitVec.getLsbD_and]
    by_cases h24 : i < 24
    · rw [hpage i h24, hperm i h24, Bool.and_true, Bool.or_false, ← Nat.add_assoc]
    · have h₁ : ∀ x : BitVec 32, x.getLsbD (8 + i) = false :=
        fun x => BitVec.getLsbD_of_ge x _ (by omega)
      rw [h₁ ioperm, h₁ iopte40Page, BitVec.getLsbD_of_ge phys (12 + i) (by omega)]
      simp
  rw [ioptePfn, he, BitVec.toNat_ushiftRight, Nat.shiftRight_eq_div_pow]

abbrev PageTable := Nat → Iopte

/-- The entry for an I/O virtual address. -/
def iopteIndex (iovaddr : Nat) : Nat := (iovaddr - iommu40BaseAddr) >>> pageShift

/-- The segment from IOMMU_VADDR to IOMMU_END. -/
structure ScsiSegment where
  iommuVaddr : Nat
  iommuEnd : Nat
  vaddr_aligned : pageSize ∣ iommuVaddr
  end_aligned : pageSize ∣ iommuEnd
  base_le : iommu40BaseAddr ≤ iommuVaddr
  vaddr_lt : iommuVaddr < iommuEnd
  end_lt : iommuEnd < 2 ^ 32

/-- The part of a scatter-gather element that the code looks at. -/
structure MmuSglist where
  addr : Nat
  len : Nat
  dvmaAddr : Nat

section Dvma

variable (seg : ScsiSegment) (mmuV2p : Nat → BitVec 32)

/-- The search for an empty slot. It ends at IOMMU_END. -/
def getAreaLoop (pt : PageTable) : Nat → Nat → Option Nat
  | 0, _ => none
  | k + 1, iovpage =>
    if iovpage < seg.iommuEnd then
      if iopteValid (pt (iopteIndex iovpage)) then getAreaLoop pt k (iovpage + pageSize)
      else some iovpage
    else none

/-- The address returned, and the table with the mapping in it. -/
def iommu40GetArea (vaddr len : Nat) (pt : PageTable) : Option (Nat × PageTable) :=
  -- ASSERT(len <= PAGE_SIZE)
  if len ≤ pageSize then
    -- ASSERT(iovpage < IOMMU_END)
    (getAreaLoop seg pt ((seg.iommuEnd - seg.iommuVaddr) / pageSize) seg.iommuVaddr).map
      fun iovpage =>
        (iovpage + vaddr % pageSize,
          Function.update pt (iopteIndex iovpage) (mkiopte (mmuV2p vaddr)))
  else none

def iommu40GetScsiOne : Nat → Nat → PageTable → Option (Nat × PageTable) :=
  iommu40GetArea seg mmuV2p

/-- From the last element of the list down to the first. -/
def iommu40GetScsiSgl : List MmuSglist → PageTable → Option (List MmuSglist × PageTable)
  | [], pt => some ([], pt)
  | s :: sg, pt => do
    let r ← iommu40GetScsiSgl sg pt
    let a ← iommu40GetArea seg mmuV2p s.addr s.len r.2
    some ({ s with dvmaAddr := a.1 } :: r.1, a.2)

def iommu40ReleaseScsiOne (vaddr : Nat) (pt : PageTable) : Option PageTable :=
  let i := iopteIndex vaddr
  -- ASSERT(iopte_val(*iopte) & IOPTE40_VALID)
  if iopteValid (pt i) then some (Function.update pt i (iopteRelease (pt i))) else none

def iommu40ReleaseScsiSgl : List MmuSglist → PageTable → Option PageTable
  | [], pt => some pt
  | s :: sg, pt => do
    let r ← iommu40ReleaseScsiSgl sg pt
    iommu40ReleaseScsiOne s.dvmaAddr r

/-- PAGE_ALIGN, in 32 bits. -/
def pageAlign (addr : Nat) : Nat := (addr + (pageSize - 1)) % 2 ^ 32 / pageSize * pageSize

/-- The loop of `iommu40_map_dma_area` up to `fin`. The page of round `count`
is `getFreePage count`, or 0 if there is none. The page tables of the CPU are
not looked at here. -/
def mapDmaLoop (getFreePage : Nat → Nat) (fin : Nat) :
    Nat → Nat → Nat → Nat → PageTable → Option PageTable
  | 0, _, _, _, pt => some pt
  | k + 1, count, iovaddr, iopte, pt =>
    if iovaddr < fin then
      if getFreePage count = 0 then none
      else
        mapDmaLoop getFreePage fin k (count + 1) (iovaddr + pageSize) (iopte + 1)
          (Function.update pt iopte (mkiopte (mmuV2p (getFreePage count))))
    else some pt

def iommu40MapDmaArea (getFreePage : Nat → Nat) (iovaddr len : BitVec 32) (pt : PageTable) :
    Option PageTable :=
  let fin := pageAlign (iovaddr + len).toNat
  -- ASSERT(iommu->start <= iovaddr)
  if iommu40BaseAddr ≤ iovaddr.toNat then
    mapDmaLoop mmuV2p getFreePage fin (fin - iovaddr.toNat) 0 iovaddr.toNat
      (iopteIndex iovaddr.toNat) pt
  else none

end Dvma

/-- The first address of the page with entry `i`. -/
def ioAddress (i : Nat) : Nat := iommu40BaseAddr + pageSize * i

theorem ioAddress_le {i j : Nat} (h : i ≤ j) : ioAddress i ≤ ioAddress j :=
  Nat.add_le_add_left (Nat.mul_le_mul_left pageSize h) _

theorem ioAddress_succ (i : Nat) : ioAddress (i + 1) = ioAddress i + pageSize := by
  rw [ioAddress, ioAddress, Nat.mul_add, Nat.mul_one, Nat.add_assoc]

theorem iopteIndex_eq (a : Nat) : iopteIndex a = (a - iommu40BaseAddr) / pageSize :=
  Nat.shiftRight_eq_div_pow _ _

theorem le_iopteIndex_iff {a i : Nat} (ha : iommu40BaseAddr ≤ a) :
    i ≤ iopteIndex a ↔ ioAddress i ≤ a := by
  rw [iopteIndex_eq, Nat.le_div_iff_mul_le (by decide), ioAddress, Nat.mul_comm]
  simp only [iommu40BaseAddr] at ha ⊢
  omega

theorem iopteIndex_lt_iff {a i : Nat} (ha : iommu40BaseAddr ≤ a) :
    iopteIndex a < i ↔ a < ioAddress i := by
  rw [← Nat.not_le, ← Nat.not_le, le_iopteIndex_iff ha]

theorem iopteIndex_page (i : Nat) {off : Nat} (h : off < pageSize) :
    iopteIndex (ioAddress i + off) = i := by
  rw [iopteIndex_eq, ioAddress, Nat.add_assoc, Nat.add_sub_cancel_left,
    Nat.mul_add_div (by decide), Nat.div_eq_of_lt h, Nat.add_zero]

theorem iopteIndex_ioAddress (i : Nat) : iopteIndex (ioAddress i) = i :=
  @iopteIndex_page i 0 (by decide)

theorem ioAddress_iopteIndex {a : Nat} (ha : iommu40BaseAddr ≤ a) (h : pageSize ∣ a) :
    ioAddress (iopteIndex a) = a := by
  have hsub : pageSize ∣ a - iommu40BaseAddr := Nat.dvd_sub h (by decide)
  rw [ioAddress, iopteIndex_eq, Nat.mul_div_cancel' hsub, Nat.add_sub_cancel' ha]

namespace ScsiSegment

variable (seg : ScsiSegment)

def first : Nat := iopteIndex seg.iommuVaddr

def pages : Nat := (seg.iommuEnd - seg.iommuVaddr) / pageSize

/-- The numbers of the entries of the segment. -/
def Has (i : Nat) : Prop := seg.first ≤ i ∧ i < seg.first + seg.pages

theorem iommuVaddr_eq : seg.iommuVaddr = ioAddress seg.first :=
  (ioAddress_iopteIndex seg.base_le seg.vaddr_aligned).symm

theorem iommuEnd_eq : seg.iommuEnd = ioAddress (seg.first + seg.pages) := by
  have hsub : pageSize ∣ seg.iommuEnd - seg.iommuVaddr :=
    Nat.dvd_sub seg.end_aligned seg.vaddr_aligned
  have hv := seg.iommuVaddr_eq
  rw [ioAddress, Nat.mul_add, ← Nat.add_assoc, pages, Nat.mul_div_cancel' hsub]
  rw [ioAddress] at hv
  rw [← hv, Nat.add_sub_cancel' (Nat.le_of_lt seg.vaddr_lt)]

end ScsiSegment

theorem getAreaLoop_eq (seg : ScsiSegment) (pt : PageTable) {k i : Nat}
    (h : i + k ≤ seg.first + seg.pages) :
    getAreaLoop seg pt k (ioAddress i) =
      (firstFree (fun j => iopteValid (pt j)) k i).map fun j => ioAddress j := by
  induction k generalizing i with
  | zero => rfl
  | succ k ih =>
    have hlt : ioAddress i < seg.iommuEnd := by
      rw [seg.iommuEnd_eq]
      refine Nat.lt_of_lt_of_le ?_ (ioAddress_le (show i + 1 ≤ seg.first + seg.pages by omega))
      rw [ioAddress_succ]
      exact Nat.lt_add_of_pos_right (by decide)
    rw [getAreaLoop, firstFree, if_pos hlt, iopteIndex_ioAddress, ← ioAddress_succ, ih (by omega)]
    split_ifs <;> rfl

/-- The mapping goes into the first entry of the segment that is not valid. -/
theorem iommu40GetArea_eq (seg : ScsiSegment) (mmuV2p : Nat → BitVec 32) (vaddr len : Nat)
    (pt : PageTable) :
    iommu40GetArea seg mmuV2p vaddr len pt =
      if len ≤ pageSize then
        (firstFree (fun j => iopteValid (pt j)) seg.pages seg.first).map fun j =>
          (ioAddress j + vaddr % pageSize,
            Function.update pt j (mkiopte (mmuV2p vaddr)))
      else none := by
  have hloop := getAreaLoop_eq seg pt (Nat.le_refl (seg.first + seg.pages))
  rw [← seg.iommuVaddr_eq] at hloop
  change getAreaLoop seg pt ((seg.iommuEnd - seg.iommuVaddr) / pageSize) seg.iommuVaddr = _ at hloop
  rw [iommu40GetArea, hloop, Option.map_map]
  simp only [Function.comp_def, iopteIndex_ioAddress]

/-- A buffer mapped by one call, as the caller knows it. -/
structure Mapping where
  vaddr : Nat
  iovaddr : Nat
  deriving DecidableEq

/-- The page table, with the mappings that were handed out and not released. -/
structure Dvma where
  pt : PageTable
  live : List Mapping

structure DvmaInv (seg : ScsiSegment) (mmuV2p : Nat → BitVec 32) (s : Dvma) : Prop where
  distinct : (s.live.map fun m => iopteIndex m.iovaddr).Nodup
  placed : ∀ m ∈ s.live, seg.iommuVaddr ≤ m.iovaddr ∧ m.iovaddr < seg.iommuEnd ∧
    m.iovaddr % pageSize = m.vaddr % pageSize
  entry : ∀ m ∈ s.live, s.pt (iopteIndex m.iovaddr) = mkiopte (mmuV2p m.vaddr)
  exact : ∀ i, seg.Has i →
    (iopteValid (s.pt i) = true ↔ ∃ m ∈ s.live, iopteIndex m.iovaddr = i)

section Inv

variable {seg : ScsiSegment} {mmuV2p : Nat → BitVec 32} {s : Dvma}

theorem ScsiSegment.has_iopteIndex {a : Nat} (h : seg.iommuVaddr ≤ a) (h' : a < seg.iommuEnd) :
    seg.Has (iopteIndex a) := by
  have hb := Nat.le_trans seg.base_le h
  rw [seg.iommuVaddr_eq] at h
  rw [seg.iommuEnd_eq] at h'
  exact ⟨(le_iopteIndex_iff hb).mpr h, (iopteIndex_lt_iff hb).mpr h'⟩

theorem DvmaInv.getArea (h : DvmaInv seg mmuV2p s) {vaddr len : Nat} {r : Nat × PageTable}
    (hr : iommu40GetArea seg mmuV2p vaddr len s.pt = some r) :
    DvmaInv seg mmuV2p ⟨r.2, ⟨vaddr, r.1⟩ :: s.live⟩ := by
  rw [iommu40GetArea_eq] at hr
  split_ifs at hr
  obtain ⟨j, hj, rfl⟩ := Option.map_eq_some_iff.mp hr
  obtain ⟨hfirst, hlast, hfree, -⟩ := firstFree_spec hj
  have hoff : vaddr % pageSize < pageSize := Nat.mod_lt _ (by decide)
  have hidx := iopteIndex_page j hoff
  have hnew : ∀ m ∈ s.live, iopteIndex m.iovaddr ≠ j := by
    intro m hm he
    have hv := (h.exact j ⟨hfirst, hlast⟩).mpr ⟨m, hm, he⟩
    rw [hfree] at hv
    cases hv
  refine ⟨?_, ?_, ?_, ?_⟩
  · rw [List.map_cons, List.nodup_cons, hidx]
    refine ⟨?_, h.distinct⟩
    intro hm
    obtain ⟨m, hm, he⟩ := List.mem_map.mp hm
    exact hnew m hm he
  · intro m hm
    rcases List.mem_cons.mp hm with rfl | hm
    · rw [seg.iommuVaddr_eq, seg.iommuEnd_eq]
      simp only [ioAddress, pageSize, iommu40BaseAddr] at hoff ⊢
      omega
    · exact h.placed m hm
  · intro m hm
    rcases List.mem_cons.mp hm with rfl | hm
    · simp only [hidx, Function.update_self]
    · simp only [Function.update_of_ne (hnew m hm)]
      exact h.entry m hm
  · intro i hi
    by_cases he : i = j
    · subst he
      simp only [Function.update_self, iopteValid_mkiopte, true_iff]
      exact ⟨_, List.mem_cons_self, hidx⟩
    · simp only [Function.update_of_ne he, h.exact i hi, List.mem_cons]
      constructor
      · rintro ⟨m, hm, hmi⟩
        exact ⟨m, .inr hm, hmi⟩
      · rintro ⟨m, rfl | hm, hmi⟩
        · exact absurd (hmi.symm.trans hidx) he
        · exact ⟨m, hm, hmi⟩

/-- Every page of the segment is handed out. -/
def AllLive (seg : ScsiSegment) (s : Dvma) : Prop :=
  ∀ i, seg.Has i → ∃ m ∈ s.live, iopteIndex m.iovaddr = i

theorem DvmaInv.getArea_none (h : DvmaInv seg mmuV2p s) {vaddr len : Nat}
    (hr : iommu40GetArea seg mmuV2p vaddr len s.pt = none) : pageSize < len ∨ AllLive seg s := by
  rw [iommu40GetArea_eq] at hr
  split_ifs at hr with hl
  · right
    intro i hi
    have hn := Option.map_eq_none_iff.mp hr
    exact (h.exact i hi).mp (firstFree_none hn hi.1 hi.2)
  · left
    omega

theorem mapDmaLoop_frame {getFreePage : Nat → Nat} {fin k count a : Nat} {pt pt' : PageTable}
    (ha : iommu40BaseAddr ≤ a)
    (h : mapDmaLoop mmuV2p getFreePage fin k count a (iopteIndex a) pt = some pt') {i : Nat}
    (hi : i < iopteIndex a ∨ fin ≤ ioAddress i) : pt' i = pt i := by
  induction k generalizing count a pt with
  | zero => rw [← Option.some.inj h]
  | succ k ih =>
    have hnext : iopteIndex a + 1 = iopteIndex (a + pageSize) := by
      rw [iopteIndex_eq, iopteIndex_eq, Nat.sub_add_comm ha, Nat.add_div_right _ (by decide)]
    unfold mapDmaLoop at h
    split_ifs at h with hf hg
    · rw [hnext] at h
      have hne : i ≠ iopteIndex a := by
        rcases hi with hi | hi
        · omega
        · have hlt := (iopteIndex_lt_iff ha).mpr (Nat.lt_of_lt_of_le hf hi)
          omega
      rw [ih (Nat.le_trans ha (Nat.le_add_right _ _)) h (by omega)]
      exact Function.update_of_ne hne _ _
    · rw [← Option.some.inj h]

/-- An area outside the segment. -/
def Outside (seg : ScsiSegment) (iovaddr len : BitVec 32) : Prop :=
  iovaddr.toNat < seg.iommuVaddr ∧ iovaddr.toNat + len.toInt ≤ seg.iommuVaddr ∨
    seg.iommuEnd ≤ iovaddr.toNat

theorem mapDmaArea_frame {getFreePage : Nat → Nat} {iovaddr len : BitVec 32} {pt pt' : PageTable}
    (ho : Outside seg iovaddr len)
    (h : iommu40MapDmaArea mmuV2p getFreePage iovaddr len pt = some pt') {i : Nat}
    (hi : seg.Has i) : pt' i = pt i := by
  unfold iommu40MapDmaArea at h
  split_ifs at h with hb
  refine mapDmaLoop_frame hb h ?_
  have hv := seg.iommuVaddr_eq
  have he := seg.iommuEnd_eq
  have hend := seg.end_lt
  have hlt := seg.vaddr_lt
  obtain ⟨h₁, h₂⟩ := hi
  rcases ho with ⟨hlow, hlen⟩ | hhigh
  · right
    have hsum : (iovaddr + len).toNat ≤ seg.iommuVaddr := by
      have hl := len.isLt
      rw [BitVec.toInt_eq_toNat_cond] at hlen
      rw [BitVec.toNat_add]
      simp only [iommu40BaseAddr] at hb
      split_ifs at hlen <;> omega
    simp only [pageAlign, ioAddress, pageSize, iommu40BaseAddr] at hv ⊢
    omega
  · left
    refine (le_iopteIndex_iff hb).mpr (Nat.le_trans (ioAddress_le h₂) ?_)
    rw [← he]
    exact hhigh

theorem DvmaInv.mapDmaArea (h : DvmaInv seg mmuV2p s) {getFreePage : Nat → Nat}
    {iovaddr len : BitVec 32} {pt : PageTable} (ho : Outside seg iovaddr len)
    (hr : iommu40MapDmaArea mmuV2p getFreePage iovaddr len s.pt = some pt) :
    DvmaInv seg mmuV2p ⟨pt, s.live⟩ := by
  have hsame : ∀ i, seg.Has i → pt i = s.pt i := fun i hi => mapDmaArea_frame ho hr hi
  refine ⟨h.distinct, h.placed, ?_, ?_⟩
  · intro m hm
    obtain ⟨hl, hu, -⟩ := h.placed m hm
    simp only [hsame _ (seg.has_iopteIndex hl hu)]
    exact h.entry m hm
  · intro i hi
    simp only [hsame i hi]
    exact h.exact i hi

/-- The mapping of an address that is no longer in use is dropped. -/
def dropLive (a : Nat) (l : List Mapping) : List Mapping := l.eraseP fun m => m.iovaddr == a

theorem map_dropLive (a : Nat) (l : List Mapping) :
    (dropLive a l).map Mapping.iovaddr = (l.map Mapping.iovaddr).erase a := by
  induction l with
  | nil => rfl
  | cons m l ih =>
    by_cases hm : m.iovaddr = a
    · simp [dropLive, hm]
    · have hne : (m.iovaddr == a) = false := beq_false_of_ne hm
      rw [dropLive, List.eraseP_cons_of_neg (by simp [hne]), List.map_cons, List.map_cons,
        List.erase_cons_tail (by simp [hne])]
      exact congrArg _ ih

/-- The assertion of a release holds for every address in use. -/
theorem DvmaInv.releaseOne (h : DvmaInv seg mmuV2p s) {a : Nat}
    (ha : a ∈ s.live.map Mapping.iovaddr) :
    ∃ pt, iommu40ReleaseScsiOne a s.pt = some pt ∧
      DvmaInv seg mmuV2p ⟨pt, dropLive a s.live⟩ := by
  obtain ⟨m₀, hm₀, hma₀⟩ := List.mem_map.mp ha
  obtain ⟨m, l₁, l₂, -, hm, hlive, hdrop⟩ :=
    List.exists_of_eraseP (p := fun x : Mapping => x.iovaddr == a) hm₀ (beq_iff_eq.mpr hma₀)
  obtain rfl : m.iovaddr = a := beq_iff_eq.mp hm
  have hmem : m ∈ s.live := by
    rw [hlive]
    exact List.mem_append_right _ List.mem_cons_self
  obtain ⟨hl, hu, -⟩ := h.placed m hmem
  have hvalid := (h.exact _ (seg.has_iopteIndex hl hu)).mpr ⟨m, hmem, rfl⟩
  have hsub : ∀ x ∈ l₁ ++ l₂, x ∈ s.live := by
    intro x hx
    rw [hlive]
    rcases List.mem_append.mp hx with hx | hx
    · exact List.mem_append_left _ hx
    · exact List.mem_append_right _ (List.mem_cons_of_mem _ hx)
  have hperm : (s.live.map fun m => iopteIndex m.iovaddr).Perm
      (iopteIndex m.iovaddr :: (l₁ ++ l₂).map fun m => iopteIndex m.iovaddr) := by
    rw [hlive, ← List.map_cons (f := fun m : Mapping => iopteIndex m.iovaddr)]
    exact List.perm_middle.map _
  have hnd := hperm.nodup_iff.mp h.distinct
  rw [List.nodup_cons] at hnd
  have hother : ∀ x ∈ l₁ ++ l₂, iopteIndex x.iovaddr ≠ iopteIndex m.iovaddr := by
    intro x hx he
    exact hnd.1 (List.mem_map.mpr ⟨x, hx, he⟩)
  refine ⟨_, by rw [iommu40ReleaseScsiOne, if_pos hvalid], ?_⟩
  rw [dropLive, hdrop]
  refine ⟨hnd.2, fun x hx => h.placed x (hsub x hx), ?_, ?_⟩
  · intro x hx
    simp only [Function.update_of_ne (hother x hx)]
    exact h.entry x (hsub x hx)
  · intro i hi
    by_cases he : i = iopteIndex m.iovaddr
    · subst he
      simp only [Function.update_self, iopteValid_release, Bool.false_eq_true, false_iff]
      rintro ⟨x, hx, hxi⟩
      exact hother x hx hxi
    · simp only [Function.update_of_ne he, h.exact i hi]
      constructor
      · rintro ⟨x, hx, hxi⟩
        rw [hlive] at hx
        rcases List.mem_append.mp hx with hx | hx
        · exact ⟨x, List.mem_append_left _ hx, hxi⟩
        · rcases List.mem_cons.mp hx with rfl | hx
          · exact absurd hxi.symm he
          · exact ⟨x, List.mem_append_right _ hx, hxi⟩
      · rintro ⟨x, hx, hxi⟩
        exact ⟨x, hsub x hx, hxi⟩

end Inv

end MeikoCs2
