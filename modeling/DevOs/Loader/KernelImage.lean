import DevOs.Loader.Sections

/-!
# The kernel image

`UefiEntry` loads the kernel. It raises every `VirtualSize` to `SizeofRawData`, takes the largest
end of a section for the size of the buffer, and allocates the pages for that size and a padding.
The ends are added up as `UINT32`, so a section that ends behind `2 ^ 32` counts with what is left
modulo `2 ^ 32`, while its bytes are put at its full address.
-/

namespace DevOs.Loader

open Bytes

/-- The other fields of `PE_IMAGE_HDR` that the boot loader uses. -/
structure KernelImageHdr extends PeImageHdr where
  characteristics : ℕ
  entryPointAddr : ℕ

def readKernelHdr (m : Buffer) (o : ℕ) : KernelImageHdr :=
  { readHdr m o with
    characteristics := getLE m (o + 22) 2
    entryPointAddr := getLE m (o + 40) 4 }

def sizeofImage (m : Buffer) (o : ℕ) : ℕ := getLE m (o + 80) 4

/-- `GetPEOffset`, as the bits of an `int`. -/
def getPEOffset (m : Buffer) (hdr : ℕ) : ℕ :=
  if getLE m hdr 2 ≠ 0x5A4D then 0 else getLE m (hdr + 0x3C) 4

def PeCheckKernelImageHeader (h : KernelImageHdr) : Prop :=
  ¬(h.subsystem ≠ 1 ∨ h.machineType ≠ 0x8664 ∨ h.sizeofOptionnalHeader < 24 ∨ h.entryPointAddr = 0 ∨
    96 < h.numSections ∨ ¬h.DynamicBase ∨ h.characteristics &&& 0x20 = 0 ∨
    h.signature ≠ 0x00004550 ∨
    h.baseRelocationTable.virtualAddress = 0)

instance (h : KernelImageHdr) : Decidable (PeCheckKernelImageHeader h) :=
  inferInstanceAs (Decidable (¬_))

def raiseSize (table : ℕ) (m : Buffer) (i : ℕ) : Buffer :=
  let s := readSection m (table + 40 * i)
  if s.IsLoaded ∧ s.virtualSize <
    s.sizeofRawData then setLE m (table + 40 * i + 8) 4 s.sizeofRawData else m

/-- The body of the second loop. The end is added as a `UINT32`. -/
def sizeVBuffer (m : Buffer) (table : ℕ) (size i : ℕ) : ℕ :=
  let s := readSection m (table + 40 * i)
  if s.IsLoaded then
    if size < (s.virtualAddress + s.virtualSize) % 2 ^ 32 then
      (s.virtualAddress + s.virtualSize) % 2 ^ 32 else size
  else size

/-- The name of the section `i` is `INITDATA`. -/
def isInitData (m : Buffer) (table i : ℕ) : Bool := getLE m (table + 40 * i) 8 == 0x4154414454494E49

/-- The third loop. It stops for good at a second section with the name `INITDATA`. -/
def copyKernelSections (m : Buffer) (file table : ℕ) : ℕ → ℕ → Bool → Image → Image
  | 0, _, _, image => image
  | n + 1, i, initData, image =>
    let image := copySection m file (readSection m (table + 40 * i)) image
    if isInitData m table i && initData then image
    else copyKernelSections m file table n (i + 1) (isInitData m table i || initData) image

/-- The pages allocated at `ImageBase`, and what is written from there on. -/
structure KernelImage where
  pages : ℕ
  image : Image

/-- `UefiEntry`, from the kernel file at `KernelBuffer` to the loaded sections. -/
def loadKernelImage (m : Buffer) (kernelBuffer : ℕ) (memory : Buffer) : Option KernelImage :=
  let peHdrOff := getPEOffset m kernelBuffer
  if peHdrOff = 0 then none
  else
    let peHdr := (kernelBuffer + signExtend peHdrOff) % 2 ^ 64
    let h := readKernelHdr m peHdr
    if ¬PeCheckKernelImageHeader h then none
    else
      let table := peHdr + 24 + h.sizeofOptionnalHeader
      let m := (List.range' 0 h.numSections).foldl (raiseSize table) m
      let size := (List.range' 0 h.numSections).foldl (sizeVBuffer m table) 0
      if size = 0 ∨ sizeofImage m peHdr < size then none
      else
        some ⟨(size + 0x20000) / 2 ^ 12,
          copyKernelSections m kernelBuffer table h.numSections 0 false ⟨memory, []⟩⟩

def KernelImage.Contained (r : KernelImage) : Prop :=
  ∀ a ∈ r.image.accesses, a.length = 0 ∨ a.start + a.length ≤ 2 ^ 12 * r.pages

def PeSectionTable.stop (s : PeSectionTable) : ℕ := s.virtualAddress + s.extent

/-- The sections up to the second one with the name `INITDATA`. -/
def reachedFrom (m : Buffer) (table : ℕ) : ℕ → ℕ → Bool → List PeSectionTable
  | 0, _, _ => []
  | n + 1, i, initData =>
    readSection m (table + 40 * i) ::
      if isInitData m table i && initData then []
      else reachedFrom m table n (i + 1) (isInitData m table i || initData)

def largestStop (l : List PeSectionTable) : ℕ := (l.map fun s => s.stop % 2 ^ 32).foldl max 0

def kernelHeader (m : Buffer) (kernelBuffer : ℕ) : ℕ :=
  (kernelBuffer + signExtend (getPEOffset m kernelBuffer)) % 2 ^ 64

/-- No section that is written ends behind `2 ^ 32`, or it ends in the padded pages all the same. -/
def StopsFit (m : Buffer) (pe : ℕ) : Prop :=
  ∀ s ∈ reachedFrom m (sectionTable m pe) (readHdr m pe).numSections 0 false, s.IsLoaded →
    s.extent ≠ 0 →
    s.stop < 2 ^ 32 ∨ s.stop ≤ 2 ^ 12 * ((largestStop (loadedSections m pe) + 0x20000) / 2 ^ 12)

section Raised

variable {m : Buffer} {table n i j size : ℕ} {s : PeSectionTable}

def PeSectionTable.raised (s : PeSectionTable) : PeSectionTable :=
  if s.IsLoaded then { s with virtualSize := s.extent } else s

theorem raised_isLoaded : s.raised.IsLoaded ↔ s.IsLoaded := by
  rw [PeSectionTable.raised]
  split
  · exact Iff.rfl
  · exact Iff.rfl

theorem raised_extent : s.raised.extent = s.extent := by
  rw [PeSectionTable.raised]
  split
  · exact Nat.max_eq_right (Nat.le_max_left _ _)
  · rfl

theorem raised_virtualAddress : s.raised.virtualAddress = s.virtualAddress := by
  rw [PeSectionTable.raised]
  split
  · rfl
  · rfl

theorem readSection_raiseSize_of_ne (h : i ≠ j) :
    readSection (raiseSize table m i) (table + 40 * j) = readSection m (table + 40 * j) := by
  rw [raiseSize]
  split
  · exact readSection_setSize_of_ne h _
  · rfl

theorem readSection_raiseSize_self :
    readSection (raiseSize table m j) (table + 40 * j) =
      (readSection m (table + 40 * j)).raised := by
  have hraw : (readSection m (table + 40 * j)).sizeofRawData < 2 ^ 32 := getLE_lt m _ 4
  rw [raiseSize, PeSectionTable.raised, PeSectionTable.extent]
  by_cases hl : (readSection m (table + 40 * j)).IsLoaded
  · rw [if_pos hl]
    by_cases hlt : (readSection m (table + 40 * j)).virtualSize <
      (readSection m (table + 40 * j)).sizeofRawData
    · rw [if_pos ⟨hl, hlt⟩, readSection_setSize_self hraw, Nat.max_eq_left hlt.le]
    · rw [if_neg fun h => hlt h.2, Nat.max_eq_right (Nat.not_lt.mp hlt)]
  · rw [if_neg fun h => hl h.1, if_neg hl]

theorem sectionsFrom_raiseSizes (m : Buffer) (table n i : ℕ) :
    sectionsFrom ((List.range' i n).foldl (raiseSize table) m) table n i =
      (sectionsFrom m table n i).map PeSectionTable.raised :=
  sectionsFrom_foldl (fun _ _ _ h => readSection_raiseSize_of_ne h)
    (fun _ _ => readSection_raiseSize_self) m n i

theorem readSection_raiseSizes (h : j < n) :
    readSection ((List.range' 0 n).foldl (raiseSize table) m) (table + 40 * j) =
      (readSection m (table + 40 * j)).raised := by
  have hall := sectionsFrom_raiseSizes m table n 0
  rw [sectionsFrom, sectionsFrom, List.map_map] at hall
  exact List.map_inj_left.mp hall j (List.mem_range'_1.mpr ⟨Nat.zero_le j, by omega⟩)

theorem isInitData_raiseSizes (m : Buffer) (table : ℕ) (l : List ℕ) (j : ℕ) :
    isInitData (l.foldl (raiseSize table) m) table j = isInitData m table j := by
  induction l generalizing m with
  | nil => rfl
  | cons i l ih =>
    rw [List.foldl_cons, ih, isInitData, isInitData, raiseSize]
    split
    · rw [getLE_setLE_of_disjoint _ (by omega)]
    · rfl

theorem foldl_sizeVBuffer (m : Buffer) (table n i size : ℕ) :
    (List.range' i n).foldl (sizeVBuffer m table) size =
      ((loadedFrom m table n i).map fun s => (s.virtualAddress + s.virtualSize) % 2 ^ 32).foldl max
        size := by
  induction n generalizing i size with
  | zero => rfl
  | succ n ih =>
    rw [List.range'_succ, List.foldl_cons, ih, loadedFrom_succ, sizeVBuffer]
    by_cases hl : (readSection m (table + 40 * i)).IsLoaded
    · rw [if_pos hl, if_pos hl, List.map_cons, List.foldl_cons]
      congr 1
      split_ifs with hlt
      · rw [Nat.max_eq_right hlt.le]
      · rw [Nat.max_eq_left (Nat.not_lt.mp hlt)]
    · rw [if_neg hl, if_neg hl]

theorem sizeVBuffer_eq (m : Buffer) (table n : ℕ) :
    (List.range' 0 n).foldl (sizeVBuffer ((List.range' 0 n).foldl (raiseSize table) m) table) 0 =
      largestStop (loadedFrom m table n 0) := by
  have hloaded : loadedFrom ((List.range' 0 n).foldl (raiseSize table) m) table n 0 =
      (loadedFrom m table n 0).map PeSectionTable.raised := by
    rw [loadedFrom, sectionsFrom_raiseSizes, loadedFrom, List.filter_map]
    congr 1
    apply List.filter_congr
    intro s _
    exact decide_eq_decide.mpr raised_isLoaded
  rw [foldl_sizeVBuffer, hloaded, List.map_map, largestStop]
  congr 1
  apply List.map_congr_left
  intro s hs
  have hl : s.IsLoaded := by simpa using (List.mem_filter.mp hs).2
  simp only [Function.comp_apply, PeSectionTable.raised, if_pos hl, PeSectionTable.stop]

theorem reachedFrom_raiseSizes (m : Buffer) (table n k i : ℕ) (initData : Bool) (h : i + k = n) :
    reachedFrom ((List.range' 0 n).foldl (raiseSize table) m) table k i initData =
      (reachedFrom m table k i initData).map PeSectionTable.raised := by
  induction k generalizing i initData with
  | zero => rfl
  | succ k ih =>
    rw [reachedFrom, reachedFrom, readSection_raiseSizes (by omega), isInitData_raiseSizes,
      ih _ _ (by omega)]
    split
    · rfl
    · rfl

theorem copyKernelSections_contained {file length : ℕ} (initData : Bool) (image : Image) :
    (∀ a ∈ (copyKernelSections m file table n i initData image).accesses,
        a.length = 0 ∨ a.start + a.length ≤ length) ↔
      (∀ a ∈ image.accesses, a.length = 0 ∨ a.start + a.length ≤ length) ∧
        ∀ s ∈ reachedFrom m table n i initData, s.IsLoaded → s.extent ≠ 0 →
          s.virtualAddress + s.extent ≤ length := by
  have hfirst (image : Image) (s : PeSectionTable) :
      (∀ a ∈ (copySection m file s image).accesses, a.length = 0 ∨ a.start + a.length ≤ length) ↔
        (∀ a ∈ image.accesses, a.length = 0 ∨ a.start + a.length ≤ length) ∧
          (s.IsLoaded → s.extent ≠ 0 → s.virtualAddress + s.extent ≤ length) := by
    by_cases hl : s.IsLoaded
    · rw [copySection_contained hl]
      exact and_congr_right fun _ => ⟨fun h _ => h, fun h => h hl⟩
    · rw [copySection_of_not hl]
      exact ⟨fun h => ⟨h, fun h' => absurd h' hl⟩, fun h => h.1⟩
  induction n generalizing i initData image with
  | zero => exact ⟨fun h => ⟨h, fun s hs => absurd hs List.not_mem_nil⟩, fun h => h.1⟩
  | succ n ih =>
    rw [copyKernelSections, reachedFrom, List.forall_mem_cons]
    split
    · rw [hfirst]
      exact and_congr_right fun _ =>
        ⟨fun h => ⟨h, fun s hs => absurd hs List.not_mem_nil⟩, fun h => h.1⟩
    · refine (ih _ _).trans ?_
      rw [hfirst, and_assoc]

theorem le_foldl_max (l : List ℕ) (a : ℕ) : a ≤ l.foldl max a ∧ ∀ x ∈ l, x ≤ l.foldl max a := by
  induction l generalizing a with
  | nil => exact ⟨Nat.le_refl a, fun x hx => absurd hx List.not_mem_nil⟩
  | cons y l ih =>
    obtain ⟨hmax, hl⟩ := ih (max a y)
    rw [List.foldl_cons]
    refine ⟨(Nat.le_max_left a y).trans hmax, fun x hx => ?_⟩
    rcases List.mem_cons.mp hx with rfl | hx
    · exact (Nat.le_max_right a x).trans hmax
    · exact hl x hx

theorem mem_reachedFrom {initData : Bool} (h : s ∈ reachedFrom m table n i initData) :
    s ∈ sectionsFrom m table n i := by
  induction n generalizing i initData with
  | zero => exact absurd h List.not_mem_nil
  | succ n ih =>
    rw [reachedFrom] at h
    rw [sectionsFrom, List.range'_succ, List.map_cons]
    rcases List.mem_cons.mp h with rfl | h
    · exact List.mem_cons_self
    · split at h
      · exact absurd h List.not_mem_nil
      · exact List.mem_cons_of_mem _ (ih h)

end Raised

section Image

variable {m memory : Buffer} {kernelBuffer : ℕ} {r : KernelImage}

def raiseSizes (m : Buffer) (pe : ℕ) : Buffer :=
  (List.range' 0 (readHdr m pe).numSections).foldl (raiseSize (sectionTable m pe)) m

theorem loadKernelImage_eq (h : loadKernelImage m kernelBuffer memory = some r) :
    r = ⟨(largestStop (loadedSections m (kernelHeader m kernelBuffer)) + 0x20000) / 2 ^ 12,
      copyKernelSections (raiseSizes m (kernelHeader m kernelBuffer)) kernelBuffer
        (sectionTable m (kernelHeader m kernelBuffer))
          (readHdr m (kernelHeader m kernelBuffer)).numSections 0 false
        ⟨memory, []⟩⟩ := by
  rw [loadKernelImage] at h
  dsimp only at h
  split_ifs at h with hoff hcheck hsize
  have hlargest := sizeVBuffer_eq m (sectionTable m (kernelHeader m kernelBuffer))
    (readHdr m (kernelHeader m kernelBuffer)).numSections
  rw [loadedSections, ← hlargest]
  exact (Option.some.inj h).symm

/-- A kernel image that is loaded lies in its pages exactly when the ends of its sections do not
wrap too far. -/
theorem kernelImage_contained_iff (h : loadKernelImage m kernelBuffer memory = some r) :
    r.Contained ↔ StopsFit m (kernelHeader m kernelBuffer) := by
  have hreached := reachedFrom_raiseSizes m (sectionTable m (kernelHeader m kernelBuffer))
    (readHdr m (kernelHeader m kernelBuffer)).numSections
    (readHdr m (kernelHeader m kernelBuffer)).numSections 0 false (Nat.zero_add _)
  rw [loadKernelImage_eq h, KernelImage.Contained]
  refine (copyKernelSections_contained false _).trans ?_
  rw [raiseSizes, hreached, List.forall_mem_map]
  simp only [raised_isLoaded, raised_extent, raised_virtualAddress]
  constructor
  · rintro ⟨-, hwithin⟩ s hs hl h0
    exact Or.inr (hwithin s hs hl h0)
  · intro hfit
    refine ⟨fun a ha => absurd ha List.not_mem_nil, fun s hs hl h0 => ?_⟩
    rcases hfit s hs hl h0 with hlt | hle
    · have hmem : s ∈ loadedSections m (kernelHeader m kernelBuffer) :=
        List.mem_filter.mpr ⟨mem_reachedFrom hs, decide_eq_true hl⟩
      have hlargest :=
        (le_foldl_max ((loadedSections m (kernelHeader m kernelBuffer)).map fun s =>
          s.stop % 2 ^ 32)
        0).2 _ (List.mem_map_of_mem hmem)
      rw [Nat.mod_eq_of_lt hlt] at hlargest
      change s.stop ≤ largestStop _ at hlargest
      change s.stop ≤ _
      omega
    · exact hle

end Image

/-- A kernel image with its header at `0x40` and two sections of code, one of a page at `0x1000` and
one of two pages at the given address. -/
def twoSections (virtualAddress : ℕ) : Buffer :=
  let b := setLE (setLE (setLE (fun _ => 0) 0 2 0x5A4D) 0x3C 4 0x40) 0x40 4 0x4550
  let b := setLE (setLE (setLE (setLE b 0x44 2 0x8664) 0x46 2 2) 0x54 2 240) 0x56 2 0x20
  let b := setLE (setLE (setLE (setLE b 0x68 4 0x1000) 0x90 4 0x4000) 0x9C 2 1) 0x9E 2 0x40
  let b := setLE (setLE (setLE (setLE b 0xF0 4 0x1000) 0x150 4 0x1000) 0x154 4 0x1000) 0x16C 4 0x20
  setLE (setLE (setLE b 0x178 4 0x2000) 0x17C 4 virtualAddress) 0x194 4 0x20

/-- The second section begins in the last page below `2 ^ 32`. -/
theorem wrappedSection_out :
    ∃ r, loadKernelImage (twoSections 0xFFFFF000) 0 (fun _ => 0) = some r ∧ ¬r.Contained := by
  have hpages : (loadKernelImage (twoSections 0xFFFFF000) 0 fun _ => 0).map KernelImage.pages =
      some 0x22 := by
    decide
  have haccesses : (loadKernelImage (twoSections 0xFFFFF000) 0 fun _ => 0).map
    (fun r => r.image.accesses) =
      some [⟨.copied, 0x1000, 0⟩, ⟨.zeroed, 0x1000, 0x1000⟩, ⟨.copied, 0xFFFFF000, 0⟩,
        ⟨.zeroed, 0xFFFFF000, 0x2000⟩] := by
    decide
  obtain ⟨r, hr⟩ :=
    Option.isSome_iff_exists.mp (Option.isSome_map.symm.trans (congrArg Option.isSome hpages))
  refine ⟨r, hr, fun hc => ?_⟩
  rw [hr] at hpages haccesses
  have hmem : (⟨.zeroed, 0xFFFFF000, 0x2000⟩ : Access) ∈ r.image.accesses := by
    rw [show r.image.accesses = _ from Option.some.inj haccesses]
    decide
  rcases hc _ hmem with h | h
  · exact absurd h (by decide)
  · rw [show r.pages = _ from Option.some.inj hpages] at h
    exact absurd h (by decide)

/-- The second section lies behind the first one. -/
theorem nextSection_contained :
    ∃ r, loadKernelImage (twoSections 0x2000) 0 (fun _ => 0) = some r ∧ r.Contained := by
  have hsome : (loadKernelImage (twoSections 0x2000) 0 fun _ => 0).isSome = true := by
    decide
  obtain ⟨r, hr⟩ := Option.isSome_iff_exists.mp hsome
  have hheader : kernelHeader (twoSections 0x2000) 0 = 0x40 := by
    decide
  have hfit : StopsFit (twoSections 0x2000) (kernelHeader (twoSections 0x2000) 0) := by
    rw [hheader, StopsFit]
    decide
  exact ⟨r, hr, (kernelImage_contained_iff hr).mpr hfit⟩

end DevOs.Loader
