import DevOs.Lib.Overlays
import DevOs.Loader.Model

/-!
# Loaded sections

A section that is loaded gives its raw data and then zeros to the bytes from its address on, up to
its rounded size. The buffer holds the rounded sizes together and a page, wherever the sections lie.
So the sections are loaded as they should be when each of them lies in a buffer of that size, and
when no section that comes later has other bytes at the same place.
-/

namespace DevOs.Loader

open Bytes Overlays

def PeSectionTable.aligned (s : PeSectionTable) : PeSectionTable :=
  if s.IsLoaded then { s with virtualSize := alignSize s.virtualSize } else s

def PeSectionTable.extent (s : PeSectionTable) : ℕ := max s.sizeofRawData s.virtualSize

/-- The byte `i` of a section of the file at `file`. -/
def PeSectionTable.byte (m : Buffer) (file : ℕ) (s : PeSectionTable) (i : ℕ) : Byte :=
  if i < s.sizeofRawData then m (file + s.ptrToRawData + i) else 0

def PeSectionTable.piece (m : Buffer) (file : ℕ) (s : PeSectionTable) : Piece Byte :=
  ⟨s.virtualAddress, s.extent, s.byte m file⟩

/-- The section headers `i`, ..., `i + n - 1`. -/
def sectionsFrom (m : Buffer) (table n i : ℕ) : List PeSectionTable :=
  (List.range' i n).map fun j => readSection m (table + 40 * j)

def loadedFrom (m : Buffer) (table n i : ℕ) : List PeSectionTable :=
  (sectionsFrom m table n i).filter fun s => s.IsLoaded

def sectionTable (m : Buffer) (pe : ℕ) : ℕ := pe + 24 + (readHdr m pe).sizeofOptionnalHeader

def loadedSections (m : Buffer) (pe : ℕ) : List PeSectionTable :=
  loadedFrom m (sectionTable m pe) (readHdr m pe).numSections 0

/-- The memory with the rounded size in the header `j`. -/
def roundSize (table : ℕ) (m : Buffer) (j : ℕ) : Buffer :=
  let s := readSection m (table + 40 * j)
  if ¬s.IsLoaded ∨ s.virtualSize = 0 then m
    else setLE m (table + 40 * j + 8) 4 (alignSize s.virtualSize)

def roundSizes (m : Buffer) (pe : ℕ) : Buffer :=
  (List.range' 0 (readHdr m pe).numSections).foldl (roundSize (sectionTable m pe)) m

def bufferLength (l : List PeSectionTable) : ℕ :=
  0x1000 + (l.map fun s => s.aligned.virtualSize).sum

/-- Every section lies in the buffer, and at each of its bytes it has what the last section there
has. -/
structure SectionsFit (m : Buffer) (file pe : ℕ) : Prop where
  within : ∀ s ∈ loadedSections m pe, s.aligned.extent ≠ 0 →
    s.virtualAddress + s.aligned.extent ≤ bufferLength (loadedSections m pe)
  onTop : ∀ s ∈ loadedSections m pe, ∀ i < s.extent,
    top ((loadedSections m pe).map fun t => t.aligned.piece (roundSizes m pe) file)
    (s.virtualAddress + i) =
      some (s.byte m file i)

def Loaded.Contained (r : Loaded) : Prop :=
  ∀ a ∈ r.image.accesses, a.length = 0 ∨ a.start + a.length ≤ r.virtualBufferLength

/-- The bytes of every section are its raw data, and zeros up to its size. -/
def Loaded.Holds (m : Buffer) (file pe : ℕ) (r : Loaded) : Prop :=
  ∀ s ∈ loadedSections m pe, ∀ i < s.extent, r.image.bytes (s.virtualAddress + i) = s.byte m file i

section Sizes

variable {align : ℕ → ℕ} {m : Buffer} {table n i j length v : ℕ} {s : PeSectionTable}

theorem and_page_mask (w : ℕ) (h : w < 2 ^ 32) : w &&& 0xFFFFF000 = w / 2 ^ 12 * 2 ^ 12 := by
  apply Nat.eq_of_testBit_eq
  intro k
  rw [Nat.testBit_and, show 0xFFFFF000 = (2 ^ 20 - 1) * 2 ^ 12 from rfl, Nat.testBit_mul_two_pow,
    Nat.testBit_mul_two_pow, Nat.testBit_two_pow_sub_one, Nat.testBit_div_two_pow]
  by_cases hk : 12 ≤ k
  · rw [Nat.sub_add_cancel hk]
    by_cases h20 : k - 12 < 20
    · simp [hk, h20]
    · have hz : w.testBit k = false :=
        Nat.testBit_lt_two_pow (lt_of_lt_of_le h (Nat.pow_le_pow_right Nat.two_pos (by omega)))
      simp [hz]
  · simp [hk]

theorem alignDllSize_eq (v : ℕ) : alignDllSize v = alignSize v := by
  rw [alignDllSize, alignSize, show 0xFFF = 2 ^ 12 - 1 from rfl, Nat.and_two_pow_sub_one_eq_mod]
  by_cases hv : v % 0x1000 = 0
  · rw [if_neg (not_not.mpr hv), if_neg (not_not.mpr hv)]
  · rw [if_pos hv, if_pos hv, and_page_mask _ (Nat.mod_lt _ (by decide))]
    omega

theorem alignSize_lt (h : v < 2 ^ 32) : alignSize v < 2 ^ 32 := by
  rw [alignSize]
  split
  · exact Nat.mod_lt _ (by decide)
  · exact h

theorem readSection_virtualSize_lt (m : Buffer) (o : ℕ) : (readSection m o).virtualSize < 2 ^ 32 :=
  getLE_lt m (o + 8) 4

theorem readSection_setSize_of_ne (h : i ≠ j) (v : ℕ) :
    readSection (setLE m (table + 40 * i + 8) 4 v) (table + 40 * j) =
      readSection m (table + 40 * j) := by
  rw [readSection, getLE_setLE_of_disjoint _ (by omega), getLE_setLE_of_disjoint _ (by omega),
    getLE_setLE_of_disjoint _ (by omega), getLE_setLE_of_disjoint _ (by omega),
    getLE_setLE_of_disjoint _ (by omega)]
  rfl

theorem readSection_setSize_self (h : v < 2 ^ 32) :
    readSection (setLE m (table + 40 * j + 8) 4 v) (table + 40 * j) =
      { readSection m (table + 40 * j) with virtualSize := v } := by
  have hlt : v < 256 ^ 4 := h
  rw [readSection, getLE_setLE_self, getLE_setLE_of_disjoint _ (by omega),
    getLE_setLE_of_disjoint _ (by omega), getLE_setLE_of_disjoint _ (by omega),
    getLE_setLE_of_disjoint _ (by omega), Nat.mod_eq_of_lt hlt]
  rfl

theorem readSection_roundSize_of_ne (h : i ≠ j) :
    readSection (roundSize table m i) (table + 40 * j) = readSection m (table + 40 * j) := by
  rw [roundSize]
  split
  · rfl
  · exact readSection_setSize_of_ne h _

theorem readSection_roundSize_self :
    readSection (roundSize table m j) (table + 40 * j) =
      (readSection m (table + 40 * j)).aligned := by
  rw [roundSize, PeSectionTable.aligned]
  by_cases hl : (readSection m (table + 40 * j)).IsLoaded
  · rw [if_pos hl]
    by_cases h0 : (readSection m (table + 40 * j)).virtualSize = 0
    · rw [if_pos (Or.inr h0), h0, show alignSize 0 = 0 from rfl, ← h0]
    · rw [if_neg (by
        tauto), readSection_setSize_self
          (alignSize_lt (readSection_virtualSize_lt m (table + 40 * j)))]
  · rw [if_pos (Or.inl hl), if_neg hl]

theorem aligned_virtualSize_of_zero (h : s.virtualSize = 0) : s.aligned.virtualSize = 0 := by
  rw [PeSectionTable.aligned]
  split
  · exact congrArg alignSize h
  · exact h

theorem sectionsFrom_roundSize (m : Buffer) (table n i : ℕ) :
    sectionsFrom (roundSize table m i) table n (i + 1) = sectionsFrom m table n (i + 1) := by
  apply List.map_congr_left
  intro j hj
  have := (List.mem_range'_1.mp hj).1
  exact readSection_roundSize_of_ne (by omega)

theorem loadedFrom_succ (m : Buffer) (table n i : ℕ) :
    loadedFrom m table (n + 1) i =
      if (readSection m (table + 40 * i)).IsLoaded then
        readSection m (table + 40 * i) :: loadedFrom m table n (i + 1)
      else loadedFrom m table n (i + 1) := by
  rw [loadedFrom, sectionsFrom, List.range'_succ, List.map_cons, List.filter_cons]
  by_cases hl : (readSection m (table + 40 * i)).IsLoaded
  · rw [if_pos (decide_eq_true hl), if_pos hl]
    rfl
  · rw [if_neg (by simpa using hl), if_neg hl]
    rfl

theorem sectionsFrom_foldl {change : Buffer → ℕ → Buffer} {f : PeSectionTable → PeSectionTable}
    (hother : ∀ m i j, i ≠ j →
      readSection (change m i) (table + 40 * j) = readSection m (table + 40 * j))
    (hself : ∀ m j, readSection (change m j) (table + 40 * j) = f (readSection m (table + 40 * j)))
    (m : Buffer) (n i : ℕ) :
    sectionsFrom ((List.range' i n).foldl change m) table n i =
      (sectionsFrom m table n i).map f := by
  have hbefore (m : Buffer) (n i j : ℕ) (h : j < i) :
      readSection ((List.range' i n).foldl change m) (table + 40 * j) =
      readSection m (table + 40 * j) := by
    induction n generalizing m i with
    | zero => rfl
    | succ n ih =>
      rw [List.range'_succ, List.foldl_cons, ih _ _ (by omega), hother _ _ _ (by omega)]
  induction n generalizing m i with
  | zero => rfl
  | succ n ih =>
    have hrest : sectionsFrom (change m i) table n (i + 1) = sectionsFrom m table n (i + 1) := by
      apply List.map_congr_left
      intro j hj
      have := (List.mem_range'_1.mp hj).1
      exact hother _ _ _ (by omega)
    have htail := ih (change m i) (i + 1)
    rw [hrest] at htail
    rw [List.range'_succ, List.foldl_cons, sectionsFrom, List.range'_succ, List.map_cons,
      hbefore _ _ _ _ (by omega), hself, sectionsFrom, List.range'_succ, List.map_cons,
      List.map_cons]
    exact congrArg _ htail

theorem sectionsFrom_roundSizes (m : Buffer) (table n i : ℕ) :
    sectionsFrom ((List.range' i n).foldl (roundSize table) m) table n i =
      (sectionsFrom m table n i).map PeSectionTable.aligned :=
  sectionsFrom_foldl (fun _ _ _ h => readSection_roundSize_of_ne h)
    (fun _ _ => readSection_roundSize_self) m n i

theorem sizeSections_eq (halign : ∀ v, align v = alignSize v) :
    sizeSections align table n i m length =
      ((List.range' i n).foldl (roundSize table) m,
        length + ((loadedFrom m table n i).map fun s => s.aligned.virtualSize).sum) := by
  induction n generalizing m i length with
  | zero => rfl
  | succ n ih =>
    have hrest : loadedFrom (roundSize table m i) table n (i + 1) = loadedFrom m table n (i + 1) :=
      congrArg (List.filter _) (sectionsFrom_roundSize m table n i)
    have hsum : ((loadedFrom m table (n + 1) i).map fun s => s.aligned.virtualSize).sum =
        (if (readSection m (table + 40 * i)).IsLoaded then
        (readSection m (table + 40 * i)).aligned.virtualSize
          else 0) + ((loadedFrom m table n (i + 1)).map fun s => s.aligned.virtualSize).sum := by
      rw [loadedFrom_succ]
      by_cases hl : (readSection m (table + 40 * i)).IsLoaded
      · rw [if_pos hl, if_pos hl, List.map_cons, List.sum_cons]
      · rw [if_neg hl, if_neg hl, Nat.zero_add]
    rw [sizeSections, List.range'_succ, List.foldl_cons, hsum, ← hrest]
    dsimp only
    by_cases hskip : ¬(readSection m (table + 40 * i)).IsLoaded ∨
      (readSection m (table + 40 * i)).virtualSize = 0
    · have hsame : roundSize table m i = m := if_pos hskip
      have hzero : (if (readSection m (table + 40 * i)).IsLoaded then
          (readSection m (table + 40 * i)).aligned.virtualSize else 0) = 0 := by
        rcases hskip with hl | h0
        · exact if_neg hl
        · rw [aligned_virtualSize_of_zero h0, ite_self]
      rw [if_pos hskip, ih, hzero, Nat.zero_add, hsame]
    · have hl : (readSection m (table + 40 * i)).IsLoaded := by
        by_contra h
        exact hskip (Or.inl h)
      have hround : roundSize table m i =
          setLE m (table + 40 * i + 8) 4 (alignSize (readSection m (table + 40 * i)).virtualSize) :=
          if_neg hskip
      have hvalue : (readSection m (table + 40 * i)).aligned.virtualSize =
          alignSize (readSection m (table + 40 * i)).virtualSize := by
        rw [PeSectionTable.aligned, if_pos hl]
      rw [if_neg hskip, if_pos hl, halign, ← hround, ih, hvalue, Nat.add_assoc]

end Sizes

section Copies

variable {m b : Buffer} {file table pe n i length : ℕ} {s : PeSectionTable} {image : Image}

theorem aligned_isLoaded : s.aligned.IsLoaded ↔ s.IsLoaded := by
  rw [PeSectionTable.aligned]
  split
  · exact Iff.rfl
  · exact Iff.rfl

theorem copySection_bytes (h : s.IsLoaded) :
    (copySection m file s image).bytes = lay image.bytes (s.piece m file) := by
  rw [copySection, if_pos h]
  dsimp only
  by_cases hlt : s.sizeofRawData < s.virtualSize
  · have hextent : s.extent = s.virtualSize := Nat.max_eq_right hlt.le
    rw [if_pos hlt]
    funext k
    simp only [lay, Piece.Covers, PeSectionTable.piece, PeSectionTable.byte, hextent, clear, copy]
    by_cases hlow : k < s.virtualAddress
    · rw [if_neg (by omega), if_neg (by omega), if_neg (by omega)]
    · by_cases hraw : k < s.virtualAddress + s.sizeofRawData
      · rw [if_neg (by omega), if_pos (by omega), if_pos (by omega), if_pos (by omega)]
      · by_cases hend : k < s.virtualAddress + s.virtualSize
        · rw [if_pos (by omega), if_pos (by omega), if_neg (by omega)]
        · rw [if_neg (by omega), if_neg (by omega), if_neg (by omega)]
  · have hextent : s.extent = s.sizeofRawData := Nat.max_eq_left (Nat.not_lt.mp hlt)
    rw [if_neg hlt]
    funext k
    simp only [lay, Piece.Covers, PeSectionTable.piece, PeSectionTable.byte, hextent, copy]
    by_cases hin : s.virtualAddress ≤ k ∧ k < s.virtualAddress + s.sizeofRawData
    · rw [if_pos hin, if_pos hin, if_pos (by omega)]
    · rw [if_neg hin, if_neg hin]

theorem copySection_contained (h : s.IsLoaded) :
    (∀ a ∈ (copySection m file s image).accesses, a.length = 0 ∨ a.start + a.length ≤ length) ↔
      (∀ a ∈ image.accesses, a.length = 0 ∨ a.start + a.length ≤ length) ∧
        (s.extent ≠ 0 → s.virtualAddress + s.extent ≤ length) := by
  rw [copySection, if_pos h]
  dsimp only
  by_cases hlt : s.sizeofRawData < s.virtualSize
  · have hextent : s.extent = s.virtualSize := Nat.max_eq_right hlt.le
    rw [if_pos hlt, hextent]
    simp only [Image.note, List.forall_mem_append, List.forall_mem_singleton, and_assoc]
    refine and_congr_right fun _ => ?_
    omega
  · have hextent : s.extent = s.sizeofRawData := Nat.max_eq_left (Nat.not_lt.mp hlt)
    rw [if_neg hlt, hextent]
    simp only [Image.note, List.forall_mem_append, List.forall_mem_singleton]
    refine and_congr_right fun _ => ?_
    omega

theorem copySection_of_not (h : ¬s.IsLoaded) : copySection m file s image = image := if_neg h

theorem copySections_bytes (image : Image) :
    (copySections m file table n i image).bytes =
      ((loadedFrom m table n i).map fun s => s.piece m file).foldl lay image.bytes := by
  induction n generalizing i image with
  | zero => rfl
  | succ n ih =>
    rw [copySections, ih, loadedFrom_succ]
    by_cases hl : (readSection m (table + 40 * i)).IsLoaded
    · rw [if_pos hl, List.map_cons, List.foldl_cons, copySection_bytes hl]
    · rw [if_neg hl, copySection_of_not hl]

theorem copySections_contained (image : Image) :
    (∀ a ∈ (copySections m file table n i image).accesses, a.length = 0 ∨
      a.start + a.length ≤ length) ↔
      (∀ a ∈ image.accesses, a.length = 0 ∨ a.start + a.length ≤ length) ∧
        ∀ s ∈ loadedFrom m table n i, s.extent ≠ 0 → s.virtualAddress + s.extent ≤ length := by
  induction n generalizing i image with
  | zero => exact ⟨fun h => ⟨h, fun s hs => absurd hs List.not_mem_nil⟩, fun h => h.1⟩
  | succ n ih =>
    rw [copySections, ih, loadedFrom_succ]
    by_cases hl : (readSection m (table + 40 * i)).IsLoaded
    · rw [if_pos hl, List.forall_mem_cons, copySection_contained hl, and_assoc]
    · rw [if_neg hl, copySection_of_not hl]

end Copies

section Loaders

variable {align : ℕ → ℕ} {m : Buffer} {file pe : ℕ}

theorem loadedFrom_roundSizes (m : Buffer) (pe : ℕ) :
    loadedFrom (roundSizes m pe) (sectionTable m pe) (readHdr m pe).numSections 0 =
      (loadedSections m pe).map PeSectionTable.aligned := by
  rw [loadedFrom, roundSizes, sectionsFrom_roundSizes, loadedSections, loadedFrom, List.filter_map]
  congr 1
  apply List.filter_congr
  intro s _
  exact decide_eq_decide.mpr aligned_isLoaded

theorem loadSections_eq (halign : ∀ v, align v = alignSize v) (m : Buffer) (file pe : ℕ)
    (pool : Buffer) :
    loadSections align m file pe pool =
      ⟨bufferLength (loadedSections m pe),
        copySections (roundSizes m pe) file (sectionTable m pe) (readHdr m pe).numSections 0
          ⟨pool, []⟩,
        roundSizes m pe⟩ := by
  rw [loadSections, sizeSections_eq halign]
  rfl

theorem loadSections_contained (halign : ∀ v, align v = alignSize v) (pool : Buffer) :
    (loadSections align m file pe pool).Contained ↔
      ∀ s ∈ loadedSections m pe, s.aligned.extent ≠ 0 →
        s.virtualAddress + s.aligned.extent ≤ bufferLength (loadedSections m pe) := by
  have haddress (s : PeSectionTable) : s.aligned.virtualAddress = s.virtualAddress := by
    rw [PeSectionTable.aligned]
    split <;> rfl
  rw [loadSections_eq halign, Loaded.Contained]
  dsimp only
  rw [copySections_contained, loadedFrom_roundSizes, List.forall_mem_map]
  simp only [haddress]
  exact ⟨fun h => h.2, fun h => ⟨fun a ha => absurd ha List.not_mem_nil, h⟩⟩

theorem loadSections_holds (halign : ∀ v, align v = alignSize v) :
    (∀ pool, (loadSections align m file pe pool).Holds m file pe) ↔
      ∀ s ∈ loadedSections m pe, ∀ i < s.extent,
        top ((loadedSections m pe).map fun t => t.aligned.piece (roundSizes m pe) file)
          (s.virtualAddress + i) =
          some (s.byte m file i) := by
  have : Nontrivial Byte := ⟨0, 1, by decide⟩
  have hbytes (pool : Buffer) : (loadSections align m file pe pool).image.bytes =
      ((loadedSections m pe).map fun t => t.aligned.piece (roundSizes m pe) file).foldl lay pool :=
      by
    rw [loadSections_eq halign]
    dsimp only
    rw [copySections_bytes, loadedFrom_roundSizes, List.map_map]
    rfl
  simp only [Loaded.Holds, hbytes]
  constructor
  · intro h s hs i hi
    exact forall_foldl_lay_iff.mp fun pool => h pool s hs i hi
  · intro h pool s hs i hi
    exact forall_foldl_lay_iff.mpr (h s hs i hi) pool

end Loaders

/-- The three loaders. The one for programs checks the size of the file as well. -/
inductive PeLoader where
  | native
  | dll
  | user (fileSize : ℕ)

/-- The address of the header in the image at `file`. -/
def PeLoader.header (m : Buffer) (file : ℕ) : PeLoader → ℕ
  | .native | .dll => (file + signExtend (getPEhdrOffset m file)) % 2 ^ 64
  | .user _ => (file + getPEhdrOffset m file) % 2 ^ 64

def PeLoader.load (m : Buffer) (file : ℕ) (pool : Buffer) : PeLoader → Option Loaded
  | .native => pe64LoadNativeApplication m file pool
  | .dll => pe64LoadDll m file pool
  | .user fileSize => pe64LoadUserApplication m file fileSize pool

/-- The image passes the checks of the header, and a library exports something. -/
def PeLoader.Accepts (m : Buffer) (file : ℕ) (l : PeLoader) : Prop :=
  let h := readHdr m (l.header m file)
  match l with
  | .native =>
    getPEhdrOffset m file ≠ 0xFFFFFFFF ∧ h.sizeofOptionnalHeader = 240 ∧ h.numDataDirectories = 16 ∧
      h.DynamicBase
  | .dll =>
    getPEhdrOffset m file ≠ 0 ∧ PeCheckFileHeader h ∧ h.sizeofOptionnalHeader = 240 ∧
      h.numDataDirectories = 16 ∧
      h.DynamicBase ∧ h.exportTable.virtualAddress ≠ 0
  | .user fileSize =>
    getPEhdrOffset m file ≠ 0xFFFFFFFF ∧ fileSize + 0x250000 ≤ 0x5F00000000 ∧ PeCheckFileHeader h ∧
      h.subsystem ≠ 1

theorem PeLoader.load_eq {m : Buffer} {file : ℕ} {l : PeLoader} (h : l.Accepts m file) :
    ∃ align : ℕ → ℕ, (∀ v, align v = alignSize v) ∧
      ∀ pool, l.load m file pool = some (loadSections align m file (l.header m file) pool) := by
  cases l with
  | native =>
    obtain ⟨hoff, hopt, hdirs, hbase⟩ := h
    refine ⟨alignSize, fun _ => rfl, fun pool => ?_⟩
    rw [PeLoader.load, pe64LoadNativeApplication]
    dsimp only
    rw [if_neg hoff, if_neg (by
      rintro (h | h | h)
      · exact h hopt
      · exact h hdirs
      · exact h hbase)]
    rfl
  | dll =>
    obtain ⟨hoff, hcheck, hopt, hdirs, hbase, hexport⟩ := h
    refine ⟨alignDllSize, alignDllSize_eq, fun pool => ?_⟩
    rw [PeLoader.header] at hcheck hopt hdirs hbase hexport
    rw [PeLoader.load, pe64LoadDll]
    dsimp only
    rw [if_neg hoff, if_neg (by
      rintro (h | h | h)
      · exact h hcheck
      · exact h hopt
      · exact h hdirs), if_neg (not_not.mpr hbase), if_neg hexport]
    rfl
  | user fileSize =>
    obtain ⟨hoff, hsize, -, hsub⟩ := h
    refine ⟨alignSize, fun _ => rfl, fun pool => ?_⟩
    rw [PeLoader.header] at hsub
    rw [PeLoader.load, pe64LoadUserApplication]
    dsimp only
    rw [if_neg (by omega), if_neg hsub]
    rfl

/-- What an accepted image is loaded to is contained in the buffer and has the bytes of its
sections, whatever the pool holds, exactly when the sections fit. -/
theorem sections_loaded_iff (m : Buffer) (file : ℕ) (l : PeLoader) (h : l.Accepts m file) :
    (∀ pool, ∃ r, l.load m file pool = some r ∧ r.Contained ∧ r.Holds m file (l.header m file)) ↔
      SectionsFit m file (l.header m file) := by
  obtain ⟨align, halign, hload⟩ := l.load_eq h
  constructor
  · intro hall
    refine ⟨?_, (loadSections_holds halign).mp fun pool => ?_⟩
    · obtain ⟨r, hr, hc, -⟩ := hall fun _ => 0
      rw [hload] at hr
      obtain rfl := Option.some.inj hr
      exact (loadSections_contained halign _).mp hc
    · obtain ⟨r, hr, -, hh⟩ := hall pool
      rw [hload] at hr
      obtain rfl := Option.some.inj hr
      exact hh
  · rintro ⟨hwithin, htop⟩ pool
    exact ⟨_, hload pool, (loadSections_contained halign pool).mpr hwithin,
      (loadSections_holds halign).mpr htop pool⟩

/-- An image with its header at `0x40` and one section of code, which has two bytes of raw data and
16 bytes, at the given address. -/
def oneSection (virtualAddress : ℕ) : Buffer :=
  let b := setLE (setLE (setLE (fun _ => 0) 0 2 0x5A4D) 0x3C 4 0x40) 0x40 4 0x4550
  let b := setLE (setLE (setLE b 0x44 2 0x8664) 0x46 2 1) 0x54 2 240
  let b := setLE (setLE (setLE b 0x9C 2 1) 0x9E 2 0x40) 0xC4 4 16
  let b := setLE (setLE (setLE b 0x150 4 16) 0x154 4 virtualAddress) 0x158 4 2
  setLE (setLE (setLE b 0x15C 4 0x200) 0x16C 4 0x20) 0x200 2 0xC3C3

/-- The section lies at `0x3000`, and the buffer has two pages. -/
theorem gapSection_out :
    PeLoader.native.Accepts (oneSection 0x3000) 0 ∧
      ¬∀ pool, ∃ r, PeLoader.native.load (oneSection 0x3000) 0 pool = some r ∧ r.Contained ∧
        r.Holds (oneSection 0x3000) 0 (PeLoader.native.header (oneSection 0x3000) 0) := by
  have haccepts : PeLoader.native.Accepts (oneSection 0x3000) 0 := by
    refine ⟨?_, ?_, ?_, ?_⟩ <;> decide
  refine ⟨haccepts, fun h => ?_⟩
  obtain ⟨r, hr, hc, -⟩ := h fun _ => 0
  have hlength : (PeLoader.native.load (oneSection 0x3000) 0 fun _ => 0).map
    Loaded.virtualBufferLength =
      some 0x2000 := by
    decide
  have haccesses : (PeLoader.native.load (oneSection 0x3000) 0 fun _ => 0).map
    (fun r => r.image.accesses) =
      some [⟨.copied, 0x3000, 2⟩, ⟨.zeroed, 0x3002, 0xFFE⟩] := by
    decide
  rw [hr] at hlength haccesses
  have hmem : (⟨.copied, 0x3000, 2⟩ : Access) ∈ r.image.accesses := by
    rw [show r.image.accesses = _ from Option.some.inj haccesses]
    decide
  rcases hc _ hmem with h | h
  · exact absurd h (by decide)
  · rw [show r.virtualBufferLength = _ from Option.some.inj hlength] at h
    exact absurd h (by decide)

/-- The section lies behind the first page. -/
theorem nextSection_loaded :
    SectionsFit (oneSection 0x1000) 0 0x40 ∧
      ∀ pool, ∃ r, PeLoader.native.load (oneSection 0x1000) 0 pool = some r ∧ r.Contained ∧
        r.Holds (oneSection 0x1000) 0 (PeLoader.native.header (oneSection 0x1000) 0) := by
  have haccepts : PeLoader.native.Accepts (oneSection 0x1000) 0 := by
    refine ⟨?_, ?_, ?_, ?_⟩ <;> decide
  have hfit : SectionsFit (oneSection 0x1000) 0 0x40 := ⟨by decide, by decide⟩
  exact ⟨hfit, (sections_loaded_iff _ _ _ haccepts).mpr hfit⟩

end DevOs.Loader
