import DevOs.Lib.Bytes

/-!
# The PE loaders

The file of an image lies in memory, which is a function from addresses to bytes, and its headers
and section table are read from there. `VirtualBuffer` is a buffer of its own, indexed from its
first byte, whose first contents are those of the pool. Pointers into it are offsets and do not
wrap. Every loader fills it in the same way: it adds up the section sizes, which it rounds in place,
and then copies and clears section by section.

The accesses to the buffer are recorded, those outside of it too. Nothing behind such an access is
meant to describe the machine, since it may hit any other object.
-/

namespace DevOs.Loader

open Bytes

/-- `IMAGE_DATA_DIRECTORY` -/
structure ImageDataDirectory where
  virtualAddress : ℕ
  size : ℕ
deriving DecidableEq, Repr

/-- The fields of `PE_SECTION_TABLE` that the loaders use. -/
structure PeSectionTable where
  virtualSize : ℕ
  virtualAddress : ℕ
  sizeofRawData : ℕ
  ptrToRawData : ℕ
  characteristics : ℕ
deriving DecidableEq, Repr

/-- The fields of `PE_IMAGE_HDR` that the loaders use. -/
structure PeImageHdr where
  signature : ℕ
  machineType : ℕ
  numSections : ℕ
  sizeofOptionnalHeader : ℕ
  imageBase : ℕ
  subsystem : ℕ
  dllCharacteristics : ℕ
  numDataDirectories : ℕ
  exportTable : ImageDataDirectory
  baseRelocationTable : ImageDataDirectory
deriving DecidableEq, Repr

def readDirectory (m : Buffer) (o : ℕ) : ImageDataDirectory := ⟨getLE m o 4, getLE m (o + 4) 4⟩

def readHdr (m : Buffer) (o : ℕ) : PeImageHdr where
  signature := getLE m o 4
  machineType := getLE m (o + 4) 2
  numSections := getLE m (o + 6) 2
  sizeofOptionnalHeader := getLE m (o + 20) 2
  imageBase := getLE m (o + 48) 8
  subsystem := getLE m (o + 92) 2
  dllCharacteristics := getLE m (o + 94) 2
  numDataDirectories := getLE m (o + 132) 4
  exportTable := readDirectory m (o + 136)
  baseRelocationTable := readDirectory m (o + 176)

def readSection (m : Buffer) (o : ℕ) : PeSectionTable where
  virtualSize := getLE m (o + 8) 4
  virtualAddress := getLE m (o + 12) 4
  sizeofRawData := getLE m (o + 16) 4
  ptrToRawData := getLE m (o + 20) 4
  characteristics := getLE m (o + 36) 4

/-- `PE_SECTION_CODE | PE_SECTION_INITIALIZED_DATA | PE_SECTION_UNINITIALIZED_DATA` -/
def PeSectionTable.IsLoaded (s : PeSectionTable) : Prop :=
  s.characteristics &&& (0x20 ||| 0x40 ||| 0x80) ≠ 0

instance (s : PeSectionTable) : Decidable s.IsLoaded := inferInstanceAs (Decidable (_ ≠ _))

/-- `IMAGE_DLL_DYNAMIC_BASE` -/
def PeImageHdr.DynamicBase (h : PeImageHdr) : Prop := h.dllCharacteristics &&& 0x40 ≠ 0

instance (h : PeImageHdr) : Decidable h.DynamicBase := inferInstanceAs (Decidable (_ ≠ _))

/-- `GetPEhdrOffset`, as the bits of an `int`. The `memcmp` of the kernel says whether the bytes are
equal. -/
def getPEhdrOffset (m : Buffer) (hdr : ℕ) : ℕ :=
  if getLE m hdr 2 ≠ 0x5A4D then 0xFFFFFFFF else getLE m (hdr + 0x3C) 4

/-- The conversion of an `int` to 64 bits. -/
def signExtend (v : ℕ) : ℕ := if v < 2 ^ 31 then v else v + (2 ^ 64 - 2 ^ 32)

def PeCheckFileHeader (h : PeImageHdr) : Prop :=
  ¬(h.machineType ≠ 0x8664 ∨ h.signature ≠ 0x00004550 ∨ h.sizeofOptionnalHeader < 24 ∨
    96 < h.numSections ∨
    3 < h.subsystem ∨ ¬h.DynamicBase)

instance (h : PeImageHdr) : Decidable (PeCheckFileHeader h) := inferInstanceAs (Decidable (¬_))

inductive AccessKind where
  | blockHeader
  | entry
  | target
  | copied
  | zeroed
deriving DecidableEq, Repr

/-- An access to `length` bytes of `VirtualBuffer` from the offset `start` on. -/
structure Access where
  kind : AccessKind
  start : ℕ
  length : ℕ
deriving DecidableEq, Repr

/-- The contents of `VirtualBuffer` and the accesses so far. -/
structure Image where
  bytes : Buffer
  accesses : List Access

def Image.note (s : Image) (kind : AccessKind) (start length : ℕ) : Image :=
  { s with accesses := s.accesses ++ [⟨kind, start, length⟩] }

/-- The rounding of `VirtualSize`, a `UINT32`, in `pe64_native.c` and `pe64_user.c`. -/
def alignSize (v : ℕ) : ℕ := if v % 0x1000 ≠ 0 then (v + (0x1000 - v % 0x1000)) % 2 ^ 32 else v

/-- The rounding of `VirtualSize` in `pe64_dll.c`. -/
def alignDllSize (v : ℕ) : ℕ := if v &&& 0xFFF ≠ 0 then (v + 0x1000) % 2 ^ 32 &&& 0xFFFFF000 else v

/-- The loop that rounds the sizes of the section headers `i`, `i + 1`, ... and adds them up. -/
def sizeSections (align : ℕ → ℕ) (table : ℕ) : ℕ → ℕ → Buffer → ℕ → Buffer × ℕ
  | 0, _, m, length => (m, length)
  | n + 1, i, m, length =>
    let s := readSection m (table + 40 * i)
    if ¬s.IsLoaded ∨ s.virtualSize = 0 then sizeSections align table n (i + 1) m length
    else
      let v := align s.virtualSize
      sizeSections align table n (i + 1) (setLE m (table + 40 * i + 8) 4 v) (length + v)

def copySection (m : Buffer) (file : ℕ) (s : PeSectionTable) (image : Image) : Image :=
  if s.IsLoaded then
    let image := { image.note .copied s.virtualAddress s.sizeofRawData with
      bytes := copy image.bytes s.virtualAddress m (file + s.ptrToRawData) s.sizeofRawData }
    if s.sizeofRawData < s.virtualSize then
      { image.note .zeroed (s.virtualAddress +
          s.sizeofRawData) (s.virtualSize - s.sizeofRawData) with
        bytes := clear image.bytes (s.virtualAddress + s.sizeofRawData)
          (s.virtualSize - s.sizeofRawData) }
    else image
  else image

/-- The loop over the section headers `i`, `i + 1`, ... -/
def copySections (m : Buffer) (file table : ℕ) : ℕ → ℕ → Image → Image
  | 0, _, image => image
  | n + 1, i, image =>
    copySections m file table n (i + 1) (copySection m file (readSection m (table + 40 * i)) image)

/-- What loading leaves: the length of `VirtualBuffer`, the buffer, and the memory of the file. -/
structure Loaded where
  virtualBufferLength : ℕ
  image : Image
  memory : Buffer

/-- Both loops, from the header at `pe` on. -/
def loadSections (align : ℕ → ℕ) (m : Buffer) (file pe : ℕ) (pool : Buffer) : Loaded :=
  let h := readHdr m pe
  let table := pe + 24 + h.sizeofOptionnalHeader
  let sized := sizeSections align table h.numSections 0 m 0x1000
  ⟨sized.2, copySections sized.1 file table h.numSections 0 ⟨pool, []⟩, sized.1⟩

/-- `Pe64LoadNativeApplication` up to the relocation. -/
def pe64LoadNativeApplication (m : Buffer) (imageBuffer : ℕ) (pool : Buffer) : Option Loaded :=
  let peOff := getPEhdrOffset m imageBuffer
  if peOff = 0xFFFFFFFF then none
  else
    let peImage := (imageBuffer + signExtend peOff) % 2 ^ 64
    let h := readHdr m peImage
    if h.sizeofOptionnalHeader ≠ 240 ∨ h.numDataDirectories ≠ 16 ∨ ¬h.DynamicBase then none
    else some (loadSections alignSize m imageBuffer peImage pool)

/-- `Pe64LoadDll` from the label `LoadDLL` to the label `LinkDLL`. A library without an export table
is not loaded. -/
def pe64LoadDll (m : Buffer) (dllBuffer : ℕ) (pool : Buffer) : Option Loaded :=
  let peHeaderOffset := getPEhdrOffset m dllBuffer
  if peHeaderOffset = 0 then none
  else
    let peImage := (dllBuffer + signExtend peHeaderOffset) % 2 ^ 64
    let h := readHdr m peImage
    if ¬PeCheckFileHeader h ∨ h.sizeofOptionnalHeader ≠ 240 ∨ h.numDataDirectories ≠ 16 then none
    else if ¬h.DynamicBase then none
    else if h.exportTable.virtualAddress = 0 then none
    else some (loadSections alignDllSize m dllBuffer peImage pool)

/-- `Pe64LoadUserApplication` up to the mapping. It frees the buffer when `PeCheckFileHeader` fails,
but does not return. -/
def pe64LoadUserApplication (m : Buffer) (buffer fileSize : ℕ) (pool : Buffer) : Option Loaded :=
  let peHdrOff := getPEhdrOffset m buffer
  if peHdrOff = 0xFFFFFFFF ∨ 0x5F00000000 < fileSize + 0x250000 then none
  else
    let image := (buffer + peHdrOff) % 2 ^ 64
    if (readHdr m image).subsystem = 1 then none
    else some (loadSections alignSize m buffer image pool)

/-- `EntriesCount`, from the type of `sizeof` and then cut to a `UINT32`. -/
def entriesCount (blockSize : ℕ) : ℕ := (blockSize + (2 ^ 64 - 8)) % 2 ^ 64 / 2 % 2 ^ 32

/-- The entry `i` of the block at the offset `o`. -/
def relocateEntry (preferred imageBase o i : ℕ) (s : Image) : Image :=
  let s := s.note .entry (o + 8 + 2 * i) 2
  let e := getLE s.bytes (o + 8 + 2 * i) 2
  if e / 2 ^ 12 ≠ 10 then s
  else
    let target := getLE s.bytes o 4 + e % 2 ^ 12
    let baseValue := getLE s.bytes target 8
    { s.note .target target 8 with
      bytes := setLE s.bytes target 8
        ((imageBase + (baseValue + (2 ^ 64 - preferred)) % 2 ^ 64) % 2 ^ 64) }

/-- The entries `i`, `i + 1`, ... of the block at the offset `o`. -/
def relocateEntries (preferred imageBase o : ℕ) : ℕ → ℕ → Image → Image
  | 0, _, s => s
  | n + 1, i, s =>
    relocateEntries preferred imageBase o n (i + 1) (relocateEntry preferred imageBase o i s)

/-- `while(NextBlock <= SectionEnd)`, with fuel. -/
def relocateBlocks (preferred imageBase sectionEnd : ℕ) : ℕ → ℕ → Image → Option Image
  | 0, _, _ => none
  | n + 1, nextBlock, s =>
    if nextBlock ≤ sectionEnd then
      let s := s.note .blockHeader nextBlock 8
      let pageRva := getLE s.bytes nextBlock 4
      let blockSize := getLE s.bytes (nextBlock + 4) 4
      if pageRva = 0 ∨ blockSize = 0 then some s
      else
        relocateBlocks preferred imageBase sectionEnd n (nextBlock + blockSize)
          (relocateEntries preferred imageBase nextBlock (entriesCount blockSize) 0 s)
    else some s

/-- `Pe64RelocateImage`, for an image at the address `virtualBuffer`. Every block takes a byte at
least. -/
def pe64RelocateImage (peImage : PeImageHdr) (virtualBuffer imageBase : ℕ) (bytes : Buffer) :
    Option Image :=
  let table := peImage.baseRelocationTable
  let imageBase := if imageBase = 0 then virtualBuffer else imageBase
  relocateBlocks peImage.imageBase imageBase (table.virtualAddress + table.size) (table.size + 2)
    table.virtualAddress ⟨bytes, []⟩

/-- `PeRelocateImage` of `EfiEntry.c`. -/
def peRelocateImage (peImage : Option PeImageHdr) (imageBuffer virtualBuffer imageBase : ℕ)
    (bytes : Buffer) :
    Option (Image × Bool) :=
  match peImage with
  | none => some (⟨bytes, []⟩, false)
  | some peImage =>
    if imageBuffer = 0 ∨ virtualBuffer = 0 then some (⟨bytes, []⟩, false)
    else
      let table := peImage.baseRelocationTable
      if virtualBuffer + table.virtualAddress = 0 then some (⟨bytes, []⟩, false)
      else
        let imageBase := if imageBase = 0 then virtualBuffer else imageBase
        (relocateBlocks peImage.imageBase imageBase (table.virtualAddress + table.size)
          (table.size + 2)
          table.virtualAddress ⟨bytes, []⟩).map (fun s => (s, true))

end DevOs.Loader
