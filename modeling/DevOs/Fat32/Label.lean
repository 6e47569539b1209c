import DevOs.Fat32.Runs

/-!
# The volume label

`Fat32CreatePartition` writes the label to the boot sector and to the first entry of the root
directory. The blanks of the entry go to `ShortFileExtension` at the position in the whole name, so
a label of fewer than eleven characters leaves them behind the name.
-/

namespace DevOs.Fat32

open Bytes

variable {g : Geometry} {label : List Byte} {i : ℕ}

def paddedLabel (label : List Byte) (i : ℕ) : Byte := label.getD i 0x20

def rootEntry (s : State) : Buffer := slot (s.data rootDirStart) 0

/-- `VolumeLabel` of the boot sector on the drive. -/
def labelOnDisk (s : State) (i : ℕ) : Byte := s.disk (512 * s.partition.boot.hiddenSectors + 71 + i)

structure LabelWritten (s : State) (label : List Byte) : Prop where
  name : ∀ i < 11, rootEntry s i = paddedLabel label i
  attributes : rootEntry s 11 = 0x08
  rest : ∀ i, 12 ≤ i → i < 32 → rootEntry s i = 0
  agree : ∀ i < 11, labelOnDisk s i = rootEntry s i

/-- The label fills the entry. Behind the length in a `UINT16` there are blanks only. -/
def LongLabel (label : List Byte) : Prop :=
  11 ≤ label.length ∧ ∀ i < 11, label.length % 2 ^ 16 ≤ i → label.getD i 0 = 0x20

theorem labelEntry_long (h : 11 ≤ label.length) (i : ℕ) :
    labelEntry label i = if i < 11 then paddedLabel label i else if i = 11 then 0x08 else 0 := by
  rw [labelEntry, if_neg (by omega)]
  by_cases hi : i < 11
  · rw [if_pos ⟨hi, by omega⟩, if_pos hi, paddedLabel, List.getD_eq_getElem _ _ (by omega),
      List.getD_eq_getElem _ _ (by omega)]
  · rw [if_neg (fun h => hi h.1), if_neg hi]

theorem labelEntry_short (h : label.length < 11) : labelEntry label 18 = 0x20 := by
  rw [labelEntry, if_pos (by omega)]

theorem bytes_volumeLabel (b : BootSector) (hi : i < 11) : b.bytes (71 + i) = b.volumeLabel i := by
  rw [BootSector.bytes, setLE_of_not_mem _ (by omega), setBytes_of_lt (by omega), copy,
    if_pos (by omega), Nat.zero_add, Nat.add_sub_cancel_left]

section Valid

variable (hg : g.Valid) (s : State)

include hg

theorem bootSector_fat32CreatePartition (hi : i < 512) :
    (fat32CreatePartition s g).disk (512 * g.baseLba + i) = g.boot.bytes i := by
  have hfits := hg.fits
  have hres := hg.numReservedSectors
  have hmul : 1 ≤ g.numClusters * g.clusterSize := Nat.mul_pos hg.numClusters hg.clusterSize
  have hstart : g.dataStart = g.fatStart + 2 * g.sectorsPerFat := rfl
  have hfat : g.fatStart = g.baseLba + g.numReservedSectors + 16 := rfl
  have hinfo := hg.fsInfoLba_eq
  have hcopy : g.boot.bootSectorCopyLba = g.numReservedSectors + 3 := Nat.mod_eq_of_lt (by omega)
  have hu (k : ℕ) (hk : k ≤ 4) : u32 (g.baseLba + (g.numReservedSectors + k)) =
      g.baseLba + (g.numReservedSectors + k) := Nat.mod_eq_of_lt (by omega)
  have hsecond : (g.numReservedSectors + 4) % 2 ^ 16 = g.numReservedSectors + 4 :=
    Nat.mod_eq_of_lt (by omega)
  rw [fat32CreatePartition_disk hg s (by omega), writeFats_disk hg, if_neg (by omega),
    if_neg (by omega), writeReserved]
  simp only [State.write_disk, State.write_partition, hinfo, hcopy, hsecond, hu 1 (by omega),
    hu 3 (by omega), hu 4 (by omega)]
  rw [copy, if_neg (by omega), copy, if_neg (by omega), copy, if_neg (by omega), copy,
    if_pos (by omega)]
  exact congrArg g.boot.bytes (by omega)

theorem labelOnDisk_fat32CreatePartition (hi : i < 11) :
    labelOnDisk (fat32CreatePartition s g) i = volumeLabelField g.volumeLabel i := by
  rw [labelOnDisk, fat32CreatePartition_partition, Nat.add_assoc]
  change (fat32CreatePartition s g).disk (512 * g.baseLba + (71 + i)) = _
  rw [bootSector_fat32CreatePartition hg s (by omega), bytes_volumeLabel _ hi]
  rfl

theorem rootEntry_fat32CreatePartition (hi : i < 32) :
    rootEntry (fat32CreatePartition s g) i = labelEntry g.volumeLabel i := by
  have hcs := hg.clusterSize
  have hroot := rootDir_fat32CreatePartition hg s
  rw [State.vol_data] at hroot
  rw [rootEntry, hroot, Geometry.clusterBytes, slot, window_window (by omega), window_apply hi]

theorem LabelWritten.long (h : LabelWritten (fat32CreatePartition s g) g.volumeLabel) :
    LongLabel g.volumeLabel := by
  have hlen : 11 ≤ g.volumeLabel.length := by
    by_contra hlt
    have hrest := h.rest 18 (by decide) (by decide)
    rw [rootEntry_fat32CreatePartition hg s (by decide), labelEntry_short (by omega)] at hrest
    exact absurd hrest (by decide)
  refine ⟨hlen, fun i hi hle => ?_⟩
  have hagree := h.agree i hi
  rw [labelOnDisk_fat32CreatePartition hg s hi, h.name i hi, volumeLabelField, if_pos hle,
    paddedLabel, List.getD_eq_getElem _ _ (by omega)] at hagree
  rw [List.getD_eq_getElem _ _ (by omega), ← hagree]

theorem LongLabel.written (h : LongLabel g.volumeLabel) :
    LabelWritten (fat32CreatePartition s g) g.volumeLabel := by
  obtain ⟨hlen, hblank⟩ := h
  have hentry (i : ℕ) (hi : i < 32) : rootEntry (fat32CreatePartition s g) i =
      if i < 11 then paddedLabel g.volumeLabel i else if i = 11 then 0x08 else 0 := by
    rw [rootEntry_fat32CreatePartition hg s hi, labelEntry_long hlen]
  refine ⟨fun i hi => ?_, ?_, fun i hi hlt => ?_, fun i hi => ?_⟩
  · rw [hentry i (by omega), if_pos hi]
  · rw [hentry 11 (by decide)]
    rfl
  · rw [hentry i hlt, if_neg (by omega), if_neg (by omega)]
  · rw [labelOnDisk_fat32CreatePartition hg s hi, hentry i (by omega), if_pos hi, volumeLabelField,
      paddedLabel, List.getD_eq_getElem _ 0x20 (by omega)]
    split_ifs with hle
    · rw [← hblank i hi hle, List.getD_eq_getElem _ _ (by omega)]
    · rw [List.getD_eq_getElem _ _ (by omega)]

/-- The label is written as it should be exactly when it is long. -/
theorem label_written_iff :
    LabelWritten (fat32CreatePartition s g) g.volumeLabel ↔ LongLabel g.volumeLabel :=
  ⟨LabelWritten.long hg s, LongLabel.written hg s⟩

end Valid

def labelledGeometry (label : List Byte) : Geometry := { smallGeometry with volumeLabel := label }

theorem labelledGeometry_valid (label : List Byte) : (labelledGeometry label).Valid :=
  ⟨smallGeometry_valid.clusterSize, smallGeometry_valid.clusterSize_lt,
    smallGeometry_valid.numClusters, smallGeometry_valid.numClusters_lt,
    smallGeometry_valid.numReservedSectors, smallGeometry_valid.total_lt,
    smallGeometry_valid.fits⟩

/-- `SYSTEM_DISK` -/
def longLabel : List Byte := [0x53, 0x59, 0x53, 0x54, 0x45, 0x4D, 0x5F, 0x44, 0x49, 0x53, 0x4B]

theorem label_written_long : LabelWritten
    (fat32CreatePartition (blankDrive smallGeometry 0) (labelledGeometry longLabel)) longLabel :=
  (label_written_iff (labelledGeometry_valid longLabel) _).mpr ⟨by decide, by decide⟩

/-- `DISK` -/
def shortLabel : List Byte := [0x44, 0x49, 0x53, 0x4B]

theorem label_broken_short : ¬ LabelWritten
    (fat32CreatePartition (blankDrive smallGeometry 0) (labelledGeometry shortLabel)) shortLabel :=
  fun h => absurd (h.long (labelledGeometry_valid shortLabel) _).1 (by decide)

end DevOs.Fat32
