import DevOs.Fat32.Write

/-!
# A new partition

`Fat32CreatePartition` writes the boot sectors, the FSInfo sectors, both FATs and the root
directory. The volume it leaves has the label as its only entry.
-/

namespace DevOs.Fat32

open Bytes Chains

variable {g : Geometry} {s : State}

theorem clearFat_partition (n i : ℕ) (s : State) : (clearFat n i s).partition = s.partition := by
  induction n generalizing i s with
  | zero => rfl
  | succ n ih => exact ih (i + 1) _

theorem clearFat_disk {n i p q : ℕ} (hl : Layout s.partition)
    (hi : i + n ≤ s.partition.boot.sectorsPerFat) (hp : s.partition.primaryFat = p)
    (hq : s.partition.secondaryFat = q) (a : ℕ) :
    (clearFat n i s).disk a =
      if (512 * (p + i) ≤ a ∧ a < 512 * (p + i + n)) ∨
      (512 * (q + i) ≤ a ∧ a < 512 * (q + i + n)) then 0
      else s.disk a := by
  induction n generalizing i s with
  | zero => rw [clearFat, if_neg (by omega)]
  | succ n ih =>
    rw [clearFat, ih (s := s.writeFat (fun _ => 0) i) hl
      (show i + 1 + n ≤ s.partition.boot.sectorsPerFat by omega) hp hq,
      writeFat_disk hl (by omega), hp,
      hq]
    split_ifs <;> first | rfl | omega

theorem fatOnly_clearFat {n i : ℕ} (hl : Layout s.partition)
    (hi : i + n ≤ s.partition.boot.sectorsPerFat) : FatOnly s (clearFat n i s) := by
  induction n generalizing i s with
  | zero => exact fatOnly_refl s
  | succ n ih =>
    have hw := fatOnly_writeFat hl (show i < s.partition.boot.sectorsPerFat by omega) (fun _ => 0)
    exact hw.trans (ih (hw.layout hl) (show i + 1 + n ≤ s.partition.boot.sectorsPerFat by omega))

def writeReserved (s : State) (g : Geometry) : State :=
  let s := { s with partition := g.partition }
  let second := { g.boot with
    fsInfoLba := (g.numReservedSectors + 4) % 2 ^ 16, bootSectorCopyLba := 0 }
  let s := s.write g.boot.bytes g.baseLba 1 .boot
  let s := s.write second.bytes (u32 (g.baseLba + g.boot.bootSectorCopyLba)) 1 .boot
  let s := s.write s.partition.fsInfo.bytes (u32 (g.baseLba + g.boot.fsInfoLba)) 2 .fsInfo
  s.write s.partition.fsInfo.bytes (u32 (g.baseLba + second.fsInfoLba)) 2 .fsInfo

def writeFats (s : State) (g : Geometry) : State :=
  clearFat (g.sectorsPerFat - 1) 1 ((writeReserved s g).writeFat newFatSector 0)

theorem fat32CreatePartition_eq (s : State) (g : Geometry) : fat32CreatePartition s g =
    (writeFats s g).write (labelEntry g.volumeLabel)
      (u32 (g.baseLba + g.reservedAreaSize + g.sectorsPerFat * fatCount)) g.clusterSize .cluster :=
  rfl

theorem writeReserved_partition (s : State) (g : Geometry) :
    (writeReserved s g).partition = g.partition := rfl

theorem writeFats_partition (s : State) (g : Geometry) : (writeFats s g).partition = g.partition :=
  clearFat_partition ..

theorem fat32CreatePartition_partition (s : State) (g : Geometry) :
    (fat32CreatePartition s g).partition = g.partition := by
  rw [fat32CreatePartition_eq, State.write_partition, writeFats_partition]

theorem Geometry.sectorsPerFat_pos (g : Geometry) : 0 < g.sectorsPerFat := by
  have := g.entries_le_fatEntries
  rw [Geometry.fatEntries] at this
  omega

section Valid

variable (hg : g.Valid)

include hg

theorem Geometry.Valid.partition_layout : Layout g.partition := hg.layout rfl rfl

theorem Geometry.Valid.labelSector_eq :
    u32 (g.baseLba + g.reservedAreaSize + g.sectorsPerFat * fatCount) = g.dataStart := by
  have hfits := hg.fits
  have hmul : 1 ≤ g.numClusters * g.clusterSize := Nat.mul_pos hg.numClusters hg.clusterSize
  rw [hg.reserved_eq, fatCount, u32, Nat.mod_eq_of_lt (by omega), Geometry.dataStart,
    Geometry.fatStart]
  omega

theorem newFats_disk {s : State} (hp : s.partition = g.partition) (a : ℕ) :
    (clearFat (g.sectorsPerFat - 1) 1 (s.writeFat newFatSector 0)).disk a =
    if 512 * g.fatStart ≤ a ∧ a < 512 * (g.fatStart + g.sectorsPerFat) then
      (if a < 512 * g.fatStart + 512 then newFatSector (a - 512 * g.fatStart) else 0)
    else if 512 * (g.fatStart + g.sectorsPerFat) ≤ a ∧ a < 512 * g.dataStart then
      (if a < 512 * (g.fatStart + g.sectorsPerFat) + 512 then
        newFatSector (a - 512 * (g.fatStart + g.sectorsPerFat)) else 0)
    else s.disk a := by
  have hl : Layout s.partition := by
    rw [hp]
    exact hg.partition_layout
  have hspf : s.partition.boot.sectorsPerFat = g.sectorsPerFat := by rw [hp]; rfl
  have hpos := g.sectorsPerFat_pos
  have hpf : s.partition.primaryFat = g.fatStart := hg.primaryFat_eq (by rw [hp]; rfl)
  have hsf : s.partition.secondaryFat = g.fatStart + g.sectorsPerFat := by
    rw [hl.secondaryFat_eq, hpf, hspf]
  have hle : 1 + (g.sectorsPerFat - 1) ≤
      (s.writeFat newFatSector 0).partition.boot.sectorsPerFat := by
    change _ ≤ s.partition.boot.sectorsPerFat
    omega
  rw [clearFat_disk (s := s.writeFat newFatSector 0) hl hle hpf hsf,
    writeFat_disk hl (by rw [hspf]; exact hpos), hsf, hpf, Nat.add_zero, Nat.add_zero,
    Geometry.dataStart]
  split_ifs <;> first | omega | rfl

theorem writeFats_disk (s : State) (a : ℕ) : (writeFats s g).disk a =
    if 512 * g.fatStart ≤ a ∧ a < 512 * (g.fatStart + g.sectorsPerFat) then
      (if a < 512 * g.fatStart + 512 then newFatSector (a - 512 * g.fatStart) else 0)
    else if 512 * (g.fatStart + g.sectorsPerFat) ≤ a ∧ a < 512 * g.dataStart then
      (if a < 512 * (g.fatStart + g.sectorsPerFat) + 512 then
        newFatSector (a - 512 * (g.fatStart + g.sectorsPerFat)) else 0)
    else (writeReserved s g).disk a :=
  newFats_disk hg (writeReserved_partition s g) a

theorem fat32CreatePartition_disk (s : State) {a : ℕ} (ha : a < 512 * g.dataStart) :
    (fat32CreatePartition s g).disk a = (writeFats s g).disk a := by
  rw [fat32CreatePartition_eq, hg.labelSector_eq, State.write_disk, copy, if_neg (by omega)]

theorem fat_fat32CreatePartition (s : State) {c : ℕ} (hc : c < g.fatEntries) :
    (fat32CreatePartition s g).fat c =
      if c = 0 then 0xFFFFFFF8 else if c = 1 then 0xFFFFFFFF else if c = 2 then endOfChain
        else 0 := by
  have hpf : (fat32CreatePartition s g).partition.primaryFat = g.fatStart := hg.primaryFat_eq (by
    rw [fat32CreatePartition_partition]
    rfl)
  rw [Geometry.fatEntries] at hc
  have hstart : g.dataStart = g.fatStart + 2 * g.sectorsPerFat := rfl
  have hdisk (i : ℕ) (hi : i < 4) : (fat32CreatePartition s g).disk (512 * g.fatStart + 4 * c + i) =
      if c < 128 then newFatSector (4 * c + i) else 0 := by
    rw [fat32CreatePartition_disk hg s (by omega), writeFats_disk hg, if_pos (by omega)]
    split_ifs
    · exact congrArg newFatSector (by omega)
    · omega
    · omega
    · rfl
  rw [State.fat, hpf]
  by_cases hsec : c < 128
  · rw [getLE_congr (c := newFatSector) (p := 4 * c) (fun i hi => by rw [hdisk i hi, if_pos hsec])]
    rw [newFatSector]
    split_ifs with h0 h1 h2
    · subst h0
      rw [getLE_setLE_of_disjoint _ (by decide), getLE_setLE_of_disjoint _ (by decide),
        getLE_setLE_self, Nat.mod_eq_of_lt (by omega)]
    · subst h1
      rw [getLE_setLE_of_disjoint _ (by decide), getLE_setLE_self, Nat.mod_eq_of_lt (by omega)]
    · subst h2
      rw [getLE_setLE_self, Nat.mod_eq_of_lt]
      rw [endOfChain]
      omega
    · rw [getLE_setLE_of_disjoint _ (by omega), getLE_setLE_of_disjoint _ (by omega),
        getLE_setLE_of_disjoint _ (by omega), getLE_zero]
  · rw [getLE_congr (c := fun _ => 0) (p := 0) (fun i hi => by rw [hdisk i hi, if_neg hsec]),
      getLE_zero, if_neg (by omega), if_neg (by omega), if_neg (by omega)]

theorem mirror_fat32CreatePartition (s : State) : Mirror (fat32CreatePartition s g) := by
  have hb : (fat32CreatePartition s g).partition.boot = g.boot := by
    rw [fat32CreatePartition_partition]
    rfl
  have hl : Layout (fat32CreatePartition s g).partition := by
    rw [fat32CreatePartition_partition]
    exact hg.partition_layout
  have hpf := hg.primaryFat_eq hb
  have hsf := hl.secondaryFat_eq
  intro j hj
  rw [hpf, hb] at hsf
  rw [hb] at hj
  change _ = g.fatStart + g.sectorsPerFat at hsf
  change j < 512 * g.sectorsPerFat at hj
  have hstart : g.dataStart = g.fatStart + 2 * g.sectorsPerFat := rfl
  have hprimary : (writeFats s g).disk (512 * g.fatStart + j) =
      if j < 512 then newFatSector j else 0 := by
    rw [writeFats_disk hg, if_pos (by omega), Nat.add_sub_cancel_left]
    split_ifs <;> first | omega | rfl
  have hsecondary : (writeFats s g).disk (512 * (g.fatStart + g.sectorsPerFat) + j) =
      if j < 512 then newFatSector j else 0 := by
    rw [writeFats_disk hg, if_neg (by omega), if_pos (by omega), Nat.add_sub_cancel_left]
    split_ifs <;> first | omega | rfl
  rw [hsf, hpf, fat32CreatePartition_disk hg s (by omega),
    fat32CreatePartition_disk hg s (by omega), hprimary, hsecondary]

theorem fsInfoOnDisk_fat32CreatePartition (s : State) :
    FsInfoOnDisk (fat32CreatePartition s g) := by
  have hfits := hg.fits
  have hres := hg.numReservedSectors
  have hmul : 1 ≤ g.numClusters * g.clusterSize := Nat.mul_pos hg.numClusters hg.clusterSize
  have hstart : g.dataStart = g.fatStart + 2 * g.sectorsPerFat := rfl
  have hfat : g.fatStart = g.baseLba + g.numReservedSectors + 16 := rfl
  have hlba := hg.fsInfoLba_eq
  have h1 : u32 (g.baseLba + (g.numReservedSectors + 1)) = g.baseLba + (g.numReservedSectors + 1) :=
    Nat.mod_eq_of_lt (by omega)
  have h2 : u32 (g.baseLba + (g.numReservedSectors + 4) % 2 ^ 16) =
      g.baseLba + (g.numReservedSectors + 4) := by
    rw [Nat.mod_eq_of_lt (show g.numReservedSectors + 4 < 2 ^ 16 by omega)]
    exact Nat.mod_eq_of_lt (by omega)
  intro j hj
  rw [fat32CreatePartition_partition]
  change (fat32CreatePartition s g).disk (512 * (g.baseLba + g.boot.fsInfoLba) + j) =
    g.partition.fsInfo.bytes j
  rw [hlba, fat32CreatePartition_disk hg s (by omega), writeFats_disk hg, if_neg (by omega),
    if_neg (by omega), writeReserved]
  simp only [State.write_disk, State.write_partition, hlba, h1, h2]
  rw [copy, if_neg (by omega), copy, if_pos (by omega)]
  exact congrArg g.partition.fsInfo.bytes (by omega)

end Valid

def State.vol (s : State) : Vol := ⟨s.fat, s.data, s.partition.fsInfo.freeClusters, s.entryName⟩

@[simp] theorem State.vol_fat (s : State) : s.vol.fat = s.fat := rfl

@[simp] theorem State.vol_data (s : State) : s.vol.data = s.data := rfl

@[simp] theorem State.vol_free (s : State) : s.vol.free = s.partition.fsInfo.freeClusters := rfl

def rootOwners (sized : Prop) : Owners :=
  ⟨(· = rootDirStart), fun _ => [], (· = rootDirStart), sized⟩

theorem State.view {s : State} (hb : s.partition.boot = g.boot)
    (hs : s.partition.secondaryFsInfo = g.numReservedSectors + 4) (hc : CacheValid s) :
    View g s s s.vol :=
  ⟨hb, hs, rfl, rfl, fun _ _ => rfl, fun _ _ => rfl, hc, id, id, [], by simp, by simp⟩

theorem view_fat32CreatePartition (hg : g.Valid) (s : State) :
    View g (fat32CreatePartition s g) (fat32CreatePartition s g) (fat32CreatePartition s g).vol :=
  by
  have hp := fat32CreatePartition_partition s g
  have hb : (fat32CreatePartition s g).partition.boot = g.boot := by rw [hp]; rfl
  apply State.view hb (by rw [hp]; rfl)
  intro x _ hx
  rw [hg.primaryFat_eq hb, hp, Geometry.fatStart] at hx
  change 0 = _ at hx
  omega

section NewVolume

variable (hg : g.Valid) (s : State)

include hg

theorem counted_fat32CreatePartition : Counted g (fat32CreatePartition s g).vol := by
  have hle := g.entries_le_fatEntries
  have hN := hg.numClusters
  have hzero (c : ℕ) (hc : c < g.numClusters + 2) :
      (fat32CreatePartition s g).vol.fat c = 0 ↔ 3 ≤ c := by
    rw [State.vol_fat, fat_fat32CreatePartition hg s (by omega)]
    split_ifs with h0 h1 h2
    · exact ⟨fun h => absurd h (by decide), fun h => by omega⟩
    · exact ⟨fun h => absurd h (by decide), fun h => by omega⟩
    · exact ⟨fun h => absurd h (by decide), fun h => by omega⟩
    · exact ⟨fun _ => by omega, fun _ => rfl⟩
  refine ⟨?_, ?_, ?_, ?_⟩
  · rw [ne_eq, hzero 0 (by omega)]
    decide
  · rw [ne_eq, hzero 1 (by omega)]
    decide
  · have hperm : (zeros (fat32CreatePartition s g).vol.fat (g.numClusters + 2)).Perm
        (List.range' 3 (g.numClusters - 1)) := by
      rw [List.perm_ext_iff_of_nodup (zeros_nodup _ _) List.nodup_range']
      intro c
      rw [mem_zeros, List.mem_range'_1]
      constructor
      · rintro ⟨hc, h0⟩
        have := (hzero c hc).mp h0
        omega
      · intro hc
        exact ⟨by omega, (hzero c (by omega)).mpr (by omega)⟩
    rw [hperm.length_eq, List.length_range']
    rw [State.vol_free, fat32CreatePartition_partition]
    change sub32 g.numClusters 1 = g.numClusters - 1
    have hlt := hg.numClusters_lt
    rw [endOfChain] at hlt
    rw [sub32]
    omega
  · intro c d hcd hd hc
    have := (hzero c (by omega)).mp hc
    exact (hzero d hd).mpr (by omega)

theorem rootDir_fat32CreatePartition : (fat32CreatePartition s g).vol.data rootDirStart =
    window (labelEntry g.volumeLabel) 0 g.clusterBytes := by
  have hp := fat32CreatePartition_partition s g
  have hN := hg.numClusters
  have hin : g.InData rootDirStart := by
    rw [rootDirStart]
    exact ⟨Nat.le_refl _, by omega⟩
  have hb : (fat32CreatePartition s g).partition.boot = g.boot := by rw [hp]; rfl
  rw [State.vol_data, State.data, hg.clusterSector_eq hb hin, hb, rootDirStart, Nat.sub_self,
    Nat.mul_zero, Nat.add_zero, fat32CreatePartition_eq, hg.labelSector_eq, State.read,
    State.write_disk]
  exact window_copy_self ..

end NewVolume

theorem slotKind_labelEntry (label : List Byte) :
    slotKind (labelEntry label) = .info ∨ slotKind (labelEntry label) = .free := by
  have hlfn : isLfn (labelEntry label) = false := by
    rw [isLfn, labelEntry]
    split_ifs <;> first | rfl | omega
  rw [slotKind, hlfn, if_neg (show ¬ (false = true) by decide)]
  split_ifs
  · exact Or.inr rfl
  · exact Or.inl rfl

theorem labelEntry_of_le {label : List Byte} {i : ℕ} (h : 19 ≤ i) : labelEntry label i = 0 := by
  rw [labelEntry, if_neg (by omega), if_neg (by omega), if_neg (by omega)]

theorem firstCluster_labelEntry (label : List Byte) : firstCluster (labelEntry label) = 0 := by
  have hzero (o : ℕ) (ho : 19 ≤ o) : getLE (labelEntry label) o 2 = 0 := by
    rw [← getLE_zero o 2]
    exact getLE_congr (fun i _ => labelEntry_of_le (by omega))
  rw [firstCluster, hzero 26 (by decide), hzero 20 (by decide), Nat.mul_zero]

theorem fileSize_labelEntry (label : List Byte) : fileSize (labelEntry label) = 0 := by
  rw [fileSize, ← getLE_zero 28 4]
  exact getLE_congr (fun i _ => labelEntry_of_le (by omega))

theorem slot_labelEntry (label : List Byte) (i : ℕ) :
    slot (labelEntry label) i = if i = 0 then window (labelEntry label) 0 32
      else slot (fun _ => 0) i := by
  split_ifs with h
  · rw [h]
    rfl
  · rw [slot, slot]
    apply window_congr
    intro j _
    exact labelEntry_of_le (by omega)

theorem consistent_fat32CreatePartition (hg : g.Valid) (s : State) (sized : Prop) :
    Consistent g (fat32CreatePartition s g).vol (rootOwners sized) := by
  have hcount := counted_fat32CreatePartition hg s
  have hroot := rootDir_fat32CreatePartition hg s
  have hN := hg.numClusters
  have hdir (c : ℕ) (hc : (rootOwners sized).InDir c) : c = rootDirStart := by
    obtain ⟨h, hh, -, hm⟩ := hc
    rw [List.mem_singleton.mp hm]
    exact hh
  have hslot (i : ℕ) (hi : i < g.slots) :
      slot ((fat32CreatePartition s g).vol.data rootDirStart) i =
      slot (labelEntry g.volumeLabel) i := by
    rw [hroot, g.clusterBytes_eq, slot_window hi]
  have hentry (c i : ℕ) (hi : InfoAt g (fat32CreatePartition s g).vol (rootOwners sized) c i) :
      c = rootDirStart ∧ i = 0 ∧ slot ((fat32CreatePartition s g).vol.data c) i =
        window (labelEntry g.volumeLabel) 0 32 := by
    have hc := hdir c hi.inDir
    have hinfo := hi.info
    subst hc
    rw [hslot i hi.lt, slot_labelEntry] at hinfo ⊢
    split_ifs at hinfo ⊢ with h0
    · exact ⟨rfl, h0, rfl⟩
    · rw [slotKind_eq_free.mpr rfl] at hinfo
      cases hinfo
  refine ⟨hcount, rfl, rfl, ?_, ?_, ?_, ?_, ?_⟩
  · intro h hh
    cases hh
    refine ⟨?_, ?_⟩
    · change (fat32CreatePartition s g).vol.fat rootDirStart = endOfChain
      have hle := g.entries_le_fatEntries
      rw [State.vol_fat, fat_fat32CreatePartition hg s (by rw [rootDirStart]; omega)]
      rfl
    · intro b hb
      rw [List.mem_singleton.mp hb, rootDirStart]
      exact ⟨Nat.le_refl _, by omega⟩
  · intro h k c hh hk _ _
    exact hh.trans hk.symm
  · intro c hc
    rw [hdir c hc]
    have hpos := hg.slots_pos
    have hfill := (slotsOk_of_free (n := g.slots) (b := fun _ => 0)
      (fun i _ => slotKind_eq_free.mpr rfl)).fill hpos (slotKind_eq_free.mpr rfl)
      (slotKind_labelEntry g.volumeLabel)
    apply hfill.congr
    intro i hi
    rw [hslot i hi, slot_labelEntry]
    split_ifs with h0
    · rw [h0, slot_setSlot_self]
    · rw [slot_setSlot_of_ne h0]
  · intro c i hi
    obtain ⟨-, -, hs⟩ := hentry c i hi
    rw [hs, EntryOk, firstCluster_window, firstCluster_labelEntry, fileSize_window,
      fileSize_labelEntry]
    exact Or.inl ⟨rfl, fun _ => rfl⟩
  · intro c i d j hi hj _ _
    obtain ⟨rfl, rfl, -⟩ := hentry c i hi
    obtain ⟨rfl, rfl, -⟩ := hentry d j hj
    exact ⟨rfl, rfl⟩

end DevOs.Fat32
