import DevOs.Lib.Chained

/-!
# Disks and partitions

Disks and partitions are entries of two chains of lists of `UNITS_PER_LIST` entries, each with a
`Present` flag and an id that is the number of its place. A pointer is `NULL`, the place of an
entry, or the address of a record that lies elsewhere. Devices and drivers are numbers, and pool
memory is always there.
-/

namespace DevOs.Disks

open Chained

abbrev unitsPerList : ℕ := 120

inductive Pointer where
  | null
  | entry (k : ℕ)
  | other (address : ℕ)
deriving DecidableEq, Repr

/-- `DISK_INFO` -/
structure DiskInfo where
  baseAddress : ℕ
  maxAddress : ℕ
  bytesInCluster : ℕ
  sectorsInCluster : ℕ
  fsType : ℕ
  diskName : ℕ
deriving DecidableEq, Repr

def zeroInfo : DiskInfo := ⟨0, 0, 0, 0, 0, 0⟩

/-- `DISK_DEVICE_INSTANCE` -/
structure DiskDevice where
  present : Bool
  diskId : ℕ
  securityDescriptor : ℕ
  device : ℕ
  diskInformation : DiskInfo
deriving DecidableEq, Repr

def zeroDisk : DiskDevice := ⟨false, 0, 0, 0, zeroInfo⟩

/-- `GeneralDiskDeviceList`, the records elsewhere that look like disks, and `ExtensionPointer` of
the devices. -/
structure DiskTable where
  disks : Chain DiskDevice
  others : ℕ → DiskDevice
  extensionPointer : ℕ → Pointer

def freeDisk (d : DiskDevice) : Bool := !d.present

namespace DiskTable

def initial (others : ℕ → DiskDevice) (extensionPointer : ℕ → Pointer) : DiskTable :=
  ⟨.initial zeroDisk, others, extensionPointer⟩

/-- The place `k` holds a disk. -/
def Present (t : DiskTable) (k : ℕ) : Prop :=
  t.disks.InChain unitsPerList k ∧ (t.disks.entry k).present = true

instance (t : DiskTable) (k : ℕ) : Decidable (t.Present k) := inferInstanceAs (Decidable (_ ∧ _))

/-- `CreateDisk`. `valid` is the result of `ValidateDevice`. -/
def createDisk (securityDescriptor : ℕ) (diskInformation : Option DiskInfo) (device : ℕ)
    (valid : Bool) (t : DiskTable) : DiskTable × Pointer :=
  match diskInformation with
  | none => (t, .null)
  | some info =>
    if !valid then (t, .null)
    else
      let (disks, k) := t.disks.place unitsPerList freeDisk zeroDisk
      ({ t with
        disks := disks.set k ⟨true, k, securityDescriptor, device, info⟩
        extensionPointer := Function.update t.extensionPointer device (.entry k) }, .entry k)

def record (t : DiskTable) : Pointer → DiskDevice
  | .null => zeroDisk
  | .entry k => t.disks.entry k
  | .other a => t.others a

/-- `ValidateDisk`. The loop goes on for `Index` lists. -/
def validateDisk (t : DiskTable) (disk : Pointer) : Bool :=
  if disk = .null then false
  else
    let index := (t.record disk).diskId % unitsPerList
    if index < t.disks.lists then decide (Pointer.entry (index * unitsPerList + index) = disk)
      else false

def removeDisk (disk : Pointer) (t : DiskTable) : DiskTable × Bool :=
  if t.validateDisk disk then
    match disk with
    | .null => (t, true)
    | .entry k => ({ t with disks := t.disks.set k zeroDisk }, true)
    | .other a => ({ t with others := Function.update t.others a zeroDisk }, true)
  else (t, false)

end DiskTable

inductive DiskCall where
  | create (securityDescriptor : ℕ) (diskInformation : Option DiskInfo) (device : ℕ) (valid : Bool)
  | remove (disk : Pointer)

def DiskCall.run (t : DiskTable) : DiskCall → Option DiskTable
  | .create sd info device valid => some (t.createDisk sd info device valid).1
  | .remove disk => some (t.removeDisk disk).1

def diskMain : ℕ := 0x20
def diskSystem : ℕ := 0x40

/-- `PARTITION_INSTANCE`. `Interface` is the number of the table it was copied from. -/
structure PartitionInstance where
  present : Bool
  partitionId : ℕ
  partitionName : Option (List ℕ)
  securityDescriptor : ℕ
  disk : Pointer
  partitionInformation : DiskInfo
  fsInfo : ℕ
  interface : Option ℕ
deriving DecidableEq, Repr

def zeroPartition : PartitionInstance := ⟨false, 0, none, 0, .null, zeroInfo, 0, none⟩

/-- `GeneralPartitionList`, the records elsewhere that look like partitions, `MainPartition` and
`SystemPartition`. -/
structure PartitionTable where
  partitions : Chain PartitionInstance
  others : ℕ → PartitionInstance
  mainPartition : Pointer
  systemPartition : Pointer

def freePartition (p : PartitionInstance) : Bool := !p.present

namespace PartitionTable

def initial (others : ℕ → PartitionInstance) : PartitionTable :=
  ⟨.initial zeroPartition, others, .null, .null⟩

/-- The partition at the place `k`. -/
def partition (t : PartitionTable) (k : ℕ) : Option PartitionInstance :=
  t.partitions.used unitsPerList freePartition k

def getPartition (t : PartitionTable) (partitionId : ℕ) : Pointer :=
  let listIndex := partitionId / unitsPerList
  let index := partitionId % unitsPerList
  if listIndex < t.partitions.lists then
    if !(t.partitions.entry (listIndex * unitsPerList + index)).present then .null
    else .entry (listIndex * unitsPerList + index)
  else .null

def record (t : PartitionTable) : Pointer → PartitionInstance
  | .null => zeroPartition
  | .entry k => t.partitions.entry k
  | .other a => t.others a

def setRecord (t : PartitionTable) (x : PartitionInstance) : Pointer → PartitionTable
  | .null => t
  | .entry k => { t with partitions := t.partitions.set k x }
  | .other a => { t with others := Function.update t.others a x }

def validatePartition (t : PartitionTable) (partition : Pointer) : Bool :=
  if partition = .null then false
    else decide (t.getPartition (t.record partition).partitionId = partition)

def setPartitionName (partition : Pointer) (partitionName : Option (List ℕ)) (t : PartitionTable) :
    PartitionTable × Bool :=
  if !t.validatePartition partition then (t, false)
  else
    match partitionName with
    | none => (t.setRecord { t.record partition with partitionName := none } partition, true)
    | some name =>
      if name.length = 0 then (t, false)
      else (t.setRecord { t.record partition with partitionName := some name } partition, true)

def createPartition (partitionName : Option (List ℕ)) (securityDescriptor : ℕ)
    (diskDevice : Pointer) (partitionInformation : Option DiskInfo) (fsInfo : ℕ)
    (managementInterface : Option ℕ) (t : PartitionTable) : PartitionTable × Pointer :=
  match partitionInformation with
  | none => (t, .null)
  | some info =>
    if diskDevice = .null then (t, .null)
    else
      let (partitions, k) := t.partitions.place unitsPerList freePartition zeroPartition
      let t := { t with
        partitions := partitions.set k
          { partitions.entry k with
            present := true
            partitionId := k
            securityDescriptor := securityDescriptor
            partitionInformation := info
            disk := diskDevice
            fsInfo := fsInfo
            interface :=
              match managementInterface with
              | none => (partitions.entry k).interface
              | some i => some i }
        systemPartition :=
          if securityDescriptor &&& diskSystem ≠ 0 then .entry k else t.systemPartition
        mainPartition := if securityDescriptor &&& diskMain ≠ 0 then .entry k else t.mainPartition }
      ((t.setPartitionName (.entry k) partitionName).1, .entry k)

def destroyPartition (partition : Pointer) (t : PartitionTable) : PartitionTable × Bool :=
  if !t.validatePartition partition then (t, false)
  else
    let t := if partition = t.mainPartition then { t with mainPartition := .null } else t
    let t := if partition = t.systemPartition then { t with systemPartition := .null } else t
    (t.setRecord zeroPartition partition, true)

def setMainPartition (partition : Pointer) (t : PartitionTable) : PartitionTable × Bool :=
  if !t.validatePartition partition then (t, false)
    else ({ t with mainPartition := partition }, true)

def setSystemPartition (partition : Pointer) (t : PartitionTable) : PartitionTable × Bool :=
  if !t.validatePartition partition then (t, false)
    else ({ t with systemPartition := partition }, true)

end PartitionTable

inductive PartitionCall where
  | create (partitionName : Option (List ℕ)) (securityDescriptor : ℕ) (diskDevice : Pointer)
      (partitionInformation : Option DiskInfo) (fsInfo : ℕ) (managementInterface : Option ℕ)
  | destroy (partition : Pointer)
  | setMain (partition : Pointer)
  | setSystem (partition : Pointer)

def PartitionCall.run (t : PartitionTable) : PartitionCall → Option PartitionTable
  | .create name sd disk info fsInfo interface =>
    some (t.createPartition name sd disk info fsInfo interface).1
  | .destroy p => some (t.destroyPartition p).1
  | .setMain p => some (t.setMainPartition p).1
  | .setSystem p => some (t.setSystemPartition p).1

end DevOs.Disks
