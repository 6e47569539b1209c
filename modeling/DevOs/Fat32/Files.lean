import DevOs.Fat32.Directory

/-!
# The FAT32 driver: files and partitions

The exported functions of the driver. Their calls after `Fat32CreatePartition` are the steps of the
system: `Call.run` is the state after a call and what it returns, or nothing when a loop of the call
does not end.
-/

namespace DevOs.Fat32

open Bytes

/-- `L'\\'` and `L'/'` -/
def isSeparator (c : WChar) : Bool := c == 0x5C || c == 0x2F

/-- `Fat32ParsePath`: the next entry and the rest of the path. The entry is the last one when the
rest is empty. -/
def fat32ParsePath (path : Name) : Option (Name × Name) :=
  let path := (path.takeWhile (· ≠ 0)).dropWhile isSeparator
  if path = [] then none
  else some (path.takeWhile (fun c => !isSeparator c),
    (path.dropWhile (fun c => !isSeparator c)).dropWhile isSeparator)

/-- The entries that the loops `while((Status = Fat32ParsePath(..)) != 0)` see. -/
def pathEntries : ℕ → Name → List Name
  | 0, _ => []
  | n + 1, path =>
    match fat32ParsePath path with
    | none => []
    | some (name, rest) => name :: (if rest = [] then [] else pathEntries n rest)

def entriesOf (path : Name) : List Name := pathEntries path.length path

/-- `FAT_FILE_INFORMATION` -/
structure FileInformation where
  clusterStart : ℕ
  fileName : Name
  fatAttributes : Byte
  parentDirectoryCluster : ℕ
  fileSize : ℕ
deriving DecidableEq, Repr

/-- `Fat32GetFileInformation` from the directory `cluster` on. -/
def getFileInformation : List Name → State → ℕ → Option (State × Option FileInformation)
  | [], s, _ => some (s, none)
  | name :: names, s, cluster =>
    match fat32FindEntry s name cluster with
    | none => none
    | some (s, none) => some (s, none)
    | some (s, some e) =>
      if names = [] then some (s, some ⟨firstCluster e, name, e 11, cluster, fileSize e⟩)
      else getFileInformation names s (firstCluster e)

def fat32GetFileInformation (s : State) (path : Name) : Option (State × Option FileInformation) :=
  getFileInformation (entriesOf path) s rootDirStart

/-- `FILE_EDIT_PARAMETERS` -/
structure FileEdit where
  attributes : Bool
  cluster : Bool
  fileSize : Bool
deriving DecidableEq, Repr

def FileEdit.apply (edit : FileEdit) (newAttributes : Byte) (clusterFileSize : ℕ) (e : Buffer) :
    Buffer :=
  let e := if edit.attributes then setLE e 11 1 newAttributes.toNat else e
  let e := if edit.cluster then
      setLE (setLE e 26 2 clusterFileSize) 20 2 (clusterFileSize / 2 ^ 16)
    else e
  if edit.fileSize then setLE e 28 4 clusterFileSize else e

/-- `Fat32EditFile` from the directory `cluster` on. -/
def editFile (edit : FileEdit) (newAttributes : Byte) (clusterFileSize : ℕ) :
    List Name → State → ℕ → Option (State × Bool)
  | [], s, _ => some (s, false)
  | name :: names, s, cluster =>
    match readChain (searchCluster s.partition name (fun cluster b x => (cluster, x, b))) walkFuel s
        cluster false () with
    | none => none
    | some (s, .inr ()) => some (s, false)
    | some (s, .inl (lastCluster, x, b)) =>
      if names = [] then
        some (fat32WriteCluster s lastCluster
          (setSlot b x (edit.apply newAttributes clusterFileSize (slot b x))), true)
      else if firstCluster (slot b x) = 0 then some (s, false)
      else editFile edit newAttributes clusterFileSize names s (firstCluster (slot b x))

def fat32EditFile (s : State) (path : Name) (edit : FileEdit) (newAttributes : Byte)
    (clusterFileSize : ℕ) : Option (State × Bool) :=
  if ¬ edit.attributes ∧ ¬ edit.cluster ∧ ¬ edit.fileSize then some (s, false)
  else editFile edit newAttributes clusterFileSize (entriesOf path) s rootDirStart

/-- `FILE_EDIT_CLUSTER` -/
def editCluster : FileEdit := ⟨false, true, false⟩

/-- `FILE_EDIT_FILE_SIZE` -/
def editFileSize : FileEdit := ⟨false, false, true⟩

/-- The entry is copied to `EntryName`. -/
def State.setEntryName (s : State) (name : Name) : State :=
  { s with entryName := fun i =>
      if i < name.length then name.getD i 0 else if i = name.length then 0 else s.entryName i }

def resultPath (names : List Name) : Name := names.flatMap (fun name => 0x2F :: name)

/-- `Fat32CreateFile` from the directory `cluster` on. `parents` are the entries before it. -/
def createFile (attributes : Byte) : List Name → List Name → State → ℕ → Option (State × FatStatus)
  | _, [], s, _ => some (s, .notFound)
  | parents, name :: names, s, cluster =>
    let s := s.setEntryName name
    if names = [] then fat32AllocateEntry s cluster name attributes
    else
      match fat32FindEntry s name cluster with
      | none => none
      | some (s, none) => some (s, .notFound)
      | some (s, some e) =>
        if ¬ isDirectory e then some (s, .notFound)
        else if firstCluster e ≠ 0 then
          createFile attributes (parents ++ [name]) names s (firstCluster e)
        else
          match fat32AllocateClusterChain s 0 1 with
          | none => none
          | some (s, cluster) =>
            if cluster = 0 then some (s, .noEnoughSpace)
            else
              let s := fat32WriteCluster s cluster (fun _ => 0)
              match fat32EditFile s (resultPath (parents ++ [name])) editCluster 0 cluster with
              | none => none
              | some (s, false) => some (s, .writeError)
              | some (s, true) => createFile attributes (parents ++ [name]) names s cluster

def fat32CreateFile (s : State) (path : Name) (attributes : Byte) : Option (State × FatStatus) :=
  createFile attributes [] (entriesOf path) s rootDirStart

/-- `n / d`, rounded up. -/
def ceilDiv (n d : ℕ) : ℕ := n / d + (if n % d ≠ 0 then 1 else 0)

/-- The variables of the loop that writes the new clusters. The buffer is at the offset `done`. -/
structure Appending where
  cluster : ℕ
  blankSize : ℕ
  remaining : ℕ
  done : ℕ
  readCluster : Buffer

/-- What the turn of the loop writes to the cluster, and the variables after it. -/
def appendCluster (clusterSize position : ℕ) (buffer : Buffer) (a : Appending) :
    Buffer × Appending :=
  if a.blankSize ≠ 0 then
    if a.blankSize < clusterSize then
      let bufferPosition := position % clusterSize
      let copySize := min (clusterSize - bufferPosition) a.remaining
      let rc := copy a.readCluster bufferPosition buffer a.done copySize
      (rc, { a with
        readCluster := rc, remaining := a.remaining - copySize, done := a.done + copySize,
        blankSize := 0 })
    else (a.readCluster, { a with blankSize := a.blankSize - clusterSize })
  else if a.remaining < clusterSize then
    let rc := clear (copy a.readCluster 0 buffer a.done a.remaining) a.remaining
      (clusterSize - a.remaining)
    (rc, { a with readCluster := rc, done := a.done + a.remaining, remaining := 0 })
  else (window buffer a.done clusterSize, { a with
    done := a.done + clusterSize, remaining := a.remaining - clusterSize })

/-- `while((NextCluster = Fat32GetNextCluster(..)))` over the new clusters. -/
def appendLoop (clusterSize position : ℕ) (buffer : Buffer) :
    ℕ → State → ℕ → Appending → Option State
  | 0, _, _, _ => none
  | n + 1, s, nextCluster, a =>
    let (s, nextCluster) := fat32GetNextCluster s nextCluster
    if nextCluster = 0 then some s
    else
      let (data, a') := appendCluster clusterSize position buffer a
      let s := fat32WriteCluster s a.cluster data
      if a'.remaining = 0 then some s
      else appendLoop clusterSize position buffer n s nextCluster { a' with cluster := nextCluster }

/-- The variables of the loop that changes the clusters of the file. -/
structure Overwriting where
  cluster : ℕ
  tmpPos : ℕ
  remaining : ℕ
  done : ℕ
  readCluster : Buffer

/-- The bytes from `tmpPos` on replaced, over what the cluster holds. -/
def overwriteCluster (s : State) (clusterSize : ℕ) (buffer : Buffer) (a : Overwriting) :
    State × Overwriting :=
  if a.tmpPos = 0 ∧ clusterSize ≤ a.remaining then
    (fat32WriteCluster s a.cluster (window buffer a.done clusterSize), { a with
      done := a.done + clusterSize, remaining := a.remaining - clusterSize })
  else if a.tmpPos < clusterSize then
    let copySize := min (clusterSize - a.tmpPos) a.remaining
    let r := fat32ReadCluster s a.cluster false a.readCluster
    let rc := copy r.buffer a.tmpPos buffer a.done copySize
    (fat32WriteCluster r.state a.cluster rc, { a with
      readCluster := rc, done := a.done + copySize, remaining :=
        a.remaining - copySize, tmpPos := 0 })
  else (s, { a with tmpPos := a.tmpPos - clusterSize })

/-- `while((NextCluster = Fat32GetNextCluster(..)))` over the clusters of the file. -/
def overwriteLoop (clusterSize : ℕ) (buffer : Buffer) :
    ℕ → State → ℕ → Overwriting → Option State
  | 0, _, _, _ => none
  | n + 1, s, nextCluster, a =>
    let (s, nextCluster) := fat32GetNextCluster s nextCluster
    if nextCluster = 0 then some s
    else
      let (s, a) := overwriteCluster s clusterSize buffer a
      if a.remaining = 0 then some s
      else overwriteLoop clusterSize buffer n s nextCluster { a with cluster := nextCluster }

/-- `Fat32WriteFile` at or behind the end of the file. -/
def appendFile (s : State) (path : Name) (info : FileInformation) (buffer : Buffer)
    (position numBytes : ℕ) : Option (State × FatStatus) :=
  let clusterSize := s.partition.clusterBytes
  let requiredClusters := ceilDiv (sub32 (u32 (position + numBytes)) info.fileSize) clusterSize
  match fat32AllocateClusterChain s info.clusterStart requiredClusters with
  | none => none
  | some (s, nextCluster) =>
    if nextCluster = 0 then some (s, .noEnoughSpace)
    else
      let edited := if info.clusterStart = 0 then
          (fat32EditFile s path editCluster 0 nextCluster).map Prod.fst
        else some s
      match edited with
      | none => none
      | some s =>
        match fat32EditFile s path editFileSize 0 (u32 (position + numBytes)) with
        | none => none
        | some (s, _) =>
          (appendLoop clusterSize position buffer walkFuel s nextCluster
            ⟨nextCluster, position - info.fileSize, numBytes, 0, fun _ => 0⟩).map
            (fun s => (s, .success))

/-- `Fat32WriteFile` before the end of the file. It returns one. -/
def overwriteFile (s : State) (path : Name) (info : FileInformation) (buffer : Buffer)
    (position numBytes : ℕ) : Option (State × FatStatus) :=
  let clusterSize := s.partition.clusterBytes
  let size := u32 (position + numBytes)
  let grown := if info.fileSize < size then
      match fat32AllocateClusterChain s info.clusterStart
          (ceilDiv (size - info.fileSize) clusterSize) with
      | none => none
      | some (s, newClusters) =>
        if newClusters = 0 then some (s, false)
        else (fat32EditFile s path editFileSize 0 size).map (fun r => (r.1, true))
    else some (s, true)
  match grown with
  | none => none
  | some (s, false) => some (s, .noEnoughSpace)
  | some (s, true) =>
    (overwriteLoop clusterSize buffer walkFuel s info.clusterStart
      ⟨info.clusterStart, position, numBytes, 0, fun _ => 0⟩).map (fun s => (s, .noEnoughSpace))

def fat32WriteFile (s : State) (path : Name) (buffer : Buffer) (position numBytes : ℕ) :
    Option (State × FatStatus) :=
  if numBytes = 0 then some (s, .invalidParameter)
  else
    match fat32GetFileInformation s path with
    | none => none
    | some (s, none) => some (s, .notFound)
    | some (s, some info) =>
      if info.fileSize ≤ position then appendFile s path info buffer position numBytes
      else overwriteFile s path info buffer position numBytes

def oemName : List Byte := [0x5F, 0x5F, 0x44, 0x45, 0x56, 0x5F, 0x4F, 0x53]

def fat32FsLabel : List Byte := [0x46, 0x41, 0x54, 0x33, 0x32, 0x20, 0x20, 0x20]

/-- `FAT32_BOOTSECTOR`: the fields over the bytes that the caller gave. -/
def BootSector.bytes (b : BootSector) : Buffer :=
  let e := setLE (setLE (setBytes b.template 3 oemName) 11 2 0x200) 13 1 b.clusterSize
  let e := setLE (setLE (setLE e 14 2 b.reservedAreaSize) 16 1 fatCount) 21 1 0xF8
  let e :=
    setLE (setLE (setLE (setLE e 24 2 63) 26 2 0xFF00) 28 4 b.hiddenSectors) 32 4 b.totalSectors
  let e := setLE (setLE (setLE e 36 4 b.sectorsPerFat) 44 4 rootDirStart) 48 2 b.fsInfoLba
  let e := setLE (setLE (setLE e 50 2 b.bootSectorCopyLba) 64 1 0x80) 66 1 0x29
  setLE (setBytes (copy e 71 b.volumeLabel 0 11) 82 fat32FsLabel) 510 2 0xAA55

/-- The label in the boot sector. `LenVolumeLabel` is a `UINT16`. -/
def volumeLabelField (label : List Byte) : Buffer := fun i =>
  if label.length % 2 ^ 16 ≤ i then 0x20 else label.getD i 0

/-- The label in the root directory. The blanks go to `ShortFileExtension`, also those of the base
name. -/
def labelEntry (label : List Byte) : Buffer := fun i =>
  if 8 + label.length ≤ i ∧ i < 8 + 11 then 0x20
  else if i < 11 ∧ i < label.length then label.getD i 0
  else if i = 11 then 0x08
  else 0

/-- The arguments of `Fat32CreatePartition`. -/
structure Geometry where
  baseLba : ℕ
  numClusters : ℕ
  clusterSize : ℕ
  volumeLabel : List Byte
  numReservedSectors : ℕ
  bootSector : Buffer

namespace Geometry

variable (g : Geometry)

def reservedAreaSize : ℕ := (g.numReservedSectors + 0x10) % 2 ^ 16

def sectorsPerFat : ℕ := ceilDiv (4 * (g.numClusters + 2)) 512

def totalSectors : ℕ :=
  u32 (g.numClusters * g.clusterSize + g.reservedAreaSize + g.sectorsPerFat * fatCount)

def boot : BootSector where
  template := g.bootSector
  clusterSize := g.clusterSize
  reservedAreaSize := g.reservedAreaSize
  hiddenSectors := g.baseLba
  totalSectors := g.totalSectors
  sectorsPerFat := g.sectorsPerFat
  fsInfoLba := (g.numReservedSectors + 1) % 2 ^ 16
  bootSectorCopyLba := (g.numReservedSectors + 3) % 2 ^ 16
  volumeLabel := volumeLabelField g.volumeLabel

/-- `FAT32_PARTITION` of the new partition. -/
def partition : Partition where
  boot := g.boot
  fsInfo := ⟨sub32 g.numClusters 1, 0⟩
  secondaryFsInfo := g.numReservedSectors + 4
  fatSectorNumber := 0
  fatSector := fun _ => 0

end Geometry

/-- The first sector of a new FAT: the reserved clusters and the root directory. -/
def newFatSector : Buffer :=
  setLE (setLE (setLE (fun _ => 0) 0 4 0xFFFFFFF8) 4 4 0xFFFFFFFF) 8 4 endOfChain

/-- Clears `n` further sectors of both FATs from the sector `i` on. -/
def clearFat : ℕ → ℕ → State → State
  | 0, _, s => s
  | n + 1, i, s => clearFat n (i + 1) (s.writeFat (fun _ => 0) i)

def fat32CreatePartition (s : State) (g : Geometry) : State :=
  let s := { s with partition := g.partition }
  let second := { g.boot with
    fsInfoLba := (g.numReservedSectors + 4) % 2 ^ 16, bootSectorCopyLba := 0 }
  let s := s.write g.boot.bytes g.baseLba 1 .boot
  let s := s.write second.bytes (u32 (g.baseLba + g.boot.bootSectorCopyLba)) 1 .boot
  let s := s.write s.partition.fsInfo.bytes (u32 (g.baseLba + g.boot.fsInfoLba)) 2 .fsInfo
  let s := s.write s.partition.fsInfo.bytes (u32 (g.baseLba + second.fsInfoLba)) 2 .fsInfo
  let s := s.writeFat newFatSector 0
  let s := clearFat (g.sectorsPerFat - 1) 1 s
  s.write (labelEntry g.volumeLabel)
    (u32 (g.baseLba + g.reservedAreaSize + g.sectorsPerFat * fatCount)) g.clusterSize .cluster

def fat32WriteReservedArea (s : State) (sector numSectors : ℕ) (buffer : Buffer) : State × Bool :=
  if s.partition.boot.reservedAreaSize < sector + numSectors + 3 then (s, false)
  else (s.write buffer (u32 (s.partition.boot.hiddenSectors + sector + 1)) numSectors .reservedArea,
    true)

/-- The calls on a partition. -/
inductive Call where
  | createFile (path : Name) (attributes : Byte)
  | writeFile (path : Name) (buffer : Buffer) (position numBytes : ℕ)
  | editFile (path : Name) (edit : FileEdit) (newAttributes : Byte) (clusterFileSize : ℕ)
  | writeReservedArea (sector numSectors : ℕ) (buffer : Buffer)

def Call.run (s : State) : Call → Option State
  | .createFile path attributes => (fat32CreateFile s path attributes).map Prod.fst
  | .writeFile path buffer position numBytes =>
    (fat32WriteFile s path buffer position numBytes).map Prod.fst
  | .editFile path edit newAttributes clusterFileSize =>
    (fat32EditFile s path edit newAttributes clusterFileSize).map Prod.fst
  | .writeReservedArea sector numSectors buffer =>
    some (fat32WriteReservedArea s sector numSectors buffer).1

end DevOs.Fat32
