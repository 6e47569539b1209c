import DevOs.Lib.Bytes
import Mathlib.Logic.Function.Basic

/-!
# The FAT32 driver: volume and cluster chains

The drive is a function from byte addresses to bytes, and the sector `n` is the 512 bytes at address
`512 * n`. Reads and writes always succeed and a read returns what was written last. `Partition`
keeps the geometry of the volume, the free count and the cached FAT sector; the other buffers of
`FAT32_PARTITION` are filled by every function before it uses them and are local here. Arithmetic on
sector and cluster numbers is that of `UINT32`.

A loop along a chain may not end when the chain has a cycle. Every such loop has fuel for all
cluster numbers, and a loop that needs more than that returns `none`.
-/

namespace DevOs.Fat32

open Bytes

/-- `FAT32_ENDOF_CHAIN` -/
def endOfChain : ℕ := 0x0FFFFFFF

/-- The value of a `UINT32` expression. -/
def u32 (n : ℕ) : ℕ := n % 2 ^ 32

/-- The difference of two `UINT32` values. -/
def sub32 (a b : ℕ) : ℕ := (a + (2 ^ 32 - b % 2 ^ 32)) % 2 ^ 32

/-- `FAT_STATUS` -/
inductive FatStatus where
  | success
  | noEnoughSpace
  | readError
  | writeError
  | notFound
  | invalidParameter
  | badCluster
  | continued
  | ended
deriving DecidableEq, Repr

/-- `FAT32_BOOTSECTOR`, with the bytes it was copied from. `FatCount` is always two and
`RootDirStart` too. -/
structure BootSector where
  template : Buffer
  clusterSize : ℕ
  reservedAreaSize : ℕ
  hiddenSectors : ℕ
  totalSectors : ℕ
  sectorsPerFat : ℕ
  fsInfoLba : ℕ
  bootSectorCopyLba : ℕ
  volumeLabel : Buffer

def fatCount : ℕ := 2

def rootDirStart : ℕ := 2

/-- The fields of `FAT32_FILE_SYSTEM_INFORMATION` that change. -/
structure FsInfo where
  freeClusters : ℕ
  recentlyAllocatedCluster : ℕ
deriving DecidableEq, Repr

/-- The two sectors of `FAT32_FILE_SYSTEM_INFORMATION`. -/
def FsInfo.bytes (f : FsInfo) : Buffer :=
  let b := setLE (setLE (fun _ => 0) 0 4 0x41615252) 484 4 0x61417272
  let b := setLE (setLE b 488 4 f.freeClusters) 492 4 f.recentlyAllocatedCluster
  setLE (setLE b 510 2 0xAA55) 1022 2 0xAA55

/-- `FAT32_PARTITION` -/
structure Partition where
  boot : BootSector
  fsInfo : FsInfo
  secondaryFsInfo : ℕ
  fatSectorNumber : ℕ
  fatSector : Buffer

/-- What a write is made from. -/
inductive WriteKind where
  | boot
  | fsInfo
  | fat
  | cluster
  | reservedArea
deriving DecidableEq, Repr

/-- A call of `StartupInfo.Write`. -/
structure Write where
  sector : ℕ
  numSectors : ℕ
  kind : WriteKind
deriving DecidableEq, Repr

/-- The drive, the partition, the static `EntryName` of `create.c` and the writes so far. -/
structure State where
  disk : Buffer
  partition : Partition
  entryName : ℕ → BitVec 16
  writes : List Write

namespace Partition

variable (p : Partition)

def primaryFat : ℕ := u32 (p.boot.hiddenSectors + p.boot.reservedAreaSize)

def secondaryFat : ℕ := u32 (p.primaryFat + p.boot.sectorsPerFat)

def clusterSector (cluster : ℕ) : ℕ :=
  u32 (p.boot.hiddenSectors + p.boot.reservedAreaSize + p.boot.sectorsPerFat * fatCount +
    p.boot.clusterSize * sub32 cluster 2)

def clusterBytes : ℕ := p.boot.clusterSize * 512

def entriesPerCluster : ℕ := p.clusterBytes / 32

/-- `(TotalSectors - SectorsPerFat * FatCount - ReservedAreaSize) / ClusterSize` -/
def dataClusters : ℕ :=
  sub32 (sub32 p.boot.totalSectors (p.boot.sectorsPerFat * fatCount)) p.boot.reservedAreaSize /
    p.boot.clusterSize

end Partition

namespace State

variable (s : State)

/-- `StartupInfo.Read` into a buffer. -/
def read (sector numSectors : ℕ) : Buffer := window s.disk (512 * sector) (512 * numSectors)

/-- `StartupInfo.Write` -/
def write (buffer : Buffer) (sector numSectors : ℕ) (kind : WriteKind) : State :=
  { s with
    disk := copy s.disk (512 * sector) buffer 0 (512 * numSectors)
    writes := s.writes ++ [⟨sector, numSectors, kind⟩] }

def writeFat (buffer : Buffer) (x : ℕ) : State :=
  (s.write buffer (u32 (s.partition.primaryFat + x)) 1 .fat).write buffer
    (u32 (s.partition.secondaryFat + x)) 1 .fat

def fatEntry (cluster : ℕ) : State × ℕ :=
  let sector := u32 (s.partition.boot.hiddenSectors + s.partition.boot.reservedAreaSize +
    cluster / 128)
  let s' := if s.partition.fatSectorNumber ≠ sector then
      { s with partition := { s.partition with
        fatSector := s.read sector 1
        fatSectorNumber := sector } }
    else s
  (s', getLE s'.partition.fatSector (4 * (cluster % 128)) 4)

end State

/-- The local variables of `Fat32AllocateClusterChain`: the general and the secondary purpose
sector, and the variables of the scan. -/
structure Allocation where
  generalPurpose : Buffer
  secondaryPurpose : Buffer
  chainStart : ℕ
  allocatedClusters : ℕ
  lastCluster : ℕ
  lastClusterIndexInSector : ℕ
  lastFatSector : ℕ
  pendingAllocation : ℕ
  pendingWrite : Bool

/-- A zero entry `i` of the FAT sector `x`: it is linked to the entry found before it, in the sector
of that entry. -/
def linkEntry (x i : ℕ) (s : State) (a : Allocation) : State × Allocation :=
  if a.lastCluster ≠ 0 then
    if a.pendingAllocation = 2 then
      let sp := setLE a.secondaryPurpose (4 * a.lastClusterIndexInSector) 4 (u32 (128 * x + i))
      (s.writeFat sp a.lastFatSector, { a with secondaryPurpose := sp })
    else
      (s, { a with
        generalPurpose :=
          setLE a.generalPurpose (4 * a.lastClusterIndexInSector) 4 (u32 (128 * x + i)) })
  else (s, { a with chainStart := u32 (128 * x + i) })

/-- The entry `i` of the FAT sector `x`. -/
def scanEntry (numClusters x i : ℕ) (s : State) (a : Allocation) :
    (State × Allocation) ⊕ (State × Allocation) :=
  if getLE a.generalPurpose (4 * i) 4 = 0 then
    let (s, a) := linkEntry x i s a
    let a := { a with
      pendingWrite := true
      lastCluster := u32 (128 * x + i)
      lastClusterIndexInSector := i
      lastFatSector := x
      pendingAllocation := 1
      allocatedClusters := a.allocatedClusters + 1 }
    if a.allocatedClusters = numClusters then
      let a := { a with generalPurpose := setLE a.generalPurpose (4 * i) 4 endOfChain }
      let s := { s with partition := { s.partition with
        fsInfo := { s.partition.fsInfo with recentlyAllocatedCluster := a.lastCluster } } }
      .inl (s.writeFat a.generalPurpose x, a)
    else .inr (s, a)
  else .inr (s, a)

/-- The next `n` entries of the FAT sector `x`, from the entry `i` on. -/
def scanSector (numClusters x : ℕ) :
    ℕ → ℕ → State → Allocation → (State × Allocation) ⊕ (State × Allocation)
  | 0, _, s, a => .inr (s, a)
  | n + 1, i, s, a =>
    match scanEntry numClusters x i s a with
    | .inl r => .inl r
    | .inr (s, a) => scanSector numClusters x n (i + 1) s a

/-- The end of a FAT sector: the last entry found stays open until the next one is found. -/
def endSector (x : ℕ) (s : State) (a : Allocation) : State × Allocation :=
  let a := if a.pendingAllocation = 1 then
      { a with pendingAllocation := 2, secondaryPurpose := a.generalPurpose }
    else a
  if a.pendingWrite then (s.writeFat a.generalPurpose x, { a with pendingWrite := false })
  else (s, a)

/-- The next `n` FAT sectors, from the sector `x` on. -/
def scanFat (numClusters : ℕ) : ℕ → ℕ → State → Allocation → State × Allocation
  | 0, _, s, a => (s, a)
  | n + 1, x, s, a =>
    let a := { a with generalPurpose := s.read (u32 (s.partition.primaryFat + x)) 1 }
    match scanSector numClusters x 128 0 s a with
    | .inl r => r
    | .inr (s, a) =>
      let (s, a) := endSector x s a
      scanFat numClusters n (x + 1) s a

/-- The walk to the last entry of the old chain, which is then linked to the new one. The general
purpose sector holds the FAT sector `lastFatSector`. -/
def relink (chainStart : ℕ) : ℕ → ℕ → ℕ → Buffer → State → Option State
  | 0, _, _, _, _ => none
  | n + 1, cluster, lastFatSector, gp, s =>
    let fatSector := cluster / 128
    let gp := if fatSector ≠ lastFatSector then s.read (u32 (s.partition.primaryFat + fatSector)) 1
      else gp
    let entry := getLE gp (4 * (cluster % 128)) 4
    if entry = endOfChain then
      some (s.writeFat (setLE gp (4 * (cluster % 128)) 4 chainStart) fatSector)
    else relink chainStart n entry fatSector gp s

def walkFuel : ℕ := 2 ^ 32 + 1

/-- The end of `Fat32AllocateClusterChain`: the count is written to both FSInfo sectors, the second
one without the base of the partition, and the cached FAT sector is dropped. -/
def finishAllocation (s : State) (numClusters : ℕ) : State :=
  let f := { s.partition.fsInfo with
    freeClusters := sub32 s.partition.fsInfo.freeClusters numClusters }
  let s := { s with partition := { s.partition with fsInfo := f } }
  let s := s.write f.bytes (u32 (s.partition.boot.hiddenSectors + s.partition.boot.fsInfoLba)) 1
    .fsInfo
  let s := s.write f.bytes s.partition.secondaryFsInfo 1 .fsInfo
  { s with partition := { s.partition with fatSectorNumber := 0 } }

/-- `Fat32AllocateClusterChain`. It returns the first of the new clusters, or zero. -/
def fat32AllocateClusterChain (s : State) (clusterStart numClusters : ℕ) : Option (State × ℕ) :=
  if numClusters = 0 then some (s, 0)
  else if clusterStart ≠ 0 ∧ clusterStart < 2 then some (s, 0)
  else if s.partition.dataClusters < clusterStart then some (s, 0)
  else if s.partition.fsInfo.freeClusters < numClusters then some (s, 0)
  else
    let (s, a) := scanFat numClusters s.partition.boot.sectorsPerFat 0 s
      ⟨fun _ => 0, fun _ => 0, 0, 0, 0, 0, 0, 0, false⟩
    let linked := if clusterStart ≠ 0 then
        relink a.chainStart walkFuel clusterStart a.lastFatSector a.generalPurpose s
      else some s
    linked.map (fun s => (finishAllocation s numClusters, a.chainStart))

/-- `Fat32GetLastCluster`, from the FAT sector `lastFatSector` in the general purpose sector. -/
def getLastCluster (s : State) : ℕ → ℕ → ℕ → Buffer → Option ℕ
  | 0, _, _, _ => none
  | n + 1, cluster, lastFatSector, gp =>
    let fatSector := cluster / 128
    let gp := if fatSector ≠ lastFatSector then s.read (u32 (s.partition.primaryFat + fatSector)) 1
      else gp
    let entry := getLE gp (4 * (cluster % 128)) 4
    if entry = endOfChain then some cluster else getLastCluster s n entry fatSector gp

def fat32GetLastCluster (s : State) (clusterChainStart : ℕ) : Option ℕ :=
  getLastCluster s walkFuel clusterChainStart 0xFFFFFFFF (fun _ => 0)

/-- What `Fat32ReadCluster` leaves behind: the variables it was given by reference, and the
buffer. -/
structure ReadResult where
  status : FatStatus
  state : State
  cluster : ℕ
  ended : Bool
  buffer : Buffer

/-- `Fat32ReadCluster`. `ended` says whether `LastCode` is `FAT_END`. -/
def fat32ReadCluster (s : State) (cluster : ℕ) (ended : Bool) (buffer : Buffer) : ReadResult :=
  if ended then ⟨.ended, s, cluster, ended, buffer⟩
  else if cluster < 2 then ⟨.invalidParameter, s, cluster, ended, buffer⟩
  else
    let (s, clusterData) := s.fatEntry cluster
    ⟨.success, s, if clusterData = endOfChain then cluster else clusterData,
      decide (clusterData = endOfChain),
      s.read (s.partition.clusterSector cluster) s.partition.boot.clusterSize⟩

def fat32WriteCluster (s : State) (cluster : ℕ) (buffer : Buffer) : State :=
  if cluster < 2 then s
  else s.write buffer (s.partition.clusterSector cluster) s.partition.boot.clusterSize .cluster

def fat32GetNextCluster (s : State) (lastCluster : ℕ) : State × ℕ :=
  if lastCluster = endOfChain then (s, 0) else s.fatEntry lastCluster

/-- `while(Fat32ReadCluster(..) == FAT_SUCCESS)`. The body sees the cluster just read and its bytes,
and ends the loop with a result or goes on. -/
def readChain {σ ρ : Type} (body : ℕ → Buffer → σ → ρ ⊕ σ) :
    ℕ → State → ℕ → Bool → σ → Option (State × (ρ ⊕ σ))
  | 0, _, _, _, _ => none
  | n + 1, s, cluster, ended, acc =>
    let r := fat32ReadCluster s cluster ended (fun _ => 0)
    if r.status = .success then
      match body cluster r.buffer acc with
      | .inl x => some (r.state, .inl x)
      | .inr acc => readChain body n r.state r.cluster r.ended acc
    else some (r.state, .inr acc)

end DevOs.Fat32
