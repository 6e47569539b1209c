import DevOs.Memory.Model
import Mathlib.Algebra.BigOperators.Group.List.Basic

/-!
# Building the page array

`InitMemoryManagementSubsystem` goes over the memory map of the firmware three times: it adjusts the
conventional regions and counts their pages, takes the storage of the page array and of the bitmap
from the first region that is large enough, and lists what is left. Addresses and counts are 64-bit
numbers.
-/

namespace DevOs.Memory

/-- `MEMORY_DESCRIPTOR` -/
structure MemoryDescriptor where
  type : ℕ
  pageCount : ℕ
  physicalStart : ℕ
deriving DecidableEq, Repr

def efiConventionalMemory : ℕ := 7

def legacyBiosMemoryMapToEfiMapping : List ℕ := [0, 7, 0, 9, 10, 8, 8, 8]

def efiType (uefi : Bool) (type : ℕ) : ℕ :=
  if uefi then type
  else if 7 < type then 0xFF
  else legacyBiosMemoryMapToEfiMapping.getD type 0

/-- The body of the first pass. No count is decremented at zero: a region that starts on the first
page starts at the second one then, which is aligned. -/
def adjustDescriptor (uefi : Bool) (memory : MemoryDescriptor) : MemoryDescriptor :=
  let memory := { memory with type := efiType uefi memory.type }
  if memory.type = efiConventionalMemory ∧ memory.pageCount ≠ 0 then
    let memory :=
      if memory.physicalStart / 2 ^ 12 = 0 then
        { memory with physicalStart := 0x1000, pageCount := memory.pageCount - 1 }
      else memory
    if memory.physicalStart % 2 ^ 12 ≠ 0 then
      { memory with
        physicalStart := (memory.physicalStart + 0x1000) % 2 ^ 64 / 2 ^ 12 * 2 ^ 12
        pageCount := memory.pageCount - 1 }
    else memory
  else memory

def conventional (memoryMap : List MemoryDescriptor) : List MemoryDescriptor :=
  memoryMap.filter (fun memory => decide (memory.type = efiConventionalMemory))

/-- `PageArraySize` after the first pass. -/
def totalPages (memoryMap : List MemoryDescriptor) : ℕ :=
  ((conventional memoryMap).map MemoryDescriptor.pageCount).sum % 2 ^ 64

/-- The pages reserved for the page array, `BitmapOffset >> 12`. -/
def arrayPages (total : ℕ) : ℕ := 8 * total % 2 ^ 64 / 2 ^ 12 + 1

/-- `NumPages`, the pages reserved for the page array and the bitmap. -/
def storagePages (total : ℕ) : ℕ :=
  arrayPages total + ((total + 1) % 2 ^ 64 / 2 ^ 3 / 2 ^ 12 + 10)

def carve (numPages : ℕ) : List MemoryDescriptor → Option (ℕ × List MemoryDescriptor)
  | [] => none
  | memory :: rest =>
    if memory.type = efiConventionalMemory ∧ numPages ≤ memory.pageCount then
      some (memory.physicalStart,
        { memory with
          physicalStart := (memory.physicalStart + numPages * 2 ^ 12) % 2 ^ 64
          pageCount := memory.pageCount - numPages } :: rest)
    else (carve numPages rest).map (fun r => (r.1, memory :: r.2))

def regionPages (memory : MemoryDescriptor) : List ℕ :=
  (List.range memory.pageCount).map (fun i => (memory.physicalStart + 0x1000 * i) % 2 ^ 64)

inductive Stop where
  /-- The screen of `SOD`. -/
  | outOfMemory
  /-- The 32-bit counter of the third pass never reaches the number of pages. -/
  | endless
deriving DecidableEq, Repr

/-- What the function leaves behind: the map, `PageArraySize`, `PhysicalPages`, `AllocatedPages`,
the addresses `PageArray` and `PageBitmap`, and the entries written from `PageArray` on. -/
structure BootMemory where
  memoryMap : List MemoryDescriptor
  pageArraySize : ℕ
  physicalPages : ℕ
  allocatedPages : ℕ
  pageArray : ℕ
  pageBitmap : ℕ
  entries : List ℕ
deriving DecidableEq, Repr

def initMemoryManagementSubsystem (uefi : Bool) (memoryMap : List MemoryDescriptor) :
    Except Stop BootMemory :=
  let memoryMap := memoryMap.map (adjustDescriptor uefi)
  let total := totalPages memoryMap
  match carve (storagePages total) memoryMap with
  | none => .error .outOfMemory
  | some (start, memoryMap) =>
    if start = 0 then .error .outOfMemory
    else if (conventional memoryMap).any (fun memory => decide (2 ^ 32 ≤ memory.pageCount)) then
      .error .endless
    else .ok
      { memoryMap := memoryMap
        pageArraySize := (total + 2 ^ 64 - storagePages total) % 2 ^ 64
        physicalPages := total
        allocatedPages := storagePages total
        pageArray := start
        pageBitmap := (start + arrayPages total * 2 ^ 12) % 2 ^ 64
        entries := (conventional memoryMap).flatMap regionPages }

/-- The table at the end of the function. `behind` is what the memory behind the entries holds, and
`memory` the storage of the bitmap. -/
def BootMemory.table (b : BootMemory) (behind memory : ℕ → BitVec 64) : MemoryManagementTable :=
  initBitmap b.pageArraySize
    (fun k => if h : k < b.entries.length then BitVec.ofNat 64 b.entries[k] else behind k) memory
    b.allocatedPages

end DevOs.Memory
