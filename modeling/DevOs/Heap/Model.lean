import DevOs.Lib.Bitmaps
import DevOs.Lib.Ranges
import DevOs.Lib.Runs

/-!
# The heap of a process

`AllocatePoolEx` serves a request from the free segments of the process, or from new pages whose
remainder becomes a free segment. The free segments stand in a tree of three levels: the root, trees
below it, and lists of segments below these, each with 128 slots in two words of 64 bits. Every slot
of a tree caches the largest free segment below it.

Trees and lists are named by the addresses of their pages, which come zero-filled and in increasing
order; the root has the address `0`. `Next` of the root is never set, since `CreateHeap` hangs
before it would.
-/

namespace DevOs.Heap

open Bitmaps Ranges

/-- What ends a call without a return: an index outside an array of 128 entries, a null pointer, the
endless loop after the text `NEW_TREE`, and the screen of death. -/
inductive Fault
  | outside
  | null
  | newTree
  | sod
deriving DecidableEq, Repr

/-- `MEMTREE_MAX_SLOTS` -/
def maxSlots : ℕ := 128

/-- `MEMTREE_NUM_SLOT_GROUPS` -/
def numSlotGroups : ℕ := 2

/-- `FREE_MEMORY_SEGMENT`, without the initial length that is not used. -/
structure Segment where
  address : ℕ
  heapLength : ℕ
  initialHeap : Bool
deriving DecidableEq, Repr

def Segment.zero : Segment := ⟨0, 0, false⟩

def Segment.range (s : Segment) : Range := ⟨s.address, s.heapLength⟩

/-- `FREE_MEMORY_SEGMENT_LIST_HEAD` -/
structure SegmentListHead where
  numUsedSlots : ℕ
  parentItemIndex : ℕ
  parent : Option ℕ
  usedSlots : Bitmap 64
  memorySegments : ℕ → Segment

def SegmentListHead.zero : SegmentListHead := ⟨0, 0, none, fun _ => 0, fun _ => Segment.zero⟩

/-- `MEMORY_TREE_ITEM`. A segment is named by its list and its index there. -/
structure MemoryTreeItem where
  child : Option ℕ
  lockMutex : Bool
  largestHeap : Option (ℕ × ℕ)
  listHeadLargestHeap : Option ℕ
  indexLargestHeap : ℕ
deriving DecidableEq, Repr

def MemoryTreeItem.zero : MemoryTreeItem := ⟨none, false, none, none, 0⟩

/-- `FREE_MEMORY_TREE` -/
structure FreeMemoryTree where
  fullSlotCount : ℕ
  parentItemIndex : ℕ
  parent : Option ℕ
  present : Bitmap 64
  fullSlots : Bitmap 64
  presentSlotCount : ℕ
  childs : ℕ → MemoryTreeItem
  root : Bool

def FreeMemoryTree.zero : FreeMemoryTree :=
  ⟨0, 0, none, fun _ => 0, fun _ => 0, 0, fun _ => MemoryTreeItem.zero, false⟩

def FreeMemoryTree.setChild (t : FreeMemoryTree) (i : ℕ) (item : MemoryTreeItem) : FreeMemoryTree :=
  { t with childs := Function.update t.childs i item }

/-- The pages of the tree, and the address of the next page. A node of the tree is taken to fit its
page: the source gives the 5520 bytes of `FREE_MEMORY_TREE` one page of 4096 bytes. -/
structure HeapMemory where
  trees : ℕ → FreeMemoryTree
  listHeads : ℕ → SegmentListHead
  brk : ℕ

def HeapMemory.initial : HeapMemory :=
  ⟨fun t => if t = 0 then { FreeMemoryTree.zero with root := true } else FreeMemoryTree.zero,
    fun _ => SegmentListHead.zero, 1⟩

def HeapMemory.setTree (m : HeapMemory) (t : ℕ) (tree : FreeMemoryTree) : HeapMemory :=
  { m with trees := Function.update m.trees t tree }

def HeapMemory.setListHead (m : HeapMemory) (l : ℕ) (head : SegmentListHead) : HeapMemory :=
  { m with listHeads := Function.update m.listHeads l head }

def HeapMemory.setItem (m : HeapMemory) (t i : ℕ) (item : MemoryTreeItem) : HeapMemory :=
  m.setTree t ((m.trees t).setChild i item)

def HeapMemory.segment (m : HeapMemory) (h : ℕ × ℕ) : Segment :=
  (m.listHeads h.1).memorySegments h.2

def HeapMemory.setSegment (m : HeapMemory) (h : ℕ × ℕ) (s : Segment) : HeapMemory :=
  m.setListHead h.1 { m.listHeads h.1 with
    memorySegments := Function.update (m.listHeads h.1).memorySegments h.2 s }

def deref (p : Option ℕ) : Except Fault ℕ :=
  match p with
  | some a => .ok a
  | none => .error .null

def inside (i : ℕ) : Except Fault Unit := if i < maxSlots then .ok () else .error .outside

/-- The set bits of a bitmap as the source visits them when it counts 64 slots for a group. -/
def slots (b : Bitmap 64) : List ℕ := places numSlotGroups 64 b

/-- The set bits of a bitmap as the source visits them when it counts 128 slots for a group. -/
def wideSlots (b : Bitmap 64) : List ℕ := places numSlotGroups 128 b

/-- `_bittestandreset64` at the word `chain`, where a position from 64 on reaches the next word.
Also the former value of the bit. -/
def resetSlot (b : Bitmap 64) (chain position : ℕ) : Except Fault (Bool × Bitmap 64) :=
  let i := 64 * chain + position
  if i < 64 * numSlotGroups then .ok (bit b i, Bitmaps.clear b i) else .error .outside

/-- The outcome of the scans of `SetLargestHeap`. -/
structure Largest where
  heap : Option (ℕ × ℕ)
  listHead : Option ℕ
  heapLength : ℕ
  indx : ℕ

def scanSegments (m : HeapMemory) (l : ℕ) : Largest → List ℕ → Except Fault Largest
  | c, [] => .ok c
  | c, i :: is => do
    inside i
    if c.heapLength < (m.segment (l, i)).heapLength then
      scanSegments m l { c with
        heap := some (l, i), heapLength := (m.segment (l, i)).heapLength, indx := i % 256 } is
    else scanSegments m l c is

def scanChilds (m : HeapMemory) (p : ℕ) : Largest → List ℕ → Except Fault Largest
  | c, [] => .ok c
  | c, i :: is => do
    inside i
    match ((m.trees p).childs i).largestHeap with
    | some h =>
      if c.heapLength < (m.segment h).heapLength then
        scanChilds m p ⟨some h, ((m.trees p).childs i).listHeadLargestHeap,
          (m.segment h).heapLength, i % 256⟩ is
      else scanChilds m p c is
    | none => scanChilds m p c is

/-- `SetLargestHeap`. `Indx` starts with whatever is on the stack. -/
def setLargestHeap (m : HeapMemory) (segmentList : Option ℕ) (stack : ℕ) :
    Except Fault HeapMemory := do
  let l ← deref segmentList
  let index := (m.listHeads l).parentItemIndex
  let found ← scanSegments m l ⟨none, none, 0, stack⟩ (wideSlots (m.listHeads l).usedSlots)
  let p ← deref (m.listHeads l).parent
  inside index
  let m := m.setItem p index { (m.trees p).childs index with
    largestHeap := found.heap, indexLargestHeap := found.indx }
  let found ← scanChilds m p { found with listHead := some l } (wideSlots (m.trees p).present)
  let q ← deref (m.trees p).parent
  let index := (m.trees p).parentItemIndex
  inside index
  return m.setItem q index { (m.trees q).childs index with
    indexLargestHeap := found.indx, largestHeap := found.heap, listHeadLargestHeap :=
  found.listHead }

/-- The part of `AllocatePoolEx` that frees the slot of a segment used up, and the marks of full
slots. -/
def freeSlot (m : HeapMemory) (item : MemoryTreeItem) : Except Fault HeapMemory := do
  let l ← deref item.listHeadLargestHeap
  let head := m.listHeads l
  let (_, used) ← resetSlot head.usedSlots (item.indexLargestHeap / 128)
    (item.indexLargestHeap % 128)
  let m :=
  m.setListHead l { head with usedSlots := used, numUsedSlots := (head.numUsedSlots + 255) % 256 }
  let t ← deref head.parent
  let tree := m.trees t
  let (wasFull, full) ← resetSlot tree.fullSlots (head.parentItemIndex / 128)
    (head.parentItemIndex % 128)
  let m := m.setTree t { tree with fullSlots := full }
  if wasFull then
    let m := m.setTree t { m.trees t with fullSlotCount := (tree.fullSlotCount + 255) % 256 }
    let q ← deref tree.parent
    let (wasFull, full) ← resetSlot (m.trees q).fullSlots (tree.parentItemIndex / 128)
      (tree.parentItemIndex % 128)
    let m := m.setTree q { m.trees q with fullSlots := full }
    if wasFull then
      return m.setTree q { m.trees q with fullSlotCount := ((m.trees q).fullSlotCount + 255) % 256 }
    else return m
  else return m

/-- The search of `AllocatePoolEx` for a slot of the root whose largest free segment is long
enough. -/
def findHeap (m : HeapMemory) (numBytes : ℕ) : List ℕ → Except Fault (Option ℕ)
  | [] => .ok none
  | i :: is => do
    inside i
    match ((m.trees 0).childs i).largestHeap with
    | some h => if numBytes ≤ (m.segment h).heapLength then .ok (some i) else findHeap m numBytes is
    | none => findHeap m numBytes is

/-- The part of `AllocatePoolEx` that takes the front of the segment found. -/
def takeFront (m : HeapMemory) (index numBytes stack : ℕ) : Except Fault (HeapMemory × ℕ) := do
  let item := (m.trees 0).childs index
  match item.largestHeap with
  | none => .error .null
  | some h =>
    let heap := m.segment h
    let rest := { heap with
      address := (heap.address + numBytes) % 2 ^ 64, heapLength := heap.heapLength - numBytes }
    let m := m.setSegment h rest
    let m ← if rest.heapLength = 0 ∧ rest.initialHeap = false then freeSlot m item else .ok m
    let m ← setLargestHeap m item.listHeadLargestHeap stack
    return (m, heap.address)

/-- `MmAllocateSlot`, over the clear bits of `Present`. The new page is a tree or a list of
segments: its two fields that are not zero have the same place in both. -/
def mmAllocateSlot (m : HeapMemory) (t : ℕ) : List ℕ → HeapMemory × Option ℕ
  | [] => (m, none)
  | i :: is =>
    let tree := m.trees t
    if tree.root && (tree.childs i).lockMutex then mmAllocateSlot m t is
    else
      let item := { tree.childs i with
        child := some m.brk, lockMutex := tree.root || (tree.childs i).lockMutex }
      let tree := { tree.setChild i item with
        present := Bitmaps.set tree.present i, presentSlotCount :=
          (tree.presentSlotCount + 1) % 256 }
      ({ m with
        trees := Function.update (Function.update m.trees t tree) m.brk
          { FreeMemoryTree.zero with parentItemIndex := i, parent := some t }
        listHeads := Function.update m.listHeads m.brk
          { SegmentListHead.zero with parentItemIndex := i, parent := some t }
        brk := m.brk + 1 }, some i)

/-- The first byte of the page of a slot: a count of full slots below the root, a count of used
slots below that. -/
def firstByte (m : HeapMemory) (root : Bool) (child : ℕ) : ℕ :=
  if root then (m.trees child).fullSlotCount else (m.listHeads child).numUsedSlots

def setLock (m : HeapMemory) (t i : ℕ) (lock : Bool) : HeapMemory :=
  m.setItem t i { (m.trees t).childs i with lockMutex := lock }

/-- The scan of `FindNextAvailableChild`. -/
def findChild (m : HeapMemory) (t : ℕ) : List ℕ → Except Fault (HeapMemory × Option ℕ)
  | [] => .ok (m, none)
  | i :: is => do
    let tree := m.trees t
    if tree.root && (tree.childs i).lockMutex then findChild m t is
    else
      let m := if tree.root then setLock m t i true else m
      let child ← deref (tree.childs i).child
      if firstByte m tree.root child = maxSlots then
        findChild (if tree.root then setLock m t i false else m) t is
      else return (m, some i)

def findNextAvailableChild (m : HeapMemory) (t : ℕ) : Except Fault (HeapMemory × Option ℕ) := do
  let tree := m.trees t
  let allocate (m : HeapMemory) := mmAllocateSlot m t (slots fun x => ~~~(m.trees t).present x)
  if tree.presentSlotCount = tree.fullSlotCount then return allocate m
  else
    match ← findChild m t (slots fun x => ~~~tree.fullSlots x &&& tree.present x) with
    | (m, some i) => return (m, some i)
    | (m, none) => return allocate m

/-- The marks of full slots that `CreateHeap` sets. The mark in the root is set at the index in the
tree below. -/
def trackFull (m : HeapMemory) (lvl1 idx1 numUsedSlots : ℕ) : HeapMemory :=
  if numUsedSlots = maxSlots then
    let tree := m.trees lvl1
    let m := m.setTree lvl1 { tree with
      fullSlotCount := (tree.fullSlotCount + 1) % 256, fullSlots :=
        Bitmaps.set tree.fullSlots idx1 }
    if (m.trees lvl1).fullSlotCount = maxSlots then
      m.setTree 0 { m.trees 0 with
        fullSlotCount := ((m.trees 0).fullSlotCount + 1) % 256
        fullSlots := Bitmaps.set (m.trees 0).fullSlots idx1 }
    else m
  else m

def smaller (m : HeapMemory) (cached : Option (ℕ × ℕ)) (heapLength : ℕ) : Bool :=
  match cached with
  | some h => (m.segment h).heapLength < heapLength
  | none => true

/-- The caches of `CreateHeap`. -/
def cacheHeap (m : HeapMemory) (idx lvl1 idx1 l idxlh heapLength : ℕ) : HeapMemory :=
  if smaller m ((m.trees lvl1).childs idx1).largestHeap heapLength then
    let m := m.setItem lvl1 idx1 { (m.trees lvl1).childs idx1 with largestHeap := some (l, idxlh) }
    if smaller m ((m.trees 0).childs idx).largestHeap heapLength then
      m.setItem 0 idx { (m.trees 0).childs idx with
        largestHeap := some (l, idxlh), indexLargestHeap := idxlh % 256, listHeadLargestHeap :=
          some l }
    else m
  else m

/-- The part of `CreateHeap` that takes a slot of the list found for the new segment. -/
def placeHeap (m : HeapMemory) (idx lvl1 idx1 l address heapLength : ℕ) : Except Fault HeapMemory :=
  match slots fun x => ~~~(m.listHeads l).usedSlots x with
  | [] => .error .sod
  | idxlh :: _ =>
    let head := m.listHeads l
    let numUsedSlots := (head.numUsedSlots + 1) % 256
    let m := m.setListHead l { head with
      usedSlots := Bitmaps.set head.usedSlots idxlh, numUsedSlots := numUsedSlots }
    let m := trackFull m lvl1 idx1 numUsedSlots
    let m := setLock m 0 idx false
    let m := m.setSegment (l, idxlh) { m.segment (l, idxlh) with
      address := address, heapLength := heapLength }
    .ok (cacheHeap m idx lvl1 idx1 l idxlh heapLength)

def createHeap (m : HeapMemory) (address heapLength : ℕ) : Except Fault HeapMemory := do
  if (m.trees 0).fullSlotCount = maxSlots then .error .newTree
  else
    match ← findNextAvailableChild m 0 with
    | (_, none) => .error .newTree
    | (m, some idx) =>
      let lvl1 ← deref ((m.trees 0).childs idx).child
      match ← findNextAvailableChild m lvl1 with
      | (_, none) => .error .sod
      | (m, some idx1) =>
        let l ← deref ((m.trees lvl1).childs idx1).child
        placeHeap m idx lvl1 idx1 l address heapLength

def alignValue (value align : ℕ) : ℕ :=
  if value % align ≠ 0 then (value + align) % 2 ^ 64 / align * align else value

/-- A call of `AllocatePoolEx`: the size, and what the functions it calls and the stack hold for it.
`address` is the result of `VirtualFindAvailableMemory` and `granted` that of
`KeAllocateFragmentedPages`. -/
structure Request where
  numBytes : ℕ
  address : ℕ
  granted : Bool
  stack : ℕ
deriving DecidableEq, Repr

/-- The size that `AllocatePoolEx` works with. -/
def Request.size (r : Request) : ℕ := alignValue r.numBytes 16

def Request.numPages (r : Request) : ℕ := alignValue r.size 0x1000 / 2 ^ 12

/-- The search of `AllocatePoolEx` for a free segment. -/
def HeapMemory.find (m : HeapMemory) (r : Request) : Except Fault (Option ℕ) :=
  findHeap m r.size (wideSlots (m.trees 0).present)

def allocatePoolEx (m : HeapMemory) (r : Request) : Except Fault (HeapMemory × Option ℕ) := do
  if r.numBytes = 0 then return (m, none)
  else
    match ← m.find r with
    | some index =>
      let (m, address) ← takeFront m index r.size r.stack
      return (m, some address)
    | none =>
      if r.granted = false then return (m, none)
      else if r.size % 0x1000 ≠ 0 then
        let m ← createHeap m ((r.address + r.size) % 2 ^ 64)
          ((r.numPages * 2 ^ 12 % 2 ^ 64 + (2 ^ 64 - r.size)) % 2 ^ 64)
        return (m, some r.address)
      else return (m, some r.address)

def HeapMemory.served (m : HeapMemory) (r : Request) : Bool :=
  match m.find r with
  | .ok (some _) => true
  | _ => false

def HeapMemory.takesPages (m : HeapMemory) (r : Request) : Bool := !m.served r && r.granted

def HeapMemory.lists (m : HeapMemory) : List ℕ :=
  (slots (m.trees 0).present).flatMap fun i =>
    match ((m.trees 0).childs i).child with
    | none => []
    | some t => (slots (m.trees t).present).filterMap fun j => ((m.trees t).childs j).child

def HeapMemory.free (m : HeapMemory) : List Range :=
  m.lists.flatMap fun l => (slots (m.listHeads l).usedSlots).map fun i => (m.segment (l, i)).range

/-- A process that allocates, with the ranges of pages it obtained, their number, and the ranges
returned to it. -/
structure Process where
  memory : HeapMemory
  obtained : List Range
  pages : ℕ
  returned : List Range
  fault : Option Fault

def Process.initial : Process := ⟨HeapMemory.initial, [], 0, [], none⟩

def Request.pageRange (r : Request) : Range := ⟨r.address, 4096 * r.numPages⟩

def Request.rounded (r : Request) : ℕ := (r.numBytes + 15) / 16 * 16

def Process.step (s : Process) (r : Request) : Option Process :=
  if s.fault.isSome then none
  else
    match allocatePoolEx s.memory r with
    | .error f => some { s with fault := some f }
    | .ok (m, none) => some { s with memory := m }
    | .ok (m, some a) =>
      some { s with
        memory := m
        obtained := if s.memory.takesPages r then r.pageRange :: s.obtained else s.obtained
        pages := if s.memory.takesPages r then s.pages + r.numPages else s.pages
        returned := ⟨a, r.rounded⟩ :: s.returned }

/-- What the callers and the page allocator promise: a size from 1 on that can be rounded up, and
pages apart from all the earlier ones. -/
structure Supplied (s : Process) (r : Request) : Prop where
  pos : 1 ≤ r.numBytes
  bound : r.numBytes + 15 < 2 ^ 64
  fresh : s.memory.takesPages r = true →
    (∀ o ∈ s.obtained, Apart r.pageRange o) ∧ r.address + 4096 * r.numPages ≤ 2 ^ 64

/-- The returned ranges are apart from each other and from the free segments, no call faulted, and
no byte of the pages is lost. -/
structure Conserved (s : Process) : Prop where
  noFault : s.fault = none
  apart : s.returned.Pairwise Apart
  apartFree : ∀ r ∈ s.returned, ∀ f ∈ s.memory.free, Apart r f
  total : total s.returned + total s.memory.free = 4096 * s.pages

/-- The branches that go wrong are not taken: a free segment is used only while no list has a slot
from 64 on in use, and new pages are taken only for a size that can be rounded up to pages, and with
a remainder only while no list is full. -/
structure Fits (s : Process) (r : Request) : Prop where
  low : s.memory.served r = true → ∀ l ∈ s.memory.lists, (s.memory.listHeads l).usedSlots 1 = 0
  noOverflow : s.memory.takesPages r = true → r.size ≤ 2 ^ 64 - 4096
  room : s.memory.takesPages r = true → r.size % 4096 ≠ 0 →
    ∀ l ∈ s.memory.lists, (s.memory.listHeads l).numUsedSlots ≠ maxSlots

/-- The calls on the tree of a process. -/
inductive Call
  | pool (r : Request)
  | create (address heapLength : ℕ)
deriving DecidableEq, Repr

def HeapMemory.call (m : HeapMemory) : Call → Except Fault HeapMemory
  | .pool r => (allocatePoolEx m r).map Prod.fst
  | .create address heapLength => createHeap m address heapLength

def Call.typed : Call → Bool
  | .pool r => r.numBytes < 2 ^ 64 && r.address < 2 ^ 64
  | .create address heapLength => address < 2 ^ 64 && heapLength < 2 ^ 64

/-- The tree under a sequence of calls, which ends with the first that does not return. -/
structure Session where
  memory : HeapMemory
  fault : Option Fault

def Session.initial : Session := ⟨HeapMemory.initial, none⟩

def Session.step (s : Session) (c : Call) : Option Session :=
  if s.fault.isSome || !c.typed then none
  else
    match s.memory.call c with
    | .error f => some { s with fault := some f }
    | .ok m => some { s with memory := m }

end DevOs.Heap
