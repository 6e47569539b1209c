import DevOs.Lib.Words
import Mathlib.Logic.Function.Basic

/-!
# The physical page allocators of the kernel

`MemoryManagementTable` keeps an array of pages and a bitmap with one bit for each of them, both
read and written through pointers. Here they are functions of the entry and of the 64-bit word, also
beyond the sizes the table records, and pointers into them are word and entry offsets. Three
allocators share them: `_SSE_AllocatePhysicalPage`, `AllocateContiguousPages` and
`KeAllocateFragmentedPages`. No operation frees a page.
-/

namespace DevOs.Memory

open Words

/-- `MEMORY_MANAGEMENT_TABLE`. The word `w` of the bitmap is the one at byte `8 * w`, and `bmpEnd`
is a byte offset from `PageBitmap`. -/
structure MemoryManagementTable where
  allocatedPages : ℕ
  pageArraySize : ℕ
  pageArray : ℕ → BitVec 64
  numBytesPageBitmap : ℕ
  pageBitmap : ℕ → BitVec 64
  freePagesStart : ℕ
  freePageArrayStart : ℕ
  bmpEnd : ℕ

namespace MemoryManagementTable

variable (m : MemoryManagementTable)

/-- The bit of the page `k`. -/
def bit (k : ℕ) : Bool := (m.pageBitmap (k / 64)).getLsbD (k % 64)

/-- `PhysicalAddress & ~0xFFF` of the page `k`. -/
def address (k : ℕ) : BitVec 64 := m.pageArray k &&& ~~~0xFFF#64

def max : ℕ := m.numBytesPageBitmap / 8

def setWord (w : ℕ) (b : BitVec 64) : MemoryManagementTable :=
  { m with pageBitmap := Function.update m.pageBitmap w b }

/-- Sets the flag `Allocated` of the page `k`. -/
def setAllocated (k : ℕ) : MemoryManagementTable :=
  { m with pageArray := Function.update m.pageArray k (m.pageArray k ||| 1) }

@[simp]
theorem address_setAllocated (k l : ℕ) : (m.setAllocated k).address l = m.address l := by
  simp only [address, setAllocated, Function.update_apply]
  split_ifs with h
  · subst h
    rw [BitVec.and_or_distrib_right, show (1 : BitVec 64) &&& ~~~0xFFF#64 = 0 by decide]
    exact BitVec.or_zero
  · rfl

@[simp]
theorem bit_setAllocated (k l : ℕ) : (m.setAllocated k).bit l = m.bit l := rfl

@[simp]
theorem address_setWord (w l : ℕ) (b : BitVec 64) : (m.setWord w b).address l = m.address l := rfl

theorem bit_setWord (w l : ℕ) (b : BitVec 64) :
    (m.setWord w b).bit l = if l / 64 = w then b.getLsbD (l % 64) else m.bit l := by
  simp only [bit, setWord, Function.update_apply]
  split_ifs <;> rfl

end MemoryManagementTable

/-- The end of `InitMemoryManagementSubsystem`: the page array is built, `memory` is what the
storage of the bitmap holds before the part that is used is zeroed. -/
def initBitmap (pageArraySize : ℕ) (pageArray memory : ℕ → BitVec 64) (allocatedPages : ℕ) :
    MemoryManagementTable :=
  let numBytes := (pageArraySize + 1) / 2 ^ 12 / 2 ^ 3 * 2 ^ 12 + 0x80
  { allocatedPages := allocatedPages
    pageArraySize := pageArraySize
    pageArray := pageArray
    numBytesPageBitmap := numBytes
    pageBitmap := fun w => if w < numBytes / 8 then 0 else memory w
    freePagesStart := 0
    freePageArrayStart := 0
    bmpEnd := pageArraySize / 2 ^ 3 / 2 ^ 12 }

variable (m : MemoryManagementTable)

/-- `_APP0`: takes the lowest clear bit of the word `rcx`, whose pages start at the entry `r8`. -/
def app0 (rcx r8 : ℕ) : Option (MemoryManagementTable × BitVec 64) :=
  match bitScanForward (~~~m.pageBitmap rcx) with
  | none => none
  | some r10 =>
    let m' := (m.setWord rcx (bitTestAndSet (m.pageBitmap rcx) r10)).setAllocated (r8 + r10)
    some ({ m' with freePagesStart := rcx, freePageArrayStart := r8 }, m'.address (r8 + r10))

/-- `.loop0` and `.loop1`, two words at a time up to `BmpEnd`. Every turn but the last moves `rcx`
by sixteen bytes towards `BmpEnd`, so its value bounds the number of turns. -/
def sseLoop : ℕ → ℕ → ℕ → Option (MemoryManagementTable × BitVec 64)
  | 0, _, _ => none
  | n + 1, rcx, r8 =>
    match app0 m rcx r8 with
    | some r => some r
    | none =>
      match app0 m (rcx + 1) (r8 + 64) with
      | some r => some r
      | none => if m.bmpEnd ≤ 8 * (rcx + 2) then none else sseLoop n (rcx + 2) (r8 + 128)

/-- `_SSE_AllocatePhysicalPage`: from the hint on, and once more from the start. -/
def sseAllocatePhysicalPage : MemoryManagementTable × BitVec 64 :=
  match sseLoop m (m.bmpEnd + 1) m.freePagesStart m.freePageArrayStart with
  | some r => r
  | none =>
    match sseLoop m (m.bmpEnd + 1) 0 0 with
    | some r => r
    | none => (m, 0)

/-- The variables of `AllocateContiguousPages` that live across its loops. -/
structure RunScan where
  pagesStartBmp : ℕ
  pagesStartIndex : ℕ
  physicalStart : BitVec 64
  arrival : ℕ
  nextIndex : ℕ
deriving DecidableEq, Repr

/-- A completed run: its start, and the word and bit at which it was completed. -/
structure FoundRun where
  pagesStartBmp : ℕ
  pagesStartIndex : ℕ
  physicalStart : BitVec 64
  bmp : ℕ
  index : ℕ
deriving DecidableEq, Repr

/-- The scan at a clear bit, up to the test `Arrival == NumPages`. -/
def scanClearBit (numPages w index : ℕ) (s : RunScan) : FoundRun ⊕ RunScan :=
  let s := if index ≠ s.nextIndex then { s with arrival := 0 } else s
  let s :=
    if s.arrival = 0 then
      { s with
        pagesStartBmp := w
        pagesStartIndex := index
        physicalStart := (m.pageArray (64 * w + index) >>> 12) <<< 12 }
    else s
  let arrival := (s.arrival + 1) % 2 ^ 32
  if arrival = numPages then .inl ⟨s.pagesStartBmp, s.pagesStartIndex, s.physicalStart, w, index⟩
  else .inr { s with arrival := arrival, nextIndex := index + 1 }

/-- The loop over the next `n` words, from the word `w` on. -/
def scanWords (numPages : ℕ) : ℕ → ℕ → RunScan → Option FoundRun
  | 0, _, _ => none
  | n + 1, w, s =>
    match forClear (scanClearBit m numPages w) 64 (m.pageBitmap w) { s with nextIndex := 0 } with
    | .inl r => some r
    | .inr s' => scanWords numPages n (w + 1) s'

def scanContiguous (numPages : ℕ) : Option FoundRun :=
  scanWords m numPages m.max 0 ⟨0, 0, 0, 0, 0⟩

/-- `while(PagesStartBmp < Bmp)` for `n` words from `w` on, with the value of `NumPages`. -/
def fillWords : ℕ → ℕ → MemoryManagementTable → ℕ → MemoryManagementTable × ℕ
  | 0, _, m, numPages => (m, numPages)
  | n + 1, w, m, numPages =>
    fillWords n (w + 1) (m.setWord w (BitVec.allOnes 64)) ((numPages + (2 ^ 64 - 64)) % 2 ^ 64)

/-- The marking of a completed run. Shift counts are reduced modulo 64 as the processor does. -/
def markRun (numPages : ℕ) (r : FoundRun) : MemoryManagementTable :=
  if r.pagesStartBmp = r.bmp then
    m.setWord r.bmp (m.pageBitmap r.bmp |||
      ((BitVec.allOnes 64 >>> ((64 - numPages) % 64)) <<< r.pagesStartIndex))
  else
    let first := m.setWord r.pagesStartBmp
      (m.pageBitmap r.pagesStartBmp ||| (BitVec.allOnes 64 >>> (63 - r.pagesStartIndex)))
    let rest := if 64 - r.pagesStartIndex ≤ numPages then numPages - (64 - r.pagesStartIndex) else 0
    let middle := fillWords (r.bmp - (r.pagesStartBmp + 1)) (r.pagesStartBmp + 1) first rest
    if middle.2 = 0 then middle.1
    else middle.1.setWord r.bmp
      (middle.1.pageBitmap r.bmp ||| (BitVec.allOnes 64 <<< ((r.index + 1) % 64)))

def allocateContiguousPages (numPages : ℕ) : MemoryManagementTable × BitVec 64 :=
  match scanContiguous m numPages with
  | none => (m, 0)
  | some r => (markRun m numPages r, r.physicalStart)

/-- The table and the physical pages mapped so far, in the order of their virtual addresses. -/
structure Mapping where
  table : MemoryManagementTable
  mapped : List (BitVec 64)

namespace Mapping

/-- Marks the page `k` as allocated and maps it. -/
def page (s : Mapping) (k : ℕ) : Mapping :=
  ⟨s.table.setAllocated k, s.mapped ++ [(s.table.setAllocated k).address k]⟩

/-- Maps `Page[0]` to `Page[count - 1]`, where `Page` is at the entry `base`. -/
def pages (s : Mapping) (base : ℕ) : ℕ → Mapping
  | 0 => s
  | count + 1 => (s.pages base count).page (base + count)

def setWord (s : Mapping) (w : ℕ) (b : BitVec 64) : Mapping :=
  { s with table := s.table.setWord w b }

/-- The label `Success`, with what is left of `NumPages`. -/
def success (s : Mapping) (numPages : ℕ) : Mapping :=
  { s with
    table := { s.table with allocatedPages := (s.table.allocatedPages + numPages) % 2 ^ 64 } }

end Mapping

/-- A stage ends the call, or goes on with the local bitmap, the mapping and `NumPages`. -/
abbrev Stage := Mapping ⊕ (BitVec 64 × Mapping × ℕ)

/-- `-1 << (64 - min(64, NumPages))`, a shift of a 32-bit integer that is then sign extended. -/
def emptyWordMask (count : ℕ) : BitVec 64 :=
  (BitVec.allOnes 32 <<< ((64 - count) % 32)).signExtend 64

def emptyWord (w : ℕ) (s : Mapping) (numPages : ℕ) : Mapping ⊕ (Mapping × ℕ) :=
  let count := min 64 numPages
  let s := (s.setWord w (emptyWordMask count)).pages (64 * w) count
  if numPages - count = 0 then .inl (s.success (numPages - count))
  else .inr (s, numPages - count)

def leadingPages (w index : ℕ) (b : BitVec 64) (s : Mapping) (numPages : ℕ) : Stage :=
  if index = 0 then .inr (b, s, numPages)
  else
    let b := b ||| (BitVec.allOnes 64 >>> (64 - index))
    let s := s.pages (64 * w) (min index numPages)
    if numPages - min index numPages = 0 then .inl (s.success (numPages - min index numPages))
    else .inr (b, s, numPages - min index numPages)

def trailingPages (w index : ℕ) (b : BitVec 64) (s : Mapping) (numPages : ℕ) : Stage :=
  if index = 63 then .inr (b, s, numPages)
  else
    let count := min (64 - (index + 1)) numPages
    let b := b ||| (BitVec.allOnes 64 <<< (index + 1))
    let s := s.pages (64 * w) count
    if numPages - count = 0 then .inl (s.success (numPages - count))
    else .inr (b, s, numPages - count)

def remainingPage (w index : ℕ) (t : BitVec 64 × Mapping × ℕ) :
    Mapping ⊕ (BitVec 64 × Mapping × ℕ) :=
  let b := bitTestAndSet t.1 index
  let s := t.2.1.page (64 * w + index)
  if t.2.2 - 1 = 0 then .inl ((s.setWord w b).success (t.2.2 - 1)) else .inr (b, s, t.2.2 - 1)

/-- The word `w` of the bitmap. -/
def fragmentedWord (w : ℕ) (s : Mapping) (numPages : ℕ) : Mapping ⊕ (Mapping × ℕ) :=
  let b := s.table.pageBitmap w
  if b = BitVec.allOnes 64 then .inr (s, numPages)
  else if b = 0 then emptyWord w s numPages
  else
    match leadingPages w ((bitScanForward b).getD 0) b s numPages with
    | .inl s => .inl s
    | .inr (b, s, numPages) =>
      match trailingPages w ((bitScanReverse b).getD 0) b s numPages with
      | .inl s => .inl s
      | .inr (b, s, numPages) =>
        match forClear (remainingPage w) 64 b (b, s, numPages) with
        | .inl s => .inl s
        | .inr (b, s, numPages) => .inr (s.setWord w b, numPages)

/-- The loop over the next `n` words. It stops the system when the pages do not suffice. -/
def fragmentedWords : ℕ → ℕ → Mapping → ℕ → Option Mapping
  | 0, _, _, _ => none
  | n + 1, w, s, numPages =>
    match fragmentedWord w s numPages with
    | .inl s => some s
    | .inr (s, numPages) => fragmentedWords n (w + 1) s numPages

def keAllocateFragmentedPages (numPages : ℕ) : Option (MemoryManagementTable × List (BitVec 64)) :=
  if numPages = 0 then some (m, [])
  else (fragmentedWords m.max 0 ⟨m, []⟩ numPages).map (fun s => (s.table, s.mapped))

inductive Call where
  | single
  | contiguous (numPages : ℕ)
  | fragmented (numPages : ℕ)
deriving DecidableEq, Repr

/-- The table and, for every successful call so far, the physical pages it returned or mapped. -/
structure System where
  table : MemoryManagementTable
  grants : List (List (BitVec 64))

/-- The physical pages of a block of `numPages` pages at the address `start`. -/
def block (start : BitVec 64) (numPages : ℕ) : List (BitVec 64) :=
  (List.range numPages).map (fun j => start + BitVec.ofNat 64 (4096 * j))

def step (s : System) : Call → Option System
  | .single =>
    let r := sseAllocatePhysicalPage s.table
    some ⟨r.1, if r.2 = 0 then s.grants else s.grants ++ [[r.2]]⟩
  | .contiguous numPages =>
    let r := allocateContiguousPages s.table numPages
    some ⟨r.1, if r.2 = 0 then s.grants else s.grants ++ [block r.2 numPages]⟩
  | .fragmented numPages =>
    (keAllocateFragmentedPages s.table numPages).map (fun r => ⟨r.1, s.grants ++ [r.2]⟩)

end DevOs.Memory
