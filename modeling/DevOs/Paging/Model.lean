import DevOs.Lib.Bytes
import DevOs.Lib.Fields
import DevOs.Lib.Loops

/-!
# The page tables of the kernel

The tables are in physical memory, which is mapped one to one, so a table is known by its address.
Addresses and entries are numbers below `2 ^ 64`. `KeResolvePhysicalAddress` and
`VirtualFindAvailableMemory` read the tables, and `MapPhysicalPages` writes them. The pages that
`_SIMD_AllocatePhysicalPage` will return are a list; the kernel halts when it is empty.
-/

namespace DevOs.Paging

open Bytes Fields Loops

def u64 (n : ℕ) : ℕ := n % 2 ^ 64

/-- The fields of a `PTBLENTRY`. -/
def present (e : ℕ) : Bool := field 0 1 e == 1
def sizePat (e : ℕ) : Bool := field 7 1 e == 1
def physicalAddr (e : ℕ) : ℕ := field 12 36 e

def setPresent (e : ℕ) : ℕ := setField 0 1 1 e
def setReadWrite (e : ℕ) : ℕ := setField 1 1 1 e
def setUserSupervisor (e : ℕ) : ℕ := setField 2 1 1 e
def setPwt (e : ℕ) : ℕ := setField 3 1 1 e
def setPcd (e : ℕ) : ℕ := setField 4 1 1 e
def setSizePat (e : ℕ) : ℕ := setField 7 1 1 e
def setGlobal (e : ℕ) : ℕ := setField 8 1 1 e
def setPhysicalAddr (e v : ℕ) : ℕ := setField 12 36 v e
def setExecuteDisable (e : ℕ) : ℕ := setField 63 1 1 e

def entry (memory : Buffer) (table i : ℕ) : ℕ := getLE memory (table + 8 * i) 8

/-- `PageMap & ~0xFFF`. -/
def untagged (pageMap : ℕ) : ℕ := pageMap / 2 ^ 12 * 2 ^ 12

/-- The physical address for a virtual one. `none` is the `NULL` that is returned when an entry is
missing. -/
def keResolvePhysicalAddress (memory : Buffer) (pageMap virtualAddress : ℕ) : Option ℕ :=
  let pageIndex := virtualAddress / 2 ^ 12
  let pt := pageIndex % 512
  let pd := pageIndex / 2 ^ 9 % 512
  let pdp := pageIndex / 2 ^ 18 % 512
  let pml4 := pageIndex / 2 ^ 27 % 512
  let pml4Entry := entry memory (untagged pageMap) pml4
  if !present pml4Entry then none
  else
    let pdpEntry := entry memory (physicalAddr pml4Entry * 2 ^ 12) pdp
    if !present pdpEntry then none
    else
      let pdEntry := entry memory (physicalAddr pdpEntry * 2 ^ 12) pd
      if !present pdEntry then none
      else if sizePat pdEntry then some (physicalAddr pdEntry * 2 ^ 21 + virtualAddress % 2 ^ 21)
      else
        let ptEntry := entry memory (physicalAddr pdEntry * 2 ^ 12) pt
        if !present ptEntry then none
        else some (physicalAddr ptEntry * 2 ^ 12 + virtualAddress % 2 ^ 12)

/-- An address in the upper half, where the bits from 47 on are set, keeps its low 48 bits and gets
the marker bit 48. -/
def marked (virtualAddress : ℕ) : ℕ :=
  if virtualAddress / 2 ^ 47 = 2 ^ 17 - 1 then virtualAddress % 2 ^ 48 + 2 ^ 48 else virtualAddress

/-- `__ToVirtAddress48`. The bits from 47 on are those of the bit 47. -/
def toVirtAddress48 (pml4 pdp pd pt : ℕ) : ℕ :=
  let v := pml4 * 2 ^ 39 + pdp * 2 ^ 30 + pd * 2 ^ 21 + pt * 2 ^ 12
  if 0x7FFFFFFFFFFF < v then v + 0xFFFF000000000000 else v

/-- The variables of the loops. An address of `0` is `NULL`. -/
structure Search where
  foundPages : ℕ
  virtualAddress : ℕ
  pdpIndex : ℕ
  pdIndex : ℕ
  ptIndex : ℕ
deriving DecidableEq, Repr

/-- Adds `n` free pages, and returns the address of the first page when there are enough. -/
def Search.credit (s : Search) (numPages n address : ℕ) : ℕ ⊕ Search :=
  let s := { s with
    foundPages := s.foundPages + n
    virtualAddress := if s.virtualAddress = 0 then address else s.virtualAddress }
  if numPages ≤ s.foundPages then .inl s.virtualAddress else .inr s

def Search.reset (s : Search) : Search := { s with foundPages := 0, virtualAddress := 0 }

/-- The last indices. They are those of `VirtualEnd` in the last table of a level only. -/
structure Ends where
  pml4End : ℕ
  pdp : ℕ
  pd : ℕ
  pt : ℕ

def Ends.pdpEnd (e : Ends) (pml4Index : ℕ) : ℕ := if pml4Index = e.pml4End then e.pdp else 511

def Ends.pdEnd (e : Ends) (pml4Index pdpIndex : ℕ) : ℕ :=
  if pml4Index = e.pml4End ∧ pdpIndex = e.pdpEnd pml4Index then e.pd else 511

def Ends.ptEnd (e : Ends) (pml4Index pdpIndex pdIndex : ℕ) : ℕ :=
  if pml4Index = e.pml4End ∧ pdpIndex = e.pdpEnd pml4Index ∧
    pdIndex = e.pdEnd pml4Index pdpIndex then e.pt
  else 511

section Search

variable (memory : Buffer) (numPages : ℕ) (e : Ends)

def searchPt (pt pml4Index pdpIndex pdIndex ptIndex : ℕ) (s : Search) : ℕ ⊕ Search :=
  if present (entry memory pt ptIndex) then .inr s.reset
  else s.credit numPages 1 (toVirtAddress48 pml4Index pdpIndex pdIndex ptIndex)

def searchPd (pd pml4Index pdpIndex pdIndex : ℕ) (s : Search) : ℕ ⊕ Search :=
  let pdEntry := entry memory pd pdIndex
  if !present pdEntry then
    (s.credit numPages (0x200 - s.ptIndex)
      (toVirtAddress48 pml4Index pdpIndex pdIndex s.ptIndex)).map id
      (fun s => { s with ptIndex := 0 })
  else if sizePat pdEntry then .inr { s.reset with ptIndex := 0 }
  else
    (forRange (searchPt memory numPages (physicalAddr pdEntry * 2 ^ 12) pml4Index pdpIndex pdIndex)
      (e.ptEnd pml4Index pdpIndex pdIndex + 1 - s.ptIndex) s.ptIndex s).map id
      (fun s => { s with ptIndex := 0 })

def searchPdp (pdp pml4Index pdpIndex : ℕ) (s : Search) : ℕ ⊕ Search :=
  let pdpEntry := entry memory pdp pdpIndex
  if !present pdpEntry then
    (s.credit numPages (0x40000 - s.ptIndex - s.pdIndex * 2 ^ 9)
      (toVirtAddress48 pml4Index pdpIndex s.pdIndex s.ptIndex)).map id
      (fun s => { s with pdIndex := 0, ptIndex := 0 })
  else
    (forRange (searchPd memory numPages e (physicalAddr pdpEntry * 2 ^ 12) pml4Index pdpIndex)
      (e.pdEnd pml4Index pdpIndex + 1 - s.pdIndex) s.pdIndex s).map id
      (fun s => { s with pdIndex := 0 })

def searchPml4 (pageTable pml4Index : ℕ) (s : Search) : ℕ ⊕ Search :=
  let pml4Entry := entry memory pageTable pml4Index
  if !present pml4Entry then
    (s.credit numPages (0x8000000 - s.ptIndex - s.pdIndex * 2 ^ 9 - s.pdpIndex * 2 ^ 18)
      (toVirtAddress48 pml4Index s.pdpIndex s.pdIndex s.ptIndex)).map id
      (fun s => { s with pdpIndex := 0, pdIndex := 0, ptIndex := 0 })
  else
    (forRange (searchPdp memory numPages e (physicalAddr pml4Entry * 2 ^ 12) pml4Index)
      (e.pdpEnd pml4Index + 1 - s.pdpIndex) s.pdpIndex s).map id
      (fun s => { s with pdpIndex := 0 })

end Search

/-- Searches for `numPages` pages that are not mapped. The result `0` is `NULL`. -/
def virtualFindAvailableMemory (memory : Buffer)
    (pageMap virtualStart virtualEnd numPages : ℕ) : ℕ :=
  if virtualEnd < virtualStart ∨ numPages = 0 then 0
  else
    let first := marked virtualStart / 2 ^ 12
    let last := marked virtualEnd / 2 ^ 12
    let e : Ends := ⟨last / 2 ^ 27 % 512, last / 2 ^ 18 % 512, last / 2 ^ 9 % 512, last % 512⟩
    let pml4Index := first / 2 ^ 27 % 512
    let s : Search := ⟨0, 0, first / 2 ^ 18 % 512, first / 2 ^ 9 % 512, first % 512⟩
    -- the page map is used with its tag
    match forRange (searchPml4 memory numPages e pageMap) (e.pml4End +
        1 - pml4Index) pml4Index s with
    | .inl address => address
    | .inr _ => 0

def pmPresent : ℕ := 0x1
def pmUser : ℕ := 0x2
def pmReadWrite : ℕ := 0x4
def pmNx : ℕ := 0x8
def pmGlobal : ℕ := 0x10
def pmCacheDisable : ℕ := 0x20
def pmWriteThrough : ℕ := 0x40
def pmNoCr3Reload : ℕ := 0x80
def pmNoTlbInvalidation : ℕ := 0x100
def pmLargePages : ℕ := 0x200
def pmWriteCombine : ℕ := 0x400

def has (flags flag : ℕ) : Bool := flags &&& flag != 0

def setWhen (c : Bool) (set : ℕ → ℕ) (e : ℕ) : ℕ := if c then set e else e

def setAccess (flags e : ℕ) : ℕ :=
  if has flags pmReadWrite then setReadWrite e else setPcd (setPwt e)

/-- The index into the page attribute table. Its highest bit is at another place in large pages. -/
def setCaching (flags e : ℕ) : ℕ :=
  if has flags pmWriteThrough then
    if has flags pmLargePages then setPhysicalAddr e 1 else setSizePat e
  else if has flags pmCacheDisable then setPcd e
  else if has flags pmWriteCombine then setPwt e
  else e

/-- `ModelEntry`. The parameter `nx` is the global variable `NX`. -/
def modelEntry (nx : Bool) (flags : ℕ) : ℕ :=
  let e := setWhen (has flags pmPresent) setPresent 0
  let e := setAccess flags e
  let e := setWhen (has flags pmUser) setUserSupervisor e
  let e := setWhen (has flags pmNx && nx) setExecuteDisable e
  let e := setWhen (has flags pmGlobal) setGlobal e
  let e := setCaching flags e
  setWhen (has flags pmLargePages) setSizePat e

/-- What the processor sees: an entry for the page with a number is written, a page is invalidated,
or `CR3` is loaded. -/
inductive Event where
  | entry (page before after : ℕ)
  | invalidatePage (address : ℕ)
  | setCr3 (value : ℕ)
deriving DecidableEq, Repr

structure Machine where
  memory : Buffer
  /-- The addresses that `_SIMD_AllocatePhysicalPage` returns. -/
  pages : List ℕ
  nx : Bool
  trace : List Event

def setEntry (memory : Buffer) (table i e : ℕ) : Buffer := setLE memory (table + 8 * i) 8 e

/-- The table that an entry leads to. A missing one is allocated and cleared. -/
def openTable (m : Machine) (table i : ℕ) : Option (Machine × ℕ) :=
  let e := entry m.memory table i
  if present e then some (m, physicalAddr e * 2 ^ 12)
  else
    match m.pages with
    | [] => none
    | entryAddr :: pages =>
      if entryAddr = 0 then none
      else
        let e := setUserSupervisor
          (setReadWrite (setPresent (setPhysicalAddr e (entryAddr / 2 ^ 12))))
        some ({ m with memory := clear (setEntry m.memory table i e) entryAddr 0x1000, pages },
          entryAddr)

def writeEntry (m : Machine) (table i page e : ℕ) : Machine :=
  { m with
    memory := setEntry m.memory table i e
    trace := m.trace ++ [.entry page (entry m.memory table i) e] }

/-- The entry for a page: of `2 ^ 21` bytes with `PM_LARGE_PAGES`, else of `2 ^ 12` bytes. -/
def mapEntry (m : Machine) (pageMap tmpVirtualAddr tmpPhysicalAddr flags : ℕ) : Option Machine :=
  let ptIndex := tmpVirtualAddr % 512
  let pdIndex := tmpVirtualAddr / 2 ^ 9 % 512
  let pdpIndex := tmpVirtualAddr / 2 ^ 18 % 512
  let pml4Index := tmpVirtualAddr / 2 ^ 27 % 512
  let model := modelEntry m.nx flags
  (openTable m (untagged pageMap) pml4Index).bind fun (m, pdp) =>
  (openTable m pdp pdpIndex).bind fun (m, pd) =>
  if has flags pmLargePages then
    some (writeEntry m pd pdIndex tmpVirtualAddr
      (setPhysicalAddr model (tmpPhysicalAddr ||| physicalAddr model)))
  else
    (openTable m pd pdIndex).map fun (m, pt) =>
      writeEntry m pt ptIndex tmpVirtualAddr (setPhysicalAddr model tmpPhysicalAddr)

/-- One turn of the loop. The number of the page is given to `__InvalidatePage`. -/
def mapPage (m : Machine) (pageMap tmpVirtualAddr tmpPhysicalAddr count flags : ℕ) :
    Option Machine :=
  (mapEntry m pageMap tmpVirtualAddr tmpPhysicalAddr flags).map fun m =>
    if count ≤ 0x2000 || !has flags pmNoTlbInvalidation then
      { m with trace := m.trace ++ [.invalidatePage tmpVirtualAddr] }
    else m

def incVaddr (flags : ℕ) : ℕ := if has flags pmLargePages then 0x200 else 1

/-- The last `n` turns of the loop. -/
def mapLoop (pageMap count flags : ℕ) : ℕ → Machine → ℕ → ℕ → Option Machine
  | 0, m, _, _ => some m
  | n + 1, m, tmpVirtualAddr, tmpPhysicalAddr =>
    (mapPage m pageMap tmpVirtualAddr tmpPhysicalAddr count flags).bind fun m =>
      mapLoop pageMap count flags n m (u64 (tmpVirtualAddr + incVaddr flags))
        (u64 (tmpPhysicalAddr + incVaddr flags))

def mapPhysicalPages (m : Machine) (pageMap virtualAddress physicalAddress count flags : ℕ) :
    Option Machine :=
  (mapLoop pageMap count flags count m (marked virtualAddress / 2 ^ 12)
      (physicalAddress / 2 ^ 12)).map fun m =>
    if 0x2000 < count && !has flags pmNoCr3Reload then
      { m with trace := m.trace ++ [.setCr3 pageMap] }
    else m

/-- `PcIdList`, with its counter and the switch. -/
structure PcidList where
  tokens : ℕ → Bool
  numProcessContextIdentifiers : ℕ
  processContextIdEnabled : Bool

def maxPcid : ℕ := 0xFFF

/-- Puts the number of the first free token, counted from one, into the low bits of the page map. -/
def processContextIdAllocate (l : PcidList) (pageMap : ℕ) : PcidList × ℕ × Bool :=
  if !l.processContextIdEnabled then (l, pageMap, false)
  else if l.numProcessContextIdentifiers = maxPcid then
    ({ l with processContextIdEnabled := false }, pageMap, false)
  else
    match (List.range maxPcid).find? (fun i => !l.tokens i) with
    | none => (l, pageMap, false)
    | some i =>
      ({ l with
        tokens := Function.update l.tokens i true
        numProcessContextIdentifiers := (l.numProcessContextIdentifiers + 1) % 2 ^ 32 },
        pageMap ||| (i + 1), true)

end DevOs.Paging
