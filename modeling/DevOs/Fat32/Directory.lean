import DevOs.Fat32.Model
import Mathlib.Data.List.DropRight

/-!
# The FAT32 driver: directories

A directory is a chain of clusters of 32-byte slots. A slot is free (its first byte is `0` or
`0xE5`), a part of a long name, or the entry of a file. `Fat32FindDirectoryClusterEntry` parses each
cluster on its own; a long name is collected from its slots and the slot after them is the entry.
The names are `UINT16` strings, here the lists of their characters before the zero. The arrays that
they are copied to are taken as large enough.
-/

namespace DevOs.Fat32

open Bytes

/-- A `UINT16` character. -/
abbrev WChar := BitVec 16

abbrev Name := List WChar

/-- The 32 bytes of the slot `i`. -/
def slot (b : Buffer) (i : ℕ) : Buffer := window b (32 * i) 32

/-- Replaces the slot `i`. -/
def setSlot (b : Buffer) (i : ℕ) (e : Buffer) : Buffer := copy b (32 * i) e 0 32

section Entry

variable (e : Buffer)

def isFree : Bool := e 0 == 0 || e 0 == 0xE5

/-- `(FileAttributes & 0xF) == 0xF` -/
def isLfn : Bool := e 11 &&& 0xF == 0xF

/-- `FileAttributes & FAT_DIRECTORY` -/
def isDirectory : Bool := e 11 &&& 0x10 != 0

/-- `(UINT32)FirstClusterLow | ((UINT32)FirstClusterHigh << 16)` -/
def firstCluster : ℕ := getLE e 26 2 + 2 ^ 16 * getLE e 20 2

def fileSize : ℕ := getLE e 28 4

/-- The character at the offset `o`. -/
def wchar (o : ℕ) : WChar := BitVec.ofNat 16 (getLE e o 2)

/-- The offsets of `Name0`, `Name1` and `Name2`. -/
def lfnOffsets : List ℕ := [1, 3, 5, 7, 9, 14, 16, 18, 20, 22, 24, 28, 30]

/-- `ParseLfnEntry`: the characters that the slot adds to the front of the name. -/
def parseLfnEntry : Name :=
  (lfnOffsets.map (wchar e)).filter (fun c => c ≠ 0 ∧ c ≠ 0xFFFF)

/-- A character of a short name in the case that `UserAttributes` asks for. -/
def sfnChar (lowercase : Bool) (c : Byte) : WChar :=
  if lowercase ∧ 0x41 ≤ c ∧ c ≤ 0x5A then (c + 0x20).zeroExtend 16
  else if ¬ lowercase ∧ 0x61 ≤ c ∧ c ≤ 0x7A then (c - 0x20).zeroExtend 16
  else c.zeroExtend 16

def sfnBase : List Byte := ((List.range 8).map e).rdropWhile (fun c => c ≤ 0x20)

def sfnExtension : List Byte :=
  ((List.range 3).map (fun i => e (8 + i))).takeWhile (fun c => 0x20 < c)

/-- `ParseSfnEntry`, up to the first zero of the string. -/
def parseSfnEntry : Name :=
  let base := (sfnBase e).map (sfnChar (e 12 &&& 8 != 0))
  let extension := (sfnExtension e).map (sfnChar (e 12 &&& 16 != 0))
  (base ++ (if 0x20 < e 8 then 0x2E :: extension else [])).takeWhile (· ≠ 0)

end Entry

def insensitiveCompareChar (c₁ c₂ : WChar) : Bool :=
  if 0x41 ≤ c₁ ∧ c₁ ≤ 0x5A then c₁ == (if 0x61 ≤ c₂ ∧ c₂ ≤ 0x7A then c₂ - 32 else c₂)
  else if 0x61 ≤ c₁ ∧ c₁ ≤ 0x7A then c₁ == (if 0x41 ≤ c₂ ∧ c₂ ≤ 0x5A then c₂ + 32 else c₂)
  else c₁ == c₂

def nameMatches : Name → Name → Bool
  | [], [] => true
  | a :: as, b :: bs => insensitiveCompareChar a b && nameMatches as bs
  | _, _ => false

/-- `ParseMode`, with `RemainingSequences` and the characters collected. -/
inductive ParseMode where
  | normal
  | lfn (remaining : ℕ) (name : Name)
deriving DecidableEq, Repr

/-- One slot that is not free: the entry is found there, or the mode for the next slot. -/
def parseSlot (fileName : Name) (e : Buffer) : ParseMode → Option ParseMode
  | .lfn 0 name => if nameMatches name fileName then none else some .normal
  | .lfn (k + 1) name =>
    if isLfn e then some (.lfn k (parseLfnEntry e ++ name))
    -- an invalid chain: the slot is parsed as a normal entry, and it is not a long name
    else if nameMatches (parseSfnEntry e) fileName then none else some .normal
  | .normal =>
    if isLfn e ∧ e 0 &&& 0x40 ≠ 0 then
      if e 0 &&& 0x1F = 0 then some .normal
      else some (.lfn ((e 0 &&& 0x1F).toNat - 1) (parseLfnEntry e))
    else if nameMatches (parseSfnEntry e) fileName then none else some .normal

/-- The next `n` slots, from the slot `x` on. -/
def findSlot (fileName : Name) (b : Buffer) : ℕ → ℕ → ParseMode → Option ℕ
  | 0, _, _ => none
  | n + 1, x, mode =>
    if slot b x 0 = 0 then none
    else if slot b x 0 = 0xE5 then findSlot fileName b n (x + 1) mode
    else match parseSlot fileName (slot b x) mode with
      | none => some x
      | some mode => findSlot fileName b n (x + 1) mode

/-- `Fat32FindDirectoryClusterEntry`. It returns the index of the entry in the cluster. -/
def fat32FindDirectoryClusterEntry (p : Partition) (fileName : Name) (b : Buffer) : Option ℕ :=
  findSlot fileName b p.entriesPerCluster 0 .normal

/-- One turn of a loop over the clusters of a directory that ends at the entry with a name. -/
def searchCluster {ρ : Type} (p : Partition) (fileName : Name) (found : ℕ → Buffer → ℕ → ρ)
    (cluster : ℕ) (b : Buffer) (_ : Unit) : ρ ⊕ Unit :=
  match fat32FindDirectoryClusterEntry p fileName b with
  | some x => .inl (found cluster b x)
  | none => .inr ()

/-- `Fat32FindEntry`. It returns the copy of the entry. -/
def fat32FindEntry (s : State) (fileName : Name) (cluster : ℕ) : Option (State × Option Buffer) :=
  if fileName = [] then some (s, none)
  else
    (readChain (searchCluster s.partition fileName (fun _ b x => slot b x)) walkFuel s cluster false
      ()).map (fun r => (r.1, r.2.getLeft?))

/-- `FAT32_LFN_MARK` -/
def lfnMark : List Byte := [0x7E, 0x4C, 0x46, 0x4E, 0x5F, 0x21, 0x45, 0x4E, 0x20, 0x20, 0x20]

def lfnChecksum : Byte :=
  lfnMark.foldl (fun sum c => ((sum &&& 1) <<< 7) + (sum >>> 1) + c) 0

/-- `ReverseFileName`, as an index of the name, `RemainingSize` and `SizeFileNamePart`. -/
structure LfnCursor where
  reverse : ℕ
  remaining : ℕ
  size : ℕ
deriving DecidableEq, Repr

def LfnCursor.start (fileName : Name) : LfnCursor :=
  let len := fileName.length
  if 13 ≤ len then
    let size := if len % 13 ≠ 0 then len % 13 else 13
    ⟨len - size, len - size, size⟩
  else ⟨0, 0, len⟩

def LfnCursor.next (c : LfnCursor) : LfnCursor :=
  if 13 ≤ c.remaining then ⟨c.reverse - 13, c.remaining - 13, 13⟩
  else ⟨c.reverse - c.remaining, 0, c.remaining⟩

/-- The characters of a slot: a part of the name, a zero, and `0xFFFF` in the rest. -/
def LfnCursor.chars (c : LfnCursor) (fileName : Name) : Name :=
  ((fileName.drop c.reverse).take c.size ++ 0 :: List.replicate 13 0xFFFF).take 13

def setChars (e : Buffer) : List ℕ → Name → Buffer
  | o :: os, c :: cs => setChars (setLE e o 2 c.toNat) os cs
  | _, _ => e

def setLfnEntry (e : Buffer) (sequenceNumber : Byte) (fileName : Name) (c : LfnCursor) : Buffer :=
  let e := setLE (setLE (setLE e 0 1 sequenceNumber.toNat) 13 1 lfnChecksum.toNat) 11 1 0xF
  setChars e lfnOffsets (c.chars fileName)

/-- The first byte of a slot of a long name. The slot of the end of the name has the bit 6 set. -/
def lfnByte (numLfnEntries sequenceNumber : ℕ) : Byte :=
  if sequenceNumber = numLfnEntries then BitVec.ofNat 8 sequenceNumber ||| 0x40
  else BitVec.ofNat 8 sequenceNumber

/-- The slots of the long name from the slot `i` on, for `n` slots. -/
def setLfnEntries (fileName : Name) (numLfnEntries : ℕ) :
    ℕ → ℕ → ℕ → LfnCursor → Buffer → Buffer
  | 0, _, _, _, b => b
  | n + 1, i, sequenceNumber, c, b =>
    setLfnEntries fileName numLfnEntries n (i + 1) (sub32 sequenceNumber 1 % 2 ^ 16) c.next
      (setSlot b i (setLfnEntry (slot b i) (lfnByte numLfnEntries sequenceNumber) fileName c))

/-- Writes bytes from the offset `o` on. -/
def setBytes (e : Buffer) (o : ℕ) : List Byte → Buffer
  | [] => e
  | c :: cs => setBytes (setLE e o 1 c.toNat) (o + 1) cs

def setInfoEntry (e : Buffer) (attributes : Byte) : Buffer :=
  let e := setLE (setBytes e 0 lfnMark) 11 1 attributes.toNat
  setLE (setLE (setLE e 28 4 0) 26 2 0) 20 2 0

/-- The variables of the scan for a run of free slots. -/
structure FreeRun where
  startCluster : ℕ
  startIndex : ℕ
  approved : ℕ
deriving DecidableEq, Repr

/-- The next `n` slots of a cluster, from the slot `i` on. The scan ends with the index of the last
slot of the run. -/
def scanFree (target cluster : ℕ) (b : Buffer) : ℕ → ℕ → FreeRun → (FreeRun × ℕ) ⊕ FreeRun
  | 0, _, r => .inr r
  | n + 1, i, r =>
    if isFree (slot b i) then
      let r := if r.startCluster = 0 then { r with startCluster := cluster, startIndex := i } else r
      let r := { r with approved := r.approved + 1 }
      if r.approved = target then .inl (r, i) else scanFree target cluster b n (i + 1) r
    else if r.startCluster ≠ 0 then scanFree target cluster b n (i + 1) { r with
      startCluster := 0, approved := 0 }
    else scanFree target cluster b n (i + 1) r

def runCluster (target entriesPerCluster cluster : ℕ) (b : Buffer) (r : FreeRun) :
    (FreeRun × ℕ × ℕ × Buffer) ⊕ FreeRun :=
  match scanFree target cluster b entriesPerCluster 0 r with
  | .inl (r, i) => .inl (r, cluster, i, b)
  | .inr r => .inr r

/-- Clears the clusters of the chain from `cluster` on. -/
def clearChain : ℕ → State → ℕ → Option State
  | 0, _, _ => none
  | n + 1, s, cluster =>
    let (s, next) := fat32GetNextCluster s cluster
    if next = 0 then some s
    else clearChain n (fat32WriteCluster s cluster (fun _ => 0)) next

/-- The slots of a long name and its entry in the cluster `b`. -/
def lfnCluster (fileName : Name) (attributes : Byte) (numLfnEntries first last : ℕ) (b : Buffer) :
    Buffer :=
  let b := setLfnEntries fileName numLfnEntries (last - first) first (numLfnEntries % 2 ^ 16)
    (LfnCursor.start fileName) b
  setSlot b last (setInfoEntry (slot b last) attributes)

/-- The second half of `Fat32AllocateLongFileNameEntry`. When the run is not in one cluster, the
loop over its clusters ends before the first one, since a successful read is zero. -/
def writeLongName (s : State) (fileName : Name) (attributes : Byte)
    (numLfnEntries startCluster startIndex endCluster endIndex : ℕ) (b : Buffer) :
    Option (State × FatStatus) :=
  if startCluster = endCluster then
    some (fat32WriteCluster s startCluster
      (lfnCluster fileName attributes numLfnEntries startIndex endIndex b), .success)
  else
    let r := fat32ReadCluster s startCluster false b
    if r.status = .success then some (r.state, .readError) else none

def fat32AllocateLongFileNameEntry (s : State) (cluster : ℕ) (fileName : Name) (attributes : Byte)
    (numLfnEntries : ℕ) : Option (State × FatStatus) :=
  let target := numLfnEntries + 1
  let entriesPerCluster := s.partition.entriesPerCluster
  match readChain (runCluster target entriesPerCluster) walkFuel s cluster false ⟨0, 0, 0⟩ with
  | none => none
  | some (s, .inl (r, endCluster, endIndex, b)) =>
    writeLongName s fileName attributes numLfnEntries r.startCluster r.startIndex endCluster
      endIndex b
  | some (s, .inr r) =>
    if r.startCluster ≠ 0 then
      writeLongName s fileName attributes numLfnEntries r.startCluster r.startIndex 0 0 (fun _ => 0)
    else
      let requiredClusters := target / entriesPerCluster +
        (if target % entriesPerCluster ≠ 0 then 1 else 0)
      match fat32AllocateClusterChain s cluster requiredClusters with
      | none => none
      | some (s, startCluster) =>
        if startCluster = 0 then some (s, .noEnoughSpace)
        else
          match fat32GetLastCluster s cluster with
          | none => none
          | some endCluster =>
            match clearChain walkFuel s startCluster with
            | none => none
            | some s => writeLongName s fileName attributes numLfnEntries startCluster 0 endCluster
              (target % entriesPerCluster) (fun _ => 0)

def upperByte (c : WChar) : Byte :=
  let c := c.setWidth 8
  if 0x61 ≤ c ∧ c ≤ 0x7A then c - 32 else c

/-- The next `n` bytes of a short name from the offset `o` on. The characters that `stop` names
give blanks and are not passed over. It returns the rest of the name and the number of
characters taken. -/
def sfnBytes (stop : WChar → Bool) : ℕ → ℕ → Name → Buffer → Buffer × Name × ℕ
  | 0, _, name, e => (e, name, 0)
  | n + 1, o, name, e =>
    match name with
    | [] => sfnBytes stop n (o + 1) [] (setLE e o 1 0x20)
    | c :: cs =>
      if stop c then sfnBytes stop n (o + 1) name (setLE e o 1 0x20)
      else
        let (e, rest, taken) := sfnBytes stop n (o + 1) cs (setLE e o 1 (upperByte c).toNat)
        (e, rest, taken + 1)

def setupEntryShortFileName (e : Buffer) (fileName : Name) : Buffer :=
  let (e, rest, baseNameLen) := sfnBytes (fun c => c < 0x20 || c == 0x2E) 8 0 fileName e
  if rest.head? = some 0x2E then
    if rest.tail = [] then setLE e baseNameLen 1 0x2E
    else (sfnBytes (· < 0x20) 3 8 rest.tail e).1
  else setBytes e 8 [0x20, 0x20, 0x20]

/-- `Flags`: the case of the base name and of the extension. -/
structure SfnFlags where
  nameLowercase : Bool
  extensionLowercase : Bool
deriving DecidableEq, Repr

/-- The short entry over the bytes `e`. -/
def setSfnEntry (e : Buffer) (fileName : Name) (attributes : Byte) (flags : SfnFlags) : Buffer :=
  let e := setLE (setupEntryShortFileName e fileName) 11 1 attributes.toNat
  let e := if flags.nameLowercase then setLE e 12 1 8 else e
  if flags.extensionLowercase then setLE e 12 1 (e 12 ||| 16).toNat else e

/-- The first free slot among the next `n` ones. -/
def firstFree (b : Buffer) : ℕ → ℕ → Option ℕ
  | 0, _ => none
  | n + 1, i => if isFree (slot b i) then some i else firstFree b n (i + 1)

def freeCluster (p : Partition) (cluster : ℕ) (b : Buffer) (_ : Unit) : (ℕ × ℕ × Buffer) ⊕ Unit :=
  match firstFree b p.entriesPerCluster 0 with
  | some i => .inl (cluster, i, b)
  | none => .inr ()

def fat32AllocateSfnEntry (s : State) (cluster : ℕ) (fileName : Name) (attributes : Byte)
    (flags : SfnFlags) : Option (State × FatStatus) :=
  match readChain (freeCluster s.partition) walkFuel s cluster false () with
  | none => none
  | some (s, .inl (lastCluster, i, b)) =>
    some (fat32WriteCluster s lastCluster
      (setSlot b i (setSfnEntry (fun _ => 0) fileName attributes flags)), .success)
  | some (s, .inr ()) =>
    match fat32AllocateClusterChain s cluster 1 with
    | none => none
    | some (s, lastCluster) =>
      if lastCluster = 0 then some (s, .noEnoughSpace)
      else some (fat32WriteCluster s lastCluster
        (setSlot (fun _ => 0) 0 (setSfnEntry (fun _ => 0) fileName attributes flags)), .success)

/-- The slots of a long name of `len` characters. -/
def lfnEntries (len : ℕ) : ℕ := len / 13 + (if len % 13 ≠ 0 then 1 else 0)

/-- The search for an extension in the next `n` characters. It returns whether there is one and
whether it is too long. -/
def findExtension (f : ℕ → WChar) (len : ℕ) : ℕ → ℕ → Bool → Bool × Bool
  | 0, _, extension => (extension, false)
  | n + 1, i, extension =>
    if f i = 0 then (extension, false)
    else if f i = 0x2E then
      if 3 < (len - (i + 1)) % 2 ^ 8 then (true, true) else findExtension f len n (i + 1) true
    else findExtension f len n (i + 1) extension

def isLower (c : WChar) : Bool := 0x61 ≤ c && c ≤ 0x7A

def isUpper (c : WChar) : Bool := 0x41 ≤ c && c ≤ 0x5A

/-- `NameLawSet`, the case that the first letter sets, and whether a long name is needed. -/
structure CaseScan where
  lawSet : Bool
  lowercase : Bool
  long : Bool
deriving DecidableEq, Repr

def CaseScan.see (c : WChar) (r : CaseScan) : CaseScan :=
  if r.lawSet then r
  else if isLower c then { r with lowercase := true, lawSet := true }
  else if isUpper c then { r with lawSet := true }
  else r

def CaseScan.breaks (c : WChar) (r : CaseScan) : Bool :=
  c == 0x20 || (isUpper c && r.lowercase) || (isLower c && !r.lowercase)

def scanBase (f : ℕ → WChar) : ℕ → ℕ → CaseScan → CaseScan × ℕ
  | 0, i, r => (r, i)
  | n + 1, i, r =>
    let r := r.see (f i)
    if f i = 0x2E then (r, i + 1)
    else if r.breaks (f i) then ({ r with long := true }, i)
    else scanBase f n (i + 1) r

def scanExtension (f : ℕ → WChar) : ℕ → ℕ → CaseScan → CaseScan
  | 0, _, r => r
  | n + 1, i, r =>
    let r := r.see (f i)
    if r.breaks (f i) then { r with long := true } else scanExtension f n (i + 1) r

/-- The first half of `Fat32AllocateEntry`: the number of long name slots, zero for a short name,
and the flags of a short name. `f` is the array `EntryName`: the tests read behind the end of the
name and see what an earlier name has left there. -/
def classifyName (f : ℕ → WChar) (len : ℕ) : ℕ × SfnFlags :=
  let (extension, long) := findExtension f len 10 0 false
  if 12 < len ∨ long ∨ (¬ extension ∧ 8 < len) then (lfnEntries len, ⟨false, false⟩)
  else
    let (base, i) := scanBase f 8 0 ⟨false, false, false⟩
    let ext := scanExtension f 3 i ⟨false, false, false⟩
    (if base.long ∨ ext.long then 1 else 0, ⟨base.lowercase, ext.lowercase⟩)

/-- `Fat32AllocateEntry` for the name at the start of `EntryName`. -/
def fat32AllocateEntry (s : State) (cluster : ℕ) (fileName : Name) (attributes : Byte) :
    Option (State × FatStatus) :=
  if fileName = [] then some (s, .invalidParameter)
  else
    let (numLfnEntries, flags) := classifyName s.entryName fileName.length
    if numLfnEntries ≠ 0 then fat32AllocateLongFileNameEntry s cluster fileName attributes
      numLfnEntries
    else fat32AllocateSfnEntry s cluster fileName attributes flags

end DevOs.Fat32
