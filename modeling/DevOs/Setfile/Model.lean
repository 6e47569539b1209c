import DevOs.Lib.Bytes
import DevOs.Lib.Pieces
import DevOs.Lib.Ranges
import DevOs.Lib.Runs
import Mathlib.Data.Nat.Digits.Defs

/-!
# Set files

A set file has a header, with the table of the root directory at its end, and a block with a table
of 256 entries for every further directory. The tool `setf` makes a file, creates entries and
describes them. It works on an image of the header, and it reads the table of a directory that it
enters over that of the root directory.
-/

namespace DevOs.Setfile

open DevOs.Bytes DevOs.Ranges

structure File where
  size : ℕ
  bytes : Buffer

/-- `ReadFile` at the offset `o`, to the place `p` of a buffer. Nothing is read behind the end of
the file. -/
def File.read (f : File) (o n : ℕ) (b : Buffer) (p : ℕ) : Buffer :=
  copy b p f.bytes o (min n (f.size - o))

/-- `ReadFile` at an offset fails at the end of the file. -/
def File.readable (f : File) (o : ℕ) : Bool := decide (o < f.size)

/-- `WriteFile` at the offset `o`, from the place `p` of a buffer. -/
def File.write (f : File) (o n : ℕ) (b : Buffer) (p : ℕ) : File :=
  ⟨max f.size (o + n), copy f.bytes o b p n⟩

def maxDirEntries : ℕ := 0x100

def nameMaxLen : ℕ := 0x80

/-- `sizeof(SYSTEM_SETFILE_ENTRY)`: the attributes, the name at 8, its end at 136, the pointers at
144 and 152, and the value at 160. -/
def entrySize : ℕ := 416

def tableSize : ℕ := maxDirEntries * entrySize

/-- The offset of `FreeClusterTable` in the header: its clusters are at 8 and its `NextOffset` is
behind them. -/
def freeClusterTable : ℕ := 2144

def clustersPerTable : ℕ := 0x400

def clusterTableSize : ℕ := 8 + 8 * clustersPerTable + 8

/-- The offset of `RootDirectory` in the header. -/
def rootDirectory : ℕ := freeClusterTable + clusterTableSize

def headerSize : ℕ := rootDirectory + tableSize

def signature : ℕ := Nat.ofDigits 256 ("$SETFILE".toList.map Char.toNat)

def magic0 : ℕ := 0xF2CAFEE0BABE1F3A

def description : ℕ := Nat.ofDigits (256 ^ 2) ("Settings Variables BCD File".toList.map Char.toNat)

def setfileCheckHeader (h : Buffer) : Bool :=
  getLE h 0 8 = signature && getLE h 16 56 = description && getLE h 8 8 = magic0

/-- The file that `SetFile` makes. -/
def setFile : File :=
  let h : Buffer := fun _ => 0
  let h := setLE h 0 8 signature
  let h := setLE h 16 56 description
  let h := setLE h 8 8 magic0
  let h := setLE h 72 2 1
  let h := setLE h 74 2 0
  File.write ⟨0, fun _ => 0⟩ 0 headerSize h 0

def File.header (f : File) : Buffer := f.read 0 headerSize (fun _ => 0) 0

/-- The entry `i` of a table. -/
def entryAt (table i : ℕ) : ℕ := table + i * entrySize

def attributesAt (b : Buffer) (table i : ℕ) : ℕ := getLE b (entryAt table i) 8

def nameAt (table i : ℕ) : ℕ := entryAt table i + 8

def dirPointerAt (b : Buffer) (table i : ℕ) : ℕ := getLE b (entryAt table i + 144) 8

/-- `Attributes & SETFILE_PRESENT` -/
def present (attributes : ℕ) : Bool := attributes.testBit 0

/-- `Attributes & SETFILE_DIRECTORY` -/
def directory (attributes : ℕ) : Bool := attributes.testBit 1

/-- An argument of a command: a string without its end. -/
structure CString where
  chars : List Byte
  ends : 0 ∉ chars

def isSeparator (c : Byte) : Bool := c = 0x2F || c = 0x5C

/-- `StringCompare` of the string at `o` with a file name. -/
def stringCompare (b : Buffer) : ℕ → List Byte → Bool
  | o, [] => b o = 0
  | o, c :: cs => b o = c && stringCompare b (o + 1) cs

def lookup (h : Buffer) (name : List Byte) : Option ℕ :=
  (List.range maxDirEntries).find? fun i =>
    present (attributesAt h rootDirectory i) && stringCompare h (nameAt rootDirectory i) name

/-- The image with the table of the directory that the entry `i` points to. -/
def enter (f : File) (h : Buffer) (i : ℕ) : Buffer :=
  f.read (dirPointerAt h rootDirectory i) tableSize h rootDirectory

/-- The loops of `FindEntry` over a path: the characters that are left, whether separators are
skipped, the characters of `FileName` and the image. The result is the entry, by the image and its
number. There is none when `FileName` is too short for a name. -/
def findFrom (f : File) : List Byte → Bool → List Byte → Buffer → Option (Option (Buffer × ℕ))
  | [], _, name, h =>
    if name.length < nameMaxLen then some ((lookup h name).map fun i => (h, i)) else none
  | c :: cs, false, name, h =>
    if isSeparator c then findFrom f cs true name h else findFrom f cs false (name ++ [c]) h
  | c :: cs, true, name, h =>
    if isSeparator c then findFrom f cs true name h
    else if name.length < nameMaxLen then
      match lookup h name with
      | none => some none
      | some i =>
        if directory (attributesAt h rootDirectory i) then findFrom f cs false [c] (enter f h i)
          else some none
    else none

def findEntry (f : File) (h : Buffer) (path : CString) : Option (Option (Buffer × ℕ)) :=
  if path.chars = [] then some none else findFrom f path.chars false [] h

/-- The entry that `Desc` describes. -/
def desc (f : File) (path : CString) : Option (Option (Buffer × ℕ)) :=
  if setfileCheckHeader f.header then findEntry f f.header path else some none

def attributeOf (s : String) : ℕ :=
  if s = "dir" then 2 else if s = "privileged" then 8 else if s = "keydir" then 2 ||| 0x10
  else if s = "readonly" then 0x20 else 0

/-- `SETFILE_PRESENT` and the attributes of the arguments. -/
def attributesOf (args : List String) : ℕ := args.foldl (fun a s => a ||| attributeOf s) 1

/-- `Clusters[x]`: the bit `Present` and the field `Offset` above it. -/
def cluster (h : Buffer) (x : ℕ) : ℕ := getLE h (freeClusterTable + 8 + 8 * x) 8

def nextOffset (h : Buffer) : ℕ := getLE h (freeClusterTable + 8 + 8 * clustersPerTable) 8

/-- `Offset` of the first cluster of the table that is present, or 0. -/
def tableCluster (h : Buffer) : ℕ :=
  match (List.range clustersPerTable).find? fun x => (cluster h x).testBit 0 with
  | some x => cluster h x / 2
  | none => 0

/-- The loop over the free cluster tables, with `n` of them left. The inner result is missing when a
table cannot be read. The taken cluster is marked in the image only. -/
def allocateCluster (f : File) : ℕ → Buffer → Option (Option ℕ)
  | 0, _ => none
  | n + 1, h =>
    if tableCluster h ≠ 0 ∨ nextOffset h = 0 then some (some (tableCluster h))
    else if f.readable (nextOffset h) then
      allocateCluster f n (f.read (nextOffset h) clusterTableSize h freeClusterTable)
    else some none

/-- The characters of `FileName`. -/
def nameBytes (name : List Byte) : Buffer := fun k => name.getD k 0

/-- The image with the new entry `i`. -/
def newEntry (h : Buffer) (i : ℕ) (name : List Byte) (attributes dirPointer : ℕ) : Buffer :=
  let h := clear h (entryAt rootDirectory i) entrySize
  let h := copy h (nameAt rootDirectory i) (nameBytes name) 0 name.length
  let h := setLE h (entryAt rootDirectory i) 8 attributes
  setLE h (entryAt rootDirectory i + 144) 8 dirPointer

/-- The last part of `Create`: the file and what is returned. An entry that is no directory is not
written. A table of free clusters is read from an offset of 64 bits, so that a search which passes
`2 ^ 64` of them has no end. -/
def createEntry (f : File) (args : List String) (name : List Byte) (h : Buffer) (offset : ℕ) :
    Option (File × ℤ) :=
  match (List.range maxDirEntries).find? fun i => !present (attributesAt h rootDirectory i) with
  | none => some (f, -1)
  | some i =>
    if directory (attributesOf args) then
      match allocateCluster f (2 ^ 64 + 1) h with
      | none => none
      | some none => some (f, -1)
      | some (some p) =>
        -- the upper half of the size is shifted away
        let dirPointer := if p = 0 then f.size % 2 ^ 32 ||| (f.size / 2 ^ 32 % 2 ^ 32) >>> 32 else p
        let h := newEntry h i name (attributesOf args) dirPointer
        let f := f.write ((offset + i * entrySize) % 2 ^ 64) entrySize h (entryAt rootDirectory i)
        some (f.write dirPointer tableSize (fun _ => 0) 0, 0)
    else some (f, 0)

/-- The loops of `Create` over a path: the characters that are left, those of `FileName`, the image
and the offset of its table. The offset of a table that is entered is read after the table. -/
def createFrom (f : File) (args : List String) :
    List Byte → List Byte → Buffer → ℕ → Option (File × ℤ)
  | [], name, h, offset =>
    if name.length < nameMaxLen then createEntry f args name h offset else none
  | c :: cs, name, h, offset =>
    if isSeparator c then
      if name.length < nameMaxLen then
        match lookup h name with
        | none => some (f, -1)
        | some i =>
          if directory (attributesAt h rootDirectory i) &&
            f.readable (dirPointerAt h rootDirectory i) then
            createFrom f args cs [] (enter f h i) (dirPointerAt (enter f h i) rootDirectory i)
          else some (f, -1)
      else none
    else createFrom f args cs (name ++ [c]) h offset

/-- `Create`, for the path and the attributes of a command. -/
def create (f : File) (path : CString) (args : List String) : Option (File × ℤ) :=
  if setfileCheckHeader f.header then
    if path.chars.length = 0 ∨ nameMaxLen < path.chars.length then some (f, -1)
    else createFrom f args path.chars [] f.header rootDirectory
  else some (f, -1)

structure Command where
  path : CString
  args : List String

def setfStep (f : File) (c : Command) : Option File := (create f c.path c.args).map Prod.fst

/-- The offsets of the tables. -/
inductive Directory (f : File) : ℕ → Prop
  | root : Directory f rootDirectory
  | sub {table i : ℕ} : Directory f table → i < maxDirEntries →
    present (attributesAt f.bytes table i) = true →
    directory (attributesAt f.bytes table i) = true → Directory f (dirPointerAt f.bytes table i)

/-- The entry `i` of a table is that of a further directory. -/
structure SubDirectory (f : File) (table i : ℕ) : Prop where
  parent : Directory f table
  lt : i < maxDirEntries
  present : present (attributesAt f.bytes table i) = true
  directory : directory (attributesAt f.bytes table i) = true

def blockOf (f : File) (table i : ℕ) : Range := ⟨dirPointerAt f.bytes table i, tableSize⟩

/-- Different directories have different parts of the file. -/
structure DirectoriesApart (f : File) : Prop where
  subs : ∀ t i t' i', SubDirectory f t i → SubDirectory f t' i' → (t, i) ≠ (t', i') →
    Apart (blockOf f t i) (blockOf f t' i')
  root : ∀ t i, SubDirectory f t i → Apart (blockOf f t i) ⟨rootDirectory, tableSize⟩

def CString.lastName (path : CString) : List Byte :=
  ((Pieces.pieces isSeparator path.chars).getLast?).getD []

def Found (f : File) (path : CString) (attributes : ℕ) : Prop :=
  ∃ h i, desc f path = some (some (h, i)) ∧ attributesAt h rootDirectory i = attributes ∧
    stringCompare h (nameAt rootDirectory i) path.lastName = true

/-- The command has a result. When it returns 0, the new entry is found; whatever was found before
is found, and the directories have different parts of the file. -/
def CreateRight (f : File) (c : Command) : Prop :=
  ∃ f' r, create f c.path c.args = some (f', r) ∧ (r = 0 → Found f' c.path (attributesOf c.args)) ∧
    (∀ path a, Found f path a → Found f' path a) ∧ DirectoriesApart f'

def RootFull (f : File) : Prop :=
  ∀ i < maxDirEntries, present (attributesAt f.header rootDirectory i) = true

/-- The command fails, or it creates a directory in the root directory, without an entry of the same
name and other attributes, and with a path that is shorter than `FileName`. -/
def KeepsFile (f : File) (c : Command) : Prop :=
  c.path.chars.length = 0 ∨ nameMaxLen < c.path.chars.length ∨
    match c.path.chars.countP isSeparator with
    | 0 => c.path.chars.length < nameMaxLen ∧ (RootFull f ∨ directory (attributesOf c.args) = true ∧
        ∀ i ∈ lookup f.header c.path.chars,
        attributesAt f.header rootDirectory i = attributesOf c.args)
    | 1 => lookup f.header (c.path.chars.takeWhile fun x => !isSeparator x) = none
    | _ => True

end DevOs.Setfile
