import Mathlib.Data.List.FinRange
import Mathlib.Algebra.Order.Ring.Nat
import Mathlib.Tactic.Common

/-!
# Open files of a partition

A partition has a chain of lists of `UNITS_PER_LIST` files, of which the first is a part of the
partition. A `FILE` is a pointer into this chain: the number of the list and the index in it.
Characters are numbers below `2 ^ 16`, and a path is given without its terminator. A function of the
kernel returns `none` when it reads through a `NULL` pointer or writes behind a buffer. Handles and
pool memory are left out.
-/

namespace DevOs.Files

abbrev unitsPerList : ℕ := 120

instance neZero_units : NeZero unitsPerList := ⟨by decide⟩

def maxFileName : ℕ := 255

def fileOpenWrite : ℕ := 2
def fileOpenSetInformation : ℕ := 4

def has (access flag : ℕ) : Bool := access &&& flag != 0

def isSeparator (c : ℕ) : Bool := c == 0x2F || c == 0x5C

/-- The loop of `FixFilePath`. The flag is `SeparatorFound`: separators are skipped. -/
def fixLoop : Bool → List ℕ → List ℕ
  | _, [] => []
  | true, c :: cs => if isSeparator c then fixLoop true cs else c :: fixLoop false cs
  | false, c :: cs =>
    if isSeparator c then
      -- a separator at the end is left out
      if cs = [] then [] else 0x2F :: fixLoop true cs
    else c :: fixLoop false cs

def fixFilePath (path : List ℕ) : List ℕ := fixLoop true path

def isLower (c : ℕ) : Bool := 0x61 ≤ c && c ≤ 0x7A
def isUpper (c : ℕ) : Bool := 0x41 ≤ c && c ≤ 0x5A

/-- The characters are the same for `wstrcmp_nocs`. -/
def sameChar (x y : ℕ) : Bool :=
  if isLower x then if isLower y then x == y else x - 32 == y
  else if isUpper x then if isUpper y then x == y else x + 32 == y
  else x == y

def wstrcmpNocs : List ℕ → List ℕ → ℕ → Bool
  | _, _, 0 => true
  | x :: xs, y :: ys, n + 1 => sameChar x y && wstrcmpNocs xs ys n
  | _, _, _ + 1 => false

/-- `OPEN_FILE_DATA`. -/
structure OpenFile where
  isOpen : Bool
  fileId : ℕ
  process : ℕ
  path : List ℕ
  pathLength : ℕ
  openAccess : ℕ
deriving DecidableEq, Repr

def zeroFile : OpenFile := ⟨false, 0, 0, [], 0, 0⟩

abbrev FileArray := Fin unitsPerList → OpenFile

abbrev OpenFileList := List FileArray

abbrev File := ℕ × Fin unitsPerList

def zeroFiles : FileArray := fun _ => zeroFile

def emptyList : OpenFileList := [zeroFiles]

def fileAt (list : OpenFileList) (file : File) : OpenFile := list.getD file.1 zeroFiles file.2

def setFile (list : OpenFileList) (file : File) (f : OpenFile) : OpenFileList :=
  list.modify file.1 fun files => Function.update files file.2 f

def findFile (p : OpenFile → Bool) : OpenFileList → Option File
  | [] => none
  | files :: next =>
    match (List.finRange unitsPerList).find? fun i => p (files i) with
    | some i => some (0, i)
    | none => (findFile p next).map fun file => (file.1 + 1, file.2)

def matchesPath (path : List ℕ) (f : OpenFile) : Bool :=
  f.isOpen && f.pathLength == path.length && wstrcmpNocs f.path path path.length

def findOpenFilePath (list : OpenFileList) (path : List ℕ) : Option File :=
  if path.length = 0 then none else findFile (matchesPath path) list

/-- The first closed file. When the first list is full, the list behind it is replaced by an empty
one, and there has to be one. -/
def allocateFile : OpenFileList → Option (OpenFileList × File)
  | [] => none
  | files :: next =>
    match (List.finRange unitsPerList).find? fun i => !(files i).isOpen with
    | some i =>
        some (Function.update files i { zeroFile with isOpen := true, fileId := i } :: next, (0, i))
    | none =>
      match next with
      | [] => none
      | _ :: _ =>
        let file := { zeroFile with isOpen := true, fileId := unitsPerList }
        some ([files, Function.update zeroFiles 0 file], (1, 0))

def refused (access : ℕ) (f : OpenFile) : Bool :=
  has access fileOpenWrite && has f.openAccess fileOpenWrite ||
    has access fileOpenSetInformation && has f.openAccess fileOpenSetInformation

/-- The part of `DefaultOpenFile` that makes a new entry. `info` is the success of the file system's
`GetInfo`. -/
def newFile (list : OpenFileList) (process : ℕ) (copy : List ℕ) (access : ℕ) (info : Bool) :
    Option (OpenFileList × Option File) :=
  (allocateFile list).map fun (list, file) =>
    let f := fileAt list file
    let f :=
      { f with openAccess := access % 2 ^ 32, path := copy, pathLength := copy.length, process }
    if info then (setFile list file f, some file) else (setFile list file zeroFile, none)

/-- The result is the new list and the file, or `NULL`. -/
def defaultOpenFile (list : OpenFileList) (process : ℕ) (path : List ℕ) (access : ℕ) (info : Bool) :
    Option (OpenFileList × Option File) :=
  if path = [] then some (list, none)
  else if maxFileName ≤ path.length then none
  else
    let copy := fixFilePath path
    let found :=
      if has access (fileOpenWrite ||| fileOpenSetInformation) then findOpenFilePath list copy
        else none
    match found with
    | some file =>
      let f := fileAt list file
      if f.process = process then
        some (setFile list file { f with openAccess := (f.openAccess ||| access) % 2 ^ 32 },
          some file)
      else if refused access f then some (list, none)
      else newFile list process copy access info
    | none => newFile list process copy access info

def defaultCloseFile (list : OpenFileList) (file : File) : Option OpenFileList :=
  if (fileAt list file).isOpen then some (setFile list file zeroFile) else none

/-- A call by a process. -/
inductive Call where
  | openFile (process : ℕ) (path : List ℕ) (access : ℕ) (info : Bool)
  | closeFile (file : File)

def step (list : OpenFileList) : Call → Option OpenFileList
  | .openFile process path access info =>
    (defaultOpenFile list process path access info).map Prod.fst
  | .closeFile file => defaultCloseFile list file

end DevOs.Files
