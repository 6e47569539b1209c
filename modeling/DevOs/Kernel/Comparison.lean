import DevOs.Fat32.Names
import DevOs.Files.Exclusive
import DevOs.Kernel.Numbers
import Mathlib.Logic.Relation

/-!
# The comparison of names

`wstrcmp_nocs` of the kernel and `InsensitiveCompareChar` of the file system take two units for the
same when they are so with `a` to `z` in upper case. A file is looked up in a directory by the one,
a library in the table of imported files and an open file in its list by the other, after a
comparison of lengths. So the three take the same names for each other.
-/

namespace DevOs.Kernel

open Bytes (Byte)
open Fat32 (WChar Name upperChar insensitiveCompareChar insensitiveCompareChar_iff nameMatches
  nameMatches_iff)
open Files (sameChar sameChar_iff upper OpenFile matchesPath maxFileName)

/-- The loop of `wstrcmp_nocs` from the unit `i` on, with `n` units left. -/
def wstrcmpNocsFrom (x y : Cells 16) : ℕ → ℕ → BitVec 8
  | 0, _ => 1
  | n + 1, i => if sameChar (x i).toNat (y i).toNat then wstrcmpNocsFrom x y n (i + 1) else 0

def wstrcmpNocs (x y : Cells 16) (size : ℕ) : BitVec 8 := wstrcmpNocsFrom x y size 0

def cells (s : Name) : Cells 16 := fun i => s.getD i 0

/-- `FILE_IMPORT_TYPE`, without the mark for the end of the table. -/
inductive FileImportType where
  | driver
  | dll
  | data
  | setfile
  | deviceDriver
  | fileSystemDriver
deriving DecidableEq, Repr

/-- `FILE_IMPORT_ENTRY`. The length of the base name is kept in an `unsigned short`. -/
structure FileImportEntry where
  type : FileImportType
  baseName : Name
  length_lt : baseName.length < 2 ^ 16

def FileImportEntry.lenBaseName (e : FileImportEntry) : ℕ := e.baseName.length % 2 ^ 16

/-- `WDllName`, from the characters of a name, which are signed. -/
def wDllName (dllname : List Byte) : Name := dllname.map (BitVec.signExtend 16)

/-- The condition in the loop of `Pe64LoadDll` over the table of imported files. -/
def dllMatches (e : FileImportEntry) (dllname : List Byte) : Bool :=
  e.type == .dll && e.lenBaseName == dllname.length &&
    wstrcmpNocs (cells e.baseName) (cells (wDllName dllname)) dllname.length != 0

/-- `oskrnlx64.exe` -/
def importOskrnlx64 : List Byte :=
  [0x6F, 0x73, 0x6B, 0x72, 0x6E, 0x6C, 0x78, 0x36, 0x34, 0x2E, 0x65, 0x78, 0x65]

/-- Where a library is taken from. -/
inductive Library where
  | kernel
  | entry (i : ℕ)
deriving DecidableEq, Repr

/-- The search of `Pe64LoadDll`. The kernel is not in the table, and it has to be spelled like this.
A library that is not found stops the machine, and a name that is longer than `WDllName` is written
behind it. -/
def findLibrary (table : List FileImportEntry) (dllname : List Byte) : Option Library :=
  if maxFileName ≤ dllname.length then none
  else if dllname = importOskrnlx64 then some .kernel
  else (table.findIdx? fun e => dllMatches e dllname).map .entry

variable {x y : Cells 16} {n : ℕ} {a b : Name}

theorem upper_toNat (c : WChar) : upper c.toNat = (upperChar c).toNat := by
  rw [upper, Files.isLower, upperChar]
  simp only [Bool.and_eq_true, decide_eq_true_eq, BitVec.le_def]
  split_ifs with h h'
  · bv_omega
  · exact absurd h h'
  · rename_i h'
    exact absurd h' h
  · rfl

theorem sameChar_toNat (c d : WChar) :
    sameChar c.toNat d.toNat = true ↔ upperChar c = upperChar d := by
  rw [sameChar_iff, upper_toNat, upper_toNat, BitVec.toNat_inj]

theorem wstrcmpNocsFrom_ne_zero_iff (i : ℕ) :
    wstrcmpNocsFrom x y n i ≠ 0 ↔ ∀ j < n, upperChar (x (i + j)) = upperChar (y (i + j)) := by
  induction n generalizing i with
  | zero => exact iff_of_true (by decide : (1 : BitVec 8) ≠ 0) fun j hj =>
      absurd hj (Nat.not_lt_zero j)
  | succ n ih =>
    rw [wstrcmpNocsFrom]
    by_cases h : sameChar (x i).toNat (y i).toNat = true
    · rw [if_pos h, ih, Nat.forall_lt_succ_left]
      simp only [Nat.add_zero, (sameChar_toNat _ _).mp h, true_and, Nat.add_assoc, Nat.add_comm 1]
    · rw [if_neg h]
      refine iff_of_false (not_not.mpr rfl) fun hall => h ?_
      exact (sameChar_toNat _ _).mpr (hall 0 (Nat.succ_pos n))

theorem wstrcmpNocs_ne_zero_iff :
    wstrcmpNocs x y n ≠ 0 ↔ ∀ i < n, upperChar (x i) = upperChar (y i) := by
  rw [wstrcmpNocs, wstrcmpNocsFrom_ne_zero_iff]
  simp only [Nat.zero_add]

theorem wstrcmpNocs_equivalence (n : ℕ) :
    Equivalence fun x y : Cells 16 => wstrcmpNocs x y n ≠ 0 := by
  simp only [wstrcmpNocs_ne_zero_iff]
  exact ⟨fun _ _ _ => rfl, fun h i hi => (h i hi).symm, fun h h' i hi => (h i hi).trans (h' i hi)⟩

theorem insensitiveCompareChar_equivalence :
    Equivalence fun c d : WChar => insensitiveCompareChar c d = true := by
  simp only [insensitiveCompareChar_iff]
  exact eq_equivalence.comap upperChar

theorem insensitiveCompareChar_iff_wstrcmpNocs (c d : WChar) :
    insensitiveCompareChar c d = true ↔ wstrcmpNocs (fun _ => c) (fun _ => d) 1 ≠ 0 := by
  rw [insensitiveCompareChar_iff, wstrcmpNocs_ne_zero_iff]
  exact ⟨fun h _ _ => h, fun h => h 0 Nat.one_pos⟩

theorem wstrcmpNocs_cells (h : a.length = b.length) :
    wstrcmpNocs (cells a) (cells b) b.length ≠ 0 ↔ nameMatches a b = true := by
  rw [wstrcmpNocs_ne_zero_iff, nameMatches_iff]
  constructor
  · intro hall
    refine List.ext_getElem (by rw [List.length_map, List.length_map, h]) fun i ha hb => ?_
    rw [List.length_map] at ha hb
    have hi := hall i hb
    rw [cells, cells, List.getD_eq_getElem _ _ ha, List.getD_eq_getElem _ _ hb] at hi
    rw [List.getElem_map, List.getElem_map, hi]
  · intro hmap i hi
    have ha : i < a.length := h ▸ hi
    have hget := congrArg (fun l => l[i]?) hmap
    simp only [List.getElem?_map, List.getElem?_eq_getElem ha, List.getElem?_eq_getElem hi,
      Option.map_some, Option.some.injEq] at hget
    rw [cells, cells, List.getD_eq_getElem _ _ ha, List.getD_eq_getElem _ _ hi, hget]

theorem length_eq_of_nameMatches (h : nameMatches a b = true) : a.length = b.length := by
  have hmap := congrArg List.length ((nameMatches_iff a b).mp h)
  rwa [List.length_map, List.length_map] at hmap

theorem lengths_and_wstrcmpNocs (a b : Name) :
    (a.length == b.length && wstrcmpNocs (cells a) (cells b) b.length != 0) = nameMatches a b := by
  rw [Bool.eq_iff_iff, Bool.and_eq_true, beq_iff_eq, bne_iff_ne]
  constructor
  · rintro ⟨hlen, hcmp⟩
    exact (wstrcmpNocs_cells hlen).mp hcmp
  · intro h
    have hlen := length_eq_of_nameMatches h
    exact ⟨hlen, (wstrcmpNocs_cells hlen).mpr h⟩

theorem dllMatches_eq (e : FileImportEntry) (dllname : List Byte) :
    dllMatches e dllname = (e.type == .dll && nameMatches e.baseName (wDllName dllname)) := by
  have hlen : e.lenBaseName = e.baseName.length := Nat.mod_eq_of_lt e.length_lt
  have hwide : (wDllName dllname).length = dllname.length := List.length_map _
  rw [dllMatches, hlen, ← hwide, Bool.and_assoc, lengths_and_wstrcmpNocs]

def units (s : Name) : List ℕ := s.map BitVec.toNat

theorem samePath_units (a b : Name) :
    Files.SamePath (units a) (units b) ↔ nameMatches a b = true := by
  have hunits (s : Name) : (units s).map upper = units (s.map upperChar) := by
    rw [units, units, List.map_map, List.map_map]
    exact List.map_congr_left fun c _ => upper_toNat c
  rw [Files.SamePath, hunits, hunits, nameMatches_iff]
  exact (List.map_injective_iff.mpr fun _ _ => BitVec.eq_of_toNat_eq).eq_iff

theorem matchesPath_eq (f : OpenFile) (a b : Name) :
    matchesPath (units b) { f with
      isOpen := true, path := units a, pathLength := (units a).length } =
      nameMatches a b := by
  rw [Bool.eq_iff_iff, matchesPath, Bool.true_and, Bool.and_eq_true, beq_iff_eq]
  constructor
  · rintro ⟨hlen, hcmp⟩
    exact (samePath_units a b).mp ((Files.wstrcmpNocs_iff _ _ hlen).mp hcmp)
  · intro h
    have hlen : (units a).length = (units b).length := by
      rw [units, units, List.length_map, List.length_map, length_eq_of_nameMatches h]
    exact ⟨hlen, (Files.wstrcmpNocs_iff _ _ hlen).mpr ((samePath_units a b).mpr h)⟩

/-- A library is the first one of the table with a name that a search in a directory would take for
it. -/
theorem findLibrary_eq_entry {table : List FileImportEntry} {dllname : List Byte} {i : ℕ}
    (h : findLibrary table dllname = some (.entry i)) :
    ∃ hi : i < table.length, (table[i].type = .dll ∧
      nameMatches table[i].baseName (wDllName dllname) = true) ∧
      ∀ j (hj : j < i), ¬(table[j].type = .dll ∧
        nameMatches table[j].baseName (wDllName dllname) = true) := by
  have hmatches (e : FileImportEntry) : dllMatches e dllname = true ↔
      e.type = .dll ∧ nameMatches e.baseName (wDllName dllname) = true := by
    rw [dllMatches_eq, Bool.and_eq_true, beq_iff_eq]
  rw [findLibrary] at h
  split_ifs at h with hlong hkernel
  · cases h
  · obtain ⟨j, hj, hij⟩ := Option.map_eq_some_iff.mp h
    cases hij
    obtain ⟨hi, hmatch, hfirst⟩ := List.findIdx?_eq_some_iff_getElem.mp hj
    exact ⟨hi, (hmatches _).mp hmatch, fun k hk hsame => hfirst k hk ((hmatches _).mpr hsame)⟩

/-- The two functions compare with `a` to `z` in upper case, their relations are equivalences, and a
directory, the table of imported files and the list of open files take the same names for each
other. -/
theorem wstrcmpNocs_right :
    (∀ (x y : Cells 16) (n : ℕ), wstrcmpNocs x y n ≠ 0 ↔
      ∀ i < n, upperChar (x i) = upperChar (y i)) ∧
    (∀ c d : WChar, insensitiveCompareChar c d = true ↔
      wstrcmpNocs (fun _ => c) (fun _ => d) 1 ≠ 0) ∧
    (∀ n, Equivalence fun x y : Cells 16 => wstrcmpNocs x y n ≠ 0) ∧
    (Equivalence fun c d : WChar => insensitiveCompareChar c d = true) ∧
    (∀ (e : FileImportEntry) (dllname : List Byte),
      dllMatches e dllname = (e.type == .dll && nameMatches e.baseName (wDllName dllname))) ∧
    ∀ (f : OpenFile) (a b : Name),
      matchesPath (units b) { f with
        isOpen := true, path := units a, pathLength := (units a).length } =
        nameMatches a b :=
  ⟨fun _ _ _ => wstrcmpNocs_ne_zero_iff, insensitiveCompareChar_iff_wstrcmpNocs,
    wstrcmpNocs_equivalence, insensitiveCompareChar_equivalence, dllMatches_eq, matchesPath_eq⟩

end DevOs.Kernel
