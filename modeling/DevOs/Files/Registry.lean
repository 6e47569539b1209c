import DevOs.Files.Exclusive
import Mathlib.Data.Finset.Card
import Mathlib.Data.Fintype.Basic

/-!
# The registry of open files

`AllocateFile` takes the first closed entry of a list of files. When the first list is full it goes
on to the list behind it, and it makes that list only when there is one already: the test of `Next`
is the wrong way round. A list starts without a second one, so it never gets one, and the call with
120 open files reads through a `NULL` pointer. With a closed entry in the list the call does what it
should, and the validator accepts exactly the open files.
-/

namespace DevOs.Files

open Runs

/-- A list of files, with `Handle` of every entry and whether its `FileList` leads to the list. -/
structure Registry where
  list : OpenFileList
  handle : File → Option ℕ
  fileList : File → Bool

/-- A pointer that `ValidateFile` gets: `NULL`, an entry of the list, or a record that lies
elsewhere, with whether its `FileList` leads to the list. -/
inductive FilePointer where
  | null
  | entry (file : File)
  | other (f : OpenFile) (fileList : Bool)
deriving DecidableEq

namespace Registry

def initial : Registry := ⟨emptyList, fun _ => none, fun _ => false⟩

/-- `AllocateFile` -/
def allocate (r : Registry) : Option (Registry × File) :=
  (allocateFile r.list).map fun (list, file) =>
    -- a second list that is made anew has cleared entries
    let replaced (a : File) : Bool := file.1 != 0 && a.1 != 0
    (⟨list, Function.update (fun a => if replaced a then none else r.handle a) file none,
      Function.update (fun a => if replaced a then false else r.fileList a) file true⟩, file)

/-- `SZeroMemory` of an entry. -/
def clear (r : Registry) (file : File) : Registry :=
  ⟨setFile r.list file zeroFile, Function.update r.handle file none,
    Function.update r.fileList file false⟩

/-- `ReleaseFile`. A handle that closes its file clears the same entry. -/
def releaseFile (file : Option File) (r : Registry) : Registry × Bool :=
  match file with
  | none => (r, false)
  | some a => (r.clear a, true)

/-- `DefaultCloseFile`. It writes through the handle. -/
def defaultCloseFile (file : File) (r : Registry) : Option Registry :=
  (r.handle file).map fun _ => r.clear file

def fill (file : File) (process : ℕ) (path : List ℕ) (pathLength openAccess : ℕ) (handle : Option ℕ)
    (r : Registry) : Registry :=
  { r with
    list := setFile r.list file { fileAt r.list file with process, path, pathLength, openAccess }
    handle := Function.update r.handle file handle }

/-- The record at a pointer, and whether its `FileList` leads to the list. -/
def record (r : Registry) : FilePointer → OpenFile × Bool
  | .null => (zeroFile, false)
  | .entry a => (fileAt r.list a, r.fileList a)
  | .other f fileList => (f, fileList)

def validateFile (r : Registry) (file : FilePointer) : Bool :=
  if file = .null || !(r.record file).1.isOpen || !(r.record file).2 then false
  else
    let listIndex := (r.record file).1.fileId / unitsPerList
    let index := Fin.ofNat unitsPerList ((r.record file).1.fileId % unitsPerList)
    if listIndex < r.list.length then decide (FilePointer.entry (listIndex, index) = file)
      else false

end Registry

inductive RegistryCall where
  | allocate
  | release (file : Option File)
  | close (file : File)
  | fill (file : File) (process : ℕ) (path : List ℕ) (pathLength openAccess : ℕ) (handle : Option ℕ)

def RegistryCall.run (r : Registry) : RegistryCall → Option Registry
  | .allocate => r.allocate.map Prod.fst
  | .release file => some (r.releaseFile file).1
  | .close file => r.defaultCloseFile file
  | .fill file process path pathLength openAccess handle =>
    some (r.fill file process path pathLength openAccess handle)

namespace Registry

variable {r r' : Registry} {a b : File} {p : FilePointer}

def openFile (r : Registry) (a : File) : Option (OpenFile × Option ℕ × Bool) :=
  if (fileAt r.list a).isOpen then some (fileAt r.list a, r.handle a, r.fileList a) else none

/-- What a registry promises: a new file is an entry that was closed, with an id that no open file
has, all open files stay as they are, and the validator accepts the open files and nothing else. -/
structure Registered (r : Registry) : Prop where
  allocated : ∃ r' a, r.allocate = some (r', a) ∧ r.openFile a = none ∧ r'.openFile a ≠ none ∧
    (∀ b, b ≠ a → r'.openFile b = r.openFile b) ∧
    ∀ b f, r.openFile b = some f → f.1.fileId ≠ (fileAt r'.list a).fileId
  validated : ∀ p, r.validateFile p = true ↔ ∃ a, p = .entry a ∧ r.openFile a ≠ none

/-- What every call keeps: there is one list, and an open file has the number of its place. -/
structure Numbered (r : Registry) : Prop where
  length : r.list.length = 1
  numbered : ∀ a, (fileAt r.list a).isOpen = true →
    (fileAt r.list a).fileId = a.1 * unitsPerList + a.2
  listed : ∀ a, (fileAt r.list a).isOpen = true → r.fileList a = true

theorem openFile_ne_none : r.openFile a ≠ none ↔ (fileAt r.list a).isOpen = true := by
  rw [openFile]
  by_cases h : (fileAt r.list a).isOpen = true
  · rw [if_pos h]
    exact iff_of_true (Option.some_ne_none _) h
  · rw [if_neg h]
    exact iff_of_false (not_not.mpr rfl) h

theorem openFile_eq_some {f : OpenFile × Option ℕ × Bool} (h : r.openFile a = some f) :
    (fileAt r.list a).isOpen = true ∧ f.1 = fileAt r.list a := by
  rw [openFile] at h
  split at h
  · next hopen =>
    cases h
    exact ⟨hopen, rfl⟩
  · cases h

theorem validateFile_entry :
    r.validateFile (.entry a) = true ↔ (fileAt r.list a).isOpen = true ∧ r.fileList a = true ∧
      (fileAt r.list a).fileId / unitsPerList < r.list.length ∧
      ((fileAt r.list a).fileId / unitsPerList,
        Fin.ofNat unitsPerList ((fileAt r.list a).fileId % unitsPerList)) = a := by
  have hne : FilePointer.entry a ≠ .null := nofun
  rw [validateFile, record]
  dsimp only
  rw [decide_eq_false hne, Bool.false_or]
  cases hopen : (fileAt r.list a).isOpen with
  | false =>
    rw [if_pos (by rfl)]
    exact ⟨nofun, fun h => absurd h.1 Bool.false_ne_true⟩
  | true =>
    cases hlisted : r.fileList a with
    | false =>
      rw [if_pos (by rfl)]
      exact ⟨nofun, fun h => absurd h.2.1 Bool.false_ne_true⟩
    | true =>
      rw [if_neg (by decide)]
      split
      · next hlt =>
        rw [decide_eq_true_iff, FilePointer.entry.injEq]
        exact ⟨fun h => ⟨rfl, rfl, hlt, h⟩, fun h => h.2.2.2⟩
      · next hlt => exact ⟨nofun, fun h => absurd h.2.2.1 hlt⟩

theorem entry_of_validateFile (h : r.validateFile p = true) : ∃ a, p = .entry a := by
  cases p with
  | entry a => exact ⟨a, rfl⟩
  | null => cases h
  | other f listed =>
    rw [validateFile] at h
    split at h
    · cases h
    · dsimp only at h
      split at h
      · cases of_decide_eq_true h
      · cases h

theorem Numbered.validated (h : r.Numbered) :
    r.validateFile p = true ↔ ∃ a, p = .entry a ∧ r.openFile a ≠ none := by
  constructor
  · intro hvalid
    obtain ⟨a, rfl⟩ := entry_of_validateFile hvalid
    exact ⟨a, rfl, openFile_ne_none.mpr (validateFile_entry.mp hvalid).1⟩
  · rintro ⟨a, rfl, hopen⟩
    rw [openFile_ne_none] at hopen
    have hlt : (a.2 : ℕ) < 120 := a.2.isLt
    have hdiv : (a.1 * unitsPerList + a.2) / unitsPerList = a.1 := by
      change (a.1 * 120 + a.2) / 120 = a.1
      omega
    have hmod : (a.1 * unitsPerList + a.2) % unitsPerList = a.2 := by
      change (a.1 * 120 + a.2) % 120 = a.2
      omega
    refine validateFile_entry.mpr ⟨hopen, h.listed a hopen, ?_, ?_⟩
    · rw [h.numbered a hopen, hdiv]
      exact lt_of_isOpen hopen
    · rw [h.numbered a hopen, hdiv, hmod]
      exact Prod.ext rfl (Fin.ext (Nat.mod_eq_of_lt hlt))

/-- One list: the call takes a closed entry, or there is none and it reads through `NULL`. -/
theorem allocateFile_single {list : OpenFileList} (h : list.length = 1) :
    (∃ i : Fin unitsPerList, (fileAt list (0, i)).isOpen = false ∧
      allocateFile list = some (setFile list (0, i) { zeroFile with isOpen := true, fileId := i },
        (0, i))) ∨
    (∀ i : Fin unitsPerList, (fileAt list (0, i)).isOpen = true) ∧ allocateFile list = none := by
  obtain ⟨files, rfl⟩ := List.length_eq_one_iff.mp h
  rw [allocateFile]
  cases hfind : (List.finRange unitsPerList).find? fun i => !(files i).isOpen with
  | some i =>
    have hclosed := List.find?_some hfind
    rw [Bool.not_eq_true'] at hclosed
    exact Or.inl ⟨i, hclosed, rfl⟩
  | none =>
    right
    refine ⟨fun i => ?_, rfl⟩
    have hall := List.find?_eq_none.mp hfind i (List.mem_finRange i)
    rw [Bool.not_eq_true, Bool.not_eq_false'] at hall
    exact hall

def newEntry (i : Fin unitsPerList) : OpenFile := { zeroFile with isOpen := true, fileId := i }

def opened (r : Registry) (a : File) : Registry :=
  ⟨setFile r.list a (newEntry a.2), Function.update r.handle a none,
    Function.update r.fileList a true⟩

theorem Numbered.allocate_cases (h : r.Numbered) :
    (∃ i : Fin unitsPerList, (fileAt r.list (0, i)).isOpen = false ∧
      r.allocate = some (r.opened (0, i), (0, i))) ∨
    (∀ i : Fin unitsPerList, (fileAt r.list (0, i)).isOpen = true) ∧ r.allocate = none := by
  rcases allocateFile_single h.length with ⟨i, hclosed, halloc⟩ | ⟨hfull, halloc⟩
  · refine Or.inl ⟨i, hclosed, ?_⟩
    rw [allocate, halloc]
    rfl
  · refine Or.inr ⟨hfull, ?_⟩
    rw [allocate, halloc]
    rfl

theorem Numbered.opened_openFile (h : r.Numbered) (i : Fin unitsPerList) (b : File) :
    (r.opened (0, i)).openFile b =
      if b = (0, i) then some (newEntry i, none, true) else r.openFile b := by
  have hlt : ((0, i) : File).1 < r.list.length := by
    rw [h.length]
    exact Nat.one_pos
  by_cases hb : b = (0, i)
  · have hfile : fileAt (r.opened (0, i)).list (0, i) = newEntry i := fileAt_setFile_self hlt
    have hhandle : (r.opened (0, i)).handle (0, i) = none := Function.update_self _ _ _
    have hlisted : (r.opened (0, i)).fileList (0, i) = true := Function.update_self _ _ _
    rw [if_pos hb, hb, openFile, hfile, hhandle, hlisted]
    exact if_pos rfl
  · have hfile : fileAt (r.opened (0, i)).list b = fileAt r.list b := fileAt_setFile_of_ne hb
    have hhandle : (r.opened (0, i)).handle b = r.handle b := Function.update_of_ne hb _ _
    have hlisted : (r.opened (0, i)).fileList b = r.fileList b := Function.update_of_ne hb _ _
    rw [if_neg hb, openFile, openFile, hfile, hhandle, hlisted]

theorem Numbered.registered_iff (h : r.Numbered) :
    r.Registered ↔ ∃ i : Fin unitsPerList, (fileAt r.list (0, i)).isOpen = false := by
  constructor
  · intro hr
    obtain ⟨r', a, halloc, -⟩ := hr.allocated
    rcases h.allocate_cases with ⟨i, hclosed, -⟩ | ⟨-, hnone⟩
    · exact ⟨i, hclosed⟩
    · rw [hnone] at halloc
      cases halloc
  · rintro ⟨k, hk⟩
    refine ⟨?_, fun p => h.validated⟩
    rcases h.allocate_cases with ⟨i, hclosed, halloc⟩ | ⟨hfull, -⟩
    · refine ⟨_, _, halloc, ?_, ?_, fun b hb => ?_, fun b f hf hid => ?_⟩
      · rw [openFile, hclosed, if_neg Bool.false_ne_true]
      · rw [h.opened_openFile, if_pos rfl]
        exact Option.some_ne_none _
      · rw [h.opened_openFile, if_neg hb]
      · obtain ⟨hopen, hfile⟩ := openFile_eq_some hf
        have hlt : ((0, i) : File).1 < r.list.length := by
          rw [h.length]
          exact Nat.one_pos
        have hnew : (fileAt (r.opened (0, i)).list (0, i)).fileId = i :=
          congrArg OpenFile.fileId (fileAt_setFile_self hlt)
        rw [hfile, hnew, h.numbered b hopen] at hid
        have hb : b.1 < r.list.length := lt_of_isOpen hopen
        rw [h.length] at hb
        have hb0 : b.1 = 0 := Nat.lt_one_iff.mp hb
        rw [hb0, Nat.zero_mul, Nat.zero_add] at hid
        have heq : b = (0, i) := Prod.ext hb0 (Fin.ext hid)
        rw [heq, hclosed] at hopen
        cases hopen
    · rw [hfull k] at hk
      cases hk

theorem numbered_initial : initial.Numbered where
  length := rfl
  numbered := fun a ha => by
    rw [initial, fileAt_emptyList] at ha
    cases ha
  listed := fun a ha => by
    rw [initial, fileAt_emptyList] at ha
    cases ha

theorem Numbered.opened (h : r.Numbered) (i : Fin unitsPerList) : (r.opened (0, i)).Numbered := by
  have hlt : ((0, i) : File).1 < r.list.length := by
    rw [h.length]
    exact Nat.one_pos
  refine ⟨(length_setFile _ _ _).trans h.length, fun b hb => ?_, fun b hb => ?_⟩
  · by_cases hbi : b = (0, i)
    · rw [hbi, Registry.opened, fileAt_setFile_self hlt, Nat.zero_mul, Nat.zero_add]
      rfl
    · rw [Registry.opened, fileAt_setFile_of_ne hbi] at hb ⊢
      exact h.numbered b hb
  · by_cases hbi : b = (0, i)
    · rw [hbi]
      exact Function.update_self _ _ _
    · rw [Registry.opened, fileAt_setFile_of_ne hbi] at hb
      exact (Function.update_of_ne hbi _ _).trans (h.listed b hb)

theorem Numbered.clear (h : r.Numbered) (a : File) : (r.clear a).Numbered := by
  have hother : ∀ b, (fileAt (r.clear a).list b).isOpen = true → b ≠ a ∧
      (fileAt r.list b).isOpen = true := by
    intro b hb
    by_cases hba : b = a
    · subst hba
      have hlt := lt_of_isOpen hb
      rw [Registry.clear, length_setFile] at hlt
      rw [Registry.clear, fileAt_setFile_self hlt] at hb
      cases hb
    · rw [Registry.clear, fileAt_setFile_of_ne hba] at hb
      exact ⟨hba, hb⟩
  refine ⟨(length_setFile _ _ _).trans h.length, fun b hb => ?_, fun b hb => ?_⟩
  · obtain ⟨hba, hopen⟩ := hother b hb
    rw [Registry.clear, fileAt_setFile_of_ne hba]
    exact h.numbered b hopen
  · obtain ⟨hba, hopen⟩ := hother b hb
    exact (Function.update_of_ne hba _ _).trans (h.listed b hopen)

theorem Numbered.fill (h : r.Numbered) (a : File) (process : ℕ) (path : List ℕ)
    (pathLength openAccess : ℕ) (handle : Option ℕ) :
    (r.fill a process path pathLength openAccess handle).Numbered := by
  have hsame : ∀ b, (fileAt (r.fill a process path pathLength openAccess handle).list b).isOpen =
        (fileAt r.list b).isOpen ∧
      (fileAt (r.fill a process path pathLength openAccess handle).list b).fileId =
          (fileAt r.list b).fileId := by
    intro b
    rw [Registry.fill]
    dsimp only
    by_cases hba : b = a
    · subst hba
      by_cases hlt : b.1 < r.list.length
      · rw [fileAt_setFile_self hlt]
        exact ⟨rfl, rfl⟩
      · have hge := Nat.le_of_not_lt hlt
        rw [fileAt, List.getD_eq_default _ _ (by rw [length_setFile]; exact hge), fileAt,
          List.getD_eq_default _ _ hge]
        exact ⟨rfl, rfl⟩
    · rw [fileAt_setFile_of_ne hba]
      exact ⟨rfl, rfl⟩
  refine ⟨(length_setFile _ _ _).trans h.length, fun b hb => ?_, fun b hb => ?_⟩
  · rw [(hsame b).1] at hb
    rw [(hsame b).2]
    exact h.numbered b hb
  · rw [(hsame b).1] at hb
    exact h.listed b hb

theorem Numbered.run (h : r.Numbered) {c : RegistryCall} (hs : c.run r = some r') :
    r'.Numbered := by
  cases c with
  | allocate =>
    obtain ⟨⟨r₁, a⟩, halloc, rfl⟩ := Option.map_eq_some_iff.mp hs
    rcases h.allocate_cases with ⟨i, -, hi⟩ | ⟨-, hnone⟩
    · rw [hi] at halloc
      cases halloc
      exact h.opened i
    · rw [hnone] at halloc
      cases halloc
  | release file =>
    obtain rfl := Option.some.inj hs
    cases file with
    | none => exact h
    | some a => exact h.clear a
  | close a =>
    obtain ⟨x, -, rfl⟩ := Option.map_eq_some_iff.mp hs
    exact h.clear a
  | fill a process path pathLength openAccess handle =>
    obtain rfl := Option.some.inj hs
    exact h.fill a process path pathLength openAccess handle

end Registry

open Registry

/-- In every state that the calls reach, the registry of files keeps its promise if and only if an
entry of its first list is closed. -/
theorem files_registered_iff (r : Registry) (h : Reaches RegistryCall.run anyStep .initial r) :
    r.Registered ↔ ∃ i : Fin unitsPerList, (fileAt r.list (0, i)).isOpen = false :=
  (h.invariant (fun _ _ _ hi _ hs => hi.run hs) numbered_initial).registered_iff

/-- Three files are opened, the second one is released and a fourth takes its entry. -/
def openedFiles : List RegistryCall :=
  [.allocate, .allocate, .allocate, .release (some (0, 1)), .allocate]

theorem openedFiles_registered : ∃ r, Reaches RegistryCall.run anyStep .initial r ∧
    (List.finRange unitsPerList).countP (fun i => (fileAt r.list (0, i)).isOpen) = 3 ∧
    r.Registered := by
  have hrun : (guardedRun RegistryCall.run anyStep .initial openedFiles).map
      (fun r => (List.finRange unitsPerList).countP fun i => (fileAt r.list (0, i)).isOpen) =
      some 3 := by
    decide +kernel
  obtain ⟨r, hs, hcount⟩ := Option.map_eq_some_iff.mp hrun
  have hr := reaches_of_guardedRun _ hs
  refine ⟨r, hr, hcount, (files_registered_iff r hr).mpr ?_⟩
  by_contra hall
  have hfull : (List.finRange unitsPerList).countP (fun i => (fileAt r.list (0, i)).isOpen) =
      unitsPerList := by
    rw [List.countP_eq_length.mpr, List.length_finRange]
    intro i _
    exact Bool.eq_true_of_not_eq_false fun hi => hall ⟨i, hi⟩
  rw [hcount] at hfull
  exact absurd hfull (by decide)

def closedEntries (r : Registry) : Finset (Fin unitsPerList) :=
  Finset.univ.filter fun i => (fileAt r.list (0, i)).isOpen = false

theorem closedEntries_opened {r : Registry} (h : r.Numbered) {i : Fin unitsPerList}
    (hi : (fileAt r.list (0, i)).isOpen = false) :
    (closedEntries (r.opened (0, i))).card < (closedEntries r).card := by
  have hlt : ((0, i) : File).1 < r.list.length := by
    rw [h.length]
    exact Nat.one_pos
  refine Finset.card_lt_card (Finset.ssubset_iff_of_subset ?_ |>.mpr ⟨i, ?_, ?_⟩)
  · intro k hk
    rw [closedEntries, Finset.mem_filter] at hk ⊢
    refine ⟨Finset.mem_univ k, ?_⟩
    by_cases hki : k = i
    · rw [hki]
      exact hi
    · have hne : ((0, k) : File) ≠ (0, i) := fun heq => hki (congrArg Prod.snd heq)
      rw [← hk.2, opened, fileAt_setFile_of_ne hne]
  · rw [closedEntries, Finset.mem_filter]
    exact ⟨Finset.mem_univ i, hi⟩
  · rw [closedEntries, Finset.mem_filter, opened, fileAt_setFile_self hlt]
    exact fun hk => absurd hk.2.symm Bool.false_ne_true

theorem reaches_full (n : ℕ) {r : Registry} (h : r.Numbered) (hn : (closedEntries r).card ≤ n) :
    ∃ r', Reaches RegistryCall.run anyStep r r' ∧ r'.Numbered ∧ r'.allocate = none := by
  induction n generalizing r with
  | zero =>
    refine ⟨r, Reaches.refl r, h, ?_⟩
    rcases h.allocate_cases with ⟨i, hi, -⟩ | ⟨-, hnone⟩
    · have hlt := closedEntries_opened h hi
      omega
    · exact hnone
  | succ n ih =>
    rcases h.allocate_cases with ⟨i, hi, halloc⟩ | ⟨-, hnone⟩
    · have hlt := closedEntries_opened h hi
      obtain ⟨r', hrun, hfull⟩ := ih (h.opened i) (by omega)
      have hstep : RegistryCall.run r .allocate = some (r.opened (0, i)) := by
        rw [RegistryCall.run, halloc]
        rfl
      exact ⟨r', Reaches.head trivial hstep hrun, hfull⟩
    · exact ⟨r, Reaches.refl r, h, hnone⟩

/-- A registry is reached in which the next allocation reads through `NULL`. -/
theorem allocate_faults :
    ∃ r, Reaches RegistryCall.run anyStep .initial r ∧ r.allocate = none ∧ ¬r.Registered := by
  obtain ⟨r, hrun, -, hnone⟩ := reaches_full _ numbered_initial (Nat.le_refl _)
  refine ⟨r, hrun, hnone, fun hr => ?_⟩
  obtain ⟨r', a, halloc, -⟩ := hr.allocated
  rw [hnone] at halloc
  cases halloc

end DevOs.Files
