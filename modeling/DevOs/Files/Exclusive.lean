import DevOs.Files.Model
import DevOs.Lib.Runs
import Mathlib.Data.Nat.Bitwise

/-!
# Exclusive writers

Only one process may have a file open for writing, and only one for setting its information. The
check looks at the first open entry with the path. It is complete when every entry that stands
against the call is the first one.
-/

namespace DevOs.Files

open Runs

variable {list list' : OpenFileList} {file a b : File} {f f' : OpenFile} {process access : ℕ}
  {path copy : List ℕ} {info : Bool} {p : OpenFile → Bool}

theorem has_two_pow (access k : ℕ) : has access (2 ^ k) = access.testBit k := by
  rw [has, Nat.and_two_pow]
  cases access.testBit k <;> simp

theorem has_write (access : ℕ) : has access fileOpenWrite = access.testBit 1 := has_two_pow access 1

theorem has_setInformation (access : ℕ) : has access fileOpenSetInformation = access.testBit 2 :=
  has_two_pow access 2

theorem refused_eq (access : ℕ) (f : OpenFile) : refused access f =
    (access.testBit 1 && f.openAccess.testBit 1 || access.testBit 2 && f.openAccess.testBit 2) := by
  rw [refused, has_write, has_write, has_setInformation, has_setInformation]

theorem refused_comm (f f' : OpenFile) : refused f.openAccess f' = refused f'.openAccess f := by
  rw [refused_eq, refused_eq, Bool.and_comm, Bool.and_comm (f.openAccess.testBit 2)]

theorem refused_mod (access : ℕ) (f : OpenFile) :
    refused (access % 2 ^ 32) f = refused access f := by
  rw [refused_eq, refused_eq, Nat.testBit_mod_two_pow, Nat.testBit_mod_two_pow]
  rfl

theorem refused_or (access access' : ℕ) (f : OpenFile) :
    refused (access ||| access') f = (refused access f || refused access' f) := by
  rw [refused_eq, refused_eq, refused_eq, Nat.testBit_or, Nat.testBit_or]
  cases access.testBit 1 <;> cases access'.testBit 1 <;> cases access.testBit 2 <;>
    cases access'.testBit 2 <;>
    cases f.openAccess.testBit 1 <;> cases f.openAccess.testBit 2 <;> rfl

theorem has_of_refused (h : refused access f = true) :
    has access (fileOpenWrite ||| fileOpenSetInformation) = true := by
  have heither : access &&& (fileOpenWrite ||| fileOpenSetInformation) =
      access &&& fileOpenWrite ||| access &&& fileOpenSetInformation := Nat.and_or_distrib_left ..
  rw [refused, Bool.or_eq_true, Bool.and_eq_true, Bool.and_eq_true] at h
  rw [has, heither, bne_iff_ne, ne_eq, Nat.or_eq_zero_iff]
  rintro ⟨hw, hs⟩
  rcases h with ⟨h, -⟩ | ⟨h, -⟩
  · rw [has, hw] at h
    cases h
  · rw [has, hs] at h
    cases h

def upper (c : ℕ) : ℕ := if isLower c then c - 32 else c

def SamePath (path path' : List ℕ) : Prop := path.map upper = path'.map upper

instance (path path' : List ℕ) : Decidable (SamePath path path') :=
  inferInstanceAs (Decidable (_ = _))

theorem sameChar_iff (x y : ℕ) : sameChar x y = true ↔ upper x = upper y := by
  simp only [sameChar, upper, isLower, isUpper, Bool.and_eq_true, decide_eq_true_eq]
  split_ifs <;> simp only [beq_iff_eq] <;> omega

theorem wstrcmpNocs_iff (xs ys : List ℕ) (hlen : xs.length = ys.length) :
    wstrcmpNocs xs ys ys.length = true ↔ SamePath xs ys := by
  induction xs generalizing ys with
  | nil =>
    obtain rfl : ys = [] := List.length_eq_zero_iff.mp hlen.symm
    exact iff_of_true rfl rfl
  | cons x xs ih =>
    cases ys with
    | nil => cases hlen
    | cons y ys =>
      rw [List.length_cons, wstrcmpNocs, Bool.and_eq_true, sameChar_iff, ih ys (Nat.succ.inj hlen),
        SamePath, SamePath, List.map_cons, List.map_cons, List.cons.injEq]

theorem length_setFile (list : OpenFileList) (file : File) (f : OpenFile) :
    (setFile list file f).length = list.length := List.length_modify ..

theorem fileAt_setFile_self (h : file.1 < list.length) : fileAt (setFile list file f) file = f := by
  rw [fileAt, setFile, List.getD_eq_getElem?_getD, List.getElem?_modify_eq,
    List.getElem?_eq_getElem h]
  exact Function.update_self ..

theorem fileAt_setFile_of_ne (h : a ≠ file) : fileAt (setFile list file f) a = fileAt list a := by
  rw [fileAt, fileAt, setFile, List.getD_eq_getElem?_getD, List.getD_eq_getElem?_getD]
  by_cases hk : file.1 = a.1
  · have hi : a.2 ≠ file.2 := fun hi => h (Prod.ext hk.symm hi)
    rw [hk, List.getElem?_modify_eq]
    cases list[a.1]? with
    | none => rfl
    | some files => exact Function.update_of_ne hi ..
  · rw [List.getElem?_modify_ne _ _ hk]

theorem lt_of_isOpen (h : (fileAt list file).isOpen = true) : file.1 < list.length := by
  by_contra hge
  rw [fileAt, List.getD_eq_default _ _ (Nat.le_of_not_lt hge)] at h
  cases h

theorem findFile_some (h : findFile p list = some file) : p (fileAt list file) = true := by
  induction list generalizing file with
  | nil => cases h
  | cons files next ih =>
    rw [findFile] at h
    cases hfind : (List.finRange unitsPerList).find? fun i => p (files i) with
    | some i =>
      rw [hfind] at h
      cases h
      have hi := List.find?_some hfind
      exact hi
    | none =>
      rw [hfind] at h
      obtain ⟨file', hfile', rfl⟩ := Option.map_eq_some_iff.mp h
      exact ih hfile'

/-- There is one list, and the lengths of the paths are right. -/
structure Formed (list : OpenFileList) : Prop where
  length : list.length = 1
  path : ∀ file, (fileAt list file).isOpen = true →
    (fileAt list file).pathLength = (fileAt list file).path.length

theorem Formed.found (h : Formed list) (hfound : findOpenFilePath list copy = some file) :
    (fileAt list file).isOpen = true ∧ SamePath (fileAt list file).path copy := by
  rw [findOpenFilePath] at hfound
  split_ifs at hfound
  have hmatch := findFile_some hfound
  rw [matchesPath, Bool.and_eq_true, Bool.and_eq_true, beq_iff_eq] at hmatch
  obtain ⟨⟨hopen, hlen⟩, hcmp⟩ := hmatch
  exact ⟨hopen, (wstrcmpNocs_iff _ _ ((h.path file hopen).symm.trans hlen)).mp hcmp⟩

theorem Formed.allocateFile (h : Formed list) (halloc : allocateFile list = some (list', file)) :
    (fileAt list file).isOpen = false ∧ file.1 < list.length ∧
      ∃ f, f.isOpen = true ∧ list' = setFile list file f := by
  obtain ⟨files, rfl⟩ := List.length_eq_one_iff.mp h.length
  rw [Files.allocateFile] at halloc
  cases hfind : (List.finRange unitsPerList).find? fun i => !(files i).isOpen with
  | none =>
    rw [hfind] at halloc
    cases halloc
  | some i =>
    rw [hfind] at halloc
    cases halloc
    have hclosed := List.find?_some hfind
    rw [Bool.not_eq_true'] at hclosed
    exact ⟨hclosed, Nat.one_pos, _, rfl, rfl⟩

/-- Two open entries of different processes with the same path. -/
structure Rivals (list : OpenFileList) (a b : File) : Prop where
  left : (fileAt list a).isOpen = true
  right : (fileAt list b).isOpen = true
  process : (fileAt list a).process ≠ (fileAt list b).process
  path : SamePath (fileAt list a).path (fileAt list b).path

structure Exclusive (list : OpenFileList) : Prop where
  write : ∀ a b, Rivals list a b → ¬ (has (fileAt list a).openAccess fileOpenWrite = true ∧
    has (fileAt list b).openAccess fileOpenWrite = true)
  setInformation : ∀ a b, Rivals list a b →
    ¬ (has (fileAt list a).openAccess fileOpenSetInformation = true ∧
    has (fileAt list b).openAccess fileOpenSetInformation = true)

theorem Rivals.symm (h : Rivals list a b) : Rivals list b a :=
  ⟨h.right, h.left, h.process.symm, h.path.symm⟩

theorem exclusive_iff : Exclusive list ↔
    ∀ a b, Rivals list a b → refused (fileAt list a).openAccess (fileAt list b) = false := by
  constructor
  · intro h a b hab
    have hw := h.write a b hab
    have hs := h.setInformation a b hab
    rw [refused, Bool.or_eq_false_iff]
    exact ⟨by rwa [← Bool.not_eq_true, Bool.and_eq_true], by
      rwa [← Bool.not_eq_true, Bool.and_eq_true]⟩
  · intro h
    constructor
    · intro a b hab hw
      have hr := h a b hab
      rw [refused, hw.1, hw.2] at hr
      cases hr
    · intro a b hab hs
      have hr := h a b hab
      rw [refused, hs.1, hs.2, Bool.and_self, Bool.or_true] at hr
      cases hr

/-- An entry of another process that holds an access of the call. -/
structure StandsAgainst (list : OpenFileList) (process : ℕ) (copy : List ℕ) (access : ℕ)
    (b : File) : Prop where
  isOpen : (fileAt list b).isOpen = true
  process : (fileAt list b).process ≠ process
  path : SamePath (fileAt list b).path copy
  access : refused access (fileAt list b) = true

theorem Exclusive.put (h : Exclusive list)
    (hother : ∀ g, g ≠ file → fileAt list' g = fileAt list g)
    (hnew : (fileAt list' file).isOpen = true → ∀ g, g ≠ file → Rivals list' file g →
      refused (fileAt list' file).openAccess (fileAt list g) = false) : Exclusive list' := by
  rw [exclusive_iff] at h ⊢
  intro a b hab
  by_cases ha : a = file
  · subst ha
    have hne : b ≠ a := by
      rintro rfl
      exact hab.process rfl
    rw [hother b hne]
    exact hnew hab.left b hne hab
  · by_cases hb : b = file
    · subst hb
      rw [refused_comm, hother a ha]
      exact hnew hab.right a ha hab.symm
    · obtain ⟨hl, hr, hp, hpath⟩ := hab
      rw [hother a ha] at *
      rw [hother b hb] at *
      exact h a b ⟨hl, hr, hp, hpath⟩

theorem not_exclusive (hab : Rivals list a b)
    (hr : refused (fileAt list a).openAccess (fileAt list b) = true) :
    ¬ Exclusive list := by
  intro h
  rw [exclusive_iff.mp h a b hab] at hr
  cases hr

theorem setFile_setFile (list : OpenFileList) (file : File) (f f' : OpenFile) :
    setFile (setFile list file f) file f' = setFile list file f' := by
  rw [setFile, setFile, setFile, List.modify_modify_eq]
  congr 1
  funext files
  exact Function.update_idem ..

theorem Formed.newFile (h : Formed list) {result : Option File}
    (hnew : newFile list process copy access info = some (list', result)) :
    ∃ file f, (fileAt list file).isOpen = false ∧ file.1 < list.length ∧ f.isOpen = true ∧
      f.process = process ∧ f.path = copy ∧ f.pathLength = copy.length ∧
      f.openAccess = access % 2 ^ 32 ∧
      list' = setFile list file (if info then f else zeroFile) := by
  obtain ⟨⟨list₁, file⟩, halloc, hlist⟩ := Option.map_eq_some_iff.mp hnew
  obtain ⟨hclosed, hlt, f, hopen, rfl⟩ := h.allocateFile halloc
  dsimp only at hlist
  rw [fileAt_setFile_self hlt] at hlist
  refine ⟨file, { f with
    openAccess := access % 2 ^ 32, path := copy, pathLength := copy.length, process },
    hclosed, hlt, hopen, rfl, rfl, rfl, rfl, ?_⟩
  cases info with
  | true =>
    rw [if_pos rfl, setFile_setFile] at hlist
    exact (Prod.ext_iff.mp hlist).1.symm
  | false =>
    rw [if_neg (by decide), setFile_setFile] at hlist
    exact (Prod.ext_iff.mp hlist).1.symm

/-- The first open entry with the path is of another process, and the access is refused. -/
def FirstRefuses (list : OpenFileList) (process : ℕ) (copy : List ℕ) (access : ℕ) : Prop :=
  ∃ file, findOpenFilePath list copy = some file ∧ (fileAt list file).process ≠ process ∧
    refused access (fileAt list file) = true

def FirstOwn (list : OpenFileList) (process : ℕ) (copy : List ℕ) : Prop :=
  ∃ file, findOpenFilePath list copy = some file ∧ (fileAt list file).process = process

theorem openFile_cases (hpath : path ≠ [])
    (hstep : step list (.openFile process path access info) = some list') :
    (FirstRefuses list process (fixFilePath path) access ∧ list' = list) ∨
    (∃ file, findOpenFilePath list (fixFilePath path) = some file ∧
      (fileAt list file).process = process ∧
      list' = setFile list file
        { fileAt list file with
          openAccess := ((fileAt list file).openAccess ||| access) % 2 ^ 32 }) ∨
    ((has access (fileOpenWrite ||| fileOpenSetInformation) = true →
        ¬ FirstRefuses list process (fixFilePath path) access ∧
        ¬ FirstOwn list process (fixFilePath path)) ∧
      ∃ result, newFile list process (fixFilePath path) access info = some (list', result)) := by
  obtain ⟨⟨list₁, result⟩, hopen, rfl⟩ := Option.map_eq_some_iff.mp hstep
  rw [defaultOpenFile, if_neg hpath] at hopen
  by_cases hlong : maxFileName ≤ path.length
  · rw [if_pos hlong] at hopen
    cases hopen
  rw [if_neg hlong] at hopen
  dsimp only at hopen ⊢
  by_cases hhas : has access (fileOpenWrite ||| fileOpenSetInformation) = true
  · rw [if_pos hhas] at hopen
    cases hfound : findOpenFilePath list (fixFilePath path) with
    | none =>
      rw [hfound] at hopen
      refine Or.inr (Or.inr ⟨fun _ => ⟨?_, ?_⟩, result, hopen⟩)
      · rintro ⟨file, hfile, -⟩
        rw [hfound] at hfile
        cases hfile
      · rintro ⟨file, hfile, -⟩
        rw [hfound] at hfile
        cases hfile
    | some file =>
      rw [hfound] at hopen
      dsimp only at hopen
      by_cases hown : (fileAt list file).process = process
      · rw [if_pos hown] at hopen
        cases hopen
        exact Or.inr (Or.inl ⟨file, rfl, hown, rfl⟩)
      · rw [if_neg hown] at hopen
        cases href : refused access (fileAt list file) with
        | true =>
          rw [if_pos href] at hopen
          cases hopen
          exact Or.inl ⟨⟨file, hfound, hown, href⟩, rfl⟩
        | false =>
          rw [if_neg (by rw [href]; decide)] at hopen
          refine Or.inr (Or.inr ⟨fun _ => ⟨?_, ?_⟩, result, hopen⟩)
          · rintro ⟨file', hfile', -, href'⟩
            rw [hfound] at hfile'
            cases hfile'
            rw [href] at href'
            cases href'
          · rintro ⟨file', hfile', hown'⟩
            rw [hfound] at hfile'
            cases hfile'
            exact hown hown'
  · rw [if_neg hhas] at hopen
    exact Or.inr (Or.inr ⟨fun h => absurd h hhas, result, hopen⟩)

theorem Formed.setFile (h : Formed list) (hf : f.isOpen = true → f.pathLength = f.path.length) :
    Formed (setFile list file f) := by
  refine ⟨(length_setFile ..).trans h.length, fun g hg => ?_⟩
  by_cases hne : g = file
  · subst hne
    have hlt := lt_of_isOpen hg
    rw [length_setFile] at hlt
    rw [fileAt_setFile_self hlt] at hg ⊢
    exact hf hg
  · rw [fileAt_setFile_of_ne hne] at hg ⊢
    exact h.path g hg

theorem Formed.step (h : Formed list) {call : Call} (hstep : step list call = some list') :
    Formed list' := by
  cases call with
  | openFile process path access info =>
    by_cases hpath : path = []
    · subst hpath
      cases hstep
      exact h
    · obtain ⟨-, rfl⟩ | ⟨file, hfile, -, rfl⟩ | ⟨-, result, hnew⟩ := openFile_cases hpath hstep
      · exact h
      · exact h.setFile fun hopen => h.path file hopen
      · obtain ⟨file, f, -, -, -, -, hp, hlen, -, rfl⟩ := h.newFile hnew
        refine h.setFile fun hopen => ?_
        cases info with
        | true =>
          rw [if_pos rfl, hp, hlen]
        | false => cases hopen
  | closeFile file =>
    rw [Files.step, defaultCloseFile] at hstep
    split_ifs at hstep
    cases hstep
    exact h.setFile fun hopen => by cases hopen

/-- When a call keeps the access exclusive: the path is empty, no entry stands against it, the first
entry refuses it, or the file is not known and the process has not the first entry. -/
def Checked (list : OpenFileList) : Call → Prop
  | .openFile process path access info =>
    path = [] ∨ (∀ b, ¬ StandsAgainst list process (fixFilePath path) access b) ∨
      FirstRefuses list process (fixFilePath path) access ∨
      info = false ∧ ¬ FirstOwn list process (fixFilePath path)
  | .closeFile _ => True

theorem Exclusive.setFile_iff (hex : Exclusive list) {old : ℕ} (hlt : file.1 < list.length)
    (hopen : f.isOpen = true) (haccess : f.openAccess = (old ||| access) % 2 ^ 32)
    (hold : ∀ b, ¬ StandsAgainst list f.process f.path old b)
    (hfile : ∀ b, StandsAgainst list f.process f.path access b → b ≠ file) :
    Exclusive (Files.setFile list file f) ↔
    ∀ b, ¬ StandsAgainst list f.process f.path access b := by
  have hself := fileAt_setFile_self hlt (f := f)
  constructor
  · intro hex' b hb
    have hother : fileAt (Files.setFile list file f) b = fileAt list b :=
      fileAt_setFile_of_ne (hfile b hb)
    refine not_exclusive (a := file) (b := b) ⟨?_, ?_, ?_, ?_⟩ ?_ hex'
    · rw [hself]
      exact hopen
    · rw [hother]
      exact hb.isOpen
    · rw [hself, hother]
      exact hb.process.symm
    · rw [hself, hother]
      exact hb.path.symm
    · rw [hself, hother, haccess, refused_mod, refused_or, hb.access, Bool.or_true]
  · intro hno
    refine hex.put (fun g hg => fileAt_setFile_of_ne hg) fun _ g hg hriv => ?_
    obtain ⟨-, hr, hp, hsame⟩ := hriv
    rw [hself, fileAt_setFile_of_ne hg] at hp hsame
    rw [fileAt_setFile_of_ne hg] at hr
    rw [hself, haccess, refused_mod, refused_or, Bool.or_eq_false_iff, ← Bool.not_eq_true,
      ← Bool.not_eq_true]
    exact ⟨fun hacc => hold g ⟨hr, hp.symm, hsame.symm, hacc⟩,
      fun hacc => hno g ⟨hr, hp.symm, hsame.symm, hacc⟩⟩

theorem Formed.upgrade_iff (h : Formed list) (hex : Exclusive list)
    (hfound : findOpenFilePath list copy = some file)
    (hown : (fileAt list file).process = process) :
    Exclusive (Files.setFile list file
      { fileAt list file with openAccess := ((fileAt list file).openAccess ||| access) % 2 ^ 32 }) ↔
      ∀ b, ¬ StandsAgainst list process copy access b := by
  obtain ⟨hopen, hpath⟩ := h.found hfound
  subst hown
  have hiff : ∀ b, StandsAgainst list (fileAt list file).process (fileAt list file).path access b ↔
      StandsAgainst list (fileAt list file).process copy access b := fun b =>
    ⟨fun hb => ⟨hb.isOpen, hb.process, hb.path.trans hpath, hb.access⟩,
      fun hb => ⟨hb.isOpen, hb.process, hb.path.trans hpath.symm, hb.access⟩⟩
  simp only [← hiff]
  refine hex.setFile_iff (lt_of_isOpen hopen) hopen rfl (fun b hb => ?_) fun b hb => ?_
  · have hr := exclusive_iff.mp hex file b ⟨hopen, hb.isOpen, hb.process.symm, hb.path.symm⟩
    exact absurd (hb.access.symm.trans hr) (by decide)
  · rintro rfl
    exact hb.process rfl

theorem Exclusive.create_iff (hex : Exclusive list) (hclosed : (fileAt list file).isOpen = false)
    (hlt : file.1 < list.length) (hopen : f.isOpen = true)
    (haccess : f.openAccess = access % 2 ^ 32) :
    Exclusive (Files.setFile list file f) ↔
    ∀ b, ¬ StandsAgainst list f.process f.path access b := by
  refine hex.setFile_iff hlt hopen (by rw [haccess, Nat.zero_or]) (fun b hb => ?_) fun b hb => ?_
  · have hacc := hb.access
    rw [refused_eq, Nat.zero_testBit, Nat.zero_testBit] at hacc
    cases hacc
  · rintro rfl
    exact absurd (hb.isOpen.symm.trans hclosed) (by decide)

theorem Exclusive.clear (hex : Exclusive list) (hlt : file.1 < list.length) :
    Exclusive (Files.setFile list file zeroFile) := by
  refine hex.put (fun g hg => fileAt_setFile_of_ne hg) fun hopen => ?_
  rw [fileAt_setFile_self hlt] at hopen
  cases hopen

theorem Formed.step_exclusive_iff (h : Formed list) (hex : Exclusive list) {call : Call}
    (hstep : Files.step list call = some list') : Exclusive list' ↔ Checked list call := by
  cases call with
  | openFile process path access info =>
    by_cases hpath : path = []
    · subst hpath
      cases hstep
      exact iff_of_true hex (Or.inl rfl)
    obtain ⟨hrefuses, rfl⟩ | ⟨file, hfile, hown, rfl⟩ | ⟨hpass, result, hnew⟩ :=
      openFile_cases hpath hstep
    · exact iff_of_true hex (Or.inr (Or.inr (Or.inl hrefuses)))
    · rw [h.upgrade_iff hex hfile hown]
      refine ⟨fun hno => Or.inr (Or.inl hno), fun hchecked => ?_⟩
      obtain hc | hc | ⟨file', hfile', hne, -⟩ | ⟨-, hc⟩ := hchecked
      · exact absurd hc hpath
      · exact hc
      · rw [hfile] at hfile'
        cases hfile'
        exact absurd hown hne
      · exact absurd ⟨file, hfile, hown⟩ hc
    · obtain ⟨file, f, hclosed, hlt, hopen, rfl, hp, -, haccess, rfl⟩ := h.newFile hnew
      cases info with
      | false =>
        refine iff_of_true (hex.clear hlt) (Or.inr ?_)
        by_cases hhas : has access (fileOpenWrite ||| fileOpenSetInformation) = true
        · exact Or.inr (Or.inr ⟨rfl, (hpass hhas).2⟩)
        · exact Or.inl fun b hb => hhas (has_of_refused hb.access)
      | true =>
        rw [if_pos rfl, hex.create_iff hclosed hlt hopen haccess, hp]
        refine ⟨fun hno => Or.inr (Or.inl hno), fun hchecked b hb => ?_⟩
        have hhas := has_of_refused hb.access
        obtain hc | hc | hc | ⟨hinfo, -⟩ := hchecked
        · exact hpath hc
        · exact hc b hb
        · exact (hpass hhas).1 hc
        · cases hinfo
  | closeFile file =>
    rw [Files.step, defaultCloseFile] at hstep
    split_ifs at hstep with hopen
    cases hstep
    exact iff_of_true (hex.clear (lt_of_isOpen hopen)) trivial

theorem fileAt_emptyList (file : File) : fileAt emptyList file = zeroFile := by
  obtain ⟨k, i⟩ := file
  cases k <;> rfl

/-- Along checked calls the access stays exclusive, and no other call keeps it so. -/
theorem exclusive_of_checked (hrun : Reaches step Checked emptyList list) :
    Exclusive list ∧ ∀ call list', step list call = some list' →
    (Exclusive list' ↔ Checked list call) := by
  have hinv : Formed list ∧ Exclusive list := by
    refine hrun.invariant (I := fun list => Formed list ∧ Exclusive list) ?_
      ⟨⟨rfl, fun file hfile => ?_⟩, ?_⟩
    · rintro s call t ⟨hs, hex⟩ hchecked hstep
      exact ⟨hs.step hstep, (hs.step_exclusive_iff hex hstep).mpr hchecked⟩
    · rw [fileAt_emptyList] at hfile
      cases hfile
    · rw [exclusive_iff]
      intro a b hab
      have hopen := hab.left
      rw [fileAt_emptyList] at hopen
      cases hopen
  exact ⟨hinv.2, fun call list' hstep => hinv.1.step_exclusive_iff hinv.2 hstep⟩

/-- One process opens a file for writing, and another one is refused. -/
theorem exclusive_of_refused :
    ∃ list, Files.step emptyList (.openFile 1 [0x61] 2 true) = some list ∧
      Files.step list (.openFile 2 [0x2F, 0x41] 2 true) = some list ∧ Exclusive list := by
  obtain ⟨list, hfirst⟩ : ∃ list, Files.step emptyList (.openFile 1 [0x61] 2 true) = some list :=
    Option.isSome_iff_exists.mp (by decide)
  have hfound : findOpenFilePath list [0x41] = some (0, 0) :=
    eq_of_map (findOpenFilePath · [0x41]) hfirst
    (by decide)
  have hentry : fileAt list (0, 0) = ⟨true, 0, 1, [0x61], 1, 2⟩ :=
    eq_of_map (fileAt · (0, 0)) hfirst
    (by decide)
  have hrefuses : FirstRefuses list 2 [0x41] 2 :=
    ⟨(0, 0), hfound, by rw [hentry]; decide, by rw [hentry]; decide⟩
  have hsecond : Files.step list (.openFile 2 [0x2F, 0x41] 2 true) = some list := by
    have hfix : fixFilePath [0x2F, 0x41] = [0x41] := rfl
    have hhas : has 2 (fileOpenWrite ||| fileOpenSetInformation) = true := rfl
    rw [Files.step, defaultOpenFile, if_neg (by decide), if_neg (by decide), hfix]
    dsimp only
    rw [if_pos hhas, hfound]
    dsimp only
    rw [hentry, if_neg (by decide), if_pos (by decide)]
    rfl
  have hchecked : Checked emptyList (.openFile 1 [0x61] 2 true) := by
    refine Or.inr (Or.inl fun b hb => ?_)
    have hopen := hb.isOpen
    rw [fileAt_emptyList] at hopen
    cases hopen
  have hchecked' : Checked list (.openFile 2 [0x2F, 0x41] 2 true) :=
    Or.inr (Or.inr (Or.inl hrefuses))
  refine ⟨list, hfirst, hsecond, (exclusive_of_checked ?_).1⟩
  exact Reaches.head hchecked hfirst (Reaches.head hchecked' hsecond (Reaches.refl list))

/-- A reader comes first, so the second writer is not refused. -/
theorem two_writers : ¬ ∀ list, Reaches step anyStep emptyList list → Exclusive list := by
  intro hall
  obtain ⟨list, hrun⟩ : ∃ list, guardedRun step anyStep emptyList
      [.openFile 1 [0x61] 1 true, .openFile 2 [0x61] 2 true, .openFile 3 [0x41] 2 true] =
      some list :=
    Option.isSome_iff_exists.mp (by decide)
  have hsecond : fileAt list (0, 1) = ⟨true, 1, 2, [0x61], 1, 2⟩ := eq_of_map (fileAt · (0, 1)) hrun
    (by decide)
  have hthird : fileAt list (0, 2) = ⟨true, 2, 3, [0x41], 1, 2⟩ := eq_of_map (fileAt · (0, 2)) hrun
    (by decide)
  refine (hall list (reaches_of_guardedRun _ hrun)).write (0, 1) (0, 2) ⟨?_, ?_, ?_, ?_⟩ ?_
  · rw [hsecond]
  · rw [hthird]
  · rw [hsecond, hthird]
    decide
  · rw [hsecond, hthird]
    decide
  · rw [hsecond, hthird]
    decide

end DevOs.Files
