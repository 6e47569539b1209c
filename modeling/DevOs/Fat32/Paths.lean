import DevOs.Fat32.Files
import DevOs.Lib.Pieces

/-!
# Paths

`Fat32ParsePath` call by call. A path is the list of its characters before the zero. The calls of a
loop `while((Status = Fat32ParsePath(Path, &Path, EntryName)) != 0)` go through the pieces of the
path between the separators, and the code of a call says whether its piece is the last one.
-/

namespace DevOs.Fat32

open Pieces

/-- The loop that copies the entry. It ends at the end of the path, or with the rest of the path at
a separator. -/
def copyEntry : Name → Name × Option Name
  | [] => ([], none)
  | c :: path =>
    if isSeparator c then ([], some (c :: path))
    else
      let (entry, rest) := copyEntry path
      (c :: entry, rest)

/-- `Fat32ParsePath`: the code, `Entry` and `AdvancePath`. With the code zero both are left as they
were. -/
def parsePath (path : Name) : ℕ × Name × Name :=
  let path' := path.dropWhile isSeparator
  if path' = [] then (0, [], path)
  else
    match copyEntry path' with
    | (entry, none) => (2, entry, [])
    | (entry, some rest) =>
      let rest := rest.dropWhile isSeparator
      if rest = [] then (2, entry, rest) else (1, entry, rest)

/-- The codes and the entries of the calls before the first one that returns zero, for at most `n`
calls. -/
def parseLoop : ℕ → Name → List (ℕ × Name)
  | 0, _ => []
  | n + 1, path =>
    match parsePath path with
    | (0, _, _) => []
    | (code, entry, rest) => (code, entry) :: parseLoop n rest

def parseCalls (path : Name) : List (ℕ × Name) := parseLoop (path.length + 1) path

def codes (entries : List Name) : List (ℕ × Name) :=
  entries.mapIdx fun i entry => (if i + 1 = entries.length then 2 else 1, entry)

theorem codes_cons (entry : Name) (entries : List Name) :
    codes (entry :: entries) = (if entries = [] then 2 else 1, entry) :: codes entries := by
  rw [codes, codes, List.mapIdx_cons]
  simp

theorem copyEntry_eq (path : Name) : copyEntry path =
    (path.takeWhile (fun c => !isSeparator c),
      if path.dropWhile (fun c => !isSeparator c) = [] then none
      else some (path.dropWhile fun c => !isSeparator c)) := by
  induction path with
  | nil => rfl
  | cons c path ih =>
    rw [copyEntry]
    cases hc : isSeparator c with
    | true => simp [hc]
    | false => simp [hc, ih]

variable {path : Name}

theorem parsePath_nil (h : pieces isSeparator path = []) : parsePath path = (0, [], path) := by
  rw [parsePath, pieces_eq_nil_iff.mp h]
  rfl

theorem parsePath_cons {entry : Name} {entries : List Name}
    (h : pieces isSeparator path = entry :: entries) :
    ∃ rest, parsePath path = (if entries = [] then 2 else 1, entry, rest) ∧ rest <:+ path ∧
      rest.length < path.length ∧ pieces isSeparator rest = entries := by
  have hne : path.dropWhile isSeparator ≠ [] := by
    intro hnil
    rw [pieces_eq_nil_iff.mpr hnil] at h
    cases h
  obtain ⟨c, tail, hpath⟩ := List.exists_cons_of_ne_nil hne
  have hc : isSeparator c = false := by
    have hhead := List.head?_dropWhile_not isSeparator path
    rw [hpath] at hhead
    simpa using hhead
  have htake : (c :: tail).takeWhile (fun c => !isSeparator c) = c :: tail.takeWhile fun c =>
      !isSeparator c :=
    List.takeWhile_cons_of_pos (by rw [hc]; rfl)
  have hsuffix : c :: tail <:+ path := hpath ▸ List.dropWhile_suffix isSeparator
  have hrest : ((c :: tail).dropWhile fun c => !isSeparator c).dropWhile isSeparator <:+ tail := by
    rw [List.dropWhile_cons_of_pos (by rw [hc]; rfl)]
    exact (List.dropWhile_suffix _).trans (List.dropWhile_suffix _)
  have hpieces :=
    pieces_takeWhile (p := isSeparator) (l := c :: tail) (by rw [htake]; exact List.cons_ne_nil _ _)
  rw [← hpath, pieces_dropWhile, h, hpath] at hpieces
  obtain ⟨hentry, hentries⟩ := List.cons.inj hpieces
  have hlast : ((c :: tail).dropWhile fun c => !isSeparator c).dropWhile isSeparator = [] ↔
      entries = [] := by
    rw [hentries, pieces_eq_nil_iff]
  refine ⟨((c :: tail).dropWhile fun c => !isSeparator c).dropWhile isSeparator, ?_,
    hrest.trans ((List.suffix_cons c tail).trans hsuffix), ?_, ?_⟩
  · rw [parsePath]
    dsimp only
    rw [if_neg hne, hpath, copyEntry_eq, ← hentry]
    by_cases hnil : (c :: tail).dropWhile (fun c => !isSeparator c) = []
    · rw [if_pos hnil, if_pos (hlast.mp (by rw [hnil]; rfl)), hnil]
      rfl
    · rw [if_neg hnil]
      dsimp only
      by_cases hend : entries = []
      · rw [if_pos (hlast.mpr hend), if_pos hend]
      · rw [if_neg fun h => hend (hlast.mp h), if_neg hend]
  · exact Nat.lt_of_le_of_lt hrest.length_le hsuffix.length_le
  · rw [pieces_dropWhile, ← hentries]

theorem parseLoop_eq {n : ℕ} (h : path.length < n) :
    parseLoop n path = codes (pieces isSeparator path) := by
  induction n generalizing path with
  | zero => omega
  | succ n ih =>
    rw [parseLoop]
    cases hpieces : pieces isSeparator path with
    | nil =>
      rw [parsePath_nil hpieces]
      rfl
    | cons entry entries =>
      obtain ⟨rest, hparse, -, hlen, hrest⟩ := parsePath_cons hpieces
      rw [hparse, codes_cons, ← hrest, ← ih (by omega)]
      split_ifs <;> rfl

/-- The calls go through the entries of the path in their order, and the first one returns zero
exactly when there is none. -/
theorem path_split (path : Name) : parseCalls path = codes (pieces isSeparator path) ∧
    ((parsePath path).1 = 0 ↔ pieces isSeparator path = []) := by
  refine ⟨parseLoop_eq (Nat.lt_succ_self _), ?_⟩
  constructor
  · intro h
    cases hpieces : pieces isSeparator path with
    | nil => rfl
    | cons entry entries =>
      obtain ⟨rest, hparse, -⟩ := parsePath_cons hpieces
      rw [hparse] at h
      split_ifs at h
  · intro h
    rw [parsePath_nil h]

example : parseCalls
    [0x2F, 0x41, 0x5C, 0x2F, 0x42, 0x43, 0x2F] = [(1, [0x41]), (2, [0x42, 0x43])] := by decide

theorem fat32ParsePath_eq (path : Name) : fat32ParsePath path =
    match parsePath (path.takeWhile (· ≠ 0)) with
    | (0, _, _) => none
    | (_, entry, rest) => some (entry, rest) := by
  rw [fat32ParsePath, parsePath]
  dsimp only
  split_ifs with h
  · rfl
  · rw [copyEntry_eq]
    by_cases hnil : ((path.takeWhile (· ≠ 0)).dropWhile isSeparator).dropWhile
      (fun c => !isSeparator c) = []
    · rw [if_pos hnil, hnil]
      rfl
    · rw [if_neg hnil]
      dsimp only
      split_ifs <;> rfl

theorem pathEntries_eq {n : ℕ} (h : path.length ≤ n) :
    pathEntries n path = pieces isSeparator (path.takeWhile (· ≠ 0)) := by
  induction n generalizing path with
  | zero =>
    rw [List.length_eq_zero_iff.mp (Nat.le_zero.mp h)]
    rfl
  | succ n ih =>
    rw [pathEntries, fat32ParsePath_eq]
    cases hpieces : pieces isSeparator (path.takeWhile (· ≠ 0)) with
    | nil =>
      rw [parsePath_nil hpieces]
      rfl
    | cons entry entries =>
      obtain ⟨rest, hparse, hsuffix, hlen, hrest⟩ := parsePath_cons hpieces
      have hprefix := (List.takeWhile_prefix (l := path) (· ≠ 0)).length_le
      have htake : rest.takeWhile (· ≠ 0) = rest := by
        rw [List.takeWhile_eq_self_iff]
        intro c hc
        have hzero := List.mem_takeWhile_imp (hsuffix.subset hc)
        exact hzero
      have hih := @ih rest (by omega)
      rw [htake, hrest] at hih
      rw [hparse]
      by_cases hnil : rest = []
      · rw [hnil, pieces_nil] at hrest
        rw [← hrest, if_pos rfl, hnil]
        rfl
      · split_ifs <;> simp [hnil, hih]

/-- The operations of the driver go through the pieces of the path before its zero. -/
theorem entriesOf_eq (path : Name) : entriesOf path = pieces isSeparator (path.takeWhile (· ≠ 0)) :=
  pathEntries_eq (Nat.le_refl _)

end DevOs.Fat32
