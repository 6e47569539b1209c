import DevOs.Setfile.Model
import Mathlib.Data.List.GetD

/-!
# Flat set files

A flat set file is the header followed by one empty block for each of the entries of the root
directory, which are all directories. The file that `SetFile` makes is flat, and it stays flat when
a directory is put into the first free entry. The blocks of its directories have different parts of
the file.
-/

namespace DevOs.Setfile

open DevOs.Bytes DevOs.Ranges

variable {f : File} {h h' b b' : Buffer} {n i k o o' : ℕ} {name : List Byte} {args : List String}

theorem tableSize_eq : tableSize = 106496 := rfl

theorem rootDirectory_eq : rootDirectory = 10352 := rfl

theorem headerSize_eq : headerSize = 116848 := rfl

theorem entryAt_root (i : ℕ) : entryAt rootDirectory i = 10352 + i * 416 := rfl

theorem stringCompare_congr (hb : ∀ k ≤ name.length, b (o + k) = b' (o' + k)) :
    stringCompare b o name = stringCompare b' o' name := by
  induction name generalizing o o' with
  | nil =>
    have h0 := hb 0 (Nat.zero_le _)
    rw [Nat.add_zero, Nat.add_zero] at h0
    rw [stringCompare, stringCompare, h0]
  | cons c cs ih =>
    have h0 := hb 0 (Nat.zero_le _)
    rw [Nat.add_zero, Nat.add_zero] at h0
    rw [stringCompare, stringCompare, h0, ih]
    intro k hk
    have hk' := hb (k + 1) (by rw [List.length_cons]; omega)
    rwa [← Nat.add_assoc, ← Nat.add_assoc, Nat.add_right_comm o, Nat.add_right_comm o'] at hk'

theorem lookup_eq_some : lookup h name = some i ↔ i < maxDirEntries ∧
    present (attributesAt h rootDirectory i) = true ∧
    stringCompare h (nameAt rootDirectory i) name = true ∧
    ∀ j < i, present (attributesAt h rootDirectory j) = true →
      stringCompare h (nameAt rootDirectory j) name = false := by
  rw [lookup, List.find?_range_eq_some]
  simp only [Bool.and_eq_true, List.mem_range, Bool.not_eq_true', Bool.and_eq_false_iff]
  constructor
  · rintro ⟨⟨hp, hs⟩, hi, hall⟩
    refine ⟨hi, hp, hs, fun j hj hpj => (hall j hj).resolve_left ?_⟩
    rw [hpj]
    exact Bool.noConfusion
  · rintro ⟨hi, hp, hs, hall⟩
    refine ⟨⟨hp, hs⟩, hi, fun j hj => ?_⟩
    cases hpj : present (attributesAt h rootDirectory j) with
    | false => exact .inl rfl
    | true => exact .inr (hall j hj hpj)

theorem lookup_eq_none : lookup h name = none ↔ ∀ i < maxDirEntries,
    present (attributesAt h rootDirectory i) = true →
    stringCompare h (nameAt rootDirectory i) name = false := by
  rw [lookup, List.find?_eq_none]
  simp only [List.mem_range, Bool.and_eq_true, not_and, Bool.not_eq_true]

theorem header_byte (hs : headerSize ≤ f.size) (hk : k < headerSize) : f.header k = f.bytes k := by
  rw [File.header, File.read, copy, if_pos (by omega), Nat.zero_add, Nat.sub_zero]

theorem header_attributes (hs : headerSize ≤ f.size) (hi : i < maxDirEntries) :
    attributesAt f.header rootDirectory i = attributesAt f.bytes rootDirectory i := by
  have hmax : maxDirEntries = 256 := rfl
  refine getLE_congr fun k hk => header_byte hs ?_
  rw [entryAt_root, headerSize_eq]
  omega

theorem header_dirPointer (hs : headerSize ≤ f.size) (hi : i < maxDirEntries) :
    dirPointerAt f.header rootDirectory i = dirPointerAt f.bytes rootDirectory i := by
  have hmax : maxDirEntries = 256 := rfl
  refine getLE_congr fun k hk => header_byte hs ?_
  rw [entryAt_root, headerSize_eq]
  omega

/-- A table without entries and pointers. -/
structure EmptyTable (h : Buffer) : Prop where
  attributes : ∀ i < maxDirEntries, attributesAt h rootDirectory i = 0
  dirPointer : ∀ i < maxDirEntries, dirPointerAt h rootDirectory i = 0

theorem EmptyTable.lookup (he : EmptyTable h) (name : List Byte) : lookup h name = none := by
  rw [lookup_eq_none]
  intro i hi hp
  rw [he.attributes i hi] at hp
  cases hp

theorem emptyTable_of_bytes (hb : ∀ k < tableSize, h (rootDirectory + k) = 0) : EmptyTable h := by
  have hzero : ∀ o m, o + m ≤ tableSize → getLE h (rootDirectory + o) m = 0 := by
    intro o m hle
    refine getLE_eq_zero fun k hk => ?_
    rw [Nat.add_assoc]
    exact hb _ (by omega)
  have hmax : maxDirEntries = 256 := rfl
  have hentry : ∀ i, i * entrySize = i * 416 := fun _ => rfl
  constructor
  · intro i hi
    exact hzero (i * entrySize) 8 (by rw [hentry, tableSize_eq]; omega)
  · intro i hi
    rw [dirPointerAt, entryAt, Nat.add_assoc]
    exact hzero (i * entrySize + 144) 8 (by rw [hentry, tableSize_eq]; omega)

/-- The header is followed by the empty tables of the `n` directories that the root directory begins
with. -/
structure Flat (f : File) (n : ℕ) : Prop where
  size : f.size = headerSize + n * tableSize
  le : n ≤ maxDirEntries
  header : setfileCheckHeader f.header = true
  clusters : ∀ k < clusterTableSize, f.bytes (freeClusterTable + k) = 0
  present : ∀ i < n, present (attributesAt f.bytes rootDirectory i) = true
  directory : ∀ i < n, directory (attributesAt f.bytes rootDirectory i) = true
  dirPointer : ∀ i < n, dirPointerAt f.bytes rootDirectory i = headerSize + i * tableSize
  free : ∀ i, n ≤ i → i < maxDirEntries →
    Setfile.present (attributesAt f.bytes rootDirectory i) = false
  blocks : ∀ k, headerSize ≤ k → k < f.size → f.bytes k = 0

theorem Flat.headerSize_le (hf : Flat f n) : headerSize ≤ f.size := by
  rw [hf.size]
  exact Nat.le_add_right _ _

theorem Flat.lookup_lt (hf : Flat f n) (hi : lookup f.header name = some i) : i < n := by
  obtain ⟨hlt, hp, -, -⟩ := lookup_eq_some.mp hi
  by_contra hge
  rw [header_attributes hf.headerSize_le hlt, hf.free i (by omega) hlt] at hp
  cases hp

theorem Flat.lookup_directory (hf : Flat f n) (hi : i < n) :
    Setfile.directory (attributesAt f.header rootDirectory i) = true := by
  rw [header_attributes hf.headerSize_le (lt_of_lt_of_le hi hf.le)]
  exact hf.directory i hi

theorem Flat.lookup_dirPointer (hf : Flat f n) (hi : i < n) :
    dirPointerAt f.header rootDirectory i = headerSize + i * tableSize := by
  rw [header_dirPointer hf.headerSize_le (lt_of_lt_of_le hi hf.le)]
  exact hf.dirPointer i hi

theorem Flat.enter (hf : Flat f n) (hi : i < n) : EmptyTable (enter f f.header i) := by
  apply emptyTable_of_bytes
  intro k hk
  have hsize := hf.size
  rw [tableSize_eq] at hk hsize
  rw [Setfile.enter, File.read, hf.lookup_dirPointer hi, copy, tableSize_eq, if_pos (by omega)]
  exact hf.blocks _ (by omega) (by omega)

theorem Flat.readable (hf : Flat f n) (hi : i < n) :
    f.readable (dirPointerAt f.header rootDirectory i) = true := by
  have hsize := hf.size
  rw [tableSize_eq] at hsize
  rw [hf.lookup_dirPointer hi, File.readable, decide_eq_true_eq, tableSize_eq]
  omega

theorem Flat.rootFull_iff (hf : Flat f n) : RootFull f ↔ n = maxDirEntries := by
  have hle := hf.le
  constructor
  · intro hfull
    by_contra hne
    have hp := hfull n (by omega)
    rw [header_attributes hf.headerSize_le (by omega), hf.free n le_rfl (by omega)] at hp
    cases hp
  · rintro rfl i hi
    rw [header_attributes hf.headerSize_le hi]
    exact hf.present i hi

theorem setFile_byte (hk : 76 ≤ k) : setFile.bytes k = 0 := by
  have hsize := headerSize_eq
  simp only [setFile, File.write, copy]
  split
  · rw [setLE_of_not_mem _ (by omega), setLE_of_not_mem _ (by omega), setLE_of_not_mem _ (by omega),
      setLE_of_not_mem _ (by omega), setLE_of_not_mem _ (by omega)]
  · rfl

theorem setFile_flat : Flat setFile 0 where
  size := rfl
  le := Nat.zero_le _
  header := by decide
  clusters := fun k _ => setFile_byte (by unfold freeClusterTable; omega)
  present := fun i hi => absurd hi (Nat.not_lt_zero i)
  directory := fun i hi => absurd hi (Nat.not_lt_zero i)
  dirPointer := fun i hi => absurd hi (Nat.not_lt_zero i)
  free := fun i _ _ => by
    have hzero : attributesAt setFile.bytes rootDirectory i = 0 :=
      getLE_eq_zero fun k _ => setFile_byte (by rw [entryAt_root]; omega)
    rw [hzero]
    rfl
  blocks := fun k hk _ => setFile_byte (by rw [headerSize_eq] at hk; omega)

theorem attributeOf_lt (s : String) : attributeOf s < 2 ^ 6 := by
  unfold attributeOf
  split
  · decide
  split
  · decide
  split
  · decide
  split
  · decide
  · decide

theorem attributesOf_lt (args : List String) : attributesOf args < 2 ^ 6 := by
  have hfold : ∀ (args : List String) a, a < 2 ^ 6 →
      args.foldl (fun a s => a ||| attributeOf s) a < 2 ^ 6 := by
    intro args
    induction args with
    | nil => exact fun a ha => ha
    | cons s args ih => exact fun a ha => ih _ (Nat.or_lt_two_pow ha (attributeOf_lt s))
  exact hfold args 1 (by decide)

theorem attributesOf_present (args : List String) : present (attributesOf args) = true := by
  have hfold : ∀ (args : List String) a, present a = true →
      present (args.foldl (fun a s => a ||| attributeOf s) a) = true := by
    intro args
    induction args with
    | nil => exact fun a ha => ha
    | cons s args ih =>
      intro a ha
      refine ih _ ?_
      rw [present, Nat.testBit_or]
      rw [present] at ha
      rw [ha, Bool.true_or]
  exact hfold args 1 rfl

/-- Where the free cluster table is empty, a new block is at the end of the file. -/
theorem allocateCluster_empty (hempty : ∀ k < clusterTableSize, h (freeClusterTable + k) = 0)
    (rounds : ℕ) :
    allocateCluster f (rounds + 1) h = some (some 0) := by
  have hclusters : clusterTableSize = 8208 := rfl
  have hcount : clustersPerTable = 1024 := rfl
  have hzero : ∀ o, o + 8 ≤ clusterTableSize → getLE h (freeClusterTable + o) 8 = 0 := by
    intro o ho
    refine getLE_eq_zero fun k hk => ?_
    rw [Nat.add_assoc]
    exact hempty _ (by omega)
  have hnone : ((List.range clustersPerTable).find? fun x => (cluster h x).testBit 0) = none := by
    rw [List.find?_eq_none]
    intro x hx
    have hlt := List.mem_range.mp hx
    rw [cluster, Nat.add_assoc, hzero (8 + 8 * x) (by omega), Nat.zero_testBit]
    exact Bool.noConfusion
  have htable : tableCluster h = 0 := by
    unfold tableCluster
    rw [hnone]
  have hnext : nextOffset h = 0 := by
    have hoffset : freeClusterTable + 8 + 8 * clustersPerTable =
        freeClusterTable + (8 + 8 * clustersPerTable) :=
      Nat.add_assoc _ _ _
    rw [nextOffset, hoffset, hzero (8 + 8 * clustersPerTable) (by omega)]
  rw [allocateCluster, if_pos (Or.inr hnext), htable]

theorem Flat.clusters_header (hf : Flat f n) (hk : k < clusterTableSize) :
    f.header (freeClusterTable + k) = 0 := by
  have hclusters : clusterTableSize = 8208 := rfl
  have htable : freeClusterTable = 2144 := rfl
  have hheader := headerSize_eq
  rw [header_byte hf.headerSize_le (by omega)]
  exact hf.clusters k hk

def added (f : File) (args : List String) (name : List Byte) (n : ℕ) : File :=
  (f.write (entryAt rootDirectory n) entrySize (newEntry f.header n name (attributesOf args) f.size)
    (entryAt rootDirectory n)).write f.size tableSize (fun _ => 0) 0

theorem Flat.firstFree (hf : Flat f n) (hn : n < maxDirEntries) :
    ((List.range maxDirEntries).find? fun i =>
      !Setfile.present (attributesAt f.header rootDirectory i)) = some n := by
  rw [List.find?_range_eq_some]
  refine ⟨?_, List.mem_range.mpr hn, fun j hj => ?_⟩
  · rw [header_attributes hf.headerSize_le hn, hf.free n le_rfl hn]
    rfl
  · rw [header_attributes hf.headerSize_le (hj.trans hn), hf.present j hj]
    rfl

theorem Flat.firstFree_full (hf : Flat f n) (hn : n = maxDirEntries) :
    ((List.range maxDirEntries).find? fun i =>
      !Setfile.present (attributesAt f.header rootDirectory i)) = none := by
  rw [List.find?_eq_none]
  intro i hi
  rw [hf.rootFull_iff.mpr hn i (List.mem_range.mp hi)]
  exact Bool.noConfusion

theorem Flat.createEntry (hf : Flat f n) (hn : n < maxDirEntries)
    (hdir : Setfile.directory (attributesOf args) = true) :
    createEntry f args name f.header rootDirectory = some (added f args name n, 0) := by
  have hmax : maxDirEntries = 256 := rfl
  have hsize := hf.size
  rw [headerSize_eq, tableSize_eq] at hsize
  have hmod : f.size % 2 ^ 32 = f.size := Nat.mod_eq_of_lt (by omega)
  have hdiv : f.size / 2 ^ 32 = 0 := Nat.div_eq_of_lt (by omega)
  have hoffset : (rootDirectory + n * entrySize) % 2 ^ 64 = entryAt rootDirectory n := by
    rw [← entryAt, Nat.mod_eq_of_lt]
    rw [entryAt_root]
    omega
  simp only [Setfile.createEntry, hf.firstFree hn, hdir, if_true,
    allocateCluster_empty fun k hk => hf.clusters_header hk, hmod, hdiv, hoffset, added]
  simp

theorem stringCompare_of_bytes (hb : ∀ k ≤ name.length, b (o + k) = name.getD k 0) :
    stringCompare b o name = true := by
  induction name generalizing o with
  | nil =>
    have h0 := hb 0 (Nat.zero_le _)
    rw [stringCompare, decide_eq_true_eq]
    exact h0
  | cons c cs ih =>
    have h0 := hb 0 (Nat.zero_le _)
    rw [stringCompare, Bool.and_eq_true, decide_eq_true_eq]
    refine ⟨h0, ih fun k hk => ?_⟩
    have hk' := hb (k + 1) (by rw [List.length_cons]; omega)
    rwa [← Nat.add_assoc, Nat.add_right_comm, List.getD_cons_succ] at hk'

theorem newEntry_attributes (h : Buffer) (i : ℕ) (name : List Byte) (args : List String) (q : ℕ) :
    attributesAt (newEntry h i name (attributesOf args) q) rootDirectory i = attributesOf args := by
  have hlt := attributesOf_lt args
  rw [attributesAt, newEntry, getLE_setLE_of_disjoint _ (by omega), getLE_setLE_self,
    Nat.mod_eq_of_lt (by omega)]

theorem newEntry_dirPointer (h : Buffer) (i : ℕ) (name : List Byte) (attributes : ℕ) {q : ℕ}
    (hq : q < 2 ^ 64) :
    dirPointerAt (newEntry h i name attributes q) rootDirectory i = q := by
  rw [dirPointerAt, newEntry, getLE_setLE_self, Nat.mod_eq_of_lt (by omega)]

theorem newEntry_name (h : Buffer) (i : ℕ) (attributes q : ℕ) (hname : name.length < nameMaxLen) :
    stringCompare (newEntry h i name attributes q) (nameAt rootDirectory i) name = true := by
  have hmax : nameMaxLen = 128 := rfl
  have hentry : entrySize = 416 := rfl
  refine stringCompare_of_bytes fun k hk => ?_
  rw [newEntry, setLE_of_not_mem _ (by unfold nameAt; omega),
    setLE_of_not_mem _ (by unfold nameAt; omega), copy]
  by_cases hlt : k < name.length
  · rw [if_pos (by omega), Nat.zero_add, Nat.add_sub_cancel_left, nameBytes]
  · rw [if_neg (by omega), clear, if_pos (by unfold nameAt; omega),
      List.getD_eq_default _ _ (by omega)]

theorem added_size (hf : Flat f n) (hn : n < maxDirEntries) (args : List String)
    (name : List Byte) :
    (added f args name n).size = f.size + tableSize := by
  have hmax : maxDirEntries = 256 := rfl
  have hentry : entrySize = 416 := rfl
  have hle := hf.headerSize_le
  rw [headerSize_eq] at hle
  simp only [added, File.write, entryAt_root]
  omega

theorem added_entry (hf : Flat f n) (hn : n < maxDirEntries) (args : List String) (name : List Byte)
    (hk : k < entrySize) :
    (added f args name n).bytes (entryAt rootDirectory n + k) =
      newEntry f.header n name (attributesOf args) f.size (entryAt rootDirectory n + k) := by
  have hmax : maxDirEntries = 256 := rfl
  have hentry : entrySize = 416 := rfl
  have hle := hf.headerSize_le
  have hat := entryAt_root n
  rw [headerSize_eq] at hle
  simp only [added, File.write, copy]
  rw [if_neg (by omega), if_pos (by omega), Nat.add_sub_cancel_left]

theorem added_other (args : List String) (name : List Byte) (hk : k < f.size)
    (hout : k < entryAt rootDirectory n ∨ entryAt rootDirectory n + entrySize ≤ k) :
    (added f args name n).bytes k = f.bytes k := by
  simp only [added, File.write, copy]
  rw [if_neg (by omega), if_neg (by omega)]

theorem added_block (args : List String) (name : List Byte) (hk : f.size ≤ k)
    (hlt : k < f.size + tableSize) :
    (added f args name n).bytes k = 0 := by
  simp only [added, File.write, copy]
  rw [if_pos (by omega)]

theorem added_other_entry (hf : Flat f n) (args : List String) (name : List Byte)
    (hi : i < maxDirEntries) (hne : i ≠ n) (hk : k < entrySize) :
    (added f args name n).bytes (entryAt rootDirectory i + k) =
      f.bytes (entryAt rootDirectory i + k) := by
  have hmax : maxDirEntries = 256 := rfl
  have hentry : entrySize = 416 := rfl
  have hle := hf.headerSize_le
  have hi' := entryAt_root i
  have hn' := entryAt_root n
  rw [headerSize_eq] at hle
  exact added_other args name (by omega) (by omega)

theorem added_attributes (hf : Flat f n) (hn : n < maxDirEntries) (args : List String)
    (name : List Byte) :
    attributesAt (added f args name n).bytes rootDirectory n = attributesOf args := by
  have hentry : entrySize = 416 := rfl
  rw [← newEntry_attributes f.header n name args f.size]
  exact getLE_congr fun k hk => added_entry hf hn args name (by omega)

theorem added_dirPointer (hf : Flat f n) (hn : n < maxDirEntries) (args : List String)
    (name : List Byte) :
    dirPointerAt (added f args name n).bytes rootDirectory n = f.size := by
  have hmax : maxDirEntries = 256 := rfl
  have hentry : entrySize = 416 := rfl
  have hsize := hf.size
  rw [headerSize_eq, tableSize_eq] at hsize
  have hpointer :=
    newEntry_dirPointer f.header n name (attributesOf args) (show f.size < 2 ^ 64 by omega)
  refine Eq.trans (getLE_congr fun k hk => ?_) hpointer
  rw [Nat.add_assoc]
  exact added_entry hf hn args name (by omega)

theorem added_attributes_other (hf : Flat f n) (args : List String) (name : List Byte)
    (hi : i < maxDirEntries) (hne : i ≠ n) :
    attributesAt (added f args name n).bytes rootDirectory i =
      attributesAt f.bytes rootDirectory i := by
  have hentry : entrySize = 416 := rfl
  exact getLE_congr fun k hk => added_other_entry hf args name hi hne (by omega)

theorem added_dirPointer_other (hf : Flat f n) (args : List String) (name : List Byte)
    (hi : i < maxDirEntries) (hne : i ≠ n) :
    dirPointerAt (added f args name n).bytes rootDirectory i =
      dirPointerAt f.bytes rootDirectory i := by
  have hentry : entrySize = 416 := rfl
  refine getLE_congr fun k hk => ?_
  rw [Nat.add_assoc]
  exact added_other_entry hf args name hi hne (by omega)

theorem check_congr (hb : ∀ k < 72, h k = h' k) : setfileCheckHeader h = setfileCheckHeader h' := by
  rw [setfileCheckHeader, setfileCheckHeader,
    getLE_congr (c := h') (p := 0) fun k hk => hb _ (by omega),
    getLE_congr (c := h') (p := 16) fun k hk => hb _ (by omega),
    getLE_congr (c := h') (p := 8) fun k hk => hb _ (by omega)]

theorem added_flat (hf : Flat f n) (hn : n < maxDirEntries)
    (hdir : Setfile.directory (attributesOf args) = true) (name : List Byte) :
    Flat (added f args name n) (n + 1) := by
  have hmax : maxDirEntries = 256 := rfl
  have hentry : entrySize = 416 := rfl
  have hclusters : clusterTableSize = 8208 := rfl
  have htable : freeClusterTable = 2144 := rfl
  have hn' := entryAt_root n
  have hle := hf.headerSize_le
  have hle' : headerSize ≤ (added f args name n).size := by
    rw [added_size hf hn]
    omega
  have hheader := headerSize_eq
  have hold : ∀ i < n + 1, i ≠ n → i < n ∧ i < maxDirEntries := fun i hi hne => by omega
  constructor
  · rw [added_size hf hn, hf.size, Nat.succ_mul, Nat.add_assoc]
  · exact hn
  · rw [← hf.header]
    refine check_congr fun k hk => ?_
    rw [header_byte hle' (by omega), header_byte hle (by omega)]
    exact added_other args name (by omega) (.inl (by omega))
  · intro k hk
    rw [← hf.clusters k hk]
    exact added_other args name (by omega) (.inl (by omega))
  · intro i hi
    rcases eq_or_ne i n with rfl | hne
    · rw [added_attributes hf hn]
      exact attributesOf_present args
    · rw [added_attributes_other hf args name (hold i hi hne).2 hne]
      exact hf.present i (hold i hi hne).1
  · intro i hi
    rcases eq_or_ne i n with rfl | hne
    · rw [added_attributes hf hn]
      exact hdir
    · rw [added_attributes_other hf args name (hold i hi hne).2 hne]
      exact hf.directory i (hold i hi hne).1
  · intro i hi
    rcases eq_or_ne i n with rfl | hne
    · rw [added_dirPointer hf hn, hf.size]
    · rw [added_dirPointer_other hf args name (hold i hi hne).2 hne]
      exact hf.dirPointer i (hold i hi hne).1
  · intro i hi hlt
    rw [added_attributes_other hf args name hlt (by omega)]
    exact hf.free i (by omega) hlt
  · intro k hk hlt
    rw [added_size hf hn] at hlt
    by_cases hks : k < f.size
    · rw [added_other args name hks (.inr (by omega))]
      exact hf.blocks k hk hks
    · exact added_block args name (by omega) hlt

theorem Flat.present_lt (hf : Flat f n) (hi : i < maxDirEntries)
    (hp : Setfile.present (attributesAt f.bytes rootDirectory i) = true) : i < n := by
  by_contra hge
  rw [hf.free i (by omega) hi] at hp
  cases hp

theorem Flat.block_attributes (hf : Flat f n) (hi : i < n) (hk : k < maxDirEntries) :
    attributesAt f.bytes (headerSize + i * tableSize) k = 0 := by
  have hmax : maxDirEntries = 256 := rfl
  have hentry : entryAt (headerSize + i * tableSize) k = headerSize + i * tableSize + k * 416 := rfl
  have hsize := hf.size
  rw [tableSize_eq] at hsize hentry
  rw [attributesAt, tableSize_eq]
  exact getLE_eq_zero fun x hx => hf.blocks _ (by omega) (by omega)

theorem Flat.directory_cases (hf : Flat f n) {t : ℕ} (ht : Directory f t) :
    t = rootDirectory ∨ ∃ i < n, t = headerSize + i * tableSize := by
  induction ht with
  | root => exact .inl rfl
  | sub _ hi hp _ ih =>
    rcases ih with rfl | ⟨j, hj, rfl⟩
    · have hlt := hf.present_lt hi hp
      exact .inr ⟨_, hlt, hf.dirPointer _ hlt⟩
    · rw [hf.block_attributes hj hi] at hp
      cases hp

theorem Flat.subDirectory (hf : Flat f n) {t : ℕ} (hs : SubDirectory f t i) :
    t = rootDirectory ∧ i < n := by
  rcases hf.directory_cases hs.parent with rfl | ⟨j, hj, rfl⟩
  · exact ⟨rfl, hf.present_lt hs.lt hs.present⟩
  · have hp := hs.present
    rw [hf.block_attributes hj hs.lt] at hp
    cases hp

theorem Flat.apart (hf : Flat f n) : DirectoriesApart f where
  subs := by
    intro t i t' i' hs hs' hne
    obtain ⟨rfl, hi⟩ := hf.subDirectory hs
    obtain ⟨rfl, hi'⟩ := hf.subDirectory hs'
    have hii : i ≠ i' := fun h => hne (by rw [h])
    rw [blockOf, blockOf, hf.dirPointer i hi, hf.dirPointer i' hi', tableSize_eq]
    unfold Apart
    simp only
    omega
  root := by
    intro t i hs
    obtain ⟨rfl, hi⟩ := hf.subDirectory hs
    rw [blockOf, hf.dirPointer i hi]
    refine .inr ?_
    exact Nat.le_add_right headerSize _

end DevOs.Setfile
