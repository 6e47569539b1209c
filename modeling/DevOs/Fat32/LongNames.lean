import DevOs.Fat32.Runs
import DevOs.Fat32.Stored

/-!
# The round trip of a long name

A long name in the slots behind complete or deleted entries of a cluster is read back as it is, so a
search for it returns its entry and a search for another name does not.
-/

namespace DevOs.Fat32

open Bytes

variable {b b' : Buffer} {mode : ParseMode} {st : GroupState} {m n r x i : ℕ} {name fileName : Name}
  {attributes : Byte}

def SameUpToCase (a b : Name) : Prop := a.map upperChar = b.map upperChar

instance (a b : Name) : Decidable (SameUpToCase a b) := inferInstanceAs (Decidable (_ = _))

/-- The first `m` slots of the cluster are complete entries or deleted. -/
structure Complete (b : Buffer) (m : ℕ) : Prop where
  used : ∀ i < m, slot b i 0 ≠ 0
  groups : GroupState.normal.run (slotKinds b 0 m) = some .normal

theorem readSlots_bounds (h : (i, name) ∈ readSlots b n x mode) : x ≤ i ∧ i < x + n := by
  induction n generalizing x mode with
  | zero => cases h
  | succ n ih =>
    rw [readSlots] at h
    split_ifs at h
    · cases h
    · obtain ⟨hle, hlt⟩ := ih h
      exact ⟨by omega, by omega⟩
    · rcases List.mem_append.mp h with h | h
      · obtain ⟨a, -, ha⟩ := List.mem_map.mp h
        cases ha
        exact ⟨Nat.le_refl _, by omega⟩
      · obtain ⟨hle, hlt⟩ := ih h
        exact ⟨by omega, by omega⟩

theorem readSlots_append (hm : ModeOk st mode) (hrun : st.run (slotKinds b x m) = some .normal)
    (hused : ∀ i, x ≤ i → i < x + m → slot b i 0 ≠ 0) (r : ℕ) :
    readSlots b (m + r) x mode = readSlots b m x mode ++ readSlots b r (x + m) .normal := by
  induction m generalizing x st mode with
  | zero =>
    cases hrun
    cases mode with
    | normal => rw [Nat.zero_add, readSlots, Nat.add_zero, List.nil_append]
    | lfn k name => cases hm
  | succ m ih =>
    rw [slotKinds_succ, GroupState.run_cons] at hrun
    obtain ⟨st₁, hnext, hrest⟩ := Option.bind_eq_some_iff.mp hrun
    have h0 := hused x (Nat.le_refl x) (by omega)
    have hused' (i : ℕ) (hi : x + 1 ≤ i) (hlt : i < x + 1 + m) : slot b i 0 ≠ 0 :=
      hused i (by omega) (by omega)
    rw [Nat.succ_add_eq_add_succ, Nat.add_succ, readSlots, if_neg h0, readSlots, if_neg h0,
      show x + (m + 1) = x + 1 + m by omega]
    split_ifs with hE5
    · rw [slotKind_deleted hE5] at hnext
      exact ih (hm.free hnext) hrest hused'
    · rw [ih (hm.next (isFree_eq_false.mpr ⟨h0, hE5⟩) hnext) hrest hused', List.append_assoc]

theorem Complete.readSlots (h : Complete b m) (r : ℕ) :
    readSlots b (m + r) 0 .normal = readSlots b m 0 .normal ++ readSlots b r m .normal := by
  have hok : ModeOk .normal .normal := trivial
  rw [readSlots_append hok h.groups (fun i _ hi => h.used i (by omega)), Nat.zero_add]

theorem readSlots_congr_eq (h : ∀ i, x ≤ i → i < x + n → slot b' i = slot b i) (mode : ParseMode) :
    Fat32.readSlots b' n x mode = Fat32.readSlots b n x mode := by
  induction n generalizing x mode with
  | zero => rfl
  | succ n ih =>
    have hrest (mode : ParseMode) : Fat32.readSlots b' n (x + 1) mode =
        Fat32.readSlots b n (x + 1) mode :=
      ih (fun i hi hlt => h i (by omega) (by omega)) mode
    rw [Fat32.readSlots, Fat32.readSlots, h x (Nat.le_refl x) (by omega), hrest, hrest]

theorem Complete.congr (h : Complete b m) (hsame : ∀ i < m, slot b' i = slot b i) :
    Complete b' m := by
  refine ⟨fun i hi => ?_, ?_⟩
  · rw [hsame i hi]
    exact h.used i hi
  · have hkinds : slotKinds b' 0 m = slotKinds b 0 m :=
      slotKinds_congr fun i _ hi => by rw [hsame i (by omega)]
    rw [hkinds]
    exact h.groups

section NewName

variable (hlen : name.length ≤ 403)

include hlen

theorem slot_longName (hi : i ≠ m + lfnEntries name.length) :
    slot (lfnCluster name attributes (lfnEntries name.length) m (m + lfnEntries name.length) b) i =
      if m ≤ i ∧ i < m + lfnEntries name.length then
        window (setLfnEntry (slot b i)
          (lfnByte (lfnEntries name.length) (lfnEntries name.length - (i - m))) name
          (LfnCursor.next^[i - m] (LfnCursor.start name))) 0 32
      else slot b i := by
  rw [slot_lfnCluster (by omega) (lfnEntries_lt_of_le hlen), if_neg hi]

theorem longSlots_lfnCluster :
    LongSlots name (lfnCluster name attributes (lfnEntries name.length) m
      (m + lfnEntries name.length) b) m := by
  intro k hk
  refine ⟨slot b (m + k), ?_⟩
  rw [slot_longName hlen (by omega), if_pos (by omega), Nat.add_sub_cancel_left]

variable (hname : name ≠ [])

include hname

theorem longName_used (hle : m ≤ i) (hlt : i < m + (lfnEntries name.length + 1)) : isFree
    (slot (lfnCluster name attributes (lfnEntries name.length) m (m + lfnEntries name.length) b)
      i) = false := by
  have hlt32 := lfnEntries_lt_of_le hlen
  have hpos := lfnEntries_bounds (List.length_pos_iff.mpr hname)
  by_cases hi : i = m + lfnEntries name.length
  · rw [slot_lfnCluster (by omega) hlt32, if_pos hi, isFree_window, isFree, setInfoEntry_first]
    rfl
  · rw [slot_longName hlen hi, if_pos (by omega), isFree_window, Bool.eq_false_iff, ne_eq,
      ← slotKind_eq_free, slotKind_lfnByte _ _ _ (by omega) hlt32 (by omega), lfnKind,
      if_neg (by omega)]
    split_ifs <;> simp

theorem Complete.readSlots_longName (h : Complete b m) (hchars : ∀ c ∈ name, c ≠ 0 ∧ c ≠ 0xFFFF)
    (r : ℕ) :
    Fat32.readSlots (lfnCluster name attributes (lfnEntries name.length) m
      (m + lfnEntries name.length) b)
        (m + (lfnEntries name.length + 1 + r)) 0 .normal =
      Fat32.readSlots b m 0 .normal ++ (m + lfnEntries name.length, name) ::
        Fat32.readSlots (lfnCluster name attributes (lfnEntries name.length) m
          (m + lfnEntries name.length) b) r
          (m + (lfnEntries name.length + 1)) .normal := by
  have hsame (i : ℕ) (hi : i < m) : slot (lfnCluster name attributes (lfnEntries name.length) m
      (m + lfnEntries name.length) b) i = slot b i := by
    rw [slot_longName hlen (by omega), if_neg (by omega)]
  have hlong : longName name = name := by
    rw [longName, List.filter_eq_self]
    exact fun c hc => decide_eq_true (hchars c hc)
  rw [(h.congr hsame).readSlots, readSlots_congr_eq fun i _ hi => hsame i (by omega),
    readSlots_used fun i hi hlt => longName_used hlen hname hi hlt,
    (longSlots_lfnCluster hlen).readUsed_entry hname (lfnEntries_lt_of_le hlen), hlong]
  rfl

end NewName

/-- What the search for a name in the cluster with the new entry at the slot `x` returns. -/
structure ReadsBack (p : Partition) (before : List (ℕ × Name)) (b : Buffer) (x : ℕ) (name : Name) :
    Prop where
  decoded : readSlots b (x + 1) 0 .normal = before ++ [(x, name)]
  found : ∀ fileName, SameUpToCase name fileName → (∀ e ∈ before, ¬ SameUpToCase e.2 name) →
    fat32FindDirectoryClusterEntry p fileName b = some x
  other : ∀ fileName, ¬ SameUpToCase name fileName →
    fat32FindDirectoryClusterEntry p fileName b ≠ some x

/-- A long name is read back from the slots that it was written to. -/
theorem long_name_read_back (p : Partition) (attributes : Byte) (hname : name ≠ [])
    (hlen : name.length ≤ 403) (hchars : ∀ c ∈ name, c ≠ 0 ∧ c ≠ 0xFFFF) (h : Complete b m)
    (hfits : m + lfnEntries name.length < p.entriesPerCluster) :
    ReadsBack p (readSlots b m 0 .normal)
      (lfnCluster name attributes (lfnEntries name.length) m (m + lfnEntries name.length) b)
      (m + lfnEntries name.length) name := by
  obtain ⟨r, hr⟩ : ∃ r, p.entriesPerCluster = m + (lfnEntries name.length + 1 + r) :=
    ⟨p.entriesPerCluster - (m + (lfnEntries name.length + 1)), by omega⟩
  have hread := @Complete.readSlots_longName b m name attributes hlen hname h hchars
  have hbefore (e : ℕ × Name) (he : e ∈ readSlots b m 0 .normal) : e.1 < m := by
    have := readSlots_bounds he
    omega
  refine ⟨?_, fun fileName hsame hfirst => ?_, fun fileName hne hfound => ?_⟩
  · have hzero := hread 0
    rwa [Nat.add_zero] at hzero
  · rw [fat32FindDirectoryClusterEntry, findSlot_eq, hr, hread, List.find?_append,
      List.find?_eq_none.mpr fun e he hmatch =>
      hfirst e he (((nameMatches_iff _ _).mp hmatch).trans hsame.symm),
      Option.none_or, List.find?_cons, (nameMatches_iff name fileName).mpr hsame]
    rfl
  · rw [fat32FindDirectoryClusterEntry, findSlot_eq, hr, hread] at hfound
    obtain ⟨e, hfind, hslot⟩ := Option.map_eq_some_iff.mp hfound
    have hmatch := List.find?_some hfind
    rcases List.mem_append.mp (List.mem_of_find?_eq_some hfind) with he | he
    · have := hbefore e he
      omega
    · rcases List.mem_cons.mp he with rfl | he
      · exact hne ((nameMatches_iff name fileName).mp hmatch)
      · have := readSlots_bounds he
        omega

/-- `long_file.text` -/
def longFileName : Name :=
  [0x6C, 0x6F, 0x6E, 0x67, 0x5F, 0x66, 0x69, 0x6C, 0x65, 0x2E, 0x74, 0x65, 0x78, 0x74]

/-- The root directory of a partition with the label `DISK`. -/
def labelCluster : Buffer := labelEntry [0x44, 0x49, 0x53, 0x4B]

theorem smallGeometry_entries : smallGeometry.partition.entriesPerCluster = 16 := rfl

theorem longFileName_entries : lfnEntries longFileName.length = 2 := by decide

theorem longFileName_chars : ∀ c ∈ longFileName, c ≠ 0 ∧ c ≠ 0xFFFF := by simp [longFileName]

theorem longFileName_fits :
    1 + lfnEntries longFileName.length < smallGeometry.partition.entriesPerCluster := by
  rw [smallGeometry_entries, longFileName_entries]
  decide

theorem labelCluster_complete : Complete labelCluster 1 := ⟨by decide, by decide⟩

/-- The name in two slots behind the label. -/
theorem long_name_read_back_sample :
    ReadsBack smallGeometry.partition (readSlots labelCluster 1 0 .normal)
      (lfnCluster longFileName 0x20 (lfnEntries longFileName.length) 1
        (1 + lfnEntries longFileName.length)
        labelCluster) (1 + lfnEntries longFileName.length) longFileName :=
  long_name_read_back smallGeometry.partition 0x20 (List.cons_ne_nil _ _)
    (Nat.le_of_ble_eq_true rfl)
    longFileName_chars labelCluster_complete longFileName_fits

end DevOs.Fat32
