import DevOs.Fat32.Directory
import Mathlib.Logic.Function.Iterate

/-!
# The slots of a directory cluster

A cluster is a sequence of slot kinds, and the slots of a long name come in groups: a first slot
with the number of slots, the other ones, and the entry. `Fat32AllocateLongFileNameEntry` may leave
a slot with the sequence number zero between a group and its entry, which is the state `gap`. In a
cluster with complete groups the parser returns only entries, never a slot of a long name.
-/

namespace DevOs.Fat32

open Bytes

/-- What the parser takes a slot for. -/
inductive SlotKind where
  | free
  | first (n : ℕ)
  | part
  | info
deriving DecidableEq, Repr

def slotKind (e : Buffer) : SlotKind :=
  if isFree e then .free
  else if isLfn e then
    if e 0 &&& 0x40 ≠ 0 ∧ e 0 &&& 0x1F ≠ 0 then .first (e 0 &&& 0x1F).toNat else .part
  else .info

/-- Between two slots: outside of a group, `k` slots before its entry, or behind a gap. -/
inductive GroupState where
  | normal
  | group (k : ℕ)
  | gap
deriving DecidableEq, Repr

def GroupState.next : GroupState → SlotKind → Option GroupState
  | .normal, .free => some .normal
  | .normal, .info => some .normal
  | .normal, .first n => some (.group (n - 1))
  | .group (k + 1), .first _ => some (.group k)
  | .group (k + 1), .part => some (.group k)
  | .group 0, .info => some .normal
  | .group 0, .free => some .gap
  | .gap, .info => some .normal
  | _, _ => none

def GroupState.run (st : GroupState) (ks : List SlotKind) : Option GroupState :=
  ks.foldlM GroupState.next st

/-- The kinds of the `n` slots from the slot `x` on. -/
def slotKinds (b : Buffer) (x n : ℕ) : List SlotKind :=
  (List.range' x n).map (fun i => slotKind (slot b i))

def SlotsOk (n : ℕ) (b : Buffer) : Prop := GroupState.normal.run (slotKinds b 0 n) = some .normal

instance (n : ℕ) (b : Buffer) : Decidable (SlotsOk n b) := inferInstanceAs (Decidable (_ = _))

namespace GroupState

variable {st : GroupState} {k : SlotKind} {l m : List SlotKind}

@[simp] theorem run_nil : st.run [] = some st := rfl

@[simp] theorem run_cons : st.run (k :: l) = (st.next k).bind (fun st => st.run l) := rfl

@[simp] theorem run_append : st.run (l ++ m) = (st.run l).bind (fun st => st.run m) := by
  rw [run, List.foldlM_append]
  rfl

theorem run_replicate_free (n : ℕ) : normal.run (List.replicate n .free) = some normal := by
  induction n with
  | zero => rfl
  | succ n ih => rw [List.replicate_succ, run_cons, next, Option.bind_some, ih]

theorem run_replicate_part (n : ℕ) : (group n).run (List.replicate n .part) = some (group 0) := by
  induction n with
  | zero => rfl
  | succ n ih => rw [List.replicate_succ, run_cons, next, Option.bind_some, ih]

/-- An entry in a free slot. In a gap it takes the place of the entry of the group. -/
theorem run_fill (h : normal.run (l ++ .free :: m) = some normal) :
    normal.run (l ++ .info :: m) = some normal := by
  rw [run_append] at h ⊢
  cases hl : normal.run l with
  | none =>
    rw [hl] at h
    cases h
  | some st =>
    rw [hl, Option.bind_some, run_cons] at h
    rw [Option.bind_some, run_cons]
    cases st with
    | normal => exact h
    | gap => cases h
    | group k =>
      cases k with
      | succ k => cases h
      | zero =>
        change gap.run m = some normal at h
        change normal.run m = some normal
        cases m with
        | nil => cases h
        | cons k m =>
          cases k with
          | info => exact h
          | free => cases h
          | first n => cases h
          | part => cases h

def groupKinds (n : ℕ) : List SlotKind := .first n :: List.replicate (n - 1) .part ++ [.info]

theorem run_groupKinds (n : ℕ) : normal.run (groupKinds n) = some normal := by
  rw [groupKinds, run_append, run_cons, next, Option.bind_some, run_replicate_part]
  rfl

theorem run_group {n : ℕ} (hn : 0 < n)
    (h : normal.run (l ++ List.replicate (n + 1) .free ++ m) = some normal) :
    normal.run (l ++ groupKinds n ++ m) = some normal := by
  rw [run_append, run_append] at h ⊢
  cases hl : normal.run l with
  | none =>
    rw [hl] at h
    cases h
  | some st =>
    obtain ⟨n, rfl⟩ : ∃ k, n = k + 1 := ⟨n - 1, by omega⟩
    rw [hl, Option.bind_some] at h
    rw [Option.bind_some]
    cases st with
    | normal =>
      rw [run_replicate_free] at h
      rw [run_groupKinds]
      exact h
    | gap => cases h
    | group k =>
      cases k with
      | succ k => cases h
      | zero => cases h

end GroupState

theorem slotKinds_succ (b : Buffer) (x n : ℕ) :
    slotKinds b x (n + 1) = slotKind (slot b x) :: slotKinds b (x + 1) n := rfl

def ModeOk : GroupState → ParseMode → Prop
  | .normal, .normal => True
  | .group k, .lfn j _ => j = k
  | .gap, .lfn 0 _ => True
  | _, _ => False

theorem slotKind_eq_free {e : Buffer} : slotKind e = .free ↔ isFree e = true := by
  rw [slotKind]
  split_ifs <;> simp_all

theorem slotKind_deleted {e : Buffer} (h : e 0 = 0xE5) : slotKind e = .free := by
  rw [slotKind_eq_free, isFree, h]
  rfl

theorem parseSlot_lfn {fileName : Name} {e : Buffer} {k : ℕ} {name : Name} (h : isLfn e = true) :
    parseSlot fileName e (.lfn (k + 1) name) = some (.lfn k (parseLfnEntry e ++ name)) := by
  rw [parseSlot, if_pos h]

theorem parseSlot_first {fileName : Name} {e : Buffer} (h : isLfn e = true) (h40 : e 0 &&& 0x40 ≠ 0)
    (h1F : e 0 &&& 0x1F ≠ 0) : parseSlot fileName e .normal =
      some (.lfn ((e 0 &&& 0x1F).toNat - 1) (parseLfnEntry e)) := by
  rw [parseSlot, if_pos ⟨h, h40⟩, if_neg h1F]

/-- An entry: it is the one looked for, or the parser goes on outside of a group. -/
theorem parseSlot_info (fileName : Name) {e : Buffer} {mode : ParseMode} (h : isLfn e = false)
    (hm : mode = .normal ∨ ∃ name, mode = .lfn 0 name) :
    parseSlot fileName e mode = none ∨ parseSlot fileName e mode = some .normal := by
  rcases hm with rfl | ⟨name, rfl⟩
  · rw [parseSlot, h]
    simp only [Bool.false_eq_true, false_and, if_false]
    split_ifs
    · exact Or.inl rfl
    · exact Or.inr rfl
  · rw [parseSlot]
    split_ifs
    · exact Or.inl rfl
    · exact Or.inr rfl

/-- The next state and the next mode agree, and the slot that the parser returns is an entry. -/
theorem parseSlot_ok (fileName : Name) {e : Buffer} {st st' : GroupState} {mode : ParseMode}
    (hf : isFree e = false) (hm : ModeOk st mode) (hst : st.next (slotKind e) = some st') :
    (parseSlot fileName e mode = none ∧ slotKind e = .info) ∨
      ∃ mode', parseSlot fileName e mode = some mode' ∧ ModeOk st' mode' := by
  have hkind : slotKind e = if isLfn e then
      if e 0 &&& 0x40 ≠ 0 ∧ e 0 &&& 0x1F ≠ 0 then .first (e 0 &&& 0x1F).toNat else .part
      else .info := by
    rw [slotKind, hf]
    rfl
  cases hl : isLfn e with
  | false =>
    rw [hl, if_neg (by decide)] at hkind
    rw [hkind] at hst
    have hmode : st' = .normal ∧ (mode = .normal ∨ ∃ name, mode = .lfn 0 name) := by
      cases st with
      | normal =>
        cases mode with
        | normal => exact ⟨(Option.some.inj hst).symm, Or.inl rfl⟩
        | lfn j name => cases hm
      | group k =>
        cases k with
        | succ k => cases hst
        | zero =>
          cases mode with
          | normal => cases hm
          | lfn j name =>
            cases hm
            exact ⟨(Option.some.inj hst).symm, Or.inr ⟨name, rfl⟩⟩
      | gap =>
        cases mode with
        | normal => cases hm
        | lfn j name =>
          cases j with
          | succ j => cases hm
          | zero => exact ⟨(Option.some.inj hst).symm, Or.inr ⟨name, rfl⟩⟩
    obtain ⟨rfl, hmode⟩ := hmode
    rcases parseSlot_info fileName hl hmode with hp | hp
    · exact Or.inl ⟨hp, hkind⟩
    · exact Or.inr ⟨_, hp, trivial⟩
  | true =>
    rw [hl, if_pos rfl] at hkind
    right
    cases st with
    | normal =>
      cases mode with
      | lfn j name => cases hm
      | normal =>
        by_cases h : e 0 &&& 0x40 ≠ 0 ∧ e 0 &&& 0x1F ≠ 0
        · rw [hkind, if_pos h] at hst
          refine ⟨_, parseSlot_first hl h.1 h.2, ?_⟩
          cases hst
          rfl
        · rw [hkind, if_neg h] at hst
          cases hst
    | group k =>
      cases mode with
      | normal => cases hm
      | lfn j name =>
        cases hm
        cases k with
        | zero =>
          rw [hkind] at hst
          split_ifs at hst <;> cases hst
        | succ k =>
          refine ⟨_, parseSlot_lfn hl, ?_⟩
          rw [hkind] at hst
          split_ifs at hst <;> (cases hst; rfl)
    | gap =>
      rw [hkind] at hst
      split_ifs at hst <;> cases hst

theorem ModeOk.free {st st' : GroupState} {mode : ParseMode} (hm : ModeOk st mode)
    (hst : st.next .free = some st') : ModeOk st' mode := by
  cases st with
  | normal =>
    cases hst
    exact hm
  | gap => cases hst
  | group k =>
    cases k with
    | succ k => cases hst
    | zero =>
      cases hst
      cases mode with
      | normal => cases hm
      | lfn j name =>
        cases hm
        trivial

theorem findSlot_info {fileName : Name} {b : Buffer} {n x i : ℕ} {st st' : GroupState}
    {mode : ParseMode} (hm : ModeOk st mode) (hrun : st.run (slotKinds b x n) = some st')
    (h : findSlot fileName b n x mode = some i) :
    i < x + n ∧ slotKind (slot b i) = .info := by
  induction n generalizing x st mode with
  | zero => cases h
  | succ n ih =>
    rw [slotKinds_succ, GroupState.run_cons] at hrun
    obtain ⟨st₁, hnext, hrest⟩ := Option.bind_eq_some_iff.mp hrun
    rw [findSlot] at h
    split_ifs at h with h0 hE5
    · rw [slotKind_deleted hE5] at hnext
      obtain ⟨hi, hk⟩ := ih (hm.free hnext) hrest h
      exact ⟨by omega, hk⟩
    · have hf : isFree (slot b x) = false := by
        rw [isFree, beq_eq_false_iff_ne.mpr h0, beq_eq_false_iff_ne.mpr hE5]
        rfl
      rcases parseSlot_ok fileName hf hm hnext with ⟨hp, hk⟩ | ⟨mode', hp, hm'⟩
      · rw [hp] at h
        cases h
        exact ⟨by omega, hk⟩
      · rw [hp] at h
        obtain ⟨hi, hk⟩ := ih hm' hrest h
        exact ⟨by omega, hk⟩

section Update

variable {b : Buffer} {e : Buffer} {i j n x : ℕ}

theorem slot_setSlot_self (b e : Buffer) (i : ℕ) : slot (setSlot b i e) i = window e 0 32 := by
  rw [slot, setSlot, window_copy_self]

theorem slot_setSlot_of_ne (h : j ≠ i) : slot (setSlot b i e) j = slot b j := by
  rw [slot, setSlot, window_copy_of_disjoint (by omega)]
  rfl

theorem slot_window (h : i < n) : slot (window b 0 (32 * n)) i = slot b i := by
  rw [slot, window_window (by omega), Nat.zero_add]
  rfl

theorem window_apply (h : i < n) : window e 0 n i = e i := by
  rw [window, if_pos h, Nat.zero_add]

@[simp] theorem slotKind_window : slotKind (window e 0 32) = slotKind e := by
  rw [slotKind, slotKind, isFree, isFree, isLfn, isLfn, window_apply (by decide),
    window_apply (by decide)]

@[simp] theorem isDirectory_window : isDirectory (window e 0 32) = isDirectory e := by
  rw [isDirectory, isDirectory, window_apply (by decide)]

@[simp] theorem firstCluster_window : firstCluster (window e 0 32) = firstCluster e := by
  rw [firstCluster, firstCluster, getLE_window (by decide), getLE_window (by decide), Nat.zero_add,
    Nat.zero_add]

@[simp] theorem fileSize_window : fileSize (window e 0 32) = fileSize e := by
  rw [fileSize, fileSize, getLE_window (by decide), Nat.zero_add]

theorem slotKinds_add (b : Buffer) (x m n : ℕ) :
    slotKinds b x (m + n) = slotKinds b x m ++ slotKinds b (x + m) n := by
  rw [slotKinds, slotKinds, slotKinds, ← List.map_append, List.range'_append_1]

theorem slotKinds_congr {c : Buffer}
    (h : ∀ k, x ≤ k → k < x + n → slotKind (slot b k) = slotKind (slot c k)) :
    slotKinds b x n = slotKinds c x n := by
  apply List.map_congr_left
  intro k hk
  rw [List.mem_range'_1] at hk
  exact h k hk.1 hk.2

theorem slotKinds_eq_replicate {k : SlotKind}
    (h : ∀ i, x ≤ i → i < x + n → slotKind (slot b i) = k) :
    slotKinds b x n = List.replicate n k := by
  rw [List.eq_replicate_iff]
  refine ⟨by rw [slotKinds, List.length_map, List.length_range'], ?_⟩
  intro a ha
  obtain ⟨i, hi, rfl⟩ := List.mem_map.mp ha
  rw [List.mem_range'_1] at hi
  exact h i hi.1 hi.2

theorem slotsOk_of_free (h : ∀ i < n, slotKind (slot b i) = .free) : SlotsOk n b := by
  rw [SlotsOk, slotKinds_eq_replicate (fun i _ hi => h i (by omega))]
  exact GroupState.run_replicate_free n

theorem SlotsOk.congr {c : Buffer} (h : SlotsOk n b)
    (hk : ∀ i < n, slotKind (slot c i) = slotKind (slot b i)) : SlotsOk n c := by
  rw [SlotsOk, slotKinds_congr (fun i _ hi => hk i (by omega))]
  exact h

theorem SlotsOk.fill (h : SlotsOk n b) (hi : i < n) (hf : slotKind (slot b i) = .free)
    (he : slotKind e = .info ∨ slotKind e = .free) : SlotsOk n (setSlot b i e) := by
  have hself : slotKind (slot (setSlot b i e) i) = slotKind e := by
    rw [slot_setSlot_self, slotKind_window]
  rcases he with he | he
  · obtain ⟨m, rfl⟩ : ∃ m, n = i + (m + 1) := ⟨n - i - 1, by omega⟩
    rw [SlotsOk, slotKinds_add, slotKinds_succ, Nat.zero_add] at h ⊢
    rw [hf] at h
    rw [hself, he, slotKinds_congr (c := b), slotKinds_congr (x := i + 1) (c := b)]
    · exact GroupState.run_fill h
    · intro k hk _
      rw [slot_setSlot_of_ne (by omega)]
    · intro k _ hk
      rw [slot_setSlot_of_ne (by omega)]
  · apply h.congr
    intro k hk
    by_cases hki : k = i
    · rw [hki, hself, he, hf]
    · rw [slot_setSlot_of_ne hki]

end Update

theorem setChars_of_disjoint {e : Buffer} {os : List ℕ} {cs : Name} {i : ℕ}
    (h : ∀ o ∈ os, i < o ∨ o + 2 ≤ i) : setChars e os cs i = e i := by
  induction os generalizing e cs with
  | nil => rfl
  | cons o os ih =>
    cases cs with
    | nil => rfl
    | cons c cs =>
      rw [setChars, ih (fun p hp => h p (by simp [hp])), setLE_of_not_mem _ (h o (by simp))]

theorem setBytes_of_lt {e : Buffer} {cs : List Byte} {o i : ℕ} (h : i < o) :
    setBytes e o cs i = e i := by
  induction cs generalizing e o with
  | nil => rfl
  | cons c cs ih => rw [setBytes, ih (by omega), setLE_of_not_mem _ (by omega)]

theorem setBytes_of_le {e : Buffer} {cs : List Byte} {o i : ℕ} (h : o + cs.length ≤ i) :
    setBytes e o cs i = e i := by
  induction cs generalizing e o with
  | nil => rfl
  | cons c cs ih =>
    rw [List.length_cons] at h
    rw [setBytes, ih (by omega), setLE_of_not_mem _ (by omega)]

section NewEntry

variable (e : Buffer) (q attributes : Byte) (fileName : Name) (c : LfnCursor) (flags : SfnFlags)

theorem setLfnEntry_first : setLfnEntry e q fileName c 0 = q := by
  rw [setLfnEntry, setChars_of_disjoint (by decide), setLE_of_not_mem _ (by decide),
    setLE_of_not_mem _ (by decide), setLE_byte, if_pos rfl]

theorem setLfnEntry_attributes : setLfnEntry e q fileName c 11 = 0xF := by
  rw [setLfnEntry, setChars_of_disjoint (by decide)]
  rfl

theorem slotKind_setLfnEntry : slotKind (setLfnEntry e q fileName c) =
    if q = 0 ∨ q = 0xE5 then .free
    else if q &&& 0x40 ≠ 0 ∧ q &&& 0x1F ≠ 0 then .first (q &&& 0x1F).toNat else .part := by
  rw [slotKind, isFree, isLfn, setLfnEntry_first, setLfnEntry_attributes]
  simp only [Bool.or_eq_true, beq_iff_eq]
  rfl

theorem setInfoEntry_first : setInfoEntry e attributes 0 = 0x7E := by
  rw [setInfoEntry, setLE_of_not_mem _ (by decide), setLE_of_not_mem _ (by decide),
    setLE_of_not_mem _ (by decide), setLE_of_not_mem _ (by decide), lfnMark, setBytes,
    setBytes_of_lt (by decide)]
  rfl

theorem setInfoEntry_attributes : setInfoEntry e attributes 11 = attributes := by
  rw [setInfoEntry, setLE_of_not_mem _ (by decide), setLE_of_not_mem _ (by decide),
    setLE_of_not_mem _ (by decide), setLE_byte, if_pos rfl]

theorem firstCluster_setInfoEntry : firstCluster (setInfoEntry e attributes) = 0 := by
  rw [firstCluster, setInfoEntry, getLE_setLE_self, getLE_setLE_of_disjoint _ (by decide),
    getLE_setLE_self, Nat.zero_mod, Nat.mul_zero]

theorem fileSize_setInfoEntry : fileSize (setInfoEntry e attributes) = 0 := by
  rw [fileSize, setInfoEntry, getLE_setLE_of_disjoint _ (by decide),
    getLE_setLE_of_disjoint _ (by decide), getLE_setLE_self, Nat.zero_mod]

theorem slotKind_setInfoEntry {attributes : Byte} (h : attributes &&& 0xF ≠ 0xF) :
    slotKind (setInfoEntry e attributes) = .info := by
  rw [slotKind, isFree, isLfn, setInfoEntry_first, setInfoEntry_attributes, if_neg (by decide),
    if_neg (by simpa using h)]

theorem sfnBytes_of_disjoint (stop : WChar → Bool) {n o i : ℕ} (name : Name) (e : Buffer)
    (h : i < o ∨ o + n ≤ i) : (sfnBytes stop n o name e).1 i = e i := by
  induction n generalizing o name e with
  | zero => rfl
  | succ n ih =>
    cases name with
    | nil => rw [sfnBytes, ih _ _ (by omega), setLE_of_not_mem _ (by omega)]
    | cons c cs =>
      rw [sfnBytes]
      split_ifs
      · rw [ih _ _ (by omega), setLE_of_not_mem _ (by omega)]
      · rw [ih _ _ (by omega), setLE_of_not_mem _ (by omega)]

theorem sfnBytes_taken_le (stop : WChar → Bool) (n o : ℕ) (name : Name) (e : Buffer) :
    (sfnBytes stop n o name e).2.2 ≤ n := by
  induction n generalizing o name e with
  | zero => exact Nat.le_refl 0
  | succ n ih =>
    cases name with
    | nil =>
      rw [sfnBytes]
      exact Nat.le_succ_of_le (ih _ _ _)
    | cons c cs =>
      rw [sfnBytes]
      split_ifs
      · exact Nat.le_succ_of_le (ih _ _ _)
      · exact Nat.succ_le_succ (ih _ _ _)

theorem setupEntryShortFileName_of_le {i : ℕ} (h : 11 ≤ i) :
    setupEntryShortFileName e fileName i = e i := by
  have hbase := sfnBytes_of_disjoint (fun c => c < 0x20 || c == 0x2E) (n := 8) (o := 0) fileName e
    (show i < 0 ∨ 0 + 8 ≤ i by omega)
  have htaken := sfnBytes_taken_le (fun c => c < 0x20 || c == 0x2E) 8 0 fileName e
  rw [setupEntryShortFileName]
  rcases hr : sfnBytes (fun c => c < 0x20 || c == 0x2E) 8 0 fileName e with ⟨e', rest, taken⟩
  rw [hr] at hbase htaken
  dsimp only at hbase htaken ⊢
  split_ifs
  · rw [setLE_of_not_mem _ (by omega), hbase]
  · rw [sfnBytes_of_disjoint _ _ _ (by omega), hbase]
  · rw [setBytes_of_le (by simp only [List.length_cons, List.length_nil]; omega), hbase]

theorem setSfnEntry_attributes : setSfnEntry e fileName attributes flags 11 = attributes := by
  rw [setSfnEntry]
  split_ifs <;>
    simp only [setLE_of_not_mem _ (show 11 < 12 ∨ 12 + 1 ≤ 11 by decide), setLE_byte, if_true]

theorem setSfnEntry_of_le {i : ℕ} (h : 13 ≤ i) :
    setSfnEntry e fileName attributes flags i = e i := by
  have hname := setupEntryShortFileName_of_le e fileName (show 11 ≤ i by omega)
  rw [setSfnEntry]
  split_ifs <;>
    simp only [setLE_of_not_mem _ (show i < 12 ∨ 12 + 1 ≤ i by omega),
      setLE_of_not_mem _ (show i < 11 ∨ 11 + 1 ≤ i by omega), hname]

theorem firstCluster_setSfnEntry :
    firstCluster (setSfnEntry (fun _ => 0) fileName attributes flags) = 0 := by
  have hzero (o : ℕ) (ho : 13 ≤ o) :
      getLE (setSfnEntry (fun _ => 0) fileName attributes flags) o 2 = 0 := by
    rw [← getLE_zero o 2]
    apply getLE_congr
    intro i _
    rw [setSfnEntry_of_le _ _ _ _ (by omega)]
  rw [firstCluster, hzero 26 (by decide), hzero 20 (by decide), Nat.mul_zero]

theorem fileSize_setSfnEntry :
    fileSize (setSfnEntry (fun _ => 0) fileName attributes flags) = 0 := by
  rw [fileSize, ← getLE_zero 28 4]
  apply getLE_congr
  intro i _
  rw [setSfnEntry_of_le _ _ _ _ (by omega)]

theorem slotKind_setSfnEntry {attributes : Byte} (h : attributes &&& 0xF ≠ 0xF) :
    slotKind (setSfnEntry e fileName attributes flags) = .info ∨
      slotKind (setSfnEntry e fileName attributes flags) = .free := by
  rw [slotKind, isLfn, setSfnEntry_attributes]
  split_ifs with h1 h2
  · exact Or.inr rfl
  · exact absurd (beq_iff_eq.mp h2) h
  · exact absurd (beq_iff_eq.mp h2) h
  · exact Or.inl rfl

end NewEntry

/-- The kind of the slot with a sequence number. The number zero marks the slot as free. -/
def lfnKind (numLfnEntries sequenceNumber : ℕ) : SlotKind :=
  if sequenceNumber = 0 then .free
  else if sequenceNumber = numLfnEntries then .first numLfnEntries
  else .part

theorem slotKind_lfnByte (e : Buffer) (fileName : Name) (c : LfnCursor) {n q : ℕ} (hn : 0 < n)
    (hn' : n < 32) (hq : q ≤ n) :
    slotKind (setLfnEntry e (lfnByte n q) fileName c) = lfnKind n q := by
  have hbyte : ∀ n : Fin 32, ∀ q : Fin 32, 0 < n.val → q ≤ n →
      (if lfnByte n q = 0 ∨ lfnByte n q = 0xE5 then SlotKind.free
      else if lfnByte n q &&& 0x40 ≠ 0 ∧ lfnByte n q &&& 0x1F ≠ 0 then
        .first (lfnByte n q &&& 0x1F).toNat else .part) = lfnKind n q := by
    decide
  rw [slotKind_setLfnEntry]
  exact hbyte ⟨n, hn'⟩ ⟨q, by omega⟩ hn hq

theorem slot_setLfnEntries (fileName : Name) (numLfnEntries i : ℕ) (c : LfnCursor) (b : Buffer)
    {n q : ℕ} (hn : n ≤ q + 1) (hq : q < 2 ^ 16) (k : ℕ) :
    slot (setLfnEntries fileName numLfnEntries n i q c b) k =
      if i ≤ k ∧ k < i + n then
        window (setLfnEntry (slot b k) (lfnByte numLfnEntries (q - (k - i))) fileName
          (LfnCursor.next^[k - i] c)) 0 32
      else slot b k := by
  induction n generalizing i q c b with
  | zero => rw [setLfnEntries, if_neg (by omega)]
  | succ n ih =>
    rw [setLfnEntries]
    cases n with
    | zero =>
      rw [setLfnEntries]
      by_cases hk : k = i
      · rw [hk, slot_setSlot_self, if_pos (by omega), Nat.sub_self]
        rfl
      · rw [slot_setSlot_of_ne hk, if_neg (by omega)]
    | succ n =>
      have hprev : sub32 q 1 % 2 ^ 16 = q - 1 := by
        rw [sub32]
        omega
      rw [hprev, ih _ _ _ (by omega) (by omega)]
      by_cases hk : k = i
      · rw [hk, if_neg (by omega), slot_setSlot_self, if_pos (by omega), Nat.sub_self]
        rfl
      · rw [slot_setSlot_of_ne hk]
        by_cases hin : i + 1 ≤ k ∧ k < i + 1 + (n + 1)
        · rw [if_pos hin, if_pos (by omega), ← Function.iterate_succ_apply,
            show q - 1 - (k - (i + 1)) = q - (k - i) by omega,
            show (k - (i + 1)).succ = k - i by omega]
        · rw [if_neg hin, if_neg (by omega)]

section LongName

variable {fileName : Name} {attributes : Byte} {n first last i : ℕ} {b : Buffer}

theorem slot_lfnCluster (hn : last - first ≤ n + 1) (hn' : n < 32) (k : ℕ) :
    slot (lfnCluster fileName attributes n first last b) k =
      if k = last then window (setInfoEntry (slot b last) attributes) 0 32
      else if first ≤ k ∧ k < last then
        window (setLfnEntry (slot b k) (lfnByte n (n - (k - first))) fileName
          (LfnCursor.next^[k - first] (LfnCursor.start fileName))) 0 32
      else slot b k := by
  have hmod : n % 2 ^ 16 = n := Nat.mod_eq_of_lt (by omega)
  have hslots := slot_setLfnEntries fileName n first (LfnCursor.start fileName) b hn
    (show n < 2 ^ 16 by omega)
  rw [lfnCluster, hmod]
  by_cases hk : k = last
  · rw [if_pos hk, hk, slot_setSlot_self, hslots, if_neg (by omega)]
  · rw [if_neg hk, slot_setSlot_of_ne hk, hslots]
    by_cases hin : first ≤ k ∧ k < last
    · rw [if_pos (by omega), if_pos hin]
    · rw [if_neg (by omega), if_neg hin]

theorem slotKind_lfnCluster (fileName : Name) (b : Buffer) (hlast : last - first ≤ n + 1)
    (hn : 0 < n) (hn' : n < 32) (hattr : attributes &&& 0xF ≠ 0xF) (k : ℕ) :
    slotKind (slot (lfnCluster fileName attributes n first last b) k) =
      if k = last then .info
      else if first ≤ k ∧ k < last then lfnKind n (n - (k - first))
      else slotKind (slot b k) := by
  rw [slot_lfnCluster hlast hn']
  split_ifs
  · rw [slotKind_window, slotKind_setInfoEntry _ hattr]
  · rw [slotKind_window, slotKind_lfnByte _ _ _ hn hn' (by omega)]
  · rfl

theorem slotKinds_of_lfnKind {x : ℕ} (hn : 0 < n)
    (h : ∀ k, x ≤ k → k < x + n → slotKind (slot b k) = lfnKind n (n - (k - x))) :
    slotKinds b x n = .first n :: List.replicate (n - 1) .part := by
  obtain ⟨n, rfl⟩ : ∃ m, n = m + 1 := ⟨n - 1, by omega⟩
  have hx := h x (by omega) (by omega)
  rw [Nat.sub_self, Nat.sub_zero, lfnKind, if_neg (by omega), if_pos rfl] at hx
  rw [slotKinds_succ, hx, Nat.add_sub_cancel]
  congr 1
  apply slotKinds_eq_replicate
  intro k hk hk'
  rw [h k (by omega) (by omega), lfnKind, if_neg (by omega), if_neg (by omega)]

theorem SlotsOk.group {m : ℕ} (h : SlotsOk m b) (hn : 0 < n) (hn' : n < 32) (hlast : first + n < m)
    (hattr : attributes &&& 0xF ≠ 0xF)
    (hfree : ∀ k, first ≤ k → k < first + (n + 1) → slotKind (slot b k) = .free) :
    SlotsOk m (lfnCluster fileName attributes n first (first + n) b) := by
  have hkind := slotKind_lfnCluster fileName b
    (show first + n - first ≤ n + 1 by omega) hn hn' hattr
  obtain ⟨r, rfl⟩ : ∃ r, m = first + (n + 1) + r := ⟨m - (first + (n + 1)), by omega⟩
  rw [SlotsOk, slotKinds_add, slotKinds_add] at h ⊢
  rw [Nat.zero_add, Nat.zero_add] at h ⊢
  rw [slotKinds_eq_replicate hfree] at h
  have hgroup : slotKinds (lfnCluster fileName attributes n first (first + n) b) first (n + 1) =
      GroupState.groupKinds n := by
    rw [slotKinds_add, slotKinds_of_lfnKind hn, GroupState.groupKinds, slotKinds_succ, hkind,
      if_pos rfl]
    · rfl
    · intro k hk hk'
      rw [hkind, if_neg (by omega), if_pos (by omega)]
  rw [hgroup, slotKinds_congr (c := b), slotKinds_congr (x := first + (n + 1)) (c := b)]
  · exact GroupState.run_group hn h
  · intro k hk _
    rw [hkind, if_neg (by omega), if_neg (by omega)]
  · intro k _ hk
    rw [hkind, if_neg (by omega), if_neg (by omega)]

/-- A long name in a new cluster: behind the group is a slot with the sequence number zero. -/
theorem slotsOk_gap {m : ℕ} (hn : 0 < n) (hn' : n < 32) (hm : n + 1 < m)
    (hattr : attributes &&& 0xF ≠ 0xF) (hfree : ∀ k < m, slotKind (slot b k) = .free) :
    SlotsOk m (lfnCluster fileName attributes n 0 (n + 1) b) := by
  have hkind := slotKind_lfnCluster fileName b
    (show n + 1 - 0 ≤ n + 1 by omega) hn hn' hattr
  obtain ⟨r, rfl⟩ : ∃ r, m = n + (r + 1 + 1) := ⟨m - (n + 2), by omega⟩
  rw [SlotsOk, slotKinds_add, slotKinds_of_lfnKind hn, Nat.zero_add, slotKinds_succ, slotKinds_succ,
    hkind, hkind, if_neg (by omega), if_pos (by omega), if_pos rfl, Nat.sub_zero, Nat.sub_self,
    slotKinds_eq_replicate (k := .free)]
  · rw [GroupState.run_append, GroupState.run_cons, GroupState.next, Option.bind_some,
      GroupState.run_replicate_part]
    exact GroupState.run_replicate_free r
  · intro k hk hk'
    rw [hkind, if_neg (by omega), if_neg (by omega), hfree k (by omega)]
  · intro k hk hk'
    rw [hkind, if_neg (by omega), if_pos (by omega)]

end LongName

end DevOs.Fat32
