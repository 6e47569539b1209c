import DevOs.Fat32.Lookup

/-!
# The names in a directory

The parser of `Fat32FindDirectoryClusterEntry` gives every entry of a cluster a name. `readSlots` is
the list of these entries, and a search returns the first one whose name matches. When the used
slots of a cluster are before the free ones, a new entry behind them adds its name to the list.
-/

namespace DevOs.Fat32

open Bytes

variable {b b' e : Buffer} {mode : ParseMode} {m n r x i : ℕ} {fileName : Name}

def upperChar (c : WChar) : WChar := if 0x61 ≤ c ∧ c ≤ 0x7A then c - 32 else c

theorem insensitiveCompareChar_iff (c₁ c₂ : WChar) :
    insensitiveCompareChar c₁ c₂ = true ↔ upperChar c₁ = upperChar c₂ := by
  rw [insensitiveCompareChar, upperChar, upperChar]
  split_ifs <;> simp only [beq_iff_eq] <;> bv_omega

theorem nameMatches_iff (a b : Name) :
    nameMatches a b = true ↔ a.map upperChar = b.map upperChar := by
  induction a generalizing b with
  | nil => cases b <;> simp [nameMatches]
  | cons c a ih =>
    cases b with
    | nil => simp [nameMatches]
    | cons d b =>
      rw [nameMatches, Bool.and_eq_true, insensitiveCompareChar_iff, ih, List.map_cons,
        List.map_cons, List.cons.injEq]

theorem nameMatches_comm (a b : Name) : nameMatches a b = nameMatches b a := by
  rw [Bool.eq_iff_iff, nameMatches_iff, nameMatches_iff, eq_comm]

/-- The name of the entry at a slot that is not free, and the mode for the next slot. -/
def readSlot (e : Buffer) : ParseMode → Option Name × ParseMode
  | .lfn 0 name => (some name, .normal)
  | .lfn (k + 1) name =>
    if isLfn e then (none, .lfn k (parseLfnEntry e ++ name)) else (some (parseSfnEntry e), .normal)
  | .normal =>
    if isLfn e ∧ e 0 &&& 0x40 ≠ 0 then
      if e 0 &&& 0x1F = 0 then (none, .normal)
      else (none, .lfn ((e 0 &&& 0x1F).toNat - 1) (parseLfnEntry e))
    else (some (parseSfnEntry e), .normal)

/-- The slots and the names of the entries among the next `n` slots. -/
def readSlots (b : Buffer) : ℕ → ℕ → ParseMode → List (ℕ × Name)
  | 0, _, _ => []
  | n + 1, x, mode =>
    if slot b x 0 = 0 then []
    else if slot b x 0 = 0xE5 then readSlots b n (x + 1) mode
    else (readSlot (slot b x) mode).1.toList.map (fun name => (x, name)) ++
      readSlots b n (x + 1) (readSlot (slot b x) mode).2

theorem parseSlot_eq (fileName : Name) (e : Buffer) (mode : ParseMode) :
    parseSlot fileName e mode =
      if (readSlot e mode).1.any (fun name => nameMatches name fileName) then none
      else some (readSlot e mode).2 := by
  cases mode with
  | normal =>
    rw [parseSlot, readSlot]
    split_ifs <;> simp_all
  | lfn k name =>
    cases k with
    | zero => rfl
    | succ k =>
      rw [parseSlot, readSlot]
      split_ifs <;> simp_all

theorem findSlot_eq (fileName : Name) (b : Buffer) (n x : ℕ) (mode : ParseMode) :
    findSlot fileName b n x mode =
      ((readSlots b n x mode).find? fun e => nameMatches e.2 fileName).map Prod.fst := by
  induction n generalizing x mode with
  | zero => rfl
  | succ n ih =>
    rw [findSlot, readSlots]
    split_ifs with h0 hE5
    · rfl
    · exact ih ..
    · rw [parseSlot_eq, List.find?_append]
      cases hname : (readSlot (slot b x) mode).1 with
      | none => simpa using ih ..
      | some name =>
        cases hmatch : nameMatches name fileName with
        | true => simp [hmatch]
        | false => simpa [hmatch] using ih ..

/-- The entries of `n` slots that are not free, and the mode behind them. -/
def readUsed (b : Buffer) : ℕ → ℕ → ParseMode → List (ℕ × Name) × ParseMode
  | 0, _, mode => ([], mode)
  | n + 1, x, mode =>
    let rest := readUsed b n (x + 1) (readSlot (slot b x) mode).2
    ((readSlot (slot b x) mode).1.toList.map (fun name => (x, name)) ++ rest.1, rest.2)

theorem isFree_eq_false {e : Buffer} : isFree e = false ↔ e 0 ≠ 0 ∧ e 0 ≠ 0xE5 := by
  rw [isFree, Bool.or_eq_false_iff, beq_eq_false_iff_ne, beq_eq_false_iff_ne]

theorem readSlots_used (h : ∀ i, x ≤ i → i < x + m → isFree (slot b i) = false) (r : ℕ)
    (mode : ParseMode) :
    readSlots b (m + r) x mode =
      (readUsed b m x mode).1 ++ readSlots b r (x + m) (readUsed b m x mode).2 := by
  induction m generalizing x mode with
  | zero => rw [Nat.zero_add, readUsed, Nat.add_zero, List.nil_append]
  | succ m ih =>
    obtain ⟨h0, hE5⟩ := isFree_eq_false.mp (h x (Nat.le_refl x) (by omega))
    rw [Nat.succ_add_eq_add_succ, Nat.add_succ, readSlots, if_neg h0, if_neg hE5,
      ih (fun i hi hlt => h i (by omega) (by omega)), readUsed, List.append_assoc,
      Nat.succ_add_eq_add_succ]

theorem readSlots_free (h : ∀ i, x ≤ i → i < x + n → isFree (slot b i) = true) (mode : ParseMode) :
    readSlots b n x mode = [] := by
  induction n generalizing x with
  | zero => rfl
  | succ n ih =>
    have hx := h x (Nat.le_refl x) (by omega)
    rw [isFree, Bool.or_eq_true, beq_iff_eq, beq_iff_eq] at hx
    have hrest : readSlots b n (x + 1) mode = [] := ih fun i hi hlt => h i (by omega) (by omega)
    rw [readSlots]
    split_ifs with h0 hE5
    · rfl
    · exact hrest
    · exact absurd (hx.resolve_left h0) hE5

theorem readUsed_congr (h : ∀ i, x ≤ i → i < x + m → slot b' i = slot b i) (mode : ParseMode) :
    readUsed b' m x mode = readUsed b m x mode := by
  induction m generalizing x mode with
  | zero => rfl
  | succ m ih =>
    rw [readUsed, readUsed, h x (Nat.le_refl x) (by omega),
      ih fun i hi hlt => h i (by omega) (by omega)]

theorem readUsed_add (b : Buffer) (m r x : ℕ) (mode : ParseMode) : readUsed b (m + r) x mode =
    ((readUsed b m x mode).1 ++ (readUsed b r (x + m) (readUsed b m x mode).2).1,
      (readUsed b r (x + m) (readUsed b m x mode).2).2) := by
  induction m generalizing x mode with
  | zero => rw [Nat.zero_add, readUsed, Nat.add_zero, List.nil_append]
  | succ m ih =>
    rw [Nat.succ_add_eq_add_succ, Nat.add_succ, readUsed, ih, readUsed]
    dsimp only
    rw [List.append_assoc, Nat.succ_add_eq_add_succ]

theorem exists_parseSlot (e : Buffer) (mode : ParseMode) :
    ∃ fileName, parseSlot fileName e mode = some (readSlot e mode).2 := by
  cases hname : (readSlot e mode).1 with
  | none => exact ⟨[], by rw [parseSlot_eq, hname]; rfl⟩
  | some name =>
    refine ⟨0 :: name, ?_⟩
    have hne : nameMatches name (0 :: name) = false := by
      rw [Bool.eq_false_iff, ne_eq, nameMatches_iff]
      intro h
      have hlen := congrArg List.length h
      simp at hlen
    rw [parseSlot_eq, hname, Option.any_some, hne]
    rfl

theorem ModeOk.next {st st' : GroupState} (hm : ModeOk st mode) (hf : isFree e = false)
    (hst : st.next (slotKind e) = some st') : ModeOk st' (readSlot e mode).2 := by
  obtain ⟨fileName, hparse⟩ := exists_parseSlot e mode
  rcases parseSlot_ok fileName hf hm hst with ⟨hp, -⟩ | ⟨mode', hp, hm'⟩
  · rw [hp] at hparse
    cases hparse
  · rw [hp] at hparse
    cases hparse
    exact hm'

theorem readUsed_mode {st st' : GroupState} (hm : ModeOk st mode)
    (hused : ∀ i, x ≤ i → i < x + m → isFree (slot b i) = false)
    (hrun : st.run (slotKinds b x m) = some st') : ModeOk st' (readUsed b m x mode).2 := by
  induction m generalizing x mode st with
  | zero =>
    cases hrun
    exact hm
  | succ m ih =>
    rw [slotKinds_succ, GroupState.run_cons] at hrun
    obtain ⟨st₁, hnext, hrest⟩ := Option.bind_eq_some_iff.mp hrun
    exact ih (hm.next (hused x (Nat.le_refl x) (by omega)) hnext)
      (fun i hi hlt => hused i (by omega) (by omega)) hrest

/-- The first `m` of `n` slots are used. -/
structure Filled (n : ℕ) (b : Buffer) (m : ℕ) : Prop where
  le : m ≤ n
  used : ∀ i < m, isFree (slot b i) = false
  free : ∀ i, m ≤ i → i < n → isFree (slot b i) = true

theorem Filled.run (h : Filled n b m) (hs : SlotsOk n b) :
    GroupState.normal.run (slotKinds b 0 m) = some .normal := by
  obtain ⟨r, rfl⟩ := Nat.exists_eq_add_of_le h.le
  rw [SlotsOk, slotKinds_add, GroupState.run_append, Nat.zero_add,
    slotKinds_eq_replicate fun i hi hlt => slotKind_eq_free.mpr (h.free i hi hlt)] at hs
  obtain ⟨st, hst, hrest⟩ := Option.bind_eq_some_iff.mp hs
  rw [hst]
  cases st with
  | normal => rfl
  | gap =>
    cases r with
    | zero => cases hrest
    | succ r => cases hrest
  | group k =>
    cases r with
    | zero => cases hrest
    | succ r =>
      cases k with
      | succ k => cases hrest
      | zero =>
        cases r with
        | zero => cases hrest
        | succ r => cases hrest

theorem Filled.normal_mode (h : Filled n b m) (hs : SlotsOk n b) :
    (readUsed b m 0 .normal).2 = .normal := by
  have hok : ModeOk .normal .normal := trivial
  have hm := readUsed_mode hok (fun i _ hi => h.used i (by omega)) (h.run hs)
  cases hmode : (readUsed b m 0 .normal).2 with
  | normal => rfl
  | lfn k name =>
    rw [hmode] at hm
    cases hm

theorem Filled.readSlots_eq (h : Filled n b m) :
    readSlots b n 0 .normal = (readUsed b m 0 .normal).1 := by
  obtain ⟨r, rfl⟩ := Nat.exists_eq_add_of_le h.le
  rw [readSlots_used (fun i _ hi => h.used i (by omega)),
    readSlots_free fun i hi hlt => h.free i (by omega) (by omega), List.append_nil]

theorem readUsed_info {st st' : GroupState} {name : Name} (hm : ModeOk st mode)
    (hused : ∀ i, x ≤ i → i < x + m → isFree (slot b i) = false)
    (hrun : st.run (slotKinds b x m) = some st') (h : (i, name) ∈ (readUsed b m x mode).1) :
    x ≤ i ∧ i < x + m ∧ slotKind (slot b i) = .info := by
  induction m generalizing x mode st with
  | zero => cases h
  | succ m ih =>
    rw [slotKinds_succ, GroupState.run_cons] at hrun
    obtain ⟨st₁, hnext, hrest⟩ := Option.bind_eq_some_iff.mp hrun
    have hx := hused x (Nat.le_refl x) (by omega)
    rw [readUsed, List.mem_append] at h
    rcases h with h | h
    · obtain ⟨a, ha, he⟩ := List.mem_map.mp h
      cases he
      have hname : (readSlot (slot b i) mode).1.any (fun a => nameMatches a name) = true := by
        rw [Option.mem_toList.mp ha, Option.any_some, nameMatches_iff]
      rcases parseSlot_ok name hx hm hnext with ⟨-, hk⟩ | ⟨mode', hp, -⟩
      · exact ⟨Nat.le_refl i, by omega, hk⟩
      · rw [parseSlot_eq, if_pos hname] at hp
        cases hp
    · obtain ⟨h1, h2, h3⟩ :=
        ih (hm.next hx hnext) (fun i hi hlt => hused i (by omega) (by omega)) hrest h
      exact ⟨by omega, by omega, h3⟩

theorem Filled.info {name : Name} (h : Filled n b m) (hs : SlotsOk n b)
    (hmem : (i, name) ∈ readSlots b n 0 .normal) : i < n ∧ slotKind (slot b i) = .info := by
  have hok : ModeOk .normal .normal := trivial
  rw [h.readSlots_eq] at hmem
  obtain ⟨-, hi, hk⟩ := readUsed_info hok (fun i _ hi => h.used i (by omega)) (h.run hs) hmem
  have hle := h.le
  exact ⟨by omega, hk⟩

theorem Filled.eq_nil (h : Filled n b 0) : readSlots b n 0 .normal = [] := h.readSlots_eq

theorem readSlots_congr
    (h : ∀ k, k < x + n → slot b' k = slot b k ∨ SameName (slot b k) (slot b' k))
    (mode : ParseMode) : readSlots b' n x mode = readSlots b n x mode := by
  induction n generalizing x mode with
  | zero => rfl
  | succ n ih =>
    have hrest (mode : ParseMode) : readSlots b' n (x + 1) mode = readSlots b n (x + 1) mode :=
      ih (fun k hk => h k (by omega)) mode
    have hslot (mode : ParseMode) : slot b' x 0 = slot b x 0 ∧
        readSlot (slot b' x) mode = readSlot (slot b x) mode := by
      rcases h x (by omega) with hx | hx
      · rw [hx]
        exact ⟨rfl, rfl⟩
      · refine ⟨hx.bytes 0 (by decide) (by decide), ?_⟩
        cases mode with
        | normal =>
          rw [readSlot, readSlot, hx.isLfn, hx.notLfn, hx.parseSfnEntry]
          simp only [Bool.false_eq_true, false_and, if_false]
        | lfn k name =>
          cases k with
          | zero => rfl
          | succ k =>
            rw [readSlot, readSlot, hx.isLfn, hx.notLfn, hx.parseSfnEntry]
            simp only [Bool.false_eq_true, if_false]
    rw [readSlots, readSlots, (hslot mode).1, (hslot mode).2]
    simp only [hrest]

theorem Filled.readSlots_append (h : Filled n b m) (hs : SlotsOk n b) (h' : Filled n b' (m + r))
    (hsame : ∀ i < m, slot b' i = slot b i) :
    readSlots b' n 0 .normal = readSlots b n 0 .normal ++ (readUsed b' r m .normal).1 := by
  rw [h'.readSlots_eq, readUsed_add, h.readSlots_eq, Nat.zero_add,
    readUsed_congr fun i _ hi => hsame i (by omega), h.normal_mode hs]

end DevOs.Fat32
