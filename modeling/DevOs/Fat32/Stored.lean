import DevOs.Fat32.Names

/-!
# The names of new entries

What the parser reads from a new entry. A long name is written in parts of thirteen characters from
its end on, and the parser collects the parts in the same order, so it reads the name without the
characters zero and `0xFFFF`. The parser reads a short entry on its own.
-/

namespace DevOs.Fat32

open Bytes

variable {b b' e : Buffer} {m n r x i k : ℕ} {name : Name} {attributes : Byte} {c : LfnCursor}

def longName (name : Name) : Name := name.filter fun c => c ≠ 0 ∧ c ≠ 0xFFFF

theorem longName_append (a b : Name) : longName (a ++ b) = longName a ++ longName b :=
  List.filter_append ..

theorem wchar_setLE_self (e : Buffer) (o : ℕ) (c : WChar) : wchar (setLE e o 2 c.toNat) o = c := by
  have hlt := c.isLt
  rw [wchar, getLE_setLE_self, Nat.mod_eq_of_lt (by omega), BitVec.ofNat_toNat, BitVec.setWidth_eq]

theorem wchar_congr {e e' : Buffer} {o : ℕ} (h0 : e' o = e o) (h1 : e' (o + 1) = e (o + 1)) :
    wchar e' o = wchar e o := by
  rw [wchar, wchar, getLE_congr]
  intro i hi
  obtain rfl | rfl : i = 0 ∨ i = 1 := by omega
  · exact h0
  · exact h1

theorem map_wchar_setChars {os : List ℕ} {cs : Name} (hos : os.Pairwise fun o p => o + 2 ≤ p)
    (hlen : cs.length = os.length) (e : Buffer) : os.map (wchar (setChars e os cs)) = cs := by
  induction os generalizing cs e with
  | nil =>
    rw [List.length_eq_zero_iff.mp hlen]
    rfl
  | cons o os ih =>
    cases cs with
    | nil => cases hlen
    | cons c cs =>
      obtain ⟨ho, hos⟩ := List.pairwise_cons.mp hos
      have hafter (i : ℕ) (hi : i < o + 2) :
          setChars (setLE e o 2 c.toNat) os cs i = setLE e o 2 c.toNat i :=
        setChars_of_disjoint fun p hp => Or.inl (by have := ho p hp; omega)
      rw [setChars, List.map_cons, ih hos (Nat.succ.inj hlen),
        wchar_congr (hafter o (by omega)) (hafter (o + 1) (by omega)), wchar_setLE_self]

theorem length_chars (c : LfnCursor) (name : Name) : (c.chars name).length = 13 := by
  rw [LfnCursor.chars, List.length_take, List.length_append, List.length_cons,
    List.length_replicate]
  omega

/-- A slot of a long name gives back the part of the name that it was made from. -/
theorem parseLfnEntry_setLfnEntry (e : Buffer) (q : Byte) (name : Name) (hc : c.size ≤ 13) :
    parseLfnEntry (setLfnEntry e q name c) = longName ((name.drop c.reverse).take c.size) := by
  have hlen : ((name.drop c.reverse).take c.size).length ≤ 13 :=
    Nat.le_trans (List.length_take_le ..) hc
  have hrest (j : ℕ) : longName ((0 :: List.replicate 13 0xFFFF).take j) = [] := by
    rw [longName, List.filter_eq_nil_iff]
    intro d hd
    rcases List.mem_cons.mp (List.mem_of_mem_take hd) with rfl | hd
    · decide
    · rw [List.eq_of_mem_replicate hd]
      decide
  rw [parseLfnEntry, setLfnEntry, map_wchar_setChars (by decide) (length_chars c name)]
  change longName (c.chars name) = _
  rw [LfnCursor.chars, List.take_append, longName_append, hrest, List.append_nil,
    List.take_of_length_le hlen]

theorem parseLfnEntry_window (e : Buffer) : parseLfnEntry (window e 0 32) = parseLfnEntry e := by
  rw [parseLfnEntry, parseLfnEntry, List.map_congr_left]
  intro o ho
  have hlt : ∀ o ∈ lfnOffsets, o + 1 < 32 := by decide
  exact wchar_congr (window_apply (by have := hlt o ho; omega)) (window_apply (hlt o ho))

theorem isLfn_window (e : Buffer) : isLfn (window e 0 32) = isLfn e := by
  rw [isLfn, isLfn, window_apply (by decide)]

theorem parseSfnEntry_window (e : Buffer) : parseSfnEntry (window e 0 32) = parseSfnEntry e := by
  have hbase : sfnBase (window e 0 32) = sfnBase e := by
    rw [sfnBase, sfnBase, List.map_congr_left]
    intro i hi
    have := List.mem_range.mp hi
    exact window_apply (by omega)
  have hext : sfnExtension (window e 0 32) = sfnExtension e := by
    rw [sfnExtension, sfnExtension, List.map_congr_left]
    intro i hi
    have := List.mem_range.mp hi
    exact window_apply (by omega)
  rw [parseSfnEntry, parseSfnEntry, hbase, hext, window_apply (by decide), window_apply (by decide)]

theorem lfnEntries_bounds (h : 0 < n) : 13 * (lfnEntries n - 1) < n ∧ n ≤ 13 * lfnEntries n := by
  rw [lfnEntries]
  split_ifs <;> omega

theorem cursor_eq (hname : name ≠ []) (hk : k < lfnEntries name.length) :
    (LfnCursor.next^[k] (LfnCursor.start name)).reverse = 13 * (lfnEntries name.length - 1 - k) ∧
      (LfnCursor.next^[k] (LfnCursor.start name)).remaining =
        13 * (lfnEntries name.length - 1 - k) ∧
      (LfnCursor.next^[k] (LfnCursor.start name)).size =
        if k = 0 then name.length - 13 * (lfnEntries name.length - 1) else 13 := by
  have hpos := List.length_pos_iff.mpr hname
  induction k with
  | zero =>
    rw [Function.iterate_zero, id_eq, LfnCursor.start, lfnEntries]
    dsimp only
    split_ifs <;> refine ⟨?_, ?_, ?_⟩ <;> dsimp only <;> omega
  | succ k ih =>
    obtain ⟨hrev, hrem, -⟩ := ih (by omega)
    rw [Function.iterate_succ_apply', LfnCursor.next, hrev, hrem, if_pos (by omega),
      if_neg (by omega)]
    refine ⟨?_, ?_, rfl⟩ <;> dsimp only <;> omega

theorem cursor_size (hname : name ≠ []) (hk : k < lfnEntries name.length) :
    (LfnCursor.next^[k] (LfnCursor.start name)).size ≤ 13 := by
  have hlen := lfnEntries_bounds (List.length_pos_iff.mpr hname)
  rw [(cursor_eq hname hk).2.2]
  split_ifs <;> omega

theorem part_append (name : Name) (i : ℕ) :
    (name.drop (13 * i)).take 13 ++ name.drop (13 * (i + 1)) = name.drop (13 * i) := by
  rw [Nat.mul_succ, ← List.drop_drop, List.take_append_drop]

theorem lfnByte_self (hn : 0 < n) (hn' : n < 32) :
    lfnByte n n &&& 0x40 ≠ 0 ∧ lfnByte n n &&& 0x1F ≠ 0 ∧
    (lfnByte n n &&& 0x1F).toNat = n := by
  have hbyte : ∀ n : Fin 32, 0 < n.val → lfnByte n n &&& 0x40 ≠ 0 ∧ lfnByte n n &&& 0x1F ≠ 0 ∧
      (lfnByte n n &&& 0x1F).toNat = n := by
    decide
  exact hbyte ⟨n, hn'⟩ hn

/-- The slots from `first` on are those of a long name. -/
def LongSlots (name : Name) (b : Buffer) (first : ℕ) : Prop :=
  ∀ k < lfnEntries name.length, ∃ e, slot b (first + k) = window (setLfnEntry e
    (lfnByte (lfnEntries name.length) (lfnEntries name.length - k)) name
    (LfnCursor.next^[k] (LfnCursor.start name))) 0 32

section LongSlots

variable {first : ℕ} (h : LongSlots name b first) (hname : name ≠ [])

include h

theorem LongSlots.isLfn (hk : k < lfnEntries name.length) : isLfn (slot b (first + k)) = true := by
  obtain ⟨e, he⟩ := h k hk
  rw [he, isLfn_window, Fat32.isLfn, setLfnEntry_attributes]
  rfl

include hname

theorem LongSlots.parse (hk : k < lfnEntries name.length) : parseLfnEntry (slot b (first + k)) =
    longName ((name.drop (13 * (lfnEntries name.length - 1 - k))).take
      (if k = 0 then name.length - 13 * (lfnEntries name.length - 1) else 13)) := by
  obtain ⟨e, he⟩ := h k hk
  rw [he, parseLfnEntry_window, parseLfnEntry_setLfnEntry _ _ _ (cursor_size hname hk),
    (cursor_eq hname hk).1, (cursor_eq hname hk).2.2]

theorem LongSlots.readUsed (hlt : lfnEntries name.length < 32) (hk : k < lfnEntries name.length) :
    readUsed b (k + 1) first .normal = ([], .lfn (lfnEntries name.length - 1 - k)
      (longName (name.drop (13 * (lfnEntries name.length - 1 - k))))) := by
  induction k with
  | zero =>
    obtain ⟨h40, h1F, hnum⟩ := lfnByte_self hk hlt
    have hlen := lfnEntries_bounds (List.length_pos_iff.mpr hname)
    have hparse := h.parse hname hk
    have hlfn := h.isLfn hk
    obtain ⟨e, he⟩ := h 0 hk
    have hfirst : slot b first 0 = lfnByte (lfnEntries name.length) (lfnEntries name.length) := by
      rw [← Nat.add_zero first, he, window_apply (by decide), setLfnEntry_first, Nat.sub_zero]
    rw [Nat.add_zero] at hparse hlfn
    rw [Fat32.readUsed, readSlot, if_pos ⟨hlfn, by rw [hfirst]; exact h40⟩,
      if_neg (by rw [hfirst]; exact h1F), hfirst, hnum, hparse, if_pos rfl, List.take_of_length_le]
    · rfl
    · rw [List.length_drop]
      omega
  | succ k ih =>
    rw [readUsed_add, ih (by omega), show lfnEntries name.length - 1 - k =
      lfnEntries name.length - 1 - (k + 1) + 1 by omega, Fat32.readUsed, Fat32.readUsed, readSlot,
      if_pos (h.isLfn hk), h.parse hname hk, if_neg (by omega), ← longName_append,
      part_append]
    rfl

theorem LongSlots.readUsed_entry (hlt : lfnEntries name.length < 32) :
    Fat32.readUsed b (lfnEntries name.length + 1) first .normal =
      ([(first + lfnEntries name.length, longName name)], .normal) := by
  have hlen := lfnEntries_bounds (List.length_pos_iff.mpr hname)
  have hpos := List.length_pos_iff.mpr hname
  obtain ⟨k, hk⟩ : ∃ k, lfnEntries name.length = k + 1 := ⟨lfnEntries name.length - 1, by omega⟩
  have hread := h.readUsed hname hlt (k := k) (by omega)
  rw [hk, Nat.add_sub_cancel, Nat.sub_self, Nat.mul_zero, List.drop_zero] at hread
  rw [hk, readUsed_add, hread]
  rfl

end LongSlots

theorem isFree_eq_of_slotKind {e e' : Buffer} (h : slotKind e' = slotKind e) :
    isFree e' = isFree e := by
  rw [Bool.eq_iff_iff, ← slotKind_eq_free, ← slotKind_eq_free, h]

theorem isFree_window (e : Buffer) : isFree (window e 0 32) = isFree e :=
  isFree_eq_of_slotKind slotKind_window

theorem Filled.short (h : Filled n b m) (hs : SlotsOk n b) (hm : m < n) (he : isFree e = false)
    (hlfn : isLfn e = false) (hslot : ∀ i < n, slot b' i = slot (setSlot b m e) i) :
    Filled n b' (m + 1) ∧
      readSlots b' n 0 .normal = readSlots b n 0 .normal ++ [(m, parseSfnEntry e)] := by
  have hself : slot b' m = window e 0 32 := by rw [hslot m hm, slot_setSlot_self]
  have hother (i : ℕ) (hi : i < n) (hne : i ≠ m) : slot b' i = slot b i := by
    rw [hslot i hi, slot_setSlot_of_ne hne]
  have hfill : Filled n b' (m + 1) := by
    refine ⟨hm, fun i hi => ?_, fun i hi hlt => ?_⟩
    · by_cases him : i = m
      · rw [him, hself, isFree_window, he]
      · rw [hother i (by omega) him]
        exact h.used i (by omega)
    · rw [hother i hlt (by omega)]
      exact h.free i (by omega) hlt
  refine ⟨hfill, ?_⟩
  rw [h.readSlots_append hs hfill fun i hi => hother i (by omega) (by omega), readUsed, hself,
    readSlot, isLfn_window, hlfn, if_neg (by simp), parseSfnEntry_window]
  rfl

theorem Filled.long (h : Filled n b m) (hs : SlotsOk n b) (hname : name ≠ [])
    (hlt : lfnEntries name.length < 32) (hm : m + lfnEntries name.length < n)
    (hattr : attributes &&& 0xF ≠ 0xF)
    (hslot : ∀ i < n, slot b' i = slot (lfnCluster name attributes
      (lfnEntries name.length) m (m + lfnEntries name.length) b) i) :
    Filled n b' (m + (lfnEntries name.length + 1)) ∧ readSlots b' n 0 .normal =
      readSlots b n 0 .normal ++ [(m + lfnEntries name.length, longName name)] := by
  have hlen := lfnEntries_bounds (List.length_pos_iff.mpr hname)
  have hpos := List.length_pos_iff.mpr hname
  have hall := @slot_lfnCluster name attributes _ _ _ b
    (show m + lfnEntries name.length - m ≤ lfnEntries name.length + 1 by omega) hlt
  have hkind := slotKind_lfnCluster name b
    (show m + lfnEntries name.length - m ≤ lfnEntries name.length + 1 by omega) (by omega) hlt hattr
  have hother (i : ℕ) (hi : i < n) (hne : i < m ∨ m + lfnEntries name.length < i) : slot b' i =
      slot b i := by
    rw [hslot i hi, hall, if_neg (by omega), if_neg (by omega)]
  have hfill : Filled n b' (m + (lfnEntries name.length + 1)) := by
    refine ⟨hm, fun i hi => ?_, fun i hi hlt => ?_⟩
    · by_cases him : i < m
      · rw [hother i (by omega) (Or.inl him)]
        exact h.used i him
      · rw [hslot i (by omega), Bool.eq_false_iff, ne_eq, ← slotKind_eq_free, hkind]
        split_ifs with h1 h2
        · decide
        · rw [lfnKind, if_neg (by omega)]
          split_ifs <;> simp
        · omega
    · rw [hother i hlt (by omega)]
      exact h.free i (by omega) hlt
  have hlong : LongSlots name b' m := by
    intro k hk
    refine ⟨slot b (m + k), ?_⟩
    rw [hslot _ (by omega), hall, if_neg (by omega), if_pos (by omega), Nat.add_sub_cancel_left]
  refine ⟨hfill, ?_⟩
  rw [h.readSlots_append hs hfill fun i hi => hother i (by omega) (Or.inl hi),
    hlong.readUsed_entry hname hlt]

theorem classifyName_eq (f : ℕ → WChar) {len : ℕ} (hlen : 0 < len)
    (h : (classifyName f len).1 ≠ 0) :
    (classifyName f len).1 = lfnEntries len := by
  rw [classifyName] at h ⊢
  dsimp only at h ⊢
  split_ifs at h ⊢ with h1 h2
  · rfl
  · rw [not_or] at h1
    rw [lfnEntries, if_pos (by omega), Nat.div_eq_of_lt (by omega)]
  · exact absurd rfl h

end DevOs.Fat32
