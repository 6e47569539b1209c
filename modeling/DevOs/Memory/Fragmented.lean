import DevOs.Memory.Marks

/-!
# Scattered allocation

`KeAllocateFragmentedPages` goes through the words of the bitmap and takes clear bits. In a word it
handles right it takes the lowest clear bits and marks these: a full word, an empty word that it
takes completely, or a word whose highest bit is set and which is not exhausted by the bits before
its lowest set bit.
-/

namespace DevOs.Memory

open Words

def SameHints (m m' : MemoryManagementTable) : Prop :=
  m'.freePagesStart = m.freePagesStart ∧ m'.freePageArrayStart = m.freePageArrayStart

theorem SameHints.trans {m m' m'' : MemoryManagementTable} (h : SameHints m m')
    (h' : SameHints m' m'') : SameHints m m'' :=
  ⟨h'.1.trans h.1, h'.2.trans h.2⟩

/-- Between the two mappings the pages `ks` were mapped, and no bit was marked. -/
structure Mapped (s s' : Mapping) (ks : List ℕ) : Prop where
  bitmap : s'.table.pageBitmap = s.table.pageBitmap
  address : ∀ k, s'.table.address k = s.table.address k
  size : s'.table.pageArraySize = s.table.pageArraySize
  bytes : s'.table.numBytesPageBitmap = s.table.numBytesPageBitmap
  mapped : s'.mapped = s.mapped ++ ks.map s.table.address
  hints : SameHints s.table s'.table

theorem mapped_refl (s : Mapping) : Mapped s s [] :=
  ⟨rfl, fun _ => rfl, rfl, rfl, by simp, rfl, rfl⟩

theorem Mapped.page {s s' : Mapping} {ks : List ℕ} (h : Mapped s s' ks) (k : ℕ) :
    Mapped s (s'.page k) (ks ++ [k]) := by
  refine ⟨h.bitmap, ?_, h.size, h.bytes, ?_, h.hints⟩
  · intro l
    exact (MemoryManagementTable.address_setAllocated _ k l).trans (h.address l)
  · rw [Mapping.page, h.mapped, List.map_append, List.append_assoc]
    simp [h.address]

theorem Mapped.trans {s s' s'' : Mapping} {ks ls : List ℕ} (h : Mapped s s' ks)
    (h' : Mapped s' s'' ls) : Mapped s s'' (ks ++ ls) := by
  refine ⟨h'.bitmap.trans h.bitmap, fun k => (h'.address k).trans (h.address k),
    h'.size.trans h.size, h'.bytes.trans h.bytes, ?_, h.hints.trans h'.hints⟩
  rw [h'.mapped, h.mapped, List.map_append, List.append_assoc, List.map_congr_left
    (fun k _ => h.address k)]

theorem mapped_pages (s : Mapping) (base count : ℕ) :
    Mapped s (s.pages base count) ((List.range count).map (fun c => base + c)) := by
  induction count with
  | zero => exact mapped_refl s
  | succ count ih =>
    rw [Mapping.pages, List.range_succ, List.map_append]
    exact ih.page (base + count)

/-- The pages of the bits `taken` of the word `w` were marked and mapped. -/
structure WordDone (w : ℕ) (s s' : Mapping) (taken : List ℕ) : Prop where
  marks : Marks s.table s'.table (taken.map (fun i => 64 * w + i))
  mapped : s'.mapped = s.mapped ++ (taken.map (fun i => 64 * w + i)).map s.table.address
  hints : SameHints s.table s'.table

theorem WordDone.success {w : ℕ} {s s' : Mapping} {taken : List ℕ} (h : WordDone w s s' taken)
    (numPages : ℕ) : WordDone w s (s'.success numPages) taken :=
  ⟨h.marks.congr rfl (fun _ => rfl) rfl rfl, h.mapped, h.hints⟩

theorem wordDone_setWord {w hi : ℕ} {s s' : Mapping} {b : BitVec 64} (hhi : hi ≤ 64)
    (h : Mapped s s' ((clearBelow (s.table.pageBitmap w) hi).map (fun i => 64 * w + i)))
    (hb : ∀ j < 64, b.getLsbD j = ((s.table.pageBitmap w).getLsbD j || decide (j < hi))) :
    WordDone w s (s'.setWord w b) (clearBelow (s.table.pageBitmap w) hi) := by
  have hm := marks_setWord (m := s.table) (w := w) (b := b)
    (l := clearBelow (s.table.pageBitmap w) hi) (clearBelow_nodup _ _) ?_ ?_ ?_
  · refine ⟨hm.congr ?_ h.address h.size h.bytes, h.mapped, h.hints⟩
    rw [Mapping.setWord, MemoryManagementTable.setWord, h.bitmap, MemoryManagementTable.setWord]
  · intro i hi'
    exact Nat.lt_of_lt_of_le (mem_clearBelow.mp hi').1 hhi
  · intro i hi'
    exact (mem_clearBelow.mp hi').2
  · intro j hj
    rw [hb j hj]
    by_cases hset : (s.table.pageBitmap w).getLsbD j = true
    · rw [hset, Bool.true_or, Bool.true_or]
    · simp [mem_clearBelow, Bool.eq_false_iff.mpr hset]

/-- The word is full, or it is handled by the branches that take its lowest clear bits and mark
them, and these are bits of pages. -/
def wordOk (m : MemoryManagementTable) (w numPages : ℕ) : Bool :=
  let b := m.pageBitmap w
  b == BitVec.allOnes 64 ||
    ((List.range 64).all (fun c => b.getLsbD c || decide (numPages ≤ (clearBelow b c).length) ||
        decide (64 * w + c < m.pageArraySize)) &&
      if b = 0 then decide (64 ≤ numPages)
      else b.getLsbD 63 && decide ((bitScanForward b).getD 0 < numPages))

variable {w numPages : ℕ} {s : Mapping}

theorem emptyWord_spec (h0 : s.table.pageBitmap w = 0) (hn : 64 ≤ numPages) :
    match emptyWord w s numPages with
    | .inl s' => WordDone w s s' (clearBelow (s.table.pageBitmap w) 64) ∧
        (clearBelow (s.table.pageBitmap w) 64).length = numPages
    | .inr (s', n) => WordDone w s s' (clearBelow (s.table.pageBitmap w) 64) ∧ 0 < n ∧
        n + (clearBelow (s.table.pageBitmap w) 64).length = numPages := by
  have hrange : clearBelow (s.table.pageBitmap w) 64 = List.range 64 := by
    rw [h0]
    exact clearBelow_of_clear (fun _ _ => BitVec.getLsbD_zero)
  have hdone : WordDone w s ((s.setWord w (emptyWordMask 64)).pages (64 * w) 64)
      (List.range 64) := by
    have hp := mapped_pages (s.setWord w (emptyWordMask 64)) (64 * w) 64
    have hm : Marks s.table (s.setWord w (emptyWordMask 64)).table
        ((List.range 64).map (fun i => 64 * w + i)) := by
      refine marks_setWord List.nodup_range (fun i hi => List.mem_range.mp hi) ?_ ?_
      · intro i _
        rw [h0]
        exact BitVec.getLsbD_zero
      · intro j hj
        rw [h0, show emptyWordMask 64 = BitVec.allOnes 64 by decide, BitVec.getLsbD_allOnes]
        simp [hj]
    exact ⟨hm.congr hp.bitmap hp.address hp.size hp.bytes, hp.mapped, hp.hints⟩
  rw [emptyWord, Nat.min_eq_left hn, hrange, List.length_range]
  by_cases hz : numPages - 64 = 0
  · simp only [hz, if_true]
    exact ⟨hdone.success 0, by omega⟩
  · simp only [hz, if_false]
    exact ⟨hdone, by omega, by omega⟩

theorem leadingPages_spec {b : BitVec 64} {i : ℕ} (hi : i < 64) (hn : i < numPages) :
    ∃ c s', leadingPages w i b s numPages = .inr (c, s', numPages - i) ∧
      (∀ j < 64, c.getLsbD j = (b.getLsbD j || decide (j < i))) ∧
      Mapped s s' ((List.range i).map (fun j => 64 * w + j)) := by
  by_cases h0 : i = 0
  · exact ⟨b, s, by simp [leadingPages, h0], by simp [h0], by rw [h0]; exact mapped_refl s⟩
  · refine ⟨b ||| (BitVec.allOnes 64 >>> (64 - i)), s.pages (64 * w) i, ?_, ?_,
      mapped_pages s (64 * w) i⟩
    · rw [leadingPages, if_neg h0, Nat.min_eq_left (by omega), if_neg (by omega)]
    · intro j hj
      rw [BitVec.getLsbD_or, BitVec.getLsbD_ushiftRight, BitVec.getLsbD_allOnes]
      congr 1
      exact decide_eq_decide.mpr (by omega)

/-- The last loop takes the clear bits of the local bitmap `c` from the lowest on. -/
theorem remainingPages_spec {c : BitVec 64} (hn : 0 < numPages) :
    match forClear (remainingPage w) 64 c (c, s, numPages) with
    | .inl t =>
      ∃ hi s' b, t = (s'.setWord w b).success 0 ∧ hi ≤ 64 ∧ (clearBelow c hi).length = numPages ∧
        Mapped s s' ((clearBelow c hi).map (fun i => 64 * w + i)) ∧
        (∀ j < 64, b.getLsbD j = (c.getLsbD j || decide (j < hi)))
    | .inr (b, s', n) => 0 < n ∧ n + (clearBelow c 64).length = numPages ∧
        Mapped s s' ((clearBelow c 64).map (fun i => 64 * w + i)) ∧
        (∀ j < 64, b.getLsbD j = (c.getLsbD j || decide (j < 64))) := by
  -- at the position `lo` the clear bits below `lo` are taken
  let I : ℕ → BitVec 64 × Mapping × ℕ → Prop := fun lo t =>
    0 < t.2.2 ∧ t.2.2 + (clearBelow c lo).length = numPages ∧
      Mapped s t.2.1 ((clearBelow c lo).map (fun i => 64 * w + i)) ∧
      (∀ j < 64, t.1.getLsbD j = (c.getLsbD j || decide (j < lo))) ∧ lo ≤ 64
  have hnext (lo i : ℕ) (t : BitVec 64 × Mapping × ℕ) (hI : I lo t) (hlo : lo ≤ i)
      (hset : ∀ j, lo ≤ j → j < i → c.getLsbD j = true) (hclear : c.getLsbD i = false) :
      clearBelow c (i + 1) = clearBelow c lo ++ [i] ∧
        Mapped s (t.2.1.page (64 * w + i)) ((clearBelow c (i + 1)).map (fun i => 64 * w + i)) ∧
        (∀ j < 64, (bitTestAndSet t.1 i).getLsbD j = (c.getLsbD j || decide (j < i + 1))) := by
    have hbelow : clearBelow c (i + 1) = clearBelow c lo ++ [i] := by
      rw [clearBelow_succ_clear hclear, clearBelow_eq_of_set hlo hset]
    refine ⟨hbelow, ?_, ?_⟩
    · rw [hbelow, List.map_append]
      exact hI.2.2.1.page (64 * w + i)
    · intro j hj
      rw [getLsbD_bitTestAndSet, hI.2.2.2.1 j hj]
      by_cases hji : j = i
      · simp [hji, show i < 64 by omega]
      · by_cases hlt : j < i
        · by_cases hjlo : j < lo
          · simp [hjlo, show j < i + 1 by omega]
          · simp [hset j (by omega) hlt]
        · simp [hji, show ¬ j < lo by omega, show ¬ j < i + 1 by omega]
  have hrule := forClear_rule (f := remainingPage w) (b := c) (I := I)
    (Q := fun t => ∃ hi s' b, t = (s'.setWord w b).success 0 ∧ hi ≤ 64 ∧
    (clearBelow c hi).length = numPages ∧
        Mapped s s' ((clearBelow c hi).map (fun i => 64 * w + i)) ∧
        (∀ j < 64, b.getLsbD j = (c.getLsbD j || decide (j < hi)))) ?_ ?_
    (s := (c, s, numPages)) ⟨hn, by simp [clearBelow], mapped_refl s, by simp, by omega⟩
  · cases hres : forClear (remainingPage w) 64 c (c, s, numPages) with
    | inl t =>
      rw [hres] at hrule
      exact hrule
    | inr t =>
      rw [hres] at hrule
      obtain ⟨lo, ⟨hpos, hcount, hmap, hbits, hlo⟩, hset⟩ := hrule
      have hall : clearBelow c 64 = clearBelow c lo := clearBelow_eq_of_set hlo hset
      refine ⟨hpos, by rw [hall]; exact hcount, by rw [hall]; exact hmap, ?_⟩
      intro j hj
      rw [hbits j hj]
      by_cases hjlo : j < lo
      · simp [hjlo, hj]
      · simp [hset j (by omega) hj]
  · intro lo i t r hI hlo hi hset hclear hbody
    obtain ⟨hbelow, hmap, hbits⟩ := hnext lo i t hI hlo hset hclear
    rw [remainingPage] at hbody
    split_ifs at hbody with hz
    cases hbody
    refine ⟨i + 1, _, _, by rw [hz], hi, ?_, hmap, hbits⟩
    have hcount := hI.2.1
    have hpos := hI.1
    rw [hbelow, List.length_append, List.length_singleton]
    omega
  · intro lo i t t' hI hlo hi hset hclear hbody
    obtain ⟨hbelow, hmap, hbits⟩ := hnext lo i t hI hlo hset hclear
    rw [remainingPage] at hbody
    split_ifs at hbody with hz
    cases hbody
    have hcount := hI.2.1
    refine ⟨Nat.pos_of_ne_zero hz, ?_, hmap, hbits, hi⟩
    rw [hbelow, List.length_append, List.length_singleton]
    dsimp only
    omega

theorem partialWord_spec {i : ℕ} (hn : i < numPages)
    (hscan : bitScanForward (s.table.pageBitmap w) = some i) {c : BitVec 64} {s₁ : Mapping}
    (hbits : ∀ j < 64, c.getLsbD j = ((s.table.pageBitmap w).getLsbD j || decide (j < i)))
    (hmap : Mapped s s₁ ((List.range i).map (fun j => 64 * w + j))) :
    match forClear (remainingPage w) 64 c (c, s₁, numPages - i) with
    | .inl s' => ∃ hi ≤ 64, WordDone w s s' (clearBelow (s.table.pageBitmap w) hi) ∧
        (clearBelow (s.table.pageBitmap w) hi).length = numPages
    | .inr (b, s', n) => WordDone w s (s'.setWord w b) (clearBelow (s.table.pageBitmap w) 64) ∧
        0 < n ∧ n + (clearBelow (s.table.pageBitmap w) 64).length = numPages := by
  obtain ⟨hi64, _, hbelow⟩ := bitScanForward_some hscan
  have hsplit (k : ℕ) (hik : i ≤ k) (hk : k ≤ 64) :=
    clearBelow_prefix hik hbelow (by omega) hbits hk
  have hword (k : ℕ) (hik : i ≤ k) {b : BitVec 64}
      (hb : ∀ j < 64, b.getLsbD j = (c.getLsbD j || decide (j < k))) (j : ℕ) (hj : j < 64) :
      b.getLsbD j = ((s.table.pageBitmap w).getLsbD j || decide (j < k)) := by
    rw [hb j hj, hbits j hj, Bool.or_assoc]
    by_cases hji : j < i
    · simp [hji, show j < k by omega]
    · simp [hji]
  have hrest := remainingPages_spec (w := w) (s := s₁) (c := c) (show 0 < numPages - i by omega)
  cases hres : forClear (remainingPage w) 64 c (c, s₁, numPages - i) with
  | inl t =>
    simp only [hres] at hrest
    obtain ⟨hi, s', b, rfl, hhi, hlen, hmap', hb⟩ := hrest
    have hle : i ≤ hi := by
      by_contra hlt
      have hnil : clearBelow c hi = [] := by
        rw [clearBelow, List.filter_eq_nil_iff]
        intro j hj
        have := List.mem_range.mp hj
        simp [hbits j (by omega), show j < i by omega]
      rw [hnil, List.length_nil] at hlen
      omega
    refine ⟨hi, hhi, (wordDone_setWord hhi ?_ (hword hi hle hb)).success 0, ?_⟩
    · rw [hsplit hi hle hhi, List.map_append]
      exact hmap.trans hmap'
    · rw [hsplit hi hle hhi, List.length_append, List.length_range]
      omega
  | inr t =>
    simp only [hres] at hrest
    obtain ⟨hpos, hlen, hmap', hb⟩ := hrest
    refine ⟨wordDone_setWord (by omega) ?_ (hword 64 (by omega) hb), hpos, ?_⟩
    · rw [hsplit 64 (by omega) (by omega), List.map_append]
      exact hmap.trans hmap'
    · rw [hsplit 64 (by omega) (by omega), List.length_append, List.length_range]
      omega

theorem fragmentedWord_spec (hn : 0 < numPages) (hok : wordOk s.table w numPages = true) :
    match fragmentedWord w s numPages with
    | .inl s' => ∃ hi ≤ 64, WordDone w s s' (clearBelow (s.table.pageBitmap w) hi) ∧
        (clearBelow (s.table.pageBitmap w) hi).length = numPages
    | .inr (s', n) => WordDone w s s' (clearBelow (s.table.pageBitmap w) 64) ∧ 0 < n ∧
        n + (clearBelow (s.table.pageBitmap w) 64).length = numPages := by
  rw [fragmentedWord]
  by_cases hfull : s.table.pageBitmap w = BitVec.allOnes 64
  · have hnil : clearBelow (s.table.pageBitmap w) 64 = [] := by
      rw [hfull]
      decide
    simp only [hfull, if_true]
    rw [← hfull, hnil]
    exact ⟨⟨marks_refl _, by simp, rfl, rfl⟩, hn, rfl⟩
  · simp only [wordOk, beq_eq_false_iff_ne.mpr hfull, Bool.false_or, Bool.and_eq_true] at hok
    by_cases h0 : s.table.pageBitmap w = 0
    · have hempty := @emptyWord_spec w numPages s h0 (by simpa [h0] using hok.2)
      simp only [if_neg hfull, if_pos h0]
      cases hres : emptyWord w s numPages with
      | inl s' =>
        simp only [hres] at hempty
        exact ⟨64, Nat.le_refl _, hempty⟩
      | inr t =>
        simp only [hres] at hempty
        exact hempty
    · cases hscan : bitScanForward (s.table.pageBitmap w) with
      | none =>
        have hzero : s.table.pageBitmap w = 0#64 := BitVec.eq_of_getLsbD_eq fun i _ => by
          rw [bitScanForward_none hscan i, BitVec.getLsbD_zero]
        exact absurd hzero h0
      | some i =>
        simp only [if_neg h0, hscan, Option.getD_some, Bool.and_eq_true, decide_eq_true_eq] at hok
        obtain ⟨-, htop, hi⟩ := hok
        obtain ⟨c, s₁, hlead, hbits, hmap⟩ := leadingPages_spec (w := w) (s := s)
          (b := s.table.pageBitmap w) (bitScanForward_some hscan).1 hi
        have hrev : bitScanReverse c = some 63 := by
          apply bitScanReverse_top
          rw [hbits 63 (by omega), htop, Bool.true_or]
        simp only [if_neg hfull, if_neg h0, Option.getD_some, hlead, hrev, trailingPages,
          if_true]
        have hpart := partialWord_spec hi hscan hbits hmap
        cases hres : forClear (remainingPage w) 64 c (c, s₁, numPages - i) with
        | inl s' =>
          simp only [hres] at hpart
          exact hpart
        | inr t =>
          simp only [hres] at hpart
          exact hpart

/-- The words visited, with the pages still wanted at each of them, are handled right. -/
def wordsOk (m : MemoryManagementTable) : ℕ → ℕ → ℕ → Bool
  | 0, _, _ => true
  | n + 1, w, numPages =>
    wordOk m w numPages &&
      (decide (numPages ≤ (clearBelow (m.pageBitmap w) 64).length) ||
        wordsOk m n (w + 1) (numPages - (clearBelow (m.pageBitmap w) 64).length))

theorem wordsOk_congr {m m' : MemoryManagementTable} {n w : ℕ} (numPages : ℕ)
    (hb : ∀ v, w ≤ v → m'.pageBitmap v = m.pageBitmap v) (hs : m'.pageArraySize = m.pageArraySize) :
    wordsOk m' n w numPages = wordsOk m n w numPages := by
  induction n generalizing w numPages with
  | zero => rfl
  | succ n ih =>
    rw [wordsOk, wordsOk, wordOk, wordOk, hb w (Nat.le_refl w), hs,
      ih _ (fun v hv => hb v (by omega))]

theorem WordDone.pageBitmap_of_ne {s s' : Mapping} {taken : List ℕ} {v : ℕ}
    (h : WordDone w s s' taken) (hlt : ∀ i ∈ taken, i < 64) (hv : v ≠ w) :
    s'.table.pageBitmap v = s.table.pageBitmap v := by
  apply BitVec.eq_of_getLsbD_eq
  intro j hj
  have hbit := h.marks.bits (64 * v + j)
  have hnot : 64 * v + j ∉ taken.map (fun i => 64 * w + i) := by
    intro hmem
    obtain ⟨i, hi, he⟩ := List.mem_map.mp hmem
    have := hlt i hi
    omega
  rw [MemoryManagementTable.bit, MemoryManagementTable.bit, show (64 * v + j) / 64 = v by omega,
    show (64 * v + j) % 64 = j by omega] at hbit
  simpa only [hnot, decide_false, Bool.or_false] using hbit

theorem wordOk_inside {hi : ℕ} (hok : wordOk s.table w numPages = true) (hhi : hi ≤ 64)
    (hlen : (clearBelow (s.table.pageBitmap w) hi).length ≤ numPages) (hw : w < s.table.max) :
    Inside s.table ((clearBelow (s.table.pageBitmap w) hi).map (fun i => 64 * w + i)) := by
  intro k hk
  obtain ⟨c, hc, rfl⟩ := List.mem_map.mp hk
  obtain ⟨hlt, hclear⟩ := mem_clearBelow.mp hc
  have hcount := clearBelow_length_lt hc
  refine ⟨?_, by omega⟩
  have hne : s.table.pageBitmap w ≠ BitVec.allOnes 64 := by
    intro he
    rw [he, BitVec.getLsbD_allOnes] at hclear
    simp [show c < 64 by omega] at hclear
  simp only [wordOk, beq_eq_false_iff_ne.mpr hne, Bool.false_or, Bool.and_eq_true,
    List.all_eq_true, List.mem_range, Bool.or_eq_true, decide_eq_true_eq] at hok
  rcases hok.1 c (by omega) with (hset | hge) | hin
  · rw [hclear] at hset
    cases hset
  · omega
  · exact hin

theorem fragmentedWords_spec {n : ℕ} {s' : Mapping} (hn : 0 < numPages)
    (hw : w + n ≤ s.table.max) (hok : wordsOk s.table n w numPages = true)
    (h : fragmentedWords n w s numPages = some s') :
    ∃ ks, Marks s.table s'.table ks ∧ Inside s.table ks ∧
      s'.mapped = s.mapped ++ ks.map s.table.address ∧ SameHints s.table s'.table := by
  induction n generalizing w s numPages with
  | zero => cases h
  | succ n ih =>
    simp only [wordsOk, Bool.and_eq_true, Bool.or_eq_true, decide_eq_true_eq] at hok
    obtain ⟨hword, hrest⟩ := hok
    have hspec := fragmentedWord_spec hn hword
    rw [fragmentedWords] at h
    cases hres : fragmentedWord w s numPages with
    | inl t =>
      simp only [hres, Option.some.injEq] at hspec h
      subst h
      obtain ⟨hi, hhi, hdone, hlen⟩ := hspec
      exact ⟨_, hdone.marks, wordOk_inside hword hhi (by omega) (by omega), hdone.mapped,
        hdone.hints⟩
    | inr t =>
      obtain ⟨s₁, n₁⟩ := t
      simp only [hres] at hspec h
      obtain ⟨hdone, hpos, hlen⟩ := hspec
      have hrest' := hrest.resolve_left (by omega)
      have hsub : numPages - (clearBelow (s.table.pageBitmap w) 64).length = n₁ := by omega
      have hmax : s₁.table.max = s.table.max := by
        rw [MemoryManagementTable.max, MemoryManagementTable.max, hdone.marks.bytes]
      rw [hsub, ← wordsOk_congr n₁ (fun v hv => hdone.pageBitmap_of_ne
        (fun i hi => (mem_clearBelow.mp hi).1) (by omega)) hdone.marks.size] at hrest'
      obtain ⟨ks, hm, hin, hmap, hhints⟩ := ih hpos (by omega) hrest' h
      refine ⟨_, hdone.marks.trans hm, ?_, ?_, hdone.hints.trans hhints⟩
      · intro k hk
        rcases List.mem_append.mp hk with hk | hk
        · exact wordOk_inside hword (Nat.le_refl _) (by omega) (by omega) k hk
        · obtain ⟨hsize, hlt⟩ := hin k hk
          exact ⟨hdone.marks.size ▸ hsize, hmax ▸ hlt⟩
      · rw [hmap, hdone.mapped, List.map_append, List.append_assoc,
          List.map_congr_left (fun k _ => hdone.marks.address k)]

end DevOs.Memory
