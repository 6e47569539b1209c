import DevOs.Memory.Contiguous

/-!
# What a contiguous allocation marks

In one word the mask is that of the run. Across words the first mask covers the bits up to the start
of the run instead of those from it on, and the last one covers the bits behind its end: together
with the words between them they are the run only when it starts at the last bit of a word whose
other bits are set and ends at the last bit of a word.
-/

namespace DevOs.Memory

open Words

variable {m : MemoryManagementTable} {numPages p : ℕ}

theorem bit_orWord (m : MemoryManagementTable) (w l : ℕ) (x : BitVec 64) :
    (m.setWord w (m.pageBitmap w ||| x)).bit l =
      (m.bit l || (decide (l / 64 = w) && x.getLsbD (l % 64))) := by
  rw [MemoryManagementTable.bit_setWord]
  split_ifs with hw
  · rw [BitVec.getLsbD_or, decide_eq_true hw, Bool.true_and, MemoryManagementTable.bit, hw]
  · simp [hw]

theorem fillWords_zero (w : ℕ) (m : MemoryManagementTable) (numPages : ℕ) :
    fillWords 0 w m numPages = (m, numPages) := by
  conv_lhs => rw [fillWords.eq_def]

theorem fillWords_succ (n w : ℕ) (m : MemoryManagementTable) (numPages : ℕ) :
    fillWords (n + 1) w m numPages = fillWords n (w + 1) (m.setWord w (BitVec.allOnes 64))
      ((numPages + (2 ^ 64 - 64)) % 2 ^ 64) := by
  conv_lhs => rw [fillWords.eq_def]

theorem bit_fillWords (n w : ℕ) (m : MemoryManagementTable) (numPages l : ℕ) :
    (fillWords n w m numPages).1.bit l =
      (m.bit l || decide (w ≤ l / 64 ∧ l / 64 < w + n)) := by
  induction n generalizing w m numPages with
  | zero => simp [fillWords_zero, show ¬ (w ≤ l / 64 ∧ l / 64 < w) by omega]
  | succ n ih =>
    rw [fillWords_succ, ih, MemoryManagementTable.bit_setWord]
    by_cases hw : l / 64 = w
    · rw [if_pos hw, BitVec.getLsbD_allOnes, decide_eq_true (Nat.mod_lt l (by decide)),
        decide_eq_true (show w ≤ l / 64 ∧ l / 64 < w + (n + 1) by omega), Bool.true_or,
        Bool.or_true]
    · rw [if_neg hw]
      congr 1
      exact decide_eq_decide.mpr (by omega)

theorem fillWords_snd {n w : ℕ} (h : 64 * n ≤ numPages) (h64 : numPages < 2 ^ 64) :
    (fillWords n w m numPages).2 = numPages - 64 * n := by
  induction n generalizing w m numPages with
  | zero => rw [fillWords_zero, Nat.mul_zero, Nat.sub_zero]
  | succ n ih =>
    have hsub : (numPages + (2 ^ 64 - 64)) % 2 ^ 64 = numPages - 64 := by omega
    rw [fillWords_succ, hsub, ih (by omega) (by omega)]
    omega

/-- What is left of `NumPages` before the last word is marked. -/
def leftOver (m : MemoryManagementTable) (numPages : ℕ) (r : FoundRun) : ℕ :=
  (fillWords (r.bmp - (r.pagesStartBmp + 1)) (r.pagesStartBmp + 1)
    (m.setWord r.pagesStartBmp
      (m.pageBitmap r.pagesStartBmp ||| (BitVec.allOnes 64 >>> (63 - r.pagesStartIndex))))
    (if 64 - r.pagesStartIndex ≤ numPages then numPages - (64 - r.pagesStartIndex) else 0)).2

theorem bit_markRun_across {r : FoundRun} (hw : r.pagesStartBmp < r.bmp)
    (hs : r.pagesStartIndex < 64) (l : ℕ) :
    (markRun m numPages r).bit l = (m.bit l ||
      (decide (l / 64 = r.pagesStartBmp ∧ l % 64 ≤ r.pagesStartIndex) ||
        decide (r.pagesStartBmp < l / 64 ∧ l / 64 < r.bmp) ||
        decide (leftOver m numPages r ≠ 0 ∧ l / 64 = r.bmp ∧ (r.index + 1) % 64 ≤ l % 64))) := by
  have hlast : (BitVec.allOnes 64 <<< ((r.index + 1) % 64)).getLsbD (l % 64) =
      decide ((r.index + 1) % 64 ≤ l % 64) := by
    rw [BitVec.getLsbD_shiftLeft, BitVec.getLsbD_allOnes]
    by_cases h : (r.index + 1) % 64 ≤ l % 64
    · simp [h, Nat.mod_lt, Nat.not_lt.mpr h, show l % 64 - (r.index + 1) % 64 < 64 by omega]
    · simp [h, Nat.lt_of_not_le h]
  have hfirst : (BitVec.allOnes 64 >>> (63 - r.pagesStartIndex)).getLsbD (l % 64) =
      decide (l % 64 ≤ r.pagesStartIndex) := by
    rw [BitVec.getLsbD_ushiftRight, BitVec.getLsbD_allOnes]
    exact decide_eq_decide.mpr (by omega)
  have hmiddle : ∀ first : MemoryManagementTable, ∀ rest : ℕ,
      (fillWords (r.bmp - (r.pagesStartBmp + 1)) (r.pagesStartBmp + 1) first rest).1.bit l =
        (first.bit l || decide (r.pagesStartBmp < l / 64 ∧ l / 64 < r.bmp)) := by
    intro first rest
    rw [bit_fillWords]
    congr 1
    exact decide_eq_decide.mpr (by omega)
  rw [markRun, if_neg (by omega)]
  dsimp only
  by_cases h0 : leftOver m numPages r = 0
  · have hnone := h0
    rw [leftOver] at hnone
    rw [if_pos hnone, hmiddle, bit_orWord, hfirst]
    simp [h0, Bool.or_assoc, Bool.decide_and]
  · have hsome := h0
    rw [leftOver] at hsome
    rw [if_neg hsome, bit_orWord, hmiddle, bit_orWord, hfirst, hlast]
    simp [h0, Bool.or_assoc, Bool.decide_and]

/-- The bits of the pages `k` to `k + numPages - 1` are clear. -/
def ClearRun (m : MemoryManagementTable) (numPages k : ℕ) : Prop :=
  k + numPages ≤ 64 * m.max ∧ ∀ j < numPages, m.bit (k + j) = false

/-- A page that is returned is the first one of a run of clear bits, exactly these bits are set, and
nothing is returned only when there is no such run. -/
def MarksReturned (m : MemoryManagementTable) (numPages : ℕ) : Prop :=
  let r := allocateContiguousPages m numPages
  (r.2 ≠ 0 → ∃ k, ClearRun m numPages k ∧ r.2 = m.address k ∧
    ∀ l, r.1.bit l = (m.bit l || decide (k ≤ l ∧ l < k + numPages))) ∧
  (r.2 = 0 → (∀ l, r.1.bit l = m.bit l) ∧ ∀ k, ¬ ClearRun m numPages k)

/-- The masks fit the run that ends at the bit `p`: it lies in one word, or it starts at the last
bit of a word whose other bits are set and ends with a word. -/
def MasksFit (m : MemoryManagementTable) (numPages p : ℕ) : Prop :=
  numPages ≤ p % 64 + 1 ∨
    p % 64 = 63 ∧ numPages % 64 = 1 ∧ (∀ j < numPages, m.bit (p + 1 - numPages + j) = false) ∧
      ∀ l, l / 64 = (p + 1 - numPages) / 64 → l < p + 1 - numPages → m.bit l = true

theorem Completes.unique {q : ℕ} (hp : Completes m numPages p) (hq : Completes m numPages q) :
    p = q := by
  rcases Nat.lt_trichotomy p q with h | h | h
  · exact absurd hp.2.1 (Nat.ne_of_lt (hq.2.2 (p + 1) h))
  · exact h
  · exact absurd hq.2.1 (Nat.ne_of_lt (hp.2.2 (q + 1) h))

theorem Completes.clear (h : Completes m numPages p) : m.bit p = false := by
  by_contra hp
  have hset : m.bit p = true := by simpa using hp
  have hlt := h.2.2 p (Nat.le_refl p)
  rw [← h.2.1, runLength_set hset] at hlt
  exact Nat.lt_irrefl _ hlt

theorem Completes.start_spec (h0 : 0 < numPages) (h : Completes m numPages p) :
    runStart m (p + 1) < p + 1 ∧ m.bit (runStart m (p + 1)) = false ∧
    (runStart m (p + 1) ≠ 0 → m.bit (runStart m (p + 1) - 1) = true) ∧
    runLength m (runStart m (p + 1) + 1) = 1 ∧
    runStart m (runStart m (p + 1) + 1) = runStart m (p + 1) :=
  runStart_spec (by rw [h.2.1]; exact Nat.ne_of_gt h0)

/-- The run lies in one word when it is no longer than the part of the word up to its end. -/
theorem Completes.same_word_iff (h0 : 0 < numPages) (h : Completes m numPages p) :
    runStart m (p + 1) / 64 = p / 64 ↔ numPages ≤ p % 64 + 1 := by
  constructor
  · intro hw
    have hlen := runLength_same_word h.clear hw
    rw [h.2.1] at hlen
    omega
  · intro hle
    by_contra hw
    have hlt := (h.start_spec h0).1
    have hlong := lt_runLength h.clear (by omega)
    rw [h.2.1] at hlong
    omega

theorem mem_runPages {r : FoundRun} {l : ℕ} : l ∈ runPages r numPages ↔
    64 * r.bmp + r.pagesStartIndex ≤ l ∧ l < 64 * r.bmp + r.pagesStartIndex + numPages := by
  simp only [runPages, List.mem_map, List.mem_range]
  constructor
  · rintro ⟨j, hj, rfl⟩
    omega
  · rintro ⟨hle, hlt⟩
    exact ⟨l - (64 * r.bmp + r.pagesStartIndex), by omega, by omega⟩

theorem runLength_of_clearRun {k : ℕ} (h : ClearRun m numPages k) :
    ∃ q ≤ 64 * m.max, numPages ≤ runLength m q :=
  ⟨k + numPages, h.1, le_runLength h.2⟩

theorem crossing_iff {k p l : ℕ} (hk : k % 64 = 63) (hp : p % 64 = 63) (hkp : k < p)
    (hlow : ¬ (l / 64 = k / 64 ∧ l < k)) :
    ((l / 64 = k / 64 ∧ l % 64 ≤ 63 ∨ k / 64 < l / 64 ∧ l / 64 < p / 64) ∨
      l / 64 = p / 64 ∧ (63 + 1) % 64 ≤ l % 64) ↔ k ≤ l ∧ l < p + 1 := by
  constructor
  · intro hor
    exact ⟨by omega, by omega⟩
  · rintro ⟨hkl, hlp⟩
    by_cases hfirst : l / 64 = k / 64
    · exact Or.inl (Or.inl ⟨hfirst, by omega⟩)
    · by_cases hlast : l / 64 = p / 64
      · exact Or.inr ⟨hlast, Nat.zero_le _⟩
      · exact Or.inl (Or.inr ⟨by omega, by omega⟩)

theorem markRun_across (h0 : 0 < numPages) (h64 : numPages < 2 ^ 64) (h : Completes m numPages p)
    (hword : ¬ numPages ≤ p % 64 + 1) (hfit : MasksFit m numPages p) :
    runStart m (p + 1) = p + 1 - numPages ∧ ClearRun m numPages (p + 1 - numPages) ∧
      ∀ l, (markRun m numPages (runAt m p)).bit l = (m.bit l ||
        decide (p + 1 - numPages ≤ l ∧ l < p + 1 - numPages + numPages)) := by
  obtain ⟨hp, hn, hclear, hlow⟩ := hfit.resolve_left hword
  have hlt := h.1
  have hle : numPages ≤ p + 1 := by
    have hgrow : ∀ q, runLength m q ≤ q := by
      intro q
      induction q with
      | zero => exact Nat.le_refl 0
      | succ q ih => exact Nat.le_trans (runLength_succ_le q) (Nat.succ_le_succ ih)
    rw [← h.2.1]
    exact hgrow (p + 1)
  obtain ⟨k, hk⟩ : ∃ k, k = p + 1 - numPages := ⟨_, rfl⟩
  have hend : k + numPages = p + 1 := by omega
  have hkp : k < p := by omega
  have hkmod : k % 64 = 63 := by omega
  rw [← hk] at hclear hlow ⊢
  clear hle hk hn
  have hprev : m.bit (k - 1) = true := hlow (k - 1) (by omega) (by omega)
  have hk0 : m.bit k = false := hclear 0 h0
  have hcont : continues m k = false := by simp [continues, hprev, hkmod]
  have hone : runLength m (k + 1) = 1 := by
    rw [runLength_clear hk0, hcont]
    rfl
  have hst : runStart m (k + 1) = k := by
    rw [runStart_clear hk0, hcont]
    rfl
  have hfrom := runLength_from (n := numPages - 1) hone hst (fun j hj => hclear j (by omega))
  rw [show k + (numPages - 1) + 1 = p + 1 by omega] at hfrom
  refine ⟨hfrom.2, ⟨by omega, hclear⟩, ?_⟩
  have hr : runAt m p = ⟨k / 64, 63, m.address k, p / 64, 63⟩ := by
    rw [runAt, hfrom.2, hkmod, hp]
  have hleft : leftOver m numPages (runAt m p) ≠ 0 := by
    rw [leftOver, hr]
    dsimp only
    rw [if_pos (by omega), fillWords_snd (by omega) (by omega)]
    omega
  intro l
  rw [bit_markRun_across (by rw [hr]; dsimp only; omega) (by rw [hr]; exact Nat.lt_succ_self 63)]
  simp only [hleft, ne_eq, not_false_eq_true, true_and]
  simp only [hr]
  cases hl : m.bit l with
  | true => rfl
  | false =>
    rw [Bool.false_or, Bool.false_or, ← Bool.decide_or, ← Bool.decide_or]
    apply decide_eq_decide.mpr
    rw [hend]
    refine crossing_iff hkmod hp hkp ?_
    rintro ⟨hw, hlk⟩
    rw [hlow l hw hlk] at hl
    cases hl

/-- The clear bits that a run across words marks, from the bit `s` to the bit `p`. -/
def Crossed (last : Prop) (s p l : ℕ) : Prop :=
  l / 64 = s / 64 ∧ l % 64 ≤ s % 64 ∨ s / 64 < l / 64 ∧ l / 64 < p / 64 ∨
    last ∧ l / 64 = p / 64 ∧ (p % 64 + 1) % 64 ≤ l % 64

theorem crossed_succ {last : Prop} {s p : ℕ} (hw : s / 64 < p / 64)
    (h : Crossed last s p (s + 1)) : s % 64 = 63 := by
  rcases h with h | h | h <;> omega

theorem crossed_last {last : Prop} {s p : ℕ} (hw : s / 64 < p / 64) (h : Crossed last s p p) :
    p % 64 = 63 := by
  rcases h with h | h | h <;> omega

theorem masksFit_of_marks (h0 : 0 < numPages) (h : Completes m numPages p)
    (hword : ¬ numPages ≤ p % 64 + 1) {k : ℕ} (hrun : ClearRun m numPages k)
    (hbits : ∀ l, (markRun m numPages (runAt m p)).bit l =
      (m.bit l || decide (k ≤ l ∧ l < k + numPages))) : MasksFit m numPages p := by
  obtain ⟨hs, hsclear, hsprev, hone, hst⟩ := h.start_spec h0
  have hpclear := h.clear
  have hne := (not_congr (h.same_word_iff h0)).mpr hword
  obtain ⟨s, hseq⟩ : ∃ s, s = runStart m (p + 1) := ⟨_, rfl⟩
  rw [← hseq] at hs hsclear hsprev hone hst hne
  have hr : runAt m p = ⟨s / 64, s % 64, m.address s, p / 64, p % 64⟩ := by rw [runAt, ← hseq]
  have hsw : s / 64 < p / 64 := by omega
  have hsw' : (runAt m p).pagesStartBmp < (runAt m p).bmp := by
    rw [hr]
    exact hsw
  have hs64 : (runAt m p).pagesStartIndex < 64 := by
    rw [hr]
    exact Nat.mod_lt _ (by decide)
  have hacross (l : ℕ) : (markRun m numPages (runAt m p)).bit l = _ :=
    bit_markRun_across hsw' hs64 l
  -- a clear bit is marked exactly when it belongs to the run
  have hmark (l : ℕ) (hl : m.bit l = false) : (k ≤ l ∧ l < k + numPages) ↔
      Crossed (leftOver m numPages (runAt m p) ≠ 0) s p l := by
    have he := (hbits l).symm.trans (hacross l)
    rw [hl, Bool.false_or, Bool.false_or, ← Bool.decide_or, ← Bool.decide_or] at he
    have hiff := decide_eq_decide.mp he
    rw [hr] at hiff ⊢
    rw [hiff, Crossed, or_assoc]
  have hin (l : ℕ) (h1 : k ≤ l) (h2 : l < k + numPages) : m.bit l = false := by
    have hbit := hrun.2 (l - k) (by omega)
    rwa [show k + (l - k) = l by omega] at hbit
  have hks := (hmark s hsclear).mpr (Or.inl ⟨rfl, Nat.le_refl _⟩)
  have hk : k = s := by
    by_contra hne'
    have hprev := hin (s - 1) (by omega) (by omega)
    rw [hsprev (by omega)] at hprev
    cases hprev
  subst hk
  have hmod : k % 64 = 63 := by
    have hnext := hin (k + 1) (by omega) (by omega)
    exact crossed_succ hsw ((hmark (k + 1) hnext).mp ⟨by omega, by omega⟩)
  have hfrom (n : ℕ) (hn : n < numPages) :=
    runLength_from (n := n) hone hst (fun j hj => hrun.2 j (by omega))
  have hend : p + 1 = k + numPages := by
    have hlen := (hfrom (numPages - 1) (by omega)).1
    by_contra hend
    rcases Nat.lt_or_gt_of_ne hend with hlt | hgt
    · have hshort := (hfrom (p - k) (by omega)).1
      rw [show k + (p - k) + 1 = p + 1 by omega, h.2.1] at hshort
      omega
    · have hlt := h.2.2 (k + (numPages - 1) + 1) (by omega)
      omega
  have hpmod : p % 64 = 63 :=
    crossed_last hsw ((hmark p hpclear).mp ⟨by omega, by omega⟩)
  refine Or.inr ⟨hpmod, by omega, ?_, ?_⟩
  · rw [show p + 1 - numPages = k by omega]
    exact hrun.2
  · rw [show p + 1 - numPages = k by omega]
    intro l hl hlk
    by_contra hset
    have hmem := (hmark l (by simpa using hset)).mpr (Or.inl ⟨hl, by omega⟩)
    exact absurd hmem.1 (Nat.not_le.mpr hlk)

theorem marksReturned_none (h : scanContiguous m numPages = none) :
    MarksReturned m numPages ↔ ∀ k, ¬ ClearRun m numPages k := by
  rw [MarksReturned, allocateContiguousPages, h]
  simp

theorem marksReturned_some {r : FoundRun} (h : scanContiguous m numPages = some r) :
    allocateContiguousPages m numPages = (markRun m numPages r, r.physicalStart) := by
  rw [allocateContiguousPages, h]

/-- A run of pages is marked right exactly when it needs no counter of more than 32 bits, or there
is none, and the first run that the search completes starts at a page with an address and fits the
masks. -/
theorem contiguous_marks_iff (m : MemoryManagementTable) (numPages : ℕ) (h0 : 1 ≤ numPages)
    (h64 : numPages < 2 ^ 64) : MarksReturned m numPages ↔
      (2 ^ 32 ≤ numPages → ∀ k, ¬ ClearRun m numPages k) ∧
      (numPages < 2 ^ 32 → ∀ p, Completes m numPages p →
        m.address (p + 1 - numPages) ≠ 0 ∧ MasksFit m numPages p) := by
  by_cases hN : numPages < 2 ^ 32
  swap
  · rw [marksReturned_none (scanWords_large (by omega))]
    exact ⟨fun hnone => ⟨fun _ => hnone, fun h => absurd h hN⟩, fun h => h.1 (by omega)⟩
  · have hscan := scanContiguous_counts (m := m) h0 hN
    cases hres : scanContiguous m numPages with
    | none =>
      simp only [hres] at hscan
      rw [marksReturned_none hres]
      constructor
      · intro _
        refine ⟨fun h => absurd h (by omega), fun _ p hp => ?_⟩
        exact absurd hp.2.1 (Nat.ne_of_lt (hscan (p + 1) hp.1))
      · intro _ k hk
        obtain ⟨q, hq, hlen⟩ := runLength_of_clearRun hk
        have := hscan q hq
        omega
    | some r =>
      simp only [hres] at hscan
      obtain ⟨p, hp, rfl⟩ := hscan
      have hcond : ((2 ^ 32 ≤ numPages → ∀ k, ¬ ClearRun m numPages k) ∧
          (numPages < 2 ^ 32 → ∀ p, Completes m numPages p →
            m.address (p + 1 - numPages) ≠ 0 ∧ MasksFit m numPages p)) ↔
          m.address (p + 1 - numPages) ≠ 0 ∧ MasksFit m numPages p := by
        constructor
        · rintro ⟨-, h⟩
          exact h hN p hp
        · intro h
          refine ⟨fun hlarge => absurd hN (by omega), fun _ q hq => ?_⟩
          rw [hq.unique hp]
          exact h
      rw [hcond, MarksReturned, marksReturned_some hres]
      by_cases hword : numPages ≤ p % 64 + 1
      · have hsame := (hp.same_word_iff h0).mpr hword
        have hmarks := marks_markRun h0 hsame ((scanContiguous_spec hres).2 hsame)
        have hlen := runLength_same_word hp.clear hsame
        rw [hp.2.1] at hlen
        have hst : runStart m (p + 1) = p + 1 - numPages := by omega
        have hpage : 64 * (runAt m p).bmp + (runAt m p).pagesStartIndex = p + 1 - numPages := by
          simp only [runAt]
          omega
        have hbits (l : ℕ) : (markRun m numPages (runAt m p)).bit l =
            (m.bit l || decide (p + 1 - numPages ≤ l ∧ l < p + 1 - numPages + numPages)) := by
          rw [hmarks.bits l]
          congr 1
          apply decide_eq_decide.mpr
          rw [mem_runPages, hpage]
        have hrun : ClearRun m numPages (p + 1 - numPages) := by
          have hlt := hp.1
          refine ⟨by omega, fun j hj => hmarks.clear _ ?_⟩
          rw [mem_runPages, hpage]
          omega
        rw [show (runAt m p).physicalStart = m.address (p + 1 - numPages) by rw [runAt, hst]]
        constructor
        · rintro ⟨-, hnull⟩
          refine ⟨fun h => ?_, Or.inl hword⟩
          exact (hnull h).2 _ hrun
        · rintro ⟨hne, -⟩
          exact ⟨fun _ => ⟨_, hrun, rfl, hbits⟩, fun h => absurd h hne⟩
      · constructor
        · rintro ⟨hret, hnull⟩
          have hs := hp.start_spec h0
          by_cases hzero : (runAt m p).physicalStart = 0
          · have hkeep := (hnull hzero).1 (runStart m (p + 1))
            have hne := (not_congr (hp.same_word_iff h0)).mpr hword
            have hlt := hs.1
            rw [bit_markRun_across (by simp only [runAt]; omega)
              (by simp only [runAt]; exact Nat.mod_lt _ (by decide)), hs.2.1] at hkeep
            simp [runAt] at hkeep
          · obtain ⟨k, hrun, _, hbits⟩ := hret hzero
            have hfit := masksFit_of_marks h0 hp hword hrun hbits
            refine ⟨?_, hfit⟩
            rwa [← (markRun_across h0 h64 hp hword hfit).1]
        · rintro ⟨hne, hfit⟩
          obtain ⟨hst, hrun, hbits⟩ := markRun_across h0 h64 hp hword hfit
          rw [show (runAt m p).physicalStart = m.address (p + 1 - numPages) by rw [runAt, hst]]
          exact ⟨fun _ => ⟨_, hrun, rfl, hbits⟩, fun h => absurd h hne⟩

/-- Two words: all bits of the first one but the last are set, the second one is empty. -/
def tailFree : MemoryManagementTable where
  allocatedPages := 0
  pageArraySize := 128
  pageArray k := BitVec.ofNat 64 (4096 * (k + 1))
  numBytesPageBitmap := 16
  pageBitmap w := if w = 0 then 0x7FFFFFFFFFFFFFFF#64 else 0
  freePagesStart := 0
  freePageArrayStart := 0
  bmpEnd := 16

/-- Sixty-five pages from the last bit of the first word to the end of the second one. -/
theorem contiguous_marks_tail : MarksReturned tailFree 65 := by
  refine (contiguous_marks_iff tailFree 65 (by decide) (by decide)).mpr ⟨fun h => ?_, fun _ => ?_⟩
  · exact absurd h (by decide)
  · intro p hp
    have h127 : Completes tailFree 65 127 := by
      unfold Completes
      decide
    rw [hp.unique h127]
    refine ⟨by decide, Or.inr ⟨by decide, by decide, by decide, ?_⟩⟩
    intro l hl hlt
    have hall : ∀ j < 63, tailFree.bit j = true := by decide
    exact hall l (by omega)

/-- The same pages of an empty bitmap, from its first bit on: the pages 1 to 64 stay clear. -/
theorem contiguous_marks_others :
    ¬ MarksReturned { tailFree with pageBitmap := fun _ => 0 } 65 := by
  rintro ⟨hret, -⟩
  obtain ⟨hgiven, hset, hclear⟩ :
      (allocateContiguousPages { tailFree with pageBitmap := fun _ => 0 } 65).2 ≠ 0 ∧
      (allocateContiguousPages { tailFree with pageBitmap := fun _ => 0 } 65).1.bit 0 = true ∧
      (allocateContiguousPages { tailFree with pageBitmap := fun _ => 0 } 65).1.bit 1 = false := by
    decide +kernel
  obtain ⟨k, -, -, hbits⟩ := hret hgiven
  have hempty (l : ℕ) :
      MemoryManagementTable.bit { tailFree with pageBitmap := fun _ => 0 } l = false :=
    BitVec.getLsbD_zero
  have hfirst := hbits 0
  have hsecond := hbits 1
  rw [hset, hempty, Bool.false_or, eq_comm, decide_eq_true_eq] at hfirst
  rw [hclear, hempty, Bool.false_or, eq_comm, decide_eq_false_iff_not] at hsecond
  omega

end DevOs.Memory
