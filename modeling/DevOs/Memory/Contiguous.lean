import DevOs.Memory.Marks

/-!
# The search for a run of pages

`AllocateContiguousPages` counts clear bits in `Arrival` and starts anew when a clear bit does not
follow the last one in its word. At the start of a word it does not start anew: set bits at the end
of a word, and full words, do not break a run. `runLength` is the counter as a function of the bits,
and `runStart` the bit at which it was started.
-/

namespace DevOs.Memory

open Words

variable (m : MemoryManagementTable)

/-- The bit `p` is counted as the next one of a run. -/
def continues (p : ℕ) : Bool := decide (p % 64 = 0) || !m.bit (p - 1)

/-- `Arrival` before the bit `p`. -/
def runLength : ℕ → ℕ
  | 0 => 0
  | p + 1 => if m.bit p then runLength p else if continues m p then runLength p + 1 else 1

/-- `PagesStartBmp` and `PagesStartIndex` before the bit `p`. -/
def runStart : ℕ → ℕ
  | 0 => 0
  | p + 1 =>
    if m.bit p then runStart p
    else if continues m p && decide (runLength m p ≠ 0) then runStart p else p

variable {m : MemoryManagementTable} {numPages p q k : ℕ}

theorem runLength_set (h : m.bit p = true) : runLength m (p + 1) = runLength m p := by
  rw [runLength, if_pos h]

theorem runStart_set (h : m.bit p = true) : runStart m (p + 1) = runStart m p := by
  rw [runStart, if_pos h]

theorem runLength_clear (h : m.bit p = false) :
    runLength m (p + 1) = if continues m p then runLength m p + 1 else 1 := by
  rw [runLength, h]
  rfl

theorem runStart_clear (h : m.bit p = false) : runStart m (p + 1) =
    if continues m p && decide (runLength m p ≠ 0) then runStart m p else p := by
  rw [runStart, h]
  rfl

theorem runLength_clear_pos (h : m.bit p = false) : 0 < runLength m (p + 1) := by
  rw [runLength_clear h]
  split_ifs <;> omega

theorem runLength_succ_le (p : ℕ) : runLength m (p + 1) ≤ runLength m p + 1 := by
  cases h : m.bit p with
  | true =>
    rw [runLength_set h]
    omega
  | false =>
    rw [runLength_clear h]
    split_ifs <;> omega

theorem runLength_eq_of_set (hle : p ≤ q) (hset : ∀ j, p ≤ j → j < q → m.bit j = true) :
    runLength m q = runLength m p ∧ runStart m q = runStart m p := by
  induction hle with
  | refl => exact ⟨rfl, rfl⟩
  | @step q hle ih =>
    obtain ⟨hlen, hstart⟩ := ih (fun j hj hjq => hset j hj (by omega))
    have hq := hset q hle (Nat.lt_succ_self q)
    exact ⟨(runLength_set hq).trans hlen, (runStart_set hq).trans hstart⟩

theorem le_runLength {n : ℕ} (hclear : ∀ j < n, m.bit (k + j) = false) :
    n ≤ runLength m (k + n) := by
  induction n with
  | zero => exact Nat.zero_le _
  | succ n ih =>
    rw [show k + (n + 1) = k + n + 1 by omega, runLength_clear (hclear n (Nat.lt_succ_self n))]
    split_ifs with hc
    · exact Nat.succ_le_succ (ih (fun j hj => hclear j (by omega)))
    · cases n with
      | zero => omega
      | succ n =>
        simp [continues, show k + (n + 1) - 1 = k + n by omega,
          hclear n (by omega)] at hc

/-- The bits behind the start of a run, as long as they are clear, are counted one by one. -/
theorem runLength_from {n : ℕ} (hone : runLength m (k + 1) = 1) (hstart : runStart m (k + 1) = k)
    (hclear : ∀ j ≤ n, m.bit (k + j) = false) :
    runLength m (k + n + 1) = n + 1 ∧ runStart m (k + n + 1) = k := by
  induction n with
  | zero => exact ⟨hone, hstart⟩
  | succ n ih =>
    obtain ⟨hlen, hst⟩ := ih (fun j hj => hclear j (by omega))
    have hcont : continues m (k + (n + 1)) = true := by
      simp [continues, show k + (n + 1) - 1 = k + n by omega, hclear n (by omega)]
    have hnext := hclear (n + 1) (Nat.le_refl _)
    rw [← Nat.add_assoc] at hcont hnext
    rw [← Nat.add_assoc, runLength_clear hnext, runStart_clear hnext, hcont, hlen]
    exact ⟨rfl, by simpa using hst⟩

theorem runStart_spec (h : runLength m p ≠ 0) : runStart m p < p ∧
    m.bit (runStart m p) = false ∧ (runStart m p ≠ 0 → m.bit (runStart m p - 1) = true) ∧
    runLength m (runStart m p + 1) = 1 ∧ runStart m (runStart m p + 1) = runStart m p := by
  induction p with
  | zero => exact absurd rfl h
  | succ p ih =>
    cases hp : m.bit p with
    | true =>
      rw [runLength_set hp] at h
      rw [runStart_set hp]
      obtain ⟨hlt, hrest⟩ := ih h
      exact ⟨by omega, hrest⟩
    | false =>
      by_cases hc : continues m p = true ∧ runLength m p ≠ 0
      · have hs : runStart m (p + 1) = runStart m p := by
          rw [runStart_clear hp, hc.1]
          simp [hc.2]
        rw [hs]
        obtain ⟨hlt, hrest⟩ := ih hc.2
        exact ⟨by omega, hrest⟩
      · have hs : runStart m (p + 1) = p := by
          rw [runStart_clear hp]
          by_cases hcont : continues m p = true
          · simp [hcont, show runLength m p = 0 by tauto]
          · simp [Bool.eq_false_iff.mpr hcont]
        have hone : runLength m (p + 1) = 1 := by
          rw [runLength_clear hp]
          by_cases hcont : continues m p = true
          · simp [hcont, show runLength m p = 0 by tauto]
          · simp [Bool.eq_false_iff.mpr hcont]
        rw [hs]
        refine ⟨Nat.lt_succ_self p, hp, ?_, hone, hs⟩
        intro h0
        by_contra hprev
        have hprev' : m.bit (p - 1) = false := Bool.eq_false_iff.mpr hprev
        have hpos := runLength_clear_pos hprev'
        rw [show p - 1 + 1 = p by omega] at hpos
        exact hc ⟨by simp [continues, hprev'], by omega⟩

theorem runLength_same_word (hp : m.bit p = false) (h : runStart m (p + 1) / 64 = p / 64) :
    runStart m (p + 1) + runLength m (p + 1) = p + 1 := by
  induction p using Nat.strongRecOn with
  | ind p ih =>
    by_cases hc : continues m p = true ∧ runLength m p ≠ 0
    · have hs : runStart m (p + 1) = runStart m p := by
        rw [runStart_clear hp, hc.1]
        simp [hc.2]
      have hlt := (runStart_spec hc.2).1
      rw [hs] at h ⊢
      rw [runLength_clear hp, if_pos hc.1]
      have hne : p % 64 ≠ 0 := by omega
      have hprev : m.bit (p - 1) = false := by simpa [continues, hne] using hc.1
      have hih := ih (p - 1) (by omega) hprev (by
        rw [show p - 1 + 1 = p by omega, h]
        omega)
      rw [show p - 1 + 1 = p by omega] at hih
      omega
    · rw [runStart_clear hp, runLength_clear hp]
      by_cases hcont : continues m p = true
      · simp [hcont, show runLength m p = 0 by tauto]
      · simp [Bool.eq_false_iff.mpr hcont]

/-- A run that was started in an earlier word goes on at the start of this one. -/
theorem lt_runLength (hp : m.bit p = false) (h : runStart m (p + 1) / 64 < p / 64) :
    p % 64 + 1 < runLength m (p + 1) := by
  induction p using Nat.strongRecOn with
  | ind p ih =>
    have hc : continues m p = true ∧ runLength m p ≠ 0 := by
      by_contra hc
      rw [runStart_clear hp, if_neg (by simpa using hc)] at h
      omega
    rw [runLength_clear hp, if_pos hc.1]
    by_cases h0 : p % 64 = 0
    · omega
    · have hprev : m.bit (p - 1) = false := by simpa [continues, h0] using hc.1
      have hs : runStart m (p + 1) = runStart m p := by
        rw [runStart_clear hp, hc.1]
        simp [hc.2]
      have hih := ih (p - 1) (by omega) hprev (by
        rw [show p - 1 + 1 = p by omega, ← hs]
        omega)
      rw [show p - 1 + 1 = p by omega] at hih
      omega

/-- The variables of the search before the bit `p`. -/
structure Scanned (m : MemoryManagementTable) (p : ℕ) (s : RunScan) : Prop where
  arrival : s.arrival = runLength m p
  start : s.arrival ≠ 0 → s.pagesStartBmp = runStart m p / 64 ∧
    s.pagesStartIndex = runStart m p % 64 ∧ s.physicalStart = m.address (runStart m p)

theorem bit_word {w i : ℕ} (hi : i < 64) :
    m.bit (64 * w + i) = (m.pageBitmap w).getLsbD i := by
  rw [MemoryManagementTable.bit, show (64 * w + i) / 64 = w by omega,
    show (64 * w + i) % 64 = i by omega]

theorem Scanned.clearBit {w i : ℕ} {s : RunScan} (h : Scanned m (64 * w + i) s) (hi : i < 64)
    (hclear : m.bit (64 * w + i) = false)
    (hnext : i = s.nextIndex ↔ continues m (64 * w + i) = true)
    (hlt : runLength m (64 * w + i) + 1 < 2 ^ 32) :
    ∃ t, Scanned m (64 * w + i + 1) t ∧ t.nextIndex = i + 1 ∧ t.arrival ≠ 0 ∧
      scanClearBit m numPages w i s = if t.arrival = numPages then
        .inl ⟨t.pagesStartBmp, t.pagesStartIndex, t.physicalStart, w, i⟩ else .inr t := by
  have ha := h.arrival
  by_cases hc : continues m (64 * w + i) = true ∧ runLength m (64 * w + i) ≠ 0
  · have hi' := hnext.mpr hc.1
    have hlen : runLength m (64 * w + i + 1) = s.arrival + 1 := by
      rw [runLength_clear hclear, if_pos hc.1, ha]
    have hst : runStart m (64 * w + i + 1) = runStart m (64 * w + i) := by
      rw [runStart_clear hclear, hc.1]
      simp [hc.2]
    refine ⟨{ s with arrival := s.arrival + 1, nextIndex := i + 1 }, ⟨hlen.symm, ?_⟩, rfl,
      Nat.succ_ne_zero _, ?_⟩
    · intro _
      rw [hst]
      exact h.start (by rw [ha]; exact hc.2)
    · have hne : s.arrival ≠ 0 := by rw [ha]; exact hc.2
      simp only [scanClearBit, ← hi', ne_eq, not_true_eq_false, if_false, hne]
      rw [Nat.mod_eq_of_lt (by omega)]
  · have hlen : runLength m (64 * w + i + 1) = 1 := by
      rw [runLength_clear hclear]
      by_cases hcont : continues m (64 * w + i) = true
      · simp [hcont, show runLength m (64 * w + i) = 0 by tauto]
      · simp [Bool.eq_false_iff.mpr hcont]
    have hst : runStart m (64 * w + i + 1) = 64 * w + i := by
      rw [runStart_clear hclear, if_neg (by simpa using hc)]
    refine ⟨⟨w, i, m.address (64 * w + i), 1, i + 1⟩, ⟨hlen.symm, ?_⟩, rfl, Nat.one_ne_zero, ?_⟩
    · intro _
      rw [hst]
      refine ⟨?_, ?_, rfl⟩ <;> dsimp only <;> omega
    · have hp : (m.pageArray (64 * w + i) >>> 12) <<< 12 = m.address (64 * w + i) :=
        pageNumber_shift _
      have hone : (0 + 1) % 2 ^ 32 = 1 := rfl
      by_cases hcont : i = s.nextIndex
      · have h0 : s.arrival = 0 := by
          rw [ha]
          by_contra h0
          exact hc ⟨hnext.mp hcont, h0⟩
        simp only [scanClearBit, ← hcont, ne_eq, not_true_eq_false, if_false, h0, if_true, hp, hone]
      · simp only [scanClearBit, ne_eq, hcont, not_false_eq_true, if_true, hp, hone]

/-- The search ends at the bit `p`. -/
def Completes (m : MemoryManagementTable) (numPages p : ℕ) : Prop :=
  p < 64 * m.max ∧ runLength m (p + 1) = numPages ∧ ∀ q ≤ p, runLength m q < numPages

/-- The run that is completed at the bit `p`. -/
def runAt (m : MemoryManagementTable) (p : ℕ) : FoundRun :=
  ⟨runStart m (p + 1) / 64, runStart m (p + 1) % 64, m.address (runStart m (p + 1)), p / 64, p % 64⟩

/-- At the position `lo` of the word `w` nothing was found before, and `lo` is behind a clear bit or
the first position of the word. -/
structure InWord (m : MemoryManagementTable) (numPages w lo : ℕ) (t : RunScan) : Prop where
  scanned : Scanned m (64 * w + lo) t
  nextIndex : t.nextIndex = lo
  le : lo ≤ 64
  last : lo ≠ 0 → m.bit (64 * w + lo - 1) = false
  below : ∀ q ≤ 64 * w + lo, runLength m q < numPages

section InWord

variable {w lo i : ℕ} {t : RunScan}

theorem bit_of_word_set (hi : i ≤ 64)
    (h : ∀ j, lo ≤ j → j < i → (m.pageBitmap w).getLsbD j = true) (hlo : 64 * w + lo ≤ q)
    (hq : q < 64 * w + i) : m.bit q = true := by
  have := h (q - 64 * w) (by omega) (by omega)
  rwa [← bit_word (by omega), show 64 * w + (q - 64 * w) = q by omega] at this

/-- Set bits change nothing. -/
theorem InWord.reach (hI : InWord m numPages w lo t) (hlo : lo ≤ i) (hi : i ≤ 64)
    (h : ∀ j, lo ≤ j → j < i → (m.pageBitmap w).getLsbD j = true) :
    Scanned m (64 * w + i) t ∧ ∀ q ≤ 64 * w + i, runLength m q < numPages := by
  have hkeep (q : ℕ) (hq : 64 * w + lo ≤ q) (hqi : q ≤ 64 * w + i) :=
    runLength_eq_of_set hq fun j hj hjq => bit_of_word_set hi h hj (by omega)
  obtain ⟨hlen, hst⟩ := hkeep (64 * w + i) (by omega) (Nat.le_refl _)
  refine ⟨⟨by rw [hlen]; exact hI.scanned.arrival, by rw [hst]; exact hI.scanned.start⟩, ?_⟩
  intro q hq
  by_cases hql : q ≤ 64 * w + lo
  · exact hI.below q hql
  · rw [(hkeep q (by omega) hq).1]
    exact hI.below _ (Nat.le_refl _)

theorem InWord.clearBit (hN : numPages < 2 ^ 32) (hI : InWord m numPages w lo t) (hlo : lo ≤ i)
    (hi : i < 64) (h : ∀ j, lo ≤ j → j < i → (m.pageBitmap w).getLsbD j = true)
    (hclear : (m.pageBitmap w).getLsbD i = false) :
    ∃ u, Scanned m (64 * w + i + 1) u ∧ u.nextIndex = i + 1 ∧ u.arrival ≠ 0 ∧
      scanClearBit m numPages w i t = if u.arrival = numPages then
        .inl ⟨u.pagesStartBmp, u.pagesStartIndex, u.physicalStart, w, i⟩ else .inr u := by
  obtain ⟨hscan, hall⟩ := hI.reach hlo (by omega) h
  refine hscan.clearBit hi (by rw [bit_word hi]; exact hclear) ?_ ?_
  · rw [hI.nextIndex]
    constructor
    · rintro rfl
      by_cases h0 : i = 0
      · simp [continues, h0]
      · simp [continues, hI.last h0]
    · intro hcont
      by_contra hne
      have hprev : m.bit (64 * w + i - 1) = true :=
        bit_of_word_set (by omega) h (by omega) (by omega)
      simp only [continues, hprev, Bool.not_true, Bool.or_false, decide_eq_true_eq] at hcont
      omega
  · have := hall _ (Nat.le_refl _)
    omega

end InWord

theorem scanWord_counts {w : ℕ} {s : RunScan} (hN : numPages < 2 ^ 32)
    (hs : Scanned m (64 * w) s) (hlt : ∀ q ≤ 64 * w, runLength m q < numPages) :
    match forClear (scanClearBit m numPages w) 64 (m.pageBitmap w) { s with nextIndex := 0 } with
    | .inl r => ∃ p, p / 64 = w ∧ r = runAt m p ∧ runLength m (p + 1) = numPages ∧
        ∀ q ≤ p, runLength m q < numPages
    | .inr t => Scanned m (64 * (w + 1)) t ∧ ∀ q ≤ 64 * (w + 1), runLength m q < numPages := by
  have hrule := forClear_rule (f := scanClearBit m numPages w) (b := m.pageBitmap w)
    (I := InWord m numPages w)
    (Q := fun r => ∃ p, p / 64 = w ∧ r = runAt m p ∧ runLength m (p + 1) = numPages ∧
        ∀ q ≤ p, runLength m q < numPages) ?_ ?_ (s := { s with nextIndex := 0 })
    ⟨⟨hs.arrival, hs.start⟩, rfl, by omega, fun h => absurd rfl h, hlt⟩
  · cases hres : forClear (scanClearBit m numPages w) 64 (m.pageBitmap w)
        { s with nextIndex := 0 } with
    | inl r =>
      rw [hres] at hrule
      exact hrule
    | inr t =>
      rw [hres] at hrule
      obtain ⟨lo, hI, hrest⟩ := hrule
      rw [show 64 * (w + 1) = 64 * w + 64 by omega]
      exact hI.reach hI.le (Nat.le_refl _) hrest
  · intro lo i t r hI hlo hi h hclear hbody
    obtain ⟨u, hu, hnext, hne, heq⟩ := hI.clearBit hN hlo hi h hclear
    rw [heq] at hbody
    split_ifs at hbody with hcount
    cases hbody
    obtain ⟨hw, hx, hp⟩ := hu.start hne
    refine ⟨64 * w + i, by omega, ?_, hu.arrival.symm.trans hcount,
      (hI.reach hlo (by omega) h).2⟩
    rw [runAt, hw, hx, hp, show (64 * w + i) / 64 = w by omega, show (64 * w + i) % 64 = i by omega]
  · intro lo i t t' hI hlo hi h hclear hbody
    obtain ⟨u, hu, hnext, hne, heq⟩ := hI.clearBit hN hlo hi h hclear
    rw [heq] at hbody
    split_ifs at hbody with hcount
    cases hbody
    have hall := (hI.reach hlo (by omega) h).2
    refine ⟨hu, hnext, hi, fun _ => ?_, ?_⟩
    · rw [show 64 * w + (i + 1) - 1 = 64 * w + i by omega, bit_word hi]
      exact hclear
    · intro q hq
      by_cases hqi : q ≤ 64 * w + i
      · exact hall q hqi
      · have hle := runLength_succ_le (m := m) (64 * w + i)
        have hi' := hall _ (Nat.le_refl _)
        have ha := hu.arrival
        rw [show q = 64 * w + i + 1 by omega]
        omega

theorem scanWords_counts {n w : ℕ} {s : RunScan} (hN : numPages < 2 ^ 32)
    (hs : Scanned m (64 * w) s) (hlt : ∀ q ≤ 64 * w, runLength m q < numPages) :
    match scanWords m numPages n w s with
    | none => ∀ q ≤ 64 * (w + n), runLength m q < numPages
    | some r => ∃ p, p < 64 * (w + n) ∧ r = runAt m p ∧ runLength m (p + 1) = numPages ∧
        ∀ q ≤ p, runLength m q < numPages := by
  induction n generalizing w s with
  | zero => exact hlt
  | succ n ih =>
    have hword := scanWord_counts hN hs hlt
    rw [scanWords]
    cases hres : forClear (scanClearBit m numPages w) 64 (m.pageBitmap w)
        { s with nextIndex := 0 } with
    | inl r =>
      simp only [hres] at hword ⊢
      obtain ⟨p, hp, hr, hrest⟩ := hword
      exact ⟨p, by omega, hr, hrest⟩
    | inr t =>
      simp only [hres] at hword ⊢
      rw [show w + (n + 1) = w + 1 + n by omega]
      exact ih hword.1 hword.2

theorem scanContiguous_counts (h0 : 0 < numPages) (hN : numPages < 2 ^ 32) :
    match scanContiguous m numPages with
    | none => ∀ q ≤ 64 * m.max, runLength m q < numPages
    | some r => ∃ p, Completes m numPages p ∧ r = runAt m p := by
  have h := scanWords_counts (m := m) (n := m.max) (w := 0) (s := ⟨0, 0, 0, 0, 0⟩) hN
    ⟨rfl, fun h => absurd rfl h⟩ (fun q hq => by rw [show q = 0 by omega]; exact h0)
  rw [scanContiguous]
  cases hres : scanWords m numPages m.max 0 ⟨0, 0, 0, 0, 0⟩ with
  | none =>
    simp only [hres, Nat.zero_add] at h ⊢
    exact h
  | some r =>
    simp only [hres, Nat.zero_add] at h ⊢
    obtain ⟨p, hp, hr, hlen, hbelow⟩ := h
    exact ⟨p, ⟨hp, hlen, hbelow⟩, hr⟩

/-- The counter has 32 bits, and never reaches a number of pages that needs more. -/
theorem scanWords_large {n w : ℕ} {s : RunScan} (hN : 2 ^ 32 ≤ numPages) :
    scanWords m numPages n w s = none := by
  induction n generalizing w s with
  | zero => rfl
  | succ n ih =>
    have hrule := forClear_rule (f := scanClearBit m numPages w) (b := m.pageBitmap w)
      (I := fun _ _ => True) (Q := fun _ => False) ?_ (fun _ _ _ _ _ _ _ _ _ _ => trivial)
      (s := { s with nextIndex := 0 }) trivial
    · rw [scanWords]
      cases hres : forClear (scanClearBit m numPages w) 64 (m.pageBitmap w)
          { s with nextIndex := 0 } with
      | inl r =>
        rw [hres] at hrule
        exact hrule.elim
      | inr t => exact ih
    · intro lo i t r _ _ _ _ _ hbody
      obtain ⟨u, -, -, he⟩ := scanClearBit_eq m numPages w i t
      rw [he, if_neg (by omega)] at hbody
      cases hbody

end DevOs.Memory
