import DevOs.Memory.Grants

/-!
# The count of a scattered allocation

`KeAllocateFragmentedPages` counts `NumPages` down to the pages that are still missing, and every
way to `Success` is taken when it has reached zero. What it adds to `AllocatedPages` there is
therefore nothing.
-/

namespace DevOs.Memory

open Words

/-- The counter `AllocatedPages` of the table of a mapping. -/
def Mapping.counted (s : Mapping) : ℕ := s.table.allocatedPages % 2 ^ 64

variable {s s' : Mapping} {w numPages : ℕ}

@[simp]
theorem counted_page (s : Mapping) (k : ℕ) : (s.page k).counted = s.counted := rfl

@[simp]
theorem counted_setWord (s : Mapping) (w : ℕ) (b : BitVec 64) :
    (s.setWord w b).counted = s.counted := rfl

@[simp]
theorem counted_pages (s : Mapping) (base count : ℕ) :
    (s.pages base count).counted = s.counted := by
  induction count with
  | zero => rfl
  | succ count ih =>
    rw [Mapping.pages, counted_page, ih]

@[simp]
theorem counted_success_zero (s : Mapping) : (s.success 0).counted = s.counted := by
  rw [Mapping.counted, Mapping.counted, Mapping.success]
  exact Nat.mod_mod _ _

theorem counted_emptyWord (w : ℕ) (s : Mapping) (numPages : ℕ) :
    match emptyWord w s numPages with
    | .inl s' => s'.counted = s.counted
    | .inr (s', _) => s'.counted = s.counted := by
  rw [emptyWord]
  by_cases hz : numPages - min 64 numPages = 0
  · simp only [hz, if_true, counted_success_zero, counted_pages, counted_setWord]
  · simp only [hz, if_false, counted_pages, counted_setWord]

theorem counted_leadingPages (w i : ℕ) (b : BitVec 64) (s : Mapping) (numPages : ℕ) :
    match leadingPages w i b s numPages with
    | .inl s' => s'.counted = s.counted
    | .inr (_, s', _) => s'.counted = s.counted := by
  rw [leadingPages]
  by_cases h0 : i = 0
  · simp only [h0, if_true]
  · by_cases hz : numPages - min i numPages = 0
    · simp only [h0, hz, if_true, if_false, counted_success_zero, counted_pages]
    · simp only [h0, hz, if_false, counted_pages]

theorem counted_trailingPages (w i : ℕ) (b : BitVec 64) (s : Mapping) (numPages : ℕ) :
    match trailingPages w i b s numPages with
    | .inl s' => s'.counted = s.counted
    | .inr (_, s', _) => s'.counted = s.counted := by
  rw [trailingPages]
  by_cases h0 : i = 63
  · simp only [h0, if_true]
  · by_cases hz : numPages - min (64 - (i + 1)) numPages = 0
    · simp only [h0, hz, if_true, if_false, counted_success_zero, counted_pages]
    · simp only [h0, hz, if_false, counted_pages]

theorem counted_remainingPages (w : ℕ) (c : BitVec 64) (s : Mapping) (numPages : ℕ) :
    match forClear (remainingPage w) 64 c (c, s, numPages) with
    | .inl s' => s'.counted = s.counted
    | .inr (_, s', _) => s'.counted = s.counted := by
  have hrule := forClear_rule (f := remainingPage w) (b := c)
    (I := fun _ t => t.2.1.counted = s.counted) (Q := fun s' => s'.counted = s.counted) ?_ ?_
    (s := (c, s, numPages)) rfl
  · cases hres : forClear (remainingPage w) 64 c (c, s, numPages) with
    | inl s' =>
      rw [hres] at hrule
      exact hrule
    | inr t =>
      rw [hres] at hrule
      obtain ⟨_, ht, _⟩ := hrule
      exact ht
  · intro lo i t r ht _ _ _ _ hbody
    rw [remainingPage] at hbody
    split_ifs at hbody with hz
    cases hbody
    rw [hz, counted_success_zero, counted_setWord, counted_page, ht]
  · intro lo i t t' ht _ _ _ _ hbody
    rw [remainingPage] at hbody
    split_ifs at hbody with hz
    cases hbody
    exact ht

theorem counted_fragmentedWord (w : ℕ) (s : Mapping) (numPages : ℕ) :
    match fragmentedWord w s numPages with
    | .inl s' => s'.counted = s.counted
    | .inr (s', _) => s'.counted = s.counted := by
  rw [fragmentedWord]
  by_cases hfull : s.table.pageBitmap w = BitVec.allOnes 64
  · simp only [hfull, if_true]
  · by_cases h0 : s.table.pageBitmap w = 0
    · simp only [if_neg hfull, if_pos h0]
      exact counted_emptyWord w s numPages
    · simp only [if_neg hfull, if_neg h0]
      have hlead := counted_leadingPages w ((bitScanForward (s.table.pageBitmap w)).getD 0)
        (s.table.pageBitmap w) s numPages
      cases hl : leadingPages w ((bitScanForward (s.table.pageBitmap w)).getD 0)
          (s.table.pageBitmap w) s numPages with
      | inl s₁ =>
        simp only [hl] at hlead ⊢
        exact hlead
      | inr t₁ =>
        obtain ⟨b₁, s₁, n₁⟩ := t₁
        simp only [hl] at hlead ⊢
        have htrail := counted_trailingPages w ((bitScanReverse b₁).getD 0) b₁ s₁ n₁
        cases ht : trailingPages w ((bitScanReverse b₁).getD 0) b₁ s₁ n₁ with
        | inl s₂ =>
          simp only [ht] at htrail ⊢
          exact htrail.trans hlead
        | inr t₂ =>
          obtain ⟨b₂, s₂, n₂⟩ := t₂
          simp only [ht] at htrail ⊢
          have hrest := counted_remainingPages w b₂ s₂ n₂
          cases hr : forClear (remainingPage w) 64 b₂ (b₂, s₂, n₂) with
          | inl s₃ =>
            simp only [hr] at hrest ⊢
            exact hrest.trans (htrail.trans hlead)
          | inr t₃ =>
            simp only [hr] at hrest ⊢
            exact hrest.trans (htrail.trans hlead)

theorem counted_fragmentedWords {n : ℕ} (h : fragmentedWords n w s numPages = some s') :
    s'.counted = s.counted := by
  induction n generalizing w s numPages with
  | zero => cases h
  | succ n ih =>
    have hword := counted_fragmentedWord w s numPages
    rw [fragmentedWords] at h
    cases hres : fragmentedWord w s numPages with
    | inl t =>
      simp only [hres, Option.some.injEq] at h hword
      rw [← h, hword]
    | inr t =>
      simp only [hres] at h hword
      exact (ih h).trans hword

theorem counted_keAllocateFragmentedPages {m : MemoryManagementTable}
    {r : MemoryManagementTable × List (BitVec 64)}
    (h : keAllocateFragmentedPages m numPages = some r) :
    r.1.allocatedPages % 2 ^ 64 = m.allocatedPages % 2 ^ 64 := by
  rw [keAllocateFragmentedPages] at h
  split_ifs at h with h0
  · cases h
    rfl
  · obtain ⟨s', hs', rfl⟩ := Option.map_eq_some_iff.mp h
    exact counted_fragmentedWords hs'

/-- The call maps `NumPages` different pages whose bits were clear, in order, sets exactly their
bits and their flags `Allocated`, and counts them. -/
def AllocatesFragmented (m : MemoryManagementTable) (numPages : ℕ) : Prop :=
  ∃ (r : MemoryManagementTable × List (BitVec 64)) (ks : List ℕ),
    keAllocateFragmentedPages m numPages = some r ∧ ks.length = numPages ∧ ks.Nodup ∧
    (∀ k ∈ ks, k < 64 * m.max ∧ m.bit k = false) ∧ r.2 = ks.map m.address ∧
    (∀ k, r.1.bit k = (m.bit k || decide (k ∈ ks))) ∧
    (∀ k ∈ ks, (r.1.pageArray k).getLsbD 0 = true) ∧
    r.1.allocatedPages = (m.allocatedPages + numPages) % 2 ^ 64

def clearBits (m : MemoryManagementTable) : ℕ :=
  ((List.range (64 * m.max)).filter (fun k => !m.bit k)).length

/-- No call counts the pages it has allocated. -/
theorem fragmented_uncounted (m : MemoryManagementTable) (numPages : ℕ) (h1 : 1 ≤ numPages)
    (h64 : numPages < 2 ^ 64) : ¬ AllocatesFragmented m numPages := by
  rintro ⟨r, ks, hr, -, -, -, -, -, -, hcount⟩
  have h := counted_keAllocateFragmentedPages hr
  rw [hcount] at h
  omega

/-- A whole empty word is allocated right, but for the count. -/
theorem fragmented_uncounted_word :
    ¬ AllocatesFragmented (initBitmap 128 consecutivePages (fun _ => 0) 0) 64 :=
  fragmented_uncounted _ 64 (by decide) (by decide)

/-- Sixty-four pages are mapped and marked, and `AllocatedPages` stays zero. -/
theorem whole_word_uncounted :
    64 ≤ clearBits (initBitmap 128 consecutivePages (fun _ => 0) 0) ∧
    (keAllocateFragmentedPages (initBitmap 128 consecutivePages (fun _ => 0) 0) 64).map
      (fun r => (r.2.length, r.1.pageBitmap 0, r.1.allocatedPages)) =
        some (64, BitVec.allOnes 64, 0) ∧
    ¬ AllocatesFragmented (initBitmap 128 consecutivePages (fun _ => 0) 0) 64 := by
  have hrun : (keAllocateFragmentedPages (initBitmap 128 consecutivePages (fun _ => 0) 0) 64).map
      (fun r => (r.2.length, r.1.pageBitmap 0, r.1.allocatedPages)) =
        some (64, BitVec.allOnes 64, 0) := by decide
  refine ⟨by decide +kernel, hrun, ?_⟩
  rintro ⟨r, ks, hr, -, -, -, -, -, -, hcount⟩
  rw [hr, Option.map_some, Option.some.injEq] at hrun
  have h0 : r.1.allocatedPages = 0 := congrArg (fun t => t.2.2) hrun
  rw [h0] at hcount
  revert hcount
  decide

end DevOs.Memory
