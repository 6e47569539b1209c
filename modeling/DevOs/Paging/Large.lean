import DevOs.Paging.Readback
import DevOs.Lib.Runs

/-!
# Large pages

`MapPhysicalPages` stores the number of the `2 ^ 12` byte frame of a large page, and for
write-through pages the PAT bit in the lowest bit of this number. `KeResolvePhysicalAddress` reads
the number of a `2 ^ 21` byte frame. The two agree for one frame only.
-/

namespace DevOs.Paging

open Bytes Fields Radix

variable {m m' : Machine} {pageMap p q x n i flags count virtualAddress physicalAddress : ℕ}

def patBit (flags : ℕ) : ℕ := if has flags pmWriteThrough then 1 else 0

theorem or_patBit (hx : x % 2 = 0) : x ||| patBit flags = x + patBit flags := by
  rw [patBit]
  split_ifs
  · obtain ⟨y, rfl⟩ : ∃ y, x = 2 ^ 1 * y := ⟨x / 2, by omega⟩
    exact (Nat.two_pow_add_eq_or_of_lt (by decide) y).symm
  · rw [Nat.or_zero, Nat.add_zero]

/-- The pages of a range are resolved to the number of their frame, if they are not written
again. -/
theorem Tree.mapLoop_large (h : Tree m (pageMap / 2 ^ 12)) (hflags : has flags pmLargePages = true)
    (hpresent : has flags pmPresent = true) (hx : x % 512 = 0)
    (hrun : mapLoop pageMap count flags n m p x = some m') :
    (∀ i < n, (∀ j, i < j → j < n → (p + 512 * j) / 512 % 2 ^ 27 ≠ (p + 512 * i) / 512 % 2 ^ 27) →
      ∀ q,
      (p + 512 * i) / 512 % 2 ^ 27 = q / 512 % 2 ^ 27 → translate m'.memory (pageMap / 2 ^ 12) q =
        some (.large ((x + 512 * i + patBit flags) % 2 ^ 36))) ∧
    ∀ q, (∀ i < n, (p + 512 * i) / 512 % 2 ^ 27 ≠ q / 512 % 2 ^ 27) →
      translate m'.memory (pageMap / 2 ^ 12) q = translate m.memory (pageMap / 2 ^ 12) q := by
  induction n generalizing m p x with
  | zero =>
    cases hrun
    exact ⟨fun i hi => absurd hi (Nat.not_lt_zero i), fun _ _ => rfl⟩
  | succ n ih =>
    obtain ⟨m₁, hpage, hrun⟩ := Option.bind_eq_some_iff.mp hrun
    obtain ⟨m₀, trace, hentry, rfl⟩ := mapPage_some hpage
    have hw := h.writtenLarge hflags hentry
    rw [incVaddr, if_pos hflags] at hrun
    have hmod (i : ℕ) : (u64 (p + 512) + 512 * i) / 512 % 2 ^ 27 =
        (p + 512 * (i + 1)) / 512 % 2 ^ 27 := by
      rw [u64]
      omega
    have hxmod (i : ℕ) : (u64 (x + 512) + 512 * i + patBit flags) % 2 ^ 36 =
        (x + 512 * (i + 1) + patBit flags) % 2 ^ 36 := by
      rw [u64]
      omega
    obtain ⟨hin, hout⟩ := ih (hw.tree.withTrace trace) (by rw [u64]; omega) hrun
    refine ⟨fun i hi hlater q hq => ?_, fun q hq => ?_⟩
    · cases i with
      | zero =>
        refine (hout q fun j hj => ?_).trans ((hw.mapped q hq ?_).trans ?_)
        · rw [hmod j, ← hq]
          exact hlater (j + 1) (Nat.succ_pos j) (Nat.succ_lt_succ hj)
        · rw [present_setPhysicalAddr, present_modelEntry, hpresent]
        · rw [physicalAddr_setPhysicalAddr, physicalAddr_modelEntry, hflags, Bool.true_and,
            ← patBit, or_patBit (by omega), Nat.mul_zero, Nat.add_zero]
      | succ i =>
        rw [← hxmod i]
        refine hin i (Nat.lt_of_succ_lt_succ hi) (fun j hij hj => ?_) q ((hmod i).trans hq)
        rw [hmod i, hmod j]
        exact hlater (j + 1) (Nat.succ_lt_succ hij) (Nat.succ_lt_succ hj)
    · refine (hout q fun i hi => ?_).trans (hw.translate q (hq 0 (Nat.succ_pos n)))
      rw [hmod i]
      exact hq (i + 1) (Nat.succ_lt_succ hi)

theorem Tree.mapLoop_large_returns (count : ℕ) (h : Tree m (pageMap / 2 ^ 12))
    (hflags : has flags pmLargePages = true) (hpages : 2 * n ≤ m.pages.length) :
    ∃ m', mapLoop pageMap count flags n m p x = some m' := by
  induction n generalizing m p x with
  | zero => exact ⟨m, rfl⟩
  | succ n ih =>
    obtain ⟨m₁, hentry⟩ := h.mapEntry_large (p := p) (x := x) hflags (by omega)
    have hw := h.writtenLarge hflags hentry
    obtain ⟨trace, hpage⟩ := mapPage_of_entry count hentry
    have hlen := hw.pages
    rw [mapLoop, hpage, Option.bind_some]
    exact ih (hw.tree.withTrace trace) (by dsimp only; omega)

def LargeReadsBack (m' : Machine) (pageMap virtualAddress physicalAddress count : ℕ) : Prop :=
  ∀ i < count, ∀ o < 2 ^ 21, keResolvePhysicalAddress m'.memory pageMap
    (u64 (virtualAddress + i * 2 ^ 21 + o)) = some (u64 (physicalAddress + i * 2 ^ 21 + o))

def agreedFrame (flags : ℕ) : ℕ := if has flags pmWriteThrough then 0x8040201 else 0

theorem frame_agrees_iff {N : ℕ} :
    (512 * N + patBit flags) % 2 ^ 36 = N % 2 ^ 43 ↔ N % 2 ^ 43 = agreedFrame flags := by
  rw [patBit, agreedFrame]
  split_ifs <;> omega

theorem agreedFrame_le (flags : ℕ) : agreedFrame flags ≤ 0x8040201 := by
  rw [agreedFrame]
  split_ifs <;> decide

/-- A page that is not written again is read back exactly when the numbers of its frame agree. -/
theorem Tree.large_page_iff {N : ℕ} (h : Tree m (pageMap / 2 ^ 12))
    (hflags : has flags pmLargePages = true) (hpresent : has flags pmPresent = true)
    (hva : virtualAddress % 2 ^ 21 = 0) (hpa : physicalAddress = N * 2 ^ 21) (hi : i < count)
    (hlater : ∀ j, i < j → j < count → j < i + 2)
    (hrun : mapPhysicalPages m pageMap virtualAddress physicalAddress count flags = some m') :
    (∀ o < 2 ^ 21, keResolvePhysicalAddress m'.memory pageMap
      (u64 (virtualAddress + i * 2 ^ 21 + o)) =
      some (u64 (physicalAddress + i * 2 ^ 21 + o))) ↔ (N + i) % 2 ^ 43 = agreedFrame flags := by
  obtain ⟨m₁, trace, hloop, rfl⟩ := mapPhysicalPages_some hrun
  have hfirst := firstPage_mod virtualAddress
  have hpage : physicalAddress / 2 ^ 12 = 512 * N := by omega
  rw [hpage] at hloop
  obtain ⟨hin, -⟩ := h.mapLoop_large hflags hpresent (Nat.mul_mod_right 512 N) hloop
  have hread := hin i hi (fun j hij hj => by
    have := hlater j hij hj
    obtain rfl : j = i + 1 := by omega
    omega)
  have haddr (o : ℕ) (ho : o < 2 ^ 21) : keResolvePhysicalAddress m₁.memory pageMap
      (u64 (virtualAddress + i * 2 ^ 21 + o)) =
        some ((512 * (N + i) + patBit flags) % 2 ^ 36 * 2 ^ 21 + o) := by
    rw [keResolvePhysicalAddress_eq, hread _ (by rw [u64]; omega), Option.map_some, Mapping.address,
      Nat.mul_add]
    exact congrArg some (by rw [u64]; omega)
  have htarget (o : ℕ) (ho : o < 2 ^ 21) :
      u64 (physicalAddress + i * 2 ^ 21 + o) = (N + i) % 2 ^ 43 * 2 ^ 21 + o := by
    rw [u64, hpa]
    omega
  rw [← frame_agrees_iff]
  refine ⟨fun hall => ?_, fun hN o ho => ?_⟩
  · have h0 := hall 0 (by decide)
    rw [haddr 0 (by decide), htarget 0 (by decide)] at h0
    have := Option.some.inj h0
    omega
  · rw [haddr o ho, htarget o ho, hN]

/-- Large pages are read back only when there is at most one, at the frame whose numbers agree. -/
theorem large_reads_back_iff (pageMap virtualAddress physicalAddress count flags : ℕ)
    (h : Tree m (pageMap / 2 ^ 12)) (hflags : has flags pmLargePages = true)
    (hpresent : has flags pmPresent = true) (hva : virtualAddress % 2 ^ 21 = 0)
    (hpa : physicalAddress % 2 ^ 21 = 0) (hmax : physicalAddress < 2 ^ 51) :
    (2 * count ≤ m.pages.length →
      ∃ m', mapPhysicalPages m pageMap virtualAddress physicalAddress count flags = some m') ∧
    ∀ m', mapPhysicalPages m pageMap virtualAddress physicalAddress count flags = some m' →
      (LargeReadsBack m' pageMap virtualAddress physicalAddress count ↔
        count = 0 ∨ count = 1 ∧ physicalAddress = agreedFrame flags * 2 ^ 21) := by
  obtain ⟨N, rfl⟩ : ∃ N, physicalAddress = N * 2 ^ 21 := ⟨physicalAddress / 2 ^ 21, by omega⟩
  refine ⟨fun hpages => ?_, fun m' hrun => ?_⟩
  · obtain ⟨m', hm'⟩ := h.mapLoop_large_returns count (x := N * 2 ^ 21 / 2 ^ 12) hflags hpages
    rw [mapPhysicalPages, hm', Option.map_some]
    exact ⟨_, rfl⟩
  · have hpage (i : ℕ) (hi : i < count) (hlast : count ≤ i + 2) :=
      h.large_page_iff hflags hpresent hva rfl hi (fun j _ hj => by omega) hrun
    constructor
    · intro hall
      rcases Nat.lt_or_ge count 2 with hlt | hge
      · rcases Nat.eq_zero_or_pos count with h0 | hpos
        · exact Or.inl h0
        · have h0 := (hpage 0 hpos (by omega)).mp (hall 0 hpos)
          refine Or.inr ⟨by omega, ?_⟩
          omega
      · have h1 := (hpage (count - 1) (by omega) (by omega)).mp (hall (count - 1) (by omega))
        have h2 := (hpage (count - 2) (by omega) (by omega)).mp (hall (count - 2) (by omega))
        have hle := agreedFrame_le flags
        omega
    · rintro (rfl | ⟨rfl, hN⟩)
      · exact fun i hi => absurd hi (Nat.not_lt_zero i)
      · intro i hi
        obtain rfl : i = 0 := by omega
        have hle := agreedFrame_le flags
        refine (hpage 0 hi (by decide)).mpr ?_
        omega

/-- The first `2 ^ 21` bytes are mapped to themselves. -/
theorem large_reads_back_first : ∃ m', mapPhysicalPages (blankMachine [0x2000, 0x3000]) 0x1000 0 0 1
    (pmPresent ||| pmLargePages) = some m' ∧ LargeReadsBack m' 0x1000 0 0 1 := by
  have htree : Tree (blankMachine [0x2000, 0x3000]) (0x1000 / 2 ^ 12) :=
    Tree.blank (by decide) (by decide) (by decide)
  obtain ⟨hreturns, hiff⟩ := large_reads_back_iff 0x1000 0 0 1 (pmPresent ||| pmLargePages) htree
    (by decide) (by decide) (Nat.zero_mod _) (Nat.zero_mod _) (by decide)
  obtain ⟨m', hm'⟩ := hreturns (by decide)
  exact ⟨m', hm', (hiff m' hm').mpr (Or.inr ⟨rfl, by decide⟩)⟩

/-- The second `2 ^ 21` bytes are mapped to themselves, and are resolved to another address. -/
theorem large_not_read_back :
    ∃ m', mapPhysicalPages (blankMachine [0x2000, 0x3000]) 0x1000 0x200000 0x200000 1
    (pmPresent ||| pmLargePages) = some m' ∧ ¬ LargeReadsBack m' 0x1000 0x200000 0x200000 1 := by
  obtain ⟨m', hm'⟩ : ∃ m', mapPhysicalPages
    (blankMachine [0x2000, 0x3000]) 0x1000 0x200000 0x200000 1
      (pmPresent ||| pmLargePages) = some m' := Option.isSome_iff_exists.mp (by decide)
  have hread : keResolvePhysicalAddress m'.memory 0x1000 0x200000 = some 0x40000000 :=
    Runs.eq_of_map (fun m : Machine => keResolvePhysicalAddress m.memory 0x1000 0x200000) hm' (by
      decide)
  refine ⟨m', hm', fun hall => ?_⟩
  have h0 := hall 0 (by decide) 0 (by decide)
  rw [show u64 (0x200000 + 0 * 2 ^ 21 + 0) = 0x200000 by decide, hread] at h0
  exact absurd h0 (by decide)

end DevOs.Paging
