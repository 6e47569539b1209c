import DevOs.Memory.PageArray
import DevOs.Memory.RunMarks

/-!
# Pages that follow each other in memory

The page array lists the conventional regions one behind the other, whatever lies between them, and
the search for a run of pages only sees the bitmap. A run is physically contiguous when every region
that it reaches begins where the one before it ends.
-/

namespace DevOs.Memory

/-- `n` page addresses from `a` on. -/
def pageSteps (a n : ℕ) : List ℕ := (List.range n).map (fun j => a + 0x1000 * j)

theorem length_pageSteps (a n : ℕ) : (pageSteps a n).length = n := by
  rw [pageSteps, List.length_map, List.length_range]

theorem pageSteps_add (a n k : ℕ) :
    pageSteps a (n + k) = pageSteps a n ++ pageSteps (a + 0x1000 * n) k := by
  rw [pageSteps, pageSteps, pageSteps, List.range_add, List.map_append, List.map_map]
  congr 1
  apply List.map_congr_left
  intro j _
  rw [Function.comp_apply]
  omega

theorem pageSteps_inj {a b n : ℕ} (hn : n ≠ 0) : pageSteps a n = pageSteps b n ↔ a = b := by
  refine ⟨fun h => ?_, fun h => by rw [h]⟩
  have hhead := congrArg List.head? h
  obtain ⟨k, rfl⟩ := Nat.exists_eq_succ_of_ne_zero hn
  simpa [pageSteps, List.range_succ_eq_map] using hhead

theorem take_pageSteps (a n k : ℕ) : (pageSteps a n).take k = pageSteps a (min k n) := by
  rw [pageSteps, pageSteps, ← List.map_take, List.take_range]

theorem drop_pageSteps {a n k : ℕ} (h : k ≤ n) :
    (pageSteps a n).drop k = pageSteps (a + 0x1000 * k) (n - k) := by
  obtain ⟨l, rfl⟩ := Nat.exists_eq_add_of_le h
  have hlen := length_pageSteps a k
  rw [pageSteps_add, List.drop_append_of_le_length (Nat.le_of_eq hlen.symm),
    List.drop_eq_nil_of_le (Nat.le_of_eq hlen), List.nil_append, Nat.add_sub_cancel_left]

/-- The regions go on at the address `a` without a gap for `n` pages. -/
def goesOn : List MemoryDescriptor → ℕ → ℕ → Bool
  | [], _, n => decide (n = 0)
  | d :: rest, a, n =>
    decide (n = 0) ||
      if d.pageCount = 0 then goesOn rest a n
      else decide (d.physicalStart = a) && goesOn rest (a + 0x1000 * d.pageCount) (n - d.pageCount)

/-- The `n` pages listed from the entry `k` on lie in regions that begin where the ones before them
end. -/
def adjoining : List MemoryDescriptor → ℕ → ℕ → Bool
  | [], _, n => decide (n = 0)
  | d :: rest, k, n =>
    if d.pageCount ≤ k then adjoining rest (k - d.pageCount) n
    else goesOn rest (d.physicalStart + 0x1000 * d.pageCount) (n - (d.pageCount - k))

variable {regions : List MemoryDescriptor} {d : MemoryDescriptor}

theorem regionPages_eq (h : Listed d) : regionPages d = pageSteps d.physicalStart d.pageCount := by
  rw [regionPages, pageSteps]
  apply List.map_congr_left
  intro i hi
  have hlt := List.mem_range.mp hi
  have hfits := (h (by omega)).fits
  exact Nat.mod_eq_of_lt (by omega)

theorem goesOn_iff (hl : ∀ d ∈ regions, Listed d) (a n : ℕ) : goesOn regions a n = true ↔
    (regions.flatMap regionPages).take n = pageSteps a n := by
  induction regions generalizing a n with
  | nil =>
    rw [goesOn, decide_eq_true_eq, List.flatMap_nil, List.take_nil]
    constructor
    · rintro rfl
      rfl
    · intro h
      have hlen := congrArg List.length h
      rw [length_pageSteps] at hlen
      exact hlen.symm
  | cons d rest ih =>
    have ih' := ih (fun e he => hl e (List.mem_cons_of_mem d he))
    have hpages := regionPages_eq (hl d List.mem_cons_self)
    rw [goesOn, List.flatMap_cons, hpages, Bool.or_eq_true, decide_eq_true_eq]
    by_cases hn : n = 0
    · simp [hn, pageSteps]
    · simp only [hn, false_or]
      by_cases hd : d.pageCount = 0
      · rw [if_pos hd, ih', hd]
        rfl
      · rw [if_neg hd, Bool.and_eq_true, decide_eq_true_eq, ih', List.take_append, take_pageSteps,
          length_pageSteps]
        have hsplit : pageSteps a n = pageSteps a (min n d.pageCount) ++
            pageSteps (a + 0x1000 * min n d.pageCount) (n - d.pageCount) := by
          rw [← pageSteps_add, show min n d.pageCount + (n - d.pageCount) = n by omega]
        rw [hsplit]
        constructor
        · rintro ⟨rfl, hrest⟩
          rw [hrest]
          congr 1
          by_cases hle : n ≤ d.pageCount
          · rw [show n - d.pageCount = 0 by omega]
            rfl
          · rw [Nat.min_eq_right (by omega)]
        · intro h
          obtain ⟨hfirst, hrest⟩ := List.append_inj h (by rw [length_pageSteps, length_pageSteps])
          refine ⟨(pageSteps_inj (by omega)).mp hfirst, ?_⟩
          rw [hrest]
          by_cases hle : n ≤ d.pageCount
          · rw [show n - d.pageCount = 0 by omega]
            rfl
          · rw [Nat.min_eq_right (by omega)]

theorem adjoining_iff (hl : ∀ d ∈ regions, Listed d) (k n : ℕ) : adjoining regions k n = true ↔
    ∃ a, ((regions.flatMap regionPages).drop k).take n = pageSteps a n := by
  induction regions generalizing k with
  | nil =>
    rw [adjoining, decide_eq_true_eq, List.flatMap_nil, List.drop_nil, List.take_nil]
    constructor
    · rintro rfl
      exact ⟨0, rfl⟩
    · rintro ⟨a, h⟩
      have hlen := congrArg List.length h
      rw [length_pageSteps] at hlen
      exact hlen.symm
  | cons d rest ih =>
    have hrest : ∀ e ∈ rest, Listed e := fun e he => hl e (List.mem_cons_of_mem d he)
    have hpages := regionPages_eq (hl d List.mem_cons_self)
    rw [adjoining, List.flatMap_cons, hpages, List.drop_append, length_pageSteps]
    by_cases hk : d.pageCount ≤ k
    · have hnone : (pageSteps d.physicalStart d.pageCount).drop k = [] :=
        List.drop_eq_nil_of_le (by rw [length_pageSteps]; exact hk)
      rw [if_pos hk, ih hrest, hnone, List.nil_append]
    · rw [if_neg hk, goesOn_iff hrest, drop_pageSteps (by omega), show k - d.pageCount = 0 by omega,
        List.drop_zero, List.take_append, take_pageSteps, length_pageSteps]
      obtain ⟨left, hleft⟩ : ∃ left, left = d.pageCount - k := ⟨_, rfl⟩
      have hend : d.physicalStart + 0x1000 * d.pageCount =
          d.physicalStart + 0x1000 * k + 0x1000 * left := by omega
      rw [← hleft, hend]
      constructor
      · intro h
        refine ⟨d.physicalStart + 0x1000 * k, ?_⟩
        rw [h]
        by_cases hle : n ≤ left
        · rw [Nat.min_eq_left hle, show n - left = 0 by omega]
          exact List.append_nil _
        · rw [Nat.min_eq_right (by omega), ← pageSteps_add, show left + (n - left) = n by omega]
      · rintro ⟨a, h⟩
        by_cases hle : n ≤ left
        · rw [show n - left = 0 by omega]
          rfl
        · rw [Nat.min_eq_right (by omega), show n = left + (n - left) by omega, pageSteps_add,
            Nat.add_sub_cancel_left] at h
          obtain ⟨hfirst, htail⟩ := List.append_inj h (by rw [length_pageSteps, length_pageSteps])
          rw [(pageSteps_inj (by omega)).mp hfirst]
          exact htail

theorem take_drop_pageSteps {l : List ℕ} {k n a : ℕ} : (l.drop k).take n = pageSteps a n ↔
    (n ≠ 0 → k + n ≤ l.length) ∧ ∀ j (h : k + j < l.length), j < n → l[k + j] = a + 0x1000 * j := by
  constructor
  · intro h
    have hlen := congrArg List.length h
    rw [List.length_take, List.length_drop, length_pageSteps] at hlen
    refine ⟨fun hn => by omega, fun j hj hjn => ?_⟩
    have hget := List.getElem_of_eq h (i := j) (by rw [List.length_take, List.length_drop]; omega)
    rw [List.getElem_take, List.getElem_drop] at hget
    rw [hget]
    simp [pageSteps]
  · rintro ⟨hle, hget⟩
    apply List.ext_getElem
    · rw [List.length_take, List.length_drop, length_pageSteps]
      omega
    · intro j h1 h2
      rw [length_pageSteps] at h2
      rw [List.getElem_take, List.getElem_drop, hget j (by omega) h2]
      simp [pageSteps]

def BootMemory.state (b : BootMemory) (behind bitmap : ℕ → BitVec 64) : MemoryManagementTable :=
  { b.table behind bitmap with pageBitmap := bitmap }

theorem toNat_page {a : ℕ} (h : a % 0x1000 = 0) (hlt : a < 2 ^ 64) :
    (BitVec.ofNat 64 a &&& ~~~0xFFF#64).toNat = a := by
  rw [← pageNumber_shift, BitVec.toNat_shiftLeft, BitVec.toNat_ushiftRight, BitVec.toNat_ofNat,
    Nat.mod_eq_of_lt hlt, Nat.shiftRight_eq_div_pow, Nat.shiftLeft_eq]
  omega

variable {uefi : Bool} {memoryMap : List MemoryDescriptor} {b : BootMemory}
  {behind bitmap : ℕ → BitVec 64} {numPages : ℕ}

theorem Built.lt (h : Built uefi memoryMap b) {a : ℕ} (ha : a ∈ b.entries) : a < 2 ^ 64 := by
  rw [h.entries] at ha
  obtain ⟨d, hd, hmem⟩ := List.mem_flatMap.mp ha
  exact (regionPages_whole (h.listed d hd) hmem).2.2.2.2

theorem address_state (h : Built uefi memoryMap b) {k : ℕ} (hk : k < b.entries.length) :
    ((b.state behind bitmap).address k).toNat = b.entries[k] := by
  have hmem := List.getElem_mem hk
  have haligned := (h.pages _ hmem).1
  have hpage : (b.state behind bitmap).address k =
      BitVec.ofNat 64 b.entries[k] &&& ~~~0xFFF#64 := by
    rw [MemoryManagementTable.address, BootMemory.state, BootMemory.table, initBitmap]
    simp only [hk, dif_pos]
  rw [hpage, toNat_page haligned (h.lt hmem)]

/-- The entry whose address `AllocateContiguousPages` returns. -/
def firstPage (m : MemoryManagementTable) (numPages : ℕ) : ℕ :=
  match scanContiguous m numPages with
  | none => 0
  | some r => 64 * r.pagesStartBmp + r.pagesStartIndex

/-- The pages from the returned one on are pages of the array and follow each other in memory. -/
def FollowInMemory (m : MemoryManagementTable) (numPages : ℕ) : Prop :=
  (allocateContiguousPages m numPages).2 ≠ 0 →
    ∀ j < numPages, firstPage m numPages + j < m.pageArraySize ∧
      (m.address (firstPage m numPages + j)).toNat =
        (allocateContiguousPages m numPages).2.toNat + 0x1000 * j

theorem follow_entries (h : Built uefi memoryMap b) {k n : ℕ} (hn : 1 ≤ n) :
    (∀ j < n, k + j < b.entries.length ∧ ((b.state behind bitmap).address (k + j)).toNat =
      ((b.state behind bitmap).address k).toNat + 0x1000 * j) ↔
    adjoining (conventional b.memoryMap) k n = true := by
  rw [adjoining_iff h.listed, ← h.entries]
  constructor
  · intro hall
    have hk : k < b.entries.length := (hall 0 hn).1
    refine ⟨b.entries[k], take_drop_pageSteps.mpr ⟨fun _ => ?_, fun j hj hjn => ?_⟩⟩
    · have := (hall (n - 1) (by omega)).1
      omega
    · have heq := (hall j hjn).2
      rwa [address_state h hj, address_state h hk] at heq
  · rintro ⟨a, ha⟩ j hj
    obtain ⟨hle, hget⟩ := take_drop_pageSteps.mp ha
    have hlen := hle (by omega)
    have hfirst := hget 0 (by omega) hn
    refine ⟨by omega, ?_⟩
    rw [address_state h (by omega), address_state h (show k < b.entries.length by omega),
      hget j (by omega) hj]
    simp only [Nat.add_zero, Nat.mul_zero] at hfirst
    rw [hfirst]

/-- A run of pages is physically contiguous exactly when the regions that it reaches adjoin: for
every memory map of disjoint regions, the page array built from it, and every bitmap. -/
theorem pages_follow_iff (uefi : Bool) (memoryMap : List MemoryDescriptor)
    (hapart : (firmwareRegions uefi memoryMap).Pairwise (fun d e => ∀ a, d.Holds a → ¬ e.Holds a))
    (hfits : ∀ d ∈ firmwareRegions uefi memoryMap, d.physicalStart + 0x1000 * d.pageCount ≤ 2 ^ 64)
    (b : BootMemory) (hb : initMemoryManagementSubsystem uefi memoryMap = .ok b)
    (behind bitmap : ℕ → BitVec 64) (numPages : ℕ) (h1 : 1 ≤ numPages) :
    FollowInMemory (b.state behind bitmap) numPages ↔
      (numPages < 2 ^ 32 → ∀ p, Completes (b.state behind bitmap) numPages p →
        (b.state behind bitmap).address (runStart (b.state behind bitmap) (p + 1)) ≠ 0 →
        adjoining (conventional b.memoryMap) (runStart (b.state behind bitmap) (p + 1)) numPages =
          true) := by
  have hbuilt := init_built uefi memoryMap hapart hfits
  rw [hb] at hbuilt
  obtain ⟨m, hm⟩ : ∃ m, m = b.state behind bitmap := ⟨_, rfl⟩
  have hsize : m.pageArraySize = b.entries.length := by
    rw [hm]
    exact hbuilt.size.symm
  by_cases hN : numPages < 2 ^ 32
  · rw [FollowInMemory, firstPage, allocateContiguousPages, ← hm]
    have hscan := scanContiguous_counts (m := m) h1 hN
    cases hres : scanContiguous m numPages with
    | none =>
      simp only [hres] at hscan ⊢
      refine ⟨fun _ _ p hp => ?_, fun _ h => absurd rfl h⟩
      exact absurd hp.2.1 (Nat.ne_of_lt (hscan (p + 1) hp.1))
    | some r =>
      simp only [hres] at hscan ⊢
      obtain ⟨p, hp, rfl⟩ := hscan
      have hindex : 64 * (runAt m p).pagesStartBmp + (runAt m p).pagesStartIndex =
          runStart m (p + 1) := Nat.div_add_mod _ 64
      have hiff := @follow_entries uefi memoryMap b behind bitmap hbuilt
        (runStart m (p + 1)) numPages h1
      rw [← hm] at hiff
      rw [hindex, hsize, show (runAt m p).physicalStart = m.address (runStart m (p + 1)) from rfl,
        hiff]
      constructor
      · intro h _ q hq hne
        rw [hq.unique hp] at hne ⊢
        exact h hne
      · intro h hne
        exact h hN p hp hne
  · rw [FollowInMemory, allocateContiguousPages, scanContiguous, scanWords_large (by omega)]
    exact ⟨fun _ h => absurd h hN, fun _ h => absurd rfl h⟩

/-- Two regions with a gap between them; the storage leaves one page of the first one. -/
def gapMap : List MemoryDescriptor := [⟨7, 12, 0x1000⟩, ⟨7, 4, 0x100000⟩]

def gapBoot : BootMemory where
  memoryMap := [⟨7, 1, 0xC000⟩, ⟨7, 4, 0x100000⟩]
  pageArraySize := 5
  physicalPages := 16
  allocatedPages := 11
  pageArray := 0x1000
  pageBitmap := 0x2000
  entries := [0xC000, 0x100000, 0x101000, 0x102000, 0x103000]

theorem gapMap_init : initMemoryManagementSubsystem true gapMap = .ok gapBoot := by decide

theorem gapMap_apart : (firmwareRegions true gapMap).Pairwise
    (fun d e => ∀ a, d.Holds a → ¬ e.Holds a) := by
  rw [show firmwareRegions true gapMap = gapMap by decide]
  simp only [gapMap, List.pairwise_cons, List.mem_singleton, forall_eq, MemoryDescriptor.Holds,
    List.Pairwise.nil, and_true, List.not_mem_nil, IsEmpty.forall_iff, implies_true]
  intro a ha hb
  omega

/-- Four pages behind a used one are those of the second region. -/
theorem pages_follow_second :
    FollowInMemory (gapBoot.state (fun _ => 0) (fun w => if w = 0 then 1 else 0)) 4 := by
  refine (pages_follow_iff true gapMap gapMap_apart (by decide) gapBoot gapMap_init (fun _ => 0)
    (fun w => if w = 0 then 1 else 0) 4 (by decide)).mpr ?_
  intro _ p hp _
  have h4 : Completes (gapBoot.state (fun _ => 0) (fun w => if w = 0 then 1 else 0)) 4 4 := by
    unfold Completes
    decide
  rw [hp.unique h4]
  decide

/-- Two pages of an empty bitmap lie on the two sides of the gap. -/
theorem pages_across_gap : initMemoryManagementSubsystem true gapMap = .ok gapBoot ∧
    (allocateContiguousPages (gapBoot.state (fun _ => 0) (fun _ => 0)) 2).2 = 0xC000 ∧
    (gapBoot.state (fun _ => 0) (fun _ => 0)).address 1 = 0x100000 ∧
    ¬ FollowInMemory (gapBoot.state (fun _ => 0) (fun _ => 0)) 2 := by
  refine ⟨gapMap_init, by decide, by decide, fun h => ?_⟩
  have hsecond := (h (by decide) 1 (by decide)).2
  revert hsecond
  decide

end DevOs.Memory
