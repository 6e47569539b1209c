import DevOs.Memory.Marks

/-!
# The search for one page

`_SSE_AllocatePhysicalPage` keeps its two hints in step, takes one clear bit of the words it visits,
and visits every word below `BmpEnd` before it gives up.
-/

namespace DevOs.Memory

open Words

variable {m : MemoryManagementTable}

theorem mem_visitedFrom {bmpEnd n w v : ℕ} (hn : bmpEnd < 8 * w + 16 * n) (hw : w ≤ v)
    (hv : 8 * v < bmpEnd) : v ∈ visitedFrom bmpEnd n w := by
  induction n generalizing w with
  | zero => omega
  | succ n ih =>
    rw [visitedFrom]
    by_cases h0 : v = w
    · simp [h0]
    · by_cases h1 : v = w + 1
      · simp [h1]
      · rw [if_neg (by omega)]
        exact List.mem_cons_of_mem _ (List.mem_cons_of_mem _ (ih (by omega) (by omega)))

theorem mem_visitedWords {v : ℕ} (hv : 8 * v < m.bmpEnd) : v ∈ visitedWords m :=
  List.mem_append_right _ (mem_visitedFrom (by omega) (Nat.zero_le v) hv)

theorem firstClearPage_visited {k : ℕ} (h : firstClearPage m = some k) :
    k / 64 ∈ visitedWords m := by
  obtain ⟨w, hw, hk⟩ := List.exists_of_findSome?_eq_some h
  obtain ⟨i, hi, rfl⟩ := Option.map_eq_some_iff.mp hk
  have hlt := (bitScanForward_some hi).1
  rwa [show (64 * w + i) / 64 = w by omega]

theorem firstClearPage_none (h : firstClearPage m = none) {k : ℕ} (hk : k < 8 * m.bmpEnd) :
    m.bit k = true := by
  have hword : clearPage m (k / 64) = none :=
    List.findSome?_eq_none_iff.mp h _ (mem_visitedWords (by omega))
  have hbit := bitScanForward_none (Option.map_eq_none_iff.mp hword) (k % 64)
  rw [BitVec.getLsbD_not, decide_eq_true (Nat.mod_lt k (by decide)), Bool.true_and] at hbit
  rw [MemoryManagementTable.bit]
  simpa only [Bool.not_eq_false'] using hbit

/-- In every state whose hints designate the same word, they still do after the search; an address
that is returned is that of a page whose bit was clear, exactly this bit is set, and nothing is
returned only when all bits up to `BmpEnd` are set. -/
theorem single_page_taken (m : MemoryManagementTable) (h : HintsAgree m) :
    let r := sseAllocatePhysicalPage m
    HintsAgree r.1 ∧
    (r.2 ≠ 0 → ∃ k, m.bit k = false ∧ r.2 = m.address k ∧
      (∀ l, r.1.bit l = (m.bit l || decide (l = k))) ∧ ∀ l, r.1.address l = m.address l) ∧
    (r.2 = 0 → (∀ k, k / 64 ∈ visitedWords m → m.bit k = false → m.address k ≠ 0) →
      ∀ k < 8 * m.bmpEnd, m.bit k = true) := by
  intro r
  have hr : r = sseAllocatePhysicalPage m := rfl
  rw [sseAllocatePhysicalPage_eq h] at hr
  cases hfirst : firstClearPage m with
  | none =>
    simp only [hfirst] at hr
    rw [hr]
    exact ⟨h, fun hne => absurd rfl hne, fun _ _ k hk => firstClearPage_none hfirst hk⟩
  | some k =>
    simp only [hfirst] at hr
    have hclear := firstClearPage_clear hfirst
    have hmarks := marks_takePage hclear
    rw [hr]
    refine ⟨rfl, fun _ => ⟨k, hclear, address_takePage m k, ?_, hmarks.address⟩, ?_⟩
    · intro l
      rw [hmarks.bits l]
      simp only [List.mem_singleton]
    · intro hzero hne
      rw [address_takePage] at hzero
      exact absurd hzero (hne k (firstClearPage_visited hfirst) hclear)

/-- Four words, of which only the bit 5 of the first one is clear; the hints are at the third. -/
def almostFull : MemoryManagementTable where
  allocatedPages := 255
  pageArraySize := 256
  pageArray k := BitVec.ofNat 64 (4096 * (k + 1))
  numBytesPageBitmap := 32
  pageBitmap w := if w = 0 then ~~~0x20#64 else BitVec.allOnes 64
  freePagesStart := 2
  freePageArrayStart := 128
  bmpEnd := 32

/-- The first call wraps around to the clear bit, the second one finds none. -/
theorem single_page_taken_twice :
    (∃ k, almostFull.bit k = false ∧ (sseAllocatePhysicalPage almostFull).2 = almostFull.address k ∧
      ∀ l, (sseAllocatePhysicalPage almostFull).1.bit l = (almostFull.bit l || decide (l = k))) ∧
    ∀ k < 256, (sseAllocatePhysicalPage almostFull).1.bit k = true := by
  have hfirst := single_page_taken almostFull rfl
  have hne : (sseAllocatePhysicalPage almostFull).2 ≠ 0 := by decide
  have hsecond := single_page_taken (sseAllocatePhysicalPage almostFull).1 hfirst.1
  have hzero : (sseAllocatePhysicalPage (sseAllocatePhysicalPage almostFull).1).2 = 0 := by
    decide
  have hend : (sseAllocatePhysicalPage almostFull).1.bmpEnd = 32 := by decide
  obtain ⟨k, hclear, hk, hbits, _⟩ := hfirst.2.1 hne
  refine ⟨⟨k, hclear, hk, hbits⟩, ?_⟩
  intro l hl
  refine hsecond.2.2 hzero ?_ l (by omega)
  intro j hj hclear
  have hall : ∀ w ∈ visitedWords (sseAllocatePhysicalPage almostFull).1,
      (sseAllocatePhysicalPage almostFull).1.pageBitmap w = BitVec.allOnes 64 := by decide
  rw [MemoryManagementTable.bit, hall _ hj, BitVec.getLsbD_allOnes] at hclear
  simp [Nat.mod_lt] at hclear

end DevOs.Memory
