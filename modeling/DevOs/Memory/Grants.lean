import DevOs.Lib.Runs
import DevOs.Memory.Fragmented

/-!
# Pages are granted once

Over any run of the three allocators from the bitmap that `InitMemoryManagementSubsystem` leaves, as
long as no call takes one of the branches that mark other bits than those of the pages they hand
out, no page is granted twice and the set bits are the granted pages.
-/

namespace DevOs.Memory

open Words

/-- The call hands out pages of the array and marks these: the first clear bit met by the search for
one page belongs to a page, the run found lies in one word and its pages follow each other in
memory, and every word visited by a scattered allocation is handled right. -/
def marksRight (s : System) : Call → Bool
  | .single =>
    match firstClearPage s.table with
    | none => true
    | some k => decide (k < s.table.pageArraySize) && decide (k / 64 < s.table.max)
  | .contiguous numPages =>
    decide (0 < numPages) &&
      match scanContiguous s.table numPages with
      | none => true
      | some r => decide (r.pagesStartBmp = r.bmp) && (List.range numPages).all (fun j =>
          decide (64 * r.bmp + r.pagesStartIndex + j < s.table.pageArraySize) &&
          s.table.address (64 * r.bmp + r.pagesStartIndex + j) ==
            r.physicalStart + BitVec.ofNat 64 (4096 * j))
  | .fragmented numPages => wordsOk s.table s.table.max 0 numPages

/-- No page is granted twice, and the set bits of the bitmap are those of the granted pages. -/
structure GrantedOnce (s : System) : Prop where
  nodup : s.grants.flatten.Nodup
  granted : ∀ a ∈ s.grants.flatten, ∃ k < s.table.pageArraySize, s.table.address k = a
  bits : ∀ k < 64 * s.table.max, s.table.bit k = true ↔
    k < s.table.pageArraySize ∧ s.table.address k ∈ s.grants.flatten

/-- What runs keep of the page array as it was built. -/
structure PageArrayOk (m : MemoryManagementTable) : Prop where
  inj : ∀ i j, i < m.pageArraySize → j < m.pageArraySize → m.address i = m.address j → i = j
  ne_zero : ∀ i < m.pageArraySize, m.address i ≠ 0

structure Sound (s : System) : Prop where
  once : GrantedOnce s
  array : PageArrayOk s.table
  hints : HintsAgree s.table

variable {s t : System} {m : MemoryManagementTable} {ks : List ℕ}

theorem PageArrayOk.of_marks (h : PageArrayOk s.table) (hm : Marks s.table m ks) :
    PageArrayOk m := by
  constructor
  · intro i j hi hj he
    rw [hm.size] at hi hj
    rw [hm.address, hm.address] at he
    exact h.inj i j hi hj he
  · intro i hi
    rw [hm.size] at hi
    rw [hm.address]
    exact h.ne_zero i hi

theorem GrantedOnce.grant (h : GrantedOnce s) (ha : PageArrayOk s.table) (hm : Marks s.table m ks)
    (hin : Inside s.table ks) :
    GrantedOnce ⟨m, s.grants ++ [ks.map s.table.address]⟩ := by
  have hmax : m.max = s.table.max := by
    rw [MemoryManagementTable.max, MemoryManagementTable.max, hm.bytes]
  have hmem (a : BitVec 64) : a ∈ (s.grants ++ [ks.map s.table.address]).flatten ↔
      a ∈ s.grants.flatten ∨ ∃ k ∈ ks, s.table.address k = a := by
    simp [List.flatten_append]
  have hlt (k : ℕ) (hk : k ∈ ks) : k < 64 * s.table.max := by
    have := (hin k hk).2
    omega
  constructor
  · rw [List.flatten_append, List.flatten_singleton, List.nodup_append]
    refine ⟨h.nodup, ?_, ?_⟩
    · rw [List.nodup_map_iff_inj_on hm.nodup]
      intro i hi j hj he
      exact ha.inj i j (hin i hi).1 (hin j hj).1 he
    · intro a hold b hnew hab
      obtain ⟨k, hk, hkb⟩ := List.mem_map.mp hnew
      have hclear := hm.clear k hk
      rw [(h.bits k (hlt k hk)).mpr ⟨(hin k hk).1, by rw [hkb, ← hab]; exact hold⟩] at hclear
      cases hclear
  · intro a hmem'
    rcases (hmem a).mp hmem' with hold | ⟨k, hk, hka⟩
    · obtain ⟨k, hk, hka⟩ := h.granted a hold
      exact ⟨k, by rw [hm.size]; exact hk, by rw [hm.address]; exact hka⟩
    · exact ⟨k, by rw [hm.size]; exact (hin k hk).1, by rw [hm.address]; exact hka⟩
  · intro k hk
    dsimp only at hk ⊢
    rw [hmax] at hk
    rw [hm.bits, hm.size, hm.address, hmem, Bool.or_eq_true, h.bits k hk, decide_eq_true_eq]
    constructor
    · rintro (⟨hsize, hold⟩ | hnew)
      · exact ⟨hsize, Or.inl hold⟩
      · exact ⟨(hin k hnew).1, Or.inr ⟨k, hnew, rfl⟩⟩
    · rintro ⟨hsize, hold | ⟨l, hl, he⟩⟩
      · exact Or.inl ⟨hsize, hold⟩
      · rw [ha.inj l k (hin l hl).1 hsize he] at hl
        exact Or.inr hl

theorem Sound.single (h : Sound s) (hg : marksRight s .single = true)
    (hs : step s .single = some t) : Sound t := by
  simp only [step, sseAllocatePhysicalPage_eq h.hints, Option.some.injEq] at hs
  subst hs
  cases hfirst : firstClearPage s.table with
  | none =>
    simp only [if_true]
    exact ⟨h.once, h.array, h.hints⟩
  | some k =>
    simp only [marksRight, hfirst, Bool.and_eq_true, decide_eq_true_eq] at hg
    have hm := marks_takePage (firstClearPage_clear hfirst)
    have hin : Inside s.table [k] := by
      intro l hl
      rw [List.mem_singleton.mp hl]
      exact hg
    simp only [address_takePage, if_neg (h.array.ne_zero k hg.1)]
    exact ⟨h.once.grant h.array hm hin, h.array.of_marks hm, rfl⟩

theorem Sound.contiguous {numPages : ℕ} (h : Sound s)
    (hg : marksRight s (.contiguous numPages) = true)
    (hs : step s (.contiguous numPages) = some t) : Sound t := by
  simp only [marksRight, Bool.and_eq_true, decide_eq_true_eq] at hg
  obtain ⟨hn, hg⟩ := hg
  cases hscan : scanContiguous s.table numPages with
  | none =>
    simp only [step, allocateContiguousPages, hscan, if_true, Option.some.injEq] at hs
    subst hs
    exact ⟨h.once, h.array, h.hints⟩
  | some r =>
    simp only [hscan, Bool.and_eq_true, decide_eq_true_eq, List.all_eq_true, List.mem_range,
      beq_iff_eq] at hg
    obtain ⟨hword, hpages⟩ := hg
    obtain ⟨hbmp, hrun⟩ := scanContiguous_spec hscan
    have hrun' := hrun hword
    have hm := marks_markRun hn hword hrun'
    have hin : Inside s.table (runPages r numPages) := by
      intro k hk
      obtain ⟨j, hj, rfl⟩ := List.mem_map.mp hk
      have hlt := hrun'.index_lt
      have hlen := hrun'.length
      have hj' := List.mem_range.mp hj
      exact ⟨(hpages j hj').1, by omega⟩
    have hblock : block r.physicalStart numPages = (runPages r numPages).map s.table.address := by
      rw [block, runPages, List.map_map]
      apply List.map_congr_left
      intro j hj
      exact (hpages j (List.mem_range.mp hj)).2.symm
    have hne : r.physicalStart ≠ 0 := by
      rw [hrun'.physicalStart]
      exact h.array.ne_zero _ (hpages 0 hn).1
    simp only [step, allocateContiguousPages, hscan, if_neg hne, hblock, Option.some.injEq] at hs
    subst hs
    refine ⟨h.once.grant h.array hm hin, h.array.of_marks hm, ?_⟩
    rw [HintsAgree, markRun, if_pos hword]
    exact h.hints

theorem Sound.fragmented {numPages : ℕ} (h : Sound s)
    (hg : marksRight s (.fragmented numPages) = true)
    (hs : step s (.fragmented numPages) = some t) : Sound t := by
  obtain ⟨r, hr, rfl⟩ := Option.map_eq_some_iff.mp hs
  rw [keAllocateFragmentedPages] at hr
  split_ifs at hr with hn
  · cases hr
    exact ⟨h.once.grant h.array (marks_refl _) (fun k hk => absurd hk List.not_mem_nil), h.array,
      h.hints⟩
  · obtain ⟨s', hs', rfl⟩ := Option.map_eq_some_iff.mp hr
    obtain ⟨ks, hm, hin, hmap, hhints⟩ := fragmentedWords_spec (s := ⟨s.table, []⟩)
      (Nat.pos_of_ne_zero hn) (Nat.le_of_eq (Nat.zero_add _)) hg hs'
    rw [List.nil_append] at hmap
    dsimp only
    rw [hmap]
    refine ⟨h.once.grant h.array hm hin, h.array.of_marks hm, ?_⟩
    rw [HintsAgree, hhints.1, hhints.2]
    exact h.hints

theorem Sound.step {c : Call} (h : Sound s) (hg : marksRight s c = true)
    (hs : Memory.step s c = some t) : Sound t := by
  cases c with
  | single => exact h.single hg hs
  | contiguous numPages => exact h.contiguous hg hs
  | fragmented numPages => exact h.fragmented hg hs

theorem sound_init {pageArraySize : ℕ} {pageArray : ℕ → BitVec 64} (memory : ℕ → BitVec 64)
    (allocatedPages : ℕ)
    (h : PageArrayOk (initBitmap pageArraySize pageArray memory allocatedPages)) :
    Sound ⟨initBitmap pageArraySize pageArray memory allocatedPages, []⟩ := by
  refine ⟨⟨List.nodup_nil, by simp, ?_⟩, h, rfl⟩
  intro k hk
  have hw : k / 64 < (initBitmap pageArraySize pageArray memory allocatedPages).max := by
    dsimp only at hk
    omega
  rw [MemoryManagementTable.max, initBitmap] at hw
  have hzero : (initBitmap pageArraySize pageArray memory allocatedPages).bit k = false := by
    change (if k / 64 < _ then 0#64 else memory (k / 64)).getLsbD (k % 64) = false
    rw [if_pos hw, BitVec.getLsbD_zero]
  simp [hzero]

/-- In every run of the three allocators from the initial bitmap in which no call takes a branch
that marks wrongly, no page is granted twice and the set bits are those of the granted pages. -/
theorem pages_granted_once (pageArraySize : ℕ) (pageArray memory : ℕ → BitVec 64)
    (allocatedPages : ℕ)
    (harray : PageArrayOk (initBitmap pageArraySize pageArray memory allocatedPages)) (s : System)
    (hs : Runs.Reaches step (fun s c => marksRight s c = true)
      ⟨initBitmap pageArraySize pageArray memory allocatedPages, []⟩ s) : GrantedOnce s :=
  (Runs.Reaches.invariant (fun _ _ _ hi hg hst => hi.step hg hst) hs
    (sound_init memory allocatedPages harray)).once

/-- The page array of a machine whose conventional memory starts at the second page. -/
def consecutivePages (i : ℕ) : BitVec 64 := BitVec.ofNat 64 (4096 * (i + 1))

theorem consecutivePages_ok : PageArrayOk (initBitmap 128 consecutivePages (fun _ => 0) 0) := by
  have haddr (i : ℕ) (hi : i < 128) :
      (initBitmap 128 consecutivePages (fun _ => 0) 0).address i = consecutivePages i := by
    revert i
    decide
  constructor
  · intro i j hi hj he
    rw [haddr i hi, haddr j hj] at he
    have h := congrArg BitVec.toNat he
    change i < 128 at hi
    change j < 128 at hj
    simp only [consecutivePages, BitVec.toNat_ofNat] at h
    omega
  · intro i hi he
    rw [haddr i hi] at he
    have h := congrArg BitVec.toNat he
    change i < 128 at hi
    simp only [consecutivePages, BitVec.toNat_ofNat] at h
    change 4096 * (i + 1) % 2 ^ 64 = 0 at h
    omega

/-- One page, the rest of its word as a run, and the whole next word. -/
theorem pages_granted_once_full : ∃ s, Runs.Reaches step (fun s c => marksRight s c = true)
      ⟨initBitmap 128 consecutivePages (fun _ => 0) 0, []⟩ s ∧
    s.grants.flatten.length = 128 ∧ GrantedOnce s := by
  have hrun : (Runs.guardedRun step (fun s c => marksRight s c = true)
      ⟨initBitmap 128 consecutivePages (fun _ => 0) 0, []⟩
      [.single, .contiguous 63, .fragmented 64]).map (fun s => s.grants.flatten.length) =
      some 128 := by decide +kernel
  obtain ⟨s, hs, hlen⟩ := Option.map_eq_some_iff.mp hrun
  have hr := Runs.reaches_of_guardedRun _ hs
  exact ⟨s, hr, hlen,
    pages_granted_once 128 consecutivePages (fun _ => 0) 0 consecutivePages_ok s hr⟩

/-- A scattered allocation of one page leaves its bit clear, and the next call grants it again. -/
theorem page_granted_twice : PageArrayOk (initBitmap 128 consecutivePages (fun _ => 0) 0) ∧
    ∃ s, Runs.Reaches step Runs.anyStep ⟨initBitmap 128 consecutivePages (fun _ => 0) 0, []⟩ s ∧
      s.grants = [[0x1000#64], [0x1000#64]] ∧ ¬ GrantedOnce s := by
  have hrun : (Runs.guardedRun step Runs.anyStep
      ⟨initBitmap 128 consecutivePages (fun _ => 0) 0, []⟩ [.fragmented 1, .single]).map
      System.grants = some [[0x1000#64], [0x1000#64]] := by decide
  obtain ⟨s, hs, hg⟩ := Option.map_eq_some_iff.mp hrun
  refine ⟨consecutivePages_ok, s, Runs.reaches_of_guardedRun _ hs, hg, ?_⟩
  intro h
  have hnodup := h.nodup
  rw [hg] at hnodup
  revert hnodup
  decide

end DevOs.Memory
