import DevOs.Memory.Model
import Mathlib.Data.List.Nodup

/-!
# What a call marks

`Marks m m' ks` says that a call took the pages `ks`, which were all clear, and set exactly their
bits. The search for one page is the first clear bit in the order of the words it visits, and the
search for a run is followed through the words that it scans.
-/

namespace DevOs.Memory

open Words

structure Marks (m m' : MemoryManagementTable) (ks : List ℕ) : Prop where
  nodup : ks.Nodup
  clear : ∀ k ∈ ks, m.bit k = false
  bits : ∀ k, m'.bit k = (m.bit k || decide (k ∈ ks))
  address : ∀ k, m'.address k = m.address k
  size : m'.pageArraySize = m.pageArraySize
  bytes : m'.numBytesPageBitmap = m.numBytesPageBitmap

variable {m m' m'' : MemoryManagementTable} {ks ls : List ℕ}

theorem marks_refl (m : MemoryManagementTable) : Marks m m [] :=
  ⟨List.nodup_nil, by simp, by simp, fun _ => rfl, rfl, rfl⟩

theorem Marks.trans (h : Marks m m' ks) (h' : Marks m' m'' ls) : Marks m m'' (ks ++ ls) := by
  constructor
  · rw [List.nodup_append]
    refine ⟨h.nodup, h'.nodup, fun a ha b hb hab => ?_⟩
    have hclear := h'.clear b hb
    rw [h.bits b, ← hab] at hclear
    simp [ha] at hclear
  · intro k hk
    rcases List.mem_append.mp hk with hk | hk
    · exact h.clear k hk
    · have hclear := h'.clear k hk
      rw [h.bits k, Bool.or_eq_false_iff] at hclear
      exact hclear.1
  · intro k
    rw [h'.bits, h.bits, Bool.or_assoc]
    simp [List.mem_append]
  · intro k
    rw [h'.address, h.address]
  · exact h'.size.trans h.size
  · exact h'.bytes.trans h.bytes

/-- The pages are entries of the page array and their bits lie in the bitmap. -/
def Inside (m : MemoryManagementTable) (ks : List ℕ) : Prop :=
  ∀ k ∈ ks, k < m.pageArraySize ∧ k / 64 < m.max

theorem marks_setWord {w : ℕ} {b : BitVec 64} {l : List ℕ} (hn : l.Nodup) (hlt : ∀ i ∈ l, i < 64)
    (hclear : ∀ i ∈ l, (m.pageBitmap w).getLsbD i = false)
    (hb : ∀ j < 64, b.getLsbD j = ((m.pageBitmap w).getLsbD j || decide (j ∈ l))) :
    Marks m (m.setWord w b) (l.map (fun i => 64 * w + i)) := by
  have hmem (k : ℕ) (hk : k / 64 = w) : k ∈ l.map (fun i => 64 * w + i) ↔ k % 64 ∈ l := by
    rw [List.mem_map]
    constructor
    · rintro ⟨i, hi, rfl⟩
      have := hlt i hi
      rwa [show (64 * w + i) % 64 = i by omega]
    · intro hi
      exact ⟨k % 64, hi, by omega⟩
  constructor
  · exact hn.map (fun a b hab => by simpa using hab)
  · intro k hk
    obtain ⟨i, hi, rfl⟩ := List.mem_map.mp hk
    have := hlt i hi
    rw [MemoryManagementTable.bit, show (64 * w + i) / 64 = w by omega,
      show (64 * w + i) % 64 = i by omega]
    exact hclear i hi
  · intro k
    rw [MemoryManagementTable.bit_setWord]
    split_ifs with hk
    · rw [hb _ (Nat.mod_lt _ (by decide)), MemoryManagementTable.bit, hk]
      simp only [hmem k hk]
    · have hnot : k ∉ l.map (fun i => 64 * w + i) := by
        intro hk'
        obtain ⟨i, hi, rfl⟩ := List.mem_map.mp hk'
        have := hlt i hi
        omega
      simp [hnot]
  · intro k
    rfl
  · rfl
  · rfl

theorem Marks.congr (h : Marks m m' ks) (hbit : m''.pageBitmap = m'.pageBitmap)
    (ha : ∀ k, m''.address k = m'.address k) (hs : m''.pageArraySize = m'.pageArraySize)
    (hb : m''.numBytesPageBitmap = m'.numBytesPageBitmap) : Marks m m'' ks := by
  refine ⟨h.nodup, h.clear, ?_, fun k => (ha k).trans (h.address k), hs.trans h.size,
    hb.trans h.bytes⟩
  intro k
  rw [MemoryManagementTable.bit, hbit]
  exact h.bits k

def visitedFrom (bmpEnd : ℕ) : ℕ → ℕ → List ℕ
  | 0, _ => []
  | n + 1, w => w :: (w + 1) :: if bmpEnd ≤ 8 * (w + 2) then [] else visitedFrom bmpEnd n (w + 2)

def visitedWords (m : MemoryManagementTable) : List ℕ :=
  visitedFrom m.bmpEnd (m.bmpEnd + 1) m.freePagesStart ++ visitedFrom m.bmpEnd (m.bmpEnd + 1) 0

def clearPage (m : MemoryManagementTable) (w : ℕ) : Option ℕ :=
  (bitScanForward (~~~m.pageBitmap w)).map (fun i => 64 * w + i)

def firstClearPage (m : MemoryManagementTable) : Option ℕ :=
  (visitedWords m).findSome? (clearPage m)

/-- What `_APP0` does once the page is known. -/
def takePage (m : MemoryManagementTable) (k : ℕ) : MemoryManagementTable × BitVec 64 :=
  let m' := (m.setWord (k / 64) (bitTestAndSet (m.pageBitmap (k / 64)) (k % 64))).setAllocated k
  ({ m' with freePagesStart := k / 64, freePageArrayStart := 64 * (k / 64) }, m'.address k)

theorem app0_eq (m : MemoryManagementTable) (w : ℕ) :
    app0 m w (64 * w) = (clearPage m w).map (takePage m) := by
  rw [app0, clearPage]
  cases h : bitScanForward (~~~m.pageBitmap w) with
  | none => rfl
  | some i =>
    have hi := (bitScanForward_some h).1
    have hd : (64 * w + i) / 64 = w := by omega
    have hm : (64 * w + i) % 64 = i := by omega
    simp only [Option.map_some, takePage, hd, hm]

theorem sseLoop_eq (m : MemoryManagementTable) (n w : ℕ) : sseLoop m n w (64 * w) =
    ((visitedFrom m.bmpEnd n w).findSome? (clearPage m)).map (takePage m) := by
  induction n generalizing w with
  | zero => rfl
  | succ n ih =>
    rw [sseLoop, visitedFrom, app0_eq, show 64 * w + 64 = 64 * (w + 1) by omega, app0_eq,
      show 64 * w + 128 = 64 * (w + 2) by omega, ih]
    cases h0 : clearPage m w with
    | some k => simp [h0]
    | none =>
      cases h1 : clearPage m (w + 1) with
      | some k => simp [h0, h1]
      | none =>
        split_ifs <;> simp [h0, h1]

/-- The hints designate the same word of the bitmap and of the page array. -/
def HintsAgree (m : MemoryManagementTable) : Prop := m.freePageArrayStart = 64 * m.freePagesStart

theorem sseAllocatePhysicalPage_eq (h : HintsAgree m) : sseAllocatePhysicalPage m =
    match firstClearPage m with
    | none => (m, 0)
    | some k => takePage m k := by
  have h0 : sseLoop m (m.bmpEnd + 1) 0 0 = sseLoop m (m.bmpEnd + 1) 0 (64 * 0) := rfl
  rw [sseAllocatePhysicalPage, show m.freePageArrayStart = 64 * m.freePagesStart from h,
    h0, sseLoop_eq, sseLoop_eq, firstClearPage, visitedWords, List.findSome?_append]
  cases (visitedFrom m.bmpEnd (m.bmpEnd + 1) m.freePagesStart).findSome? (clearPage m) with
  | some k => rfl
  | none =>
    cases (visitedFrom m.bmpEnd (m.bmpEnd + 1) 0).findSome? (clearPage m) with
    | some k => rfl
    | none => rfl

theorem firstClearPage_clear {k : ℕ} (h : firstClearPage m = some k) : m.bit k = false := by
  obtain ⟨w, _, hw⟩ := List.exists_of_findSome?_eq_some h
  obtain ⟨i, hi, rfl⟩ := Option.map_eq_some_iff.mp hw
  obtain ⟨hlt, hset, _⟩ := bitScanForward_some hi
  rw [MemoryManagementTable.bit, show (64 * w + i) / 64 = w by omega,
    show (64 * w + i) % 64 = i by omega]
  simpa [hlt] using hset

theorem marks_takePage {k : ℕ} (h : m.bit k = false) : Marks m (takePage m k).1 [k] := by
  have hlt : k % 64 < 64 := Nat.mod_lt _ (by decide)
  have hw := marks_setWord (m := m) (w := k / 64)
    (b := bitTestAndSet (m.pageBitmap (k / 64)) (k % 64)) (l := [k % 64]) (by simp) (by simpa)
    (by simpa [MemoryManagementTable.bit] using h)
    (by intro j hj; rw [getLsbD_bitTestAndSet]; simp only [hj, decide_true, Bool.true_and,
      List.mem_singleton])
  have hk : [k % 64].map (fun i => 64 * (k / 64) + i) = [k] := by
    simp only [List.map_cons, List.map_nil, List.cons.injEq, and_true]
    omega
  rw [hk] at hw
  exact hw.congr rfl (fun l => MemoryManagementTable.address_setAllocated _ k l) rfl rfl

theorem address_takePage (m : MemoryManagementTable) (k : ℕ) : (takePage m k).2 = m.address k := by
  simp [takePage]

theorem pageNumber_shift (b : BitVec 64) : (b >>> 12) <<< 12 = b &&& ~~~0xFFF#64 := by
  apply BitVec.eq_of_getLsbD_eq
  intro i hi
  have hmask : (~~~0xFFF#64).getLsbD i = decide (12 ≤ i) := by
    revert i
    decide
  rw [BitVec.getLsbD_and, hmask, BitVec.getLsbD_shiftLeft, BitVec.getLsbD_ushiftRight]
  by_cases h : 12 ≤ i
  · simp [hi, h, Nat.not_lt.mpr h, Nat.add_sub_cancel' h]
  · simp [h, Nat.lt_of_not_le h]

/-- The run counted in `Arrival`, when it started in the word `w`, consists of the clear bits from
its start up to the position reached. -/
structure ScanInv (m : MemoryManagementTable) (w lo : ℕ) (s : RunScan) : Prop where
  next : s.nextIndex = lo
  lo_le : lo ≤ 64
  started : s.arrival ≠ 0 → s.pagesStartBmp ≤ w
  here : s.arrival ≠ 0 → s.pagesStartBmp = w → s.pagesStartIndex + s.arrival = lo ∧
    (∀ j, s.pagesStartIndex ≤ j → j < lo → (m.pageBitmap w).getLsbD j = false) ∧
    s.physicalStart = m.address (64 * w + s.pagesStartIndex)

/-- A run that was completed in the word in which it started. -/
structure RunInWord (m : MemoryManagementTable) (numPages : ℕ) (r : FoundRun) : Prop where
  index_lt : r.index < 64
  length : r.pagesStartIndex + numPages = r.index + 1
  clear : ∀ j, r.pagesStartIndex ≤ j → j ≤ r.index → (m.pageBitmap r.bmp).getLsbD j = false
  physicalStart : r.physicalStart = m.address (64 * r.bmp + r.pagesStartIndex)

variable {numPages : ℕ}

theorem scanClearBit_eq (m : MemoryManagementTable) (numPages w i : ℕ) (s : RunScan) :
    ∃ u : RunScan, (u.arrival = 0 → u.pagesStartBmp = w ∧ u.pagesStartIndex = i ∧
        u.physicalStart = m.address (64 * w + i)) ∧
      (u.arrival ≠ 0 → i = s.nextIndex ∧ u = s) ∧
      scanClearBit m numPages w i s =
        if (u.arrival + 1) % 2 ^ 32 = numPages then
          .inl ⟨u.pagesStartBmp, u.pagesStartIndex, u.physicalStart, w, i⟩
        else .inr { u with arrival := (u.arrival + 1) % 2 ^ 32, nextIndex := i + 1 } := by
  by_cases hn : i = s.nextIndex
  · by_cases ha : s.arrival = 0
    · refine ⟨⟨w, i, (m.pageArray (64 * w + i) >>> 12) <<< 12, 0, s.nextIndex⟩, ?_, ?_, ?_⟩
      · intro _
        exact ⟨rfl, rfl, pageNumber_shift _⟩
      · intro h
        exact absurd rfl h
      · simp [scanClearBit, hn, ha]
    · exact ⟨s, fun h => absurd h ha, fun _ => ⟨hn, rfl⟩, by simp [scanClearBit, hn, ha]⟩
  · refine ⟨⟨w, i, (m.pageArray (64 * w + i) >>> 12) <<< 12, 0, s.nextIndex⟩, ?_, ?_, ?_⟩
    · intro _
      exact ⟨rfl, rfl, pageNumber_shift _⟩
    · intro h
      exact absurd rfl h
    · simp [scanClearBit, hn]

theorem ScanInv.extend {w lo i : ℕ} {s u : RunScan} (h : ScanInv m w lo s) (hi : i < 64)
    (hclear : (m.pageBitmap w).getLsbD i = false)
    (hnew : u.arrival = 0 → u.pagesStartBmp = w ∧ u.pagesStartIndex = i ∧
      u.physicalStart = m.address (64 * w + i))
    (hold : u.arrival ≠ 0 → i = s.nextIndex ∧ u = s) :
    u.pagesStartBmp ≤ w ∧ (u.pagesStartBmp = w →
      u.pagesStartIndex + (u.arrival + 1) % 2 ^ 32 = i + 1 ∧
      (∀ j, u.pagesStartIndex ≤ j → j ≤ i → (m.pageBitmap w).getLsbD j = false) ∧
      u.physicalStart = m.address (64 * w + u.pagesStartIndex)) := by
  by_cases ha : u.arrival = 0
  · obtain ⟨hw, hidx, hp⟩ := hnew ha
    refine ⟨Nat.le_of_eq hw, fun _ => ⟨by omega, ?_, by rw [hidx, hp]⟩⟩
    intro j hj hji
    rw [show j = i by omega]
    exact hclear
  · obtain ⟨hin, rfl⟩ := hold ha
    refine ⟨h.started ha, fun hw => ?_⟩
    obtain ⟨hlen, hrun, hp⟩ := h.here ha hw
    rw [h.next] at hin
    refine ⟨by omega, ?_, hp⟩
    intro j hj hji
    by_cases he : j = i
    · rw [he]
      exact hclear
    · exact hrun j hj (by omega)

theorem scanWord_spec {w : ℕ} {s : RunScan} (hs : s.arrival ≠ 0 → s.pagesStartBmp < w) :
    match forClear (scanClearBit m numPages w) 64 (m.pageBitmap w) { s with nextIndex := 0 } with
    | .inl r => r.bmp = w ∧ (r.pagesStartBmp = w → RunInWord m numPages r)
    | .inr s' => s'.arrival ≠ 0 → s'.pagesStartBmp < w + 1 := by
  have hstart : ScanInv m w 0 { s with nextIndex := 0 } :=
    ⟨rfl, by omega, fun h => Nat.le_of_lt (hs h), fun h he => absurd he (Nat.ne_of_lt (hs h))⟩
  have hrule := forClear_rule (f := scanClearBit m numPages w) (b := m.pageBitmap w)
    (I := fun lo s => ScanInv m w lo s)
    (Q := fun r => r.bmp = w ∧ (r.pagesStartBmp = w → RunInWord m numPages r)) ?_ ?_ hstart
  · cases hres : forClear (scanClearBit m numPages w) 64 (m.pageBitmap w)
        { s with nextIndex := 0 } with
    | inl r =>
      rw [hres] at hrule
      exact hrule
    | inr s' =>
      rw [hres] at hrule
      obtain ⟨lo, hinv, _⟩ := hrule
      exact fun h => Nat.lt_succ_of_le (hinv.started h)
  · intro lo i t r hI hlo hi _ hclear hbody
    obtain ⟨u, hnew, hold, he⟩ := scanClearBit_eq m numPages w i t
    rw [he] at hbody
    split_ifs at hbody with hcount
    cases hbody
    obtain ⟨_, hrun⟩ := hI.extend hi hclear hnew hold
    refine ⟨rfl, fun hw => ?_⟩
    obtain ⟨hlen, hbits, hp⟩ := hrun hw
    rw [hcount] at hlen
    exact ⟨hi, hlen, hbits, hp⟩
  · intro lo i t t' hI hlo hi _ hclear hbody
    obtain ⟨u, hnew, hold, he⟩ := scanClearBit_eq m numPages w i t
    rw [he] at hbody
    split_ifs at hbody
    cases hbody
    obtain ⟨hle, hrun⟩ := hI.extend hi hclear hnew hold
    refine ⟨rfl, by omega, fun _ => hle, fun _ hw => ?_⟩
    obtain ⟨hlen, hbits, hp⟩ := hrun hw
    exact ⟨hlen, fun j hj hji => hbits j hj (by omega), hp⟩

/-- A run whose two ends the scan found in one word is a run of clear bits of that word. -/
theorem scanWords_spec {n w : ℕ} {s : RunScan} {r : FoundRun}
    (hs : s.arrival ≠ 0 → s.pagesStartBmp < w) (h : scanWords m numPages n w s = some r) :
    r.bmp < w + n ∧ (r.pagesStartBmp = r.bmp → RunInWord m numPages r) := by
  induction n generalizing w s with
  | zero => cases h
  | succ n ih =>
    have hword := @scanWord_spec m numPages _ _ hs
    rw [scanWords] at h
    cases hres : forClear (scanClearBit m numPages w) 64 (m.pageBitmap w)
        { s with nextIndex := 0 } with
    | inl r' =>
      simp only [hres, Option.some.injEq] at h hword
      subst h
      obtain ⟨hbmp, hrun⟩ := hword
      exact ⟨by omega, fun hw => hrun (hw.trans hbmp)⟩
    | inr s' =>
      simp only [hres] at h hword
      obtain ⟨hlt, hrun⟩ := ih hword h
      exact ⟨by omega, hrun⟩

theorem scanContiguous_spec {r : FoundRun} (h : scanContiguous m numPages = some r) :
    r.bmp < m.max ∧ (r.pagesStartBmp = r.bmp → RunInWord m numPages r) := by
  obtain ⟨hlt, hrun⟩ := scanWords_spec (fun ha => absurd rfl ha) h
  exact ⟨by omega, hrun⟩

def runPages (r : FoundRun) (numPages : ℕ) : List ℕ :=
  (List.range numPages).map (fun j => 64 * r.bmp + r.pagesStartIndex + j)

theorem getLsbD_runMask {n start j : ℕ} (hn : 0 < n) (hlen : start + n ≤ 64) (hj : j < 64) :
    ((BitVec.allOnes 64 >>> ((64 - n) % 64)) <<< start).getLsbD j =
      decide (start ≤ j ∧ j < start + n) := by
  rw [Nat.mod_eq_of_lt (by omega), BitVec.getLsbD_shiftLeft, BitVec.getLsbD_ushiftRight,
    BitVec.getLsbD_allOnes]
  simp only [hj, decide_true, Bool.true_and]
  by_cases h : start ≤ j
  · simp only [Nat.not_lt.mpr h, decide_false, Bool.not_false, Bool.true_and, h, true_and]
    exact decide_eq_decide.mpr (by omega)
  · simp [h, Nat.lt_of_not_le h]

theorem marks_markRun {r : FoundRun} (hn : 0 < numPages) (hw : r.pagesStartBmp = r.bmp)
    (h : RunInWord m numPages r) : Marks m (markRun m numPages r) (runPages r numPages) := by
  have hlen := h.length
  have hlt := h.index_lt
  have hm := marks_setWord (m := m) (w := r.bmp)
    (b := m.pageBitmap r.bmp |||
      ((BitVec.allOnes 64 >>> ((64 - numPages) % 64)) <<< r.pagesStartIndex))
    (l := (List.range numPages).map (fun j => r.pagesStartIndex + j))
    (List.nodup_range.map (fun a b hab => by simpa using hab)) ?_ ?_ ?_
  · rw [markRun, if_pos hw, runPages]
    simpa only [List.map_map, Function.comp_def, ← Nat.add_assoc] using hm
  · simp only [List.mem_map, List.mem_range]
    rintro i ⟨j, hj, rfl⟩
    omega
  · simp only [List.mem_map, List.mem_range]
    rintro i ⟨j, hj, rfl⟩
    exact h.clear _ (by omega) (by omega)
  · intro j hj
    rw [BitVec.getLsbD_or, getLsbD_runMask hn (by omega) hj]
    congr 1
    apply decide_eq_decide.mpr
    rw [List.mem_map]
    constructor
    · rintro ⟨hle, hlt⟩
      exact ⟨j - r.pagesStartIndex, List.mem_range.mpr (by omega), by omega⟩
    · rintro ⟨i, hi, rfl⟩
      have := List.mem_range.mp hi
      omega

end DevOs.Memory
