import DevOs.Heap.Place

/-!
# The account of the heap

As long as the tree has one list of segments, and a free segment is used only while the slots from
64 on are free, `AllocatePoolEx` keeps an account of every byte: the free segments and the returned
ranges tile the pages obtained.
-/

namespace DevOs.Heap

open Ranges Runs

variable {m : HeapMemory}

section Sizes

variable {r : Request}

theorem size_eq_rounded (h : r.numBytes + 15 < 2 ^ 64) : r.size = r.rounded := by
  rw [Request.size, Request.rounded, alignValue]
  split <;> omega

theorem numPages_of_dvd (h : r.size % 4096 = 0) : 4096 * r.numPages = r.size := by
  rw [Request.numPages, alignValue, if_neg (by omega)]
  omega

theorem numPages_of_not_dvd (h : r.size % 4096 ≠ 0) (hle : r.size ≤ 2 ^ 64 - 4096) :
    r.size < 4096 * r.numPages ∧ 4096 * r.numPages < 2 ^ 64 := by
  rw [Request.numPages, alignValue, if_pos (by omega)]
  omega

theorem remainder_eq (h : r.size % 4096 ≠ 0) (hle : r.size ≤ 2 ^ 64 - 4096) :
    (r.numPages * 2 ^ 12 % 2 ^ 64 + (2 ^ 64 - r.size)) % 2 ^ 64 = 4096 * r.numPages - r.size := by
  have := numPages_of_not_dvd h hle
  omega

end Sizes

def Sound (m : HeapMemory) : Prop := m = HeapMemory.initial ∨ Ready m false

theorem find_initial (r : Request) : HeapMemory.initial.find r = .ok none := by
  have hslots : wideSlots (HeapMemory.initial.trees 0).present = [] := by decide
  rw [HeapMemory.find, hslots]
  rfl

theorem free_initial : HeapMemory.initial.free = [] := by decide

theorem Ready.find (h : Ready m false) (r : Request) :
    (m.find r = .ok none) ∨ ∃ i ∈ used m, m.find r = .ok (some 0) ∧
      ((m.trees 0).childs 0).largestHeap = some (2, i) ∧
      r.size ≤ (m.segment (2, i)).heapLength := by
  have hroot := h.shape.root
  rw [HeapMemory.find, wideSlots_one hroot.first hroot.second, findHeap, inside_of_lt (by decide),
    ok_bind]
  have hlower := h.cached.lower
  rw [← h.cached.upper] at hlower
  cases hc : ((m.trees 0).childs 0).largestHeap with
  | none => exact Or.inl rfl
  | some g =>
    rw [hc] at hlower
    obtain ⟨i, hi, rfl, -⟩ := hlower
    by_cases hle : r.size ≤ (m.segment (2, i)).heapLength
    · exact Or.inr ⟨i, hi, if_pos hle, rfl, hle⟩
    · exact Or.inl (if_neg hle)

/-- What is left of the range of `len` bytes at `a` when the first `n` are taken. -/
def remainder (a len n : ℕ) : List Range := if n < len then [⟨(a + n) % 2 ^ 64, len - n⟩] else []

/-- What a call that returns does to the free segments. -/
inductive Outcome (m m' : HeapMemory) (r : Request) : Option ℕ → Prop
  | refused : m.takesPages r = false → m' = m → Outcome m m' r none
  | taken {a len : ℕ} {rest : List Range} : m.takesPages r = false →
      m.free.Perm (⟨a, len⟩ :: rest) → r.size ≤ len →
      m'.free.Perm (remainder a len r.size ++ rest) →
      Outcome m m' r (some a)
  | pages : m.takesPages r = true → r.size ≤ 4096 * r.numPages →
      m'.free.Perm (remainder r.address (4096 * r.numPages) r.size ++ m.free) →
      Outcome m m' r (some r.address)

theorem allocatePoolEx_found {r : Request} {i : ℕ} (h : Ready m false)
    (hlow : (m.listHeads 2).usedSlots 1 = 0) (hr : r.numBytes ≠ 0) (hi : i ∈ used m)
    (hfind : m.find r = .ok (some 0)) (hfound : ((m.trees 0).childs 0).largestHeap = some (2, i))
    (hle : r.size ≤ (m.segment (2, i)).heapLength) :
    ∃ m' res, allocatePoolEx m r = .ok (m', res) ∧ Sound m' ∧ Outcome m m' r res := by
  have hpages : m.takesPages r = false := by
    rw [HeapMemory.takesPages, HeapMemory.served, hfind]
    rfl
  have hperm := h.shape.free_perm hi
  have hret {m' : HeapMemory} {a : ℕ} (ht : takeFront m 0 r.size r.stack = .ok (m', a)) :
      allocatePoolEx m r = .ok (m', some a) := by
    rw [allocatePoolEx, if_neg hr, hfind, ok_bind]
    simp only [ht, ok_bind]
    rfl
  rcases Nat.lt_or_eq_of_le hle with hlt | heq
  · obtain ⟨m', ht, hready, hfree⟩ := takeFront_shorten h hlow hi hfound hlt r.stack
    refine ⟨m', _, hret ht, Or.inr hready, Outcome.taken hpages hperm hle ?_⟩
    rw [remainder, if_pos (by exact hlt)]
    exact hfree
  · obtain ⟨m', ht, hready, hfree⟩ := takeFront_exhaust h hlow hi hfound heq r.stack
    refine ⟨m', _, hret ht, Or.inr hready, Outcome.taken hpages hperm hle ?_⟩
    rw [remainder, if_neg (by rw [heq]; exact Nat.lt_irrefl _)]
    exact hfree

theorem allocatePoolEx_fresh {r : Request} (h : Sound m) (hr : r.numBytes ≠ 0)
    (hfind : m.find r = .ok none) (hover : m.takesPages r = true → r.size ≤ 2 ^ 64 - 4096)
    (hcreate : m.takesPages r = true → r.size % 4096 ≠ 0 → ∀ address n, 0 < n →
      ∃ m', createHeap m address n = .ok m' ∧ Ready m' false ∧
      m'.free.Perm (⟨address, n⟩ :: m.free)) :
    ∃ m' res, allocatePoolEx m r = .ok (m', res) ∧ Sound m' ∧ Outcome m m' r res := by
  have hpages : m.takesPages r = r.granted := by
    rw [HeapMemory.takesPages, HeapMemory.served, hfind]
    rfl
  cases hg : r.granted with
  | false =>
    refine ⟨m, none, ?_, h, Outcome.refused (hpages.trans hg) rfl⟩
    rw [allocatePoolEx, if_neg hr, hfind, ok_bind]
    exact if_pos hg
  | true =>
    have ht : m.takesPages r = true := hpages.trans hg
    by_cases hdvd : r.size % 4096 = 0
    · refine ⟨m, some r.address, ?_, h, Outcome.pages ht (numPages_of_dvd hdvd).ge ?_⟩
      · rw [allocatePoolEx, if_neg hr, hfind, ok_bind]
        simp only [hg, hdvd]
        rfl
      · rw [remainder, if_neg (numPages_of_dvd hdvd).le.not_gt]
        exact List.Perm.refl _
    · have hlt := (numPages_of_not_dvd hdvd (hover ht)).1
      obtain ⟨m', hc, hready, hfree⟩ := hcreate ht hdvd ((r.address + r.size) % 2 ^ 64)
        (4096 * r.numPages - r.size) (Nat.sub_pos_of_lt hlt)
      refine ⟨m', some r.address, ?_, Or.inr hready, Outcome.pages ht hlt.le ?_⟩
      · rw [allocatePoolEx, if_neg hr, hfind, ok_bind]
        simp only [hg, remainder_eq hdvd (hover ht), hc, ok_bind,
          if_pos (show r.size % 0x1000 ≠ 0 from hdvd)]
        rfl
      · rw [remainder, if_pos hlt]
        exact hfree

variable {s s' : Process} {r : Request}

theorem allocatePoolEx_spec (h : Sound s.memory) (hr : r.numBytes ≠ 0) (hf : Fits s r) :
    ∃ m' res, allocatePoolEx s.memory r = .ok (m', res) ∧ Sound m' ∧ Outcome s.memory m' r res := by
  rcases h with h | h
  · refine allocatePoolEx_fresh (Or.inl h) hr (by
      rw [h, find_initial]) hf.noOverflow fun _ _ a n hn => ?_
    rw [h, free_initial]
    exact createHeap_initial a hn
  · have hlists : 2 ∈ s.memory.lists := by
      rw [h.shape.lists]
      exact List.mem_singleton_self 2
    rcases h.find r with hnone | ⟨i, hi, hsome, hfound, hle⟩
    · refine allocatePoolEx_fresh (Or.inr h) hr hnone hf.noOverflow fun ht hne a n hn => ?_
      refine createHeap_ready h ?_ a hn
      rw [← h.counted.numUsedSlots]
      exact hf.room ht hne 2 hlists
    · have hserved : s.memory.served r = true := by rw [HeapMemory.served, hsome]
      exact allocatePoolEx_found h (hf.low hserved 2 hlists) hr hi hsome hfound hle

theorem tiles_remainder {whole l : List Range} {a len n : ℕ} (h : Tiles whole (⟨a, len⟩ :: l))
    (hn : n ≤ len) (hbound : a + len ≤ 2 ^ 64) :
    Tiles whole (remainder a len n ++ ⟨a, n⟩ :: l) := by
  obtain ⟨k, rfl⟩ := Nat.exists_eq_add_of_le hn
  have hsplit := h.split
  rw [remainder]
  split
  · have hmod : (a + n) % 2 ^ 64 = a + n := Nat.mod_eq_of_lt (by omega)
    rw [hmod, Nat.add_sub_cancel_left]
    exact hsplit.perm (List.Perm.swap _ _ _)
  · have hk : k = 0 := by omega
    subst hk
    exact (hsplit.perm (List.Perm.swap _ _ _)).leaveEmpty

/-- The account of a process: its free segments and the ranges returned to it tile its pages. -/
structure Account (s : Process) : Prop where
  noFault : s.fault = none
  sound : Sound s.memory
  tiles : Tiles s.obtained (s.memory.free ++ s.returned)
  pages : total s.obtained = 4096 * s.pages
  bound : ∀ o ∈ s.obtained, o.start + o.length ≤ 2 ^ 64

theorem perm_returned {l free rest returned : List Range} {x : Range} (h : free.Perm (l ++ rest)) :
    (l ++ x :: (rest ++ returned)).Perm (free ++ x :: returned) := by
  have hmiddle : (l ++ x :: (rest ++ returned)).Perm ((l ++ rest) ++ x :: returned) := by
    rw [List.append_assoc]
    exact List.perm_middle.symm.append_left l
  exact hmiddle.trans (h.symm.append_right _)

theorem Account.step (h : Account s) (hsup : Supplied s r) (hf : Fits s r)
    (hs : s.step r = some s') :
    Account s' := by
  have hr : r.numBytes ≠ 0 := Nat.one_le_iff_ne_zero.mp hsup.pos
  obtain ⟨m', res, halloc, hsound, hout⟩ := allocatePoolEx_spec h.sound hr hf
  rw [Process.step, h.noFault, halloc] at hs
  cases hout with
  | refused hpages hsame =>
    cases hs
    refine ⟨rfl, hsound, ?_, h.pages, h.bound⟩
    rw [hsame]
    exact h.tiles
  | @taken a len rest hpages hfree hle hfree' =>
    simp only [hpages, ← size_eq_rounded hsup.bound] at hs
    cases hs
    have hpieces := h.tiles.perm (hfree.append_right s.returned)
    obtain ⟨o, ho, hw⟩ := hpieces.within ⟨a, len⟩ List.mem_cons_self
    have hbound : a + len ≤ 2 ^ 64 := hw.2.trans (h.bound o ho)
    exact ⟨rfl, hsound, (tiles_remainder hpieces hle hbound).perm (perm_returned hfree'), h.pages,
      h.bound⟩
  | pages hpages hle hfree' =>
    simp only [hpages, if_true, ← size_eq_rounded hsup.bound] at hs
    cases hs
    obtain ⟨hfresh, hbound⟩ := hsup.fresh hpages
    have hpieces := tiles_remainder (h.tiles.add hfresh) hle hbound
    refine ⟨rfl, hsound, hpieces.perm (perm_returned hfree'), ?_, fun o ho => ?_⟩
    · change total (r.pageRange :: s.obtained) = 4096 * (s.pages + r.numPages)
      rw [total_cons, h.pages, Request.pageRange, Nat.mul_add, Nat.add_comm]
    · rcases List.mem_cons.mp ho with rfl | ho
      · exact hbound
      · exact h.bound o ho

theorem account_initial : Account Process.initial :=
  ⟨rfl, Or.inl rfl, tiles_nil, rfl, fun _ ho => absurd ho List.not_mem_nil⟩

theorem Account.conserved (h : Account s) : Conserved s := by
  have hapart := List.pairwise_append.mp h.tiles.apart
  refine ⟨h.noFault, hapart.2.1, fun r hr f hf => (hapart.2.2 f hf r hr).symm, ?_⟩
  rw [← h.pages, ← h.tiles.total, total_append, Nat.add_comm]

instance (s : Process) (r : Request) : Decidable (Supplied s r) :=
  decidable_of_iff (1 ≤ r.numBytes ∧ r.numBytes + 15 < 2 ^ 64 ∧ (s.memory.takesPages r = true →
      (∀ o ∈ s.obtained, Apart r.pageRange o) ∧ r.address + 4096 * r.numPages ≤ 2 ^ 64))
    ⟨fun h => ⟨h.1, h.2.1, h.2.2⟩, fun h => ⟨h.pos, h.bound, h.fresh⟩⟩

instance (s : Process) (r : Request) : Decidable (Fits s r) :=
  decidable_of_iff ((s.memory.served r = true →
        ∀ l ∈ s.memory.lists, (s.memory.listHeads l).usedSlots 1 = 0) ∧
      (s.memory.takesPages r = true → r.size ≤ 2 ^ 64 - 4096) ∧
      (s.memory.takesPages r = true → r.size % 4096 ≠ 0 →
        ∀ l ∈ s.memory.lists, (s.memory.listHeads l).numUsedSlots ≠ maxSlots))
    ⟨fun h => ⟨h.1, h.2.1, h.2.2⟩, fun h => ⟨h.low, h.noOverflow, h.room⟩⟩

def sampleRequests : List Request :=
  [⟨4000, 0x10000, true, 0⟩, ⟨33, 0, true, 0⟩, ⟨40, 0, true, 7⟩, ⟨8192, 0x20000, true, 0⟩]

/-- Requests that leave 65 free segments of 16 bytes, and one for 16 bytes. -/
def manyRequests : List Request :=
  (List.range 65).map (fun k => ⟨4080, 4096 * (k + 1), true, 0⟩) ++ [⟨16, 0, true, 0⟩]

end DevOs.Heap
