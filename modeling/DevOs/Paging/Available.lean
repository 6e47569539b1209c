import DevOs.Paging.Search

/-!
# Available virtual memory

`VirtualFindAvailableMemory` returns the lowest hole when page `0` is not searched. A missing table
is counted with all its pages, also when the last page is in its middle, so the hole may go on
behind `VirtualEnd`.
-/

namespace DevOs.Paging

open Bytes Holes

variable {memory : Buffer} {pageMap virtualStart virtualEnd numPages p v w i : ℕ}

def SameHalf (v w : ℕ) : Prop :=
  v < 2 ^ 47 ∧ w < 2 ^ 47 ∨ 2 ^ 64 - 2 ^ 47 ≤ v ∧ 2 ^ 64 - 2 ^ 47 ≤ w ∧ v < 2 ^ 64 ∧ w < 2 ^ 64

/-- No address of the pages from `v` on is resolved. -/
def Unmapped (memory : Buffer) (pageMap v numPages : ℕ) : Prop :=
  ∀ i < numPages, keResolvePhysicalAddress memory pageMap (v + i * 2 ^ 12) = none

/-- Unmapped pages inside of the region. Its last page counts as a whole. -/
structure RunInside (memory : Buffer) (pageMap virtualStart virtualEnd numPages v : ℕ) : Prop where
  aligned : v % 2 ^ 12 = 0
  start_le : virtualStart ≤ v
  le_end : v + numPages * 2 ^ 12 ≤ virtualEnd / 2 ^ 12 * 2 ^ 12 + 2 ^ 12
  unmapped : Unmapped memory pageMap v numPages

theorem SameHalf.canonical (h : SameHalf v w) : Canonical v ∧ Canonical w := by
  rw [SameHalf] at h
  rw [Canonical, Canonical]
  omega

theorem pageOf_add (hlt : pageOf v + i < 2 ^ 36) : pageOf (v + i * 2 ^ 12) = pageOf v + i := by
  rw [pageOf] at hlt ⊢
  rw [Nat.add_mul_div_right _ _ (by decide)]
  rw [pageOf]
  omega

theorem pageOf_addressOf (hp : p < 2 ^ 36) : pageOf (addressOf p) = p := by
  rw [pageOf, addressOf]
  split_ifs <;> omega

theorem resolve_none_iff (hroot : pageMap % 2 ^ 12 = 0) :
    keResolvePhysicalAddress memory pageMap v = none ↔ Free memory pageMap (pageOf v) := by
  have heq : pageMap / 2 ^ 12 * 2 ^ 12 = pageMap := by omega
  have hfree := translateFrom_eq memory (pageMap / 2 ^ 12) (pageOf v)
  rw [heq] at hfree
  rw [keResolvePhysicalAddress_eq, Option.map_eq_none_iff, Free, hfree, pageOf,
    translate_mod memory _ (Nat.mod_mod _ _)]

theorem unmapped_iff (hroot : pageMap % 2 ^ 12 = 0) (hlt : pageOf v + numPages ≤ 2 ^ 36) :
    Unmapped memory pageMap v numPages ↔ FreeRun (Free memory pageMap) (pageOf v) numPages := by
  constructor
  · intro h q hq hlt'
    obtain ⟨i, rfl⟩ := Nat.exists_eq_add_of_le hq
    have hi := h i (by omega)
    rwa [resolve_none_iff hroot, pageOf_add (by omega)] at hi
  · intro h i hi
    rw [resolve_none_iff hroot, pageOf_add (by omega)]
    exact h _ (by omega) (by omega)

theorem blockEnd_le_half (memory : Buffer) (pageTable p : ℕ) :
    blockEnd memory pageTable p ≤ 2 ^ 35 * (p / 2 ^ 35 + 1) := by
  have hopen : Open memory pageTable 0 p := fun j hj => absurd hj (Nat.not_lt_zero j)
  have hend : blockEnd memory pageTable p ≤ (p / 2 ^ 27 + 1) * 2 ^ 27 := hopen.blockEnd_le
  rw [Nat.mul_comm] at hend
  omega

theorem SameHalf.pages (h : SameHalf v w) (hle : v ≤ w) :
    v / 2 ^ 12 * 2 ^ 12 = addressOf (pageOf v) ∧ w / 2 ^ 12 * 2 ^ 12 = addressOf (pageOf w) ∧
      pageOf v ≤ pageOf w ∧ pageOf v / 2 ^ 35 = pageOf w / 2 ^ 35 := by
  rw [SameHalf] at h
  rw [pageOf, pageOf, addressOf, addressOf]
  split_ifs <;> omega

theorem addressOf_add_le_iff {p q n k : ℕ} (h : p / 2 ^ 35 = q / 2 ^ 35) :
    addressOf p + n * 2 ^ 12 ≤ addressOf q + k * 2 ^ 12 ↔ p + n ≤ q + k := by
  rw [addressOf, addressOf]
  split_ifs <;> omega

theorem Canonical.pageOf_pos (hv : Canonical v) (hle : 0x1000 ≤ v) : 0 < pageOf v := by
  rw [Canonical] at hv
  rw [pageOf]
  omega

theorem Answer.unmapped {first last address : ℕ}
    (h : Answer memory pageMap first last numPages address p) (hroot : pageMap % 2 ^ 12 = 0)
    (hpos : 0 < p) (hlast : last < 2 ^ 36) :
    address = addressOf p ∧ Unmapped memory pageMap address numPages := by
  have hend := h.le_end
  have hle := h.le_last
  have hhalf := blockEnd_le_half memory pageMap last
  have hp := pageOf_addressOf (show p < 2 ^ 36 by omega)
  have heq : address = addressOf p := by rw [h.eq, shown, if_neg (by omega)]
  refine ⟨heq, ?_⟩
  rw [heq, unmapped_iff hroot (by omega), hp]
  exact h.first.run

/-- Tables for one mapped page. The page map is at `0x10000`. -/
def oneMapped (p : ℕ) : Buffer :=
  setEntry (setEntry (setEntry (setEntry (fun _ => 0) 0x3000 (p % 512) 0x4001) 0x2000
    (p / 2 ^ 9 % 512) 0x3001)
    0x1000 (p / 2 ^ 18 % 512) 0x2001) 0x10000 (p / 2 ^ 27 % 512) 0x1001

section Region

variable (hhalf : SameHalf virtualStart virtualEnd) (hle : virtualStart ≤ virtualEnd)
    (hn : 1 ≤ numPages)

include hhalf hle hn

theorem RunInside.pages (h : RunInside memory pageMap virtualStart virtualEnd numPages v)
    (hroot : pageMap % 2 ^ 12 = 0) : v = addressOf (pageOf v) ∧ pageOf virtualStart ≤ pageOf v ∧
      pageOf v + numPages ≤ pageOf virtualEnd + 1 ∧
      FreeRun (Free memory pageMap) (pageOf v) numPages := by
  obtain ⟨hal, hstart, hend, hun⟩ := h
  obtain ⟨-, hpe, -, -⟩ := hhalf.pages hle
  have hsame : SameHalf virtualStart v ∧ SameHalf v virtualEnd ∧ v ≤ virtualEnd := by
    rw [SameHalf] at hhalf ⊢
    rw [SameHalf]
    omega
  obtain ⟨-, hpv, hps, -⟩ := hsame.1.pages hstart
  obtain ⟨-, -, -, hdiv⟩ := hsame.2.1.pages hsame.2.2
  have hv : v = addressOf (pageOf v) := by omega
  have hpages : pageOf v + numPages ≤ pageOf virtualEnd + 1 := by
    apply (addressOf_add_le_iff hdiv).mp
    rw [← hpe, ← hv]
    omega
  have hlt := pageOf_lt virtualEnd
  exact ⟨hv, hps, hpages, (unmapped_iff hroot (by omega)).mp hun⟩

/-- The search finds the lowest hole. -/
theorem available_lowest (hroot : pageMap % 2 ^ 12 = 0) (hstart : 0x1000 ≤ virtualStart) :
    (∀ address, virtualFindAvailableMemory memory pageMap virtualStart virtualEnd numPages =
      address →
      address ≠ 0 → Unmapped memory pageMap address numPages ∧
      virtualStart / 2 ^ 12 * 2 ^ 12 ≤ address ∧
        ∀ v < address, ¬ RunInside memory pageMap virtualStart virtualEnd numPages v) ∧
    (virtualFindAvailableMemory memory pageMap virtualStart virtualEnd numPages = 0 →
      ∀ v, ¬ RunInside memory pageMap virtualStart virtualEnd numPages v) := by
  have hcan := hhalf.canonical
  have hlt := pageOf_lt virtualEnd
  obtain ⟨hps, hpe, hpse, hdiv⟩ := hhalf.pages hle
  have hspec := virtualFindAvailableMemory_spec memory pageMap hn hcan.1 hcan.2 hle
  have hblock := blockEnd_le_half memory pageMap (pageOf virtualEnd)
  have hfirst := hcan.1.pageOf_pos hstart
  rcases hspec with ⟨p, hans⟩ | ⟨hzero, hnone⟩
  · have hge := hans.first.le
    have hlast := hans.le_last
    have hsame : pageOf virtualStart / 2 ^ 35 = p / 2 ^ 35 := by omega
    have hne := addressOf_pos (show 0 < p by omega)
    obtain ⟨heq, hun⟩ := hans.unmapped hroot (by omega) hlt
    rw [heq] at hun ⊢
    refine ⟨?_, fun h => absurd h (by omega)⟩
    rintro address rfl -
    refine ⟨hun, ?_, fun v hv hrun => ?_⟩
    · rw [hps]
      exact (addressOf_add_le_iff hsame (n := 0) (k := 0)).mpr hge
    · obtain ⟨hvp, hsv, hvn, hfree⟩ := hrun.pages hhalf hle hn hroot
      refine hans.first.least _ hsv ?_ hfree
      by_contra hpv
      have hle' : addressOf p + 0 * 2 ^ 12 ≤ addressOf (pageOf v) + 0 * 2 ^ 12 :=
        (addressOf_add_le_iff (by omega)).mpr (by omega)
      omega
  · refine ⟨fun address h hne => absurd (h.symm.trans hzero) hne, fun _ v hrun => ?_⟩
    obtain ⟨-, hsv, hvn, hfree⟩ := hrun.pages hhalf hle hn hroot
    have hlt' := lt_blockEnd memory pageMap (pageOf virtualEnd)
    exact hnone _ hsv (by omega) hfree

end Region

/-- Page `1` is mapped, so the hole is behind it. -/
theorem available_lowest_second :
    virtualFindAvailableMemory (oneMapped 1) 0x10000 0x1000 0x5FFF 2 = 0x2000 ∧
    Unmapped (oneMapped 1) 0x10000 0x2000 2 ∧
      ∀ v < 0x2000, ¬ RunInside (oneMapped 1) 0x10000 0x1000 0x5FFF 2 v := by
  have hfind : virtualFindAvailableMemory (oneMapped 1) 0x10000 0x1000 0x5FFF 2 = 0x2000 := by
    decide
  have hlowest :=
    (available_lowest (Or.inl (by decide)) (by decide) (by decide) (by decide) (by decide)).1
    _ hfind (by decide)
  exact ⟨hfind, hlowest.1, hlowest.2.2⟩

/-- The search returns pages up to the page of `VirtualEnd`. -/
def EndsInside (memory : Buffer) (pageMap virtualStart virtualEnd numPages : ℕ) : Prop :=
  ∀ address, virtualFindAvailableMemory memory pageMap virtualStart virtualEnd numPages = address →
    address ≠ 0 → address + numPages * 2 ^ 12 - 1 ≤ virtualEnd / 2 ^ 12 * 2 ^ 12 + 0xFFF

/-- A hole from a page of the region on that does not go behind the table in which the last page is
missing. The tables are read from the page map as it is, with its tag. -/
structure Candidate (memory : Buffer) (pageMap virtualStart virtualEnd numPages v : ℕ) : Prop where
  start_le : pageOf virtualStart ≤ v
  le_end : v ≤ pageOf virtualEnd
  run : FreeRun (Free memory pageMap) v numPages
  le_blockEnd : v + numPages ≤ blockEnd memory pageMap (pageOf virtualEnd)

/-- When there is a candidate, there is one that ends in the region. A candidate at page `0` is
taken for none when its first block is large enough, and else for the pages behind this block. -/
structure StaysInside (memory : Buffer) (pageMap virtualStart virtualEnd numPages : ℕ) : Prop where
  zero : Candidate memory pageMap virtualStart virtualEnd numPages 0 →
    numPages ≤ blockEnd memory pageMap 0 ∨
      blockEnd memory pageMap 0 + numPages ≤ pageOf virtualEnd + 1
  other : ¬ Candidate memory pageMap virtualStart virtualEnd numPages 0 →
    ∀ v, Candidate memory pageMap virtualStart virtualEnd numPages v →
      ∃ w, Candidate memory pageMap virtualStart virtualEnd numPages w ∧
      w + numPages ≤ pageOf virtualEnd + 1

theorem SameHalf.finish_inside_iff (h : SameHalf virtualStart virtualEnd)
    (hle : virtualStart ≤ virtualEnd) (hn : 1 ≤ numPages)
    (hp : p / 2 ^ 35 = pageOf virtualEnd / 2 ^ 35) :
    addressOf p + numPages * 2 ^ 12 - 1 ≤ virtualEnd / 2 ^ 12 * 2 ^ 12 + 0xFFF ↔
      p + numPages ≤ pageOf virtualEnd + 1 := by
  obtain ⟨-, hpe, -, -⟩ := h.pages hle
  rw [← addressOf_add_le_iff hp, hpe]
  omega

/-- The search respects its upper bound exactly when no hole has to end behind it. -/
theorem ends_inside_iff (hhalf : SameHalf virtualStart virtualEnd) (hle : virtualStart ≤ virtualEnd)
    (hn : 1 ≤ numPages) : EndsInside memory pageMap virtualStart virtualEnd numPages ↔
      StaysInside memory pageMap virtualStart virtualEnd numPages := by
  have hcan := hhalf.canonical
  obtain ⟨hps, hpe, hpse, hdiv⟩ := hhalf.pages hle
  have hblock := blockEnd_le_half memory pageMap (pageOf virtualEnd)
  rcases virtualFindAvailableMemory_spec memory pageMap hn hcan.1 hcan.2 hle with ⟨p,
    hans⟩ | ⟨hzero, hnone⟩
  · obtain ⟨hlow, hlast, hend, heq⟩ := hans
    have hcand : Candidate memory pageMap virtualStart virtualEnd numPages p :=
      ⟨hlow.le, hlast, hlow.run, hend⟩
    have hge := hlow.le
    rw [EndsInside, heq, shown]
    rcases Nat.eq_zero_or_pos p with rfl | hpos
    · rw [if_pos rfl]
      by_cases hb : numPages ≤ blockEnd memory pageMap 0
      · rw [if_pos hb, addressOf_zero]
        exact iff_of_true (fun address h hne => absurd h.symm hne)
          ⟨fun _ => Or.inl hb, fun hno => absurd hcand hno⟩
      · have hsame : blockEnd memory pageMap 0 / 2 ^ 35 = pageOf virtualEnd / 2 ^ 35 := by omega
        have hne := addressOf_pos (lt_blockEnd memory pageMap 0)
        rw [if_neg hb]
        constructor
        · intro h
          have hp := (hhalf.finish_inside_iff hle hn hsame).mp (h _ rfl (by omega))
          exact ⟨fun _ => Or.inr hp, fun hno => absurd hcand hno⟩
        · rintro h _ rfl -
          exact (hhalf.finish_inside_iff hle hn hsame).mpr ((h.zero hcand).resolve_left hb)
    · have hno : ¬ Candidate memory pageMap virtualStart virtualEnd numPages 0 :=
        fun h => hlow.least 0 h.start_le hpos h.run
      have hsame : p / 2 ^ 35 = pageOf virtualEnd / 2 ^ 35 := by omega
      have hne := addressOf_pos hpos
      rw [if_neg (by omega)]
      constructor
      · intro h
        have hp := (hhalf.finish_inside_iff hle hn hsame).mp (h _ rfl (by omega))
        exact ⟨fun h => absurd h hno, fun _ _ _ => ⟨p, hcand, hp⟩⟩
      · rintro h _ rfl -
        obtain ⟨w, hw, hwe⟩ := h.other hno p hcand
        have hpw : p ≤ w := by
          by_contra hlt
          exact hlow.least w hw.start_le (Nat.lt_of_not_le hlt) hw.run
        exact (hhalf.finish_inside_iff hle hn hsame).mpr (by omega)
  · have hno v (h : Candidate memory pageMap virtualStart virtualEnd numPages v) : False :=
      hnone v h.start_le h.le_blockEnd h.run
    exact iff_of_true (fun address h hne => absurd (h.symm.trans hzero) hne)
      ⟨fun h => (hno 0 h).elim, fun _ v h => (hno v h).elim⟩

/-- Two pages behind a mapped one. -/
theorem ends_inside_second : EndsInside (oneMapped 1) 0x10000 0x1000 0x5FFF 2 := by
  have hrun : FreeRun (Free (oneMapped 1) 0x10000) 2 2 := by
    intro q hq hlt
    obtain rfl | rfl : q = 2 ∨ q = 3 := by omega
    · decide
    · decide
  refine (ends_inside_iff (Or.inl (by decide)) (by decide) (by decide)).mpr
    ⟨fun h => absurd h.start_le (by decide),
    fun _ _ _ => ⟨2, ⟨by decide, by decide, hrun, ?_⟩, by decide⟩⟩
  decide

/-- One page is left in the region, and two are found. -/
theorem ends_behind : ¬ EndsInside (fun _ => 0) 0x10000 0x1000 0x1FFF 2 := by
  intro h
  have hfind : virtualFindAvailableMemory (fun _ => 0) 0x10000 0x1000 0x1FFF 2 = 0x1000 := by decide
  exact absurd (h _ hfind (by decide)) (by decide)

end DevOs.Paging
