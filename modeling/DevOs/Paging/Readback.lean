import DevOs.Paging.Stale
import DevOs.Lib.Runs

/-!
# Reading back what was mapped

After `MapPhysicalPages` the pages of the range are resolved to the given addresses, and all other
pages as before. For pages of `2 ^ 12` bytes this is so for a tree of tables, unless an entry of a
page directory that is not present has its size bit set, or the physical address has more than 48
bits. For pages of `2 ^ 21` bytes the entry holds the number of the `2 ^ 12` byte frame, which is
read as the number of a `2 ^ 21` byte frame.
-/

namespace DevOs.Paging

open Bytes Fields Radix

variable {memory : Buffer} {m m' : Machine} {root pageMap a b f p q d D e v x n flags count : ℕ}
  {virtualAddress physicalAddress : ℕ}

theorem Tree.withTrace (h : Tree m root) (trace : List Event) : Tree { m with trace } root :=
  ⟨h.separate, h.nodup, h.page, h.unused⟩

theorem mapPage_some (h : mapPage m pageMap p x count flags = some m') :
    ∃ m₁ trace, mapEntry m pageMap p x flags = some m₁ ∧ m' = { m₁ with trace } := by
  obtain ⟨m₁, hm₁, rfl⟩ := Option.map_eq_some_iff.mp h
  refine ⟨m₁, ?_⟩
  split_ifs
  · exact ⟨_, hm₁, rfl⟩
  · exact ⟨m₁.trace, hm₁, rfl⟩

theorem mapPage_of_entry (count : ℕ) (h : mapEntry m pageMap p x flags = some m') :
    ∃ trace, mapPage m pageMap p x count flags = some { m' with trace } := by
  rw [mapPage, h, Option.map_some]
  split_ifs
  · exact ⟨_, rfl⟩
  · exact ⟨m'.trace, rfl⟩

theorem Tree.mapLoop_small (h : Tree m (pageMap / 2 ^ 12)) (hflags : has flags pmLargePages = false)
    (hpresent : has flags pmPresent = true) (hn : n ≤ 2 ^ 36)
    (hs : ∀ i < n, sizePat (entryOf m.memory (pageMap / 2 ^ 12) 2 (p + i)) = false)
    (hrun : mapLoop pageMap count flags n m p x = some m') :
    (∀ i < n, ∀ q, (p + i) % 2 ^ 36 = q % 2 ^ 36 →
      translate m'.memory (pageMap / 2 ^ 12) q = some (.small ((x + i) % 2 ^ 36))) ∧
    ∀ q, (∀ i < n, (p + i) % 2 ^ 36 ≠ q % 2 ^ 36) →
      translate m'.memory (pageMap / 2 ^ 12) q = translate m.memory (pageMap / 2 ^ 12) q := by
  induction n generalizing m p x with
  | zero =>
    cases hrun
    exact ⟨fun i hi => absurd hi (Nat.not_lt_zero i), fun _ _ => rfl⟩
  | succ n ih =>
    obtain ⟨m₁, hpage, hrun⟩ := Option.bind_eq_some_iff.mp hrun
    obtain ⟨m₀, trace, hentry, rfl⟩ := mapPage_some hpage
    have hw := h.written hflags (hs 0 (Nat.succ_pos n)) hentry
    rw [incVaddr, if_neg (by rw [hflags]; decide)] at hrun
    have hmod (i : ℕ) : (u64 (p + 1) + i) % 2 ^ 36 = (p + (i + 1)) % 2 ^ 36 := by
      rw [u64]
      omega
    have hxmod (i : ℕ) : (u64 (x + 1) + i) % 2 ^ 36 = (x + (i + 1)) % 2 ^ 36 := by
      rw [u64]
      omega
    obtain ⟨hin, hout⟩ := ih (hw.tree.withTrace trace) (Nat.le_of_succ_le hn) (fun i hi => by
      refine (hw.size _).trans ?_
      rw [entryOf_mod _ _ (by decide) (hmod i)]
      exact hs (i + 1) (Nat.succ_lt_succ hi)) hrun
    refine ⟨fun i hi q hq => ?_, fun q hq => ?_⟩
    · cases i with
      | zero =>
        refine (hout q fun i hi => ?_).trans ((hw.mapped q hq ?_).trans ?_)
        · rw [hmod i, ← hq]
          omega
        · rw [present_setPhysicalAddr, present_modelEntry, hpresent]
        · rw [physicalAddr_setPhysicalAddr, Nat.add_zero]
      | succ i =>
        rw [← hxmod i]
        exact hin i (Nat.lt_of_succ_lt_succ hi) q ((hmod i).trans hq)
    · refine (hout q fun i hi => ?_).trans (hw.translate q (hq 0 (Nat.succ_pos n)))
      rw [hmod i]
      exact hq (i + 1) (Nat.succ_lt_succ hi)

theorem Tree.mapLoop_returns (count : ℕ) (h : Tree m (pageMap / 2 ^ 12))
    (hflags : has flags pmLargePages = false)
    (hs : ∀ i < n, sizePat (entryOf m.memory (pageMap / 2 ^ 12) 2 (p + i)) = false)
    (hpages : 3 * n ≤ m.pages.length) : ∃ m', mapLoop pageMap count flags n m p x = some m' := by
  induction n generalizing m p x with
  | zero => exact ⟨m, rfl⟩
  | succ n ih =>
    obtain ⟨m₁, hentry⟩ :=
      h.mapEntry_small (p := p) (x := x) hflags (hs 0 (Nat.succ_pos n)) (by omega)
    have hw := h.written hflags (hs 0 (Nat.succ_pos n)) hentry
    obtain ⟨trace, hpage⟩ := mapPage_of_entry count hentry
    have hlen := hw.pages
    rw [mapLoop, hpage, Option.bind_some, incVaddr, if_neg (by rw [hflags]; decide)]
    refine ih (hw.tree.withTrace trace) (fun i hi => (hw.size _).trans ?_) (by dsimp only; omega)
    have hmod : (u64 (p + 1) + i) % 2 ^ 36 = (p + (i + 1)) % 2 ^ 36 := by
      rw [u64]
      omega
    rw [entryOf_mod _ _ (by decide) hmod]
    exact hs (i + 1) (Nat.succ_lt_succ hi)

theorem Rough.mapLoop {supply : List ℕ} {k l r : ℕ} (h : Rough m (pageMap / 2 ^ 12) p n supply)
    (hflags : has flags pmLargePages = false) (hk : k + l = n) (hr : r % 2 ^ 36 = (p + k) % 2 ^ 36)
    (hrun : mapLoop pageMap count flags l m r x = some m') :
    Rough m' (pageMap / 2 ^ 12) p n supply ∧ DirectoryKept m m' (pageMap / 2 ^ 12) ∧
      ∀ i, k ≤ i → i < n → present (entryOf m'.memory (pageMap / 2 ^ 12) 2 (p + i)) = true := by
  induction l generalizing m k r x with
  | zero =>
    cases hrun
    exact ⟨h, ⟨fun _ _ => rfl, fun _ => rfl⟩, fun i hi hlt => by omega⟩
  | succ l ih =>
    obtain ⟨m₁, hpage, hrun⟩ := Option.bind_eq_some_iff.mp hrun
    obtain ⟨m₀, trace, hentry, rfl⟩ := mapPage_some hpage
    obtain ⟨hrough, hkept, hpresent⟩ := h.mapEntry hflags (i := k) (by omega) hr hentry
    rw [incVaddr, if_neg (by rw [hflags]; decide)] at hrun
    obtain ⟨hrough', hkept', hall⟩ := ih (k := k + 1) (m := { m₀ with trace })
      ⟨hrough.tree.withTrace trace, hrough.sub, hrough.large⟩ (by omega)
      (by rw [u64]; omega) hrun
    refine ⟨hrough', hkept.trans ⟨hkept'.entry, hkept'.size⟩, fun i hi hlt => ?_⟩
    rcases Nat.lt_or_ge k i with hki | hki
    · exact hall i hki hlt
    · obtain rfl : i = k := by omega
      rw [entryOf_mod _ _ (by decide) hr] at hpresent
      have hsame : entryOf m'.memory (pageMap / 2 ^ 12) 2 (p + i) =
          entryOf m₀.memory (pageMap / 2 ^ 12) 2 (p + i) := hkept'.entry _ hpresent
      rw [hsame, hpresent]

def Canonical (v : ℕ) : Prop := v < 2 ^ 47 ∨ 2 ^ 64 - 2 ^ 47 ≤ v ∧ v < 2 ^ 64

def InHalf (v length : ℕ) : Prop := v + length ≤ 2 ^ 47 ∨ 2 ^ 64 - 2 ^ 47 ≤ v ∧ v + length ≤ 2 ^ 64

def firstPage (virtualAddress : ℕ) : ℕ := marked virtualAddress / 2 ^ 12

theorem firstPage_mod (v : ℕ) : firstPage v % 2 ^ 36 = v / 2 ^ 12 % 2 ^ 36 := by
  rw [firstPage, marked]
  split_ifs <;> omega

/-- The pages of a range are resolved to the given addresses, and the others as before. -/
structure ReadsBack (memory memory' : Buffer) (pageMap virtualAddress physicalAddress count : ℕ) :
    Prop where
  inside : ∀ i < count, ∀ o < 2 ^ 12, keResolvePhysicalAddress memory' pageMap
    (virtualAddress + i * 2 ^ 12 + o) = some (physicalAddress + i * 2 ^ 12 + o)
  outside : ∀ v, Canonical v → v < virtualAddress ∨ virtualAddress + count * 2 ^ 12 ≤ v →
    keResolvePhysicalAddress memory' pageMap v = keResolvePhysicalAddress memory pageMap v

theorem page_ne_of_outside {i : ℕ} (hrange : InHalf virtualAddress (count * 2 ^ 12))
    (hal : virtualAddress % 2 ^ 12 = 0) (hi : i < count) (hv : Canonical v)
    (hout : v < virtualAddress ∨ virtualAddress + count * 2 ^ 12 ≤ v) :
    (firstPage virtualAddress + i) % 2 ^ 36 ≠ v / 2 ^ 12 % 2 ^ 36 := by
  have hfirst := firstPage_mod virtualAddress
  rw [InHalf] at hrange
  rw [Canonical] at hv
  omega

theorem mapPhysicalPages_some
    (h : mapPhysicalPages m pageMap virtualAddress physicalAddress count flags = some m') :
    ∃ m₁ trace, mapLoop pageMap count flags count m (firstPage virtualAddress)
      (physicalAddress / 2 ^ 12) =
      some m₁ ∧ m' = { m₁ with trace } := by
  obtain ⟨m₁, hm₁, rfl⟩ := Option.map_eq_some_iff.mp h
  refine ⟨m₁, ?_⟩
  split_ifs
  · exact ⟨_, hm₁, rfl⟩
  · exact ⟨m₁.trace, hm₁, rfl⟩

/-- The entry of a page in the page directory is present and has the size bit. -/
def IsLarge (memory : Buffer) (root p : ℕ) : Prop :=
  present (entryOf memory root 2 p) = true ∧ sizePat (entryOf memory root 2 p) = true

def IsStale (memory : Buffer) (root p : ℕ) : Prop :=
  present (entryOf memory root 2 p) = false ∧ sizePat (entryOf memory root 2 p) = true

/-- Whatever free pages the allocator returns, the call returns when there are enough of them, and
when it has returned the range is read back. -/
def MapReadsBack (m : Machine) (pageMap virtualAddress physicalAddress count flags : ℕ) : Prop :=
  ∀ pages, Tree { m with pages } (pageMap / 2 ^ 12) →
    (3 * count ≤ pages.length →
    ∃ m', mapPhysicalPages { m with pages } pageMap virtualAddress physicalAddress
      count flags = some m') ∧
    ∀ m', mapPhysicalPages { m with pages } pageMap virtualAddress physicalAddress count flags =
      some m' →
      ReadsBack m.memory m'.memory pageMap virtualAddress physicalAddress count

/-- The range begins with a page, the physical addresses have 48 bits, and no entry of the range is
stale. -/
def MapsCleanly (m : Machine) (pageMap virtualAddress physicalAddress count : ℕ) : Prop :=
  count = 0 ∨ virtualAddress % 2 ^ 12 = 0 ∧ physicalAddress + count * 2 ^ 12 ≤ 2 ^ 48 ∧
    ∀ i < count, ¬ IsStale m.memory (pageMap / 2 ^ 12) (firstPage virtualAddress + i)

/-- There are two lists of free pages without a common page, and with each of them the call
returns. -/
def HasSpare (m : Machine) (pageMap virtualAddress physicalAddress count flags : ℕ) : Prop :=
  ∃ l₁ l₂ m₁ m₂, l₁.Disjoint l₂ ∧ Tree { m with pages := l₁ } (pageMap / 2 ^ 12) ∧
    Tree { m with pages := l₂ } (pageMap / 2 ^ 12) ∧
    mapPhysicalPages { m with pages := l₁ } pageMap virtualAddress physicalAddress count flags =
    some m₁ ∧
    mapPhysicalPages { m with pages := l₂ } pageMap virtualAddress physicalAddress count flags =
    some m₂

theorem Tree.translate_stale {i : ℕ} (htree : Tree m (pageMap / 2 ^ 12))
    (hflags : has flags pmLargePages = false)
    (hlarge : ∀ i < count, ¬ IsLarge m.memory (pageMap / 2 ^ 12) (firstPage virtualAddress + i))
    (hi : i < count) (hstale : IsStale m.memory (pageMap / 2 ^ 12) (firstPage virtualAddress + i))
    (hrun : mapPhysicalPages m pageMap virtualAddress physicalAddress count flags = some m') :
    ∃ f, f * 2 ^ 12 ∈ m.pages ∧
      translate m'.memory (pageMap / 2 ^ 12) (firstPage virtualAddress + i) = some (.large f) := by
  obtain ⟨m₁, trace, hloop, rfl⟩ := mapPhysicalPages_some hrun
  have hrough : Rough m (pageMap / 2 ^ 12) (firstPage virtualAddress) count m.pages :=
    ⟨htree, fun _ ha => ha, fun j hj hp hs => absurd ⟨hp, hs⟩ (hlarge j hj)⟩
  obtain ⟨hrough', hkept, hpresent⟩ := hrough.mapLoop hflags (Nat.zero_add count) rfl hloop
  have hp := hpresent i (Nat.zero_le i) hi
  have hs := (hkept.size (firstPage virtualAddress + i)).trans hstale.2
  refine ⟨_, (hrough'.large i hi hp hs).1, ?_⟩
  rw [translate, mapping, hp, hs]
  rfl

theorem keResolvePhysicalAddress_mod {y : ℕ}
    (h : keResolvePhysicalAddress memory pageMap v = some y) :
    y % 2 ^ 12 = v % 2 ^ 12 := by
  rw [keResolvePhysicalAddress_eq] at h
  obtain ⟨t, -, rfl⟩ := Option.map_eq_some_iff.mp h
  cases t <;> rw [Mapping.address] <;> omega

section Small

variable (hrange : InHalf virtualAddress (count * 2 ^ 12)) (hpa : physicalAddress % 2 ^ 12 = 0)
  (hpresent : has flags pmPresent = true) (hflags : has flags pmLargePages = false)
  (hlarge : ∀ i < count, ¬ IsLarge m.memory (pageMap / 2 ^ 12) (firstPage virtualAddress + i))

theorem sizePat_of_clean (hlarge : ¬ IsLarge memory root p) (hstale : ¬ IsStale memory root p) :
    sizePat (entryOf memory root 2 p) = false := by
  cases hs : sizePat (entryOf memory root 2 p) with
  | false => rfl
  | true =>
    cases hp : present (entryOf memory root 2 p) with
    | false => exact absurd ⟨hp, hs⟩ hstale
    | true => exact absurd ⟨hp, hs⟩ hlarge

include hrange hpa hpresent hflags hlarge

theorem MapsCleanly.readsBack (h : MapsCleanly m pageMap virtualAddress physicalAddress count) :
    MapReadsBack m pageMap virtualAddress physicalAddress count flags := by
  intro pages htree
  have hstale : ∀ i < count,
      ¬ IsStale m.memory (pageMap / 2 ^ 12) (firstPage virtualAddress + i) := by
    rcases h with rfl | ⟨-, -, hstale⟩
    · exact fun i hi => absurd hi (Nat.not_lt_zero i)
    · exact hstale
  have hs (i : ℕ) (hi : i < count) := sizePat_of_clean (hlarge i hi) (hstale i hi)
  have hcount : count ≤ 2 ^ 36 := by
    rw [InHalf] at hrange
    omega
  refine ⟨fun hpages => ?_, fun m' hrun => ?_⟩
  · obtain ⟨m', hm'⟩ := htree.mapLoop_returns count (x := physicalAddress / 2 ^ 12) hflags hs hpages
    rw [firstPage] at hm'
    rw [mapPhysicalPages, hm', Option.map_some]
    exact ⟨_, rfl⟩
  · obtain ⟨m₁, trace, hloop, rfl⟩ := mapPhysicalPages_some hrun
    obtain ⟨hin, hout⟩ := htree.mapLoop_small hflags hpresent hcount hs hloop
    have hfirst := firstPage_mod virtualAddress
    refine ⟨fun i hi o ho => ?_, fun v hv hoff => ?_⟩
    · obtain ⟨hal, hmax⟩ : virtualAddress % 2 ^ 12 = 0 ∧
          physicalAddress + count * 2 ^ 12 ≤ 2 ^ 48 := by
        rcases h with rfl | ⟨hal, hmax, -⟩
        · exact absurd hi (Nat.not_lt_zero i)
        · exact ⟨hal, hmax⟩
      rw [keResolvePhysicalAddress_eq, hin i hi _ (by omega), Option.map_some, Mapping.address]
      exact congrArg some (by omega)
    · have hne : ∀ i < count, (firstPage virtualAddress + i) % 2 ^ 36 ≠ v / 2 ^ 12 % 2 ^ 36 := by
        intro i hi
        rcases h with rfl | ⟨hal, -⟩
        · exact absurd hi (Nat.not_lt_zero i)
        · exact page_ne_of_outside hrange hal hi hv hoff
      rw [keResolvePhysicalAddress_eq, keResolvePhysicalAddress_eq, hout _ hne]

theorem HasSpare.mapsCleanly (h : HasSpare m pageMap virtualAddress physicalAddress count flags)
    (hback : MapReadsBack m pageMap virtualAddress physicalAddress count flags) :
    MapsCleanly m pageMap virtualAddress physicalAddress count := by
  obtain ⟨l₁, l₂, m₁, m₂, hdisj, htree₁, htree₂, hrun₁, hrun₂⟩ := h
  have hback₁ := (hback l₁ htree₁).2 m₁ hrun₁
  have hback₂ := (hback l₂ htree₂).2 m₂ hrun₂
  have hfirst := firstPage_mod virtualAddress
  rcases Nat.eq_zero_or_pos count with h0 | hpos
  · exact Or.inl h0
  have hal : virtualAddress % 2 ^ 12 = 0 := by
    have hmod := keResolvePhysicalAddress_mod (hback₁.inside 0 hpos 0 (by decide))
    omega
  have hstale : ∀ i < count,
      ¬ IsStale m.memory (pageMap / 2 ^ 12) (firstPage virtualAddress + i) := by
    intro i hi hst
    obtain ⟨f₁, hf₁, ht₁⟩ := htree₁.translate_stale hflags hlarge hi hst hrun₁
    obtain ⟨f₂, hf₂, ht₂⟩ := htree₂.translate_stale hflags hlarge hi hst hrun₂
    have hpage : (virtualAddress + i * 2 ^ 12 + 0) / 2 ^ 12 % 2 ^ 36 =
        (firstPage virtualAddress + i) % 2 ^ 36 := by omega
    have hin₁ := hback₁.inside i hi 0 (by decide)
    have hin₂ := hback₂.inside i hi 0 (by decide)
    rw [keResolvePhysicalAddress_eq, translate_mod _ _ hpage, ht₁, Option.map_some,
      Mapping.address] at hin₁
    rw [keResolvePhysicalAddress_eq, translate_mod _ _ hpage, ht₂, Option.map_some,
      Mapping.address] at hin₂
    have heq := (Option.some.inj hin₁).trans (Option.some.inj hin₂).symm
    obtain rfl : f₁ = f₂ := by omega
    exact hdisj hf₁ hf₂
  refine Or.inr ⟨hal, ?_, hstale⟩
  obtain ⟨m₃, trace, hloop, rfl⟩ := mapPhysicalPages_some hrun₁
  obtain ⟨hin, -⟩ := htree₁.mapLoop_small hflags hpresent (by rw [InHalf] at hrange; omega)
    (fun i hi => sizePat_of_clean (hlarge i hi) (hstale i hi)) hloop
  have hlast := hback₁.inside (count - 1) (by omega) 0 (by decide)
  rw [keResolvePhysicalAddress_eq, hin (count - 1) (by omega) _ (by omega), Option.map_some,
    Mapping.address] at hlast
  have heq := Option.some.inj hlast
  omega

/-- A range is read back exactly when it is clean. -/
theorem map_reads_back_iff :
    (MapsCleanly m pageMap virtualAddress physicalAddress count →
      MapReadsBack m pageMap virtualAddress physicalAddress count flags) ∧
    (HasSpare m pageMap virtualAddress physicalAddress count flags →
      MapReadsBack m pageMap virtualAddress physicalAddress count flags →
      MapsCleanly m pageMap virtualAddress physicalAddress count) :=
  ⟨MapsCleanly.readsBack hrange hpa hpresent hflags hlarge,
    HasSpare.mapsCleanly hrange hpa hpresent hflags hlarge⟩

end Small

/-- Two pages are mapped in an empty page map. -/
theorem map_reads_back_blank :
    MapReadsBack (blankMachine []) 0x1000 0x400000 0x7000 2 pmPresent := by
  refine (map_reads_back_iff (Or.inl (by decide)) (by decide) (by decide) (by decide)
    (fun i _ hlarge => ?_)).1 (Or.inr ⟨by decide, by decide, fun i _ hstale => ?_⟩)
  · have hp := hlarge.1
    rw [blankMachine, entryOf_blank] at hp
    cases hp
  · have hs := hstale.2
    rw [blankMachine, entryOf_blank] at hs
    cases hs

theorem Tree.mapLoop_tree (h : Tree m (pageMap / 2 ^ 12)) (hflags : has flags pmLargePages = true)
    (hrun : mapLoop pageMap count flags n m p x = some m') : Tree m' (pageMap / 2 ^ 12) := by
  induction n generalizing m p x with
  | zero =>
    cases hrun
    exact h
  | succ n ih =>
    obtain ⟨m₁, hpage, hrun⟩ := Option.bind_eq_some_iff.mp hrun
    obtain ⟨m₀, trace, hentry, rfl⟩ := mapPage_some hpage
    exact ih ((h.writtenLarge hflags hentry).tree.withTrace trace) hrun

theorem Tree.mapPhysicalPages_tree (h : Tree m (pageMap / 2 ^ 12))
    (hflags : has flags pmLargePages = true)
    (hrun : mapPhysicalPages m pageMap virtualAddress physicalAddress count flags = some m') :
    Tree m' (pageMap / 2 ^ 12) := by
  obtain ⟨m₁, trace, hloop, rfl⟩ := mapPhysicalPages_some hrun
  exact (h.mapLoop_tree hflags hloop).withTrace trace

/-- A large page is mapped at the address `0`, and unmapped. -/
def unmapLarge : Option Machine :=
  (mapPhysicalPages (blankMachine [0x2000, 0x3000, 0x4000, 0x5000, 0x6000]) 0x1000 0 0 1
    (pmPresent ||| pmLargePages)).bind fun m => mapPhysicalPages m 0x1000 0 0 1 pmLargePages

/-- The page at the address `0`, where a large page was unmapped, is mapped, and is resolved to the
wrong address. -/
theorem stale_not_read_back : ∃ m, unmapLarge = some m ∧ Tree m (0x1000 / 2 ^ 12) ∧
    (∀ i < 1, ¬ IsLarge m.memory (0x1000 / 2 ^ 12) (firstPage 0 + i)) ∧
    ¬ MapReadsBack m 0x1000 0 0x7000 1 pmPresent := by
  obtain ⟨m, hm⟩ : ∃ m, unmapLarge = some m := Option.isSome_iff_exists.mp (by decide)
  have htree : Tree m (0x1000 / 2 ^ 12) := by
    obtain ⟨m₁, hm₁, hm₂⟩ := Option.bind_eq_some_iff.mp hm
    have hblank : Tree (blankMachine [0x2000, 0x3000, 0x4000, 0x5000, 0x6000]) (0x1000 / 2 ^ 12) :=
      Tree.blank (by decide) (by decide) (by decide)
    exact (hblank.mapPhysicalPages_tree (by decide) hm₁).mapPhysicalPages_tree (by decide) hm₂
  refine ⟨m, hm, htree, fun i hi hlarge => ?_, fun hback => ?_⟩
  · obtain rfl : i = 0 := by omega
    have hp : present (entryOf m.memory (0x1000 / 2 ^ 12) 2 (firstPage 0 + 0)) = false :=
      Runs.eq_of_map
        (fun m : Machine => present (entryOf m.memory (0x1000 / 2 ^ 12) 2 (firstPage 0 + 0))) hm
        (by decide)
    exact absurd (hlarge.1.symm.trans hp) (by decide)
  · obtain ⟨m', hm'⟩ : ∃ m', mapPhysicalPages m 0x1000 0 0x7000 1 pmPresent = some m' :=
      Option.isSome_iff_exists.mp (Runs.eq_of_map
        (fun m : Machine => (mapPhysicalPages m 0x1000 0 0x7000 1 pmPresent).isSome) hm (by decide))
    have hread : (mapPhysicalPages m 0x1000 0 0x7000 1 pmPresent).map
        (fun m : Machine => keResolvePhysicalAddress m.memory 0x1000 0) = some (some 0x800000) :=
      Runs.eq_of_map (fun m : Machine => (mapPhysicalPages m 0x1000 0 0x7000 1 pmPresent).map
        (fun m : Machine => keResolvePhysicalAddress m.memory 0x1000 0)) hm (by decide)
    have h0 := ((hback m.pages htree).2 m' hm').inside 0 (by decide) 0 (by decide)
    rw [hm', Option.map_some, Option.some.injEq] at hread
    exact absurd (h0.symm.trans hread) (by decide)

end DevOs.Paging
