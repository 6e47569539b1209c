import DevOs.Lib.Forests
import DevOs.Lib.Runs
import DevOs.Paging.Readback

/-!
# The system space

Every process has a page map of its own, and `InitSystemSpace` copies the upper half of its entries
from the page map of the kernel. From then on the tables behind these entries belong to both page
maps, and `MapPhysicalPages` changes them for both, through whichever of them it is called. An entry
that the kernel gets later is not copied.

The page maps here are those without a tag: `InitSystemSpace` adds the offset of the upper half to
the page map as it is, with the tag in its low bits.
-/

namespace DevOs.Paging

open Bytes Radix Runs

/-- `_SIMD_AllocatePhysicalPage` and `ResetPageMap`. -/
def createPageMap (m : Machine) : Option (Machine × ℕ) :=
  match m.pages with
  | [] => none
  | pageMap :: pages =>
    if pageMap = 0 then none
    else some ({ m with memory := clear m.memory pageMap 0x1000, pages }, pageMap)

def initSystemSpace (m : Machine) (kernelPageMap pageMap : ℕ) : Machine :=
  { m with memory := copy m.memory (pageMap + 0x800) m.memory (kernelPageMap + 0x800) 0x800 }

/-- The page maps of `kproc` and of the processes. -/
structure Space where
  machine : Machine
  pageMaps : List ℕ

inductive SpaceCall where
  | createPageMap
  | mapPhysicalPages (pageMap virtualAddress physicalAddress count flags : ℕ)
  | initSystemSpace (pageMap : ℕ)

def Space.call (kernelPageMap : ℕ) (s : Space) : SpaceCall → Option Space
  | .createPageMap => (createPageMap s.machine).map fun r => ⟨r.1, r.2 :: s.pageMaps⟩
  | .mapPhysicalPages pageMap virtualAddress physicalAddress count flags =>
    (mapPhysicalPages s.machine pageMap virtualAddress physicalAddress count flags).map fun m =>
      { s with machine := m }
  | .initSystemSpace pageMap =>
      some { s with machine := initSystemSpace s.machine kernelPageMap pageMap }

/-- The calls are made with page maps that there are, and `MapPhysicalPages` without
`PM_LARGE_PAGES` is not called for a page in a large one, whose frame it would take for a table. -/
def Space.Allowed (s : Space) : SpaceCall → Prop
  | .createPageMap => True
  | .mapPhysicalPages pageMap virtualAddress _ count flags => pageMap ∈ s.pageMaps ∧
    (has flags pmLargePages = false → ∀ i < count,
      sizePat (entryOf s.machine.memory (pageMap / 2 ^ 12) 2 (firstPage virtualAddress + i)) =
        false)
  | .initSystemSpace pageMap => pageMap ∈ s.pageMaps

instance (s : Space) (c : SpaceCall) : Decidable (s.Allowed c) := by
  cases c
  · exact inferInstanceAs (Decidable True)
  · exact inferInstanceAs (Decidable (_ ∧ _))
  · exact inferInstanceAs (Decidable (_ ∈ _))

def InSystemSpace (virtualAddress : ℕ) : Prop :=
  2 ^ 64 - 2 ^ 47 ≤ virtualAddress ∧ virtualAddress < 2 ^ 64

def pml4Entry (memory : Buffer) (pageMap virtualAddress : ℕ) : ℕ :=
  entry memory pageMap (virtualAddress / 2 ^ 39 % 512)

variable {m m' : Machine} {roots : Set ℕ} {r t a f p x n D e flags pageMap kernelPageMap : ℕ}

/-- Page maps whose tables are apart but for common entries. The pages that the allocator returns
are different, and no tables of any of them. -/
structure Trees (m : Machine) (roots : Set ℕ) : Prop where
  forest : Forest tables (slots m.memory) roots
  nodup : m.pages.Nodup
  page : ∀ a ∈ m.pages, a ≠ 0 ∧ a % 2 ^ 12 = 0 ∧ a < 2 ^ 48
  unused : ∀ r ∈ roots, ∀ a ∈ m.pages, ∀ d p, tableOf m.memory r d p ≠ some (a / 2 ^ 12)

abbrev EntriesKept (m m' : Machine) (roots : Set ℕ) : Prop :=
  Kept tables (slots m.memory) (slots m'.memory) roots

namespace Trees

theorem tree (h : Trees m roots) (hr : r ∈ roots) : Tree m r :=
  ⟨h.forest.separate r hr, h.nodup, h.page, h.unused r hr⟩

theorem withTrace (h : Trees m roots) (trace : List Event) : Trees { m with trace } roots :=
  ⟨h.forest, h.nodup, h.page, h.unused⟩

theorem fresh {y : ℕ} {pages : List ℕ} (h : Trees m roots) (hpages : m.pages = y :: pages) :
    ∃ f, y = f * 2 ^ 12 ∧ f < 2 ^ 36 ∧ y ≠ 0 ∧
    ∀ t ∈ roots, ∀ d q, tableOf m.memory t d q ≠ some f := by
  have hmem : y ∈ m.pages := by
    rw [hpages]
    exact List.mem_cons_self
  obtain ⟨h0, hmod, hlt⟩ := h.page y hmem
  obtain ⟨f, rfl⟩ : ∃ f, y = f * 2 ^ 12 := ⟨y / 2 ^ 12, by omega⟩
  refine ⟨f, rfl, by omega, h0, fun t ht d q hq => h.unused t ht _ hmem d q ?_⟩
  rw [hq, Nat.mul_div_cancel _ (by decide)]

theorem take {memory : Buffer} {pages : List ℕ} {roots' : Set ℕ} (h : Trees m roots)
    (hpages : m.pages = f * 2 ^ 12 :: pages)
    (hforest : Forest tables (slots memory) roots')
    (hgrown : ∀ t ∈ roots', ∀ d q b, tableOf memory t d q = some b →
      b = f ∨ t ∈ roots ∧ tableOf m.memory t d q = some b) :
      Trees { m with memory, pages } roots' := by
  have hnodup := h.nodup
  rw [hpages, List.nodup_cons] at hnodup
  have hsub : ∀ b ∈ pages, b ∈ m.pages := fun b hb => by
    rw [hpages]
    exact List.mem_cons_of_mem _ hb
  refine ⟨hforest, hnodup.2, fun b hb => h.page b (hsub b hb), fun t ht b hb d q hq => ?_⟩
  rcases hgrown t ht d q _ hq with hbf | ⟨ht', hold⟩
  · have hmod := (h.page b (hsub b hb)).2.1
    obtain rfl : b = f * 2 ^ 12 := by omega
    exact hnodup.1 hb
  · exact h.unused t ht' b (hsub b hb) d q hold

theorem openTable {t : ℕ} (h : Trees m roots) (hr : r ∈ roots)
    (ha : tableOf m.memory r D p = some a) (hD : D < 3)
    (hs : D = 2 → sizePat (entryOf m.memory r D p) = false)
    (hrun : Paging.openTable m (a * 2 ^ 12) (tableIndex D p) = some (m', t)) :
    Trees m' roots ∧ EntriesKept m m' roots := by
  have hlook : entryOf m.memory r D p = slots m.memory a (tableIndex D p) := look_of_some ha
  rw [hlook] at hs
  rw [Paging.openTable] at hrun
  change (if present (slots m.memory a (tableIndex D p)) = true then _ else _) = _ at hrun
  split_ifs at hrun with hp
  · cases hrun
    exact ⟨h, fun _ _ _ _ => rfl⟩
  · rw [Bool.not_eq_true] at hp
    cases hpages : m.pages with
    | nil =>
      rw [hpages] at hrun
      cases hrun
    | cons y pages =>
      obtain ⟨f, rfl, hlt, h0, hunused⟩ := h.fresh hpages
      simp only [hpages, if_neg h0, Option.some.injEq, Prod.mk.injEq] at hrun
      obtain ⟨rfl, -⟩ := hrun
      have hslots : slots (clear (setEntry m.memory (a * 2 ^ 12) (tableIndex D p)
          (tableEntry (slots m.memory a (tableIndex D p)) f)) (f * 2 ^ 12) 0x1000) =
            link (slots m.memory) a (tables.index D p)
            (tableEntry (slots m.memory a (tableIndex D p)) f) f 0 := by
        rw [slots_clear, slots_setEntry (tableEntry_lt (slots_lt ..))]
        rfl
      have hchild : nextTable D (tableEntry (slots m.memory a (tableIndex D p)) f) = some f := by
        rw [nextTable_of_present hD present_tableEntry fun h2 => by rw [sizePat_tableEntry, hs h2],
          physicalAddr_tableEntry, Nat.mod_eq_of_lt hlt]
      obtain ⟨hforest, hkept, hgrown⟩ :=
        h.forest.link hr ha (nextTable_of_not_present hp) hchild hunused nextTable_zero
      rw [← hslots] at hforest hkept hgrown
      rw [Nat.mul_div_cancel _ (show 0 < 2 ^ 12 by decide)]
      refine ⟨h.take hpages hforest fun t ht d q b hb => ?_, hkept⟩
      exact (hgrown t ht d q b hb).symm.imp id fun hold => ⟨ht, hold⟩

theorem writeEntry (page : ℕ) (h : Trees m roots) (hr : r ∈ roots)
    (ha : tableOf m.memory r D p = some a) (hD : 0 < D) (he : nextTable D e = none)
    (hlt : e < 2 ^ 64) :
    Trees (Paging.writeEntry m (a * 2 ^ 12) (tableIndex D p) page e) roots ∧
      EntriesKept m (Paging.writeEntry m (a * 2 ^ 12) (tableIndex D p) page e) roots := by
  have hslots : slots (Paging.writeEntry m (a * 2 ^ 12) (tableIndex D p) page e).memory =
      put (slots m.memory) a (tables.index D p) e := slots_setEntry hlt
  obtain ⟨hforest, hroots, hsub⟩ := h.forest.put hr ha hD he
  rw [← hslots] at hforest hroots hsub
  refine ⟨⟨hforest, h.nodup, h.page, fun t ht b hb d q hq => ?_⟩, fun t ht i _ => ?_⟩
  · exact h.unused t ht b hb d q (hsub t ht d q _ hq)
  · rw [hroots t ht]

theorem mapEntry (h : Trees m roots) (hr : pageMap / 2 ^ 12 ∈ roots)
    (hs : has flags pmLargePages = false →
      sizePat (entryOf m.memory (pageMap / 2 ^ 12) 2 p) = false)
    (hrun : Paging.mapEntry m pageMap p x flags = some m') :
    Trees m' roots ∧ EntriesKept m m' roots := by
  obtain ⟨⟨m₁, t₁⟩, hrun₁, hrun⟩ := Option.bind_eq_some_iff.mp hrun
  obtain ⟨⟨m₂, t₂⟩, hrun₂, hrun⟩ := Option.bind_eq_some_iff.mp hrun
  have hroot : tableOf m.memory (pageMap / 2 ^ 12) 0 p = some (pageMap / 2 ^ 12) := rfl
  obtain ⟨b, rfl, ho₁⟩ := (h.tree hr).opened hroot (by decide) (fun h => by cases h) hrun₁
  obtain ⟨h₁, hk₁⟩ := h.openTable hr hroot (by decide) (fun h => by cases h) hrun₁
  obtain ⟨c, rfl, ho₂⟩ := ho₁.tree.opened ho₁.table (by decide) (fun h => by cases h) hrun₂
  obtain ⟨h₂, hk₂⟩ := h₁.openTable hr ho₁.table (by decide) (fun h => by cases h) hrun₂
  dsimp only at hrun
  split_ifs at hrun with hflags
  · cases hrun
    have hlarge :
        sizePat (setPhysicalAddr (modelEntry m.nx flags)
        (x ||| physicalAddr (modelEntry m.nx flags))) = true := by
      rw [sizePat_setPhysicalAddr, sizePat_modelEntry hflags]
    obtain ⟨h₃, hk₃⟩ := h₂.writeEntry p hr ho₂.table (by decide) (nextTable_large hlarge)
      (setPhysicalAddr_lt modelEntry_lt)
    exact ⟨h₃, hk₁.trans (hk₂.trans hk₃)⟩
  · rw [Bool.not_eq_true] at hflags
    obtain ⟨⟨m₃, t₃⟩, hrun₃, rfl⟩ := Option.map_eq_some_iff.mp hrun
    have hsize : 2 = 2 → sizePat (entryOf m₂.memory (pageMap / 2 ^ 12) 2 p) = false :=
      fun _ => by rw [ho₂.size_two, ho₁.size_two, hs hflags]
    obtain ⟨f, rfl, ho₃⟩ := ho₂.tree.opened ho₂.table (by decide) hsize hrun₃
    obtain ⟨h₃, hk₃⟩ := h₂.openTable hr ho₂.table (by decide) hsize hrun₃
    obtain ⟨h₄, hk₄⟩ := h₃.writeEntry p hr ho₃.table (by decide)
      (nextTable_leaf (setPhysicalAddr (modelEntry m.nx flags) x))
      (setPhysicalAddr_lt modelEntry_lt)
    have hindex : p % 512 = tableIndex 3 p := by simp [tableIndex]
    dsimp only
    rw [hindex]
    exact ⟨h₄, hk₁.trans (hk₂.trans (hk₃.trans hk₄))⟩

theorem mapLoop (count : ℕ) (h : Trees m roots) (hr : pageMap / 2 ^ 12 ∈ roots)
    (hs : has flags pmLargePages = false → ∀ i < n,
      sizePat (entryOf m.memory (pageMap / 2 ^ 12) 2 (p + i)) = false)
    (hrun : Paging.mapLoop pageMap count flags n m p x = some m') :
    Trees m' roots ∧ EntriesKept m m' roots := by
  induction n generalizing m p x with
  | zero =>
    cases hrun
    exact ⟨h, fun _ _ _ _ => rfl⟩
  | succ n ih =>
    obtain ⟨m₁, hpage, hrun⟩ := Option.bind_eq_some_iff.mp hrun
    obtain ⟨m₀, trace, hentry, rfl⟩ := mapPage_some hpage
    obtain ⟨h₀, hk₀⟩ := h.mapEntry hr (fun hflags => hs hflags 0 (Nat.succ_pos n)) hentry
    have hrest : has flags pmLargePages = false → ∀ i < n,
        sizePat (entryOf m₀.memory (pageMap / 2 ^ 12) 2 (u64 (p + incVaddr flags) + i)) =
        false := by
      intro hflags i hi
      have hw := (h.tree hr).written hflags (hs hflags 0 (Nat.succ_pos n)) hentry
      have hmod : (u64 (p + incVaddr flags) + i) % 2 ^ 36 = (p + (i + 1)) % 2 ^ 36 := by
        rw [incVaddr, if_neg (by rw [hflags]; decide), u64]
        omega
      rw [hw.size, entryOf_mod _ _ (by decide) hmod]
      exact hs hflags (i + 1) (Nat.succ_lt_succ hi)
    obtain ⟨h', hk'⟩ := ih (h₀.withTrace trace) hrest hrun
    exact ⟨h', hk₀.trans hk'⟩

theorem mapPhysicalPages {virtualAddress physicalAddress count : ℕ} (h : Trees m roots)
    (hr : pageMap / 2 ^ 12 ∈ roots) (hs : has flags pmLargePages = false → ∀ i < count,
      sizePat (entryOf m.memory (pageMap / 2 ^ 12) 2 (firstPage virtualAddress + i)) = false)
    (hrun : Paging.mapPhysicalPages m pageMap virtualAddress physicalAddress count flags =
      some m') :
    Trees m' roots ∧ EntriesKept m m' roots := by
  obtain ⟨m₁, hloop, rfl⟩ := Option.map_eq_some_iff.mp hrun
  obtain ⟨h₁, hk₁⟩ := h.mapLoop count hr hs hloop
  split_ifs
  · exact ⟨h₁.withTrace _, hk₁⟩
  · exact ⟨h₁, hk₁⟩

theorem createPageMap (h : Trees m roots) (hrun : Paging.createPageMap m = some (m', pageMap)) :
    pageMap % 2 ^ 12 = 0 ∧ Trees m' (insert (pageMap / 2 ^ 12) roots) ∧ EntriesKept m m' roots := by
  rw [Paging.createPageMap] at hrun
  cases hpages : m.pages with
  | nil =>
    rw [hpages] at hrun
    cases hrun
  | cons y pages =>
    obtain ⟨f, rfl, hlt, h0, hunused⟩ := h.fresh hpages
    simp only [hpages, if_neg h0, Option.some.injEq, Prod.mk.injEq] at hrun
    obtain ⟨rfl, rfl⟩ := hrun
    have hother : ∀ c, c ≠ f → slots (clear m.memory (f * 2 ^ 12) 0x1000) c = slots m.memory c := by
      intro c hc
      rw [slots_clear]
      funext j
      exact if_neg hc
    have hempty : ∀ i, slots (clear m.memory (f * 2 ^ 12) 0x1000) f i = 0 := by
      intro i
      rw [slots_clear]
      exact if_pos rfl
    obtain ⟨hforest, hgrown⟩ := h.forest.insert hunused hother
      fun i => (congrArg (nextTable 0) (hempty i)).trans (nextTable_zero 0)
    rw [Nat.mul_div_cancel _ (show 0 < 2 ^ 12 by decide)]
    refine ⟨Nat.mul_mod_left f _, h.take hpages hforest hgrown, fun t ht i _ => ?_⟩
    rw [hother t fun htf => hunused t ht 0 0 (by rw [htf]; rfl)]

theorem slots_copy {memory : Buffer} (g : ℕ) (i : Fin 512) :
    slots (copy memory (f * 2 ^ 12 + 0x800) memory (r * 2 ^ 12 + 0x800) 0x800) g i =
      if g = f ∧ 256 ≤ i.val then slots memory r i else slots memory g i := by
  have hi := i.isLt
  rw [slots, entry]
  split_ifs with hcase
  · obtain ⟨rfl, hle⟩ := hcase
    rw [slots, entry]
    apply getLE_congr
    intro k hk
    rw [copy, if_pos (by omega)]
    exact congrArg memory (by omega)
  · rw [slots, entry]
    apply getLE_congr
    intro k hk
    rw [copy, if_neg (by omega)]

theorem initSystemSpace (h : Trees m roots) (hr : r ∈ roots) (hf : f ∈ roots) :
    Trees (Paging.initSystemSpace m (r * 2 ^ 12) (f * 2 ^ 12)) roots ∧
      ∀ t ∈ roots, ∀ i, slots (Paging.initSystemSpace m (r * 2 ^ 12) (f * 2 ^ 12)).memory t i =
        if t = f ∧ 256 ≤ i.val then slots m.memory r i else slots m.memory t i := by
  have hslots : ∀ t i, slots (Paging.initSystemSpace m (r * 2 ^ 12) (f * 2 ^ 12)).memory t i =
      if t = f ∧ 256 ≤ i.val then slots m.memory r i else slots m.memory t i := slots_copy
  refine ⟨?_, fun t _ => hslots t⟩
  by_cases hrf : r = f
  · have hsame : slots (Paging.initSystemSpace m (r * 2 ^ 12) (f * 2 ^ 12)).memory =
        slots m.memory := by
      funext t i
      rw [hslots]
      split_ifs with hcase
      · rw [hrf, hcase.1]
      · rfl
    refine ⟨?_, h.nodup, h.page, fun t ht b hb d q => ?_⟩
    · rw [hsame]
      exact h.forest
    · rw [tableOf, hsame]
      exact h.unused t ht b hb d q
  · obtain ⟨hforest, hgrown⟩ := h.forest.copy (U := fun i => 256 ≤ i.val) hf
      ⟨fun i hi => (hslots f i).trans (if_pos ⟨rfl, hi⟩),
        fun i hi => (hslots f i).trans (if_neg fun hc => hi hc.2),
        fun c hc => funext fun i => (hslots c i).trans (if_neg fun hcf => hc hcf.1)⟩ hr hrf
    refine ⟨hforest, h.nodup, h.page, fun t ht b hb d q hq => ?_⟩
    obtain ⟨t', ht', hold⟩ := hgrown t ht d q _ hq
    exact h.unused t' ht' b hb d q hold

end Trees

def Space.rootTables (s : Space) : Set ℕ := {r | r * 2 ^ 12 ∈ s.pageMaps}

/-- The page map of the kernel is there, and all page maps start at a page. -/
structure Space.Sound (kernelPageMap : ℕ) (s : Space) : Prop where
  trees : Trees s.machine s.rootTables
  aligned : ∀ q ∈ s.pageMaps, q % 2 ^ 12 = 0
  kernel : kernelPageMap ∈ s.pageMaps

/-- The kernel has a table for the address, and the page map has the same one. -/
structure Space.Common (kernelPageMap pageMap virtualAddress : ℕ) (s : Space) : Prop where
  present : present (pml4Entry s.machine.memory kernelPageMap virtualAddress) = true
  same : pml4Entry s.machine.memory pageMap virtualAddress =
    pml4Entry s.machine.memory kernelPageMap virtualAddress

/-- Only the page map of the kernel. -/
structure Space.Initial (kernelPageMap : ℕ) (s : Space) : Prop where
  pageMaps : s.pageMaps = [kernelPageMap]
  aligned : kernelPageMap % 2 ^ 12 = 0
  tree : Tree s.machine (kernelPageMap / 2 ^ 12)

namespace Space

variable {s s' : Space} {q v : ℕ}

theorem mem_rootTables : r ∈ s.rootTables ↔ r * 2 ^ 12 ∈ s.pageMaps := Iff.rfl

theorem Initial.sound (h : s.Initial kernelPageMap) : s.Sound kernelPageMap := by
  have hroots : s.rootTables = {kernelPageMap / 2 ^ 12} := by
    ext r
    have haligned := h.aligned
    rw [mem_rootTables, h.pageMaps, List.mem_singleton, Set.mem_singleton_iff]
    omega
  refine ⟨?_, ?_, ?_⟩
  · rw [hroots]
    refine ⟨⟨?_, ?_⟩, h.tree.nodup, h.tree.page, ?_⟩
    · rintro r rfl
      exact h.tree.separate
    · rintro r rfl t rfl hne
      exact absurd rfl hne
    · rintro r rfl
      exact h.tree.unused
  · intro q hq
    rw [h.pageMaps, List.mem_singleton] at hq
    rw [hq, h.aligned]
  · rw [h.pageMaps]
    exact List.mem_singleton_self _

theorem Sound.root (h : s.Sound kernelPageMap) (hq : q ∈ s.pageMaps) :
    q / 2 ^ 12 ∈ s.rootTables ∧ q / 2 ^ 12 * 2 ^ 12 = q := by
  have haligned := h.aligned q hq
  have heq : q / 2 ^ 12 * 2 ^ 12 = q := by omega
  refine ⟨?_, heq⟩
  rw [mem_rootTables, heq]
  exact hq

theorem Sound.pml4Entry (h : s.Sound kernelPageMap) (hq : q ∈ s.pageMaps) (memory : Buffer)
    (v : ℕ) :
    Paging.pml4Entry memory q v = slots memory (q / 2 ^ 12) (tableIndex 0 (v / 2 ^ 12)) := by
  have hindex : v / 2 ^ 39 % 512 = (tableIndex 0 (v / 2 ^ 12)).val := by
    simp only [tableIndex]
    omega
  rw [Paging.pml4Entry, slots, (h.root hq).2, hindex]

/-- What one call does to the entries that a page map has in common with the kernel. -/
structure Keeps (kernelPageMap : ℕ) (s s' : Space) : Prop where
  sound : s'.Sound kernelPageMap
  pageMaps : ∀ q ∈ s.pageMaps, q ∈ s'.pageMaps
  common : ∀ q ∈ s.pageMaps, ∀ v, InSystemSpace v → s.Common kernelPageMap q v →
    s'.Common kernelPageMap q v

theorem Sound.keeps_of_kept (h : s.Sound kernelPageMap) (hs' : s'.Sound kernelPageMap)
    (hmaps : ∀ q ∈ s.pageMaps, q ∈ s'.pageMaps)
    (hkept : EntriesKept s.machine s'.machine s.rootTables) :
    Keeps kernelPageMap s s' := by
  refine ⟨hs', hmaps, fun q hq v _ hc => ?_⟩
  have hp := hc.present
  have hsame := hc.same
  have hentry : ∀ q ∈ s.pageMaps, present (Paging.pml4Entry s.machine.memory q v) = true →
      Paging.pml4Entry s'.machine.memory q v = Paging.pml4Entry s.machine.memory q v := by
    intro q hq hp
    rw [h.pml4Entry hq] at hp ⊢
    rw [h.pml4Entry hq]
    apply hkept _ (h.root hq).1
    change nextTable 0 _ ≠ none
    rw [nextTable_of_present (by decide) hp fun h0 => by cases h0]
    exact Option.some_ne_none _
  have hkernel := hentry kernelPageMap h.kernel hp
  constructor
  · rw [hkernel, hp]
  · rw [hkernel, hentry q hq (by rw [hsame, hp]), hsame]

/-- The first call for a process makes the entries of the kernel common, and later ones keep
them. -/
theorem Sound.initSystemSpace (h : s.Sound kernelPageMap) (hq : q ∈ s.pageMaps)
    (hc : s.call kernelPageMap (.initSystemSpace q) = some s') :
    Keeps kernelPageMap s s' ∧ ∀ v, InSystemSpace v →
      present (Paging.pml4Entry s'.machine.memory kernelPageMap v) = true →
      s'.Common kernelPageMap q v := by
  cases hc
  obtain ⟨hr, hreq⟩ := h.root h.kernel
  obtain ⟨hf, hfeq⟩ := h.root hq
  obtain ⟨htrees, hslots⟩ := h.trees.initSystemSpace hr hf
  rw [hreq, hfeq] at htrees hslots
  have hsound : Sound kernelPageMap
      { s with machine := Paging.initSystemSpace s.machine kernelPageMap q } :=
    ⟨htrees, h.aligned, h.kernel⟩
  have hupper : ∀ v, InSystemSpace v → 256 ≤ (tableIndex 0 (v / 2 ^ 12)).val := by
    rintro v ⟨hv, hlt⟩
    simp only [tableIndex]
    omega
  have hkernel : ∀ v, Paging.pml4Entry
    (Paging.initSystemSpace s.machine kernelPageMap q).memory kernelPageMap v =
      Paging.pml4Entry s.machine.memory kernelPageMap v := by
    intro v
    rw [h.pml4Entry h.kernel, h.pml4Entry h.kernel, hslots _ hr, ite_self]
  have hnew : ∀ v, InSystemSpace v →
      Paging.pml4Entry (Paging.initSystemSpace s.machine kernelPageMap q).memory q v =
        Paging.pml4Entry s.machine.memory kernelPageMap v := by
    intro v hv
    rw [h.pml4Entry hq, h.pml4Entry h.kernel, hslots _ hf, if_pos ⟨rfl, hupper v hv⟩]
  refine ⟨⟨hsound, fun _ hm => hm, fun t ht v hv hc => ?_⟩, fun v hv hp => ⟨hp, ?_⟩⟩
  · refine ⟨?_, ?_⟩
    · rw [hkernel, hc.present]
    · by_cases htq : t = q
      · rw [htq, hnew v hv, hkernel]
      · have hne : t / 2 ^ 12 ≠ q / 2 ^ 12 := fun heq => htq (by rw [← (h.root ht).2, heq, hfeq])
        rw [hkernel, h.pml4Entry ht, hslots _ (h.root ht).1, if_neg fun hcase => hne hcase.1,
          ← h.pml4Entry ht, hc.same]
  · rw [hnew v hv, hkernel]

theorem Sound.call {c : SpaceCall} (h : s.Sound kernelPageMap) (ha : s.Allowed c)
    (hc : s.call kernelPageMap c = some s') : Keeps kernelPageMap s s' := by
  cases c with
  | createPageMap =>
    obtain ⟨⟨m, q⟩, hrun, rfl⟩ := Option.map_eq_some_iff.mp hc
    obtain ⟨hmod, htrees, hkept⟩ := h.trees.createPageMap hrun
    have hroots : rootTables ⟨m, q :: s.pageMaps⟩ = insert (q / 2 ^ 12) s.rootTables := by
      ext r
      rw [mem_rootTables, List.mem_cons, Set.mem_insert_iff, mem_rootTables]
      constructor
      · rintro (rfl | hr)
        · exact Or.inl (Nat.mul_div_cancel _ (by decide)).symm
        · exact Or.inr hr
      · rintro (rfl | hr)
        · exact Or.inl (by omega)
        · exact Or.inr hr
    refine h.keeps_of_kept ⟨?_, ?_, ?_⟩ (fun _ hm => List.mem_cons_of_mem _ hm) hkept
    · rw [hroots]
      exact htrees
    · intro t ht
      rcases List.mem_cons.mp ht with rfl | ht
      · exact hmod
      · exact h.aligned t ht
    · exact List.mem_cons_of_mem _ h.kernel
  | mapPhysicalPages q virtualAddress physicalAddress count flags =>
    obtain ⟨m, hrun, rfl⟩ := Option.map_eq_some_iff.mp hc
    obtain ⟨htrees, hkept⟩ := h.trees.mapPhysicalPages (h.root ha.1).1 ha.2 hrun
    exact h.keeps_of_kept ⟨htrees, h.aligned, h.kernel⟩ (fun _ hm => hm) hkept
  | initSystemSpace q => exact (h.initSystemSpace ha hc).1

theorem Sound.run (h : s.Sound kernelPageMap)
    (hr : Reaches (Space.call kernelPageMap) Allowed s s') :
    Keeps kernelPageMap s s' := by
  induction hr with
  | refl => exact ⟨h, fun _ hm => hm, fun _ _ _ _ hc => hc⟩
  | tail _ hst ih =>
    obtain ⟨c, ha, hc⟩ := hst
    have hnext := ih.sound.call ha hc
    exact ⟨hnext.sound, fun q hq => hnext.pageMaps q (ih.pageMaps q hq),
      fun q hq v hv hcommon => hnext.common q (ih.pageMaps q hq) v hv (ih.common q hq v hv hcommon)⟩

theorem Common.resolve (h : s.Sound kernelPageMap) (hq : q ∈ s.pageMaps)
    (hc : s.Common kernelPageMap q v) :
    keResolvePhysicalAddress s.machine.memory q v =
      keResolvePhysicalAddress s.machine.memory kernelPageMap v := by
  have hsame : slots s.machine.memory (q / 2 ^ 12) (tables.index 0 (v / 2 ^ 12)) =
      slots s.machine.memory (kernelPageMap / 2 ^ 12) (tables.index 0 (v / 2 ^ 12)) := by
    have hentry := hc.same
    rw [h.pml4Entry hq, h.pml4Entry h.kernel] at hentry
    exact hentry
  have h2 : entryOf s.machine.memory (q / 2 ^ 12) 2 (v / 2 ^ 12) =
      entryOf s.machine.memory (kernelPageMap / 2 ^ 12) 2 (v / 2 ^ 12) :=
      look_of_same (S := tables) hsame 1
  have h3 : entryOf s.machine.memory (q / 2 ^ 12) 3 (v / 2 ^ 12) =
      entryOf s.machine.memory (kernelPageMap / 2 ^ 12) 3 (v / 2 ^ 12) :=
      look_of_same (S := tables) hsame 2
  rw [keResolvePhysicalAddress_eq, keResolvePhysicalAddress_eq, translate, translate, h2, h3]

end Space

/-- Whatever page maps are created and mapped before and after: once `InitSystemSpace` was called
for a page map, every address of the system space for which the kernel had an entry then is the same
for the process and for the kernel. -/
theorem system_space_shared {s s₁ s₂ s₃ : Space} {v : ℕ} (h : s.Initial kernelPageMap)
    (hbefore : Reaches (Space.call kernelPageMap) Space.Allowed s s₁) (hq : pageMap ∈ s₁.pageMaps)
    (hinit : s₁.call kernelPageMap (.initSystemSpace pageMap) = some s₂)
    (hafter : Reaches (Space.call kernelPageMap) Space.Allowed s₂ s₃) (hv : InSystemSpace v)
    (hpresent : present (pml4Entry s₂.machine.memory kernelPageMap v) = true) :
    keResolvePhysicalAddress s₃.machine.memory pageMap v =
      keResolvePhysicalAddress s₃.machine.memory kernelPageMap v := by
  have hsound := (h.sound.run hbefore).sound
  obtain ⟨hkeeps, hcommon⟩ := hsound.initSystemSpace hq hinit
  have hq' := hkeeps.pageMaps pageMap hq
  have hrun := hkeeps.sound.run hafter
  exact (hrun.common pageMap hq' v hv (hcommon v hv hpresent)).resolve hrun.sound
    (hrun.pageMaps pageMap hq')

def firstProcess : Space := ⟨blankMachine [0x2000, 0x3000, 0x4000, 0x5000], [0x1000]⟩

theorem firstProcess_initial : firstProcess.Initial 0x1000 := by
  refine ⟨rfl, rfl, Tree.blank (by decide) (by decide) (by decide)⟩

/-- A second page of the image, which the kernel maps after the process was created. -/
def secondPage : Option (List ℕ × Bool × Option ℕ) :=
  (guardedRun (Space.call 0x1000) Space.Allowed firstProcess
    [.mapPhysicalPages 0x1000 0xFFFF800000080000 0x200000 1 pmPresent, .createPageMap]).bind
    fun s₁ =>
  (s₁.call 0x1000 (.initSystemSpace 0x5000)).bind fun s₂ =>
  (guardedRun (Space.call 0x1000) Space.Allowed s₂
    [.mapPhysicalPages 0x1000 0xFFFF800000081000 0x7000 1 pmPresent]).map fun s₃ =>
  (s₁.pageMaps, present (pml4Entry s₂.machine.memory 0x1000 0xFFFF800000081010),
    keResolvePhysicalAddress s₃.machine.memory 0x1000 0xFFFF800000081010)

theorem system_space_shared_second :
    ∃ s₁ s₂ s₃ : Space, s₁.call 0x1000 (.initSystemSpace 0x5000) = some s₂ ∧
    Reaches (Space.call 0x1000) Space.Allowed s₂ s₃ ∧
    keResolvePhysicalAddress s₃.machine.memory 0x5000 0xFFFF800000081010 = some 0x7010 := by
  have hrun : secondPage = some ([0x5000, 0x1000], true, some 0x7010) := by decide
  obtain ⟨s₁, h₁, hrun⟩ := Option.bind_eq_some_iff.mp hrun
  obtain ⟨s₂, h₂, hrun⟩ := Option.bind_eq_some_iff.mp hrun
  obtain ⟨s₃, h₃, hrun⟩ := Option.map_eq_some_iff.mp hrun
  simp only [Prod.mk.injEq] at hrun
  obtain ⟨hmaps, hpresent, hresolve⟩ := hrun
  have hq : 0x5000 ∈ s₁.pageMaps := by
    rw [hmaps]
    exact List.mem_cons_self
  refine ⟨s₁, s₂, s₃, h₂, reaches_of_guardedRun _ h₃, ?_⟩
  rw [system_space_shared firstProcess_initial (reaches_of_guardedRun _ h₁) hq h₂
    (reaches_of_guardedRun _ h₃)
    ⟨by decide, by decide⟩ hpresent]
  exact hresolve

end DevOs.Paging
