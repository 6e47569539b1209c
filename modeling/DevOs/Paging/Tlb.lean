import DevOs.Paging.Large
import Mathlib.Data.List.Nodup

/-!
# Stale translations

A changed entry takes effect when its page is invalidated or `CR3` is loaded. `MapPhysicalPages`
gives the number of a page to `__InvalidatePage`, not its address, and loads `CR3` only after many
pages. So a changed entry is seen only in a call for many pages, or for the first page alone.
-/

namespace DevOs.Paging

open Bytes Fields Radix

variable {m m' : Machine} {root pageMap p q x n e flags count virtualAddress physicalAddress : ℕ}
    {nx : Bool}

def canonicalAddress (page : ℕ) : ℕ :=
  if page % 2 ^ 36 < 2 ^ 35 then page % 2 ^ 36 * 2 ^ 12
    else page % 2 ^ 36 * 2 ^ 12 + (2 ^ 64 - 2 ^ 48)

def pageStart (flags page : ℕ) : ℕ := page / incVaddr flags * incVaddr flags

def InPage (flags page address : ℕ) : Prop :=
  canonicalAddress (pageStart flags page) ≤ address ∧
    address < canonicalAddress (pageStart flags page) + incVaddr flags * 2 ^ 12

def Event.Flushes (flags page : ℕ) : Event → Prop
  | .entry .. => False
  | .invalidatePage address => InPage flags page address
  | .setCr3 _ => True

def Flushed (flags : ℕ) : List Event → Prop
  | [] => True
  | .entry page before after :: l =>
    (before ≠ after → ∃ e ∈ l, e.Flushes flags page) ∧ Flushed flags l
  | .invalidatePage _ :: l => Flushed flags l
  | .setCr3 _ :: l => Flushed flags l

/-- After every call with the arguments all changed entries have taken effect. -/
def NoStaleTranslation (virtualAddress physicalAddress count flags : ℕ) : Prop :=
  ∀ m m' pageMap, mapPhysicalPages m pageMap virtualAddress physicalAddress count flags = some m' →
    Flushed flags (m'.trace.drop m.trace.length)

theorem Flushed.suffix {l l' : List Event} (h : Flushed flags (l ++ l')) : Flushed flags l' := by
  induction l with
  | nil => exact h
  | cons e l ih =>
    cases e with
    | entry => exact ih h.2
    | invalidatePage => exact ih h
    | setCr3 => exact ih h

theorem flushed_setCr3 (flags v : ℕ) (l : List Event) : Flushed flags (l ++ [.setCr3 v]) := by
  induction l with
  | nil => trivial
  | cons e l ih =>
    cases e with
    | entry =>
        exact ⟨fun _ => ⟨.setCr3 v, List.mem_append_right _ (List.mem_singleton_self _), trivial⟩,
          ih⟩
    | invalidatePage => exact ih
    | setCr3 => exact ih

theorem openTable_trace {table i t : ℕ} (h : openTable m table i = some (m', t)) :
    m'.trace = m.trace := by
  rw [openTable] at h
  split_ifs at h
  · cases h
    rfl
  · split at h
    · cases h
    · split_ifs at h
      cases h
      rfl

theorem mapEntry_trace (h : mapEntry m pageMap p x flags = some m') :
    ∃ before after, m'.trace = m.trace ++ [.entry p before after] := by
  obtain ⟨⟨m₁, t₁⟩, h₁, h⟩ := Option.bind_eq_some_iff.mp h
  obtain ⟨⟨m₂, t₂⟩, h₂, h⟩ := Option.bind_eq_some_iff.mp h
  have htrace := (openTable_trace h₂).trans (openTable_trace h₁)
  split_ifs at h
  · cases h
    exact ⟨_, _, congrArg (· ++ [_]) htrace⟩
  · obtain ⟨⟨m₃, t₃⟩, h₃, rfl⟩ := Option.map_eq_some_iff.mp h
    exact ⟨_, _, congrArg (· ++ [_]) ((openTable_trace h₃).trans htrace)⟩

theorem mapPage_trace (hflags : has flags pmNoTlbInvalidation = false)
    (h : mapPage m pageMap p x count flags = some m') :
    ∃ m₁, mapEntry m pageMap p x flags = some m₁ ∧
      m' = { m₁ with trace := m₁.trace ++ [.invalidatePage p] } := by
  obtain ⟨m₁, hm₁, rfl⟩ := Option.map_eq_some_iff.mp h
  refine ⟨m₁, hm₁, ?_⟩
  rw [hflags, Bool.not_false, Bool.or_true, if_pos rfl]

theorem mapLoop_trace (hflags : has flags pmNoTlbInvalidation = false)
    (h : mapLoop pageMap count flags n m p x = some m') : ∃ l, m'.trace = m.trace ++ l := by
  induction n generalizing m p x with
  | zero =>
    cases h
    exact ⟨[], (List.append_nil _).symm⟩
  | succ n ih =>
    obtain ⟨m₁, hpage, h⟩ := Option.bind_eq_some_iff.mp h
    obtain ⟨m₂, hentry, rfl⟩ := mapPage_trace hflags hpage
    obtain ⟨before, after, htrace⟩ := mapEntry_trace hentry
    obtain ⟨l, hl⟩ := ih h
    exact ⟨[.entry p before after, .invalidatePage p] ++ l, by rw [hl]; simp [htrace]⟩

/-- The entry of a page is not zero: a page that is not writable is not cached. -/
theorem setPhysicalAddr_modelEntry_ne_zero (nx : Bool) (flags x : ℕ) :
    setPhysicalAddr (modelEntry nx flags) x ≠ 0 := by
  intro h
  have hfield (d v : ℕ) : field d v (setPhysicalAddr (modelEntry nx flags) x) = 0 := by
    rw [h, field_zero]
  by_cases hw : has flags pmReadWrite = true
  · have h1 := hfield 1 1
    rw [setPhysicalAddr, field_setField_of_ge (by decide), modelEntry,
      setWhen_eq (field 1 1) setSizePat (fun e => field_setField_of_ge (by decide)),
      field_setCaching (by decide),
      setWhen_eq (field 1 1) setGlobal (fun e => field_setField_of_ge (by decide)),
      setWhen_eq (field 1 1) setExecuteDisable (fun e => field_setField_of_ge (by decide)),
      setWhen_eq (field 1 1) setUserSupervisor (fun e => field_setField_of_ge (by decide)),
      setAccess,
      if_pos hw, setReadWrite, field_setField_self] at h1
    cases h1
  · have hcaching (e : ℕ) (he : field 3 1 e = 1) : field 3 1 (setCaching flags e) = 1 := by
      rw [setCaching]
      split_ifs
      · rw [setPhysicalAddr, field_setField_of_ge (by decide), he]
      · rw [setSizePat, field_setField_of_ge (by decide), he]
      · rw [setPcd, field_setField_of_ge (by decide), he]
      · exact field_setField_self 3 1 1 e
      · exact he
    have h3 := hfield 3 1
    rw [setPhysicalAddr, field_setField_of_ge (by decide), modelEntry,
      setWhen_eq (field 3 1) setSizePat (fun e => field_setField_of_ge (by decide)), hcaching] at h3
    · cases h3
    · rw [setWhen_eq (field 3 1) setGlobal (fun e => field_setField_of_ge (by decide)),
        setWhen_eq (field 3 1) setExecuteDisable (fun e => field_setField_of_ge (by decide)),
        setWhen_eq (field 3 1) setUserSupervisor (fun e => field_setField_of_le (by decide)),
        setAccess,
        if_neg hw, setPcd, setPwt, field_setField_of_ge (by decide)]
      exact field_setField_self 3 1 1 _

def leafDepth (flags : ℕ) : ℕ := if has flags pmLargePages then 2 else 3

def leafEntry (m : Machine) (root flags p : ℕ) : ℕ := entryOf m.memory root (leafDepth flags) p

/-- No size bit of a page directory is set, when pages of `2 ^ 12` bytes are mapped. -/
def NoSizeBit (m : Machine) (root flags : ℕ) : Prop :=
  has flags pmLargePages = false → ∀ q, sizePat (entryOf m.memory root 2 q) = false

theorem Tree.mapEntry_leaf (h : Tree m (pageMap / 2 ^ 12))
    (hs : NoSizeBit m (pageMap / 2 ^ 12) flags) (hrun : mapEntry m pageMap p x flags = some m') :
    Tree m' (pageMap / 2 ^ 12) ∧ NoSizeBit m' (pageMap / 2 ^ 12) flags ∧
      (∀ q, p / incVaddr flags % (2 ^ 36 / incVaddr flags) ≠
        q / incVaddr flags % (2 ^ 36 / incVaddr flags) →
        leafEntry m' (pageMap / 2 ^ 12) flags q = leafEntry m (pageMap / 2 ^ 12) flags q) ∧
      ∃ after, after ≠ 0 ∧
      m'.trace = m.trace ++ [.entry p (leafEntry m (pageMap / 2 ^ 12) flags p) after] := by
  cases hflags : has flags pmLargePages with
  | false =>
    have hdepth : leafDepth flags = 3 := by rw [leafDepth, hflags]; rfl
    have hinc : incVaddr flags = 1 := by rw [incVaddr, hflags]; rfl
    have hw := h.written hflags (hs hflags p) hrun
    refine ⟨hw.tree, fun _ q => (hw.size q).trans (hs hflags q), fun q hq => ?_, _,
      setPhysicalAddr_modelEntry_ne_zero m.nx flags x, ?_⟩
    · rw [leafEntry, leafEntry, hdepth]
      rw [hinc] at hq
      exact hw.other q (by omega)
    · rw [leafEntry, hdepth]
      exact hw.trace
  | true =>
    have hdepth : leafDepth flags = 2 := by rw [leafDepth, hflags]; rfl
    have hinc : incVaddr flags = 512 := by rw [incVaddr, hflags]; rfl
    have hw := h.writtenLarge hflags hrun
    refine ⟨hw.tree, fun hf => absurd (hflags.symm.trans hf) (by decide), fun q hq => ?_, _,
      setPhysicalAddr_modelEntry_ne_zero m.nx flags
      (x ||| physicalAddr (modelEntry m.nx flags)), ?_⟩
    · rw [leafEntry, leafEntry, hdepth]
      rw [hinc] at hq
      exact hw.other q (by omega)
    · rw [leafEntry, hdepth]
      exact hw.trace

theorem incVaddr_cases (flags : ℕ) : incVaddr flags = 1 ∨ incVaddr flags = 512 := by
  rw [incVaddr]
  split_ifs
  · exact Or.inr rfl
  · exact Or.inl rfl

theorem Tree.mapLoop_last (h : Tree m (pageMap / 2 ^ 12))
    (hs : NoSizeBit m (pageMap / 2 ^ 12) flags) (htlb : has flags pmNoTlbInvalidation = false)
    (hn : n < 2 ^ 27) (hp : p + incVaddr flags * n < 2 ^ 64)
    (hrun : mapLoop pageMap count flags (n + 1) m p x = some m') :
    ∃ l after, after ≠ 0 ∧ m'.trace = m.trace ++ l ++
      [.entry (p + incVaddr flags * n)
        (leafEntry m (pageMap / 2 ^ 12) flags (p + incVaddr flags * n)) after,
        .invalidatePage (p + incVaddr flags * n)] := by
  have hinc := incVaddr_cases flags
  induction n generalizing m p x with
  | zero =>
    obtain ⟨m₁, hpage, hrun⟩ := Option.bind_eq_some_iff.mp hrun
    cases hrun
    obtain ⟨m₂, hentry, rfl⟩ := mapPage_trace htlb hpage
    obtain ⟨-, -, -, after, hne, htrace⟩ := h.mapEntry_leaf hs hentry
    refine ⟨[], after, hne, ?_⟩
    rw [Nat.mul_zero, Nat.add_zero, htrace]
    simp
  | succ n ih =>
    obtain ⟨m₁, hpage, hrun⟩ := Option.bind_eq_some_iff.mp hrun
    obtain ⟨m₂, hentry, rfl⟩ := mapPage_trace htlb hpage
    obtain ⟨htree, hsize, hother, after, -, htrace⟩ := h.mapEntry_leaf hs hentry
    rw [Nat.mul_succ] at hp
    have hnext : u64 (p + incVaddr flags) = p + incVaddr flags := Nat.mod_eq_of_lt (by omega)
    have hlast : p + incVaddr flags + incVaddr flags * n = p + incVaddr flags * (n + 1) := by
      rw [Nat.mul_succ]
      omega
    rw [hnext] at hrun
    have hbound : p + incVaddr flags + incVaddr flags * n < 2 ^ 64 := by omega
    have hrest := ih (p := p + incVaddr flags) (x := u64 (x + incVaddr flags))
      (htree.withTrace (m₂.trace ++ [.invalidatePage p])) hsize (by omega) hbound
    obtain ⟨l, after', hne, hl⟩ := hrest hrun
    rw [hlast] at hl
    refine ⟨[.entry p (leafEntry m (pageMap / 2 ^ 12) flags p) after, .invalidatePage p] ++ l,
      after', hne, ?_⟩
    rw [hl, ← hother (p + incVaddr flags * (n + 1))]
    · simp [htrace, leafEntry]
    · rcases hinc with hinc | hinc <;> rw [hinc] <;> omega

theorem mapPhysicalPages_small (hcount : count ≤ 0x2000)
    (h : mapPhysicalPages m pageMap virtualAddress physicalAddress count flags = some m') :
    mapLoop pageMap count flags count m (firstPage virtualAddress) (physicalAddress / 2 ^ 12) =
      some m' := by
  obtain ⟨m₁, hm₁, rfl⟩ := Option.map_eq_some_iff.mp h
  rw [if_neg (by simp [Nat.not_lt.mpr hcount])]
  exact hm₁

/-- The number of a page, in the lower half, in the upper half or just behind it, is an address in
the page only when the page is the first one. -/
theorem inPage_iff (hp : p < 2 ^ 36 ∨ 2 ^ 36 + 2 ^ 35 ≤ p ∧ p < 2 ^ 37 + 2 ^ 23) :
    InPage flags p p ↔ p < incVaddr flags := by
  have hstart : pageStart flags p ≤ p ∧ p < pageStart flags p + incVaddr flags ∧
      pageStart flags p % incVaddr flags = 0 := by
    rw [pageStart]
    rcases incVaddr_cases flags with hinc | hinc <;> rw [hinc] <;> omega
  rw [InPage, canonicalAddress]
  generalize pageStart flags p = s at hstart
  have hinc := incVaddr_cases flags
  generalize incVaddr flags = inc at hstart hinc
  rcases hp with hlow | ⟨hhigh, hlt⟩
  · rw [Nat.mod_eq_of_lt (show s < 2 ^ 36 by omega)]
    split_ifs <;> rcases hinc with rfl | rfl <;> omega
  · have hmod : s % 2 ^ 36 = s - 2 ^ 36 ∧ 2 ^ 36 + 2 ^ 35 ≤ s ∨ s % 2 ^ 36 = s - 2 ^ 37 ∧
        2 ^ 37 ≤ s := by
      rcases hinc with rfl | rfl <;> omega
    rcases hmod with ⟨hmod, hle⟩ | ⟨hmod, hle⟩
    · rw [hmod]
      split_ifs <;> omega
    · rw [hmod]
      split_ifs <;> omega

/-- Enough free pages for every call that does not load `CR3`. -/
def freePages : List ℕ := (List.range 0x6000).map (fun k => (k + 2) * 2 ^ 12)

theorem tree_freePages : Tree (blankMachine freePages) 1 := by
  refine Tree.blank ?_ (fun a ha => ?_) (fun h => ?_)
  · refine List.Nodup.map (fun i j hij => ?_) List.nodup_range
    change (i + 2) * 2 ^ 12 = (j + 2) * 2 ^ 12 at hij
    omega
  · obtain ⟨k, hk, rfl⟩ := List.mem_map.mp ha
    have := List.mem_range.mp hk
    omega
  · obtain ⟨k, hk, heq⟩ := List.mem_map.mp h
    omega

theorem mapLoop_blank (count flags p x : ℕ) (hn : n ≤ 0x2000) :
    ∃ m', mapLoop 0x1000 count flags n (blankMachine freePages) p x = some m' := by
  have hlen : (blankMachine freePages).pages.length = 0x6000 := by
    rw [blankMachine, freePages, List.length_map, List.length_range]
  cases hflags : has flags pmLargePages with
  | false =>
    exact tree_freePages.mapLoop_returns count hflags
      (fun i _ => by rw [blankMachine, entryOf_blank]; rfl) (by omega)
  | true => exact tree_freePages.mapLoop_large_returns count hflags (by omega)

/-- A call makes no stale translation exactly when it maps nothing, loads `CR3`, or maps the first
page alone. -/
theorem no_stale_translation_iff (hva : Canonical virtualAddress)
    (htlb : has flags pmNoTlbInvalidation = false) (hcr3 : has flags pmNoCr3Reload = false) :
    NoStaleTranslation virtualAddress physicalAddress count flags ↔
      count = 0 ∨ 0x2000 < count ∨ count = 1 ∧ virtualAddress < incVaddr flags * 2 ^ 12 := by
  have hfirst : firstPage virtualAddress < 2 ^ 35 ∨
      2 ^ 36 + 2 ^ 35 ≤ firstPage virtualAddress ∧ firstPage virtualAddress < 2 ^ 37 := by
    rw [Canonical] at hva
    rw [firstPage, marked]
    split_ifs <;> omega
  have hlow : firstPage virtualAddress = virtualAddress / 2 ^ 12 ∨
      2 ^ 36 ≤ firstPage virtualAddress ∧ 2 ^ 47 ≤ virtualAddress := by
    rw [firstPage, marked]
    split_ifs <;> omega
  have hinc := incVaddr_cases flags
  constructor
  · intro hno
    rcases Nat.lt_or_ge 0x2000 count with hlt | hle
    · exact Or.inr (Or.inl hlt)
    rcases count with _ | n
    · exact Or.inl rfl
    obtain ⟨m', hloop⟩ := mapLoop_blank (n + 1) flags (firstPage virtualAddress)
      (physicalAddress / 2 ^ 12) hle
    have hrun : mapPhysicalPages (blankMachine freePages) 0x1000 virtualAddress physicalAddress
      (n + 1) flags =
        some m' := by
      rw [firstPage] at hloop
      rw [mapPhysicalPages, hloop, Option.map_some, if_neg (by simp [Nat.not_lt.mpr hle])]
    have hflush := hno _ _ _ hrun
    have hsize : NoSizeBit (blankMachine freePages) (0x1000 / 2 ^ 12) flags := fun _ q => by
      rw [blankMachine, entryOf_blank]
      rfl
    have hlast : firstPage virtualAddress + incVaddr flags * n < 2 ^ 37 + 2 ^ 23 := by
      rcases hinc with hinc | hinc <;> rw [hinc] <;> omega
    obtain ⟨l, after, hne, htrace⟩ :=
      Tree.mapLoop_last tree_freePages hsize htlb (by omega) (by omega) hloop
    rw [htrace] at hflush
    obtain ⟨e, he, hin⟩ := (Flushed.suffix hflush).1 (by
      rw [leafEntry, blankMachine, entryOf_blank]
      exact hne.symm)
    rw [List.mem_singleton.mp he] at hin
    have hlt := (inPage_iff (by
      rcases hinc with hinc | hinc <;> rw [hinc] at hlast ⊢ <;> omega)).mp hin
    refine Or.inr (Or.inr ?_)
    rcases hinc with hinc | hinc <;> rw [hinc] at hlt ⊢ <;> omega
  · rintro (rfl | hlt | ⟨rfl, hlt⟩) m m' pageMap hrun
    · cases mapPhysicalPages_small (by decide) hrun
      rw [List.drop_length]
      trivial
    · obtain ⟨m₁, hm₁, rfl⟩ := Option.map_eq_some_iff.mp hrun
      obtain ⟨l, hl⟩ := mapLoop_trace htlb hm₁
      rw [if_pos (by simp [hlt, hcr3])]
      dsimp only
      rw [hl, List.append_assoc, List.drop_left]
      exact flushed_setCr3 ..
    · have hloop := mapPhysicalPages_small (by decide) hrun
      obtain ⟨m₁, hpage, hend⟩ := Option.bind_eq_some_iff.mp hloop
      cases hend
      obtain ⟨m₂, hentry, rfl⟩ := mapPage_trace htlb hpage
      obtain ⟨before, after, htrace⟩ := mapEntry_trace hentry
      dsimp only
      rw [htrace, List.append_assoc, List.drop_left]
      refine ⟨fun _ => ⟨_, List.mem_singleton_self _, ?_⟩, trivial⟩
      refine (inPage_iff (by omega)).mpr ?_
      rcases hinc with hinc | hinc <;> rw [hinc] at hlt ⊢ <;> omega

/-- The page at the address `0` is mapped. -/
theorem no_stale_translation_first : NoStaleTranslation 0 0x5000 1 pmPresent :=
  (no_stale_translation_iff (Or.inl (by decide)) (by decide) (by decide)).mpr
    (Or.inr (Or.inr ⟨rfl, by decide⟩))

/-- The page behind it is mapped, and the page at the address `0` is invalidated. -/
theorem stale_translation : ¬ NoStaleTranslation 0x1000 0x5000 1 pmPresent := by
  intro hno
  obtain ⟨m', hm'⟩ : ∃ m', mapPhysicalPages
    (blankMachine [0x2000, 0x3000, 0x4000]) 0x1000 0x1000 0x5000 1
      pmPresent = some m' := Option.isSome_iff_exists.mp (by decide)
  have htrace : m'.trace = [.entry 1 0 0x5019, .invalidatePage 1] :=
    Runs.eq_of_map Machine.trace hm' (by decide)
  have hflush := hno _ _ _ hm'
  rw [htrace] at hflush
  obtain ⟨e, he, hin⟩ := hflush.1 (by decide)
  rw [List.mem_singleton.mp he] at hin
  exact absurd hin.1 (by decide)

end DevOs.Paging
