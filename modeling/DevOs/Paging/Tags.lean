import DevOs.Paging.Available

/-!
# Page maps with a tag

`ProcessContextIdAllocate` puts a tag into the low bits of a page map. `KeResolvePhysicalAddress`
and `MapPhysicalPages` take it off, and `VirtualFindAvailableMemory` does not: it reads the page map
at another place.
-/

namespace DevOs.Paging

open Bytes Fields Holes

variable {memory : Buffer} {pageMap tag virtualStart virtualEnd numPages p v : ℕ}

theorem processContextIdAllocate_tag (l : PcidList) (hroot : pageMap % 2 ^ 12 = 0) :
    ∃ tag ≤ maxPcid, (processContextIdAllocate l pageMap).2.1 = pageMap + tag := by
  rw [processContextIdAllocate]
  split_ifs with hoff hfull
  · exact ⟨0, Nat.zero_le _, rfl⟩
  · exact ⟨0, Nat.zero_le _, rfl⟩
  · cases hfind : (List.range maxPcid).find? (fun i => !l.tokens i) with
    | none => exact ⟨0, Nat.zero_le _, rfl⟩
    | some i =>
      have hlt : i < maxPcid := List.mem_range.mp (List.mem_of_find?_eq_some hfind)
      have hor := Nat.two_pow_add_eq_or_of_lt (show i + 1 < 2 ^ 12 from Nat.succ_lt_succ hlt)
        (pageMap / 2 ^ 12)
      rw [Nat.mul_div_cancel' (Nat.dvd_of_mod_eq_zero hroot)] at hor
      exact ⟨i + 1, hlt, hor.symm⟩

section Untagged

variable (hroot : pageMap % 2 ^ 12 = 0) (htag : tag ≤ 0xFFF)

include hroot htag

theorem untagged_tag : untagged (pageMap + tag) = untagged pageMap := by
  rw [untagged, untagged]
  omega

theorem keResolvePhysicalAddress_tag (memory : Buffer) (v : ℕ) :
    keResolvePhysicalAddress memory (pageMap + tag) v =
      keResolvePhysicalAddress memory pageMap v := by
  rw [keResolvePhysicalAddress, keResolvePhysicalAddress, untagged_tag hroot htag]

theorem mapPage_tag (m : Machine) (page frame count flags : ℕ) :
    mapPage m (pageMap + tag) page frame count flags =
      mapPage m pageMap page frame count flags := by
  rw [mapPage, mapPage, mapEntry, mapEntry, untagged_tag hroot htag]

theorem mapLoop_tag (count flags n : ℕ) (m : Machine) (page frame : ℕ) :
    mapLoop (pageMap + tag) count flags n m page frame =
      mapLoop pageMap count flags n m page frame := by
  induction n generalizing m page frame with
  | zero => rfl
  | succ n ih =>
    rw [mapLoop, mapLoop, mapPage_tag hroot htag]
    congr 1
    funext m'
    exact ih m' _ _

end Untagged

def tablesAfter (m : Machine) (pageMap virtualAddress physicalAddress count flags : ℕ) :
    Option (Buffer × List ℕ) :=
  (mapPhysicalPages m pageMap virtualAddress physicalAddress count flags).map fun m =>
    (m.memory, m.pages)

theorem tablesAfter_tag (hroot : pageMap % 2 ^ 12 = 0) (htag : tag ≤ 0xFFF) (m : Machine)
    (virtualAddress physicalAddress count flags : ℕ) :
    tablesAfter m (pageMap + tag) virtualAddress physicalAddress count flags =
      tablesAfter m pageMap virtualAddress physicalAddress count flags := by
  rw [tablesAfter, tablesAfter, mapPhysicalPages, mapPhysicalPages, mapLoop_tag hroot htag,
    Option.map_map, Option.map_map]
  congr 1
  funext m'
  dsimp only [Function.comp_apply]
  split_ifs <;> rfl

/-- A tag does not change what the three functions do, and the search returns free pages. -/
structure TagIgnored (tag virtualStart : ℕ) : Prop where
  resolve : ∀ memory pageMap v, pageMap % 2 ^ 12 = 0 →
    keResolvePhysicalAddress memory (pageMap + tag) v = keResolvePhysicalAddress memory pageMap v
  map : ∀ m pageMap virtualAddress physicalAddress count flags, pageMap % 2 ^ 12 = 0 →
    tablesAfter m (pageMap + tag) virtualAddress physicalAddress count flags =
      tablesAfter m pageMap virtualAddress physicalAddress count flags
  find : ∀ memory pageMap virtualEnd numPages, pageMap % 2 ^ 12 = 0 → Canonical virtualEnd →
    virtualFindAvailableMemory memory (pageMap + tag) virtualStart virtualEnd numPages =
      virtualFindAvailableMemory memory pageMap virtualStart virtualEnd numPages
  free : ∀ memory pageMap virtualEnd numPages address, pageMap % 2 ^ 12 = 0 → Canonical virtualEnd →
    virtualFindAvailableMemory memory (pageMap + tag) virtualStart virtualEnd numPages = address →
      address ≠ 0 → Unmapped memory (pageMap + tag) address numPages

theorem entry_setEntry_self {table i e : ℕ} (he : e < 2 ^ 64) :
    entry (setEntry memory table i e) table i = e := by
  rw [entry, setEntry, getLE_setLE_self]
  exact Nat.mod_eq_of_lt he

theorem entry_setEntry_of_disjoint {table table' i j e : ℕ}
    (h : table + 8 * i + 8 ≤ table' + 8 * j ∨ table' + 8 * j + 8 ≤ table + 8 * i) :
    entry (setEntry memory table' j e) table i = entry memory table i := by
  rw [entry, setEntry, getLE_setLE_of_disjoint _ h, entry]

theorem oneMapped_entries (p : ℕ) : entry (oneMapped p) 0x10000 (p / 2 ^ 27 % 512) = 0x1001 ∧
    entry (oneMapped p) 0x1000 (p / 2 ^ 18 % 512) = 0x2001 ∧
    entry (oneMapped p) 0x2000 (p / 2 ^ 9 % 512) = 0x3001 ∧
    entry (oneMapped p) 0x3000 (p % 512) = 0x4001 := by
  have h0 := Nat.mod_lt (p / 2 ^ 27) (show 0 < 512 by decide)
  have h1 := Nat.mod_lt (p / 2 ^ 18) (show 0 < 512 by decide)
  have h2 := Nat.mod_lt (p / 2 ^ 9) (show 0 < 512 by decide)
  have h3 := Nat.mod_lt p (show 0 < 512 by decide)
  rw [oneMapped]
  generalize p / 2 ^ 27 % 512 = i0 at *
  generalize p / 2 ^ 18 % 512 = i1 at *
  generalize p / 2 ^ 9 % 512 = i2 at *
  generalize p % 512 = i3 at *
  refine ⟨entry_setEntry_self (by decide), ?_, ?_, ?_⟩
  · rw [entry_setEntry_of_disjoint (by omega), entry_setEntry_self (by decide)]
  · rw [entry_setEntry_of_disjoint (by omega), entry_setEntry_of_disjoint (by omega),
      entry_setEntry_self (by decide)]
  · rw [entry_setEntry_of_disjoint (by omega), entry_setEntry_of_disjoint (by omega),
      entry_setEntry_of_disjoint (by omega), entry_setEntry_self (by decide)]

theorem oneMapped_not_free (p : ℕ) : ¬ Free (oneMapped p) 0x10000 p := by
  obtain ⟨h0, h1, h2, h3⟩ := oneMapped_entries p
  have e0 : entryFrom (oneMapped p) 0x10000 0 p = 0x1001 := h0
  have e1 : entryFrom (oneMapped p) 0x10000 1 p = 0x2001 := by
    rw [entryFrom, e0]
    exact h1
  have e2 : entryFrom (oneMapped p) 0x10000 2 p = 0x3001 := by
    rw [entryFrom, e1]
    exact h2
  have e3 : entryFrom (oneMapped p) 0x10000 3 p = 0x4001 := by
    rw [entryFrom, e2]
    have hi : (tableIndex 3 p : ℕ) = p % 512 := by simp [tableIndex]
    exact (congrArg (entry (oneMapped p) 0x3000) hi).trans h3
  rw [Free, translateFrom, e2, e3]
  decide

theorem present_entry (memory : Buffer) (table i : ℕ) :
    present (entry memory table i) = ((memory (table + 8 * i)).toNat % 2 == 1) := by
  rw [present, entry, getLE, field]
  congr 1
  omega

theorem oneMapped_tag (p : ℕ) (hpos : 0 < tag) (htag : tag ≤ 0xFFF) :
    nextTable 0 (entryFrom (oneMapped p) (0x10000 + tag) 0 p) = none := by
  apply nextTable_of_not_present
  change present (entry (oneMapped p) (0x10000 + tag) (p / 2 ^ 27 % 512)) = false
  have h0 := Nat.mod_lt (p / 2 ^ 27) (show 0 < 512 by decide)
  have h1 := Nat.mod_lt (p / 2 ^ 18) (show 0 < 512 by decide)
  have h2 := Nat.mod_lt (p / 2 ^ 9) (show 0 < 512 by decide)
  have h3 := Nat.mod_lt p (show 0 < 512 by decide)
  rw [present_entry, oneMapped]
  generalize p / 2 ^ 27 % 512 = i0 at *
  generalize p / 2 ^ 18 % 512 = i1 at *
  generalize p / 2 ^ 9 % 512 = i2 at *
  generalize p % 512 = i3 at *
  by_cases hin : tag < 8
  · have hoff : 0x10000 + tag + 8 * i0 - (0x10000 + 8 * i0) = tag := by omega
    rw [setEntry, setLE, if_pos (by omega), hoff]
    obtain rfl | hlarge : tag = 1 ∨ 2 ≤ tag := by omega
    · rfl
    · have hzero : 0x1001 / 256 ^ tag = 0 :=
        Nat.div_eq_of_lt (Nat.lt_of_lt_of_le (by decide) (Nat.pow_le_pow_right (by decide) hlarge))
      rw [hzero]
      rfl
  · rw [setEntry, setLE_of_not_mem _ (by omega), setEntry, setLE_of_not_mem _ (by omega), setEntry,
      setLE_of_not_mem _ (by omega), setEntry, setLE_of_not_mem _ (by omega)]
    rfl

theorem oneMapped_tag_free (p : ℕ) (hpos : 0 < tag) (htag : tag ≤ 0xFFF) :
    FreeRun (Free (oneMapped p) (0x10000 + tag)) p 1 := by
  intro q hq hlt
  obtain rfl : p = q := by omega
  exact free_of_none (by decide) (oneMapped_tag p hpos htag)

theorem find_tag_ne (hs : Canonical virtualStart) (hpos : 0 < tag) (htag : tag ≤ 0xFFF)
    (hstart : 0x1000 ≤ virtualStart) :
    virtualFindAvailableMemory (oneMapped (pageOf virtualStart))
      (0x10000 + tag) virtualStart virtualStart 1 ≠
      virtualFindAvailableMemory
        (oneMapped (pageOf virtualStart)) 0x10000 virtualStart virtualStart 1 := by
  have hfirst := hs.pageOf_pos hstart
  have hplain : virtualFindAvailableMemory
    (oneMapped (pageOf virtualStart)) 0x10000 virtualStart virtualStart 1 =
      0 := by
    rcases virtualFindAvailableMemory_spec
      (oneMapped (pageOf virtualStart)) 0x10000 Nat.one_pos hs hs
      (Nat.le_refl _) with ⟨p, hans⟩ | ⟨hzero, -⟩
    · have heq : p = pageOf virtualStart := Nat.le_antisymm hans.le_last hans.first.le
      exact absurd (hans.first.run p (Nat.le_refl p) (Nat.lt_succ_self p))
        (heq ▸ oneMapped_not_free p)
    · exact hzero
  rw [hplain]
  have hfree := oneMapped_tag_free (pageOf virtualStart) hpos htag
  rcases virtualFindAvailableMemory_spec (oneMapped (pageOf virtualStart))
    (0x10000 + tag) Nat.one_pos hs hs
    (Nat.le_refl _) with ⟨p, hans⟩ | ⟨-, hnone⟩
  · have hge := hans.first.le
    have haddress := addressOf_pos (show 0 < p by omega)
    rw [hans.eq, shown, if_neg (by omega)]
    omega
  · exact absurd hfree (hnone _ (Nat.le_refl _) (lt_blockEnd _ _ _))

theorem find_first_page (memory : Buffer) (pageMap numPages : ℕ) (hs : virtualStart < 0x1000)
    (hle : virtualStart ≤ virtualEnd) :
    virtualFindAvailableMemory memory pageMap virtualStart virtualEnd numPages =
      virtualFindAvailableMemory memory pageMap 0 virtualEnd numPages := by
  have hfirst : marked virtualStart / 2 ^ 12 = marked 0 / 2 ^ 12 := by
    rw [marked, if_neg (by omega), Nat.div_eq_of_lt (by omega)]
    rfl
  have hcond : (virtualEnd < virtualStart ∨ numPages = 0) = (virtualEnd < 0 ∨ numPages = 0) :=
    propext (by omega)
  rw [virtualFindAvailableMemory, virtualFindAvailableMemory, hfirst]
  simp only [hcond]

theorem find_tag_zero (hpos : 0 < tag) (htag : tag ≤ 0xFFF) :
    virtualFindAvailableMemory (oneMapped 0) (0x10000 + tag) 0 0x1FFF 1 = 0 := by
  have hfree := oneMapped_tag_free 0 hpos htag
  have hs : Canonical 0 := Or.inl (by decide)
  have he : Canonical 0x1FFF := Or.inl (by decide)
  rcases virtualFindAvailableMemory_spec (oneMapped 0) (0x10000 + tag) Nat.one_pos hs he
      (Nat.zero_le _) with
    ⟨p, hans⟩ | ⟨hzero, -⟩
  · obtain rfl : p = 0 := by
      by_contra hp
      exact hans.first.least 0 (Nat.zero_le _) (Nat.pos_of_ne_zero hp) hfree
    rw [hans.eq, shown, if_pos rfl, if_pos (Nat.succ_le_of_lt (lt_blockEnd _ _ 0)), addressOf_zero]
  · exact hzero

/-- A tag is ignored exactly when there is none, and the search does not begin at page `0`. -/
theorem tag_ignored_iff (htag : tag ≤ 0xFFF) (hs : Canonical virtualStart) :
    TagIgnored tag virtualStart ↔ tag = 0 ∧ 0x1000 ≤ virtualStart := by
  constructor
  · intro h
    rcases Nat.lt_or_ge virtualStart 0x1000 with hlow | hstart
    · exfalso
      rcases Nat.eq_zero_or_pos tag with rfl | hpos
      · have hfind : virtualFindAvailableMemory (oneMapped 2) 0x10000 virtualStart 0x2FFF 2 =
            0x1000 := by
          rw [find_first_page _ _ _ hlow (by omega)]
          decide
        have hfree := h.free _ _ _ _ _ (by decide) (Or.inl (by decide)) hfind (by decide) 1 (by
          decide)
        exact absurd hfree (by decide)
      · have hfind := h.find (oneMapped 0) 0x10000 0x1FFF 1 (by decide) (Or.inl (by decide))
        rw [find_first_page _ _ _ hlow (by omega), find_first_page _ _ _ hlow (by omega),
          find_tag_zero hpos htag] at hfind
        exact absurd hfind (by decide)
    · refine ⟨Nat.eq_zero_of_not_pos fun hpos => ?_, hstart⟩
      exact find_tag_ne hs hpos htag hstart (h.find _ _ _ _ (by decide) hs)
  · rintro ⟨rfl, hstart⟩
    refine ⟨fun memory _ v hroot => keResolvePhysicalAddress_tag hroot htag memory v,
      fun m _ _ _ _ _ hroot => tablesAfter_tag hroot htag m _ _ _ _, fun _ _ _ _ _ _ => rfl, ?_⟩
    rintro memory pageMap virtualEnd numPages _ hroot he rfl hne
    by_cases hnull : virtualEnd < virtualStart ∨ numPages = 0
    · exact absurd (if_pos hnull) hne
    · have hn : 0 < numPages := by omega
      rcases virtualFindAvailableMemory_spec memory pageMap hn hs he (by
        omega) with ⟨p, hans⟩ | ⟨hzero, -⟩
      · have hpos := Nat.lt_of_lt_of_le (hs.pageOf_pos hstart) hans.first.le
        exact (hans.unmapped hroot hpos (pageOf_lt virtualEnd)).2
      · exact absurd hzero hne

theorem tag_ignored_none : TagIgnored 0 0x1000 :=
  (tag_ignored_iff (by decide) (Or.inl (by decide))).mpr ⟨rfl, by decide⟩

/-- The first tag: a page that is mapped to `0x4000` is found. -/
theorem tag_not_ignored :
    (processContextIdAllocate ⟨fun _ => false, 0, true⟩ 0x10000).2.1 = 0x10000 + 1 ∧
      virtualFindAvailableMemory (oneMapped 1) (0x10000 + 1) 0x1000 0x1FFF 1 = 0x1000 ∧
      keResolvePhysicalAddress (oneMapped 1) (0x10000 + 1) 0x1000 = some 0x4000 ∧
      ¬ TagIgnored 1 0x1000 := by
  have hfind : virtualFindAvailableMemory (oneMapped 1) (0x10000 + 1) 0x1000 0x1FFF 1 = 0x1000 := by
    decide
  have hresolve : keResolvePhysicalAddress (oneMapped 1) (0x10000 + 1) 0x1000 = some 0x4000 := by
    decide
  refine ⟨by decide +kernel, hfind, hresolve, fun h => ?_⟩
  have hfree := h.free _ _ _ _ _ (by decide) (Or.inl (by decide)) hfind (by decide) 0 (by decide)
  rw [Nat.zero_mul, Nat.add_zero, hresolve] at hfree
  cases hfree

end DevOs.Paging
