import DevOs.Memory.Init
import Mathlib.Data.List.Flatten
import Mathlib.Data.List.Nodup

/-!
# What the page array lists

Every pass over the memory map only takes pages away from the conventional regions: the first one
the pages that are not whole or lie at address zero, the second one the storage of the page array
and of the bitmap. What the third one lists are therefore different whole pages of the regions,
apart from the storage.
-/

namespace DevOs.Memory

namespace MemoryDescriptor

def Holds (memory : MemoryDescriptor) (a : ℕ) : Prop :=
  memory.physicalStart ≤ a ∧ a < memory.physicalStart + 0x1000 * memory.pageCount

/-- The region consists of whole pages, not of the first one, and does not wrap. -/
structure Whole (memory : MemoryDescriptor) : Prop where
  aligned : memory.physicalStart % 0x1000 = 0
  ne_zero : memory.physicalStart ≠ 0
  fits : memory.physicalStart + 0x1000 * memory.pageCount ≤ 2 ^ 64

end MemoryDescriptor

def firmwareRegions (uefi : Bool) (memoryMap : List MemoryDescriptor) : List MemoryDescriptor :=
  memoryMap.filter (fun memory => decide (efiType uefi memory.type = efiConventionalMemory))

variable {uefi : Bool} {memoryMap : List MemoryDescriptor} {d e : MemoryDescriptor} {a : ℕ}

theorem type_adjustDescriptor (uefi : Bool) (d : MemoryDescriptor) :
    (adjustDescriptor uefi d).type = efiType uefi d.type := by
  unfold adjustDescriptor
  dsimp only
  split_ifs <;> rfl

theorem conventional_adjust (uefi : Bool) (memoryMap : List MemoryDescriptor) :
    conventional (memoryMap.map (adjustDescriptor uefi)) =
      (firmwareRegions uefi memoryMap).map (adjustDescriptor uefi) := by
  rw [conventional, List.filter_map, firmwareRegions]
  congr 1
  apply List.filter_congr
  intro d _
  rw [Function.comp_apply, type_adjustDescriptor]

/-- An adjusted region that is not empty consists of whole pages of the original one. -/
theorem adjustDescriptor_spec (htype : efiType uefi d.type = efiConventionalMemory)
    (hfits : d.physicalStart + 0x1000 * d.pageCount ≤ 2 ^ 64)
    (hne : (adjustDescriptor uefi d).pageCount ≠ 0) :
    (adjustDescriptor uefi d).Whole ∧
    d.physicalStart ≤ (adjustDescriptor uefi d).physicalStart ∧
    (adjustDescriptor uefi d).physicalStart + 0x1000 * (adjustDescriptor uefi d).pageCount ≤
      d.physicalStart + 0x1000 * d.pageCount := by
  by_cases hcount : d.pageCount = 0
  · exact absurd (by simp [adjustDescriptor, hcount]) hne
  · by_cases hzero : d.physicalStart / 2 ^ 12 = 0
    · have heq : adjustDescriptor uefi d =
          ⟨efiType uefi d.type, d.pageCount - 1, 0x1000⟩ := by
        unfold adjustDescriptor
        dsimp only
        rw [if_pos ⟨htype, hcount⟩, if_pos hzero]
        exact if_neg (by dsimp only; decide)
      rw [heq] at hne ⊢
      dsimp only at hne ⊢
      exact ⟨⟨Nat.mod_self 0x1000, Nat.succ_ne_zero _, by dsimp only; omega⟩, by omega, by omega⟩
    · by_cases halign : d.physicalStart % 2 ^ 12 = 0
      · have heq : adjustDescriptor uefi d =
            ⟨efiType uefi d.type, d.pageCount, d.physicalStart⟩ := by
          unfold adjustDescriptor
          dsimp only
          rw [if_pos ⟨htype, hcount⟩, if_neg hzero, if_neg (not_not.mpr halign)]
        rw [heq] at hne ⊢
        dsimp only at hne ⊢
        exact ⟨⟨halign, by dsimp only; omega, hfits⟩, by omega, by omega⟩
      · have heq : adjustDescriptor uefi d = ⟨efiType uefi d.type, d.pageCount - 1,
            (d.physicalStart + 0x1000) % 2 ^ 64 / 2 ^ 12 * 2 ^ 12⟩ := by
          unfold adjustDescriptor
          dsimp only
          rw [if_pos ⟨htype, hcount⟩, if_neg hzero, if_pos halign]
        rw [heq] at hne ⊢
        dsimp only at hne ⊢
        have hmod : (d.physicalStart + 0x1000) % 2 ^ 64 = d.physicalStart + 0x1000 :=
          Nat.mod_eq_of_lt (by omega)
        rw [hmod]
        exact ⟨⟨by dsimp only; omega, by dsimp only; omega, by dsimp only; omega⟩, by omega, by
          omega⟩

def Listed (d : MemoryDescriptor) : Prop := d.pageCount ≠ 0 → d.Whole

theorem mem_regionPages (h : Listed d) : a ∈ regionPages d ↔
    ∃ i < d.pageCount, a = d.physicalStart + 0x1000 * i := by
  rw [regionPages, List.mem_map]
  constructor
  · rintro ⟨i, hi, rfl⟩
    have hlt := List.mem_range.mp hi
    have hfits := (h (by omega)).fits
    exact ⟨i, hlt, Nat.mod_eq_of_lt (by omega)⟩
  · rintro ⟨i, hi, rfl⟩
    have hfits := (h (by omega)).fits
    exact ⟨i, List.mem_range.mpr hi, Nat.mod_eq_of_lt (by omega)⟩

theorem regionPages_nodup (h : Listed d) : (regionPages d).Nodup := by
  apply List.Nodup.map_on _ List.nodup_range
  intro i hi j hj he
  have hi' := List.mem_range.mp hi
  have hj' := List.mem_range.mp hj
  have hfits := (h (by omega)).fits
  rw [Nat.mod_eq_of_lt (by omega), Nat.mod_eq_of_lt (by omega)] at he
  omega

theorem regionPages_whole (h : Listed d) (ha : a ∈ regionPages d) :
    a % 0x1000 = 0 ∧ a ≠ 0 ∧ d.physicalStart ≤ a ∧
      a + 0x1000 ≤ d.physicalStart + 0x1000 * d.pageCount ∧ a < 2 ^ 64 := by
  obtain ⟨i, hi, rfl⟩ := (mem_regionPages h).mp ha
  obtain ⟨haligned, hne, hfits⟩ := h (by omega)
  exact ⟨by omega, by omega, by omega, by omega, by omega⟩

theorem length_regionPages (d : MemoryDescriptor) : (regionPages d).length = d.pageCount := by
  rw [regionPages, List.length_map, List.length_range]

theorem flatMap_regionPages_nodup {l : List MemoryDescriptor} (hl : ∀ d ∈ l, Listed d)
    (hapart : l.Pairwise (fun d e => ∀ a, d.Holds a → ¬ e.Holds a)) :
    (l.flatMap regionPages).Nodup := by
  rw [List.nodup_flatMap]
  refine ⟨fun d hd => regionPages_nodup (hl d hd), ?_⟩
  refine hapart.imp_of_mem ?_
  intro d e hd he hde a had hae
  have hd' := regionPages_whole (hl d hd) had
  have he' := regionPages_whole (hl e he) hae
  exact hde a ⟨hd'.2.2.1, by omega⟩ ⟨he'.2.2.1, by omega⟩

theorem length_flatMap_regionPages (l : List MemoryDescriptor) :
    (l.flatMap regionPages).length = (l.map MemoryDescriptor.pageCount).sum := by
  rw [List.length_flatMap]
  congr 1
  exact List.map_congr_left (fun d _ => length_regionPages d)

theorem length_le_of_lt {l : List ℕ} {n : ℕ} (h : l.Nodup) (hlt : ∀ a ∈ l, a < n) :
    l.length ≤ n := by
  have hsub := List.subperm_of_subset h (fun a ha => List.mem_range.mpr (hlt a ha))
  simpa using hsub.length_le

theorem sum_pageCount_le {l : List MemoryDescriptor} (hl : ∀ d ∈ l, Listed d)
    (hnodup : (l.flatMap regionPages).Nodup) :
    (l.map MemoryDescriptor.pageCount).sum ≤ 2 ^ 52 := by
  have hpage (a : ℕ) (ha : a ∈ l.flatMap regionPages) : a % 0x1000 = 0 ∧ a < 2 ^ 64 := by
    obtain ⟨d, hd, had⟩ := List.mem_flatMap.mp ha
    have h := regionPages_whole (hl d hd) had
    exact ⟨h.1, h.2.2.2.2⟩
  have hmap : ((l.flatMap regionPages).map (fun a => a / 0x1000)).Nodup := by
    apply List.Nodup.map_on _ hnodup
    intro a ha b hb he
    have ha' := hpage a ha
    have hb' := hpage b hb
    omega
  have hle := length_le_of_lt (n := 2 ^ 52) hmap (by
    intro b hb
    obtain ⟨a, ha, rfl⟩ := List.mem_map.mp hb
    have := hpage a ha
    omega)
  rwa [List.length_map, length_flatMap_regionPages] at hle

theorem carve_spec {numPages start : ℕ} {memoryMap rest : List MemoryDescriptor}
    (h : carve numPages memoryMap = some (start, rest)) :
    ∃ l₁ d l₂, conventional memoryMap = l₁ ++ d :: l₂ ∧ numPages ≤ d.pageCount ∧
      start = d.physicalStart ∧ conventional rest = l₁ ++
        { d with
          physicalStart := (d.physicalStart + numPages * 2 ^ 12) % 2 ^ 64
          pageCount := d.pageCount - numPages } :: l₂ := by
  induction memoryMap generalizing rest with
  | nil => cases h
  | cons d memoryMap ih =>
    rw [carve] at h
    split_ifs at h with hd
    · cases h
      refine ⟨[], d, conventional memoryMap, ?_, hd.2, rfl, ?_⟩
      · simp [conventional, hd.1]
      · simp [conventional, hd.1]
    · obtain ⟨r, hr, he⟩ := Option.map_eq_some_iff.mp h
      obtain ⟨start', rest'⟩ := r
      cases he
      obtain ⟨l₁, c, l₂, hconv, hle, hstart, hrest⟩ := ih hr
      by_cases htype : d.type = efiConventionalMemory
      · refine ⟨d :: l₁, c, l₂, ?_, hle, hstart, ?_⟩
        · rw [conventional, List.filter_cons_of_pos (by simpa using htype)]
          exact congrArg (d :: ·) hconv
        · rw [conventional, List.filter_cons_of_pos (by simpa using htype)]
          exact congrArg (d :: ·) hrest
      · refine ⟨l₁, c, l₂, ?_, hle, hstart, ?_⟩
        · rw [conventional, List.filter_cons_of_neg (by simpa using htype)]
          exact hconv
        · rw [conventional, List.filter_cons_of_neg (by simpa using htype)]
          exact hrest

theorem regionPages_carved {numPages : ℕ} (h : Listed d) (hle : numPages ≤ d.pageCount) :
    regionPages d = (List.range numPages).map (fun i => d.physicalStart + 0x1000 * i) ++
      regionPages { d with
        physicalStart := (d.physicalStart + numPages * 2 ^ 12) % 2 ^ 64
        pageCount := d.pageCount - numPages } := by
  have hrange : List.range d.pageCount =
      List.range numPages ++ (List.range (d.pageCount - numPages)).map (fun i => numPages + i) := by
    rw [← List.range_add, Nat.add_sub_cancel' hle]
  rw [regionPages, regionPages, hrange, List.map_append, List.map_map]
  congr 1
  · apply List.map_congr_left
    intro i hi
    have hlt := List.mem_range.mp hi
    have hfits := (h (by omega)).fits
    exact Nat.mod_eq_of_lt (by omega)
  · apply List.map_congr_left
    intro i hi
    have hlt := List.mem_range.mp hi
    rw [Function.comp_apply]
    dsimp only
    omega

/-- The adjusted regions of a memory map whose regions are disjoint and do not wrap. -/
theorem adjusted_listed
    (hfits : ∀ d ∈ firmwareRegions uefi memoryMap,
      d.physicalStart + 0x1000 * d.pageCount ≤ 2 ^ 64) :
    ∀ d ∈ (firmwareRegions uefi memoryMap).map (adjustDescriptor uefi), Listed d := by
  intro d' hd'
  obtain ⟨d, hd, rfl⟩ := List.mem_map.mp hd'
  have htype : efiType uefi d.type = efiConventionalMemory := by
    simpa using (List.mem_filter.mp hd).2
  exact fun hne => (adjustDescriptor_spec htype (hfits d hd) hne).1

theorem adjusted_nodup
    (hfits : ∀ d ∈ firmwareRegions uefi memoryMap, d.physicalStart + 0x1000 * d.pageCount ≤ 2 ^ 64)
    (hapart : (firmwareRegions uefi memoryMap).Pairwise (fun d e => ∀ a, d.Holds a → ¬ e.Holds a)) :
    (((firmwareRegions uefi memoryMap).map (adjustDescriptor uefi)).flatMap regionPages).Nodup := by
  refine flatMap_regionPages_nodup (adjusted_listed hfits) ?_
  have hholds (d : MemoryDescriptor) (hd : d ∈ firmwareRegions uefi memoryMap) (a : ℕ)
      (ha : (adjustDescriptor uefi d).Holds a) : d.Holds a := by
    have htype : efiType uefi d.type = efiConventionalMemory := by
      simpa using (List.mem_filter.mp hd).2
    obtain ⟨hle, hlt⟩ := ha
    obtain ⟨-, hstart, hend⟩ := adjustDescriptor_spec htype (hfits d hd) (by omega)
    exact ⟨by omega, by omega⟩
  rw [List.pairwise_map]
  refine hapart.imp_of_mem ?_
  intro d e hd he hde a had hae
  exact hde a (hholds d hd a had) (hholds e he a hae)

theorem pageCount_adjust_le (uefi : Bool) (d : MemoryDescriptor) :
    (adjustDescriptor uefi d).pageCount ≤ d.pageCount := by
  unfold adjustDescriptor
  dsimp only
  split_ifs <;> dsimp only <;> omega

/-- The page lies behind or before the page array, and behind or before the bitmap. -/
def BootMemory.Spares (b : BootMemory) (a : ℕ) : Prop :=
  (a + 0x1000 ≤ b.pageArray ∨ b.pageArray + 8 * b.pageArraySize ≤ a) ∧
    (a + 0x1000 ≤ b.pageBitmap ∨ b.pageBitmap + (b.pageArraySize + 7) / 8 ≤ a)

def BootMemory.StoredIn (b : BootMemory) (d : MemoryDescriptor) : Prop :=
  d.physicalStart ≤ b.pageArray ∧ b.pageArray + 8 * b.pageArraySize ≤ b.pageBitmap ∧
    b.pageBitmap + (b.pageArraySize + 7) / 8 ≤ d.physicalStart + 0x1000 * d.pageCount

theorem apart_of_not_mem {start n : ℕ} (ha : a % 0x1000 = 0) (hs : start % 0x1000 = 0)
    (hnot : a ∉ (List.range n).map (fun i => start + 0x1000 * i)) :
    a + 0x1000 ≤ start ∨ start + 0x1000 * n ≤ a := by
  by_contra h
  refine hnot (List.mem_map.mpr ⟨(a - start) / 0x1000, List.mem_range.mpr (by omega), by omega⟩)

section Storage

variable {total start : ℕ}

theorem arrayPages_eq (ht : total ≤ 2 ^ 52) : arrayPages total = 8 * total / 0x1000 + 1 := by
  rw [arrayPages, Nat.mod_eq_of_lt (by omega)]
  rfl

theorem storagePages_eq (ht : total ≤ 2 ^ 52) :
    storagePages total = arrayPages total + ((total + 1) / 8 / 0x1000 + 10) := by
  rw [storagePages, Nat.mod_eq_of_lt (by omega)]
  rfl

theorem arrayPages_covers (ht : total ≤ 2 ^ 52) : 8 * total ≤ 0x1000 * arrayPages total := by
  rw [arrayPages_eq ht]
  omega

theorem storagePages_covers (ht : total ≤ 2 ^ 52) :
    0x1000 * arrayPages total + (total + 7) / 8 ≤ 0x1000 * storagePages total := by
  rw [storagePages_eq ht]
  omega

theorem storagePages_pos (ht : total ≤ 2 ^ 52) : 0 < storagePages total := by
  rw [storagePages_eq ht]
  omega

/-- The bytes of the array and of the bitmap lie in the storage, one behind the other. -/
theorem storage_split {size : ℕ} (ht : total ≤ 2 ^ 52) (hle : size ≤ total) :
    start + 8 * size ≤ start + 0x1000 * arrayPages total ∧
      start + 0x1000 * arrayPages total + (size + 7) / 8 ≤ start + 0x1000 * storagePages total := by
  have harray := arrayPages_covers ht
  have hbitmap := storagePages_covers ht
  exact ⟨by omega, by omega⟩

/-- The bitmap starts where the array ends, with no wrap in a region that fits. -/
theorem bitmap_start {stop : ℕ} (ht : total ≤ 2 ^ 52)
    (hfit : start + 0x1000 * storagePages total ≤ stop) (hstop : stop ≤ 2 ^ 64) :
    (start + arrayPages total * 2 ^ 12) % 2 ^ 64 = start + 0x1000 * arrayPages total := by
  have hle : arrayPages total + 10 ≤ storagePages total := by
    rw [storagePages_eq ht]
    omega
  rw [Nat.mod_eq_of_lt (by omega)]
  omega

end Storage

theorem sub_mod_word {total n : ℕ} (hle : n ≤ total) (ht : total ≤ 2 ^ 52) :
    (total + 2 ^ 64 - n) % 2 ^ 64 = total - n := by
  omega

/-- What the function leaves behind when it does not stop. -/
structure Built (uefi : Bool) (memoryMap : List MemoryDescriptor) (b : BootMemory) : Prop where
  listed : ∀ d ∈ conventional b.memoryMap, Listed d
  entries : b.entries = (conventional b.memoryMap).flatMap regionPages
  size : b.entries.length = b.pageArraySize
  nodup : b.entries.Nodup
  pages : ∀ a ∈ b.entries, a % 0x1000 = 0 ∧ a ≠ 0 ∧ b.Spares a ∧
    ∃ d ∈ firmwareRegions uefi memoryMap,
      d.physicalStart ≤ a ∧ a + 0x1000 ≤ d.physicalStart + 0x1000 * d.pageCount
  stored : ∃ d ∈ firmwareRegions uefi memoryMap, b.StoredIn d

theorem listed_carved {d : MemoryDescriptor} {numPages : ℕ} (h : Listed d)
    (hle : numPages ≤ d.pageCount) (h0 : 0 < numPages) :
    Listed { d with
      physicalStart := (d.physicalStart + numPages * 2 ^ 12) % 2 ^ 64
      pageCount := d.pageCount - numPages } := by
  intro hne
  dsimp only at hne
  obtain ⟨haligned, hnz, hfits⟩ := h (by omega)
  have hmod : (d.physicalStart + numPages * 2 ^ 12) % 2 ^ 64 =
      d.physicalStart + numPages * 2 ^ 12 := Nat.mod_eq_of_lt (by omega)
  rw [hmod]
  exact ⟨by dsimp only; omega, by dsimp only; omega, by dsimp only; omega⟩

/-- The regions of the map without the storage are those of the map with it, but for the one from
which the storage was taken. -/
theorem mem_of_replaced {l₁ l₂ : List MemoryDescriptor} {c d d' : MemoryDescriptor}
    (h : c ∈ l₁ ++ d' :: l₂) : c = d' ∨ c ∈ l₁ ++ d :: l₂ := by
  rcases List.mem_append.mp h with hc | hc
  · exact Or.inr (List.mem_append_left _ hc)
  · rcases List.mem_cons.mp hc with hc | hc
    · exact Or.inl hc
    · exact Or.inr (List.mem_append_right _ (List.mem_cons_of_mem d hc))

/-- The adjusted regions have whole pages of the regions of the firmware, each page once. -/
structure Adjusted (uefi : Bool) (memoryMap regions : List MemoryDescriptor) : Prop where
  listed : ∀ d ∈ regions, Listed d
  nodup : (regions.flatMap regionPages).Nodup
  origin : ∀ d' ∈ regions, d'.pageCount ≠ 0 → ∃ d ∈ firmwareRegions uefi memoryMap,
    d.physicalStart ≤ d'.physicalStart ∧
      d'.physicalStart + 0x1000 * d'.pageCount ≤ d.physicalStart + 0x1000 * d.pageCount
  large : ∀ d' ∈ regions, 2 ^ 32 ≤ d'.pageCount →
    ∃ d ∈ firmwareRegions uefi memoryMap, 2 ^ 32 ≤ d.pageCount

theorem adjusted_regions
    (hfits : ∀ d ∈ firmwareRegions uefi memoryMap, d.physicalStart + 0x1000 * d.pageCount ≤ 2 ^ 64)
    (hapart : (firmwareRegions uefi memoryMap).Pairwise (fun d e => ∀ a, d.Holds a → ¬ e.Holds a)) :
    Adjusted uefi memoryMap ((firmwareRegions uefi memoryMap).map (adjustDescriptor uefi)) where
  listed := adjusted_listed hfits
  nodup := adjusted_nodup hfits hapart
  origin := by
    intro d' hd' hne
    obtain ⟨d, hd, rfl⟩ := List.mem_map.mp hd'
    have htype : efiType uefi d.type = efiConventionalMemory := by
      simpa using (List.mem_filter.mp hd).2
    exact ⟨d, hd, (adjustDescriptor_spec htype (hfits d hd) hne).2⟩
  large := by
    intro d' hd' hle
    obtain ⟨d, hd, rfl⟩ := List.mem_map.mp hd'
    exact ⟨d, hd, Nat.le_trans hle (pageCount_adjust_le uefi d)⟩

section Carved

variable {regions rest : List MemoryDescriptor} {start n : ℕ}

theorem Adjusted.length_le (h : Adjusted uefi memoryMap regions) :
    (regions.flatMap regionPages).length ≤ 2 ^ 52 := by
  rw [length_flatMap_regionPages]
  exact sum_pageCount_le h.listed h.nodup

theorem Adjusted.totalPages_eq (h : Adjusted uefi memoryMap (conventional rest)) :
    totalPages rest = ((conventional rest).flatMap regionPages).length := by
  have hle := h.length_le
  rw [totalPages, ← length_flatMap_regionPages]
  exact Nat.mod_eq_of_lt (by omega)

theorem Adjusted.page (h : Adjusted uefi memoryMap regions) (ha : a ∈ regions.flatMap regionPages) :
    a % 0x1000 = 0 ∧ a ≠ 0 ∧ ∃ d ∈ firmwareRegions uefi memoryMap,
      d.physicalStart ≤ a ∧ a + 0x1000 ≤ d.physicalStart + 0x1000 * d.pageCount := by
  obtain ⟨c, hc, hac⟩ := List.mem_flatMap.mp ha
  obtain ⟨hal, hnz, hcstart, hcend, _⟩ := regionPages_whole (h.listed c hc) hac
  have hcount : c.pageCount ≠ 0 := by
    intro hzero
    rw [hzero] at hcend
    exact absurd hcend (by omega)
  obtain ⟨g, hg, hgstart, hgend⟩ := h.origin c hc hcount
  exact ⟨hal, hnz, g, hg, Nat.le_trans hgstart hcstart, Nat.le_trans hcend hgend⟩

/-- The storage is the first `n` pages of one region, and the other pages are left. -/
structure Carved (regions rest : List MemoryDescriptor) (start n : ℕ) (d : MemoryDescriptor) :
    Prop where
  mem : d ∈ regions
  le : n ≤ d.pageCount
  start_eq : start = d.physicalStart
  perm : (regions.flatMap regionPages).Perm
    ((List.range n).map (fun i => start + 0x1000 * i) ++ rest.flatMap regionPages)
  rest : ∀ c ∈ rest, c ∈ regions ∨ Listed c ∧ c.pageCount ≤ d.pageCount

theorem carved_of_carve {regions rest : List MemoryDescriptor}
    (hlisted : ∀ d ∈ conventional regions, Listed d) (hn : 0 < n)
    (h : carve n regions = some (start, rest)) :
    ∃ d, Carved (conventional regions) (conventional rest) start n d := by
  obtain ⟨l₁, d, l₂, hconv, hle, hstart, hrest⟩ := carve_spec h
  have hd : d ∈ conventional regions := by
    rw [hconv]
    exact List.mem_append_right _ List.mem_cons_self
  have hpages := regionPages_carved (hlisted d hd) hle
  refine ⟨d, hd, hle, hstart, ?_, fun c hc => ?_⟩
  · rw [hconv, hrest, List.flatMap_append, List.flatMap_cons, List.flatMap_append,
      List.flatMap_cons, hpages, List.append_assoc, hstart]
    exact List.perm_append_comm_assoc _ _ _
  · rw [hrest] at hc
    rcases mem_of_replaced (d := d) hc with rfl | hc
    · exact Or.inr ⟨listed_carved (hlisted d hd) hle hn, Nat.sub_le _ _⟩
    · rw [← hconv] at hc
      exact Or.inl hc

theorem Carved.whole (h : Carved regions rest start n d) (hlisted : ∀ d ∈ regions, Listed d)
    (hn : 0 < n) :
    d.pageCount ≠ 0 ∧ d.Whole := by
  have hcount : d.pageCount ≠ 0 := Nat.ne_of_gt (Nat.lt_of_lt_of_le hn h.le)
  exact ⟨hcount, hlisted d h.mem hcount⟩

theorem Carved.length_eq (h : Carved regions rest start n d) :
    (regions.flatMap regionPages).length = n + (rest.flatMap regionPages).length := by
  rw [h.perm.length_eq, List.length_append, List.length_map, List.length_range]

theorem Carved.apart (h : Carved regions rest start n d) (hlisted : ∀ d ∈ regions, Listed d)
    (hnodup : (regions.flatMap regionPages).Nodup) (hn : 0 < n) :
    (rest.flatMap regionPages).Nodup ∧ ∀ a ∈ rest.flatMap regionPages,
      a + 0x1000 ≤ start ∨ start + 0x1000 * n ≤ a := by
  have hboth := h.perm.nodup_iff.mp hnodup
  rw [List.nodup_append] at hboth
  obtain ⟨-, hrest, hdisjoint⟩ := hboth
  refine ⟨hrest, fun a ha => ?_⟩
  have haligned := (h.whole hlisted hn).2.aligned
  rw [← h.start_eq] at haligned
  obtain ⟨c, hc, hac⟩ := List.mem_flatMap.mp (h.perm.mem_iff.mpr (List.mem_append_right _ ha))
  exact apart_of_not_mem (regionPages_whole (hlisted c hc) hac).1 haligned
    fun hmem => hdisjoint a hmem a ha rfl

end Carved

theorem BootMemory.Spares.of_apart {b : BootMemory} {n : ℕ}
    (harray : b.pageArray + 8 * b.pageArraySize ≤ b.pageBitmap)
    (hbitmap : b.pageBitmap + (b.pageArraySize + 7) / 8 ≤ b.pageArray + 0x1000 * n)
    (hout : a + 0x1000 ≤ b.pageArray ∨ b.pageArray + 0x1000 * n ≤ a) : b.Spares a := by
  rcases hout with hbefore | hbehind
  · have hbelow := Nat.le_trans (Nat.le_add_right _ _) harray
    exact ⟨Or.inl hbefore, Or.inl (Nat.le_trans hbefore hbelow)⟩
  · have hbitmapEnd := Nat.le_trans hbitmap hbehind
    have harrayEnd := Nat.le_trans harray (Nat.le_trans (Nat.le_add_right _ _) hbitmapEnd)
    exact ⟨Or.inr harrayEnd, Or.inr hbitmapEnd⟩

/-- What `InitMemoryManagementSubsystem` leaves when it has carved the storage from the region
`d`. -/
theorem built_of_carved {rest : List MemoryDescriptor} {start total : ℕ}
    (hadjusted : Adjusted uefi memoryMap (conventional (memoryMap.map (adjustDescriptor uefi))))
    (htotal : total = totalPages (memoryMap.map (adjustDescriptor uefi)))
    (hcarved : Carved (conventional (memoryMap.map (adjustDescriptor uefi)))
      (conventional rest) start
      (storagePages total) d) :
    Built uefi memoryMap
      { memoryMap := rest
        pageArraySize := (total + 2 ^ 64 - storagePages total) % 2 ^ 64
        physicalPages := total
        allocatedPages := storagePages total
        pageArray := start
        pageBitmap := (start + arrayPages total * 2 ^ 12) % 2 ^ 64
        entries := (conventional rest).flatMap regionPages } := by
  have hlength := hcarved.length_eq
  have hmost := hadjusted.length_le
  rw [← hadjusted.totalPages_eq, ← htotal] at hlength hmost
  have hpos := storagePages_pos hmost
  obtain ⟨hcount, hwhole⟩ := hcarved.whole hadjusted.listed hpos
  obtain ⟨hentries, hapart⟩ := hcarved.apart hadjusted.listed hadjusted.nodup hpos
  obtain ⟨f, hf, hfstart, hfend⟩ := hadjusted.origin d hcarved.mem hcount
  have hfit := hwhole.fits
  rw [← hcarved.start_eq] at hfstart hfend hfit
  have hstored : start + 0x1000 * storagePages total ≤ start + 0x1000 * d.pageCount :=
    Nat.add_le_add_left (Nat.mul_le_mul_left 0x1000 hcarved.le) start
  have hsize : (total + 2 ^ 64 - storagePages total) % 2 ^ 64 = total - storagePages total :=
    sub_mod_word (Nat.le.intro hlength.symm) hmost
  have hbitmap := bitmap_start hmost hstored hfit
  have hsplit := @storage_split total start _ hmost (Nat.sub_le total (storagePages total))
  simp only [hsize, hbitmap]
  refine ⟨fun c hc => ?_, rfl, Nat.eq_sub_of_add_eq' hlength.symm, hentries, fun a ha => ?_, f, hf,
    hfstart, hsplit.1, Nat.le_trans hsplit.2 (Nat.le_trans hstored hfend)⟩
  · rcases hcarved.rest c hc with hold | ⟨hnew, -⟩
    · exact hadjusted.listed c hold
    · exact hnew
  · obtain ⟨hal, hnz, horigin⟩ :=
      hadjusted.page (hcarved.perm.mem_iff.mpr (List.mem_append_right _ ha))
    exact ⟨hal, hnz, .of_apart hsplit.1 hsplit.2 (hapart a ha), horigin⟩

theorem init_built (uefi : Bool) (memoryMap : List MemoryDescriptor)
    (hapart : (firmwareRegions uefi memoryMap).Pairwise (fun d e => ∀ a, d.Holds a → ¬ e.Holds a))
    (hfits : ∀ d ∈ firmwareRegions uefi memoryMap,
      d.physicalStart + 0x1000 * d.pageCount ≤ 2 ^ 64) :
    match initMemoryManagementSubsystem uefi memoryMap with
    | .ok b => Built uefi memoryMap b
    | .error .endless => ∃ d ∈ firmwareRegions uefi memoryMap, 2 ^ 32 ≤ d.pageCount
    | .error .outOfMemory => True := by
  have hadjusted := adjusted_regions hfits hapart
  rw [← conventional_adjust] at hadjusted
  have hmost := hadjusted.length_le
  rw [← hadjusted.totalPages_eq] at hmost
  rw [initMemoryManagementSubsystem]
  cases hcarve : carve (storagePages (totalPages (memoryMap.map (adjustDescriptor uefi))))
      (memoryMap.map (adjustDescriptor uefi)) with
  | none => exact trivial
  | some r =>
    obtain ⟨start, rest⟩ := r
    have hpos := storagePages_pos hmost
    obtain ⟨d, hcarved⟩ := carved_of_carve hadjusted.listed hpos hcarve
    have hne := (hcarved.whole hadjusted.listed hpos).2.ne_zero
    rw [← hcarved.start_eq] at hne
    simp only [if_neg hne]
    by_cases hany : (conventional rest).any
      (fun memory => decide (2 ^ 32 ≤ memory.pageCount)) = true
    · simp only [hany, if_true]
      obtain ⟨c, hc, hle⟩ := List.any_eq_true.mp hany
      rw [decide_eq_true_eq] at hle
      rcases hcarved.rest c hc with hold | ⟨-, hsmaller⟩
      · exact hadjusted.large c hold hle
      · exact hadjusted.large d hcarved.mem (Nat.le_trans hle hsmaller)
    · simp only [hany]
      exact built_of_carved hadjusted rfl hcarved

/-- For every memory map whose conventional regions are disjoint, do not wrap and have fewer than
2 ^ 32 pages: the function stops with its screen, or the page array lists different whole pages of
the regions, apart from its own storage and that of the bitmap, which lies in one region. -/
theorem page_array_built (uefi : Bool) (memoryMap : List MemoryDescriptor)
    (hapart : (firmwareRegions uefi memoryMap).Pairwise (fun d e => ∀ a, d.Holds a → ¬ e.Holds a))
    (hfits : ∀ d ∈ firmwareRegions uefi memoryMap, d.physicalStart + 0x1000 * d.pageCount ≤ 2 ^ 64)
    (hcount : ∀ d ∈ firmwareRegions uefi memoryMap, d.pageCount < 2 ^ 32) :
    initMemoryManagementSubsystem uefi memoryMap = .error .outOfMemory ∨
    ∃ b, initMemoryManagementSubsystem uefi memoryMap = .ok b ∧
      b.entries.length = b.pageArraySize ∧ b.entries.Nodup ∧
      (∀ a ∈ b.entries, a % 0x1000 = 0 ∧ a ≠ 0 ∧ b.Spares a ∧
        ∃ d ∈ firmwareRegions uefi memoryMap,
          d.physicalStart ≤ a ∧ a + 0x1000 ≤ d.physicalStart + 0x1000 * d.pageCount) ∧
      ∃ d ∈ firmwareRegions uefi memoryMap, b.StoredIn d := by
  have h := init_built uefi memoryMap hapart hfits
  cases hinit : initMemoryManagementSubsystem uefi memoryMap with
  | ok b =>
    rw [hinit] at h
    exact Or.inr ⟨b, rfl, h.size, h.nodup, h.pages, h.stored⟩
  | error stop =>
    cases stop with
    | outOfMemory => exact Or.inl rfl
    | endless =>
      rw [hinit] at h
      obtain ⟨d, hd, hle⟩ := h
      exact absurd (hcount d hd) (Nat.not_lt.mpr hle)

/-- A map of a firmware that reports an aligned, an unaligned, a reserved, an empty and a first
region. -/
def sampleMap : List MemoryDescriptor :=
  [⟨7, 3, 0⟩, ⟨7, 40, 0x5800⟩, ⟨4, 8, 0x80000⟩, ⟨7, 0, 0x6000⟩, ⟨7, 20, 0x100000⟩]

/-- Of the sixty-one whole pages eleven are storage. -/
theorem page_array_built_sample : ∃ b, initMemoryManagementSubsystem true sampleMap = .ok b ∧
    b.entries.length = 50 ∧ b.entries.Nodup ∧ ∀ a ∈ b.entries, b.Spares a := by
  have hok : ∃ b, initMemoryManagementSubsystem true sampleMap = .ok b ∧ b.pageArraySize = 50 :=
    ⟨_, rfl, by decide⟩
  have hregions : firmwareRegions true sampleMap =
      [⟨7, 3, 0⟩, ⟨7, 40, 0x5800⟩, ⟨7, 0, 0x6000⟩, ⟨7, 20, 0x100000⟩] := by decide
  have hall := page_array_built true sampleMap (by
      rw [hregions]
      simp only [List.pairwise_cons, List.mem_cons, List.not_mem_nil, or_false, forall_eq_or_imp,
        forall_eq, MemoryDescriptor.Holds, List.Pairwise.nil, and_true, IsEmpty.forall_iff,
        implies_true]
      and_intros <;> intro a ha hb <;> omega) (by rw [hregions]; decide) (by rw [hregions]; decide)
  obtain ⟨b, hb, hsize⟩ := hok
  rw [hb] at hall
  rcases hall with hstop | ⟨c, hc, hlen, hnodup, hpages, _⟩
  · cases hstop
  · cases hc
    exact ⟨b, hb, hlen.trans hsize, hnodup, fun a ha => (hpages a ha).2.2.1⟩

end DevOs.Memory
