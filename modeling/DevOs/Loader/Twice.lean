import DevOs.Lib.Additions
import DevOs.Loader.Relocation

/-!
# The kernel is relocated twice

The boot manager relocates the kernel to the pages it was loaded into, and `__KernelRelocate` moves
it from there to the system space, by the same table. When the targets of the table are clear of it
and of each other, the words they name are in the end those of one relocation to the system space.
What the kernel wrote elsewhere in between stays.
-/

namespace DevOs.Loader

open Bytes

abbrev systemSpace48Kernel : ℕ := 0x80000

/-- `InitData.ImageBase` and `kproc`, kept beside the bytes of the image they are part of. -/
structure KernelPointers where
  imageBase : ℕ
  kproc : ℕ
deriving DecidableEq, Repr

def kernelRelocate (table : ImageDataDirectory) (systemSpaceBase : ℕ) (k : KernelPointers)
    (bytes : Buffer) :
    Option (Image × KernelPointers) :=
  let imageBase := (systemSpaceBase + systemSpace48Kernel) % 2 ^ 64
  (relocateBlocks k.imageBase imageBase (table.virtualAddress + table.size) (table.size + 2)
    table.virtualAddress ⟨bytes, []⟩).map fun s =>
      (s, ⟨imageBase, (k.kproc + (2 ^ 64 - k.imageBase) + imageBase) % 2 ^ 64⟩)

/-- The targets of `n` entries from the entry `i` on. -/
def entryTargets (b : Buffer) (o : ℕ) : ℕ → ℕ → List ℕ
  | 0, _ => []
  | n + 1, i =>
    if IsDir64 b o i then targetRebase b o i :: entryTargets b o n (i + 1)
      else entryTargets b o n (i + 1)

def blockTargets (b : Buffer) (o : ℕ) : List ℕ := entryTargets b o ((blockSize b o - 8) / 2) 0

/-- The table names targets from `o` on. It ends as in `Fits`. -/
inductive Names (stop : ℕ) (b : Buffer) : ℕ → List ℕ → Prop where
  | mark {o} (h : o + 8 ≤ stop) (hm : pageRva b o = 0 ∨ blockSize b o = 0) : Names stop b o []
  | last {o} (h : BlockInside stop b o) (hend : stop < o + blockSize b o) : Names stop b o
      (blockTargets b o)
  | block {o ts} (h : BlockInside stop b o) (rest : Names stop b (o + blockSize b o) ts) :
      Names stop b o (blockTargets b o ++ ts)

/-- The table names targets that are clear of it and of each other. -/
structure Relocatable (table : ImageDataDirectory) (b : Buffer) (ts : List ℕ) : Prop where
  names : Names (table.virtualAddress + table.size) b table.virtualAddress ts
  away : ∀ t ∈ ts, t + 8 ≤ table.virtualAddress ∨ table.virtualAddress + table.size ≤ t
  clear : ts.Pairwise (Clear 8)

def Untouched (table : ImageDataDirectory) (ts : List ℕ) (b c : Buffer) : Prop :=
  ∀ i, table.virtualAddress ≤ i ∧ i < table.virtualAddress + table.size ∨ InWords 8 ts i → c i = b i

section Rounds

variable {start stop preferred imageBase o i n fuel : ℕ} {b c : Buffer} {s : Image} {ts : List ℕ}

def SameTable (start stop : ℕ) (b c : Buffer) : Prop := ∀ i, start ≤ i → i < stop → c i = b i

theorem SameTable.getLE {k : ℕ} (h : SameTable start stop b c) (ho : start ≤ o)
    (hk : o + k ≤ stop) :
    Bytes.getLE c o k = Bytes.getLE b o k := getLE_congr fun j hj => h (o + j) (by omega) (by omega)

theorem SameTable.foldl (h : SameTable start stop b c) (d : ℕ)
    (haway : ∀ t ∈ ts, t + 8 ≤ start ∨ stop ≤ t) :
    SameTable start stop b (ts.foldl (addAt 8 d) c) := by
  intro j hl hu
  rw [foldl_addAt_of_not_mem, h j hl hu]
  rintro ⟨t, ht, hin⟩
  have hout := haway t ht
  omega

theorem relocateEntry_addAt (h : IsDir64 s.bytes o i) :
    (relocateEntry preferred imageBase o i s).bytes =
      addAt 8 (baseDelta imageBase preferred) s.bytes (targetRebase s.bytes o i) := by
  rw [relocateEntry_of_dir64 h]
  rfl

/-- The additions of some entries are those at their targets, as the table names them. -/
theorem relocateEntries_foldl (h : SameTable start stop b s.bytes) (ho : start ≤ o)
    (hentries : o + 8 + 2 * (i + n) ≤ stop)
    (haway : ∀ t ∈ entryTargets b o n i, t + 8 ≤ start ∨ stop ≤ t) :
    (relocateEntries preferred imageBase o n i s).bytes =
      (entryTargets b o n i).foldl (addAt 8 (baseDelta imageBase preferred)) s.bytes := by
  induction n generalizing i s with
  | zero => rfl
  | succ n ih =>
    have hword : entryWord s.bytes o i = entryWord b o i := h.getLE (by omega) (by omega)
    have hdir : IsDir64 s.bytes o i ↔ IsDir64 b o i := by rw [IsDir64, IsDir64, hword]
    have htarget : targetRebase s.bytes o i = targetRebase b o i := by
      rw [targetRebase, targetRebase, hword, pageRva, pageRva, h.getLE ho (by omega)]
    rw [relocateEntries]
    by_cases hd : IsDir64 b o i
    · have hbytes : (relocateEntry preferred imageBase o i s).bytes =
          addAt 8 (baseDelta imageBase preferred) s.bytes (targetRebase b o i) := by
        rw [relocateEntry_addAt (hdir.mpr hd), htarget]
      rw [entryTargets, if_pos hd] at haway ⊢
      have hsame : SameTable start stop b (relocateEntry preferred imageBase o i s).bytes := by
        have hone : ∀ t ∈ [targetRebase b o i], t + 8 ≤ start ∨ stop ≤ t :=
          fun t ht => haway t (List.mem_cons.mpr (Or.inl (List.mem_singleton.mp ht)))
        rw [hbytes]
        exact h.foldl _ hone
      rw [ih hsame (by omega) fun t ht => haway t (List.mem_cons_of_mem _ ht), hbytes,
        List.foldl_cons]
    · have hbytes : (relocateEntry preferred imageBase o i s).bytes = s.bytes := by
        rw [relocateEntry_of_not_dir64 fun hs => hd (hdir.mp hs)]
        rfl
      rw [entryTargets, if_neg hd] at haway ⊢
      rw [ih (by rw [hbytes]; exact h) (by omega) haway, hbytes]

theorem relocateBlocks_inside (fuel : ℕ) (hb : BlockInside stop b o)
    (h : SameTable start stop b s.bytes) (ho : start ≤ o)
    (haway : ∀ t ∈ blockTargets b o, t + 8 ≤ start ∨ stop ≤ t) :
    ∃ s', relocateBlocks preferred imageBase stop (fuel + 1) o s =
        relocateBlocks preferred imageBase stop fuel (o + blockSize b o) s' ∧
      s'.bytes = (blockTargets b o).foldl (addAt 8 (baseDelta imageBase preferred)) s.bytes := by
  have h8 := hb.header
  have hentries := hb.entries
  have hpage : pageRva s.bytes o = pageRva b o := h.getLE ho (by omega)
  have hsize : blockSize s.bytes o = blockSize b o := h.getLE (by omega) (by omega)
  have hmark : ¬(pageRva s.bytes o = 0 ∨ blockSize s.bytes o = 0) := by
    rw [hpage, hsize]
    rintro (h0 | h0)
    · exact hb.page h0
    · omega
  refine ⟨_, (relocateBlocks_block fuel (by omega) hmark).trans (by rw [hsize]), ?_⟩
  rw [entriesCount_eq h8 (blockSize_lt b o)]
  exact relocateEntries_foldl (s := s.note .blockHeader o 8) h ho (by omega) haway

theorem Names.relocateBlocks (hn : Names stop b o ts) (h : SameTable start stop b s.bytes)
    (ho : start ≤ o) (haway : ∀ t ∈ ts, t + 8 ≤ start ∨ stop ≤ t) (hfuel : stop + 2 ≤ o + fuel) :
    ∃ r, relocateBlocks preferred imageBase stop fuel o s = some r ∧
      r.bytes = ts.foldl (addAt 8 (baseDelta imageBase preferred)) s.bytes := by
  induction hn generalizing fuel s with
  | mark h8 hm =>
    rename_i o
    obtain ⟨fuel, rfl⟩ : ∃ n, fuel = n + 1 := ⟨fuel - 1, by omega⟩
    refine ⟨_, relocateBlocks_mark fuel (by omega) ?_, rfl⟩
    rw [pageRva, blockSize, h.getLE ho (by omega), h.getLE (by omega) (by omega)]
    exact hm
  | last hb hend =>
    have hentries := hb.entries
    obtain ⟨fuel, rfl⟩ : ∃ n, fuel = n + 2 := ⟨fuel - 2, by omega⟩
    obtain ⟨s', hrun, hbytes⟩ := relocateBlocks_inside (fuel + 1) hb h ho haway
    rw [relocateBlocks_end fuel hend] at hrun
    exact ⟨s', hrun, hbytes⟩
  | block hb rest ih =>
    rename_i o ts
    have h8 := hb.header
    have hentries := hb.entries
    obtain ⟨fuel, rfl⟩ : ∃ n, fuel = n + 1 := ⟨fuel - 1, by omega⟩
    have hfirst : ∀ t ∈ blockTargets b o, t + 8 ≤ start ∨ stop ≤ t :=
      fun t ht => haway t (List.mem_append_left ts ht)
    have hrest : ∀ t ∈ ts, t + 8 ≤ start ∨
      stop ≤ t := fun t ht => haway t (List.mem_append_right _ ht)
    obtain ⟨s', hrun, hbytes⟩ := relocateBlocks_inside fuel hb h ho hfirst
    have hsame : SameTable start stop b s'.bytes := by
      rw [hbytes]
      exact h.foldl _ hfirst
    have hnext : stop + 2 ≤ o + blockSize b o + fuel := by omega
    obtain ⟨r, hr, hrbytes⟩ := ih hsame (by omega) hrest hnext
    refine ⟨r, hrun.trans hr, ?_⟩
    rw [hrbytes, hbytes, List.foldl_append]

theorem baseDelta_add (preferred imageBase : ℕ) {virtualBuffer : ℕ} (hv : virtualBuffer < 2 ^ 64) :
    (baseDelta virtualBuffer preferred + baseDelta imageBase virtualBuffer) % 256 ^ 8 =
      baseDelta imageBase preferred % 256 ^ 8 := by
  rw [baseDelta, baseDelta, baseDelta]
  omega

theorem addAt_eq_of_mod {d e : ℕ} (h : d % 256 ^ 8 = e % 256 ^ 8) : addAt 8 d = addAt 8 e := by
  funext b t
  rw [← addAt_mod d, h, addAt_mod]

end Rounds

section Twice

variable {peImage : PeImageHdr} {imageBuffer virtualBuffer : ℕ} {bytes : Buffer} {ts : List ℕ}

theorem peRelocateImage_foldl (h : Relocatable peImage.baseRelocationTable bytes ts)
    (himage : imageBuffer ≠ 0) (hvirtual : virtualBuffer ≠ 0) (imageBase : ℕ) :
    ∃ r, peRelocateImage (some peImage) imageBuffer virtualBuffer imageBase bytes = some (r, true) ∧
      r.bytes = ts.foldl
        (addAt 8 (baseDelta (if imageBase = 0 then virtualBuffer else imageBase) peImage.imageBase))
          bytes := by
  have hsame : SameTable peImage.baseRelocationTable.virtualAddress
      (peImage.baseRelocationTable.virtualAddress + peImage.baseRelocationTable.size) bytes bytes :=
      fun _ _ _ => rfl
  have hfuel : peImage.baseRelocationTable.virtualAddress + peImage.baseRelocationTable.size + 2 ≤
      peImage.baseRelocationTable.virtualAddress + (peImage.baseRelocationTable.size + 2) := by
        omega
  obtain ⟨r, hr, hbytes⟩ :=
    h.names.relocateBlocks (s := ⟨bytes, []⟩) hsame (Nat.le_refl _) h.away hfuel
  refine ⟨r, ?_, hbytes⟩
  rw [peRelocateImage, if_neg (by omega), if_neg (by omega)]
  dsimp only
  rw [hr, Option.map_some]

/-- The kernel, when it has moved itself, has in the words of the table what one relocation to the
system space would have put there, and everything else as it left it. `kproc` points to the same
place of the image. -/
theorem kernel_relocated (h : Relocatable peImage.baseRelocationTable bytes ts)
    (himage : imageBuffer ≠ 0) (hvirtual : virtualBuffer ≠ 0) (hlt : virtualBuffer < 2 ^ 64)
    {systemSpaceBase : ℕ} (hspace : systemSpaceBase + systemSpace48Kernel < 2 ^ 64) (kproc : ℕ) :
    ∃ loaded direct,
      peRelocateImage (some peImage) imageBuffer virtualBuffer 0 bytes = some (loaded, true) ∧
      peRelocateImage (some peImage) imageBuffer virtualBuffer
        (systemSpaceBase + systemSpace48Kernel) bytes =
        some (direct, true) ∧
      ∀ m, Untouched peImage.baseRelocationTable ts loaded.bytes m → ∃ moved,
        kernelRelocate peImage.baseRelocationTable systemSpaceBase ⟨virtualBuffer, kproc⟩ m =
          some (moved, ⟨systemSpaceBase + systemSpace48Kernel,
            (kproc + baseDelta (systemSpaceBase + systemSpace48Kernel) virtualBuffer) % 2 ^ 64⟩) ∧
        ∀ i, moved.bytes i = if InWords 8 ts i then direct.bytes i else m i := by
  obtain ⟨loaded, hloaded, hbytes⟩ := peRelocateImage_foldl h himage hvirtual 0
  obtain ⟨direct, hdirect, hdbytes⟩ :=
    peRelocateImage_foldl h himage hvirtual (systemSpaceBase + systemSpace48Kernel)
  rw [if_pos rfl] at hbytes
  have hne : systemSpaceBase + systemSpace48Kernel ≠ 0 :=
    Nat.ne_of_gt (Nat.add_pos_right _ (by decide))
  rw [if_neg hne] at hdbytes
  refine ⟨loaded, direct, hloaded, hdirect, fun m hm => ?_⟩
  have hsame : SameTable peImage.baseRelocationTable.virtualAddress
      (peImage.baseRelocationTable.virtualAddress + peImage.baseRelocationTable.size) bytes m := by
    intro j hl hu
    have hkept : SameTable peImage.baseRelocationTable.virtualAddress
        (peImage.baseRelocationTable.virtualAddress + peImage.baseRelocationTable.size) bytes
        loaded.bytes := by
      rw [hbytes]
      exact SameTable.foldl (fun _ _ _ => rfl) _ h.away
    rw [hm j (Or.inl ⟨hl, hu⟩), hkept j hl hu]
  have hfuel : peImage.baseRelocationTable.virtualAddress + peImage.baseRelocationTable.size + 2 ≤
      peImage.baseRelocationTable.virtualAddress + (peImage.baseRelocationTable.size + 2) := by
        omega
  obtain ⟨moved, hmoved, hmbytes⟩ :=
    h.names.relocateBlocks (s := ⟨m, []⟩) hsame (Nat.le_refl _) h.away hfuel
  refine ⟨moved, ?_, fun i => ?_⟩
  · rw [kernelRelocate, Nat.mod_eq_of_lt hspace]
    dsimp only
    rw [hmoved, Option.map_some, baseDelta, Nat.add_mod_mod, Nat.add_assoc,
      Nat.add_comm (2 ^ 64 - virtualBuffer)]
  · split_ifs with hi
    · have hwords : ∀ j, InWords 8 ts j → m j = loaded.bytes j := fun j hj => hm j (Or.inr hj)
      have hdelta :=
        addAt_eq_of_mod
          (baseDelta_add peImage.imageBase (systemSpaceBase + systemSpace48Kernel) hlt)
      rw [hmbytes, foldl_addAt_congr _ hwords (hwords i hi), hbytes,
        foldl_addAt_foldl_addAt _ _ h.clear, hdelta, hdbytes]
    · rw [hmbytes, foldl_addAt_of_not_mem _ hi]

end Twice

/-- An image with one pointer, at `0x1010`, and the table that names it. -/
def pointerImage : Buffer :=
  setLE (setLE (setLE (setLE (fun _ => 0) 0x100 4 0x1000) 0x104 4 12) 0x108 2 0xA010) 0x1010 8
    0x140002000

def pointerHdr : PeImageHdr where
  signature := 0x4550
  machineType := 0x8664
  numSections := 1
  sizeofOptionnalHeader := 240
  imageBase := 0x140000000
  subsystem := 1
  dllCharacteristics := 0x40
  numDataDirectories := 16
  exportTable := ⟨0, 0⟩
  baseRelocationTable := ⟨0x100, 20⟩

theorem pointerImage_relocatable : Relocatable pointerHdr.baseRelocationTable pointerImage
    [0x1010] := by
  have hinside : BlockInside 276 pointerImage 256 := ⟨by decide, by decide, by decide⟩
  have hmark : Names 276 pointerImage (256 + blockSize pointerImage 256) [] :=
    .mark (by decide) (by decide)
  exact ⟨.block hinside hmark, by decide, by decide⟩

theorem kernel_relocated_pointer : ∃ loaded moved pointers,
    peRelocateImage (some pointerHdr) 1 0x200000 0 pointerImage = some (loaded, true) ∧
    kernelRelocate pointerHdr.baseRelocationTable 0xFFFF800000000000
      ⟨0x200000, 0x203000⟩ loaded.bytes =
      some (moved, pointers) ∧
    getLE moved.bytes 0x1010 8 = 0xFFFF800000082000 ∧ pointers.kproc = 0xFFFF800000083000 := by
  obtain ⟨loaded, direct, hloaded, hdirect, hmoves⟩ := kernel_relocated pointerImage_relocatable
    (show 1 ≠ 0 by decide) (show 0x200000 ≠ 0 by decide) (by decide)
    (show 0xFFFF800000000000 + systemSpace48Kernel < 2 ^ 64 by decide) 0x203000
  obtain ⟨moved, hmoved, hbytes⟩ := hmoves loaded.bytes fun _ _ => rfl
  have hword : getLE moved.bytes 0x1010 8 = getLE direct.bytes 0x1010 8 :=
    getLE_congr fun i hi => (hbytes _).trans
      (if_pos ⟨0x1010, List.mem_cons_self, by omega, by omega⟩)
  have hdirectWord :
    (peRelocateImage (some pointerHdr) 1 0x200000 (0xFFFF800000000000 + systemSpace48Kernel)
      pointerImage).map (fun r => getLE r.1.bytes 0x1010 8) = some 0xFFFF800000082000 := by decide
  rw [hdirect] at hdirectWord
  refine ⟨loaded, moved, _, hloaded, hmoved, hword.trans (Option.some.inj hdirectWord), by decide⟩

end DevOs.Loader
