import DevOs.Fat32.Coherence

/-!
# Two runs in lockstep

The functions of the driver compute the same from two states with the same drive, the same counters
and the same cached sector, whatever the contents of `EntryName` are. They leave such states again,
and leave `EntryName` as it is. Two states whose cached sectors differ are in lockstep as soon as an
entry of the FAT has been looked up.
-/

namespace DevOs.Fat32

open Bytes

variable {g : Geometry} {e f : ℕ → WChar} {s t : State} {c n : ℕ} {b : Buffer}

/-- The counters that the FSInfo sectors hold. -/
structure SameInfo (i j : FsInfo) : Prop where
  free : j.freeClusters = i.freeClusters
  recent : j.recentlyAllocatedCluster % 2 ^ 32 = i.recentlyAllocatedCluster % 2 ^ 32

/-- The states differ in the writes so far and in `EntryName` only, which is `e` in the first one
and `f` in the second one. -/
structure Alike (e f : ℕ → WChar) (s t : State) : Prop where
  disk : t.disk = s.disk
  boot : t.partition.boot = s.partition.boot
  fsInfo : SameInfo s.partition.fsInfo t.partition.fsInfo
  secondaryFsInfo : t.partition.secondaryFsInfo = s.partition.secondaryFsInfo
  fatSectorNumber : t.partition.fatSectorNumber = s.partition.fatSectorNumber
  fatSector : ∀ j < 512, t.partition.fatSector j = s.partition.fatSector j
  left : s.entryName = e
  right : t.entryName = f

/-- Two choices of the form of an entry that lead to the same entry: a long name of the same number
of slots, or a short name with the same flags. -/
def SameForm (a b : ℕ × SfnFlags) : Prop := a.1 = b.1 ∧ (a.1 = 0 → a.2 = b.2)

instance (a b : ℕ × SfnFlags) : Decidable (SameForm a b) := inferInstanceAs (Decidable (_ ∧ _))

def Both {α : Type} (e f : ℕ → WChar) (x y : State × α) : Prop := Alike e f x.1 y.1 ∧ y.2 = x.2

theorem SameInfo.bytes {i j : FsInfo} (h : SameInfo i j) : j.bytes = i.bytes := by
  have hrecent (b : Buffer) :
      setLE b 492 4 j.recentlyAllocatedCluster = setLE b 492 4 i.recentlyAllocatedCluster := by
    have hget : getLE (setLE b 492 4 i.recentlyAllocatedCluster) 492 4 =
        getLE (setLE b 492 4 j.recentlyAllocatedCluster) 492 4 := by
      rw [getLE_setLE_self, getLE_setLE_self]
      exact h.recent.symm
    funext k
    by_cases hk : 492 ≤ k ∧ k < 496
    · have hbyte := byte_eq_of_getLE_eq hget (k - 492) (by omega)
      rw [show 492 + (k - 492) = k by omega] at hbyte
      exact hbyte.symm
    · rw [setLE_of_not_mem _ (by omega), setLE_of_not_mem _ (by omega)]
  rw [FsInfo.bytes, FsInfo.bytes, h.free, hrecent]

theorem rel_map {α β γ δ : Type} {r : α → β → Prop} {q : γ → δ → Prop} {x : Option α} {y : Option β}
    {u : α → γ} {v : β → δ} (h : Option.Rel r x y) (huv : ∀ {a b}, r a b → q (u a) (v b)) :
    Option.Rel q (x.map u) (y.map v) := by
  cases h with
  | none => exact .none
  | some h => exact .some (huv h)

theorem both_cases {α : Type} {x y : Option (State × α)} (h : Option.Rel (Both e f) x y) :
    (x = none ∧ y = none) ∨ ∃ s t r, x = some (s, r) ∧ y = some (t, r) ∧ Alike e f s t := by
  cases h with
  | none => exact Or.inl ⟨rfl, rfl⟩
  | @some p q hb =>
    obtain ⟨hst, hr⟩ := hb
    exact Or.inr ⟨p.1, q.1, p.2, rfl, by rw [← hr], hst⟩

theorem both_some {α : Type} {x y : Option (State × α)} {r : α}
    (h : Option.Rel (Both e f) x y) (hx : x = some (s, r)) :
    ∃ t, y = some (t, r) ∧ Alike e f s t := by
  rcases both_cases h with ⟨hnone, -⟩ | ⟨s', t, r', hs, ht, hst⟩
  · rw [hx] at hnone
    cases hnone
  · rw [hx] at hs
    cases hs
    exact ⟨t, ht, hst⟩

section Sectors

variable (h : Alike e f s t)

include h

theorem Alike.read : t.read = s.read := by
  funext sector numSectors
  rw [State.read, State.read, h.disk]

theorem Alike.primaryFat : t.partition.primaryFat = s.partition.primaryFat := by
  rw [Partition.primaryFat, Partition.primaryFat, h.boot]

theorem Alike.secondaryFat : t.partition.secondaryFat = s.partition.secondaryFat := by
  rw [Partition.secondaryFat, Partition.secondaryFat, h.primaryFat, h.boot]

theorem Alike.clusterSector (c : ℕ) :
    t.partition.clusterSector c = s.partition.clusterSector c := by
  rw [Partition.clusterSector, Partition.clusterSector, h.boot]

theorem Alike.dataClusters : t.partition.dataClusters = s.partition.dataClusters := by
  rw [Partition.dataClusters, Partition.dataClusters, h.boot]

theorem Alike.entriesPerCluster :
    t.partition.entriesPerCluster = s.partition.entriesPerCluster := by
  rw [Partition.entriesPerCluster, Partition.entriesPerCluster, Partition.clusterBytes,
    Partition.clusterBytes, h.boot]

theorem Alike.write (b : Buffer) (sector numSectors : ℕ) (kind : WriteKind) :
    Alike e f (s.write b sector numSectors kind) (t.write b sector numSectors kind) :=
  { h with disk := by rw [State.write, State.write, h.disk] }

theorem Alike.writeFat (b : Buffer) (x : ℕ) : Alike e f (s.writeFat b x) (t.writeFat b x) := by
  rw [State.writeFat, State.writeFat, h.primaryFat, h.secondaryFat]
  exact (h.write b _ 1 .fat).write b _ 1 .fat

theorem Alike.fatEntry (c : ℕ) : Both e f (s.fatEntry c) (t.fatEntry c) := by
  have hlow : 4 * (c % 128) + 4 ≤ 512 := by omega
  rw [State.fatEntry, State.fatEntry, h.boot, h.fatSectorNumber, h.read]
  dsimp only
  split_ifs
  · exact ⟨{ h with boot := h.boot, fatSectorNumber := rfl, fatSector := fun _ _ => rfl }, rfl⟩
  · exact ⟨h, getLE_congr fun i hi => h.fatSector _ (by omega)⟩

theorem Alike.setEntryName (name : Name) :
    Alike (s.setEntryName name).entryName (t.setEntryName name).entryName (s.setEntryName name)
      (t.setEntryName name) :=
  ⟨h.disk, h.boot, h.fsInfo, h.secondaryFsInfo, h.fatSectorNumber, h.fatSector, rfl, rfl⟩

end Sectors

/-- The cached sectors are the ones on the drive, which is the same. Behind the lookup of an entry
in the FAT both hold its sector. -/
theorem Coherent.alike_fatEntry (hs : Coherent g s) (ht : Coherent g t) (hg : g.Valid)
    (hdisk : t.disk = s.disk) (hinfo : SameInfo s.partition.fsInfo t.partition.fsInfo)
    (hc : c < g.fatEntries) :
    Both s.entryName t.entryName (s.fatEntry c) (t.fatEntry c) := by
  have hx : c / 128 < g.sectorsPerFat := by
    rw [Geometry.fatEntries] at hc
    omega
  have hboot : t.partition.boot = s.partition.boot := ht.boot.trans hs.boot.symm
  have hcached {r : State} (hr : Coherent g r) (hrd : r.disk = s.disk) :
      (r.fatEntry c).1.partition.fatSectorNumber = g.fatStart + c / 128 ∧
        ∀ j < 512, (r.fatEntry c).1.partition.fatSector j =
        s.disk (512 * (g.fatStart + c / 128) + j) := by
    have hfits := hg.fits
    have hspf := hg.sectorsPerFat_lt
    have hstart : g.fatStart = g.baseLba + g.numReservedSectors + 16 := rfl
    have hsector := hr.entrySector hg c
    rw [u32, u32, Nat.mod_eq_of_lt (show g.fatStart + c / 128 < 2 ^ 32 by omega)] at hsector
    have hnum : (r.fatEntry c).1.partition.fatSectorNumber = g.fatStart + c / 128 := by
      rw [State.fatEntry, u32, hsector]
      dsimp only
      split_ifs with hne
      · rfl
      · exact not_not.mp hne
    refine ⟨hnum, fun j hj => ?_⟩
    rw [(hr.fatEntry c).cache _ hx hnum j hj, (cached_fatEntry r c).disk, hrd]
  obtain ⟨hsn, hsc⟩ := hcached hs rfl
  obtain ⟨htn, htc⟩ := hcached ht hdisk
  obtain ⟨x, b, hsx⟩ := cached_fatEntry s c
  obtain ⟨y, d, hty⟩ := cached_fatEntry t c
  constructor
  · refine ⟨?_, ?_, ?_, ?_, htn.trans hsn.symm,
      fun j hj => (htc j hj).trans (hsc j hj).symm, ?_, ?_⟩
    · rw [hsx, hty]
      exact hdisk
    · rw [hsx, hty]
      exact hboot
    · rw [hsx, hty]
      exact hinfo
    · rw [hsx, hty]
      exact ht.secondaryFsInfo.trans hs.secondaryFsInfo.symm
    · rw [hsx]
    · rw [hty]
  · rw [State.fatEntry, State.fatEntry]
    apply getLE_congr
    intro i hi
    exact (htc _ (by omega)).trans (hsc _ (by omega)).symm

section Allocate

variable {a : Allocation} {x i numClusters : ℕ}

theorem Alike.linkEntry (h : Alike e f s t) (x i : ℕ) (a : Allocation) :
    Both e f (linkEntry x i s a) (linkEntry x i t a) := by
  rw [Fat32.linkEntry, Fat32.linkEntry]
  split_ifs
  · exact ⟨h.writeFat _ _, rfl⟩
  · exact ⟨h, rfl⟩
  · exact ⟨h, rfl⟩

theorem Alike.setFsInfo {k l : FsInfo} (h : Alike e f s t) (hi : SameInfo k l) :
    Alike e f { s with partition := { s.partition with fsInfo := k } }
      { t with partition := { t.partition with fsInfo := l } } :=
  ⟨h.disk, h.boot, hi, h.secondaryFsInfo, h.fatSectorNumber, h.fatSector, h.left, h.right⟩

theorem Alike.scanEntry (h : Alike e f s t) (numClusters x i : ℕ) (a : Allocation) :
    Sum.LiftRel (Both e f) (Both e f) (scanEntry numClusters x i s a)
      (scanEntry numClusters x i t a) := by
  rw [Fat32.scanEntry, Fat32.scanEntry]
  split_ifs
  · obtain ⟨hlink, ha⟩ := h.linkEntry x i a
    dsimp only
    rw [ha]
    split_ifs
    · have hinfo : SameInfo
          { (Fat32.linkEntry x i s a).1.partition.fsInfo with
            recentlyAllocatedCluster := u32 (128 * x + i) }
          { (Fat32.linkEntry x i t a).1.partition.fsInfo with
            recentlyAllocatedCluster := u32 (128 * x + i) } :=
        ⟨hlink.fsInfo.free, rfl⟩
      exact .inl ⟨(hlink.setFsInfo hinfo).writeFat _ _, rfl⟩
    · exact .inr ⟨hlink, rfl⟩
  · exact .inr ⟨h, rfl⟩

theorem Alike.scanSector (h : Alike e f s t) (numClusters x n i : ℕ) (a : Allocation) :
    Sum.LiftRel (Both e f) (Both e f) (scanSector numClusters x n i s a)
      (scanSector numClusters x n i t a) := by
  induction n generalizing i s t a with
  | zero => exact .inr ⟨h, rfl⟩
  | succ n ih =>
    have hentry := h.scanEntry numClusters x i a
    rw [Fat32.scanSector, Fat32.scanSector]
    rcases hs : Fat32.scanEntry numClusters x i s a with r | ⟨s', a'⟩ <;>
      rcases ht : Fat32.scanEntry numClusters x i t a with r' | ⟨t', b'⟩ <;> rw [hs, ht] at hentry
    · exact hentry
    · cases hentry
    · cases hentry
    · obtain ⟨hst, ha⟩ := Sum.liftRel_inr_inr.mp hentry
      cases ha
      exact ih hst _ _

theorem Alike.endSector (h : Alike e f s t) (x : ℕ) (a : Allocation) :
    Both e f (endSector x s a) (endSector x t a) := by
  rw [Fat32.endSector, Fat32.endSector]
  split_ifs
  · exact ⟨h.writeFat _ _, rfl⟩
  · exact ⟨h, rfl⟩
  · exact ⟨h.writeFat _ _, rfl⟩
  · exact ⟨h, rfl⟩

theorem Alike.scanFat (h : Alike e f s t) (numClusters n x : ℕ) (a : Allocation) :
    Both e f (scanFat numClusters n x s a) (scanFat numClusters n x t a) := by
  induction n generalizing x s t a with
  | zero => exact ⟨h, rfl⟩
  | succ n ih =>
    rw [Fat32.scanFat, Fat32.scanFat, h.read, h.primaryFat]
    dsimp only
    generalize { a with generalPurpose := s.read (u32 (s.partition.primaryFat + x)) 1 } = a
    have hsector := h.scanSector numClusters x 128 0 a
    rcases hs : Fat32.scanSector numClusters x 128 0 s a with r | ⟨s', a'⟩ <;>
      rcases ht : Fat32.scanSector numClusters x 128 0 t a with r' | ⟨t', b'⟩ <;>
      rw [hs, ht] at hsector
    · exact Sum.liftRel_inl_inl.mp hsector
    · cases hsector
    · cases hsector
    · obtain ⟨hst, ha⟩ := Sum.liftRel_inr_inr.mp hsector
      cases ha
      obtain ⟨hend, ha⟩ := hst.endSector x a'
      dsimp only
      rw [ha]
      exact ih hend _ _

theorem Alike.relink (h : Alike e f s t) (z n c lastFatSector : ℕ) (gp : Buffer) :
    Option.Rel (Alike e f) (relink z n c lastFatSector gp s) (relink z n c lastFatSector gp t) := by
  induction n generalizing c lastFatSector gp with
  | zero => exact .none
  | succ n ih =>
    rw [Fat32.relink, Fat32.relink, h.read, h.primaryFat]
    split_ifs
    · exact .some (h.writeFat _ _)
    · exact ih _ _ _
    · exact .some (h.writeFat _ _)
    · exact ih _ _ _

theorem Alike.finishAllocation (h : Alike e f s t) (numClusters : ℕ) :
    Alike e f (finishAllocation s numClusters) (finishAllocation t numClusters) := by
  have hinfo : SameInfo
      { s.partition.fsInfo with freeClusters := sub32 s.partition.fsInfo.freeClusters numClusters }
      { t.partition.fsInfo with
        freeClusters := sub32 t.partition.fsInfo.freeClusters numClusters } :=
    ⟨by rw [h.fsInfo.free], h.fsInfo.recent⟩
  have hwritten := ((h.setFsInfo hinfo).write (FsInfo.bytes
      { s.partition.fsInfo with freeClusters := sub32 s.partition.fsInfo.freeClusters numClusters })
    (u32 (s.partition.boot.hiddenSectors + s.partition.boot.fsInfoLba)) 1 .fsInfo).write
      (FsInfo.bytes
      { s.partition.fsInfo with freeClusters := sub32 s.partition.fsInfo.freeClusters numClusters })
    s.partition.secondaryFsInfo 1 .fsInfo
  rw [Fat32.finishAllocation, Fat32.finishAllocation, hinfo.bytes]
  dsimp only [State.write]
  rw [h.boot, h.secondaryFsInfo]
  exact ⟨hwritten.disk, rfl, hinfo, rfl, rfl, h.fatSector, h.left, h.right⟩

theorem Alike.allocate (h : Alike e f s t) (c n : ℕ) :
    Option.Rel (Both e f) (fat32AllocateClusterChain s c n) (fat32AllocateClusterChain t c n) := by
  have hscan := h.scanFat n s.partition.boot.sectorsPerFat 0
    ⟨fun _ => 0, fun _ => 0, 0, 0, 0, 0, 0, 0, false⟩
  rw [fat32AllocateClusterChain, fat32AllocateClusterChain, h.dataClusters, h.fsInfo.free, h.boot]
  split_ifs
  · exact .some ⟨h, rfl⟩
  · exact .some ⟨h, rfl⟩
  · exact .some ⟨h, rfl⟩
  · exact .some ⟨h, rfl⟩
  · dsimp only
    rw [hscan.2]
    exact rel_map (hscan.1.relink _ walkFuel c _ _) fun hlink => ⟨hlink.finishAllocation n, rfl⟩
  · dsimp only
    rw [hscan.2]
    exact .some ⟨hscan.1.finishAllocation n, rfl⟩

end Allocate

theorem Alike.getLastCluster (h : Alike e f s t) (n c lastFatSector : ℕ) (gp : Buffer) :
    getLastCluster t n c lastFatSector gp = getLastCluster s n c lastFatSector gp := by
  induction n generalizing c lastFatSector gp with
  | zero => rfl
  | succ n ih =>
    rw [Fat32.getLastCluster, Fat32.getLastCluster, h.read, h.primaryFat]
    rw [ih]

theorem Alike.writeCluster (h : Alike e f s t) (c : ℕ) (b : Buffer) :
    Alike e f (fat32WriteCluster s c b) (fat32WriteCluster t c b) := by
  rw [fat32WriteCluster, fat32WriteCluster, h.clusterSector, h.boot]
  split_ifs
  · exact h
  · exact h.write _ _ _ _

theorem Alike.getNextCluster (h : Alike e f s t) (c : ℕ) :
    Both e f (fat32GetNextCluster s c) (fat32GetNextCluster t c) := by
  rw [fat32GetNextCluster, fat32GetNextCluster]
  split_ifs
  · exact ⟨h, rfl⟩
  · exact h.fatEntry c

theorem Alike.clearChain (h : Alike e f s t) (n c : ℕ) :
    Option.Rel (Alike e f) (clearChain n s c) (clearChain n t c) := by
  induction n generalizing c s t with
  | zero => exact .none
  | succ n ih =>
    obtain ⟨hnext, hc⟩ := h.getNextCluster c
    rw [Fat32.clearChain, Fat32.clearChain]
    dsimp only
    rw [hc]
    split_ifs
    · exact .some hnext
    · exact ih (hnext.writeCluster c _) _

section Chains

variable {σ ρ : Type}

theorem Alike.readCluster (h : Alike e f s t) (c : ℕ) (ended : Bool) (b : Buffer) :
    Alike e f (fat32ReadCluster s c ended b).state (fat32ReadCluster t c ended b).state ∧
      fat32ReadCluster t c ended b =
        { fat32ReadCluster s c ended b with state := (fat32ReadCluster t c ended b).state } := by
  rw [fat32ReadCluster, fat32ReadCluster]
  split_ifs
  · exact ⟨h, rfl⟩
  · exact ⟨h, rfl⟩
  · obtain ⟨hentry, hval⟩ := h.fatEntry c
    refine ⟨hentry, ?_⟩
    dsimp only
    rw [hval, hentry.read, hentry.clusterSector, hentry.boot]

theorem Alike.readChain (h : Alike e f s t) (body : ℕ → Buffer → σ → ρ ⊕ σ) (n c : ℕ) (ended : Bool)
    (acc : σ) :
    Option.Rel (Both e f) (readChain body n s c ended acc) (readChain body n t c ended acc) := by
  induction n generalizing s t c ended acc with
  | zero => exact .none
  | succ n ih =>
    obtain ⟨hst, hread⟩ := h.readCluster c ended fun _ => 0
    rw [Fat32.readChain, Fat32.readChain]
    rw [hread]
    split_ifs
    · cases body c (fat32ReadCluster s c ended fun _ => 0).buffer acc with
      | inl x => exact .some ⟨hst, rfl⟩
      | inr acc => exact ih hst _ _ _
    · exact .some ⟨hst, rfl⟩

theorem fatEntry_fatEntry (s : State) (c : ℕ) : (s.fatEntry c).1.fatEntry c = s.fatEntry c := by
  by_cases h : s.partition.fatSectorNumber =
      u32 (s.partition.boot.hiddenSectors + s.partition.boot.reservedAreaSize + c / 128)
  · have hsame : (s.fatEntry c).1 = s := by
      rw [State.fatEntry]
      exact if_neg (not_not.mpr h)
    rw [hsame]
  · rw [State.fatEntry, State.fatEntry]
    simp only [ne_eq, h, not_false_eq_true, if_true, not_true_eq_false, if_false]

theorem readChain_fatEntry (body : ℕ → Buffer → σ → ρ ⊕ σ) (n : ℕ) (acc : σ) (hc : 2 ≤ c) :
    readChain body n (s.fatEntry c).1 c false acc = readChain body n s c false acc := by
  have hread : fat32ReadCluster (s.fatEntry c).1 c false (fun _ => 0) =
      fat32ReadCluster s c false fun _ => 0 := by
    have hdata : ¬ c < 2 := Nat.not_lt.mpr hc
    rw [fat32ReadCluster, fat32ReadCluster, fatEntry_fatEntry, if_neg Bool.false_ne_true,
      if_neg Bool.false_ne_true, if_neg hdata, if_neg hdata]
  cases n with
  | zero => rfl
  | succ n => rw [Fat32.readChain, Fat32.readChain, hread]

theorem Alike.searchCluster (h : Alike e f s t) (name : Name) (found : ℕ → Buffer → ℕ → ρ) :
    searchCluster t.partition name found = searchCluster s.partition name found := by
  funext c b u
  rw [Fat32.searchCluster, Fat32.searchCluster, fat32FindDirectoryClusterEntry,
    fat32FindDirectoryClusterEntry, h.entriesPerCluster]

theorem Alike.findEntry (h : Alike e f s t) (name : Name) (c : ℕ) :
    Option.Rel (Both e f) (fat32FindEntry s name c) (fat32FindEntry t name c) := by
  rw [fat32FindEntry, fat32FindEntry, h.searchCluster]
  split_ifs
  · exact .some ⟨h, rfl⟩
  · exact rel_map (h.readChain _ _ _ _ _) fun hb => ⟨hb.1, by rw [hb.2]⟩

theorem Alike.editFile (h : Alike e f s t) (edit : FileEdit) (attributes : Byte) (x : ℕ)
    (names : List Name) (c : ℕ) :
    Option.Rel (Both e f) (editFile edit attributes x names s c)
      (editFile edit attributes x names t c) := by
  induction names generalizing s t c with
  | nil => exact .some ⟨h, rfl⟩
  | cons name names ih =>
    have hread :=
      h.readChain (Fat32.searchCluster s.partition name fun c b x => (c, x, b)) walkFuel c false ()
    rw [Fat32.editFile, Fat32.editFile, h.searchCluster]
    rcases both_cases hread with ⟨hs, ht⟩ | ⟨s', t', r, hs, ht, hst⟩ <;> rw [hs, ht]
    · exact .none
    · rcases r with ⟨d, i, b⟩ | _
      · dsimp only
        split_ifs
        · exact .some ⟨hst.writeCluster _ _, rfl⟩
        · exact .some ⟨hst, rfl⟩
        · exact ih hst _
      · exact .some ⟨hst, rfl⟩

theorem Alike.fat32EditFile (h : Alike e f s t) (path : Name) (edit : FileEdit) (attributes : Byte)
    (x : ℕ) :
    Option.Rel (Both e f) (fat32EditFile s path edit attributes x)
      (fat32EditFile t path edit attributes x) := by
  rw [Fat32.fat32EditFile, Fat32.fat32EditFile]
  split_ifs
  · exact .some ⟨h, rfl⟩
  · exact h.editFile _ _ _ _ _

end Chains

section Entries

variable (h : Alike e f s t) (name : Name) (attributes : Byte)

include h

theorem Alike.writeLongName (n startCluster startIndex endCluster endIndex : ℕ) (b : Buffer) :
    Option.Rel (Both e f)
      (writeLongName s name attributes n startCluster startIndex endCluster endIndex b)
      (writeLongName t name attributes n startCluster startIndex endCluster endIndex b) := by
  obtain ⟨hst, hread⟩ := h.readCluster startCluster false b
  rw [Fat32.writeLongName, Fat32.writeLongName]
  dsimp only
  rw [hread]
  split_ifs
  · exact .some ⟨h.writeCluster _ _, rfl⟩
  · exact .some ⟨hst, rfl⟩
  · exact .none

theorem Alike.allocateSfn (c : ℕ) (flags : SfnFlags) :
    Option.Rel (Both e f) (fat32AllocateSfnEntry s c name attributes flags)
      (fat32AllocateSfnEntry t c name attributes flags) := by
  have hfree : freeCluster t.partition = freeCluster s.partition := by
    funext c b u
    rw [freeCluster, freeCluster, h.entriesPerCluster]
  have hread := h.readChain (freeCluster s.partition) walkFuel c false ()
  rw [fat32AllocateSfnEntry, fat32AllocateSfnEntry, hfree]
  rcases both_cases hread with ⟨hs, ht⟩ | ⟨s', t', r, hs, ht, hst⟩ <;> rw [hs, ht]
  · exact .none
  · rcases r with ⟨d, i, b⟩ | _
    · exact .some ⟨hst.writeCluster _ _, rfl⟩
    · dsimp only
      rcases both_cases (hst.allocate c 1) with ⟨hs, ht⟩ | ⟨s', t', z, hs, ht, hst⟩ <;> rw [hs, ht]
      · exact .none
      · dsimp only
        split_ifs
        · exact .some ⟨hst, rfl⟩
        · exact .some ⟨hst.writeCluster _ _, rfl⟩

theorem Alike.allocateLfn (c n : ℕ) :
    Option.Rel (Both e f) (fat32AllocateLongFileNameEntry s c name attributes n)
      (fat32AllocateLongFileNameEntry t c name attributes n) := by
  have hread := h.readChain (runCluster (n + 1) s.partition.entriesPerCluster) walkFuel c false
    ⟨0, 0, 0⟩
  rw [fat32AllocateLongFileNameEntry, fat32AllocateLongFileNameEntry, h.entriesPerCluster]
  dsimp only
  rcases both_cases hread with ⟨hs, ht⟩ | ⟨s', t', r, hs, ht, hst⟩ <;> rw [hs, ht]
  · exact .none
  · rcases r with ⟨r, d, i, b⟩ | r
    · exact hst.writeLongName _ _ _ _ _ _ _ _
    · dsimp only
      generalize (n + 1) / s.partition.entriesPerCluster + _ = m
      split_ifs
      · exact hst.writeLongName _ _ _ _ _ _ _ _
      · rcases both_cases (hst.allocate c m) with ⟨hs, ht⟩ | ⟨s', t', z, hs, ht, hst⟩ <;>
          rw [hs, ht]
        · exact .none
        · dsimp only
          rw [fat32GetLastCluster, fat32GetLastCluster, hst.getLastCluster]
          split_ifs
          · exact .some ⟨hst, rfl⟩
          · cases Fat32.getLastCluster s' walkFuel c 0xFFFFFFFF fun _ => 0 with
            | none => exact .none
            | some last =>
              have hclear := hst.clearChain walkFuel z
              dsimp only
              cases hs : Fat32.clearChain walkFuel s' z <;>
                cases ht : Fat32.clearChain walkFuel t' z <;>
                rw [hs, ht] at hclear
              · exact .none
              · cases hclear
              · cases hclear
              · cases hclear with
                | some hst => exact hst.writeLongName _ _ _ _ _ _ _ _

theorem Alike.allocateEntry (c : ℕ)
    (hform : SameForm (classifyName e name.length) (classifyName f name.length)) :
    Option.Rel (Both e f) (fat32AllocateEntry s c name attributes)
      (fat32AllocateEntry t c name attributes) := by
  obtain ⟨hslots, hflags⟩ := hform
  rw [fat32AllocateEntry, fat32AllocateEntry, h.left, h.right]
  dsimp only
  rw [← hslots]
  split_ifs with hnil hlong
  · exact .some ⟨h, rfl⟩
  · exact h.allocateLfn name attributes c _
  · rw [hflags (not_not.mp hlong)]
    exact h.allocateSfn name attributes c _

end Entries

end DevOs.Fat32
