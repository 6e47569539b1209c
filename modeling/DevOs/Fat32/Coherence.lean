import DevOs.Fat32.Edit

/-!
# The cached FAT sector

Whatever the calls of the driver are, also on a volume that they have damaged, the cached sector of
the FAT is the one on the disk: a cluster is written only behind a lookup of its own entry, and no
cluster covers the sector of its own entry. The three ways along a chain then agree on it.
-/

namespace DevOs.Fat32

open Bytes Chains

variable {g : Geometry} {s t : State} {c k n : ℕ} {b : Buffer}

/-- The cached sector is the one on disk when it is a sector of the FAT. -/
structure Coherent (g : Geometry) (s : State) : Prop where
  boot : s.partition.boot = g.boot
  secondaryFsInfo : s.partition.secondaryFsInfo = g.numReservedSectors + 4
  cache : ∀ x < g.sectorsPerFat, s.partition.fatSectorNumber = g.fatStart + x →
    ∀ j < 512, s.partition.fatSector j = s.disk (512 * (g.fatStart + x) + j)

/-- When the cached sector is one of the FAT, it holds the entry of the cluster. -/
def Quiet (g : Geometry) (s : State) (c : ℕ) : Prop :=
  ∀ x < g.sectorsPerFat, s.partition.fatSectorNumber = g.fatStart + x → c / 128 = x

/-- No cluster covers the sector of its own entry, even when its sector number wraps around. -/
theorem Geometry.Valid.cluster_avoids (hg : g.Valid) {p : Partition} (hb : p.boot = g.boot)
    (h2 : 2 ≤ c) (hx : c / 128 < g.sectorsPerFat) :
    p.clusterSector c + g.clusterSize ≤ g.fatStart + c / 128 ∨
      g.fatStart + c / 128 < p.clusterSector c := by
  have hres := hg.reserved_eq
  have hfits := hg.fits
  have hcs := hg.clusterSize
  have hcs' := hg.clusterSize_lt
  have hN := hg.numClusters_lt
  have hentries := g.fatEntries_lt
  rw [endOfChain] at hN
  rw [Geometry.fatEntries] at hentries
  have hsub : sub32 c 2 = c - 2 := by
    rw [sub32]
    omega
  have hsector : p.clusterSector c = u32 (g.dataStart + g.clusterSize * (c - 2)) := by
    rw [Partition.clusterSector, hb, hsub]
    change u32 (g.baseLba + g.reservedAreaSize + g.sectorsPerFat * fatCount +
      g.clusterSize * (c - 2)) = _
    rw [fatCount, hres, Geometry.dataStart, Geometry.fatStart]
    exact congrArg u32 (by omega)
  have hdata : g.dataStart = g.fatStart + 2 * g.sectorsPerFat := rfl
  have hstart : g.fatStart = g.baseLba + g.numReservedSectors + 16 := rfl
  rw [hsector, u32]
  by_cases hwrap : g.dataStart + g.clusterSize * (c - 2) < 2 ^ 32
  · rw [Nat.mod_eq_of_lt hwrap]
    omega
  · have hlt : c - 2 < g.numClusters + 128 := by omega
    have hover : g.clusterSize * (c - 2) ≤ g.clusterSize * g.numClusters + 255 * 127 := by
      calc g.clusterSize * (c - 2) ≤ g.clusterSize * (g.numClusters +
        127) := Nat.mul_le_mul_left _ (by omega)
        _ = g.clusterSize * g.numClusters + g.clusterSize * 127 := Nat.mul_add _ _ _
        _ ≤ g.clusterSize * g.numClusters + 255 * 127 :=
          Nat.add_le_add_left (Nat.mul_le_mul_right _ (by omega)) _
    have hcomm : g.numClusters * g.clusterSize = g.clusterSize * g.numClusters := Nat.mul_comm _ _
    have hbound : g.clusterSize * g.numClusters ≤ 255 * g.numClusters :=
      Nat.mul_le_mul_right _ (by omega)
    have hbehind : g.numClusters ≤ c - 2 := by
      by_contra hlt'
      have hfit := Geometry.Valid.cluster_fits (g := g) (c := c) ⟨h2, by omega⟩
      omega
    left
    omega

theorem Coherent.layout (h : Coherent g s) (hg : g.Valid) : Layout s.partition :=
  hg.layout h.boot h.secondaryFsInfo

theorem Geometry.Valid.entrySector (hg : g.Valid) (hc : c < 2 ^ 32) {x : ℕ}
    (hx : x < g.sectorsPerFat) (h : u32 (g.fatStart + c / 128) = g.fatStart + x) : c / 128 = x := by
  have hfits := hg.fits
  have hspf := hg.sectorsPerFat_lt
  have hstart : g.fatStart = g.baseLba + g.numReservedSectors + 16 := rfl
  rw [u32] at h
  omega

theorem Coherent.entrySector (h : Coherent g s) (hg : g.Valid) (c : ℕ) :
    u32 (s.partition.boot.hiddenSectors + s.partition.boot.reservedAreaSize + c / 128) =
      u32 (g.fatStart + c / 128) := by
  have hstart : s.partition.boot.hiddenSectors + s.partition.boot.reservedAreaSize =
      g.fatStart := by
    rw [h.boot]
    change g.baseLba + g.reservedAreaSize = _
    rw [hg.reserved_eq, Geometry.fatStart, Nat.add_assoc]
  rw [hstart]

theorem Coherent.fatEntry (h : Coherent g s) (c : ℕ) : Coherent g (s.fatEntry c).1 := by
  rw [State.fatEntry]
  dsimp only
  split_ifs
  · refine ⟨h.boot, h.secondaryFsInfo, fun x hx hnum j hj => ?_⟩
    dsimp only at hnum ⊢
    rw [hnum, State.read, window, if_pos (by omega)]
  · exact h

theorem Coherent.quiet_fatEntry (h : Coherent g s) (hg : g.Valid) (hc : c < 2 ^ 32) :
    Quiet g (s.fatEntry c).1 c := by
  intro x hx hnum
  refine hg.entrySector hc hx ?_
  rw [← hnum, ← h.entrySector hg c, State.fatEntry]
  dsimp only
  split_ifs with hne
  · rfl
  · exact (not_not.mp hne).symm

theorem Coherent.lookup (hg : g.Valid) (s : State) (c : ℕ) (hc : c < 2 ^ 32) (h : Coherent g s) :
    Coherent g (s.fatEntry c).1 ∧ Quiet g (s.fatEntry c).1 c :=
  ⟨h.fatEntry c, h.quiet_fatEntry hg hc⟩

theorem partition_fat32WriteCluster (s : State) (c : ℕ) (b : Buffer) :
    (fat32WriteCluster s c b).partition = s.partition := by
  rw [fat32WriteCluster]
  split_ifs
  · rfl
  · rw [State.write_partition]

theorem Coherent.writeCluster (h : Coherent g s) (hg : g.Valid) (hq : Quiet g s c) (b : Buffer) :
    Coherent g (fat32WriteCluster s c b) := by
  rw [fat32WriteCluster]
  split_ifs with h2
  · exact h
  · constructor
    · rw [State.write_partition]
      exact h.boot
    · rw [State.write_partition]
      exact h.secondaryFsInfo
    intro x hx hnum j hj
    rw [State.write_partition] at hnum ⊢
    have hcx := hq x hx hnum
    have havoid := hg.cluster_avoids h.boot (Nat.not_lt.mp h2) (hcx ▸ hx)
    have hsize : s.partition.boot.clusterSize = g.clusterSize := by rw [h.boot]; rfl
    have hout : ¬ (512 * s.partition.clusterSector c ≤ 512 * (g.fatStart + x) + j ∧
        512 * (g.fatStart + x) + j < 512 * s.partition.clusterSector c + 512 * g.clusterSize) := by
      rw [hcx] at havoid
      omega
    rw [h.cache x hx hnum j hj, State.write_disk, hsize, copy, if_neg hout]

theorem Coherent.of_zero (hboot : s.partition.boot = g.boot)
    (hsecond : s.partition.secondaryFsInfo = g.numReservedSectors + 4)
    (h : s.partition.fatSectorNumber = 0) :
    Coherent g s := by
  refine ⟨hboot, hsecond, fun x _ hnum => ?_⟩
  rw [h, Geometry.fatStart] at hnum
  omega

theorem quiet_of_zero (h : s.partition.fatSectorNumber = 0) (c : ℕ) : Quiet g s c := by
  intro x _ hnum
  rw [h, Geometry.fatStart] at hnum
  omega

/-- The geometry is not changed, and a chain starts at a cluster that the FAT has an entry for. -/
structure Scanned (p : Partition) (r : State × Allocation) : Prop where
  boot : r.1.partition.boot = p.boot
  secondaryFsInfo : r.1.partition.secondaryFsInfo = p.secondaryFsInfo
  start : r.2.chainStart = 0 ∨ r.2.chainStart < 128 * p.boot.sectorsPerFat

section Scanned

variable {p : Partition} {a : Allocation} {numClusters x i : ℕ} (h : Scanned p (s, a))
  (hx : x < p.boot.sectorsPerFat)

include h

theorem Scanned.endSector (x : ℕ) : Scanned p (endSector x s a) := by
  obtain ⟨hboot, hsecond, hstart⟩ := h
  rw [Fat32.endSector]
  split_ifs <;> exact ⟨hboot, hsecond, hstart⟩

include hx

theorem Scanned.linkEntry (hi : i < 128) : Scanned p (linkEntry x i s a) := by
  obtain ⟨hboot, hsecond, hstart⟩ := h
  have hlt : u32 (128 * x + i) < 128 * p.boot.sectorsPerFat :=
    Nat.lt_of_le_of_lt (Nat.mod_le _ _) (by omega)
  rw [Fat32.linkEntry]
  split_ifs
  · exact ⟨hboot, hsecond, hstart⟩
  · exact ⟨hboot, hsecond, hstart⟩
  · exact ⟨hboot, hsecond, Or.inr hlt⟩

theorem Scanned.scanEntry (hi : i < 128) :
    (scanEntry numClusters x i s a).elim (Scanned p) (Scanned p) := by
  obtain ⟨hboot, hsecond, hstart⟩ := h.linkEntry hx hi
  rw [Fat32.scanEntry]
  dsimp only
  split_ifs
  · exact ⟨hboot, hsecond, hstart⟩
  · exact ⟨hboot, hsecond, hstart⟩
  · exact h

theorem Scanned.scanSector (hn : i + n ≤ 128) :
    (scanSector numClusters x n i s a).elim (Scanned p) (Scanned p) := by
  induction n generalizing i s a with
  | zero => exact h
  | succ n ih =>
    have hentry := @Scanned.scanEntry s p a numClusters x i h hx (show i < 128 by omega)
    rw [Fat32.scanSector]
    cases hres : Fat32.scanEntry numClusters x i s a with
    | inl r =>
      rw [hres] at hentry
      exact hentry
    | inr r =>
      rw [hres] at hentry
      obtain ⟨s', a'⟩ := r
      exact ih hentry (by omega)

omit hx

theorem Scanned.scanFat (hn : x + n ≤ p.boot.sectorsPerFat) :
    Scanned p (scanFat numClusters n x s a) := by
  induction n generalizing x s a with
  | zero => exact h
  | succ n ih =>
    have hread : Scanned p (s,
        { a with generalPurpose := s.read (u32 (s.partition.primaryFat + x)) 1 }) :=
      ⟨h.boot, h.secondaryFsInfo, h.start⟩
    have hsector := @Scanned.scanSector s 128 p _ numClusters x 0 hread (by omega) (by decide)
    rw [Fat32.scanFat]
    cases hres : Fat32.scanSector numClusters x 128 0 s
        { a with generalPurpose := s.read (u32 (s.partition.primaryFat + x)) 1 } with
    | inl r =>
      rw [hres] at hsector
      exact hsector
    | inr r =>
      rw [hres] at hsector
      obtain ⟨s', a'⟩ := r
      exact ih (Scanned.endSector hsector x) (by omega)

end Scanned

theorem relink_boot {z lastFatSector : ℕ} {gp : Buffer}
    (h : relink z n c lastFatSector gp s = some t) :
    t.partition = s.partition := by
  induction n generalizing c lastFatSector gp with
  | zero => cases h
  | succ n ih =>
    rw [relink] at h
    split_ifs at h
    · cases h
      rfl
    · exact ih h
    · cases h
      rfl
    · exact ih h

/-- What `Fat32AllocateClusterChain` leaves behind: nothing has changed, or the cached sector is
dropped. -/
theorem fat32AllocateClusterChain_cache {start z : ℕ}
    (h : fat32AllocateClusterChain s start n = some (t, z)) : (t = s ∧ z = 0) ∨
      (t.partition.boot = s.partition.boot ∧
        t.partition.secondaryFsInfo = s.partition.secondaryFsInfo ∧
        t.partition.fatSectorNumber = 0 ∧ (z = 0 ∨ z < 128 * s.partition.boot.sectorsPerFat)) := by
  by_cases hrefused : n = 0 ∨ (start ≠ 0 ∧ start < 2) ∨ s.partition.dataClusters < start ∨
      s.partition.fsInfo.freeClusters < n
  · left
    have hsame : fat32AllocateClusterChain s start n = some (s, 0) := by
      rw [fat32AllocateClusterChain]
      rcases hrefused with h1 | h2 | h3 | h4
      · rw [if_pos h1]
      · rw [if_pos h2, ite_self]
      · rw [if_pos h3, ite_self, ite_self]
      · rw [if_pos h4, ite_self, ite_self, ite_self]
    rw [hsame] at h
    cases h
    exact ⟨rfl, rfl⟩
  · rw [not_or, not_or, not_or] at hrefused
    rw [fat32AllocateClusterChain, if_neg hrefused.1, if_neg hrefused.2.1, if_neg hrefused.2.2.1,
      if_neg hrefused.2.2.2] at h
    have hscan : Scanned s.partition (s, ⟨fun _ => 0, fun _ => 0, 0, 0, 0, 0, 0, 0, false⟩) :=
      ⟨rfl, rfl, Or.inl rfl⟩
    have hall := @Scanned.scanFat s s.partition.boot.sectorsPerFat s.partition _ n 0 hscan (by
      omega)
    rcases hres : scanFat n s.partition.boot.sectorsPerFat 0 s
      ⟨fun _ => 0, fun _ => 0, 0, 0, 0, 0, 0, 0, false⟩ with ⟨s₁, a⟩
    rw [hres] at h hall
    dsimp only at h
    obtain ⟨s₂, hlink, hfin⟩ := Option.map_eq_some_iff.mp h
    cases hfin
    have hpart : s₂.partition = s₁.partition := by
      split_ifs at hlink
      · exact relink_boot hlink
      · cases hlink
        rfl
    refine Or.inr ⟨?_, ?_, rfl, hall.start⟩
    · rw [← hall.boot, ← hpart]
      rfl
    · rw [← hall.secondaryFsInfo, ← hpart]
      rfl

theorem Coherent.allocate {start z : ℕ} (h : Coherent g s)
    (halloc : fat32AllocateClusterChain s start n = some (t, z)) :
    Coherent g t ∧ (z ≠ 0 → t.partition.fatSectorNumber = 0 ∧ z < g.fatEntries) := by
  rcases fat32AllocateClusterChain_cache halloc with ⟨rfl, rfl⟩ | ⟨hboot, hsecond, hnum, hz⟩
  · exact ⟨h, fun h0 => absurd rfl h0⟩
  · refine ⟨.of_zero (hboot.trans h.boot) (hsecond.trans h.secondaryFsInfo) hnum,
      fun h0 => ⟨hnum, ?_⟩⟩
    rw [h.boot] at hz
    exact hz.resolve_left h0

theorem Coherent.readChain {σ ρ : Type} {body : ℕ → Buffer → σ → ρ ⊕ σ} {ended : Bool} {acc : σ}
    {r : ρ ⊕ σ} (h : Coherent g s) (hg : g.Valid) (hc : c < 2 ^ 32)
    (hread : Fat32.readChain body n s c ended acc = some (t, r)) : Coherent g t ∧
      ∀ res, r = .inl res → ∃ d acc', 2 ≤ d ∧ Quiet g t d ∧ body d (s.data d) acc' = .inl res :=
  (readChain_rule (Coherent.lookup hg) hc h hread).2

theorem Coherent.findEntry {name : Name} {r : Option Buffer} (h : Coherent g s) (hg : g.Valid)
    (hc : c < 2 ^ 32) (hfind : fat32FindEntry s name c = some (t, r)) : Coherent g t := by
  rw [fat32FindEntry] at hfind
  split_ifs at hfind
  · cases hfind
    exact h
  · obtain ⟨q, hread, hq⟩ := Option.map_eq_some_iff.mp hfind
    cases hq
    exact (h.readChain hg hc hread).1

theorem Coherent.editFile {path : Name} {edit : FileEdit} {attributes : Byte} {x : ℕ} {r : Bool}
    (h : Coherent g s) (hg : g.Valid)
    (hedit : fat32EditFile s path edit attributes x = some (t, r)) :
    Coherent g t := by
  rw [fat32EditFile] at hedit
  split_ifs at hedit
  · cases hedit
    exact h
  · rw [editFile_eq] at hedit
    obtain ⟨⟨s₁, place⟩, hplace, hres⟩ := Option.map_eq_some_iff.mp hedit
    obtain ⟨-, hs₁, hquiet⟩ := entryPlace_rule (Coherent.lookup hg) (by decide) h hplace
    cases place with
    | none =>
      cases hres
      exact hs₁
    | some ci =>
      cases hres
      exact hs₁.writeCluster hg (hquiet _ _ rfl).2.1 _

theorem Coherent.getFileInformation {names : List Name} {r : Option FileInformation}
    (h : Coherent g s) (hg : g.Valid) (hc : c < 2 ^ 32)
    (hinfo : getFileInformation names s c = some (t, r)) : Coherent g t := by
  induction names generalizing s c with
  | nil =>
    cases hinfo
    exact h
  | cons name names ih =>
    rw [Fat32.getFileInformation] at hinfo
    split at hinfo
    · cases hinfo
    · rename_i s₁ hfind
      cases hinfo
      exact h.findEntry hg hc hfind
    · rename_i s₁ e hfind
      have hs₁ := h.findEntry hg hc hfind
      split_ifs at hinfo
      · cases hinfo
        exact hs₁
      · exact ih hs₁ (firstCluster_lt e) hinfo

theorem Coherent.getNextCluster (h : Coherent g s) (hg : g.Valid) (hc : c < 2 ^ 32) :
    Coherent g (fat32GetNextCluster s c).1 ∧ (fat32GetNextCluster s c).2 < 2 ^ 32 ∧
      ((fat32GetNextCluster s c).2 ≠ 0 → Quiet g (fat32GetNextCluster s c).1 c) := by
  rw [fat32GetNextCluster]
  split_ifs
  · exact ⟨h, (by decide : 0 < 2 ^ 32), fun h0 => absurd rfl h0⟩
  · exact ⟨h.fatEntry c, fatEntry_lt s c, fun _ => h.quiet_fatEntry hg hc⟩

theorem Coherent.clearChain (h : Coherent g s) (hg : g.Valid) (hc : c < 2 ^ 32)
    (hclear : clearChain n s c = some t) : Coherent g t := by
  induction n generalizing s c with
  | zero => cases hclear
  | succ n ih =>
    obtain ⟨hs, hlt, hq⟩ := h.getNextCluster hg hc
    rw [Fat32.clearChain] at hclear
    dsimp only at hclear
    split_ifs at hclear with h0
    · cases hclear
      exact hs
    · exact ih (hs.writeCluster hg (hq h0) _) hlt hclear

theorem Coherent.setEntryName {name : Name} (h : Coherent g s) : Coherent g (s.setEntryName name) :=
  ⟨h.boot, h.secondaryFsInfo, h.cache⟩

theorem Coherent.allocateSfn {name : Name} {attributes : Byte} {flags : SfnFlags} {st : FatStatus}
    (h : Coherent g s) (hg : g.Valid) (hc : c < 2 ^ 32)
    (hrun : fat32AllocateSfnEntry s c name attributes flags = some (t, st)) : Coherent g t := by
  rw [fat32AllocateSfnEntry] at hrun
  split at hrun
  · cases hrun
  · rename_i s₁ last i b hread
    obtain ⟨hs₁, hfound⟩ := h.readChain hg hc hread
    obtain ⟨d, acc, -, hq, hres⟩ := hfound _ rfl
    have hlast : last = d := by
      rw [Fat32.freeCluster] at hres
      split at hres
      · cases hres
        rfl
      · cases hres
    cases hrun
    exact hs₁.writeCluster hg (hlast ▸ hq) _
  · rename_i s₁ hread
    have hs₁ := (h.readChain hg hc hread).1
    split at hrun
    · cases hrun
    · rename_i s₂ z halloc
      obtain ⟨hs₂, hz⟩ := hs₁.allocate halloc
      split_ifs at hrun with h0
      · cases hrun
        exact hs₂
      · cases hrun
        exact hs₂.writeCluster hg (quiet_of_zero (hz h0).1 z) _

theorem getLastCluster_entry {e lastFatSector : ℕ} {gp : Buffer} (hc : c < 2 ^ 32)
    (hgp : lastFatSector < 2 ^ 25 → gp = s.read (u32 (s.partition.primaryFat + lastFatSector)) 1)
    (h : getLastCluster s n c lastFatSector gp = some e) : e < 2 ^ 32 ∧
      getLE (s.read (u32 (s.partition.primaryFat + e / 128)) 1) (4 * (e % 128)) 4 = endOfChain := by
  induction n generalizing c lastFatSector gp with
  | zero => cases h
  | succ n ih =>
    have hbuf : (if c / 128 ≠ lastFatSector then s.read (u32 (s.partition.primaryFat + c / 128)) 1
      else gp) =
        s.read (u32 (s.partition.primaryFat + c / 128)) 1 := by
      split_ifs with hne
      · rfl
      · rw [not_not] at hne
        rw [hgp (by omega), hne]
    rw [getLastCluster, hbuf] at h
    split_ifs at h with hend
    · cases h
      exact ⟨hc, hend⟩
    · exact ih (getLE_lt _ _ 4) (fun _ => rfl) h

theorem Geometry.Valid.lt_of_fatEntries (hg : g.Valid) (h : c < g.fatEntries) : c < 2 ^ 32 := by
  have hentries := g.fatEntries_lt
  have hN := hg.numClusters_lt
  rw [endOfChain] at hN
  omega

/-- A chain of one cluster is cleared: its entry was the last one that was looked up. -/
theorem Coherent.clearChain_last (h : Coherent g s) (hg : g.Valid)
    (hnum : s.partition.fatSectorNumber = 0) (hc : c < g.fatEntries)
    (hend : getLE (s.read (u32 (s.partition.primaryFat + c / 128)) 1) (4 * (c % 128)) 4 =
      endOfChain)
    (hclear : Fat32.clearChain n s c = some t) : Quiet g t c := by
  have hlt : c < 2 ^ 32 := hg.lt_of_fatEntries hc
  have hl := h.layout hg
  have hp := hg.primaryFat_eq h.boot
  have hne : s.partition.fatSectorNumber ≠ u32 (s.partition.boot.hiddenSectors +
      s.partition.boot.reservedAreaSize + c / 128) := by
    have hfits := hl.fits
    have hprim := hl.primaryFat_eq
    have hspf : s.partition.boot.sectorsPerFat = g.sectorsPerFat := by rw [h.boot]; rfl
    rw [Geometry.fatEntries] at hc
    have hstart : g.fatStart = g.baseLba + g.numReservedSectors + 16 := rfl
    rw [hnum, u32, Nat.mod_eq_of_lt (by omega)]
    omega
  have hentry : (s.fatEntry c).2 = endOfChain := by
    rw [State.fatEntry]
    dsimp only
    rw [if_pos hne, ← hend, hl.primaryFat_eq]
  cases n with
  | zero => cases hclear
  | succ n =>
    rw [Fat32.clearChain, fat32GetNextCluster] at hclear
    by_cases hce : c = endOfChain
    · rw [if_pos hce] at hclear
      cases hclear
      exact quiet_of_zero hnum c
    · have hq := h.quiet_fatEntry hg hlt
      rw [if_neg hce] at hclear
      dsimp only at hclear
      rw [hentry, if_neg (by decide)] at hclear
      cases n with
      | zero => cases hclear
      | succ n =>
        rw [Fat32.clearChain, fat32GetNextCluster_end] at hclear
        cases hclear
        rw [Quiet, partition_fat32WriteCluster]
        exact hq

section AllocateEntry

variable {name : Name} {attributes : Byte} {flags : SfnFlags} {st : FatStatus} {numLfnEntries : ℕ}

theorem Coherent.writeLongName {startCluster startIndex endCluster endIndex : ℕ} (h : Coherent g s)
    (hg : g.Valid) (hq : startCluster = endCluster → Quiet g s startCluster)
    (hrun : writeLongName s name attributes numLfnEntries startCluster startIndex endCluster
      endIndex b =
      some (t, st)) : Coherent g t := by
  rw [Fat32.writeLongName] at hrun
  by_cases heq : startCluster = endCluster
  · rw [if_pos heq] at hrun
    cases hrun
    exact h.writeCluster hg (hq heq) _
  · rw [if_neg heq] at hrun
    by_cases hread : (fat32ReadCluster s startCluster false b).status = .success
    · dsimp only at hrun
      rw [if_pos hread] at hrun
      cases hrun
      rw [(fat32ReadCluster_next hread).1]
      exact h.fatEntry startCluster
    · dsimp only at hrun
      rw [if_neg hread] at hrun
      cases hrun

theorem Coherent.allocateLfn (h : Coherent g s) (hg : g.Valid) (hc : c < 2 ^ 32)
    (hrun : fat32AllocateLongFileNameEntry s c name attributes numLfnEntries = some (t, st)) :
    Coherent g t := by
  rw [fat32AllocateLongFileNameEntry] at hrun
  dsimp only at hrun
  split at hrun
  · cases hrun
  · rename_i s₁ r endCluster endIndex b hread
    obtain ⟨hs₁, hfound⟩ := h.readChain hg hc hread
    obtain ⟨d, acc, -, hq, hres⟩ := hfound _ rfl
    have hend : endCluster = d := by
      rw [runCluster] at hres
      split at hres
      · cases hres
        rfl
      · cases hres
    exact hs₁.writeLongName hg (fun heq => heq ▸ hend ▸ hq) hrun
  · rename_i s₁ r hread
    have hs₁ := (h.readChain hg hc hread).1
    by_cases hr : r.startCluster ≠ 0
    · rw [if_pos hr] at hrun
      exact hs₁.writeLongName hg (fun heq => absurd heq hr) hrun
    · rw [if_neg hr] at hrun
      split at hrun
      · cases hrun
      · rename_i s₂ z halloc
        obtain ⟨hs₂, hz⟩ := hs₁.allocate halloc
        by_cases h0 : z = 0
        · rw [if_pos h0] at hrun
          cases hrun
          exact hs₂
        · rw [if_neg h0] at hrun
          split at hrun
          · cases hrun
          · rename_i e hlast
            split at hrun
            · cases hrun
            · rename_i s₃ hclear
              obtain ⟨hnum, hlt⟩ := hz h0
              have hs₃ := hs₂.clearChain hg (hg.lt_of_fatEntries hlt) hclear
              refine hs₃.writeLongName hg (fun heq => ?_) hrun
              rw [fat32GetLastCluster] at hlast
              have hentry := (getLastCluster_entry hc (fun hlt => by omega) hlast).2
              rw [← heq] at hentry
              exact hs₂.clearChain_last hg hnum hlt hentry hclear

theorem Coherent.allocateEntry (h : Coherent g s) (hg : g.Valid) (hc : c < 2 ^ 32)
    (hrun : fat32AllocateEntry s c name attributes = some (t, st)) : Coherent g t := by
  rw [fat32AllocateEntry] at hrun
  dsimp only at hrun
  split_ifs at hrun
  · cases hrun
    exact h
  · exact h.allocateLfn hg hc hrun
  · exact h.allocateSfn hg hc hrun

theorem Coherent.createFile {parents names : List Name} (h : Coherent g s) (hg : g.Valid)
    (hc : c < 2 ^ 32) (hrun : createFile attributes parents names s c = some (t, st)) :
    Coherent g t := by
  induction names generalizing parents s c with
  | nil =>
    cases hrun
    exact h
  | cons name names ih =>
    have hs : Coherent g (s.setEntryName name) := h.setEntryName
    rw [Fat32.createFile] at hrun
    by_cases hlast : names = []
    · rw [if_pos hlast] at hrun
      exact hs.allocateEntry hg hc hrun
    · rw [if_neg hlast] at hrun
      split at hrun
      · cases hrun
      · rename_i s₁ hfind
        cases hrun
        exact hs.findEntry hg hc hfind
      · rename_i s₁ e hfind
        have hs₁ := hs.findEntry hg hc hfind
        by_cases hdir : ¬ isDirectory e = true
        · rw [if_pos hdir] at hrun
          cases hrun
          exact hs₁
        rw [if_neg hdir] at hrun
        by_cases hfirst : firstCluster e ≠ 0
        · rw [if_pos hfirst] at hrun
          exact ih hs₁ (firstCluster_lt e) hrun
        · rw [if_neg hfirst] at hrun
          split at hrun
          · cases hrun
          · rename_i s₂ z halloc
            obtain ⟨hs₂, hz⟩ := hs₁.allocate halloc
            by_cases h0 : z = 0
            · rw [if_pos h0] at hrun
              cases hrun
              exact hs₂
            · rw [if_neg h0] at hrun
              have hs₃ := hs₂.writeCluster hg (quiet_of_zero (hz h0).1 z) fun _ => 0
              have hz32 : z < 2 ^ 32 := hg.lt_of_fatEntries (hz h0).2
              dsimp only at hrun
              split at hrun
              · cases hrun
              · rename_i s₄ hedit
                cases hrun
                exact hs₃.editFile hg hedit
              · rename_i s₄ hedit
                exact ih (hs₃.editFile hg hedit) hz32 hrun

end AllocateEntry

section WriteFile

variable {buffer : Buffer} {clusterSize position numBytes : ℕ} {path : Name}
    {info : FileInformation}
  {st : FatStatus}

theorem Coherent.appendLoop {a : Appending} (h : Coherent g s) (hg : g.Valid) (hc : c < 2 ^ 32)
    (ha : a.cluster = c)
    (hrun : appendLoop clusterSize position buffer n s c a = some t) : Coherent g t := by
  induction n generalizing s c a with
  | zero => cases hrun
  | succ n ih =>
    obtain ⟨hs, hlt, hq⟩ := h.getNextCluster hg hc
    rw [Fat32.appendLoop] at hrun
    dsimp only at hrun
    by_cases h0 : (fat32GetNextCluster s c).2 = 0
    · rw [if_pos h0] at hrun
      cases hrun
      exact hs
    · rw [if_neg h0] at hrun
      have hw := hs.writeCluster hg (hq h0) (appendCluster clusterSize position buffer a).1
      rw [ha] at hrun
      split_ifs at hrun
      · cases hrun
        exact hw
      · exact ih hw hlt rfl hrun

theorem Coherent.overwriteCluster {a : Overwriting} (h : Coherent g s) (hg : g.Valid)
    (ha : a.cluster < 2 ^ 32) (hq : Quiet g s a.cluster) :
    Coherent g (overwriteCluster s clusterSize buffer a).1 := by
  rw [Fat32.overwriteCluster]
  split_ifs with h1 h2
  · exact h.writeCluster hg hq _
  · dsimp only
    by_cases hread : (fat32ReadCluster s a.cluster false a.readCluster).status = .success
    · have hstate := (fat32ReadCluster_next hread).1
      rw [hstate]
      exact (h.fatEntry a.cluster).writeCluster hg (h.quiet_fatEntry hg ha) _
    · rw [fat32ReadCluster_failure hread]
      exact h.writeCluster hg hq _
  · exact h

theorem Coherent.overwriteLoop {a : Overwriting} (h : Coherent g s) (hg : g.Valid) (hc : c < 2 ^ 32)
    (ha : a.cluster = c)
    (hrun : overwriteLoop clusterSize buffer n s c a = some t) : Coherent g t := by
  induction n generalizing s c a with
  | zero => cases hrun
  | succ n ih =>
    obtain ⟨hs, hlt, hq⟩ := h.getNextCluster hg hc
    rw [Fat32.overwriteLoop] at hrun
    dsimp only at hrun
    by_cases h0 : (fat32GetNextCluster s c).2 = 0
    · rw [if_pos h0] at hrun
      cases hrun
      exact hs
    · rw [if_neg h0] at hrun
      have hw := @Coherent.overwriteCluster g (fat32GetNextCluster s c).1 buffer clusterSize a hs hg
        (ha ▸ hc)
        (ha ▸ hq h0)
      split_ifs at hrun
      · cases hrun
        exact hw
      · exact ih hw hlt rfl hrun

theorem Coherent.appendFile (h : Coherent g s) (hg : g.Valid)
    (hrun : appendFile s path info buffer position numBytes = some (t, st)) : Coherent g t := by
  rw [Fat32.appendFile] at hrun
  dsimp only at hrun
  split at hrun
  · cases hrun
  · rename_i s₁ z halloc
    obtain ⟨hs₁, hz⟩ := h.allocate halloc
    by_cases h0 : z = 0
    · rw [if_pos h0] at hrun
      cases hrun
      exact hs₁
    · rw [if_neg h0] at hrun
      split at hrun
      · cases hrun
      · rename_i s₂ hedited
        have hs₂ : Coherent g s₂ := by
          split_ifs at hedited
          · obtain ⟨r, hedit, hr⟩ := Option.map_eq_some_iff.mp hedited
            cases hr
            exact hs₁.editFile hg hedit
          · cases hedited
            exact hs₁
        split at hrun
        · cases hrun
        · rename_i s₃ ok hedit
          have hs₃ := hs₂.editFile hg hedit
          obtain ⟨s₄, hloop, hres⟩ := Option.map_eq_some_iff.mp hrun
          cases hres
          exact hs₃.appendLoop hg (hg.lt_of_fatEntries (hz h0).2) rfl hloop

theorem Coherent.grow (h : Coherent g s) (hg : g.Valid) {r : State × Bool}
    (hr : (if info.fileSize < u32 (position + numBytes) then
      match fat32AllocateClusterChain s info.clusterStart
          (ceilDiv (u32 (position + numBytes) - info.fileSize) s.partition.clusterBytes) with
      | none => none
      | some (s, newClusters) =>
        if newClusters = 0 then some (s, false)
        else (fat32EditFile s path editFileSize 0 (u32 (position + numBytes))).map
          (fun r => (r.1, true))
    else some (s, true)) = some r) : Coherent g r.1 := by
  split_ifs at hr
  · split at hr
    · cases hr
    · rename_i s₁ z halloc
      have hs₁ := (h.allocate halloc).1
      split_ifs at hr
      · cases hr
        exact hs₁
      · obtain ⟨q, hedit, hq⟩ := Option.map_eq_some_iff.mp hr
        cases hq
        exact hs₁.editFile hg hedit
  · cases hr
    exact h

theorem Coherent.overwriteFile (h : Coherent g s) (hg : g.Valid)
    (hinfo : info.clusterStart < 2 ^ 32)
    (hrun : overwriteFile s path info buffer position numBytes = some (t, st)) : Coherent g t := by
  rw [Fat32.overwriteFile] at hrun
  split at hrun
  · cases hrun
  · rename_i s₁ hr
    cases hrun
    exact h.grow hg hr
  · rename_i s₁ hr
    obtain ⟨s₂, hloop, hres⟩ := Option.map_eq_some_iff.mp hrun
    cases hres
    exact (h.grow hg hr).overwriteLoop hg hinfo rfl hloop

theorem clusterStart_lt {names : List Name}
    (h : getFileInformation names s c = some (t, some info)) :
    info.clusterStart < 2 ^ 32 := by
  induction names generalizing s c with
  | nil => cases h
  | cons name names ih =>
    rw [Fat32.getFileInformation] at h
    split at h
    · cases h
    · cases h
    · rename_i e _
      split_ifs at h
      · cases h
        exact firstCluster_lt e
      · exact ih h

theorem Coherent.writeFile (h : Coherent g s) (hg : g.Valid)
    (hrun : fat32WriteFile s path buffer position numBytes = some (t, st)) : Coherent g t := by
  rw [fat32WriteFile] at hrun
  by_cases h0 : numBytes = 0
  · rw [if_pos h0] at hrun
    cases hrun
    exact h
  · rw [if_neg h0] at hrun
    split at hrun
    · cases hrun
    · rename_i s₁ hinfo
      cases hrun
      exact h.getFileInformation hg (by decide) hinfo
    · rename_i s₁ info hinfo
      have hs₁ := h.getFileInformation hg (by decide) hinfo
      by_cases hle : info.fileSize ≤ position
      · rw [if_pos hle] at hrun
        exact hs₁.appendFile hg hrun
      · rw [if_neg hle] at hrun
        exact hs₁.overwriteFile hg (clusterStart_lt hinfo) hrun

end WriteFile

theorem Coherent.writeReservedArea {sector numSectors : ℕ} {buffer : Buffer} (h : Coherent g s)
    (hg : g.Valid) :
    Coherent g (fat32WriteReservedArea s sector numSectors buffer).1 := by
  have hfits := hg.fits
  have hres := hg.reserved_eq
  have hstart : g.fatStart = g.baseLba + g.numReservedSectors + 16 := rfl
  have hsize : s.partition.boot.reservedAreaSize = g.reservedAreaSize := by rw [h.boot]; rfl
  have hhidden : s.partition.boot.hiddenSectors = g.baseLba := by rw [h.boot]; rfl
  rw [fat32WriteReservedArea, hsize, hhidden]
  split_ifs with hle
  · exact h
  · dsimp only
    constructor
    · rw [State.write_partition]
      exact h.boot
    · rw [State.write_partition]
      exact h.secondaryFsInfo
    · intro x hx hnum j hj
      rw [State.write_partition] at hnum ⊢
      have hsector : u32 (g.baseLba + sector + 1) = g.baseLba + sector + 1 :=
        Nat.mod_eq_of_lt (by omega)
      have hout : ¬ (512 * u32 (g.baseLba + sector + 1) ≤ 512 * (g.fatStart + x) + j ∧
          512 * (g.fatStart + x) + j < 512 * u32 (g.baseLba + sector + 1) + 512 * numSectors) := by
        rw [hsector]
        omega
      rw [h.cache x hx hnum j hj, State.write_disk, copy, if_neg hout]

/-- The calls of the driver, with those that only look into a volume. -/
inductive DriverCall where
  | call (c : Call)
  | getFileInformation (path : Name)
  | getNextCluster (cluster : BitVec 32)
  | readCluster (cluster : BitVec 32) (ended : Bool)

def DriverCall.run (s : State) : DriverCall → Option State
  | .call c => c.run s
  | .getFileInformation path => (fat32GetFileInformation s path).map Prod.fst
  | .getNextCluster cluster => some (fat32GetNextCluster s cluster.toNat).1
  | .readCluster cluster ended => some (fat32ReadCluster s cluster.toNat ended fun _ => 0).state

theorem Coherent.call {c : Call} (h : Coherent g s) (hg : g.Valid) (hrun : c.run s = some t) :
    Coherent g t := by
  cases c with
  | createFile path attributes =>
    obtain ⟨r, hcreate, hr⟩ := Option.map_eq_some_iff.mp hrun
    cases hr
    exact h.createFile hg (by decide) hcreate
  | writeFile path buffer position numBytes =>
    obtain ⟨r, hwrite, hr⟩ := Option.map_eq_some_iff.mp hrun
    cases hr
    exact h.writeFile hg hwrite
  | editFile path edit attributes x =>
    obtain ⟨r, hedit, hr⟩ := Option.map_eq_some_iff.mp hrun
    cases hr
    exact h.editFile hg hedit
  | writeReservedArea sector numSectors buffer =>
    cases hrun
    exact h.writeReservedArea hg

theorem Coherent.driverCall {c : DriverCall} (h : Coherent g s) (hg : g.Valid)
    (hrun : c.run s = some t) :
    Coherent g t := by
  cases c with
  | call c => exact h.call hg hrun
  | getFileInformation path =>
    obtain ⟨r, hinfo, hr⟩ := Option.map_eq_some_iff.mp hrun
    cases hr
    exact h.getFileInformation hg (by decide) hinfo
  | getNextCluster cluster =>
    cases hrun
    exact (h.getNextCluster hg cluster.isLt).1
  | readCluster cluster ended =>
    cases hrun
    by_cases hread : (fat32ReadCluster s cluster.toNat ended fun _ => 0).status = .success
    · rw [(fat32ReadCluster_next hread).1]
      exact h.fatEntry cluster.toNat
    · rw [fat32ReadCluster_failure hread]
      exact h

theorem coherent_fat32CreatePartition (hg : g.Valid) (s : State) :
    Coherent g (fat32CreatePartition s g) := by
  have hv := view_fat32CreatePartition hg s
  refine .of_zero hv.boot hv.secondaryFsInfo ?_
  rw [fat32CreatePartition_partition]
  rfl

theorem Coherent.reaches (hg : g.Valid) {s₀ : State}
    (hr : Runs.Reaches DriverCall.run Runs.anyStep (fat32CreatePartition s₀ g) s) : Coherent g s :=
  Runs.Reaches.invariant (fun _ _ _ hs _ hst => hs.driverCall hg hst) hr
    (coherent_fat32CreatePartition hg s₀)

/-- The results of calls of `Fat32ReadCluster` with the same variables. -/
def readCalls : ℕ → State → ℕ → Bool → Buffer → List (FatStatus × Buffer)
  | 0, _, _, _, _ => []
  | n + 1, s, cluster, ended, b =>
    let r := fat32ReadCluster s cluster ended b
    (r.status, r.buffer) :: readCalls n r.state r.cluster r.ended r.buffer

/-- The results of calls of `Fat32GetNextCluster`, each for the result before it. -/
def nextCalls : ℕ → State → ℕ → List ℕ
  | 0, _, _ => []
  | n + 1, s, cluster =>
    let r := fat32GetNextCluster s cluster
    r.2 :: nextCalls n r.1 r.2

/-- The three ways along the chain `l` agree on it. -/
structure Traversed (s : State) (l : List ℕ) (h : l ≠ []) : Prop where
  read : ∀ b k, readCalls (l.length + k) s (l.head h) false b =
    l.map (fun d => (.success, s.data d)) ++
    List.replicate k (.ended, s.data (l.getLast h))
  last : fat32GetLastCluster s (l.head h) = some (l.getLast h)
  next : nextCalls (l.length + 1) s (l.head h) = l.tail ++ [endOfChain, 0]

theorem readCalls_ended (k : ℕ) (s : State) (c : ℕ) (b : Buffer) :
    readCalls k s c true b = List.replicate k (.ended, b) := by
  induction k with
  | zero => rfl
  | succ k ih =>
    rw [readCalls, List.replicate_succ]
    exact congrArg _ ih

section Traverse

variable {s₀ : State} {v : Vol} {l : List ℕ}

theorem View.readCalls (hv : View g s₀ s v) (hg : g.Valid) (hl : g.IsChain v.fat (c :: l))
    (b : Buffer) (k : ℕ) :
    readCalls ((c :: l).length + k) s c false b = (c :: l).map (fun d => (.success, v.data d)) ++
      List.replicate k (.ended, v.data ((c :: l).getLast (List.cons_ne_nil c l))) := by
  induction l generalizing s c b with
  | nil =>
    obtain ⟨s', hread, -⟩ := hv.readCluster hg (hl.inData c (by simp)) b
    have hend : v.fat c = endOfChain := hl.chain
    rw [List.length_singleton, Nat.add_comm 1 k, Fat32.readCalls, hread]
    dsimp only
    rw [if_pos hend, decide_eq_true hend, readCalls_ended]
    rfl
  | cons d l ih =>
    obtain ⟨s', hread, hv'⟩ := hv.readCluster hg (hl.inData c (by simp)) b
    have hne : v.fat c ≠ endOfChain := by
      rw [hl.chain.1]
      exact hl.chain.2.1
    have hrest := ih hv' ⟨hl.chain.tail, fun a ha => hl.inData a (by simp [ha])⟩ (v.data c)
    rw [List.length_cons, Nat.add_right_comm, Fat32.readCalls, hread]
    dsimp only
    rw [if_neg hne, decide_eq_false hne, hl.chain.1, hrest,
      List.getLast_cons (List.cons_ne_nil d l)]
    rfl

theorem View.nextCalls (hv : View g s₀ s v) (hg : g.Valid) (hl : g.IsChain v.fat (c :: l)) :
    nextCalls ((c :: l).length + 1) s c = l ++ [endOfChain, 0] := by
  induction l generalizing s c with
  | nil =>
    obtain ⟨-, hnext⟩ := hv.getNextCluster hg (hl.inData c (by simp))
    have hend : v.fat c = endOfChain := hl.chain
    rw [List.length_singleton, Fat32.nextCalls]
    rw [hnext, hend, Fat32.nextCalls]
    rw [fat32GetNextCluster_end]
    rfl
  | cons d l ih =>
    obtain ⟨hv', hnext⟩ := hv.getNextCluster hg (hl.inData c (by simp))
    have hrest := ih hv' ⟨hl.chain.tail, fun a ha => hl.inData a (by simp [ha])⟩
    rw [List.length_cons, Fat32.nextCalls]
    rw [hnext, hl.chain.1, hrest]
    rfl

end Traverse

theorem Coherent.view (h : Coherent g s) (hg : g.Valid) : View g s s s.vol := by
  apply State.view h.boot h.secondaryFsInfo
  intro x hx hnum j hj
  have hspf : s.partition.boot.sectorsPerFat = g.sectorsPerFat := by rw [h.boot]; rfl
  rw [hg.primaryFat_eq h.boot] at hnum
  rw [State.fat, hg.primaryFat_eq h.boot]
  apply getLE_congr
  intro i hi
  rw [h.cache x (hspf ▸ hx) hnum (4 * j + i) (by omega)]
  exact congrArg s.disk (by omega)

/-- In every state that calls of the driver lead to, the three ways along a chain agree, and the
cached sector is the one on the disk. -/
theorem chain_traversed (hg : g.Valid) {s₀ : State}
    (hr : Runs.Reaches DriverCall.run Runs.anyStep (fat32CreatePartition s₀ g) s) :
    (∀ l (h : l ≠ []), g.IsChain s.fat l → Traversed s l h) ∧
      ∀ x < g.sectorsPerFat, s.partition.fatSectorNumber = g.fatStart + x →
        ∀ j < 512, s.partition.fatSector j = s.disk (512 * (g.fatStart + x) + j) := by
  have hs := Coherent.reaches hg hr
  refine ⟨fun l h hl => ?_, hs.cache⟩
  have hv := hs.view hg
  cases l with
  | nil => exact absurd rfl h
  | cons c l => exact ⟨hv.readCalls hg hl, hv.fat32GetLastCluster hg hl, hv.nextCalls hg hl⟩

/-- The chain of a file of two clusters. -/
theorem chain_traversed_small : ∃ s, ∃ h : [3, 4] ≠ [],
    Runs.Reaches DriverCall.run Runs.anyStep
      (fat32CreatePartition (blankDrive smallGeometry 0) smallGeometry) s ∧ Traversed s
      [3, 4] h := by
  obtain ⟨s, hs⟩ : ∃ s, Runs.guardedRun DriverCall.run Runs.anyStep
      (fat32CreatePartition (blankDrive smallGeometry 0) smallGeometry)
      [.call (.createFile [0x46] 0x20), .call (.writeFile [0x46] (fun _ => 1) 0 600),
      .getNextCluster 3] = some s :=
    Option.isSome_iff_exists.mp (by decide +kernel)
  have hr := Runs.reaches_of_guardedRun _ hs
  have h3 : s.fat 3 = 4 := Runs.eq_of_map (fun s : State => s.fat 3) hs (by decide +kernel)
  have h4 : s.fat 4 = endOfChain := Runs.eq_of_map (fun s : State => s.fat 4) hs (by decide +kernel)
  have hchain : smallGeometry.IsChain s.fat [3, 4] := ⟨⟨h3, by decide, h4⟩, by decide⟩
  exact ⟨s, List.cons_ne_nil _ _, hr, (chain_traversed smallGeometry_valid hr).1 _ _ hchain⟩

end DevOs.Fat32
