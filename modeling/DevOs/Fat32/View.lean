import DevOs.Fat32.Append
import DevOs.Fat32.Files

/-!
# The volume as the driver sees it

A volume `Vol` is its FAT, the contents of its clusters, the free count and the static `EntryName`.
`View g s₀ s v` says that the state `s` shows the volume `v` of a partition with the geometry `g`.
It is relative to a state `s₀` before: since then only the FATs, the FSInfo sectors and clusters of
the partition were written, and both FATs alike. Every operation of `cluster.c` is an operation on
the volume.
-/

namespace DevOs.Fat32

open Bytes Chains

namespace Geometry

variable (g : Geometry)

/-- The geometries that the field sizes of the driver can hold. -/
structure Valid : Prop where
  clusterSize : 1 ≤ g.clusterSize
  clusterSize_lt : g.clusterSize < 2 ^ 8
  numClusters : 1 ≤ g.numClusters
  numClusters_lt : g.numClusters + 1 < endOfChain
  numReservedSectors : g.numReservedSectors < 0xFFF0
  total_lt : g.numReservedSectors + 16 + 2 * g.sectorsPerFat +
    g.numClusters * g.clusterSize < 2 ^ 32
  fits : g.baseLba + (g.numReservedSectors + 16 + 2 * g.sectorsPerFat +
    g.numClusters * g.clusterSize) ≤ 2 ^ 32

def fatStart : ℕ := g.baseLba + g.numReservedSectors + 16

def dataStart : ℕ := g.fatStart + 2 * g.sectorsPerFat

def fatEntries : ℕ := 128 * g.sectorsPerFat

def clusterBytes : ℕ := 512 * g.clusterSize

def InData (c : ℕ) : Prop := 2 ≤ c ∧ c < g.numClusters + 2

instance (c : ℕ) : Decidable (g.InData c) := inferInstanceAs (Decidable (_ ∧ _))

variable {g}

theorem entries_le_fatEntries (g : Geometry) : g.numClusters + 2 ≤ g.fatEntries := by
  rw [fatEntries, sectorsPerFat, ceilDiv]
  split_ifs <;> omega

theorem fatEntries_lt (g : Geometry) : g.fatEntries < g.numClusters + 130 := by
  rw [fatEntries, sectorsPerFat, ceilDiv]
  split_ifs <;> omega

namespace Valid

theorem reserved_eq (h : g.Valid) : g.reservedAreaSize = g.numReservedSectors + 16 := by
  have := h.numReservedSectors
  exact Nat.mod_eq_of_lt (by omega)

theorem sectorsPerFat_lt (h : g.Valid) : g.sectorsPerFat ≤ 2 ^ 25 := by
  have hN := h.numClusters_lt
  rw [endOfChain] at hN
  have := g.fatEntries_lt
  rw [fatEntries] at this
  omega

theorem total_eq (h : g.Valid) :
    g.totalSectors = g.numReservedSectors + 16 + 2 * g.sectorsPerFat +
      g.numClusters * g.clusterSize := by
  have := h.total_lt
  rw [totalSectors, u32, h.reserved_eq, fatCount]
  rw [Nat.mod_eq_of_lt (by omega)]
  omega

theorem inData_fatEntries {c : ℕ} (hc : g.InData c) : c < g.fatEntries :=
  Nat.lt_of_lt_of_le hc.2 g.entries_le_fatEntries

theorem inData_ne_end (h : g.Valid) {c : ℕ} (hc : g.InData c) : c ≠ endOfChain := by
  have := h.numClusters_lt
  have := hc.2
  omega

theorem cluster_fits {c : ℕ} (hc : g.InData c) :
    g.clusterSize * (c - 2) + g.clusterSize ≤ g.numClusters * g.clusterSize := by
  have hle : c - 2 + 1 ≤ g.numClusters := by
    have := hc.1
    have := hc.2
    omega
  calc g.clusterSize * (c - 2) + g.clusterSize = g.clusterSize * (c - 2 + 1) := by
        rw [Nat.mul_add, Nat.mul_one]
    _ ≤ g.clusterSize * g.numClusters := Nat.mul_le_mul_left _ hle
    _ = g.numClusters * g.clusterSize := Nat.mul_comm _ _

end Valid

end Geometry

/-- The FAT, the clusters, the free count and `EntryName`. -/
structure Vol where
  fat : ℕ → ℕ
  data : ℕ → Buffer
  free : ℕ
  entryName : ℕ → WChar

def State.data (s : State) (c : ℕ) : Buffer :=
  s.read (s.partition.clusterSector c) s.partition.boot.clusterSize

def FsInfoOnDisk (s : State) : Prop :=
  ∀ j < 512, s.disk (512 * (s.partition.boot.hiddenSectors + s.partition.boot.fsInfoLba) + j) =
    s.partition.fsInfo.bytes j

def CacheValid (s : State) : Prop :=
  ∀ x < s.partition.boot.sectorsPerFat, s.partition.fatSectorNumber = s.partition.primaryFat + x →
    ∀ j < 128, getLE s.partition.fatSector (4 * j) 4 = s.fat (128 * x + j)

/-- The writes of the operations: a sector of a FAT, an FSInfo sector, or a cluster. -/
def Geometry.WriteOk (g : Geometry) (w : Write) : Prop :=
  (w.kind = .fat ∧ g.fatStart ≤ w.sector ∧ w.sector + w.numSectors ≤ g.dataStart) ∨
  (w.kind = .fsInfo ∧ w.numSectors = 1 ∧
    (w.sector = g.baseLba + g.numReservedSectors + 1 ∨ w.sector = g.numReservedSectors + 4)) ∨
  (w.kind = .cluster ∧ g.dataStart ≤ w.sector ∧
    w.sector + w.numSectors ≤ g.dataStart + g.numClusters * g.clusterSize)

/-- The state `s`, reached from `s₀`, shows the volume `v`. -/
structure View (g : Geometry) (s₀ s : State) (v : Vol) : Prop where
  boot : s.partition.boot = g.boot
  secondaryFsInfo : s.partition.secondaryFsInfo = g.numReservedSectors + 4
  entryName : s.entryName = v.entryName
  free : s.partition.fsInfo.freeClusters = v.free
  fat : ∀ c < g.fatEntries, s.fat c = v.fat c
  data : ∀ c, g.InData c → s.data c = v.data c
  cache : CacheValid s
  mirror : Mirror s₀ → Mirror s
  fsInfo : FsInfoOnDisk s₀ → FsInfoOnDisk s
  writes : ∃ ws, s.writes = s₀.writes ++ ws ∧ ∀ w ∈ ws, g.WriteOk w

variable {g : Geometry} {s₀ s s' : State} {v : Vol}

namespace Geometry

theorem Valid.fsInfoLba_eq (hg : g.Valid) : g.boot.fsInfoLba = g.numReservedSectors + 1 := by
  have := hg.numReservedSectors
  exact Nat.mod_eq_of_lt (by omega)

theorem Valid.layout {p : Partition} (hg : g.Valid) (hb : p.boot = g.boot)
    (hs : p.secondaryFsInfo = g.numReservedSectors + 4) : Layout p := by
  have hres := hg.reserved_eq
  have hfits := hg.fits
  have hpos := hg.numClusters
  have hcs := hg.clusterSize
  have hmul : 1 ≤ g.numClusters * g.clusterSize := Nat.mul_pos hpos hcs
  have hspf := hg.sectorsPerFat_lt
  have hinfo := hg.fsInfoLba_eq
  refine ⟨?_, ?_, ?_, ?_⟩
  · rw [hb]
    change g.baseLba + g.reservedAreaSize + 2 * g.sectorsPerFat < 2 ^ 32
    omega
  · rw [hb]
    change 128 * g.sectorsPerFat ≤ 2 ^ 32
    omega
  · rw [hb, hinfo]
    change _ < g.reservedAreaSize
    omega
  · rw [hb, hs]
    change _ < g.baseLba + g.reservedAreaSize
    omega

theorem Valid.primaryFat_eq {p : Partition} (hg : g.Valid) (hb : p.boot = g.boot) :
    p.primaryFat = g.fatStart := by
  have hres := hg.reserved_eq
  have hfits := hg.fits
  have hmul : 1 ≤ g.numClusters * g.clusterSize := Nat.mul_pos hg.numClusters hg.clusterSize
  rw [Partition.primaryFat, hb]
  change u32 (g.baseLba + g.reservedAreaSize) = g.fatStart
  rw [u32, Nat.mod_eq_of_lt (by omega), hres]
  rfl

theorem Valid.clusterSector_eq {p : Partition} (hg : g.Valid) (hb : p.boot = g.boot) {c : ℕ}
    (hc : g.InData c) : p.clusterSector c = g.dataStart + g.clusterSize * (c - 2) := by
  have hres := hg.reserved_eq
  have hfits := hg.fits
  have hcl := Valid.cluster_fits hc
  have hcs := hg.clusterSize
  have h2 := hc.1
  have hN := hg.numClusters_lt
  have hc2 := hc.2
  rw [endOfChain] at hN
  have hsub : sub32 c 2 = c - 2 := by
    rw [sub32]
    omega
  rw [Partition.clusterSector, hb, hsub]
  change u32 (g.baseLba + g.reservedAreaSize + g.sectorsPerFat * fatCount +
    g.clusterSize * (c - 2)) = _
  rw [fatCount, hres, u32, Nat.mod_eq_of_lt (by omega), dataStart, fatStart]
  omega

theorem Valid.dataClusters_eq {p : Partition} (hg : g.Valid) (hb : p.boot = g.boot) :
    p.dataClusters = g.numClusters := by
  have hres := hg.reserved_eq
  have htotal := hg.total_eq
  have hlt := hg.total_lt
  rw [Partition.dataClusters, hb]
  change sub32 (sub32 g.totalSectors (g.sectorsPerFat * fatCount)) g.reservedAreaSize /
    g.clusterSize = _
  have hsub : sub32 (sub32 g.totalSectors (g.sectorsPerFat * fatCount)) g.reservedAreaSize =
      g.numClusters * g.clusterSize := by
    rw [htotal, hres, fatCount, sub32, sub32]
    omega
  rw [hsub, Nat.mul_div_cancel _ hg.clusterSize]

end Geometry

theorem View.layout (h : View g s₀ s v) (hg : g.Valid) : Layout s.partition :=
  hg.layout h.boot h.secondaryFsInfo

theorem View.fatEntries_eq (h : View g s₀ s v) : s.partition.fatEntries = g.fatEntries := by
  rw [Partition.fatEntries, h.boot]
  rfl

theorem View.clusterBytes_eq (h : View g s₀ s v) : s.partition.clusterBytes = g.clusterBytes := by
  rw [Partition.clusterBytes, h.boot, Geometry.clusterBytes, Nat.mul_comm]
  rfl

theorem View.entriesPerCluster_eq (h : View g s₀ s v) :
    s.partition.entriesPerCluster = 16 * g.clusterSize := by
  rw [Partition.entriesPerCluster, h.clusterBytes_eq, Geometry.clusterBytes]
  omega

theorem View.cached (h : View g s₀ s v) {x : ℕ} {b : Buffer}
    (hc : CacheValid { s with partition := { s.partition with
      fatSector := b, fatSectorNumber := x } }) :
    View g s₀ { s with partition := { s.partition with fatSector := b, fatSectorNumber := x } } v :=
  ⟨h.boot, h.secondaryFsInfo, h.entryName, h.free, h.fat, h.data, hc, h.mirror, h.fsInfo, h.writes⟩

theorem View.fatEntry (h : View g s₀ s v) (hg : g.Valid) {c : ℕ} (hc : c < g.fatEntries) :
    View g s₀ (s.fatEntry c).1 v ∧ (s.fatEntry c).2 = v.fat c := by
  have hl := h.layout hg
  have hp := hl.primaryFat_eq
  have hfits := hl.fits
  have hx : c / 128 < s.partition.boot.sectorsPerFat := by
    rw [← h.fatEntries_eq, Partition.fatEntries] at hc
    omega
  have hsector :
    u32 (s.partition.boot.hiddenSectors + s.partition.boot.reservedAreaSize + c / 128) =
      s.partition.primaryFat + c / 128 := by
    rw [u32, Nat.mod_eq_of_lt (by omega), hp]
  have hread (j : ℕ) (hj : j < 128) :
      getLE (s.read (s.partition.primaryFat + c / 128) 1) (4 * j) 4 =
      s.fat (128 * (c / 128) + j) := by
    have hu : u32 (s.partition.primaryFat + c / 128) = s.partition.primaryFat + c / 128 :=
      Nat.mod_eq_of_lt (by omega)
    rw [← getLE_readFat hl hx hj, hu]
  have hfat : s.fat (128 * (c / 128) + c % 128) = v.fat c := by
    rw [show 128 * (c / 128) + c % 128 = c by omega]
    exact h.fat c hc
  rw [State.fatEntry]
  simp only [hsector]
  by_cases hn : s.partition.fatSectorNumber = s.partition.primaryFat + c / 128
  · simp only [hn, ne_eq, not_true_eq_false, if_false]
    exact ⟨h, (h.cache _ hx hn _ (Nat.mod_lt _ (by decide))).trans hfat⟩
  · simp only [ne_eq, hn, not_false_eq_true, if_true]
    refine ⟨h.cached ?_, (hread _ (Nat.mod_lt _ (by decide))).trans hfat⟩
    intro y _ hy j hj
    have hyx : y = c / 128 := by
      change s.partition.primaryFat + c / 128 = s.partition.primaryFat + y at hy
      omega
    rw [hyx]
    exact hread j hj

theorem View.getNextCluster (h : View g s₀ s v) (hg : g.Valid) {c : ℕ} (hc : g.InData c) :
    View g s₀ (fat32GetNextCluster s c).1 v ∧ (fat32GetNextCluster s c).2 = v.fat c := by
  rw [fat32GetNextCluster, if_neg (hg.inData_ne_end hc)]
  exact h.fatEntry hg (Geometry.Valid.inData_fatEntries hc)

theorem fat32GetNextCluster_end (s : State) : fat32GetNextCluster s endOfChain = (s, 0) := by
  rw [fat32GetNextCluster, if_pos rfl]

theorem View.readCluster (h : View g s₀ s v) (hg : g.Valid) {c : ℕ} (hc : g.InData c) (b : Buffer) :
    ∃ s', fat32ReadCluster s c false b = ⟨.success, s',
      if v.fat c = endOfChain then c else v.fat c, decide (v.fat c = endOfChain), v.data c⟩ ∧
      View g s₀ s' v := by
  obtain ⟨hview, hentry⟩ := h.fatEntry hg (Geometry.Valid.inData_fatEntries hc)
  have hdata := hview.data c hc
  refine ⟨(s.fatEntry c).1, ?_, hview⟩
  rw [fat32ReadCluster]
  simp only [Bool.false_eq_true, if_false, if_neg (Nat.not_lt.mpr hc.1)]
  rw [hentry, ← hdata, State.data]

def overChain {σ ρ : Type} (body : ℕ → Buffer → σ → ρ ⊕ σ) (data : ℕ → Buffer) :
    List ℕ → σ → ρ ⊕ σ
  | [], acc => .inr acc
  | c :: l, acc =>
    match body c (data c) acc with
    | .inl x => .inl x
    | .inr acc => overChain body data l acc

theorem View.readChain {σ ρ : Type} {body : ℕ → Buffer → σ → ρ ⊕ σ} (hg : g.Valid) {n c : ℕ}
    {l : List ℕ} {acc : σ} (h : View g s₀ s v) (hchain : Chain v.fat endOfChain (c :: l))
    (hin : ∀ b ∈ c :: l, g.InData b) (hn : l.length + 1 < n) :
    ∃ s', readChain body n s c false acc = some (s', overChain body v.data (c :: l) acc) ∧
      View g s₀ s' v := by
  induction n generalizing s c l acc with
  | zero => omega
  | succ n ih =>
    obtain ⟨s', hread, hview⟩ := h.readCluster hg (hin c (by simp)) (fun _ => 0)
    rw [Fat32.readChain, hread, overChain]
    simp only [if_true]
    cases hbody : body c (v.data c) acc with
    | inl x => exact ⟨s', rfl, hview⟩
    | inr acc' =>
      cases l with
      | nil =>
        have hend : v.fat c = endOfChain := hchain
        obtain ⟨m, rfl⟩ : ∃ m, n = m + 1 := ⟨n - 1, by omega⟩
        refine ⟨s', ?_, hview⟩
        simp only [hend, decide_true, Fat32.readChain, fat32ReadCluster, if_true, reduceCtorEq,
          if_false, overChain]
      | cons d l =>
        have hne : v.fat c ≠ endOfChain := by
          rw [hchain.1]
          exact hchain.2.1
        simp only [if_neg hne, decide_eq_false hne]
        rw [hchain.1]
        exact ih hview hchain.tail (fun b hb => hin b (by simp [hb])) (by simpa using hn)

theorem Geometry.Valid.chain_length (hg : g.Valid) {F : ℕ → ℕ} {l : List ℕ}
    (hchain : Chain F endOfChain l) (hin : ∀ b ∈ l, g.InData b) : l.length + 1 < walkFuel := by
  have hsub : l.Subperm (List.range (g.numClusters + 2)) :=
    hchain.nodup.subperm (fun b hb => List.mem_range.mpr (hin b hb).2)
  have hlen := hsub.length_le
  have hN := hg.numClusters_lt
  rw [List.length_range] at hlen
  rw [endOfChain] at hN
  rw [walkFuel]
  omega

theorem Geometry.cluster_disjoint (g : Geometry) {c d : ℕ} (hc : 2 ≤ c) (h : c < d) :
    g.clusterSize * (c - 2) + g.clusterSize ≤ g.clusterSize * (d - 2) := by
  calc g.clusterSize * (c - 2) + g.clusterSize = g.clusterSize * (c - 2 + 1) := by
        rw [Nat.mul_add, Nat.mul_one]
    _ ≤ g.clusterSize * (d - 2) := Nat.mul_le_mul_left _ (by omega)

theorem View.writeCluster_eq (h : View g s₀ s v) (hg : g.Valid) {c : ℕ} (hc : g.InData c)
    (b : Buffer) : fat32WriteCluster s c b =
      s.write b (g.dataStart + g.clusterSize * (c - 2)) g.clusterSize .cluster := by
  have hcs : s.partition.boot.clusterSize = g.clusterSize := by rw [h.boot]; rfl
  rw [fat32WriteCluster, if_neg (Nat.not_lt.mpr hc.1), hg.clusterSector_eq h.boot hc, hcs]

theorem View.writeCluster (h : View g s₀ s v) (hg : g.Valid) {c : ℕ} (hc : g.InData c)
    (b : Buffer) :
    View g s₀ (fat32WriteCluster s c b)
      { v with data := Function.update v.data c (window b 0 g.clusterBytes) } := by
  have hl := h.layout hg
  have hp := hl.primaryFat_eq
  have hsec := hl.secondaryFat_eq
  have hpf := hg.primaryFat_eq h.boot
  have hspf : s.partition.boot.sectorsPerFat = g.sectorsPerFat := by rw [h.boot]; rfl
  have hcs : s.partition.boot.clusterSize = g.clusterSize := by rw [h.boot]; rfl
  have hcl := Geometry.Valid.cluster_fits hc
  have hstart : g.dataStart = g.fatStart + 2 * g.sectorsPerFat := rfl
  rw [h.writeCluster_eq hg hc]
  have hbelow (a : ℕ) (ha : a < 512 * g.dataStart) :
      (s.write b (g.dataStart + g.clusterSize * (c - 2)) g.clusterSize .cluster).disk a =
      s.disk a := by
    rw [State.write_disk, copy, if_neg (by omega)]
  have hfat (x : ℕ) (hx : x < g.fatEntries) :
      (s.write b (g.dataStart + g.clusterSize * (c - 2)) g.clusterSize .cluster).fat x =
      s.fat x := by
    rw [Geometry.fatEntries] at hx
    rw [State.fat, State.fat, State.write_partition]
    apply getLE_congr
    intro i hi
    apply hbelow
    omega
  refine ⟨h.boot, h.secondaryFsInfo, h.entryName, h.free,
    fun x hx => (hfat x hx).trans (h.fat x hx), ?_, ?_, ?_, ?_, ?_⟩
  · intro d hd
    rw [State.data, State.write_partition, hg.clusterSector_eq h.boot hd, hcs, State.read,
      State.write_disk]
    dsimp only
    by_cases hdc : d = c
    · rw [hdc, Function.update_self, window_copy_self, Geometry.clusterBytes]
    · rw [Function.update_of_ne hdc, ← h.data d hd, State.data, hg.clusterSector_eq h.boot hd, hcs,
        State.read]
      apply window_copy_of_disjoint
      rcases Nat.lt_or_gt_of_ne hdc with hlt | hlt
      · have := g.cluster_disjoint hd.1 hlt
        omega
      · have := g.cluster_disjoint hc.1 hlt
        omega
  · intro x hx hn j hj
    rw [State.write_partition] at hx hn ⊢
    rw [h.cache x hx hn j hj, hfat _ (by rw [Geometry.fatEntries]; omega)]
  · intro hm j hj
    rw [State.write_partition] at hj ⊢
    rw [hbelow _ (by omega), hbelow _ (by omega)]
    exact h.mirror hm j hj
  · intro hf j hj
    have hinfo := hl.fsInfo
    rw [State.write_partition, hbelow _ (by omega)]
    exact h.fsInfo hf j hj
  · obtain ⟨ws, hws, hok⟩ := h.writes
    refine ⟨ws ++ [⟨g.dataStart + g.clusterSize * (c - 2), g.clusterSize, .cluster⟩], ?_, ?_⟩
    · rw [State.write_writes, hws, List.append_assoc]
    · intro w hw
      rcases List.mem_append.mp hw with hw | hw
      · exact hok w hw
      · rw [List.mem_singleton.mp hw]
        exact Or.inr (Or.inr ⟨rfl, Nat.le_add_right _ _, by dsimp only; omega⟩)

/-- The free count is the number of the free clusters of the partition. They are its last ones. -/
structure Counted (g : Geometry) (v : Vol) : Prop where
  first : v.fat 0 ≠ 0
  second : v.fat 1 ≠ 0
  count : v.free = (zeros v.fat (g.numClusters + 2)).length
  packed : ∀ c d, c < d → d < g.numClusters + 2 → v.fat c = 0 → v.fat d = 0

theorem Appended.congr_left {F G F' : ℕ → ℕ} {e : ℕ} {old : Option ℕ} {zs : List ℕ}
    (h : Appended F F' e old zs) (hF : ∀ c < e, F c = G c) : Appended G F' e old zs := by
  refine ⟨h.sorted, h.lt, ?_, ?_, h.links, h.last, h.relinked, ?_⟩
  · intro z hz
    rw [← hF z (h.lt z hz)]
    exact h.zero z hz
  · intro c hc hmem z hz
    have hze := h.lt z hz
    by_cases hce : c < e
    · exact h.lowest c (by rw [hF c hce]; exact hc) hmem z hz
    · omega
  · intro c hc hmem hold
    rw [← hF c hc]
    exact h.other c hc hmem hold

theorem Appended.links_ne_zero {F F' : ℕ → ℕ} {e : ℕ} {old : Option ℕ} {zs : List ℕ}
    (h : Appended F F' e old zs) (hz : ∀ z ∈ zs, z ≠ 0) : ∀ z ∈ zs, F' z ≠ 0 := by
  intro z hmem
  obtain ⟨p, q, rfl⟩ := List.append_of_mem hmem
  cases q with
  | nil =>
    rw [h.last z List.getLast?_concat]
    decide
  | cons d q =>
    rw [h.links.next_eq]
    exact hz d (by simp)

/-- The lowest zero entries are those of clusters when there are enough of them. -/
theorem Appended.lt_of_enough {F F' : ℕ → ℕ} {e m : ℕ} {old : Option ℕ} {zs : List ℕ}
    (h : Appended F F' e old zs) (hlen : zs.length ≤ (zeros F m).length) : ∀ z ∈ zs, z < m := by
  intro z hz
  by_contra hzm
  -- otherwise all zero entries below the bound were taken, and one more
  have hsub : z :: zeros F m ⊆ zs := by
    intro c hc
    rcases List.mem_cons.mp hc with rfl | hc
    · exact hz
    · obtain ⟨hcm, hc0⟩ := mem_zeros.mp hc
      by_contra hmem
      have := h.lowest c hc0 hmem z hz
      omega
  have hnodup : (z :: zeros F m).Nodup :=
    List.nodup_cons.mpr ⟨fun hc => hzm (mem_zeros.mp hc).1, zeros_nodup F m⟩
  have := (hnodup.subperm hsub).length_le
  rw [List.length_cons] at this
  omega

theorem Appended.zeros_length {F F' : ℕ → ℕ} {e m : ℕ} {old : Option ℕ} {zs : List ℕ}
    (h : Appended F F' e old zs) (hnil : zs ≠ []) (hm : m ≤ e) (hzs : ∀ z ∈ zs, z < m)
    (hF0 : F 0 ≠ 0) (hold : ∀ t, old = some t → F t ≠ 0) :
    (zeros F m).length = zs.length + (zeros F' m).length := by
  have hz0 (z : ℕ) (hz : z ∈ zs) : z ≠ 0 := by
    rintro rfl
    exact hF0 (h.zero 0 hz)
  have hne := h.links_ne_zero hz0
  rw [← List.length_append]
  apply List.Perm.length_eq
  have hdisj : (zs ++ zeros F' m).Nodup := by
    rw [List.nodup_append]
    refine ⟨h.sorted.imp Nat.ne_of_lt, zeros_nodup F' m, ?_⟩
    rintro a ha b hb rfl
    exact hne a ha (mem_zeros.mp hb).2
  rw [List.perm_ext_iff_of_nodup (zeros_nodup F m) hdisj]
  intro c
  rw [List.mem_append, mem_zeros, mem_zeros]
  constructor
  · rintro ⟨hcm, hc⟩
    by_cases hmem : c ∈ zs
    · exact Or.inl hmem
    · refine Or.inr ⟨hcm, ?_⟩
      rw [h.other c (by omega) hmem (fun ho => hold c ho hc), hc]
  · rintro (hmem | ⟨hcm, hc⟩)
    · exact ⟨hzs c hmem, h.zero c hmem⟩
    · refine ⟨hcm, ?_⟩
      have hmem : c ∉ zs := fun hz => hne c hz hc
      by_cases ho : old = some c
      · rw [h.relinked c ho, List.head?_eq_some_head hnil, Option.getD_some] at hc
        exact absurd hc (hz0 _ (List.head_mem hnil))
      · rw [← h.other c (by omega) hmem ho, hc]

theorem Appended.packed {F F' : ℕ → ℕ} {e m : ℕ} {old : Option ℕ} {zs : List ℕ}
    (h : Appended F F' e old zs) (hnil : zs ≠ []) (hm : m ≤ e) (hF0 : F 0 ≠ 0)
    (hold : ∀ t, old = some t → F t ≠ 0) (hp : ∀ c d, c < d → d < m → F c = 0 → F d = 0) :
    ∀ c d, c < d → d < m → F' c = 0 → F' d = 0 := by
  intro c d hcd hd hc
  have hz0 (z : ℕ) (hz : z ∈ zs) : z ≠ 0 := by
    rintro rfl
    exact hF0 (h.zero 0 hz)
  have hne := h.links_ne_zero hz0
  have hcz : c ∉ zs := fun hz => hne c hz hc
  have hcold : old ≠ some c := by
    intro ho
    rw [h.relinked c ho, List.head?_eq_some_head hnil, Option.getD_some] at hc
    exact hz0 _ (List.head_mem hnil) hc
  have hF : F c = 0 := by rw [← h.other c (by omega) hcz hcold, hc]
  have hFd := hp c d hcd hd hF
  have hdz : d ∉ zs := by
    intro hz
    have := h.lowest c hF hcz d hz
    omega
  rw [h.other d (by omega) hdz (fun ho => hold d ho hFd), hFd]

theorem AllocFrame.fat_sub {n : ℕ} (h : View g s₀ s v) (hf : AllocFrame s s' n)
    (hn : n ≤ v.free) (hv : v.free < 2 ^ 32) : s'.partition.fsInfo.freeClusters = v.free - n := by
  rw [hf.freeClusters, h.free, sub32]
  omega

theorem View.allocated {n : ℕ} (h : View g s₀ s v) (hg : g.Valid) (hf : AllocFrame s s' n)
    (hn : n ≤ v.free) (hv : v.free < 2 ^ 32) :
    View g s₀ s' { v with fat := s'.fat, free := v.free - n } := by
  have hl := h.layout hg
  have hb : s'.partition.boot = g.boot := hf.boot.trans h.boot
  have hpf := hg.primaryFat_eq h.boot
  have hspf : s.partition.boot.sectorsPerFat = g.sectorsPerFat := by rw [h.boot]; rfl
  have hhid : s.partition.boot.hiddenSectors = g.baseLba := by rw [h.boot]; rfl
  have hlba : s.partition.boot.fsInfoLba = g.numReservedSectors + 1 := by
    rw [h.boot, hg.fsInfoLba_eq]
  refine ⟨hb, hf.secondaryFsInfo.trans h.secondaryFsInfo, hf.entryName.trans h.entryName,
    hf.fat_sub h hn hv, fun _ _ => rfl, ?_, ?_, fun hm => hf.mirror (h.mirror hm), ?_, ?_⟩
  · intro c hc
    rw [← h.data c hc, State.data, State.data, hg.clusterSector_eq hb hc,
      hg.clusterSector_eq h.boot hc, hf.boot, State.read, State.read]
    apply window_congr
    intro i hi
    apply hf.outside
    rw [hpf, hspf, Geometry.dataStart]
    omega
  · intro x _ hx
    rw [hf.fatSectorNumber, hg.primaryFat_eq hb, Geometry.fatStart] at hx
    omega
  · intro _ j hj
    rw [hf.boot]
    exact hf.primary j hj
  · obtain ⟨ws, hws, hok⟩ := h.writes
    obtain ⟨ws', hws', hok'⟩ := hf.writes
    refine ⟨ws ++ ws', by rw [hws', hws, List.append_assoc], ?_⟩
    intro w hw
    rcases List.mem_append.mp hw with hw | hw
    · exact hok w hw
    · rcases hok' w hw with ⟨hk, h1, h2⟩ | ⟨hk, h1, h2⟩
      · refine Or.inl ⟨hk, by omega, ?_⟩
        rw [Geometry.dataStart]
        omega
      · refine Or.inr (Or.inl ⟨hk, h1, ?_⟩)
        rw [h.secondaryFsInfo, hhid, hlba] at h2
        omega

/-- A chain of clusters of the partition. -/
structure Geometry.IsChain (g : Geometry) (F : ℕ → ℕ) (l : List ℕ) : Prop where
  chain : Chain F endOfChain l
  inData : ∀ b ∈ l, g.InData b

theorem Geometry.IsChain.fat_ne_zero {F : ℕ → ℕ} {l : List ℕ} (h : g.IsChain F l) :
    ∀ b ∈ l, F b ≠ 0 := by
  intro b hb
  rcases h.chain.next_mem hb with he | hm
  · rw [he]
    decide
  · have := (h.inData _ hm).1
    omega

/-- The chain that an allocation extends: none, or one whose head passes the range check. -/
inductive Extends (g : Geometry) (F : ℕ → ℕ) : ℕ → List ℕ → Prop
  | none : Extends g F 0 []
  | some {c : ℕ} {l : List ℕ} (hc : c ≤ g.numClusters) (hl : g.IsChain F (c :: l)) :
      Extends g F c (c :: l)

theorem Extends.inData {F : ℕ → ℕ} {c : ℕ} {l : List ℕ} (h : Extends g F c l) :
    ∀ b ∈ l, g.InData b := by
  cases h with
  | none => simp
  | some _ hl => exact hl.inData

theorem Extends.fat_ne_zero {F : ℕ → ℕ} {c : ℕ} {l : List ℕ} (h : Extends g F c l) :
    ∀ b ∈ l, F b ≠ 0 := by
  cases h with
  | none => simp
  | some _ hl => exact hl.fat_ne_zero

/-- The volume `v'` is `v` after the clusters `zs` were appended to the chain `l`. -/
structure Grown (g : Geometry) (v v' : Vol) (l zs : List ℕ) : Prop where
  appended : Appended v.fat v'.fat g.fatEntries l.getLast? zs
  inData : ∀ z ∈ zs, g.InData z
  ne_nil : zs ≠ []
  data : v'.data = v.data
  entryName : v'.entryName = v.entryName
  free : v.free = v'.free + zs.length
  counted : Counted g v'

theorem zeros_length_le (F : ℕ → ℕ) (e : ℕ) : (zeros F e).length ≤ e := by
  have := List.length_filter_le (fun c => decide (F c = 0)) (List.range e)
  rwa [List.length_range] at this

theorem zeros_length_mono (F : ℕ → ℕ) {e m : ℕ} (h : e ≤ m) :
    (zeros F e).length ≤ (zeros F m).length :=
  length_le_zeros (zeros_nodup F e) (fun c hc => by
    have := mem_zeros.mp hc
    exact ⟨by omega, this.2⟩)

theorem Counted.free_lt (h : Counted g v) (hg : g.Valid) : v.free < 2 ^ 32 := by
  have hle := zeros_length_le v.fat (g.numClusters + 2)
  have hN := hg.numClusters_lt
  rw [endOfChain] at hN
  rw [h.count]
  omega

theorem zeros_congr {F G : ℕ → ℕ} {e : ℕ} (h : ∀ c < e, F c = G c) : zeros F e = zeros G e := by
  apply List.filter_congr
  intro c hc
  rw [h c (List.mem_range.mp hc)]

theorem View.allocate {start n : ℕ} {l : List ℕ} (h : View g s₀ s v) (hg : g.Valid)
    (hc : Counted g v) (hl : Extends g v.fat start l) (hn : 0 < n) (hfree : n ≤ v.free) :
    ∃ s' v' zs, fat32AllocateClusterChain s start n = some (s', zs.head?.getD 0) ∧
      View g s₀ s' v' ∧ Grown g v v' l zs ∧ zs.length = n := by
  have hle := g.entries_le_fatEntries
  have hlay := h.layout hg
  have hzeros : zeros s.fat g.fatEntries = zeros v.fat g.fatEntries := zeros_congr h.fat
  have hold : OldChain s start l := by
    cases hl with
    | none => exact .none
    | some hcN hch =>
      have hin (b : ℕ) (hb : b ∈ _ :: _) := Geometry.Valid.inData_fatEntries (hch.inData b hb)
      refine .some (hch.inData _ (by simp)).1 (by rw [hg.dataClusters_eq h.boot]; exact hcN)
        (hch.chain.congr (fun b hb => h.fat b (hin b hb))) ?_
      intro b hb
      rw [h.fatEntries_eq, h.fat b (hin b hb)]
      exact ⟨hin b hb, hch.fat_ne_zero b hb⟩
  have hlast (t : ℕ) (ht : l.getLast? = some t) : v.fat t ≠ 0 :=
    hl.fat_ne_zero t (List.mem_of_getLast? ht)
  obtain ⟨s', zs, hres, hlen, happ, hframe⟩ := fat32AllocateClusterChain_spec hlay
    (by rw [h.fat 0 (by omega)]; exact hc.first) hn (by rw [h.free]; exact hfree)
    (by
      rw [h.fatEntries_eq, hzeros]
      exact Nat.le_trans (hc.count ▸ hfree) (zeros_length_mono v.fat hle)) hold
  rw [h.fatEntries_eq] at happ
  have happ' := happ.congr_left h.fat
  have hlt := happ'.lt_of_enough (m := g.numClusters + 2) (by rw [hlen, ← hc.count]; exact hfree)
  have hne : zs ≠ [] := by
    rintro rfl
    rw [List.length_nil] at hlen
    omega
  have hin (z : ℕ) (hz : z ∈ zs) : g.InData z := by
    refine ⟨?_, hlt z hz⟩
    have h0 : z ≠ 0 := by
      rintro rfl
      exact hc.first (happ'.zero 0 hz)
    have h1 : z ≠ 1 := by
      rintro rfl
      exact hc.second (happ'.zero 1 hz)
    omega
  have hcount := happ'.zeros_length hne hle hlt hc.first hlast
  have hsame (c : ℕ) (hc2 : c < 2) (hc0 : v.fat c ≠ 0) : s'.fat c ≠ 0 := by
    rw [happ'.other c (by omega)]
    · exact hc0
    · intro hz
      have := (hin c hz).1
      omega
    · intro ht
      have := (hl.inData c (List.mem_of_getLast? ht)).1
      omega
  refine ⟨s', _, zs, hres, h.allocated hg hframe hfree (hc.free_lt hg), ?_, hlen⟩
  refine ⟨happ', hin, hne, rfl, rfl, ?_, hsame 0 (by omega) hc.first, hsame 1 (by omega) hc.second,
    ?_, happ'.packed hne hle hc.first hlast hc.packed⟩
  · dsimp only
    omega
  · have := hc.count
    dsimp only
    omega

def Refused (g : Geometry) (v : Vol) (start n : ℕ) : Prop :=
  n = 0 ∨ start = 1 ∨ g.numClusters < start ∨ v.free < n

instance (v : Vol) (start n : ℕ) : Decidable (Refused g v start n) :=
  inferInstanceAs (Decidable (_ ∨ _))

theorem View.refused {start n : ℕ} (h : View g s₀ s v) (hg : g.Valid) (hr : Refused g v start n) :
    fat32AllocateClusterChain s start n = some (s, 0) := by
  rw [Refused] at hr
  rw [fat32AllocateClusterChain, hg.dataClusters_eq h.boot, h.free]
  by_cases h1 : n = 0
  · rw [if_pos h1]
  · by_cases h2 : start ≠ 0 ∧ start < 2
    · rw [if_neg h1, if_pos h2]
    · by_cases h3 : g.numClusters < start
      · rw [if_neg h1, if_neg h2, if_pos h3]
      · rw [if_neg h1, if_neg h2, if_neg h3, if_pos (by omega)]

section Grown

variable {v' : Vol} {l m zs : List ℕ}

theorem Grown.chain (h : Grown g v v' l zs) (hg : g.Valid) : g.IsChain v'.fat zs :=
  ⟨h.appended.chain h.ne_nil (fun hm => hg.inData_ne_end (h.inData _ hm) rfl), h.inData⟩

theorem Grown.chain_append (h : Grown g v v' l zs) (hg : g.Valid) (hl : g.IsChain v.fat l) :
    g.IsChain v'.fat (l ++ zs) := by
  constructor
  · apply h.appended.chain_append h.ne_nil (fun hm => hg.inData_ne_end (h.inData _ hm) rfl) hl.chain
    exact fun b hb => ⟨Geometry.Valid.inData_fatEntries (hl.inData b hb), hl.fat_ne_zero b hb⟩
  · intro b hb
    exact (List.mem_append.mp hb).elim (hl.inData b) (h.inData b)

theorem Grown.chain_other (h : Grown g v v' l zs) (hm : g.IsChain v.fat m)
    (hd : ∀ b ∈ m, b ∉ l) : g.IsChain v'.fat m := by
  refine ⟨hm.chain.congr (fun b hb => ?_), hm.inData⟩
  apply h.appended.other b (Geometry.Valid.inData_fatEntries (hm.inData b hb))
  · exact fun hz => hm.fat_ne_zero b hb (h.appended.zero b hz)
  · exact fun ht => hd b hb (List.mem_of_getLast? ht)

theorem Grown.not_mem (h : Grown g v v' l zs) (hm : g.IsChain v.fat m) : ∀ z ∈ zs, z ∉ m :=
  fun z hz hzm => hm.fat_ne_zero z hzm (h.appended.zero z hz)

end Grown

theorem View.getLastCluster {n c lastFatSector : ℕ} {l : List ℕ} {gp : Buffer}
    (h : View g s₀ s v) (hg : g.Valid) (hl : g.IsChain v.fat (c :: l)) (hn : l.length < n)
    (hgp : lastFatSector < g.sectorsPerFat → ∀ j < 128,
      getLE gp (4 * j) 4 = s.fat (128 * lastFatSector + j)) :
    getLastCluster s n c lastFatSector gp = some ((c :: l).getLast (by simp)) := by
  induction n generalizing c l lastFatSector gp with
  | zero => omega
  | succ n ih =>
    have hlay := h.layout hg
    have hc := Geometry.Valid.inData_fatEntries (hl.inData c (by simp))
    have hx : c / 128 < g.sectorsPerFat := by
      rw [Geometry.fatEntries] at hc
      omega
    have hspf : s.partition.boot.sectorsPerFat = g.sectorsPerFat := by rw [h.boot]; rfl
    obtain ⟨gp', hgp', hsec⟩ : ∃ gp', (if c / 128 ≠ lastFatSector then
        s.read (u32 (s.partition.primaryFat + c / 128)) 1 else gp) = gp' ∧
        ∀ j < 128, getLE gp' (4 * j) 4 = s.fat (128 * (c / 128) + j) := by
      by_cases hs : c / 128 = lastFatSector
      · exact ⟨gp, by simp [hs], by rw [hs]; exact hgp (hs ▸ hx)⟩
      · exact ⟨_, by rw [if_pos hs], fun j hj => getLE_readFat hlay (by omega) hj⟩
    have hentry : getLE gp' (4 * (c % 128)) 4 = v.fat c := by
      rw [hsec _ (Nat.mod_lt _ (by decide)), show 128 * (c / 128) + c % 128 = c by omega]
      exact h.fat c hc
    rw [Fat32.getLastCluster]
    simp only [hgp', hentry]
    cases l with
    | nil =>
      have hend : v.fat c = endOfChain := hl.chain
      rw [if_pos hend, List.getLast_singleton]
    | cons d l =>
      have hne : v.fat c ≠ endOfChain := by
        rw [hl.chain.1]
        exact hl.chain.2.1
      rw [if_neg hne, hl.chain.1, List.getLast_cons (by simp)]
      exact ih ⟨hl.chain.tail, fun b hb => hl.inData b (by simp [hb])⟩ (by simpa using hn)
        (fun _ => hsec)

theorem View.fat32GetLastCluster {c : ℕ} {l : List ℕ} (h : View g s₀ s v) (hg : g.Valid)
    (hl : g.IsChain v.fat (c :: l)) :
    fat32GetLastCluster s c = some ((c :: l).getLast (by simp)) := by
  have hlen := hg.chain_length hl.chain hl.inData
  have hspf := hg.sectorsPerFat_lt
  rw [List.length_cons] at hlen
  exact h.getLastCluster hg hl (by omega) (fun hlt => by omega)

def clearAll (g : Geometry) (data : ℕ → Buffer) (l : List ℕ) : ℕ → Buffer :=
  fun c => if c ∈ l then window (fun _ => 0) 0 g.clusterBytes else data c

theorem View.clearChain {n c : ℕ} {l : List ℕ} (h : View g s₀ s v) (hg : g.Valid)
    (hl : g.IsChain v.fat (c :: l)) (hn : l.length + 1 < n) :
    ∃ s', clearChain n s c = some s' ∧
    View g s₀ s' { v with data := clearAll g v.data (c :: l) } := by
  induction n generalizing s v c l with
  | zero => omega
  | succ n ih =>
    have hc := hl.inData c (by simp)
    obtain ⟨hview, hnext⟩ := h.getNextCluster hg hc
    have hwrite := hview.writeCluster hg hc (fun _ => 0)
    have hne := hl.fat_ne_zero c (by simp)
    rw [Fat32.clearChain]
    simp only [hnext, if_neg hne]
    cases l with
    | nil =>
      have hend : v.fat c = endOfChain := hl.chain
      obtain ⟨m, rfl⟩ : ∃ m, n = m + 1 := ⟨n - 1, by omega⟩
      rw [hend, Fat32.clearChain, fat32GetNextCluster_end]
      refine ⟨_, rfl, ?_⟩
      have hdata : Function.update v.data c (window (fun _ => 0) 0 g.clusterBytes) =
          clearAll g v.data [c] := by
        funext d
        rw [clearAll, Function.update_apply]
        simp
      rw [← hdata]
      exact hwrite
    | cons d l =>
      rw [hl.chain.1]
      obtain ⟨s', hs', hv'⟩ := ih hwrite ⟨hl.chain.tail, fun b hb => hl.inData b (by simp [hb])⟩
        (by simpa using hn)
      refine ⟨s', hs', ?_⟩
      have hdata : clearAll g (Function.update v.data c (window (fun _ => 0) 0 g.clusterBytes))
          (d :: l) = clearAll g v.data (c :: d :: l) := by
        funext b
        rw [clearAll, clearAll, Function.update_apply]
        by_cases hb : b ∈ d :: l
        · simp [hb]
        · by_cases hbc : b = c
          · simp [hbc]
          · simp [hb, hbc]
      rw [← hdata]
      exact hv'

end DevOs.Fat32
