import DevOs.Fat32.Runs

/-!
# Free space

The free count in memory, the one in the FSInfo sector on disk and the zero entries of the FAT agree
in every run of orderly calls. The free clusters are always the last ones of the partition, so the
range check of `Fat32AllocateClusterChain`, which is one short, never refuses a chain while there is
space: the last cluster is in use only when all are.
-/

namespace DevOs.Fat32

open Bytes Chains

variable {g : Geometry} {s₀ s s' : State} {v v' : Vol} {o o' : Owners}

/-- The number of zero entries among those of the clusters `2` to `NumClusters + 1`. -/
def freeEntries (g : Geometry) (s : State) : ℕ :=
  ((List.range' 2 g.numClusters).filter (fun c => s.fat c = 0)).length

theorem Counted.freeEntries_eq (hc : Counted g v) (hv : View g s₀ s v) :
    freeEntries g s = v.free := by
  have hle := g.entries_le_fatEntries
  have hsplit : List.range (g.numClusters + 2) = [0, 1] ++ List.range' 2 g.numClusters := by
    rw [List.range_eq_range', Nat.add_comm, ← List.range'_append_1]
    rfl
  rw [hc.count, zeros, hsplit, List.filter_append]
  have hfirst : [0, 1].filter (fun c => decide (v.fat c = 0)) = [] := by
    simp [hc.first, hc.second]
  rw [hfirst, List.nil_append, freeEntries]
  congr 1
  apply List.filter_congr
  intro c hm
  rw [List.mem_range'_1] at hm
  rw [hv.fat c (by omega)]

theorem Counted.free_eq_zero (hc : Counted g v) (h : v.fat (g.numClusters + 1) ≠ 0) :
    v.free = 0 := by
  rw [hc.count, List.length_eq_zero_iff, List.eq_nil_iff_forall_not_mem]
  intro c hm
  obtain ⟨hlt, h0⟩ := mem_zeros.mp hm
  by_cases hlast : c = g.numClusters + 1
  · rw [hlast] at h0
    exact h h0
  · exact h (hc.packed c (g.numClusters + 1) (by omega) (by omega) h0)

def AllocStart (g : Geometry) (s : State) (start : ℕ) : Prop :=
  start = 0 ∨ ∃ l, g.IsChain s.fat (start :: l)

theorem View.isChain_vol {l : List ℕ} (hv : View g s₀ s v) (hl : g.IsChain s.fat l) :
    g.IsChain v.fat l :=
  ⟨hl.chain.congr (fun b hb => (hv.fat b (Geometry.Valid.inData_fatEntries (hl.inData b hb))).symm),
    hl.inData⟩

/-- An allocation is refused only when there are not enough free clusters, and otherwise it takes
clusters of the partition. -/
theorem View.allocate_cases {start n : ℕ} (hv : View g s₀ s v) (hg : g.Valid) (hc : Counted g v)
    (hs : AllocStart g s start) (hn : 0 < n) :
    (fat32AllocateClusterChain s start n = some (s, 0) ∧ v.free < n) ∨
    ∃ t z, fat32AllocateClusterChain s start n = some (t, z) ∧ z ≠ 0 ∧
      ∀ c < g.fatEntries, s.fat c = 0 → t.fat c ≠ 0 → g.InData c := by
  obtain ⟨l, hl⟩ : ∃ l, (start = 0 ∧ l = []) ∨ g.IsChain v.fat l ∧ l.head? = some start := by
    rcases hs with h0 | ⟨l, hl⟩
    · exact ⟨[], Or.inl ⟨h0, rfl⟩⟩
    · exact ⟨start :: l, Or.inr ⟨hv.isChain_vol hl, rfl⟩⟩
  rcases hv.grow (n := n) hg hc hl with ⟨hr, hres⟩ | ⟨-, t, v', z, zs, hres, hz, hv', hgr, -⟩
  · refine Or.inl ⟨hres, ?_⟩
    rcases hl with ⟨h0, -⟩ | ⟨hch, hhead⟩
    · rw [Refused] at hr
      omega
    · have hm := List.mem_of_mem_head? hhead
      have hin := hch.inData start hm
      have h2 := hin.1
      have hN := hin.2
      rw [Refused] at hr
      by_cases hlast : start = g.numClusters + 1
      · have hne := hch.fat_ne_zero start hm
        rw [hlast] at hne
        rw [hc.free_eq_zero hne]
        exact hn
      · omega
  · refine Or.inr ⟨t, z, hres, hz, fun c hlt h0 hne => ?_⟩
    rw [hv.fat c hlt] at h0
    rw [hv'.fat c hlt] at hne
    by_contra hin
    apply hne
    have hzs : c ∉ z :: zs := fun hm => hin (hgr.inData c hm)
    rw [hgr.appended.other c hlt hzs, h0]
    intro hold
    rcases hl with ⟨-, rfl⟩ | ⟨hch, -⟩
    · cases hold
    · exact hch.fat_ne_zero c (List.mem_of_getLast? hold) h0

theorem getLE_fsInfo (f : FsInfo) (hf : f.freeClusters < 2 ^ 32) :
    getLE f.bytes 488 4 = f.freeClusters := by
  rw [FsInfo.bytes, getLE_setLE_of_disjoint _ (by decide), getLE_setLE_of_disjoint _ (by decide),
    getLE_setLE_of_disjoint _ (by decide), getLE_setLE_self]
  exact Nat.mod_eq_of_lt (by omega)

theorem Sound.free_eq (h : Sound g s) (hg : g.Valid) (hf : FsInfoOnDisk s) :
    s.partition.fsInfo.freeClusters = freeEntries g s ∧
      getLE s.disk (512 * (g.baseLba + g.boot.fsInfoLba) + 488) 4 = freeEntries g s := by
  obtain ⟨v, o, -, hv, hc⟩ := h
  have hfree := hc.counted.freeEntries_eq hv
  have hlt := hc.counted.free_lt hg
  rw [hfree, ← hv.free]
  rw [← hv.free] at hlt
  refine ⟨rfl, ?_⟩
  rw [← getLE_fsInfo _ hlt]
  apply getLE_congr
  intro i hi
  have hdisk := hf (488 + i) (by omega)
  rw [hv.boot] at hdisk
  rw [Nat.add_assoc]
  exact hdisk

/-- In every run of orderly calls of `Fat32CreateFile` and `Fat32WriteFile` the free count in memory
and on disk is the number of zero entries, an allocation fails only when there are fewer of them
than asked for, and it takes no entry behind those of the clusters. -/
theorem free_space_counted (hg : g.Valid)
    (h : Runs.Reaches Call.run (fun s c => fileCall s c = true) (fat32CreatePartition s₀ g) s) :
    s.partition.fsInfo.freeClusters = freeEntries g s ∧
    getLE s.disk (512 * (g.baseLba + g.boot.fsInfoLba) + 488) 4 = freeEntries g s ∧
    ∀ start n, AllocStart g s start → 0 < n →
      ∃ t z, fat32AllocateClusterChain s start n = some (t, z) ∧ (z = 0 → freeEntries g s < n) ∧
        ∀ c < g.fatEntries, s.fat c = 0 → t.fat c ≠ 0 → c ≤ g.numClusters + 1 := by
  have hinv : Sound g s ∧ FsInfoOnDisk s := by
    apply Runs.Reaches.invariant _ h
      ⟨sound_fat32CreatePartition hg s₀, fsInfoOnDisk_fat32CreatePartition hg s₀⟩
    intro s c t hs hcall hst
    obtain ⟨t', v', hrun, hv', ht'⟩ := hs.1.call hg hcall
    rw [hrun] at hst
    cases hst
    exact ⟨ht', hv'.fsInfo hs.2⟩
  obtain ⟨hcount, hdisk⟩ := hinv.1.free_eq hg hinv.2
  refine ⟨hcount, hdisk, fun start n hs hn => ?_⟩
  obtain ⟨v, o, -, hv, hc⟩ := hinv.1
  rcases hv.allocate_cases hg hc.counted hs hn with ⟨hres, hfree⟩ | ⟨t, z, hres, hz, hin⟩
  · refine ⟨s, 0, hres, fun _ => ?_, fun c _ h0 hne => absurd h0 hne⟩
    rw [hc.counted.freeEntries_eq hv]
    exact hfree
  · exact ⟨t, z, hres, fun h0 => absurd h0 hz,
      fun c hlt h0 hne => Nat.le_of_lt_succ (hin c hlt h0 hne).2⟩

/-- A file is created and written, and then two clusters are left. -/
theorem free_space_counted_small : ∃ s, Runs.Reaches Call.run (fun s c => fileCall s c = true)
    (fat32CreatePartition (blankDrive smallGeometry 0) smallGeometry) s ∧
    AllocStart smallGeometry s 0 ∧
    s.partition.fsInfo.freeClusters = freeEntries smallGeometry s := by
  obtain ⟨s, hs⟩ : ∃ s, Runs.guardedRun Call.run (fun s c => fileCall s c = true)
      (fat32CreatePartition (blankDrive smallGeometry 0) smallGeometry)
      [.createFile [0x46] 0x20, .writeFile [0x46] (fun _ => 1) 0 100] = some s :=
    Option.isSome_iff_exists.mp (by decide +kernel)
  have hr := Runs.reaches_of_guardedRun _ hs
  exact ⟨s, hr, Or.inl rfl, (free_space_counted smallGeometry_valid hr).1⟩

/-- The file `F` holds an entry `X` whose first cluster is so large that its sector number wraps
around to that of the FAT. Zeros are written to `F/X`. -/
theorem free_space_overwritten : ∃ s, Runs.Reaches Call.run (fun s c => contractCall s c = true)
    (fat32CreatePartition (blankDrive mediumGeometry 0xFF) mediumGeometry) s ∧
    s.partition.fsInfo.freeClusters ≠ freeEntries mediumGeometry s := by
  obtain ⟨s, hs⟩ : ∃ s, Runs.guardedRun Call.run (fun s c => contractCall s c = true)
      (fat32CreatePartition (blankDrive mediumGeometry 0xFF) mediumGeometry)
      [.createFile [0x46] 0x20, .writeFile [0x46] (entryX 0xFFFFFFFE 512) 0 512,
        .writeFile [0x46, 0x2F, 0x58] (fun _ => 0) 0 16] = some s :=
    Option.isSome_iff_exists.mp (by decide +kernel)
  refine ⟨s, Runs.reaches_of_guardedRun _ hs, ?_⟩
  have hfree : s.partition.fsInfo.freeClusters = 198 :=
    Runs.eq_of_map (fun s : State => s.partition.fsInfo.freeClusters) hs (by decide +kernel)
  have hzero : freeEntries mediumGeometry s = 200 :=
    Runs.eq_of_map (fun s : State => freeEntries mediumGeometry s) hs (by decide +kernel)
  rw [hfree, hzero]
  decide

end DevOs.Fat32
