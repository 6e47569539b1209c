import DevOs.Fat32.Runs

/-!
# What the driver writes

In every run of orderly calls both FATs stay the same, and the writes stay in the partition: the
sectors of the FSInfo copies and of the backup of the boot sector get no other data. The second
condition is on the geometry. `Fat32AllocateClusterChain` writes the FSInfo copy to the sector
`SecondaryFsInfo` of the drive, not of the partition.
-/

namespace DevOs.Fat32

open Bytes Chains

variable {g : Geometry} {s₀ s s' : State} {v v' : Vol} {o o' : Owners}

/-- The state has a consistent volume. Nothing is said about the sizes of files. -/
def Loose (g : Geometry) (s : State) : Prop :=
  ∃ v o, ¬ o.sized ∧ View g s s v ∧ Consistent g v o

theorem loose_fat32CreatePartition (hg : g.Valid) (s : State) :
    Loose g (fat32CreatePartition s g) :=
  ⟨_, rootOwners False, id, view_fat32CreatePartition hg s,
    consistent_fat32CreatePartition hg s False⟩

theorem Keeps.loose {p : Prop} {r : Option State} (h : Keeps g s p r) :
    ∃ t v', r = some t ∧ View g s t v' ∧ Loose g t := by
  obtain ⟨t, v', o', hr, -, hv', hc'⟩ := h
  exact ⟨t, v', hr, hv', v', _, id, hv'.rebase, hc'.forget⟩

/-- The sectors of the FSInfo, of the backup of the boot sector and of the copy of the FSInfo. -/
def Geometry.Protected (g : Geometry) (x : ℕ) : Prop :=
  g.baseLba + g.numReservedSectors + 1 ≤ x ∧ x ≤ g.baseLba + g.numReservedSectors + 5

/-- A write in the partition. Only the FSInfo and the boot sector are written to protected
sectors. -/
structure Geometry.Contained (g : Geometry) (w : Write) : Prop where
  start : g.baseLba ≤ w.sector
  fits : w.sector + w.numSectors ≤ g.baseLba + g.totalSectors
  kind : ∀ x, g.Protected x → w.sector ≤ x → x < w.sector + w.numSectors →
    w.kind = .boot ∨ w.kind = .fsInfo

def Geometry.ReservedOk (g : Geometry) (w : Write) : Prop :=
  w.kind = .reservedArea ∧ g.baseLba < w.sector ∧ w.sector + w.numSectors + 2 ≤ g.fatStart ∧
    (w.numSectors = 0 ∨ w.sector + w.numSectors ≤ g.baseLba + g.numReservedSectors + 1 ∨
      g.baseLba + g.numReservedSectors + 6 ≤ w.sector)

theorem View.write_below {b : Buffer} {x n : ℕ} {k : WriteKind} (hv : View g s s v) (hg : g.Valid)
    (hx : x + n ≤ g.fatStart) :
    View g (s.write b x n k) (s.write b x n k) v ∧ (Mirror s → Mirror (s.write b x n k)) := by
  have hl := hv.layout hg
  have hpf := hg.primaryFat_eq hv.boot
  have hsf := hl.secondaryFat_eq
  have hspf : s.partition.boot.sectorsPerFat = g.sectorsPerFat := by rw [hv.boot]; rfl
  have hstart : g.dataStart = g.fatStart + 2 * g.sectorsPerFat := rfl
  have habove (a : ℕ) (ha : 512 * g.fatStart ≤ a) : (s.write b x n k).disk a = s.disk a := by
    rw [State.write_disk, copy, if_neg (by omega)]
  have hfat (c : ℕ) : (s.write b x n k).fat c = s.fat c := by
    rw [State.fat, State.fat, State.write_partition, hpf]
    exact getLE_congr (fun i _ => habove _ (by omega))
  refine ⟨⟨hv.boot, hv.secondaryFsInfo, hv.entryName, hv.free,
    fun c hc => (hfat c).trans (hv.fat c hc), ?_, ?_, id, id, [], by simp, by simp⟩, ?_⟩
  · intro c hc
    rw [← hv.data c hc, State.data, State.data, State.write_partition,
      hg.clusterSector_eq hv.boot hc, State.read, State.read]
    exact window_congr (fun i _ => habove _ (by omega))
  · intro y hy hn j hj
    rw [State.write_partition] at hy hn ⊢
    rw [hfat]
    exact hv.cache y hy hn j hj
  · intro hm j hj
    rw [State.write_partition] at hj ⊢
    rw [habove _ (by omega), habove _ (by omega)]
    exact hm j hj

theorem View.reservedArea {sector numSectors : ℕ} {buffer : Buffer} (hv : View g s s v)
    (hg : g.Valid) (hord : (Call.writeReservedArea sector numSectors buffer).orderly s = true) :
    ∃ t, (Call.writeReservedArea sector numSectors buffer).run s = some t ∧ View g t t v ∧
      (Mirror s → Mirror t) ∧ ∃ ws, t.writes = s.writes ++ ws ∧ ∀ w ∈ ws, g.ReservedOk w := by
  have hres : s.partition.boot.reservedAreaSize = g.numReservedSectors + 16 := by
    rw [hv.boot]
    exact hg.reserved_eq
  have hhid : s.partition.boot.hiddenSectors = g.baseLba := by rw [hv.boot]; rfl
  rw [Call.run, fat32WriteReservedArea, hres, hhid]
  split_ifs with hlarge
  · exact ⟨s, rfl, hv, id, [], by simp, by simp⟩
  · have hfits := hg.fits
    have hsector : u32 (g.baseLba + sector + 1) = g.baseLba + sector + 1 :=
      Nat.mod_eq_of_lt (by omega)
    have hstart : g.fatStart = g.baseLba + g.numReservedSectors + 16 := rfl
    rw [hsector]
    obtain ⟨hv', hm⟩ := hv.write_below hg
      (show g.baseLba + sector + 1 + numSectors ≤ g.fatStart by omega)
    refine ⟨_, rfl, hv', hm, [⟨g.baseLba + sector + 1, numSectors, .reservedArea⟩], rfl, ?_⟩
    intro w hw
    rw [List.mem_singleton.mp hw]
    rw [Call.orderly, hv.secondaryFsInfo, Bool.or_eq_true, Bool.or_eq_true, beq_iff_eq,
      decide_eq_true_iff, decide_eq_true_iff] at hord
    refine ⟨rfl, ?_, ?_, ?_⟩
    · dsimp only
      omega
    · dsimp only
      omega
    · dsimp only
      omega

/-- An orderly call ends in a state with a consistent volume. It keeps the FATs alike, and what it
writes are the sectors of the volume and of the reserved area. -/
theorem Loose.call {c : Call} (h : Loose g s) (hg : g.Valid) (hord : c.orderly s = true) :
    ∃ t, c.run s = some t ∧ Loose g t ∧ (Mirror s → Mirror t) ∧
      ∃ ws, t.writes = s.writes ++ ws ∧ ∀ w ∈ ws, g.WriteOk w ∨ g.ReservedOk w := by
  obtain ⟨v, o, hs, hv, hc⟩ := h
  have hkeeps {p : Prop} {r : Option State} (hk : Keeps g s p r) : ∃ t, r = some t ∧ Loose g t ∧
      (Mirror s → Mirror t) ∧
      ∃ ws, t.writes = s.writes ++ ws ∧ ∀ w ∈ ws, g.WriteOk w ∨ g.ReservedOk w := by
    obtain ⟨t, v', hrun, hv', hl⟩ := hk.loose
    obtain ⟨ws, hws, hok⟩ := hv'.writes
    exact ⟨t, hrun, hl, hv'.mirror, ws, hws, fun w hw => Or.inl (hok w hw)⟩
  cases c with
  | createFile path attributes => exact hkeeps (hv.fileCall hg hc hord rfl)
  | writeFile path buffer position numBytes => exact hkeeps (hv.fileCall hg hc hord rfl)
  | editFile path edit attributes x => exact hkeeps (hv.editFile_keeps hg hc hs hord)
  | writeReservedArea sector numSectors buffer =>
    obtain ⟨t, hrun, hv', hm, ws, hws, hok⟩ := hv.reservedArea hg hord
    exact ⟨t, hrun, ⟨v, o, hs, hv', hc⟩, hm, ws, hws, fun w hw => Or.inr (hok w hw)⟩

/-- In every run of orderly calls the secondary FAT is a copy of the primary one, and every further
orderly call ends. -/
theorem fats_mirrored (hg : g.Valid)
    (h : Runs.Reaches Call.run (fun s c => c.orderly s = true) (fat32CreatePartition s₀ g) s) :
    Mirror s ∧ ∀ c : Call, c.orderly s = true → ∃ t, c.run s = some t := by
  have hinv : Loose g s ∧ Mirror s := by
    apply Runs.Reaches.invariant _ h
      ⟨loose_fat32CreatePartition hg s₀, mirror_fat32CreatePartition hg s₀⟩
    intro s c t hs hord hst
    obtain ⟨t', hrun, hl, hm, -⟩ := hs.1.call hg hord
    rw [hrun] at hst
    cases hst
    exact ⟨hl, hm hs.2⟩
  refine ⟨hinv.2, fun c hord => ?_⟩
  obtain ⟨t, ht, -⟩ := hinv.1.call hg hord
  exact ⟨t, ht⟩

/-- A file is created, written, and its size is edited. -/
theorem fats_mirrored_small : ∃ s, Runs.Reaches Call.run (fun s c => c.orderly s = true)
    (fat32CreatePartition (blankDrive smallGeometry 0) smallGeometry) s ∧ Mirror s := by
  obtain ⟨s, hs⟩ : ∃ s, Runs.guardedRun Call.run (fun s c => c.orderly s = true)
      (fat32CreatePartition (blankDrive smallGeometry 0) smallGeometry)
      [.createFile [0x46] 0x20, .writeFile [0x46] (fun _ => 1) 0 600,
        .editFile [0x46] editFileSize 0 100] = some s :=
    Option.isSome_iff_exists.mp (by decide +kernel)
  have hr := Runs.reaches_of_guardedRun _ hs
  exact ⟨s, hr, (fats_mirrored smallGeometry_valid hr).1⟩

/-- The calls of `Fat32CreateFile`, `Fat32WriteFile` and `Fat32EditFile`. -/
def Call.isVolumeCall : Call → Bool
  | .writeReservedArea .. => false
  | _ => true

/-- The first cluster of a file is edited to a number whose sector number wraps around to that of
the primary FAT. Then the file is written. -/
theorem fat_overwritten : ∃ s, Runs.Reaches Call.run (fun _ c => c.isVolumeCall = true)
    (fat32CreatePartition (blankDrive mediumGeometry 0xFF) mediumGeometry) s ∧ ¬ Mirror s := by
  obtain ⟨s, hs⟩ : ∃ s, Runs.guardedRun Call.run (fun _ c => c.isVolumeCall = true)
      (fat32CreatePartition (blankDrive mediumGeometry 0xFF) mediumGeometry)
      [.createFile [0x46] 0x20, .editFile [0x46] editCluster 0 0xFFFFFFFE,
        .editFile [0x46] editFileSize 0 512, .writeFile [0x46] (fun _ => 1) 0 1] = some s :=
    Option.isSome_iff_exists.mp (by decide +kernel)
  refine ⟨s, Runs.reaches_of_guardedRun _ hs, fun hm => ?_⟩
  have hlen : 0 < 512 * s.partition.boot.sectorsPerFat :=
    of_decide_eq_true (Runs.eq_of_map
      (fun s : State => decide (0 < 512 * s.partition.boot.sectorsPerFat)) hs (by decide +kernel))
  have hdiff : (decide (s.disk (512 * s.partition.secondaryFat + 0) =
      s.disk (512 * s.partition.primaryFat + 0))) = false :=
    Runs.eq_of_map (fun s : State => decide (s.disk (512 * s.partition.secondaryFat + 0) =
      s.disk (512 * s.partition.primaryFat + 0))) hs (by decide +kernel)
  exact of_decide_eq_false hdiff (hm 0 hlen)

theorem Geometry.WriteOk.contained {w : Write} (h : g.WriteOk w) (hg : g.Valid)
    (hbase : g.baseLba ≤ g.numReservedSectors + 4) : g.Contained w := by
  have htotal := hg.total_eq
  have hmul : 1 ≤ g.numClusters * g.clusterSize := Nat.mul_pos hg.numClusters hg.clusterSize
  have hfat : g.fatStart = g.baseLba + g.numReservedSectors + 16 := rfl
  have hdata : g.dataStart = g.fatStart + 2 * g.sectorsPerFat := rfl
  rcases h with ⟨-, h1, h2⟩ | ⟨hk, hn, hs⟩ | ⟨-, h1, h2⟩
  · exact ⟨by omega, by omega, fun x hx hle _ => by have := hx.2; omega⟩
  · exact ⟨by omega, by omega, fun _ _ _ _ => Or.inr hk⟩
  · exact ⟨by omega, by omega, fun x hx hle _ => by have := hx.2; omega⟩

theorem Geometry.ReservedOk.contained {w : Write} (h : g.ReservedOk w) (hg : g.Valid) :
    g.Contained w := by
  have htotal := hg.total_eq
  have hfat : g.fatStart = g.baseLba + g.numReservedSectors + 16 := rfl
  obtain ⟨-, h1, h2, h3⟩ := h
  refine ⟨by omega, by omega, fun x hx hle hlt => ?_⟩
  have := hx.1
  have := hx.2
  omega

theorem writes_fat32CreatePartition (hg : g.Valid) (s : State) :
    ∃ ws, (fat32CreatePartition s g).writes = s.writes ++ ws ∧ ∀ w ∈ ws, g.Contained w := by
  have hfits := hg.fits
  have hres := hg.numReservedSectors
  have htotal := hg.total_eq
  have hmul : 1 * g.clusterSize ≤ g.numClusters * g.clusterSize :=
    Nat.mul_le_mul_right _ hg.numClusters
  have hcs := hg.clusterSize
  have hfat : g.fatStart = g.baseLba + g.numReservedSectors + 16 := rfl
  have hdata : g.dataStart = g.fatStart + 2 * g.sectorsPerFat := rfl
  have hspf := g.sectorsPerFat_pos
  have hsector (k : ℕ) (hk : k < 16) : u32 (g.baseLba + (g.numReservedSectors + k) % 2 ^ 16) =
      g.baseLba + g.numReservedSectors + k := by
    rw [u32]
    omega
  have hl : Layout (writeReserved s g).partition := hg.partition_layout
  have hfirst := fatOnly_writeFat hl hspf newFatSector
  obtain ⟨ws, hws, hok⟩ := (hfirst.trans (fatOnly_clearFat (hfirst.layout hl)
    (show 1 + (g.sectorsPerFat - 1) ≤ g.sectorsPerFat by omega))).writes
  have hpf : (writeReserved s g).partition.primaryFat = g.fatStart := hg.primaryFat_eq rfl
  refine ⟨[⟨g.baseLba, 1, .boot⟩, ⟨g.baseLba + g.numReservedSectors + 3, 1, .boot⟩,
    ⟨g.baseLba + g.numReservedSectors + 1, 2, .fsInfo⟩,
    ⟨g.baseLba + g.numReservedSectors + 4, 2, .fsInfo⟩] ++ ws ++
    [⟨g.dataStart, g.clusterSize, .cluster⟩], ?_, ?_⟩
  · rw [fat32CreatePartition_eq, State.write_writes, hg.labelSector_eq, ← List.append_assoc,
      ← List.append_assoc]
    congr 1
    refine hws.trans ?_
    congr 1
    rw [writeReserved]
    simp only [State.write_writes, List.append_assoc, List.singleton_append,
      List.append_cancel_left_eq]
    simp only [Geometry.boot, hsector 3 (by decide), hsector 1 (by decide), hsector 4 (by decide)]
    rfl
  · intro w hw
    simp only [List.mem_append, List.mem_cons, List.not_mem_nil, or_false] at hw
    rcases hw with ((rfl | rfl | rfl | rfl) | hw) | rfl
    · exact ⟨Nat.le_refl _, by dsimp only; omega, fun _ _ _ _ => Or.inl rfl⟩
    · exact ⟨by dsimp only; omega, by dsimp only; omega, fun _ _ _ _ => Or.inl rfl⟩
    · exact ⟨by dsimp only; omega, by dsimp only; omega, fun _ _ _ _ => Or.inr rfl⟩
    · exact ⟨by dsimp only; omega, by dsimp only; omega, fun _ _ _ _ => Or.inr rfl⟩
    · obtain ⟨-, h1, h2⟩ := hok w hw
      change _ ≤ _ + 2 * g.sectorsPerFat at h2
      rw [hpf] at h1 h2
      exact ⟨by omega, by omega, fun x hx hle _ => by have := hx.2; omega⟩
    · exact ⟨by dsimp only; omega, by dsimp only; omega, fun x hx hle _ => by
        have := hx.2
        dsimp only at hle
        omega⟩

/-- In every run of orderly calls on a partition that starts at or before the sector of the FSInfo
copy every write is in the partition, and only the FSInfo and the boot sector are written to their
sectors. -/
theorem writes_contained (hg : g.Valid) (hbase : g.baseLba ≤ g.numReservedSectors + 4)
    (h : Runs.Reaches Call.run (fun s c => c.orderly s = true) (fat32CreatePartition s₀ g) s) :
    ∃ ws, s.writes = s₀.writes ++ ws ∧ ∀ w ∈ ws, g.Contained w := by
  have hinv : Loose g s ∧ ∃ ws, s.writes = s₀.writes ++ ws ∧ ∀ w ∈ ws, g.Contained w := by
    apply Runs.Reaches.invariant _ h
      ⟨loose_fat32CreatePartition hg s₀, writes_fat32CreatePartition hg s₀⟩
    intro s c t hs hord hst
    obtain ⟨hl, ws, hws, hok⟩ := hs
    obtain ⟨t', hrun, hl', -, ws', hws', hok'⟩ := hl.call hg hord
    rw [hrun] at hst
    cases hst
    refine ⟨hl', ws ++ ws', by rw [hws', hws, List.append_assoc], fun w hw => ?_⟩
    rcases List.mem_append.mp hw with hw | hw
    · exact hok w hw
    · rcases hok' w hw with h1 | h1
      · exact h1.contained hg hbase
      · exact h1.contained hg
  exact hinv.2

/-- Four clusters behind three other sectors, and a call of each kind. -/
theorem writes_contained_small : ∃ s, Runs.Reaches Call.run (fun s c => c.orderly s = true)
    (fat32CreatePartition (blankDrive { smallGeometry with baseLba := 3 } 0)
      { smallGeometry with baseLba := 3 }) s ∧
    ∀ w ∈ s.writes, Geometry.Contained { smallGeometry with baseLba := 3 } w := by
  obtain ⟨s, hs⟩ : ∃ s, Runs.guardedRun Call.run (fun s c => c.orderly s = true)
      (fat32CreatePartition (blankDrive { smallGeometry with baseLba := 3 } 0)
        { smallGeometry with baseLba := 3 })
      [.createFile [0x46] 0x20, .writeFile [0x46] (fun _ => 1) 0 600,
        .editFile [0x46] editFileSize 0 100, .writeReservedArea 5 2 (fun _ => 1)] = some s :=
    Option.isSome_iff_exists.mp (by decide +kernel)
  have hr := Runs.reaches_of_guardedRun _ hs
  have hvalid : Geometry.Valid { smallGeometry with baseLba := 3 } :=
    ⟨by decide, by decide, by decide, by decide, by decide, by decide, by decide⟩
  obtain ⟨ws, hws, hok⟩ := writes_contained hvalid (by decide) hr
  refine ⟨s, hr, fun w hw => hok w ?_⟩
  rw [hws] at hw
  exact hw

/-- On a partition behind the sector of the FSInfo copy the first cluster of a file is allocated,
and the copy goes to the sector `4` of the drive. -/
theorem fsInfo_copy_outside : ∃ s, Runs.Reaches Call.run (fun _ c => c.isVolumeCall = true)
    (fat32CreatePartition (blankDrive { smallGeometry with baseLba := 2048 } 0)
      { smallGeometry with baseLba := 2048 }) s ∧
    ∃ w ∈ s.writes, ¬ Geometry.Contained { smallGeometry with baseLba := 2048 } w := by
  obtain ⟨s, hs⟩ : ∃ s, Runs.guardedRun Call.run (fun _ c => c.isVolumeCall = true)
      (fat32CreatePartition (blankDrive { smallGeometry with baseLba := 2048 } 0)
        { smallGeometry with baseLba := 2048 })
      [.createFile [0x46] 0x20, .writeFile [0x46] (fun _ => 1) 0 1] = some s :=
    Option.isSome_iff_exists.mp (by decide +kernel)
  have hmem : decide (⟨4, 1, .fsInfo⟩ ∈ s.writes) = true :=
    Runs.eq_of_map (fun s : State => decide ((⟨4, 1, .fsInfo⟩ : Write) ∈ s.writes)) hs
      (by decide +kernel)
  refine ⟨s, Runs.reaches_of_guardedRun _ hs, _, of_decide_eq_true hmem, fun hok => ?_⟩
  have := hok.start
  revert this
  decide

end DevOs.Fat32
