import DevOs.Fat32.Model

/-!
# The regions of a volume

Reserved area, primary FAT, secondary FAT and clusters follow each other on the drive. `Layout` says
that they do, without overflow of the sector numbers and with the FSInfo sectors before the FATs.
Reads of a region see the last write to it and no write to another one.
-/

namespace DevOs.Fat32

open Bytes

section Write

variable (s : State) (b : Buffer) (x n : ℕ) (k : WriteKind)

@[simp] theorem State.write_partition : (s.write b x n k).partition = s.partition := rfl

@[simp] theorem State.write_entryName : (s.write b x n k).entryName = s.entryName := rfl

@[simp] theorem State.write_disk :
    (s.write b x n k).disk = copy s.disk (512 * x) b 0 (512 * n) := rfl

@[simp] theorem State.write_writes : (s.write b x n k).writes = s.writes ++ [⟨x, n, k⟩] := rfl

end Write

/-- The regions of the volume, as `Fat32CreatePartition` lays them out. -/
structure Layout (p : Partition) : Prop where
  fits : p.boot.hiddenSectors + p.boot.reservedAreaSize + 2 * p.boot.sectorsPerFat < 2 ^ 32
  entries : 128 * p.boot.sectorsPerFat ≤ 2 ^ 32
  fsInfo : p.boot.fsInfoLba < p.boot.reservedAreaSize
  secondary : p.secondaryFsInfo < p.boot.hiddenSectors + p.boot.reservedAreaSize

theorem Layout.primaryFat_eq {p : Partition} (h : Layout p) :
    p.primaryFat = p.boot.hiddenSectors + p.boot.reservedAreaSize := by
  have := h.fits
  exact Nat.mod_eq_of_lt (by omega)

theorem Layout.secondaryFat_eq {p : Partition} (h : Layout p) :
    p.secondaryFat = p.primaryFat + p.boot.sectorsPerFat := by
  have := h.fits
  have hp := h.primaryFat_eq
  exact Nat.mod_eq_of_lt (by omega)

def State.fat (s : State) (cluster : ℕ) : ℕ :=
  getLE s.disk (512 * s.partition.primaryFat + 4 * cluster) 4

def Partition.fatEntries (p : Partition) : ℕ := 128 * p.boot.sectorsPerFat

def Mirror (s : State) : Prop :=
  ∀ j < 512 * s.partition.boot.sectorsPerFat,
    s.disk (512 * s.partition.secondaryFat + j) = s.disk (512 * s.partition.primaryFat + j)

theorem copy_zero_apply (d b : Buffer) (o n i : ℕ) :
    copy d o b 0 n i = if o ≤ i ∧ i < o + n then b (i - o) else d i := by
  rw [copy, Nat.zero_add]

/-- From `s` to `s'` only the FATs were written, both copies alike. -/
structure FatOnly (s s' : State) : Prop where
  boot : s'.partition.boot = s.partition.boot
  secondaryFsInfo : s'.partition.secondaryFsInfo = s.partition.secondaryFsInfo
  freeClusters : s'.partition.fsInfo.freeClusters = s.partition.fsInfo.freeClusters
  entryName : s'.entryName = s.entryName
  outside : ∀ a, a < 512 * s.partition.primaryFat ∨
    512 * (s.partition.primaryFat + 2 * s.partition.boot.sectorsPerFat) ≤ a → s'.disk a = s.disk a
  mirror : Mirror s → Mirror s'
  writes : ∃ ws, s'.writes = s.writes ++ ws ∧ ∀ w ∈ ws, w.kind = .fat ∧
    s.partition.primaryFat ≤ w.sector ∧
    w.sector + w.numSectors ≤ s.partition.primaryFat + 2 * s.partition.boot.sectorsPerFat

theorem Partition.primaryFat_congr {p p' : Partition} (h : p'.boot = p.boot) :
    p'.primaryFat = p.primaryFat := by
  rw [Partition.primaryFat, h, Partition.primaryFat]

theorem FatOnly.layout {s s' : State} (h : FatOnly s s') (hl : Layout s.partition) :
    Layout s'.partition := by
  refine ⟨?_, ?_, ?_, ?_⟩
  · rw [h.boot]
    exact hl.fits
  · rw [h.boot]
    exact hl.entries
  · rw [h.boot]
    exact hl.fsInfo
  · rw [h.boot, h.secondaryFsInfo]
    exact hl.secondary

theorem fatOnly_refl (s : State) : FatOnly s s :=
  ⟨rfl, rfl, rfl, rfl, fun _ _ => rfl, id, [], by simp, by simp⟩

theorem FatOnly.trans {s s' s'' : State} (h : FatOnly s s') (h' : FatOnly s' s'') :
    FatOnly s s'' := by
  have hp := Partition.primaryFat_congr h.boot
  obtain ⟨ws, hw, hws⟩ := h.writes
  obtain ⟨ws', hw', hws'⟩ := h'.writes
  refine ⟨h'.boot.trans h.boot, h'.secondaryFsInfo.trans h.secondaryFsInfo,
    h'.freeClusters.trans h.freeClusters, h'.entryName.trans h.entryName, ?_,
    fun hm => h'.mirror (h.mirror hm), ws ++ ws', by rw [hw', hw, List.append_assoc], ?_⟩
  · intro a ha
    rw [h'.outside a (by rw [hp, h.boot]; exact ha), h.outside a ha]
  · intro w hm
    rcases List.mem_append.mp hm with hm | hm
    · exact hws w hm
    · have := hws' w hm
      rwa [hp, h.boot] at this

variable {s : State} {x : ℕ} {buffer : Buffer}

theorem writeFat_disk (h : Layout s.partition) (hx : x < s.partition.boot.sectorsPerFat) (a : ℕ) :
    (s.writeFat buffer x).disk a =
      if 512 * (s.partition.secondaryFat + x) ≤ a ∧
          a < 512 * (s.partition.secondaryFat + x) + 512 then
        buffer (a - 512 * (s.partition.secondaryFat + x))
      else if 512 * (s.partition.primaryFat + x) ≤ a ∧
          a < 512 * (s.partition.primaryFat + x) + 512 then
        buffer (a - 512 * (s.partition.primaryFat + x))
      else s.disk a := by
  have hf := h.fits
  have hp := h.primaryFat_eq
  have hs := h.secondaryFat_eq
  have h1 : u32 (s.partition.primaryFat + x) = s.partition.primaryFat + x :=
    Nat.mod_eq_of_lt (by omega)
  have h2 : u32 (s.partition.secondaryFat + x) = s.partition.secondaryFat + x :=
    Nat.mod_eq_of_lt (by omega)
  simp only [State.writeFat, State.write, h1, h2, copy_zero_apply, Nat.mul_one]

theorem fatOnly_writeFat (h : Layout s.partition) (hx : x < s.partition.boot.sectorsPerFat)
    (buffer : Buffer) : FatOnly s (s.writeFat buffer x) := by
  have hp := h.primaryFat_eq
  have hs := h.secondaryFat_eq
  have hf := h.fits
  refine ⟨rfl, rfl, rfl, rfl, ?_, ?_, ?_⟩
  · intro a ha
    rw [writeFat_disk h hx, if_neg (by omega), if_neg (by omega)]
  · intro hm j hj
    change j < 512 * s.partition.boot.sectorsPerFat at hj
    change (s.writeFat buffer x).disk (512 * s.partition.secondaryFat + j) =
      (s.writeFat buffer x).disk (512 * s.partition.primaryFat + j)
    have hmj := hm j hj
    by_cases hin : 512 * x ≤ j ∧ j < 512 * x + 512
    · rw [writeFat_disk h hx, writeFat_disk h hx, if_pos (by omega), if_neg (by omega),
        if_pos (by omega)]
      congr 1
      omega
    · rw [writeFat_disk h hx, writeFat_disk h hx, if_neg (by omega), if_neg (by omega),
        if_neg (by omega), if_neg (by omega), hmj]
  · have h1 : u32 (s.partition.primaryFat + x) = s.partition.primaryFat + x :=
      Nat.mod_eq_of_lt (by omega)
    have h2 : u32 (s.partition.secondaryFat + x) = s.partition.secondaryFat + x :=
      Nat.mod_eq_of_lt (by omega)
    refine ⟨[⟨s.partition.primaryFat + x, 1, .fat⟩,
      ⟨s.partition.secondaryFat + x, 1, .fat⟩], ?_, ?_⟩
    · simp [State.writeFat, State.write, h1, h2]
    · simp only [List.mem_cons, List.not_mem_nil, or_false]
      rintro w (rfl | rfl)
      · exact ⟨rfl, by dsimp only; omega, by dsimp only; omega⟩
      · exact ⟨rfl, by dsimp only; omega, by dsimp only; omega⟩

theorem fat_writeFat (h : Layout s.partition) (hx : x < s.partition.boot.sectorsPerFat) {c : ℕ}
    (hc : c < s.partition.fatEntries) : (s.writeFat buffer x).fat c =
      if c / 128 = x then getLE buffer (4 * (c % 128)) 4 else s.fat c := by
  have hs := h.secondaryFat_eq
  rw [Partition.fatEntries] at hc
  change getLE (s.writeFat buffer x).disk (512 * s.partition.primaryFat + 4 * c) 4 = _
  split_ifs with hcx
  · apply getLE_congr
    intro i hi
    rw [writeFat_disk h hx, if_neg (by omega), if_pos (by omega)]
    congr 1
    omega
  · apply getLE_congr
    intro i hi
    rw [writeFat_disk h hx, if_neg (by omega), if_neg (by omega)]

theorem getLE_readFat (h : Layout s.partition) (hx : x < s.partition.boot.sectorsPerFat) {j : ℕ}
    (hj : j < 128) :
    getLE (s.read (u32 (s.partition.primaryFat + x)) 1) (4 * j) 4 = s.fat (128 * x + j) := by
  have hf := h.fits
  have hp := h.primaryFat_eq
  have h1 : u32 (s.partition.primaryFat + x) = s.partition.primaryFat + x :=
    Nat.mod_eq_of_lt (by omega)
  rw [State.read, getLE_window (by omega), h1, State.fat]
  congr 1
  omega

end DevOs.Fat32
