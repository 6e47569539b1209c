import DevOs.Lib.Bytes
import DevOs.Memory.Init

/-!
# The memory map of the firmware

`UefiEntry` asks the firmware for the size of its memory map, adds room for two descriptors, gets
the map, and copies it into the table for the kernel. By then the firmware has replaced the size by
that of the map it returned, and the loop leaves out two descriptors as if the room were still in
it.
-/

namespace DevOs.Memory

open Bytes

/-- The fields of the `EFI_MEMORY_DESCRIPTOR` at an address that the loop copies. `Type` becomes a
byte. -/
def readEfiDescriptor (b : Buffer) (o : ℕ) : MemoryDescriptor where
  type := getLE b o 4 % 2 ^ 8
  pageCount := getLE b (o + 24) 8
  physicalStart := getLE b (o + 8) 8

/-- `MEMORY_MAP`, of which `size` bytes are allocated, and the entries written so far. -/
structure MemoryMap where
  count : ℕ
  memoryDescriptors : ℕ → MemoryDescriptor
  size : ℕ
  written : List ℕ

/-- The table before the loop, for the first size that the firmware gave. Only the beginning is
cleared. -/
def newMemoryMap (firstMapSize descriptorSize : ℕ) (behind : ℕ → MemoryDescriptor) : MemoryMap where
  count := 0
  memoryDescriptors := behind
  size := 0x10000 + 8 * ((firstMapSize + 2 * descriptorSize) / descriptorSize)
  written := []

def copyDescriptor (memoryMap : Buffer) (descriptorSize i : ℕ) (t : MemoryMap) : MemoryMap :=
  { t with
    memoryDescriptors :=
      Function.update t.memoryDescriptors i (readEfiDescriptor memoryMap (i * descriptorSize))
    count := (t.count + 1) % 2 ^ 64
    written := t.written ++ [i] }

/-- The descriptors `i`, `i + 1`, ... -/
def copyDescriptors (memoryMap : Buffer) (descriptorSize : ℕ) : ℕ → ℕ → MemoryMap → MemoryMap
  | 0, _, t => t
  | n + 1, i, t =>
    copyDescriptors memoryMap descriptorSize n (i + 1) (copyDescriptor memoryMap descriptorSize i t)

/-- The loop of `UefiEntry`. Its bound is a `UINTN`. -/
def copyMemoryMap (memoryMap : Buffer) (mapSize descriptorSize : ℕ) (t : MemoryMap) : MemoryMap :=
  copyDescriptors memoryMap descriptorSize ((mapSize / descriptorSize + (2 ^ 64 - 2)) % 2 ^ 64) 0 t

/-- The table has the `n` descriptors of the firmware, and nothing is written behind its end. -/
structure MemoryMap.Complete (memoryMap : Buffer) (descriptorSize n : ℕ) (t : MemoryMap) :
    Prop where
  count : t.count = n
  entries : ∀ i < n, t.memoryDescriptors i = readEfiDescriptor memoryMap (i * descriptorSize)
  within : ∀ i ∈ t.written, 8 + 24 * (i + 1) ≤ t.size

section Copy

variable {memoryMap : Buffer} {descriptorSize n i j : ℕ} {t : MemoryMap}

theorem copyDescriptors_count (h : t.count < 2 ^ 64) :
    (copyDescriptors memoryMap descriptorSize n i t).count = (t.count + n) % 2 ^ 64 := by
  induction n generalizing i t with
  | zero => exact (Nat.mod_eq_of_lt h).symm
  | succ n ih =>
    rw [copyDescriptors, ih (Nat.mod_lt _ (by decide)), copyDescriptor]
    dsimp only
    rw [Nat.mod_add_mod, Nat.add_assoc, Nat.add_comm 1 n]

theorem copyDescriptors_of_lt (h : j < i) :
    (copyDescriptors memoryMap descriptorSize n i t).memoryDescriptors j =
      t.memoryDescriptors j := by
  induction n generalizing i t with
  | zero => rfl
  | succ n ih =>
    rw [copyDescriptors, ih (by omega), copyDescriptor]
    exact Function.update_of_ne (by omega) _ _

theorem copyDescriptors_entry (h : i ≤ j) (hj : j < i + n) :
    (copyDescriptors memoryMap descriptorSize n i t).memoryDescriptors j =
      readEfiDescriptor memoryMap (j * descriptorSize) := by
  induction n generalizing i t with
  | zero => omega
  | succ n ih =>
    rw [copyDescriptors]
    rcases Nat.eq_or_lt_of_le h with rfl | hlt
    · rw [copyDescriptors_of_lt (Nat.lt_succ_self i), copyDescriptor]
      exact Function.update_self _ _ _
    · exact ih hlt (by omega)

theorem copyMemoryMap_eq (hd : 0 < descriptorSize) (hn : 2 ≤ n) (hlt : n < 2 ^ 64)
    (ht : t.count = 0) :
    (copyMemoryMap memoryMap (n * descriptorSize) descriptorSize t).count = n - 2 ∧
      ∀ i < n - 2, (copyMemoryMap memoryMap
        (n * descriptorSize) descriptorSize t).memoryDescriptors i =
        readEfiDescriptor memoryMap (i * descriptorSize) := by
  have hbound : (n * descriptorSize / descriptorSize + (2 ^ 64 - 2)) % 2 ^ 64 = n - 2 := by
    rw [Nat.mul_div_cancel _ hd]
    omega
  rw [copyMemoryMap, hbound]
  refine ⟨?_, fun i hi => copyDescriptors_entry (Nat.zero_le i) (by omega)⟩
  rw [copyDescriptors_count (by omega), ht, Nat.zero_add, Nat.mod_eq_of_lt (by omega)]

end Copy

/-- The map never reaches the kernel complete. -/
theorem copyMemoryMap_incomplete (memoryMap : Buffer) (firstMapSize descriptorSize n : ℕ)
    (behind : ℕ → MemoryDescriptor) (hd : 0 < descriptorSize) :
    ¬(copyMemoryMap memoryMap (n * descriptorSize) descriptorSize
      (newMemoryMap firstMapSize descriptorSize behind)).Complete memoryMap descriptorSize n := by
  intro h
  have hcount := h.count
  rw [copyMemoryMap, Nat.mul_div_cancel _ hd, copyDescriptors_count (Nat.two_pow_pos 64)] at hcount
  change (0 + (n + (2 ^ 64 - 2)) % 2 ^ 64) % 2 ^ 64 = n at hcount
  omega

/-- Three descriptors of forty bytes, of which the first size still had two. -/
theorem copyMemoryMap_incomplete_three :
    ¬(copyMemoryMap (fun _ => 7) (3 * 40) 40 (newMemoryMap 80 40 fun _ => ⟨0, 0, 0⟩)).Complete
      (fun _ => 7) 40 3 :=
  copyMemoryMap_incomplete _ 80 40 3 _ (by decide)

/-- The kernel gets the first one of them. -/
theorem copyMemoryMap_three :
    (copyMemoryMap (fun _ => 7) (3 * 40) 40 (newMemoryMap 80 40 fun _ => ⟨0, 0, 0⟩)).count = 1 ∧
      ¬(copyMemoryMap (fun _ => 7) (3 * 40) 40 (newMemoryMap 80 40 fun _ => ⟨0, 0, 0⟩)).Complete
        (fun _ => 7) 40 3 := by
  have hcount : (copyMemoryMap (fun _ => 7) (3 * 40) 40
      (newMemoryMap 80 40 fun _ => ⟨0, 0, 0⟩)).count = 1 := by
    decide
  refine ⟨hcount, fun h => ?_⟩
  rw [h.count] at hcount
  exact absurd hcount (by decide)

end DevOs.Memory
