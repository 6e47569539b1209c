import DevOs.Heap.Model
import DevOs.Memory.Init

/-!
# The sizes of the bitmap

The bytes of the bitmap, its end and the pages that are mapped for it are computed in two functions,
from the size of the page array. The end that `InitMemoryManagementSubsystem` leaves is a number of
pages added to a byte address.
-/

namespace DevOs.Memory

open Heap (alignValue)

/-- The bytes that `SIMD_InitOptimizedMemoryManagement` maps for the page array. -/
def mappedArray (m : MemoryManagementTable) : ℕ :=
  alignValue m.pageArraySize 0x1000 / 2 ^ 12 * 0x1000

def mappedBitmap (m : MemoryManagementTable) : ℕ :=
  alignValue m.numBytesPageBitmap 0x1000 / 2 ^ 12 * 0x1000

/-- `SIMD_InitOptimizedMemoryManagement`. The array and the bitmap are the same memory at another
address, and pointers into them are offsets here. -/
def simdInitOptimizedMemoryManagement (m : MemoryManagementTable) : MemoryManagementTable :=
  { m with
    freePagesStart := 0
    freePageArrayStart := 0
    bmpEnd := alignValue ((m.pageArraySize + 1) / 2 ^ 3 / 2 ^ 12 + 0x1000) 0x1000 }

/-- The bitmap of the table has a bit for every page of the array, up to its recorded end as well,
and everything up to this end was zeroed. -/
structure BitmapFits (m : MemoryManagementTable) : Prop where
  bytes : m.pageArraySize ≤ 8 * m.numBytesPageBitmap
  covered : m.pageArraySize ≤ 8 * m.bmpEnd
  zeroed : m.bmpEnd ≤ m.numBytesPageBitmap

/-- Both functions leave bounds that fit the page array: what the bounds cover is mapped, and the
allocators only hand out pages of the array. -/
structure BoundsFit (m : MemoryManagementTable) : Prop where
  init : BitmapFits m
  optimized : BitmapFits (simdInitOptimizedMemoryManagement m)
  bitmap : (simdInitOptimizedMemoryManagement m).bmpEnd ≤ mappedBitmap m
  array : 8 * m.pageArraySize ≤ mappedArray m
  pages : ∀ s, Runs.Reaches step Runs.anyStep ⟨m, []⟩ s ∨
      Runs.Reaches step Runs.anyStep ⟨simdInitOptimizedMemoryManagement m, []⟩ s →
    ∀ a ∈ s.grants.flatten, ∃ k < m.pageArraySize, s.table.address k = a

/-- Up to the end that the first function leaves there are fewer bits than pages. -/
theorem bmpEnd_initBitmap {pageArraySize : ℕ} {pageArray memory : ℕ → BitVec 64}
    {allocatedPages : ℕ} (h : 1 ≤ pageArraySize) :
    8 * (initBitmap pageArraySize pageArray memory allocatedPages).bmpEnd < pageArraySize := by
  rw [initBitmap]
  dsimp only
  omega

/-- The bounds fit no page array that has an entry. -/
theorem bounds_never_fit (pageArraySize : ℕ) (pageArray memory : ℕ → BitVec 64) (allocatedPages : ℕ)
    (h : 1 ≤ pageArraySize) :
    ¬ BoundsFit (initBitmap pageArraySize pageArray memory allocatedPages) := by
  intro hfit
  have hend := @bmpEnd_initBitmap pageArraySize pageArray memory allocatedPages h
  exact Nat.not_le.mpr hend hfit.init.covered

theorem bounds_never_fit_one :
    ¬ BoundsFit (initBitmap 1 (fun _ => 0x1000) (fun _ => 0) 0) :=
  bounds_never_fit 1 _ _ 0 (Nat.le_refl 1)

/-- 2 ^ 18 pages, a gigabyte: the end is eight bytes behind the start of a bitmap that needs 2 ^ 15
bytes, and of the 2 ^ 21 bytes of the page array 2 ^ 18 are mapped. -/
theorem gigabyte_bounds :
    (initBitmap (2 ^ 18) (fun _ => 0) (fun _ => 0) 0).bmpEnd = 8 ∧
    mappedArray (initBitmap (2 ^ 18) (fun _ => 0) (fun _ => 0) 0) = 2 ^ 18 ∧
    ¬ BoundsFit (initBitmap (2 ^ 18) (fun _ => 0) (fun _ => 0) 0) := by
  refine ⟨rfl, rfl, fun h => ?_⟩
  exact absurd h.init.covered (by decide)

end DevOs.Memory
