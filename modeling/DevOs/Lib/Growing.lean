import Mathlib.Data.List.Basic
import Mathlib.Algebra.Order.Ring.Nat
import Mathlib.Tactic.Common

/-!
# Tables that grow

A table is a chain of blocks of the same size. A search goes over the blocks in turn and takes the
first free place, and when there is none it adds a block. In a table from which nothing is ever
taken away the places in use are the first ones, so that the search finds the next place.
-/

namespace DevOs.Growing

variable {free : ℕ → Bool} {block blocks n : ℕ}

def place (free : ℕ → Bool) (block blocks : ℕ) : ℕ × ℕ :=
  match (List.range (block * blocks)).find? free with
  | some i => (i, blocks)
  | none => (block * blocks, blocks + 1)

theorem find?_range_first {m : ℕ} (hn : n < m) (h : ∀ i, free i = decide (n ≤ i)) :
    (List.range m).find? free = some n := by
  rw [List.find?_range_eq_some]
  refine ⟨?_, List.mem_range.mpr hn, ?_⟩
  · rw [h]
    exact decide_eq_true (Nat.le_refl n)
  · intro j hj
    rw [h, Bool.not_eq_true', decide_eq_false_iff_not]
    exact Nat.not_le.mpr hj

/-- When the first `n` places are in use, the place `n` is taken, and it is inside the table
afterwards. -/
theorem place_first (hblock : 0 < block) (hn : n ≤ block * blocks)
    (h : ∀ i, free i = decide (n ≤ i)) :
    (place free block blocks).1 = n ∧ n + 1 ≤ block * (place free block blocks).2 := by
  unfold place
  rcases Nat.lt_or_eq_of_le hn with hlt | rfl
  · rw [find?_range_first hlt h]
    exact ⟨rfl, hlt⟩
  · have hnone : (List.range (block * blocks)).find? free = none := by
      rw [List.find?_eq_none]
      intro i hi
      rw [h, decide_eq_true_eq]
      exact Nat.not_le.mpr (List.mem_range.mp hi)
    rw [hnone]
    refine ⟨rfl, ?_⟩
    rw [Nat.mul_succ]
    exact Nat.add_le_add_left hblock _

end DevOs.Growing
