import Mathlib.Algebra.BigOperators.Group.List.Basic
import Mathlib.Algebra.Order.Ring.Nat
import Mathlib.Tactic.Common

/-!
# Consecutive blocks

Blocks of given sizes follow each other from position 0. `locate` finds the block of a position and
the place in it, and there is one exactly below the sum of the sizes.
-/

namespace DevOs.Blocks

/-- The block of the position `n`, and the place in it. -/
def locate : List ℕ → ℕ → Option (ℕ × ℕ)
  | [], _ => none
  | a :: l, n => if n < a then some (0, n) else (locate l (n - a)).map fun p => (p.1 + 1, p.2)

theorem locate_eq_none {l : List ℕ} {n : ℕ} : locate l n = none ↔ l.sum ≤ n := by
  induction l generalizing n with
  | nil => exact ⟨fun _ => Nat.zero_le n, fun _ => rfl⟩
  | cons a l ih =>
    rw [locate, List.sum_cons]
    by_cases h : n < a
    · rw [if_pos h]
      constructor
      · intro hn
        cases hn
      · intro hn
        omega
    · rw [if_neg h, Option.map_eq_none_iff, ih]
      omega

theorem locate_eq_some {l : List ℕ} {n k j : ℕ} :
    locate l n = some (k, j) ↔ ∃ a, l[k]? = some a ∧ j < a ∧ (l.take k).sum + j = n := by
  induction l generalizing n k with
  | nil =>
    constructor
    · intro h
      cases h
    · rintro ⟨a, ha, -⟩
      rw [List.getElem?_nil] at ha
      cases ha
  | cons b l ih =>
    rw [locate]
    by_cases h : n < b
    · rw [if_pos h]
      constructor
      · intro hs
        cases hs
        exact ⟨b, rfl, h, by simp⟩
      · rintro ⟨a, ha, hj, hn⟩
        cases k with
        | zero =>
          rw [List.take_zero, List.sum_nil, Nat.zero_add] at hn
          rw [hn]
        | succ k =>
          rw [List.take_succ_cons, List.sum_cons] at hn
          omega
    · rw [if_neg h, Option.map_eq_some_iff]
      constructor
      · rintro ⟨⟨k', j'⟩, hp, he⟩
        cases he
        obtain ⟨a, ha, hj, hn⟩ := ih.mp hp
        refine ⟨a, ha, hj, ?_⟩
        rw [List.take_succ_cons, List.sum_cons, Nat.add_assoc, hn]
        omega
      · rintro ⟨a, ha, hj, hn⟩
        cases k with
        | zero =>
          rw [List.getElem?_cons_zero] at ha
          cases ha
          rw [List.take_zero, List.sum_nil, Nat.zero_add] at hn
          omega
        | succ k =>
          rw [List.take_succ_cons, List.sum_cons] at hn
          exact ⟨(k, j), ih.mpr ⟨a, ha, hj, by omega⟩, rfl⟩

end DevOs.Blocks
