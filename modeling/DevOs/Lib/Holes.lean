import Mathlib.Algebra.Order.Ring.Nat
import Mathlib.Tactic.Common

/-!
# Searching for a hole

Positions are free or not, and `n` free positions in a row are wanted, from the position `s` on. A
search that has come to a position knows how many positions before it are free in a row, and that
there is no hole so far. It advances by blocks that are free or occupied as a whole.
-/

namespace DevOs.Holes

variable {free : ℕ → Prop} {s n p f b v : ℕ}

/-- The `n` positions from `v` on are free. -/
def FreeRun (free : ℕ → Prop) (v n : ℕ) : Prop := ∀ q, v ≤ q → q < v + n → free q

/-- The first position from `s` on with `n` free positions. -/
structure First (free : ℕ → Prop) (s n v : ℕ) : Prop where
  le : s ≤ v
  run : FreeRun free v n
  least : ∀ w, s ≤ w → w < v → ¬ FreeRun free w n

/-- The search has come to `p`, and the last `f` positions are free. -/
structure Hole (free : ℕ → Prop) (s n p f : ℕ) : Prop where
  le : s + f ≤ p
  run : FreeRun free (p - f) f
  start : p - f = s ∨ ¬ free (p - f - 1)
  none : ∀ v, s ≤ v → v + n ≤ p → ¬ FreeRun free v n

theorem Hole.init (free : ℕ → Prop) (s : ℕ) (hn : 0 < n) : Hole free s n s 0 :=
  ⟨Nat.le_refl s, fun q _ hq => by omega, Or.inl (Nat.sub_zero s), fun v hv hle => by omega⟩

theorem Hole.skip (h : Hole free s n p f) (hn : 0 < n) (hb : 0 < b)
    (hocc : ∀ q, p ≤ q → q < p + b → ¬ free q) : Hole free s n (p + b) 0 := by
  have hle := h.le
  refine ⟨by omega, fun q _ hq => by
    omega, Or.inr (hocc _ (by omega) (by omega)), fun v hv hvn hrun => ?_⟩
  by_cases hbefore : v + n ≤ p
  · exact h.none v hv hbefore hrun
  · exact hocc (v + n - 1) (by omega) (by omega) (hrun _ (by omega) (by omega))

theorem Hole.none_before (h : Hole free s n p f) (hv : s ≤ v) (hlt : v < p - f) :
    ¬ FreeRun free v n := by
  intro hrun
  by_cases hbefore : v + n ≤ p
  · exact h.none v hv hbefore hrun
  · rcases h.start with hs | hs
    · omega
    · exact hs (hrun _ (by omega) (by omega))

theorem Hole.run_append (h : Hole free s n p f) (hfree : ∀ q, p ≤ q → q < p + b → free q) :
    FreeRun free (p - f) (f + b) := by
  have hle := h.le
  intro q hq hlt
  by_cases hqp : q < p
  · exact h.run q hq (by omega)
  · exact hfree q (by omega) (by omega)

theorem Hole.extend (h : Hole free s n p f) (hfree : ∀ q, p ≤ q → q < p + b → free q)
    (hlt : f + b < n) :
    Hole free s n (p + b) (f + b) := by
  have hle := h.le
  have hsub : p + b - (f + b) = p - f := by omega
  refine ⟨by omega, ?_, ?_, fun v hv hvn => h.none_before hv (by omega)⟩
  · rw [hsub]
    exact h.run_append hfree
  · rw [hsub]
    exact h.start

theorem Hole.fit (h : Hole free s n p f) (hfree : ∀ q, p ≤ q → q < p + b → free q)
    (hle : n ≤ f + b) :
    First free s n (p - f) := by
  have hsp := h.le
  exact ⟨by
    omega, fun q hq hlt => h.run_append hfree q hq (by omega), fun v hv hlt => h.none_before hv hlt⟩

end DevOs.Holes
