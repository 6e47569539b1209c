import Mathlib.Algebra.Order.Ring.Nat
import Mathlib.Tactic.Common

/-!
# Pieces laid over each other

A piece gives values to the places from its start on. Pieces are laid over a function one after the
other, and at each place the last one that covers it is seen. What lies under the pieces is seen
only where no piece covers the place.
-/

namespace DevOs.Overlays

structure Piece (α : Type*) where
  start : ℕ
  length : ℕ
  value : ℕ → α

variable {α : Type*}

def Piece.Covers (p : Piece α) (i : ℕ) : Prop := p.start ≤ i ∧ i < p.start + p.length

instance (p : Piece α) (i : ℕ) : Decidable (p.Covers i) := inferInstanceAs (Decidable (_ ∧ _))

def lay (f : ℕ → α) (p : Piece α) :
    ℕ → α := fun i => if p.Covers i then p.value (i - p.start) else f i

def top : List (Piece α) → ℕ → Option α
  | [], _ => none
  | p :: l, i => (top l i).or (if p.Covers i then some (p.value (i - p.start)) else none)

variable {f : ℕ → α} {p : Piece α} {l : List (Piece α)} {i : ℕ} {v : α}

theorem lay_eq (f : ℕ → α) (p : Piece α) (i : ℕ) :
    lay f p i = (if p.Covers i then some (p.value (i - p.start)) else none).getD (f i) := by
  rw [lay]
  split
  · rfl
  · rfl

theorem foldl_lay (f : ℕ → α) (l : List (Piece α)) (i : ℕ) :
    l.foldl lay f i = (top l i).getD (f i) := by
  induction l generalizing f with
  | nil => rfl
  | cons p l ih =>
    rw [List.foldl_cons, ih, lay_eq, top]
    cases top l i with
    | none => rw [Option.none_or, Option.getD_none]
    | some w => rfl

/-- A value is seen whatever lies under the pieces exactly when a piece has it on top. -/
theorem forall_foldl_lay_iff [Nontrivial α] : (∀ f, l.foldl lay f i = v) ↔ top l i = some v := by
  constructor
  · intro h
    obtain ⟨w, hw⟩ := exists_ne v
    have hunder := h fun _ => w
    rw [foldl_lay] at hunder
    cases ht : top l i with
    | none =>
      rw [ht] at hunder
      exact absurd hunder hw
    | some u =>
      rw [ht] at hunder
      exact congrArg some hunder
  · intro h f
    rw [foldl_lay, h]
    rfl

end DevOs.Overlays
