import Mathlib.Algebra.BigOperators.Group.List.Basic
import Mathlib.Data.List.Perm.Basic
import Mathlib.Algebra.Order.Ring.Nat
import Mathlib.Tactic.Common

/-!
# Ranges that tile other ranges

A range is a start and a length. `Tiles whole pieces` says that the pieces are pairwise apart, that
each lies within one of the ranges of `whole`, and that nothing is missing: the lengths have the
same total. A piece may be split in two, an empty one left out, and a new range that is apart from
the old ones added to both sides.
-/

namespace DevOs.Ranges

structure Range where
  start : ℕ
  length : ℕ
deriving DecidableEq, Repr

def Apart (r s : Range) : Prop := r.start + r.length ≤ s.start ∨ s.start + s.length ≤ r.start

instance (r s : Range) : Decidable (Apart r s) := inferInstanceAs (Decidable (_ ∨ _))

def Within (r s : Range) : Prop := s.start ≤ r.start ∧ r.start + r.length ≤ s.start + s.length

def total (l : List Range) : ℕ := (l.map Range.length).sum

structure Tiles (whole pieces : List Range) : Prop where
  apart : pieces.Pairwise Apart
  within : ∀ r ∈ pieces, ∃ s ∈ whole, Within r s
  total : total pieces = total whole

variable {whole pieces l l' : List Range} {r s : Range}

theorem Apart.symm (h : Apart r s) : Apart s r := Or.symm h

theorem total_cons (r : Range) (l : List Range) : total (r :: l) = r.length + total l := by
  rw [total, List.map_cons, List.sum_cons, total]

theorem total_perm (h : l.Perm l') : total l = total l' := (h.map _).sum_eq

theorem total_append (l l' : List Range) : total (l ++ l') = total l + total l' := by
  rw [total, List.map_append, List.sum_append, total, total]

theorem tiles_nil : Tiles [] [] := ⟨List.Pairwise.nil, fun _ h => absurd h List.not_mem_nil, rfl⟩

theorem Tiles.perm (h : Tiles whole l) (hp : l.Perm l') : Tiles whole l' := by
  refine ⟨?_, fun r hr => h.within r (hp.mem_iff.mpr hr), (total_perm hp.symm).trans h.total⟩
  exact h.apart.perm hp fun h => h.symm

theorem Tiles.split {a n k : ℕ} (h : Tiles whole (⟨a, n + k⟩ :: l)) :
    Tiles whole (⟨a, n⟩ :: ⟨a + n, k⟩ :: l) := by
  obtain ⟨hapart, hwithin, htotal⟩ := h
  rw [List.pairwise_cons] at hapart
  obtain ⟨s, hs, hw⟩ := hwithin ⟨a, n + k⟩ List.mem_cons_self
  simp only [Within] at hw
  refine ⟨?_, fun r hr => ?_, ?_⟩
  · rw [List.pairwise_cons, List.pairwise_cons]
    refine ⟨fun r hr => ?_, fun r hr => ?_, hapart.2⟩
    · rcases List.mem_cons.mp hr with rfl | hr
      · exact Or.inl (Nat.le_refl _)
      · have := hapart.1 r hr
        simp only [Apart] at this ⊢
        omega
    · have := hapart.1 r hr
      simp only [Apart] at this ⊢
      omega
  · rcases List.mem_cons.mp hr with rfl | hr
    · exact ⟨s, hs, by simp only [Within]; omega⟩
    · rcases List.mem_cons.mp hr with rfl | hr
      · exact ⟨s, hs, by simp only [Within]; omega⟩
      · exact hwithin r (List.mem_cons_of_mem _ hr)
  · rw [total_cons] at htotal
    rw [total_cons, total_cons]
    simp only at htotal ⊢
    omega

theorem Tiles.leaveEmpty {a : ℕ} (h : Tiles whole (⟨a, 0⟩ :: l)) : Tiles whole l := by
  refine ⟨(List.pairwise_cons.mp h.apart).2, fun r hr => h.within r (List.mem_cons_of_mem _ hr), ?_⟩
  have := h.total
  rw [total_cons] at this
  simp only [Nat.zero_add] at this
  exact this

theorem Tiles.add (h : Tiles whole l) (hr : ∀ s ∈ whole, Apart r s) :
    Tiles (r :: whole) (r :: l) := by
  refine ⟨List.pairwise_cons.mpr ⟨fun s hs => ?_, h.apart⟩, fun s hs => ?_, ?_⟩
  · obtain ⟨v, hv, hw⟩ := h.within s hs
    have := hr v hv
    simp only [Within, Apart] at *
    omega
  · rcases List.mem_cons.mp hs with rfl | hs
    · exact ⟨s, List.mem_cons_self, Nat.le_refl _, Nat.le_refl _⟩
    · obtain ⟨v, hv, hw⟩ := h.within s hs
      exact ⟨v, List.mem_cons_of_mem _ hv, hw⟩
  · rw [total_cons, total_cons, h.total]

end DevOs.Ranges
