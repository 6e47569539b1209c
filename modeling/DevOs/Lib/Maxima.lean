import Mathlib.Algebra.Order.Ring.Nat
import Mathlib.Order.SetNotation
import Mathlib.Data.Set.Lattice

/-!
# Elements of largest positive value

`Largest S f c` says that `c` names an element of `S` whose value under `f` is positive and largest,
or nothing when no element has a positive value. `value f c` is the value of what is named, `0` for
nothing. A new element replaces the choice when its value is greater, and the largest of several
choices is the choice for the union.
-/

namespace DevOs.Maxima

variable {α ι : Type*} {S T : Set α} {f g : α → ℕ} {c : Option α} {x : α}

def value (f : α → ℕ) (c : Option α) : ℕ := c.elim 0 f

@[simp]
theorem value_none : value f none = 0 := rfl

@[simp]
theorem value_some : value f (some x) = f x := rfl

structure Largest (S : Set α) (f : α → ℕ) (c : Option α) : Prop where
  mem : ∀ x, c = some x → x ∈ S
  pos : ∀ x, c = some x → 0 < f x
  le : ∀ y ∈ S, f y ≤ value f c

theorem largest_none (h : ∀ y ∈ S, f y = 0) : Largest S f none :=
  ⟨fun _ hc => (Option.some_ne_none _ hc.symm).elim,
    fun _ hc => (Option.some_ne_none _ hc.symm).elim, fun y hy => (h y hy).le⟩

theorem largest_some (hx : x ∈ S) (hpos : 0 < f x) (hle : ∀ y ∈ S, f y ≤ f x) :
    Largest S f (some x) :=
  ⟨fun _ hc => Option.some.inj hc ▸ hx, fun _ hc => Option.some.inj hc ▸ hpos, hle⟩

theorem Largest.congr (h : Largest S f c) (hST : ∀ y, y ∈ T ↔ y ∈ S) (hfg : ∀ y ∈ S, g y = f y) :
    Largest T g c := by
  cases c with
  | none =>
    refine largest_none fun y hy => ?_
    rw [hfg y ((hST y).mp hy)]
    exact Nat.le_zero.mp (h.le y ((hST y).mp hy))
  | some x =>
    have hx := h.mem x rfl
    refine largest_some ((hST x).mpr hx) ?_ fun y hy => ?_
    · rw [hfg x hx]
      exact h.pos x rfl
    · rw [hfg y ((hST y).mp hy), hfg x hx]
      exact h.le y ((hST y).mp hy)

theorem Largest.insert_of_lt (h : Largest S f c) (hlt : value f c < f x) :
    Largest (insert x S) f (some x) := by
  refine largest_some (Set.mem_insert x S) (Nat.lt_of_le_of_lt (Nat.zero_le _) hlt) fun y hy => ?_
  rcases hy with rfl | hy
  · exact Nat.le_refl _
  · exact Nat.le_trans (h.le y hy) (Nat.le_of_lt hlt)

theorem Largest.insert_of_le (h : Largest S f c) (hle : f x ≤ value f c) :
    Largest (insert x S) f c := by
  refine ⟨fun y hy => Set.mem_insert_of_mem x (h.mem y hy), h.pos, fun y hy => ?_⟩
  rcases hy with rfl | hy
  · exact hle
  · exact h.le y hy

theorem Largest.value_le (h : Largest S f c) {d : Option α} (hT : Largest T f d) (hTS : T ⊆ S) :
    value f d ≤ value f c := by
  cases d with
  | none => exact Nat.zero_le _
  | some y => exact h.le y (hTS (hT.mem y rfl))

/-- The choice of one of several sets is the choice of their union when no other has a greater
value. -/
theorem largest_iUnion {J : Set ι} {U : ι → Set α} {d : ι → Option α} {i : ι}
    (h : ∀ j ∈ J, Largest (U j) f (d j)) (hi : i ∈ J)
    (hmax : ∀ j ∈ J, value f (d j) ≤ value f (d i)) :
    Largest (⋃ j ∈ J, U j) f (d i) := by
  refine ⟨fun x hx => ?_, (h i hi).pos, fun y hy => ?_⟩
  · exact Set.mem_biUnion hi ((h i hi).mem x hx)
  · obtain ⟨j, hj, hy⟩ := Set.mem_iUnion₂.mp hy
    exact Nat.le_trans ((h j hj).le y hy) (hmax j hj)

end DevOs.Maxima
