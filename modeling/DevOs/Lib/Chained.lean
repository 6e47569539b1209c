import Mathlib.Data.List.Basic
import Mathlib.Logic.Function.Basic
import Mathlib.Algebra.Order.Ring.Nat
import Mathlib.Tactic.Common

/-!
# Chains of lists of entries

A chain has lists of `n` entries each, of which the first one is always there. The entry `k` is the
entry `k % n` of the list `k / n`. An entry is free or used. A new one takes the first free entry,
and when there is none, the first entry of a new list at the end. What a chain says to the outside
is the used entry at each place.
-/

namespace DevOs.Chained

structure Chain (α : Type*) where
  lists : ℕ
  entry : ℕ → α

namespace Chain

variable {α : Type*}

def InChain (n : ℕ) (c : Chain α) (k : ℕ) : Prop := k < c.lists * n

instance (n : ℕ) (c : Chain α) (k : ℕ) : Decidable (c.InChain n k) :=
  inferInstanceAs (Decidable (_ < _))

def firstFree (n : ℕ) (free : α → Bool) (c : Chain α) : Option ℕ :=
  (List.range (c.lists * n)).find? fun k => free (c.entry k)

/-- A new list at the end, all of whose entries are `zero`. -/
def grow (n : ℕ) (zero : α) (c : Chain α) : Chain α where
  lists := c.lists + 1
  entry := fun k => if c.lists * n ≤ k ∧ k < (c.lists + 1) * n then zero else c.entry k

def place (n : ℕ) (free : α → Bool) (zero : α) (c : Chain α) : Chain α × ℕ :=
  match c.firstFree n free with
  | some k => (c, k)
  | none => (c.grow n zero, c.lists * n)

def set (c : Chain α) (k : ℕ) (x : α) : Chain α := { c with entry := Function.update c.entry k x }

def used (n : ℕ) (free : α → Bool) (c : Chain α) (k : ℕ) : Option α :=
  if c.InChain n k ∧ free (c.entry k) = false then some (c.entry k) else none

/-- One list whose entries are all `zero`. -/
def initial (zero : α) : Chain α := ⟨1, fun _ => zero⟩

variable {n k j : ℕ} {free : α → Bool} {zero x y : α} {c : Chain α}

theorem used_eq_some :
    c.used n free k = some x ↔ c.InChain n k ∧ free (c.entry k) = false ∧ c.entry k = x := by
  rw [used]
  by_cases h : c.InChain n k ∧ free (c.entry k) = false
  · rw [if_pos h]
    exact ⟨fun hx => ⟨h.1, h.2, Option.some.inj hx⟩, fun hx => congrArg some hx.2.2⟩
  · rw [if_neg h]
    exact ⟨fun hx => absurd hx (Option.some_ne_none x).symm, fun hx => absurd ⟨hx.1, hx.2.1⟩ h⟩

theorem used_eq_none : c.used n free k = none ↔ ¬(c.InChain n k ∧ free (c.entry k) = false) := by
  rw [used]
  exact ite_eq_right_iff.trans
    ⟨fun h hx => absurd (h hx) (Option.some_ne_none _), fun h hx => absurd hx h⟩

theorem used_initial (h : free zero = true) : (initial zero).used n free k = none := by
  rw [used_eq_none]
  rintro ⟨-, hfree⟩
  rw [show (initial zero).entry k = zero from rfl, h] at hfree
  cases hfree

theorem firstFree_eq_some (h : c.firstFree n free = some k) :
    c.InChain n k ∧ free (c.entry k) = true := by
  have hmem := List.mem_of_find?_eq_some h
  exact ⟨List.mem_range.mp hmem, by simpa using List.find?_some h⟩

theorem firstFree_eq_none (h : c.firstFree n free = none) (hk : c.InChain n k) :
    free (c.entry k) = false := by
  have hall := List.find?_eq_none.mp h k (List.mem_range.mpr hk)
  simpa using hall

theorem place_inChain (hn : 0 < n) : (c.place n free zero).1.InChain n (c.place n free zero).2 := by
  rw [place]
  cases h : c.firstFree n free with
  | some k => exact (firstFree_eq_some h).1
  | none =>
    change c.lists * n < (c.lists + 1) * n
    rw [Nat.add_mul]
    omega

theorem place_unused : c.used n free (c.place n free zero).2 = none := by
  rw [used_eq_none, place]
  cases h : c.firstFree n free with
  | some k =>
    rintro ⟨-, hfree⟩
    rw [(firstFree_eq_some h).2] at hfree
    cases hfree
  | none => exact fun hk => absurd hk.1 (Nat.lt_irrefl _)

theorem used_of_lt_place (hj : j < (c.place n free zero).2) : c.used n free j ≠ none := by
  rw [Ne, used_eq_none, not_not]
  rw [place] at hj
  cases h : c.firstFree n free with
  | some k =>
    rw [h] at hj
    have hlt : j < k := hj
    have hk : k < c.lists * n := (firstFree_eq_some h).1
    have hj' := (List.find?_range_eq_some.mp h).2.2 j hlt
    rw [Bool.not_eq_true'] at hj'
    exact ⟨lt_trans hlt hk, hj'⟩
  | none =>
    rw [h] at hj
    exact ⟨hj, firstFree_eq_none h hj⟩

theorem place_eq_of_used {m : ℕ} (h : ∀ j, c.used n free j ≠ none ↔ j < m) :
    (c.place n free zero).2 = m := by
  refine le_antisymm (Nat.le_of_not_lt fun hlt => ?_) (Nat.le_of_not_lt fun hlt => ?_)
  · exact lt_irrefl m ((h m).mp (used_of_lt_place hlt))
  · exact (h _).mpr hlt place_unused

theorem place_used (hzero : free zero = true) (j : ℕ) :
    (c.place n free zero).1.used n free j = c.used n free j := by
  rw [place]
  cases h : c.firstFree n free with
  | some k => rfl
  | none =>
    dsimp only
    have hentry : (c.grow n zero).entry j =
        if c.lists * n ≤ j ∧ j < (c.lists + 1) * n then zero else c.entry j := rfl
    by_cases hj : c.InChain n j
    · have hlt : j < c.lists * n := hj
      have hlt' : (c.grow n zero).InChain n j := by
        change j < (c.lists + 1) * n
        rw [Nat.add_mul]
        omega
      rw [used, used, hentry, if_neg (show ¬(c.lists * n ≤ j ∧ j < (c.lists + 1) * n) by omega)]
      exact if_congr (and_congr_left fun _ => iff_of_true hlt' hj) rfl rfl
    · rw [used_eq_none.mpr fun h => hj h.1, used_eq_none]
      rintro ⟨hlt, hfree⟩
      rw [hentry, if_pos ⟨Nat.not_lt.mp hj, hlt⟩, hzero] at hfree
      cases hfree

theorem place_lists_pos (h : 0 < c.lists) : 0 < (c.place n free zero).1.lists := by
  rw [place]
  cases c.firstFree n free with
  | some k => exact h
  | none => exact Nat.succ_pos _

theorem used_set (hk : c.InChain n k) (hx : free x = false) (j : ℕ) :
    (c.set k x).used n free j = if j = k then some x else c.used n free j := by
  by_cases hj : j = k
  · rw [if_pos hj, hj, used_eq_some]
    have hentry : (c.set k x).entry k = x := Function.update_self _ _ _
    rw [hentry]
    exact ⟨hk, hx, rfl⟩
  · rw [if_neg hj, used, used,
      show (c.set k x).entry j = c.entry j from Function.update_of_ne hj _ _]
    rfl

theorem used_clear (hx : free x = true) (j : ℕ) :
    (c.set k x).used n free j = if j = k then none else c.used n free j := by
  by_cases hj : j = k
  · rw [if_pos hj, hj, used_eq_none]
    rintro ⟨-, hfree⟩
    rw [show (c.set k x).entry k = x from Function.update_self _ _ _, hx] at hfree
    cases hfree
  · rw [if_neg hj, used, used,
      show (c.set k x).entry j = c.entry j from Function.update_of_ne hj _ _]
    rfl

/-- What is not used is `zero`. -/
def Clean (n : ℕ) (free : α → Bool) (zero : α) (c : Chain α) : Prop :=
  ∀ k, c.used n free k = none → c.entry k = zero

theorem clean_initial : (initial zero).Clean n free zero := fun _ _ => rfl

theorem Clean.place (hc : c.Clean n free zero) (hzero : free zero = true) :
    (c.place n free zero).1.Clean n free zero := by
  intro j hj
  rw [place_used hzero] at hj
  rw [Chain.place]
  cases h : c.firstFree n free with
  | some k => exact hc j hj
  | none => exact ite_eq_left_iff.mpr fun _ => hc j hj

theorem Clean.set (hc : c.Clean n free zero) (hk : c.InChain n k) (hx : free x = false) :
    (c.set k x).Clean n free zero := by
  intro j hj
  rw [used_set hk hx] at hj
  by_cases hjk : j = k
  · rw [if_pos hjk] at hj
    cases hj
  · rw [if_neg hjk] at hj
    exact (Function.update_of_ne hjk _ _).trans (hc j hj)

theorem Clean.clear (hc : c.Clean n free zero) (hzero : free zero = true) :
    (c.set k zero).Clean n free zero := by
  intro j hj
  rw [used_clear hzero] at hj
  by_cases hjk : j = k
  · rw [hjk]
    exact Function.update_self _ _ _
  · rw [if_neg hjk] at hj
    exact (Function.update_of_ne hjk _ _).trans (hc j hj)

end Chain

end DevOs.Chained
