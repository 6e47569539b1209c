import Mathlib.Data.List.FinRange
import Mathlib.Data.List.OfFn
import Mathlib.Algebra.Order.Ring.Nat
import Mathlib.Tactic.Common

/-!
# Tables of slots

A table of `n` slots is a function `Fin n → Option α` whose empty slots are `none`. Its `contents`
are the entries in the order of the slots: a new entry in an empty slot adds itself to them, and a
slot that is cleared takes its entry away.
-/

namespace DevOs.Slots

variable {α : Type*} {n : ℕ} {f : Fin n → Option α} {i : Fin n} {x : α}

def contents (f : Fin n → Option α) : List α := (List.ofFn f).filterMap id

def firstFree (f : Fin n → Option α) : Option (Fin n) :=
  (List.finRange n).find? fun i => (f i).isNone

theorem contents_eq (f : Fin n → Option α) : contents f = (List.finRange n).filterMap f := by
  rw [contents, List.ofFn_eq_map, List.filterMap_map]
  rfl

theorem mem_contents : x ∈ contents f ↔ ∃ i, f i = some x := by
  rw [contents_eq, List.mem_filterMap]
  constructor
  · rintro ⟨i, _, hi⟩
    exact ⟨i, hi⟩
  · rintro ⟨i, hi⟩
    exact ⟨i, List.mem_finRange i, hi⟩

theorem length_contents_le (f : Fin n → Option α) : (contents f).length ≤ n := by
  have h := List.length_filterMap_le id (List.ofFn f)
  rwa [List.length_ofFn] at h

theorem contents_none : contents (fun _ : Fin n => (none : Option α)) = [] := by
  rw [contents_eq, List.filterMap_eq_nil_iff]
  exact fun _ _ => rfl

theorem firstFree_eq_some (h : firstFree f = some i) : f i = none := by
  have hi := List.find?_some h
  exact Option.isNone_iff_eq_none.mp hi

theorem firstFree_before (h : firstFree f = some i) {j : Fin n} (hj : j < i) : f j ≠ none := by
  obtain ⟨-, k, hk, hki, hbefore⟩ := List.find?_eq_some_iff_getElem.mp h
  rw [List.getElem_finRange] at hki
  have hlt : j.val < k := by
    subst hki
    exact hj
  have htaken := hbefore j.val hlt
  rw [List.getElem_finRange] at htaken
  intro hfree
  rw [Fin.cast_mk, Fin.eta, hfree] at htaken
  cases htaken

theorem firstFree_eq_none (h : firstFree f = none) (i : Fin n) : f i ≠ none := by
  intro hi
  have := List.find?_eq_none.mp h i (List.mem_finRange i)
  rw [hi] at this
  exact this rfl

theorem exists_firstFree (h : (contents f).length < n) : ∃ i, firstFree f = some i := by
  cases hfree : firstFree f with
  | some i => exact ⟨i, rfl⟩
  | none =>
    have hfull : ((List.finRange n).filterMap f).length = (List.finRange n).length := by
      rw [List.filterMap_length_eq_length]
      exact fun i _ => Option.isSome_iff_ne_none.mpr (firstFree_eq_none hfree i)
    rw [← contents_eq, List.length_finRange] at hfull
    omega

theorem firstFree_of_full (h : n ≤ (contents f).length) : firstFree f = none := by
  have hfull : ((List.finRange n).filterMap f).length = (List.finRange n).length := by
    rw [← contents_eq, List.length_finRange]
    exact Nat.le_antisymm (length_contents_le f) h
  cases hfree : firstFree f with
  | none => rfl
  | some i =>
    have hi := List.filterMap_length_eq_length.mp hfull i (List.mem_finRange i)
    rw [firstFree_eq_some hfree] at hi
    cases hi

/-- The slots other than `i` contribute the same before and after a change of the slot `i`. -/
theorem filterMap_erase_update (f : Fin n → Option α) (i : Fin n) (y : Option α) :
    ((List.finRange n).erase i).filterMap (Function.update f i y) =
      ((List.finRange n).erase i).filterMap f := by
  refine List.filterMap_congr fun j hj => ?_
  have hne : j ≠ i := ((List.nodup_finRange n).mem_erase_iff.mp hj).1
  exact Function.update_of_ne hne y f

theorem contents_perm (f : Fin n → Option α) (i : Fin n) :
    (contents f).Perm ((f i).toList ++ ((List.finRange n).erase i).filterMap f) := by
  have h := (List.perm_cons_erase (List.mem_finRange i)).filterMap f
  rw [contents_eq]
  cases hi : f i with
  | none =>
    rw [List.filterMap_cons_none hi] at h
    exact h
  | some x =>
    rw [List.filterMap_cons_some hi] at h
    exact h

theorem contents_put (h : f i = none) (x : α) :
    (contents (Function.update f i (some x))).Perm (x :: contents f) := by
  have hnew := contents_perm (Function.update f i (some x)) i
  have hold := contents_perm f i
  rw [Function.update_self, filterMap_erase_update] at hnew
  rw [h] at hold
  exact hnew.trans (hold.symm.cons x)

theorem contents_clear (h : f i = some x) :
    (contents f).Perm (x :: contents (Function.update f i none)) := by
  have hnew := contents_perm (Function.update f i none) i
  have hold := contents_perm f i
  rw [Function.update_self, filterMap_erase_update] at hnew
  rw [h] at hold
  exact hold.trans (hnew.symm.cons x)

def leading : List (Option α) → List α
  | some a :: l => a :: leading l
  | _ => []

/-- The slot of an entry in front of the first empty one, whose predecessors are not empty, too. -/
theorem mem_leading {l : List (Option α)} :
    x ∈ leading l ↔ ∃ k : ℕ, l[k]? = some (some x) ∧ ∀ j < k, ∃ y, l[j]? = some (some y) := by
  induction l with
  | nil =>
    refine ⟨fun h => absurd h List.not_mem_nil, ?_⟩
    rintro ⟨k, hk, -⟩
    cases hk
  | cons o l ih =>
    cases o with
    | none =>
      refine ⟨fun h => absurd h List.not_mem_nil, ?_⟩
      rintro ⟨k, hk, hbefore⟩
      cases k with
      | zero => cases hk
      | succ k =>
        obtain ⟨y, hy⟩ := hbefore 0 (Nat.succ_pos k)
        cases hy
    | some a =>
      rw [leading, List.mem_cons, ih]
      constructor
      · rintro (rfl | ⟨k, hk, hbefore⟩)
        · refine ⟨0, rfl, ?_⟩
          intro j hj
          exact absurd hj (Nat.not_lt_zero j)
        · refine ⟨k + 1, hk, fun j hj => ?_⟩
          cases j with
          | zero => exact ⟨a, rfl⟩
          | succ j => exact hbefore j (Nat.lt_of_succ_lt_succ hj)
      · rintro ⟨k, hk, hbefore⟩
        cases k with
        | zero => exact Or.inl (Option.some.inj (Option.some.inj hk)).symm
        | succ k => exact Or.inr ⟨k, hk, fun j hj => hbefore (j + 1) (Nat.succ_lt_succ hj)⟩

theorem leading_sublist (l : List (Option α)) : (leading l).Sublist (l.filterMap id) := by
  induction l with
  | nil => exact List.Sublist.refl []
  | cons o l ih =>
    cases o with
    | none => exact List.nil_sublist _
    | some a => exact ih.cons_cons a

end DevOs.Slots
