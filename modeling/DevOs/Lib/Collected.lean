import DevOs.Lib.Loops
import Mathlib.Data.List.Nodup

/-!
# The first items that match

A loop stores the items that it finds until there is no room left. What it has stored is known from
the list of the items, and so it is for a loop over such loops. A search is over at the first item.
-/

namespace DevOs.Collected

open Loops

variable {α β : Type*}

/-- The items that are stored, and the room for more. -/
structure Collection (α : Type*) where
  stored : List α
  left : ℕ
deriving DecidableEq, Repr

namespace Collection

def add (c : Collection α) (l : List α) : Collection α :=
  ⟨c.stored ++ l.take c.left, c.left - l.length⟩

variable {c : Collection α} {l l' : List α}

@[simp]
theorem add_nil (c : Collection α) : c.add [] = c := by
  rw [add, List.take_nil, List.append_nil, List.length_nil, Nat.sub_zero]

theorem add_add (c : Collection α) (l l' : List α) : (c.add l).add l' = c.add (l ++ l') := by
  rw [add, add, add, List.take_append, List.append_assoc, List.length_append, Nat.sub_sub]

theorem add_full (h : c.left = 0) (l : List α) : c.add l = c := by
  rw [add, h, List.take_zero, List.append_nil, Nat.zero_sub, ← h]

theorem left_add (c : Collection α) (l : List α) : (c.add l).left = c.left - l.length := rfl

theorem stored_add (c : Collection α) (l : List α) : (c.add l).stored = c.stored ++ l.take c.left :=
  rfl

end Collection

/-- The run stores the items of the list, and returns only when there is no room left. -/
def Collects (run : Collection α → Collection α × Bool) (l : List α) : Prop :=
  ∀ c, (run c).1 = c.add l ∧ ((run c).2 = true → (run c).1.left = 0)

theorem Collects.forEach {body : β → Collection α → Collection α × Bool} {f : β → List α}
    {xs : List β} (h : ∀ x ∈ xs, Collects (body x) (f x)) :
    Collects (forEach body xs) (xs.flatMap f) := by
  induction xs with
  | nil => exact fun c => ⟨c.add_nil.symm, fun h => absurd h Bool.false_ne_true⟩
  | cons x xs ih =>
    intro c
    obtain ⟨hfirst, hreturn⟩ := h x List.mem_cons_self c
    obtain ⟨hrest, hreturn'⟩ := ih (fun y hy => h y (List.mem_cons_of_mem x hy)) (body x c).1
    rw [Loops.forEach, List.flatMap_cons, ← Collection.add_add, ← hfirst]
    by_cases hx : (body x c).2 = true
    · rw [if_pos hx]
      exact ⟨(Collection.add_full (hreturn hx) _).symm, hreturn⟩
    · rw [if_neg hx]
      exact ⟨hrest, hreturn'⟩

theorem Collects.guard {run : Collection α → Collection α × Bool} {l : List α}
    (h : ∀ c, c.left ≠ 0 → (run c).1 = c.add l ∧ ((run c).2 = true → (run c).1.left = 0)) :
    Collects (fun c => if c.left = 0 then (c, true) else run c) l := by
  intro c
  dsimp only
  by_cases hc : c.left = 0
  · rw [if_pos hc]
    exact ⟨(Collection.add_full hc l).symm, fun _ => hc⟩
  · rw [if_neg hc]
    exact h c hc

def Finds (run : Option α → Option α × Bool) (l : List α) : Prop :=
  run none = (l.head?, l.head?.isSome)

theorem Finds.forEach {body : β → Option α → Option α × Bool} {f : β → List α} {xs : List β}
    (h : ∀ x ∈ xs, Finds (body x) (f x)) : Finds (forEach body xs) (xs.flatMap f) := by
  induction xs with
  | nil => rfl
  | cons x xs ih =>
    have hfirst : body x none = _ := h x List.mem_cons_self
    have hrest := ih fun y hy => h y (List.mem_cons_of_mem x hy)
    rw [Finds, Loops.forEach, List.flatMap_cons, hfirst]
    cases hx : f x with
    | nil => exact hrest
    | cons y ys => rfl

theorem filter_map_eq_flatMap (p : β → Bool) (g : α → β) (l : List α) :
    (l.map g).filter p = l.flatMap fun x => if p (g x) then [g x] else [] := by
  induction l with
  | nil => rfl
  | cons x l ih =>
    rw [List.map_cons, List.filter_cons, ih, List.flatMap_cons]
    split_ifs
    · rfl
    · rfl

theorem nodup_flatMap {f : β → List α} (key : α → β) {xs : List β} (hxs : xs.Nodup)
    (hf : ∀ x ∈ xs, (f x).Nodup) (hkey : ∀ x ∈ xs, ∀ y ∈ f x, key y = x) :
    (xs.flatMap f).Nodup := by
  refine List.nodup_flatMap.mpr ⟨hf, hxs.imp_of_mem fun {x x'} hx hx' hne y hy hy' => hne ?_⟩
  rw [← hkey x hx y hy, ← hkey x' hx' y hy']

end DevOs.Collected
