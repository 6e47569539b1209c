import Mathlib.Algebra.Order.Ring.Nat
import Mathlib.Data.List.TakeWhile
import Mathlib.Tactic.Common

/-!
# The pieces of a list between separators

The pieces are the maximal runs of elements that are not separators, in their order.
-/

namespace DevOs.Pieces

variable {α : Type*} {p : α → Bool} {a l : List α}

def pieces (p : α → Bool) (l : List α) : List (List α) := (l.splitOnP p).filter fun a => !a.isEmpty

@[simp] theorem pieces_nil (p : α → Bool) : pieces p [] = [] := rfl

theorem pieces_append_cons {x : α} (hx : p x = true) (a l : List α) :
    pieces p (a ++ x :: l) = pieces p a ++ pieces p l := by
  rw [pieces, List.splitOnP_append_cons a l hx, List.filter_append]
  rfl

theorem pieces_cons {x : α} (hx : p x = true) (l : List α) : pieces p (x :: l) = pieces p l :=
  pieces_append_cons hx [] l

theorem pieces_run (ha : a ≠ []) (h : ∀ x ∈ a, p x = false) : pieces p a = [a] := by
  have hempty : a.isEmpty = false := by rw [List.isEmpty_eq_false_iff]; exact ha
  rw [pieces, List.splitOnP_eq_singleton h, List.filter_cons, hempty]
  rfl

theorem pieces_dropWhile (p : α → Bool) (l : List α) : pieces p (l.dropWhile p) = pieces p l := by
  induction l with
  | nil => rfl
  | cons x l ih =>
    cases hx : p x with
    | true => rw [List.dropWhile_cons_of_pos hx, pieces_cons hx, ih]
    | false => rw [List.dropWhile_cons_of_neg (by rw [hx]; exact Bool.false_ne_true)]

theorem pieces_takeWhile (h : l.takeWhile (fun x => !p x) ≠ []) :
    pieces p l = l.takeWhile (fun x => !p x) :: pieces p (l.dropWhile fun x => !p x) := by
  have hrun : ∀ x ∈ l.takeWhile (fun x => !p x), p x = false := by
    intro x hx
    simpa using List.mem_takeWhile_imp hx
  cases hrest : l.dropWhile (fun x => !p x) with
  | nil =>
    have hall : l.takeWhile (fun x => !p x) = l := by
      have happend := List.takeWhile_append_dropWhile (p := fun x => !p x) (l := l)
      rwa [hrest, List.append_nil] at happend
    rw [hall] at h hrun ⊢
    rw [pieces_run h hrun, pieces_nil]
  | cons x rest =>
    have hx : p x = true := by
      have hhead := List.head?_dropWhile_not (fun x => !p x) l
      rw [hrest] at hhead
      simpa using hhead
    conv_lhs => rw [← List.takeWhile_append_dropWhile (p := fun x => !p x) (l := l), hrest]
    rw [pieces_append_cons hx, pieces_run h hrun, pieces_cons hx]
    rfl

theorem pieces_eq_nil_iff : pieces p l = [] ↔ l.dropWhile p = [] := by
  rw [← pieces_dropWhile]
  constructor
  · intro h
    by_contra hne
    obtain ⟨x, rest, hl⟩ := List.exists_cons_of_ne_nil hne
    have hx : p x = false := by
      have hhead := List.head?_dropWhile_not p l
      rw [hl] at hhead
      simpa using hhead
    rw [hl, pieces_takeWhile] at h
    · cases h
    · rw [List.takeWhile_cons_of_pos (by rw [hx]; rfl)]
      exact List.cons_ne_nil _ _
  · intro h
    rw [h, pieces_nil]

theorem pieces_ne_nil_iff : pieces p l ≠ [] ↔ ∃ x ∈ l, p x = false := by
  rw [ne_eq, pieces_eq_nil_iff, List.dropWhile_eq_nil_iff]
  simp only [not_forall, Bool.not_eq_true, exists_prop]

theorem pieces_run_cons {x : α} (ha : a ≠ []) (h : ∀ y ∈ a, p y = false) (hx : p x = true)
    (l : List α) :
    pieces p (a ++ x :: l) = a :: pieces p l := by
  rw [pieces_append_cons hx, pieces_run ha h]
  rfl

theorem pieces_intercalate {s : α} (hs : p s = true) {as : List (List α)}
    (h : ∀ a ∈ as, a ≠ [] ∧ ∀ x ∈ a, p x = false) : pieces p ([s].intercalate as) = as := by
  induction as with
  | nil => rfl
  | cons a as ih =>
    obtain ⟨ha, hrun⟩ := h a List.mem_cons_self
    have hrest := ih fun b hb => h b (List.mem_cons_of_mem a hb)
    cases as with
    | nil => rw [List.intercalate_singleton, pieces_run ha hrun]
    | cons b bs =>
      rw [List.intercalate_cons_cons, List.append_assoc, List.singleton_append,
        pieces_run_cons ha hrun hs, hrest]

theorem not_sep_of_mem_splitOnP (ha : a ∈ l.splitOnP p) : ∀ x ∈ a, p x = false := by
  induction l generalizing a with
  | nil =>
    rw [List.splitOnP_nil, List.mem_singleton] at ha
    rw [ha]
    exact fun x hx => absurd hx List.not_mem_nil
  | cons y l ih =>
    rw [List.splitOnP_cons_eq_if_modifyHead] at ha
    split_ifs at ha with hy
    · rcases List.mem_cons.mp ha with rfl | ha
      · exact fun x hx => absurd hx List.not_mem_nil
      · exact ih ha
    · obtain ⟨b, bs, hsplit⟩ := List.exists_cons_of_ne_nil (List.splitOnP_ne_nil p l)
      rw [hsplit] at ha ih
      rcases List.mem_cons.mp ha with rfl | ha
      · intro x hx
        rcases List.mem_cons.mp hx with rfl | hx
        · simpa using hy
        · exact ih List.mem_cons_self x hx
      · exact ih (List.mem_cons_of_mem b ha)

theorem mem_pieces (ha : a ∈ pieces p l) : a ≠ [] ∧ ∀ x ∈ a, p x = false := by
  obtain ⟨hmem, hne⟩ := List.mem_filter.mp ha
  exact ⟨by simpa using hne, not_sep_of_mem_splitOnP hmem⟩

end DevOs.Pieces
