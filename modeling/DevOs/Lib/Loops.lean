import Mathlib.Algebra.Order.Ring.Nat
import Mathlib.Tactic.Common

/-!
# Counting loops

A loop over a range of numbers whose body goes on with a new state or ends the loop with a result.
It has one rule: the invariant is indexed by the number that comes next. A loop with a counter of
few values is one over a range as long as its bound is not the last of them; otherwise it ends only
where its body returns.
-/

namespace DevOs.Loops

variable {σ ρ : Type*}

/-- Runs the body for `n` numbers from `i` on. -/
def forRange (body : ℕ → σ → ρ ⊕ σ) : ℕ → ℕ → σ → ρ ⊕ σ
  | 0, _, s => .inr s
  | n + 1, i, s =>
    match body i s with
    | .inl r => .inl r
    | .inr s' => forRange body n (i + 1) s'

theorem elim_mono {Q : ρ → Prop} {P P' : σ → Prop} {r : ρ ⊕ σ} (h : Sum.elim Q P r)
    (hp : ∀ s, P s → P' s) :
    Sum.elim Q P' r := by
  cases r with
  | inl r => exact h
  | inr s => exact hp s h

theorem elim_map {Q : ρ → Prop} {P P' : σ → Prop} {g : σ → σ} {r : ρ ⊕ σ} (h : Sum.elim Q P r)
    (hp : ∀ s, P s → P' (g s)) : Sum.elim Q P' (r.map id g) := by
  cases r with
  | inl r => exact h
  | inr s => exact hp s h

theorem forRange_rule (body : ℕ → σ → ρ ⊕ σ) {Q : ρ → Prop} {I : ℕ → σ → Prop} {n i : ℕ} {s : σ}
    (h : ∀ j t, i ≤ j → j < i + n → I j t → Sum.elim Q (I (j + 1)) (body j t)) (hs : I i s) :
    Sum.elim Q (I (i + n)) (forRange body n i s) := by
  induction n generalizing i s with
  | zero => exact hs
  | succ n ih =>
    have hfirst := h i s (Nat.le_refl i) (by omega) hs
    rw [forRange]
    cases hb : body i s with
    | inl r =>
      rw [hb] at hfirst
      exact hfirst
    | inr t =>
      rw [hb] at hfirst
      rw [← Nat.succ_add_eq_add_succ]
      exact ih (fun j t hj hlt => h j t (by omega) (by omega)) hfirst

variable {β : Type*}

/-- Runs the body for the items of a list, until it says that the function returns. -/
def forEach (body : β → σ → σ × Bool) : List β → σ → σ × Bool
  | [], s => (s, false)
  | x :: xs, s => if (body x s).2 then body x s else forEach body xs (body x s).1

def forEach? (body : β → σ → Option (σ × Bool)) : List β → σ → Option (σ × Bool)
  | [], s => some (s, false)
  | x :: xs, s => (body x s).bind fun r => if r.2 then some r else forEach? body xs r.1

/-- Runs the body for a counter below `size`, which comes back to zero, as long as it is at most
`last`. -/
def upTo (body : ℕ → σ → σ × Bool) (size last : ℕ) : ℕ → ℕ → σ → Option (σ × Bool)
  | 0, _, _ => none
  | fuel + 1, i, s =>
    if i ≤ last then
      if (body i s).2 then some (body i s)
        else upTo body size last fuel ((i + 1) % size) (body i s).1
    else some (s, false)

variable {body : ℕ → σ → σ × Bool} {size last i fuel : ℕ} {s : σ} {r : σ × Bool}

theorem upTo_eq_forEach (hlast : last + 1 < size) (n : ℕ) (hi : i + n = last + 1) (fuel : ℕ) :
    upTo body size last (fuel + n + 1) i s = some (forEach body (List.range' i n) s) := by
  induction n generalizing i s with
  | zero => rw [upTo, if_neg (by omega), List.range'_zero, forEach]
  | succ n ih =>
    rw [upTo, if_pos (by omega), List.range'_succ, forEach]
    split_ifs
    · rfl
    · rw [Nat.mod_eq_of_lt (by omega), ← Nat.add_assoc, ih (by omega)]

/-- A loop whose bound is the last value of the counter goes on after it, if it has not returned. -/
theorem upTo_pass (n : ℕ) (hi : i + n = size) (hn : n ≠ 0) (hlast : last + 1 = size) :
    ((forEach body (List.range' i n) s).2 = true → ∀ fuel,
      upTo body size last (fuel + n) i s = some (forEach body (List.range' i n) s)) ∧
    ((forEach body (List.range' i n) s).2 = false → ∀ fuel, upTo body size last (fuel + n) i s =
      upTo body size last fuel 0 (forEach body (List.range' i n) s).1) := by
  induction n generalizing i s with
  | zero => exact absurd rfl hn
  | succ n ih =>
    rw [List.range'_succ, forEach]
    by_cases hbody : (body i s).2 = true
    · rw [if_pos hbody]
      refine ⟨fun _ fuel => ?_, fun h => absurd hbody (by rw [h]; exact Bool.false_ne_true)⟩
      rw [← Nat.add_assoc, upTo, if_pos (by omega), if_pos hbody]
    · rw [if_neg hbody]
      have hstep (fuel : ℕ) : upTo body size last (fuel + (n + 1)) i s =
          upTo body size last (fuel + n) ((i + 1) % size) (body i s).1 := by
        rw [← Nat.add_assoc, upTo, if_pos (by omega), if_neg hbody]
      by_cases hend : n = 0
      · subst hend
        rw [List.range'_zero, forEach]
        refine ⟨fun h => absurd h Bool.false_ne_true, fun _ fuel => ?_⟩
        rw [hstep, hi, Nat.mod_self, Nat.add_zero]
      · have hrest := ih (i := i + 1) (s := (body i s).1) (by omega) hend
        refine ⟨fun h fuel => ?_, fun h fuel => ?_⟩
        · rw [hstep, Nat.mod_eq_of_lt (by omega), hrest.1 h]
        · rw [hstep, Nat.mod_eq_of_lt (by omega), hrest.2 h]

theorem upTo_rule {I Q : σ → Prop} (hlast : last + 1 = size)
    (hbody : ∀ j < size, ∀ t, I t → if (body j t).2 then Q (body j t).1 else I (body j t).1)
    (hi : i < size) (hs : I s) (hr : upTo body size last fuel i s = some r) :
    r.2 = true ∧ Q r.1 := by
  induction fuel generalizing i s with
  | zero => cases hr
  | succ fuel ih =>
    rw [upTo, if_pos (by omega)] at hr
    have hnext := hbody i hi s hs
    split_ifs at hr hnext with hreturn
    · obtain rfl := Option.some.inj hr
      exact ⟨hreturn, hnext⟩
    · exact ih (Nat.mod_lt _ (by omega)) hnext hr

theorem upTo_mono (hr : upTo body size last fuel i s = some r) (d : ℕ) :
    upTo body size last (fuel + d) i s = some r := by
  induction fuel generalizing i s with
  | zero => cases hr
  | succ fuel ih =>
    rw [upTo] at hr
    rw [Nat.succ_add, upTo]
    split_ifs at hr ⊢
    · exact hr
    · exact ih hr
    · exact hr

theorem forEach?_mono {f g : β → σ → Option (σ × Bool)} {xs : List β} {r : σ × Bool} {s : σ}
    (h : ∀ x t r, f x t = some r → g x t = some r) (hr : forEach? f xs s = some r) :
    forEach? g xs s = some r := by
  induction xs generalizing s with
  | nil => exact hr
  | cons x xs ih =>
    rw [forEach?] at hr ⊢
    obtain ⟨t, ht, hrest⟩ := Option.bind_eq_some_iff.mp hr
    rw [h x s t ht, Option.bind_some]
    split_ifs at hrest ⊢
    · exact hrest
    · exact ih hrest

theorem forEach?_append (f : β → σ → Option (σ × Bool)) (xs ys : List β) (s : σ) :
    forEach? f (xs ++ ys) s = (forEach? f xs s).bind fun r => if r.2 then some r
      else forEach? f ys r.1 := by
  induction xs generalizing s with
  | nil => rfl
  | cons x xs ih =>
    rw [List.cons_append, forEach?, forEach?, Option.bind_assoc]
    refine Option.bind_congr fun r _ => ?_
    by_cases hr : r.2 = true
    · rw [if_pos hr, if_pos hr, Option.bind_some, if_pos hr]
    · rw [if_neg hr, if_neg hr, ih]

theorem forEach?_eq {f : β → σ → Option (σ × Bool)} {g : β → σ → σ × Bool} {xs : List β}
    (h : ∀ x ∈ xs, ∀ t, f x t = some (g x t)) (s : σ) :
    forEach? f xs s = some (forEach g xs s) := by
  induction xs generalizing s with
  | nil => rfl
  | cons x xs ih =>
    rw [forEach?, forEach, h x List.mem_cons_self, Option.bind_some]
    split_ifs
    · rfl
    · exact ih (fun y hy => h y (List.mem_cons_of_mem x hy)) _

end DevOs.Loops
