import Mathlib.Algebra.Order.Ring.Nat
import Mathlib.Tactic.Common

/-!
# Machine words as sets of bits

Bit scans of a word and the loop that visits the clear bits of a word in ascending order, setting
each one it visits in a copy of the word. The loop has one rule: what holds before it and is kept by
its body at every clear bit holds after it.
-/

namespace DevOs.Words

variable {w : ℕ}

def bitScanForward (b : BitVec w) : Option ℕ := (List.range w).find? (fun i => b.getLsbD i)

def bitScanReverse (b : BitVec w) : Option ℕ := (List.range w).reverse.find? (fun i => b.getLsbD i)

/-- The word with the bit `i` set. -/
def bitTestAndSet (b : BitVec w) (i : ℕ) : BitVec w := b ||| BitVec.twoPow w i

@[simp]
theorem getLsbD_bitTestAndSet (b : BitVec w) (i j : ℕ) :
    (bitTestAndSet b i).getLsbD j = (b.getLsbD j || (decide (j < w) && decide (j = i))) := by
  rw [bitTestAndSet, BitVec.getLsbD_or, BitVec.getLsbD_twoPow]
  by_cases hj : j = i
  · subst hj
    simp
  · simp [hj, Ne.symm hj]

theorem bitScanForward_some {b : BitVec w} {i : ℕ} (h : bitScanForward b = some i) :
    i < w ∧ b.getLsbD i = true ∧ ∀ j < i, b.getLsbD j = false := by
  have hi : b.getLsbD i = true := List.find?_some h
  have hlt : i < w := List.mem_range.mp (List.mem_of_find?_eq_some h)
  refine ⟨hlt, hi, fun j hj => ?_⟩
  rw [bitScanForward, List.find?_range_eq_some] at h
  simpa using h.2.2 j hj

theorem bitScanForward_none {b : BitVec w} (h : bitScanForward b = none) (i : ℕ) :
    b.getLsbD i = false := by
  by_cases hi : i < w
  · rw [bitScanForward, List.find?_eq_none] at h
    simpa using h i (List.mem_range.mpr hi)
  · exact BitVec.getLsbD_of_ge b i (by omega)

theorem bitScanReverse_top {b : BitVec (w + 1)} (h : b.getLsbD w = true) :
    bitScanReverse b = some w := by
  rw [bitScanReverse, List.range_succ, List.reverse_append, List.reverse_singleton,
    List.singleton_append, List.find?_cons_of_pos (by exact h)]

/-- The clear bits below the index `k`, in ascending order. -/
def clearBelow (b : BitVec w) (k : ℕ) : List ℕ := (List.range k).filter (fun i => !b.getLsbD i)

theorem mem_clearBelow {b : BitVec w} {k i : ℕ} :
    i ∈ clearBelow b k ↔ i < k ∧ b.getLsbD i = false := by
  simp [clearBelow]

theorem clearBelow_nodup (b : BitVec w) (k : ℕ) : (clearBelow b k).Nodup :=
  List.nodup_range.filter _

theorem clearBelow_succ_clear {b : BitVec w} {k : ℕ} (h : b.getLsbD k = false) :
    clearBelow b (k + 1) = clearBelow b k ++ [k] := by
  simp [clearBelow, List.range_succ, List.filter_append, h]

theorem clearBelow_eq_of_set {b : BitVec w} {k l : ℕ} (hkl : k ≤ l)
    (h : ∀ i, k ≤ i → i < l → b.getLsbD i = true) : clearBelow b l = clearBelow b k := by
  induction hkl with
  | refl => rfl
  | @step l hkl ih =>
    rw [clearBelow, List.range_succ, List.filter_append, ← clearBelow,
      ih (fun i hi hl => h i hi (by omega))]
    simp [h l hkl (Nat.lt_succ_self l)]

theorem clearBelow_of_clear {b : BitVec w} {k : ℕ} (h : ∀ i < k, b.getLsbD i = false) :
    clearBelow b k = List.range k := by
  rw [clearBelow, List.filter_eq_self]
  intro i hi
  simp [h i (List.mem_range.mp hi)]

theorem clearBelow_length_lt {b : BitVec w} {k c : ℕ} (h : c ∈ clearBelow b k) :
    (clearBelow b c).length < (clearBelow b k).length := by
  obtain ⟨hlt, hclear⟩ := mem_clearBelow.mp h
  have hsub : (clearBelow b (c + 1)).length ≤ (clearBelow b k).length :=
    ((List.range_sublist.mpr hlt).filter _).length_le
  rw [clearBelow_succ_clear hclear, List.length_append, List.length_singleton] at hsub
  omega

/-- The clear bits of a word whose bits below `i` are clear, from those of the word with these bits
set. -/
theorem clearBelow_prefix {b c : BitVec w} {i k : ℕ} (hik : i ≤ k)
    (hb : ∀ j < i, b.getLsbD j = false) (hi : i ≤ w)
    (hc : ∀ j < w, c.getLsbD j = (b.getLsbD j || decide (j < i))) (hk : k ≤ w) :
    clearBelow b k = List.range i ++ clearBelow c k := by
  induction hik with
  | refl =>
    have hnil : clearBelow c i = [] := by
      rw [clearBelow, List.filter_eq_nil_iff]
      intro j hj
      have hji := List.mem_range.mp hj
      simp [hc j (by omega), hji]
    rw [clearBelow_of_clear hb, hnil, List.append_nil]
  | @step k hik ih =>
    have hcb : c.getLsbD k = b.getLsbD k := by
      simp [hc k (by omega), Nat.not_lt.mpr hik]
    cases hset : b.getLsbD k with
    | false =>
      rw [clearBelow_succ_clear hset, clearBelow_succ_clear (hcb.trans hset), ih (by omega),
        List.append_assoc]
    | true =>
      have hone (j : ℕ) (h₁ : k ≤ j) (h₂ : j < k + 1) : j = k := by omega
      rw [clearBelow_eq_of_set (Nat.le_succ k) (fun j h₁ h₂ => by rw [hone j h₁ h₂, hset]),
        clearBelow_eq_of_set (Nat.le_succ k) (fun j h₁ h₂ => by rw [hone j h₁ h₂, hcb, hset]),
        ih (by omega)]

variable {σ ρ : Type*}

/-- Visits the clear bits of `b` from the lowest on. The body sees the index and ends the loop with
a result, or goes on with a new state. The fuel bounds the number of visits. -/
def forClear (body : ℕ → σ → ρ ⊕ σ) : ℕ → BitVec w → σ → ρ ⊕ σ
  | 0, _, s => .inr s
  | n + 1, b, s =>
    match bitScanForward (~~~b) with
    | none => .inr s
    | some i =>
      match body i s with
      | .inl r => .inl r
      | .inr s' => forClear body n (bitTestAndSet b i) s'

theorem forClear_rule {f : ℕ → σ → ρ ⊕ σ} {b : BitVec w} {I : ℕ → σ → Prop} {Q : ρ → Prop}
    (hres : ∀ lo i s r, I lo s → lo ≤ i → i < w → (∀ j, lo ≤ j → j < i → b.getLsbD j = true) →
      b.getLsbD i = false → f i s = .inl r → Q r)
    (hinv : ∀ lo i s s', I lo s → lo ≤ i → i < w → (∀ j, lo ≤ j → j < i → b.getLsbD j = true) →
      b.getLsbD i = false → f i s = .inr s' → I (i + 1) s')
    {s : σ} (hs : I 0 s) :
    match forClear f w b s with
    | .inl r => Q r
    | .inr s' => ∃ lo, I lo s' ∧ ∀ j, lo ≤ j → j < w → b.getLsbD j = true := by
  -- below the position reached everything is set in the copy, above it the copy is the word
  have hloop : ∀ n lo (c : BitVec w) s, I lo s → w ≤ lo + n →
      (∀ j < w, c.getLsbD j = (decide (j < lo) || b.getLsbD j)) →
      match forClear f n c s with
      | .inl r => Q r
      | .inr s' => ∃ lo, I lo s' ∧ ∀ j, lo ≤ j → j < w → b.getLsbD j = true := by
    intro n
    induction n with
    | zero =>
      intro lo c s hI hn hc
      exact ⟨lo, hI, fun j hj hw => by omega⟩
    | succ n ih =>
      intro lo c s hI hn hc
      rw [forClear]
      cases hscan : bitScanForward (~~~c) with
      | none =>
        refine ⟨lo, hI, fun j hj hw => ?_⟩
        have hset := bitScanForward_none hscan j
        rw [BitVec.getLsbD_not, hc j hw] at hset
        simpa [hw, Nat.not_lt.mpr hj] using hset
      | some i =>
        obtain ⟨hi, hset, hbelow⟩ := bitScanForward_some hscan
        rw [BitVec.getLsbD_not, hc i hi] at hset
        simp only [hi, decide_true, Bool.true_and, Bool.not_eq_true', Bool.or_eq_false_iff,
          decide_eq_false_iff_not, Nat.not_lt] at hset
        have hbetween (j : ℕ) (hj : lo ≤ j) (hji : j < i) : b.getLsbD j = true := by
          have hb := hbelow j hji
          rw [BitVec.getLsbD_not, hc j (by omega)] at hb
          simpa [Nat.lt_trans hji hi, Nat.not_lt.mpr hj] using hb
        cases hbody : f i s with
        | inl r =>
          simp only [hbody]
          exact hres lo i s r hI hset.1 hi hbetween hset.2 hbody
        | inr s' =>
          simp only [hbody]
          apply ih (i + 1)
          · exact hinv lo i s s' hI hset.1 hi hbetween hset.2 hbody
          · omega
          · intro j hj
            rw [getLsbD_bitTestAndSet, hc j hj]
            by_cases hlt : j < i
            · by_cases hlo : j < lo
              · simp [hlo, Nat.lt_succ_of_lt hlt]
              · simp [hbetween j (by omega) hlt]
            · by_cases he : j = i
              · simp [he, hi]
              · simp [he, show ¬ j < lo by omega, show ¬ j < i + 1 by omega]
  exact hloop w 0 b s hs (by omega) (fun j _ => by simp)

end DevOs.Words
