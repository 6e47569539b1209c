import DevOs.Disks.Resolve
import DevOs.Kernel.Numbers

/-!
# Reading decimal numbers

`to_stringu64` prints a value without a sign, and `utoi` reads digits of 16 bits. The factor of a
digit comes from `powi`, which squares where it should multiply and counts from one: the last digit
has the factor zero, the digit before it the factor one, and from the eighth one on all the factors
are zero again. So only the hundreds below a thousand read back to the value.
-/

namespace DevOs.Kernel

open Numerals Disks

/-- `to_stringu64`. The loops are those of `itoa`, for a value that has no sign. -/
def toStringu64 (value : BitVec 64) (c : Cells 8) : Cells 8 :=
  let size := decimalSize value.toNat
  let (c, value, index) := writeDecimal 0 size 0 value.toNat c
  let c := Function.update c (size - index) (decimalChar (value.tmod 10))
  Function.update c (size + 1) 0

/-- `_str[i] - L'0'`, an `int` that is extended to 64 bits. -/
def digitDifference (x : BitVec 16) : ℕ := (BitVec.ofInt 64 ((x.toNat : ℤ) - 0x30)).toNat

/-- The body of the loop of `utoi`, on `pw` and `ret`. -/
def utoiStep (str : Cells 16) (s : ℕ × ℕ) (i : ℕ) : ℕ × ℕ :=
  ((s.1 + (2 ^ 16 - 1)) % 2 ^ 16, (s.2 + digitDifference (str i) * powi 10 s.1) % 2 ^ 64)

/-- `utoi`. What is first assigned to `ret` is not used. -/
def utoi (str : Cells 16) (len : BitVec 8) : ℕ :=
  ((List.range len.toNat).foldl (utoiStep str) ((len.toNat + (2 ^ 16 - 1)) % 2 ^ 16, 0)).2

/-- The digits that are printed, whatever is in the buffer, read back to the value. -/
def ReadsBack (v : BitVec 64) : Prop :=
  ∀ c : Cells 8, ∃ s, HasString (toStringu64 v c) 0 s ∧
    utoi (fun i => (toStringu64 v c i).setWidth 16) (BitVec.ofNat 8 s.length) = v.toNat

variable {w n k : ℕ}

theorem toStringu64_hasString (v : BitVec 64) (c : Cells 8) :
    HasString (toStringu64 v c) 0 (numeral 10 v.toNat) := by
  have hsize := decimalSize_eq v.toNat
  obtain ⟨hdigits, -⟩ :=
    decimalCells_spec (p := 0) v.toNat (Nat.log 10 v.toNat) 0 c (Nat.zero_add _).symm
  have hcells : toStringu64 v c =
      Function.update (decimalCells 0 (Nat.log 10 v.toNat) 0 v.toNat c)
      (Nat.log 10 v.toNat + 1) 0 := by
    simp only [toStringu64, hsize, decimalCells, Nat.zero_add]
  rw [hcells]
  refine hasString_numeral (by decide) (by decide) (by decide) (fun j hj => ?_) ?_
  · rw [Function.update_of_ne (by omega), ← hdigits j hj, Nat.zero_add j]
  · rw [Nat.zero_add, Function.update_self]

/-- From six squarings on nothing is left of the number. The exponent zero stands for 65535 of
them. -/
theorem powi_ten_eq_zero (h : 6 ≤ (k + (2 ^ 16 - 1)) % 2 ^ 16) : powi 10 k = 0 := by
  rw [powi]
  generalize (k + (2 ^ 16 - 1)) % 2 ^ 16 = m at h
  obtain ⟨i, rfl⟩ : ∃ i, m = i + 1 := ⟨m - 1, by omega⟩
  have hdvd : 2 ^ 64 ∣ 10 ^ 2 ^ (i + 1) := by
    have hpow : 2 ^ 6 ≤ 2 ^ (i + 1) := Nat.pow_le_pow_right (by decide) h
    exact (show 2 ^ 64 ∣ 10 ^ 2 ^ 6 by decide).trans (Nat.pow_dvd_pow 10 hpow)
  have hmod := iterate_square 10 (i + 1)
  rw [Nat.mod_eq_zero_of_dvd hdvd, Function.iterate_succ_apply', Nat.mod_mod] at hmod
  simp only [if_neg (Nat.succ_ne_zero i), Function.iterate_succ_apply', hmod]

theorem powi_ten_zero : powi 10 0 = 0 := powi_ten_eq_zero (by decide)

theorem powi_ten_iff (hk : k < 20) : powi 10 k = 10 ^ k % 2 ^ 64 ↔ k = 2 := by
  have hall : ∀ k < 20, k ≠ 0 → (powi 10 k = 10 ^ k % 2 ^ 64 ↔ k = 2) := by decide
  by_cases h0 : k = 0
  · rw [h0, powi_ten_zero]
    decide
  · exact hall k hk h0

theorem digitDifference_digitChar {d : ℕ} (h : d < 10) :
    digitDifference (BitVec.ofNat 16 (digitChar d)) = d := by
  have hall : ∀ d < 10, digitDifference (BitVec.ofNat 16 (digitChar d)) = d := by decide
  exact hall d h

/-- After `i` characters of `n` the next factor is that of the exponent `n - i - 1`, and the sum is
that of the characters so far. -/
theorem utoi_loop (str : Cells 16) (hn : n < 2 ^ 16) (hk : k ≤ n) :
    (List.range k).foldl (utoiStep str) ((n + (2 ^ 16 - 1)) % 2 ^ 16, 0) =
      ((n - k + (2 ^ 16 - 1)) % 2 ^ 16,
      (∑ i ∈ Finset.range k, digitDifference (str i) * powi 10 (n - 1 - i)) % 2 ^ 64) := by
  induction k with
  | zero => rfl
  | succ k ih =>
    have hpow : (n - k + (2 ^ 16 - 1)) % 2 ^ 16 = n - 1 - k := by omega
    have hnext : (n - 1 - k + (2 ^ 16 - 1)) % 2 ^ 16 = (n - (k + 1) + (2 ^ 16 - 1)) % 2 ^ 16 := by
      rw [Nat.sub_sub, Nat.add_comm 1 k]
    rw [List.range_succ, List.foldl_append, ih (by omega), List.foldl_cons, List.foldl_nil,
      utoiStep, hpow, Finset.sum_range_succ, hnext, Nat.mod_add_mod]

/-- What `utoi` counts the digits of a value for. -/
def weightedDigits (n : ℕ) : ℕ :=
  n / 10 % 10 + n / 10 ^ 2 % 10 * 10 ^ 2 + n / 10 ^ 3 % 10 * 10 ^ 4 + n / 10 ^ 4 % 10 * 10 ^ 8 +
    n / 10 ^ 5 % 10 * 10 ^ 16 + n / 10 ^ 6 % 10 * (10 ^ 32 % 2 ^ 64)

/-- Behind the seventh digit from the end the factors are zero, and in front of the first one the
digits. -/
theorem sum_powi (hn : n < 10 ^ k) (hk : k ≤ 20) :
    ∑ j ∈ Finset.range k, n / 10 ^ j % 10 * powi 10 j = weightedDigits n := by
  have hseven : ∑ j ∈ Finset.range 7, n / 10 ^ j % 10 * powi 10 j = weightedDigits n := by
    have h2 : powi 10 2 = 10 ^ 2 := by decide
    have h3 : powi 10 3 = 10 ^ 4 := by decide
    have h4 : powi 10 4 = 10 ^ 8 := by decide
    have h5 : powi 10 5 = 10 ^ 16 := by decide
    have h6 : powi 10 6 = 10 ^ 32 % 2 ^ 64 := by decide
    have h1 : powi 10 1 = 1 := rfl
    simp only [Finset.sum_range_succ, Finset.sum_range_zero, powi_ten_zero, h1, h2, h3, h4, h5, h6,
      weightedDigits, Nat.pow_one, Nat.mul_zero, Nat.mul_one, Nat.zero_add]
  rw [← hseven]
  rcases Nat.le_total k 7 with h7 | h7
  · refine Finset.sum_subset (Finset.range_subset_range.mpr h7) fun j _ hj => ?_
    have hle : 10 ^ k ≤ 10 ^ j :=
      Nat.pow_le_pow_right (by decide) (Nat.le_of_not_lt (mt Finset.mem_range.mpr hj))
    rw [Nat.div_eq_of_lt (by omega), Nat.zero_mod, Nat.zero_mul]
  · refine (Finset.sum_subset (Finset.range_subset_range.mpr h7) fun j hlt hj => ?_).symm
    have hge := mt Finset.mem_range.mpr hj
    have hlt' := Finset.mem_range.mp hlt
    rw [powi_ten_eq_zero (by omega), Nat.mul_zero]

theorem utoi_toStringu64 (v : BitVec 64) (c : Cells 8) :
    utoi (fun i => (toStringu64 v c i).setWidth 16) (BitVec.ofNat 8 (numeral 10 v.toNat).length) =
      weightedDigits v.toNat % 2 ^ 64 := by
  have hs := toStringu64_hasString v c
  have hlen := numeral_length (by decide : 1 < 10) v.toNat
  have hlog : Nat.log 10 v.toNat < 20 :=
    Nat.log_lt_of_lt_pow' (by decide) (by have := v.isLt; omega)
  have hcount : (BitVec.ofNat 8 (numeral 10 v.toNat).length).toNat = Nat.log 10 v.toNat + 1 := by
    rw [BitVec.toNat_ofNat, hlen]
    omega
  have hterm : ∀ i ∈ Finset.range (Nat.log 10 v.toNat + 1),
      digitDifference ((toStringu64 v c i).setWidth 16) * powi 10 (Nat.log 10 v.toNat + 1 - 1 - i) =
        v.toNat / 10 ^ (Nat.log 10 v.toNat + 1 - 1 - i) % 10 * powi 10
        (Nat.log 10 v.toNat + 1 - 1 - i) := by
    intro i hi
    have hlt := Finset.mem_range.mp hi
    have hchar := hs.chars i (by omega)
    rw [Nat.zero_add, numeral_getElem (by decide)] at hchar
    rw [← BitVec.ofNat_toNat, hchar, digitDifference_digitChar (Nat.mod_lt _ (by decide)),
      Nat.add_sub_cancel]
  have hsum := sum_powi (Nat.lt_pow_succ_log_self (by decide) v.toNat) (Nat.succ_le_of_lt hlog)
  rw [utoi, hcount, utoi_loop _ (by omega) le_rfl, Finset.sum_congr rfl hterm,
    Finset.sum_range_reflect fun k => v.toNat / 10 ^ k % 10 * powi 10 k, hsum]

def highPart (d₅ d₆ : ℕ) : ℕ := (d₅ * 10 ^ 16 + d₆ * (10 ^ 32 % 2 ^ 64)) % 2 ^ 64

theorem highPart_lt (h₅ : n < 10) (h₆ : k < 10) : highPart n k + 900090909 < 2 ^ 64 := by
  have hall : ∀ k < 10, ∀ n < 10, highPart n k + 900090909 < 2 ^ 64 := by decide
  exact hall k h₆ n h₅

/-- Except for two zeros, what the digits add does not have them at their places, whatever carry
comes from the lower ones, or the digit at the place 2 does not fit. -/
theorem highPart_not_right (h₅ : n < 10) (h₆ : k < 10) (h : ¬(n = 0 ∧ k = 0)) :
    highPart n k % 10 ^ 7 / 10 ^ 5 ≠ 10 * k + n ∧
        (highPart n k % 10 ^ 7 + 90909) / 10 ^ 5 % 100 ≠ 10 * k + n ∨
      1 ≤ highPart n k / 100 % 10 ∧ highPart n k / 100 % 10 ≤ 8 := by
  have hall : ∀ k < 10, ∀ n < 10, ¬(n = 0 ∧ k = 0) → highPart n k % 10 ^ 7 / 10 ^ 5 ≠ 10 * k + n ∧
        (highPart n k % 10 ^ 7 + 90909) / 10 ^ 5 % 100 ≠ 10 * k + n ∨
      1 ≤ highPart n k / 100 % 10 ∧ highPart n k / 100 % 10 ≤ 8 := by
    decide
  exact hall k h₆ n h₅ h

/-- The digits at the places 5 and 6 of a sum, when less than `10 ^ 5` is added. -/
theorem add_div_mod {y t : ℕ} (ht : t ≤ 90909) : (y + t) % 10 ^ 7 / 10 ^ 5 = y % 10 ^ 7 / 10 ^ 5 ∨
    (y + t) % 10 ^ 7 / 10 ^ 5 = (y % 10 ^ 7 + 90909) / 10 ^ 5 % 100 := by
  have hmod : (y + t) % 10 ^ 7 = (y % 10 ^ 7 + t) % 10 ^ 7 := (Nat.mod_add_mod ..).symm
  have hlt : y % 10 ^ 7 < 10 ^ 7 := Nat.mod_lt _ (by decide)
  rw [hmod]
  generalize y % 10 ^ 7 = l at hlt
  rcases Nat.lt_or_ge (l + t) (10 ^ 7) with h | h
  · rw [Nat.mod_eq_of_lt h]
    omega
  · have hsub : (l + t) % 10 ^ 7 = l + t - 10 ^ 7 := by omega
    rw [hsub]
    omega

/-- The digit at the place 2 of a sum, when it is the digit that is added there. -/
theorem digit_of_add {y d₁ d₂ : ℕ} (h₁ : d₁ < 10) (h : (y + d₁ + 100 * d₂) / 100 % 10 = d₂) :
    y / 100 % 10 = 0 ∨ y / 100 % 10 = 9 := by
  have hdiv : (y + d₁ + 100 * d₂) / 100 = (y + d₁) / 100 + d₂ :=
    Nat.add_mul_div_left _ _ (by decide)
  have hcarry : (y + d₁) / 100 = y / 100 ∨ (y + d₁) / 100 = y / 100 + 1 := by omega
  rw [hdiv] at h
  generalize (y + d₁) / 100 = a at h hcarry
  generalize y / 100 = b at hcarry
  omega

/-- A value with another digit than zero at one of the places 5 and 6 is not the sum. -/
theorem sum_ne_of_high {y d₁ d₂ d₃ d₄ d₅ d₆ : ℕ} (h₁ : d₁ < 10) (h₂ : d₂ < 10) (h₃ : d₃ < 10)
    (hdigit : n / 10 ^ 2 % 10 = d₂) (hplaces : n % 10 ^ 7 / 10 ^ 5 = 10 * d₆ + d₅)
    (hright : y % 10 ^ 7 / 10 ^ 5 ≠ 10 * d₆ + d₅ ∧
      (y % 10 ^ 7 + 90909) / 10 ^ 5 % 100 ≠ 10 * d₆ + d₅ ∨
      1 ≤ y / 100 % 10 ∧ y / 100 % 10 ≤ 8) :
    n ≠ d₁ + d₂ * 10 ^ 2 + d₃ * 10 ^ 4 + d₄ * 10 ^ 8 + y := by
  intro hn
  rcases hright with ⟨hlow, hhigh⟩ | ⟨hpos, hle⟩
  · have hmod : n % 10 ^ 7 = (y + (d₁ + d₂ * 10 ^ 2 + d₃ * 10 ^ 4)) % 10 ^ 7 := by
      rw [hn, ← Nat.add_mul_mod_self_left (y + (d₁ + d₂ * 10 ^ 2 + d₃ * 10 ^ 4)) (10 ^ 7) (10 * d₄)]
      congr 1
      ring
    have ht : d₁ + d₂ * 10 ^ 2 + d₃ * 10 ^ 4 ≤ 90909 := by omega
    rw [hmod] at hplaces
    rcases add_div_mod (y := y) ht with h | h
    · exact hlow (h ▸ hplaces)
    · exact hhigh (h ▸ hplaces)
  · have hsum : (y + d₁ + 100 * d₂) / 100 % 10 = d₂ := by
      have hdiv : n / 10 ^ 2 = (y + d₁ + 100 * d₂) / 100 + 10 * (10 * d₃ + 10 ^ 5 * d₄) := by
        rw [hn, ← Nat.add_mul_div_left _ _ (by decide : 0 < 100)]
        congr 1
        ring
      rw [hdiv, Nat.add_mul_mod_self_left] at hdigit
      exact hdigit
    rcases digit_of_add h₁ hsum with h | h
    · omega
    · omega

/-- Without them it is the sum when it is a number of hundreds below a thousand. -/
theorem sum_eq_of_low {d₁ d₂ d₃ d₄ : ℕ} (h₁ : n / 10 % 10 = d₁) (h₂ : n / 10 ^ 2 % 10 = d₂)
    (h₃ : n / 10 ^ 3 % 10 = d₃) (h₄ : n / 10 ^ 4 % 10 = d₄) :
    n = d₁ + d₂ * 10 ^ 2 + d₃ * 10 ^ 4 + d₄ * 10 ^ 8 ↔ n % 100 = 0 ∧ n < 1000 := by
  have hlt₁ : d₁ < 10 := h₁ ▸ Nat.mod_lt _ (by decide)
  have hlt₂ : d₂ < 10 := h₂ ▸ Nat.mod_lt _ (by decide)
  have hlt₃ : d₃ < 10 := h₃ ▸ Nat.mod_lt _ (by decide)
  constructor
  · intro hn
    have hzero₁ : d₁ = 0 := by
      have hdiv : n / 10 = 10 * (d₂ + 100 * d₃ + 10 ^ 6 * d₄) := by omega
      omega
    have hzero₃ : d₃ = 0 := by
      have hdiv : n / 10 ^ 3 = 10 * (d₃ + 10 ^ 4 * d₄) := by omega
      omega
    have hzero₄ : d₄ = 0 := by
      have hdiv : n / 10 ^ 4 = 10 * (10 ^ 3 * d₄) := by omega
      omega
    omega
  · rintro ⟨hmod, hlt⟩
    omega

theorem places_eq (n : ℕ) : n % 10 ^ 7 / 10 ^ 5 = 10 * (n / 10 ^ 6 % 10) + n / 10 ^ 5 % 10 := by
    omega

theorem weightedDigits_mod (n : ℕ) : weightedDigits n % 2 ^ 64 =
    n / 10 % 10 + n / 10 ^ 2 % 10 * 10 ^ 2 + n / 10 ^ 3 % 10 * 10 ^ 4 + n / 10 ^ 4 % 10 * 10 ^ 8 +
      highPart (n / 10 ^ 5 % 10) (n / 10 ^ 6 % 10) := by
  have h₁ : n / 10 % 10 < 10 := Nat.mod_lt _ (by decide)
  have h₂ : n / 10 ^ 2 % 10 < 10 := Nat.mod_lt _ (by decide)
  have h₃ : n / 10 ^ 3 % 10 < 10 := Nat.mod_lt _ (by decide)
  have h₄ : n / 10 ^ 4 % 10 < 10 := Nat.mod_lt _ (by decide)
  have hhigh := highPart_lt (Nat.mod_lt (n / 10 ^ 5) (by decide))
    (Nat.mod_lt (n / 10 ^ 6) (by decide))
  rw [weightedDigits, Nat.add_assoc _ (_ * 10 ^ 16), ← Nat.add_mod_mod, ← highPart]
  generalize n / 10 % 10 = d₁ at h₁
  generalize n / 10 ^ 2 % 10 = d₂ at h₂
  generalize n / 10 ^ 3 % 10 = d₃ at h₃
  generalize n / 10 ^ 4 % 10 = d₄ at h₄
  exact Nat.mod_eq_of_lt (by omega)

theorem weightedDigits_eq_iff (n : ℕ) : weightedDigits n % 2 ^ 64 = n ↔ n % 100 = 0 ∧ n < 1000 := by
  rw [weightedDigits_mod, eq_comm]
  by_cases h : n / 10 ^ 5 % 10 = 0 ∧ n / 10 ^ 6 % 10 = 0
  · have hzero : highPart 0 0 = 0 := rfl
    rw [h.1, h.2, hzero, Nat.add_zero]
    exact sum_eq_of_low rfl rfl rfl rfl
  · have hright :=
      highPart_not_right (Nat.mod_lt (n / 10 ^ 5) (by decide))
        (Nat.mod_lt (n / 10 ^ 6) (by decide)) h
    refine iff_of_false (sum_ne_of_high (Nat.mod_lt _ (by decide)) (Nat.mod_lt _ (by decide))
      (Nat.mod_lt _ (by decide)) rfl (places_eq n) hright) ?_
    rintro ⟨-, hlt⟩
    exact h ⟨by rw [Nat.div_eq_of_lt (by omega)], by rw [Nat.div_eq_of_lt (by omega)]⟩

theorem readsBack_iff_weighted (v : BitVec 64) :
    ReadsBack v ↔ weightedDigits v.toNat % 2 ^ 64 = v.toNat := by
  constructor
  · intro h
    obtain ⟨s, hs, hv⟩ := h fun _ => 0
    rw [hs.unique (toStringu64_hasString v _), utoi_toStringu64] at hv
    exact hv
  · intro h c
    exact ⟨_, toStringu64_hasString v c, (utoi_toStringu64 v c).trans h⟩

theorem one_not_read_back : ¬ReadsBack 1 := by
  rw [readsBack_iff_weighted]
  decide

/-- The values that read back are the hundreds below a thousand, and of the exponents below 20 only
two gives the power of ten. -/
theorem utoi_right_iff (v : BitVec 64) : (ReadsBack v ↔ v.toNat % 100 = 0 ∧ v.toNat < 1000) ∧
    ∀ k < 20, powi 10 k = 10 ^ k % 2 ^ 64 ↔ k = 2 :=
  ⟨(readsBack_iff_weighted v).trans (weightedDigits_eq_iff v.toNat), fun _ hk => powi_ten_iff hk⟩

end DevOs.Kernel
