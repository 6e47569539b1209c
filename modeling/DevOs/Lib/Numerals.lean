import Mathlib.Data.Nat.Digits.Lemmas
import Mathlib.Tactic.Common

/-!
# Numerals

The numeral of a number in a base: the characters of its digits, the highest digit first, and a
single zero for the number zero. A string of characters is a numeral when it reads back to its
number and has no superfluous zeros in front. A padded numeral has a fixed number of digits instead.
-/

namespace DevOs.Numerals

def digitChar (d : ℕ) : ℕ := if d < 10 then 0x30 + d else 0x41 + (d - 10)

def digitOf (c : ℕ) : ℕ := if c ≤ 0x39 then c - 0x30 else c - 0x37

/-- The string `s` is a way to write `n`. -/
structure IsNumeral (base : ℕ) (s : List ℕ) (n : ℕ) : Prop where
  digits : ∀ c ∈ s, ∃ d < base, c = digitChar d
  value : Nat.ofDigits base (s.reverse.map digitOf) = n
  nonempty : s ≠ []
  leading : s.head? = some (digitChar 0) → s = [digitChar 0]

def digitsOf (base n : ℕ) : List ℕ := if n = 0 then [0] else Nat.digits base n

def numeral (base n : ℕ) : List ℕ := (digitsOf base n).reverse.map digitChar

/-- The string `s` is a way to write `n` with `k` digits. -/
structure IsPadded (base k : ℕ) (s : List ℕ) (n : ℕ) : Prop where
  length : s.length = k
  digits : ∀ c ∈ s, ∃ d < base, c = digitChar d
  value : Nat.ofDigits base (s.reverse.map digitOf) = n

/-- The `k` lowest digits of a number, the lowest one first. -/
def lowDigits (base k n : ℕ) : List ℕ := (List.range k).map fun i => n / base ^ i % base

def padded (base k n : ℕ) : List ℕ := (lowDigits base k n).reverse.map digitChar

variable {base n : ℕ}

theorem digitOf_digitChar (d : ℕ) : digitOf (digitChar d) = d := by
  rw [digitOf, digitChar]
  split_ifs <;> omega

theorem digitChar_inj {d e : ℕ} (h : digitChar d = digitChar e) : d = e := by
  rw [← digitOf_digitChar d, h, digitOf_digitChar]

theorem digitChar_pos (d : ℕ) : 0 < digitChar d := by
  rw [digitChar]
  split_ifs <;> omega

theorem zero_not_mem_map (l : List ℕ) : 0 ∉ l.map digitChar := by
  intro h0
  obtain ⟨d, -, hd⟩ := List.mem_map.mp h0
  have hpos := digitChar_pos d
  omega

theorem digitsOf_length (hb : 1 < base) (n : ℕ) :
    (digitsOf base n).length = Nat.log base n + 1 := by
  rw [digitsOf]
  split_ifs with h
  · rw [h, Nat.log_zero_right]
    rfl
  · exact Nat.length_digits base n hb h

theorem digitsOf_getElem (hb : 1 < base) {i : ℕ} (hi : i < (digitsOf base n).length) :
    (digitsOf base n)[i] = n / base ^ i % base := by
  have hget : (digitsOf base n).getD i 0 = n / base ^ i % base := by
    rw [digitsOf]
    split_ifs with h
    · rw [h, Nat.zero_div, Nat.zero_mod]
      cases i <;> rfl
    · exact Nat.getD_digits n i hb
  rw [← hget, List.getD_eq_getElem?_getD, List.getElem?_eq_getElem hi, Option.getD_some]

theorem numeral_length (hb : 1 < base) (n : ℕ) : (numeral base n).length = Nat.log base n + 1 := by
  rw [numeral, List.length_map, List.length_reverse, digitsOf_length hb]

theorem numeral_getElem (hb : 1 < base) {i : ℕ} (hi : i < (numeral base n).length) :
    (numeral base n)[i] = digitChar (n / base ^ (Nat.log base n - i) % base) := by
  have hlen := numeral_length hb n
  simp only [numeral, List.getElem_map, List.getElem_reverse]
  rw [digitsOf_getElem hb, digitsOf_length hb]
  congr 4

theorem map_digitOf (l : List ℕ) : (l.reverse.map digitChar).reverse.map digitOf = l := by
  rw [← List.map_reverse, List.reverse_reverse, List.map_map]
  exact (List.map_congr_left fun d _ => digitOf_digitChar d).trans (List.map_id _)

theorem isNumeral_numeral (hb : 1 < base) (n : ℕ) : IsNumeral base (numeral base n) n := by
  have hne : digitsOf base n ≠ [] := by
    intro h
    have hlen := digitsOf_length hb n
    rw [h] at hlen
    cases hlen
  refine ⟨fun c hc => ?_, ?_, ?_, fun hhead => ?_⟩
  · obtain ⟨d, hd, rfl⟩ := List.mem_map.mp hc
    refine ⟨d, ?_, rfl⟩
    rw [List.mem_reverse, digitsOf] at hd
    split_ifs at hd
    · rw [List.mem_singleton.mp hd]
      omega
    · exact Nat.digits_lt_base hb hd
  · rw [numeral, map_digitOf, digitsOf]
    split_ifs with h
    · rw [h]
      rfl
    · exact Nat.ofDigits_digits base n
  · intro h
    rw [numeral, List.map_eq_nil_iff, List.reverse_eq_nil_iff] at h
    exact hne h
  · -- the first character is the highest digit, which is zero only for the number zero
    rw [numeral, List.head?_map, List.head?_reverse, List.getLast?_eq_some_getLast hne,
      Option.map_some, Option.some.injEq] at hhead
    have hlast := digitChar_inj hhead
    by_cases h : n = 0
    · rw [numeral, digitsOf, if_pos h]
      rfl
    · simp only [digitsOf, if_neg h] at hlast
      exact absurd hlast (Nat.getLast_digit_ne_zero base h)

theorem padded_length (base k n : ℕ) : (padded base k n).length = k := by
  rw [padded, lowDigits, List.length_map, List.length_reverse, List.length_map, List.length_range]

theorem padded_getElem {k i : ℕ} (hi : i < (padded base k n).length) :
    (padded base k n)[i] = digitChar (n / base ^ (k - 1 - i) % base) := by
  simp only [padded, lowDigits, List.getElem_map, List.getElem_reverse, List.getElem_range,
    List.length_map, List.length_range]

theorem ofDigits_lowDigits (base k n : ℕ) :
    Nat.ofDigits base (lowDigits base k n) = n % base ^ k := by
  induction k with
  | zero => rw [Nat.pow_zero, Nat.mod_one]; rfl
  | succ k ih =>
    rw [lowDigits, List.range_succ, List.map_append, Nat.ofDigits_append, ← lowDigits, ih,
      List.map_singleton, Nat.ofDigits_singleton, lowDigits, List.length_map, List.length_range,
      Nat.mod_pow_succ]

theorem isPadded_padded {k : ℕ} (hb : 0 < base) (hn : n < base ^ k) :
    IsPadded base k (padded base k n) n := by
  refine ⟨padded_length base k n, fun c hc => ?_, ?_⟩
  · obtain ⟨d, hd, rfl⟩ := List.mem_map.mp hc
    obtain ⟨i, -, rfl⟩ := List.mem_map.mp (List.mem_reverse.mp hd)
    exact ⟨_, Nat.mod_lt _ hb, rfl⟩
  · rw [padded, map_digitOf, ofDigits_lowDigits, Nat.mod_eq_of_lt hn]

end DevOs.Numerals
