import DevOs.Lib.Numerals
import Mathlib.Data.Nat.Log
import Mathlib.Logic.Function.Basic

/-!
# The printing of numbers

`itoa` and `itoaw` are the same function for characters of 8 and of 16 bits. They count the digits
of the value without its sign, and put each digit at its distance from the last one. The division of
the decimal branch is that of the signed value: a negative value has no quotient above zero, so that
only its last digit is written, behind characters that nobody has written.
-/

namespace DevOs.Kernel

open Numerals

/-- The characters of a buffer, of `w` bits each. -/
abbrev Cells (w : ℕ) := ℕ → BitVec w

def radixDecimal : ℕ := 0xA
def radixHexadecimal : ℕ := 0x10
def radixBinary : ℕ := 1

variable {w : ℕ}

/-- The loop that counts the digits of `sizeTest` behind the first one. -/
def decimalSize (sizeTest : ℕ) : ℕ :=
  if 0 < sizeTest / 10 then decimalSize (sizeTest / 10) + 1 else 0

/-- `remainder + '0'`, where `remainder` is an `uint8_t`. -/
def decimalChar (remainder : ℤ) : BitVec w :=
  BitVec.ofNat w ((BitVec.ofInt 8 remainder).toNat + 0x30)

theorem nonneg_of_tdiv_pos {value : ℤ} (h : 0 < value.tdiv 10) : 0 ≤ value := by
  by_contra hneg
  have hflip : (-value).tdiv 10 = -value.tdiv 10 := Int.neg_tdiv ..
  have hpos : 0 ≤ (-value).tdiv 10 := Int.tdiv_nonneg (by omega) (by decide)
  omega

/-- The loop over the digits behind the first one, the last of which lies at `size`. What is left of
the value comes back with the number of digits written. -/
def writeDecimal (p size index : ℕ) (value : ℤ) (c : Cells w) : Cells w × ℤ × ℕ :=
  if 0 < value.tdiv 10 then
    writeDecimal p size (index + 1) (value.tdiv 10)
      (Function.update c (p + (size - index)) (decimalChar (value.tmod 10)))
  else (c, value, index)
termination_by value.toNat
decreasing_by
  have hnonneg := nonneg_of_tdiv_pos ‹_›
  rw [Int.tdiv_eq_ediv_of_nonneg hnonneg] at *
  omega

def itoaDecimal (v : BitVec 64) (c : Cells w) : Cells w × ℕ :=
  let size := decimalSize v.toNat
  let p := if v.toInt < 0 then 1 else 0
  let c := if v.toInt < 0 then Function.update c 0 (BitVec.ofNat w 0x2D) else c
  let (c, value, index) := writeDecimal p size 0 v.toInt c
  let c := Function.update c (p + (size - index)) (decimalChar (value.tmod 10))
  (Function.update c (p + (size + 1)) 0, p)

def hexadecimalSize (valTmp : ℕ) : ℕ :=
  if valTmp >>> 4 ≠ 0 then hexadecimalSize (valTmp >>> 4) + 1 else 1
termination_by valTmp
decreasing_by
  rw [Nat.shiftRight_eq_div_pow] at *
  omega

def hexadecimalChar (c : ℕ) : BitVec w :=
  BitVec.ofNat w (if c < 0xA then 0x30 + c else 0x41 + (c - 0xA))

/-- The loop over the hexadecimal digits, with `n` of them left. -/
def writeHexadecimal (size : ℕ) : ℕ → ℕ → BitVec 64 → Cells w → Cells w
  | 0, _, _, c => c
  | n + 1, i, value, c =>
    writeHexadecimal size n (i + 1) (value.sshiftRight 4)
      (Function.update c (size - (i + 1)) (hexadecimalChar (value &&& 0xF).toNat))

def itoaHexadecimal (v : BitVec 64) (c : Cells w) : Cells w × ℕ :=
  let size := hexadecimalSize v.toNat
  (Function.update (writeHexadecimal size size 0 v c) size 0, 0)

/-- The loop that brings the highest set bit to the top: the value and the number of shifts. -/
def normalize (value : BitVec 64) (shift : ℕ) : BitVec 64 × ℕ :=
  if h : value.getLsbD 63 = false ∧ value ≠ 0 then normalize (value <<< 1) (shift + 1)
    else (value, shift)
termination_by 2 ^ 64 - value.toNat
decreasing_by
  have hne : value.toNat ≠ 0 := fun he => h.2 (BitVec.eq_of_toNat_eq he)
  have htop : 2 * value.toNat < 2 ^ 64 := BitVec.msb_eq_false_iff_two_mul_lt.mp h.1
  rw [BitVec.toNat_shiftLeft, Nat.shiftLeft_eq]
  omega

/-- The loop over the bits, with `n` of them left. -/
def writeBits : ℕ → ℕ → BitVec 64 → Cells w → Cells w × ℕ
  | 0, buff, _, c => (c, buff)
  | n + 1, buff, value, c =>
    writeBits n (buff + 1) (value <<< 1)
      (Function.update c buff (BitVec.ofNat w (if value.getLsbD 63 then 0x31 else 0x30)))

def itoaBinary (v : BitVec 64) (c : Cells w) : Cells w × ℕ :=
  let c := Function.update c 0 (BitVec.ofNat w 0x30)
  if v = 0 then (Function.update c 1 0, 0)
  else
    let (value, shift) := normalize v 0
    let (c, buff) := writeBits (64 - shift) 0 value c
    (Function.update c buff 0, 0)

/-- What `itoa` and `itoaw` have in common. -/
def itoaOf (w : ℕ) (v : BitVec 64) (c : Cells w) (radix : ℕ) : Option (Cells w × ℕ) :=
  if radix = radixDecimal then some (itoaDecimal v c)
  else if radix = radixHexadecimal then some (itoaHexadecimal v c)
  else if radix = radixBinary then some (itoaBinary v c)
  else none

def itoa : BitVec 64 → Cells 8 → ℕ → Option (Cells 8 × ℕ) := itoaOf 8

def itoaw : BitVec 64 → Cells 16 → ℕ → Option (Cells 16 × ℕ) := itoaOf 16

/-- The string `s` lies at `p`, and a zero behind it. -/
structure HasString (c : Cells w) (p : ℕ) (s : List ℕ) : Prop where
  chars : ∀ i (h : i < s.length), (c (p + i)).toNat = s[i]
  nonzero : 0 ∉ s
  zero : c (p + s.length) = 0

/-- The three radices. -/
inductive Radix where
  | decimal
  | hexadecimal
  | binary
deriving DecidableEq, Repr

def Radix.code : Radix → ℕ
  | .decimal => radixDecimal
  | .hexadecimal => radixHexadecimal
  | .binary => radixBinary

/-- The string is the value in the radix, with a sign in front of it when it is decimal and
negative. -/
def Writes (r : Radix) (v : BitVec 64) (s : List ℕ) : Prop :=
  match r with
  | .decimal =>
      if v.toInt < 0 then ∃ t, s = 0x2D :: t ∧
        IsNumeral 10 t v.toInt.natAbs else IsNumeral 10 s v.toNat
  | .hexadecimal => IsNumeral 16 s v.toNat
  | .binary => IsNumeral 2 s v.toNat

/-- Whatever is in their buffers, the two functions return the same string, which is the value. -/
def PrintsRight (r : Radix) (v : BitVec 64) : Prop :=
  ∀ (c : Cells 8) (d : Cells 16), ∃ s c' p d' q, itoa v c r.code = some (c', p) ∧
    itoaw v d r.code = some (d', q) ∧
    HasString c' p s ∧ HasString d' q s ∧ Writes r v s

variable {n p : ℕ}

theorem digitChar_lt {d : ℕ} (h : d < 16) : digitChar d < 2 ^ 7 := by
  rw [digitChar]
  split_ifs <;> omega

theorem HasString.length_le {c : Cells w} {p : ℕ} {s t : List ℕ} (h : HasString c p s)
    (h' : HasString c p t) :
    s.length ≤ t.length := by
  by_contra hlt
  have hchar := h.chars t.length (Nat.lt_of_not_le hlt)
  rw [h'.zero] at hchar
  exact h.nonzero (hchar.symm ▸ List.getElem_mem _ : (0 : BitVec w).toNat ∈ s)

theorem HasString.unique {c : Cells w} {p : ℕ} {s t : List ℕ} (h : HasString c p s)
    (h' : HasString c p t) :
    s = t := by
  refine List.ext_getElem (Nat.le_antisymm (h.length_le h') (h'.length_le h)) fun i hs ht => ?_
  rw [← h.chars i hs, h'.chars i ht]

/-- The digits of a number at their distances from the last one, and a zero behind them. -/
theorem hasString_numeral {base : ℕ} {c : Cells w} (hb : 1 < base) (hle : base ≤ 16) (hw : 7 ≤ w)
    (hc : ∀ j ≤ Nat.log base n,
      c (p + (Nat.log base n - j)) = BitVec.ofNat w (digitChar (n / base ^ j % base)))
    (hz : c (p + (Nat.log base n + 1)) = 0) : HasString c p (numeral base n) := by
  refine ⟨fun i hi => ?_, zero_not_mem_map _, ?_⟩
  · have hlen := numeral_length hb n
    have hpos : p + i = p + (Nat.log base n - (Nat.log base n - i)) := by omega
    have hmod : n / base ^ (Nat.log base n - i) % base < base := Nat.mod_lt _ (by omega)
    have hlt := digitChar_lt (Nat.lt_of_lt_of_le hmod hle)
    have hpow : 2 ^ 7 ≤ 2 ^ w := Nat.pow_le_pow_right (by decide) hw
    rw [hpos, hc _ (Nat.sub_le _ _), numeral_getElem hb, BitVec.toNat_ofNat,
      Nat.mod_eq_of_lt (by omega)]
  · rw [numeral_length hb]
    exact hz

theorem decimalSize_eq (n : ℕ) : decimalSize n = Nat.log 10 n := by
  induction n using Nat.strong_induction_on with
  | _ n ih =>
    rw [decimalSize]
    split_ifs with h
    · rw [ih (n / 10) (by omega), Nat.log_div_base]
      have hpos : 0 < Nat.log 10 n := Nat.log_pos (by decide) (by omega)
      omega
    · exact (Nat.log_of_lt (by omega)).symm

theorem decimalChar_eq {d : ℕ} (h : d < 10) :
    (decimalChar (d : ℤ) : BitVec w) = BitVec.ofNat w (digitChar d) := by
  rw [decimalChar, digitChar, if_pos h]
  have hd : (BitVec.ofInt 8 (d : ℤ)).toNat = d := by
    rw [BitVec.ofInt_natCast, BitVec.toNat_ofNat]
    omega
  rw [hd, Nat.add_comm]

def decimalCells (p size index : ℕ) (value : ℤ) (c : Cells w) : Cells w :=
  let r := writeDecimal p size index value c
  Function.update r.1 (p + (size - r.2.2)) (decimalChar (r.2.1.tmod 10))

theorem decimalCells_eq (p size index : ℕ) (n : ℕ) (c : Cells w) : decimalCells p size index n c =
    if 0 < n / 10 then
      decimalCells p size (index + 1) ((n / 10 : ℕ) : ℤ)
        (Function.update c (p + (size - index)) (BitVec.ofNat w (digitChar (n % 10))))
    else Function.update c (p + (size - index)) (BitVec.ofNat w (digitChar (n % 10))) := by
  have hdiv : (n : ℤ).tdiv 10 = ((n / 10 : ℕ) : ℤ) := by
    rw [Int.tdiv_eq_ediv_of_nonneg (Int.natCast_nonneg n)]
    rfl
  have hmod : (n : ℤ).tmod 10 = ((n % 10 : ℕ) : ℤ) := by
    rw [Int.tmod_eq_emod_of_nonneg (Int.natCast_nonneg n)]
    rfl
  have hchar : (decimalChar ((n % 10 : ℕ) : ℤ) : BitVec w) = BitVec.ofNat w (digitChar (n % 10)) :=
    decimalChar_eq (Nat.mod_lt _ (by decide))
  rw [decimalCells, writeDecimal, hdiv, hmod, hchar]
  by_cases h : 0 < n / 10
  · rw [if_pos (by omega), if_pos h]
    rfl
  · rw [if_neg (by omega), if_neg h]
    simp only [hmod, hchar]

theorem decimalCells_spec (n : ℕ) : ∀ (size index : ℕ) (c : Cells w), size = index + Nat.log 10 n →
    (∀ j ≤ Nat.log 10 n, decimalCells p size index n c (p + (size - (index + j))) =
      BitVec.ofNat w (digitChar (n / 10 ^ j % 10))) ∧
    ∀ q, q < p ∨ p + (size - index) < q → decimalCells p size index n c q = c q := by
  induction n using Nat.strong_induction_on with
  | _ n ih =>
    intro size index c hsize
    rw [decimalCells_eq]
    by_cases h : 0 < n / 10
    · have hlog : Nat.log 10 n = Nat.log 10 (n / 10) + 1 := by
        rw [Nat.log_div_base]
        have hpos : 0 < Nat.log 10 n := Nat.log_pos (by decide) (by omega)
        omega
      obtain ⟨hdigits, hrest⟩ := ih (n / 10) (by omega) size (index + 1)
        (Function.update c (p + (size - index)) (BitVec.ofNat w (digitChar (n % 10)))) (by omega)
      rw [if_pos h]
      refine ⟨fun j hj => ?_, fun q hq => ?_⟩
      · cases j with
        | zero =>
          rw [hrest _ (.inr (by omega)), Nat.add_zero, Function.update_self, Nat.pow_zero,
            Nat.div_one]
        | succ j =>
          have hnext := hdigits j (by omega)
          rw [Nat.div_div_eq_div_mul, ← Nat.pow_succ', Nat.add_right_comm, Nat.add_assoc] at hnext
          exact hnext
      · rw [hrest q (by omega), Function.update_of_ne (by omega)]
    · have hlog : Nat.log 10 n = 0 := Nat.log_of_lt (by omega)
      rw [if_neg h]
      refine ⟨fun j hj => ?_, fun q hq => Function.update_of_ne (by omega) _ _⟩
      obtain rfl : j = 0 := by omega
      rw [Nat.add_zero, Function.update_self, Nat.pow_zero, Nat.div_one]

theorem toInt_of_nonneg {v : BitVec 64} (h : ¬v.toInt < 0) : v.toInt = v.toNat := by
  have hlt := v.isLt
  rw [BitVec.toInt_eq_toNat_cond] at h ⊢
  split_ifs at h ⊢ <;> omega

theorem itoaDecimal_nonneg {v : BitVec 64} (h : ¬v.toInt < 0) (hw : 7 ≤ w) (c : Cells w) :
    ∃ c', itoaDecimal v c = (c', 0) ∧ HasString c' 0 (numeral 10 v.toNat) := by
  have hsize := decimalSize_eq v.toNat
  obtain ⟨hdigits, -⟩ :=
    decimalCells_spec (p := 0) v.toNat (Nat.log 10 v.toNat) 0 c (Nat.zero_add _).symm
  refine ⟨Function.update (decimalCells 0 (Nat.log 10 v.toNat) 0 v.toInt c)
    (0 + (Nat.log 10 v.toNat + 1)) 0, ?_, ?_⟩
  · rw [itoaDecimal]
    simp only [if_neg h, hsize]
    rfl
  · refine hasString_numeral (by decide) (by decide) hw (fun j hj => ?_) (Function.update_self ..)
    rw [Function.update_of_ne (by omega), toInt_of_nonneg h, ← hdigits j hj, Nat.zero_add j]

/-- A negative value has nothing written between the sign and its last character. -/
theorem itoaDecimal_neg {v : BitVec 64} (h : v.toInt < 0) (c : Cells w) :
    ∃ c', itoaDecimal v c = (c', 1) ∧ c' 1 = c 1 := by
  have hsize : 0 < decimalSize v.toNat := by
    have hle : 2 ^ 63 ≤ v.toNat := by
      rw [BitVec.toInt_eq_toNat_cond] at h
      split_ifs at h with hlt <;> omega
    rw [decimalSize_eq]
    exact Nat.log_pos (by decide) (by omega)
  have hloop : ∀ d : Cells w,
      writeDecimal 1 (decimalSize v.toNat) 0 v.toInt d = (d, v.toInt, 0) := by
    intro d
    rw [writeDecimal, if_neg fun hpos => absurd (nonneg_of_tdiv_pos hpos) (by omega)]
  refine ⟨Function.update (Function.update (Function.update c 0 (BitVec.ofNat w 0x2D))
    (1 + (decimalSize v.toNat - 0)) (decimalChar (v.toInt.tmod 10)))
    (1 + (decimalSize v.toNat + 1)) 0, ?_, ?_⟩
  · rw [itoaDecimal]
    simp only [if_pos h, hloop]
  · rw [Function.update_of_ne (by omega), Function.update_of_ne (by omega),
      Function.update_of_ne Nat.one_ne_zero]

theorem hexadecimalSize_eq (n : ℕ) : hexadecimalSize n = Nat.log 16 n + 1 := by
  induction n using Nat.strong_induction_on with
  | _ n ih =>
    rw [hexadecimalSize, Nat.shiftRight_eq_div_pow]
    split_ifs with h
    · rw [ih (n / 2 ^ 4) (by omega), show 2 ^ 4 = 16 from rfl, Nat.log_div_base]
      have hpos : 0 < Nat.log 16 n := Nat.log_pos (by decide) (by omega)
      omega
    · rw [Nat.log_of_lt (by omega)]

theorem log_sixteen_lt (v : BitVec 64) : Nat.log 16 v.toNat < 16 :=
  Nat.log_lt_of_lt_pow' (by decide) v.isLt

/-- The lowest four bits of a value that has been shifted `i` times, as long as no bit of the sign
is there. -/
theorem nibble_toNat {v value : BitVec 64} {i : ℕ} (hi : i < 16)
    (hv : ∀ b, b + 4 * i < 64 → value.getLsbD b = v.getLsbD (b + 4 * i)) :
    (value &&& 0xF).toNat = v.toNat / 16 ^ i % 16 := by
  have hmask : value &&& 0xF = v >>> (4 * i) &&& 0xF := by
    refine BitVec.eq_of_getLsbD_eq fun b hb => ?_
    rw [BitVec.getLsbD_and, BitVec.getLsbD_and, BitVec.getLsbD_ushiftRight]
    by_cases hb4 : b < 4
    · rw [hv b (by omega), Nat.add_comm]
    · have hzero : (0xF : BitVec 64).getLsbD b = false := by
        rw [show (0xF : BitVec 64) = (BitVec.allOnes 4).setWidth 64 from rfl,
          BitVec.getLsbD_setWidth, BitVec.getLsbD_allOnes, decide_eq_false hb4, Bool.and_false]
      rw [hzero, Bool.and_false, Bool.and_false]
  have hpow : 2 ^ (4 * i) = 16 ^ i := by rw [Nat.pow_mul]
  rw [hmask, BitVec.toNat_and, show (0xF : BitVec 64).toNat = 2 ^ 4 - 1 from rfl,
    Nat.and_two_pow_sub_one_eq_mod, BitVec.toNat_ushiftRight, Nat.shiftRight_eq_div_pow, hpow]

theorem writeHexadecimal_spec (v : BitVec 64) (size : ℕ) (hsize : size ≤ 16) (n : ℕ) :
    ∀ (i : ℕ) (value : BitVec 64) (c : Cells w), i + n = size →
      (∀ b, b + 4 * i < 64 → value.getLsbD b = v.getLsbD (b + 4 * i)) →
      (∀ k, i ≤ k → k < size → writeHexadecimal size n i value c (size - (k + 1)) =
        BitVec.ofNat w (digitChar (v.toNat / 16 ^ k % 16))) ∧
      ∀ q, size - i ≤ q → writeHexadecimal size n i value c q = c q := by
  induction n with
  | zero => exact fun i value c hi _ => ⟨fun k hk hlt => by omega, fun q _ => rfl⟩
  | succ n ih =>
    intro i value c hi hv
    have hshift : ∀ b, b + 4 * (i + 1) < 64 →
        (value.sshiftRight 4).getLsbD b = v.getLsbD (b + 4 * (i + 1)) := by
      intro b hb
      rw [BitVec.getLsbD_sshiftRight, if_pos (by omega), hv (4 + b) (by omega)]
      have hge : ¬64 ≤ b := by omega
      simp only [hge, decide_false, Bool.not_false, Bool.true_and]
      congr 1
      omega
    obtain ⟨hdigits, hrest⟩ := ih (i + 1) (value.sshiftRight 4)
      (Function.update c (size - (i + 1)) (hexadecimalChar (value &&& 0xF).toNat)) (by omega) hshift
    rw [writeHexadecimal]
    refine ⟨fun k hk hlt => ?_, fun q hq => ?_⟩
    · rcases Nat.lt_or_eq_of_le hk with hlt' | rfl
      · exact hdigits k hlt' hlt
      · rw [hrest _ le_rfl, Function.update_self, nibble_toNat (by omega) hv]
        rfl
    · rw [hrest q (by omega), Function.update_of_ne (by omega)]

theorem itoaHexadecimal_right (v : BitVec 64) (hw : 7 ≤ w) (c : Cells w) :
    ∃ c', itoaHexadecimal v c = (c', 0) ∧ HasString c' 0 (numeral 16 v.toNat) := by
  have hsize := hexadecimalSize_eq v.toNat
  have hlog := log_sixteen_lt v
  obtain ⟨hdigits, -⟩ :=
    writeHexadecimal_spec v (Nat.log 16 v.toNat + 1) (by omega) (Nat.log 16 v.toNat + 1) 0 v c
    (Nat.zero_add _) fun b _ => by rw [Nat.mul_zero, Nat.add_zero]
  refine ⟨_, rfl, ?_⟩
  rw [hsize]
  refine hasString_numeral (by decide) le_rfl hw (fun j hj => ?_) ?_
  · have hdigit := hdigits j (Nat.zero_le j) (by omega)
    rw [Function.update_of_ne (by omega), ← hdigit]
    congr 1
    omega
  · rw [Nat.zero_add, Function.update_self]

theorem normalize_spec (v value : BitVec 64) (shift : ℕ) (hne : value ≠ 0)
    (hv : value.toNat = v.toNat * 2 ^ shift) :
    2 ^ 63 ≤ (normalize value shift).1.toNat ∧
      (normalize value shift).1.toNat = v.toNat * 2 ^ (normalize value shift).2 := by
  induction value, shift using normalize.induct with
  | case1 value shift h ih =>
    have htop : 2 * value.toNat < 2 ^ 64 := BitVec.msb_eq_false_iff_two_mul_lt.mp h.1
    have hdouble : (value <<< 1).toNat = 2 * value.toNat := by
      rw [BitVec.toNat_shiftLeft, Nat.shiftLeft_eq]
      omega
    rw [normalize, dif_pos h]
    refine ih ?_ ?_
    · intro hzero
      rw [hzero] at hdouble
      exact hne (BitVec.eq_of_toNat_eq (show value.toNat = 0 by
        have hz : (0 : BitVec 64).toNat = 0 := rfl
        omega))
    · rw [hdouble, hv, Nat.pow_succ]
      ring
  | case2 value shift h =>
    rw [normalize, dif_neg h]
    have htop : value.getLsbD 63 = true := by
      by_contra hbit
      exact h ⟨by simpa using hbit, hne⟩
    have hmsb : value.msb = true := htop
    have hle := BitVec.msb_eq_true_iff_two_mul_ge.mp hmsb
    exact ⟨show 2 ^ 63 ≤ value.toNat by omega, hv⟩

theorem bitChar_eq (value : BitVec 64) (i : ℕ) :
    (if value.getLsbD i then 0x31 else 0x30) = digitChar (value.toNat / 2 ^ i % 2) := by
  rw [BitVec.getLsbD, Nat.testBit_eq_decide_div_mod_eq]
  rcases Nat.mod_two_eq_zero_or_one (value.toNat / 2 ^ i) with h | h
  · rw [h]
    rfl
  · rw [h]
    rfl

theorem writeBits_spec (n : ℕ) : ∀ (buff : ℕ) (value : BitVec 64) (c : Cells w), n ≤ 64 →
    (writeBits n buff value c).2 = buff + n ∧
    (∀ k < n, (writeBits n buff value c).1 (buff + k) =
      BitVec.ofNat w (if value.getLsbD (63 - k) then 0x31 else 0x30)) ∧
    ∀ q, q < buff → (writeBits n buff value c).1 q = c q := by
  induction n with
  | zero => exact fun buff value c _ =>
      ⟨rfl, fun k hk => absurd hk (Nat.not_lt_zero k), fun q _ => rfl⟩
  | succ n ih =>
    intro buff value c hn
    obtain ⟨hend, hbits, hrest⟩ := ih (buff + 1) (value <<< 1)
      (Function.update c buff (BitVec.ofNat w (if value.getLsbD 63 then 0x31 else 0x30))) (by omega)
    rw [writeBits]
    refine ⟨by omega, fun k hk => ?_, fun q hq => ?_⟩
    · cases k with
      | zero => rw [hrest _ (by omega), Nat.add_zero, Function.update_self]
      | succ k =>
        have hdigit := hbits k (by omega)
        have hbit : (value <<< 1).getLsbD (63 - k) = value.getLsbD (63 - (k + 1)) := by
          have hlt : 63 - k < 64 := by omega
          have hge : ¬63 - k < 1 := by omega
          rw [BitVec.getLsbD_shiftLeft, decide_eq_true hlt, decide_eq_false hge]
          simp only [Bool.not_false, Bool.and_true, Bool.true_and]
          congr 1
        rw [Nat.add_right_comm, hbit] at hdigit
        exact hdigit
    · rw [hrest q (by omega), Function.update_of_ne (by omega)]

theorem itoaBinary_right (v : BitVec 64) (hw : 7 ≤ w) (c : Cells w) :
    ∃ c', itoaBinary v c = (c', 0) ∧ HasString c' 0 (numeral 2 v.toNat) := by
  rw [itoaBinary]
  by_cases h0 : v = 0
  · rw [if_pos h0]
    refine ⟨_, rfl, hasString_numeral (by decide) (by decide) hw (fun j hj => ?_) ?_⟩
    · have hzero : v.toNat = 0 := by rw [h0]; rfl
      rw [hzero, Nat.log_zero_right] at hj ⊢
      rw [Function.update_of_ne (by omega), Nat.zero_sub, Nat.zero_add, Function.update_self,
        Nat.zero_div]
      rfl
    · rw [h0]
      exact Function.update_self ..
  · rw [if_neg h0]
    obtain ⟨htop, hval⟩ := normalize_spec v v 0 h0 (by rw [Nat.pow_zero, Nat.mul_one])
    generalize normalize v 0 = r at htop hval
    obtain ⟨value, shift⟩ := r
    simp only at htop hval ⊢
    have hlt := value.isLt
    have hshift : shift ≤ 63 ∧ Nat.log 2 v.toNat = 63 - shift := by
      have hpos : 0 < v.toNat := Nat.pos_of_ne_zero fun hz => h0 (BitVec.eq_of_toNat_eq hz)
      have hle : shift ≤ 63 := by
        by_contra hgt
        have hpow : 2 ^ 64 ≤ 2 ^ shift := Nat.pow_le_pow_right (by decide) (by omega)
        have hmul : 2 ^ shift ≤ v.toNat * 2 ^ shift := Nat.le_mul_of_pos_left _ hpos
        omega
      refine ⟨hle, Nat.log_eq_of_pow_le_of_lt_pow ?_ ?_⟩
      · have hsplit : 2 ^ 63 = 2 ^ (63 - shift) * 2 ^ shift := by rw [← Nat.pow_add]; congr 1; omega
        exact Nat.le_of_mul_le_mul_right (hsplit ▸ hval ▸ htop) (Nat.two_pow_pos shift)
      · have hsplit : 2 ^ 64 = 2 ^ (63 - shift + 1) * 2 ^ shift := by
          rw [← Nat.pow_add]; congr 1; omega
        exact Nat.lt_of_mul_lt_mul_right (hsplit ▸ hval ▸ hlt)
    obtain ⟨hend, hbits, -⟩ :=
      writeBits_spec (64 - shift) 0 value (Function.update c 0 (BitVec.ofNat w 0x30)) (by omega)
    refine ⟨_, rfl, hasString_numeral (by decide) (by decide) hw (fun j hj => ?_) ?_⟩
    · rw [hshift.2] at hj ⊢
      rw [hend, Function.update_of_ne (by omega), hbits _ (by omega), bitChar_eq, hval]
      have hexp : 63 - (63 - shift - j) = shift + j := by omega
      rw [hexp, Nat.pow_add, ← Nat.div_div_eq_div_mul, Nat.mul_div_cancel _ (Nat.two_pow_pos shift)]
    · rw [hend, hshift.2, show 0 + (63 - shift + 1) = 0 + (64 - shift) by
        omega, Function.update_self]

/-- A negative decimal value is never printed right: the string that is returned does not start with
the sign. -/
theorem not_printsRight_of_neg {v : BitVec 64} (h : v.toInt < 0) : ¬PrintsRight .decimal v := by
  intro hr
  obtain ⟨s, c', p, d', q, hc, -, hs, -, hw⟩ := hr (fun _ => 0) (fun _ => 0)
  obtain ⟨e, he, hone⟩ := itoaDecimal_neg (w := 8) h fun _ => 0
  have heq : (e, 1) = (c', p) := he.symm.trans (Option.some.inj hc)
  obtain ⟨rfl, rfl⟩ := Prod.mk.inj heq
  rw [Writes, if_pos h] at hw
  obtain ⟨t, rfl, -⟩ := hw
  have hchar := hs.chars 0 (Nat.succ_pos _)
  rw [Nat.add_zero, hone] at hchar
  cases hchar

/-- Every value is printed right, except the negative ones in the decimal radix. -/
theorem itoa_right_iff (r : Radix) (v : BitVec 64) :
    PrintsRight r v ↔ ¬(r = .decimal ∧ v.toInt < 0) := by
  constructor
  · rintro hr ⟨rfl, hneg⟩
    exact not_printsRight_of_neg hneg hr
  · intro h c d
    cases r with
    | decimal =>
      have hnonneg : ¬v.toInt < 0 := fun hneg => h ⟨rfl, hneg⟩
      obtain ⟨c', hc, hsc⟩ := itoaDecimal_nonneg hnonneg (by decide) c
      obtain ⟨d', hd, hsd⟩ := itoaDecimal_nonneg hnonneg (by decide) d
      refine ⟨_, c', 0, d', 0, congrArg some hc, congrArg some hd, hsc, hsd, ?_⟩
      rw [Writes, if_neg hnonneg]
      exact isNumeral_numeral (by decide) _
    | hexadecimal =>
      obtain ⟨c', hc, hsc⟩ := itoaHexadecimal_right v (by decide) c
      obtain ⟨d', hd, hsd⟩ := itoaHexadecimal_right v (by decide) d
      exact ⟨_, c', 0, d', 0, congrArg some hc, congrArg some hd, hsc, hsd,
        isNumeral_numeral (by decide) _⟩
    | binary =>
      obtain ⟨c', hc, hsc⟩ := itoaBinary_right v (by decide) c
      obtain ⟨d', hd, hsd⟩ := itoaBinary_right v (by decide) d
      exact ⟨_, c', 0, d', 0, congrArg some hc, congrArg some hd, hsc, hsd,
        isNumeral_numeral (by decide) _⟩

theorem minusOne_not_printed : ¬PrintsRight .decimal (-1) := not_printsRight_of_neg (by decide)

end DevOs.Kernel
