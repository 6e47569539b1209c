import DevOs.Kernel.Numbers
import DevOs.Lib.Bytes

/-!
# The printing of hexadecimal digits

The functions `to_hstring64` to `to_hstring8` are the same for values of 8, 4, 2 and 1 bytes. The
highest index of a digit is the bound of their loop, too, where the loop needs the number of bytes.
So the bytes behind the value are read, and their digits are written in front of the output. The
digits of the value are right all the same, and for one byte the two numbers agree.
-/

namespace DevOs.Kernel

open Bytes Numerals

/-- A call in its loop: the bytes around the output, whose first one has the index zero, and the
accesses so far, to bytes of the value and to the output. -/
structure HexRun where
  output : ℤ → Byte
  reads : List ℕ
  writes : List ℤ

def HexRun.read (r : HexRun) (i : ℕ) : HexRun := { r with reads := r.reads ++ [i] }

def HexRun.write (r : HexRun) (j : ℤ) (x : Byte) : HexRun :=
  { r with output := Function.update r.output j x, writes := r.writes ++ [j] }

/-- `temp + (temp > 9 ? 55 : '0')` -/
def hexChar (temp : Byte) : Byte := temp + if 9 < temp then 55 else 0x30

/-- The body of the loop for the byte `i`, which is read for each of its digits. -/
def hexStep (value : Buffer) (size : ℕ) (r : HexRun) (i : ℕ) : HexRun :=
  let r := (r.read i).write (size - (i * 2 + 1)) (hexChar ((value i &&& 0xF0) >>> 4))
  (r.read i).write (size - i * 2) (hexChar (value i &&& 0x0F))

def toHstring (bytes : ℕ) (value : Buffer) (output : ℤ → Byte) : HexRun :=
  let size := bytes * 2 - 1
  ((List.range size).foldl (hexStep value size) ⟨output, [], []⟩).write (size + 1) 0

/-- `to_hstring64`. The value is a parameter, which has the stack behind it. -/
def toHstring64 (value : BitVec 64) (stack : Buffer) : (ℤ → Byte) → HexRun :=
  toHstring 8 (setLE stack 0 8 value.toNat)

def toHstring32 (value : BitVec 32) (stack : Buffer) : (ℤ → Byte) → HexRun :=
  toHstring 4 (setLE stack 0 4 value.toNat)

def toHstring16 (value : BitVec 16) (stack : Buffer) : (ℤ → Byte) → HexRun :=
  toHstring 2 (setLE stack 0 2 value.toNat)

def toHstring8 (value : BitVec 8) (stack : Buffer) : (ℤ → Byte) → HexRun :=
  toHstring 1 (setLE stack 0 1 value.toNat)

/-- Only the bytes of the value are read, only the digits and the zero behind them are written, and
the string that is returned has the digits of the value. -/
structure PrintsInside (bytes v : ℕ) (r : HexRun) : Prop where
  reads : ∀ a ∈ r.reads, a < bytes
  writes : ∀ j ∈ r.writes, 0 ≤ j ∧ j ≤ 2 * bytes
  digits : ∃ s, HasString (fun i => r.output i) 0 s ∧ IsPadded 16 (2 * bytes) s v

variable {value stack : Buffer} {output : ℤ → Byte} {bytes size n k v : ℕ}

theorem hexChar_digit {d : ℕ} (h : d < 16) :
    hexChar (BitVec.ofNat 8 d) = BitVec.ofNat 8 (digitChar d) := by
  have hall : ∀ d < 16, hexChar (BitVec.ofNat 8 d) = BitVec.ofNat 8 (digitChar d) := by decide
  exact hall d h

theorem highNibble (x : Byte) : (x &&& 0xF0) >>> 4 = BitVec.ofNat 8 (x.toNat / 16) := by
  revert x
  decide

theorem lowNibble (x : Byte) : x &&& 0x0F = BitVec.ofNat 8 (x.toNat % 16) := by
  revert x
  decide

/-- The digit `k` of the bytes at the value, the lowest one first. -/
def nibble (value : Buffer) (k : ℕ) : ℕ := (value (k / 2)).toNat / 16 ^ (k % 2) % 16

theorem nibble_setLE (hk : k < 2 * bytes) : nibble (setLE stack 0 bytes v) k = v / 16 ^ k % 16 := by
  have hlt : k / 2 < bytes := by omega
  have hpow : 256 ^ (k / 2) * 16 ^ (k % 2) = 16 ^ k := by
    rw [show 256 = 16 ^ 2 from rfl, ← Nat.pow_mul, ← Nat.pow_add, Nat.div_add_mod]
  have hcut (m : ℕ) : m % 256 / 16 ^ (k % 2) % 16 = m / 16 ^ (k % 2) % 16 := by
    rcases Nat.mod_two_eq_zero_or_one k with h | h
    · rw [h]
      omega
    · rw [h]
      omega
  rw [nibble, setLE, if_pos (by omega), BitVec.toNat_ofNat, Nat.sub_zero,
    show 2 ^ 8 = 256 from rfl, hcut, Nat.div_div_eq_div_mul, hpow]

/-- The state of the loop in front of the byte `n`. -/
structure HexLoop (value : Buffer) (size n : ℕ) (r : HexRun) : Prop where
  reads : ∀ a, a ∈ r.reads ↔ a < n
  writes : ∀ j, j ∈ r.writes ↔ (size : ℤ) - 2 * n < j ∧ j ≤ size
  digits : ∀ k < 2 * n, r.output (size - k) = BitVec.ofNat 8 (digitChar (nibble value k))

theorem HexLoop.step {r : HexRun} (h : HexLoop value size n r) :
    HexLoop value size (n + 1) (hexStep value size r n) := by
  have hlow : hexChar (value n &&& 0x0F) = BitVec.ofNat 8 (digitChar (nibble value (2 * n))) := by
    rw [lowNibble, hexChar_digit (Nat.mod_lt _ (by decide)), nibble,
      Nat.mul_div_cancel_left _ (by decide), Nat.mul_mod_right, Nat.pow_zero, Nat.div_one]
  have hhigh : hexChar ((value n &&& 0xF0) >>> 4) =
      BitVec.ofNat 8 (digitChar (nibble value (2 * n + 1))) := by
    have hlt := (value n).isLt
    have hdiv : (2 * n + 1) / 2 = n := by omega
    have hmod : (2 * n + 1) % 2 = 1 := by omega
    rw [highNibble, hexChar_digit (by omega), nibble, hdiv, hmod, Nat.pow_one,
      Nat.mod_eq_of_lt (by omega)]
  refine ⟨fun a => ?_, fun j => ?_, fun k hk => ?_⟩
  · simp only [hexStep, HexRun.read, HexRun.write, List.mem_append, List.mem_singleton, h.reads]
    omega
  · simp only [hexStep, HexRun.read, HexRun.write, List.mem_append, List.mem_singleton, h.writes]
    omega
  · simp only [hexStep, HexRun.read, HexRun.write]
    by_cases h0 : k = 2 * n
    · rw [h0, show (size : ℤ) - (2 * n : ℕ) = size - n * 2 by omega, Function.update_self, hlow]
    · by_cases h1 : k = 2 * n + 1
      · rw [h1, Function.update_of_ne (by omega),
          show (size : ℤ) - (2 * n + 1 : ℕ) = size - (n * 2 + 1) by
            omega, Function.update_self, hhigh]
      · rw [Function.update_of_ne (by omega), Function.update_of_ne (by omega),
          h.digits k (by omega)]

theorem hexLoop (value : Buffer) (output : ℤ → Byte) (size n : ℕ) :
    HexLoop value size n ((List.range n).foldl (hexStep value size) ⟨output, [], []⟩) := by
  induction n with
  | zero =>
    refine ⟨fun a => ?_, fun j => ?_, fun k hk => absurd hk (Nat.not_lt_zero k)⟩
    · simp
    · simp only [List.range_zero, List.foldl_nil, List.not_mem_nil, false_iff]
      omega
  | succ n ih =>
    rw [List.range_succ, List.foldl_append]
    exact ih.step

theorem mem_reads (a : ℕ) : a ∈ (toHstring bytes value output).reads ↔ a < bytes * 2 - 1 :=
  (hexLoop value output (bytes * 2 - 1) (bytes * 2 - 1)).reads a

theorem mem_writes (hb : 0 < bytes) (j : ℤ) :
    j ∈ (toHstring bytes value output).writes ↔ 2 - 2 * (bytes : ℤ) ≤ j ∧ j ≤ 2 * bytes := by
  have hloop := (hexLoop value output (bytes * 2 - 1) (bytes * 2 - 1)).writes j
  simp only [toHstring, HexRun.write, List.mem_append, List.mem_singleton, hloop]
  omega

theorem toHstring_digits (hb : 0 < bytes) (hv : v < 16 ^ (2 * bytes)) :
    ∃ s, HasString (fun i => (toHstring bytes (setLE stack 0 bytes v) output).output i) 0 s ∧
      IsPadded 16 (2 * bytes) s v := by
  have hlen := padded_length 16 (2 * bytes) v
  have hloop := hexLoop (setLE stack 0 bytes v) output (bytes * 2 - 1) (bytes * 2 - 1)
  refine ⟨padded 16 (2 * bytes) v, ⟨fun i hi => ?_, zero_not_mem_map _, ?_⟩,
    isPadded_padded (by decide) hv⟩
  · have hplace : ((0 + i : ℕ) : ℤ) = (bytes * 2 - 1 : ℕ) - (2 * bytes - 1 - i : ℕ) := by omega
    have hdigit := digitChar_lt (Nat.mod_lt (v / 16 ^ (2 * bytes - 1 - i)) (by decide : 0 < 16))
    simp only [toHstring, HexRun.write]
    rw [Function.update_of_ne (by omega), hplace, hloop.digits _ (by omega),
      nibble_setLE (by omega), padded_getElem, BitVec.toNat_ofNat, Nat.mod_eq_of_lt (by omega)]
  · have hplace : ((0 + (padded 16 (2 * bytes) v).length : ℕ) : ℤ) = (bytes * 2 - 1 : ℕ) + 1 := by
      omega
    simp only [toHstring, HexRun.write]
    rw [hplace, Function.update_self]

theorem printsInside_iff (hb : 0 < bytes) (hv : v < 16 ^ (2 * bytes)) :
    PrintsInside bytes v (toHstring bytes (setLE stack 0 bytes v) output) ↔ bytes = 1 := by
  constructor
  · intro h
    have hlast := h.reads (bytes * 2 - 2) ((mem_reads _).mpr (by omega))
    omega
  · rintro rfl
    refine ⟨fun a ha => ?_, fun j hj => ?_, toHstring_digits hb hv⟩
    · have hlt := (mem_reads a).mp ha
      omega
    · have hle := (mem_writes hb j).mp hj
      omega

theorem toHstring8_inside (v : BitVec 8) (stack : Buffer) (output : ℤ → Byte) :
    PrintsInside 1 v.toNat (toHstring8 v stack output) :=
  (printsInside_iff Nat.one_pos v.isLt).mpr rfl

theorem zero_not_inside : ¬PrintsInside 2 0 (toHstring16 0 (fun _ => 0) fun _ => 0) := by
  intro h
  exact absurd (h.reads 2 ((mem_reads 2).mpr (by decide))) (by decide)

/-- No value of more than one byte is printed inside of the buffers. -/
theorem toHstring_never_inside (stack : Buffer) (output : ℤ → Byte) :
    (∀ v : BitVec 64, ¬PrintsInside 8 v.toNat (toHstring64 v stack output)) ∧
      (∀ v : BitVec 32, ¬PrintsInside 4 v.toNat (toHstring32 v stack output)) ∧
        ∀ v : BitVec 16, ¬PrintsInside 2 v.toNat (toHstring16 v stack output) := by
  refine ⟨fun v h => ?_, fun v h => ?_, fun v h => ?_⟩
  · exact absurd ((printsInside_iff (by decide) v.isLt).mp h) (by decide)
  · exact absurd ((printsInside_iff (by decide) v.isLt).mp h) (by decide)
  · exact absurd ((printsInside_iff (by decide) v.isLt).mp h) (by decide)

end DevOs.Kernel
