import Mathlib.Algebra.Order.Ring.Nat
import Mathlib.Tactic.Common

/-!
# Little-endian numbers in byte buffers

A buffer is a function from offsets to bytes. Numbers of a fixed number of bytes are read from it
and written into it in little-endian order.
-/

namespace DevOs.Bytes

abbrev Byte := BitVec 8

abbrev Buffer := ℕ → Byte

/-- The number in the `n` bytes at the offset `o`. -/
def getLE (b : Buffer) (o : ℕ) : ℕ → ℕ
  | 0 => 0
  | n + 1 => (b o).toNat + 256 * getLE b (o + 1) n

/-- The buffer with the number `v` in the `n` bytes at the offset `o`. -/
def setLE (b : Buffer) (o n v : ℕ) : Buffer := fun i =>
  if o ≤ i ∧ i < o + n then BitVec.ofNat 8 (v / 256 ^ (i - o)) else b i

/-- Copies `n` bytes of `src` from the offset `so` to the offset `o`. -/
def copy (b : Buffer) (o : ℕ) (src : Buffer) (so n : ℕ) : Buffer := fun i =>
  if o ≤ i ∧ i < o + n then src (so + (i - o)) else b i

/-- Clears `n` bytes at the offset `o`. -/
def clear (b : Buffer) (o n : ℕ) : Buffer := fun i => if o ≤ i ∧ i < o + n then 0 else b i

/-- The `n` bytes at the offset `o`, followed by zeros. -/
def window (b : Buffer) (o n : ℕ) : Buffer := fun i => if i < n then b (o + i) else 0

variable {b c : Buffer} {o n : ℕ}

theorem getLE_lt (b : Buffer) (o n : ℕ) : getLE b o n < 256 ^ n := by
  induction n generalizing o with
  | zero => exact Nat.one_pos
  | succ n ih =>
    have hb : (b o).toNat < 256 := (b o).isLt
    have hr := ih (o + 1)
    rw [getLE, Nat.pow_succ]
    omega

theorem getLE_congr {p : ℕ} (h : ∀ i < n, b (o + i) = c (p + i)) : getLE b o n = getLE c p n := by
  induction n generalizing o p with
  | zero => rfl
  | succ n ih =>
    have h0 := h 0 (Nat.succ_pos n)
    rw [getLE, getLE, show b o = c p from h0]
    congr 2
    apply ih
    intro i hi
    have hs := h (i + 1) (by omega)
    rwa [show o + (i + 1) = o + 1 + i by omega, show p + (i + 1) = p + 1 + i by omega] at hs

theorem getLE_window {k m : ℕ} (h : o + n ≤ m) : getLE (window b k m) o n = getLE b (k + o) n :=
  getLE_congr (fun i hi => by rw [window, if_pos (by omega), Nat.add_assoc])

theorem window_window {k m : ℕ} (h : k + m ≤ n) :
    window (window b o n) k m = window b (o + k) m := by
  funext i
  by_cases hi : i < m
  · rw [window, if_pos hi, window, if_pos (by omega), window, if_pos hi, Nat.add_assoc]
  · rw [window, if_neg hi, window, if_neg hi]

theorem window_congr {p : ℕ} (h : ∀ i < n, b (o + i) = c (p + i)) :
    window b o n = window c p n := by
  funext i
  by_cases hi : i < n
  · rw [window, if_pos hi, window, if_pos hi, h i hi]
  · rw [window, if_neg hi, window, if_neg hi]

theorem window_copy_self (b c : Buffer) (o p n : ℕ) :
    window (copy b o c p n) o n = window c p n := by
  apply window_congr
  intro i hi
  rw [copy, if_pos (by omega), Nat.add_sub_cancel_left]

theorem window_copy_of_disjoint {k m p : ℕ} (h : k + m ≤ o ∨ o + n ≤ k) :
    window (copy b o c p n) k m = window b k m := by
  apply window_congr
  intro i hi
  rw [copy, if_neg (by omega)]

theorem byte_eq_of_getLE_eq {p : ℕ} (h : getLE b o n = getLE c p n) (i : ℕ) (hi : i < n) :
    b (o + i) = c (p + i) := by
  induction n generalizing o p i with
  | zero => omega
  | succ n ih =>
    rw [getLE, getLE] at h
    have hb : (b o).toNat < 256 := (b o).isLt
    have hc : (c p).toNat < 256 := (c p).isLt
    cases i with
    | zero => exact BitVec.eq_of_toNat_eq (by simp only [Nat.add_zero]; omega)
    | succ i =>
      have hs := ih (o := o + 1) (p := p + 1) (by omega) i (by omega)
      rwa [show o + (i + 1) = o + 1 + i by omega, show p + (i + 1) = p + 1 + i by omega]

theorem getLE_setLE_self (b : Buffer) (o n v : ℕ) : getLE (setLE b o n v) o n = v % 256 ^ n := by
  induction n generalizing b o v with
  | zero => rw [getLE, Nat.pow_zero, Nat.mod_one]
  | succ n ih =>
    have hrest : getLE (setLE b o (n + 1) v) (o + 1) n =
        getLE (setLE b (o + 1) n (v / 256)) (o + 1) n := by
      apply getLE_congr
      intro i hi
      rw [setLE, setLE, if_pos (by omega), if_pos (by omega),
        show o + 1 + i - o = i + 1 by omega, show o + 1 + i - (o + 1) = i by omega, Nat.pow_succ,
        Nat.mul_comm, Nat.div_div_eq_div_mul]
    rw [getLE, hrest, ih, setLE, if_pos (by omega), Nat.sub_self, Nat.pow_zero, Nat.div_one,
      BitVec.toNat_ofNat, show 256 ^ (n + 1) = 256 * 256 ^ n from Nat.pow_succ', Nat.mod_mul]

theorem getLE_setLE_of_disjoint {p m : ℕ} (v : ℕ) (h : p + m ≤ o ∨ o + n ≤ p) :
    getLE (setLE b o n v) p m = getLE b p m := by
  apply getLE_congr
  intro i hi
  rw [setLE, if_neg (by omega)]

theorem setLE_of_not_mem {i : ℕ} (v : ℕ) (h : i < o ∨ o + n ≤ i) : setLE b o n v i = b i := by
  rw [setLE, if_neg (by omega)]

theorem setLE_byte (b : Buffer) (o : ℕ) (v : Byte) (i : ℕ) :
    setLE b o 1 v.toNat i = if i = o then v else b i := by
  by_cases h : i = o
  · rw [setLE, if_pos (by omega), if_pos h, h, Nat.sub_self, Nat.pow_zero, Nat.div_one,
      BitVec.ofNat_toNat, BitVec.setWidth_eq]
  · rw [setLE, if_neg (by omega), if_neg h]

theorem getLE_zero (o n : ℕ) : getLE (fun _ => 0) o n = 0 := by
  induction n generalizing o with
  | zero => rfl
  | succ n ih => rw [getLE, ih]; rfl

theorem getLE_eq_zero (h : ∀ i < n, b (o + i) = 0) : getLE b o n = 0 :=
  (getLE_congr (c := fun _ => 0) (p := 0) h).trans (getLE_zero 0 n)

theorem getLE_add (b : Buffer) (o m n : ℕ) :
    getLE b o (m + n) = getLE b o m + 256 ^ m * getLE b (o + m) n := by
  induction m generalizing o with
  | zero => rw [Nat.zero_add, getLE, Nat.pow_zero, Nat.one_mul, Nat.zero_add, Nat.add_zero]
  | succ m ih =>
    rw [Nat.succ_add, getLE, getLE, ih, Nat.pow_succ', show o + 1 + m = o + (m + 1) by
      omega, Nat.mul_add,
      Nat.mul_assoc, Nat.add_assoc]

theorem getLE_one (b : Buffer) (o : ℕ) : getLE b o 1 = (b o).toNat := by
  rw [getLE, getLE, Nat.mul_zero, Nat.add_zero]

theorem getLE_mod (b : Buffer) (o m n : ℕ) : getLE b o (m + n) % 256 ^ m = getLE b o m := by
  rw [getLE_add, Nat.add_mul_mod_self_left, Nat.mod_eq_of_lt (getLE_lt b o m)]

theorem getLE_div (b : Buffer) (o m n : ℕ) : getLE b o (m + n) / 256 ^ m = getLE b (o + m) n := by
  rw [getLE_add, Nat.add_mul_div_left _ _ (Nat.pow_pos (by decide)),
    Nat.div_eq_of_lt (getLE_lt b o m), Nat.zero_add]

/-- Replaces the `n` bytes at the offset `o` by what `g` makes of them. -/
def patch (b : Buffer) (o n : ℕ) (g : ℕ → Byte → Byte) : Buffer := fun i =>
  if o ≤ i ∧ i < o + n then g (i - o) (b i) else b i

theorem setLE_eq_patch (b : Buffer) (o n v : ℕ) :
    setLE b o n v = patch b o n fun k _ => BitVec.ofNat 8 (v / 256 ^ k) := rfl

theorem patch_patch (b : Buffer) (o m n : ℕ) (g h : ℕ → Byte → Byte) :
    patch (patch b o m g) (o + m) n h = patch b o (m + n) fun k => if k < m then g k
      else h (k - m) := by
  funext i
  simp only [patch]
  split_ifs <;> first | omega | rfl | skip
  rw [show i - (o + m) = i - o - m by omega]

theorem patch_congr {g h : ℕ → Byte → Byte} (hg : ∀ k < n, ∀ x, g k x = h k x) :
    patch b o n g = patch b o n h := by
  funext i
  simp only [patch]
  split_ifs with hi
  · exact hg _ (by omega) _
  · rfl

theorem patch_narrow {a m : ℕ} {g h : ℕ → Byte → Byte} (b : Buffer) (hm : a + n ≤ m)
    (hin : ∀ k < n, ∀ x, g (a + k) x = h k x) (hout : ∀ k < m, k < a ∨ a + n ≤ k → ∀ x, g k x = x) :
    patch b o m g = patch b (o + a) n h := by
  funext i
  by_cases hi : o + a ≤ i ∧ i < o + a + n
  · have hk := hin (i - (o + a)) (by omega) (b i)
    rw [patch, if_pos (by omega), patch, if_pos hi, ← hk, show a + (i - (o + a)) = i - o by omega]
  · rw [patch, patch, if_neg hi]
    split_ifs with hrange
    · exact hout (i - o) (by omega) (by omega) (b i)
    · rfl

theorem patch_id {g : ℕ → Byte → Byte} (b : Buffer) (h : ∀ k < n, ∀ x, g k x = x) :
    patch b o n g = b := by
  funext i
  rw [patch]
  split_ifs with hi
  · exact h _ (by omega) _
  · rfl

theorem patch_self (b : Buffer) (o n : ℕ) {i : ℕ} (g : ℕ → Byte → Byte) (hi : i < n) :
    patch b o n g (o + i) = g i (b (o + i)) := by
  rw [patch, if_pos (by omega), Nat.add_sub_cancel_left]

theorem patch_of_not_mem {i : ℕ} (g : ℕ → Byte → Byte) (h : i < o ∨ o + n ≤ i) :
    patch b o n g i = b i := by
  rw [patch, if_neg (by omega)]

theorem setLE_or (b : Buffer) (o n v : ℕ) :
    setLE b o n (getLE b o n ||| v) = patch b o n fun k x =>
      x ||| BitVec.ofNat 8 (v / 256 ^ k) := by
  rw [setLE_eq_patch]
  funext i
  simp only [patch]
  split_ifs with hi
  · obtain ⟨k, rfl⟩ := Nat.exists_eq_add_of_le hi.1
    obtain ⟨m, hm⟩ := Nat.exists_eq_add_of_lt (show k < n by omega)
    have hbyte : BitVec.ofNat 8 (getLE b o n / 256 ^ k) = b (o + k) := by
      rw [hm, Nat.add_assoc, getLE_div, getLE]
      apply BitVec.eq_of_toNat_eq
      rw [BitVec.toNat_ofNat]
      have hlt := (b (o + k)).isLt
      omega
    rw [Nat.add_sub_cancel_left, ← hbyte, ← BitVec.ofNat_or]
    congr 1
    rw [show 256 ^ k = 2 ^ (8 * k) by
      rw [Nat.pow_mul], ← Nat.shiftRight_eq_div_pow, ← Nat.shiftRight_eq_div_pow,
      ← Nat.shiftRight_eq_div_pow, Nat.shiftRight_or_distrib]
  · rfl

end DevOs.Bytes
