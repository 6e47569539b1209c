import Mathlib.Algebra.Order.Ring.Nat
import Mathlib.Tactic.Common

/-!
# Bit fields of numbers

A field is the run of `width` bits from the bit `pos` on. Assigning a field keeps the other ones.
-/

namespace DevOs.Fields

def field (pos width w : ℕ) : ℕ := w / 2 ^ pos % 2 ^ width

/-- The number with the field set to `v`, of which only the low `width` bits are kept. -/
def setField (pos width v w : ℕ) : ℕ :=
  (w / 2 ^ (pos + width) * 2 ^ width + v % 2 ^ width) * 2 ^ pos + w % 2 ^ pos

variable {pos width v w q m k : ℕ}

theorem field_zero (pos width : ℕ) : field pos width 0 = 0 := by
  rw [field, Nat.zero_div, Nat.zero_mod]

theorem setField_div (pos width v w : ℕ) :
    setField pos width v w / 2 ^ pos = w / 2 ^ (pos + width) * 2 ^ width + v % 2 ^ width := by
  rw [setField, Nat.add_comm, Nat.add_mul_div_right _ _ (Nat.two_pow_pos pos),
    Nat.div_eq_of_lt (Nat.mod_lt _ (Nat.two_pow_pos pos)), Nat.zero_add]

theorem field_setField_self (pos width v w : ℕ) :
    field pos width (setField pos width v w) = v % 2 ^ width := by
  rw [field, setField_div, Nat.add_comm, Nat.add_mul_mod_self_right, Nat.mod_mod]

theorem setField_div_above (pos width v w : ℕ) :
    setField pos width v w / 2 ^ (pos + width) = w / 2 ^ (pos + width) := by
  have hlt := Nat.mod_lt v (Nat.two_pow_pos width)
  rw [Nat.pow_add, ← Nat.div_div_eq_div_mul, setField_div, Nat.add_comm,
    Nat.add_mul_div_right _ _ (Nat.two_pow_pos width), Nat.div_eq_of_lt hlt, Nat.zero_add,
    Nat.pow_add]

theorem field_setField_of_le (h : pos + width ≤ q) :
    field q m (setField pos width v w) = field q m w := by
  have hq : 2 ^ q = 2 ^ (pos + width) * 2 ^ (q - (pos + width)) := by
    rw [← Nat.pow_add, Nat.add_sub_cancel' h]
  rw [field, field, hq, ← Nat.div_div_eq_div_mul, setField_div_above, Nat.div_div_eq_div_mul]

theorem field_setField_of_ge (h : q + m ≤ pos) :
    field q m (setField pos width v w) = field q m w := by
  have hdvd : 2 ^ (q + m) ∣ 2 ^ pos := Nat.pow_dvd_pow 2 h
  have hlow : setField pos width v w % 2 ^ (q + m) = w % 2 ^ (q + m) := by
    rw [setField, Nat.add_mod, Nat.mod_eq_zero_of_dvd (Nat.dvd_mul_left_of_dvd hdvd _),
      Nat.zero_add, Nat.mod_mod, Nat.mod_mod_of_dvd _ hdvd]
  rw [field, field, ← Nat.mod_mul_right_div_self, ← Nat.mod_mul_right_div_self, ← Nat.pow_add, hlow]

theorem setField_lt (hw : w < 2 ^ k) (h : pos + width ≤ k) : setField pos width v w < 2 ^ k := by
  have hk : 2 ^ k = 2 ^ (k - (pos + width)) * 2 ^ (pos + width) := by
    rw [← Nat.pow_add, Nat.sub_add_cancel h]
  rw [hk] at hw ⊢
  rw [← Nat.div_lt_iff_lt_mul (Nat.two_pow_pos _)] at hw ⊢
  rwa [setField_div_above]

end DevOs.Fields
