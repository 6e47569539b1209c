import DevOs.Aml.Model

/-!
# Package lengths

The lead byte of a package length says in its two highest bits how many bytes follow it. Alone it
holds a length below 64; with following bytes it holds the lowest four bits, and the following bytes
hold the others, the lowest byte first. `AmlReadPkgLength` and the two decoders in `AcpiReadDsdt`
read the same lengths.
-/

namespace DevOs.Aml

open Bytes

variable {b : Buffer} {o n v : ℕ}

/-- The `n` bytes at `o` are a package length of the value `v`. -/
inductive PkgLengthAt (b : Buffer) (o : ℕ) : ℕ → ℕ → Prop
  | short (h : (b o).toNat < 64) : PkgLengthAt b o 1 (b o).toNat
  | long {following low : ℕ} (hpos : 0 < following) (hle : following ≤ 3) (hlow : low < 16)
      (h : (b o).toNat = 64 * following + low) :
      PkgLengthAt b o (1 + following) (low + 16 * getLE b (o + 1) following)

theorem followingBytes_eq (b : Buffer) (o : ℕ) : followingBytes b o = (b o).toNat / 64 := by
  have hlt := (b o).isLt
  rw [followingBytes, pkgLeadByte, BitVec.extractLsb'_toNat, Nat.shiftRight_eq_div_pow]
  omega

theorem followingBytes_le (b : Buffer) (o : ℕ) : followingBytes b o ≤ 3 := by
  have hlt := (b o).isLt
  rw [followingBytes_eq]
  omega

theorem leadLength_toNat (b : Buffer) (o : ℕ) : (leadLength b o).toNat = (b o).toNat % 16 := by
  rw [leadLength, pkgLeadByte, BitVec.toNat_and, BitVec.toNat_setWidth, BitVec.extractLsb'_toNat]
  have hmask : (0xF : BitVec 32).toNat = 2 ^ 4 - 1 := rfl
  rw [hmask, Nat.and_two_pow_sub_one_eq_mod, Nat.shiftRight_zero]
  omega

theorem shortLength_toNat (b : Buffer) (o : ℕ) : (shortLength b o).toNat = (b o).toNat % 64 := by
  have hlow : (leadLength b o).toNat < 2 ^ 4 := by
    rw [leadLength_toNat]
    omega
  rw [shortLength, BitVec.toNat_or, BitVec.toNat_shiftLeft, pkgLeadByte, BitVec.toNat_setWidth,
    BitVec.extractLsb'_toNat, Nat.shiftRight_eq_div_pow, Nat.shiftLeft_eq]
  have hmod : (b o).toNat / 2 ^ 4 % 2 ^ 2 % 2 ^ 32 * 2 ^ 4 % 2 ^ 32 =
    2 ^ 4 * ((b o).toNat / 16 % 4) := by omega
  rw [hmod, Nat.or_comm, ← Nat.two_pow_add_eq_or_of_lt hlow, leadLength_toNat]
  omega

theorem shiftedByte_toNat (c : Byte) {bitOff : ℕ} (h : bitOff + 8 ≤ 32) :
    (shiftedByte c bitOff).toNat = 2 ^ bitOff * c.toNat := by
  have hlt := c.isLt
  have hmask : (c.signExtend 32 &&& 0xFF).toNat = c.toNat := by
    have hext : c.signExtend 32 &&& 0xFF = c.setWidth 32 := by
      refine BitVec.eq_of_getLsbD_eq fun i hi => ?_
      rw [BitVec.getLsbD_and, BitVec.getLsbD_signExtend, BitVec.getLsbD_setWidth,
        show (0xFF : BitVec 32) = (BitVec.allOnes 8).setWidth 32 from rfl, BitVec.getLsbD_setWidth,
        BitVec.getLsbD_allOnes]
      by_cases hi8 : i < 8
      · simp [hi8, hi]
      · simp [hi8, hi, BitVec.getLsbD_of_ge c i (by omega)]
    rw [hext, BitVec.toNat_setWidth]
    omega
  have hpow : 2 ^ bitOff * c.toNat < 2 ^ 32 := by
    calc
      2 ^ bitOff * c.toNat < 2 ^ bitOff * 2 ^ 8 :=
        Nat.mul_lt_mul_of_pos_left hlt (Nat.two_pow_pos _)
      _ = 2 ^ (bitOff + 8) := (Nat.pow_add ..).symm
      _ ≤ 2 ^ 32 := Nat.pow_le_pow_right (by decide) h
  rw [shiftedByte, BitVec.toNat_shiftLeft, hmask, Nat.shiftLeft_eq, Nat.mul_comm,
    Nat.mod_eq_of_lt hpow]

theorem or_shiftedByte_toNat {x : BitVec 32} (c : Byte) {bitOff : ℕ} (hx : x.toNat < 2 ^ bitOff)
    (h : bitOff + 8 ≤ 32) :
    (x ||| shiftedByte c bitOff).toNat = x.toNat + 2 ^ bitOff * c.toNat := by
  rw [BitVec.toNat_or, shiftedByte_toNat c h, Nat.or_comm, ← Nat.two_pow_add_eq_or_of_lt hx,
    Nat.add_comm]

theorem orFollowing_toNat (b : Buffer) (aml n c bitOff : ℕ) (x : BitVec 32)
    (hx : x.toNat < 2 ^ bitOff) (h : bitOff + 8 * n ≤ 32) :
    (orFollowing b aml n c bitOff x).toNat = x.toNat + 2 ^ bitOff * getLE b (aml + c) n := by
  induction n generalizing c bitOff x with
  | zero => rfl
  | succ n ih =>
    have hor := or_shiftedByte_toNat (b (aml + c)) hx (show bitOff + 8 ≤ 32 by omega)
    have hbyte := (b (aml + c)).isLt
    have hlt : (x ||| shiftedByte (b (aml + c)) bitOff).toNat < 2 ^ (bitOff + 8) := by
      rw [hor, Nat.pow_add]
      calc x.toNat + 2 ^ bitOff * (b (aml + c)).toNat < 2 ^ bitOff + 2 ^ bitOff * (b
        (aml + c)).toNat := by omega
        _ = 2 ^ bitOff * ((b (aml + c)).toNat + 1) := by rw [Nat.mul_succ, Nat.add_comm]
        _ ≤ 2 ^ bitOff * 2 ^ 8 := Nat.mul_le_mul_left _ hbyte
    rw [orFollowing, ih (c + 1) (bitOff + 8) _ hlt (by omega), hor, getLE, Nat.pow_add,
      Nat.mul_add (2 ^ bitOff), ← Nat.mul_assoc, Nat.add_assoc x.toNat]
    rfl

def pkgLengthValue (b : Buffer) (o : ℕ) : ℕ :=
  if (b o).toNat < 64 then (b o).toNat
    else (b o).toNat % 16 + 16 * getLE b (o + 1) ((b o).toNat / 64)

theorem amlReadPkgLength_eq (b : Buffer) (o : ℕ) :
    (amlReadPkgLength b o).1.toNat = pkgLengthValue b o ∧
    (amlReadPkgLength b o).2 = 1 + (b o).toNat / 64 := by
  have hle := followingBytes_le b o
  refine ⟨?_, by rw [amlReadPkgLength, followingBytes_eq]⟩
  rw [amlReadPkgLength, pkgLengthValue]
  by_cases h : (b o).toNat < 64
  · have hzero : followingBytes b o = 0 := by
      rw [followingBytes_eq]
      omega
    simp only [hzero, if_true, if_pos h]
    rw [shortLength_toNat, Nat.mod_eq_of_lt h]
  · have hne : followingBytes b o ≠ 0 := by
      rw [followingBytes_eq]
      omega
    have hlead : (leadLength b o).toNat < 2 ^ 4 := by
      rw [leadLength_toNat]
      omega
    simp only [if_neg hne, if_neg h]
    rw [orFollowing_toNat b _ _ 0 4 _ hlead (by omega), leadLength_toNat, followingBytes_eq]
    rfl

theorem scopePkgLength_eq (b : Buffer) (o : ℕ) :
    scopePkgLength b (o + 1) = (amlReadPkgLength b o).1 := rfl

theorem methodPkgLength_eq (b : Buffer) (o : ℕ) :
    methodPkgLength b (o + 1) = (amlReadPkgLength b o).1 := by
  have hle := followingBytes_le b o
  rw [methodPkgLength, amlReadPkgLength, Nat.add_sub_cancel]
  obtain h | h | h | h : followingBytes b o = 0 ∨ followingBytes b o = 1 ∨ followingBytes b o = 2 ∨
      followingBytes b o = 3 := by omega
  · simp [h]
  · simp [h, orFollowing]
  · simp [h, orFollowing, BitVec.or_assoc]
  · simp [h, orFollowing, BitVec.or_assoc]

theorem PkgLengthAt.value (h : PkgLengthAt b o n v) :
    v = pkgLengthValue b o ∧ n = 1 + (b o).toNat / 64 := by
  rw [pkgLengthValue]
  cases h with
  | short h => exact ⟨(if_pos h).symm, by omega⟩
  | @long following low hpos hle hlow h =>
    rw [if_neg (by omega), h]
    have hdiv : (64 * following + low) / 64 = following := by omega
    have hmod : (64 * following + low) % 16 = low := by omega
    rw [hdiv, hmod]
    exact ⟨rfl, rfl⟩

theorem exists_pkgLengthAt (o : ℕ) (hv : v < 2 ^ 28) : ∃ b n, PkgLengthAt b o n v := by
  let b : Buffer := setLE (setLE (fun _ => 0) o 1 (64 * 3 + v % 16)) (o + 1) 3 (v / 16)
  have hlead : (b o).toNat = 64 * 3 + v % 16 := by
    rw [← getLE_one, getLE_setLE_of_disjoint _ (.inl (by omega)), getLE_setLE_self]
    omega
  have hrest : getLE b (o + 1) 3 = v / 16 := by
    rw [getLE_setLE_self]
    omega
  have h := PkgLengthAt.long (b := b) (by decide) le_rfl (Nat.mod_lt v (by decide)) hlead
  rw [hrest, Nat.mod_add_div] at h
  exact ⟨b, _, h⟩

/-- Legal lengths are read with their values and their numbers of bytes, all lengths below `2 ^ 28`
have legal encodings, and the three decoders agree on all bytes. -/
theorem amlReadPkgLength_right (o : ℕ) :
    (∀ b n v, PkgLengthAt b o n v → (amlReadPkgLength b o).1.toNat = v ∧
      (amlReadPkgLength b o).2 = n) ∧
    (∀ v < 2 ^ 28, ∃ b n, PkgLengthAt b o n v ∧ (amlReadPkgLength b o).1.toNat = v) ∧
    ∀ b, scopePkgLength b (o + 1) = (amlReadPkgLength b o).1 ∧
      methodPkgLength b (o + 1) = (amlReadPkgLength b o).1 := by
  have hread : ∀ b n v, PkgLengthAt b o n v →
      (amlReadPkgLength b o).1.toNat = v ∧ (amlReadPkgLength b o).2 = n := by
    intro b n v h
    obtain ⟨hv, hn⟩ := h.value
    rw [hv, hn]
    exact amlReadPkgLength_eq b o
  refine ⟨hread, fun v hv => ?_, fun b => ⟨scopePkgLength_eq b o, methodPkgLength_eq b o⟩⟩
  obtain ⟨b, n, h⟩ := exists_pkgLengthAt o hv
  exact ⟨b, n, h, (hread b n v h).1⟩

end DevOs.Aml
