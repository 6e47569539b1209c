import DevOs.Pci.Ports

/-!
# Reads of configuration space

The address that the functions compute is that of the aligned double word, so a read through the
ports is a read of one or two windows. `IoPciRead16` reads two bytes of the window also where the
wanted ones are not the first two: the bytes in the upper half of the double word are lost, in all
wider reads at an offset that is not aligned.
-/

namespace DevOs.Pci

open Bytes

variable {p : Ports} {f : FunctionId} {offset n : ℕ}

theorem place_lt (f : FunctionId) : f.place + 256 ≤ 2 ^ 24 := by
  have hb := f.bus.isLt
  have hd := f.device.isLt
  have hf := f.function.isLt
  rw [FunctionId.place]
  omega

theorem place_mod (f : FunctionId) : f.place % 256 = 0 := by
  rw [FunctionId.place]
  omega

theorem addressed_eq (h : f.bus.val < 16) : f.addressed = f := by
  obtain ⟨bus, device, function⟩ := f
  simp only [FunctionId.addressed, FunctionId.mk.injEq, and_true]
  exact Fin.ext (Nat.mod_eq_of_lt h)

theorem addressed_apart (h : 16 ≤ f.bus.val) :
    f.addressed.place + 256 ≤ f.place ∨ f.place + 256 ≤ f.addressed.place := by
  have hmod : f.addressed.bus.val = f.bus.val % 16 := rfl
  have hd : f.addressed.device = f.device := rfl
  have hf : f.addressed.function = f.function := rfl
  have hlt := f.device.isLt
  have hlt' := f.function.isLt
  rw [FunctionId.place, FunctionId.place, hmod, hd, hf]
  omega

theorem or_shiftLeft {x i : ℕ} (hx : x < 2 ^ i) (y : ℕ) : x ||| y <<< i = x + y <<< i := by
  rw [Nat.or_comm, Nat.add_comm]
  exact (Nat.shiftLeft_add_eq_or_of_lt hx y).symm

theorem configAddress_eq (f : FunctionId) (h : offset < 256) :
    configAddress f offset = 2 ^ 31 + (f.addressed.place + offset) := by
  have hd := f.device.isLt
  have hf := f.function.isLt
  have hbus : (f.bus : ℕ) &&& 0xF = f.addressed.bus := Nat.and_two_pow_sub_one_eq_mod _ 4
  have hdevice : (f.device : ℕ) &&& 0x3F = f.device :=
    (Nat.and_two_pow_sub_one_eq_mod _ 6).trans (Nat.mod_eq_of_lt (by omega))
  have hfunction : (f.function : ℕ) &&& 0xF = f.function :=
    (Nat.and_two_pow_sub_one_eq_mod _ 4).trans (Nat.mod_eq_of_lt (by omega))
  have hplace := place_lt f.addressed
  simp only [configAddress, hbus, hdevice, hfunction]
  have hfield₈ : offset ||| (f.function : ℕ) <<< 8 = offset + f.function * 2 ^ 8 := by
    rw [or_shiftLeft h, Nat.shiftLeft_eq]
  have hfield₁₁ : offset + (f.function : ℕ) * 2 ^ 8 ||| (f.device : ℕ) <<< 11 =
      offset + f.function * 2 ^ 8 + f.device * 2 ^ 11 := by
    rw [@or_shiftLeft _ 11 (by omega), Nat.shiftLeft_eq]
  have hfield₁₆ : offset + (f.function : ℕ) * 2 ^ 8 + f.device * 2 ^ 11 |||
    (f.addressed.bus : ℕ) <<< 16 =
      f.addressed.place + offset := by
    rw [@or_shiftLeft _ 16 (by omega), Nat.shiftLeft_eq, FunctionId.place,
      show f.addressed.device = f.device from rfl, show f.addressed.function = f.function from rfl]
    omega
  rw [hfield₈, hfield₁₁, hfield₁₆, show 0x80000000 = 1 <<< 31 from rfl,
    ← Nat.shiftLeft_add_eq_or_of_lt (by omega), Nat.shiftLeft_eq, Nat.one_mul]

theorem configAddress_add (f : FunctionId) (h : offset + 4 < 256) :
    configAddress f offset + 4 = configAddress f (offset + 4) := by
  rw [configAddress_eq f (by omega), configAddress_eq f h]
  omega

theorem and_three (offset : ℕ) : offset &&& 3 = offset % 4 :=
  Nat.and_two_pow_sub_one_eq_mod offset 2

theorem and_aligned (h : offset < 256) : offset &&& 0xFFFC = offset / 4 * 4 := by
  have hall : ∀ o < 256, o &&& 0xFFFC = o / 4 * 4 := by decide +kernel
  exact hall offset h

theorem select_enabled (p : Ports) (f : FunctionId) (h : offset < 256) :
    (p.select (configAddress f offset)).address.testBit 31 = true := by
  have hplace := place_lt f.addressed
  rw [Nat.testBit_eq_decide_div_mod_eq, decide_eq_true_eq, configAddress_eq f h]
  change (2 ^ 31 + (f.addressed.place + offset)) % 2 ^ 32 / 2 ^ 31 % 2 = 1
  omega

theorem select_window (p : Ports) (f : FunctionId) (h : offset < 256) (haligned : offset % 4 = 0) :
    (p.select (configAddress f offset)).window = f.addressed.place + offset := by
  have hplace := place_lt f.addressed
  have hmod := place_mod f.addressed
  rw [configAddress_eq f h]
  change (2 ^ 31 + (f.addressed.place + offset)) % 2 ^ 32 % 2 ^ 24 / 4 * 4 =
    f.addressed.place + offset
  omega

theorem inData_select (p : Ports) (f : FunctionId) (h : offset < 256) (haligned : offset % 4 = 0)
    (n : ℕ) :
    (p.select (configAddress f offset)).inData n = getLE (header p.space f.addressed) offset n := by
  rw [Ports.inData, if_pos (select_enabled p f h), select_window p f h haligned]
  exact getLE_congr fun i _ => by rw [header, Nat.add_assoc]; rfl

inductive Width where
  | byte | word | dword | qword
deriving DecidableEq, Repr

def Width.bytes : Width → ℕ
  | .byte => 1
  | .word => 2
  | .dword => 4
  | .qword => 8

/-- The byte `i` of the header is in the half of a double word that the window does not show. -/
def Lost (w : Width) (offset i : ℕ) : Prop := w ≠ .byte ∧ offset % 4 ≠ 0 ∧ 2 ≤ i % 4

instance (w : Width) (offset i : ℕ) : Decidable (Lost w offset i) :=
  inferInstanceAs (Decidable (_ ∧ _ ∧ _))

def seen (w : Width) (space : Buffer) (f : FunctionId) (offset : ℕ) : Buffer := fun i =>
  if Lost w offset i then 0 else header space f.addressed i

theorem seen_of_lost {w : Width} {space : Buffer} {i : ℕ} (h : Lost w offset i) :
    seen w space f offset i = 0 :=
  if_pos h

theorem seen_of_not_lost {w : Width} {space : Buffer} {i : ℕ} (h : ¬ Lost w offset i) :
    seen w space f offset i = header space f.addressed i := if_neg h

theorem getLE_shiftRight (b : Buffer) (o : ℕ) {a n : ℕ} (h : a ≤ n) :
    getLE b o n >>> (a <<< 3) = getLE b (o + a) (n - a) := by
  obtain ⟨m, rfl⟩ := Nat.exists_eq_add_of_le h
  rw [Nat.shiftRight_eq_div_pow, Nat.shiftLeft_eq, Nat.mul_comm, Nat.pow_mul,
    show 2 ^ 2 ^ 3 = 256 from rfl, getLE_div, Nat.add_sub_cancel_left]

theorem getLE_and_byte (b : Buffer) (o : ℕ) {n : ℕ} (h : 1 ≤ n) :
    getLE b o n &&& 0xFF = getLE b o 1 := by
  obtain ⟨m, rfl⟩ := Nat.exists_eq_add_of_le h
  rw [show 0xFF = 2 ^ 8 - 1 from rfl, Nat.and_two_pow_sub_one_eq_mod]
  exact getLE_mod b o 1 m

theorem ioPciRead8_eq (p : Ports) (f : FunctionId) (h : offset < 256) :
    (ioPciRead8 p f offset).1 = getLE (header p.space f.addressed) offset 1 := by
  have haligned : offset / 4 * 4 % 4 = 0 := Nat.mul_mod_left _ _
  have hlt : offset / 4 * 4 < 256 := by omega
  have hmod : offset % 4 < 4 := Nat.mod_lt _ (by decide)
  have hoffset : offset / 4 * 4 + offset % 4 = offset := Nat.div_add_mod' offset 4
  rw [ioPciRead8, and_three, and_aligned h]
  simp only [inData_select p f hlt haligned]
  split_ifs with hadvance
  · rw [getLE_shiftRight _ _ hmod.le, hoffset, getLE_and_byte _ _ (by omega)]
  · rw [show offset / 4 * 4 = offset by omega]

theorem ioPciRead16_space (p : Ports) (f : FunctionId) (offset : ℕ) :
    (ioPciRead16 p f offset).2.space = p.space := by
  simp only [ioPciRead16]
  split_ifs <;> rfl

theorem getLE_two (b : Buffer) (o : ℕ) : getLE b o 2 = (b o).toNat + 256 * (b (o + 1)).toNat := by
  rw [getLE, getLE_one]

theorem ioPciRead16_eq (p : Ports) (f : FunctionId) (h : offset + 2 ≤ 256) :
    (ioPciRead16 p f offset).1 = getLE (seen .word p.space f offset) offset 2 := by
  have haligned : offset / 4 * 4 % 4 = 0 := Nat.mul_mod_left _ _
  have hlt : offset / 4 * 4 < 256 := by omega
  have hoffset : offset / 4 * 4 + offset % 4 = offset := Nat.div_add_mod' offset 4
  rw [ioPciRead16, and_three, and_aligned (by omega)]
  simp only [inData_select p f hlt haligned]
  rcases (show offset % 4 = 0 ∨ offset % 4 = 1 ∨ offset % 4 = 2 ∨ offset % 4 = 3 by
    omega) with ha | ha | ha | ha
  · rw [if_neg (by omega), show offset / 4 * 4 = offset by omega]
    exact getLE_congr fun i _ => (seen_of_not_lost fun hlost => hlost.2.1 ha).symm
  · have hkept : seen .word p.space f offset offset = header p.space f.addressed offset :=
      seen_of_not_lost fun hlost => absurd hlost.2.2 (by omega)
    have hlost : seen .word p.space f offset (offset + 1) = 0 :=
      seen_of_lost ⟨by decide, by omega, by omega⟩
    rw [if_pos (by omega), if_neg (by omega), getLE_shiftRight _ _ (by omega), hoffset, getLE_two,
      hkept, hlost, ha, getLE_one,
      show 0xFFFF = 2 ^ 16 - 1 from rfl, Nat.and_two_pow_sub_one_eq_mod]
    exact Nat.mod_eq_of_lt (Nat.lt_trans (BitVec.isLt _) (by decide))
  · have hlow : seen .word p.space f offset offset = 0 :=
      seen_of_lost ⟨by decide, by omega, by omega⟩
    have hhigh : seen .word p.space f offset (offset + 1) = 0 :=
      seen_of_lost ⟨by decide, by omega, by omega⟩
    rw [if_pos (by omega), if_neg (by omega), getLE_shiftRight _ _ (by omega), getLE_two, hlow,
      hhigh, ha, Nat.sub_self, getLE, Nat.zero_and]
    rfl
  · have hlost : seen .word p.space f offset offset = 0 :=
      seen_of_lost ⟨by decide, by omega, by omega⟩
    have hkept : seen .word p.space f offset (offset + 1) =
        header p.space f.addressed (offset + 1) :=
      seen_of_not_lost fun hlost => absurd hlost.2.2 (by omega)
    have hnext : offset / 4 * 4 + 4 = offset + 1 := by omega
    have hfirst : getLE (header p.space f.addressed) (offset / 4 * 4) 2 >>> ((offset % 4) <<< 3) =
        0 := by
      have hword := getLE_lt (header p.space f.addressed) (offset / 4 * 4) 2
      rw [ha, Nat.shiftRight_eq_div_pow, show 3 <<< 3 = 24 from rfl]
      exact Nat.div_eq_of_lt (by omega)
    have hbyte := (header p.space f.addressed (offset + 1)).isLt
    rw [if_pos (by omega), if_pos ha, configAddress_add f (by omega),
      inData_select _ f (by omega) (by omega), hfirst, hnext, getLE_two, hlost, hkept, Ports.select,
      getLE_one,
      Nat.zero_and, Nat.zero_or, Nat.shiftLeft_eq]
    change _ = 0 + _
    rw [Nat.zero_add, Nat.mul_comm]
    exact Nat.mod_eq_of_lt (by omega)

theorem ioPciRead32_space (p : Ports) (f : FunctionId) (offset : ℕ) :
    (ioPciRead32 p f offset).2.space = p.space := by
  rw [ioPciRead32]
  split_ifs
  · exact (ioPciRead16_space _ f _).trans (ioPciRead16_space p f offset)
  · rfl

theorem or_halves (b : Buffer) (o : ℕ) (m n : ℕ) :
    getLE b o m ||| getLE b (o + m) n <<< (8 * m) = getLE b o (m + n) := by
  have hlow : getLE b o m < 2 ^ (8 * m) := by
    rw [Nat.pow_mul]
    exact getLE_lt b o m
  rw [or_shiftLeft hlow, getLE_add, Nat.shiftLeft_eq, Nat.pow_mul, Nat.mul_comm (getLE b (o + m) n)]

/-- A read at an offset further on that is aligned the same way up to a half, as a part of a wider
one. -/
theorem getLE_seen {w w' : Width} {space : Buffer} {o m : ℕ} (hw : w ≠ .byte) (hw' : w' ≠ .byte)
    (h : ∀ i < m, 2 ≤ (o + i) % 4 → (o % 4 ≠ 0 ↔ offset % 4 ≠ 0)) :
    getLE (seen w space f o) o m = getLE (seen w' space f offset) o m := by
  apply getLE_congr
  intro i hi
  have hiff : Lost w o (o + i) ↔ Lost w' offset (o + i) := by
    constructor
    · rintro ⟨-, ho, hhalf⟩
      exact ⟨hw', (h i hi hhalf).mp ho, hhalf⟩
    · rintro ⟨-, ho, hhalf⟩
      exact ⟨hw, (h i hi hhalf).mpr ho, hhalf⟩
  simp only [seen, hiff]

theorem ioPciRead32_eq (p : Ports) (f : FunctionId) (h : offset + 4 ≤ 256) :
    (ioPciRead32 p f offset).1 = getLE (seen .dword p.space f offset) offset 4 := by
  rw [ioPciRead32, and_three]
  split_ifs with hadvance
  · have hmod : (offset + 2) % 2 ^ 16 = offset + 2 := Nat.mod_eq_of_lt (by omega)
    dsimp only
    rw [hmod, ioPciRead16_eq _ f (by omega), ioPciRead16_eq _ f (by omega), ioPciRead16_space,
      @getLE_seen f offset .word .dword _ offset 2 (by decide) (by decide) (fun _ _ _ => Iff.rfl),
      @getLE_seen f offset .word .dword _ (offset + 2) 2 (by decide) (by
        decide) (fun i hi hhalf => by omega)]
    exact or_halves _ offset 2 2
  · dsimp only
    rw [inData_select p f (by omega) (by omega)]
    exact getLE_congr fun i _ => (seen_of_not_lost fun hlost => hlost.2.1 (by omega)).symm

/-- The reads through the ports. A quad word is read by `PciDeviceConfigurationRead64`. -/
def portRead : Width → Ports → FunctionId → ℕ → ℕ
  | .byte, p, f, offset => (ioPciRead8 p f offset).1
  | .word, p, f, offset => (ioPciRead16 p f offset).1
  | .dword, p, f, offset => (ioPciRead32 p f offset).1
  | .qword, p, f, offset => (pciDeviceConfigurationRead64 p ⟨1, f⟩ offset).1

def deviceRead : Width → Ports → DeviceObject → ℕ → ℕ
  | .byte, p, d, offset => (pciDeviceConfigurationRead8 p d offset).1
  | .word, p, d, offset => (pciDeviceConfigurationRead16 p d offset).1
  | .dword, p, d, offset => (pciDeviceConfigurationRead32 p d offset).1
  | .qword, p, d, offset => (pciDeviceConfigurationRead64 p d offset).1

theorem portRead_eq (w : Width) (p : Ports) (f : FunctionId) (h : offset + w.bytes ≤ 256) :
    portRead w p f offset = getLE (seen w p.space f offset) offset w.bytes := by
  cases w with
  | byte =>
    exact (ioPciRead8_eq p f h).trans
      (getLE_congr fun i _ => (seen_of_not_lost fun hlost => hlost.1 rfl).symm)
  | word => exact ioPciRead16_eq p f h
  | dword => exact ioPciRead32_eq p f h
  | qword =>
    have hbytes : offset + 8 ≤ 256 := h
    have hmod : (offset + 4) % 2 ^ 16 = offset + 4 := Nat.mod_eq_of_lt (by omega)
    rw [portRead, pciDeviceConfigurationRead64, if_neg Nat.one_ne_zero]
    dsimp only
    rw [hmod, ioPciRead32_eq _ f (by omega), ioPciRead32_eq _ f (by omega), ioPciRead32_space,
      @getLE_seen f offset .dword .qword _ offset 4 (by decide) (by decide) (fun _ _ _ => Iff.rfl),
      @getLE_seen f offset .dword .qword _ (offset + 4) 4 (by decide) (by
        decide) (fun i hi hhalf => by omega)]
    exact or_halves _ offset 4 4

theorem deviceRead_port (w : Width) (p : Ports) {d : DeviceObject} (h : d.pciAccessType ≠ 0)
    (offset : ℕ) :
    deviceRead w p d offset = portRead w p d.location offset := by
  cases w with
  | byte => rw [deviceRead, pciDeviceConfigurationRead8, if_neg h, portRead]
  | word => rw [deviceRead, pciDeviceConfigurationRead16, if_neg h, portRead]
  | dword => rw [deviceRead, pciDeviceConfigurationRead32, if_neg h, portRead]
  | qword =>
    rw [deviceRead, portRead, pciDeviceConfigurationRead64, if_neg h, pciDeviceConfigurationRead64,
      if_neg Nat.one_ne_zero]

theorem deviceRead_mapped (w : Width) (p : Ports) {d : DeviceObject} (h : d.pciAccessType = 0)
    (offset : ℕ) :
    deviceRead w p d offset = getLE (header p.space d.location) offset w.bytes := by
  cases w with
  | byte => rw [deviceRead, pciDeviceConfigurationRead8, if_pos h, Width.bytes]
  | word => rw [deviceRead, pciDeviceConfigurationRead16, if_pos h, Width.bytes]
  | dword => rw [deviceRead, pciDeviceConfigurationRead32, if_pos h, Width.bytes]
  | qword => rw [deviceRead, pciDeviceConfigurationRead64, if_pos h, Width.bytes]

/-- A read through the ports gives the number in the header, as a read where the header is mapped
does. -/
structure ReadsAgree (w : Width) (p : Ports) (f : FunctionId) (offset : ℕ) : Prop where
  value : portRead w p f offset = getLE (header p.space f) offset w.bytes
  mapped : ∀ d : DeviceObject, d.location = f → d.pciAccessType ≠ 0 →
    deviceRead w p d offset = deviceRead w p { d with pciAccessType := 0 } offset

/-- Each byte is zero where it is lost, and otherwise is the same in the header that is
addressed. -/
def SeesAll (w : Width) (p : Ports) (f : FunctionId) (offset : ℕ) : Prop :=
  ∀ i < w.bytes, if Lost w offset (offset + i) then header p.space f (offset + i) = 0
    else header p.space f.addressed (offset + i) = header p.space f (offset + i)

instance (w : Width) (p : Ports) (f : FunctionId) (offset : ℕ) : Decidable (SeesAll w p f offset) :=
  inferInstanceAs (Decidable (∀ i < w.bytes, _))

theorem readsAgree_iff_seesAll {w : Width} (h : offset + w.bytes ≤ 256) :
    ReadsAgree w p f offset ↔ SeesAll w p f offset := by
  have hvalue : portRead w p f offset = getLE (header p.space f) offset w.bytes ↔
      SeesAll w p f offset := by
    rw [portRead_eq w p f h]
    constructor
    · intro heq i hi
      have hbyte := byte_eq_of_getLE_eq heq i hi
      split_ifs with hlost
      · rw [← hbyte, seen_of_lost hlost]
      · rw [← hbyte, seen_of_not_lost hlost]
    · intro hsees
      apply getLE_congr
      intro i hi
      have hbyte := hsees i hi
      split_ifs at hbyte with hlost
      · rw [seen_of_lost hlost, hbyte]
      · rw [seen_of_not_lost hlost, hbyte]
  rw [← hvalue]
  constructor
  · exact ReadsAgree.value
  · intro heq
    refine ⟨heq, ?_⟩
    rintro d rfl htype
    rw [deviceRead_port w p htype, heq, deviceRead_mapped w p rfl]

/-- An offset that is not aligned loses a byte of every read but that of one byte. -/
theorem exists_lost {w : Width} (hw : w ≠ .byte) (h : offset % 4 ≠ 0) :
    ∃ i < w.bytes, Lost w offset (offset + i) := by
  have hbytes : 2 ≤ w.bytes := by
    cases w with
    | byte => exact absurd rfl hw
    | word => exact Nat.le_refl 2
    | dword => decide
    | qword => decide
  by_cases hone : offset % 4 = 1
  · exact ⟨1, by omega, hw, h, by omega⟩
  · exact ⟨0, by omega, hw, h, by omega⟩

theorem seesAll_iff {w : Width} (h : offset + w.bytes ≤ 256) :
    (∀ p, SeesAll w p f offset) ↔ f.bus.val < 16 ∧ (w = .byte ∨ offset % 4 = 0) := by
  have hpos : 0 < w.bytes := by cases w <;> decide
  constructor
  · intro hall
    constructor
    · by_contra hbus
      have hapart := @addressed_apart f (by omega)
      have hfirst := hall ⟨0, fun i => if i = f.place + offset then 1 else 0⟩ 0 hpos
      simp only [header, Nat.add_zero, if_true] at hfirst
      rw [if_neg (show f.addressed.place + offset ≠ f.place + offset by omega)] at hfirst
      split_ifs at hfirst
      · exact absurd hfirst (by decide)
      · exact absurd hfirst (by decide)
    · by_contra hlost
      rw [not_or] at hlost
      obtain ⟨i, hi, hbyte⟩ := exists_lost hlost.1 hlost.2
      have hones := hall ⟨0, fun _ => 1⟩ i hi
      rw [if_pos hbyte, header] at hones
      cases hones
  · rintro ⟨hbus, hw⟩ p i hi
    have hkept : ¬ Lost w offset (offset + i) := by
      rintro ⟨hbyte, hoffset, -⟩
      exact hw.elim hbyte hoffset
    rw [if_neg hkept, addressed_eq hbus]

/-- A read agrees exactly when the bytes that it loses are zero and the others are those of the bus
that is addressed. It does for all contents exactly on the first 16 buses, at aligned offsets or for
one byte. -/
theorem readsAgree_iff (w : Width) (p : Ports) (f : FunctionId) (offset : ℕ)
    (h : offset + w.bytes ≤ 256) :
    (ReadsAgree w p f offset ↔ SeesAll w p f offset) ∧
      ((∀ p, ReadsAgree w p f offset) ↔ f.bus.val < 16 ∧ (w = .byte ∨ offset % 4 = 0)) := by
  refine ⟨readsAgree_iff_seesAll h, ?_⟩
  rw [← seesAll_iff h]
  exact forall_congr' fun p => readsAgree_iff_seesAll h

theorem readsAgree_aligned : ReadsAgree .word ⟨0, fun i => BitVec.ofNat 8 i⟩ ⟨3, 0, 0⟩ 4 :=
  ((readsAgree_iff .word ⟨0, fun i => BitVec.ofNat 8 i⟩ ⟨3, 0, 0⟩ 4 (by decide)).1.mpr (by decide))

/-- The number `0x1234` at the offset 6 of the first function is read as zero. -/
theorem read_status_lost : portRead .word ⟨0, setLE (fun _ => 0) 6 2 0x1234⟩ ⟨0, 0, 0⟩ 6 = 0 ∧
    getLE (header (setLE (fun _ => 0) 6 2 0x1234) ⟨0, 0, 0⟩) 6 2 = 0x1234 ∧
    ¬ ReadsAgree .word ⟨0, setLE (fun _ => 0) 6 2 0x1234⟩ ⟨0, 0, 0⟩ 6 := by
  have hread : portRead .word ⟨0, setLE (fun _ => 0) 6 2 0x1234⟩ ⟨0, 0, 0⟩ 6 = 0 := by decide
  have hvalue : getLE (header (setLE (fun _ => 0) 6 2 0x1234) ⟨0, 0, 0⟩) 6 2 = 0x1234 := by decide
  refine ⟨hread, hvalue, fun h => ?_⟩
  have hsame := h.value.symm.trans hread
  exact absurd (hvalue.symm.trans hsame) (by decide)

end DevOs.Pci
