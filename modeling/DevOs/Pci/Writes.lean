import DevOs.Pci.Reads

/-!
# Writes of configuration space

A write at an offset that is not aligned reads the double word, sets the bits of the value in it and
writes it back: bits that are set stay set. `IoPciWrite16` shifts the value by too much for the byte
that belongs to the next double word, which is not changed at all.
-/

namespace DevOs.Pci

open Bytes

variable {p : Ports} {f : FunctionId} {offset value n : ℕ}

/-- The byte `k` of a number. -/
def byteOf (value k : ℕ) : Byte := BitVec.ofNat 8 (value / 256 ^ k)

/-- The byte `k` behind the offset is written whole. -/
def Whole (offset k : ℕ) : Prop := offset % 4 = 0 ∨ offset % 4 = 2 ∧ 2 ≤ k % 4

instance (offset k : ℕ) : Decidable (Whole offset k) := inferInstanceAs (Decidable (_ ∨ _))

/-- What a write at the offset makes of the byte `k` behind it. -/
def merged (offset value k : ℕ) (old : Byte) : Byte :=
  if Whole offset k then byteOf value k
  else if (offset + k) % 4 = 0 then old
  else old ||| byteOf value k

theorem outData_select (p : Ports) (f : FunctionId) (h : offset < 256) (haligned : offset % 4 = 0)
    (n v : ℕ) :
    ((p.select (configAddress f offset)).outData n v).space =
      setLE p.space (f.addressed.place + offset) n v := by
  rw [Ports.outData, if_pos (select_enabled p f h), select_window p f h haligned]
  rfl

theorem inData_select' (p : Ports) (f : FunctionId) (h : offset < 256) (haligned : offset % 4 = 0)
    (n : ℕ) :
    (p.select (configAddress f offset)).inData n =
      getLE p.space (f.addressed.place + offset) n := by
  rw [Ports.inData, if_pos (select_enabled p f h), select_window p f h haligned]
  rfl

theorem byteOf_of_lt {v k : ℕ} (h : v < 256 ^ k) : byteOf v k = 0 := by
  rw [byteOf, Nat.div_eq_of_lt h]
  rfl

theorem byteOf_shiftLeft (v a : ℕ) {k : ℕ} (hk : k < 4) :
    byteOf (v <<< (a <<< 3) % 2 ^ 32) k = if k < a then 0 else byteOf v (k - a) := by
  obtain ⟨m, hm⟩ := Nat.exists_eq_add_of_lt hk
  have hdword : 2 ^ 32 = 256 ^ k * (256 * 256 ^ m) := by
    rw [← Nat.pow_succ', ← Nat.pow_add, show k + (m + 1) = 4 by omega]
    decide
  have hshift : v <<< (a <<< 3) = v * 256 ^ a := by
    rw [Nat.shiftLeft_eq, Nat.shiftLeft_eq, Nat.mul_comm a, Nat.pow_mul]
  have hmod : byteOf (v <<< (a <<< 3) % 2 ^ 32) k = byteOf (v * 256 ^ a) k := by
    apply BitVec.eq_of_toNat_eq
    rw [byteOf, byteOf, BitVec.toNat_ofNat, BitVec.toNat_ofNat, hshift, hdword,
      Nat.mod_mul_right_div_self]
    exact Nat.mod_mul_right_mod _ 256 _
  rw [hmod, byteOf]
  split_ifs with hlt
  · obtain ⟨j, rfl⟩ := Nat.exists_eq_add_of_lt hlt
    have hquot : v * 256 ^ (k + j + 1) / 256 ^ k = v * 256 ^ j * 256 := by
      rw [Nat.add_assoc, Nat.pow_add, Nat.mul_left_comm,
        Nat.mul_div_cancel_left _ (Nat.pow_pos (by decide)), Nat.pow_succ, Nat.mul_assoc]
    apply BitVec.eq_of_toNat_eq
    rw [hquot, BitVec.toNat_ofNat]
    exact Nat.mul_mod_left _ 256
  · obtain ⟨j, rfl⟩ := Nat.exists_eq_add_of_le (Nat.not_lt.mp hlt)
    rw [Nat.add_sub_cancel_left, byteOf, Nat.pow_add, Nat.mul_comm,
      Nat.mul_div_mul_left _ _ (Nat.pow_pos (by decide))]

theorem byteOf_zero (k : ℕ) : byteOf 0 k = 0 := by
  rw [byteOf, Nat.zero_div]
  rfl

theorem readModifyWrite (p : Ports) (f : FunctionId) (h : offset < 256) (haligned : offset % 4 = 0)
    (v : ℕ) :
    let q := p.select (configAddress f offset)
    (q.outData 4 (q.inData 4 ||| v)).space =
      patch p.space (f.addressed.place + offset) 4 fun k x => x ||| byteOf v k := by
  dsimp only
  rw [outData_select p f h haligned, inData_select' p f h haligned, setLE_or]
  rfl

theorem and_aligned_byte (h : offset < 256) : offset &&& 0xFFFC &&& 0xFF = offset / 4 * 4 := by
  rw [and_aligned h, show 0xFF = 2 ^ 8 - 1 from rfl, Nat.and_two_pow_sub_one_eq_mod]
  exact Nat.mod_eq_of_lt (by omega)

/-- The part of an unaligned write that falls into the first double word: its first `m` bytes. -/
theorem readModifyWrite_shifted (p : Ports) (f : FunctionId) (h : offset < 256) {m : ℕ} (v : ℕ)
    (hm : offset % 4 + m ≤ 4) (hv : ∀ k, m ≤ k → k + offset % 4 < 4 → byteOf v k = 0) :
    let q := p.select (configAddress f (offset / 4 * 4))
    (q.outData 4 (q.inData 4 ||| v <<< ((offset % 4) <<< 3) % 2 ^ 32)).space =
      patch p.space (f.addressed.place + offset) m fun k x => x ||| byteOf v k := by
  have hplace : f.addressed.place + offset = f.addressed.place + offset / 4 * 4 + offset % 4 := by
    omega
  dsimp only
  rw [readModifyWrite p f (by omega) (Nat.mul_mod_left _ _), hplace]
  apply patch_narrow _ hm
  · intro k hk x
    rw [byteOf_shiftLeft _ _ (by omega), if_neg (by omega), Nat.add_sub_cancel_left]
  · intro k hk hend x
    rw [byteOf_shiftLeft _ _ hk]
    split_ifs with hlt
    · exact BitVec.or_zero
    · rw [hv (k - offset % 4) (by omega) (by omega)]
      exact BitVec.or_zero

theorem setLE_eq_merged (b : Buffer) (o n v : ℕ) (h : offset % 4 = 0) :
    setLE b o n v = patch b o n (merged offset v) := by
  rw [setLE_eq_patch]
  apply patch_congr
  intro k hk x
  have hwhole : Whole offset k := Or.inl h
  rw [merged, if_pos hwhole, byteOf]

theorem ioPciWrite8_eq (p : Ports) (f : FunctionId) (h : offset < 256) (hv : value < 2 ^ 8) :
    (ioPciWrite8 p f value offset).space =
      patch p.space (f.addressed.place + offset) 1 (merged offset value) := by
  rw [ioPciWrite8, and_three, and_aligned_byte h]
  split_ifs with haligned
  · rw [outData_select p f (by omega) (Nat.mul_mod_left _ _), show offset / 4 * 4 = offset by omega,
      setLE_eq_merged _ _ _ _ haligned]
  · rw [readModifyWrite_shifted p f h value (show _ + 1 ≤ 4 by omega)]
    · apply patch_congr
      intro k hk x
      rw [merged, if_neg (by rw [Whole]; omega), if_neg (by omega)]
    · intro k hk _
      exact byteOf_of_lt (Nat.lt_of_lt_of_le hv (Nat.pow_le_pow_right (show 0 < 256 by decide) hk))

theorem ioPciWrite16_eq (p : Ports) (f : FunctionId) (h : offset + 2 ≤ 256) (hv : value < 2 ^ 16) :
    (ioPciWrite16 p f value offset).space =
      patch p.space (f.addressed.place + offset) 2 (merged offset value) := by
  have hshift : value >>> 16 = 0 := Nat.shiftRight_eq_zero value 16 hv
  rw [ioPciWrite16, and_three, and_aligned_byte (by omega), hshift]
  by_cases haligned : offset % 4 = 0
  · dsimp only
    rw [if_pos haligned, outData_select p f (by omega) (Nat.mul_mod_left _ _),
      show offset / 4 * 4 = offset by omega, setLE_eq_merged _ _ _ _ haligned]
  · by_cases hlast : offset % 4 = 3
    · dsimp only
      rw [if_neg haligned, if_pos hlast, configAddress_add f (by omega)]
      have hnext (b : Buffer) (o : ℕ) : patch b o 4 (fun k x => x ||| byteOf 0 k) = b := by
        apply patch_id
        intro k hk x
        rw [byteOf_zero]
        exact BitVec.or_zero
      refine (readModifyWrite _ f (by omega) (by omega) 0).trans ((hnext _ _).trans ?_)
      refine (readModifyWrite_shifted p f (by omega) value (show _ + 1 ≤ 4 by omega) ?_).trans ?_
      · intro k hk hend
        exact absurd hend (by omega)
      · have hfirst : patch p.space (f.addressed.place + offset) 2 (merged offset value) =
            patch p.space (f.addressed.place + offset + 0) 1 fun k x => x ||| byteOf value k := by
          apply patch_narrow _ (show 0 + 1 ≤ 2 by decide)
          · intro k hk x
            rw [merged, if_neg (by rw [Whole]; omega), if_neg (by omega), Nat.zero_add]
          · intro k hk hend x
            rw [merged, if_neg (by rw [Whole]; omega), if_pos (by omega)]
        rw [hfirst, Nat.add_zero]
    · dsimp only
      rw [if_neg haligned, if_neg hlast,
        readModifyWrite_shifted p f (by omega) value (show _ + 2 ≤ 4 by omega)]
      · apply patch_congr
        intro k hk x
        rw [merged, if_neg (by rw [Whole]; omega), if_neg (by omega)]
      · intro k hk _
        exact byteOf_of_lt
          (Nat.lt_of_lt_of_le hv (Nat.pow_le_pow_right (show 0 < 256 by decide) hk))

theorem byteOf_mod (v : ℕ) {m k : ℕ} (h : k < m) : byteOf (v % 256 ^ m) k = byteOf v k := by
  obtain ⟨j, rfl⟩ := Nat.exists_eq_add_of_lt h
  have hpow : 256 ^ (k + j + 1) = 256 ^ k * (256 * 256 ^ j) := by
    rw [Nat.add_assoc, Nat.pow_add, Nat.pow_succ']
  apply BitVec.eq_of_toNat_eq
  rw [byteOf, byteOf, BitVec.toNat_ofNat, BitVec.toNat_ofNat, hpow, Nat.mod_mul_right_div_self]
  exact Nat.mod_mul_right_mod _ 256 _

theorem byteOf_shiftRight (v m k : ℕ) : byteOf (v >>> (8 * m)) k = byteOf v (m + k) := by
  rw [byteOf, byteOf, Nat.shiftRight_eq_div_pow, Nat.pow_mul, Nat.div_div_eq_div_mul, ← Nat.pow_add]

theorem patch_halves (b : Buffer) (o : ℕ) {m : ℕ} (hm : m = 2 ∨ m = 4)
    (ho : m = 2 → offset % 4 ≠ 0) :
    patch (patch b o m (merged offset (value % 256 ^ m))) (o + m) m
      (merged (offset + m) (value >>> (8 * m))) =
      patch b o (m + m) (merged offset value) := by
  rw [patch_patch]
  apply patch_congr
  intro k hk x
  split_ifs with hlow
  · simp only [merged, byteOf_mod value hlow]
  · have hbyte : byteOf (value >>> (8 * m)) (k - m) = byteOf value k := by
      rw [byteOf_shiftRight, Nat.add_sub_cancel' (Nat.not_lt.mp hlow)]
    have hplace : offset + m + (k - m) = offset + k := by omega
    have hwhole : Whole (offset + m) (k - m) ↔ Whole offset k := by
      rw [Whole, Whole]
      rcases hm with rfl | rfl
      · have := ho rfl
        omega
      · omega
    simp only [merged, hbyte, hplace, hwhole]

theorem ioPciWrite32_eq (p : Ports) (f : FunctionId) (h : offset + 4 ≤ 256) (hv : value < 2 ^ 32) :
    (ioPciWrite32 p f value offset).space =
      patch p.space (f.addressed.place + offset) 4 (merged offset value) := by
  have hbyte : offset &&& 0xFF = offset := by
    rw [show 0xFF = 2 ^ 8 - 1 from rfl, Nat.and_two_pow_sub_one_eq_mod]
    exact Nat.mod_eq_of_lt (by omega)
  rw [ioPciWrite32, and_three, hbyte]
  split_ifs with haligned
  · rw [outData_select p f (by omega) haligned, setLE_eq_merged _ _ _ _ haligned]
  · have hmod : (offset + 2) % 2 ^ 16 = offset + 2 := Nat.mod_eq_of_lt (by omega)
    have hhigh : value >>> 16 < 2 ^ 16 := by
      rw [Nat.shiftRight_eq_div_pow]
      omega
    dsimp only
    rw [hmod, ioPciWrite16_eq _ f (by omega) hhigh,
      ioPciWrite16_eq p f (by omega) (Nat.mod_lt _ (by decide)), ← Nat.add_assoc]
    exact patch_halves p.space _ (Or.inl rfl) fun _ => haligned

/-- The writes through the ports. A quad word is written by `PciDeviceConfigurationWrite64`. -/
def portWrite : Width → Ports → FunctionId → ℕ → ℕ → Ports
  | .byte, p, f, value, offset => ioPciWrite8 p f value offset
  | .word, p, f, value, offset => ioPciWrite16 p f value offset
  | .dword, p, f, value, offset => ioPciWrite32 p f value offset
  | .qword, p, f, value, offset => pciDeviceConfigurationWrite64 p ⟨1, f⟩ value offset

def deviceWrite : Width → Ports → DeviceObject → ℕ → ℕ → Ports
  | .byte, p, d, value, offset => pciDeviceConfigurationWrite8 p d value offset
  | .word, p, d, value, offset => pciDeviceConfigurationWrite16 p d value offset
  | .dword, p, d, value, offset => pciDeviceConfigurationWrite32 p d value offset
  | .qword, p, d, value, offset => pciDeviceConfigurationWrite64 p d value offset

theorem portWrite_eq (w : Width) (p : Ports) (f : FunctionId) (h : offset + w.bytes ≤ 256)
    (hv : value < 256 ^ w.bytes) :
    (portWrite w p f value offset).space =
      patch p.space (f.addressed.place + offset) w.bytes (merged offset value) := by
  cases w with
  | byte => exact ioPciWrite8_eq p f h hv
  | word => exact ioPciWrite16_eq p f h hv
  | dword => exact ioPciWrite32_eq p f h hv
  | qword =>
    have hbytes : offset + 8 ≤ 256 := h
    have hvalue : value < 2 ^ 64 := hv
    have hmod : (offset + 4) % 2 ^ 16 = offset + 4 := Nat.mod_eq_of_lt (by omega)
    have hhigh : value >>> 32 < 2 ^ 32 := by
      rw [Nat.shiftRight_eq_div_pow]
      omega
    rw [portWrite, pciDeviceConfigurationWrite64, if_neg Nat.one_ne_zero]
    dsimp only
    rw [hmod, ioPciWrite32_eq _ f (by omega) hhigh,
      ioPciWrite32_eq p f (by omega) (Nat.mod_lt _ (by decide)), ← Nat.add_assoc]
    exact patch_halves p.space _ (Or.inr rfl) fun hm => absurd hm (by decide)

theorem deviceWrite_port (w : Width) (p : Ports) {d : DeviceObject} (h : d.pciAccessType ≠ 0)
    (value offset : ℕ) :
    deviceWrite w p d value offset = portWrite w p d.location value offset := by
  cases w with
  | byte => rw [deviceWrite, pciDeviceConfigurationWrite8, if_neg h, portWrite]
  | word => rw [deviceWrite, pciDeviceConfigurationWrite16, if_neg h, portWrite]
  | dword => rw [deviceWrite, pciDeviceConfigurationWrite32, if_neg h, portWrite]
  | qword =>
    rw [deviceWrite, portWrite, pciDeviceConfigurationWrite64, if_neg h,
      pciDeviceConfigurationWrite64, if_neg Nat.one_ne_zero]

theorem deviceWrite_mapped (w : Width) (p : Ports) {d : DeviceObject} (h : d.pciAccessType = 0)
    (value offset : ℕ) :
    deviceWrite w p d value offset = writeMapped p d.location w.bytes value offset := by
  cases w with
  | byte => rw [deviceWrite, pciDeviceConfigurationWrite8, if_pos h, Width.bytes]
  | word => rw [deviceWrite, pciDeviceConfigurationWrite16, if_pos h, Width.bytes]
  | dword => rw [deviceWrite, pciDeviceConfigurationWrite32, if_pos h, Width.bytes]
  | qword => rw [deviceWrite, pciDeviceConfigurationWrite64, if_pos h, Width.bytes]

/-- A write through the ports changes the bytes of the access in the header to those of the value,
and nothing else in configuration space, as a write where the header is mapped does. -/
structure WritesExactly (w : Width) (p : Ports) (f : FunctionId) (value offset : ℕ) : Prop where
  space : (portWrite w p f value offset).space = setLE p.space (f.place + offset) w.bytes value
  mapped : ∀ d : DeviceObject, d.location = f → d.pciAccessType ≠ 0 →
    (deviceWrite w p d value offset).space =
    (deviceWrite w p { d with pciAccessType := 0 } value offset).space

/-- A byte that is not written whole has no bit that the value has not, and has the value where it
is not written at all. -/
def TakesValue (offset value k : ℕ) (old : Byte) : Prop :=
  Whole offset k ∨
    (if (offset + k) % 4 = 0 then old = byteOf value k else old &&& ~~~byteOf value k = 0)

def TakesNothing (offset value k : ℕ) (old : Byte) : Prop :=
  if Whole offset k then old = byteOf value k else (offset + k) % 4 = 0 ∨
    byteOf value k &&& ~~~old = 0

/-- On the buses that are addressed each byte takes the value. On the others the value is there
already, and the header that is addressed instead does not change. -/
def WritesAll (w : Width) (p : Ports) (f : FunctionId) (value offset : ℕ) : Prop :=
  ∀ k < w.bytes, if f.bus.val < 16 then TakesValue offset value k (header p.space f (offset + k))
    else header p.space f (offset + k) = byteOf value k ∧
      TakesNothing offset value k (header p.space f.addressed (offset + k))

theorem or_eq_right_iff (x y : Byte) : x ||| y = y ↔ x &&& ~~~y = 0 := by
  constructor
  · intro h
    rw [← h]
    ext i hi
    rw [BitVec.getElem_and, BitVec.getElem_not, BitVec.getElem_or]
    cases x[i] <;> simp
  · intro h
    ext i hi
    have hbit := congrArg (fun z => z.getLsbD i) h
    simp [hi] at hbit ⊢
    exact hbit

theorem merged_eq_byteOf_iff (k : ℕ) (old : Byte) :
    merged offset value k old = byteOf value k ↔ TakesValue offset value k old := by
  rw [merged, TakesValue]
  by_cases hwhole : Whole offset k
  · rw [if_pos hwhole]
    exact ⟨fun _ => Or.inl hwhole, fun _ => rfl⟩
  · rw [if_neg hwhole, ← or_eq_right_iff]
    split_ifs
    · exact ⟨Or.inr, fun h => h.resolve_left hwhole⟩
    · exact ⟨Or.inr, fun h => h.resolve_left hwhole⟩

theorem merged_eq_self_iff (k : ℕ) (old : Byte) :
    merged offset value k old = old ↔ TakesNothing offset value k old := by
  rw [merged, TakesNothing, ← or_eq_right_iff, BitVec.or_comm]
  split_ifs with hwhole hend
  · exact eq_comm
  · exact ⟨fun _ => Or.inl hend, fun _ => rfl⟩
  · exact ⟨Or.inr, fun h => h.resolve_left hend⟩

theorem not_lt_sixteen_cases {w : Width} (p : Ports) (h : offset + w.bytes ≤ 256)
    (hbus : ¬ f.bus.val < 16) :
    patch p.space (f.addressed.place + offset) w.bytes (merged offset value) =
        setLE p.space (f.place + offset) w.bytes value ↔
      ∀ k < w.bytes, header p.space f (offset + k) = byteOf value k ∧
        TakesNothing offset value k (header p.space f.addressed (offset + k)) := by
  have hapart := @addressed_apart f (by omega)
  have hheader (g : FunctionId) (k : ℕ) : header p.space g (offset + k) =
      p.space (g.place + offset + k) := by
    rw [header, Nat.add_assoc]
  constructor
  · intro heq k hk
    have hown := congrFun heq (f.place + offset + k)
    have hother := congrFun heq (f.addressed.place + offset + k)
    rw [patch_of_not_mem _ (by omega), setLE_eq_patch, patch_self _ _ _ _ hk] at hown
    rw [patch_self _ _ _ _ hk, setLE_of_not_mem _ (by omega)] at hother
    rw [hheader, hheader]
    exact ⟨hown, (merged_eq_self_iff k _).mp hother⟩
  · intro hall
    have hsame : setLE p.space (f.place + offset) w.bytes value = p.space := by
      rw [setLE_eq_patch]
      funext i
      rw [patch]
      split_ifs with hi
      · obtain ⟨k, rfl⟩ := Nat.exists_eq_add_of_le hi.1
        rw [Nat.add_sub_cancel_left, ← hheader, (hall k (by omega)).1, byteOf]
      · rfl
    rw [hsame]
    funext i
    rw [patch]
    split_ifs with hi
    · obtain ⟨k, rfl⟩ := Nat.exists_eq_add_of_le hi.1
      rw [Nat.add_sub_cancel_left, ← hheader]
      exact (merged_eq_self_iff k _).mpr (hall k (by omega)).2
    · rfl

theorem lt_sixteen_cases {w : Width} (p : Ports) :
    patch p.space (f.place + offset) w.bytes (merged offset value) =
        setLE p.space (f.place + offset) w.bytes value ↔
      ∀ k < w.bytes, TakesValue offset value k (header p.space f (offset + k)) := by
  have hheader (k : ℕ) : header p.space f (offset + k) = p.space (f.place + offset + k) := by
    rw [header, Nat.add_assoc]
  rw [setLE_eq_patch]
  constructor
  · intro heq k hk
    have hown := congrFun heq (f.place + offset + k)
    rw [patch_self _ _ _ _ hk, patch_self _ _ _ _ hk] at hown
    rw [hheader]
    exact (merged_eq_byteOf_iff k _).mp hown
  · intro hall
    funext i
    rw [patch, patch]
    split_ifs with hi
    · obtain ⟨k, rfl⟩ := Nat.exists_eq_add_of_le hi.1
      rw [Nat.add_sub_cancel_left, ← hheader]
      exact (merged_eq_byteOf_iff k _).mpr (hall k (by omega))
    · rfl

theorem writesExactly_iff_writesAll {w : Width} (p : Ports) (f : FunctionId)
    (h : offset + w.bytes ≤ 256) (hv : value < 256 ^ w.bytes) :
    WritesExactly w p f value offset ↔ WritesAll w p f value offset := by
  have hspace : (portWrite w p f value offset).space =
    setLE p.space (f.place + offset) w.bytes value ↔
      WritesAll w p f value offset := by
    rw [portWrite_eq w p f h hv, WritesAll]
    by_cases hbus : f.bus.val < 16
    · simp only [if_pos hbus]
      rw [addressed_eq hbus, lt_sixteen_cases]
    · simp only [if_neg hbus]
      exact not_lt_sixteen_cases p h hbus
  rw [← hspace]
  constructor
  · exact WritesExactly.space
  · intro heq
    refine ⟨heq, ?_⟩
    rintro d rfl htype
    rw [deviceWrite_port w p htype, heq, deviceWrite_mapped w p rfl]
    rfl

theorem writesAll_iff {w : Width} (f : FunctionId) (offset : ℕ) :
    (∀ p value, value < 256 ^ w.bytes → WritesAll w p f value offset) ↔ f.bus.val < 16 ∧
    offset % 4 = 0 := by
  have hpos : 0 < w.bytes := by cases w <;> decide
  constructor
  · intro hall
    have hfirst := hall ⟨0, fun _ => 0xFF⟩ 0 (Nat.pow_pos (by decide)) 0 hpos
    rw [byteOf_zero] at hfirst
    split_ifs at hfirst with hbus
    · refine ⟨hbus, ?_⟩
      by_contra hoffset
      have hones : header (fun _ => 0xFF) f (offset + 0) = 0xFF := rfl
      rw [TakesValue, Whole, byteOf_zero, hones] at hfirst
      rcases hfirst with hwhole | hrest
      · omega
      · split_ifs at hrest
        · exact absurd hrest (by decide)
        · exact absurd hrest (by decide)
    · cases hfirst.1
  · rintro ⟨hbus, hoffset⟩ p value hv k hk
    rw [if_pos hbus]
    exact Or.inl (Or.inl hoffset)

/-- A write is exact when the bytes that it does not write whole take the value nevertheless. It is
for all contents and values exactly on the first 16 buses, at aligned offsets. -/
theorem writesExactly_iff (w : Width) (p : Ports) (f : FunctionId) (value offset : ℕ)
    (h : offset + w.bytes ≤ 256) (hv : value < 256 ^ w.bytes) :
    (WritesExactly w p f value offset ↔ WritesAll w p f value offset) ∧
      ((∀ p value, value < 256 ^ w.bytes → WritesExactly w p f value offset) ↔
        f.bus.val < 16 ∧ offset % 4 = 0) := by
  refine ⟨writesExactly_iff_writesAll p f h hv, ?_⟩
  rw [← @writesAll_iff w]
  exact forall_congr' fun p => forall_congr' fun value => imp_congr_right fun hv =>
    writesExactly_iff_writesAll p f h hv

theorem writesExactly_aligned : WritesExactly .word ⟨0, fun _ => 0xFF⟩ ⟨3, 0, 0⟩ 0x0406 4 :=
  (writesExactly_iff .word ⟨0, fun _ => 0xFF⟩ ⟨3, 0, 0⟩ 0x0406 4 (by decide) (by decide)).1.mpr
    fun _ _ => Or.inl (Or.inl rfl)

/-- The value `0x00` at the offset 5, where `0xFF` is stored, changes nothing. -/
theorem write_bits_stay : (portWrite .byte ⟨0, fun _ => 0xFF⟩ ⟨0, 0, 0⟩ 0 5).space 5 = 0xFF ∧
    setLE (fun _ => 0xFF) 5 1 0 5 = 0 ∧ ¬ WritesExactly .byte ⟨0, fun _ => 0xFF⟩ ⟨0, 0, 0⟩ 0 5 := by
  have hold : (portWrite .byte ⟨0, fun _ => 0xFF⟩ ⟨0, 0, 0⟩ 0 5).space 5 = 0xFF := by decide
  refine ⟨hold, by decide, fun h => ?_⟩
  have hnew := congrFun h.space 5
  rw [hold] at hnew
  exact absurd hnew (by decide)

end DevOs.Pci
