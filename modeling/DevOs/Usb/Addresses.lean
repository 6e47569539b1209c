import Mathlib.Data.Set.Basic
import Mathlib.Data.Nat.Find
import Mathlib.Order.Bounds.Basic
import Mathlib.Tactic.Common

/-!
# Addresses of USB devices

`EhciAllocateDeviceAddress` looks for the first clear bit of `DeviceAddressMap` and sets the bit `1
<< (DeviceAddress - 1)`. The shifted 1 is an `int`: the processor takes the count modulo 32, and the
result is extended by its sign when it is stored into the word. The bit that is set is the one that
was found for the first 31 bits of a word; the bit 31 comes with all the bits above it.
-/

namespace DevOs.Usb

/-- `DeviceAddressMap` of an `EHCI_DEVICE`, its two words. -/
structure DeviceAddressMap where
  low : BitVec 64
  high : BitVec 64
deriving DecidableEq, Repr

/-- The bit `a - 1` of the map is that of the address `a`. -/
def DeviceAddressMap.taken (m : DeviceAddressMap) (a : ℕ) : Bool :=
  if a ≤ 64 then m.low.getLsbD (a - 1) else m.high.getLsbD (a - 65)

/-- `1 << k` of an `int`, stored into an `UINT64`. -/
def intOneShl (k : ℕ) : BitVec 64 := ((1#32) <<< (k % 32)).signExtend 64

/-- The loop over one word, with `n` rounds left: the word with the bit set, and the address. -/
def findAddress (word : BitVec 64) : ℕ → BitVec 64 → ℕ → Option (BitVec 64 × ℕ)
  | 0, _, _ => none
  | n + 1, shiftValue, deviceAddress =>
    if shiftValue &&& 1 = 0 then some (word ||| intOneShl (deviceAddress - 1), deviceAddress)
    else findAddress word n (shiftValue >>> 1) (deviceAddress + 1)

def ehciAllocateDeviceAddress (m : DeviceAddressMap) : DeviceAddressMap × ℕ :=
  if m.low ≠ -1 then
    match findAddress m.low 64 m.low 1 with
    | some (w, a) => ({ m with low := w }, a)
    | none => (m, 0)
  -- the highest bit of the second word is ignored
  else if m.high ≠ 0x7FFFFFFFFFFFFFFF then
    match findAddress m.high 63 m.high 1 with
    | some (w, a) => ({ m with high := w }, a + 64)
    | none => (m, 0)
  else (m, 0)

def DeviceAddressMap.free (m : DeviceAddressMap) : Set ℕ :=
  {a | 1 ≤ a ∧ a ≤ 127 ∧ m.taken a = false}

/-- The smallest free address is returned and becomes taken, no other one changes, and 0 comes back
with the map as it was exactly when there is none. -/
structure AllocatesAddress (m : DeviceAddressMap) : Prop where
  found : ∀ a, IsLeast m.free a → (ehciAllocateDeviceAddress m).2 = a ∧
    ∀ b, 1 ≤ b → b ≤ 128 → (ehciAllocateDeviceAddress m).1.taken b = (m.taken b || decide (b = a))
  full : ehciAllocateDeviceAddress m = (m, 0) ↔ m.free = ∅

theorem getLsbD_intOneShl (k : ℕ) {i : ℕ} (hi : i < 64) :
    (intOneShl k).getLsbD i = decide (i = k % 32 ∨ k % 32 = 31 ∧ 31 ≤ i) := by
  have hk : k % 32 < 32 := Nat.mod_lt _ (by decide)
  rw [intOneShl]
  generalize k % 32 = c at hk ⊢
  rw [BitVec.getLsbD_signExtend, BitVec.msb_eq_getLsbD_last]
  simp only [hi, decide_true, Bool.true_and, BitVec.getLsbD_shiftLeft, BitVec.getLsbD_one]
  by_cases h32 : i < 32
  · rw [if_pos h32]
    grind
  · rw [if_neg h32]
    grind

/-- Or-ing it onto a word whose lowest clear bit is `k` sets the bit `k` and no other one for the
first 31 bits, for the last one, and for the bit 31 when all the bits above it are set. -/
theorem or_intOneShl_iff {w : BitVec 64} {k : ℕ} (hk : k < 64)
    (hbelow : ∀ i < k, w.getLsbD i = true) (hclear : w.getLsbD k = false) :
    (∀ i < 64, (w ||| intOneShl k).getLsbD i = (w.getLsbD i || decide (i = k))) ↔
      k < 31 ∨ (k = 31 ∧ ∀ i, 31 < i → i < 64 → w.getLsbD i = true) ∨ k = 63 := by
  have hor : ∀ i < 64, (w ||| intOneShl k).getLsbD i =
      (w.getLsbD i || decide (i = k % 32 ∨ k % 32 = 31 ∧ 31 ≤ i)) := fun i hi => by
    rw [BitVec.getLsbD_or, getLsbD_intOneShl k hi]
  constructor
  · intro h
    by_contra hne
    simp only [not_or, not_and, not_forall, Bool.not_eq_true, not_lt] at hne
    obtain ⟨h31, habove, h63⟩ := hne
    rcases Nat.lt_or_eq_of_le h31 with hlt | heq
    · have hbit := h k hk
      rw [hor k hk, hclear] at hbit
      simp only [decide_true, Bool.false_or, decide_eq_true_eq] at hbit
      omega
    · obtain ⟨i, hi, hi', hw⟩ := habove heq.symm
      have hbit := h i hi'
      rw [hor i hi', hw] at hbit
      have hset : i = k % 32 ∨ k % 32 = 31 ∧ 31 ≤ i := .inr ⟨by omega, by omega⟩
      have hne : i ≠ k := by omega
      simp [hset, hne] at hbit
  · intro h i hi
    rw [hor i hi]
    rcases h with hlt | ⟨heq, habove⟩ | heq
    · have hset : (i = k % 32 ∨ k % 32 = 31 ∧ 31 ≤ i) ↔ i = k := by omega
      simp only [hset]
    · rcases Nat.lt_trichotomy i 31 with hi' | hi' | hi'
      · simp [hbelow i (by omega)]
      · have hset : i = k % 32 := by omega
        have hik : i = k := by omega
        simp [hik, heq]
      · simp [habove i hi' hi]
    · rcases Nat.lt_or_eq_of_le (show i ≤ 63 by omega) with hi' | hi'
      · simp [hbelow i (by omega)]
      · simp [hi', heq]

theorem exists_least {m : DeviceAddressMap} {b : ℕ} (hb : b ∈ m.free) : ∃ a, IsLeast m.free a := by
  classical
  have hex : ∃ a, a ∈ m.free := ⟨b, hb⟩
  exact ⟨Nat.find hex, Nat.find_spec hex, fun c hc => Nat.find_min' hex hc⟩

theorem and_one_eq_zero_iff (s : BitVec 64) : s &&& 1 = 0 ↔ s.getLsbD 0 = false := by
  rw [show (1 : BitVec 64) = 1#64 from rfl, BitVec.and_one_eq_setWidth_ofBool_getLsbD]
  cases s.getLsbD 0 <;> decide

theorem findAddress_eq {w : BitVec 64} {k : ℕ} (hclear : w.getLsbD k = false) (n j : ℕ) (hj : j ≤ k)
    (hk : k < j + n) (hset : ∀ i, j ≤ i → i < k → w.getLsbD i = true) :
    findAddress w n (w >>> j) (j + 1) = some (w ||| intOneShl k, k + 1) := by
  induction n generalizing j with
  | zero => omega
  | succ n ih =>
    have hbit : (w >>> j).getLsbD 0 = w.getLsbD j := by
      rw [BitVec.getLsbD_ushiftRight, Nat.add_zero]
    rw [findAddress]
    rcases Nat.lt_or_eq_of_le hj with hlt | rfl
    · have hne : ¬(w >>> j &&& 1 = 0) := by
        rw [and_one_eq_zero_iff, hbit, hset j le_rfl hlt]
        decide
      rw [if_neg hne, ← BitVec.shiftRight_add]
      exact ih (j + 1) hlt (by omega) fun i hi hik => hset i (by omega) hik
    · rw [if_pos ((and_one_eq_zero_iff _).mpr (hbit.trans hclear)), Nat.add_sub_cancel]

variable {m : DeviceAddressMap} {a : ℕ}

theorem taken_of_lt_least (h : IsLeast m.free a) {b : ℕ} (hb : 1 ≤ b) (hlt : b < a) :
    m.taken b = true := by
  by_contra hne
  have hmem : b ∈ m.free := ⟨hb, by have := h.1.2.1; omega, by simpa using hne⟩
  exact absurd (h.2 hmem) (by omega)

theorem low_of_least (h : IsLeast m.free a) (ha : a ≤ 64) :
    (∀ i < a - 1, m.low.getLsbD i = true) ∧ m.low.getLsbD (a - 1) = false := by
  refine ⟨fun i hi => ?_, by simpa [DeviceAddressMap.taken, ha] using h.1.2.2⟩
  have htaken := taken_of_lt_least h (b := i + 1) (by omega) (by omega)
  rw [DeviceAddressMap.taken, if_pos (by omega)] at htaken
  exact htaken

theorem high_of_least (h : IsLeast m.free a) (ha : 64 < a) :
    m.low = -1 ∧ (∀ i < a - 65, m.high.getLsbD i = true) ∧ m.high.getLsbD (a - 65) = false := by
  have hne : ¬a ≤ 64 := by omega
  refine ⟨?_, fun i hi => ?_, by simpa [DeviceAddressMap.taken, hne] using h.1.2.2⟩
  · refine BitVec.eq_of_getLsbD_eq fun i hi => ?_
    have htaken := taken_of_lt_least h (b := i + 1) (by omega) (by omega)
    rw [DeviceAddressMap.taken, if_pos (by omega)] at htaken
    rw [show (-1 : BitVec 64) = BitVec.allOnes 64 from rfl, BitVec.getLsbD_allOnes,
      decide_eq_true hi]
    exact htaken
  · have htaken := taken_of_lt_least h (b := i + 65) (by omega) (by omega)
    rw [DeviceAddressMap.taken, if_neg (by omega)] at htaken
    exact htaken

/-- The search comes to the smallest free address; what it sets is the shifted 1. -/
theorem ehciAllocateDeviceAddress_of_least (h : IsLeast m.free a) :
    ehciAllocateDeviceAddress m =
      (if a ≤ 64 then { m with low := m.low ||| intOneShl (a - 1) }
        else { m with high := m.high ||| intOneShl (a - 65) }, a) := by
  have hpos : 1 ≤ a := h.1.1
  rw [ehciAllocateDeviceAddress]
  by_cases ha : a ≤ 64
  · obtain ⟨hbelow, hclear⟩ := low_of_least h ha
    have hne : m.low ≠ -1 := by
      intro he
      rw [he, show (-1 : BitVec 64) = BitVec.allOnes 64 from rfl, BitVec.getLsbD_allOnes] at hclear
      simp only [decide_eq_false_iff_not] at hclear
      omega
    have hfind := findAddress_eq hclear 64 0 (by omega) (by omega) fun i _ hi => hbelow i hi
    rw [BitVec.ushiftRight_zero, Nat.sub_add_cancel hpos] at hfind
    rw [if_pos hne, hfind, if_pos ha]
  · obtain ⟨hlow, hbelow, hclear⟩ := high_of_least h (by omega)
    have hle : a ≤ 127 := h.1.2.1
    have hne : m.high ≠ 0x7FFFFFFFFFFFFFFF := by
      intro he
      rw [he, show (0x7FFFFFFFFFFFFFFF : BitVec 64) = (BitVec.allOnes 63).setWidth 64 from rfl,
        BitVec.getLsbD_setWidth, BitVec.getLsbD_allOnes] at hclear
      simp only [Bool.and_eq_false_iff, decide_eq_false_iff_not] at hclear
      omega
    have hfind := findAddress_eq hclear 63 0 (by omega) (by omega) fun i _ hi => hbelow i hi
    rw [BitVec.ushiftRight_zero] at hfind
    rw [if_neg (not_not.mpr hlow), if_pos hne, hfind, if_neg ha]
    simp only [Prod.mk.injEq, true_and]
    omega

theorem ehciAllocateDeviceAddress_of_full (hm : m.free = ∅) (htop : m.high.getLsbD 63 = false) :
    ehciAllocateDeviceAddress m = (m, 0) := by
  have htaken : ∀ b, 1 ≤ b → b ≤ 127 → m.taken b = true := by
    intro b hb hle
    by_contra hne
    have hmem : b ∈ m.free := ⟨hb, hle, by simpa using hne⟩
    rw [hm] at hmem
    exact hmem
  have hlow : m.low = -1 := by
    refine BitVec.eq_of_getLsbD_eq fun i hi => ?_
    have h := htaken (i + 1) (by omega) (by omega)
    rw [DeviceAddressMap.taken, if_pos (by omega)] at h
    rw [show (-1 : BitVec 64) = BitVec.allOnes 64 from rfl, BitVec.getLsbD_allOnes,
      decide_eq_true hi]
    exact h
  have hhigh : m.high = 0x7FFFFFFFFFFFFFFF := by
    refine BitVec.eq_of_getLsbD_eq fun i hi => ?_
    rw [show (0x7FFFFFFFFFFFFFFF : BitVec 64) = (BitVec.allOnes 63).setWidth 64 from rfl,
      BitVec.getLsbD_setWidth, BitVec.getLsbD_allOnes, decide_eq_true hi, Bool.true_and]
    rcases Nat.lt_or_eq_of_le (show i ≤ 63 by omega) with hlt | heq
    · have h := htaken (i + 65) (by omega) (by omega)
      rw [DeviceAddressMap.taken, if_neg (by omega)] at h
      rw [decide_eq_true hlt]
      exact h
    · rw [heq, htop]
      rfl
  rw [ehciAllocateDeviceAddress, if_neg (not_not.mpr hlow), if_neg (not_not.mpr hhigh)]

theorem sets_low_iff (h : IsLeast m.free a) (ha : a ≤ 64) :
    (∀ b, 1 ≤ b → b ≤ 128 → (ehciAllocateDeviceAddress m).1.taken b =
      (m.taken b || decide (b = a))) ↔
      a ≤ 31 ∨ (a = 32 ∧ ∀ b, 32 < b → b ≤ 64 → m.taken b = true) ∨ a = 64 := by
  obtain ⟨hbelow, hclear⟩ := low_of_least h ha
  have hpos : 1 ≤ a := h.1.1
  have hword := or_intOneShl_iff (show a - 1 < 64 by omega) hbelow hclear
  rw [ehciAllocateDeviceAddress_of_least h]
  simp only [if_pos ha]
  constructor
  · intro hs
    have hbits : ∀ i < 64, (m.low ||| intOneShl (a - 1)).getLsbD i =
        (m.low.getLsbD i || decide (i = a - 1)) := by
      intro i hi
      have hbit := hs (i + 1) (by omega) (by omega)
      simp only [DeviceAddressMap.taken, if_pos (show i + 1 ≤ 64 by omega),
        Nat.add_sub_cancel] at hbit
      rw [hbit]
      congr 1
      exact decide_eq_decide.mpr (by omega)
    rcases hword.mp hbits with hlt | ⟨heq, habove⟩ | heq
    · exact .inl (by omega)
    · refine .inr (.inl ⟨by omega, fun b hb hb' => ?_⟩)
      rw [DeviceAddressMap.taken, if_pos hb']
      exact habove (b - 1) (by omega) (by omega)
    · exact .inr (.inr (by omega))
  · intro hc b hb hb'
    simp only [DeviceAddressMap.taken]
    by_cases hb64 : b ≤ 64
    · rw [if_pos hb64, if_pos hb64, hword.mpr ?_ (b - 1) (by omega)]
      · congr 1
        exact decide_eq_decide.mpr (by omega)
      rcases hc with hlt | ⟨heq, habove⟩ | heq
      · exact .inl (by omega)
      · refine .inr (.inl ⟨by omega, fun i hi hi' => ?_⟩)
        have htaken := habove (i + 1) (by omega) (by omega)
        rw [DeviceAddressMap.taken, if_pos (by omega)] at htaken
        exact htaken
      · exact .inr (.inr (by omega))
    · rw [if_neg hb64, if_neg hb64, decide_eq_false (by omega), Bool.or_false]

theorem sets_high_iff (h : IsLeast m.free a) (ha : 64 < a) (htop : m.high.getLsbD 63 = false) :
    (∀ b, 1 ≤ b → b ≤ 128 → (ehciAllocateDeviceAddress m).1.taken b =
      (m.taken b || decide (b = a))) ↔
      a ≤ 95 := by
  obtain ⟨-, hbelow, hclear⟩ := high_of_least h ha
  have hle : a ≤ 127 := h.1.2.1
  have hword := or_intOneShl_iff (show a - 65 < 64 by omega) hbelow hclear
  rw [ehciAllocateDeviceAddress_of_least h]
  simp only [if_neg (show ¬a ≤ 64 by omega)]
  constructor
  · intro hs
    have hbits : ∀ i < 64, (m.high ||| intOneShl (a - 65)).getLsbD i =
        (m.high.getLsbD i || decide (i = a - 65)) := by
      intro i hi
      have hbit := hs (i + 65) (by omega) (by omega)
      simp only [DeviceAddressMap.taken, if_neg (show ¬i + 65 ≤ 64 by omega),
        Nat.add_sub_cancel] at hbit
      rw [hbit]
      congr 1
      exact decide_eq_decide.mpr (by omega)
    rcases hword.mp hbits with hlt | ⟨-, habove⟩ | heq
    · omega
    · have hset := habove 63 (by omega) (by omega)
      rw [htop] at hset
      cases hset
    · omega
  · intro hlt b hb hb'
    simp only [DeviceAddressMap.taken]
    by_cases hb64 : b ≤ 64
    · rw [if_pos hb64, if_pos hb64, decide_eq_false (by omega), Bool.or_false]
    · rw [if_neg hb64, if_neg hb64, hword.mpr (.inl (by omega)) (b - 65) (by omega)]
      congr 1
      exact decide_eq_decide.mpr (by omega)

/-- Allocation is right for the addresses 1 to 31 and 65 to 95, for 64, and for 32 when 33 to 64 are
all taken. -/
theorem ehciAllocateDeviceAddress_right_iff (htop : m.high.getLsbD 63 = false) :
    AllocatesAddress m ↔ ∀ a, IsLeast m.free a →
      (a ≤ 31 ∨ 65 ≤ a ∧ a ≤ 95) ∨ (a = 32 ∧ ∀ b, 32 < b → b ≤ 64 → m.taken b = true) ∨ a = 64 := by
  constructor
  · intro hr a ha
    obtain ⟨-, hsets⟩ := hr.found a ha
    by_cases hle : a ≤ 64
    · exact ((sets_low_iff ha hle).mp hsets).imp_left .inl
    · exact .inl (.inr ⟨by omega, (sets_high_iff ha (by omega) htop).mp hsets⟩)
  · intro hc
    refine ⟨fun a ha => ⟨by rw [ehciAllocateDeviceAddress_of_least ha], ?_⟩, ?_, ?_⟩
    · by_cases hle : a ≤ 64
      · refine (sets_low_iff ha hle).mpr ((hc a ha).imp_left fun h => ?_)
        omega
      · refine (sets_high_iff ha (by omega) htop).mpr ?_
        rcases hc a ha with (h | h) | ⟨h, -⟩ | h <;> omega
    · intro hret
      by_contra hne
      obtain ⟨b, hb⟩ := Set.nonempty_iff_ne_empty.mpr hne
      obtain ⟨a, ha⟩ := exists_least hb
      rw [ehciAllocateDeviceAddress_of_least ha, Prod.mk.injEq] at hret
      have hpos := ha.1.1
      omega
    · intro hm
      exact ehciAllocateDeviceAddress_of_full hm htop

def usedAddressMap : DeviceAddressMap := ⟨-1, 0x13⟩

theorem usedAddressMap_right :
    usedAddressMap.high.getLsbD 63 = false ∧ AllocatesAddress usedAddressMap ∧
    (ehciAllocateDeviceAddress usedAddressMap).2 = 67 := by
  have htop : usedAddressMap.high.getLsbD 63 = false := by decide
  have hlow : ∀ b < 65, 1 ≤ b → usedAddressMap.taken b = true := by decide
  refine ⟨htop, (ehciAllocateDeviceAddress_right_iff htop).mpr fun a ha => ?_, by decide⟩
  have hle : a ≤ 67 := ha.2 ⟨by decide, by decide, by decide⟩
  have hge : 65 ≤ a := by
    by_contra hlt
    have htaken := hlow a (by omega) ha.1.1
    rw [ha.1.2.2] at htaken
    cases htaken
  omega

/-- The addresses up to 31 are taken: 32 is returned, and with it all addresses up to 64 become
taken. -/
theorem address_thirtyTwo_not_right : ¬AllocatesAddress ⟨0x7FFFFFFF, 0⟩ := by
  intro h
  have hleast : IsLeast (DeviceAddressMap.free ⟨0x7FFFFFFF, 0⟩) 32 := by
    refine ⟨⟨by decide, by decide, by decide⟩, fun b hb => ?_⟩
    have hall : ∀ b < 32, 1 ≤ b → DeviceAddressMap.taken ⟨0x7FFFFFFF, 0⟩ b = true := by decide
    by_contra hlt
    have hset := hall b (by omega) hb.1
    rw [hb.2.2] at hset
    cases hset
  have h33 := (h.found 32 hleast).2 33 (by decide) (by decide)
  revert h33
  decide

end DevOs.Usb
