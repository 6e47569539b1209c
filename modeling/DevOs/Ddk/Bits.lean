import DevOs.Lib.Words

/-!
# Bits that are tested and set

`__SyncBitTestAndSet` and `__BitRelease` of the driver kit take only the lowest three bits of the
offset. The result of the first is the carry flag with all 32 bits inverted, so that it is never
zero. The macros of the kernel with the same names work on the bit of the offset itself and negate
the carry flag as a truth value.
-/

namespace DevOs.Ddk

open Words

/-- `BitOffset` is an `UINT16`; the other bits of the register are whatever the caller has left
there. -/
def bitOffset (rdx : BitVec 64) : ℕ := rdx.toNat % 2 ^ 16

/-- `and rdx, 0b111` -/
def maskedOffset (rdx : BitVec 64) : ℕ := (rdx &&& 0b111).toNat

/-- `__SyncBitTestAndSet` of the driver kit: `rax` and the word. `rflags` are the flags before
`bts`, which writes the carry flag. -/
def syncBitTestAndSet (rflags word rdx : BitVec 64) : BitVec 64 × BitVec 64 :=
  let carry : BitVec 64 := if word.getLsbD (maskedOffset rdx) then 1 else 0
  let rax := rflags &&& ~~~1 ||| carry
  let rax := rax &&& 1
  ((~~~(rax.setWidth 32)).setWidth 64, bitTestAndSet word (maskedOffset rdx))

/-- `__BitRelease` of the driver kit. -/
def bitRelease (word rdx : BitVec 64) : BitVec 64 :=
  word &&& ~~~(BitVec.twoPow 64 (maskedOffset rdx))

/-- The macro `__SyncBitTestAndSet` of the kernel: `!_interlockedbittestandset64`. -/
def kernelSyncBitTestAndSet (word : BitVec 64) (offset : ℕ) : BitVec 32 × BitVec 64 :=
  (if word.getLsbD offset then 0 else 1, bitTestAndSet word offset)

/-- The macro `__BitRelease` of the kernel: `_bittestandreset64`. -/
def kernelBitRelease (word : BitVec 64) (offset : ℕ) : BitVec 64 :=
  word &&& ~~~(BitVec.twoPow 64 offset)

/-- The bit of the offset, and no other one, is set and released, the result says whether it was
clear, and the macros of the kernel do the same. -/
structure SetsBit (rflags word rdx : BitVec 64) : Prop where
  sets : ∀ i < 64, (syncBitTestAndSet rflags word rdx).2.getLsbD i =
    (word.getLsbD i || decide (i = bitOffset rdx))
  result : (syncBitTestAndSet rflags word rdx).1 ≠ 0 ↔ word.getLsbD (bitOffset rdx) = false
  releases : ∀ i < 64, (bitRelease word rdx).getLsbD i =
    (word.getLsbD i && !decide (i = bitOffset rdx))
  kernelSets : (syncBitTestAndSet rflags word rdx).2 =
    (kernelSyncBitTestAndSet word (bitOffset rdx)).2 ∧
    ((syncBitTestAndSet rflags word rdx).1 ≠ 0 ↔
    (kernelSyncBitTestAndSet word (bitOffset rdx)).1 ≠ 0)
  kernelReleases : bitRelease word rdx = kernelBitRelease word (bitOffset rdx)

variable {rflags word rdx : BitVec 64}

theorem maskedOffset_eq (rdx : BitVec 64) : maskedOffset rdx = bitOffset rdx % 8 := by
  rw [maskedOffset, bitOffset, BitVec.toNat_and,
    show (0b111 : BitVec 64).toNat = 2 ^ 3 - 1 from rfl, Nat.and_two_pow_sub_one_eq_mod]
  omega

theorem getLsbD_release (word : BitVec 64) (k : ℕ) {i : ℕ} (hi : i < 64) :
    (word &&& ~~~(BitVec.twoPow 64 k)).getLsbD i = (word.getLsbD i && !decide (i = k)) := by
  rw [BitVec.getLsbD_and, BitVec.getLsbD_not, BitVec.getLsbD_twoPow]
  by_cases hk : k = i
  · subst hk
    simp [hi]
  · simp [hi, hk, Ne.symm hk]

theorem kernelSyncBitTestAndSet_ne_zero (word : BitVec 64) (k : ℕ) :
    (kernelSyncBitTestAndSet word k).1 ≠ 0 ↔ word.getLsbD k = false := by
  rw [kernelSyncBitTestAndSet]
  cases word.getLsbD k
  · exact ⟨fun _ => rfl, fun _ => (by decide : (1 : BitVec 32) ≠ 0)⟩
  · exact ⟨fun h => absurd rfl h, fun h => absurd h.symm Bool.false_ne_true⟩

theorem syncBitTestAndSet_ne_zero (rflags word rdx : BitVec 64) :
    (syncBitTestAndSet rflags word rdx).1 ≠ 0 := by
  intro h
  have hbit := congrArg (fun x : BitVec 64 => x.getLsbD 1) h
  simp [syncBitTestAndSet] at hbit

/-- The driver kit is right for the first eight bits while they are clear. -/
theorem syncBitTestAndSet_right_iff (h : bitOffset rdx < 32) :
    SetsBit rflags word rdx ↔ bitOffset rdx < 8 ∧ word.getLsbD (bitOffset rdx) = false := by
  have hmask := maskedOffset_eq rdx
  constructor
  · intro hr
    have hclear := hr.result.mp (syncBitTestAndSet_ne_zero rflags word rdx)
    refine ⟨?_, hclear⟩
    by_contra hle
    have hbit := hr.sets (bitOffset rdx) (by omega)
    rw [syncBitTestAndSet, getLsbD_bitTestAndSet, hclear, hmask] at hbit
    simp only [decide_true, Bool.false_or, Bool.and_eq_true, decide_eq_true_eq] at hbit
    omega
  · rintro ⟨hlt, hclear⟩
    have heq : maskedOffset rdx = bitOffset rdx := by omega
    refine ⟨fun i hi => ?_, ?_, fun i hi => ?_, ⟨?_, ?_⟩, ?_⟩
    · rw [syncBitTestAndSet, getLsbD_bitTestAndSet, heq, decide_eq_true hi, Bool.true_and]
    · exact ⟨fun _ => hclear, fun _ => syncBitTestAndSet_ne_zero rflags word rdx⟩
    · rw [bitRelease, heq, getLsbD_release word _ hi]
    · rw [syncBitTestAndSet, kernelSyncBitTestAndSet, heq]
    · rw [kernelSyncBitTestAndSet_ne_zero]
      exact ⟨fun _ => hclear, fun _ => syncBitTestAndSet_ne_zero rflags word rdx⟩
    · rw [bitRelease, kernelBitRelease, heq]

theorem lowBit_right : bitOffset 3 < 32 ∧ SetsBit 0 0 3 := by
  have h : bitOffset 3 < 32 := by decide
  exact ⟨h, (syncBitTestAndSet_right_iff h).mpr ⟨by decide, by decide⟩⟩

/-- The bit 0 is set already, and the driver kit says that it was clear. -/
theorem setBit_not_right : ¬SetsBit 0 1 0 := by
  intro h
  have hresult := h.result
  revert hresult
  decide

end DevOs.Ddk
