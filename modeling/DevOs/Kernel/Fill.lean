import DevOs.Lib.Bytes
import Mathlib.Data.Nat.ModEq

/-!
# Fills of memory

`memset32` calls the fill that `ExtensionLevel` selects. The fills for SSE and for AVX first write
what is left of the size by whole vectors, and then the vectors; between the two they take from the
size what is missing to a vector where they should take what they have written. With vectors of 16
bytes these are the same number; with 32 bytes the last vector is lost when 8 bytes are left. Both
write nothing for a size that is no multiple of 8.
-/

namespace DevOs.Kernel

open Bytes

/-- Memory by addresses, which are taken modulo `2 ^ 64`. -/
abbrev Ram := BitVec 64 → Byte

def byteOf {w : ℕ} (v : BitVec w) (k : ℕ) : Byte := v.extractLsb' (8 * k) 8

def storeQword (m : Ram) (p v : BitVec 64) : Ram := fun a =>
  if (a - p).toNat < 8 then byteOf v (a - p).toNat else m a

def repStos64 : ℕ → Ram → BitVec 64 → BitVec 64 → Ram
  | 0, m, _, _ => m
  | n + 1, m, p, v => repStos64 n (storeQword m p v) (p + 8) v

/-- A store of a vector of `w` bytes that all have the value `v` in their quadwords. An aligned
store at an address that is not aligned is a fault. -/
def storeVector (aligned : Bool) (w : ℕ) (m : Ram) (p v : BitVec 64) : Option Ram :=
  if aligned ∧ p.toNat % w ≠ 0 then none else some (repStos64 (w / 8) m p v)

/-- The loop of the assembly functions, with `n` vectors left. -/
def storeVectors (aligned : Bool) (w : ℕ) : ℕ → Ram → BitVec 64 → BitVec 64 → Option Ram
  | 0, m, _, _ => some m
  | n + 1, m, p, v =>
    (storeVector aligned w m p v).bind fun m => storeVectors aligned w n m (p + BitVec.ofNat 64 w) v

def sseMemset (m : Ram) (p v : BitVec 64) (count : ℕ) : Option Ram :=
  storeVectors true 16 (count >>> 4) m p v

def sseMemsetUnaligned (m : Ram) (p v : BitVec 64) (count : ℕ) : Option Ram :=
  storeVectors false 16 (count >>> 4) m p v

def avxMemset (m : Ram) (p v : BitVec 64) (count : ℕ) : Option Ram :=
  storeVectors true 32 (count >>> 5) m p v

def avxMemsetUnaligned (m : Ram) (p v : BitVec 64) (count : ℕ) : Option Ram :=
  storeVectors false 32 (count >>> 5) m p v

/-- What the two wrappers have in common, for vectors of `w` bytes and the functions that store
them. -/
def wrapMemset (w : ℕ) (memset memsetUnaligned : Ram → BitVec 64 → BitVec 64 → ℕ → Option Ram)
    (m : Ram) (p v : BitVec 64) (size : ℕ) : Option Ram :=
  if size % 8 ≠ 0 then some m
  else if size < w then some (repStos64 (size / 8) m p v)
  else
    let rest := size % w
    let m := if rest ≠ 0 then repStos64 (rest / 8) m p v else m
    let p := if rest ≠ 0 then p + BitVec.ofNat 64 rest else p
    let size := if rest ≠ 0 then size - (w - rest) else size
    if p.toNat % w ≠ 0 then memsetUnaligned m p v size else memset m p v size

def wrapSseMemset : Ram → BitVec 64 → BitVec 64 → ℕ → Option Ram :=
  wrapMemset 16 sseMemset sseMemsetUnaligned

def wrapAvxMemset : Ram → BitVec 64 → BitVec 64 → ℕ → Option Ram :=
  wrapMemset 32 avxMemset avxMemsetUnaligned

/-- `memset32`. Only the first two entries of `MemSetArray` are functions, and it has no fourth
one. -/
def memset32 (extensionLevel : BitVec 32) (m : Ram) (p : BitVec 64) (value : BitVec 32)
    (size : BitVec 64) :
    Option Ram :=
  let combinedValue := value.setWidth 64 ||| value.setWidth 64 <<< 32
  let bytes := (size <<< 2).toNat
  if extensionLevel &&& 3 = 0 then wrapSseMemset m p combinedValue bytes
  else if extensionLevel &&& 3 = 1 then wrapAvxMemset m p combinedValue bytes
  else none

/-- The memory in which `n` elements of 32 bits at `p` have the value `v`. -/
def filled32 (m : Ram) (p : BitVec 64) (v : BitVec 32) (n : ℕ) : Ram := fun a =>
  if (a - p).toNat < 4 * n then byteOf v ((a - p).toNat % 4) else m a

/-- `memset32` writes the elements and nothing else, whatever is in memory before. -/
def FillsExactly (extensionLevel : BitVec 32) (p : BitVec 64) (v : BitVec 32) (n : BitVec 64) :
    Prop :=
  ∀ m, memset32 extensionLevel m p v n = some (filled32 m p v n.toNat)

def Interchangeable (size : ℕ) : Prop :=
  ∀ m p v, wrapSseMemset m p v size = wrapAvxMemset m p v size

variable {m : Ram} {p v : BitVec 64}

theorem repStos64_add (a b : ℕ) (m : Ram) (p v : BitVec 64) :
    repStos64 (a + b) m p v = repStos64 b (repStos64 a m p v) (p + BitVec.ofNat 64 (8 * a)) v := by
  induction a generalizing m p with
  | zero => rw [Nat.zero_add, Nat.mul_zero, BitVec.add_zero, repStos64]
  | succ a ih =>
    rw [Nat.add_right_comm, repStos64, ih, repStos64, BitVec.add_assoc]
    congr 2
    rw [Nat.mul_succ, Nat.add_comm (8 * a), BitVec.ofNat_add]
    rfl

theorem repStos64_eq (n : ℕ) (m : Ram) (p v : BitVec 64) (hn : 8 * n ≤ 2 ^ 64) (a : BitVec 64) :
    repStos64 n m p v a = if (a - p).toNat < 8 * n then byteOf v ((a - p).toNat % 8) else m a := by
  induction n generalizing m p with
  | zero => rw [repStos64, if_neg (by omega)]
  | succ n ih =>
    have hsub : a - (p + 8) = a - p - 8 := by
      apply BitVec.eq_of_toNat_eq
      simp only [BitVec.toNat_sub, BitVec.toNat_add, show (8 : BitVec 64).toNat = 8 from rfl]
      omega
    have hd := (a - p).isLt
    rw [repStos64, ih _ _ (by omega), storeQword, hsub]
    generalize a - p = d at hd ⊢
    have hval : (d - 8).toNat = if d.toNat < 8 then d.toNat + 2 ^ 64 - 8 else d.toNat - 8 := by
      rw [BitVec.toNat_sub, show (8 : BitVec 64).toNat = 8 from rfl]
      split_ifs <;> omega
    rw [hval]
    by_cases h8 : d.toNat < 8
    · rw [if_pos h8, if_neg (by omega), if_pos h8, if_pos (by omega), Nat.mod_eq_of_lt h8]
    · rw [if_neg h8, if_neg h8]
      by_cases hlt : d.toNat < 8 * (n + 1)
      · rw [if_pos (by omega), if_pos hlt]
        congr 1
        omega
      · rw [if_neg (by omega), if_neg hlt]

theorem storeVectors_eq {aligned : Bool} {w : ℕ} (hw : w % 8 = 0) (hdvd : w ∣ 2 ^ 64) (n : ℕ)
    (m : Ram) (p v : BitVec 64) (hp : aligned → p.toNat % w = 0) :
    storeVectors aligned w n m p v = some (repStos64 (w / 8 * n) m p v) := by
  induction n generalizing m p with
  | zero => rfl
  | succ n ih =>
    have hnext : aligned → (p + BitVec.ofNat 64 w).toNat % w = 0 := fun ha => by
      rw [BitVec.toNat_add, BitVec.toNat_ofNat, Nat.mod_mod_of_dvd _ hdvd, Nat.add_mod, hp ha,
        Nat.mod_mod_of_dvd _ hdvd, Nat.mod_self]
      rfl
    have hstore : storeVector aligned w m p v = some (repStos64 (w / 8) m p v) :=
      if_neg fun h => h.2 (hp h.1)
    have hlen : 8 * (w / 8) = w := by omega
    rw [storeVectors, hstore, Option.bind_some, ih _ _ hnext, Nat.mul_succ, Nat.add_comm,
      repStos64_add, hlen]

/-- The quadwords that a wrapper writes for vectors of `w` bytes. -/
def quadwords (w size : ℕ) : ℕ :=
  if size % 8 ≠ 0 then 0
  else if w ≤ size ∧ size % w ≠ 0 ∧ 2 * (size % w) < w then size / 8 - w / 8
  else size / 8

/-- A wrapper writes whole quadwords from its pointer on, when the quadwords and the vectors add
up. -/
theorem wrapMemset_eq {w : ℕ} {f g : Ram → BitVec 64 → BitVec 64 → ℕ → Option Ram} (hw : w % 8 = 0)
    (hdvd : w ∣ 2 ^ 64) (hf : ∀ m p v c, f m p v c = storeVectors true w (c / w) m p v)
    (hg : ∀ m p v c, g m p v c = storeVectors false w (c / w) m p v) {size : ℕ}
    (hrest : size % 8 = 0 → w ≤ size → size % w ≠ 0 →
      size % w / 8 + w / 8 * ((size - (w - size % w)) / w) = quadwords w size)
    (hwhole : size % 8 = 0 → w ≤ size → size % w = 0 → w / 8 * (size / w) = quadwords w size)
    (m : Ram) (p v : BitVec 64) :
    wrapMemset w f g m p v size = some (repStos64 (quadwords w size) m p v) := by
  have hvectors : ∀ (m : Ram) (p : BitVec 64) (c : ℕ),
    (if p.toNat % w ≠ 0 then g m p v c else f m p v c) =
      some (repStos64 (w / 8 * (c / w)) m p v) := by
    intro m p c
    by_cases hp : p.toNat % w ≠ 0
    · rw [if_pos hp, hg, storeVectors_eq hw hdvd _ _ _ _ fun h => absurd h Bool.false_ne_true]
    · rw [if_neg hp, hf, storeVectors_eq hw hdvd _ _ _ _ fun _ => not_not.mp hp]
  rw [wrapMemset]
  by_cases h8 : size % 8 ≠ 0
  · rw [if_pos h8, quadwords, if_pos h8]
    rfl
  rw [if_neg h8]
  by_cases hlt : size < w
  · rw [if_pos hlt, quadwords, if_neg h8, if_neg fun h => absurd h.1 (Nat.not_le.mpr hlt)]
  rw [if_neg hlt]
  have hle := Nat.le_of_not_lt hlt
  by_cases hr : size % w ≠ 0
  · simp only [if_pos hr]
    rw [hvectors, ← hrest (not_not.mp h8) hle hr, repStos64_add]
    have hlen : 8 * (size % w / 8) = size % w := by
      have hmod : size % w % 8 = 0 := by
        rw [Nat.mod_mod_of_dvd _ (Nat.dvd_of_mod_eq_zero hw), not_not.mp h8]
      omega
    rw [hlen]
  · simp only [if_neg hr]
    rw [hvectors, hwhole (not_not.mp h8) hle (not_not.mp hr)]

theorem wrapSseMemset_eq (size : ℕ) (m : Ram) (p v : BitVec 64) :
    wrapSseMemset m p v size = some (repStos64 (quadwords 16 size) m p v) := by
  refine wrapMemset_eq (by decide) (by decide) (fun m p v c => ?_) (fun m p v c => ?_) ?_ ?_ m p v
  · rw [sseMemset, Nat.shiftRight_eq_div_pow]
  · rw [sseMemsetUnaligned, Nat.shiftRight_eq_div_pow]
  · intro h8 hle hr
    rw [quadwords, if_neg (not_not.mpr h8)]
    split_ifs <;> omega
  · intro h8 hle hr
    rw [quadwords, if_neg (not_not.mpr h8), if_neg fun h => h.2.1 hr]
    omega

theorem wrapAvxMemset_eq (size : ℕ) (m : Ram) (p v : BitVec 64) :
    wrapAvxMemset m p v size = some (repStos64 (quadwords 32 size) m p v) := by
  refine wrapMemset_eq (by decide) (by decide) (fun m p v c => ?_) (fun m p v c => ?_) ?_ ?_ m p v
  · rw [avxMemset, Nat.shiftRight_eq_div_pow]
  · rw [avxMemsetUnaligned, Nat.shiftRight_eq_div_pow]
  · intro h8 hle hr
    rw [quadwords, if_neg (not_not.mpr h8)]
    split_ifs <;> omega
  · intro h8 hle hr
    rw [quadwords, if_neg (not_not.mpr h8), if_neg fun h => h.2.1 hr]
    omega

theorem quadwords_sse {size : ℕ} (h : size % 8 = 0) : quadwords 16 size = size / 8 := by
  rw [quadwords, if_neg (not_not.mpr h), if_neg (by omega)]

theorem quadwords_avx {size : ℕ} (h : size % 8 = 0) :
    quadwords 32 size = if 32 ≤ size ∧ size % 32 = 8 then size / 8 - 4 else size / 8 := by
  rw [quadwords, if_neg (not_not.mpr h)]
  by_cases hc : 32 ≤ size ∧ size % 32 = 8
  · rw [if_pos hc, if_pos (by omega)]
  · rw [if_neg hc, if_neg (by omega)]

theorem byteOf_combined (v : BitVec 32) {k : ℕ} (hk : k < 8) :
    byteOf (v.setWidth 64 ||| v.setWidth 64 <<< 32) k = byteOf v (k % 4) := by
  refine BitVec.eq_of_getLsbD_eq fun i hi => ?_
  simp only [byteOf, BitVec.getLsbD_extractLsb', BitVec.getLsbD_or, BitVec.getLsbD_shiftLeft,
    BitVec.getLsbD_setWidth, hi, decide_true, Bool.true_and]
  by_cases h4 : k < 4
  · have hmod : k % 4 = k := Nat.mod_eq_of_lt h4
    have hlt : 8 * k + i < 32 := by omega
    have h64 : 8 * k + i < 64 := by omega
    simp [hmod, hlt, h64]
  · have hmod : k % 4 = k - 4 := by omega
    have hge : ¬8 * k + i < 32 := by omega
    have h64 : 8 * k + i < 64 := by omega
    have hbit : v.getLsbD (8 * k + i) = false := BitVec.getLsbD_of_ge v _ (by omega)
    have hidx : 8 * k + i - 32 = 8 * (k - 4) + i := by omega
    simp [hmod, hge, h64, hbit, hidx]
    omega

theorem repStos64_eq_filled32_iff (k n : ℕ) (p : BitVec 64) (v : BitVec 32) (hk : 8 * k < 2 ^ 64) :
    (∀ m, repStos64 k m p (v.setWidth 64 ||| v.setWidth 64 <<< 32) = filled32 m p v n) ↔
    8 * k = 4 * n := by
  constructor
  · intro h
    by_contra hne
    -- a byte that is in one of the fills and not in the other one has its old value there
    obtain ⟨d, hd, hxor⟩ : ∃ d < 2 ^ 64, ¬(d < 8 * k ↔ d < 4 * n) := by
      rcases Nat.lt_or_ge (8 * k) (4 * n) with hlt | hge
      · exact ⟨8 * k, hk, by omega⟩
      · exact ⟨4 * n, by omega, by omega⟩
    have hoff : (p + BitVec.ofNat 64 d - p).toNat = d := by
      rw [BitVec.add_comm, BitVec.add_sub_cancel, BitVec.toNat_ofNat, Nat.mod_eq_of_lt hd]
    have hbyte := congrFun (h fun _ => ~~~(byteOf v (d % 4))) (p + BitVec.ofNat 64 d)
    have hold : ∀ x : Byte, x ≠ ~~~x := fun x hx => by
      have hbit := congrArg (fun y : Byte => y.getLsbD 0) hx
      simp at hbit
    rw [repStos64_eq _ _ _ _ hk.le, filled32, hoff, byteOf_combined v (Nat.mod_lt _ (by decide)),
      Nat.mod_mod_of_dvd d (by decide : 4 ∣ 8)] at hbyte
    by_cases hlt : d < 8 * k
    · rw [if_pos hlt, if_neg fun h4 => hxor ⟨fun _ => h4, fun _ => hlt⟩] at hbyte
      exact hold _ hbyte
    · rw [if_neg hlt, if_pos (by omega)] at hbyte
      exact hold _ hbyte.symm
  · intro heq m
    funext a
    rw [repStos64_eq _ _ _ _ hk.le, filled32, heq]
    split_ifs
    · rw [byteOf_combined v (Nat.mod_lt _ (by decide)), Nat.mod_mod_of_dvd _ (by decide : 4 ∣ 8)]
    · rfl

theorem quadwords_le (w size : ℕ) : 8 * quadwords w size ≤ size := by
  rw [quadwords]
  split_ifs <;> omega

theorem shiftLeft_two (n : BitVec 64) : (n <<< 2).toNat = 4 * n.toNat % 2 ^ 64 := by
  rw [BitVec.toNat_shiftLeft, Nat.shiftLeft_eq, Nat.mul_comm]

theorem fillsExactly_of {level : BitVec 32} {w : ℕ} {p : BitVec 64} {v : BitVec 32} {n : BitVec 64}
    (h : ∀ m, memset32 level m p v n =
      some (repStos64 (quadwords w (4 * n.toNat % 2 ^ 64)) m p
        (v.setWidth 64 ||| v.setWidth 64 <<< 32))) :
    FillsExactly level p v n ↔ 8 * quadwords w (4 * n.toNat % 2 ^ 64) = 4 * n.toNat := by
  have hle := quadwords_le w (4 * n.toNat % 2 ^ 64)
  rw [← repStos64_eq_filled32_iff _ _ p v (by omega)]
  refine forall_congr' fun m => ?_
  rw [h m, Option.some.injEq]

/-- For SSE, a fill is exact when the number of elements is even and its bytes can be counted. -/
theorem fillsExactly_sse {level : BitVec 32} (hl : level &&& 3 = 0) (p : BitVec 64) (v : BitVec 32)
    (n : BitVec 64) :
    FillsExactly level p v n ↔ n.toNat % 2 = 0 ∧ n.toNat < 2 ^ 62 := by
  rw [fillsExactly_of (w := 16) fun m => by
    rw [memset32, if_pos hl, wrapSseMemset_eq, shiftLeft_two]]
  have hle := quadwords_le 16 (4 * n.toNat % 2 ^ 64)
  by_cases h8 : 4 * n.toNat % 2 ^ 64 % 8 = 0
  · rw [quadwords_sse h8]
    omega
  · rw [quadwords, if_pos h8]
    omega

theorem fillsExactly_avx {level : BitVec 32} (hl : level &&& 3 = 1) (p : BitVec 64) (v : BitVec 32)
    (n : BitVec 64) :
    FillsExactly level p v n ↔ (n.toNat % 2 = 0 ∧ n.toNat < 2 ^ 62) ∧
    ¬(8 ≤ n.toNat ∧ n.toNat % 8 = 2) := by
  have hne : level &&& 3 ≠ 0 := by
    rw [hl]
    decide
  rw [fillsExactly_of (w := 32) fun m => by
    rw [memset32, if_neg hne, if_pos hl, wrapAvxMemset_eq, shiftLeft_two]]
  have hle := quadwords_le 32 (4 * n.toNat % 2 ^ 64)
  by_cases h8 : 4 * n.toNat % 2 ^ 64 % 8 = 0
  · rw [quadwords_avx h8]
    split_ifs <;> omega
  · rw [quadwords, if_pos h8]
    omega

theorem repStos64_inj {k l : ℕ} (hk : 8 * k < 2 ^ 64) (hl : 8 * l < 2 ^ 64) :
    (∀ m p v, repStos64 k m p v = repStos64 l m p v) ↔ k = l := by
  refine ⟨fun h => ?_, fun h => by simp [h]⟩
  have hfill := (repStos64_eq_filled32_iff l (2 * l) 0 0 hl).mpr (by omega)
  have heq := (repStos64_eq_filled32_iff k (2 * l) 0 0 hk).mp fun m => (h m _ _).trans (hfill m)
  omega

theorem interchangeable_iff {size : ℕ} (hsize : size < 2 ^ 64) (h8 : size % 8 = 0) :
    Interchangeable size ↔ ¬(32 ≤ size ∧ size % 32 = 8) := by
  have hsse := quadwords_le 16 size
  have havx := quadwords_le 32 size
  have hiff : Interchangeable size ↔ quadwords 16 size = quadwords 32 size := by
    rw [← repStos64_inj (by omega) (by omega)]
    refine forall_congr' fun m => forall_congr' fun p => forall_congr' fun v => ?_
    rw [wrapSseMemset_eq, wrapAvxMemset_eq, Option.some.injEq]
  rw [hiff, quadwords_sse h8, quadwords_avx h8]
  split_ifs <;> omega

/-- A fill is exact when a function is selected and the number of elements is even, does not wrap in
bytes, and, for AVX, is not one of 10, 18, 26 and so on; the wrappers are interchangeable except for
those sizes. -/
theorem memset32_exact_iff (p : BitVec 64) (v : BitVec 32) :
    (∀ level n, FillsExactly level p v n ↔
      (level &&& 3 = 0 ∨ level &&& 3 = 1 ∧ ¬(8 ≤ n.toNat ∧ n.toNat % 8 = 2)) ∧
        n.toNat % 2 = 0 ∧ n.toNat < 2 ^ 62) ∧
    ∀ size < 2 ^ 64, size % 8 = 0 → (Interchangeable size ↔ ¬(32 ≤ size ∧ size % 32 = 8)) := by
  refine ⟨fun level n => ?_, fun size hsize h8 => interchangeable_iff hsize h8⟩
  by_cases h0 : level &&& 3 = 0
  · rw [fillsExactly_sse h0]
    exact ⟨fun h => ⟨.inl h0, h⟩, fun h => h.2⟩
  by_cases h1 : level &&& 3 = 1
  · rw [fillsExactly_avx h1]
    exact ⟨fun h => ⟨.inr ⟨h1, h.2⟩, h.1⟩, fun h => ⟨h.2, (h.1.resolve_left h0).2⟩⟩
  · refine ⟨fun h => ?_, fun h => absurd h.1 (not_or.mpr ⟨h0, fun h => h1 h.1⟩)⟩
    have hfill := h fun _ => 0
    rw [memset32, if_neg h0, if_neg h1] at hfill
    cases hfill

/-- Ten elements with AVX: the last eight of them are not written. -/
theorem tenElements_not_exact : ¬FillsExactly 1 0 0 10 := by
  rw [fillsExactly_avx (by decide)]
  decide

end DevOs.Kernel
