import DevOs.Paging.Tables

/-!
# The pages in blocks

The search for virtual memory reads the tables from any address of the page map, also from one with
a tag. An entry that leads to no table stands for all pages that share it: they are a block, and
they are all free or all mapped.
-/

namespace DevOs.Paging

open Bytes Fields Radix

variable {memory : Buffer} {pageTable p q d x f : ℕ}

def entryFrom (memory : Buffer) (pageTable : ℕ) : ℕ → ℕ → ℕ
  | 0, p => entry memory pageTable (tableIndex 0 p)
  | d + 1, p => (nextTable d (entryFrom memory pageTable d p)).elim 0 fun f =>
    entry memory (f * 2 ^ 12) (tableIndex (d + 1) p)

def translateFrom (memory : Buffer) (pageTable p : ℕ) : Option Mapping :=
  mapping (entryFrom memory pageTable 2 p) (entryFrom memory pageTable 3 p)

abbrev Free (memory : Buffer) (pageTable p : ℕ) : Prop := translateFrom memory pageTable p = none

theorem entryFrom_eq (memory : Buffer) (root d p : ℕ) :
    entryFrom memory (root * 2 ^ 12) d p = entryOf memory root d p := by
  induction d with
  | zero => rfl
  | succ d ih =>
    rw [entryFrom, ih]
    cases hn : tableOf memory root d p with
    | none =>
      rw [entryOf, look_of_none hn, nextTable_zero, Option.elim_none, entryOf,
        look_of_none (node_succ_of_none hn)]
    | some a =>
      rw [entryOf, look_of_some hn, entryOf, look, node_succ_of_some hn]
      rfl

theorem translateFrom_eq (memory : Buffer) (root p : ℕ) :
    translateFrom memory (root * 2 ^ 12) p = translate memory root p := by
  rw [translateFrom, entryFrom_eq, entryFrom_eq, translate]

theorem entryFrom_congr (h : Agree tables (d + 1) p q) :
    entryFrom memory pageTable d p = entryFrom memory pageTable d q := by
  induction d with
  | zero => exact congrArg (fun i : Fin 512 => entry memory pageTable i) (h 0 (by decide))
  | succ d ih =>
    have hi : tableIndex (d + 1) p = tableIndex (d + 1) q := h (d + 1) (Nat.lt_succ_self _)
    rw [entryFrom, entryFrom, ih (h.mono (Nat.le_succ _)), hi]

theorem agree_of_div (hd : d ≤ 3) (h : p / 2 ^ (9 * (3 - d)) = q / 2 ^ (9 * (3 - d))) :
    Agree tables (d + 1) p q := by
  intro j hj
  apply Fin.ext
  change p / 2 ^ (9 * (3 - j)) % 512 = q / 2 ^ (9 * (3 - j)) % 512
  have hsplit : 2 ^ (9 * (3 - j)) = 2 ^ (9 * (3 - d)) * 2 ^ (9 * (d - j)) := by
    rw [← Nat.pow_add]
    congr 1
    omega
  rw [hsplit, ← Nat.div_div_eq_div_mul, ← Nat.div_div_eq_div_mul, h]

theorem nextTable_some {e : ℕ} (h : nextTable d e = some f) :
    present e = true ∧ (d = 2 → sizePat e = false) ∧ physicalAddr e = f := by
  rw [nextTable] at h
  split_ifs at h with hc
  refine ⟨hc.2.1, fun hd => ?_, Option.some.inj h⟩
  simpa [hd] using hc.2.2

def blockDepth (memory : Buffer) (pageTable p : ℕ) : ℕ :=
  if nextTable 0 (entryFrom memory pageTable 0 p) = none then 0
  else if nextTable 1 (entryFrom memory pageTable 1 p) = none then 1
  else if nextTable 2 (entryFrom memory pageTable 2 p) = none then 2
  else 3

def blockSize (memory : Buffer) (pageTable p : ℕ) : ℕ :=
  2 ^ (9 * (3 - blockDepth memory pageTable p))

def blockEnd (memory : Buffer) (pageTable p : ℕ) : ℕ :=
  (p / blockSize memory pageTable p + 1) * blockSize memory pageTable p

/-- The way to the depth `d` is open for a page. -/
def Open (memory : Buffer) (pageTable d p : ℕ) : Prop :=
  ∀ j < d, nextTable j (entryFrom memory pageTable j p) ≠ none

theorem Open.congr (h : Open memory pageTable d p) (hag : Agree tables d p q) :
    Open memory pageTable d q :=
  fun j hj => entryFrom_congr (hag.mono (Nat.succ_le_of_lt hj)) ▸ h j hj

theorem blockDepth_le (memory : Buffer) (pageTable p : ℕ) : blockDepth memory pageTable p ≤ 3 := by
  rw [blockDepth]
  split_ifs <;> decide

theorem blockDepth_open (memory : Buffer) (pageTable p : ℕ) :
    Open memory pageTable (blockDepth memory pageTable p) p := by
  intro j hj
  rw [blockDepth] at hj
  split_ifs at hj with h0 h1 h2
  · omega
  · obtain rfl : j = 0 := by omega
    exact h0
  · obtain rfl | rfl : j = 0 ∨ j = 1 := by omega
    · exact h0
    · exact h1
  · obtain rfl | rfl | rfl : j = 0 ∨ j = 1 ∨ j = 2 := by omega
    · exact h0
    · exact h1
    · exact h2

theorem blockDepth_none (memory : Buffer) (pageTable p : ℕ) :
    nextTable (blockDepth memory pageTable p)
      (entryFrom memory pageTable (blockDepth memory pageTable p) p) =
      none := by
  rw [blockDepth]
  split_ifs with h0 h1 h2
  · exact h0
  · exact h1
  · exact h2
  · exact nextTable_leaf _

theorem Open.le_blockDepth (h : Open memory pageTable d p) : d ≤ blockDepth memory pageTable p := by
  by_contra hlt
  exact h _ (Nat.lt_of_not_le hlt) (blockDepth_none memory pageTable p)

theorem Open.blockDepth_eq (h : Open memory pageTable d p)
    (hnone : nextTable d (entryFrom memory pageTable d p) = none) :
    blockDepth memory pageTable p = d := by
  refine Nat.le_antisymm ?_ h.le_blockDepth
  by_contra hlt
  exact blockDepth_open memory pageTable p d (Nat.lt_of_not_le hlt) hnone

theorem Open.blockEnd_eq (h : Open memory pageTable d p)
    (hnone : nextTable d (entryFrom memory pageTable d p) = none) :
    blockEnd memory pageTable p = (p / 2 ^ (9 * (3 - d)) + 1) * 2 ^ (9 * (3 - d)) := by
  rw [blockEnd, blockSize, h.blockDepth_eq hnone]

theorem Open.blockEnd_le (h : Open memory pageTable d p) :
    blockEnd memory pageTable p ≤ (p / 2 ^ (9 * (3 - d)) + 1) * 2 ^ (9 * (3 - d)) := by
  have hd := h.le_blockDepth
  have hle := blockDepth_le memory pageTable p
  obtain ⟨k, hk⟩ : ∃ k, 9 * (3 - d) = 9 * (3 - blockDepth memory pageTable p) + k :=
    ⟨9 * (blockDepth memory pageTable p - d), by omega⟩
  rw [blockEnd, blockSize, hk, Nat.pow_add, Nat.mul_comm (2 ^ _) (2 ^ k), ← Nat.mul_assoc,
    Nat.mul_comm (2 ^ k), ← Nat.div_div_eq_div_mul]
  apply Nat.mul_le_mul_right
  rw [Nat.add_mul, Nat.one_mul]
  exact Nat.lt_div_mul_add (Nat.two_pow_pos k)

theorem lt_blockEnd (memory : Buffer) (pageTable p : ℕ) : p < blockEnd memory pageTable p := by
  rw [blockEnd, Nat.succ_mul]
  exact Nat.lt_div_mul_add (Nat.two_pow_pos _)

theorem div_blockSize_eq (hpq : p ≤ q) (hlt : q < blockEnd memory pageTable p) :
    p / blockSize memory pageTable p = q / blockSize memory pageTable p :=
  Nat.le_antisymm (Nat.div_le_div_right hpq)
    (Nat.le_of_lt_succ (Nat.div_lt_of_lt_mul (by rwa [Nat.mul_comm])))

theorem block_agree (hpq : p ≤ q) (hlt : q < blockEnd memory pageTable p) :
    Agree tables (blockDepth memory pageTable p + 1) p q :=
  agree_of_div (blockDepth_le memory pageTable p) (div_blockSize_eq hpq hlt)

theorem blockDepth_congr (hpq : p ≤ q) (hlt : q < blockEnd memory pageTable p) :
    blockDepth memory pageTable q = blockDepth memory pageTable p := by
  have hag := block_agree hpq hlt
  refine ((blockDepth_open memory pageTable p).congr (hag.mono (Nat.le_succ _))).blockDepth_eq ?_
  rw [← entryFrom_congr hag]
  exact blockDepth_none memory pageTable p

theorem blockEnd_mono (memory : Buffer) (pageTable : ℕ) (hpq : p ≤ q) :
    blockEnd memory pageTable p ≤ blockEnd memory pageTable q := by
  rcases Nat.lt_or_ge q (blockEnd memory pageTable p) with hlt | hge
  · exact Nat.le_of_eq (by
      rw [blockEnd, div_blockSize_eq hpq hlt, blockEnd, blockSize, blockSize,
        blockDepth_congr hpq hlt])
  · exact Nat.le_trans hge (Nat.le_of_lt (lt_blockEnd memory pageTable q))

theorem entryFrom_succ_none (h : nextTable d (entryFrom memory pageTable d p) = none) :
    entryFrom memory pageTable (d + 1) p = 0 := by
  rw [entryFrom, h, Option.elim_none]

theorem free_of_none (hd : d < 2) (h : nextTable d (entryFrom memory pageTable d p) = none) :
    Free memory pageTable p := by
  have h2 : entryFrom memory pageTable 2 p = 0 := by
    obtain rfl | rfl : d = 0 ∨ d = 1 := by omega
    · have h1 := entryFrom_succ_none h
      exact entryFrom_succ_none (by rw [h1, nextTable_zero])
    · exact entryFrom_succ_none h
  rw [Free, translateFrom, h2]
  rfl

theorem free_iff_of_directory (h : nextTable 2 (entryFrom memory pageTable 2 p) = none) :
    Free memory pageTable p ↔ present (entryFrom memory pageTable 2 p) = false := by
  rw [Free, translateFrom, mapping]
  rw [nextTable] at h
  cases hp : present (entryFrom memory pageTable 2 p) with
  | false => simp
  | true =>
    cases hs : sizePat (entryFrom memory pageTable 2 p) with
    | true => simp
    | false => simp [hp, hs] at h

theorem free_iff_of_table (h : Open memory pageTable 3 p) :
    Free memory pageTable p ↔ present (entryFrom memory pageTable 3 p) = false := by
  have h2 := h 2 (by decide)
  rw [Free, translateFrom, mapping]
  rw [nextTable] at h2
  cases hp : present (entryFrom memory pageTable 2 p) with
  | false => simp [hp] at h2
  | true =>
    cases hs : sizePat (entryFrom memory pageTable 2 p) with
    | true => simp [hs] at h2
    | false => cases present (entryFrom memory pageTable 3 p) <;> simp

theorem free_congr (hpq : p ≤ q) (hlt : q < blockEnd memory pageTable p) :
    Free memory pageTable q ↔ Free memory pageTable p := by
  have hag := block_agree hpq hlt
  have hnone := blockDepth_none memory pageTable p
  have hnone' := blockDepth_none memory pageTable q
  rw [blockDepth_congr hpq hlt] at hnone'
  obtain hd | hd | hd : blockDepth memory pageTable p < 2 ∨ blockDepth memory pageTable p = 2 ∨
      blockDepth memory pageTable p = 3 := by
    have hle := blockDepth_le memory pageTable p
    omega
  · exact iff_of_true (free_of_none hd hnone') (free_of_none hd hnone)
  · rw [hd] at hnone hnone' hag
    rw [free_iff_of_directory hnone, free_iff_of_directory hnone', entryFrom_congr hag]
  · have hdiv := div_blockSize_eq hpq hlt
    rw [blockSize, hd, Nat.sub_self, Nat.mul_zero, Nat.pow_zero, Nat.div_one, Nat.div_one] at hdiv
    rw [hdiv]

end DevOs.Paging
