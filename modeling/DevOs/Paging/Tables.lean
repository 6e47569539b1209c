import DevOs.Paging.Model
import DevOs.Lib.Radix

/-!
# The tables as a tree

Every table is a frame of 512 entries, and a page number has an index for each of the four levels,
from the page map at depth `0` to the page table at depth `3`. What `KeResolvePhysicalAddress`
returns is a function of the entries that are found at the last two depths.
-/

namespace DevOs.Paging

open Bytes Fields Radix

variable {memory : Buffer} {m m' : Machine} {root a b f p q d D e v flags : ℕ} {i j : Fin 512}

@[simp] theorem present_setPhysicalAddr : present (setPhysicalAddr e v) = present e := by
  rw [present, setPhysicalAddr, field_setField_of_ge (by decide), present]

@[simp] theorem sizePat_setPhysicalAddr : sizePat (setPhysicalAddr e v) = sizePat e := by
  rw [sizePat, setPhysicalAddr, field_setField_of_ge (by decide), sizePat]

@[simp] theorem physicalAddr_setPhysicalAddr : physicalAddr (setPhysicalAddr e v) = v % 2 ^ 36 := by
  rw [physicalAddr, setPhysicalAddr, field_setField_self]

theorem setPhysicalAddr_lt (he : e < 2 ^ 64) : setPhysicalAddr e v < 2 ^ 64 :=
  setField_lt he (by decide)

def tableEntry (e f : ℕ) : ℕ := setUserSupervisor (setReadWrite (setPresent (setPhysicalAddr e f)))

@[simp] theorem present_tableEntry : present (tableEntry e f) = true := by
  rw [present, tableEntry, setUserSupervisor, setReadWrite, setPresent,
    field_setField_of_ge (by decide), field_setField_of_ge (by decide), field_setField_self]
  rfl

@[simp] theorem sizePat_tableEntry : sizePat (tableEntry e f) = sizePat e := by
  rw [sizePat, tableEntry, setUserSupervisor, setReadWrite, setPresent,
    field_setField_of_le (by decide), field_setField_of_le (by decide),
    field_setField_of_le (by decide), ← sizePat, sizePat_setPhysicalAddr]

@[simp] theorem physicalAddr_tableEntry : physicalAddr (tableEntry e f) = f % 2 ^ 36 := by
  rw [physicalAddr, tableEntry, setUserSupervisor, setReadWrite, setPresent,
    field_setField_of_le (by decide), field_setField_of_le (by decide),
    field_setField_of_le (by decide), ← physicalAddr,
    physicalAddr_setPhysicalAddr]

theorem tableEntry_lt (he : e < 2 ^ 64) : tableEntry e f < 2 ^ 64 :=
  setField_lt (setField_lt (setField_lt (setPhysicalAddr_lt he) (by decide)) (by decide)) (by
    decide)

theorem entry_lt (memory : Buffer) (table i : ℕ) : entry memory table i < 2 ^ 64 := getLE_lt ..

@[simp] theorem present_zero : present 0 = false := rfl

def tableIndex (d p : ℕ) : Fin 512 := ⟨p / 2 ^ (9 * (3 - d)) % 512, Nat.mod_lt _ (by decide)⟩

/-- The frame of the table that an entry leads to. A page of `2 ^ 21` bytes is no table. -/
def nextTable (d e : ℕ) : Option ℕ :=
  if d < 3 ∧ present e ∧ ¬ (d = 2 ∧ sizePat e) then some (physicalAddr e) else none

def tables : Shape ℕ (Fin 512) ℕ ℕ := ⟨tableIndex, nextTable⟩

def slots (memory : Buffer) (f : ℕ) (i : Fin 512) : ℕ := entry memory (f * 2 ^ 12) i

theorem slots_lt (memory : Buffer) (f : ℕ) (i : Fin 512) : slots memory f i < 2 ^ 64 := entry_lt ..

abbrev tableOf (memory : Buffer) (root d p : ℕ) : Option ℕ := node tables (slots memory) root d p

abbrev entryOf (memory : Buffer) (root d p : ℕ) : ℕ := look tables (slots memory) root 0 d p

theorem nextTable_zero (d : ℕ) : nextTable d 0 = none := if_neg (by simp)

theorem nextTable_of_present (hd : d < 3) (hp : present e = true) (hs : d = 2 → sizePat e = false) :
    nextTable d e = some (physicalAddr e) :=
  if_pos ⟨hd, hp, fun h => by simp [hs h.1] at h⟩

theorem nextTable_of_not_present (hp : present e = false) : nextTable d e = none :=
  if_neg (by simp [hp])

theorem nextTable_leaf (e : ℕ) : nextTable 3 e = none := if_neg (by simp)

theorem nextTable_large (hs : sizePat e = true) : nextTable 2 e = none := if_neg (by simp [hs])

theorem agree_four : Agree tables 4 p q ↔ p % 2 ^ 36 = q % 2 ^ 36 := by
  constructor
  · intro h
    have h0 := congrArg Fin.val (h 0 (by decide))
    have h1 := congrArg Fin.val (h 1 (by decide))
    have h2 := congrArg Fin.val (h 2 (by decide))
    have h3 := congrArg Fin.val (h 3 (by decide))
    simp only [tables, tableIndex] at h0 h1 h2 h3
    omega
  · intro h j hj
    apply Fin.ext
    change p / 2 ^ (9 * (3 - j)) % 512 = q / 2 ^ (9 * (3 - j)) % 512
    obtain rfl | rfl | rfl | rfl : j = 0 ∨ j = 1 ∨ j = 2 ∨ j = 3 := by omega
    all_goals omega

theorem agree_three : Agree tables 3 p q ↔ p / 512 % 2 ^ 27 = q / 512 % 2 ^ 27 := by
  constructor
  · intro h
    have h0 := congrArg Fin.val (h 0 (by decide))
    have h1 := congrArg Fin.val (h 1 (by decide))
    have h2 := congrArg Fin.val (h 2 (by decide))
    simp only [tables, tableIndex] at h0 h1 h2
    omega
  · intro h j hj
    apply Fin.ext
    change p / 2 ^ (9 * (3 - j)) % 512 = q / 2 ^ (9 * (3 - j)) % 512
    obtain rfl | rfl | rfl : j = 0 ∨ j = 1 ∨ j = 2 := by omega
    all_goals omega

theorem entryOf_mod (memory : Buffer) (root : ℕ) (hd : d < 4) (hpq : p % 2 ^ 36 = q % 2 ^ 36) :
    entryOf memory root d p = entryOf memory root d q := look_congr ((agree_four.mpr hpq).mono hd)

theorem slots_setEntry (he : e < 2 ^ 64) :
    slots (setEntry memory (a * 2 ^ 12) i e) = put (slots memory) a i e := by
  funext g j
  have hi := i.isLt
  have hj := j.isLt
  rw [slots, entry, setEntry]
  by_cases h : g = a ∧ j = i
  · obtain ⟨rfl, rfl⟩ := h
    rw [getLE_setLE_self, put_self]
    exact Nat.mod_eq_of_lt he
  · have hne : g ≠ a ∨ (j : ℕ) ≠ i := by
      by_cases hg : g = a
      · exact Or.inr fun hij => h ⟨hg, Fin.ext hij⟩
      · exact Or.inl hg
    rw [getLE_setLE_of_disjoint _ (by omega), put, if_neg h, slots, entry]

theorem slots_clear : slots (clear memory (f * 2 ^ 12) 0x1000) =
    fun g j => if g = f then 0 else slots memory g j := by
  funext g j
  have hj := j.isLt
  rw [slots, entry]
  by_cases h : g = f
  · subst h
    rw [if_pos rfl, ← getLE_zero 0 8]
    apply getLE_congr
    intro k hk
    rw [clear, if_pos (by omega)]
  · rw [if_neg h, slots, entry]
    apply getLE_congr
    intro k hk
    rw [clear, if_neg (by omega)]

/-- What a page is mapped to. -/
inductive Mapping where
  | small (frame : ℕ)
  | large (frame : ℕ)
deriving DecidableEq, Repr

def Mapping.address (virtualAddress : ℕ) : Mapping → ℕ
  | .small frame => frame * 2 ^ 12 + virtualAddress % 2 ^ 12
  | .large frame => frame * 2 ^ 21 + virtualAddress % 2 ^ 21

/-- The mapping for the entries of a page in the page directory and in the page table. -/
def mapping (pdEntry ptEntry : ℕ) : Option Mapping :=
  if !present pdEntry then none
  else if sizePat pdEntry then some (.large (physicalAddr pdEntry))
  else if !present ptEntry then none
  else some (.small (physicalAddr ptEntry))

def translate (memory : Buffer) (root p : ℕ) : Option Mapping :=
  mapping (entryOf memory root 2 p) (entryOf memory root 3 p)

theorem translate_mod (memory : Buffer) (root : ℕ) (hpq : p % 2 ^ 36 = q % 2 ^ 36) :
    translate memory root p = translate memory root q := by
  rw [translate, translate, entryOf_mod _ _ (by decide) hpq, entryOf_mod _ _ (by decide) hpq]

theorem entryOf_next (memory : Buffer) (root p : ℕ) (hd : d < 3)
    (hs : d = 2 → sizePat (entryOf memory root d p) = false)
    (hp : present (entryOf memory root d p) = true) : entryOf memory root (d + 1) p =
      entry memory (physicalAddr (entryOf memory root d p) * 2 ^ 12) (tableIndex (d + 1) p) := by
  cases hn : tableOf memory root d p with
  | none =>
    rw [entryOf, look_of_none hn] at hp
    cases hp
  | some a =>
    have hlook : entryOf memory root d p = slots memory a (tableIndex d p) := look_of_some hn
    rw [hlook] at hs hp ⊢
    exact look_of_some ((node_succ_of_some hn).trans (nextTable_of_present hd hp hs))

theorem entryOf_missing (memory : Buffer) (root p : ℕ)
    (hp : present (entryOf memory root d p) = false) :
    entryOf memory root (d + 1) p = 0 := by
  cases hn : tableOf memory root d p with
  | none => exact look_of_none (node_succ_of_none hn)
  | some a =>
    have hlook : entryOf memory root d p = slots memory a (tableIndex d p) := look_of_some hn
    rw [hlook] at hp
    exact look_of_none ((node_succ_of_some hn).trans (nextTable_of_not_present hp))

theorem keResolvePhysicalAddress_eq (memory : Buffer) (pageMap virtualAddress : ℕ) :
    keResolvePhysicalAddress memory pageMap virtualAddress =
      (translate memory (pageMap / 2 ^ 12) (virtualAddress / 2 ^ 12)).map
        (Mapping.address virtualAddress) := by
  have h0 : entry memory (untagged pageMap) (virtualAddress / 2 ^ 12 / 2 ^ 27 % 512) =
      entryOf memory (pageMap / 2 ^ 12) 0 (virtualAddress / 2 ^ 12) := rfl
  have h1 := entryOf_next memory (pageMap / 2 ^ 12) (virtualAddress / 2 ^ 12) (d := 0)
    (by decide) (fun h => by cases h)
  have h2 := entryOf_next memory (pageMap / 2 ^ 12) (virtualAddress / 2 ^ 12) (d := 1)
    (by decide) (fun h => by cases h)
  have h3 := entryOf_next memory (pageMap / 2 ^ 12) (virtualAddress / 2 ^ 12) (d := 2) (by decide)
  rw [keResolvePhysicalAddress, translate]
  dsimp only
  rw [h0]
  cases hp0 : present (entryOf memory (pageMap / 2 ^ 12) 0 (virtualAddress / 2 ^ 12)) with
  | false =>
    have hm1 := entryOf_missing _ _ _ hp0
    have hm2 := entryOf_missing memory (pageMap / 2 ^ 12) (virtualAddress / 2 ^ 12) (d := 1) (by
      rw [hm1]; rfl)
    rw [hm2]
    rfl
  | true =>
    rw [← show _ = entry memory _ (virtualAddress / 2 ^ 12 / 2 ^ 18 % 512) from h1 hp0]
    cases hp1 : present (entryOf memory (pageMap / 2 ^ 12) 1 (virtualAddress / 2 ^ 12)) with
    | false =>
      rw [entryOf_missing _ _ _ hp1]
      rfl
    | true =>
      rw [← show _ = entry memory _ (virtualAddress / 2 ^ 12 / 2 ^ 9 % 512) from h2 hp1]
      cases hp2 : present (entryOf memory (pageMap / 2 ^ 12) 2 (virtualAddress / 2 ^ 12)) with
      | false =>
        rw [mapping, hp2]
        rfl
      | true =>
        cases hs : sizePat (entryOf memory (pageMap / 2 ^ 12) 2 (virtualAddress / 2 ^ 12)) with
        | true =>
          rw [mapping, hp2, hs]
          rfl
        | false =>
          rw [← show _ = entry memory _ (virtualAddress / 2 ^ 12 % 512) from
            (h3 (fun _ => hs) hp2).trans (by simp [tableIndex])]
          rw [mapping, hp2, hs]
          cases hp3 : present (entryOf memory (pageMap / 2 ^ 12) 3 (virtualAddress / 2 ^ 12)) <;>
            rfl

end DevOs.Paging
