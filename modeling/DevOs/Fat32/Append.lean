import DevOs.Fat32.Allocate

/-!
# Allocation is an append

On a FAT whose chains are well formed, `Fat32AllocateClusterChain` takes zero entries only, makes a
chain of them and appends it to the chain it was given; no other entry changes. The cluster number
`0x0FFFFFFF` is the exception: a link to it reads as the end of the chain. A FAT that is large
enough to have it as a free cluster makes a chain that is too short.
-/

namespace DevOs.Fat32

open Bytes Chains

/-- The chains of the FAT are well formed: from each nonzero entry the links go through nonzero
entries of the FAT to the end mark. -/
structure WellFormedFat (s : State) : Prop where
  first : s.fat 0 ≠ 0
  second : s.fat 1 ≠ 0
  chains : ∀ c, 2 ≤ c → c < s.partition.fatEntries → s.fat c ≠ 0 → ∃ l,
    Chain s.fat endOfChain (c :: l) ∧ ∀ b ∈ c :: l, b < s.partition.fatEntries ∧ s.fat b ≠ 0

/-- A cluster of a chain that the range checks accept, or zero for a new chain. -/
def AcceptedStart (s : State) (start : ℕ) : Prop :=
  start = 0 ∨ (2 ≤ start ∧ start ≤ s.partition.dataClusters ∧ start < s.partition.fatEntries ∧
    s.fat start ≠ 0)

/-- From `s` to `s'` a new chain of `n` clusters with the given head was appended to the chain of
`start`, and nothing else in the FAT changed. -/
def ChainAppended (s s' : State) (start n head : ℕ) : Prop :=
  ∃ zs : List ℕ, zs.length = n ∧ zs.Nodup ∧ zs.head? = some head ∧
    (∀ z ∈ zs, z < s.partition.fatEntries ∧ s.fat z = 0) ∧
    Chain s'.fat endOfChain zs ∧
    (start ≠ 0 → ∀ l, Chain s.fat endOfChain (start :: l) →
      Chain s'.fat endOfChain (start :: l ++ zs)) ∧
    ∀ c < s.partition.fatEntries, c ∉ zs →
      (start ≠ 0 → ∀ l, Chain s.fat endOfChain (start :: l) → (start :: l).getLast? ≠ some c) →
      s'.fat c = s.fat c

variable {s s' : State} {F F' : ℕ → ℕ} {e : ℕ} {zs l : List ℕ}

theorem Appended.chain {old : Option ℕ} (h : Appended F F' e old zs) (hne : zs ≠ [])
    (hstop : endOfChain ∉ zs) : Chain F' endOfChain zs := by
  obtain ⟨ys, z, rfl⟩ : ∃ ys z, zs = ys ++ [z] := by
    rcases List.eq_nil_or_concat zs with rfl | ⟨ys, z, hz⟩
    · exact absurd rfl hne
    · exact ⟨ys, z, by rw [hz, List.concat_eq_append]⟩
  apply h.links.chain
  · exact h.last z List.getLast?_concat
  · rintro b hb rfl
    exact hstop (List.mem_of_mem_tail hb)

theorem Appended.chain_append (h : Appended F F' e l.getLast? zs) (hne : zs ≠ [])
    (hstop : endOfChain ∉ zs) (hl : Chain F endOfChain l) (hlt : ∀ b ∈ l, b < e ∧ F b ≠ 0) :
    Chain F' endOfChain (l ++ zs) := by
  have hzs := h.chain hne hstop
  have hlast : l.getLast? = some (l.getLast hl.ne_nil) := List.getLast?_eq_some_getLast hl.ne_nil
  apply hl.append hzs
  · intro heq
    exact hstop (heq ▸ List.head_mem hzs.ne_nil)
  · rw [h.relinked _ hlast, List.head?_eq_some_head hzs.ne_nil, Option.getD_some]
  · intro a ha hal
    apply h.other a (hlt a ha).1
    · intro hz
      exact (hlt a ha).2 (h.zero a hz)
    · rw [hlast]
      intro heq
      exact hal (Option.some.inj heq).symm

theorem WellFormedFat.oldChain {start : ℕ} (h : WellFormedFat s) (hs : AcceptedStart s start) :
    ∃ l, OldChain s start l ∧ (start ≠ 0 → ∃ m, l = start :: m) ∧ (start = 0 → l = []) := by
  rcases hs with rfl | ⟨h2, hle, hlt, hne⟩
  · exact ⟨[], .none, fun h0 => absurd rfl h0, fun _ => rfl⟩
  · obtain ⟨m, hchain, hmem⟩ := h.chains start h2 hlt hne
    exact ⟨start :: m, .some h2 hle hchain hmem, fun _ => ⟨m, rfl⟩, fun h0 => by omega⟩

/-- `Fat32AllocateClusterChain` is a pure append, as long as the end mark is not a free cluster. -/
theorem allocate_appends {start n : ℕ} (hl : Layout s.partition) (hwf : WellFormedFat s)
    (hstart : AcceptedStart s start) (hn : 1 ≤ n)
    (hzeros : n ≤ (zeros s.fat s.partition.fatEntries).length)
    (hfree : n ≤ s.partition.fsInfo.freeClusters)
    (hend : endOfChain ∉ zeros s.fat s.partition.fatEntries) :
    ∃ s' head, fat32AllocateClusterChain s start n = some (s', head) ∧
      ChainAppended s s' start n head := by
  obtain ⟨l, hold, hcons, hnil⟩ := hwf.oldChain hstart
  obtain ⟨s', zs, hres, hlen, happ, -⟩ :=
    fat32AllocateClusterChain_spec hl hwf.first hn hfree hzeros hold
  have hne : zs ≠ [] := by
    rintro rfl
    rw [List.length_nil] at hlen
    omega
  have hstop : endOfChain ∉ zs := fun hm => hend (mem_zeros.mpr ⟨happ.lt _ hm, happ.zero _ hm⟩)
  have hhead : zs.head? = some (zs.head?.getD 0) := by
    rw [List.head?_eq_some_head hne, Option.getD_some]
  refine ⟨s', zs.head?.getD 0, hres, zs, hlen, happ.sorted.imp Nat.ne_of_lt, hhead, ?_,
    happ.chain hne hstop, ?_, ?_⟩
  · exact fun z hz => ⟨happ.lt z hz, happ.zero z hz⟩
  · intro h0 m hm
    cases hold with
    | none => exact absurd rfl h0
    | some h2 hle hchain hlt =>
      rw [← hchain.unique hm]
      exact happ.chain_append hne hstop hchain hlt
  · intro c hc hmem hlast
    apply happ.other c hc hmem
    cases hold with
    | none => nofun
    | some h2 hle hchain hlt => exact hlast (by omega) _ hchain

theorem length_le_zeros {ys : List ℕ} (hn : ys.Nodup) (h : ∀ c ∈ ys, c < e ∧ F c = 0) :
    ys.length ≤ (zeros F e).length :=
  (hn.subperm (fun c hc => mem_zeros.mpr (h c hc))).length_le

/-- A drive with the FAT `F` from the sector `sector` on. -/
def fatDisk (sector : ℕ) (F : ℕ → ℕ) : Buffer := fun a =>
  BitVec.ofNat 8 (F ((a - 512 * sector) / 4) / 256 ^ ((a - 512 * sector) % 4))

/-- A volume at sector zero with 16 reserved sectors and the FAT `F`. -/
def volumeOf (F : ℕ → ℕ) (sectorsPerFat totalSectors freeClusters : ℕ) : State where
  disk := fatDisk 16 F
  partition :=
    { boot := ⟨fun _ => 0, 1, 16, 0, totalSectors, sectorsPerFat, 1, 3, fun _ => 0⟩
      fsInfo := ⟨freeClusters, 0⟩
      secondaryFsInfo := 4
      fatSectorNumber := 0
      fatSector := fun _ => 0 }
  entryName := fun _ => 0
  writes := []

theorem volumeOf_fat (hF : ∀ c, F c < 2 ^ 32) (sectorsPerFat totalSectors freeClusters : ℕ) :
    (volumeOf F sectorsPerFat totalSectors freeClusters).fat = F := by
  funext c
  have hset : getLE (fatDisk 16 F) (512 * 16 + 4 * c) 4 =
      getLE (setLE (fun _ => 0) (4 * c) 4 (F c)) (4 * c) 4 := by
    apply getLE_congr
    intro i hi
    rw [fatDisk, setLE, if_pos (by omega)]
    rw [show (512 * 16 + 4 * c + i - 512 * 16) / 4 = c by omega,
      show (512 * 16 + 4 * c + i - 512 * 16) % 4 = i by omega, show 4 * c + i - 4 * c = i by omega]
  change getLE (fatDisk 16 F) (512 * 16 + 4 * c) 4 = F c
  rw [hset, getLE_setLE_self]
  exact Nat.mod_eq_of_lt (hF c)

theorem volumeOf_layout {sectorsPerFat totalSectors freeClusters : ℕ}
    (h : sectorsPerFat ≤ 2 ^ 25) :
    Layout (volumeOf F sectorsPerFat totalSectors freeClusters).partition := by
  refine ⟨?_, ?_, ?_, ?_⟩
  · change 0 + 16 + 2 * sectorsPerFat < 2 ^ 32
    omega
  · change 128 * sectorsPerFat ≤ 2 ^ 32
    omega
  · change 1 < 16
    decide
  · change 4 < 0 + 16
    decide

/-- The volume whose FAT is zero at the clusters `p` and has the end mark everywhere else. -/
def freeAt (p : ℕ → Prop) [DecidablePred p] (sectorsPerFat totalSectors freeClusters : ℕ) : State :=
  volumeOf (fun c => if p c then 0 else endOfChain) sectorsPerFat totalSectors freeClusters

section FreeAt

variable {p : ℕ → Prop} [DecidablePred p] {sectorsPerFat totalSectors freeClusters : ℕ}

theorem freeAt_fat :
    (freeAt p sectorsPerFat totalSectors freeClusters).fat =
      fun c => if p c then 0 else endOfChain := by
  apply volumeOf_fat
  intro c
  split_ifs <;> decide

theorem freeAt_fat_eq_zero {c : ℕ} :
    (freeAt p sectorsPerFat totalSectors freeClusters).fat c = 0 ↔ p c := by
  rw [freeAt_fat]
  dsimp only
  split_ifs with hc
  · exact ⟨fun _ => hc, fun _ => rfl⟩
  · exact ⟨fun h => absurd h (by decide), fun h => absurd h hc⟩

theorem freeAt_wellFormed (h0 : ¬ p 0) (h1 : ¬ p 1) :
    WellFormedFat (freeAt p sectorsPerFat totalSectors freeClusters) := by
  refine ⟨fun h => h0 (freeAt_fat_eq_zero.mp h), fun h => h1 (freeAt_fat_eq_zero.mp h), ?_⟩
  intro c _ hc hne
  refine ⟨[], ?_, ?_⟩
  · have hp : ¬ p c := fun h => hne (freeAt_fat_eq_zero.mpr h)
    change (freeAt p sectorsPerFat totalSectors freeClusters).fat c = endOfChain
    rw [freeAt_fat]
    exact if_neg hp
  · intro b hb
    rw [List.mem_singleton.mp hb]
    exact ⟨hc, hne⟩

end FreeAt

theorem allocate_appends_small : ∃ s' head,
    fat32AllocateClusterChain (freeAt (4 ≤ ·) 1 118 97) 2 3 = some (s', head) ∧
      ChainAppended (freeAt (4 ≤ ·) 1 118 97) s' 2 3 head := by
  have hwf : WellFormedFat (freeAt (4 ≤ ·) 1 118 97) := freeAt_wellFormed (by decide) (by decide)
  refine allocate_appends (volumeOf_layout (by decide)) hwf ?_ (by decide) ?_ (by decide) ?_
  · refine Or.inr ⟨by decide, by decide, by decide, ?_⟩
    rw [Ne, freeAt_fat_eq_zero]
    decide
  · have hnodup : [4, 5, 6].Nodup := by decide
    apply length_le_zeros hnodup
    intro c hc
    rw [freeAt_fat_eq_zero]
    simp only [List.mem_cons, List.not_mem_nil, or_false] at hc
    rcases hc with rfl | rfl | rfl <;> decide
  · rw [mem_zeros]
    rintro ⟨hlt, -⟩
    exact absurd hlt (by decide)

/-- With the clusters 5 and `0x0FFFFFFF` free, a new chain of two clusters has only one. -/
theorem allocate_end_mark :
    let s := freeAt (fun c => c = 5 ∨ c = endOfChain) (2 ^ 21) (2 ^ 28) 2
    WellFormedFat s ∧ Layout s.partition ∧ AcceptedStart s 0 ∧
      2 ≤ (zeros s.fat s.partition.fatEntries).length ∧ 2 ≤ s.partition.fsInfo.freeClusters ∧
      ∃ s' head, fat32AllocateClusterChain s 0 2 = some (s', head) ∧
        ¬ ChainAppended s s' 0 2 head := by
  intro s
  have hwf : WellFormedFat s := freeAt_wellFormed (by decide) (by decide)
  have hl : Layout s.partition := volumeOf_layout (by decide)
  have hzeros : [5, endOfChain].length ≤ (zeros s.fat s.partition.fatEntries).length := by
    apply length_le_zeros (by decide)
    intro c hc
    simp only [List.mem_cons, List.not_mem_nil, or_false] at hc
    refine ⟨?_, freeAt_fat_eq_zero.mpr hc⟩
    rcases hc with rfl | rfl <;> decide
  refine ⟨hwf, hl, Or.inl rfl, hzeros, by decide, ?_⟩
  obtain ⟨s', zs, hres, hlen, happ, -⟩ :=
    fat32AllocateClusterChain_spec hl hwf.first (by decide) (by decide) hzeros .none
  refine ⟨s', _, hres, ?_⟩
  rintro ⟨ys, hylen, hynodup, -, hyzero, hychain, -, -⟩
  match zs, hlen with
  | [a, b], _ =>
    have ha := freeAt_fat_eq_zero.mp (happ.zero a (by simp))
    have hb := freeAt_fat_eq_zero.mp (happ.zero b (by simp))
    have hlt : a < b := by simpa using happ.sorted
    have hbe : b = endOfChain := by
      rcases ha with rfl | rfl
      · rcases hb with rfl | rfl
        · omega
        · rfl
      · rcases hb with rfl | rfl
        · exact absurd hlt (by decide)
        · omega
    have hlast : s'.fat endOfChain = endOfChain := happ.last _ (by rw [hbe]; rfl)
    match ys, hylen with
    | [c, d], _ =>
      have hc := freeAt_fat_eq_zero.mp (hyzero c (by simp)).2
      have hd := freeAt_fat_eq_zero.mp (hyzero d (by simp)).2
      obtain ⟨hcd, hstop, -⟩ := hychain
      have hce : c = endOfChain := by
        rcases hc with rfl | rfl
        · rcases hd with rfl | rfl
          · simp at hynodup
          · exact absurd rfl hstop
        · rfl
      rw [hce, hlast] at hcd
      exact hstop hcd.symm

end DevOs.Fat32
