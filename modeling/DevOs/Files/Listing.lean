import Mathlib.Data.Fintype.Basic
import Mathlib.Data.List.Chain
import Mathlib.Tactic.Common

/-!
# The listing of a directory

A `DIRECTORY_FILE_LIST` is a chain of blocks of 50 entries, of which some are set. `FsDirNext`
returns the next set entry behind a cursor. It moves to the next block when the index in the block
comes to the file count of the whole list, and it does not start a block from its first entry when
it comes to it in its own search, which goes through at most 255 blocks. The set entries are listed
in their order exactly when none of this passes over the next one.
-/

namespace DevOs.Files

def maxFilesPerDirlsList : ℕ := 50

/-- A directory list: the number of its blocks, of which there is always one, and the `Set` fields
of their entries. -/
structure ContentList where
  blocks : ℕ
  pos : 0 < blocks
  set : ℕ → Fin maxFilesPerDirlsList → Bool

/-- `current`, by the number of its block, and `in_index`. -/
structure DirCursor where
  current : ℕ
  inIndex : ℕ
deriving DecidableEq, Repr

def fsCreateDirList : DirCursor := ⟨0, 0⟩

/-- The loop over the entries of a block, with `n` of them left. Its bound is the proof that the
index lies in the block. -/
def findSet (block : Fin maxFilesPerDirlsList → Bool) :
    (n : ℕ) → n ≤ maxFilesPerDirlsList → Option ℕ
  | 0, _ => none
  | n + 1, h =>
    if block ⟨maxFilesPerDirlsList - (n + 1), Nat.sub_lt_of_pos_le (Nat.succ_pos n) h⟩ then
      some (maxFilesPerDirlsList - (n + 1))
    else findSet block n (Nat.le_of_succ_le h)

/-- The loop over the blocks, with `z` of them left: the entry with the block where the search
stands at its end. Every block is searched from the same index. -/
def findEntry (l : ContentList) (inIndex : ℕ) : ℕ → ℕ → Option (ℕ × ℕ) × ℕ
  | 0, current => (none, current)
  | z + 1, current =>
    match findSet (l.set current) (maxFilesPerDirlsList - inIndex) (Nat.sub_le _ _) with
    | some i => (some (current, i), current)
    | none =>
        if current + 1 < l.blocks then findEntry l inIndex z (current + 1) else (none, current)

/-- `FsDirNext`: the entry, by its block and its index, and the cursor. -/
def fsDirNext (l : ContentList) (fileCount : ℕ) (s : DirCursor) : Option (ℕ × ℕ) × DirCursor :=
  let s := if maxFilesPerDirlsList ≤ s.inIndex ∨ fileCount ≤ s.inIndex then
      ⟨if s.current + 1 < l.blocks then s.current + 1 else 0, 0⟩
    else s
  match findEntry l s.inIndex 255 s.current with
  | (some (block, i), current) => (some (block, i), ⟨current, i + 1⟩)
  | (none, current) => (none, ⟨current, s.inIndex⟩)

/-- What the next `n` calls return. -/
def listing (l : ContentList) (fileCount : ℕ) : ℕ → DirCursor → List (Option (ℕ × ℕ))
  | 0, _ => []
  | n + 1, s => (fsDirNext l fileCount s).1 :: listing l fileCount n (fsDirNext l fileCount s).2

def ContentList.entries (l : ContentList) : List (ℕ × ℕ) :=
  (List.range l.blocks).flatMap fun b => ((List.finRange maxFilesPerDirlsList).filter (l.set b)).map
    fun i => (b, i.val)

def ListsAll (l : ContentList) (fileCount : ℕ) : Prop :=
  listing l fileCount l.entries.length fsCreateDirList = l.entries.map some

/-- The entry `q` can be found from the entry `p`. While the cursor stays in the block, `q` must lie
there, or behind the index of `p` in a block that the search comes to. -/
def Follows (fileCount : ℕ) (p q : ℕ × ℕ) : Prop :=
  if p.2 + 1 < maxFilesPerDirlsList ∧ p.2 + 1 < fileCount then p.1 = q.1 ∨ p.2 < q.2 ∧
    q.1 < p.1 + 255
  else p.1 < q.1 ∧ q.1 ≤ p.1 + 255

/-- The entry `q` can be found from the start of the list. -/
def Starts (l : ContentList) (fileCount : ℕ) (q : ℕ × ℕ) : Prop :=
  if 0 < fileCount then q.1 < 255 else (l.blocks = 1 ∨ 0 < q.1) ∧ q.1 ≤ 255

variable {l : ContentList} {c : ℕ} {p q : ℕ × ℕ}

def ContentList.IsSet (l : ContentList) (p : ℕ × ℕ) : Prop :=
  p.1 < l.blocks ∧ ∃ h : p.2 < maxFilesPerDirlsList, l.set p.1 ⟨p.2, h⟩ = true

def Before (p q : ℕ × ℕ) : Prop := p.1 < q.1 ∨ p.1 = q.1 ∧ p.2 < q.2

theorem mem_entries : p ∈ l.entries ↔ l.IsSet p := by
  rw [ContentList.entries, List.mem_flatMap]
  constructor
  · rintro ⟨b, hb, hp⟩
    obtain ⟨i, hi, rfl⟩ := List.mem_map.mp hp
    exact ⟨List.mem_range.mp hb, i.isLt, (List.mem_filter.mp hi).2⟩
  · rintro ⟨hb, hi, hset⟩
    refine ⟨p.1, List.mem_range.mpr hb, List.mem_map.mpr ⟨⟨p.2, hi⟩, ?_, rfl⟩⟩
    exact List.mem_filter.mpr ⟨List.mem_finRange _, hset⟩

theorem entries_pairwise (l : ContentList) : l.entries.Pairwise Before := by
  rw [ContentList.entries, List.pairwise_flatMap]
  constructor
  · intro b _
    rw [List.pairwise_map]
    refine ((List.pairwise_lt_finRange _).filter _).imp fun hij => ?_
    exact .inr ⟨rfl, hij⟩
  · refine List.pairwise_lt_range.imp fun hab p hp q hq => ?_
    obtain ⟨i, -, rfl⟩ := List.mem_map.mp hp
    obtain ⟨j, -, rfl⟩ := List.mem_map.mp hq
    exact .inl hab

theorem findSet_eq_some {block : Fin maxFilesPerDirlsList → Bool} {n k : ℕ}
    (h : n ≤ maxFilesPerDirlsList) :
    findSet block n h = some k ↔ maxFilesPerDirlsList - n ≤ k ∧
      (∃ hk : k < maxFilesPerDirlsList, block ⟨k, hk⟩ = true) ∧
      ∀ j (hj : j < maxFilesPerDirlsList), maxFilesPerDirlsList - n ≤ j → block ⟨j, hj⟩ = true →
      k ≤ j := by
  induction n with
  | zero =>
    refine ⟨fun hf => (by cases hf), fun ⟨hle, ⟨hk, _⟩, _⟩ => ?_⟩
    omega
  | succ n ih =>
    rw [findSet]
    by_cases hset : block ⟨maxFilesPerDirlsList - (n + 1),
      Nat.sub_lt_of_pos_le (Nat.succ_pos n) h⟩ = true
    · rw [if_pos hset, Option.some.injEq]
      constructor
      · rintro rfl
        exact ⟨le_rfl, ⟨_, hset⟩, fun j _ hj _ => hj⟩
      · rintro ⟨hle, -, hmin⟩
        exact Nat.le_antisymm hle (hmin _ _ le_rfl hset)
    · rw [if_neg hset, ih]
      have hstep : ∀ j (hj : j < maxFilesPerDirlsList), block ⟨j, hj⟩ = true →
          (maxFilesPerDirlsList - (n + 1) ≤ j ↔ maxFilesPerDirlsList - n ≤ j) := by
        intro j hj hb
        have hne : j ≠ maxFilesPerDirlsList - (n + 1) := by
          rintro rfl
          exact hset hb
        omega
      constructor
      · rintro ⟨hle, ⟨hk, hb⟩, hmin⟩
        exact ⟨(hstep k hk hb).mpr hle, ⟨hk, hb⟩,
          fun j hj hle' hb' => hmin j hj ((hstep j hj hb').mp hle') hb'⟩
      · rintro ⟨hle, ⟨hk, hb⟩, hmin⟩
        exact ⟨(hstep k hk hb).mp hle, ⟨hk, hb⟩,
          fun j hj hle' hb' => hmin j hj ((hstep j hj hb').mpr hle') hb'⟩

theorem exists_findSet {block : Fin maxFilesPerDirlsList → Bool} {n k : ℕ}
    (h : n ≤ maxFilesPerDirlsList) (hk : k < maxFilesPerDirlsList)
    (hle : maxFilesPerDirlsList - n ≤ k) (hset : block ⟨k, hk⟩ = true) :
    ∃ j, findSet block n h = some j := by
  induction n with
  | zero => omega
  | succ n ih =>
    rw [findSet]
    by_cases hb : block ⟨maxFilesPerDirlsList - (n + 1), Nat.sub_lt_of_pos_le (Nat.succ_pos n) h⟩ =
      true
    · exact ⟨_, if_pos hb⟩
    · rw [if_neg hb]
      refine ih (Nat.le_of_succ_le h) ?_
      have hne : k ≠ maxFilesPerDirlsList - (n + 1) := by
        rintro rfl
        exact hb hset
      omega

/-- The search comes to the first block with a set entry from the index on, if it is not too far. -/
theorem findEntry_eq_some {i z cur : ℕ} (hcur : cur < l.blocks) : (findEntry l i z cur).1 = some q ↔
    l.IsSet q ∧ cur ≤ q.1 ∧ q.1 < cur + z ∧ i ≤ q.2 ∧
      ∀ r, l.IsSet r → cur ≤ r.1 → i ≤ r.2 → ¬Before r q := by
  induction z generalizing cur with
  | zero =>
    refine ⟨fun h => (by cases h), fun ⟨_, h1, h2, _⟩ => ?_⟩
    omega
  | succ z ih =>
    rw [findEntry]
    cases hf : findSet (l.set cur) (maxFilesPerDirlsList - i) (Nat.sub_le _ _) with
    | some k =>
      obtain ⟨hle, ⟨hk, hset⟩, hmin⟩ := (findSet_eq_some _).mp hf
      have hik : i ≤ k := by omega
      simp only [Option.some.injEq]
      constructor
      · rintro rfl
        refine ⟨⟨hcur, hk, hset⟩, le_rfl, by simp only; omega, hik, fun r hr hcr hir hbefore => ?_⟩
        rcases hbefore with hlt | ⟨heq, hlt⟩
        · omega
        · obtain ⟨-, hr2, hrs⟩ := hr
          simp only at heq
          have hkr := hmin r.2 hr2 (by omega) (heq ▸ hrs)
          omega
      · rintro ⟨⟨hq1, hq2, hqs⟩, hcq, -, hiq, hall⟩
        have hnot := hall (cur, k) ⟨hcur, hk, hset⟩ le_rfl hik
        have hblock : cur = q.1 := by
          by_contra hne
          exact hnot (.inl (by simp only; omega))
        have hkq : k ≤ q.2 := hmin q.2 hq2 (by omega) (hblock ▸ hqs)
        have heq : k = q.2 := by
          by_contra hne
          exact hnot (.inr ⟨hblock, by simp only; omega⟩)
        rw [hblock, heq]
    | none =>
      have hnone : ∀ r, l.IsSet r → i ≤ r.2 → r.1 ≠ cur := by
        rintro r ⟨-, hr2, hrs⟩ hir heq
        obtain ⟨k, hk⟩ := exists_findSet (Nat.sub_le _ i) hr2 (by omega) (heq ▸ hrs)
        rw [hf] at hk
        cases hk
      simp only
      by_cases hnext : cur + 1 < l.blocks
      · rw [if_pos hnext, ih hnext]
        constructor
        · rintro ⟨hq, hc, hz, hi, hall⟩
          refine ⟨hq, by omega, by omega, hi, fun r hr hcr hir => hall r hr ?_ hir⟩
          have hne := hnone r hr hir
          omega
        · rintro ⟨hq, hc, hz, hi, hall⟩
          have hne := hnone q hq hi
          exact ⟨hq, by omega, by omega, hi, fun r hr hcr hir => hall r hr (by omega) hir⟩
      · rw [if_neg hnext]
        refine ⟨fun h => (by cases h), fun ⟨hq, hc, _, hi, _⟩ => ?_⟩
        have hne := hnone q hq hi
        have hlt := hq.1
        omega

theorem findEntry_block {i z cur : ℕ} (h : (findEntry l i z cur).1 = some q) :
    (findEntry l i z cur).2 = q.1 := by
  induction z generalizing cur with
  | zero => cases h
  | succ z ih =>
    rw [findEntry] at h ⊢
    cases hf : findSet (l.set cur) (maxFilesPerDirlsList - i) (Nat.sub_le _ _) with
    | some k =>
      simp only [hf, Option.some.injEq] at h
      rw [← h]
    | none =>
      simp only [hf] at h ⊢
      by_cases hnext : cur + 1 < l.blocks
      · rw [if_pos hnext] at h ⊢
        exact ih h
      · rw [if_neg hnext] at h
        cases h

/-- The cursor after the entry `p` has been returned. -/
def behind (p : ℕ × ℕ) : DirCursor := ⟨p.1, p.2 + 1⟩

def searchStart (l : ContentList) (fileCount : ℕ) (s : DirCursor) : DirCursor :=
  if maxFilesPerDirlsList ≤ s.inIndex ∨ fileCount ≤ s.inIndex then
    ⟨if s.current + 1 < l.blocks then s.current + 1 else 0, 0⟩
  else s

theorem fsDirNext_eq_some {s : DirCursor} : (fsDirNext l c s).1 = some q ↔
    (findEntry l (searchStart l c s).inIndex 255 (searchStart l c s).current).1 = some q := by
  rw [fsDirNext, ← searchStart]
  rcases findEntry l (searchStart l c s).inIndex 255
    (searchStart l c s).current with ⟨_ | ⟨b, i⟩, cur⟩
  · exact Iff.rfl
  · exact Iff.rfl

theorem fsDirNext_behind {s : DirCursor} (h : (fsDirNext l c s).1 = some q) :
    (fsDirNext l c s).2 = behind q := by
  have hblock := findEntry_block (fsDirNext_eq_some.mp h)
  have hfound := fsDirNext_eq_some.mp h
  rw [fsDirNext, ← searchStart]
  rcases hr : findEntry l (searchStart l c s).inIndex 255
    (searchStart l c s).current with ⟨_ | ⟨b, i⟩, cur⟩
  · rw [hr] at hfound
    cases hfound
  · rw [hr] at hfound hblock
    obtain rfl := Option.some.inj hfound
    simp only at hblock
    rw [behind, ← hblock]

/-- From the entry before it, the next set entry is found when the condition holds. -/
theorem fsDirNext_behind_iff (hp : l.IsSet p) (hq : l.IsSet q) (hpq : Before p q)
    (hnext : ∀ r, l.IsSet r → Before p r → ¬Before r q) :
    (fsDirNext l c (behind p)).1 = some q ↔ Follows c p q := by
  have hp1 := hp.1
  obtain ⟨hp2, -⟩ := hp.2
  have hq1 := hq.1
  rw [fsDirNext_eq_some, Follows]
  by_cases hstay : p.2 + 1 < maxFilesPerDirlsList ∧ p.2 + 1 < c
  · have hstart : searchStart l c (behind p) = ⟨p.1, p.2 + 1⟩ := by
      rw [searchStart, behind, if_neg (by simp only; omega)]
    rw [if_pos hstay, hstart, findEntry_eq_some hp1]
    simp only
    constructor
    · rintro ⟨-, hle, hz, hi, -⟩
      omega
    · intro h
      unfold Before at hpq
      refine ⟨hq, by omega, by omega, by omega, fun r hr hcr hir => hnext r hr ?_⟩
      unfold Before
      omega
  · rw [if_neg hstay]
    have hwrap : maxFilesPerDirlsList ≤ (behind p).inIndex ∨ c ≤ (behind p).inIndex := by
      simp only [behind]
      omega
    have hstart : searchStart l c (behind p) = ⟨if p.1 + 1 < l.blocks then p.1 + 1 else 0, 0⟩ :=
      if_pos hwrap
    rw [hstart]
    by_cases hblock : p.1 + 1 < l.blocks
    · simp only [if_pos hblock]
      rw [findEntry_eq_some hblock]
      constructor
      · rintro ⟨-, hle, hz, -⟩
        omega
      · intro h
        refine ⟨hq, by omega, by omega, Nat.zero_le _, fun r hr hcr _ => hnext r hr ?_⟩
        unfold Before
        omega
    · simp only [if_neg hblock]
      rw [findEntry_eq_some l.pos]
      constructor
      · rintro ⟨-, -, -, -, hall⟩
        exact absurd hpq (hall p hp (Nat.zero_le _) (Nat.zero_le _))
      · intro h
        omega

theorem fsDirNext_first_iff (hq : l.IsSet q) (hfirst : ∀ r, l.IsSet r → ¬Before r q) :
    (fsDirNext l c fsCreateDirList).1 = some q ↔ Starts l c q := by
  have hq1 := hq.1
  have hpos := l.pos
  rw [fsDirNext_eq_some, Starts]
  by_cases hc : 0 < c
  · have hstart : searchStart l c fsCreateDirList = ⟨0, 0⟩ := by
      rw [searchStart, fsCreateDirList, if_neg]
      have hsize : maxFilesPerDirlsList = 50 := rfl
      simp only
      omega
    rw [if_pos hc, hstart, findEntry_eq_some hpos]
    simp only
    constructor
    · rintro ⟨-, -, hz, -⟩
      omega
    · intro h
      exact ⟨hq, Nat.zero_le _, by omega, Nat.zero_le _, fun r hr _ _ => hfirst r hr⟩
  · have hwrap : maxFilesPerDirlsList ≤ fsCreateDirList.inIndex ∨ c ≤ fsCreateDirList.inIndex :=
      .inr (by omega)
    have hstart : searchStart l c fsCreateDirList = ⟨if 0 + 1 < l.blocks then 0 + 1 else 0, 0⟩ :=
      if_pos hwrap
    rw [if_neg hc, hstart]
    by_cases hblock : 0 + 1 < l.blocks
    · simp only [if_pos hblock]
      rw [findEntry_eq_some hblock]
      constructor
      · rintro ⟨-, hle, hz, -⟩
        omega
      · intro h
        exact ⟨hq, by omega, by omega, Nat.zero_le _, fun r hr _ _ => hfirst r hr⟩
    · simp only [if_neg hblock]
      rw [findEntry_eq_some hpos]
      constructor
      · rintro ⟨-, -, hz, -⟩
        omega
      · intro h
        exact ⟨hq, Nat.zero_le _, by omega, Nat.zero_le _, fun r hr _ _ => hfirst r hr⟩

theorem listing_eq_iff {n : ℕ} {m : List (ℕ × ℕ)} {s : DirCursor} :
    listing l c (n + 1) s = (q :: m).map some ↔
    (fsDirNext l c s).1 = some q ∧ listing l c n (behind q) = m.map some := by
  rw [listing, List.map_cons, List.cons.injEq]
  refine and_congr_right fun h => ?_
  rw [fsDirNext_behind h]

/-- The calls behind an entry return the rest of the list when every entry can be found from the one
before it. -/
theorem listing_behind_iff (m : List (ℕ × ℕ)) (p : ℕ × ℕ) (hset : ∀ r ∈ p :: m, l.IsSet r)
    (hsorted : (p :: m).Pairwise Before) (hall : ∀ r, l.IsSet r → Before p r → r ∈ m) :
    listing l c m.length (behind p) = m.map some ↔ (p :: m).IsChain (Follows c) := by
  induction m generalizing p with
  | nil => simp [listing]
  | cons q m ih =>
    obtain ⟨hp, hsorted'⟩ := List.pairwise_cons.mp hsorted
    obtain ⟨hq, -⟩ := List.pairwise_cons.mp hsorted'
    have hpq := hp q List.mem_cons_self
    have hnext : ∀ r, l.IsSet r → Before p r → ¬Before r q := by
      intro r hr hpr hrq
      rcases List.mem_cons.mp (hall r hr hpr) with rfl | hm
      · unfold Before at hrq
        omega
      · have hqr := hq r hm
        unfold Before at hrq hqr
        omega
    rw [List.length_cons, listing_eq_iff, List.isChain_cons_cons,
      fsDirNext_behind_iff (hset p List.mem_cons_self)
      (hset q (List.mem_cons_of_mem _ List.mem_cons_self)) hpq hnext,
      ih q (fun r hr => hset r (List.mem_cons_of_mem _ hr)) hsorted']
    intro r hr hqr
    have hpr : Before p r := by
      unfold Before at hpq hqr ⊢
      omega
    rcases List.mem_cons.mp (hall r hr hpr) with rfl | hm
    · unfold Before at hqr
      omega
    · exact hm

/-- A directory is listed right exactly when its first set entry can be found from the start, and
every other one from the one before it. -/
theorem fsDirNext_lists_iff (l : ContentList) (fileCount : ℕ) : ListsAll l fileCount ↔
    (∀ q ∈ l.entries.head?, Starts l fileCount q) ∧ l.entries.IsChain (Follows fileCount) := by
  have hsorted := entries_pairwise l
  have hmem : ∀ r, r ∈ l.entries ↔ l.IsSet r := fun r => mem_entries
  rw [ListsAll]
  cases he : l.entries with
  | nil => simp [listing]
  | cons q m =>
    rw [he] at hsorted hmem
    obtain ⟨hq, -⟩ := List.pairwise_cons.mp hsorted
    have hfirst : ∀ r, l.IsSet r → ¬Before r q := by
      intro r hr hrq
      rcases List.mem_cons.mp ((hmem r).mpr hr) with rfl | hm
      · unfold Before at hrq
        omega
      · have hqr := hq r hm
        unfold Before at hrq hqr
        omega
    have hrest : ∀ r, l.IsSet r → Before q r → r ∈ m := by
      intro r hr hqr
      rcases List.mem_cons.mp ((hmem r).mpr hr) with rfl | hm
      · unfold Before at hqr
        omega
      · exact hm
    rw [List.length_cons, listing_eq_iff,
      fsDirNext_first_iff ((hmem q).mp List.mem_cons_self) hfirst,
      listing_behind_iff m q (fun r hr => (hmem r).mp hr) hsorted hrest]
    simp

/-- Two entries in one block, with a file count of two: the second call returns the first entry
again. -/
theorem sparseBlock_not_listed :
    ¬ListsAll ⟨1, Nat.one_pos, fun _ i => i.val = 3 ∨ i.val = 7⟩ 2 := by
  unfold ListsAll
  decide

end DevOs.Files
