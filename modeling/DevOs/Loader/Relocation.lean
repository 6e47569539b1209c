import DevOs.Loader.Model

/-!
# Base relocation

What relocation is for: the blocks of the table are taken one after the other for as long as they
lie in the table, and each of their DIR64 entries whose target lies in the image gets the difference
of the bases added. A target may lie in the table itself, so the blocks are those of the bytes as
they stand when the walk gets there.

The loaders do this, and touch nothing else, for the tables that `Fits` describes. Their walk does
not stop at the end of the table, and a table whose blocks fill it is not one of these.
-/

namespace DevOs.Loader

open Bytes

def pageRva (b : Buffer) (o : ℕ) : ℕ := getLE b o 4

def blockSize (b : Buffer) (o : ℕ) : ℕ := getLE b (o + 4) 4

def entryWord (b : Buffer) (o i : ℕ) : ℕ := getLE b (o + 8 + 2 * i) 2

/-- The type of the entry `i` of the block at `o` is `IMAGE_REL_BASED_DIR64`. -/
def IsDir64 (b : Buffer) (o i : ℕ) : Prop := entryWord b o i / 2 ^ 12 = 10

instance (b : Buffer) (o i : ℕ) : Decidable (IsDir64 b o i) := inferInstanceAs (Decidable (_ = _))

def targetRebase (b : Buffer) (o i : ℕ) : ℕ := pageRva b o + entryWord b o i % 2 ^ 12

/-- The header and the entries of the block at `o` lie before the end of the table. -/
structure BlockInside (stop : ℕ) (b : Buffer) (o : ℕ) : Prop where
  page : pageRva b o ≠ 0
  header : 8 ≤ blockSize b o
  entries : o + 8 + 2 * ((blockSize b o - 8) / 2) ≤ stop

/-- The addition for the entry `i` of the block at `o`, in an image of `length` bytes. -/
def addEntry (length delta o i : ℕ) (b : Buffer) : Buffer :=
  if IsDir64 b o i ∧ targetRebase b o i + 8 ≤ length then
    setLE b (targetRebase b o i) 8 ((getLE b (targetRebase b o i) 8 + delta) % 2 ^ 64)
  else b

/-- The additions for `n` entries from the entry `i` on. -/
def addEntries (length delta o : ℕ) : ℕ → ℕ → Buffer → Buffer
  | 0, _, b => b
  | n + 1, i, b => addEntries length delta o n (i + 1) (addEntry length delta o i b)

/-- The additions for the block at `o`. -/
def addBlock (length delta o : ℕ) (b : Buffer) : Buffer :=
  addEntries length delta o ((blockSize b o - 8) / 2) 0 b

/-- From the bytes `b`, the blocks from `o` on lead to the bytes `c`. -/
inductive Relocated (stop length delta : ℕ) : ℕ → Buffer → Buffer → Prop where
  | block {o b c} (h : BlockInside stop b o)
      (rest : Relocated stop length delta (o + blockSize b o) (addBlock length delta o b) c) :
      Relocated stop length delta o b c
  | done {o b} (h : ¬BlockInside stop b o) : Relocated stop length delta o b b

/-- The targets of `n` entries from the entry `i` on lie in the image. -/
def TargetsInside (length delta o n i : ℕ) (b : Buffer) : Prop :=
  ∀ j < n, IsDir64 (addEntries length delta o j i b) o (i + j) →
    targetRebase (addEntries length delta o j i b) o (i + j) + 8 ≤ length

/-- The walk from `o` on stays in the table and in the image: it comes to an end mark that lies in
the table, or to a block that lies in the table although its size leads past the end. -/
inductive Fits (stop length delta : ℕ) : ℕ → Buffer → Prop where
  | mark {o b} (h : o + 8 ≤ stop) (hm : pageRva b o = 0 ∨ blockSize b o = 0) :
      Fits stop length delta o b
  | last {o b} (h : BlockInside stop b o)
      (ht : TargetsInside length delta o ((blockSize b o - 8) / 2) 0 b)
      (hend : stop < o + blockSize b o) :
      Fits stop length delta o b
  | block {o b} (h : BlockInside stop b o)
      (ht : TargetsInside length delta o ((blockSize b o - 8) / 2) 0 b)
      (rest : Fits stop length delta (o + blockSize b o) (addBlock length delta o b)) :
      Fits stop length delta o b

/-- Block headers and entries are read in the table, targets are read and written in the image. -/
def Access.Allowed (start stop length : ℕ) (a : Access) : Prop :=
  match a.kind with
  | .blockHeader | .entry => start ≤ a.start ∧ a.start + a.length ≤ stop
  | .target | .copied | .zeroed => a.start + a.length ≤ length

instance (start stop length : ℕ) (a : Access) : Decidable (a.Allowed start stop length) := by
  unfold Access.Allowed
  split <;> infer_instance

def Image.Allowed (start stop length : ℕ) (s : Image) : Prop :=
  ∀ a ∈ s.accesses, a.Allowed start stop length

section Additions

variable {stop length delta o i n : ℕ} {b c d : Buffer}

theorem Relocated.unique (h : Relocated stop length delta o b c)
    (h' : Relocated stop length delta o b d) : c = d := by
  induction h with
  | block hb _ ih =>
    cases h' with
    | block _ rest => exact ih rest
    | done hn => exact absurd hb hn
  | done hn =>
    cases h' with
    | block hb _ => exact absurd hb hn
    | done _ => rfl

theorem Relocated.rest (h : Relocated stop length delta o b c) (hb : BlockInside stop b o) :
    Relocated stop length delta (o + blockSize b o) (addBlock length delta o b) c := by
  cases h with
  | block _ rest => exact rest
  | done hn => exact absurd hb hn

theorem Relocated.exists (stop length delta o : ℕ) (b : Buffer) :
    ∃ c, Relocated stop length delta o b c := by
  by_cases hb : BlockInside stop b o
  · have hlt : stop - (o + blockSize b o) < stop - o := by
      have h8 := hb.header
      have hentries := hb.entries
      omega
    obtain ⟨c, hc⟩ :=
      Relocated.exists stop length delta (o + blockSize b o) (addBlock length delta o b)
    exact ⟨c, Relocated.block hb hc⟩
  · exact ⟨b, Relocated.done hb⟩
termination_by stop - o

theorem targetsInside_succ :
    TargetsInside length delta o (n + 1) i b ↔
      (IsDir64 b o i → targetRebase b o i + 8 ≤ length) ∧
        TargetsInside length delta o n (i + 1) (addEntry length delta o i b) := by
  constructor
  · intro h
    refine ⟨h 0 (Nat.succ_pos n), fun j hj hd => ?_⟩
    have hs := h (j + 1) (by omega)
    rw [addEntries, show i + (j + 1) = i + 1 + j by omega] at hs
    exact hs hd
  · rintro ⟨h0, hs⟩ j hj
    cases j with
    | zero => exact h0
    | succ j =>
      rw [addEntries, show i + (j + 1) = i + 1 + j by omega]
      exact hs j (by omega)

end Additions

section Loops

variable {start stop length preferred imageBase o i n : ℕ} {s r : Image}

/-- `ImageBase - preferred base` -/
def baseDelta (imageBase preferred : ℕ) : ℕ := (imageBase + (2 ^ 64 - preferred)) % 2 ^ 64

theorem rawAddress_eq (v : ℕ) :
    (imageBase + (v + (2 ^ 64 - preferred)) % 2 ^ 64) % 2 ^ 64 =
      (v + baseDelta imageBase preferred) % 2 ^ 64 := by
  rw [baseDelta]
  omega

theorem Image.allowed_note {kind : AccessKind} {p k : ℕ} :
    (s.note kind p k).Allowed start stop length ↔
      s.Allowed start stop length ∧ Access.Allowed start stop length ⟨kind, p, k⟩ := by
  simp only [Image.Allowed, Image.note, List.mem_append, List.mem_singleton]
  constructor
  · exact fun h => ⟨fun a ha => h a (Or.inl ha), h _ (Or.inr rfl)⟩
  · rintro ⟨h, h'⟩ a (ha | rfl)
    · exact h a ha
    · exact h'

theorem relocateEntry_of_dir64 (h : IsDir64 s.bytes o i) :
    relocateEntry preferred imageBase o i s =
      { (s.note .entry (o + 8 + 2 * i) 2).note .target (targetRebase s.bytes o i) 8 with
        bytes := setLE s.bytes (targetRebase s.bytes o i) 8
          ((getLE s.bytes (targetRebase s.bytes o i) 8 + baseDelta imageBase preferred) % 2 ^
            64) } := by
  rw [← rawAddress_eq]
  exact if_neg (not_not.mpr h)

theorem relocateEntry_of_not_dir64 (h : ¬IsDir64 s.bytes o i) :
    relocateEntry preferred imageBase o i s = s.note .entry (o + 8 + 2 * i) 2 := if_pos h

theorem relocateEntry_allowed (hstart : start ≤ o) :
    (relocateEntry preferred imageBase o i s).Allowed start stop length ↔
      s.Allowed start stop length ∧ o + 8 + 2 * i + 2 ≤ stop ∧
        (IsDir64 s.bytes o i → targetRebase s.bytes o i + 8 ≤ length) := by
  have hnote : (s.note .entry (o + 8 + 2 * i) 2).Allowed start stop length ↔
      s.Allowed start stop length ∧ o + 8 + 2 * i + 2 ≤ stop := by
    rw [Image.allowed_note]
    exact and_congr_right fun _ => ⟨fun h => h.2, fun h => ⟨by dsimp only; omega, h⟩⟩
  by_cases hd : IsDir64 s.bytes o i
  · have htarget : (relocateEntry preferred imageBase o i s).Allowed start stop length ↔
        ((s.note .entry (o + 8 + 2 * i) 2).note .target (targetRebase s.bytes o i) 8).Allowed start
        stop length := by
      rw [relocateEntry_of_dir64 hd]
      rfl
    rw [htarget, Image.allowed_note, hnote, and_assoc]
    exact and_congr_right fun _ => and_congr_right fun _ => ⟨fun h _ => h, fun h => h hd⟩
  · rw [relocateEntry_of_not_dir64 hd, hnote]
    exact ⟨fun h => ⟨h.1, h.2, fun h' => absurd h' hd⟩, fun h => ⟨h.1, h.2.1⟩⟩

theorem relocateEntry_bytes (h : IsDir64 s.bytes o i → targetRebase s.bytes o i + 8 ≤ length) :
    (relocateEntry preferred imageBase o i s).bytes =
      addEntry length (baseDelta imageBase preferred) o i s.bytes := by
  rw [addEntry]
  by_cases hd : IsDir64 s.bytes o i
  · rw [if_pos ⟨hd, h hd⟩, relocateEntry_of_dir64 hd]
  · rw [if_neg fun h' => hd h'.1, relocateEntry_of_not_dir64 hd]
    rfl

theorem relocateEntries_allowed (hstart : start ≤ o) :
    (relocateEntries preferred imageBase o n i s).Allowed start stop length ↔
      s.Allowed start stop length ∧ (n ≠ 0 → o + 8 + 2 * (i + n) ≤ stop) ∧
        TargetsInside length (baseDelta imageBase preferred) o n i s.bytes := by
  induction n generalizing i s with
  | zero => exact ⟨fun h => ⟨h, fun h0 => absurd rfl h0, fun j hj => by omega⟩, fun h => h.1⟩
  | succ n ih =>
    rw [relocateEntries, ih, relocateEntry_allowed hstart, targetsInside_succ]
    constructor
    · rintro ⟨⟨hs, hentry, htarget⟩, hlast, hrest⟩
      rw [relocateEntry_bytes htarget] at hrest
      exact ⟨hs, fun _ => by omega, htarget, hrest⟩
    · rintro ⟨hs, hlast, htarget, hrest⟩
      have hend := hlast (Nat.succ_ne_zero n)
      rw [relocateEntry_bytes htarget]
      exact ⟨⟨hs, by omega, htarget⟩, fun _ => by omega, hrest⟩

theorem relocateEntries_bytes
    (h : TargetsInside length (baseDelta imageBase preferred) o n i s.bytes) :
    (relocateEntries preferred imageBase o n i s).bytes =
      addEntries length (baseDelta imageBase preferred) o n i s.bytes := by
  induction n generalizing i s with
  | zero => rfl
  | succ n ih =>
    obtain ⟨h0, hs⟩ := targetsInside_succ.mp h
    have hbytes : (relocateEntry preferred imageBase o i s).bytes =
        addEntry length (baseDelta imageBase preferred) o i s.bytes := relocateEntry_bytes h0
    rw [relocateEntries, addEntries, ih (by rwa [hbytes]), hbytes]

theorem entriesCount_eq {v : ℕ} (h : 8 ≤ v) (hv : v < 2 ^ 32) : entriesCount v = (v - 8) / 2 := by
  rw [entriesCount]
  omega

/-- A size that does not cover the header counts as many entries as no table has. -/
theorem entriesCount_of_lt {v : ℕ} (h : v < 8) : 2 ^ 32 - 4 ≤ entriesCount v := by
  rw [entriesCount]
  omega

theorem blockSize_lt (b : Buffer) (o : ℕ) : blockSize b o < 2 ^ 32 := getLE_lt b (o + 4) 4

theorem relocateBlock_allowed (hstart : start ≤ o) (hsize : stop < start + 2 ^ 32)
    (hpage : pageRva s.bytes o ≠ 0) :
    (relocateEntries preferred imageBase o (entriesCount (blockSize s.bytes o)) 0
        (s.note .blockHeader o 8)).Allowed start stop length ↔
      s.Allowed start stop length ∧ BlockInside stop s.bytes o ∧
        TargetsInside length (baseDelta imageBase preferred) o
          ((blockSize s.bytes o - 8) / 2) 0 s.bytes := by
  rw [relocateEntries_allowed hstart, Image.allowed_note]
  by_cases h8 : 8 ≤ blockSize s.bytes o
  · rw [entriesCount_eq h8 (blockSize_lt _ _)]
    constructor
    · rintro ⟨⟨hs, hheader⟩, hentries, htargets⟩
      refine ⟨hs, ⟨hpage, h8, ?_⟩, htargets⟩
      by_cases h0 : (blockSize s.bytes o - 8) / 2 = 0
      · rw [h0]
        exact hheader.2
      · have := hentries h0
        omega
    · rintro ⟨hs, hinside, htargets⟩
      have hentries := hinside.entries
      exact ⟨⟨hs, by omega, by dsimp only; omega⟩, fun _ => by omega, htargets⟩
  · have hcount := entriesCount_of_lt (Nat.not_le.mp h8)
    constructor
    · rintro ⟨-, hentries, -⟩
      have := hentries (by omega)
      omega
    · rintro ⟨-, hinside, -⟩
      exact absurd hinside.header h8

theorem relocateBlocks_end (fuel : ℕ) (h : stop < o) :
    relocateBlocks preferred imageBase stop (fuel + 1) o s = some s := if_neg (Nat.not_le.mpr h)

theorem relocateBlocks_mark (fuel : ℕ) (h : o ≤ stop)
    (hm : pageRva s.bytes o = 0 ∨ blockSize s.bytes o = 0) :
    relocateBlocks preferred imageBase stop (fuel + 1) o s = some (s.note .blockHeader o 8) := by
  rw [relocateBlocks, if_pos h]
  exact if_pos hm

theorem relocateBlocks_block (fuel : ℕ) (h : o ≤ stop)
    (hm : ¬(pageRva s.bytes o = 0 ∨ blockSize s.bytes o = 0)) :
    relocateBlocks preferred imageBase stop (fuel + 1) o s =
      relocateBlocks preferred imageBase stop fuel (o + blockSize s.bytes o)
        (relocateEntries preferred imageBase o (entriesCount (blockSize s.bytes o)) 0
          (s.note .blockHeader o 8)) := by
  rw [relocateBlocks, if_pos h]
  exact if_neg hm

theorem Image.Allowed.of_relocateBlocks {fuel : ℕ} (hstart : start ≤ o)
    (h : relocateBlocks preferred imageBase stop fuel o s = some r)
    (hr : r.Allowed start stop length) :
    s.Allowed start stop length := by
  induction fuel generalizing o s with
  | zero => cases h
  | succ fuel ih =>
    by_cases hstop : o ≤ stop
    · by_cases hmark : pageRva s.bytes o = 0 ∨ blockSize s.bytes o = 0
      · rw [relocateBlocks_mark fuel hstop hmark] at h
        cases h
        exact (Image.allowed_note.mp hr).1
      · rw [relocateBlocks_block fuel hstop hmark] at h
        have hmid := ih (by omega) h
        exact (Image.allowed_note.mp ((relocateEntries_allowed hstart).mp hmid).1).1
    · rw [relocateBlocks_end fuel (by omega)] at h
      cases h
      exact hr

theorem relocateBlocks_isSome {fuel : ℕ} (hfuel : stop + 2 ≤ o + fuel) (hpos : 0 < fuel) :
    ∃ r, relocateBlocks preferred imageBase stop fuel o s = some r := by
  induction fuel generalizing o s with
  | zero => omega
  | succ fuel ih =>
    by_cases hstop : o ≤ stop
    · by_cases hmark : pageRva s.bytes o = 0 ∨ blockSize s.bytes o = 0
      · exact ⟨_, relocateBlocks_mark fuel hstop hmark⟩
      · rw [relocateBlocks_block fuel hstop hmark]
        exact ih (by omega) (by omega)
    · exact ⟨_, relocateBlocks_end fuel (by omega)⟩

theorem relocateBlock_bytes (h8 : 8 ≤ blockSize s.bytes o)
    (hallowed : TargetsInside length (baseDelta imageBase preferred) o
      ((blockSize s.bytes o - 8) / 2) 0 s.bytes) :
    (relocateEntries preferred imageBase o (entriesCount (blockSize s.bytes o)) 0
      (s.note .blockHeader o 8)).bytes =
      addBlock length (baseDelta imageBase preferred) o s.bytes := by
  rw [entriesCount_eq h8 (blockSize_lt _ _)]
  exact relocateEntries_bytes hallowed

theorem relocateBlocks_mark_iff (fuel : ℕ) (hstart : start ≤ o) (hstop : o ≤ stop)
    (hmark : pageRva s.bytes o = 0 ∨ blockSize s.bytes o = 0) :
    (∃ r, relocateBlocks preferred imageBase stop (fuel + 1) o s = some r ∧
        r.Allowed start stop length ∧
        Relocated stop length (baseDelta imageBase preferred) o s.bytes r.bytes) ↔
      s.Allowed start stop length ∧ Fits stop length (baseDelta imageBase preferred) o s.bytes := by
  have hout : ¬BlockInside stop s.bytes o := by
    rintro ⟨hpage, h8, -⟩
    rcases hmark with h | h
    · exact hpage h
    · omega
  rw [relocateBlocks_mark fuel hstop hmark]
  constructor
  · rintro ⟨r, hr, hallowed, -⟩
    cases hr
    obtain ⟨hs, hheader⟩ := Image.allowed_note.mp hallowed
    exact ⟨hs, Fits.mark hheader.2 hmark⟩
  · rintro ⟨hs, hfits⟩
    cases hfits with
    | mark h _ => exact ⟨_, rfl, Image.allowed_note.mpr ⟨hs, hstart, h⟩, Relocated.done hout⟩
    | last h _ _ => exact absurd h hout
    | block h _ _ => exact absurd h hout

/-- The walk ends behind the block, which is the last one or not in the table. -/
theorem relocateBlocks_last_iff (fuel : ℕ) (hstart : start ≤ o) (hstop : o ≤ stop)
    (hsize : stop < start + 2 ^ 32) (hmark : ¬(pageRva s.bytes o = 0 ∨ blockSize s.bytes o = 0))
    (hend : ¬o + blockSize s.bytes o ≤ stop) :
    (∃ r, relocateBlocks preferred imageBase stop (fuel + 2) o s = some r ∧
        r.Allowed start stop length ∧
        Relocated stop length (baseDelta imageBase preferred) o s.bytes r.bytes) ↔
      s.Allowed start stop length ∧ Fits stop length (baseDelta imageBase preferred) o s.bytes := by
  have hlast : ∀ c, ¬BlockInside stop c (o + blockSize s.bytes o) := fun c h => by
    have := h.entries
    omega
  have hblock : (relocateEntries preferred imageBase o (entriesCount (blockSize s.bytes o)) 0
        (s.note .blockHeader o 8)).Allowed start stop length ↔
      s.Allowed start stop length ∧ BlockInside stop s.bytes o ∧
        TargetsInside length (baseDelta imageBase preferred) o
        ((blockSize s.bytes o - 8) / 2) 0 s.bytes :=
    relocateBlock_allowed hstart hsize fun h => hmark (Or.inl h)
  rw [relocateBlocks_block (fuel + 1) hstop hmark, relocateBlocks_end fuel (by omega)]
  constructor
  · rintro ⟨r, hr, hallowed, -⟩
    cases hr
    obtain ⟨hs, hinside, htargets⟩ := hblock.mp hallowed
    exact ⟨hs, Fits.last hinside htargets (by omega)⟩
  · rintro ⟨hs, hfits⟩
    cases hfits with
    | mark _ h => exact absurd h hmark
    | block _ _ rest =>
      exfalso
      cases rest with
      | mark h _ => omega
      | last h _ _ => exact hlast _ h
      | block h _ _ => exact hlast _ h
    | last hinside htargets _ =>
      refine ⟨_, rfl, hblock.mpr ⟨hs, hinside, htargets⟩, Relocated.block hinside ?_⟩
      rw [relocateBlock_bytes hinside.header htargets]
      exact Relocated.done (hlast _)

theorem relocateBlocks_iff {fuel : ℕ} (hstart : start ≤ o) (hstop : o ≤ stop)
    (hsize : stop < start + 2 ^ 32) (hfuel : stop + 2 ≤ o + fuel) :
    (∃ r, relocateBlocks preferred imageBase stop fuel o s = some r ∧ r.Allowed start stop length ∧
        Relocated stop length (baseDelta imageBase preferred) o s.bytes r.bytes) ↔
      s.Allowed start stop length ∧ Fits stop length (baseDelta imageBase preferred) o s.bytes := by
  induction fuel generalizing o s with
  | zero => omega
  | succ fuel ih =>
    by_cases hmark : pageRva s.bytes o = 0 ∨ blockSize s.bytes o = 0
    · exact relocateBlocks_mark_iff fuel hstart hstop hmark
    · by_cases hend : o + blockSize s.bytes o ≤ stop
      · have hblock : (relocateEntries preferred imageBase o
              (entriesCount (blockSize s.bytes o)) 0
              (s.note .blockHeader o 8)).Allowed start stop length ↔
            s.Allowed start stop length ∧ BlockInside stop s.bytes o ∧
              TargetsInside length (baseDelta imageBase preferred) o
              ((blockSize s.bytes o - 8) / 2) 0 s.bytes :=
          relocateBlock_allowed hstart hsize fun h => hmark (Or.inl h)
        have hih := ih (o := o + blockSize s.bytes o) (s := relocateEntries preferred imageBase o
          (entriesCount (blockSize s.bytes o)) 0 (s.note .blockHeader o 8)) (by omega) hend
          (by omega)
        rw [relocateBlocks_block fuel hstop hmark]
        constructor
        · rintro ⟨r, hr, hallowed, hrel⟩
          have hmid := Image.Allowed.of_relocateBlocks (by omega) hr hallowed
          obtain ⟨hs, hinside, htargets⟩ := hblock.mp hmid
          refine ⟨hs, Fits.block hinside htargets ?_⟩
          rw [← relocateBlock_bytes hinside.header htargets]
          refine (hih.mp ⟨r, hr, hallowed, ?_⟩).2
          rw [relocateBlock_bytes hinside.header htargets]
          exact hrel.rest hinside
        · rintro ⟨hs, hfits⟩
          cases hfits with
          | mark _ h => exact absurd h hmark
          | last _ _ h => omega
          | block hinside htargets rest =>
            rw [← relocateBlock_bytes hinside.header htargets] at rest
            obtain ⟨r, hr, hallowed, hrel⟩ := hih.mpr ⟨hblock.mpr ⟨hs, hinside, htargets⟩, rest⟩
            rw [relocateBlock_bytes hinside.header htargets] at hrel
            exact ⟨r, hr, hallowed, Relocated.block hinside hrel⟩
      · obtain ⟨k, rfl⟩ : ∃ k, fuel = k + 1 := ⟨fuel - 1, by omega⟩
        exact relocateBlocks_last_iff k hstart hstop hsize hmark hend

end Loops

def tableEnd (h : PeImageHdr) : ℕ :=
  h.baseRelocationTable.virtualAddress + h.baseRelocationTable.size

/-- The walk along the table of `h` ends, stays in the table and in an image of `length` bytes, and
leaves the bytes with the additions. -/
def RelocatesExactly (h : PeImageHdr) (length imageBase : ℕ) (b : Buffer) (r : Option Image) :
    Prop :=
  ∃ s, r = some s ∧ s.Allowed h.baseRelocationTable.virtualAddress (tableEnd h) length ∧
    Relocated (tableEnd h) length
    (baseDelta imageBase h.imageBase) h.baseRelocationTable.virtualAddress b s.bytes

def newBase (virtualBuffer imageBase : ℕ) : ℕ := if imageBase = 0 then virtualBuffer else imageBase

section Loaders

variable {m b : Buffer} {pe length imageBuffer virtualBuffer imageBase : ℕ}

theorem relocation_ends (h : PeImageHdr) (imageBuffer virtualBuffer imageBase : ℕ) (b : Buffer) :
    (∃ s, pe64RelocateImage h virtualBuffer imageBase b = some s) ∧
      ∃ s, peRelocateImage (some h) imageBuffer virtualBuffer imageBase b = some s := by
  constructor
  · exact relocateBlocks_isSome (Nat.le_of_eq (Nat.add_assoc _ _ _)) (Nat.succ_pos _)
  · rw [peRelocateImage]
    dsimp only
    split
    · exact ⟨_, rfl⟩
    · split
      · exact ⟨_, rfl⟩
      · have hwalk : ∃ r, relocateBlocks h.imageBase (newBase virtualBuffer imageBase) (tableEnd h)
            (h.baseRelocationTable.size + 2) h.baseRelocationTable.virtualAddress ⟨b, []⟩ =
            some r :=
          relocateBlocks_isSome (by rw [tableEnd]; omega) (by omega)
        obtain ⟨r, hr⟩ := hwalk
        exact ⟨_, congrArg (Option.map _) hr⟩

theorem pe64RelocateImage_iff :
    RelocatesExactly (readHdr m pe) length (newBase virtualBuffer imageBase) b
        (pe64RelocateImage (readHdr m pe) virtualBuffer imageBase b) ↔
      Fits (tableEnd (readHdr m pe)) length
        (baseDelta (newBase virtualBuffer imageBase) (readHdr m pe).imageBase)
        (readHdr m pe).baseRelocationTable.virtualAddress b := by
  have hsize : (readHdr m pe).baseRelocationTable.size < 2 ^ 32 := getLE_lt m _ 4
  refine (relocateBlocks_iff (Nat.le_refl _) (Nat.le_add_right _ _) (Nat.add_lt_add_left hsize _)
    (Nat.le_refl _)).trans ?_
  exact ⟨fun h => h.2, fun h => ⟨fun _ ha => absurd ha List.not_mem_nil, h⟩⟩

theorem peRelocateImage_eq (h : PeImageHdr) (hi : imageBuffer ≠ 0) (hv : virtualBuffer ≠ 0) :
    (peRelocateImage (some h) imageBuffer virtualBuffer imageBase b).map Prod.fst =
      pe64RelocateImage h virtualBuffer imageBase b := by
  rw [peRelocateImage]
  dsimp only
  rw [if_neg (by omega), if_neg (by omega), Option.map_map]
  exact Option.map_id'

/-- Both copies relocate an image exactly, and touch nothing else, when the walk along its table
fits. -/
theorem relocatesExactly_iff (m : Buffer) (pe length virtualBuffer imageBase : ℕ) (b : Buffer)
    (hi : imageBuffer ≠ 0) (hv : virtualBuffer ≠ 0) :
    (RelocatesExactly (readHdr m pe) length (newBase virtualBuffer imageBase) b
        (pe64RelocateImage (readHdr m pe) virtualBuffer imageBase b) ↔
      Fits (tableEnd (readHdr m pe)) length
        (baseDelta (newBase virtualBuffer imageBase) (readHdr m pe).imageBase)
        (readHdr m pe).baseRelocationTable.virtualAddress b) ∧
    (RelocatesExactly (readHdr m pe) length (newBase virtualBuffer imageBase) b
        ((peRelocateImage (some (readHdr m pe)) imageBuffer virtualBuffer imageBase b).map
          Prod.fst) ↔
      Fits (tableEnd (readHdr m pe)) length
        (baseDelta (newBase virtualBuffer imageBase) (readHdr m pe).imageBase)
        (readHdr m pe).baseRelocationTable.virtualAddress b) := by
  rw [peRelocateImage_eq _ hi hv]
  exact ⟨pe64RelocateImage_iff, pe64RelocateImage_iff⟩

end Loaders

/-- A header with the preferred base `0x140000000` and a table of `size` bytes at `0x3000`. -/
def tableHdr (size : ℕ) : Buffer :=
  setLE (setLE (setLE (fun _ => 0) 48 8 0x140000000) 176 4 0x3000) 180 4 size

/-- A block for one entry in the page `0x2000`, and one to fill up, at `0x3000`. -/
def oneBlock : Buffer :=
  setLE (setLE (setLE (fun _ => 0) 0x3000 4 0x2000) 0x3004 4 12) 0x3008 2 0xA010

/-- The table is one block of its size. Its next header would be the eight bytes behind it. -/
theorem fullTable_read_past :
    ¬RelocatesExactly (readHdr (tableHdr 12) 0) 0x4000 0x200000 oneBlock
      (pe64RelocateImage (readHdr (tableHdr 12) 0) 0x200000 0 oneBlock) := by
  rintro ⟨s, hs, hallowed, -⟩
  have hlast : (pe64RelocateImage (readHdr (tableHdr 12) 0) 0x200000 0 oneBlock).map
    Image.accesses =
      some [⟨.blockHeader, 0x3000, 8⟩, ⟨.entry, 0x3008, 2⟩, ⟨.target, 0x2010, 8⟩,
      ⟨.entry, 0x300A, 2⟩, ⟨.blockHeader, 0x300C, 8⟩] := by
    decide
  rw [hs] at hlast
  have hmem : (⟨.blockHeader, 0x300C, 8⟩ : Access) ∈ s.accesses := by
    rw [Option.some.inj hlast]
    decide
  exact absurd (hallowed _ hmem) (by decide)

/-- With an end mark behind the block, which the table covers, both copies are exact. -/
theorem markedTable_relocated :
    Fits (tableEnd (readHdr (tableHdr 20) 0)) 0x4000
        (baseDelta (newBase 0x200000 0) (readHdr (tableHdr 20) 0).imageBase)
        (readHdr (tableHdr 20) 0).baseRelocationTable.virtualAddress oneBlock ∧
      RelocatesExactly (readHdr (tableHdr 20) 0) 0x4000 (newBase 0x200000 0) oneBlock
        (pe64RelocateImage (readHdr (tableHdr 20) 0) 0x200000 0 oneBlock) := by
  have hfits : Fits (tableEnd (readHdr (tableHdr 20) 0)) 0x4000
      (baseDelta (newBase 0x200000 0) (readHdr (tableHdr 20) 0).imageBase)
      (readHdr (tableHdr 20) 0).baseRelocationTable.virtualAddress oneBlock := by
    have hsize : (blockSize oneBlock
        (readHdr (tableHdr 20) 0).baseRelocationTable.virtualAddress - 8) / 2 = 2 := by
      decide
    apply Fits.block
    · exact ⟨by decide, by decide, by decide⟩
    · rw [hsize]
      intro j hj
      rcases j with _ | _ | j
      · decide
      · decide
      · omega
    · exact Fits.mark (by decide) (by decide)
  exact ⟨hfits, (relocatesExactly_iff (tableHdr 20) 0 0x4000 0x200000 0 oneBlock Nat.one_ne_zero
    (by decide)).1.mpr hfits⟩

end DevOs.Loader
