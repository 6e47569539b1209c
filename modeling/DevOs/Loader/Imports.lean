import DevOs.Loader.Model
import Mathlib.Data.Nat.Find

/-!
# Imports

`Pe64LoadDll` fills the import address table of a program from the export directory of a library,
entry by entry of the import lookup table. An entry with its highest bit set imports by ordinal
number, any other by name. The two take the address from the export address table in their own way:
the one at the ordinal number and from the buffer on, the other at the entry of the ordinal table
and from the run-time base on.

The program and the library lie in two buffers. A name that no export has stops the machine, and so
does a text without an end; both are `none`.
-/

namespace DevOs.Loader

open Bytes

/-- `strlen`, within a number of bytes. -/
def strlenFrom (b : Buffer) : ℕ → ℕ → Option ℕ
  | 0, _ => none
  | fuel + 1, o => if b o = 0 then some 0 else (strlenFrom b fuel (o + 1)).map (· + 1)

/-- `strlen`, for a text in the address space. -/
def strlen (b : Buffer) (o : ℕ) : Option ℕ := strlenFrom b (2 ^ 64) o

/-- `memcmp`, as its callers use it: whether the bytes are equal. The debug stop in front of the
comparison in `mem.asm` is left out. -/
def memcmp (b : Buffer) (o : ℕ) (c : Buffer) (p n : ℕ) : Bool :=
  (List.range n).all fun i => b (o + i) == c (p + i)

/-- The fields of `IMAGE_EXPORT_DIRECTORY` that give the exports. `OrdinalBase` is not read by the
loader. -/
structure ImageExportDirectory where
  ordinalBase : ℕ
  numNamePointers : ℕ
  exportAddressTableRva : ℕ
  namePointerRva : ℕ
  ordinalTableRva : ℕ

def readExportDirectory (b : Buffer) (o : ℕ) : ImageExportDirectory where
  ordinalBase := getLE b (o + 16) 4
  numNamePointers := getLE b (o + 24) 4
  exportAddressTableRva := getLE b (o + 28) 4
  namePointerRva := getLE b (o + 32) 4
  ordinalTableRva := getLE b (o + 36) 4

/-- A library at the label `LinkDLL`: the contents of `VirtualBuffer`, its address, and `DllBase` of
the process that imports. For `oskrnlx64.exe` both bases are `InitData.ImageBase`, as for a library
without a process. -/
structure Library where
  bytes : Buffer
  exportTable : ℕ
  virtualBuffer : ℕ
  userProcess : Option ℕ

namespace Library

variable (l : Library)

/-- `DllImage` of `Pe64ResolveImports` -/
def dllImage : ℕ :=
  match l.userProcess with
  | none => 0
  | some dllBase => (dllBase + 0x6000000000) % 2 ^ 64

/-- `DllVirtualBase`, the address that the library runs at. -/
def dllVirtualBase : ℕ := if l.dllImage = 0 then l.virtualBuffer else l.dllImage

def exports : ImageExportDirectory := readExportDirectory l.bytes l.exportTable

/-- `ExportAddressTable[n]` -/
def exportAddress (n : ℕ) : ℕ := getLE l.bytes (l.exports.exportAddressTableRva + 4 * n) 4

/-- `NamePtr[i]` -/
def namePtr (i : ℕ) : ℕ := getLE l.bytes (l.exports.namePointerRva + 4 * i) 4

/-- `ExportOrdinalTable[i]` -/
def exportOrdinal (i : ℕ) : ℕ := getLE l.bytes (l.exports.ordinalTableRva + 2 * i) 2

/-- The loop over the names `i`, `i + 1`, ..., for the text of length `len` at `name`. -/
def findName (prog : Buffer) (name len : ℕ) : ℕ → ℕ → Option ℕ
  | 0, _ => none
  | n + 1, i =>
    match strlen l.bytes (l.namePtr i) with
    | none => none
    | some k =>
      if k = len ∧ memcmp l.bytes (l.namePtr i) prog name len then some i
      else findName prog name len n (i + 1)

/-- The address for an entry with `IMAGE_ORDINAL_IMPORT_FLAG`: `VirtualBuffer + Rva`. -/
def byOrdinal (lookupEntry : ℕ) : ℕ :=
  (l.virtualBuffer + l.exportAddress (lookupEntry % 2 ^ 16)) % 2 ^ 64

/-- The address for the name that is found at the position `i`: `DllVirtualBase + Rva`. -/
def byName (i : ℕ) : ℕ := (l.dllVirtualBase + l.exportAddress (l.exportOrdinal i)) % 2 ^ 64

/-- `entry->Name`, behind the hint. -/
def hintName (lookupEntry : ℕ) : ℕ := lookupEntry % 2 ^ 31 + 2

def importAddress (prog : Buffer) (lookupEntry : ℕ) : Option ℕ :=
  if lookupEntry.testBit 63 then some (l.byOrdinal lookupEntry)
  else
    match strlen prog (hintName lookupEntry) with
    | none => none
    | some len =>
        (l.findName prog (hintName lookupEntry) len l.exports.numNamePointers 0).map l.byName

/-- `while (*ImportLookupTable)`, from the two table entries on. -/
def linkFrom : ℕ → ℕ → ℕ → Buffer → Option Buffer
  | 0, _, _, _ => none
  | fuel + 1, lookup, address, prog =>
    let lookupEntry := getLE prog lookup 8
    if lookupEntry = 0 then some prog
    else
      match l.importAddress prog lookupEntry with
      | none => none
      | some a => linkFrom fuel (lookup + 8) (address + 8) (setLE prog address 8 a)

/-- `Pe64LoadDll` from the label `LinkDLL` to the relocation, for the import directory at an offset
of the program. -/
def linkDll (prog : Buffer) (importDirectory : ℕ) : Option Buffer :=
  l.linkFrom (2 ^ 64) (getLE prog importDirectory 4) (getLE prog (importDirectory + 16) 4) prog

end Library

/-- There is a text of `n` bytes at the offset `o`. -/
def IsText (b : Buffer) (o n : ℕ) : Prop := (∀ i < n, b (o + i) ≠ 0) ∧ b (o + n) = 0

def SameText (b : Buffer) (o : ℕ) (c : Buffer) (p : ℕ) : Prop :=
  ∃ n < 2 ^ 64, IsText b o n ∧ IsText c p n ∧ ∀ i < n, b (o + i) = c (p + i)

/-- `i` is the first position whose name is the text at `name`. -/
structure Library.FirstNamed (l : Library) (prog : Buffer) (name i : ℕ) : Prop where
  lt : i < l.exports.numNamePointers
  same : SameText l.bytes (l.namePtr i) prog name
  first : ∀ j < i, ¬SameText l.bytes (l.namePtr j) prog name

def Library.Named (l : Library) : Prop :=
  ∀ i < l.exports.numNamePointers, ∃ n < 2 ^ 64, IsText l.bytes (l.namePtr i) n

/-- A program with an import directory. -/
structure Program where
  bytes : Buffer
  importDirectory : ℕ

namespace Program

variable (p : Program)

def lookupTable : ℕ := getLE p.bytes p.importDirectory 4

def addressTable : ℕ := getLE p.bytes (p.importDirectory + 16) 4

def lookupEntry (j : ℕ) : ℕ := getLE p.bytes (p.lookupTable + 8 * j) 8

/-- The program imports `n` exports of a library. Its lookup table and its names are not in its
address table. -/
structure Imports (l : Library) (n : ℕ) : Prop where
  entry_ne : ∀ j < n, p.lookupEntry j ≠ 0
  stop : p.lookupEntry n = 0
  count_lt : n < 2 ^ 64
  apart : p.lookupTable + 8 * (n + 1) ≤ p.addressTable ∨ p.addressTable + 8 * n ≤ p.lookupTable
  found : ∀ j < n, (p.lookupEntry j).testBit 63 = false →
    ∃ i < l.exports.numNamePointers,
    SameText l.bytes (l.namePtr i) p.bytes (Library.hintName (p.lookupEntry j))
  name_apart : ∀ j < n, (p.lookupEntry j).testBit 63 = false →
    ∀ k, IsText p.bytes (Library.hintName (p.lookupEntry j)) k →
      Library.hintName (p.lookupEntry j) + k < p.addressTable ∨
        p.addressTable + 8 * n ≤ Library.hintName (p.lookupEntry j)

end Program

/-- The entry `j` is the ordinal number of the export with the name at the position `i`. -/
def Program.ByOrdinal (p : Program) (l : Library) (j i : ℕ) : Prop :=
  (p.lookupEntry j).testBit 63 = true ∧
    p.lookupEntry j % 2 ^ 16 = l.exports.ordinalBase + l.exportOrdinal i

/-- The entry `j` is the name at the position `i`. -/
def Program.ByName (p : Program) (l : Library) (j i : ℕ) : Prop :=
  (p.lookupEntry j).testBit 63 = false ∧ l.FirstNamed p.bytes (Library.hintName (p.lookupEntry j)) i

/-- Linking gives both programs the run-time address of the export with the name at the position
`i`, the one at its entry `j` and the other at its entry `j'`. -/
def ImportsAgree (l : Library) (i : ℕ) (p : Program) (j : ℕ) (q : Program) (j' : ℕ) : Prop :=
  ∃ b c, l.linkDll p.bytes p.importDirectory = some b ∧
    l.linkDll q.bytes q.importDirectory = some c ∧
    getLE b (p.addressTable + 8 * j) 8 = getLE c (q.addressTable + 8 * j') 8 ∧
    getLE c (q.addressTable + 8 * j') 8 =
    (l.dllVirtualBase + l.exportAddress (l.exportOrdinal i)) % 2 ^ 64

/-- The address at the ordinal number from the buffer on is the address at the ordinal from the base
on. -/
def Library.OrdinalMatches (l : Library) (i : ℕ) : Prop :=
  (l.virtualBuffer + l.exportAddress (l.exports.ordinalBase + l.exportOrdinal i)) % 2 ^ 64 =
    (l.dllVirtualBase + l.exportAddress (l.exportOrdinal i)) % 2 ^ 64

instance (l : Library) (i : ℕ) : Decidable (l.OrdinalMatches i) :=
  inferInstanceAs (Decidable (_ = _))

instance (p : Program) (l : Library) (j i : ℕ) : Decidable (p.ByOrdinal l j i) :=
  inferInstanceAs (Decidable (_ ∧ _))

/-- What a lookup entry stands for: the export with the ordinal number, or the first of the name. -/
def Library.Resolves (l : Library) (prog : Buffer) (lookupEntry a : ℕ) : Prop :=
  if lookupEntry.testBit 63 then a = l.byOrdinal lookupEntry
  else ∃ i, l.FirstNamed prog (Library.hintName lookupEntry) i ∧ a = l.byName i

variable {l : Library} {b c d : Buffer} {o q n k : ℕ}

theorem IsText.length_unique (h : IsText b o n) (h' : IsText b o k) : n = k := by
  rcases Nat.lt_trichotomy n k with hlt | heq | hlt
  · exact absurd h.2 (h'.1 n hlt)
  · exact heq
  · exact absurd h'.2 (h.1 k hlt)

theorem IsText.congr (h : IsText b o n) (heq : ∀ i ≤ n, c (o + i) = b (o + i)) : IsText c o n := by
  refine ⟨fun i hi => ?_, ?_⟩
  · rw [heq i hi.le]
    exact h.1 i hi
  · rw [heq n le_rfl]
    exact h.2

theorem strlenFrom_eq {fuel : ℕ} (h : IsText b o n) (hn : n < fuel) :
    strlenFrom b fuel o = some n := by
  induction fuel generalizing o n with
  | zero => omega
  | succ fuel ih =>
    cases n with
    | zero =>
      have hend : b o = 0 := h.2
      rw [strlenFrom, if_pos hend]
    | succ n =>
      have hrest : IsText b (o + 1) n := by
        refine ⟨fun i hi => ?_, ?_⟩
        · rw [show o + 1 + i = o + (i + 1) by omega]
          exact h.1 (i + 1) (by omega)
        · rw [show o + 1 + n = o + (n + 1) by omega]
          exact h.2
      have hfirst : b o ≠ 0 := h.1 0 (Nat.succ_pos n)
      rw [strlenFrom, if_neg hfirst, ih hrest (by omega), Option.map_some]

theorem strlen_eq (h : IsText b o n) (hn : n < 2 ^ 64) : strlen b o = some n := strlenFrom_eq h hn

theorem memcmp_iff : memcmp b o c q n = true ↔ ∀ i < n, b (o + i) = c (q + i) := by
  rw [memcmp, List.all_eq_true]
  constructor
  · intro h i hi
    exact eq_of_beq (h i (List.mem_range.2 hi))
  · intro h i hi
    exact beq_iff_eq.2 (h i (List.mem_range.1 hi))

theorem SameText.trans (h : SameText b o c q) {p : ℕ} (h' : SameText c q d p) :
    SameText b o d p := by
  obtain ⟨n, hn, hb, hc, heq⟩ := h
  obtain ⟨k, -, hc', hd, heq'⟩ := h'
  obtain rfl : n = k := hc.length_unique hc'
  exact ⟨n, hn, hb, hd, fun i hi => (heq i hi).trans (heq' i hi)⟩

theorem SameText.symm (h : SameText b o c q) : SameText c q b o := by
  obtain ⟨n, hn, hb, hc, heq⟩ := h
  exact ⟨n, hn, hc, hb, fun i hi => (heq i hi).symm⟩

theorem sameText_iff (hb : IsText b o k) (hc : IsText c q n) (hn : n < 2 ^ 64) :
    SameText b o c q ↔ k = n ∧ memcmp b o c q n = true := by
  rw [memcmp_iff]
  constructor
  · rintro ⟨m, -, hb', hc', heq⟩
    obtain rfl : m = k := hb'.length_unique hb
    obtain rfl : m = n := hc'.length_unique hc
    exact ⟨rfl, heq⟩
  · rintro ⟨rfl, heq⟩
    exact ⟨k, hn, hb, hc, heq⟩

theorem findName_eq (hl : l.Named) {name len : ℕ} (hname : IsText b name len) (hlen : len < 2 ^ 64)
    {i m : ℕ} (hm : m + n = l.exports.numNamePointers) (hmi : m ≤ i) (hi : l.FirstNamed b name i) :
    l.findName b name len n m = some i := by
  induction n generalizing m with
  | zero =>
    have hlt := hi.lt
    omega
  | succ n ih =>
    obtain ⟨k, hk, htext⟩ := hl m (by omega)
    have htest := sameText_iff htext hname hlen
    rw [Library.findName, strlen_eq htext hk]
    dsimp only
    by_cases heq : m = i
    · rw [if_pos (htest.1 (heq ▸ hi.same)), heq]
    · rw [if_neg (fun h => hi.first m (by omega) (htest.2 h))]
      exact ih (by omega) (by omega)

theorem Library.FirstNamed.unique {name i j : ℕ} (hi : l.FirstNamed b name i)
    (hj : l.FirstNamed b name j) :
    i = j := by
  rcases Nat.lt_trichotomy i j with hlt | heq | hlt
  · exact absurd hi.same (hj.first i hlt)
  · exact heq
  · exact absurd hj.same (hi.first j hlt)

theorem exists_firstNamed {name : ℕ}
    (h : ∃ i < l.exports.numNamePointers, SameText l.bytes (l.namePtr i) b name) :
    ∃ i, l.FirstNamed b name i := by
  classical
  refine ⟨Nat.find h, (Nat.find_spec h).1, (Nat.find_spec h).2, ?_⟩
  intro j hj hsame
  exact Nat.find_min h hj ⟨hj.trans (Nat.find_spec h).1, hsame⟩

theorem Library.FirstNamed.of_same {name i : ℕ} (h : l.FirstNamed b name i) {p : ℕ}
    (hs : SameText b name c p) : l.FirstNamed c p i where
  lt := h.lt
  same := h.same.trans hs
  first j hj hsame := h.first j hj (hsame.trans hs.symm)

theorem importAddress_resolves (hl : l.Named) {e : ℕ}
    (he : e.testBit 63 = false → ∃ i < l.exports.numNamePointers,
      SameText l.bytes (l.namePtr i) b (Library.hintName e)) :
    ∃ a, l.importAddress b e = some a ∧ l.Resolves b e a := by
  by_cases hf : e.testBit 63 = true
  · refine ⟨l.byOrdinal e, ?_, ?_⟩
    · rw [Library.importAddress, if_pos hf]
    · rw [Library.Resolves, if_pos hf]
  · obtain ⟨i, hi⟩ := exists_firstNamed (he (by simpa using hf))
    obtain ⟨len, hlen, -, htext, -⟩ := hi.same
    refine ⟨l.byName i, ?_, ?_⟩
    · rw [Library.importAddress, if_neg hf, strlen_eq htext hlen]
      dsimp only
      rw [findName_eq hl htext hlen (Nat.zero_add _) (Nat.zero_le i) hi, Option.map_some]
    · rw [Library.Resolves, if_neg hf]
      exact ⟨i, hi, rfl⟩

theorem byOrdinal_lt (e : ℕ) : l.byOrdinal e < 2 ^ 64 := Nat.mod_lt _ (Nat.two_pow_pos 64)

theorem byName_lt (i : ℕ) : l.byName i < 2 ^ 64 := Nat.mod_lt _ (Nat.two_pow_pos 64)

theorem Library.Resolves.lt {e a : ℕ} (h : l.Resolves b e a) : a < 2 ^ 64 := by
  rw [Library.Resolves] at h
  split at h
  · rw [h]
    exact byOrdinal_lt e
  · obtain ⟨i, -, rfl⟩ := h
    exact byName_lt i

theorem Library.Resolves.unique {e a a' : ℕ} (h : l.Resolves b e a) (h' : l.Resolves b e a') :
    a = a' := by
  rw [Library.Resolves] at h h'
  split at h
  · rw [if_pos ‹_›] at h'
    rw [h, h']
  · rw [if_neg ‹_›] at h'
    obtain ⟨i, hi, rfl⟩ := h
    obtain ⟨j, hj, rfl⟩ := h'
    rw [hi.unique hj]

theorem Library.Resolves.of_same {e a : ℕ} (h : l.Resolves b e a)
    (hs : e.testBit 63 = false → SameText b (Library.hintName e) c (Library.hintName e)) :
    l.Resolves c e a := by
  rw [Library.Resolves] at h ⊢
  split at h
  · rwa [if_pos ‹_›]
  · rename_i hf
    rw [if_neg hf]
    obtain ⟨i, hi, rfl⟩ := h
    exact ⟨i, hi.of_same (hs (by simpa using hf)), rfl⟩

variable {p : Program}

/-- A buffer that differs from the program in the address table only has the same entries and
names. -/
theorem Program.Imports.entry_congr (h : p.Imports l n)
    (hc : ∀ x, x < p.addressTable ∨ p.addressTable + 8 * n ≤ x → c x = p.bytes x) {j : ℕ}
    (hj : j ≤ n) :
    getLE c (p.lookupTable + 8 * j) 8 = p.lookupEntry j := by
  apply getLE_congr
  intro i hi
  apply hc
  rcases h.apart with hlt | hlt
  · left
    omega
  · right
    omega

theorem Program.Imports.name_congr (h : p.Imports l n)
    (hc : ∀ x, x < p.addressTable ∨ p.addressTable + 8 * n ≤ x → c x = p.bytes x) {j : ℕ}
    (hj : j < n) (hf : (p.lookupEntry j).testBit 63 = false) :
    SameText p.bytes (Library.hintName (p.lookupEntry j)) c (Library.hintName (p.lookupEntry j)) :=
  by
  obtain ⟨i, -, k, hk, -, htext, -⟩ := h.found j hj hf
  have heq : ∀ x ≤ k, c (Library.hintName (p.lookupEntry j) + x) =
      p.bytes (Library.hintName (p.lookupEntry j) + x) := by
    intro x hx
    apply hc
    rcases h.name_apart j hj hf k htext with hlt | hlt
    · left
      omega
    · right
      omega
  exact ⟨k, hk, htext, htext.congr heq, fun x hx => (heq x hx.le).symm⟩

/-- The turns from the entry `j` on, in a program whose address table is filled up to there. -/
theorem linkFrom_spec (fuel : ℕ) (hl : l.Named) (h : p.Imports l n) {j : ℕ} (hj : j ≤ n)
    (hfuel : n < j + fuel)
    (hc : ∀ x, x < p.addressTable ∨ p.addressTable + 8 * n ≤ x → c x = p.bytes x) :
    ∃ out, l.linkFrom fuel (p.lookupTable + 8 * j) (p.addressTable + 8 * j) c = some out ∧
      (∀ x, x < p.addressTable + 8 * j → out x = c x) ∧
      ∀ m, j ≤ m → m < n → l.Resolves p.bytes (p.lookupEntry m)
        (getLE out (p.addressTable + 8 * m) 8) := by
  induction fuel generalizing j c with
  | zero => omega
  | succ fuel ih =>
    have hentry := h.entry_congr hc hj
    by_cases hn : j = n
    · subst hn
      refine ⟨c, ?_, fun x _ => rfl, fun m hm hm' => by omega⟩
      rw [Library.linkFrom, hentry, if_pos h.stop]
    · have hlt : j < n := by omega
      have hsame := h.name_congr hc hlt
      obtain ⟨a, ha, hres⟩ :=
          importAddress_resolves (l := l) (b := c) hl (e := p.lookupEntry j) (fun hf => by
        obtain ⟨i, hi, hsi⟩ := h.found j hlt hf
        exact ⟨i, hi, hsi.trans (hsame hf)⟩)
      have hc' : ∀ x, x < p.addressTable ∨ p.addressTable + 8 * n ≤ x →
          setLE c (p.addressTable + 8 * j) 8 a x = p.bytes x := by
        intro x hx
        rw [setLE_of_not_mem a (by omega), hc x hx]
      obtain ⟨out, hout, hkept, hrest⟩ := ih (j := j + 1) (by omega) (by omega) hc'
      refine ⟨out, ?_, ?_, ?_⟩
      · rw [Library.linkFrom, hentry, if_neg (h.entry_ne j hlt), ha]
        exact hout
      · intro x hx
        rw [hkept x (by omega), setLE_of_not_mem a (by omega)]
      · intro m hm hm'
        by_cases hmj : m = j
        · subst hmj
          have hread : getLE out (p.addressTable + 8 * m) 8 = a := by
            rw [getLE_congr (c := setLE c (p.addressTable + 8 * m) 8 a)
              (p := p.addressTable + 8 * m)
              (fun i hi => hkept _ (by omega)), getLE_setLE_self]
            exact Nat.mod_eq_of_lt (hres.lt.trans_le (by decide))
          rw [hread]
          exact hres.of_same (fun hf => (hsame hf).symm)
        · exact hrest m (by omega) hm'

theorem linkDll_spec (hl : l.Named) (h : p.Imports l n) :
    ∃ out, l.linkDll p.bytes p.importDirectory = some out ∧
      ∀ m < n, l.Resolves p.bytes (p.lookupEntry m) (getLE out (p.addressTable + 8 * m) 8) := by
  obtain ⟨out, hout, -, hres⟩ := linkFrom_spec (2 ^ 64) hl h (Nat.zero_le n)
    (by rw [Nat.zero_add]; exact h.count_lt) (fun x _ => rfl)
  exact ⟨out, hout, fun m hm => hres m (Nat.zero_le m) hm⟩

theorem linked_byOrdinal (hl : l.Named) (h : p.Imports l n) {i j : ℕ} (hj : j < n)
    (ho : p.ByOrdinal l j i) :
    ∃ out, l.linkDll p.bytes p.importDirectory = some out ∧ getLE out (p.addressTable + 8 * j) 8 =
      (l.virtualBuffer + l.exportAddress (l.exports.ordinalBase + l.exportOrdinal i)) % 2 ^ 64 := by
  obtain ⟨out, hout, hres⟩ := linkDll_spec hl h
  have hj := hres j hj
  rw [Library.Resolves, if_pos ho.1] at hj
  exact ⟨out, hout, by rw [hj, Library.byOrdinal, ho.2]⟩

theorem linked_byName (hl : l.Named) (h : p.Imports l n) {i j : ℕ} (hj : j < n)
    (hn : p.ByName l j i) :
    ∃ out, l.linkDll p.bytes p.importDirectory = some out ∧ getLE out (p.addressTable + 8 * j) 8 =
      (l.dllVirtualBase + l.exportAddress (l.exportOrdinal i)) % 2 ^ 64 := by
  obtain ⟨out, hout, hres⟩ := linkDll_spec hl h
  have hj := hres j hj
  rw [Library.Resolves, if_neg (by simp [hn.1])] at hj
  obtain ⟨i', hi', ha⟩ := hj
  obtain rfl : i' = i := hi'.unique hn.2
  exact ⟨out, hout, ha⟩

/-- The two imports agree if and only if the two entries of the export address table do, each from
its base. -/
theorem imports_agree_iff (hl : l.Named) {q : Program} {m : ℕ} (hp : p.Imports l n)
    (hq : q.Imports l m) {i j j' : ℕ} (hj : j < n) (hj' : j' < m) (ho : p.ByOrdinal l j i)
    (hn : q.ByName l j' i) :
    ImportsAgree l i p j q j' ↔ l.OrdinalMatches i := by
  obtain ⟨b, hb, hordinal⟩ := linked_byOrdinal hl hp hj ho
  obtain ⟨c, hc, hname⟩ := linked_byName hl hq hj' hn
  constructor
  · rintro ⟨b', c', hb', hc', heq, haddr⟩
    obtain rfl : b = b' := Option.some.inj (hb.symm.trans hb')
    rw [Library.OrdinalMatches, ← hordinal, heq, haddr]
  · intro h
    rw [Library.OrdinalMatches] at h
    exact ⟨b, c, hb, hc, by rw [hordinal, hname, h], hname⟩

theorem exportAddress_lt (k : ℕ) : l.exportAddress k < 2 ^ 32 := getLE_lt l.bytes _ 4

/-- For the kernel the ordinal number has to be as good as the ordinal, which it is where
`OrdinalBase` is zero. -/
theorem ordinalMatches_kernel (h : l.userProcess = none) {i : ℕ} :
    l.OrdinalMatches i ↔
      l.exportAddress (l.exports.ordinalBase + l.exportOrdinal i) =
        l.exportAddress (l.exportOrdinal i) := by
  have hbase : l.dllVirtualBase = l.virtualBuffer := by
    rw [Library.dllVirtualBase, Library.dllImage, h, if_pos rfl]
  have h1 := exportAddress_lt (l := l) (l.exports.ordinalBase + l.exportOrdinal i)
  have h2 := exportAddress_lt (l := l) (l.exportOrdinal i)
  rw [Library.OrdinalMatches, hbase]
  omega

/-- Without an ordinal base, a library of a process has to lie at its own buffer. -/
theorem ordinalMatches_user (h : l.exports.ordinalBase = 0) {i : ℕ} :
    l.OrdinalMatches i ↔ l.virtualBuffer % 2 ^ 64 = l.dllVirtualBase % 2 ^ 64 := by
  rw [Library.OrdinalMatches, h, Nat.zero_add]
  omega

/-- The directory of a library with two exports, the first of them named `a`. -/
def twoExports (ordinalBase : ℕ) : Library where
  bytes := setLE (setLE (setLE (setLE (setLE (setLE (setLE (setLE (setLE (fun _ => 0)
    0x1010 4 ordinalBase) 0x1018 4 1) 0x101C 4 0x1040) 0x1020 4 0x1050) 0x1024 4 0x1058)
    0x1040 4 0x2000) 0x1044 4 0x3000) 0x1050 4 0x1060) 0x1060 1 0x61
  exportTable := 0x1000
  virtualBuffer := 0x100000
  userProcess := none

/-- A program with one import, and the name `a` at the offset `0x1302`. -/
def oneImport (lookupEntry : ℕ) : Program where
  bytes :=
    setLE (setLE (setLE (setLE (fun _ => 0) 0x1000 4 0x1100) 0x1010 4 0x1200) 0x1100 8 lookupEntry)
    0x1302 1 0x61
  importDirectory := 0x1000

theorem twoExports_numNamePointers (ordinalBase : ℕ) :
    (twoExports ordinalBase).exports.numNamePointers = 1 := by
  simp (disch := decide) only [Library.exports, readExportDirectory, twoExports,
    getLE_setLE_of_disjoint, getLE_setLE_self]
  rfl

theorem twoExports_namePtr (ordinalBase : ℕ) : (twoExports ordinalBase).namePtr 0 = 0x1060 := by
  simp (disch := decide) only [Library.namePtr, Library.exports, readExportDirectory, twoExports,
    getLE_setLE_of_disjoint, getLE_setLE_self]
  rfl

theorem twoExports_byte (ordinalBase : ℕ) : (twoExports ordinalBase).bytes 0x1060 = 0x61 := by
  simp [twoExports, setLE]

theorem twoExports_text (ordinalBase : ℕ) : IsText (twoExports ordinalBase).bytes 0x1060 1 := by
  refine ⟨fun i hi => ?_, ?_⟩
  · obtain rfl : i = 0 := by omega
    rw [Nat.add_zero, twoExports_byte]
    decide
  · rw [twoExports]
    simp (disch := decide) only [setLE_of_not_mem]

theorem twoExports_named (ordinalBase : ℕ) : (twoExports ordinalBase).Named := by
  intro i hi
  rw [twoExports_numNamePointers] at hi
  obtain rfl : i = 0 := Nat.lt_one_iff.1 hi
  rw [twoExports_namePtr]
  exact ⟨1, by decide, twoExports_text ordinalBase⟩

theorem oneImport_byte (lookupEntry : ℕ) : (oneImport lookupEntry).bytes 0x1302 = 0x61 := by
  simp [oneImport, setLE]

theorem oneImport_text (lookupEntry : ℕ) : IsText (oneImport lookupEntry).bytes 0x1302 1 := by
  refine ⟨fun i hi => ?_, ?_⟩
  · obtain rfl : i = 0 := by omega
    rw [Nat.add_zero, oneImport_byte]
    decide
  · rw [oneImport]
    simp (disch := decide) only [setLE_of_not_mem]

theorem oneImport_firstNamed (ordinalBase lookupEntry : ℕ) :
    (twoExports ordinalBase).FirstNamed (oneImport lookupEntry).bytes 0x1302 0 where
  lt := by
    rw [twoExports_numNamePointers]
    exact Nat.one_pos
  same := by
    rw [twoExports_namePtr]
    refine ⟨1, by decide, twoExports_text ordinalBase, oneImport_text lookupEntry, fun i hi => ?_⟩
    obtain rfl : i = 0 := by omega
    rw [Nat.add_zero, Nat.add_zero, twoExports_byte, oneImport_byte]
  first j hj := absurd hj (Nat.not_lt_zero j)

theorem oneImport_lookupTable (lookupEntry : ℕ) : (oneImport lookupEntry).lookupTable = 0x1100 := by
  simp (disch := decide) only [Program.lookupTable, oneImport, getLE_setLE_of_disjoint,
    getLE_setLE_self]
  rfl

theorem oneImport_addressTable (lookupEntry : ℕ) :
    (oneImport lookupEntry).addressTable = 0x1200 := by
  simp (disch := decide) only [Program.addressTable, oneImport, getLE_setLE_of_disjoint,
    getLE_setLE_self]
  rfl

theorem oneImport_stop (lookupEntry : ℕ) : (oneImport lookupEntry).lookupEntry 1 = 0 := by
  rw [Program.lookupEntry, oneImport_lookupTable, oneImport]
  simp (disch := decide) only [getLE_setLE_of_disjoint, getLE_zero]

theorem oneImport_lookupEntry (lookupEntry : ℕ) (h : lookupEntry < 2 ^ 64) :
    (oneImport lookupEntry).lookupEntry 0 = lookupEntry := by
  rw [Program.lookupEntry, oneImport_lookupTable, oneImport]
  simp (disch := decide) only [getLE_setLE_of_disjoint, getLE_setLE_self]
  exact Nat.mod_eq_of_lt h

theorem byOrdinal_imports (ordinalBase k : ℕ) (hk : k < 2 ^ 16) :
    (oneImport (2 ^ 63 + k)).Imports (twoExports ordinalBase) 1 := by
  have hentry := oneImport_lookupEntry (2 ^ 63 + k) (by omega)
  have hbit : (2 ^ 63 + k).testBit 63 = true := by
    rw [Nat.testBit_two_pow_add_eq, Nat.testBit_lt_two_pow (by omega)]
    rfl
  constructor
  · intro j hj
    obtain rfl : j = 0 := by omega
    rw [hentry]
    omega
  · exact oneImport_stop _
  · decide
  · left
    rw [oneImport_lookupTable, oneImport_addressTable]
    decide
  · intro j hj hf
    obtain rfl : j = 0 := by omega
    rw [hentry, hbit] at hf
    cases hf
  · intro j hj hf
    obtain rfl : j = 0 := by omega
    rw [hentry, hbit] at hf
    cases hf

theorem byName_imports (ordinalBase : ℕ) :
    (oneImport 0x1300).Imports (twoExports ordinalBase) 1 := by
  constructor
  · intro j hj
    obtain rfl : j = 0 := by omega
    decide
  · exact oneImport_stop _
  · decide
  · left
    rw [oneImport_lookupTable, oneImport_addressTable]
    decide
  · intro j hj hf
    obtain rfl : j = 0 := by omega
    have hfirst := oneImport_firstNamed ordinalBase 0x1300
    exact ⟨0, hfirst.lt, hfirst.same⟩
  · intro j hj hf k hk
    obtain rfl : j = 0 := by omega
    right
    decide

/-- With the ordinal base 1, the import by ordinal number gets the address of the second export. -/
theorem firstOrdinal_second :
    (twoExports 1).Named ∧ (oneImport (2 ^ 63 + 1)).Imports (twoExports 1) 1 ∧
      (oneImport 0x1300).Imports (twoExports 1) 1 ∧
      (oneImport (2 ^ 63 + 1)).ByOrdinal (twoExports 1) 0 0 ∧
      (oneImport 0x1300).ByName (twoExports 1) 0 0 ∧
      ¬ImportsAgree (twoExports 1) 0 (oneImport (2 ^ 63 + 1)) 0 (oneImport 0x1300) 0 := by
  have hordinal : (oneImport (2 ^ 63 + 1)).ByOrdinal (twoExports 1) 0 0 := by decide
  have hname : (oneImport 0x1300).ByName (twoExports 1) 0 0 :=
    ⟨by decide, oneImport_firstNamed 1 0x1300⟩
  have hp := byOrdinal_imports 1 1 (by decide)
  have hq := byName_imports 1
  refine ⟨twoExports_named 1, hp, hq, hordinal, hname, ?_⟩
  rintro ⟨b, c, hb, hc, heq, -⟩
  obtain ⟨b', hb', haddr⟩ := linked_byOrdinal (twoExports_named 1) hp Nat.one_pos hordinal
  obtain ⟨c', hc', haddr'⟩ := linked_byName (twoExports_named 1) hq Nat.one_pos hname
  obtain rfl : b' = b := Option.some.inj (hb'.symm.trans hb)
  obtain rfl : c' = c := Option.some.inj (hc'.symm.trans hc)
  rw [haddr, haddr'] at heq
  revert heq
  decide

/-- With the ordinal base 0, both get the address of the first. -/
theorem firstOrdinal_first :
    ImportsAgree (twoExports 0) 0 (oneImport (2 ^ 63)) 0 (oneImport 0x1300) 0 :=
  (imports_agree_iff (twoExports_named 0) (byOrdinal_imports 0 0 (by decide))
    (byName_imports 0) Nat.one_pos
    Nat.one_pos (by decide) ⟨by decide, oneImport_firstNamed 0 0x1300⟩).2 (by decide)

end DevOs.Loader
