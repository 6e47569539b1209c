import DevOs.Aml.Model
import Mathlib.Data.List.DropRight

/-!
# Name strings

A name string is an optional root prefix and one segment of four characters, or a prefix that
announces two or any number of them. `AmlCopyName` starts the count of the characters of the first
segment with the number of prefix bytes, and it takes the first underscore behind the lead character
for padding. So it reads a name whole only when there is no prefix, and gives it right when its
underscores are padding.
-/

namespace DevOs.Aml

open Bytes

def IsNameChar (c : Byte) : Prop :=
  (0x41 ≤ c.toNat ∧ c.toNat ≤ 0x5A) ∨ (0x30 ≤ c.toNat ∧ c.toNat ≤ 0x39) ∨ c = 0x5F

/-- A segment of four name characters. -/
structure NameSeg where
  lead : Byte
  second : Byte
  third : Byte
  fourth : Byte
  valid : ∀ c ∈ [lead, second, third, fourth], IsNameChar c

def NameSeg.chars (s : NameSeg) : List Byte := [s.lead, s.second, s.third, s.fourth]

/-- The segments of a name with the prefix that says how many there are. -/
inductive NamePath where
  | single (s : NameSeg)
  | dual (s t : NameSeg)
  | multi (l : List NameSeg) (h : l.length < 256)

/-- A well-formed `NameString`. -/
structure NameString where
  root : Bool
  path : NamePath

def NamePath.segments : NamePath → List NameSeg
  | .single s => [s]
  | .dual s t => [s, t]
  | .multi l _ => l

def NamePath.prefixBytes : NamePath → List Byte
  | .single _ => []
  | .dual _ _ => [amlDualnamePrefix]
  | .multi l _ => [amlMultinamePrefix, BitVec.ofNat 8 l.length]

def NameString.rootBytes (s : NameString) : List Byte := if s.root then [amlRootPrefix] else []

def NameString.encoding (s : NameString) : List Byte :=
  s.rootBytes ++ s.path.prefixBytes ++ s.path.segments.flatMap NameSeg.chars

/-- The segments without the underscores at their ends, joined by dots, behind the root
character. -/
def NameString.text (s : NameString) : List Byte :=
  s.rootBytes ++ [(0x2E : Byte)].intercalate
    (s.path.segments.map fun t => t.chars.rdropWhile (· == 0x5F))

/-- The list lies at `o`. -/
def Holds (b : Buffer) (o : ℕ) : List Byte → Prop
  | [] => True
  | c :: l => b o = c ∧ Holds b (o + 1) l

/-- The name at `o` is copied right. -/
def CopiesName (b : Buffer) (o : ℕ) (s : NameString) : Prop :=
  (amlCopyName b o).nameStringBytes = s.encoding.length ∧ (amlCopyName b o).destination = s.text

/-- The underscores behind the lead character are all at the end, and some character is none. -/
structure NameSeg.Padded (s : NameSeg) : Prop where
  second : s.second = 0x5F → s.third = 0x5F ∧ s.lead ≠ 0x5F
  third : s.third = 0x5F → s.fourth = 0x5F

variable {b : Buffer} {o : ℕ}

theorem holds_append {l m : List Byte} :
    Holds b o (l ++ m) ↔ Holds b o l ∧ Holds b (o + l.length) m := by
  induction l generalizing o with
  | nil => simp [Holds]
  | cons c l ih =>
    rw [List.cons_append, Holds, Holds, ih, List.length_cons, Nat.add_right_comm, ← Nat.add_assoc,
      and_assoc]

theorem Holds.get {l : List Byte} (h : Holds b o l) {k : ℕ} (hk : k < l.length) :
    b (o + k) = l[k] := by
  induction l generalizing o k with
  | nil => cases hk
  | cons c l ih =>
    cases k with
    | zero => exact h.1
    | succ k =>
      have hrec := ih h.2 (k := k) (by simpa using hk)
      rw [Nat.add_right_comm] at hrec
      exact hrec

theorem IsNameChar.ne {c : Byte} (h : IsNameChar c) : c ≠ 0 ∧ c ≠ 0x22 ∧ c ≠ amlRootPrefix ∧
    c ≠ amlMultinamePrefix ∧ c ≠ amlDualnamePrefix := by
  refine ⟨?_, ?_, ?_, ?_, ?_⟩
  all_goals
    rintro rfl
    revert h
    unfold IsNameChar
    decide

theorem NameSeg.chars_ne_zero (s : NameSeg) :
    ∀ c ∈ s.chars, c ≠ 0 := fun c hc => (s.valid c hc).ne.1

theorem NameSeg.length_chars (s : NameSeg) : s.chars.length = 4 := rfl

/-- A segment without a zero is passed up to its fourth character, wherever the count starts. -/
theorem copyCharacters_passes (more i : ℕ) (s : NameCopy) (hi : i + more = 3)
    (h : ∀ k ≤ more, b (s.source + k) ≠ 0) :
    (copyCharacters b more i s).source = s.source + (more + 1) ∧
      (copyCharacters b more i s).nameStringBytes = s.nameStringBytes + (more + 1) := by
  induction more generalizing i s with
  | zero =>
    have hne : b s.source ≠ 0 := h 0 le_rfl
    rw [copyCharacters, if_neg hne]
    by_cases hu : 0 < i ∧ b s.source = 0x5F
    · rw [if_pos hu]
      have hsub : 4 - i = 1 := by omega
      simp [NameCopy.skip, NameCopy.read, hsub]
    · rw [if_neg hu]
      exact ⟨rfl, rfl⟩
  | succ more ih =>
    have hne : b s.source ≠ 0 := h 0 (Nat.zero_le _)
    rw [copyCharacters, if_neg hne]
    by_cases hu : 0 < i ∧ b s.source = 0x5F
    · rw [if_pos hu]
      have hsub : 4 - i = more + 1 + 1 := by omega
      simp [NameCopy.skip, NameCopy.read, hsub]
    · rw [if_neg hu]
      have hrec := ih (i + 1) (((s.read 1).put (b s.source)).skip 1) (by omega) fun k hk => by
        have hne := h (k + 1) (by omega)
        rwa [Nat.add_comm k 1, ← Nat.add_assoc] at hne
      rw [hrec.1, hrec.2]
      constructor
      · show s.source + 1 + (more + 1) = s.source + (more + 1 + 1)
        omega
      · show s.nameStringBytes + 1 + (more + 1) = s.nameStringBytes + (more + 1 + 1)
        omega

theorem copyCharacters_writes (l : List Byte) (more i : ℕ) (s : NameCopy) (hl : l.length = more + 1)
    (hi : 0 < i) (hb : Holds b s.source l) (h : ∀ c ∈ l, c ≠ 0) :
    (copyCharacters b more i s).destination = s.destination ++ l.takeWhile (· != 0x5F) := by
  induction l generalizing more i s with
  | nil => simp at hl
  | cons c l ih =>
    obtain ⟨hc, hb⟩ := hb
    rw [copyCharacters.eq_def]
    simp only [hc, if_neg (h c List.mem_cons_self)]
    by_cases hu : c = 0x5F
    · rw [if_pos ⟨hi, hu⟩, hu]
      simp [NameCopy.skip, NameCopy.read]
    · rw [if_neg fun hc => hu hc.2, List.takeWhile_cons_of_pos (by simpa using hu)]
      cases more with
      | zero =>
        have hnil : l = [] := List.eq_nil_of_length_eq_zero (by simpa using hl)
        simp [NameCopy.skip, NameCopy.put, NameCopy.read, hnil]
      | succ more =>
        have hrec := ih more (i + 1) (((s.read 1).put c).skip 1) (by
          simpa using hl) (Nat.succ_pos i) hb
          fun c hc => h c (List.mem_cons_of_mem _ hc)
        refine hrec.trans ?_
        simp [NameCopy.skip, NameCopy.put, NameCopy.read]

theorem copyCharacters_le (more i : ℕ) (s : NameCopy) :
    s.nameStringBytes ≤ (copyCharacters b more i s).nameStringBytes := by
  induction more generalizing i s with
  | zero =>
    rw [copyCharacters]
    split_ifs <;> simp [NameCopy.skip, NameCopy.put, NameCopy.read]
  | succ more ih =>
    rw [copyCharacters]
    split_ifs
    · simp [NameCopy.read]
    · simp [NameCopy.skip, NameCopy.read]
    · refine le_trans ?_ (ih _ _)
      simp [NameCopy.skip, NameCopy.put, NameCopy.read]

theorem copySegments_le (n x : ℕ) (s : NameCopy) :
    s.nameStringBytes ≤ (copySegments b n x s).nameStringBytes := by
  induction n generalizing x s with
  | zero => exact le_rfl
  | succ n ih =>
    rw [copySegments]
    refine le_trans (le_trans ?_ (copyCharacters_le _ _ _)) (ih _ _)
    split_ifs <;> simp [NameCopy.put]

/-- Segments without zeros are passed in four bytes each, less the prefix bytes. -/
theorem copySegments_passes (n x : ℕ) (s : NameCopy) (hx : x ≠ 0)
    (h : ∀ k < 4 * n, b (s.source + k) ≠ 0) :
    (copySegments b n x s).nameStringBytes = s.nameStringBytes + 4 * n := by
  induction n generalizing x s with
  | zero => rfl
  | succ n ih =>
    rw [copySegments]
    simp only [if_pos hx, if_neg hx, Nat.sub_zero]
    obtain ⟨hsource, hcount⟩ := copyCharacters_passes (b := b) 3 0 (s.put 0x2E) rfl fun k hk =>
      h k (by omega)
    rw [ih (x + 1) _ (Nat.succ_ne_zero x), hcount]
    · show s.nameStringBytes + (3 + 1) + 4 * n = _
      omega
    · intro k hk
      rw [hsource]
      have hne := h (k + 4) (by omega)
      rwa [Nat.add_comm k 4, ← Nat.add_assoc] at hne

theorem copySegments_first (n : ℕ) (s : NameCopy) (hp : s.nameStringBytes ≤ 3)
    (h : ∀ k, s.nameStringBytes + k < 4 * (n + 1) → b (s.source + k) ≠ 0) :
    (copySegments b (n + 1) 0 s).nameStringBytes = 4 * (n + 1) := by
  rw [copySegments]
  simp only [ne_eq, not_true_eq_false, if_false, if_true]
  obtain ⟨hsource, hcount⟩ :=
    copyCharacters_passes (b := b) (3 - s.nameStringBytes) s.nameStringBytes s
    (by omega) fun k hk => h k (by omega)
  rw [copySegments_passes n 1 _ Nat.one_ne_zero, hcount]
  · omega
  · intro k hk
    rw [hsource]
    have hne := h (3 - s.nameStringBytes + 1 + k) (by omega)
    rwa [← Nat.add_assoc] at hne

theorem copyRoot_eq (s : NameString) (hb : Holds b o s.encoding) :
    (copyRoot b ⟨o, [], 0, 0, []⟩).source = o + s.rootBytes.length ∧
      (copyRoot b ⟨o, [], 0, 0, []⟩).nameStringBytes = s.rootBytes.length ∧
      (copyRoot b ⟨o, [], 0, 0, []⟩).destination = s.rootBytes := by
  rw [NameString.encoding, List.append_assoc, holds_append] at hb
  rw [NameString.rootBytes] at hb ⊢
  by_cases hr : s.root = true
  · rw [if_pos hr] at hb ⊢
    have hroot : b o = amlRootPrefix ∨ b o = 0x22 := .inl hb.1.1
    rw [copyRoot, if_pos hroot]
    exact ⟨rfl, rfl, rfl⟩
  · rw [if_neg hr] at hb ⊢
    have hne : ¬(b o = amlRootPrefix ∨ b o = 0x22) := by
      have hpath := hb.2
      cases hp : s.path with
      | single t =>
        rw [hp] at hpath
        have hlead := (t.valid t.lead List.mem_cons_self).ne
        have hbyte : b o = t.lead := hpath.1
        rw [hbyte]
        exact fun h => h.elim hlead.2.2.1 hlead.2.1
      | dual t u =>
        rw [hp] at hpath
        have hbyte : b o = amlDualnamePrefix := hpath.1
        rw [hbyte]
        decide
      | multi l h =>
        rw [hp] at hpath
        have hbyte : b o = amlMultinamePrefix := hpath.1
        rw [hbyte]
        decide
    rw [copyRoot, if_neg hne]
    exact ⟨rfl, rfl, rfl⟩

theorem namePrefix_eq (path : NamePath) (s : NameCopy)
    (hb : Holds b s.source (path.prefixBytes ++ path.segments.flatMap NameSeg.chars))
    (hq : path.segments = [] → b (s.source + path.prefixBytes.length) ≠ amlDualnamePrefix) :
    (namePrefix b s).1 = path.segments.length ∧
      (namePrefix b s).2.source = s.source + path.prefixBytes.length ∧
      (namePrefix b s).2.nameStringBytes = s.nameStringBytes + path.prefixBytes.length ∧
      (namePrefix b s).2.destination = s.destination := by
  cases path with
  | single t =>
    have hlead := (t.valid t.lead List.mem_cons_self).ne
    have hbyte : b s.source = t.lead := hb.1
    have hdual : b (s.read 1).source ≠ amlDualnamePrefix := hbyte ▸ hlead.2.2.2.2
    rw [namePrefix, if_neg (hbyte ▸ hlead.2.2.2.1)]
    simp only [if_neg hdual]
    exact ⟨rfl, rfl, rfl, rfl⟩
  | dual t u =>
    have hbyte : b s.source = amlDualnamePrefix := hb.1
    have hmulti : b s.source ≠ amlMultinamePrefix := by
      rw [hbyte]
      decide
    have hdual : b (s.read 1).source = amlDualnamePrefix := hbyte
    rw [namePrefix, if_neg hmulti]
    simp only [if_pos hdual]
    exact ⟨rfl, rfl, rfl, rfl⟩
  | multi l h =>
    obtain ⟨hbyte, hcount, hrest⟩ := hb
    have hdual : b (((s.read 2).skip 2).source) ≠ amlDualnamePrefix := by
      cases hl : l with
      | nil => exact hq hl
      | cons t l' =>
        subst hl
        have hlead := (t.valid t.lead List.mem_cons_self).ne
        have hnext : b (s.source + 2) = t.lead := hrest.1
        exact hnext ▸ hlead.2.2.2.2
    rw [namePrefix, if_pos hbyte]
    simp only [if_neg hdual, hcount, BitVec.toNat_ofNat]
    exact ⟨Nat.mod_eq_of_lt h, rfl, rfl, rfl⟩

variable {s : NameString}

def NameString.prefixLength (s : NameString) : ℕ := s.rootBytes.length + s.path.prefixBytes.length

theorem length_flatMap_chars (l : List NameSeg) :
    (l.flatMap NameSeg.chars).length = 4 * l.length := by
  induction l with
  | nil => rfl
  | cons t l ih =>
    rw [List.flatMap_cons, List.length_append, ih, List.length_cons, NameSeg.length_chars]
    omega

theorem length_encoding (s : NameString) :
    s.encoding.length = s.prefixLength + 4 * s.path.segments.length := by
  rw [NameString.encoding, List.length_append, List.length_append, length_flatMap_chars,
    NameString.prefixLength]

theorem prefixLength_le (s : NameString) : s.prefixLength ≤ 3 := by
  have hroot : s.rootBytes.length ≤ 1 := by
    rw [NameString.rootBytes]
    split_ifs <;> simp
  have hpath : s.path.prefixBytes.length ≤ 2 := by
    cases s.path <;> simp [NamePath.prefixBytes]
  rw [NameString.prefixLength]
  omega

theorem amlCopyName_eq (hb : Holds b o s.encoding)
    (hq : s.path.segments = [] → b (o + s.encoding.length) ≠ amlDualnamePrefix) :
    ∃ t : NameCopy, t.source = o + s.prefixLength ∧ t.nameStringBytes = s.prefixLength ∧
      t.destination = s.rootBytes ∧
      amlCopyName b o = copySegments b s.path.segments.length 0 t := by
  obtain ⟨hsource, hcount, hdest⟩ := copyRoot_eq s hb
  have hrest := hb
  rw [NameString.encoding, List.append_assoc, holds_append, ← hsource] at hrest
  obtain ⟨hn, hsource', hcount', hdest'⟩ := namePrefix_eq s.path _ hrest.2 fun hnil => by
    have hnext := hq hnil
    rwa [length_encoding, hnil, List.length_nil, Nat.mul_zero, Nat.add_zero,
      NameString.prefixLength, ← Nat.add_assoc, ← hsource] at hnext
  refine ⟨(namePrefix b (copyRoot b ⟨o, [], 0, 0, []⟩)).2, ?_, ?_, hdest'.trans hdest, ?_⟩
  · rw [hsource', hsource, NameString.prefixLength, Nat.add_assoc]
  · rw [hcount', hcount, NameString.prefixLength]
  · rw [← hn]
    rfl

/-- Whatever the prefixes are, the count ends with four bytes for each segment. -/
theorem nameStringBytes_eq (hb : Holds b o s.encoding) (hne : s.path.segments ≠ []) :
    (amlCopyName b o).nameStringBytes = 4 * s.path.segments.length := by
  obtain ⟨t, hsource, hcount, -, hcopy⟩ := amlCopyName_eq hb fun hnil => absurd hnil hne
  obtain ⟨n, hn⟩ : ∃ n, s.path.segments.length = n + 1 :=
    Nat.exists_eq_succ_of_ne_zero fun h => hne (List.eq_nil_of_length_eq_zero h)
  rw [hcopy, hn, copySegments_first n t (hcount ▸ prefixLength_le s)]
  intro k hk
  rw [hcount] at hk
  rw [NameString.encoding, holds_append] at hb
  have hlen : (s.rootBytes ++ s.path.prefixBytes).length = s.prefixLength := List.length_append
  have hk' : k < (s.path.segments.flatMap NameSeg.chars).length := by
    rw [length_flatMap_chars]
    omega
  have hget := hb.2.get hk'
  rw [hlen] at hget
  rw [hsource, hget]
  obtain ⟨u, -, hu⟩ := List.mem_flatMap.mp (List.getElem_mem hk')
  exact u.chars_ne_zero _ hu

theorem nameStringBytes_of_dual (hb : Holds b o s.encoding) (hnil : s.path.segments = [])
    (hdual : b (o + s.encoding.length) = amlDualnamePrefix) :
    s.encoding.length < (amlCopyName b o).nameStringBytes := by
  obtain ⟨hsource, hcount, -⟩ := copyRoot_eq s hb
  rw [length_encoding, hnil, List.length_nil, Nat.mul_zero, Nat.add_zero,
    NameString.prefixLength] at hdual ⊢
  rw [NameString.encoding, List.append_assoc, holds_append, ← hsource] at hb
  rw [← Nat.add_assoc, ← hsource] at hdual
  rw [← hcount]
  generalize hr : copyRoot b ⟨o, [], 0, 0, []⟩ = r at hb hdual
  have hcopy : amlCopyName b o = copySegments b (namePrefix b r).1 0 (namePrefix b r).2 := by
    rw [← hr]; rfl
  rw [hcopy]
  refine Nat.lt_of_lt_of_le ?_ (copySegments_le _ _ _)
  cases hpath : s.path with
  | single t => rw [hpath] at hnil; cases hnil
  | dual t u => rw [hpath] at hnil; cases hnil
  | multi l h =>
    rw [hpath] at hb hdual
    have hmulti : b r.source = amlMultinamePrefix := hb.2.1
    have hnext : b (((r.read 2).skip 2).source) = amlDualnamePrefix := hdual
    rw [namePrefix, if_pos hmulti]
    simp only [if_pos hnext]
    exact Nat.lt_succ_self _

/-- A segment without a prefix: its lead character and what is before the next underscore. -/
theorem destination_single {t : NameSeg} (hroot : s.root = false) (hpath : s.path = .single t)
    (hb : Holds b o s.encoding) :
    (amlCopyName b o).destination = t.lead :: [t.second, t.third, t.fourth].takeWhile
      (· != 0x5F) := by
  obtain ⟨u, hsource, hcount, hdest, hcopy⟩ := amlCopyName_eq hb fun hnil => by
    rw [hpath] at hnil
    cases hnil
  have hbytes : s.encoding = t.chars := by
    simp [NameString.encoding, NameString.rootBytes, hroot, hpath, NamePath.prefixBytes,
      NamePath.segments]
  have hzero : s.prefixLength = 0 := by
    simp [NameString.prefixLength, NameString.rootBytes, hroot, hpath, NamePath.prefixBytes]
  rw [hbytes] at hb
  rw [hzero] at hsource hcount
  have hlead : b u.source = t.lead := hsource ▸ hb.1
  have hne : b u.source ≠ 0 := hlead ▸ t.chars_ne_zero _ List.mem_cons_self
  rw [hcopy, hpath]
  simp only [NamePath.segments, List.length_singleton, copySegments, ne_eq, not_true_eq_false,
    if_false, if_true, hcount, Nat.sub_zero]
  rw [copyCharacters, if_neg hne, if_neg fun h => absurd h.1 (Nat.lt_irrefl 0)]
  rw [copyCharacters_writes [t.second, t.third, t.fourth] 2 1 _ rfl Nat.one_pos]
  · have hempty : u.destination = [] := by
      rw [hdest, NameString.rootBytes, hroot]
      rfl
    simp [NameCopy.skip, NameCopy.put, NameCopy.read, hempty, hlead]
  · have hrest := hb.2
    rw [Nat.add_zero] at hsource
    rw [← hsource] at hrest
    exact hrest
  · exact fun c hc => t.chars_ne_zero c (List.mem_cons_of_mem _ hc)

/-- Stopping at the first `u` is dropping those at the end when all of them are there. -/
theorem takeWhile_eq_rdropWhile_iff {α : Type*} [DecidableEq α] (u a b c d : α) :
    a :: [b, c, d].takeWhile (· != u) = [a, b, c, d].rdropWhile (· == u) ↔
      (b = u → c = u ∧ a ≠ u) ∧ (c = u → d = u) := by
  by_cases h0 : a = u <;> by_cases h1 : b = u <;> by_cases h2 : c = u <;> by_cases h3 : d = u <;>
    simp [List.rdropWhile, h0, h1, h2, h3]

theorem padded_iff (t : NameSeg) :
    t.lead :: [t.second, t.third, t.fourth].takeWhile (· != 0x5F) = t.chars.rdropWhile (· == 0x5F) ↔
      t.Padded := by
  rw [NameSeg.chars, takeWhile_eq_rdropWhile_iff]
  exact ⟨fun h => ⟨h.1, h.2⟩, fun h => ⟨h.second, h.third⟩⟩

/-- A name is copied right when it is one segment without the root prefix, padded with underscores,
or has no segment and is not followed by a dot. -/
theorem amlCopyName_right_iff (hb : Holds b o s.encoding) :
    CopiesName b o s ↔ (s.root = false ∧ ∃ t, s.path = .single t ∧ t.Padded) ∨
      (s.path.segments = [] ∧ b (o + s.encoding.length) ≠ amlDualnamePrefix) := by
  by_cases hnil : s.path.segments = []
  · have hlen : s.encoding.length = s.prefixLength := by rw [length_encoding, hnil]; rfl
    have hsingle : ¬(s.root = false ∧ ∃ t, s.path = .single t ∧ t.Padded) := by
      rintro ⟨-, t, hpath, -⟩
      rw [hpath] at hnil
      cases hnil
    simp only [hsingle, false_or, hnil, true_and]
    constructor
    · intro h hdual
      have hle := nameStringBytes_of_dual hb hnil hdual
      have heq := h.1
      omega
    · intro hnext
      obtain ⟨t, -, hcount, hdest, hcopy⟩ := amlCopyName_eq hb fun _ => hnext
      rw [hnil] at hcopy
      refine ⟨by rw [hcopy, hlen]; exact hcount, ?_⟩
      rw [hcopy, NameString.text, hnil]
      simpa [copySegments] using hdest
  · have hcount := nameStringBytes_eq hb hnil
    simp only [hnil, false_and, or_false]
    constructor
    · intro ⟨hbytes, htext⟩
      rw [hcount, length_encoding] at hbytes
      have hzero : s.prefixLength = 0 := by omega
      have hroot : s.root = false := by
        by_contra hr
        simp [NameString.prefixLength, NameString.rootBytes, hr] at hzero
      cases hpath : s.path with
      | single t =>
        refine ⟨hroot, t, rfl, (padded_iff t).mp ?_⟩
        rw [← destination_single hroot hpath hb, htext]
        simp [NameString.text, NameString.rootBytes, hroot, hpath, NamePath.segments]
      | dual t u => simp [NameString.prefixLength, hpath, NamePath.prefixBytes] at hzero
      | multi l h => simp [NameString.prefixLength, hpath, NamePath.prefixBytes] at hzero
    · rintro ⟨hroot, t, hpath, hpadded⟩
      have hzero : s.prefixLength = 0 := by
        simp [NameString.prefixLength, NameString.rootBytes, hroot, hpath, NamePath.prefixBytes]
      refine ⟨by rw [hcount, length_encoding, hzero, Nat.zero_add], ?_⟩
      rw [destination_single hroot hpath hb, (padded_iff t).mpr hpadded]
      simp [NameString.text, NameString.rootBytes, hroot, hpath, NamePath.segments]

/-- `_SB_` -/
def systemBus : NameSeg where
  lead := 0x5F
  second := 0x53
  third := 0x42
  fourth := 0x5F
  valid := by
    unfold IsNameChar
    decide

def bytesOf (l : List Byte) : Buffer := fun i => l.getD i 0

theorem systemBus_copied :
    Holds (bytesOf systemBus.chars) 0 (NameString.encoding ⟨false, .single systemBus⟩) ∧
    CopiesName (bytesOf systemBus.chars) 0 ⟨false, .single systemBus⟩ := by
  have hb : Holds (bytesOf systemBus.chars) 0 (NameString.encoding ⟨false, .single systemBus⟩) :=
    ⟨rfl, rfl, rfl, rfl, trivial⟩
  refine ⟨hb, (amlCopyName_right_iff hb).mpr (.inl ⟨rfl, systemBus, rfl, ?_, ?_⟩)⟩
  · decide
  · decide

/-- With the root prefix, four bytes are reported where there are five, and nothing of the segment
is written. -/
theorem rootName_not_copied :
    ∃ b : Buffer, Holds b 0 (NameString.encoding ⟨true, .single systemBus⟩) ∧
    ¬CopiesName b 0 ⟨true, .single systemBus⟩ ∧
    (amlCopyName b 0).nameStringBytes = 4 ∧ (amlCopyName b 0).destination = [amlRootPrefix] := by
  refine ⟨bytesOf (amlRootPrefix :: systemBus.chars), ⟨rfl, rfl, rfl, rfl, rfl, trivial⟩, ?_, by
    decide, by decide⟩
  intro h
  have hcount := h.1
  revert hcount
  decide

end DevOs.Aml
