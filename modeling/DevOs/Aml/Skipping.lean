import DevOs.Aml.PackageLength
import Mathlib.Data.Prod.Lex

/-!
# Skipping through the DSDT

A walk through the table is right when it ends, reads nothing behind the table, and comes from a
Scope or a Method to the byte behind it. Each round has a condition on the bytes at its place: what
it decodes lies in the table, the names fit into their arrays, a field does not start with an
element at which the code stops for good, a Scope is not shorter than the bytes of its length, and
no Method ends in the table, since the code comes one byte short of its end. A walk is right exactly
when all its rounds meet their conditions.
-/

namespace DevOs.Aml

open Bytes

/-- All offsets lie in a table of `n` bytes. -/
def Inside (n : ℕ) (reads : List ℕ) : Prop := ∀ r ∈ reads, r < n

/-- The name at `o` is read from the table, and its text fits into an array of `size` characters. -/
structure NameFits (b : Buffer) (n size o : ℕ) : Prop where
  inside : Inside n (amlCopyName b o).reads
  written : (amlCopyName b o).written ≤ size

/-- A field element. The code waits for ever at the types 2 and 3. -/
structure ElementFits (b : Buffer) (n aml : ℕ) : Prop where
  inside : aml < n
  reserved : b aml = 0 → aml + 1 + followingBytes b (aml + 1) < n
  access : b aml = 1 → aml + 2 < n
  returns : b aml ≠ 2 ∧ b aml ≠ 3
  named : b aml ≠ 0 → b aml ≠ 1 → NameFits b n nameStringSize aml ∧
    aml + (amlCopyName b aml).nameStringBytes +
      followingBytes b (aml + (amlCopyName b aml).nameStringBytes) < n

/-- An operation region, whose name starts at `aml`. -/
structure RegionFits (b : Buffer) (n aml : ℕ) : Prop where
  name : NameFits b n nameStringSize aml
  first : ∀ e, e = aml + (amlCopyName b aml).nameStringBytes + 1 → e + (expressionLength
    (b e)).getD 1 ≤ n
  second : ∀ e, e = aml + (amlCopyName b aml).nameStringBytes + 1 +
    amlReadExpression b (aml + (amlCopyName b aml).nameStringBytes + 1) 0 →
      e + (expressionLength (b e)).getD 1 ≤ n

/-- A field, whose package length starts at `aml`. -/
structure FieldFits (b : Buffer) (n aml : ℕ) : Prop where
  length : aml + followingBytes b aml < n
  name : NameFits b n nameStringSize (aml + (1 + followingBytes b aml))
  element : ElementFits b n (aml + ((1 + followingBytes b aml) +
    (amlCopyName b (aml + (1 + followingBytes b aml))).nameStringBytes + 1))

/-- A round of `AmlReadPackage` at `aml`. -/
structure PackageFits (b : Buffer) (n aml : ℕ) : Prop where
  inside : aml < n
  extended : b aml = amlExtendedOp → aml + 1 < n
  region : b aml = amlExtendedOp → b (aml + 1) = amlOperationRegionExop → RegionFits b n (aml + 2)
  field : b aml = amlExtendedOp → b (aml + 1) = amlFieldExop → FieldFits b n (aml + 2)

/-- A Scope at `i`: thirteen bytes behind its length are printed. -/
structure ScopeFits (b : Buffer) (n i : ℕ) : Prop where
  printed : i + 2 + followingBytes b (i + 1) + 12 < n
  name : NameFits b n defNameSize (i + 2 + followingBytes b (i + 1))
  length : i + 1 + pkgLengthValue b (i + 1) ≤ n →
    1 + followingBytes b (i + 1) ≤ pkgLengthValue b (i + 1)

/-- A Method at `i`: eleven bytes behind its length are printed. -/
structure MethodFits (b : Buffer) (n i : ℕ) : Prop where
  printed : i + 2 + followingBytes b (i + 1) + 10 < n
  length : n < i + 1 + pkgLengthValue b (i + 1)

structure TableFits (b : Buffer) (n i : ℕ) : Prop where
  aliasOp : b i = amlAliasOp → i + 8 < n
  nameOp : b i = amlNameOp → NameFits b n defNameSize (i + 1)
  scopeOp : b i = amlScopeOp → ScopeFits b n i
  methodOp : b i = amlMethodOp → MethodFits b n i

def Fits (b : Buffer) (n : ℕ) : Place → Prop
  | .table i => i < n → TableFits b n i
  | .package aml i packageLength _ => i < packageLength.toNat → PackageFits b n aml

/-- The cursor with which the loop of `AcpiReadDsdt` goes on. -/
def Place.cursor : Place → ℕ
  | .table i => i
  | .package _ _ _ next => next

def Skips (b : Buffer) (n : ℕ) : Place → Prop
  | .table i =>
    i < n → b i = amlScopeOp ∨ b i = amlMethodOp → i + 1 + pkgLengthValue b (i + 1) ≤ n →
      ∃ p, (round b n (.table i)).outcome = .goto p ∧ p.cursor = i + 1 + pkgLengthValue b (i + 1)
  | .package _ _ _ _ => True

/-- The walk ends, reads nothing behind the table, and skips the Scopes and Methods of the table. -/
structure WalksRight (b : Buffer) (n : ℕ) : Prop where
  terminates : ∃ k p, placeAfter b n k = some p ∧ (round b n p).outcome = .finished
  inside : ∀ k p, placeAfter b n k = some p → Inside n (round b n p).reads
  skips : ∀ k p, placeAfter b n k = some p → Skips b n p

variable {b : Buffer} {n aml i : ℕ}

theorem inside_nil : Inside n [] := fun _ h => absurd h List.not_mem_nil

theorem inside_cons {r : ℕ} {l : List ℕ} : Inside n (r :: l) ↔ r < n ∧ Inside n l :=
  List.forall_mem_cons

theorem inside_append {l m : List ℕ} : Inside n (l ++ m) ↔ Inside n l ∧ Inside n m :=
  List.forall_mem_append

theorem inside_range {k o : ℕ} (hk : 0 < k) :
    Inside n ((List.range k).map (o + ·)) ↔ o + k ≤ n := by
  constructor
  · intro h
    have hlast := h (o + (k - 1)) (List.mem_map_of_mem (List.mem_range.mpr (by omega)))
    omega
  · rintro h r hr
    obtain ⟨j, hj, rfl⟩ := List.mem_map.mp hr
    have hlt := List.mem_range.mp hj
    show o + j < n
    omega

theorem inside_pkgLengthReads {o : ℕ} :
    Inside n (pkgLengthReads b o) ↔ o + followingBytes b o < n := by
  rw [pkgLengthReads, inside_range (by omega)]
  omega

theorem expressionLength_pos (c : Byte) : 0 < (expressionLength c).getD 1 := by
  rw [expressionLength]
  split_ifs <;> decide

theorem inside_expressionReads {o : ℕ} :
    Inside n (expressionReads b o) ↔ o + (expressionLength (b o)).getD 1 ≤ n :=
  inside_range (expressionLength_pos _)

theorem Round.outcome_of {reads : List ℕ} {ends : Bool} {p : Place} :
    (Round.of reads ends p).outcome ≠ .stuck ↔ ends = true := by
  cases ends <;> simp [Round.of]

theorem nameFits_iff {size o : ℕ} : NameFits b n size o ↔
    Inside n (amlCopyName b o).reads ∧ (amlCopyName b o).written ≤ size :=
  ⟨fun h => ⟨h.inside, h.written⟩, fun h => ⟨h.1, h.2⟩⟩

theorem elementFits_iff : ElementFits b n aml ↔
    Inside n (amlParseFieldElement b aml).reads ∧ (amlParseFieldElement b aml).ends = true := by
  rw [amlParseFieldElement]
  by_cases h0 : b aml = 0
  · simp only [if_pos h0, inside_cons, inside_pkgLengthReads, and_true]
    refine ⟨fun h => ⟨h.inside, h.reserved h0⟩,
      fun h => ⟨h.1, fun _ => h.2, fun h1 => ?_, ?_, fun hne => ?_⟩⟩
    · rw [h0] at h1
      cases h1
    · rw [h0]
      decide
    · exact absurd h0 hne
  by_cases h1 : b aml = 1
  · simp only [if_neg h0, if_pos h1, inside_cons, and_true]
    refine ⟨fun h => ?_, fun h =>
      ⟨h.1, fun hz => absurd hz h0, fun _ => h.2.2.1, ?_, fun _ hne => ?_⟩⟩
    · have hlt := h.access h1
      exact ⟨h.inside, by omega, hlt, inside_nil⟩
    · rw [h1]
      decide
    · exact absurd h1 hne
  by_cases h3 : b aml = 3
  · simp only [if_neg h0, if_neg h1, if_pos h3]
    exact ⟨fun h => absurd h3 h.returns.2, fun h => absurd h.2 Bool.false_ne_true⟩
  by_cases h2 : b aml = 2
  · simp only [if_neg h0, if_neg h1, if_neg h3, if_pos h2]
    exact ⟨fun h => absurd h2 h.returns.1, fun h => absurd h.2 Bool.false_ne_true⟩
  simp only [if_neg h0, if_neg h1, if_neg h2, if_neg h3, inside_cons, inside_append,
    inside_pkgLengthReads, decide_eq_true_eq]
  constructor
  · intro h
    obtain ⟨hname, hlength⟩ := h.named h0 h1
    exact ⟨⟨h.inside, hname.inside, hlength⟩, hname.written⟩
  · rintro ⟨⟨hlt, hreads, hlength⟩, hwritten⟩
    exact ⟨hlt, fun hz => absurd hz h0, fun ho => absurd ho h1, ⟨h2, h3⟩,
      fun _ _ => ⟨⟨hreads, hwritten⟩, hlength⟩⟩

theorem regionFits_iff (i : ℕ) (packageLength : BitVec 32) (next : ℕ) : RegionFits b n aml ↔
    Inside n (regionRound b aml i packageLength next).reads ∧
      (regionRound b aml i packageLength next).outcome ≠ .stuck := by
  rw [regionRound, Round.outcome_of]
  simp only [Round.of, inside_append, inside_cons, inside_expressionReads, decide_eq_true_eq]
  constructor
  · intro h
    have hfirst := h.first _ rfl
    exact ⟨⟨⟨⟨h.name.inside, by omega, inside_nil⟩, hfirst⟩, h.second _ rfl⟩, h.name.written⟩
  · rintro ⟨⟨⟨⟨hreads, -⟩, hfirst⟩, hsecond⟩, hwritten⟩
    refine ⟨⟨hreads, hwritten⟩, ?_, ?_⟩
    · rintro e rfl
      exact hfirst
    · rintro e rfl
      exact hsecond

theorem fieldFits_iff (i : ℕ) (packageLength : BitVec 32) (next : ℕ) : FieldFits b n aml ↔
    Inside n (fieldRound b aml i packageLength next).reads ∧
      (fieldRound b aml i packageLength next).outcome ≠ .stuck := by
  rw [fieldRound]
  simp only [amlReadPkgLength, Round.outcome_of, Bool.and_eq_true]
  simp only [Round.of, inside_append, inside_cons, inside_pkgLengthReads]
  constructor
  · intro h
    obtain ⟨hreads, hends⟩ := elementFits_iff.mp h.element
    have hlt := h.element.inside
    exact ⟨⟨⟨⟨h.length, h.name.inside⟩, by omega, inside_nil⟩, hreads⟩,
      decide_eq_true h.name.written, hends⟩
  · rintro ⟨⟨⟨⟨hlength, hname⟩, -⟩, hreads⟩, hwritten, hends⟩
    exact ⟨hlength, ⟨hname, of_decide_eq_true hwritten⟩, elementFits_iff.mpr ⟨hreads, hends⟩⟩

theorem packageFits_iff (i : ℕ) (packageLength : BitVec 32) (next : ℕ) :
    (i < packageLength.toNat → PackageFits b n aml) ↔
      Inside n (packageRound b aml i packageLength next).reads ∧
        (packageRound b aml i packageLength next).outcome ≠ .stuck := by
  rw [packageRound]
  by_cases hi : i < packageLength.toNat
  · have hpre : (i < packageLength.toNat → PackageFits b n aml) ↔ PackageFits b n aml :=
      ⟨fun h => h hi, fun h _ => h⟩
    rw [hpre, if_pos hi]
    by_cases hext : b aml = amlExtendedOp
    · simp only [if_pos hext, inside_append, inside_cons]
      by_cases hregion : b (aml + 1) = amlOperationRegionExop
      · simp only [if_pos hregion]
        have hfield : b (aml + 1) ≠ amlFieldExop := by
          rw [hregion]
          decide
        have hiff := @regionFits_iff b n (aml + 2) (i + 2) packageLength next
        constructor
        · intro h
          obtain ⟨hreads, hends⟩ := hiff.mp (h.region hext hregion)
          exact ⟨⟨⟨h.inside, h.extended hext, inside_nil⟩, hreads⟩, hends⟩
        · rintro ⟨⟨⟨hlt, hlt', -⟩, hreads⟩, hends⟩
          exact ⟨hlt, fun _ => hlt', fun _ _ => hiff.mpr ⟨hreads, hends⟩,
            fun _ h => absurd h hfield⟩
      · simp only [if_neg hregion]
        by_cases hfield : b (aml + 1) = amlFieldExop
        · simp only [if_pos hfield]
          have hiff := @fieldFits_iff b n (aml + 2) (i + 2) packageLength next
          constructor
          · intro h
            obtain ⟨hreads, hends⟩ := hiff.mp (h.field hext hfield)
            exact ⟨⟨⟨h.inside, h.extended hext, inside_nil⟩, hreads⟩, hends⟩
          · rintro ⟨⟨⟨hlt, hlt', -⟩, hreads⟩, hends⟩
            exact ⟨hlt, fun _ => hlt', fun _ h => absurd h hregion,
              fun _ _ => hiff.mpr ⟨hreads, hends⟩⟩
        · simp only [if_neg hfield, Round.outcome_of]
          constructor
          · intro h
            exact ⟨⟨⟨h.inside, h.extended hext, inside_nil⟩, inside_nil⟩, trivial⟩
          · rintro ⟨⟨⟨hlt, hlt', -⟩, -⟩, -⟩
            exact ⟨hlt, fun _ => hlt', fun _ h => absurd h hregion, fun _ h => absurd h hfield⟩
    · simp only [if_neg hext]
      have hfits : PackageFits b n aml ↔ aml < n :=
        ⟨fun h => h.inside, fun h =>
          ⟨h, fun he => absurd he hext, fun he => absurd he hext, fun he => absurd he hext⟩⟩
      rw [hfits]
      by_cases hmethod : b aml = amlMethodOp
      · simp only [if_pos hmethod, Round.outcome_of, and_true]
        exact ⟨fun h => inside_cons.mpr ⟨h, inside_nil⟩, fun h => (inside_cons.mp h).1⟩
      · simp only [if_neg hmethod, Round.outcome_of, and_true]
        exact ⟨fun h => inside_cons.mpr ⟨h, inside_cons.mpr ⟨by omega, inside_nil⟩⟩,
          fun h => (inside_cons.mp h).1⟩
  · rw [if_neg hi, Round.outcome_of]
    exact ⟨fun _ => ⟨inside_nil, rfl⟩, fun _ h => absurd h hi⟩

theorem pkgLengthValue_eq (b : Buffer) (i : ℕ) :
    (amlReadPkgLength b (i + 1)).1.toNat = pkgLengthValue b (i + 1) :=
  (amlReadPkgLength_eq b (i + 1)).1

theorem sub_toNat (x : BitVec 32) (f k : ℕ) (hf : f + k < 2 ^ 32) :
    (x - BitVec.ofNat 32 f - BitVec.ofNat 32 k).toNat =
      if f + k ≤ x.toNat then x.toNat - (f + k) else x.toNat + 2 ^ 32 - (f + k) := by
  have hx := x.isLt
  rw [BitVec.toNat_sub, BitVec.toNat_sub, BitVec.toNat_ofNat, BitVec.toNat_ofNat]
  split_ifs <;> omega

theorem scopeNext_eq_iff (b : Buffer) (i : ℕ) : scopeNext b i = i + 1 + pkgLengthValue b (i + 1) ↔
    1 + followingBytes b (i + 1) ≤ pkgLengthValue b (i + 1) := by
  have hf := followingBytes_le b (i + 1)
  have hsub := sub_toNat (amlReadPkgLength b (i + 1)).1 (followingBytes b (i + 1)) 1 (by omega)
  rw [pkgLengthValue_eq] at hsub
  rw [scopeNext, scopePkgLength_eq]
  simp only [show (1 : BitVec 32) = BitVec.ofNat 32 1 from rfl, hsub]
  split_ifs <;> omega

theorem methodNext_ne (b : Buffer) (i : ℕ) : methodNext b i ≠ i + 1 + pkgLengthValue b (i + 1) := by
  have hf := followingBytes_le b (i + 1)
  have hsub := sub_toNat (amlReadPkgLength b (i + 1)).1 (followingBytes b (i + 1)) 2 (by omega)
  rw [pkgLengthValue_eq] at hsub
  rw [methodNext, methodPkgLength_eq]
  simp only [show (2 : BitVec 32) = BitVec.ofNat 32 2 from rfl, hsub]
  split_ifs <;> omega

theorem tableFits_of_alias (h : b i = amlAliasOp) : TableFits b n i ↔ i + 8 < n := by
  refine ⟨fun ht => ht.aliasOp h,
    fun hlt => ⟨fun _ => hlt, fun he => ?_, fun he => ?_, fun he => ?_⟩⟩
  all_goals exact absurd (h.symm.trans he) (by decide)

theorem tableFits_of_name (h : b i = amlNameOp) :
    TableFits b n i ↔ NameFits b n defNameSize (i + 1) := by
  refine ⟨fun ht => ht.nameOp h, fun hn => ⟨fun he => ?_, fun _ => hn, fun he => ?_, fun he => ?_⟩⟩
  all_goals exact absurd (h.symm.trans he) (by decide)

theorem tableFits_of_scope (h : b i = amlScopeOp) : TableFits b n i ↔ ScopeFits b n i := by
  refine ⟨fun ht => ht.scopeOp h, fun hs => ⟨fun he => ?_, fun he => ?_, fun _ => hs, fun he => ?_⟩⟩
  all_goals exact absurd (h.symm.trans he) (by decide)

theorem tableFits_of_method (h : b i = amlMethodOp) : TableFits b n i ↔ MethodFits b n i := by
  refine ⟨fun ht => ht.methodOp h,
    fun hm => ⟨fun he => ?_, fun he => ?_, fun he => ?_, fun _ => hm⟩⟩
  all_goals exact absurd (h.symm.trans he) (by decide)

theorem tableFits_iff (hi : i < n) : TableFits b n i ↔
    Inside n (tableRound b n i).reads ∧ (tableRound b n i).outcome ≠ .stuck ∧
    Skips b n (.table i) := by
  have hsize : ∀ p : Prop, (i < n → p) ↔ p := fun p => ⟨fun h => h hi, fun h _ => h⟩
  rw [Skips, hsize, round, tableRound, if_pos hi]
  by_cases halias : b i = amlAliasOp
  · rw [if_pos halias, Round.outcome_of, tableFits_of_alias halias]
    refine Iff.trans (inside_range (k := 9) (by decide)).symm
      ⟨fun h => ⟨h, rfl, fun hop => ?_⟩, fun h => h.1⟩
    exact absurd (halias ▸ hop) (by decide)
  rw [if_neg halias]
  by_cases hname : b i = amlNameOp
  · rw [if_pos hname, Round.outcome_of, tableFits_of_name hname, nameFits_iff, decide_eq_true_eq]
    refine ⟨fun h => ⟨inside_cons.mpr ⟨hi, h.1⟩, h.2, fun hop => ?_⟩,
      fun h => ⟨(inside_cons.mp h.1).2, h.2.1⟩⟩
    exact absurd (hname ▸ hop) (by decide)
  rw [if_neg hname]
  by_cases hscope : b i = amlScopeOp
  · rw [if_pos hscope, Round.outcome_of, tableFits_of_scope hscope, decide_eq_true_eq]
    simp only [Round.of, inside_cons, inside_append, inside_pkgLengthReads,
      inside_range (show 0 < 13 by decide)]
    constructor
    · intro h
      have hprinted := h.printed
      refine ⟨⟨hi, ⟨by omega, h.name.inside⟩, by omega⟩, h.name.written, fun _ hle => ?_⟩
      rw [if_pos (decide_eq_true h.name.written)]
      exact ⟨_, rfl, (scopeNext_eq_iff b i).mpr (h.length hle)⟩
    · rintro ⟨⟨-, ⟨-, hreads⟩, hprinted⟩, hwritten, hskips⟩
      refine ⟨by omega, ⟨hreads, hwritten⟩, fun hle => (scopeNext_eq_iff b i).mp ?_⟩
      obtain ⟨p, hp, hcursor⟩ := hskips (.inl hscope) hle
      rw [if_pos (decide_eq_true hwritten), Outcome.goto.injEq] at hp
      rw [← hp] at hcursor
      exact hcursor
  rw [if_neg hscope]
  by_cases hmethod : b i = amlMethodOp
  · rw [if_pos hmethod, Round.outcome_of, tableFits_of_method hmethod]
    simp only [Round.of, inside_cons, inside_append, inside_pkgLengthReads,
      inside_range (show 0 < 11 by decide), if_true, true_and]
    constructor
    · intro h
      have hprinted := h.printed
      have hlength := h.length
      exact ⟨⟨hi, by omega, by omega⟩, fun _ hle => absurd hle (by omega)⟩
    · rintro ⟨⟨-, -, hprinted⟩, hskips⟩
      refine ⟨by omega, ?_⟩
      by_contra hle
      obtain ⟨p, hp, hcursor⟩ := hskips (.inr hmethod) (by omega)
      rw [Outcome.goto.injEq] at hp
      rw [← hp] at hcursor
      exact methodNext_ne b i hcursor
  rw [if_neg hmethod, Round.outcome_of]
  have hfits : TableFits b n i :=
    ⟨fun h => absurd h halias, fun h => absurd h hname, fun h => absurd h hscope,
      fun h => absurd h hmethod⟩
  refine ⟨fun _ => ⟨inside_cons.mpr ⟨hi, inside_nil⟩, rfl, fun hop => ?_⟩, fun _ => hfits⟩
  exact absurd hop (not_or.mpr ⟨hscope, hmethod⟩)

theorem fits_iff (p : Place) : Fits b n p ↔
    Inside n (round b n p).reads ∧ (round b n p).outcome ≠ .stuck ∧ Skips b n p := by
  cases p with
  | table i =>
    by_cases hi : i < n
    · have hpre : Fits b n (.table i) ↔ TableFits b n i := ⟨fun h => h hi, fun h _ => h⟩
      rw [hpre]
      exact tableFits_iff hi
    · have hround : round b n (.table i) = ⟨[], .finished⟩ := by
        rw [round, tableRound, if_neg hi]
      rw [hround]
      refine ⟨fun _ => ⟨inside_nil, ?_, fun h => absurd h hi⟩, fun _ h => absurd h hi⟩
      exact Outcome.noConfusion
  | package aml i packageLength next =>
    rw [Fits, packageFits_iff i packageLength next, Skips, and_true]
    rfl

theorem Round.goto_of {reads : List ℕ} {ends : Bool} {p q : Place}
    (h : (Round.of reads ends p).outcome = .goto q) :
    q = p := by
  cases ends with
  | true => exact (Outcome.goto.inj h).symm
  | false => cases h

theorem fieldCounter_eq (i inc k : ℕ) (x : BitVec 32) (hi : i + inc + x.toNat < 2 ^ 63) :
    (BitVec.ofNat 64 (i + 2 + (inc + k + 1)) + (x.setWidth 64 - BitVec.ofNat 64 k - 2)).toNat =
      i + inc + 1 + x.toNat := by
  have hx := x.isLt
  have heq : BitVec.ofNat 64 (i + 2 + (inc + k + 1)) + (x.setWidth 64 - BitVec.ofNat 64 k - 2) =
      BitVec.ofNat 64 (i + inc + 1 + x.toNat) := by
    apply BitVec.eq_of_toNat_eq
    simp only [BitVec.toNat_add, BitVec.toNat_sub, BitVec.toNat_ofNat, BitVec.toNat_setWidth,
      show (2 : BitVec 64).toNat = 2 from rfl]
    omega
  rw [heq, BitVec.toNat_ofNat]
  omega

/-- A walk comes forward in the table, or else in the package in which it is. -/
def Place.weight (n : ℕ) : Place → ℕ ×ₗ ℕ
  | .table i => toLex (2 * (n - i), 0)
  | .package _ i packageLength next => toLex (2 * (n - next) + 1, packageLength.toNat - i)

theorem packageRound_weight (i : ℕ) (packageLength : BitVec 32) (next : ℕ) {q : Place}
    (h : (packageRound b aml i packageLength next).outcome = .goto q) :
    q.weight n < (Place.package aml i packageLength next).weight n := by
  have htable : (Place.table next).weight n < (Place.package aml i packageLength next).weight n :=
    Prod.Lex.toLex_lt_toLex.mpr (.inl (Nat.lt_succ_self _))
  rw [packageRound] at h
  by_cases hi : i < packageLength.toNat
  · have hstep : ∀ aml' i', i < i' →
        (Place.package aml' i' packageLength next).weight n <
        (Place.package aml i packageLength next).weight n :=
      fun aml' i' hlt => Prod.Lex.toLex_lt_toLex.mpr (.inr ⟨rfl, by omega⟩)
    rw [if_pos hi] at h
    by_cases hext : b aml = amlExtendedOp
    · rw [if_pos hext] at h
      simp only at h
      by_cases hregion : b (aml + 1) = amlOperationRegionExop
      · rw [if_pos hregion, regionRound] at h
        rw [Round.goto_of h]
        exact hstep _ _ (by omega)
      by_cases hfield : b (aml + 1) = amlFieldExop
      · rw [if_neg hregion, if_pos hfield, fieldRound] at h
        simp only [amlReadPkgLength] at h
        rw [Round.goto_of h]
        refine hstep _ _ ?_
        have hf := followingBytes_le b (aml + 2)
        have hlt := packageLength.isLt
        have hcounter := fieldCounter_eq i (1 + followingBytes b (aml + 2)) (amlCopyName b
          (aml + 2 + (1 + followingBytes b (aml + 2)))).nameStringBytes
          (amlReadPkgLength b (aml + 2)).1
          (by have := (amlReadPkgLength b (aml + 2)).1.isLt; omega)
        rw [amlReadPkgLength] at hcounter
        rw [hcounter]
        omega
      · rw [if_neg hregion, if_neg hfield] at h
        rw [Round.goto_of h]
        exact hstep _ _ (by omega)
    · rw [if_neg hext] at h
      split_ifs at h
      · rw [Round.goto_of h]
        exact htable
      · rw [Round.goto_of h]
        exact htable
  · rw [if_neg hi] at h
    rw [Round.goto_of h]
    exact htable

theorem tableRound_weight {q : Place} (h : (tableRound b n i).outcome = .goto q) :
    q.weight n < (Place.table i).weight n := by
  rw [tableRound] at h
  by_cases hi : i < n
  · have hstep : ∀ j, i < j → (Place.table j).weight n < (Place.table i).weight n :=
      fun j hj => Prod.Lex.toLex_lt_toLex.mpr (.inl (by omega))
    rw [if_pos hi] at h
    split_ifs at h
    · rw [Round.goto_of h]
      exact hstep _ (by omega)
    · rw [Round.goto_of h]
      exact hstep _ (by omega)
    · rw [Round.goto_of h]
      have hnext : i < scopeNext b i := by
        rw [scopeNext]
        omega
      exact Prod.Lex.toLex_lt_toLex.mpr (.inl (by omega))
    · rw [Round.goto_of h]
      refine hstep _ ?_
      rw [methodNext]
      omega
    · rw [Round.goto_of h]
      exact hstep _ (by omega)
  · rw [if_neg hi] at h
    cases h

theorem round_weight {p q : Place} (h : (round b n p).outcome = .goto q) :
    q.weight n < p.weight n := by
  cases p with
  | table i => exact tableRound_weight h
  | package aml i packageLength next => exact packageRound_weight i packageLength next h

theorem placeAfter_succ {k : ℕ} {p : Place} (h : placeAfter b n k = some p) :
    placeAfter b n (k + 1) = (round b n p).outcome.next := by
  rw [placeAfter, h, Option.bind_some]

theorem finishes (h : ∀ k p, placeAfter b n k = some p → (round b n p).outcome ≠ .stuck) {k : ℕ}
    {p : Place} (hp : placeAfter b n k = some p) :
    ∃ l q, placeAfter b n l = some q ∧ (round b n q).outcome = .finished := by
  induction hw : p.weight n using WellFoundedLT.induction generalizing k p with
  | ind w ih =>
    cases hr : (round b n p).outcome with
    | finished => exact ⟨k, p, hp, hr⟩
    | stuck => exact absurd hr (h k p hp)
    | goto q =>
      have hq : placeAfter b n (k + 1) = some q := by rw [placeAfter_succ hp, hr]; rfl
      exact ih (q.weight n) (hw ▸ round_weight hr) hq rfl

theorem placeAfter_none {k l : ℕ} {p : Place} (hp : placeAfter b n k = some p)
    (hr : (round b n p).outcome.next = none) (hkl : k < l) : placeAfter b n l = none := by
  induction l, hkl using Nat.le_induction with
  | base => rw [placeAfter_succ hp, hr]
  | succ l _ ih => rw [placeAfter, ih, Option.bind_none]

/-- A walk through a table is right exactly when every round meets the condition on the bytes at its
place. -/
theorem acpiReadDsdt_right_iff (b : Buffer) (n : ℕ) :
    WalksRight b n ↔ ∀ k p, placeAfter b n k = some p → Fits b n p := by
  constructor
  · intro h k p hp
    refine (fits_iff p).mpr ⟨h.inside k p hp, fun hstuck => ?_, h.skips k p hp⟩
    obtain ⟨l, q, hq, hfin⟩ := h.terminates
    rcases Nat.lt_trichotomy k l with hlt | rfl | hlt
    · have hnone := placeAfter_none hp (by rw [hstuck]; rfl) hlt
      rw [hq] at hnone
      cases hnone
    · rw [hp, Option.some.injEq] at hq
      rw [hq, hfin] at hstuck
      cases hstuck
    · have hnone := placeAfter_none hq (by rw [hfin]; rfl) hlt
      rw [hp] at hnone
      cases hnone
  · intro h
    have hall := fun k p hp => (fits_iff p).mp (h k p hp)
    exact ⟨finishes (fun k p hp => (hall k p hp).2.1) (k := 0) rfl, fun k p hp => (hall k p hp).1,
      fun k p hp => (hall k p hp).2.2⟩

/-- An empty Method with a name of one segment, at the start of a table of 32 bytes: the code comes
to the last byte of the Method. -/
theorem method_not_skipped : ∃ b : Buffer, pkgLengthValue b 1 = 6 ∧ tableRound b 32 0 =
    .of (0 :: 1 :: (List.range 11).map (2 + ·)) true (.table 6) ∧ ¬WalksRight b 32 := by
  let b : Buffer := fun i => ([0x14, 0x06, 0x41, 0x42, 0x43, 0x44, 0x00] : List Byte).getD i 0
  have hvalue : pkgLengthValue b 1 = 6 := by decide
  have hround : tableRound b 32 0 = .of (0 :: 1 :: (List.range 11).map (2 + ·)) true (.table 6) :=
    by decide
  refine ⟨b, hvalue, hround, fun h => ?_⟩
  obtain ⟨p, hp, hcursor⟩ :=
    h.skips 0 (.table 0) rfl (by decide) (.inr rfl) (by rw [hvalue]; decide)
  rw [round, hround] at hp
  rw [← Outcome.goto.inj hp, hvalue] at hcursor
  cases hcursor

end DevOs.Aml
