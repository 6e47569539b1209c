import DevOs.Fat32.Stored

/-!
# The round trip of a short name

The first half of `Fat32AllocateEntry` looks at eight characters of the base name and at three
characters behind them, and `SetupEntryShortFileName` takes as many characters as there are bytes. A
short name is read back as it is when these are all of its characters.
-/

namespace DevOs.Fat32

open Bytes

variable {e : Buffer} {f : ℕ → WChar} {name : Name} {stop : WChar → Bool} {n o i len : ℕ}
    {c : WChar}
  {lowercase : Bool} {r : CaseScan}

/-- The name and its zero are at the start of the array. -/
structure HoldsName (f : ℕ → WChar) (name : Name) : Prop where
  chars : ∀ i (h : i < name.length), f i = name[i]
  ended : f name.length = 0
  nonzero : ∀ c ∈ name, c ≠ 0

/-- A letter has the case of the flag, and the character is not a blank. -/
structure CaseOk (lowercase : Bool) (c : WChar) : Prop where
  blank : c ≠ 0x20
  upper : isUpper c = true → lowercase = false
  lower : isLower c = true → lowercase = true

theorem isLower_of_isUpper (h : isUpper c = true) : isLower c = false := by
  rw [isUpper, Bool.and_eq_true, decide_eq_true_eq, decide_eq_true_eq] at h
  rw [isLower, Bool.and_eq_false_iff, decide_eq_false_iff_not, decide_eq_false_iff_not]
  bv_omega

theorem CaseScan.see_lawSet (h : r.lawSet = true) (c : WChar) : r.see c = r := by
  rw [CaseScan.see, if_pos h]

theorem CaseScan.see_letter (h : isUpper c = true ∨ isLower c = true) :
    (r.see c).lawSet = true := by
  rw [CaseScan.see]
  split_ifs with h1 h2 h3
  · exact h1
  · rfl
  · rfl
  · exact absurd h (by simp [h2, h3])

theorem CaseScan.caseOk (h : r.breaks c = false) : CaseOk r.lowercase c := by
  rw [CaseScan.breaks, Bool.or_eq_false_iff, Bool.or_eq_false_iff, beq_eq_false_iff_ne] at h
  obtain ⟨⟨hblank, hupper⟩, hlower⟩ := h
  refine ⟨hblank, fun hc => ?_, fun hc => ?_⟩
  · rwa [hc, Bool.true_and] at hupper
  · rwa [hc, Bool.true_and, Bool.not_eq_false'] at hlower

theorem CaseOk.of_see (h : CaseOk (r.see c).lowercase c)
    (hset : (r.see c).lawSet = true → lowercase = (r.see c).lowercase) : CaseOk lowercase c :=
  ⟨h.blank, fun hc => (hset (CaseScan.see_letter (Or.inl hc))).trans (h.upper hc),
    fun hc => (hset (CaseScan.see_letter (Or.inr hc))).trans (h.lower hc)⟩

theorem CaseScan.see_lowercase (h : (r.see c).lowercase = true) :
    r.lowercase = true ∨ isLower c = true := by
  rw [CaseScan.see] at h
  split_ifs at h with h1 h2 h3
  · exact Or.inl h
  · exact Or.inr h2
  · exact Or.inl h
  · exact Or.inl h

@[simp] theorem CaseScan.see_long (r : CaseScan) (c : WChar) : (r.see c).long = r.long := by
  rw [CaseScan.see]
  split_ifs <;> rfl

theorem scanBase_lawSet (h : r.lawSet = true) (n i : ℕ) :
    (scanBase f n i r).1.lowercase = r.lowercase := by
  induction n generalizing i with
  | zero => rfl
  | succ n ih =>
    rw [scanBase, CaseScan.see_lawSet h]
    split_ifs
    · rfl
    · rfl
    · exact ih (i + 1)

theorem scanExtension_lawSet (h : r.lawSet = true) (n i : ℕ) :
    (scanExtension f n i r).lowercase = r.lowercase := by
  induction n generalizing i with
  | zero => rfl
  | succ n ih =>
    rw [scanExtension, CaseScan.see_lawSet h]
    split_ifs
    · rfl
    · exact ih (i + 1)

theorem scanBase_ok (hlong : (scanBase f n i r).1.long = false) {m : ℕ} (hm : m ≤ n)
    (hdot : ∀ k < m, f (i + k) ≠ 0x2E) :
    (∀ k < m, CaseOk (scanBase f n i r).1.lowercase (f (i + k))) ∧
      (m < n → f (i + m) = 0x2E → (scanBase f n i r).2 = i + m + 1) ∧
      (m = n → (scanBase f n i r).2 = i + m) := by
  induction n generalizing i r m with
  | zero => exact ⟨fun k hk => by omega, fun h => by omega, fun h => by rw [h]; rfl⟩
  | succ n ih =>
    cases m with
    | zero =>
      refine ⟨fun k hk => by omega, fun _ h => ?_, fun h => by omega⟩
      rw [scanBase, if_pos (show f i = 0x2E from h)]
    | succ m =>
      have h0 : f i ≠ 0x2E := hdot 0 (Nat.succ_pos m)
      rw [scanBase] at hlong ⊢
      rw [if_neg h0] at hlong ⊢
      by_cases hb : (r.see (f i)).breaks (f i) = true
      · rw [if_pos hb] at hlong
        cases hlong
      · rw [if_neg hb] at hlong ⊢
        obtain ⟨hok, hend, hall⟩ := ih hlong (Nat.le_of_succ_le_succ hm) fun k hk => by
          rw [Nat.add_assoc, Nat.add_comm 1 k]
          exact hdot (k + 1) (by omega)
        refine ⟨fun k hk => ?_, fun hlt hf => ?_, fun heq => ?_⟩
        · cases k with
          | zero =>
            exact (CaseScan.caseOk (Bool.not_eq_true _ ▸ hb)).of_see fun hset =>
              scanBase_lawSet hset n (i + 1)
          | succ k =>
            have hk' := hok k (by omega)
            rwa [Nat.add_assoc, Nat.add_comm 1 k] at hk'
        · rw [hend (by omega) (by rwa [Nat.add_assoc, Nat.add_comm 1 m])]
          omega
        · rw [hall (by omega)]
          omega

theorem scanExtension_ok (hlong : (scanExtension f n i r).long = false) {k : ℕ} (hk : k < n) :
    CaseOk (scanExtension f n i r).lowercase (f (i + k)) := by
  induction n generalizing i r k with
  | zero => omega
  | succ n ih =>
    rw [scanExtension] at hlong ⊢
    by_cases hb : (r.see (f i)).breaks (f i) = true
    · rw [if_pos hb] at hlong
      cases hlong
    · rw [if_neg hb] at hlong ⊢
      cases k with
      | zero =>
        exact (CaseScan.caseOk (Bool.not_eq_true _ ▸ hb)).of_see fun hset =>
          scanExtension_lawSet hset n (i + 1)
      | succ k =>
        have hk' := ih hlong (Nat.lt_of_succ_lt_succ hk)
        rwa [Nat.add_assoc, Nat.add_comm 1 k] at hk'

theorem scanExtension_lowercase (h : (scanExtension f n i r).lowercase = true) :
    r.lowercase = true ∨ ∃ k < n, isLower (f (i + k)) = true := by
  induction n generalizing i r with
  | zero => exact Or.inl h
  | succ n ih =>
    have hsee (h : (r.see (f i)).lowercase = true) :
        r.lowercase = true ∨ ∃ k < n + 1, isLower (f (i + k)) = true :=
      (CaseScan.see_lowercase h).imp_right fun hl => ⟨0, Nat.succ_pos n, hl⟩
    rw [scanExtension] at h
    split_ifs at h
    · exact hsee h
    · rcases ih h with h | ⟨k, hk, hl⟩
      · exact hsee h
      · exact Or.inr ⟨k + 1, by omega, by rwa [← Nat.add_assoc, Nat.add_right_comm]⟩

theorem findExtension_dot {x : Bool} (h : (findExtension f len n i x).2 = false) {k : ℕ}
    (hk : k < n) (hused : ∀ j < k, f (i + j) ≠ 0) (hdot : f (i + k) = 0x2E) :
    (len - (i + k + 1)) % 2 ^ 8 ≤ 3 := by
  induction n generalizing i k x with
  | zero => omega
  | succ n ih =>
    have hstep (x : Bool) (k : ℕ) (hk : k < n) (hused : ∀ j < k + 1, f (i + j) ≠ 0)
        (hdot : f (i + (k + 1)) = 0x2E) (h : (findExtension f len n (i + 1) x).2 = false) :
        (len - (i + (k + 1) + 1)) % 2 ^ 8 ≤ 3 := by
      have := ih h hk (fun j hj => by
        rw [Nat.add_assoc, Nat.add_comm 1 j]
        exact hused (j + 1) (by omega)) (by rwa [Nat.add_assoc, Nat.add_comm 1 k])
      rwa [Nat.add_assoc i 1 k, Nat.add_comm 1 k] at this
    rw [findExtension] at h
    cases k with
    | zero =>
      rw [if_neg (by rw [show f i = 0x2E from hdot]; decide),
        if_pos (show f i = 0x2E from hdot)] at h
      split_ifs at h with hlen
      exact Nat.le_of_not_lt hlen
    | succ k =>
      rw [if_neg (show ¬ f i = 0 from hused 0 (Nat.succ_pos k))] at h
      split_ifs at h
      · exact hstep _ _ (by omega) hused hdot h
      · exact hstep _ _ (by omega) hused hdot h

def takenChars (stop : WChar → Bool) (n : ℕ) (name : Name) : Name :=
  (name.take n).takeWhile fun c => !stop c

theorem sfnBytes_eq (stop : WChar → Bool) (n o : ℕ) (name : Name) (e : Buffer) :
    ((List.range n).map fun i => (sfnBytes stop n o name e).1 (o + i)) =
        (takenChars stop n name).map upperByte ++ List.replicate
          (n - (takenChars stop n name).length) 0x20 ∧
      (sfnBytes stop n o name e).2 = (name.drop (takenChars stop n name).length,
        (takenChars stop n name).length) := by
  induction n generalizing o name e with
  | zero => exact ⟨rfl, rfl⟩
  | succ n ih =>
    have hrange (name : Name) (e : Buffer) (v : Byte) :
        ((List.range (n + 1)).map fun i => (sfnBytes stop n (o + 1) name (setLE e o 1 v.toNat)).1
        (o + i)) =
          v :: (List.range n).map fun i => (sfnBytes stop n (o + 1) name (setLE e o 1 v.toNat)).1
          (o + 1 + i) := by
      have hfirst : (sfnBytes stop n (o + 1) name (setLE e o 1 v.toNat)).1 (o + 0) = v := by
        rw [sfnBytes_of_disjoint _ _ _ (Or.inl (show o + 0 < o + 1 by omega)), setLE_byte,
          if_pos (Nat.add_zero o)]
      rw [List.range_succ_eq_map, List.map_cons, List.map_map, hfirst]
      congr 1
      exact List.map_congr_left fun i _ => by
        rw [Function.comp_apply, Nat.add_assoc, Nat.add_comm 1 i]
    cases name with
    | nil =>
      obtain ⟨hbytes, hrest⟩ := ih (o + 1) [] (setLE e o 1 0x20)
      rw [sfnBytes]
      refine ⟨?_, ?_⟩
      · rw [show (0x20 : ℕ) = (0x20 : Byte).toNat from rfl, hrange]
        rw [show (0x20 : ℕ) = (0x20 : Byte).toNat from rfl] at hbytes
        rw [hbytes]
        simp [takenChars, List.replicate_succ]
      · rw [hrest]
        simp [takenChars]
    | cons c cs =>
      rw [sfnBytes]
      by_cases hstop : stop c = true
      · obtain ⟨hbytes, hrest⟩ := ih (o + 1) (c :: cs) (setLE e o 1 0x20)
        have hnone (n : ℕ) : takenChars stop n (c :: cs) = [] := by
          cases n with
          | zero => rfl
          | succ n => rw [takenChars, List.take_succ_cons, List.takeWhile_cons, hstop]; rfl
        rw [if_pos hstop]
        rw [hnone] at hbytes hrest ⊢
        refine ⟨?_, ?_⟩
        · rw [show (0x20 : ℕ) = (0x20 : Byte).toNat from rfl, hrange]
          rw [show (0x20 : ℕ) = (0x20 : Byte).toNat from rfl] at hbytes
          rw [hbytes]
          simp [List.replicate_succ]
        · rw [hrest]
      · obtain ⟨hbytes, hrest⟩ := ih (o + 1) cs (setLE e o 1 (upperByte c).toNat)
        have hcons : takenChars stop (n + 1) (c :: cs) = c :: takenChars stop n cs := by
          rw [takenChars, List.take_succ_cons, List.takeWhile_cons,
            (Bool.not_eq_true (stop c)).mp hstop]
          rfl
        rw [if_neg hstop, hcons]
        dsimp only
        refine ⟨?_, ?_⟩
        · rw [hrange, hbytes, List.length_cons, Nat.add_sub_add_right]
          rfl
        · rw [congrArg Prod.fst hrest, congrArg Prod.snd hrest]
          rfl

/-- A character is read back in its case when it is a byte and the flag is right. -/
theorem sfnChar_upperByte : sfnChar lowercase (upperByte c) = c ↔
    c < 0x100 ∧ (isUpper c = true → lowercase = false) ∧ (isLower c = true → lowercase = true) := by
  rw [sfnChar, upperByte, isUpper, isLower]
  simp only [Bool.and_eq_true, decide_eq_true_eq]
  cases lowercase <;>
    simp only [Bool.false_eq_true, Bool.true_eq_false, not_false_eq_true, not_true_eq_false,
      true_and, false_and, if_false, imp_false, implies_true, and_true] <;>
    split_ifs <;> bv_omega

theorem sfnChar_dot : sfnChar lowercase 0x2E = 0x2E := by cases lowercase <;> rfl

theorem sfnChar_ne_zero {b : Byte} (h : 0x20 < b) : sfnChar lowercase b ≠ 0 := by
  rw [sfnChar]
  split_ifs <;> bv_omega

theorem sfnChar_lt (b : Byte) : sfnChar lowercase b < 0x100 := by
  rw [sfnChar]
  split_ifs <;> bv_omega

theorem upperByte_gt (h : 0x20 < c) (hc : c < 0x100) : 0x20 < upperByte c := by
  rw [upperByte]
  split_ifs <;> bv_omega

theorem rdropWhile_blanks {bs : List Byte} (h : ∀ a ∈ bs, 0x20 < a) (n : ℕ) :
    (bs ++ List.replicate n 0x20).rdropWhile (fun a => a ≤ 0x20) = bs := by
  induction n with
  | zero =>
    rw [List.replicate_zero, List.append_nil, List.rdropWhile_eq_self_iff]
    intro hbs hlast
    have := h _ (List.getLast_mem hbs)
    simp only [decide_eq_true_eq] at hlast
    bv_omega
  | succ n ih =>
    rw [List.replicate_succ', ← List.append_assoc, List.rdropWhile_concat_pos _ _ _ (by decide), ih]

theorem takeWhile_blanks (bs : List Byte) (n : ℕ) :
    (bs ++ List.replicate n 0x20).takeWhile (fun a => 0x20 < a) = bs.takeWhile fun a => 0x20 <
      a := by
  induction bs with
  | nil =>
    cases n with
    | zero => rfl
    | succ n => rfl
  | cons a bs ih => rw [List.cons_append, List.takeWhile_cons, List.takeWhile_cons, ih]

theorem map_setLE (b : Buffer) (o : ℕ) (v : Byte) (n : ℕ) :
    (List.range n).map (setLE b o 1 v.toNat) = ((List.range n).map b).set o v := by
  refine List.ext_getElem (by simp) fun k hk hk' => ?_
  rw [List.getElem_map, List.getElem_range, setLE_byte, List.getElem_set, List.getElem_map,
    List.getElem_range]
  simp only [eq_comm]

theorem set_blanks (bs : List Byte) (v : Byte) {n : ℕ} (hn : 0 < n) :
    (bs ++ List.replicate n 0x20).set bs.length v = (bs ++ [v]) ++ List.replicate (n - 1) 0x20 := by
  obtain ⟨m, rfl⟩ := Nat.exists_eq_succ_of_ne_zero (Nat.ne_of_gt hn)
  rw [List.set_append_right _ _ (Nat.le_refl _), Nat.sub_self, List.replicate_succ,
    List.set_cons_zero, List.append_assoc]
  rfl

theorem parseSfnEntry_eq {base : List Byte} (hbase : sfnBase e = base)
    (hgt : ∀ a ∈ base, 0x20 < a) :
    parseSfnEntry e = base.map (sfnChar (e 12 &&& 8 != 0)) ++
      if sfnExtension e = [] then []
        else 0x2E :: (sfnExtension e).map (sfnChar (e 12 &&& 16 != 0)) := by
  have hfirst : 0x20 < e 8 ↔ sfnExtension e ≠ [] := by
    rw [sfnExtension, List.range_succ_eq_map, List.map_cons, List.takeWhile_cons]
    by_cases h : 0x20 < e (8 + 0)
    · rw [decide_eq_true h]
      exact ⟨fun _ => List.cons_ne_nil _ _, fun _ => h⟩
    · rw [decide_eq_false h]
      exact ⟨fun h' => absurd h' h, fun h' => absurd rfl h'⟩
  have hext (a : Byte) (ha : a ∈ sfnExtension e) : 0x20 < a := by
    simpa using List.mem_takeWhile_imp ha
  have hself : ∀ d ∈ base.map (sfnChar (e 12 &&& 8 != 0)) ++
      (if sfnExtension e = [] then []
      else 0x2E :: (sfnExtension e).map (sfnChar (e 12 &&& 16 != 0))),
      decide (d ≠ 0) = true := by
    intro d hd
    rw [decide_eq_true_eq]
    rcases List.mem_append.mp hd with hd | hd
    · obtain ⟨a, ha, rfl⟩ := List.mem_map.mp hd
      exact sfnChar_ne_zero (hgt a ha)
    · split_ifs at hd
      · cases hd
      · rcases List.mem_cons.mp hd with rfl | hd
        · decide
        · obtain ⟨a, ha, rfl⟩ := List.mem_map.mp hd
          exact sfnChar_ne_zero (hext a ha)
  rw [parseSfnEntry, hbase]
  by_cases h : sfnExtension e = []
  · rw [if_neg (by rw [hfirst]; exact fun h' => h' h)]
    rw [if_pos h] at hself ⊢
    exact List.takeWhile_eq_self_iff.mpr hself
  · rw [if_pos (hfirst.mpr h)]
    rw [if_neg h] at hself ⊢
    exact List.takeWhile_eq_self_iff.mpr hself

def sfnStem (name : Name) : Name := takenChars (fun c => c < 0x20 || c == 0x2E) 8 name

def sfnRest (name : Name) : Name := name.drop (sfnStem name).length

theorem sfnStem_initial : sfnStem name <+: name :=
  (List.takeWhile_prefix _).trans (List.take_prefix _ _)

theorem sfnStem_append_sfnRest (name : Name) : sfnStem name ++ sfnRest name = name := by
  have hsplit := List.take_append_drop (sfnStem name).length name
  rwa [← List.prefix_iff_eq_take.mp sfnStem_initial] at hsplit

theorem length_sfnStem_le (name : Name) : (sfnStem name).length ≤ 8 :=
  (List.takeWhile_prefix _).length_le.trans (List.length_take_le 8 name)

theorem mem_sfnStem (h : c ∈ sfnStem name) : 0x20 ≤ c ∧ c ≠ 0x2E := by
  have hc := List.mem_takeWhile_imp h
  rw [Bool.not_eq_true', Bool.or_eq_false_iff, decide_eq_false_iff_not, beq_eq_false_iff_ne] at hc
  exact ⟨by bv_omega, hc.2⟩

def sfnFirst (e : Buffer) (name : Name) : Buffer :=
  (sfnBytes (fun c => c < 0x20 || c == 0x2E) 8 0 name e).1

theorem sfnFirst_bytes (e : Buffer) (name : Name) : (List.range 8).map (sfnFirst e name) =
    (sfnStem name).map upperByte ++ List.replicate (8 - (sfnStem name).length) 0x20 := by
  have h := (sfnBytes_eq (fun c => c < 0x20 || c == 0x2E) 8 0 name e).1
  simp only [Nat.zero_add] at h
  exact h

theorem sfnFirst_of_le {k : ℕ} (hk : 8 ≤ k) : sfnFirst e name k = e k :=
  sfnBytes_of_disjoint _ _ _ (Or.inr hk)

theorem setupEntry_eq (e : Buffer) (name : Name) : setupEntryShortFileName e name =
    if (sfnRest name).head? = some 0x2E then
      if (sfnRest name).tail = [] then setLE (sfnFirst e name) (sfnStem name).length 1 0x2E
      else (sfnBytes (· < 0x20) 3 8 (sfnRest name).tail (sfnFirst e name)).1
    else setBytes (sfnFirst e name) 8 [0x20, 0x20, 0x20] := by
  have h := (sfnBytes_eq (fun c => c < 0x20 || c == 0x2E) 8 0 name e).2
  rw [setupEntryShortFileName, sfnFirst]
  rcases hr : sfnBytes (fun c => c < 0x20 || c == 0x2E) 8 0 name e with ⟨e', rest, taken⟩
  rw [hr] at h
  cases h
  rfl

theorem sfnBase_eq {e' : Buffer} (h : ∀ k < 8, e k = e' k) :
    sfnBase e = ((List.range 8).map e').rdropWhile fun a => a ≤ 0x20 := by
  rw [sfnBase, List.map_congr_left fun k hk => h k (List.mem_range.mp hk)]

def readExtension (flags : SfnFlags) (ext : Name) : Name :=
  (((takenChars (· < 0x20) 3 ext).map upperByte).takeWhile (fun a => 0x20 < a)).map
    (sfnChar flags.extensionLowercase)

section Entry

variable {attributes : Byte} {flags : SfnFlags}

theorem setSfnEntry_of_lt {k : ℕ} (hk : k < 11) : setSfnEntry (fun _ => 0) name attributes flags k =
    setupEntryShortFileName (fun _ => 0) name k := by
  rw [setSfnEntry]
  split_ifs <;>
    simp only [setLE_of_not_mem _ (show k < 12 ∨ 12 + 1 ≤ k by omega),
      setLE_of_not_mem _ (show k < 11 ∨ 11 + 1 ≤ k by omega)]

theorem setSfnEntry_flags :
    (setSfnEntry (fun _ => 0) name attributes flags 12 &&& 8 != 0) = flags.nameLowercase ∧
      (setSfnEntry (fun _ => 0) name attributes flags 12 &&& 16 != 0) =
        flags.extensionLowercase := by
  have hzero : setLE (setupEntryShortFileName (fun _ => 0) name) 11 1 attributes.toNat 12 = 0 := by
    rw [setLE_of_not_mem _ (by decide), setupEntryShortFileName_of_le _ _ (by decide)]
  have hset (b : Buffer) (v : Byte) : setLE b 12 1 v.toNat 12 = v := by rw [setLE_byte, if_pos rfl]
  have hset8 (b : Buffer) : setLE b 12 1 8 12 = 8 := hset b 8
  obtain ⟨lower, extLower⟩ := flags
  rw [setSfnEntry]
  cases lower <;> cases extLower <;>
    simp only [if_true, if_false, Bool.false_eq_true, hset, hset8, hzero] <;> exact ⟨rfl, rfl⟩

def readRest (flags : SfnFlags) (name : Name) : Name :=
  if (sfnRest name).head? = some 0x2E then
    if (sfnRest name).tail = [] then if (sfnStem name).length = 8 then [0x2E, 0x2E] else [0x2E]
    else if readExtension flags (sfnRest name).tail = [] then []
    else 0x2E :: readExtension flags (sfnRest name).tail
  else []

theorem parseSfnEntry_setSfnEntry
    (hstem : ∀ c ∈ sfnStem name, 0x20 < c ∧ c < 0x100 ∧ CaseOk flags.nameLowercase c) :
    parseSfnEntry (setSfnEntry (fun _ => 0) name attributes flags) = sfnStem name ++
      readRest flags name := by
  have hgt : ∀ a ∈ (sfnStem name).map upperByte, 0x20 < a := by
    intro a ha
    obtain ⟨c, hc, rfl⟩ := List.mem_map.mp ha
    exact upperByte_gt (hstem c hc).1 (hstem c hc).2.1
  have hself : ((sfnStem name).map upperByte).map (sfnChar flags.nameLowercase) = sfnStem name := by
    rw [List.map_map]
    refine (List.map_congr_left fun c hc => ?_).trans (List.map_id _)
    exact sfnChar_upperByte.mpr ⟨(hstem c hc).2.1, (hstem c hc).2.2.upper, (hstem c hc).2.2.lower⟩
  have hbase (h : ∀ k < 8, setupEntryShortFileName (fun _ => 0) name k =
    sfnFirst (fun _ => 0) name k) :
      sfnBase (setSfnEntry (fun _ => 0) name attributes flags) = (sfnStem name).map upperByte := by
    rw [sfnBase_eq fun k hk => (setSfnEntry_of_lt (by omega)).trans (h k hk), sfnFirst_bytes,
      rdropWhile_blanks hgt]
  have hext : sfnExtension (setSfnEntry (fun _ => 0) name attributes flags) =
      ((List.range 3).map fun k => setupEntryShortFileName (fun _ => 0) name (8 + k)).takeWhile
        fun a => 0x20 < a := by
    rw [sfnExtension, List.map_congr_left fun k hk => setSfnEntry_of_lt (by
      have := List.mem_range.mp hk; omega)]
  have hsetup := setupEntry_eq (fun _ => 0) name
  rw [readRest]
  by_cases hdot : (sfnRest name).head? = some 0x2E
  · rw [if_pos hdot] at hsetup ⊢
    by_cases hend : (sfnRest name).tail = []
    · rw [if_pos hend] at hsetup ⊢
      have hhigh (k : ℕ) (hk : 8 ≤ k) : sfnFirst (fun _ => 0) name k = 0 := sfnFirst_of_le hk
      split_ifs with hlen
      · rw [hlen] at hsetup
        have hlow (k : ℕ) (hk : k < 8) :
            setupEntryShortFileName (fun _ => 0) name k = sfnFirst (fun _ => 0) name k := by
          rw [hsetup, setLE_of_not_mem _ (Or.inl hk)]
        have hdots : sfnExtension (setSfnEntry (fun _ => 0) name attributes flags) = [0x2E] := by
          have hnext : setLE (sfnFirst (fun _ => 0) name) 8 1 0x2E 9 = 0 := by
            rw [setLE_of_not_mem _ (by decide), hhigh 9 (by decide)]
          have hfirst : setLE (sfnFirst (fun _ => 0) name) 8 1 0x2E 8 = 0x2E := rfl
          rw [hext, hsetup]
          change List.takeWhile _ [setLE _ 8 1 0x2E 8, setLE _ 8 1 0x2E 9, setLE _ 8 1 0x2E 10] = _
          rw [hfirst, hnext]
          rfl
        rw [parseSfnEntry_eq (hbase hlow) hgt, setSfnEntry_flags.1, hself, hdots,
          if_neg (List.cons_ne_nil _ _), List.map_singleton, sfnChar_dot]
      · have hlt : (sfnStem name).length < 8 := Nat.lt_of_le_of_ne (length_sfnStem_le name) hlen
        have hnone : sfnExtension (setSfnEntry (fun _ => 0) name attributes flags) = [] := by
          rw [hext, hsetup, List.range_succ_eq_map, List.map_cons, List.takeWhile_cons_of_neg]
          rw [setLE_of_not_mem _ (Or.inr (by omega)), hhigh 8 (by decide)]
          decide
        have hgt' : ∀ a ∈ (sfnStem name).map upperByte ++ [0x2E], 0x20 < a := by
          intro a ha
          rcases List.mem_append.mp ha with ha | ha
          · exact hgt a ha
          · rw [List.mem_singleton.mp ha]
            decide
        have hdotted : sfnBase (setSfnEntry (fun _ => 0) name attributes flags) =
            (sfnStem name).map upperByte ++ [0x2E] := by
          rw [sfnBase_eq fun k hk => setSfnEntry_of_lt (by omega), hsetup,
            show setLE (sfnFirst (fun _ => 0) name) (sfnStem name).length 1 0x2E =
              setLE (sfnFirst (fun _ => 0) name) ((sfnStem name).map upperByte).length 1
              (0x2E : Byte).toNat by
              rw [List.length_map]; rfl, map_setLE, sfnFirst_bytes, set_blanks _ _ (by omega),
            rdropWhile_blanks hgt']
        rw [parseSfnEntry_eq hdotted hgt', setSfnEntry_flags.1, hnone, if_pos rfl,
          List.map_append, hself, List.append_nil]
        rw [List.map_singleton, sfnChar_dot]
    · rw [if_neg hend] at hsetup ⊢
      have hlow (k : ℕ) (hk : k < 8) :
          setupEntryShortFileName (fun _ => 0) name k = sfnFirst (fun _ => 0) name k := by
        rw [hsetup, sfnBytes_of_disjoint _ _ _ (Or.inl hk)]
      rw [hsetup, (sfnBytes_eq (· < 0x20) 3 8 (sfnRest name).tail _).1, takeWhile_blanks] at hext
      rw [parseSfnEntry_eq (hbase hlow) hgt, setSfnEntry_flags.1, setSfnEntry_flags.2, hself, hext]
      simp only [readExtension, List.map_eq_nil_iff]
  · rw [if_neg hdot] at hsetup ⊢
    have hlow (k : ℕ) (hk : k < 8) :
        setupEntryShortFileName (fun _ => 0) name k = sfnFirst (fun _ => 0) name k := by
      rw [hsetup, setBytes_of_lt hk]
    have hnone : sfnExtension (setSfnEntry (fun _ => 0) name attributes flags) = [] := by
      rw [hext, hsetup]
      rfl
    rw [parseSfnEntry_eq (hbase hlow) hgt, setSfnEntry_flags.1, hself, hnone, if_pos rfl]

end Entry

theorem parseSfnEntry_lt (e : Buffer) : ∀ c ∈ parseSfnEntry e, c < 0x100 := by
  intro c hc
  rw [parseSfnEntry] at hc
  rcases List.mem_append.mp ((List.takeWhile_prefix _).subset hc) with hc | hc
  · obtain ⟨a, -, rfl⟩ := List.mem_map.mp hc
    exact sfnChar_lt a
  · split_ifs at hc
    · rcases List.mem_cons.mp hc with rfl | hc
      · decide
      · obtain ⟨a, -, rfl⟩ := List.mem_map.mp hc
        exact sfnChar_lt a
    · cases hc

theorem readExtension_iff {flags : SfnFlags} {ext : Name} : readExtension flags ext = ext ↔
    ext.length ≤ 3 ∧ ∀ c ∈ ext, 0x20 < c ∧ sfnChar flags.extensionLowercase (upperByte c) = c := by
  rw [readExtension, List.takeWhile_map, List.map_map, takenChars]
  constructor
  · intro h
    have hprefix : ((ext.take 3).takeWhile fun c => !decide (c < 0x20)).takeWhile
        ((fun a => decide (0x20 < a)) ∘ upperByte) <+: ext :=
      ((List.takeWhile_prefix _).trans (List.takeWhile_prefix _)).trans (List.take_prefix _ _)
    have hlength := congrArg List.length h
    rw [List.length_map] at hlength
    have hall := hprefix.eq_of_length hlength
    have hlen : ext.length ≤ 3 := by
      rw [← hall]
      exact ((List.takeWhile_prefix _).trans (List.takeWhile_prefix _)).length_le.trans
        (List.length_take_le _ _)
    refine ⟨hlen, fun c hc => ?_⟩
    have hself := h
    rw [hall] at hself
    refine ⟨?_, List.map_inj_left.mp (hself.trans (List.map_id _).symm) c hc⟩
    rw [← hall] at hc
    have hbyte := List.mem_takeWhile_imp hc
    have hchar := List.mem_takeWhile_imp ((List.takeWhile_prefix _).subset hc)
    simp only [Function.comp_apply, decide_eq_true_eq, Bool.not_eq_true',
      decide_eq_false_iff_not] at hbyte hchar
    have hne : c ≠ 0x20 := by
      rintro rfl
      exact absurd hbyte (by decide)
    bv_omega
  · rintro ⟨hlen, hok⟩
    have hchar : ∀ c ∈ ext, (!decide (c < 0x20)) = true := by
      intro c hc
      have := (hok c hc).1
      simp only [Bool.not_eq_true', decide_eq_false_iff_not]
      bv_omega
    have hbyte : ∀ c ∈ ext, ((fun a => decide (0x20 < a)) ∘ upperByte) c = true := by
      intro c hc
      have hlt := (sfnChar_upperByte.mp (hok c hc).2).1
      exact decide_eq_true (upperByte_gt (hok c hc).1 hlt)
    rw [List.take_of_length_le hlen, List.takeWhile_eq_self_iff.mpr hchar,
      List.takeWhile_eq_self_iff.mpr hbyte]
    exact (List.map_congr_left fun c hc => (hok c hc).2).trans (List.map_id _)

theorem HoldsName.get (hf : HoldsName f name) {k : ℕ} (h : name[k]? = some c) : f k = c := by
  obtain ⟨hk, rfl⟩ := List.getElem?_eq_some_iff.mp h
  exact hf.chars k hk

theorem getElem?_sfnStem {k : ℕ} (h : k < (sfnStem name).length) :
    name[k]? = some (sfnStem name)[k] := by
  have happend : (sfnStem name ++ sfnRest name)[k]? = (sfnStem name)[k]? :=
    List.getElem?_append_left h
  rwa [sfnStem_append_sfnRest, List.getElem?_eq_getElem h] at happend

theorem getElem?_sfnRest (name : Name) (k : ℕ) :
    name[(sfnStem name).length + k]? = (sfnRest name)[k]? := by
  rw [sfnRest, List.getElem?_drop]

section Short

variable (hf : HoldsName f name) (hname : name ≠ []) (hshort : (classifyName f name.length).1 = 0)

include hname hshort

theorem classifyName_short : name.length ≤ 12 ∧ (findExtension f name.length 10 0 false).2 = false ∧
    (scanBase f 8 0 ⟨false, false, false⟩).1.long = false ∧
    (scanExtension f 3 (scanBase f 8 0 ⟨false, false, false⟩).2 ⟨false, false, false⟩).long =
      false ∧
    (classifyName f name.length).2 = ⟨(scanBase f 8 0 ⟨false, false, false⟩).1.lowercase,
      (scanExtension f 3 (scanBase f 8 0 ⟨false, false, false⟩).2
        ⟨false, false, false⟩).lowercase⟩ := by
  have hpos := lfnEntries_bounds (List.length_pos_iff.mpr hname)
  have hpos' := List.length_pos_iff.mpr hname
  rw [classifyName] at hshort ⊢
  dsimp only at hshort ⊢
  split_ifs at hshort with h1 h2
  · dsimp only at hshort
    omega
  · rw [if_neg h1]
    rw [not_or, Bool.not_eq_true, Bool.not_eq_true] at h2
    rw [not_or, not_or, Bool.not_eq_true] at h1
    exact ⟨by omega, h1.2.1, h2.1, h2.2, rfl⟩

include hf

theorem sfnStem_ok : (∀ c ∈ sfnStem name, CaseOk (classifyName f name.length).2.nameLowercase c) ∧
    ((sfnRest name).head? = some 0x2E → (sfnStem name).length < 8 →
      (scanBase f 8 0 ⟨false, false, false⟩).2 = (sfnStem name).length + 1) ∧
    ((sfnStem name).length = 8 → (scanBase f 8 0 ⟨false, false, false⟩).2 = 8) := by
  obtain ⟨-, -, hlong, -, hflags⟩ := classifyName_short hname hshort
  have hchar (k : ℕ) (hk : k < (sfnStem name).length) : f (0 + k) = (sfnStem name)[k] := by
    rw [Nat.zero_add, hf.get (getElem?_sfnStem hk)]
  obtain ⟨hok, hdot, hend⟩ := scanBase_ok hlong (length_sfnStem_le name) fun k hk => by
    rw [hchar k hk]
    exact (mem_sfnStem (List.getElem_mem hk)).2
  refine ⟨fun c hc => ?_, fun hrest hlt => ?_, fun hlen => ?_⟩
  · obtain ⟨k, hk, rfl⟩ := List.getElem_of_mem hc
    rw [hflags, ← hchar k hk]
    exact hok k hk
  · rw [hdot hlt, Nat.zero_add]
    rw [Nat.zero_add, hf.get]
    rw [← Nat.add_zero (sfnStem name).length, getElem?_sfnRest, ← List.head?_eq_getElem?, hrest]
  · rw [hend hlen, hlen]

/-- The extension is looked at without its third character when the base name is full. -/
theorem sfnRest_ok {ext : Name} (hrest : sfnRest name = 0x2E :: ext) : ext.length ≤ 3 ∧
    (∀ c ∈ if (sfnStem name).length = 8 then ext.take 2 else ext,
      CaseOk (classifyName f name.length).2.extensionLowercase c) ∧
    ((sfnStem name).length = 8 → ext.length = 3 →
      (classifyName f name.length).2.extensionLowercase = (ext.take 2).any isLower) := by
  obtain ⟨hlen, hfind, -, hlong, hflags⟩ := classifyName_short hname hshort
  obtain ⟨-, hdot, hend⟩ := sfnStem_ok hf hname hshort
  have hsplit : (sfnStem name).length + (ext.length + 1) = name.length := by
    rw [← List.length_cons, ← hrest, ← List.length_append, sfnStem_append_sfnRest]
  have hstem := length_sfnStem_le name
  have hchar (k : ℕ) (hk : k < ext.length) : f ((sfnStem name).length + 1 + k) = ext[k] := by
    rw [hf.get]
    rw [Nat.add_assoc, getElem?_sfnRest, hrest, Nat.add_comm 1 k, List.getElem?_cons_succ,
      List.getElem?_eq_getElem hk]
  have hthree : ext.length ≤ 3 := by
    have := findExtension_dot (k := (sfnStem name).length) hfind (by omega) (fun j hj => by
      rw [Nat.zero_add, hf.get (getElem?_sfnStem hj)]
      exact hf.nonzero _ (sfnStem_initial.subset (List.getElem_mem hj))) (by
      rw [Nat.zero_add, hf.get]
      rw [← Nat.add_zero (sfnStem name).length, getElem?_sfnRest, hrest, List.getElem?_cons_zero])
    omega
  have hseen : ∀ c ∈ if (sfnStem name).length = 8 then ext.take 2 else ext,
      CaseOk (classifyName f name.length).2.extensionLowercase c := by
    rw [hflags]
    split_ifs with hfull
    · intro c hc
      obtain ⟨k, hk, rfl⟩ := List.getElem_of_mem hc
      rw [List.length_take] at hk
      have hok := scanExtension_ok (k := k + 1) hlong (by omega)
      rw [List.getElem_take, ← hchar k (by omega)]
      rwa [show (sfnStem name).length + 1 + k =
          (scanBase f 8 0 ⟨false, false, false⟩).2 + (k + 1) by
        rw [hend hfull]
        omega]
    · intro c hc
      obtain ⟨k, hk, rfl⟩ := List.getElem_of_mem hc
      have hok := scanExtension_ok (k := k) hlong (by omega)
      have hfirst := hdot (by rw [hrest]; rfl) (by omega)
      dsimp only
      rw [hfirst] at hok ⊢
      rwa [hchar k hk] at hok
  refine ⟨hthree, hseen, fun hfull hext => ?_⟩
  rw [if_pos hfull] at hseen
  rw [Bool.eq_iff_iff, List.any_eq_true]
  refine ⟨fun hlower => ?_, fun ⟨c, hc, hl⟩ => (hseen c hc).lower hl⟩
  rw [hflags] at hlower
  rcases scanExtension_lowercase hlower with h | ⟨k, hk, hl⟩
  · cases h
  · rw [hend hfull] at hl
    cases k with
    | zero =>
      rw [Nat.add_zero, ← hfull, hf.get (c := 0x2E) (by
        rw [← Nat.add_zero (sfnStem name).length, getElem?_sfnRest, hrest,
          List.getElem?_cons_zero])] at hl
      cases hl
    | succ k =>
      rw [show 8 + (k + 1) = (sfnStem name).length + 1 + k by omega, hchar k (by omega)] at hl
      exact ⟨_, List.mem_take_iff_getElem.mpr ⟨k, by omega, rfl⟩, hl⟩

end Short

/-- All of a short name is in its entry. -/
structure KeptShort (name : Name) : Prop where
  chars : ∀ c ∈ name, 0x20 < c ∧ c < 0x100
  rest : sfnRest name = [] ∨ (sfnRest name).head? = some 0x2E
  /-- A dot behind eight characters has no place. -/
  dot : (sfnStem name).length = 8 → sfnRest name ≠ [0x2E]
  /-- A letter that is not looked at has the case of the two characters before it. -/
  third : (sfnStem name).length = 8 → ∀ c ∈ (sfnRest name).drop 3, isUpper c = true ∨
    isLower c = true →
    isLower c = ((sfnRest name).take 3).any isLower

theorem KeptShort.extension {ext : Name} (h : KeptShort name) (hrest : sfnRest name = 0x2E :: ext)
    (hf : HoldsName f name) (hname : name ≠ []) (hshort : (classifyName f name.length).1 = 0) :
    readExtension (classifyName f name.length).2 ext = ext := by
  obtain ⟨hlen, hseen, hflag⟩ := sfnRest_ok hf hname hshort hrest
  refine readExtension_iff.mpr ⟨hlen, fun c hc => ?_⟩
  have hmem : c ∈ name := by
    rw [← sfnStem_append_sfnRest name, hrest]
    exact List.mem_append_right _ (List.mem_cons_of_mem _ hc)
  obtain ⟨hgt, hlt⟩ := h.chars c hmem
  refine ⟨hgt, sfnChar_upperByte.mpr ⟨hlt, ?_⟩⟩
  by_cases hfull : (sfnStem name).length = 8
  · rw [if_pos hfull] at hseen
    rw [← List.take_append_drop 2 ext] at hc
    rcases List.mem_append.mp hc with hc | hc
    · exact ⟨(hseen c hc).upper, (hseen c hc).lower⟩
    · have hthird := h.third hfull c
      rw [hrest, List.drop_succ_cons, List.take_succ_cons, List.any_cons] at hthird
      have hthree : ext.length = 3 := by
        have := List.length_pos_of_mem hc
        rw [List.length_drop] at this
        omega
      rw [hflag hfull hthree]
      have hcase (hletter : isUpper c = true ∨ isLower c = true) : isLower c =
          (ext.take 2).any isLower :=
        hthird hc hletter
      refine ⟨fun hu => ?_, fun hl => ?_⟩
      · rw [← hcase (Or.inl hu)]
        exact isLower_of_isUpper hu
      · rw [← hcase (Or.inr hl), hl]
  · rw [if_neg hfull] at hseen
    exact ⟨(hseen c hc).upper, (hseen c hc).lower⟩

/-- What is read back behind the base name is the rest of the name exactly when the name is kept. -/
theorem readRest_iff (hf : HoldsName f name) (hname : name ≠ [])
    (hshort : (classifyName f name.length).1 = 0) (hchars : ∀ c ∈ name, c < 0x100)
    (hstem : ∀ c ∈ sfnStem name, 0x20 < c) :
    readRest (classifyName f name.length).2 name = sfnRest name ↔ KeptShort name := by
  have hsplit := sfnStem_append_sfnRest name
  constructor
  · intro h
    rw [readRest] at h
    by_cases hdot : (sfnRest name).head? = some 0x2E
    · obtain ⟨ext, hrest⟩ := List.head?_eq_some_iff.mp hdot
      obtain ⟨hlen, hseen, hflag⟩ := sfnRest_ok hf hname hshort hrest
      rw [if_pos hdot, hrest, List.tail_cons] at h
      have hext : readExtension (classifyName f name.length).2 ext = ext := by
        split_ifs at h with hend hfull hnone
        · rw [hend]
          rfl
        · rw [hend]
          rfl
        · exact (List.cons.inj h).2
      have hread := (readExtension_iff.mp hext).2
      refine ⟨fun c hc => ⟨?_, hchars c hc⟩, Or.inr hdot, fun hfull hend => ?_,
        fun hfull c hc hletter => ?_⟩
      · rw [← hsplit, hrest] at hc
        rcases List.mem_append.mp hc with hc | hc
        · exact hstem c hc
        · rcases List.mem_cons.mp hc with rfl | hc
          · decide
          · exact (hread c hc).1
      · rw [hrest] at hend
        rw [(List.cons.inj hend).2, if_pos rfl, if_pos hfull] at h
        cases h
      · rw [hrest, List.drop_succ_cons] at hc
        have hthree : ext.length = 3 := by
          have := List.length_pos_of_mem hc
          rw [List.length_drop] at this
          omega
        obtain ⟨-, hupper, hlower⟩ := sfnChar_upperByte.mp (hread c (List.mem_of_mem_drop hc)).2
        rw [hflag hfull hthree] at hupper hlower
        rw [hrest, List.take_succ_cons, List.any_cons]
        change isLower c = (ext.take 2).any isLower
        rcases hletter with hu | hl
        · rw [hupper hu, isLower_of_isUpper hu]
        · rw [hlower hl, hl]
    · rw [if_neg hdot] at h
      refine ⟨fun c hc => ⟨?_, hchars c hc⟩, Or.inl h.symm, fun _ hend => ?_, fun _ c hc => ?_⟩
      · rw [← hsplit, ← h, List.append_nil] at hc
        exact hstem c hc
      · rw [← h] at hend
        cases hend
      · rw [← h] at hc
        cases hc
  · intro h
    rw [readRest]
    rcases h.rest with hrest | hdot
    · rw [hrest]
      rfl
    · obtain ⟨ext, hrest⟩ := List.head?_eq_some_iff.mp hdot
      have hext := h.extension hrest hf hname hshort
      rw [if_pos hdot, hrest, List.tail_cons, hext]
      split_ifs with hend hfull
      · rw [hend] at hrest
        exact absurd hrest (h.dot hfull)
      · rw [hend]
      · rfl

/-- A short name is read back from its entry exactly when all of it is kept there. -/
theorem short_name_read_back_iff (attributes : Byte) (hf : HoldsName f name) (hname : name ≠ [])
    (hshort : (classifyName f name.length).1 = 0) :
    parseSfnEntry (setSfnEntry (fun _ => 0) name attributes (classifyName f name.length).2) = name ↔
      KeptShort name := by
  have hok := (sfnStem_ok hf hname hshort).1
  have hgt : ∀ c ∈ sfnStem name, 0x20 < c := by
    intro c hc
    have hge := (mem_sfnStem hc).1
    have hne := (hok c hc).blank
    bv_omega
  have hread (hchars : ∀ c ∈ name, c < 0x100) :=
      @parseSfnEntry_setSfnEntry name attributes _ fun c hc =>
    ⟨hgt c hc, hchars c (sfnStem_initial.subset hc), hok c hc⟩
  have hsplit := sfnStem_append_sfnRest name
  constructor
  · intro h
    have hchars : ∀ c ∈ name, c < 0x100 := fun c hc => parseSfnEntry_lt _ c (h.symm ▸ hc)
    rw [hread hchars] at h
    exact (readRest_iff hf hname hshort hchars hgt).mp
      (List.append_cancel_left (h.trans hsplit.symm))
  · intro h
    have hchars : ∀ c ∈ name, c < 0x100 := fun c hc => (h.chars c hc).2
    rw [hread hchars, (readRest_iff hf hname hshort hchars hgt).mpr h, hsplit]

/-- `EntryName` when only this name has been copied to it. -/
def firstEntryName (name : Name) : ℕ → WChar := fun i => name.getD i 0

theorem firstEntryName_holds (h : ∀ c ∈ name, c ≠ 0) : HoldsName (firstEntryName name) name := by
  refine ⟨fun i hi => ?_, ?_, h⟩
  · rw [firstEntryName, List.getD_eq_getElem?_getD, List.getElem?_eq_getElem hi, Option.getD_some]
  · rw [firstEntryName, List.getD_eq_getElem?_getD, List.getElem?_eq_none (Nat.le_refl _),
      Option.getD_none]

/-- `notes.txt` -/
def notesName : Name := [0x6E, 0x6F, 0x74, 0x65, 0x73, 0x2E, 0x74, 0x78, 0x74]

theorem notesName_holds : HoldsName (firstEntryName notesName) notesName :=
  firstEntryName_holds (by simp [notesName])

/-- A name of eight characters at most with its extension. -/
theorem short_name_read_back_notes :
    parseSfnEntry (setSfnEntry (fun _ => 0) notesName 0x20
        (classifyName (firstEntryName notesName) notesName.length).2) = notesName ↔
        KeptShort notesName :=
  short_name_read_back_iff 0x20 notesName_holds (List.cons_ne_nil _ _) (by decide)

/-- `ABCDEFGHI.T` -/
def nineCharName : Name := [0x41, 0x42, 0x43, 0x44, 0x45, 0x46, 0x47, 0x48, 0x49, 0x2E, 0x54]

/-- A name with nine characters in front of its dot is a short name, and its last three characters
are lost. -/
theorem nineCharName_truncated :
    HoldsName (firstEntryName nineCharName) nineCharName ∧ nineCharName ≠ [] ∧
    (classifyName (firstEntryName nineCharName) nineCharName.length).1 = 0 ∧
    parseSfnEntry (setSfnEntry (fun _ => 0) nineCharName 0x20
      (classifyName (firstEntryName nineCharName) nineCharName.length).2) = nineCharName.take 8 ∧
    nineCharName.take 8 ≠ nineCharName :=
  ⟨firstEntryName_holds (by simp [nineCharName]), List.cons_ne_nil _ _, by decide, by decide, by
    decide⟩

end DevOs.Fat32
