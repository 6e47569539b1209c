import DevOs.Setfile.Flat

/-!
# Looking entries of a flat set file up

In a flat file a path leads to an entry when it is one name of the root directory and separators
behind it. What was found before is found after a directory has been added.
-/

namespace DevOs.Setfile

open DevOs.Bytes DevOs.Pieces

variable {f : File} {h h' : Buffer} {n i k : ℕ} {name a p : List Byte} {args : List String}
    {skip : Bool}

theorem added_header (hf : Flat f n) (hn : n < maxDirEntries) (args : List String)
    (name : List Byte) (hi : i < maxDirEntries) (hne : i ≠ n) (hk : k < entrySize) :
    (added f args name n).header (entryAt rootDirectory i + k) =
      f.header (entryAt rootDirectory i + k) := by
  have hmax : maxDirEntries = 256 := rfl
  have hentry : entrySize = 416 := rfl
  have hle := hf.headerSize_le
  have hat := entryAt_root i
  have hheader := headerSize_eq
  have hsize := added_size hf hn args name
  rw [header_byte (by omega) (by omega), header_byte hle (by omega)]
  exact added_other_entry hf args name hi hne hk

theorem added_lookup (hf : Flat f n) (hn : n < maxDirEntries) (args : List String)
    (name : List Byte) (ha : a.length < nameMaxLen) (hi : lookup f.header a = some i) :
    lookup (added f args name n).header a = some i ∧
      attributesAt (added f args name n).header rootDirectory i =
        attributesAt f.header rootDirectory i := by
  have hmax : nameMaxLen = 128 := rfl
  have hentry : entrySize = 416 := rfl
  have hlt := hf.lookup_lt hi
  have hattributes : ∀ j < n, attributesAt (added f args name n).header rootDirectory j =
      attributesAt f.header rootDirectory j := fun j hj =>
    getLE_congr fun k hk => added_header hf hn args name (hj.trans hn) (by omega) (by omega)
  have hcompare : ∀ j < n, stringCompare (added f args name n).header (nameAt rootDirectory j) a =
      stringCompare f.header (nameAt rootDirectory j) a := by
    intro j hj
    refine stringCompare_congr fun k hk => ?_
    rw [nameAt, Nat.add_assoc]
    exact added_header hf hn args name (hj.trans hn) (by omega) (by omega)
  obtain ⟨hmax', hp, hs, hall⟩ := lookup_eq_some.mp hi
  refine ⟨lookup_eq_some.mpr ⟨hmax', ?_, ?_, fun j hj hpj => ?_⟩, hattributes i hlt⟩
  · rw [hattributes i hlt]
    exact hp
  · rw [hcompare i hlt]
    exact hs
  · rw [hattributes j (by omega)] at hpj
    rw [hcompare j (by omega)]
    exact hall j hj hpj

theorem added_lookup_new (hf : Flat f n) (hn : n < maxDirEntries) (args : List String)
    (hname : name.length < nameMaxLen) (hnone : lookup f.header name = none) :
    lookup (added f args name n).header name = some n := by
  have hmax : maxDirEntries = 256 := rfl
  have hmax' : nameMaxLen = 128 := rfl
  have hentry : entrySize = 416 := rfl
  have hle := hf.headerSize_le
  have hheader := headerSize_eq
  have hat := entryAt_root n
  have hsize := added_size hf hn args name
  refine lookup_eq_some.mpr ⟨hn, ?_, ?_, fun j hj hpj => ?_⟩
  · rw [header_attributes (by omega) hn, added_attributes hf hn]
    exact attributesOf_present args
  · rw [← newEntry_name f.header n (attributesOf args) f.size hname]
    refine stringCompare_congr fun k hk => ?_
    rw [nameAt, Nat.add_assoc, header_byte (by omega) (by omega)]
    exact added_entry hf hn args name (by omega)
  · have hsame : attributesAt (added f args name n).header rootDirectory j =
        attributesAt f.header rootDirectory j :=
      getLE_congr fun k hk => added_header hf hn args name (hj.trans hn) (by omega) (by omega)
    rw [hsame] at hpj
    rw [← lookup_eq_none.mp hnone j (hj.trans hn) hpj]
    refine stringCompare_congr fun k hk => ?_
    rw [nameAt, Nat.add_assoc]
    exact added_header hf hn args name (hj.trans hn) (by omega) (by omega)

theorem findFrom_empty (he : EmptyTable h) (f : File) (p : List Byte) (skip : Bool)
    (name : List Byte) (x : Buffer × ℕ) : findFrom f p skip name h ≠ some (some x) := by
  induction p generalizing skip name with
  | nil =>
    rw [findFrom, he.lookup]
    split
    · exact fun hx => by cases hx
    · exact fun hx => by cases hx
  | cons c cs ih =>
    cases skip with
    | false =>
      rw [findFrom]
      split
      · exact ih true name
      · exact ih false (name ++ [c])
    | true =>
      rw [findFrom]
      split
      · exact ih true name
      · rw [he.lookup]
        split
        · exact fun hx => by cases hx
        · exact fun hx => by cases hx

theorem findFrom_end_iff : findFrom f [] skip name h' = some (some (h, i)) ↔
    name.length < nameMaxLen ∧ lookup h' name = some i ∧ h = h' := by
  rw [findFrom]
  by_cases hlen : name.length < nameMaxLen
  · rw [if_pos hlen, Option.some.injEq, Option.map_eq_some_iff]
    constructor
    · rintro ⟨j, hj, heq⟩
      obtain ⟨rfl, rfl⟩ := Prod.mk.inj heq
      exact ⟨hlen, hj, rfl⟩
    · rintro ⟨-, hi, rfl⟩
      exact ⟨i, hi, rfl⟩
  · rw [if_neg hlen]
    exact ⟨fun hx => (by cases hx), fun hx => absurd hx.1 hlen⟩

/-- Only separators may follow a name, since the tables of the directories are empty. -/
theorem findFrom_skip_iff (hf : Flat f n) : findFrom f p true name f.header = some (some (h, i)) ↔
    (∀ c ∈ p, isSeparator c = true) ∧ name.length < nameMaxLen ∧ lookup f.header name = some i ∧
    h = f.header := by
  induction p with
  | nil => simp [findFrom_end_iff]
  | cons c cs ih =>
    rw [findFrom]
    by_cases hc : isSeparator c = true
    · rw [if_pos hc, ih]
      simp [hc]
    · rw [if_neg hc]
      refine ⟨fun hx => ?_, fun hx => absurd (hx.1 c List.mem_cons_self) hc⟩
      split at hx
      · cases hj : lookup f.header name with
        | none =>
          rw [hj] at hx
          cases hx
        | some j =>
          simp only [hj, hf.lookup_directory (hf.lookup_lt hj), if_true] at hx
          exact absurd hx (findFrom_empty (hf.enter (hf.lookup_lt hj)) f cs false [c] (h, i))
      · cases hx

theorem findFrom_name_iff (hf : Flat f n) : findFrom f p false name f.header = some (some (h, i)) ↔
    ∃ a r, p = a ++ r ∧ (∀ c ∈ a, isSeparator c = false) ∧ (∀ c ∈ r, isSeparator c = true) ∧
      (name ++ a).length < nameMaxLen ∧ lookup f.header (name ++ a) = some i ∧ h = f.header := by
  induction p generalizing name with
  | nil =>
    rw [findFrom_end_iff]
    constructor
    · intro hx
      exact ⟨[], [], rfl, by simp, by simp, by simpa using hx⟩
    · rintro ⟨a, r, hp, -, -, hx⟩
      obtain ⟨rfl, rfl⟩ := List.append_eq_nil_iff.mp hp.symm
      simpa using hx
  | cons c cs ih =>
    rw [findFrom]
    by_cases hc : isSeparator c = true
    · rw [if_pos hc, findFrom_skip_iff hf]
      constructor
      · rintro ⟨hcs, hx⟩
        exact ⟨[], c :: cs, rfl, by simp, by simpa [hc] using hcs, by simpa using hx⟩
      · rintro ⟨a, r, hp, ha, hr, hx⟩
        cases a with
        | nil =>
          rw [List.nil_append] at hp
          subst hp
          exact ⟨fun x hx => hr x (List.mem_cons_of_mem c hx), by simpa using hx⟩
        | cons x a =>
          obtain ⟨rfl, -⟩ := List.cons.inj hp
          rw [ha c List.mem_cons_self] at hc
          cases hc
    · rw [if_neg hc, ih]
      constructor
      · rintro ⟨a, r, rfl, ha, hr, hx⟩
        refine ⟨c :: a, r, rfl, ?_, hr, by simpa using hx⟩
        simpa [hc] using ha
      · rintro ⟨a, r, hp, ha, hr, hx⟩
        cases a with
        | nil =>
          rw [List.nil_append] at hp
          subst hp
          exact absurd (hr c List.mem_cons_self) hc
        | cons x a =>
          obtain ⟨rfl, rfl⟩ := List.cons.inj hp
          exact ⟨a, r, rfl, fun y hy => ha y (List.mem_cons_of_mem _ hy), hr, by simpa using hx⟩

theorem lastName_eq {path : CString} {r : List Byte} (hpath : path.chars = a ++ r)
    (ha : ∀ c ∈ a, isSeparator c = false) (hr : ∀ c ∈ r, isSeparator c = true) :
    path.lastName = a := by
  have hpieces : ∀ t : List Byte, (∀ c ∈ t, isSeparator c = true) → pieces isSeparator t = [] := by
    intro t ht
    by_contra hne
    obtain ⟨c, hc, hsep⟩ := pieces_ne_nil_iff.mp hne
    rw [ht c hc] at hsep
    cases hsep
  have hone : pieces isSeparator (a ++ r) = pieces isSeparator a := by
    cases r with
    | nil => rw [List.append_nil]
    | cons c r =>
      rw [pieces_append_cons (hr c List.mem_cons_self),
        hpieces r fun x hx => hr x (List.mem_cons_of_mem c hx), List.append_nil]
  rw [CString.lastName, hpath, hone]
  rcases eq_or_ne a [] with rfl | hne
  · rfl
  · rw [pieces_run hne ha]
    rfl

theorem found_iff (hf : Flat f n) {path : CString} {attributes : ℕ} : Found f path attributes ↔
    path.chars ≠ [] ∧ ∃ a r i, path.chars = a ++ r ∧ (∀ c ∈ a, isSeparator c = false) ∧
      (∀ c ∈ r, isSeparator c = true) ∧ a.length < nameMaxLen ∧ lookup f.header a = some i ∧
      attributesAt f.header rootDirectory i = attributes := by
  have hdesc : desc f path = if path.chars = [] then some none
      else findFrom f path.chars false [] f.header := by
    rw [desc, hf.header, if_pos rfl, findEntry]
  rw [Found, hdesc]
  by_cases hnil : path.chars = []
  · simp [hnil]
  · rw [if_neg hnil]
    constructor
    · rintro ⟨h, i, hfind, hattributes, -⟩
      obtain ⟨a, r, hp, ha, hr, hlen, hi, rfl⟩ := (findFrom_name_iff hf).mp hfind
      rw [List.nil_append] at hlen hi
      exact ⟨hnil, a, r, i, hp, ha, hr, hlen, hi, hattributes⟩
    · rintro ⟨-, a, r, i, hp, ha, hr, hlen, hi, hattributes⟩
      refine ⟨f.header, i, (findFrom_name_iff hf).mpr ⟨a, r, hp, ha, hr, hlen, hi, rfl⟩,
        hattributes, ?_⟩
      rw [lastName_eq hp ha hr]
      exact (lookup_eq_some.mp hi).2.2.1

end DevOs.Setfile
