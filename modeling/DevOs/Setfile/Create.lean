import DevOs.Setfile.Found

/-!
# Creating entries in a set file

A set file stays flat as long as only directories are created, and only in the root directory. A
plain entry is never written. The offset of the table of a further directory is taken from the table
itself, which is empty, so that an entry in it is written over the start of the header.
-/

namespace DevOs.Setfile

open DevOs.Bytes DevOs.Runs

variable {f : File} {h : Buffer} {n i o : ℕ} {name a p : List Byte} {args : List String}
    {c : Command}

theorem create_eq (hf : Flat f n) (path : CString) (args : List String)
    (hpos : path.chars.length ≠ 0) (hlen : path.chars.length ≤ nameMaxLen) :
    create f path args = createFrom f args path.chars [] f.header rootDirectory := by
  rw [create, if_pos hf.header, if_neg (by omega)]

theorem createFrom_run (ha : ∀ c ∈ a, isSeparator c = false) :
    createFrom f args (a ++ p) name h o = createFrom f args p (name ++ a) h o := by
  induction a generalizing name with
  | nil => rw [List.nil_append, List.append_nil]
  | cons c a ih =>
    rw [List.cons_append, createFrom, ha c List.mem_cons_self, if_neg Bool.false_ne_true,
      ih fun x hx => ha x (List.mem_cons_of_mem c hx), List.append_assoc, List.singleton_append]

theorem no_separator (hp : p.countP isSeparator = 0) : ∀ c ∈ p, isSeparator c = false := by
  intro c hc
  simpa using List.countP_eq_zero.mp hp c hc

theorem createFrom_name (hp : ∀ c ∈ p, isSeparator c = false) : createFrom f args p [] h o =
    if p.length < nameMaxLen then createEntry f args p h o else none := by
  have hrun : createFrom f args (p ++ []) [] h o = createFrom f args [] ([] ++ p) h o :=
    createFrom_run hp
  rw [List.append_nil, List.nil_append] at hrun
  rw [hrun, createFrom]

theorem exists_separator (hp : 0 < p.countP isSeparator) :
    ∃ s r, p = p.takeWhile (fun x => !isSeparator x) ++ s :: r ∧ isSeparator s = true := by
  obtain ⟨c, hc, hsep⟩ := List.countP_pos_iff.mp hp
  have hne : p.dropWhile (fun x => !isSeparator x) ≠ [] := by
    intro hnil
    have hall := List.dropWhile_eq_nil_iff.mp hnil c hc
    rw [hsep] at hall
    cases hall
  obtain ⟨s, r, hsr⟩ := List.exists_cons_of_ne_nil hne
  refine ⟨s, r, ?_, ?_⟩
  · rw [← hsr, List.takeWhile_append_dropWhile]
  · have hhead := List.head_dropWhile_not (fun x => !isSeparator x) hne
    simpa [hsr] using hhead

theorem takeWhile_run (p : List Byte) :
    ∀ c ∈ p.takeWhile (fun x => !isSeparator x), isSeparator c = false := by
  intro c hc
  simpa using List.mem_takeWhile_imp hc

theorem countP_separator {s : Byte} {r : List Byte}
    (hp : p = p.takeWhile (fun x => !isSeparator x) ++ s :: r) (hs : isSeparator s = true) :
    p.countP isSeparator = r.countP isSeparator + 1 := by
  have hzero : (p.takeWhile fun x => !isSeparator x).countP isSeparator = 0 := by
    rw [List.countP_eq_zero]
    intro c hc
    rw [takeWhile_run p c hc]
    exact Bool.false_ne_true
  calc p.countP isSeparator = (p.takeWhile (fun x => !isSeparator x) ++
    s :: r).countP isSeparator := by rw [← hp]
    _ = r.countP isSeparator + 1 := by
      rw [List.countP_append, hzero, List.countP_cons_of_pos hs, Nat.zero_add]

theorem createFrom_missing {s : Byte} (hs : isSeparator s = true) (hname : name.length < nameMaxLen)
    (hnone : lookup h name = none) : createFrom f args (s :: p) name h o = some (f, -1) := by
  simp only [createFrom, hs, if_true, hname, hnone]

theorem createFrom_enter (hf : Flat f n) {s : Byte} (hs : isSeparator s = true)
    (hname : name.length < nameMaxLen) (hi : lookup f.header name = some i) :
    createFrom f args (s :: p) name f.header o = createFrom f args p [] (enter f f.header i) 0 := by
  have hlt := hf.lookup_lt hi
  have hempty := (hf.enter hlt).dirPointer i (lt_of_lt_of_le hlt hf.le)
  simp only [createFrom, hs, if_true, hname, hi, hf.lookup_directory hlt, hf.readable hlt,
    Bool.and_self, hempty]

/-- Two names are too many: there is no directory below those of the root directory. -/
theorem createFrom_deep (he : EmptyTable h) (hp : 0 < p.countP isSeparator)
    (hlen : p.length ≤ nameMaxLen) :
    createFrom f args p [] h o = some (f, -1) := by
  obtain ⟨s, r, hsr, hs⟩ := exists_separator hp
  have hlength := congrArg List.length hsr
  rw [List.length_append, List.length_cons] at hlength
  rw [hsr, createFrom_run (takeWhile_run p), List.nil_append]
  exact createFrom_missing hs (by omega) (he.lookup _)

def overwritten (f : File) (args : List String) (name : List Byte) (h : Buffer) : File :=
  (f.write 0 entrySize (newEntry h 0 name (attributesOf args) f.size)
    (entryAt rootDirectory 0)).write f.size tableSize
    (fun _ => 0) 0

theorem EmptyTable.firstFree (he : EmptyTable h) :
    ((List.range maxDirEntries).find? fun i => !present (attributesAt h rootDirectory i)) =
      some 0 := by
  rw [List.find?_range_eq_some]
  refine ⟨?_, List.mem_range.mpr (by decide), fun j hj => absurd hj (Nat.not_lt_zero j)⟩
  rw [he.attributes 0 (by decide)]
  rfl

theorem createEntry_plain (hdir : directory (attributesOf args) = false)
    (hi : ((List.range maxDirEntries).find? fun i => !present (attributesAt h rootDirectory i)) =
      some i) :
    createEntry f args name h o = some (f, 0) := by
  simp only [createEntry, hi, hdir, Bool.false_eq_true, if_false]

theorem Flat.size_lt (hf : Flat f n) : f.size < 2 ^ 32 := by
  have hmax : maxDirEntries = 256 := rfl
  have hsize := hf.size
  have hle := hf.le
  rw [headerSize_eq, tableSize_eq] at hsize
  omega

theorem createEntry_below (hf : Flat f n) (hi : i < n)
    (hdir : Setfile.directory (attributesOf args) = true) :
    Setfile.createEntry f args name (Setfile.enter f f.header i) 0 =
      some (overwritten f args name (Setfile.enter f f.header i), 0) := by
  have hclusters : ∀ k < clusterTableSize,
      Setfile.enter f f.header i (freeClusterTable + k) = 0 := by
    intro k hk
    have hclusters : clusterTableSize = 8208 := rfl
    have htable : freeClusterTable = 2144 := rfl
    have hroot := rootDirectory_eq
    rw [Setfile.enter, File.read, copy, if_neg (by omega)]
    exact hf.clusters_header hk
  have hmod : f.size % 2 ^ 32 = f.size := Nat.mod_eq_of_lt hf.size_lt
  have hdiv : f.size / 2 ^ 32 = 0 := Nat.div_eq_of_lt hf.size_lt
  simp only [Setfile.createEntry, (hf.enter hi).firstFree, hdir, if_true,
    allocateCluster_empty hclusters, hmod, hdiv, overwritten]
  simp

theorem overwritten_desc (hf : Flat f n) (args : List String) (name : List Byte) (h : Buffer)
    (path : CString) :
    desc (overwritten f args name h) path = some none := by
  have hentry : entrySize = 416 := rfl
  have hle := hf.headerSize_le
  have hheader := headerSize_eq
  have hsize : headerSize ≤ (overwritten f args name h).size := by
    simp only [overwritten, File.write]
    omega
  have hsignature : getLE (overwritten f args name h).header 0 8 = attributesOf args := by
    rw [← newEntry_attributes h 0 name args f.size]
    refine getLE_congr fun k hk => ?_
    rw [header_byte hsize (by omega)]
    simp only [overwritten, File.write, copy]
    rw [if_neg (by omega), if_pos (by omega), Nat.zero_add, Nat.sub_zero]
  have hlt := attributesOf_lt args
  have hne : attributesOf args ≠ signature := by
    have hbig : 2 ^ 6 < signature := by decide
    omega
  have hcheck : setfileCheckHeader (overwritten f args name h).header = false := by
    rw [setfileCheckHeader, hsignature, decide_eq_false hne, Bool.false_and, Bool.false_and]
  rw [desc, hcheck, if_neg Bool.false_ne_true]

theorem right_of_unchanged (hf : Flat f n) (hc : create f c.path c.args = some (f, -1)) :
    CreateRight f c :=
  ⟨f, -1, hc, fun h => absurd h (by decide), fun _ _ h => h, hf.apart⟩

theorem not_found_plain (hf : Flat f n) (hdir : Setfile.directory (attributesOf args) = false)
    (path : CString) :
    ¬Found f path (attributesOf args) := by
  intro hfound
  obtain ⟨-, a, r, i, -, -, -, -, hi, hattributes⟩ := (found_iff hf).mp hfound
  have hdir' := hf.lookup_directory (hf.lookup_lt hi)
  rw [hattributes, hdir] at hdir'
  cases hdir'

theorem not_right_of_plain (hf : Flat f n) (hdir : Setfile.directory (attributesOf c.args) = false)
    (hc : create f c.path c.args = some (f, 0)) : ¬CreateRight f c := by
  rintro ⟨f', r, hcr, hfound, -⟩
  obtain ⟨rfl, rfl⟩ := Prod.mk.inj (Option.some.inj (hc.symm.trans hcr))
  exact not_found_plain hf hdir c.path (hfound rfl)

theorem create_root (hf : Flat f n) (hn : n < maxDirEntries) (hpos : c.path.chars.length ≠ 0)
    (hcount : c.path.chars.countP isSeparator = 0) (hlen : c.path.chars.length < nameMaxLen) :
    create f c.path c.args = if Setfile.directory (attributesOf c.args) then
      some (added f c.args c.path.chars n, 0) else some (f, 0) := by
  rw [create_eq hf _ _ hpos hlen.le, createFrom_name (no_separator hcount), if_pos hlen]
  cases hdir : Setfile.directory (attributesOf c.args) with
  | true => rw [if_pos rfl, hf.createEntry hn hdir]
  | false => rw [if_neg Bool.false_ne_true, createEntry_plain hdir (hf.firstFree hn)]

theorem create_full (hf : Flat f n) (hn : n = maxDirEntries) (hpos : c.path.chars.length ≠ 0)
    (hcount : c.path.chars.countP isSeparator = 0) (hlen : c.path.chars.length < nameMaxLen) :
    create f c.path c.args = some (f, -1) := by
  rw [create_eq hf _ _ hpos hlen.le, createFrom_name (no_separator hcount), if_pos hlen]
  simp only [createEntry, hf.firstFree_full hn]

/-- A path with a separator: the directory is missing, or one more name is looked up below it. -/
theorem create_sub (hf : Flat f n) (hlen : c.path.chars.length ≤ nameMaxLen)
    (hcount : 0 < c.path.chars.countP isSeparator) :
    (lookup f.header (c.path.chars.takeWhile fun x => !isSeparator x) = none ∧
      create f c.path c.args = some (f, -1)) ∨
    ∃ i r, i < n ∧ c.path.chars.countP isSeparator = r.countP isSeparator + 1 ∧
    r.length < nameMaxLen ∧
      lookup f.header (c.path.chars.takeWhile fun x => !isSeparator x) = some i ∧
      create f c.path c.args = createFrom f c.args r [] (enter f f.header i) 0 := by
  obtain ⟨s, r, hsr, hs⟩ := exists_separator hcount
  have hlength := congrArg List.length hsr
  rw [List.length_append, List.length_cons] at hlength
  have hcreate : create f c.path c.args = createFrom f c.args (s :: r)
      (c.path.chars.takeWhile fun x => !isSeparator x) f.header rootDirectory := by
    rw [create_eq hf _ _ (by omega) hlen]
    conv_lhs => rw [hsr]
    rw [createFrom_run (takeWhile_run _), List.nil_append]
  rw [hcreate]
  cases hi : lookup f.header (c.path.chars.takeWhile fun x => !isSeparator x) with
  | none => exact .inl ⟨rfl, createFrom_missing hs (by omega) hi⟩
  | some i =>
    exact .inr ⟨i, r, hf.lookup_lt hi, countP_separator hsr hs, by
      omega, rfl, createFrom_enter hf hs (by omega) hi⟩

theorem keeps_cases (hf : Flat f n) (hk : KeepsFile f c) : create f c.path c.args = some (f, -1) ∨
    (n < maxDirEntries ∧ Setfile.directory (attributesOf c.args) = true ∧ c.path.chars.length ≠ 0 ∧
      c.path.chars.countP isSeparator = 0 ∧ c.path.chars.length < nameMaxLen ∧
      (∀ i ∈ lookup f.header c.path.chars,
        attributesAt f.header rootDirectory i = attributesOf c.args) ∧
      create f c.path c.args = some (added f c.args c.path.chars n, 0)) := by
  by_cases hbad : c.path.chars.length = 0 ∨ nameMaxLen < c.path.chars.length
  · exact .inl (by rw [create, if_pos hf.header, if_pos hbad])
  · have hpath := (hk.resolve_left fun h => hbad (.inl h)).resolve_left fun h => hbad (.inr h)
    rw [not_or, not_lt] at hbad
    obtain ⟨hpos, hlen⟩ := hbad
    cases hcount : c.path.chars.countP isSeparator with
    | zero =>
      rw [hcount] at hpath
      obtain ⟨hlt, hcase⟩ := hpath
      rcases hf.le.lt_or_eq with hn | hn
      · obtain ⟨hdir, hsame⟩ := hcase.resolve_left fun hfull => (hf.rootFull_iff.mp hfull).not_lt hn
        have hcreate := create_root hf hn hpos hcount hlt
        rw [if_pos hdir] at hcreate
        exact .inr ⟨hn, hdir, hpos, rfl, hlt, hsame, hcreate⟩
      · exact .inl (create_full hf hn hpos hcount hlt)
    | succ m =>
      rcases create_sub hf hlen (by
        omega) with ⟨-, hcreate⟩ | ⟨i, r, hi, hr, hrlen, hfound, hcreate⟩
      · exact .inl hcreate
      · cases m with
        | zero =>
          rw [hcount] at hpath
          rw [hfound] at hpath
          cases hpath
        | succ m =>
          rw [hcreate]
          exact .inl (createFrom_deep (hf.enter hi) (by omega) hrlen.le)

theorem setfStep_flat (hf : Flat f n) (hk : KeepsFile f c) {f' : File}
    (hs : setfStep f c = some f') :
    ∃ m, Flat f' m := by
  rw [setfStep] at hs
  rcases keeps_cases hf hk with hc | ⟨hn, hdir, -, -, -, -, hc⟩
  · rw [hc] at hs
    obtain rfl := Option.some.inj hs
    exact ⟨n, hf⟩
  · rw [hc] at hs
    obtain rfl := Option.some.inj hs
    exact ⟨n + 1, added_flat hf hn hdir _⟩

theorem right_of_keeps (hf : Flat f n) (hk : KeepsFile f c) : CreateRight f c := by
  rcases keeps_cases hf hk with hc | ⟨hn, hdir, hpos, hcount, hlen, hsame, hc⟩
  · exact right_of_unchanged hf hc
  · have hf' := added_flat hf hn hdir c.path.chars
    have hsep := no_separator hcount
    refine ⟨_, 0, hc, fun _ => ?_, fun path attributes hfound => ?_, hf'.apart⟩
    · rw [found_iff hf']
      refine ⟨fun hnil => hpos (by rw [hnil]; rfl), c.path.chars, [], ?_⟩
      cases hi : lookup f.header c.path.chars with
      | none =>
        refine ⟨n, (List.append_nil _).symm, hsep, by
          simp, hlen, added_lookup_new hf hn c.args hlen hi, ?_⟩
        rw [header_attributes hf'.headerSize_le hn, added_attributes hf hn]
      | some i =>
        obtain ⟨hlookup, hattributes⟩ := added_lookup hf hn c.args c.path.chars hlen hi
        exact ⟨i, (List.append_nil _).symm, hsep, by
          simp, hlen, hlookup, hattributes.trans (hsame i hi)⟩
    · rw [found_iff hf]  at hfound
      obtain ⟨hne, a, r, i, hp, ha, hr, halen, hi, hattributes⟩ := hfound
      obtain ⟨hlookup, hsame'⟩ := added_lookup hf hn c.args c.path.chars halen hi
      rw [found_iff hf']
      exact ⟨hne, a, r, i, hp, ha, hr, halen, hlookup, hsame'.trans hattributes⟩

/-- A name that was taken by a directory with other attributes is still its name. -/
theorem added_same (hf : Flat f n) (hn : n < maxDirEntries)
    (hdir : Setfile.directory (attributesOf c.args) = true)
    (hcount : c.path.chars.countP isSeparator = 0) (hlen : c.path.chars.length < nameMaxLen)
    (hfound : Found (added f c.args c.path.chars n) c.path (attributesOf c.args)) :
    ∀ i ∈ lookup f.header c.path.chars,
    attributesAt f.header rootDirectory i = attributesOf c.args := by
  intro i hi
  obtain ⟨-, a, r, j, hp, -, hr, -, hj, hattributes⟩ :=
    (found_iff (added_flat hf hn hdir c.path.chars)).mp hfound
  have hnil : r = [] := by
    rw [List.eq_nil_iff_forall_not_mem]
    intro x hx
    refine List.countP_eq_zero.mp hcount x ?_ (hr x hx)
    rw [hp]
    exact List.mem_append_right a hx
  rw [hnil, List.append_nil] at hp
  obtain ⟨hlookup, hsame⟩ := added_lookup hf hn c.args c.path.chars hlen hi
  rw [← hp, hlookup] at hj
  obtain rfl := Option.some.inj hj
  exact hsame.symm.trans hattributes

theorem keeps_of_right (hf : Flat f n) (hr : CreateRight f c) : KeepsFile f c := by
  by_cases hpos : c.path.chars.length = 0
  · exact .inl hpos
  by_cases hlen : nameMaxLen < c.path.chars.length
  · exact .inr (.inl hlen)
  refine .inr (.inr ?_)
  rw [not_lt] at hlen
  cases hcount : c.path.chars.countP isSeparator with
  | zero =>
    have hsep := no_separator hcount
    have hlt : c.path.chars.length < nameMaxLen := by
      by_contra hge
      obtain ⟨f', r, hcreate, -⟩ := hr
      rw [create_eq hf _ _ hpos hlen, createFrom_name hsep, if_neg hge] at hcreate
      cases hcreate
    refine ⟨hlt, ?_⟩
    rcases hf.le.lt_or_eq with hn | hn
    · have hcreate := create_root hf hn hpos hcount hlt
      cases hdir : Setfile.directory (attributesOf c.args) with
      | false =>
        rw [hdir, if_neg Bool.false_ne_true] at hcreate
        exact absurd hr (not_right_of_plain hf hdir hcreate)
      | true =>
        rw [if_pos hdir] at hcreate
        obtain ⟨f', r, hcreate', hfound, -⟩ := hr
        obtain ⟨rfl, rfl⟩ := Prod.mk.inj (Option.some.inj (hcreate.symm.trans hcreate'))
        exact .inr ⟨rfl, added_same hf hn hdir hcount hlt (hfound rfl)⟩
    · exact .inl (hf.rootFull_iff.mpr hn)
  | succ m =>
    cases m with
    | succ m => trivial
    | zero =>
      rcases create_sub hf hlen (by
        omega) with ⟨hnone, -⟩ | ⟨i, r, hi, hcr, hrlen, hlookup, hcreate⟩
      · exact hnone
      · have hrcount : r.countP isSeparator = 0 := by omega
        rw [createFrom_name (no_separator hrcount), if_pos hrlen] at hcreate
        cases hdir : Setfile.directory (attributesOf c.args) with
        | false =>
          rw [createEntry_plain hdir (hf.enter hi).firstFree] at hcreate
          exact absurd hr (not_right_of_plain hf hdir hcreate)
        | true =>
          rw [createEntry_below hf hi hdir] at hcreate
          obtain ⟨f', r', hcreate', hfound, -⟩ := hr
          obtain ⟨rfl, rfl⟩ := Prod.mk.inj (Option.some.inj (hcreate.symm.trans hcreate'))
          obtain ⟨h, j, hdesc, -⟩ := hfound rfl
          rw [overwritten_desc hf] at hdesc
          cases hdesc

/-- As long as the commands only create directories in the root directory or fail, the file stays
right, and the next command does what it should exactly when it is one of these, too. -/
theorem setf_right_iff {f : File} (h : Reaches setfStep KeepsFile setFile f) :
    DirectoriesApart f ∧ ∀ c, CreateRight f c ↔ KeepsFile f c := by
  have hflat : ∃ n, Flat f n := by
    refine h.invariant (I := fun f => ∃ n, Flat f n) ?_ ⟨0, setFile_flat⟩
    rintro s c t ⟨n, hf⟩ hk hst
    exact setfStep_flat hf hk hst
  obtain ⟨n, hf⟩ := hflat
  exact ⟨hf.apart, fun c => ⟨keeps_of_right hf, right_of_keeps hf⟩⟩

/-- A path of one character, `a`. -/
def shortPath : CString := ⟨[0x61], by decide⟩

/-- A directory is created in a new file. A plain entry is not created after that. -/
theorem directory_created :
    ∃ f, setfStep setFile ⟨shortPath, ["dir"]⟩ = some f ∧ DirectoriesApart f ∧
    ¬CreateRight f ⟨shortPath, []⟩ := by
  have hkeeps : KeepsFile setFile ⟨shortPath, ["dir"]⟩ := by
    refine .inr (.inr ⟨by decide, .inr ⟨by decide, fun i hi => ?_⟩⟩)
    exact absurd (setFile_flat.lookup_lt hi) (Nat.not_lt_zero i)
  have hcreate :=
    create_root (c := ⟨shortPath, ["dir"]⟩) setFile_flat (by decide) (by decide) (by decide) (by
      decide)
  have hstep : setfStep setFile ⟨shortPath, ["dir"]⟩ =
      some (added setFile ["dir"] shortPath.chars 0) := by
    rw [setfStep, hcreate]
    rfl
  have hreach : Reaches setfStep KeepsFile setFile (added setFile ["dir"] shortPath.chars 0) :=
    Reaches.head hkeeps hstep (Reaches.refl _)
  obtain ⟨hapart, hright⟩ := setf_right_iff hreach
  refine ⟨_, hstep, hapart, fun hr => ?_⟩
  have hdir : Setfile.directory (attributesOf ["dir"]) = true := by decide
  have hflat := added_flat setFile_flat (by decide) hdir shortPath.chars
  rcases ((hright _).mp hr).resolve_left (by decide) with hlong | ⟨-, hfull | ⟨hplain, -⟩⟩
  · exact absurd hlong (by decide)
  · exact absurd (hflat.rootFull_iff.mp hfull) (by decide)
  · exact absurd hplain (by decide)

/-- A plain entry in a new file: the command returns 0, and the entry is not found. -/
theorem plainEntry_not_created :
    ¬∀ f, Reaches setfStep anyStep setFile f → ∀ c, CreateRight f c := by
  intro hall
  have hright := hall setFile (Reaches.refl _) ⟨shortPath, []⟩
  have hcreate :=
    create_root (c := ⟨shortPath, []⟩) setFile_flat (by decide) (by decide) (by decide) (by decide)
  exact not_right_of_plain setFile_flat (by decide) hcreate hright

end DevOs.Setfile
