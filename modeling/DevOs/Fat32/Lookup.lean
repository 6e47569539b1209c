import DevOs.Fat32.Tree

/-!
# Looking up paths

`locate` is the search of a directory for a name, as a function of the contents of its clusters. The
entries of a path lead from directory to directory: `Leads g v o h names k` says that they lead from
`h` to `k`. Where a path leads depends on the directories only, and not on the size or the first
cluster of the entry at its end, which is what `Fat32EditFile` changes.
-/

namespace DevOs.Fat32

open Bytes Chains

variable {g : Geometry} {s₀ s s' : State} {v v' : Vol} {o o' : Owners}

def locate (g : Geometry) (data : ℕ → Buffer) (name : Name) : List ℕ → Option (ℕ × ℕ)
  | [] => none
  | c :: l =>
    match findSlot name (data c) g.slots 0 .normal with
    | some i => some (c, i)
    | none => locate g data name l

theorem locate_mem {data : ℕ → Buffer} {name : Name} {l : List ℕ} {c i : ℕ}
    (h : locate g data name l = some (c, i)) :
    c ∈ l ∧ findSlot name (data c) g.slots 0 .normal = some i := by
  induction l with
  | nil => cases h
  | cons d l ih =>
    rw [locate] at h
    cases hf : findSlot name (data d) g.slots 0 .normal with
    | some j =>
      rw [hf] at h
      cases h
      exact ⟨by simp, hf⟩
    | none =>
      rw [hf] at h
      obtain ⟨hm, hs⟩ := ih h
      exact ⟨by simp [hm], hs⟩

theorem Consistent.infoAt {h c i : ℕ} {name : Name} (hc : Consistent g v o) (hh : o.head h)
    (hd : o.dir h) (hl : locate g v.data name (h :: o.tail h) = some (c, i)) :
    InfoAt g v o c i := by
  obtain ⟨hm, hf⟩ := locate_mem hl
  have hin : o.InDir c := ⟨h, hh, hd, hm⟩
  have hmode : ModeOk .normal .normal := trivial
  obtain ⟨hlt, hk⟩ := findSlot_info hmode (hc.slots c hin) hf
  exact ⟨hin, by omega, hk⟩

theorem overChain_search {ρ : Type} {p : Partition} {data : ℕ → Buffer} {name : Name}
    (f : ℕ → Buffer → ℕ → ρ) (hp : p.entriesPerCluster = g.slots) (l : List ℕ) :
    overChain (searchCluster p name f) data l () =
    match locate g data name l with
    | some (c, i) => .inl (f c (data c) i)
    | none => .inr () := by
  induction l with
  | nil => rfl
  | cons c l ih =>
    rw [overChain, locate, searchCluster, fat32FindDirectoryClusterEntry, hp]
    cases hf : findSlot name (data c) g.slots 0 .normal with
    | some i => rfl
    | none => exact ih

theorem Consistent.readChain {σ ρ : Type} {body : ℕ → Buffer → σ → ρ ⊕ σ} {h : ℕ}
    (hc : Consistent g v o) (acc : σ) (hg : g.Valid) (hv : View g s₀ s v) (hh : o.head h) :
    ∃ s', Fat32.readChain body walkFuel s h false acc =
      some (s', overChain body v.data (h :: o.tail h) acc) ∧ View g s₀ s' v := by
  have hch := hc.chains h hh
  have hlen := hg.chain_length hch.chain hch.inData
  rw [List.length_cons] at hlen
  exact hv.readChain hg hch.chain hch.inData (by omega)

theorem readChain_zero {σ ρ : Type} (body : ℕ → Buffer → σ → ρ ⊕ σ) (s : State) (acc : σ) :
    Fat32.readChain body walkFuel s 0 false acc = some (s, .inr acc) := rfl

theorem Consistent.search {ρ : Type} {h : ℕ} (name : Name) (f : ℕ → Buffer → ℕ → ρ)
    (hc : Consistent g v o) (hg : g.Valid) (hv : View g s₀ s v) (hh : o.head h) :
    ∃ s', Fat32.readChain (searchCluster s.partition name f) walkFuel s h false () =
      some (s', match locate g v.data name (h :: o.tail h) with
        | some (c, i) => .inl (f c (v.data c) i)
        | none => .inr ()) ∧ View g s₀ s' v := by
  obtain ⟨s', hread, hv'⟩ := hc.readChain () hg hv hh
  refine ⟨s', ?_, hv'⟩
  rw [hread, overChain_search f hv.entriesPerCluster_eq]

theorem View.fat32FindEntry {h : ℕ} {name : Name} (hv : View g s₀ s v) (hg : g.Valid)
    (hc : Consistent g v o) (hh : o.head h) (hn : name ≠ []) :
    ∃ s', fat32FindEntry s name h = some (s', (locate g v.data name (h :: o.tail h)).map
      (fun ci => slot (v.data ci.1) ci.2)) ∧ View g s₀ s' v := by
  obtain ⟨s', hread, hv'⟩ := hc.search name (fun _ b x => slot b x) hg hv hh
  refine ⟨s', ?_, hv'⟩
  rw [Fat32.fat32FindEntry, if_neg hn, hread]
  cases locate g v.data name (h :: o.tail h) with
  | none => rfl
  | some ci => rfl

theorem fat32FindEntry_zero (s : State) (name : Name) :
    fat32FindEntry s name 0 = some (s, none) := by
  rw [fat32FindEntry, readChain_zero]
  split_ifs <;> rfl

/-- The entries agree on everything that the search looks at, and on being a directory. -/
structure SameName (e e' : Buffer) : Prop where
  notLfn : isLfn e = false
  isLfn : isLfn e' = false
  isDirectory : isDirectory e' = isDirectory e
  bytes : ∀ j < 13, j ≠ 11 → e' j = e j

theorem SameName.parseSfnEntry {e e' : Buffer} (h : SameName e e') :
    parseSfnEntry e' = parseSfnEntry e := by
  have hbase : sfnBase e' = sfnBase e := by
    rw [sfnBase, sfnBase, List.map_congr_left]
    intro i hi
    have := List.mem_range.mp hi
    exact h.bytes i (by omega) (by omega)
  have hext : sfnExtension e' = sfnExtension e := by
    rw [sfnExtension, sfnExtension, List.map_congr_left]
    intro i hi
    have := List.mem_range.mp hi
    exact h.bytes (8 + i) (by omega) (by omega)
  rw [Fat32.parseSfnEntry, Fat32.parseSfnEntry, hbase, hext, h.bytes 12 (by decide) (by decide),
    h.bytes 8 (by decide) (by decide)]

theorem SameName.slotKind {e e' : Buffer} (h : SameName e e') : slotKind e' = slotKind e := by
  rw [Fat32.slotKind, Fat32.slotKind, h.isLfn, h.notLfn, isFree, isFree,
    h.bytes 0 (by decide) (by decide)]

theorem SameName.parseSlot {e e' : Buffer} (h : SameName e e') (name : Name) (mode : ParseMode) :
    parseSlot name e' mode = parseSlot name e mode := by
  cases mode with
  | normal =>
    rw [Fat32.parseSlot, Fat32.parseSlot, h.isLfn, h.notLfn, h.parseSfnEntry]
    simp only [Bool.false_eq_true, false_and, if_false]
  | lfn k chars =>
    cases k with
    | zero => rfl
    | succ k =>
      rw [Fat32.parseSlot, Fat32.parseSlot, h.isLfn, h.notLfn, h.parseSfnEntry]
      simp only [Bool.false_eq_true, if_false]

theorem findSlot_congr {b b' : Buffer} {n x : ℕ}
    (h : ∀ k, k < x + n → slot b' k = slot b k ∨ SameName (slot b k) (slot b' k)) (name : Name)
    (mode : ParseMode) : findSlot name b' n x mode = findSlot name b n x mode := by
  induction n generalizing x mode with
  | zero => rfl
  | succ n ih =>
    have hrest (mode : ParseMode) := ih (x := x + 1) (fun k hk => h k (by omega)) mode
    rw [findSlot, findSlot]
    rcases h x (by omega) with hx | hx
    · rw [hx]
      simp only [hrest]
    · rw [hx.bytes 0 (by decide) (by decide), hx.parseSlot]
      simp only [hrest]

theorem locate_congr {data data' : ℕ → Buffer} {l : List ℕ}
    (h : ∀ c ∈ l, ∀ k < g.slots,
      slot (data' c) k = slot (data c) k ∨ SameName (slot (data c) k) (slot (data' c) k))
    (name : Name) : locate g data' name l = locate g data name l := by
  induction l with
  | nil => rfl
  | cons c l ih =>
    rw [locate, locate, findSlot_congr (fun k hk => h c (by simp) k (by omega)),
      ih (fun d hd => h d (by simp [hd]))]

/-- The entries `names` lead from the directory `h` to the directory `k`. -/
inductive Leads (g : Geometry) (v : Vol) (o : Owners) : ℕ → List Name → ℕ → Prop
  | nil {h : ℕ} : Leads g v o h [] h
  | cons {h k c i : ℕ} {name : Name} {names : List Name}
      (hl : locate g v.data name (h :: o.tail h) = some (c, i))
      (hh : o.head (firstCluster (slot (v.data c) i)))
      (hd : o.dir (firstCluster (slot (v.data c) i)))
      (hr : Leads g v o (firstCluster (slot (v.data c) i)) names k) :
      Leads g v o h (name :: names) k

theorem Leads.head {h k : ℕ} {names : List Name} (hl : Leads g v o h names k) (hh : o.head h)
    (hd : o.dir h) : o.head k ∧ o.dir k := by
  induction hl with
  | nil => exact ⟨hh, hd⟩
  | cons _ hh' hd' _ ih => exact ih hh' hd'

theorem Leads.snoc {h k c i : ℕ} {name : Name} {names : List Name} (hl : Leads g v o h names k)
    (hk : locate g v.data name (k :: o.tail k) = some (c, i))
    (hh : o.head (firstCluster (slot (v.data c) i)))
    (hd : o.dir (firstCluster (slot (v.data c) i))) :
    Leads g v o h (names ++ [name]) (firstCluster (slot (v.data c) i)) := by
  induction hl with
  | nil => exact .cons hk hh hd .nil
  | cons hl hh' hd' _ ih => exact .cons hl hh' hd' (ih hk)

/-- The way depends on the directories only. An entry without a first cluster is not on it. -/
theorem Leads.congr {h k : ℕ} {names : List Name} (hl : Leads g v o h names k) (hh : o.head h)
    (hd : o.dir h) (hc : Consistent g v o)
    (ho : ∀ j, o.head j → o.dir j → o'.head j ∧ o'.dir j ∧ o'.tail j = o.tail j)
    (hdata : ∀ c, o.InDir c → ∀ i < g.slots, slot (v'.data c) i = slot (v.data c) i ∨
      (SameName (slot (v.data c) i) (slot (v'.data c) i) ∧
        (firstCluster (slot (v.data c) i) = 0 ∨
          firstCluster (slot (v'.data c) i) = firstCluster (slot (v.data c) i)))) :
    Leads g v' o' h names k := by
  induction hl with
  | nil => exact .nil
  | @cons h k c i name names hl hh' hd' hr ih =>
    have hinfo := hc.infoAt hh hd hl
    have hloc : locate g v'.data name (h :: o'.tail h) = some (c, i) := by
      rw [(ho h hh hd).2.2, ← hl]
      apply locate_congr
      intro d hdm j hj
      exact (hdata d ⟨h, hh, hd, hdm⟩ j hj).imp id And.left
    have hne := hc.head_ne_zero hh'
    have hfc : firstCluster (slot (v'.data c) i) = firstCluster (slot (v.data c) i) := by
      rcases hdata c hinfo.inDir i hinfo.lt with he | ⟨-, he⟩
      · rw [he]
      · exact he.resolve_left hne
    refine .cons hloc ?_ ?_ ?_
    · rw [hfc]
      exact (ho _ hh' hd').1
    · rw [hfc]
      exact (ho _ hh' hd').2.1
    · rw [hfc]
      exact ih hh' hd'

def edited (g : Geometry) (edit : FileEdit) (attributes : Byte) (x : ℕ) (b : Buffer) (i : ℕ) :
    Buffer :=
  window (setSlot b i (edit.apply attributes x (slot b i))) 0 g.clusterBytes

theorem View.editFile_found {h k c i x : ℕ} {names : List Name} {name : Name} {edit : FileEdit}
    {attributes : Byte} (hv : View g s₀ s v) (hg : g.Valid) (hc : Consistent g v o)
    (hl : Leads g v o h names k) (hh : o.head h) (hd : o.dir h)
    (hk : locate g v.data name (k :: o.tail k) = some (c, i)) :
    ∃ s', editFile edit attributes x (names ++ [name]) s h = some (s', true) ∧
      View g s₀ s' (v.setData c (edited g edit attributes x (v.data c) i)) := by
  induction hl generalizing s with
  | nil =>
    obtain ⟨s', hread, hv'⟩ := hc.search name (fun c b x => (c, x, b)) hg hv hh
    have hin := hc.inData (hc.infoAt hh hd hk).inDir
    rw [hk] at hread
    refine ⟨_, ?_, hv'.writeCluster hg hin _⟩
    rw [List.nil_append, editFile, hread]
    rfl
  | @cons h k d j n names hl hh' hd' hr ih =>
    obtain ⟨s', hread, hv'⟩ := hc.search n (fun c b x => (c, x, b)) hg hv hh
    rw [hl] at hread
    have hne := hc.head_ne_zero hh'
    obtain ⟨s'', hedit, hv''⟩ := ih hv' hh' hd' hk
    refine ⟨s'', ?_, hv''⟩
    rw [List.cons_append, editFile, hread]
    simp only [List.append_eq_nil_iff, List.cons_ne_self, and_false, if_false, hne]
    exact hedit

theorem Geometry.clusterBytes_eq (g : Geometry) : g.clusterBytes = 32 * g.slots := by
  rw [Geometry.clusterBytes, Geometry.slots]
  omega

theorem Geometry.Valid.slots_pos (hg : g.Valid) : 0 < g.slots := by
  have := hg.clusterSize
  rw [Geometry.slots]
  omega

section Edited

variable {edit : FileEdit} {attributes : Byte} {x i k : ℕ} {b e : Buffer}

theorem slot_edited (hk : k < g.slots) : slot (edited g edit attributes x b i) k =
    if k = i then window (edit.apply attributes x (slot b i)) 0 32 else slot b k := by
  rw [edited, g.clusterBytes_eq, slot_window hk]
  split_ifs with hki
  · rw [hki, slot_setSlot_self]
  · exact slot_setSlot_of_ne hki

/-- The new attributes are not those of a long name, and the entry stays a directory or a file. -/
def FileEdit.AttributesOk (edit : FileEdit) (attributes : Byte) (e : Buffer) : Prop :=
  edit.attributes = true → attributes &&& 0xF ≠ 0xF ∧ (attributes &&& 0x10 != 0) = isDirectory e

instance (edit : FileEdit) (attributes : Byte) (e : Buffer) :
    Decidable (edit.AttributesOk attributes e) := inferInstanceAs (Decidable (_ → _))

theorem apply_attributes (edit : FileEdit) (attributes : Byte) (x : ℕ) (e : Buffer) :
    edit.apply attributes x e 11 = if edit.attributes then attributes else e 11 := by
  rw [FileEdit.apply]
  split_ifs <;> simp [setLE_of_not_mem, setLE_byte]

theorem sameName_apply (x : ℕ) (hl : isLfn e = false) (hedit : edit.AttributesOk attributes e) :
    SameName e (window (edit.apply attributes x e) 0 32) := by
  have hattr := apply_attributes edit attributes x e
  refine ⟨hl, ?_, ?_, fun j hj hj' => ?_⟩
  · rw [Fat32.isLfn, window_apply (by decide), hattr]
    split_ifs with h
    · exact beq_eq_false_iff_ne.mpr (hedit h).1
    · exact hl
  · rw [Fat32.isDirectory, window_apply (by decide), hattr]
    split_ifs with h
    · exact (hedit h).2
    · rfl
  · rw [window_apply (by omega), FileEdit.apply]
    split_ifs <;>
      simp only [setLE_of_not_mem _ (show j < 28 ∨ 28 + 4 ≤ j by omega),
        setLE_of_not_mem _ (show j < 26 ∨ 26 + 2 ≤ j by omega),
        setLE_of_not_mem _ (show j < 20 ∨ 20 + 2 ≤ j by omega),
        setLE_of_not_mem _ (show j < 11 ∨ 11 + 1 ≤ j by omega)]

theorem firstCluster_editCluster (hx : x < 2 ^ 32) :
    firstCluster (editCluster.apply attributes x e) = x := by
  change getLE (setLE (setLE e 26 2 x) 20 2 (x / 2 ^ 16)) 26 2 +
    2 ^ 16 * getLE (setLE (setLE e 26 2 x) 20 2 (x / 2 ^ 16)) 20 2 = x
  rw [getLE_setLE_of_disjoint _ (by decide), getLE_setLE_self, getLE_setLE_self]
  omega

theorem fileSize_editCluster : fileSize (editCluster.apply attributes x e) = fileSize e := by
  change getLE (setLE (setLE e 26 2 x) 20 2 (x / 2 ^ 16)) 28 4 = getLE e 28 4
  rw [getLE_setLE_of_disjoint _ (by decide), getLE_setLE_of_disjoint _ (by decide)]

theorem firstCluster_editFileSize :
    firstCluster (editFileSize.apply attributes x e) = firstCluster e := by
  change getLE (setLE e 28 4 x) 26 2 + 2 ^ 16 * getLE (setLE e 28 4 x) 20 2 = _
  rw [getLE_setLE_of_disjoint _ (by decide), getLE_setLE_of_disjoint _ (by decide)]
  rfl

theorem fileSize_editFileSize (hx : x < 2 ^ 32) :
    fileSize (editFileSize.apply attributes x e) = x := by
  change getLE (setLE e 28 4 x) 28 4 = x
  rw [getLE_setLE_self]
  exact Nat.mod_eq_of_lt (by omega)

end Edited

theorem isLfn_of_info {e : Buffer} (h : slotKind e = .info) : isLfn e = false := by
  cases hl : isLfn e with
  | false => rfl
  | true =>
    rw [slotKind, hl, if_pos rfl] at h
    split_ifs at h

theorem Consistent.edit {c i x : ℕ} {edit : FileEdit} {attributes : Byte} (hc : Consistent g v o)
    (hi : InfoAt g v o c i) (hedit : edit.AttributesOk attributes (slot (v.data c) i))
    (hentry : EntryOk g o (edit.apply attributes x (slot (v.data c) i)))
    (hlink : firstCluster (edit.apply attributes x (slot (v.data c) i)) =
        firstCluster (slot (v.data c) i) ∨
      ∀ d j, InfoAt g v o d j → firstCluster (slot (v.data d) j) ≠
        firstCluster (edit.apply attributes x (slot (v.data c) i))) :
    Consistent g (v.setData c (edited g edit attributes x (v.data c) i)) o := by
  have hsame := sameName_apply x (isLfn_of_info hi.info) hedit
  have hkind (k : ℕ) (hk : k < g.slots) :
      slotKind (slot (edited g edit attributes x (v.data c) i) k) =
      slotKind (slot (v.data c) k) := by
    rw [slot_edited hk]
    split_ifs with hki
    · rw [hsame.slotKind, hki]
    · rfl
  apply hc.setData ((hc.slots c hi.inDir).congr hkind)
  intro k hk hinfo
  have hold : InfoAt g v o c k := ⟨hi.inDir, hk, by rw [← hkind k hk]; exact hinfo⟩
  by_cases hki : k = i
  · subst hki
    have hslot : slot (edited g edit attributes x (v.data c) k) k =
        window (edit.apply attributes x (slot (v.data c) k)) 0 32 := by
      rw [slot_edited hk, if_pos rfl]
    refine ⟨?_, ?_⟩
    · rw [hslot]
      simpa only [EntryOk, firstCluster_window, isDirectory_window, fileSize_window] using hentry
    · rw [LinkOk, hslot, firstCluster_window]
      rcases hlink with hsame' | hnew
      · exact Or.inr (Or.inl ⟨hold, hsame'.symm⟩)
      · refine Or.inr (Or.inr ⟨hnew, ?_⟩)
        intro j hj hjinfo hje
        by_contra hjk
        rw [slot_edited hj, if_neg hjk] at hje
        exact hnew c j ⟨hi.inDir, hj, by rw [← hkind j hj]; exact hjinfo⟩ hje
  · have hslot : slot (edited g edit attributes x (v.data c) i) k = slot (v.data c) k := by
      rw [slot_edited hk, if_neg hki]
    refine ⟨by rw [hslot]; exact hc.entries c k hold, Or.inr (Or.inl ⟨hold, ?_⟩)⟩
    rw [hslot]

/-- The entries that a path can have. -/
structure ValidName (name : Name) : Prop where
  ne_nil : name ≠ []
  char : ∀ c ∈ name, c ≠ 0 ∧ isSeparator c = false

theorem fat32ParsePath_valid {path name rest : Name} (h : fat32ParsePath path = some (name, rest)) :
    ValidName name := by
  rw [fat32ParsePath] at h
  split_ifs at h with hp
  simp only [Option.some.injEq, Prod.mk.injEq] at h
  obtain ⟨rfl, -⟩ := h
  constructor
  · cases hd : (path.takeWhile (fun c => decide (c ≠ 0))).dropWhile isSeparator with
    | nil => exact absurd hd hp
    | cons c l =>
      have hc : isSeparator c = false := by
        have := List.head_dropWhile_not isSeparator (by rw [hd]; simp)
        simpa only [hd, List.head_cons] using this
      rw [List.takeWhile_cons, hc]
      simp
  · intro c hc
    have hsep := List.mem_takeWhile_imp hc
    have hmem := (List.dropWhile_sublist _).subset ((List.takeWhile_sublist _).subset hc)
    have hzero := List.mem_takeWhile_imp hmem
    exact ⟨by simpa using hzero, by simpa using hsep⟩

theorem pathEntries_valid (n : ℕ) (path : Name) : ∀ name ∈ pathEntries n path, ValidName name := by
  induction n generalizing path with
  | zero => simp [pathEntries]
  | succ n ih =>
    intro name hm
    rw [pathEntries] at hm
    cases hp : fat32ParsePath path with
    | none =>
      rw [hp] at hm
      cases hm
    | some nr =>
      rw [hp] at hm
      rcases List.mem_cons.mp hm with rfl | hm
      · exact fat32ParsePath_valid hp
      · split_ifs at hm
        · cases hm
        · exact ih nr.2 name hm

theorem entriesOf_valid (path : Name) : ∀ name ∈ entriesOf path, ValidName name :=
  pathEntries_valid path.length path

/-- What is left of `ResultPath` after its first separator. -/
def restPath : List Name → Name
  | [] => []
  | name :: names => name ++ resultPath names

theorem dropWhile_resultPath {names : List Name} (h : ∀ n ∈ names, ValidName n) :
    (resultPath names).dropWhile isSeparator = restPath names := by
  cases names with
  | nil => rfl
  | cons name names =>
    obtain ⟨hne, hchar⟩ := h name (by simp)
    cases name with
    | nil => exact absurd rfl hne
    | cons c cs =>
      have hc := (hchar c (by simp)).2
      change List.dropWhile isSeparator (0x2F :: ((c :: cs) ++ resultPath names)) = _
      rw [List.dropWhile_cons_of_pos (by decide), List.cons_append,
        List.dropWhile_cons_of_neg (by simp [hc])]
      rfl

theorem fat32ParsePath_resultPath {name path : Name} {names : List Name} (hn : ValidName name)
    (h : ∀ n ∈ names, ValidName n)
    (hp : path = name ++ resultPath names ∨ path = 0x2F :: (name ++ resultPath names)) :
    fat32ParsePath path = some (name, restPath names) := by
  have hzero : ∀ c ∈ resultPath (name :: names), c ≠ 0 := by
    intro c hc
    obtain ⟨n, hnm, hcn⟩ := List.mem_flatMap.mp hc
    rcases List.mem_cons.mp hcn with rfl | hcn
    · decide
    · rcases List.mem_cons.mp hnm with rfl | hnm
      · exact (hn.char c hcn).1
      · exact ((h n hnm).char c hcn).1
  have hall : ∀ c ∈ path, c ≠ 0 := by
    intro c hc
    apply hzero
    rcases hp with rfl | rfl
    · exact List.mem_cons_of_mem _ hc
    · exact hc
  have htake : path.takeWhile (fun c => decide (c ≠ 0)) = path :=
    List.takeWhile_eq_self_iff.mpr (fun c hc => decide_eq_true (hall c hc))
  have hdrop : path.dropWhile isSeparator = name ++ resultPath names := by
    have hd : (resultPath (name :: names)).dropWhile isSeparator = restPath (name :: names) :=
      dropWhile_resultPath (by simpa using ⟨hn, h⟩)
    rcases hp with rfl | rfl
    · change List.dropWhile isSeparator (0x2F :: (name ++ resultPath names)) = _ at hd
      rwa [List.dropWhile_cons_of_pos (by decide)] at hd
    · exact hd
  have hname : ∀ c ∈ name, (!isSeparator c) = true := fun c hc => by simp [(hn.char c hc).2]
  have hsplit : (name ++ resultPath names).takeWhile (fun c => !isSeparator c) = name ∧
      (name ++ resultPath names).dropWhile (fun c => !isSeparator c) = resultPath names := by
    rw [List.takeWhile_append_of_pos hname, List.dropWhile_append_of_pos hname]
    cases names with
    | nil => simp [resultPath]
    | cons m names =>
      change name ++ List.takeWhile _ (0x2F :: (m ++ resultPath names)) = name ∧
        List.dropWhile _ (0x2F :: (m ++ resultPath names)) = _
      rw [List.takeWhile_cons_of_neg (by decide), List.dropWhile_cons_of_neg (by decide)]
      exact ⟨List.append_nil _, rfl⟩
  rw [fat32ParsePath]
  simp only [htake, hdrop, hsplit.1, hsplit.2, dropWhile_resultPath h]
  rw [if_neg]
  intro he
  exact hn.ne_nil (List.append_eq_nil_iff.mp he).1

theorem pathEntries_restPath {n : ℕ} {name path : Name} {names : List Name} (hn : names.length < n)
    (hv : ∀ m ∈ name :: names, ValidName m)
    (hp : path = name ++ resultPath names ∨ path = 0x2F :: (name ++ resultPath names)) :
    pathEntries n path = name :: names := by
  induction n generalizing name names path with
  | zero => omega
  | succ n ih =>
    rw [pathEntries, fat32ParsePath_resultPath (hv name (by simp))
      (fun m hm => hv m (by simp [hm])) hp]
    cases names with
    | nil => rfl
    | cons m names =>
      have hne : restPath (m :: names) ≠ [] := fun he =>
        (hv m (by simp)).ne_nil (List.append_eq_nil_iff.mp he).1
      have hrest : pathEntries n (restPath (m :: names)) = m :: names :=
        ih (by simpa using hn) (fun k hk => hv k (List.mem_cons_of_mem _ hk)) (Or.inl rfl)
      simp only [if_neg hne, hrest]

theorem entriesOf_resultPath {names : List Name} (hv : ∀ m ∈ names, ValidName m) :
    entriesOf (resultPath names) = names := by
  have hlen (l : List Name) : l.length ≤ (resultPath l).length := by
    induction l with
    | nil => exact Nat.le_refl 0
    | cons m l ih =>
      change l.length + 1 ≤ (0x2F :: m ++ resultPath l).length
      simp only [List.length_append, List.length_cons]
      omega
  cases names with
  | nil => rfl
  | cons name names =>
    apply pathEntries_restPath _ hv (Or.inr rfl)
    have := hlen (name :: names)
    rw [List.length_cons] at this
    omega

/-- The volume after an edit of the slot `i` of the cluster `c`. -/
def Vol.edit (v : Vol) (g : Geometry) (edit : FileEdit) (attributes : Byte) (x c i : ℕ) : Vol :=
  v.setData c (edited g edit attributes x (v.data c) i)

/-- The edit of the entry at the end of a path keeps the volume consistent, and the path leads to
the same entry after it. -/
theorem View.edit_path {k c i : ℕ} {parents : List Name} {name path : Name} (edit : FileEdit)
    (attributes : Byte) (x : ℕ) (hv : View g s₀ s v) (hg : g.Valid) (hc : Consistent g v o)
    (hl : Leads g v o rootDirStart parents k)
    (hk : locate g v.data name (k :: o.tail k) = some (c, i))
    (hp : entriesOf path = parents ++ [name])
    (hedit : edit.AttributesOk attributes (slot (v.data c) i))
    (hset : edit.attributes = true ∨ edit.cluster = true ∨ edit.fileSize = true)
    (hentry : EntryOk g o (edit.apply attributes x (slot (v.data c) i)))
    (hlink : firstCluster (edit.apply attributes x (slot (v.data c) i)) =
        firstCluster (slot (v.data c) i) ∨
      firstCluster (slot (v.data c) i) = 0 ∧ ∀ d j, InfoAt g v o d j →
        firstCluster (slot (v.data d) j) ≠
          firstCluster (edit.apply attributes x (slot (v.data c) i))) :
    ∃ s', fat32EditFile s path edit attributes x = some (s', true) ∧
      View g s₀ s' (v.edit g edit attributes x c i) ∧
      Consistent g (v.edit g edit attributes x c i) o ∧
      Leads g (v.edit g edit attributes x c i) o rootDirStart parents k ∧
      locate g (v.edit g edit attributes x c i).data name (k :: o.tail k) = some (c, i) ∧
      slot ((v.edit g edit attributes x c i).data c) i =
        window (edit.apply attributes x (slot (v.data c) i)) 0 32 := by
  obtain ⟨hkh, hkd⟩ := hl.head hc.root hc.rootDir
  have hi := hc.infoAt hkh hkd hk
  have hsame := sameName_apply x (isLfn_of_info hi.info) hedit
  obtain ⟨s', hrun, hv'⟩ := hv.editFile_found hg hc hl hc.root hc.rootDir hk
  have hdata (d j : ℕ) (hj : j < g.slots) :
      slot ((v.edit g edit attributes x c i).data d) j = slot (v.data d) j ∨
      (SameName (slot (v.data d) j) (slot ((v.edit g edit attributes x c i).data d) j) ∧
        (firstCluster (slot (v.data d) j) = 0 ∨
          firstCluster (slot ((v.edit g edit attributes x c i).data d) j) =
            firstCluster (slot (v.data d) j))) := by
    rw [Vol.edit]
    by_cases hdc : d = c
    · subst hdc
      rw [Vol.setData_self, slot_edited hj]
      split_ifs with hji
      · subst hji
        refine Or.inr ⟨hsame, ?_⟩
        rw [firstCluster_window]
        rcases hlink with hl | ⟨h0, -⟩
        · exact Or.inr hl
        · exact Or.inl h0
      · exact Or.inl rfl
    · rw [Vol.setData_of_ne hdc]
      exact Or.inl rfl
  refine ⟨s', ?_, hv', hc.edit hi hedit hentry (hlink.imp id And.right), ?_, ?_, ?_⟩
  · rw [fat32EditFile, if_neg, hp, hrun]
    rintro ⟨h1, h2, h3⟩
    rcases hset with h | h | h
    · exact h1 h
    · exact h2 h
    · exact h3 h
  · exact hl.congr hc.root hc.rootDir hc (fun j h1 h2 => ⟨h1, h2, rfl⟩)
      (fun d _ j hj => hdata d j hj)
  · rw [← hk]
    exact locate_congr (fun d _ j hj => (hdata d j hj).imp id And.left) name
  · rw [Vol.edit, Vol.setData_self, slot_edited hi.lt, if_pos rfl]

end DevOs.Fat32
