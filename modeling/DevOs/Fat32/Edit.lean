import DevOs.Fat32.Frame

/-!
# An edit changes the entry that is reported

`Fat32GetFileInformation` and `Fat32EditFile` look a path up on their own. Both follow the same
entries, so the cluster that is written back is the one that the entry was read from, with other
bytes in the fields of the entry only.
-/

namespace DevOs.Fat32

open Bytes

variable {s t : State} {name path : Name} {names : List Name} {k c x i n : ℕ} {b : Buffer}

def Cached (s t : State) : Prop :=
  ∃ x b, t = { s with partition := { s.partition with fatSectorNumber := x, fatSector := b } }

theorem Cached.refl (s : State) : Cached s s :=
  ⟨s.partition.fatSectorNumber, s.partition.fatSector, rfl⟩

theorem Cached.trans {r : State} (h : Cached r s) (h' : Cached s t) : Cached r t := by
  obtain ⟨x, b, rfl⟩ := h
  obtain ⟨x', b', rfl⟩ := h'
  exact ⟨x', b', rfl⟩

theorem Cached.disk (h : Cached s t) : t.disk = s.disk := by
  obtain ⟨x, b, rfl⟩ := h
  rfl

theorem Cached.writes (h : Cached s t) : t.writes = s.writes := by
  obtain ⟨x, b, rfl⟩ := h
  rfl

theorem Cached.clusterSector (h : Cached s t) (c : ℕ) :
    t.partition.clusterSector c = s.partition.clusterSector c := by
  obtain ⟨x, b, rfl⟩ := h
  rfl

theorem Cached.data (h : Cached s t) : t.data = s.data := by
  obtain ⟨x, b, rfl⟩ := h
  rfl

theorem Cached.boot (h : Cached s t) : t.partition.boot = s.partition.boot := by
  obtain ⟨x, b, rfl⟩ := h
  rfl

theorem cached_fatEntry (s : State) (c : ℕ) : Cached s (s.fatEntry c).1 := by
  rw [State.fatEntry]
  dsimp only
  split_ifs
  · exact ⟨_, _, rfl⟩
  · exact .refl s

theorem fat32ReadCluster_success {ended : Bool}
    (h : (fat32ReadCluster s c ended b).status = .success) :
    2 ≤ c ∧ (fat32ReadCluster s c ended b).buffer = s.data c ∧
    Cached s (fat32ReadCluster s c ended b).state := by
  rw [fat32ReadCluster] at h ⊢
  by_cases hended : ended = true
  · rw [if_pos hended] at h
    cases h
  by_cases hlt : c < 2
  · rw [if_neg hended, if_pos hlt] at h
    cases h
  · rw [if_neg hended, if_neg hlt]
    have hcached := cached_fatEntry s c
    refine ⟨Nat.not_lt.mp hlt, ?_, hcached⟩
    rw [← hcached.data]
    rfl

theorem fat32ReadCluster_failure {ended : Bool}
    (h : (fat32ReadCluster s c ended b).status ≠ .success) :
    (fat32ReadCluster s c ended b).state = s := by
  rw [fat32ReadCluster] at h ⊢
  by_cases hended : ended = true
  · rw [if_pos hended]
  by_cases hlt : c < 2
  · rw [if_neg hended, if_pos hlt]
  · rw [if_neg hended, if_neg hlt] at h
    exact absurd rfl h

theorem fatEntry_lt (s : State) (c : ℕ) : (s.fatEntry c).2 < 2 ^ 32 := getLE_lt _ _ 4

theorem fat32ReadCluster_next {ended : Bool}
    (h : (fat32ReadCluster s c ended b).status = .success) :
    (fat32ReadCluster s c ended b).state = (s.fatEntry c).1 ∧
      (c < 2 ^ 32 → (fat32ReadCluster s c ended b).cluster < 2 ^ 32) := by
  rw [fat32ReadCluster] at h ⊢
  by_cases hended : ended = true
  · rw [if_pos hended] at h
    cases h
  by_cases hlt : c < 2
  · rw [if_neg hended, if_pos hlt] at h
    cases h
  · rw [if_neg hended, if_neg hlt]
    refine ⟨rfl, fun hc => ?_⟩
    change (if (s.fatEntry c).2 = endOfChain then c else (s.fatEntry c).2) < 2 ^ 32
    split_ifs
    · exact hc
    · exact fatEntry_lt s c

/-- A loop over a chain: what every lookup in the FAT keeps holds behind the loop, and what holds
behind a lookup holds of the cluster where the loop ends. -/
theorem readChain_rule {σ ρ : Type} {body : ℕ → Buffer → σ → ρ ⊕ σ} {I : State → Prop}
    {Q : State → ℕ → Prop} {ended : Bool} {acc : σ} {r : ρ ⊕ σ}
    (hentry : ∀ s c, c < 2 ^ 32 → I s → I (s.fatEntry c).1 ∧ Q (s.fatEntry c).1 c) (hc : c < 2 ^ 32)
    (hs : I s) (h : readChain body n s c ended acc = some (t, r)) :
    Cached s t ∧ I t ∧ ∀ res, r = .inl res → ∃ d acc', 2 ≤ d ∧ Q t d ∧
    body d (s.data d) acc' = .inl res := by
  induction n generalizing s c ended acc with
  | zero => cases h
  | succ n ih =>
    rw [readChain] at h
    split_ifs at h with hst
    · obtain ⟨h2, hbuf, hcached⟩ := fat32ReadCluster_success hst
      obtain ⟨hstate, hnext⟩ := fat32ReadCluster_next hst
      obtain ⟨hI, hQ⟩ := hentry s c hc hs
      rw [← hstate] at hI hQ
      rw [hbuf] at h
      cases hres : body c (s.data c) acc with
      | inl res =>
        rw [hres] at h
        cases h
        exact ⟨hcached, hI, fun res' hr => ⟨c, acc, h2, hQ, by cases hr; exact hres⟩⟩
      | inr acc' =>
        rw [hres] at h
        obtain ⟨hrest, hI', hfound⟩ := ih (hnext hc) hI h
        rw [hcached.data] at hfound
        exact ⟨hcached.trans hrest, hI', hfound⟩
    · cases h
      rw [fat32ReadCluster_failure hst]
      exact ⟨.refl s, hs, fun res hr => by cases hr⟩

theorem firstCluster_lt (e : Buffer) : firstCluster e < 2 ^ 32 := by
  have hlow := getLE_lt e 26 2
  have hhigh := getLE_lt e 20 2
  rw [firstCluster]
  omega

def place (c : ℕ) (_ : Buffer) (x : ℕ) : ℕ × ℕ := (c, x)

theorem readChain_search {ρ : Type} (p : Partition) (name : Name) (found : ℕ → Buffer → ℕ → ρ)
    (n : ℕ) (s : State) (c : ℕ) (ended : Bool) :
    readChain (searchCluster p name found) n s c ended () =
      (readChain (searchCluster p name place) n s c ended ()).map fun r =>
        (r.1, r.2.map (fun ci => found ci.1 (r.1.data ci.1) ci.2) id) := by
  induction n generalizing s c ended with
  | zero => rfl
  | succ n ih =>
    rw [readChain, readChain]
    split_ifs with hst
    · obtain ⟨-, hbuf, hcached⟩ := fat32ReadCluster_success hst
      rw [hbuf, searchCluster, searchCluster]
      cases hfind : fat32FindDirectoryClusterEntry p name (s.data c) with
      | some x =>
        dsimp only [Option.map_some, Sum.map_inl, place]
        rw [hcached.data]
      | none => exact ih _ _ _
    · rfl

def entryPlace : List Name → State → ℕ → Option (State × Option (ℕ × ℕ))
  | [], s, _ => some (s, none)
  | name :: names, s, cluster =>
    match readChain (searchCluster s.partition name place) walkFuel s cluster false () with
    | none => none
    | some (s, .inr ()) => some (s, none)
    | some (s, .inl (c, i)) =>
      if names = [] then some (s, some (c, i))
      else entryPlace names s (firstCluster (slot (s.data c) i))

theorem entryPlace_zero (names : List Name) (s : State) :
    entryPlace names s 0 = some (s, none) := by
  cases names with
  | nil => rfl
  | cons name names => rw [entryPlace, readChain_zero]

theorem findSlot_lt {b : Buffer} {mode : ParseMode} (h : findSlot name b n x mode = some i) :
    i < x + n := by
  induction n generalizing x mode with
  | zero => cases h
  | succ n ih =>
    rw [findSlot] at h
    split_ifs at h
    · have := ih h
      omega
    · split at h
      · cases h
        omega
      · have := ih h
        omega

theorem entryPlace_rule {I : State → Prop} {Q : State → ℕ → Prop} {r : Option (ℕ × ℕ)}
    (hentry : ∀ s c, c < 2 ^ 32 → I s → I (s.fatEntry c).1 ∧ Q (s.fatEntry c).1 c) (hk : k < 2 ^ 32)
    (hs : I s) (h : entryPlace names s k = some (t, r)) :
    Cached s t ∧ I t ∧ ∀ c i, r = some (c, i) → 2 ≤ c ∧ Q t c ∧
    i < s.partition.entriesPerCluster := by
  induction names generalizing s k with
  | nil =>
    cases h
    exact ⟨.refl _, hs, fun c i hr => by cases hr⟩
  | cons name names ih =>
    have hbody {c : ℕ} {b : Buffer} {acc : Unit} {ci : ℕ × ℕ}
        (hres : searchCluster s.partition name place c b acc = .inl ci) :
        ci.1 = c ∧ ci.2 < s.partition.entriesPerCluster := by
      rw [searchCluster] at hres
      split at hres
      · rename_i i hfind
        cases hres
        rw [fat32FindDirectoryClusterEntry] at hfind
        have hlt := findSlot_lt hfind
        rw [Nat.zero_add] at hlt
        exact ⟨rfl, hlt⟩
      · cases hres
    rw [entryPlace] at h
    split at h
    · cases h
    · rename_i s₁ hread
      cases h
      obtain ⟨hcached, hI, -⟩ := readChain_rule hentry hk hs hread
      exact ⟨hcached, hI, fun c i hr => by cases hr⟩
    · rename_i s₁ c i hread
      obtain ⟨hcached, hI, hfound⟩ := readChain_rule hentry hk hs hread
      obtain ⟨d, acc, hd, hQ, hres⟩ := hfound _ rfl
      obtain ⟨rfl, hi⟩ := hbody hres
      split_ifs at h with hlast
      · cases h
        exact ⟨hcached, hI, fun c' i' hr => by cases hr; exact ⟨hd, hQ, hi⟩⟩
      · obtain ⟨hcached', hI', hplace⟩ := ih (firstCluster_lt _) hI h
        refine ⟨hcached.trans hcached', hI', ?_⟩
        rw [Partition.entriesPerCluster, Partition.clusterBytes, hcached.boot] at hplace
        exact hplace

theorem entryPlace_spec {r : Option (ℕ × ℕ)} (hk : k < 2 ^ 32)
    (h : entryPlace names s k = some (t, r)) :
    Cached s t ∧ ∀ c i, r = some (c, i) → 2 ≤ c ∧ i < s.partition.entriesPerCluster := by
  obtain ⟨hcached, -, hplace⟩ := entryPlace_rule (I := fun _ => True) (Q := fun _ _ => True)
    (fun _ _ _ _ => ⟨trivial, trivial⟩) hk trivial h
  exact ⟨hcached, fun c i hr => ⟨(hplace c i hr).1, (hplace c i hr).2.2⟩⟩

/-- What `Fat32GetFileInformation` reports of an entry. -/
structure Reported (info : FileInformation) (e : Buffer) : Prop where
  clusterStart : info.clusterStart = firstCluster e
  fatAttributes : info.fatAttributes = e 11
  fileSize : info.fileSize = fileSize e

theorem getFileInformation_eq (hvalid : ∀ n ∈ names, n ≠ []) (s : State) (k : ℕ) :
    match entryPlace names s k with
    | none => getFileInformation names s k = none
    | some (t, none) => getFileInformation names s k = some (t, none)
    | some (t, some (c, i)) =>
      ∃ info, getFileInformation names s k = some (t, some info) ∧
          Reported info (slot (t.data c) i) := by
  induction names generalizing s k with
  | nil => rfl
  | cons name names ih =>
    rw [getFileInformation, entryPlace, fat32FindEntry,
      if_neg (hvalid name (List.mem_cons_self ..)), readChain_search _ _ fun _ b x => slot b x]
    cases readChain (searchCluster s.partition name place) walkFuel s k false () with
    | none => rfl
    | some r =>
      obtain ⟨s₁, ⟨c, i⟩ | ⟨⟩⟩ := r
      · dsimp only [Option.map_some, Sum.map_inl, Sum.getLeft?_inl]
        split_ifs
        · exact ⟨_, rfl, rfl, rfl, rfl⟩
        · exact ih (fun n hn => hvalid n (List.mem_cons_of_mem _ hn)) s₁ _
      · rfl

theorem editFile_eq (edit : FileEdit) (attributes : Byte) (x : ℕ) (names : List Name) (s : State)
    (k : ℕ) :
    editFile edit attributes x names s k = (entryPlace names s k).map fun r =>
      match r.2 with
      | none => (r.1, false)
      | some (c, i) => (fat32WriteCluster r.1 c
          (setSlot (r.1.data c) i (edit.apply attributes x (slot (r.1.data c) i))), true) := by
  induction names generalizing s k with
  | nil => rfl
  | cons name names ih =>
    rw [editFile, entryPlace, readChain_search _ _ fun c b x => (c, x, b)]
    cases readChain (searchCluster s.partition name place) walkFuel s k false () with
    | none => rfl
    | some r =>
      obtain ⟨s₁, ⟨c, i⟩ | ⟨⟩⟩ := r
      · dsimp only [Option.map_some, Sum.map_inl]
        split_ifs with hlast h0
        · rfl
        · rw [h0, entryPlace_zero]
          rfl
        · exact ih s₁ _
      · rfl

def FileEdit.touches (edit : FileEdit) (j : ℕ) : Prop :=
  (edit.attributes = true ∧ j = 11) ∨ (edit.cluster = true ∧ (j = 20 ∨ j = 21 ∨ j = 26 ∨ j = 27)) ∨
    (edit.fileSize = true ∧ 28 ≤ j ∧ j < 32)

theorem ite_byte {p : Prop} [Decidable p] {b b' : Buffer} {j : ℕ} (h : p → b' j = b j) :
    (if p then b' else b) j = b j := by
  split_ifs with hp
  · exact h hp
  · rfl

section Apply

variable {edit : FileEdit} {j : ℕ}

theorem apply_of_not_touches (h : ¬ edit.touches j) (attributes : Byte) (x : ℕ) (e : Buffer) :
    edit.apply attributes x e j = e j := by
  rw [FileEdit.touches, not_or, not_or, not_and, not_and, not_and] at h
  obtain ⟨hattr, hcluster, hsize⟩ := h
  rw [FileEdit.apply]
  rw [ite_byte, ite_byte, ite_byte]
  · intro ha
    have := hattr ha
    exact setLE_of_not_mem _ (by omega)
  · intro hc
    have := hcluster hc
    rw [setLE_of_not_mem _ (by omega), setLE_of_not_mem _ (by omega)]
  · intro hs
    have := hsize hs
    exact setLE_of_not_mem _ (by omega)

theorem apply_cluster (h : edit.cluster = true) (attributes : Byte) (x : ℕ) (e : Buffer) :
    getLE (edit.apply attributes x e) 26 2 = x % 2 ^ 16 ∧
      getLE (edit.apply attributes x e) 20 2 = x / 2 ^ 16 % 2 ^ 16 := by
  have hsize (o : ℕ) (ho : o + 2 ≤ 28) (b : Buffer) :
      getLE (if edit.fileSize = true then setLE b 28 4 x else b) o 2 = getLE b o 2 := by
    split_ifs
    · exact getLE_setLE_of_disjoint _ (Or.inl ho)
    · rfl
  rw [FileEdit.apply]
  rw [hsize 26 (by decide), hsize 20 (by decide), if_pos h, getLE_setLE_of_disjoint _ (by decide),
    getLE_setLE_self, getLE_setLE_self]
  exact ⟨rfl, rfl⟩

theorem apply_fileSize (h : edit.fileSize = true) (attributes : Byte) (x : ℕ) (e : Buffer) :
    getLE (edit.apply attributes x e) 28 4 = x % 2 ^ 32 := by
  rw [FileEdit.apply]
  rw [if_pos h, getLE_setLE_self]
  rfl

end Apply

/-- The disk after an edit of the entry at the address `a`: the fields asked for have their new
values, and the other bytes are the same. -/
structure EntryEdited (edit : FileEdit) (attributes : Byte) (x a : ℕ) (d d' : Buffer) : Prop where
  attributes : edit.attributes = true → d' (a + 11) = attributes
  cluster : edit.cluster = true → getLE d' (a + 26) 2 = x % 2 ^ 16 ∧
    getLE d' (a + 20) 2 = x / 2 ^ 16 % 2 ^ 16
  fileSize : edit.fileSize = true → getLE d' (a + 28) 4 = x % 2 ^ 32
  others : ∀ i, (∀ j, edit.touches j → i ≠ a + j) → d' i = d i

def slotAddress (p : Partition) (c i : ℕ) : ℕ := 512 * p.clusterSector c + 32 * i

theorem entryEdited_write (hc : 2 ≤ c) (hi : i < s.partition.entriesPerCluster) (edit : FileEdit)
    (attributes : Byte) (x : ℕ) : EntryEdited edit attributes x (slotAddress s.partition c i) s.disk
      (fat32WriteCluster s c
        (setSlot (s.data c) i (edit.apply attributes x (slot (s.data c) i)))).disk := by
  have hsize : 32 * i + 32 ≤ 512 * s.partition.boot.clusterSize := by
    rw [Partition.entriesPerCluster, Partition.clusterBytes] at hi
    omega
  have hslot (j : ℕ) (hj : j < 32) :
      slot (s.data c) i j = s.disk (slotAddress s.partition c i + j) := by
    rw [slot, window, if_pos hj, State.data, State.read, window, if_pos (by omega), slotAddress,
      Nat.add_assoc]
  have hin (j : ℕ) (hj : j < 32) :
      (fat32WriteCluster s c
      (setSlot (s.data c) i (edit.apply attributes x (slot (s.data c) i)))).disk
        (slotAddress s.partition c i + j) = edit.apply attributes x (slot (s.data c) i) j := by
    rw [fat32WriteCluster, if_neg (by omega), State.write_disk, copy,
      if_pos (by rw [slotAddress]; omega), setSlot, copy, if_pos (by rw [slotAddress]; omega)]
    congr 1
    rw [slotAddress]
    omega
  have hle (o n : ℕ) (h : o + n ≤ 32) :
      getLE (fat32WriteCluster s c
      (setSlot (s.data c) i (edit.apply attributes x (slot (s.data c) i)))).disk
        (slotAddress s.partition c i + o) n =
        getLE (edit.apply attributes x (slot (s.data c) i)) o n :=
    getLE_congr fun j hj => by rw [Nat.add_assoc, hin _ (by omega)]
  refine ⟨fun h => ?_, fun h => ?_, fun h => ?_, fun k hk => ?_⟩
  · rw [hin 11 (by decide), apply_attributes, if_pos h]
  · rw [hle 26 2 (by decide), hle 20 2 (by decide)]
    exact apply_cluster h _ _ _
  · rw [hle 28 4 (by decide)]
    exact apply_fileSize h _ _ _
  · by_cases hslotk : slotAddress s.partition c i ≤ k ∧ k < slotAddress s.partition c i + 32
    · obtain ⟨j, rfl⟩ := Nat.exists_eq_add_of_le hslotk.1
      rw [hin j (by omega), apply_of_not_touches fun ht => hk j ht rfl, hslot j (by omega)]
    · rw [slotAddress] at hslotk
      rw [fat32WriteCluster, if_neg (by omega), State.write_disk, copy]
      split_ifs with hcl
      · rw [setSlot, copy, if_neg (by omega), State.data, State.read, window, if_pos (by omega)]
        exact congrArg s.disk (by omega)
      · rfl

/-- `Fat32EditFile` finds what `Fat32GetFileInformation` reports, and edits it. -/
def EditsReported (s : State) (path : Name) (edit : FileEdit) (attributes : Byte) (x : ℕ) : Prop :=
  match fat32GetFileInformation s path with
  | none => fat32EditFile s path edit attributes x = none
  | some (_, none) =>
      ∃ t, fat32EditFile s path edit attributes x = some (t, false) ∧ t.disk = s.disk ∧
      t.writes = s.writes
  | some (_, some info) => ∃ t c i, fat32EditFile s path edit attributes x = some (t, true) ∧
      (entryPlace (entriesOf path) s rootDirStart).map Prod.snd = some (some (c, i)) ∧
      Reported info (slot (s.data c) i) ∧
      EntryEdited edit attributes x (slotAddress s.partition c i) s.disk t.disk

/-- An edit changes the fields that it asks for in the entry that is reported for the path, and
nothing else. When nothing is reported, nothing is written. On a volume with its chains in order the
lookup ends. -/
theorem edit_touches_entry (s : State) (path : Name) (edit : FileEdit) (attributes : Byte) (x : ℕ)
    (hedit : edit.attributes = true ∨ edit.cluster = true ∨ edit.fileSize = true) :
    EditsReported s path edit attributes x ∧
      ∀ g : Geometry, g.Valid → Loose g s →
      pathTo (fun _ => true) (entriesOf path) s rootDirStart = true →
        (fat32GetFileInformation s path).isSome = true := by
  refine ⟨?_, fun g hg hs hpath => ?_⟩
  · have hnames : ∀ n ∈ entriesOf path, n ≠ [] := fun n hn => (entriesOf_valid path n hn).ne_nil
    have hinfo := getFileInformation_eq hnames s rootDirStart
    have hrun : fat32EditFile s path edit attributes x =
        editFile edit attributes x (entriesOf path) s rootDirStart := by
      rw [fat32EditFile, if_neg]
      rintro ⟨h1, h2, h3⟩
      exact hedit.elim h1 fun h => h.elim h2 h3
    rw [EditsReported, hrun, fat32GetFileInformation, editFile_eq]
    cases hplace : entryPlace (entriesOf path) s rootDirStart with
    | none =>
      rw [hplace] at hinfo
      rw [show getFileInformation (entriesOf path) s rootDirStart = none from hinfo]
      rfl
    | some r =>
      obtain ⟨t, _ | ⟨c, i⟩⟩ := r
      · rw [hplace] at hinfo
        have hcached := (entryPlace_spec (by decide) hplace).1
        rw [show getFileInformation (entriesOf path) s rootDirStart = some (t, none) from hinfo]
        exact ⟨t, rfl, hcached.disk, hcached.writes⟩
      · rw [hplace] at hinfo
        obtain ⟨info, hinfo, hrep⟩ := hinfo
        obtain ⟨hcached, hbounds⟩ := entryPlace_spec (by decide) hplace
        obtain ⟨hc, hi⟩ := hbounds c i rfl
        rw [hcached.data] at hrep
        rw [hinfo]
        refine ⟨_, c, i, rfl, rfl, hrep, ?_⟩
        have hwrite := @entryEdited_write t c i hc
          (by
            rwa [Partition.entriesPerCluster, Partition.clusterBytes,
              hcached.boot]) edit attributes x
        rwa [slotAddress, hcached.clusterSector, hcached.disk] at hwrite
  · obtain ⟨v, o, -, hv, hc⟩ := hs
    obtain ⟨s', -, h | ⟨name, j, c, i, -, -, h, -⟩⟩ :=
      hv.getFileInformation hg hc .nil (entriesOf_valid path) hpath
    · rw [fat32GetFileInformation, h]
      rfl
    · rw [fat32GetFileInformation, h]
      rfl

/-- The size of a file that was created is edited. -/
theorem edit_touches_entry_small : ∃ s, Runs.Reaches Call.run (fun s c => fileCall s c = true)
    (fat32CreatePartition (blankDrive smallGeometry 0) smallGeometry) s ∧
    ((fat32GetFileInformation s [0x46]).bind Prod.snd).isSome = true ∧
    EditsReported s [0x46] editFileSize 0 600 := by
  obtain ⟨s, hs⟩ : ∃ s, Runs.guardedRun Call.run (fun s c => fileCall s c = true)
      (fat32CreatePartition (blankDrive smallGeometry 0) smallGeometry) [.createFile [0x46] 0x20] =
      some s :=
    Option.isSome_iff_exists.mp (by decide)
  refine ⟨s, Runs.reaches_of_guardedRun _ hs, ?_, (edit_touches_entry s [0x46] editFileSize 0 600
    (Or.inr (Or.inr rfl))).1⟩
  exact Runs.eq_of_map
    (fun s : State => ((fat32GetFileInformation s [0x46]).bind Prod.snd).isSome) hs
    (by decide)

end DevOs.Fat32
