import DevOs.Fat32.Runs
import DevOs.Fat32.Tidy

/-!
# Unique names

`Fat32CreateFile` looks up the directories on the way, and never the last entry of the path: a file
that is there is created again. The names of a directory stay unique in the runs where no call adds
a name that the directory has, and where every long name finds its slots in the directory.
-/

namespace DevOs.Fat32

open Bytes

variable {g : Geometry} {s₀ s t : State} {v v' : Vol} {o o' : Owners} {c k n : ℕ} {name : Name}
    {attributes : Byte}

def hasName (s : State) (name : Name) (cluster : ℕ) : Bool :=
  match readChain (searchCluster s.partition name
      (fun c _ x => (c, x))) walkFuel s cluster false () with
  | some (_, .inl _) => true
  | _ => false

/-- The search for the slots of a long name does not end outside of a run of free slots. -/
def findsSlots (s : State) (cluster n : ℕ) : Bool :=
  match readChain (runCluster (n + 1) s.partition.entriesPerCluster) walkFuel s cluster false ⟨0, 0,
      0⟩ with
  | some (_, .inr r) => r.startCluster != 0
  | _ => true

/-- The name that the new entry will be read under is not in the directory, and a long name needs no
new cluster. -/
def addsNewName (attributes : Byte) (s : State) (cluster : ℕ) (name : Name) : Bool :=
  !hasName s (storedName name attributes (classifyName s.entryName name.length)) cluster &&
    ((classifyName s.entryName name.length).1 == 0 || findsSlots s cluster
    (classifyName s.entryName name.length).1)

/-- An orderly `Fat32CreateFile` that adds a new name. -/
def Call.createsNewName (s : State) : Call → Bool
  | .createFile path attributes => (Call.createFile path attributes).orderly s &&
      lastEntry (addsNewName attributes) (entriesOf path) s rootDirStart
  | _ => false

/-- The root directory, or the first cluster of a directory that is found. -/
def IsDirectory (s : State) (h : ℕ) : Prop :=
  h = rootDirStart ∨ ∃ c i, Reachable s c i ∧ isDirectory (slot (s.data c) i) = true ∧
    firstCluster (slot (s.data c) i) = h

/-- No directory has two entries that are read under the same name up to the case of the letters. -/
def UniqueNames (g : Geometry) (s : State) : Prop :=
  ∀ h l, IsDirectory s h → g.IsChain s.fat (h :: l) →
    ∀ c ∈ h :: l, ∀ d ∈ h :: l, ∀ x ∈ g.reads (s.data c),
    ∀ y ∈ g.reads (s.data d), nameMatches x.2 y.2 = true → c = d ∧ x.1 = y.1

section Add

variable (hv : View g s₀ s v) (hg : g.Valid) (hc : Consistent g v o) (hh : o.head k)

include hv hg hc hh

theorem View.hasName_eq (name : Name) :
    hasName s name k = (locate g v.data name (k :: o.tail k)).isSome := by
  obtain ⟨s', hread, -⟩ := hc.search name (fun c _ x => (c, x)) hg hv hh
  rw [hasName, hread]
  cases locate g v.data name (k :: o.tail k) <;> rfl

theorem View.findsSlots_spec {r : FreeRun} (h : findsSlots s k n = true)
    (hrun : Fat32.freeRun g v.data n (k :: o.tail k) = .inr r) : r.startCluster ≠ 0 := by
  obtain ⟨s', hread, -⟩ := hv.freeRun hg hc hh n
  rw [findsSlots, hv.slots_eq, hread, hrun] at h
  exact bne_iff_ne.mp h

theorem View.addsNewName_spec (h : addsNewName attributes s k name = true) :
    (∀ c ∈ k :: o.tail k, ∀ e ∈ g.reads (v.data c),
      nameMatches e.2 (storedName name attributes (classifyName s.entryName name.length)) = false) ∧
    ∀ r, (classifyName s.entryName name.length).1 ≠ 0 →
      Fat32.freeRun g v.data (classifyName s.entryName name.length).1 (k :: o.tail k) = .inr r →
        r.startCluster ≠ 0 := by
  rw [addsNewName, Bool.and_eq_true, Bool.not_eq_true', hv.hasName_eq hg hc hh,
    Option.isSome_eq_false_iff, Option.isNone_iff_eq_none, locate_none_iff] at h
  have hslots := h.2
  rw [Bool.or_eq_true, beq_iff_eq] at hslots
  exact ⟨h.1, fun r hn hrun => hv.findsSlots_spec hg hc hh (hslots.resolve_left hn) hrun⟩

end Add

def Orderly (g : Geometry) (s : State) : Prop := ∃ v o, View g s s v ∧ Consistent g v o ∧ Tidy g v o

theorem rootOwners_inDir {p : Prop} (h : (rootOwners p).InDir c) : c = rootDirStart := by
  obtain ⟨k, hk, -, hm⟩ := h
  rw [List.mem_singleton.mp hm]
  exact hk

theorem filled_fat32CreatePartition (hg : g.Valid) (s : State) :
    ∃ m ≤ 1, Filled g.slots ((fat32CreatePartition s g).vol.data rootDirStart) m := by
  have hpos := hg.slots_pos
  have hslot (i : ℕ) (hi : i < g.slots) :
    slot ((fat32CreatePartition s g).vol.data rootDirStart) i =
      slot (labelEntry g.volumeLabel) i := by
    rw [rootDir_fat32CreatePartition hg s, g.clusterBytes_eq, slot_window hi]
  have hzero (i : ℕ) (hi : i < g.slots) (h0 : i ≠ 0) :
      isFree (slot ((fat32CreatePartition s g).vol.data rootDirStart) i) = true := by
    rw [hslot i hi, slot_labelEntry, if_neg h0]
    rfl
  have hfirst : isFree (slot ((fat32CreatePartition s g).vol.data rootDirStart) 0) =
      isFree (labelEntry g.volumeLabel) := by
    rw [hslot 0 hpos, slot_labelEntry, if_pos rfl, isFree_window]
  cases hf : isFree (labelEntry g.volumeLabel) with
  | true =>
    refine ⟨0, Nat.zero_le 1, Nat.zero_le _, fun i hi => absurd hi (Nat.not_lt_zero i),
      fun i _ hi => ?_⟩
    by_cases h0 : i = 0
    · rw [h0, hfirst, hf]
    · exact hzero i hi h0
  | false =>
    refine ⟨1, Nat.le_refl 1, hpos, fun i hi => ?_, fun i h1 hi => hzero i hi (by omega)⟩
    rw [Nat.lt_one_iff.mp hi, hfirst, hf]

theorem gapless_fat32CreatePartition (hg : g.Valid) (s : State) :
    Gapless g (fat32CreatePartition s g).vol (rootOwners True) := by
  intro c hin
  rw [rootOwners_inDir hin]
  obtain ⟨m, -, hfill⟩ := filled_fat32CreatePartition hg s
  exact ⟨m, hfill⟩

theorem orderly_fat32CreatePartition (hg : g.Valid) (s : State) :
    Orderly g (fat32CreatePartition s g) := by
  have hc := consistent_fat32CreatePartition hg s True
  obtain ⟨m, hm, hfill⟩ := filled_fat32CreatePartition hg s
  refine ⟨_, rootOwners True, view_fat32CreatePartition hg s, hc, gapless_fat32CreatePartition hg s,
    fun h hh hd c hch d hdh x hx y hy _ => ?_⟩
  have hcr := rootOwners_inDir ⟨h, hh, hd, hch⟩
  have hdr := rootOwners_inDir ⟨h, hh, hd, hdh⟩
  have hindex {x : ℕ × Name} (hx : x ∈ g.reads ((fat32CreatePartition s g).vol.data rootDirStart)) :
      x.1 = 0 := by
    rw [Geometry.reads, hfill.readSlots_eq] at hx
    have hok : ModeOk .normal .normal := trivial
    obtain ⟨-, hlt, -⟩ := readUsed_info hok (fun i _ hi => hfill.used i (by omega))
      (hfill.run (hc.slots _ ⟨_, rfl, rfl, List.mem_cons_self⟩)) hx
    omega
  rw [hcr] at hx
  rw [hdr] at hy
  exact ⟨hcr.trans hdr.symm, (hindex hx).trans (hindex hy).symm⟩

/-- What a new first cluster of a directory and a new entry keep is kept by an orderly
`Fat32CreateFile`. -/
theorem createFile_invariant {P : Vol → Owners → Prop} {q : State → ℕ → Name → Bool} {path : Name}
    (hg : g.Valid) (hset : ∀ {v o} f, P v o → P { v with entryName := f } o)
    (hlink : ∀ {v v' o z}, P v o → DirLinked g v v' o z → P v' (o.add z [] True))
    (hentry : ∀ {r v o k name st v' o'}, View g s r v → Consistent g v o → P v o → o.head k →
      o.dir k →
      attributes &&& 0xF ≠ 0xF → name ≠ [] → name.length ≤ maxNameLength →
      (q r k name = true ∨ Vacant g v o k) →
      EntryStep g v o k name attributes (classifyName r.entryName name.length) st v' o' → P v' o')
    (hv : View g s s v) (hc : Consistent g v o) (hP : P v o)
    (hord : (Call.createFile path attributes).orderly s = true)
    (hlast : lastEntry q (entriesOf path) s rootDirStart = true)
    (hrun : (Call.createFile path attributes).run s = some t) :
    ∃ v' o', View g t t v' ∧ Consistent g v' o' ∧ P v' o' := by
  rw [Call.orderly, Bool.and_eq_true, bne_iff_ne] at hord
  obtain ⟨hattr, hlen⟩ := hord
  have hlen' : ∀ n, (entriesOf path).getLast? = some n → n.length ≤ maxNameLength := by
    intro n hn
    rw [hn, Option.all_some] at hlen
    exact of_decide_eq_true hlen
  have hvalid := entriesOf_valid path
  have hstep {r : State} {v v' : Vol} {o o' : Owners} {parents : List Name} {name : Name} {k : ℕ}
    {st : FatStatus}
      (hpath : parents ++ [name] = entriesOf path) (hv : View g s r v) (hc : Consistent g v o)
      (hP : P v o)
      (hl : Leads g v o rootDirStart parents k) (hq : q r k name = true ∨ Vacant g v o k)
      (hstep : EntryStep g v o k name attributes (classifyName r.entryName name.length) st v' o')
      (_ : Consistent g v' o') : P v' o' := by
    obtain ⟨hh, hd⟩ := hl.head hc.root hc.rootDir
    have hname :=
      (hvalid name (by rw [← hpath]; exact List.mem_append_right _ List.mem_cons_self)).ne_nil
    exact hentry hv hc hP hh hd hattr hname
      (hlen' name (by rw [← hpath, List.getLast?_concat])) hq hstep
  obtain ⟨s', st, v', o', hcreate, -, hv', hc', hP'⟩ :=
    View.createFile_rule (R := fun _ v o => P v o) hg
    (fun _ h => h) hset (fun _ => hlink) hstep hv hc hP .nil (List.nil_append _) hvalid hattr hlen'
    (Or.inl hlast)
  have heq : t = s' := by
    rw [Call.run, fat32CreateFile, hcreate] at hrun
    exact (Option.some.inj hrun).symm
  subst heq
  exact ⟨v', o', hv'.rebase, hc', hP'⟩

theorem Tidy.entry {st : FatStatus} (ht : Tidy g v o) (hg : g.Valid) (hv : View g s₀ s v)
    (hc : Consistent g v o) (hh : o.head k) (hd : o.dir k) (hattr : attributes &&& 0xF ≠ 0xF)
    (hname : name ≠ []) (hlen : name.length ≤ maxNameLength)
    (hq : addsNewName attributes s k name = true ∨ Vacant g v o k)
    (hstep : EntryStep g v o k name attributes (classifyName s.entryName name.length) st v' o') :
    Tidy g v' o' := by
  obtain ⟨hfresh, hfinds⟩ : (∀ c ∈ k :: o.tail k, ∀ e ∈ g.reads (v.data c),
      nameMatches e.2 (storedName name attributes (classifyName s.entryName name.length)) = false) ∧
      ∀ r, (classifyName s.entryName name.length).1 ≠ 0 →
        freeRun g v.data (classifyName s.entryName name.length).1 (k :: o.tail k) = .inr r →
          r.startCluster ≠ 0 := by
    rcases hq with hq | hvac
    · exact hv.addsNewName_spec hg hc hh hq
    · refine ⟨fun c hck e he => ?_, fun r _ hrun => hvac.run hg (hc.head_ne_zero hh) hrun⟩
      rw [hvac.1] at hck
      rw [List.mem_singleton.mp hck, reads_of_allFree hvac.2] at he
      cases he
  obtain ⟨zs, z, i, rfl, hadd, -⟩ := hstep.added hg hc ht.filled hh hd hattr hname hlen
    (classifyName_eq _ (List.length_pos_iff.mpr hname)) hfinds
  exact hadd.tidy ht hc hh hfresh

theorem Orderly.call {call : Call} (h : Orderly g s) (hg : g.Valid)
    (hnew : call.createsNewName s = true) (hrun : call.run s = some t) : Orderly g t := by
  obtain ⟨v, o, hv, hc, ht⟩ := h
  cases call with
  | writeFile => cases hnew
  | editFile => cases hnew
  | writeReservedArea => cases hnew
  | createFile path attributes =>
    rw [Call.createsNewName, Bool.and_eq_true] at hnew
    exact createFile_invariant hg (fun _ h => ⟨h.filled, h.unique⟩) Tidy.link
      (fun hv hc ht hh hd hattr hname hlen hq hstep =>
      ht.entry hg hv hc hh hd hattr hname hlen hq hstep)
      hv hc ht hnew.1 hnew.2 hrun

theorem Orderly.reaches (hg : g.Valid) (h : Orderly g s)
    (hr : Runs.Reaches Call.run (fun s c => c.createsNewName s = true) s t) : Orderly g t := by
  apply Runs.Reaches.invariant _ hr h
  intro s c t hs hnew hrun
  exact hs.call hg hnew hrun

theorem Orderly.uniqueNames (hg : g.Valid) (h : Orderly g s) : UniqueNames g s := by
  obtain ⟨v, o, hv, hc, ht⟩ := h
  intro k l hdir hch c hcl d hdl x hx y hy hsame
  obtain ⟨hh, hd⟩ : o.head k ∧ o.dir k := by
    rcases hdir with rfl | ⟨c, i, hr, hdir, rfl⟩
    · exact ⟨hc.root, hc.rootDir⟩
    · have hinfo := hr.infoAt hv hg hc
      rw [hv.data c (hc.inData hinfo.inDir)] at hdir hch ⊢
      rcases hc.entries c i hinfo with ⟨h0, -⟩ | ⟨hh, -, hd, -⟩
      · rw [h0] at hch
        exact absurd (hch.inData 0 List.mem_cons_self).1 (by decide)
      · exact ⟨hh, hd.mpr hdir⟩
  rw [hc.chain_eq hv hh hch] at hcl hdl
  rw [hv.data c (hc.inData ⟨k, hh, hd, hcl⟩)] at hx
  rw [hv.data d (hc.inData ⟨k, hh, hd, hdl⟩)] at hy
  exact ht.unique k hh hd c hcl d hdl x hx y hy hsame

/-- In every run of calls that add a new name, no directory has a name twice. -/
theorem names_unique (hg : g.Valid)
    (h : Runs.Reaches Call.run (fun s c => c.createsNewName s = true)
      (fat32CreatePartition s₀ g) s) :
    UniqueNames g s :=
  ((orderly_fat32CreatePartition hg s₀).reaches hg h).uniqueNames hg

/-- The files `F` and `G` are created. -/
theorem names_unique_small : ∃ s, Runs.Reaches Call.run (fun s c => c.createsNewName s = true)
    (fat32CreatePartition (blankDrive smallGeometry 0) smallGeometry) s ∧
    UniqueNames smallGeometry s := by
  obtain ⟨s, hs⟩ : ∃ s, Runs.guardedRun Call.run (fun s c => c.createsNewName s = true)
      (fat32CreatePartition (blankDrive smallGeometry 0) smallGeometry)
      [.createFile [0x46] 0x20, .createFile [0x47] 0x20] = some s :=
    Option.isSome_iff_exists.mp (by decide +kernel)
  have hr := Runs.reaches_of_guardedRun _ hs
  exact ⟨s, hr, names_unique smallGeometry_valid hr⟩

/-- A `Fat32CreateFile` with a name of at most `maxNameLength` characters, what the long name slots
can count (the 255 of the format are not checked), and without the attributes of a long name. -/
def createCall (s : State) : Call → Bool
  | .createFile path attributes => (Call.createFile path attributes).orderly s
  | _ => false

/-- The file `F` is created again: the root directory has two entries with its name. -/
theorem name_twice : ∃ s, Runs.Reaches Call.run (fun s c => createCall s c = true)
    (fat32CreatePartition (blankDrive smallGeometry 0) smallGeometry) s ∧
    ¬ UniqueNames smallGeometry s := by
  obtain ⟨s, hs⟩ : ∃ s, Runs.guardedRun Call.run (fun s c => createCall s c = true)
      (fat32CreatePartition (blankDrive smallGeometry 0) smallGeometry)
      [.createFile [0x46] 0x20, .createFile [0x46] 0x20] = some s :=
    Option.isSome_iff_exists.mp (by decide +kernel)
  refine ⟨s, Runs.reaches_of_guardedRun _ hs, fun hunique => ?_⟩
  have hreads : smallGeometry.reads (s.data rootDirStart) = [(0, [0x46]), (1, [0x46])] :=
    Runs.eq_of_map (fun s : State => smallGeometry.reads (s.data rootDirStart)) hs (by
      decide +kernel)
  have hfat : s.fat rootDirStart = endOfChain :=
    Runs.eq_of_map (fun s : State => s.fat rootDirStart) hs (by decide +kernel)
  have hch : smallGeometry.IsChain s.fat [rootDirStart] := ⟨hfat, by decide⟩
  have hsame := hunique rootDirStart [] (Or.inl rfl) hch _ List.mem_cons_self _ List.mem_cons_self
    (0, [0x46])
    (by rw [hreads]; exact List.mem_cons_self) (1, [0x46]) (by rw [hreads]; simp) rfl
  cases hsame.2

end DevOs.Fat32
