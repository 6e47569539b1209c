import DevOs.Fat32.Format
import DevOs.Lib.Runs

/-!
# Runs of the driver

The calls after `Fat32CreatePartition` are the steps of a run. `Call.orderly` is what a call needs
to leave the volume consistent; the driver itself does not check it.
-/

namespace DevOs.Fat32

open Bytes Chains

variable {g : Geometry} {s₀ s s' : State} {v v' : Vol} {o o' : Owners}

/-- A call that leaves a consistent volume consistent: a new name is not too long and not made a
part of a long name, a written file is not a directory and its path goes through directories, and an
edit is harmless. Other data may be written to the reserved area only outside of the sectors from
the FSInfo on to the second sector of its copy. -/
def Call.orderly (s : State) : Call → Bool
  | .createFile path attributes =>
    attributes &&& 0xF != 0xF && (entriesOf path).getLast?.all (fun n => n.length ≤ maxNameLength)
  | .writeFile path _ position numBytes =>
    pathTo (fun e => !isDirectory e) (entriesOf path) s rootDirStart && position + numBytes < 2 ^ 32
  | .editFile path edit attributes x =>
    pathTo (edit.harmless attributes x) (entriesOf path) s rootDirStart
  | .writeReservedArea sector numSectors _ =>
    numSectors == 0 || sector + numSectors + 4 ≤ s.partition.secondaryFsInfo ||
      s.partition.secondaryFsInfo < sector

/-- `Fat32CreateFile` or `Fat32WriteFile`. -/
def Call.isFileCall : Call → Bool
  | .createFile .. => true
  | .writeFile .. => true
  | _ => false

theorem View.rebase (hv : View g s₀ s v) : View g s s v :=
  ⟨hv.boot, hv.secondaryFsInfo, hv.entryName, hv.free, hv.fat, hv.data, hv.cache, id, id, [], by
    simp,
    by simp⟩

theorem Consistent.forget (hc : Consistent g v o) : Consistent g v { o with sized := False } :=
  ⟨hc.counted, hc.root, hc.rootDir, hc.chains, hc.disjoint, hc.slots, fun c i hi =>
    (hc.entries c i ⟨hi.inDir, hi.lt, hi.info⟩).imp id
      (fun h => ⟨h.1, h.2.1, h.2.2.1, fun hf => hf.elim⟩),
    fun c i d j hi hj => hc.unique c i d j ⟨hi.inDir, hi.lt, hi.info⟩ ⟨hj.inDir, hj.lt, hj.info⟩⟩

theorem View.fileCall {c : Call} (hv : View g s s v) (hg : g.Valid) (hc : Consistent g v o)
    (hord : c.orderly s = true) (hfile : c.isFileCall = true) : Keeps g s o.sized (c.run s) := by
  cases c with
  | createFile path attributes =>
    rw [Call.orderly, Bool.and_eq_true, bne_iff_ne] at hord
    apply hv.createFile_keeps hg hc .nil (by simpa using entriesOf_valid path) hord.1
    intro n hn
    have hlen := hord.2
    rw [List.nil_append] at hn
    rw [hn, Option.all_some] at hlen
    exact of_decide_eq_true hlen
  | writeFile path buffer position numBytes =>
    rw [Call.orderly, Bool.and_eq_true, decide_eq_true_iff] at hord
    exact hv.writeFile_keeps hg hc hord.1 hord.2
  | editFile => cases hfile
  | writeReservedArea => cases hfile

/-- The state has a consistent volume, with sizes that the clusters can hold. -/
def Sound (g : Geometry) (s : State) : Prop :=
  ∃ v o, o.sized ∧ View g s s v ∧ Consistent g v o

/-- The calls of a run of `Fat32CreateFile` and `Fat32WriteFile`. -/
def fileCall (s : State) (c : Call) : Bool := c.isFileCall && c.orderly s

theorem sound_fat32CreatePartition (hg : g.Valid) (s : State) :
    Sound g (fat32CreatePartition s g) :=
  ⟨_, rootOwners True, trivial, view_fat32CreatePartition hg s,
    consistent_fat32CreatePartition hg s True⟩

theorem Sound.call {c : Call} (h : Sound g s) (hg : g.Valid) (hcall : fileCall s c = true) :
    ∃ t v', c.run s = some t ∧ View g s t v' ∧ Sound g t := by
  obtain ⟨v, o, hs, hv, hc⟩ := h
  rw [fileCall, Bool.and_eq_true] at hcall
  obtain ⟨t, v', o', hrun, hs', hv', hc'⟩ := hv.fileCall hg hc hcall.2 hcall.1
  exact ⟨t, v', hrun, hv', v', o', hs' hs, hv'.rebase, hc'⟩

theorem Sound.reaches (hg : g.Valid) (h : Sound g s)
    (hr : Runs.Reaches Call.run (fun s c => fileCall s c = true) s s') : Sound g s' := by
  apply Runs.Reaches.invariant _ hr h
  intro s c t hs hcall hst
  obtain ⟨t', -, hrun, -, ht'⟩ := hs.call hg hcall
  rw [hrun] at hst
  cases hst
  exact ht'

/-- The cluster and the slot where `Fat32FindEntry` finds a name. -/
def findLocation (s : State) (name : Name) (cluster : ℕ) : Option (ℕ × ℕ) :=
  if name = [] then none
  else
    (readChain (searchCluster s.partition name (fun c _ x => (c, x))) walkFuel s cluster false
      ()).bind (fun r => r.2.getLeft?)

/-- The locations of the entries that are found in the root directory and in directories found. -/
inductive Reachable (s : State) : ℕ → ℕ → Prop
  | root {name : Name} {c i : ℕ} (h : findLocation s name rootDirStart = some (c, i)) :
    Reachable s c i
  | step {name : Name} {c i d j : ℕ} (hr : Reachable s c i)
      (hd : isDirectory (slot (s.data c) i) = true)
      (h : findLocation s name (firstCluster (slot (s.data c) i)) = some (d, j)) : Reachable s d j

theorem View.findLocation {h : ℕ} (hv : View g s₀ s v) (hg : g.Valid) (hc : Consistent g v o)
    (hh : o.head h) (hd : o.dir h) (name : Name) :
    (Fat32.fat32FindEntry s name h).map Prod.snd =
      some ((Fat32.findLocation s name h).map (fun ci => slot (s.data ci.1) ci.2)) ∧
    ∀ c i, Fat32.findLocation s name h = some (c, i) → InfoAt g v o c i := by
  by_cases hn : name = []
  · rw [Fat32.findLocation, Fat32.fat32FindEntry, if_pos hn, if_pos hn]
    exact ⟨rfl, fun c i hf => by cases hf⟩
  · obtain ⟨s₁, hfind, -⟩ := hv.fat32FindEntry hg hc hh hn
    obtain ⟨s₂, hread, -⟩ := hc.search name (fun c _ x => (c, x)) hg hv hh
    have hloc : Fat32.findLocation s name h = locate g v.data name (h :: o.tail h) := by
      rw [Fat32.findLocation, if_neg hn, hread]
      cases locate g v.data name (h :: o.tail h) with
      | none => rfl
      | some ci => rfl
    rw [hfind, hloc]
    refine ⟨?_, fun c i hf => hc.infoAt hh hd hf⟩
    cases hl : locate g v.data name (h :: o.tail h) with
    | none => rfl
    | some ci =>
      have hin := hc.inData (hc.infoAt hh hd hl).inDir
      simp only [Option.map_some, hv.data ci.1 hin]

theorem Reachable.infoAt {c i : ℕ} (h : Reachable s c i) (hv : View g s₀ s v) (hg : g.Valid)
    (hc : Consistent g v o) : InfoAt g v o c i := by
  induction h with
  | root h => exact (hv.findLocation hg hc hc.root hc.rootDir _).2 _ _ h
  | @step name c i d j _ hd h ih =>
    have hin := hc.inData ih.inDir
    rw [hv.data c hin] at hd h
    rcases hc.entries c i ih with ⟨h0, -⟩ | ⟨hh, -, hdir, -⟩
    · rw [h0, Fat32.findLocation, readChain_zero] at h
      split_ifs at h
      cases h
    · exact (hv.findLocation hg hc hh (hdir.mpr hd) _).2 _ _ h

def EntryChain (g : Geometry) (s : State) (e : Buffer) (l : List ℕ) : Prop :=
  (firstCluster e = 0 ∧ l = []) ∨ (l.head? = some (firstCluster e) ∧ g.IsChain s.fat l)

/-- The chains of the root directory and of the entries. A chain ends in `endOfChain`, it has no
cluster twice, and its clusters are those of the partition. -/
structure ChainsOk (g : Geometry) (s : State) : Prop where
  root : ∃ l, g.IsChain s.fat (rootDirStart :: l) ∧ (rootDirStart :: l).Nodup
  entries : ∀ c i, Reachable s c i → ∃ l, EntryChain g s (slot (s.data c) i) l ∧ l.Nodup ∧
    (isDirectory (slot (s.data c) i) = false →
      fileSize (slot (s.data c) i) ≤ l.length * g.clusterBytes)
  rootApart : ∀ c i l m, Reachable s c i → g.IsChain s.fat (rootDirStart :: l) →
    EntryChain g s (slot (s.data c) i) m → (rootDirStart :: l).Disjoint m
  apart : ∀ c i d j l m, Reachable s c i → Reachable s d j → (c, i) ≠ (d, j) →
    EntryChain g s (slot (s.data c) i) l → EntryChain g s (slot (s.data d) j) m → l.Disjoint m

theorem Consistent.chain_eq {h : ℕ} {l : List ℕ} (hc : Consistent g v o) (hv : View g s₀ s v)
    (hh : o.head h) (hl : g.IsChain s.fat (h :: l)) : l = o.tail h := by
  have hown := hc.chains h hh
  have hF (b : ℕ) (hb : b ∈ h :: l) : v.fat b = s.fat b :=
    (hv.fat b (Geometry.Valid.inData_fatEntries (hl.inData b hb))).symm
  exact (hl.chain.congr hF).unique hown.chain

theorem View.isChain {l : List ℕ} (hv : View g s₀ s v) (hl : g.IsChain v.fat l) :
    g.IsChain s.fat l :=
  ⟨hl.chain.congr (fun b hb => hv.fat b (Geometry.Valid.inData_fatEntries (hl.inData b hb))),
    hl.inData⟩

theorem Consistent.entryChain {e : Buffer} {l : List ℕ} (hc : Consistent g v o)
    (hv : View g s₀ s v) (he : EntryOk g o e) (hl : EntryChain g s e l) :
    l = [] ∨ o.head (firstCluster e) ∧ firstCluster e ≠ rootDirStart ∧
      l = firstCluster e :: o.tail (firstCluster e) := by
  rcases hl with ⟨-, hnil⟩ | ⟨hhead, hch⟩
  · exact Or.inl hnil
  · obtain ⟨l, rfl⟩ := List.head?_eq_some_iff.mp hhead
    rcases he with ⟨h0, -⟩ | ⟨hh, hr, -, -⟩
    · have := (hch.inData _ (List.mem_cons_self ..)).1
      omega
    · exact Or.inr ⟨hh, hr, by rw [hc.chain_eq hv hh hch]⟩

theorem Sound.chainsOk (h : Sound g s) (hg : g.Valid) : ChainsOk g s := by
  obtain ⟨v, o, hs, hv, hc⟩ := h
  have hdata {c i : ℕ} (hr : Reachable s c i) : s.data c = v.data c :=
    hv.data c (hc.inData (hr.infoAt hv hg hc).inDir)
  have hentry {c i : ℕ} (hr : Reachable s c i) : EntryOk g o (slot (s.data c) i) := by
    rw [hdata hr]
    exact hc.entries c i (hr.infoAt hv hg hc)
  refine ⟨?_, ?_, ?_, ?_⟩
  · have hroot := hc.chains _ hc.root
    exact ⟨_, hv.isChain hroot, hroot.chain.nodup⟩
  · intro c i hr
    rcases hentry hr with ⟨h0, hsize⟩ | ⟨hh, -, -, hsize⟩
    · exact ⟨[], Or.inl ⟨h0, rfl⟩, List.nodup_nil, fun hd => by rw [hsize hd]; exact Nat.zero_le _⟩
    · have hch := hc.chains _ hh
      refine ⟨_, Or.inr ⟨rfl, hv.isChain hch⟩, hch.chain.nodup, fun hd => ?_⟩
      rw [Nat.mul_comm]
      exact hsize hs hd
  · intro c i l m hr hl hm
    rcases hc.entryChain hv (hentry hr) hm with rfl | ⟨hh, hne, rfl⟩
    · exact List.disjoint_nil_right _
    · rw [hc.chain_eq hv hc.root hl]
      intro b hb hb'
      exact hne (hc.disjoint _ _ b hc.root hh hb hb').symm
  · intro c i d j l m hr hr' hne hl hm
    rcases hc.entryChain hv (hentry hr) hl with rfl | ⟨hh, -, rfl⟩
    · exact List.disjoint_nil_left _
    · rcases hc.entryChain hv (hentry hr') hm with rfl | ⟨hh', -, rfl⟩
      · exact List.disjoint_nil_right _
      · intro b hb hb'
        have hsame := hc.disjoint _ _ b hh hh' hb hb'
        have hne0 := hc.head_ne_zero hh
        rw [hdata hr] at hsame hne0
        rw [hdata hr'] at hsame
        have := hc.unique c i d j (hr.infoAt hv hg hc) (hr'.infoAt hv hg hc) hne0 hsame
        exact hne (Prod.ext this.1 this.2)

/-- In every run of orderly calls of `Fat32CreateFile` and `Fat32WriteFile` the chains of the volume
stay apart, and each is long enough for its file. Every further orderly call ends. -/
theorem volume_consistent (hg : g.Valid)
    (h : Runs.Reaches Call.run (fun s c => fileCall s c = true) (fat32CreatePartition s₀ g) s) :
    ChainsOk g s ∧ ∀ c, fileCall s c = true → ∃ t, c.run s = some t := by
  have hs := (sound_fat32CreatePartition hg s₀).reaches hg h
  refine ⟨hs.chainsOk hg, fun c hcall => ?_⟩
  obtain ⟨t, -, ht, -⟩ := hs.call hg hcall
  exact ⟨t, ht⟩

def smallGeometry : Geometry := ⟨0, 4, 1, [], 0, fun _ => 0⟩

theorem smallGeometry_valid : smallGeometry.Valid :=
  ⟨by decide, by decide, by decide, by decide, by decide, by decide, by decide⟩

def mediumGeometry : Geometry := ⟨0, 200, 1, [], 0, fun _ => 0⟩

def blankDrive (g : Geometry) (b : Byte) : State := ⟨fun _ => b, g.partition, fun _ => 0, []⟩

/-- A file is created and written. -/
theorem volume_consistent_small : ∃ s, Runs.Reaches Call.run (fun s c => fileCall s c = true)
    (fat32CreatePartition (blankDrive smallGeometry 0) smallGeometry) s ∧
    ChainsOk smallGeometry s := by
  obtain ⟨s, hs⟩ : ∃ s, Runs.guardedRun Call.run (fun s c => fileCall s c = true)
      (fat32CreatePartition (blankDrive smallGeometry 0) smallGeometry)
      [.createFile [0x46] 0x20, .writeFile [0x46] (fun _ => 1) 0 600] = some s :=
    Option.isSome_iff_exists.mp (by decide +kernel)
  have hr := Runs.reaches_of_guardedRun _ hs
  exact ⟨s, hr, (volume_consistent smallGeometry_valid hr).1⟩

/-- The calls that the contract of the driver allows: no volume label is created, and what is
written is not a directory. -/
def contractCall (s : State) : Call → Bool
  | .createFile _ attributes => attributes &&& 0x08 == 0
  | .writeFile path _ position numBytes =>
    (match fat32GetFileInformation s path with
    | some (_, some info) => info.fatAttributes &&& 0x10 == 0
    | _ => true) && position + numBytes < 2 ^ 32
  | _ => false

/-- The bytes of a short entry with the name `X`. -/
def entryX (cluster size : ℕ) : Buffer :=
  setLE
    (setLE (setLE (setLE (setBytes (fun _ => 0) 0 (0x58 :: List.replicate 10 0x20)) 11 1 0x20) 26 2
    cluster) 20 2 (cluster / 2 ^ 16)) 28 4 size

/-- The file `F` holds an entry `X` with the first cluster of the root directory. `F/X` is written
as a file, which puts an entry with that first cluster into the root directory. -/
theorem root_overwritten : ∃ s, Runs.Reaches Call.run (fun s c => contractCall s c = true)
    (fat32CreatePartition (blankDrive smallGeometry 0) smallGeometry) s ∧
    ¬ ChainsOk smallGeometry s := by
  obtain ⟨s, hs⟩ : ∃ s, Runs.guardedRun Call.run (fun s c => contractCall s c = true)
      (fat32CreatePartition (blankDrive smallGeometry 0) smallGeometry)
      [.createFile [0x46] 0x20, .writeFile [0x46] (entryX 2 512) 0 512,
        .writeFile [0x46, 0x2F, 0x58] (entryX 2 512) 0 32] = some s :=
    Option.isSome_iff_exists.mp (by decide +kernel)
  refine ⟨s, Runs.reaches_of_guardedRun _ hs, fun hok => ?_⟩
  have hloc : findLocation s [0x58] rootDirStart = some (2, 0) :=
    Runs.eq_of_map (fun s : State => findLocation s [0x58] rootDirStart) hs (by decide +kernel)
  have hfc : firstCluster (slot (s.data 2) 0) = rootDirStart :=
    Runs.eq_of_map (fun s : State => firstCluster (slot (s.data 2) 0)) hs (by decide +kernel)
  obtain ⟨l, hl, -⟩ := hok.root
  have hdisj := hok.rootApart 2 0 l (rootDirStart :: l) (.root hloc) hl
    (Or.inr ⟨by rw [hfc]; rfl, hl⟩)
  exact hdisj (List.mem_cons_self ..) (List.mem_cons_self ..)

end DevOs.Fat32
