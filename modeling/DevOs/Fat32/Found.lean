import DevOs.Fat32.LeftOver
import DevOs.Fat32.LongNames
import DevOs.Fat32.Unique

/-!
# Created files are found

A search that found an entry finds it again behind a new one, since the name of the new entry is not
in the directory. So `Fat32GetFileInformation` finds a created file if its name is read back, and
the entries that were there as before. It is the caller who creates new names, and the parent
directory of the file gets its first cluster when it has none.
-/

namespace DevOs.Fat32

open Bytes

variable {g : Geometry} {s₀ s t : State} {v v' w : Vol} {o o' p : Owners} {data data' : ℕ → Buffer}
    {l m zs : List ℕ}
  {c i j k z n : ℕ} {name fileName path : Name} {names parents : List Name} {e : ℕ × Name}
    {attributes : Byte}

theorem locate_append :
    locate g data name (l ++ m) = (locate g data name l).or (locate g data name m) := by
  induction l with
  | nil => rfl
  | cons c l ih =>
    rw [List.cons_append, locate, locate]
    cases findSlot name (data c) g.slots 0 .normal with
    | some i => rfl
    | none => exact ih

theorem locate_reads (h : locate g data name l = some (c, i)) :
    c ∈ l ∧ ∃ d ∈ g.reads (data c), d.1 = i ∧ nameMatches d.2 name = true := by
  obtain ⟨hm, hfind⟩ := locate_mem h
  rw [findSlot_eq] at hfind
  obtain ⟨d, hd, hi⟩ := Option.map_eq_some_iff.mp hfind
  exact ⟨hm, d, List.mem_of_find?_eq_some hd, hi, by simpa using List.find?_some hd⟩

/-- Entries with other names behind those of the clusters do not change the search. -/
theorem locate_of_reads (h : ∀ c ∈ l, ∃ r, g.reads (data' c) = g.reads (data c) ++ r ∧
    ∀ d ∈ r, nameMatches d.2 name = false) : locate g data' name l = locate g data name l := by
  induction l with
  | nil => rfl
  | cons c l ih =>
    obtain ⟨r, hr, hother⟩ := h c List.mem_cons_self
    have hnone : r.find? (fun d => nameMatches d.2 name) = none :=
      List.find?_eq_none.mpr fun d hd => by rw [hother d hd]; exact Bool.false_ne_true
    have hfind : findSlot name (data' c) g.slots 0 .normal =
        findSlot name (data c) g.slots 0 .normal := by
      rw [findSlot_eq, findSlot_eq]
      change Option.map _ ((g.reads (data' c)).find? _) = Option.map _ ((g.reads (data c)).find? _)
      rw [hr, List.find?_append, hnone, Option.or_none]
    rw [locate, locate, hfind, ih fun d hd => h d (List.mem_cons_of_mem c hd)]

theorem locate_only (hz : z ∈ l) (he : e ∈ g.reads (data z)) (hname : nameMatches e.2 name = true)
    (honly : ∀ c ∈ l, ∀ d ∈ g.reads (data c), nameMatches d.2 name = true → c = z ∧ d = e) :
    locate g data name l = some (z, e.1) := by
  cases hl : locate g data name l with
  | none =>
    have hfalse := locate_none_iff.mp hl z hz e he
    rw [hname] at hfalse
    cases hfalse
  | some ci =>
    obtain ⟨c, i⟩ := ci
    obtain ⟨hc, d, hd, rfl, hmatch⟩ := locate_reads hl
    obtain ⟨rfl, rfl⟩ := honly c hc d hd hmatch
    rfl

theorem nameMatches_trans {a b c : Name} (h : nameMatches a b = true)
    (h' : nameMatches b c = true) :
    nameMatches a c = true := by
  rw [nameMatches_iff] at h h' ⊢
  exact h.trans h'

section Added

variable (h : Added g v v' o k zs z e) (hc : Consistent g v o) (hh : o.head k) (hd : o.dir k)
  (hfresh : ∀ c ∈ k :: o.tail k, ∀ d ∈ g.reads (v.data c), nameMatches d.2 e.2 = false)

include h hc hh hd hfresh

theorem Added.locate (hj : o.head j) (hjd : o.dir j)
    (hl : locate g v.data name (j :: o.tail j) = some (c, i)) :
    Fat32.locate g v'.data name (j :: (o.extend k zs).tail j) = some (c, i) ∧
      slot (v'.data c) i = slot (v.data c) i := by
  refine ⟨?_, h.slots c i (hc.infoAt hj hjd hl)⟩
  obtain ⟨hcj, d, hdr, -, hmatch⟩ := locate_reads hl
  have hother (hjk : j = k) : nameMatches e.2 name = false := by
    by_contra hsame
    rw [Bool.not_eq_false] at hsame
    subst hjk
    have hfalse := hfresh c hcj d hdr
    rw [nameMatches_trans hmatch ((nameMatches_comm ..).trans hsame)] at hfalse
    cases hfalse
  have hold : Fat32.locate g v'.data name (j :: o.tail j) = some (c, i) := by
    rw [← hl]
    apply locate_of_reads
    intro b hb
    rcases h.kept b ⟨j, hj, hjd, hb⟩ with hsame | ⟨-, hbk, hmore⟩
    · exact ⟨[], by rw [hsame, List.append_nil], fun d hd => absurd hd List.not_mem_nil⟩
    · refine ⟨[e], hmore, fun d hd => ?_⟩
      rw [List.mem_singleton.mp hd]
      exact hother (hc.disjoint j k b hj hh hb hbk)
  by_cases hjk : j = k
  · subst hjk
    rw [Owners.extend_tail_self, ← List.cons_append, locate_append, hold, Option.some_or]
  · have htail : (o.extend k zs).tail j = o.tail j := Function.update_of_ne hjk ..
    rw [htail]
    exact hold

theorem Added.leads (hj : o.head j) (hjd : o.dir j) (hl : Leads g v o j names i) :
    Leads g v' (o.extend k zs) j names i := by
  induction hl with
  | nil => exact .nil
  | @cons j i c x name names hloc hh' hd' _ ih =>
    obtain ⟨hloc', hslot⟩ := h.locate hc hh hd hfresh hj hjd hloc
    have hrest := ih hh' hd'
    rw [← hslot] at hh' hd' hrest
    exact .cons hloc' hh' hd' hrest

theorem Added.found (hn : NewFile g v' (o.extend k zs) k z e attributes)
    (hname : nameMatches e.2 name = true) :
    Fat32.locate g v'.data name (k :: (o.extend k zs).tail k) = some (z, e.1) := by
  refine locate_only hn.mem hn.read hname fun c hcm d hdr hmatch => ?_
  rcases h.mem_reads hc hh hh hd hcm hdr with ⟨hck, hdr⟩ | ⟨-, hcz, hde⟩
  · have hfalse := hfresh c hck d hdr
    rw [nameMatches_trans hmatch ((nameMatches_comm ..).trans hname)] at hfalse
    cases hfalse
  · exact ⟨hcz, hde⟩

end Added

/-- The entry is as before, or that of a directory without clusters that has got the cluster `z`. -/
def SameEntry (z : ℕ) (e e' : Buffer) : Prop :=
  e' = e ∨ (isDirectory e = true ∧ firstCluster e = 0 ∧ e' = window (editCluster.apply 0 z e) 0 32)

section DirLinked

variable (h : DirLinked g v v' o z) (hc : Consistent g v o)

include h hc

theorem DirLinked.leads (hl : Leads g v o rootDirStart names k) :
    Leads g v' (o.add z [] True) rootDirStart names k := by
  refine hl.congr hc.root hc.rootDir hc (fun j hj hjd => ?_) fun c hin i hi => ?_
  · have hjz : j ≠ z := fun hjz => h.fresh (hjz ▸ hj)
    rw [Owners.add_dir_of_ne hjz, Owners.add_tail_of_ne hjz]
    exact ⟨Or.inr hj, hjd, rfl⟩
  · refine (h.slots c hin i hi).imp id fun ⟨hinfo, _, h0, hedit⟩ => ⟨?_, Or.inl h0⟩
    rw [hedit]
    exact sameName_apply z (isLfn_of_info hinfo) fun hattr => by cases hattr

theorem DirLinked.locate (hj : o.head j) (hjd : o.dir j)
    (hl : locate g v.data name (j :: o.tail j) = some (c, i)) :
    Fat32.locate g v'.data name (j :: (o.add z [] True).tail j) = some (c, i) ∧
      SameEntry z (slot (v.data c) i) (slot (v'.data c) i) := by
  have hinfo := hc.infoAt hj hjd hl
  have hjz : j ≠ z := fun hjz => h.fresh (hjz ▸ hj)
  rw [Owners.add_tail_of_ne hjz, ← hl]
  refine ⟨locate_of_reads fun b hb => ⟨[], ?_, fun d hd => absurd hd List.not_mem_nil⟩, ?_⟩
  · rw [(h.reads ⟨j, hj, hjd, hb⟩).1, List.append_nil]
  · exact (h.slots c hinfo.inDir i hinfo.lt).imp id fun ⟨_, hdir, h0, hedit⟩ => ⟨hdir, h0, hedit⟩

end DirLinked

/-- The information is as before, or that about a directory without clusters that has got the
cluster `z`. -/
def SameInformation (z : ℕ) (info info' : FileInformation) : Prop :=
  info' = info ∨ (info.fatAttributes &&& 0x10 ≠ 0 ∧ info.clusterStart = 0 ∧
    info' = { info with clusterStart := z })

theorem SameEntry.information (h : SameEntry z (slot (v.data c) i) (slot (v'.data c) i))
    (hz : z < 2 ^ 32) :
    SameInformation z (informationOf v name k c i) (informationOf v' name k c i) := by
  rcases h with hsame | ⟨hdir, h0, hedit⟩
  · left
    rw [informationOf, informationOf, hsame]
  · refine Or.inr ⟨bne_iff_ne.mp hdir, h0, ?_⟩
    rw [informationOf, informationOf, hedit, firstCluster_window, fileSize_window,
      firstCluster_editCluster hz, fileSize_editCluster, window_apply (by decide), apply_attributes]
    rfl

/-- Where every chain is one of a directory, what `Fat32GetFileInformation` reports is at the end of
a path through directories. -/
theorem View.information_found {s' : State} {info : FileInformation} (hv : View g s₀ s v)
    (hg : g.Valid) (hc : Consistent g v o) (hdirs : ∀ h, o.head h → o.dir h)
    (hl : Leads g v o rootDirStart parents k) (hvalid : ∀ n ∈ names, ValidName n)
    (h : Fat32.getFileInformation names s k = some (s', some info)) :
    ∃ name j c i, PathAt g v o (parents ++ names) j c i ∧ info = informationOf v name j c i ∧
      (parents ++ names).getLast? = some name := by
  induction names generalizing parents s k with
  | nil => cases h
  | cons name names ih =>
    obtain ⟨hkh, hkd⟩ := hl.head hc.root hc.rootDir
    obtain ⟨s₁, hfind, hv₁⟩ := hv.fat32FindEntry hg hc hkh (hvalid name (by simp)).ne_nil
    rw [Fat32.getFileInformation, hfind] at h
    cases hloc : locate g v.data name (k :: o.tail k) with
    | none =>
      rw [hloc] at h
      cases h
    | some ci =>
      obtain ⟨c, i⟩ := ci
      rw [hloc] at h
      dsimp only [Option.map_some] at h
      by_cases hlast : names = []
      · rw [if_pos hlast] at h
        cases h
        subst hlast
        exact ⟨name, k, c, i, ⟨parents, name, rfl, hl, hloc⟩, rfl, List.getLast?_concat ..⟩
      · rw [if_neg hlast] at h
        rcases hc.entries c i (hc.infoAt hkh hkd hloc) with ⟨h0, -⟩ | ⟨hh, -⟩
        · rw [h0, getFileInformation_zero] at h
          cases h
        · have hnext := ih hv₁ (hl.snoc hloc hh (hdirs _ hh))
            (fun n hn => hvalid n (by simp [hn])) h
          rw [List.append_assoc, List.singleton_append] at hnext
          exact hnext

theorem entryName_linked {s' t' : State} {r : Bool} {b : Buffer} {edit : FileEdit} {x : ℕ}
    (halloc : fat32AllocateClusterChain s k n = some (s', z))
    (hedit : fat32EditFile (fat32WriteCluster s' z b) path edit attributes x = some (t', r)) :
    t'.entryName = s.entryName := by
  have hs : Alike s.entryName s.entryName s s :=
    ⟨rfl, rfl, ⟨rfl, rfl⟩, rfl, rfl, fun _ _ => rfl, rfl, rfl⟩
  rcases both_cases (hs.allocate k n) with ⟨hnone, -⟩ | ⟨u, u', z', hu, -, halike⟩
  · rw [hnone] at halloc
    cases halloc
  rw [halloc] at hu
  cases hu
  have hs' : Alike s.entryName s.entryName s' s' :=
    ⟨rfl, rfl, ⟨rfl, rfl⟩, rfl, rfl, fun _ _ => rfl, halike.left, halike.left⟩
  rcases both_cases ((hs'.writeCluster z b).fat32EditFile path edit attributes x) with
    ⟨hnone, -⟩ | ⟨u, u', r', hu, -, halike'⟩
  · rw [hnone] at hedit
    cases hedit
  rw [hedit] at hu
  cases hu
  exact halike'.left

/-- The state `r` with the volume `w`, in which `Fat32CreateFile` allocates the last entry of the
path in the directory `j`. The volume is the one before, or `j` is the new first cluster of the
directory. -/
structure LastEntry (g : Geometry) (s₀ : State) (v : Vol) (o : Owners) (parents names : List Name)
    (s : State) (k : ℕ) (r : State) (w : Vol) (p : Owners) (name : Name) (j : ℕ) : Prop where
  path : ∃ front, names = front ++ [name] ∧ Leads g w p rootDirStart (parents ++ front) j
  view : View g s₀ r w
  consistent : Consistent g w p
  form : classifyName r.entryName name.length = lastForm names s
  place : ((∃ f, w = { v with entryName := f }) ∧ p = o ∧
    (∀ q, lastEntry q names s k = q r j name) ∧
    roomAt names s k = hasRoom r j) ∨ (DirLinked g v w o j ∧ p = o.add j [] True)

theorem View.createFile_vacant (hv : View g s₀ s v) (hg : g.Valid) (hc : Consistent g v o)
    (hh : o.head k) (hvac : Vacant g v o k) (hvalid : ∀ n ∈ names, ValidName n) :
    (∃ t st, createFile attributes parents names s k = some (t, st) ∧ st ≠ .success ∧
      names.length ≠ 1) ∨
    ∃ name, names = [name] ∧
      createFile attributes parents names s k =
        fat32AllocateEntry (s.setEntryName name) k name attributes := by
  cases names with
  | nil => exact Or.inl ⟨s, _, rfl, by decide, by decide⟩
  | cons name names =>
    rw [createFile]
    dsimp only
    by_cases hlast : names = []
    · subst hlast
      exact Or.inr ⟨name, rfl, if_pos rfl⟩
    · rw [if_neg hlast]
      have hc₁ : Consistent g { v with entryName := (s.setEntryName name).entryName } o :=
        hc.congr rfl rfl fun _ _ => rfl
      obtain ⟨s', hfind, -⟩ :=
        (hv.setEntryName name).fat32FindEntry hg hc₁ hh (hvalid name (by simp)).ne_nil
      have hnone : locate g v.data name (k :: o.tail k) = none := hvac.locate name
      rw [hnone] at hfind
      rw [hfind]
      refine Or.inl ⟨s', _, rfl, by decide, ?_⟩
      have hlen := List.length_pos_iff.mpr hlast
      rw [List.length_cons]
      omega

/-- `Fat32CreateFile` ends on the way, where there is no room for the last entry, or allocates
it. -/
theorem View.createFile_last (hg : g.Valid) (hv : View g s₀ s v) (hc : Consistent g v o)
    (hl : Leads g v o rootDirStart parents k) (hvalid : ∀ n ∈ parents ++ names, ValidName n) :
    (∃ t st, createFile attributes parents names s k = some (t, st) ∧ st ≠ .success ∧
      roomAt names s k = false) ∨
    ∃ r w p name j, LastEntry g s₀ v o parents names s k r w p name j ∧
      createFile attributes parents names s k = fat32AllocateEntry r j name attributes := by
  -- over the entries of the path, with the directory that the ones before lead to
  induction names generalizing parents s v k with
  | nil => exact Or.inl ⟨s, _, rfl, by decide, rfl⟩
  | cons name names ih =>
    by_cases hlast : names = []
    · subst hlast
      have hl₁ : Leads g { v with entryName := (s.setEntryName name).entryName } o rootDirStart
          parents k := hl.same hc (fun j h1 h2 => ⟨h1, h2, rfl⟩) fun _ _ => rfl
      rw [createFile, roomAt, if_pos rfl, if_pos rfl]
      refine Or.inr ⟨_, _, o, name, k, ⟨⟨[], rfl, ?_⟩, hv.setEntryName name,
        hc.congr rfl rfl fun _ _ => rfl, rfl, Or.inl ⟨⟨_, rfl⟩, rfl, fun q => rfl, rfl⟩⟩, rfl⟩
      rw [List.append_nil]
      exact hl₁
    · have hvalid' : ∀ n ∈ (parents ++ [name]) ++ names, ValidName n := by simpa using hvalid
      cases hv.createFile_step attributes hg hc hl hlast
          (fun n hn => hvalid' n (List.mem_append_left _ hn)) with
      | missing _ hfind hrun =>
        exact Or.inl ⟨_, _, hrun, by decide, by simp [roomAt, hlast, hfind]⟩
      | noDirectory _ hfind hdir hrun =>
        exact Or.inl ⟨_, _, hrun, by decide, by simp [roomAt, hlast, hfind, hdir]⟩
      | full _ hfind hdir h0 _ hfree hrun =>
        exact Or.inl ⟨_, _, hrun, by decide, by simp [roomAt, hlast, hfind, h0, hfree]⟩
      | existing hv₂ hfind _ hdir h0 hl' hrun =>
        have hroom := roomAt_existing hlast hfind hdir h0
        have hform := lastForm_cons (s := s) hlast hv₂.entryName
        rw [hrun, hroom]
        refine (ih hv₂ (hc.congr rfl rfl fun _ _ => rfl) hl' hvalid').imp id ?_
        rintro ⟨r, w, p, last, j, ⟨⟨front, hfront, hfl⟩, hrv, hrc, hform', hplace⟩, hrun'⟩
        refine ⟨r, w, p, last, j, ⟨⟨name :: front, by rw [hfront]; rfl, ?_⟩, hrv, hrc,
          hform'.trans hform.symm, ?_⟩, hrun'⟩
        · rw [List.append_assoc, List.singleton_append] at hfl
          exact hfl
        · rcases hplace with ⟨⟨f, hw⟩, hp, hlq, hroom'⟩ | ⟨hlinked, hp⟩
          · exact Or.inl ⟨⟨f, hw⟩, hp,
              fun q => (lastEntry_existing hlast hfind hdir h0).trans (hlq q), hroom.trans hroom'⟩
          · exact Or.inr ⟨⟨hlinked.fresh, hlinked.free, hlinked.slots⟩, hp⟩
      | @linked s₂ s₃ s₄ e v₄ z hv₂ hfind hdir h0 halloc _ hfree hedit hv₄ hc₄ hlinked hl₄ hrun =>
        have hkept : s₄.entryName = (s.setEntryName name).entryName :=
          (entryName_linked halloc hedit).trans hv₂.entryName
        obtain ⟨hzh, -⟩ := hl₄.head hc₄.root hc₄.rootDir
        rw [hrun, roomAt_linked hlast hfind hdir h0 hfree]
        rcases hv₄.createFile_vacant hg hc₄ hzh ⟨Owners.add_tail_self, hlinked.free⟩
          (fun n hn => hvalid' n (List.mem_append_right _ hn)) with
          ⟨t, st, ht, hst, hlen⟩ | ⟨last, rfl, hrun'⟩
        · exact Or.inl ⟨t, st, ht, hst, decide_eq_false hlen⟩
        · refine Or.inr ⟨_, _, _, last, z, ⟨⟨[name], rfl, ?_⟩, hv₄.setEntryName last,
            hc₄.congr rfl rfl fun _ _ => rfl, ?_, Or.inr ⟨?_, rfl⟩⟩, hrun'⟩
          · exact hl₄.same hc₄ (fun j h1 h2 => ⟨h1, h2, rfl⟩) fun _ _ => rfl
          · rw [lastForm_cons hlast hkept, lastForm, if_pos rfl]
          · exact ⟨hlinked.fresh, hlinked.free, hlinked.slots⟩

/-- The run of free slots for a long name and its entry is in one cluster of the directory. -/
def findsRun (s : State) (cluster n : ℕ) : Bool :=
  match readChain (runCluster (n + 1) s.partition.entriesPerCluster) walkFuel s cluster false ⟨0, 0,
      0⟩ with
  | some (_, .inl (r, c, _)) => r.startCluster == c
  | _ => false

/-- The search for the slots of a long name ends with a run in one cluster. -/
def RunInCluster (g : Geometry) (v : Vol) (o : Owners) (k n : ℕ) : Prop :=
  ∃ r c j b, freeRun g v.data n (k :: o.tail k) = .inl (r, c, j, b) ∧ r.startCluster = c

theorem View.findsRun_spec (hv : View g s₀ s v) (hg : g.Valid) (hc : Consistent g v o)
    (hh : o.head k) (h : findsRun s k n = true) : RunInCluster g v o k n := by
  obtain ⟨s', hread, -⟩ := hv.freeRun hg hc hh n
  rw [findsRun, hv.slots_eq, hread] at h
  cases hrun : Fat32.freeRun g v.data n (k :: o.tail k) with
  | inr r =>
    rw [hrun] at h
    cases h
  | inl x =>
    obtain ⟨r, c, j, b⟩ := x
    rw [hrun] at h
    exact ⟨r, c, j, b, hrun, beq_iff_eq.mp h⟩

theorem scanFree_run {target x : ℕ} {b : Buffer} {r : FreeRun} (hc : c ≠ 0)
    (hfree : ∀ i, x ≤ i → i < x + n → isFree (slot b i) = true)
    (hr : r.startCluster = 0 ∨ r.startCluster = c) (hlt : r.approved < target)
    (hle : target ≤ r.approved + n) :
    ∃ r' i, scanFree target c b n x r = .inl (r', i) ∧ r'.startCluster = c := by
  induction n generalizing x r with
  | zero => omega
  | succ n ih =>
    have hnext {r₁ : FreeRun} (h₁ : r₁.startCluster = c) (ha : r₁.approved = r.approved + 1) :
        ∃ r' i, (if r₁.approved = target then .inl (r₁, x) else scanFree target c b n (x + 1) r₁) =
          (.inl (r', i) : (FreeRun × ℕ) ⊕ FreeRun) ∧ r'.startCluster = c := by
      split_ifs with htarget
      · exact ⟨r₁, x, rfl, h₁⟩
      · exact ih (fun i hi hlt => hfree i (by omega) (by omega)) (Or.inr h₁) (by omega) (by omega)
    rw [scanFree, hfree x (Nat.le_refl x) (by omega)]
    rcases hr with h0 | hrc
    · simp only [if_true, h0]
      exact @hnext ⟨c, x, r.approved + 1⟩ rfl rfl
    · have hne : r.startCluster ≠ 0 := by
        rw [hrc]
        exact hc
      simp only [if_true, hne, if_false]
      exact @hnext { r with approved := r.approved + 1 } hrc rfl

theorem Vacant.runInCluster (h : Vacant g v o k) (hk : k ≠ 0) (hn : n < g.slots) :
    RunInCluster g v o k n := by
  obtain ⟨r, i, hrun, hr⟩ := @scanFree_run k g.slots (n + 1) 0 (v.data k) ⟨0, 0, 0⟩ hk
    (fun i _ hi => slotKind_eq_free.mp (h.2 i (by omega))) (Or.inl rfl) (Nat.succ_pos n) (by
      dsimp only; omega)
  refine ⟨r, k, i, v.data k, ?_, hr⟩
  rw [freeRun, h.1, overChain, runCluster, hrun]

section Success

variable (hv : View g s₀ s v) (hg : g.Valid) (hc : Consistent g v o) (hh : o.head k)

include hv hg hc hh

theorem View.allocateEntry_success (attributes : Byte) (hname : name ≠ [])
    (hshort : (classifyName s.entryName name.length).1 = 0 → hasRoom s k = true)
    (hlong : (classifyName s.entryName name.length).1 ≠ 0 →
      RunInCluster g v o k (classifyName s.entryName name.length).1) :
    ∃ t, fat32AllocateEntry s k name attributes = some (t, .success) := by
  rw [fat32AllocateEntry, if_neg hname]
  dsimp only
  by_cases hn : (classifyName s.entryName name.length).1 = 0
  · obtain ⟨t, _, _, ht, -⟩ := hv.allocateSfn_room hg hc hh name attributes (hshort hn) hn
    rw [if_neg (not_not.mpr hn)]
    exact ⟨t, ht⟩
  · obtain ⟨r, c, j, b, hrun, hr⟩ := hlong hn
    obtain ⟨t, ht, -⟩ := hv.allocateLfn_found name attributes hg hc hh hrun hr
    rw [if_pos hn]
    exact ⟨t, ht⟩

end Success

def namesInPlace (s : State) (cluster : ℕ) (name : Name) : Bool :=
  (classifyName s.entryName name.length).1 == 0 || findsSlots s cluster
    (classifyName s.entryName name.length).1

/-- An orderly `Fat32CreateFile` that needs no new cluster for a long name. -/
def Call.createsInPlace (s : State) : Call → Bool
  | .createFile path attributes => (Call.createFile path attributes).orderly s &&
      lastEntry namesInPlace (entriesOf path) s rootDirStart
  | _ => false

/-- The used slots are before the free ones, and all chains are those of directories. -/
structure Browsable (g : Geometry) (v : Vol) (o : Owners) : Prop where
  gapless : Gapless g v o
  dirs : ∀ h, o.head h → o.dir h

theorem browsable_fat32CreatePartition (hg : g.Valid) (s : State) :
    Browsable g (fat32CreatePartition s g).vol (rootOwners True) :=
  ⟨gapless_fat32CreatePartition hg s, fun _ h => h⟩

theorem Browsable.link (h : Browsable g v o) (hl : DirLinked g v v' o z) :
    Browsable g v' (o.add z [] True) := by
  refine ⟨h.gapless.link hl, fun j hj => ?_⟩
  by_cases hjz : j = z
  · rw [hjz, Owners.add_dir_self]
    trivial
  · rw [Owners.add_dir_of_ne hjz]
    exact h.dirs j (hj.resolve_left hjz)

theorem Browsable.entry {st : FatStatus} (h : Browsable g v o) (hg : g.Valid) (hv : View g s₀ s v)
    (hc : Consistent g v o) (hh : o.head k) (hd : o.dir k) (hattr : attributes &&& 0xF ≠ 0xF)
    (hname : name ≠ []) (hlen : name.length ≤ maxNameLength)
    (hq : namesInPlace s k name = true ∨ Vacant g v o k)
    (hstep : EntryStep g v o k name attributes (classifyName s.entryName name.length) st v' o') :
    Browsable g v' o' := by
  have hfinds : ∀ r, (classifyName s.entryName name.length).1 ≠ 0 →
      freeRun g v.data (classifyName s.entryName name.length).1 (k :: o.tail k) = .inr r →
      r.startCluster ≠ 0 := by
    intro r hn hrun
    rcases hq with hq | hvac
    · rw [namesInPlace, Bool.or_eq_true, beq_iff_eq] at hq
      exact hv.findsSlots_spec hg hc hh (hq.resolve_left hn) hrun
    · exact hvac.run hg (hc.head_ne_zero hh) hrun
  obtain ⟨zs, z, i, rfl, hadd, -⟩ := hstep.added hg hc h.gapless hh hd hattr hname hlen
    (classifyName_eq _ (List.length_pos_iff.mpr hname)) hfinds
  exact ⟨hadd.gapless, h.dirs⟩

theorem browsable_reaches (hg : g.Valid)
    (h : Runs.Reaches Call.run (fun s c => c.createsInPlace s = true)
      (fat32CreatePartition s₀ g) s) :
    ∃ v o, View g s s v ∧ Consistent g v o ∧ Browsable g v o := by
  refine Runs.Reaches.invariant (I := fun s => ∃ v o, View g s s v ∧ Consistent g v o ∧
    Browsable g v o) ?_ h
    ⟨_, _, view_fat32CreatePartition hg s₀, consistent_fat32CreatePartition hg s₀ True,
      browsable_fat32CreatePartition hg s₀⟩
  rintro s c t ⟨v, o, hv, hc, hb⟩ hcall hrun
  cases c with
  | writeFile => cases hcall
  | editFile => cases hcall
  | writeReservedArea => cases hcall
  | createFile path attributes =>
    rw [Call.createsInPlace, Bool.and_eq_true] at hcall
    exact createFile_invariant hg (fun _ h => ⟨h.gapless, h.dirs⟩) Browsable.link
      (fun hv hc hb hh hd hattr hname hlen hq hstep =>
      hb.entry hg hv hc hh hd hattr hname hlen hq hstep)
      hv hc hb hcall.1 hcall.2 hrun

/-- The new entry is read under its name, and a long name finds its run of free slots in one
cluster. -/
def storable (s : State) (path : Name) (attributes : Byte) : Bool :=
  let names := entriesOf path
  let form := lastForm names s
  if form.1 = 0 then
    names.getLast?.all fun name => !isFree (setSfnEntry (fun _ => 0) name attributes form.2) &&
      nameMatches (parseSfnEntry (setSfnEntry (fun _ => 0) name attributes form.2)) name
  else form.1 < s.partition.entriesPerCluster &&
    lastEntry (fun s cluster _ => findsRun s cluster form.1) names s rootDirStart

/-- The path leads to the file `new` without clusters. What was found is found, and the entries are
the same, but for the parent directory of the file when it had no cluster. -/
structure FileCreated (s t : State) (path : Name) (attributes : Byte) (new : FileInformation) :
    Prop where
  found : ∃ t', fat32GetFileInformation t path = some (t', some new)
  fileSize : new.fileSize = 0
  fatAttributes : new.fatAttributes = attributes
  kept : ∀ p s' info, fat32GetFileInformation s p = some (s', some info) →
    ∃ t' info', fat32GetFileInformation t p = some (t', some info') ∧
      SameInformation new.parentDirectoryCluster info info'

theorem PathAt.information (h : PathAt g v o (entriesOf path) k c i) (hv : View g s₀ s v)
    (hg : g.Valid) (hc : Consistent g v o) : ∃ s' name, (entriesOf path).getLast? = some name ∧
      fat32GetFileInformation s path = some (s', some (informationOf v name k c i)) := by
  obtain ⟨parents, name, hnames, hl, hk⟩ := h
  obtain ⟨s', hinfo, -⟩ := hv.getFileInformation_found hg hc hl hc.root hc.rootDir hk
    (fun n hn => entriesOf_valid path n (by rwa [hnames]))
  refine ⟨s', name, by rw [hnames, List.getLast?_concat], ?_⟩
  rw [fat32GetFileInformation, hnames]
  exact hinfo

theorem Added.pathAt (h : Added g v v' o k zs z e) (hc : Consistent g v o) (hh : o.head k)
    (hd : o.dir k)
    (hfresh : ∀ c ∈ k :: o.tail k, ∀ d ∈ g.reads (v.data c), nameMatches d.2 e.2 = false)
    (hp : PathAt g v o names j c i) :
    PathAt g v' (o.extend k zs) names j c i ∧ slot (v'.data c) i = slot (v.data c) i := by
  obtain ⟨front, last, hnames, hl, hloc⟩ := hp
  obtain ⟨hj, hjd⟩ := hl.head hc.root hc.rootDir
  obtain ⟨hloc', hslot⟩ := h.locate hc hh hd hfresh hj hjd hloc
  exact ⟨⟨front, last, hnames, h.leads hc hh hd hfresh hc.root hc.rootDir hl, hloc'⟩, hslot⟩

section LastEntry

variable {r : State} (h : LastEntry g s₀ v o [] (entriesOf path) s rootDirStart r w p name j)

include h

theorem LastEntry.head : p.head j ∧ p.dir j := by
  obtain ⟨front, -, hl⟩ := h.path
  exact hl.head h.consistent.root h.consistent.rootDir

theorem LastEntry.getLast : (entriesOf path).getLast? = some name := by
  obtain ⟨front, hnames, -⟩ := h.path
  rw [hnames, List.getLast?_concat]

theorem LastEntry.browsable (hb : Browsable g v o) : Browsable g w p := by
  rcases h.place with ⟨⟨f, rfl⟩, rfl, -, -⟩ | ⟨hlinked, rfl⟩
  · exact ⟨hb.gapless, hb.dirs⟩
  · exact hb.link hlinked

theorem LastEntry.pathAt (hc : Consistent g v o) (hp : PathAt g v o names k c i) :
    PathAt g w p names k c i ∧ SameEntry j (slot (v.data c) i) (slot (w.data c) i) := by
  obtain ⟨front, last, hnames, hl, hloc⟩ := hp
  rcases h.place with ⟨⟨f, rfl⟩, rfl, -, -⟩ | ⟨hlinked, rfl⟩
  · exact ⟨⟨front, last, hnames, hl.same hc (fun j h1 h2 => ⟨h1, h2, rfl⟩) fun _ _ => rfl, hloc⟩,
      Or.inl rfl⟩
  · obtain ⟨hk, hkd⟩ := hl.head hc.root hc.rootDir
    obtain ⟨hloc', hsame⟩ := hlinked.locate hc hk hkd hloc
    exact ⟨⟨front, last, hnames, hlinked.leads hc hl, hloc'⟩, hsame⟩

theorem LastEntry.fresh (hv : View g s s v) (hg : g.Valid) (hc : Consistent g v o)
    (hnew : ∀ s' info, fat32GetFileInformation s path ≠ some (s', some info)) :
    locate g w.data name (j :: p.tail j) = none := by
  obtain ⟨front, hnames, hl⟩ := h.path
  rcases h.place with ⟨⟨f, rfl⟩, rfl, -, -⟩ | ⟨hlinked, rfl⟩
  · cases hloc : locate g v.data name (j :: p.tail j) with
    | none => rfl
    | some ci =>
      have hl' : Leads g v p rootDirStart front j :=
        hl.same h.consistent (fun j h1 h2 => ⟨h1, h2, rfl⟩) fun _ _ => rfl
      have hat : PathAt g v p (entriesOf path) j ci.1 ci.2 := ⟨front, name, hnames, hl', hloc⟩
      obtain ⟨s', n, -, hinfo⟩ := hat.information hv hg hc
      exact absurd hinfo (hnew s' _)
  · have hvac : Vacant g w (o.add j [] True) j := ⟨Owners.add_tail_self, hlinked.free⟩
    exact hvac.locate name

theorem LastEntry.hasRoom (hg : g.Valid) (hroom : roomAt (entriesOf path) s rootDirStart = true) :
    Fat32.hasRoom r j = true := by
  obtain ⟨hh, -⟩ := h.head
  rcases h.place with ⟨-, -, -, hplace⟩ | ⟨hlinked, rfl⟩
  · rw [← hplace, hroom]
  · exact h.view.hasRoom_vacant hg h.consistent hh ⟨Owners.add_tail_self, hlinked.free⟩

theorem LastEntry.run (hv : View g s s v) (hg : g.Valid)
    (hstorable : storable s path attributes = true) (hn : (lastForm (entriesOf path) s).1 ≠ 0) :
    RunInCluster g w p j (lastForm (entriesOf path) s).1 := by
  obtain ⟨hh, -⟩ := h.head
  rw [storable] at hstorable
  rw [if_neg hn, Bool.and_eq_true, decide_eq_true_iff, hv.slots_eq] at hstorable
  rcases h.place with ⟨-, -, hlast, -⟩ | ⟨hlinked, rfl⟩
  · rw [hlast] at hstorable
    exact h.view.findsRun_spec hg h.consistent hh hstorable.2
  · have hvac : Vacant g w (o.add j [] True) j := ⟨Owners.add_tail_self, hlinked.free⟩
    exact hvac.runInCluster (h.consistent.head_ne_zero hh) hstorable.1

theorem LastEntry.stored (hchars : ∀ c ∈ name, c ≠ 0 ∧ c ≠ 0xFFFF)
    (hstorable : storable s path attributes = true) :
    nameMatches (storedName name attributes (lastForm (entriesOf path) s)) name = true ∧
      ((lastForm (entriesOf path) s).1 = 0 →
        isFree (setSfnEntry (fun _ => 0) name attributes (lastForm (entriesOf path) s).2) =
          false) := by
  rw [storable] at hstorable
  by_cases hn : (lastForm (entriesOf path) s).1 = 0
  · rw [if_pos hn, h.getLast, Option.all_some, Bool.and_eq_true, Bool.not_eq_true'] at hstorable
    rw [storedName, if_pos hn]
    exact ⟨hstorable.2, fun _ => hstorable.1⟩
  · have hlong : longName name = name := by
      rw [longName, List.filter_eq_self]
      exact fun c hc => decide_eq_true (hchars c hc)
    rw [storedName, if_neg hn, hlong, nameMatches_iff]
    exact ⟨rfl, fun h0 => absurd h0 hn⟩

theorem LastEntry.created (hv : View g s s v) (hg : g.Valid) (hc : Consistent g v o)
    (hb : Browsable g v o) (hattr : attributes &&& 0xF ≠ 0xF) (hlen : name.length ≤ maxNameLength)
    (hchars : ∀ c ∈ name, c ≠ 0xFFFF)
    (hnew : ∀ s' info, fat32GetFileInformation s path ≠ some (s', some info))
    (hstorable : storable s path attributes = true) (hv' : View g s₀ t v')
    (hstep : EntryStep g w p j name attributes (lastForm (entriesOf path) s) .success v' o') :
    ∃ new, FileCreated s t path attributes new := by
  obtain ⟨hh, hd⟩ := h.head
  have hn := h.getLast
  have hvalid := entriesOf_valid path name (List.mem_of_getLast? hn)
  obtain ⟨hstored, hread⟩ := h.stored (fun c hcn => ⟨(hvalid.char c hcn).1, hchars c hcn⟩) hstorable
  have hfresh : ∀ c ∈ j :: p.tail j, ∀ d ∈ g.reads (w.data c),
      nameMatches d.2 (storedName name attributes (lastForm (entriesOf path) s)) = false := by
    intro c hcj d hdr
    by_contra hsame
    have hfalse := locate_none_iff.mp (h.fresh hv hg hc hnew) c hcj d hdr
    rw [nameMatches_trans (Bool.not_eq_false _ ▸ hsame) hstored] at hfalse
    cases hfalse
  have hfinds (r : FreeRun) (hn : (lastForm (entriesOf path) s).1 ≠ 0)
      (hinr : freeRun g w.data (lastForm (entriesOf path) s).1 (j :: p.tail j) = .inr r) :
      r.startCluster ≠ 0 := by
    obtain ⟨r', c, x, b, hinl, -⟩ := h.run hv hg hstorable hn
    rw [hinl] at hinr
    cases hinr
  have hc' := hstep.consistent hg h.consistent hh hd hattr (by
    rw [← h.form]; exact classifyName_lt _ hlen)
  obtain ⟨zs, z, i, rfl, hadd, hfile⟩ :=
    hstep.added hg h.consistent (h.browsable hb).gapless hh hd hattr hvalid.ne_nil
    hlen (by rw [← h.form]; exact classifyName_eq _ (List.length_pos_iff.mpr hvalid.ne_nil)) hfinds
  have hnewfile := hfile rfl hread
  obtain ⟨front, hnames, hl⟩ := h.path
  have hat : PathAt g v' (p.extend j zs) (entriesOf path) j z i :=
    ⟨front, name, hnames,
      hadd.leads h.consistent hh hd hfresh h.consistent.root h.consistent.rootDir hl,
      hadd.found h.consistent hh hd hfresh hnewfile hstored⟩
  refine ⟨informationOf v' name j z i, ?_, hnewfile.fileSize, hnewfile.attributes,
    fun q s' info hinfo => ?_⟩
  · obtain ⟨t', n, hn', hfound⟩ := hat.information hv' hg hc'
    rw [hn] at hn'
    cases hn'
    exact ⟨t', hfound⟩
  · obtain ⟨n, k, c, x, hold, rfl, hq⟩ :=
      View.information_found hv hg hc hb.dirs .nil (entriesOf_valid q) hinfo
    obtain ⟨hold', hsame⟩ := h.pathAt hc hold
    obtain ⟨hold'', hslot⟩ := hadd.pathAt h.consistent hh hd hfresh hold'
    obtain ⟨t', n', hn', hfound⟩ := hold''.information hv' hg hc'
    rw [List.nil_append] at hq
    rw [hq] at hn'
    cases hn'
    rw [← hslot] at hsame
    exact ⟨t', _, hfound, hsame.information (h.consistent.head_lt hg hh)⟩

end LastEntry

/-- After calls that left no gaps, a new file whose name is storable is created if there is room for
it. If it is created, it is found, and so is everything that was found before. -/
theorem created_file_found (hg : g.Valid)
    (h : Runs.Reaches Call.run (fun s c => c.createsInPlace s = true) (fat32CreatePartition s₀ g) s)
    (hord : (Call.createFile path attributes).orderly s = true)
    (hchars : ∀ n, (entriesOf path).getLast? = some n → ∀ c ∈ n, c ≠ 0xFFFF)
    (hnew : ∀ s' info, fat32GetFileInformation s path ≠ some (s', some info))
    (hstorable : storable s path attributes = true) :
    ∃ t st, fat32CreateFile s path attributes = some (t, st) ∧
      (roomAt (entriesOf path) s rootDirStart = true → st = .success) ∧
      (st = .success → ∃ new, FileCreated s t path attributes new) := by
  obtain ⟨v, o, hv, hc, hb⟩ := browsable_reaches hg h
  have hvalid := entriesOf_valid path
  rw [fat32CreateFile]
  rcases @View.createFile_last g s s v o rootDirStart (entriesOf path) [] attributes hg hv hc .nil
      (by simpa using hvalid) with
    ⟨t, st, hrun, hst, hroom⟩ | ⟨r, w, p, name, j, hlast, hrun⟩
  · refine ⟨t, st, hrun, fun h => ?_, fun h => absurd h hst⟩
    rw [hroom] at h
    cases h
  · obtain ⟨hh, -⟩ := hlast.head
    have hn := hlast.getLast
    have hname := (hvalid name (List.mem_of_getLast? hn)).ne_nil
    rw [Call.orderly, Bool.and_eq_true, bne_iff_ne, hn, Option.all_some, decide_eq_true_iff] at hord
    obtain ⟨t, st, v', o', ht, hv', hstep⟩ :=
      hlast.view.allocateEntry_step name attributes hg hlast.consistent hh
    refine ⟨t, st, hrun.trans ht, fun hroom => ?_, fun hst => ?_⟩
    · obtain ⟨t', ht'⟩ := hlast.view.allocateEntry_success hg hlast.consistent hh attributes hname
        (fun _ => hlast.hasRoom hg hroom) (fun hn => by
          rw [hlast.form] at hn ⊢; exact hlast.run hv hg hstorable hn)
      rw [ht] at ht'
      cases ht'
      rfl
    · subst hst
      rw [hlast.form] at hstep
      exact hlast.created hv hg hc hb hord.1 hord.2 (hchars name hn) hnew hstorable hv' hstep

/-- `D/long_file.text` -/
def longFilePath : Name := 0x44 :: 0x2F :: longFileName

theorem not_found_of_isNone {r : Option (State × Option FileInformation)}
    (h : (r.bind Prod.snd).isNone = true) :
    ∀ s info, r ≠ some (s, some info) := by
  rintro s info rfl
  cases h

/-- The directory `D` is created, and a file with a long name in it. -/
theorem created_file_found_small : ∃ s, Runs.Reaches Call.run (fun s c => c.createsInPlace s = true)
    (fat32CreatePartition (blankDrive smallGeometry 0) smallGeometry) s ∧
    ∃ t, fat32CreateFile s longFilePath 0x20 = some (t, .success) ∧
      ∃ new, FileCreated s t longFilePath 0x20 new := by
  obtain ⟨s, hs⟩ : ∃ s, Runs.guardedRun Call.run (fun s c => c.createsInPlace s = true)
      (fat32CreatePartition (blankDrive smallGeometry 0) smallGeometry) [.createFile [0x44] 0x10] =
      some s :=
    Option.isSome_iff_exists.mp (by decide +kernel)
  have hr := Runs.reaches_of_guardedRun _ hs
  have hpath : entriesOf longFilePath = [[0x44], longFileName] := by decide
  have hord : (Call.createFile longFilePath 0x20).orderly s = true :=
    Runs.eq_of_map (fun s => (Call.createFile longFilePath 0x20).orderly s) hs (by decide +kernel)
  have hnew : ((fat32GetFileInformation s longFilePath).bind Prod.snd).isNone = true :=
    Runs.eq_of_map (fun s => ((fat32GetFileInformation s longFilePath).bind Prod.snd).isNone) hs (by
      decide +kernel)
  have hstorable : storable s longFilePath 0x20 = true :=
    Runs.eq_of_map (fun s => storable s longFilePath 0x20) hs (by decide +kernel)
  have hroom : roomAt (entriesOf longFilePath) s rootDirStart = true :=
    Runs.eq_of_map (fun s => roomAt (entriesOf longFilePath) s rootDirStart) hs (by decide +kernel)
  have hchars : ∀ n, (entriesOf longFilePath).getLast? = some n → ∀ c ∈ n, c ≠ 0xFFFF := by
    intro n hn c hc
    rw [hpath] at hn
    cases hn
    exact (longFileName_chars c hc).2
  obtain ⟨t, st, ht, hsuccess, hcreated⟩ := created_file_found smallGeometry_valid hr hord hchars
    (not_found_of_isNone hnew) hstorable
  rw [hsuccess hroom] at ht
  exact ⟨s, hr, t, ht, hcreated (hsuccess hroom)⟩

/-- The file `D/F` gives the directory `D` its first cluster, so the entry of `D` is not the same.
In a new volume a name of 200 characters is refused, and three clusters are free. -/
theorem parent_changed_long_refused :
    (∃ s t, Runs.Reaches Call.run (fun s c => createCall s c = true)
      (fat32CreatePartition (blankDrive smallGeometry 0) smallGeometry) s ∧
      fat32CreateFile s [0x44, 0x2F, 0x46] 0x20 = some (t, .success) ∧
      ¬ ∀ s' info, fat32GetFileInformation s [0x44] = some (s', some info) →
        ∃ t', fat32GetFileInformation t [0x44] = some (t', some info)) ∧
    (roomAt (entriesOf (List.replicate 200 0x61)) smallVolume rootDirStart = true ∧
      (fat32CreateFile smallVolume (List.replicate 200 0x61) 0x20).map Prod.snd =
        some .readError) := by
  constructor
  · obtain ⟨s, hs⟩ : ∃ s, Runs.guardedRun Call.run (fun s c => createCall s c = true)
        (fat32CreatePartition (blankDrive smallGeometry 0) smallGeometry) [.createFile [0x44]
        0x10] = some s :=
      Option.isSome_iff_exists.mp (by decide +kernel)
    have hst : (fat32CreateFile s [0x44, 0x2F, 0x46] 0x20).map Prod.snd = some .success :=
      Runs.eq_of_map (fun s => (fat32CreateFile s [0x44, 0x2F, 0x46] 0x20).map Prod.snd) hs (by
        decide +kernel)
    obtain ⟨⟨t, st⟩, ht, rfl⟩ := Option.map_eq_some_iff.mp hst
    refine ⟨s, t, Runs.reaches_of_guardedRun _ hs, ht, fun hkept => ?_⟩
    have hbefore : ((fat32GetFileInformation s [0x44]).bind Prod.snd).map (·.clusterStart) =
        some 0 :=
      Runs.eq_of_map (fun s => ((fat32GetFileInformation s [0x44]).bind Prod.snd).map
        (·.clusterStart)) hs
        (by decide +kernel)
    have hafter : (fat32CreateFile s [0x44, 0x2F, 0x46] 0x20).bind (fun r =>
        ((fat32GetFileInformation r.1 [0x44]).bind Prod.snd).map (·.clusterStart)) = some 3 :=
      Runs.eq_of_map (fun s => (fat32CreateFile s [0x44, 0x2F, 0x46] 0x20).bind (fun r =>
        ((fat32GetFileInformation r.1 [0x44]).bind Prod.snd).map (·.clusterStart))) hs (by
          decide +kernel)
    obtain ⟨info, hinfo, h0⟩ := Option.map_eq_some_iff.mp hbefore
    obtain ⟨⟨s', _⟩, hfound, rfl⟩ := Option.bind_eq_some_iff.mp hinfo
    obtain ⟨t', hfound'⟩ := hkept s' info hfound
    rw [ht, Option.bind_some, hfound', Option.bind_some, Option.map_some, h0] at hafter
    cases hafter
  · exact ⟨by decide +kernel, by decide +kernel⟩

end DevOs.Fat32
