import DevOs.Fat32.Content
import DevOs.Fat32.Edit

/-!
# The status of a write

`Fat32WriteFile` returns after different amounts of work. A refused call has changed nothing. An
append is successful when its clusters were allocated, wherever its data are put. A write that
begins before the end of the file returns one, which is the status of a lack of space, after it has
changed the file.

`Position + NumBytes` is a `UINT32`. A file has less than `2 ^ 32` bytes, so it never contains a
buffer that ends behind that.
-/

namespace DevOs.Fat32

open Bytes Chains

variable {g : Geometry} {s₀ s t s₁ : State} {v : Vol} {o : Owners} {path : Name}
    {info : FileInformation}
  {buffer : Buffer} {position numBytes k c i : ℕ} {l : List ℕ}

def FileClusters (g : Geometry) (s : State) (info : FileInformation) (l : List ℕ) : Prop :=
  (info.clusterStart = 0 ∧ l = []) ∨ IsFileChain g s info l

/-- The file at the path has the bytes of the buffer from the position on. -/
def Contains (g : Geometry) (s : State) (path : Name) (buffer : Buffer) (position numBytes : ℕ) :
    Prop :=
  1 ≤ numBytes ∧ ∃ s₁ info l, fat32GetFileInformation s path = some (s₁, some info) ∧
    FileClusters g s info l ∧
    position + numBytes ≤ info.fileSize ∧ info.fileSize ≤ g.clusterBytes * l.length ∧
    ∀ j < numBytes, chainByte g.clusterBytes s.data l (position + j) = buffer j

/-- The call returns. It is successful exactly when the file contains the buffer afterwards, and the
statuses of a refusal are those of a call that has changed nothing on the drive. -/
def Truthful (g : Geometry) (s : State) (path : Name) (buffer : Buffer) (position numBytes : ℕ) :
    Prop :=
  ∃ t st, fat32WriteFile s path buffer position numBytes = some (t, st) ∧
    (st = .success ↔ Contains g t path buffer position numBytes) ∧
    (st = .noEnoughSpace ∨ st = .notFound ∨ st = .invalidParameter → t.disk = s.disk)

def requiredClusters (clusterSize size position numBytes : ℕ) : ℕ :=
  ceilDiv (sub32 (u32 (position + numBytes)) size) clusterSize

def Lacking (g : Geometry) (s : State) (size position numBytes : ℕ) : Prop :=
  requiredClusters g.clusterBytes size position numBytes = 0 ∨
    freeEntries g s < requiredClusters g.clusterBytes size position numBytes

/-- The part of the buffer that belongs into the old clusters `l` is there already, and the rest is
the same when it is moved to where the data are put. -/
structure BufferLands (g : Geometry) (s : State) (size : ℕ) (l : List ℕ) (buffer : Buffer)
    (position numBytes : ℕ) : Prop where
  slack : ∀ j < numBytes, position + j < g.clusterBytes * l.length →
    chainByte g.clusterBytes s.data l (position + j) = buffer j
  data : ∀ j < numBytes, g.clusterBytes * l.length ≤ position + j →
    buffer j = appendedByte (g.clusterBytes * l.length + gapStart g.clusterBytes position
    (position - size))
      numBytes buffer (position + j)

/-- When the status is right, for a file of `size` bytes in the clusters `l`. -/
def StatusRight (g : Geometry) (s : State) (size : ℕ) (l : List ℕ) (buffer : Buffer)
    (position numBytes : ℕ) : Prop :=
  if size ≤ position then
    Lacking g s size position numBytes ∨
      (position + numBytes < 2 ^ 32 ∧ BufferLands g s size l buffer position numBytes)
  else if size < u32 (position + numBytes) then Lacking g s size position numBytes
  else 2 ^ 32 ≤ position + numBytes ∧ ∀ y, position ≤ y → y < position + numBytes →
    y < g.clusterBytes * l.length → chainByte g.clusterBytes s.data l y = buffer (y - position)

def Geometry.InCluster (g : Geometry) (c x : ℕ) : Prop :=
  512 * (g.dataStart + g.clusterSize * (c - 2)) ≤ x ∧
    x < 512 * (g.dataStart + g.clusterSize * (c - 2)) + 512 * g.clusterSize

def Outside (g : Geometry) (s t : State) : Prop :=
  ∀ x, (∀ c, g.InData c → ¬ g.InCluster c x) → t.disk x = s.disk x

theorem Outside.trans {r : State} (h : Outside g r s) (h' : Outside g s t) : Outside g r t :=
  fun x hx => (h' x hx).trans (h x hx)

theorem Cached.outside (h : Cached s t) : Outside g s t := fun x _ => by rw [h.disk]

theorem View.outside_writeCluster (hv : View g s₀ s v) (hg : g.Valid) (hc : g.InData c)
    (b : Buffer) :
    Outside g s (fat32WriteCluster s c b) := by
  intro x hx
  have hne := hx c hc
  rw [Geometry.InCluster] at hne
  rw [hv.writeCluster_eq hg hc, State.write_disk, copy_zero_apply, if_neg hne]

theorem View.disk_eq {v' : Vol} {s₂ : State} (hv : View g s₀ s v) (hv' : View g s₂ t v')
    (hg : g.Valid) (hout : Outside g s t)
    (hdata : ∀ c, g.InData c → ∀ y < g.clusterBytes, t.data c y = s.data c y) :
    t.disk = s.disk := by
  funext x
  by_cases hx : ∀ c, g.InData c → ¬ g.InCluster c x
  · exact hout x hx
  · push Not at hx
    obtain ⟨c, hc, hle, hlt⟩ := hx
    have hcs : s.partition.boot.clusterSize = g.clusterSize := by rw [hv.boot]; rfl
    have hcs' : t.partition.boot.clusterSize = g.clusterSize := by rw [hv'.boot]; rfl
    have hbyte := hdata c hc (x - 512 * (g.dataStart + g.clusterSize * (c - 2)))
      (by rw [Geometry.clusterBytes]; omega)
    rw [State.data, State.data, hg.clusterSector_eq hv.boot hc, hg.clusterSector_eq hv'.boot hc,
      hcs, hcs', State.read, State.read, window, window, if_pos (by omega), if_pos (by omega),
      Nat.add_sub_cancel' hle] at hbyte
    exact hbyte

theorem View.outside_overwriteCluster {a : Overwriting} (hv : View g s₀ s v) (buffer : Buffer)
    (hg : g.Valid) (hc : g.InData a.cluster) :
    Outside g s (Fat32.overwriteCluster s g.clusterBytes buffer a).1 := by
  rw [Fat32.overwriteCluster]
  split_ifs
  · exact hv.outside_writeCluster hg hc _
  · obtain ⟨s', hread, hv'⟩ := hv.readCluster hg hc a.readCluster
    have hcached : Cached s s' := by
      have hsuccess := fat32ReadCluster_success
        (show (fat32ReadCluster s a.cluster false a.readCluster).status = .success by rw [hread])
      rw [hread] at hsuccess
      exact hsuccess.2.2
    dsimp only
    rw [hread]
    exact hcached.outside.trans (hv'.outside_writeCluster hg hc _)
  · exact (Cached.refl s).outside

theorem View.outside_overwriteLoop {n : ℕ} {a : Overwriting} (hv : View g s₀ s v) (hg : g.Valid)
    (hl : g.IsChain v.fat (c :: l)) (ha : a.cluster = c)
    (h : Fat32.overwriteLoop g.clusterBytes buffer n s c a = some t) : Outside g s t := by
  induction n generalizing s v c l a with
  | zero => cases h
  | succ n ih =>
    have hc := hl.inData c (by simp)
    obtain ⟨hview, hnext⟩ := hv.getNextCluster hg hc
    have hcached : Cached s (fat32GetNextCluster s c).1 := by
      rw [fat32GetNextCluster, if_neg (hg.inData_ne_end hc)]
      exact cached_fatEntry s c
    have hone := hview.outside_overwriteCluster (a := a) buffer hg (by rw [ha]; exact hc)
    obtain ⟨s₁, a', D, hover, hv₁, -⟩ :=
      hview.overwriteCluster buffer hg (a := a) (by rw [ha]; exact hc)
    rw [hover] at hone
    have hfirst := hcached.outside.trans hone
    rw [Fat32.overwriteLoop] at h
    simp only [hnext, if_neg (hl.fat_ne_zero c (by simp)), hover] at h
    split_ifs at h with hrem
    · cases h
      exact hfirst
    · rw [hl.next] at h
      cases l with
      | nil =>
        cases n with
        | zero => cases h
        | succ n =>
          rw [List.headD_nil, Fat32.overwriteLoop, fat32GetNextCluster_end] at h
          cases h
          exact hfirst
      | cons d l =>
        rw [List.headD_cons] at h
        exact hfirst.trans (ih (a := { a' with cluster := d }) hv₁ hl.tail rfl h)

theorem getFileInformation_cached {r : Option FileInformation}
    (h : fat32GetFileInformation s path = some (s₁, r)) : Cached s s₁ := by
  have heq := getFileInformation_eq (fun n hn => (entriesOf_valid path n hn).ne_nil) s rootDirStart
  rw [fat32GetFileInformation] at h
  rcases hplace : entryPlace (entriesOf path) s rootDirStart with _ | ⟨t, _ | ⟨c, i⟩⟩
  · rw [hplace, h] at heq
    cases heq
  · rw [hplace, h] at heq
    cases heq
    exact (entryPlace_spec (by decide) hplace).1
  · rw [hplace] at heq
    obtain ⟨info, hinfo, -⟩ := heq
    rw [h] at hinfo
    cases hinfo
    exact (entryPlace_spec (by decide) hplace).1

theorem getFileInformation_fileSize_lt (h : fat32GetFileInformation s path = some (s₁, some info)) :
    info.fileSize < 2 ^ 32 := by
  have heq := getFileInformation_eq (fun n hn => (entriesOf_valid path n hn).ne_nil) s rootDirStart
  rw [fat32GetFileInformation] at h
  rcases hplace : entryPlace (entriesOf path) s rootDirStart with _ | ⟨t, _ | ⟨c, i⟩⟩
  · rw [hplace, h] at heq
    cases heq
  · rw [hplace, h] at heq
    cases heq
  · rw [hplace] at heq
    obtain ⟨info', hinfo, hreported⟩ := heq
    rw [h] at hinfo
    cases hinfo
    rw [hreported.fileSize]
    exact getLE_lt _ _ 4

theorem Contains.lt (h : Contains g s path buffer position numBytes) :
    position + numBytes < 2 ^ 32 := by
  obtain ⟨-, s₁, info, l, hinfo, -, hle, -⟩ := h
  exact hle.trans_lt (getFileInformation_fileSize_lt hinfo)

theorem FileClusters.unique {m : List ℕ} (hl : FileClusters g s info l)
    (hm : FileClusters g s info m) : l = m := by
  have hzero {l : List ℕ} (h0 : info.clusterStart = 0) (hl : IsFileChain g s info l) : False := by
    obtain ⟨m, rfl⟩ := List.head?_eq_some_iff.mp hl.1
    have hin := hl.2.inData _ List.mem_cons_self
    rw [h0] at hin
    exact absurd hin.1 (by decide)
  rcases hl with ⟨h0, rfl⟩ | hl
  · rcases hm with ⟨-, rfl⟩ | hm
    · rfl
    · exact (hzero h0 hm).elim
  · rcases hm with ⟨h0, rfl⟩ | hm
    · exact (hzero h0 hl).elim
    · exact hl.unique hm

theorem FileIn.firstCluster (h : FileIn g s s₁ path info v o k c i) :
    firstCluster (slot (v.data c) i) = info.clusterStart := by
  rw [h.found]
  rfl

theorem FileIn.fileSize (h : FileIn g s s₁ path info v o k c i) :
    fileSize (slot (v.data c) i) = info.fileSize := by
  rw [h.found]
  rfl

theorem FileIn.fits (h : FileIn g s s₁ path info v o k c i) (hs : o.sized)
    (hl : FileClusters g s info l) :
    info.fileSize ≤ g.clusterBytes * l.length := by
  rcases hl with ⟨h0, rfl⟩ | hl
  · rw [← h.fileSize, h.file.empty h.consistent (h.firstCluster.trans h0)]
    exact Nat.zero_le _
  · have h0 : info.clusterStart ≠ 0 := by
      intro h0
      have hin := hl.2.inData info.clusterStart (List.mem_of_mem_head? hl.1)
      rw [h0] at hin
      exact absurd hin.1 (by decide)
    rw [(h.chain h0 hl).2.2, ← h.fileSize]
    exact (h.file.owner h.consistent h.firstCluster h0).2.2.2 hs

theorem FileIn.clusters (h : FileIn g s s₁ path info v o k c i) :
    ∃ l, FileClusters g s info l ∧
      ((info.clusterStart = 0 ∧ l = []) ∨ g.IsChain v.fat l ∧ l.head? = some info.clusterStart) :=
  by
  by_cases h0 : info.clusterStart = 0
  · exact ⟨[], Or.inl ⟨h0, rfl⟩, Or.inl ⟨h0, rfl⟩⟩
  · obtain ⟨hh, -⟩ := h.file.owner h.consistent h.firstCluster h0
    have hl := h.consistent.chains _ hh
    exact ⟨_, Or.inr ⟨rfl, h.before.isChain hl⟩, Or.inr ⟨hl, rfl⟩⟩

/-- The allocation is refused exactly for a number of clusters that is zero or not free. -/
theorem FileIn.refused_iff (h : FileIn g s s₁ path info v o k c i) {n : ℕ} :
    Refused g v info.clusterStart n ↔ n = 0 ∨ freeEntries g s < n := by
  have hfree := h.consistent.counted.freeEntries_eq h.before
  rw [hfree]
  constructor
  · intro hr
    by_contra hn
    rw [not_or] at hn
    by_cases h0 : info.clusterStart = 0
    · rw [Refused, h0] at hr
      omega
    · obtain ⟨hh, -⟩ := h.file.owner h.consistent h.firstCluster h0
      exact h.consistent.not_refused hh (Nat.pos_of_ne_zero hn.1) (Nat.not_lt.mp hn.2) hr
  · rintro (hn | hn)
    · exact Or.inl hn
    · exact Or.inr (Or.inr (Or.inr hn))

theorem FileIn.append_lacking (h : FileIn g s s₁ path info v o k c i) (hg : g.Valid)
    (hlack : Lacking g s info.fileSize position numBytes) :
    appendFile s₁ path info buffer position numBytes = some (s₁, .noEnoughSpace) := by
  have hrefused := h.after.refused hg (h.refused_iff.mpr hlack)
  rw [requiredClusters] at hrefused
  rw [appendFile]
  simp only [h.after.clusterBytes_eq, hrefused, if_true]

theorem FileIn.overwrite_lacking (h : FileIn g s s₁ path info v o k c i) (hg : g.Valid)
    (hgrow : info.fileSize < u32 (position + numBytes))
    (hlack : Lacking g s info.fileSize position numBytes) :
    overwriteFile s₁ path info buffer position numBytes = some (s₁, .noEnoughSpace) := by
  have hrefused := h.after.refused hg (h.refused_iff.mpr hlack)
  have hsub : sub32 (u32 (position + numBytes)) info.fileSize =
      u32 (position + numBytes) - info.fileSize := by
    have hlt : u32 (position + numBytes) < 2 ^ 32 := Nat.mod_lt _ (by decide)
    rw [sub32]
    omega
  rw [requiredClusters, hsub] at hrefused
  rw [overwriteFile]
  simp only [h.after.clusterBytes_eq, if_pos hgrow, hrefused, if_true]

theorem FileIn.append_status {st : FatStatus} (h : FileIn g s s₁ path info v o k c i) (hg : g.Valid)
    (hlack : ¬ Lacking g s info.fileSize position numBytes)
    (hrun : appendFile s₁ path info buffer position numBytes = some (t, st)) : st = .success := by
  obtain ⟨l, -, hl⟩ := h.clusters
  rcases h.after.grow hg h.consistent.counted hl with ⟨hr, -⟩ | ⟨-, s₂, v₂, z, zs, halloc, hz, -⟩
  · exact absurd (h.refused_iff.mp hr) hlack
  · rw [requiredClusters] at halloc
    rw [appendFile] at hrun
    simp only [h.after.clusterBytes_eq, halloc, if_neg hz] at hrun
    split at hrun
    · cases hrun
    · split at hrun
      · cases hrun
      · obtain ⟨s₃, -, heq⟩ := Option.map_eq_some_iff.mp hrun
        cases heq
        rfl

/-- A call that is refused for lack of space is right about it, when the file is too short for the
buffer. -/
theorem FileIn.truthful_of_refused (h : FileIn g s s₁ path info v o k c i) (hg : g.Valid)
    (hinfo : fat32GetFileInformation s path = some (s₁, some info))
    (hrun : fat32WriteFile s path buffer position numBytes = some (s₁, .noEnoughSpace))
    (hsize : info.fileSize < position + numBytes) : Truthful g s path buffer position numBytes := by
  refine ⟨s₁, .noEnoughSpace, hrun, ⟨fun hst => (by cases hst), fun hcont => ?_⟩,
    fun _ => (getFileInformation_cached hinfo).disk⟩
  obtain ⟨-, s₂, info₂, l, hinfo₂, -, hle, -⟩ := hcont
  obtain ⟨s₃, info₃, hinfo₃, -, hsize₃⟩ := h.file.information h.after hg h.consistent
  rw [hinfo₂] at hinfo₃
  cases hinfo₃
  rw [h.fileSize] at hsize₃
  omega

theorem write_append (buffer : Buffer) (hn : 1 ≤ numBytes)
    (hinfo : fat32GetFileInformation s path = some (s₁, some info))
    (hsize : info.fileSize ≤ position) :
    fat32WriteFile s path buffer position numBytes =
      appendFile s₁ path info buffer position numBytes := by
  rw [fat32WriteFile, if_neg (by omega), hinfo]
  dsimp only
  rw [if_pos hsize]

theorem write_overwrite (buffer : Buffer) (hn : 1 ≤ numBytes)
    (hinfo : fat32GetFileInformation s path = some (s₁, some info))
    (hsize : position < info.fileSize) :
    fat32WriteFile s path buffer position numBytes =
      overwriteFile s₁ path info buffer position numBytes := by
  rw [fat32WriteFile, if_neg (by omega), hinfo]
  dsimp only
  rw [if_neg (by omega)]

theorem requiredClusters_eq_ceilDiv {n size : ℕ} (hsize : size ≤ position + numBytes)
    (hlt : position + numBytes < 2 ^ 32) :
    requiredClusters n size position numBytes = ceilDiv (position + numBytes - size) n := by
  rw [requiredClusters, u32, Nat.mod_eq_of_lt hlt]
  congr 1
  rw [sub32]
  omega

/-- Whether the file contains the buffer, when the lookup and the clusters are known. -/
theorem contains_iff (hinfo : fat32GetFileInformation s path = some (s₁, some info))
    (hl : IsFileChain g s info l) (hn : 1 ≤ numBytes) (hle : position + numBytes ≤ info.fileSize)
    (hcap : info.fileSize ≤ g.clusterBytes * l.length) :
    Contains g s path buffer position numBytes ↔
      ∀ j < numBytes, chainByte g.clusterBytes s.data l (position + j) = buffer j := by
  constructor
  · rintro ⟨-, s₂, info₂, m, hinfo₂, hm, -, -, hbyte⟩
    rw [hinfo] at hinfo₂
    cases hinfo₂
    rwa [FileClusters.unique (Or.inr hl) hm]
  · intro hbyte
    exact ⟨hn, s₁, info, l, hinfo, Or.inr hl, hle, hcap, hbyte⟩

theorem appendedByte_self {start n j : ℕ} (hj : j < n) :
    appendedByte start n buffer (start + j) = buffer j := by
  rw [appendedByte, if_neg (by omega), if_pos (by omega), Nat.add_sub_cancel_left]

/-- An append that gets its clusters is successful, and right about it when its data land. -/
theorem FileIn.append_contains (h : FileIn g s s₁ path info v o k c i) (buffer : Buffer)
    (hg : g.Valid) (hinfo : fat32GetFileInformation s path = some (s₁, some info))
    (hl : FileClusters g s info l) (hcap : info.fileSize ≤ g.clusterBytes * l.length)
    (hposition : info.fileSize ≤ position) (hn : 1 ≤ numBytes) (hlt : position + numBytes < 2 ^ 32)
    (hlack : ¬ Lacking g s info.fileSize position numBytes) :
    ∃ t, fat32WriteFile s path buffer position numBytes = some (t, .success) ∧
      (Contains g t path buffer position numBytes ↔
        BufferLands g s info.fileSize l buffer position numBytes) := by
  have hpos := hg.clusterBytes_pos
  rw [Lacking, not_or, Nat.not_lt, requiredClusters_eq_ceilDiv (by omega) hlt] at hlack
  obtain ⟨-, hfree⟩ := hlack
  rcases hl with ⟨h0, rfl⟩ | hl
  · have hsize : info.fileSize = 0 := by
      rw [List.length_nil, Nat.mul_zero] at hcap
      omega
    rw [hsize, Nat.sub_zero] at hfree
    obtain ⟨t, s₂, info', l', hrun, hinfo', hsize', hl', hlen, hbyte, -⟩ :=
      h.first_done buffer hg hinfo h0 hn hlt hfree
    have hcap' : info'.fileSize ≤ g.clusterBytes * l'.length := by
      rw [hsize', hlen]
      exact le_mul_ceilDiv _ hpos
    refine ⟨t, hrun, iff_of_true ?_ ⟨fun j hj hlt => ?_, fun j hj _ => ?_⟩⟩
    · rw [contains_iff hinfo' hl' hn hsize'.ge hcap']
      intro j hj
      rw [hbyte _ (by omega), appendedByte_self hj]
    · rw [List.length_nil, Nat.mul_zero] at hlt
      omega
    · rw [List.length_nil, Nat.mul_zero, Nat.zero_add, hsize, Nat.sub_zero, gapStart_self,
        appendedByte_self hj]
  · have h0 : info.clusterStart ≠ 0 := by
      intro h0
      have hin := hl.2.inData info.clusterStart (List.mem_of_mem_head? hl.1)
      rw [h0] at hin
      exact absurd hin.1 (by decide)
    rw [h.consistent.counted.freeEntries_eq h.before] at hfree
    obtain ⟨t, s₂, info', zs, hrun, hinfo', hsize', hl', hlen, hold, hnew⟩ :=
      h.append_done buffer hg hinfo h0 hl hcap hposition hn hlt hfree
    have hcap' : info'.fileSize ≤ g.clusterBytes * (l ++ zs).length := by
      have hceil := le_mul_ceilDiv (position + numBytes - info.fileSize) hpos
      rw [← hlen] at hceil
      rw [hsize', List.length_append, Nat.mul_add]
      omega
    refine ⟨t, hrun, ?_⟩
    rw [contains_iff hinfo' hl' hn hsize'.ge hcap']
    constructor
    · intro hbyte
      refine ⟨fun j hj hjl => ?_, fun j hj hjl => ?_⟩
      · rw [← hold _ hjl]
        exact hbyte j hj
      · rw [← hbyte j hj]
        exact hnew _ hjl (by omega)
    · intro hlands j hj
      by_cases hjl : position + j < g.clusterBytes * l.length
      · rw [hold _ hjl]
        exact hlands.slack j hj hjl
      · rw [hnew _ (Nat.not_lt.mp hjl) (by omega)]
        exact (hlands.data j hj (Nat.not_lt.mp hjl)).symm

/-- The write that begins before the end of the file and has its clusters has the status of a
refusal. -/
theorem FileIn.overwrite_untruthful (h : FileIn g s s₁ path info v o k c i) (hg : g.Valid)
    (hinfo : fat32GetFileInformation s path = some (s₁, some info)) (hl : IsFileChain g s info l)
    (hcap : info.fileSize ≤ g.clusterBytes * l.length) (hposition : position < info.fileSize)
    (hn : 1 ≤ numBytes) (hlt : position + numBytes < 2 ^ 32)
    (hlack : info.fileSize < position + numBytes → ¬ Lacking g s info.fileSize position numBytes) :
    ¬ Truthful g s path buffer position numBytes := by
  obtain ⟨t, s₂, info', l', hrun, hinfo', hsize', hl', hcap', hbyte, -⟩ :=
    h.overwrite_done buffer hg hinfo hl hcap hposition hn hlt (fun hgrow => by
      have hlack := hlack hgrow
      rw [Lacking, not_or, Nat.not_lt, requiredClusters_eq_ceilDiv hgrow.le hlt] at hlack
      exact hlack.2)
  rintro ⟨t', st, hrun', hst, -⟩
  rw [hrun] at hrun'
  cases hrun'
  have hcont : Contains g t path buffer position numBytes := by
    have hle : position + numBytes ≤ info'.fileSize := by
      rw [hsize']
      exact Nat.le_max_right _ _
    rw [contains_iff hinfo' hl' hn hle hcap']
    intro j hj
    rw [hbyte _ (by omega), splicedByte, if_pos (by omega), Nat.add_sub_cancel_left]
  exact absurd (hst.mpr hcont) (by decide)

theorem chainByte_getElem {n m y : ℕ} {d : ℕ → Buffer} (hm : m < l.length) (hy : y < n) :
    chainByte n d l (n * m + y) = d l[m] y := by
  rw [chainByte, Nat.mul_add_div (by omega), Nat.div_eq_of_lt hy, Nat.add_zero, Nat.mul_add_mod,
    Nat.mod_eq_of_lt hy, List.getD_eq_getElem _ _ hm]

/-- A write that ends behind the last `UINT32` replaces the bytes up to the end of the clusters. -/
theorem FileIn.overwrite_wrapped (h : FileIn g s s₁ path info v o k c i) (hg : g.Valid)
    (hinfo : fat32GetFileInformation s path = some (s₁, some info)) (hl : IsFileChain g s info l)
    (hposition : position < info.fileSize) (hn : 1 ≤ numBytes) (hnum : numBytes < 2 ^ 32)
    (hle : 2 ^ 32 ≤ position + numBytes) :
    Truthful g s path buffer position numBytes ↔ ∀ y, position ≤ y → y < position + numBytes →
      y < g.clusterBytes * l.length →
      chainByte g.clusterBytes s.data l y = buffer (y - position) := by
  have hsize := getFileInformation_fileSize_lt hinfo
  obtain ⟨m, rfl⟩ := List.head?_eq_some_iff.mp hl.1
  have hin := hl.2.inData
  have hchain : g.IsChain v.fat (info.clusterStart :: m) := h.before.isChain_vol hl.2
  have hlen := hg.chain_length hchain.chain hin
  rw [List.length_cons] at hlen
  obtain ⟨t, D, hloop, hv, hother, hbytes⟩ : ∃ t D, overwriteLoop g.clusterBytes buffer walkFuel s₁
      info.clusterStart ⟨info.clusterStart, position, numBytes, 0, fun _ => 0⟩ = some t ∧
      View g s t { v with data := D } ∧ (∀ b, b ∉ info.clusterStart :: m → D b = v.data b) ∧
      ∀ y < g.clusterBytes * (info.clusterStart :: m).length,
        chainByte g.clusterBytes D (info.clusterStart :: m) y = splicedByte position numBytes
          (fun y => buffer (0 + y)) (chainByte g.clusterBytes v.data (info.clusterStart :: m)) y :=
    h.after.overwriteLoop hg hchain rfl (by omega)
  have hrun : fat32WriteFile s path buffer position numBytes = some (t, .noEnoughSpace) := by
    have hwrap : ¬ info.fileSize < u32 (position + numBytes) := by
      rw [u32]
      omega
    rw [write_overwrite buffer hn hinfo hposition, overwriteFile]
    simp only [h.after.clusterBytes_eq, if_neg hwrap, hloop, Option.map_some]
  have hdisk : Truthful g s path buffer position numBytes ↔ t.disk = s.disk := by
    constructor
    · rintro ⟨t', st, hrun', -, hkept⟩
      rw [hrun] at hrun'
      cases hrun'
      exact hkept (Or.inl rfl)
    · intro hdisk
      refine ⟨t, .noEnoughSpace, hrun, ⟨fun hst => (by cases hst), fun hcont => ?_⟩, fun _ => hdisk⟩
      exact absurd hcont.lt (Nat.not_lt.mpr hle)
  rw [hdisk]
  constructor
  · intro hdisk y hy hyn hylen
    have hdata (b : ℕ) (hb : b ∈ info.clusterStart :: m) : s.data b = t.data b := by
      rw [State.data, State.data, hg.clusterSector_eq h.before.boot (hin b hb),
        hg.clusterSector_eq hv.boot (hin b hb), h.before.boot, hv.boot, State.read,
        State.read, hdisk]
    rw [chainByte_congr hdata hylen, hv.chainByte_eq hin hylen, hbytes y hylen, splicedByte,
      if_pos ⟨hy, hyn⟩, Nat.zero_add]
  · intro hsame
    have hcached := getFileInformation_cached hinfo
    refine h.before.disk_eq hv hg
      (hcached.outside.trans (h.after.outside_overwriteLoop hg hchain rfl hloop))
      fun b hb y hy => ?_
    rw [hv.data b hb]
    by_cases hbl : b ∈ info.clusterStart :: m
    · obtain ⟨j, hj, rfl⟩ := List.mem_iff_getElem.mp hbl
      have hylen : g.clusterBytes * j + y < g.clusterBytes * (info.clusterStart :: m).length :=
        (Nat.add_lt_add_left hy _).trans_le (Nat.mul_le_mul_left _ hj)
      change D _ y = _
      rw [← chainByte_getElem (d := D) hj hy, ← chainByte_getElem (d := s.data) hj hy,
        hbytes _ hylen, splicedByte]
      split_ifs with hin'
      · rw [Nat.zero_add]
        exact (hsame _ hin'.1 hin'.2 hylen).symm
      · exact (h.before.chainByte_eq hin hylen).symm
    · change D b y = _
      rw [hother b hbl, h.before.data b hb]

theorem FileIn.truthful_iff (h : FileIn g s s₁ path info v o k c i) (buffer : Buffer) (hg : g.Valid)
    (hinfo : fat32GetFileInformation s path = some (s₁, some info)) (hl : FileClusters g s info l)
    (hcap : info.fileSize ≤ g.clusterBytes * l.length) (hn : 1 ≤ numBytes) (hp : position < 2 ^ 32)
    (hnum : numBytes < 2 ^ 32) : Truthful g s path buffer position numBytes ↔
      StatusRight g s info.fileSize l buffer position numBytes := by
  by_cases hposition : info.fileSize ≤ position
  · rw [StatusRight, if_pos hposition]
    by_cases hlack : Lacking g s info.fileSize position numBytes
    · have hrun := (write_append buffer hn hinfo hposition).trans (h.append_lacking hg hlack)
      exact iff_of_true (h.truthful_of_refused hg hinfo hrun (by omega)) (Or.inl hlack)
    · by_cases hlt : position + numBytes < 2 ^ 32
      · obtain ⟨t, hrun, hcont⟩ := h.append_contains buffer hg hinfo hl hcap hposition hn hlt hlack
        constructor
        · rintro ⟨t', st, hrun', hst, -⟩
          rw [hrun] at hrun'
          cases hrun'
          exact Or.inr ⟨hlt, hcont.mp (hst.mp rfl)⟩
        · rintro (hlack' | ⟨-, hlands⟩)
          · exact absurd hlack' hlack
          · exact ⟨t, .success, hrun, iff_of_true rfl (hcont.mpr hlands), by
              rintro (h | h | h) <;> cases h⟩
      · apply iff_of_false
        · rintro ⟨t, st, hrun, hst, -⟩
          rw [write_append buffer hn hinfo hposition] at hrun
          exact hlt (hst.mp (h.append_status hg hlack hrun)).lt
        · rintro (hlack' | ⟨hlt', -⟩)
          · exact hlack hlack'
          · exact hlt hlt'
  · have hpos := Nat.not_le.mp hposition
    have hsize := getFileInformation_fileSize_lt hinfo
    have hchain : IsFileChain g s info l := by
      rcases hl with ⟨-, rfl⟩ | hl
      · rw [List.length_nil, Nat.mul_zero] at hcap
        omega
      · exact hl
    rw [StatusRight, if_neg hposition]
    by_cases hgrow : info.fileSize < u32 (position + numBytes)
    · rw [if_pos hgrow]
      have hlt : position + numBytes < 2 ^ 32 := by
        rw [u32] at hgrow
        omega
      have hmod : u32 (position + numBytes) = position + numBytes := Nat.mod_eq_of_lt hlt
      by_cases hlack : Lacking g s info.fileSize position numBytes
      · have hrun := (write_overwrite buffer hn hinfo hpos).trans
          (h.overwrite_lacking hg hgrow hlack)
        exact iff_of_true (h.truthful_of_refused hg hinfo hrun (by rwa [hmod] at hgrow)) hlack
      · exact iff_of_false (h.overwrite_untruthful hg hinfo hchain hcap hpos hn hlt
          (fun _ => hlack)) hlack
    · rw [if_neg hgrow]
      by_cases hlt : position + numBytes < 2 ^ 32
      · have hmod : u32 (position + numBytes) = position + numBytes := Nat.mod_eq_of_lt hlt
        rw [hmod] at hgrow
        refine iff_of_false (h.overwrite_untruthful hg hinfo hchain hcap hpos hn hlt
          (absurd · hgrow)) ?_
        rintro ⟨hle, -⟩
        exact absurd hlt (Nat.not_lt.mpr hle)
      · rw [h.overwrite_wrapped hg hinfo hchain hpos hn hnum (Nat.not_lt.mp hlt),
          and_iff_right (Nat.not_lt.mp hlt)]

theorem View.not_found (hv : View g s s v) (hg : g.Valid) (hc : Consistent g v o)
    (hpath : pathTo (fun e => !isDirectory e) (entriesOf path) s rootDirStart = true)
    (hinfo : fat32GetFileInformation s path = some (s₁, none)) :
    ¬ ∃ s₂ info, fat32GetFileInformation s₁ path = some (s₂, some info) := by
  rintro ⟨s₂, info, hinfo₂⟩
  obtain ⟨s₁', hv₁, hcases⟩ := hv.getFileInformation hg hc .nil (entriesOf_valid path) hpath
  have hcases' : Fat32.getFileInformation (entriesOf path) s rootDirStart = some (s₁, none) := hinfo
  rw [hcases'] at hcases
  rcases hcases with heq | ⟨_, _, _, _, -, -, heq, -⟩
  · cases heq
    rw [hv.pathTo_eq hv₁ hg hc ⟨hc.root, hc.rootDir⟩ (entriesOf_valid path)] at hpath
    obtain ⟨k, c, i, hfile⟩ := hv₁.rebase.file hc hg hpath hinfo₂
    obtain ⟨s₃, info₃, hinfo₃, -⟩ := hfile.file.information hv hg hc
    rw [hinfo] at hinfo₃
    cases hinfo₃
  · cases heq

/-- The status of a write is right exactly when there is nothing to write, when the path leads
nowhere, when the clusters are lacking, or when the call appends data that land. -/
theorem write_status_iff (buffer : Buffer) (hg : g.Valid) (hs : Sound g s)
    (hpath : pathTo (fun e => !isDirectory e) (entriesOf path) s rootDirStart = true)
    (hp : position < 2 ^ 32) (hnum : numBytes < 2 ^ 32) :
    Truthful g s path buffer position numBytes ↔
      ∀ s₁ info l, 1 ≤ numBytes → fat32GetFileInformation s path = some (s₁, some info) →
        FileClusters g s info l → StatusRight g s info.fileSize l buffer position numBytes := by
  obtain ⟨v, o, hsized, hv, hc⟩ := hs
  by_cases hn : numBytes = 0
  · refine iff_of_true ⟨s, .invalidParameter, ?_, ⟨fun hst => (by cases hst), fun hcont => ?_⟩,
      fun _ => rfl⟩ ?_
    · rw [fat32WriteFile, if_pos hn]
    · have h1 := hcont.1
      omega
    · intro s₁ info l h1
      omega
  · obtain ⟨s', -, hcases⟩ := hv.getFileInformation hg hc .nil (entriesOf_valid path) hpath
    rcases hinfo : fat32GetFileInformation s path with _ | ⟨s₁, _ | info⟩
    · rw [fat32GetFileInformation] at hinfo
      rw [hinfo] at hcases
      rcases hcases with heq | ⟨_, _, _, _, -, -, heq, -⟩
      · cases heq
      · cases heq
    · have hnone := hv.not_found hg hc hpath hinfo
      refine iff_of_true ⟨s₁, .notFound, ?_, ⟨fun hst => (by cases hst), fun hcont => ?_⟩,
        fun _ => ?_⟩ ?_
      · rw [fat32WriteFile, if_neg hn, hinfo]
      · obtain ⟨-, s₂, info₂, l, hinfo₂, -⟩ := hcont
        exact (hnone ⟨s₂, info₂, hinfo₂⟩).elim
      · exact (getFileInformation_cached hinfo).disk
      · intro s₂ info₂ l _ hinfo₂
        cases hinfo₂
    · obtain ⟨k, c, i, hfile⟩ := hv.file hc hg hpath hinfo
      obtain ⟨m, hm, -⟩ := hfile.clusters
      have hiff := hfile.truthful_iff buffer hg hinfo hm (hfile.fits hsized hm)
        (Nat.pos_of_ne_zero hn) hp hnum
      constructor
      · intro htrue s₂ info₂ l _ hinfo₂ hl
        cases hinfo₂
        rw [hl.unique hm]
        exact hiff.mp htrue
      · intro hright
        exact hiff.mpr (hright s₁ info m (Nat.pos_of_ne_zero hn) rfl hm)

/-- Ten bytes behind a full cluster. -/
theorem append_status_right : ∃ s, Sound smallGeometry s ∧
    Truthful smallGeometry s [0x46] (fun _ => 2) 512 10 := by
  obtain ⟨s, hs, hsum⟩ : ∃ s, Runs.guardedRun Call.run (fun s c => fileCall s c = true)
      (fat32CreatePartition (blankDrive smallGeometry 0) smallGeometry)
      [.createFile [0x46] 0x20, .writeFile [0x46] (fun _ => 1) 0 512] = some s ∧
      summary [0x46] s = (true, some (3, 512), 2, [endOfChain, endOfChain, 0, 0]) :=
    Option.map_eq_some_iff.mp (by decide +kernel)
  have hsound := (sound_fat32CreatePartition smallGeometry_valid _).reaches smallGeometry_valid
    (Runs.reaches_of_guardedRun _ hs)
  rw [summary, Prod.mk.injEq, Prod.mk.injEq, Prod.mk.injEq] at hsum
  obtain ⟨hpath, hinfo, hfree, hfat⟩ := hsum
  refine ⟨s, hsound,
    (write_status_iff _ smallGeometry_valid hsound hpath (by decide) (by decide)).mpr ?_⟩
  intro s₁ info l _ hinfo' hl
  rw [hinfo', Option.some.injEq, Prod.mk.injEq] at hinfo
  obtain ⟨hstart, hsize⟩ := hinfo
  obtain rfl :=
    hl.unique (Or.inr (isFileChain_small_one hstart (List.cons.inj (List.cons.inj hfat).2).1))
  rw [StatusRight, if_pos hsize.le, hsize]
  refine Or.inr ⟨by decide, fun j _ hlt => ?_, fun j hj _ => ?_⟩
  · change 512 + j < 512 at hlt
    omega
  · have hbyte : appendedByte 512 10 (fun _ => 2) (512 + j) = 2 := appendedByte_self hj
    exact hbyte.symm

/-- The first byte of a file is replaced. -/
theorem overwrite_status_wrong : ∃ s, Runs.Reaches Call.run (fun s c => c.orderly s = true)
      (fat32CreatePartition (blankDrive smallGeometry 0) smallGeometry) s ∧
    pathTo (fun e => !isDirectory e) (entriesOf [0x46]) s rootDirStart = true ∧
    ¬ Truthful smallGeometry s [0x46] (fun _ => 2) 0 1 := by
  obtain ⟨s, s₁, info, hr, hs, hpath, hinfo, hstart, hsize, -, hfat⟩ :=
    small_file [.createFile [0x46] 0x20, .writeFile [0x46] (fun _ => 1) 0 512] [0x46] 3 512 2
      [endOfChain, endOfChain, 0, 0] (by decide +kernel)
  obtain ⟨v, o, k, c, i, hfile⟩ := hs.file smallGeometry_valid hpath hinfo
  refine ⟨s, hr, hpath, hfile.overwrite_untruthful smallGeometry_valid hinfo
    (isFileChain_small_one hstart (List.cons.inj (List.cons.inj hfat).2).1) ?_ ?_ (by decide) (by
      decide) fun hgrow => ?_⟩
  · rw [hsize]
    decide
  · rw [hsize]
    decide
  · rw [hsize] at hgrow
    exact absurd hgrow (by decide)

end DevOs.Fat32
