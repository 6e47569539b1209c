import DevOs.Fat32.Space
import DevOs.Fat32.Frame

/-!
# The content of a written file

The first write to a file, and a write that begins inside of it, leave exactly the bytes expected.
`Fat32WriteFile` behind the end of a file fills new clusters only. The bytes of the last old cluster
behind the end stay what they were, and the place of the data in the new clusters is computed from
the gap as if the old clusters were full. The content is the one expected exactly when the old bytes
happen to be right and the data are where they belong, or look the same where they are.
-/

namespace DevOs.Fat32

open Bytes Chains

variable {g : Geometry} {s₀ s s' : State} {v v' : Vol} {o o' : Owners}

/-- Where the data begin in the new clusters, for a gap of `blank` bytes. -/
def gapStart (clusterSize position blank : ℕ) : ℕ :=
  blank / clusterSize * clusterSize + if blank % clusterSize = 0 then 0 else position % clusterSize

section AppendData

variable {position c y : ℕ} {buffer : Buffer} {l zs : List ℕ} {a : Appending} {D : ℕ → Buffer}

theorem chainByte_appendData_cons (hg : g.Valid) (hc : c ∉ l) :
    chainByte g.clusterBytes (appendData g position buffer (c :: l) a D) (c :: l) y =
      if y < g.clusterBytes then (appendCluster g.clusterBytes position buffer a).1 y
      else if (appendCluster g.clusterBytes position buffer a).2.remaining = 0 then
        chainByte g.clusterBytes (Function.update D c
          (window (appendCluster g.clusterBytes position buffer a).1 0 g.clusterBytes)) l
            (y - g.clusterBytes)
      else chainByte g.clusterBytes (appendData g position buffer l
          { (appendCluster g.clusterBytes position buffer a).2 with cluster := l.headD endOfChain }
          (Function.update D c
            (window (appendCluster g.clusterBytes position buffer a).1 0 g.clusterBytes))) l
          (y - g.clusterBytes) := by
  rw [appendData]
  dsimp only
  by_cases hy : y < g.clusterBytes
  · rw [if_pos hy, chainByte_cons_of_lt hy]
    split_ifs
    · rw [Function.update_self, window_apply hy]
    · rw [appendData_of_not_mem hc, Function.update_self, window_apply hy]
  · rw [if_neg hy, chainByte_cons_of_le hg.clusterBytes_pos (Nat.not_lt.mp hy)]
    split_ifs <;> rfl

theorem appendCluster_data (n position : ℕ) (buffer : Buffer) (hblank : a.blankSize = 0) :
    (∀ y < n, (appendCluster n position buffer a).1 y =
        if y < a.remaining then buffer (a.done + y) else 0) ∧
      (appendCluster n position buffer a).2.blankSize = 0 ∧
      (appendCluster n position buffer a).2.remaining = a.remaining - n ∧
      (appendCluster n position buffer a).2.done = a.done + min n a.remaining := by
  rw [appendCluster, if_neg (by rw [hblank]; exact fun h => h rfl)]
  by_cases hlt : a.remaining < n
  · rw [if_pos hlt]
    refine ⟨fun y hy => ?_, hblank, by dsimp only; omega, by dsimp only; omega⟩
    dsimp only
    by_cases hrem : y < a.remaining
    · rw [if_pos hrem, clear, if_neg (by omega), copy, if_pos ⟨Nat.zero_le y, by omega⟩,
        Nat.sub_zero]
    · rw [if_neg hrem, clear, if_pos (by omega)]
  · rw [if_neg hlt]
    refine ⟨fun y hy => ?_, hblank, rfl, by dsimp only; omega⟩
    dsimp only
    rw [window, if_pos hy, if_pos (by omega)]

theorem appendCluster_gapEnd {n : ℕ} (position : ℕ) (buffer : Buffer) (hblank : a.blankSize ≠ 0)
    (hlt : a.blankSize < n) (hzero : a.readCluster = fun _ => 0) :
    (∀ y < n, (appendCluster n position buffer a).1 y =
        if y < position % n then 0
        else if y < position % n + a.remaining then buffer (a.done + (y - position % n)) else 0) ∧
      (appendCluster n position buffer a).2.blankSize = 0 ∧
      (appendCluster n position buffer a).2.remaining = a.remaining - (n - position % n) ∧
      (appendCluster n position buffer a).2.done = a.done + min (n - position % n) a.remaining := by
  rw [appendCluster, if_pos hblank, if_pos hlt]
  refine ⟨fun y hy => ?_, rfl, by dsimp only; omega, rfl⟩
  dsimp only
  rw [hzero, copy]
  split_ifs <;> first | rfl | omega

theorem appendCluster_gap {n : ℕ} (position : ℕ) (buffer : Buffer) (hn : 0 < n)
    (hle : n ≤ a.blankSize) :
    appendCluster n position buffer a = (a.readCluster, { a with blankSize := a.blankSize - n }) :=
  by
  rw [appendCluster, if_pos (by omega), if_neg (by omega)]

/-- Without a gap the data fill the new clusters from the start, and zeros the rest of the last
one. -/
theorem chainByte_appendData_data (hg : g.Valid) (hzs : zs.Nodup) (hblank : a.blankSize = 0)
    (hy : y - y % g.clusterBytes < a.remaining) (hlen : y < g.clusterBytes * zs.length) :
    chainByte g.clusterBytes (appendData g position buffer zs a D) zs y =
      if y < a.remaining then buffer (a.done + y) else 0 := by
  induction zs generalizing a D y with
  | nil => cases hlen
  | cons c l ih =>
    obtain ⟨hc, hl⟩ := List.nodup_cons.mp hzs
    obtain ⟨hdata, hblank', hrem, hdone⟩ :=
      appendCluster_data g.clusterBytes position buffer hblank
    rw [List.length_cons, Nat.mul_add, Nat.mul_one] at hlen
    rw [chainByte_appendData_cons hg hc]
    by_cases hlt : y < g.clusterBytes
    · rw [if_pos hlt]
      exact hdata y hlt
    · have hle := Nat.not_lt.mp hlt
      have hmod := Nat.mod_lt (y - g.clusterBytes) hg.clusterBytes_pos
      have hsub := Nat.mod_le (y - g.clusterBytes) g.clusterBytes
      rw [Nat.mod_eq_sub_mod hle] at hy
      rw [if_neg hlt, if_neg (by omega)]
      refine (ih hl ?_ ?_ ?_).trans ?_
      · exact hblank'
      · dsimp only
        omega
      · omega
      · dsimp only
        rw [hrem, hdone]
        split_ifs
        · congr 1
          omega
        · omega
        · omega
        · rfl

theorem gapStart_zero (n position : ℕ) : gapStart n position 0 = 0 := by
  rw [gapStart, Nat.zero_div, Nat.zero_mul, Nat.zero_mod, if_pos rfl]

theorem gapStart_of_lt {n blank : ℕ} (position : ℕ) (h : blank ≠ 0) (hlt : blank < n) :
    gapStart n position blank = position % n := by
  rw [gapStart, Nat.div_eq_of_lt hlt, Nat.zero_mul, Nat.zero_add, Nat.mod_eq_of_lt hlt, if_neg h]

theorem gapStart_of_le {n blank : ℕ} (position : ℕ) (hn : 0 < n) (hle : n ≤ blank) :
    gapStart n position blank = n + gapStart n position (blank - n) := by
  rw [gapStart, gapStart, Nat.div_eq_sub_div hn hle, Nat.mod_eq_sub_mod hle, Nat.add_mul,
    Nat.one_mul]
  omega

/-- The bytes of the new clusters when the data begin at `start`: zeros, `n` bytes of the data and
zeros. -/
def appendedByte (start n : ℕ) (buffer : Buffer) (y : ℕ) : Byte :=
  if y < start then 0 else if y < start + n then buffer (y - start) else 0

/-- What the loop leaves in the new clusters, up to the one that holds the last byte of the data. -/
theorem chainByte_appendData (hg : g.Valid) (hzs : zs.Nodup) (hdone : a.done = 0)
    (hread : a.readCluster = fun _ => 0) (hrem : 0 < a.remaining)
    (hy : y - y % g.clusterBytes < gapStart g.clusterBytes position a.blankSize + a.remaining)
    (hlen : y < g.clusterBytes * zs.length) :
    chainByte g.clusterBytes (appendData g position buffer zs a D) zs y =
      appendedByte (gapStart g.clusterBytes position a.blankSize) a.remaining buffer y := by
  have hpos := hg.clusterBytes_pos
  induction zs generalizing a D y with
  | nil => cases hlen
  | cons c l ih =>
    obtain ⟨hc, hl⟩ := List.nodup_cons.mp hzs
    by_cases hblank : a.blankSize = 0
    · rw [hblank, gapStart_zero, Nat.zero_add] at hy
      rw [chainByte_appendData_data hg hzs hblank hy hlen, hblank, gapStart_zero, appendedByte,
        if_neg (Nat.not_lt_zero y), hdone, Nat.zero_add, Nat.zero_add, Nat.sub_zero]
    · rw [List.length_cons, Nat.mul_add, Nat.mul_one] at hlen
      rw [chainByte_appendData_cons hg hc]
      by_cases hlt : a.blankSize < g.clusterBytes
      · have hmod := Nat.mod_lt position hpos
        obtain ⟨hdata, hblank', hrem', hdone'⟩ :=
          appendCluster_gapEnd position buffer hblank hlt hread
        rw [gapStart_of_lt position hblank hlt] at hy ⊢
        rw [hdone, Nat.zero_add] at hdone'
        by_cases hfirst : y < g.clusterBytes
        · rw [if_pos hfirst, hdata y hfirst, appendedByte, hdone, Nat.zero_add]
        · have hle := Nat.not_lt.mp hfirst
          have hmod' := Nat.mod_lt (y - g.clusterBytes) hpos
          have hsub := Nat.mod_le (y - g.clusterBytes) g.clusterBytes
          rw [Nat.mod_eq_sub_mod hle] at hy
          rw [if_neg hfirst, if_neg (by omega)]
          refine (chainByte_appendData_data hg hl ?_ ?_ ?_).trans ?_
          · exact hblank'
          · dsimp only
            omega
          · omega
          · dsimp only
            rw [appendedByte, hrem', hdone']
            split_ifs <;> first | omega | rfl | (congr 1; omega)
      · have hle := Nat.not_lt.mp hlt
        rw [appendCluster_gap position buffer hpos hle, hread]
        rw [gapStart_of_le position hpos hle] at hy ⊢
        dsimp only
        by_cases hfirst : y < g.clusterBytes
        · rw [if_pos hfirst, appendedByte, if_pos (by omega)]
        · have hle' := Nat.not_lt.mp hfirst
          have hmod' := Nat.mod_lt (y - g.clusterBytes) hpos
          have hsub := Nat.mod_le (y - g.clusterBytes) g.clusterBytes
          rw [Nat.mod_eq_sub_mod hle'] at hy
          rw [if_neg hfirst, if_neg (by omega)]
          refine (ih hl ?_ ?_ ?_ ?_ ?_).trans ?_
          · exact hdone
          · rfl
          · exact hrem
          · dsimp only
            omega
          · omega
          · dsimp only
            rw [appendedByte, appendedByte]
            split_ifs <;> first | omega | rfl | (congr 1; omega)

end AppendData

/-- The clusters of the file that `Fat32GetFileInformation` found. -/
def IsFileChain (g : Geometry) (s : State) (info : FileInformation) (l : List ℕ) : Prop :=
  l.head? = some info.clusterStart ∧ g.IsChain s.fat l

theorem IsFileChain.unique {info : FileInformation} {l m : List ℕ} (hl : IsFileChain g s info l)
    (hm : IsFileChain g s info m) : l = m := by
  obtain ⟨l, rfl⟩ := List.head?_eq_some_iff.mp hl.1
  obtain ⟨m, rfl⟩ := List.head?_eq_some_iff.mp hm.1
  rw [hl.2.chain.unique hm.2.chain]

/-- The file at the end of a path in a consistent volume. -/
structure FileIn (g : Geometry) (s s₁ : State) (path : Name) (info : FileInformation) (v : Vol)
    (o : Owners) (k c i : ℕ) : Prop where
  before : View g s s v
  after : View g s s₁ v
  consistent : Consistent g v o
  file : FileAt g v o (entriesOf path) k c i
  found : info = informationOf v info.fileName k c i
  location : findLocation s info.fileName info.parentDirectoryCluster = some (c, i)

variable {path : Name} {buffer : Buffer} {info : FileInformation} {s₁ : State}
    {position numBytes k c i : ℕ}

theorem View.file (hv : View g s s v) (hc : Consistent g v o) (hg : g.Valid)
    (hpath : pathTo (fun e => !isDirectory e) (entriesOf path) s rootDirStart = true)
    (hinfo : fat32GetFileInformation s path = some (s₁, some info)) :
    ∃ k c i, FileIn g s s₁ path info v o k c i := by
  obtain ⟨s₂, hv₂, hcases⟩ := hv.getFileInformation hg hc .nil (entriesOf_valid path) hpath
  rw [fat32GetFileInformation] at hinfo
  rcases hcases with hnone | ⟨name, k, c, i, hat, hdir, hsome, hne, hloc⟩
  · rw [hnone] at hinfo
    cases hinfo
  · rw [hsome] at hinfo
    cases hinfo
    rw [List.nil_append] at hat
    refine ⟨k, c, i, hv, hv₂, hc, ⟨hat, by simpa using hdir⟩, rfl, ?_⟩
    obtain ⟨parents, last, -, hl, hk⟩ := hat
    obtain ⟨hkh, hkd⟩ := hl.head hc.root hc.rootDir
    obtain ⟨s₃, hread, -⟩ := hc.search name (fun c _ x => (c, x)) hg hv hkh
    change Fat32.findLocation s name k = some (c, i)
    rw [Fat32.findLocation, if_neg hne, hread, hloc]
    rfl

theorem Loose.file (h : Loose g s) (hg : g.Valid)
    (hpath : pathTo (fun e => !isDirectory e) (entriesOf path) s rootDirStart = true)
    (hinfo : fat32GetFileInformation s path = some (s₁, some info)) :
    ∃ v o k c i, FileIn g s s₁ path info v o k c i := by
  obtain ⟨v, o, -, hv, hc⟩ := h
  exact ⟨v, o, hv.file hc hg hpath hinfo⟩

theorem FileAt.information (hf : FileAt g v o (entriesOf path) k c i) (hv : View g s₀ s v)
    (hg : g.Valid) (hc : Consistent g v o) :
    ∃ s' info, fat32GetFileInformation s path = some (s', some info) ∧
      info.clusterStart = firstCluster (slot (v.data c) i) ∧
      info.fileSize = fileSize (slot (v.data c) i) := by
  obtain ⟨parents, name, hnames, hl, hk⟩ := hf.path
  obtain ⟨s', hinfo, -⟩ := hv.getFileInformation_found hg hc hl hc.root hc.rootDir hk
    (fun n hn => entriesOf_valid path n (by rwa [hnames]))
  refine ⟨s', informationOf v name k c i, ?_, rfl, rfl⟩
  rw [fat32GetFileInformation, hnames]
  exact hinfo

theorem View.chainByte_eq {l : List ℕ} (hv : View g s₀ s v) (hl : ∀ b ∈ l, g.InData b) {y : ℕ}
    (hy : y < g.clusterBytes * l.length) :
    chainByte g.clusterBytes s.data l y = chainByte g.clusterBytes v.data l y :=
  chainByte_congr (fun b hb => hv.data b (hl b hb)) hy

/-- What a path leads to in the small volume: whether it is a file, its first cluster and its size,
the number of free clusters, and the entries of the FAT. -/
def summary (path : Name) (s : State) : Bool × Option (ℕ × ℕ) × ℕ × List ℕ :=
  (pathTo (fun e => !isDirectory e) (entriesOf path) s rootDirStart,
    (match fat32GetFileInformation s path with
    | some (_, some info) => some (info.clusterStart, info.fileSize)
    | _ => none),
    freeEntries smallGeometry s, [2, 3, 4, 5].map s.fat)

theorem Loose.reaches (hg : g.Valid) (h : Loose g s)
    (hr : Runs.Reaches Call.run (fun s c => c.orderly s = true) s s') : Loose g s' := by
  apply Runs.Reaches.invariant _ hr h
  intro s c t hs hord hst
  obtain ⟨t', hrun, hl, -⟩ := hs.call hg hord
  rw [hrun] at hst
  cases hst
  exact hl

theorem small_file (calls : List Call) (path : Name) (start size free : ℕ) (fat : List ℕ)
    (h : (Runs.guardedRun Call.run (fun s c => c.orderly s = true)
      (fat32CreatePartition (blankDrive smallGeometry 0) smallGeometry) calls).map (summary path) =
        some (true, some (start, size), free, fat)) :
    ∃ s s₁ info, Runs.Reaches Call.run (fun s c => c.orderly s = true)
        (fat32CreatePartition (blankDrive smallGeometry 0) smallGeometry) s ∧
      Loose smallGeometry s ∧
      pathTo (fun e => !isDirectory e) (entriesOf path) s rootDirStart = true ∧
      fat32GetFileInformation s path = some (s₁, some info) ∧ info.clusterStart = start ∧
      info.fileSize = size ∧ freeEntries smallGeometry s = free ∧ [2, 3, 4, 5].map s.fat = fat := by
  obtain ⟨s, hs, hsum⟩ := Option.map_eq_some_iff.mp h
  have hr := Runs.reaches_of_guardedRun _ hs
  rw [summary, Prod.mk.injEq, Prod.mk.injEq, Prod.mk.injEq] at hsum
  obtain ⟨hpath, hinfo, hfree, hfat⟩ := hsum
  split at hinfo
  · next s₁ info heq =>
    cases hinfo
    exact ⟨s, s₁, info, hr, (loose_fat32CreatePartition smallGeometry_valid _).reaches
      smallGeometry_valid hr, hpath, heq, rfl, rfl, hfree, hfat⟩
  · cases hinfo

theorem gapStart_self (n position : ℕ) : gapStart n position position = position := by
  have hdiv := Nat.div_add_mod position n
  rw [gapStart, Nat.mul_comm]
  split_ifs with h <;> omega

theorem lt_of_ceilDiv {n d y : ℕ} (hd : 0 < d) (hy : y < d * ceilDiv n d) : y - y % d < n := by
  have hmod := Nat.div_add_mod n d
  have hlt := Nat.mod_lt n hd
  have hdiv := Nat.div_add_mod y d
  have hdm := Nat.div_lt_of_lt_mul hy
  rw [ceilDiv] at hdm
  have hy' : y - y % d = d * (y / d) := by omega
  rw [hy']
  split_ifs at hdm with h
  · have hle : d * (y / d) ≤ d * (n / d) := Nat.mul_le_mul_left d (by omega)
    omega
  · have hle : d * (y / d + 1) ≤ d * (n / d) := Nat.mul_le_mul_left d (by omega)
    rw [Nat.mul_add] at hle
    omega

theorem FileIn.first_done (buffer : Buffer) (hfile : FileIn g s s₁ path info v o k c i)
    (hg : g.Valid) (hinfo : fat32GetFileInformation s path = some (s₁, some info))
    (hstart : info.clusterStart = 0) (hn : 1 ≤ numBytes) (hlt : position + numBytes < 2 ^ 32)
    (hfree : ceilDiv (position + numBytes) g.clusterBytes ≤ freeEntries g s) :
    ∃ s' s₂ info' l, fat32WriteFile s path buffer position numBytes = some (s', .success) ∧
      fat32GetFileInformation s' path = some (s₂, some info') ∧
      info'.fileSize = position + numBytes ∧
      IsFileChain g s' info' l ∧ l.length = ceilDiv (position + numBytes) g.clusterBytes ∧
      (∀ y < g.clusterBytes * l.length,
        chainByte g.clusterBytes s'.data l y = appendedByte position numBytes buffer y) ∧
      (∀ b ∈ l, s.fat b = 0) ∧ ∀ b, g.InData b → b ∉ l → b ≠ c → s'.data b = s.data b := by
  have h0 : firstCluster (slot (v.data c) i) = 0 := by
    rw [hfile.found] at hstart
    exact hstart
  have hsize : info.fileSize = 0 := by
    rw [hfile.found]
    exact hfile.file.empty hfile.consistent h0
  have hpos := hg.clusterBytes_pos
  have hreq : 0 < ceilDiv (position + numBytes) g.clusterBytes := by
    have := le_mul_ceilDiv (position + numBytes) hpos
    rcases Nat.eq_zero_or_pos (ceilDiv (position + numBytes) g.clusterBytes) with hz | hz
    · rw [hz] at this
      omega
    · exact hz
  have hr : ¬ Refused g v 0 (ceilDiv (position + numBytes) g.clusterBytes) := by
    rw [hfile.consistent.counted.freeEntries_eq hfile.before] at hfree
    rw [Refused]
    omega
  obtain ⟨s', v', z, zs, hrun, hv', hc', hf', hlen, happ⟩ :=
    hfile.after.appendFile_first info.fileName buffer hg hfile.consistent hfile.file h0 hlt hr
  rw [← hfile.found] at hrun
  obtain ⟨s₂, info', hinfo', hstart', hsize'⟩ := hf'.information hv' hg hc'
  have hch : g.IsChain v'.fat (z :: zs) := by
    have := hc'.chains z (Or.inl rfl)
    rwa [Owners.add_tail_self] at this
  obtain ⟨D, hD, hDother⟩ := happ.data
  refine ⟨s', s₂, info', z :: zs, ?_, hinfo', hsize'.trans happ.fileSize,
    ⟨?_, hv'.isChain hch⟩, hlen, fun y hy => ?_, fun b hb => ?_, fun b hb hbl hbc => ?_⟩
  · rw [fat32WriteFile, if_neg (by omega), hinfo]
    simp only [hsize, Nat.zero_le, if_true]
    exact hrun
  · rw [hstart', happ.firstCluster]
    rfl
  · rw [hv'.chainByte_eq hch.inData hy, hD]
    have hy' : y - y % g.clusterBytes < position + numBytes := lt_of_ceilDiv hpos (by rwa [← hlen])
    refine (chainByte_appendData hg happ.nodup ?_ ?_ ?_ ?_ hy).trans ?_
    · rfl
    · rfl
    · exact hn
    · dsimp only
      rwa [gapStart_self]
    · dsimp only
      rw [gapStart_self]
  · have hin := hch.inData b hb
    rw [hfile.before.fat b (Geometry.Valid.inData_fatEntries hin)]
    exact happ.fresh b hb
  · rw [hv'.data b hb, hfile.before.data b hb, hD, appendData_of_not_mem hbl, hDother b hbc]

/-- The first write to an empty file: zeros up to the position, the buffer, and zeros up to the end
of the last cluster. -/
theorem first_write (buffer : Buffer) (position numBytes : ℕ) (hg : g.Valid) (hs : Loose g s)
    (hpath : pathTo (fun e => !isDirectory e) (entriesOf path) s rootDirStart = true)
    (hinfo : fat32GetFileInformation s path = some (s₁, some info)) (hstart : info.clusterStart = 0)
    (hn : 1 ≤ numBytes) (hlt : position + numBytes < 2 ^ 32)
    (hfree : ceilDiv (position + numBytes) g.clusterBytes ≤ freeEntries g s) :
    ∃ s' s₂ info' l c i, fat32WriteFile s path buffer position numBytes = some (s', .success) ∧
      fat32GetFileInformation s' path = some (s₂, some info') ∧
      info'.fileSize = position + numBytes ∧
      IsFileChain g s' info' l ∧ l.length = ceilDiv (position + numBytes) g.clusterBytes ∧
      (∀ y < g.clusterBytes * l.length,
        chainByte g.clusterBytes s'.data l y = appendedByte position numBytes buffer y) ∧
      findLocation s info.fileName info.parentDirectoryCluster = some (c, i) ∧
      (∀ b ∈ l, s.fat b = 0) ∧ ∀ b, g.InData b → b ∉ l → b ≠ c → s'.data b = s.data b := by
  obtain ⟨v, o, k, c, i, hfile⟩ := hs.file hg hpath hinfo
  obtain ⟨s', s₂, info', l, hrun, hinfo', hsize, hl, hlen, hbyte, hfresh, hother⟩ :=
    hfile.first_done buffer hg hinfo hstart hn hlt hfree
  exact ⟨s', s₂, info', l, c, i, hrun, hinfo', hsize, hl, hlen, hbyte, hfile.location, hfresh,
    hother⟩

/-- Six hundred bytes behind ten zeros. -/
theorem first_write_small : ∃ s s' s₂ info' l,
    fat32WriteFile s [0x46] (fun _ => 1) 10 600 = some (s', .success) ∧
    fat32GetFileInformation s' [0x46] = some (s₂, some info') ∧ info'.fileSize = 610 ∧
    IsFileChain smallGeometry s' info' l ∧ l.length = 2 ∧
    ∀ y < 1024, chainByte 512 s'.data l y = appendedByte 10 600 (fun _ => 1) y := by
  obtain ⟨s, s₁, info, -, hs, hpath, hinfo, hstart, -, hfree, -⟩ :=
    small_file [.createFile [0x46] 0x20] [0x46] 0 0 3 [endOfChain, 0, 0, 0] (by decide +kernel)
  obtain ⟨s', s₂, info', l, c, i, hrun, hinfo', hsize, hl, hlen, hbyte, -⟩ :=
    first_write (fun _ => 1) 10 600 smallGeometry_valid hs hpath hinfo hstart (by decide) (by
      decide)
      (by rw [hfree]; decide)
  refine ⟨s, s', s₂, info', l, hrun, hinfo', hsize, hl, hlen, fun y hy => hbyte y ?_⟩
  rw [hlen]
  exact hy

theorem Consistent.not_refused {f n : ℕ} (hc : Consistent g v o) (hh : o.head f) (hn : 0 < n)
    (hfree : n ≤ v.free) : ¬ Refused g v f n := by
  have hl := hc.chains f hh
  have hin := hl.inData f List.mem_cons_self
  have hne := hl.fat_ne_zero f List.mem_cons_self
  have h2 := hin.1
  have hN := hin.2
  have hlast : f ≠ g.numClusters + 1 := by
    rintro rfl
    rw [hc.counted.free_eq_zero hne] at hfree
    omega
  rw [Refused]
  omega

theorem FileIn.chain {l : List ℕ} (h : FileIn g s s₁ path info v o k c i)
    (h0 : info.clusterStart ≠ 0) (hl : IsFileChain g s info l) :
    o.head info.clusterStart ∧ ¬ o.dir info.clusterStart ∧
      l = info.clusterStart :: o.tail info.clusterStart := by
  have hfc : firstCluster (slot (v.data c) i) = info.clusterStart := by
    rw [h.found]
    rfl
  obtain ⟨hh, -, hd, -⟩ := h.file.owner h.consistent hfc h0
  obtain ⟨m, rfl⟩ := List.head?_eq_some_iff.mp hl.1
  refine ⟨hh, hd, ?_⟩
  rw [h.consistent.chain_eq h.before hh hl.2]

theorem FileIn.entry_not_mem (h : FileIn g s s₁ path info v o k c i) {f : ℕ} (hh : o.head f)
    (hd : ¬ o.dir f) : c ∉ f :: o.tail f :=
  fun hm => h.consistent.not_inDir hh hd hm (h.file.infoAt h.consistent).inDir

theorem ceilDiv_pos {n d : ℕ} (hn : 0 < n) (hd : 0 < d) : 0 < ceilDiv n d := by
  have hle := le_mul_ceilDiv n hd
  rcases Nat.eq_zero_or_pos (ceilDiv n d) with hz | hz
  · rw [hz] at hle
    omega
  · exact hz

/-- After the write the bytes of the buffer stand at the position, the others are those of the
clusters `l` before it, the size is large enough, and only clusters of the file and the one of its
entry are written. -/
def Spliced (g : Geometry) (s : State) (path : Name) (info : FileInformation) (l : List ℕ)
    (buffer : Buffer) (position numBytes : ℕ) : Prop :=
  ∃ s' status s₂ info' l' c i,
    fat32WriteFile s path buffer position numBytes = some (s', status) ∧
    fat32GetFileInformation s' path = some (s₂, some info') ∧
    info'.fileSize = max info.fileSize (position + numBytes) ∧ IsFileChain g s' info' l' ∧
    info'.fileSize ≤ g.clusterBytes * l'.length ∧
    (∀ y < info'.fileSize, chainByte g.clusterBytes s'.data l' y =
      splicedByte position numBytes buffer (chainByte g.clusterBytes s.data l) y) ∧
    findLocation s info.fileName info.parentDirectoryCluster = some (c, i) ∧
    (∀ b ∈ l', b ∈ l ∨ s.fat b = 0) ∧ ∀ b, g.InData b → b ∉ l' → b ≠ c → s'.data b = s.data b

/-- The chain of the file after a write that begins before its end, and its bytes. The status is
that of a lack of space. -/
theorem FileIn.overwrite_done {l : List ℕ} (buffer : Buffer)
    (hfile : FileIn g s s₁ path info v o k c i) (hg : g.Valid)
    (hinfo : fat32GetFileInformation s path = some (s₁, some info)) (hl : IsFileChain g s info l)
    (hcap : info.fileSize ≤ g.clusterBytes * l.length) (hposition : position < info.fileSize)
    (hn : 1 ≤ numBytes) (hlt : position + numBytes < 2 ^ 32)
    (hfree : info.fileSize < position + numBytes →
      ceilDiv (position + numBytes - info.fileSize) g.clusterBytes ≤ freeEntries g s) :
    ∃ s' s₂ info' l', fat32WriteFile s path buffer position numBytes = some (s', .noEnoughSpace) ∧
      fat32GetFileInformation s' path = some (s₂, some info') ∧
      info'.fileSize = max info.fileSize (position + numBytes) ∧ IsFileChain g s' info' l' ∧
      info'.fileSize ≤ g.clusterBytes * l'.length ∧
      (∀ y < info'.fileSize, chainByte g.clusterBytes s'.data l' y =
        splicedByte position numBytes buffer (chainByte g.clusterBytes s.data l) y) ∧
      (∀ b ∈ l', b ∈ l ∨ s.fat b = 0) ∧ ∀ b, g.InData b → b ∉ l' → b ≠ c →
      s'.data b = s.data b := by
  have hpos := hg.clusterBytes_pos
  have hfc : firstCluster (slot (v.data c) i) = info.clusterStart := by
    rw [hfile.found]
    rfl
  have hsize : fileSize (slot (v.data c) i) = info.fileSize := by
    rw [hfile.found]
    rfl
  have h0 : info.clusterStart ≠ 0 := by
    intro hz
    rw [hz] at hfc
    rw [← hsize, hfile.file.empty hfile.consistent hfc] at hposition
    omega
  obtain ⟨hh, hd, rfl⟩ := hfile.chain h0 hl
  rw [hfile.consistent.counted.freeEntries_eq hfile.before] at hfree
  obtain ⟨s', v', zs, hrun, hv', hc', hf', hfresh, hroom, hsp⟩ :=
    hfile.after.overwriteFile_spliced info.fileName buffer hg hfile.consistent hfile.file hfc h0 hlt
      (fun hgrow => by
        rw [hsize] at hgrow ⊢
        exact hfile.consistent.not_refused hh (ceilDiv_pos (by omega) hpos) (hfree hgrow))
  rw [← hfile.found] at hrun
  rw [hsize] at hroom hsp
  obtain ⟨s₂, info', hinfo', hstart', hsize'⟩ := hf'.information hv' hg hc'
  rw [hsp.fileSize] at hsize'
  have hfit : info'.fileSize ≤
      g.clusterBytes * (info.clusterStart :: o.tail info.clusterStart ++ zs).length := by
    rw [hsize', List.length_append, Nat.mul_add]
    omega
  refine ⟨s', s₂, info', _, ?_, hinfo', hsize', ⟨?_, hv'.isChain hsp.chain.2⟩, hfit,
    fun y hy => ?_, fun b hb => ?_, fun b hb hbl hbc => ?_⟩
  · rw [fat32WriteFile, if_neg (by omega), hinfo]
    dsimp only
    rw [if_neg (by omega)]
    exact hrun
  · rw [hstart', hsp.firstCluster]
    rfl
  · have hy' := hy.trans_le hfit
    rw [hv'.chainByte_eq hsp.chain.2.inData hy', hsp.content y hy', splicedByte, splicedByte]
    split_ifs with hin
    · rfl
    · have hold : y < g.clusterBytes * (info.clusterStart :: o.tail info.clusterStart).length := by
        omega
      rw [chainByte_append_of_lt hold, hfile.before.chainByte_eq hl.2.inData hold]
  · refine (List.mem_append.mp hb).imp id fun hz => ?_
    have hin := hsp.chain.2.inData b hb
    rw [hfile.before.fat b (Geometry.Valid.inData_fatEntries hin)]
    exact hfresh b hz
  · rw [hv'.data b hb, hfile.before.data b hb, hsp.other b hbl hbc]

theorem FileIn.overwrite_refused {l : List ℕ} (h : FileIn g s s₁ path info v o k c i) (hg : g.Valid)
    (hinfo : fat32GetFileInformation s path = some (s₁, some info))
    (hposition : position < info.fileSize) (hn : 1 ≤ numBytes) (hlt : position + numBytes < 2 ^ 32)
    (hgrow : info.fileSize < position + numBytes)
    (hfree : v.free < ceilDiv (position + numBytes - info.fileSize) g.clusterBytes) :
    ¬ Spliced g s path info l buffer position numBytes := by
  have hmod : u32 (position + numBytes) = position + numBytes := Nat.mod_eq_of_lt hlt
  have hr : Refused g v info.clusterStart
      (ceilDiv (position + numBytes - info.fileSize) g.clusterBytes) :=
      Or.inr (Or.inr (Or.inr hfree))
  have hrun : fat32WriteFile s path buffer position numBytes = some (s₁, .noEnoughSpace) := by
    rw [fat32WriteFile, if_neg (by omega), hinfo]
    dsimp only
    rw [if_neg (by omega), overwriteFile]
    simp only [h.after.clusterBytes_eq, hmod, if_pos hgrow, h.after.refused hg hr, if_true]
  rintro ⟨s', status, s₂, info', l', c', i', hwrite, hinfo', hsize', -⟩
  rw [hrun] at hwrite
  cases hwrite
  obtain ⟨s₃, info₃, hinfo₃, -, hsize₃⟩ := h.file.information h.after hg h.consistent
  rw [hinfo₃] at hinfo'
  cases hinfo'
  have hsize : fileSize (slot (v.data c) i) = info.fileSize := by
    rw [h.found]
    rfl
  omega

section Overwriting

variable {l : List ℕ} (buffer : Buffer) (position numBytes : ℕ) (hg : g.Valid) (hs : Loose g s)
  (hpath : pathTo (fun e => !isDirectory e) (entriesOf path) s rootDirStart = true)
  (hinfo : fat32GetFileInformation s path = some (s₁, some info)) (hl : IsFileChain g s info l)
  (hcap : info.fileSize ≤ g.clusterBytes * l.length) (hposition : position < info.fileSize)
  (hn : 1 ≤ numBytes) (hlt : position + numBytes < 2 ^ 32)

include hg hs hpath hinfo hposition hn hlt

theorem Spliced.enough (hsp : Spliced g s path info l buffer position numBytes)
    (hgrow : info.fileSize < position + numBytes) :
    ceilDiv (position + numBytes - info.fileSize) g.clusterBytes ≤ freeEntries g s := by
  obtain ⟨v, o, k, c, i, hfile⟩ := hs.file hg hpath hinfo
  rw [hfile.consistent.counted.freeEntries_eq hfile.before]
  by_contra hfree
  exact hfile.overwrite_refused hg hinfo hposition hn hlt hgrow (Nat.not_le.mp hfree) hsp

include hl hcap

/-- A write that begins before the end of the file replaces exactly its bytes, when and only when
the clusters that it asks for are free. The room behind the end of the file in its last cluster is
not counted. -/
theorem overwrite_splice_iff : Spliced g s path info l buffer position numBytes ↔
    (info.fileSize < position + numBytes →
      ceilDiv (position + numBytes - info.fileSize) g.clusterBytes ≤ freeEntries g s) := by
  refine ⟨fun hsp => hsp.enough buffer position numBytes hg hs hpath hinfo hposition hn hlt,
    fun hfree => ?_⟩
  obtain ⟨v, o, k, c, i, hfile⟩ := hs.file hg hpath hinfo
  obtain ⟨s', s₂, info', l', hrun, hinfo', hsize, hl', hfit, hbyte, hfresh, hother⟩ :=
    hfile.overwrite_done buffer hg hinfo hl hcap hposition hn hlt hfree
  exact ⟨s', .noEnoughSpace, s₂, info', l', c, i, hrun, hinfo', hsize, hl', hfit, hbyte,
    hfile.location, hfresh, hother⟩

end Overwriting

theorem isFileChain_small (h : info.clusterStart = 3)
    (hfat : [2, 3, 4, 5].map s.fat = [endOfChain, 4, endOfChain, 0]) :
    IsFileChain smallGeometry s info [3, 4] := by
  simp only [List.map_cons, List.map_nil, List.cons.injEq] at hfat
  obtain ⟨-, h3, h4, -⟩ := hfat
  refine ⟨by rw [h]; rfl, ⟨h3, by decide, h4⟩, fun b hb => ?_⟩
  rcases List.mem_cons.mp hb with rfl | hb
  · decide
  · rw [List.mem_singleton.mp hb]
    decide

/-- The last hundred of six hundred bytes are replaced by five hundred bytes. -/
theorem overwrite_splice_small : ∃ s info, info.fileSize = 600 ∧
    Spliced smallGeometry s [0x46] info [3, 4] (fun _ => 2) 500 500 := by
  obtain ⟨s, s₁, info, -, hs, hpath, hinfo, hstart, hsize, hfree, hfat⟩ :=
    small_file [.createFile [0x46] 0x20, .writeFile [0x46] (fun _ => 1) 0 600] [0x46] 3 600 1
      [endOfChain, 4, endOfChain, 0] (by decide +kernel)
  refine ⟨s, info, hsize,
    (overwrite_splice_iff (fun _ => 2) 500 500 smallGeometry_valid hs hpath hinfo
    (isFileChain_small hstart hfat) ?_ ?_ (by decide) (by decide)).mpr fun _ => ?_⟩
  · rw [hsize]
    decide
  · rw [hsize]
    decide
  · rw [hsize, hfree]
    decide

theorem isFileChain_small_one (h : info.clusterStart = 3) (hfat : s.fat 3 = endOfChain) :
    IsFileChain smallGeometry s info [3] := by
  refine ⟨by rw [h]; rfl, hfat, fun b hb => ?_⟩
  rw [List.mem_singleton.mp hb]
  decide

/-- A file of one byte has room for hundred in its cluster, and the write of hundred bytes is
refused when no other cluster is free. -/
theorem overwrite_splice_full : ∃ s s₁ info, Runs.Reaches Call.run (fun s c => c.orderly s = true)
      (fat32CreatePartition (blankDrive smallGeometry 0) smallGeometry) s ∧
    fat32GetFileInformation s [0x46] = some (s₁, some info) ∧ info.fileSize = 1 ∧
    IsFileChain smallGeometry s info [3] ∧ 0 + 100 ≤ smallGeometry.clusterBytes * [3].length ∧
    ¬ Spliced smallGeometry s [0x46] info [3] (fun _ => 2) 0 100 := by
  obtain ⟨s, s₁, info, hr, hs, hpath, hinfo, hstart, hsize, hfree, hfat⟩ :=
    small_file [.createFile [0x46] 0x20, .writeFile [0x46] (fun _ => 1) 0 1,
      .createFile [0x47] 0x20, .writeFile [0x47] (fun _ => 1) 0 600] [0x46] 3 1 0
      [endOfChain, endOfChain, 5, endOfChain] (by decide +kernel)
  simp only [List.map_cons, List.map_nil, List.cons.injEq] at hfat
  have hl := isFileChain_small_one hstart hfat.2.1
  refine ⟨s, s₁, info, hr, hinfo, hsize, hl, by decide, fun hsp => ?_⟩
  have henough := hsp.enough (fun _ => 2) 0 100 smallGeometry_valid hs hpath hinfo
    (by rw [hsize]; decide) (by decide) (by decide) (by rw [hsize]; decide)
  rw [hsize, hfree] at henough
  revert henough
  decide

/-- The content of the file with the clusters `l` before the write is kept, followed by zeros up to
the position and by the buffer. -/
def AppendKept (g : Geometry) (s : State) (path : Name) (info : FileInformation) (l : List ℕ)
    (buffer : Buffer) (position numBytes : ℕ) : Prop :=
  ∃ s' status s₂ info' l', fat32WriteFile s path buffer position numBytes = some (s', status) ∧
    fat32GetFileInformation s' path = some (s₂, some info') ∧ info'.fileSize = position + numBytes ∧
    IsFileChain g s' info' l' ∧ info'.fileSize ≤ g.clusterBytes * l'.length ∧
    ∀ y < position + numBytes, chainByte g.clusterBytes s'.data l' y =
      if y < info.fileSize then chainByte g.clusterBytes s.data l y
      else if y < position then 0 else buffer (y - position)

/-- How far behind the position the data are put, for a file of `size` bytes that ends `slack` bytes
before the end of its last cluster. -/
def landing (clusterSize size position : ℕ) : ℕ :=
  let slack := clusterSize * ceilDiv size clusterSize - size
  let rest := (position - size) % clusterSize
  if rest = 0 then slack else if rest < slack then clusterSize else 0

/-- The clusters that the call asks for are free, the bytes of the last cluster behind the end of
the file are already what they should become, and the part of the buffer behind that cluster is the
same when it is moved to where the data are put. -/
structure AppendLands (g : Geometry) (s : State) (info : FileInformation) (l : List ℕ)
    (buffer : Buffer) (position numBytes : ℕ) : Prop where
  enough : ceilDiv (position + numBytes - info.fileSize) g.clusterBytes ≤ freeEntries g s
  slack : ∀ y, info.fileSize ≤ y → y < g.clusterBytes * l.length → y < position + numBytes →
    chainByte g.clusterBytes s.data l y = if y < position then 0 else buffer (y - position)
  data : ∀ j < numBytes, g.clusterBytes * l.length ≤ position + j →
    buffer j = if j < landing g.clusterBytes info.fileSize position then 0
      else buffer (j - landing g.clusterBytes info.fileSize position)

theorem mul_ceilDiv_lt (n : ℕ) {d : ℕ} (hd : 0 < d) : d * ceilDiv n d < n + d := by
  have hmod := Nat.div_add_mod n d
  rw [ceilDiv, Nat.mul_add]
  split_ifs with h
  · omega
  · omega

theorem gapStart_eq_landing {n size : ℕ} (hn : 0 < n) (hsize : size ≤ position) :
    n * ceilDiv size n + gapStart n position (position - size) =
      position + landing n size position := by
  have hslack := le_mul_ceilDiv size hn
  have hceil := mul_ceilDiv_lt size hn
  have hblank := Nat.div_add_mod (position - size) n
  have hrest := Nat.mod_lt (position - size) hn
  rw [gapStart, landing, Nat.mul_comm ((position - size) / n)]
  by_cases h0 : (position - size) % n = 0
  · rw [if_pos h0, if_pos h0]
    omega
  · rw [if_neg h0, if_neg h0]
    by_cases hlt : (position - size) % n < n * ceilDiv size n - size
    · obtain ⟨m, hm⟩ : ∃ m, ceilDiv size n = m + 1 := by
        refine ⟨ceilDiv size n - 1, ?_⟩
        rcases Nat.eq_zero_or_pos (ceilDiv size n) with hz | hz
        · rw [hz] at hlt
          omega
        · omega
      have hmul : n * ceilDiv size n = n * m + n := by rw [hm, Nat.mul_add, Nat.mul_one]
      have hpos : position = n * (m + (position - size) / n) +
          (n + (position - size) % n - (n * ceilDiv size n - size)) := by
        rw [Nat.mul_add]
        omega
      have hmod : position % n = n + (position - size) % n - (n * ceilDiv size n - size) := by
        conv_lhs => rw [hpos]
        rw [Nat.mul_add_mod, Nat.mod_eq_of_lt (by omega)]
      rw [if_pos hlt, hmod]
      omega
    · have hpos : position = n * (ceilDiv size n + (position - size) / n) +
          ((position - size) % n - (n * ceilDiv size n - size)) := by
        rw [Nat.mul_add]
        omega
      have hmod : position % n = (position - size) % n - (n * ceilDiv size n - size) := by
        conv_lhs => rw [hpos]
        rw [Nat.mul_add_mod, Nat.mod_eq_of_lt (by omega)]
      rw [if_neg hlt, hmod]
      omega

/-- The data are not put before the position, when the file ends in its clusters. -/
theorem position_le_gapStart {n size : ℕ} {l : List ℕ} (hn : 0 < n) (hsize : size ≤ position)
    (hcap : size ≤ n * l.length) :
    position ≤ n * l.length + gapStart n position (position - size) := by
  have hblank := Nat.div_add_mod (position - size) n
  have hrest := Nat.mod_lt (position - size) hn
  have hposition := Nat.div_add_mod position n
  have hmod := Nat.mod_lt position hn
  rw [gapStart, Nat.mul_comm ((position - size) / n)]
  split_ifs with h0
  · omega
  · have hle : position / n ≤ l.length + (position - size) / n := by
      apply Nat.le_of_lt_succ
      apply Nat.lt_of_mul_lt_mul_left (a := n)
      rw [Nat.mul_succ, Nat.mul_add]
      omega
    have hmul := Nat.mul_le_mul_left n hle
    rw [Nat.mul_add] at hmul
    omega

theorem FileIn.append_refused {l : List ℕ} (h : FileIn g s s₁ path info v o k c i) (hg : g.Valid)
    (hposition : info.fileSize ≤ position) (hn : 1 ≤ numBytes) (hlt : position + numBytes < 2 ^ 32)
    (hinfo : fat32GetFileInformation s path = some (s₁, some info))
    (hfree : v.free < ceilDiv (position + numBytes - info.fileSize) g.clusterBytes) :
    ¬ AppendKept g s path info l buffer position numBytes := by
  have hmod : u32 (position + numBytes) = position + numBytes := Nat.mod_eq_of_lt hlt
  have hr : Refused g v info.clusterStart
      (ceilDiv (position + numBytes - info.fileSize) g.clusterBytes) :=
      Or.inr (Or.inr (Or.inr hfree))
  have hrun : fat32WriteFile s path buffer position numBytes = some (s₁, .noEnoughSpace) := by
    rw [fat32WriteFile, if_neg (by omega), hinfo]
    dsimp only
    rw [if_pos hposition, appendFile]
    simp only [h.after.clusterBytes_eq, requiredClusters_eq hposition hlt, hmod,
      h.after.refused hg hr, if_true]
  rintro ⟨s', status, s₂, info', l', hwrite, hinfo', hsize', -⟩
  rw [hrun] at hwrite
  cases hwrite
  obtain ⟨s₃, info₃, hinfo₃, -, hsize₃⟩ := h.file.information h.after hg h.consistent
  rw [hinfo₃] at hinfo'
  cases hinfo'
  have hsize : fileSize (slot (v.data c) i) = info.fileSize := by
    rw [h.found]
    rfl
  omega

theorem FileIn.append_done {l : List ℕ} (buffer : Buffer) (h : FileIn g s s₁ path info v o k c i)
    (hg : g.Valid)
    (hinfo : fat32GetFileInformation s path = some (s₁, some info)) (h0 : info.clusterStart ≠ 0)
    (hl : IsFileChain g s info l) (hcap : info.fileSize ≤ g.clusterBytes * l.length)
    (hposition : info.fileSize ≤ position) (hn : 1 ≤ numBytes) (hlt : position + numBytes < 2 ^ 32)
    (hfree : ceilDiv (position + numBytes - info.fileSize) g.clusterBytes ≤ v.free) :
    ∃ s' s₂ info' zs, fat32WriteFile s path buffer position numBytes = some (s', .success) ∧
      fat32GetFileInformation s' path = some (s₂, some info') ∧
      info'.fileSize = position + numBytes ∧
      IsFileChain g s' info' (l ++ zs) ∧
      zs.length = ceilDiv (position + numBytes - info.fileSize) g.clusterBytes ∧
      (∀ y < g.clusterBytes * l.length,
        chainByte g.clusterBytes s'.data (l ++ zs) y = chainByte g.clusterBytes s.data l y) ∧
      ∀ y, g.clusterBytes * l.length ≤ y → y < position + numBytes →
        chainByte g.clusterBytes s'.data (l ++ zs) y = appendedByte
          (g.clusterBytes * l.length + gapStart g.clusterBytes position (position - info.fileSize))
            numBytes
          buffer y := by
  have hpos := hg.clusterBytes_pos
  have hfc : firstCluster (slot (v.data c) i) = info.clusterStart := by
    rw [h.found]
    rfl
  have hsize : fileSize (slot (v.data c) i) = info.fileSize := by
    rw [h.found]
    rfl
  obtain ⟨hh, hd, rfl⟩ := h.chain h0 hl
  obtain ⟨s', v', zs, hrun, hv', hc', hf', hzs, happ⟩ :=
    h.after.appendFile_further info.fileName buffer hg h.consistent h.file hfc h0 (by
      rwa [hsize]) hlt
      (by
        rw [hsize]
        exact h.consistent.not_refused hh (ceilDiv_pos (by omega) hpos) hfree)
  rw [← h.found] at hrun
  rw [hsize] at hzs happ
  obtain ⟨s₂, info', hinfo', hstart', hsize'⟩ := hf'.information hv' hg hc'
  have hch : g.IsChain v'.fat (info.clusterStart :: o.tail info.clusterStart ++ zs) := by
    have := hc'.chains _ hh
    rwa [Owners.extend_tail_self] at this
  obtain ⟨D, hD, hDother⟩ := happ.data
  have hplace :=
    position_le_gapStart (l := info.clusterStart :: o.tail info.clusterStart) hpos hposition hcap
  have hcap' := le_mul_ceilDiv (position + numBytes - info.fileSize) hpos
  rw [← hzs] at hcap'
  refine ⟨s', s₂, info', zs, ?_, hinfo', hsize'.trans happ.fileSize, ⟨?_, hv'.isChain hch⟩, hzs,
    fun y hy => ?_, fun y hle hy => ?_⟩
  · rw [fat32WriteFile, if_neg (by omega), hinfo]
    dsimp only
    rw [if_pos hposition]
    exact hrun
  · rw [hstart', happ.firstCluster]
    rfl
  · rw [chainByte_append_of_lt hy]
    refine chainByte_congr (fun b hb => ?_) hy
    have hin := hl.2.inData b hb
    have hbz : b ∉ zs := fun hz => hl.2.fat_ne_zero b hb
      ((h.before.fat b (Geometry.Valid.inData_fatEntries hin)).trans (happ.fresh b hz))
    have hbc : b ≠ c := fun heq => h.entry_not_mem hh hd (heq ▸ hb)
    rw [hv'.data b hin, h.before.data b hin, hD, appendData_of_not_mem hbz, hDother b hbc]
  · have hin : y < g.clusterBytes * (info.clusterStart :: o.tail info.clusterStart ++ zs).length :=
        by
      rw [List.length_append, Nat.mul_add]
      omega
    rw [hv'.chainByte_eq hch.inData hin, chainByte_append_of_le hpos hle, hD]
    refine (chainByte_appendData hg happ.nodup ?_ ?_ ?_ ?_ ?_).trans ?_
    · rfl
    · rfl
    · exact hn
    · dsimp only
      omega
    · omega
    · dsimp only
      rw [appendedByte, appendedByte]
      split_ifs <;> first | omega | rfl | (congr 1; omega)

/-- The bytes that the loop leaves are those expected exactly when the conditions on the slack and
on the data hold. -/
theorem append_content_iff {n size start shift : ℕ} {old : ℕ → Byte} {content : ℕ → Byte}
    (hstart : size ≤ start) (hold : ∀ y < start, content y = old y)
    (hnew : ∀ y, start ≤ y → y < position + n →
      content y = appendedByte (position + shift) n buffer y) :
    (∀ y < position + n, content y =
        if y < size then old y else if y < position then 0 else buffer (y - position)) ↔
      (∀ y, size ≤ y → y < start → y < position + n →
        old y = if y < position then 0 else buffer (y - position)) ∧
      ∀ j < n, start ≤ position + j → buffer j = if j < shift then 0 else buffer (j - shift) := by
  refine ⟨fun h => ⟨fun y hy hys hyn => ?_, fun j hj hsj => ?_⟩, fun ⟨hslack, hdata⟩ y hy => ?_⟩
  · rw [← hold y hys, h y hyn, if_neg (by omega)]
  · have hj' := h (position + j) (by omega)
    rw [if_neg (by omega), if_neg (by omega), Nat.add_sub_cancel_left, hnew _ hsj (by omega)] at hj'
    rw [← hj', appendedByte]
    split_ifs <;> first | omega | rfl | (congr 1; omega)
  · by_cases hys : y < start
    · rw [hold y hys]
      by_cases hsize : y < size
      · rw [if_pos hsize]
      · rw [if_neg hsize]
        exact hslack y (Nat.not_lt.mp hsize) hys hy
    · rw [hnew y (Nat.not_lt.mp hys) hy, appendedByte, if_neg (show ¬ y < size by omega)]
      by_cases hpos : y < position
      · rw [if_pos hpos, if_pos (by omega)]
      · have hj := hdata (y - position) (by omega) (by omega)
        rw [if_neg hpos, hj]
        split_ifs <;> first | omega | rfl | (congr 1; omega)

theorem FileIn.clusterStart_ne_zero (h : FileIn g s s₁ path info v o k c i)
    (hsize : 0 < info.fileSize) :
    info.clusterStart ≠ 0 := by
  intro hz
  have hfc : firstCluster (slot (v.data c) i) = 0 := by
    rw [h.found] at hz
    exact hz
  have hempty : info.fileSize = 0 := by
    rw [h.found]
    exact h.file.empty h.consistent hfc
  omega

section Appending

variable {l : List ℕ} (hg : g.Valid) (hs : Loose g s)
  (hpath : pathTo (fun e => !isDirectory e) (entriesOf path) s rootDirStart = true)
  (hinfo : fat32GetFileInformation s path = some (s₁, some info)) (hsize : 0 < info.fileSize)
  (hl : IsFileChain g s info l) (hlen : l.length = ceilDiv info.fileSize g.clusterBytes)
  (hposition : info.fileSize ≤ position) (hn : 1 ≤ numBytes) (hlt : position + numBytes < 2 ^ 32)

include hg hs hpath hinfo hsize hl hlen hposition hn hlt

theorem AppendKept.lands (hk : AppendKept g s path info l buffer position numBytes) :
    AppendLands g s info l buffer position numBytes := by
  obtain ⟨v, o, k, c, i, hfile⟩ := hs.file hg hpath hinfo
  have hcount := hfile.consistent.counted.freeEntries_eq hfile.before
  by_cases hfree : v.free < ceilDiv (position + numBytes - info.fileSize) g.clusterBytes
  · exact absurd hk (hfile.append_refused hg hposition hn hlt hinfo hfree)
  · have hcap := le_mul_ceilDiv info.fileSize hg.clusterBytes_pos
    have hplace := gapStart_eq_landing hg.clusterBytes_pos hposition
    rw [← hlen] at hcap hplace
    obtain ⟨s', s₂, info', zs, hrun, hinfo', hsize', hch, hzs, hold, hnew⟩ :=
      hfile.append_done buffer hg hinfo (hfile.clusterStart_ne_zero hsize) hl hcap hposition hn hlt
        (Nat.not_lt.mp hfree)
    rw [hplace] at hnew
    obtain ⟨s₃, status, s₄, info₃, l₃, hrun₃, hinfo₃, -, hch₃, -, hcontent⟩ := hk
    rw [hrun] at hrun₃
    cases hrun₃
    rw [hinfo'] at hinfo₃
    cases hinfo₃
    obtain rfl : l₃ = l ++ zs := hch₃.unique hch
    obtain ⟨hslack, hdata⟩ := (append_content_iff hcap hold hnew).mp hcontent
    exact ⟨by omega, hslack, hdata⟩

theorem AppendLands.kept (hk : AppendLands g s info l buffer position numBytes) :
    AppendKept g s path info l buffer position numBytes := by
  obtain ⟨v, o, k, c, i, hfile⟩ := hs.file hg hpath hinfo
  have hcount := hfile.consistent.counted.freeEntries_eq hfile.before
  have hpos := hg.clusterBytes_pos
  have henough := hk.enough
  rw [hcount] at henough
  have hcap := le_mul_ceilDiv info.fileSize hpos
  have hplace := gapStart_eq_landing hpos hposition
  rw [← hlen] at hcap hplace
  obtain ⟨s', s₂, info', zs, hrun, hinfo', hsize', hch, hzs, hold, hnew⟩ :=
    hfile.append_done buffer hg hinfo
      (hfile.clusterStart_ne_zero hsize) hl hcap hposition hn hlt henough
  have hcap' := le_mul_ceilDiv (position + numBytes - info.fileSize) hpos
  rw [hplace] at hnew
  rw [← hzs] at hcap'
  refine ⟨s', .success, s₂, info', l ++ zs, hrun, hinfo', hsize', hch, ?_,
    (append_content_iff hcap hold hnew).mpr ⟨hk.slack, hk.data⟩⟩
  rw [List.length_append, Nat.mul_add]
  omega

/-- An append keeps the content exactly when its data land where they belong. -/
theorem append_kept_iff :
    AppendKept g s path info l buffer position numBytes ↔
      AppendLands g s info l buffer position numBytes :=
  ⟨AppendKept.lands hg hs hpath hinfo hsize hl hlen hposition hn hlt,
    AppendLands.kept hg hs hpath hinfo hsize hl hlen hposition hn hlt⟩

end Appending

/-- Ten bytes behind a full cluster. -/
theorem append_kept_small : ∃ s info, AppendKept smallGeometry s [0x46] info
    [3] (fun _ => 2) 512 10 := by
  obtain ⟨s, s₁, info, -, hs, hpath, hinfo, hstart, hsize, hfree, hfat⟩ :=
    small_file [.createFile [0x46] 0x20, .writeFile [0x46] (fun _ => 1) 0 512] [0x46] 3 512 2
      [endOfChain, endOfChain, 0, 0] (by decide +kernel)
  refine ⟨s, info, (append_kept_iff smallGeometry_valid hs hpath hinfo (by rw [hsize]; decide)
    (isFileChain_small_one hstart (List.cons.inj (List.cons.inj hfat).2).1) (by
      rw [hsize]; decide) (by rw [hsize]) (by decide) (by decide)).mpr
    ⟨by rw [hsize, hfree]; decide, fun y hle hlt _ => ?_, fun j hj _ => ?_⟩⟩
  · rw [hsize] at hle
    change y < 512 at hlt
    omega
  · rw [hsize, show landing smallGeometry.clusterBytes 512 512 = 0 by
      decide, if_neg (Nat.not_lt_zero j)]

def lastByte : Buffer := fun j => if j = 511 then 3 else 2

/-- One byte is written, and as many behind it as a cluster has. They are put at the start of the
next cluster, where the first one is read as the last. -/
theorem append_lost : ∃ s s₁ info, Runs.Reaches Call.run (fun s c => c.orderly s = true)
      (fat32CreatePartition (blankDrive smallGeometry 0) smallGeometry) s ∧
    fat32GetFileInformation s [0x46] = some (s₁, some info) ∧ info.fileSize = 1 ∧
    IsFileChain smallGeometry s info [3] ∧ freeEntries smallGeometry s = 2 ∧
    ¬ AppendKept smallGeometry s [0x46] info [3] lastByte 1 512 := by
  obtain ⟨s, s₁, info, hr, hs, hpath, hinfo, hstart, hsize, hfree, hfat⟩ :=
    small_file [.createFile [0x46] 0x20, .writeFile [0x46] (fun _ => 1) 0 1] [0x46] 3 1 2
      [endOfChain, endOfChain, 0, 0] (by decide +kernel)
  have hl := isFileChain_small_one hstart (List.cons.inj (List.cons.inj hfat).2).1
  refine ⟨s, s₁, info, hr, hinfo, hsize, hl, hfree, fun hk => ?_⟩
  have hlands := hk.lands smallGeometry_valid hs hpath hinfo (by rw [hsize]; decide) hl
    (by rw [hsize]; decide) (by rw [hsize]) (by decide) (by decide)
  have hbyte := hlands.data 511 (by decide) (by decide)
  rw [hsize] at hbyte
  revert hbyte
  decide

end DevOs.Fat32
