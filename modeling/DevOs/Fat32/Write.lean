import DevOs.Fat32.Create
import Mathlib.Data.List.GetD

/-!
# Writing files keeps the volume consistent

`Fat32WriteFile` appends new clusters to the chain of the file, edits the entry, and writes clusters
of that chain only. The entry is the one that the path leads to through directories. The driver does
not ask for that: it goes through a file as if it were a directory, so `pathTo` is a condition here.
An edit of an entry that leaves its first cluster and its kind keeps the volume consistent too,
except for the sizes.
-/

namespace DevOs.Fat32

open Bytes Chains

variable {g : Geometry} {s₀ s s' : State} {v v' : Vol} {o o' : Owners}

theorem Geometry.Valid.clusterBytes_pos (hg : g.Valid) : 0 < g.clusterBytes := by
  have := hg.clusterSize
  rw [Geometry.clusterBytes]
  omega

/-- The byte `y` of the clusters `l`, one after another. -/
def chainByte (clusterSize : ℕ) (data : ℕ → Buffer) (l : List ℕ) (y : ℕ) : Byte :=
  data (l.getD (y / clusterSize) 0) (y % clusterSize)

section ChainByte

variable {n c y : ℕ} {data data' : ℕ → Buffer} {l m : List ℕ}

theorem chainByte_cons_of_lt (hy : y < n) : chainByte n data (c :: l) y = data c y := by
  rw [chainByte, Nat.div_eq_of_lt hy, Nat.mod_eq_of_lt hy, List.getD_cons_zero]

theorem chainByte_cons_of_le (hn : 0 < n) (hy : n ≤ y) :
    chainByte n data (c :: l) y = chainByte n data l (y - n) := by
  rw [chainByte, chainByte, Nat.div_eq_sub_div hn hy, Nat.mod_eq_sub_mod hy, List.getD_cons_succ]

theorem chainByte_append_of_lt (hy : y < n * l.length) :
    chainByte n data (l ++ m) y = chainByte n data l y := by
  have hlt : y / n < l.length := Nat.div_lt_of_lt_mul hy
  rw [chainByte, chainByte, List.getD_append _ _ _ _ hlt]

theorem chainByte_append_of_le (hn : 0 < n) (hy : n * l.length ≤ y) :
    chainByte n data (l ++ m) y = chainByte n data m (y - n * l.length) := by
  have hle : l.length ≤ y / n := (Nat.le_div_iff_mul_le hn).mpr (by rwa [Nat.mul_comm])
  rw [chainByte, chainByte, List.getD_append_right _ _ _ _ hle, Nat.sub_mul_div, Nat.sub_mul_mod hy]

theorem chainByte_congr (h : ∀ c ∈ l, data c = data' c) (hy : y < n * l.length) :
    chainByte n data l y = chainByte n data' l y := by
  have hlt : y / n < l.length := Nat.div_lt_of_lt_mul hy
  rw [chainByte, chainByte, h]
  rw [List.getD_eq_getElem _ _ hlt]
  exact List.getElem_mem hlt

end ChainByte

def appendData (g : Geometry) (position : ℕ) (buffer : Buffer) :
    List ℕ → Appending → (ℕ → Buffer) → ℕ → Buffer
  | [], _, D => D
  | c :: l, a, D =>
    let (data, a') := appendCluster g.clusterBytes position buffer a
    let D := Function.update D c (window data 0 g.clusterBytes)
    if a'.remaining = 0 then D
    else appendData g position buffer l { a' with cluster := l.headD endOfChain } D

theorem appendData_of_not_mem {position : ℕ} {buffer : Buffer} {l : List ℕ} {a : Appending}
    {D : ℕ → Buffer} {b : ℕ} (hb : b ∉ l) : appendData g position buffer l a D b = D b := by
  induction l generalizing a D with
  | nil => rfl
  | cons c l ih =>
    rw [List.mem_cons, not_or] at hb
    rw [appendData]
    dsimp only
    split_ifs
    · exact Function.update_of_ne hb.1 ..
    · rw [ih hb.2, Function.update_of_ne hb.1]

theorem Geometry.IsChain.next {F : ℕ → ℕ} {c : ℕ} {l : List ℕ} (h : g.IsChain F (c :: l)) :
    F c = l.headD endOfChain := by
  cases l with
  | nil => exact h.chain
  | cons d l => exact h.chain.1

theorem Geometry.IsChain.tail {F : ℕ → ℕ} {c d : ℕ} {l : List ℕ} (h : g.IsChain F (c :: d :: l)) :
    g.IsChain F (d :: l) :=
  ⟨h.chain.tail, fun b hb => h.inData b (by simp [hb])⟩

theorem View.appendLoop {position n c : ℕ} {buffer : Buffer} {l : List ℕ} {a : Appending}
    (hv : View g s₀ s v) (hg : g.Valid) (hl : g.IsChain v.fat (c :: l)) (ha : a.cluster = c)
    (hn : l.length + 1 < n) :
    ∃ s', appendLoop g.clusterBytes position buffer n s c a = some s' ∧
      View g s₀ s' { v with data := appendData g position buffer (c :: l) a v.data } := by
  induction n generalizing s v c l a with
  | zero => omega
  | succ n ih =>
    have hc := hl.inData c (by simp)
    obtain ⟨hview, hnext⟩ := hv.getNextCluster hg hc
    have hne := hl.fat_ne_zero c (by simp)
    rcases happ : appendCluster g.clusterBytes position buffer a with ⟨data, a'⟩
    have hwrite := hview.writeCluster hg hc data
    rw [Fat32.appendLoop, appendData]
    simp only [hnext, if_neg hne, happ, ha]
    by_cases hrem : a'.remaining = 0
    · simp only [if_pos hrem]
      exact ⟨_, rfl, hwrite⟩
    · simp only [if_neg hrem]
      rw [hl.next]
      cases l with
      | nil =>
        obtain ⟨m, rfl⟩ : ∃ m, n = m + 1 := ⟨n - 1, by omega⟩
        refine ⟨_, ?_, hwrite⟩
        rw [List.headD_nil, Fat32.appendLoop, fat32GetNextCluster_end]
        rfl
      | cons d l =>
        rw [List.headD_cons]
        exact ih hwrite hl.tail rfl (by simpa using hn)

/-- The byte `y` after `n` bytes from `position` on were replaced. -/
def splicedByte (position n : ℕ) (buffer old : ℕ → Byte) (y : ℕ) : Byte :=
  if position ≤ y ∧ y < position + n then buffer (y - position) else old y

theorem View.overwriteCluster {a : Overwriting} (hv : View g s₀ s v) (buffer : Buffer)
    (hg : g.Valid) (hc : g.InData a.cluster) :
    ∃ s' a' D, overwriteCluster s g.clusterBytes buffer a = (s', a') ∧
      View g s₀ s' { v with data := D } ∧ (∀ b, b ≠ a.cluster → D b = v.data b) ∧
      (∀ y < g.clusterBytes, D a.cluster y =
        splicedByte a.tmpPos a.remaining (fun y => buffer (a.done + y)) (v.data a.cluster) y) ∧
      a'.tmpPos = a.tmpPos - g.clusterBytes ∧
      a'.remaining = a.remaining - (g.clusterBytes - a.tmpPos) ∧
      a'.done = a.done + min (g.clusterBytes - a.tmpPos) a.remaining := by
  rw [Fat32.overwriteCluster]
  by_cases h1 : a.tmpPos = 0 ∧ g.clusterBytes ≤ a.remaining
  · rw [if_pos h1]
    refine ⟨_, _, _, rfl, hv.writeCluster hg hc _,
      fun b hb => Function.update_of_ne hb .., ?_, ?_, ?_, ?_⟩
    · intro y hy
      rw [Function.update_self, window_apply hy, window, if_pos hy, splicedByte, if_pos (by omega),
        h1.1, Nat.sub_zero]
    · dsimp only
      omega
    · dsimp only
      omega
    · dsimp only
      omega
  · rw [if_neg h1]
    by_cases h2 : a.tmpPos < g.clusterBytes
    · rw [if_pos h2]
      obtain ⟨s₁, hread, hv₁⟩ := hv.readCluster hg hc a.readCluster
      rw [hread]
      refine ⟨_, _, _, rfl, hv₁.writeCluster hg hc _,
        fun b hb => Function.update_of_ne hb .., ?_, ?_, ?_, rfl⟩
      · intro y hy
        rw [Function.update_self, window_apply hy, copy, splicedByte]
        split_ifs <;> first | rfl | omega
      · dsimp only
        omega
      · dsimp only
        omega
    · rw [if_neg h2]
      refine ⟨_, _, _, rfl, hv, fun _ _ => rfl, ?_, rfl, ?_, ?_⟩
      · intro y hy
        rw [splicedByte, if_neg (by omega)]
      · dsimp only
        omega
      · dsimp only
        omega

/-- The loop replaces the bytes in the clusters of the chain, and writes no other cluster. -/
theorem View.overwriteLoop {n c : ℕ} {buffer : Buffer} {l : List ℕ} {a : Overwriting}
    (hv : View g s₀ s v) (hg : g.Valid) (hl : g.IsChain v.fat (c :: l)) (ha : a.cluster = c)
    (hn : l.length + 1 < n) :
    ∃ s' D, overwriteLoop g.clusterBytes buffer n s c a = some s' ∧
      View g s₀ s' { v with data := D } ∧ (∀ b, b ∉ c :: l → D b = v.data b) ∧
      ∀ y < g.clusterBytes * (c :: l).length, chainByte g.clusterBytes D (c :: l) y =
        splicedByte a.tmpPos a.remaining (fun y => buffer (a.done + y))
          (chainByte g.clusterBytes v.data (c :: l)) y := by
  have hpos := hg.clusterBytes_pos
  induction n generalizing s v c l a with
  | zero => omega
  | succ n ih =>
    have hc := hl.inData c (by simp)
    have hcl := (List.nodup_cons.mp hl.chain.nodup).1
    obtain ⟨hview, hnext⟩ := hv.getNextCluster hg hc
    have hne := hl.fat_ne_zero c (by simp)
    obtain ⟨s₁, a', D, hover, hv₁, hD, hbyte, htmp, hrem', hdone⟩ :=
      hview.overwriteCluster buffer hg (a := a) (by rw [ha]; exact hc)
    rw [ha] at hD hbyte
    have hrest {y : ℕ} (hy : y < g.clusterBytes * l.length) :
        chainByte g.clusterBytes D l y = chainByte g.clusterBytes v.data l y :=
      chainByte_congr (fun b hb => hD b (by rintro rfl; exact hcl hb)) hy
    have hfirst {y : ℕ} (hy : y < g.clusterBytes) : chainByte g.clusterBytes D (c :: l) y =
        splicedByte a.tmpPos a.remaining (fun y => buffer (a.done + y))
          (chainByte g.clusterBytes v.data (c :: l)) y := by
      rw [chainByte_cons_of_lt hy, hbyte y hy, splicedByte, splicedByte, chainByte_cons_of_lt hy]
    rw [Fat32.overwriteLoop]
    simp only [hnext, if_neg hne, hover]
    by_cases hrem : a'.remaining = 0
    · simp only [if_pos hrem]
      refine ⟨s₁, D, rfl, hv₁, fun b hb => hD b ?_, fun y hy => ?_⟩
      · rintro rfl
        exact hb (by simp)
      · by_cases hlt : y < g.clusterBytes
        · exact hfirst hlt
        · have hle := Nat.not_lt.mp hlt
          rw [List.length_cons, Nat.mul_add, Nat.mul_one] at hy
          rw [chainByte_cons_of_le hpos hle, hrest (by omega), splicedByte, if_neg (by omega),
            chainByte_cons_of_le hpos hle]
    · simp only [if_neg hrem]
      rw [hl.next]
      cases l with
      | nil =>
        obtain ⟨m, rfl⟩ : ∃ m, n = m + 1 := ⟨n - 1, by omega⟩
        refine ⟨s₁, D, ?_, hv₁, fun b hb => hD b (by simpa using hb), fun y hy => ?_⟩
        · rw [List.headD_nil, Fat32.overwriteLoop, fat32GetNextCluster_end]
          rfl
        · rw [List.length_singleton, Nat.mul_one] at hy
          exact hfirst hy
      | cons d l =>
        rw [List.headD_cons]
        obtain ⟨s₂, D₂, hloop, hv₂, hD₂, hbytes⟩ :=
          ih (a := { a' with cluster := d }) hv₁ hl.tail rfl
          (by simpa using hn)
        refine ⟨s₂, D₂, hloop, hv₂, fun b hb => ?_, fun y hy => ?_⟩
        · rw [List.mem_cons, not_or] at hb
          rw [hD₂ b hb.2]
          exact hD b hb.1
        · by_cases hlt : y < g.clusterBytes
          · rw [← hfirst hlt, chainByte_cons_of_lt hlt, chainByte_cons_of_lt hlt, hD₂ c hcl]
          · have hle := Nat.not_lt.mp hlt
            rw [List.length_cons, Nat.mul_add, Nat.mul_one] at hy
            rw [chainByte_cons_of_le hpos hle, hbytes _ (by omega), splicedByte, splicedByte,
              chainByte_cons_of_le hpos hle, htmp, hrem', hdone]
            split_ifs
            · congr 1
              omega
            · omega
            · omega
            · exact hrest (by omega)

/-- The path goes through directories, and the entry at its end meets `last`. Nothing is asked of a
path that is not there. -/
def pathTo (last : Buffer → Bool) : List Name → State → ℕ → Bool
  | [], _, _ => true
  | name :: names, s, cluster =>
    match fat32FindEntry s name cluster with
    | some (s, some e) =>
      if names = [] then last e else isDirectory e && pathTo last names s (firstCluster e)
    | _ => true

/-- The path `names` leads through directories to the slot `i` of the cluster `c`, in the directory
`k`. -/
def PathAt (g : Geometry) (v : Vol) (o : Owners) (names : List Name) (k c i : ℕ) : Prop :=
  ∃ parents name, names = parents ++ [name] ∧ Leads g v o rootDirStart parents k ∧
    locate g v.data name (k :: o.tail k) = some (c, i)

theorem PathAt.infoAt {names : List Name} {k c i : ℕ} (h : PathAt g v o names k c i)
    (hc : Consistent g v o) : InfoAt g v o c i := by
  obtain ⟨parents, name, -, hl, hk⟩ := h
  obtain ⟨hkh, hkd⟩ := hl.head hc.root hc.rootDir
  exact hc.infoAt hkh hkd hk

/-- The path leads to the entry of a file. -/
structure FileAt (g : Geometry) (v : Vol) (o : Owners) (names : List Name) (k c i : ℕ) : Prop where
  path : PathAt g v o names k c i
  notDir : isDirectory (slot (v.data c) i) = false

theorem FileAt.infoAt {names : List Name} {k c i : ℕ} (h : FileAt g v o names k c i)
    (hc : Consistent g v o) : InfoAt g v o c i :=
  h.path.infoAt hc

def informationOf (v : Vol) (name : Name) (k c i : ℕ) : FileInformation :=
  ⟨firstCluster (slot (v.data c) i), name, slot (v.data c) i 11, k, fileSize (slot (v.data c) i)⟩

theorem getFileInformation_zero (names : List Name) (s : State) :
    getFileInformation names s 0 = some (s, none) := by
  cases names with
  | nil => rfl
  | cons name names => rw [getFileInformation, fat32FindEntry_zero]

/-- `Fat32GetFileInformation` finds the entry at the end of the path, or nothing. -/
theorem View.getFileInformation {last : Buffer → Bool} {k : ℕ} {parents names : List Name}
    (hv : View g s₀ s v) (hg : g.Valid) (hc : Consistent g v o)
    (hl : Leads g v o rootDirStart parents k) (hvalid : ∀ n ∈ names, ValidName n)
    (hpath : pathTo last names s k = true) :
    ∃ s', View g s₀ s' v ∧ (getFileInformation names s k = some (s', none) ∨
      ∃ name j c i, PathAt g v o (parents ++ names) j c i ∧ last (slot (v.data c) i) = true ∧
        getFileInformation names s k = some (s', some (informationOf v name j c i)) ∧
        name ≠ [] ∧ locate g v.data name (j :: o.tail j) = some (c, i)) := by
  induction names generalizing parents s k with
  | nil => exact ⟨s, hv, Or.inl rfl⟩
  | cons name names ih =>
    obtain ⟨hkh, hkd⟩ := hl.head hc.root hc.rootDir
    obtain ⟨s₁, hfind, hv₁⟩ := hv.fat32FindEntry hg hc hkh (hvalid name (by simp)).ne_nil
    rw [pathTo, hfind] at hpath
    rw [Fat32.getFileInformation, hfind]
    cases hloc : locate g v.data name (k :: o.tail k) with
    | none => exact ⟨s₁, hv₁, Or.inl rfl⟩
    | some ci =>
      obtain ⟨c, i⟩ := ci
      have hinfo := hc.infoAt hkh hkd hloc
      rw [hloc] at hpath
      dsimp only [Option.map_some] at hpath ⊢
      by_cases hlast : names = []
      · rw [if_pos hlast] at hpath ⊢
        subst hlast
        exact ⟨s₁, hv₁, Or.inr ⟨name, k, c, i, ⟨parents, name, rfl, hl, hloc⟩, hpath, rfl,
          (hvalid name (by simp)).ne_nil, hloc⟩⟩
      · rw [if_neg hlast, Bool.and_eq_true] at hpath
        rw [if_neg hlast]
        rcases hc.entries c i hinfo with ⟨h0, -⟩ | ⟨hh, -, hd, -⟩
        · rw [h0, getFileInformation_zero]
          exact ⟨s₁, hv₁, Or.inl rfl⟩
        · have hnext := ih hv₁ (hl.snoc hloc hh (hd.mpr hpath.1))
            (fun n hn => hvalid n (by simp [hn])) hpath.2
          rw [List.append_assoc, List.singleton_append] at hnext
          exact hnext

theorem View.getFileInformation_found {h k c i : ℕ} {names : List Name} {name : Name}
    (hv : View g s₀ s v) (hg : g.Valid) (hc : Consistent g v o) (hl : Leads g v o h names k)
    (hh : o.head h) (hd : o.dir h) (hk : locate g v.data name (k :: o.tail k) = some (c, i))
    (hvalid : ∀ n ∈ names ++ [name], ValidName n) :
    ∃ s', Fat32.getFileInformation (names ++ [name]) s h =
      some (s', some (informationOf v name k c i)) ∧
      View g s₀ s' v := by
  induction hl generalizing s with
  | nil =>
    obtain ⟨s₁, hfind, hv₁⟩ := hv.fat32FindEntry hg hc hh (hvalid name (by simp)).ne_nil
    refine ⟨s₁, ?_, hv₁⟩
    rw [List.nil_append, Fat32.getFileInformation, hfind, hk]
    rfl
  | @cons h k d j n names hl hh' hd' hr ih =>
    obtain ⟨s₁, hfind, hv₁⟩ := hv.fat32FindEntry hg hc hh (hvalid n (by simp)).ne_nil
    obtain ⟨s₂, hinfo, hv₂⟩ := ih hv₁ hh' hd' hk (fun m hm => hvalid m (by simp at hm ⊢; tauto))
    refine ⟨s₂, ?_, hv₂⟩
    rw [List.cons_append, Fat32.getFileInformation, hfind, hl]
    dsimp only [Option.map_some]
    rw [if_neg (by simp)]
    exact hinfo

theorem Consistent.not_inDir {h b : ℕ} (hc : Consistent g v o) (hh : o.head h) (hd : ¬ o.dir h)
    (hb : b ∈ h :: o.tail h) : ¬ o.InDir b := by
  rintro ⟨k, hk, hkd, hbk⟩
  rw [hc.disjoint k h b hk hh hbk hb] at hkd
  exact hd hkd

section File

variable {names : List Name} {path : Name} {k c i f x : ℕ}

theorem FileAt.owner (hf : FileAt g v o names k c i) (hc : Consistent g v o)
    (hfc : firstCluster (slot (v.data c) i) = f) (h0 : f ≠ 0) :
    o.head f ∧ f ≠ rootDirStart ∧ ¬ o.dir f ∧
      (o.sized → fileSize (slot (v.data c) i) ≤ g.clusterBytes * (f :: o.tail f).length) := by
  subst hfc
  rcases hc.entries c i (hf.infoAt hc) with ⟨hz, -⟩ | ⟨hh, hr, hd, hs⟩
  · exact absurd hz h0
  · refine ⟨hh, hr, fun hdir => ?_, fun hsz => hs hsz hf.notDir⟩
    have := hd.mp hdir
    rw [hf.notDir] at this
    cases this

theorem FileAt.empty (hf : FileAt g v o names k c i) (hc : Consistent g v o)
    (hfc : firstCluster (slot (v.data c) i) = 0) : fileSize (slot (v.data c) i) = 0 := by
  rcases hc.entries c i (hf.infoAt hc) with ⟨-, hs⟩ | ⟨hh, -⟩
  · exact hs hf.notDir
  · exact absurd hfc (hc.head_ne_zero hh)

theorem View.resize (hv : View g s₀ s v) (hg : g.Valid) (hc : Consistent g v o)
    (hf : FileAt g v o names k c i) (hp : entriesOf path = names) (hx : x < 2 ^ 32)
    (hfc : firstCluster (slot (v.data c) i) = f) (h0 : f ≠ 0)
    (hfit : o.sized → x ≤ g.clusterBytes * (f :: o.tail f).length) :
    ∃ s', fat32EditFile s path editFileSize 0 x = some (s', true) ∧
      View g s₀ s' (v.edit g editFileSize 0 x c i) ∧
      Consistent g (v.edit g editFileSize 0 x c i) o ∧
      FileAt g (v.edit g editFileSize 0 x c i) o names k c i ∧
      firstCluster (slot ((v.edit g editFileSize 0 x c i).data c) i) = f ∧
      fileSize (slot ((v.edit g editFileSize 0 x c i).data c) i) = x := by
  obtain ⟨parents, name, rfl, hl, hk⟩ := hf.path
  obtain ⟨hh, hr, hd, -⟩ := hf.owner hc hfc h0
  have hedit : editFileSize.AttributesOk 0 (slot (v.data c) i) := fun h => by cases h
  have hsame := sameName_apply x (isLfn_of_info (hf.infoAt hc).info) hedit
  have hdir : isDirectory (editFileSize.apply 0 x (slot (v.data c) i)) = false := by
    rw [← isDirectory_window, hsame.isDirectory, hf.notDir]
  have hentry : EntryOk g o (editFileSize.apply 0 x (slot (v.data c) i)) := by
    rw [EntryOk, firstCluster_editFileSize, fileSize_editFileSize hx, hdir, hfc]
    exact Or.inr ⟨hh, hr, ⟨fun h => absurd h hd, fun h => by cases h⟩, fun hs _ => hfit hs⟩
  obtain ⟨s', hrun, hv', hc', hl', hk', hslot⟩ := hv.edit_path editFileSize 0 x hg hc hl hk hp hedit
    (Or.inr (Or.inr rfl)) hentry (Or.inl firstCluster_editFileSize)
  refine ⟨s', hrun, hv', hc', ⟨⟨parents, name, rfl, hl', hk'⟩, ?_⟩, ?_, ?_⟩
  · rw [hslot, isDirectory_window, hdir]
  · rw [hslot, firstCluster_window, firstCluster_editFileSize, hfc]
  · rw [hslot, fileSize_window, fileSize_editFileSize hx]

theorem FileAt.extend {zs : List ℕ} (hf : FileAt g v o names k c i) (hg : g.Valid)
    (hc : Consistent g v o) (hfc : firstCluster (slot (v.data c) i) = f) (h0 : f ≠ 0)
    (hgr : Grown g v v' (f :: o.tail f) zs) :
    Consistent g v' (o.extend f zs) ∧ FileAt g v' (o.extend f zs) names k c i := by
  obtain ⟨hh, -, hd, -⟩ := hf.owner hc hfc h0
  obtain ⟨parents, name, hnames, hl, hk⟩ := hf.path
  obtain ⟨hkh, hkd⟩ := hl.head hc.root hc.rootDir
  have htail (j : ℕ) (hj : o.dir j) : (o.extend f zs).tail j = o.tail j := by
    apply Function.update_of_ne
    rintro rfl
    exact hd hj
  refine ⟨hc.extend hg hh hgr (fun h => absurd h hd), ⟨parents, name, hnames, ?_, ?_⟩, ?_⟩
  · exact hl.same hc (fun j hj hjd => ⟨hj, hjd, htail j hjd⟩) (fun b _ => by rw [hgr.data])
  · rw [htail k hkd, hgr.data]
    exact hk
  · rw [hgr.data]
    exact hf.notDir

theorem le_mul_ceilDiv (n : ℕ) {d : ℕ} (hd : 0 < d) : n ≤ d * ceilDiv n d := by
  have hmod := Nat.div_add_mod n d
  have hlt := Nat.mod_lt n hd
  rw [ceilDiv]
  split_ifs with h
  · rw [Nat.mul_add]
    omega
  · rw [Nat.add_zero]
    omega

theorem FileAt.fits {zs : List ℕ} (hf : FileAt g v o names k c i) (hg : g.Valid)
    (hc : Consistent g v o) (hfc : firstCluster (slot (v.data c) i) = f) (h0 : f ≠ 0)
    (hzs : zs.length = ceilDiv (x - fileSize (slot (v.data c) i)) g.clusterBytes) (hs : o.sized) :
    x ≤ g.clusterBytes * (f :: (o.extend f zs).tail f).length := by
  have hceil := le_mul_ceilDiv (x - fileSize (slot (v.data c) i)) hg.clusterBytes_pos
  have hfit := (hf.owner hc hfc h0).2.2.2 hs
  have htail : (o.extend f zs).tail f = o.tail f ++ zs := Function.update_self ..
  rw [htail, ← List.cons_append, List.length_append, Nat.mul_add, hzs]
  omega

theorem View.extend_resize {z : ℕ} {zs : List ℕ} (hv : View g s₀ s v') (hg : g.Valid)
    (hc : Consistent g v o) (hf : FileAt g v o names k c i) (hp : entriesOf path = names)
    (hx : x < 2 ^ 32) (hfc : firstCluster (slot (v.data c) i) = f) (h0 : f ≠ 0)
    (hgr : Grown g v v' (f :: o.tail f) (z :: zs))
    (hzs : (z :: zs).length = ceilDiv (x - fileSize (slot (v.data c) i)) g.clusterBytes) :
    ∃ s', fat32EditFile s path editFileSize 0 x = some (s', true) ∧
      View g s₀ s' (v'.edit g editFileSize 0 x c i) ∧
      Consistent g (v'.edit g editFileSize 0 x c i) (o.extend f (z :: zs)) ∧
      FileAt g (v'.edit g editFileSize 0 x c i) (o.extend f (z :: zs)) names k c i ∧
      firstCluster (slot ((v'.edit g editFileSize 0 x c i).data c) i) = f ∧
      fileSize (slot ((v'.edit g editFileSize 0 x c i).data c) i) = x := by
  obtain ⟨hc', hf'⟩ := hf.extend hg hc hfc h0 hgr
  exact hv.resize hg hc' hf' hp hx (by rw [hgr.data]; exact hfc) h0 (hf.fits hg hc hfc h0 hzs)

end File

theorem Consistent.setFile {h : ℕ} {D : ℕ → Buffer} (hc : Consistent g v o) (hh : o.head h)
    (hd : ¬ o.dir h) (hD : ∀ b, b ∉ h :: o.tail h → D b = v.data b) :
    Consistent g { v with data := D } o :=
  hc.congr rfl rfl (fun b hb => hD b (fun hm => hc.not_inDir hh hd hm hb))

section WriteFile

variable {path name : Name} {buffer : Buffer} {k c i position numBytes : ℕ}

theorem FileAt.setFile {names : List Name} {h : ℕ} {D : ℕ → Buffer} (hf : FileAt g v o names k c i)
    (hc : Consistent g v o) (hh : o.head h) (hd : ¬ o.dir h)
    (hD : ∀ b, b ∉ h :: o.tail h → D b = v.data b) :
    FileAt g { v with data := D } o names k c i ∧ D c = v.data c := by
  have hdir (b : ℕ) (hb : o.InDir b) : D b = v.data b := hD b fun hm => hc.not_inDir hh hd hm hb
  have hcd : D c = v.data c := hdir c (hf.infoAt hc).inDir
  obtain ⟨parents, name, hnames, hl, hk⟩ := hf.path
  obtain ⟨hkh, hkd⟩ := hl.head hc.root hc.rootDir
  refine ⟨⟨⟨parents, name, hnames, ?_, ?_⟩, ?_⟩, hcd⟩
  · exact hl.same hc (fun j h1 h2 => ⟨h1, h2, rfl⟩) hdir
  · rw [← hk]
    apply locate_congr
    intro b hb j _
    change slot (D b) j = slot (v.data b) j ∨ _
    rw [hdir b ⟨k, hkh, hkd, hb⟩]
    exact Or.inl rfl
  · change isDirectory (slot (D c) i) = false
    rw [hcd]
    exact hf.notDir

/-- An append to the file at the slot `i` of the cluster `c`: the entry has the new size, and the
loop has filled the new clusters `l`. -/
structure FileAppended (g : Geometry) (v v' : Vol) (c i start size position blank n : ℕ)
    (buffer : Buffer) (l : List ℕ) : Prop where
  firstCluster : firstCluster (slot (v'.data c) i) = start
  fileSize : fileSize (slot (v'.data c) i) = size
  nodup : l.Nodup
  fresh : ∀ b ∈ l, v.fat b = 0
  data : ∃ D, v'.data = appendData g position buffer l ⟨l.headD 0, blank, n, 0, fun _ => 0⟩ D ∧
    ∀ b, b ≠ c → D b = v.data b

theorem View.appendLoop_file {names : List Name} {h z start size : ℕ} {zs : List ℕ} {w : Vol}
    (position blank numBytes : ℕ) (buffer : Buffer) (hv : View g s₀ s v) (hg : g.Valid)
    (hc : Consistent g v o) (hf : FileAt g v o names k c i) (hh : o.head h) (hd : ¬ o.dir h)
    (hl : g.IsChain v.fat (z :: zs)) (hzs : ∀ b ∈ z :: zs, b ∈ h :: o.tail h)
    (hstart : firstCluster (slot (v.data c) i) = start)
    (hsize : fileSize (slot (v.data c) i) = size) (hfresh : ∀ b ∈ z :: zs, w.fat b = 0)
    (hdata : ∀ b, b ≠ c → v.data b = w.data b) :
    ∃ s' v', Fat32.appendLoop g.clusterBytes position buffer walkFuel s z
        ⟨z, blank, numBytes, 0, fun _ => 0⟩ = some s' ∧ View g s₀ s' v' ∧ v'.fat = v.fat ∧
      Consistent g v' o ∧ FileAt g v' o names k c i ∧
      FileAppended g w v' c i start size position blank numBytes buffer (z :: zs) := by
  have hlen := hg.chain_length hl.chain hl.inData
  rw [List.length_cons] at hlen
  have hother (b : ℕ) (hb : b ∉ h :: o.tail h) : appendData g position buffer (z :: zs)
      ⟨z, blank, numBytes, 0, fun _ => 0⟩ v.data b = v.data b :=
    appendData_of_not_mem fun hm => hb (hzs b hm)
  obtain ⟨s', hloop, hv'⟩ : ∃ s', Fat32.appendLoop g.clusterBytes position buffer walkFuel s z
      ⟨z, blank, numBytes, 0, fun _ => 0⟩ = some s' ∧ View g s₀ s' { v with
        data := appendData g position buffer (z :: zs)
            ⟨z, blank, numBytes, 0, fun _ => 0⟩ v.data } :=
    hv.appendLoop hg hl rfl (by omega)
  obtain ⟨hf', hcd⟩ := hf.setFile hc hh hd hother
  refine ⟨s', _, hloop, hv', rfl, hc.setFile hh hd hother, hf', ?_⟩
  refine ⟨?_, ?_, hl.chain.nodup, hfresh, v.data, rfl, hdata⟩
  · change firstCluster (slot (appendData g position buffer (z :: zs) _ v.data c) i) = start
    rw [hcd, hstart]
  · change fileSize (slot (appendData g position buffer (z :: zs) _ v.data c) i) = size
    rw [hcd, hsize]

theorem requiredClusters_eq {size : ℕ} (hsize : size ≤ position)
    (hlt : position + numBytes < 2 ^ 32) :
    sub32 (position + numBytes) size = position + numBytes - size := by
  rw [sub32]
  omega

theorem View.appendFile_first (name : Name) (buffer : Buffer) (hv : View g s₀ s v) (hg : g.Valid)
    (hc : Consistent g v o) (hf : FileAt g v o (entriesOf path) k c i)
    (h0 : firstCluster (slot (v.data c) i) = 0) (hlt : position + numBytes < 2 ^ 32)
    (hr : ¬ Refused g v 0 (ceilDiv (position + numBytes) g.clusterBytes)) :
    ∃ s' v' z zs, appendFile s path (informationOf v name k c i) buffer position numBytes =
        some (s', .success) ∧ View g s₀ s' v' ∧ Consistent g v' (o.add z zs False) ∧
      FileAt g v' (o.add z zs False) (entriesOf path) k c i ∧
      (z :: zs).length = ceilDiv (position + numBytes) g.clusterBytes ∧
      FileAppended g v v' c i z (position + numBytes) position position numBytes buffer
        (z :: zs) := by
  have hempty := hf.empty hc h0
  have hmod : u32 (position + numBytes) = position + numBytes := Nat.mod_eq_of_lt hlt
  rcases hv.grow hg hc.counted (Or.inl ⟨rfl, rfl⟩) with
    ⟨hr', -⟩ | ⟨-, s₁, v₁, z, zs, halloc, hz, hv₁, hgr, hlen⟩
  · exact absurd hr' hr
  · obtain ⟨hc₁, hnew, hfresh⟩ := hc.add (d := False) hg hgr (fun h => h.elim)
    obtain ⟨parents, last, hnames, hl, hk⟩ := hf.path
    obtain ⟨s₂, hedit, hv₂, hc₂, hl₂, hk₂, hslot⟩ := hv₁.link hg hc hc₁ hnew hfresh
      (fun b _ => by rw [hgr.data]) hl hk h0
      ⟨fun h => h.elim, fun h => by rw [hf.notDir] at h; cases h⟩ hnames
    have hsame : SameName (slot (v.data c) i)
        (window (editCluster.apply 0 z (slot (v.data c) i)) 0 32) :=
      sameName_apply z (isLfn_of_info (hf.infoAt hc).info) (fun h => by cases h)
    have hf₂ : FileAt g (v₁.edit g editCluster 0 z c i) (o.add z zs False) (entriesOf path) k c i :=
      ⟨⟨parents, last, hnames, hl₂, hk₂⟩, by rw [hslot, hsame.isDirectory, hf.notDir]⟩
    have hfc : firstCluster (slot ((v₁.edit g editCluster 0 z c i).data c) i) = z := by
      rw [hslot, firstCluster_window]
      apply firstCluster_editCluster
      have := (hgr.inData z (by simp)).2
      have := hg.numClusters_lt
      rw [endOfChain] at this
      omega
    obtain ⟨s₃, hresize, hv₃, hc₃, hf₃, hfc₃, hsize₃⟩ :=
        hv₂.resize hg hc₂ hf₂ rfl hlt hfc hz (fun _ => by
      rw [Owners.add_tail_self, List.length_cons, hlen]
      exact le_mul_ceilDiv _ hg.clusterBytes_pos)
    obtain ⟨s₄, v₄, hloop, hv₄, -, hc₄, hf₄, happ⟩ := hv₃.appendLoop_file position position
      numBytes buffer (w := v) hg hc₃ hf₃ (Or.inl rfl)
      (by rw [Owners.add_dir_self]; exact id) (hgr.chain hg)
      (fun b hb => by rw [Owners.add_tail_self]; exact hb) hfc₃ hsize₃ hgr.appended.zero
      (fun b hb => by simp only [Vol.edit, Vol.setData_of_ne hb, hgr.data])
    refine ⟨s₄, v₄, z, zs, ?_, hv₄, hc₄, hf₄, hlen, happ⟩
    rw [appendFile]
    simp only [hv.clusterBytes_eq, informationOf, hempty, h0, if_true, Nat.sub_zero,
      requiredClusters_eq (Nat.zero_le position) hlt, hmod, halloc, if_neg hz, hedit,
      Option.map_some,
      hresize, hloop]

theorem View.appendFile_new (hv : View g s₀ s v) (hg : g.Valid) (hc : Consistent g v o)
    (hf : FileAt g v o (entriesOf path) k c i) (h0 : firstCluster (slot (v.data c) i) = 0)
    (hlt : position + numBytes < 2 ^ 32) :
    Keeps g s₀ o.sized
      ((appendFile s path (informationOf v name k c i) buffer position numBytes).map
      Prod.fst) := by
  have hmod : u32 (position + numBytes) = position + numBytes := Nat.mod_eq_of_lt hlt
  by_cases hr : Refused g v 0 (ceilDiv (position + numBytes) g.clusterBytes)
  · rw [appendFile]
    simp only [hv.clusterBytes_eq, informationOf, hf.empty hc h0, h0, Nat.sub_zero,
      requiredClusters_eq (Nat.zero_le position) hlt, hmod, hv.refused hg hr]
    exact ⟨s, v, o, rfl, id, hv, hc⟩
  · obtain ⟨s', v', z, zs, hrun, hv', hc', -⟩ := hv.appendFile_first name buffer hg hc hf h0 hlt hr
    exact ⟨s', v', o.add z zs False, by rw [hrun]; rfl, id, hv', hc'⟩

theorem View.appendFile_further {f : ℕ} (name : Name) (buffer : Buffer) (hv : View g s₀ s v)
    (hg : g.Valid) (hc : Consistent g v o) (hf : FileAt g v o (entriesOf path) k c i)
    (hfc : firstCluster (slot (v.data c) i) = f) (h0 : f ≠ 0)
    (hsize : fileSize (slot (v.data c) i) ≤ position) (hlt : position + numBytes < 2 ^ 32)
    (hr : ¬ Refused g v f
      (ceilDiv (position + numBytes - fileSize (slot (v.data c) i)) g.clusterBytes)) :
    ∃ s' v' zs, appendFile s path (informationOf v name k c i) buffer position numBytes =
        some (s', .success) ∧ View g s₀ s' v' ∧ Consistent g v' (o.extend f zs) ∧
      FileAt g v' (o.extend f zs) (entriesOf path) k c i ∧
      zs.length = ceilDiv (position + numBytes - fileSize (slot (v.data c) i)) g.clusterBytes ∧
      FileAppended g v v' c i f (position + numBytes) position
        (position - fileSize (slot (v.data c) i)) numBytes buffer zs := by
  have hmod : u32 (position + numBytes) = position + numBytes := Nat.mod_eq_of_lt hlt
  obtain ⟨hh, -, hd, -⟩ := hf.owner hc hfc h0
  rcases hv.grow hg hc.counted (Or.inr ⟨hc.chains f hh, rfl⟩) with
    ⟨hr', -⟩ | ⟨-, s₁, v₁, z, zs, halloc, hz, hv₁, hgr, hlen⟩
  · exact absurd hr' hr
  · obtain ⟨s₂, hresize, hv₂, hc₂, hf₂, hfc₂, hsize₂⟩ :=
      hv₁.extend_resize hg hc hf rfl hlt hfc h0 hgr hlen
    obtain ⟨s₃, v₃, hloop, hv₃, -, hc₃, hf₃, happ⟩ := hv₂.appendLoop_file position
      (position - fileSize (slot (v.data c) i)) numBytes buffer (w := v) hg hc₂ hf₂ (h := f) hh hd
      (hgr.chain hg)
      (fun b hb => Owners.mem_extend.mpr (Or.inr ⟨rfl, hb⟩)) hfc₂ hsize₂ hgr.appended.zero
      (fun b hb => by simp only [Vol.edit, Vol.setData_of_ne hb, hgr.data])
    refine ⟨s₃, v₃, z :: zs, ?_, hv₃, hc₃, hf₃, hlen, happ⟩
    rw [appendFile]
    simp only [hv.clusterBytes_eq, informationOf, hfc, if_neg h0,
      requiredClusters_eq hsize hlt, hmod, halloc, if_neg hz, hresize, hloop, Option.map_some]

theorem View.appendFile_extend {f : ℕ} (hv : View g s₀ s v) (hg : g.Valid) (hc : Consistent g v o)
    (hf : FileAt g v o (entriesOf path) k c i) (hfc : firstCluster (slot (v.data c) i) = f)
    (h0 : f ≠ 0) (hsize : fileSize (slot (v.data c) i) ≤ position)
    (hlt : position + numBytes < 2 ^ 32) :
    Keeps g s₀ o.sized
      ((appendFile s path (informationOf v name k c i) buffer position numBytes).map
      Prod.fst) := by
  have hmod : u32 (position + numBytes) = position + numBytes := Nat.mod_eq_of_lt hlt
  by_cases hr : Refused g v f
    (ceilDiv (position + numBytes - fileSize (slot (v.data c) i)) g.clusterBytes)
  · rw [appendFile]
    simp only [hv.clusterBytes_eq, informationOf, hfc, requiredClusters_eq hsize hlt, hmod,
      hv.refused hg hr]
    exact ⟨s, v, o, rfl, id, hv, hc⟩
  · obtain ⟨s', v', zs, hrun, hv', hc', -⟩ :=
      hv.appendFile_further name buffer hg hc hf hfc h0 hsize hlt hr
    exact ⟨s', v', o.extend f zs, by rw [hrun]; rfl, id, hv', hc'⟩

/-- A write into the file at the slot `i` of the cluster `c`, with the chain `l`: the entry has the
size, and the bytes from `position` on are replaced. -/
structure FileSpliced (g : Geometry) (v v' : Vol) (c i start size position n : ℕ) (buffer : Buffer)
    (l : List ℕ) : Prop where
  firstCluster : firstCluster (slot (v'.data c) i) = start
  fileSize : fileSize (slot (v'.data c) i) = size
  chain : l.head? = some start ∧ g.IsChain v'.fat l
  content : ∀ y < g.clusterBytes * l.length, chainByte g.clusterBytes v'.data l y =
    splicedByte position n buffer (chainByte g.clusterBytes v.data l) y
  other : ∀ b, b ∉ l → b ≠ c → v'.data b = v.data b

theorem View.overwriteLoop_file {names : List Name} {h size : ℕ} {w : Vol} (position numBytes : ℕ)
    (buffer : Buffer) (hv : View g s₀ s v) (hg : g.Valid) (hc : Consistent g v o)
    (hf : FileAt g v o names k c i) (hh : o.head h) (hd : ¬ o.dir h)
    (hstart : firstCluster (slot (v.data c) i) = h) (hsize : fileSize (slot (v.data c) i) = size)
    (hdata : ∀ b, b ≠ c → v.data b = w.data b) :
    ∃ s' v', Fat32.overwriteLoop g.clusterBytes buffer walkFuel s h
        ⟨h, position, numBytes, 0, fun _ => 0⟩ = some s' ∧ View g s₀ s' v' ∧ Consistent g v' o ∧
      FileAt g v' o names k c i ∧
      FileSpliced g w v' c i h size position numBytes buffer (h :: o.tail h) := by
  have hl := hc.chains h hh
  have hlen := hg.chain_length hl.chain hl.inData
  rw [List.length_cons] at hlen
  obtain ⟨s', D, hloop, hv', hD, hbytes⟩ : ∃ s' D,
    Fat32.overwriteLoop g.clusterBytes buffer walkFuel s h
      ⟨h, position, numBytes, 0, fun _ => 0⟩ = some s' ∧ View g s₀ s' { v with data := D } ∧
      (∀ b, b ∉ h :: o.tail h → D b = v.data b) ∧
      ∀ y < g.clusterBytes * (h :: o.tail h).length, chainByte g.clusterBytes D (h :: o.tail h) y =
        splicedByte position numBytes (fun y => buffer (0 + y))
          (chainByte g.clusterBytes v.data (h :: o.tail h)) y :=
    hv.overwriteLoop hg hl rfl (by omega)
  obtain ⟨hf', hcd⟩ := hf.setFile hc hh hd hD
  have hcl : c ∉ h :: o.tail h := fun hm => hc.not_inDir hh hd hm (hf.infoAt hc).inDir
  refine ⟨s', _, hloop, hv', hc.setFile hh hd hD, hf', ?_, ?_, ⟨rfl, hl⟩, fun y hy => ?_,
    fun b hb hbc => ?_⟩
  · change firstCluster (slot (D c) i) = h
    rw [hcd, hstart]
  · change fileSize (slot (D c) i) = size
    rw [hcd, hsize]
  · refine (hbytes y hy).trans ?_
    simp only [splicedByte, Nat.zero_add]
    split_ifs
    · rfl
    · exact chainByte_congr (fun b hb => hdata b (by rintro rfl; exact hcl hb)) hy
  · change D b = w.data b
    rw [hD b hb, hdata b hbc]

theorem Owners.extend_nil (o : Owners) (h : ℕ) : o.extend h [] = o := by
  rw [Owners.extend, List.append_nil, Function.update_eq_self]

theorem Owners.extend_tail_self {h : ℕ} {zs : List ℕ} : (o.extend h zs).tail h = o.tail h ++ zs :=
  Function.update_self ..

theorem View.overwriteFile_spliced {f : ℕ} (name : Name) (buffer : Buffer) (hv : View g s₀ s v)
    (hg : g.Valid) (hc : Consistent g v o) (hf : FileAt g v o (entriesOf path) k c i)
    (hfc : firstCluster (slot (v.data c) i) = f) (h0 : f ≠ 0)
    (hlt : position + numBytes < 2 ^ 32)
    (hr : fileSize (slot (v.data c) i) < position + numBytes → ¬ Refused g v f
      (ceilDiv (position + numBytes - fileSize (slot (v.data c) i)) g.clusterBytes)) :
    ∃ s' v' zs, overwriteFile s path (informationOf v name k c i) buffer position numBytes =
        some (s', .noEnoughSpace) ∧ View g s₀ s' v' ∧ Consistent g v' (o.extend f zs) ∧
      FileAt g v' (o.extend f zs) (entriesOf path) k c i ∧ (∀ b ∈ zs, v.fat b = 0) ∧
      position + numBytes ≤ fileSize (slot (v.data c) i) + g.clusterBytes * zs.length ∧
      FileSpliced g v v' c i f (max (fileSize (slot (v.data c) i)) (position + numBytes)) position
        numBytes
        buffer (f :: o.tail f ++ zs) := by
  have hmod : u32 (position + numBytes) = position + numBytes := Nat.mod_eq_of_lt hlt
  obtain ⟨hh, -, hd, -⟩ := hf.owner hc hfc h0
  by_cases hgrow : fileSize (slot (v.data c) i) < position + numBytes
  · rcases hv.grow hg hc.counted (Or.inr ⟨hc.chains f hh, rfl⟩) with
      ⟨hr', -⟩ | ⟨-, s₁, v₁, z, zs, halloc, hz, hv₁, hgr, hlen⟩
    · exact absurd hr' (hr hgrow)
    · obtain ⟨s₂, hresize, hv₂, hc₂, hf₂, hfc₂, hsize₂⟩ :=
        hv₁.extend_resize hg hc hf rfl hlt hfc h0 hgr hlen
      obtain ⟨s₃, v₃, hloop, hv₃, hc₃, hf₃, hsp⟩ :=
        hv₂.overwriteLoop_file position numBytes buffer (w := v)
        hg hc₂ hf₂ hh hd hfc₂ hsize₂
        (fun b hb => by simp only [Vol.edit, Vol.setData_of_ne hb, hgr.data])
      have htail : (o.extend f (z :: zs)).tail f = o.tail f ++ z :: zs := Function.update_self ..
      rw [htail] at hsp
      refine ⟨s₃, v₃, z :: zs, ?_, hv₃, hc₃, hf₃, hgr.appended.zero, ?_, ?_⟩
      · rw [overwriteFile]
        simp only [hv.clusterBytes_eq, informationOf, hfc, hmod, if_pos hgrow, halloc, if_neg hz,
          hresize, Option.map_some, hloop]
      · have hceil := le_mul_ceilDiv
          (position + numBytes - fileSize (slot (v.data c) i)) hg.clusterBytes_pos
        rw [← hlen] at hceil
        rw [List.length_cons]
        omega
      · rw [Nat.max_eq_right hgrow.le]
        exact hsp
  · obtain ⟨s₁, v₁, hloop, hv₁, hc₁, hf₁, hsp⟩ :=
      hv.overwriteLoop_file position numBytes buffer (w := v)
      hg hc hf hh hd hfc rfl (fun _ _ => rfl)
    refine ⟨s₁, v₁, [], ?_, hv₁, ?_, ?_, fun b hb => absurd hb List.not_mem_nil, ?_, ?_⟩
    · rw [overwriteFile]
      simp only [hv.clusterBytes_eq, informationOf, hfc, hmod, if_neg hgrow, hloop, Option.map_some]
    · rw [Owners.extend_nil]
      exact hc₁
    · rw [Owners.extend_nil]
      exact hf₁
    · rw [List.length_nil]
      omega
    · rw [Nat.max_eq_left (Nat.not_lt.mp hgrow), List.append_nil]
      exact hsp

theorem View.overwriteFile_keeps (hv : View g s₀ s v) (hg : g.Valid) (hc : Consistent g v o)
    (hf : FileAt g v o (entriesOf path) k c i)
    (hsize : position < fileSize (slot (v.data c) i)) (hlt : position + numBytes < 2 ^ 32) :
    Keeps g s₀ o.sized
      ((overwriteFile s path (informationOf v name k c i) buffer position numBytes).map
      Prod.fst) := by
  obtain ⟨f, hfc⟩ : ∃ f, firstCluster (slot (v.data c) i) = f := ⟨_, rfl⟩
  have h0 : f ≠ 0 := by
    rintro rfl
    rw [hf.empty hc hfc] at hsize
    omega
  have hmod : u32 (position + numBytes) = position + numBytes := Nat.mod_eq_of_lt hlt
  by_cases hr : fileSize (slot (v.data c) i) < position + numBytes ∧ Refused g v f
      (ceilDiv (position + numBytes - fileSize (slot (v.data c) i)) g.clusterBytes)
  · rw [overwriteFile]
    simp only [hv.clusterBytes_eq, informationOf, hfc, hmod, if_pos hr.1, hv.refused hg hr.2]
    exact ⟨s, v, o, rfl, id, hv, hc⟩
  · obtain ⟨s', v', zs, hrun, hv', hc', -⟩ :=
      hv.overwriteFile_spliced name buffer hg hc hf hfc h0 hlt
      (fun h1 h2 => hr ⟨h1, h2⟩)
    exact ⟨s', v', o.extend f zs, by rw [hrun]; rfl, id, hv', hc'⟩

theorem View.writeFile_keeps (hv : View g s₀ s v) (hg : g.Valid) (hc : Consistent g v o)
    (hfile : pathTo (fun e => !isDirectory e) (entriesOf path) s rootDirStart = true)
    (hlt : position + numBytes < 2 ^ 32) :
    Keeps g s₀ o.sized ((fat32WriteFile s path buffer position numBytes).map Prod.fst) := by
  rw [fat32WriteFile]
  by_cases hn : numBytes = 0
  · rw [if_pos hn]
    exact ⟨s, v, o, rfl, id, hv, hc⟩
  · rw [if_neg hn, fat32GetFileInformation]
    obtain ⟨s₁, hv₁, hinfo⟩ := hv.getFileInformation hg hc .nil (entriesOf_valid path) hfile
    rcases hinfo with hnone | ⟨name, k, c, i, hat, hdir, hsome, -⟩
    · rw [hnone]
      exact ⟨s₁, v, o, rfl, id, hv₁, hc⟩
    · rw [hsome]
      rw [List.nil_append] at hat
      have hf : FileAt g v o (entriesOf path) k c i := ⟨hat, by simpa using hdir⟩
      dsimp only
      split_ifs with hsize
      · by_cases h0 : firstCluster (slot (v.data c) i) = 0
        · exact hv₁.appendFile_new hg hc hf h0 hlt
        · exact hv₁.appendFile_extend hg hc hf rfl h0 hsize hlt
      · exact hv₁.overwriteFile_keeps hg hc hf (Nat.not_le.mp hsize) hlt

end WriteFile

theorem View.pathTo_eq {last : Buffer → Bool} {k : ℕ} {names : List Name} (hv : View g s₀ s v)
    (hv' : View g s₀ s' v) (hg : g.Valid) (hc : Consistent g v o) (hk : o.head k ∧ o.dir k)
    (hvalid : ∀ n ∈ names, ValidName n) : pathTo last names s k = pathTo last names s' k := by
  induction names generalizing s s' k with
  | nil => rfl
  | cons name names ih =>
    have hne := (hvalid name (by simp)).ne_nil
    obtain ⟨s₁, hfind, hv₁⟩ := hv.fat32FindEntry hg hc hk.1 hne
    obtain ⟨s₂, hfind', hv₂⟩ := hv'.fat32FindEntry hg hc hk.1 hne
    rw [pathTo, pathTo, hfind, hfind']
    cases hloc : locate g v.data name (k :: o.tail k) with
    | none => rfl
    | some ci =>
      dsimp only [Option.map_some]
      by_cases hlast : names = []
      · rw [if_pos hlast, if_pos hlast]
      · rw [if_neg hlast, if_neg hlast]
        cases hdir : isDirectory (slot (v.data ci.1) ci.2) with
        | false => rfl
        | true =>
          rcases hc.entries ci.1 ci.2 (hc.infoAt hk.1 hk.2 hloc) with ⟨h0, -⟩ | ⟨hh, -, hd, -⟩
          · obtain ⟨n, rest, rfl⟩ := List.exists_cons_of_ne_nil hlast
            rw [h0, pathTo, pathTo, fat32FindEntry_zero, fat32FindEntry_zero]
          · rw [ih hv₁ hv₂ ⟨hh, hd.mpr hdir⟩ (fun n hn => hvalid n (by simp [hn]))]

section EditFile

variable {edit : FileEdit} {attributes : Byte} {x : ℕ}

theorem View.editFile {last : Buffer → Bool} {k : ℕ} {parents names : List Name}
    (hv : View g s₀ s v) (hg : g.Valid) (hc : Consistent g v o)
    (hl : Leads g v o rootDirStart parents k) (hpath : pathTo last names s k = true)
    (hvalid : ∀ n ∈ names, ValidName n) :
    (∃ s', editFile edit attributes x names s k = some (s', false) ∧ View g s₀ s' v) ∨
    ∃ s' j c i, editFile edit attributes x names s k = some (s', true) ∧ InfoAt g v o c i ∧
      PathAt g v o (parents ++ names) j c i ∧ last (slot (v.data c) i) = true ∧
      View g s₀ s' (v.edit g edit attributes x c i) := by
  induction names generalizing parents s k with
  | nil => exact Or.inl ⟨s, rfl, hv⟩
  | cons name names ih =>
    obtain ⟨hkh, hkd⟩ := hl.head hc.root hc.rootDir
    obtain ⟨s₁, hfind, hv₁⟩ := hv.fat32FindEntry hg hc hkh (hvalid name (by simp)).ne_nil
    obtain ⟨s₂, hread, hv₂⟩ := hc.search name (fun c b x => (c, x, b)) hg hv hkh
    rw [pathTo, hfind] at hpath
    rw [Fat32.editFile, hread]
    cases hloc : locate g v.data name (k :: o.tail k) with
    | none => exact Or.inl ⟨s₂, rfl, hv₂⟩
    | some ci =>
      obtain ⟨c, i⟩ := ci
      have hinfo := hc.infoAt hkh hkd hloc
      rw [hloc] at hpath
      dsimp only [Option.map_some] at hpath ⊢
      by_cases hlast : names = []
      · rw [if_pos hlast] at hpath ⊢
        subst hlast
        exact Or.inr ⟨_, k, c, i, rfl, hinfo, ⟨parents, name, rfl, hl, hloc⟩, hpath,
          hv₂.writeCluster hg (hc.inData hinfo.inDir) _⟩
      · rw [if_neg hlast, Bool.and_eq_true] at hpath
        rw [if_neg hlast]
        rcases hc.entries c i hinfo with ⟨h0, -⟩ | ⟨hh, -, hd, -⟩
        · rw [if_pos h0]
          exact Or.inl ⟨s₂, rfl, hv₂⟩
        · rw [if_neg (hc.head_ne_zero hh)]
          have hd' := hd.mpr hpath.1
          have hvalid' : ∀ n ∈ names, ValidName n := fun n hn => hvalid n (by simp [hn])
          have hrest := hpath.2
          rw [hv₁.pathTo_eq hv₂ hg hc ⟨hh, hd'⟩ hvalid'] at hrest
          have hnext := ih hv₂ (hl.snoc hloc hh hd') hrest hvalid'
          rw [List.append_assoc, List.singleton_append] at hnext
          exact hnext

/-- The edit leaves the first cluster of the entry, its being a directory, and the size of a file
without clusters. -/
def FileEdit.harmless (edit : FileEdit) (attributes : Byte) (x : ℕ) (e : Buffer) : Bool :=
  decide (edit.AttributesOk attributes e) && !edit.cluster &&
    (!edit.fileSize || isDirectory e || firstCluster e != 0 || x % 2 ^ 32 == 0)

theorem firstCluster_setLE {e : Buffer} {p n : ℕ} (y : ℕ) (h : p + n ≤ 20 ∨ 28 ≤ p) :
    firstCluster (setLE e p n y) = firstCluster e := by
  rw [firstCluster, getLE_setLE_of_disjoint _ (by omega), getLE_setLE_of_disjoint _ (by omega)]
  rfl

theorem firstCluster_apply (h : edit.cluster = false) (e : Buffer) :
    firstCluster (edit.apply attributes x e) = firstCluster e := by
  simp only [FileEdit.apply, h, Bool.false_eq_true, if_false]
  split_ifs
  · rw [firstCluster_setLE _ (by decide), firstCluster_setLE _ (by decide)]
  · rw [firstCluster_setLE _ (by decide)]
  · rw [firstCluster_setLE _ (by decide)]
  · rfl

theorem fileSize_apply (h : edit.cluster = false) (e : Buffer) :
    fileSize (edit.apply attributes x e) = if edit.fileSize then x % 2 ^ 32 else fileSize e := by
  simp only [FileEdit.apply, h, Bool.false_eq_true, if_false]
  by_cases hs : edit.fileSize = true
  · rw [if_pos hs, if_pos hs, fileSize]
    exact (getLE_setLE_self _ 28 4 x).trans (by omega)
  · rw [if_neg hs, if_neg hs]
    split_ifs
    · rw [fileSize, getLE_setLE_of_disjoint _ (by decide)]
      rfl
    · rfl

theorem Consistent.harmless_edit {c i : ℕ} (hc : Consistent g v o) (hs : ¬ o.sized)
    (hi : InfoAt g v o c i) (hedit : edit.harmless attributes x (slot (v.data c) i) = true) :
    Consistent g (v.edit g edit attributes x c i) o := by
  rw [FileEdit.harmless, Bool.and_eq_true, Bool.and_eq_true, decide_eq_true_iff] at hedit
  obtain ⟨⟨hattr, hcluster⟩, hsize⟩ := hedit
  have hcluster' : edit.cluster = false := by simpa using hcluster
  have hfc : firstCluster (edit.apply attributes x (slot (v.data c) i)) =
      firstCluster (slot (v.data c) i) := firstCluster_apply hcluster' _
  have hsame := sameName_apply x (isLfn_of_info hi.info) hattr
  have hdir : isDirectory (edit.apply attributes x (slot (v.data c) i)) =
      isDirectory (slot (v.data c) i) := by
    rw [← isDirectory_window, hsame.isDirectory]
  apply hc.edit hi hattr _ (Or.inl hfc)
  rw [EntryOk, hfc, hdir, fileSize_apply hcluster']
  rcases hc.entries c i hi with ⟨h0, hempty⟩ | ⟨h1, h2, h3, -⟩
  · refine Or.inl ⟨h0, fun hnd => ?_⟩
    split_ifs with hset
    · simpa [hset, hnd, h0] using hsize
    · exact hempty hnd
  · exact Or.inr ⟨h1, h2, h3, fun h => absurd h hs⟩

theorem View.editFile_keeps {path : Name} (hv : View g s₀ s v) (hg : g.Valid)
    (hc : Consistent g v o) (hs : ¬ o.sized)
    (hpath : pathTo (edit.harmless attributes x) (entriesOf path) s rootDirStart = true) :
    Keeps g s₀ False ((fat32EditFile s path edit attributes x).map Prod.fst) := by
  rw [fat32EditFile]
  split_ifs
  · exact ⟨s, v, o, rfl, False.elim, hv, hc⟩
  · rcases hv.editFile hg hc .nil hpath (entriesOf_valid path) with
      ⟨s', hrun, hv'⟩ | ⟨s', j, c, i, hrun, hi, -, hlast, hv'⟩
    · exact ⟨s', v, o, by rw [hrun]; rfl, False.elim, hv', hc⟩
    · exact ⟨s', _, o, by rw [hrun]; rfl, False.elim, hv', hc.harmless_edit hs hi hlast⟩

end EditFile

end DevOs.Fat32
