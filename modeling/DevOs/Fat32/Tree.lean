import DevOs.Fat32.Slots
import DevOs.Fat32.View

/-!
# Consistent volumes

Every chain of a consistent volume has an owner: the root directory, or the entry whose first
cluster is its head. `Owners` names the heads, their chains, and which of them are directories; a
chain that no entry points to may be there as well. The chains are disjoint, the clusters of the
directories have complete groups of slots, and each entry of a directory has no chain or is the only
one with its chain, which is long enough for the size of a file. The last part is under the
proposition `sized`, since `Fat32EditFile` can set any size.
-/

namespace DevOs.Fat32

open Bytes Chains

structure Owners where
  head : ℕ → Prop
  tail : ℕ → List ℕ
  dir : ℕ → Prop
  sized : Prop

def Geometry.slots (g : Geometry) : ℕ := 16 * g.clusterSize

def Owners.InDir (o : Owners) (c : ℕ) : Prop := ∃ h, o.head h ∧ o.dir h ∧ c ∈ h :: o.tail h

def EntryOk (g : Geometry) (o : Owners) (e : Buffer) : Prop :=
  (firstCluster e = 0 ∧ (isDirectory e = false → fileSize e = 0)) ∨
  (o.head (firstCluster e) ∧ firstCluster e ≠ rootDirStart ∧
    (o.dir (firstCluster e) ↔ isDirectory e = true) ∧
    (o.sized → isDirectory e = false →
      fileSize e ≤ g.clusterBytes * (firstCluster e :: o.tail (firstCluster e)).length))

/-- The slot `i` of the directory cluster `c` is an entry. -/
structure InfoAt (g : Geometry) (v : Vol) (o : Owners) (c i : ℕ) : Prop where
  inDir : o.InDir c
  lt : i < g.slots
  info : slotKind (slot (v.data c) i) = .info

structure Consistent (g : Geometry) (v : Vol) (o : Owners) : Prop where
  counted : Counted g v
  root : o.head rootDirStart
  rootDir : o.dir rootDirStart
  chains : ∀ h, o.head h → g.IsChain v.fat (h :: o.tail h)
  disjoint : ∀ h k c, o.head h → o.head k → c ∈ h :: o.tail h → c ∈ k :: o.tail k → h = k
  slots : ∀ c, o.InDir c → SlotsOk g.slots (v.data c)
  entries : ∀ c i, InfoAt g v o c i → EntryOk g o (slot (v.data c) i)
  unique : ∀ c i d j, InfoAt g v o c i → InfoAt g v o d j →
    firstCluster (slot (v.data c) i) ≠ 0 →
    firstCluster (slot (v.data c) i) = firstCluster (slot (v.data d) j) → c = d ∧ i = j

variable {g : Geometry} {v v' : Vol} {o : Owners}

theorem Counted.congr (h : Counted g v) (hfat : v'.fat = v.fat) (hfree : v'.free = v.free) :
    Counted g v' := by
  refine ⟨?_, ?_, ?_, ?_⟩
  · rw [hfat]
    exact h.first
  · rw [hfat]
    exact h.second
  · rw [hfat, hfree]
    exact h.count
  · rw [hfat]
    exact h.packed

theorem Consistent.inData (h : Consistent g v o) {c : ℕ} (hc : o.InDir c) : g.InData c := by
  obtain ⟨k, hk, -, hm⟩ := hc
  exact (h.chains k hk).inData c hm

theorem Consistent.head_ne_zero (h : Consistent g v o) {k : ℕ} (hk : o.head k) : k ≠ 0 := by
  have := ((h.chains k hk).inData k (by simp)).1
  omega

theorem Consistent.congr (h : Consistent g v o) (hfat : v'.fat = v.fat) (hfree : v'.free = v.free)
    (hdata : ∀ c, o.InDir c → v'.data c = v.data c) : Consistent g v' o := by
  have hinfo (c i : ℕ) (hi : InfoAt g v' o c i) : InfoAt g v o c i := by
    refine ⟨hi.inDir, hi.lt, ?_⟩
    rw [← hdata c hi.inDir]
    exact hi.info
  refine ⟨h.counted.congr hfat hfree, h.root, h.rootDir, ?_, h.disjoint, ?_, ?_, ?_⟩
  · intro k hk
    rw [hfat]
    exact h.chains k hk
  · intro c hc
    rw [hdata c hc]
    exact h.slots c hc
  · intro c i hi
    rw [hdata c hi.inDir]
    exact h.entries c i (hinfo c i hi)
  · intro c i d j hi hj
    rw [hdata c hi.inDir, hdata d hj.inDir]
    exact h.unique c i d j (hinfo c i hi) (hinfo d j hj)

def AllFree (g : Geometry) (b : Buffer) : Prop := ∀ i < g.slots, slotKind (slot b i) = .free

theorem InfoAt.not_allFree {c i : ℕ} (h : InfoAt g v o c i) : ¬ AllFree g (v.data c) := by
  intro hf
  have := h.info.symm.trans (hf i h.lt)
  cases this

theorem Consistent.not_head_mem {l zs : List ℕ} (h : Consistent g v o) (hgr : Grown g v v' l zs)
    {k z : ℕ} (hk : o.head k) (hz : z ∈ zs) : z ∉ k :: o.tail k :=
  hgr.not_mem (h.chains k hk) z hz

/-- The owners after the chain of `h` has grown. -/
def Owners.extend (o : Owners) (h : ℕ) (zs : List ℕ) : Owners :=
  { o with tail := Function.update o.tail h (o.tail h ++ zs) }

def Owners.add (o : Owners) (z : ℕ) (zs : List ℕ) (d : Prop) : Owners where
  head := fun h => h = z ∨ o.head h
  tail := Function.update o.tail z zs
  dir := Function.update o.dir z d
  sized := o.sized

theorem Owners.mem_extend {h k c : ℕ} {zs : List ℕ} :
    c ∈ k :: (o.extend h zs).tail k ↔ c ∈ k :: o.tail k ∨ (k = h ∧ c ∈ zs) := by
  rw [Owners.extend]
  by_cases hk : k = h
  · subst hk
    simp only [Function.update_self, List.mem_cons, List.mem_append, true_and]
    exact or_assoc.symm
  · simp only [Function.update_of_ne hk, hk, false_and, or_false]

theorem EntryOk.extend {e : Buffer} {h : ℕ} {zs : List ℕ} (he : EntryOk g o e) :
    EntryOk g (o.extend h zs) e := by
  rcases he with he | ⟨h1, h2, h3, h4⟩
  · exact Or.inl he
  · refine Or.inr ⟨h1, h2, h3, fun hs hd => Nat.le_trans (h4 hs hd) (Nat.mul_le_mul_left _ ?_)⟩
    rw [Owners.extend]
    by_cases hk : firstCluster e = h
    · rw [hk]
      simp only [Function.update_self, List.length_cons, List.length_append]
      omega
    · simp only [Function.update_of_ne hk, Nat.le_refl]

theorem Consistent.extend {h : ℕ} {zs : List ℕ} (hc : Consistent g v o) (hg : g.Valid)
    (hh : o.head h) (hgr : Grown g v v' (h :: o.tail h) zs)
    (hfree : o.dir h → ∀ z ∈ zs, AllFree g (v.data z)) : Consistent g v' (o.extend h zs) := by
  have hdir (c : ℕ) (hd : (o.extend h zs).InDir c) : o.InDir c ∨ AllFree g (v'.data c) := by
    obtain ⟨k, hk, hkd, hm⟩ := hd
    rcases Owners.mem_extend.mp hm with hold | ⟨rfl, hnew⟩
    · exact Or.inl ⟨k, hk, hkd, hold⟩
    · rw [hgr.data]
      exact Or.inr (hfree hkd c hnew)
  have hinfo (c i : ℕ) (hi : InfoAt g v' (o.extend h zs) c i) : InfoAt g v o c i := by
    rcases hdir c hi.inDir with hd | hf
    · refine ⟨hd, hi.lt, ?_⟩
      rw [← hgr.data]
      exact hi.info
    · exact absurd hf hi.not_allFree
  refine ⟨hgr.counted, hc.root, hc.rootDir, ?_, ?_, ?_, ?_, ?_⟩
  · intro k hk
    by_cases hkh : k = h
    · subst hkh
      rw [Owners.extend]
      simp only [Function.update_self]
      exact hgr.chain_append hg (hc.chains k hk)
    · rw [Owners.extend]
      simp only [Function.update_of_ne hkh]
      apply hgr.chain_other (hc.chains k hk)
      exact fun b hb hb' => hkh (hc.disjoint k h b hk hh hb hb')
  · intro k j c hk hj hck hcj
    rcases Owners.mem_extend.mp hck with hk₁ | ⟨hkh, hk₁⟩
    · rcases Owners.mem_extend.mp hcj with hj₁ | ⟨-, hj₁⟩
      · exact hc.disjoint k j c hk hj hk₁ hj₁
      · exact absurd hk₁ (hc.not_head_mem hgr hk hj₁)
    · rcases Owners.mem_extend.mp hcj with hj₁ | ⟨hjh, -⟩
      · exact absurd hj₁ (hc.not_head_mem hgr hj hk₁)
      · rw [hkh, hjh]
  · intro c hd
    rcases hdir c hd with hd | hf
    · rw [hgr.data]
      exact hc.slots c hd
    · exact slotsOk_of_free hf
  · intro c i hi
    rw [hgr.data]
    exact (hc.entries c i (hinfo c i hi)).extend
  · intro c i d j hi hj
    rw [hgr.data]
    exact hc.unique c i d j (hinfo c i hi) (hinfo d j hj)

theorem Owners.add_tail_of_ne {z h : ℕ} {zs : List ℕ} {d : Prop} (hne : h ≠ z) :
    (o.add z zs d).tail h = o.tail h := Function.update_of_ne hne ..

theorem Owners.add_dir_of_ne {z h : ℕ} {zs : List ℕ} {d : Prop} (hne : h ≠ z) :
    (o.add z zs d).dir h = o.dir h := Function.update_of_ne hne ..

theorem Owners.add_tail_self {z : ℕ} {zs : List ℕ} {d : Prop} : (o.add z zs d).tail z = zs :=
  Function.update_self ..

theorem Owners.add_dir_self {z : ℕ} {zs : List ℕ} {d : Prop} : (o.add z zs d).dir z = d :=
  Function.update_self ..

theorem Consistent.add {z : ℕ} {zs : List ℕ} {d : Prop} (hc : Consistent g v o) (hg : g.Valid)
    (hgr : Grown g v v' [] (z :: zs)) (hfree : d → ∀ c ∈ z :: zs, AllFree g (v.data c)) :
    Consistent g v' (o.add z zs d) ∧ ¬ o.head z ∧
      ∀ c i, InfoAt g v' (o.add z zs d) c i → firstCluster (slot (v'.data c) i) ≠ z := by
  have hnot (k c : ℕ) (hk : o.head k) (hz : c ∈ z :: zs) : c ∉ k :: o.tail k :=
    hc.not_head_mem hgr hk hz
  have hz : ¬ o.head z := fun hk => hnot z z hk (by simp) (by simp)
  have hne (k : ℕ) (hk : o.head k) : k ≠ z := by
    rintro rfl
    exact hz hk
  have hdir (c : ℕ) (hd : (o.add z zs d).InDir c) : o.InDir c ∨ AllFree g (v'.data c) := by
    obtain ⟨k, hk, hkd, hm⟩ := hd
    by_cases hkz : k = z
    · subst hkz
      rw [Owners.add_dir_self] at hkd
      rw [Owners.add_tail_self] at hm
      rw [hgr.data]
      exact Or.inr (hfree hkd c hm)
    · rw [Owners.add_dir_of_ne hkz] at hkd
      rw [Owners.add_tail_of_ne hkz] at hm
      exact Or.inl ⟨k, hk.resolve_left hkz, hkd, hm⟩
  have hinfo (c i : ℕ) (hi : InfoAt g v' (o.add z zs d) c i) : InfoAt g v o c i := by
    rcases hdir c hi.inDir with hd | hf
    · refine ⟨hd, hi.lt, ?_⟩
      rw [← hgr.data]
      exact hi.info
    · exact absurd hf hi.not_allFree
  refine ⟨⟨hgr.counted, Or.inr hc.root, ?_, ?_, ?_, ?_, ?_, ?_⟩, hz, ?_⟩
  · rw [Owners.add_dir_of_ne (hne _ hc.root)]
    exact hc.rootDir
  · intro k hk
    by_cases hkz : k = z
    · subst hkz
      rw [Owners.add_tail_self]
      exact hgr.chain hg
    · rw [Owners.add_tail_of_ne hkz]
      exact hgr.chain_other (hc.chains k (hk.resolve_left hkz)) (by simp)
  · intro k j c hk hj hck hcj
    by_cases hkz : k = z
    · by_cases hjz : j = z
      · rw [hkz, hjz]
      · rw [Owners.add_tail_of_ne hjz] at hcj
        rw [hkz, Owners.add_tail_self] at hck
        exact absurd hcj (hnot j c (hj.resolve_left hjz) hck)
    · rw [Owners.add_tail_of_ne hkz] at hck
      by_cases hjz : j = z
      · rw [hjz, Owners.add_tail_self] at hcj
        exact absurd hck (hnot k c (hk.resolve_left hkz) hcj)
      · rw [Owners.add_tail_of_ne hjz] at hcj
        exact hc.disjoint k j c (hk.resolve_left hkz) (hj.resolve_left hjz) hck hcj
  · intro c hd
    rcases hdir c hd with hd | hf
    · rw [hgr.data]
      exact hc.slots c hd
    · exact slotsOk_of_free hf
  · intro c i hi
    rw [hgr.data]
    rcases hc.entries c i (hinfo c i hi) with he | ⟨h1, h2, h3, h4⟩
    · exact Or.inl he
    · have hfz := hne _ h1
      refine Or.inr ⟨Or.inr h1, h2, ?_, ?_⟩
      · rw [Owners.add_dir_of_ne hfz]
        exact h3
      · rw [Owners.add_tail_of_ne hfz]
        exact h4
  · intro c i d j hi hj
    rw [hgr.data]
    exact hc.unique c i d j (hinfo c i hi) (hinfo d j hj)
  · intro c i hi
    rw [hgr.data]
    have hz2 := (hgr.inData z (by simp)).1
    rcases hc.entries c i (hinfo c i hi) with ⟨h0, -⟩ | ⟨hk, -⟩
    · omega
    · exact hne _ hk

def Vol.setData (v : Vol) (c : ℕ) (b : Buffer) : Vol :=
  { v with data := Function.update v.data c b }

@[simp] theorem Vol.setData_self (v : Vol) (c : ℕ) (b : Buffer) : (v.setData c b).data c = b :=
  Function.update_self ..

@[simp] theorem Vol.setData_of_ne {c d : ℕ} {b : Buffer} (h : d ≠ c) :
    (v.setData c b).data d = v.data d := Function.update_of_ne h ..

/-- An entry in a changed directory cluster has no chain, or that of the entry it was, or one that
no other entry has. -/
def LinkOk (g : Geometry) (v : Vol) (o : Owners) (c i : ℕ) (b : Buffer) : Prop :=
  firstCluster (slot b i) = 0 ∨
  (InfoAt g v o c i ∧ firstCluster (slot (v.data c) i) = firstCluster (slot b i)) ∨
  ((∀ d j, InfoAt g v o d j → firstCluster (slot (v.data d) j) ≠ firstCluster (slot b i)) ∧
    ∀ j < g.slots, slotKind (slot b j) = .info →
      firstCluster (slot b j) = firstCluster (slot b i) → j = i)

theorem Consistent.setData {c : ℕ} {b : Buffer} (hc : Consistent g v o) (hslots : SlotsOk g.slots b)
    (hentries : ∀ i < g.slots, slotKind (slot b i) = .info →
      EntryOk g o (slot b i) ∧ LinkOk g v o c i b) :
    Consistent g (v.setData c b) o := by
  have hother (d j : ℕ) (hdc : d ≠ c) (hj : InfoAt g (v.setData c b) o d j) : InfoAt g v o d j :=
    ⟨hj.inDir, hj.lt, by rw [← Vol.setData_of_ne hdc]; exact hj.info⟩
  have hself (i : ℕ) (hi : InfoAt g (v.setData c b) o c i) : slotKind (slot b i) = .info := by
    have := hi.info
    rwa [Vol.setData_self] at this
  have hcross (i d j : ℕ) (hdc : d ≠ c) (hi : InfoAt g (v.setData c b) o c i)
      (hj : InfoAt g (v.setData c b) o d j) (h0 : firstCluster (slot b i) ≠ 0) :
      firstCluster (slot b i) ≠ firstCluster (slot (v.data d) j) := by
    intro he
    rcases (hentries i hi.lt (hself i hi)).2 with hl | ⟨hold, hsame⟩ | ⟨hnew, -⟩
    · exact h0 hl
    · exact hdc (hc.unique c i d j hold (hother d j hdc hj) (by
        rwa [hsame]) (hsame.trans he)).1.symm
    · exact hnew d j (hother d j hdc hj) he.symm
  refine ⟨hc.counted.congr rfl rfl, hc.root, hc.rootDir, hc.chains, hc.disjoint, ?_, ?_, ?_⟩
  · intro d hd
    by_cases hdc : d = c
    · rw [hdc, Vol.setData_self]
      exact hslots
    · rw [Vol.setData_of_ne hdc]
      exact hc.slots d hd
  · intro d i hi
    by_cases hdc : d = c
    · subst hdc
      rw [Vol.setData_self]
      exact (hentries i hi.lt (hself i hi)).1
    · rw [Vol.setData_of_ne hdc]
      exact hc.entries d i (hother d i hdc hi)
  · intro d i k j hi hj
    by_cases hdc : d = c
    · subst hdc
      by_cases hkd : k = d
      · subst hkd
        rw [Vol.setData_self]
        intro h0 he
        refine ⟨rfl, ?_⟩
        rcases (hentries i hi.lt (hself i hi)).2 with hl | ⟨hold, hsame⟩ | ⟨-, huniq⟩
        · exact absurd hl h0
        · rcases (hentries j hj.lt (hself j hj)).2 with hl | ⟨hold', hsame'⟩ | ⟨-, huniq⟩
          · exact absurd (he.trans hl) h0
          · exact (hc.unique k i k j hold hold' (by rwa [hsame])
              (hsame.trans (he.trans hsame'.symm))).2
          · exact huniq i hi.lt (hself i hi) he
        · exact (huniq j hj.lt (hself j hj) he.symm).symm
      · rw [Vol.setData_self, Vol.setData_of_ne hkd]
        intro h0 he
        exact absurd he (hcross i k j hkd hi hj h0)
    · by_cases hkc : k = c
      · subst hkc
        rw [Vol.setData_self, Vol.setData_of_ne hdc]
        intro h0 he
        exact absurd he.symm (hcross j d i hdc hj hi (he ▸ h0))
      · rw [Vol.setData_of_ne hdc, Vol.setData_of_ne hkc]
        exact hc.unique d i k j (hother d i hdc hi) (hother k j hkc hj)

end DevOs.Fat32
