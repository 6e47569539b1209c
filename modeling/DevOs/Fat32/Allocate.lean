import DevOs.Fat32.Volume
import DevOs.Lib.Chains
import Mathlib.Data.List.Perm.Subperm

/-!
# Allocating a cluster chain

`Fat32AllocateClusterChain` goes through the FAT and links the zero entries it finds. At every
moment the FAT it is building is a table `T`: the FAT it started from, with the zero entries found
so far linked in their order and the last one still zero. The general purpose sector holds the
current sector of `T`, the disk holds all other sectors, and when the last entry found lies in an
earlier sector, the secondary purpose sector is the copy of that sector.
-/

namespace DevOs.Fat32

open Bytes Chains

/-- `T` is `F` with the zero entries `zs` found below `e` linked in their order. -/
structure Linked (F : ℕ → ℕ) (e : ℕ) (zs : List ℕ) (T : ℕ → ℕ) : Prop where
  sorted : zs.Pairwise (· < ·)
  lt : ∀ z ∈ zs, z < e
  zero : ∀ z ∈ zs, F z = 0
  all : ∀ c < e, F c = 0 → c ∈ zs
  other : ∀ c, c ∉ zs → T c = F c
  links : Path T zs
  last : ∀ z, zs.getLast? = some z → T z = 0

variable {F T : ℕ → ℕ} {e : ℕ} {zs : List ℕ}

theorem linked_nil (F : ℕ → ℕ) : Linked F 0 [] F :=
  ⟨List.Pairwise.nil, by simp, by simp, by simp, fun _ _ => rfl, trivial, by simp⟩

theorem Linked.at (h : Linked F e zs T) : T e = F e :=
  h.other e (fun he => Nat.lt_irrefl e (h.lt e he))

theorem Linked.skip (h : Linked F e zs T) (he : F e ≠ 0) : Linked F (e + 1) zs T := by
  refine ⟨h.sorted, fun z hz => Nat.lt_succ_of_lt (h.lt z hz), h.zero, ?_, h.other, h.links, h.last⟩
  intro c hc hz
  by_cases hce : c = e
  · rw [hce] at hz
    exact absurd hz he
  · exact h.all c (by omega) hz

theorem Linked.first (h : Linked F e [] T) (he : F e = 0) : Linked F (e + 1) [e] T := by
  refine ⟨List.pairwise_singleton _ _, by simp, by simpa using he, ?_, ?_, trivial, ?_⟩
  · intro c hc hz
    by_cases hce : c = e
    · simp [hce]
    · exact absurd (h.all c (by omega) hz) List.not_mem_nil
  · intro c _
    exact h.other c List.not_mem_nil
  · intro z hz
    rw [List.getLast?_singleton] at hz
    cases hz
    rw [h.at, he]

theorem Linked.snoc {z : ℕ} (h : Linked F e zs T) (hz : zs.getLast? = some z) (he : F e = 0) :
    Linked F (e + 1) (zs ++ [e]) (Function.update T z e) := by
  have hmem : z ∈ zs := List.mem_of_getLast? hz
  have hze : z ≠ e := Nat.ne_of_lt (h.lt z hmem)
  refine ⟨?_, ?_, ?_, ?_, ?_, ?_, ?_⟩
  · rw [List.pairwise_append]
    refine ⟨h.sorted, List.pairwise_singleton _ _, ?_⟩
    intro a ha b hb
    rw [List.mem_singleton.mp hb]
    exact h.lt a ha
  · intro a ha
    rcases List.mem_append.mp ha with ha | ha
    · exact Nat.lt_succ_of_lt (h.lt a ha)
    · rw [List.mem_singleton.mp ha]
      exact Nat.lt_succ_self e
  · intro a ha
    rcases List.mem_append.mp ha with ha | ha
    · exact h.zero a ha
    · rw [List.mem_singleton.mp ha]
      exact he
  · intro c hc hz'
    by_cases hce : c = e
    · simp [hce]
    · exact List.mem_append_left _ (h.all c (by omega) hz')
  · intro c hc
    rw [List.mem_append, not_or] at hc
    have hcz : c ≠ z := by
      rintro rfl
      exact hc.1 hmem
    rw [Function.update_of_ne hcz]
    exact h.other c hc.1
  · obtain ⟨ys, rfl⟩ := List.getLast?_eq_some_iff.mp hz
    apply h.links.snoc
    · intro a ha
      have haz : a < z := (List.pairwise_append.mp h.sorted).2.2 a ha z (by simp)
      exact Function.update_of_ne (Nat.ne_of_lt haz) _ _
    · exact Function.update_self ..
  · intro a ha
    rw [List.getLast?_concat] at ha
    cases ha
    rw [Function.update_of_ne (Ne.symm hze), h.at, he]

def LastFound (x : ℕ) (T : ℕ → ℕ) (a : Allocation) : Option ℕ → Prop
  | none => a.lastCluster = 0 ∧ a.pendingAllocation = 0 ∧ a.pendingWrite = false
  | some z => a.lastCluster = z ∧ a.lastClusterIndexInSector = z % 128 ∧ a.lastFatSector = z / 128 ∧
      (z / 128 = x → a.pendingAllocation = 1 ∧ a.pendingWrite = true) ∧
      (z / 128 ≠ x → a.pendingAllocation = 2 ∧ a.pendingWrite = false ∧
        ∀ j < 128, getLE a.secondaryPurpose (4 * j) 4 = T (128 * (z / 128) + j))

/-- The scan of the sector `x` before its entry `i`. -/
structure ScanInv (s₀ : State) (F : ℕ → ℕ) (x i : ℕ) (zs : List ℕ) (T : ℕ → ℕ) (s : State)
    (a : Allocation) : Prop where
  linked : Linked F (128 * x + i) zs T
  only : FatOnly s₀ s
  others : ∀ c < s₀.partition.fatEntries, c / 128 ≠ x → s.fat c = T c
  here : a.pendingWrite = false → ∀ c < s₀.partition.fatEntries, c / 128 = x → s.fat c = T c
  gp : ∀ j < 128, getLE a.generalPurpose (4 * j) 4 = T (128 * x + j)
  count : a.allocatedClusters = zs.length
  first : a.chainStart = zs.head?.getD 0
  last : LastFound x T a zs.getLast?

/-- The whole chain is built: the last entry ends it, and the general purpose sector holds the
sector of that entry. -/
structure Built (s₀ : State) (F : ℕ → ℕ) (numClusters : ℕ) (zs : List ℕ) (T : ℕ → ℕ) (s : State)
    (a : Allocation) : Prop where
  linked : ∃ e, Linked F e zs T
  length : zs.length = numClusters
  entries : ∀ z ∈ zs, z < s₀.partition.fatEntries
  only : FatOnly s₀ s
  fat : ∀ z, zs.getLast? = some z → ∀ c < s₀.partition.fatEntries,
    s.fat c = if c = z then endOfChain else T c
  first : a.chainStart = zs.head?.getD 0
  gp : a.lastFatSector < s₀.partition.boot.sectorsPerFat ∧
    ∀ j < 128, getLE a.generalPurpose (4 * j) 4 = s.fat (128 * a.lastFatSector + j)

variable {s₀ s : State} {a : Allocation} {x i numClusters : ℕ}

theorem getLE_setEntry (b : Buffer) {j k v : ℕ} (hv : v < 2 ^ 32) :
    getLE (setLE b (4 * k) 4 v) (4 * j) 4 = if j = k then v else getLE b (4 * j) 4 := by
  split_ifs with h
  · rw [h, getLE_setLE_self]
    exact Nat.mod_eq_of_lt hv
  · exact getLE_setLE_of_disjoint v (by omega)

theorem ScanInv.link (h : ScanInv s₀ F x i zs T s a) (hl : Layout s₀.partition)
    (hx : x < s₀.partition.boot.sectorsPerFat) (hi : i < 128) (hF0 : F 0 ≠ 0)
    (hz : F (128 * x + i) = 0) :
    ∃ s' a' T', linkEntry x i s a = (s', a') ∧ Linked F (128 * x + i + 1) (zs ++ [128 * x + i]) T' ∧
      FatOnly s₀ s' ∧ (∀ c < s₀.partition.fatEntries, c / 128 ≠ x → s'.fat c = T' c) ∧
      (∀ j < 128, getLE a'.generalPurpose (4 * j) 4 = T' (128 * x + j)) ∧
      a'.allocatedClusters = zs.length ∧ a'.chainStart = (zs ++ [128 * x + i]).head?.getD 0 := by
  have he : 128 * x + i < 2 ^ 32 := by
    have := hl.entries
    omega
  have hu : u32 (128 * x + i) = 128 * x + i := Nat.mod_eq_of_lt (by omega)
  cases hlast : zs.getLast? with
  | none =>
    have hnil : zs = [] := List.getLast?_eq_none_iff.mp hlast
    have hl' := h.last
    rw [hlast] at hl'
    subst hnil
    refine ⟨s, { a with chainStart := 128 * x + i }, T, ?_, h.linked.first hz, h.only,
      h.others, h.gp, h.count, rfl⟩
    simp only [linkEntry, hl'.1, hu, ne_eq, not_true_eq_false, if_false]
  | some z =>
    have hl' := h.last
    rw [hlast] at hl'
    obtain ⟨hlc, hidx, hsec, hhere, hearlier⟩ := hl'
    have hzmem : z ∈ zs := List.mem_of_getLast? hlast
    have hzlt : z < 128 * x + i := h.linked.lt z hzmem
    have hz0 : z ≠ 0 := by
      rintro rfl
      exact hF0 (h.linked.zero 0 hzmem)
    have hhead : a.chainStart = (zs ++ [128 * x + i]).head?.getD 0 := by
      rw [h.first]
      cases zs with
      | nil => cases hzmem
      | cons y ys => rfl
    by_cases hzx : z / 128 = x
    · obtain ⟨hpa, hpw⟩ := hhere hzx
      refine ⟨s, { a with
        generalPurpose := setLE a.generalPurpose (4 * (z % 128)) 4 (128 * x + i) },
        Function.update T z (128 * x + i), ?_, h.linked.snoc hlast hz, h.only, ?_, ?_,
        h.count, hhead⟩
      · simp only [linkEntry, hlc, hz0, hpa, hidx, hu, ne_eq, not_false_eq_true, if_true,
          show ¬ (1 = 2) by decide, if_false]
      · intro c hc hcx
        rw [h.others c hc hcx, Function.update_of_ne (by rintro rfl; exact hcx hzx)]
      · intro j hj
        rw [getLE_setEntry _ he, h.gp j hj]
        by_cases hjz : j = z % 128
        · rw [if_pos hjz, show 128 * x + j = z by omega, Function.update_self]
        · rw [if_neg hjz, Function.update_of_ne (by omega)]
    · obtain ⟨hpa, hpw, hsp⟩ := hearlier hzx
      have hls := h.only.layout hl
      have hboot := h.only.boot
      have hzs : z / 128 < s.partition.boot.sectorsPerFat := by
        rw [hboot]
        omega
      refine ⟨s.writeFat (setLE a.secondaryPurpose (4 * (z % 128)) 4 (128 * x + i)) (z / 128),
        { a with secondaryPurpose := setLE a.secondaryPurpose (4 * (z % 128)) 4 (128 * x + i) },
        Function.update T z (128 * x + i), ?_, h.linked.snoc hlast hz,
        h.only.trans (fatOnly_writeFat hls hzs _), ?_, ?_, h.count, hhead⟩
      · simp only [linkEntry, hlc, hz0, hpa, hidx, hsec, hu, ne_eq, not_false_eq_true, if_true]
      · intro c hc hcx
        rw [fat_writeFat hls hzs (by rw [Partition.fatEntries, hboot]; exact hc),
          getLE_setEntry _ he]
        by_cases hcz : c = z
        · rw [hcz, if_pos rfl, if_pos rfl, Function.update_self]
        · rw [Function.update_of_ne hcz, ← h.others c hc hcx]
          split_ifs with h1 h2
          · omega
          · rw [hsp _ (Nat.mod_lt _ (by decide)), h.others c hc hcx]
            congr 1
            omega
          · rfl
      · intro j hj
        rw [h.gp j hj, Function.update_of_ne (by omega)]

theorem fatOnly_recent (s : State) (c : ℕ) :
    FatOnly s { s with partition := { s.partition with
      fsInfo := { s.partition.fsInfo with recentlyAllocatedCluster := c } } } :=
  ⟨rfl, rfl, rfl, rfl, fun _ _ => rfl, id, [], by simp, by simp⟩

theorem ScanInv.entry (h : ScanInv s₀ F x i zs T s a) (hl : Layout s₀.partition)
    (hx : x < s₀.partition.boot.sectorsPerFat) (hi : i < 128) (hF0 : F 0 ≠ 0)
    (hn : zs.length < numClusters) :
    match scanEntry numClusters x i s a with
    | .inl (s', a') => ∃ zs' T', Built s₀ F numClusters zs' T' s' a'
    | .inr (s', a') =>
      ∃ zs' T', ScanInv s₀ F x (i + 1) zs' T' s' a' ∧ zs'.length < numClusters := by
  have he : 128 * x + i < 2 ^ 32 := by
    have := hl.entries
    omega
  have hu : u32 (128 * x + i) = 128 * x + i := Nat.mod_eq_of_lt (by omega)
  rw [scanEntry, h.gp i hi, h.linked.at]
  split_ifs with hz
  · obtain ⟨s', a', T', hlink, hlinked, honly, hothers, hgp, hcount, hfirst⟩ :=
      h.link hl hx hi hF0 hz
    have hlast : (zs ++ [128 * x + i]).getLast? = some (128 * x + i) := List.getLast?_concat
    have hT' : T' (128 * x + i) = 0 := hlinked.last _ hlast
    have hlen : (zs ++ [128 * x + i]).length = a'.allocatedClusters + 1 := by
      rw [List.length_append, List.length_singleton, hcount]
    simp only [hlink, hu]
    split_ifs with hcnt
    · have hrec := honly.trans (fatOnly_recent s' (128 * x + i))
      have hls := hrec.layout hl
      have hxs : x < s'.partition.boot.sectorsPerFat := by
        rw [honly.boot]
        exact hx
      have hfat (c : ℕ) (hc : c < s₀.partition.fatEntries) :
          (State.writeFat { s' with partition := { s'.partition with
            fsInfo := { s'.partition.fsInfo with recentlyAllocatedCluster := 128 * x + i } } }
            (setLE a'.generalPurpose (4 * i) 4 endOfChain) x).fat c =
          if c = 128 * x + i then endOfChain else T' c := by
        rw [fat_writeFat hls hxs (by rw [Partition.fatEntries, hrec.boot]; exact hc),
          getLE_setEntry _ (by decide)]
        by_cases hcx : c / 128 = x
        · rw [if_pos hcx, hgp _ (Nat.mod_lt _ (by decide)), show 128 * x + c % 128 = c by omega]
          by_cases hci : c % 128 = i
          · rw [if_pos hci, if_pos (by omega)]
          · rw [if_neg hci, if_neg (by omega)]
        · rw [if_neg hcx, if_neg (by omega)]
          exact hothers c hc hcx
      refine ⟨zs ++ [128 * x + i], T', ⟨_, hlinked⟩, by rw [hlen]; exact hcnt, ?_,
        hrec.trans (fatOnly_writeFat hls hxs _), ?_, hfirst, hx, ?_⟩
      · intro z hz
        have := hlinked.lt z hz
        rw [Partition.fatEntries]
        omega
      · intro z hz c hc
        rw [hlast] at hz
        cases hz
        exact hfat c hc
      · intro j hj
        dsimp only
        rw [hfat _ (by rw [Partition.fatEntries]; omega), getLE_setEntry _ (by decide), hgp j hj]
        by_cases hji : j = i
        · rw [if_pos hji, if_pos (by omega)]
        · rw [if_neg hji, if_neg (by omega)]
    · refine ⟨zs ++ [128 * x + i], T',
        ⟨hlinked, honly, hothers, fun h => absurd h Bool.noConfusion, hgp, hlen.symm, hfirst, ?_⟩,
        by omega⟩
      rw [hlast]
      exact ⟨rfl, by dsimp only; omega, by dsimp only; omega, fun _ => ⟨rfl, rfl⟩,
        fun hne => absurd (by omega) hne⟩
  · exact ⟨zs, T, ⟨h.linked.skip hz, h.only, h.others, h.here, h.gp, h.count, h.first, h.last⟩, hn⟩

theorem ScanInv.sector {n : ℕ} (h : ScanInv s₀ F x i zs T s a) (hl : Layout s₀.partition)
    (hx : x < s₀.partition.boot.sectorsPerFat) (hi : i + n = 128) (hF0 : F 0 ≠ 0)
    (hn : zs.length < numClusters) :
    match scanSector numClusters x n i s a with
    | .inl (s', a') => ∃ zs' T', Built s₀ F numClusters zs' T' s' a'
    | .inr (s', a') => ∃ zs' T', ScanInv s₀ F x 128 zs' T' s' a' ∧ zs'.length < numClusters := by
  induction n generalizing i zs T s a with
  | zero =>
    rw [show i = 128 by omega] at h
    exact ⟨zs, T, h, hn⟩
  | succ n ih =>
    have hentry := h.entry hl hx (by omega) hF0 hn
    rw [scanSector]
    cases hres : scanEntry numClusters x i s a with
    | inl r =>
      simp only [hres] at hentry
      exact hentry
    | inr r =>
      simp only [hres] at hentry
      obtain ⟨zs', T', h', hn'⟩ := hentry
      exact ih h' (by omega) hn'

theorem ScanInv.endSector (h : ScanInv s₀ F x 128 zs T s a) (hl : Layout s₀.partition)
    (hx : x < s₀.partition.boot.sectorsPerFat) :
    FatOnly s₀ (endSector x s a).1 ∧
      (∀ c < s₀.partition.fatEntries, (endSector x s a).1.fat c = T c) ∧
      (endSector x s a).2.allocatedClusters = zs.length ∧
      (endSector x s a).2.chainStart = zs.head?.getD 0 ∧
      LastFound (x + 1) T (endSector x s a).2 zs.getLast? := by
  have hlast := h.last
  cases hz : zs.getLast? with
  | none =>
    rw [hz] at hlast
    have hsame : Fat32.endSector x s a = (s, a) := by
      simp [Fat32.endSector, hlast.2.1, hlast.2.2]
    rw [hsame]
    refine ⟨h.only, ?_, h.count, h.first, hlast⟩
    intro c hc
    by_cases hcx : c / 128 = x
    · exact h.here hlast.2.2 c hc hcx
    · exact h.others c hc hcx
  | some z =>
    rw [hz] at hlast
    obtain ⟨hlc, hidx, hsec, hhere, hearlier⟩ := hlast
    have hzlt := h.linked.lt z (List.mem_of_getLast? hz)
    by_cases hzx : z / 128 = x
    · obtain ⟨hpa, hpw⟩ := hhere hzx
      have hls := h.only.layout hl
      have hxs : x < s.partition.boot.sectorsPerFat := by
        rw [h.only.boot]
        exact hx
      have heq : Fat32.endSector x s a = (s.writeFat a.generalPurpose x,
          { a with
            pendingAllocation := 2, secondaryPurpose := a.generalPurpose, pendingWrite :=
                false }) := by
        simp [Fat32.endSector, hpa, hpw]
      rw [heq]
      refine ⟨h.only.trans (fatOnly_writeFat hls hxs _), ?_, h.count, h.first, hlc, hidx, hsec,
        fun hne => absurd hne (by omega), fun _ => ⟨rfl, rfl, ?_⟩⟩
      · intro c hc
        rw [fat_writeFat hls hxs (by rw [Partition.fatEntries, h.only.boot]; exact hc)]
        split_ifs with hcx
        · rw [h.gp _ (Nat.mod_lt _ (by decide))]
          congr 1
          omega
        · exact h.others c hc hcx
      · intro j hj
        rw [hzx]
        exact h.gp j hj
    · obtain ⟨hpa, hpw, hsp⟩ := hearlier hzx
      have hsame : Fat32.endSector x s a = (s, a) := by
        simp [Fat32.endSector, hpa, hpw]
      rw [hsame]
      refine ⟨h.only, ?_, h.count, h.first, hlc, hidx, hsec, fun hne => absurd hne (by omega),
        fun _ => ⟨hpa, hpw, hsp⟩⟩
      intro c hc
      by_cases hcx : c / 128 = x
      · exact h.here hpw c hc hcx
      · exact h.others c hc hcx

/-- The scan of the whole FAT builds the chain, unless there are fewer zero entries. -/
theorem scanFat_spec {n : ℕ} (hl : Layout s₀.partition)
    (hx : x + n = s₀.partition.boot.sectorsPerFat) (hF0 : F 0 ≠ 0) (hn : zs.length < numClusters)
    (hlinked : Linked F (128 * x) zs T) (honly : FatOnly s₀ s)
    (hfat : ∀ c < s₀.partition.fatEntries, s.fat c = T c) (hcount : a.allocatedClusters = zs.length)
    (hfirst : a.chainStart = zs.head?.getD 0) (hlast : LastFound x T a zs.getLast?)
    (henough : ∀ ys T', Linked F s₀.partition.fatEntries ys T' → numClusters ≤ ys.length) :
    ∃ zs' T', Built s₀ F numClusters zs' T' (scanFat numClusters n x s a).1
      (scanFat numClusters n x s a).2 := by
  induction n generalizing x zs T s a with
  | zero =>
    have hx' : 128 * x = s₀.partition.fatEntries := by
      rw [Partition.fatEntries]
      omega
    have := henough zs T (hx' ▸ hlinked)
    omega
  | succ n ih =>
    have hboot := honly.boot
    have hread (j : ℕ) (hj : j < 128) :
        getLE (s.read (u32 (s.partition.primaryFat + x)) 1) (4 * j) 4 = T (128 * x + j) := by
      rw [getLE_readFat (honly.layout hl) (by rw [hboot]; omega) hj]
      exact hfat _ (by rw [Partition.fatEntries]; omega)
    have hstart : ScanInv s₀ F x 0 zs T s
        { a with generalPurpose := s.read (u32 (s.partition.primaryFat + x)) 1 } := by
      refine ⟨hlinked, honly, fun c hc _ => hfat c hc, fun _ c hc _ => hfat c hc, hread, hcount,
        hfirst, ?_⟩
      cases hz : zs.getLast? with
      | none =>
        rw [hz] at hlast
        exact hlast
      | some z =>
        rw [hz] at hlast
        exact hlast
    have hsector := hstart.sector (n := 128) hl (by omega) (by omega) hF0 hn
    rw [scanFat]
    cases hres : scanSector numClusters x 128 0 s
        { a with generalPurpose := s.read (u32 (s.partition.primaryFat + x)) 1 } with
    | inl r =>
      simp only [hres] at hsector
      exact hsector
    | inr r =>
      simp only [hres] at hsector
      obtain ⟨zs', T', h', hn'⟩ := hsector
      obtain ⟨honly', hfat', hcount', hfirst', hlast'⟩ := h'.endSector hl (by omega)
      exact ih (by omega) hn' h'.linked honly' hfat' hcount' hfirst' hlast'

theorem relink_spec {n lastFatSector chainStart c : ℕ} {l : List ℕ} {gp : Buffer}
    (hl : Layout s.partition) (hchain : Chain s.fat endOfChain (c :: l))
    (hlt : ∀ b ∈ c :: l, b < s.partition.fatEntries) (hn : l.length < n)
    (hcs : chainStart < 2 ^ 32)
    (hgp : ∀ j < 128, getLE gp (4 * j) 4 = s.fat (128 * lastFatSector + j)) :
    ∃ s', relink chainStart n c lastFatSector gp s = some s' ∧ FatOnly s s' ∧
      ∀ b < s.partition.fatEntries,
        s'.fat b = if b = (c :: l).getLast (by simp) then chainStart else s.fat b := by
  induction n generalizing c l lastFatSector gp with
  | zero => omega
  | succ n ih =>
    have hc : c < s.partition.fatEntries := hlt c (by simp)
    have hcx : c / 128 < s.partition.boot.sectorsPerFat := by
      rw [Partition.fatEntries] at hc
      omega
    obtain ⟨gp', hgp', hsec⟩ : ∃ gp', (if c / 128 ≠ lastFatSector then
        s.read (u32 (s.partition.primaryFat + c / 128)) 1 else gp) = gp' ∧
        ∀ j < 128, getLE gp' (4 * j) 4 = s.fat (128 * (c / 128) + j) := by
      by_cases hs : c / 128 = lastFatSector
      · exact ⟨gp, by simp [hs], by rw [hs]; exact hgp⟩
      · exact ⟨_, by rw [if_pos hs], fun j hj => getLE_readFat hl hcx hj⟩
    have hentry : getLE gp' (4 * (c % 128)) 4 = s.fat c := by
      rw [hsec _ (Nat.mod_lt _ (by decide))]
      congr 1
      omega
    rw [relink]
    simp only [hgp', hentry]
    cases l with
    | nil =>
      have hend : s.fat c = endOfChain := hchain
      refine ⟨_, by rw [if_pos hend], fatOnly_writeFat hl hcx _, ?_⟩
      intro b hb
      rw [fat_writeFat hl hcx hb, getLE_setEntry _ hcs, List.getLast_singleton]
      by_cases hbc : b = c
      · rw [hbc, if_pos rfl, if_pos rfl, if_pos rfl]
      · rw [if_neg hbc]
        split_ifs with h1 h2
        · omega
        · rw [hsec _ (Nat.mod_lt _ (by decide))]
          congr 1
          omega
        · rfl
    | cons d l =>
      have hne : s.fat c ≠ endOfChain := by
        rw [hchain.1]
        exact hchain.2.1
      rw [if_neg hne, hchain.1, List.getLast_cons (by simp)]
      exact ih hchain.tail (fun b hb => hlt b (by simp [hb])) (by simpa using hn) hsec

/-- `F'` is `F` after the lowest zero entries `zs` were linked to a new chain and the last entry
`old` of the old chain, if there is one, was linked to it. -/
structure Appended (F F' : ℕ → ℕ) (entries : ℕ) (old : Option ℕ) (zs : List ℕ) : Prop where
  sorted : zs.Pairwise (· < ·)
  lt : ∀ z ∈ zs, z < entries
  zero : ∀ z ∈ zs, F z = 0
  lowest : ∀ c, F c = 0 → c ∉ zs → ∀ z ∈ zs, z < c
  links : Path F' zs
  last : ∀ z, zs.getLast? = some z → F' z = endOfChain
  relinked : ∀ t, old = some t → F' t = zs.head?.getD 0
  other : ∀ c < entries, c ∉ zs → old ≠ some c → F' c = F c

/-- What the call does to the rest of the state. -/
structure AllocFrame (s s' : State) (numClusters : ℕ) : Prop where
  boot : s'.partition.boot = s.partition.boot
  secondaryFsInfo : s'.partition.secondaryFsInfo = s.partition.secondaryFsInfo
  freeClusters : s'.partition.fsInfo.freeClusters =
    sub32 s.partition.fsInfo.freeClusters numClusters
  fatSectorNumber : s'.partition.fatSectorNumber = 0
  entryName : s'.entryName = s.entryName
  mirror : Mirror s → Mirror s'
  outside : ∀ a, 512 * (s.partition.primaryFat + 2 * s.partition.boot.sectorsPerFat) ≤ a →
    s'.disk a = s.disk a
  secondary : ∀ j < 512, s'.disk (512 * s.partition.secondaryFsInfo + j) =
    s'.partition.fsInfo.bytes j
  primary : ∀ j < 512,
    s'.disk (512 * (s.partition.boot.hiddenSectors + s.partition.boot.fsInfoLba) + j) =
      s'.partition.fsInfo.bytes j
  writes : ∃ ws, s'.writes = s.writes ++ ws ∧ ∀ w ∈ ws, (w.kind = .fat ∧
      s.partition.primaryFat ≤ w.sector ∧
      w.sector + w.numSectors ≤ s.partition.primaryFat + 2 * s.partition.boot.sectorsPerFat) ∨
    (w.kind = .fsInfo ∧ w.numSectors = 1 ∧
      (w.sector = s.partition.boot.hiddenSectors + s.partition.boot.fsInfoLba ∨
        w.sector = s.partition.secondaryFsInfo))

theorem finishAllocation_disk {n : ℕ} (hl : Layout s.partition) (a : ℕ) :
    (finishAllocation s n).disk a =
      if 512 * s.partition.secondaryFsInfo ≤ a ∧ a < 512 * s.partition.secondaryFsInfo + 512 then
        (finishAllocation s n).partition.fsInfo.bytes (a - 512 * s.partition.secondaryFsInfo)
      else if 512 * (s.partition.boot.hiddenSectors + s.partition.boot.fsInfoLba) ≤ a ∧
          a < 512 * (s.partition.boot.hiddenSectors + s.partition.boot.fsInfoLba) + 512 then
        (finishAllocation s n).partition.fsInfo.bytes
          (a - 512 * (s.partition.boot.hiddenSectors + s.partition.boot.fsInfoLba))
      else s.disk a := by
  have hfits := hl.fits
  have hinfo := hl.fsInfo
  have hu : u32 (s.partition.boot.hiddenSectors + s.partition.boot.fsInfoLba) =
      s.partition.boot.hiddenSectors + s.partition.boot.fsInfoLba := Nat.mod_eq_of_lt (by omega)
  simp only [finishAllocation, State.write, hu, copy_zero_apply, Nat.mul_one]

theorem finishAllocation_fat {n a : ℕ} (hl : Layout s.partition)
    (ha : 512 * s.partition.primaryFat ≤ a) : (finishAllocation s n).disk a = s.disk a := by
  have hp := hl.primaryFat_eq
  have hinfo := hl.fsInfo
  have hsecond := hl.secondary
  rw [finishAllocation_disk hl, if_neg (by omega), if_neg (by omega)]

theorem finishAllocation_frame {n : ℕ} (hl : Layout s₀.partition) (honly : FatOnly s₀ s) :
    AllocFrame s₀ (finishAllocation s n) n := by
  have hls := honly.layout hl
  have hboot := honly.boot
  have hsec := honly.secondaryFsInfo
  have hpf : s.partition.primaryFat = s₀.partition.primaryFat := Partition.primaryFat_congr hboot
  have hp := hl.primaryFat_eq
  have hfits := hl.fits
  have hinfo := hl.fsInfo
  obtain ⟨ws, hws, hkind⟩ := honly.writes
  refine ⟨hboot, hsec, ?_, rfl, honly.entryName, ?_, ?_, ?_, ?_, ?_⟩
  · rw [← honly.freeClusters]
    rfl
  · intro hm j hj
    have hmj := honly.mirror hm j hj
    have hsf := hls.secondaryFat_eq
    change (finishAllocation s n).disk (512 * s.partition.secondaryFat + j) =
      (finishAllocation s n).disk (512 * s.partition.primaryFat + j)
    rw [finishAllocation_fat hls (by omega), finishAllocation_fat hls (by omega), hmj]
  · intro a ha
    rw [finishAllocation_fat hls (by omega), honly.outside a (Or.inr ha)]
  · intro j hj
    rw [finishAllocation_disk hls, hsec, if_pos (by omega)]
    congr 1
    omega
  · intro j hj
    rw [finishAllocation_disk hls, hboot, hsec]
    split_ifs with h1 h2
    · congr 1
      omega
    · congr 1
      omega
    · omega
  · refine ⟨ws ++ [⟨s₀.partition.boot.hiddenSectors + s₀.partition.boot.fsInfoLba, 1, .fsInfo⟩,
      ⟨s₀.partition.secondaryFsInfo, 1, .fsInfo⟩], ?_, ?_⟩
    · have hu : u32 (s₀.partition.boot.hiddenSectors + s₀.partition.boot.fsInfoLba) =
          s₀.partition.boot.hiddenSectors + s₀.partition.boot.fsInfoLba :=
        Nat.mod_eq_of_lt (by omega)
      simp only [finishAllocation, State.write, hws, hboot, hsec, hu, List.append_assoc,
        List.singleton_append]
    · intro w hw
      rcases List.mem_append.mp hw with hw | hw
      · exact Or.inl (hkind w hw)
      · right
        simp only [List.mem_cons, List.not_mem_nil, or_false] at hw
        rcases hw with rfl | rfl
        · exact ⟨rfl, rfl, Or.inl rfl⟩
        · exact ⟨rfl, rfl, Or.inr rfl⟩

/-- The zero entries below `e`. -/
def zeros (F : ℕ → ℕ) (e : ℕ) : List ℕ := (List.range e).filter (fun c => F c = 0)

theorem mem_zeros {c : ℕ} : c ∈ zeros F e ↔ c < e ∧ F c = 0 := by
  rw [zeros, List.mem_filter, List.mem_range, decide_eq_true_iff]

theorem zeros_nodup (F : ℕ → ℕ) (e : ℕ) : (zeros F e).Nodup := List.nodup_range.filter _

theorem Linked.length_eq (h : Linked F e zs T) : zs.length = (zeros F e).length := by
  apply List.Perm.length_eq
  rw [List.perm_ext_iff_of_nodup (h.sorted.imp Nat.ne_of_lt) (zeros_nodup F e)]
  intro c
  rw [mem_zeros]
  exact ⟨fun hc => ⟨h.lt c hc, h.zero c hc⟩, fun hc => h.all c hc.1 hc.2⟩

/-- The chain that the new clusters are appended to: none, or one that the range checks accept. -/
inductive OldChain (s : State) : ℕ → List ℕ → Prop
  | none : OldChain s 0 []
  | some {c : ℕ} {l : List ℕ} (hc : 2 ≤ c) (hle : c ≤ s.partition.dataClusters)
      (hchain : Chain s.fat endOfChain (c :: l))
      (hlt : ∀ b ∈ c :: l, b < s.partition.fatEntries ∧ s.fat b ≠ 0) : OldChain s c (c :: l)

theorem Chain.length_lt {l : List ℕ} (hl : Layout s.partition) (h : Chain s.fat endOfChain l)
    (hlt : ∀ b ∈ l, b < s.partition.fatEntries) : l.length < walkFuel := by
  have hsub : l.Subperm (List.range s.partition.fatEntries) :=
    h.nodup.subperm (fun b hb => List.mem_range.mpr (hlt b hb))
  have hlen := hsub.length_le
  rw [List.length_range, Partition.fatEntries] at hlen
  have := hl.entries
  rw [walkFuel]
  omega

theorem scanFat_start {n : ℕ} (hl : Layout s.partition) (h0 : s.fat 0 ≠ 0) (hn : 0 < n)
    (henough : n ≤ (zeros s.fat s.partition.fatEntries).length) :
    ∃ zs T, Built s s.fat n zs T
      (scanFat n s.partition.boot.sectorsPerFat 0 s
        ⟨fun _ => 0, fun _ => 0, 0, 0, 0, 0, 0, 0, false⟩).1
      (scanFat n s.partition.boot.sectorsPerFat 0 s
        ⟨fun _ => 0, fun _ => 0, 0, 0, 0, 0, 0, 0, false⟩).2 := by
  have hnil : ([] : List ℕ).length < n := hn
  refine scanFat_spec hl (Nat.zero_add _) h0 hnil (linked_nil s.fat) (fatOnly_refl s)
    (fun _ _ => rfl) rfl rfl ⟨rfl, rfl, rfl⟩ ?_
  intro ys T' hy
  rw [hy.length_eq]
  exact henough

theorem Built.appended {n : ℕ} (h : Built s₀ F n zs T s a) (hn : 0 < n) :
    Appended F s.fat s₀.partition.fatEntries none zs := by
  obtain ⟨e, hlinked⟩ := h.linked
  obtain ⟨ys, z, rfl⟩ : ∃ ys z, zs = ys ++ [z] := by
    rcases List.eq_nil_or_concat zs with rfl | ⟨ys, z, hz⟩
    · have := h.length
      simp only [List.length_nil] at this
      omega
    · exact ⟨ys, z, by rw [hz, List.concat_eq_append]⟩
  have hfat := h.fat z List.getLast?_concat
  refine ⟨hlinked.sorted, h.entries, hlinked.zero, ?_, ?_, ?_, nofun, ?_⟩
  · intro c hc hmem b hb
    have hbe := hlinked.lt b hb
    by_contra hlt
    exact hmem (hlinked.all c (by omega) hc)
  · apply hlinked.links.congr
    intro b hb
    rw [List.dropLast_concat] at hb
    have hbz : b ≠ z := Nat.ne_of_lt ((List.pairwise_append.mp hlinked.sorted).2.2 b hb z (by simp))
    rw [hfat b (h.entries b (by simp [hb])), if_neg hbz]
  · intro b hb
    rw [List.getLast?_concat] at hb
    cases hb
    rw [hfat z (h.entries z (by simp)), if_pos rfl]
  · intro c hc hmem _
    rw [hfat c hc, if_neg (by rintro rfl; simp at hmem), hlinked.other c hmem]

theorem Appended.relink {F' F'' : ℕ → ℕ} {t : ℕ} (h : Appended F F' e none zs) (ht : t < e)
    (htz : F t ≠ 0) (hF : ∀ b < e, F'' b = if b = t then zs.head?.getD 0 else F' b) :
    Appended F F'' e (some t) zs := by
  have hne (z : ℕ) (hz : z ∈ zs) : z ≠ t := by
    rintro rfl
    exact htz (h.zero z hz)
  refine ⟨h.sorted, h.lt, h.zero, h.lowest, ?_, ?_, ?_, ?_⟩
  · apply h.links.congr
    intro z hz
    have hmem := List.dropLast_subset _ hz
    rw [hF z (h.lt z hmem), if_neg (hne z hmem)]
  · intro z hz
    have hmem := List.mem_of_getLast? hz
    rw [hF z (h.lt z hmem), if_neg (hne z hmem), h.last z hz]
  · intro b hb
    cases hb
    rw [hF t ht, if_pos rfl]
  · intro c hc hmem hct
    rw [hF c hc, if_neg (by rintro rfl; exact hct rfl), h.other c hc hmem nofun]

theorem finishAllocation_fat_eq {n : ℕ} (hl : Layout s.partition) :
    (finishAllocation s n).fat = s.fat := by
  funext c
  apply getLE_congr
  intro i _
  have hp : (finishAllocation s n).partition.primaryFat = s.partition.primaryFat := rfl
  rw [hp]
  exact finishAllocation_fat hl (by omega)

theorem fat32AllocateClusterChain_spec {start n : ℕ} {l : List ℕ} (hl : Layout s.partition)
    (h0 : s.fat 0 ≠ 0) (hn : 0 < n) (hfree : n ≤ s.partition.fsInfo.freeClusters)
    (henough : n ≤ (zeros s.fat s.partition.fatEntries).length) (hold : OldChain s start l) :
    ∃ s' zs, fat32AllocateClusterChain s start n = some (s', zs.head?.getD 0) ∧ zs.length = n ∧
      Appended s.fat s'.fat s.partition.fatEntries l.getLast? zs ∧ AllocFrame s s' n := by
  obtain ⟨zs, T, hbuilt⟩ := scanFat_start hl h0 hn henough
  rw [fat32AllocateClusterChain, if_neg (Nat.ne_of_gt hn)]
  cases hscan : scanFat n s.partition.boot.sectorsPerFat 0 s
      ⟨fun _ => 0, fun _ => 0, 0, 0, 0, 0, 0, 0, false⟩ with
  | mk s₁ a =>
    simp only [hscan] at hbuilt
    have happ := hbuilt.appended hn
    have hls := hbuilt.only.layout hl
    cases hold with
    | none =>
      refine ⟨finishAllocation s₁ n, zs, ?_, hbuilt.length, ?_,
        finishAllocation_frame hl hbuilt.only⟩
      · rw [if_neg (by omega), if_neg (by omega), if_neg (by omega)]
        simp [hbuilt.first]
      · rw [finishAllocation_fat_eq hls]
        exact happ
    | @some _ l hc hle hchain hlt =>
      have hsame (b : ℕ) (hb : b ∈ start :: l) : s₁.fat b = s.fat b :=
        happ.other b (hlt b hb).1 (fun hz => (hlt b hb).2 (happ.zero b hz)) nofun
      have hlt' (b : ℕ) (hb : b ∈ start :: l) : b < s₁.partition.fatEntries := by
        rw [Partition.fatEntries, hbuilt.only.boot]
        exact (hlt b hb).1
      have hchain' := hchain.congr hsame
      have hlast : (start :: l).getLast? = some ((start :: l).getLast (by simp)) :=
        List.getLast?_eq_some_getLast (by simp)
      have hcs : a.chainStart < 2 ^ 32 := by
        have hentries := hl.entries
        rw [hbuilt.first]
        cases zs with
        | nil => decide
        | cons z zs =>
          have hz := happ.lt z (by simp)
          rw [Partition.fatEntries] at hz
          simp only [List.head?_cons, Option.getD_some]
          omega
      obtain ⟨s₂, hrelink, honly, hfat⟩ := relink_spec hls hchain' hlt'
        (Nat.lt_of_succ_lt (Chain.length_lt hls hchain' hlt')) hcs hbuilt.gp.2
      refine ⟨finishAllocation s₂ n, zs, ?_, hbuilt.length, ?_,
        finishAllocation_frame hl (hbuilt.only.trans honly)⟩
      · rw [if_neg (by omega), if_neg (by omega), if_neg (by omega)]
        simp only [show start ≠ 0 by omega, ne_eq, not_false_eq_true, if_true]
        rw [hrelink, hbuilt.first]
        rfl
      · rw [finishAllocation_fat_eq (honly.layout hls), hlast]
        apply happ.relink
        · exact (hlt _ (List.getLast_mem _)).1
        · exact (hlt _ (List.getLast_mem _)).2
        · intro b hb
          rw [hfat b (by rw [Partition.fatEntries, hbuilt.only.boot]; exact hb), hbuilt.first]

end DevOs.Fat32
