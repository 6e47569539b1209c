import DevOs.Fat32.Lookup

/-!
# New entries keep the volume consistent

A short entry goes to the first free slot of the directory, and a long name to a run of free slots
in one cluster; otherwise the directory grows. A long name that would go to more than one cluster is
refused, after the directory may have grown.
-/

namespace DevOs.Fat32

open Bytes Chains

variable {g : Geometry} {s₀ s s' : State} {v v' : Vol} {o o' : Owners}

theorem View.grow {start n : ℕ} {l : List ℕ} (hv : View g s₀ s v) (hg : g.Valid)
    (hc : Counted g v) (hl : (start = 0 ∧ l = []) ∨ g.IsChain v.fat l ∧ l.head? = some start) :
    (Refused g v start n ∧ fat32AllocateClusterChain s start n = some (s, 0)) ∨
    (¬ Refused g v start n ∧ ∃ s' v' z zs, fat32AllocateClusterChain s start n = some (s', z) ∧
      z ≠ 0 ∧ View g s₀ s' v' ∧ Grown g v v' l (z :: zs) ∧ zs.length + 1 = n) := by
  by_cases hr : Refused g v start n
  · exact Or.inl ⟨hr, hv.refused hg hr⟩
  · refine Or.inr ⟨hr, ?_⟩
    rw [Refused, not_or, not_or, not_or] at hr
    have hext : Extends g v.fat start l := by
      rcases hl with ⟨rfl, rfl⟩ | ⟨hch, hhead⟩
      · exact .none
      · cases l with
        | nil => cases hhead
        | cons c l =>
          cases hhead
          exact .some (Nat.not_lt.mp hr.2.2.1) hch
    obtain ⟨s', v', zs, hres, hv', hgr, hlen⟩ :=
      hv.allocate hg hc hext (Nat.pos_of_ne_zero hr.1) (Nat.not_lt.mp hr.2.2.2)
    cases zs with
    | nil => exact absurd rfl hgr.ne_nil
    | cons z zs =>
      have hz := (hgr.inData z (by simp)).1
      exact ⟨s', v', z, zs, hres, by omega, hv', hgr, hlen⟩

theorem Grown.setData {l zs : List ℕ} {D : ℕ → Buffer} (h : Grown g v v' l zs) :
    Grown g { v with data := D } { v' with data := D } l zs :=
  ⟨h.appended, h.inData, h.ne_nil, rfl, h.entryName, h.free, h.counted.congr rfl rfl⟩

theorem Consistent.extend_cleared {h : ℕ} {zs : List ℕ} {D : ℕ → Buffer} (hc : Consistent g v o)
    (hg : g.Valid) (hh : o.head h) (hgr : Grown g v v' (h :: o.tail h) zs)
    (hD : ∀ c, c ∉ zs → D c = v.data c) (hfree : ∀ z ∈ zs, AllFree g (D z)) :
    Consistent g { v' with data := D } (o.extend h zs) := by
  have hc' : Consistent g { v with data := D } o := by
    refine hc.congr rfl rfl (fun c hin => hD c (fun hz => ?_))
    obtain ⟨k, hk, -, hm⟩ := hin
    exact hc.not_head_mem hgr hk hz hm
  exact hc'.extend hg hh hgr.setData (fun _ z hz => hfree z hz)

theorem Consistent.add_cleared {z : ℕ} {zs : List ℕ} {D : ℕ → Buffer} (hc : Consistent g v o)
    (hg : g.Valid) (hgr : Grown g v v' [] (z :: zs))
    (hD : ∀ c, c ∉ z :: zs → D c = v.data c) (hfree : ∀ c ∈ z :: zs, AllFree g (D c)) :
    Consistent g { v' with data := D } (o.add z zs True) ∧ ¬ o.head z ∧
      ∀ c i, InfoAt g { v' with data := D } (o.add z zs True) c i →
        firstCluster (slot (D c) i) ≠ z := by
  have hc' : Consistent g { v with data := D } o := by
    refine hc.congr rfl rfl (fun c hin => hD c (fun hz => ?_))
    obtain ⟨k, hk, -, hm⟩ := hin
    exact hc.not_head_mem hgr hk hz hm
  exact hc'.add hg hgr.setData (fun _ c hcm => hfree c hcm)

theorem Consistent.setEntries {c : ℕ} {b : Buffer} (hc : Consistent g v o) (hin : o.InDir c)
    (hslots : SlotsOk g.slots b)
    (hentries : ∀ i < g.slots, slotKind (slot b i) = .info → slot b i = slot (v.data c) i ∨
      (firstCluster (slot b i) = 0 ∧ fileSize (slot b i) = 0)) :
    Consistent g (v.setData c (window b 0 g.clusterBytes)) o := by
  have hslot (i : ℕ) (hi : i < g.slots) : slot (window b 0 g.clusterBytes) i = slot b i := by
    rw [g.clusterBytes_eq, slot_window hi]
  apply hc.setData (hslots.congr (fun i hi => by rw [hslot i hi]))
  intro i hi hinfo
  rw [hslot i hi] at hinfo
  rw [LinkOk, hslot i hi]
  rcases hentries i hi hinfo with hsame | ⟨h0, hsize⟩
  · have hold : InfoAt g v o c i := ⟨hin, hi, by rw [← hsame]; exact hinfo⟩
    rw [hsame]
    exact ⟨hc.entries c i hold, Or.inr (Or.inl ⟨hold, rfl⟩)⟩
  · exact ⟨Or.inl ⟨h0, fun _ => hsize⟩, Or.inl h0⟩

theorem allFree_zero (g : Geometry) : AllFree g (window (fun _ => 0) 0 g.clusterBytes) := by
  intro i hi
  rw [g.clusterBytes_eq, slot_window hi, slotKind_eq_free]
  rfl

def freeSlot (g : Geometry) (data : ℕ → Buffer) : List ℕ → Option (ℕ × ℕ)
  | [] => none
  | c :: l =>
    match firstFree (data c) g.slots 0 with
    | some i => some (c, i)
    | none => freeSlot g data l

theorem firstFree_some {b : Buffer} {n x i : ℕ} (h : firstFree b n x = some i) :
    x ≤ i ∧ i < x + n ∧ isFree (slot b i) = true ∧ ∀ j, x ≤ j → j < i →
    isFree (slot b j) = false := by
  induction n generalizing x with
  | zero => cases h
  | succ n ih =>
    rw [firstFree] at h
    split_ifs at h with hf
    · cases h
      exact ⟨Nat.le_refl _, by omega, hf, fun j hj hj' => by omega⟩
    · obtain ⟨h1, h2, h3, h4⟩ := ih h
      refine ⟨by omega, by omega, h3, fun j hj hj' => ?_⟩
      by_cases hjx : j = x
      · rw [hjx]
        exact Bool.eq_false_iff.mpr hf
      · exact h4 j (by omega) hj'

theorem freeSlot_mem {data : ℕ → Buffer} {l : List ℕ} {c i : ℕ}
    (h : freeSlot g data l = some (c, i)) : c ∈ l ∧ firstFree (data c) g.slots 0 = some i := by
  induction l with
  | nil => cases h
  | cons d l ih =>
    rw [freeSlot] at h
    cases hf : firstFree (data d) g.slots 0 with
    | some j =>
      rw [hf] at h
      cases h
      exact ⟨by simp, hf⟩
    | none =>
      rw [hf] at h
      obtain ⟨hm, hs⟩ := ih h
      exact ⟨by simp [hm], hs⟩

theorem overChain_free {p : Partition} {data : ℕ → Buffer} (hp : p.entriesPerCluster = g.slots)
    (l : List ℕ) : overChain (freeCluster p) data l () =
    match freeSlot g data l with
    | some (c, i) => .inl (c, i, data c)
    | none => .inr () := by
  induction l with
  | nil => rfl
  | cons c l ih =>
    rw [overChain, freeSlot, freeCluster, hp]
    cases hf : firstFree (data c) g.slots 0 with
    | some i => rfl
    | none => exact ih

def withSfn (g : Geometry) (b : Buffer) (i : ℕ) (name : Name) (attributes : Byte)
    (flags : SfnFlags) :
    Buffer :=
  window (setSlot b i (setSfnEntry (fun _ => 0) name attributes flags)) 0 g.clusterBytes

section Sfn

variable {h c i : ℕ} {name : Name} {attributes : Byte} {flags : SfnFlags}

theorem View.allocateSfn_found (hv : View g s₀ s v) (hg : g.Valid) (hc : Consistent g v o)
    (hh : o.head h) (hf : freeSlot g v.data (h :: o.tail h) = some (c, i)) :
    ∃ s', fat32AllocateSfnEntry s h name attributes flags = some (s', .success) ∧
      View g s₀ s' (v.setData c (withSfn g (v.data c) i name attributes flags)) := by
  obtain ⟨s', hread, hv'⟩ := hc.readChain () hg hv hh
  have hin := (hc.chains h hh).inData c (freeSlot_mem hf).1
  refine ⟨_, ?_, hv'.writeCluster hg hin _⟩
  rw [fat32AllocateSfnEntry, hread, overChain_free hv.entriesPerCluster_eq, hf]

theorem View.allocateSfn_grown (hv : View g s₀ s v) (hg : g.Valid) (hc : Consistent g v o)
    (hh : o.head h) (hf : freeSlot g v.data (h :: o.tail h) = none) :
    (Refused g v h 1 ∧ ∃ s', fat32AllocateSfnEntry s h name attributes flags =
      some (s', .noEnoughSpace) ∧ View g s₀ s' v) ∨
    (¬ Refused g v h 1 ∧ ∃ s' v' z, fat32AllocateSfnEntry s h name attributes flags =
      some (s', .success) ∧ Grown g v v' (h :: o.tail h) [z] ∧
      View g s₀ s' (v'.setData z (withSfn g (fun _ => 0) 0 name attributes flags))) := by
  obtain ⟨s', hread, hv'⟩ := hc.readChain () hg hv hh
  rcases hv'.grow (n := 1) hg hc.counted (Or.inr ⟨hc.chains h hh, rfl⟩) with
    ⟨hr, halloc⟩ | ⟨hr, s'', v', z, zs, halloc, hz, hv'', hgr, hlen⟩
  · refine Or.inl ⟨hr, s', ?_, hv'⟩
    rw [fat32AllocateSfnEntry, hread, overChain_free hv.entriesPerCluster_eq, hf]
    simp only [halloc, if_true]
  · have hnil : zs = [] := List.eq_nil_of_length_eq_zero (by omega)
    subst hnil
    refine Or.inr ⟨hr, _, v', z, ?_, hgr, hv''.writeCluster hg (hgr.inData z (by simp)) _⟩
    rw [fat32AllocateSfnEntry, hread, overChain_free hv.entriesPerCluster_eq, hf]
    simp only [halloc, if_neg hz]

theorem Consistent.sfn_found (hc : Consistent g v o) (hh : o.head h) (hd : o.dir h)
    (hattr : attributes &&& 0xF ≠ 0xF)
    (hf : freeSlot g v.data (h :: o.tail h) = some (c, i)) :
    Consistent g (v.setData c (withSfn g (v.data c) i name attributes flags)) o := by
  obtain ⟨hm, hfree⟩ := freeSlot_mem hf
  obtain ⟨-, hi, hfi, -⟩ := firstFree_some hfree
  rw [Nat.zero_add] at hi
  have hin : o.InDir c := ⟨h, hh, hd, hm⟩
  apply hc.setEntries hin
  · exact (hc.slots c hin).fill hi (slotKind_eq_free.mpr hfi)
      (slotKind_setSfnEntry _ _ _ hattr)
  · intro k _ _
    by_cases hki : k = i
    · rw [hki, slot_setSlot_self, firstCluster_window, fileSize_window]
      exact Or.inr ⟨firstCluster_setSfnEntry .., fileSize_setSfnEntry ..⟩
    · exact Or.inl (slot_setSlot_of_ne hki)

theorem Vol.setData_setData (v : Vol) (c : ℕ) (b b' : Buffer) :
    (v.setData c b).setData c b' = v.setData c b' := by
  rw [Vol.setData, Vol.setData, Vol.setData, Function.update_idem]

theorem Consistent.grown_entries {z : ℕ} {b : Buffer} (hc : Consistent g v o) (hg : g.Valid)
    (hh : o.head h) (hd : o.dir h) (hgr : Grown g v v' (h :: o.tail h) [z])
    (hslots : SlotsOk g.slots b)
    (hentries : ∀ k < g.slots, slotKind (slot b k) = .info →
      firstCluster (slot b k) = 0 ∧ fileSize (slot b k) = 0) :
    Consistent g (v'.setData z (window b 0 g.clusterBytes)) (o.extend h [z]) := by
  have hclear := hc.extend_cleared hg hh hgr
    (D := Function.update v.data z (window (fun _ => 0) 0 g.clusterBytes))
    (fun c hcz => Function.update_of_ne (by simpa using hcz) ..)
    (fun c hcz => by rw [List.mem_singleton.mp hcz, Function.update_self]; exact allFree_zero g)
  rw [← hgr.data] at hclear
  have hin : (o.extend h [z]).InDir z :=
    ⟨h, hh, hd, Owners.mem_extend.mpr (Or.inr ⟨rfl, by simp⟩)⟩
  rw [← Vol.setData_setData v' z (window (fun _ => 0) 0 g.clusterBytes)]
  exact hclear.setEntries hin hslots (fun k hk hinfo => Or.inr (hentries k hk hinfo))

theorem Consistent.sfn_grown {z : ℕ} (hc : Consistent g v o) (hg : g.Valid) (hh : o.head h)
    (hd : o.dir h) (hattr : attributes &&& 0xF ≠ 0xF)
    (hgr : Grown g v v' (h :: o.tail h) [z]) :
    Consistent g (v'.setData z (withSfn g (fun _ => 0) 0 name attributes flags))
      (o.extend h [z]) := by
  have hpos := hg.slots_pos
  have hzero (k : ℕ) : slotKind (slot (fun _ => 0) k) = .free := slotKind_eq_free.mpr rfl
  apply hc.grown_entries hg hh hd hgr
  · exact (slotsOk_of_free (fun k _ => hzero k)).fill hpos (hzero 0)
      (slotKind_setSfnEntry _ _ _ hattr)
  · intro k _ hk
    by_cases hk0 : k = 0
    · rw [hk0, slot_setSlot_self, firstCluster_window, fileSize_window]
      exact ⟨firstCluster_setSfnEntry .., fileSize_setSfnEntry ..⟩
    · rw [slot_setSlot_of_ne hk0, hzero] at hk
      cases hk

end Sfn

/-- The run that the scan has found before the slot `i` of the cluster `c`: none, one that began in
this cluster, or one that began in an earlier one. -/
def RunInv (earlier : List ℕ) (c : ℕ) (b : Buffer) (i : ℕ) (r : FreeRun) : Prop :=
  (r.startCluster = 0 ∧ r.approved = 0) ∨
  (r.startCluster = c ∧ r.startIndex + r.approved = i ∧
    ∀ k, r.startIndex ≤ k → k < i → isFree (slot b k) = true) ∨
  r.startCluster ∈ earlier

/-- A run that ends at the slot `j` of the cluster `c`. -/
def RunFound (earlier : List ℕ) (target c : ℕ) (b : Buffer) (j : ℕ) (r : FreeRun) : Prop :=
  (r.startCluster = c ∧ r.startIndex + target = j + 1 ∧
    ∀ k, r.startIndex ≤ k → k ≤ j → isFree (slot b k) = true) ∨
  r.startCluster ∈ earlier

theorem scanFree_spec {earlier : List ℕ} {target c n i : ℕ} {b : Buffer} {r : FreeRun} (hc : c ≠ 0)
    (he : 0 ∉ earlier) (h : RunInv earlier c b i r) :
    match scanFree target c b n i r with
    | .inl (r', j) => j < i + n ∧ RunFound earlier target c b j r'
    | .inr r' => RunInv earlier c b (i + n) r' := by
  induction n generalizing i r with
  | zero => exact h
  | succ n ih =>
    rw [scanFree]
    cases hf : isFree (slot b i) with
    | true =>
      simp only [if_true]
      obtain ⟨r', hr', hrun⟩ : ∃ r', (if r.startCluster = 0 then
          { r with startCluster := c, startIndex := i } else r) = r' ∧
          ((r'.startCluster = c ∧ r'.startIndex + r'.approved = i ∧
            ∀ k, r'.startIndex ≤ k → k ≤ i → isFree (slot b k) = true) ∨
          r'.startCluster ∈ earlier) := by
        rcases h with ⟨h0, ha⟩ | ⟨hs, hidx, hfree⟩ | hs
        · refine ⟨_, if_pos h0, Or.inl ⟨rfl, ?_, ?_⟩⟩
          · dsimp only
            omega
          · intro k hk hk'
            dsimp only at hk
            rw [show k = i by omega]
            exact hf
        · refine ⟨_, if_neg (by omega), Or.inl ⟨hs, hidx, ?_⟩⟩
          intro k hk hk'
          by_cases hki : k = i
          · rw [hki]
            exact hf
          · exact hfree k hk (by omega)
        · refine ⟨_, if_neg ?_, Or.inr hs⟩
          intro h0
          exact he (h0 ▸ hs)
      simp only [hr']
      split_ifs with ht
      · refine ⟨by omega, ?_⟩
        rcases hrun with ⟨hs, hidx, hfree⟩ | hs
        · exact Or.inl ⟨hs, by dsimp only; omega, hfree⟩
        · exact Or.inr hs
      · have hnext := ih (i := i + 1) (r := { r' with approved := r'.approved + 1 }) ?_
        · rw [show i + (n + 1) = i + 1 + n by omega]
          exact hnext
        · rcases hrun with ⟨hs, hidx, hfree⟩ | hs
          · exact Or.inr (Or.inl ⟨hs, by dsimp only; omega, fun k hk hk' => hfree k hk (by omega)⟩)
          · exact Or.inr (Or.inr hs)
    | false =>
      simp only [Bool.false_eq_true, if_false]
      rw [show i + (n + 1) = i + 1 + n by omega]
      split_ifs with h0
      · exact ih (Or.inl ⟨rfl, rfl⟩)
      · apply ih
        rcases h with h | ⟨hs, -, -⟩ | hs
        · exact Or.inl h
        · omega
        · exact Or.inr (Or.inr hs)

theorem overChain_run {target n : ℕ} {data : ℕ → Buffer} {earlier l : List ℕ} {r : FreeRun}
    (hnd : (earlier ++ l).Nodup) (he : 0 ∉ earlier) (hl : 0 ∉ l)
    (hr : (r.startCluster = 0 ∧ r.approved = 0) ∨ r.startCluster ∈ earlier) :
    match overChain (runCluster target n) data l r with
    | .inl (r', c, j, b) => c ∈ l ∧ j < n ∧ b = data c ∧
        ∃ before, before ⊆ earlier ++ l ∧ c ∉ before ∧ RunFound before target c (data c) j r'
    | .inr r' => r'.startCluster = 0 ∨ r'.startCluster ∈ earlier ++ l := by
  induction l generalizing earlier r with
  | nil =>
    rw [overChain, List.append_nil]
    exact hr.imp And.left id
  | cons c l ih =>
    have hc : c ≠ 0 := by
      rintro rfl
      exact hl (by simp)
    have hinv : RunInv earlier c (data c) 0 r := by
      rcases hr with hr | hr
      · exact Or.inl hr
      · exact Or.inr (Or.inr hr)
    have hscan := @scanFree_spec earlier target c n 0 (data c) r hc he hinv
    rw [overChain, runCluster]
    cases hres : scanFree target c (data c) n 0 r with
    | inl rj =>
      rw [hres] at hscan
      have hce : c ∉ earlier := fun hm => (List.nodup_append.mp hnd).2.2 c hm c (by simp) rfl
      exact ⟨by simp, by simpa using hscan.1, rfl, earlier, by simp, hce, hscan.2⟩
    | inr r' =>
      rw [hres] at hscan
      have hnext : (r'.startCluster = 0 ∧ r'.approved = 0) ∨ r'.startCluster ∈ earlier ++ [c] := by
        rcases hscan with h | ⟨hs, -, -⟩ | hs
        · exact Or.inl h
        · exact Or.inr (by simp [hs])
        · exact Or.inr (by simp [hs])
      have hrest := @ih (earlier ++ [c]) r' (by simpa using hnd)
        (by simpa using ⟨he, Ne.symm hc⟩) (fun h0 => hl (by simp [h0])) hnext
      rw [List.append_assoc, List.singleton_append] at hrest
      dsimp only
      cases hover : overChain (runCluster target n) data l r' with
      | inl x =>
        rw [hover] at hrest
        obtain ⟨hm, hj, hb, hbefore⟩ := hrest
        exact ⟨by simp [hm], hj, hb, hbefore⟩
      | inr r'' =>
        rw [hover] at hrest
        exact hrest

section Lfn

variable {h n c i : ℕ} {name : Name} {attributes : Byte}

def withLfn (g : Geometry) (b : Buffer) (n first last : ℕ) (name : Name) (attributes : Byte) :
    Buffer :=
  window (lfnCluster name attributes n first last b) 0 g.clusterBytes

theorem View.writeLongName_self {first last : ℕ} {b : Buffer} (hv : View g s₀ s v) (hg : g.Valid)
    (hin : g.InData c) :
    ∃ s', writeLongName s name attributes n c first c last b = some (s', .success) ∧
      View g s₀ s' (v.setData c (withLfn g b n first last name attributes)) := by
  refine ⟨_, ?_, hv.writeCluster hg hin _⟩
  rw [writeLongName, if_pos rfl]

theorem View.writeLongName_ne {d first last : ℕ} {b : Buffer} (hv : View g s₀ s v) (hg : g.Valid)
    (hin : g.InData c) (hcd : c ≠ d) :
    ∃ s', writeLongName s name attributes n c first d last b = some (s', .readError) ∧
      View g s₀ s' v := by
  obtain ⟨s', hread, hv'⟩ := hv.readCluster hg hin b
  refine ⟨s', ?_, hv'⟩
  rw [writeLongName, if_neg hcd, hread]
  rfl

theorem slot_withLfn_info {first last : ℕ} {b : Buffer} {k : ℕ} (hlast : last - first ≤ n + 1)
    (hn : 0 < n) (hn' : n < 32)
    (hk : slotKind (slot (lfnCluster name attributes n first last b) k) = .info) :
    slot (lfnCluster name attributes n first last b) k = slot b k ∨
      (firstCluster (slot (lfnCluster name attributes n first last b) k) = 0 ∧
        fileSize (slot (lfnCluster name attributes n first last b) k) = 0) := by
  rw [slot_lfnCluster hlast hn'] at hk ⊢
  split_ifs at hk ⊢ with hkl hin
  · rw [firstCluster_window, fileSize_window]
    exact Or.inr ⟨firstCluster_setInfoEntry .., fileSize_setInfoEntry ..⟩
  · rw [slotKind_window, slotKind_lfnByte _ _ _ hn hn' (by omega), lfnKind] at hk
    split_ifs at hk
  · exact Or.inl rfl

theorem Consistent.lfn_found (hc : Consistent g v o) (hin : o.InDir c) (hn : 0 < n) (hn' : n < 32)
    (hlast : i + n < g.slots) (hattr : attributes &&& 0xF ≠ 0xF)
    (hfree : ∀ k, i ≤ k → k ≤ i + n → isFree (slot (v.data c) k) = true) :
    Consistent g (v.setData c (withLfn g (v.data c) n i (i + n) name attributes)) o := by
  apply hc.setEntries hin
  · apply (hc.slots c hin).group hn hn' hlast hattr
    intro k hk hk'
    exact slotKind_eq_free.mpr (hfree k hk (by omega))
  · intro k _ hk
    exact slot_withLfn_info (by omega) hn hn' hk

/-- A long name in a new cluster. Its slots are before the entry with one slot between them, or only
the entry is there. -/
theorem Consistent.lfn_grown {z : ℕ} (hc : Consistent g v o) (hg : g.Valid) (hh : o.head h)
    (hd : o.dir h) (hn : 0 < n) (hn' : n < 32) (hfits : n + 1 ≤ g.slots)
    (hattr : attributes &&& 0xF ≠ 0xF) (hgr : Grown g v v' (h :: o.tail h) [z]) :
    Consistent g (v'.setData z (withLfn g (fun _ => 0) n 0 ((n + 1) % g.slots) name attributes))
      (o.extend h [z]) := by
  have hzero (k : ℕ) : slotKind (slot (fun _ => 0) k) = .free := slotKind_eq_free.mpr rfl
  have hle : (n + 1) % g.slots - 0 ≤ n + 1 := by
    have := Nat.mod_le (n + 1) g.slots
    omega
  apply hc.grown_entries hg hh hd hgr
  · by_cases hlt : n + 1 < g.slots
    · rw [Nat.mod_eq_of_lt hlt]
      exact slotsOk_gap hn hn' hlt hattr (fun k _ => hzero k)
    · rw [show n + 1 = g.slots by omega, Nat.mod_self]
      apply (slotsOk_of_free (fun k _ => hzero k)).fill (by omega) (hzero 0)
      exact Or.inl (slotKind_setInfoEntry _ hattr)
  · intro k _ hk
    rcases slot_withLfn_info hle hn hn' hk with hs | hs
    · rw [hs, hzero] at hk
      cases hk
    · exact hs

def freeRun (g : Geometry) (data : ℕ → Buffer) (n : ℕ) (l : List ℕ) :
    (FreeRun × ℕ × ℕ × Buffer) ⊕ FreeRun :=
  overChain (runCluster (n + 1) g.slots) data l ⟨0, 0, 0⟩

theorem Consistent.freeRun_spec (hc : Consistent g v o) (hh : o.head h) (n : ℕ) :
    match freeRun g v.data n (h :: o.tail h) with
    | .inl (r, c, j, b) => c ∈ h :: o.tail h ∧ j < g.slots ∧ b = v.data c ∧
        ((r.startCluster = c ∧ r.startIndex + n = j ∧
          ∀ k, r.startIndex ≤ k → k ≤ j → isFree (slot (v.data c) k) = true) ∨
        (r.startCluster ≠ c ∧ r.startCluster ∈ h :: o.tail h))
    | .inr r => r.startCluster = 0 ∨ r.startCluster ∈ h :: o.tail h := by
  have hch := hc.chains h hh
  have h0 : 0 ∉ h :: o.tail h := by
    intro hm
    have := (hch.inData 0 hm).1
    omega
  have hrun := @overChain_run (n + 1) g.slots v.data [] (h :: o.tail h) ⟨0, 0, 0⟩
    (by simpa using hch.chain.nodup) (by simp) h0 (Or.inl ⟨rfl, rfl⟩)
  rw [freeRun]
  cases hres : overChain (runCluster (n + 1) g.slots) v.data (h :: o.tail h) ⟨0, 0, 0⟩ with
  | inr r =>
    rw [hres] at hrun
    exact hrun
  | inl x =>
    obtain ⟨r, c, j, b⟩ := x
    rw [hres] at hrun
    obtain ⟨hm, hj, hb, before, hsub, hcb, hfound⟩ := hrun
    refine ⟨hm, hj, hb, ?_⟩
    rcases hfound with ⟨hs, hidx, hfree⟩ | hs
    · exact Or.inl ⟨hs, by omega, hfree⟩
    · refine Or.inr ⟨?_, hsub hs⟩
      rintro rfl
      exact hcb hs

theorem View.slots_eq (hv : View g s₀ s v) : s.partition.entriesPerCluster = g.slots :=
  hv.entriesPerCluster_eq

theorem View.freeRun (hv : View g s₀ s v) (hg : g.Valid) (hc : Consistent g v o) (hh : o.head h)
    (n : ℕ) : ∃ s', Fat32.readChain (runCluster (n + 1) g.slots) walkFuel s h false ⟨0, 0, 0⟩ =
      some (s', Fat32.freeRun g v.data n (h :: o.tail h)) ∧ View g s₀ s' v :=
  hc.readChain (⟨0, 0, 0⟩ : FreeRun) hg hv hh

section Allocate

variable (name attributes) (hv : View g s₀ s v) (hg : g.Valid) (hc : Consistent g v o)
    (hh : o.head h)

include hv hg hc hh

theorem View.allocateLfn_found {r : FreeRun} {j : ℕ} {b : Buffer}
    (hrun : Fat32.freeRun g v.data n (h :: o.tail h) = .inl (r, c, j, b))
    (hr : r.startCluster = c) :
    ∃ s', fat32AllocateLongFileNameEntry s h name attributes n = some (s', .success) ∧
      View g s₀ s' (v.setData c (withLfn g (v.data c) n r.startIndex j name attributes)) := by
  have hspec := hc.freeRun_spec hh n
  obtain ⟨s', hread, hv'⟩ := hv.freeRun hg hc hh n
  rw [hrun] at hspec hread
  obtain ⟨hm, -, rfl, -⟩ := hspec
  obtain ⟨s'', hwrite, hv''⟩ := hv'.writeLongName_self hg ((hc.chains h hh).inData c hm)
  refine ⟨s'', ?_, hv''⟩
  rw [fat32AllocateLongFileNameEntry, hv.slots_eq, hread, ← hwrite, ← hr]

theorem View.allocateLfn_refused {r : FreeRun}
    (hrun : (∃ c j b, Fat32.freeRun g v.data n (h :: o.tail h) = .inl (r, c, j, b) ∧
      r.startCluster ≠ c) ∨
      (Fat32.freeRun g v.data n (h :: o.tail h) = .inr r ∧ r.startCluster ≠ 0)) :
    ∃ s', fat32AllocateLongFileNameEntry s h name attributes n = some (s', .readError) ∧
      View g s₀ s' v := by
  have hspec := hc.freeRun_spec hh n
  obtain ⟨s', hread, hv'⟩ := hv.freeRun hg hc hh n
  rcases hrun with ⟨c, j, b, hrun, hr⟩ | ⟨hrun, hr⟩
  · rw [hrun] at hspec hread
    obtain ⟨-, -, -, ⟨hrc, -⟩ | ⟨-, hm⟩⟩ := hspec
    · exact absurd hrc hr
    · obtain ⟨s'', hwrite, hv''⟩ := hv'.writeLongName_ne hg ((hc.chains h hh).inData _ hm) hr
      refine ⟨s'', ?_, hv''⟩
      rw [fat32AllocateLongFileNameEntry, hv.slots_eq, hread, ← hwrite]
  · rw [hrun] at hspec hread
    have hin := (hc.chains h hh).inData _ (hspec.resolve_left hr)
    obtain ⟨s'', hwrite, hv''⟩ := hv'.writeLongName_ne hg hin hr
    refine ⟨s'', ?_, hv''⟩
    rw [fat32AllocateLongFileNameEntry, hv.slots_eq, hread]
    simp only [ne_eq, hr, not_false_eq_true, if_true]
    exact hwrite

/-- A directory without a run of free slots grows, or there is no space. The name is there when one
cluster is enough. -/
theorem View.allocateLfn_grown {r : FreeRun}
    (hrun : Fat32.freeRun g v.data n (h :: o.tail h) = .inr r) (hr : r.startCluster = 0) :
    (Refused g v h (ceilDiv (n + 1) g.slots) ∧
      ∃ s', fat32AllocateLongFileNameEntry s h name attributes n = some (s', .noEnoughSpace) ∧
        View g s₀ s' v) ∨
    (¬ Refused g v h (ceilDiv (n + 1) g.slots) ∧
      ∃ s' v' z zs, zs.length + 1 = ceilDiv (n + 1) g.slots ∧
      Grown g v v' (h :: o.tail h) (z :: zs) ∧
      ((zs = [] ∧ fat32AllocateLongFileNameEntry s h name attributes n = some (s', .success) ∧
        View g s₀ s' (v'.setData z
          (withLfn g (fun _ => 0) n 0 ((n + 1) % g.slots) name attributes))) ∨
      (zs ≠ [] ∧ fat32AllocateLongFileNameEntry s h name attributes n = some (s', .readError) ∧
        View g s₀ s' { v' with data := clearAll g v.data (z :: zs) }))) := by
  obtain ⟨s₁, hread, hv₁⟩ := hv.freeRun hg hc hh n
  rw [hrun] at hread
  have hch := hc.chains h hh
  rcases hv₁.grow hg hc.counted (Or.inr ⟨hch, rfl⟩) with
    ⟨hr', halloc⟩ | ⟨hr', s₂, v', z, zs, halloc, hz, hv₂, hgr, hlen⟩
  · refine Or.inl ⟨hr', s₁, ?_, hv₁⟩
    rw [ceilDiv] at halloc
    rw [fat32AllocateLongFileNameEntry, hv.slots_eq, hread]
    simp only [hr, ne_eq, not_true_eq_false, if_false]
    simp only [← ne_eq, halloc, if_true]
  · have hend : (h :: o.tail h ++ z :: zs).getLast (by simp) = (z :: zs).getLast (by simp) :=
      List.getLast_append_of_ne_nil _ (by simp)
    have hlast : Fat32.fat32GetLastCluster s₂ h = some ((z :: zs).getLast (by simp)) :=
      (hv₂.fat32GetLastCluster hg (hgr.chain_append hg hch)).trans (congrArg some hend)
    have hnew := hgr.chain hg
    have hfuel := hg.chain_length hnew.chain hnew.inData
    rw [List.length_cons] at hfuel
    obtain ⟨s₃, hclear, hv₃⟩ := hv₂.clearChain hg hnew (n := walkFuel) (by omega)
    have hres : fat32AllocateLongFileNameEntry s h name attributes n =
        writeLongName s₃ name attributes n z 0 ((z :: zs).getLast (by simp)) ((n + 1) % g.slots)
          (fun _ => 0) := by
      rw [ceilDiv] at halloc
      rw [fat32AllocateLongFileNameEntry, hv.slots_eq, hread]
      simp only [hr, ne_eq, not_true_eq_false, if_false]
      simp only [← ne_eq, halloc, if_neg hz, hlast, hclear]
    have hzin := hnew.inData z (by simp)
    cases zs with
    | nil =>
      obtain ⟨s₄, hwrite, hv₄⟩ := hv₃.writeLongName_self hg hzin
      refine Or.inr ⟨hr', s₄, v', z, [], hlen, hgr, Or.inl ⟨rfl, hres.trans hwrite, ?_⟩⟩
      have hclr : ({ v' with data := clearAll g v'.data [z] } : Vol) =
          v'.setData z (window (fun _ => 0) 0 g.clusterBytes) := by
        rw [Vol.setData]
        congr 1
        funext c
        rw [clearAll, Function.update_apply]
        simp
      rw [hclr, Vol.setData_setData] at hv₄
      exact hv₄
    | cons y ys =>
      have hne : z ≠ (z :: y :: ys).getLast (by simp) := by
        intro he
        have hm : z ∈ y :: ys := by
          rw [he, List.getLast_cons (by simp)]
          exact List.getLast_mem _
        exact (List.nodup_cons.mp hnew.chain.nodup).1 hm
      obtain ⟨s₄, hwrite, hv₄⟩ := hv₃.writeLongName_ne hg hzin hne
      refine Or.inr ⟨hr', s₄, v', z, y :: ys, hlen, hgr, Or.inr ⟨by simp, hres.trans hwrite, ?_⟩⟩
      rw [← hgr.data]
      exact hv₄

end Allocate

end Lfn

def Keeps (g : Geometry) (s₀ : State) (sized : Prop) (r : Option State) : Prop :=
  ∃ s' v' o', r = some s' ∧ (sized → o'.sized) ∧ View g s₀ s' v' ∧ Consistent g v' o'

/-- The longest name whose long name slots, 13 characters each, the five bits `0x1F` of the sequence
number count. -/
def maxNameLength : ℕ := 403

theorem lfnEntries_lt_of_le {len : ℕ} (h : len ≤ maxNameLength) : lfnEntries len < 32 := by
  rw [maxNameLength] at h
  rw [lfnEntries]
  split_ifs <;> omega

theorem classifyName_lt (f : ℕ → WChar) {len : ℕ} (h : len ≤ maxNameLength) :
    (classifyName f len).1 < 32 := by
  have hlong := lfnEntries_lt_of_le h
  rw [classifyName]
  dsimp only
  split_ifs
  · exact hlong
  · exact (by decide : 1 < 32)
  · exact (by decide : 0 < 32)

section AllocateEntry

variable {k : ℕ} {name : Name} {attributes : Byte} {form : ℕ × SfnFlags} {st : FatStatus}

/-- What `Fat32AllocateEntry` does in the directory `k`. `form` is the number of long name slots,
zero for a short name, and the flags of a short name. -/
inductive EntryStep (g : Geometry) (v : Vol) (o : Owners) (k : ℕ) (name : Name) (attributes : Byte)
    (form : ℕ × SfnFlags) : FatStatus → Vol → Owners → Prop
  | refused {st : FatStatus} (hst : st ≠ .success) : EntryStep g v o k name attributes form st v o
  | short {c i : ℕ} (hn : form.1 = 0) (hf : freeSlot g v.data (k :: o.tail k) = some (c, i)) :
      EntryStep g v o k name attributes form .success
        (v.setData c (withSfn g (v.data c) i name attributes form.2)) o
  | shortGrown {v' : Vol} {z : ℕ} (hn : form.1 = 0) (hf : freeSlot g v.data (k :: o.tail k) = none)
      (hgr : Grown g v v' (k :: o.tail k) [z]) :
      EntryStep g v o k name attributes form .success
        (v'.setData z (withSfn g (fun _ => 0) 0 name attributes form.2)) (o.extend k [z])
  | long {r : FreeRun} {c : ℕ} (hn : form.1 ≠ 0) (hr : r.startCluster = c)
      (hrun : freeRun g v.data form.1 (k :: o.tail k) =
        .inl (r, c, r.startIndex + form.1, v.data c)) :
      EntryStep g v o k name attributes form .success
        (v.setData c (withLfn g (v.data c) form.1 r.startIndex
        (r.startIndex + form.1) name attributes)) o
  | longGrown {r : FreeRun} {v' : Vol} {z : ℕ} (hn : form.1 ≠ 0) (hr : r.startCluster = 0)
      (hrun : freeRun g v.data form.1 (k :: o.tail k) = .inr r) (hfits : form.1 + 1 ≤ g.slots)
      (hgr : Grown g v v' (k :: o.tail k) [z]) :
      EntryStep g v o k name attributes form .success (v'.setData z
        (withLfn g (fun _ => 0) form.1 0 ((form.1 + 1) % g.slots) name attributes)) (o.extend k [z])
  | cleared {v' : Vol} {z : ℕ} {zs : List ℕ} (hgr : Grown g v v' (k :: o.tail k) (z :: zs)) :
      EntryStep g v o k name attributes form .readError
        { v' with data := clearAll g v.data (z :: zs) }
        (o.extend k (z :: zs))

theorem EntryStep.sized (h : EntryStep g v o k name attributes form st v' o') :
    o'.sized = o.sized := by
  cases h <;> rfl

theorem EntryStep.consistent (h : EntryStep g v o k name attributes form st v' o') (hg : g.Valid)
    (hc : Consistent g v o) (hh : o.head k) (hd : o.dir k) (hattr : attributes &&& 0xF ≠ 0xF)
    (hlt : form.1 < 32) : Consistent g v' o' := by
  cases h with
  | refused => exact hc
  | short _ hf => exact hc.sfn_found hh hd hattr hf
  | shortGrown _ _ hgr => exact hc.sfn_grown hg hh hd hattr hgr
  | @long r _ hn hr hrun =>
    have hspec := hc.freeRun_spec hh form.1
    rw [hrun] at hspec
    obtain ⟨hm, hj, -, ⟨-, -, hfree⟩ | ⟨hne, -⟩⟩ := hspec
    · exact hc.lfn_found ⟨k, hh, hd, hm⟩ (Nat.pos_of_ne_zero hn) hlt hj hattr hfree
    · exact absurd hr hne
  | longGrown hn _ _ hfits hgr =>
    exact hc.lfn_grown hg hh hd (Nat.pos_of_ne_zero hn) hlt hfits hattr hgr
  | cleared hgr =>
    apply hc.extend_cleared hg hh hgr
    · intro c hcz
      rw [clearAll, if_neg hcz]
    · intro c hcz
      rw [clearAll, if_pos hcz]
      exact allFree_zero g

variable (name attributes) (hv : View g s₀ s v) (hg : g.Valid) (hc : Consistent g v o)
    (hh : o.head k)

include hv hg hc hh

theorem View.allocateLfn_step (hn : form.1 ≠ 0) : ∃ s' st v' o',
    fat32AllocateLongFileNameEntry s k name attributes form.1 = some (s', st) ∧ View g s₀ s' v' ∧
      EntryStep g v o k name attributes form st v' o' := by
  have hspec := hc.freeRun_spec hh form.1
  cases hrun : Fat32.freeRun g v.data form.1 (k :: o.tail k) with
  | inl x =>
    obtain ⟨r, c, j, b⟩ := x
    rw [hrun] at hspec
    obtain ⟨-, -, rfl, ⟨hr, rfl, -⟩ | ⟨hr, -⟩⟩ := hspec
    · obtain ⟨s', hs', hv'⟩ := hv.allocateLfn_found name attributes hg hc hh hrun hr
      exact ⟨s', _, _, o, hs', hv', .long hn hr hrun⟩
    · obtain ⟨s', hs', hv'⟩ :=
        hv.allocateLfn_refused name attributes hg hc hh (Or.inl ⟨c, j, _, hrun, hr⟩)
      exact ⟨s', _, v, o, hs', hv', .refused (by decide)⟩
  | inr r =>
    by_cases hr : r.startCluster = 0
    · rcases hv.allocateLfn_grown name attributes hg hc hh hrun hr with
        ⟨-, s', hs', hv'⟩ | ⟨-, s', v', z, zs, hlen, hgr, ⟨rfl, hs', hv'⟩ | ⟨-, hs', hv'⟩⟩
      · exact ⟨s', _, v, o, hs', hv', .refused (by decide)⟩
      · refine ⟨s', _, _, _, hs', hv', .longGrown hn hr hrun ?_ hgr⟩
        by_contra hlt
        rw [ceilDiv, List.length_nil] at hlen
        have hpos : 1 ≤ (form.1 + 1) / g.slots := (Nat.one_le_div_iff (by
          have := hg.clusterSize
          rw [Geometry.slots]
          omega)).mpr (by omega)
        split_ifs at hlen with hmod
        · omega
        · have := Nat.div_add_mod (form.1 + 1) g.slots
          rw [show (form.1 + 1) / g.slots = 1 by omega, Nat.mul_one] at this
          omega
      · exact ⟨s', _, _, _, hs', hv', .cleared hgr⟩
    · obtain ⟨s', hs', hv'⟩ := hv.allocateLfn_refused name attributes hg hc hh (Or.inr ⟨hrun, hr⟩)
      exact ⟨s', _, v, o, hs', hv', .refused (by decide)⟩

theorem View.allocateSfn_step (hn : form.1 = 0) : ∃ s' st v' o',
    fat32AllocateSfnEntry s k name attributes form.2 = some (s', st) ∧ View g s₀ s' v' ∧
      EntryStep g v o k name attributes form st v' o' := by
  cases hf : freeSlot g v.data (k :: o.tail k) with
  | some ci =>
    obtain ⟨s', hs', hv'⟩ := hv.allocateSfn_found hg hc hh hf
    exact ⟨s', _, _, o, hs', hv', .short hn hf⟩
  | none =>
    rcases hv.allocateSfn_grown hg hc hh hf with ⟨-, s', hs', hv'⟩ | ⟨-, s', v', z, hs', hgr, hv'⟩
    · exact ⟨s', _, v, o, hs', hv', .refused (by decide)⟩
    · exact ⟨s', _, _, _, hs', hv', .shortGrown hn hf hgr⟩

theorem View.allocateEntry_step :
    ∃ s' st v' o', fat32AllocateEntry s k name attributes = some (s', st) ∧
    View g s₀ s' v' ∧
      EntryStep g v o k name attributes (classifyName s.entryName name.length) st v' o' := by
  rw [fat32AllocateEntry]
  by_cases hnil : name = []
  · rw [if_pos hnil]
    exact ⟨s, _, v, o, rfl, hv, .refused (by decide)⟩
  · rw [if_neg hnil]
    by_cases hn : (classifyName s.entryName name.length).1 = 0
    · simp only [hn, ne_eq, not_true_eq_false, if_false]
      exact hv.allocateSfn_step name attributes hg hc hh hn
    · simp only [ne_eq, hn, not_false_eq_true, if_true]
      exact hv.allocateLfn_step name attributes hg hc hh hn

end AllocateEntry

theorem View.setEntryName (hv : View g s₀ s v) (name : Name) :
    View g s₀ (s.setEntryName name) { v with entryName := (s.setEntryName name).entryName } :=
  ⟨hv.boot, hv.secondaryFsInfo, rfl, hv.free, hv.fat, hv.data, hv.cache, hv.mirror, hv.fsInfo,
    hv.writes⟩

theorem Leads.same {k : ℕ} {names : List Name} (hl : Leads g v o rootDirStart names k)
    (hc : Consistent g v o)
    (ho : ∀ j, o.head j → o.dir j → o'.head j ∧ o'.dir j ∧ o'.tail j = o.tail j)
    (hdata : ∀ c, o.InDir c → v'.data c = v.data c) : Leads g v' o' rootDirStart names k := by
  apply hl.congr hc.root hc.rootDir hc ho
  intro c hin i _
  rw [hdata c hin]
  exact Or.inl rfl

theorem View.link {k c i z : ℕ} {zs : List ℕ} {d : Prop} {parents : List Name} {name path : Name}
    (hv : View g s₀ s v') (hg : g.Valid) (hc : Consistent g v o)
    (hc' : Consistent g v' (o.add z zs d)) (hz : ¬ o.head z)
    (hfresh : ∀ c i, InfoAt g v' (o.add z zs d) c i → firstCluster (slot (v'.data c) i) ≠ z)
    (hdata : ∀ c, o.InDir c → v'.data c = v.data c) (hl : Leads g v o rootDirStart parents k)
    (hk : locate g v.data name (k :: o.tail k) = some (c, i))
    (h0 : firstCluster (slot (v.data c) i) = 0) (hd : d ↔ isDirectory (slot (v.data c) i) = true)
    (hp : entriesOf path = parents ++ [name]) :
    ∃ s', fat32EditFile s path editCluster 0 z = some (s', true) ∧
      View g s₀ s' (v'.edit g editCluster 0 z c i) ∧
      Consistent g (v'.edit g editCluster 0 z c i) (o.add z zs d) ∧
      Leads g (v'.edit g editCluster 0 z c i) (o.add z zs d) rootDirStart parents k ∧
      locate g (v'.edit g editCluster 0 z c i).data name (k :: (o.add z zs d).tail k) =
        some (c, i) ∧
      slot ((v'.edit g editCluster 0 z c i).data c) i =
        window (editCluster.apply 0 z (slot (v.data c) i)) 0 32 := by
  have hne (j : ℕ) (hj : o.head j) : j ≠ z := by
    rintro rfl
    exact hz hj
  obtain ⟨hkh, hkd⟩ := hl.head hc.root hc.rootDir
  have hinfo := hc.infoAt hkh hkd hk
  have hl' : Leads g v' (o.add z zs d) rootDirStart parents k := by
    apply hl.same hc _ hdata
    intro j hj hjd
    rw [Owners.add_dir_of_ne (hne j hj), Owners.add_tail_of_ne (hne j hj)]
    exact ⟨Or.inr hj, hjd, rfl⟩
  have hk' : locate g v'.data name (k :: (o.add z zs d).tail k) = some (c, i) := by
    rw [Owners.add_tail_of_ne (hne k hkh), ← hk]
    apply locate_congr
    intro b hb j _
    rw [hdata b ⟨k, hkh, hkd, hb⟩]
    exact Or.inl rfl
  have hzlt : z < 2 ^ 32 := by
    have := ((hc'.chains z (Or.inl rfl)).inData z (by simp)).2
    have := hg.numClusters_lt
    rw [endOfChain] at this
    omega
  have hfc : firstCluster (editCluster.apply 0 z (slot (v.data c) i)) = z :=
    firstCluster_editCluster hzlt
  have hedit : editCluster.AttributesOk 0 (slot (v.data c) i) := fun h => by cases h
  have hsame := sameName_apply z (isLfn_of_info hinfo.info) hedit
  have hdir : isDirectory (editCluster.apply 0 z (slot (v.data c) i)) =
      isDirectory (slot (v.data c) i) := by
    rw [← isDirectory_window, hsame.isDirectory]
  have hentry : EntryOk g (o.add z zs d) (editCluster.apply 0 z (slot (v.data c) i)) := by
    rw [EntryOk, hfc, hdir, fileSize_editCluster, Owners.add_dir_self]
    refine Or.inr ⟨Or.inl rfl, ?_, hd, ?_⟩
    · rintro rfl
      exact hz hc.root
    · intro _ hnd
      rcases hc.entries c i hinfo with ⟨-, hsize⟩ | ⟨hh, -⟩
      · rw [hsize hnd]
        exact Nat.zero_le _
      · exact absurd h0 (hc.head_ne_zero hh)
  have hcdata := hdata c hinfo.inDir
  have hpath := hv.edit_path editCluster 0 z hg hc' hl' hk' hp (fun h => by cases h)
    (Or.inr (Or.inl rfl))
  rw [hcdata, hfc, h0] at hpath
  exact hpath hentry (Or.inr ⟨rfl, hfresh⟩)

/-- The entry of a directory without clusters gets the first cluster `z`, where all slots are
free. -/
structure DirLinked (g : Geometry) (v v' : Vol) (o : Owners) (z : ℕ) : Prop where
  fresh : ¬ o.head z
  free : AllFree g (v'.data z)
  slots : ∀ c, o.InDir c → ∀ i < g.slots, slot (v'.data c) i = slot (v.data c) i ∨
    (slotKind (slot (v.data c) i) = .info ∧ isDirectory (slot (v.data c) i) = true ∧
      firstCluster (slot (v.data c) i) = 0 ∧
      slot (v'.data c) i = window (editCluster.apply 0 z (slot (v.data c) i)) 0 32)

/-- The first cluster of an empty directory: the entry points to it, and the path leads to it. -/
theorem View.link_directory {k c i z : ℕ} {parents : List Name} {name : Name} (hv : View g s₀ s v')
    (hg : g.Valid) (hc : Consistent g v o) (hl : Leads g v o rootDirStart parents k)
    (hk : locate g v.data name (k :: o.tail k) = some (c, i))
    (hdir : isDirectory (slot (v.data c) i) = true) (h0 : firstCluster (slot (v.data c) i) = 0)
    (hnames : ∀ n ∈ parents ++ [name], ValidName n) (hgr : Grown g v v' [] [z]) :
    ∃ s' v'', fat32EditFile (fat32WriteCluster s z (fun _ => 0)) (resultPath (parents ++ [name]))
        editCluster 0 z = some (s', true) ∧ View g s₀ s' v'' ∧
      Consistent g v'' (o.add z [] True) ∧ DirLinked g v v'' o z ∧
      Leads g v'' (o.add z [] True) rootDirStart (parents ++ [name]) z := by
  have hzin := hgr.inData z (by simp)
  have hw := hv.writeCluster hg hzin (fun _ => 0)
  rw [hgr.data] at hw
  have hother (b : ℕ) (hb : b ≠ z) :
      Function.update v.data z (window (fun _ => 0) 0 g.clusterBytes) b = v.data b :=
    Function.update_of_ne hb ..
  obtain ⟨hc', hz, hfresh⟩ := hc.add_cleared hg hgr (fun b hb => hother b (by simpa using hb))
    (fun b hb => by rw [List.mem_singleton.mp hb, Function.update_self]; exact allFree_zero g)
  have hdata (b : ℕ) (hb : o.InDir b) :
      Function.update v.data z (window (fun _ => 0) 0 g.clusterBytes) b = v.data b := by
    apply hother
    rintro rfl
    obtain ⟨j, hj, -, hm⟩ := hb
    exact hc.not_head_mem hgr hj (by simp) hm
  obtain ⟨s', hrun, hv'', hc'', hl'', hk'', hslot⟩ := hw.link hg hc hc' hz hfresh hdata hl hk h0
    ⟨fun _ => hdir, fun _ => trivial⟩ (entriesOf_resultPath hnames)
  obtain ⟨hkh, hkd⟩ := hl.head hc.root hc.rootDir
  have hinfo := hc.infoAt hkh hkd hk
  refine ⟨s', _, hrun, hv'', hc'', ⟨hz, ?_, ?_⟩, ?_⟩
  · have hzc : z ≠ c := by
      rintro rfl
      obtain ⟨j, hj, -, hm⟩ := hinfo.inDir
      exact hc.not_head_mem hgr hj (by simp) hm
    rw [Vol.edit, Vol.setData_of_ne hzc]
    change AllFree g (Function.update v.data z _ z)
    rw [Function.update_self]
    exact allFree_zero g
  · intro d hd j hj
    by_cases hdc : d = c
    · subst hdc
      rw [Vol.edit, Vol.setData_self, slot_edited hj]
      split_ifs with hji
      · subst hji
        exact Or.inr ⟨hinfo.info, hdir, h0,
          congrArg (fun b => window (editCluster.apply 0 z (slot b j)) 0 32) (hdata d hd)⟩
      · exact Or.inl (congrArg (slot · j) (hdata d hd))
    · rw [Vol.edit, Vol.setData_of_ne hdc]
      exact Or.inl (congrArg (slot · j) (hdata d hd))
  have hfc := congrArg firstCluster hslot
  rw [firstCluster_window, firstCluster_editCluster] at hfc
  · have hsnoc := hl''.snoc hk'' (by rw [hfc]; exact Or.inl rfl)
      (by rw [hfc, Owners.add_dir_self]; trivial)
    rw [hfc] at hsnoc
    exact hsnoc
  · have := hzin.2
    have := hg.numClusters_lt
    rw [endOfChain] at this
    omega

/-- The condition of the last entry of a path, when the directories on the way have clusters. -/
def lastEntry (q : State → ℕ → Name → Bool) : List Name → State → ℕ → Bool
  | [], _, _ => true
  | name :: names, s, cluster =>
    let s := s.setEntryName name
    if names = [] then q s cluster name
    else
      match fat32FindEntry s name cluster with
      | some (s, some e) =>
        !isDirectory e || firstCluster e == 0 || lastEntry q names s (firstCluster e)
      | _ => true

theorem lastEntry_true (names : List Name) (s : State) (cluster : ℕ) :
    lastEntry (fun _ _ _ => true) names s cluster = true := by
  induction names generalizing s cluster with
  | nil => rfl
  | cons name names ih =>
    rw [lastEntry]
    split_ifs
    · rfl
    · split
      · rw [ih, Bool.or_true]
      · rfl

def Vacant (g : Geometry) (v : Vol) (o : Owners) (k : ℕ) : Prop :=
  o.tail k = [] ∧ AllFree g (v.data k)

theorem findSlot_free {b : Buffer} {n x : ℕ} {name : Name}
    (h : ∀ i, x ≤ i → i < x + n → isFree (slot b i) = true) (mode : ParseMode) :
    findSlot name b n x mode = none := by
  induction n generalizing x with
  | zero => rfl
  | succ n ih =>
    have hx := h x (Nat.le_refl x) (by omega)
    have hrest : findSlot name b n (x + 1) mode = none :=
      ih fun i hi hlt => h i (by omega) (by omega)
    rw [isFree, Bool.or_eq_true, beq_iff_eq, beq_iff_eq] at hx
    rw [findSlot]
    split_ifs with h0 hE5
    · rfl
    · exact hrest
    · exact absurd (hx.resolve_left h0) hE5

theorem Vacant.locate {k : ℕ} (h : Vacant g v o k) (name : Name) :
    locate g v.data name (k :: o.tail k) = none := by
  rw [h.1, Fat32.locate, findSlot_free fun i _ hi => slotKind_eq_free.mp (h.2 i (by omega))]
  rfl

section CreateFile

variable {attributes : Byte} {path parents names : List Name} {k : ℕ} {P : Vol → Owners → Prop}
  {R : FatStatus → Vol → Owners → Prop} {q : State → ℕ → Name → Bool}

/-- What `Fat32CreateFile` does with an entry of the path that is not the last one: it ends, or it
goes on in the directory of the entry, which gets its first cluster when it has none. -/
inductive CreateStep (g : Geometry) (s₀ : State) (v : Vol) (o : Owners) (attributes : Byte)
    (parents names : List Name) (name : Name) (s : State) (k : ℕ) : Prop
  | missing {s₂ : State} (hv : View g s₀ s₂ v)
      (hfind : fat32FindEntry (s.setEntryName name) name k = some (s₂, none))
      (hrun : createFile attributes parents (name :: names) s k = some (s₂, .notFound))
  | noDirectory {s₂ : State} {e : Buffer} (hv : View g s₀ s₂ v)
      (hfind : fat32FindEntry (s.setEntryName name) name k = some (s₂, some e))
      (hdir : isDirectory e = false)
      (hrun : createFile attributes parents (name :: names) s k = some (s₂, .notFound))
  | full {s₂ : State} {e : Buffer} (hv : View g s₀ s₂ v)
      (hfind : fat32FindEntry (s.setEntryName name) name k = some (s₂, some e))
      (hdir : isDirectory e = true) (h0 : firstCluster e = 0)
      (halloc : fat32AllocateClusterChain s₂ 0 1 = some (s₂, 0))
      (hfree : s₂.partition.fsInfo.freeClusters = 0)
      (hrun : createFile attributes parents (name :: names) s k = some (s₂, .noEnoughSpace))
  | existing {s₂ : State} {e : Buffer} (hv : View g s₀ s₂ v)
      (hfind : fat32FindEntry (s.setEntryName name) name k = some (s₂, some e))
      (hloc : locate g v.data name (k :: o.tail k) ≠ none)
      (hdir : isDirectory e = true) (h0 : firstCluster e ≠ 0)
      (hl : Leads g v o rootDirStart (parents ++ [name]) (firstCluster e))
      (hrun : createFile attributes parents (name :: names) s k =
        createFile attributes (parents ++ [name]) names s₂ (firstCluster e))
  | linked {s₂ s₃ s₄ : State} {e : Buffer} {v₄ : Vol} {z : ℕ} (hv : View g s₀ s₂ v)
      (hfind : fat32FindEntry (s.setEntryName name) name k = some (s₂, some e))
      (hdir : isDirectory e = true) (h0 : firstCluster e = 0)
      (halloc : fat32AllocateClusterChain s₂ 0 1 = some (s₃, z)) (hz : z ≠ 0)
      (hfree : 0 < s₂.partition.fsInfo.freeClusters)
      (hedit : fat32EditFile (fat32WriteCluster s₃ z fun _ => 0) (resultPath (parents ++ [name]))
        editCluster 0 z = some (s₄, true))
      (hv₄ : View g s₀ s₄ v₄) (hc₄ : Consistent g v₄ (o.add z [] True))
      (hlinked : DirLinked g v v₄ o z)
      (hl₄ : Leads g v₄ (o.add z [] True) rootDirStart (parents ++ [name]) z)
      (hrun : createFile attributes parents (name :: names) s k =
        createFile attributes (parents ++ [name]) names s₄ z)

theorem View.createFile_step (attributes : Byte) {name : Name} (hv : View g s₀ s v) (hg : g.Valid)
    (hc : Consistent g v o) (hl : Leads g v o rootDirStart parents k) (hlast : names ≠ [])
    (hvalid : ∀ n ∈ parents ++ [name], ValidName n) :
    CreateStep g s₀ { v with entryName := (s.setEntryName name).entryName } o attributes parents
      names name s k := by
  have hv₁ := hv.setEntryName name
  have hc₁ : Consistent g { v with entryName := (s.setEntryName name).entryName } o :=
    hc.congr rfl rfl fun _ _ => rfl
  have hl₁ : Leads g { v with entryName := (s.setEntryName name).entryName } o rootDirStart
      parents k := hl.same hc (fun j h1 h2 => ⟨h1, h2, rfl⟩) fun _ _ => rfl
  obtain ⟨hkh, hkd⟩ := hl.head hc.root hc.rootDir
  obtain ⟨s₂, hfind, hv₂⟩ := hv₁.fat32FindEntry hg hc₁ hkh (hvalid name (by simp)).ne_nil
  cases hloc : locate g v.data name (k :: o.tail k) with
  | none =>
    rw [hloc, Option.map_none] at hfind
    exact .missing hv₂ hfind (by simp only [createFile, if_neg hlast, hfind])
  | some ci =>
    obtain ⟨c, i⟩ := ci
    have hinfo := hc₁.infoAt hkh hkd hloc
    rw [hloc, Option.map_some] at hfind
    dsimp only at hfind
    cases hdir : isDirectory (slot (v.data c) i) with
    | false => exact .noDirectory hv₂ hfind hdir (by simp [createFile, hlast, hfind, hdir])
    | true =>
      by_cases h0 : firstCluster (slot (v.data c) i) = 0
      · rcases hv₂.grow (n := 1) hg hc₁.counted (Or.inl ⟨rfl, rfl⟩) with
          ⟨hr, halloc⟩ | ⟨hr, s₃, v₃, z, zs, halloc, hz, hv₃, hgr, hzs⟩
        · refine .full hv₂ hfind hdir h0 halloc ?_
            (by simp [createFile, hlast, hfind, hdir, h0, halloc])
          rw [Refused] at hr
          rw [hv₂.free]
          omega
        · have hnil : zs = [] := List.eq_nil_of_length_eq_zero (by omega)
          subst hnil
          obtain ⟨s₄, v₄, hedit, hv₄, hc₄, hlinked, hl₄⟩ :=
            hv₃.link_directory hg hc₁ hl₁ hloc hdir h0 hvalid hgr
          refine .linked hv₂ hfind hdir h0 halloc hz ?_ hedit hv₄ hc₄ hlinked hl₄
            (by simp only [createFile, if_neg hlast, hfind, hdir, h0, halloc, if_neg hz, hedit,
              not_true_eq_false, ne_eq, if_false])
          rw [Refused] at hr
          rw [hv₂.free]
          omega
      · rcases hc₁.entries c i hinfo with ⟨hfc, -⟩ | ⟨hh, -, hd, -⟩
        · exact absurd hfc h0
        · exact .existing hv₂ hfind (by rw [hloc]; exact Option.some_ne_none _) hdir h0
            (hl₁.snoc hloc hh (hd.mpr hdir)) (by simp [createFile, hlast, hfind, hdir, h0])

theorem lastEntry_existing {name : Name} {s₂ : State} {e : Buffer} (hlast : names ≠ [])
    (hfind : fat32FindEntry (s.setEntryName name) name k = some (s₂, some e))
    (hdir : isDirectory e = true) (h0 : firstCluster e ≠ 0) :
    lastEntry q (name :: names) s k = lastEntry q names s₂ (firstCluster e) := by
  simp [lastEntry, hlast, hfind, hdir, h0]

/-- What holds of the volume before `Fat32CreateFile` and is kept by a new first cluster of a
directory holds before its `Fat32AllocateEntry`. -/
theorem View.createFile_rule (hg : g.Valid) (hfail : ∀ {st v o}, st ≠ .success → P v o → R st v o)
    (hset : ∀ {v o} f, P v o → P { v with entryName := f } o)
    (hlink : ∀ {v v' o z}, Consistent g v o → P v o → DirLinked g v v' o z → P v' (o.add z [] True))
    (hentry : ∀ {s v o parents name k st v' o'}, parents ++ [name] = path → View g s₀ s v →
      Consistent g v o → P v o → Leads g v o rootDirStart parents k →
      (q s k name = true ∨ Vacant g v o k) →
      EntryStep g v o k name attributes (classifyName s.entryName name.length) st v' o' →
      Consistent g v' o' → R st v' o')
    (hv : View g s₀ s v) (hc : Consistent g v o) (hP : P v o)
    (hl : Leads g v o rootDirStart parents k) (hpath : parents ++ names = path)
    (hvalid : ∀ n ∈ path, ValidName n) (hattr : attributes &&& 0xF ≠ 0xF)
    (hlen : ∀ n, path.getLast? = some n → n.length ≤ maxNameLength)
    (hq : lastEntry q names s k = true ∨ Vacant g v o k) :
    ∃ s' st v' o', createFile attributes parents names s k = some (s', st) ∧ (o.sized → o'.sized) ∧
      View g s₀ s' v' ∧ Consistent g v' o' ∧ R st v' o' := by
  -- over the entries of the path, with the directory that the ones before lead to
  induction names generalizing parents s v o k with
  | nil => exact ⟨s, _, v, o, rfl, id, hv, hc, hfail (by decide) hP⟩
  | cons name names ih =>
    have hv₁ := hv.setEntryName name
    have hc₁ : Consistent g { v with entryName := (s.setEntryName name).entryName } o :=
      hc.congr rfl rfl (fun _ _ => rfl)
    have hP₁ := hset (s.setEntryName name).entryName hP
    have hl₁ : Leads g { v with entryName := (s.setEntryName name).entryName } o rootDirStart
        parents k := hl.same hc (fun j h1 h2 => ⟨h1, h2, rfl⟩) (fun _ _ => rfl)
    obtain ⟨hkh, hkd⟩ := hl.head hc.root hc.rootDir
    by_cases hlast : names = []
    · subst hlast
      rw [lastEntry, if_pos rfl] at hq
      rw [createFile, if_pos rfl]
      obtain ⟨s', st, v', o', hrun, hv', hstep⟩ := hv₁.allocateEntry_step name attributes hg hc₁ hkh
      have hc' := hstep.consistent hg hc₁ hkh hkd hattr
        (classifyName_lt _ (hlen name (by simp [← hpath])))
      exact ⟨s', st, v', o', hrun, by rw [hstep.sized]; exact id, hv', hc',
        hentry hpath hv₁ hc₁ hP₁ hl₁ hq hstep hc'⟩
    · have hpath' : (parents ++ [name]) ++ names = path := by simpa using hpath
      have hvalid' : ∀ n ∈ parents ++ [name], ValidName n := fun n hn =>
        hvalid n (by rw [← hpath']; exact List.mem_append_left _ hn)
      cases hv.createFile_step attributes hg hc hl hlast hvalid' with
      | missing hv₂ _ hrun => exact ⟨_, _, _, o, hrun, id, hv₂, hc₁, hfail (by decide) hP₁⟩
      | noDirectory hv₂ _ _ hrun => exact ⟨_, _, _, o, hrun, id, hv₂, hc₁, hfail (by decide) hP₁⟩
      | full hv₂ _ _ _ _ _ hrun => exact ⟨_, _, _, o, hrun, id, hv₂, hc₁, hfail (by decide) hP₁⟩
      | existing hv₂ hfind hloc hdir h0 hl' hrun =>
        rw [hrun]
        refine ih hv₂ hc₁ hP₁ hl' hpath' (Or.inl ?_)
        rcases hq with hq | hvac
        · rw [← lastEntry_existing hlast hfind hdir h0]
          exact hq
        · exact absurd (hvac.locate name) hloc
      | linked _ _ _ _ _ _ _ _ hv₄ hc₄ hlinked hl₄ hrun =>
        rw [hrun]
        have hrest := ih hv₄ hc₄ (hlink hc₁ hP₁ hlinked) hl₄ hpath'
          (Or.inr ⟨Owners.add_tail_self, hlinked.free⟩)
        exact hrest

theorem View.createFile_keeps (hv : View g s₀ s v) (hg : g.Valid) (hc : Consistent g v o)
    (hl : Leads g v o rootDirStart parents k) (hvalid : ∀ n ∈ parents ++ names, ValidName n)
    (hattr : attributes &&& 0xF ≠ 0xF)
    (hlen : ∀ n, (parents ++ names).getLast? = some n → n.length ≤ maxNameLength) :
    Keeps g s₀ o.sized ((createFile attributes parents names s k).map Prod.fst) := by
  obtain ⟨s', st, v', o', hrun, hsized, hv', hc', -⟩ := View.createFile_rule (P := fun _ _ => True)
    (R := fun _ _ _ => True) hg (fun _ _ => trivial) (fun _ _ => trivial) (fun _ _ _ => trivial)
    (fun _ _ _ _ _ _ _ _ => trivial) hv hc trivial hl rfl hvalid hattr hlen
    (Or.inl (lastEntry_true names s k))
  exact ⟨s', v', o', by rw [hrun]; rfl, hsized, hv', hc'⟩

end CreateFile

end DevOs.Fat32
