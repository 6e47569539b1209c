import DevOs.Fat32.Lockstep
import DevOs.Fat32.ShortNames
import DevOs.Fat32.Status
import DevOs.Fat32.Tidy

/-!
# What an earlier name leaves behind

`Fat32CreateFile` copies the last entry of the path to `EntryName`, and the choice between a short
and a long name reads behind its end. Two runs from the same drive therefore need not create the
same entry: they do when the choice is the same for both contents of the array. When there is no
room for an entry the choice does not matter.
-/

namespace DevOs.Fat32

open Bytes Chains

variable {g : Geometry} {s₀ t₀ s t s₁ s₂ : State} {v v' w w' v₁ v₂ : Vol} {o o₁ o₂ : Owners}
    {e f : ℕ → WChar}
  {k c z n : ℕ} {l : List ℕ} {name : Name} {names parents : List Name} {attributes : Byte}
    {φ ψ : ℕ × SfnFlags}

theorem View.same_disk (h₁ : View g s₀ s₁ v₁) (h₂ : View g t₀ s₂ v₂) (hd : s₂.disk = s₁.disk) :
    (∀ c < g.fatEntries, v₂.fat c = v₁.fat c) ∧ ∀ c, g.InData c → v₂.data c = v₁.data c := by
  have hboot : s₂.partition.boot = s₁.partition.boot := h₂.boot.trans h₁.boot.symm
  constructor
  · intro c hc
    rw [← h₁.fat c hc, ← h₂.fat c hc, State.fat, State.fat, hd, Partition.primaryFat,
      Partition.primaryFat, hboot]
  · intro c hc
    rw [← h₁.data c hc, ← h₂.data c hc, State.data, State.data, State.read, State.read, hd,
      Partition.clusterSector, Partition.clusterSector, hboot]

theorem Grown.cluster_eq {z' : ℕ} (h : Grown g v v' l [z]) (h' : Grown g w w' l [z'])
    (hfat : w.fat = v.fat) :
    z' = z := by
  have hz := h.appended.zero z (List.mem_singleton_self z)
  have hz' := h'.appended.zero z' (List.mem_singleton_self z')
  rw [hfat] at hz'
  by_contra hne
  have hlt := h.appended.lowest z' hz' (by simpa using hne) z (List.mem_singleton_self z)
  have hlt' := h'.appended.lowest z (by rw [hfat]; exact hz) (by simpa using Ne.symm hne) z'
    (List.mem_singleton_self z')
  omega

theorem Grown.fat_ne (h : Grown g v v' l [z]) (hg : g.Valid) : v'.fat z ≠ v.fat z := by
  have hchain := (h.chain hg).fat_ne_zero z (List.mem_singleton_self z)
  rw [h.appended.zero z (List.mem_singleton_self z)]
  exact hchain

theorem flags_eq_of_withSfn {b : Buffer} {i : ℕ} {flags flags' : SfnFlags} (hi : i < g.slots)
    (h : withSfn g b i name attributes flags = withSfn g b i name attributes flags') :
    flags = flags' := by
  have hslot := congrArg (fun b => slot b i 12) h
  rw [slot_withSfn hi, slot_withSfn hi, window_apply (by decide), window_apply (by decide)] at hslot
  obtain ⟨hn, he⟩ := @setSfnEntry_flags name attributes flags
  obtain ⟨hn', he'⟩ := @setSfnEntry_flags name attributes flags'
  rw [hslot, hn'] at hn
  rw [hslot, he'] at he
  obtain ⟨lower, extLower⟩ := flags
  obtain ⟨lower', extLower'⟩ := flags'
  cases hn
  cases he
  rfl

theorem slot_withLfn_last {b : Buffer} {first last : ℕ} (hlast : last < g.slots)
    (hn : last - first ≤ n + 1) (hn' : n < 32) :
    isFree (slot (withLfn g b n first last name attributes) last) = false := by
  rw [withLfn, g.clusterBytes_eq, slot_window hlast, slot_lfnCluster hn hn', if_pos rfl, isFree,
    window_apply (by decide), setInfoEntry_first]
  rfl

section Steps

variable (h₁ : EntryStep g v o k name attributes φ .success v₁ o₁)
  (h₂ : EntryStep g w o k name attributes ψ .success v₂ o₂) (hwf : w.fat = v.fat)
    (hwd : w.data = v.data)
  (hg : g.Valid) (hc : Consistent g v o) (hh : o.head k)
    (hfat : ∀ c < g.fatEntries, v₂.fat c = v₁.fat c)
  (hdata : ∀ c, g.InData c → v₂.data c = v₁.data c)

include h₁ h₂ hwf hwd hg hc hh hfat hdata

theorem EntryStep.flags_eq (hφ : φ.1 = 0) (hψ : ψ.1 = 0) : φ.2 = ψ.2 := by
  have hpos := hg.slots_pos
  cases h₁ with
  | refused hst => exact absurd rfl hst
  | long hn => exact absurd hφ hn
  | longGrown hn => exact absurd hφ hn
  | @short c i _ hf =>
    cases h₂ with
    | refused hst => exact absurd rfl hst
    | long hn => exact absurd hψ hn
    | longGrown hn => exact absurd hψ hn
    | short _ hf' =>
      rw [hwd, hf] at hf'
      cases hf'
      obtain ⟨hm, hfree⟩ := freeSlot_mem hf
      obtain ⟨-, hi, -, -⟩ := firstFree_some hfree
      have hsame := hdata c ((hc.chains k hh).inData c hm)
      rw [Vol.setData_self, Vol.setData_self, hwd] at hsame
      exact (flags_eq_of_withSfn (by omega) hsame).symm
    | shortGrown _ hf' =>
      rw [hwd, hf] at hf'
      cases hf'
  | @shortGrown v' z _ hf hgr =>
    cases h₂ with
    | refused hst => exact absurd rfl hst
    | long hn => exact absurd hψ hn
    | longGrown hn => exact absurd hψ hn
    | short _ hf' =>
      rw [hwd, hf] at hf'
      cases hf'
    | shortGrown _ _ hgr' =>
      cases hgr.cluster_eq hgr' hwf
      have hsame := hdata z (hgr.inData z (List.mem_singleton_self z))
      rw [Vol.setData_self, Vol.setData_self] at hsame
      exact (flags_eq_of_withSfn hpos hsame).symm

theorem EntryStep.not_long (hφ : φ.1 = 0) (hψ : ψ.1 = 1) : False := by
  have hslots : 16 ≤ g.slots := by
    have := hg.clusterSize
    rw [Geometry.slots]
    omega
  have hψ' : ψ.1 ≠ 0 := by omega
  cases h₁ with
  | refused hst => exact absurd rfl hst
  | long hn => exact absurd hφ hn
  | longGrown hn => exact absurd hφ hn
  | @short c i _ hf =>
    obtain ⟨hm, hfirst⟩ := freeSlot_mem hf
    obtain ⟨-, hi, -, hbefore⟩ := firstFree_some hfirst
    cases h₂ with
    | refused hst => exact absurd rfl hst
    | short hn => exact absurd hn hψ'
    | shortGrown hn => exact absurd hn hψ'
    | @long r d _ hr hrun =>
      have hspec := hc.freeRun_spec hh ψ.1
      rw [hwd] at hrun
      rw [hrun] at hspec
      obtain ⟨hdm, hj, -, ⟨-, -, hfree⟩ | ⟨hne, -⟩⟩ := hspec
      · have hlast := hfree (r.startIndex + ψ.1) (by omega) (Nat.le_refl _)
        have hkept : slot ((v.setData c (withSfn g (v.data c) i name attributes φ.2)).data d)
          (r.startIndex + ψ.1) =
            slot (v.data d) (r.startIndex + ψ.1) := by
          by_cases hdc : d = c
          · subst hdc
            have hstart := hfree r.startIndex (Nat.le_refl _) (by omega)
            have hile : i ≤ r.startIndex := by
              by_contra hlt
              rw [hbefore r.startIndex (Nat.zero_le _) (by omega)] at hstart
              cases hstart
            rw [Vol.setData_self, slot_withSfn_of_ne hj (by omega)]
          · rw [Vol.setData_of_ne hdc]
        have hsame := hdata d ((hc.chains k hh).inData d hdm)
        rw [Vol.setData_self] at hsame
        have hnew := @slot_withLfn_last g ψ.1 name attributes (w.data d) r.startIndex
          (r.startIndex + ψ.1) hj (by omega)
          (by omega)
        rw [hsame, hkept, hlast] at hnew
        cases hnew
      · exact absurd hr hne
    | @longGrown r v' z _ _ _ _ hgr =>
      have hsame :=
        hfat z (Geometry.Valid.inData_fatEntries (hgr.inData z (List.mem_singleton_self z)))
      have hne := hgr.fat_ne hg
      rw [hwf] at hne
      exact hne hsame
  | @shortGrown v' z _ hf hgr =>
    cases h₂ with
    | refused hst => exact absurd rfl hst
    | short hn => exact absurd hn hψ'
    | shortGrown hn => exact absurd hn hψ'
    | @long r d _ hr hrun =>
      have hspec := hc.freeRun_spec hh ψ.1
      rw [hwd] at hrun
      rw [hrun] at hspec
      obtain ⟨hdm, hj, -, ⟨-, -, hfree⟩ | ⟨hne, -⟩⟩ := hspec
      · have hlast := hfree (r.startIndex + ψ.1) (by omega) (Nat.le_refl _)
        rw [freeSlot_none hf d hdm _ hj] at hlast
        cases hlast
      · exact absurd hr hne
    | @longGrown r w' z' _ _ _ _ hgr' =>
      cases hgr.cluster_eq hgr' hwf
      have hsame := hdata z (hgr.inData z (List.mem_singleton_self z))
      rw [Vol.setData_self, Vol.setData_self] at hsame
      have hmod : (ψ.1 + 1) % g.slots = 2 := by
        rw [hψ]
        exact Nat.mod_eq_of_lt (by omega)
      have hnew := @slot_withLfn_last g ψ.1 name attributes (fun _ => 0) 0 ((ψ.1 + 1) % g.slots)
        (Nat.mod_lt _ (by omega)) (by omega) (by omega)
      rw [hsame, hmod, slot_withSfn_of_ne (by omega) (by decide)] at hnew
      cases hnew

end Steps

def hasFreeSlot (s : State) (cluster : ℕ) : Bool :=
  match readChain (freeCluster s.partition) walkFuel s cluster false () with
  | some (_, .inl _) => true
  | _ => false

def hasRoom (s : State) (cluster : ℕ) : Bool :=
  hasFreeSlot s cluster ||
    (decide (0 < s.partition.fsInfo.freeClusters) && decide (cluster ≤ s.partition.dataClusters))

/-- The drive and the status are the same after both calls, or both do not end. -/
def SameOutcome (x y : Option (State × FatStatus)) : Prop :=
  y.map (fun r => (r.1.disk, r.2)) = x.map (fun r => (r.1.disk, r.2))

theorem sameOutcome_of_rel {x y : Option (State × FatStatus)} (h : Option.Rel (Both e f) x y) :
    SameOutcome x y := by
  cases h with
  | none => rfl
  | some hb => exact congrArg some (Prod.ext hb.1.disk hb.2)

theorem classifyName_slots {len : ℕ} (he : (classifyName e len).1 ≠ 0)
    (hf : (classifyName f len).1 ≠ 0) :
    (classifyName e len).1 = (classifyName f len).1 := by
  by_cases hlen : 12 < len
  · rw [classifyName, classifyName]
    dsimp only
    rw [if_pos (Or.inl hlen), if_pos (Or.inl hlen)]
  · have hone {f : ℕ → WChar} (hf : (classifyName f len).1 ≠ 0) : (classifyName f len).1 = 1 := by
      have hle : lfnEntries len ≤ 1 := by
        rw [lfnEntries]
        split_ifs <;> omega
      rw [classifyName] at hf ⊢
      dsimp only at hf ⊢
      split_ifs at hf ⊢
      · omega
      · rfl
      · exact absurd rfl hf
    rw [hone he, hone hf]

theorem classifyName_one {len : ℕ} (he : (classifyName e len).1 = 0) (hlen : 0 < len)
    (hf : (classifyName f len).1 ≠ 0) : (classifyName f len).1 = 1 := by
  have hle : len ≤ 12 := by
    by_contra hlt
    rw [classifyName] at he
    dsimp only at he
    rw [if_pos (Or.inl (Nat.not_le.mp hlt)), lfnEntries] at he
    split_ifs at he
    omega
  have hone : lfnEntries len ≤ 1 := by
    rw [lfnEntries]
    split_ifs <;> omega
  rw [classifyName] at hf ⊢
  dsimp only at hf ⊢
  split_ifs at hf ⊢
  · omega
  · rfl
  · exact absurd rfl hf

theorem Consistent.head_lt (hc : Consistent g v o) (hg : g.Valid) (hh : o.head k) : k < 2 ^ 32 := by
  have hlt := ((hc.chains k hh).inData k (by simp)).2
  have hN := hg.numClusters_lt
  rw [endOfChain] at hN
  omega

section LastEntry

variable (hv : View g s₀ s v) (hg : g.Valid) (hc : Consistent g v o) (hh : o.head k)

include hv hg hc hh

theorem View.hasFreeSlot_eq : hasFreeSlot s k = (freeSlot g v.data (k :: o.tail k)).isSome := by
  obtain ⟨s', hread, -⟩ := hc.readChain () hg hv hh
  rw [hasFreeSlot, hread, overChain_free hv.entriesPerCluster_eq]
  cases freeSlot g v.data (k :: o.tail k) <;> rfl

theorem View.hasRoom_iff :
    hasRoom s k = true ↔ freeSlot g v.data (k :: o.tail k) ≠ none ∨ ¬ Refused g v k 1 := by
  have hk := ((hc.chains k hh).inData k (by simp)).1
  rw [hasRoom, Bool.or_eq_true, hv.hasFreeSlot_eq hg hc hh, Option.isSome_iff_ne_none,
    Bool.and_eq_true, decide_eq_true_iff, decide_eq_true_iff, hv.free, hg.dataClusters_eq hv.boot,
    Refused]
  refine or_congr_right ?_
  omega

theorem View.hasRoom_vacant (h : Vacant g v o k) : hasRoom s k = true := by
  have hpos := hg.slots_pos
  refine (hv.hasRoom_iff hg hc hh).mpr (Or.inl fun hfree => ?_)
  have hused := freeSlot_none hfree k (by simp) 0 hpos
  rw [slotKind_eq_free.mp (h.2 0 hpos)] at hused
  cases hused

theorem View.allocateSfn_room (name : Name) (attributes : Byte) (hroom : hasRoom s k = true)
    (hn : φ.1 = 0) :
    ∃ s' v' o',
    fat32AllocateSfnEntry s k name attributes φ.2 = some (s', .success) ∧ View g s₀ s' v' ∧
      EntryStep g v o k name attributes φ .success v' o' := by
  cases hf : freeSlot g v.data (k :: o.tail k) with
  | some ci =>
    obtain ⟨s', hs', hv'⟩ := hv.allocateSfn_found hg hc hh hf
    exact ⟨s', _, o, hs', hv', .short hn hf⟩
  | none =>
    rcases hv.allocateSfn_grown hg hc hh hf with ⟨hr, -⟩ | ⟨-, s', v', z, hs', hgr, hv'⟩
    · exact absurd hr (((hv.hasRoom_iff hg hc hh).mp hroom).resolve_left fun h => h hf)
    · exact ⟨s', _, _, hs', hv', .shortGrown hn hf hgr⟩

/-- Where there is no room the call changes nothing, whatever the form of the entry is. -/
theorem View.allocateEntry_full (attributes : Byte) (hroom : hasRoom s k = false)
    (hname : name ≠ []) :
    ∃ s', fat32AllocateEntry s k name attributes = some (s', .noEnoughSpace) ∧
    s'.disk = s.disk := by
  have hk := hc.head_lt hg hh
  have hfull := (hv.hasRoom_iff hg hc hh).not.mp (Bool.eq_false_iff.mp hroom)
  rw [not_or, not_not, not_not] at hfull
  obtain ⟨hfree, hrefused⟩ := hfull
  have hnone (m : ℕ) : Refused g v k m := by
    rw [Refused] at hrefused ⊢
    omega
  have hdisk {σ ρ : Type} {body : ℕ → Buffer → σ → ρ ⊕ σ} {acc : σ} {s' : State} {r : ρ ⊕ σ}
      (hread : Fat32.readChain body walkFuel s k false acc = some (s', r)) : s'.disk = s.disk :=
    (readChain_rule (I := fun _ => True) (Q := fun _ _ => True)
      (fun _ _ _ _ => ⟨trivial, trivial⟩) hk trivial
      hread).1.disk
  rw [fat32AllocateEntry, if_neg hname]
  dsimp only
  split_ifs
  · obtain ⟨s', hread, hv'⟩ := hv.freeRun hg hc hh (classifyName s.entryName name.length).1
    rw [Fat32.freeRun, overChain_used rfl (freeSlot_none hfree)] at hread
    refine ⟨s', ?_, hdisk hread⟩
    rw [fat32AllocateLongFileNameEntry, hv.slots_eq, hread]
    dsimp only
    rw [if_neg (not_not.mpr rfl), hv'.refused hg (hnone _)]
    rfl
  · obtain ⟨s', hread, hv'⟩ := hc.readChain () hg hv hh
    rw [overChain_free hv.entriesPerCluster_eq, hfree] at hread
    refine ⟨s', ?_, hdisk hread⟩
    rw [fat32AllocateSfnEntry, hread]
    dsimp only
    rw [hv'.refused hg (hnone _)]
    rfl

end LastEntry

theorem Alike.view (h : Alike e f s t) (hv : View g s₀ s v) :
    View g t t { v with entryName := t.entryName } := by
  have hfat (c : ℕ) : t.fat c = s.fat c := by
    rw [State.fat, State.fat, h.disk, h.primaryFat]
  refine ⟨h.boot.trans hv.boot, h.secondaryFsInfo.trans hv.secondaryFsInfo, rfl,
    h.fsInfo.free.trans hv.free, fun c hc => (hfat c).trans (hv.fat c hc), ?_, ?_, id, id, [], by
      simp, by simp⟩
  · intro c hc
    rw [← hv.data c hc, State.data, State.data, h.read, h.clusterSector, h.boot]
  · intro x hx hnum j hj
    rw [h.boot] at hx
    rw [h.fatSectorNumber, h.primaryFat] at hnum
    rw [hfat, ← hv.cache x hx hnum j hj]
    exact getLE_congr fun i hi => h.fatSector _ (by omega)

theorem hasRoom_congr (h : Alike e f s t) : hasRoom t k = hasRoom s k := by
  have hfree : freeCluster t.partition = freeCluster s.partition := by
    funext c b u
    rw [freeCluster, freeCluster, h.entriesPerCluster]
  have hslot : hasFreeSlot t k = hasFreeSlot s k := by
    have hread := h.readChain (freeCluster s.partition) walkFuel k false ()
    rw [hasFreeSlot, hasFreeSlot, hfree]
    rcases both_cases hread with ⟨hs, ht⟩ | ⟨s', t', r, hs, ht, -⟩ <;> rw [hs, ht]
    cases r <;> rfl
  rw [hasRoom, hasRoom, hslot, h.fsInfo.free, h.dataClusters]

/-- A short entry in a directory with room, and another form of the entry from the other state. -/
theorem View.sameForm_of_short (hv : View g s₀ s v) (hg : g.Valid) (hc : Consistent g v o)
    (hh : o.head k) (hw : View g t₀ t w) (hwc : Consistent g w o) (hwf : w.fat = v.fat)
    (hwd : w.data = v.data) (hname : name ≠ []) (hroom : hasRoom s k = true)
    (hshort : (classifyName s.entryName name.length).1 = 0)
    (hsame : SameOutcome (fat32AllocateEntry s k name attributes)
      (fat32AllocateEntry t k name attributes)) :
    SameForm (classifyName s.entryName name.length) (classifyName t.entryName name.length) := by
  obtain ⟨s', v', o', hrun, hv', hstep⟩ := hv.allocateSfn_room hg hc hh name attributes hroom
    hshort
  obtain ⟨t', st, w', o'', hrun', hw', hstep'⟩ := hw.allocateEntry_step name attributes hg hwc hh
  have hentry : fat32AllocateEntry s k name attributes = some (s', .success) := by
    rw [fat32AllocateEntry, if_neg hname]
    dsimp only
    rw [if_neg (not_not.mpr hshort), hrun]
  rw [hentry, hrun'] at hsame
  have hpair := Option.some.inj hsame
  have hst : st = .success := congrArg Prod.snd hpair
  subst hst
  obtain ⟨hfat, hdata⟩ := hv'.same_disk hw' (congrArg Prod.fst hpair)
  by_cases hlong : (classifyName t.entryName name.length).1 = 0
  · exact ⟨hshort.trans hlong.symm,
      fun _ => hstep.flags_eq hstep' hwf hwd hg hc hh hfat hdata hshort hlong⟩
  · have hone := classifyName_one hshort (List.length_pos_iff.mpr hname) hlong
    exact (hstep.not_long hstep' hwf hwd hg hc hh hfat hdata hshort hone).elim

/-- The last entry: the outcome is the same when the form is, or when there is no room. -/
theorem View.allocateEntry_same_iff (hv : View g s₀ s v) (hg : g.Valid) (hc : Consistent g v o)
    (hh : o.head k) (h : Alike e f s t) (hname : name ≠ []) :
    SameOutcome (fat32AllocateEntry s k name attributes) (fat32AllocateEntry t k name attributes) ↔
      SameForm (classifyName e name.length) (classifyName f name.length) ∨ hasRoom s k = false := by
  have hw := h.view hv
  have hwc : Consistent g { v with entryName := t.entryName } o := hc.congr rfl rfl fun _ _ => rfl
  constructor
  · intro hsame
    rw [or_iff_not_imp_right, Bool.not_eq_false]
    intro hroom
    rw [← h.left, ← h.right]
    by_cases hs : (classifyName s.entryName name.length).1 = 0
    · exact hv.sameForm_of_short hg hc hh hw hwc rfl rfl hname hroom hs hsame
    · by_cases ht : (classifyName t.entryName name.length).1 = 0
      · have hroom' : hasRoom t k = true := (hasRoom_congr h).trans hroom
        obtain ⟨hslots, -⟩ :=
          hw.sameForm_of_short hg hwc hh hv hc rfl rfl hname hroom' ht (Eq.symm hsame)
        exact absurd (hslots.symm.trans ht) hs
      · exact ⟨classifyName_slots hs ht, fun h0 => absurd h0 hs⟩
  · rintro (hform | hroom)
    · exact sameOutcome_of_rel (h.allocateEntry name attributes k hform)
    · obtain ⟨s', hs, hsd⟩ := hv.allocateEntry_full hg hc hh attributes hroom hname
      obtain ⟨t', ht, htd⟩ := hw.allocateEntry_full hg hwc hh attributes
        ((hasRoom_congr h).trans hroom) hname
      rw [SameOutcome, hs, ht]
      exact congrArg some (Prod.ext (htd.trans (h.disk.trans hsd.symm)) rfl)

/-- The choice of the form of the last entry, from what the entries before it leave in
`EntryName`. -/
def lastForm : List Name → State → ℕ × SfnFlags
  | [], _ => (0, ⟨false, false⟩)
  | name :: names, s =>
    let s := s.setEntryName name
    if names = [] then classifyName s.entryName name.length else lastForm names s

/-- The entries lead to a directory with room for the last one. A directory on the way without
clusters gets one, and only the last entry can be in it. -/
def roomAt : List Name → State → ℕ → Bool
  | [], _, _ => false
  | name :: names, s, cluster =>
    let s := s.setEntryName name
    if names = [] then hasRoom s cluster
    else
      match fat32FindEntry s name cluster with
      | some (s, some e) =>
        isDirectory e &&
          if firstCluster e ≠ 0 then roomAt names s (firstCluster e)
          else decide (names.length = 1) && decide (0 < s.partition.fsInfo.freeClusters)
      | _ => false

theorem lastForm_congr (h : s.entryName = t.entryName) : lastForm names s = lastForm names t := by
  induction names generalizing s t with
  | nil => rfl
  | cons name names ih =>
    have hset : (s.setEntryName name).entryName = (t.setEntryName name).entryName := by
      rw [State.setEntryName, State.setEntryName, h]
    rw [lastForm, lastForm]
    rw [hset, ih hset]

theorem lastForm_cons {name : Name} (hlast : names ≠ [])
    (h : t.entryName = (s.setEntryName name).entryName) :
    lastForm (name :: names) s = lastForm names t := by
  rw [lastForm, if_neg hlast, lastForm_congr h.symm]

theorem roomAt_existing {name : Name} {s₂ : State} {e : Buffer} (hlast : names ≠ [])
    (hfind : fat32FindEntry (s.setEntryName name) name k = some (s₂, some e))
    (hdir : isDirectory e = true) (h0 : firstCluster e ≠ 0) :
    roomAt (name :: names) s k = roomAt names s₂ (firstCluster e) := by
  simp [roomAt, hlast, hfind, hdir, h0]

theorem roomAt_linked {name : Name} {s₂ : State} {e : Buffer} (hlast : names ≠ [])
    (hfind : fat32FindEntry (s.setEntryName name) name k = some (s₂, some e))
    (hdir : isDirectory e = true) (h0 : firstCluster e = 0)
    (hfree : 0 < s₂.partition.fsInfo.freeClusters) :
    roomAt (name :: names) s k = decide (names.length = 1) := by
  simp [roomAt, hlast, hfind, hdir, h0, hfree]

theorem View.roomAt_vacant (hv : View g s₀ s v) (hg : g.Valid) (hc : Consistent g v o)
    (hh : o.head k) (hvac : Vacant g v o k) (hvalid : ∀ n ∈ names, ValidName n) :
    roomAt names s k = decide (names.length = 1) := by
  cases names with
  | nil => rfl
  | cons name names =>
    have hv₁ := hv.setEntryName name
    have hc₁ : Consistent g { v with entryName := (s.setEntryName name).entryName } o :=
      hc.congr rfl rfl fun _ _ => rfl
    rw [roomAt]
    by_cases hlast : names = []
    · rw [if_pos hlast, hv₁.hasRoom_vacant hg hc₁ hh hvac, hlast]
      rfl
    · obtain ⟨s₂, hfind, -⟩ := hv₁.fat32FindEntry hg hc₁ hh (hvalid name (by simp)).ne_nil
      have hnone : locate g v.data name (k :: o.tail k) = none := hvac.locate name
      have hlen : ¬ (name :: names).length = 1 := by
        rw [List.length_cons]
        have := List.length_pos_iff.mpr hlast
        omega
      rw [if_neg hlast, hfind, hnone, decide_eq_false hlen]
      rfl

theorem View.createFile_agree_iff (hg : g.Valid) (hv : View g s₀ s v) (hc : Consistent g v o)
    (hl : Leads g v o rootDirStart parents k) (hvalid : ∀ n ∈ parents ++ names, ValidName n)
    (h : Alike e f s t) :
    SameOutcome (createFile attributes parents names s k)
      (createFile attributes parents names t k) ↔
      SameForm (lastForm names s) (lastForm names t) ∨ roomAt names s k = false := by
  -- over the entries of the path; only the last one depends on `EntryName`
  induction names generalizing parents s t v o k e f with
  | nil => exact iff_of_true (sameOutcome_of_rel (.some ⟨h, rfl⟩)) (Or.inr rfl)
  | cons name names ih =>
    have h₁ := h.setEntryName name
    by_cases hlast : names = []
    · have hc₁ : Consistent g { v with entryName := (s.setEntryName name).entryName } o :=
        hc.congr rfl rfl fun _ _ => rfl
      have hname : name ≠ [] := (hvalid name (by simp)).ne_nil
      rw [createFile, createFile, lastForm, lastForm, roomAt]
      dsimp only
      rw [if_pos hlast, if_pos hlast, if_pos hlast, if_pos hlast, if_pos hlast]
      exact (hv.setEntryName name).allocateEntry_same_iff hg hc₁ (hl.head hc.root hc.rootDir).1 h₁
        hname
    · have hvalid' : ∀ n ∈ (parents ++ [name]) ++ names, ValidName n := by simpa using hvalid
      cases hv.createFile_step attributes hg hc hl hlast
          (fun n hn => hvalid' n (List.mem_append_left _ hn)) with
      | missing _ hfind hrun =>
        obtain ⟨t₂, ht, h₂⟩ := both_some (h₁.findEntry name k) hfind
        have hrun' : createFile attributes parents (name :: names) t k = some (t₂, .notFound) := by
          simp only [createFile, if_neg hlast, ht]
        rw [hrun, hrun']
        exact iff_of_true (sameOutcome_of_rel (.some ⟨h₂, rfl⟩))
          (Or.inr (by simp [roomAt, hlast, hfind]))
      | noDirectory _ hfind hdir hrun =>
        obtain ⟨t₂, ht, h₂⟩ := both_some (h₁.findEntry name k) hfind
        have hrun' : createFile attributes parents (name :: names) t k = some (t₂, .notFound) := by
          simp [createFile, hlast, ht, hdir]
        rw [hrun, hrun']
        exact iff_of_true (sameOutcome_of_rel (.some ⟨h₂, rfl⟩))
          (Or.inr (by simp [roomAt, hlast, hfind, hdir]))
      | full _ hfind hdir h0 halloc hfree hrun =>
        obtain ⟨t₂, ht, h₂⟩ := both_some (h₁.findEntry name k) hfind
        obtain ⟨t₃, ht₃, h₃⟩ := both_some (h₂.allocate 0 1) halloc
        have hrun' : createFile attributes parents (name :: names) t k =
            some (t₃, .noEnoughSpace) := by
          simp [createFile, hlast, ht, hdir, h0, ht₃]
        rw [hrun, hrun']
        exact iff_of_true (sameOutcome_of_rel (.some ⟨h₃, rfl⟩))
          (Or.inr (by simp [roomAt, hlast, hfind, h0, hfree]))
      | @existing s₂ e hv₂ hfind _ hdir h0 hl' hrun =>
        obtain ⟨t₂, ht, h₂⟩ := both_some (h₁.findEntry name k) hfind
        have hrun' : createFile attributes parents (name :: names) t k =
            createFile attributes (parents ++ [name]) names t₂ (firstCluster e) := by
          simp [createFile, hlast, ht, hdir, h0]
        rw [hrun, hrun', lastForm_cons hlast h₂.left, lastForm_cons hlast h₂.right,
          roomAt_existing hlast hfind hdir h0]
        exact ih hv₂ (hc.congr rfl rfl fun _ _ => rfl) hl' hvalid' h₂
      | @linked s₂ s₃ s₄ e v₄ z hv₂ hfind hdir h0 halloc hz hfree hedit hv₄ hc₄ hlinked hl₄ hrun =>
        obtain ⟨t₂, ht, h₂⟩ := both_some (h₁.findEntry name k) hfind
        obtain ⟨t₃, ht₃, h₃⟩ := both_some (h₂.allocate 0 1) halloc
        obtain ⟨t₄, ht₄, h₄⟩ := both_some ((h₃.writeCluster z fun _ => 0).fat32EditFile
          (resultPath (parents ++ [name])) editCluster 0 z) hedit
        have hrun' : createFile attributes parents (name :: names) t k =
            createFile attributes (parents ++ [name]) names t₄ z := by
          simp only [createFile, if_neg hlast, ht, hdir, h0, ht₃, if_neg hz, ht₄,
            not_true_eq_false, ne_eq, if_false]
        obtain ⟨hzh, -⟩ := hl₄.head hc₄.root hc₄.rootDir
        rw [hrun, hrun', lastForm_cons hlast h₄.left, lastForm_cons hlast h₄.right,
          roomAt_linked hlast hfind hdir h0 hfree,
          ← hv₄.roomAt_vacant hg hc₄ hzh ⟨Owners.add_tail_self, hlinked.free⟩
            fun n hn => hvalid' n (List.mem_append_right _ hn)]
        exact ih hv₄ hc₄ hl₄ hvalid' h₄

section FirstLookup

variable (hk : 2 ≤ k)

theorem setEntryName_fatEntry (s : State) (name : Name) (c : ℕ) :
    (s.fatEntry c).1.setEntryName name = ((s.setEntryName name).fatEntry c).1 :=
  apply_ite (fun r : State => r.setEntryName name) _ _ _

include hk

theorem findEntry_fatEntry (s : State) (hname : name ≠ []) :
    fat32FindEntry (s.fatEntry k).1 name k = fat32FindEntry s name k := by
  have hbody : searchCluster (s.fatEntry k).1.partition name (fun _ b x => slot b x) =
      searchCluster s.partition name (fun _ b x => slot b x) := by
    obtain ⟨x, b, heq⟩ := cached_fatEntry s k
    rw [heq]
    rfl
  rw [fat32FindEntry, fat32FindEntry, if_neg hname, if_neg hname, hbody,
    readChain_fatEntry _ _ _ hk]

theorem freeSlot_fatEntry (s : State) :
    Fat32.readChain (freeCluster (s.fatEntry k).1.partition) walkFuel (s.fatEntry k).1 k false () =
      Fat32.readChain (freeCluster s.partition) walkFuel s k false () := by
  have hbody : freeCluster (s.fatEntry k).1.partition = freeCluster s.partition := by
    obtain ⟨x, b, heq⟩ := cached_fatEntry s k
    rw [heq]
    rfl
  rw [hbody, readChain_fatEntry _ _ _ hk]

theorem allocateEntry_fatEntry (s : State) (hname : name ≠ []) :
    fat32AllocateEntry (s.fatEntry k).1 k name attributes =
      fat32AllocateEntry s k name attributes := by
  have hparts : (s.fatEntry k).1.entryName = s.entryName ∧
      (s.fatEntry k).1.partition.entriesPerCluster = s.partition.entriesPerCluster := by
    obtain ⟨x, b, heq⟩ := cached_fatEntry s k
    rw [heq]
    exact ⟨rfl, rfl⟩
  rw [fat32AllocateEntry, fat32AllocateEntry, if_neg hname, if_neg hname, hparts.1]
  dsimp only
  split_ifs
  · rw [fat32AllocateLongFileNameEntry, fat32AllocateLongFileNameEntry, hparts.2]
    dsimp only
    rw [readChain_fatEntry _ _ _ hk]
  · rw [fat32AllocateSfnEntry, fat32AllocateSfnEntry, freeSlot_fatEntry hk]

theorem hasRoom_fatEntry (s : State) : hasRoom (s.fatEntry k).1 k = hasRoom s k := by
  have hparts : (s.fatEntry k).1.partition.fsInfo = s.partition.fsInfo ∧
      (s.fatEntry k).1.partition.dataClusters = s.partition.dataClusters := by
    obtain ⟨x, b, heq⟩ := cached_fatEntry s k
    rw [heq]
    exact ⟨rfl, rfl⟩
  rw [hasRoom, hasRoom, hasFreeSlot, hasFreeSlot, freeSlot_fatEntry hk, hparts.1, hparts.2]

theorem createFile_fatEntry (s : State) (hnames : names ≠ []) (hvalid : ∀ n ∈ names, ValidName n) :
    createFile attributes parents names (s.fatEntry k).1 k =
      createFile attributes parents names s k ∧
      roomAt names (s.fatEntry k).1 k = roomAt names s k := by
  cases names with
  | nil => exact absurd rfl hnames
  | cons name names =>
    have hname : name ≠ [] := (hvalid name (by simp)).ne_nil
    rw [createFile, createFile, roomAt, roomAt, setEntryName_fatEntry,
      findEntry_fatEntry hk _ hname, allocateEntry_fatEntry hk _ hname, hasRoom_fatEntry hk]
    exact ⟨rfl, rfl⟩

end FirstLookup

def DriverCall.orderly (s : State) : DriverCall → Bool
  | .call c => c.orderly s
  | _ => true

/-- What holds of every state that orderly calls lead to: the volume is consistent, and its counters
are on the drive. -/
structure Settled (g : Geometry) (s : State) : Prop where
  coherent : Coherent g s
  loose : Loose g s
  fsInfo : FsInfoOnDisk s

theorem settled_fat32CreatePartition (hg : g.Valid) (s : State) :
    Settled g (fat32CreatePartition s g) :=
  ⟨coherent_fat32CreatePartition hg s, loose_fat32CreatePartition hg s,
    fsInfoOnDisk_fat32CreatePartition hg s⟩

theorem Settled.cached (h : Settled g s) (hst : Cached s t) (ht : Coherent g t) (hg : g.Valid) :
    Settled g t := by
  obtain ⟨v, o, hs, hv, hc⟩ := h.loose
  have hcache := (ht.view hg).cache
  have hinfo := h.fsInfo
  obtain ⟨x, b, rfl⟩ := hst
  exact ⟨ht, ⟨v, o, hs, (hv.cached hcache).rebase, hc⟩, hinfo⟩

theorem FsInfoOnDisk.call {c : Call} (h : FsInfoOnDisk s) (hl : Loose g s) (hg : g.Valid)
    (hord : c.orderly s = true) (hrun : c.run s = some t) : FsInfoOnDisk t := by
  obtain ⟨v, o, hs, hv, hc⟩ := hl
  have hkeeps {p : Prop} (hk : Keeps g s p (c.run s)) : FsInfoOnDisk t := by
    obtain ⟨t', v', o', hrun', -, hv', -⟩ := hk
    rw [hrun] at hrun'
    cases hrun'
    exact hv'.fsInfo h
  cases c with
  | createFile path attributes => exact hkeeps (hv.fileCall hg hc hord rfl)
  | writeFile path buffer position numBytes => exact hkeeps (hv.fileCall hg hc hord rfl)
  | editFile path edit attributes x => exact hkeeps (hv.editFile_keeps hg hc hs hord)
  | writeReservedArea sector numSectors buffer =>
    have hres : s.partition.boot.reservedAreaSize = g.numReservedSectors + 16 := by
      rw [hv.boot]
      exact hg.reserved_eq
    have hhid : s.partition.boot.hiddenSectors = g.baseLba := by rw [hv.boot]; rfl
    rw [Call.orderly, hv.secondaryFsInfo, Bool.or_eq_true, Bool.or_eq_true, beq_iff_eq,
      decide_eq_true_iff, decide_eq_true_iff] at hord
    rw [Call.run, fat32WriteReservedArea, hres, hhid] at hrun
    split_ifs at hrun with hlarge
    · cases hrun
      exact h
    · cases hrun
      have hfits := hg.fits
      have hstart : g.fatStart = g.baseLba + g.numReservedSectors + 16 := rfl
      have hsector : u32 (g.baseLba + sector + 1) = g.baseLba + sector + 1 :=
        Nat.mod_eq_of_lt (by omega)
      intro j hj
      have hlba : s.partition.boot.hiddenSectors + s.partition.boot.fsInfoLba =
          g.baseLba + (g.numReservedSectors + 1) := by
        rw [hhid, hv.boot, hg.fsInfoLba_eq]
      have hdisk := h j hj
      rw [hlba] at hdisk
      rw [State.write_partition, hlba, State.write_disk, hsector, copy, if_neg (by omega)]
      exact hdisk

theorem Settled.driverCall {c : DriverCall} (h : Settled g s) (hg : g.Valid)
    (hord : c.orderly s = true) (hrun : c.run s = some t) : Settled g t := by
  have ht := h.coherent.driverCall hg hrun
  cases c with
  | call c =>
    obtain ⟨t', hrun', hl, -⟩ := h.loose.call hg hord
    rw [show c.run s = some t from hrun] at hrun'
    cases hrun'
    exact ⟨ht, hl, h.fsInfo.call h.loose hg hord hrun⟩
  | getFileInformation path =>
    obtain ⟨r, hinfo, hr⟩ := Option.map_eq_some_iff.mp hrun
    cases hr
    exact h.cached (getFileInformation_cached hinfo) ht hg
  | getNextCluster cluster =>
    cases hrun
    refine h.cached ?_ ht hg
    rw [fat32GetNextCluster]
    split_ifs
    · exact .refl s
    · exact cached_fatEntry s _
  | readCluster cluster ended =>
    cases hrun
    refine h.cached ?_ ht hg
    by_cases hread : (fat32ReadCluster s cluster.toNat ended fun _ => 0).status = .success
    · exact (fat32ReadCluster_success hread).2.2
    · rw [fat32ReadCluster_failure hread]
      exact .refl s

theorem Settled.reaches (hg : g.Valid)
    (hr : Runs.Reaches DriverCall.run (fun s c => c.orderly s = true)
      (fat32CreatePartition s₀ g) s) : Settled g s :=
  Runs.Reaches.invariant (fun _ _ _ hs hord hst => hs.driverCall hg hord hst) hr
    (settled_fat32CreatePartition hg s₀)

theorem Settled.sameInfo (hs : Settled g s) (ht : Settled g t) (hg : g.Valid)
    (hdisk : t.disk = s.disk) :
    SameInfo s.partition.fsInfo t.partition.fsInfo := by
  have hbytes (j : ℕ) (hj : j < 512) : t.partition.fsInfo.bytes j = s.partition.fsInfo.bytes j := by
    rw [← hs.fsInfo j hj, ← ht.fsInfo j hj, hdisk, hs.coherent.boot, ht.coherent.boot]
  have hfree {r : State} (hr : Settled g r) :
      getLE r.partition.fsInfo.bytes 488 4 = r.partition.fsInfo.freeClusters := by
    obtain ⟨v, o, -, hv, hc⟩ := hr.loose
    apply getLE_fsInfo
    rw [hv.free]
    exact hc.counted.free_lt hg
  have hrecent (f : FsInfo) : getLE f.bytes 492 4 = f.recentlyAllocatedCluster % 2 ^ 32 := by
    rw [FsInfo.bytes, getLE_setLE_of_disjoint _ (by decide), getLE_setLE_of_disjoint _ (by decide),
      getLE_setLE_self]
    rfl
  constructor
  · rw [← hfree hs, ← hfree ht]
    exact getLE_congr fun i hi => hbytes _ (by omega)
  · rw [← hrecent, ← hrecent]
    exact getLE_congr fun i hi => hbytes _ (by omega)

/-- Two runs that leave the same drive: `Fat32CreateFile` leaves the same drive again, with the same
status, when the choice between a short and a long name is the same behind both, or when there is no
room for the entry. -/
theorem createFile_same_iff (hg : g.Valid) {s₀ t₀ : State}
    (hs : Runs.Reaches DriverCall.run (fun s c => c.orderly s = true) (fat32CreatePartition s₀ g) s)
    (ht : Runs.Reaches DriverCall.run (fun s c => c.orderly s = true) (fat32CreatePartition t₀ g) t)
    (hdisk : t.disk = s.disk) (path : Name) (attributes : Byte) :
    SameOutcome (fat32CreateFile s path attributes) (fat32CreateFile t path attributes) ↔
      SameForm (lastForm (entriesOf path) s) (lastForm (entriesOf path) t) ∨
        roomAt (entriesOf path) s rootDirStart = false := by
  have hs' := Settled.reaches hg hs
  have ht' := Settled.reaches hg ht
  have hvalid := entriesOf_valid path
  rw [fat32CreateFile, fat32CreateFile]
  by_cases hnil : entriesOf path = []
  · rw [hnil]
    exact iff_of_true (congrArg some (Prod.ext hdisk rfl)) (Or.inr rfl)
  · obtain ⟨v, o, -, hv, hc⟩ := hs'.loose
    have hroot : g.InData rootDirStart :=
      (hc.chains rootDirStart hc.root).inData rootDirStart (by simp)
    have hlookup := Geometry.Valid.inData_fatEntries hroot
    obtain ⟨halike, -⟩ :=
      hs'.coherent.alike_fatEntry ht'.coherent hg hdisk (hs'.sameInfo ht' hg hdisk) hlookup
    obtain ⟨hv', -⟩ := hv.fatEntry hg hlookup
    have hiff := @View.createFile_agree_iff g _ _ _ v o _ _ rootDirStart
      (entriesOf path) [] attributes hg hv' hc .nil
      (by simpa using hvalid) halike
    obtain ⟨hcreate, hroom⟩ :=
      @createFile_fatEntry rootDirStart (entriesOf path) [] attributes (by decide) s hnil hvalid
    obtain ⟨hcreate', -⟩ :=
      @createFile_fatEntry rootDirStart (entriesOf path) [] attributes (by decide) t hnil hvalid
    rw [hcreate, hcreate', hroom, lastForm_congr halike.left, lastForm_congr halike.right] at hiff
    exact hiff

theorem findEntry_disk {r : Option Buffer} (hk : k < 2 ^ 32)
    (h : fat32FindEntry s name k = some (t, r)) :
    t.disk = s.disk := by
  rw [fat32FindEntry] at h
  split_ifs at h
  · cases h
    rfl
  · obtain ⟨q, hread, hq⟩ := Option.map_eq_some_iff.mp h
    cases hq
    exact (readChain_rule (I := fun _ => True) (Q := fun _ _ => True)
      (fun _ _ _ _ => ⟨trivial, trivial⟩) hk trivial
      hread).1.disk

theorem disk_of_absent {path : Name}
    (hrun : (DriverCall.call (.createFile path attributes)).run s = some t)
    (hpath : entriesOf path = name :: names) (hnames : names ≠ [])
    (habsent : (fat32FindEntry (s.setEntryName name) name rootDirStart).all (fun r => r.2.isNone) =
      true) :
    t.disk = s.disk := by
  obtain ⟨r, hcreate, hr⟩ := Option.map_eq_some_iff.mp hrun
  cases hr
  rw [fat32CreateFile, hpath, createFile] at hcreate
  dsimp only at hcreate
  rw [if_neg hnames] at hcreate
  cases hfind : fat32FindEntry (s.setEntryName name) name rootDirStart with
  | none =>
    rw [hfind] at hcreate
    cases hcreate
  | some q =>
    obtain ⟨s', _ | e⟩ := q
    · rw [hfind] at hcreate
      cases hcreate
      have hdisk : s'.disk = (s.setEntryName name).disk := findEntry_disk (by decide) hfind
      exact hdisk
    · rw [hfind] at habsent
      cases habsent

def smallVolume : State := fat32CreatePartition (blankDrive smallGeometry 0) smallGeometry

/-- After a search for `ABC/X` the name `A` is stored as after no call. -/
theorem upper_left_over :
    ∃ t, Runs.Reaches DriverCall.run (fun s c => c.orderly s = true) smallVolume t ∧
    t.disk = smallVolume.disk ∧
      SameOutcome (fat32CreateFile smallVolume [0x41] 0x20) (fat32CreateFile t [0x41] 0x20) := by
  obtain ⟨t, ht⟩ : ∃ t,
      (DriverCall.call (.createFile [0x41, 0x42, 0x43, 0x2F, 0x58] 0x20)).run smallVolume =
      some t :=
    Option.isSome_iff_exists.mp (by decide)
  have hr : Runs.Reaches DriverCall.run (fun s c => c.orderly s = true) smallVolume t :=
    .head (by decide) ht (.refl t)
  have hdisk : t.disk = smallVolume.disk :=
    disk_of_absent ht (show entriesOf _ = [0x41, 0x42, 0x43] :: [[0x58]] by decide) (by decide) (by
      decide)
  have hform : lastForm (entriesOf [0x41]) t = (0, ⟨false, false⟩) :=
    Runs.eq_of_map (fun t => lastForm (entriesOf [0x41]) t) ht (by decide)
  refine ⟨t, hr, hdisk, (createFile_same_iff smallGeometry_valid (.refl _) hr hdisk [0x41] 0x20).mpr
    (Or.inl ?_)⟩
  rw [hform]
  decide

/-- After a search for `abc/X` the name `A` is stored as a long name, and after no call as a short
one. -/
theorem lower_left_over :
    ∃ t, Runs.Reaches DriverCall.run (fun s c => c.orderly s = true) smallVolume t ∧
    t.disk = smallVolume.disk ∧
      ¬ SameOutcome (fat32CreateFile smallVolume [0x41] 0x20) (fat32CreateFile t [0x41] 0x20) := by
  obtain ⟨t, ht⟩ : ∃ t,
      (DriverCall.call (.createFile [0x61, 0x62, 0x63, 0x2F, 0x58] 0x20)).run smallVolume =
      some t :=
    Option.isSome_iff_exists.mp (by decide)
  have hr : Runs.Reaches DriverCall.run (fun s c => c.orderly s = true) smallVolume t :=
    .head (by decide) ht (.refl t)
  have hdisk : t.disk = smallVolume.disk :=
    disk_of_absent ht (show entriesOf _ = [0x61, 0x62, 0x63] :: [[0x58]] by decide) (by decide) (by
      decide)
  refine ⟨t, hr, hdisk, fun hsame => ?_⟩
  have hbyte := congrArg (Option.map fun r : Buffer × FatStatus => slot
    (window r.1 (512 * smallVolume.partition.clusterSector 2) 512) 0 11) hsame
  rw [Option.map_map, Option.map_map] at hbyte
  have hlong : (fat32CreateFile t [0x41] 0x20).map (fun r => slot
      (window r.1.disk (512 * smallVolume.partition.clusterSector 2) 512) 0 11) = some 0xF :=
    Runs.eq_of_map (fun t => (fat32CreateFile t [0x41] 0x20).map (fun r => slot
      (window r.1.disk (512 * smallVolume.partition.clusterSector 2) 512) 0 11)) ht (by decide)
  have hshort : (fat32CreateFile smallVolume [0x41] 0x20).map (fun r => slot
      (window r.1.disk (512 * smallVolume.partition.clusterSector 2) 512) 0 11) = some 0x20 := by
    decide
  exact absurd (hlong.symm.trans (hbyte.trans hshort)) (by decide)

end DevOs.Fat32
