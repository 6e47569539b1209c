import DevOs.Fat32.Frame
import DevOs.Fat32.Stored

/-!
# Directories without gaps

In a tidy volume the used slots of every directory cluster are before the free ones, so the parser
reads all of its entries and a new entry behind them adds its name. A long name is written at the
first free slot of a cluster, since the search for its slots begins a run at the first free slot
that it sees.
-/

namespace DevOs.Fat32

open Bytes

variable {g : Geometry} {s₀ s : State} {v v' : Vol} {o o' : Owners} {b b' e : Buffer}
    {data data' : ℕ → Buffer}
  {c k m n x i target : ℕ} {l : List ℕ} {r : FreeRun} {name : Name} {attributes : Byte}
    {flags : SfnFlags}

def Geometry.reads (g : Geometry) (b : Buffer) : List (ℕ × Name) := readSlots b g.slots 0 .normal

theorem slot_withSfn {b : Buffer} {i : ℕ} (hi : i < g.slots) (flags : SfnFlags) :
    slot (withSfn g b i name attributes flags) i =
      window (setSfnEntry (fun _ => 0) name attributes flags) 0 32 := by
  rw [withSfn, g.clusterBytes_eq, slot_window hi, slot_setSlot_self]

theorem slot_withSfn_of_ne {b : Buffer} {i j : ℕ} (hj : j < g.slots) (hne : j ≠ i)
    (flags : SfnFlags) :
    slot (withSfn g b i name attributes flags) j = slot b j := by
  rw [withSfn, g.clusterBytes_eq, slot_window hj, slot_setSlot_of_ne hne]

theorem firstFree_none {b : Buffer} {n x : ℕ} (h : firstFree b n x = none) :
    ∀ i, x ≤ i → i < x + n → isFree (slot b i) = false := by
  induction n generalizing x with
  | zero =>
    intro i hi hlt
    omega
  | succ n ih =>
    rw [firstFree] at h
    split_ifs at h with hf
    intro i hi hlt
    by_cases hix : i = x
    · rw [hix]
      exact Bool.eq_false_iff.mpr hf
    · exact ih h i (by omega) (by omega)

theorem freeSlot_none {data : ℕ → Buffer} (h : freeSlot g data l = none) :
    ∀ c ∈ l, ∀ i < g.slots, isFree (slot (data c) i) = false := by
  induction l with
  | nil =>
    intro c hc
    cases hc
  | cons d l ih =>
    rw [freeSlot] at h
    cases hf : firstFree (data d) g.slots 0 with
    | some i =>
      rw [hf] at h
      cases h
    | none =>
      rw [hf] at h
      intro c hc i hi
      rcases List.mem_cons.mp hc with rfl | hc
      · exact firstFree_none hf i (Nat.zero_le i) (by omega)
      · exact ih h c hc i hi

theorem scanFree_used {target x : ℕ} {b : Buffer} {r : FreeRun} (hr : r.startCluster = 0)
    (h : ∀ i, x ≤ i → i < x + n → isFree (slot b i) = false) :
    scanFree target c b n x r = .inr r := by
  induction n generalizing x with
  | zero => rfl
  | succ n ih =>
    rw [scanFree, h x (Nat.le_refl x) (by omega), if_neg Bool.false_ne_true,
      if_neg (not_not.mpr hr)]
    exact ih fun i hi hlt => h i (by omega) (by omega)

theorem overChain_used {target : ℕ} {data : ℕ → Buffer} {r : FreeRun} (hr : r.startCluster = 0)
    (h : ∀ c ∈ l, ∀ i < g.slots, isFree (slot (data c) i) = false) :
    overChain (runCluster target g.slots) data l r = .inr r := by
  induction l with
  | nil => rfl
  | cons c l ih =>
    rw [overChain, runCluster, scanFree_used hr fun i _ hi => h c (by simp) i (by omega)]
    exact ih fun d hd => h d (by simp [hd])

theorem locate_none_iff : locate g data name l = none ↔
    ∀ c ∈ l, ∀ e ∈ g.reads (data c), nameMatches e.2 name = false := by
  induction l with
  | nil => simp [locate]
  | cons c l ih =>
    rw [locate, List.forall_mem_cons, ← ih, findSlot_eq]
    cases hfind : (readSlots (data c) g.slots 0 .normal).find? fun e => nameMatches e.2 name with
    | none =>
      rw [List.find?_eq_none] at hfind
      exact ⟨fun h => ⟨fun e he => Bool.eq_false_iff.mpr (hfind e he), h⟩, fun h => h.2⟩
    | some e =>
      constructor
      · intro h
        cases h
      · intro h
        have hfalse := h.1 e (List.mem_of_find?_eq_some hfind)
        have hmatch := List.find?_some hfind
        rw [hfalse] at hmatch
        cases hmatch

def RunStart (b : Buffer) (c : ℕ) (r : FreeRun) : Prop :=
  r.startCluster = c → r.startIndex = 0 ∨ isFree (slot b (r.startIndex - 1)) = false

theorem scanFree_start (hc : c ≠ 0)
    (h0 : r.startCluster = 0 → x = 0 ∨ isFree (slot b (x - 1)) = false) (hr : RunStart b c r) :
    match scanFree target c b n x r with
    | .inl (r', _) => RunStart b c r'
    | .inr r' => r'.startCluster = 0 ∨ r'.startCluster = c ∨ r'.startCluster = r.startCluster := by
  induction n generalizing x r with
  | zero => exact Or.inr (Or.inr rfl)
  | succ n ih =>
    rw [scanFree]
    cases hf : isFree (slot b x) with
    | true =>
      by_cases hs : r.startCluster = 0
      · have hnew : RunStart b c ⟨c, x, r.approved + 1⟩ := fun _ => h0 hs
        have hrest := @ih (x + 1) ⟨c, x, r.approved + 1⟩ (fun h => absurd h hc) hnew
        simp only [if_true, hs]
        split_ifs
        · exact hnew
        · revert hrest
          cases scanFree target c b n (x + 1) ⟨c, x, r.approved + 1⟩ with
          | inl q => exact id
          | inr r' => exact fun h => h.imp id (fun h => Or.inl (h.elim id id))
      · have hrest := @ih (x + 1) { r with approved := r.approved + 1 } (fun h => absurd h hs) hr
        simp only [if_true, hs, if_false]
        split_ifs
        · exact hr
        · exact hrest
    | false =>
      have hused : (r.startCluster = 0 → x + 1 = 0 ∨ isFree (slot b (x + 1 - 1)) = false) :=
        fun _ => Or.inr hf
      simp only [Bool.false_eq_true, if_false]
      split_ifs with hs
      · have hnone : RunStart b c { r with startCluster := 0, approved := 0 } :=
          fun h => absurd h.symm hc
        have hrest := @ih (x + 1) { r with startCluster := 0, approved := 0 }
          (fun _ => Or.inr hf) hnone
        revert hrest
        cases scanFree target c b n (x + 1) { r with startCluster := 0, approved := 0 } with
        | inl q => exact id
        | inr r' => exact fun h => h.elim Or.inl fun h => h.elim (fun h => Or.inr (Or.inl h)) Or.inl
      · exact ih hused hr

theorem overChain_start (h0 : 0 ∉ l) (hnd : l.Nodup) (hr : r.startCluster ∉ l) {r' : FreeRun}
    {j : ℕ} (h : overChain (runCluster target n) data l r = .inl (r', c, j, b)) :
    RunStart (data c) c r' := by
  induction l generalizing r with
  | nil => cases h
  | cons d l ih =>
    obtain ⟨hd, hnd'⟩ := List.nodup_cons.mp hnd
    have hd0 : d ≠ 0 := fun h => h0 (h ▸ List.mem_cons_self)
    have hstart : RunStart (data d) d r := fun h => absurd (h ▸ List.mem_cons_self) hr
    have hscan := @scanFree_start (data d) d n 0 target r hd0 (fun _ => Or.inl rfl) hstart
    rw [overChain, runCluster] at h
    cases hres : scanFree target d (data d) n 0 r with
    | inl q =>
      rw [hres] at hscan h
      cases h
      exact hscan
    | inr r₁ =>
      rw [hres] at hscan h
      refine ih (fun h => h0 (List.mem_cons_of_mem d h)) hnd' ?_ h
      rcases hscan with hs | hs | hs
      · rw [hs]
        exact fun h => h0 (List.mem_cons_of_mem d h)
      · rw [hs]
        exact hd
      · rw [hs]
        exact fun h => hr (List.mem_cons_of_mem d h)

theorem scanFree_free (hc : c ≠ 0) (hn : 0 < n)
    (h : ∀ i, x ≤ i → i < x + n → isFree (slot b i) = true) {r' : FreeRun}
    (hres : scanFree target c b n x r = .inr r') : r'.startCluster ≠ 0 := by
  induction n generalizing x r with
  | zero => omega
  | succ n ih =>
    rw [scanFree, h x (Nat.le_refl x) (by omega)] at hres
    simp only [if_true] at hres
    have hrest {r₁ : FreeRun} (h₁ : r₁.startCluster ≠ 0)
      (hres : scanFree target c b n (x + 1) r₁ = .inr r') :
        r'.startCluster ≠ 0 := by
      by_cases hn0 : n = 0
      · subst hn0
        cases hres
        exact h₁
      · exact ih (by omega) (fun i hi hlt => h i (by omega) (by omega)) hres
    split_ifs at hres with hs
    · exact hrest hc hres
    · exact @hrest { r with approved := r.approved + 1 } hs hres

/-- The name that a new entry is read under. `form` is the number of its long name slots, and its
flags when it has none. -/
def storedName (name : Name) (attributes : Byte) (form : ℕ × SfnFlags) : Name :=
  if form.1 = 0 then parseSfnEntry (setSfnEntry (fun _ => 0) name attributes form.2)
    else longName name

theorem Filled.of_allFree (h : AllFree g b) : Filled g.slots b 0 :=
  ⟨Nat.zero_le _, fun i hi => absurd hi (Nat.not_lt_zero i),
    fun i _ hi => slotKind_eq_free.mp (h i hi)⟩

theorem Filled.firstFree (h : Filled g.slots b m) (hf : firstFree b g.slots 0 = some i) :
    i = m := by
  obtain ⟨-, hi, hfree, hused⟩ := firstFree_some hf
  rcases Nat.lt_trichotomy i m with hlt | heq | hgt
  · rw [h.used i hlt] at hfree
    cases hfree
  · exact heq
  · have hm := hused m (Nat.zero_le m) hgt
    rw [h.free m (Nat.le_refl m) (by omega)] at hm
    cases hm

theorem Filled.runStart (h : Filled g.slots b m) (hr : RunStart b c r) (hrc : r.startCluster = c)
    (hlt : r.startIndex < g.slots) (hfree : isFree (slot b r.startIndex) = true) :
    r.startIndex = m := by
  rcases Nat.lt_trichotomy r.startIndex m with hlt' | heq | hgt
  · rw [h.used _ hlt'] at hfree
    cases hfree
  · exact heq
  · rcases hr hrc with h0 | hused
    · omega
    · rw [h.free (r.startIndex - 1) (by omega) (by omega)] at hused
      cases hused

section NewEntry

variable (h : Filled g.slots b m) (hs : SlotsOk g.slots b) (hattr : attributes &&& 0xF ≠ 0xF)

include h hs hattr

/-- A short entry is read behind the others, if its first byte does not mark a free slot. -/
theorem Filled.withSfn (hm : m < g.slots) :
    (∃ m', Filled g.slots (withSfn g b m name attributes flags) m') ∧
      g.reads (withSfn g b m name attributes flags) = g.reads b ++
        if isFree (setSfnEntry (fun _ => 0) name attributes flags) = true then []
        else [(m, parseSfnEntry (setSfnEntry (fun _ => 0) name attributes flags))] := by
  have hslot (j : ℕ) (hj : j < g.slots) : slot (Fat32.withSfn g b m name attributes flags) j =
      slot (setSlot b m (setSfnEntry (fun _ => 0) name attributes flags)) j := by
    rw [Fat32.withSfn, g.clusterBytes_eq, slot_window hj]
  have hlfn : isLfn (setSfnEntry (fun _ => 0) name attributes flags) = false := by
    rw [isLfn, setSfnEntry_attributes]
    exact beq_eq_false_iff_ne.mpr hattr
  split_ifs with hfree
  · have hfill : Filled g.slots (Fat32.withSfn g b m name attributes flags) m := by
      refine ⟨h.le, fun j hj => ?_, fun j hj hlt => ?_⟩
      · rw [slot_withSfn_of_ne (by omega) (by omega)]
        exact h.used j hj
      · by_cases hjm : j = m
        · rw [hjm, slot_withSfn hm, isFree_window]
          exact hfree
        · rw [slot_withSfn_of_ne hlt hjm]
          exact h.free j hj hlt
    have hsame (j : ℕ) (hj : j < m) : slot (Fat32.withSfn g b m name attributes flags) j =
        slot b j :=
      slot_withSfn_of_ne (by omega) (by omega) flags
    refine ⟨⟨m, hfill⟩, ?_⟩
    rw [Geometry.reads, Geometry.reads, hfill.readSlots_eq, h.readSlots_eq, List.append_nil]
    rw [readUsed_congr fun j _ hj => hsame j (by omega)]
  · obtain ⟨hfill, hreads⟩ := h.short hs hm (Bool.eq_false_iff.mpr hfree) hlfn hslot
    exact ⟨⟨_, hfill⟩, hreads⟩

theorem Filled.withLfn (hname : name ≠ []) (hlen : name.length ≤ maxNameLength)
    (hm : m + lfnEntries name.length < g.slots) :
    (∃ m', Filled g.slots
      (withLfn g b (lfnEntries name.length) m (m + lfnEntries name.length) name attributes) m') ∧
      g.reads (withLfn g b (lfnEntries name.length) m
        (m + lfnEntries name.length) name attributes) =
        g.reads b ++ [(m + lfnEntries name.length, longName name)] := by
  have hlt := lfnEntries_lt_of_le hlen
  have hslot (j : ℕ) (hj : j < g.slots) :
      slot (Fat32.withLfn g b (lfnEntries name.length) m
      (m + lfnEntries name.length) name attributes) j =
        slot (lfnCluster name attributes (lfnEntries name.length) m (m + lfnEntries name.length) b)
        j := by
    rw [Fat32.withLfn, g.clusterBytes_eq, slot_window hj]
  obtain ⟨hfill, hreads⟩ := h.long hs hname hlt hm hattr hslot
  exact ⟨⟨_, hfill⟩, hreads⟩

end NewEntry

def Gapless (g : Geometry) (v : Vol) (o : Owners) : Prop :=
  ∀ c, o.InDir c → ∃ m, Filled g.slots (v.data c) m

/-- The used slots of a directory cluster are before the free ones, and no two entries of a
directory have the same name up to the case of the letters. -/
structure Tidy (g : Geometry) (v : Vol) (o : Owners) : Prop where
  filled : ∀ c, o.InDir c → ∃ m, Filled g.slots (v.data c) m
  unique : ∀ h, o.head h → o.dir h →
    ∀ c ∈ h :: o.tail h, ∀ d ∈ h :: o.tail h, ∀ x ∈ g.reads (v.data c),
    ∀ y ∈ g.reads (v.data d), nameMatches x.2 y.2 = true → c = d ∧ x.1 = y.1

theorem reads_of_allFree (h : AllFree g b) : g.reads b = [] := (Filled.of_allFree h).eq_nil

/-- The directory `k`, with the new clusters `zs` behind its own, has at most the entry `e` in the
cluster `z` more than before. -/
structure Added (g : Geometry) (v v' : Vol) (o : Owners) (k : ℕ) (zs : List ℕ) (z : ℕ)
    (e : ℕ × Name) : Prop where
  gapless : Gapless g v' (o.extend k zs)
  kept : ∀ c, o.InDir c → g.reads (v'.data c) = g.reads (v.data c) ∨
    (c = z ∧ c ∈ k :: o.tail k ∧ g.reads (v'.data c) = g.reads (v.data c) ++ [e])
  grown : ∀ c ∈ zs, g.reads (v'.data c) = [] ∨ (c = z ∧ g.reads (v'.data c) = [e])
  slots : ∀ c i, InfoAt g v o c i → slot (v'.data c) i = slot (v.data c) i

/-- The entry `e` in the cluster `z` of the directory `k` is read, and it is that of a new file. -/
structure NewFile (g : Geometry) (v : Vol) (o : Owners) (k : ℕ) (z : ℕ) (e : ℕ × Name)
    (attributes : Byte) : Prop where
  mem : z ∈ k :: o.tail k
  read : e ∈ g.reads (v.data z)
  attributes : slot (v.data z) e.1 11 = attributes
  firstCluster : firstCluster (slot (v.data z) e.1) = 0
  fileSize : fileSize (slot (v.data z) e.1) = 0

section Added

variable {zs : List ℕ} {z : ℕ} {e : ℕ × Name}

theorem NewFile.of_slot {d : Buffer} (hm : z ∈ k :: o.tail k) (hread : e ∈ g.reads (v.data z))
    (hslot : slot (v.data z) e.1 = window d 0 32) (hattr : d 11 = attributes)
    (hcluster : Fat32.firstCluster d = 0) (hsize : Fat32.fileSize d = 0) :
    NewFile g v o k z e attributes := by
  refine ⟨hm, hread, ?_, ?_, ?_⟩
  · rw [hslot, window_apply (by decide), hattr]
  · rw [hslot, firstCluster_window, hcluster]
  · rw [hslot, fileSize_window, hsize]

theorem Added.mem_reads {j : ℕ} {d : ℕ × Name} (h : Added g v v' o k zs z e) (hc : Consistent g v o)
    (hh : o.head k) (hj : o.head j) (hjd : o.dir j) (hcj : c ∈ j :: (o.extend k zs).tail j)
    (hd : d ∈ g.reads (v'.data c)) :
    (c ∈ j :: o.tail j ∧ d ∈ g.reads (v.data c)) ∨ (j = k ∧ c = z ∧ d = e) := by
  rcases Owners.mem_extend.mp hcj with hcj | ⟨hjk, hcz⟩
  · rcases h.kept c ⟨j, hj, hjd, hcj⟩ with hsame | ⟨hcz, hck, hmore⟩
    · rw [hsame] at hd
      exact Or.inl ⟨hcj, hd⟩
    · rw [hmore, List.mem_append] at hd
      refine hd.imp (fun hd => ⟨hcj, hd⟩) fun hd =>
        ⟨hc.disjoint j k c hj hh hcj hck, hcz, List.mem_singleton.mp hd⟩
  · rcases h.grown c hcz with hnil | ⟨hcz, hone⟩
    · rw [hnil] at hd
      cases hd
    · rw [hone] at hd
      exact Or.inr ⟨hjk, hcz, List.mem_singleton.mp hd⟩

theorem Added.tidy (h : Added g v v' o k zs z e) (ht : Tidy g v o) (hc : Consistent g v o)
    (hh : o.head k)
    (hfresh : ∀ c ∈ k :: o.tail k, ∀ d ∈ g.reads (v.data c), nameMatches d.2 e.2 = false) :
    Tidy g v' (o.extend k zs) := by
  refine ⟨h.gapless, fun j hj hjd c hcj d hdj x hx y hy hsame => ?_⟩
  rcases h.mem_reads hc hh hj hjd hcj hx with ⟨hcold, hxold⟩ | ⟨rfl, rfl, rfl⟩
  · rcases h.mem_reads hc hh hj hjd hdj hy with ⟨hdold, hyold⟩ | ⟨rfl, rfl, rfl⟩
    · exact ht.unique j hj hjd c hcold d hdold x hxold y hyold hsame
    · rw [hfresh c hcold x hxold] at hsame
      cases hsame
  · rcases h.mem_reads hc hh hj hjd hdj hy with ⟨hdold, hyold⟩ | ⟨-, rfl, rfl⟩
    · rw [nameMatches_comm, hfresh d hdold y hyold] at hsame
      cases hsame
    · exact ⟨rfl, rfl⟩

theorem Gapless.setData (h : Gapless g v o) (hm : c ∈ k :: o.tail k)
    (hfill : ∃ m, Filled g.slots b m)
    (hreads : g.reads b = g.reads (v.data c) ∨ g.reads b = g.reads (v.data c) ++ [e])
    (hslots : ∀ i < g.slots, slotKind (slot (v.data c) i) = .info → slot b i = slot (v.data c) i) :
    Added g v (v.setData c b) o k [] c e := by
  refine ⟨fun d hd => ?_, fun d hd => ?_, fun d hd => absurd hd List.not_mem_nil, fun d i hi => ?_⟩
  · by_cases hdc : d = c
    · rw [hdc, Vol.setData_self]
      exact hfill
    · rw [Vol.setData_of_ne hdc]
      rw [Owners.extend_nil] at hd
      exact h d hd
  · by_cases hdc : d = c
    · subst hdc
      rw [Vol.setData_self]
      exact hreads.imp id fun hreads => ⟨rfl, hm, hreads⟩
    · rw [Vol.setData_of_ne hdc]
      exact Or.inl rfl
  · by_cases hdc : d = c
    · subst hdc
      rw [Vol.setData_self]
      exact hslots i hi.lt hi.info
    · rw [Vol.setData_of_ne hdc]

theorem Gapless.extend {D : ℕ → Buffer} (h : Gapless g v o) (hc : Consistent g v o)
    (hgr : Grown g v v' (k :: o.tail k) zs) (hold : ∀ c, c ∉ zs → D c = v.data c)
    (hnew : ∀ c ∈ zs, (∃ m, Filled g.slots (D c) m) ∧
      (g.reads (D c) = [] ∨ (c = z ∧ g.reads (D c) = [e]))) :
    Added g v { v' with data := D } o k zs z e := by
  have hkept (c : ℕ) (hin : o.InDir c) : ({ v' with data := D } : Vol).data c = v.data c := by
    obtain ⟨j, hj, -, hcj⟩ := hin
    exact hold c fun hz => hc.not_head_mem hgr hj hz hcj
  refine ⟨fun c hin => ?_, fun c hin => Or.inl (by rw [hkept c hin]), fun c hcz => (hnew c hcz).2,
    fun c i hi => ?_⟩
  · obtain ⟨j, hj, hjd, hcj⟩ := hin
    rcases Owners.mem_extend.mp hcj with hcj | ⟨-, hcz⟩
    · rw [hkept c ⟨j, hj, hjd, hcj⟩]
      exact h c ⟨j, hj, hjd, hcj⟩
    · exact (hnew c hcz).1
  · rw [hkept c hi.inDir]

end Added

section Stored

variable {form : ℕ × SfnFlags}

theorem reads_withSfn_stored (hn : form.1 = 0)
    (hreads : g.reads (withSfn g b m name attributes form.2) = g.reads b ++
      if isFree (setSfnEntry (fun _ => 0) name attributes form.2) = true then []
      else [(m, parseSfnEntry (setSfnEntry (fun _ => 0) name attributes form.2))]) :
    g.reads (withSfn g b m name attributes form.2) = g.reads b ∨
      g.reads (withSfn g b m name attributes form.2) =
        g.reads b ++ [(m, storedName name attributes form)] := by
  rw [hreads, storedName, if_pos hn]
  split_ifs
  · exact Or.inl (List.append_nil _)
  · exact Or.inr rfl

theorem NewFile.of_withSfn {z : ℕ} (hn : form.1 = 0) (hm : m < g.slots)
    (hread : isFree (setSfnEntry (fun _ => 0) name attributes form.2) = false)
    (hz : z ∈ k :: o.tail k) (hdata : v.data z = withSfn g b m name attributes form.2)
    (hreads : g.reads (withSfn g b m name attributes form.2) = g.reads b ++
      if isFree (setSfnEntry (fun _ => 0) name attributes form.2) = true then []
      else [(m, parseSfnEntry (setSfnEntry (fun _ => 0) name attributes form.2))]) :
    NewFile g v o k z (m, storedName name attributes form) attributes := by
  refine NewFile.of_slot hz ?_ ?_ (setSfnEntry_attributes _ _ _ _)
    (firstCluster_setSfnEntry attributes name form.2) (fileSize_setSfnEntry attributes name form.2)
  · rw [hdata, hreads, hread, storedName, if_pos hn]
    simp
  · rw [hdata, slot_withSfn hm]

/-- A run of free slots that starts in the cluster where it ends starts behind its last entry. -/
theorem Gapless.run_start {j : ℕ} (ht : Gapless g v o) (hc : Consistent g v o) (hh : o.head k)
    (hd : o.dir k) (hr : r.startCluster = c)
    (hrun : freeRun g v.data n (k :: o.tail k) = .inl (r, c, j, v.data c)) :
    c ∈ k :: o.tail k ∧ j = r.startIndex + n ∧ j < g.slots ∧
      Filled g.slots (v.data c) r.startIndex := by
  have hspec := hc.freeRun_spec hh n
  rw [hrun] at hspec
  obtain ⟨hm, hj, -, ⟨-, hend, hfree⟩ | ⟨hne, -⟩⟩ := hspec
  · obtain ⟨m, hfill⟩ := ht c ⟨k, hh, hd, hm⟩
    have hch := hc.chains k hh
    have h0 : 0 ∉ k :: o.tail k := fun h0 => absurd (hch.inData 0 h0).1 (by decide)
    have hstart := overChain_start h0 hch.chain.nodup h0 hrun
    have hrm := hfill.runStart hstart hr (by omega) (hfree _ (Nat.le_refl _) (by omega))
    exact ⟨hm, hend.symm, hj, hrm ▸ hfill⟩
  · exact absurd hr hne

/-- A long name is written behind the last entry of its cluster. -/
theorem Gapless.setLong (ht : Gapless g v o) (hc : Consistent g v o) (hh : o.head k)
    (hd : o.dir k) (hattr : attributes &&& 0xF ≠ 0xF) (hname : name ≠ [])
    (hlen : name.length ≤ maxNameLength) (hm : c ∈ k :: o.tail k)
    (hfill : Filled g.slots (v.data c) m) (hj : m + lfnEntries name.length < g.slots) :
    Added g v (v.setData c (withLfn g (v.data c) (lfnEntries name.length) m
        (m + lfnEntries name.length) name attributes)) o k [] c
        (m + lfnEntries name.length, longName name) ∧
      NewFile g (v.setData c (withLfn g (v.data c) (lfnEntries name.length) m
        (m + lfnEntries name.length) name attributes)) o k c
        (m + lfnEntries name.length, longName name) attributes := by
  have hlt := lfnEntries_lt_of_le hlen
  obtain ⟨hfill', hreads⟩ := hfill.withLfn (hc.slots c ⟨k, hh, hd, hm⟩) hattr hname hlen hj
  have hall := @slot_lfnCluster name attributes (lfnEntries name.length) m
    (m + lfnEntries name.length) (v.data c) (by omega) hlt
  constructor
  · refine ht.setData hm hfill' (Or.inr hreads) fun i hi hinfo => ?_
    have hne : ¬ (m ≤ i ∧ i ≤ m + lfnEntries name.length) := by
      rintro ⟨hmi, -⟩
      rw [slotKind_eq_free.mpr (hfill.free i hmi hi)] at hinfo
      cases hinfo
    rw [withLfn, g.clusterBytes_eq, slot_window hi, hall, if_neg (by omega), if_neg (by omega)]
  · refine NewFile.of_slot hm ?_ ?_ (setInfoEntry_attributes _ _)
      (firstCluster_setInfoEntry (slot (v.data c) (m + lfnEntries name.length)) attributes)
      (fileSize_setInfoEntry (slot (v.data c) (m + lfnEntries name.length)) attributes)
    · rw [Vol.setData_self, hreads]
      exact List.mem_append_right _ (List.mem_singleton_self _)
    · rw [Vol.setData_self, withLfn, g.clusterBytes_eq, slot_window hj, hall, if_pos rfl]

end Stored

section Entry

variable {form : ℕ × SfnFlags} {st : FatStatus}
  (h : EntryStep g v o k name attributes form st v' o')
  (hg : g.Valid) (hc : Consistent g v o) (ht : Gapless g v o) (hh : o.head k) (hd : o.dir k)
  (hattr : attributes &&& 0xF ≠ 0xF) (hname : name ≠ []) (hlen : name.length ≤ maxNameLength)
  (hform : form.1 ≠ 0 → form.1 = lfnEntries name.length)

include h hg hc ht hh hd hattr hname hlen hform

/-- A new entry adds its stored name, if its long name finds its slots in the directory. -/
theorem EntryStep.added
    (hrun : ∀ r, form.1 ≠ 0 → freeRun g v.data form.1 (k :: o.tail k) = .inr r →
      r.startCluster ≠ 0) :
    ∃ zs z i, o' = o.extend k zs ∧ Added g v v' o k zs z (i, storedName name attributes form) ∧
      (st = .success →
        (form.1 = 0 → isFree (setSfnEntry (fun _ => 0) name attributes form.2) = false) →
        NewFile g v' o' k z (i, storedName name attributes form) attributes) := by
  have hzero : AllFree g (fun _ => 0) := fun i _ => slotKind_eq_free.mpr rfl
  have hpos := hg.slots_pos
  cases h with
  | refused hst =>
    refine ⟨[], 0, 0, (Owners.extend_nil o k).symm, ⟨?_, fun c _ => Or.inl rfl,
      fun c hcz => absurd hcz List.not_mem_nil, fun c i _ => rfl⟩,
      fun h => absurd h hst⟩
    rw [Owners.extend_nil]
    exact ht
  | @short c i hn hf =>
    obtain ⟨hm, hfirst⟩ := freeSlot_mem hf
    obtain ⟨m, hfill⟩ := ht c ⟨k, hh, hd, hm⟩
    cases hfill.firstFree hfirst
    obtain ⟨-, hlt, hfree, -⟩ := firstFree_some hfirst
    obtain ⟨hfill', hreads⟩ := @Filled.withSfn g (v.data c) i name attributes form.2 hfill
      (hc.slots c ⟨k, hh, hd, hm⟩) hattr (by omega)
    refine ⟨[], c, i, (Owners.extend_nil o k).symm,
      ht.setData hm hfill' (reads_withSfn_stored hn hreads) fun j hj hinfo => ?_,
      fun _ hread => ?_⟩
    · refine slot_withSfn_of_ne hj ?_ _
      rintro rfl
      rw [slotKind_eq_free.mpr hfree] at hinfo
      cases hinfo
    · exact NewFile.of_withSfn hn (by omega) (hread hn) hm (by rw [Vol.setData_self]) hreads
  | @shortGrown v' z hn hf hgr =>
    obtain ⟨hfill', hreads⟩ :=
      @Filled.withSfn g (fun _ => 0) 0 name attributes form.2 (Filled.of_allFree hzero)
      (slotsOk_of_free hzero) hattr hpos
    refine ⟨[z], z, 0, rfl, ht.extend hc hgr (fun c hcz => ?_) fun c hcz => ?_, fun _ hread => ?_⟩
    · rw [Function.update_of_ne (by simpa using hcz), hgr.data]
    · cases List.mem_singleton.mp hcz
      have hnew := reads_withSfn_stored hn hreads
      rw [reads_of_allFree hzero] at hnew
      rw [Function.update_self]
      exact ⟨hfill', hnew.imp id fun hnew => ⟨rfl, hnew⟩⟩
    · exact NewFile.of_withSfn hn hpos (hread hn)
        (Owners.mem_extend.mpr (Or.inr ⟨rfl, List.mem_singleton_self z⟩))
        (by rw [Vol.setData_self]) hreads
  | @long r c hn hr hrun' =>
    obtain ⟨hm, -, hj, hfill⟩ := ht.run_start hc hh hd hr hrun'
    rw [hform hn] at hj ⊢
    obtain ⟨hadded, hnew⟩ := ht.setLong hc hh hd hattr hname hlen hm hfill hj
    have hname' : storedName name attributes form = longName name := by rw [storedName, if_neg hn]
    rw [hname']
    exact ⟨[], c, _, (Owners.extend_nil o k).symm, hadded, fun _ _ => hnew⟩
  | longGrown hn hr hrun' => exact absurd hr (hrun _ hn hrun')
  | @cleared v' z zs hgr =>
    refine ⟨z :: zs, z, 0, rfl, ht.extend hc hgr (fun c hcz => ?_) fun c hcz => ?_, fun h => by
      cases h⟩
    · rw [clearAll, if_neg hcz]
    · have hclear : AllFree g (clearAll g v.data (z :: zs) c) := by
        rw [clearAll, if_pos hcz]
        exact allFree_zero g
      exact ⟨⟨0, Filled.of_allFree hclear⟩, Or.inl (reads_of_allFree hclear)⟩

end Entry

theorem Filled.congr (h : Filled n b m) (hfree : ∀ i < n, isFree (slot b' i) = isFree (slot b i)) :
    Filled n b' m := by
  refine ⟨h.le, fun i hi => ?_, fun i hi hlt => ?_⟩
  · have := h.le
    rw [hfree i (by omega)]
    exact h.used i hi
  · rw [hfree i hlt]
    exact h.free i hi hlt

/-- The first cluster of a directory changes neither the names nor the free slots of the others. -/
theorem DirLinked.reads {z : ℕ} (h : DirLinked g v v' o z) (hin : o.InDir c) :
    g.reads (v'.data c) = g.reads (v.data c) ∧
      ∀ i < g.slots, isFree (slot (v'.data c) i) = isFree (slot (v.data c) i) := by
  have hslot (i : ℕ) (hi : i < g.slots) : slot (v'.data c) i = slot (v.data c) i ∨
      SameName (slot (v.data c) i) (slot (v'.data c) i) := by
    refine (h.slots c hin i hi).imp id fun hedit => ?_
    rw [hedit.2.2.2]
    exact sameName_apply z (isLfn_of_info hedit.1) fun hattr => by cases hattr
  refine ⟨readSlots_congr (fun i hi => hslot i (by omega)) _, fun i hi => ?_⟩
  rcases hslot i hi with hs | hs
  · rw [hs]
  · rw [isFree, isFree, hs.bytes 0 (by decide) (by decide)]

section Link

variable {j z : ℕ}

theorem Owners.of_add (hjz : j ≠ z) (hj : (o.add z [] True).head j) (hjd : (o.add z [] True).dir j)
    (hcj : c ∈ j :: (o.add z [] True).tail j) : o.head j ∧ o.dir j ∧ c ∈ j :: o.tail j := by
  rw [Owners.add_dir_of_ne hjz] at hjd
  rw [Owners.add_tail_of_ne hjz] at hcj
  exact ⟨hj.resolve_left hjz, hjd, hcj⟩

theorem Gapless.link (h : Gapless g v o) (hl : DirLinked g v v' o z) :
    Gapless g v' (o.add z [] True) := by
  rintro c ⟨j, hj, hjd, hcj⟩
  by_cases hjz : j = z
  · rw [hjz, Owners.add_tail_self] at hcj
    rw [List.mem_singleton.mp hcj]
    exact ⟨0, Filled.of_allFree hl.free⟩
  · obtain ⟨hj, hjd, hcj⟩ := Owners.of_add hjz hj hjd hcj
    obtain ⟨m, hfill⟩ := h c ⟨j, hj, hjd, hcj⟩
    exact ⟨m, hfill.congr (hl.reads ⟨j, hj, hjd, hcj⟩).2⟩

theorem Tidy.link (h : Tidy g v o) (hl : DirLinked g v v' o z) : Tidy g v' (o.add z [] True) := by
  refine ⟨Gapless.link h.filled hl, fun j hj hjd c hcj d hdj x hx y hy hsame => ?_⟩
  by_cases hjz : j = z
  · rw [hjz, Owners.add_tail_self] at hcj
    rw [List.mem_singleton.mp hcj, reads_of_allFree hl.free] at hx
    cases hx
  · obtain ⟨hjo, hjdo, hcj⟩ := Owners.of_add hjz hj hjd hcj
    obtain ⟨-, -, hdj⟩ := Owners.of_add hjz hj hjd hdj
    rw [(hl.reads ⟨j, hjo, hjdo, hcj⟩).1] at hx
    rw [(hl.reads ⟨j, hjo, hjdo, hdj⟩).1] at hy
    exact h.unique j hjo hjdo c hcj d hdj x hx y hy hsame

end Link

/-- In a directory with free slots only, a run is found or goes on behind its cluster. -/
theorem Vacant.run (h : Vacant g v o k) (hg : g.Valid) (hk : k ≠ 0) {r : FreeRun}
    (hrun : freeRun g v.data n (k :: o.tail k) = .inr r) : r.startCluster ≠ 0 := by
  have hpos := hg.slots_pos
  rw [freeRun, h.1, overChain, runCluster] at hrun
  cases hscan : scanFree (n + 1) k (v.data k) g.slots 0 ⟨0, 0, 0⟩ with
  | inl q =>
    rw [hscan] at hrun
    cases hrun
  | inr r' =>
    rw [hscan] at hrun
    cases hrun
    exact scanFree_free hk hpos (fun i _ hi => slotKind_eq_free.mp (h.2 i (by omega))) hscan

end DevOs.Fat32
