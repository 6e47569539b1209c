import DevOs.Disks.Model
import DevOs.Lib.Runs

/-!
# The registry of disks

A run of `CreateDisk` and `RemoveDisk` calls keeps the numbers of the disks that are there: the ones
that `CreateDisk` returned and that no `RemoveDisk` took since. The id of such a disk is the number
of its place. The validator walks as many lists as the position of the disk in its list, and then
looks at that position, so it finds the disks at the places `121 * i` and no others, and the first
place also when nothing is there.
-/

namespace DevOs.Disks

open Chained Runs

namespace DiskTable

variable {t : DiskTable} {live : ℕ → Bool} {k : ℕ} {p : Pointer}

def disk (t : DiskTable) (k : ℕ) : Option DiskDevice := t.disks.used unitsPerList freeDisk k

/-- Every disk that is there sits at a place where the validator looks, and the first place is not
free. -/
def Diagonal (t : DiskTable) : Prop :=
  t.Present 0 ∧ ∀ k, t.Present k → k % unitsPerList = k / unitsPerList

/-- What the registry promises for the disks that are there. -/
structure Registered (t : DiskTable) (live : ℕ → Bool) : Prop where
  ids_distinct : ∀ j k, live j = true → live k = true →
    (t.disks.entry j).diskId = (t.disks.entry k).diskId → j = k
  validated : ∀ p, t.validateDisk p = true ↔ ∃ k, p = .entry k ∧ live k = true
  removed : ∀ p, (t.removeDisk p).2 = true ↔ ∃ k, p = .entry k ∧ live k = true
  others_kept : ∀ p j, p ≠ .entry j → (t.removeDisk p).1.disk j = t.disk j

/-- What every call keeps. -/
structure Numbered (s : DiskTable × (ℕ → Bool)) : Prop where
  lists_pos : 0 < s.1.disks.lists
  clean : s.1.disks.Clean unitsPerList freeDisk zeroDisk
  live_iff : ∀ k, s.2 k = true ↔ s.1.disk k ≠ none
  numbered : ∀ k d, s.1.disk k = some d → d.diskId = k

theorem present_iff : t.Present k ↔ t.disk k ≠ none := by
  rw [disk, Ne, Chain.used_eq_none, not_not, Present, freeDisk, Bool.not_eq_false']

theorem disk_of_present (h : t.Present k) : t.disk k = some (t.disks.entry k) := by
  refine Chain.used_eq_some.mpr ⟨h.1, ?_, rfl⟩
  rw [freeDisk, h.2]
  rfl

theorem Numbered.id_of_present (h : Numbered (t, live)) (hk : t.Present k) :
    (t.disks.entry k).diskId = k :=
  h.numbered k _ (disk_of_present hk)

theorem Numbered.id_of_free (h : Numbered (t, live)) (hk : ¬t.Present k) :
    (t.disks.entry k).diskId = 0 := by
  rw [present_iff, not_not] at hk
  rw [show t.disks.entry k = zeroDisk from h.clean k hk]
  rfl

theorem Numbered.live_iff_present (h : Numbered (t, live)) : live k = true ↔ t.Present k :=
  (h.live_iff k).trans present_iff.symm

theorem validateDisk_entry :
    t.validateDisk (.entry k) = true ↔
      (t.disks.entry k).diskId % unitsPerList < t.disks.lists ∧
      (t.disks.entry k).diskId % unitsPerList * unitsPerList +
        (t.disks.entry k).diskId % unitsPerList = k := by
  have hnull : Pointer.entry k ≠ .null := nofun
  rw [validateDisk, if_neg hnull, record]
  dsimp only
  split
  · next hlt => rw [decide_eq_true_iff, Pointer.entry.injEq, and_iff_right hlt]
  · next hlt => exact ⟨fun h => absurd h Bool.false_ne_true, fun h => absurd h.1 hlt⟩

theorem entry_of_validateDisk (h : t.validateDisk p = true) : ∃ k, p = .entry k := by
  cases p with
  | entry k => exact ⟨k, rfl⟩
  | null =>
    rw [validateDisk, if_pos rfl] at h
    cases h
  | other a =>
    rw [validateDisk, if_neg (by nofun)] at h
    dsimp only at h
    split at h
    · cases of_decide_eq_true h
    · cases h

theorem Numbered.validateDisk_iff (h : Numbered (t, live)) :
    t.validateDisk (.entry k) = true ↔
      t.Present k ∧ k % unitsPerList = k / unitsPerList ∨ ¬t.Present k ∧ k = 0 := by
  rw [validateDisk_entry]
  by_cases hk : t.Present k
  · have hlt : k < t.disks.lists * unitsPerList := hk.1
    rw [h.id_of_present hk]
    rw [unitsPerList] at *
    constructor
    · rintro ⟨-, heq⟩
      exact Or.inl ⟨hk, by omega⟩
    · rintro (⟨-, heq⟩ | ⟨hfree, -⟩)
      · exact ⟨by omega, by omega⟩
      · exact absurd hk hfree
  · have hpos : 0 < t.disks.lists := h.lists_pos
    rw [h.id_of_free hk, Nat.zero_mod, Nat.zero_mul]
    constructor
    · rintro ⟨-, heq⟩
      exact Or.inr ⟨hk, heq.symm⟩
    · rintro (⟨hpres, -⟩ | ⟨-, rfl⟩)
      · exact absurd hpres hk
      · exact ⟨hpos, rfl⟩

theorem removeDisk_snd : (t.removeDisk p).2 = t.validateDisk p := by
  rw [removeDisk.eq_def]
  split
  · next h =>
    rw [h]
    cases p <;> rfl
  · next h => exact (Bool.eq_false_iff.mpr h).symm

theorem removeDisk_of_not (h : t.validateDisk p ≠ true) : (t.removeDisk p).1 = t := by
  rw [removeDisk.eq_def, if_neg h]

theorem removeDisk_of_entry (h : t.validateDisk (.entry k) = true) :
    (t.removeDisk (.entry k)).1 = { t with disks := t.disks.set k zeroDisk } := by
  rw [removeDisk, if_pos h]

theorem removeDisk_disk (j : ℕ) :
    (t.removeDisk p).1.disk j = if t.validateDisk p = true ∧
    p = .entry j then none else t.disk j := by
  by_cases h : t.validateDisk p = true
  · obtain ⟨k, rfl⟩ := entry_of_validateDisk h
    rw [removeDisk_of_entry h]
    refine (Chain.used_clear rfl j).trans (if_congr ?_ rfl rfl)
    rw [and_iff_right h, Pointer.entry.injEq]
    exact eq_comm
  · rw [removeDisk_of_not h, if_neg fun hp => h hp.1]

/-- In a numbered registry the promise holds where every disk is on the diagonal, and nowhere
else. -/
theorem Numbered.registered_iff (h : Numbered (t, live)) : t.Registered live ↔ t.Diagonal := by
  constructor
  · intro hr
    have hzero : t.Present 0 := by
      by_contra hfree
      have hvalid := h.validateDisk_iff.mpr (Or.inr ⟨hfree, rfl⟩)
      obtain ⟨k, hk, hlive⟩ := (hr.validated _).mp hvalid
      cases hk
      exact hfree (h.live_iff_present.mp hlive)
    refine ⟨hzero, fun k hk => ?_⟩
    have hvalid := (hr.validated (.entry k)).mpr ⟨k, rfl, h.live_iff_present.mpr hk⟩
    rcases h.validateDisk_iff.mp hvalid with hd | hfree
    · exact hd.2
    · exact absurd hk hfree.1
  · rintro ⟨hzero, hdiag⟩
    have hvalid : ∀ p, t.validateDisk p = true ↔ ∃ k, p = .entry k ∧ live k = true := by
      intro p
      constructor
      · intro hp
        obtain ⟨k, rfl⟩ := entry_of_validateDisk hp
        rcases h.validateDisk_iff.mp hp with hd | ⟨hfree, rfl⟩
        · exact ⟨k, rfl, h.live_iff_present.mpr hd.1⟩
        · exact absurd hzero hfree
      · rintro ⟨k, rfl, hlive⟩
        have hk := h.live_iff_present.mp hlive
        exact h.validateDisk_iff.mpr (Or.inl ⟨hk, hdiag k hk⟩)
    refine ⟨fun j k hj hk hid => ?_, hvalid, fun p => ?_, fun p j hp => ?_⟩
    · rw [h.id_of_present (h.live_iff_present.mp hj),
        h.id_of_present (h.live_iff_present.mp hk)] at hid
      exact hid
    · rw [removeDisk_snd]
      exact hvalid p
    · rw [removeDisk_disk, if_neg fun hd => hp hd.2]

/-- What a creation does when it is not refused: a disk at a place where none was, under the number
of the place. -/
structure Created (t t' : DiskTable) (k : ℕ) : Prop where
  lists_pos : 0 < t.disks.lists → 0 < t'.disks.lists
  clean : t.disks.Clean unitsPerList freeDisk zeroDisk →
    t'.disks.Clean unitsPerList freeDisk zeroDisk
  unused : t.disk k = none
  disk_eq : ∃ d : DiskDevice, d.diskId = k ∧ ∀ j, t'.disk j = if j = k then some d else t.disk j

theorem createDisk_cases (sd : ℕ) (info : Option DiskInfo) (device : ℕ) (valid : Bool) :
    t.createDisk sd info device valid = (t, .null) ∨
      ∃ k, (t.createDisk sd info device valid).2 = .entry k ∧
      t.Created (t.createDisk sd info device valid).1 k := by
  rcases info with - | info
  · exact Or.inl rfl
  rcases valid with - | -
  · exact Or.inl rfl
  right
  have hin : (t.disks.place unitsPerList freeDisk zeroDisk).1.InChain unitsPerList
      (t.disks.place unitsPerList freeDisk zeroDisk).2 := Chain.place_inChain (by decide)
  refine ⟨(t.disks.place unitsPerList freeDisk zeroDisk).2, rfl, Chain.place_lists_pos,
    fun hc => (hc.place rfl).set hin rfl, Chain.place_unused, ⟨true, _, sd, device, info⟩, rfl,
    fun j => ?_⟩
  refine (Chain.used_set hin rfl j).trans (if_congr Iff.rfl rfl ?_)
  exact Chain.place_used rfl j

end DiskTable

open DiskTable

/-- The disks that are there: those that `CreateDisk` returned, until `RemoveDisk` succeeds on
them. -/
def DiskCall.note (t : DiskTable) (c : DiskCall) (live : ℕ → Bool) : ℕ → Bool :=
  match c with
  | .create sd info device valid =>
    match (t.createDisk sd info device valid).2 with
    | .entry k => Function.update live k true
    | _ => live
  | .remove p =>
    match p with
    | .entry k => if (t.removeDisk p).2 then Function.update live k false else live
    | _ => live

theorem numbered_initial (others : ℕ → DiskDevice) (extensionPointer : ℕ → Pointer) :
    Numbered (.initial others extensionPointer, fun _ => false) where
  lists_pos := Nat.one_pos
  clean := Chain.clean_initial
  live_iff := fun k => iff_of_false Bool.false_ne_true (not_not.mpr (Chain.used_initial rfl))
  numbered := by
    intro k d hd
    cases (Chain.used_initial rfl).symm.trans hd

section Places

variable {t t' : DiskTable} {live : ℕ → Bool} {k : ℕ}

theorem DiskTable.Numbered.used (h : Numbered (t, live)) (hc : t.Created t' k) :
    Numbered (t', Function.update live k true) := by
  obtain ⟨d, hid, hdisk⟩ := hc.disk_eq
  refine ⟨hc.lists_pos h.lists_pos, hc.clean h.clean, fun j => ?_, fun j e he => ?_⟩
  · change Function.update live k true j = true ↔ t'.disk j ≠ none
    rw [hdisk]
    by_cases hj : j = k
    · rw [if_pos hj, hj]
      exact iff_of_true (Function.update_self _ _ _) (Option.some_ne_none d)
    · rw [if_neg hj, Function.update_of_ne hj]
      exact h.live_iff j
  · change t'.disk j = some e at he
    rw [hdisk] at he
    by_cases hj : j = k
    · rw [if_pos hj] at he
      rw [← Option.some.inj he, hj, hid]
    · rw [if_neg hj] at he
      exact h.numbered j e he

theorem DiskTable.Numbered.freed (h : Numbered (t, live)) :
    Numbered ({ t with disks := t.disks.set k zeroDisk }, Function.update live k false) := by
  have hdisk : ∀ j, DiskTable.disk { t with disks := t.disks.set k zeroDisk } j =
      if j = k then none else t.disk j := fun j => Chain.used_clear rfl j
  refine ⟨h.lists_pos, h.clean.clear rfl, fun j => ?_, fun j e he => ?_⟩
  · change Function.update live k false j = true ↔
      DiskTable.disk { t with disks := t.disks.set k zeroDisk } j ≠ none
    rw [hdisk]
    by_cases hj : j = k
    · rw [if_pos hj, hj, Function.update_self]
      exact iff_of_false Bool.false_ne_true (not_not.mpr rfl)
    · rw [if_neg hj, Function.update_of_ne hj]
      exact h.live_iff j
  · change DiskTable.disk { t with disks := t.disks.set k zeroDisk } j = some e at he
    rw [hdisk] at he
    by_cases hj : j = k
    · rw [if_pos hj] at he
      cases he
    · rw [if_neg hj] at he
      exact h.numbered j e he

theorem DiskTable.Numbered.create (h : Numbered (t, live)) (sd : ℕ) (info : Option DiskInfo)
    (device : ℕ) (valid : Bool) :
    Numbered ((t.createDisk sd info device valid).1,
      (DiskCall.create sd info device valid).note t live) := by
  rcases t.createDisk_cases sd info device valid with hnull | ⟨k, hk, hc⟩
  · rw [DiskCall.note, hnull]
    exact h
  · rw [DiskCall.note, hk]
    exact h.used hc

theorem DiskTable.Numbered.remove (h : Numbered (t, live)) (p : Pointer) :
    Numbered ((t.removeDisk p).1, (DiskCall.remove p).note t live) := by
  by_cases hp : t.validateDisk p = true
  · obtain ⟨k, rfl⟩ := entry_of_validateDisk hp
    have hnote : (DiskCall.remove (.entry k)).note t live = Function.update live k false :=
      if_pos (removeDisk_snd.trans hp)
    rw [hnote, removeDisk_of_entry hp]
    exact h.freed
  · rw [removeDisk_of_not hp]
    cases p with
    | entry k =>
      have hnote : (DiskCall.remove (.entry k)).note t live = live :=
        if_neg fun hr => hp (removeDisk_snd.symm.trans hr)
      rw [hnote]
      exact h
    | null => exact h
    | other a => exact h

end Places

theorem DiskTable.Numbered.step {s s' : DiskTable × (ℕ → Bool)} {c : DiskCall} (h : Numbered s)
    (hs : watched DiskCall.run (fun t c => c.note t) s c = some s') : Numbered s' := by
  obtain ⟨hrun, hnote⟩ := watched_eq_some.mp hs
  obtain ⟨t', live'⟩ := s'
  obtain rfl : live' = _ := hnote
  cases c with
  | create sd info device valid =>
    obtain rfl := Option.some.inj hrun
    exact Numbered.create h sd info device valid
  | remove p =>
    obtain rfl := Option.some.inj hrun
    exact Numbered.remove h p

/-- In every state that the calls reach, the registry keeps its promise if and only if the first
place holds a disk and every disk sits at a place whose position in its list is the number of the
list. -/
theorem registered_iff_diagonal (others : ℕ → DiskDevice) (extensionPointer : ℕ → Pointer)
    (s : DiskTable × (ℕ → Bool))
    (h : Reaches (watched DiskCall.run fun t c => c.note t) anyStep
      (.initial others extensionPointer, fun _ => false) s) :
    s.1.Registered s.2 ↔ s.1.Diagonal :=
  (h.invariant (fun _ _ _ hi _ hs => Numbered.step hi hs)
    (numbered_initial others extensionPointer)).registered_iff

def smallInfo : DiskInfo := ⟨0, 8, 512, 1, 0, 0⟩

def oneDisk : DiskTable × (ℕ → Bool) :=
  (((DiskTable.initial (fun _ => zeroDisk) fun _ => .null).createDisk 7 (some smallInfo) 1 true).1,
    Function.update (fun _ => false) 0 true)

def twoDisks : DiskTable × (ℕ → Bool) :=
  ((oneDisk.1.createDisk 7 (some smallInfo) 2 true).1, Function.update oneDisk.2 1 true)

theorem oneDisk_reached :
    Reaches (watched DiskCall.run fun t c => c.note t) anyStep
      (.initial (fun _ => zeroDisk) fun _ => .null, fun _ => false) oneDisk :=
  Reaches.head (a := .create 7 (some smallInfo) 1 true) trivial rfl (Reaches.refl _)

theorem oneDisk_diagonal : oneDisk.1.Diagonal := by
  refine ⟨by decide, fun k hk => ?_⟩
  by_cases hzero : k = 0
  · rw [hzero]
    rfl
  · have hfree : oneDisk.1.disks.entry k = zeroDisk := Function.update_of_ne hzero _ _
    rw [DiskTable.Present, hfree] at hk
    cases hk.2

theorem oneDisk_registered : oneDisk.1.Registered oneDisk.2 :=
  (registered_iff_diagonal _ _ oneDisk oneDisk_reached).mpr oneDisk_diagonal

/-- The second disk is there, and the validator looks for it in a list that does not exist. -/
theorem twoDisks_unvalidated :
    Reaches (watched DiskCall.run fun t c => c.note t) anyStep
      (.initial (fun _ => zeroDisk) fun _ => .null, fun _ => false) twoDisks ∧
    twoDisks.2 1 = true ∧ twoDisks.1.validateDisk (.entry 1) = false ∧
    ¬twoDisks.1.Registered twoDisks.2 := by
  refine ⟨?_, rfl, by decide, fun h => ?_⟩
  · refine Reaches.head (a := .create 7 (some smallInfo) 1 true) trivial rfl ?_
    exact Reaches.head (a := .create 7 (some smallInfo) 2 true) trivial rfl (Reaches.refl _)
  · have hvalid := (h.validated (.entry 1)).mpr ⟨1, rfl, rfl⟩
    exact Bool.false_ne_true ((show twoDisks.1.validateDisk (.entry 1) = false by
      decide).symm.trans hvalid)

end DevOs.Disks
