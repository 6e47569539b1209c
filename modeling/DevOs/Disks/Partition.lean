import DevOs.Disks.Model
import DevOs.Lib.Runs

/-!
# The registry of partitions

`GetPartition` decodes an id into the number of a list and a position in it, and walks that many
lists. In every run of the calls a partition has the number of its place as its id, and the main and
the system partition are `NULL` or there. So ids are distinct, a lookup finds the partition with the
id it asks for and nothing else, and a call changes the partition that it is about and no other.
-/

namespace DevOs.Disks

open Chained Runs

namespace PartitionTable

variable {t t' : PartitionTable} {p : Pointer} {k j id : ℕ} {x : PartitionInstance}

/-- A pointer that is `NULL` or leads to a partition. -/
def Held (t : PartitionTable) (p : Pointer) : Prop :=
  p = .null ∨ ∃ k x, p = .entry k ∧ t.partition k = some x

/-- What every call keeps. -/
structure Numbered (t : PartitionTable) : Prop where
  numbered : ∀ k x, t.partition k = some x → x.partitionId = k
  main_held : t.Held t.mainPartition
  system_held : t.Held t.systemPartition

theorem partition_ne_none :
    t.partition k ≠ none ↔ k < t.partitions.lists * unitsPerList ∧
    (t.partitions.entry k).present = true := by
  rw [partition, Ne, Chain.used_eq_none, not_not, freePartition, Bool.not_eq_false']
  rfl

theorem entry_of_partition (h : t.partition k = some x) : t.partitions.entry k = x :=
  (Chain.used_eq_some.mp h).2.2

theorem partition_of_ne_none (h : t.partition k ≠ none) :
    t.partition k = some (t.partitions.entry k) := by
  obtain ⟨x, hx⟩ := Option.ne_none_iff_exists'.mp h
  rw [hx, entry_of_partition hx]

/-- A lookup yields the place of the number that it gets, when a partition is there. -/
theorem getPartition_eq_entry : t.getPartition id = .entry k ↔ id = k ∧ t.partition k ≠ none := by
  have hsplit : id / unitsPerList * unitsPerList + id % unitsPerList = id :=
    Nat.div_add_mod' id unitsPerList
  rw [partition_ne_none, getPartition, hsplit]
  by_cases hlist : id / unitsPerList < t.partitions.lists
  · have hlt : id < t.partitions.lists * unitsPerList :=
      (Nat.div_lt_iff_lt_mul (by decide)).mp hlist
    rw [if_pos hlist]
    by_cases hp : (t.partitions.entry id).present = true
    · rw [hp, if_neg (show ¬(!true) = true by decide), Pointer.entry.injEq]
      constructor
      · rintro rfl
        exact ⟨rfl, hlt, hp⟩
      · exact fun h => h.1
    · rw [if_pos (show (!(t.partitions.entry id).present) = true by
        rw [Bool.not_eq_true] at hp; rw [hp]; rfl)]
      constructor
      · nofun
      · rintro ⟨rfl, -, h⟩
        exact absurd h hp
  · rw [if_neg hlist]
    constructor
    · nofun
    · rintro ⟨rfl, hlt, -⟩
      exact absurd ((Nat.div_lt_iff_lt_mul (by decide)).mpr hlt) hlist

theorem getPartition_ne_other (a : ℕ) : t.getPartition id ≠ .other a := by
  rw [getPartition]
  split
  · split
    · nofun
    · nofun
  · nofun

theorem validatePartition_iff :
    t.validatePartition p = true ↔
      ∃ k, p = .entry k ∧ (t.partitions.entry k).partitionId = k ∧ t.partition k ≠ none := by
  cases p with
  | null =>
    rw [validatePartition, if_pos rfl]
    constructor
    · nofun
    · rintro ⟨k, hk, -⟩
      cases hk
  | entry k =>
    rw [validatePartition, if_neg (by nofun), decide_eq_true_iff, getPartition_eq_entry]
    constructor
    · exact fun h => ⟨k, rfl, h⟩
    · rintro ⟨k, hk, h⟩
      cases hk
      exact h
  | other a =>
    rw [validatePartition, if_neg (by nofun), decide_eq_true_iff]
    constructor
    · exact fun h => absurd h (getPartition_ne_other a)
    · rintro ⟨k, hk, -⟩
      cases hk

/-- The table where one place holds a partition. -/
structure Placed (t t' : PartitionTable) (k : ℕ) : Prop where
  partition_eq : ∃ x : PartitionInstance, x.partitionId = k ∧
    ∀ j, t'.partition j = if j = k then some x else t.partition j

theorem Placed.trans {t'' : PartitionTable} (h : t.Placed t' k) (h' : t'.Placed t'' k) :
    t.Placed t'' k := by
  obtain ⟨x, -, hx⟩ := h.partition_eq
  obtain ⟨y, hid, hy⟩ := h'.partition_eq
  refine ⟨y, hid, fun j => ?_⟩
  rw [hy, hx]
  by_cases hj : j = k
  · rw [if_pos hj, if_pos hj]
  · rw [if_neg hj, if_neg hj, if_neg hj]

theorem Placed.held (h : t.Placed t' k) (hp : t.Held p) : t'.Held p := by
  obtain ⟨x, -, hx⟩ := h.partition_eq
  rcases hp with hnull | ⟨j, y, rfl, hy⟩
  · exact Or.inl hnull
  · right
    by_cases hj : j = k
    · exact ⟨j, x, rfl, by rw [hx, if_pos hj]⟩
    · exact ⟨j, y, rfl, by rw [hx, if_neg hj, hy]⟩

theorem Placed.held_entry (h : t.Placed t' k) : t'.Held (.entry k) := by
  obtain ⟨x, -, hx⟩ := h.partition_eq
  exact Or.inr ⟨k, x, rfl, by rw [hx, if_pos rfl]⟩

theorem Placed.numbered (h : t.Placed t' k) (ht : t.Numbered) (hmain : t'.Held t'.mainPartition)
    (hsystem : t'.Held t'.systemPartition) : t'.Numbered := by
  obtain ⟨x, hid, hx⟩ := h.partition_eq
  refine ⟨fun j y hy => ?_, hmain, hsystem⟩
  rw [hx] at hy
  by_cases hj : j = k
  · rw [if_pos hj] at hy
    rw [← Option.some.inj hy, hj, hid]
  · rw [if_neg hj] at hy
    exact ht.numbered j y hy

/-- A name is set on a partition that the validator accepts, and on nothing else. -/
theorem setPartitionName_cases (p : Pointer) (name : Option (List ℕ)) :
    (t.setPartitionName p name).1 = t ∨
      ∃ k, p = .entry k ∧ t.Placed (t.setPartitionName p name).1 k ∧
        (t.setPartitionName p name).1.mainPartition = t.mainPartition ∧
        (t.setPartitionName p name).1.systemPartition = t.systemPartition := by
  rw [setPartitionName.eq_def]
  by_cases hvalid : t.validatePartition p = true
  · rw [if_neg (by rw [hvalid]; decide)]
    obtain ⟨k, rfl, hid, hsome⟩ := validatePartition_iff.mp hvalid
    have hset : ∀ n : Option (List ℕ),
        t.Placed (t.setRecord { t.record (.entry k) with partitionName := n } (.entry k)) k := by
      intro n
      obtain ⟨hin, hpresent⟩ := partition_ne_none.mp hsome
      refine ⟨{ t.partitions.entry k with partitionName := n }, hid, fun j => ?_⟩
      have hfree : freePartition { t.partitions.entry k with partitionName := n } = false := by
        rw [freePartition, hpresent]
        rfl
      exact Chain.used_set hin hfree j
    cases name with
    | none => exact Or.inr ⟨k, rfl, hset none, rfl, rfl⟩
    | some name =>
      dsimp only
      by_cases hempty : name.length = 0
      · rw [if_pos hempty]
        exact Or.inl rfl
      · rw [if_neg hempty]
        exact Or.inr ⟨k, rfl, hset (some name), rfl, rfl⟩
  · rw [if_pos (by rw [Bool.not_eq_true] at hvalid; rw [hvalid]; rfl)]
    exact Or.inl rfl

/-- What a creation does when it is not refused. -/
structure Created (t t' : PartitionTable) (k : ℕ) : Prop extends t.Placed t' k where
  unused : t.partition k = none
  main_eq : t'.mainPartition = .entry k ∨ t'.mainPartition = t.mainPartition
  system_eq : t'.systemPartition = .entry k ∨ t'.systemPartition = t.systemPartition

theorem created_of_set {partitions : Chain PartitionInstance} {main system : Pointer}
    (hin : partitions.InChain unitsPerList k)
    (hused : ∀ j, partitions.used unitsPerList freePartition j = t.partition j)
    (hunused : t.partition k = none) (hpresent : x.present = true) (hid : x.partitionId = k)
    (hmain : main = .entry k ∨ main = t.mainPartition)
    (hsystem : system = .entry k ∨ system = t.systemPartition) (name : Option (List ℕ)) :
    t.Created (setPartitionName (.entry k) name ⟨partitions.set k x, t.others, main, system⟩).1 k :=
  by
  have hfree : freePartition x = false := by
    rw [freePartition, hpresent]
    rfl
  have hplaced : t.Placed ⟨partitions.set k x, t.others, main, system⟩ k := by
    refine ⟨x, hid, fun j => (Chain.used_set hin hfree j).trans ?_⟩
    rw [hused]
  rcases setPartitionName_cases (t := ⟨partitions.set k x, t.others, main, system⟩)
      (.entry k) name with
    hsame | ⟨i, hi, hnamed, hmain', hsystem'⟩
  · rw [hsame]
    exact ⟨hplaced, hunused, hmain, hsystem⟩
  · cases hi
    refine ⟨hplaced.trans hnamed, hunused, ?_, ?_⟩
    · rw [hmain']
      exact hmain
    · rw [hsystem']
      exact hsystem

theorem createPartition_cases (name : Option (List ℕ)) (sd : ℕ) (disk : Pointer)
    (info : Option DiskInfo) (fsInfo : ℕ) (interface : Option ℕ) :
    t.createPartition name sd disk info fsInfo interface = (t, .null) ∨
      ∃ k, (t.createPartition name sd disk info fsInfo interface).2 = .entry k ∧
        t.Created (t.createPartition name sd disk info fsInfo interface).1 k := by
  rcases info with - | info
  · exact Or.inl rfl
  rw [createPartition]
  dsimp only
  by_cases hdisk : disk = .null
  · rw [if_pos hdisk]
    exact Or.inl rfl
  · rw [if_neg hdisk]
    right
    have hin : (t.partitions.place unitsPerList freePartition zeroPartition).1.InChain unitsPerList
        (t.partitions.place unitsPerList freePartition zeroPartition).2 :=
        Chain.place_inChain (by decide)
    refine ⟨(t.partitions.place unitsPerList freePartition zeroPartition).2, rfl, ?_⟩
    refine created_of_set hin (fun j => Chain.place_used rfl j) Chain.place_unused rfl
      rfl ?_ ?_ name
    · by_cases h : sd &&& diskMain ≠ 0
      · exact Or.inl (if_pos h)
      · exact Or.inr (if_neg h)
    · by_cases h : sd &&& diskSystem ≠ 0
      · exact Or.inl (if_pos h)
      · exact Or.inr (if_neg h)

theorem destroyPartition_of_not (h : t.validatePartition p ≠ true) :
    (t.destroyPartition p).1 = t := by
  have hfalse : t.validatePartition p = false := Bool.eq_false_iff.mpr h
  rw [destroyPartition, if_pos (by rw [hfalse]; rfl)]

theorem destroyPartition_entry (h : t.validatePartition (.entry k) = true) :
    (t.destroyPartition (.entry k)).1 =
      ⟨t.partitions.set k zeroPartition, t.others,
        if .entry k = t.mainPartition then .null else t.mainPartition,
        if .entry k = t.systemPartition then .null else t.systemPartition⟩ := by
  rw [destroyPartition, if_neg (by rw [h]; decide)]
  dsimp only
  by_cases hmain : .entry k = t.mainPartition
  · rw [if_pos hmain, if_pos hmain]
    by_cases hsystem : .entry k = t.systemPartition
    · rw [if_pos hsystem, if_pos hsystem]
      rfl
    · rw [if_neg hsystem, if_neg hsystem]
      rfl
  · rw [if_neg hmain, if_neg hmain]
    by_cases hsystem : .entry k = t.systemPartition
    · rw [if_pos hsystem, if_pos hsystem]
      rfl
    · rw [if_neg hsystem, if_neg hsystem]
      rfl

theorem destroyPartition_partition (j : ℕ) :
    (t.destroyPartition p).1.partition j =
      if t.validatePartition p = true ∧ p = .entry j then none else t.partition j := by
  by_cases h : t.validatePartition p = true
  · obtain ⟨k, rfl, -⟩ := validatePartition_iff.mp h
    rw [destroyPartition_entry h]
    refine (Chain.used_clear rfl j).trans (if_congr ?_ rfl rfl)
    rw [and_iff_right h, Pointer.entry.injEq]
    exact eq_comm
  · rw [destroyPartition_of_not h, if_neg fun hp => h hp.1]

theorem Held.destroy {q : Pointer} (h : t.Held q) (hne : p ≠ q) :
    (t.destroyPartition p).1.Held q := by
  rcases h with hnull | ⟨j, x, rfl, hx⟩
  · exact Or.inl hnull
  · refine Or.inr ⟨j, x, rfl, ?_⟩
    rw [destroyPartition_partition, if_neg fun hp => hne hp.2]
    exact hx

theorem held_cleared {q : Pointer} (h : t.Held q) :
    (t.destroyPartition p).1.Held (if p = q then .null else q) := by
  by_cases hq : p = q
  · rw [if_pos hq]
    exact Or.inl rfl
  · rw [if_neg hq]
    exact h.destroy hq

theorem numbered_initial (others : ℕ → PartitionInstance) : Numbered (.initial others) where
  numbered := fun k x hx => by cases (Chain.used_initial rfl).symm.trans hx
  main_held := Or.inl rfl
  system_held := Or.inl rfl

theorem Numbered.create (h : t.Numbered) (hc : t.Created t' k) : t'.Numbered := by
  refine hc.toPlaced.numbered h ?_ ?_
  · rcases hc.main_eq with hmain | hmain
    · rw [hmain]
      exact hc.toPlaced.held_entry
    · rw [hmain]
      exact hc.toPlaced.held h.main_held
  · rcases hc.system_eq with hsystem | hsystem
    · rw [hsystem]
      exact hc.toPlaced.held_entry
    · rw [hsystem]
      exact hc.toPlaced.held h.system_held

theorem Numbered.destroy (h : t.Numbered) (p : Pointer) : (t.destroyPartition p).1.Numbered := by
  by_cases hvalid : t.validatePartition p = true
  · have hmain := held_cleared (p := p) h.main_held
    have hsystem := held_cleared (p := p) h.system_held
    refine ⟨fun j x hx => ?_, ?_, ?_⟩
    · rw [destroyPartition_partition] at hx
      split at hx
      · cases hx
      · exact h.numbered j x hx
    · obtain ⟨k, rfl, -⟩ := validatePartition_iff.mp hvalid
      rw [show (t.destroyPartition (.entry k)).1.mainPartition = _ from
        congrArg mainPartition (destroyPartition_entry hvalid)]
      exact hmain
    · obtain ⟨k, rfl, -⟩ := validatePartition_iff.mp hvalid
      rw [show (t.destroyPartition (.entry k)).1.systemPartition = _ from
        congrArg systemPartition (destroyPartition_entry hvalid)]
      exact hsystem
  · rw [destroyPartition_of_not hvalid]
    exact h

theorem held_of_validate (h : t.validatePartition p = true) : t.Held p := by
  obtain ⟨k, rfl, -, hsome⟩ := validatePartition_iff.mp h
  exact Or.inr ⟨k, _, rfl, partition_of_ne_none hsome⟩

theorem Numbered.setMain (h : t.Numbered) (p : Pointer) : (t.setMainPartition p).1.Numbered := by
  rw [setMainPartition]
  by_cases hvalid : t.validatePartition p = true
  · rw [if_neg (by rw [hvalid]; decide)]
    exact ⟨h.numbered, held_of_validate hvalid, h.system_held⟩
  · rw [if_pos (by rw [Bool.eq_false_iff.mpr hvalid]; rfl)]
    exact h

theorem Numbered.setSystem (h : t.Numbered) (p : Pointer) :
    (t.setSystemPartition p).1.Numbered := by
  rw [setSystemPartition]
  by_cases hvalid : t.validatePartition p = true
  · rw [if_neg (by rw [hvalid]; decide)]
    exact ⟨h.numbered, h.main_held, held_of_validate hvalid⟩
  · rw [if_pos (by rw [Bool.eq_false_iff.mpr hvalid]; rfl)]
    exact h

theorem setMainPartition_partition (j : ℕ) :
    (t.setMainPartition p).1.partition j = t.partition j := by
  rw [setMainPartition]
  split <;> rfl

theorem setSystemPartition_partition (j : ℕ) :
    (t.setSystemPartition p).1.partition j = t.partition j := by
  rw [setSystemPartition]
  split <;> rfl

end PartitionTable

open PartitionTable

theorem PartitionTable.Numbered.step {t t' : PartitionTable} {c : PartitionCall} (h : t.Numbered)
    (hs : c.run t = some t') : t'.Numbered := by
  cases c with
  | create name sd disk info fsInfo interface =>
    obtain rfl := Option.some.inj hs
    rcases t.createPartition_cases name sd disk info fsInfo interface with hnull | ⟨k, -, hc⟩
    · rw [hnull]
      exact h
    · exact h.create hc
  | destroy p =>
    obtain rfl := Option.some.inj hs
    exact h.destroy p
  | setMain p =>
    obtain rfl := Option.some.inj hs
    exact h.setMain p
  | setSystem p =>
    obtain rfl := Option.some.inj hs
    exact h.setSystem p

/-- The partition that a call is about: the one it returns, or the one it gets. -/
def PartitionCall.subject (t : PartitionTable) : PartitionCall → Pointer
  | .create name sd disk info fsInfo interface =>
    (t.createPartition name sd disk info fsInfo interface).2
  | .destroy p => p
  | .setMain p => p
  | .setSystem p => p

theorem PartitionCall.run_partition {t t' : PartitionTable} {c : PartitionCall}
    (hs : c.run t = some t') {j : ℕ} (hj : c.subject t ≠ .entry j) :
    t'.partition j = t.partition j := by
  cases c with
  | create name sd disk info fsInfo interface =>
    obtain rfl := Option.some.inj hs
    rcases t.createPartition_cases name sd disk info fsInfo interface with hnull | ⟨k, hk, hc⟩
    · rw [hnull]
    · obtain ⟨x, -, hx⟩ := hc.partition_eq
      have hne : j ≠ k := by
        rintro rfl
        exact hj hk
      rw [hx, if_neg hne]
  | destroy p =>
    obtain rfl := Option.some.inj hs
    rw [destroyPartition_partition, if_neg fun hp => hj hp.2]
  | setMain p =>
    obtain rfl := Option.some.inj hs
    exact setMainPartition_partition j
  | setSystem p =>
    obtain rfl := Option.some.inj hs
    exact setSystemPartition_partition j

/-- What the registry promises in a state: distinct ids, a lookup that finds what is there, a main
and a system partition that are there, and calls that leave the other partitions as they are. -/
structure PartitionTable.Registered (t : PartitionTable) : Prop where
  ids_distinct : ∀ j k x y, t.partition j = some x → t.partition k = some y →
    x.partitionId = y.partitionId → j = k
  found : ∀ id p, p ≠ .null →
    (t.getPartition id = p ↔ ∃ k x, p = .entry k ∧ t.partition k = some x ∧ x.partitionId = id)
  main_held : t.Held t.mainPartition
  system_held : t.Held t.systemPartition
  others_kept : ∀ c t', PartitionCall.run t c = some t' → ∀ j, c.subject t ≠ .entry j →
    t'.partition j = t.partition j
  created_unused : ∀ name sd disk info fsInfo interface k,
    (t.createPartition name sd disk info fsInfo interface).2 = .entry k → t.partition k = none

theorem PartitionTable.Numbered.registered {t : PartitionTable} (h : t.Numbered) :
    t.Registered where
  ids_distinct := by
    intro j k x y hx hy hid
    rw [h.numbered j x hx, h.numbered k y hy] at hid
    exact hid
  found := by
    intro id p hp
    cases p with
    | null => exact absurd rfl hp
    | entry k =>
      rw [getPartition_eq_entry]
      constructor
      · rintro ⟨rfl, hsome⟩
        have hx := partition_of_ne_none hsome
        exact ⟨id, _, rfl, hx, h.numbered id _ hx⟩
      · rintro ⟨j, x, hj, hx, hid⟩
        cases hj
        rw [h.numbered k x hx] at hid
        refine ⟨hid.symm, ?_⟩
        rw [hx]
        exact Option.some_ne_none x
    | other a =>
      refine iff_of_false (getPartition_ne_other a) ?_
      rintro ⟨j, x, hj, -⟩
      cases hj
  main_held := h.main_held
  system_held := h.system_held
  others_kept := fun _ _ hs _ hj => PartitionCall.run_partition hs hj
  created_unused := by
    intro name sd disk info fsInfo interface k hk
    rcases t.createPartition_cases name sd disk info fsInfo interface with hnull | ⟨i, hi, hc⟩
    · rw [hnull] at hk
      cases hk
    · rw [hi] at hk
      cases hk
      exact hc.unused

/-- In every state that the calls reach, the registry of partitions keeps its promise. -/
theorem partitions_registered (others : ℕ → PartitionInstance) (t : PartitionTable)
    (h : Reaches PartitionCall.run anyStep (.initial others) t) : t.Registered :=
  (h.invariant (fun _ _ _ hi _ hs => hi.step hs)
    (PartitionTable.numbered_initial others)).registered

/-- A system partition and a main one, which is destroyed, and a third that takes its place. -/
def partitionCalls : List PartitionCall :=
  [.create (some [67]) (diskSystem ||| 7) (.entry 0) (some zeroInfo) 1 none,
    .create (some [68]) diskMain (.entry 0) (some zeroInfo) 1 none, .destroy (.entry 1),
    .create (some [69]) 0 (.entry 0) (some zeroInfo) 1 none]

theorem smallPartitions_registered :
    ∃ t, Reaches PartitionCall.run anyStep (.initial fun _ => zeroPartition) t ∧
    (t.mainPartition, t.systemPartition,
      [0, 1, 2].map fun k => (t.partition k).bind (·.partitionName)) =
      (.null, .entry 0, [some [67], some [69], none]) ∧ t.Registered := by
  have hrun : (guardedRun PartitionCall.run anyStep
    (.initial fun _ => zeroPartition) partitionCalls).map
      (fun t => (t.mainPartition, t.systemPartition,
      [0, 1, 2].map fun k => (t.partition k).bind (·.partitionName))) =
      some (.null, .entry 0, [some [67], some [69], none]) := by
    decide
  obtain ⟨t, ht, hd⟩ := Option.map_eq_some_iff.mp hrun
  have hr := reaches_of_guardedRun _ ht
  exact ⟨t, hr, hd, partitions_registered (fun _ => zeroPartition) t hr⟩

end DevOs.Disks
