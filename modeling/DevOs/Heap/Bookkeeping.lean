import DevOs.Heap.Occupancy
import Mathlib.Data.List.Find

/-!
# Runs that keep the counts and the marks

The scans of `CreateHeap` find the first tree and the first list there that are not full, so it
fails only when all lists are. The counts and the marks stay right as long as no segment fills the
last list of a tree whose index in the root is another than that of the list.
-/

namespace DevOs.Heap

open Bitmaps Maxima Runs

variable {m m' m₁ : HeapMemory} {t u i j k c l x n : ℕ}

section Open

def HeapMemory.openTree (m : HeapMemory) : Option ℕ :=
  (slots (m.trees 0).present).find? fun i =>
    ((m.trees 0).childs i).child.any fun t => (m.trees t).fullSlotCount ≠ maxSlots

def HeapMemory.openList (m : HeapMemory) (t : ℕ) : Option ℕ :=
  (slots (m.trees t).present).find? fun j =>
    ((m.trees t).childs j).child.any fun l => (m.listHeads l).numUsedSlots ≠ maxSlots

theorem pick_eq (hc : Counts (m.trees t))
    (hpage : ∀ i ∈ slots (m.trees t).present, ∃ c, ((m.trees t).childs i).child = some c)
    (hfull : ∀ {i c}, ChildAt (m.trees t) i c →
      (i ∈ slots (m.trees t).fullSlots ↔ firstByte m (m.trees t).root c = maxSlots)) :
    pick m t = (slots (m.trees t).present).find? fun i =>
      ((m.trees t).childs i).child.any fun child => firstByte m (m.trees t).root child ≠
          maxSlots := by
  have hmark {i : ℕ} (hi : i ∈ slots (m.trees t).present) :
      (((m.trees t).childs i).child.any fun child =>
      decide (firstByte m (m.trees t).root child ≠ maxSlots)) = !bit (m.trees t).fullSlots i := by
    obtain ⟨c, hchild⟩ := hpage i hi
    have hiff := hfull ⟨hi, hchild⟩
    rw [mem_slots, and_iff_right (lt_of_mem_slots hi)] at hiff
    rw [hchild, Option.any_some]
    cases hbit : bit (m.trees t).fullSlots i with
    | true => simp [hiff.mp hbit]
    | false =>
      rw [hbit] at hiff
      simpa using hiff
  rw [pick]
  split
  · rename_i hcount
    symm
    rw [List.find?_eq_none]
    intro i hi
    have hmem := mem_slots_of_sub hc.sub (hc.full.symm.trans (hcount.symm.trans hc.present)) hi
    rw [hmark hi, (mem_slots.mp hmem).2]
    simp
  · have hopen : (slots fun x => ~~~(m.trees t).fullSlots x &&& (m.trees t).present x) =
        (slots (m.trees t).present).filter fun i => !bit (m.trees t).fullSlots i :=
        places_and_not _ _ _
    rw [hopen, List.find?_filter]
    refine List.find?_congr fun i hi => ?_
    rw [hmark hi]
    simp

theorem Occupied.pick_root (h : Occupied m) (hm : Linked m) : pick m 0 = m.openTree := by
  have hroot : (m.trees 0).root = true := hm.rootFlag 0
  refine (pick_eq h.root hm.treePage fun ht => ?_).trans ?_
  · rw [hroot]
    exact h.treeFull ht
  · rw [hroot]
    rfl

theorem Occupied.pick_tree (h : Occupied m) (hm : Linked m) (ht : ChildAt (m.trees 0) i t) :
    pick m t = m.openList t := by
  have hroot : (m.trees t).root = false := by
    rw [hm.rootFlag, decide_eq_false (Nat.ne_of_gt (hm.tree ht).1)]
  refine (pick_eq (h.tree ht) (hm.listPage ht) fun hl => ?_).trans ?_
  · rw [hroot]
    exact h.listFull ht hl
  · rw [hroot]
    rfl

theorem Occupied.exists_openList (h : Occupied m) (hm : Linked m) (ht : ChildAt (m.trees 0) i t)
    (hne : (m.trees t).fullSlotCount ≠ maxSlots)
    (hall : (slots fun x => ~~~(m.trees t).present x) = []) : m.openList t ≠ none := by
  have hlen := slots_not_eq_nil.mp hall
  have hlt : (slots (m.trees t).fullSlots).length ≠ 128 := by
    rw [← (h.tree ht).full]
    exact hne
  intro hnone
  refine hlt (slots_not_eq_nil.mp (List.eq_nil_iff_forall_not_mem.mpr fun j hj => ?_))
  obtain ⟨hj128, hnot⟩ := mem_slots_not.mp hj
  have hpresent := mem_slots_of_length hlen hj128
  obtain ⟨l, hl⟩ := hm.listPage ht j hpresent
  have hfull := List.find?_eq_none.mp hnone j hpresent
  rw [hl, Option.any_some, decide_eq_true_eq, not_not] at hfull
  exact hnot ((h.listFull ht ⟨hpresent, hl⟩).mpr hfull)

theorem Occupied.list_full (h : Occupied m) (hfull : ∀ i < 128, i ∈ slots (m.trees 0).fullSlots)
    (ht : ChildAt (m.trees 0) i t) (hl : ChildAt (m.trees t) j l) :
    (slots (m.listHeads l).usedSlots).length = 128 := by
  have hcount := (h.treeFull ht).mp (hfull i (lt_of_mem_slots ht.1))
  rw [(h.tree ht).full] at hcount
  have hmark := mem_slots_of_length hcount (lt_of_mem_slots hl.1)
  rw [← h.used ht hl]
  exact (h.listFull ht hl).mp hmark

theorem Occupied.root_full (h : Occupied m) (hm : Linked m) (hnone : pick m 0 = none)
    (hall : (slots fun x => ~~~(m.trees 0).present x) = []) :
    ∀ i < 128, i ∈ slots (m.trees 0).fullSlots := by
  intro i hi
  have hpresent := mem_slots_of_length (slots_not_eq_nil.mp hall) hi
  obtain ⟨t, ht⟩ := hm.treePage i hpresent
  rw [h.pick_root hm] at hnone
  have hfull := List.find?_eq_none.mp hnone i hpresent
  rw [ht, Option.any_some, decide_eq_true_eq, not_not] at hfull
  exact (h.treeFull ⟨hpresent, ht⟩).mpr hfull

end Open

section Calls

variable {r : Request} {s s' : Session} {call : Call}

/-- The next segment fills the last list of a tree that has another index than the list. -/
def HeapMemory.misplaces (m : HeapMemory) : Bool :=
  m.openTree.any fun i => ((m.trees 0).childs i).child.any fun t =>
    (m.openList t).any fun j => ((m.trees t).childs j).child.any fun l =>
      (m.trees t).fullSlotCount = 127 && (m.listHeads l).numUsedSlots = 127 && j ≠ i

def keepsMarks (s : Session) : Call → Prop
  | .pool r => s.memory.createsHeap r = true → s.memory.misplaces = false
  | .create _ _ => s.memory.misplaces = false

/-- The counts and the marks are right, a new segment gets an unused slot, and `CreateHeap` fails
only on a tree whose lists are all full. -/
structure OccupancyHolds (m : HeapMemory) : Prop where
  treePage : ∀ i ∈ slots (m.trees 0).present, ∃ t, ((m.trees 0).childs i).child = some t
  listPage : ∀ {i t}, ChildAt (m.trees 0) i t → ∀ j ∈ slots (m.trees t).present,
    ∃ l, ((m.trees t).childs j).child = some l
  occupied : Occupied m
  stores : ∀ {address heapLength m'}, createHeap m address heapLength = .ok m' →
    ∃ i t j l x, ChildAt (m'.trees 0) i t ∧ ChildAt (m'.trees t) j l ∧
      x ∈ slots (m'.listHeads l).usedSlots ∧ m'.segment (l, x) = ⟨address, heapLength, false⟩ ∧
      ∀ {i' t' j'}, ChildAt (m.trees 0) i' t' → ChildAt (m.trees t') j' l →
        x ∉ slots (m.listHeads l).usedSlots
  reports : ∀ {address heapLength f}, createHeap m address heapLength = .error f → f = .newTree ∧
    ∀ {i t j l}, ChildAt (m.trees 0) i t → ChildAt (m.trees t) j l →
      (slots (m.listHeads l).usedSlots).length = 128

/-- The tree between two calls. -/
structure Held (m : HeapMemory) : Prop where
  linked : Linked m
  unlocked : UnlockedBut m none
  blank : Blank m
  pointing : Pointing m
  occupied : Occupied m

theorem Held.pickTree (h : Held m) (hp : Picked m 0 m' i) :
    UnlockedBut m' (some i) ∧ Blank m' ∧ Pointing m' ∧ Occupied m' := by
  refine ⟨hp.unlocked h.linked h.unlocked, ?_⟩
  cases hp with
  | scan _ =>
    have hlinks := sameLinks_locked m 0 i
    have hcaches := sameCaches_locked m 0 i
    have hlists := listHeads_locked m 0 i
    exact ⟨h.blank.congr hlinks hcaches, h.pointing.congr hlinks hcaches fun l x hx => by
      rwa [hlists],
      h.occupied.congr hlinks (sameCounts_locked m 0 i) (fun l => by rw [hlists]) fun l => by
        rw [hlists]⟩
  | page _ hslots =>
    have hi := head_slots_not hslots
    exact ⟨h.blank.growTree h.linked hi, h.pointing.growTree h.linked h.blank hi,
      h.occupied.growTree h.linked hi⟩

theorem Picked.held (hp : Picked m t m' j) (hm : Linked m) (hb : Blank m) (hpt : Pointing m)
    (ho : Occupied m) (ht : ChildAt (m.trees 0) i t) : Blank m' ∧ Pointing m' ∧ Occupied m' := by
  cases hp with
  | scan _ =>
    have hlinks := sameLinks_locked m t j
    have hcaches := sameCaches_locked m t j
    have hlists := listHeads_locked m t j
    exact ⟨hb.congr hlinks hcaches, hpt.congr hlinks hcaches fun l x hx => by rwa [hlists],
      ho.congr hlinks (sameCounts_locked m t j) (fun l => by rw [hlists]) fun l => by rw [hlists]⟩
  | page _ hslots =>
    have hj := head_slots_not hslots
    exact ⟨hb.growList hm ht hj, hpt.growList hm ht hj, ho.growList hm ht hj⟩

theorem Picked.notFull (hp : Picked m t m' i) (hm : t ≠ m.brk) (hc : ChildAt (m'.trees t) i c) :
    firstByte m' (m.trees t).root c ≠ maxSlots := by
  cases hp with
  | scan hpick =>
    obtain ⟨-, -, d, hd, hbyte⟩ := pick_some hpick
    have hcd := ((sameLinks_locked m t i).childAt.mp hc).child_eq hd
    rw [hcd, locked]
    split
    · rename_i hroot
      rw [firstByte_setLock]
      exact hbyte
    · exact hbyte
  | page _ hslots =>
    have hi := head_slots_not hslots
    rcases (childAt_grow hm hi).mp hc with hold | ⟨-, rfl⟩
    · exact absurd hold.1 (mem_slots_not.mp hi).2
    · rw [firstByte, trees_grow_page, listHeads_grow_page]
      split <;> exact (show 0 ≠ 128 by decide)

/-- The slot of a list that `CreateHeap` has picked for a new segment, and the memory then. -/
structure Target (m m₁ m₂ : HeapMemory) (i t j l x : ℕ) : Prop where
  linked₁ : Linked m₁
  occupied₁ : Occupied m₁
  pickTree : Picked m 0 m₁ i
  tree₁ : ChildAt (m₁.trees 0) i t
  pickList : Picked m₁ t m₂ j
  linked : Linked m₂
  unlocked : UnlockedBut m₂ (some i)
  blank : Blank m₂
  pointing : Pointing m₂
  occupied : Occupied m₂
  tree : ChildAt (m₂.trees 0) i t
  list : ChildAt (m₂.trees t) j l
  slot : x ∈ slots fun y => ~~~(m₂.listHeads l).usedSlots y

theorem Held.create_cases (h : Held m) (address n : ℕ) :
    (createHeap m address n = .error .newTree ∧ ∀ i < 128, i ∈ slots (m.trees 0).fullSlots) ∨
      ∃ m₁ m₂ i t j l x, Target m m₁ m₂ i t j l x ∧ createHeap m address n =
        .ok (cacheHeap (stored m₂ i t j l x address n) i t j l x n) := by
  have hcases := createHeap_cases h.linked h.unlocked address n
  have htreeNotFull {m₁ : HeapMemory} {i t : ℕ} (hp : Picked m 0 m₁ i)
    (ht : ChildAt (m₁.trees 0) i t) :
      (m₁.trees t).fullSlotCount ≠ maxSlots := by
    have hbyte := hp.notFull (Nat.ne_of_lt h.linked.pos) ht
    rw [h.linked.rootFlag] at hbyte
    exact hbyte
  generalize createHeap m address n = result at hcases ⊢
  cases hcases with
  | newTree hfull =>
    refine Or.inl ⟨rfl, ?_⟩
    rcases hfull with hcount | ⟨hnone, hall⟩
    · intro i hi
      rw [h.occupied.root.full] at hcount
      exact mem_slots_of_length hcount hi
    · exact h.occupied.root_full h.linked hnone hall
  | sod _ hp ht hnone hall =>
    have hm₁ := (hp.tree h.linked).1
    obtain ⟨-, -, -, ho₁⟩ := h.pickTree hp
    rw [ho₁.pick_tree hm₁ ht] at hnone
    exact absurd hnone (ho₁.exists_openList hm₁ ht (htreeNotFull hp ht) hall)
  | @place m₁ m₂ i t j l hp ht hp' hl =>
    have hm₁ := (hp.tree h.linked).1
    obtain ⟨hu₁, hb₁, hpt₁, ho₁⟩ := h.pickTree hp
    obtain ⟨hm₂, hroot, -⟩ := hp'.list hm₁ ht
    obtain ⟨hb₂, hpt₂, ho₂⟩ := hp'.held hm₁ hb₁ hpt₁ ho₁ ht
    have ht₂ : ChildAt (m₂.trees 0) i t := hroot.symm ▸ ht
    have hu₂ : UnlockedBut m₂ (some i) := fun k hk => by
      rw [hroot]
      exact hu₁ k hk
    have hlistNotFull : (m₂.listHeads l).numUsedSlots ≠ maxSlots := by
      have hbyte := hp'.notFull (Nat.ne_of_lt (hm₁.tree ht).2.1) hl
      rw [hm₁.rootFlag, decide_eq_false (Nat.ne_of_gt (hm₁.tree ht).1)] at hbyte
      exact hbyte
    cases hslots : slots fun y => ~~~(m₂.listHeads l).usedSlots y with
    | nil =>
      refine absurd ?_ hlistNotFull
      rw [ho₂.used ht₂ hl]
      exact slots_not_eq_nil.mp hslots
    | cons x xs =>
      exact Or.inr ⟨m₁, m₂, i, t, j, l, x,
        ⟨hm₁, ho₁, hp, ht, hp', hm₂, hu₂, hb₂, hpt₂, ho₂, ht₂, hl, head_slots_not hslots⟩,
        placeHeap_cons hslots⟩

variable {m₂ : HeapMemory} {address : ℕ}

theorem Target.mem_used (hT : Target m m₁ m₂ i t j l x) :
    x ∈ slots ((stored m₂ i t j l x address n).listHeads l).usedSlots := by
  rw [listHeads_stored, if_pos rfl]
  exact (mem_slots_set (mem_slots_not.mp hT.slot).1).mpr (Or.inl rfl)

theorem Target.held (hT : Target m m₁ m₂ i t j l x)
    (hindex : (m₂.trees t).fullSlotCount = 127 → (m₂.listHeads l).numUsedSlots = 127 → j = i) :
    Held (cacheHeap (stored m₂ i t j l x address n) i t j l x n) := by
  have hlinks : SameLinks m₂ (stored m₂ i t j l x address n) := sameLinks_stored
  have honly := onlyCaches_cacheHeap (m := stored m₂ i t j l x address n) (i := i) (t := t) (j := j)
    (l := l)
    (x := x) n
  have hm' := hT.linked.congr hlinks
  have ht' : ChildAt ((stored m₂ i t j l x address n).trees 0) i t := hlinks.childAt.mpr hT.tree
  have hl' : ChildAt ((stored m₂ i t j l x address n).trees t) j l := hlinks.childAt.mpr hT.list
  have hused (u y : ℕ) (hy : y ∈ slots (m₂.listHeads u).usedSlots) :
      y ∈ slots ((stored m₂ i t j l x address n).listHeads u).usedSlots := by
    rw [listHeads_stored]
    split
    · rename_i hu
      rw [hu] at hy
      exact (mem_slots_set (mem_slots_not.mp hT.slot).1).mpr (Or.inr hy)
    · exact hy
  refine ⟨hm'.congr honly.links, (unlocked_stored hT.unlocked).congr honly.locks, ?_, ?_, ?_⟩
  · refine (hT.blank.congr hlinks sameCaches_stored).update hm' ht' hl' honly fun u k hne hne' => ?_
    rw [childs_cacheHeap_of_ne hne hne']
  · exact (hT.pointing.congr hlinks sameCaches_stored hused).cacheHeap hm' ht' hl' hT.mem_used
  · exact (hT.occupied.store hT.linked hT.tree hT.list hT.slot hindex).congr honly.links
      honly.counts
      (fun u => by rw [honly.lists]) fun u => by rw [honly.lists]

theorem Picked.listHeads (hp : Picked m t m' i) (hl : l < m.brk) :
    m'.listHeads l = m.listHeads l ∧ l < m'.brk := by
  cases hp with
  | scan _ =>
    rw [listHeads_locked, (sameLinks_locked m t i).brk]
    exact ⟨rfl, hl⟩
  | page _ _ => exact ⟨listHeads_grow_of_ne i (Nat.ne_of_lt hl), Nat.lt_succ_of_lt hl⟩

theorem Target.not_used (hT : Target m m₁ m₂ i t j l x) (hm : Linked m) {i' t' j' : ℕ}
    (ht' : ChildAt (m.trees 0) i' t') (hl' : ChildAt (m.trees t') j' l) :
    x ∉ slots (m.listHeads l).usedSlots := by
  obtain ⟨hlist, hlt⟩ := hT.pickTree.listHeads (hm.list ht' hl').1
  rw [← hlist, ← (hT.pickList.listHeads hlt).1]
  exact (mem_slots_not.mp hT.slot).2

theorem Picked.fullSlotCount (hp : Picked m t m' i) (ht : t ≠ m.brk) :
    (m'.trees t).fullSlotCount = (m.trees t).fullSlotCount := by
  cases hp with
  | scan _ => exact (sameCounts_locked m t i).fullCount t
  | page _ _ => exact fullSlotCount_grow ht

theorem Target.index (hT : Target m m₁ m₂ i t j l x) (h : Held m) (hmis : m.misplaces = false)
    (hcount : (m₂.trees t).fullSlotCount = 127) (hnum : (m₂.listHeads l).numUsedSlots = 127) :
    j = i := by
  have htlt := (hT.linked₁.tree hT.tree₁).2.1
  have ht0 : t ≠ 0 := Nat.ne_of_gt (hT.linked.tree hT.tree).1
  have ht₁ := hT.tree₁
  have hl := hT.list
  rw [hT.pickList.fullSlotCount (Nat.ne_of_lt htlt)] at hcount
  cases hT.pickTree with
  | page _ hslots =>
    have h0 := Nat.ne_of_lt h.linked.pos
    have hi := head_slots_not hslots
    rcases (childAt_grow h0 hi).mp ht₁ with hold | ⟨-, rfl⟩
    · exact absurd hold.1 (mem_slots_not.mp hi).2
    · rw [trees_grow_page] at hcount
      cases hcount
  | scan hpick =>
    have ht : ChildAt (m.trees 0) i t := (sameLinks_locked m 0 i).childAt.mp ht₁
    rw [(sameCounts_locked m 0 i).fullCount] at hcount
    rw [h.occupied.pick_root h.linked] at hpick
    cases hT.pickList with
    | page _ hslots =>
      have hj := head_slots_not hslots
      rcases (childAt_grow (Nat.ne_of_lt htlt) hj).mp hl with hold | ⟨-, rfl⟩
      · exact absurd hold.1 (mem_slots_not.mp hj).2
      · rw [listHeads_grow_page] at hnum
        cases hnum
    | scan hpick' =>
      have hlinks := (sameLinks_locked m 0 i).trans (sameLinks_locked (locked m 0 i) t j)
      rw [pick_locked ht0, h.occupied.pick_tree h.linked ht] at hpick'
      rw [listHeads_locked, listHeads_locked] at hnum
      have hlm : ChildAt (m.trees t) j l := hlinks.childAt.mp hl
      simpa [HeapMemory.misplaces, hpick, hpick', ht.2, hlm.2, hcount, hnum] using hmis

theorem Held.create (h : Held m) (hmis : m.misplaces = false)
    (hok : createHeap m address n = .ok m') : Held m' := by
  rcases h.create_cases address n with ⟨herror, -⟩ | ⟨m₁, m₂, i, t, j, l, x, hT, hcreated⟩
  · rw [herror] at hok
    cases hok
  · rw [hcreated] at hok
    cases hok
    exact hT.held (hT.index h hmis)

theorem takeFront_null {g : ℕ × ℕ} {stack : ℕ} (hg : ((m.trees 0).childs i).largestHeap = some g)
    (hhead : ((m.trees 0).childs i).listHeadLargestHeap = none) :
    takeFront m i n stack = .error .null := by
  have hfree (m₁ : HeapMemory) : freeSlot m₁ ((m.trees 0).childs i) = .error .null := by
    rw [freeSlot, hhead]
    rfl
  rw [takeFront]
  simp only [hg, hhead, hfree]
  split <;> rfl

theorem Held.front {g : ℕ × ℕ} (h : Held m) (hi : i ∈ slots (m.trees 0).present)
    (hg : ((m.trees 0).childs i).largestHeap = some g) {stack : ℕ}
    (hok : (takeFront m i n stack).map Prod.fst = .ok m') : Held m' := by
  obtain ⟨t, hchild⟩ := h.linked.treePage i hi
  have ht : ChildAt (m.trees 0) i t := ⟨hi, hchild⟩
  cases hhead : ((m.trees 0).childs i).listHeadLargestHeap with
  | none =>
    rw [takeFront_null hg hhead] at hok
    cases hok
  | some l =>
    obtain ⟨hgl, hindex, ⟨j, hl⟩, hx⟩ := h.pointing.root ht hg hhead
    obtain ⟨l', x⟩ := g
    have hll : l' = l := hgl
    rw [hll] at hg
    have hlinks : SameLinks m (carved m i t j l x n) := sameLinks_carved
    have hm₁ := h.linked.congr hlinks
    have ht₁ : ChildAt ((carved m i t j l x n).trees 0) i t := hlinks.childAt.mpr ht
    have hl₁ : ChildAt ((carved m i t j l x n).trees t) j l := hlinks.childAt.mpr hl
    have hcaches : SameCaches m (carved m i t j l x n) :=
      sameCaches_of_childs fun _ => childs_carved
    have hlocks : SameLocks m (carved m i t j l x n) := sameLocks_of_childs fun _ => childs_carved
    have ht0 : t ≠ 0 := Nat.ne_of_gt (h.linked.tree ht).1
    rw [takeFront_eq h.linked ht hl (lt_of_mem_slots hx) hg hhead hindex] at hok
    cases hset : setLargestHeap (carved m i t j l x n) (some l) stack with
    | error f =>
      rw [hset] at hok
      cases hok
    | ok m'' =>
      obtain ⟨hlist, htree⟩ := inside_of_setLargestHeap hm₁ ht₁ hl₁ hset
      obtain ⟨d, e, hset', hfound, hfrom⟩ := setLargestHeap_eq hm₁ ht₁ hl₁ hlist htree stack
      rw [hset'] at hok
      cases hok
      have honly := onlyCaches_recached (carved m i t j l x n) i t j d e
      refine ⟨hm₁.congr honly.links, (h.unlocked.congr hlocks).congr honly.locks, ?_,
        h.pointing.recached h.linked ht hl hfound hfrom, ?_⟩
      · refine (h.blank.congr hlinks hcaches).update hm₁ ht₁ hl₁ honly fun u k hne hne' => ?_
        rw [childs_recached _ i t j d e ht0, if_neg hne, if_neg hne']
      · exact (h.occupied.carved h.linked ht hl hx).congr honly.links honly.counts
          (fun u => by rw [honly.lists]) fun u => by rw [honly.lists]

theorem Held.after_call (h : Held s.memory) (htyped : call.typed = true) (hg : keepsMarks s call)
    (hok : s.memory.call call = .ok m') : Held m' := by
  cases call with
  | create address heapLength => exact h.create hg hok
  | pool r =>
    have hbound : r.numBytes < 2 ^ 64 := by
      rw [Call.typed, Bool.and_eq_true] at htyped
      exact of_decide_eq_true htyped.1
    have hcases := pool_cases s.memory hbound
    rw [hok] at hcases
    generalize hresult : (Except.ok m' : Except Fault HeapMemory) = result at hcases
    cases hcases with
    | same =>
      cases hresult
      exact h
    | outside _ _ => cases hresult
    | front _ _ hi hcached _ => exact h.front hi hcached hresult.symm
    | fresh hcreates _ => exact h.create (hg hcreates) hresult.symm

theorem held_initial : Held HeapMemory.initial := by
  refine ⟨linked_initial, fun _ _ => rfl, blank_initial, ⟨fun ht => (not_childAt_initial ht).elim,
    fun ht => (not_childAt_initial ht).elim⟩, ⟨fun ht => (not_childAt_initial ht).elim,
    fun ht => (not_childAt_initial ht).elim, fun ht => (not_childAt_initial ht).elim, ?_,
    fun ht => (not_childAt_initial ht).elim⟩⟩
  have hfull : slots (HeapMemory.initial.trees 0).fullSlots = [] := by decide
  refine ⟨by decide, by decide, fun i hi => ?_⟩
  rw [hfull] at hi
  cases hi

theorem Held.holds (h : Held m) : OccupancyHolds m := by
  refine ⟨h.linked.treePage, h.linked.listPage, h.occupied, fun {address n m'} hok => ?_,
    fun {address n f} herr => ?_⟩
  · rcases h.create_cases address n with ⟨herror, -⟩ | ⟨m₁, m₂, i, t, j, l, x, hT, hcreated⟩
    · rw [herror] at hok
      cases hok
    · rw [hcreated] at hok
      cases hok
      have hlinks : SameLinks m₂ (stored m₂ i t j l x address n) := sameLinks_stored
      have honly := onlyCaches_cacheHeap (m := stored m₂ i t j l x address n) (i := i) (t := t)
        (j := j) (l := l)
        (x := x) n
      refine ⟨i, t, j, l, x, (hlinks.trans honly.links).childAt.mpr hT.tree,
        (hlinks.trans honly.links).childAt.mpr hT.list, ?_, ?_, hT.not_used h.linked⟩
      · rw [honly.lists]
        exact hT.mem_used
      · have hsegment : (cacheHeap (stored m₂ i t j l x address n) i t j l x n).segment (l, x) =
            (stored m₂ i t j l x address n).segment (l, x) := by
          rw [HeapMemory.segment, HeapMemory.segment, honly.lists]
        rw [hsegment, segment_stored, if_pos rfl]
        exact congrArg (Segment.mk address n) (hT.linked.initialHeap (l, x))
  · rcases h.create_cases address n with ⟨herror, hfull⟩ | ⟨m₁, m₂, i, t, j, l, x, hT, hcreated⟩
    · rw [herror] at herr
      cases herr
      exact ⟨rfl, fun ht hl => h.occupied.list_full hfull ht hl⟩
    · rw [hcreated] at herr
      cases herr

theorem Held.step (h : Held s.memory) (hg : keepsMarks s call) (hs : s.step call = some s') :
    Held s'.memory := by
  rw [Session.step] at hs
  split at hs
  · cases hs
  · rename_i htyped
    rw [Bool.or_eq_true, not_or, Bool.not_eq_true', Bool.not_eq_false] at htyped
    split at hs
    · cases hs
      exact h
    · rename_i hcall
      cases hs
      exact h.after_call htyped.2 hg hcall

instance (s : Session) (c : Call) : Decidable (keepsMarks s c) :=
  match c with
  | .pool r =>
      inferInstanceAs (Decidable (s.memory.createsHeap r = true → s.memory.misplaces = false))
  | .create _ _ => inferInstanceAs (Decidable (s.memory.misplaces = false))

/-- Two segments, one of them released, a remainder of new pages, and as many segments as fill the
list and begin the next one. -/
def markedCalls : List Call :=
  [.create 0x1000 64, .create 0x2000 48, .pool ⟨64, 0, true, 0⟩, .pool ⟨4000, 0x3000, true, 0⟩] ++
    List.replicate 127 (.create 0x4000 16)

end Calls

end DevOs.Heap
