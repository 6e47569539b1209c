import DevOs.Heap.Take

/-!
# The links of the tree

Every page below the root names its parent and its index there, and every present slot has a page.
`CreateHeap` picks a tree in the root and a list in the tree, and a slot without a page gets a new
one; all the rest leaves the links as they are.
-/

namespace DevOs.Heap

open Bitmaps

variable {m m' : HeapMemory} {t u i j k c l : ℕ}

theorem mem_slots {b : Bitmap 64} : i ∈ slots b ↔ i < 128 ∧ bit b i = true := mem_places

theorem mem_slots_not {b : Bitmap 64} : (i ∈ slots fun x => ~~~b x) ↔ i < 128 ∧ i ∉ slots b := by
  rw [mem_slots, mem_slots, bit_not (by decide)]
  cases bit b i <;> simp

theorem mem_slots_set {b : Bitmap 64} (hi : i < 128) :
    j ∈ slots (Bitmaps.set b i) ↔ j = i ∨ j ∈ slots b := by
  rw [mem_slots, mem_slots, bit_set (by decide), Bool.or_eq_true, decide_eq_true_iff]
  constructor
  · rintro ⟨hj, h | h⟩
    · exact Or.inr ⟨hj, h⟩
    · exact Or.inl h
  · rintro (rfl | ⟨hj, h⟩)
    · exact ⟨hi, Or.inr rfl⟩
    · exact ⟨hj, Or.inl h⟩

theorem mem_slots_clear {b : Bitmap 64} : j ∈ slots (Bitmaps.clear b i) ↔ j ∈ slots b ∧ j ≠ i := by
  rw [mem_slots, mem_slots, bit_clear (by decide), Bool.and_eq_true, Bool.not_eq_true',
    decide_eq_false_iff_not, and_assoc]

/-- The page `c` stands in the present slot `i` of the tree. -/
def ChildAt (t : FreeMemoryTree) (i c : ℕ) : Prop :=
  i ∈ slots t.present ∧ (t.childs i).child = some c

theorem ChildAt.child_eq {t : FreeMemoryTree} {d : ℕ} (h : ChildAt t i c) (h' : ChildAt t i d) :
    c = d :=
  Option.some.inj (h.2.symm.trans h'.2)

/-- The pages of the tree and their way up. -/
structure Linked (m : HeapMemory) : Prop where
  pos : 0 < m.brk
  rootFlag : ∀ t, (m.trees t).root = decide (t = 0)
  treePage : ∀ i ∈ slots (m.trees 0).present, ∃ t, ((m.trees 0).childs i).child = some t
  tree : ∀ {i t}, ChildAt (m.trees 0) i t →
    0 < t ∧ t < m.brk ∧ (m.trees t).parent = some 0 ∧ (m.trees t).parentItemIndex = i
  listPage : ∀ {i t}, ChildAt (m.trees 0) i t → ∀ j ∈ slots (m.trees t).present,
    ∃ l, ((m.trees t).childs j).child = some l
  list : ∀ {i t j l}, ChildAt (m.trees 0) i t → ChildAt (m.trees t) j l →
    l < m.brk ∧ (m.listHeads l).parent = some t ∧ (m.listHeads l).parentItemIndex = j
  initialHeap : ∀ h, (m.segment h).initialHeap = false

theorem Linked.tree_ne {i' : ℕ} (hm : Linked m) (h : ChildAt (m.trees 0) i t)
    (h' : ChildAt (m.trees 0) i' t) :
    i' = i :=
  (hm.tree h').2.2.2.symm.trans (hm.tree h).2.2.2

theorem Linked.list_unique {i' t' j' : ℕ} (hm : Linked m) (ht : ChildAt (m.trees 0) i t)
    (hl : ChildAt (m.trees t) j l) (ht' : ChildAt (m.trees 0) i' t')
    (hl' : ChildAt (m.trees t') j' l) :
    t' = t ∧ j' = j :=
  ⟨Option.some.inj ((hm.list ht' hl').2.1.symm.trans (hm.list ht hl).2.1),
    (hm.list ht' hl').2.2.symm.trans (hm.list ht hl).2.2⟩

/-- The links are the same. -/
structure SameLinks (m m' : HeapMemory) : Prop where
  brk : m'.brk = m.brk
  root : ∀ t, (m'.trees t).root = (m.trees t).root
  parent : ∀ t, (m'.trees t).parent = (m.trees t).parent
  index : ∀ t, (m'.trees t).parentItemIndex = (m.trees t).parentItemIndex
  present : ∀ t, (m'.trees t).present = (m.trees t).present
  child : ∀ t i, ((m'.trees t).childs i).child = ((m.trees t).childs i).child
  listParent : ∀ l, (m'.listHeads l).parent = (m.listHeads l).parent
  listIndex : ∀ l, (m'.listHeads l).parentItemIndex = (m.listHeads l).parentItemIndex
  initialHeap : ∀ h, (m'.segment h).initialHeap = (m.segment h).initialHeap

theorem SameLinks.refl (m : HeapMemory) : SameLinks m m :=
  ⟨rfl, fun _ => rfl, fun _ => rfl, fun _ => rfl, fun _ => rfl, fun _ _ => rfl, fun _ => rfl,
    fun _ => rfl, fun _ => rfl⟩

theorem SameLinks.trans {m₁ m₂ m₃ : HeapMemory} (h : SameLinks m₁ m₂) (h' : SameLinks m₂ m₃) :
    SameLinks m₁ m₃ :=
  ⟨h'.brk.trans h.brk, fun t => (h'.root t).trans (h.root t),
    fun t => (h'.parent t).trans (h.parent t), fun t => (h'.index t).trans (h.index t),
    fun t => (h'.present t).trans (h.present t),
    fun t i => (h'.child t i).trans (h.child t i),
      fun l => (h'.listParent l).trans (h.listParent l),
    fun l => (h'.listIndex l).trans (h.listIndex l),
      fun g => (h'.initialHeap g).trans (h.initialHeap g)⟩

theorem SameLinks.childAt (h : SameLinks m m') :
    ChildAt (m'.trees t) i c ↔ ChildAt (m.trees t) i c := by
  rw [ChildAt, ChildAt, h.present, h.child]

theorem Linked.congr (hm : Linked m) (h : SameLinks m m') : Linked m' := by
  refine ⟨by
    rw [h.brk]; exact hm.pos, fun t => (h.root t).trans (hm.rootFlag t), fun i hi => ?_,
      fun ht => ?_, fun ht j hj => ?_, fun ht hl => ?_,
      fun g => (h.initialHeap g).trans (hm.initialHeap g)⟩
  · rw [h.present] at hi
    rw [h.child]
    exact hm.treePage i hi
  · rw [h.brk, h.parent, h.index]
    exact hm.tree (h.childAt.mp ht)
  · rw [h.present] at hj
    rw [h.child]
    exact hm.listPage (h.childAt.mp ht) j hj
  · rw [h.brk, h.listParent, h.listIndex]
    exact hm.list (h.childAt.mp ht) (h.childAt.mp hl)

theorem sameLinks_setTree {tree : FreeMemoryTree} (hroot : tree.root = (m.trees t).root)
    (hparent : tree.parent = (m.trees t).parent)
    (hindex : tree.parentItemIndex = (m.trees t).parentItemIndex)
    (hpresent : tree.present = (m.trees t).present)
    (hchild : ∀ i, (tree.childs i).child = ((m.trees t).childs i).child) :
    SameLinks m (m.setTree t tree) := by
  refine ⟨rfl, fun u => ?_, fun u => ?_, fun u => ?_, fun u => ?_, fun u i => ?_, fun _ => rfl,
    fun _ => rfl, fun _ => rfl⟩ <;> rw [trees_setTree] <;> split
  all_goals first | rfl | (rename_i h; subst h)
  · exact hroot
  · exact hparent
  · exact hindex
  · exact hpresent
  · exact hchild i

theorem sameLinks_setItem {item : MemoryTreeItem} (h : item.child = ((m.trees t).childs i).child) :
    SameLinks m (m.setItem t i item) := by
  refine sameLinks_setTree rfl rfl rfl rfl fun k => ?_
  rw [childs_setChild]
  split
  · rename_i hk
    rw [h, hk]
  · rfl

theorem sameLinks_setListHead {head : SegmentListHead}
    (hparent : head.parent = (m.listHeads l).parent)
    (hindex : head.parentItemIndex = (m.listHeads l).parentItemIndex)
    (hinitial : ∀ x, (head.memorySegments x).initialHeap = (m.segment (l, x)).initialHeap) :
    SameLinks m (m.setListHead l head) := by
  refine ⟨rfl, fun _ => rfl, fun _ => rfl, fun _ => rfl, fun _ => rfl, fun _ _ => rfl, fun u => ?_,
    fun u => ?_, fun h => ?_⟩
  · rw [listHeads_setListHead]
    split
    · rename_i hu
      rw [hparent, hu]
    · rfl
  · rw [listHeads_setListHead]
    split
    · rename_i hu
      rw [hindex, hu]
    · rfl
  · rw [segment_setListHead]
    split
    · rename_i hu
      rw [hinitial, ← hu]
    · rfl

theorem sameLinks_setSegment {h : ℕ × ℕ} {s : Segment}
    (hs : s.initialHeap = (m.segment h).initialHeap) :
    SameLinks m (m.setSegment h s) := by
  refine sameLinks_setListHead rfl rfl fun x => ?_
  change (Function.update (m.listHeads h.1).memorySegments h.2 s x).initialHeap = _
  rw [Function.update_apply]
  split
  · rename_i hx
    rw [hs, hx]
  · rfl

theorem sameLinks_setLock (m : HeapMemory) (t i : ℕ) (b : Bool) : SameLinks m (setLock m t i b) :=
  sameLinks_setItem rfl

theorem slots_initial : slots (HeapMemory.initial.trees 0).present = [] := by decide

theorem not_childAt_initial : ¬ChildAt (HeapMemory.initial.trees 0) i c := by
  rintro ⟨hi, -⟩
  rw [slots_initial] at hi
  cases hi

theorem linked_initial : Linked HeapMemory.initial := by
  refine ⟨by decide, fun t => ?_, fun i hi => ?_, fun ht => (not_childAt_initial ht).elim,
    fun ht => (not_childAt_initial ht).elim, fun ht => (not_childAt_initial ht).elim, fun _ => rfl⟩
  · by_cases ht : t = 0
    · rw [ht]
      rfl
    · rw [decide_eq_false ht, HeapMemory.initial]
      simp [ht, FreeMemoryTree.zero]
  · rw [slots_initial] at hi
    cases hi

section Grow

/-- The memory when `MmAllocateSlot` has given the slot `i` a page. -/
def grow (m : HeapMemory) (t i : ℕ) : HeapMemory :=
  let tree := m.trees t
  let item := { tree.childs i with
    child := some m.brk, lockMutex := tree.root || (tree.childs i).lockMutex }
  { m with
    trees := Function.update (Function.update m.trees t { tree.setChild i item with
      present := Bitmaps.set tree.present i, presentSlotCount :=
        (tree.presentSlotCount + 1) % 256 }) m.brk
      { FreeMemoryTree.zero with parentItemIndex := i, parent := some t }
    listHeads := Function.update m.listHeads m.brk
      { SegmentListHead.zero with parentItemIndex := i, parent := some t }
    brk := m.brk + 1 }

theorem mmAllocateSlot_cons (h : ((m.trees t).root && ((m.trees t).childs i).lockMutex) = false)
    (is : List ℕ) :
    mmAllocateSlot m t (i :: is) = (grow m t i, some i) := by
  rw [mmAllocateSlot, h]
  rfl

variable (m t i)

theorem trees_grow_page : (grow m t i).trees m.brk =
    { FreeMemoryTree.zero with parentItemIndex := i, parent := some t } :=
  Function.update_self ..

theorem listHeads_grow_page : (grow m t i).listHeads m.brk =
    { SegmentListHead.zero with parentItemIndex := i, parent := some t } :=
  Function.update_self ..

variable {m t}

theorem trees_grow_self (ht : t ≠ m.brk) : (grow m t i).trees t =
    { (m.trees t).setChild i { (m.trees t).childs i with
      child := some m.brk, lockMutex := (m.trees t).root || ((m.trees t).childs i).lockMutex } with
      present := Bitmaps.set (m.trees t).present i
      presentSlotCount := ((m.trees t).presentSlotCount + 1) % 256 } :=
  (Function.update_of_ne ht ..).trans (Function.update_self ..)

theorem trees_grow_of_ne (hu : u ≠ m.brk) (hut : u ≠ t) : (grow m t i).trees u = m.trees u :=
  (Function.update_of_ne hu ..).trans (Function.update_of_ne hut ..)

theorem listHeads_grow_of_ne (hl : l ≠ m.brk) : (grow m t i).listHeads l = m.listHeads l :=
  Function.update_of_ne hl ..

variable {i}

theorem not_childAt_page : ¬ChildAt ((grow m t i).trees m.brk) k c := by
  rintro ⟨hk, -⟩
  rw [trees_grow_page, mem_slots] at hk
  exact absurd hk.2 (by simp [bit, FreeMemoryTree.zero])

theorem childAt_grow (ht : t ≠ m.brk) (hi : i ∈ slots fun x => ~~~(m.trees t).present x) :
    ChildAt ((grow m t i).trees t) k c ↔ ChildAt (m.trees t) k c ∨ (k = i ∧ c = m.brk) := by
  obtain ⟨hlt, hnot⟩ := mem_slots_not.mp hi
  rw [ChildAt, trees_grow_self i ht, mem_slots_set hlt]
  change (_ ∧ (((m.trees t).setChild i _).childs k).child = some c) ↔ _
  rw [childs_setChild]
  by_cases hk : k = i
  · subst hk
    rw [if_pos rfl]
    constructor
    · rintro ⟨-, hc⟩
      exact Or.inr ⟨rfl, (Option.some.inj hc).symm⟩
    · rintro (⟨hmem, -⟩ | ⟨-, rfl⟩)
      · exact absurd hmem hnot
      · exact ⟨Or.inl rfl, rfl⟩
  · rw [if_neg hk]
    constructor
    · rintro ⟨hmem, hc⟩
      exact Or.inl ⟨hmem.resolve_left hk, hc⟩
    · rintro (⟨hmem, hc⟩ | ⟨hki, -⟩)
      · exact ⟨Or.inr hmem, hc⟩
      · exact absurd hki hk

theorem Linked.growTree (hm : Linked m) (hi : i ∈ slots fun x => ~~~(m.trees 0).present x) :
    Linked (grow m 0 i) := by
  have h0 : 0 ≠ m.brk := Nat.ne_of_lt hm.pos
  have hold {k t : ℕ} (ht : ChildAt (m.trees 0) k t) : (grow m 0 i).trees t = m.trees t :=
    trees_grow_of_ne i (Nat.ne_of_lt (hm.tree ht).2.1) (Nat.ne_of_gt (hm.tree ht).1)
  refine ⟨Nat.succ_pos _, fun u => ?_, fun k hk => ?_, fun {k t} ht => ?_, fun {k t} ht j hj => ?_,
    fun {k t j l} ht hl => ?_, fun h => ?_⟩
  · by_cases hu : u = m.brk
    · rw [hu, trees_grow_page]
      exact (decide_eq_false (Nat.ne_of_gt hm.pos)).symm
    · by_cases hu0 : u = 0
      · rw [hu0, trees_grow_self i h0]
        exact hm.rootFlag 0
      · rw [trees_grow_of_ne i hu hu0]
        exact hm.rootFlag u
  · by_cases hki : k = i
    · exact ⟨m.brk, ((childAt_grow h0 hi).mpr (Or.inr ⟨hki, rfl⟩)).2⟩
    · rw [trees_grow_self i h0] at hk
      have hk' := ((mem_slots_set (mem_slots_not.mp hi).1).mp hk).resolve_left hki
      obtain ⟨t, ht⟩ := hm.treePage k hk'
      exact ⟨t, ((childAt_grow h0 hi).mpr (Or.inl ⟨hk', ht⟩)).2⟩
  · rcases (childAt_grow h0 hi).mp ht with ht | ⟨rfl, rfl⟩
    · obtain ⟨hpos, hlt, hparent⟩ := hm.tree ht
      rw [hold ht]
      exact ⟨hpos, Nat.lt_succ_of_lt hlt, hparent⟩
    · rw [trees_grow_page]
      exact ⟨hm.pos, Nat.lt_succ_self _, rfl, rfl⟩
  · rcases (childAt_grow h0 hi).mp ht with ht | ⟨rfl, rfl⟩
    · rw [hold ht] at hj ⊢
      exact hm.listPage ht j hj
    · rw [trees_grow_page, mem_slots] at hj
      exact absurd hj.2 (by simp [bit, FreeMemoryTree.zero])
  · rcases (childAt_grow h0 hi).mp ht with ht | ⟨rfl, rfl⟩
    · rw [hold ht] at hl
      obtain ⟨hlt, hparent⟩ := hm.list ht hl
      rw [listHeads_grow_of_ne i (Nat.ne_of_lt hlt)]
      exact ⟨Nat.lt_succ_of_lt hlt, hparent⟩
    · exact absurd hl not_childAt_page
  · rw [HeapMemory.segment]
    by_cases hh : h.1 = m.brk
    · rw [hh, listHeads_grow_page]
      rfl
    · rw [listHeads_grow_of_ne i hh]
      exact hm.initialHeap h

theorem Linked.growList {a : ℕ} (hm : Linked m) (ht : ChildAt (m.trees 0) a t)
    (hi : i ∈ slots fun x => ~~~(m.trees t).present x) : Linked (grow m t i) := by
  obtain ⟨hpos, hlt, hparent, hindex⟩ := hm.tree ht
  have hroot : (grow m t i).trees 0 = m.trees 0 :=
    trees_grow_of_ne i (Nat.ne_of_lt hm.pos) (Nat.ne_of_lt hpos)
  have hself := trees_grow_self (m := m) i (Nat.ne_of_lt hlt)
  have hchild {j l : ℕ} := childAt_grow (k := j) (c := l) (Nat.ne_of_lt hlt) hi
  have hold {k u : ℕ} (hu : ChildAt (m.trees 0) k u) (hne : u ≠ t) : (grow m t i).trees u =
      m.trees u :=
    trees_grow_of_ne i (Nat.ne_of_lt (hm.tree hu).2.1) hne
  refine ⟨Nat.succ_pos _, fun u => ?_, fun k hk => ?_, fun {k u} hu => ?_, fun {k u} hu j hj => ?_,
    fun {k u j l} hu hl => ?_, fun h => ?_⟩
  · by_cases hub : u = m.brk
    · rw [hub, trees_grow_page]
      exact (decide_eq_false (Nat.ne_of_gt hm.pos)).symm
    · by_cases hut : u = t
      · rw [hut, hself]
        exact hm.rootFlag t
      · rw [trees_grow_of_ne i hub hut]
        exact hm.rootFlag u
  · rw [hroot] at hk ⊢
    exact hm.treePage k hk
  · rw [hroot] at hu
    obtain ⟨hupos, hult, huparent⟩ := hm.tree hu
    by_cases hut : u = t
    · subst hut
      rw [hself]
      exact ⟨hupos, Nat.lt_succ_of_lt hult, huparent⟩
    · rw [hold hu hut]
      exact ⟨hupos, Nat.lt_succ_of_lt hult, huparent⟩
  · rw [hroot] at hu
    by_cases hut : u = t
    · subst hut
      by_cases hji : j = i
      · exact ⟨m.brk, (hchild.mpr (Or.inr ⟨hji, rfl⟩)).2⟩
      · rw [hself] at hj
        have hj' := ((mem_slots_set (mem_slots_not.mp hi).1).mp hj).resolve_left hji
        obtain ⟨l, hl⟩ := hm.listPage hu j hj'
        exact ⟨l, (hchild.mpr (Or.inl ⟨hj', hl⟩)).2⟩
    · rw [hold hu hut] at hj ⊢
      exact hm.listPage hu j hj
  · rw [hroot] at hu
    have hkeep (hl : ChildAt (m.trees u) j l) : l < m.brk + 1 ∧
        ((grow m t i).listHeads l).parent = some u ∧
        ((grow m t i).listHeads l).parentItemIndex = j := by
      obtain ⟨hllt, hlparent⟩ := hm.list hu hl
      rw [listHeads_grow_of_ne i (Nat.ne_of_lt hllt)]
      exact ⟨Nat.lt_succ_of_lt hllt, hlparent⟩
    by_cases hut : u = t
    · subst hut
      rcases hchild.mp hl with hl | ⟨rfl, rfl⟩
      · exact hkeep hl
      · rw [listHeads_grow_page]
        exact ⟨Nat.lt_succ_self _, rfl, rfl⟩
    · rw [hold hu hut] at hl
      exact hkeep hl
  · rw [HeapMemory.segment]
    by_cases hh : h.1 = m.brk
    · rw [hh, listHeads_grow_page]
      rfl
    · rw [listHeads_grow_of_ne i hh]
      exact hm.initialHeap h

end Grow

section Pick

/-- The slot that the scan of `FindNextAvailableChild` returns, if any. -/
def pick (m : HeapMemory) (t : ℕ) : Option ℕ :=
  let tree := m.trees t
  if tree.presentSlotCount = tree.fullSlotCount then none
  else (slots fun x => ~~~tree.fullSlots x &&& tree.present x).find? fun i =>
    (tree.childs i).child.any fun child => firstByte m tree.root child ≠ maxSlots

def locked (m : HeapMemory) (t i : ℕ) : HeapMemory :=
  if (m.trees t).root then setLock m t i true else m

theorem trees_setLock (b : Bool) : (setLock m t i b).trees u =
    if u = t then (m.trees t).setChild i { (m.trees t).childs i with lockMutex := b }
      else m.trees u :=
  trees_setItem ..

theorem setLock_setLock (b d : Bool) : setLock (setLock m t i b) t i d = setLock m t i d := by
  have hitem : ((setLock m t i b).trees t).childs i =
      { (m.trees t).childs i with lockMutex := b } := by
    rw [trees_setLock, if_pos rfl, childs_setChild, if_pos rfl]
  rw [setLock, hitem, setLock, setLock, HeapMemory.setItem, HeapMemory.setItem, HeapMemory.setTree,
    HeapMemory.setTree, HeapMemory.setItem, HeapMemory.setTree]
  simp only [Function.update_self, Function.update_idem, FreeMemoryTree.setChild]

theorem setLock_self {b : Bool} (h : ((m.trees t).childs i).lockMutex = b) :
    setLock m t i b = m := by
  have hitem : { (m.trees t).childs i with lockMutex := b } = (m.trees t).childs i := by rw [← h]
  rw [setLock, hitem, HeapMemory.setItem, FreeMemoryTree.setChild, Function.update_eq_self]
  exact setTree_self m t

theorem firstByte_setLock (b r : Bool) : firstByte (setLock m t i b) r c = firstByte m r c := by
  rw [firstByte, firstByte, trees_setLock]
  split
  · split
    · rename_i h
      rw [h]
      rfl
    · rfl
  · rfl

theorem findChild_eq (is : List ℕ) (hchild : ∀ i ∈ is, ∃ c, ((m.trees t).childs i).child = some c)
    (hlock : (m.trees t).root = true → ∀ i, ((m.trees t).childs i).lockMutex = false) :
    findChild m t is = .ok (match is.find? fun i => ((m.trees t).childs i).child.any fun child =>
        firstByte m (m.trees t).root child ≠ maxSlots with
      | some i => (locked m t i, some i)
      | none => (m, none)) := by
  induction is with
  | nil => rfl
  | cons i is ih =>
    have ih := ih fun j hj => hchild j (List.mem_cons_of_mem i hj)
    obtain ⟨c, hc⟩ := hchild i List.mem_cons_self
    cases hroot : (m.trees t).root with
    | false =>
      rw [hroot] at ih
      simp only [findChild, hroot, hc, deref_some, ok_bind, Bool.false_and, Bool.false_eq_true,
        if_false, List.find?_cons, Option.any_some]
      by_cases hfull : firstByte m false c = maxSlots
      · simp only [hfull, if_true, ih, ne_eq, not_true, decide_false]
      · simp only [hfull, if_false, ne_eq, not_false_eq_true, decide_true, locked, hroot,
          Bool.false_eq_true]
        rfl
    | true =>
      rw [hroot] at ih
      have hunlocked := hlock hroot i
      have hback : setLock (setLock m t i true) t i false = m := by
        rw [setLock_setLock, setLock_self hunlocked]
      simp only [findChild, hroot, hc, hunlocked, deref_some, ok_bind, Bool.and_false,
        Bool.false_eq_true, if_false, if_true, firstByte_setLock, List.find?_cons,
        Option.any_some, hback]
      by_cases hfull : firstByte m true c = maxSlots
      · simp only [hfull, if_true, ih, ne_eq, not_true, decide_false]
      · simp only [hfull, if_false, ne_eq, not_false_eq_true, decide_true, locked, hroot, if_true]
        rfl

theorem mem_slots_open {full present : Bitmap 64} :
    (i ∈ slots fun x => ~~~full x &&& present x) ↔ i ∈ slots present ∧ i ∉ slots full := by
  rw [mem_slots, mem_slots, mem_slots]
  have hbit : bit (fun x => ~~~full x &&& present x) i = (!bit full i && bit present i) := by
    simp [bit, Nat.mod_lt i (show 0 < 64 by decide)]
  rw [hbit]
  cases bit full i <;> cases bit present i <;> simp

/-- What `FindNextAvailableChild` does with a slot that it returns. -/
inductive Picked (m : HeapMemory) (t : ℕ) : HeapMemory → ℕ → Prop
  | scan {i : ℕ} : pick m t = some i → Picked m t (locked m t i) i
  | page {i : ℕ} {is : List ℕ} :
    pick m t = none → (slots fun x => ~~~(m.trees t).present x) = i :: is →
      Picked m t (grow m t i) i

theorem findNextAvailableChild_cases
    (hchild : ∀ i ∈ slots (m.trees t).present, ∃ c, ((m.trees t).childs i).child = some c)
    (hlock : (m.trees t).root = true → ∀ i, ((m.trees t).childs i).lockMutex = false) :
    (∃ m' i, findNextAvailableChild m t = .ok (m', some i) ∧ Picked m t m' i) ∨
      (findNextAvailableChild m t = .ok (m, none) ∧ pick m t = none ∧
        (slots fun x => ~~~(m.trees t).present x) = []) := by
  have hpage (hnone : pick m t = none) :
      (∃ m' i, mmAllocateSlot m t (slots fun x => ~~~(m.trees t).present x) = (m', some i) ∧
        Picked m t m' i) ∨
      (mmAllocateSlot m t (slots fun x => ~~~(m.trees t).present x) = (m, none) ∧ pick m t = none ∧
        (slots fun x => ~~~(m.trees t).present x) = []) := by
    cases hslots : slots fun x => ~~~(m.trees t).present x with
    | nil => exact Or.inr ⟨rfl, hnone, rfl⟩
    | cons i is =>
      have hunlocked : ((m.trees t).root && ((m.trees t).childs i).lockMutex) = false := by
        cases hroot : (m.trees t).root with
        | false => rfl
        | true => exact hlock hroot i
      exact Or.inl ⟨_, i, mmAllocateSlot_cons hunlocked is, Picked.page hnone hslots⟩
  by_cases hcount : (m.trees t).presentSlotCount = (m.trees t).fullSlotCount
  · have hnone : pick m t = none := if_pos hcount
    have hfind : findNextAvailableChild m t =
        .ok (mmAllocateSlot m t (slots fun x => ~~~(m.trees t).present x)) := by
      rw [findNextAvailableChild, if_pos hcount]
      rfl
    rw [hfind]
    rcases hpage hnone with ⟨m', i, ha, hp⟩ | ⟨ha, hp⟩
    · exact Or.inl ⟨m', i, by rw [ha], hp⟩
    · exact Or.inr ⟨by rw [ha], hp⟩
  · have hscan := findChild_eq (slots fun x => ~~~(m.trees t).fullSlots x &&& (m.trees t).present x)
      (fun i hi => hchild i (mem_slots_open.mp hi).1) hlock
    have hpick : pick m t =
        (slots fun x => ~~~(m.trees t).fullSlots x &&& (m.trees t).present x).find? fun i =>
        ((m.trees t).childs i).child.any fun child => firstByte m (m.trees t).root child ≠
            maxSlots :=
      if_neg hcount
    rw [← hpick] at hscan
    cases hp : pick m t with
    | some i =>
      rw [hp] at hscan
      refine Or.inl ⟨locked m t i, i, ?_, Picked.scan hp⟩
      rw [findNextAvailableChild, if_neg hcount]
      simp only [hscan, ok_bind]
      rfl
    | none =>
      rw [hp] at hscan
      have hfind : findNextAvailableChild m t =
          .ok (mmAllocateSlot m t (slots fun x => ~~~(m.trees t).present x)) := by
        rw [findNextAvailableChild, if_neg hcount]
        simp only [hscan, ok_bind]
        rfl
      rw [hfind]
      rcases hpage hp with ⟨m', i, ha, hp'⟩ | ⟨ha, -, hp'⟩
      · exact Or.inl ⟨m', i, by rw [ha], hp'⟩
      · exact Or.inr ⟨by rw [ha], rfl, hp'⟩

theorem pick_some (h : pick m t = some i) :
    i ∈ slots (m.trees t).present ∧ i ∉ slots (m.trees t).fullSlots ∧
      ∃ c, ChildAt (m.trees t) i c ∧ firstByte m (m.trees t).root c ≠ maxSlots := by
  rw [pick] at h
  split at h
  · cases h
  · have hmem := mem_slots_open.mp (List.mem_of_find?_eq_some h)
    have hany := List.find?_some h
    obtain ⟨c, hc, hbyte⟩ := (Option.any_eq_true _ _).mp hany
    exact ⟨hmem.1, hmem.2, c, ⟨hmem.1, hc⟩, of_decide_eq_true hbyte⟩

theorem sameLinks_locked (m : HeapMemory) (t i : ℕ) : SameLinks m (locked m t i) := by
  rw [locked]
  split
  · exact sameLinks_setLock m t i true
  · exact SameLinks.refl m

theorem pick_locked (ht : t ≠ 0) : pick (locked m 0 i) t = pick m t := by
  have htree : (locked m 0 i).trees t = m.trees t := by
    rw [locked]
    split
    · rw [trees_setLock, if_neg ht]
    · rfl
  have hbyte (b : Bool) (c : ℕ) : firstByte (locked m 0 i) b c = firstByte m b c := by
    rw [locked]
    split
    · exact firstByte_setLock _ _
    · rfl
  rw [pick, pick, htree]
  simp only [hbyte]

theorem head_slots_not {b : Bitmap 64} {is : List ℕ} (h : (slots fun x => ~~~b x) = i :: is) :
    i ∈ slots fun x => ~~~b x := by
  rw [h]
  exact List.mem_cons_self

theorem Picked.tree (h : Picked m 0 m' i) (hm : Linked m) :
    Linked m' ∧ ∃ t, ChildAt (m'.trees 0) i t := by
  cases h with
  | scan hpick =>
    obtain ⟨-, -, c, hc, -⟩ := pick_some hpick
    exact ⟨hm.congr (sameLinks_locked m 0 i), c, (sameLinks_locked m 0 i).childAt.mpr hc⟩
  | page _ hslots =>
    have hi := head_slots_not hslots
    exact ⟨hm.growTree hi, m.brk, (childAt_grow (Nat.ne_of_lt hm.pos) hi).mpr (Or.inr ⟨rfl, rfl⟩)⟩

theorem Picked.list (h : Picked m t m' j) (hm : Linked m) (ht : ChildAt (m.trees 0) i t) :
    Linked m' ∧ m'.trees 0 = m.trees 0 ∧ ∃ l, ChildAt (m'.trees t) j l := by
  have hpos := (hm.tree ht).1
  have hroot : (m.trees t).root = false :=
    (hm.rootFlag t).trans (decide_eq_false (Nat.ne_of_gt hpos))
  cases h with
  | scan hpick =>
    obtain ⟨-, -, c, hc, -⟩ := pick_some hpick
    rw [locked, hroot]
    exact ⟨hm, rfl, c, hc⟩
  | page _ hslots =>
    have hj := head_slots_not hslots
    have hlt := (hm.tree ht).2.1
    exact ⟨hm.growList ht hj, trees_grow_of_ne j (Nat.ne_of_lt hm.pos) (Nat.ne_of_lt hpos), m.brk,
      (childAt_grow (Nat.ne_of_lt hlt) hj).mpr (Or.inr ⟨rfl, rfl⟩)⟩

end Pick

/-- No slot of the root is locked, but perhaps the slot `i`. -/
def UnlockedBut (m : HeapMemory) (i : Option ℕ) : Prop :=
  ∀ k, some k ≠ i → ((m.trees 0).childs k).lockMutex = false

theorem Picked.unlocked (h : Picked m 0 m' i) (hm : Linked m) (hu : UnlockedBut m none) :
    UnlockedBut m' (some i) := by
  intro k hk
  have hki : k ≠ i := fun he => hk (congrArg some he)
  have hbefore := hu k (Option.some_ne_none k)
  cases h with
  | scan hpick =>
    rw [locked, hm.rootFlag, if_pos (decide_eq_true rfl), trees_setLock, if_pos rfl,
      childs_setChild, if_neg hki]
    exact hbefore
  | page _ hslots =>
    rw [trees_grow_self i (Nat.ne_of_lt hm.pos)]
    change (((m.trees 0).setChild i _).childs k).lockMutex = false
    rw [childs_setChild, if_neg hki]
    exact hbefore

/-- How a call of `CreateHeap` goes. -/
inductive Created (m : HeapMemory) (address heapLength : ℕ) : Except Fault HeapMemory → Prop
  | newTree : ((m.trees 0).fullSlotCount = maxSlots ∨
      (pick m 0 = none ∧ (slots fun x => ~~~(m.trees 0).present x) = [])) →
      Created m address heapLength (.error .newTree)
  | sod {m₁ : HeapMemory} {i t : ℕ} : (m.trees 0).fullSlotCount ≠ maxSlots → Picked m 0 m₁ i →
      ChildAt (m₁.trees 0) i t → pick m₁ t = none →
      (slots fun x => ~~~(m₁.trees t).present x) = [] →
      Created m address heapLength (.error .sod)
  | place {m₁ m₂ : HeapMemory} {i t j l : ℕ} : Picked m 0 m₁ i → ChildAt (m₁.trees 0) i t →
      Picked m₁ t m₂ j → ChildAt (m₂.trees t) j l →
      Created m address heapLength (placeHeap m₂ i t j l address heapLength)

theorem createHeap_cases (hm : Linked m) (hu : UnlockedBut m none) (address heapLength : ℕ) :
    Created m address heapLength (createHeap m address heapLength) := by
  rw [createHeap]
  by_cases hfull : (m.trees 0).fullSlotCount = maxSlots
  · rw [if_pos hfull]
    exact Created.newTree (Or.inl hfull)
  rw [if_neg hfull]
  rcases findNextAvailableChild_cases hm.treePage fun _ i => hu i (Option.some_ne_none i) with
    ⟨m₁, i, hfind, hpicked⟩ | ⟨hfind, hnone, hslots⟩
  · obtain ⟨hm₁, t, ht⟩ := hpicked.tree hm
    have hnotRoot : (m₁.trees t).root ≠ true := by
      rw [hm₁.rootFlag, decide_eq_false (Nat.ne_of_gt (hm₁.tree ht).1)]
      exact Bool.false_ne_true
    rw [hfind, ok_bind]
    simp only [ht.2, deref_some, ok_bind]
    rcases findNextAvailableChild_cases (hm₁.listPage ht) fun hroot => absurd hroot hnotRoot with
      ⟨m₂, j, hfind', hpicked'⟩ | ⟨hfind', hnone, hslots⟩
    · obtain ⟨-, -, l, hl⟩ := hpicked'.list hm₁ ht
      rw [hfind', ok_bind]
      simp only [hl.2, deref_some, ok_bind]
      exact Created.place hpicked ht hpicked' hl
    · rw [hfind', ok_bind]
      exact Created.sod hfull hpicked ht hnone hslots
  · rw [hfind, ok_bind]
    exact Created.newTree (Or.inr ⟨hnone, hslots⟩)

end DevOs.Heap
