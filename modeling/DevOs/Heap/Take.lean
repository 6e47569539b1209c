import DevOs.Heap.Model

/-!
# Taking a free segment

While the tree has one list of segments whose slots from 64 on are free, `SetLargestHeap` finds the
largest segment and both levels of the tree cache it. `AllocatePoolEx` takes the front of that
segment, or frees its slot when nothing is left.
-/

namespace DevOs.Heap

open Bitmaps Ranges

variable {m : HeapMemory}

def used (m : HeapMemory) : List ℕ := slots (m.listHeads 2).usedSlots

section Updates

variable (m : HeapMemory) (t u l i : ℕ) (tree : FreeMemoryTree) (head : SegmentListHead)
  (item : MemoryTreeItem)

@[simp]
theorem trees_setTree : (m.setTree t tree).trees u = if u = t then tree else m.trees u :=
  Function.update_apply m.trees t tree u

@[simp]
theorem listHeads_setTree : (m.setTree t tree).listHeads = m.listHeads := rfl

@[simp]
theorem trees_setListHead : (m.setListHead l head).trees = m.trees := rfl

@[simp]
theorem listHeads_setListHead :
    (m.setListHead l head).listHeads u = if u = l then head else m.listHeads u :=
  Function.update_apply m.listHeads l head u

@[simp]
theorem childs_setChild :
    (tree.setChild i item).childs u = if u = i then item else tree.childs u :=
  Function.update_apply tree.childs i item u

@[simp]
theorem root_setChild : (tree.setChild i item).root = tree.root := rfl

@[simp]
theorem parent_setChild : (tree.setChild i item).parent = tree.parent := rfl

@[simp]
theorem parentItemIndex_setChild :
    (tree.setChild i item).parentItemIndex = tree.parentItemIndex := rfl

@[simp]
theorem present_setChild : (tree.setChild i item).present = tree.present := rfl

@[simp]
theorem presentSlotCount_setChild :
    (tree.setChild i item).presentSlotCount = tree.presentSlotCount := rfl

@[simp]
theorem fullSlots_setChild : (tree.setChild i item).fullSlots = tree.fullSlots := rfl

@[simp]
theorem fullSlotCount_setChild : (tree.setChild i item).fullSlotCount = tree.fullSlotCount := rfl

@[simp]
theorem trees_setItem :
    (m.setItem t i item).trees u = if u = t then (m.trees t).setChild i item else m.trees u :=
  trees_setTree m t u _

@[simp]
theorem listHeads_setItem : (m.setItem t i item).listHeads = m.listHeads := rfl

@[simp]
theorem segment_setItem (h : ℕ × ℕ) : (m.setItem t i item).segment h = m.segment h := rfl

@[simp]
theorem used_setItem : used (m.setItem t i item) = used m := rfl

@[simp]
theorem segment_setListHead (h : ℕ × ℕ) : (m.setListHead l head).segment h =
    if h.1 = l then head.memorySegments h.2 else m.segment h := by
  rw [HeapMemory.segment, listHeads_setListHead]
  split <;> rfl

@[simp]
theorem segment_setSegment (s : Segment) (j : ℕ) :
    (m.setSegment (l, i) s).segment (l, j) = if j = i then s else m.segment (l, j) := by
  rw [HeapMemory.setSegment, segment_setListHead, if_pos rfl]
  exact Function.update_apply _ i s j

@[simp]
theorem trees_setSegment (s : Segment) (h : ℕ × ℕ) : (m.setSegment h s).trees = m.trees := rfl

@[simp]
theorem used_setSegment (s : Segment) : used (m.setSegment (l, i) s) = used m := by
  rw [used, HeapMemory.setSegment, listHeads_setListHead]
  split
  · rename_i h
    rw [← h]
    rfl
  · rfl

theorem setTree_self : m.setTree t (m.trees t) = m := by
  rw [HeapMemory.setTree, Function.update_eq_self]

end Updates

@[simp]
theorem ok_bind {α β : Type} (a : α) (f : α → Except Fault β) : (Except.ok a >>= f) = f a := rfl

@[simp]
theorem deref_some (a : ℕ) : deref (some a) = .ok a := rfl

theorem inside_of_lt {i : ℕ} (h : i < 128) : inside i = .ok () := if_pos h

theorem slots_one {b : Bitmap 64} (h0 : b 0 = 1) (h1 : b 1 = 0) : slots b = [0] := by
  rw [slots, numSlotGroups, places_two, h0, h1]
  decide

theorem wideSlots_one {b : Bitmap 64} (h0 : b 0 = 1) (h1 : b 1 = 0) : wideSlots b = [0] := by
  rw [wideSlots, numSlotGroups, places_two, h0, h1]
  decide

theorem wideSlots_eq_slots {b : Bitmap 64} (h : b 1 = 0) : wideSlots b = slots b := by
  have hnil : ones (b 1) = [] := by
    rw [h]
    exact ones_zero
  rw [wideSlots, slots, numSlotGroups, places_two, places_two, hnil, List.map_nil, List.map_nil]

theorem lt_of_mem_slots {b : Bitmap 64} {i : ℕ} (h : i ∈ slots b) : i < 128 := (mem_places.mp h).1

/-- The root with one tree below it. -/
structure RootShape (t : FreeMemoryTree) (locked : Bool) : Prop where
  root : t.root = true
  first : t.present 0 = 1
  second : t.present 1 = 0
  count : t.presentSlotCount = 1
  fullCount : t.fullSlotCount = 0
  full : t.fullSlots = fun _ => 0
  child : (t.childs 0).child = some 1
  lock : (t.childs 0).lockMutex = locked

/-- The tree below the root, with one list of segments. -/
structure TreeShape (t : FreeMemoryTree) : Prop where
  notRoot : t.root = false
  parent : t.parent = some 0
  index : t.parentItemIndex = 0
  first : t.present 0 = 1
  second : t.present 1 = 0
  count : t.presentSlotCount = 1
  child : (t.childs 0).child = some 2

structure ListShape (l : SegmentListHead) : Prop where
  parent : l.parent = some 1
  index : l.parentItemIndex = 0
  initial : ∀ i, (l.memorySegments i).initialHeap = false

/-- The tree has one list of segments. -/
structure Shape (m : HeapMemory) (locked : Bool) : Prop where
  root : RootShape (m.trees 0) locked
  tree : TreeShape (m.trees 1)
  list : ListShape (m.listHeads 2)

/-- The used slots are counted, and the list is marked as full only when it is. -/
structure Counted (m : HeapMemory) : Prop where
  numUsedSlots : (m.listHeads 2).numUsedSlots = (used m).length
  fullCount : (used m).length ≠ 128 → (m.trees 1).fullSlotCount = 0
  full : (used m).length ≠ 128 → (m.trees 1).fullSlots = fun _ => 0

/-- `h` names the largest of the segments of the slots `is`. -/
def IsLargest (m : HeapMemory) (is : List ℕ) (h : Option (ℕ × ℕ)) : Prop :=
  match h with
  | none => is = []
  | some h => ∃ i ∈ is, h = (2, i) ∧
      ∀ j ∈ is, (m.segment (2, j)).heapLength ≤ (m.segment (2, i)).heapLength

/-- Both levels cache the largest segment, and the root its place too. -/
structure Cached (m : HeapMemory) : Prop where
  lower : IsLargest m (used m) ((m.trees 1).childs 0).largestHeap
  upper : ((m.trees 0).childs 0).largestHeap = ((m.trees 1).childs 0).largestHeap
  listHead : ∀ h, ((m.trees 0).childs 0).largestHeap = some h →
    ((m.trees 0).childs 0).listHeadLargestHeap = some 2
  index : ∀ h, ((m.trees 0).childs 0).largestHeap = some h →
    ((m.trees 0).childs 0).indexLargestHeap = h.2

def Positive (m : HeapMemory) : Prop := ∀ i ∈ used m, 0 < (m.segment (2, i)).heapLength

theorem Shape.lists {b : Bool} (h : Shape m b) : m.lists = [2] := by
  rw [HeapMemory.lists, slots_one h.root.first h.root.second]
  simp [h.root.child, slots_one h.tree.first h.tree.second, h.tree.child]

theorem Shape.free {b : Bool} (h : Shape m b) :
    m.free = (used m).map fun i => (m.segment (2, i)).range := by
  rw [HeapMemory.free, h.lists, List.flatMap_singleton, used]

theorem scanSegments_spec (m : HeapMemory) (l : ℕ) (is : List ℕ) (his : ∀ i ∈ is, i < 128)
    (c : Largest) :
    ∃ d, scanSegments m l c is = .ok d ∧ c.heapLength ≤ d.heapLength ∧
      (∀ i ∈ is, (m.segment (l, i)).heapLength ≤ d.heapLength) ∧
      (d = c ∨ ∃ i ∈ is, d.heap = some (l, i) ∧ d.heapLength = (m.segment (l, i)).heapLength ∧
        d.indx = i % 256 ∧ c.heapLength < d.heapLength) := by
  induction is generalizing c with
  | nil => exact ⟨c, rfl, Nat.le_refl _, fun i hi => absurd hi List.not_mem_nil, Or.inl rfl⟩
  | cons i is ih =>
    have hi := his i List.mem_cons_self
    have his' : ∀ j ∈ is, j < 128 := fun j hj => his j (List.mem_cons_of_mem i hj)
    rw [scanSegments, inside_of_lt hi]
    by_cases hlt : c.heapLength < (m.segment (l, i)).heapLength
    · obtain ⟨d, hd, hle, hmax, hfrom⟩ := ih his' { c with
        heap := some (l, i), heapLength := (m.segment (l, i)).heapLength, indx := i % 256 }
      refine ⟨d, ?_, Nat.le_trans (Nat.le_of_lt hlt) hle, fun j hj => ?_, Or.inr ?_⟩
      · rw [← hd]
        exact if_pos hlt
      · rcases List.mem_cons.mp hj with rfl | hj
        · exact hle
        · exact hmax j hj
      · rcases hfrom with rfl | ⟨j, hj, hheap, hlen, hindx, -⟩
        · exact ⟨i, List.mem_cons_self, rfl, rfl, rfl, hlt⟩
        · exact ⟨j, List.mem_cons_of_mem i hj, hheap, hlen, hindx, Nat.lt_of_lt_of_le hlt hle⟩
    · obtain ⟨d, hd, hle, hmax, hfrom⟩ := ih his' c
      refine ⟨d, ?_, hle, fun j hj => ?_, ?_⟩
      · rw [← hd]
        exact if_neg hlt
      · rcases List.mem_cons.mp hj with rfl | hj
        · exact Nat.le_trans (Nat.le_of_not_lt hlt) hle
        · exact hmax j hj
      · rcases hfrom with rfl | ⟨j, hj, hheap⟩
        · exact Or.inl rfl
        · exact Or.inr ⟨j, List.mem_cons_of_mem i hj, hheap⟩

theorem RootShape.setChild {t : FreeMemoryTree} {b : Bool} {x : MemoryTreeItem} (h : RootShape t b)
    (hx : x.child = some 1) : RootShape (t.setChild 0 x) x.lockMutex :=
  ⟨h.root, h.first, h.second, h.count, h.fullCount, h.full, by simpa using hx, by simp⟩

theorem TreeShape.setChild {t : FreeMemoryTree} {x : MemoryTreeItem} (h : TreeShape t)
    (hx : x.child = some 2) : TreeShape (t.setChild 0 x) :=
  ⟨h.notRoot, h.parent, h.index, h.first, h.second, h.count, by simpa using hx⟩

/-- The scan of the second level keeps what the third level found when the only slot caches nothing
longer. -/
theorem scanChilds_single {c : Largest} (h : ∀ g, ((m.trees 1).childs 0).largestHeap = some g →
    (m.segment g).heapLength ≤ c.heapLength) : scanChilds m 1 c [0] = .ok c := by
  rw [scanChilds, inside_of_lt (by decide)]
  cases hg : ((m.trees 1).childs 0).largestHeap with
  | none => rfl
  | some g => exact if_neg (Nat.not_lt.mpr (h g hg))

/-- The marks of the second level are the same. -/
structure SameMarks (m m' : HeapMemory) : Prop where
  fullCount : (m'.trees 1).fullSlotCount = (m.trees 1).fullSlotCount
  full : (m'.trees 1).fullSlots = (m.trees 1).fullSlots

theorem setLargestHeap_spec {b : Bool} (hs : Shape m b) (hlow : (m.listHeads 2).usedSlots 1 = 0)
    (hpos : Positive m) (stack : ℕ) :
    ∃ m', setLargestHeap m (some 2) stack = .ok m' ∧ Shape m' b ∧ Cached m' ∧
      m'.listHeads = m.listHeads ∧ SameMarks m m' := by
  obtain ⟨d, hd, -, hmax, hfrom⟩ := scanSegments_spec m 2 (used m) (fun i hi => lt_of_mem_slots hi)
    ⟨none, none, 0, stack⟩
  have hlargest : IsLargest m (used m) d.heap ∧ ∀ g, d.heap = some g → g.2 = d.indx ∧
      (m.segment g).heapLength ≤ d.heapLength := by
    rcases hfrom with rfl | ⟨i, hi, hheap, hlen, hindx, -⟩
    · refine ⟨List.eq_nil_iff_forall_not_mem.mpr fun i hi => ?_, fun g hg => by cases hg⟩
      have := hpos i hi
      have := hmax i hi
      simp only at this
      omega
    · rw [hheap]
      refine ⟨⟨i, hi, rfl, fun j hj => (hmax j hj).trans hlen.le⟩, ?_⟩
      rintro g ⟨⟩
      have hlt := lt_of_mem_slots hi
      exact ⟨(hindx.trans (Nat.mod_eq_of_lt (by omega))).symm, hlen.symm.le⟩
  let lower := { (m.trees 1).childs 0 with largestHeap := d.heap, indexLargestHeap := d.indx }
  let m₁ := m.setItem 1 0 lower
  let upper := { (m.trees 0).childs 0 with
    indexLargestHeap := d.indx, largestHeap := d.heap, listHeadLargestHeap := some 2 }
  refine ⟨m₁.setItem 0 0 upper, ?_, ?_, ?_, rfl, ?_⟩
  · have hscan : scanChilds m₁ 1 { d with listHead := some 2 } [0] =
        .ok { d with listHead := some 2 } := by
      apply scanChilds_single
      intro g hg
      simp only [m₁, trees_setItem, if_pos, childs_setChild, lower] at hg
      exact (hlargest.2 g hg).2
    have hlist : wideSlots (m.listHeads 2).usedSlots = used m := wideSlots_eq_slots hlow
    have htree : TreeShape (m₁.trees 1) := by
      simpa [m₁] using hs.tree.setChild (x := lower) hs.tree.child
    have hup : (m₁.trees 0).childs 0 = (m.trees 0).childs 0 := by simp [m₁]
    simp only [setLargestHeap, deref_some, ok_bind, hlist, hd, hs.list.parent, hs.list.index,
      inside_of_lt (show 0 < 128 by decide)]
    change (scanChilds m₁ 1 { d with listHead := some 2 } (wideSlots (m₁.trees 1).present) >>= _) =
      _
    rw [wideSlots_one htree.first htree.second, hscan]
    change (deref (m₁.trees 1).parent >>= _) = _
    rw [htree.parent, deref_some, ok_bind]
    change (inside (m₁.trees 1).parentItemIndex >>= _) = _
    rw [htree.index, inside_of_lt (by decide), ok_bind, hup]
    rfl
  · refine ⟨?_, ?_, hs.list⟩
    · have h := hs.root.setChild (x := upper) hs.root.child
      simpa [m₁, upper, hs.root.lock] using h
    · simpa [m₁] using hs.tree.setChild (x := lower) hs.tree.child
  · refine ⟨?_, ?_, fun g hg => ?_, fun g hg => ?_⟩
    · simpa [m₁, lower, IsLargest] using hlargest.1
    · simp [m₁, lower, upper]
    · simp [m₁, upper]
    · simp only [trees_setItem, if_pos, childs_setChild, upper] at hg ⊢
      exact (hlargest.2 g hg).1.symm
  · constructor <;> simp [m₁]

theorem resetSlot_of_lt {i : ℕ} (h : i < 128) (b : Bitmap 64) :
    resetSlot b (i / 128) (i % 128) = .ok (bit b i, Bitmaps.clear b i) := by
  rw [Nat.div_eq_of_lt h, Nat.mod_eq_of_lt h, resetSlot, Nat.mul_zero, Nat.zero_add]
  exact if_pos h

theorem clear_zero (i : ℕ) : Bitmaps.clear (fun _ => 0 : Bitmap 64) i = fun _ => 0 := by
  rw [Bitmaps.clear]
  exact (congrArg _ BitVec.zero_and).trans (Function.update_eq_self _ _)

theorem freeSlot_spec {b : Bool} {item : MemoryTreeItem} {i : ℕ} (hs : Shape m b)
    (hlist : item.listHeadLargestHeap = some 2) (hindex : item.indexLargestHeap = i) (hi : i < 128)
    (hfull : (m.trees 1).fullSlots = fun _ => 0) :
    freeSlot m item = .ok (m.setListHead 2 { m.listHeads 2 with
      usedSlots := Bitmaps.clear (m.listHeads 2).usedSlots i
      numUsedSlots := ((m.listHeads 2).numUsedSlots + 255) % 256 }) := by
  have hkeep : { m.trees 1 with fullSlots := fun _ => 0 } = m.trees 1 := by rw [← hfull]
  have hclear : bit (fun _ => 0 : Bitmap 64) 0 = false := by decide
  simp only [freeSlot, hlist, hindex, hs.list.parent, hs.list.index, deref_some, ok_bind,
    trees_setListHead, resetSlot_of_lt hi, resetSlot_of_lt (show 0 < 128 by decide), hfull,
    clear_zero, hclear, hkeep]
  rw [if_neg (by decide)]
  exact congrArg Except.ok (setTree_self (m.setListHead 2 _) 1)

/-- What holds between two calls once the tree has its list. The list is locked while `CreateHeap`
fills it. -/
structure Ready (m : HeapMemory) (locked : Bool) : Prop where
  shape : Shape m locked
  counted : Counted m
  cached : Cached m
  positive : Positive m

theorem Counted.congr {m' : HeapMemory} (h : Counted m) (hl : m'.listHeads = m.listHeads)
    (hm : SameMarks m m') : Counted m' := by
  have hused : used m' = used m := by rw [used, used, hl]
  refine ⟨?_, fun hne => ?_, fun hne => ?_⟩
  · rw [hused, hl]
    exact h.numUsedSlots
  · rw [hm.fullCount]
    exact h.fullCount (by rwa [← hused])
  · rw [hm.full]
    exact h.full (by rwa [← hused])

theorem Positive.congr {m' : HeapMemory} (h : Positive m) (hl : m'.listHeads = m.listHeads) :
    Positive m' := by
  intro i hi
  rw [used, hl] at hi
  rw [HeapMemory.segment, hl]
  exact h i hi

theorem Shape.free_congr {m' : HeapMemory} {b b' : Bool} (h : Shape m b) (h' : Shape m' b')
    (hl : m'.listHeads = m.listHeads) : m'.free = m.free := by
  rw [h.free, h'.free, used, used, hl]
  exact List.map_congr_left fun i _ => by rw [HeapMemory.segment, HeapMemory.segment, hl]

theorem setLargestHeap_ready (hs : Shape m false) (hc : Counted m) (hpos : Positive m)
    (hlow : (m.listHeads 2).usedSlots 1 = 0) (stack : ℕ) :
    ∃ m', setLargestHeap m (some 2) stack = .ok m' ∧ Ready m' false ∧ m'.free = m.free := by
  obtain ⟨m', hset, hs', hca', hsame, hmarks⟩ := setLargestHeap_spec hs hlow hpos stack
  exact ⟨m', hset, ⟨hs', hc.congr hsame hmarks, hca', hpos.congr hsame⟩, hs.free_congr hs' hsame⟩

theorem ListShape.setSegment {l : SegmentListHead} (h : ListShape l) {i : ℕ} {s : Segment}
    (hs : s.initialHeap = false) :
    ListShape { l with memorySegments := Function.update l.memorySegments i s } := by
  refine ⟨h.parent, h.index, fun j => ?_⟩
  change (Function.update l.memorySegments i s j).initialHeap = false
  rw [Function.update_apply]
  split
  · exact hs
  · exact h.initial j

theorem Shape.setSegment {b : Bool} {i : ℕ} {s : Segment} (h : Shape m b)
    (hs : s.initialHeap = false) : Shape (m.setSegment (2, i) s) b :=
  ⟨h.root, h.tree, by simpa [HeapMemory.setSegment] using h.list.setSegment (i := i) hs⟩

theorem Counted.setSegment {i : ℕ} {s : Segment} (h : Counted m) :
    Counted (m.setSegment (2, i) s) := by
  refine ⟨?_, fun hne => h.fullCount ?_, fun hne => h.full ?_⟩
  · rw [used_setSegment, ← h.numUsedSlots]
    simp [HeapMemory.setSegment]
  · rwa [used_setSegment] at hne
  · rwa [used_setSegment] at hne

theorem usedSlots_setSegment (i : ℕ) (s : Segment) :
    ((m.setSegment (2, i) s).listHeads 2).usedSlots = (m.listHeads 2).usedSlots := by
  simp [HeapMemory.setSegment]

theorem not_mem_clear {b : Bitmap 64} {i : ℕ} : i ∉ slots (Bitmaps.clear b i) := by
  rw [slots, mem_places, bit_clear (by decide)]
  simp

/-- The free segments without that of the used slot `i`. -/
def freeBut (m : HeapMemory) (i : ℕ) : List Range :=
  (slots (Bitmaps.clear (m.listHeads 2).usedSlots i)).map fun j => (m.segment (2, j)).range

theorem Shape.free_perm {b : Bool} {i : ℕ} (h : Shape m b) (hi : i ∈ used m) :
    m.free.Perm ((m.segment (2, i)).range :: freeBut m i) := by
  rw [h.free]
  exact (places_clear hi).map _

theorem freeBut_setSegment (i : ℕ) (s : Segment) :
    freeBut (m.setSegment (2, i) s) i = freeBut m i := by
  rw [freeBut, freeBut, usedSlots_setSegment]
  refine List.map_congr_left fun j hj => ?_
  rw [segment_setSegment, if_neg fun h => not_mem_clear (h ▸ hj)]

def shortened (m : HeapMemory) (i n : ℕ) : Segment := { m.segment (2, i) with
  address := ((m.segment (2, i)).address + n) % 2 ^ 64
  heapLength := (m.segment (2, i)).heapLength - n }

theorem takeFront_shorten {i n : ℕ} (h : Ready m false) (hlow : (m.listHeads 2).usedSlots 1 = 0)
    (hi : i ∈ used m) (hfound : ((m.trees 0).childs 0).largestHeap = some (2, i))
    (hn : n < (m.segment (2, i)).heapLength) (stack : ℕ) :
    ∃ m', takeFront m 0 n stack = .ok (m', (m.segment (2, i)).address) ∧ Ready m' false ∧
      m'.free.Perm ((shortened m i n).range :: freeBut m i) := by
  have hrest : 0 < (shortened m i n).heapLength := Nat.sub_pos_of_lt hn
  have hs₁ : Shape (m.setSegment (2, i) (shortened m i n)) false :=
    h.shape.setSegment (h.shape.list.initial i)
  have hpos₁ : Positive (m.setSegment (2, i) (shortened m i n)) := by
    intro j hj
    rw [segment_setSegment]
    split
    · exact hrest
    · exact h.positive j (by simpa using hj)
  obtain ⟨m', hset, hready, hfree⟩ := setLargestHeap_ready hs₁ h.counted.setSegment hpos₁
    (by rwa [usedSlots_setSegment]) stack
  refine ⟨m', ?_, hready, ?_⟩
  · simp only [takeFront, hfound]
    rw [if_neg fun hz => (Nat.sub_pos_of_lt hn).ne' hz.1, ok_bind, h.cached.listHead _ hfound]
    change (setLargestHeap (m.setSegment (2, i) (shortened m i n)) _ _ >>= _) = _
    rw [hset]
    rfl
  · rw [hfree]
    have hperm := hs₁.free_perm (i := i) (by simpa using hi)
    rwa [segment_setSegment, if_pos rfl, freeBut_setSegment] at hperm

theorem slots_length_le (b : Bitmap 64) : (slots b).length ≤ 128 := places_length_le numSlotGroups b

theorem slots_length_of_low {b : Bitmap 64} (h : b 1 = 0) : (slots b).length ≠ 128 := by
  have hones : ones (b 1) = [] := by
    rw [h]
    exact ones_zero
  have hle : (ones (b 0)).length ≤ 64 := by
    have := List.length_filter_le (b 0).getLsbD (List.range 64)
    rwa [List.length_range] at this
  rw [slots, numSlotGroups, places_two, hones, List.map_nil, List.append_nil]
  omega

theorem clear_of_eq_zero {b : Bitmap 64} {x : ℕ} (h : b x = 0) (i : ℕ) :
    Bitmaps.clear b i x = 0 := by
  rw [Bitmaps.clear, Function.update_apply]
  split
  · rename_i hx
    rw [← hx, h]
    exact BitVec.zero_and
  · exact h

/-- The memory after the slot `i` of the list was freed. -/
def freed (m : HeapMemory) (i : ℕ) : HeapMemory := m.setListHead 2 { m.listHeads 2 with
  usedSlots := Bitmaps.clear (m.listHeads 2).usedSlots i
  numUsedSlots := ((m.listHeads 2).numUsedSlots + 255) % 256 }

theorem listHeads_freed (i : ℕ) : (freed m i).listHeads 2 = { m.listHeads 2 with
    usedSlots := Bitmaps.clear (m.listHeads 2).usedSlots i
    numUsedSlots := ((m.listHeads 2).numUsedSlots + 255) % 256 } := by
  rw [freed, listHeads_setListHead, if_pos rfl]

theorem used_freed (i : ℕ) :
    used (freed m i) = slots (Bitmaps.clear (m.listHeads 2).usedSlots i) := by
  rw [used, listHeads_freed]

theorem segment_freed (i j : ℕ) : (freed m i).segment (2, j) = m.segment (2, j) := by
  rw [HeapMemory.segment, listHeads_freed, HeapMemory.segment]

theorem Shape.freed {b : Bool} (h : Shape m b) (i : ℕ) : Shape (freed m i) b := by
  refine ⟨h.root, h.tree, ?_⟩
  rw [listHeads_freed]
  exact ⟨h.list.parent, h.list.index, h.list.initial⟩

theorem Shape.free_freed {b : Bool} (h : Shape m b) (i : ℕ) :
    (Heap.freed m i).free = freeBut m i := by
  rw [(h.freed i).free, used_freed, freeBut]
  exact List.map_congr_left fun j _ => by rw [segment_freed]

theorem Counted.freed {i : ℕ} (h : Counted m) (hi : i ∈ used m) (hne : (used m).length ≠ 128) :
    Counted (freed m i) := by
  have hlen : (used m).length = (used (Heap.freed m i)).length + 1 := by
    rw [used_freed]
    exact (places_clear hi).length_eq
  have hle : (used m).length ≤ 128 := slots_length_le _
  refine ⟨?_, fun _ => h.fullCount hne, fun _ => h.full hne⟩
  have hnum := h.numUsedSlots
  rw [listHeads_freed]
  simp only
  omega

theorem takeFront_exhaust {i n : ℕ} (h : Ready m false) (hlow : (m.listHeads 2).usedSlots 1 = 0)
    (hi : i ∈ used m) (hfound : ((m.trees 0).childs 0).largestHeap = some (2, i))
    (hn : n = (m.segment (2, i)).heapLength) (stack : ℕ) :
    ∃ m', takeFront m 0 n stack = .ok (m', (m.segment (2, i)).address) ∧ Ready m' false ∧
      m'.free.Perm (freeBut m i) := by
  have hinit : (shortened m i n).initialHeap = false := h.shape.list.initial i
  have hne : (used m).length ≠ 128 := slots_length_of_low hlow
  have hs₁ : Shape (m.setSegment (2, i) (shortened m i n)) false := h.shape.setSegment hinit
  have hc₁ : Counted (m.setSegment (2, i) (shortened m i n)) := h.counted.setSegment
  have hi₁ : i ∈ used (m.setSegment (2, i) (shortened m i n)) := by simpa using hi
  have hfree := freeSlot_spec hs₁ (h.cached.listHead _ hfound) (h.cached.index _ hfound)
    (lt_of_mem_slots hi) (h.counted.full hne)
  have hpos₂ : Positive (freed (m.setSegment (2, i) (shortened m i n)) i) := by
    intro j hj
    rw [used_freed, usedSlots_setSegment] at hj
    rw [segment_freed, segment_setSegment, if_neg fun h => not_mem_clear (h ▸ hj)]
    apply h.positive
    exact (places_clear hi).mem_iff.mpr (List.mem_cons_of_mem i hj)
  obtain ⟨m', hset, hready, hfree'⟩ := setLargestHeap_ready (hs₁.freed i)
    (hc₁.freed hi₁ (by simpa using hne)) hpos₂ (by
      rw [listHeads_freed]
      exact clear_of_eq_zero (by rwa [usedSlots_setSegment]) i) stack
  refine ⟨m', ?_, hready, ?_⟩
  · simp only [takeFront, hfound]
    rw [if_pos ⟨by rw [hn, Nat.sub_self], hinit⟩]
    change (freeSlot (m.setSegment (2, i) (shortened m i n)) _ >>= _) = _
    rw [hfree, ok_bind, h.cached.listHead _ hfound]
    change (setLargestHeap (freed (m.setSegment (2, i) (shortened m i n)) i) _ _ >>= _) = _
    rw [hset]
    rfl
  · rw [hfree', hs₁.free_freed, freeBut_setSegment]

end DevOs.Heap
