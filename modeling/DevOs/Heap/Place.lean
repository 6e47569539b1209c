import DevOs.Heap.Take

/-!
# Adding a free segment

`CreateHeap` finds the list of segments, or allocates the first tree and the first list, and fills
the first free slot there. The caches name the new segment when it is the largest.
-/

namespace DevOs.Heap

open Bitmaps Ranges

variable {m : HeapMemory}

theorem trackFull_spec {k : ℕ} (h : TreeShape (m.trees 1))
    (hcount : (m.trees 1).fullSlotCount = 0) :
    (trackFull m 1 0 k).listHeads = m.listHeads ∧ (trackFull m 1 0 k).trees 0 = m.trees 0 ∧
      TreeShape ((trackFull m 1 0 k).trees 1) ∧
      ((trackFull m 1 0 k).trees 1).childs = (m.trees 1).childs ∧
      (k ≠ 128 → (trackFull m 1 0 k).trees 1 = m.trees 1) := by
  by_cases hk : k = maxSlots
  · let tree := { m.trees 1 with
      fullSlotCount := ((m.trees 1).fullSlotCount + 1) % 256
      fullSlots := Bitmaps.set (m.trees 1).fullSlots 0 }
    have htrack : trackFull m 1 0 k = m.setTree 1 tree := by
      have hfew : ((m.setTree 1 tree).trees 1).fullSlotCount ≠ maxSlots := by
        rw [trees_setTree, if_pos rfl]
        simp [tree, hcount, maxSlots]
      rw [trackFull, if_pos hk]
      exact if_neg hfew
    rw [htrack]
    exact ⟨rfl, rfl, ⟨h.notRoot, h.parent, h.index, h.first, h.second, h.count, h.child⟩, rfl,
      fun hne => absurd hk hne⟩
  · rw [trackFull, if_neg hk]
    exact ⟨rfl, rfl, h, rfl, fun _ => rfl⟩

/-- The caches after a segment was added in the slot `i`, where the slots `is` were cached
before. -/
theorem cacheHeap_spec {b : Bool} {i n : ℕ} {is : List ℕ} (hs : Shape m b)
    (hused : ∀ j, j ∈ used m ↔ j = i ∨ j ∈ is) (hn : (m.segment (2, i)).heapLength = n)
    (hi : i < 128) (hlower : IsLargest m is ((m.trees 1).childs 0).largestHeap)
    (hupper : ((m.trees 0).childs 0).largestHeap = ((m.trees 1).childs 0).largestHeap)
    (hlist : ∀ h, ((m.trees 0).childs 0).largestHeap = some h →
      ((m.trees 0).childs 0).listHeadLargestHeap = some 2)
    (hindex : ∀ h, ((m.trees 0).childs 0).largestHeap = some h →
      ((m.trees 0).childs 0).indexLargestHeap = h.2) :
    Shape (cacheHeap m 0 1 0 2 i n) b ∧ Cached (cacheHeap m 0 1 0 2 i n) ∧
      (cacheHeap m 0 1 0 2 i n).listHeads = m.listHeads ∧
      SameMarks m (cacheHeap m 0 1 0 2 i n) := by
  by_cases hsmall : smaller m ((m.trees 1).childs 0).largestHeap n = true
  · have hnew : IsLargest m (used m) (some (2, i)) := by
      refine ⟨i, (hused i).mpr (Or.inl rfl), rfl, fun j hj => ?_⟩
      rcases (hused j).mp hj with rfl | hj
      · exact Nat.le_refl _
      · rw [hn]
        cases hc : ((m.trees 1).childs 0).largestHeap with
        | none =>
          rw [hc] at hlower
          rw [show is = [] from hlower] at hj
          cases hj
        | some h =>
          rw [hc] at hlower hsmall
          obtain ⟨k, hk, rfl, hmax⟩ := hlower
          have hlt : (m.segment (2, k)).heapLength < n := of_decide_eq_true hsmall
          exact (hmax j hj).trans hlt.le
    let lower := { (m.trees 1).childs 0 with largestHeap := some (2, i) }
    let upper := { (m.trees 0).childs 0 with
      largestHeap := some (2, i), indexLargestHeap := i % 256, listHeadLargestHeap := some 2 }
    have hcache : cacheHeap m 0 1 0 2 i n = (m.setItem 1 0 lower).setItem 0 0 upper := by
      have hsmall' : smaller (m.setItem 1 0 lower)
          (((m.setItem 1 0 lower).trees 0).childs 0).largestHeap n = true := by
        rw [trees_setItem, if_neg (by decide), hupper]
        exact hsmall
      rw [cacheHeap, if_pos hsmall]
      exact if_pos hsmall'
    rw [hcache]
    refine ⟨⟨?_, ?_, hs.list⟩, ⟨?_, ?_, fun g hg => ?_, fun g hg => ?_⟩, rfl, ?_⟩
    · have h := hs.root.setChild (x := upper) hs.root.child
      simpa [upper, hs.root.lock] using h
    · simpa using hs.tree.setChild (x := lower) hs.tree.child
    · simpa [lower, IsLargest] using hnew
    · simp [lower, upper]
    · simp [upper]
    · simp only [trees_setItem, if_pos, childs_setChild, upper, Option.some.injEq] at hg ⊢
      rw [← hg]
      exact Nat.mod_eq_of_lt (by omega)
    · constructor <;> simp
  · rw [cacheHeap, if_neg hsmall]
    refine ⟨hs, ⟨?_, hupper, hlist, hindex⟩, rfl, ⟨rfl, rfl⟩⟩
    cases hc : ((m.trees 1).childs 0).largestHeap with
    | none =>
      rw [hc] at hsmall
      exact absurd rfl hsmall
    | some h =>
      rw [hc] at hlower hsmall
      obtain ⟨k, hk, rfl, hmax⟩ := hlower
      have hle : n ≤ (m.segment (2, k)).heapLength := by
        simpa [smaller] using hsmall
      refine ⟨k, (hused k).mpr (Or.inr hk), rfl, fun j hj => ?_⟩
      rcases (hused j).mp hj with rfl | hj
      · exact hn.le.trans hle
      · exact hmax j hj

theorem Counted.next (h : Counted m) :
    ((m.listHeads 2).numUsedSlots + 1) % 256 = (used m).length + 1 := by
  have hle : (used m).length ≤ 128 := slots_length_le _
  rw [h.numUsedSlots]
  omega

/-- The memory when `CreateHeap` has marked the slot `i` as used and released the lock. -/
def marked (m : HeapMemory) (i : ℕ) : HeapMemory :=
  let numUsedSlots := ((m.listHeads 2).numUsedSlots + 1) % 256
  let m := m.setListHead 2 { m.listHeads 2 with
    usedSlots := Bitmaps.set (m.listHeads 2).usedSlots i, numUsedSlots := numUsedSlots }
  setLock (trackFull m 1 0 numUsedSlots) 0 0 false

/-- The memory when `CreateHeap` has filled the slot `i`, before it looks at the caches. -/
def filled (m : HeapMemory) (i address n : ℕ) : HeapMemory :=
  (marked m i).setSegment (2, i)
    { (marked m i).segment (2, i) with address := address, heapLength := n }

section Filled

variable {b : Bool} {i : ℕ} (h : Ready m b) (hroom : (used m).length ≠ 128)

include h hroom

theorem trees_marked :
    (marked m i).trees 0 = (m.trees 0).setChild 0 { (m.trees 0).childs 0 with lockMutex := false } ∧
      TreeShape ((marked m i).trees 1) ∧ ((marked m i).trees 1).childs = (m.trees 1).childs ∧
      ((used m).length + 1 ≠ 128 → (marked m i).trees 1 = m.trees 1) := by
  let m₁ := m.setListHead 2 { m.listHeads 2 with
    usedSlots := Bitmaps.set (m.listHeads 2).usedSlots i
    numUsedSlots := ((m.listHeads 2).numUsedSlots + 1) % 256 }
  obtain ⟨-, hroot, htree, hchilds, hsame⟩ := trackFull_spec (m := m₁)
    (k := ((m.listHeads 2).numUsedSlots + 1) % 256) h.shape.tree (h.counted.fullCount hroom)
  refine ⟨?_, htree, hchilds, fun hne => hsame (by rwa [h.counted.next])⟩
  rw [marked, setLock, trees_setItem, if_pos rfl, hroot]
  rfl

theorem listHeads_marked : (marked m i).listHeads 2 = { m.listHeads 2 with
    usedSlots := Bitmaps.set (m.listHeads 2).usedSlots i, numUsedSlots :=
  (used m).length + 1 } := by
  let m₁ := m.setListHead 2 { m.listHeads 2 with
    usedSlots := Bitmaps.set (m.listHeads 2).usedSlots i
    numUsedSlots := ((m.listHeads 2).numUsedSlots + 1) % 256 }
  obtain ⟨hlists, -⟩ := trackFull_spec (m := m₁)
    (k := ((m.listHeads 2).numUsedSlots + 1) % 256) h.shape.tree (h.counted.fullCount hroom)
  rw [marked, setLock, listHeads_setItem, hlists, listHeads_setListHead, if_pos rfl, h.counted.next]

variable (address n : ℕ)

theorem segment_filled (j : ℕ) : (filled m i address n).segment (2, j) =
    if j = i then { m.segment (2, i) with address := address, heapLength := n }
      else m.segment (2, j) := by
  have hseg (k : ℕ) : (marked m i).segment (2, k) = m.segment (2, k) := by
    rw [HeapMemory.segment, listHeads_marked h hroom, HeapMemory.segment]
  rw [filled, segment_setSegment, hseg, hseg]

theorem used_filled :
    used (filled m i address n) = slots (Bitmaps.set (m.listHeads 2).usedSlots i) := by
  rw [filled, used_setSegment, used, listHeads_marked h hroom]

theorem numUsedSlots_filled :
    ((filled m i address n).listHeads 2).numUsedSlots = (used m).length + 1 := by
  have hnum : ((filled m i address n).listHeads 2).numUsedSlots =
      ((marked m i).listHeads 2).numUsedSlots := by
    simp [filled, HeapMemory.setSegment]
  rw [hnum, listHeads_marked h hroom]

theorem shape_filled : Shape (filled m i address n) false := by
  obtain ⟨hroot, htree, -⟩ := trees_marked (i := i) h hroom
  have hs : Shape (marked m i) false := by
    refine ⟨?_, htree, ?_⟩
    · rw [hroot]
      exact h.shape.root.setChild
        (x := { (m.trees 0).childs 0 with lockMutex := false }) h.shape.root.child
    · rw [listHeads_marked h hroom]
      exact ⟨h.shape.list.parent, h.shape.list.index, h.shape.list.initial⟩
  exact hs.setSegment (hs.list.initial i)

end Filled

theorem exists_free_slot (hroom : (used m).length ≠ 128) :
    ∃ i is, slots (fun x => ~~~(m.listHeads 2).usedSlots x) = i :: is ∧ i < 128 ∧ i ∉ used m ∧
      (slots (Bitmaps.set (m.listHeads 2).usedSlots i)).Perm (i :: used m) := by
  have hle : (used m).length ≤ 128 := slots_length_le _
  have hlt : (used m).length < 128 := by omega
  obtain ⟨i, is, hslots⟩ := List.exists_cons_of_ne_nil (places_not_ne_nil hlt)
  have hi : i ∈ places numSlotGroups 64 (fun x => ~~~(m.listHeads 2).usedSlots x) := by
    rw [hslots]
    exact List.mem_cons_self
  obtain ⟨hlt, hset⟩ := mem_places.mp hi
  rw [bit_not (by decide), Bool.not_eq_true'] at hset
  refine ⟨i, is, hslots, hlt, ?_, places_set hlt hset⟩
  rw [used, slots, mem_places, hset]
  simp

theorem placeHeap_spec {b : Bool} (h : Ready m b) (hroom : (used m).length ≠ 128) (address : ℕ)
    {n : ℕ} (hn : 0 < n) :
    ∃ m', placeHeap m 0 1 0 2 address n = .ok m' ∧ Ready m' false ∧
      m'.free.Perm (⟨address, n⟩ :: m.free) := by
  obtain ⟨i, is, hslots, hlt, hnot, hperm⟩ := exists_free_slot hroom
  have hs := shape_filled (i := i) h hroom address n
  have hused := used_filled (i := i) h hroom address n
  have hseg := segment_filled (i := i) h hroom address n
  obtain ⟨hroot, -, hchilds, hsame⟩ := trees_marked (i := i) h hroom
  have hlower : ((filled m i address n).trees 1).childs 0 = (m.trees 1).childs 0 :=
    congrFun hchilds 0
  have hupper : ((filled m i address n).trees 0).childs 0 =
      { (m.trees 0).childs 0 with lockMutex := false } := by
    rw [filled, trees_setSegment, hroot, childs_setChild, if_pos rfl]
  have hmem (j : ℕ) : j ∈ used (filled m i address n) ↔ j = i ∨ j ∈ used m := by
    rw [hused, hperm.mem_iff, List.mem_cons]
  have hold {j : ℕ} (hj : j ∈ used m) : (filled m i address n).segment (2, j) =
      m.segment (2, j) := by
    have hne : j ≠ i := fun he => hnot (he ▸ hj)
    rw [hseg, if_neg hne]
  have hcached : IsLargest (filled m i address n) (used m)
      (((filled m i address n).trees 1).childs 0).largestHeap := by
    rw [hlower]
    have hbefore := h.cached.lower
    cases hc : ((m.trees 1).childs 0).largestHeap with
    | none =>
      rw [hc] at hbefore
      exact hbefore
    | some g =>
      rw [hc] at hbefore
      obtain ⟨k, hk, rfl, hmax⟩ := hbefore
      refine ⟨k, hk, rfl, fun j hj => ?_⟩
      rw [hold hj, hold hk]
      exact hmax j hj
  obtain ⟨hs', hc', hlists, hmarks⟩ := cacheHeap_spec hs hmem
    (show ((filled m i address n).segment (2, i)).heapLength = n by
      rw [hseg, if_pos rfl]) hlt hcached
    (by rw [hupper, hlower]; exact h.cached.upper)
    (fun g hg => by rw [hupper] at hg ⊢; exact h.cached.listHead g hg)
    (fun g hg => by rw [hupper] at hg ⊢; exact h.cached.index g hg)
  refine ⟨cacheHeap (filled m i address n) 0 1 0 2 i n, ?_, ⟨hs', ?_, hc', ?_⟩, ?_⟩
  · rw [placeHeap, hslots]
    rfl
  · refine Counted.congr ⟨?_, fun hne => ?_, fun hne => ?_⟩ hlists hmarks
    · rw [numUsedSlots_filled h hroom, hused, hperm.length_eq, List.length_cons]
    · rw [hused, hperm.length_eq, List.length_cons] at hne
      rw [filled, trees_setSegment, hsame hne]
      exact h.counted.fullCount hroom
    · rw [hused, hperm.length_eq, List.length_cons] at hne
      rw [filled, trees_setSegment, hsame hne]
      exact h.counted.full hroom
  · refine Positive.congr (m := filled m i address n) (fun j hj => ?_) hlists
    rw [hseg]
    split
    · exact hn
    · rename_i hne
      exact h.positive j (((hmem j).mp hj).resolve_left hne)
  · rw [hs.free_congr hs' hlists, hs.free, hused, h.shape.free]
    refine (hperm.map _).trans ?_
    rw [List.map_cons, hseg, if_pos rfl, List.map_congr_left fun j hj => by rw [hold hj]]
    rfl

theorem Ready.setLock {b : Bool} (h : Ready m b) (c : Bool) : Ready (setLock m 0 0 c) c := by
  have hitem : ((Heap.setLock m 0 0 c).trees 0).childs 0 =
      { (m.trees 0).childs 0 with lockMutex := c } := by
    rw [Heap.setLock, trees_setItem, if_pos rfl, childs_setChild, if_pos rfl]
  refine ⟨⟨?_, h.shape.tree, h.shape.list⟩, h.counted.congr rfl ⟨rfl, rfl⟩, ?_, h.positive⟩
  · have hroot := h.shape.root.setChild (x := { (m.trees 0).childs 0 with lockMutex := c })
      h.shape.root.child
    rw [Heap.setLock, trees_setItem, if_pos rfl]
    exact hroot
  · refine ⟨h.cached.lower, ?_, fun g hg => ?_, fun g hg => ?_⟩
    · rw [hitem]
      exact h.cached.upper
    · rw [hitem] at hg ⊢
      exact h.cached.listHead g hg
    · rw [hitem] at hg ⊢
      exact h.cached.index g hg

theorem slots_masked {full present : Bitmap 64} (hf : full = fun _ => 0) (h0 : present 0 = 1)
    (h1 : present 1 = 0) : slots (fun x => ~~~full x &&& present x) = [0] := by
  apply slots_one
  · rw [hf, h0]
    decide
  · rw [h1]
    exact BitVec.and_zero

theorem findNextAvailableChild_root (h : Ready m false) (hroom : (used m).length ≠ 128) :
    findNextAvailableChild m 0 = .ok (setLock m 0 0 true, some 0) := by
  have hroot := h.shape.root
  have hbyte : firstByte (setLock m 0 0 true) true 1 ≠ maxSlots := by
    have hzero := h.counted.fullCount hroom
    rw [firstByte, if_pos rfl, setLock, trees_setItem, if_neg (by decide), hzero]
    decide
  have hfind : findChild m 0 [0] = .ok (setLock m 0 0 true, some 0) := by
    simp only [findChild, hroot.root, hroot.lock, hroot.child, deref_some, ok_bind, Bool.and_false,
      if_true, if_neg hbyte]
    rfl
  simp only [findNextAvailableChild, hroot.count, hroot.fullCount,
    slots_masked hroot.full hroot.first hroot.second, hfind]
  rfl

theorem findNextAvailableChild_tree {b : Bool} (h : Ready m b) (hroom : (used m).length ≠ 128) :
    findNextAvailableChild m 1 = .ok (m, some 0) := by
  have htree := h.shape.tree
  have hbyte : firstByte m false 2 ≠ maxSlots := by
    rw [firstByte, if_neg (by decide), h.counted.numUsedSlots]
    exact hroom
  have hfind : findChild m 1 [0] = .ok (m, some 0) := by
    simp only [findChild, htree.notRoot, htree.child, deref_some, ok_bind, Bool.false_and,
      Bool.false_eq_true, if_false, if_neg hbyte]
    rfl
  simp only [findNextAvailableChild, htree.count, h.counted.fullCount hroom,
    slots_masked (h.counted.full hroom) htree.first htree.second, hfind]
  rfl

theorem createHeap_ready (h : Ready m false) (hroom : (used m).length ≠ 128) (address : ℕ) {n : ℕ}
    (hn : 0 < n) :
    ∃ m', createHeap m address n = .ok m' ∧ Ready m' false ∧
    m'.free.Perm (⟨address, n⟩ :: m.free) := by
  have hl := h.setLock true
  obtain ⟨m', hplace, hready, hfree⟩ := placeHeap_spec hl hroom address hn
  refine ⟨m', ?_, hready, ?_⟩
  · rw [createHeap, if_neg (by rw [h.shape.root.fullCount]; decide),
      findNextAvailableChild_root h hroom, ok_bind]
    simp only [hl.shape.root.child, deref_some, ok_bind, findNextAvailableChild_tree hl hroom,
      hl.shape.tree.child]
    exact hplace
  · rw [hl.shape.free] at hfree
    rw [h.shape.free]
    exact hfree

/-- The memory when `CreateHeap` has allocated the first tree. -/
def firstTree : HeapMemory := (mmAllocateSlot HeapMemory.initial 0 [0]).1

/-- The memory when `CreateHeap` has allocated the first list. -/
def firstList : HeapMemory := (mmAllocateSlot firstTree 1 [0]).1

theorem slots_all : ∃ is, slots (fun _ => ~~~0) = 0 :: is := ⟨_, rfl⟩

theorem findNextAvailableChild_initial :
    findNextAvailableChild HeapMemory.initial 0 = .ok (firstTree, some 0) := by
  obtain ⟨is, his⟩ := slots_all
  have hslots : slots (fun x => ~~~(HeapMemory.initial.trees 0).present x) = 0 :: is := his
  simp only [findNextAvailableChild, hslots]
  rfl

theorem findNextAvailableChild_firstTree :
    findNextAvailableChild firstTree 1 = .ok (firstList, some 0) := by
  obtain ⟨is, his⟩ := slots_all
  have hslots : slots (fun x => ~~~(firstTree.trees 1).present x) = 0 :: is := his
  simp only [findNextAvailableChild, hslots]
  rfl

theorem ready_firstList : Ready firstList true := by
  have hused : used firstList = [] := by decide
  refine ⟨⟨?_, ?_, ?_⟩, ⟨?_, fun _ => rfl, fun _ => rfl⟩,
    ⟨?_, rfl, fun g hg => ?_, fun g hg => ?_⟩, ?_⟩
  · exact ⟨rfl, by decide, rfl, rfl, rfl, rfl, rfl, rfl⟩
  · exact ⟨rfl, rfl, rfl, by decide, rfl, rfl, rfl⟩
  · exact ⟨rfl, rfl, fun _ => rfl⟩
  · rw [hused]
    rfl
  · exact hused
  · cases hg
  · cases hg
  · intro i hi
    rw [hused] at hi
    cases hi

theorem createHeap_initial (address : ℕ) {n : ℕ} (hn : 0 < n) :
    ∃ m', createHeap HeapMemory.initial address n = .ok m' ∧ Ready m' false ∧
      m'.free.Perm [⟨address, n⟩] := by
  have hused : used firstList = [] := by decide
  have hl := ready_firstList
  obtain ⟨m', hplace, hready, hfree⟩ := placeHeap_spec hl (by rw [hused]; decide) address hn
  refine ⟨m', ?_, hready, ?_⟩
  · have hchild : ((firstTree.trees 0).childs 0).child = some 1 := rfl
    rw [createHeap, if_neg (by decide), findNextAvailableChild_initial, ok_bind]
    simp only [hchild, deref_some, ok_bind, findNextAvailableChild_firstTree, hl.shape.tree.child]
    exact hplace
  · rw [hl.shape.free, hused] at hfree
    exact hfree

end DevOs.Heap
